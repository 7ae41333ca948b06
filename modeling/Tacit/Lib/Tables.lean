import Mathlib.Data.List.Nodup
import Mathlib.Data.List.Sort
import Tacit.Lib.Caught
/-!
# Tables with a primary key

A table is the list of its rows as they were inserted. An insert refuses a key that is taken; rows with fresh keys are all inserted.
-/
namespace Tacit

open Prog

section

variable {ε κ ρ : Type} [DecidableEq κ] (key : ρ → κ) (err : ε)

/-- `INSERT INTO …`. -/
def insertRow (r : ρ) : Prog (List ρ) ε Unit := do
  let rows ← get
  check (key r ∈ rows.map key) err
  modify fun rows => rows ++ [r]

/-- One row after the other. -/
def insertRows (rows : List ρ) : Prog (List ρ) ε Unit := forEach rows (insertRow key err)

variable {key err}

/-- **Rows with fresh keys** are all inserted. -/
theorem insertRows_fresh : ∀ {rows table : List ρ}, ((table ++ rows).map key).Nodup →
    insertRows key err rows table = .ok () (table ++ rows)
  | [], table, _ => by
    rw [List.append_nil]
    rfl
  | r :: rows, table, h => by
    have hfresh : key r ∉ table.map key := by
      rw [List.map_append, List.map_cons, List.nodup_append'] at h
      exact fun hmem => h.2.2 hmem List.mem_cons_self
    have hinsert : insertRow key err r table = .ok () (table ++ [r]) := by
      simp only [insertRow, bind_eq_ok, get_eq_ok, check_eq_ok, modify_eq_ok]
      exact ⟨_, _, ⟨rfl, rfl⟩, (), _, ⟨hfresh, rfl⟩, rfl⟩
    have hassoc : table ++ [r] ++ rows = table ++ r :: rows := by simp
    have hrest : insertRows key err rows (table ++ [r]) = .ok () (table ++ [r] ++ rows) := insertRows_fresh (hassoc ▸ h)
    rw [hassoc] at hrest
    exact forEach_cons_eq_ok.2 ⟨_, hinsert, hrest⟩

/-- **A select by key** finds the row that has it. -/
theorem find?_key {table : List ρ} (h : (table.map key).Nodup) {k : κ} {r : ρ} :
    (table.find? fun r => key r = k) = some r ↔ r ∈ table ∧ key r = k := by
  constructor
  · intro hfind
    have hkey := List.find?_some hfind
    exact ⟨List.mem_of_find?_eq_some hfind, of_decide_eq_true hkey⟩
  · rintro ⟨hmem, rfl⟩
    have hsome : (table.find? fun r' => key r' = key r).isSome := List.find?_isSome.2 ⟨r, hmem, decide_eq_true rfl⟩
    obtain ⟨r', hr'⟩ := Option.isSome_iff_exists.1 hsome
    have hkey := List.find?_some hr'
    rw [hr', List.inj_on_of_nodup_map h (List.mem_of_find?_eq_some hr') hmem (of_decide_eq_true hkey)]

end

section

variable {κ ρ : Type} [LinearOrder κ] (f : ρ → κ)

/-- `ORDER BY f`. -/
def orderBy (rows : List ρ) : List ρ := rows.mergeSort fun a b => f a ≤ f b

variable {f}

theorem orderBy_perm (rows : List ρ) : (orderBy f rows).Perm rows := List.mergeSort_perm ..

theorem orderBy_sorted (rows : List ρ) : (orderBy f rows).Pairwise fun a b => f a ≤ f b := by
  have h : (rows.mergeSort fun a b => decide (f a ≤ f b)).Pairwise fun a b => decide (f a ≤ f b) :=
    List.pairwise_mergeSort (by simpa using fun _ _ _ => le_trans) (by simpa using fun a b => le_total (f a) (f b)) rows
  simpa [orderBy] using h

/-- Rows that stand in order stay. -/
theorem orderBy_of_sorted {rows : List ρ} (h : rows.Pairwise fun a b => f a ≤ f b) : orderBy f rows = rows :=
  List.mergeSort_of_pairwise (by simpa using h)

end

end Tacit
