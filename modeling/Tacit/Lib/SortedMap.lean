import Mathlib.Algebra.BigOperators.Group.Finset.Basic
import Mathlib.Algebra.BigOperators.Group.List.Basic
import Mathlib.Algebra.BigOperators.Ring.Finset
import Mathlib.Algebra.Group.Int.Defs
import Mathlib.Algebra.Order.BigOperators.Group.Finset
import Mathlib.Algebra.Order.Group.Int
import Mathlib.Data.List.Pairwise
import Mathlib.Order.Basic
import Mathlib.Tactic.Abel
import Mathlib.Tactic.Common
/-!
# Maps kept as sorted vectors

A `Vec<(K, V)>` kept strictly ascending by key and searched by `binary_search_by`. The order is a field of
the structure, so a lookup is a lookup in the list (`get_set`, `get_erase`), and a sum over the entries
changes by one entry at a time (`total_set`, `total_erase`).
-/
namespace Tacit

structure SortedMap (κ ν : Type) [LinearOrder κ] where
  entries : List (κ × ν)
  sorted : entries.Pairwise (fun a b => a.1 < b.1)

namespace SortedMap

variable {κ ν : Type} [LinearOrder κ]

instance [DecidableEq ν] : DecidableEq (SortedMap κ ν) := fun a b =>
  decidable_of_iff (a.entries = b.entries) (by
    constructor
    · intro h; cases a; cases b; simp_all
    · rintro rfl; rfl)

def empty : SortedMap κ ν := ⟨[], List.Pairwise.nil⟩

def getL (k : κ) : List (κ × ν) → Option ν
  | [] => none
  | (a, v) :: t => if a = k then some v else getL k t

/-- `binary_search_by` and the entry it finds. -/
def get (m : SortedMap κ ν) (k : κ) : Option ν := getL k m.entries

/-- Write `v` at `k`, in order. -/
def setL (k : κ) (v : ν) : List (κ × ν) → List (κ × ν)
  | [] => [(k, v)]
  | (a, w) :: t => if k < a then (k, v) :: (a, w) :: t else if a = k then (k, v) :: t else (a, w) :: setL k v t

def eraseL (k : κ) : List (κ × ν) → List (κ × ν)
  | [] => []
  | (a, w) :: t => if a = k then t else (a, w) :: eraseL k t

theorem mem_setL {k : κ} {v : ν} : ∀ {l : List (κ × ν)} {x : κ × ν}, x ∈ setL k v l → x = (k, v) ∨ x ∈ l
  | [], x, h => by simpa [setL] using h
  | (a, w) :: t, x, h => by
    unfold setL at h
    split at h
    · simpa using h
    · split at h
      · rcases List.mem_cons.1 h with h | h
        · exact Or.inl h
        · exact Or.inr (List.mem_cons_of_mem _ h)
      · rcases List.mem_cons.1 h with h | h
        · exact Or.inr (h ▸ List.mem_cons_self)
        · rcases mem_setL h with h | h
          · exact Or.inl h
          · exact Or.inr (List.mem_cons_of_mem _ h)

theorem mem_eraseL {k : κ} : ∀ {l : List (κ × ν)} {x : κ × ν}, x ∈ eraseL k l → x ∈ l
  | [], _, h => h
  | (a, w) :: t, x, h => by
    unfold eraseL at h
    split at h
    · exact List.mem_cons_of_mem _ h
    · rcases List.mem_cons.1 h with h | h
      · exact h ▸ List.mem_cons_self
      · exact List.mem_cons_of_mem _ (mem_eraseL h)

theorem sorted_setL {k : κ} {v : ν} : ∀ {l : List (κ × ν)}, l.Pairwise (fun a b => a.1 < b.1) →
    (setL k v l).Pairwise (fun a b => a.1 < b.1)
  | [], _ => by simp [setL]
  | (a, w) :: t, h => by
    obtain ⟨ha, ht⟩ := List.pairwise_cons.1 h
    unfold setL
    split
    · rename_i hk
      refine List.pairwise_cons.2 ⟨?_, h⟩
      intro x hx
      rcases List.mem_cons.1 hx with rfl | hx
      · exact hk
      · exact hk.trans (ha x hx)
    · rename_i hk
      split
      · rename_i hak
        subst hak
        exact List.pairwise_cons.2 ⟨ha, ht⟩
      · rename_i hak
        refine List.pairwise_cons.2 ⟨?_, sorted_setL ht⟩
        intro x hx
        rcases mem_setL hx with rfl | hx
        · exact lt_of_le_of_ne (not_lt.1 hk) hak
        · exact ha x hx

theorem sorted_eraseL {k : κ} : ∀ {l : List (κ × ν)}, l.Pairwise (fun a b => a.1 < b.1) →
    (eraseL k l).Pairwise (fun a b => a.1 < b.1)
  | [], h => h
  | (a, w) :: t, h => by
    obtain ⟨ha, ht⟩ := List.pairwise_cons.1 h
    unfold eraseL
    split
    · exact ht
    · exact List.pairwise_cons.2 ⟨fun x hx => ha x (mem_eraseL hx), sorted_eraseL ht⟩

def set (m : SortedMap κ ν) (k : κ) (v : ν) : SortedMap κ ν := ⟨setL k v m.entries, sorted_setL m.sorted⟩

def erase (m : SortedMap κ ν) (k : κ) : SortedMap κ ν := ⟨eraseL k m.entries, sorted_eraseL m.sorted⟩

/-- `insert`; `none` = the panic on a key that is there. -/
def insert (m : SortedMap κ ν) (k : κ) (v : ν) : Option (SortedMap κ ν) :=
  if (m.get k).isSome then none else some (m.set k v)

/-- `update`; `none` = the panic on an absent key. -/
def update (m : SortedMap κ ν) (k : κ) (v : ν) : Option (SortedMap κ ν) :=
  if (m.get k).isSome then some (m.set k v) else none

/-! ## Lookups -/

theorem getL_none_of_lt {k : κ} : ∀ {l : List (κ × ν)}, (∀ x ∈ l, k < x.1) → getL k l = none
  | [], _ => rfl
  | (a, w) :: t, h => by
    have hne : a ≠ k := (h (a, w) (by simp)).ne'
    rw [getL, if_neg hne]
    exact getL_none_of_lt (fun x hx => h x (by simp [hx]))

theorem getL_setL {k j : κ} {v : ν} : ∀ {l : List (κ × ν)}, l.Pairwise (fun a b => a.1 < b.1) →
    getL j (setL k v l) = if k = j then some v else getL j l
  | [], _ => by simp [setL, getL]
  | (a, w) :: t, h => by
    obtain ⟨ha, ht⟩ := List.pairwise_cons.1 h
    unfold setL
    split
    · simp [getL]
    · split
      · rename_i hak
        subst hak
        by_cases haj : a = j <;> simp [getL, haj]
      · rename_i hak
        rw [getL, getL, getL_setL ht]
        by_cases haj : a = j
        · have : k ≠ j := fun e => hak (haj.trans e.symm)
          simp [haj, this]
        · simp [haj]

theorem getL_eraseL {k j : κ} : ∀ {l : List (κ × ν)}, l.Pairwise (fun a b => a.1 < b.1) →
    getL j (eraseL k l) = if k = j then none else getL j l
  | [], _ => by simp [eraseL, getL]
  | (a, w) :: t, h => by
    obtain ⟨ha, ht⟩ := List.pairwise_cons.1 h
    unfold eraseL
    split
    · rename_i hak
      subst hak
      by_cases haj : a = j
      · subst haj; simpa using getL_none_of_lt ha
      · simp [getL, haj]
    · rename_i hak
      rw [getL, getL, getL_eraseL ht]
      by_cases haj : a = j
      · have : k ≠ j := fun e => hak (haj.trans e.symm)
        simp [haj, this]
      · simp [haj]

@[simp] theorem get_empty (k : κ) : (empty : SortedMap κ ν).get k = none := rfl

@[simp] theorem get_set (m : SortedMap κ ν) (k j : κ) (v : ν) :
    (m.set k v).get j = if k = j then some v else m.get j := getL_setL m.sorted

@[simp] theorem get_erase (m : SortedMap κ ν) (k j : κ) :
    (m.erase k).get j = if k = j then none else m.get j := getL_eraseL m.sorted

theorem get_set_self (m : SortedMap κ ν) (k : κ) (v : ν) : (m.set k v).get k = some v := by simp

theorem insert_eq_some {m m' : SortedMap κ ν} {k : κ} {v : ν} :
    m.insert k v = some m' ↔ m.get k = none ∧ m' = m.set k v := by
  unfold insert
  cases h : m.get k <;> simp [eq_comm]

theorem update_eq_some {m m' : SortedMap κ ν} {k : κ} {v : ν} :
    m.update k v = some m' ↔ (∃ w, m.get k = some w) ∧ m' = m.set k v := by
  unfold update
  cases h : m.get k <;> simp [eq_comm]

theorem getL_eq_some_iff {k : κ} {v : ν} : ∀ {l : List (κ × ν)}, l.Pairwise (fun a b => a.1 < b.1) →
    (getL k l = some v ↔ (k, v) ∈ l)
  | [], _ => by simp [getL]
  | (a, w) :: t, h => by
    obtain ⟨ha, ht⟩ := List.pairwise_cons.1 h
    rw [getL]
    split
    · rename_i hak
      subst hak
      constructor
      · intro e; cases e; simp
      · intro hm
        rcases List.mem_cons.1 hm with e | hm
        · cases e; rfl
        · exact absurd (ha _ hm) (lt_irrefl _)
    · rename_i hak
      rw [getL_eq_some_iff ht]
      constructor
      · intro hm; exact List.mem_cons_of_mem _ hm
      · intro hm
        rcases List.mem_cons.1 hm with e | hm
        · cases e; exact absurd rfl hak
        · exact hm

theorem get_eq_some_iff {m : SortedMap κ ν} {k : κ} {v : ν} : m.get k = some v ↔ (k, v) ∈ m.entries :=
  getL_eq_some_iff m.sorted

theorem nodup_entries (m : SortedMap κ ν) : m.entries.Nodup :=
  m.sorted.imp fun h e => absurd (e ▸ h) (lt_irrefl _)

/-- Two maps with the same lookups are the same vector. -/
theorem ext_get {m m' : SortedMap κ ν} (h : ∀ k, m.get k = m'.get k) : m = m' := by
  have hp : m.entries.Perm m'.entries := by
    refine (List.perm_ext_iff_of_nodup m.nodup_entries m'.nodup_entries).2 ?_
    rintro ⟨k, v⟩
    rw [← get_eq_some_iff, ← get_eq_some_iff, h]
  have he : m.entries = m'.entries := hp.eq_of_pairwise (fun a b _ _ hab hba => absurd (hab.trans hba) (lt_irrefl _)) m.sorted m'.sorted
  cases m
  cases m'
  cases he
  rfl

/-- A write is undone by writing the old value back. -/
theorem set_set_of_get {m : SortedMap κ ν} {k : κ} {v : ν} (h : m.get k = some v) (w : ν) : (m.set k w).set k v = m := by
  refine ext_get fun j => ?_
  by_cases hj : k = j
  · subst hj
    simp [h]
  · simp [hj]

theorem set_get_self {m : SortedMap κ ν} {k : κ} {v : ν} (h : m.get k = some v) : m.set k v = m := by
  refine ext_get fun j => ?_
  by_cases hj : k = j
  · subst hj
    simp [h]
  · simp [hj]

/-! ## Sums over the entries -/

def totalL (f : κ → ν → Int) (l : List (κ × ν)) : Int := (l.map fun x => f x.1 x.2).sum

/-- The sum of `f` over the entries. -/
def total (m : SortedMap κ ν) (f : κ → ν → Int) : Int := totalL f m.entries

/-- The value `f` gives the entry at `k`, zero if there is none. -/
def at' (m : SortedMap κ ν) (f : κ → ν → Int) (k : κ) : Int := ((m.get k).map (f k)).getD 0

theorem totalL_setL (f : κ → ν → Int) {k : κ} {v : ν} : ∀ {l : List (κ × ν)},
    l.Pairwise (fun a b => a.1 < b.1) →
    totalL f (setL k v l) = totalL f l + f k v - ((getL k l).map (f k)).getD 0
  | [], _ => by simp [setL, totalL, getL]
  | (a, w) :: t, h => by
    obtain ⟨ha, ht⟩ := List.pairwise_cons.1 h
    unfold setL
    split
    · rename_i hk
      have hne : a ≠ k := hk.ne'
      have hn : getL k t = none := getL_none_of_lt (fun x hx => hk.trans (ha x hx))
      simp [totalL, getL, hne, hn]
      omega
    · split
      · rename_i hak
        subst hak
        simp [totalL, getL]
        omega
      · rename_i hak
        have ih := totalL_setL f (k := k) (v := v) ht
        simp only [totalL, List.map_cons, List.sum_cons, getL, if_neg hak] at ih ⊢
        omega

theorem totalL_eraseL (f : κ → ν → Int) {k : κ} : ∀ {l : List (κ × ν)},
    l.Pairwise (fun a b => a.1 < b.1) →
    totalL f (eraseL k l) = totalL f l - ((getL k l).map (f k)).getD 0
  | [], _ => by simp [eraseL, totalL, getL]
  | (a, w) :: t, h => by
    obtain ⟨ha, ht⟩ := List.pairwise_cons.1 h
    unfold eraseL
    split
    · rename_i hak
      subst hak
      simp [totalL, getL]
    · rename_i hak
      have ih := totalL_eraseL f (k := k) ht
      simp only [totalL, List.map_cons, List.sum_cons, getL, if_neg hak] at ih ⊢
      omega

theorem total_set (m : SortedMap κ ν) (f : κ → ν → Int) (k : κ) (v : ν) :
    (m.set k v).total f = m.total f + f k v - m.at' f k := totalL_setL f m.sorted

theorem total_erase (m : SortedMap κ ν) (f : κ → ν → Int) (k : κ) :
    (m.erase k).total f = m.total f - m.at' f k := totalL_eraseL f m.sorted

theorem at'_of_some {m : SortedMap κ ν} {f : κ → ν → Int} {k : κ} {v : ν} (h : m.get k = some v) :
    m.at' f k = f k v := by simp [at', h]

theorem at'_of_none {m : SortedMap κ ν} {f : κ → ν → Int} {k : κ} (h : m.get k = none) :
    m.at' f k = 0 := by simp [at', h]

theorem total_nonneg {m : SortedMap κ ν} {f : κ → ν → Int} (hf : ∀ k v, 0 ≤ f k v) : 0 ≤ m.total f := by
  refine List.sum_nonneg fun x hx => ?_
  obtain ⟨y, -, rfl⟩ := List.mem_map.1 hx
  exact hf y.1 y.2

theorem at'_le_total {m : SortedMap κ ν} {f : κ → ν → Int} (hf : ∀ k v, 0 ≤ f k v) (k : κ) : m.at' f k ≤ m.total f := by
  have h := total_nonneg (m := m.erase k) hf
  rw [total_erase] at h
  omega

/-- If every entry has an item of its own in `S`, worth as much, the entries are worth no more than `S`. -/
theorem total_le_sum {γ : Type} [Nonempty γ] {S : Finset γ} {w : γ → Nat} {g : γ → κ} {m : SortedMap κ ν} {f : κ → ν → Int}
    (h : ∀ k v, m.get k = some v → ∃ c ∈ S, g c = k ∧ f k v = w c) : m.total f ≤ ∑ c ∈ S, w c := by
  classical
  have hmem : ∀ x ∈ m.entries.toFinset, ∃ c ∈ S, g c = x.1 ∧ f x.1 x.2 = w c := fun x hx =>
    h x.1 x.2 (get_eq_some_iff.2 (List.mem_toFinset.1 hx))
  choose! c hS hkey hw using hmem
  have hinj : ∀ x ∈ m.entries.toFinset, ∀ y ∈ m.entries.toFinset, c x = c y → x = y := by
    intro x hx y hy hxy
    have hk : x.1 = y.1 := by rw [← hkey x hx, ← hkey y hy, hxy]
    have hx' := get_eq_some_iff.2 (List.mem_toFinset.1 hx)
    have hy' := get_eq_some_iff.2 (List.mem_toFinset.1 hy)
    rw [hk, hy'] at hx'
    exact Prod.ext hk (Option.some.inj hx').symm
  calc m.total f = ∑ x ∈ m.entries.toFinset, f x.1 x.2 := (List.sum_toFinset _ m.nodup_entries).symm
    _ = ∑ x ∈ m.entries.toFinset, (w (c x) : Int) := Finset.sum_congr rfl hw
    _ = ∑ y ∈ m.entries.toFinset.image c, (w y : Int) := (Finset.sum_image (f := fun y => (w y : Int)) fun x hx y hy => hinj x hx y hy).symm
    _ ≤ ∑ c ∈ S, (w c : Int) := Finset.sum_le_sum_of_subset_of_nonneg (Finset.image_subset_iff.2 hS) (by simp)
    _ = (∑ c ∈ S, w c : Nat) := (Nat.cast_sum S w).symm

end SortedMap

end Tacit
