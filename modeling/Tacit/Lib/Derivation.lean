import Mathlib.Algebra.Order.BigOperators.Group.List
import Mathlib.Algebra.Order.Ring.Nat
import Mathlib.Data.List.Perm.Subperm
/-!
# Finite derivations from rules

A rule needs some facts and gives others. A fact is derivable when a finite tree of rules over the base ends in it. What
is derivable does not depend on the order of the rules, and lies in every set that holds the base and is closed under
them. The second half counts: facts that are used once, each taken from a supply, weigh no more than the supply.
-/
namespace Tacit

section Derives

variable {α ρ : Type} (needs gives : ρ → List α)

/-- `a` has a finite derivation from `base` by `rules`. -/
inductive Derives (base : List α) (rules : List ρ) : α → Prop
  | base {a : α} (h : a ∈ base) : Derives base rules a
  | rule {r : ρ} {a : α} (hr : r ∈ rules) (hneeds : ∀ b ∈ needs r, Derives base rules b) (ha : a ∈ gives r) :
    Derives base rules a

variable {needs gives} {base : List α} {rules rules' : List ρ} {a : α}

namespace Derives

theorem mem_closed {s : α → Prop} (hbase : ∀ a ∈ base, s a)
    (hrules : ∀ r ∈ rules, (∀ b ∈ needs r, s b) → ∀ a ∈ gives r, s a) (h : Derives needs gives base rules a) : s a := by
  induction h with
  | base h => exact hbase _ h
  | rule hr _ ha ih => exact hrules _ hr ih _ ha

theorem mono (hsub : rules ⊆ rules') (h : Derives needs gives base rules a) : Derives needs gives base rules' a :=
  h.mem_closed (fun _ => .base) fun _ hr hneeds _ ha => .rule (hsub hr) hneeds ha

theorem perm (hp : rules.Perm rules') : Derives needs gives base rules a ↔ Derives needs gives base rules' a :=
  ⟨mono hp.subset, mono hp.symm.subset⟩

end Derives

end Derives

section Supply

variable {α : Type} (w : α → Nat)

/-- Facts that are all different, each from the supply, weigh no more than it. -/
theorem sum_le_of_nodup_subset {used supply : List α} (hnd : used.Nodup) (hsub : used ⊆ supply) :
    (used.map w).sum ≤ (supply.map w).sum := by
  obtain ⟨l, hperm, hl⟩ := hnd.subperm hsub
  calc (used.map w).sum = (l.map w).sum := (hperm.map w).sum_eq.symm
    _ ≤ (supply.map w).sum := (hl.map w).sum_le_sum fun _ _ => Nat.zero_le _

/-- List by list no heavier, no heavier together. -/
theorem sum_flatten_le {ρ : Type} (f g : ρ → List α) {l : List ρ}
    (h : ∀ r ∈ l, ((f r).map w).sum ≤ ((g r).map w).sum) :
    ((l.map f).flatten.map w).sum ≤ ((l.map g).flatten.map w).sum := by
  induction l with
  | nil => simp
  | cons r l ih =>
    simp only [List.map_cons, List.flatten_cons, List.map_append, List.sum_append]
    exact Nat.add_le_add (h r (List.mem_cons_self ..)) (ih fun r' hr' => h r' (List.mem_cons_of_mem _ hr'))

end Supply

section Keys

variable {κ ν : Type} [DecidableEq κ] {k : κ} {v : ν}

/-- Under distinct keys, the first entry of a key is its only one. -/
theorem find?_key_eq_some : ∀ {l : List (κ × ν)}, (l.map Prod.fst).Nodup →
    ((l.find? (·.1 == k)).map Prod.snd = some v ↔ (k, v) ∈ l)
  | [], _ => by simp
  | (k', v') :: l, hnd => by
    rw [List.map_cons, List.nodup_cons] at hnd
    by_cases hk : k' = k
    · subst hk
      have hnot : (k', v) ∉ l := fun hmem => hnd.1 (List.mem_map.2 ⟨_, hmem, rfl⟩)
      simp [hnot, eq_comm]
    · have hk' : (k, v) ≠ (k', v') := fun h => hk (congrArg Prod.fst h).symm
      rw [List.find?_cons_of_neg (by simpa using hk), find?_key_eq_some hnd.2, List.mem_cons, or_iff_right hk']

end Keys

end Tacit
