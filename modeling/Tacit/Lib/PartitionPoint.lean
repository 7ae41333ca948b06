import Mathlib.Data.List.Basic
/-!
# The partition point of a sorted list

A binary search for the first index at which a predicate fails. On a list whose elements that meet the predicate all stand before
the others it returns their number, and the list splits there.
-/
namespace Tacit

/-- The search between `lo` and `hi`. -/
def partitionPoint (p : Nat → Prop) [DecidablePred p] (lo hi : Nat) : Nat :=
  if lo < hi then
    let m := (lo + hi) / 2
    if p m then partitionPoint p (m + 1) hi else partitionPoint p lo m
  else lo
termination_by hi - lo

section

variable {p : Nat → Prop} [DecidablePred p]

/-- The point that the predicate itself names. -/
theorem partitionPoint_eq {k : Nat} (hbelow : ∀ i < k, p i) : ∀ {lo hi : Nat}, lo ≤ k → k ≤ hi →
    (∀ i, k ≤ i → i < hi → ¬p i) → partitionPoint p lo hi = k := by
  intro lo hi
  induction lo, hi using partitionPoint.induct (p := p) with
  | case1 lo hi hlt m hp ih =>
    intro hlo hhi habove
    have hm : m < k := by
      by_contra hk
      exact habove m (Nat.le_of_not_lt hk) (by omega) hp
    rw [partitionPoint, if_pos hlt, if_pos hp]
    exact ih hm hhi habove
  | case2 lo hi hlt m hp ih =>
    intro hlo hhi habove
    have hm : k ≤ m := by
      by_contra hk
      exact hp (hbelow m (Nat.lt_of_not_le hk))
    rw [partitionPoint, if_pos hlt, if_neg hp]
    exact ih hlo hm fun i hi hlast => habove i hi (by omega)
  | case3 lo hi hge =>
    intro hlo hhi _
    rw [partitionPoint, if_neg hge]
    omega

end

section

variable {α : Type} {q : α → Prop} [DecidablePred q]

/-- Those that meet the predicate stand in front. -/
theorem filter_eq_take : ∀ {l : List α}, l.Pairwise (fun a b => q b → q a) → l.filter q = l.take (l.countP q)
  | [], _ => rfl
  | a :: l, h => by
    obtain ⟨hhead, htail⟩ := List.pairwise_cons.1 h
    by_cases ha : q a
    · rw [List.filter_cons_of_pos (by simpa using ha), List.countP_cons_of_pos (by simpa using ha), List.take_succ_cons,
        filter_eq_take htail]
    · have hnone : ∀ b ∈ l, ¬decide (q b) = true := fun b hb hq => ha (hhead b hb (of_decide_eq_true hq))
      rw [List.filter_cons_of_neg (by simpa using ha), List.countP_cons_of_neg (by simpa using ha),
        List.countP_eq_zero.2 hnone, List.take_zero, List.filter_eq_nil_iff.2 hnone]

theorem filter_not_eq_drop : ∀ {l : List α}, l.Pairwise (fun a b => q b → q a) → (l.filter fun a => ¬q a) = l.drop (l.countP q)
  | [], _ => rfl
  | a :: l, h => by
    obtain ⟨hhead, htail⟩ := List.pairwise_cons.1 h
    by_cases ha : q a
    · rw [List.filter_cons_of_neg (by simpa using ha), List.countP_cons_of_pos (by simpa using ha), List.drop_succ_cons,
        filter_not_eq_drop htail]
    · have hnone : ∀ b ∈ l, ¬decide (q b) = true := fun b hb hq => ha (hhead b hb (of_decide_eq_true hq))
      have hall : (l.filter fun a => ¬q a) = l := List.filter_eq_self.2 fun b hb => by simpa using hnone b hb
      rw [List.filter_cons_of_pos (by simpa using ha), List.countP_cons_of_neg (by simpa using ha),
        List.countP_eq_zero.2 hnone, List.drop_zero, hall]

/-- **The search counts them.** -/
theorem partitionPoint_getD {l : List α} (h : l.Pairwise fun a b => q b → q a) (d : α) :
    partitionPoint (fun m => q (l.getD m d)) 0 l.length = l.countP q := by
  have hle : l.countP q ≤ l.length := List.countP_le_length
  refine partitionPoint_eq ?_ (Nat.zero_le _) hle ?_
  · intro i hi
    have hmem : l.getD i d ∈ l.filter q := by
      rw [filter_eq_take h, List.getD_eq_getElem?_getD, List.getElem?_eq_getElem (by omega), Option.getD_some,
        List.mem_take_iff_getElem]
      exact ⟨i, by omega, rfl⟩
    simpa using (List.mem_filter.1 hmem).2
  · intro i hi hlt
    have hmem : l.getD i d ∈ l.filter fun a => ¬q a := by
      rw [filter_not_eq_drop h, List.getD_eq_getElem?_getD, List.getElem?_eq_getElem hlt, Option.getD_some,
        List.mem_drop_iff_getElem]
      exact ⟨i - l.countP q, by omega, by congr 1; omega⟩
    simpa using (List.mem_filter.1 hmem).2

end

end Tacit
