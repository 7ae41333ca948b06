import Mathlib.Algebra.Order.Ring.Int
import Mathlib.Data.List.Basic
import Mathlib.Data.List.Pairwise
import Mathlib.Tactic.SplitIfs
/-!
# Rows stamped with the height of their block

The rows of consecutive blocks in one table, each carrying the height of the block that wrote it. The table is sorted by height; a
delete by height cuts it where the blocks are cut, and a filter by height finds the rows of one block.
-/
namespace Tacit

section

variable {α β : Type} (height : α → Int) (rows : β → List α)

/-- Every row of the `i`-th block carries `start + i`. -/
def Stamped (start : Int) (blocks : List β) : Prop :=
  ∀ (i : Nat) b, blocks[i]? = some b → ∀ r ∈ rows b, height r = start + i

variable {height rows} {start h : Int} {b : β} {blocks : List β}

theorem Stamped.head (hs : Stamped height rows start (b :: blocks)) : ∀ r ∈ rows b, height r = start := by
  have h0 := hs 0 b rfl
  simpa using h0

theorem Stamped.tail (hs : Stamped height rows start (b :: blocks)) : Stamped height rows (start + 1) blocks := by
  intro i c hc r hr
  rw [hs (i + 1) c hc r hr]
  omega

theorem Stamped.take (hs : Stamped height rows start blocks) (n : Nat) : Stamped height rows start (blocks.take n) := by
  intro i c hc
  rw [List.getElem?_take] at hc
  split_ifs at hc
  exact hs i c hc

theorem Stamped.le : ∀ {blocks : List β} {start : Int}, Stamped height rows start blocks → ∀ r ∈ blocks.flatMap rows, start ≤ height r
  | [], _, _, _, hr => by simp at hr
  | b :: blocks, start, hs, r, hr => by
    rw [List.flatMap_cons, List.mem_append] at hr
    rcases hr with hr | hr
    · exact (hs.head r hr).ge
    · have := hs.tail.le r hr
      omega

theorem Stamped.lt : ∀ {blocks : List β} {start : Int}, Stamped height rows start blocks →
    ∀ r ∈ blocks.flatMap rows, height r < start + blocks.length
  | [], _, _, _, hr => by simp at hr
  | b :: blocks, start, hs, r, hr => by
    rw [List.flatMap_cons, List.mem_append] at hr
    rw [List.length_cons]
    rcases hr with hr | hr
    · rw [hs.head r hr]
      omega
    · have := hs.tail.lt r hr
      omega

theorem Stamped.sorted : ∀ {blocks : List β} {start : Int}, Stamped height rows start blocks →
    (blocks.flatMap rows).Pairwise fun r r' => height r ≤ height r'
  | [], _, _ => List.Pairwise.nil
  | b :: blocks, start, hs => by
    rw [List.flatMap_cons, List.pairwise_append]
    refine ⟨?_, hs.tail.sorted, fun r hr r' hr' => ?_⟩
    · refine List.pairwise_iff_forall_sublist.2 fun {r r'} hsub => ?_
      rw [hs.head r (hsub.subset List.mem_cons_self)]
      exact (hs.head r' (hsub.subset (List.mem_cons_of_mem _ List.mem_cons_self))).ge
    · have := hs.tail.le r' hr'
      rw [hs.head r hr]
      omega

/-- **A delete by height** leaves the rows of the blocks below it. -/
theorem Stamped.filter_lt : ∀ {blocks : List β} {start : Int}, Stamped height rows start blocks →
    ((blocks.flatMap rows).filter fun r => height r < h) = (blocks.take (h - start).toNat).flatMap rows
  | [], _, _ => by simp
  | b :: blocks, start, hs => by
    have hsplit : (h - start).toNat = 0 ∧ h ≤ start ∨ (h - start).toNat = (h - (start + 1)).toNat + 1 ∧ start < h := by omega
    rcases hsplit with ⟨hzero, hle⟩ | ⟨hsucc, hlt⟩
    · rw [hzero, List.take_zero, List.flatMap_nil, List.filter_eq_nil_iff]
      intro r hr
      have := hs.le r hr
      simpa using Int.le_trans hle this
    · have hall : ((rows b).filter fun r => height r < h) = rows b := by
        refine List.filter_eq_self.2 fun r hr => ?_
        simpa [hs.head r hr] using hlt
      rw [hsucc, List.take_succ_cons, List.flatMap_cons, List.flatMap_cons, List.filter_append, hall, hs.tail.filter_lt]

/-- **A filter by height** finds the rows of that block. -/
theorem Stamped.filter_eq : ∀ {blocks : List β} {start : Int}, Stamped height rows start blocks → start ≤ h →
    ((blocks.flatMap rows).filter fun r => height r = h) = (blocks[(h - start).toNat]?.map rows).getD []
  | [], _, _, _ => by simp
  | b :: blocks, start, hs, hle => by
    rw [List.flatMap_cons, List.filter_append]
    have hsplit : start = h ∨ (h - start).toNat = (h - (start + 1)).toNat + 1 ∧ start + 1 ≤ h := by omega
    rcases hsplit with rfl | ⟨hsucc, hlt⟩
    · have hall : ((rows b).filter fun r => height r = start) = rows b :=
        List.filter_eq_self.2 fun r hr => decide_eq_true (hs.head r hr)
      have hnone : ((blocks.flatMap rows).filter fun r => height r = start) = [] := by
        rw [List.filter_eq_nil_iff]
        intro r hr hr'
        have := hs.tail.le r hr
        have := of_decide_eq_true hr'
        omega
      rw [hall, hnone, List.append_nil, Int.sub_self]
      rfl
    · have hnone : ((rows b).filter fun r => height r = h) = [] := by
        rw [List.filter_eq_nil_iff]
        intro r hr hr'
        have := hs.head r hr
        have := of_decide_eq_true hr'
        omega
      rw [hnone, List.nil_append, hs.tail.filter_eq hlt, hsucc, List.getElem?_cons_succ]

end

end Tacit
