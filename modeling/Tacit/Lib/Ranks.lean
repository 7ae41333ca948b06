import Mathlib.Data.List.Sort
/-!
# The element of a given rank, and medians

What has rank `k` in a list is at most `p` exactly when more than `k` of the elements are. So bounds on a rank are counts, and
a list of which only some elements are known is compared with the whole by counting the unknown ones.
-/
namespace Tacit

variable {α : Type} [LinearOrder α]

/-- The element of rank `k`, from 0. -/
def ranked (l : List α) (k : Nat) : Option α := (l.insertionSort (· ≤ ·))[k]?

/-- Of an even number of elements, the lower of the two in the middle. -/
def lowerMedian (l : List α) : Option α := ranked l ((l.length - 1) / 2)

def upperMedian (l : List α) : Option α := ranked l (l.length / 2)

/-- The elements with a property that goes down stand first. -/
theorem sorted_iff {p : α → Bool} (hp : ∀ {a b}, a ≤ b → p b → p a) {q : α} : ∀ {l : List α} {k : Nat},
    l.Pairwise (· ≤ ·) → l[k]? = some q → (p q ↔ k < l.countP p)
  | [], _, _, h => by cases h
  | a :: l, k, hl, h => by
    obtain ⟨ha, hl⟩ := List.pairwise_cons.1 hl
    by_cases hpa : p a
    · rw [List.countP_cons_of_pos hpa]
      cases k with
      | zero =>
        cases h
        exact ⟨fun _ => Nat.succ_pos _, fun _ => hpa⟩
      | succ k => rw [sorted_iff hp hl h, Nat.succ_lt_succ_iff]
    · have hnone : ∀ b ∈ a :: l, ¬p b := by
        intro b hb hpb
        rcases List.mem_cons.1 hb with rfl | hb
        · exact hpa hpb
        · exact hpa (hp (ha b hb) hpb)
      rw [List.countP_eq_zero.2 hnone]
      exact ⟨fun hpq => absurd hpq (hnone q (List.mem_of_getElem? h)), fun hlt => absurd hlt (Nat.not_lt_zero k)⟩

theorem ranked_iff {p : α → Bool} (hp : ∀ {a b}, a ≤ b → p b → p a) {l : List α} {k : Nat} {q : α} (h : ranked l k = some q) :
    p q ↔ k < l.countP p := by
  have hperm := List.perm_insertionSort (· ≤ ·) l
  rw [sorted_iff hp (List.pairwise_insertionSort (· ≤ ·) l) h, hperm.countP_eq]

theorem ranked_le_iff {l : List α} {k : Nat} {p q : α} (h : ranked l k = some q) : q ≤ p ↔ k < l.countP (· ≤ p) := by
  rw [← ranked_iff (fun hab hb => by simpa using hab.trans (of_decide_eq_true hb)) h, decide_eq_true_iff]

theorem le_ranked_iff {l : List α} {k : Nat} {p q : α} (h : ranked l k = some q) : p ≤ q ↔ l.countP (· < p) ≤ k := by
  rw [← not_lt, ← not_lt, ← ranked_iff (fun hab hb => by simpa using hab.trans_lt (of_decide_eq_true hb)) h, decide_eq_true_iff]

theorem ranked_mono {l : List α} {i k : Nat} (hik : i ≤ k) {q r : α} (hq : ranked l i = some q) (hr : ranked l k = some r) :
    q ≤ r := (ranked_le_iff hq).2 (hik.trans_lt ((ranked_le_iff hr).1 le_rfl))

/-- Rank 0 is the minimum. -/
theorem ranked_zero {l : List α} {q : α} (h : ranked l 0 = some q) : q ∈ l ∧ ∀ p ∈ l, q ≤ p := by
  refine ⟨(List.mem_insertionSort (· ≤ ·)).1 (List.mem_of_getElem? h), fun p hp => (ranked_le_iff h).2 ?_⟩
  exact List.countP_pos_iff.2 ⟨p, hp, decide_eq_true le_rfl⟩

theorem ranked_isSome {l : List α} {k : Nat} (h : k < l.length) : ∃ q, ranked l k = some q := by
  have hlen : k < (l.insertionSort (· ≤ ·)).length := by rwa [List.length_insertionSort]
  exact ⟨_, List.getElem?_eq_getElem hlen⟩

/-- A sorted list has at `k` its element of rank `k`. -/
theorem ranked_of_sorted {l l' : List α} (hl : l.Pairwise (· ≤ ·)) (h : l.Perm l') (k : Nat) : ranked l' k = l[k]? := by
  have hperm : l.Perm (l'.insertionSort (· ≤ ·)) := h.trans (List.perm_insertionSort (· ≤ ·) l').symm
  rw [ranked, hperm.eq_of_pairwise (fun _ _ _ _ => le_antisymm) hl (List.pairwise_insertionSort (· ≤ ·) l')]

theorem ranked_perm {l l' : List α} (h : l.Perm l') (k : Nat) : ranked l k = ranked l' k := by
  have hsorted := List.pairwise_insertionSort (· ≤ ·) l
  rw [ranked, ranked_of_sorted hsorted ((List.perm_insertionSort (· ≤ ·) l).trans h)]

section Known

/-! ## A list of which some elements are known

`known` are elements of the list, `missing` the number of the others. -/

variable {l known : List α} {missing : Nat} (hsub : known.Subperm l) (hlen : known.length + missing = l.length)
include hsub hlen

omit [LinearOrder α] in
theorem countP_le_of_known (p : α → Bool) : known.countP p ≤ l.countP p ∧ l.countP p ≤ known.countP p + missing := by
  refine ⟨hsub.countP_le p, ?_⟩
  have hother := hsub.countP_le fun a => decide ¬p a
  have hk : known.length = _ := List.length_eq_countP_add_countP p
  have hl : l.length = _ := List.length_eq_countP_add_countP p
  omega

/-- Where the missing ones count as least, a rank is no higher. -/
theorem ranked_known_le {k : Nat} (hk : missing ≤ k) {q r : α} (hq : ranked known (k - missing) = some q)
    (hr : ranked l k = some r) : q ≤ r := by
  rw [ranked_le_iff hq]
  have hcount := (ranked_le_iff hr).1 le_rfl
  have := (countP_le_of_known hsub hlen fun a => a ≤ r).2
  omega

/-- Where they count as greatest, it is no lower. -/
theorem le_ranked_known {k : Nat} {q r : α} (hq : ranked known k = some q) (hr : ranked l k = some r) : r ≤ q := by
  rw [ranked_le_iff hr]
  have hcount := (ranked_le_iff hq).1 le_rfl
  have := (countP_le_of_known hsub hlen fun a => a ≤ q).1
  omega

/-- Counted the one way and the other, the missing ones bracket the medians. -/
theorem medians_bracket {low high : α} (hmissing : missing ≤ (l.length - 1) / 2)
    (hlow : ranked known ((l.length - 1) / 2 - missing) = some low) (hhigh : ranked known (l.length / 2) = some high) :
    ∃ lo hi, lowerMedian l = some lo ∧ upperMedian l = some hi ∧ low ≤ lo ∧ lo ≤ hi ∧ hi ≤ high := by
  have hcount := (ranked_le_iff hhigh).1 le_rfl
  have hpos : l.length / 2 < l.length := hcount.trans_le ((List.countP_le_length).trans (by omega))
  obtain ⟨lo, hlo⟩ := ranked_isSome (l := l) (k := (l.length - 1) / 2) (by omega)
  obtain ⟨hi, hhi⟩ := ranked_isSome hpos
  exact ⟨lo, hi, hlo, hhi, ranked_known_le hsub hlen hmissing hlow hlo, ranked_mono (by omega) hlo hhi,
    le_ranked_known hsub hlen hhigh hhi⟩

end Known

/-- Fewer than half above `p`. -/
theorem lowerMedian_le {l : List α} {m p : α} (h : lowerMedian l = some m) (hfew : 2 * l.countP (p < ·) < l.length) :
    m ≤ p := by
  have hlen : l.length = _ := List.length_eq_countP_add_countP fun a => decide (a ≤ p)
  rw [ranked_le_iff h]
  simp only [decide_eq_true_iff, not_le] at hlen
  omega

/-- Fewer than half below. -/
theorem le_upperMedian {l : List α} {m p : α} (h : upperMedian l = some m) (hfew : 2 * l.countP (· < p) < l.length) :
    p ≤ m := by
  rw [le_ranked_iff h]
  omega

end Tacit
