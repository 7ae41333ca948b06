import Mathlib.Data.List.Induction
import Mathlib.Data.List.Sort
import Tacit.Lib.Prog
/-!
# Sorting the front of an array in place

The loop of two indices, with every access checked: outside the array it panics. Sorting the first `n` elements stays inside,
leaves the others, and puts the first ones in order.
-/
namespace Tacit

open Prog

namespace InPlace

variable {σ ε α : Type} [LinearOrder α]

/-- `a[i]`. -/
def getAt (a : List α) (i : Nat) : Prog σ ε α := orPanic a[i]?

/-- `a[i] = v`. -/
def setAt (a : List α) (i : Nat) (v : α) : Prog σ ε (List α) := orPanic (if i < a.length then some (a.set i v) else none)

/-- `while (j > 0 && a[j - 1] > x) { a[j] = a[j - 1]; --j; }`; the array and `j`. -/
def shift (x : α) : List α → Nat → Prog σ ε (List α × Nat)
  | a, 0 => pure (a, 0)
  | a, j + 1 => do
    let y ← getAt a j
    if y > x then do
      let a ← setAt a (j + 1) y
      shift x a j
    else pure (a, j + 1)

/-- One round: `x = a[i]` is put in its place. -/
def place (a : List α) (i : Nat) : Prog σ ε (List α) := do
  let x ← getAt a i
  let (a, j) ← shift x a i
  setAt a j x

/-- `k` rounds from `i`. -/
def rounds : Nat → Nat → List α → Prog σ ε (List α)
  | 0, _, a => pure a
  | k + 1, i, a => do
    let a ← place a i
    rounds k (i + 1) a

/-- `for (i = 1; i < n; ++i)`. -/
def sort (a : List α) (n : Nat) : Prog σ ε (List α) := rounds (n - 1) 1 a

variable {s : σ}

omit [LinearOrder α] in
theorem getAt_append (l : List α) (x : α) (r : List α) : (getAt (l ++ x :: r) l.length : Prog σ ε α) s = .ok x s := by
  rw [getAt, List.getElem?_append_right (Nat.le_refl _), Nat.sub_self]
  rfl

omit [LinearOrder α] in
theorem setAt_append (l : List α) (x : α) (r : List α) (v : α) :
    (setAt (l ++ x :: r) l.length v : Prog σ ε (List α)) s = .ok (l ++ v :: r) s := by
  have hset : (l ++ x :: r).set l.length v = l ++ v :: r := by
    rw [List.set_append_right _ _ (Nat.le_refl _), Nat.sub_self]
    rfl
  rw [setAt, if_pos (by rw [List.length_append, List.length_cons]; omega), hset]
  rfl

/-- What is greater moves up by one, and a place is left for `x`. -/
theorem shift_spec (x : α) : ∀ (l : List α) (h : α) (r : List α), ∃ l₁ l₂ h', l = l₁ ++ l₂ ∧ (∀ y ∈ l₂, x < y) ∧
    (∀ y ∈ l₁.getLast?, y ≤ x) ∧
    (shift x (l ++ h :: r) l.length : Prog σ ε (List α × Nat)) s = .ok (l₁ ++ h' :: (l₂ ++ r), l₁.length) s := by
  intro l
  induction l using List.reverseRecOn with
  | nil => exact fun h r => ⟨[], [], h, rfl, nofun, nofun, rfl⟩
  | append_singleton l y ih =>
    intro h r
    have hlast : (getAt (l ++ [y] ++ h :: r) l.length : Prog σ ε α) s = .ok y s := by
      rw [List.append_assoc]
      exact getAt_append l y _
    have hset : (setAt (l ++ [y] ++ h :: r) (l.length + 1) y : Prog σ ε (List α)) s = .ok (l ++ y :: (y :: r)) s := by
      have := setAt_append (s := s) (ε := ε) (l ++ [y]) h r y
      rw [List.length_append, List.length_singleton] at this
      rw [this, List.append_assoc]
      rfl
    rw [List.length_append, List.length_singleton]
    by_cases hy : y > x
    · obtain ⟨l₁, l₂, h', rfl, hgt, hle, hshift⟩ := ih y (y :: r)
      refine ⟨l₁, l₂ ++ [y], h', (List.append_assoc ..), ?_, hle, ?_⟩
      · intro z hz
        rcases List.mem_append.1 hz with hz | hz
        · exact hgt z hz
        · rw [List.mem_singleton.1 hz]
          exact hy
      · rw [shift, bind_eq_ok]
        refine ⟨y, s, hlast, ?_⟩
        rw [if_pos hy, bind_eq_ok]
        refine ⟨_, s, hset, ?_⟩
        rw [hshift]
        simp
    · refine ⟨l ++ [y], [], h, (List.append_nil _).symm, nofun, ?_, ?_⟩
      · intro z hz
        rw [List.getLast?_concat, Option.mem_some_iff] at hz
        rw [← hz]
        exact not_lt.1 hy
      · rw [shift, bind_eq_ok]
        refine ⟨y, s, hlast, ?_⟩
        rw [if_neg hy, List.length_append, List.length_singleton]
        rfl

/-- A round on a sorted front: one more element is in order. -/
theorem place_spec {l : List α} (hl : l.Pairwise (· ≤ ·)) (x : α) (r : List α) : ∃ l', l'.Pairwise (· ≤ ·) ∧
    l'.Perm (l ++ [x]) ∧ (place (l ++ x :: r) l.length : Prog σ ε (List α)) s = .ok (l' ++ r) s := by
  obtain ⟨l₁, l₂, h', rfl, hgt, hle, hshift⟩ := shift_spec (s := s) (ε := ε) x l x r
  obtain ⟨hl₁, hl₂, hcross⟩ := List.pairwise_append.1 hl
  have hfront : ∀ y ∈ l₁, y ≤ x := by
    intro y hy
    have hne : l₁ ≠ [] := List.ne_nil_of_mem hy
    have hlast := hle _ (List.getLast?_eq_some_getLast hne)
    rw [← List.dropLast_append_getLast hne, List.pairwise_append] at hl₁
    rw [← List.dropLast_append_getLast hne] at hy
    rcases List.mem_append.1 hy with hy | hy
    · exact (hl₁.2.2 y hy _ (List.mem_singleton_self _)).trans hlast
    · rw [List.mem_singleton.1 hy]
      exact hlast
  refine ⟨l₁ ++ x :: l₂, ?_, ?_, ?_⟩
  · rw [List.pairwise_append, List.pairwise_cons]
    rw [List.pairwise_append] at hl
    refine ⟨hl.1, ⟨fun y hy => (hgt y hy).le, hl₂⟩, fun y hy z hz => ?_⟩
    rcases List.mem_cons.1 hz with rfl | hz
    · exact hfront y hy
    · exact hcross y hy z hz
  · rw [List.append_assoc]
    exact (List.perm_append_left_iff l₁).2 (List.perm_append_singleton x l₂).symm
  · have hput := setAt_append (s := s) (ε := ε) l₁ h' (l₂ ++ r) x
    simp only [place, bind_eq_ok]
    refine ⟨x, s, getAt_append _ x r, _, s, hshift, ?_⟩
    rw [hput]
    simp

theorem rounds_spec : ∀ (k : Nat) {l : List α} (r : List α), l.Pairwise (· ≤ ·) → k ≤ r.length → ∃ l', l'.Pairwise (· ≤ ·) ∧
    l'.Perm (l ++ r.take k) ∧ (rounds k l.length (l ++ r) : Prog σ ε (List α)) s = .ok (l' ++ r.drop k) s
  | 0, l, r, hl, _ => ⟨l, hl, by simp, rfl⟩
  | k + 1, l, [], _, hk => by cases hk
  | k + 1, l, x :: r, hl, hk => by
    obtain ⟨l', hl', hperm, hplace⟩ := place_spec (s := s) (ε := ε) hl x r
    have hlen : l.length + 1 = l'.length := by rw [hperm.length_eq, List.length_append, List.length_singleton]
    obtain ⟨l'', hl'', hperm', hrounds⟩ := rounds_spec k r hl' (Nat.le_of_succ_le_succ hk)
    refine ⟨l'', hl'', ?_, ?_⟩
    · refine hperm'.trans ((hperm.append_right _).trans ?_)
      rw [List.append_assoc]
      exact List.Perm.refl _
    · rw [rounds, bind_eq_ok]
      refine ⟨_, s, hplace, ?_⟩
      rw [hlen, hrounds]
      rfl

/-- The first `n` elements are put in order, the others stay. -/
theorem sort_spec (a : List α) {n : Nat} (hn : n ≤ a.length) : ∃ l, l.Pairwise (· ≤ ·) ∧ l.Perm (a.take n) ∧
    (sort a n : Prog σ ε (List α)) s = .ok (l ++ a.drop n) s := by
  cases n with
  | zero => exact ⟨[], List.Pairwise.nil, List.Perm.refl _, rfl⟩
  | succ n =>
    cases a with
    | nil => cases hn
    | cons x r =>
      have hn : n ≤ r.length := Nat.le_of_succ_le_succ hn
      obtain ⟨l, hl, hperm, hrounds⟩ := rounds_spec (s := s) (ε := ε) n (l := [x]) r (List.pairwise_singleton _ x) hn
      exact ⟨l, hl, hperm, hrounds⟩

end InPlace

end Tacit
