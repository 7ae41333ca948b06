import Mathlib.Algebra.Group.Nat.Defs
/-!
# Bounded bisection for a fixed point

A binary search over `lo … hi` that compares, at each midpoint, an implied value with the midpoint. It stops on
equality, keeps the last midpoint that fell short, and gives up after a number of rounds. With as many rounds as
the interval has bits the rounds never decide: the interval is searched to its end.
-/
namespace Tacit

/-- The fixed point found, else the last midpoint whose implied value lies above it (`best` if there was none). -/
def bisect (implied : Nat → Nat) : Nat → Nat → Nat → Nat → Nat
  | 0, _, _, best => best
  | rounds + 1, lo, hi, best =>
    if lo ≤ hi then
      let mid := lo + (hi - lo) / 2
      if implied mid = mid then mid
      else if implied mid < mid then bisect implied rounds lo (mid - 1) best
      else bisect implied rounds (mid + 1) hi mid
    else best

namespace bisect

variable {implied : Nat → Nat} {rounds lo hi best : Nat}

/-- One round halves the interval, on either side of the midpoint. -/
theorem width_lt (h : hi + 1 - lo < 2 ^ (rounds + 1)) (hlo : 0 < lo) (hle : lo ≤ hi) :
    lo + (hi - lo) / 2 - 1 + 1 - lo < 2 ^ rounds ∧ hi + 1 - (lo + (hi - lo) / 2 + 1) < 2 ^ rounds := by
  rw [Nat.pow_succ] at h
  omega

/-- More rounds than the interval has bits change nothing. -/
theorem extra_rounds (h : hi + 1 - lo < 2 ^ rounds) (hlo : 0 < lo) (n : Nat) :
    bisect implied (rounds + n) lo hi best = bisect implied rounds lo hi best := by
  induction rounds generalizing lo hi best with
  | zero =>
    have hgt : ¬lo ≤ hi := by omega
    cases n <;> simp [bisect, hgt]
  | succ rounds ih =>
    rw [Nat.add_right_comm]
    simp only [bisect]
    split
    · rename_i hle
      have hw := width_lt h hlo hle
      rw [ih hw.1 hlo, ih hw.2 (by omega)]
    · rfl

/-- Searched to its end, the interval yields a point that is not above its implied value, or the starting guess when
even the lowest point is. -/
theorem spec (h : hi + 1 - lo < 2 ^ rounds) (hlo : 0 < lo) :
    (lo ≤ bisect implied rounds lo hi best ∧ bisect implied rounds lo hi best ≤ implied (bisect implied rounds lo hi best)) ∨
      (bisect implied rounds lo hi best = best ∧ (lo ≤ hi → implied lo < lo)) := by
  induction rounds generalizing lo hi best with
  | zero => exact .inr ⟨rfl, fun hle => by omega⟩
  | succ rounds ih =>
    by_cases hle : lo ≤ hi
    · obtain ⟨hleft, hright⟩ := width_lt h hlo hle
      simp only [bisect, if_pos hle]
      generalize hmid : lo + (hi - lo) / 2 = mid at *
      by_cases heq : implied mid = mid
      · rw [if_pos heq]
        exact .inl ⟨by omega, Nat.le_of_eq heq.symm⟩
      · rw [if_neg heq]
        by_cases hlt : implied mid < mid
        · rw [if_pos hlt]
          obtain hin | ⟨hbest, hlow⟩ := @ih lo (mid - 1) best hleft hlo
          · exact .inl hin
          · refine .inr ⟨hbest, fun _ => ?_⟩
            -- the left half is empty exactly when the midpoint is the lowest point
            by_cases hne : lo ≤ mid - 1
            · exact hlow hne
            · have : mid = lo := by omega
              exact this ▸ hlt
        · rw [if_neg hlt]
          obtain ⟨hge, hin⟩ | ⟨hbest, -⟩ := @ih (mid + 1) hi mid hright (by omega)
          · exact .inl ⟨by omega, hin⟩
          · rw [hbest]
            exact .inl ⟨by omega, Nat.le_of_not_lt hlt⟩
    · simp only [bisect, if_neg hle]
      exact .inr ⟨trivial, fun hle' => absurd hle' hle⟩

end bisect

end Tacit
