import Mathlib.Algebra.Order.Ring.Nat
/-!
# The floored constant-product curve

A reserve `r` on a curve of depth `d` sells `r * n / (d + n)`, rounded down, for a weight `n` paid in. The sale is
the largest one that keeps `d * r`; a reserve is never sold out, and a larger weight never buys less.
-/
namespace Tacit

/-- What the reserve `r` sells for the weight `n`. -/
def curveOut (r d n : Nat) : Nat := r * n / (d + n)

namespace curveOut

variable {r d n out : Nat}

theorem le (r d n : Nat) : curveOut r d n ≤ r :=
  Nat.div_le_of_le_mul (by rw [Nat.mul_comm r]; exact Nat.mul_le_mul_right r (Nat.le_add_left n d))

theorem lt (hr : 0 < r) (hd : 0 < d) : curveOut r d n < r := by
  apply Nat.div_lt_of_lt_mul
  rw [Nat.mul_comm r]
  exact Nat.mul_lt_mul_of_pos_right (by omega) hr

@[simp] theorem zero_weight : curveOut r d 0 = 0 := by simp [curveOut]

/-- A sale is covered exactly when what is left of the reserve, at the new depth, is worth the old curve. -/
theorem le_iff (hd : 0 < d) (hout : out ≤ r) : out ≤ curveOut r d n ↔ d * r ≤ (r - out) * (d + n) := by
  obtain ⟨kept, rfl⟩ := Nat.exists_eq_add_of_le hout
  have hsplit : (out + kept) * (d + n) = out * (d + n) + kept * (d + n) := Nat.add_mul ..
  have hsum : (out + kept) * (d + n) = d * (out + kept) + (out + kept) * n := by rw [Nat.mul_add, Nat.mul_comm d]
  rw [curveOut, Nat.le_div_iff_mul_le (by omega), Nat.add_sub_cancel_left]
  omega

theorem keeps (hd : 0 < d) (n : Nat) : d * r ≤ (r - curveOut r d n) * (d + n) := (le_iff hd (le r d n)).1 le_rfl

theorem mono {m : Nat} (hd : 0 < d) (h : n ≤ m) : curveOut r d n ≤ curveOut r d m := by
  rw [le_iff hd (le r d n)]
  calc d * r ≤ (r - curveOut r d n) * (d + n) := keeps hd n
    _ ≤ (r - curveOut r d n) * (d + m) := Nat.mul_le_mul_left _ (by omega)

/-- A sale for `m`, weighed at `g` of every `s`, keeps the product of the two reserves. -/
theorem keeps_product {a g s : Nat} (ha : 0 < a) (hs : 0 < s) (hg : g ≤ s) (m : Nat) :
    a * r ≤ (a + m) * (r - curveOut r (a * s) (m * g)) := by
  apply Nat.le_of_mul_le_mul_left _ hs
  calc s * (a * r) = a * s * r := by rw [← Nat.mul_assoc, Nat.mul_comm s]
    _ ≤ (r - curveOut r (a * s) (m * g)) * (a * s + m * g) := keeps (Nat.mul_pos ha hs) _
    _ ≤ (r - curveOut r (a * s) (m * g)) * (a * s + m * s) :=
      Nat.mul_le_mul_left _ (Nat.add_le_add_left (Nat.mul_le_mul_left m hg) _)
    _ = s * ((a + m) * (r - curveOut r (a * s) (m * g))) := by
      rw [← Nat.add_mul, Nat.mul_comm, Nat.mul_comm (a + m), Nat.mul_assoc]

end curveOut

end Tacit
