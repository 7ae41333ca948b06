import Mathlib.Algebra.Order.Ring.Nat
import Mathlib.Tactic.Ring
/-!
# Little-endian numerals

A number in a fixed count of bytes, its least significant byte first.
-/
namespace Tacit

/-- The `k` low bytes of `v`. -/
def toLe : Nat → Nat → List UInt8
  | 0, _ => []
  | k + 1, v => UInt8.ofNat v :: toLe k (v / 256)

def fromLe : List UInt8 → Nat
  | [] => 0
  | b :: l => b.toNat + 256 * fromLe l

@[simp] theorem toLe_length : ∀ k v, (toLe k v).length = k
  | 0, _ => rfl
  | k + 1, v => congrArg Nat.succ (toLe_length k (v / 256))

theorem fromLe_lt : ∀ l : List UInt8, fromLe l < 256 ^ l.length
  | [] => by simp [fromLe]
  | b :: l => by
    have hb := b.toNat_lt
    have ih := fromLe_lt l
    rw [fromLe, List.length_cons, pow_succ]
    omega

theorem fromLe_toLe : ∀ {k v : Nat}, v < 256 ^ k → fromLe (toLe k v) = v
  | 0, v, h => by
    rw [pow_zero] at h
    exact (Nat.lt_one_iff.1 h).symm
  | k + 1, v, h => by
    have hv : v / 256 < 256 ^ k := Nat.div_lt_of_lt_mul (by rwa [pow_succ, Nat.mul_comm] at h)
    rw [toLe, fromLe, fromLe_toLe hv, UInt8.toNat_ofNat']
    omega

theorem toLe_fromLe : ∀ l : List UInt8, toLe l.length (fromLe l) = l
  | [] => rfl
  | b :: l => by
    have hb := b.toNat_lt
    have hdiv : (b.toNat + 256 * fromLe l) / 256 = fromLe l := by omega
    have hbyte : UInt8.ofNat (b.toNat + 256 * fromLe l) = b := by
      apply UInt8.toNat_inj.1
      rw [UInt8.toNat_ofNat']
      omega
    rw [fromLe, List.length_cons, toLe, hbyte, hdiv, toLe_fromLe l]

end Tacit
