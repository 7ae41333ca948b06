import Mathlib.Algebra.Group.Nat.Defs
import Mathlib.Data.Fin.Basic
import Mathlib.Tactic.Common
/-!
# Fixed-width unsigned integers

`U w` is the Rust type of width `w`; a value carries its bound. The operations are the checked and the
saturating ones; a plain `+` of the source that cannot overflow is written on the values.
-/
namespace Tacit

abbrev U (w : Nat) := Fin (2 ^ w)

/-! A literal of one of the widths in use finds its bound here. -/

instance neZero_pow_8 : @NeZero Nat Zero.ofOfNat0 (2 ^ 8) := Nat.instNeZeroHPow
instance neZero_pow_16 : @NeZero Nat Zero.ofOfNat0 (2 ^ 16) := Nat.instNeZeroHPow
instance neZero_pow_32 : @NeZero Nat Zero.ofOfNat0 (2 ^ 32) := Nat.instNeZeroHPow
instance neZero_pow_64 : @NeZero Nat Zero.ofOfNat0 (2 ^ 64) := Nat.instNeZeroHPow
instance neZero_pow_128 : @NeZero Nat Zero.ofOfNat0 (2 ^ 128) := Nat.instNeZeroHPow
instance neZero_pow_160 : @NeZero Nat Zero.ofOfNat0 (2 ^ 160) := Nat.instNeZeroHPow
instance neZero_pow_256 : @NeZero Nat Zero.ofOfNat0 (2 ^ 256) := Nat.instNeZeroHPow

theorem one_lt_pow_64 : 1 < 2 ^ 64 := by decide

namespace U

variable {w : Nat}

instance : Zero (U w) := ⟨⟨0, Nat.two_pow_pos w⟩⟩

@[simp] theorem val_zero' : (0 : U w).val = 0 := rfl

/-- `u64::try_from`, `None` when the value does not fit. -/
def ofNat? (w n : Nat) : Option (U w) := if h : n < 2 ^ w then some ⟨n, h⟩ else none

/-- `n as uN`. -/
def wrap (w n : Nat) : U w := ⟨n % 2 ^ w, Nat.mod_lt _ (Nat.two_pow_pos w)⟩

def checkedAdd (a b : U w) : Option (U w) := ofNat? w (a.val + b.val)

def checkedMul (a b : U w) : Option (U w) := ofNat? w (a.val * b.val)

def checkedSub (a b : U w) : Option (U w) := if b.val ≤ a.val then some ⟨a.val - b.val, by omega⟩ else none

def saturate (w n : Nat) : U w := ⟨min n (2 ^ w - 1), by have := Nat.two_pow_pos w; omega⟩

def saturatingAdd (a b : U w) : U w := saturate w (a.val + b.val)

def saturatingMul (a b : U w) : U w := saturate w (a.val * b.val)

def saturatingSub (a b : U w) : U w := ⟨a.val - b.val, by omega⟩

theorem ofNat?_eq_some {n : Nat} {a : U w} : ofNat? w n = some a ↔ a.val = n := by
  unfold ofNat?
  by_cases h : n < 2 ^ w
  · simp [h, Fin.ext_iff, eq_comm]
  · simp only [h, dite_false, reduceCtorEq, false_iff]
    intro e
    exact h (e ▸ a.isLt)

theorem ofNat?_eq_none {n : Nat} : ofNat? w n = none ↔ 2 ^ w ≤ n := by
  unfold ofNat?
  by_cases h : n < 2 ^ w <;> simp [h]
  omega

theorem checkedAdd_eq_some {a b c : U w} : checkedAdd a b = some c ↔ c.val = a.val + b.val := ofNat?_eq_some

theorem checkedMul_eq_some {a b c : U w} : checkedMul a b = some c ↔ c.val = a.val * b.val := ofNat?_eq_some

theorem checkedSub_eq_some {a b c : U w} : checkedSub a b = some c ↔ b.val ≤ a.val ∧ c.val = a.val - b.val := by
  unfold checkedSub
  by_cases h : b.val ≤ a.val <;> simp [h, Fin.ext_iff, eq_comm]

theorem saturate_val {n : Nat} (hn : n < 2 ^ w) : (saturate w n).val = n := by
  simp only [saturate]
  omega

theorem saturatingAdd_val {a b : U w} (h : a.val + b.val < 2 ^ w) : (saturatingAdd a b).val = a.val + b.val := saturate_val h

end U

end Tacit
