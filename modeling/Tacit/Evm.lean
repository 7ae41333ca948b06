import Tacit.Lib.Prog
import Tacit.Keccak
/-!
# Contract calls

A Solidity function is a program on the contract's storage. A call that reverts leaves the storage as it was
(`Prog.call`), so a transaction is a function on storages and a history is a fold of calls. `uint256` values
are naturals; a checked operation whose result does not fit reverts.
-/
namespace Tacit

/-- `address`. -/
abbrev Address := Nat

/-- The result of a checked `uint256` operation: none where Solidity panics. -/
def uint256 (n : Nat) : Option Nat := if n < 2 ^ 256 then some n else none

@[simp] theorem uint256_eq_some {n m : Nat} : uint256 n = some m ↔ n < 2 ^ 256 ∧ m = n := by
  rw [uint256, Option.ite_none_right_eq_some, Option.some.injEq, eq_comm (a := n)]

/-- A checked `a - b`. -/
def uintSub (a b : Nat) : Option Nat := if b ≤ a then some (a - b) else none

@[simp] theorem uintSub_eq_some {a b m : Nat} : uintSub a b = some m ↔ b ≤ a ∧ m = a - b := by
  rw [uintSub, Option.ite_none_right_eq_some, Option.some.injEq, eq_comm (a := a - b)]

/-- The checked operation that a `Panic(0x11)` comes from. -/
inductive Arith
  | add
  | sub
  | mul
deriving DecidableEq

namespace Prog

variable {σ ε α : Type}

section Checked

variable {A : Prop} {s : σ} {e : ε} {E : ε → σ → Prop} {Q : Nat → σ → Prop} {n a b : Nat}

theorem wp_uint256 : wp A (orThrow (uint256 n) e) s E Q ↔ (2 ^ 256 ≤ n → E e s) ∧ (n < 2 ^ 256 → Q n s) := by
  rw [uint256]
  by_cases h : n < 2 ^ 256
  · rw [if_pos h]
    exact ⟨fun hq => ⟨fun hle => absurd h (Nat.not_lt.2 hle), fun _ => hq⟩, fun hq => hq.2 h⟩
  · rw [if_neg h]
    exact ⟨fun he => ⟨fun _ => he, fun hlt => absurd hlt h⟩, fun he => he.1 (Nat.not_lt.1 h)⟩

theorem wp_uint256_of_lt (h : n < 2 ^ 256) : wp A (orThrow (uint256 n) e) s E Q ↔ Q n s := by
  rw [uint256, if_pos h]
  rfl

theorem wp_uintSub (h : b ≤ a) : wp A (orThrow (uintSub a b) e) s E Q ↔ Q (a - b) s := by
  rw [uintSub, if_pos h]
  rfl

end Checked

/-- A transaction: what a reverted call did to the storage is undone. -/
def call (m : Prog σ ε α) (s : σ) : σ :=
  match m s with
  | .panic => s
  | .err _ _ => s
  | .ok _ t => t

/-- A call does nothing or is an accepted run. -/
theorem call_cases (m : Prog σ ε α) (s : σ) : m.call s = s ∨ ∃ a, m s = .ok a (m.call s) := by
  unfold call
  cases h : m s with
  | panic => exact Or.inl rfl
  | err e t => exact Or.inl rfl
  | ok a t => exact Or.inr ⟨a, rfl⟩

/-- What every accepted run of a call keeps, the call keeps. -/
theorem call_keeps {I : σ → Prop} {m : Prog σ ε α} {s : σ} (hs : I s) (h : ∀ a t, m s = .ok a t → I t) :
    I (m.call s) := by
  rcases call_cases m s with h' | ⟨a, h'⟩
  · rw [h']; exact hs
  · exact h a _ h'

theorem call_of_ok {m : Prog σ ε α} {s t : σ} {a : α} (h : m s = .ok a t) : m.call s = t := by
  unfold call
  rw [h]

/-- Whether a run is accepted. -/
def accepts (m : Prog σ ε α) (s : σ) : Bool :=
  match m s with
  | .ok _ _ => true
  | _ => false

theorem ok_of_accepts {m : Prog σ ε α} {s : σ} (h : m.accepts s = true) : ∃ a, m s = .ok a (m.call s) := by
  unfold accepts at h
  unfold call
  cases hm : m s with
  | panic => rw [hm] at h; cases h
  | err e t => rw [hm] at h; cases h
  | ok a t => exact ⟨a, rfl⟩

end Prog

end Tacit
