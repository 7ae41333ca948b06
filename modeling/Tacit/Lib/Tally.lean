import Mathlib.Data.Finsupp.Basic
/-!
# Totals of functions of finite support

A mapping of a contract is a total function; `Tally f n` says that it is zero outside a finite set and that its values
add up to `n`. An update moves the total by the difference.
-/
namespace Tacit

variable {α : Type} {f : α → Nat} {n m : Nat}

/-- `f` has finite support and its values add up to `n`. -/
def Tally (f : α → Nat) (n : Nat) : Prop := ∃ T : α →₀ Nat, ⇑T = f ∧ (T.sum fun _ k => k) = n

namespace Tally

theorem zero : Tally (fun _ : α => 0) 0 := ⟨0, rfl, Finsupp.sum_zero_index⟩

theorem unique (h : Tally f n) (h' : Tally f m) : n = m := by
  obtain ⟨T, rfl, rfl⟩ := h
  obtain ⟨T', heq, rfl⟩ := h'
  rw [DFunLike.coe_injective heq]

theorem update [DecidableEq α] (h : Tally f n) {a : α} {v : Nat} (hm : m + f a = n + v) :
    Tally (Function.update f a v) m := by
  obtain ⟨T, rfl, rfl⟩ := h
  refine ⟨T.update a v, ?_, ?_⟩
  · rw [Finsupp.coe_update]
  · have hsum := Finsupp.sum_update_add T a v (fun _ k => k) (fun _ => rfl) fun _ _ _ => rfl
    omega

theorem le (h : Tally f n) (a : α) : f a ≤ n := by
  classical
  obtain ⟨T, rfl, rfl⟩ := h
  have hsum := Finsupp.sum_update_add T a 0 (fun _ k => k) (fun _ => rfl) fun _ _ _ => rfl
  omega

end Tally

end Tacit
