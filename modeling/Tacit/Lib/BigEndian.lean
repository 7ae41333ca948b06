import Mathlib.Algebra.Order.Ring.Nat
import Mathlib.Data.List.Lex
import Mathlib.Tactic.Ring
/-!
# Big-endian numerals

A list of bytes as a number, its first byte the most significant. The number of a list starts from an accumulator, which
is what an induction over the list carries.
-/
namespace Tacit

variable {l l' : List Nat} {n m : Nat}

theorem foldl_be_eq (l : List Nat) (n : Nat) :
    l.foldl (fun n b => n * 256 + b) n = n * 256 ^ l.length + l.foldl (fun n b => n * 256 + b) 0 := by
  induction l generalizing n with
  | nil => simp
  | cons b l ih =>
    rw [List.foldl_cons, List.foldl_cons, ih (n * 256 + b), ih (0 * 256 + b), List.length_cons]
    ring

theorem foldl_be_inj : ∀ {l l' : List Nat} {n m : Nat}, l.length = l'.length → (∀ b ∈ l, b < 256) → (∀ b ∈ l', b < 256) →
    l.foldl (fun n b => n * 256 + b) n = l'.foldl (fun n b => n * 256 + b) m → n = m ∧ l = l'
  | [], [], _, _, _, _, _, h => ⟨h, rfl⟩
  | b :: l, b' :: l', n, m, hlen, hl, hl', h => by
    rw [List.foldl_cons, List.foldl_cons] at h
    obtain ⟨hhead, rfl⟩ := foldl_be_inj (Nat.succ.inj hlen) (fun x hx => hl x (List.mem_cons_of_mem _ hx))
      (fun x hx => hl' x (List.mem_cons_of_mem _ hx)) h
    have hb := hl b List.mem_cons_self
    have hb' := hl' b' List.mem_cons_self
    obtain rfl : b = b' := by omega
    exact ⟨by omega, rfl⟩

theorem foldl_be_lt : ∀ {l : List Nat} {n : Nat}, (∀ b ∈ l, b < 256) →
    l.foldl (fun n b => n * 256 + b) n < (n + 1) * 256 ^ l.length
  | [], n, _ => by simp
  | b :: l, n, hl => by
    have hb := hl b List.mem_cons_self
    rw [List.foldl_cons, List.length_cons, pow_succ, Nat.mul_comm (256 ^ l.length), ← Nat.mul_assoc]
    refine (foldl_be_lt fun x hx => hl x (List.mem_cons_of_mem _ hx)).trans_le ?_
    exact Nat.mul_le_mul_right _ (by omega)

theorem foldl_be_lt_of_lt (hlen : l.length = l'.length) (hl : ∀ b ∈ l, b < 256) (h : n < m) :
    l.foldl (fun n b => n * 256 + b) n < l'.foldl (fun n b => n * 256 + b) m := by
  calc l.foldl (fun n b => n * 256 + b) n < (n + 1) * 256 ^ l.length := foldl_be_lt hl
    _ ≤ m * 256 ^ l'.length := hlen ▸ Nat.mul_le_mul_right _ h
    _ ≤ l'.foldl (fun n b => n * 256 + b) m := foldl_be_eq l' m ▸ Nat.le_add_right _ _

/-- Numbers of one length are ordered as their bytes are. -/
theorem foldl_be_le_iff : ∀ {l l' : List Nat} {n : Nat}, l.length = l'.length → (∀ b ∈ l, b < 256) → (∀ b ∈ l', b < 256) →
    (l.foldl (fun n b => n * 256 + b) n ≤ l'.foldl (fun n b => n * 256 + b) n ↔ l ≤ l')
  | [], [], _, _, _, _ => by simp
  | b :: l, b' :: l', n, hlen, hl, hl' => by
    have htails : l.length = l'.length := Nat.succ.inj hlen
    have htail : ∀ x ∈ l, x < 256 := fun x hx => hl x (List.mem_cons_of_mem _ hx)
    have htail' : ∀ x ∈ l', x < 256 := fun x hx => hl' x (List.mem_cons_of_mem _ hx)
    rw [List.foldl_cons, List.foldl_cons, ← not_lt (b := b :: l), List.cons_lt_cons_iff, not_or, not_and, not_lt]
    rcases lt_trichotomy b b' with h | h | h
    · have := foldl_be_lt_of_lt htails htail (Nat.add_lt_add_left h (n * 256))
      simp [this.le, h.le, h.ne']
    · rw [h, foldl_be_le_iff htails htail htail']
      simp
    · have := foldl_be_lt_of_lt htails.symm htail' (Nat.add_lt_add_left h (n * 256))
      simp [this.not_ge, h.not_ge]

theorem foldl_be_zeros (k n : Nat) : (List.replicate k 0).foldl (fun n b => n * 256 + b) n = n * 256 ^ k := by
  have hzero : (List.replicate k 0).foldl (fun n b => n * 256 + b) 0 = 0 := by
    induction k with
    | zero => rfl
    | succ k ih => rw [List.replicate_succ, List.foldl_cons, ih]
  rw [foldl_be_eq, hzero, List.length_replicate, Nat.add_zero]

end Tacit
