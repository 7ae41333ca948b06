import Mathlib.Algebra.Group.Nat.Even
import Mathlib.Data.List.Lex
import Mathlib.Logic.Encodable.Basic
import Mathlib.Logic.Equiv.List
import Mathlib.Order.BoundedOrder.Basic
import Mathlib.Tactic.Common
/-!
# Bytes, words and the hashes of `cxfer-core`

`[u8; 32]` is `Word`, ordered big-endian as `be_bytes_lte` (`bitcoin.rs:12`) orders it. A byte is a
`Nat`: the program's bytes are those below 256, and a digest may be any 32 naturals. This is what lets
`Keccak.Ideal` (an injective Keccak) be satisfiable; over 256 letters it would contradict itself by
counting.
-/
namespace Tacit

abbrev Bytes := List Nat

/-- `[u8; 32]`. -/
@[ext] structure Word where
  bytes : Bytes
  len : bytes.length = 32
deriving DecidableEq

theorem Word.bytes_injective : Function.Injective Word.bytes := fun _ _ h => Word.ext h

instance : LinearOrder Word := LinearOrder.lift' Word.bytes Word.bytes_injective

/-- The bytes of an ASCII literal (`b"…"`). -/
def ascii (s : String) : Bytes := s.toList.map Char.toNat

/-- The low `n` bytes of `v`, least significant first (`to_le_bytes`). -/
def leBytes : Nat → Nat → Bytes
  | 0, _ => []
  | n + 1, v => v % 256 :: leBytes n (v / 256)

/-- `to_be_bytes`. -/
def beBytes (n v : Nat) : Bytes := (leBytes n v).reverse

@[simp] theorem leBytes_length : ∀ n v, (leBytes n v).length = n
  | 0, _ => rfl
  | n + 1, v => by simp [leBytes, leBytes_length n]

@[simp] theorem beBytes_length (n v : Nat) : (beBytes n v).length = n := by simp [beBytes]

theorem leBytes_inj : ∀ {n v w : Nat}, v < 256 ^ n → w < 256 ^ n → leBytes n v = leBytes n w → v = w
  | 0, v, w, hv, hw, _ => by simp at hv hw; omega
  | n + 1, v, w, hv, hw, h => by
    simp only [leBytes, List.cons.injEq] at h
    rw [pow_succ] at hv hw
    have := leBytes_inj (n := n) (v := v / 256) (w := w / 256) (by omega) (by omega) h.2
    omega

theorem beBytes_inj {n v w : Nat} (hv : v < 256 ^ n) (hw : w < 256 ^ n) (h : beBytes n v = beBytes n w) :
    v = w := leBytes_inj hv hw (List.reverse_injective h)

/-! ## Words -/

instance : Zero Word := ⟨⟨List.replicate 32 0, by simp⟩⟩

theorem bytes_cons_le {a b : Nat} {as bs : Bytes} : a :: as ≤ b :: bs ↔ a < b ∨ a = b ∧ as ≤ bs := by
  rw [← not_lt, ← not_lt (a := bs), List.cons_lt_cons_iff]
  rcases lt_trichotomy a b with h | h | h
  · simp [h, h.not_gt, h.ne']
  · simp [h]
  · simp [h, h.not_gt, h.ne']

theorem replicate_zero_le : ∀ (l : Bytes), List.replicate l.length 0 ≤ l
  | [] => le_refl _
  | a :: l => by
    rw [List.length_cons, List.replicate_succ, bytes_cons_le]
    rcases Nat.eq_zero_or_pos a with h | h
    · exact Or.inr ⟨h.symm, replicate_zero_le l⟩
    · exact Or.inl h

instance : OrderBot Word where
  bot := 0
  bot_le w := by
    have := replicate_zero_le w.bytes
    rwa [w.len] at this

theorem bot_eq_zero : (⊥ : Word) = 0 := rfl

/-- The byte loop of `be_bytes_lte` (`bitcoin.rs:12`). -/
def beBytesLteLoop : Bytes → Bytes → Bool
  | a :: as, b :: bs => if a < b then true else if a > b then false else beBytesLteLoop as bs
  | _, _ => true

def beBytesLte (a b : Word) : Bool := beBytesLteLoop a.bytes b.bytes

/-- `be_lt` (`lib.rs:2919`). -/
def beLt (a b : Word) : Bool := beBytesLte a b && a != b

theorem beBytesLteLoop_iff : ∀ {a b : Bytes}, a.length = b.length → (beBytesLteLoop a b = true ↔ a ≤ b)
  | [], [], _ => by simp [beBytesLteLoop]
  | a :: as, b :: bs, h => by
    have ih := beBytesLteLoop_iff (a := as) (b := bs) (by simpa using h)
    rw [beBytesLteLoop, bytes_cons_le]
    rcases lt_trichotomy a b with hab | hab | hab
    · simp [hab]
    · simp [hab, ih]
    · simp [hab.not_gt, hab, hab.ne']

@[simp] theorem beLt_iff (a b : Word) : beLt a b = true ↔ a < b := by
  have h : beBytesLte a b = true ↔ a ≤ b := beBytesLteLoop_iff (a.len.trans b.len.symm)
  rw [beLt, Bool.and_eq_true, h, bne_iff_ne, lt_iff_le_and_ne]

/-- `n.to_be_bytes()` right-aligned in a word. -/
def wordOfNat (n : Nat) : Word := ⟨beBytes 32 n, beBytes_length 32 n⟩

/-- A slice whose length its type fixes, as a word. -/
def Word.ofBytes (b : Bytes) : Word := ⟨(b ++ List.replicate 32 0).take 32, by simp⟩

theorem wordOfNat_inj {n m : Nat} (hn : n < 256 ^ 32) (hm : m < 256 ^ 32) (h : wordOfNat n = wordOfNat m) :
    n = m := beBytes_inj hn hm (congrArg Word.bytes h)

/-! ## Keccak -/

/-- `Keccak::v256` over a byte string. -/
structure Keccak where
  hash : Bytes → Word

/-- The hash is injective and never the zero word (the empty leaf of every tree). -/
structure Keccak.Ideal (K : Keccak) : Prop where
  injective : Function.Injective K.hash
  nonzero : ∀ b, K.hash b ≠ 0

/-- `kn` (`lib.rs:1620`): the hash of the parts, one after another. -/
def Keccak.kn (K : Keccak) (parts : List Bytes) : Word := K.hash parts.flatten

/-- `k2` (`lib.rs:1615`). -/
def Keccak.k2 (K : Keccak) (l r : Word) : Word := K.kn [l.bytes, r.bytes]

/-- Parts of the same lengths are recovered from their hash. -/
theorem Keccak.kn_inj {K : Keccak} (hK : Function.Injective K.hash) {p q : List Bytes}
    (hl : p.map List.length = q.map List.length) (h : K.kn p = K.kn q) : p = q :=
  List.eq_iff_flatten_eq.2 ⟨hK h, hl⟩

theorem Keccak.k2_injective {K : Keccak} (hK : Function.Injective K.hash) : Function.Injective2 K.k2 := by
  intro a b c d h
  have := Keccak.kn_inj hK (by simp [a.len, b.len, c.len, d.len]) h
  simp only [List.cons.injEq, and_true] at this
  exact ⟨Word.ext this.1, Word.ext this.2⟩

theorem Keccak.Ideal.kn_inj {K : Keccak} (hK : K.Ideal) {p q : List Bytes}
    (hl : p.map List.length = q.map List.length) (h : K.kn p = K.kn q) : p = q := Keccak.kn_inj hK.injective hl h

/-- Preimages of different total length have different hashes. -/
theorem Keccak.Ideal.kn_ne_of_length {K : Keccak} (hK : K.Ideal) {p q : List Bytes}
    (hl : p.flatten.length ≠ q.flatten.length) : K.kn p ≠ K.kn q :=
  fun h => hl (congrArg List.length (hK.injective h))

theorem Keccak.Ideal.kn_ne_zero {K : Keccak} (hK : K.Ideal) (p : List Bytes) : K.kn p ≠ 0 := hK.nonzero _

theorem Keccak.Ideal.k2_injective {K : Keccak} (hK : K.Ideal) : Function.Injective2 K.k2 :=
  Keccak.k2_injective hK.injective

/-- An ideal hash: the code of the byte string, plus one, as the leading byte. -/
def codeKeccak : Keccak := ⟨fun b => ⟨(Encodable.encode b + 1) :: List.replicate 31 0, by simp⟩⟩

theorem codeKeccak_ideal : codeKeccak.Ideal where
  injective a b h := by
    have := congrArg (fun w : Word => w.bytes.head?) h
    simpa [codeKeccak] using this
  nonzero b h := by
    have := congrArg (fun w : Word => w.bytes.head?) h
    simp [codeKeccak, OfNat.ofNat, Zero.zero] at this

end Tacit
