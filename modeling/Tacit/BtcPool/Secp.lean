import Mathlib.GroupTheory.OrderOfElement
import Tacit.Notes
import Tacit.Lib.BigEndian
import Tacit.Provenance.Blob
/-!
# The curve of the pool's guest (btc-pool-core/src/lib.rs:19, cxfer-core/src/lib.rs:49-93, :552-590, :1597-1613)

The points are a group; what the k256 crate serialises of them are their affine coordinates. Scalars are read from 32 bytes,
either only below the group order or reduced by it.
-/
namespace Tacit

open Wire (Octets)

/-! ## Bytes -/

def octetBytes (l : List UInt8) : Bytes := l.map UInt8.toNat

/-- `[u8; 32]` as the hashes and the curve read it. -/
def octetWord (o : Octets 32) : Word := ⟨octetBytes o.val, by rw [octetBytes, List.length_map, o.property]⟩

theorem octetBytes_injective : Function.Injective octetBytes := List.map_injective_iff.2 fun _ _ h => UInt8.toNat_inj.1 h

@[simp] theorem octetBytes_length (l : List UInt8) : (octetBytes l).length = l.length := List.length_map _

theorem octetWord_injective : Function.Injective octetWord := fun _ _ h =>
  Subtype.ext (octetBytes_injective (congrArg Word.bytes h))

theorem octetBytes_lt {l : List UInt8} {b : Nat} (hb : b ∈ octetBytes l) : b < 256 := by
  obtain ⟨u, -, rfl⟩ := List.mem_map.1 hb
  exact u.toNat_lt

theorem octetWord_toNat_inj {a b : Octets 32} (h : (octetWord a).toNat = (octetWord b).toNat) : a = b := by
  have hlen : (octetWord a).bytes.length = (octetWord b).bytes.length := (octetWord a).len.trans (octetWord b).len.symm
  obtain ⟨-, hbytes⟩ := foldl_be_inj hlen (fun _ => octetBytes_lt) (fun _ => octetBytes_lt) h
  exact octetWord_injective (Word.ext hbytes)

/-! ## Scalars -/

/-- The order of the group. -/
def secpN : Nat := 0xfffffffffffffffffffffffffffffffebaaedce6af48a03bbfd25e8cd0364141

theorem secpN_pos : 0 < secpN := by decide

abbrev Scalar := Fin secpN

/-- `scalar_canonical_be` (btc-pool-core:19). -/
def scalarCanonicalBe (w : Word) : Option Scalar := if h : w.toNat < secpN then some ⟨w.toNat, h⟩ else none

/-- `scalar_reduce_be` (cxfer-core:79). -/
def scalarReduceBe (w : Word) : Scalar := ⟨w.toNat % secpN, Nat.mod_lt _ secpN_pos⟩

/-- A canonical scalar has one encoding. -/
theorem scalarCanonicalBe_inj {a b : Octets 32} {k : Scalar} (ha : scalarCanonicalBe (octetWord a) = some k)
    (hb : scalarCanonicalBe (octetWord b) = some k) : a = b := by
  unfold scalarCanonicalBe at ha hb
  by_cases hla : (octetWord a).toNat < secpN
  · by_cases hlb : (octetWord b).toNat < secpN
    · rw [dif_pos hla] at ha
      rw [dif_pos hlb] at hb
      have hval := (congrArg Fin.val (Option.some.inj ha)).trans (congrArg Fin.val (Option.some.inj hb)).symm
      exact octetWord_toNat_inj hval
    · rw [dif_neg hlb] at hb
      cases hb
  · rw [dif_neg hla] at ha
    cases ha

/-! ## Points -/

/-- What the guest calls of k256 and sha2, over the points `E`. -/
structure Secp (E : Type) where
  /-- `ProjectivePoint::generator()`. -/
  generator : E
  /-- `gen_h` (cxfer-core:964). -/
  genH : E
  /-- `to_affine`, of a point other than infinity. -/
  toAffine : E → Option Point
  /-- `from_affine_xy` (cxfer-core:1599). -/
  fromAffineXy : Word → Word → Option E
  /-- `decompress` (cxfer-core:49). -/
  decompress : Bytes → Option E
  /-- `Sha256::digest`. -/
  sha256 : Bytes → Word

namespace Secp

variable {E : Type} (S : Secp E)

/-- `compress` (cxfer-core:65); infinity is the all-zero string. -/
def compress (p : E) : Bytes :=
  match S.toAffine p with
  | none => List.replicate 33 0
  | some q => q.compress

section

variable [AddCommGroup E]

/-- `verify_pedersen_opening` (cxfer-core:1611). -/
def verifyPedersenOpening [DecidableEq E] (c : E) (v : U 64) (r : Scalar) : Bool :=
  c == v.val • S.genH + r.val • S.generator

theorem verifyPedersenOpening_iff [DecidableEq E] {c : E} {v : U 64} {r : Scalar} :
    S.verifyPedersenOpening c v r = true ↔ c = v.val • S.genH + r.val • S.generator := beq_iff_eq

/-- `bip340_tagged` (cxfer-core:552). -/
def bip340Tagged (tag : String) (msg : Bytes) : Word :=
  let t := S.sha256 (ascii tag)
  S.sha256 (t.bytes ++ t.bytes ++ msg)

/-- `bip340_verify` (cxfer-core:564). -/
def bip340Verify [DecidableEq E] (sig : Octets 64) (msg : Word) (pubkeyX : Octets 32) : Bool :=
  let rx := octetBytes (sig.val.take 32)
  match scalarCanonicalBe (Word.ofBytes (octetBytes (sig.val.drop 32))), S.decompress (2 :: octetBytes pubkeyX.val) with
  | some s, some p =>
    let e := scalarReduceBe (S.bip340Tagged "BIP0340/challenge" (rx ++ octetBytes pubkeyX.val ++ msg.bytes))
    let r := s.val • S.generator - e.val • p
    if r = 0 then false else S.compress r == 2 :: rx
  | _, _ => false

/-- The group laws of secp256k1: the generator's order, and that two points have one x coordinate only as `p` and `-p`, whose y
coordinates are the two square roots. -/
structure Laws : Prop where
  order : addOrderOf S.generator = secpN
  infinity : ∀ {p}, S.toAffine p = none → p = 0
  same_x : ∀ {p p' q q'}, S.toAffine p = some q → S.toAffine p' = some q' → q.x = q'.x → p' = p ∨ p' = -p
  neg_y : ∀ {p q q'}, S.toAffine p = some q → S.toAffine (-p) = some q' → q.y.toNat + q'.y.toNat = secpP

namespace Laws

variable {S}

/-- A compressed point has one encoding, and the parity byte tells it from its negation. -/
theorem compress_injective (hS : S.Laws) : Function.Injective S.compress := by
  intro p p' h
  unfold compress at h
  cases hp : S.toAffine p with
  | none =>
    cases hp' : S.toAffine p' with
    | none => rw [hS.infinity hp, hS.infinity hp']
    | some q' =>
      rw [hp, hp'] at h
      have hhead : 0 = 2 + q'.y.toNat % 2 := List.head_eq_of_cons_eq h
      omega
  | some q =>
    cases hp' : S.toAffine p' with
    | none =>
      rw [hp, hp'] at h
      have hhead : 2 + q.y.toNat % 2 = 0 := List.head_eq_of_cons_eq h
      omega
    | some q' =>
      rw [hp, hp'] at h
      obtain ⟨hparity, hx⟩ : 2 + q.y.toNat % 2 = 2 + q'.y.toNat % 2 ∧ q.x.bytes = q'.x.bytes := List.cons.inj h
      rcases hS.same_x hp hp' (Word.ext hx) with heq | hneg
      · exact heq.symm
      · subst hneg
        have hsum := hS.neg_y hp hp'
        have hodd : secpP % 2 = 1 := by decide
        omega

/-- The scalars below the order have pairwise different public keys. -/
theorem generator_smul_inj (hS : S.Laws) {k k' : Scalar} (h : k.val • S.generator = k'.val • S.generator) : k = k' := by
  have hmod : k.val ≡ k'.val [MOD addOrderOf S.generator] := nsmul_eq_nsmul_iff_modEq.1 h
  rw [hS.order] at hmod
  exact Fin.ext (hmod.eq_of_lt_of_lt k.isLt k'.isLt)

end Laws

end

end Secp

end Tacit
