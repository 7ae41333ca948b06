import Tacit.Keccak
import Tacit.Lib.Machine
/-!
# Points, notes and their hashes (lib.rs:1610-1930, :2819-2880)

The curve and the signature schemes are parameters (`Crypto`); every hash the program takes of them is a
definition. A note of the Bitcoin lane is named by its leaf, `btc_note_leaf` or, for a note homed to one
deployment, `btc_note_leaf_bound`; its nullifier is a hash of the leaf.
-/
namespace Tacit

/-- A point of secp256k1 other than infinity, by its affine coordinates. -/
structure Point where
  x : Word
  y : Word
deriving DecidableEq

/-- `(txid, vout)`. -/
abbrev OutPoint := Word × U 32

/-- The primitives of the curve and the signature schemes the guests call, over an ideal Keccak. -/
structure Crypto extends Keccak where
  sha256 : Bytes → Word
  /-- `decompress` (lib.rs:49). -/
  decompress : Bytes → Option Point
  /-- `compress` (lib.rs:65). -/
  compress : Point → Bytes
  /-- `from_affine_xy(x, y).is_some()` (lib.rs:1599). -/
  onCurve : Word → Word → Bool
  /-- `pedersen_commit_compressed` (lib.rs:61): `value·H + blinding·G`. -/
  pedersenCommitCompressed : Nat → Word → Bytes
  /-- `verify_pedersen_opening` with the blinding reduced mod the group order (lib.rs:1611). -/
  verifyPedersenOpening : Point → Nat → Word → Bool
  /-- `bip340_verify` (lib.rs:564). -/
  bip340Verify : Bytes → Word → Word → Bool
  /-- `asset_scoped_kernel_verify` (lib.rs:798): the signature verifies under the x coordinate of
  `Σ ins − Σ outs − net·H`, which is not infinity. -/
  assetScopedKernelVerify : Word → List Point → List Point → Nat → Bytes → Bool
  /-- `verify_range` (lib.rs:1282). -/
  verifyRange : List Point → Bytes → Bool

/-- `from_affine_xy` (lib.rs:1599). -/
def Crypto.fromAffineXy (C : Crypto) (x y : Word) : Option Point := if C.onCurve x y then some ⟨x, y⟩ else none

section Leaves

variable (K : Keccak)

/-- `leaf` (lib.rs:1731), the native note leaf. -/
def leaf (asset cx cy owner : Word) : Word := K.kn [asset.bytes, cx.bytes, cy.bytes, owner.bytes]

/-- `nullifier` (lib.rs:1748). -/
def nullifier (noteLeaf : Word) : Word := K.kn [noteLeaf.bytes, ascii "spent"]

/-- `commitment_hash` (lib.rs:1768). -/
def commitmentHash (cx cy : Word) : Word := K.kn [cx.bytes, cy.bytes]

/-- `btc_note_leaf` (lib.rs:1803). -/
def btcNoteLeaf (asset cx cy authKey : Word) : Word :=
  K.kn [asset.bytes, cx.bytes, cy.bytes, authKey.bytes, ascii "tacit-btc-note-v1"]

/-- `btc_note_leaf_bound` (lib.rs:1817). -/
def btcNoteLeafBound (asset cx cy authKey targetChainBinding : Word) : Word :=
  K.kn [asset.bytes, cx.bytes, cy.bytes, authKey.bytes, targetChainBinding.bytes, ascii "tacit-btc-note-bound"]

/-- `outpoint_key` (lib.rs:1929). -/
def outpointKey (op : OutPoint) : Word := K.kn [op.1.bytes, leBytes 4 op.2.val]

/-- `bridge_burn_id` (lib.rs:1875). -/
def bridgeBurnId (sourceKind : Nat) (spent : OutPoint) (srcLeaf targetChainBinding : Word) : Word :=
  K.kn [ascii "tacit-bridge-burn-source-v1", [sourceKind], spent.1.bytes, beBytes 4 spent.2.val, srcLeaf.bytes,
    targetChainBinding.bytes]

/-- `BURN_SOURCE_REFLECTED` and `BURN_SOURCE_DEPOSIT` (lib.rs:1859). -/
def burnSourceReflected : Nat := 1
def burnSourceDeposit : Nat := 2

/-- `pending_deposit_value` (lib.rs:4425). -/
def pendingDepositValue (asset nu dest target : Word) : Word :=
  K.kn [ascii "tacit-pending-deposit-v1", asset.bytes, nu.bytes, dest.bytes, target.bytes]

/-- `bind_spent_note` (lib.rs:2819). -/
def bindSpentNote (committedValue asset cx cy authKey : Word) : Option Word :=
  if commitmentHash K cx cy ≠ committedValue then none else some (nullifier K (btcNoteLeaf K asset cx cy authKey))

/-- `bind_spent_note_bound` (lib.rs:2830). -/
def bindSpentNoteBound (committedValue asset cx cy authKey chainBinding : Word) : Option Word :=
  if commitmentHash K cx cy ≠ committedValue then none
  else some (nullifier K (btcNoteLeafBound K asset cx cy authKey chainBinding))

end Leaves

/-- `commitment_hash_compressed` (lib.rs:1773). -/
def commitmentHashCompressed (C : Crypto) (compressed : Bytes) : Option Word :=
  (C.decompress compressed).map fun p => commitmentHash C.toKeccak p.x p.y

/-- `reflected_note_leaf` (lib.rs:1788). -/
def reflectedNoteLeaf (C : Crypto) (asset : Word) (compressed : Bytes) (authKey : Word) : Option Word :=
  (C.decompress compressed).map fun p => btcNoteLeaf C.toKeccak asset p.x p.y authKey

/-- `reflected_note_leaf_bound` (lib.rs:1831). -/
def reflectedNoteLeafBound (C : Crypto) (asset : Word) (compressed : Bytes) (authKey target : Word) : Option Word :=
  (C.decompress compressed).map fun p => btcNoteLeafBound C.toKeccak asset p.x p.y authKey target

/-- `LEGACY_BRIDGE_ASSETS` (lib.rs:1848). -/
def legacyBridgeAssets : List Word :=
  [⟨[0xf0, 0xbb, 0xe8, 0x68, 0xaf, 0x10, 0xc6, 0xc6, 0x76, 0x52, 0xa9, 0x97, 0x09, 0xbf, 0x32, 0x04,
     0x8d, 0x1a, 0xa7, 0x19, 0x4e, 0xfe, 0x3e, 0x9a, 0x1e, 0xf1, 0xbd, 0xe4, 0x3f, 0x94, 0x76, 0x2b], rfl⟩]

/-- `is_legacy_bridge_asset` (lib.rs:1853). -/
def isLegacyBridgeAsset (asset : Word) : Bool := legacyBridgeAssets.any (· == asset)

/-! ## Canonical output positions (lib.rs:1672-1729) -/

/-- `canonical_output_vout` (lib.rs:1672). -/
def canonicalOutputVout (opcode i nOutputs : Nat) : Option Nat :=
  if opcode ∈ [0x23, 0x22, 0x26, 0x3C, 0x39] then some i
  else if opcode ∈ [0x37, 0x3D] then
    if i = 0 then some 0 else if i = 1 ∧ 2 ≤ nOutputs then some 2 else none
  else none

/-- `canonical_bid_output_vout` (lib.rs:1693). -/
def canonicalBidOutputVout (opcode i nOutputs : Nat) (hasRefund : Bool) : Option Nat :=
  if (opcode = 0x5B ∨ opcode = 0x5C) ∧ i = 0 then some 0
  else if opcode = 0x5B ∧ i = 1 ∧ 2 ≤ nOutputs then some 3
  else if opcode = 0x5C ∧ i = 1 ∧ 2 ≤ nOutputs then some (if hasRefund then 4 else 3)
  else none

/-! ## Injectivity -/

section Injectivity

variable {K : Keccak}

theorem commitmentHash_inj (hK : K.Ideal) {cx cy cx' cy' : Word}
    (h : commitmentHash K cx cy = commitmentHash K cx' cy') : cx = cx' ∧ cy = cy' := by
  have := hK.kn_inj (by simp [Word.len]) h
  simp only [List.cons.injEq, and_true] at this
  exact ⟨Word.ext this.1, Word.ext this.2⟩

theorem nullifier_inj (hK : K.Ideal) {l l' : Word} (h : nullifier K l = nullifier K l') : l = l' := by
  have := hK.kn_inj (by simp [Word.len]) h
  simp only [List.cons.injEq, and_true] at this
  exact Word.ext this

theorem outpointKey_inj (hK : K.Ideal) {a b : OutPoint} (h : outpointKey K a = outpointKey K b) : a = b := by
  have := hK.kn_inj (by simp [Word.len]) h
  simp only [List.cons.injEq, and_true] at this
  refine Prod.ext (Word.ext this.1) (Fin.ext (leBytes_inj ?_ ?_ this.2))
  · have := a.2.isLt; omega
  · have := b.2.isLt; omega

end Injectivity

/-! ## An instance

secp256k1 over a given hash, for concrete runs: the table knows the generator `G` and the point `H`, and the
opening of `H` as the value 1 under the blinding 0. One byte string stands for the signatures that verify. -/

/-- The big-endian value of a word. -/
def Word.toNat (w : Word) : Nat := w.bytes.foldl (fun n b => n * 256 + b) 0

/-- The field prime of secp256k1. -/
def secpP : Nat := 2 ^ 256 - 2 ^ 32 - 977

/-- The generator of secp256k1. -/
def secpG : Point :=
  ⟨⟨[0x79, 0xbe, 0x66, 0x7e, 0xf9, 0xdc, 0xbb, 0xac, 0x55, 0xa0, 0x62, 0x95, 0xce, 0x87, 0x0b, 0x07,
     0x02, 0x9b, 0xfc, 0xdb, 0x2d, 0xce, 0x28, 0xd9, 0x59, 0xf2, 0x81, 0x5b, 0x16, 0xf8, 0x17, 0x98], rfl⟩,
   ⟨[0x48, 0x3a, 0xda, 0x77, 0x26, 0xa3, 0xc4, 0x65, 0x5d, 0xa4, 0xfb, 0xfc, 0x0e, 0x11, 0x08, 0xa8,
     0xfd, 0x17, 0xb4, 0x48, 0xa6, 0x85, 0x54, 0x19, 0x9c, 0x47, 0xd0, 0x8f, 0xfb, 0x10, 0xd4, 0xb8], rfl⟩⟩

/-- `gen_h` (lib.rs:964). -/
def genH : Point :=
  ⟨⟨[0xbd, 0x7b, 0xf4, 0x0f, 0xb5, 0xdb, 0x2f, 0x7e, 0x0a, 0x1e, 0x86, 0x60, 0xca, 0x13, 0xdf, 0x55,
     0xbb, 0x0d, 0x9f, 0x90, 0x4e, 0x36, 0xe6, 0x29, 0x73, 0x61, 0xf0, 0x03, 0x76, 0x86, 0x5e, 0x56], rfl⟩,
   ⟨[0x67, 0x76, 0xec, 0x70, 0x2f, 0x7b, 0x57, 0xd8, 0x02, 0x5f, 0x66, 0x93, 0xe8, 0xbe, 0x34, 0x51,
     0x23, 0x06, 0x5d, 0xe0, 0xbd, 0x03, 0x13, 0xd1, 0xcf, 0x2a, 0xbd, 0xb1, 0x3b, 0xa6, 0x8b, 0x2c], rfl⟩⟩

/-- `y² = x³ + 7` in the field. -/
def secpOnCurve (x y : Word) : Bool :=
  x.toNat < secpP && y.toNat < secpP && y.toNat ^ 2 % secpP == (x.toNat ^ 3 + 7) % secpP

example : secpOnCurve secpG.x secpG.y = true := by decide +kernel
example : secpOnCurve genH.x genH.y = true := by decide +kernel

/-- `compress` (lib.rs:65). -/
def Point.compress (p : Point) : Bytes := (2 + p.y.toNat % 2) :: p.x.bytes

def validSig : Bytes := ascii "signed"

def curveCrypto (K : Keccak) : Crypto where
  toKeccak := K
  sha256 := K.hash
  decompress c := [secpG, genH].find? fun p => p.compress == c
  compress := Point.compress
  onCurve := secpOnCurve
  pedersenCommitCompressed v r := if v = 1 ∧ r = 0 then genH.compress else []
  verifyPedersenOpening p v r := p == genH && v == 1 && r == 0
  bip340Verify sig _ _ := sig == validSig
  assetScopedKernelVerify _ _ _ _ _ := false
  verifyRange _ _ := false

theorem curveCrypto_decompress_genH (K : Keccak) : (curveCrypto K).decompress genH.compress = some genH := by
  show [secpG, genH].find? (fun p => p.compress == genH.compress) = some genH
  decide +kernel

end Tacit
