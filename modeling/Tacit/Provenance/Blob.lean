import Mathlib.Algebra.Group.Nat.Defs
import Mathlib.Tactic.NormNum
import Tacit.Lib.Cursor
import Tacit.Lib.LittleEndian
import Tacit.Lib.Machine
/-!
# The provenance blob on the wire (burn_deposit.rs:161-441)

`serialize` writes a blob with little-endian counts; `parse` reads it back over a cursor and requires exact consumption.
The two are written side by side, field by field, with the caps that only the reader has.
-/
namespace Tacit.Wire

open Prog Cursor

/-- `[u8; n]`. -/
abbrev Octets (n : Nat) := { l : List UInt8 // l.length = n }

/-- `PoolMembershipWitness` (burn_deposit.rs:201). -/
structure PoolMembershipWitness where
  outpoint : Octets 32
  cx : Octets 32
  cy : Octets 32
  owner : Octets 32
  noteClass : U 32
  chainBinding : Octets 32
  leafIndex : U 64
  path : List (Octets 32)

/-- `CmintWitness` (burn_deposit.rs:213). -/
structure CmintWitness where
  revealTx : List UInt8
  commitTx : List UInt8
  merkleSiblings : List (Octets 32)
  merkleIndex : U 32
  revealWtxidSiblings : List (Octets 32)
  revealCoinbase : List UInt8
  revealCbTxidSiblings : List (Octets 32)

/-- `ProvenanceWitness` (burn_deposit.rs:162). -/
structure ProvenanceWitness where
  tx : List UInt8
  inputCommitments : List (Octets 33)
  outputVouts : List (U 32)
  burnedAmount : U 64
  inputSkip : U 32
  merkleIndex : U 32
  merkleSiblings : List (Octets 32)
  confirmedBlockRoot : Octets 32
  wtxidSiblings : List (Octets 32)
  coinbase : List UInt8
  coinbaseTxidSiblings : List (Octets 32)

/-- `ProvenanceBlob` (burn_deposit.rs:240). -/
structure ProvenanceBlob where
  etchTx : List UInt8
  etchIndex : U 32
  etchSiblings : List (Octets 32)
  etchWtxidSiblings : List (Octets 32)
  etchCoinbase : List UInt8
  etchCbTxidSiblings : List (Octets 32)
  cmints : List CmintWitness
  prov : List ProvenanceWitness
  poolMemberships : List PoolMembershipWitness

/-! ## The writer -/

/-- `pb_u32` (:258); `pb_u64` stands for the inline `to_le_bytes` of a `u64`. -/
def pbU32 (v : U 32) : List UInt8 := toLe 4 v.val
def pbU64 (v : U 64) : List UInt8 := toLe 8 v.val

/-- A count, then the elements: `pb_v32`, `pb_v33`, `pb_vu32` and the loops of `serialize`. -/
def pbCounted {α : Type} (w : α → List UInt8) (l : List α) : List UInt8 := pbU32 (U.wrap 32 l.length) ++ (l.map w).flatten

/-- `pb_bytes` (:259). -/
def pbBytes (b : List UInt8) : List UInt8 := pbU32 (U.wrap 32 b.length) ++ b

def pbV32 (v : List (Octets 32)) : List UInt8 := pbCounted Subtype.val v
def pbV33 (v : List (Octets 33)) : List UInt8 := pbCounted Subtype.val v
def pbVu32 (v : List (U 32)) : List UInt8 := pbCounted pbU32 v

def CmintWitness.serialize (c : CmintWitness) : List UInt8 :=
  pbBytes c.revealTx ++ pbBytes c.commitTx ++ pbV32 c.merkleSiblings ++ pbU32 c.merkleIndex ++
    pbV32 c.revealWtxidSiblings ++ pbBytes c.revealCoinbase ++ pbV32 c.revealCbTxidSiblings

def ProvenanceWitness.serialize (p : ProvenanceWitness) : List UInt8 :=
  pbBytes p.tx ++ pbV33 p.inputCommitments ++ pbVu32 p.outputVouts ++ pbU64 p.burnedAmount ++ pbU32 p.inputSkip ++
    pbU32 p.merkleIndex ++ pbV32 p.merkleSiblings ++ p.confirmedBlockRoot.val ++ pbV32 p.wtxidSiblings ++
    pbBytes p.coinbase ++ pbV32 p.coinbaseTxidSiblings

def PoolMembershipWitness.serialize (m : PoolMembershipWitness) : List UInt8 :=
  m.outpoint.val ++ m.cx.val ++ m.cy.val ++ m.owner.val ++ pbU32 m.noteClass ++ m.chainBinding.val ++
    pbU64 m.leafIndex ++ pbV32 m.path

/-- `ProvenanceBlob::serialize` (:319). -/
def ProvenanceBlob.serialize (b : ProvenanceBlob) : List UInt8 :=
  pbBytes b.etchTx ++ pbU32 b.etchIndex ++ pbV32 b.etchSiblings ++ pbV32 b.etchWtxidSiblings ++ pbBytes b.etchCoinbase ++
    pbV32 b.etchCbTxidSiblings ++ pbCounted CmintWitness.serialize b.cmints ++
    pbCounted ProvenanceWitness.serialize b.prov ++ pbCounted PoolMembershipWitness.serialize b.poolMemberships

/-! ## The reader -/

/-- A method of `PbCur` (:264); `None` is the refusal. -/
abbrev PbCur := Prog (Cursor UInt8) Unit

namespace PbCur

/-- `from_le_bytes` of the next `k` bytes. -/
def le (w k : Nat) : PbCur (U w) := do
  let v ← take k
  return U.wrap w (fromLe v)

def u32 : PbCur (U 32) := le 32 4
def u64 : PbCur (U 64) := le 64 8

def bytes : PbCur (List UInt8) := do
  let n ← u32
  take n.val

/-- `a32` and `a33`. -/
def array (n : Nat) : PbCur (Octets n) := do
  let v ← take n
  orThrow (if h : v.length = n then some ⟨v, h⟩ else none) ()

/-- A count, refused above the cap, then as many elements. -/
def counted {α : Type} (cap : Nat) (m : PbCur α) : PbCur (List α) := do
  let n ← u32
  check (n.val > cap) ()
  readN m n.val

def a32 : PbCur (Octets 32) := array 32
def a33 : PbCur (Octets 33) := array 33
def v32 : PbCur (List (Octets 32)) := counted 4096 a32
def v33 : PbCur (List (Octets 33)) := counted 4096 a33
def vu32 : PbCur (List (U 32)) := counted 4096 u32

def cmint : PbCur CmintWitness := do
  let revealTx ← bytes
  let commitTx ← bytes
  let merkleSiblings ← v32
  let merkleIndex ← u32
  let revealWtxidSiblings ← v32
  let revealCoinbase ← bytes
  let revealCbTxidSiblings ← v32
  return ⟨revealTx, commitTx, merkleSiblings, merkleIndex, revealWtxidSiblings, revealCoinbase, revealCbTxidSiblings⟩

def provenance : PbCur ProvenanceWitness := do
  let tx ← bytes
  let inputCommitments ← v33
  let outputVouts ← vu32
  let burnedAmount ← u64
  let inputSkip ← u32
  let merkleIndex ← u32
  let merkleSiblings ← v32
  let confirmedBlockRoot ← a32
  let wtxidSiblings ← v32
  let coinbase ← bytes
  let coinbaseTxidSiblings ← v32
  return ⟨tx, inputCommitments, outputVouts, burnedAmount, inputSkip, merkleIndex, merkleSiblings, confirmedBlockRoot,
    wtxidSiblings, coinbase, coinbaseTxidSiblings⟩

def poolMembership : PbCur PoolMembershipWitness := do
  let outpoint ← a32
  let cx ← a32
  let cy ← a32
  let owner ← a32
  let noteClass ← u32
  let chainBinding ← a32
  let leafIndex ← u64
  let path ← v32
  return ⟨outpoint, cx, cy, owner, noteClass, chainBinding, leafIndex, path⟩

def blob : PbCur ProvenanceBlob := do
  let etchTx ← bytes
  let etchIndex ← u32
  let etchSiblings ← v32
  let etchWtxidSiblings ← v32
  let etchCoinbase ← bytes
  let etchCbTxidSiblings ← v32
  let cmints ← counted 1024 cmint
  let prov ← counted 256 provenance
  let poolMemberships ← counted 256 poolMembership
  return ⟨etchTx, etchIndex, etchSiblings, etchWtxidSiblings, etchCoinbase, etchCbTxidSiblings, cmints, prov, poolMemberships⟩

end PbCur

/-- `ProvenanceBlob::parse` (:364): a panic is `none`, the code's `None` is `some none`. -/
def ProvenanceBlob.parse (blob : List UInt8) : Option (Option ProvenanceBlob) := run (whole PbCur.blob) blob

/-! ## The caps of the format -/

/-- What `bytes` can carry, and `v32`, `v33` and `vu32`. -/
def BytesFit (b : List UInt8) : Prop := b.length < 2 ^ 32
def VecFits {α : Type} (l : List α) : Prop := l.length ≤ 4096

structure CmintWitness.WithinCaps (c : CmintWitness) : Prop where
  revealTx : BytesFit c.revealTx
  commitTx : BytesFit c.commitTx
  merkleSiblings : VecFits c.merkleSiblings
  revealWtxidSiblings : VecFits c.revealWtxidSiblings
  revealCoinbase : BytesFit c.revealCoinbase
  revealCbTxidSiblings : VecFits c.revealCbTxidSiblings

structure ProvenanceWitness.WithinCaps (p : ProvenanceWitness) : Prop where
  tx : BytesFit p.tx
  inputCommitments : VecFits p.inputCommitments
  outputVouts : VecFits p.outputVouts
  merkleSiblings : VecFits p.merkleSiblings
  wtxidSiblings : VecFits p.wtxidSiblings
  coinbase : BytesFit p.coinbase
  coinbaseTxidSiblings : VecFits p.coinbaseTxidSiblings

/-- The format's caps, all through the nesting. -/
structure ProvenanceBlob.WithinCaps (b : ProvenanceBlob) : Prop where
  etchTx : BytesFit b.etchTx
  etchSiblings : VecFits b.etchSiblings
  etchWtxidSiblings : VecFits b.etchWtxidSiblings
  etchCoinbase : BytesFit b.etchCoinbase
  etchCbTxidSiblings : VecFits b.etchCbTxidSiblings
  cmints : b.cmints.length ≤ 1024 ∧ ∀ c ∈ b.cmints, c.WithinCaps
  prov : b.prov.length ≤ 256 ∧ ∀ p ∈ b.prov, p.WithinCaps
  poolMemberships : b.poolMemberships.length ≤ 256 ∧ ∀ m ∈ b.poolMemberships, VecFits m.path

/-! ## The reader inverts the writer, piece by piece -/

section Pieces

variable {α : Type} {m : PbCur α} {w : α → List UInt8} {v : α → Prop}

theorem le_inverts {w k : Nat} (hw : 2 ^ w = 256 ^ k) : Inverts (PbCur.le w k) (fun v => toLe k v.val) fun _ => True :=
  (take_inverts k).map
    (fun l hl => by
      have hlt : fromLe l < 2 ^ w := hw ▸ hl ▸ fromLe_lt l
      simp only [U.wrap, Nat.mod_eq_of_lt hlt, and_true]
      rw [← hl, toLe_fromLe])
    fun v _ => by
      have hv : fromLe (toLe k v.val) = v.val := fromLe_toLe (hw ▸ v.isLt)
      refine ⟨toLe_length .., Fin.ext ?_⟩
      simp only [U.wrap, hv]
      exact Nat.mod_eq_of_lt v.isLt

theorem u32_inverts : Inverts PbCur.u32 pbU32 fun _ => True := le_inverts (by norm_num)

theorem u64_inverts : Inverts PbCur.u64 pbU64 fun _ => True := le_inverts (by norm_num)

/-- A count that fits its four bytes is read back. -/
theorem wrap_eq_iff {n : Nat} {k : U 32} (hn : n < 2 ^ 32) : U.wrap 32 n = k ↔ n = k.val := by
  rw [Fin.ext_iff]
  simp only [U.wrap, Nat.mod_eq_of_lt hn]

theorem bytes_inverts : Inverts PbCur.bytes pbBytes BytesFit := by
  refine u32_inverts.bind (fun n _ => ?_) fun _ _ => trivial
  refine (take_inverts n.val).congr (fun b => ?_) fun _ _ => rfl
  constructor
  · rintro ⟨hn, hb⟩
    exact (wrap_eq_iff hb).1 hn
  · intro hb
    have hfit : BytesFit b := hb.trans_lt n.isLt
    exact ⟨(wrap_eq_iff hfit).2 hb, hfit⟩

theorem array_inverts (n : Nat) : Inverts (PbCur.array n) Subtype.val fun _ => True := by
  have h : Inverts (PbCur.array n) (fun a => id a.val ++ []) fun _ => True := by
    refine (take_inverts n).bind (fun l hl => ?_) fun a _ => a.property
    rw [dif_pos hl]
    refine Inverts.pure fun a => ⟨?_, ?_⟩
    · rintro ⟨rfl, -⟩
      rfl
    · rintro rfl
      exact ⟨rfl, trivial⟩
  exact h.congr (fun _ => Iff.rfl) fun _ _ => (List.append_nil _).symm

theorem counted_inverts (hm : Inverts m w v) {cap : Nat} (hcap : cap < 2 ^ 32) :
    Inverts (PbCur.counted cap m) (pbCounted w) fun l => l.length ≤ cap ∧ ∀ a ∈ l, v a := by
  refine u32_inverts.bind (fun n _ => ?_) fun _ _ => trivial
  refine .check (fun hn => (hm.readN n.val).congr (fun l => ?_) fun _ _ => rfl) ?_
  · constructor
    · rintro ⟨hl, hle, hall⟩
      exact ⟨(wrap_eq_iff (by omega)).1 hl, hall⟩
    · rintro ⟨hl, hall⟩
      exact ⟨(wrap_eq_iff (by omega)).2 hl, by omega, hall⟩
  · rintro hn l ⟨hl, hle, -⟩
    have := (wrap_eq_iff (by omega)).1 hl
    omega

theorem vec_inverts (hm : Inverts m w fun _ => True) : Inverts (PbCur.counted 4096 m) (pbCounted w) VecFits :=
  (counted_inverts hm (by norm_num)).congr (fun _ => by simp [VecFits]) fun _ _ => rfl

theorem v32_inverts : Inverts PbCur.v32 pbV32 VecFits := vec_inverts (array_inverts 32)

theorem v33_inverts : Inverts PbCur.v33 pbV33 VecFits := vec_inverts (array_inverts 33)

theorem vu32_inverts : Inverts PbCur.vu32 pbVu32 VecFits := vec_inverts u32_inverts

end Pieces

/-! ## The records -/

theorem cmint_inverts : Inverts PbCur.cmint CmintWitness.serialize CmintWitness.WithinCaps := by
  have h : Inverts PbCur.cmint (fun c => pbBytes c.revealTx ++ (pbBytes c.commitTx ++ (pbV32 c.merkleSiblings ++
      (pbU32 c.merkleIndex ++ (pbV32 c.revealWtxidSiblings ++ (pbBytes c.revealCoinbase ++
        (pbV32 c.revealCbTxidSiblings ++ []))))))) CmintWitness.WithinCaps := by
    refine bytes_inverts.bind (fun revealTx h₁ => ?_) fun c hc => hc.revealTx
    refine bytes_inverts.bind (fun commitTx h₂ => ?_) fun c hc => hc.2.commitTx
    refine v32_inverts.bind (fun merkleSiblings h₃ => ?_) fun c hc => hc.2.2.merkleSiblings
    refine u32_inverts.bind (fun merkleIndex _ => ?_) fun _ _ => trivial
    refine v32_inverts.bind (fun revealWtxidSiblings h₄ => ?_) fun c hc => hc.2.2.2.2.revealWtxidSiblings
    refine bytes_inverts.bind (fun revealCoinbase h₅ => ?_) fun c hc => hc.2.2.2.2.2.revealCoinbase
    refine v32_inverts.bind (fun revealCbTxidSiblings h₆ => ?_) fun c hc => hc.2.2.2.2.2.2.revealCbTxidSiblings
    refine .pure fun c => ⟨?_, ?_⟩
    · rintro ⟨rfl, rfl, rfl, rfl, rfl, rfl, rfl, -⟩
      rfl
    · rintro rfl
      exact ⟨rfl, rfl, rfl, rfl, rfl, rfl, rfl, ⟨h₁, h₂, h₃, h₄, h₅, h₆⟩⟩
  exact h.congr (fun _ => Iff.rfl) fun c _ => by simp only [CmintWitness.serialize, List.append_assoc, List.append_nil]

theorem provenance_inverts : Inverts PbCur.provenance ProvenanceWitness.serialize ProvenanceWitness.WithinCaps := by
  have h : Inverts PbCur.provenance (fun p => pbBytes p.tx ++ (pbV33 p.inputCommitments ++ (pbVu32 p.outputVouts ++
      (pbU64 p.burnedAmount ++ (pbU32 p.inputSkip ++ (pbU32 p.merkleIndex ++ (pbV32 p.merkleSiblings ++
        (p.confirmedBlockRoot.val ++ (pbV32 p.wtxidSiblings ++ (pbBytes p.coinbase ++
          (pbV32 p.coinbaseTxidSiblings ++ []))))))))))) ProvenanceWitness.WithinCaps := by
    refine bytes_inverts.bind (fun tx h₁ => ?_) fun p hp => hp.tx
    refine v33_inverts.bind (fun inputCommitments h₂ => ?_) fun p hp => hp.2.inputCommitments
    refine vu32_inverts.bind (fun outputVouts h₃ => ?_) fun p hp => hp.2.2.outputVouts
    refine u64_inverts.bind (fun burnedAmount _ => ?_) fun _ _ => trivial
    refine u32_inverts.bind (fun inputSkip _ => ?_) fun _ _ => trivial
    refine u32_inverts.bind (fun merkleIndex _ => ?_) fun _ _ => trivial
    refine v32_inverts.bind (fun merkleSiblings h₄ => ?_) fun p hp => hp.2.2.2.2.2.2.merkleSiblings
    refine (array_inverts 32).bind (fun confirmedBlockRoot _ => ?_) fun _ _ => trivial
    refine v32_inverts.bind (fun wtxidSiblings h₅ => ?_) fun p hp => hp.2.2.2.2.2.2.2.2.wtxidSiblings
    refine bytes_inverts.bind (fun coinbase h₆ => ?_) fun p hp => hp.2.2.2.2.2.2.2.2.2.coinbase
    refine v32_inverts.bind (fun coinbaseTxidSiblings h₇ => ?_) fun p hp => hp.2.2.2.2.2.2.2.2.2.2.coinbaseTxidSiblings
    refine .pure fun p => ⟨?_, ?_⟩
    · rintro ⟨rfl, rfl, rfl, rfl, rfl, rfl, rfl, rfl, rfl, rfl, rfl, -⟩
      rfl
    · rintro rfl
      exact ⟨rfl, rfl, rfl, rfl, rfl, rfl, rfl, rfl, rfl, rfl, rfl, ⟨h₁, h₂, h₃, h₄, h₅, h₆, h₇⟩⟩
  exact h.congr (fun _ => Iff.rfl) fun p _ => by simp only [ProvenanceWitness.serialize, List.append_assoc, List.append_nil]

theorem poolMembership_inverts :
    Inverts PbCur.poolMembership PoolMembershipWitness.serialize fun m => VecFits m.path := by
  have h : Inverts PbCur.poolMembership (fun m => m.outpoint.val ++ (m.cx.val ++ (m.cy.val ++ (m.owner.val ++
      (pbU32 m.noteClass ++ (m.chainBinding.val ++ (pbU64 m.leafIndex ++ (pbV32 m.path ++ []))))))))
      fun m => VecFits m.path := by
    refine (array_inverts 32).bind (fun outpoint _ => ?_) fun _ _ => trivial
    refine (array_inverts 32).bind (fun cx _ => ?_) fun _ _ => trivial
    refine (array_inverts 32).bind (fun cy _ => ?_) fun _ _ => trivial
    refine (array_inverts 32).bind (fun owner _ => ?_) fun _ _ => trivial
    refine u32_inverts.bind (fun noteClass _ => ?_) fun _ _ => trivial
    refine (array_inverts 32).bind (fun chainBinding _ => ?_) fun _ _ => trivial
    refine u64_inverts.bind (fun leafIndex _ => ?_) fun _ _ => trivial
    refine v32_inverts.bind (fun path h₁ => ?_) fun m hm => hm.2.2.2.2.2.2.2
    refine .pure fun m => ⟨?_, ?_⟩
    · rintro ⟨rfl, rfl, rfl, rfl, rfl, rfl, rfl, rfl, -⟩
      rfl
    · rintro rfl
      exact ⟨rfl, rfl, rfl, rfl, rfl, rfl, rfl, rfl, h₁⟩
  exact h.congr (fun _ => Iff.rfl) fun m _ => by
    simp only [PoolMembershipWitness.serialize, List.append_assoc, List.append_nil]

theorem blob_inverts : Inverts PbCur.blob ProvenanceBlob.serialize ProvenanceBlob.WithinCaps := by
  have h : Inverts PbCur.blob (fun b => pbBytes b.etchTx ++ (pbU32 b.etchIndex ++ (pbV32 b.etchSiblings ++
      (pbV32 b.etchWtxidSiblings ++ (pbBytes b.etchCoinbase ++ (pbV32 b.etchCbTxidSiblings ++
        (pbCounted CmintWitness.serialize b.cmints ++ (pbCounted ProvenanceWitness.serialize b.prov ++
          (pbCounted PoolMembershipWitness.serialize b.poolMemberships ++ []))))))))) ProvenanceBlob.WithinCaps := by
    refine bytes_inverts.bind (fun etchTx h₁ => ?_) fun b hb => hb.etchTx
    refine u32_inverts.bind (fun etchIndex _ => ?_) fun _ _ => trivial
    refine v32_inverts.bind (fun etchSiblings h₂ => ?_) fun b hb => hb.2.2.etchSiblings
    refine v32_inverts.bind (fun etchWtxidSiblings h₃ => ?_) fun b hb => hb.2.2.2.etchWtxidSiblings
    refine bytes_inverts.bind (fun etchCoinbase h₄ => ?_) fun b hb => hb.2.2.2.2.etchCoinbase
    refine v32_inverts.bind (fun etchCbTxidSiblings h₅ => ?_) fun b hb => hb.2.2.2.2.2.etchCbTxidSiblings
    refine (counted_inverts cmint_inverts (by norm_num)).bind (fun cmints h₆ => ?_) fun b hb => hb.2.2.2.2.2.2.cmints
    refine (counted_inverts provenance_inverts (by norm_num)).bind (fun prov h₇ => ?_) fun b hb => hb.2.2.2.2.2.2.2.prov
    refine (counted_inverts poolMembership_inverts (by norm_num)).bind (fun poolMemberships h₈ => ?_)
      fun b hb => hb.2.2.2.2.2.2.2.2.poolMemberships
    refine .pure fun b => ⟨?_, ?_⟩
    · rintro ⟨rfl, rfl, rfl, rfl, rfl, rfl, rfl, rfl, rfl, -⟩
      rfl
    · rintro rfl
      exact ⟨rfl, rfl, rfl, rfl, rfl, rfl, rfl, rfl, rfl, ⟨h₁, h₂, h₃, h₄, h₅, h₆, h₇, h₈⟩⟩
  exact h.congr (fun _ => Iff.rfl) fun b _ => by simp only [ProvenanceBlob.serialize, List.append_assoc, List.append_nil]

/-- `parse` and `serialize` are inverse on the blobs within the caps: what is read is what is written, what is truncated
or padded is refused, and nothing is read out of bounds. -/
theorem provenance_blob_bijection :
    (∀ b : ProvenanceBlob, b.WithinCaps → ProvenanceBlob.parse b.serialize = some (some b)) ∧
    (∀ x b, ProvenanceBlob.parse x = some (some b) → b.WithinCaps ∧ b.serialize = x) ∧
    (∀ b : ProvenanceBlob, b.WithinCaps → ∀ y, y ≠ [] →
      ProvenanceBlob.parse (b.serialize ++ y) = some none ∧
      ∀ x, b.serialize = x ++ y → ProvenanceBlob.parse x = some none) ∧
    ∀ x, ProvenanceBlob.parse x ≠ none := by
  refine ⟨fun b hb => blob_inverts.run_whole.2 ⟨hb, rfl⟩, fun x b h => blob_inverts.run_whole.1 h, ?_,
    fun x => blob_inverts.run_ne_panic⟩
  intro b hb y hy
  refine ⟨blob_inverts.run_refuses fun b' hb' heq => hy (blob_inverts.prefix_free hb hb' heq), ?_⟩
  intro x hx
  refine blob_inverts.run_refuses fun b' hb' heq => hy (blob_inverts.prefix_free hb' hb ?_)
  rw [heq, hx]

/-- A blob with an etch and one pool membership. -/
def sampleBlob : ProvenanceBlob where
  etchTx := [42, 42, 42]
  etchIndex := 3
  etchSiblings := [⟨List.replicate 32 171, List.length_replicate⟩]
  etchWtxidSiblings := []
  etchCoinbase := [1, 2]
  etchCbTxidSiblings := []
  cmints := []
  prov := []
  poolMemberships :=
    let word : Octets 32 := ⟨List.replicate 32 18, List.length_replicate⟩
    [⟨word, word, word, word, 2, word, U.wrap 64 7451, [word, word]⟩]

theorem provenance_blob_bijection_sample : ProvenanceBlob.parse sampleBlob.serialize = some (some sampleBlob) :=
  provenance_blob_bijection.1 _
    { etchTx := by simp [BytesFit, sampleBlob]
      etchSiblings := by simp [VecFits, sampleBlob]
      etchWtxidSiblings := by simp [VecFits, sampleBlob]
      etchCoinbase := by simp [BytesFit, sampleBlob]
      etchCbTxidSiblings := by simp [VecFits, sampleBlob]
      cmints := by simp [sampleBlob]
      prov := by simp [sampleBlob]
      poolMemberships := by simp [VecFits, sampleBlob] }

end Tacit.Wire
