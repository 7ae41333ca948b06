import Mathlib.Data.Nat.Pairing
import Mathlib.Data.ZMod.Basic
import Tacit.Imt
import Tacit.Lib.Throws
import Tacit.BtcPool.Body
/-!
# The spend relation of the pool (btc-pool-core/src/lib.rs:22-63, :267-385)

A note's nullifier is a hash of its leaf, its nullifier key and its position. A position holds one leaf under a root, the leaf
names the public nullifier key, and the guest reads the key's scalar canonically: so one nullifier for each position.
-/
namespace Tacit

namespace BtcPool

open Prog
open Wire (Octets)

/-! ## Hashes -/

section

variable (K : Keccak)

/-- `btc_pool_note_leaf` (:44). -/
def btcPoolNoteLeaf (asset cx cy spendKey : Octets 32) (nkPub : Octets 33) : Word :=
  K.kn [octetBytes asset.val, octetBytes cx.val, octetBytes cy.val, octetBytes spendKey.val, octetBytes nkPub.val,
    ascii "tacit-btc-pool-note-v1"]

/-- `btc_pool_nullifier` (:55). -/
def btcPoolNullifier (leaf : Word) (nkNote : Octets 32) (leafIndex : U 64) : Word :=
  K.kn [ascii "tacit-btc-pool-nf-v1", leaf.bytes, octetBytes nkNote.val, beBytes 8 leafIndex.val]

/-- `btc_pool_spend_msg` (:60). -/
def btcPoolSpendMsg (body : List UInt8) : Word := K.kn [ascii "tacit-btc-pool-spend-v1", octetBytes body]

end

/-! ## The relation -/

/-- `BtcPoolSpendInput` (:269). -/
structure BtcPoolSpendInput where
  cx : Octets 32
  cy : Octets 32
  value : U 64
  blinding : Octets 32
  spendKey : Octets 32
  nkPub : Octets 33
  nkNote : Octets 32
  leafIndex : U 64
  path : List Word
  sig : Octets 64

/-- `BtcPoolOpening` (:286). -/
structure BtcPoolOpening where
  value : U 64
  blinding : Octets 32

/-- `BtcPoolSpendWitness` (:292). -/
structure BtcPoolSpendWitness where
  body : List UInt8
  root : Word
  inputs : List BtcPoolSpendInput
  outputs : List BtcPoolOpening

/-- `BtcPoolSpendStatement` (:301). -/
structure BtcPoolSpendStatement where
  root : Word
  bodyHash : Word

/-- The commitments that a spend creates (:373), the exit's last. -/
def BtcPoolSpendBody.commitments (body : BtcPoolSpendBody) : List (Octets 32 × Octets 32) :=
  body.outputs.map (fun o => (o.cx, o.cy)) ++ body.exit.toList.map fun e => (e.cx, e.cy)

/-- The pairs of nullifiers compared (:331). -/
def repeats : List (Octets 32) → Bool
  | [] => false
  | nf :: l => l.any (· = nf) || repeats l

section

variable {E : Type} [AddCommGroup E] [DecidableEq E] (S : Secp E) (K : Keccak)

/-- `opens` (:315). -/
def opens (cx cy : Octets 32) (value : U 64) (blinding : Octets 32) : Bool :=
  match S.fromAffineXy (octetWord cx) (octetWord cy) with
  | some c => S.verifyPedersenOpening c value (scalarReduceBe (octetWord blinding))
  | none => false

/-- One input against its nullifier of the body (:341-371). -/
def verifyInput (asset : Octets 32) (msg root : Word) (inp : BtcPoolSpendInput) (nfBody : Octets 32) : Except String Unit := do
  refuse (opens S inp.cx inp.cy inp.value inp.blinding = false) "btc-pool: input opening"
  refuse (inp.path.length ≠ keccakTreeDepth ∨ inp.leafIndex.val >>> keccakTreeDepth ≠ 0) "btc-pool: input membership"
  let leaf := btcPoolNoteLeaf K asset inp.cx inp.cy inp.spendKey inp.nkPub
  refuse (keccakMerkleVerify K leaf inp.leafIndex.val inp.path root = false) "btc-pool: input membership"
  let nk ← need (scalarCanonicalBe (octetWord inp.nkNote)) "btc-pool: nk_note not canonical"
  refuse (nk.val = 0) "btc-pool: nk_note is zero"
  refuse (S.compress (nk.val • S.generator) ≠ octetBytes inp.nkPub.val) "btc-pool: nk_pub does not match nk_note"
  refuse (btcPoolNullifier K leaf inp.nkNote inp.leafIndex ≠ octetWord nfBody) "btc-pool: nullifier mismatch"
  refuse (S.bip340Verify inp.sig msg inp.spendKey = false) "btc-pool: spend signature"

/-- `verify_btc_pool_spend` (:324). The sums have at most four terms of 64 bits, far below the `u128` they are kept in. -/
def verifyBtcPoolSpend (w : BtcPoolSpendWitness) : Except String BtcPoolSpendStatement := do
  let body ← BtcPoolSpendBody.parse S w.body
  refuse (w.inputs.length ≠ body.nullifiers.length) "btc-pool: input count does not match body"
  refuse (repeats body.nullifiers = true) "btc-pool: repeated nullifier"
  let msg := btcPoolSpendMsg K w.body
  let sumIn ← (w.inputs.zip body.nullifiers).foldlM (fun sum p => do
    verifyInput S K body.asset msg w.root p.1 p.2
    return sum + p.1.value.val) 0
  refuse (w.outputs.length ≠ body.outputs.length + (if body.exit.isSome then 1 else 0)) "btc-pool: output count does not match body"
  let sumOut ← (body.commitments.zip w.outputs).foldlM (fun sum p => do
    refuse (opens S p.1.1 p.1.2 p.2.value p.2.blinding = false) "btc-pool: output opening"
    return sum + p.2.value.val) 0
  refuse (sumIn ≠ sumOut) "btc-pool: conservation"
  return ⟨w.root, K.kn [octetBytes w.body]⟩

end

/-! ## What is accepted -/

theorem foldlM_sum_eq_ok {α ε : Type} {f : α → Except ε Unit} {v : α → Nat} {t : Nat} : ∀ {l : List α} {n : Nat},
    l.foldlM (fun sum a => do f a; return sum + v a) n = .ok t ↔ (∀ a ∈ l, f a = .ok ()) ∧ t = n + (l.map v).sum
  | [], n => by
    rw [List.foldlM_nil, except_pure_eq_ok]
    simp
  | a :: l, n => by
    rw [List.foldlM_cons]
    simp only [except_bind_eq_ok, except_pure_eq_ok, foldlM_sum_eq_ok (l := l), List.forall_mem_cons, List.map_cons,
      List.sum_cons, ← Nat.add_assoc]
    constructor
    · rintro ⟨m, ⟨_, ha, rfl⟩, hl, rfl⟩
      exact ⟨⟨ha, hl⟩, rfl⟩
    · rintro ⟨⟨ha, hl⟩, rfl⟩
      exact ⟨_, ⟨(), ha, rfl⟩, hl, rfl⟩

theorem repeats_eq_false : ∀ {l : List (Octets 32)}, repeats l = false ↔ l.Nodup
  | [] => by simp [repeats]
  | a :: l => by
    have hany : l.any (· = a) = false ↔ a ∉ l := by
      rw [List.any_eq_false]
      constructor
      · exact fun h ha => h a ha (decide_eq_true rfl)
      · rintro ha b hb hba
        exact ha (of_decide_eq_true hba ▸ hb)
    rw [repeats, Bool.or_eq_false_iff, repeats_eq_false, List.nodup_cons, hany]

section

variable {E : Type} [AddCommGroup E] [DecidableEq E] {S : Secp E} {K : Keccak}

/-- What `verifyInput` admits. -/
structure Verified (S : Secp E) (K : Keccak) (asset : Octets 32) (root : Word) (inp : BtcPoolSpendInput) (nf : Octets 32) : Prop where
  opens : opens S inp.cx inp.cy inp.value inp.blinding = true
  index : inp.leafIndex.val < 2 ^ 32
  path : inp.path.length = 32
  member : Merkle.rootFrom K.k2 (btcPoolNoteLeaf K asset inp.cx inp.cy inp.spendKey inp.nkPub) inp.leafIndex.val inp.path = root
  key : ∃ nk : Scalar, scalarCanonicalBe (octetWord inp.nkNote) = some nk ∧ S.compress (nk.val • S.generator) = octetBytes inp.nkPub.val
  nullifier : btcPoolNullifier K (btcPoolNoteLeaf K asset inp.cx inp.cy inp.spendKey inp.nkPub) inp.nkNote inp.leafIndex = octetWord nf

theorem verifyInput_verified {asset : Octets 32} {msg root : Word} {inp : BtcPoolSpendInput} {nf : Octets 32}
    (h : verifyInput S K asset msg root inp nf = .ok ()) : Verified S K asset root inp nf := by
  simp only [verifyInput, except_bind_eq_ok, refuse_eq_ok, need_eq_ok, not_or, not_not, Bool.not_eq_false] at h
  obtain ⟨_, hopens, _, ⟨-, hindex⟩, _, hmember, nk, hnk, _, -, _, hpub, _, hnf, -⟩ := h
  obtain ⟨hpath, hroot⟩ := keccakMerkleVerify_iff.1 hmember
  rw [keccakTreeDepth, Nat.shiftRight_eq_div_pow] at hindex
  exact ⟨hopens, Nat.lt_of_div_eq_zero (by norm_num) hindex, hpath, hroot, ⟨nk, hnk, hpub⟩, hnf⟩

section Positions

variable {asset asset' : Octets 32} {root : Word} {inp inp' : BtcPoolSpendInput} {nf nf' : Octets 32}

/-- One position, one nullifier: the leaf there names the key, and the key has one scalar in one encoding. -/
theorem Verified.nullifier_eq (hS : S.Laws) (hK : Function.Injective K.hash) (h : Verified S K asset root inp nf)
    (h' : Verified S K asset' root inp' nf') (hindex : inp.leafIndex = inp'.leafIndex) : nf = nf' := by
  have hleaf : btcPoolNoteLeaf K asset inp.cx inp.cy inp.spendKey inp.nkPub =
      btcPoolNoteLeaf K asset' inp'.cx inp'.cy inp'.spendKey inp'.nkPub := by
    have hroots := h.member.trans h'.member.symm
    rw [hindex] at hroots
    exact (Merkle.rootFrom_inj (Keccak.k2_injective hK) (h.path.trans h'.path.symm) hroots).1
  have hparts := Keccak.kn_inj hK (by simp [asset.property, asset'.property, inp.cx.property, inp'.cx.property,
    inp.cy.property, inp'.cy.property, inp.spendKey.property, inp'.spendKey.property, inp.nkPub.property,
    inp'.nkPub.property]) hleaf
  obtain ⟨nk, hnk, hpub⟩ := h.key
  obtain ⟨nk', hnk', hpub'⟩ := h'.key
  have hkeys : octetBytes inp.nkPub.val = octetBytes inp'.nkPub.val := by
    simp only [List.cons.injEq, and_true] at hparts
    exact hparts.2.2.2.2
  have hpoint : nk.val • S.generator = nk'.val • S.generator := by
    refine hS.compress_injective ?_
    rw [hpub, hpub', hkeys]
  obtain rfl : nk = nk' := hS.generator_smul_inj hpoint
  have hnote : inp.nkNote = inp'.nkNote := scalarCanonicalBe_inj hnk hnk'
  apply octetWord_injective
  rw [← h.nullifier, ← h'.nullifier, hleaf, hnote, hindex]

/-- One nullifier, one position. -/
theorem Verified.index_eq (hK : Function.Injective K.hash) (h : Verified S K asset root inp nf)
    (h' : Verified S K asset' root inp' nf') (hnf : nf = nf') : inp.leafIndex = inp'.leafIndex := by
  have hhash := h.nullifier.trans ((congrArg octetWord hnf).trans h'.nullifier.symm)
  have hparts := Keccak.kn_inj hK (by simp [Word.len, inp.nkNote.property, inp'.nkNote.property]) hhash
  simp only [List.cons.injEq, and_true, true_and] at hparts
  exact Fin.ext (beBytes_inj inp.leafIndex.isLt inp'.leafIndex.isLt hparts.2.2)

end Positions

/-- What `verifyBtcPoolSpend` admits, read from its parsed body. -/
structure Accepted (S : Secp E) (K : Keccak) (w : BtcPoolSpendWitness) (body : BtcPoolSpendBody) : Prop where
  parsed : BtcPoolSpendBody.parse S w.body = .ok body
  count : w.inputs.length = body.nullifiers.length
  distinct : body.nullifiers.Nodup
  inputs : ∀ p ∈ w.inputs.zip body.nullifiers, Verified S K body.asset w.root p.1 p.2
  outputs : w.outputs.length = body.commitments.length
  opened : ∀ p ∈ body.commitments.zip w.outputs, opens S p.1.1 p.1.2 p.2.value p.2.blinding = true
  conserved : (w.inputs.map fun inp => inp.value.val).sum = (w.outputs.map fun op => op.value.val).sum

theorem verifyBtcPoolSpend_accepted {w : BtcPoolSpendWitness} {st : BtcPoolSpendStatement}
    (h : verifyBtcPoolSpend S K w = .ok st) : ∃ body, Accepted S K w body := by
  simp only [verifyBtcPoolSpend, except_bind_eq_ok, refuse_eq_ok, not_not, foldlM_sum_eq_ok, Nat.zero_add,
    Bool.not_eq_true, Bool.not_eq_false] at h
  obtain ⟨body, hparsed, _, hcount, _, hdistinct, sumIn, ⟨hinputs, rfl⟩, _, houtputs, sumOut, ⟨hopened, rfl⟩, _, hconserved, -⟩ := h
  have hlength : w.outputs.length = body.commitments.length := by
    rw [houtputs, BtcPoolSpendBody.commitments, List.length_append, List.length_map, List.length_map]
    cases body.exit <;> rfl
  refine ⟨body, hparsed, hcount, repeats_eq_false.1 hdistinct, fun p hp => verifyInput_verified (hinputs p hp), hlength,
    hopened, ?_⟩
  have hin : (w.inputs.zip body.nullifiers).map (fun p => p.1.value.val) = w.inputs.map fun inp => inp.value.val := by
    conv_rhs => rw [← List.map_fst_zip hcount.le, List.map_map]
    rfl
  have hout : (body.commitments.zip w.outputs).map (fun p => p.2.value.val) = w.outputs.map fun op => op.value.val := by
    conv_rhs => rw [← List.map_snd_zip hlength.le, List.map_map]
    rfl
  rw [← hin, ← hout]
  exact hconserved

section Values

/-- The commitment has an accepted opening to `v`. -/
def Opens (S : Secp E) (cx cy : Octets 32) (v : U 64) : Prop := ∃ r, opens S cx cy v r = true

/-- Of commitments with one value each, any two readings have the same values. -/
theorem forall₂_opens_unique {α : Type} {f : α → Octets 32 × Octets 32}
    (hbinding : ∀ cx cy v v', Opens S cx cy v → Opens S cx cy v' → v = v') {l : List α} {vs us : List (U 64)}
    (hvs : List.Forall₂ (fun a v => Opens S (f a).1 (f a).2 v) l vs) (hus : List.Forall₂ (fun a v => Opens S (f a).1 (f a).2 v) l us) :
    vs = us := by
  induction hvs generalizing us with
  | nil =>
    cases hus
    rfl
  | cons hv _ ih =>
    cases hus with
    | cons hu hus => rw [hbinding _ _ _ _ hv hu, ih hus]

end Values

namespace Accepted

variable {w w' : BtcPoolSpendWitness} {body body' : BtcPoolSpendBody} {inp inp' : BtcPoolSpendInput} {nf nf' : Octets 32} {i j : Nat}

theorem verified (h : Accepted S K w body) (hinp : w.inputs[i]? = some inp) (hnf : body.nullifiers[i]? = some nf) :
    Verified S K body.asset w.root inp nf := by
  have hzip : (w.inputs.zip body.nullifiers)[i]? = some (inp, nf) := List.getElem?_zip_eq_some.2 ⟨hinp, hnf⟩
  exact h.inputs _ (List.mem_of_getElem? hzip)

theorem index_iff (hS : S.Laws) (hK : Function.Injective K.hash) (h : Accepted S K w body) (h' : Accepted S K w' body')
    (hroot : w.root = w'.root) (hinp : w.inputs[i]? = some inp) (hnf : body.nullifiers[i]? = some nf)
    (hinp' : w'.inputs[j]? = some inp') (hnf' : body'.nullifiers[j]? = some nf') : inp.leafIndex = inp'.leafIndex ↔ nf = nf' := by
  have hv := h.verified hinp hnf
  have hv' := h'.verified hinp' hnf'
  rw [← hroot] at hv'
  exact ⟨hv.nullifier_eq hS hK hv', hv.index_eq hK hv'⟩

/-- An input has its nullifier in the body. -/
theorem exists_nullifier (h : Accepted S K w body) (hinp : w.inputs[i]? = some inp) : ∃ nf, body.nullifiers[i]? = some nf := by
  have hi : i < body.nullifiers.length := h.count ▸ (List.getElem?_eq_some_iff.1 hinp).1
  exact ⟨_, List.getElem?_eq_getElem hi⟩

theorem positions (hS : S.Laws) (hK : Function.Injective K.hash) (h : Accepted S K w body) :
    (w.inputs.map BtcPoolSpendInput.leafIndex).Nodup := by
  rw [List.nodup_iff_injective_getElem]
  rintro ⟨i, hi⟩ ⟨j, hj⟩ heq
  rw [List.length_map] at hi hj
  simp only [List.getElem_map] at heq
  obtain ⟨nf, hnf⟩ := h.exists_nullifier (List.getElem?_eq_getElem hi)
  obtain ⟨nf', hnf'⟩ := h.exists_nullifier (List.getElem?_eq_getElem hj)
  have hsame := (h.index_iff hS hK h rfl (List.getElem?_eq_getElem hi) hnf (List.getElem?_eq_getElem hj) hnf').1 heq
  exact Fin.ext ((List.getElem?_inj (h.count ▸ hi) h.distinct).1 (by rw [hnf, hnf', hsame]))

theorem inputs_open (h : Accepted S K w body) :
    List.Forall₂ (fun inp v => Opens S inp.cx inp.cy v) w.inputs (w.inputs.map BtcPoolSpendInput.value) := by
  rw [List.forall₂_map_right_iff, List.forall₂_same]
  intro inp hinp
  obtain ⟨i, hi⟩ := List.getElem?_of_mem hinp
  obtain ⟨nf, hnf⟩ := h.exists_nullifier hi
  exact ⟨inp.blinding, (h.verified hi hnf).opens⟩

theorem outputs_open (h : Accepted S K w body) :
    List.Forall₂ (fun c v => Opens S c.1 c.2 v) body.commitments (w.outputs.map BtcPoolOpening.value) := by
  rw [List.forall₂_map_right_iff, List.forall₂_iff_zip]
  exact ⟨h.outputs.symm, fun hp => ⟨_, h.opened _ hp⟩⟩

end Accepted

end

/-- **The spend relation.** Under one root a position has one nullifier, and a nullifier one position; the inputs of an accepted
witness sit at different positions of the tree and are worth what its outputs and its exit are worth; and a body is parsed
exactly when it is the encoding of a spend within the bounds. -/
theorem btc_pool_spend {E : Type} [AddCommGroup E] [DecidableEq E] {S : Secp E} {K : Keccak} (hS : S.Laws)
    (hK : Function.Injective K.hash) (hbinding : ∀ cx cy v v', Opens S cx cy v → Opens S cx cy v' → v = v') :
    (∀ w w' st st', verifyBtcPoolSpend S K w = .ok st → verifyBtcPoolSpend S K w' = .ok st' → w.root = w'.root →
      ∃ body body', BtcPoolSpendBody.parse S w.body = .ok body ∧ BtcPoolSpendBody.parse S w'.body = .ok body' ∧
        ∀ (i j : Nat) (inp inp' : BtcPoolSpendInput) nf nf', w.inputs[i]? = some inp → body.nullifiers[i]? = some nf →
          w'.inputs[j]? = some inp' → body'.nullifiers[j]? = some nf' → (inp.leafIndex = inp'.leafIndex ↔ nf = nf')) ∧
    (∀ w st, verifyBtcPoolSpend S K w = .ok st → ∃ body, BtcPoolSpendBody.parse S w.body = .ok body ∧
      w.inputs.length = body.nullifiers.length ∧ (w.inputs.map BtcPoolSpendInput.leafIndex).Nodup ∧
      (∀ inp ∈ w.inputs, inp.leafIndex.val < 2 ^ 32) ∧
      (∃ vs us, List.Forall₂ (fun inp v => Opens S inp.cx inp.cy v) w.inputs vs ∧
        List.Forall₂ (fun c v => Opens S c.1 c.2 v) body.commitments us) ∧
      ∀ vs us, List.Forall₂ (fun inp v => Opens S inp.cx inp.cy v) w.inputs vs →
        List.Forall₂ (fun c v => Opens S c.1 c.2 v) body.commitments us → (vs.map Fin.val).sum = (us.map Fin.val).sum) ∧
    (∀ x s, BtcPoolSpendBody.parse S x = .ok s → s.encode = x) ∧
    ∀ s : BtcPoolSpendBody, s.Valid S → BtcPoolSpendBody.parse S s.encode = .ok s := by
  refine ⟨fun w w' st st' hw hw' hroot => ?_, fun w st hw => ?_, fun x s hx => (parse_eq_ok.1 hx).2, fun s hs => parse_eq_ok.2 ⟨hs, rfl⟩⟩
  · obtain ⟨body, h⟩ := verifyBtcPoolSpend_accepted hw
    obtain ⟨body', h'⟩ := verifyBtcPoolSpend_accepted hw'
    exact ⟨body, body', h.parsed, h'.parsed, fun i j inp inp' nf nf' hi hnf hj hnf' => h.index_iff hS hK h' hroot hi hnf hj hnf'⟩
  · obtain ⟨body, h⟩ := verifyBtcPoolSpend_accepted hw
    refine ⟨body, h.parsed, h.count, h.positions hS hK, fun inp hinp => ?_, ⟨_, _, h.inputs_open, h.outputs_open⟩,
      fun vs us hvs hus => ?_⟩
    · obtain ⟨i, hi⟩ := List.getElem?_of_mem hinp
      obtain ⟨nf, hnf⟩ := h.exists_nullifier hi
      exact (h.verified hi hnf).index
    · rw [forall₂_opens_unique (f := fun inp : BtcPoolSpendInput => (inp.cx, inp.cy)) hbinding hvs h.inputs_open,
        forall₂_opens_unique (f := id) hbinding hus h.outputs_open, List.map_map, List.map_map]
      exact h.conserved

/-! ## An instance

A note of one unit, spent to another. The hash is injective and gives the nullifier's preimage a digest of bytes; the points are a
group in which `G` and `H` are independent. -/

abbrev DemoPoint := ZMod secpN × ZMod secpN

def demoCode (p : DemoPoint) : Nat := Nat.pair p.1.val p.2.val

theorem demoCode_injective : Function.Injective demoCode := by
  have : NeZero secpN := ⟨secpN_pos.ne'⟩
  intro p q h
  obtain ⟨h₁, h₂⟩ := Nat.pair_eq_pair.1 h
  exact Prod.ext (ZMod.val_injective _ h₁) (ZMod.val_injective _ h₂)

theorem demo_neg_ne {p : DemoPoint} (hp : p ≠ 0) : -p ≠ p := by
  intro h
  have hodd : Odd secpN := by decide
  have hsum : p + p = 0 := by
    nth_rewrite 1 [← h]
    exact neg_add_cancel p
  have h₁ : p.1 + p.1 = 0 := congrArg Prod.fst hsum
  have h₂ : p.2 + p.2 = 0 := congrArg Prod.snd hsum
  exact hp (Prod.ext ((ZMod.add_self_eq_zero_iff_eq_zero hodd).1 h₁) ((ZMod.add_self_eq_zero_iff_eq_zero hodd).1 h₂))

theorem headWord_length (n : Nat) : (n :: List.replicate 31 0).length = 32 := by simp

/-- A word with a number in its first byte, and one with it in its last. -/
def headWord (n : Nat) : Word := ⟨n :: List.replicate 31 0, headWord_length n⟩
def lastWord (n : Nat) : Word := ⟨List.replicate 31 0 ++ [n], by simp⟩

theorem lastWord_toNat (n : Nat) : (lastWord n).toNat = n := by
  rw [Word.toNat, lastWord, List.foldl_append, foldl_be_zeros]
  simp

def demoSecp : Secp DemoPoint where
  generator := (1, 0)
  genH := (0, 1)
  toAffine p := if p = 0 then none
    else some ⟨headWord (min (demoCode p) (demoCode (-p))), lastWord (if demoCode p ≤ demoCode (-p) then 2 else secpP - 2)⟩
  fromAffineXy x y := if x = genH.x ∧ y = genH.y then some (0, 1) else none
  decompress _ := some (1, 0)
  sha256 _ := 0

theorem demoSecp_toAffine {p : DemoPoint} {q : Point} (h : demoSecp.toAffine p = some q) : p ≠ 0 ∧
    q = ⟨headWord (min (demoCode p) (demoCode (-p))), lastWord (if demoCode p ≤ demoCode (-p) then 2 else secpP - 2)⟩ := by
  simp only [demoSecp] at h
  by_cases hp : p = 0
  · rw [if_pos hp] at h
    cases h
  · rw [if_neg hp] at h
    exact ⟨hp, (Option.some.inj h).symm⟩

theorem demoSecp_laws : demoSecp.Laws where
  order := by
    show addOrderOf ((1, 0) : DemoPoint) = secpN
    rw [Prod.addOrderOf_mk, addOrderOf_zero, ZMod.addOrderOf_one]
    exact Nat.lcm_one_right _
  infinity := by
    intro p h
    simp only [demoSecp] at h
    by_contra hp
    rw [if_neg hp] at h
    cases h
  same_x := by
    intro p p' q q' h h' hx
    obtain ⟨-, rfl⟩ := demoSecp_toAffine h
    obtain ⟨-, rfl⟩ := demoSecp_toAffine h'
    have hmin : min (demoCode p) (demoCode (-p)) = min (demoCode p') (demoCode (-p')) :=
      List.head_eq_of_cons_eq (congrArg Word.bytes hx)
    rcases min_choice (demoCode p) (demoCode (-p)) with hp | hp <;>
      rcases min_choice (demoCode p') (demoCode (-p')) with hp' | hp' <;> rw [hp, hp'] at hmin
    · exact .inl (demoCode_injective hmin).symm
    · exact .inr (neg_eq_iff_eq_neg.1 (demoCode_injective hmin).symm)
    · exact .inr (demoCode_injective hmin).symm
    · exact .inl (neg_injective (demoCode_injective hmin)).symm
  neg_y := by
    intro p q q' h h'
    obtain ⟨hp, rfl⟩ := demoSecp_toAffine h
    obtain ⟨-, rfl⟩ := demoSecp_toAffine h'
    have hne : demoCode p ≠ demoCode (-p) := fun heq => demo_neg_ne hp (demoCode_injective heq).symm
    have hbig : 2 ≤ secpP := by decide
    simp only [lastWord_toNat, neg_neg]
    rcases Nat.lt_or_gt_of_ne hne with hlt | hlt
    · rw [if_pos hlt.le, if_neg hlt.not_ge]
      omega
    · rw [if_neg hlt.not_ge, if_pos hlt.le]
      omega

theorem demo_generator : demoCode (1, 0) = 2 ∧ 2 ≤ demoCode (-(1, 0)) := by
  have hval : (1 : ZMod secpN).val = 1 ∧ 2 ≤ (-1 : ZMod secpN).val := by decide
  constructor
  · rw [demoCode, hval.1, ZMod.val_zero]
    rfl
  · exact hval.2.trans (Nat.left_le_pair _ _)

def demoNkPub : Octets 33 := ⟨2 :: 2 :: List.replicate 31 0, rfl⟩

theorem demoSecp_compress : demoSecp.compress demoSecp.generator = octetBytes demoNkPub.val := by
  have hne : ((1, 0) : DemoPoint) ≠ 0 := by decide
  have haffine : demoSecp.toAffine demoSecp.generator = some ⟨headWord 2, lastWord 2⟩ := by
    obtain ⟨hcode, hle⟩ := demo_generator
    simp only [demoSecp]
    rw [if_neg hne, hcode, min_eq_left hle, if_pos hle]
  rw [Secp.compress, haffine]
  rfl

theorem demoSecp_binding (cx cy : Octets 32) (v v' : U 64) (h : Opens demoSecp cx cy v) (h' : Opens demoSecp cx cy v') : v = v' := by
  have hvalue {v : U 64} (h : Opens demoSecp cx cy v) : (v.val : ZMod secpN) = 1 := by
    obtain ⟨r, hr⟩ := h
    simp only [opens, demoSecp] at hr
    by_cases hknown : octetWord cx = genH.x ∧ octetWord cy = genH.y
    · rw [if_pos hknown] at hr
      have hpoint : ((0, 1) : DemoPoint) = v.val • (0, 1) + (scalarReduceBe (octetWord r)).val • (1, 0) :=
        demoSecp.verifyPedersenOpening_iff.1 hr
      have hsnd := congrArg Prod.snd hpoint
      simpa using hsnd.symm
    · rw [if_neg hknown] at hr
      cases hr
  have hlt (v : U 64) : v.val < secpN := v.isLt.trans (by decide)
  have hcast := congrArg ZMod.val ((hvalue h).trans (hvalue h').symm)
  rw [ZMod.val_cast_of_lt (hlt v), ZMod.val_cast_of_lt (hlt v')] at hcast
  exact Fin.ext hcast

def demoZero (n : Nat) : Octets n := ⟨List.replicate n 0, List.length_replicate⟩
def demoOne : Octets 32 := ⟨List.replicate 31 0 ++ [1], rfl⟩
def demoCx : Octets 32 := ⟨genH.x.bytes.map UInt8.ofNat, by rw [List.length_map, genH.x.len]⟩
def demoCy : Octets 32 := ⟨genH.y.bytes.map UInt8.ofNat, by rw [List.length_map, genH.y.len]⟩

theorem demoCx_word : octetWord demoCx = genH.x := rfl
theorem demoCy_word : octetWord demoCy = genH.y := rfl

def demoLeafParts : List Bytes := [octetBytes (demoZero 32).val, octetBytes demoCx.val, octetBytes demoCy.val,
  octetBytes (demoZero 32).val, octetBytes demoNkPub.val, ascii "tacit-btc-pool-note-v1"]

def demoNullifierPreimage : Bytes := [ascii "tacit-btc-pool-nf-v1", (codeKeccak.kn demoLeafParts).bytes, octetBytes demoOne.val,
  beBytes 8 0].flatten

theorem demo_leaf (K : Keccak) : btcPoolNoteLeaf K (demoZero 32) demoCx demoCy (demoZero 32) demoNkPub = K.kn demoLeafParts := rfl

theorem demo_nullifier (K : Keccak) (leaf : Word) : btcPoolNullifier K leaf demoOne 0 =
    K.hash [ascii "tacit-btc-pool-nf-v1", leaf.bytes, octetBytes demoOne.val, beBytes 8 0].flatten := rfl

theorem demo_member (K : Keccak) (leaf : Word) : keccakMerkleVerify K leaf (0 : U 64).val (List.replicate 32 0)
    (Merkle.rootFrom K.k2 leaf 0 (List.replicate 32 0)) = true := keccakMerkleVerify_iff.2 ⟨List.length_replicate, rfl⟩

/-- An injective hash that has bytes for the nullifier. -/
def demoKeccak : Keccak := ⟨fun b => if b = demoNullifierPreimage then octetWord demoOne else codeKeccak.hash b⟩

theorem demoKeccak_apply (b : Bytes) :
    demoKeccak.hash b = if b = demoNullifierPreimage then octetWord demoOne else codeKeccak.hash b := rfl

theorem codeKeccak_ne_demoOne (b : Bytes) : codeKeccak.hash b ≠ octetWord demoOne := by
  intro h
  have hhead : Encodable.encode b + 1 = 0 := List.head_eq_of_cons_eq (congrArg Word.bytes h)
  cases hhead

theorem demoKeccak_injective : Function.Injective demoKeccak.hash := by
  intro a b h
  rw [demoKeccak_apply, demoKeccak_apply] at h
  by_cases ha : a = demoNullifierPreimage <;> by_cases hb : b = demoNullifierPreimage
  · rw [ha, hb]
  · rw [if_pos ha, if_neg hb] at h
    exact (codeKeccak_ne_demoOne b h.symm).elim
  · rw [if_neg ha, if_pos hb] at h
    exact (codeKeccak_ne_demoOne a h).elim
  · rw [if_neg ha, if_neg hb] at h
    exact codeKeccak_ideal.injective h

def demoBody : BtcPoolSpendBody where
  asset := demoZero 32
  hAnchor := 0
  bind := demoZero 36
  nullifiers := [demoOne]
  outputs := [⟨demoCx, demoCy, demoZero 32, demoNkPub, demoNkPub, demoZero 56⟩]
  exit := none
  want := none

def demoInput : BtcPoolSpendInput where
  cx := demoCx
  cy := demoCy
  value := 1
  blinding := demoZero 32
  spendKey := demoZero 32
  nkPub := demoNkPub
  nkNote := demoOne
  leafIndex := 0
  path := List.replicate 32 0
  sig := ⟨2 :: List.replicate 62 0 ++ [1], rfl⟩

def demoSpend (K : Keccak) : BtcPoolSpendWitness where
  body := demoBody.encode
  root := Merkle.rootFrom K.k2 (K.kn demoLeafParts) 0 (List.replicate 32 0)
  inputs := [demoInput]
  outputs := [⟨1, demoZero 32⟩]

theorem demoBody_valid : demoBody.Valid demoSecp where
  nullifiers := .inl rfl
  outputs := by
    refine ⟨by decide, ?_⟩
    intro o ho
    obtain rfl := List.mem_singleton.1 ho
    refine ⟨?_, rfl, ⟨.inl rfl, rfl⟩, ⟨.inl rfl, rfl⟩⟩
    rw [IsPoint, demoCx_word, demoCy_word]
    rfl
  exit := by rintro e ⟨⟩
  some_output := .inl (List.cons_ne_nil _ _)

theorem demo_opens : opens demoSecp demoCx demoCy 1 (demoZero 32) = true := by
  have hzero : (scalarReduceBe (octetWord (demoZero 32))).val = 0 := rfl
  have hpoint : ((0, 1) : DemoPoint) = (1 : U 64).val • (0, 1) + (scalarReduceBe (octetWord (demoZero 32))).val • (1, 0) := by
    rw [hzero, zero_nsmul, add_zero]
    exact (one_nsmul _).symm
  simp only [opens, demoSecp, demoCx_word, demoCy_word, and_self, if_true]
  exact demoSecp.verifyPedersenOpening_iff.2 hpoint

theorem demo_signature (msg : Word) : demoSecp.bip340Verify demoInput.sig msg demoInput.spendKey = true := by
  have hs : scalarCanonicalBe (Word.ofBytes (octetBytes (demoInput.sig.val.drop 32))) = some ⟨1, by decide⟩ := rfl
  have he : scalarReduceBe (0 : Word) = ⟨0, secpN_pos⟩ := rfl
  have hr : 1 • demoSecp.generator - 0 • ((1, 0) : DemoPoint) = demoSecp.generator := by
    rw [one_nsmul, zero_nsmul, sub_zero]
  have hne : demoSecp.generator ≠ 0 := by decide
  have hbytes : octetBytes demoNkPub.val = 2 :: octetBytes (demoInput.sig.val.take 32) := rfl
  have hdecompress (b : Bytes) : demoSecp.decompress b = some (1, 0) := rfl
  have htagged (b : Bytes) : demoSecp.bip340Tagged "BIP0340/challenge" b = 0 := rfl
  simp only [Secp.bip340Verify, hs, hdecompress, htagged, he, hr, if_neg hne, demoSecp_compress, hbytes, beq_self_eq_true]

theorem demoKeccak_leaf : demoKeccak.kn demoLeafParts = codeKeccak.kn demoLeafParts := by
  have hleaf : demoLeafParts.flatten.length = 183 := rfl
  have htag : (ascii "tacit-btc-pool-nf-v1").length = 20 := rfl
  have hpreimage : demoNullifierPreimage.length = 92 := by
    simp only [demoNullifierPreimage, List.flatten_cons, List.flatten_nil, List.length_append, List.length_nil, htag, Word.len,
      octetBytes_length, demoOne.property, beBytes_length]
  have hlength : demoLeafParts.flatten ≠ demoNullifierPreimage := by
    intro h
    have hl := congrArg List.length h
    omega
  rw [Keccak.kn, demoKeccak_apply, if_neg hlength, Keccak.kn]

theorem demoKeccak_nullifier :
    btcPoolNullifier demoKeccak (demoKeccak.kn demoLeafParts) demoOne 0 = octetWord demoOne := by
  rw [demo_nullifier, demoKeccak_leaf, demoKeccak_apply]
  exact if_pos rfl

theorem demo_verifies {K : Keccak} (hnullifier : btcPoolNullifier K (K.kn demoLeafParts) demoOne 0 = octetWord demoOne) :
    verifyBtcPoolSpend demoSecp K (demoSpend K) = .ok ⟨(demoSpend K).root, K.kn [octetBytes (demoSpend K).body]⟩ := by
  have hparse : BtcPoolSpendBody.parse demoSecp (demoSpend K).body = .ok demoBody := parse_eq_ok.2 ⟨demoBody_valid, rfl⟩
  have hscalar : scalarCanonicalBe (octetWord demoOne) = some ⟨1, by decide⟩ := rfl
  have hinput (msg : Word) : verifyInput demoSecp K demoBody.asset msg (demoSpend K).root demoInput demoOne = .ok () := by
    simp only [verifyInput, except_bind_eq_ok, refuse_eq_ok, need_eq_ok]
    have hopens : opens demoSecp demoInput.cx demoInput.cy demoInput.value demoInput.blinding = true := demo_opens
    have hpoint : 1 • demoSecp.generator = demoSecp.generator := one_nsmul _
    refine ⟨(), by simp [hopens], (), by decide, (), ?_, _, hscalar, (), by decide, (), ?_, (), ?_, ?_⟩
    · rw [Bool.not_eq_false]
      exact demo_member K _
    · rw [hpoint, not_not]
      exact demoSecp_compress
    · exact not_not.2 hnullifier
    · rw [Bool.not_eq_false]
      exact demo_signature msg
  simp only [verifyBtcPoolSpend, except_bind_eq_ok, refuse_eq_ok, except_pure_eq_ok, foldlM_sum_eq_ok]
  refine ⟨demoBody, hparse, (), not_not.2 rfl, (), by decide, _, ⟨?_, rfl⟩, (), not_not.2 rfl, _, ⟨?_, rfl⟩, (), not_not.2 rfl, trivial⟩
  · intro p hp
    obtain rfl := List.mem_singleton.1 hp
    exact hinput _
  · intro p hp
    obtain rfl := List.mem_singleton.1 hp
    rw [Bool.not_eq_false]
    exact demo_opens

/-- A note of one unit, spent to another. -/
theorem btc_pool_spend_demo : ((demoSpend demoKeccak).inputs.map BtcPoolSpendInput.leafIndex).Nodup ∧
    BtcPoolSpendBody.parse demoSecp demoBody.encode = .ok demoBody := by
  obtain ⟨-, haccepted, -, hcodec⟩ := btc_pool_spend demoSecp_laws demoKeccak_injective demoSecp_binding
  obtain ⟨body, -, -, hpositions, -⟩ := haccepted (demoSpend demoKeccak) _ (demo_verifies demoKeccak_nullifier)
  exact ⟨hpositions, hcodec demoBody demoBody_valid⟩

end BtcPool

end Tacit
