import Mathlib.Logic.Equiv.List
import Tacit.EvmPool.Poseidon
import Mathlib.Tactic.Linarith
/-!
# The pool's relation (dapp/circuits/evm-pool/transact.circom)

A signal is the natural number that represents it, a template's constraints are facts about the signals it takes, and
`Satisfies` lists those of `EvmPoolTransact(32, 2, 2, 120)`. What comes from circomlib is a parameter (`Gadgets`). An input
or an output slot is empty when its nullifier or its leaf is zero.
-/
namespace Tacit

namespace EvmPool

/-- The BN254 scalar field. -/
def P : Nat := 21888242871839275222246405745257275088548364400416034343698204186575808495617

/-- The prime order `l` of the subgroup of BabyJubJub. -/
def bjjOrder : Nat := 2736030358979909402780800718157159386076813972158567259200215660948447373041

/-- Poseidon, `EscalarMulFix` at Base8 and `EdDSAPoseidonVerifier`. -/
structure Gadgets where
  poseidon : Poseidon
  mulBase8 : Nat → Nat × Nat
  eddsaVerifies : (key r8 : Nat × Nat) → (s msg : Nat) → Prop

/-- Base8 has order `l`: a canonical scalar is determined by its point. -/
structure Gadgets.Ideal (G : Gadgets) : Prop where
  poseidon : G.poseidon.Ideal
  mulBase8 : ∀ k < bjjOrder, ∀ k' < bjjOrder, G.mulBase8 k = G.mulBase8 k' → k = k'

/-- The public inputs, in the verifier's order. -/
structure PublicInputs where
  root : Nat
  oldRoot : Nat
  newRoot : Nat
  startIndex : Nat
  publicAmount : Nat
  extDataHash : Nat
  asset : Nat
  nf0 : Nat
  nf1 : Nat
  outLeaf0 : Nat
  outLeaf1 : Nat
deriving DecidableEq

/-- Whether a call with these inputs inserts its pair. -/
def PublicInputs.inserts (p : PublicInputs) : Bool := p.outLeaf0 ≠ 0 ∨ p.outLeaf1 ≠ 0

structure Input where
  v : Nat
  rho : Nat
  nk : Nat
  ak : Nat × Nat
  index : Nat
  path : List Nat
  sigR8 : Nat × Nat
  sigS : Nat

structure Output where
  v : Nat
  npk : Nat
  rho : Nat

/-- The private signals; `s` is the insertion's position on the level above the leaves. -/
structure Witness where
  in0 : Input
  in1 : Input
  out0 : Output
  out1 : Output
  s : Nat
  insPath : List Nat

section
variable (G : Gadgets)

/-- `Poseidon(2)`. -/
def node (left right : Nat) : Nat := G.poseidon.hash [left, right]

/-- `EMPTY_PAIR()`. -/
def emptyPair : Nat := node G 0 0

/-- `NoteLeaf`. -/
def noteLeaf (asset v npk rho : Nat) : Nat := G.poseidon.hash [asset, v, npk, rho]

/-- A note's owner: the hash of its spend key and its nullifier key. -/
def ownerKey (ak : Nat × Nat) (nk : Nat) : Nat := G.poseidon.hash [ak.1, ak.2, (G.mulBase8 nk).1, (G.mulBase8 nk).2]

def nullifierOf (nk leaf index : Nat) : Nat := G.poseidon.hash [nk, leaf, index]

/-- The signed message. -/
def PublicInputs.msg (p : PublicInputs) : Nat :=
  G.poseidon.hash [p.asset, p.nf0, p.nf1, p.outLeaf0, p.outLeaf1, p.publicAmount, p.extDataHash]

/-- The leaf an input slot spends. -/
def Input.leaf (asset : Nat) (i : Input) : Nat := noteLeaf G asset i.v (ownerKey G i.ak i.nk) i.rho

/-- The constraints of an input slot with nullifier `nf`. -/
structure Input.Satisfies (p : PublicInputs) (nf : Nat) (i : Input) : Prop where
  range : i.v < 2 ^ 120
  empty : nf = 0 → i.v = 0
  key : i.nk < bjjOrder
  index : i.index < 2 ^ 32
  path : i.path.length = 32
  member : i.v ≠ 0 → Merkle.rootFrom (node G) (i.leaf G p.asset) i.index i.path = p.root
  nullifier : nf ≠ 0 → nullifierOf G i.nk (i.leaf G p.asset) i.index = nf
  signed : nf ≠ 0 → G.eddsaVerifies i.ak i.sigR8 i.sigS (p.msg G)

/-- The constraints of an output slot with leaf `l`. -/
structure Output.Satisfies (p : PublicInputs) (l : Nat) (o : Output) : Prop where
  range : o.v < 2 ^ 120
  empty : l = 0 → o.v = 0
  opens : l ≠ 0 → noteLeaf G p.asset o.v o.npk o.rho = l

/-- The constraints of the insertion: one path from the empty pair to `oldRoot` and from the new pair to `newRoot`. -/
structure Witness.Inserts (p : PublicInputs) (w : Witness) : Prop where
  start : 2 * w.s % P = p.startIndex % P
  range : w.s < 2 ^ 31
  path : w.insPath.length = 31
  before : p.inserts → Merkle.rootFrom (node G) (emptyPair G) w.s w.insPath = p.oldRoot
  after : p.inserts → Merkle.rootFrom (node G) (node G p.outLeaf0 p.outLeaf1) w.s w.insPath = p.newRoot
  kept : ¬ p.inserts → p.newRoot = p.oldRoot

/-- **`EvmPoolTransact`.** -/
structure Witness.Satisfies (p : PublicInputs) (w : Witness) : Prop where
  in0 : w.in0.Satisfies G p p.nf0
  in1 : w.in1.Satisfies G p p.nf1
  out0 : w.out0.Satisfies G p p.outLeaf0
  out1 : w.out1.Satisfies G p p.outLeaf1
  sum : (p.publicAmount + w.in0.v + w.in1.v) % P = (w.out0.v + w.out1.v) % P
  insertion : w.Inserts G p

end

variable {G : Gadgets} {p : PublicInputs} {w : Witness}

theorem inserts_iff : p.inserts = true ↔ p.outLeaf0 ≠ 0 ∨ p.outLeaf1 ≠ 0 := by
  simp [PublicInputs.inserts]

theorem node_injective (hG : G.Ideal) : Function.Injective2 (node G) := by
  intro a b c d h
  unfold node at h
  simpa using hG.poseidon.injective (by simp) h

theorem noteLeaf_injective (hG : G.Ideal) {a v k r a' v' k' r' : Nat} (h : noteLeaf G a v k r = noteLeaf G a' v' k' r') :
    a = a' ∧ v = v' ∧ k = k' ∧ r = r' := by
  unfold noteLeaf at h
  simpa using hG.poseidon.injective (by simp) h

theorem ownerKey_injective (hG : G.Ideal) {ak ak' : Nat × Nat} {nk nk' : Nat} (hk : nk < bjjOrder) (hk' : nk' < bjjOrder)
    (h : ownerKey G ak nk = ownerKey G ak' nk') : ak = ak' ∧ nk = nk' := by
  unfold ownerKey at h
  have heq := hG.poseidon.injective (by simp) h
  simp only [List.cons.injEq, and_true] at heq
  obtain ⟨hx, hy, hX, hY⟩ := heq
  exact ⟨Prod.ext hx hy, hG.mulBase8 nk hk nk' hk' (Prod.ext hX hY)⟩

theorem nullifierOf_injective (hG : G.Ideal) {k l i k' l' i' : Nat} (h : nullifierOf G k l i = nullifierOf G k' l' i') :
    k = k' ∧ l = l' ∧ i = i' := by
  unfold nullifierOf at h
  simpa using hG.poseidon.injective (by simp) h

theorem noteLeaf_ne_zero (hG : G.Ideal) (a v k r : Nat) : noteLeaf G a v k r ≠ 0 := hG.poseidon.nonzero _

/-- The insertion is at the pair the start index names. -/
theorem Witness.Inserts.s_eq (h : w.Inserts G p) {n : Nat} (hstart : p.startIndex = 2 * n) (hn : n < 2 ^ 31) : w.s = n := by
  have hmod := h.start
  have hP : 2 ^ 32 < P := by decide
  have hs := h.range
  rw [hstart, Nat.mod_eq_of_lt (by omega), Nat.mod_eq_of_lt (by omega)] at hmod
  omega

/-- An ideal Poseidon, the code of its inputs, and a curve whose points are scalars. -/
def codeGadgets : Gadgets := ⟨⟨id, fun l => Encodable.encode l + 1⟩, fun k => (k, 0), fun _ _ _ _ => True⟩

theorem codeGadgets_ideal : codeGadgets.Ideal where
  poseidon := ⟨fun _ h => Encodable.encode_injective (Nat.succ.inj h), fun _ => Nat.succ_ne_zero _, fun _ => rfl, rfl⟩
  mulBase8 _ _ _ _ h := congrArg Prod.fst h

end EvmPool

end Tacit
