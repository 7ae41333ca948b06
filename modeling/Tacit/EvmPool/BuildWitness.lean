import Tacit.EvmPool.Circuit
import Tacit.EvmPool.WalletSound
/-!
# The wallet's witness (dapp/evm-pool-zk.js:49-236)

`buildWitness` as the wallet calls it, over its tree or the plain list of leaves. A BigInt that must not be negative is a natural
number, a random one is the slot's. The insertion path goes from the empty pair at the next slot to the root, so the circuit's two
folds along it meet `insert`, and with it the root of the tree that has the outputs.
-/
namespace Tacit

namespace EvmPool

namespace Wallet

open Prog Merkle

def EVM_N_IN : Nat := 2
def EVM_N_OUT : Nat := 2
def VMAX : Int := 2 ^ 120

/-- The signature of a message under a key (dapp/btc-pool-zk.js:210). -/
abbrev Signer := (sk : Nat) → (msg : Nat) → Except String ((Nat × Nat) × Nat)

/-- An input; a dummy has drawn its random numbers. -/
inductive Slot
  | note (v : Int) (rho nk sk index : Nat)
  | dummy (skSeed nkSeed rhoSeed index : Nat)
  | empty

structure NewNote where
  v : Int
  npk : Nat
  rho : Nat

structure Request where
  asset : Nat
  inputs : List Slot
  outputs : List (Option NewNote)
  extAmount : Int
  fee : Int
  extDataHash : Nat

/-- The leaves, or a tree that holds them. -/
inductive Given
  | leaves (l : List Nat)
  | tree (t : IncTree)

/-- What `buildWitness` makes of an input. -/
structure Prepared where
  v : Int
  rho : Nat
  nk : Nat
  sk : Nat
  index : Nat
  path : Path
  nf : Nat

structure PreparedOutput where
  v : Nat
  npk : Nat
  rho : Nat
  leaf : Nat

/-- `publicAmount` (:49). -/
def publicAmount (extAmount fee : Int) : Nat := ((extAmount - fee) % P).toNat

section

variable (G : Gadgets)

def Given.size : Given → Nat
  | .leaves l => l.length
  | .tree t => t.size

def Given.root : Given → Nat
  | .leaves l => (Wallet.tree (node G) l).root
  | .tree t => t.root

def Given.path : Given → Nat → Except String Path
  | .leaves l => (Wallet.tree (node G) l).path (node G)
  | .tree t => t.path

def Given.siblings (level : Nat) (index : Int) : Given → Except String Path
  | .leaves l => .ok ((Wallet.tree (node G) l).siblings (node G) level index)
  | .tree t => t.siblings (node G) level index

/-- `checkV` (:60). -/
def checkV (v : Int) (name : String) : Except String Nat := do
  refuse (v < 0 ∨ VMAX ≤ v) ("evm-pool-zk: " ++ name ++ " must be < 2^120")
  return v.toNat

/-- `leafOf` (:65). -/
def leafOf (asset : Nat) (v : Int) (npk rho : Nat) : Except String Nat := do
  let v ← checkV v "v"
  return noteLeaf G asset v npk rho

/-- `nullifier` (dapp/btc-pool-zk.js:162). -/
def nullifier (nk leaf index : Nat) : Except String Nat := do
  refuse (bjjOrder ≤ nk) "btc-pool-zk: nk_note must be canonical"
  refuse (2 ^ 32 ≤ index) "btc-pool-zk: index must be < 2^32"
  return nullifierOf G nk leaf index

/-- `rootFromPath` (dapp/btc-pool-zk.js:200). -/
def rootFromPath (leaf index : Nat) (path : Path) : Option Nat :=
  (List.range EVM_TREE_DEPTH).foldl (foldLevel (node G) index path) (some leaf)

/-- Whether a note is the leaf at its index (:203). -/
def isLeafAt (leaf index : Nat) (path : Path) : Given → Except String Bool
  | .leaves l => .ok (l[index]? = some leaf)
  | .tree t => do
    let root ← need (rootFromPath G leaf index path) "Cannot convert undefined to a BigInt"
    return root = t.root

/-- An input (:190). -/
def prepare (asset : Nat) (given : Given) : Slot → Except String Prepared
  | .empty => .ok ⟨0, 0, 1, 1, 0, List.replicate EVM_TREE_DEPTH (some 0), 0⟩
  | .dummy skSeed nkSeed rhoSeed index => do
    let sk := 1 + skSeed % (bjjOrder - 1)
    let nk := 1 + nkSeed % (bjjOrder - 1)
    let rho := rhoSeed % P
    let leaf ← leafOf G asset 0 (ownerKey G (G.mulBase8 sk) nk) rho
    let nf ← nullifier G nk leaf index
    return ⟨0, rho, nk, sk, index, List.replicate EVM_TREE_DEPTH (some 0), nf⟩
  | .note v rho nk sk index => do
    let leaf ← leafOf G asset v (ownerKey G (G.mulBase8 sk) nk) rho
    let path ← given.path G index
    let there ← isLeafAt G leaf index path given
    refuse (there = false) "evm-pool-zk: input is not the leaf at its index"
    let nf ← nullifier G nk leaf index
    return ⟨v, rho, nk, sk, index, path, nf⟩

/-- An output (:208). -/
def prepareOutput (asset : Nat) : Option NewNote → Except String PreparedOutput
  | none => .ok ⟨0, 0, 0, 0⟩
  | some o => do
    let v ← checkV o.v "out.v"
    let leaf ← leafOf G asset o.v o.npk o.rho
    return ⟨v, o.npk, o.rho, leaf⟩

/-- What is written into the prover's input: `stringify` throws at an absent element (:241). -/
def present (path : Path) : Except String (List Nat) := need (path.mapM id) "Cannot convert undefined to a BigInt"

/-- An input's signals. -/
def inputSignals (x : Prepared) (sig : (Nat × Nat) × Nat) : Except String Input := do
  let path ← present x.path
  return ⟨x.v.toNat, x.rho, x.nk, G.mulBase8 x.sk, x.index, path, sig.1, sig.2⟩

/-- The pair of a list of two. -/
def both {α : Type} : List α → Except String (α × α)
  | [a, b] => .ok (a, b)
  | _ => .error "evm-pool-zk: arity"

/-- `buildWitness` (:184). -/
def buildWitness (sign : Signer) (r : Request) (given : Given) : Except String (PublicInputs × Witness) := do
  let slots ← both r.inputs
  let notes ← both r.outputs
  refuse (given.size % 2 ≠ 0) "evm-pool-zk: pool size must be even"
  let pa := publicAmount r.extAmount r.fee
  let in0 ← prepare G r.asset given slots.1
  let in1 ← prepare G r.asset given slots.2
  let out0 ← prepareOutput G r.asset notes.1
  let out1 ← prepareOutput G r.asset notes.2
  refuse (in0.v + in1.v + r.extAmount - r.fee ≠ out0.v + out1.v) "evm-pool-zk: value not conserved"
  refuse (in0.nf ≠ 0 ∧ in0.nf = in1.nf) "evm-pool-zk: duplicate nullifier"
  let msg := G.poseidon.hash [r.asset, in0.nf, in1.nf, out0.leaf, out1.leaf, pa, r.extDataHash]
  let sig0 ← sign in0.sk msg
  let sig1 ← sign in1.sk msg
  let insPath ← given.siblings G 1 (shrOne given.size)
  let newRoot ← need (insert (node G) (out0.leaf, out1.leaf) given.size insPath) "Cannot convert undefined to a BigInt"
  let i0 ← inputSignals G in0 sig0
  let i1 ← inputSignals G in1 sig1
  let insPath ← present insPath
  return (⟨given.root G, given.root G, newRoot, given.size, pa, r.extDataHash, r.asset, in0.nf, in1.nf, out0.leaf, out1.leaf⟩,
    ⟨i0, i1, ⟨out0.v, out0.npk, out0.rho⟩, ⟨out1.v, out1.npk, out1.rho⟩, given.size / 2, insPath⟩)

/-! ## The insertion constraints -/

/-- What the call was handed holds these leaves. -/
def Given.Holds (l : List Nat) : Given → Prop
  | .leaves l' => l' = l
  | .tree t => Represents (node G) l t

end

section

variable {G : Gadgets} {l : List Nat} {given : Given} {p p' : PublicInputs} {w w' : Witness}

theorem Given.Holds.size_eq (h : given.Holds G l) : given.size = l.length := by
  match given, h with
  | .leaves _, rfl => rfl
  | .tree _, h => exact h.size

theorem Given.Holds.root_eq (h : given.Holds G l) (hlen : l.length < 2 ^ 31) : given.root G = (Wallet.tree (node G) l).root := by
  match given, h with
  | .leaves _, rfl => rfl
  | .tree _, h =>
    have hroot := tree_root (H := node G) (l := l) (Nat.le_trans hlen.le (by decide))
    exact h.root.trans hroot.symm

theorem Given.Holds.siblings_eq (h : given.Holds G l) (hlen : l.length < 2 ^ 31) :
    given.siblings G 1 (shrOne given.size) = .ok (pathFrom (node G) l 1 l.length) := by
  match given, h with
  | .leaves _, rfl => exact congrArg Except.ok (tree_siblings_next hlen)
  | .tree _, h => exact Represents.siblings_eq h

theorem present_map (q : List Nat) : present (q.map some) = .ok q := by
  have hall : (q.map some).mapM id = some q := by
    induction q with
    | nil => rfl
    | cons a q ih =>
      rw [List.map_cons, List.mapM_cons, ih]
      rfl
  rw [present, hall]
  rfl

/-- What every accepted call has put together: the roots, the place, and the path of the next pair slot. -/
theorem buildWitness_ok (hlen : l.length < 2 ^ 31) (hgiven : given.Holds G l) {sign : Signer} {r : Request}
    (h : buildWitness G sign r given = .ok (p, w)) : l.length % 2 = 0 ∧ p.oldRoot = (Wallet.tree (node G) l).root ∧
    p.newRoot = (Wallet.tree (node G) (l ++ [p.outLeaf0, p.outLeaf1])).root ∧ p.startIndex = l.length ∧
    w.s = l.length / 2 ∧ w.insPath = insertionPath (node G) l := by
  simp only [buildWitness, except_bind_eq_ok, refuse_eq_ok, need_eq_ok, except_pure_eq_ok, Prod.mk.injEq] at h
  obtain ⟨_, -, _, -, _, hsize, in0, -, in1, -, out0, -, out1, -, _, -, _, -, sig0, -, sig1, -, insPath, hins, newRoot, hnew,
    i0, -, i1, -, path, hpath, rfl, rfl⟩ := h
  rw [hgiven.siblings_eq hlen, Except.ok.injEq] at hins
  subst hins
  have heven : l.length % 2 = 0 := by
    rw [hgiven.size_eq] at hsize
    omega
  rw [hgiven.size_eq, insert_eq hlen heven, Option.some.injEq] at hnew
  rw [pathFrom_next, present_map, Except.ok.injEq] at hpath
  refine ⟨heven, hgiven.root_eq hlen, hnew.symm, hgiven.size_eq, ?_, hpath.symm⟩
  rw [hgiven.size_eq]

/-- **The insertion constraints hold** of what an accepted call returns. -/
theorem buildWitness_inserts (hlen : l.length < 2 ^ 31) (hgiven : given.Holds G l) {sign : Signer} {r : Request}
    (h : buildWitness G sign r given = .ok (p, w)) : w.Inserts G p := by
  obtain ⟨heven, hold, hnew, hstart, hs, hpath⟩ := buildWitness_ok hlen hgiven h
  refine ⟨?_, ?_, ?_, fun _ => ?_, fun _ => ?_, fun hnone => ?_⟩
  · rw [hs, hstart, Nat.mul_div_cancel' (Nat.dvd_of_mod_eq_zero heven)]
  · rw [hs]
    omega
  · rw [hpath]
    exact insertionPath_length
  · rw [hs, hpath, hold, emptyPair, rootFrom_insertionPath hlen heven, tree_root_empty_pair hlen]
  · rw [hs, hpath, hnew, rootFrom_insertionPath hlen heven]
  · have hzero : p.outLeaf0 = 0 ∧ p.outLeaf1 = 0 := by
      rw [inserts_iff, not_or, not_not, not_not] at hnone
      exact hnone
    rw [hnew, hold, hzero.1, hzero.2, tree_root_empty_pair hlen]

/-- A deposit is accepted by every tree of an even size. -/
theorem buildWitness_deposits (hlen : l.length < 2 ^ 31) (heven : l.length % 2 = 0) (hgiven : given.Holds G l) {sign : Signer}
    (hsign : ∀ sk msg, ∃ sig, sign sk msg = .ok sig) {r : Request} {o : NewNote} (hin : r.inputs = [.empty, .empty])
    (hout : r.outputs = [some o, none]) (hv : 0 ≤ o.v ∧ o.v < VMAX) (hsum : r.extAmount - r.fee = o.v) :
    ∃ p w, buildWitness G sign r given = .ok (p, w) := by
  have hrange : ¬(o.v < 0 ∨ VMAX ≤ o.v) := by omega
  have hnat : (o.v.toNat : Int) = o.v := Int.toNat_of_nonneg hv.1
  have hpath : present (List.replicate EVM_TREE_DEPTH (some 0)) = .ok (List.replicate EVM_TREE_DEPTH 0) := by
    rw [← present_map, List.map_replicate]
  choose sig hsig using hsign
  have hcheck : ∀ name, checkV o.v name = .ok o.v.toNat := fun name => by
    rw [checkV, refuse, if_neg hrange]
    rfl
  have hnote : prepareOutput G r.asset (some o) = .ok ⟨o.v.toNat, o.npk, o.rho, noteLeaf G r.asset o.v.toNat o.npk o.rho⟩ := by
    rw [prepareOutput, leafOf, hcheck, hcheck]
    rfl
  have hempty : ∀ sig, inputSignals G ⟨0, 0, 1, 1, 0, List.replicate EVM_TREE_DEPTH (some 0), 0⟩ sig =
      .ok ⟨0, 0, 1, G.mulBase8 1, 0, List.replicate EVM_TREE_DEPTH 0, sig.1, sig.2⟩ := fun sig => by
    rw [inputSignals, hpath]
    rfl
  have hins := insert_eq (H := node G) hlen heven (noteLeaf G r.asset o.v.toNat o.npk o.rho, 0)
  have hsize : ¬given.size % 2 ≠ 0 := by rw [hgiven.size_eq]; omega
  have hbalance : ¬((0 : Int) + 0 + r.extAmount - r.fee ≠ (o.v.toNat : Int) + (0 : Nat)) := by
    rw [hnat]
    simp
    omega
  suffices h : ∃ x, buildWitness G sign r given = .ok x from ⟨h.choose.1, h.choose.2, h.choose_spec⟩
  simp only [buildWitness, except_bind_eq_ok, refuse_eq_ok, need_eq_ok, except_pure_eq_ok]
  refine ⟨_, (.empty, .empty), by rw [hin]; rfl, (some o, none), by rw [hout]; rfl, (), hsize, _, rfl, _, rfl, _, hnote, _, rfl,
    (), hbalance, (), by simp, _, hsig _ _, _, hsig _ _, _, hgiven.siblings_eq hlen, _, by rw [hgiven.size_eq]; exact hins, _,
    hempty _, _, hempty _, _, by rw [pathFrom_next]; exact present_map _, rfl⟩

/-- **The insertion constraints force the new root**: of two witnesses over one old root, place and pair, both have the same. -/
theorem Inserts.newRoot_eq (hG : G.Ideal) (h : w.Inserts G p) (h' : w'.Inserts G p') {n : Nat} (hn : n < 2 ^ 31)
    (hstart : p.startIndex = 2 * n) (hstart' : p'.startIndex = p.startIndex) (hold : p'.oldRoot = p.oldRoot)
    (h0 : p'.outLeaf0 = p.outLeaf0) (h1 : p'.outLeaf1 = p.outLeaf1) : p'.newRoot = p.newRoot := by
  have hiff : p'.inserts = p.inserts := by rw [PublicInputs.inserts, PublicInputs.inserts, h0, h1]
  by_cases hins : p.inserts = true
  · have hins' : p'.inserts = true := hiff.trans hins
    have hbefore := h'.before hins'
    rw [hold, ← h.before hins, h'.s_eq (hstart'.trans hstart) hn, h.s_eq hstart hn] at hbefore
    obtain ⟨-, hpath⟩ := rootFrom_inj (node_injective hG) (h'.path.trans h.path.symm) hbefore
    rw [← h'.after hins', ← h.after hins, h'.s_eq (hstart'.trans hstart) hn, h.s_eq hstart hn, h0, h1, hpath]
  · have hins' : ¬p'.inserts = true := by rwa [hiff]
    rw [h'.kept hins', h.kept hins, hold]

/-- **The incremental wallet tree is the plain one**, over every run of appends, untracking and round trips, and what `insert` and
`buildWitness` make of it is the root that the insertion constraints force. -/
theorem incTree_eq_tree (G : Gadgets) (steps : List Step) (htracks : Tracks 0 steps) (hlen : (leavesOf steps).length < 2 ^ 31) :
    ∃ t₀ t, incTree (node G) none = some t₀ ∧ forEach steps (Step.run (node G)) t₀ = .ok () t ∧
      t.size = (leavesOf steps).length ∧ t.root = (Wallet.tree (node G) (leavesOf steps)).root ∧
      (∀ i, t.has i = true ↔ trackedAfter steps (fun _ => False) i) ∧
      (∀ i, t.has i = true → ∃ p, t.path i = .ok p ∧ (Wallet.tree (node G) (leavesOf steps)).path (node G) i = .ok p) ∧
      (t.size % 2 = 0 → ∃ p, t.siblings (node G) 1 (shrOne t.size) = .ok p ∧
        (Wallet.tree (node G) (leavesOf steps)).siblings (node G) 1 (shrOne t.size) = p ∧
        ∀ pair, insert (node G) pair t.size p = some (Wallet.tree (node G) (leavesOf steps ++ [pair.1, pair.2])).root) ∧
      ∀ given ∈ [Given.tree t, .leaves (leavesOf steps)], ∀ sign r p w, buildWitness G sign r given = .ok (p, w) →
        w.Inserts G p ∧ p.newRoot = (Wallet.tree (node G) (leavesOf steps ++ [p.outLeaf0, p.outLeaf1])).root ∧
        (G.Ideal → ∀ (p' : PublicInputs) (w' : Witness), w'.Inserts G p' → p'.oldRoot = p.oldRoot → p'.startIndex = p.startIndex →
          p'.outLeaf0 = p.outLeaf0 → p'.outLeaf1 = p.outLeaf1 → p'.newRoot = p.newRoot) := by
  obtain ⟨t₀, ht₀⟩ : ∃ t₀, incTree (node G) none = some t₀ := ⟨_, rfl⟩
  obtain ⟨hempty, hnone⟩ := empty_represents ht₀
  obtain ⟨t, hrun, ht, hhas⟩ := run_represents steps (fun _ => False) hempty (fun i => by simp [hnone i]) htracks
    (by rwa [List.nil_append])
  rw [List.nil_append] at ht
  have hholds : (Given.tree t).Holds G (leavesOf steps) := ht
  refine ⟨t₀, t, ht₀, hrun, ht.size, hholds.root_eq hlen, hhas, fun i hi => ht.path_eq hlen hi, fun heven => ?_, ?_⟩
  · rw [ht.size] at heven ⊢
    have hsiblings := ht.siblings_eq
    rw [ht.size] at hsiblings
    exact ⟨_, hsiblings, tree_siblings_next hlen, fun pair => insert_eq hlen heven pair⟩
  · intro given hmem sign r p w h
    have hgiven : given.Holds G (leavesOf steps) := by
      simp only [List.mem_cons, List.not_mem_nil, or_false] at hmem
      rcases hmem with rfl | rfl
      · exact ht
      · rfl
    obtain ⟨heven, -, hnew, hstart, -, -⟩ := buildWitness_ok hlen hgiven h
    have hins := buildWitness_inserts hlen hgiven h
    refine ⟨hins, hnew, fun hG p' w' hins' hold hstart' h0 h1 => ?_⟩
    refine Inserts.newRoot_eq hG hins hins' (n := (leavesOf steps).length / 2) (by omega) ?_ hstart' hold h0 h1
    rw [hstart, Nat.mul_div_cancel' (Nat.dvd_of_mod_eq_zero heven)]

/-- Two batches, the second of them a single leaf, with a round trip between them. -/
def twoBatches : List Step := [.append [3, 4, 5] [0, 2], .reload, .append [6] [3], .untrack 2]

theorem incTree_eq_tree_twoBatches : ∃ t₀ t, incTree (node codeGadgets) none = some t₀ ∧
    forEach twoBatches (Step.run (node codeGadgets)) t₀ = .ok () t ∧
    t.root = (Wallet.tree (node codeGadgets) [3, 4, 5, 6]).root ∧ t.has 3 = true ∧ ¬t.has 2 = true ∧
    ∃ p, t.path 3 = .ok p ∧ (Wallet.tree (node codeGadgets) [3, 4, 5, 6]).path (node codeGadgets) 3 = .ok p := by
  have htracks : Tracks 0 twoBatches := ⟨by decide, by decide, trivial⟩
  obtain ⟨t₀, t, ht₀, hrun, -, hroot, hhas, hpath, -⟩ := incTree_eq_tree codeGadgets twoBatches htracks (by decide)
  have hthree : t.has 3 = true := (hhas 3).2 ⟨by decide, .inl (by decide)⟩
  exact ⟨t₀, t, ht₀, hrun, hroot, hthree, fun h => ((hhas 2).1 h).1 rfl, hpath 3 hthree⟩

end

end Wallet

end EvmPool

end Tacit
