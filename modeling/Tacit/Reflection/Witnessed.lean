import Tacit.Pool.NoteTree
import Tacit.Reflection.Utxo
/-!
# The witnessed reflection refines the stateful one (lib.rs:3589-3887)

`ReflectionState` holds the accumulators, `WitnessedReflection` their roots and counts. `Mirrors` relates the two:
each root is the root of the accumulator, each count its size. A fold that the witnessed side accepts is one the
stateful side performs without a panic, and the two mirror each other again (`WitnessedFold.mirrors`), so a run
that is accepted ends with the commitments of the stateful run (`run_mirrors`).
-/
namespace Tacit

open Prog SortedLinks

/-! ## The stateful reflection -/

/-- `ReflectionState` (lib.rs:3589). -/
structure ReflectionState where
  notes : KeccakTreeAccumulator
  spent : ImtAccumulator
  utxo : UtxoAccumulator
  bridgeBurns : UtxoAccumulator
  height : Nat

namespace ReflectionState

/-- `genesis` (lib.rs:3611). -/
def genesis (K : Keccak) : ReflectionState := ⟨.new K, .new, .new, .new, 0⟩

/-- The consumption of one input, the same in `apply_transfer` and `apply_bridge_out`; `none` = a panic. -/
def applyInput (s : ReflectionState) (outpoint nu : Word) : Option ReflectionState :=
  if (s.utxo.get outpoint).isNone then none
  else do
    let spent ← s.spent.insert nu
    let utxo ← s.utxo.remove outpoint
    some { s with spent := spent, utxo := utxo }

/-- One output of `apply_transfer`. -/
def applyOutput (K : Keccak) (s : ReflectionState) (outpoint noteLeaf commitmentHash : Word) :
    Option ReflectionState := do
  let utxo ← s.utxo.insert outpoint commitmentHash
  some { s with notes := s.notes.append K noteLeaf, utxo := utxo }

/-- `apply_transfer` (lib.rs:3649); `none` = a panic. -/
def applyTransfer (K : Keccak) (s : ReflectionState) (inputs : List (Word × Word))
    (outputs : List (Word × Word × Word)) (height : Nat) : Option ReflectionState :=
  if height < s.height then none
  else do
    let s ← inputs.foldlM (fun s i => s.applyInput i.1 i.2) s
    let s ← outputs.foldlM (fun s o => s.applyOutput K o.1 o.2.1 o.2.2) s
    some { s with height := height }

/-- `apply_bridge_out` (lib.rs:3673); `none` = a panic. -/
def applyBridgeOut (s : ReflectionState) (outpoint nu destCommitment : Word) (height : Nat) : Option ReflectionState :=
  if height < s.height then none
  else do
    let s ← s.applyInput outpoint nu
    let burns ← s.bridgeBurns.insert nu destCommitment
    some { s with bridgeBurns := burns, height := height }

/-- `commit` (lib.rs:3698). -/
def commit (K : Keccak) (s : ReflectionState) : Word × Word × Nat := (s.notes.root, s.spent.root K, s.height)

/-- `utxo_root` (lib.rs:3704). -/
def utxoRoot (K : Keccak) (s : ReflectionState) : Word := s.utxo.root K

/-- `bridge_burn_root` (lib.rs:3691). -/
def bridgeBurnRoot (K : Keccak) (s : ReflectionState) : Word := s.bridgeBurns.root K

end ReflectionState

/-- One call of `apply_transfer` or `apply_bridge_out`. -/
inductive ReflectionFold
  | transfer (inputs : List (Word × Word)) (outputs : List (Word × Word × Word)) (height : Nat)
  | bridgeOut (outpoint nu destCommitment : Word) (height : Nat)

def ReflectionState.apply (K : Keccak) (s : ReflectionState) : ReflectionFold → Option ReflectionState
  | .transfer inputs outputs height => s.applyTransfer K inputs outputs height
  | .bridgeOut outpoint nu dest height => s.applyBridgeOut outpoint nu dest height

def ReflectionState.run (K : Keccak) (s : ReflectionState) (folds : List ReflectionFold) : Option ReflectionState :=
  folds.foldlM (ReflectionState.apply K) s

/-! ## The witnessed reflection -/

/-- `SpendWitness` (lib.rs:3721). -/
structure SpendWitness where
  asset : Word
  authKey : Word
  cx : Word
  cy : Word
  outpoint : Word
  sLowValue : Word
  sLowNext : Word
  sLowIndex : Nat
  sLowPath : List Word
  sNewPath : List Word
  uNodeNext : Word
  uNodeValue : Word
  uNodeIndex : Nat
  uNodePath : List Word
  uPredKey : Word
  uPredValue : Word
  uPredIndex : Nat
  uPredPath : List Word

/-- `OutputWitness` (lib.rs:3750). -/
structure OutputWitness where
  noteLeaf : Word
  notePath : List Word
  outpoint : Word
  commitmentHash : Word
  uLowKey : Word
  uLowNext : Word
  uLowValue : Word
  uLowIndex : Nat
  uLowPath : List Word
  uNewPath : List Word

/-- `BurnWitness` (lib.rs:3766). -/
structure BurnWitness where
  spend : SpendWitness
  destCommitment : Word
  bLowKey : Word
  bLowNext : Word
  bLowValue : Word
  bLowIndex : Nat
  bLowPath : List Word
  bNewPath : List Word

/-- `WitnessedReflection` (lib.rs:3782). -/
structure WitnessedReflection where
  poolRoot : Word
  noteCount : Nat
  spentRoot : Word
  spentCount : Nat
  utxoRoot : Word
  utxoCount : Nat
  burnRoot : Word
  burnCount : Nat
  height : Nat

namespace WitnessedReflection

variable (K : Keccak)

/-- `genesis` (lib.rs:3797). -/
def genesis : WitnessedReflection :=
  let utxoEmpty := UtxoAccumulator.new.root K
  { poolRoot := keccakMerkleRoot K [], noteCount := 0, spentRoot := imtEmptyRoot K, spentCount := 1,
    utxoRoot := utxoEmpty, utxoCount := 1, burnRoot := utxoEmpty, burnCount := 1, height := 0 }

/-- `commit` (lib.rs:3814). -/
def commit (w : WitnessedReflection) : Word × Word × Nat := (w.poolRoot, w.spentRoot, w.height)

/-- `apply_spend` (lib.rs:3835). -/
def applySpend (s : SpendWitness) : Prog WitnessedReflection String Word := do
  let nu ← orThrow (bindSpentNote K s.uNodeValue s.asset s.cx s.cy s.authKey) "ν not bound to the outpoint's note"
  let w ← get
  let spentRoot ← orThrow (imtInsertTransition K w.spentRoot nu s.sLowValue s.sLowNext s.sLowIndex s.sLowPath
    w.spentCount s.sNewPath) "spent-set insert witness invalid"
  modify fun w => { w with spentRoot := spentRoot, spentCount := w.spentCount + 1 }
  let w ← get
  let utxoRoot ← orThrow (utxoRemoveTransition K w.utxoRoot s.outpoint s.uNodeNext s.uNodeValue s.uNodeIndex
    s.uNodePath s.uPredKey s.uPredValue s.uPredIndex s.uPredPath) "utxo remove witness invalid"
  modify fun w => { w with utxoRoot := utxoRoot }
  pure nu

/-- `apply_output` (lib.rs:3851). -/
def applyOutput (o : OutputWitness) : Prog WitnessedReflection String Unit := do
  let w ← get
  let poolRoot ← orThrow (keccakTreeAppendTransition K w.poolRoot w.noteCount o.notePath o.noteLeaf)
    "note append witness invalid"
  modify fun w => { w with poolRoot := poolRoot, noteCount := w.noteCount + 1 }
  let w ← get
  let utxoRoot ← orThrow (utxoInsertTransition K w.utxoRoot o.outpoint o.commitmentHash o.uLowKey o.uLowNext
    o.uLowValue o.uLowIndex o.uLowPath w.utxoCount o.uNewPath) "utxo insert witness invalid"
  modify fun w => { w with utxoRoot := utxoRoot, utxoCount := w.utxoCount + 1 }

/-- `apply_transfer` (lib.rs:3865). -/
def applyTransfer (spends : List SpendWitness) (outputs : List OutputWitness) (height : Nat) :
    Prog WitnessedReflection String Unit := do
  let w ← get
  check (height < w.height) "reflection height must not decrease"
  forEach spends fun s => do
    let _ ← applySpend K s
    pure ()
  forEach outputs (applyOutput K)
  modify fun w => { w with height := height }

/-- `apply_bridge_out` (lib.rs:3876). -/
def applyBridgeOut (b : BurnWitness) (height : Nat) : Prog WitnessedReflection String Unit := do
  let w ← get
  check (height < w.height) "reflection height must not decrease"
  let nu ← applySpend K b.spend
  let w ← get
  let burnRoot ← orThrow (utxoInsertTransition K w.burnRoot nu b.destCommitment b.bLowKey b.bLowNext b.bLowValue
    b.bLowIndex b.bLowPath w.burnCount b.bNewPath) "burn-set insert witness invalid"
  modify fun w => { w with burnRoot := burnRoot, burnCount := w.burnCount + 1, height := height }

end WitnessedReflection

/-- One call of the witnessed `apply_transfer` or `apply_bridge_out`. -/
inductive WitnessedFold
  | transfer (spends : List SpendWitness) (outputs : List OutputWitness) (height : Nat)
  | bridgeOut (b : BurnWitness) (height : Nat)

def WitnessedReflection.apply (K : Keccak) : WitnessedFold → Prog WitnessedReflection String Unit
  | .transfer spends outputs height => applyTransfer K spends outputs height
  | .bridgeOut b height => applyBridgeOut K b height

def WitnessedReflection.run (K : Keccak) (folds : List WitnessedFold) : Prog WitnessedReflection String Unit :=
  forEach folds (WitnessedReflection.apply K)

/-- The nullifier of the note a spend names. -/
def SpendWitness.nu (K : Keccak) (s : SpendWitness) : Word := nullifier K (btcNoteLeaf K s.asset s.cx s.cy s.authKey)

/-- The stateful call with the same effects: the witnesses dropped, the nullifiers derived. -/
def WitnessedFold.effects (K : Keccak) : WitnessedFold → ReflectionFold
  | .transfer spends outputs height =>
    .transfer (spends.map fun s => (s.outpoint, s.nu K))
      (outputs.map fun o => (o.outpoint, o.noteLeaf, o.commitmentHash)) height
  | .bridgeOut b height => .bridgeOut b.spend.outpoint (b.spend.nu K) b.destCommitment height

/-! ## The simulation -/

/-- `r` and `n` are the root and the size of the accumulator, which fits the tree. -/
structure UtxoAccumulator.Commits (K : Keccak) (r : Word) (n : Nat) (a : UtxoAccumulator) : Prop where
  sound : a.Sound
  root_eq : r = a.root K
  count_eq : n = a.len
  fits : n ≤ 2 ^ 32

/-- The roots and counts are those of the accumulators. Every note came with an outpoint, so the note tree is
never full before the outpoint tree is. -/
structure Mirrors (K : Keccak) (w : WitnessedReflection) (s : ReflectionState) : Prop where
  notes : ∃ l, Frontier K l s.notes.nextIndex s.notes.root s.notes.filled ∧ w.poolRoot = s.notes.root ∧
    w.noteCount = l.length
  noteCount_lt : w.noteCount < w.utxoCount
  spent : LinkedTree.Commits (imtHashing K) 32 w.spentRoot w.spentCount s.spent.links
  utxo : s.utxo.Commits K w.utxoRoot w.utxoCount
  burns : s.bridgeBurns.Commits K w.burnRoot w.burnCount
  height_eq : w.height = s.height

section Simulation

variable {K : Keccak} {w w' : WitnessedReflection} {s : ReflectionState}

theorem UtxoAccumulator.commits_new : UtxoAccumulator.new.Commits K (UtxoAccumulator.new.root K) 1 :=
  ⟨sound_new, rfl, rfl, Nat.one_le_two_pow⟩

theorem mirrors_genesis : Mirrors K (.genesis K) (.genesis K) where
  notes := by
    refine ⟨[], ?_, rfl, rfl⟩
    have h := frontier_nil (K := K) fun _ => 0
    rw [← keccakMerkleRoot_noteRoot] at h
    exact h
  noteCount_lt := Nat.zero_lt_one
  spent := by
    have h := LinkedTree.commits_empty (H := imtHashing K) (d := 32) ()
    rw [← imtRoot_eq] at h
    rw [show (WitnessedReflection.genesis K).spentRoot = imtEmptyRoot K from rfl, imtEmptyRoot]
    exact h
  utxo := UtxoAccumulator.commits_new
  burns := UtxoAccumulator.commits_new
  height_eq := rfl

theorem Mirrors.commit_eq (h : Mirrors K w s) :
    w.commit = s.commit K ∧ w.utxoRoot = s.utxoRoot K ∧ w.burnRoot = s.bridgeBurnRoot K := by
  obtain ⟨l, -, hr, -⟩ := h.notes
  have hs : w.spentRoot = s.spent.root K := by rw [h.spent.root_eq, ImtAccumulator.root, imtRoot_eq]
  refine ⟨?_, h.utxo.root_eq, h.burns.root_eq⟩
  rw [WitnessedReflection.commit, ReflectionState.commit, hr, hs, h.height_eq]

/-- An accepted insert at the count is the accumulator's. -/
theorem UtxoAccumulator.Commits.insert {a : UtxoAccumulator} {r r' key value lowKey lowNext lowValue : Word}
    {n lowIndex : Nat} {lowPath newPath : List Word} (hK : K.Ideal) (h : a.Commits K r n)
    (hacc : utxoInsertTransition K r key value lowKey lowNext lowValue lowIndex lowPath n newPath = some r') :
    n < 2 ^ 32 ∧ ∃ a', a.insert key value = some a' ∧ a'.Commits K r' (n + 1) := by
  obtain ⟨hs, rfl, rfl, hl⟩ := h
  obtain ⟨-, hlt, a', ha', hr⟩ := hs.insert_refines hK hl hacc
  obtain ⟨hs', hlen⟩ := hs.insert ha'
  exact ⟨hlt, a', ha', hs', hr.symm, hlen.symm, hlt⟩

/-- An accepted remove of a value other than zero is the accumulator's. -/
theorem UtxoAccumulator.Commits.remove {a : UtxoAccumulator} {r r' key nodeNext nodeValue predKey predValue : Word}
    {n nodeIndex predIndex : Nat} {nodePath predPath : List Word} (hK : K.Ideal) (h : a.Commits K r n)
    (hv : nodeValue ≠ 0) (hacc : utxoRemoveTransition K r key nodeNext nodeValue nodeIndex nodePath predKey predValue
      predIndex predPath = some r') :
    a.get key = some nodeValue ∧ ∃ a', a.remove key = some a' ∧ a'.Commits K r' n := by
  obtain ⟨hs, rfl, rfl, hl⟩ := h
  have h0 := hs.ne_zero_of_remove hK hv hacc
  obtain ⟨hg, a', ha', hr⟩ := hs.remove_refines hK h0 hacc
  obtain ⟨hs', hlen⟩ := hs.remove h0 ha'
  exact ⟨hg, a', ha', hs', hr.symm, hlen.symm, hl⟩

theorem ImtAccumulator.insert_commits {a : ImtAccumulator} {r r' nu lowValue lowNext : Word} {n lowIndex : Nat}
    {lowPath newPath : List Word} (hK : K.Ideal) (h : LinkedTree.Commits (imtHashing K) 32 r n a.links)
    (hacc : imtInsertTransition K r nu lowValue lowNext lowIndex lowPath n newPath = some r') :
    ∃ a', a.insert nu = some a' ∧ LinkedTree.Commits (imtHashing K) 32 r' (n + 1) a'.links := by
  have hI := imtInsertTransition_eq_some.1 hacc
  obtain ⟨hlow, h'⟩ := h.insert (imtHashing_ideal hK) hI
  exact ⟨_, insert_eq h.linked hlow hI.straddles, h'⟩

theorem bindSpentNote_eq_some {committed asset cx cy authKey nu : Word} :
    bindSpentNote K committed asset cx cy authKey = some nu ↔
      committed = commitmentHash K cx cy ∧ nu = nullifier K (btcNoteLeaf K asset cx cy authKey) := by
  unfold bindSpentNote
  by_cases h : commitmentHash K cx cy = committed
  · simp [h, eq_comm]
  · simp [h, Ne.symm h]

/-- A spend that is accepted is one the stateful side performs. -/
theorem Mirrors.spend (hK : K.Ideal) (h : Mirrors K w s) {x : SpendWitness} {nu : Word}
    (hx : WitnessedReflection.applySpend K x w = .ok nu w') :
    nu = x.nu K ∧ ∃ s', s.applyInput x.outpoint nu = some s' ∧ Mirrors K w' s' := by
  simp only [WitnessedReflection.applySpend, bind_eq_ok, orThrow_eq_ok, get_eq_ok, modify_eq_ok, pure_eq_ok] at hx
  obtain ⟨nu', _, ⟨hbind, rfl⟩, _, _, ⟨rfl, rfl⟩, sr, _, ⟨hspent, rfl⟩, _, _, rfl, _, _, ⟨rfl, rfl⟩, ur, _,
    ⟨hutxo, rfl⟩, _, _, rfl, rfl, rfl⟩ := hx
  obtain ⟨hv, rfl⟩ := bindSpentNote_eq_some.1 hbind
  obtain ⟨spent', hins, hspent'⟩ := ImtAccumulator.insert_commits hK h.spent hspent
  obtain ⟨hg, utxo', hrem, hutxo'⟩ := h.utxo.remove hK (by rw [hv]; exact hK.kn_ne_zero _) hutxo
  refine ⟨rfl, { s with spent := spent', utxo := utxo' }, ?_,
    ⟨h.notes, h.noteCount_lt, hspent', hutxo', h.burns, h.height_eq⟩⟩
  simp only [ReflectionState.applyInput, hg, hins, hrem, Option.isNone_some, Bool.false_eq_true, if_false,
    Option.bind_eq_bind, Option.bind_some]

/-- An output that is accepted is one the stateful side performs. -/
theorem Mirrors.output (hK : K.Ideal) (h : Mirrors K w s) {x : OutputWitness} {u : Unit}
    (hx : WitnessedReflection.applyOutput K x w = .ok u w') :
    ∃ s', s.applyOutput K x.outpoint x.noteLeaf x.commitmentHash = some s' ∧ Mirrors K w' s' := by
  simp only [WitnessedReflection.applyOutput, bind_eq_ok, orThrow_eq_ok, get_eq_ok, modify_eq_ok] at hx
  obtain ⟨_, _, ⟨rfl, rfl⟩, pr, _, ⟨hpool, rfl⟩, _, _, rfl, _, _, ⟨rfl, rfl⟩, ur, _, ⟨hutxo, rfl⟩, rfl⟩ := hx
  obtain ⟨l, hf, hpr, hnc⟩ := h.notes
  obtain ⟨hlt, utxo', hins, hutxo'⟩ := h.utxo.insert hK hutxo
  have hl : l.length < 2 ^ 32 := by
    have := h.noteCount_lt
    omega
  rw [hpr, hf.root_eq, hnc] at hpool
  have hroot := appendTransition_root hK hl hpool
  have hf' := hf.append hl x.noteLeaf
  refine ⟨{ s with notes := s.notes.append K x.noteLeaf, utxo := utxo' },
    by simp only [ReflectionState.applyOutput, hins, Option.bind_eq_bind, Option.bind_some],
    ⟨⟨l ++ [x.noteLeaf], hf', ?_, by simp [hnc]⟩, ?_, h.spent, hutxo', h.burns, h.height_eq⟩⟩
  · exact hroot.trans hf'.root_eq.symm
  · exact Nat.succ_lt_succ h.noteCount_lt

theorem Mirrors.spends (hK : K.Ideal) : ∀ {l : List SpendWitness} {w w' : WitnessedReflection} {s : ReflectionState}
    {u : Unit}, Mirrors K w s →
    (forEach l fun x => do
      let _ ← WitnessedReflection.applySpend K x
      pure ()) w = .ok u w' →
    ∃ s', (l.map fun x => (x.outpoint, x.nu K)).foldlM (fun s i => s.applyInput i.1 i.2) s = some s' ∧ Mirrors K w' s'
  | [], _, _, s, _, h, hx => by
    obtain rfl := forEach_nil_eq_ok.1 hx
    exact ⟨s, rfl, h⟩
  | x :: l, w, w', s, _, h, hx => by
    obtain ⟨v, hv, hl⟩ := forEach_cons_eq_ok.1 hx
    simp only [bind_eq_ok, pure_eq_ok] at hv
    obtain ⟨nu, _, hv, -, rfl⟩ := hv
    obtain ⟨rfl, s₁, hs₁, h₁⟩ := h.spend hK hv
    obtain ⟨s', hs', h'⟩ := Mirrors.spends hK h₁ hl
    exact ⟨s', by simp only [List.map_cons, List.foldlM_cons, hs₁]; exact hs', h'⟩

theorem Mirrors.outputs (hK : K.Ideal) : ∀ {l : List OutputWitness} {w w' : WitnessedReflection} {s : ReflectionState}
    {u : Unit}, Mirrors K w s → forEach l (WitnessedReflection.applyOutput K) w = .ok u w' →
    ∃ s', (l.map fun x => (x.outpoint, x.noteLeaf, x.commitmentHash)).foldlM
      (fun s o => s.applyOutput K o.1 o.2.1 o.2.2) s = some s' ∧ Mirrors K w' s'
  | [], _, _, s, _, h, hx => by
    obtain rfl := forEach_nil_eq_ok.1 hx
    exact ⟨s, rfl, h⟩
  | x :: l, w, w', s, _, h, hx => by
    obtain ⟨v, hv, hl⟩ := forEach_cons_eq_ok.1 hx
    obtain ⟨s₁, hs₁, h₁⟩ := h.output hK hv
    obtain ⟨s', hs', h'⟩ := Mirrors.outputs hK h₁ hl
    exact ⟨s', by simp only [List.map_cons, List.foldlM_cons, hs₁]; exact hs', h'⟩

/-- **One fold.** What the witnessed side accepts the stateful side performs. -/
theorem Mirrors.fold (hK : K.Ideal) (h : Mirrors K w s) {f : WitnessedFold} {u : Unit}
    (hf : WitnessedReflection.apply K f w = .ok u w') : ∃ s', s.apply K (f.effects K) = some s' ∧ Mirrors K w' s' := by
  cases f with
  | transfer spends outputs height =>
    simp only [WitnessedReflection.apply, WitnessedReflection.applyTransfer, bind_eq_ok, get_eq_ok, check_eq_ok,
      modify_eq_ok] at hf
    obtain ⟨_, _, ⟨rfl, rfl⟩, _, _, ⟨hh, rfl⟩, _, w₁, h₁, _, w₂, h₂, rfl⟩ := hf
    obtain ⟨s₁, hs₁, hm₁⟩ := h.spends hK (by simpa only [bind_eq_ok] using h₁)
    obtain ⟨s₂, hs₂, hm₂⟩ := hm₁.outputs hK h₂
    rw [h.height_eq] at hh
    refine ⟨{ s₂ with height := height }, ?_, ⟨hm₂.notes, hm₂.noteCount_lt, hm₂.spent, hm₂.utxo, hm₂.burns, rfl⟩⟩
    simp only [ReflectionState.apply, WitnessedFold.effects, ReflectionState.applyTransfer, if_neg hh, hs₁, hs₂,
      Option.bind_eq_bind, Option.bind_some]
  | bridgeOut b height =>
    simp only [WitnessedReflection.apply, WitnessedReflection.applyBridgeOut, bind_eq_ok, get_eq_ok, check_eq_ok,
      orThrow_eq_ok, modify_eq_ok] at hf
    obtain ⟨_, _, ⟨rfl, rfl⟩, _, _, ⟨hh, rfl⟩, nu, w₁, h₁, _, _, ⟨rfl, rfl⟩, br, _, ⟨hb, rfl⟩, rfl⟩ := hf
    obtain ⟨rfl, s₁, hs₁, hm₁⟩ := h.spend hK h₁
    obtain ⟨-, burns', hins, hburns'⟩ := hm₁.burns.insert hK hb
    rw [h.height_eq] at hh
    refine ⟨{ s₁ with bridgeBurns := burns', height := height }, ?_,
      ⟨hm₁.notes, hm₁.noteCount_lt, hm₁.spent, hm₁.utxo, hburns', rfl⟩⟩
    simp only [ReflectionState.apply, WitnessedFold.effects, ReflectionState.applyBridgeOut, if_neg hh, hs₁, hins,
      Option.bind_eq_bind, Option.bind_some]

/-- **A whole run.** -/
theorem Mirrors.run (hK : K.Ideal) : ∀ {folds : List WitnessedFold} {w w' : WitnessedReflection}
    {s : ReflectionState} {u : Unit}, Mirrors K w s → WitnessedReflection.run K folds w = .ok u w' →
    ∃ s', s.run K (folds.map (WitnessedFold.effects K)) = some s' ∧ Mirrors K w' s'
  | [], _, _, s, _, h, hr => by
    obtain rfl := forEach_nil_eq_ok.1 hr
    exact ⟨s, rfl, h⟩
  | f :: folds, w, w', s, _, h, hr => by
    obtain ⟨v, hv, hl⟩ := forEach_cons_eq_ok.1 hr
    obtain ⟨s₁, hs₁, h₁⟩ := h.fold hK hv
    obtain ⟨s', hs', h'⟩ := Mirrors.run hK h₁ hl
    refine ⟨s', ?_, h'⟩
    rw [ReflectionState.run, List.map_cons, List.foldlM_cons, hs₁]
    exact hs'

end Simulation

/-! ## The refinement -/

section Refinement

variable {K : Keccak}

/-- **The witnessed transitions refine the accumulators.** Take any reachable accumulator of at most `2 ^ 32` nodes
and a nonzero key. An insert accepted at its next slot, or a remove, is legal and returns the root the accumulator
has after it, for every witness; a legal remove has a witness, and so has a legal insert while a slot is left. So a
run the witnessed reflection accepts from genesis ends with the commitments of the stateful run. -/
theorem witnessed_refines_stateful (hK : K.Ideal) :
    (∀ a : UtxoAccumulator, a.Reachable → a.len ≤ 2 ^ 32 → ∀ key : Word, key ≠ 0 →
      (∀ value lowKey lowNext lowValue lowIndex lowPath newPath r',
        utxoInsertTransition K (a.root K) key value lowKey lowNext lowValue lowIndex lowPath a.len newPath = some r' →
        a.get key = none ∧ ∃ a', a.insert key value = some a' ∧ a'.root K = r') ∧
      (∀ nodeNext nodeValue nodeIndex nodePath predKey predValue predIndex predPath r',
        utxoRemoveTransition K (a.root K) key nodeNext nodeValue nodeIndex nodePath predKey predValue predIndex
          predPath = some r' →
        a.get key = some nodeValue ∧ ∃ a', a.remove key = some a' ∧ a'.root K = r') ∧
      (∀ value, a.get key = none → a.len < 2 ^ 32 → ∃ lowKey lowNext lowValue lowIndex lowPath newPath r',
        utxoInsertTransition K (a.root K) key value lowKey lowNext lowValue lowIndex lowPath a.len newPath = some r') ∧
      (∀ value, a.get key = some value → ∃ nodeNext nodeIndex nodePath predKey predValue predIndex predPath r',
        utxoRemoveTransition K (a.root K) key nodeNext value nodeIndex nodePath predKey predValue predIndex
          predPath = some r')) ∧
    (∀ folds w', WitnessedReflection.run K folds (.genesis K) = .ok () w' →
      ∃ s', (ReflectionState.genesis K).run K (folds.map (WitnessedFold.effects K)) = some s' ∧
        w'.commit = s'.commit K ∧ w'.utxoRoot = s'.utxoRoot K ∧ w'.burnRoot = s'.bridgeBurnRoot K) := by
  refine ⟨?_, ?_⟩
  · intro a ha hl key h0
    have hs := ha.sound
    refine ⟨?_, ?_, ?_, ?_⟩
    · intro value lowKey lowNext lowValue lowIndex lowPath newPath r' hacc
      obtain ⟨hg, -, ha'⟩ := hs.insert_refines hK hl hacc
      exact ⟨hg, ha'⟩
    · intro nodeNext nodeValue nodeIndex nodePath predKey predValue predIndex predPath r' hacc
      exact hs.remove_refines hK h0 hacc
    · intro value hg hlt
      exact hs.exists_insert_witness hK hlt hg value
    · intro value hg
      exact hs.exists_remove_witness hK hl h0 hg
  · intro folds w' hrun
    obtain ⟨s', hs', hm⟩ := mirrors_genesis.run hK hrun
    exact ⟨s', hs', hm.commit_eq⟩

/-- A transfer of one output from genesis is accepted with some witness. -/
theorem exists_output_run (hK : K.Ideal) (outpoint noteLeaf commitmentHash : Word) (h0 : outpoint ≠ 0) :
    ∃ o w', o.outpoint = outpoint ∧ WitnessedReflection.run K [.transfer [] [o] 0] (.genesis K) = .ok () w' := by
  have hf := frontier_nil (K := K) (KeccakTreeAccumulator.new K).filled
  rw [← keccakMerkleRoot_noteRoot] at hf
  have happ := Frontier.appendTransition (a := .new K) hf (Nat.two_pow_pos 32) noteLeaf
  have hg : UtxoAccumulator.new.get outpoint = none := by
    rw [UtxoAccumulator.get_eq_none UtxoAccumulator.sound_new.chained]
    simpa [UtxoAccumulator.liveKeys, UtxoAccumulator.slots, UtxoAccumulator.new, UtxoNode.link, keys] using h0
  obtain ⟨lk, ln, lv, li, lp, np, r', hins⟩ := UtxoAccumulator.sound_new.exists_insert_witness hK (by decide) hg
    commitmentHash
  rw [← keccakMerkleRoot_noteRoot] at happ
  refine ⟨⟨noteLeaf, (KeccakTreeAccumulator.new K).appendPath K, outpoint, commitmentHash, lk, ln, lv, li, lp,
    np⟩, { WitnessedReflection.genesis K with
      poolRoot := noteRoot K ([] ++ [noteLeaf]), noteCount := 1, utxoRoot := r', utxoCount := 2 }, rfl, ?_⟩
  rw [WitnessedReflection.run, forEach_cons_eq_ok]
  refine ⟨_, ?_, forEach_nil_eq_ok.2 rfl⟩
  simp only [WitnessedReflection.apply, WitnessedReflection.applyTransfer, WitnessedReflection.applyOutput, bind_eq_ok,
    get_eq_ok, check_eq_ok, modify_eq_ok, orThrow_eq_ok, forEach_nil_eq_ok, forEach_cons_eq_ok]
  exact ⟨_, _, ⟨rfl, rfl⟩, (), _, ⟨Nat.not_lt_zero _, rfl⟩, (), _, rfl, (), _,
    ⟨_, ⟨_, _, ⟨rfl, rfl⟩, _, _, ⟨happ, rfl⟩, (), _, rfl, _, _, ⟨rfl, rfl⟩, _, _, ⟨hins, rfl⟩, rfl⟩, rfl⟩, rfl⟩

/-- One key inserted into the empty set, and one output folded from genesis. -/
theorem witnessed_refines_stateful_one_output : ∃ folds w' s' a', folds ≠ [] ∧
    WitnessedReflection.run codeKeccak folds (.genesis codeKeccak) = .ok () w' ∧
    (ReflectionState.genesis codeKeccak).run codeKeccak (folds.map (WitnessedFold.effects codeKeccak)) = some s' ∧
    w'.commit = s'.commit codeKeccak ∧ UtxoAccumulator.new.insert (wordOfNat 1) 0 = some a' := by
  have h0 : wordOfNat 1 ≠ 0 := by decide
  have hg : UtxoAccumulator.new.get (wordOfNat 1) = none := by decide
  obtain ⟨o, w', -, hrun⟩ := exists_output_run codeKeccak_ideal (wordOfNat 1) (wordOfNat 2) (wordOfNat 3) h0
  obtain ⟨hops, hfolds⟩ := witnessed_refines_stateful codeKeccak_ideal
  obtain ⟨s', hs', hc, -, -⟩ := hfolds _ w' hrun
  obtain ⟨hins, -, hex, -⟩ := hops .new .new (by decide) (wordOfNat 1) h0
  obtain ⟨lk, ln, lv, li, lp, np, r', hacc⟩ := hex 0 hg (by decide)
  obtain ⟨-, a', ha', -⟩ := hins 0 lk ln lv li lp np r' hacc
  exact ⟨_, w', s', a', by simp, hrun, hs', hc, ha'⟩

/-- The bounds are needed. An insert is accepted past the next slot and gives another root; a full accumulator has
an absent key that nothing inserts, and one with more nodes a present key that nothing removes; and an accumulator
without its sentinel takes no key at all. -/
theorem witnessed_refinement_limits :
    (∃ lowPath newPath r' a', utxoInsertTransition codeKeccak (UtxoAccumulator.new.root codeKeccak) (wordOfNat 1) 0 0 0
        0 0 lowPath (UtxoAccumulator.new.len + 1) newPath = some r' ∧
      UtxoAccumulator.new.insert (wordOfNat 1) 0 = some a' ∧ a'.root codeKeccak ≠ r') ∧
    (∃ a : UtxoAccumulator, a.Reachable ∧ a.len = 2 ^ 32 ∧ ∃ key, key ≠ 0 ∧ a.get key = none ∧
      ∀ value lowKey lowNext lowValue lowIndex lowPath newIndex newPath,
        utxoInsertTransition codeKeccak (a.root codeKeccak) key value lowKey lowNext lowValue lowIndex lowPath newIndex
          newPath = none) ∧
    (∃ a : UtxoAccumulator, a.Reachable ∧ ∃ key value, key ≠ 0 ∧ a.get key = some value ∧
      ∀ nodeNext nodeValue nodeIndex nodePath predKey predValue predIndex predPath,
        utxoRemoveTransition codeKeccak (a.root codeKeccak) key nodeNext nodeValue nodeIndex nodePath predKey predValue
          predIndex predPath = none) ∧
    (∃ a : UtxoAccumulator, UtxoAccumulator.new.remove 0 = some a ∧ a.get (wordOfNat 1) = none ∧
      ∀ value lowKey lowNext lowValue lowIndex lowPath newIndex newPath,
        utxoInsertTransition codeKeccak (a.root codeKeccak) (wordOfNat 1) value lowKey lowNext lowValue lowIndex
          lowPath newIndex newPath = none) :=
  ⟨UtxoAccumulator.insert_past_next codeKeccak_ideal (by decide) 0,
    UtxoAccumulator.full_refuses_insert codeKeccak_ideal,
    UtxoAccumulator.past_last_refuses_remove codeKeccak_ideal,
    .unseated, UtxoAccumulator.unseated_refuses_insert codeKeccak_ideal _⟩

end Refinement

end Tacit
