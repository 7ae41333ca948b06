import Tacit.Lib.InsertionMap
import Tacit.Lib.Prog
import Tacit.Replay.Tree
/-!
# The replay's state (worker/src/btc-shielded-pool.js:376-657)

A call throws with the state as it stands then. What a carrier's context answers (`resolveInput`, `verifyProof`) is part of the
context; a call is awaited before the next one. An array is a list, whatever its length.
-/
namespace Tacit

namespace Replay

open Prog
open Indexer (bytesToHex)

def ANCHOR_WINDOW : Int := 144
def UNDO_DEPTH : Int := 288

inductive Error
  | message (text : String)
  | verifierUnavailable
  | reorgTooDeep (h : Int)
deriving DecidableEq

/-! ## Records -/

structure LeafRecord where
  leaf : Bytes
  txid : String
  asset : Bytes
  pkEph : Bytes
  ctNote : Bytes
  leafIndex : Nat
  height : Int

structure NullifierRecord where
  nf : String
  height : Int
  txid : String

structure ExitRecord where
  txid : String
  vout : Nat
  asset : Bytes
  cx : Bytes
  cy : Bytes
  height : Int

structure WantRecord where
  txid : String
  vout : Nat
  value : Nat

/-- `outKey` (:385). -/
def outKey (txid : String) (vout : Nat) : String := txid ++ ":" ++ toString vout

def ExitRecord.key (x : ExitRecord) : String := outKey x.txid x.vout

/-- The open block. -/
structure Pending where
  height : Int
  leafStart : Nat
  leaves : List LeafRecord
  nullifiers : List NullifierRecord
  exits : List ExitRecord
  wants : List String

structure Undo where
  leafStart : Nat
  nullifiers : List String
  exits : List String
  pruned : List (Int × Bytes)

structure BtcPoolState where
  tree : PoseidonTree
  leafHeights : List Int
  nullifiers : InsertionMap String NullifierRecord
  exits : InsertionMap String ExitRecord
  roots : InsertionMap Int Bytes
  undo : InsertionMap Int Undo
  tip : Option Int
  pending : Option Pending
  maxLeaves : Nat

abbrev Run := Prog BtcPoolState Error

/-- `new BtcPoolState()`. -/
def BtcPoolState.new : BtcPoolState where
  tree := .empty
  leafHeights := []
  nullifiers := .empty
  exits := .empty
  roots := .empty
  undo := .empty
  tip := none
  pending := none
  maxLeaves := MAX_LEAVES

/-! ## A carrier's context -/

structure TxOutput where
  value : Nat
  scriptPubKey : Bytes

/-- What `aggregateFor` answered, `bound` being its publics of the spend at hand. -/
structure AggregateResult where
  ok : Bool
  reason : Option String
  bound : Option (List Nat)

structure Context where
  txid : String
  inputs : Option (List Outpoint)
  outputs : Option (List TxOutput)
  vin0TacitOp : Bool
  /-- The answer to the `i`-th call. -/
  resolveInput : (i : Nat) → Outpoint → (assetHex : String) → Except Error (Option (Bytes × Bytes))
  /-- Absent when it is not a function. -/
  verifyProof : Option ((proof : Bytes) → (publics : List Nat) → Except Error Bool)
  aggregate : Option AggregateResult

inductive Result
  | rejected (reason : String)
  | shielded (leaves : List LeafRecord)
  | spent (nullifiers : List String) (leaves : List LeafRecord) (exit : Option ExitRecord) (want : Option WantRecord)

def Result.accepted : Result → Bool
  | .rejected _ => false
  | _ => true

/-- How a check ends a call. -/
inductive Stop
  | reject (reason : String)
  | throws (e : Error)

/-- The end of a call that a check ended. -/
def stopped {α : Type} (r : Except Stop α) (k : α → Run Result) : Run Result :=
  match r with
  | .ok a => k a
  | .error (.reject reason) => pure (.rejected reason)
  | .error (.throws e) => throw e

def awaited {α : Type} : Except Error α → Except Stop α
  | .ok a => .ok a
  | .error e => .error (.throws e)

section

variable {P : Type} [AddCommGroup P] [DecidableEq P] (L : Library P)

/-! ## Blocks -/

/-- `beginBlock` (:408). -/
def beginBlock (height : Int) : Run Unit := do
  let st ← get
  check st.pending.isSome (.message "block already open")
  check (∃ tip ∈ st.tip, height ≠ tip + 1)
    (.message ("expected block " ++ toString (st.tip.getD 0 + 1) ++ ", got " ++ toString height))
  modify fun st => { st with pending := some ⟨height, st.tree.size, [], [], [], []⟩ }

/-- `truncate` of the tree and of the heights. -/
def truncateTo (n : Nat) : Run Unit := do
  let st ← get
  check (st.tree.size < n) (.message "truncate beyond size")
  modify fun st => { st with tree := st.tree.truncate L n, leafHeights := st.leafHeights.take n }

def deleteAdded (nullifiers exits : List String) : Run Unit :=
  modify fun st => { st with
    nullifiers := nullifiers.foldl InsertionMap.delete st.nullifiers
    exits := exits.foldl InsertionMap.delete st.exits }

/-- `abortBlock` (:415). -/
def abortBlock : Run Unit := do
  let st ← get
  match st.pending with
  | none => pure ()
  | some b => do
    truncateTo L b.leafStart
    deleteAdded (b.nullifiers.map NullifierRecord.nf) (b.exits.map ExitRecord.key)
    modify fun st => { st with pending := none }

/-! ## Acceptance -/

/-- `this.pending` changed in place. -/
def modifyPending (f : Pending → Pending) (st : BtcPoolState) : BtcPoolState := { st with pending := st.pending.map f }

/-- `this.tree.append(leaf)` and `this.leafHeights.push(height)`. -/
def pushLeaf (leaf : Bytes) (height : Int) : Run Unit := do
  check (P_FR ≤ bytesToBig leaf) (.message "leaf is not a field element")
  modify fun st => { st with tree := st.tree.append L (bytesToBig leaf), leafHeights := st.leafHeights ++ [height] }

/-- One output of `_appendLeaves` (:428). -/
def appendLeaf (height : Int) (asset : Bytes) (txid : String) (o : Output) : Run LeafRecord := do
  let st ← get
  pushLeaf L o.leaf height
  let full : LeafRecord := ⟨o.leaf, txid, asset, o.pkEph, o.ctNote, st.tree.size, height⟩
  modify (modifyPending fun b => { b with leaves := b.leaves ++ [full] })
  return full

/-- `_appendLeaves` (:425). -/
def appendLeaves (height : Int) (asset : Bytes) (txid : String) : List Output → Run (List LeafRecord)
  | [] => pure []
  | o :: outputs => do
    let full ← appendLeaf L height asset txid o
    let rest ← appendLeaves height asset txid outputs
    return full :: rest

/-- The sum of the inputs' commitments (:447), from the `i`-th on. -/
def sumInputs (ctx : Context) (assetHex : String) : Nat → List Outpoint → P → Except Stop P
  | _, [], sum => .ok sum
  | i, op :: outpoints, sum => do
    let note ← awaited (ctx.resolveInput i op assetHex)
    let name := "input " ++ op.txid ++ ":" ++ toString op.vout
    let note ← need note (.reject (name ++ " is not a valid note of the asset"))
    let c ← need (pointFromXY L note.1 note.2) (.reject (name ++ " commitment is not a curve point"))
    sumInputs ctx assetHex (i + 1) outpoints (sum + c)

/-- The last check of both calls: `verifyProof` is there and answers `true`. -/
def provedBy (ctx : Context) (proof : Bytes) (publics : List Nat) : Except Stop Unit := do
  let verifyProof ← need ctx.verifyProof (.throws .verifierUnavailable)
  let ok ← awaited (verifyProof proof publics)
  refuse (ok = false) (.reject "proof does not verify")

/-- `null` dereferenced. -/
def typeError : Error := .message "Cannot read properties of null"

/-- The checks of `acceptShield` (:439). -/
def shieldChecks (st : BtcPoolState) (env : Envelope) (ctx : Context) : Except Stop (Pending × Shield) := do
  let b ← need st.pending (.throws (.message "no open block"))
  let s ← need (match env with | .shield s => some s | _ => none) (.reject "not a shield")
  refuse (st.maxLeaves < st.tree.size + s.outputs.length) (.reject "note tree is full")
  refuse (∀ inputs ∈ ctx.inputs, inputs.length < s.nIn + 1) (.reject "carrier has too few inputs")
  let outpoints := ((ctx.inputs.getD []).drop 1).take s.nIn
  let sum ← sumInputs L ctx (bytesToHex s.asset) 0 outpoints 0
  let pool ← need (pointFromCompressed L s.boundary.cSecp) (.throws typeError)
  let e := pool - sum
  refuse (e = 0) (.reject "excess is infinity")
  let msg ← need (shieldKernelMsg L s.body outpoints) (.throws (.message "bad hex"))
  refuse (bip340Verify L s.kernelSig msg (pointXY L e).1 = false) (.reject "kernel signature does not verify")
  let depC ← need (L.verifyBoundary s.boundary) (.reject "boundary does not verify")
  provedBy ctx s.proof (shieldPublics L s depC)
  return (b, s)

/-- `acceptShield` (:439). -/
def acceptShield (env : Envelope) (ctx : Context) : Run Result := do
  let st ← get
  stopped (shieldChecks L st env ctx) fun (b, s) => do
    let leaves ← appendLeaves L b.height s.asset ctx.txid s.outputs
    return .shielded leaves

/-- `claimed` (:525). -/
def claimed (st : BtcPoolState) (b : Pending) (ctx : Context) (vout : Nat) : Prop :=
  st.exits.has (outKey ctx.txid vout) = true ∨ outKey ctx.txid vout ∈ b.wants

instance (st : BtcPoolState) (b : Pending) (ctx : Context) (vout : Nat) : Decidable (claimed st b ctx vout) :=
  inferInstanceAs (Decidable (_ ∨ _))

/-- The checks of an exit (:526). -/
def exitChecks (st : BtcPoolState) (b : Pending) (ctx : Context) (x : Exit) : Except Stop Unit := do
  refuse (ctx.vin0TacitOp = true) (.reject "exit in a carrier whose vin[0] holds a transparent Tacit op")
  let out ← need ((ctx.outputs.getD [])[x.exitVout]?) (.reject "exit_vout is not an output of the carrier")
  refuse (claimed st b ctx x.exitVout) (.reject "exit_vout already claimed by an earlier exit or want")
  refuse (L.sha256 out.scriptPubKey ≠ x.destSpkHash) (.reject "exit scriptPubKey does not match dest_spk_hash")

/-- The checks of a want (:533). -/
def wantChecks (st : BtcPoolState) (b : Pending) (ctx : Context) (exit : Option Exit) (w : Want) : Except Stop Unit := do
  let out ← need ((ctx.outputs.getD [])[w.vout]?) (.reject "want vout is not an output of the carrier")
  refuse (∃ x ∈ exit, x.exitVout = w.vout) (.reject "want and exit name the same output")
  refuse (claimed st b ctx w.vout) (.reject "want vout already claimed by an earlier exit or want")
  refuse (out.value < w.value) (.reject "want output pays less than the want value")
  refuse (L.sha256 out.scriptPubKey ≠ w.spkHash) (.reject "want scriptPubKey does not match spk_hash")

/-- The proof of a spend, its own or its carrier's (:548). -/
def proofChecks (ctx : Context) (s : Spend) (publics : List Nat) : Except Stop Unit :=
  if s.proofLen = 0 then do
    let agg ← need ctx.aggregate (.reject "no proof and no aggregate")
    refuse (agg.ok = false) (.reject ((agg.reason.filter (· ≠ "")).getD "aggregate does not verify"))
    refuse (agg.bound ≠ some publics) (.reject "spend is not covered by the aggregate")
  else provedBy ctx s.proof publics

/-- The checks of `acceptSpend` (:513). -/
def spendChecks (st : BtcPoolState) (env : Envelope) (ctx : Context) : Except Stop (Pending × Spend) := do
  let b ← need st.pending (.throws (.message "no open block"))
  let s ← need (match env with | .spend s => some s | _ => none) (.reject "not a spend")
  refuse ((s.hAnchor : Int) < b.height - ANCHOR_WINDOW ∨ b.height - 1 < s.hAnchor) (.reject "h_anchor outside window")
  let root ← need (st.roots.get? s.hAnchor) (.reject "no root retained for h_anchor")
  refuse (∃ bind ∈ s.bind, bind ∉ ctx.inputs.getD []) (.reject "carrier does not spend the bound outpoint")
  let nfHex := s.nullifiers.map bytesToHex
  refuse (¬nfHex.Nodup) (.reject "duplicate nullifier in body")
  refuse (∃ nf ∈ nfHex, st.nullifiers.has nf = true) (.reject "nullifier already spent")
  s.exit.elim (.ok ()) (exitChecks L st b ctx)
  s.want.elim (.ok ()) (wantChecks L st b ctx s.exit)
  refuse (st.maxLeaves < st.tree.size + s.outputs.length) (.reject "note tree is full")
  let exitC ← s.exit.elim (.ok none) fun x => (need (L.verifyBoundary x.boundary) (.reject "exit boundary does not verify")).map some
  proofChecks ctx s (spendPublicsOf L s root exitC)
  return (b, s)

/-- One nullifier recorded (:561). -/
def recordNullifier (height : Int) (txid nf : String) : Run Unit :=
  modify fun st => modifyPending (fun b => { b with nullifiers := b.nullifiers ++ [⟨nf, height, txid⟩] })
    { st with nullifiers := st.nullifiers.set nf ⟨nf, height, txid⟩ }

/-- The exit recorded (:567). -/
def recordExit (height : Int) (asset : Bytes) (txid : String) (x : Exit) : Run ExitRecord := do
  let p ← orThrow (pointFromCompressed L x.boundary.cSecp) typeError
  let record : ExitRecord := ⟨txid, x.exitVout, asset, (pointXY L p).1, (pointXY L p).2, height⟩
  modify fun st => modifyPending (fun b => { b with exits := b.exits ++ [record] })
    { st with exits := st.exits.set record.key record }
  return record

/-- The want recorded (:574). -/
def recordWant (txid : String) (w : Want) : Run WantRecord := do
  modify (modifyPending fun b => { b with wants := b.wants.insert (outKey txid w.vout) })
  return ⟨txid, w.vout, w.value⟩

/-- What is recorded if it is there. -/
def whenSome {α β : Type} (o : Option α) (m : α → Run β) : Run (Option β) :=
  match o with
  | none => pure none
  | some a => do
    let b ← m a
    return some b

/-- `acceptSpend` (:513). -/
def acceptSpend (env : Envelope) (ctx : Context) : Run Result := do
  let st ← get
  stopped (spendChecks L st env ctx) fun (b, s) => do
    let nfHex := s.nullifiers.map bytesToHex
    forEach nfHex (recordNullifier b.height ctx.txid)
    let leaves ← appendLeaves L b.height s.asset ctx.txid s.outputs
    let exit ← whenSome s.exit (recordExit L b.height s.asset ctx.txid)
    let want ← whenSome s.want (recordWant ctx.txid)
    return .spent nfHex leaves exit want

/-! ## The end of a block, and what undoes it -/

/-- What `endBlock` returns. -/
structure Delta where
  height : Int
  root : Bytes
  leaves : List LeafRecord
  nullifiers : List NullifierRecord
  exits : List ExitRecord
  pruned : List (Int × Bytes)

/-- `endBlock` (:583). -/
def endBlock : Run Delta := do
  let st ← get
  let b ← orThrow st.pending (.message "no open block")
  let root := st.tree.root L
  let roots := st.roots.set b.height root
  let pruned := roots.entries.filter fun r => r.1 < b.height + 1 - ANCHOR_WINDOW
  let undo := st.undo.set b.height ⟨b.leafStart, b.nullifiers.map NullifierRecord.nf, b.exits.map ExitRecord.key, pruned⟩
  let old := (undo.entries.map Prod.fst).filter fun h => h ≤ b.height - UNDO_DEPTH
  modify fun st => { st with
    roots := (pruned.map Prod.fst).foldl InsertionMap.delete roots
    undo := old.foldl InsertionMap.delete undo
    tip := some b.height
    pending := none }
  return ⟨b.height, root, b.leaves, b.nullifiers, b.exits, pruned⟩

/-- One block undone (:604). -/
def rollbackOne (h : Int) : Run Unit := do
  let st ← get
  let u ← orThrow (st.undo.get? h) typeError
  truncateTo L u.leafStart
  deleteAdded u.nullifiers u.exits
  modify fun st => { st with
    roots := u.pruned.foldl (fun roots r => roots.set r.1 r.2) (st.roots.delete h)
    undo := st.undo.delete h }

/-- `rollbackFrom` (:600). -/
def rollbackFrom (height : Int) : Run Unit := do
  abortBlock L
  let st ← get
  match st.tip with
  | none => pure ()
  | some tip =>
    if tip < height then pure ()
    else do
      let heights := (List.range (tip - height + 1).toNat).map fun i : Nat => tip - i
      forEach heights fun h => check (st.undo.has h = false) (.reorgTooDeep h)
      forEach heights (rollbackOne L)
      modify fun st => { st with tip := some (height - 1) }

/-! ## From persisted rows -/

structure LeafRow where
  leafIndex : Nat
  leaf : Bytes
  height : Int

structure Rows where
  tip : Option Int
  leaves : List LeafRow
  nullifiers : List NullifierRecord
  exits : List ExitRecord
  roots : List (Int × Bytes)

/-- `firstLeafAt` (:633), between `lo` and `hi`. -/
def firstLeafAt (heights : List Int) (h : Int) (lo hi : Nat) : Nat :=
  if lo < hi then
    let m := (lo + hi) / 2
    if heights.getD m 0 < h then firstLeafAt heights h (m + 1) hi else firstLeafAt heights h lo m
  else lo
termination_by hi - lo

/-- One row of the leaves (:624). -/
def restoreLeaf (r : Nat × LeafRow) : Run Unit := do
  check (r.2.leafIndex ≠ r.1) (.message ("leaf index gap at " ++ toString r.1))
  pushLeaf L r.2.leaf r.2.height

/-- The undo records (:645), from height `h` down. -/
def restoreUndo (r : Rows) (rootMap : InsertionMap Int Bytes) : Nat → Int → Run Unit
  | 0, _ => pure ()
  | n + 1, h =>
    if rootMap.has h = false then pure ()
    else do
      modify fun st => { st with undo := st.undo.set h {
        leafStart := firstLeafAt st.leafHeights h 0 st.leafHeights.length
        nullifiers := (r.nullifiers.filter fun n => n.height = h).map NullifierRecord.nf
        exits := (r.exits.filter fun x => x.height = h).map ExitRecord.key
        pruned := ((rootMap.get? (h - ANCHOR_WINDOW)).map fun root => (h - ANCHOR_WINDOW, root)).toList } }
      restoreUndo r rootMap n (h - 1)

/-- `restore` (:619), on a new state. -/
def restore (r : Rows) : Run Unit :=
  match r.tip with
  | none => pure ()
  | some tip => do
    modify fun st => { st with tip := some tip }
    let sorted := r.leaves.mergeSort fun a b => a.leafIndex ≤ b.leafIndex
    forEach ((List.range sorted.length).zip sorted) (restoreLeaf L)
    let rootMap := r.roots.foldl (fun m e => m.set e.1 e.2) InsertionMap.empty
    modify fun st => { st with
      nullifiers := r.nullifiers.foldl (fun m n => m.set n.nf n) st.nullifiers
      exits := r.exits.foldl (fun m x => m.set x.key x) st.exits
      roots := (rootMap.entries.filter fun e => tip + 1 - ANCHOR_WINDOW ≤ e.1 ∧ e.1 ≤ tip).foldl (fun m e => m.set e.1 e.2) st.roots }
    restoreUndo r rootMap UNDO_DEPTH.toNat tip

end

end Replay

end Tacit
