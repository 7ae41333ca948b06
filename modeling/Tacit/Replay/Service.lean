import Tacit.Replay.Restoring
/-!
# The indexer (worker-relay/src/btc-pool-indexer.js)

The state in memory and the tables, changed together: a block is replayed and then committed, a rollback is made on both, and what one
of them refuses is taken back on the other. `io` is the error of a transaction that the database refuses; the source, its checks of a
header and what a block's carriers are answered are one record (`Source`). `headers`, `halted` and the scan ahead of the tip are not
here.
-/
namespace Tacit

namespace Replay

open Prog

structure Replica where
  state : BtcPoolState
  db : Tables

abbrev Service := Prog Replica Error

def onState {α : Type} (m : Run α) : Service α := zoom Replica.state (fun st r => { r with state := st }) m

def onTables {α : Type} (m : Prog Tables Error α) : Service α := zoom Replica.db (fun db r => { r with db := db }) m

section

variable {P : Type} (L : Library P)

/-- `self.state = BtcPoolState.restore(store.snapshot())`, the rows in the order in which `read` returns them. -/
def reload (read : Tables → Rows) : Service Unit := fun r =>
  match restore L (read r.db) .new with
  | .ok () st => .ok () { r with state := st }
  | .err e _ => .err e r
  | .panic => .panic

/-- `rescan` (:126). -/
def rescan (io : Option Error) : Service Unit := do
  onTables (Tables.wipe io)
  modify fun r => { r with state := .new }

/-- `rollback` (:133). -/
def rollback (io : Option Error) (read : Tables → Rows) (height : Int) : Service Unit := do
  match (← (attempt (onState (rollbackFrom L height)) : Service (Except Error Unit))) with
  | .error (.reorgTooDeep _) => rescan io
  | .error e => throw e
  | .ok _ => onThrow (onTables (Tables.rollbackFrom io height)) (reload L read)

/-- The loop of `findFork` (:147), `n` heights down from `h`. -/
def findForkFrom (chainTip : Int) (blockHash : Int → Except Error Word) (db : Tables) : Nat → Int → Except Error (Option Int)
  | 0, _ => .ok none
  | n + 1, h =>
    match db.block h with
    | none => .ok none
    | some b =>
      if h ≤ chainTip then do
        let hash ← blockHash h
        if hash = b.hash then return some (h + 1) else findForkFrom chainTip blockHash db n (h - 1)
      else findForkFrom chainTip blockHash db n (h - 1)

/-- `findFork` (:145). -/
def findFork (start chainTip : Int) (blockHash : Int → Except Error Word) (db : Tables) (tip : Int) : Except Error (Option Int) :=
  findForkFrom chainTip blockHash db (tip - max start (tip - UNDO_DEPTH + 1) + 1).toNat tip

/-- `local && (await esplora.blockHash(at)) === local.hash` (:161). -/
def sameBlock (blockHash : Int → Except Error Word) (db : Tables) (h : Int) : Except Error Bool :=
  match db.block h with
  | none => .ok false
  | some b => (blockHash h).map fun hash => decide (hash = b.hash)

/-- `checkReorg` (:156). -/
def checkReorg (start chainTip : Int) (blockHash : Int → Except Error Word) (io : Option Error) (read : Tables → Rows) :
    Service Unit := do
  let r ← get
  match r.state.tip with
  | none => pure ()
  | some tip =>
    if chainTip < start then pure ()
    else do
      let same ← ofExcept (sameBlock blockHash r.db (min tip chainTip))
      if same then pure ()
      else do
        let fork ← ofExcept (findFork start chainTip blockHash r.db tip)
        match fork with
        | none => rescan io
        | some fork => rollback L io read fork

end

section

variable {P : Type} [AddCommGroup P] [DecidableEq P] (L : Library P)

/-- A block of the source, and what its carriers are answered. -/
structure Work where
  answers : Answers
  block : Indexer.Block

/-- `processBlock` (:167). -/
def processBlock (w : Work) (io : Option Error) (height : Int) : Service Unit := do
  onState (beginBlock height)
  let (delta, envelopes) ← onThrow (onState (applyBlock L w.answers w.block.txs)) (onState (abortBlock L))
  onThrow (onTables (commitBlock io delta w.block.header.hash envelopes)) (onState (rollbackFrom L height))

/-- A block replayed on a state: the rows that its commit inserts. -/
def replayOne (w : Work) (height : Int) : Run Entry := do
  beginBlock height
  let (delta, envelopes) ← applyBlock L w.answers w.block.txs
  return Entry.of delta w.block.header.hash envelopes

/-- A replay from height `h` on that sees no reorg and no restart. -/
def replayAll : Int → List Work → Run (List Entry)
  | _, [] => pure []
  | h, w :: ws => do
    let e ← replayOne L w h
    let rest ← replayAll (h + 1) ws
    return e :: rest

/-- What a pass is answered. -/
structure Source where
  tipHeight : Except Error Int
  blockHash : Int → Except Error Word
  rawBlock : Word → Except Error Bytes
  checkHeader : Int → Indexer.Header → Except Error Unit
  answers : Int → Answers
  commits : Int → Option Error

/-- `prev && prev.hash === block.prevHash` (:241). -/
def extendsTip (db : Tables) (height : Int) (header : Indexer.Header) : Prop :=
  ∃ b ∈ db.block (height - 1), b.hash.bytes = header.prevHash

instance (db : Tables) (height : Int) (header : Indexer.Header) : Decidable (extendsTip db height header) :=
  match h : db.block (height - 1) with
  | none => isFalse fun ⟨_, hb, _⟩ => by rw [h] at hb; cases hb
  | some b => decidable_of_iff (b.hash.bytes = header.prevHash) ⟨fun he => ⟨b, h, he⟩, fun ⟨b', hb, he⟩ => by
      rw [h] at hb; cases hb; exact he⟩

/-- The loop of `syncOnce` (:236), of at most `n` blocks from `h` on. -/
def replayBlocks (sha256d : Bytes → Word) (S : Source) (start : Int) : Nat → Int → Service Unit
  | 0, _ => pure ()
  | n + 1, h => do
    let hash ← ofExcept (S.blockHash h)
    let raw ← ofExcept (S.rawBlock hash)
    let block ← ofExcept ((Indexer.parseBlock sha256d raw (some hash)).mapError Error.message)
    let r ← get
    if start < h ∧ ¬extendsTip r.db h block.header then pure ()
    else do
      ofExcept (S.checkHeader h block.header)
      processBlock L ⟨S.answers h, block⟩ (S.commits h) h
      replayBlocks sha256d S start n (h + 1)

/-- The height of the next block. -/
def nextHeight (start : Int) (st : BtcPoolState) : Int := (st.tip.map (· + 1)).getD start

/-- `syncOnce` (:231); `maxBlocks` may be infinite. -/
def syncOnce (sha256d : Bytes → Word) (S : Source) (start confirmations : Int) (maxBlocks : Option Nat) (io : Option Error)
    (read : Tables → Rows) : Service Unit := do
  let chainTip ← ofExcept S.tipHeight
  checkReorg L start chainTip S.blockHash io read
  let r ← get
  let h := nextHeight start r.state
  let count := (chainTip - confirmations + 1 - h + 1).toNat
  replayBlocks L sha256d S start (maxBlocks.elim count (min count)) h

end

end Replay

end Tacit
