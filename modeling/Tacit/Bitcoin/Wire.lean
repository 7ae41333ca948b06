import Tacit.Lib.Grammar
import Tacit.Provenance.Blob
/-!
# The transaction walkers on raw bytes (bitcoin.rs:40-140, :596-630, :2337-2423, :2710-2733)

The functions as the guest runs them, over a slice with positions of 32 bits: an index out of bounds is a panic, `None` a
refusal. Beside them the format they walk, in which a count may be written longer than it needs to be.
-/
namespace Tacit.Wire

open Prog Cursor Format

/-- A prevout: txid and vout. -/
abbrev OutPoint := Octets 32 × U 32

structure TxIn where
  outpoint : OutPoint
  script : List UInt8
  sequence : U 32

/-- `(value_sats, scriptPubKey)`. -/
structure TxOut where
  value : U 64
  script : List UInt8
deriving DecidableEq

/-! ## The format -/

/-- The four widths of a count or a length. -/
inductive Varint : Format UInt8 Nat
  | one (b : UInt8) : b < 0xfd → Varint b.toNat [b]
  | two (l : List UInt8) : l.length = 2 → Varint (fromLe l) (0xfd :: l)
  | four (l : List UInt8) : l.length = 4 → Varint (fromLe l) (0xfe :: l)
  | eight (l : List UInt8) : l.length = 8 → fromLe l < 2 ^ 32 → Varint (fromLe l) (0xff :: l)

/-- A length, then the bytes. -/
def Sized : Format UInt8 (List UInt8) := fun b e => ∃ v, Varint b.length v ∧ e = v ++ b

/-- A count, then the elements. -/
def Counted {α : Type} (E : Format UInt8 α) : Format UInt8 (List α) := fun l e =>
  ∃ v e', Varint l.length v ∧ Many E l e' ∧ e = v ++ e'

def Prevout : Format UInt8 OutPoint := fun op e => e = op.1.val ++ toLe 4 op.2.val

def Input : Format UInt8 TxIn := fun i e =>
  ∃ op s, Prevout i.outpoint op ∧ Sized i.script s ∧ e = op ++ s ++ toLe 4 i.sequence.val

def Output : Format UInt8 TxOut := fun o e => ∃ s, Sized o.script s ∧ e = toLe 8 o.value.val ++ s

/-- The witness of one input. -/
def Stack : Format UInt8 (List (List UInt8)) := Counted Sized

/-- What lies between the version, or the flag, and the witness, or the locktime. -/
def Body (ins : List TxIn) (outs : List TxOut) (e : List UInt8) : Prop :=
  ∃ e₁ e₂, Counted Input ins e₁ ∧ Counted Output outs e₂ ∧ e = e₁ ++ e₂

/-! ## The walkers -/

/-- A walk over a transaction. -/
abbrev Walk := Prog (Cursor UInt8) Unit

/-- `read_varint` (:2710). -/
def readVarint (data : List UInt8) (pos : Nat) : Option (Option (Nat × Nat)) :=
  if pos ≥ data.length then some none
  else do
    let first ← data[pos]?
    if first < 0xfd then some (some (first.toNat, 1))
    else if first = 0xfd then
      if pos + 2 ≥ data.length then some none
      else (slice data (pos + 1) (pos + 3)).map fun b => some (fromLe b, 3)
    else if first = 0xfe then
      if pos + 4 ≥ data.length then some none
      else (slice data (pos + 1) (pos + 5)).map fun b => some (fromLe b, 5)
    else
      if pos + 8 ≥ data.length then some none
      else (slice data (pos + 1) (pos + 9)).map fun b => if fromLe b ≥ 2 ^ 32 then none else some (fromLe b, 9)

/-- `let (v, vi) = read_varint(tx, pos)?; pos = pos.checked_add(vi)?`. -/
def varint : Walk Nat := do
  let c ← get
  let r ← orPanic (readVarint c.buf c.pos)
  let (v, viLen) ← orThrow r ()
  advance (2 ^ 32) viLen
  return v

/-- The same where zero is refused. -/
def nonzeroVarint : Walk Nat := do
  let n ← varint
  check (n = 0) ()
  return n

/-- A script or a witness item, skipped. -/
def skipSized : Walk Unit := do
  let n ← varint
  advance (2 ^ 32) n

def skipInput : Walk Unit := do
  advance (2 ^ 32) 36
  skipSized
  advance (2 ^ 32) 4

def skipOutput : Walk Unit := do
  advance (2 ^ 32) 8
  skipSized

/-- A count and `for _ in 0..count { .. }`; the count. -/
def skipCounted (count : Walk Nat) (skip : Walk Unit) : Walk Nat := do
  let n ← count
  let _ ← readN skip n
  return n

def skipStack : Walk Unit := do
  let _ ← skipCounted varint skipSized
  return

/-- A script, sliced out. -/
def readSized : Walk (List UInt8) := do
  let n ← varint
  takeWithin (2 ^ 32) n

def octets (n : Nat) (l : List UInt8) : Option (Octets n) := if h : l.length = n then some ⟨l, h⟩ else none

def readPrevout : Walk OutPoint := do
  let c ← get
  let outpointEnd ← orThrow (checkedAdd (2 ^ 32) c.pos 36) ()
  check (outpointEnd > c.buf.length) ()
  let txid ← orPanic ((slice c.buf c.pos (c.pos + 32)).bind (octets 32))
  let vout ← orPanic (slice c.buf (c.pos + 32) (c.pos + 36))
  seek outpointEnd
  return (txid, U.wrap 32 (fromLe vout))

def readInput : Walk OutPoint := do
  let op ← readPrevout
  skipSized
  advance (2 ^ 32) 4
  return op

def readOutput : Walk TxOut := do
  let value ← takeWithin (2 ^ 32) 8
  let script ← readSized
  return ⟨U.wrap 64 (fromLe value), script⟩

/-- `tx.len() > 5 && tx[4] == 0x00 && tx[5] == 0x01`. -/
def isSegwit (tx : List UInt8) : Option Bool :=
  if tx.length > 5 then do if (← tx[4]?) = 0x00 then (tx[5]?).map (· == 0x01) else some false
  else some false

/-- The same with the tests in the order of `extract_inputs`. -/
def hasMarker (tx : List UInt8) : Option Bool := do
  if (← tx[4]?) = 0x00 then
    if tx.length ≥ 6 then (tx[5]?).map (· == 0x01) else some false
  else some false

/-- Where the inputs begin. -/
def inputsAt (segwit : Bool) : Nat := if segwit then 6 else 4

/-- `extract_inputs` (:2337). -/
def extractInputs (tx : List UInt8) : Option (Option (List OutPoint)) :=
  if tx.length < 5 then some none
  else do
    let segwit ← hasMarker tx
    runFrom (inputsAt segwit) (nonzeroVarint >>= readN readInput) tx

/-- `extract_outputs` (:2387). -/
def extractOutputs (tx : List UInt8) : Option (Option (List TxOut)) :=
  if tx.length < 5 then some none
  else do
    let segwit ← hasMarker tx
    runFrom (inputsAt segwit) (skipCounted nonzeroVarint skipInput >>= fun _ => varint >>= readN readOutput) tx

/-- The loop of `parse_tx_output`: the output `vout` of `n` from the `i`-th. -/
def outputAt (vout : Nat) : Nat → Nat → Walk TxOut
  | _, 0 => throw ()
  | i, n + 1 => do
    let o ← readOutput
    if i = vout then return o else outputAt vout (i + 1) n

/-- `parse_tx_output` (:596), with its inputs and then its outputs. -/
def parseTxOutput (tx : List UInt8) (vout : U 32) : Option (Option TxOut) :=
  if tx.length < 4 then some none
  else do
    let segwit ← isSegwit tx
    runFrom (inputsAt segwit) (skipCounted varint skipInput >>= fun _ => do
      let outputCount ← varint
      check (vout.val ≥ outputCount) ()
      outputAt vout.val 0 outputCount) tx

/-- The inputs and the outputs, neither empty; the number of inputs. -/
def skipBody : Walk Nat := do
  let inputCount ← skipCounted nonzeroVarint skipInput
  let _ ← skipCounted nonzeroVarint skipOutput
  return inputCount

/-- `nonwitness_tx_exact_len` (:40). -/
def nonwitnessTxExactLen (tx : List UInt8) : Option Bool :=
  if tx.length < 4 then some false
  else (runFrom 4 (skipBody >>= fun _ => advance (2 ^ 32) 4 >>= fun _ => get) tx).map fun r =>
    r.any fun c => c.pos == tx.length

/-- 64 bytes that do not parse: they may be a node of a Merkle tree. -/
def looksMerged (tx : List UInt8) : Option Bool :=
  if tx.length = 64 then (nonwitnessTxExactLen tx).map (!·) else some false

/-- The segwit branch of `compute_txid`: the transaction without its witness. -/
def stripWitness : Walk (List UInt8) := do
  let start ← get
  let version ← orPanic (slice start.buf 0 4)
  let inputCount ← skipBody
  let outputsEnd ← get
  let _ ← readN skipStack inputCount
  let c ← get
  check (outputsEnd.pos > c.buf.length) ()
  let stop ← orThrow (checkedAdd (2 ^ 32) c.pos 4) ()
  check (stop ≠ c.buf.length) ()
  let locktime ← orPanic (slice c.buf c.pos (c.pos + 4))
  let body ← orPanic (slice c.buf start.pos outputsEnd.pos)
  let merged ← orPanic (looksMerged (version ++ body ++ locktime))
  check (merged = true) ()
  return version ++ body ++ locktime

/-- What `compute_txid` (:75) hashes. -/
def strippedTx (tx : List UInt8) : Option (Option (List UInt8)) := do
  if ← isSegwit tx then runFrom 6 stripWitness tx
  else return if ← looksMerged tx then none else some tx

/-- `compute_txid` (:75). -/
def computeTxid (dsha256 : List UInt8 → Octets 32) (tx : List UInt8) : Option (Option (Octets 32)) :=
  (strippedTx tx).map (Option.map dsha256)

end Tacit.Wire
