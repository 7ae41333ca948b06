import Tacit.Lib.PairedTree
import Tacit.Relay.State
/-!
# Transactions and blocks, as bytes (bitcoin.rs :20-:183, :222-:297, :2139-:2246, :2708-:2733)

The parsers walk a transaction by position; a position that does not fit a `usize` of the 32-bit guest is a refusal. What
`compute_txid` hashes is the transaction without its witness (`strippedTx`).
-/
namespace Tacit

namespace Bitcoin

/-- `usize::checked_add` on the RV32 guest. -/
def checkedAdd (a b : Nat) : Option Nat := if a + b < 2 ^ 32 then some (a + b) else none

/-- `read_varint` on the bytes from `pos` (:2710): the value and the length. A longer form of a small value is taken. -/
def varint : Bytes → Option (Nat × Nat)
  | [] => none
  | first :: rest =>
    if first < 0xfd then some (first, 1)
    else if first = 0xfd then
      if rest.length < 2 then none else some (leNat (rest.take 2), 3)
    else if first = 0xfe then
      if rest.length < 4 then none else some (leNat (rest.take 4), 5)
    else if rest.length < 8 then none
    else
      let val := leNat (rest.take 8)
      if 2 ^ 32 ≤ val then none else some (val, 9)

/-- `read_varint` (:2710). -/
def readVarint (data : Bytes) (pos : Nat) : Option (Nat × Nat) := varint (data.drop pos)

/-- One input: prevout, script and sequence. -/
def skipInput (tx : Bytes) (pos : Nat) : Option Nat := do
  let pos ← checkedAdd pos 36
  let (scriptLen, viLen) ← readVarint tx pos
  let pos ← checkedAdd pos viLen
  let pos ← checkedAdd pos scriptLen
  checkedAdd pos 4

/-- One output: value and script. -/
def skipOutput (tx : Bytes) (pos : Nat) : Option Nat := do
  let pos ← checkedAdd pos 8
  let (scriptLen, viLen) ← readVarint tx pos
  let pos ← checkedAdd pos viLen
  checkedAdd pos scriptLen

/-- One witness item. -/
def skipItem (tx : Bytes) (pos : Nat) : Option Nat := do
  let (itemLen, viLen) ← readVarint tx pos
  let pos ← checkedAdd pos viLen
  checkedAdd pos itemLen

/-- `for _ in 0..count { pos = step(pos)? }`. -/
def skipMany (step : Nat → Option Nat) : Nat → Nat → Option Nat
  | 0, pos => some pos
  | count + 1, pos => step pos >>= skipMany step count

/-- The witness of one input. -/
def skipWitness (tx : Bytes) (pos : Nat) : Option Nat := do
  let (witCount, viLen) ← readVarint tx pos
  let pos ← checkedAdd pos viLen
  skipMany (skipItem tx) witCount pos

/-- The inputs from `pos`, and then the outputs, neither empty; the number of inputs and the end. -/
def skipBody (tx : Bytes) (pos : Nat) : Option (Nat × Nat) := do
  let (inputCount, viLen) ← readVarint tx pos
  guard (inputCount ≠ 0)
  let pos ← checkedAdd pos viLen
  let pos ← skipMany (skipInput tx) inputCount pos
  let (outputCount, viLen) ← readVarint tx pos
  guard (outputCount ≠ 0)
  let pos ← checkedAdd pos viLen
  let pos ← skipMany (skipOutput tx) outputCount pos
  return (inputCount, pos)

/-- `nonwitness_tx_exact_len` (:40). -/
def nonwitnessTxExactLen (tx : Bytes) : Bool :=
  4 ≤ tx.length && ((skipBody tx 4).bind fun p => checkedAdd p.2 4) == some tx.length

/-- The marker and the flag. -/
def isSegwit (tx : Bytes) : Bool := 5 < tx.length && tx[4]? == some 0x00 && tx[5]? == some 0x01

/-- What `compute_txid` (:75) hashes. -/
def strippedTx (tx : Bytes) : Option Bytes :=
  if tx.length = 64 ∧ isSegwit tx = false ∧ nonwitnessTxExactLen tx = false then none
  else if isSegwit tx = false then some tx
  else do
    let version := tx.take 4
    let (inputCount, outputsEnd) ← skipBody tx 6
    let pos ← skipMany (skipWitness tx) inputCount outputsEnd
    let stop ← checkedAdd pos 4
    guard (outputsEnd ≤ tx.length ∧ stop = tx.length)
    let locktime := (tx.drop pos).take 4
    let stripped := version ++ (tx.drop 6).take (outputsEnd - 6) ++ locktime
    guard (stripped.length ≠ 64 ∨ nonwitnessTxExactLen stripped)
    return stripped

/-- `is_coinbase` (:150): one input, of the null outpoint. -/
def isCoinbase (tx : Bytes) : Bool :=
  4 ≤ tx.length &&
    match readVarint tx (if isSegwit tx then 6 else 4) with
    | none => false
    | some (inCount, vi) =>
      let pos := (if isSegwit tx then 6 else 4) + vi
      inCount == 1 && decide (pos + 36 ≤ tx.length) && (tx.drop pos).take 32 == List.replicate 32 0 &&
        (tx.drop (pos + 32)).take 4 == List.replicate 4 0xff

/-! ## The coinbase's commitment -/

/-- `6a24aa21a9ed ‖ <32 bytes>` at the start of a script. -/
def commitmentOf (script : Bytes) : Option Word :=
  if 38 ≤ script.length ∧ script.take 6 = [0x6a, 0x24, 0xaa, 0x21, 0xa9, 0xed] then
    some (Word.ofBytes ((script.drop 6).take 32))
  else none

/-- The loop over the outputs: the position, and the last commitment so far. -/
def scanOutputs (tx : Bytes) : Nat → Nat × Option Word → Option (Nat × Option Word)
  | 0, s => some s
  | count + 1, (pos, commitment) => do
    let pos ← checkedAdd pos 8
    let (slen, vl) ← readVarint tx pos
    let pos ← checkedAdd pos vl
    let stop ← checkedAdd pos slen
    guard (stop ≤ tx.length)
    let script := (tx.drop pos).take slen
    scanOutputs tx count (stop, (commitmentOf script).or commitment)

/-- The outputs after the inputs from `pos`. -/
def scanCoinbase (tx : Bytes) (pos : Nat) : Option (Nat × Option Word) := do
  let (inCount, vl) ← readVarint tx pos
  let pos ← checkedAdd pos vl
  let pos ← skipMany (skipInput tx) inCount pos
  let (outCount, vl) ← readVarint tx pos
  let pos ← checkedAdd pos vl
  scanOutputs tx outCount (pos, none)

/-- `parse_coinbase_commitment` (:2176): the commitment and the reserved value. -/
def parseCoinbaseCommitment (tx : Bytes) : Option (Word × Word) := do
  guard (isSegwit tx)
  let (pos, commitment) ← scanCoinbase tx 6
  let commitment ← commitment
  let (witCount, vl) ← readVarint tx pos
  let pos ← checkedAdd pos vl
  guard (witCount = 1)
  let (itemLen, vl) ← readVarint tx pos
  let pos ← checkedAdd pos vl
  guard (itemLen = 32)
  let stop ← checkedAdd pos 32
  guard (stop ≤ tx.length)
  return (commitment, Word.ofBytes ((tx.drop pos).take 32))

/-- `parse_coinbase_commitment_output` (:2219). -/
def parseCoinbaseCommitmentOutput (tx : Bytes) : Option Word := do
  guard (4 ≤ tx.length)
  let (_, commitment) ← scanCoinbase tx (if isSegwit tx then 6 else 4)
  commitment

/-! ## Blocks -/

variable (dsha256 : Bytes → Word)

/-- `compute_txid` (:75). -/
def computeTxid (tx : Bytes) : Option Word := (strippedTx tx).map dsha256

/-- The hash of two nodes. -/
def merkleNode (l r : Word) : Word := dsha256 (l.bytes ++ r.bytes)

/-- `compute_merkle_root` (:222). -/
def computeMerkleRoot (txids : List Word) : Word := (PairedTree.root (merkleNode dsha256) txids).getD 0

/-- `compute_merkle_root_checked` (:249). -/
def computeMerkleRootChecked (txids : List Word) : Option Word :=
  if txids = [] then some 0 else PairedTree.rootDistinct (merkleNode dsha256) txids

/-- `verify_merkle_path` (:282). -/
def verifyMerklePath (txid : Word) (siblings : List Word) (index : Nat) : Word :=
  Merkle.rootFrom (merkleNode dsha256) txid index siblings

/-- `verify_witness_commitment` (:2139). -/
def verifyWitnessCommitment (txs : List Bytes) : Option Bool := do
  let coinbase ← txs.head?
  let outCommitment ← parseCoinbaseCommitmentOutput coinbase
  match parseCoinbaseCommitment coinbase with
  | none => some false
  | some (commitment, reserved) =>
    if commitment ≠ outCommitment then some false
    else
      let wtxids := 0 :: txs.tail.map dsha256
      match computeMerkleRootChecked dsha256 wtxids with
      | none => some false
      | some witnessRoot => some (merkleNode dsha256 witnessRoot reserved == commitment)

/-- The checks on a block's body (reflect.rs :1093-:1129): a panic, or whether the witnesses are committed. -/
def checkBlock (merkleRoot : Word) (txs : List Bytes) : Option Bool := do
  let txids ← txs.mapM (computeTxid dsha256)
  guard (computeMerkleRootChecked dsha256 txids = some merkleRoot)
  let coinbase ← txs.head?
  guard (isCoinbase coinbase)
  guard (∀ t ∈ txs.tail, isCoinbase t = false)
  match verifyWitnessCommitment dsha256 txs with
  | some true => some true
  | some false => none
  | none => some false

end Bitcoin

end Tacit
