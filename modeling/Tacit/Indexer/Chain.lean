import Tacit.Lib.PairedTree
import Tacit.Lib.Reader
import Tacit.Relay.State
/-!
# The indexer's blocks (worker-relay/src/lib/btc-pool-chain.js)

`parseBlock` reads the raw block that an untrusted source hands back, against the hash the indexer asked for. A read past the end
of the buffer is `undefined`, which counts as zero in the shorter counts; every position so passed is refused by the next `need`.
Hashes are kept in the order of their bytes, where the source shows them as reversed hex.
-/
namespace Tacit

namespace Indexer

open Prog

abbrev Parser := Reader Nat String

/-- `Number.MAX_SAFE_INTEGER + 1`. -/
def unsafeInteger : Nat := 2 ^ 53

/-- `varint` (:8): the value and its length. -/
def varint (d : Bytes) (p : Nat) : Except String (Nat × Nat) :=
  match d.drop p with
  | [] => .error "truncated varint"
  | f :: rest =>
    if f < 0xfd then .ok (f, 1)
    else if f = 0xfd then .ok (leNat (rest.take 2), 3)
    else if f = 0xfe then .ok (leNat (rest.take 4), 5)
    else if 8 ≤ rest.length ∧ leNat (rest.take 8) < unsafeInteger then .ok (leNat (rest.take 8), 9)
    else .error "varint too large"

/-- `[n, l] = varint(d, p); p += l`. -/
def readVarint : Parser Nat := fun c => do
  let (n, l) ← varint c.buf c.pos
  return (n, c.skip l)

/-- `need` (:19). -/
def need (n : Nat) : Parser Unit := Reader.require n "truncated"

/-! ## Transactions -/

structure TxIn where
  txid : Bytes
  vout : Nat
  witness : List Bytes
deriving DecidableEq

structure TxOut where
  value : Nat
  scriptPubKey : Bytes
deriving DecidableEq

/-- What `parseTx` returns of a transaction. -/
structure Tx where
  txid : Word
  vin : List TxIn
  vout : List TxOut
  segwit : Bool
  wtxid : Option Word

/-- One input (:31), its script and its sequence skipped. -/
def input : Parser TxIn := do
  need 36
  let txid ← Reader.view 32
  let vout ← Reader.view 4
  let sl ← readVarint
  need (sl + 4)
  Reader.pass (sl + 4)
  return ⟨txid, leNat vout, []⟩

/-- A length, and a view of as many bytes: a script (:50) or a witness item (:57). -/
def sized : Parser Bytes := do
  let l ← readVarint
  need l
  Reader.view l

/-- One output (:43). -/
def output : Parser TxOut := do
  need 8
  let value ← Reader.view 8
  let scriptPubKey ← sized
  return ⟨leNat value, scriptPubKey⟩

/-- A count, and as many elements. -/
def counted {α : Type} (m : Parser α) : Parser (List α) := do
  let n ← readVarint
  Reader.readN m n

/-- The inputs and the outputs. -/
def inputsOutputs : Parser (List TxIn × List TxOut) := do
  let vin ← counted input
  let vout ← counted output
  return (vin, vout)

/-- The parts of a transaction that `parseTx` cuts out of the buffer. -/
structure Fields where
  version : Bytes
  segwit : Bool
  vin : List TxIn
  vout : List TxOut
  /-- `d.subarray(start + 6, outEnd)`, from `start + 4` without the marker. -/
  body : Bytes
  locktime : Bytes

/-- The inputs with the items pushed to them (:54). -/
def withWitness (vin : List TxIn) (witnesses : List (List Bytes)) : List TxIn :=
  List.zipWith (fun i w => { i with witness := w }) vin witnesses

/-- `parseTx` from behind the marker, or from where there is none. -/
def fieldsFrom (version : Bytes) (segwit : Bool) : Parser Fields := do
  let r ← Reader.spanned inputsOutputs
  let witnesses ← if segwit then Reader.readN (counted sized) r.1.1.length else pure (r.1.1.map TxIn.witness)
  let vin := withWitness r.1.1 witnesses
  Reader.refuse (segwit = true ∧ ∀ i ∈ vin, i.witness = []) "superfluous witness marker"
  need 4
  let locktime ← Reader.view 4
  return ⟨version, segwit, vin, r.1.2, r.2, locktime⟩

/-- `parseTx` (:22), before it hashes: the parts, and the whole span. -/
def fields : Parser (Fields × Bytes) := Reader.spanned do
  need 4
  let version ← Reader.view 4
  Reader.ifNext [0x00, 0x01] (fieldsFrom version true) (fieldsFrom version false)

section

variable (sha256d : Bytes → Word)

/-- What is hashed to the txid (:66). -/
def Fields.stripped (f : Fields) (raw : Bytes) : Bytes := if f.segwit then f.version ++ f.body ++ f.locktime else raw

def Fields.tx (f : Fields) (raw : Bytes) : Tx :=
  ⟨sha256d (f.stripped raw), f.vin, f.vout, f.segwit, if f.segwit then some (sha256d raw) else none⟩

/-- `parseTx` (:22). -/
def parseTx : Parser Tx := do
  let r ← fields
  return r.1.tx sha256d r.2

/-! ## The Merkle trees -/

/-- `sha256d(concat(level[i], level[i + 1] || level[i]))`. -/
def merkleNode (l r : Word) : Word := sha256d (l.bytes ++ r.bytes)

/-- Two equal siblings on a level. -/
def twins : List Word → Bool
  | a :: b :: l => a == b || twins l
  | _ => false

/-- The loop of `merkleRoot` (:80). -/
def merkleLoop (level : List Word) (mutated : Bool) : Option Word × Bool :=
  if 1 < level.length then merkleLoop (PairedTree.pairUp (merkleNode sha256d) level) (mutated || twins level)
  else (level.head?, mutated)
termination_by level.length
decreasing_by
  rw [PairedTree.pairUp_length]
  omega

/-- `merkleRoot` (:76): the root, and whether it is mutated. -/
def merkleRoot (txids : List Word) : Except String (Word × Bool) :=
  match merkleLoop sha256d txids false with
  | (some root, mutated) => .ok (root, mutated)
  | (none, _) => .error "empty block"

/-- The last output with the commitment prefix (:97). -/
def commitment (vout : List TxOut) : Option Bytes :=
  vout.foldl (fun commit o =>
    if 38 ≤ o.scriptPubKey.length ∧ o.scriptPubKey.take 6 = [0x6a, 0x24, 0xaa, 0x21, 0xa9, 0xed] then
      some ((o.scriptPubKey.drop 6).take 32)
    else commit) none

/-- The leaves of the witness tree (:107). -/
def witnessLeaves (rest : List Tx) : List Word := 0 :: rest.map fun t => t.wtxid.getD t.txid

/-- The coinbase's only witness item, of 32 bytes (:105). -/
def reserved (cb : Tx) : Option Bytes :=
  match cb.vin with
  | [i] =>
    match i.witness with
    | [w] => if w.length = 32 then some w else none
    | _ => none
  | _ => none

/-- `checkWitnessCommitment` (:94). -/
def checkWitnessCommitment (cb : Tx) (rest : List Tx) : Except String Unit :=
  match commitment cb.vout with
  | none => refuse (∃ t ∈ cb :: rest, t.segwit = true) "witness data without a witness commitment"
  | some commit => do
    let w ← Prog.need (reserved cb) "coinbase witness reserved value missing"
    let r ← merkleRoot sha256d (witnessLeaves rest)
    refuse ((sha256d (r.1.bytes ++ w)).bytes ≠ commit) "witness commitment mismatch"

/-! ## Blocks -/

/-- What `parseHeader` returns. -/
structure Header where
  hash : Word
  prevHash : Bytes
  time : Nat
  bits : Nat

/-- `parseHeader` (:154). -/
def parseHeader (h : Bytes) : Except String Header :=
  if h.length ≠ 80 then .error "header must be 80 bytes"
  else .ok ⟨sha256d h, (h.drop 4).take 32, leNat ((h.drop 68).take 4), leNat ((h.drop 72).take 4)⟩

/-- What `parseBlock` returns. -/
structure Block where
  header : Header
  raw : Bytes
  txs : List Tx

/-- `isCoinbase` (:193). -/
def isCoinbase (tx : Tx) : Bool :=
  match tx.vin with
  | [i] => i.txid == List.replicate 32 0 && i.vout == 0xffffffff
  | _ => false

/-- `bytesToHex`. -/
def bytesToHex (b : Bytes) : String := String.ofList (b.flatMap fun x => [Nat.digitChar (x / 16), Nat.digitChar (x % 16)])

def hashMismatch (hash expectHash : Word) : String :=
  "block hash " ++ bytesToHex hash.bytes.reverse ++ " != expected " ++ bytesToHex expectHash.bytes.reverse

/-- The loop over the transactions (:176). -/
def transactions : Parser (List Tx) := counted (parseTx sha256d)

/-- `parseBlock` (:167). -/
def parseBlock (raw : Bytes) (expectHash : Option Word) : Except String Block := do
  refuse (raw.length < 81) "block too short"
  let header ← parseHeader sha256d (raw.take 80)
  refuse (∃ h ∈ expectHash, header.hash ≠ h) (hashMismatch header.hash (expectHash.getD 0))
  let (txs, c) ← transactions sha256d ⟨raw, 80⟩
  refuse (c.pos ≠ raw.length) "trailing bytes after last tx"
  let cb ← Prog.need txs.head? "first transaction is not a coinbase"
  refuse (isCoinbase cb = false) "first transaction is not a coinbase"
  refuse (∃ t ∈ txs.tail, isCoinbase t = true) "more than one coinbase"
  refuse (¬(txs.map Tx.txid).Nodup) "duplicate transaction"
  let mr ← merkleRoot sha256d (txs.map Tx.txid)
  refuse (mr.2 = true) "mutated merkle tree"
  refuse (mr.1.bytes ≠ ((raw.take 80).drop 36).take 32) "merkle root mismatch"
  checkWitnessCommitment sha256d cb txs.tail
  return ⟨header, raw.take 80, txs⟩

end

/-! ## Envelopes -/

/-- The pushes of an envelope, up to its `OP_ENDIF` (:209); every step reads a byte. -/
def pushes : Nat → Bytes → Option (List Bytes)
  | 0, _ => none
  | _ + 1, [] => none
  | fuel + 1, op :: rest =>
    if op = 0x68 then if rest = [] then some [] else none
    else do
      let (ln, rest) ←
        if 1 ≤ op ∧ op ≤ 75 then some (op, rest)
        else if op = 0x4c then if rest.length < 1 then none else some (leNat (rest.take 1), rest.drop 1)
        else if op = 0x4d then if rest.length < 2 then none else some (leNat (rest.take 2), rest.drop 2)
        else if op = 0x00 then some (0, rest)
        else none
      if rest.length < ln then none
      else do
        let more ← pushes fuel (rest.drop ln)
        return rest.take ln :: more

/-- `decodeEnvelopeScript` (:199): the payload. -/
def decodeEnvelopeScript (script : Bytes) : Option Bytes :=
  if script.length < 36 ∨ script.headD 0 ≠ 32 ∨ (script.drop 33).take 3 ≠ [0xac, 0x00, 0x63] then none
  else do
    let p ← pushes script.length (script.drop 36)
    match p with
    | magic :: version :: payload =>
      if magic = ascii "TACIT" ∧ version = [0x01] ∧ payload.flatten ≠ [] then some payload.flatten else none
    | _ => none

/-- `inputEnvelope` (:228). -/
def inputEnvelope (vin : TxIn) : Option Bytes :=
  if vin.witness.length < 3 then none else decodeEnvelopeScript (vin.witness.getD 1 [])

/-- `txEnvelopes` (:239). -/
def txEnvelopes (tx : Tx) : List (Option Bytes) := tx.vin.map inputEnvelope

end Indexer

end Tacit
