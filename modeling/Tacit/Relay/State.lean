import Mathlib.Data.List.Sort
import Tacit.Evm
/-!
# The Bitcoin light relay (contracts/src/lib/BitcoinLightRelay.sol)

The storage and the three calls that write it: `genesis`, `seedAnchorHistory`, `advanceTip`. The six
per-block mappings are one mapping of records. `dsha256` is a parameter; a header is its 80 raw bytes.
`verifyBlock` is left out: it only reads, and the pool never calls it.
-/
namespace Tacit

open Prog

/-! ## Headers and targets -/

/-- A little-endian number. -/
def leNat : Bytes → Nat
  | [] => 0
  | b :: t => b + 256 * leNat t

/-- `_parseHeader` (:388), the three fields `advanceTip` reads. -/
def prevBlock (h : Bytes) : Word := Word.ofBytes ((h.drop 4).take 32)

def headerTime (h : Bytes) : Nat := leNat ((h.drop 68).take 4)

def headerBits (h : Bytes) : Nat := leNat ((h.drop 72).take 4)

def epochLength : Nat := 2016

def targetTimespan : Nat := 14 * 24 * 60 * 60

inductive RelayError
  | invalidPoW
  | unauthorized
  | unknownEpoch
  | invalidAnchor
  | invalidTarget
  | unknownParent
  | notInitialized
  | chainNotAnchored
  | invalidTimestamp
  | alreadyInitialized
  | invalidChainLength
  | invalidHeaderChain
  | arithmetic
deriving DecidableEq

/-- `_bitsToTarget` (:417). -/
def bitsToTarget (maxTarget bits : Nat) : Except RelayError Nat := do
  refuse (bits &&& 0x00800000 ≠ 0) .invalidTarget
  let exp := bits >>> 24
  let mantissa := bits &&& 0x7fffff
  refuse (mantissa = 0) .invalidTarget
  refuse (3 < exp ∧ 32 < exp) .invalidPoW
  let target := if exp ≤ 3 then mantissa >>> (8 * (3 - exp)) else mantissa <<< (8 * (exp - 3))
  refuse (target = 0 ∨ maxTarget < target) .invalidTarget
  return target

/-- The `while (t > 0)` loop of `_targetToCompact`: a `uint256` has at most 32 bytes. -/
def byteSize : Nat → Nat → Nat
  | 0, _ => 0
  | fuel + 1, t => if t = 0 then 0 else byteSize fuel (t >>> 8) + 1

/-- `_targetToCompact` (:454). -/
def targetToCompact (target : Nat) : Nat :=
  if target = 0 then 0
  else
    let size := byteSize 32 target
    let mantissa := if size ≤ 3 then target <<< (8 * (3 - size)) else target >>> (8 * (size - 3))
    -- a mantissa whose high bit is set would read as negative: shift it into the next size
    let (mantissa, size) := if mantissa &&& 0x800000 ≠ 0 then (mantissa >>> 8, size + 1) else (mantissa, size)
    ((size <<< 24) ||| (mantissa &&& 0x7fffff)) % 2 ^ 32

/-- `_retargetTarget` (:438). -/
def retargetTarget (maxTarget oldTarget firstTs lastTs : Nat) : Except RelayError Nat := do
  let elapsed := if lastTs > firstTs then lastTs - firstTs else 0
  let elapsed := if elapsed < targetTimespan / 4 then targetTimespan / 4 else elapsed
  let elapsed := if elapsed > targetTimespan * 4 then targetTimespan * 4 else elapsed
  let product ← need (uint256 (oldTarget * elapsed)) .arithmetic
  let rawTarget := product / targetTimespan
  let rawTarget := if rawTarget > maxTarget then maxTarget else rawTarget
  bitsToTarget maxTarget (targetToCompact rawTarget)

/-- `_workFromTarget` (:481); `~target` is `2^256 - 1 - target`. -/
def workFromTarget (target : Nat) : Nat :=
  if target = 0 then 2 ^ 256 - 1 else (2 ^ 256 - 1 - target) / (target + 1) + 1

/-! ## Storage -/

/-- What the mappings hold of one block hash: `blockParent`, `blockWork`, `blockHeight`, `blockTimestamp`,
`blockTarget`, `epochStartTs`. -/
@[ext] structure Block where
  parent : Word
  work : Nat
  height : Nat
  timestamp : Nat
  target : Nat
  epochStartTs : Nat
deriving DecidableEq

structure Relay where
  maxTarget : Nat
  deployer : Address
  genesisEpoch : Nat
  epochStartTimestamp : Nat → Nat
  tip : Word
  tipHeight : Nat
  tipWork : Nat
  blocks : Word → Block
  initialized : Bool
  historySeeded : Bool
  anchorTip : Word

namespace Relay

/-- The storage the constructor leaves. -/
def deploy (maxTarget : Nat) (deployer : Address) : Relay where
  maxTarget := maxTarget
  deployer := deployer
  genesisEpoch := 0
  epochStartTimestamp _ := 0
  tip := 0
  tipHeight := 0
  tipWork := 0
  blocks _ := ⟨0, 0, 0, 0, 0, 0⟩
  initialized := false
  historySeeded := false
  anchorTip := 0

/-- Write the record of one block. -/
def setBlock (s : Relay) (b : Word) (v : Block) : Relay := { s with blocks := Function.update s.blocks b v }

/-- The window of `_medianTimePast` (:531): up to `n` stored timestamps from `cur` down the parent links. -/
def mtpWindow (s : Relay) : Nat → Word → List Nat
  | 0, _ => []
  | n + 1, cur =>
    if cur = 0 then []
    else if (s.blocks cur).timestamp = 0 then []
    else (s.blocks cur).timestamp :: s.mtpWindow n (s.blocks cur).parent

/-- `_medianTimePast` (:531). -/
def medianTimePast (s : Relay) (parent : Word) : Nat :=
  let window := s.mtpWindow 11 parent
  (window.insertionSort (· ≤ ·)).getD (window.length / 2) 0

/-- `genesis` (:133). -/
def genesis (sender : Address) (epochStart target startTimestamp : Nat) (tipHash : Word) (tipHeight tipWork : Nat) :
    Prog Relay RelayError Unit := do
  let s ← get
  check (sender ≠ s.deployer) .unauthorized
  check (s.initialized = true) .alreadyInitialized
  check (epochStart % epochLength ≠ 0) .invalidChainLength
  check (target = 0 ∨ s.maxTarget < target) .invalidTarget
  let canonical ← ofExcept (bitsToTarget s.maxTarget (targetToCompact target))
  check (target ≠ canonical) .invalidTarget
  check (tipHash = 0 ∨ tipWork = 0) .invalidAnchor
  let bound ← orThrow (uint256 (epochStart + epochLength)) .arithmetic
  check (tipHeight < epochStart ∨ bound - 1 ≤ tipHeight) .invalidChainLength
  check (startTimestamp = 0 ∨ 2 ^ 32 ≤ startTimestamp) .invalidTimestamp
  let epoch := epochStart / epochLength
  modify fun s => { s with
    genesisEpoch := epoch
    epochStartTimestamp := Function.update s.epochStartTimestamp epoch startTimestamp
    tip := tipHash
    anchorTip := tipHash
    tipHeight := tipHeight
    tipWork := tipWork
    blocks := Function.update s.blocks tipHash
      { s.blocks tipHash with
        work := tipWork, height := tipHeight, target := target, timestamp := startTimestamp,
        epochStartTs := startTimestamp }
    initialized := true }

/-- The loop of `seedAnchorHistory` (:234). -/
def seedAncestors : Word → List (Word × Nat) → Prog Relay RelayError Unit
  | _, [] => pure ()
  | child, (h, t) :: rest => do
    check (h = 0 ∨ t = 0) .invalidTimestamp
    modify fun s => s.setBlock child { s.blocks child with parent := h }
    modify fun s => s.setBlock h { s.blocks h with timestamp := t }
    seedAncestors h rest

/-- `seedAnchorHistory` (:215). -/
def seedAnchorHistory (sender : Address) (anchorTimestamp : Nat) (ancestorHashes : List Word)
    (ancestorTimestamps : List Nat) : Prog Relay RelayError Unit := do
  let s ← get
  check (sender ≠ s.deployer) .unauthorized
  check (s.initialized = false ∨ s.historySeeded = true) .alreadyInitialized
  check (s.tip ≠ s.anchorTip) .chainNotAnchored
  check (10 < ancestorHashes.length ∨ ancestorHashes.length ≠ ancestorTimestamps.length) .invalidChainLength
  check (anchorTimestamp < (s.blocks s.tip).epochStartTs) .invalidTimestamp
  modify fun s => { s with historySeeded := true }
  modify fun s => s.setBlock s.tip { s.blocks s.tip with timestamp := anchorTimestamp }
  seedAncestors s.tip (ancestorHashes.zip ancestorTimestamps)

/-! ## `advanceTip` -/

/-- The loop variables of `advanceTip`. -/
structure Cursor where
  prevHash : Word
  cumWork : Nat
  height : Nat

/-- The target a block over `parent` must have been mined at (:284-:289). -/
def expectedTarget (maxTarget : Nat) (parent : Block) (height : Nat) : Except RelayError Nat :=
  if height % epochLength = 0 then
    retargetTarget maxTarget parent.target parent.epochStartTs parent.timestamp
  else .ok parent.target

/-- What the loop takes from the block the first header extends (:268-:272). -/
def openCursor (prev : Word) : Prog Relay RelayError Cursor := do
  let s ← get
  check ((s.blocks prev).work = 0 ∧ prev ≠ s.tip) .unknownParent
  return {
    prevHash := prev
    cumWork := if prev = s.tip then s.tipWork else (s.blocks prev).work
    height := if prev = s.tip then s.tipHeight else (s.blocks prev).height }

variable (dsha256 : Bytes → Word) (now : Nat)

/-- One turn of the header loop (:263-:324); for the first header `prevHash` is its own `prev`. -/
def acceptHeader (h : Bytes) (c : Cursor) : Prog Relay RelayError Cursor := do
  let s ← get
  let bh := dsha256 h
  let prev := prevBlock h
  check (prev ≠ c.prevHash) .invalidHeaderChain
  let height ← orThrow (uint256 (c.height + 1)) .arithmetic
  check ((s.blocks prev).target = 0) .unknownEpoch
  let target ← ofExcept (expectedTarget s.maxTarget (s.blocks prev) height)
  check (headerBits h ≠ targetToCompact target) .invalidPoW
  -- `_verifyPow`: the digest read little-endian
  check (target < leNat bh.bytes) .invalidPoW
  check (now + 7200 < headerTime h) .invalidTimestamp
  let mtp := s.medianTimePast prev
  check (mtp ≠ 0 ∧ headerTime h ≤ mtp) .invalidTimestamp
  let cumWork ← orThrow (uint256 (c.cumWork + workFromTarget target)) .arithmetic
  modify fun s => s.setBlock bh {
    parent := prev
    work := cumWork
    height := height
    timestamp := headerTime h
    target := target
    epochStartTs := if height % epochLength = 0 then headerTime h else (s.blocks prev).epochStartTs }
  return { prevHash := bh, cumWork := cumWork, height := height }

def acceptHeaders : List Bytes → Cursor → Prog Relay RelayError Cursor
  | [], c => pure c
  | h :: rest, c => do
    let c ← acceptHeader dsha256 now h c
    acceptHeaders rest c

/-- `headers[i * 80 : (i + 1) * 80]` for every `i < n`. -/
def splitHeaders (headers : Bytes) : List Bytes :=
  (List.range (headers.length / 80)).map fun i => (headers.drop (i * 80)).take 80

/-- `advanceTip` (:253). -/
def advanceTip (headers : Bytes) : Prog Relay RelayError Unit := do
  let s ← get
  check (s.initialized = false) .notInitialized
  check (headers.length / 80 = 0 ∨ headers.length % 80 ≠ 0) .invalidChainLength
  let c ← openCursor (prevBlock (headers.take 80))
  let c ← acceptHeaders dsha256 now (splitHeaders headers) c
  modify fun s =>
    if s.tipWork < c.cumWork then { s with tip := c.prevHash, tipHeight := c.height, tipWork := c.cumWork } else s

end Relay

end Tacit
