import Tacit.Evm
import Tacit.Lib.InsertionSort
import Tacit.Lib.Machine
import Tacit.Notes
/-!
# The interval oracle of the TAC venues (contracts/src/TacIntervalOracle.sol)

A ring of 128 entries, one for each interval of `step` blocks. What the RLP and trie libraries, the hash and a venue's own
`slots` and `_read` answer are parameters. An array access out of bounds is a panic here; every other revert is an error.
-/
namespace Tacit.IntervalOracle

open Prog InPlace

def bps : Nat := 10000
def blockSeconds : Nat := 12

/-- Blocks after an interval ends before it counts. -/
def grace : Nat := 10

/-- Intervals kept: older ones are overwritten. -/
def ring : Nat := 128

def mask : Nat := 2 ^ 104 - 1

inductive OracleError
  | badBlock | badHeader | alreadyRecorded | badWindow | tooFewSamples
  | arith (op : Arith)
  | library
deriving DecidableEq

/-- The immutables that the functions below read, as the constructor checks them (:64-67). -/
structure Config where
  step : Nat
  maxWindow : Nat
  minCoverageBps : Nat
  grace_lt : grace < step
  step_fits : step * blockSeconds < 2 ^ 256
  step_le : step * blockSeconds ≤ maxWindow
  window_lt : maxWindow / (step * blockSeconds) < ring
  coverage_ne : minCoverageBps ≠ 0
  coverage_le : minCoverageBps ≤ bps

/-- `RLPReader`, `keccak256`, `MerkleTrie.get` and the venue; none where one reverts. -/
structure Externals where
  readList : Bytes → Option (List Bytes)
  readBytes : Bytes → Option Bytes
  keccak256 : Bytes → Word
  trieGet : Bytes → List Bytes → Word → Option Bytes
  pool : Bytes
  slots : Word × Word
  read : Nat → Nat → Option (Nat × Nat)

/-- The block of a call, and what it knows of earlier ones. -/
structure Env where
  number : Nat
  blockhash : Nat → Word
  history : Nat → Option Bytes

abbrev Samples := Fin ring → U 256

abbrev OracleM := Prog Samples OracleError

def ringSlot (interval : Nat) : Fin ring := ⟨interval % ring, Nat.mod_lt _ (by decide)⟩

/-- `interval << 208 | ethPerTac << 104 | ethDepth`, of 256 bits. -/
def pack (interval ethPerTac ethDepth : Nat) : U 256 := U.wrap 256 (interval <<< 208 ||| ethPerTac <<< 104 ||| ethDepth)

/-- `_has` (:116). -/
def has (s : U 256) (interval : Nat) : Bool := s.val != 0 && s.val >>> 208 == interval

def price (s : U 256) : Nat := s.val >>> 104 &&& mask

def depth (s : U 256) : Nat := s.val &&& mask

/-- `_blockHash` (:203). -/
def blockHash (env : Env) (number : Nat) : Word :=
  if number ≥ env.number then 0
  else if env.number - number ≤ 256 then env.blockhash number
  else match env.history number with
    | some out => if out.length = 32 then Word.ofBytes out else 0
    | none => 0

/-- `_toUint` (:215). -/
def toUint (b : Bytes) : OracleM Nat := do
  check (b.length > 32) .badHeader
  return b.foldl (fun v x => v <<< 8 ||| x % 256) 0

section Calls

variable (cfg : Config) (X : Externals) (env : Env)

/-- `RLPReader.readBytes(fields[i])`. -/
def field (fields : List Bytes) (i : Nat) : OracleM Bytes := do
  let item ← orPanic fields[i]?
  orThrow (X.readBytes item) .library

/-- `_header` (:194). -/
def readHeader (header : Bytes) : OracleM (List Bytes) := do
  let fields ← orThrow (X.readList header) .library
  check (fields.length < 15) .badHeader
  let stateRoot ← orPanic fields[3]?
  let mixHash ← orPanic fields[13]?
  let nonce ← orPanic fields[14]?
  check (stateRoot.length ≠ 33 ∨ mixHash.length ≠ 33 ∨ nonce.length ≠ 9) .badHeader
  let b ← field X fields 8
  let number ← toUint b
  check (blockHash env number = 0 ∨ X.keccak256 header ≠ blockHash env number) .badHeader
  return fields

/-- `_storage` (:210). -/
def storage (root slot : Word) (proof : List Bytes) : OracleM Nat := do
  let leaf ← orThrow (X.trieGet (X.keccak256 slot.bytes).bytes proof root) .library
  let b ← orThrow (X.readBytes leaf) .library
  toUint b

/-- The account, its two slots, and the venue's price and depth from them (:104-109). -/
def provenSample (stateRoot : Word) (accountProof proofA proofB : List Bytes) : OracleM (Nat × Nat) := do
  let account ← orThrow (X.trieGet (X.keccak256 X.pool).bytes accountProof stateRoot) .library
  let items ← orThrow (X.readList account) .library
  let storageRoot ← field X items 2
  let a ← storage X (Word.ofBytes storageRoot) X.slots.1 proofA
  let b ← storage X (Word.ofBytes storageRoot) X.slots.2 proofB
  orThrow (X.read a b) .library

/-- `_latestInterval` (:186). -/
def latestInterval (grace : Nat) : OracleM Nat := do
  let last ← orThrow (uintSub env.number 1) (.arith .sub)
  check (last < grace + cfg.step) .tooFewSamples
  return (last - grace) / cfg.step - 1

/-- `sampleBlock` (:121). -/
def sampleBlock (interval : Nat) (mixHash : Word) : OracleM Nat := do
  let start ← orThrow (uint256 (interval * cfg.step)) (.arith .mul)
  orThrow (uint256 (start + mixHash.toNat % cfg.step)) (.arith .add)

structure Proofs where
  header : Bytes
  next : Bytes
  accountProof : List Bytes
  proofA : List Bytes
  proofB : List Bytes

/-- The event of an accepted `record`. -/
structure Recorded where
  interval : Nat
  blockNumber : Nat
  ethPerTac : Nat
  ethDepth : Nat
deriving DecidableEq

/-- `record` (:87). -/
def record (p : Proofs) : OracleM Recorded := do
  let fields ← readHeader X env p.header
  let b ← field X fields 8
  let number ← toUint b
  let interval := number / cfg.step
  let nextFields ← readHeader X env p.next
  let b ← field X nextFields 8
  let nextNumber ← toUint b
  let stop ← orThrow (uint256 ((interval + 1) * cfg.step)) (.arith .mul)
  check (nextNumber ≠ stop) .badBlock
  let mixHash ← field X nextFields 13
  let sample ← sampleBlock cfg interval (Word.ofBytes mixHash)
  check (number ≠ sample) .badBlock
  let latest ← latestInterval cfg env 0
  check (interval + ring ≤ latest) .badBlock
  let s ← get
  check (has (s (ringSlot interval)) interval) .alreadyRecorded
  let stateRoot ← field X fields 3
  let v ← provenSample X (Word.ofBytes stateRoot) p.accountProof p.proofA p.proofB
  check (v.1 = 0 ∨ v.1 > mask ∨ v.2 > mask) .badBlock
  modify fun s => Function.update s (ringSlot interval) (pack interval v.1 v.2)
  return ⟨interval, number, v.1, v.2⟩

/-! ## The views -/

/-- `sampleOf` (:160). -/
def sampleOf (s : Samples) (interval : Nat) : Nat × Nat :=
  if has (s (ringSlot interval)) interval then (price (s (ringSlot interval)), depth (s (ringSlot interval))) else (0, 0)

/-- The loop of `_collect`: `k` intervals from the `i`-th back, into `found[n..]`. -/
def gather (s : Samples) (newest : Nat) (value : U 256 → Nat) : Nat → Nat → List Nat → Nat → OracleM (List Nat × Nat)
  | 0, _, found, n => return (found, n)
  | k + 1, i, found, n =>
    if i ≤ newest then
      if has (s (ringSlot (newest - i))) (newest - i) then do
        let found ← setAt found n (value (s (ringSlot (newest - i))))
        gather s newest value k (i + 1) found (n + 1)
      else gather s newest value k (i + 1) found n
    else return (found, n)

/-- `_collect` (:166): the values, how many, and how many intervals the window spans. The flag chooses prices or depths. -/
def collect (window : Nat) (prices : Bool) : OracleM (List Nat × Nat × Nat) := do
  check (window < cfg.step * blockSeconds ∨ window > cfg.maxWindow) .badWindow
  let points := window / (cfg.step * blockSeconds)
  let newest ← latestInterval cfg env grace
  let s ← get
  let r ← gather s newest (if prices then price else depth) points 0 (List.replicate points 0) 0
  check (r.2 * bps < points * cfg.minCoverageBps ∨ (points - 1) / 2 < points - r.2 ∨ points / 2 ≥ r.2) .tooFewSamples
  return (r.1, r.2, points)

/-- `prices` (:127). -/
def prices (window : Nat) : OracleM (Nat × Nat) := do
  let r ← collect cfg env window true
  let found ← sort r.1 r.2.1
  let middle ← orThrow (uintSub ((r.2.2 - 1) / 2) (r.2.2 - r.2.1)) (.arith .sub)
  let low ← getAt found middle
  let high ← getAt found (r.2.2 / 2)
  return (low, high)

/-- `depthMin` (:141). -/
def depthMin (window : Nat) : OracleM Nat := do
  let r ← collect cfg env window false
  check (r.2.1 ≠ r.2.2) .tooFewSamples
  let found ← sort r.1 r.2.1
  getAt found 0

/-- The loop of `latest`. -/
def newestRecorded (s : Samples) (newest : Nat) : Nat → Nat → Nat
  | 0, _ => 0
  | k + 1, i =>
    if i ≤ newest then
      if has (s (ringSlot (newest - i))) (newest - i) then price (s (ringSlot (newest - i)))
      else newestRecorded s newest k (i + 1)
    else 0

/-- `latest` (:149): the price of the newest recorded interval within `maxWindow`, or 0. -/
def latest : OracleM Nat := do
  let newest ← latestInterval cfg env 0
  let s ← get
  return newestRecorded s newest (cfg.maxWindow / (cfg.step * blockSeconds)) 0

end Calls

end Tacit.IntervalOracle
