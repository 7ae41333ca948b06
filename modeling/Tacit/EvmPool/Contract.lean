import Tacit.Evm
import Tacit.Notes
import Tacit.Lib.Zoom
import Tacit.EvmPool.Circuit
/-!
# The pool (contracts/src/TacitEvmPool.sol)

`transact` checks a proof against the head, spends the nullifiers, moves the head and settles the public amounts. The asset
is moved by other code: a token, a recipient or a relayer may call the pool again before a transfer and after it
(`Act` is a tree). `balance` is what the pool holds of its asset, and only a transfer changes it. A transfer that is
refused reverts the call. `log` is no storage, it lists the events.
-/
namespace Tacit

open Prog

namespace EvmPool

/-- `pA`, `pB` and `pC`. -/
structure Proof where
  pA : Nat × Nat
  pB : (Nat × Nat) × (Nat × Nat)
  pC : Nat × Nat
deriving DecidableEq

/-- What a call names beside the proof; the owner signs its hash. -/
structure ExtData where
  recipient : Address
  extAmount : Int
  relayer : Address
  fee : Nat
  memo0 : Bytes
  memo1 : Bytes
deriving DecidableEq

structure TransactCall where
  proof : Proof
  pub : PublicInputs
  ext : ExtData

/-- The immutables; the asset is ETH where it is 0. -/
structure Config where
  keccak : Keccak
  chainId : Nat
  self : Address
  asset : Address
  verify : Proof → PublicInputs → Bool

/-- `Transact`. -/
structure Event where
  nf0 : Nat
  nf1 : Nat
  outLeaf0 : Nat
  outLeaf1 : Nat
  firstIndex : Nat
  newRoot : Nat
  ext : ExtData

structure Storage where
  root : Nat
  sizeOf : Nat → Nat
  nullified : Nat → Bool
  balance : Nat
  log : List Event

inductive PoolError
  | zeroAddress | wrongAsset | staleRoot | unknownMembershipRoot | wrongInsertionIndex | poolFull | alreadyNullified
  | badProof | valueOutOfRange | ethValueMismatch | ethNotAccepted | feeOnTransferAsset | arithmetic | transferFailed
deriving DecidableEq

def valueMax : Nat := 2 ^ 120

/-- `uint256(keccak256(…)) % P`. -/
def toField (w : Word) : Nat := w.toNat % P

/-- The ABI word of an `int256`. -/
def int256Word (n : Int) : Word := wordOfNat (n % 2 ^ 256).toNat

/-- The constructor's constant: the root of an all-empty tree of depth 32. -/
def emptyRoot (G : Gadgets) : Nat := Merkle.zeros (node G) 0 32

/-- The storage the constructor leaves. -/
def Storage.deployed (G : Gadgets) (balance : Nat) : Storage :=
  ⟨emptyRoot G, Function.update (fun _ => 0) (emptyRoot G) 1, fun _ => false, balance, []⟩

/-- `nextIndex` (:92); no head has size 0. -/
def Storage.nextIndex (s : Storage) : Nat := s.sizeOf s.root - 1

/-- `everKnownRoot` (:102). -/
def Storage.everKnownRoot (s : Storage) (r : Nat) : Bool := s.sizeOf r ≠ 0

/-- `rootSize` (:107). -/
def Storage.rootSize (s : Storage) (r : Nat) : Except PoolError Nat := do
  refuse (s.sizeOf r = 0) .unknownMembershipRoot
  pure (s.sizeOf r - 1)

/-- `_publicAmount` (:184). -/
def publicAmount (extAmount : Int) (fee : Nat) : Nat :=
  let pa := (extAmount - fee).tmod P
  (if pa < 0 then pa + P else pa).toNat

section
variable (cfg : Config)

/-- `ASSET_FIELD` (:84). -/
def Config.assetField : Nat :=
  toField (cfg.keccak.kn [(wordOfNat cfg.chainId).bytes, (wordOfNat cfg.self).bytes, (wordOfNat cfg.asset).bytes])

/-- `wantExtHash` (:159). -/
def Config.extDataHash (x : ExtData) : Nat :=
  toField (cfg.keccak.kn [(wordOfNat cfg.chainId).bytes, (wordOfNat cfg.self).bytes, (wordOfNat x.recipient).bytes,
    (int256Word x.extAmount).bytes, (wordOfNat x.relayer).bytes, (wordOfNat x.fee).bytes, (cfg.keccak.hash x.memo0).bytes,
    (cfg.keccak.hash x.memo1).bytes])

/-- The head an inserting call builds on (:143-:145). -/
def insertionChecks (p : PublicInputs) (s : Storage) : Except PoolError Unit := do
  refuse (p.oldRoot ≠ s.root) .staleRoot
  refuse (p.startIndex ≠ s.nextIndex) .wrongInsertionIndex
  refuse (s.nextIndex + 2 > 2 ^ 32) .poolFull

def headChecks (p : PublicInputs) (s : Storage) : Except PoolError Unit :=
  if p.inserts then insertionChecks p s else .ok ()

/-- The amounts and the parties (:148-:151). -/
def boundaryChecks (x : ExtData) : Except PoolError Unit := do
  refuse (x.extAmount ≤ -valueMax ∨ x.extAmount ≥ valueMax) .valueOutOfRange
  refuse (x.fee ≥ valueMax) .valueOutOfRange
  refuse (x.fee ≠ 0 ∧ x.relayer = 0) .zeroAddress
  refuse (x.extAmount < 0 ∧ x.recipient = 0) .zeroAddress

/-- The nullifiers (:155-:157). -/
def nullifierChecks (p : PublicInputs) (s : Storage) : Except PoolError Unit := do
  refuse (p.nf0 ≠ 0 ∧ s.nullified p.nf0 = true) .alreadyNullified
  refuse (p.nf1 ≠ 0 ∧ p.nf1 = p.nf0) .alreadyNullified
  refuse (p.nf1 ≠ 0 ∧ s.nullified p.nf1 = true) .alreadyNullified

/-- All that `transact` checks before it writes (:138-:165). -/
def transactChecks (c : TransactCall) (s : Storage) : Except PoolError Unit := do
  refuse (c.pub.asset ≠ cfg.assetField) .wrongAsset
  refuse (s.sizeOf s.root = 0) .arithmetic
  headChecks c.pub s
  refuse (s.sizeOf c.pub.root = 0) .unknownMembershipRoot
  boundaryChecks c.ext
  nullifierChecks c.pub s
  refuse (c.pub.extDataHash ≠ cfg.extDataHash c.ext) .badProof
  refuse (c.pub.publicAmount ≠ publicAmount c.ext.extAmount c.ext.fee) .badProof
  refuse (cfg.verify c.proof c.pub = false) .badProof

/-- A spent nullifier is marked; 0 stands for none. -/
def mark (marked : Nat → Bool) (nf : Nat) : Nat → Bool := if nf ≠ 0 then Function.update marked nf true else marked

/-- What `transact` writes before it settles (:167-:174). -/
def Storage.record (s : Storage) (p : PublicInputs) : Storage :=
  { s with
    nullified := mark (mark s.nullified p.nf0) p.nf1
    root := if p.inserts then p.newRoot else s.root
    sizeOf := if p.inserts then Function.update s.sizeOf p.newRoot (s.nextIndex + 3) else s.sizeOf }

/-- What other code does to the pool before a transfer and after it. -/
structure Around where
  before : Storage → Storage
  after : Storage → Storage

/-- The three transfers of `_settle`. -/
structure Callbacks where
  pull : Around
  pay : Around
  tip : Around

/-- `safeTransferFrom` between the two readings of the balance (:200-:202). The caller is not the pool, which calls
`transact` nowhere. -/
def pullIn (amount : Nat) (cb : Around) : Prog Storage PoolError Unit := do
  let s ← get
  modify cb.before
  modify fun t => { t with balance := t.balance + amount }
  modify cb.after
  let t ← get
  let gain ← orThrow (uintSub t.balance s.balance) .arithmetic
  check (gain ≠ amount) .feeOnTransferAsset

/-- `safeTransfer` and `forceSafeTransferETH`; what the pool sends to itself it keeps. -/
def payOut (payee : Address) (amount : Nat) (cb : Around) : Prog Storage PoolError Unit := do
  modify cb.before
  let s ← get
  check (s.balance < amount) .transferFailed
  modify fun s => { s with balance := if payee = cfg.self then s.balance else s.balance - amount }
  modify cb.after

/-- What comes in: ETH with the call, or a token pulled. -/
def settleIn (value : Nat) (x : ExtData) (cb : Around) : Prog Storage PoolError Unit :=
  if cfg.asset = 0 then check (value ≠ x.extAmount.toNat) .ethValueMismatch
  else do
    check (value ≠ 0) .ethNotAccepted
    onlyIf (0 < x.extAmount) (pullIn x.extAmount.toNat cb)

/-- `_settle` (:190). -/
def settle (value : Nat) (x : ExtData) (cb : Callbacks) : Prog Storage PoolError Unit := do
  settleIn cfg value x cb.pull
  onlyIf (x.extAmount < 0) (payOut cfg x.recipient (-x.extAmount).toNat cb.pay)
  onlyIf (x.fee ≠ 0) (payOut cfg x.relayer x.fee cb.tip)

/-- The event of an accepted call on `s`. -/
def TransactCall.event (c : TransactCall) (s : Storage) : Event :=
  ⟨c.pub.nf0, c.pub.nf1, c.pub.outLeaf0, c.pub.outLeaf1, s.nextIndex, (s.record c.pub).root, c.ext⟩

/-- **`transact`** (:126), with `value` ETH. -/
def transact (value : Nat) (c : TransactCall) (cb : Callbacks) : Prog Storage PoolError Unit := do
  modify fun s => { s with balance := if cfg.asset = 0 then s.balance + value else s.balance }
  let s ← get
  ofExcept (transactChecks cfg c s)
  modify fun s => s.record c.pub
  settle cfg value c.ext cb
  modify fun t => { t with log := t.log ++ [c.event s] }

end

/-! ## Calls within calls -/

/-- What anyone does to the pool: send it the asset, or call `transact` with what is called from its transfers. -/
inductive Act
  | donate (amount : Nat)
  | transact (value : Nat) (c : TransactCall) (prePull postPull prePay postPay preTip postTip : List Act)

mutual

/-- What an act does; a call that reverts does nothing. -/
def Act.exec (cfg : Config) : Act → Storage → Storage
  | .donate amount, s => { s with balance := s.balance + amount }
  | .transact value c prePull postPull prePay postPay preTip postTip, s =>
    (EvmPool.transact cfg value c ⟨⟨execAll cfg prePull, execAll cfg postPull⟩, ⟨execAll cfg prePay, execAll cfg postPay⟩,
      ⟨execAll cfg preTip, execAll cfg postTip⟩⟩).call s

/-- Acts one after another. -/
def execAll (cfg : Config) : List Act → Storage → Storage
  | [], s => s
  | a :: acts, s => execAll cfg acts (a.exec cfg s)

end

end EvmPool

end Tacit
