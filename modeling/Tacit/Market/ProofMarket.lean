import Tacit.Evm
import Tacit.Lib.Machine
/-!
# The proof market (contracts/src/ProofMarket.sol)

A payer signs an intent for one op, a prover claims the op against a bond and fulfils it: the pool settles the proof and
the prover is paid. `POOL.settle` is any code: it may pay ETH and call the market again before it returns, and so
may the prover when it is paid (`Act` is a tree). What the token and the signature check answer is an input; `log` is no
storage, it lists what accepted calls did.
-/
namespace Tacit

open Prog

namespace ProofMarket

structure Intent where
  payer : U 160
  opId : Word
  floorFee : U 256
  maxFee : U 256
  start : U 64
  rampSecs : U 64
  deadline : U 64
  tank : Word
deriving DecidableEq

structure Tank where
  payer : U 160
  delegate : U 160
  cap : U 256
  perOpMax : U 256
  expiry : U 64
  salt : U 256
deriving DecidableEq

structure Claim where
  solver : Address
  untilTime : Nat
  price : Nat
  bond : Nat
  intentHash : Word

/-- An entry never written, or deleted. -/
def Claim.none : Claim := ⟨0, 0, 0, 0, 0⟩

/-- The immutables; `recover` is `ECDSA.recoverCalldata` (no answer where it reverts), `domain` the EIP-712 domain
separator. -/
structure Config where
  keccak : Keccak
  domain : Word
  recover : Word → Bytes → Option (U 160)
  claimWindow : Nat
  owner : Address
  treasury : Address

def maxBond : Nat := 10 ^ 17

/-- How an intent was authorised: by the payer's signature, or by the delegate of a tank the payer signed. -/
inductive Auth
  | direct (signature : Bytes)
  | tank (t : Tank) (tankSig intentSig : Bytes)

/-- What the other contracts do in a fulfilment: whether the pool accepts the public values, the token is pulled and the
prover takes the ETH. -/
structure Answers where
  settles : Bool
  pulls : Bool
  takes : Bool

/-- A fulfilment: the intent, the public values given to the pool and the claim that is closed. -/
structure Receipt where
  intent : Intent
  auth : Auth
  publicValues : Bytes
  claim : Claim

/-- What an accepted call did: a claim was taken, a lapsed one replaced and its bond sent away, one was closed by its
solver; and then, after the pool's `settle`, its price was pulled and `eth` sent. `payee` is who was sent the ETH. -/
inductive Event
  | claimed (i : Intent) (auth : Auth) (now : Nat) (c : Claim)
  | lapsed (opId : Word) (c : Claim) (payee : Address)
  | closed (r : Receipt)
  | charged (r : Receipt) (x : Answers) (eth : Nat) (payee : Address)

structure Storage where
  balance : Nat
  claimBond : Nat
  claims : Word → Claim
  done : Word → Bool
  cancelled : U 160 → Word → Bool
  spent : Word → Nat
  tankRevoked : Word → Bool
  log : List Event

def Storage.deployed (balance : Nat) : Storage :=
  ⟨balance, 0, fun _ => .none, fun _ => false, fun _ _ => false, fun _ => 0, fun _ => false, []⟩

inductive MarketError
  | badSignature | expired | cancelled | alreadyDone | wrongOp | claimed | noClaim | badPrice | badBond | notOwner
  | unfunded | wrongMode | tankRevoked | tankSpent | notPayer | arithmetic | external
deriving DecidableEq

/-- The caller of a call, the ETH it carries and the time of the block. -/
structure Env where
  sender : Address
  value : Nat
  now : Nat
  sender_ne : sender ≠ 0

/-- `priceAt` (:157); none where the arithmetic reverts. -/
def priceAt (i : Intent) (ts : Nat) : Option Nat :=
  if i.rampSecs.val = 0 then some i.maxFee.val
  else if ts ≤ i.start.val then some i.floorFee.val
  else
    let el := ts - i.start.val
    if i.rampSecs.val ≤ el then some i.maxFee.val
    else do
      let span ← uintSub i.maxFee.val i.floorFee.val
      let rise ← uint256 (span * el)
      uint256 (i.floorFee.val + rise / i.rampSecs.val)

section
variable (cfg : Config)

/-- `_hashTypedData`: the EIP-712 digest of a struct hash. -/
def hashTypedData (structHash : Word) : Word := cfg.keccak.kn [[0x19, 0x01], cfg.domain.bytes, structHash.bytes]

def intentTypehash : Word := cfg.keccak.hash (ascii
  "Intent(address payer,bytes32 opId,uint256 floorFee,uint256 maxFee,uint64 start,uint64 rampSecs,uint64 deadline,bytes32 tank)")

def tankTypehash : Word := cfg.keccak.hash (ascii
  "Tank(address payer,address delegate,uint256 cap,uint256 perOpMax,uint64 expiry,uint256 salt)")

/-- `intentHash` (:165). -/
def intentHash (i : Intent) : Word :=
  hashTypedData cfg (cfg.keccak.kn [(intentTypehash cfg).bytes, (wordOfNat i.payer.val).bytes, i.opId.bytes,
    (wordOfNat i.floorFee.val).bytes, (wordOfNat i.maxFee.val).bytes, (wordOfNat i.start.val).bytes,
    (wordOfNat i.rampSecs.val).bytes, (wordOfNat i.deadline.val).bytes, i.tank.bytes])

/-- `tankHash` (:173). -/
def tankHash (t : Tank) : Word :=
  hashTypedData cfg (cfg.keccak.kn [(tankTypehash cfg).bytes, (wordOfNat t.payer.val).bytes,
    (wordOfNat t.delegate.val).bytes, (wordOfNat t.cap.val).bytes, (wordOfNat t.perOpMax.val).bytes,
    (wordOfNat t.expiry.val).bytes, (wordOfNat t.salt.val).bytes])

/-- `_checkIntent` (:316). -/
def checkIntent (now : Nat) (i : Intent) (s : Storage) : Except MarketError Unit := do
  refuse (now > i.deadline.val) .expired
  refuse (s.done i.opId = true) .alreadyDone
  refuse (s.cancelled i.payer i.opId = true) .cancelled
  refuse (i.floorFee > i.maxFee) .badPrice

/-- The tank an intent draws on, with its cap. (`_run` takes the tank id 0 for a direct intent; a digest is not 0.) -/
def Auth.drawn : Auth → Option (Word × Nat)
  | .direct _ => none
  | .tank t _ _ => some (tankHash cfg t, t.cap.val)

/-- `_checkDirect` (:295) and `_checkTank` (:301). -/
def checkAuth (now : Nat) (i : Intent) (auth : Auth) (s : Storage) : Except MarketError Unit :=
  match auth with
  | .direct signature => do
    checkIntent now i s
    refuse (i.tank ≠ 0) .wrongMode
    let signer ← need (cfg.recover (intentHash cfg i) signature) .badSignature
    refuse (signer ≠ i.payer) .badSignature
  | .tank t tankSig intentSig => do
    checkIntent now i s
    let id := tankHash cfg t
    refuse (i.tank ≠ id) .wrongMode
    refuse (s.tankRevoked id = true) .tankRevoked
    refuse (now > t.expiry.val) .expired
    refuse (i.payer ≠ t.payer ∨ i.maxFee > t.perOpMax) .badPrice
    let payer ← need (cfg.recover id tankSig) .badSignature
    refuse (payer ≠ t.payer) .badSignature
    let delegate ← need (cfg.recover (intentHash cfg i) intentSig) .badSignature
    refuse (delegate ≠ t.delegate) .badSignature

/-- The bond forfeited by a claim that replaces `c` (:243). -/
def Claim.forfeit (c : Claim) : Nat := if c.solver ≠ 0 ∧ c.bond ≠ 0 then c.bond else 0

/-- What `_claim` writes (:249), with the forfeited bond sent (:244). -/
def Storage.record (s : Storage) (i : Intent) (auth : Auth) (now : Nat) (c : Claim) : Storage :=
  { s with
    balance := s.balance - (s.claims i.opId).forfeit
    claims := Function.update s.claims i.opId c
    log := s.log ++ (if (s.claims i.opId).solver ≠ 0 then [.lapsed i.opId (s.claims i.opId) cfg.treasury] else []) ++
      [.claimed i auth now c] }

/-- `_claim` (:238); `held` is what `TAC.balanceOf(payer)` answers. -/
def claimOp (e : Env) (i : Intent) (auth : Auth) (room held : Nat) : Prog Storage MarketError Unit := do
  let s ← get
  check (e.value ≠ s.claimBond) .badBond
  let c := s.claims i.opId
  check (c.untilTime > e.now) .claimed
  -- a lapsed claim: its bond is forfeit, to TREASURY
  check (s.balance < c.forfeit) .external
  let p ← orThrow (priceAt i e.now) .arithmetic
  check (p > room ∨ (p ≠ 0 ∧ held < p)) .unfunded
  check (e.now % 2 ^ 64 + cfg.claimWindow ≥ 2 ^ 64) .arithmetic
  let taken : Claim := ⟨e.sender, e.now % 2 ^ 64 + cfg.claimWindow, p, e.value, intentHash cfg i⟩
  modify fun s => s.record cfg i auth e.now taken

/-- `claim` (:195) and `claimFromTank` (:200). -/
def claim (e : Env) (i : Intent) (auth : Auth) (held : Nat) : Prog Storage MarketError Unit := do
  modify fun s => { s with balance := s.balance + e.value }
  let s ← get
  ofExcept (checkAuth cfg e.now i auth s)
  match auth.drawn cfg with
  | none => claimOp cfg e i auth (2 ^ 256 - 1) held
  | some (id, cap) => do
    let room ← orThrow (uintSub cap (s.spent id)) .arithmetic
    claimOp cfg e i auth room held

/-- The tank's running total stays within its cap (:271). -/
def checkCap (r : Receipt) (s : Storage) : Except MarketError Unit :=
  match r.auth.drawn cfg with
  | none => .ok ()
  | some (id, cap) => do
    let total ← need (uint256 (s.spent id + r.claim.price)) .arithmetic
    refuse (total > cap) .tankSpent

/-- What `_run` writes before it calls the pool (:276-:282). -/
def Storage.close (s : Storage) (r : Receipt) : Storage :=
  { s with
    spent := match r.auth.drawn cfg with
      | none => s.spent
      | some (id, _) => Function.update s.spent id (s.spent id + r.claim.price)
    done := Function.update s.done r.intent.opId true
    claims := Function.update s.claims r.intent.opId .none
    log := s.log ++ [.closed r] }

/-- The solver is paid (:287-:290). -/
def Storage.charge (s : Storage) (r : Receipt) (x : Answers) (eth : Nat) (payee : Address) : Storage :=
  { s with balance := s.balance - eth, log := s.log ++ [.charged r x eth payee] }

/-- `_run` (:260). `settle` is what the pool's call does to the market, `paid` what the prover does when it is
paid; the payer's permit may fail and changes nothing here. -/
def runOp (e : Env) (i : Intent) (auth : Auth) (publicValues : Bytes) (x : Answers)
    (settle paid : Storage → Storage) : Prog Storage MarketError Unit := do
  check (cfg.keccak.hash publicValues ≠ i.opId) .wrongOp
  let s ← get
  let c := s.claims i.opId
  check (c.solver ≠ e.sender ∨ c.untilTime ≤ e.now ∨ c.intentHash ≠ intentHash cfg i) .noClaim
  let price := c.price
  let r : Receipt := ⟨i, auth, publicValues, c⟩
  ofExcept (checkCap cfg r s)
  modify fun s => s.close cfg r
  let ethBefore := s.balance
  check (x.settles = false) .external
  modify settle
  check (price ≠ 0 ∧ x.pulls = false) .external
  let t ← get
  let gain ← orThrow (uintSub t.balance ethBefore) .arithmetic
  let eth ← orThrow (uint256 (gain + c.bond)) .arithmetic
  check (eth ≠ 0 ∧ (t.balance < eth ∨ x.takes = false)) .external
  modify fun t => t.charge r x eth e.sender
  if eth ≠ 0 then modify paid else pure ()

/-- `fulfill` (:211) and `fulfillFromTank` (:225). -/
def fulfill (e : Env) (i : Intent) (auth : Auth) (publicValues : Bytes) (x : Answers) (settle paid : Storage → Storage) :
    Prog Storage MarketError Unit := do
  check (e.value ≠ 0) .external
  let s ← get
  ofExcept (checkAuth cfg e.now i auth s)
  runOp cfg e i auth publicValues x settle paid

/-- `setClaimBond` (:143). -/
def setClaimBond (e : Env) (bond : Nat) : Prog Storage MarketError Unit := do
  check (e.value ≠ 0) .external
  check (e.sender ≠ cfg.owner) .notOwner
  check (bond > maxBond) .badBond
  modify fun s => { s with claimBond := bond }

/-- `cancel` (:178). -/
def cancel (e : Env) (payer : U 160) (opId : Word) : Prog Storage MarketError Unit := do
  check (e.value ≠ 0 ∨ e.sender ≠ payer.val) .external
  let s ← get
  check ((s.claims opId).untilTime > e.now) .claimed
  modify fun s => { s with cancelled := Function.update s.cancelled payer (Function.update (s.cancelled payer) opId true) }

/-- `revokeTank` (:185). -/
def revokeTank (e : Env) (t : Tank) : Prog Storage MarketError Unit := do
  check (e.value ≠ 0) .external
  check (e.sender ≠ t.payer.val) .notPayer
  modify fun s => { s with tankRevoked := Function.update s.tankRevoked (tankHash cfg t) true }

end

/-! ## Calls within calls -/

/-- A call on the market by anyone, with the calls made before it returns: of a fulfilment, those from the pool's `settle`
and those from the prover as it is paid. `pay` is plain ETH. -/
inductive Act
  | pay (amount : Nat)
  | setClaimBond (e : Env) (bond : Nat)
  | claim (e : Env) (i : Intent) (auth : Auth) (held : Nat)
  | cancel (e : Env) (payer : U 160) (opId : Word)
  | revokeTank (e : Env) (t : Tank)
  | fulfill (e : Env) (i : Intent) (auth : Auth) (publicValues : Bytes) (x : Answers) (settle paid : List Act)

mutual

/-- What a call does; a call that reverts does nothing. -/
def Act.exec (cfg : Config) : Act → Storage → Storage
  | .pay amount, s => { s with balance := s.balance + amount }
  | .setClaimBond e bond, s => (ProofMarket.setClaimBond cfg e bond).call s
  | .claim e i auth held, s => (ProofMarket.claim cfg e i auth held).call s
  | .cancel e payer opId, s => (ProofMarket.cancel e payer opId).call s
  | .revokeTank e t, s => (ProofMarket.revokeTank cfg e t).call s
  | .fulfill e i auth publicValues x settle paid, s =>
    (ProofMarket.fulfill cfg e i auth publicValues x (execAll cfg settle) (execAll cfg paid)).call s

/-- Calls one after another. -/
def execAll (cfg : Config) : List Act → Storage → Storage
  | [], s => s
  | a :: acts, s => execAll cfg acts (a.exec cfg s)

end

end ProofMarket

end Tacit
