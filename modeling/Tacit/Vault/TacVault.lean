import Tacit.Evm
import Tacit.Lib.Zoom
/-!
# The TAC vault (contracts/src/TacVault.sol)

One vault per address: TAC as collateral, SYNTH as debt. What the oracles and the price feed answer is part of a call
(`Env`), and a view that reverts is an error. Every checked operation reverts with the operation's own error, so that an
underflow can be told from the rest. `tac` and `synth` are the tokens' own balances; `minted`, `burned` and `signed` are no
storage, they add up what accepted calls did.
-/
namespace Tacit

open Prog

namespace TacVault

/-- What an oracle answers; none where it reverts. -/
structure Oracle where
  hasCode : Bool
  shortWindow : Option Nat
  window : Option Nat
  maxWindow : Option Nat
  prices : Nat → Option (Nat × Nat)
  recovery : Nat → Option Nat
  depthMin : Nat → Option Nat
  latest : Option Nat
  spot : Option Nat

structure Feed where
  roundId : Nat
  answer : Int
  updatedAt : Nat
  answeredInRound : Nat

/-- A call: who calls, when, and what the other contracts answer in it. `pays` and `spends` are the two tokens' own checks
besides the balances of this model, `minters` is `SYNTH.minterCount()`. -/
structure Env where
  sender : Address
  now : Nat
  oracle : Address → Oracle
  feed : Option Feed
  erc1271 : Address → Word → Bytes → Bool
  pays : Bool
  spends : Bool
  minters : Nat

/-- The immutables, with this contract's address and domain separator; `recover` is `ECDSA.tryRecoverCalldata`. -/
structure Config where
  keccak : Keccak
  domain : Word
  recover : Word → Bytes → Address
  self : Address
  feedDecimals : Nat
  feedMaxStaleness : Nat
  minDebtBase : Nat

inductive Param
  | depthBps | mintRatioBps | liqRatioBps | liqBonusBps | ownerWindow | auctionDuration | minDebt
deriving DecidableEq

structure Terms where
  mintRatioBps : Nat
  liqRatioBps : Nat
  liqBonusBps : Nat
  auctionDuration : Nat
  ownerWindow : Nat
  minDebt : Nat
  redemptionFeeBps : Nat
  depthBps : Nat

structure Vault where
  collateral : Nat
  debt : Nat
  auctionStart : Nat

structure Queued where
  value : Nat
  eta : Nat

/-- An owner's signature that an accepted call used. -/
structure Signature where
  owner : Address
  nonce : Nat
  digest : Word
  bytes : Bytes

structure Storage where
  vaults : Address → Vault
  nonces : Address → Nat
  totalDebt : Nat
  debtCeiling : Nat
  borrowFeeBps : Nat
  feeTo : Address
  tacSink : Address
  owner : Address
  pauser : Address
  pausedFrom : Nat
  pausedUntil : Nat
  pausedBefore : Nat
  terms : Terms
  queuedParam : Param → Queued
  oracle : Address
  pendingOracle : Address
  pendingOracleEta : Nat
  paramsLocked : Bool
  oracleLocked : Bool
  tac : Nat
  synth : Address → Nat
  minted : Nat
  burned : Nat
  signed : List Signature

inductive VaultError
  | badConfig | badAmount | undercollateralized | overCeiling | inAuction | noAuction | healthy | stillUnhealthy
  | feeTooHigh | tooEarly | badFeed | staleFeed | badSignature | expired | tooLittleCollateral | noPrice | ownerWindow
  | paused | pauseCooldown | locked | nothingQueued | mintersRemain | unauthorized
  | underflow | overflow | mulDiv | external
deriving DecidableEq

def BPS : Nat := 10000
def WAD : Nat := 10 ^ 18
def maxBorrowFeeBps : Nat := 500
def maxRedemptionFeeBps : Nat := 250
def maxDepthBps : Nat := 1000
def maxPause : Nat := 12 * 3600
def paramDelay : Nat := 2 * 86400
def oracleDelay : Nat := 3 * 86400
def queueExpiry : Nat := 14 * 86400
def minLiqRatioBps : Nat := 12000
def maxLiqRatioBps : Nat := 30000
def minMarginBps : Nat := 2000
def maxMintRatioBps : Nat := 100000
def maxBonusBps : Nat := 5000
def minOwnerWindow : Nat := 10 * 60
def maxOwnerWindow : Nat := 86400
def minAuctionDuration : Nat := 30 * 60
def maxAuctionDuration : Nat := 3 * 86400
def minOracleWindow : Nat := 3600

/-! ## Checked arithmetic -/

def add (a b : Nat) : Except VaultError Nat := need (uint256 (a + b)) .overflow

def sub (a b : Nat) : Except VaultError Nat := need (uintSub a b) .underflow

def mul (a b : Nat) : Except VaultError Nat := need (uint256 (a * b)) .overflow

/-- `FixedPointMathLib.fullMulDiv`. -/
def fullMulDiv (a b d : Nat) : Except VaultError Nat := do
  refuse (d = 0) .mulDiv
  need (uint256 (a * b / d)) .mulDiv

/-! ## Prices -/

section
variable (cfg : Config) (e : Env)

/-- `_inSynth` (:941). -/
def inSynth (eth : Nat) : Except VaultError Nat := do
  let f ← need e.feed .external
  refuse (f.answer ≤ 0) .badFeed
  refuse (f.updatedAt = 0 ∨ f.updatedAt > e.now) .staleFeed
  let age ← sub e.now f.updatedAt
  refuse (age > cfg.feedMaxStaleness) .staleFeed
  refuse (f.answeredInRound < f.roundId) .staleFeed
  let x ← mul eth f.answer.toNat
  return x / 10 ^ cfg.feedDecimals

/-- `_borrowUsdPerTac` (:913). -/
def borrowUsdPerTac (s : Storage) : Except VaultError Nat := do
  let o := e.oracle s.oracle
  let w ← need o.window .external
  let window ← need (o.prices w) .external
  let w' ← need o.shortWindow .external
  let short ← need (o.prices w') .external
  let spot ← need o.spot .external
  inSynth cfg e (min (min window.1 short.1) spot)

/-- `_liqUsdPerTac` (:919). -/
def liqUsdPerTac (s : Storage) : Except VaultError Nat := do
  let o := e.oracle s.oracle
  let w ← need o.maxWindow .external
  let window ← need (o.prices w) .external
  let w' ← need o.shortWindow .external
  let short ← need (o.prices w') .external
  inSynth cfg e (max window.2 short.2)

/-- `_recoveryUsdPerTac` (:925). -/
def recoveryUsdPerTac (s : Storage) : Except VaultError Nat := do
  let o := e.oracle s.oracle
  let w ← need o.maxWindow .external
  let window ← need (o.recovery w) .external
  let w' ← need o.shortWindow .external
  let short ← need (o.recovery w') .external
  inSynth cfg e (max window short)

/-- `_offerUsdPerTac` (:932). -/
def offerUsdPerTac (s : Storage) : Except VaultError Nat := do
  let liq ← liqUsdPerTac cfg e s
  let latest ← need (e.oracle s.oracle).latest .external
  let last ← inSynth cfg e latest
  return max liq last

/-- `_depth` (:936). -/
def depth (s : Storage) : Except VaultError Nat := do
  let o := e.oracle s.oracle
  let w ← need o.maxWindow .external
  let eth ← need (o.depthMin w) .external
  inSynth cfg e eth

/-- `_value` (:891). -/
def value (tac usdPerTac : Nat) : Except VaultError Nat := fullMulDiv tac usdPerTac WAD

/-- `recovered` (:886). -/
def recovered (s : Storage) (owner : Address) : Except VaultError Bool := do
  let v := s.vaults owner
  let price ← recoveryUsdPerTac cfg e s
  let worth ← value v.collateral price
  let have' ← mul worth BPS
  let needed ← mul v.debt s.terms.liqRatioBps
  return decide (needed ≤ have')

/-- `_requireBorrowHealthy` (:895). -/
def requireBorrowHealthy (s : Storage) (v : Vault) : Except VaultError Unit := do
  let needed ← mul v.debt s.terms.mintRatioBps
  let price ← borrowUsdPerTac cfg e s
  let worth ← value v.collateral price
  let have' ← mul worth BPS
  refuse (needed > have') .undercollateralized

/-- `auctionTime` (:373). -/
def auctionTime (now : Nat) (s : Storage) : Except VaultError Nat := do
  let t ← sub now s.pausedBefore
  let p ← sub (min now s.pausedUntil) s.pausedFrom
  sub t p

end

def Storage.setVault (s : Storage) (owner : Address) (v : Vault) : Storage :=
  { s with vaults := Function.update s.vaults owner v }

/-- Whether auctions are paused. -/
def Storage.paused (s : Storage) (now : Nat) : Prop := now < s.pausedUntil

instance {s : Storage} {now : Nat} : Decidable (s.paused now) := Nat.decLt _ _

/-! ## The owner's powers -/

/-- `_validate` (:469). (The sums and products of the terms cannot overflow but for the last.) -/
def validate (cfg : Config) (t : Terms) (id : Param) (v : Nat) : Except VaultError Unit :=
  match id with
  | .depthBps => refuse (v > maxDepthBps ∨ v > 2 * t.depthBps + 25) .badConfig
  | .mintRatioBps => refuse (v > maxMintRatioBps ∨ v < t.liqRatioBps + minMarginBps) .badConfig
  | .liqRatioBps => refuse (v < minLiqRatioBps ∨ v > maxLiqRatioBps ∨ t.mintRatioBps < v + minMarginBps ∨
      BPS + t.liqBonusBps ≥ v) .badConfig
  | .liqBonusBps => refuse (v = 0 ∨ v > maxBonusBps ∨ BPS + v ≥ t.liqRatioBps) .badConfig
  | .ownerWindow => refuse (v < minOwnerWindow ∨ v > maxOwnerWindow ∨ v ≥ t.auctionDuration) .badConfig
  | .auctionDuration => refuse (v < minAuctionDuration ∨ v > maxAuctionDuration ∨ t.ownerWindow ≥ v) .badConfig
  | .minDebt => do
    refuse (v = 0 ∨ v < cfg.minDebtBase / 10) .badConfig
    let most ← mul cfg.minDebtBase 100
    refuse (v > most) .badConfig

/-- The assignment of `executeParam` (:400). -/
def Terms.set (t : Terms) (v : Nat) : Param → Terms
  | .depthBps => { t with depthBps := v }
  | .mintRatioBps => { t with mintRatioBps := v }
  | .liqRatioBps => { t with liqRatioBps := v }
  | .liqBonusBps => { t with liqBonusBps := v }
  | .ownerWindow => { t with ownerWindow := v }
  | .auctionDuration => { t with auctionDuration := v }
  | .minDebt => { t with minDebt := v }

/-- `_checkWindows` (:491). -/
def checkWindows (o : Oracle) : Except VaultError (Nat × Nat × Nat) := do
  refuse (o.hasCode = false) .badConfig
  let short ← need o.shortWindow .external
  let window ← need o.window .external
  let max ← need o.maxWindow .external
  refuse (short = 0 ∨ window < short ∨ max < window ∨ max < minOracleWindow) .badConfig
  return (short, window, max)

/-- One round of the loop of `_answers` (:502); the high median. -/
def answersAt (o : Oracle) (w : Nat) : Except VaultError Nat := do
  let (lo, hi) ← need (o.prices w) .external
  refuse (lo = 0 ∨ hi = 0) .noPrice
  let recovery ← need (o.recovery w) .external
  refuse (recovery = 0) .noPrice
  refuse (lo > hi) .badConfig
  return hi

/-- `_answers` (:499). -/
def answers (o : Oracle) : Except VaultError Nat := do
  let (short, window, max) ← checkWindows o
  let _ ← answersAt o short
  let high ← answersAt o window
  let _ ← answersAt o max
  let spot ← need o.spot .external
  refuse (spot = 0) .noPrice
  let latest ← need o.latest .external
  refuse (latest = 0) .noPrice
  let least ← need (o.depthMin max) .external
  refuse (least = 0) .noPrice
  return high

/-- `_within3` (:532). -/
def within3 (a b : Nat) : Except VaultError Bool := do
  let b3 ← mul 3 b
  if a ≤ b3 then
    let a3 ← mul a 3
    return decide (a3 ≥ b)
  else return false

/-- Near a median of the current oracle; a median of 0 is none. -/
def nearTo (price median : Nat) : Except VaultError Bool := if median ≠ 0 then within3 price median else .ok false

/-- `_continuous` (:514); an oracle whose calls revert imposes nothing. -/
def continuous (old : Oracle) (price : Nat) : Except VaultError Bool :=
  match old.window.bind old.prices with
  | none => .ok true
  | some (lo, hi) => do
    let byLow ← nearTo price lo
    let byHigh ← if byLow then .ok true else nearTo price hi
    return byHigh || decide (lo = 0 ∧ hi = 0)

/-- The constructor's arguments that are not immutables. -/
structure Setup where
  tacHasCode : Bool
  feedHasCode : Bool
  tacDecimals : Nat
  owner : Address
  oracle : Address
  feeTo : Address
  tacSink : Address
  terms : Terms
  debtCeiling : Nat
  borrowFeeBps : Nat

/-- `constructor` (:242); the vault may already have been sent TAC. -/
def construct (cfg : Config) (e : Env) (c : Setup) (tac : Nat) (synth : Address → Nat) : Except VaultError Storage := do
  refuse (c.tacHasCode = false ∨ c.feedHasCode = false) .badConfig
  refuse (c.owner = 0 ∨ c.tacSink = 0 ∨ c.feeTo = 0) .badConfig
  refuse (c.tacDecimals ≠ 18 ∨ cfg.feedMaxStaleness = 0 ∨ c.terms.minDebt = 0 ∨ cfg.minDebtBase ≠ c.terms.minDebt) .badConfig
  refuse (c.terms.redemptionFeeBps > maxRedemptionFeeBps ∨ c.borrowFeeBps > maxBorrowFeeBps) .badConfig
  let _ ← checkWindows (e.oracle c.oracle)
  refuse (cfg.feedDecimals > 18) .badConfig
  validate cfg c.terms .depthBps c.terms.depthBps
  validate cfg c.terms .mintRatioBps c.terms.mintRatioBps
  validate cfg c.terms .liqRatioBps c.terms.liqRatioBps
  validate cfg c.terms .liqBonusBps c.terms.liqBonusBps
  validate cfg c.terms .ownerWindow c.terms.ownerWindow
  validate cfg c.terms .auctionDuration c.terms.auctionDuration
  return {
    vaults := fun _ => ⟨0, 0, 0⟩
    nonces := fun _ => 0
    totalDebt := 0
    debtCeiling := c.debtCeiling
    borrowFeeBps := c.borrowFeeBps
    feeTo := c.feeTo
    tacSink := c.tacSink
    owner := c.owner
    pauser := 0
    pausedFrom := 0
    pausedUntil := 0
    pausedBefore := 0
    terms := c.terms
    queuedParam := fun _ => ⟨0, 0⟩
    oracle := c.oracle
    pendingOracle := 0
    pendingOracleEta := 0
    paramsLocked := false
    oracleLocked := false
    tac := tac
    synth := synth
    minted := 0
    burned := 0
    signed := [] }

section
variable (cfg : Config) (e : Env)

def onlyOwner : Prog Storage VaultError Unit := do
  let s ← get
  check (e.sender ≠ s.owner) .unauthorized

/-- The owner's calls that take no more than a value: `setDebtCeiling`, `setBorrowFee`, `setRedemptionFee`, `setFeeTo`,
`setTacSink`, `setPauser` (:287-:317) and `transferOwnership`. -/
def ownerSets (bad : Prop) [Decidable bad] (f : Storage → Storage) : Prog Storage VaultError Unit := do
  onlyOwner e
  check bad .badConfig
  modify f

def setDebtCeiling (ceiling : Nat) := ownerSets e False fun s => { s with debtCeiling := ceiling }

def setBorrowFee (bps : Nat) := ownerSets e (bps > maxBorrowFeeBps) fun s => { s with borrowFeeBps := bps }

def setRedemptionFee (bps : Nat) := ownerSets e (bps > maxRedemptionFeeBps) fun s =>
  { s with terms := { s.terms with redemptionFeeBps := bps } }

def setFeeTo (to' : Address) := ownerSets e (to' = 0) fun s => { s with feeTo := to' }

def setTacSink (to' : Address) := ownerSets e (to' = 0) fun s => { s with tacSink := to' }

def setPauser (to' : Address) := ownerSets e False fun s => { s with pauser := to' }

def transferOwnership (to' : Address) := ownerSets e (to' = 0) fun s => { s with owner := to' }

/-- `renounceOwnership` (:324). -/
def renounceOwnership : Prog Storage VaultError Unit := do
  onlyOwner e
  check (e.minters ≠ 0) .mintersRemain
  modify fun s => { s with pauser := 0, owner := 0 }

/-- `lowerDepthBps` (:335). -/
def lowerDepthBps (bps : Nat) : Prog Storage VaultError Unit := do
  onlyOwner e
  let s ← get
  check (s.paramsLocked = true) .locked
  check (bps ≥ s.terms.depthBps) .badConfig
  modify fun s => { s with terms := { s.terms with depthBps := bps } }

/-- `pauseAuctions` (:345). -/
def pauseAuctions (duration : Nat) : Prog Storage VaultError Unit := do
  let s ← get
  check (e.sender ≠ s.owner ∧ e.sender ≠ s.pauser) .unauthorized
  check (duration = 0 ∨ duration > maxPause) .badConfig
  let till ← ofExcept (add e.now duration)
  if e.now < s.pausedUntil then do
    let most ← ofExcept (add s.pausedFrom maxPause)
    check (till ≤ s.pausedUntil ∨ till > most) .badConfig
    modify fun s => { s with pausedUntil := till }
  else do
    let twice ← ofExcept (mul 2 s.pausedUntil)
    let from' ← ofExcept (sub twice s.pausedFrom)
    check (e.now < from') .pauseCooldown
    let ran ← ofExcept (sub s.pausedUntil s.pausedFrom)
    let before ← ofExcept (add s.pausedBefore ran)
    modify fun s => { s with pausedBefore := before, pausedFrom := e.now, pausedUntil := till }

/-- `resumeAuctions` (:361). -/
def resumeAuctions : Prog Storage VaultError Unit := do
  onlyOwner e
  let s ← get
  check (e.now ≥ s.pausedUntil) .badConfig
  modify fun s => { s with pausedUntil := e.now }

/-- `queueParam` (:381). -/
def queueParam (id : Param) (v : Nat) : Prog Storage VaultError Unit := do
  onlyOwner e
  let s ← get
  check (s.paramsLocked = true) .locked
  check (v ≥ 2 ^ 192) .badConfig
  ofExcept (validate cfg s.terms id v)
  let eta ← ofExcept (add e.now paramDelay)
  modify fun s => { s with queuedParam := Function.update s.queuedParam id ⟨v, eta % 2 ^ 64⟩ }

/-- `executeParam` (:392). -/
def executeParam (id : Param) : Prog Storage VaultError Unit := do
  onlyOwner e
  let s ← get
  check (s.paramsLocked = true) .locked
  let q := s.queuedParam id
  check (q.eta = 0) .nothingQueued
  check (e.now < q.eta) .tooEarly
  check (e.now > q.eta + queueExpiry) .expired
  ofExcept (validate cfg s.terms id q.value)
  modify fun s => { s with queuedParam := Function.update s.queuedParam id ⟨0, 0⟩, terms := s.terms.set q.value id }

/-- `cancelParam` (:410). -/
def cancelParam (id : Param) : Prog Storage VaultError Unit := do
  onlyOwner e
  let s ← get
  check ((s.queuedParam id).eta = 0) .nothingQueued
  modify fun s => { s with queuedParam := Function.update s.queuedParam id ⟨0, 0⟩ }

/-- `lockParams` (:417). -/
def lockParams : Prog Storage VaultError Unit := do
  onlyOwner e
  modify fun s => { s with paramsLocked := true, queuedParam := fun _ => ⟨0, 0⟩ }

/-- `queueOracle` (:426). -/
def queueOracle (oracle : Address) : Prog Storage VaultError Unit := do
  onlyOwner e
  let s ← get
  check (s.oracleLocked = true) .locked
  check (oracle = s.oracle) .badConfig
  let _ ← ofExcept (checkWindows (e.oracle oracle))
  let eta ← ofExcept (add e.now oracleDelay)
  modify fun s => { s with pendingOracle := oracle, pendingOracleEta := eta }

/-- `executeOracle` (:438). -/
def executeOracle : Prog Storage VaultError Unit := do
  onlyOwner e
  let s ← get
  check (s.oracleLocked = true) .locked
  let next := s.pendingOracle
  check (next = 0) .nothingQueued
  check (e.now < s.pendingOracleEta) .tooEarly
  let last ← ofExcept (add s.pendingOracleEta queueExpiry)
  check (e.now > last) .expired
  let price ← ofExcept (answers (e.oracle next))
  let near ← ofExcept (continuous (e.oracle s.oracle) price)
  check (near = false) .badConfig
  modify fun s => { s with pendingOracle := 0, pendingOracleEta := 0, oracle := next }

/-- `cancelOracle` (:452). -/
def cancelOracle : Prog Storage VaultError Unit := do
  onlyOwner e
  let s ← get
  check (s.pendingOracle = 0) .nothingQueued
  modify fun s => { s with pendingOracle := 0, pendingOracleEta := 0 }

/-- `lockOracle` (:461). -/
def lockOracle : Prog Storage VaultError Unit := do
  onlyOwner e
  modify fun s => { s with oracleLocked := true, pendingOracle := 0, pendingOracleEta := 0 }

end

/-! ## The tokens -/

section
variable (cfg : Config) (e : Env)

/-- `SafeTransferLib.safeTransfer` of TAC from the vault. -/
def sendTac (to' : Address) (amount : Nat) : Prog Storage VaultError Unit := do
  let s ← get
  check (s.tac < amount ∨ e.pays = false) .external
  modify fun s => { s with tac := if to' = cfg.self then s.tac else s.tac - amount }

/-- `SafeTransferLib.safeTransferFrom` of TAC to the vault. -/
def pullTac (amount : Nat) : Prog Storage VaultError Unit := do
  check (e.pays = false) .external
  modify fun s => { s with tac := s.tac + amount }

/-- `TacSynth.mint` (:72), called by the vault. -/
def mintSynth (to' : Address) (amount : Nat) : Prog Storage VaultError Unit := do
  check (e.spends = false) .external
  modify fun s => { s with synth := Function.update s.synth to' (s.synth to' + amount), minted := s.minted + amount }

/-- `TacSynth.burnFrom` (:77), called by the vault. -/
def burnSynth (payer : Address) (amount : Nat) : Prog Storage VaultError Unit := do
  let s ← get
  check (e.spends = false ∨ s.synth payer < amount) .external
  modify fun s => { s with synth := Function.update s.synth payer (s.synth payer - amount), burned := s.burned + amount }

/-! ## The borrower -/

/-- `_end` (:909). -/
def endAuction (owner : Address) : Prog Storage VaultError Unit :=
  modify fun s => s.setVault owner { s.vaults owner with auctionStart := 0 }

/-- `_tryEnd` (:901); without a price the auction runs on. -/
def tryEnd (owner : Address) : Prog Storage VaultError Unit := do
  let s ← get
  if (s.vaults owner).debt = 0 then endAuction owner
  else match recovered cfg e s owner with
    | .ok true => endAuction owner
    | _ => pure ()

/-- `_deposit` (:658). -/
def depositFor (owner : Address) (amount : Nat) : Prog Storage VaultError Unit := do
  check (amount = 0 ∨ owner = 0) .badAmount
  let s ← get
  let v := s.vaults owner
  let collateral ← ofExcept (add v.collateral amount)
  modify fun s => s.setVault owner { v with collateral := collateral }
  onlyIf (v.auctionStart ≠ 0) (tryEnd cfg e owner)
  pullTac e amount

/-- `_withdraw` (:667). -/
def withdrawTo (owner : Address) (amount : Nat) (to' : Address) : Prog Storage VaultError Unit := do
  let s ← get
  let v := s.vaults owner
  check (v.auctionStart ≠ 0) .inAuction
  let amount := min amount v.collateral
  check (amount = 0) .badAmount
  let collateral ← ofExcept (sub v.collateral amount)
  let v := { v with collateral := collateral }
  modify fun s => s.setVault owner v
  let s ← get
  ofExcept (if v.debt ≠ 0 then requireBorrowHealthy cfg e s v else .ok ())
  sendTac cfg e to' amount

/-- `_borrow` (:678). -/
def borrowTo (owner : Address) (amount maxFeeBps : Nat) (to' : Address) : Prog Storage VaultError Unit := do
  let s ← get
  let v := s.vaults owner
  check (v.auctionStart ≠ 0) .inAuction
  check (amount = 0) .badAmount
  check (s.borrowFeeBps > maxFeeBps) .feeTooHigh
  let scaled ← ofExcept (mul amount s.borrowFeeBps)
  let fee := scaled / BPS
  let debt ← ofExcept (add v.debt amount)
  let debt ← ofExcept (add debt fee)
  check (debt < s.terms.minDebt) .badAmount
  let total ← ofExcept (add s.totalDebt amount)
  let total ← ofExcept (add total fee)
  check (total > s.debtCeiling) .overCeiling
  let eth ← ofExcept (depth cfg e s)
  let most ← ofExcept (mul eth s.terms.depthBps)
  let lent ← ofExcept (mul total BPS)
  check (lent > most) .overCeiling
  let v := { v with debt := debt }
  modify fun s => { s.setVault owner v with totalDebt := total }
  let s ← get
  ofExcept (requireBorrowHealthy cfg e s v)
  mintSynth e to' amount
  onlyIf (fee ≠ 0) (mintSynth e s.feeTo fee)

/-- `repay` (:640). -/
def repay (owner : Address) (amount : Nat) : Prog Storage VaultError Unit := do
  let s ← get
  let v := s.vaults owner
  let paid := min amount v.debt
  check (paid = 0) .badAmount
  let debt ← ofExcept (sub v.debt paid)
  check (debt ≠ 0 ∧ debt < s.terms.minDebt) .badAmount
  let total ← ofExcept (sub s.totalDebt paid)
  modify fun s => { s.setVault owner { v with debt := debt } with totalDebt := total }
  onlyIf (v.auctionStart ≠ 0) (tryEnd cfg e owner)
  burnSynth e e.sender paid

/-! ## Signatures -/

def borrowTypehash : Word := cfg.keccak.hash (ascii
  "Borrow(address owner,uint256 amount,uint256 maxFeeBps,uint256 minCollateral,address to,uint256 nonce,uint256 deadline)")

def withdrawTypehash : Word := cfg.keccak.hash (ascii
  "Withdraw(address owner,uint256 amount,address to,uint256 nonce,uint256 deadline)")

/-- `digest` (:710) of `keccak256(abi.encode(typehash, fields))`. -/
def digest (typehash : Word) (fields : List Nat) : Word :=
  cfg.keccak.kn [[0x19, 0x01], cfg.domain.bytes,
    (cfg.keccak.kn (typehash.bytes :: fields.map fun n => (wordOfNat n).bytes)).bytes]

/-- `_useNonce` (:714). -/
def useNonceOf (owner : Address) : Prog Storage VaultError Nat := do
  let s ← get
  let next ← ofExcept (add (s.nonces owner) 1)
  modify fun s => { s with nonces := Function.update s.nonces owner next }
  return s.nonces owner

/-- `_authorize` (:719); a signature that is accepted goes into `signed`. -/
def authorize (sig : Signature) (to' : Address) (deadline : Nat) : Prog Storage VaultError Unit := do
  check (e.now > deadline) .expired
  check (to' = 0 ∨ sig.owner = 0) .badAmount
  check (cfg.recover sig.digest sig.bytes ≠ sig.owner ∧ e.erc1271 sig.owner sig.digest sig.bytes = false) .badSignature
  modify fun s => { s with signed := s.signed ++ [sig] }

/-- `withdrawFor` (:608). -/
def withdrawFor (owner : Address) (amount : Nat) (to' : Address) (deadline : Nat) (sig : Bytes) :
    Prog Storage VaultError Unit := do
  let nonce ← useNonceOf owner
  let h := digest cfg (withdrawTypehash cfg) [owner, amount, to', nonce, deadline]
  authorize cfg e ⟨owner, nonce, h, sig⟩ to' deadline
  withdrawTo cfg e owner amount to'

/-- `borrowFor` (:621). -/
def borrowFor (owner : Address) (amount maxFeeBps minCollateral : Nat) (to' : Address) (deadline : Nat) (sig : Bytes) :
    Prog Storage VaultError Unit := do
  let nonce ← useNonceOf owner
  let h := digest cfg (borrowTypehash cfg) [owner, amount, maxFeeBps, minCollateral, to', nonce, deadline]
  authorize cfg e ⟨owner, nonce, h, sig⟩ to' deadline
  let s ← get
  check ((s.vaults owner).collateral < minCollateral) .tooLittleCollateral
  borrowTo cfg e owner amount maxFeeBps to'

/-- `useNonce` (:654). -/
def useNonce : Prog Storage VaultError Unit := do
  let _ ← useNonceOf e.sender

/-! ## Liquidation and redemption -/

/-- `liquidate` (:737). -/
def liquidate (owner : Address) : Prog Storage VaultError Unit := do
  let s ← get
  check (s.paused e.now) .paused
  let v := s.vaults owner
  check (v.auctionStart ≠ 0) .inAuction
  check (v.debt = 0) .healthy
  let price ← ofExcept (liqUsdPerTac cfg e s)
  let worth ← ofExcept (value v.collateral price)
  let have' ← ofExcept (mul worth BPS)
  let needed ← ofExcept (mul v.debt s.terms.liqRatioBps)
  check (have' ≥ needed) .healthy
  let t ← ofExcept (auctionTime e.now s)
  modify fun s => s.setVault owner { v with auctionStart := t }

/-- `cancel` (:747). -/
def cancel (owner : Address) : Prog Storage VaultError Unit := do
  let s ← get
  check ((s.vaults owner).auctionStart = 0) .noAuction
  let ok ← ofExcept (recovered cfg e s owner)
  check (ok = false) .stillUnhealthy
  endAuction owner

/-- `_offer` (:761). -/
def offer (s : Storage) (owner : Address) : Except VaultError (Nat × Bool) :=
  let v := s.vaults owner
  match offerUsdPerTac cfg e s with
  | .error _ => .ok (v.collateral, false)
  | .ok price => do
    let t ← auctionTime e.now s
    let since ← sub t v.auctionStart
    let elapsed := min since s.terms.auctionDuration
    let scaled ← mul s.terms.liqBonusBps elapsed
    let rate ← add BPS (scaled / s.terms.auctionDuration)
    let owed ← mul v.debt rate
    let tac ← fullMulDiv (owed / BPS) WAD price
    return (min v.collateral tac, true)

/-- What keeps others than the owner from bidding (:779-:788). -/
def checkBidder (s : Storage) (owner : Address) (priced : Bool) : Except VaultError Unit := do
  refuse (s.paused e.now) .paused
  let t ← auctionTime e.now s
  let from' ← add (s.vaults owner).auctionStart s.terms.ownerWindow
  refuse (t < from') .ownerWindow
  refuse (priced = false) .noPrice
  match recovered cfg e s owner with
  | .ok ok => refuse (ok = true) .healthy
  | .error _ => .error .noPrice

/-- `bid` (:775). -/
def bid (owner : Address) (amount minTac : Nat) : Prog Storage VaultError Unit := do
  let s ← get
  let v := s.vaults owner
  check (v.auctionStart = 0) .noAuction
  let (most, priced) ← ofExcept (offer cfg e s owner)
  ofExcept (if e.sender ≠ owner then checkBidder cfg e s owner priced else .ok ())
  let amount := min amount v.debt
  check (amount = 0) .badAmount
  let debt ← ofExcept (sub v.debt amount)
  check (debt ≠ 0 ∧ debt < s.terms.minDebt) .badAmount
  let scaled ← ofExcept (mul most amount)
  let taken := scaled / v.debt
  check (taken < minTac) .badAmount
  let collateral ← ofExcept (sub v.collateral taken)
  let total ← ofExcept (sub s.totalDebt amount)
  modify fun s => { s.setVault owner { v with collateral := collateral, debt := debt } with totalDebt := total }
  tryEnd cfg e owner
  burnSynth e e.sender amount
  sendTac cfg e e.sender taken

/-- How much of a debt the reserve burns (:814-:821). -/
def absorbed (debt reserve minDebt : Nat) : Except VaultError Nat :=
  if reserve < debt then do
    refuse (debt ≤ minDebt) .badAmount
    let most ← sub debt minDebt
    return min reserve most
  else .ok debt

/-- `absorb` (:806). -/
def absorb (owner : Address) : Prog Storage VaultError Unit := do
  let s ← get
  check (s.paused e.now) .paused
  let v := s.vaults owner
  check (v.auctionStart = 0) .noAuction
  let t ← ofExcept (auctionTime e.now s)
  let since ← ofExcept (sub t v.auctionStart)
  check (since < s.terms.auctionDuration) .tooEarly
  let price ← ofExcept (liqUsdPerTac cfg e s)
  let worth ← ofExcept (value v.collateral price)
  check (worth ≥ v.debt) .healthy
  let amount ← ofExcept (absorbed v.debt (s.synth cfg.self) s.terms.minDebt)
  check (amount = 0) .badAmount
  let scaled ← ofExcept (mul v.collateral amount)
  let tac := scaled / v.debt
  let debt ← ofExcept (sub v.debt amount)
  let collateral ← ofExcept (sub v.collateral tac)
  let total ← ofExcept (sub s.totalDebt amount)
  modify fun s => { s.setVault owner { v with collateral := collateral, debt := debt } with totalDebt := total }
  tryEnd cfg e owner
  burnSynth e cfg.self amount
  sendTac cfg e s.tacSink tac

/-- `redeem` (:836). -/
def redeem (owner : Address) (amount minTac : Nat) : Prog Storage VaultError Unit := do
  let s ← get
  check (s.paused e.now) .paused
  let v := s.vaults owner
  check (v.auctionStart ≠ 0) .inAuction
  check (amount = 0 ∨ amount > v.debt) .badAmount
  let debt ← ofExcept (sub v.debt amount)
  check (debt ≠ 0 ∧ debt < s.terms.minDebt) .badAmount
  let price ← ofExcept (liqUsdPerTac cfg e s)
  let worth ← ofExcept (value v.collateral price)
  let scaled ← ofExcept (mul worth BPS)
  let ratio := scaled / v.debt
  check (ratio < s.terms.liqRatioBps) .stillUnhealthy
  let twice ← ofExcept (mul 2 s.terms.liqRatioBps)
  check (ratio ≥ twice) .healthy
  let above ← ofExcept (sub ratio s.terms.liqRatioBps)
  let rise ← ofExcept (mul (s.terms.redemptionFeeBps * 3) above)
  let fee ← ofExcept (add s.terms.redemptionFeeBps (rise / s.terms.liqRatioBps))
  let kept ← ofExcept (sub BPS fee)
  let paid ← ofExcept (mul amount kept)
  let offerPrice ← ofExcept (offerUsdPerTac cfg e s)
  let tac ← ofExcept (fullMulDiv (paid / BPS) WAD offerPrice)
  check (tac < minTac ∨ tac > v.collateral) .badAmount
  let collateral ← ofExcept (sub v.collateral tac)
  let total ← ofExcept (sub s.totalDebt amount)
  modify fun s => { s.setVault owner { v with collateral := collateral, debt := debt } with totalDebt := total }
  burnSynth e e.sender amount
  sendTac cfg e e.sender tac

end

/-! ## Calls -/

/-- A call by anyone. `sendTac` is TAC sent to the vault from outside, `moveSynth` what the holders and the other minters of
SYNTH do. -/
inductive Call
  | sendTac (amount : Nat)
  | moveSynth (synth : Address → Nat)
  | deposit (amount : Nat)
  | depositFor (owner : Address) (amount : Nat)
  | withdraw (amount : Nat)
  | withdrawFor (owner : Address) (amount : Nat) (to' : Address) (deadline : Nat) (sig : Bytes)
  | borrow (amount maxFeeBps : Nat)
  | borrowFor (owner : Address) (amount maxFeeBps minCollateral : Nat) (to' : Address) (deadline : Nat) (sig : Bytes)
  | repay (owner : Address) (amount : Nat)
  | useNonce
  | liquidate (owner : Address)
  | cancel (owner : Address)
  | bid (owner : Address) (amount minTac : Nat)
  | absorb (owner : Address)
  | redeem (owner : Address) (amount minTac : Nat)
  | setDebtCeiling (ceiling : Nat)
  | setBorrowFee (bps : Nat)
  | setRedemptionFee (bps : Nat)
  | setFeeTo (to' : Address)
  | setTacSink (to' : Address)
  | setPauser (to' : Address)
  | transferOwnership (to' : Address)
  | renounceOwnership
  | lowerDepthBps (bps : Nat)
  | pauseAuctions (duration : Nat)
  | resumeAuctions
  | queueParam (id : Param) (v : Nat)
  | executeParam (id : Param)
  | cancelParam (id : Param)
  | lockParams
  | queueOracle (oracle : Address)
  | executeOracle
  | cancelOracle
  | lockOracle

def Call.prog (cfg : Config) (e : Env) : Call → Prog Storage VaultError Unit
  | .sendTac amount => modify fun s => { s with tac := s.tac + amount }
  | .moveSynth synth => modify fun s => { s with synth := synth }
  | .deposit amount => TacVault.depositFor cfg e e.sender amount
  | .depositFor owner amount => TacVault.depositFor cfg e owner amount
  | .withdraw amount => withdrawTo cfg e e.sender amount e.sender
  | .withdrawFor owner amount to' deadline sig => TacVault.withdrawFor cfg e owner amount to' deadline sig
  | .borrow amount maxFeeBps => borrowTo cfg e e.sender amount maxFeeBps e.sender
  | .borrowFor owner amount maxFeeBps minCollateral to' deadline sig =>
    TacVault.borrowFor cfg e owner amount maxFeeBps minCollateral to' deadline sig
  | .repay owner amount => TacVault.repay cfg e owner amount
  | .useNonce => TacVault.useNonce e
  | .liquidate owner => TacVault.liquidate cfg e owner
  | .cancel owner => TacVault.cancel cfg e owner
  | .bid owner amount minTac => TacVault.bid cfg e owner amount minTac
  | .absorb owner => TacVault.absorb cfg e owner
  | .redeem owner amount minTac => TacVault.redeem cfg e owner amount minTac
  | .setDebtCeiling ceiling => TacVault.setDebtCeiling e ceiling
  | .setBorrowFee bps => TacVault.setBorrowFee e bps
  | .setRedemptionFee bps => TacVault.setRedemptionFee e bps
  | .setFeeTo to' => TacVault.setFeeTo e to'
  | .setTacSink to' => TacVault.setTacSink e to'
  | .setPauser to' => TacVault.setPauser e to'
  | .transferOwnership to' => TacVault.transferOwnership e to'
  | .renounceOwnership => TacVault.renounceOwnership e
  | .lowerDepthBps bps => TacVault.lowerDepthBps e bps
  | .pauseAuctions duration => TacVault.pauseAuctions e duration
  | .resumeAuctions => TacVault.resumeAuctions e
  | .queueParam id v => TacVault.queueParam cfg e id v
  | .executeParam id => TacVault.executeParam cfg e id
  | .cancelParam id => TacVault.cancelParam e id
  | .lockParams => TacVault.lockParams e
  | .queueOracle oracle => TacVault.queueOracle e oracle
  | .executeOracle => TacVault.executeOracle e
  | .cancelOracle => TacVault.cancelOracle e
  | .lockOracle => TacVault.lockOracle e

/-- Calls one after another. -/
def run (cfg : Config) (calls : List (Env × Call)) (s : Storage) : Storage :=
  calls.foldl (fun s c => (c.2.prog cfg c.1).call s) s

end TacVault

end Tacit
