import Mathlib.Algebra.Group.Defs
import Tacit.Indexer.Chain
/-!
# Pool envelopes (worker/src/btc-shielded-pool.js:44-255)

What the pool's replay reads out of a carrier: the canonical parsers, the kernel of a shield and its signature. What comes from
elsewhere is a parameter (`Library`): secp256k1 and SHA-256 from @noble, Poseidon, and the two functions of dapp/btc-pool-zk*.js.
-/
namespace Tacit

namespace Replay

open Indexer (bytesToHex)

def P_FR : Nat := 21888242871839275222246405745257275088548364400416034343698204186575808495617
def P_FIELD : Nat := 0xfffffffffffffffffffffffffffffffffffffffffffffffffffffffefffffc2f
def N_ORDER : Nat := 0xfffffffffffffffffffffffffffffffebaaedce6af48a03bbfd25e8cd0364141

def T_BTC_SHIELD : Nat := 0x6c
def T_BTC_SPEND : Nat := 0x6d
def T_BTC_AGG : Nat := 0x6e
def AGG_WRAP_PLONK : Nat := 1
def AGG_WRAP_GROTH16 : Nat := 2
def AGG_PROOF_MAX : Nat := 4096
def SHIELD_MAX_IN : Nat := 8
def SPEND_MAX_IN : Nat := 2
def SPEND_MAX_OUT : Nat := 3
def PROOF_MAX : Nat := 4096
def CT_NOTE_LEN : Nat := 24
def OUTPUT_LEN : Nat := 32 + 33 + CT_NOTE_LEN
def BIND_LEN : Nat := 32 + 4
def WANT_LEN : Nat := 4 + 8 + 32
def XCURVE_PROOF_LEN : Nat := 169
def BPP_M1_LEN : Nat := 591
def BOUNDARY_LEN : Nat := 33 + 32 + XCURVE_PROOF_LEN + BPP_M1_LEN
def EXIT_LEN : Nat := 4 + 32 + BOUNDARY_LEN
def KERNEL_SIG_LEN : Nat := 64

/-! ## Bytes -/

/-- `e.slice(i, j)`. -/
def slice (e : Bytes) (i j : Nat) : Bytes := (e.drop i).take (j - i)

/-- `bytesToBig` (:66). -/
def bytesToBig (b : Bytes) : Nat := b.foldl (fun n x => n * 256 + x) 0

/-- `bigTo32` (:67). -/
def bigTo32 (n : Nat) : Bytes := beBytes 32 n

/-- `parseInt(…, 16)` of a digit. -/
def hexDigit (c : Char) : Option Nat :=
  if '0' ≤ c ∧ c ≤ '9' then some (c.toNat - '0'.toNat)
  else if 'a' ≤ c ∧ c ≤ 'f' then some (c.toNat - 'a'.toNat + 10)
  else if 'A' ≤ c ∧ c ≤ 'F' then some (c.toNat - 'A'.toNat + 10)
  else none

def hexPairs : List Char → Option Bytes
  | [] => some []
  | [_] => none
  | a :: b :: l => do
    let hi ← hexDigit a
    let lo ← hexDigit b
    let rest ← hexPairs l
    return (hi * 16 + lo) :: rest

/-- `hexToBytes` (:46); `none` where it throws. -/
def hexToBytes (h : String) : Option Bytes :=
  match h.toList with
  | '0' :: 'x' :: l => hexPairs l
  | l => hexPairs l

/-! ## What is imported -/

/-- `decodeBoundary` (dapp/btc-pool-zk-boundary.js). -/
structure Boundary where
  cSecp : Bytes
  cBjj : Bytes
  sigma : Bytes
  bpp : Bytes

/-- What `spendPublics` is called with. -/
structure Publics where
  root : Nat
  body : Bytes
  asset : Bytes
  nullifiers : List Nat
  outLeaves : List Nat
  exitC : Option (Nat × Nat)
  depC : Option (Nat × Nat)

/-- The imports, over the points `P` of secp256k1. -/
structure Library (P : Type) where
  /-- `Point.BASE`. -/
  base : P
  /-- `Point.fromHex`, of 33 bytes; `none` where it throws. -/
  fromHex : Bytes → Option P
  /-- `Point.fromAffine(…).assertValidity()`; `none` where it throws. -/
  fromAffine : Nat → Nat → Option P
  /-- `toAffine`. -/
  toAffine : P → Nat × Nat
  sha256 : Bytes → Bytes
  poseidon2 : Nat → Nat → Nat
  /-- dapp/btc-pool-zk-boundary.js. -/
  verifyBoundary : Boundary → Option (Nat × Nat)
  /-- dapp/btc-pool-zk.js:295. -/
  spendPublics : Publics → List Nat

section

variable {P : Type} (L : Library P)

/-! ## secp256k1 -/

/-- `pointFromCompressed` (:77). -/
def pointFromCompressed (b : Bytes) : Option P :=
  if b.length ≠ 33 ∨ (b.headD 0 ≠ 0x02 ∧ b.headD 0 ≠ 0x03) then none
  else if P_FIELD ≤ bytesToBig (b.drop 1) then none
  else L.fromHex b

/-- `pointFromXY` (:83). -/
def pointFromXY (cx cy : Bytes) : Option P :=
  let x := bytesToBig cx
  let y := bytesToBig cy
  if P_FIELD ≤ x ∨ P_FIELD ≤ y then none else L.fromAffine x y

/-- `liftX` (:88). -/
def liftX (x32 : Bytes) : Option P := if x32.length ≠ 32 then none else pointFromCompressed L (0x02 :: x32)

/-- `pointXY` (:93). -/
def pointXY (p : P) : Bytes × Bytes := (bigTo32 (L.toAffine p).1, bigTo32 (L.toAffine p).2)

/-- `taggedHash` (:101). -/
def taggedHash (tag : String) (msg : Bytes) : Bytes :=
  let t := L.sha256 (ascii tag)
  L.sha256 (t ++ t ++ msg)

/-- `mulPoint` (:97). -/
def mulPoint [AddCommGroup P] (p : P) (k : Nat) : P := (k % N_ORDER) • p

/-- `bip340Verify` (:105). -/
def bip340Verify [AddCommGroup P] [DecidableEq P] (sig msg pubX : Bytes) : Bool :=
  if sig.length ≠ 64 ∨ msg.length ≠ 32 ∨ pubX.length ≠ 32 then false
  else
    match liftX L pubX with
    | none => false
    | some p =>
      let r := bytesToBig (sig.take 32)
      let s := bytesToBig (sig.drop 32)
      if P_FIELD ≤ r ∨ N_ORDER ≤ s then false
      else
        let e := bytesToBig (taggedHash L "BIP0340/challenge" (sig.take 32 ++ pubX ++ msg)) % N_ORDER
        let q := mulPoint L.base s - mulPoint p e
        if q = 0 then false else (L.toAffine q).2 % 2 = 0 ∧ (L.toAffine q).1 = r

structure Outpoint where
  txid : String
  vout : Nat
deriving DecidableEq

/-- `shieldKernelMsg` (:124); `none` where a txid is not hex. -/
def shieldKernelMsg (body : Bytes) (outpoints : List Outpoint) : Option Bytes := do
  let parts ← outpoints.mapM fun op => do
    let txid ← hexToBytes op.txid
    return txid.reverse ++ leBytes 4 op.vout
  return L.sha256 (ascii "tacit-btc-pool-zk-shield-v1" ++ parts.flatten ++ body)

/-! ## The canonical parsers -/

/-- `fieldOk` (:133). -/
def fieldOk (b : Bytes) : Prop := bytesToBig b < P_FR

instance (b : Bytes) : Decidable (fieldOk b) := inferInstanceAs (Decidable (bytesToBig b < P_FR))

/-- An output; the parser lets no other leaf through. -/
structure Output where
  leaf : Bytes
  pkEph : Bytes
  ctNote : Bytes
  field : fieldOk leaf

/-- `readOutputs` (:135): the outputs and where they end. -/
def readOutputs (e : Bytes) : Nat → Nat → Option (List Output × Nat)
  | p, 0 => some ([], p)
  | p, n + 1 =>
    let leaf := slice e p (p + 32)
    let pkEph := slice e (p + 32) (p + 65)
    let ctNote := slice e (p + 65) (p + 65 + CT_NOTE_LEN)
    if h : fieldOk leaf ∧ bytesToBig leaf ≠ 0 ∧ (pointFromCompressed L pkEph).isSome then do
      let (outputs, q) ← readOutputs e (p + OUTPUT_LEN) n
      return (⟨leaf, pkEph, ctNote, h.1⟩ :: outputs, q)
    else none

def decodeBoundary (b : Bytes) : Option Boundary :=
  if b.length ≠ BOUNDARY_LEN then none
  else some ⟨slice b 0 33, slice b 33 65, slice b 65 (65 + XCURVE_PROOF_LEN), b.drop (65 + XCURVE_PROOF_LEN)⟩

/-- `readBoundary` (:146). -/
def readBoundary (e : Bytes) (p : Nat) : Option Boundary := do
  let bd ← decodeBoundary (slice e p (p + BOUNDARY_LEN))
  guard (pointFromCompressed L bd.cSecp).isSome
  return bd

structure Shield where
  asset : Bytes
  nIn : Nat
  outputs : List Output
  boundary : Boundary
  body : Bytes
  kernelSig : Bytes
  proofLen : Nat
  proof : Bytes

/-- `parseShield` (:154). -/
def parseShield (e : Bytes) : Option Shield := do
  guard (35 ≤ e.length ∧ e.headD 0 = T_BTC_SHIELD)
  let nIn := e.getD 33 0
  guard (1 ≤ nIn ∧ nIn ≤ SHIELD_MAX_IN)
  let nOut := e.getD 34 0
  guard (1 ≤ nOut ∧ nOut ≤ SPEND_MAX_OUT)
  guard (35 + nOut * OUTPUT_LEN + BOUNDARY_LEN + KERNEL_SIG_LEN + 2 ≤ e.length)
  let (outputs, p) ← readOutputs L e 35 nOut
  let boundary ← readBoundary L e p
  let p := p + BOUNDARY_LEN
  let proofLen := leNat (slice e (p + KERNEL_SIG_LEN) (p + KERNEL_SIG_LEN + 2))
  guard (proofLen ≤ PROOF_MAX ∧ e.length = p + KERNEL_SIG_LEN + 2 + proofLen)
  return ⟨slice e 1 33, nIn, outputs, boundary, e.take p, slice e p (p + KERNEL_SIG_LEN), proofLen,
    e.drop (p + KERNEL_SIG_LEN + 2)⟩

structure Exit where
  exitVout : Nat
  destSpkHash : Bytes
  boundary : Boundary

structure Want where
  vout : Nat
  value : Nat
  spkHash : Bytes

structure Spend where
  asset : Bytes
  hAnchor : Nat
  bind : Option Outpoint
  nIn : Nat
  nullifiers : List Bytes
  outputs : List Output
  exit : Option Exit
  want : Option Want
  body : Bytes
  proofLen : Nat
  proof : Bytes

/-- The bound outpoint, absent when all zero (:185). -/
def readBind (bind : Bytes) : Option Outpoint :=
  if bind.all (· = 0) then none else some ⟨bytesToHex (bind.take 32).reverse, leNat (bind.drop 32)⟩

/-- The nullifiers (:190). -/
def readNullifiers (e : Bytes) : Nat → Nat → Option (List Bytes)
  | _, 0 => some []
  | p, n + 1 => do
    let nf := slice e p (p + 32)
    guard (fieldOk nf ∧ bytesToBig nf ≠ 0)
    let rest ← readNullifiers e (p + 32) n
    return nf :: rest

/-- The exit behind its flag (:203), and where it ends. -/
def readExit (e : Bytes) (p : Nat) : Option (Option Exit × Nat) :=
  let hasExit := e.getD p 0
  if 1 < hasExit then none
  else if hasExit = 0 then some (none, p + 1)
  else do
    guard (p + 1 + EXIT_LEN ≤ e.length)
    let boundary ← readBoundary L e (p + 1 + 36)
    return (some ⟨leNat (slice e (p + 1) (p + 5)), slice e (p + 5) (p + 37), boundary⟩, p + 1 + EXIT_LEN)

/-- The want behind its flag (:216), and where it ends. -/
def readWant (e : Bytes) (p : Nat) : Option (Option Want × Nat) := do
  guard (p + 1 ≤ e.length)
  let hasWant := e.getD p 0
  guard (hasWant ≤ 1)
  if hasWant = 0 then return (none, p + 1)
  else do
    guard (p + 1 + WANT_LEN ≤ e.length)
    return (some ⟨leNat (slice e (p + 1) (p + 5)), leNat (slice e (p + 5) (p + 13)), slice e (p + 13) (p + 1 + WANT_LEN)⟩,
      p + 1 + WANT_LEN)

/-- `parseSpend` (:178). -/
def parseSpend (e : Bytes) : Option Spend := do
  guard (1 + 32 + 4 + BIND_LEN + 1 ≤ e.length ∧ e.headD 0 = T_BTC_SPEND)
  let nIn := e.getD 73 0
  guard (1 ≤ nIn ∧ nIn ≤ SPEND_MAX_IN)
  guard (74 + 32 * nIn + 1 ≤ e.length)
  let nullifiers ← readNullifiers e 74 nIn
  let p := 74 + 32 * nIn
  let nOut := e.getD p 0
  guard (nOut ≤ SPEND_MAX_OUT)
  guard (p + 1 + nOut * OUTPUT_LEN + 1 ≤ e.length)
  let (outputs, p) ← readOutputs L e (p + 1) nOut
  let (exit, p) ← readExit L e p
  let (want, p) ← readWant e p
  guard (1 ≤ nOut + if exit.isSome then 1 else 0)
  guard (p + 2 ≤ e.length)
  let proofLen := leNat (slice e p (p + 2))
  guard (proofLen ≤ PROOF_MAX)
  guard (e.length = p + 2 + proofLen)
  return ⟨slice e 1 33, leNat (slice e 33 37), readBind (slice e 37 73), nIn, nullifiers, outputs, exit, want, e.take p, proofLen,
    e.drop (p + 2)⟩

structure Aggregate where
  wrap : Nat
  n : Nat
  proofLen : Nat
  proof : Bytes

/-- `parseAggregate` (:237). -/
def parseAggregate (e : Bytes) : Option Aggregate := do
  guard (5 ≤ e.length ∧ e.headD 0 = T_BTC_AGG)
  let wrap := e.getD 1 0
  let n := e.getD 2 0
  guard (wrap = AGG_WRAP_PLONK ∨ wrap = AGG_WRAP_GROTH16)
  guard (1 ≤ n)
  let proofLen := leNat (slice e 3 5)
  guard (1 ≤ proofLen ∧ proofLen ≤ AGG_PROOF_MAX ∧ e.length = 5 + proofLen)
  return ⟨wrap, n, proofLen, e.drop 5⟩

inductive Envelope
  | shield (s : Shield)
  | spend (s : Spend)
  | aggregate (a : Aggregate)

/-- `parseEnvelope` (:268). -/
def parseEnvelope (e : Bytes) : Option Envelope :=
  match e with
  | [] => none
  | opcode :: _ =>
    if opcode = T_BTC_SHIELD then (parseShield L e).map .shield
    else if opcode = T_BTC_SPEND then (parseSpend L e).map .spend
    else if opcode = T_BTC_AGG then (parseAggregate e).map .aggregate
    else none

/-- `envelopePublics` of a shield (:282). -/
def shieldPublics (s : Shield) (depC : Nat × Nat) : List Nat :=
  L.spendPublics ⟨0, s.body, s.asset, [], s.outputs.map fun o => bytesToBig o.leaf, none, some depC⟩

/-- `envelopePublics` of a spend (:285). -/
def spendPublicsOf (s : Spend) (root : Bytes) (boundaryC : Option (Nat × Nat)) : List Nat :=
  L.spendPublics ⟨bytesToBig root, s.body, s.asset, s.nullifiers.map bytesToBig, s.outputs.map fun o => bytesToBig o.leaf,
    if s.exit.isSome then boundaryC else none, none⟩

/-- An exit's commitment is a point. -/
def Spend.WellFormed (s : Spend) : Prop := ∀ x ∈ s.exit, (pointFromCompressed L x.boundary.cSecp).isSome

variable {L}

theorem readBoundary_point {e : Bytes} {p : Nat} {bd : Boundary} (h : readBoundary L e p = some bd) :
    (pointFromCompressed L bd.cSecp).isSome := by
  simp only [readBoundary, Option.bind_eq_bind, Option.bind_eq_some_iff, Option.guard_eq_some', Option.pure_def,
    Option.some.injEq] at h
  obtain ⟨_, -, -, hpoint, rfl⟩ := h
  exact hpoint

theorem readExit_point {e : Bytes} {p q : Nat} {exit : Option Exit} (h : readExit L e p = some (exit, q)) :
    ∀ x ∈ exit, (pointFromCompressed L x.boundary.cSecp).isSome := by
  unfold readExit at h
  dsimp only at h
  split_ifs at h
  · cases h
    exact fun _ hx => (Option.not_mem_none _ hx).elim
  · simp only [Option.bind_eq_bind, Option.bind_eq_some_iff, Option.pure_def, Option.some.injEq, Prod.mk.injEq] at h
    obtain ⟨_, -, boundary, hboundary, rfl, -⟩ := h
    rintro x ⟨⟩
    exact readBoundary_point hboundary

theorem parseSpend_wellFormed {e : Bytes} {s : Spend} (h : parseSpend L e = some s) : s.WellFormed L := by
  simp only [parseSpend, Option.bind_eq_bind, Option.bind_eq_some_iff, Option.pure_def, Option.some.injEq] at h
  obtain ⟨-, -, -, -, -, -, _, -, -, -, -, -, _, -, ⟨exit, q⟩, hexit, _, -, -, -, -, -, -, -, -, -, rfl⟩ := h
  exact readExit_point hexit

/-- What the replay is handed. -/
def Envelope.WellFormed (L : Library P) : Envelope → Prop
  | .spend s => s.WellFormed L
  | _ => True

theorem parseEnvelope_wellFormed {e : Bytes} {s : Envelope} (h : parseEnvelope L e = some s) : s.WellFormed L := by
  match e with
  | [] => cases h
  | opcode :: rest =>
    rw [parseEnvelope] at h
    split_ifs at h
    · obtain ⟨s, -, rfl⟩ := Option.map_eq_some_iff.1 h
      trivial
    · obtain ⟨s, hs, rfl⟩ := Option.map_eq_some_iff.1 h
      exact parseSpend_wellFormed hs
    · obtain ⟨a, -, rfl⟩ := Option.map_eq_some_iff.1 h
      trivial

end

end Replay

end Tacit
