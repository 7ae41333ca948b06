import Mathlib.Algebra.Order.BigOperators.Group.List
import Tacit.Reflection.Scan
import Tacit.Reflection.Sets
/-!
# What the reflection holds of an asset

A commitment hides an integer; `V` names it, by the commitment's hash. What a state holds of an asset is the
value of its live notes and the reserves of its pools and treasuries. Shares of a pool are an asset of their
own: the pool issues them (its total, less the fee shares not claimed yet), and a farm keeps the bonded ones.
-/
namespace Tacit

open Prog

namespace SortedMap

variable {κ ν : Type} [LinearOrder κ] {m : SortedMap κ ν} {f g : κ → ν → Int} {k : κ} {v w : ν}

theorem total_set_of_none (h : m.get k = none) : (m.set k v).total f = m.total f + f k v := by
  rw [total_set, at'_of_none h]
  omega

theorem total_set_of_some (h : m.get k = some w) : (m.set k v).total f = m.total f + f k v - f k w := by
  rw [total_set, at'_of_some h]

theorem total_sub : m.total (fun k v => f k v - g k v) = m.total f - m.total g := by
  unfold total totalL
  induction m.entries with
  | nil => rfl
  | cons x l ih =>
    simp only [List.map_cons, List.sum_cons, ih]
    omega

end SortedMap

section Value

variable (C : Crypto) (V : Word → Nat) (a : Word)

/-- `v`, counted for the asset `a`. -/
def amount (asset : Word) (v : Nat) : Nat := if asset = a then v else 0

/-- The value of a point. -/
def pointValue (p : Point) : Nat := V (commitmentHash C.toKeccak p.x p.y)

/-- The value of a live note, counted for the asset `a`. -/
def noteValue (n : LiveNote) : Nat := amount a n.asset (V n.commitmentHash)

/-- The reserves of a pool or a treasury, counted for the asset `a`. -/
def reserveValue (p : PoolReserveState) : Nat := amount a p.assetA p.reserveA.val + amount a p.assetB p.reserveB.val

/-- The shares a pool has issued, counted for the asset `a`. -/
def sharesIssued (poolId : Word) (p : PoolReserveState) : Int :=
  amount a (ammDeriveLpAssetId C poolId) p.totalShares.val - amount a (ammDeriveLpAssetId C poolId) p.protocolFeeAccrued.val

/-- The shares bonded in a farm, counted for the asset `a`. -/
def sharesBonded (st : FarmRewardState) : Nat := amount a st.lpAsset st.totalShares.val

namespace ScanReflection

/-- Live notes, pool reserves and farm treasuries of the asset `a`. -/
def held (s : ScanReflection) : Int :=
  s.live.total (fun _ n => noteValue V a n) + s.pools.total (fun _ p => reserveValue a p)

def bonded (s : ScanReflection) : Int := s.farmRewards.total fun _ st => sharesBonded a st

def issued (s : ScanReflection) : Int := s.pools.total fun id p => sharesIssued C a id p

/-- What is held, with the bonded shares and against the issued ones. -/
def value (s : ScanReflection) : Int := s.held V a + s.bonded a - s.issued C a

end ScanReflection

/-- What a pool adds to `value`. -/
def poolValue (poolId : Word) (p : PoolReserveState) : Int := reserveValue a p - sharesIssued C a poolId p

/-- `value` by the three maps it reads. -/
def mapsValue (live : LiveUtxoSet) (pools : SortedMap Word PoolReserveState) (farms : SortedMap Word FarmRewardState) : Int :=
  live.total (fun _ n => noteValue V a n) + pools.total (poolValue C a) + farms.total fun _ st => sharesBonded a st

/-- The value of the notes a transaction spends. -/
def credit (spends : List DetectedSpend) : Nat := (spends.map fun d => noteValue V a d.note).sum

variable {a} in
theorem amount_add (x : Word) (u v : Nat) : amount a x (u + v) = amount a x u + amount a x v := by
  unfold amount
  split <;> simp

variable {a} in
theorem amount_le {u v : Nat} (x : Word) (h : u ≤ v) : amount a x u ≤ amount a x v := by
  unfold amount
  split <;> simp [h]

variable {a} in
theorem amount_sub_add {u v : Nat} (x : Word) (h : v ≤ u) : amount a x (u - v) + amount a x v = amount a x u := by
  rw [← amount_add, Nat.sub_add_cancel h]

variable {a} in
@[simp] theorem amount_zero (x : Word) : amount a x 0 = 0 := by simp [amount]

variable {a} in
theorem amount_sum {β : Type} (x : Word) (f : β → Nat) (l : List β) :
    amount a x (l.map f).sum = (l.map fun b => amount a x (f b)).sum := by
  induction l with
  | nil => simp
  | cons b t ih => simp [amount_add, ih]

theorem ScanReflection.value_eq (s : ScanReflection) : s.value C V a = mapsValue C V a s.live s.pools s.farmRewards := by
  have h : s.pools.total (poolValue C a) =
      s.pools.total (fun _ p => (reserveValue a p : Int)) - s.pools.total (fun id p => sharesIssued C a id p) :=
    SortedMap.total_sub
  unfold value held bonded issued mapsValue
  rw [h]
  omega

variable {C V a}
variable {live : LiveUtxoSet} {pools : SortedMap Word PoolReserveState} {farms : SortedMap Word FarmRewardState}

theorem mapsValue_live_set {k : Word} {n : LiveNote} (h : live.get k = none) :
    mapsValue C V a (live.set k n) pools farms = mapsValue C V a live pools farms + noteValue V a n := by
  unfold mapsValue
  rw [SortedMap.total_set_of_none h]
  omega

theorem mapsValue_live_erase {k : Word} {n : LiveNote} (h : live.get k = some n) :
    mapsValue C V a (live.erase k) pools farms = mapsValue C V a live pools farms - noteValue V a n := by
  unfold mapsValue
  rw [SortedMap.total_erase, SortedMap.at'_of_some h]
  omega

theorem mapsValue_pools_set {k : Word} {p q : PoolReserveState} (h : pools.get k = some q) :
    mapsValue C V a live (pools.set k p) farms = mapsValue C V a live pools farms + poolValue C a k p - poolValue C a k q := by
  unfold mapsValue
  rw [SortedMap.total_set_of_some h]
  omega

theorem mapsValue_pools_insert {k : Word} {p : PoolReserveState} (h : pools.get k = none) :
    mapsValue C V a live (pools.set k p) farms = mapsValue C V a live pools farms + poolValue C a k p := by
  unfold mapsValue
  rw [SortedMap.total_set_of_none h]
  omega

theorem mapsValue_farms_set {k : Word} {st st' : FarmRewardState} (h : farms.get k = some st) :
    mapsValue C V a live pools (farms.set k st') = mapsValue C V a live pools farms + sharesBonded a st' - sharesBonded a st := by
  unfold mapsValue
  rw [SortedMap.total_set_of_some h]
  omega

theorem mapsValue_farms_insert {k : Word} {st : FarmRewardState} (h : farms.get k = none) :
    mapsValue C V a live pools (farms.set k st) = mapsValue C V a live pools farms + sharesBonded a st := by
  unfold mapsValue
  rw [SortedMap.total_set_of_none h]
  omega

/-- Crystallizing adds the same number of shares to the total and to the accrued ones. -/
theorem crystallize_spec {p q : PoolReserveState} (h : p.crystallizeProtocolFee = some q) :
    ∃ (accrued total : U 64) (k fee : Nat), q = { p with protocolFeeAccrued := accrued, totalShares := total, kLast := k } ∧
      accrued.val = p.protocolFeeAccrued.val + fee ∧ total.val = p.totalShares.val + fee := by
  unfold PoolReserveState.crystallizeProtocolFee at h
  split at h
  · cases h
    exact ⟨_, _, _, 0, rfl, rfl, rfl⟩
  · dsimp only at h
    split at h
    · cases h
      exact ⟨_, _, _, 0, rfl, rfl, rfl⟩
    · simp only [Option.bind_eq_bind, Option.bind_eq_some_iff, U.checkedAdd_eq_some, Option.some.injEq] at h
      obtain ⟨accrued, hacc, total, htot, rfl⟩ := h
      exact ⟨_, _, _, _, rfl, hacc, htot⟩

end Value

/-! ## What the proofs and signatures promise

The kernel, the range proof and the openings tie commitments to integers; the encoding of points is faithful. -/

structure Sound (G : BatchCrypto) (V : Word → Nat) : Prop where
  kernel : ∀ {msg : Word} {ins outs : List Point} {net : Nat} {sig : Bytes},
    G.assetScopedKernelVerify msg ins outs net sig = true → (∀ p ∈ outs, pointValue G.toCrypto V p < 2 ^ 64) →
    (ins.map (pointValue G.toCrypto V)).sum = (outs.map (pointValue G.toCrypto V)).sum + net
  /-- The kernel of a batch: what the pool gains (sign 0) or pays of one asset. -/
  aggregate : ∀ {ins outs : List Point} {sign mag : Nat} {r : Word},
    G.aggregateBalances ins outs sign mag r = true → (∀ p ∈ outs, pointValue G.toCrypto V p < 2 ^ 64) →
    if sign = 0 then (ins.map (pointValue G.toCrypto V)).sum = (outs.map (pointValue G.toCrypto V)).sum + mag
    else (ins.map (pointValue G.toCrypto V)).sum + mag = (outs.map (pointValue G.toCrypto V)).sum
  range : ∀ {pts : List Point} {proof : Bytes}, G.verifyRange pts proof = true →
    ∀ p ∈ pts, pointValue G.toCrypto V p < 2 ^ 64
  opening : ∀ {p : Point} {v : Nat} {r : Word}, G.verifyPedersenOpening p v r = true → pointValue G.toCrypto V p = v
  pedersen : ∀ {v : U 64} {r : Word} {p : Point}, G.decompress (G.pedersenCommitCompressed v.val r) = some p →
    pointValue G.toCrypto V p = v.val
  /-- The blinding of a tip is a hash: the commitment is not infinity. -/
  tip : ∀ {v : U 64} {r : Word}, 0 < v.val →
    G.decompress (G.pedersenCommitCompressed v.val (swapVarTipBlinding G.toCrypto r v)) ≠ none
  compress : ∀ {p q : Point}, G.decompress (G.compress p) = some q → q = p
  sentinel : ∀ {c : Bytes}, isSentinel c = true → G.decompress c = none

/-! ## Open commitments

A scheme without hiding: a commitment is the pair of its value and its blinding, and a signature is valid or not. It
keeps every promise, so the promises do not contradict each other. -/

section Clear

/-- The commitment to `v` with blinding `r`. -/
def clearPoint (v : Nat) (r : Word) : Point := ⟨⟨v :: List.replicate 31 0, by simp⟩, r⟩

def clearValue (p : Point) : Nat := p.x.bytes.headD 0

@[simp] theorem clearValue_clearPoint (v : Nat) (r : Word) : clearValue (clearPoint v r) = v := rfl

def clearCompress (p : Point) : Bytes := 2 :: (p.x.bytes ++ p.y.bytes)

def clearDecompress : Bytes → Option Point
  | [] => none
  | b :: l => if b = 2 ∧ l.length = 64 then some ⟨Word.ofBytes (l.take 32), Word.ofBytes (l.drop 32)⟩ else none

theorem Word.ofBytes_bytes (w : Word) : Word.ofBytes w.bytes = w := by
  apply Word.ext
  simp [Word.ofBytes, w.len]

@[simp] theorem clearDecompress_compress (p : Point) : clearDecompress (clearCompress p) = some p := by
  simp [clearDecompress, clearCompress, p.x.len, p.y.len, Word.ofBytes_bytes]

/-- `Σ ins = Σ outs + net`. -/
def clearBalances (ins outs : List Point) (net : Nat) : Bool :=
  (ins.map clearValue).sum == (outs.map clearValue).sum + net

def clearCrypto (K : Keccak) : BatchCrypto where
  toKeccak := K
  sha256 := K.hash
  decompress := clearDecompress
  compress := clearCompress
  onCurve _ _ := true
  pedersenCommitCompressed v r := clearCompress (clearPoint v r)
  verifyPedersenOpening p v r := p == clearPoint v r
  bip340Verify sig _ _ := sig == validSig
  assetScopedKernelVerify _ ins outs net sig := clearBalances ins outs net && sig == validSig
  verifyRange pts proof := pts.all (fun p => clearValue p < 2 ^ 64) && proof == validSig
  verifyXcurve _ _ _ := false
  groth16Ok _ _ _ _ := false
  aggregateBalances ins outs sign mag _ :=
    if sign = 0 then clearBalances ins outs mag else clearBalances outs ins mag

instance : Nonempty Point := ⟨clearPoint 0 0⟩

/-- The value behind a commitment's hash. -/
noncomputable def clearV (K : Keccak) (h : Word) : Nat :=
  clearValue (Function.invFun (fun p : Point => commitmentHash K p.x p.y) h)

variable {K : Keccak} (hK : K.Ideal)

include hK

theorem pointValue_clearV (p : Point) : pointValue (clearCrypto K).toCrypto (clearV K) p = clearValue p := by
  have hinj : Function.Injective (fun p : Point => commitmentHash K p.x p.y) := by
    rintro ⟨x, y⟩ ⟨x', y'⟩ h
    obtain ⟨hx, hy⟩ := commitmentHash_inj hK h
    exact congrArg₂ Point.mk hx hy
  exact congrArg clearValue (Function.leftInverse_invFun hinj p)

theorem clearBalances_iff {ins outs : List Point} {net : Nat} : clearBalances ins outs net = true ↔
    (ins.map (pointValue (clearCrypto K).toCrypto (clearV K))).sum =
      (outs.map (pointValue (clearCrypto K).toCrypto (clearV K))).sum + net := by
  have h : pointValue (clearCrypto K).toCrypto (clearV K) = clearValue := funext (pointValue_clearV hK)
  rw [h, clearBalances, beq_iff_eq]

theorem clearCrypto_sound : Sound (clearCrypto K) (clearV K) where
  kernel := by
    intro msg ins outs net sig h _
    exact (clearBalances_iff hK).1 (Bool.and_eq_true_iff.1 h).1
  aggregate := by
    intro ins outs sign mag r h _
    simp only [clearCrypto] at h
    split at h
    · rename_i hs
      rw [if_pos hs]
      exact (clearBalances_iff hK).1 h
    · rename_i hs
      rw [if_neg hs]
      exact ((clearBalances_iff hK).1 h).symm
  range := by
    intro pts proof h p hp
    rw [pointValue_clearV hK]
    have := List.all_eq_true.1 (Bool.and_eq_true_iff.1 h).1 p hp
    simpa using this
  opening := by
    intro p v r h
    have h : p = clearPoint v r := by simpa [clearCrypto] using h
    rw [pointValue_clearV hK, h]
    rfl
  pedersen := by
    intro v r p h
    have h : clearPoint v.val r = p := by simpa [clearCrypto] using h
    rw [pointValue_clearV hK, ← h]
    rfl
  tip := by
    intro v r _
    simp [clearCrypto]
  compress := by
    intro p q h
    have h : p = q := by simpa [clearCrypto] using h
    exact h.symm
  sentinel := by
    intro c h
    show clearDecompress c = none
    cases c with
    | nil => rfl
    | cons b l =>
      have hb : b = 0 := by
        simp only [isSentinel, List.all_cons, Bool.and_eq_true, beq_iff_eq] at h
        exact h.1
      simp [clearDecompress, hb]

end Clear

/-! ## The elementary folds -/

section Elementary

variable {C : Crypto} {s : ScanReflection} {E : String → ScanReflection → Prop} {Q : Unit → ScanReflection → Prop}

/-- A run of `onboardNote` that does not panic fails at once or adds the note. -/
theorem wp_onboardNote {asset : Word} {c : Bytes} {auth outpoint : Word} {path : List Word} {e e' : String}
    (hE : ∀ e, C.decompress c = none → E e s)
    (hQ : ∀ pt r, C.decompress c = some pt → s.live.get outpoint = none →
      Q () (s.withNote r outpoint ⟨commitmentHash C.toKeccak pt.x pt.y, asset, auth, false⟩)) :
    wp True (onboardNote C asset c auth outpoint path e e') s E Q := by
  unfold onboardNote reflectedNoteLeaf commitmentHashCompressed foldOutput
  cases hc : C.decompress c with
  | none => simp [hE _ hc]
  | some pt =>
    simp only [Option.map_some, wp_bind, wp_orThrow, reduceCtorEq, false_imp_iff, Option.some.injEq, forall_eq', true_and,
      wp_expect, wp_iff_ok]
    rintro _ t ht
    obtain ⟨r, -, hl, rfl⟩ := foldOutputTagged_eq_ok.1 ht
    exact hQ pt r hc hl

theorem wp_setPool {pid : Word} {p : PoolReserveState}
    (hQ : ∀ q, s.pools.get pid = some q → Q () { s with pools := s.pools.set pid p }) :
    wp True (setPool pid p) s E Q := by
  simp only [setPool, wp_bind, wp_get, wp_orPanic, wp_modify, implies_true, true_and, SortedMap.update_eq_some]
  rintro _ ⟨⟨q, hq⟩, rfl⟩
  exact hQ q hq

theorem wp_insertPool {pid : Word} {p : PoolReserveState}
    (hQ : s.pools.get pid = none → Q () { s with pools := s.pools.set pid p }) :
    wp True (insertPool pid p) s E Q := by
  simp only [insertPool, wp_bind, wp_get, wp_orPanic, wp_modify, implies_true, true_and, SortedMap.insert_eq_some]
  rintro _ ⟨hq, rfl⟩
  exact hQ hq

theorem wp_setFarm {pid : Word} {p : FarmRewardState}
    (hQ : ∀ q, s.farmRewards.get pid = some q → Q () { s with farmRewards := s.farmRewards.set pid p }) :
    wp True (setFarm pid p) s E Q := by
  simp only [setFarm, wp_bind, wp_get, wp_orPanic, wp_modify, implies_true, true_and, SortedMap.update_eq_some]
  rintro _ ⟨⟨q, hq⟩, rfl⟩
  exact hQ q hq

theorem wp_foldNoteAppend {leaf : Word} {path : List Word}
    (hQ : ∀ r, Q () { s with poolRoot := r, noteCount := s.noteCount + 1 }) :
    wp True (foldNoteAppend C.toKeccak leaf path) s (fun _ _ => True) Q := by
  rw [wp_iff_ok]
  rintro _ t ht
  obtain ⟨r, -, rfl⟩ := foldNoteAppend_eq_ok.1 ht
  exact hQ r

theorem wp_liveInsert {outpoint : Word} {n : LiveNote}
    (hQ : s.live.get outpoint = none → Q () { s with live := s.live.set outpoint n }) :
    wp True (liveInsert outpoint n) s E Q := by
  simp only [liveInsert, wp_bind, wp_get, wp_orPanic, wp_modify, implies_true, true_and, SortedMap.insert_eq_some]
  rintro _ ⟨hl, rfl⟩
  exact hQ hl

end Elementary

end Tacit
