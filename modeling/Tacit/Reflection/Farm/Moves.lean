import Tacit.Lib.RewardIndex
import Tacit.Reflection.Value
/-!
# What the farm branches do to the farms

A run of the farms is any sequence of the five farm branches of the transaction scan (reflect.rs:2271-2569) and of
blocks that move the height on. A branch may refuse, refund or undo what it began; `FarmMove` is what is left of all
that: the state of the farms as it was, or one of five moves. Every invariant of a run is an invariant of the moves.
-/
namespace Tacit

open Prog

/-- The preimage of a receipt leaf. -/
structure Receipt where
  farm : Word
  asset : Word
  shares : U 64
  owner : Word
  nonce : Word
deriving DecidableEq

def Receipt.leaf (K : Keccak) (r : Receipt) : Word := farmReceiptLeaf K r.farm r.asset r.shares r.owner r.nonce

def Receipt.nullifier (K : Keccak) (r : Receipt) : Word := farmReceiptNullifier K (r.leaf K)

theorem Receipt.leaf_injective {K : Keccak} (hK : K.Ideal) : Function.Injective (Receipt.leaf K) := by
  rintro ⟨f, a, n, o, c⟩ ⟨f', a', n', o', c'⟩ h
  have := hK.kn_inj (by simp [Word.len]) h
  simp only [List.cons.injEq, true_and, and_true] at this
  obtain ⟨hf, ha, hn, ho, hc⟩ := this
  have hn : n = n' := by
    refine Fin.ext (leBytes_inj ?_ ?_ hn)
    · have := n.isLt; omega
    · have := n'.isLt; omega
  rw [Word.ext hf, Word.ext ha, hn, Word.ext ho, Word.ext hc]

theorem Receipt.leaf_ne_zero {K : Keccak} (hK : K.Ideal) (r : Receipt) : r.leaf K ≠ 0 := hK.kn_ne_zero _

theorem Receipt.nullifier_injective {K : Keccak} (hK : K.Ideal) : Function.Injective (Receipt.nullifier K) := by
  intro r r' h
  have := hK.kn_inj (by simp [Word.len]) h
  simp only [List.cons.injEq, and_true] at this
  exact Receipt.leaf_injective hK (Word.ext this.2)

theorem Receipt.nullifier_ne_zero {K : Keccak} (hK : K.Ideal) (r : Receipt) : r.nullifier K ≠ 0 := hK.kn_ne_zero _

/-! ## Accrual -/

namespace FarmRewardState

/-- The blocks of the window between the last accrual and `h`. -/
def span (st : FarmRewardState) (h : U 64) : Nat :=
  min h.val st.endHeight.val - max st.lastHeight.val st.startHeight.val

/-- The blocks of the window that `h` has passed. -/
def elapsed (st : FarmRewardState) (h : U 64) : Nat := min h.val st.endHeight.val - st.startHeight.val

/-- The blocks of the window after `h`. -/
def rest (st : FarmRewardState) (h : U 64) : Nat := st.endHeight.val - max h.val st.startHeight.val

/-- What the farm-init fold has checked of a schedule. -/
structure Scheduled (st : FarmRewardState) : Prop where
  opens : st.startHeight.val < st.endHeight.val
  width : st.rate.val * (st.endHeight.val - st.startHeight.val) < farmRateWindowMax

variable {st : FarmRewardState} {h : U 64}

@[simp] theorem accrue_rate : (st.accrue h).rate = st.rate := by
  obtain ⟨_, _, e⟩ := st.accrue_eq h
  rw [e]

@[simp] theorem accrue_totalShares : (st.accrue h).totalShares = st.totalShares := by
  obtain ⟨_, _, e⟩ := st.accrue_eq h
  rw [e]

@[simp] theorem accrue_totalRewardDebt : (st.accrue h).totalRewardDebt = st.totalRewardDebt := by
  obtain ⟨_, _, e⟩ := st.accrue_eq h
  rw [e]

@[simp] theorem accrue_startHeight : (st.accrue h).startHeight = st.startHeight := by
  obtain ⟨_, _, e⟩ := st.accrue_eq h
  rw [e]

@[simp] theorem accrue_endHeight : (st.accrue h).endHeight = st.endHeight := by
  obtain ⟨_, _, e⟩ := st.accrue_eq h
  rw [e]

@[simp] theorem accrue_lpAsset : (st.accrue h).lpAsset = st.lpAsset := by
  obtain ⟨_, _, e⟩ := st.accrue_eq h
  rw [e]

theorem accrue_lastHeight : (st.accrue h).lastHeight.val = max st.lastHeight.val h.val := by
  unfold accrue
  by_cases hl : h > st.lastHeight
  · have : st.lastHeight.val < h.val := hl
    rw [if_pos hl]
    dsimp only
    omega
  · have : ¬ st.lastHeight.val < h.val := hl
    rw [if_neg hl]
    omega

theorem accrue_of_le (hl : h.val ≤ st.lastHeight.val) : st.accrue h = st := by
  have hl : ¬ h > st.lastHeight := fun hlt => absurd (show st.lastHeight.val < h.val from hlt) (by omega)
  unfold accrue
  rw [if_neg hl]

/-- A second accrual at one height does nothing. -/
theorem accrue_accrue : (st.accrue h).accrue h = st.accrue h := by
  apply accrue_of_le
  rw [accrue_lastHeight]
  omega

/-- Nor does it when shares or debt have changed since. -/
theorem rps_accrue_of_accrued {st' : FarmRewardState} (hr : st'.rps = (st.accrue h).rps)
    (hl : st'.lastHeight = (st.accrue h).lastHeight) : (st'.accrue h).rps = (st.accrue h).rps := by
  rw [accrue_of_le, hr]
  rw [hl, accrue_lastHeight]
  omega

/-- Within the width of the schedule no saturating step of the accrual saturates. -/
theorem accrue_rps (hend : st.endHeight ≠ 0) (hfit : st.rps.val + st.rate.val * st.span h * farmRpsPrecision < 2 ^ 128) :
    (st.accrue h).rps.val = st.rps.val + st.rate.val * st.span h * farmRpsPrecision / st.totalShares.val := by
  have hdiv := Nat.div_le_self (st.rate.val * st.span h * farmRpsPrecision) st.totalShares.val
  by_cases hl : h > st.lastHeight
  swap
  · have : st.span h = 0 := by
      have : ¬ st.lastHeight.val < h.val := hl
      unfold span
      omega
    unfold accrue
    simp [hl, this]
  unfold accrue
  simp only [if_pos hl, if_neg hend]
  by_cases hs : min h st.endHeight > max st.lastHeight st.startHeight ∧ st.totalShares ≠ 0
  · rw [if_pos hs]
    have hd : (min h st.endHeight).val - (max st.lastHeight st.startHeight).val = st.span h := by
      simp only [span, Fin.coe_min, Fin.coe_max]
    have hrate := st.rate.isLt
    have hle : st.rate.val * st.span h ≤ st.rate.val * st.span h * farmRpsPrecision := Nat.le_mul_of_pos_right _ (by decide)
    have hspan : st.span h < 2 ^ 64 := by
      have := h.isLt
      unfold span
      omega
    have hr : (U.saturate 128 st.rate.val).val = st.rate.val := U.saturate_val (by omega)
    have hdh : (U.saturate 128 (st.span h)).val = st.span h := U.saturate_val (by omega)
    have hp : (U.saturate 128 farmRpsPrecision).val = farmRpsPrecision := U.saturate_val (by decide)
    have hrd : (U.saturate 128 (st.rate.val * st.span h)).val = st.rate.val * st.span h := U.saturate_val (by omega)
    have hg : (U.saturate 128 (st.rate.val * st.span h * farmRpsPrecision)).val = st.rate.val * st.span h * farmRpsPrecision :=
      U.saturate_val (by omega)
    have hi : (U.saturate 128 (st.rate.val * st.span h * farmRpsPrecision / st.totalShares.val)).val =
        st.rate.val * st.span h * farmRpsPrecision / st.totalShares.val := U.saturate_val (by omega)
    simp only [U.saturatingAdd, U.saturatingMul, hd, hr, hdh, hp, hrd, hg, hi]
    exact U.saturate_val (by omega)
  · rw [if_neg hs]
    rcases not_and_or.1 hs with hs | hs
    · have : st.span h = 0 := by
        have : ¬ (max st.lastHeight st.startHeight).val < (min h st.endHeight).val := hs
        simp only [Fin.coe_min, Fin.coe_max] at this
        unfold span
        omega
      simp [this]
    · have : st.totalShares = 0 := by simpa using hs
      simp [this]

/-! ## Bond, harvest and unbond -/

variable {n reward : U 64} {entry stamp : U 128} {st' : FarmRewardState}

theorem bond_eq_some (hb : st.bond n h = some (st', entry)) : n ≠ 0 ∧ entry = (st.accrue h).rps ∧
    ∃ total debt, total.val = st.totalShares.val + n.val ∧
      debt.val = st.totalRewardDebt.val + n.val * (st.accrue h).rps.val ∧
      st' = { st.accrue h with totalShares := total, totalRewardDebt := debt } := by
  unfold bond at hb
  split at hb
  · cases hb
  · rename_i hn
    simp only [Option.bind_eq_bind, Option.bind_eq_some_iff, U.ofNat?_eq_some, U.checkedAdd_eq_some, Option.some.injEq,
      Prod.mk.injEq, accrue_totalShares, accrue_totalRewardDebt] at hb
    obtain ⟨d, hd, total, ht, debt, hdebt, rfl, rfl⟩ := hb
    exact ⟨hn, rfl, total, debt, ht, hd ▸ hdebt, rfl⟩

/-- A bond fails on zero shares and on an overflow, nothing else. -/
theorem bond_ne_none (hn : n ≠ 0) (ht : st.totalShares.val + n.val < 2 ^ 64)
    (hd : st.totalRewardDebt.val + n.val * (st.accrue h).rps.val < 2 ^ 128) : st.bond n h ≠ none := by
  have hr : n.val * (st.accrue h).rps.val < 2 ^ 128 := by omega
  simp only [bond, if_neg hn, U.checkedAdd, U.ofNat?, dif_pos hr, accrue_totalShares, accrue_totalRewardDebt,
    Option.bind_eq_bind, Option.bind_some, dif_pos ht, dif_pos hd]
  exact nofun

theorem verifyFarmHarvest_eq_some (hv : verifyFarmHarvest st h n entry reward = some (st', stamp)) :
    n ≠ 0 ∧ entry.val ≤ (st.accrue h).rps.val ∧ stamp = (st.accrue h).rps ∧
    reward.val * farmRpsPrecision ≤ n.val * ((st.accrue h).rps.val - entry.val) ∧
    ∃ debt, debt.val = st.totalRewardDebt.val + n.val * ((st.accrue h).rps.val - entry.val) ∧
      st' = { st.accrue h with totalRewardDebt := debt } := by
  unfold verifyFarmHarvest at hv
  split at hv
  · cases hv
  rename_i hok
  have hok : st.harvestOk n entry reward h = true := by simpa using hok
  simp only [harvestOk] at hok
  split at hok
  · cases hok
  rename_i hn
  split at hok
  · cases hok
  split at hok
  swap
  · cases hok
  rename_i lhs rhs hl hr
  have hle : lhs.val ≤ rhs.val := by simpa using hok
  rw [U.ofNat?_eq_some.1 hl, U.ofNat?_eq_some.1 hr] at hle
  simp only [harvestCommit, Option.bind_eq_bind, Option.bind_eq_some_iff, U.checkedSub_eq_some, U.ofNat?_eq_some,
    U.checkedAdd_eq_some, Option.some.injEq, Prod.mk.injEq, accrue_totalRewardDebt] at hv
  obtain ⟨d, ⟨hent, hd⟩, delta, hdelta, debt, hdebt, rfl, rfl⟩ := hv
  rw [hd] at hdelta
  exact ⟨hn, hent, rfl, hle, debt, hdelta ▸ hdebt, rfl⟩

theorem unbond_eq_some (hu : st.unbond n entry h = some st') :
    n ≠ 0 ∧ n.val ≤ st.totalShares.val ∧ n.val * entry.val ≤ st.totalRewardDebt.val ∧
    ∃ total debt, total.val = st.totalShares.val - n.val ∧ debt.val = st.totalRewardDebt.val - n.val * entry.val ∧
      st' = { st.accrue h with totalShares := total, totalRewardDebt := debt } := by
  unfold unbond at hu
  split at hu
  · cases hu
  · rename_i hn
    simp only [Option.bind_eq_bind, Option.bind_eq_some_iff, U.ofNat?_eq_some, U.checkedSub_eq_some, Option.some.injEq,
      accrue_totalShares, accrue_totalRewardDebt] at hu
    obtain ⟨d, hd, total, ⟨hle, ht⟩, debt, ⟨hle', hdebt⟩, rfl⟩ := hu
    rw [hd] at hle' hdebt
    exact ⟨hn, hle, hle', total, debt, ht, hdebt, rfl⟩

/-- An unbond of shares and debt that are there goes through. -/
theorem unbond_ne_none (hn : n ≠ 0) (hs : n.val ≤ st.totalShares.val) (hd : n.val * entry.val ≤ st.totalRewardDebt.val) :
    st.unbond n entry h ≠ none := by
  have hlt := st.totalRewardDebt.isLt
  have hprod : n.val * entry.val < 2 ^ 128 := by omega
  simp only [unbond, if_neg hn, U.ofNat?, dif_pos hprod, Option.bind_eq_bind, Option.bind_some, U.checkedSub, accrue_totalShares,
    accrue_totalRewardDebt, if_pos hs, if_pos hd]
  exact nofun

end FarmRewardState

/-! ## Runs of the farm branches -/

/-- The part of the state the farms are kept in. -/
structure Farms where
  height : U 64
  pools : SortedMap Word PoolReserveState
  rewards : SortedMap Word FarmRewardState
  entries : SortedMap Word (U 128)

def ScanReflection.farms (s : ScanReflection) : Farms := ⟨s.height, s.pools, s.farmRewards, s.farmEntries⟩

@[simp] theorem ScanReflection.farms_height (s : ScanReflection) : s.farms.height = s.height := rfl

@[simp] theorem ScanReflection.farms_pools (s : ScanReflection) : s.farms.pools = s.pools := rfl

@[simp] theorem ScanReflection.farms_rewards (s : ScanReflection) : s.farms.rewards = s.farmRewards := rfl

@[simp] theorem ScanReflection.farms_entries (s : ScanReflection) : s.farms.entries = s.farmEntries := rfl

/-- One step of a run: a later block, or one transaction that reaches a farm branch. -/
inductive FarmOp
  | advance (height : U 64)
  | init (tx : Tx) (w : TxWitness) (spends : List DetectedSpend) (e : FarmInitEnvelope)
  | bond (tx : Tx) (w : TxWitness) (spends : List DetectedSpend) (e : LpBondEnvelope)
  | harvest (tx : Tx) (w : TxWitness) (e : LpHarvestEnvelope)
  | unbond (tx : Tx) (w : TxWitness) (e : LpUnbondEnvelope)
  | refund (tx : Tx) (w : TxWitness) (e : FarmRefundEnvelope)

section Run

variable (G : BatchCrypto)

def FarmOp.run : FarmOp → Guest Unit
  | .advance height => do
    let s ← get
    assert (s.height ≤ height)
    modify fun s => { s with height := height }
  | .init tx w spends e => scanFarmInit G tx w e spends
  | .bond tx w spends e => scanLpBond G tx w spends e
  | .harvest tx w e => scanLpHarvest G tx w e
  | .unbond tx w e => scanLpUnbond G tx w e
  | .refund tx w e => scanFarmRefund G tx w e

/-- The harvest is authorized and its draw on the treasury goes through. -/
def harvestPays (tx : Tx) (w : TxWitness) (e : LpHarvestEnvelope) (s : ScanReflection) : Bool :=
  match foldLpHarvest G.toCrypto e w.oldIndex w.oldPath (tx.outputScriptpubkey 1) s with
  | .ok _ u =>
    match foldHarvest G.toCrypto e.farmId e.rewardAmount e.rewardR (outpointKey G.toKeccak (tx.txid, 1)) (w.path 0)
        (tx.outputScriptpubkey 1) u with
    | .ok _ _ => true
    | _ => false
  | _ => false

/-- What the step pays to the positions of a farm. -/
def FarmOp.pays (op : FarmOp) (s : ScanReflection) (farm : Word) : Nat :=
  match op with
  | .harvest tx w e => if e.farmId = farm ∧ harvestPays G tx w e s then e.rewardAmount.val else 0
  | _ => 0

/-- A run of admitted steps from `s₀`, with what it has paid to the positions of each farm. -/
inductive FarmRun (A : ScanReflection → FarmOp → Prop) (s₀ : ScanReflection) : ScanReflection → (Word → Nat) → Prop
  | start : FarmRun A s₀ s₀ 0
  | step {s t : ScanReflection} {paid : Word → Nat} (op : FarmOp) : FarmRun A s₀ s paid → A s op → op.run G s = .ok () t →
      FarmRun A s₀ t (paid + op.pays G s)

end Run

/-! ## Moves -/

def ScanReflection.noteSet (s : ScanReflection) : Word × Nat := (s.poolRoot, s.noteCount)

/-- One more leaf in the note tree. -/
def Appends (K : Keccak) (x : Word) (s t : ScanReflection) : Prop :=
  t.noteCount = s.noteCount + 1 ∧ ∃ path, keccakTreeAppendTransition K s.poolRoot s.noteCount path x = some t.poolRoot

/-- The note tree as it was, or with one more leaf. -/
def Grows (K : Keccak) (s t : ScanReflection) : Prop := t.noteSet = s.noteSet ∨ ∃ x, x ≠ 0 ∧ Appends K x s t

/-- What a step leaves: the farms as they were, or one move. The amounts of the step are what it pays to positions. -/
inductive FarmMove (K : Keccak) (s t : ScanReflection) : FarmOp → (Word → Nat) → Prop
  | idle {op : FarmOp} (farms : t.farms = s.farms) (notes : Grows K s t) (spent : t.spentSet = s.spentSet) : FarmMove K s t op 0
  | advance {height : U 64} (le : s.height ≤ height) (farms : t.farms = { s.farms with height := height })
      (notes : t.noteSet = s.noteSet) (spent : t.spentSet = s.spentSet) : FarmMove K s t (.advance height) 0
  /-- The treasury of a farm whose rewards were registered before. -/
  | fund {tx : Tx} {w : TxWitness} {spends : List DetectedSpend} {e : FarmInitEnvelope} {f : Word} {pool : PoolReserveState}
      (fresh : s.pools.get f = none) (known : s.farmRewards.get f ≠ none)
      (farms : t.farms = { s.farms with pools := s.pools.set f pool })
      (notes : t.noteSet = s.noteSet) (spent : t.spentSet = s.spentSet) : FarmMove K s t (.init tx w spends e) 0
  | register {tx : Tx} {w : TxWitness} {spends : List DetectedSpend} {e : FarmInitEnvelope} {f : Word} {pool : PoolReserveState}
      {st : FarmRewardState} (fresh : s.pools.get f = none) (new : s.farmRewards.get f = none)
      (zero : st.totalShares = 0 ∧ st.rps = 0 ∧ st.totalRewardDebt = 0 ∧ st.lastHeight = s.height)
      (scheduled : st.Scheduled) (funded : st.rate.val * (st.endHeight.val - st.startHeight.val) ≤ pool.reserveA.val)
      (farms : t.farms = { s.farms with pools := s.pools.set f pool, rewards := s.farmRewards.set f st })
      (notes : t.noteSet = s.noteSet) (spent : t.spentSet = s.spentSet) : FarmMove K s t (.init tx w spends e) 0
  | bond {tx : Tx} {w : TxWitness} {spends : List DetectedSpend} {e : LpBondEnvelope} {st st' : FarmRewardState} {entry : U 128}
      {r : Receipt} (registered : s.farmRewards.get e.farmId = some st)
      (receipt : r = ⟨e.farmId, st.lpAsset, e.bondAmount, e.ownerCommit, e.nonce⟩)
      (fresh : s.farmEntries.get (r.leaf K) = none) (bonded : st.bond r.shares s.height = some (st', entry))
      (farms : t.farms = { s.farms with
        rewards := s.farmRewards.set r.farm st', entries := s.farmEntries.set (r.leaf K) entry })
      (notes : Appends K (r.leaf K) s t) (spent : t.spentSet = s.spentSet) : FarmMove K s t (.bond tx w spends e) 0
  | harvest {tx : Tx} {w : TxWitness} {e : LpHarvestEnvelope} {st st' : FarmRewardState} {entry stamp : U 128} {r : Receipt}
      {pool : PoolReserveState} (registered : s.farmRewards.get e.farmId = some st)
      (receipt : r = ⟨e.farmId, st.lpAsset, e.shares, e.ownerCommit, e.oldNonce⟩)
      (stamped : s.farmEntries.get (r.leaf K) = some entry)
      (harvested : verifyFarmHarvest st s.height r.shares entry e.rewardAmount = some (st', stamp))
      (treasury : s.pools.get e.farmId = some pool) (covered : e.rewardAmount.val ≤ pool.reserveA.val)
      (farms : t.farms = { s.farms with
        pools := s.pools.set r.farm { pool with reserveA := U.saturatingSub pool.reserveA e.rewardAmount }
        rewards := s.farmRewards.set r.farm st', entries := s.farmEntries.set (r.leaf K) stamp })
      (notes : Grows K s t) (spent : t.spentSet = s.spentSet) :
      FarmMove K s t (.harvest tx w e) (fun f => if e.farmId = f then e.rewardAmount.val else 0)
  | unbond {tx : Tx} {w : TxWitness} {e : LpUnbondEnvelope} {st st' : FarmRewardState} {entry : U 128} {r : Receipt}
      (registered : s.farmRewards.get e.farmId = some st)
      (receipt : r = ⟨e.farmId, st.lpAsset, e.shares, e.ownerCommit, e.nonce⟩)
      (stamped : s.farmEntries.get (r.leaf K) = some entry) (unbonded : st.unbond r.shares entry s.height = some st')
      (farms : t.farms = { s.farms with rewards := s.farmRewards.set r.farm st', entries := s.farmEntries.erase (r.leaf K) })
      (notes : Grows K s t) (spent : t.spentCount = s.spentCount + 1 ∧
        w.receiptSpent.Accepted K s.spentRoot s.spentCount (r.nullifier K) t.spentRoot) : FarmMove K s t (.unbond tx w e) 0
  | refund {tx : Tx} {w : TxWitness} {e : FarmRefundEnvelope} {st : FarmRewardState} {pool : PoolReserveState}
      (registered : s.farmRewards.get e.farmId = some st) (vacant : st.totalShares = 0)
      (treasury : s.pools.get e.farmId = some pool) (covered : e.refundAmount.val ≤ pool.reserveA.val)
      (farms : t.farms = { s.farms with
        pools := s.pools.set e.farmId { pool with reserveA := U.saturatingSub pool.reserveA e.refundAmount } })
      (notes : Grows K s t) (spent : t.spentSet = s.spentSet) : FarmMove K s t (.refund tx w e) 0

section Inversion

variable {G : BatchCrypto} {s : ScanReflection}

theorem FarmMove.refl {K : Keccak} (op : FarmOp) : FarmMove K s s op 0 := .idle rfl (.inl rfl) rfl

theorem wp_swallow {α : Type} {m : Fold α} {E : Empty → ScanReflection → Prop} {Q : ScanReflection → Prop} :
    wp True (swallow m) s E (fun _ t => Q t) ↔ wp True m s (fun _ t => Q t) (fun _ t => Q t) := by
  simp only [swallow, wp_bind, wp_attempt, wp_pure]

/-- The state after a note that lands in the note tree. -/
def NoteAdded (K : Keccak) (s t : ScanReflection) : Prop :=
  t.farms = s.farms ∧ t.spentSet = s.spentSet ∧ ∃ x, x ≠ 0 ∧ Appends K x s t

theorem NoteAdded.grows {K : Keccak} {t : ScanReflection} (h : NoteAdded K s t) : Grows K s t := .inr h.2.2

theorem NoteAdded.idle {K : Keccak} {t : ScanReflection} (h : NoteAdded K s t) (op : FarmOp) : FarmMove K s t op 0 :=
  .idle h.1 h.grows h.2.1

theorem onboardNote_adds_leaf {C : Crypto} (hK : C.toKeccak.Ideal) {asset : Word} {c : Bytes} {auth outpoint : Word}
    {path : List Word} {err err' : String} :
    wp True (onboardNote C asset c auth outpoint path err err') s (fun _ t => t = s) (fun _ t => NoteAdded C.toKeccak s t) := by
  unfold onboardNote reflectedNoteLeaf commitmentHashCompressed foldOutput
  cases hc : C.decompress c with
  | none => simp
  | some pt =>
    simp only [Option.map_some, wp_bind, wp_orThrow, reduceCtorEq, false_imp_iff, Option.some.injEq, forall_eq', true_and,
      wp_expect, wp_iff_ok]
    rintro _ t ht
    obtain ⟨r, hr, -, rfl⟩ := foldOutputTagged_eq_ok.1 ht
    exact ⟨rfl, rfl, _, hK.kn_ne_zero _, rfl, path, hr⟩

theorem onboardAmmRefundNote_adds_leaf {C : Crypto} (hK : C.toKeccak.Ideal) {asset : Word} {value : U 64}
    {blinding auth outpoint : Word} {path : List Word} :
    wp True (onboardAmmRefundNote C asset value blinding auth outpoint path) s (fun _ t => t = s)
      (fun _ t => NoteAdded C.toKeccak s t) := by
  simp only [onboardAmmRefundNote, wp_bind, wp_check, implies_true, true_and]
  exact fun _ => onboardNote_adds_leaf hK

/-- A draw on a treasury fails with nothing done, or lands its note and debits the treasury. -/
theorem foldHarvest_moves {C : Crypto} (hK : C.toKeccak.Ideal) (farmId : Word) (amount : U 64) (r outpoint : Word)
    (path : List Word) (spk : Bytes) :
    wp True (foldHarvest C farmId amount r outpoint path spk) s (fun _ t => t = s)
      (fun _ t => ∃ pool, s.pools.get farmId = some pool ∧ amount.val ≤ pool.reserveA.val ∧
        t.farms = { s.farms with pools := s.pools.set farmId { pool with reserveA := U.saturatingSub pool.reserveA amount } } ∧
        Grows C.toKeccak s t ∧ t.spentSet = s.spentSet) := by
  simp only [foldHarvest, wp_bind, wp_get, wp_orThrow, wp_check, implies_true, true_and]
  intro pool hpool _ hle auth _
  refine wp_mono (onboardNote_adds_leaf hK) id (fun _ _ h => h) fun _ t ht => wp_setPool fun q hq => ?_
  have hle : amount.val ≤ pool.reserveA.val := by
    simp only [not_or, not_lt, gt_iff_lt] at hle
    exact hle.2
  obtain ⟨hf, hs, x, hx, hn⟩ := ht
  have hp : t.pools = s.pools := congrArg Farms.pools hf
  have hg : Grows C.toKeccak s { t with
      pools := t.pools.set farmId { pool with reserveA := U.saturatingSub pool.reserveA amount } } := .inr ⟨x, hx, hn⟩
  refine ⟨pool, hpool, hle, ?_, hg, hs⟩
  rw [← hf, ← hp]
  rfl

theorem scanFarmRefund_moves (hK : G.toKeccak.Ideal) {tx : Tx} {w : TxWitness} {e : FarmRefundEnvelope} :
    wp True (scanFarmRefund G tx w e) s (fun _ _ => True) (fun _ t => FarmMove G.toKeccak s t (.refund tx w e) 0) := by
  refine wp_swallow.2 ?_
  simp only [foldFarmRefund, wp_bind, wp_get, wp_orThrow, wp_check, FarmMove.refl, implies_true, true_and]
  intro st hst _ hz _
  refine wp_mono (foldHarvest_moves hK _ _ _ _ _ _) id (fun _ t ht => ht ▸ .refl _) fun _ t ht => ?_
  obtain ⟨pool, hpool, hle, hf, hn, hs⟩ := ht
  exact .refund hst (not_not.1 hz) hpool hle hf hn hs

theorem scanLpUnbond_moves (hK : G.toKeccak.Ideal) {tx : Tx} {w : TxWitness} {e : LpUnbondEnvelope} :
    wp True (scanLpUnbond G tx w e) s (fun _ _ => True) (fun _ t => FarmMove G.toKeccak s t (.unbond tx w e) 0) := by
  refine wp_swallow.2 ?_
  simp only [foldLpUnbond, receiptSpendRoot, wp_bind, wp_get, wp_orThrow, wp_check, wp_modify, FarmMove.refl, implies_true, true_and]
  intro st hst entry hentry _ _ root hroot _ auth _
  refine wp_mono (onboardNote_adds_leaf hK) id (fun _ t ht => ht ▸ .refl _) fun _ t ht => ⟨fun _ => ht.idle _, ?_⟩
  intro st' hst'
  refine wp_setFarm fun q hq => ?_
  obtain ⟨hf, hs, x, hx, hn⟩ := ht
  have hr : t.farmRewards = s.farmRewards := congrArg Farms.rewards hf
  have he : t.farmEntries = s.farmEntries := congrArg Farms.entries hf
  have hsc : t.spentCount = s.spentCount := congrArg Prod.snd hs
  refine .unbond hst rfl hentry hst' ?_ (.inr ⟨x, hx, hn⟩) ⟨by simp [hsc], hroot⟩
  show (⟨t.height, t.pools, t.farmRewards.set _ _, t.farmEntries.erase _⟩ : Farms) = _
  rw [hr, he, show t.height = s.height from congrArg Farms.height hf, show t.pools = s.pools from congrArg Farms.pools hf]
  rfl

theorem scanLpBond_moves (hK : G.toKeccak.Ideal) {tx : Tx} {w : TxWitness} {spends : List DetectedSpend} {e : LpBondEnvelope} :
    wp True (scanLpBond G tx w spends e) s (fun _ _ => True) (fun _ t => FarmMove G.toKeccak s t (.bond tx w spends e) 0) := by
  unfold scanLpBond
  rw [wp_bind, wp_get]
  cases hst : s.farmRewards.get e.farmId with
  | none => exact .refl _
  | some st =>
    dsimp only
    rw [wp_ite]
    refine ⟨fun _ => wp_swallow.2 ?_, fun _ => .refl _⟩
    have hrefund : ∀ op : FarmOp, wp True (do
        onboardAmmRefundNote G.toCrypto st.lpAsset e.bondAmount e.refundBlinding e.refundDestXonly
          (outpointKey G.toKeccak (tx.txid, 1)) (w.path 0)
        pure (0 : Word)) s (fun _ t => FarmMove G.toKeccak s t op 0) (fun _ t => FarmMove G.toKeccak s t op 0) := by
      intro op
      rw [wp_bind]
      exact wp_mono (onboardAmmRefundNote_adds_leaf hK) id (fun _ t ht => ht ▸ .refl _) fun _ t ht => ht.idle op
    unfold foldLpBond
    simp only [wp_bind, wp_get, wp_orThrow, wp_check, FarmMove.refl, implies_true, true_and, hst, Option.some.injEq, forall_eq']
    intro _
    cases hb : st.bond e.bondAmount s.height with
    | none => exact hrefund _
    | some x =>
      obtain ⟨st', entry⟩ := x
      rw [wp_ite]
      refine ⟨fun _ => hrefund _, fun hfresh => ?_⟩
      simp only [wp_bind, wp_expect, wp_modify, wp_pure]
      rw [wp_iff_ok]
      rintro _ t ht
      obtain ⟨root, hroot, rfl⟩ := foldNoteAppend_eq_ok.1 ht
      refine wp_setFarm fun q hq => ?_
      have hfresh : s.farmEntries.get (farmReceiptLeaf G.toKeccak e.farmId st.lpAsset e.bondAmount e.ownerCommit e.nonce) = none := by
        simpa using hfresh
      exact .bond (r := ⟨e.farmId, st.lpAsset, e.bondAmount, e.ownerCommit, e.nonce⟩) hst rfl hfresh hb rfl
        ⟨rfl, w.path 0, hroot⟩ rfl

/-- A harvest that is not paid is undone: the farms are as they were. -/
theorem undoHarvest_restores {farmId : Word} {st st' : FarmRewardState} {leaf : Word} {stamp : U 128} {u : ScanReflection}
    (hst : s.farmRewards.get farmId = some st) (hu : u = { s with
      farmEntries := s.farmEntries.set leaf stamp, farmRewards := s.farmRewards.set farmId st' }) :
    wp True (undoHarvest farmId s) u (fun _ _ => True) (fun _ t => t = s) := by
  simp only [undoHarvest, hst, wp_bind, wp_expect, wp_modify]
  refine wp_setFarm fun q _ => ?_
  rw [hu]
  dsimp only
  rw [SortedMap.set_set_of_get hst]

theorem foldLpHarvest_eq_ok {C : Crypto} {e : LpHarvestEnvelope} {i : Nat} {path : List Word} {spk : Bytes} {a : Unit}
    {u : ScanReflection} (h : foldLpHarvest C e i path spk s = .ok a u) : ∃ (st st' : FarmRewardState) (entry stamp : U 128) (r : Receipt),
      s.farmRewards.get e.farmId = some st ∧ r = ⟨e.farmId, st.lpAsset, e.shares, e.ownerCommit, e.oldNonce⟩ ∧
      s.farmEntries.get (r.leaf C.toKeccak) = some entry ∧
      verifyFarmHarvest st s.height r.shares entry e.rewardAmount = some (st', stamp) ∧
      u = { s with farmEntries := s.farmEntries.set (r.leaf C.toKeccak) stamp, farmRewards := s.farmRewards.set r.farm st' } := by
  simp only [foldLpHarvest, bind_eq_ok, get_eq_ok, orThrow_eq_ok, check_eq_ok, modify_eq_ok, setFarm, orPanic_eq_ok,
    SortedMap.update_eq_some] at h
  obtain ⟨_, _, ⟨rfl, rfl⟩, st, _, ⟨hst, rfl⟩, entry, _, ⟨hentry, rfl⟩, ⟨st', stamp⟩, _, ⟨hv, rfl⟩, _, _, ⟨-, rfl⟩, _, _,
    ⟨-, rfl⟩, _, _, rfl, _, _, ⟨rfl, rfl⟩, _, _, ⟨⟨-, rfl⟩, rfl⟩, rfl⟩ := h
  exact ⟨st, st', entry, stamp, _, hst, rfl, hentry, hv, rfl⟩

/-- An unauthorized harvest does nothing. -/
theorem foldLpHarvest_err {C : Crypto} {e : LpHarvestEnvelope} {i : Nat} {path : List Word} {spk : Bytes} {err : String}
    {u : ScanReflection} (h : foldLpHarvest C e i path spk s = .err err u) : u = s := by
  have : wp True (foldLpHarvest C e i path spk) s (fun _ t => t = s) (fun _ _ => True) := by
    simp only [foldLpHarvest, wp_bind, wp_get, wp_orThrow, wp_check, wp_modify, implies_true, true_and]
    intro st _ entry _ x _ _ _
    exact wp_setFarm fun _ _ => trivial
  unfold wp at this
  rwa [h] at this

theorem scanLpHarvest_moves (hK : G.toKeccak.Ideal) {tx : Tx} {w : TxWitness} {e : LpHarvestEnvelope} :
    wp True (scanLpHarvest G tx w e) s (fun _ _ => True)
      (fun _ t => FarmMove G.toKeccak s t (.harvest tx w e) ((FarmOp.harvest tx w e).pays G s)) := by
  unfold scanLpHarvest
  simp only [wp_bind, wp_get, succeeds, wp_attempt]
  rw [wp]
  cases hauth : foldLpHarvest G.toCrypto e w.oldIndex w.oldPath (tx.outputScriptpubkey 1) s with
  | panic => trivial
  | err err u =>
    have hp : (FarmOp.harvest tx w e).pays G s = 0 := by
      funext f
      simp [FarmOp.pays, harvestPays, hauth]
    obtain rfl := foldLpHarvest_err hauth
    simpa [hp] using FarmMove.refl _
  | ok a u =>
    obtain ⟨st, st', entry, stamp, r, hst, rfl, hentry, hv, hu⟩ := foldLpHarvest_eq_ok hauth
    simp only [wp_pure, if_true, wp_bind, wp_attempt]
    have hm := foldHarvest_moves (s := u) hK e.farmId e.rewardAmount e.rewardR (outpointKey G.toKeccak (tx.txid, 1)) (w.path 0)
      (tx.outputScriptpubkey 1)
    rw [wp] at hm ⊢
    cases hpay : foldHarvest G.toCrypto e.farmId e.rewardAmount e.rewardR (outpointKey G.toKeccak (tx.txid, 1)) (w.path 0)
        (tx.outputScriptpubkey 1) u with
    | panic => trivial
    | err err v =>
      rw [hpay] at hm
      have hp : (FarmOp.harvest tx w e).pays G s = 0 := by
        funext f
        simp [FarmOp.pays, harvestPays, hauth, hpay]
      simp only [Bool.false_eq_true, if_false, hp]
      rw [show v = u from hm]
      exact wp_mono (undoHarvest_restores hst hu) id (fun _ _ _ => trivial) fun _ t ht => ht ▸ .refl _
    | ok b v =>
      rw [hpay] at hm
      obtain ⟨pool, hpool, hle, hf, hn, hs⟩ := hm
      have hp : (FarmOp.harvest tx w e).pays G s = fun f => if e.farmId = f then e.rewardAmount.val else 0 := by
        funext f
        simp [FarmOp.pays, harvestPays, hauth, hpay]
      rw [hp]
      subst hu
      exact .harvest hst rfl hentry hv hpool hle hf hn hs

theorem wrap_val {w n : Nat} (hn : n < 2 ^ w) : (U.wrap w n).val = n := Nat.mod_eq_of_lt hn

/-- The rewards of a farm whose window the guest has checked are registered, unless the farm has rewards. -/
theorem foldFarmInitRewards_moves {C : Crypto} {f : Word} {e : FarmInitEnvelope} (hw : farmWindowOk e = true)
    {E Q : ScanReflection → Prop} (hknown : s.farmRewards.get f ≠ none → E s)
    (hnew : ∀ st : FarmRewardState, s.farmRewards.get f = none →
      st.totalShares = 0 ∧ st.rps = 0 ∧ st.totalRewardDebt = 0 ∧ st.lastHeight = s.height → st.Scheduled →
      st.rate.val * (st.endHeight.val - st.startHeight.val) ≤ e.rewardTotal.val →
      Q { s with farmRewards := s.farmRewards.set f st }) :
    wp True (foldFarmInitRewards C f e.rewardPerBlock e.launcherPubkey e.poolId (U.wrap 64 e.startHeight.val)
      (U.wrap 64 e.endHeight.val) e.rewardTotal) s (fun _ t => E t) (fun _ t => Q t) := by
  have hs : (U.wrap 64 e.startHeight.val).val = e.startHeight.val := wrap_val (by have := e.startHeight.isLt; omega)
  have he : (U.wrap 64 e.endHeight.val).val = e.endHeight.val := wrap_val (by have := e.endHeight.isLt; omega)
  simp only [farmWindowOk, Bool.and_eq_true, bne_iff_ne, decide_eq_true_eq] at hw
  obtain ⟨⟨⟨⟨⟨⟨h0, hlt⟩, hmul⟩, hrate⟩, hwin⟩, hmax⟩, hfund⟩ := hw
  have hwindow : (U.saturatingSub (U.wrap 64 e.endHeight.val) (U.wrap 64 e.startHeight.val)).val =
      e.endHeight.val - e.startHeight.val := by
    simp only [U.saturatingSub, hs, he]
  simp only [foldFarmInitRewards, wp_bind, wp_get, wp_check, wp_orThrow, wp_orPanic, wp_modify, SortedMap.insert_eq_some,
    implies_true, true_and]
  refine ⟨fun hk => hknown (Option.isSome_iff_ne_none.1 hk), fun hk => ⟨fun h => ?_, fun _ => ⟨fun h => ?_, fun _ => ?_⟩⟩⟩
  · rw [← Fin.val_inj, he] at h
    exact absurd h h0
  · have h : (U.wrap 64 e.endHeight.val).val ≤ (U.wrap 64 e.startHeight.val).val := h
    omega
  refine ⟨fun h => absurd h (by omega), fun _ => ⟨fun h => absurd h (by omega), fun _ => ⟨fun h => ?_, ?_⟩⟩⟩
  · have := U.ofNat?_eq_none.1 h
    rw [hwindow] at this
    omega
  rintro rw hrw
  have hrw := U.checkedMul_eq_some.1 hrw
  rw [hwindow] at hrw
  refine ⟨fun h => absurd h (by omega), fun _ => ⟨fun h => ?_, fun _ => ?_⟩⟩
  · have h : e.rewardTotal.val < rw.val := h
    omega
  rintro _ ⟨hnone, rfl⟩
  refine hnew _ hnone ⟨rfl, rfl, rfl, rfl⟩ ⟨?_, ?_⟩ ?_
  · simpa only [hs, he] using hlt
  · simpa only [hs, he] using hmax
  · simpa only [hs, he] using hfund

theorem foldFarmInit_moves {C : Crypto} (hK : C.toKeccak.Ideal) {e : FarmInitEnvelope} {f : Word} {input : OutPoint} {c : Bytes}
    {outpoint : Word} {path : List Word} :
    wp True (foldFarmInit C e f input c true outpoint path) s (fun _ t => t = s)
      (fun b t => (b = false ∧ NoteAdded C.toKeccak s t) ∨ (b = true ∧ s.pools.get f = none ∧
        ∃ pool, pool.reserveA = e.rewardTotal ∧ t = { s with pools := s.pools.set f pool })) := by
  simp only [foldFarmInit, wp_bind, wp_check, wp_get, wp_ite, wp_pure, implies_true, true_and]
  intro _ _ _
  refine ⟨fun _ => ?_, fun _ => wp_insertPool fun hnone => .inr ⟨hnone, _, rfl, rfl⟩⟩
  exact wp_mono (onboardAmmRefundNote_adds_leaf hK) id (fun _ _ h => h) fun _ t ht => .inl ht

theorem scanFarmInit_moves (hK : G.toKeccak.Ideal) {tx : Tx} {w : TxWitness} {e : FarmInitEnvelope} {all : List DetectedSpend} :
    ∀ spends, wp True (scanFarmInit G tx w e spends) s (fun _ _ => True)
      (fun _ t => FarmMove G.toKeccak s t (.init tx w all e) 0) := by
  intro spends
  induction spends with
  | nil => exact FarmMove.refl _
  | cons d ds ih =>
    unfold scanFarmInit
    cases decide (d.asset = e.rewardAsset) with
    | false => exact ih
    | true =>
      cases G.fromAffineXy d.cx d.cy with
      | none => exact ih
      | some pt =>
        dsimp only
        simp only [wp_ite]
        refine ⟨fun _ => ih, fun _ => ⟨fun hw => ?_, fun _ => FarmMove.refl _⟩⟩
        rw [wp_bind, wp_attempt]
        refine wp_mono (foldFarmInit_moves hK) id (fun _ t ht => ht ▸ FarmMove.refl _) ?_
        rintro b t (⟨rfl, ht⟩ | ⟨rfl, hnone, pool, hpool, rfl⟩)
        · exact ht.idle _
        · refine wp_swallow.2 (foldFarmInitRewards_moves hw (fun hk => ?_) fun st hn hz hsch hfund => ?_)
          · exact .fund hnone hk rfl rfl rfl
          · exact .register hnone hn hz hsch (hpool ▸ hfund) rfl rfl rfl

/-- Every step of a run is a move. -/
theorem FarmOp.moves (hK : G.toKeccak.Ideal) {op : FarmOp} {t : ScanReflection} (h : op.run G s = .ok () t) :
    FarmMove G.toKeccak s t op (op.pays G s) := by
  let Q : Unit → ScanReflection → Prop := fun _ t => FarmMove G.toKeccak s t op (op.pays G s)
  cases op with
  | advance height =>
    simp only [FarmOp.run, bind_eq_ok, get_eq_ok, assert_eq_ok, modify_eq_ok] at h
    obtain ⟨_, _, ⟨rfl, rfl⟩, _, _, ⟨hle, rfl⟩, rfl⟩ := h
    exact .advance hle rfl rfl rfl
  | init tx w spends e => exact wp_of_ok (Q := Q) (scanFarmInit_moves hK spends) h
  | bond tx w spends e => exact wp_of_ok (Q := Q) (scanLpBond_moves hK) h
  | harvest tx w e => exact wp_of_ok (Q := Q) (scanLpHarvest_moves hK) h
  | unbond tx w e => exact wp_of_ok (Q := Q) (scanLpUnbond_moves hK) h
  | refund tx w e => exact wp_of_ok (Q := Q) (scanFarmRefund_moves hK) h

end Inversion

/-- No farm yet. -/
structure NoFarms (s : ScanReflection) : Prop where
  rewards : s.farmRewards = .empty
  entries : s.farmEntries = .empty

end Tacit
