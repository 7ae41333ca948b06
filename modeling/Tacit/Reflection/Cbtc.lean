import Mathlib.Algebra.BigOperators.Group.Finset.Basic
import Mathlib.Algebra.Order.BigOperators.Group.Finset
import Tacit.Reflection.Independence
import Tacit.Reflection.Updates
/-!
# The registry of cBTC locks

`fold_cbtc_lock`, `fold_cbtc_lock_spends` and `fold_cbtc_redeem` keep a running total of sats beside the map of
locks, by saturating steps. The total is exact while the locks fit the word, and what makes them fit is no check of
the guest but the ledger the transactions come from: a lock is an unspent coin of Bitcoin (`Tracks.held`), because
every transaction's inputs are scanned, and the coins never exceed what was issued. The same ledger never confirms
one transaction id twice, so that an outpoint enters the registry at most once.
-/
namespace Tacit

open Prog

/-! ## Bitcoin's coins -/

/-- The most that is ever issued, in sats. -/
def maxMoney : Nat := 21000000 * 100000000

/-- The outputs of a transaction, with their values. -/
def Tx.coins (tx : Tx) : Finset (OutPoint × Nat) :=
  (tx.outputs.mapIdx fun i o => ((tx.txid, U.wrap 32 i), o.1.val)).toFinset

/-- The rules of Bitcoin that the registry relies on, for a chain of transactions with the last one first: its
unspent coins and the sats issued. A scan starts at any block, from the coins of the blocks before. -/
inductive Confirmed : List Tx → Finset (OutPoint × Nat) → Nat → Prop
  | start {coins : Finset (OutPoint × Nat)} {issued : Nat} :
      ∑ c ∈ coins, c.2 ≤ issued → issued ≤ maxMoney → Confirmed [] coins issued
  | tx {txs : List Tx} {coins : Finset (OutPoint × Nat)} {issued reward : Nat} {tx : Tx} :
      Confirmed txs coins issued → (∀ t ∈ txs, t.txid ≠ tx.txid) → (∀ op ∈ tx.inputs, op.1 ≠ tx.txid) →
      (tx.outputs.map fun o => o.1.val).sum ≤ (∑ c ∈ coins with c.1 ∈ tx.inputs, c.2) + reward →
      issued + reward ≤ maxMoney →
      Confirmed (tx :: txs) ((coins.filter fun c => c.1 ∉ tx.inputs) ∪ tx.coins) (issued + reward)

section Coins

variable {tx : Tx} {txs : List Tx} {coins : Finset (OutPoint × Nat)} {issued : Nat}

theorem mem_coins {vout : U 32} {v : U 64} {spk : Bytes} (h : tx.outputs[vout.val]? = some (v, spk)) :
    ((tx.txid, vout), v.val) ∈ tx.coins := by
  obtain ⟨hlt, hv⟩ := List.getElem?_eq_some_iff.1 h
  have hw : U.wrap 32 vout.val = vout := Fin.ext (Nat.mod_eq_of_lt vout.isLt)
  rw [Tx.coins, List.mem_toFinset, List.mem_mapIdx]
  exact ⟨vout.val, hlt, by rw [hv, hw]⟩

theorem sum_toFinset_le {α : Type} [DecidableEq α] (l : List α) (f : α → Nat) : ∑ x ∈ l.toFinset, f x ≤ (l.map f).sum := by
  rw [Finset.sum_list_map_count]
  refine Finset.sum_le_sum fun x hx => ?_
  have hc : 0 < l.count x := List.count_pos_iff.2 (List.mem_toFinset.1 hx)
  exact Nat.le_mul_of_pos_left _ hc

theorem sum_union_le (A B : Finset (OutPoint × Nat)) : ∑ c ∈ A ∪ B, c.2 ≤ ∑ c ∈ A, c.2 + ∑ c ∈ B, c.2 := by
  have h : ∑ c ∈ A ∪ B, c.2 + ∑ c ∈ A ∩ B, c.2 = _ := Finset.sum_union_inter
  omega

theorem sum_coins_le (tx : Tx) : ∑ c ∈ tx.coins, c.2 ≤ (tx.outputs.map fun o => o.1.val).sum := by
  have hvals : (tx.outputs.mapIdx fun i o => ((tx.txid, U.wrap 32 i), o.1.val)).map Prod.snd =
      tx.outputs.map fun o => o.1.val := List.ext_getElem (by simp) (by simp)
  rw [← hvals]
  exact sum_toFinset_le _ _

theorem Confirmed.sum_le (h : Confirmed txs coins issued) : ∑ c ∈ coins, c.2 ≤ issued ∧ issued ≤ maxMoney := by
  induction h with
  | start h hm => exact ⟨h, hm⟩
  | @tx txs coins issued reward tx _ _ _ hout hm ih =>
    refine ⟨?_, hm⟩
    have hsplit := Finset.sum_filter_add_sum_filter_not coins (fun c => c.1 ∈ tx.inputs) fun c => c.2
    have hunion := sum_union_le (coins.filter fun c => c.1 ∉ tx.inputs) tx.coins
    have := sum_coins_le tx
    omega

/-- While a transaction is scanned, the coins before it and its own fit the word. -/
theorem Confirmed.sum_lt (h : Confirmed txs coins issued)
    (hout : ∃ reward, (tx.outputs.map fun o => o.1.val).sum ≤ (∑ c ∈ coins with c.1 ∈ tx.inputs, c.2) + reward ∧
      issued + reward ≤ maxMoney) : ∑ c ∈ coins ∪ tx.coins, c.2 < 2 ^ 64 := by
  obtain ⟨reward, hout, hm⟩ := hout
  have hsplit := Finset.sum_filter_add_sum_filter_not coins (fun c => c.1 ∈ tx.inputs) fun c => c.2
  have hunion := sum_union_le coins tx.coins
  have := sum_coins_le tx
  have := h.sum_le
  have hmax : 2 * maxMoney < 2 ^ 64 := by decide
  omega

end Coins

/-! ## Runs of the folds -/

/-- A fold of the registry while a transaction is scanned. -/
inductive LockFold
  | lock (asset cx cy : Word) (lockVout : U 32)
  | spends
  | redeem (lock : OutPoint) (vBtc : U 64) (inputOutpoints : List OutPoint) (inputCommitments : List Point) (kernelSig : Bytes)

/-- What the batch surfaces of the locks (reflect.rs:1085-1087). -/
structure LockReport where
  folded : List CbtcLockFold
  spent : List Word
  redeemed : List Word

namespace LockReport

def empty : LockReport := ⟨[], [], []⟩

def append (R R' : LockReport) : LockReport := ⟨R.folded ++ R'.folded, R.spent ++ R'.spent, R.redeemed ++ R'.redeemed⟩

/-- How often an outpoint is reported as tracked. -/
def entered (R : LockReport) (o : Word) : Nat := (R.folded.map CbtcLockFold.outpoint).count o

/-- How often an outpoint is reported as gone. -/
def left (R : LockReport) (o : Word) : Nat := R.spent.count o + R.redeemed.count o

@[simp] theorem append_empty (R : LockReport) : R.append .empty = R := by simp [append, empty]

@[simp] theorem empty_append (R : LockReport) : LockReport.empty.append R = R := by simp [append, empty]

theorem append_assoc (R R' R'' : LockReport) : (R.append R').append R'' = R.append (R'.append R'') := by simp [append]

@[simp] theorem entered_append (R R' : LockReport) (o : Word) : (R.append R').entered o = R.entered o + R'.entered o := by
  simp [append, entered]

@[simp] theorem left_append (R R' : LockReport) (o : Word) : (R.append R').left o = R.left o + R'.left o := by
  simp [append, left]
  omega

end LockReport

/-- The fold on the state, with what the batch reports of it. -/
def LockFold.fold (C : Crypto) (tx : Tx) : LockFold → Fold LockReport
  | .lock asset cx cy lockVout => do
    let f ← foldCbtcLock C asset cx cy tx lockVout
    pure ⟨[f], [], []⟩
  | .spends => do
    let spent ← foldCbtcLockSpends C tx.inputs
    pure ⟨[], spent, []⟩
  | .redeem op vBtc ops pts sig => do
    let o ← foldCbtcRedeem C op vBtc tx.inputs ops pts sig
    pure ⟨[], [], [o]⟩

/-- The part of the state that the folds of the registry read and write. -/
def ScanReflection.lockBook (s : ScanReflection) : SortedMap Word (U 64) × U 64 := (s.cbtcLocks, s.cbtcBackingSats)

/-- The folds of one transaction, the last one first, with whatever else the guest does between them: a refused fold
is dropped. -/
inductive LockFolds (C : Crypto) (tx : Tx) : List LockFold → ScanReflection → ScanReflection → LockReport → Prop
  | nil {s : ScanReflection} : LockFolds C tx [] s s .empty
  | other {fs : List LockFold} {s t u : ScanReflection} {R : LockReport} :
      LockFolds C tx fs s t R → u.lockBook = t.lockBook → LockFolds C tx fs s u R
  | ok {fs : List LockFold} {f : LockFold} {s t u : ScanReflection} {R R' : LockReport} :
      LockFolds C tx fs s t R → f.fold C tx t = .ok R' u → LockFolds C tx (f :: fs) s u (R.append R')
  | err {fs : List LockFold} {f : LockFold} {s t u : ScanReflection} {R : LockReport} {e : String} :
      LockFolds C tx fs s t R → f.fold C tx t = .err e u → LockFolds C tx (f :: fs) s u R

/-- A run of the folds from genesis: for every transaction, the last one first, the folds made while it was scanned. -/
inductive LockRun (C : Crypto) : List (Tx × List LockFold) → ScanReflection → LockReport → Prop
  | genesis : LockRun C [] (.genesis C.toKeccak) .empty
  | tx {calls : List (Tx × List LockFold)} {tx : Tx} {fs : List LockFold} {s t : ScanReflection} {R R' : LockReport} :
      LockRun C calls s R → LockFolds C tx fs s t R' → LockRun C ((tx, fs) :: calls) t (R.append R')

/-! ## What one fold does -/

section Fold

variable {C : Crypto} {tx : Tx} {s : ScanReflection}

/-- A lock enters the registry. -/
def ScanReflection.enter (s : ScanReflection) (key : Word) (v : U 64) : ScanReflection :=
  { s with cbtcLocks := s.cbtcLocks.set key v, cbtcBackingSats := U.saturatingAdd s.cbtcBackingSats v }

/-- A lock leaves the registry. -/
def ScanReflection.leave (s : ScanReflection) (key : Word) (v : U 64) : ScanReflection :=
  { s with cbtcBackingSats := U.saturatingSub s.cbtcBackingSats v, cbtcLocks := s.cbtcLocks.erase key }

theorem foldCbtcLock_spec {asset cx cy : Word} {vout : U 32} :
    wp True (foldCbtcLock C asset cx cy tx vout) s (fun _ t => t = s) fun f t => ∃ v spk,
      tx.outputs[vout.val]? = some (v, spk) ∧ s.cbtcLocks.get (outpointKey C.toKeccak (tx.txid, vout)) = none ∧
      f.outpoint = outpointKey C.toKeccak (tx.txid, vout) ∧ t = s.enter (outpointKey C.toKeccak (tx.txid, vout)) v := by
  simp only [foldCbtcLock, wp_bind, wp_check, wp_orThrow, wp_get, wp_modify, wp_pure, eq_self, implies_true, true_and]
  rintro - - ⟨v, spk⟩ hout - - hget
  rw [Bool.not_eq_true, Option.isSome_eq_false_iff, Option.isNone_iff_eq_none] at hget
  exact ⟨v, spk, hout, hget, rfl⟩

theorem foldCbtcRedeem_spec {op : OutPoint} {vBtc : U 64} {ops : List OutPoint} {pts : List Point} {sig : Bytes} :
    wp True (foldCbtcRedeem C op vBtc tx.inputs ops pts sig) s (fun _ t => t = s) fun o t =>
      op ∈ tx.inputs ∧ s.cbtcLocks.get (outpointKey C.toKeccak op) = some vBtc ∧
      o = outpointKey C.toKeccak op ∧ t = s.leave (outpointKey C.toKeccak op) vBtc := by
  simp only [foldCbtcRedeem, wp_bind, wp_check, wp_orThrow, wp_get, wp_modify, wp_pure, eq_self, implies_true, true_and, not_not]
  intro _ hin v hget hv _
  exact ⟨hin, hv ▸ hget, rfl⟩

end Fold

/-! ## The registry against the ledger -/

/-- The lock registered at an outpoint, as a number. -/
def ScanReflection.tracked (s : ScanReflection) (o : Word) : Nat := if (s.cbtcLocks.get o).isSome then 1 else 0

/-- The sats of the locks in the registry. -/
def ScanReflection.lockedSats (s : ScanReflection) : Int := s.cbtcLocks.total fun _ v => v.val

theorem lockedSats_enter {s : ScanReflection} {k : Word} {v : U 64} (h : s.cbtcLocks.get k = none) :
    (s.enter k v).lockedSats = s.lockedSats + v.val := by
  rw [ScanReflection.lockedSats, ScanReflection.enter, SortedMap.total_set, SortedMap.at'_of_none h]
  simp [ScanReflection.lockedSats]

theorem lockedSats_leave {s : ScanReflection} {k : Word} {v : U 64} (h : s.cbtcLocks.get k = some v) :
    (s.leave k v).lockedSats = s.lockedSats - v.val := by
  rw [ScanReflection.lockedSats, ScanReflection.leave, SortedMap.total_erase, SortedMap.at'_of_some h]
  rfl

/-- What holds while `tx` is scanned, after the transactions `txs` left the unspent `coins`; `scanned` once the inputs
of `tx` are. -/
structure Tracks (C : Crypto) (txs : List Tx) (coins : Finset (OutPoint × Nat)) (tx : Tx) (scanned : Prop)
    (s : ScanReflection) (R : LockReport) : Prop where
  backing : (s.cbtcBackingSats.val : Int) = s.lockedSats
  held : ∀ k v, s.cbtcLocks.get k = some v → ∃ op, outpointKey C.toKeccak op = k ∧
    ((op, v.val) ∈ tx.coins ∨ (op, v.val) ∈ coins ∧ (scanned → op ∉ tx.inputs))
  counts : ∀ o, R.left o + s.tracked o = R.entered o
  once : ∀ o, R.entered o ≤ 1
  named : ∀ o, 0 < R.entered o → ∃ t ∈ tx :: txs, ∃ vout, o = outpointKey C.toKeccak (t.txid, vout)
  own : ∀ vout, R.left (outpointKey C.toKeccak (tx.txid, vout)) = 0

namespace Tracks

variable {C : Crypto} {txs : List Tx} {coins : Finset (OutPoint × Nat)} {tx : Tx} {scanned : Prop}
  {s t : ScanReflection} {R : LockReport}

theorem congr (h : Tracks C txs coins tx scanned s R) (hb : t.lockBook = s.lockBook) : Tracks C txs coins tx scanned t R := by
  obtain ⟨hl, hs⟩ := Prod.ext_iff.1 hb
  have hl' : t.cbtcLocks = s.cbtcLocks := hl
  have hs' : t.cbtcBackingSats = s.cbtcBackingSats := hs
  constructor
  · rw [ScanReflection.lockedSats, hl', hs']
    exact h.backing
  · rw [hl']
    exact h.held
  · intro o
    rw [ScanReflection.tracked, hl']
    exact h.counts o
  · exact h.once
  · exact h.named
  · exact h.own

/-- A tracked output of the transaction: its value is among the coins, so that the total fits. -/
theorem enter (h : Tracks C txs coins tx scanned s R) (hsum : ∑ c ∈ coins ∪ tx.coins, c.2 < 2 ^ 64)
    {vout : U 32} {v : U 64} {spk : Bytes} (hout : tx.outputs[vout.val]? = some (v, spk))
    (hget : s.cbtcLocks.get (outpointKey C.toKeccak (tx.txid, vout)) = none) {f : CbtcLockFold}
    (hf : f.outpoint = outpointKey C.toKeccak (tx.txid, vout)) :
    Tracks C txs coins tx scanned (s.enter (outpointKey C.toKeccak (tx.txid, vout)) v) (R.append ⟨[f], [], []⟩) := by
  set key := outpointKey C.toKeccak (tx.txid, vout) with hkey
  have hheld : ∀ k w, (s.enter key v).cbtcLocks.get k = some w → ∃ op, outpointKey C.toKeccak op = k ∧
      ((op, w.val) ∈ tx.coins ∨ (op, w.val) ∈ coins ∧ (scanned → op ∉ tx.inputs)) := by
    intro k w hk
    rw [ScanReflection.enter, SortedMap.get_set] at hk
    by_cases hkk : key = k
    · rw [if_pos hkk] at hk
      cases hk
      exact ⟨(tx.txid, vout), hkk, Or.inl (mem_coins hout)⟩
    · rw [if_neg hkk] at hk
      exact h.held k w hk
  have hle : (s.enter key v).lockedSats ≤ ((∑ c ∈ coins ∪ tx.coins, c.2 : Nat) : Int) := by
    refine SortedMap.total_le_sum (g := fun c => outpointKey C.toKeccak c.1) fun k w hk => ?_
    obtain ⟨op, hop, hc⟩ := hheld k w hk
    refine ⟨(op, w.val), ?_, hop, rfl⟩
    rcases hc with hc | ⟨hc, -⟩ <;> simp [hc]
  have htotal : (s.enter key v).lockedSats = s.lockedSats + v.val := lockedSats_enter hget
  have hentered : ∀ o, (R.append ⟨[f], [], []⟩).entered o = R.entered o + if key = o then 1 else 0 := by
    intro o
    rw [LockReport.entered_append]
    simp [LockReport.entered, hf, List.count_singleton]
  have hleft : ∀ o, (R.append ⟨[f], [], []⟩).left o = R.left o := by
    intro o
    rw [LockReport.left_append]
    simp [LockReport.left]
  have hnew : R.entered key = 0 := by
    have hc := h.counts key
    rw [h.own vout] at hc
    simpa [ScanReflection.tracked, hget] using hc.symm
  constructor
  · have hb := h.backing
    rw [htotal, ← hb]
    have hlt : s.cbtcBackingSats.val + v.val < 2 ^ 64 := by omega
    rw [ScanReflection.enter, U.saturatingAdd_val hlt]
    push_cast
    rfl
  · exact hheld
  · intro o
    have hc := h.counts o
    rw [hentered, hleft, ← hc]
    by_cases ho : key = o
    · simp [ScanReflection.tracked, ScanReflection.enter, ← ho, hget]
    · simp [ScanReflection.tracked, ScanReflection.enter, ho]
  · intro o
    rw [hentered]
    by_cases ho : key = o
    · rw [← ho, hnew]
      simp
    · simpa [ho] using h.once o
  · intro o ho
    rw [hentered] at ho
    by_cases hko : key = o
    · exact ⟨tx, by simp, vout, hko.symm⟩
    · exact h.named o (by simpa [hko] using ho)
  · intro w
    rw [hleft]
    exact h.own w

/-- A lock at an input of the transaction leaves, and is reported. -/
theorem leave (hK : C.toKeccak.Ideal) (h : Tracks C txs coins tx scanned s R) (hown : ∀ op ∈ tx.inputs, op.1 ≠ tx.txid)
    {op : OutPoint} (hop : op ∈ tx.inputs) {v : U 64} (hget : s.cbtcLocks.get (outpointKey C.toKeccak op) = some v)
    {Q : LockReport} (hQ : Q.folded = []) (hleft : ∀ o, Q.left o = if outpointKey C.toKeccak op = o then 1 else 0) :
    Tracks C txs coins tx scanned (s.leave (outpointKey C.toKeccak op) v) (R.append Q) := by
  have hentered : ∀ o, (R.append Q).entered o = R.entered o := by
    intro o
    rw [LockReport.entered_append]
    simp [LockReport.entered, hQ]
  constructor
  · have hb := h.backing
    have hle := SortedMap.at'_le_total (m := s.cbtcLocks) (f := fun _ v => (v.val : Int)) (fun _ _ => by simp)
      (outpointKey C.toKeccak op)
    have htotal : (s.leave (outpointKey C.toKeccak op) v).lockedSats = s.lockedSats - v.val := lockedSats_leave hget
    rw [SortedMap.at'_of_some hget] at hle
    rw [htotal, ← hb, ScanReflection.leave]
    have : (v.val : Int) ≤ s.cbtcBackingSats.val := by
      rw [hb]
      exact hle
    show ((s.cbtcBackingSats.val - v.val : Nat) : Int) = _
    omega
  · intro k w hk
    rw [ScanReflection.leave, SortedMap.get_erase] at hk
    by_cases hkk : outpointKey C.toKeccak op = k
    · simp [hkk] at hk
    · rw [if_neg hkk] at hk
      exact h.held k w hk
  · intro o
    have hc := h.counts o
    rw [hentered, LockReport.left_append, hleft, ← hc]
    by_cases ho : outpointKey C.toKeccak op = o
    · simp [ScanReflection.tracked, ScanReflection.leave, ← ho, hget]
    · simp [ScanReflection.tracked, ScanReflection.leave, ho]
  · intro o
    rw [hentered]
    exact h.once o
  · intro o ho
    rw [hentered] at ho
    exact h.named o ho
  · intro w
    have hne : outpointKey C.toKeccak op ≠ outpointKey C.toKeccak (tx.txid, w) := by
      intro heq
      exact hown op hop (congrArg Prod.fst (outpointKey_inj hK heq))
    rw [LockReport.left_append, h.own, hleft, if_neg hne]

/-- The scan of the inputs: what is left of the registry is no input of the transaction. -/
theorem foldCbtcLockSpends (hK : C.toKeccak.Ideal) (hown : ∀ op ∈ tx.inputs, op.1 ≠ tx.txid) :
    ∀ {ins : List OutPoint}, (∀ op ∈ ins, op ∈ tx.inputs) → ∀ {s : ScanReflection} {R : LockReport},
      Tracks C txs coins tx scanned s R → wp True (Tacit.foldCbtcLockSpends C ins) s (fun _ _ => False) fun spent t =>
        Tracks C txs coins tx scanned t (R.append ⟨[], spent, []⟩) ∧
        (∀ k, s.cbtcLocks.get k = none → t.cbtcLocks.get k = none) ∧
        ∀ op ∈ ins, t.cbtcLocks.get (outpointKey C.toKeccak op) = none
  | [], _, s, R, h => by
    refine ⟨?_, fun _ hk => hk, by simp⟩
    simpa [LockReport.append] using h
  | op :: ins, hins, s, R, h => by
    have hins' : ∀ op ∈ ins, op ∈ tx.inputs := fun op hop => hins op (by simp [hop])
    unfold Tacit.foldCbtcLockSpends
    rw [wp_bind, wp_get]
    cases hget : s.cbtcLocks.get (outpointKey C.toKeccak op) with
    | none =>
      refine wp_mono (foldCbtcLockSpends hK hown hins' h) id (fun _ _ hf => hf) fun spent t ht => ?_
      refine ⟨ht.1, ht.2.1, ?_⟩
      intro op' hop'
      rcases List.mem_cons.1 hop' with rfl | hop'
      · exact ht.2.1 _ hget
      · exact ht.2.2 op' hop'
    | some v =>
      have hleave := h.leave hK hown (hins op (by simp)) hget (Q := ⟨[], [outpointKey C.toKeccak op], []⟩) rfl
        (fun o => by simp [LockReport.left, List.count_singleton])
      simp only [wp_bind, wp_modify, wp_pure]
      refine wp_mono (foldCbtcLockSpends hK hown hins' hleave) id (fun _ _ hf => hf) fun spent t ht => ?_
      have herase : ∀ k, s.cbtcLocks.get k = none → (s.cbtcLocks.erase (outpointKey C.toKeccak op)).get k = none := by
        intro k hk
        simp [hk]
      refine ⟨?_, fun k hk => ht.2.1 k (herase k hk), ?_⟩
      · simpa [LockReport.append] using ht.1
      · intro op' hop'
        rcases List.mem_cons.1 hop' with rfl | hop'
        · exact ht.2.1 _ (by simp)
        · exact ht.2.2 op' hop'

/-- Once the inputs are scanned, the locks that are left are unspent after the transaction. -/
theorem scan (h : Tracks C txs coins tx scanned s R)
    (hins : ∀ op ∈ tx.inputs, s.cbtcLocks.get (outpointKey C.toKeccak op) = none) : Tracks C txs coins tx True s R := by
  refine ⟨h.backing, ?_, h.counts, h.once, h.named, h.own⟩
  intro k v hk
  obtain ⟨op, hop, hc⟩ := h.held k v hk
  refine ⟨op, hop, ?_⟩
  rcases hc with hc | ⟨hc, -⟩
  · exact Or.inl hc
  · refine Or.inr ⟨hc, fun _ hin => ?_⟩
    rw [← hop, hins op hin] at hk
    cases hk

/-- One fold: a refused one changes nothing. -/
theorem fold (hK : C.toKeccak.Ideal) (hown : ∀ op ∈ tx.inputs, op.1 ≠ tx.txid)
    (hsum : ∑ c ∈ coins ∪ tx.coins, c.2 < 2 ^ 64) (h : Tracks C txs coins tx scanned s R) (f : LockFold) :
    wp True (f.fold C tx) s (fun _ t => t = s ∧ f ≠ .spends) fun R' t =>
      Tracks C txs coins tx (scanned ∨ f = .spends) t (R.append R') := by
  cases f with
  | lock asset cx cy vout =>
    rw [LockFold.fold, wp_bind]
    refine wp_mono foldCbtcLock_spec id (fun _ _ ht => ⟨ht, by simp⟩) fun f t ht => ?_
    obtain ⟨v, spk, hout, hget, hf, rfl⟩ := ht
    simpa using h.enter hsum hout hget hf
  | spends =>
    rw [LockFold.fold, wp_bind]
    refine wp_mono (foldCbtcLockSpends hK hown (fun _ hop => hop) h) id (fun _ _ hf => hf.elim) fun spent t ht => ?_
    simpa using ht.1.scan ht.2.2
  | redeem op vBtc ops pts sig =>
    rw [LockFold.fold, wp_bind]
    refine wp_mono foldCbtcRedeem_spec id (fun _ _ ht => ⟨ht, by simp⟩) fun o t ht => ?_
    obtain ⟨hin, hget, rfl, rfl⟩ := ht
    have hleave := h.leave hK hown hin hget (Q := ⟨[], [], [outpointKey C.toKeccak op]⟩) rfl
      (fun o => by simp [LockReport.left, List.count_singleton])
    simpa using hleave

/-- The folds of one transaction, in any order. -/
theorem folds (hK : C.toKeccak.Ideal) (hown : ∀ op ∈ tx.inputs, op.1 ≠ tx.txid)
    (hsum : ∑ c ∈ coins ∪ tx.coins, c.2 < 2 ^ 64) {fs : List LockFold} {R' : LockReport} (hf : LockFolds C tx fs s t R')
    (h : Tracks C txs coins tx False s R) : Tracks C txs coins tx (LockFold.spends ∈ fs) t (R.append R') := by
  induction hf with
  | nil => simpa using h
  | other _ hb ih => exact (ih h).congr hb
  | ok _ hfold ih =>
    rw [← LockReport.append_assoc]
    have hu := wp_of_ok ((ih h).fold hK hown hsum _) hfold
    simpa [or_comm, eq_comm] using hu
  | err _ hfold ih =>
    obtain ⟨rfl, hne⟩ := wp_of_err ((ih h).fold hK hown hsum _) hfold
    simpa [hne.symm] using ih h

end Tracks

/-- What holds between transactions: the total is exact, every lock is an unspent coin of its value, and an outpoint
that entered once is in the registry or was reported once. -/
structure Backed (C : Crypto) (txs : List Tx) (coins : Finset (OutPoint × Nat)) (s : ScanReflection) (R : LockReport) : Prop where
  backing : (s.cbtcBackingSats.val : Int) = s.lockedSats
  held : ∀ k v, s.cbtcLocks.get k = some v → ∃ op, outpointKey C.toKeccak op = k ∧ (op, v.val) ∈ coins
  counts : ∀ o, R.left o + s.tracked o = R.entered o
  once : ∀ o, R.entered o ≤ 1
  named : ∀ o, 0 < R.entered o → ∃ t ∈ txs, ∃ vout, o = outpointKey C.toKeccak (t.txid, vout)

section Run

variable {C : Crypto} {txs : List Tx} {coins : Finset (OutPoint × Nat)} {tx : Tx} {s t : ScanReflection} {R : LockReport}

theorem Backed.begin (hK : C.toKeccak.Ideal) (h : Backed C txs coins s R) (hfresh : ∀ t ∈ txs, t.txid ≠ tx.txid) :
    Tracks C txs coins tx False s R := by
  constructor
  · exact h.backing
  · intro k v hk
    obtain ⟨op, hop, hc⟩ := h.held k v hk
    exact ⟨op, hop, Or.inr ⟨hc, False.elim⟩⟩
  · exact h.counts
  · exact h.once
  · intro o ho
    obtain ⟨t, ht, hv⟩ := h.named o ho
    exact ⟨t, by simp [ht], hv⟩
  · intro vout
    by_contra hne
    have hc := h.counts (outpointKey C.toKeccak (tx.txid, vout))
    obtain ⟨t, ht, w, heq⟩ := h.named (outpointKey C.toKeccak (tx.txid, vout)) (by omega)
    exact hfresh t ht (congrArg Prod.fst (outpointKey_inj hK heq)).symm

theorem Tracks.finish (h : Tracks C txs coins tx True s R) :
    Backed C (tx :: txs) ((coins.filter fun c => c.1 ∉ tx.inputs) ∪ tx.coins) s R := by
  refine ⟨h.backing, ?_, h.counts, h.once, h.named⟩
  intro k v hk
  obtain ⟨op, hop, hc⟩ := h.held k v hk
  refine ⟨op, hop, ?_⟩
  rcases hc with hc | ⟨hc, hin⟩
  · simp [hc]
  · simp [hc, hin trivial]

theorem backed_genesis : Backed C [] coins (.genesis C.toKeccak) .empty := by
  constructor
  · rfl
  · intro k v hk
    cases hk
  · intro o
    rfl
  · intro o
    exact Nat.zero_le _
  · intro o ho
    cases ho

theorem LockRun.backed (hK : C.toKeccak.Ideal) {calls : List (Tx × List LockFold)} (hrun : LockRun C calls s R) :
    ∀ {coins : Finset (OutPoint × Nat)} {issued : Nat}, Confirmed (calls.map Prod.fst) coins issued →
      (∀ c ∈ calls, LockFold.spends ∈ c.2) → Backed C (calls.map Prod.fst) coins s R := by
  induction hrun with
  | genesis =>
    intro coins issued _ _
    exact backed_genesis
  | @tx calls tx fs s t R R' _ hfolds ih =>
    intro coins issued hchain hscan
    cases hchain with
    | @tx _ coins issued reward _ hchain hfresh hown hout hm =>
      have hsum := hchain.sum_lt ⟨reward, hout, hm⟩
      have hs := (ih hchain fun c hc => hscan c (by simp [hc])).begin hK hfresh
      have ht := hs.folds hK hown hsum hfolds
      have hspends : LockFold.spends ∈ fs := hscan (tx, fs) (by simp)
      rw [eq_true hspends] at ht
      exact ht.finish

end Run

/-- **The running total is exact and every lock leaves once.** Let the guest fold the transactions of a chain that
follows Bitcoin's rules, scanning the inputs of each, with any registrations and redemptions and in any order of the
folds of a transaction. Then the running total is the sum of the locks in the registry (so that no addition and no
subtraction on the way saturated), an outpoint is tracked at most once, and of one that was tracked exactly one of
three is the case: it is in the registry, it was reported as spent, or it was reported as redeemed. -/
theorem cbtc_backing_exact {C : Crypto} (hK : C.toKeccak.Ideal) {calls : List (Tx × List LockFold)}
    {coins : Finset (OutPoint × Nat)} {issued : Nat} {s : ScanReflection} {R : LockReport}
    (hchain : Confirmed (calls.map Prod.fst) coins issued) (hscan : ∀ c ∈ calls, LockFold.spends ∈ c.2)
    (hrun : LockRun C calls s R) :
    (s.cbtcBackingSats.val : Int) = s.cbtcLocks.total (fun _ v => v.val) ∧
    ∀ o, (R.folded.map CbtcLockFold.outpoint).count o ≤ 1 ∧
      (if (s.cbtcLocks.get o).isSome then 1 else 0) + R.spent.count o + R.redeemed.count o =
        (R.folded.map CbtcLockFold.outpoint).count o := by
  have h := hrun.backed hK hchain hscan
  refine ⟨h.backing, fun o => ⟨h.once o, ?_⟩⟩
  have hc := h.counts o
  simp only [LockReport.left, LockReport.entered, ScanReflection.tracked] at hc
  omega

section Demo

variable {K : Keccak} {s : ScanReflection} {txid : Word} {v : U 64}

/-- A transaction with a lock of `v` sats at output 1. -/
def lockTx (txid : Word) (v : U 64) : Tx where
  txid := txid
  inputs := []
  witness := []
  outputs := [(0, []), (v, [])]
  envelope := some (.cbtcLock cbtcZkAssetId 1 secpG.x secpG.y)

/-- A transaction that spends that lock. -/
def unlockTx (txid : Word) : Tx where
  txid := cbtcZkAssetId
  inputs := [(txid, 1)]
  witness := [[]]
  outputs := []
  envelope := none

def lockFold : LockFold := .lock cbtcZkAssetId secpG.x secpG.y 1

def lockReport (K : Keccak) (txid : Word) (v : U 64) : LockReport :=
  ⟨[⟨outpointKey K (txid, 1), v, commitmentHash K secpG.x secpG.y⟩], [], []⟩

theorem lockFold_ok (hv : v ≠ 0) (hget : s.cbtcLocks.get (outpointKey K (txid, 1)) = none) :
    lockFold.fold (curveCrypto K) (lockTx txid v) s = .ok (lockReport K txid v) (s.enter (outpointKey K (txid, 1)) v) := by
  have hpt : (curveCrypto K).fromAffineXy secpG.x secpG.y = some secpG := by
    have h : secpOnCurve secpG.x secpG.y = true := by decide +kernel
    simp [Crypto.fromAffineXy, curveCrypto, h]
  have hkey : (curveCrypto K).toKeccak = K := rfl
  have hout : (lockTx txid v).outputs[(1 : U 32).val]? = some (v, []) := rfl
  simp only [lockFold, LockFold.fold, foldCbtcLock, bind_eq_ok, check_eq_ok, orThrow_eq_ok, get_eq_ok, modify_eq_ok,
    pure_eq_ok, hpt, hkey, hout]
  exact ⟨_, _, ⟨(), s, ⟨by simp, rfl⟩, (), s, ⟨by simp, rfl⟩, _, s, ⟨rfl, rfl⟩, (), s, ⟨hv, rfl⟩, (), s, ⟨by decide, rfl⟩,
    s, s, ⟨rfl, rfl⟩, (), s, ⟨by simp [lockTx, hget], rfl⟩, (), _, rfl, rfl, rfl⟩, rfl, rfl⟩

theorem unlockFold_ok (hget : s.cbtcLocks.get (outpointKey K (txid, 1)) = some v) :
    LockFold.spends.fold (curveCrypto K) (unlockTx txid) s =
      .ok ⟨[], [outpointKey K (txid, 1)], []⟩ (s.leave (outpointKey K (txid, 1)) v) := by
  have hspend : foldCbtcLockSpends (curveCrypto K) [(txid, 1)] s =
      .ok [outpointKey K (txid, 1)] (s.leave (outpointKey K (txid, 1)) v) := by
    have hkey : (curveCrypto K).toKeccak = K := rfl
    simp only [foldCbtcLockSpends, bind_eq_ok, get_eq_ok, hkey]
    refine ⟨s, s, ⟨rfl, rfl⟩, ?_⟩
    rw [hget]
    rfl
  exact bind_eq_ok.2 ⟨_, _, hspend, rfl⟩

variable {calls : List (Tx × List LockFold)} {R : LockReport}

theorem LockRun.lock (h : LockRun (curveCrypto K) calls s R) (hv : v ≠ 0)
    (hget : s.cbtcLocks.get (outpointKey K (txid, 1)) = none) :
    LockRun (curveCrypto K) ((lockTx txid v, [lockFold]) :: calls) (s.enter (outpointKey K (txid, 1)) v)
      (R.append (lockReport K txid v)) := by
  have hf := LockFolds.nil.ok (lockFold_ok hv hget)
  rw [LockReport.empty_append] at hf
  exact h.tx hf

theorem LockRun.unlock (h : LockRun (curveCrypto K) calls s R)
    (hget : s.cbtcLocks.get (outpointKey K (txid, 1)) = some v) :
    LockRun (curveCrypto K) ((unlockTx txid, [.spends]) :: calls) (s.leave (outpointKey K (txid, 1)) v)
      (R.append ⟨[], [outpointKey K (txid, 1)], []⟩) := by
  have hf := LockFolds.nil.ok (unlockFold_ok hget)
  rw [LockReport.empty_append] at hf
  exact h.tx hf

theorem get_enter (s : ScanReflection) (k : Word) (v : U 64) : (s.enter k v).cbtcLocks.get k = some v := by
  simp [ScanReflection.enter]

theorem get_leave (s : ScanReflection) (k : Word) (v : U 64) : (s.leave k v).cbtcLocks.get k = none := by
  simp [ScanReflection.leave]

/-- Two locks of 2⁶³ sats. -/
theorem exists_saturated_run (hK : K.Ideal) : ∃ calls s R, LockRun (curveCrypto K) calls s R ∧
    (s.cbtcBackingSats.val : Int) ≠ s.cbtcLocks.total fun _ v => v.val := by
  obtain ⟨v, hv⟩ : ∃ v : U 64, v.val = 2 ^ 63 := ⟨⟨2 ^ 63, by decide⟩, rfl⟩
  have hv0 : v ≠ 0 := by
    rintro rfl
    cases hv
  have hne : outpointKey K (0, 1) ≠ outpointKey K (cbtcZkAssetId, 1) := by
    intro h
    exact absurd (congrArg Prod.fst (outpointKey_inj hK h)) (by decide)
  have hget : ((ScanReflection.genesis K).enter (outpointKey K (0, 1)) v).cbtcLocks.get (outpointKey K (cbtcZkAssetId, 1)) =
      none := by
    simp [ScanReflection.enter, ScanReflection.genesis, hne]
  have hrun : LockRun (curveCrypto K) [] (.genesis K) .empty := .genesis
  refine ⟨_, _, _, (hrun.lock hv0 rfl).lock hv0 hget, ?_⟩
  have h₁ := lockedSats_enter (s := .genesis K) (k := outpointKey K (0, 1)) (v := v) rfl
  have h₂ := lockedSats_enter (v := v) hget
  have h₀ : (ScanReflection.genesis K).lockedSats = 0 := rfl
  have hlt := (((ScanReflection.genesis K).enter (outpointKey K (0, 1)) v).enter (outpointKey K (cbtcZkAssetId, 1))
    v).cbtcBackingSats.isLt
  show _ ≠ ScanReflection.lockedSats _
  omega

/-- One transaction confirmed twice. -/
theorem exists_respent_run : ∃ calls s R o, LockRun (curveCrypto K) calls s R ∧ R.spent.count o = 2 := by
  have h₁ : LockRun (curveCrypto K) [(lockTx 0 5, [lockFold])] _ _ := LockRun.genesis.lock (by decide) rfl
  have h₂ : LockRun (curveCrypto K) [(lockTx 0 5, [lockFold]), (unlockTx 0, [.spends]), (lockTx 0 5, [lockFold])] _ _ :=
    (h₁.unlock (get_enter _ _ _)).lock (by decide) (get_leave _ _ _)
  refine ⟨_, _, _, outpointKey K (0, 1), h₂.unlock (get_enter _ _ _), ?_⟩
  simp [LockReport.append, LockReport.empty, lockReport]

end Demo

/-- The folds alone promise neither: two locks of 2⁶³ sats saturate the total, and a transaction folded twice is
tracked twice and spent twice. -/
theorem cbtc_backing_saturates :
    (∃ calls s R, LockRun (curveCrypto codeKeccak) calls s R ∧
      (s.cbtcBackingSats.val : Int) ≠ s.cbtcLocks.total fun _ v => v.val) ∧
    ∃ calls s R o, LockRun (curveCrypto codeKeccak) calls s R ∧ R.spent.count o = 2 :=
  ⟨exists_saturated_run codeKeccak_ideal, exists_respent_run⟩

/-- A lock of 5 sats, tracked in one block and spent in the next. -/
theorem cbtc_backing_exact_one_lock : ∃ calls coins issued s R, LockRun (curveCrypto codeKeccak) calls s R ∧
    Confirmed (calls.map Prod.fst) coins issued ∧ R.spent = [outpointKey codeKeccak (0, 1)] ∧
    (s.cbtcBackingSats.val : Int) = s.cbtcLocks.total (fun _ v => v.val) ∧ R.redeemed.count (outpointKey codeKeccak (0, 1)) = 0 := by
  have hnone : LockFold.spends.fold (curveCrypto codeKeccak) (lockTx 0 5) (.genesis codeKeccak) =
      .ok .empty (.genesis codeKeccak) := rfl
  have h₁ : LockFolds (curveCrypto codeKeccak) (lockTx 0 5) [lockFold, .spends] (.genesis codeKeccak) _ _ :=
    (LockFolds.nil.ok hnone).ok (lockFold_ok (by decide) rfl)
  have hrun := (LockRun.genesis.tx h₁).unlock (get_enter _ _ _)
  have hstart : Confirmed [] ∅ 0 := .start (by simp) (by decide)
  have hlock : Confirmed [lockTx 0 5] _ (0 + 5) := hstart.tx (by simp) (by simp [lockTx]) (by decide) (by decide)
  have hunlock : Confirmed [unlockTx 0, lockTx 0 5] _ (0 + 5 + 0) := hlock.tx (by decide) (by decide) (by simp [unlockTx]) (by decide)
  have hchain : Confirmed (List.map Prod.fst [(unlockTx 0, [LockFold.spends]), (lockTx 0 5, [lockFold, .spends])]) _ _ := hunlock
  have hmain := cbtc_backing_exact codeKeccak_ideal hchain (by simp) hrun
  refine ⟨_, _, _, _, _, hrun, hchain, ?_, hmain.1, ?_⟩
  · simp [LockReport.append, LockReport.empty, lockReport]
  · simp [LockReport.append, LockReport.empty, lockReport]

/-! ## The guest -/

section Guest

variable {G : BatchCrypto} {B : Chain} {ctx : ScanCtx} {tx : Tx} {w : TxWitness} {s t u : ScanReflection}

/-- A fold whose result the guest drops. -/
theorem LockFolds.swallow {α : Type} {m : Fold α} {g : α → LockReport} {f : LockFold} {fs : List LockFold} {R : LockReport}
    (h : LockFolds G.toCrypto tx fs s t R) (hf : f.fold G.toCrypto tx = m >>= fun a => pure (g a)) {x : Unit}
    (hm : Tacit.swallow m t = .ok x u) : ∃ R', LockFolds G.toCrypto tx (f :: fs) s u R' := by
  simp only [Tacit.swallow, bind_eq_ok, attempt_eq_ok, pure_eq_ok] at hm
  obtain ⟨_, _, ⟨e, -, he⟩ | ⟨a, -, ha⟩, -, rfl⟩ := hm
  · refine ⟨R, h.err (e := e) ?_⟩
    rw [hf]
    show m.bind _ t = _
    rw [Prog.bind, he]
  · have hok : f.fold G.toCrypto tx t = .ok (g a) u := by
      rw [hf]
      exact bind_eq_ok.2 ⟨a, _, ha, rfl⟩
    exact ⟨_, h.ok hok⟩

theorem scanCbtcRedeem_lockFolds {spends : List DetectedSpend} {x : Unit} (h : scanCbtcRedeem G tx spends t = .ok x u)
    {R : LockReport} (hs : LockFolds G.toCrypto tx [] s t R) : ∃ fs R', LockFolds G.toCrypto tx fs s u R' := by
  have hcases : scanCbtcRedeem G tx spends = pure () ∨ ∃ op v ops pts sig,
      scanCbtcRedeem G tx spends = Tacit.swallow (foldCbtcRedeem G.toCrypto op v tx.inputs ops pts sig) := by
    unfold scanCbtcRedeem
    split
    · exact Or.inr ⟨_, _, _, _, _, rfl⟩
    · exact Or.inl rfl
  rcases hcases with hc | ⟨op, v, ops, pts, sig, hc⟩
  · rw [hc] at h
    obtain ⟨-, rfl⟩ := pure_eq_ok.1 h
    exact ⟨[], R, hs⟩
  · rw [hc] at h
    exact ⟨_, hs.swallow (f := .redeem op v ops pts sig) rfl h⟩

theorem scanEnvelope_lockFolds {spends : List DetectedSpend} {x : Unit} (h : scanEnvelope G B ctx tx w spends t = .ok x u)
    {fs : List LockFold} {R : LockReport} (hs : LockFolds G.toCrypto tx fs s t R) :
    ∃ fs' R', (∀ f ∈ fs, f ∈ fs') ∧ LockFolds G.toCrypto tx fs' s u R' := by
  by_cases hlock : ∃ asset vout cx cy, tx.envelope = some (.cbtcLock asset vout cx cy)
  · obtain ⟨asset, vout, cx, cy, he⟩ := hlock
    rw [scanEnvelope, he] at h
    obtain ⟨R', hR'⟩ := hs.swallow (f := .lock asset cx cy vout) rfl h
    exact ⟨_, R', fun f hf => by simp [hf], hR'⟩
  · have hsame : u.lockBook = t.lockBook := by
      refine (Within.of_ok updates_scanEnvelope h).keeps (I := fun v => v.lockBook = t.lockBook) ?_ rfl
      intro v v' hv hb
      cases hv with
      | locks _ _ he => exact absurd ⟨_, _, _, _, he⟩ hlock
      | _ => exact hb
    exact ⟨fs, R, fun _ hf => hf, hs.other hsame⟩

/-- **Whatever the envelope and the witnesses, the guest's pass over a transaction makes folds of the registry, the
scan of its inputs among them.** -/
theorem scanTx_lockFolds {x : Unit} (h : scanTx G B ctx tx w s = .ok x t) :
    ∃ fs R, LockFold.spends ∈ fs ∧ LockFolds G.toCrypto tx fs s t R := by
  simp only [scanTx, scanVin, bind_eq_ok, expect_eq_ok, pure_eq_ok] at h
  obtain ⟨spends, s₄, ⟨_, s₁, hscan, _, s₂, hredeem, gone, s₃, hlocks, _, _, hspents, rfl, rfl⟩, henv⟩ := h
  have h₁ : s₁.lockBook = s.lockBook := Within.of_ok (fixes_scanTxSpends (fun _ _ => rfl) _ _ _) hscan
  obtain ⟨fs, R, h₂⟩ := scanCbtcRedeem_lockFolds hredeem (LockFolds.nil.other h₁)
  have h₃ : LockFolds G.toCrypto tx (.spends :: fs) s s₃ _ := h₂.ok (bind_eq_ok.2 ⟨gone, s₃, hlocks, rfl⟩)
  have h₄ : s₄.lockBook = s₃.lockBook := Within.of_ok (fixes_scanSpents (fun _ _ _ => rfl) _ _) hspents
  obtain ⟨fs', R', hsub, h₅⟩ := scanEnvelope_lockFolds henv (h₃.other h₄)
  exact ⟨fs', R', hsub _ (by simp), h₅⟩

end Guest

end Tacit
