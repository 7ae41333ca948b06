import Mathlib.Logic.Relation
import Tacit.Reflection.Scan
import Tacit.Reflection.Sets
/-!
# What a transaction can do to the state

`Update` is one change a fold can make: a note that becomes a leaf and a live outpoint of the transaction, some
other leaf, an insert into one of the sets, or a move of the clear-text maps; only a lock envelope moves the lock
registry and only a cross-out mint the consumed claims. Whatever the envelope, the witnesses
and the outcome, what follows the vin scan is a sequence of updates (`updates_scanEnvelope`), so an invariant of
the scan is one that every update keeps.
-/
namespace Tacit

open Prog

/-- A point the guest has seen as one: decompressed, or checked to be on the curve. -/
def Crypto.Knows (C : Crypto) (p : Point) : Prop := (∃ c, C.decompress c = some p) ∨ C.fromAffineXy p.x p.y = some p

/-- The leaves of the note tree that are no notes of the Bitcoin lane: farm receipts and burn-deposits. -/
inductive SideLeaf (K : Keccak) : Word → Prop
  | receipt (farm asset : Word) (shares : U 64) (owner nonce : Word) : SideLeaf K (farmReceiptLeaf K farm asset shares owner nonce)
  | deposit (asset cx cy owner : Word) : SideLeaf K (leaf K asset cx cy owner)

/-- An output of the transaction `txid`. -/
def Owns (K : Keccak) (txid outpoint : Word) : Prop := ∃ vout : U 32, outpoint = outpointKey K (txid, vout)

/-- One change a fold can make while the guest of the deployment `binding` scans the transaction `tx`. -/
inductive Update (C : Crypto) (tx : Tx) (binding : Word) : ScanReflection → ScanReflection → Prop
  | note {s : ScanReflection} {p : Point} {n : LiveNote} {outpoint r : Word} {path : List Word} :
      C.Knows p → n.commitmentHash = commitmentHash C.toKeccak p.x p.y → Owns C.toKeccak tx.txid outpoint →
      keccakTreeAppendTransition C.toKeccak s.poolRoot s.noteCount path (n.leaf C.toKeccak p.x p.y binding) = some r →
      s.live.get outpoint = none → Update C tx binding s (s.withNote r outpoint n)
  | side {s : ScanReflection} {x r : Word} {path : List Word} : SideLeaf C.toKeccak x →
      keccakTreeAppendTransition C.toKeccak s.poolRoot s.noteCount path x = some r →
      Update C tx binding s { s with poolRoot := r, noteCount := s.noteCount + 1 }
  | spent {s : ScanReflection} {nu r : Word} {w : SpentInsert} : w.Accepted C.toKeccak s.spentRoot s.spentCount nu r →
      Update C tx binding s { s with spentRoot := r, spentCount := s.spentCount + 1 }
  | burn {s : ScanReflection} {key value r : Word} {w : BurnInsert} :
      w.Accepted C.toKeccak s.burnRoot s.burnCount key value r →
      Update C tx binding s { s with burnRoot := r, burnCount := s.burnCount + 1 }
  | pending {s : ScanReflection} {key value r : Word} {w : BurnInsert} :
      w.Accepted C.toKeccak s.pendingDepositRoot s.pendingDepositCount key value r →
      Update C tx binding s { s with pendingDepositRoot := r, pendingDepositCount := s.pendingDepositCount + 1 }
  | crossout {s : ScanReflection} {asset key cx cy r : Word} {w : SpentInsert} :
      tx.envelope = some (.crossoutMint asset key cx cy) →
      w.Accepted C.toKeccak s.consumedCrossoutRoot s.consumedCrossoutCount key r →
      Update C tx binding s { s with
        consumedCrossoutRoot := r, consumedCrossoutCount := s.consumedCrossoutCount + 1,
        foldedCrossoutCount := s.foldedCrossoutCount + 1 }
  | honored {s : ScanReflection} {key r : Word} {w : SpentInsert} :
      w.Accepted C.toKeccak s.honoredMsgRoot s.honoredMsgCount key r →
      Update C tx binding s { s with honoredMsgRoot := r, honoredMsgCount := s.honoredMsgCount + 1 }
  | locks {s : ScanReflection} {asset cx cy : Word} {vout : U 32} (locks : SortedMap Word (U 64)) (sats : U 64) :
      tx.envelope = some (.cbtcLock asset vout cx cy) →
      Update C tx binding s { s with cbtcLocks := locks, cbtcBackingSats := sats }
  | maps {s : ScanReflection} (pools : SortedMap Word PoolReserveState) (farms : SortedMap Word FarmRewardState)
      (entries : SortedMap Word (U 128)) :
      Update C tx binding s { s with pools := pools, farmRewards := farms, farmEntries := entries }

/-- Any number of updates. -/
def Updates (C : Crypto) (tx : Tx) (binding : Word) : ScanReflection → ScanReflection → Prop :=
  Relation.ReflTransGen (Update C tx binding)

instance (C : Crypto) (tx : Tx) (binding : Word) : IsPreorder ScanReflection (Updates C tx binding) where
  refl _ := .refl
  trans _ _ _ h h' := Relation.ReflTransGen.trans h h'

/-- What every update keeps, any number of updates keeps. -/
theorem Updates.keeps {C : Crypto} {tx : Tx} {binding : Word} {I : ScanReflection → Prop}
    (hI : ∀ s t, Update C tx binding s t → I s → I t) {s t : ScanReflection} (h : Updates C tx binding s t) (hs : I s) :
    I t := by
  induction h with
  | refl => exact hs
  | tail _ hu ih => exact hI _ _ hu ih

section Folds

variable {C : Crypto} {tx : Tx} {binding : Word} {ε : Type} {s t : ScanReflection}

/-- A move of the clear-text maps. -/
theorem updates_modify {f : ScanReflection → ScanReflection}
    (h : ∀ s, ∃ pools farms entries, f s = { s with pools := pools, farmRewards := farms, farmEntries := entries }) :
    Within (Updates C tx binding) (modify f : Prog ScanReflection ε Unit) := by
  refine Within.modify fun s => ?_
  obtain ⟨pools, farms, entries, h⟩ := h s
  rw [h]
  exact .single (.maps pools farms entries)

theorem updates_setPool {pid : Word} {p : PoolReserveState} : Within (Updates C tx binding) (setPool pid p) := by
  refine Within.get.bind fun _ => Within.orPanic.bind fun _ => updates_modify fun _ => ⟨_, _, _, rfl⟩

theorem updates_insertPool {pid : Word} {p : PoolReserveState} : Within (Updates C tx binding) (insertPool pid p) := by
  refine Within.get.bind fun _ => Within.orPanic.bind fun _ => updates_modify fun _ => ⟨_, _, _, rfl⟩

theorem updates_setFarm {pid : Word} {p : FarmRewardState} : Within (Updates C tx binding) (setFarm pid p) := by
  refine Within.get.bind fun _ => Within.orPanic.bind fun _ => updates_modify fun _ => ⟨_, _, _, rfl⟩

/-- A leaf and its live outpoint. -/
theorem updates_note {p : Point} {n : LiveNote} {outpoint r : Word} {path : List Word} (hp : C.Knows p)
    (hn : n.commitmentHash = commitmentHash C.toKeccak p.x p.y) (ho : Owns C.toKeccak tx.txid outpoint)
    (hr : keccakTreeAppendTransition C.toKeccak s.poolRoot s.noteCount path (n.leaf C.toKeccak p.x p.y binding) = some r)
    (hl : s.live.get outpoint = none) : Updates C tx binding s (s.withNote r outpoint n) :=
  .single (.note hp hn ho hr hl)

theorem updates_onboardNote {asset : Word} {c : Bytes} {auth outpoint : Word} (ho : Owns C.toKeccak tx.txid outpoint)
    {path : List Word} {e e' : String} : Within (Updates C tx binding) (onboardNote C asset c auth outpoint path e e') := by
  intro s
  unfold onboardNote reflectedNoteLeaf commitmentHashCompressed foldOutput
  cases hc : C.decompress c with
  | none => simpa using refl_of (Updates C tx binding) s
  | some p =>
    simp only [Option.map_some, wp_bind, wp_orThrow, reduceCtorEq, false_imp_iff, Option.some.injEq, forall_eq', true_and,
      wp_expect, wp_iff_ok]
    rintro _ t ht
    obtain ⟨r, hr, hl, rfl⟩ := foldOutputTagged_eq_ok.1 ht
    exact updates_note (Or.inl ⟨c, hc⟩) rfl ho hr hl

theorem updates_sideLeaf {x : Word} (hx : SideLeaf C.toKeccak x) {path : List Word} :
    Within (Updates C tx binding) (expect (foldNoteAppend C.toKeccak x path) : Prog ScanReflection ε Unit) := by
  refine Within.expect_of_ok fun s _ t h => ?_
  obtain ⟨r, hr, rfl⟩ := foldNoteAppend_eq_ok.1 h
  exact .single (.side hx hr)

theorem updates_foldSpent {nu : Word} {w : SpentInsert} :
    Within (Updates C tx binding) (expect (foldSpent C.toKeccak nu w) : Prog ScanReflection ε Unit) := by
  refine Within.expect_of_ok fun s _ t h => ?_
  obtain ⟨r, hr, rfl⟩ := foldSpent_eq_ok.1 h
  exact .single (.spent hr)

/-! ## Transfers and swaps -/

theorem updates_foldOutputTagged {p : Point} (hp : C.Knows p) {n : LiveNote}
    (hn : n.commitmentHash = commitmentHash C.toKeccak p.x p.y) {outpoint : Word} (ho : Owns C.toKeccak tx.txid outpoint)
    {path : List Word} : Within (Updates C tx binding)
      (foldOutputTagged C.toKeccak n.bound (n.leaf C.toKeccak p.x p.y binding) path outpoint n.commitmentHash n.asset n.authKey) := by
  intro s
  simp only [foldOutputTagged, foldNoteAppend, liveInsert, wp_bind, wp_get, wp_orThrow, wp_modify, wp_orPanic,
    SortedMap.insert_eq_some, implies_true, true_and]
  refine ⟨fun _ => .refl, fun r hr live hl => ?_⟩
  obtain ⟨hl, rfl⟩ := hl
  exact updates_note hp hn ho hr hl

theorem owns_vout (vout : Nat) : Owns C.toKeccak tx.txid (outpointKey C.toKeccak (tx.txid, U.wrap 32 vout)) := ⟨_, rfl⟩

theorem updates_foldCxferTagged {target : Option Word} (ht : ∀ b, target = some b → b = binding) {what : String} {asset : Word}
    {ops : List OutPoint} {pts : List Point} {assets : List Word} {outputs : List Bytes} {paths : List (List Word)}
    {vouts : List Nat} {auths : List Word} {proof sig : Bytes} : Within (Updates C tx binding)
      (foldCxferTagged C target what asset ops pts assets tx.txid outputs paths vouts auths proof sig) := by
  unfold foldCxferTagged
  refine Within.check.bind fun _ => Within.check.bind fun _ => Within.check.bind fun _ => Within.check.bind fun _ => ?_
  refine Within.forEach fun x _ => ?_
  obtain ⟨c, path, vout, auth⟩ := x
  refine Within.orThrow_bind fun l hl => Within.orThrow_bind fun ch hch => ?_
  obtain ⟨p, hc, rfl⟩ := Option.map_eq_some_iff.1 hch
  have hp : C.Knows p := Or.inl ⟨c, hc⟩
  cases target with
  | none =>
    have hl : btcNoteLeaf C.toKeccak asset p.x p.y auth = l := by simpa [reflectedNoteLeaf, hc] using hl
    rw [← hl]
    exact updates_foldOutputTagged (n := ⟨_, asset, auth, false⟩) hp rfl (owns_vout vout)
  | some b =>
    obtain rfl := ht b rfl
    have hl : btcNoteLeafBound C.toKeccak asset p.x p.y auth b = l := by simpa [reflectedNoteLeafBound, hc] using hl
    rw [← hl]
    exact updates_foldOutputTagged (n := ⟨_, asset, auth, true⟩) hp rfl (owns_vout vout)

/-- Two notes whose leaves go before either outpoint are two notes, one after the other. -/
theorem updates_two {p q : Point} {n m : LiveNote} {op oq r r' : Word} {path path' : List Word} (hp : C.Knows p) (hq : C.Knows q)
    (hn : n.commitmentHash = commitmentHash C.toKeccak p.x p.y) (hm : m.commitmentHash = commitmentHash C.toKeccak q.x q.y)
    (hop : Owns C.toKeccak tx.txid op) (hoq : Owns C.toKeccak tx.txid oq)
    (hr : keccakTreeAppendTransition C.toKeccak s.poolRoot s.noteCount path (n.leaf C.toKeccak p.x p.y binding) = some r)
    (hr' : keccakTreeAppendTransition C.toKeccak r (s.noteCount + 1) path' (m.leaf C.toKeccak q.x q.y binding) = some r')
    (hl : s.live.get op = none) (hl' : (s.live.set op n).get oq = none) :
    Updates C tx binding s ((s.withNote r op n).withNote r' oq m) :=
  (updates_note hp hn hop hr hl).tail (.note hq hm hoq hr' hl')

theorem updates_onboardPair {a b : PairedNote} (ha : Owns C.toKeccak tx.txid a.outpoint) (hb : Owns C.toKeccak tx.txid b.outpoint)
    {pathA pathB : List Word} : Within (Updates C tx binding) (onboardPair C a b pathA pathB) := by
  unfold onboardPair
  refine Within.orThrow_bind fun la hla => Within.orThrow_bind fun ca hca => ?_
  refine Within.orThrow_bind fun lb hlb => Within.orThrow_bind fun cb hcb => ?_
  obtain ⟨p, hp, rfl⟩ := Option.map_eq_some_iff.1 hla
  obtain ⟨q, hq, rfl⟩ := Option.map_eq_some_iff.1 hlb
  have hca : commitmentHash C.toKeccak p.x p.y = ca := by simpa [commitmentHashCompressed, hp] using hca
  have hcb : commitmentHash C.toKeccak q.x q.y = cb := by simpa [commitmentHashCompressed, hq] using hcb
  intro s
  simp only [foldNoteAppend, liveInsert, wp_bind, wp_expect, wp_get, wp_orThrow, wp_orPanic, wp_modify,
    SortedMap.insert_eq_some, implies_true, true_and]
  rintro r hr r' hr' _ ⟨hl, rfl⟩ _ ⟨hl', rfl⟩
  rw [← hca, ← hcb]
  exact updates_two (n := ⟨_, a.asset, a.auth, false⟩) (m := ⟨_, b.asset, b.auth, false⟩) (Or.inl ⟨_, hp⟩) (Or.inl ⟨_, hq⟩)
    rfl rfl ha hb hr hr' hl (hca ▸ hl')

/-! ## Swaps -/

theorem updates_swapVarNotes {e : SwapVarEnvelope} {q : PoolSides} {p : Point} {receipt change : NoteDest}
    (hp : C.Knows p) (hr : Owns C.toKeccak tx.txid receipt.outpoint) (hc : Owns C.toKeccak tx.txid change.outpoint)
    {receiptPath changePath : List Word} : Within (Updates C tx binding) (do
      expect (foldNoteAppend C.toKeccak (btcNoteLeaf C.toKeccak q.assetOut p.x p.y receipt.auth) receiptPath)
      swapVarNotes C e q (commitmentHash C.toKeccak p.x p.y) receipt change changePath) := by
  intro s
  unfold swapVarNotes
  cases hd : C.decompress e.cChangeOrSentinel with
  | none =>
    simp only [reflectedNoteLeaf, hd, Option.map_none, foldNoteAppend, liveInsert, wp_bind, wp_expect, wp_get, wp_orThrow,
      wp_orPanic, wp_modify, SortedMap.insert_eq_some, implies_true, true_and]
    rintro r hr' _ ⟨hl, rfl⟩
    exact updates_note (n := ⟨_, q.assetOut, receipt.auth, false⟩) hp rfl hr hr' hl
  | some c =>
    simp only [reflectedNoteLeaf, commitmentHashCompressed, hd, Option.map_some, foldNoteAppend, liveInsert, wp_bind, wp_expect,
      wp_get, wp_orThrow, wp_orPanic, wp_modify, SortedMap.insert_eq_some, implies_true, true_and, reduceCtorEq, false_imp_iff,
      Option.some.injEq, forall_eq']
    rintro r hr' r' hr'' _ ⟨hl, rfl⟩ _ ⟨hl', rfl⟩
    exact updates_two (n := ⟨_, q.assetOut, receipt.auth, false⟩) (m := ⟨_, q.assetIn, change.auth, false⟩) hp (Or.inl ⟨_, hd⟩)
      rfl rfl hr hc hr' hr'' hl hl'

theorem updates_swapVarSettle {pool : PoolReserveState} {e : SwapVarEnvelope} {q : PoolSides} {out : U 64}
    {receipt change tip : NoteDest} (hr : Owns C.toKeccak tx.txid receipt.outpoint) (hc : Owns C.toKeccak tx.txid change.outpoint)
    (ht : Owns C.toKeccak tx.txid tip.outpoint) {receiptPath changePath tipPath : List Word} :
    Within (Updates C tx binding) (swapVarSettle C pool e q out receipt change tip receiptPath changePath tipPath) := by
  unfold swapVarSettle
  refine Within.orThrow.bind fun _ => Within.orPanic.bind fun _ => Within.check.bind fun _ => ?_
  refine Within.orThrow_bind fun l hl => Within.orThrow_bind fun ch hch => ?_
  obtain ⟨p, hp, rfl⟩ := Option.map_eq_some_iff.1 hl
  obtain rfl : commitmentHash C.toKeccak p.x p.y = ch := by simpa [commitmentHashCompressed, hp] using hch
  have hnotes : Within (Updates C tx binding) (do
      expect (foldNoteAppend C.toKeccak (btcNoteLeaf C.toKeccak q.assetOut p.x p.y receipt.auth) receiptPath)
      swapVarNotes C e q (commitmentHash C.toKeccak p.x p.y) receipt change changePath) :=
    updates_swapVarNotes (Or.inl ⟨_, hp⟩) hr hc
  have htip : Within (Updates C tx binding) (swapVarTip C e q tip tipPath) :=
    Within.ite (fun _ => updates_onboardNote ht) fun _ => Within.pure
  intro s
  have := (hnotes.bind fun _ => htip.bind fun _ => Within.pure (a := pool)) s
  simp only [wp_bind, wp_pure] at this ⊢
  exact this

theorem updates_foldSwapVar {pool : PoolReserveState} {e : SwapVarEnvelope} {input : OutPoint} {asset : Word}
    {receipt change refund tip : NoteDest} (hr : Owns C.toKeccak tx.txid receipt.outpoint)
    (hc : Owns C.toKeccak tx.txid change.outpoint) (hf : Owns C.toKeccak tx.txid refund.outpoint)
    (ht : Owns C.toKeccak tx.txid tip.outpoint) {receiptPath changePath tipPath : List Word} {height : U 64} :
    Within (Updates C tx binding)
      (foldSwapVar C pool e input asset receipt change refund tip receiptPath changePath tipPath height) := by
  have hrefund : Within (Updates C tx binding) (do
      onboardBtcRefund C asset e.cIn refund.auth refund.outpoint receiptPath
      pure pool) := (updates_onboardNote hf).bind fun _ => Within.pure
  unfold foldSwapVar
  refine Within.ofExcept.bind fun _ => Within.ite (fun _ => hrefund) fun _ => Within.ofExcept.bind fun x => ?_
  obtain ⟨q, out⟩ := x
  exact Within.ite (fun _ => hrefund) fun _ => updates_swapVarSettle hr hc ht

theorem updates_foldSwapRoute {e : SwapRouteEnvelope} {input : OutPoint} {asset : Word} {receipt refund : NoteDest}
    (hr : Owns C.toKeccak tx.txid receipt.outpoint) (hf : Owns C.toKeccak tx.txid refund.outpoint) {path : List Word} {height : U 64} :
    Within (Updates C tx binding) (foldSwapRoute C e input asset receipt refund path height) := by
  unfold foldSwapRoute
  refine Within.orThrow.bind fun _ => Within.orThrow.bind fun _ => Within.check.bind fun _ => Within.check.bind fun _ => ?_
  refine Within.check.bind fun _ => Within.check.bind fun _ => Within.ite (fun _ => updates_onboardNote hf) fun _ => ?_
  refine Within.get.bind fun _ => Within.ofExcept.bind fun _ => Within.ite (fun _ => updates_onboardNote hf) fun _ => ?_
  exact Within.check.bind fun _ => (updates_onboardNote hr).bind fun _ => Within.forEach fun _ _ => updates_setPool


/-! ## Liquidity -/

theorem updates_foldLpAdd {e : LpAddEnvelope} {pid : Word} {a b : LpSide} {backed : Bool} {height : U 64}
    (ha : Owns C.toKeccak tx.txid a.refundOutpoint) (hb : Owns C.toKeccak tx.txid b.refundOutpoint) {pathA pathB : List Word} :
    Within (Updates C tx binding) (foldLpAdd C e pid a b backed height pathA pathB) := by
  have hrefund : Within (Updates C tx binding) (lpRefund C a b pathA pathB) := updates_onboardPair ha hb
  unfold foldLpAdd
  refine Within.check.bind fun _ => Within.check.bind fun _ => Within.check.bind fun _ => Within.ite (fun _ => ?_) fun _ => ?_
  · refine Within.check.bind fun _ => Within.get.bind fun _ => Within.ite (fun _ => hrefund) fun _ => updates_insertPool
  · refine Within.ite (fun _ => ?_) fun _ => Within.throw
    refine Within.get.bind fun _ => Within.orThrow.bind fun _ => Within.check.bind fun _ => Within.check.bind fun _ => ?_
    refine Within.orPanic.bind fun _ => Within.orThrow.bind fun _ => Within.ite (fun _ => hrefund) fun _ => ?_
    exact Within.orThrow.bind fun _ => Within.orThrow.bind fun _ => Within.orThrow.bind fun _ => updates_setPool

theorem updates_foldLpShareMint {pid : Word} {shares : U 64} {c : Bytes} {r outpoint auth : Word} {path : List Word}
    (ho : Owns C.toKeccak tx.txid outpoint) :
    Within (Updates C tx binding) (foldLpShareMint C pid shares c r path outpoint auth) := by
  unfold foldLpShareMint
  refine Within.check.bind fun _ => Within.orThrow.bind fun _ => Within.check.bind fun _ => ?_
  refine Within.orThrow_bind fun l hl => Within.orThrow_bind fun ch hch => ?_
  obtain ⟨p, hp, rfl⟩ := Option.map_eq_some_iff.1 hl
  obtain rfl : commitmentHash C.toKeccak p.x p.y = ch := by simpa [commitmentHashCompressed, hp] using hch
  exact updates_foldOutputTagged (n := ⟨_, ammDeriveLpAssetId C pid, auth, false⟩) (Or.inl ⟨c, hp⟩) rfl ho

theorem updates_foldLpRemove {pid : Word} {shares dA dB : U 64} {rA rB : Bytes} {bA bB : Word} {ops : List OutPoint}
    {pts : List Point} {sig : Bytes} {recvA recvB refund : NoteDest} (ha : Owns C.toKeccak tx.txid recvA.outpoint)
    (hb : Owns C.toKeccak tx.txid recvB.outpoint) (hf : Owns C.toKeccak tx.txid refund.outpoint) {pathA pathB path : List Word} :
    Within (Updates C tx binding)
      (foldLpRemove C pid shares dA dB rA bA rB bB ops pts sig recvA recvB refund pathA pathB path) := by
  unfold foldLpRemove
  refine Within.get.bind fun _ => Within.orThrow.bind fun _ => Within.check.bind fun _ => Within.check.bind fun _ => ?_
  refine Within.orPanic.bind fun _ => Within.check.bind fun _ => Within.check.bind fun _ => Within.check.bind fun _ => ?_
  exact Within.ite (fun _ => updates_onboardNote hf) fun _ => (updates_onboardPair ha hb).bind fun _ => updates_setPool

theorem updates_foldProtocolFeeClaim {e : ProtocolFeeClaimEnvelope} {claim : NoteDest}
    (hc : Owns C.toKeccak tx.txid claim.outpoint) {path : List Word} :
    Within (Updates C tx binding) (foldProtocolFeeClaim C e claim path) := by
  unfold foldProtocolFeeClaim
  refine Within.get.bind fun _ => Within.orThrow.bind fun _ => Within.check.bind fun _ => Within.check.bind fun _ => ?_
  refine Within.check.bind fun _ => Within.check.bind fun _ => Within.orPanic.bind fun _ => Within.check.bind fun _ => ?_
  refine Within.orThrow.bind fun _ => Within.check.bind fun _ => Within.orThrow.bind fun _ => ?_
  exact (updates_onboardNote hc).bind fun _ => updates_setPool

/-! ## Farms -/

theorem updates_onboardAmmRefundNote {asset : Word} {v : U 64} {b auth outpoint : Word} {path : List Word}
    (ho : Owns C.toKeccak tx.txid outpoint) :
    Within (Updates C tx binding) (onboardAmmRefundNote C asset v b auth outpoint path) :=
  Within.check.bind fun _ => updates_onboardNote ho

theorem updates_foldFarmInit {e : FarmInitEnvelope} {farmId : Word} {input : OutPoint} {c : Bytes} {backed : Bool}
    {outpoint : Word} (ho : Owns C.toKeccak tx.txid outpoint) {path : List Word} :
    Within (Updates C tx binding) (foldFarmInit C e farmId input c backed outpoint path) := by
  unfold foldFarmInit
  refine Within.check.bind fun _ => Within.check.bind fun _ => Within.check.bind fun _ => Within.get.bind fun _ => ?_
  refine Within.ite (fun _ => ?_) fun _ => updates_insertPool.bind fun _ => Within.pure
  exact (updates_onboardAmmRefundNote ho).bind fun _ => Within.pure

theorem updates_foldHarvest {farmId : Word} {v : U 64} {r outpoint : Word} (ho : Owns C.toKeccak tx.txid outpoint)
    {path : List Word} {spk : Bytes} : Within (Updates C tx binding) (foldHarvest C farmId v r outpoint path spk) := by
  unfold foldHarvest
  refine Within.get.bind fun _ => Within.orThrow.bind fun _ => Within.check.bind fun _ => Within.check.bind fun _ => ?_
  exact Within.orThrow.bind fun _ => (updates_onboardNote ho).bind fun _ => updates_setPool

theorem updates_foldFarmInitRewards {farmId : Word} {rate : U 64} {key : Bytes} {pid : Word} {start stop total : U 64} :
    Within (Updates C tx binding) (foldFarmInitRewards C farmId rate key pid start stop total) := by
  unfold foldFarmInitRewards
  refine Within.get.bind fun _ => Within.check.bind fun _ => Within.check.bind fun _ => Within.check.bind fun _ => ?_
  refine Within.check.bind fun _ => Within.check.bind fun _ => Within.orThrow.bind fun _ => Within.check.bind fun _ => ?_
  exact Within.check.bind fun _ => Within.orPanic.bind fun _ => updates_modify fun _ => ⟨_, _, _, rfl⟩

theorem updates_foldFarmRefund {e : FarmRefundEnvelope} {outpoint : Word} (ho : Owns C.toKeccak tx.txid outpoint)
    {path : List Word} {spk : Bytes} : Within (Updates C tx binding) (foldFarmRefund C e outpoint path spk) := by
  unfold foldFarmRefund
  refine Within.get.bind fun _ => Within.orThrow.bind fun _ => Within.check.bind fun _ => Within.check.bind fun _ => ?_
  exact Within.check.bind fun _ => updates_foldHarvest ho

theorem updates_foldLpBond {farmId : Word} {shares : U 64} {owner nonce : Word} {path : List Word} {b auth outpoint : Word}
    (ho : Owns C.toKeccak tx.txid outpoint) :
    Within (Updates C tx binding) (foldLpBond C farmId shares owner nonce path b auth outpoint) := by
  unfold foldLpBond
  refine Within.get.bind fun s => Within.orThrow.bind fun st => Within.check.bind fun _ => ?_
  cases st.bond shares s.height with
  | none => exact (updates_onboardAmmRefundNote ho).bind fun _ => Within.pure
  | some x =>
    obtain ⟨st', entry⟩ := x
    refine Within.ite (fun _ => (updates_onboardAmmRefundNote ho).bind fun _ => Within.pure) fun _ => ?_
    refine (updates_sideLeaf (.receipt ..)).bind fun _ => ?_
    exact (updates_modify fun _ => ⟨_, _, _, rfl⟩).bind fun _ => updates_setFarm.bind fun _ => Within.pure

theorem updates_foldLpHarvest {e : LpHarvestEnvelope} {i : Nat} {path : List Word} {spk : Bytes} :
    Within (Updates C tx binding) (foldLpHarvest C e i path spk) := by
  unfold foldLpHarvest
  refine Within.get.bind fun _ => Within.orThrow.bind fun _ => Within.orThrow.bind fun _ => Within.orThrow.bind fun x => ?_
  obtain ⟨st, stamp⟩ := x
  refine Within.check.bind fun _ => Within.check.bind fun _ => ?_
  exact (updates_modify fun _ => ⟨_, _, _, rfl⟩).bind fun _ => updates_setFarm

theorem updates_foldLpUnbond {e : LpUnbondEnvelope} {i : Nat} {path : List Word} {w : SpentInsert} {outpoint : Word}
    (ho : Owns C.toKeccak tx.txid outpoint) {path' : List Word} {spk : Bytes} :
    Within (Updates C tx binding) (foldLpUnbond C e i path w outpoint path' spk) := by
  -- the spent root is computed first and written last; the note in between leaves the spent set alone
  have hnote : ∀ asset c auth e e' s, wp True (onboardNote C asset c auth outpoint path' e e') s
      (fun _ t => Updates C tx binding s t) (fun _ t => Updates C tx binding s t ∧ t.spentSet = s.spentSet) := by
    intro asset c auth e e' s
    refine wp_and (updates_onboardNote ho s) ?_
    rw [wp_iff_ok]
    intro _ t h
    obtain ⟨_, _, -, -, -, rfl⟩ := onboardNote_eq_ok.1 h
    rfl
  intro s
  unfold foldLpUnbond receiptSpendRoot
  simp only [wp_bind, wp_get, wp_orThrow, wp_check]
  refine ⟨fun _ => .refl, fun st hst => ⟨fun _ => .refl, fun rps hrps => ⟨fun _ => .refl, fun _ => ⟨fun _ => .refl, fun _ =>
    ⟨fun _ => .refl, fun r hr => ⟨fun _ => .refl, fun _ => ⟨fun _ => .refl, fun auth _ => ?_⟩⟩⟩⟩⟩⟩⟩
  refine wp_mono (hnote _ _ _ _ _ s) id (fun _ _ h => h) fun _ t ht => ?_
  obtain ⟨ht, hsp⟩ := ht
  refine ⟨fun _ => ht, fun st' _ => ?_⟩
  generalize farmReceiptLeaf C.toKeccak e.farmId st.lpAsset e.shares e.ownerCommit e.nonce = x at hr ⊢
  have hr' : w.Accepted C.toKeccak t.spentRoot t.spentCount (farmReceiptNullifier C.toKeccak x) r := by
    rw [show t.spentRoot = s.spentRoot from congrArg Prod.fst hsp, show t.spentCount = s.spentCount from congrArg Prod.snd hsp]
    exact hr
  have hmod := (ht.tail (.spent hr')).tail
    (.maps t.pools t.farmRewards (t.farmEntries.erase x))
  rw [wp_modify]
  exact wp_mono (updates_setFarm _) id (fun _ _ h => hmod.trans h) fun _ _ h => hmod.trans h

/-! ## Cross-lane folds -/

theorem updates_foldCrossout {asset claimId cx cy root outpoint auth : Word}
    (he : tx.envelope = some (.crossoutMint asset claimId cx cy)) (ho : Owns C.toKeccak tx.txid outpoint) {w : CrossoutWitness} : Within (Updates C tx binding) (foldCrossout C asset claimId cx cy root outpoint auth w) := by
  have hmint : ∀ {b : Bool} {p : Point}, C.fromAffineXy cx cy = some p → Within (Updates C tx binding)
      (if b then (pure () : Fold Unit) else mintCrossout C asset claimId cx cy outpoint auth w) := by
    intro b p hp
    have hxy : p = ⟨cx, cy⟩ := by
      unfold Crypto.fromAffineXy at hp
      split at hp
      · cases hp; rfl
      · cases hp
    subst hxy
    refine Within.ite (fun _ => Within.pure) fun _ s => ?_
    refine wp_mono wp_mintCrossout id (fun _ _ h => h.elim) fun _ t ht => ?_
    rcases ht with ⟨-, -, rfl⟩ | ⟨r, q, hr, hq, hl, rfl⟩
    · exact .refl
    · have hn : Updates C tx binding s _ := updates_note (p := ⟨cx, cy⟩)
        (n := ⟨commitmentHash C.toKeccak cx cy, asset, auth, false⟩) (Or.inr hp) rfl ho hq hl
      exact hn.tail (.crossout he hr)
  unfold foldCrossout
  cases hp : C.fromAffineXy cx cy with
  | none =>
    intro s
    simp only [Option.isNone_none, wp_bind, wp_check, not_true_eq_false, false_imp_iff, and_true]
    exact fun _ => .refl
  | some p =>
    exact Within.check.bind fun _ => Within.check.bind fun _ => Within.check.bind fun _ => Within.orPanic.bind fun _ => hmint hp

theorem updates_foldEthMessage {msgId record root : Word} {w : EthMsgWitness} :
    Within (Updates C tx binding) (foldEthMessage C msgId record root w) := by
  unfold foldEthMessage
  refine Within.check.bind fun _ => Within.check.bind fun _ s => ?_
  simp only [wp_bind, wp_get, wp_ite, wp_assert, wp_orPanic, wp_modify, implies_true, true_and, and_true]
  exact ⟨fun _ _ => .refl, fun _ r hr => .single (.honored hr)⟩

theorem updates_foldCbtcLock {asset cx cy : Word} {vout : U 32} (he : tx.envelope = some (.cbtcLock asset vout cx cy)) :
    Within (Updates C tx binding) (foldCbtcLock C asset cx cy tx vout) := by
  unfold foldCbtcLock
  refine Within.check.bind fun _ => Within.check.bind fun _ => Within.orThrow.bind fun x => ?_
  obtain ⟨v, _⟩ := x
  refine Within.check.bind fun _ => Within.check.bind fun _ => Within.get.bind fun _ => Within.check.bind fun _ => ?_
  refine Within.bind (Within.modify fun s => ?_) fun _ => Within.pure
  exact Relation.ReflTransGen.single (.locks _ _ he)

end Folds

/-! ## The scan -/

section Scan

variable {G : BatchCrypto} {B : Chain} {ctx : ScanCtx} {tx : Tx} {w : TxWitness} {spends : List DetectedSpend} {binding : Word}

theorem owns_dest (vout : Nat) : Owns G.toKeccak tx.txid (tx.dest G.toKeccak vout).outpoint := ⟨_, rfl⟩

theorem updates_foldSwapBatch {e : SwapBatchEnvelope} {receipts refunds : List NoteDest}
    (hr : ∀ d ∈ receipts, Owns G.toKeccak tx.txid d.outpoint) (hf : ∀ d ∈ refunds, Owns G.toKeccak tx.txid d.outpoint)
    {paths paths' : List (List Word)} {height : U 64} :
    Within (Updates G.toCrypto tx binding) (foldSwapBatch G e spends receipts refunds paths paths' height) := by
  have hrefund : ∀ pool, Within (Updates G.toCrypto tx binding)
      (onboardBatchRefunds G pool (e.intents.zip (refunds.zip paths'))) := by
    intro pool
    refine Within.forEach fun x hx => ?_
    obtain ⟨it, d, path⟩ := x
    exact updates_onboardNote (hf d (List.of_mem_zip (List.of_mem_zip hx).2).1)
  unfold foldSwapBatch
  refine Within.check.bind fun _ => Within.check.bind fun _ => Within.orThrow.bind fun x => ?_
  obtain ⟨lo, hi⟩ := x
  refine Within.orThrow.bind fun _ => Within.get.bind fun _ => Within.orThrow.bind fun pool => Within.check.bind fun _ => ?_
  refine Within.orThrow.bind fun x => ?_
  obtain ⟨used, expired⟩ := x
  refine Within.ite (fun _ => hrefund pool) fun _ => Within.ite (fun _ => hrefund pool) fun _ => ?_
  split
  · exact hrefund pool
  · refine (Within.forEach fun x hx => ?_).bind fun _ => updates_setPool
    obtain ⟨⟨it, r⟩, d, path⟩ := x
    have ho := hr d (List.of_mem_zip (List.of_mem_zip hx).2).1
    refine Within.orPanic_bind fun l hl => Within.orPanic_bind fun ch hch => ?_
    obtain ⟨p, hp, rfl⟩ := Option.map_eq_some_iff.1 hl
    obtain rfl : commitmentHash G.toKeccak p.x p.y = ch := by simpa [commitmentHashCompressed, hp] using hch
    exact Within.expect (updates_foldOutputTagged (n := ⟨_, _, d.auth, false⟩) (Or.inl ⟨_, hp⟩) rfl ho)

theorem updates_swallow {α : Type} {m : Fold α} (h : Within (Updates G.toCrypto tx binding) m) :
    Within (Updates G.toCrypto tx binding) (swallow m) := h.attempt.bind fun _ => Within.pure

theorem updates_succeeds {α : Type} {m : Fold α} (h : Within (Updates G.toCrypto tx binding) m) :
    Within (Updates G.toCrypto tx binding) (succeeds m) := by
  refine h.attempt.bind fun x => ?_
  cases x <;> exact Within.pure

theorem updates_foldSpentOrMember {nu : Word} {w : SpentInsert} :
    Within (Updates G.toCrypto tx binding) (foldSpentOrMember G nu w) :=
  Within.get.bind fun _ => Within.ite (fun _ => Within.assert) fun _ => updates_foldSpent

theorem updates_foldBurn {key value : Word} {b : BurnInsert} :
    Within (Updates G.toCrypto tx binding) (expect (foldBurn G.toKeccak key value b) : Guest Unit) := by
  refine Within.expect_of_ok fun s _ t h => ?_
  simp only [foldBurn, bind_eq_ok, get_eq_ok, orThrow_eq_ok, modify_eq_ok] at h
  obtain ⟨_, _, ⟨rfl, rfl⟩, r, _, ⟨hr, rfl⟩, rfl⟩ := h
  exact .single (.burn hr)

theorem updates_foldPendingDeposit {key value : Word} {b : BurnInsert} :
    Within (Updates G.toCrypto tx binding) (expect (foldPendingDeposit G.toKeccak key value b) : Guest Unit) := by
  refine Within.expect_of_ok fun s _ t h => ?_
  simp only [foldPendingDeposit, bind_eq_ok, get_eq_ok, orThrow_eq_ok, modify_eq_ok] at h
  obtain ⟨_, _, ⟨rfl, rfl⟩, r, _, ⟨hr, rfl⟩, rfl⟩ := h
  exact .single (.pending hr)

theorem updates_depositVerdict {asset nu : Word} {burned : OutPoint} {w : DepositWitness} :
    Within (Updates G.toCrypto tx binding) (depositVerdict G B ctx asset nu burned w) := by
  unfold depositVerdict
  split
  · exact Within.pure
  · refine Within.get.bind fun _ => Within.ite (fun _ => Within.assert.bind fun _ => Within.pure) fun _ => ?_
    refine Within.assert.bind fun _ => ?_
    split
    · exact Within.pure
    · exact Within.assert.bind fun _ => Within.ite (fun _ => Within.pure) fun _ => Within.pure

theorem updates_foldBurnDeposit {asset nu dest target : Word} {burned : OutPoint} {w : DepositWitness} :
    Within (Updates G.toCrypto tx binding) (foldBurnDeposit G B ctx asset nu dest target burned w) := by
  refine updates_depositVerdict.bind fun _ => Within.ite (fun _ => Within.pure) fun _ => ?_
  refine updates_foldSpentOrMember.bind fun _ => Within.bind ?_ fun _ => Within.pure
  refine Within.get.bind fun _ => Within.ite (fun _ => Within.assert) fun _ => ?_
  exact (updates_sideLeaf (.deposit ..)).bind fun _ => updates_foldBurn

theorem updates_scanBurn {asset nu dest target : Word} :
    Within (Updates G.toCrypto tx binding) (scanBurn G B ctx tx w spends asset nu dest target) := by
  unfold scanBurn
  split
  · refine Within.ite (fun _ => Within.get.bind fun _ => ?_) fun _ => Within.pure
    exact Within.ite (fun _ => Within.assert) fun _ => updates_foldBurn
  · refine Within.assert.bind fun _ => ?_
    split
    · exact Within.pure
    · exact updates_foldBurnDeposit.bind fun _ => Within.ite (fun _ => updates_foldPendingDeposit) fun _ => Within.pure
  · exact Within.pure

theorem updates_scanTransfer {ins : List DetectedSpend} {asset : Word} {commitments : List Bytes} {vouts : Option (List Nat)}
    {admissible : Bool} {proof sig : Bytes}
    {fold : List OutPoint → List Point → List Word → List (List Word) → List Nat → List Word → Fold Unit}
    (h : ∀ ops pts assets paths vs auths, Within (Updates G.toCrypto tx binding) (fold ops pts assets paths vs auths)) :
    Within (Updates G.toCrypto tx binding) (scanTransfer G tx w ins asset commitments vouts admissible proof sig fold) := by
  unfold scanTransfer
  refine Within.orPanic.bind fun _ => ?_
  cases vouts with
  | none => exact Within.pure
  | some vs => exact Within.ite (fun _ => Within.expect (h _ _ _ _ _ _)) fun _ => Within.pure

theorem updates_scanCxfer {e : CxferEnvelope} : Within (Updates G.toCrypto tx binding) (scanCxfer G tx w spends e) := by
  unfold scanCxfer
  refine updates_scanTransfer ?_
  intro ops pts assets paths vs auths
  exact updates_foldCxferTagged (by simp)

theorem updates_scanCxferBound {e : CxferBoundEnvelope} :
    Within (Updates G.toCrypto tx ctx.chainBinding) (scanCxferBound G ctx tx w spends e) := by
  unfold scanCxferBound
  refine updates_scanTransfer ?_
  intro ops pts assets paths vs auths
  exact updates_foldCxferTagged (by simp)

theorem updates_scanBid {e : BidEnvelope} : Within (Updates G.toCrypto tx binding) (scanBid G tx w spends e) := by
  unfold scanBid
  refine updates_scanTransfer ?_
  intro ops pts assets paths vs auths
  exact updates_foldCxferTagged (by simp)

theorem updates_scanSwapVar {e : SwapVarEnvelope} :
    ∀ {spends : List DetectedSpend}, Within (Updates G.toCrypto tx binding) (scanSwapVar G tx w e spends)
  | [] => Within.pure
  | d :: ds => by
    unfold scanSwapVar
    refine Within.get.bind fun s => ?_
    split
    · refine (updates_foldSwapVar (owns_dest 1) (owns_dest 2) (owns_dest 3) (owns_dest 4)).attempt.bind fun x => ?_
      cases x with
      | ok pool => exact updates_setPool.expect
      | error e => exact updates_scanSwapVar
    · exact updates_scanSwapVar

theorem updates_scanSwapRoute {e : SwapRouteEnvelope} :
    ∀ {spends : List DetectedSpend}, Within (Updates G.toCrypto tx binding) (scanSwapRoute G tx w e spends)
  | [] => Within.pure
  | d :: ds => by
    unfold scanSwapRoute
    refine Within.get.bind fun s => Within.ite (fun _ => ?_) fun _ => updates_scanSwapRoute
    refine (updates_succeeds (updates_foldSwapRoute (owns_dest 1) (owns_dest 2))).bind fun ok => ?_
    exact Within.ite (fun _ => Within.pure) fun _ => updates_scanSwapRoute

theorem updates_scanSwapBatch {e : SwapBatchEnvelope} :
    Within (Updates G.toCrypto tx binding) (scanSwapBatch G tx w spends e) := by
  have howns : ∀ (f : Nat → Nat) (d : NoteDest), d ∈ (List.range e.nIntents).map (fun i => tx.dest G.toKeccak (f i)) →
      Owns G.toKeccak tx.txid d.outpoint := by
    intro f d hd
    obtain ⟨i, -, rfl⟩ := List.mem_map.1 hd
    exact owns_dest _
  exact Within.get.bind fun s => updates_swallow (updates_foldSwapBatch (howns _) (howns _))

theorem updates_scanLpShares {e : LpAddEnvelope} {pid : Word} {prePool : Option PoolReserveState} :
    Within (Updates G.toCrypto tx binding) (scanLpShares G tx w e pid prePool) := by
  refine Within.get.bind fun u => ?_
  split
  · exact Within.pure
  · refine Within.ite (fun _ => (updates_foldLpShareMint ⟨0, rfl⟩).expect) fun _ => ?_
    split
    · exact updates_setPool.expect
    · exact updates_modify fun _ => ⟨_, _, _, rfl⟩

theorem updates_scanLpAdd {e : LpAddEnvelope} : Within (Updates G.toCrypto tx binding) (scanLpAdd G tx w spends e) := by
  unfold scanLpAdd
  cases ammCanonicalPair e.assetA e.assetB with
  | none => exact Within.pure
  | some pair =>
    refine Within.orPanic.bind fun _ => Within.orPanic.bind fun _ => Within.get.bind fun s => ?_
    dsimp only
    generalize (if e.variant = 1 then _ else _ : Option Word) = poolId
    cases poolId with
    | none => exact Within.pure
    | some pid =>
      refine Within.ite (fun _ => ?_) fun _ => Within.pure
      refine (updates_succeeds (updates_foldLpAdd (owns_vout _) (owns_vout _))).bind fun ok => ?_
      exact Within.ite (fun _ => updates_scanLpShares) fun _ => Within.pure

theorem updates_scanLpRemovePools {e : LpRemoveEnvelope} {inOrder : Bool} :
    ∀ {pids : List Word}, Within (Updates G.toCrypto tx binding) (scanLpRemovePools G tx w spends e inOrder pids)
  | [] => Within.pure
  | pid :: pids => by
    unfold scanLpRemovePools
    refine Within.orPanic.bind fun _ => Within.ite (fun _ => ?_) fun _ => updates_scanLpRemovePools
    exact Within.ite (fun _ => updates_swallow (updates_foldLpRemove (owns_dest 0) (owns_dest 1) (owns_dest 2)))
      fun _ => Within.pure

theorem updates_scanLpRemove {e : LpRemoveEnvelope} :
    Within (Updates G.toCrypto tx binding) (scanLpRemove G tx w spends e) := by
  unfold scanLpRemove
  split
  · exact Within.pure
  · exact Within.get.bind fun s => updates_scanLpRemovePools

theorem updates_scanFarmInit {e : FarmInitEnvelope} :
    ∀ {spends : List DetectedSpend}, Within (Updates G.toCrypto tx binding) (scanFarmInit G tx w e spends)
  | [] => Within.pure
  | d :: ds => by
    unfold scanFarmInit
    split
    · refine Within.ite (fun _ => updates_scanFarmInit) fun _ => Within.ite (fun _ => ?_) fun _ => Within.pure
      refine (updates_foldFarmInit ⟨1, rfl⟩).attempt.bind fun x => ?_
      split
      · exact updates_swallow updates_foldFarmInitRewards
      · exact Within.pure
    · exact updates_scanFarmInit

theorem updates_scanLpBond {e : LpBondEnvelope} : Within (Updates G.toCrypto tx binding) (scanLpBond G tx w spends e) := by
  refine Within.get.bind fun s => ?_
  split
  · exact Within.pure
  · exact Within.ite (fun _ => updates_swallow (updates_foldLpBond ⟨1, rfl⟩)) fun _ => Within.pure

theorem updates_scanLpHarvest {e : LpHarvestEnvelope} :
    Within (Updates G.toCrypto tx binding) (scanLpHarvest G tx w e) := by
  refine Within.get.bind fun s => (updates_succeeds updates_foldLpHarvest).bind fun ok => ?_
  refine Within.ite (fun _ => (updates_succeeds (updates_foldHarvest ⟨1, rfl⟩)).bind fun paid => ?_) fun _ => Within.pure
  refine Within.ite (fun _ => Within.pure) fun _ => ?_
  unfold undoHarvest
  split
  · exact updates_setFarm.expect.bind fun _ => updates_modify fun _ => ⟨_, _, _, rfl⟩
  · exact updates_modify fun _ => ⟨_, _, _, rfl⟩

/-- **What follows the vin scan is a sequence of updates.** -/
theorem updates_scanEnvelope : Within (Updates G.toCrypto tx ctx.chainBinding) (scanEnvelope G B ctx tx w spends) := by
  unfold scanEnvelope
  cases he : tx.envelope with
  | none => exact Within.pure
  | some e =>
    cases e with
    | cetch _ _ _ => exact Within.pure
    | cmint _ => exact Within.pure
    | cbtcRedeem _ _ _ => exact Within.pure
    | burn asset nu dest target => exact updates_scanBurn
    | cxfer e => exact updates_scanCxfer
    | cxferBound e => exact updates_scanCxferBound
    | bid e => exact updates_scanBid
    | crossoutMint asset claimId cx cy => exact updates_swallow (updates_foldCrossout he ⟨0, rfl⟩)
    | cbtcLock asset lockVout cx cy => exact updates_swallow (updates_foldCbtcLock he)
    | ethCall msgId ns sender destChain payloadHash payload =>
      exact Within.ite (fun _ => updates_swallow updates_foldEthMessage) fun _ => Within.pure
    | swapVar e => exact updates_scanSwapVar
    | swapRoute e => exact updates_scanSwapRoute
    | swapBatch e => exact updates_scanSwapBatch
    | lpAdd e => exact updates_scanLpAdd
    | lpRemove e => exact updates_scanLpRemove
    | farmInit e => exact updates_scanFarmInit
    | lpBond e => exact updates_scanLpBond
    | lpHarvest e => exact updates_scanLpHarvest
    | farmRefund e => exact updates_swallow (updates_foldFarmRefund ⟨1, rfl⟩)
    | lpUnbond e => exact updates_swallow (updates_foldLpUnbond ⟨1, rfl⟩)
    | protocolFeeClaim e => exact updates_swallow (updates_foldProtocolFeeClaim (owns_dest 0))

end Scan

end Tacit
