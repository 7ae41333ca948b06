import Mathlib.Algebra.BigOperators.Group.Finset.Basic
import Mathlib.Algebra.BigOperators.Intervals
import Tacit.Reflection.Conservation.Notes
/-!
# No inflation: swaps, routes and batches

A trade moves a pool along both of its sides: what the reserves gain and the notes pay out is what the kernel of the
trader's note covers. A route chains such trades through pools it writes once each; a batch balances one asset at a
time against the inputs its intents are matched to.
-/
namespace Tacit

open Prog

/-! ## Swaps -/

section Swaps

variable {G : BatchCrypto} {V : Word → Nat} {a : Word} {s : ScanReflection}

/-- What a trade through the sides of a pool does to its value. -/
theorem poolValue_withReserves {C : Crypto} {pool : PoolReserveState} {direction : Nat} {q : PoolSides} {rIn rOut : U 64}
    {dIn dOut : Nat} (hq : pool.sides direction = some q) (hin : rIn.val = q.rIn.val + dIn) (hout : rOut.val + dOut = q.rOut.val)
    (pid : Word) :
    poolValue C a pid (pool.withReserves direction rIn rOut) + amount a q.assetOut dOut =
      poolValue C a pid pool + amount a q.assetIn dIn := by
  have h0 : amount a q.assetIn rIn.val = amount a q.assetIn q.rIn.val + amount a q.assetIn dIn := by rw [hin, amount_add]
  have h1 : amount a q.assetOut rOut.val + amount a q.assetOut dOut = amount a q.assetOut q.rOut.val := by
    rw [← amount_add, hout]
  unfold PoolReserveState.sides at hq
  unfold PoolReserveState.withReserves
  split at hq
  · rename_i hd
    cases hq
    rw [if_pos hd]
    simp only [poolValue, reserveValue, sharesIssued] at *
    omega
  · rename_i hd
    split at hq
    · cases hq
      rw [if_neg hd]
      simp only [poolValue, reserveValue, sharesIssued] at *
      omega
    · cases hq

theorem onboardBtcRefund_adds {asset : Word} {cIn : Bytes} {auth outpoint : Word} {path : List Word} :
    wp True (onboardBtcRefund G.toCrypto asset cIn auth outpoint path) s (fun _ t => AddsNotes V a s 0 t)
      (fun _ t => AddsNotes V a s (amount a asset (wireValue G V cIn)) t) :=
  onboardNote_adds fun _ hpt => (wireValue_of_some hpt).ge

theorem swapVarNotes_adds {e : SwapVarEnvelope} {q : PoolSides} {ch : Word} {receipt change : NoteDest} {path : List Word} :
    wp True (swapVarNotes G.toCrypto e q ch receipt change path) s (fun _ t => AddsNotes V a s 0 t)
      (fun _ t => AddsNotes V a s (amount a q.assetOut (V ch) + amount a q.assetIn (wireValue G V e.cChangeOrSentinel)) t) := by
  unfold swapVarNotes reflectedNoteLeaf
  cases hc : G.decompress e.cChangeOrSentinel with
  | none =>
    refine wp_liveInsert fun hl => (AddsNotes.liveInsert hl).mono ?_
    exact Nat.le_add_right ..
  | some pt =>
    simp only [Option.map_some, wp_bind, wp_orThrow, wp_expect, commitmentHashCompressed, hc, reduceCtorEq, false_imp_iff,
      Option.some.injEq, forall_eq', true_and]
    refine wp_foldNoteAppend fun r => wp_liveInsert fun hl => wp_liveInsert fun hl' => ?_
    have h1 : AddsNotes V a s 0 { s with poolRoot := r, noteCount := s.noteCount + 1 } := ⟨by simp, rfl, rfl⟩
    refine ((h1.trans (AddsNotes.liveInsert hl)).trans (AddsNotes.liveInsert hl')).mono ?_
    rw [wireValue_of_some hc]
    simp only [noteValue, pointValue]
    omega

/-- The spend a swap trades is the note its kernel opens. -/
theorem wireValue_cIn {spends : List DetectedSpend} (hd : Detected G.toKeccak spends) {d : DetectedSpend} (hmem : d ∈ spends)
    {cIn : Bytes} (h : cInReal G d cIn = true) :
    amount a d.asset (wireValue G V cIn) ≤ credit V a spends := by
  unfold cInReal Crypto.fromAffineXy at h
  split at h
  · rename_i x y hx hy
    split at hx
    · cases hx
      rw [wireValue_of_some hy, ← eq_of_beq h]
      have hv := hd.value_point (V := V) (a := a) hmem
      unfold DetectedSpend.point at hv
      rw [← hv]
      exact List.le_sum_of_mem (List.mem_map_of_mem hmem)
    · cases hx
  · cases h

variable (hG : Sound G V)

include hG

/-- A tip never fails half way: its commitment is a point. -/
theorem swapVarTip_adds {e : SwapVarEnvelope} {q : PoolSides} {tip : NoteDest} {path : List Word} :
    wp True (swapVarTip G.toCrypto e q tip path) s (fun _ _ => False)
      (fun _ t => AddsNotes V a s (amount a q.assetIn e.tipAmount.val) t) := by
  unfold swapVarTip
  rw [wp_ite]
  refine ⟨fun htip => ?_, fun _ => ?_⟩
  · refine wp_onboardNote (fun _ hnone => hG.tip htip hnone) fun pt r hpt hl => ?_
    exact (AddsNotes.withNote hl).mono (amount_le _ (hG.pedersen hpt).le)
  · exact wp_pure.2 (AddsNotes.refl.mono (Nat.zero_le _))

theorem swapVarSettle_adds {pool : PoolReserveState} {e : SwapVarEnvelope} {q : PoolSides} {deltaOut : U 64}
    {receipt change tip : NoteDest} {p p₂ p₃ : List Word} (hq : pool.sides e.direction = some q) (pid : Word) :
    wp True (swapVarSettle G.toCrypto pool e q deltaOut receipt change tip p p₂ p₃) s (fun _ t => AddsNotes V a s 0 t)
      (fun pool' t => ∃ c, AddsNotes V a s c t ∧ c + poolValue G.toCrypto a pid pool' = poolValue G.toCrypto a pid pool +
        amount a q.assetIn (wireValue G V e.cChangeOrSentinel + e.deltaIn.val + e.tipAmount.val)) := by
  simp only [swapVarSettle, wp_bind, wp_orThrow, wp_orPanic, wp_check, wp_expect, reflectedNoteLeaf, commitmentHashCompressed,
    AddsNotes.refl, implies_true, true_and, U.checkedAdd_eq_some, U.checkedSub_eq_some, Option.map_eq_some_iff]
  rintro rIn hrIn rOut ⟨hle, hrOut⟩ - _ ⟨pt, hpt, rfl⟩ _ ⟨pt', hpt', rfl⟩
  cases hpt.symm.trans hpt'
  refine wp_foldNoteAppend fun r => ?_
  have h1 : AddsNotes V a s 0 { s with poolRoot := r, noteCount := s.noteCount + 1 } := ⟨by simp, rfl, rfl⟩
  refine wp_mono swapVarNotes_adds id (fun _ _ h => h1.trans h) fun _ t ht => ?_
  refine wp_mono (swapVarTip_adds hG) id (fun _ _ h => h.elim) fun _ t' ht' => wp_pure.2 ⟨_, (h1.trans ht).trans ht', ?_⟩
  have hv := hG.pedersen hpt
  unfold pointValue at hv
  have hout : rOut.val + deltaOut.val = q.rOut.val := by omega
  have hp := poolValue_withReserves (C := G.toCrypto) (a := a) hq hrIn hout pid
  rw [hv, amount_add, amount_add]
  push_cast
  omega

/-- What a quote has checked: the trader's note pays the change, the trade and the tip. -/
theorem swapVarQuote_conserves {pool : PoolReserveState} {e : SwapVarEnvelope} {input : OutPoint} {inputAsset : Word}
    {q : PoolSides} {deltaOut : U 64} (h : swapVarQuote G.toCrypto pool e input inputAsset = .ok (q, deltaOut)) :
    pool.sides e.direction = some q ∧ inputAsset = q.assetIn ∧
      wireValue G V e.cIn = wireValue G V e.cChangeOrSentinel + e.deltaIn.val + e.tipAmount.val := by
  simp only [swapVarQuote, except_bind_eq_ok, refuse_eq_ok, need_eq_ok, except_pure_eq_ok, Prod.mk.injEq,
    U.checkedAdd_eq_some] at h
  obtain ⟨_, -, q', hq, _, hasset, total, htotal, _, hk, _, hchange, _, -, _, -, rfl, rfl⟩ := h
  refine ⟨hq, by simpa using hasset, ?_⟩
  rw [Nat.add_assoc, ← htotal]
  refine swapVar_conserves hG (by simpa using hk) fun hs p hp => ?_
  simp only [swapVarChangeOk, hs, Bool.false_eq_true, if_false, except_bind_eq_ok, need_eq_ok, refuse_eq_ok] at hchange
  obtain ⟨p', hp', hr⟩ := hchange
  cases hp.symm.trans hp'
  exact hG.range (by simpa using hr) p (by simp)

theorem foldSwapVar_adds {pool : PoolReserveState} {e : SwapVarEnvelope} {input : OutPoint} {inputAsset : Word}
    {receipt change refund tip : NoteDest} {p p₂ p₃ : List Word} {height : U 64} (pid : Word) :
    wp True (foldSwapVar G.toCrypto pool e input inputAsset receipt change refund tip p p₂ p₃ height) s
      (fun _ t => AddsNotes V a s 0 t)
      (fun pool' t => ∃ c, AddsNotes V a s c t ∧ c + poolValue G.toCrypto a pid pool' =
        poolValue G.toCrypto a pid pool + amount a inputAsset (wireValue G V e.cIn)) := by
  have hrefund : ∀ s, wp True (do
      onboardBtcRefund G.toCrypto inputAsset e.cIn refund.auth refund.outpoint p
      pure pool) s (fun _ t => AddsNotes V a s 0 t)
      (fun pool' t => ∃ c, AddsNotes V a s c t ∧ c + poolValue G.toCrypto a pid pool' =
        poolValue G.toCrypto a pid pool + amount a inputAsset (wireValue G V e.cIn)) := by
    intro s
    rw [wp_bind]
    exact wp_mono onboardBtcRefund_adds id (fun _ _ h => h) fun _ t ht => wp_pure.2 ⟨_, ht, by omega⟩
  unfold foldSwapVar
  simp only [wp_bind, wp_ofExcept, wp_ite, AddsNotes.refl, implies_true, true_and]
  intro _ _
  refine ⟨fun _ => by simpa only [wp_bind] using hrefund s, fun _ x hx => ?_⟩
  obtain ⟨q, deltaOut⟩ := x
  obtain ⟨hq, rfl, hv⟩ := swapVarQuote_conserves hG hx
  refine ⟨fun _ => by simpa only [wp_bind] using hrefund s, fun _ => ?_⟩
  rw [hv]
  exact swapVarSettle_adds hG hq pid

theorem scanSwapVar_gains {spends : List DetectedSpend} (hd : Detected G.toKeccak spends) {tx : Tx} {w : TxWitness}
    {e : SwapVarEnvelope} : ∀ {ds : List DetectedSpend} {s : ScanReflection}, ds ⊆ spends →
    wp True (scanSwapVar G tx w e ds) s (fun _ _ => True)
      (fun _ t => t.value G.toCrypto V a ≤ s.value G.toCrypto V a + credit V a spends)
  | [], s, _ => by simp [scanSwapVar]
  | d :: ds, s, hsub => by
    obtain ⟨hmem, htail⟩ := List.cons_subset.1 hsub
    unfold scanSwapVar
    rw [wp_bind, wp_get]
    split
    · rename_i pool hreal hpool
      simp only [wp_bind, wp_attempt]
      refine wp_mono (foldSwapVar_adds (a := a) hG e.poolId) id (fun _ t ht => ?_) fun pool' t ht => ?_
      · -- a fold that fails has added nothing, and the next spend is tried
        refine wp_mono (scanSwapVar_gains hd htail) id (fun _ _ _ => trivial) fun _ u hu => ?_
        have := ht.value G.toCrypto
        omega
      · obtain ⟨c, hc, hbal⟩ := ht
        rw [wp_expect]
        refine wp_setPool fun q hq => ?_
        have hv := hc.value_setPool G.toCrypto (p := pool') hpool
        have := wireValue_cIn (V := V) (a := a) hd hmem hreal
        omega
    · exact scanSwapVar_gains hd htail

end Swaps

/-! ## Routes -/

section Routes

variable {G : BatchCrypto} {V : Word → Nat} {a : Word} {s : ScanReflection} {pools : SortedMap Word PoolReserveState}

theorem getAmountOut_le (amountIn rIn rOut : U 64) (feeBps : Nat) : getAmountOut amountIn rIn rOut feeBps ≤ rOut.val := by
  unfold getAmountOut
  dsimp only
  refine Nat.div_le_of_le_mul ?_
  rw [Nat.mul_comm]
  exact Nat.mul_le_mul_right _ (Nat.le_add_left ..)

/-- One hop stages a pool the route has not touched, at a trade that balances; or clears to nothing. -/
theorem routeHop_balances {C : Crypto} {hop : SwapRouteHop} {c c' : RouteChain} {inMag : Except String (U 64)}
    (h : routeHop pools hop c inMag = .ok c') : ∃ m, inMag = .ok m ∧ (c'.clearedToNothing = true ∨
      ∃ pool pool', pools.get hop.poolId = some pool ∧ hop.poolId ∉ c.staged.map Prod.fst ∧
        c'.staged = c.staged ++ [(hop.poolId, pool')] ∧
        poolValue C a hop.poolId pool' + amount a c'.curAsset c'.curAmount.val =
          poolValue C a hop.poolId pool + amount a c.curAsset m.val) := by
  simp only [routeHop, except_bind_eq_ok, refuse_eq_ok, need_eq_ok] at h
  obtain ⟨_, hfresh, pool, hpool, _, -, q, hq, _, hasset, m, hm, _, -, out, hout, h⟩ := h
  refine ⟨m, hm, ?_⟩
  split at h
  · cases h
    exact Or.inl rfl
  · simp only [except_bind_eq_ok, refuse_eq_ok, need_eq_ok, except_pure_eq_ok, U.checkedAdd_eq_some] at h
    obtain ⟨rIn, hrIn, _, -, rfl⟩ := h
    have hle : out.val ≤ q.rOut.val := by
      rw [U.ofNat?_eq_some.1 hout]
      exact getAmountOut_le ..
    refine Or.inr ⟨pool, _, hpool, ?_, rfl, ?_⟩
    · simpa using hfresh
    · have hasset' : q.assetIn = c.curAsset := by simpa using hasset
      rw [← hasset']
      exact poolValue_withReserves hq hrIn (by simp [U.saturatingSub]; omega) hop.poolId

/-- The staged pools, the amount in flight and the value that entered. -/
structure RouteBalanced (C : Crypto) (a : Word) (pools : SortedMap Word PoolReserveState) (v : Int) (c : RouteChain) : Prop where
  nodup : (c.staged.map Prod.fst).Nodup
  balance : c.clearedToNothing = false →
    (c.staged.map fun x => poolValue C a x.1 x.2 - pools.at' (poolValue C a) x.1).sum + amount a c.curAsset c.curAmount.val = v

theorem RouteBalanced.hop {C : Crypto} {v : Int} {hop : SwapRouteHop} {c c' : RouteChain} {m : U 64}
    (hnd : (c.staged.map Prod.fst).Nodup)
    (hb : (c.staged.map fun x => poolValue C a x.1 x.2 - pools.at' (poolValue C a) x.1).sum + amount a c.curAsset m.val = v)
    {inMag : Except String (U 64)} (hm : ∀ m', inMag = .ok m' → m' = m) (h : routeHop pools hop c inMag = .ok c') :
    c'.clearedToNothing = true ∨ RouteBalanced C a pools v c' := by
  obtain ⟨m', hm', hclear | ⟨pool, pool', hpool, hfresh, hst, hbal⟩⟩ := routeHop_balances (C := C) (a := a) h
  · exact Or.inl hclear
  · cases hm m' hm'
    refine Or.inr ⟨?_, fun _ => ?_⟩
    · rw [hst, List.map_append]
      refine List.Nodup.append hnd (by simp) ?_
      simpa using hfresh
    · rw [hst, List.map_append, List.sum_append]
      simp only [List.map_cons, List.map_nil, List.sum_cons, List.sum_nil, SortedMap.at'_of_some hpool]
      omega

theorem routeHops_balanced {C : Crypto} {v : Int} : ∀ {hops : List SwapRouteHop} {c c' : RouteChain},
    c.clearedToNothing = true ∨ RouteBalanced C a pools v c → routeHops pools hops c = .ok c' →
    c'.clearedToNothing = true ∨ RouteBalanced C a pools v c'
  | [], c, c', hc, h => by cases h; exact hc
  | hop :: t, c, c', hc, h => by
    unfold routeHops at h
    split at h
    · cases h; exact hc
    · rename_i hne
      simp only [except_bind_eq_ok] at h
      obtain ⟨c₁, h₁, h₂⟩ := h
      rcases hc with hc | hc
      · exact absurd hc hne
      · refine routeHops_balanced (RouteBalanced.hop hc.nodup (hc.balance (by simpa using hne)) ?_ h₁) h₂
        rintro m' ⟨⟩
        rfl

/-- A list of pools, each written once. -/
theorem setPools_value {C : Crypto} : ∀ {l : List (Word × PoolReserveState)} {t : ScanReflection}, (l.map Prod.fst).Nodup →
    wp True (forEach l fun (pid, pool) => setPool pid pool) t (fun _ _ => False)
      (fun _ u => u.value C V a = t.value C V a + (l.map fun x => poolValue C a x.1 x.2 - t.pools.at' (poolValue C a) x.1).sum)
  | [], t, _ => by simp [forEach]
  | (pid, pool) :: l, t, hnd => by
    obtain ⟨hfresh, hnd⟩ := List.nodup_cons.1 hnd
    rw [forEach, wp_bind']
    refine wp_setPool fun q hq => ?_
    refine wp_mono (setPools_value (C := C) hnd) id (fun _ _ h => h) fun _ u hu => ?_
    have hrest : (l.map fun x => poolValue C a x.1 x.2 - (t.pools.set pid pool).at' (poolValue C a) x.1) =
        l.map fun x => poolValue C a x.1 x.2 - t.pools.at' (poolValue C a) x.1 := by
      refine List.map_congr_left fun x hx => ?_
      have hne : pid ≠ x.1 := by
        rintro rfl
        exact hfresh (List.mem_map.2 ⟨x, hx, rfl⟩)
      simp [SortedMap.at', hne]
    rw [hu, List.map_cons, List.sum_cons, SortedMap.at'_of_some hq, ScanReflection.value_eq, ScanReflection.value_eq]
    dsimp only
    rw [hrest, mapsValue_pools_set hq]
    omega

variable (hG : Sound G V)

include hG

theorem routeClear_balanced {e : SwapRouteEnvelope} {input : OutPoint} {c : RouteChain}
    (h : routeClear G.toCrypto pools e input = .ok c) (hc : c.clearedToNothing = false) :
    ∃ v : Int, v ≤ amount a e.traderInputAsset (wireValue G V e.cIn) ∧ RouteBalanced G.toCrypto a pools v c := by
  unfold routeClear at h
  split at h
  · cases h
    exact ⟨0, by simp, by simp, by simp⟩
  · simp only [except_bind_eq_ok] at h
    obtain ⟨c₁, h₁, h₂⟩ := h
    refine ⟨amount a e.traderInputAsset (routeDeltaIn e).val, ?_, ?_⟩
    · -- the first hop takes the amount its kernel proves
      obtain ⟨m, hm, -⟩ := routeHop_balances (C := G.toCrypto) (a := a) h₁
      split at hm
      · cases hm
      · split at hm
        · cases hm
        · rename_i hk
          have hv := swapVar_conserves hG (by simpa using hk) fun hs => absurd hs (by decide)
          rw [hv]
          exact_mod_cast amount_le _ (Nat.le_add_left ..)
    · have hstart := RouteBalanced.hop (C := G.toCrypto) (a := a) (m := routeDeltaIn e)
        (v := amount a e.traderInputAsset (routeDeltaIn e).val) (by simp) (by simp) ?_ h₁
      · rcases routeHops_balanced hstart h₂ with hn | hb
        · rw [hn] at hc; cases hc
        · exact hb
      · intro m' hm'
        split at hm'
        · cases hm'
        · split at hm'
          · cases hm'
          · cases hm'; rfl

theorem foldSwapRoute_gains {e : SwapRouteEnvelope} {input : OutPoint} {inputAsset : Word} {receipt refund : NoteDest}
    {path : List Word} {height : U 64} :
    wp True (foldSwapRoute G.toCrypto e input inputAsset receipt refund path height) s
      (fun _ t => t.value G.toCrypto V a ≤ s.value G.toCrypto V a)
      (fun _ t => t.value G.toCrypto V a ≤ s.value G.toCrypto V a + amount a inputAsset (wireValue G V e.cIn)) := by
  have hrefund : wp True (onboardBtcRefund G.toCrypto inputAsset e.cIn refund.auth refund.outpoint path) s
      (fun _ t => t.value G.toCrypto V a ≤ s.value G.toCrypto V a)
      (fun _ t => t.value G.toCrypto V a ≤ s.value G.toCrypto V a + amount a inputAsset (wireValue G V e.cIn)) :=
    wp_mono onboardBtcRefund_adds id (fun _ _ h => by simpa using h.value G.toCrypto) fun _ _ h => h.value G.toCrypto
  simp only [foldSwapRoute, wp_bind, wp_orThrow, wp_check, wp_ite, wp_get, wp_ofExcept, le_refl, implies_true, true_and]
  intro _ _ _ _ _ _ _ hasset
  refine ⟨fun _ => hrefund, fun _ c hc => ⟨fun _ => hrefund, fun hn hout => ?_⟩⟩
  simp only [not_or, Bool.not_eq_true] at hn
  obtain ⟨v, hv, hb⟩ := routeClear_balanced hG (a := a) hc hn.1
  refine wp_mono (onboardNote_pedersen hG) id (fun _ _ h => by simpa using h.value G.toCrypto) fun _ t ht => ?_
  refine wp_mono (setPools_value (C := G.toCrypto) (V := V) (a := a) hb.nodup) id (fun _ _ h => h.elim) fun _ u hu => ?_
  have hval := ht.value G.toCrypto
  have hbal := hb.balance hn.1
  have h1 : inputAsset = e.traderInputAsset := by simpa using hasset
  have h2 : c.curAsset = e.traderOutputAsset := by simpa using hout
  rw [ht.pools] at hu
  rw [h2] at hbal
  rw [h1]
  omega

theorem scanSwapRoute_gains {spends : List DetectedSpend} (hd : Detected G.toKeccak spends) {tx : Tx} {w : TxWitness}
    {e : SwapRouteEnvelope} : ∀ {ds : List DetectedSpend} {s : ScanReflection}, ds ⊆ spends →
    wp True (scanSwapRoute G tx w e ds) s (fun _ _ => True)
      (fun _ t => t.value G.toCrypto V a ≤ s.value G.toCrypto V a + credit V a spends)
  | [], s, _ => by simp [scanSwapRoute]
  | d :: ds, s, hsub => by
    obtain ⟨hmem, htail⟩ := List.cons_subset.1 hsub
    unfold scanSwapRoute
    simp only [wp_bind, wp_get, wp_ite, succeeds, wp_attempt]
    refine ⟨fun hreal => ?_, fun _ => scanSwapRoute_gains hd htail⟩
    refine wp_mono (foldSwapRoute_gains hG (a := a)) id (fun _ t ht => ?_) fun _ t ht => ?_
    · simp only [wp_pure, Bool.false_eq_true, false_imp_iff, not_false_eq_true, true_imp_iff, true_and]
      refine wp_mono (scanSwapRoute_gains hd htail) id (fun _ _ _ => trivial) fun _ u hu => ?_
      omega
    · have := wireValue_cIn (V := V) (a := a) hd hmem hreal
      simp only [wp_pure, not_true_eq_false, false_imp_iff, true_imp_iff, and_true]
      omega

end Routes

/-! ## Batches -/

section Batch

variable {G : BatchCrypto} {V : Word → Nat} {a : Word} {s : ScanReflection}

/-- The value of the spends at the indices not used yet. -/
def creditLeft (V : Word → Nat) (a : Word) (spends : List DetectedSpend) (used : List Nat) : Nat :=
  ∑ j ∈ (Finset.range spends.length).filter (· ∉ used), ((spends[j]?).map fun d => noteValue V a d.note).getD 0

theorem creditLeft_nil : ∀ spends : List DetectedSpend, creditLeft V a spends [] = credit V a spends
  | [] => rfl
  | d :: l => by
    have ih := creditLeft_nil l
    simp only [creditLeft, credit, List.not_mem_nil, not_false_eq_true, Finset.filter_true, List.length_cons,
      Finset.sum_range_succ', List.getElem?_cons_succ, List.getElem?_cons_zero, List.map_cons, List.sum_cons] at ih ⊢
    rw [ih]
    simp [Nat.add_comm]

theorem creditLeft_cons {spends : List DetectedSpend} {used : List Nat} {j : Nat} {d : DetectedSpend}
    (hj : spends[j]? = some d) (hfresh : j ∉ used) :
    noteValue V a d.note + creditLeft V a spends (j :: used) = creditLeft V a spends used := by
  have hlt : j < spends.length := (List.getElem?_eq_some_iff.1 hj).1
  have hmem : j ∈ (Finset.range spends.length).filter (· ∉ used) := by simp [hlt, hfresh]
  have herase : (Finset.range spends.length).filter (· ∉ j :: used) = ((Finset.range spends.length).filter (· ∉ used)).erase j := by
    ext i
    simp
    tauto
  unfold creditLeft
  rw [herase, ← Finset.add_sum_erase _ _ hmem, hj]
  rfl

/-- The asset an intent pays, and the one it is paid. -/
def intentAsset (pool : PoolReserveState) (it : SwapBatchIntent) : Word :=
  if it.direction = 0 then pool.assetA else pool.assetB

/-- The inputs of the intents, each matched to a spend of its own. -/
theorem batchIntents_credit {pool : PoolReserveState} {pid : Word} {spends : List DetectedSpend} (hd : Detected G.toKeccak spends)
    {height : U 64} : ∀ {l : List (SwapBatchIntent × NoteDest × NoteDest)} {used used' : List Nat} {b b' : Bool},
    batchIntents G pool pid spends height l used b = some (used', b') →
    (∀ x ∈ l, x.1.direction ≤ 1) ∧
      (l.map fun x => amount a (intentAsset pool x.1) (wireValue G V x.1.cInSecp)).sum ≤ creditLeft V a spends used
  | [], _, _, _, _, _ => by simp
  | (it, receipt, refund) :: l, used, used', b, b', h => by
    unfold batchIntents at h
    split at h
    · cases h
    · rename_i hdir
      simp only [Option.bind_eq_bind, Option.bind_eq_some_iff] at h
      obtain ⟨pt, hpt, j, hj, h⟩ := h
      split at h
      · cases h
      · split at h
        · cases h
        · split at h
          · cases h
          · obtain ⟨hdirs, hsum⟩ := batchIntents_credit hd h
            have hmatch := List.find?_some hj
            cases hsp : spends[j]? with
            | none => simp [hsp] at hmatch
            | some d =>
              simp only [hsp, Bool.and_eq_true, beq_iff_eq, Bool.not_eq_true', List.contains_eq_mem, decide_eq_false_iff_not] at hmatch
              obtain ⟨⟨⟨hfresh, hasset⟩, haff⟩, -⟩ := hmatch
              have hp : pt = d.point := by
                unfold Crypto.fromAffineXy at haff
                split at haff <;> cases haff
                rfl
              have hv := hd.value_point (V := V) (a := a) (List.mem_of_getElem? hsp)
              have hleft := creditLeft_cons (V := V) (a := a) hsp hfresh
              refine ⟨List.forall_mem_cons.2 ⟨Nat.le_of_not_lt hdir, hdirs⟩, ?_⟩
              simp only [List.map_cons, List.sum_cons, intentAsset, wireValue_of_some hpt, hp]
              rw [← hasset, ← hv]
              simp only [intentAsset] at hsum
              omega

/-- A sum over intents, by direction. -/
theorem sum_by_direction {β : Type} (dir w : β → Nat) (x y : Word) : ∀ {l : List β}, (∀ b ∈ l, dir b ≤ 1) →
    (l.map fun b => amount a (if dir b = 0 then x else y) (w b)).sum =
      amount a x ((l.filter fun b => dir b == 0).map w).sum + amount a y ((l.filter fun b => dir b == 1).map w).sum
  | [], _ => by simp
  | b :: l, h => by
    have ih := sum_by_direction dir w x y (l := l) fun c hc => h c (by simp [hc])
    have hb := h b (by simp)
    rcases Nat.le_one_iff_eq_zero_or_eq_one.1 hb with h0 | h1
    · simp [h0, ih, amount_add]
      omega
    · simp [h1, ih, amount_add]
      omega

/-- What the intents of one direction pay in. -/
def paidIn (G : BatchCrypto) (V : Word → Nat) (e : SwapBatchEnvelope) (direction : Nat) : Nat :=
  (((e.intents.zip e.receipts).filter fun x => x.1.direction == direction).map fun x => wireValue G V x.1.cInSecp).sum

/-- What the intents of one direction are paid. -/
def paidOut (G : BatchCrypto) (V : Word → Nat) (e : SwapBatchEnvelope) (direction : Nat) : Nat :=
  (((e.intents.zip e.receipts).filter fun x => x.1.direction == direction).map fun x => wireValue G V x.2.cOutSecp).sum

theorem applySigned_val {r r' : U 64} {sign : Nat} {mag : U 64} (h : applySigned r sign mag = some r') :
    if sign = 0 then r'.val = r.val + mag.val else r'.val + mag.val = r.val := by
  unfold applySigned at h
  split at h
  · rename_i h0
    rw [if_pos h0]
    exact U.checkedAdd_eq_some.1 h
  · rename_i h0
    rw [if_neg h0]
    have := U.checkedSub_eq_some.1 h
    omega

variable (hG : Sound G V)

include hG

/-- One asset of a batch: the reserve and the receipts are covered by the inputs. -/
theorem aggregate_covers {e : SwapBatchEnvelope} {inDirection sign : Nat} {mag : U 64} {tipC : Bytes} {rNet : Word} {r r' : U 64}
    (hr : e.receipts.all (batchReceiptOk G) = true)
    (htip : ∀ p, G.decompress tipC = some p → pointValue G.toCrypto V p < 2 ^ 64)
    (h : swapBatchAggregateIdentity G e inDirection sign mag tipC rNet = true) (hs : applySigned r sign mag = some r') :
    r'.val + paidOut G V e (1 - inDirection) ≤ r.val + paidIn G V e inDirection := by
  unfold swapBatchAggregateIdentity at h
  dsimp only at h
  split at h
  · rename_i ins outs tip hins houts htipc
    simp only [Bool.and_eq_true] at h
    obtain ⟨hinSum, -⟩ := wireValue_mapM (V := V) (fun x : SwapBatchIntent × SwapBatchReceipt => x.1.cInSecp) hins
    obtain ⟨houtSum, houtMem⟩ := wireValue_mapM (V := V) (fun x : SwapBatchIntent × SwapBatchReceipt => x.2.cOutSecp) houts
    have hrange : ∀ p ∈ outs ++ [tip], pointValue G.toCrypto V p < 2 ^ 64 := by
      intro p hp
      rcases List.mem_append.1 hp with hp | hp
      · obtain ⟨x, hx, hxp⟩ := houtMem p hp
        have hmem : x.2 ∈ e.receipts := (List.of_mem_zip (List.mem_of_mem_filter hx)).2
        have hok := List.all_eq_true.1 hr _ hmem
        simp only [batchReceiptOk, hxp, Bool.and_eq_true] at hok
        exact hG.range hok.2 p (by simp)
      · rw [List.mem_singleton.1 hp]
        exact htip tip htipc
    have hagg := hG.aggregate h.2 hrange
    have hval := applySigned_val hs
    simp only [List.map_append, List.sum_append, List.map_cons, List.map_nil, List.sum_cons, List.sum_nil, hinSum, houtSum] at hagg
    unfold paidOut paidIn
    split at hagg
    · rename_i h0
      rw [if_pos h0] at hval
      omega
    · rename_i h0
      rw [if_neg h0] at hval
      omega
  · cases h

theorem batchClears_covers {e : SwapBatchEnvelope} {pid : Word} {pool : PoolReserveState} {newA newB : U 64}
    (hr : e.receipts.all (batchReceiptOk G) = true) (h : batchClears G e pid pool = some (newA, newB)) :
    newA.val + paidOut G V e 1 ≤ pool.reserveA.val + paidIn G V e 0 ∧
      newB.val + paidOut G V e 0 ≤ pool.reserveB.val + paidIn G V e 1 := by
  simp only [batchClears, Option.bind_eq_bind, Option.bind_eq_some_iff] at h
  obtain ⟨nA, hA, nB, hB, h⟩ := h
  split at h
  · cases h
  split at h
  · cases h
  split at h
  · cases h
  split at h
  · cases h
  simp only [Option.bind_eq_some_iff] at h
  obtain ⟨tipA, htA, tipB, htB, h⟩ := h
  split at h
  · cases h
  rename_i hopen
  split at h
  · cases h
  rename_i hidA
  split at h
  · cases h
  rename_i hidB
  cases h
  simp only [Bool.or_eq_true, Bool.not_eq_true', not_or, Bool.not_eq_false] at hopen hidA hidB
  have hoA := hG.opening hopen.1
  have hoB := hG.opening hopen.2
  refine ⟨aggregate_covers hG hr ?_ hidA hA, aggregate_covers hG hr ?_ hidB hB⟩
  · intro p hp
    cases htA.symm.trans hp
    rw [hoA]
    exact e.tipAAmount.isLt
  · intro p hp
    cases htB.symm.trans hp
    rw [hoB]
    exact e.tipBAmount.isLt

omit hG in
theorem onboardBatchRefunds_adds {pool : PoolReserveState} {intents : List SwapBatchIntent}
    {dests : List (NoteDest × List Word)} :
    wp True (onboardBatchRefunds G pool (intents.zip dests)) s
      (fun _ t => AddsNotes V a s (intents.map fun it => amount a (intentAsset pool it) (wireValue G V it.cInSecp)).sum t)
      (fun _ t => AddsNotes V a s (intents.map fun it => amount a (intentAsset pool it) (wireValue G V it.cInSecp)).sum t) := by
  have hle := sum_zip_le (fun it => amount a (intentAsset pool it) (wireValue G V it.cInSecp)) intents dests
  unfold onboardBatchRefunds
  refine wp_mono (forEach_adds (A := True) (c := fun x => amount a (intentAsset pool x.1) (wireValue G V x.1.cInSecp)) ?_) id
    (fun _ _ h => h.2.mono hle) fun _ _ h => h.mono hle
  intro x _ t
  refine wp_mono (onboardNote_adds fun _ hpt => (wireValue_of_some hpt).ge) id (fun _ _ h => ⟨trivial, h⟩) fun _ _ h => h

omit hG in
theorem batchReceipts_adds {pool : PoolReserveState} {sides : List (SwapBatchIntent × SwapBatchReceipt)}
    {dests : List (NoteDest × List Word)} :
    wp True (forEach (sides.zip dests) fun ((it, r), receipt, path) => do
      let outAsset := if it.direction = 0 then pool.assetB else pool.assetA
      let noteLeaf ← orPanic (reflectedNoteLeaf G.toCrypto outAsset r.cOutSecp receipt.auth)
      let ch ← orPanic (commitmentHashCompressed G.toCrypto r.cOutSecp)
      expect (foldOutput G.toKeccak noteLeaf path receipt.outpoint ch outAsset receipt.auth) : Fold Unit) s
      (fun _ _ => False)
      (fun _ t => AddsNotes V a s (sides.map fun x => amount a (if x.1.direction = 0 then pool.assetB else pool.assetA)
        (wireValue G V x.2.cOutSecp)).sum t) := by
  have hle := sum_zip_le (fun x : SwapBatchIntent × SwapBatchReceipt =>
    amount a (if x.1.direction = 0 then pool.assetB else pool.assetA) (wireValue G V x.2.cOutSecp)) sides dests
  refine wp_mono (forEach_adds (A := False) (c := fun x => amount a (if x.1.1.direction = 0 then pool.assetB else pool.assetA)
    (wireValue G V x.1.2.cOutSecp)) ?_) id (fun _ _ h => h.1) fun _ _ h => h.mono hle
  rintro ⟨⟨it, r⟩, receipt, path⟩ _ t
  simp only [wp_bind, wp_orPanic, wp_expect, implies_true, true_and, commitmentHashCompressed, Option.map_eq_some_iff]
  rintro leaf - _ ⟨pt, hpt, rfl⟩
  rw [wireValue_of_some hpt]
  exact wp_mono (foldOutputTagged_adds (V := V) (a := a)) id (fun _ _ _ => trivial) fun _ _ h => h

theorem foldSwapBatch_gains {spends : List DetectedSpend} (hd : Detected G.toKeccak spends) {e : SwapBatchEnvelope}
    {receipts refunds : List NoteDest} {p p' : List (List Word)} {height : U 64} :
    wp True (foldSwapBatch G e spends receipts refunds p p' height) s
      (fun _ t => t.value G.toCrypto V a ≤ s.value G.toCrypto V a + credit V a spends)
      (fun _ t => t.value G.toCrypto V a ≤ s.value G.toCrypto V a + credit V a spends) := by
  have h0 : s.value G.toCrypto V a ≤ s.value G.toCrypto V a + credit V a spends := by omega
  simp only [foldSwapBatch, wp_bind, wp_check, wp_orThrow, wp_get, h0, implies_true, true_and]
  rintro hlen _ ⟨lo, hi⟩ _ pid _ pool hpool _ ⟨used, anyExpired⟩ hmatch
  simp only [not_or, not_not] at hlen
  obtain ⟨hdirs, hcredit⟩ := batchIntents_credit (V := V) (a := a) hd hmatch
  rw [creditLeft_nil] at hcredit
  -- the intents the loop has matched are all the intents of the envelope
  have hfst : (e.intents.zip (receipts.zip refunds)).map Prod.fst = e.intents :=
    List.map_fst_zip (by simp [hlen])
  have hall : (e.intents.map fun it => amount a (intentAsset pool it) (wireValue G V it.cInSecp)).sum ≤ credit V a spends := by
    rw [← hfst, List.map_map]
    exact hcredit
  have hrefund : wp True (onboardBatchRefunds G pool (e.intents.zip (refunds.zip p'))) s
      (fun _ t => t.value G.toCrypto V a ≤ s.value G.toCrypto V a + credit V a spends)
      (fun _ t => t.value G.toCrypto V a ≤ s.value G.toCrypto V a + credit V a spends) :=
    wp_mono onboardBatchRefunds_adds id (fun _ _ h => (h.mono hall).value G.toCrypto) fun _ _ h => (h.mono hall).value G.toCrypto
  simp only [wp_ite]
  refine ⟨fun _ => hrefund, fun hr => ⟨fun _ => hrefund, fun _ => ?_⟩⟩
  cases hclear : batchClears G e pid pool with
  | none => exact hrefund
  | some x =>
    obtain ⟨newA, newB⟩ := x
    simp only [Bool.not_eq_true', Bool.not_eq_false] at hr
    obtain ⟨hA, hB⟩ := batchClears_covers hG hr hclear
    have hdirs' : ∀ x ∈ e.intents.zip e.receipts, x.1.direction ≤ 1 := by
      intro x hx
      have hx1 : x.1 ∈ e.intents := (List.of_mem_zip hx).1
      rw [← hfst] at hx1
      obtain ⟨y, hy, hyx⟩ := List.mem_map.1 hx1
      rw [← hyx]
      exact hdirs y hy
    have hin := sum_by_direction (a := a) (fun x : SwapBatchIntent × SwapBatchReceipt => x.1.direction)
      (fun x => wireValue G V x.1.cInSecp) pool.assetA pool.assetB hdirs'
    have hout := sum_by_direction (a := a) (fun x : SwapBatchIntent × SwapBatchReceipt => x.1.direction)
      (fun x => wireValue G V x.2.cOutSecp) pool.assetB pool.assetA hdirs'
    have hle := sum_zip_le (fun it => amount a (intentAsset pool it) (wireValue G V it.cInSecp)) e.intents e.receipts
    simp only [intentAsset] at hle hall
    rw [hin] at hle
    simp only [wp_bind]
    refine wp_mono (batchReceipts_adds (V := V) (a := a)) id (fun _ t h => h.elim) fun _ t ht => ?_
    refine wp_setPool fun q hq => (ht.value_setPool G.toCrypto hpool).trans ?_
    rw [hout]
    have hA' := amount_le (a := a) pool.assetA hA
    have hB' := amount_le (a := a) pool.assetB hB
    unfold paidOut paidIn at hA' hB'
    simp only [amount_add] at hA' hB'
    simp only [poolValue, reserveValue, sharesIssued]
    push_cast
    omega

end Batch

end Tacit
