import Mathlib.Algebra.Order.Ring.Nat
import Tacit.Reflection.Independence
import Tacit.Reflection.Value
/-!
# No inflation: notes, kernels and spends

A fold either fails before it adds a note or adds notes worth what its kernels cover (`AddsNotes`). The vin scan
takes the spent notes out of the live set before the dispatch, so their value (`credit`) is what one envelope may
bring back.
-/
namespace Tacit

open Prog

/-! ## Notes -/

section Notes

variable (V : Word → Nat) (a : Word)

/-- `t` is `s` with notes of the asset `a` worth at most `c` more; pools and farms as before. -/
structure AddsNotes (s : ScanReflection) (c : Nat) (t : ScanReflection) : Prop where
  live : t.live.total (fun _ n => (noteValue V a n : Int)) ≤ s.live.total (fun _ n => (noteValue V a n : Int)) + c
  pools : t.pools = s.pools
  farms : t.farmRewards = s.farmRewards

variable {V a} {s t u : ScanReflection} {c d : Nat}

theorem AddsNotes.refl : AddsNotes V a s 0 s := ⟨by simp, rfl, rfl⟩

theorem AddsNotes.mono (h : AddsNotes V a s c t) (hcd : c ≤ d) : AddsNotes V a s d t :=
  ⟨by have := h.live; omega, h.pools, h.farms⟩

theorem AddsNotes.trans (h : AddsNotes V a s c t) (h' : AddsNotes V a t d u) : AddsNotes V a s (c + d) u :=
  ⟨by have := h.live; have := h'.live; push_cast; omega, h'.pools.trans h.pools, h'.farms.trans h.farms⟩

theorem AddsNotes.value (h : AddsNotes V a s c t) (C : Crypto) : t.value C V a ≤ s.value C V a + c := by
  rw [ScanReflection.value_eq, ScanReflection.value_eq, h.pools, h.farms]
  have := h.live
  unfold mapsValue
  omega

/-- Notes, then a new record of a pool. -/
theorem AddsNotes.value_setPool (h : AddsNotes V a s c t) (C : Crypto) {pid : Word} {p q : PoolReserveState}
    (hq : s.pools.get pid = some q) :
    ({ t with pools := t.pools.set pid p } : ScanReflection).value C V a ≤
      s.value C V a + c + poolValue C a pid p - poolValue C a pid q := by
  have := h.value C
  rw [ScanReflection.value_eq] at this ⊢
  dsimp only
  rw [mapsValue_pools_set (h.pools ▸ hq)]
  omega

theorem AddsNotes.value_setFarm (h : AddsNotes V a s c t) (C : Crypto) {id : Word} {st : FarmRewardState}
    (hst : s.farmRewards.get id = some st) (st' : FarmRewardState) :
    ({ t with farmRewards := t.farmRewards.set id st' } : ScanReflection).value C V a ≤
      s.value C V a + c + sharesBonded a st' - sharesBonded a st := by
  have := h.value C
  rw [ScanReflection.value_eq] at this ⊢
  dsimp only
  rw [mapsValue_farms_set (h.farms ▸ hst)]
  omega

theorem AddsNotes.liveInsert {k : Word} {n : LiveNote} (h : s.live.get k = none) :
    AddsNotes V a s (noteValue V a n) { s with live := s.live.set k n } :=
  ⟨by dsimp only; rw [SortedMap.total_set_of_none h], rfl, rfl⟩

theorem AddsNotes.withNote {r k : Word} {n : LiveNote} (h : s.live.get k = none) :
    AddsNotes V a s (noteValue V a n) (s.withNote r k n) :=
  ⟨by unfold ScanReflection.withNote; dsimp only; rw [SortedMap.total_set_of_none h], rfl, rfl⟩

end Notes

section Onboard

variable {G : BatchCrypto} {V : Word → Nat} {a : Word} (hG : Sound G V) {s : ScanReflection}

/-- A note of a commitment on the wire. -/
theorem onboardNote_adds {asset : Word} {c : Bytes} {auth outpoint : Word} {path : List Word} {e e' : String} {v : Nat}
    (hv : ∀ pt, G.decompress c = some pt → pointValue G.toCrypto V pt ≤ v) :
    wp True (onboardNote G.toCrypto asset c auth outpoint path e e') s (fun _ t => AddsNotes V a s 0 t)
      (fun _ t => AddsNotes V a s (amount a asset v) t) := by
  refine wp_onboardNote (fun _ _ => AddsNotes.refl) fun pt r hpt hl => ?_
  exact (AddsNotes.withNote hl).mono (amount_le asset (hv pt hpt))

include hG

/-- A note of a commitment the guest forms itself. -/
theorem onboardNote_pedersen {asset : Word} {v : U 64} {b auth outpoint : Word} {path : List Word} {e e' : String} :
    wp True (onboardNote G.toCrypto asset (G.pedersenCommitCompressed v.val b) auth outpoint path e e') s
      (fun _ t => AddsNotes V a s 0 t) (fun _ t => AddsNotes V a s (amount a asset v.val) t) :=
  onboardNote_adds fun _ hpt => (hG.pedersen hpt).le

theorem onboardAmmRefundNote_adds {asset : Word} {v : U 64} {b auth outpoint : Word} {path : List Word} :
    wp True (onboardAmmRefundNote G.toCrypto asset v b auth outpoint path) s (fun _ t => AddsNotes V a s 0 t)
      (fun _ t => AddsNotes V a s (amount a asset v.val) t) := by
  unfold onboardAmmRefundNote
  simp only [wp_bind, wp_check]
  exact ⟨fun _ => AddsNotes.refl, fun _ => onboardNote_pedersen hG⟩

/-- A pair of notes the guest forms itself. -/
theorem onboardPair_adds {x y : PairedNote} {vA vB : U 64} {rA rB : Word} {pathA pathB : List Word}
    (hx : x.commitment = G.pedersenCommitCompressed vA.val rA) (hy : y.commitment = G.pedersenCommitCompressed vB.val rB) :
    wp True (onboardPair G.toCrypto x y pathA pathB) s (fun _ t => AddsNotes V a s 0 t)
      (fun _ t => AddsNotes V a s (amount a x.asset vA.val + amount a y.asset vB.val) t) := by
  simp only [onboardPair, wp_bind, wp_orThrow, wp_expect, reflectedNoteLeaf, commitmentHashCompressed, Option.map_eq_none_iff,
    Option.map_eq_some_iff, AddsNotes.refl, implies_true, true_and, hx, hy]
  rintro _ ⟨ptA, hptA, rfl⟩ _ ⟨ptA', hptA', rfl⟩ _ ⟨ptB, hptB, rfl⟩ _ ⟨ptB', hptB', rfl⟩
  cases hptA.symm.trans hptA'
  cases hptB.symm.trans hptB'
  refine wp_foldNoteAppend fun r => wp_foldNoteAppend fun r' => wp_liveInsert fun hl => wp_liveInsert fun hl' => ?_
  have h1 : AddsNotes V a s 0 { s with poolRoot := r', noteCount := s.noteCount + 1 + 1 } := ⟨by simp, rfl, rfl⟩
  have hA := hG.pedersen hptA
  have hB := hG.pedersen hptB
  refine ((h1.trans (AddsNotes.liveInsert hl)).trans (AddsNotes.liveInsert hl')).mono ?_
  unfold pointValue at hA hB
  simp only [noteValue, hA, hB]
  omega

theorem lpRefund_adds {x y : LpSide} {pathA pathB : List Word} :
    wp True (lpRefund G.toCrypto x y pathA pathB) s (fun _ t => AddsNotes V a s 0 t)
      (fun _ t => AddsNotes V a s (amount a x.asset x.delta.val + amount a y.asset y.delta.val) t) :=
  onboardPair_adds hG rfl rfl

end Onboard

/-! ## Kernels -/

section Kernels

variable {G : BatchCrypto} {V : Word → Nat} (hG : Sound G V)

/-- The value of an encoded commitment; zero for what is not a point. -/
def wireValue (G : BatchCrypto) (V : Word → Nat) (c : Bytes) : Nat := ((G.decompress c).map (pointValue G.toCrypto V)).getD 0

theorem wireValue_of_some {c : Bytes} {p : Point} (h : G.decompress c = some p) :
    wireValue G V c = pointValue G.toCrypto V p := by
  simp [wireValue, h]

theorem wireValue_mapM {β : Type} (f : β → Bytes) : ∀ {l : List β} {pts : List Point},
    (l.mapM fun x => G.decompress (f x)) = some pts →
    (pts.map (pointValue G.toCrypto V)).sum = (l.map fun x => wireValue G V (f x)).sum ∧
      ∀ p ∈ pts, ∃ x ∈ l, G.decompress (f x) = some p
  | [], pts, h => by cases h; simp
  | c :: l, pts, h => by
    simp only [List.mapM_cons, Option.bind_eq_bind, Option.bind_eq_some_iff, Option.pure_def, Option.some.injEq] at h
    obtain ⟨p, hp, ps, hps, rfl⟩ := h
    obtain ⟨hsum, hmem⟩ := wireValue_mapM f hps
    refine ⟨by simp [hsum, wireValue_of_some hp], ?_⟩
    intro q hq
    rcases List.mem_cons.1 hq with rfl | hq
    · exact ⟨c, by simp, hp⟩
    · obtain ⟨x, hx, hxq⟩ := hmem q hq
      exact ⟨x, by simp [hx], hxq⟩

include hG

theorem cxfer_conserves {asset : Word} {ops : List OutPoint} {ins : List Point} {outputs : List Bytes} {rangeProof sig : Bytes}
    (h : verifyCxferConservation G.toCrypto asset ops ins outputs rangeProof sig = true) :
    (ins.map (pointValue G.toCrypto V)).sum = (outputs.map (wireValue G V)).sum := by
  unfold verifyCxferConservation verifyCxferConservationBurned at h
  cases hm : outputs.mapM G.decompress with
  | none => rw [hm] at h; cases h
  | some outs =>
    rw [hm] at h
    simp only [Bool.and_eq_true] at h
    obtain ⟨hk, hr⟩ := h
    unfold cxferKernelVerify at hk
    rw [hm] at hk
    split at hk
    · cases hk
    · split at hk
      · cases hk
      · have := hG.kernel hk (hG.range hr)
        rw [this, (wireValue_mapM id hm).1]
        simp

theorem swapVar_conserves {asset : Word} {input : OutPoint} {cIn change : Bytes} {total : U 64} {sig : Bytes}
    (h : swapVarKernelVerify G.toCrypto asset input cIn change total sig = true)
    (hchange : isSentinel change = false → ∀ p, G.decompress change = some p → pointValue G.toCrypto V p < 2 ^ 64) :
    wireValue G V cIn = wireValue G V change + total.val := by
  unfold swapVarKernelVerify at h
  dsimp only at h
  cases hin : G.decompress cIn with
  | none => rw [hin] at h; cases h
  | some p =>
    rw [hin] at h
    rw [wireValue_of_some hin]
    cases hs : isSentinel change with
    | true =>
      simp only [hs, if_true] at h
      have := hG.kernel h (by simp)
      simpa [wireValue, hG.sentinel hs] using this
    | false =>
      simp only [hs, Bool.false_eq_true, if_false] at h
      cases hc : G.decompress change with
      | none => rw [hc] at h; cases h
      | some q =>
        rw [hc] at h
        have := hG.kernel h (by simpa using hchange hs q hc)
        simpa [wireValue, hc] using this

theorem lpAdd_conserves {sd : LpSide} {variant : Nat} {pid : Word} {shares : U 64} {c : Bytes} {expiry : U 32}
    (h : sd.kernelOk G.toCrypto variant pid shares c expiry = true) :
    (sd.inputCommitments.map (pointValue G.toCrypto V)).sum = sd.delta.val := by
  unfold LpSide.kernelOk lpAddKernelVerify at h
  split at h
  · cases h
  · split at h
    · cases h
    · simpa using hG.kernel h (by simp)

theorem lpRemove_conserves {pid : Word} {shares dA dB : U 64} {cA cB : Bytes} {ops : List OutPoint} {pts : List Point}
    {refund : Word} {sig : Bytes} (h : lpRemoveKernelVerify G.toCrypto pid shares dA dB cA cB ops pts refund sig = true) :
    (pts.map (pointValue G.toCrypto V)).sum = shares.val := by
  unfold lpRemoveKernelVerify at h
  split at h
  · cases h
  · split at h
    · cases h
    · simpa using hG.kernel h (by simp)

theorem lpBond_conserves {farm lpAsset : Word} {bond : U 64} {ops : List OutPoint} {pts : List Point} {sig : Bytes}
    (h : lpBondKernelVerify G.toCrypto farm lpAsset bond ops pts sig = true) :
    (pts.map (pointValue G.toCrypto V)).sum = bond.val := by
  unfold lpBondKernelVerify at h
  split at h
  · cases h
  · split at h
    · cases h
    · split at h
      · cases h
      · simpa using hG.kernel h (by simp)

end Kernels

/-! ## Spends -/

/-- The commitment of a spent note. -/
def DetectedSpend.point (d : DetectedSpend) : Point := ⟨d.cx, d.cy⟩

/-- What the vin scan finds: openings of notes, one per outpoint. -/
structure Detected (K : Keccak) (spends : List DetectedSpend) : Prop where
  binds : ∀ d ∈ spends, d.note.commitmentHash = commitmentHash K d.cx d.cy
  nodup : (spends.map (·.prev)).Nodup

section Spends

variable {G : BatchCrypto} {V : Word → Nat} {a : Word} {spends ins : List DetectedSpend}

theorem points_of_mapM : ∀ {l : List DetectedSpend} {pts : List Point},
    (l.mapM fun d => G.fromAffineXy d.cx d.cy) = some pts → pts = l.map (·.point)
  | [], pts, h => by cases h; rfl
  | d :: l, pts, h => by
    simp only [List.mapM_cons, Option.bind_eq_bind, Option.bind_eq_some_iff, Option.pure_def, Option.some.injEq] at h
    obtain ⟨p, hp, ps, hps, rfl⟩ := h
    unfold Crypto.fromAffineXy at hp
    split at hp
    · cases hp
      rw [points_of_mapM hps]
      rfl
    · cases hp

theorem Detected.value_point (h : Detected G.toKeccak spends) {d : DetectedSpend} (hd : d ∈ spends) :
    noteValue V a d.note = amount a d.asset (pointValue G.toCrypto V d.point) := by
  unfold noteValue pointValue
  rw [h.binds d hd]
  rfl

/-- Some of the spends, each once. -/
theorem credit_le_of_subset (hsub : ins ⊆ spends) (hnd : (ins.map (·.prev)).Nodup) :
    credit V a ins ≤ credit V a spends := by
  have hp : ins.Subperm spends := List.subperm_of_subset (List.Nodup.of_map _ hnd) hsub
  obtain ⟨l, hl, hs⟩ := hp
  unfold credit
  rw [← (hl.map fun d => noteValue V a d.note).sum_eq]
  exact (hs.map fun d => noteValue V a d.note).sum_le_sum (by simp)

/-- Spends of one asset, by their commitments. -/
theorem credit_eq_points (h : Detected G.toKeccak spends) (hsub : ins ⊆ spends) {asset : Word}
    (hasset : ∀ d ∈ ins, d.asset = asset) {pts : List Point} (hpts : (ins.mapM fun d => G.fromAffineXy d.cx d.cy) = some pts) :
    credit V a ins = amount a asset (pts.map (pointValue G.toCrypto V)).sum := by
  rw [points_of_mapM hpts, List.map_map, amount_sum]
  unfold credit
  congr 1
  refine List.map_congr_left fun d hd => ?_
  rw [h.value_point (hsub hd), hasset d hd]
  rfl

theorem credit_filter : ∀ spends : List DetectedSpend, credit V a (spends.filter (·.asset == a)) = credit V a spends
  | [] => rfl
  | d :: l => by
    have ih := credit_filter l
    unfold credit noteValue amount DetectedSpend.asset at ih ⊢
    by_cases hd : d.note.asset = a <;> simp [hd, ih]

/-- The spends `collect` finds are all there are of the asset. -/
theorem collect_value (h : Detected G.toKeccak spends) {x : Word} {pts : List Point} (hc : (collect G spends x).2 = some pts) :
    amount a x (pts.map (pointValue G.toCrypto V)).sum = amount a x (credit V a spends) := by
  by_cases hx : x = a
  · subst hx
    rw [← credit_eq_points h (List.filter_subset_self _) (by simp) hc, credit_filter]
    simp [amount]
  · simp [amount, hx]

end Spends

/-! ## The vin scan -/

section Vin

variable {C : Crypto} {V : Word → Nat} {a : Word}

/-- The scan takes out of the live set what it returns. -/
theorem scanTxSpends_takes (cb : Word) : ∀ {ins : List OutPoint} {o : List (Word × Word)} {s t : ScanReflection}
    {spends : List DetectedSpend}, scanTxSpends C cb ins o s = .ok spends t →
    (∀ d ∈ spends, d.note.commitmentHash = commitmentHash C.toKeccak d.cx d.cy) ∧ (spends.map (·.prev)).Sublist ins ∧
      t.value C V a + credit V a spends = s.value C V a
  | [], o, s, t, spends, h => by
    obtain ⟨rfl, rfl⟩ := pure_eq_ok.1 h
    simp [credit]
  | op :: ins, o, s, t, spends, h => by
    unfold scanTxSpends at h
    simp only [bind_eq_ok, get_eq_ok] at h
    obtain ⟨_, s, ⟨rfl, rfl⟩, h⟩ := h
    cases hl : s.live.get (outpointKey C.toKeccak op) with
    | none =>
      rw [hl] at h
      obtain ⟨hb, hs, hv⟩ := scanTxSpends_takes cb h
      exact ⟨hb, hs.cons _, hv⟩
    | some n =>
      rw [hl] at h
      cases o with
      | nil => cases h
      | cons xy o =>
        obtain ⟨cx, cy⟩ := xy
        simp only [bind_eq_ok, orPanic_eq_ok, pure_eq_ok, liveRemove, get_eq_ok, modify_eq_ok] at h
        obtain ⟨nu, _, ⟨hnu, rfl⟩, _, u, ⟨_, _, ⟨rfl, rfl⟩, _, _, ⟨-, rfl⟩, rfl⟩, ds, t', hrest, rfl, rfl⟩ := h
        obtain ⟨hb, hs, hv⟩ := scanTxSpends_takes cb hrest
        have hbind : n.commitmentHash = commitmentHash C.toKeccak cx cy := by
          unfold bindSpentNoteBound bindSpentNote at hnu
          split at hnu <;> split at hnu <;> simp_all
        refine ⟨?_, by simpa using hs.cons_cons op, ?_⟩
        · intro d hd
          rcases List.mem_cons.1 hd with rfl | hd
          · exact hbind
          · exact hb d hd
        · rw [ScanReflection.value_eq, ScanReflection.value_eq] at hv ⊢
          dsimp only at hv
          rw [mapsValue_live_erase hl] at hv
          simp only [credit, List.map_cons, List.sum_cons] at hv ⊢
          rw [Nat.cast_add]
          omega

end Vin

section Vin

variable {G : BatchCrypto} {ctx : ScanCtx} {V : Word → Nat} {a : Word}

theorem scanVin_takes {tx : Tx} (hnd : tx.inputs.Nodup) {w : TxWitness} {s u : ScanReflection} {spends : List DetectedSpend}
    (h : scanVin G ctx tx w s = .ok spends u) :
    Detected G.toKeccak spends ∧ u.value G.toCrypto V a + credit V a spends = s.value G.toCrypto V a := by
  simp only [scanVin, bind_eq_ok, expect_eq_ok, pure_eq_ok] at h
  obtain ⟨ds, v, hscan, _, v₁, hredeem, _, v₂, hlocks, _, v₃, hspents, rfl, rfl⟩ := h
  obtain ⟨hb, hs, hv⟩ := scanTxSpends_takes (V := V) (a := a) ctx.chainBinding hscan
  refine ⟨⟨hb, hs.nodup hnd⟩, ?_⟩
  have h1 : _ = _ := Within.of_ok (R := Same (ScanReflection.value G.toCrypto V a)) (fixes_scanCbtcRedeem (fun _ _ _ => rfl) tx spends) hredeem
  have h2 : _ = _ := Within.of_ok (R := Same (ScanReflection.value G.toCrypto V a)) (fixes_foldCbtcLockSpends (fun _ _ _ => rfl) tx.inputs) hlocks
  have h3 : _ = _ := Within.of_ok (R := Same (ScanReflection.value G.toCrypto V a)) (fixes_scanSpents (fun _ _ _ => rfl) spends w.spents) hspents
  omega

end Vin

/-! ## Transfers -/

section Transfers

variable {G : BatchCrypto} {V : Word → Nat} {a : Word} {s : ScanReflection}

/-- A loop adds what its rounds add; `A` is false if no round can fail. -/
theorem forEach_adds {A : Prop} {β : Type} {m : β → Fold Unit} {c : β → Nat} : ∀ {l : List β} {s : ScanReflection},
    (∀ b ∈ l, ∀ s, wp True (m b) s (fun _ t => A ∧ AddsNotes V a s 0 t) (fun _ t => AddsNotes V a s (c b) t)) →
    wp True (forEach l m) s (fun _ t => A ∧ AddsNotes V a s (l.map c).sum t) (fun _ t => AddsNotes V a s (l.map c).sum t)
  | [], s, _ => AddsNotes.refl
  | b :: l, s, h => by
    rw [forEach, wp_bind']
    refine wp_mono (h b (by simp) s) id (fun _ _ h => ⟨h.1, h.2.mono (Nat.zero_le _)⟩) fun _ t ht => ?_
    have hl := forEach_adds (l := l) (s := t) fun b' hb' => h b' (by simp [hb'])
    refine wp_mono hl id (fun _ _ h => ⟨h.1, ?_⟩) fun _ _ h => ?_
    · simpa using ht.trans h.2
    · simpa using ht.trans h

theorem foldOutputTagged_adds {bound : Bool} {leaf outpoint ch asset auth : Word} {path : List Word} :
    wp True (foldOutputTagged G.toKeccak bound leaf path outpoint ch asset auth) s (fun _ t => AddsNotes V a s 0 t)
      (fun _ t => AddsNotes V a s (amount a asset (V ch)) t) := by
  simp only [foldOutputTagged, foldNoteAppend, wp_bind, wp_get, wp_orThrow, wp_modify, AddsNotes.refl, implies_true, true_and]
  intro r _
  refine wp_liveInsert fun hl => ?_
  exact AddsNotes.withNote (V := V) (a := a) (s := s) (r := r) (n := ⟨ch, asset, auth, bound⟩) hl

/-- One output note of a transfer. -/
theorem output_adds {target : Option Word} {asset : Word} {c : Bytes} {auth outpoint : Word} {path : List Word} {e : String} :
    wp True (do
      let noteLeaf ← orThrow (match target with
        | none => reflectedNoteLeaf G.toCrypto asset c auth
        | some t => reflectedNoteLeafBound G.toCrypto asset c auth t) e
      let ch ← orThrow (commitmentHashCompressed G.toCrypto c) e
      foldOutputTagged G.toKeccak target.isSome noteLeaf path outpoint ch asset auth) s (fun _ t => AddsNotes V a s 0 t)
      (fun _ t => AddsNotes V a s (amount a asset (wireValue G V c)) t) := by
  simp only [wp_bind, wp_orThrow, AddsNotes.refl, implies_true, true_and, commitmentHashCompressed, Option.map_eq_some_iff]
  rintro leaf - _ ⟨pt, hpt, rfl⟩
  rw [wireValue_of_some hpt]
  exact foldOutputTagged_adds

/-- What comes first in a zip is a prefix of the list. -/
theorem sum_zip_le {β γ : Type} (f : β → Nat) : ∀ (l : List β) (l' : List γ),
    ((l.zip l').map fun x => f x.1).sum ≤ (l.map f).sum
  | [], _ => by simp
  | _ :: _, [] => by simp
  | b :: l, _ :: l' => by
    have := sum_zip_le f l l'
    simp only [List.zip_cons_cons, List.map_cons, List.sum_cons]
    omega

/-- The three transfer branches bring back at most the spends they cover. -/
theorem scanTransfer_gains {spends ins : List DetectedSpend} (hd : Detected G.toKeccak spends) (hsub : ins ⊆ spends)
    (hnd : (ins.map (·.prev)).Nodup) {tx : Tx} {w : TxWitness} {asset : Word} {commitments : List Bytes}
    {vouts : Option (List Nat)} {admissible : Bool} {rangeProof sig : Bytes}
    {fold : List OutPoint → List Point → List Word → List (List Word) → List Nat → List Word → Fold Unit}
    (hfold : ∀ ops pts assets paths vouts auths s, wp True (fold ops pts assets paths vouts auths) s (fun _ _ => True)
      (fun _ t => AddsNotes V a s (amount a asset (pts.map (pointValue G.toCrypto V)).sum) t)) :
    wp True (scanTransfer G tx w ins asset commitments vouts admissible rangeProof sig fold) s (fun _ _ => True)
      (fun _ t => t.value G.toCrypto V a ≤ s.value G.toCrypto V a + credit V a spends) := by
  unfold scanTransfer
  simp only [wp_bind, wp_orPanic, implies_true, true_and]
  intro pts hpts
  cases vouts with
  | none => simp
  | some vouts =>
    simp only [wp_ite, wp_expect, wp_pure]
    refine ⟨fun hc => ?_, fun _ => by omega⟩
    simp only [Bool.and_eq_true, List.all_map, List.all_eq_true, Function.comp_apply, beq_iff_eq] at hc
    refine wp_mono (hfold ..) id (fun _ _ _ => trivial) fun _ t ht => ?_
    have hv := ht.value G.toCrypto
    rw [← credit_eq_points hd hsub hc.1.1.2 hpts] at hv
    have := credit_le_of_subset (V := V) (a := a) hsub hnd
    omega

variable (hG : Sound G V)

include hG

theorem foldCxferTagged_adds {target : Option Word} {what : String} {asset : Word} {ops : List OutPoint} {pts : List Point}
    {assets : List Word} {txid : Word} {outputs : List Bytes} {paths : List (List Word)} {vouts : List Nat} {auths : List Word}
    {rangeProof sig : Bytes} :
    wp True (foldCxferTagged G.toCrypto target what asset ops pts assets txid outputs paths vouts auths rangeProof sig) s
      (fun _ _ => True) (fun _ t => AddsNotes V a s (amount a asset (pts.map (pointValue G.toCrypto V)).sum) t) := by
  unfold foldCxferTagged
  simp only [wp_bind, wp_check, implies_true, true_and]
  intro _ _ _ hcons
  rw [cxfer_conserves hG (by simpa using hcons), amount_sum]
  refine wp_mono (forEach_adds (A := True) (c := fun x => amount a asset (wireValue G V x.1)) ?_) id (fun _ _ _ => trivial)
    fun _ _ h => h.mono (sum_zip_le (fun c => amount a asset (wireValue G V c)) _ _)
  intro x _ t
  exact wp_mono output_adds id (fun _ _ h => ⟨trivial, h⟩) fun _ _ h => h

end Transfers

end Tacit
