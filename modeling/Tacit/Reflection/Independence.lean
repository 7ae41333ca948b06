import Tacit.Reflection.Scan
import Tacit.Reflection.Sets
/-!
# The prover cannot steer an operation that spends live notes

Two runs of the scan of one transaction from one state, on two witness streams: unless one of them panics they
end in the same state. The openings are pinned by the live commitment, the spent-set inserts by the tree
(`ImtSet.insert_unique`), the append paths by the root (`append_unique`); everything else the folds read is on
the chain or in the state.
-/
namespace Tacit

open Prog

/-! ## Appends -/

section Appends

variable {K : Keccak} {s : ScanReflection}

theorem agrees_append (hK : K.Ideal) {ε : Type} (leaf : Word) (p p' : List Word) :
    Agrees s (expect (foldNoteAppend K leaf p) : Prog ScanReflection ε Unit) (expect (foldNoteAppend K leaf p')) := by
  apply Agrees.expect_of_ok
  intro a t a' t' h h'
  obtain ⟨r, hr, rfl⟩ := foldNoteAppend_eq_ok.1 h
  obtain ⟨r', hr', rfl⟩ := foldNoteAppend_eq_ok.1 h'
  rw [append_unique hK hr hr']
  exact ⟨rfl, rfl⟩

theorem agrees_output (hK : K.Ideal) {ε : Type} (bound : Bool) (leaf outpoint ch asset auth : Word) (p p' : List Word) :
    Agrees s (expect (foldOutputTagged K bound leaf p outpoint ch asset auth) : Prog ScanReflection ε Unit)
      (expect (foldOutputTagged K bound leaf p' outpoint ch asset auth)) := by
  simp only [foldOutputTagged, expect_bind]
  exact (agrees_append hK leaf p p').bind fun _ _ _ _ => Agrees.refl

end Appends

/-! ## The folds -/

theorem forall₂_zip_left {α β γ : Type} : ∀ (a : List α) (c : List γ) {p p' : List β}, p.length = p'.length →
    List.Forall₂ (fun x y => x.1 = y.1 ∧ x.2.2 = y.2.2) (a.zip (p.zip c)) (a.zip (p'.zip c))
  | [], _, _, _, _ => .nil
  | _ :: _, [], _, _, _ => by simp
  | x :: a, y :: c, [], [], _ => .nil
  | x :: a, y :: c, u :: p, v :: p', h => .cons ⟨rfl, rfl⟩ (forall₂_zip_left a c (by simpa using h))

theorem forall₂_zip_right {α β γ : Type} : ∀ (a : List α) (b : List β) {p p' : List γ}, p.length = p'.length →
    List.Forall₂ (fun x y => x.1 = y.1 ∧ x.2.1 = y.2.1) (a.zip (b.zip p)) (a.zip (b.zip p'))
  | [], _, _, _, _ => .nil
  | _ :: _, [], _, _, _ => by simp
  | x :: a, y :: b, [], [], _ => .nil
  | x :: a, y :: b, u :: p, v :: p', h => .cons ⟨rfl, rfl⟩ (forall₂_zip_right a b (by simpa using h))

section Folds

variable {C : Crypto} (hK : C.toKeccak.Ideal) {s : ScanReflection}

include hK

theorem agrees_onboardNote (asset : Word) (c : Bytes) (auth outpoint : Word) (p p' : List Word) (e e' : String) :
    Agrees s (onboardNote C asset c auth outpoint p e e') (onboardNote C asset c auth outpoint p' e e') := by
  unfold onboardNote
  refine Agrees.seq fun leaf _ _ => Agrees.seq fun ch _ _ => ?_
  exact agrees_output hK false leaf outpoint ch asset auth p p'

theorem agrees_refund (asset : Word) (cIn : Bytes) (auth outpoint : Word) (p p' : List Word) :
    Agrees s (onboardBtcRefund C asset cIn auth outpoint p) (onboardBtcRefund C asset cIn auth outpoint p') :=
  agrees_onboardNote hK ..

theorem agrees_ammRefund (asset : Word) (value : U 64) (blinding auth outpoint : Word) (p p' : List Word) :
    Agrees s (onboardAmmRefundNote C asset value blinding auth outpoint p)
      (onboardAmmRefundNote C asset value blinding auth outpoint p') :=
  Agrees.seq fun _ _ _ => agrees_onboardNote hK ..

theorem agrees_onboardPair (a b : PairedNote) (pA pB pA' pB' : List Word) :
    Agrees s (onboardPair C a b pA pB) (onboardPair C a b pA' pB') := by
  unfold onboardPair
  refine Agrees.seq fun leafA _ _ => Agrees.seq fun _ _ _ => Agrees.seq fun leafB _ _ => Agrees.seq fun _ _ _ => ?_
  refine (agrees_append hK leafA pA pA').bind fun _ _ _ _ => ?_
  exact (agrees_append hK leafB pB pB').bind fun _ _ _ _ => Agrees.refl

theorem agrees_lpRefund (a b : LpSide) (pA pB pA' pB' : List Word) :
    Agrees s (lpRefund C a b pA pB) (lpRefund C a b pA' pB') := agrees_onboardPair hK ..

theorem agrees_swapVarNotes (e : SwapVarEnvelope) (q : PoolSides) (ch : Word) (receipt change : NoteDest)
    (p p' : List Word) : Agrees s (swapVarNotes C e q ch receipt change p) (swapVarNotes C e q ch receipt change p') := by
  unfold swapVarNotes
  cases reflectedNoteLeaf C q.assetIn e.cChangeOrSentinel change.auth with
  | none => exact Agrees.refl
  | some cLeaf =>
    refine Agrees.seq fun _ _ _ => ?_
    exact (agrees_append hK cLeaf p p').bind fun _ _ _ _ => Agrees.refl

theorem agrees_swapVarTip (e : SwapVarEnvelope) (q : PoolSides) (tip : NoteDest) (p p' : List Word) :
    Agrees s (swapVarTip C e q tip p) (swapVarTip C e q tip p') :=
  Agrees.ite (fun _ => agrees_onboardNote hK ..) fun _ => Agrees.refl

theorem agrees_swapVarSettle (pool : PoolReserveState) (e : SwapVarEnvelope) (q : PoolSides) (deltaOut : U 64)
    (receipt change tip : NoteDest) (p p₂ p₃ p' p₂' p₃' : List Word) :
    Agrees s (swapVarSettle C pool e q deltaOut receipt change tip p p₂ p₃)
      (swapVarSettle C pool e q deltaOut receipt change tip p' p₂' p₃') := by
  unfold swapVarSettle
  refine Agrees.seq fun _ _ _ => Agrees.seq fun _ _ _ => Agrees.seq fun _ _ _ => Agrees.seq fun leaf _ _ => ?_
  refine Agrees.seq fun _ _ _ => (agrees_append hK leaf p p').bind fun _ _ _ _ => ?_
  refine (agrees_swapVarNotes hK ..).bind fun _ _ _ _ => ?_
  exact (agrees_swapVarTip hK ..).bind fun _ _ _ _ => Agrees.refl

theorem agrees_foldSwapVar (pool : PoolReserveState) (e : SwapVarEnvelope) (input : OutPoint) (inputAsset : Word)
    (receipt change refund tip : NoteDest) (p p₂ p₃ p' p₂' p₃' : List Word) (height : U 64) :
    Agrees s (foldSwapVar C pool e input inputAsset receipt change refund tip p p₂ p₃ height)
      (foldSwapVar C pool e input inputAsset receipt change refund tip p' p₂' p₃' height) := by
  unfold foldSwapVar
  refine Agrees.seq fun _ _ _ => Agrees.ite (fun _ => ?_) fun _ => Agrees.seq fun ⟨q, deltaOut⟩ _ _ => ?_
  · exact (agrees_refund hK ..).bind fun _ _ _ _ => Agrees.refl
  · refine Agrees.ite (fun _ => ?_) fun _ => agrees_swapVarSettle hK ..
    exact (agrees_refund hK ..).bind fun _ _ _ _ => Agrees.refl

theorem agrees_foldSwapRoute (e : SwapRouteEnvelope) (input : OutPoint) (inputAsset : Word) (receipt refund : NoteDest)
    (p p' : List Word) (height : U 64) :
    Agrees s (foldSwapRoute C e input inputAsset receipt refund p height)
      (foldSwapRoute C e input inputAsset receipt refund p' height) := by
  unfold foldSwapRoute
  refine Agrees.seq fun _ _ _ => Agrees.seq fun _ _ _ => Agrees.seq fun _ _ _ => Agrees.seq fun _ _ _ => ?_
  refine Agrees.seq fun _ _ _ => Agrees.seq fun _ _ _ => Agrees.ite (fun _ => agrees_refund hK ..) fun _ => ?_
  refine Agrees.seq fun _ _ _ => Agrees.seq fun _ _ _ => Agrees.ite (fun _ => agrees_refund hK ..) fun _ => ?_
  exact Agrees.seq fun _ _ _ => (agrees_onboardNote hK ..).bind fun _ _ _ _ => Agrees.refl

theorem agrees_foldLpAdd (e : LpAddEnvelope) (poolId : Word) (a b : LpSide) (c0 : Bool) (height : U 64)
    (pA pB pA' pB' : List Word) :
    Agrees s (foldLpAdd C e poolId a b c0 height pA pB) (foldLpAdd C e poolId a b c0 height pA' pB') := by
  unfold foldLpAdd
  refine Agrees.seq fun _ _ _ => Agrees.seq fun _ _ _ => Agrees.seq fun _ _ _ => Agrees.ite (fun _ => ?_) fun _ => ?_
  · refine Agrees.seq fun _ _ _ => Agrees.seq fun _ _ _ => ?_
    exact Agrees.ite (fun _ => agrees_lpRefund hK ..) fun _ => Agrees.refl
  · refine Agrees.ite (fun _ => ?_) fun _ => Agrees.refl
    refine Agrees.seq fun _ _ _ => Agrees.seq fun _ _ _ => Agrees.seq fun _ _ _ => Agrees.seq fun _ _ _ => ?_
    refine Agrees.seq fun _ _ _ => Agrees.seq fun _ _ _ => ?_
    exact Agrees.ite (fun _ => agrees_lpRefund hK ..) fun _ => Agrees.refl

theorem agrees_foldLpShareMint {ε : Type} (poolId : Word) (shares : U 64) (c : Bytes) (r : Word) (p p' : List Word)
    (outpoint auth : Word) :
    Agrees s (expect (foldLpShareMint C poolId shares c r p outpoint auth) : Prog ScanReflection ε Unit)
      (expect (foldLpShareMint C poolId shares c r p' outpoint auth)) := by
  simp only [foldLpShareMint, expect_bind]
  refine Agrees.seq fun _ _ _ => Agrees.seq fun _ _ _ => Agrees.seq fun _ _ _ => Agrees.seq fun leaf _ _ => ?_
  exact Agrees.seq fun _ _ _ => agrees_output hK ..

theorem agrees_foldLpRemove (poolId : Word) (shareAmount dA dB : U 64) (cA : Bytes) (rA : Word) (cB : Bytes) (rB : Word)
    (ops : List OutPoint) (pts : List Point) (sig : Bytes) (recvA recvB refund : NoteDest)
    (p p₂ p₃ p' p₂' p₃' : List Word) :
    Agrees s (foldLpRemove C poolId shareAmount dA dB cA rA cB rB ops pts sig recvA recvB refund p p₂ p₃)
      (foldLpRemove C poolId shareAmount dA dB cA rA cB rB ops pts sig recvA recvB refund p' p₂' p₃') := by
  unfold foldLpRemove
  refine Agrees.seq fun _ _ _ => Agrees.seq fun _ _ _ => Agrees.seq fun _ _ _ => Agrees.seq fun _ _ _ => ?_
  refine Agrees.seq fun _ _ _ => Agrees.seq fun _ _ _ => Agrees.seq fun _ _ _ => Agrees.seq fun _ _ _ => ?_
  refine Agrees.ite (fun _ => agrees_onboardNote hK ..) fun _ => ?_
  exact (agrees_onboardPair hK ..).bind fun _ _ _ _ => Agrees.refl

theorem agrees_foldFarmInit (e : FarmInitEnvelope) (farmId : Word) (input : OutPoint) (cIn : Bytes) (c0 : Bool)
    (outpoint : Word) (p p' : List Word) :
    Agrees s (foldFarmInit C e farmId input cIn c0 outpoint p) (foldFarmInit C e farmId input cIn c0 outpoint p') := by
  unfold foldFarmInit
  refine Agrees.seq fun _ _ _ => Agrees.seq fun _ _ _ => Agrees.seq fun _ _ _ => Agrees.seq fun _ _ _ => ?_
  refine Agrees.ite (fun _ => ?_) fun _ => Agrees.refl
  exact (agrees_ammRefund hK ..).bind fun _ _ _ _ => Agrees.refl

theorem agrees_foldLpBond (farmId : Word) (shares : U 64) (owner nonce : Word) (p p' : List Word)
    (blinding dest outpoint : Word) :
    Agrees s (foldLpBond C farmId shares owner nonce p blinding dest outpoint)
      (foldLpBond C farmId shares owner nonce p' blinding dest outpoint) := by
  unfold foldLpBond
  refine Agrees.seq fun s _ _ => Agrees.seq fun st _ _ => Agrees.seq fun _ _ _ => ?_
  have hrefund : ∀ t, Agrees t
      (do onboardAmmRefundNote C st.lpAsset shares blinding dest outpoint p; pure (0 : Word))
      (do onboardAmmRefundNote C st.lpAsset shares blinding dest outpoint p'; pure (0 : Word)) :=
    fun t => (agrees_ammRefund hK ..).bind fun _ _ _ _ => Agrees.refl
  cases st.bond shares s.height with
  | none => exact hrefund _
  | some x =>
    refine Agrees.ite (fun _ => hrefund _) fun _ => ?_
    exact (agrees_append hK ..).bind fun _ _ _ _ => Agrees.refl

theorem agrees_foldCxferTagged {ε : Type} (target : Option Word) (what : String) (asset : Word) (ops : List OutPoint)
    (pts : List Point) (assets : List Word) (txid : Word) (outputs : List Bytes) {paths paths' : List (List Word)}
    (hl : paths.length = paths'.length) (vouts : List Nat) (auths : List Word) (rangeProof sig : Bytes) :
    Agrees s (expect (foldCxferTagged C target what asset ops pts assets txid outputs paths vouts auths rangeProof sig) :
        Prog ScanReflection ε Unit)
      (expect (foldCxferTagged C target what asset ops pts assets txid outputs paths' vouts auths rangeProof sig)) := by
  simp only [foldCxferTagged, expect_bind, expect_forEach]
  refine (Agrees.check (by rw [hl])).expect.bind fun _ _ _ _ => Agrees.seq fun _ _ _ => Agrees.seq fun _ _ _ => Agrees.seq fun _ t _ => ?_
  refine Agrees.forEach ((forall₂_zip_left outputs (vouts.zip auths) hl).imp ?_) t
  rintro ⟨c, path, vout, auth⟩ ⟨c', path', vout', auth'⟩ ⟨hc, hv⟩ t
  cases hc
  cases hv
  exact Agrees.seq fun _ _ _ => Agrees.seq fun _ _ _ => agrees_output hK ..

end Folds

section Batch

variable {G : BatchCrypto} (hK : G.toKeccak.Ideal) {s : ScanReflection}

include hK

theorem agrees_batchRefunds (pool : PoolReserveState) (intents : List SwapBatchIntent) (refunds : List NoteDest)
    {paths paths' : List (List Word)} (hl : paths.length = paths'.length) :
    Agrees s (onboardBatchRefunds G pool (intents.zip (refunds.zip paths)))
      (onboardBatchRefunds G pool (intents.zip (refunds.zip paths'))) := by
  refine Agrees.forEach ((forall₂_zip_right intents refunds hl).imp ?_) s
  rintro ⟨it, refund, path⟩ ⟨it', refund', path'⟩ ⟨hi, hr⟩ t
  cases hi
  cases hr
  exact agrees_onboardNote hK ..

theorem agrees_foldSwapBatch (e : SwapBatchEnvelope) (spends : List DetectedSpend) (receipts refunds : List NoteDest)
    {p p' q q' : List (List Word)} (hp : p.length = p'.length) (hq : q.length = q'.length) (height : U 64) :
    Agrees s (foldSwapBatch G e spends receipts refunds p q height)
      (foldSwapBatch G e spends receipts refunds p' q' height) := by
  unfold foldSwapBatch
  refine (Agrees.check (by rw [hp, hq])).bind fun _ _ _ _ => Agrees.seq fun _ _ _ => Agrees.seq fun ⟨lo, hi⟩ _ _ => Agrees.seq fun poolId _ _ => ?_
  refine Agrees.seq fun _ _ _ => Agrees.seq fun pool _ _ => Agrees.seq fun _ _ _ => Agrees.seq fun ⟨used, late⟩ _ _ => ?_
  have hrefund : ∀ t, Agrees t (onboardBatchRefunds G pool (e.intents.zip (refunds.zip q)))
      (onboardBatchRefunds G pool (e.intents.zip (refunds.zip q'))) := fun t => agrees_batchRefunds hK _ _ _ hq
  refine Agrees.ite (fun _ => hrefund _) fun _ => Agrees.ite (fun _ => hrefund _) fun _ => ?_
  cases batchClears G e poolId pool with
  | none => exact hrefund _
  | some x =>
    refine (Agrees.forEach ((forall₂_zip_right _ receipts hp).imp ?_) _).bind fun _ _ _ _ => Agrees.refl
    rintro ⟨⟨it, r⟩, receipt, path⟩ ⟨⟨it', r'⟩, receipt', path'⟩ ⟨hi, hr⟩ t
    cases hi
    cases hr
    exact Agrees.seq fun _ _ _ => Agrees.seq fun _ _ _ => agrees_output hK ..

end Batch

/-! ## The spends -/

section Spends

variable {C : Crypto} (hK : C.toKeccak.Ideal)

include hK

theorem bind_of_opening {n : LiveNote} {cx cy cx' cy' chainBinding nu nu' : Word}
    (h : (if n.bound then bindSpentNoteBound C.toKeccak n.commitmentHash n.asset cx cy n.authKey chainBinding
      else bindSpentNote C.toKeccak n.commitmentHash n.asset cx cy n.authKey) = some nu)
    (h' : (if n.bound then bindSpentNoteBound C.toKeccak n.commitmentHash n.asset cx' cy' n.authKey chainBinding
      else bindSpentNote C.toKeccak n.commitmentHash n.asset cx' cy' n.authKey) = some nu') : cx = cx' ∧ cy = cy' := by
  have hc : commitmentHash C.toKeccak cx cy = n.commitmentHash := by
    unfold bindSpentNoteBound bindSpentNote at h
    by_contra hc
    simp [hc] at h
  have hc' : commitmentHash C.toKeccak cx' cy' = n.commitmentHash := by
    unfold bindSpentNoteBound bindSpentNote at h'
    by_contra hc
    simp [hc] at h'
  exact commitmentHash_inj hK (hc.trans hc'.symm)

/-- A live commitment has one opening, so the detected spends are the transaction's. -/
theorem agrees_scanTxSpends (chainBinding : Word) : ∀ (ins : List OutPoint) (o o' : List (Word × Word)) {s : ScanReflection},
    Agrees s (scanTxSpends C chainBinding ins o) (scanTxSpends C chainBinding ins o')
  | [], _, _, _ => Agrees.refl
  | op :: ins, o, o', s => by
    unfold scanTxSpends
    refine Agrees.seq fun u t _ => ?_
    cases u.live.get (outpointKey C.toKeccak op) with
    | none => exact agrees_scanTxSpends chainBinding ins o o'
    | some n =>
      match o, o' with
      | [], _ => exact Or.inl rfl
      | _ :: _, [] => exact Or.inr (Or.inl rfl)
      | (cx, cy) :: o, (cx', cy') :: o' =>
        -- unless one of the two runs stops here, the openings are equal
        by_cases hc : cx = cx' ∧ cy = cy'
        · obtain ⟨rfl, rfl⟩ := hc
          refine Agrees.seq fun nu _ _ => Agrees.seq fun _ _ _ => ?_
          exact (agrees_scanTxSpends chainBinding ins o o').bind fun _ _ _ _ => Agrees.refl
        · refine (Agrees.orPanic fun nu nu' h h' => absurd (bind_of_opening hK h h') hc).bind fun nu t h h' => ?_
          simp only [orPanic_eq_ok] at h h'
          exact absurd (bind_of_opening hK h.1 h'.1) hc

end Spends

section Scan

variable {G : BatchCrypto} {B : Chain} {ctx : ScanCtx} {s t : ScanReflection}

/-- What `foldSpentOrMember` leaves: nothing for a member, the new root for a new key. -/
def RetiresTo (K : Keccak) (nu : Word) (w : SpentInsert) (s t : ScanReflection) : Prop :=
  (w.lowValue = nu ∧ imtMembership K s.spentRoot nu w.lowNext w.lowIndex w.lowPath = true ∧ t = s) ∨
  (w.lowValue ≠ nu ∧ ∃ r, w.Accepted K s.spentRoot s.spentCount nu r ∧
    t = { s with spentRoot := r, spentCount := s.spentCount + 1 })

theorem foldSpentOrMember_eq_ok {nu : Word} {w : SpentInsert} {a : Unit} :
    foldSpentOrMember G nu w s = .ok a t ↔ RetiresTo G.toKeccak nu w s t := by
  unfold foldSpentOrMember RetiresTo
  by_cases h : w.lowValue = nu
  · simp [h, and_comm]
  · simp [h, foldSpent_eq_ok]

/-- Retiring a nullifier leaves it in the spent set, once. -/
theorem ScanReflection.Spent.retire (hK : G.toKeccak.Ideal) {S : List Word} (hS : s.Spent G.toKeccak S) {nu : Word}
    {w : SpentInsert} {a : Unit} (h : foldSpentOrMember G nu w s = .ok a t) :
    ∃ S', t.Spent G.toKeccak S' := by
  rcases foldSpentOrMember_eq_ok.1 h with ⟨-, -, rfl⟩ | ⟨-, r, hr, rfl⟩
  · exact ⟨S, hS⟩
  · exact ⟨_, (ImtSet.insert hK hS hr).2⟩

/-- One nullifier has one way to be retired. -/
theorem RetiresTo.unique (hK : G.toKeccak.Ideal) {S : List Word} (hS : s.Spent G.toKeccak S) {nu : Word}
    {w w' : SpentInsert} {t t' : ScanReflection} (h : RetiresTo G.toKeccak nu w s t)
    (h' : RetiresTo G.toKeccak nu w' s t') : t = t' := by
  -- a member has no accepted insert
  have hex : ∀ {next : Word} {i : Nat} {path : List Word} {w : SpentInsert} {r : Word},
      imtMembership G.toKeccak s.spentRoot nu next i path = true →
      w.Accepted G.toKeccak s.spentRoot s.spentCount nu r → False := by
    intro next i path w r hm hr
    have hn := (ImtSet.insert hK hS hr).1
    rcases ImtSet.mem hK hS hm with h0 | hin
    · exact hn.1 h0
    · exact hn.2 hin
  rcases h with ⟨-, hm, rfl⟩ | ⟨-, r, hr, rfl⟩ <;> rcases h' with ⟨-, hm', rfl⟩ | ⟨-, r', hr', rfl⟩
  · rfl
  · exact (hex hm hr').elim
  · exact (hex hm' hr).elim
  · rw [ImtSet.insert_unique hK hS hr hr']

theorem agrees_foldSpentOrMember (hK : G.toKeccak.Ideal) {S : List Word} (hS : s.Spent G.toKeccak S) (nu : Word)
    (w w' : SpentInsert) : Agrees s (foldSpentOrMember G nu w) (foldSpentOrMember G nu w') := by
  have hw : ∀ w, wp True (foldSpentOrMember G nu w) s (fun _ _ => False) (fun _ t => RetiresTo G.toKeccak nu w s t) := by
    intro w
    refine wp_mono (wp_iff_ok.2 fun _ t h => foldSpentOrMember_eq_ok.1 h) id (fun e _ _ => e.elim) fun _ _ h => h
  exact Agrees.of_wp (hw w) (hw w') fun _ _ _ _ h h' => ⟨rfl, h.unique hK hS h'⟩

theorem agrees_scanSpents (hK : G.toKeccak.Ideal) : ∀ (ds : List DetectedSpend) (ws ws' : List SpentInsert)
    {s : ScanReflection} {S : List Word}, s.Spent G.toKeccak S → Agrees s (scanSpents G ds ws) (scanSpents G ds ws')
  | [], _, _, _, _, _ => Agrees.refl
  | _ :: _, [], _, _, _, _ => Or.inl rfl
  | _ :: _, _ :: _, [], _, _, _ => Or.inr (Or.inl rfl)
  | d :: ds, w :: ws, w' :: ws', s, S, hS => by
    refine (agrees_foldSpentOrMember hK hS d.nu w w').bind fun _ t h _ => ?_
    obtain ⟨S', hS'⟩ := hS.retire hK h
    exact agrees_scanSpents hK ds ws ws' hS'

/-! ## The vin scan -/

section Vin

variable {γ : Type} {f : ScanReflection → γ}

/-- The openings write the live set only. -/
theorem fixes_scanTxSpends {C : Crypto} (hf : ∀ (s : ScanReflection) live, f { s with live := live } = f s)
    (chainBinding : Word) : ∀ (ins : List OutPoint) (o : List (Word × Word)),
    Fixes f (scanTxSpends C chainBinding ins o)
  | [], _ => Within.pure
  | op :: ins, o => by
    unfold scanTxSpends
    refine Within.get.bind fun u => ?_
    cases u.live.get (outpointKey C.toKeccak op) with
    | none => exact fixes_scanTxSpends hf chainBinding ins o
    | some n =>
      cases o with
      | nil => exact Within.panic
      | cons c o =>
        have hremove : Fixes f (liveRemove (outpointKey C.toKeccak op)) :=
          Within.get.bind fun _ => Within.orPanic.bind fun _ => Within.modify fun _ => hf ..
        refine Within.orPanic.bind fun _ => hremove.bind fun _ => ?_
        exact (fixes_scanTxSpends hf chainBinding ins o).bind fun _ => Within.pure

variable (hf : ∀ (s : ScanReflection) locks sats, f { s with cbtcLocks := locks, cbtcBackingSats := sats } = f s)

include hf

/-- The cBTC folds write the lock registry only. -/
theorem fixes_foldCbtcLockSpends {C : Crypto} : ∀ inputs : List OutPoint, Fixes f (foldCbtcLockSpends C inputs)
  | [] => Within.pure
  | op :: inputs => by
    unfold foldCbtcLockSpends
    refine Within.get.bind fun u => ?_
    cases u.cbtcLocks.get (outpointKey C.toKeccak op) with
    | none => exact fixes_foldCbtcLockSpends inputs
    | some v =>
      refine Within.bind (Within.modify fun _ => hf ..) fun _ => ?_
      exact (fixes_foldCbtcLockSpends inputs).bind fun _ => Within.pure

theorem fixes_scanCbtcRedeem (tx : Tx) (spends : List DetectedSpend) : Fixes f (scanCbtcRedeem G tx spends) := by
  unfold scanCbtcRedeem
  split
  · refine Within.bind (Within.attempt ?_) fun _ => Within.pure
    unfold foldCbtcRedeem
    refine Within.check.bind fun _ => Within.check.bind fun _ => Within.get.bind fun _ => Within.orThrow.bind fun _ => ?_
    refine Within.check.bind fun _ => Within.check.bind fun _ => ?_
    exact Within.bind (Within.modify fun _ => hf ..) fun _ => Within.pure
  · exact Within.pure

end Vin

theorem fixes_scanSpents {γ : Type} {f : ScanReflection → γ}
    (hf : ∀ (s : ScanReflection) r n, f { s with spentRoot := r, spentCount := n } = f s) :
    ∀ (ds : List DetectedSpend) (ws : List SpentInsert), Fixes f (scanSpents G ds ws)
  | [], _ => Within.pure
  | _ :: _, [] => Within.panic
  | d :: ds, w :: ws => by
    have hfold : Fixes f (foldSpentOrMember G d.nu w) := by
      refine Within.get.bind fun _ => Within.ite (fun _ => Within.assert) fun _ => Within.expect ?_
      exact Within.get.bind fun _ => Within.orThrow.bind fun _ => Within.modify fun _ => hf ..
    exact hfold.bind fun _ => fixes_scanSpents hf ds ws

/-- The vin scan writes the live set, the spent set and the lock registry. -/
theorem fixes_scanVin {γ : Type} {f : ScanReflection → γ} (hl : ∀ (s : ScanReflection) live, f { s with live := live } = f s)
    (hc : ∀ (s : ScanReflection) locks sats, f { s with cbtcLocks := locks, cbtcBackingSats := sats } = f s)
    (hs : ∀ (s : ScanReflection) r n, f { s with spentRoot := r, spentCount := n } = f s) (tx : Tx) (w : TxWitness) :
    Fixes f (scanVin G ctx tx w) := by
  refine Within.bind (Within.expect (fixes_scanTxSpends hl _ _ _)) fun spends => ?_
  refine Within.bind (fixes_scanCbtcRedeem hc _ _) fun _ => ?_
  refine Within.bind (Within.expect (fixes_foldCbtcLockSpends hc _)) fun _ => ?_
  exact Within.bind (fixes_scanSpents hs _ _) fun _ => Within.pure

theorem agrees_scanVin (hK : G.toKeccak.Ideal) {S : List Word} (hS : s.Spent G.toKeccak S) (tx : Tx) (w w' : TxWitness) :
    Agrees s (scanVin G ctx tx w) (scanVin G ctx tx w') := by
  unfold scanVin
  refine (agrees_scanTxSpends hK ctx.chainBinding tx.inputs w.openings w'.openings).expect.bind fun spends u hu _ => ?_
  refine Agrees.seq fun _ u₁ hu₁ => Agrees.seq fun _ u₂ hu₂ => ?_
  -- the spent set is still that of `s`
  have h1 : u.spentSet = s.spentSet := Within.of_ok (Within.expect (fixes_scanTxSpends (fun _ _ => rfl) _ _ _)) hu
  have h2 : u₁.spentSet = u.spentSet := Within.of_ok (fixes_scanCbtcRedeem (fun _ _ _ => rfl) _ _) hu₁
  have h3 : u₂.spentSet = u₁.spentSet := Within.of_ok (Within.expect (fixes_foldCbtcLockSpends (fun _ _ _ => rfl) _)) hu₂
  have hS₂ := hS.congr (h3.trans (h2.trans h1))
  exact (agrees_scanSpents hK spends w.spents w'.spents hS₂).bind fun _ _ _ _ => Agrees.refl

/-! ## The branches -/

theorem agrees_swallow {α : Type} {m m' : Fold α} (h : Agrees s m m') : Agrees s (swallow m) (swallow m') :=
  h.attempt.bind fun _ _ _ _ => Agrees.refl

theorem agrees_succeeds {α : Type} {m m' : Fold α} (h : Agrees s m m') : Agrees s (succeeds m) (succeeds m') :=
  h.attempt.bind fun _ _ _ _ => Agrees.refl

theorem agrees_scanTransfer (tx : Tx) (w w' : TxWitness) (ins : List DetectedSpend) (asset : Word) (cs : List Bytes)
    (vouts : Option (List Nat)) (admissible : Bool) (rangeProof sig : Bytes)
    {fold : List OutPoint → List Point → List Word → List (List Word) → List Nat → List Word → Fold Unit}
    (hf : ∀ ops pts assets vouts auths (p p' : List (List Word)) (t : ScanReflection), p.length = p'.length →
      Agrees t (expect (fold ops pts assets p vouts auths) : Guest Unit) (expect (fold ops pts assets p' vouts auths))) :
    Agrees s (scanTransfer G tx w ins asset cs vouts admissible rangeProof sig fold)
      (scanTransfer G tx w' ins asset cs vouts admissible rangeProof sig fold) := by
  unfold scanTransfer
  refine Agrees.seq fun pts t _ => ?_
  cases vouts with
  | none => exact Agrees.refl
  | some vouts => exact Agrees.ite (fun _ => hf _ _ _ _ _ _ _ t (by simp)) fun _ => Agrees.refl

variable (hK : G.toKeccak.Ideal)

include hK

theorem agrees_scanCxfer (tx : Tx) (w w' : TxWitness) (spends : List DetectedSpend) (e : CxferEnvelope) :
    Agrees s (scanCxfer G tx w spends e) (scanCxfer G tx w' spends e) := by
  unfold scanCxfer
  apply agrees_scanTransfer
  intro ops pts assets vouts auths p p' t hl
  exact agrees_foldCxferTagged hK _ _ _ _ _ _ _ _ hl ..

theorem agrees_scanCxferBound (tx : Tx) (w w' : TxWitness) (spends : List DetectedSpend) (e : CxferBoundEnvelope) :
    Agrees s (scanCxferBound G ctx tx w spends e) (scanCxferBound G ctx tx w' spends e) := by
  unfold scanCxferBound
  apply agrees_scanTransfer
  intro ops pts assets vouts auths p p' t hl
  exact agrees_foldCxferTagged hK _ _ _ _ _ _ _ _ hl ..

theorem agrees_scanBid (tx : Tx) (w w' : TxWitness) (spends : List DetectedSpend) (e : BidEnvelope) :
    Agrees s (scanBid G tx w spends e) (scanBid G tx w' spends e) := by
  unfold scanBid
  apply agrees_scanTransfer
  intro ops pts assets vouts auths p p' t hl
  exact agrees_foldCxferTagged hK _ _ _ _ _ _ _ _ hl ..

theorem agrees_scanSwapVar (tx : Tx) (w w' : TxWitness) (e : SwapVarEnvelope) : ∀ (ds : List DetectedSpend)
    (s : ScanReflection), Agrees s (scanSwapVar G tx w e ds) (scanSwapVar G tx w' e ds)
  | [], _ => Agrees.refl
  | d :: ds, s => by
    have ih := agrees_scanSwapVar tx w w' e ds
    unfold scanSwapVar
    refine Agrees.seq fun u t _ => ?_
    cases cInReal G d e.cIn with
    | false => exact ih _
    | true =>
      cases u.pools.get e.poolId with
      | none => exact ih _
      | some pool =>
        refine (agrees_foldSwapVar hK ..).attempt.bind fun r _ _ _ => ?_
        cases r with
        | ok pool => exact Agrees.refl
        | error _ => exact ih _

theorem agrees_scanSwapRoute (tx : Tx) (w w' : TxWitness) (e : SwapRouteEnvelope) : ∀ (ds : List DetectedSpend)
    (s : ScanReflection), Agrees s (scanSwapRoute G tx w e ds) (scanSwapRoute G tx w' e ds)
  | [], _ => Agrees.refl
  | d :: ds, s => by
    have ih := agrees_scanSwapRoute tx w w' e ds
    unfold scanSwapRoute
    refine Agrees.seq fun u t _ => Agrees.ite (fun _ => ?_) fun _ => ih _
    refine (agrees_succeeds (agrees_foldSwapRoute hK ..)).bind fun ok _ _ _ => ?_
    exact Agrees.ite (fun _ => Agrees.refl) fun _ => ih _

theorem agrees_scanSwapBatch (tx : Tx) (w w' : TxWitness) (spends : List DetectedSpend) (e : SwapBatchEnvelope) :
    Agrees s (scanSwapBatch G tx w spends e) (scanSwapBatch G tx w' spends e) :=
  Agrees.seq fun _ _ _ => agrees_swallow (agrees_foldSwapBatch hK _ _ _ _ (by simp) (by simp) _)

theorem agrees_scanLpShares (tx : Tx) (w w' : TxWitness) (e : LpAddEnvelope) (pid : Word) (prePool : Option PoolReserveState) :
    Agrees s (scanLpShares G tx w e pid prePool) (scanLpShares G tx w' e pid prePool) := by
  refine Agrees.seq fun v _ _ => ?_
  cases v.pools.get pid with
  | none => exact Agrees.refl
  | some p => exact Agrees.ite (fun _ => agrees_foldLpShareMint hK ..) fun _ => Agrees.refl

theorem agrees_scanLpAdd (tx : Tx) (w w' : TxWitness) (spends : List DetectedSpend) (e : LpAddEnvelope) :
    Agrees s (scanLpAdd G tx w spends e) (scanLpAdd G tx w' spends e) := by
  unfold scanLpAdd
  cases ammCanonicalPair e.assetA e.assetB with
  | none => exact Agrees.refl
  | some pair =>
    refine Agrees.seq fun aPts _ _ => Agrees.seq fun bPts _ _ => Agrees.seq fun u t _ => ?_
    dsimp only
    generalize (if e.variant = 1 then _ else _ : Option Word) = poolId
    cases poolId with
    | none => exact Agrees.refl
    | some pid =>
      refine Agrees.ite (fun _ => ?_) fun _ => Agrees.refl
      refine (agrees_succeeds (agrees_foldLpAdd hK ..)).bind fun ok _ _ _ => ?_
      exact Agrees.ite (fun _ => agrees_scanLpShares hK ..) fun _ => Agrees.refl

theorem agrees_scanLpRemovePools (tx : Tx) (w w' : TxWitness) (spends : List DetectedSpend) (e : LpRemoveEnvelope)
    (inOrder : Bool) : ∀ (pids : List Word) (s : ScanReflection),
    Agrees s (scanLpRemovePools G tx w spends e inOrder pids) (scanLpRemovePools G tx w' spends e inOrder pids)
  | [], _ => Agrees.refl
  | pid :: pids, s => by
    have ih := agrees_scanLpRemovePools tx w w' spends e inOrder pids
    unfold scanLpRemovePools
    refine Agrees.seq fun pts _ _ => Agrees.ite (fun _ => ?_) fun _ => ih _
    exact Agrees.ite (fun _ => agrees_swallow (agrees_foldLpRemove hK ..)) fun _ => Agrees.refl

theorem agrees_scanLpRemove (tx : Tx) (w w' : TxWitness) (spends : List DetectedSpend) (e : LpRemoveEnvelope) :
    Agrees s (scanLpRemove G tx w spends e) (scanLpRemove G tx w' spends e) := by
  unfold scanLpRemove
  cases ammCanonicalPair e.assetA e.assetB with
  | none => exact Agrees.refl
  | some pair => exact Agrees.seq fun _ _ _ => agrees_scanLpRemovePools hK ..

theorem agrees_scanFarmInit (tx : Tx) (w w' : TxWitness) (e : FarmInitEnvelope) : ∀ (ds : List DetectedSpend)
    (s : ScanReflection), Agrees s (scanFarmInit G tx w e ds) (scanFarmInit G tx w' e ds)
  | [], _ => Agrees.refl
  | d :: ds, s => by
    have ih := agrees_scanFarmInit tx w w' e ds
    unfold scanFarmInit
    cases decide (d.asset = e.rewardAsset) with
    | false => exact ih _
    | true =>
      cases G.fromAffineXy d.cx d.cy with
      | none => exact ih _
      | some cInPt =>
        refine Agrees.ite (fun _ => ih _) fun _ => Agrees.ite (fun _ => ?_) fun _ => Agrees.refl
        exact (agrees_foldFarmInit hK ..).attempt.bind fun _ _ _ _ => Agrees.refl

theorem agrees_scanLpBond (tx : Tx) (w w' : TxWitness) (spends : List DetectedSpend) (e : LpBondEnvelope) :
    Agrees s (scanLpBond G tx w spends e) (scanLpBond G tx w' spends e) := by
  unfold scanLpBond
  refine Agrees.seq fun u _ _ => ?_
  cases u.farmRewards.get e.farmId with
  | none => exact Agrees.refl
  | some st => exact Agrees.ite (fun _ => agrees_swallow (agrees_foldLpBond hK ..)) fun _ => Agrees.refl

/-- The operations that spend live notes. -/
def Envelope.spendsNotes : Envelope → Bool
  | .cxfer _ | .cxferBound _ | .bid _ | .swapVar _ | .swapRoute _ | .swapBatch _ | .lpAdd _ | .lpRemove _
  | .farmInit _ | .lpBond _ => true
  | _ => false

theorem agrees_scanEnvelope {tx : Tx} {e : Envelope} (he : tx.envelope = some e) (ho : e.spendsNotes = true)
    (w w' : TxWitness) (spends : List DetectedSpend) :
    Agrees s (scanEnvelope G B ctx tx w spends) (scanEnvelope G B ctx tx w' spends) := by
  unfold scanEnvelope
  rw [he]
  cases e with
  | cxfer e => exact agrees_scanCxfer hK ..
  | cxferBound e => exact agrees_scanCxferBound hK ..
  | bid e => exact agrees_scanBid hK ..
  | swapVar e => exact agrees_scanSwapVar hK ..
  | swapRoute e => exact agrees_scanSwapRoute hK ..
  | swapBatch e => exact agrees_scanSwapBatch hK ..
  | lpAdd e => exact agrees_scanLpAdd hK ..
  | lpRemove e => exact agrees_scanLpRemove hK ..
  | farmInit e => exact agrees_scanFarmInit hK ..
  | lpBond e => exact agrees_scanLpBond hK ..
  | _ => cases ho

/-- **Prover independence.** Two witness streams on which the scan of one operation does not panic lead to the
same state. -/
theorem scanTx_prover_independent {S : List Word} (hS : s.Spent G.toKeccak S) {tx : Tx} {e : Envelope}
    (he : tx.envelope = some e) (ho : e.spendsNotes = true) {w w' : TxWitness} {t t' : ScanReflection}
    (h : scanTx G B ctx tx w s = .ok () t) (h' : scanTx G B ctx tx w' s = .ok () t') : t = t' := by
  have hA : Agrees s (scanTx G B ctx tx w) (scanTx G B ctx tx w') :=
    (agrees_scanVin hK hS tx w w').bind fun spends _ _ _ => agrees_scanEnvelope hK he ho w w' spends
  exact (hA.eq_of_ok h h').2

end Scan

/-! ## A transfer with a garbage kernel

The note is spent, the transfer folds to nothing, whatever the append paths are. -/

def curveBatchCrypto (K : Keccak) : BatchCrypto := { curveCrypto K with
  verifyXcurve := fun _ _ _ => false
  groth16Ok := fun _ _ _ _ => false
  aggregateBalances := fun _ _ _ _ _ => false }

def emptyChain : Chain where
  verifyHeaderChain _ := none
  extractMerkleRoot h := Word.ofBytes (h.drop 36)
  verifyMerklePath txid _ _ := txid
  verifyTxWitnessCommitted _ _ _ _ _ _ := false

def emptyInsert : SpentInsert := ⟨0, 0, 0, [], []⟩
def emptyBurnInsert : BurnInsert := ⟨0, 0, 0, 0, [], []⟩

/-- The stream of a transaction that reads openings, inserts and append paths only. -/
def spendWitness (openings : List (Word × Word)) (spents : List SpentInsert) (paths : List (List Word)) : TxWitness where
  openings := openings
  spents := spents
  paths := paths
  burn := emptyBurnInsert
  burnTxCommitted := false
  deposit := ⟨0, 0, emptyInsert, emptyBurnInsert, false, 0, 0, 0, [], [], [], none⟩
  pending := emptyBurnInsert
  crossout := ⟨false, 0, 0, 0, [], [], emptyInsert⟩
  ethMsg := ⟨0, [], emptyInsert⟩
  oldIndex := 0
  oldPath := []
  receiptSpent := emptyInsert

section Garbage

variable (K : Keccak)

def garbageNote : LiveNote := ⟨commitmentHash K secpG.x secpG.y, 0, 0, false⟩

def garbageOutPoint : OutPoint := (0, 0)

def garbageState : ScanReflection :=
  { ScanReflection.genesis K with live := SortedMap.empty.set (outpointKey K garbageOutPoint) (garbageNote K) }

def garbageTx : Tx where
  txid := 0
  inputs := [garbageOutPoint]
  witness := []
  outputs := []
  envelope := some (.bid ⟨0x5B, 0, [], [], [], false⟩)

def zeroCtx : ScanCtx := ⟨0, 0, 0, 0⟩

def garbageSpend : DetectedSpend :=
  ⟨nullifier K (btcNoteLeaf K 0 secpG.x secpG.y 0), garbageOutPoint, secpG.x, secpG.y, garbageNote K⟩

/-- The state after the vin scan: the note is gone. -/
def garbageSpent : ScanReflection :=
  { garbageState K with live := (garbageState K).live.erase (outpointKey K garbageOutPoint) }

variable {K}

theorem garbage_spends : scanTxSpends (curveBatchCrypto K).toCrypto 0 garbageTx.inputs [(secpG.x, secpG.y)] (garbageState K) =
    .ok [garbageSpend K] (garbageSpent K) := by
  simp [scanTxSpends, liveRemove, garbageTx, garbageState, garbageSpent, garbageSpend, garbageNote, bindSpentNote,
    curveBatchCrypto, curveCrypto]

theorem garbage_kernel (asset : Word) (ops : List OutPoint) (pts : List Point) (outs : List Bytes) (proof sig : Bytes) :
    verifyCxferConservation (curveBatchCrypto K).toCrypto asset ops pts outs proof sig = false := by
  unfold verifyCxferConservation verifyCxferConservationBurned cxferKernelVerify
  cases outs.mapM (curveBatchCrypto K).decompress with
  | none => rfl
  | some outPts => simp [curveBatchCrypto, curveCrypto]

theorem garbage_runs (hK : K.Ideal) : ∃ sw : SpentInsert, ∀ paths, ∃ t,
    scanTx (curveBatchCrypto K) emptyChain zeroCtx garbageTx (spendWitness [(secpG.x, secpG.y)] [sw] paths)
      (garbageState K) = .ok () t := by
  have h0 : (garbageSpend K).nu ≠ 0 := hK.kn_ne_zero _
  obtain ⟨sw, r, hr⟩ := (imtSet_empty (K := K)).exists_insert (by simp) h0 (by simp)
  have hsw : foldSpentOrMember (curveBatchCrypto K) (garbageSpend K).nu sw (garbageSpent K) =
      .ok () { garbageSpent K with spentRoot := r, spentCount := 2 } :=
    foldSpentOrMember_eq_ok.2 (Or.inr ⟨hr.low_lt.ne, r, hr, rfl⟩)
  have hspents : scanSpents (curveBatchCrypto K) [garbageSpend K] [sw] (garbageSpent K) =
      .ok () { garbageSpent K with spentRoot := r, spentCount := 2 } := bind_eq_ok.2 ⟨(), _, hsw, rfl⟩
  have hpt : (curveBatchCrypto K).fromAffineXy secpG.x secpG.y = some secpG := by
    have h : secpOnCurve secpG.x secpG.y = true := by decide +kernel
    simp [Crypto.fromAffineXy, curveBatchCrypto, curveCrypto, h]
  refine ⟨sw, fun paths => ⟨{ garbageSpent K with spentRoot := r, spentCount := 2 }, ?_⟩⟩
  have hvin : scanVin (curveBatchCrypto K) zeroCtx garbageTx (spendWitness [(secpG.x, secpG.y)] [sw] paths)
      (garbageState K) = .ok [garbageSpend K] { garbageSpent K with spentRoot := r, spentCount := 2 } := by
    simp only [scanVin, bind_eq_ok, expect_eq_ok]
    exact ⟨_, _, garbage_spends, (), garbageSpent K, rfl, [], garbageSpent K, rfl, (), _, hspents, rfl⟩
  refine bind_eq_ok.2 ⟨_, _, hvin, ?_⟩
  simp [scanEnvelope, garbageTx, scanBid, scanTransfer, hpt, garbageSpend, garbage_kernel]

end Garbage

/-- Two streams with different append paths, one state. -/
theorem scanTx_prover_independent_garbage : ∃ w w' t t', w.paths ≠ w'.paths ∧
    scanTx (curveBatchCrypto codeKeccak) emptyChain zeroCtx garbageTx w (garbageState codeKeccak) = .ok () t ∧
    scanTx (curveBatchCrypto codeKeccak) emptyChain zeroCtx garbageTx w' (garbageState codeKeccak) = .ok () t' ∧
    t = t' := by
  obtain ⟨sw, hsw⟩ := garbage_runs codeKeccak_ideal
  obtain ⟨t, ht⟩ := hsw []
  obtain ⟨t', ht'⟩ := hsw [[0]]
  refine ⟨_, _, t, t', ?_, ht, ht', ?_⟩
  · simp [spendWitness]
  · exact scanTx_prover_independent (G := curveBatchCrypto codeKeccak) codeKeccak_ideal (S := [])
      (s := garbageState codeKeccak) imtSet_empty rfl rfl ht ht'

end Tacit
