import Tacit.Reflection.Farm.Ledger
/-!
# Leaving a farm

A bond is admitted when the stamp map has no entry for its receipt (lib.rs:6116). An unbond clears that entry, and it
spends the receipt's nullifier, for good (lib.rs:6147). So a receipt that has left can be bonded again with the same
shares, owner and nonce, and that position can never leave. As long as no bond reuses a spent receipt, every live
position has its leaf in the note tree and its nullifier unspent, and a signed unbond of it goes through.
-/
namespace Tacit

open Prog FarmRewardState

variable {K : Keccak} {s t : ScanReflection} {r : Receipt} {X S : List Word}

/-- The receipt of every live stamp is a leaf of the note tree, and is not spent. -/
structure Leavable (K : Keccak) (s : ScanReflection) (X S : List Word) : Prop where
  tree : NoteTree K s.poolRoot s.noteCount X
  spent : s.Spent K S
  leaf : ∀ r : Receipt, s.farmEntries.get (r.leaf K) ≠ none → r.leaf K ∈ X
  unspent : ∀ r : Receipt, s.farmEntries.get (r.leaf K) ≠ none → r.nullifier K ∉ S

/-- No bond reuses a receipt that was spent. -/
def BondsFresh (K : Keccak) (s : ScanReflection) : FarmOp → Prop
  | .bond _ _ _ e => ∀ st S, s.farmRewards.get e.farmId = some st → s.Spent K S →
      (⟨e.farmId, st.lpAsset, e.bondAmount, e.ownerCommit, e.nonce⟩ : Receipt).nullifier K ∉ S
  | _ => True

theorem NoteTree.appends (hK : K.Ideal) (hX : NoteTree K s.poolRoot s.noteCount X) {x : Word} (h0 : x ≠ 0) (h : Appends K x s t) :
    NoteTree K t.poolRoot t.noteCount (X ++ [x]) := by
  obtain ⟨hc, path, hp⟩ := h
  rw [hc]
  exact hX.append hK h0 hp

theorem NoteTree.grows (hK : K.Ideal) (hX : NoteTree K s.poolRoot s.noteCount X) (h : Grows K s t) :
    ∃ X', NoteTree K t.poolRoot t.noteCount X' ∧ ∀ x ∈ X, x ∈ X' := by
  rcases h with h | ⟨x, h0, h⟩
  · refine ⟨X, ?_, fun _ hx => hx⟩
    rw [show t.poolRoot = s.poolRoot from congrArg Prod.fst h, show t.noteCount = s.noteCount from congrArg Prod.snd h]
    exact hX
  · exact ⟨X ++ [x], hX.appends hK h0 h, fun y hy => List.mem_append_left _ hy⟩

/-- Every move appends at most one leaf. -/
theorem FarmMove.grows (hK : K.Ideal) {op : FarmOp} {pay : Word → Nat} (hm : FarmMove K s t op pay) : Grows K s t := by
  cases hm with
  | idle _ hn _ => exact hn
  | advance _ _ hn _ => exact .inl hn
  | fund _ _ _ hn _ => exact .inl hn
  | register _ _ _ _ _ _ hn _ => exact .inl hn
  | bond _ _ _ _ _ hn _ => exact .inr ⟨_, Receipt.leaf_ne_zero hK _, hn⟩
  | harvest _ _ _ _ _ _ _ hn _ => exact hn
  | unbond _ _ _ _ _ hn _ => exact hn
  | refund _ _ _ _ _ hn _ => exact hn

/-- A step that opens and closes no position. -/
theorem Leavable.grows (hK : K.Ideal) (hL : Leavable K s X S) (hn : Grows K s t) (hs : t.spentSet = s.spentSet)
    (he : ∀ r : Receipt, t.farmEntries.get (r.leaf K) ≠ none → s.farmEntries.get (r.leaf K) ≠ none) :
    ∃ X' S', Leavable K t X' S' := by
  obtain ⟨X', hX', hsub⟩ := hL.tree.grows hK hn
  exact ⟨X', S, hX', hL.spent.congr hs, fun r hr => hsub _ (hL.leaf r (he r hr)), fun r hr => hL.unspent r (he r hr)⟩

theorem FarmMove.keeps_leavable (hK : K.Ideal) {op : FarmOp} {pay : Word → Nat} (hm : FarmMove K s t op pay)
    (hfresh : BondsFresh K s op) (hL : Leavable K s X S) : ∃ X' S', Leavable K t X' S' := by
  have hsame : t.farmEntries = s.farmEntries → ∀ r : Receipt, t.farmEntries.get (r.leaf K) ≠ none →
      s.farmEntries.get (r.leaf K) ≠ none := by
    intro h r hr
    rwa [h] at hr
  cases hm with
  | idle hf hn hs => exact hL.grows hK hn hs (hsame (congrArg Farms.entries hf))
  | advance _ hf hn hs => exact hL.grows hK (.inl hn) hs (hsame (congrArg Farms.entries hf))
  | fund _ _ hf hn hs => exact hL.grows hK (.inl hn) hs (hsame (congrArg Farms.entries hf))
  | register _ _ _ _ _ hf hn hs => exact hL.grows hK (.inl hn) hs (hsame (congrArg Farms.entries hf))
  | refund _ _ _ _ hf hn hs => exact hL.grows hK hn hs (hsame (congrArg Farms.entries hf))
  | @harvest tx w e st st' entry stamp q pool hst hq hstamp hv hpool hle hf hn hs =>
    have he : t.farmEntries = s.farmEntries.set (q.leaf K) stamp := congrArg Farms.entries hf
    refine hL.grows hK hn hs fun r hr => ?_
    rw [he, SortedMap.get_set] at hr
    split at hr
    · rename_i h
      rw [← h, hstamp]
      exact nofun
    · exact hr
  | @bond tx w spends e st st' entry q hst hq hnew hbond hf hn hs =>
    have he : t.farmEntries = s.farmEntries.set (q.leaf K) entry := congrArg Farms.entries hf
    refine ⟨X ++ [q.leaf K], S, hL.tree.appends hK (q.leaf_ne_zero hK) hn, hL.spent.congr hs, fun r hr => ?_, fun r hr => ?_⟩
    · rw [he, SortedMap.get_set] at hr
      split at hr
      · rename_i h
        simp [h]
      · exact List.mem_append_left _ (hL.leaf r hr)
    · rw [he, SortedMap.get_set] at hr
      split at hr
      · rename_i h
        rw [← Receipt.leaf_injective hK h, hq]
        exact hfresh st S hst hL.spent
      · exact hL.unspent r hr
  | @unbond tx w e st st' entry q hst hq hstamp hu hf hn hs =>
    have he : t.farmEntries = s.farmEntries.erase (q.leaf K) := congrArg Farms.entries hf
    obtain ⟨X', hX', hsub⟩ := hL.tree.grows hK hn
    have hins := (ImtSet.insert hK hL.spent hs.2).2
    have hother : ∀ r : Receipt, t.farmEntries.get (r.leaf K) ≠ none → r ≠ q ∧ s.farmEntries.get (r.leaf K) ≠ none := by
      intro r hr
      rw [he, SortedMap.get_erase] at hr
      split at hr
      · exact absurd rfl hr
      · rename_i h
        exact ⟨fun hrq => h (hrq ▸ rfl), hr⟩
    refine ⟨X', S ++ [q.nullifier K], hX', ?_, fun r hr => hsub _ (hL.leaf r (hother r hr).2), fun r hr => ?_⟩
    · unfold ScanReflection.Spent
      rw [hs.1]
      exact hins
    · obtain ⟨hrq, hr⟩ := hother r hr
      rw [List.mem_append, not_or]
      refine ⟨hL.unspent r hr, fun h => hrq (Receipt.nullifier_injective hK ?_)⟩
      exact List.mem_singleton.1 h

theorem FarmRun.leavable {G : BatchCrypto} (hK : G.toKeccak.Ideal) {s₀ : ScanReflection} (h₀ : NoFarms s₀)
    (hX : NoteTree G.toKeccak s₀.poolRoot s₀.noteCount X) (hS : s₀.Spent G.toKeccak S) {paid : Word → Nat}
    (hrun : FarmRun G (BondsFresh G.toKeccak) s₀ s paid) : ∃ X' S', Leavable G.toKeccak s X' S' := by
  induction hrun with
  | start =>
    refine ⟨X, S, hX, hS, fun r hr => absurd ?_ hr, fun r hr => absurd ?_ hr⟩
    · simp [h₀.entries]
    · simp [h₀.entries]
  | step op _ hfresh hop ih =>
    obtain ⟨X', S', hL⟩ := ih
    exact (op.moves hK hop).keeps_leavable hK hfresh hL

/-- The note an unbond of the receipt leaves at output 1 of `tx`: `shares` of the farm's LP asset. -/
def Returned (C : Crypto) (tx : Tx) (e : LpUnbondEnvelope) (r : Receipt) (t : ScanReflection) : Prop :=
  ∃ pt auth, C.decompress (C.pedersenCommitCompressed r.shares.val e.lpReturnR) = some pt ∧
    p2trXonly (tx.outputScriptpubkey 1) = some auth ∧
    t.live.get (outpointKey C.toKeccak (tx.txid, 1)) = some ⟨commitmentHash C.toKeccak pt.x pt.y, r.asset, auth, false⟩

/-- In every state of a run that bonds no spent receipt, from well-formed trees: the receipt of a live position is in the
note tree, its nullifier is not spent, and while both trees have room some witness makes a signed unbond to a fresh P2TR
output go through, which closes the position and returns its shares. -/
theorem farm_position_can_leave {G : BatchCrypto} (hK : G.toKeccak.Ideal) {s₀ : ScanReflection} (h₀ : NoFarms s₀)
    (hX : NoteTree G.toKeccak s₀.poolRoot s₀.noteCount X) (hS : s₀.Spent G.toKeccak S) {paid : Word → Nat}
    (hrun : FarmRun G (BondsFresh G.toKeccak) s₀ s paid) (hstamp : s.farmEntries.get (r.leaf G.toKeccak) ≠ none) :
    (∃ X' S', NoteTree G.toKeccak s.poolRoot s.noteCount X' ∧ r.leaf G.toKeccak ∈ X' ∧
      s.Spent G.toKeccak S' ∧ r.nullifier G.toKeccak ∉ S') ∧
    ∀ (tx : Tx) (e : LpUnbondEnvelope), s.noteCount < 2 ^ 32 → s.spentCount < 2 ^ 32 →
      e.farmId = r.farm → e.shares = r.shares → e.ownerCommit = r.owner → e.nonce = r.nonce →
      G.bip340Verify e.unbonderSig (lpUnbondOwnerMsg G.toCrypto e (r.leaf G.toKeccak) (tx.outputScriptpubkey 1)) r.owner = true →
      p2trXonly (tx.outputScriptpubkey 1) ≠ none → s.live.get (outpointKey G.toKeccak (tx.txid, 1)) = none →
      G.decompress (G.pedersenCommitCompressed r.shares.val e.lpReturnR) ≠ none →
      ∃ w t, scanLpUnbond G tx w e s = .ok () t ∧ t.farmEntries.get (r.leaf G.toKeccak) = none ∧ Returned G.toCrypto tx e r t := by
  obtain ⟨X', S', hL⟩ := hrun.leavable hK h₀ hX hS
  refine ⟨⟨X', S', hL.tree, hL.leaf r hstamp, hL.spent, hL.unspent r hstamp⟩, ?_⟩
  intro tx e hroom hroom' hfarm hshares howner hnonce hsig hdest hlive hret
  have hB := hrun.books hK h₀
  obtain ⟨q, hq, hreg⟩ := hB.stamps _ hstamp
  obtain rfl := Receipt.leaf_injective hK hq
  obtain ⟨st, hst⟩ := Option.ne_none_iff_exists'.1 hreg
  obtain ⟨entry, hentry⟩ := Option.ne_none_iff_exists'.1 hstamp
  obtain ⟨L, hb⟩ := hB.books _ _ hst
  obtain ⟨st', hunbond⟩ := Option.ne_none_iff_exists'.1 (hb.unbond_ne_none rfl hentry s.height)
  obtain ⟨auth, hdest⟩ := Option.ne_none_iff_exists'.1 hdest
  obtain ⟨pt, hret⟩ := Option.ne_none_iff_exists'.1 hret
  have hm := (hb.stamp_le rfl hentry).1
  have hr : q = ⟨e.farmId, st.lpAsset, e.shares, e.ownerCommit, e.nonce⟩ := by
    rw [hfarm, hshares, howner, hnonce, ← hb.asset q hm]
  have hst' : s.farmRewards.get e.farmId = some st := by
    rw [hfarm]
    exact hst
  obtain ⟨w, t, root, root', hw, -, rfl⟩ := exists_unbond hK hL.tree hroom hL.spent hroom' hst' hr (hL.leaf q hstamp)
    (hL.unspent q hstamp) hentry hunbond (howner ▸ hsig) hdest hlive (hshares ▸ hret) (spendWitness [] [] [])
  refine ⟨w, _, hw, ?_, pt, auth, hret, hdest, SortedMap.get_set_self _ _ _⟩
  simp

/-! ## A receipt used twice -/

/-- The owner of the receipt of one share leaves the long farm. -/
def unbondLongFarm (K : Keccak) : LpUnbondEnvelope where
  farmId := longFarmId K
  ownerCommit := secpG.x
  nonce := 0
  shares := 1
  lpReturnR := 0
  unbonderSig := validSig

theorem longFarm_unbond : ({ longFarmRewards K with totalShares := 1 } : FarmRewardState).unbond 1 0 0 = some (longFarmRewards K) := by
  obtain ⟨st, hst⟩ : ∃ st : FarmRewardState, st = { longFarmRewards K with totalShares := 1 } := ⟨_, rfl⟩
  have hacc : st.accrue 0 = st := accrue_of_le (Nat.zero_le _)
  have h1 : (1 : U 64) ≠ 0 := by decide
  have hd : U.ofNat? 128 ((1 : U 64).val * (0 : U 128).val) = some 0 := by rw [U.ofNat?_eq_some]; rfl
  have ht : U.checkedSub st.totalShares 1 = some 0 := by
    rw [U.checkedSub_eq_some, hst]
    exact ⟨le_rfl, rfl⟩
  have hz : U.checkedSub st.totalRewardDebt 0 = some 0 := by
    rw [U.checkedSub_eq_some, hst]
    exact ⟨le_rfl, rfl⟩
  rw [← hst]
  simp only [unbond, if_neg h1, hacc, hd, ht, hz, Option.bind_eq_bind, Option.bind_some]
  rw [hst]
  rfl

/-- A position whose receipt is spent stays, whatever the witness. -/
theorem FarmMove.stays (hK : K.Ideal) {op : FarmOp} {tx : Tx} {w : TxWitness} {e : LpUnbondEnvelope} (hop : op = .unbond tx w e)
    {pay : Word → Nat} (hm : FarmMove K s t op pay) (hS : s.Spent K S) (hspent : r.nullifier K ∈ S)
    (hstamp : s.farmEntries.get (r.leaf K) ≠ none) : t.farmEntries.get (r.leaf K) ≠ none := by
  subst hop
  cases hm with
  | idle hf _ _ =>
    rw [show t.farmEntries = s.farmEntries from congrArg Farms.entries hf]
    exact hstamp
  | @unbond _ _ _ st st' entry q hst hq hstamp' hu hf hn hs =>
    have hne : q.leaf K ≠ r.leaf K := by
      intro h
      obtain rfl := Receipt.leaf_injective hK h
      exact (ImtSet.insert hK hS hs.2).1.2 hspent
    rw [show t.farmEntries = s.farmEntries.erase (q.leaf K) from congrArg Farms.entries hf, SortedMap.get_erase, if_neg hne]
    exact hstamp

theorem spent_launched : (launched K).Spent K [] := imtSet_empty

theorem clearTx_dest (i : Nat) : p2trXonly ((clearTx i).outputScriptpubkey 1) = some secpG.x := by
  rw [show (clearTx i).outputScriptpubkey 1 = [0x51, 0x20] ++ secpG.x.bytes from rfl]
  decide

theorem rebond_run (hK : K.Ideal) : ∃ s paid S,
    FarmRun (clearCrypto K) (fun _ _ => True) (ScanReflection.genesis K) s paid ∧
    s.farmEntries.get ((bondReceipt K 1).leaf K) ≠ none ∧ s.Spent K S ∧ (bondReceipt K 1).nullifier K ∈ S := by
  obtain ⟨w, root, hroot, hbond⟩ := exists_bonded (K := K) (spendWitness [] [] []) (n := 1) (by decide)
  have hX := noteTree_launched.append hK ((bondReceipt K 1).leaf_ne_zero hK) hroot
  have hrun := ((FarmRun.start (G := clearCrypto K) (A := fun _ _ => True)).step _ trivial (launch_ok K w)).step _ trivial hbond
  have hst : (bonded K 1 root).farmRewards.get (longFarmId K) = some { longFarmRewards K with totalShares := 1 } :=
    SortedMap.get_set_self _ _ _
  have hstamp : (bonded K 1 root).farmEntries.get ((bondReceipt K 1).leaf K) = some 0 := SortedMap.get_set_self _ _ _
  have hret : (clearCrypto K).decompress ((clearCrypto K).pedersenCommitCompressed 1 0) = some (clearPoint 1 0) :=
    clearDecompress_compress (clearPoint 1 0)
  have hroom : (bonded K 1 root).noteCount < 2 ^ 32 := show 1 < 2 ^ 32 by decide
  have hroom' : (bonded K 1 root).spentCount < 2 ^ 32 := show 1 < 2 ^ 32 by decide
  obtain ⟨w', t, root₁, root₂, hunbond, hspent, ht⟩ := exists_unbond (G := clearCrypto K) (s := bonded K 1 root) (e := unbondLongFarm K)
    (r := bondReceipt K 1) hK hX hroom spent_launched hroom' hst rfl (List.mem_singleton_self _) List.not_mem_nil hstamp longFarm_unbond
    (by simp [clearCrypto, unbondLongFarm]) (clearTx_dest 1) (SortedMap.get_empty _) hret (spendWitness [] [] [])
  have hrun := hrun.step _ trivial hunbond
  have hgrows : Grows K (bonded K 1 root) t := FarmMove.grows hK (FarmOp.moves (G := clearCrypto K) hK hunbond)
  obtain ⟨X, hX', -⟩ := NoteTree.grows (s := bonded K 1 root) hK hX hgrows
  have hS := (ImtSet.insert hK spent_launched hspent).2
  have hcount : t.noteCount < 2 ^ 32 := by
    rw [ht]
    exact show 2 < 2 ^ 32 by decide
  have hst' : t.farmRewards.get (longFarmId K) = some (longFarmRewards K) := by
    rw [ht]
    exact SortedMap.get_set_self _ _ _
  have hh : t.height = 0 := by rw [ht]; rfl
  have hfree : t.farmEntries.get ((bondReceipt K 1).leaf K) = none := by
    rw [ht]
    exact (SortedMap.get_erase _ _ _).trans (if_pos rfl)
  obtain ⟨w'', root₃, -, hrebond⟩ := exists_bond_clear hX' hcount (spendWitness [] [] []) hst' rfl
    (hh ▸ longFarm_bond (n := 1) (by decide)) hfree
  refine ⟨_, _, [] ++ [(bondReceipt K 1).nullifier K], hrun.step _ trivial hrebond, ?_, ?_, by simp⟩
  · exact Option.ne_none_iff_exists'.2 ⟨0, SortedMap.get_set_self _ _ _⟩
  · unfold ScanReflection.Spent
    rw [ht]
    exact hS

/-- From genesis: bond, leave, bond again with the same shares, owner and nonce. The receipt of the live position is
spent, and no unbond of any witness ever closes it. -/
theorem rebonded_position_is_stuck : ∃ s paid S, NoFarms (ScanReflection.genesis codeKeccak) ∧
    FarmRun (clearCrypto codeKeccak) (fun _ _ => True) (ScanReflection.genesis codeKeccak) s paid ∧
    s.farmEntries.get ((bondReceipt codeKeccak 1).leaf codeKeccak) ≠ none ∧ s.Spent codeKeccak S ∧
    (bondReceipt codeKeccak 1).nullifier codeKeccak ∈ S ∧
    ∀ tx w e t, scanLpUnbond (clearCrypto codeKeccak) tx w e s = .ok () t →
      t.farmEntries.get ((bondReceipt codeKeccak 1).leaf codeKeccak) ≠ none := by
  obtain ⟨s, paid, S, hrun, hstamp, hS, hspent⟩ := rebond_run codeKeccak_ideal
  refine ⟨s, paid, S, ⟨rfl, rfl⟩, hrun, hstamp, hS, hspent, fun tx w e t h => ?_⟩
  exact FarmMove.stays codeKeccak_ideal rfl ((FarmOp.unbond tx w e).moves codeKeccak_ideal h) hS hspent hstamp

/-- Its first bond is fresh, and the signed unbond of it goes through. -/
theorem farm_position_can_leave_long_farm : ∃ s paid w t, NoFarms (ScanReflection.genesis codeKeccak) ∧
    FarmRun (clearCrypto codeKeccak) (BondsFresh codeKeccak) (ScanReflection.genesis codeKeccak) s paid ∧
    s.farmEntries.get ((bondReceipt codeKeccak 1).leaf codeKeccak) ≠ none ∧
    scanLpUnbond (clearCrypto codeKeccak) (clearTx 1) w (unbondLongFarm codeKeccak) s = .ok () t ∧
    t.farmEntries.get ((bondReceipt codeKeccak 1).leaf codeKeccak) = none := by
  obtain ⟨w, root, -, hbond⟩ := exists_bonded (K := codeKeccak) (spendWitness [] [] []) (n := 1) (by decide)
  have h₀ : NoFarms (ScanReflection.genesis codeKeccak) := ⟨rfl, rfl⟩
  have hfresh : BondsFresh codeKeccak (launched codeKeccak)
      (.bond (clearTx 0) w [clearSpend (longFarmRewards codeKeccak).lpAsset 1] (bondOf codeKeccak 1)) := by
    intro st S _ hS
    have hlen : 1 = S.length + 1 := ImtSet.count hS
    obtain rfl := List.eq_nil_of_length_eq_zero (by omega : S.length = 0)
    exact List.not_mem_nil
  have hrun := ((FarmRun.start (G := clearCrypto codeKeccak) (A := BondsFresh codeKeccak)).step (.init _ _ _ _) trivial
    (launch_ok codeKeccak w)).step _ hfresh hbond
  have hstamp : (bonded codeKeccak 1 root).farmEntries.get ((bondReceipt codeKeccak 1).leaf codeKeccak) ≠ none :=
    Option.ne_none_iff_exists'.2 ⟨0, SortedMap.get_set_self _ _ _⟩
  have hret : (clearCrypto codeKeccak).decompress ((clearCrypto codeKeccak).pedersenCommitCompressed 1 0) = some (clearPoint 1 0) :=
    clearDecompress_compress (clearPoint 1 0)
  have hsig : (clearCrypto codeKeccak).bip340Verify (unbondLongFarm codeKeccak).unbonderSig (lpUnbondOwnerMsg (clearCrypto codeKeccak).toCrypto
      (unbondLongFarm codeKeccak) ((bondReceipt codeKeccak 1).leaf codeKeccak) ((clearTx 1).outputScriptpubkey 1)) secpG.x = true := by
    simp [clearCrypto, unbondLongFarm]
  have hleave := farm_position_can_leave (G := clearCrypto codeKeccak) (r := bondReceipt codeKeccak 1) codeKeccak_ideal h₀
    noteTree_empty imtSet_empty hrun hstamp
  obtain ⟨w', t, ht, hgone, -⟩ := hleave.2 (clearTx 1) (unbondLongFarm codeKeccak) (show 1 < 2 ^ 32 by decide) (show 1 < 2 ^ 32 by decide)
    rfl rfl rfl rfl hsig (by rw [clearTx_dest]; exact Option.some_ne_none _) (SortedMap.get_empty _) (Option.ne_none_iff_exists'.2 ⟨_, hret⟩)
  exact ⟨_, _, w', t, h₀, hrun, hstamp, ht, hgone⟩

end Tacit
