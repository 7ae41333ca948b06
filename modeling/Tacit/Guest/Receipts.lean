import Tacit.Guest.Farm
import Tacit.Lib.BigEndian
import Tacit.Pool.NoteTree
import Tacit.Pool.SpendOnce
/-!
# What a batch says of receipts

Of the arrays that a batch commits: who spends the nullifier of a receipt closes it, and who mints under the sentinel
leaf bonds a receipt or harvests one (`Effects.Lawful`). Each operation keeps to that, and so does their concatenation.
-/
namespace Tacit

namespace SettleGuest

/-! ## Words as numbers -/

theorem toNat_lt {w : Word} (h : ∀ b ∈ w.bytes, b < 256) : w.toNat < 2 ^ 256 := by
  have hlt := foldl_be_lt (n := 0) h
  rw [w.len] at hlt
  exact hlt.trans_eq (by decide)

theorem uintOfWord_injective : Function.Injective uintOfWord := by
  intro w w' h
  unfold uintOfWord at h
  by_cases hw : ∀ b ∈ w.bytes, b < 256
  · by_cases hw' : ∀ b ∈ w'.bytes, b < 256
    · rw [if_pos hw, if_pos hw'] at h
      exact Word.ext (foldl_be_inj (w.len.trans w'.len.symm) hw hw' h).2
    · rw [if_pos hw, if_neg hw'] at h
      have := toNat_lt hw
      omega
  · by_cases hw' : ∀ b ∈ w'.bytes, b < 256
    · rw [if_neg hw, if_pos hw'] at h
      have := toNat_lt hw'
      omega
    · rw [if_neg hw, if_neg hw'] at h
      exact Word.ext (Encodable.encode_injective (Nat.add_left_cancel h))

theorem controller32_injective : Function.Injective controller32 := by
  intro c c' h
  have hc : c.val < 256 ^ 32 := c.isLt.trans (by decide)
  have hc' : c'.val < 256 ^ 32 := c'.isLt.trans (by decide)
  exact Fin.ext (wordOfNat_inj hc hc' h)

/-! ## The arrays -/

/-- The position nullifiers, as the pool spends them. -/
def Effects.positions (e : Effects) : List Word :=
  e.cdpTopups.map ConfidentialPool.CdpTopup.oldPositionNullifier ++
    (e.cdpCloses.map ConfidentialPool.CdpClose.positionNullifier ++
      e.cdpLiquidations.map ConfidentialPool.CdpClose.positionNullifier)

/-- `m` bonds `r`. -/
structure Bonding (K : Keccak) (leaves : List Word) (m : ConfidentialPool.CdpMint) (c : U 160) (r : Receipt) : Prop where
  mint_eq : m = bondMint K c r
  farm_eq : r.farm = controller32 c
  leaf_mem : r.leaf K ∈ leaves
  shares_pos : 0 < r.shares.val

/-- `B` are the receipts that operations bond, `F` the closes of operations on other positions. -/
structure Effects.Lawful (K : Keccak) (B : Receipt → Prop) (F : ConfidentialPool.CdpClose → Prop) (e : Effects) : Prop where
  unbonds (r : Receipt) : r.nullifier K ∈ e.nullifiers → ∃ c, r.farm = controller32 c ∧ unbondClose K c r ∈ e.cdpCloses
  positions (r : Receipt) : r.nullifier K ∈ e.positions → r.nullifier K ∈ e.nullifiers
  mints (m : ConfidentialPool.CdpMint) : m ∈ e.cdpMints → (∃ c r, B r ∧ Bonding K e.leaves m c r) ∨
    (∃ c r asset reward, m = harvestMint K c r asset reward ∧ r.farm = controller32 c ∧ 0 < reward.val) ∨
    m.positionLeaf ≠ wordOfNat 1
  closes (c : ConfidentialPool.CdpClose) : c ∈ e.cdpCloses → (∃ a r, c = unbondClose K a r ∧ r.farm = controller32 a) ∨ F c

variable {K : Keccak} {B : Receipt → Prop} {F : ConfidentialPool.CdpClose → Prop}

theorem Bonding.mono {leaves leaves' : List Word} {m : ConfidentialPool.CdpMint} {c : U 160} {r : Receipt}
    (h : Bonding K leaves m c r) (hsub : leaves ⊆ leaves') : Bonding K leaves' m c r :=
  { h with leaf_mem := hsub h.leaf_mem }

theorem Effects.lawful_empty : Effects.Lawful K B F {} where
  unbonds _ h := by cases h
  positions _ h := by cases h
  mints _ h := by cases h
  closes _ h := by cases h

theorem Effects.mem_positions {d e : Effects} {n : Word} (h : n ∈ (d ++ e).positions) : n ∈ d.positions ∨ n ∈ e.positions := by
  have happend : (d ++ e).positions = ((d.cdpTopups ++ e.cdpTopups).map ConfidentialPool.CdpTopup.oldPositionNullifier ++
    ((d.cdpCloses ++ e.cdpCloses).map ConfidentialPool.CdpClose.positionNullifier ++
      (d.cdpLiquidations ++ e.cdpLiquidations).map ConfidentialPool.CdpClose.positionNullifier)) := rfl
  rw [happend] at h
  simp only [List.map_append, List.mem_append] at h
  simp only [Effects.positions, List.mem_append]
  tauto

theorem Effects.Lawful.append {d e : Effects} (hd : d.Lawful K B F) (he : e.Lawful K B F) : (d ++ e).Lawful K B F where
  unbonds r h := by
    rcases List.mem_append.1 (show r.nullifier K ∈ d.nullifiers ++ e.nullifiers from h) with h | h
    · obtain ⟨c, hfarm, hmem⟩ := hd.unbonds r h
      exact ⟨c, hfarm, List.mem_append.2 (Or.inl hmem)⟩
    · obtain ⟨c, hfarm, hmem⟩ := he.unbonds r h
      exact ⟨c, hfarm, List.mem_append.2 (Or.inr hmem)⟩
  positions r h := by
    rcases Effects.mem_positions h with h | h
    · exact List.mem_append.2 (Or.inl (hd.positions r h))
    · exact List.mem_append.2 (Or.inr (he.positions r h))
  mints m h := by
    rcases List.mem_append.1 (show m ∈ d.cdpMints ++ e.cdpMints from h) with h | h
    · obtain ⟨c, r, hB, hm⟩ | h := hd.mints m h
      · exact Or.inl ⟨c, r, hB, hm.mono (List.subset_append_left _ _)⟩
      · exact Or.inr h
    · obtain ⟨c, r, hB, hm⟩ | h := he.mints m h
      · exact Or.inl ⟨c, r, hB, hm.mono (List.subset_append_right _ _)⟩
      · exact Or.inr h
  closes c h := by
    rcases List.mem_append.1 (show c ∈ d.cdpCloses ++ e.cdpCloses from h) with h | h
    · exact hd.closes c h
    · exact he.closes c h

/-! ## The operations -/

theorem nullifier_ne (hK : K.Ideal) (lf : Word) (r : Receipt) : nullifier K lf ≠ r.nullifier K :=
  hK.kn_ne_of_length (by simp [Word.len, ascii])

theorem nativeNullifier_ne (hK : K.Ideal) (nk lf : Word) (r : Receipt) : nativeNullifier K nk lf ≠ r.nullifier K :=
  hK.kn_ne_of_length (by simp [Word.len, ascii])

theorem nativeNu_ne (hK : K.Ideal) {owner nk lf nu : Word} (h : nativeNu K owner nk lf = some nu) (r : Receipt) :
    nu ≠ r.nullifier K := by
  unfold nativeNu at h
  split at h
  · cases h
    exact nullifier_ne hK lf r
  · split at h
    · cases h
    · cases h
      exact nativeNullifier_ne hK nk lf r

variable {C : Proofs} {H : Header}

theorem inputLeafAuthed_ne (hC : C.toKeccak.Ideal) {asset cx cy owner nk : Word} {i : Input}
    (h : inputLeafAuthed C H asset cx cy owner nk = some i) (r : Receipt) : i.nu ≠ r.nullifier C.toKeccak := by
  unfold inputLeafAuthed at h
  split at h
  · cases h
    exact nullifier_ne hC _ r
  · obtain ⟨nu, hnu, rfl⟩ := Option.map_eq_some_iff.1 h
    exact nativeNu_ne hC hnu r

theorem farmBond_eq_some {w : FarmBond} {r : Receipt} {e : Effects} (h : farmBond C H w = some (r, e)) :
    ∃ inputs, w.legs.mapM (bondLeg C H w) = some inputs ∧ w.legs ≠ [] ∧
      (w.legs.map fun l => l.value.val).sum = r.shares.val ∧ r.farm = controller32 w.controller ∧ r.owner = w.owner ∧
      e = { nullifiers := inputs.map Input.nu, sources := consumedSources H inputs
            leaves := [r.leaf C.toKeccak], cdpMints := [bondMint C.toKeccak w.controller r] } := by
  simp only [farmBond, bind, Option.bind_eq_some_iff, Option.guard_eq_some', U.ofNat?_eq_some, pure, Option.some.injEq,
    Prod.mk.injEq] at h
  obtain ⟨-, ⟨hpos, -⟩, -, -, inputs, hinputs, shares, hshares, -, -, rfl, rfl⟩ := h
  exact ⟨inputs, hinputs, List.length_pos_iff.1 hpos, hshares.symm, rfl, rfl, rfl⟩

theorem forall₂_of_mapM {α β : Type} {f : α → Option β} : ∀ {l : List α} {l' : List β}, l.mapM f = some l' →
    List.Forall₂ (fun a b => f a = some b) l l'
  | [], l', h => by
    rw [List.mapM_nil] at h
    cases h
    exact .nil
  | a :: l, l', h => by
    simp only [List.mapM_cons, bind, Option.bind_eq_some_iff, pure, Option.some.injEq] at h
    obtain ⟨b, hb, bs, hbs, rfl⟩ := h
    exact .cons hb (forall₂_of_mapM hbs)

theorem exists_of_mem_mapM {α β : Type} {f : α → Option β} {l : List α} {l' : List β} (h : l.mapM f = some l') {b : β}
    (hb : b ∈ l') : ∃ a ∈ l, f a = some b := by
  have hall := forall₂_of_mapM h
  clear h
  induction hall with
  | nil => cases hb
  | cons hf _ ih =>
    rcases List.mem_cons.1 hb with rfl | hb
    · exact ⟨_, List.mem_cons_self, hf⟩
    · obtain ⟨a, ha, hfa⟩ := ih hb
      exact ⟨a, List.mem_cons_of_mem _ ha, hfa⟩

theorem bondLeg_eq_some {w : FarmBond} {l : BondLeg} {i : Input} (h : bondLeg C H w l = some i) : 0 < l.value.val ∧
    inputLeafAuthed C H w.lpAsset l.note.cx l.note.cy l.legAuth l.nk = some i := by
  simp only [bondLeg, bind, Option.bind_eq_some_iff, Option.guard_eq_some', pure, Option.some.injEq] at h
  obtain ⟨-, hpos, i, hi, -, -, -, -, -, -, rfl⟩ := h
  exact ⟨hpos, hi⟩

theorem lpBond_eq_some {w : LpBond} {r : Receipt} {e : Effects} (h : lpBond C H w = some (r, e)) :
    ∃ nuA nuB ctxt liquidity, spendSide C H w.assetA ctxt w.sideA = some nuA ∧ spendSide C H w.assetB ctxt w.sideB = some nuB ∧
      0 < r.shares.val ∧ r.farm = controller32 w.controller ∧ r.owner = w.owner ∧
      e = { nullifiers := [nuA, nuB], leaves := [r.leaf C.toKeccak], fees := relayFee w.assetA w.fee
            liquidity := liquidity, deadlines := [w.opDeadline.val], cdpMints := [bondMint C.toKeccak w.controller r] } := by
  simp only [lpBond, bind, Option.bind_eq_some_iff, Option.guard_eq_some', U.ofNat?_eq_some, pure, Option.some.injEq,
    Prod.mk.injEq] at h
  obtain ⟨-, -, -, -, -, -, -, -, -, -, -, -, addA, -, add, hadd, shares, hshares, -, -, nuA, hA, nuB, hB, rfl, rfl⟩ := h
  refine ⟨nuA, nuB, _, _, hA, hB, ?_, rfl, rfl, rfl⟩
  have hpos : 0 < add.shares := by
    unfold addLiquidity at hadd
    split at hadd
    · simp only [bind, Option.bind_eq_some_iff, Option.guard_eq_some', pure, Option.some.injEq] at hadd
      obtain ⟨-, -, -, -, -, hlt, rfl⟩ := hadd
      exact Nat.sub_pos_of_lt hlt
    · simp only [bind, Option.bind_eq_some_iff, Option.guard_eq_some', pure, Option.some.injEq] at hadd
      obtain ⟨-, -, -, hlt, -, -, rfl⟩ := hadd
      exact hlt
  exact hshares.symm ▸ hpos

theorem spendSide_ne (hC : C.toKeccak.Ideal) {asset ctxt : Word} {l : LpSide} {nu : Word}
    (h : spendSide C H asset ctxt l = some nu) (r : Receipt) : nu ≠ r.nullifier C.toKeccak := by
  simp only [spendSide, bind, Option.bind_eq_some_iff, Option.guard_eq_some', pure, Option.some.injEq] at h
  obtain ⟨-, -, nu, hnu, -, -, -, -, rfl⟩ := h
  exact nativeNu_ne hC hnu r

/-- An array without receipt nullifiers, closes or topups, whose one mint is a bond. -/
theorem Effects.lawful_bond {e : Effects} {c : U 160} {r : Receipt} (hB : B r)
    (hne : ∀ n ∈ e.nullifiers, ∀ r : Receipt, n ≠ r.nullifier K) (htopups : e.cdpTopups = []) (hcloses : e.cdpCloses = [])
    (hliquidations : e.cdpLiquidations = []) (hmints : e.cdpMints = [bondMint K c r]) (hleaves : e.leaves = [r.leaf K])
    (hfarm : r.farm = controller32 c) (hpos : 0 < r.shares.val) : e.Lawful K B F where
  unbonds r' h := absurd rfl (hne _ h r')
  positions r' h := by simp [Effects.positions, htopups, hcloses, hliquidations] at h
  mints m h := by
    rw [hmints, List.mem_singleton] at h
    refine Or.inl ⟨c, r, hB, h, hfarm, ?_, hpos⟩
    rw [hleaves]
    exact List.mem_singleton_self _
  closes c h := by
    rw [hcloses] at h
    cases h

theorem farmBond_lawful (hC : C.toKeccak.Ideal) {w : FarmBond} {r : Receipt} {e : Effects}
    (h : farmBond C H w = some (r, e)) (hB : B r) : e.Lawful C.toKeccak B F := by
  obtain ⟨inputs, hinputs, hne, hsum, hfarm, -, rfl⟩ := farmBond_eq_some h
  have hlegs := forall₂_of_mapM hinputs
  refine Effects.lawful_bond hB ?_ rfl rfl rfl rfl rfl hfarm ?_
  · intro n hn r'
    obtain ⟨i, hi, rfl⟩ := List.mem_map.1 hn
    obtain ⟨l, -, hl⟩ := exists_of_mem_mapM hinputs hi
    exact inputLeafAuthed_ne hC (bondLeg_eq_some hl).2 r'
  · rw [← hsum]
    obtain ⟨l, legs, hcons⟩ := List.exists_cons_of_ne_nil hne
    rw [hcons] at hlegs ⊢
    cases hlegs with
    | cons hl _ =>
      rw [List.map_cons, List.sum_cons]
      exact Nat.add_pos_left (bondLeg_eq_some hl).1 _

theorem lpBond_lawful (hC : C.toKeccak.Ideal) {w : LpBond} {r : Receipt} {e : Effects} (h : lpBond C H w = some (r, e))
    (hB : B r) : e.Lawful C.toKeccak B F := by
  obtain ⟨nuA, nuB, ctxt, liquidity, hA, hB', hpos, hfarm, -, rfl⟩ := lpBond_eq_some h
  refine Effects.lawful_bond hB ?_ rfl rfl rfl rfl rfl hfarm hpos
  intro n hn r'
  rcases List.mem_cons.1 hn with rfl | hn
  · exact spendSide_ne hC hA r'
  · obtain rfl := List.mem_singleton.1 hn
    exact spendSide_ne hC hB' r'

theorem farmHarvest_lawful {w : FarmHarvest} {e : Effects} (h : farmHarvest C H w = some e) : e.Lawful C.toKeccak B F := by
  simp only [farmHarvest, bind, Option.bind_eq_some_iff, Option.guard_eq_some', pure, Option.some.injEq] at h
  obtain ⟨-, -, -, hreward, -, -, -, -, -, -, -, -, -, -, -, -, -, -, rfl⟩ := h
  refine ⟨nofun, nofun, fun m hm => ?_, nofun⟩
  exact Or.inr (Or.inl ⟨w.controller, w.receipt, w.rewardAsset, w.reward, List.mem_singleton.1 hm, rfl, hreward⟩)

theorem farmUnbond_eq_some {w : FarmUnbond} {e : Effects} (h : farmUnbond C H w = some e) : e = {
    nullifiers := [w.receipt.nullifier C.toKeccak]
    leaves := [leaf C.toKeccak w.asset w.note.cx w.note.cy w.releaseOwner]
    fees := relayFee w.asset w.fee, cdpCloses := [unbondClose C.toKeccak w.controller w.receipt] } := by
  simp only [farmUnbond, bind, Option.bind_eq_some_iff, Option.guard_eq_some', pure, Option.some.injEq] at h
  obtain ⟨-, -, -, -, -, -, -, -, -, -, -, -, -, -, rfl⟩ := h
  rfl

theorem farmUnbond_lawful (hC : C.toKeccak.Ideal) {w : FarmUnbond} {e : Effects} (h : farmUnbond C H w = some e) :
    e.Lawful C.toKeccak B F := by
  obtain rfl := farmUnbond_eq_some h
  refine ⟨fun r hr => ?_, fun r hr => hr, nofun, fun c hc => ?_⟩
  · obtain rfl := Receipt.nullifier_injective hC (List.mem_singleton.1 hr)
    exact ⟨w.controller, rfl, List.mem_singleton_self _⟩
  · exact Or.inl ⟨w.controller, w.receipt, List.mem_singleton.1 hc, rfl⟩

theorem wrap_lawful {w : Wrap} {e : Effects} (h : wrap C H w = some e) : e.Lawful C.toKeccak B F := by
  simp only [wrap, bind, Option.bind_eq_some_iff, Option.guard_eq_some', pure, Option.some.injEq] at h
  obtain ⟨-, -, rfl⟩ := h
  exact ⟨nofun, nofun, nofun, nofun⟩

theorem other_lawful (o : Other K) (hF : ∀ c ∈ o.effects.cdpCloses, F c) : o.effects.Lawful K B F where
  unbonds r h := absurd rfl (o.nullifiers_ne _ h r)
  positions r h := by
    simp only [Effects.positions, List.mem_append, List.mem_map] at h
    obtain ⟨t, ht, heq⟩ | ⟨c, hc, heq⟩ | ⟨q, hq, heq⟩ := h
    · exact absurd heq (o.topups_ne t ht r)
    · exact absurd heq (o.closes_ne c hc r)
    · exact absurd heq (o.liquidations_ne q hq r)
  mints m h := Or.inr (Or.inr (o.mints_ne m h))
  closes c h := Or.inr (hF c h)

/-- The closes of operations on other positions. -/
def Op.foreign : Op K → List ConfidentialPool.CdpClose
  | .other o => o.effects.cdpCloses
  | _ => []

theorem Op.run_lawful (hC : C.toKeccak.Ideal) {op : Op C.toKeccak} {e : Effects} (h : op.run C H = some e)
    (hB : ∀ r, op.bonds C H = some r → B r) (hF : ∀ c ∈ op.foreign, F c) : e.Lawful C.toKeccak B F := by
  cases op with
  | wrap w => exact wrap_lawful h
  | farmBond w =>
    obtain ⟨⟨r, e⟩, hw, rfl⟩ := Option.map_eq_some_iff.1 h
    exact farmBond_lawful hC hw (hB r (Option.map_eq_some_iff.2 ⟨_, hw, rfl⟩))
  | lpBond w =>
    obtain ⟨⟨r, e⟩, hw, rfl⟩ := Option.map_eq_some_iff.1 h
    exact lpBond_lawful hC hw (hB r (Option.map_eq_some_iff.2 ⟨_, hw, rfl⟩))
  | farmHarvest w => exact farmHarvest_lawful h
  | farmUnbond w => exact farmUnbond_lawful hC h
  | other o =>
    cases h
    exact other_lawful o hF

/-- The arrays of the whole batch. -/
theorem main_lawful (hC : C.toKeccak.Ideal) {memoHashes : List Word} {ops : List (Op C.toKeccak)}
    {pv : ConfidentialPool.PublicValues} (h : main C H memoHashes ops = some pv)
    (hB : ∀ op ∈ ops, ∀ r, op.bonds C H = some r → B r) (hF : ∀ op ∈ ops, ∀ c ∈ op.foreign, F c) :
    ∃ e : Effects, e.Lawful C.toKeccak B F ∧ pv.nullifiers = e.nullifiers ∧ pv.leaves = e.leaves ∧ pv.cdpMints = e.cdpMints ∧
      pv.cdpCloses = e.cdpCloses ∧ pv.positions = e.positions := by
  simp only [main, bind, Option.bind_eq_some_iff, Option.guard_eq_some', pure, Option.some.injEq] at h
  obtain ⟨-, -, all, hall, -, -, -, -, -, -, -, -, rfl⟩ := h
  refine ⟨_, ?_, rfl, rfl, rfl, rfl, rfl⟩
  have hruns := forall₂_of_mapM hall
  clear hall
  induction hruns with
  | nil => exact Effects.lawful_empty
  | cons hop _ ih =>
    refine (Op.run_lawful hC hop (hB _ List.mem_cons_self) (hF _ List.mem_cons_self)).append ?_
    exact ih (fun op hop => hB op (List.mem_cons_of_mem _ hop)) fun op hop => hF op (List.mem_cons_of_mem _ hop)

end SettleGuest

end Tacit
