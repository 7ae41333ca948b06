import Mathlib.Algebra.BigOperators.Intervals
import Mathlib.Algebra.Order.BigOperators.Group.Finset
import Mathlib.Data.List.GetD
import Tacit.EvmPool.Log
/-!
# The pool stays solvent

An inserted leaf is worth its note's value until its nullifier is marked. A leaf determines its note, a key its point, so a
position has one nullifier whichever root its membership is proved against; what a call spends it therefore takes off
the sum of unspent leaves, and `spends_balance` is the field equation read in the integers. The pool's balance less the
sum of unspent leaves does not fall over a call with all that is called from it (`Surplus`).
-/
namespace Tacit

open Prog

namespace EvmPool

variable {G : Gadgets} {cfg : Config} {s t : Storage} {S : List (Nat × Nat)} {p : PublicInputs} {w : Witness}

/-! ## The amounts -/

theorem publicAmount_of_nonneg {ext : Int} {fee : Nat} (h : 0 ≤ ext - fee) (hlt : ext - fee < P) :
    (publicAmount ext fee : Int) = ext - fee := by
  rw [publicAmount]
  simp only [Int.tmod_eq_of_lt h hlt]
  rw [if_neg (by omega)]
  omega

theorem publicAmount_of_neg {ext : Int} {fee : Nat} (h : ext - fee < 0) (hlt : -P < ext - fee) :
    (publicAmount ext fee : Int) = ext - fee + P := by
  have hmod : (ext - fee).tmod P = ext - fee := by
    have hneg := Int.tmod_eq_of_lt (a := -(ext - fee)) (b := P) (by omega) (by omega)
    rw [Int.neg_tmod] at hneg
    omega
  rw [publicAmount]
  simp only [hmod]
  rw [if_pos h]
  omega

/-- **The field equation holds in the integers.** -/
theorem spends_balance {c : TransactCall} (hacc : Accepted cfg c s) (hw : w.Satisfies G c.pub) :
    (w.in0.v : Int) + w.in1.v + (c.ext.extAmount - c.ext.fee) = w.out0.v + w.out1.v := by
  have hsum := hw.sum
  have h0 := hw.in0.range
  have h1 := hw.in1.range
  have h2 := hw.out0.range
  have h3 := hw.out1.range
  obtain ⟨hlow, hhigh⟩ := hacc.ext
  have hfee := hacc.fee
  rw [hacc.amount] at hsum
  have hP : P = 21888242871839275222246405745257275088548364400416034343698204186575808495617 := rfl
  have hmax : valueMax = 2 ^ 120 := rfl
  rw [hmax] at hlow hhigh hfee
  by_cases hneg : c.ext.extAmount - c.ext.fee < 0
  · have hamount := publicAmount_of_neg hneg (by omega)
    rw [hP] at hsum hamount
    omega
  · have hamount := publicAmount_of_nonneg (by omega) (by omega : c.ext.extAmount - c.ext.fee < P)
    rw [hP] at hsum
    omega

/-! ## Leaves and nullifiers -/

open Classical in
/-- The value of a leaf: its note's, and nothing for a leaf that is no note's. -/
noncomputable def valueOf (G : Gadgets) (asset leaf : Nat) : Nat :=
  if h : ∃ v npk rho, leaf = noteLeaf G asset v npk rho then h.choose else 0

theorem valueOf_noteLeaf (hG : G.Ideal) (asset v npk rho : Nat) : valueOf G asset (noteLeaf G asset v npk rho) = v := by
  have h : ∃ v' npk' rho', noteLeaf G asset v npk rho = noteLeaf G asset v' npk' rho' := ⟨v, npk, rho, rfl⟩
  rw [valueOf, dif_pos h]
  obtain ⟨npk', rho', heq⟩ := h.choose_spec
  exact (noteLeaf_injective hG heq).2.1.symm

theorem valueOf_zero (hG : G.Ideal) (asset : Nat) : valueOf G asset 0 = 0 := by
  rw [valueOf, dif_neg]
  rintro ⟨v, npk, rho, h⟩
  exact noteLeaf_ne_zero hG asset v npk rho h.symm

/-- A nullifier of a leaf at a position: of a note whose owner's nullifier key is canonical. -/
def NullifierAt (G : Gadgets) (asset pos leaf nf : Nat) : Prop :=
  ∃ nk ak v rho, nk < bjjOrder ∧ leaf = noteLeaf G asset v (ownerKey G ak nk) rho ∧ nf = nullifierOf G nk leaf pos

/-- **A position has one nullifier.** -/
theorem NullifierAt.unique (hG : G.Ideal) {asset pos leaf nf nf' : Nat} (h : NullifierAt G asset pos leaf nf)
    (h' : NullifierAt G asset pos leaf nf') : nf = nf' := by
  obtain ⟨nk, ak, v, rho, hk, hleaf, rfl⟩ := h
  obtain ⟨nk', ak', v', rho', hk', hleaf', rfl⟩ := h'
  have howner := (noteLeaf_injective hG (hleaf.symm.trans hleaf')).2.2.1
  rw [(ownerKey_injective hG hk hk' howner).2]

/-- A nullifier has one position and leaf. -/
theorem NullifierAt.position (hG : G.Ideal) {asset pos pos' leaf leaf' nf : Nat} (h : NullifierAt G asset pos leaf nf)
    (h' : NullifierAt G asset pos' leaf' nf) : pos = pos' ∧ leaf = leaf' := by
  obtain ⟨nk, ak, v, rho, -, -, rfl⟩ := h
  obtain ⟨nk', ak', v', rho', -, -, heq⟩ := h'
  obtain ⟨-, hleaf, hpos⟩ := nullifierOf_injective hG heq
  exact ⟨hpos, hleaf⟩

/-- A leaf whose nullifier is marked. -/
def Spent (G : Gadgets) (asset : Nat) (marked : Nat → Bool) (pos leaf : Nat) : Prop :=
  ∃ nf, NullifierAt G asset pos leaf nf ∧ marked nf = true

open Classical in
/-- What a leaf is worth at a position. -/
noncomputable def worth (G : Gadgets) (asset : Nat) (marked : Nat → Bool) (pos leaf : Nat) : Nat :=
  if Spent G asset marked pos leaf then 0 else valueOf G asset leaf

/-- **The sum of the values of the leaves whose nullifier is not marked.** -/
noncomputable def unspent (G : Gadgets) (asset : Nat) (marked : Nat → Bool) (l : List Nat) : Nat :=
  ∑ pos ∈ Finset.range l.length, worth G asset marked pos (l.getD pos 0)

theorem worth_le (asset : Nat) (marked : Nat → Bool) (pos leaf : Nat) :
    worth G asset marked pos leaf ≤ valueOf G asset leaf := by
  unfold worth
  split
  · exact Nat.zero_le _
  · exact le_refl _

/-- A pair of new leaves adds at most its values. -/
theorem unspent_append (asset : Nat) (marked : Nat → Bool) (l : List Nat) (x y : Nat) :
    unspent G asset marked (l ++ [x, y]) ≤ unspent G asset marked l + valueOf G asset x + valueOf G asset y := by
  have hlen : (l ++ [x, y]).length = l.length + 1 + 1 := List.length_append
  have hold : ∑ pos ∈ Finset.range l.length, worth G asset marked pos ((l ++ [x, y]).getD pos 0) =
      unspent G asset marked l := by
    refine Finset.sum_congr rfl fun pos hpos => ?_
    have hlt := Finset.mem_range.1 hpos
    rw [List.getD_append _ _ _ _ hlt]
  have hx : (l ++ [x, y]).getD l.length 0 = x := by simp
  have hy : (l ++ [x, y]).getD (l.length + 1) 0 = y := by simp
  rw [unspent, hlen, Finset.sum_range_succ, Finset.sum_range_succ, hold, hx, hy]
  have := worth_le (G := G) asset marked l.length x
  have := worth_le (G := G) asset marked (l.length + 1) y
  omega

/-! ## What a call spends -/

/-- An input slot of a satisfied relation that spends a note against a root the pool has held. -/
structure Spends (G : Gadgets) (cfg : Config) (s : Storage) (p : PublicInputs) (nf : Nat) (i : Input) : Prop where
  satisfies : i.Satisfies G p nf
  asset : p.asset = cfg.assetField
  known : s.everKnownRoot p.root = true
  value : i.v ≠ 0

variable {nf : Nat} {i : Input}

/-- A slot of nonzero value has a nullifier, and it is the leaf's. -/
theorem Input.Satisfies.nullifierAt (h : i.Satisfies G p nf) (hv : i.v ≠ 0) :
    nf ≠ 0 ∧ NullifierAt G p.asset i.index (i.leaf G p.asset) nf := by
  have hnf : nf ≠ 0 := fun h0 => hv (h.empty h0)
  exact ⟨hnf, i.nk, i.ak, i.v, i.rho, h.key, rfl, (h.nullifier hnf).symm⟩

/-- **Its leaf is the inserted one at its index**, whichever root it is proved against. -/
theorem Spends.leaf (hG : G.Ideal) (h : Spends G cfg s p nf i) (htree : Tree G S s) :
    i.index < (leavesOf S).length ∧ (leavesOf S).getD i.index 0 = i.leaf G cfg.assetField := by
  obtain ⟨j, hj, hroot⟩ := (htree.everKnownRoot_iff p.root).1 h.known
  have hmember := h.satisfies.member h.value
  rw [hroot, h.asset] at hmember
  have hindex : i.index % 2 ^ 32 = i.index := Nat.mod_eq_of_lt h.satisfies.index
  have hbind := (Merkle.rootFrom_binding (node_injective hG) 32 (Merkle.pad 0 ((leavesOf S).take (2 * j)))
    (i.leaf G cfg.assetField) i.index i.path h.satisfies.path hmember).1
  rw [hindex] at hbind
  have hlt : i.index < ((leavesOf S).take (2 * j)).length := by
    by_contra hle
    rw [Merkle.pad_of_le 0 (not_lt.1 hle)] at hbind
    exact noteLeaf_ne_zero hG _ _ _ _ hbind
  have hlt' : i.index < (leavesOf S).length := by
    rw [List.length_take] at hlt
    omega
  rw [Merkle.pad_of_lt 0 hlt, List.getElem_take] at hbind
  exact ⟨hlt', by rw [List.getD_eq_getElem _ _ hlt', hbind]⟩

/-- What a slot takes off a position. -/
def Input.charge (i : Input) (pos : Nat) : Nat := if pos = i.index then i.v else 0

theorem Spends.sum_charge (hG : G.Ideal) (h : i.v ≠ 0 → Spends G cfg s p nf i) (htree : Tree G S s) :
    ∑ pos ∈ Finset.range (leavesOf S).length, i.charge pos = i.v := by
  simp only [Input.charge, Finset.sum_ite_eq', Finset.mem_range]
  by_cases hv : i.v = 0
  · rw [hv, ite_self]
  · rw [if_pos ((h hv).leaf hG htree).1]

theorem mark_of_ne {marked : Nat → Bool} {nf nf' : Nat} (h : marked nf' = true) : mark marked nf nf' = true := by
  unfold mark
  by_cases h0 : nf ≠ 0
  · rw [if_pos h0]
    by_cases heq : nf' = nf
    · rw [heq, Function.update_self]
    · rw [Function.update_of_ne heq, h]
  · rw [if_neg h0, h]

theorem mark_self {marked : Nat → Bool} {nf : Nat} (h : nf ≠ 0) : mark marked nf nf = true := by
  rw [mark, if_pos h, Function.update_self]

theorem record_nullified0 (h : p.nf0 ≠ 0) : (s.record p).nullified p.nf0 = true := mark_of_ne (mark_self h)

theorem record_nullified1 (h : p.nf1 ≠ 0) : (s.record p).nullified p.nf1 = true := mark_self h

/-- A spent slot's leaf was worth its value and is worth nothing. -/
theorem Spends.worth (hG : G.Ideal) (h : Spends G cfg s p nf i) (htree : Tree G S s) {marked marked' : Nat → Bool}
    (hfresh : marked nf = false) (hmarked : marked' nf = true) :
    worth G cfg.assetField marked i.index ((leavesOf S).getD i.index 0) = i.v ∧
      EvmPool.worth G cfg.assetField marked' i.index ((leavesOf S).getD i.index 0) = 0 := by
  obtain ⟨-, hat⟩ := h.satisfies.nullifierAt h.value
  rw [h.asset] at hat
  rw [(h.leaf hG htree).2]
  constructor
  · rw [EvmPool.worth, if_neg, Input.leaf, valueOf_noteLeaf hG]
    rintro ⟨nf', hat', hnf'⟩
    rw [← hat.unique hG hat', hfresh] at hnf'
    cases hnf'
  · exact if_pos ⟨nf, hat, hmarked⟩

theorem worth_anti (asset : Nat) {marked marked' : Nat → Bool} (h : ∀ nf, marked nf = true → marked' nf = true)
    (pos leaf : Nat) : worth G asset marked' pos leaf ≤ worth G asset marked pos leaf := by
  unfold worth
  by_cases hs : Spent G asset marked pos leaf
  · obtain ⟨nf, hat, hnf⟩ := hs
    rw [if_pos ⟨nf, hat, h nf hnf⟩]
    exact Nat.zero_le _
  · rw [if_neg hs]
    exact worth_le asset marked' pos leaf

theorem charge_eq_zero {pos : Nat} (h : ¬ (pos = i.index ∧ i.v ≠ 0)) : i.charge pos = 0 := by
  unfold Input.charge
  by_cases hpos : pos = i.index
  · rw [if_pos hpos]
    by_contra hv
    exact h ⟨hpos, hv⟩
  · rw [if_neg hpos]

/-- Two spends of one position have one nullifier. -/
theorem Spends.nullifier_unique (hG : G.Ideal) {p' : PublicInputs} {nf' : Nat} {i' : Input} (h : Spends G cfg s p nf i)
    (h' : Spends G cfg s p' nf' i') (htree : Tree G S s) : i.index = i'.index ↔ nf = nf' := by
  obtain ⟨-, hat⟩ := h.satisfies.nullifierAt h.value
  obtain ⟨-, hat'⟩ := h'.satisfies.nullifierAt h'.value
  rw [h.asset] at hat
  rw [h'.asset] at hat'
  constructor
  · intro hindex
    have hleaf := (h.leaf hG htree).2
    rw [hindex, (h'.leaf hG htree).2] at hleaf
    rw [hindex, ← hleaf] at hat
    exact hat.unique hG hat'
  · rintro rfl
    exact (hat.position hG hat').1

/-- **The spent notes leave the sum.** -/
theorem unspent_record (hG : G.Ideal) (htree : Tree G S s) (hw : w.Satisfies G p) (hasset : p.asset = cfg.assetField)
    (hknown : s.sizeOf p.root ≠ 0) (hfresh0 : p.nf0 ≠ 0 → s.nullified p.nf0 = false) (hdistinct : p.nf1 ≠ 0 → p.nf1 ≠ p.nf0)
    (hfresh1 : p.nf1 ≠ 0 → s.nullified p.nf1 = false) :
    unspent G cfg.assetField (s.record p).nullified (leavesOf S) + w.in0.v + w.in1.v ≤
      unspent G cfg.assetField s.nullified (leavesOf S) := by
  have hroot : s.everKnownRoot p.root = true := decide_eq_true hknown
  have h0 : w.in0.v ≠ 0 → Spends G cfg s p p.nf0 w.in0 := fun hv => ⟨hw.in0, hasset, hroot, hv⟩
  have h1 : w.in1.v ≠ 0 → Spends G cfg s p p.nf1 w.in1 := fun hv => ⟨hw.in1, hasset, hroot, hv⟩
  have hcharge0 := Spends.sum_charge hG h0 htree
  have hcharge1 := Spends.sum_charge hG h1 htree
  have hpos : ∀ pos ∈ Finset.range (leavesOf S).length,
      worth G cfg.assetField (s.record p).nullified pos ((leavesOf S).getD pos 0) + w.in0.charge pos + w.in1.charge pos ≤
        worth G cfg.assetField s.nullified pos ((leavesOf S).getD pos 0) := by
    intro pos _
    by_cases hin0 : pos = w.in0.index ∧ w.in0.v ≠ 0
    · obtain ⟨rfl, hv⟩ := hin0
      have hnf := (hw.in0.nullifierAt hv).1
      obtain ⟨hbefore, hafter⟩ := (h0 hv).worth hG htree (hfresh0 hnf) (record_nullified0 hnf)
      -- the other slot spends another position
      have hother : w.in1.charge w.in0.index = 0 := by
        refine charge_eq_zero fun hboth => ?_
        have hnf1 := (hw.in1.nullifierAt hboth.2).1
        exact hdistinct hnf1 (((h0 hv).nullifier_unique hG (h1 hboth.2) htree).1 hboth.1).symm
      rw [hbefore, hafter, hother, Input.charge, if_pos rfl]
      omega
    · rw [charge_eq_zero hin0]
      by_cases hin1 : pos = w.in1.index ∧ w.in1.v ≠ 0
      · obtain ⟨rfl, hv⟩ := hin1
        have hnf := (hw.in1.nullifierAt hv).1
        obtain ⟨hbefore, hafter⟩ := (h1 hv).worth hG htree (hfresh1 hnf) (record_nullified1 hnf)
        rw [hbefore, hafter, Input.charge, if_pos rfl]
        omega
      · rw [charge_eq_zero hin1]
        exact worth_anti cfg.assetField (fun nf h => mark_of_ne (mark_of_ne h)) pos _
  have hsum := Finset.sum_le_sum hpos
  rw [Finset.sum_add_distrib, Finset.sum_add_distrib, hcharge0, hcharge1] at hsum
  exact hsum

/-- An output's leaf is worth its value. -/
theorem Output.Satisfies.worth (hG : G.Ideal) {l : Nat} {o : Output} (h : o.Satisfies G p l) :
    valueOf G p.asset l = o.v := by
  by_cases hl : l = 0
  · rw [h.empty hl, hl, valueOf_zero hG]
  · rw [← h.opens hl, valueOf_noteLeaf hG]

/-! ## Any calls -/

/-- The balance less the sum of unspent leaves grows by `d` at least. -/
def Surplus (G : Gadgets) (cfg : Config) (d : Int) (s t : Storage) : Prop := ∀ S, Tree G S s →
  ∃ T, Tree G (S ++ T) t ∧
    (s.balance : Int) + unspent G cfg.assetField t.nullified (leavesOf (S ++ T)) + d ≤
      t.balance + unspent G cfg.assetField s.nullified (leavesOf S)

theorem flow_surplus (G : Gadgets) (cfg : Config) : Flow (Surplus G cfg) where
  refl s S h := ⟨[], by rwa [List.append_nil], by rw [List.append_nil, Int.add_zero]⟩
  trans {d d' s t u} hst htu := by
    intro S h
    obtain ⟨T, hT, hle⟩ := hst S h
    obtain ⟨U, hU, hle'⟩ := htu (S ++ T) hT
    rw [List.append_assoc] at hU hle'
    exact ⟨T ++ U, hU, by omega⟩
  mono {d d' s t} hd h := by
    intro S hS
    obtain ⟨T, hT, hle⟩ := h S hS
    exact ⟨T, hT, by omega⟩
  balance s b S h := ⟨[], by rw [List.append_nil]; exact h.congr rfl rfl, by
    rw [List.append_nil]
    dsimp only
    omega⟩

/-- **A call does not lower the surplus**, whatever is called from it. -/
theorem surplus_transact (hG : G.Ideal) (hsound : cfg.Sound G) {value : Nat} {c : TransactCall} {cb : Callbacks}
    (hcb : cb.Flows (Surplus G cfg)) : Surplus G cfg 0 s ((transact cfg value c cb).call s) := by
  rcases call_cases (transact cfg value c cb) s with hcall | ⟨u, hok⟩
  · rw [hcall]
    exact (flow_surplus G cfg).refl s
  obtain ⟨hacc, t, hsettle, ht⟩ := transact_ok (flow_surplus G cfg) hcb hok
  obtain ⟨w, hw⟩ := hsound _ _ hacc.proved
  rw [ht]
  intro S h
  have hspent := unspent_record hG h hw hacc.asset hacc.known hacc.fresh0 hacc.distinct hacc.fresh1
  have hbalance := spends_balance hacc hw
  have hout0 := hw.out0.worth hG
  have hout1 := hw.out1.worth hG
  rw [hacc.asset] at hout0 hout1
  have hkept : (s.record c.pub).balance = s.balance := rfl
  by_cases hins : c.pub.inserts = true
  · obtain ⟨hold, hstart, hroom⟩ := hacc.head hins
    obtain ⟨T, hT, hle⟩ := hsettle _ (h.insert hG hw.insertion hins hold hstart hroom)
    have hnew := unspent_append (G := G) cfg.assetField (s.record c.pub).nullified (leavesOf S) c.pub.outLeaf0 c.pub.outLeaf1
    have hpair : leavesOf (S ++ [(c.pub.outLeaf0, c.pub.outLeaf1)]) = leavesOf S ++ [c.pub.outLeaf0, c.pub.outLeaf1] :=
      leavesOf_append S _
    rw [List.append_assoc] at hT
    rw [List.append_assoc, hpair] at hle
    refine ⟨_ :: T, hT.congr rfl rfl, ?_⟩
    show (s.balance : Int) + unspent G cfg.assetField t.nullified (leavesOf (S ++ (_ :: T))) + 0 ≤
      t.balance + unspent G cfg.assetField s.nullified (leavesOf S)
    rw [List.singleton_append] at hle
    omega
  · have hno : c.pub.inserts = false := by simpa using hins
    obtain ⟨hroot, hsize⟩ := record_of_not_inserts (s := s) hno
    obtain ⟨T, hT, hle⟩ := hsettle S (h.congr hroot hsize)
    refine ⟨T, hT.congr rfl rfl, ?_⟩
    have hnone : c.pub.outLeaf0 = 0 ∧ c.pub.outLeaf1 = 0 := by
      by_contra hne
      exact hins (inserts_iff.2 (by tauto))
    rw [hnone.1, valueOf_zero hG] at hout0
    rw [hnone.2, valueOf_zero hG] at hout1
    show (s.balance : Int) + unspent G cfg.assetField t.nullified (leavesOf (S ++ T)) + 0 ≤
      t.balance + unspent G cfg.assetField s.nullified (leavesOf S)
    omega

theorem surplus_execAll (hG : G.Ideal) (hsound : cfg.Sound G) (acts : List Act) (s : Storage) :
    Surplus G cfg 0 s (execAll cfg acts s) :=
  (flow_surplus G cfg).execAll (fun _ _ _ _ => surplus_transact hG hsound) acts s

end EvmPool

open EvmPool in
/-- **The pool stays solvent**, at the end of any calls with any calls inside them; a position has one nullifier, and
every accepted call, in any state, balances in the integers. -/
theorem evm_pool_solvent {G : Gadgets} (hG : G.Ideal) {cfg : EvmPool.Config} (hsound : cfg.Sound G) (b : Nat)
    (acts : List EvmPool.Act) :
    let s := EvmPool.execAll cfg acts (.deployed G b)
    -- the pairs of the inserting calls, in order
    (∃ S, (insertions s.log).Perm (numbered 0 S) ∧
      unspent G cfg.assetField s.nullified (leavesOf S) ≤ s.balance ∧
      (∀ p nf i, Spends G cfg s p nf i → i.index < (leavesOf S).length ∧
        (leavesOf S).getD i.index 0 = i.leaf G cfg.assetField ∧
        NullifierAt G cfg.assetField i.index ((leavesOf S).getD i.index 0) nf) ∧
      (∀ pos nf nf', NullifierAt G cfg.assetField pos ((leavesOf S).getD pos 0) nf →
        NullifierAt G cfg.assetField pos ((leavesOf S).getD pos 0) nf' → nf = nf') ∧
      ∀ p nf i p' nf' i', Spends G cfg s p nf i → Spends G cfg s p' nf' i' → (i.index = i'.index ↔ nf = nf')) ∧
    ∀ (r : EvmPool.Storage) (value : Nat) (c : TransactCall) (cb : Callbacks) (u : Unit) (t : EvmPool.Storage) (w : Witness),
      EvmPool.transact cfg value c cb r = .ok u t → w.Satisfies G c.pub →
        (w.in0.v : Int) + w.in1.v + (c.ext.extAmount - c.ext.fee) = w.out0.v + w.out1.v := by
  intro s
  obtain ⟨S, h, hlog⟩ := grows_execAll hG hsound acts _ [] (Tree.deployed b)
  obtain ⟨S', h', hle⟩ := surplus_execAll hG hsound acts _ [] (Tree.deployed b)
  rw [List.nil_append] at h h' hle
  obtain rfl := h.unique hG h'
  change Tree G S s at h
  refine ⟨⟨S, hlog, ?_, fun p nf i hi => ?_, fun pos nf nf' => NullifierAt.unique hG, fun p nf i p' nf' i' hi hi' =>
    hi.nullifier_unique hG hi' h⟩, fun r value c cb u t w hok hw => ?_⟩
  · have hempty : unspent G cfg.assetField (Storage.deployed G b).nullified (leavesOf []) = 0 := rfl
    rw [hempty] at hle
    change (_ : Int) + unspent G cfg.assetField s.nullified (leavesOf S) + 0 ≤ s.balance + 0 at hle
    omega
  · obtain ⟨hlt, hleaf⟩ := hi.leaf hG h
    refine ⟨hlt, hleaf, ?_⟩
    rw [hleaf, ← hi.asset]
    exact (hi.satisfies.nullifierAt hi.value).2
  · exact spends_balance (transact_accepted hok) hw

open EvmPool in
/-- A deposit of one unit is covered. -/
theorem evm_pool_solvent_deposit : ∃ S,
    let s := EvmPool.execAll (demoPool codeKeccak codeGadgets) [demoDeposit codeKeccak codeGadgets] (.deployed codeGadgets 0)
    S.length = 1 ∧ unspent codeGadgets (demoPool codeKeccak codeGadgets).assetField s.nullified (leavesOf S) ≤ s.balance := by
  obtain ⟨⟨S, hlog, hle, -⟩, -⟩ :=
    evm_pool_solvent codeGadgets_ideal (demoPool_sound codeGadgets_ideal) 0 [demoDeposit codeKeccak codeGadgets]
  have hS := demo_pairs codeGadgets_ideal hlog
  exact ⟨S, by rw [hS]; rfl, hle⟩

end Tacit
