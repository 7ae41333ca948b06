import Tacit.BurnDeposit
import Tacit.Lib.Derivation
/-!
# The provenance of a burned note as a derivation (burn_deposit.rs:66-155)

`verify_provenance_dag_leaves` marks transfers in passes, in the order they are listed. What it decides does not depend on
that order: every transfer's inputs must have a finite derivation from the supply leaves. Notes are the code's pairs of an
outpoint key and a commitment hash.
-/
namespace Tacit

namespace VerifiedCxfer

variable (K : Keccak)

/-- The notes a transfer spends, as the reachability check looks them up. -/
def needs (c : VerifiedCxfer) : List (Word × Word) := c.inputs.map fun (op, ch) => (outpointKey K op, ch)

theorem ready_iff {c : VerifiedCxfer} {reachable : List (Word × Word)} :
    c.ready K reachable = true ↔ c.needs K ⊆ reachable := by
  simp only [ready, needs, List.all_eq_true, List.contains_iff_mem, List.subset_def, List.forall_mem_map]

theorem needs_fst (c : VerifiedCxfer) : (c.needs K).map Prod.fst = c.consumed K := by
  simp [needs, consumed, List.map_map, Function.comp_def]

end VerifiedCxfer

section Passes

variable {K : Keccak} {pending rest : List VerifiedCxfer} {known known' : List (Word × Word)} {fuel : Nat}

/-- A transfer has been accepted: what it spends was reachable and what it makes is. -/
def Accepted (K : Keccak) (known : List (Word × Word)) (c : VerifiedCxfer) : Prop := c.needs K ⊆ known ∧ c.produced K ⊆ known

theorem Accepted.mono {c : VerifiedCxfer} (hsub : known ⊆ known') (h : Accepted K known c) : Accepted K known' c :=
  ⟨List.Subset.trans h.1 hsub, List.Subset.trans h.2 hsub⟩

/-- One pass only adds reachable notes, and accepts the transfers it does not leave. -/
theorem dagPass_spec (h : dagPass K pending known = (rest, known')) :
    known ⊆ known' ∧ rest ⊆ pending ∧ ∀ c ∈ pending, c ∈ rest ∨ Accepted K known' c := by
  induction pending generalizing known rest with
  | nil => cases h; simp
  | cons c t ih =>
    unfold dagPass at h
    split at h
    · rename_i hready
      obtain ⟨hknown, hrest, hacc⟩ := ih h
      have hc : Accepted K known' c :=
        ⟨List.Subset.trans ((VerifiedCxfer.ready_iff K).1 hready) (List.Subset.trans (List.subset_append_left ..) hknown),
          List.Subset.trans (List.subset_append_right ..) hknown⟩
      refine ⟨List.Subset.trans (List.subset_append_left ..) hknown, List.Subset.trans hrest (List.subset_cons_self ..), ?_⟩
      simpa [hc] using hacc
    · cases hpass : dagPass K t known with
      | mk rest₀ known₀ =>
        rw [hpass] at h
        cases h
        obtain ⟨hknown, hrest, hacc⟩ := ih hpass
        refine ⟨hknown, List.cons_subset_cons _ hrest, ?_⟩
        intro d hd
        obtain rfl | hd := List.mem_cons.1 hd
        · exact .inl (List.mem_cons_self ..)
        · exact (hacc d hd).imp_left (List.mem_cons_of_mem _)

/-- What a pass reaches is derivable by the transfers it looks at. -/
theorem dagPass_derives {leaves : List (Word × Word)} {cxfers : List VerifiedCxfer} (hsub : pending ⊆ cxfers)
    (hknown : ∀ n ∈ known, Derives (VerifiedCxfer.needs K) (VerifiedCxfer.produced K) leaves cxfers n)
    (h : dagPass K pending known = (rest, known')) :
    ∀ n ∈ known', Derives (VerifiedCxfer.needs K) (VerifiedCxfer.produced K) leaves cxfers n := by
  induction pending generalizing known rest with
  | nil => cases h; exact hknown
  | cons c t ih =>
    have hc : c ∈ cxfers := hsub (List.mem_cons_self ..)
    have ht : t ⊆ cxfers := List.Subset.trans (List.subset_cons_self ..) hsub
    unfold dagPass at h
    split at h
    · rename_i hready
      refine ih ht ?_ h
      intro n hn
      obtain hn | hn := List.mem_append.1 hn
      · exact hknown n hn
      · exact .rule hc (fun b hb => hknown b ((VerifiedCxfer.ready_iff K).1 hready hb)) hn
    · cases hpass : dagPass K t known with
      | mk rest₀ known₀ =>
        rw [hpass] at h
        cases h
        exact ih ht hknown hpass

theorem dagPass_length (h : dagPass K pending known = (rest, known')) : rest.length ≤ pending.length := by
  induction pending generalizing known rest with
  | nil => cases h; simp
  | cons c t ih =>
    unfold dagPass at h
    split at h
    · exact (ih h).trans (Nat.le_succ _)
    · cases hpass : dagPass K t known with
      | mk rest₀ known₀ =>
        rw [hpass] at h
        cases h
        exact Nat.succ_le_succ (ih hpass)

/-- A pass that accepts nothing leaves everything as it was: no transfer left is ready. -/
theorem dagPass_fixed (h : dagPass K pending known = (rest, known')) (hlen : rest.length = pending.length) :
    known' = known ∧ rest = pending ∧ ∀ c ∈ pending, ¬c.needs K ⊆ known := by
  induction pending generalizing known rest with
  | nil => cases h; simp
  | cons c t ih =>
    unfold dagPass at h
    split at h
    · have := dagPass_length h
      simp only [List.length_cons] at hlen
      omega
    · rename_i hready
      cases hpass : dagPass K t known with
      | mk rest₀ known₀ =>
        rw [hpass] at h
        cases h
        obtain ⟨rfl, rfl, hstuck⟩ := ih hpass (Nat.succ_inj.1 hlen)
        refine ⟨rfl, rfl, ?_⟩
        intro d hd
        obtain rfl | hd := List.mem_cons.1 hd
        · exact mt (VerifiedCxfer.ready_iff K).2 hready
        · exact hstuck d hd

/-- What the passes keep: every transfer is still pending or accepted, and only derivable notes are reachable. -/
structure Marking (K : Keccak) (leaves : List (Word × Word)) (cxfers pending : List VerifiedCxfer)
    (known : List (Word × Word)) : Prop where
  base : leaves ⊆ known
  sub : pending ⊆ cxfers
  marked : ∀ c ∈ cxfers, c ∈ pending ∨ Accepted K known c
  derivable : ∀ n ∈ known, Derives (VerifiedCxfer.needs K) (VerifiedCxfer.produced K) leaves cxfers n

namespace Marking

variable {leaves : List (Word × Word)} {cxfers : List VerifiedCxfer}

theorem start (K : Keccak) (leaves : List (Word × Word)) (cxfers : List VerifiedCxfer) :
    Marking K leaves cxfers cxfers leaves :=
  ⟨List.Subset.refl _, List.Subset.refl _, fun _ => .inl, fun _ => .base⟩

theorem pass (M : Marking K leaves cxfers pending known) (h : dagPass K pending known = (rest, known')) :
    Marking K leaves cxfers rest known' := by
  obtain ⟨hknown, hrest, hacc⟩ := dagPass_spec h
  refine ⟨List.Subset.trans M.base hknown, List.Subset.trans hrest M.sub, ?_, dagPass_derives M.sub M.derivable h⟩
  intro c hc
  obtain hpending | hdone := M.marked c hc
  · exact hacc c hpending
  · exact .inr (hdone.mono hknown)

/-- The loop stops with nothing left that is ready: a pass without progress comes before the fuel runs out. -/
theorem loop (M : Marking K leaves cxfers pending known) (hfuel : pending.length < fuel) :
    Marking K leaves cxfers (dagLoop K fuel pending known).1 (dagLoop K fuel pending known).2 ∧
      ∀ c ∈ (dagLoop K fuel pending known).1, ¬c.needs K ⊆ (dagLoop K fuel pending known).2 := by
  induction fuel generalizing pending known with
  | zero => omega
  | succ fuel ih =>
    cases hpass : dagPass K pending known with
    | mk rest known' =>
      simp only [dagLoop, hpass]
      by_cases hlen : rest.length = pending.length
      · obtain ⟨rfl, rfl, hstuck⟩ := dagPass_fixed hpass hlen
        simp only [if_true]
        exact ⟨M, hstuck⟩
      · simp only [if_neg hlen]
        have := dagPass_length hpass
        exact ih (M.pass hpass) (by omega)

/-- Once no pending transfer is ready, what is derivable is reachable. -/
theorem complete (M : Marking K leaves cxfers pending known) (hstuck : ∀ c ∈ pending, ¬c.needs K ⊆ known)
    {n : Word × Word} (hn : Derives (VerifiedCxfer.needs K) (VerifiedCxfer.produced K) leaves cxfers n) : n ∈ known := by
  refine hn.mem_closed (fun _ h => M.base h) ?_
  intro c hc hneeds m hm
  obtain hpending | hdone := M.marked c hc
  · exact absurd hneeds (hstuck c hpending)
  · exact hdone.2 hm

end Marking

/-- The passes accept every transfer exactly when every input is derivable. -/
theorem dagLoop_accepts {leaves : List (Word × Word)} {cxfers : List VerifiedCxfer} :
    (dagLoop K (cxfers.length + 1) cxfers leaves).1 = [] ↔
      ∀ c ∈ cxfers, ∀ n ∈ c.needs K, Derives (VerifiedCxfer.needs K) (VerifiedCxfer.produced K) leaves cxfers n := by
  obtain ⟨M, hstuck⟩ := (Marking.start K leaves cxfers).loop (Nat.lt_succ_self cxfers.length)
  constructor
  · intro hempty c hc n hn
    obtain hpending | hdone := M.marked c hc
    · rw [hempty] at hpending
      cases hpending
    · exact M.derivable n (hdone.1 hn)
  · intro hall
    rw [List.eq_nil_iff_forall_not_mem]
    intro c hpending
    exact hstuck c hpending fun n hn => M.complete hstuck (hall c (M.sub hpending) n hn)

end Passes

/-! ## What the check decides -/

section Check

variable (K : Keccak)

/-- The burned note `h` descends from the leaves: no outpoint is made or spent twice, every transfer's inputs have a
finite derivation, and the burned note is made and not spent. -/
structure Descends (leaves : List (Word × Word)) (burned : Word) (cxfers : List VerifiedCxfer) (h : Word) : Prop where
  producedOnce : ((cxfers.map (·.produced K)).flatten.map Prod.fst).Nodup
  consumedOnce : (cxfers.map (·.consumed K)).flatten.Nodup
  derivable : ∀ c ∈ cxfers, ∀ n ∈ c.needs K,
    Derives (VerifiedCxfer.needs K) (VerifiedCxfer.produced K) leaves cxfers n
  made : (burned, h) ∈ (cxfers.map (·.produced K)).flatten
  live : burned ∉ (cxfers.map (·.consumed K)).flatten

/-- Every transfer has an input and an output. -/
def Proper (cxfers : List VerifiedCxfer) : Prop := ∀ c ∈ cxfers, c.inputs ≠ [] ∧ c.outputs ≠ []

variable {K} {leaves : List (Word × Word)} {burned h : Word} {cxfers cxfers' : List VerifiedCxfer}

theorem Descends.perm (hp : cxfers.Perm cxfers') (D : Descends K leaves burned cxfers h) : Descends K leaves burned cxfers' h where
  producedOnce := (((hp.map _).flatten.map _).nodup_iff).1 D.producedOnce
  consumedOnce := ((hp.map _).flatten.nodup_iff).1 D.consumedOnce
  derivable := fun c hc n hn => (D.derivable c (hp.mem_iff.2 hc) n hn).mono hp.subset
  made := (hp.map _).flatten.mem_iff.1 D.made
  live := mt (hp.map _).flatten.mem_iff.2 D.live

/-- The check accepts exactly the proper lists that the burned note descends by. -/
theorem verifyProvenanceDagLeaves_eq_some :
    verifyProvenanceDagLeaves K leaves burned cxfers = some h ↔ Proper cxfers ∧ Descends K leaves burned cxfers h := by
  have hloop : (!(dagLoop K (cxfers.length + 1) cxfers leaves).1.isEmpty) = true ↔ ¬∀ c ∈ cxfers, ∀ n ∈ c.needs K,
      Derives (VerifiedCxfer.needs K) (VerifiedCxfer.produced K) leaves cxfers n := by
    rw [Bool.not_eq_true', Bool.eq_false_iff, Ne, List.isEmpty_iff, dagLoop_accepts]
  simp only [verifyProvenanceDagLeaves, hloop, Option.ite_none_left_eq_some, not_or, not_not, Bool.not_eq_true,
    List.isEmpty_iff, List.any_eq_false]
  constructor
  · rintro ⟨-, ⟨houts, hproduced⟩, ⟨hins, hconsumed⟩, hderiv, hlive, hfind⟩
    exact ⟨fun c hc => ⟨hins c hc, houts c hc⟩,
      ⟨hproduced, hconsumed, hderiv, (find?_key_eq_some hproduced).1 hfind, hlive⟩⟩
  · rintro ⟨hproper, D⟩
    refine ⟨?_, ⟨fun c hc => (hproper c hc).2, D.producedOnce⟩, ⟨fun c hc => (hproper c hc).1, D.consumedOnce⟩,
      D.derivable, D.live, (find?_key_eq_some D.producedOnce).2 D.made⟩
    rintro rfl
    exact absurd D.made (List.not_mem_nil)

/-- A transfer makes no more value than it spends, by the value `v` of a commitment hash. -/
def Conserves (v : Word → Nat) (c : VerifiedCxfer) : Prop := (c.outputs.map fun o => v o.2).sum ≤ (c.inputs.map fun i => v i.2).sum

/-- Every spent note is a leaf or a made note other than the burned one. -/
theorem Descends.spent (D : Descends K leaves burned cxfers h) :
    (cxfers.map (·.needs K)).flatten ⊆ leaves ++ (cxfers.map (·.produced K)).flatten.erase (burned, h) := by
  intro n hn
  obtain ⟨l, hl, hnl⟩ := List.mem_flatten.1 hn
  obtain ⟨c, hc, rfl⟩ := List.mem_map.1 hl
  rw [List.mem_append]
  cases D.derivable c hc n hnl with
  | base hleaf => exact .inl hleaf
  | rule hr _ hmade =>
    refine .inr ((List.mem_erase_of_ne ?_).2 (List.mem_flatten.2 ⟨_, List.mem_map_of_mem hr, hmade⟩))
    rintro rfl
    refine D.live (List.mem_flatten.2 ⟨_, List.mem_map_of_mem hc, ?_⟩)
    rw [← VerifiedCxfer.needs_fst]
    exact List.mem_map_of_mem hnl

/-- The burned note is worth no more than the leaves: each spent note is spent once, so the transfers spend no more than
the leaves and what they make besides the burned note. -/
theorem Descends.value_le (D : Descends K leaves burned cxfers h) {v : Word → Nat} (hv : ∀ c ∈ cxfers, Conserves v c) :
    v h ≤ (leaves.map fun n => v n.2).sum := by
  have hnodup : (cxfers.map (·.needs K)).flatten.Nodup := by
    refine List.Nodup.of_map Prod.fst ?_
    rw [List.map_flatten, List.map_map]
    simpa only [Function.comp_def, VerifiedCxfer.needs_fst] using D.consumedOnce
  have hspent := sum_le_of_nodup_subset (fun n => v n.2) hnodup D.spent
  have hconserved := sum_flatten_le (fun n => v n.2) (·.produced K) (·.needs K) (l := cxfers)
    fun c hc => by simpa [VerifiedCxfer.produced, VerifiedCxfer.needs, List.map_map, Function.comp_def, Conserves] using hv c hc
  have hmade := ((List.perm_cons_erase D.made).map fun n : Word × Word => v n.2).sum_eq
  rw [List.map_cons, List.sum_cons] at hmade
  change _ = v h + _ at hmade
  rw [List.map_append, List.sum_append] at hspent
  omega

/-- A transfer with no input spends nothing, and all its inputs are derivable: the check refuses it all the same. -/
theorem provenance_dag_refuses_sourceless :
    ¬ (verifyProvenanceDagLeaves codeKeccak [] (outpointKey codeKeccak (0, 0)) [⟨0, [], [(0, 0)]⟩] = some 0 ↔
      Descends codeKeccak [] (outpointKey codeKeccak (0, 0)) [⟨0, [], [(0, 0)]⟩] 0) := by
  intro hiff
  have hdesc : Descends codeKeccak [] (outpointKey codeKeccak (0, 0)) [⟨0, [], [(0, 0)]⟩] 0 := by
    refine ⟨?_, ?_, ?_, ?_, ?_⟩ <;> simp [VerifiedCxfer.produced, VerifiedCxfer.consumed, VerifiedCxfer.needs, U.wrap]
  have hproper := (verifyProvenanceDagLeaves_eq_some.1 (hiff.2 hdesc)).1
  exact (hproper _ (List.mem_singleton_self _)).1 rfl

/-- The check does not read the order of the transfers; it accepts exactly the proper lists that the burned note descends
by; and what descends through transfers that conserve is worth no more than the leaves. -/
theorem provenance_dag_exact (K : Keccak) (leaves : List (Word × Word)) (burned : Word) (cxfers : List VerifiedCxfer) :
    (∀ cxfers', cxfers.Perm cxfers' →
      verifyProvenanceDagLeaves K leaves burned cxfers' = verifyProvenanceDagLeaves K leaves burned cxfers) ∧
    (∀ h, verifyProvenanceDagLeaves K leaves burned cxfers = some h ↔ Proper cxfers ∧ Descends K leaves burned cxfers h) ∧
    ∀ h (v : Word → Nat), verifyProvenanceDagLeaves K leaves burned cxfers = some h → (∀ c ∈ cxfers, Conserves v c) →
      v h ≤ (leaves.map fun n => v n.2).sum := by
  refine ⟨fun cxfers' hp => ?_, fun h => verifyProvenanceDagLeaves_eq_some, fun h v hok hv => ?_⟩
  · refine Option.ext fun h => ?_
    rw [verifyProvenanceDagLeaves_eq_some, verifyProvenanceDagLeaves_eq_some]
    constructor
    · rintro ⟨hproper, D⟩
      exact ⟨fun c hc => hproper c (hp.mem_iff.1 hc), D.perm hp.symm⟩
    · rintro ⟨hproper, D⟩
      exact ⟨fun c hc => hproper c (hp.mem_iff.2 hc), D.perm hp⟩
  · exact (verifyProvenanceDagLeaves_eq_some.1 hok).2.value_le hv

end Check

/-- A chain of two transfers, listed last first. -/
theorem provenance_dag_exact_chain :
    verifyProvenanceDagLeaves codeKeccak [(outpointKey codeKeccak (0, 0), 0)] (outpointKey codeKeccak (wordOfNat 2, 0))
        [⟨wordOfNat 2, [((wordOfNat 1, 0), wordOfNat 1)], [(0, wordOfNat 2)]⟩, ⟨wordOfNat 1, [((0, 0), 0)], [(0, wordOfNat 1)]⟩] =
      verifyProvenanceDagLeaves codeKeccak [(outpointKey codeKeccak (0, 0), 0)] (outpointKey codeKeccak (wordOfNat 2, 0))
        [⟨wordOfNat 1, [((0, 0), 0)], [(0, wordOfNat 1)]⟩, ⟨wordOfNat 2, [((wordOfNat 1, 0), wordOfNat 1)], [(0, wordOfNat 2)]⟩] :=
  (provenance_dag_exact ..).1 _ (List.Perm.swap ..)

end Tacit
