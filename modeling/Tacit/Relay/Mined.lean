import Tacit.Relay.Difficulty
/-!
# What the relay has stored

Whatever hash it is run with, the relay only ever stores targets that are the decode of their own compact form: the genesis
target is checked to be, a retarget truncates, and the other blocks inherit. A header that it stores therefore carries bits
that it would decode to the target that the header was mined at.
-/
namespace Tacit

open Prog

/-! ## The compact form of a truncated target -/

theorem truncateCompact_le (t : Nat) : truncateCompact t ≤ t := Nat.div_mul_le_self _ _

theorem truncateCompact_size {t : Nat} (h0 : t ≠ 0) : (truncateCompact t).size = t.size := by
  apply le_antisymm
  · exact Nat.size_le_size (truncateCompact_le t)
  obtain ⟨n, hn⟩ : ∃ n, t.size = n + 1 := Nat.exists_eq_add_one.2 (Nat.size_pos.2 (Nat.pos_of_ne_zero h0))
  have hlo : 2 ^ n ≤ t := Nat.lt_size.1 (by omega)
  have hk : 8 * (compactSize t - 3) ≤ n := by
    unfold compactSize
    omega
  rw [hn, Nat.succ_le_iff, Nat.lt_size, truncateCompact, ← two_pow_eight]
  generalize compactSize t - 3 = k at hk ⊢
  calc 2 ^ n = 2 ^ (n - 8 * k) * 2 ^ (8 * k) := by rw [← pow_add, Nat.sub_add_cancel hk]
    _ ≤ t / 2 ^ (8 * k) * 2 ^ (8 * k) := by
      refine Nat.mul_le_mul_right _ ((Nat.le_div_iff_mul_le (Nat.two_pow_pos _)).2 ?_)
      rw [← pow_add, Nat.sub_add_cancel hk]
      exact hlo

theorem targetToCompact_truncate {t : Nat} (h0 : t ≠ 0) (ht : t < 2 ^ 256) :
    targetToCompact (truncateCompact t) = targetToCompact t := by
  have hsize : compactSize (truncateCompact t) = compactSize t := by rw [compactSize, truncateCompact_size h0, ← compactSize]
  have hmantissa : compactMantissa (truncateCompact t) = compactMantissa t := by
    unfold compactMantissa
    rw [hsize]
    by_cases hsmall : compactSize t ≤ 3
    · rw [if_pos hsmall, if_pos hsmall, truncateCompact, Nat.sub_eq_zero_of_le hsmall]
      simp
    · rw [if_neg hsmall, if_neg hsmall, truncateCompact, Nat.mul_div_cancel _ (by positivity)]
  have h0' : truncateCompact t ≠ 0 := by
    intro e
    have := truncateCompact_size h0
    rw [e, Nat.size_zero] at this
    exact h0 (Nat.size_eq_zero.1 this.symm)
  rw [(targetToCompact_eq h0' ((truncateCompact_le t).trans_lt ht)).1, (targetToCompact_eq h0 ht).1, hsize, hmantissa]

/-- The target is the decode of its own compact form. -/
def Canonical (maxTarget target : Nat) : Prop := bitsToTarget maxTarget (targetToCompact target) = .ok target

theorem Canonical.of_decode {maxTarget t r : Nat} (ht : t < 2 ^ 256) (h : bitsToTarget maxTarget (targetToCompact t) = .ok r) :
    Canonical maxTarget r := by
  have h0 : t ≠ 0 := by
    rintro rfl
    simp [bitsToTarget, targetToCompact] at h
  have hr := bitsToTarget_targetToCompact ht h
  rw [Canonical, hr, targetToCompact_truncate h0 ht, ← hr]
  exact h

theorem retargetTarget_canonical {maxTarget old firstTs lastTs r : Nat}
    (h : retargetTarget maxTarget old firstTs lastTs = .ok r) : Canonical maxTarget r := by
  simp only [retargetTarget, except_bind_eq_ok, need_eq_ok, uint256_eq_some] at h
  obtain ⟨product, ⟨hfit, hproduct⟩, h⟩ := h
  rw [← hproduct] at hfit
  have hquotient := Nat.div_le_self product targetTimespan
  refine .of_decode ?_ h
  split_ifs <;> omega

namespace Relay

variable {dsha256 : Bytes → Word} {now : Nat} {s t : Relay} {h : Bytes} {b : Word} {c c' : Cursor}

/-- Every target of the storage is canonical. -/
def Targets (s : Relay) : Prop := ∀ b, (s.blocks b).target ≠ 0 → Canonical s.maxTarget (s.blocks b).target

/-- The header carries bits that the relay decodes to a target, and its digest meets that target. -/
structure Mined (dsha256 : Bytes → Word) (maxTarget : Nat) (h : Bytes) : Prop where
  length : h.length = 80
  work : ∃ target, bitsToTarget maxTarget (headerBits h) = .ok target ∧ leNat (dsha256 h).bytes ≤ target

theorem Targets.setBlock (hs : s.Targets) {v : Block} (hv : v.target ≠ 0 → Canonical s.maxTarget v.target) :
    (s.setBlock b v).Targets := by
  intro x hx
  by_cases e : x = b
  · subst e
    rw [setBlock_self] at hx ⊢
    exact hv hx
  · rw [setBlock_of_ne s v e] at hx ⊢
    exact hs x hx

/-- **One header.** -/
theorem acceptHeader_mined (hs : s.Targets) (hlen : h.length = 80) (hok : acceptHeader dsha256 now h c s = .ok c' t) :
    t.Targets ∧ t.maxTarget = s.maxTarget ∧ Mined dsha256 t.maxTarget h := by
  simp only [acceptHeader, bind_eq_ok, get_eq_ok, check_eq_ok, orThrow_eq_ok, ofExcept_eq_ok, modify_eq_ok,
    pure_eq_ok, uint256_eq_some] at hok
  obtain ⟨_, _, ⟨rfl, rfl⟩, _, _, ⟨-, rfl⟩, height, _, ⟨⟨-, rfl⟩, rfl⟩, _, _, ⟨hknown, rfl⟩, target, _, ⟨htarget, rfl⟩,
    _, _, ⟨hbits, rfl⟩, _, _, ⟨hwork, rfl⟩, _, _, ⟨-, rfl⟩, _, _, ⟨-, rfl⟩, work, r, ⟨⟨-, rfl⟩, rfl⟩, _, _, rfl, rfl, rfl⟩ := hok
  have hcanonical : Canonical r.maxTarget target := by
    unfold expectedTarget at htarget
    split at htarget
    · exact retargetTarget_canonical htarget
    · cases htarget
      exact hs _ hknown
  exact ⟨hs.setBlock fun _ => hcanonical, rfl, hlen, target, not_not.1 hbits ▸ hcanonical, not_lt.1 hwork⟩

theorem acceptHeaders_mined : ∀ {hs : List Bytes} {s : Relay} {c : Cursor}, s.Targets → (∀ h ∈ hs, h.length = 80) →
    acceptHeaders dsha256 now hs c s = .ok c' t →
    t.Targets ∧ t.maxTarget = s.maxTarget ∧ ∀ h ∈ hs, Mined dsha256 t.maxTarget h
  | [], s, c, hs, _, hok => by
    obtain ⟨-, rfl⟩ := pure_eq_ok.1 hok
    exact ⟨hs, rfl, nofun⟩
  | h :: hs, s, c, htargets, hlen, hok => by
    obtain ⟨c₁, s₁, h₁, h₂⟩ := bind_eq_ok.1 hok
    obtain ⟨htargets₁, hmax₁, hmined⟩ := acceptHeader_mined htargets (hlen h List.mem_cons_self) h₁
    obtain ⟨htargets₂, hmax₂, hrest⟩ := acceptHeaders_mined htargets₁ (fun x hx => hlen x (List.mem_cons_of_mem _ hx)) h₂
    exact ⟨htargets₂, hmax₂.trans hmax₁, List.forall_mem_cons.2 ⟨hmax₂ ▸ hmined, hrest⟩⟩

theorem splitHeaders_length {headers : Bytes} : ∀ h ∈ splitHeaders headers, h.length = 80 := by
  intro h hh
  obtain ⟨i, hi, rfl⟩ := List.mem_map.1 hh
  have hi := List.mem_range.1 hi
  rw [List.length_take, List.length_drop]
  omega

theorem advanceTip_mined (hs : s.Targets) {headers : Bytes} {u : Unit} (hok : advanceTip dsha256 now headers s = .ok u t) :
    t.Targets ∧ t.maxTarget = s.maxTarget ∧ ∀ h ∈ splitHeaders headers, Mined dsha256 t.maxTarget h := by
  simp only [advanceTip, bind_eq_ok, get_eq_ok, check_eq_ok, modify_eq_ok] at hok
  obtain ⟨_, _, ⟨rfl, rfl⟩, _, _, ⟨-, rfl⟩, _, _, ⟨-, rfl⟩, c, s₁, hopen, c', s', hloop, rfl⟩ := hok
  simp only [openCursor, bind_eq_ok, get_eq_ok, check_eq_ok, pure_eq_ok] at hopen
  obtain ⟨_, _, ⟨rfl, rfl⟩, _, _, ⟨-, rfl⟩, -, rfl⟩ := hopen
  have hmined := acceptHeaders_mined hs splitHeaders_length hloop
  by_cases hlt : s'.tipWork < c'.cumWork
  · rw [if_pos hlt]
    exact hmined
  · rw [if_neg hlt]
    exact hmined

/-! ## Histories -/

/-- The headers that a call stores: those of an accepted submission. -/
def Call.stores (dsha256 : Bytes → Word) (s : Relay) : Call → List Bytes
  | .advanceTip now headers =>
    match Relay.advanceTip dsha256 now headers s with
    | .ok _ _ => splitHeaders headers
    | _ => []
  | _ => []

/-- A state the relay can be in, with the headers stored on the way. -/
inductive History (dsha256 : Bytes → Word) : Relay → List Bytes → Prop
  | deploy {maxTarget : Nat} {deployer : Address} : maxTarget ≠ 0 → History dsha256 (Relay.deploy maxTarget deployer) []
  | call {s : Relay} {stored : List Bytes} (c : Call) : History dsha256 s stored →
    History dsha256 ((c.prog dsha256).call s) (stored ++ c.stores dsha256 s)

theorem genesis_targets (hs : s.Targets) {sender : Address} {epochStart target startTimestamp tipHeight tipWork : Nat}
    {tipHash : Word} {u : Unit} (hok : genesis sender epochStart target startTimestamp tipHash tipHeight tipWork s = .ok u t) :
    t.Targets ∧ t.maxTarget = s.maxTarget := by
  simp only [genesis, bind_eq_ok, get_eq_ok, check_eq_ok, orThrow_eq_ok, ofExcept_eq_ok, modify_eq_ok,
    uint256_eq_some] at hok
  obtain ⟨_, _, ⟨rfl, rfl⟩, _, _, ⟨-, rfl⟩, _, _, ⟨-, rfl⟩, _, _, ⟨-, rfl⟩, _, _, ⟨-, rfl⟩, canonical, _, ⟨hdecode, rfl⟩,
    _, _, ⟨heq, rfl⟩, _, _, ⟨-, rfl⟩, _, _, ⟨⟨-, rfl⟩, rfl⟩, _, _, ⟨-, rfl⟩, _, _, ⟨-, rfl⟩, rfl⟩ := hok
  obtain rfl := not_not.1 heq
  exact ⟨hs.setBlock fun _ => hdecode, rfl⟩

theorem seedAnchorHistory_targets (hs : s.Targets) {sender : Address} {ts : Nat} {hashes : List Word} {times : List Nat}
    {u : Unit} (hok : seedAnchorHistory sender ts hashes times s = .ok u t) : t.Targets ∧ t.maxTarget = s.maxTarget := by
  obtain ⟨-, -, ht, hfork⟩ := seedAnchorHistory_ok hok
  have hmax : t.maxTarget = s.maxTarget := by rw [ht]
  refine ⟨fun b hb => ?_, hmax⟩
  have htarget : (t.blocks b).target = (s.blocks b).target := congrArg (fun v => v.2.2.1) (hfork b)
  rw [htarget] at hb
  rw [hmax, htarget]
  exact hs b hb

/-- **Every header stored** in a run is mined at the decode of its bits. -/
theorem History.mined {stored : List Bytes} (hs : History dsha256 s stored) :
    s.Targets ∧ ∀ h ∈ stored, Mined dsha256 s.maxTarget h := by
  induction hs with
  | deploy _ => exact ⟨fun b hb => absurd rfl hb, nofun⟩
  | @call s stored c _ ih =>
    obtain ⟨htargets, hmined⟩ := ih
    obtain ⟨htargets', hmax, hmined'⟩ : ((c.prog dsha256).call s).Targets ∧ ((c.prog dsha256).call s).maxTarget = s.maxTarget ∧
        ∀ h ∈ c.stores dsha256 s, Mined dsha256 s.maxTarget h := by
      cases c with
      | genesis sender epochStart target startTimestamp tipHash tipHeight tipWork =>
        have hkeep := call_keeps (I := fun t => t.Targets ∧ t.maxTarget = s.maxTarget)
          (m := Relay.genesis sender epochStart target startTimestamp tipHash tipHeight tipWork) ⟨htargets, rfl⟩
          fun u t hok => genesis_targets htargets hok
        exact ⟨hkeep.1, hkeep.2, nofun⟩
      | seedAnchorHistory sender ts hashes times =>
        have hkeep := call_keeps (I := fun t => t.Targets ∧ t.maxTarget = s.maxTarget)
          (m := Relay.seedAnchorHistory sender ts hashes times) ⟨htargets, rfl⟩
          fun u t hok => seedAnchorHistory_targets htargets hok
        exact ⟨hkeep.1, hkeep.2, nofun⟩
      | advanceTip now headers =>
        simp only [Call.stores, Call.prog, Prog.call]
        cases hok : Relay.advanceTip dsha256 now headers s with
        | panic => exact ⟨htargets, rfl, nofun⟩
        | err e t => exact ⟨htargets, rfl, nofun⟩
        | ok u t =>
          obtain ⟨htargets', hmax, hstored⟩ := advanceTip_mined htargets hok
          exact ⟨htargets', hmax, hmax ▸ hstored⟩
    refine ⟨htargets', fun h hh => ?_⟩
    rw [hmax]
    exact (List.mem_append.1 hh).elim (hmined h) (hmined' h)

end Relay

end Tacit
