import Mathlib.Data.Nat.Bitwise
import Mathlib.Data.Nat.Size
import Mathlib.Tactic.IntervalCases
import Mathlib.Tactic.NormNum
import Mathlib.Tactic.Ring
import Tacit.Relay.ForkChoice
/-!
# Difficulty of the relay's blocks

Bitcoin's retarget rule stated on its own terms (a signed, clamped timespan; a cap; the truncation of the
compact form), and that the target and the epoch start stored with a block are what the rule gives along the
block's own parent links.
-/
namespace Tacit

open Prog

/-! ## The compact form -/

/-- The bytes of `t` as a signed number: the exponent of its compact form. -/
def compactSize (t : Nat) : Nat := t.size / 8 + 1

/-- The precision of the compact form: the three leading bytes, or the whole of a shorter number. -/
def truncateCompact (t : Nat) : Nat := t / 256 ^ (compactSize t - 3) * 256 ^ (compactSize t - 3)

/-- The mantissa of the compact form. -/
def compactMantissa (t : Nat) : Nat :=
  if compactSize t ≤ 3 then t * 256 ^ (3 - compactSize t) else t / 256 ^ (compactSize t - 3)

theorem two_pow_eight (n : Nat) : 2 ^ (8 * n) = 256 ^ n := by
  rw [pow_mul]
  rfl

theorem byteSize_spec : ∀ {fuel t : Nat}, t < 256 ^ fuel → t ≠ 0 →
    ∃ k, byteSize fuel t = k + 1 ∧ 256 ^ k ≤ t ∧ t < 256 ^ (k + 1)
  | 0, t, ht, h0 => by simp at ht; exact absurd ht h0
  | fuel + 1, t, ht, h0 => by
    have hshift : t >>> 8 = t / 256 := Nat.shiftRight_eq_div_pow t 8
    rw [byteSize, if_neg h0, hshift]
    by_cases hs : t / 256 = 0
    · have : t < 256 := by omega
      refine ⟨0, ?_, ?_, ?_⟩
      · rw [hs]; cases fuel <;> simp [byteSize]
      · simp; omega
      · simpa using this
    · have ht' : t / 256 < 256 ^ fuel := (Nat.div_lt_iff_lt_mul (by norm_num)).2 (pow_succ 256 fuel ▸ ht)
      obtain ⟨k, hk, hlo, hhi⟩ := byteSize_spec ht' hs
      refine ⟨k + 1, by rw [hk], ?_, ?_⟩
      · rw [pow_succ]; exact (Nat.le_div_iff_mul_le (by norm_num)).1 hlo
      · rw [pow_succ]; exact (Nat.div_lt_iff_lt_mul (by norm_num)).1 hhi

/-- The bit the compact form keeps clear. -/
theorem and_signBit {m : Nat} (hm : m < 2 ^ 24) : m &&& 0x800000 ≠ 0 ↔ 2 ^ 23 ≤ m := by
  have h : m &&& 2 ^ 23 = (m.testBit 23).toNat * 2 ^ 23 := Nat.and_two_pow m 23
  norm_num at h hm ⊢
  rw [h, Nat.testBit_eq_decide_div_mod_eq]
  by_cases hb : m / 8388608 % 2 = 1
  · simp [hb]; omega
  · simp [hb]; omega

/-- The mantissa as the bytes of `t` give it, before its sign bit is cleared. -/
theorem mantissa_bounds {t k : Nat} (hlo : 256 ^ k ≤ t) (hhi : t < 256 ^ (k + 1)) :
    let m := if k + 1 ≤ 3 then t * 256 ^ (3 - (k + 1)) else t / 256 ^ (k + 1 - 3)
    m < 2 ^ 24 ∧ (2 ^ 23 ≤ m ↔ 2 ^ (8 * k + 7) ≤ t) := by
  intro m
  by_cases hk : k + 1 ≤ 3
  · have hm : m = t * 256 ^ (3 - (k + 1)) := if_pos hk
    have hk' : k ≤ 2 := by omega
    rw [hm]
    clear_value m
    interval_cases k <;> norm_num at * <;> omega
  · obtain ⟨j, rfl⟩ : ∃ j, k = j + 3 := ⟨k - 3, by omega⟩
    have hm : m = t / 256 ^ (j + 1) := if_neg hk
    rw [hm, Nat.div_lt_iff_lt_mul (by positivity), Nat.le_div_iff_mul_le (by positivity)]
    refine ⟨?_, ?_⟩
    · calc t < 256 ^ (j + 3 + 1) := hhi
        _ = 2 ^ 24 * 256 ^ (j + 1) := by ring
    · have : 2 ^ 23 * 256 ^ (j + 1) = 2 ^ (8 * (j + 3) + 7) := by
        rw [← two_pow_eight, ← pow_add]
        congr 1
        omega
      rw [this]

/-- The bytes of `t` and its sign bit give the exponent. -/
theorem compactSize_eq {t k : Nat} (hlo : 256 ^ k ≤ t) (hhi : t < 256 ^ (k + 1)) :
    compactSize t = if 2 ^ (8 * k + 7) ≤ t then k + 2 else k + 1 := by
  rw [← two_pow_eight] at hlo hhi
  have h₁ : 8 * k < t.size := Nat.lt_size.2 hlo
  have h₂ : t.size ≤ 8 * (k + 1) := Nat.size_le.2 hhi
  have h₃ : 8 * k + 7 < t.size ↔ 2 ^ (8 * k + 7) ≤ t := Nat.lt_size
  unfold compactSize
  by_cases hb : 2 ^ (8 * k + 7) ≤ t
  · rw [if_pos hb]
    have := h₃.2 hb
    omega
  · rw [if_neg hb]
    have := mt h₃.1 hb
    omega

/-- Clearing the sign bit moves the mantissa to the next exponent. -/
theorem mantissa_shift {t k : Nat} :
    (if k + 1 ≤ 3 then t * 256 ^ (3 - (k + 1)) else t / 256 ^ (k + 1 - 3)) / 256 =
      if k + 2 ≤ 3 then t * 256 ^ (3 - (k + 2)) else t / 256 ^ (k + 2 - 3) := by
  by_cases h : k + 2 ≤ 3
  · have hk : k = 0 ∨ k = 1 := by omega
    rcases hk with rfl | rfl
    · norm_num; omega
    · norm_num
  · rw [if_neg h]
    by_cases h' : k + 1 ≤ 3
    · have hk : k = 2 := by omega
      subst hk
      norm_num
    · obtain ⟨j, rfl⟩ : ∃ j, k = j + 3 := ⟨k - 3, by omega⟩
      rw [if_neg h', Nat.div_div_eq_div_mul]
      rfl

theorem targetToCompact_eq {t : Nat} (h0 : t ≠ 0) (ht : t < 2 ^ 256) :
    targetToCompact t = compactSize t * 2 ^ 24 + compactMantissa t ∧ compactMantissa t < 2 ^ 23 ∧
      compactSize t ≤ 33 := by
  obtain ⟨k, hk, hlo, hhi⟩ := @byteSize_spec 32 t (by simpa using ht) h0
  obtain ⟨hm, hbit⟩ := mantissa_bounds hlo hhi
  have hsize := compactSize_eq hlo hhi
  have hk32 : k < 32 := (Nat.pow_lt_pow_iff_right (by norm_num)).1 (hlo.trans_lt (by simpa using ht))
  have hraw : (if k + 1 ≤ 3 then t <<< (8 * (3 - (k + 1))) else t >>> (8 * (k + 1 - 3))) =
      if k + 1 ≤ 3 then t * 256 ^ (3 - (k + 1)) else t / 256 ^ (k + 1 - 3) := by
    rw [Nat.shiftLeft_eq, Nat.shiftRight_eq_div_pow, two_pow_eight, two_pow_eight]
  -- the loop's pair (mantissa, size) is (compactMantissa, compactSize)
  have hpair : ∀ m n, m < 2 ^ 23 → n ≤ 33 → ((n <<< 24) ||| (m &&& 0x7fffff)) % 2 ^ 32 = n * 2 ^ 24 + m := by
    intro m n hm hn
    have h₁ : m &&& 0x7fffff = m := Nat.and_two_pow_sub_one_of_lt_two_pow hm
    rw [h₁, ← Nat.shiftLeft_add_eq_or_of_lt (by omega), Nat.shiftLeft_eq]
    apply Nat.mod_eq_of_lt
    omega
  rw [targetToCompact, if_neg h0]
  simp only [hk, hraw]
  unfold compactMantissa
  by_cases hb : 2 ^ (8 * k + 7) ≤ t
  · rw [if_pos hb] at hsize
    rw [if_pos ((and_signBit hm).2 (hbit.2 hb)), hsize]
    simp only [Nat.shiftRight_eq_div_pow]
    rw [show (2 : Nat) ^ 8 = 256 from rfl, mantissa_shift]
    have hlt : (if k + 2 ≤ 3 then t * 256 ^ (3 - (k + 2)) else t / 256 ^ (k + 2 - 3)) < 2 ^ 23 := by
      rw [← mantissa_shift]
      omega
    exact ⟨hpair _ _ hlt (by omega), hlt, by omega⟩
  · rw [if_neg hb] at hsize
    rw [if_neg (mt (and_signBit hm).1 (mt hbit.1 hb)), hsize]
    have hlt := not_le.1 (mt hbit.1 hb)
    exact ⟨hpair _ _ hlt (by omega), hlt, by omega⟩

/-- Decoding a compact form whose mantissa has a clear sign bit. -/
theorem bitsToTarget_ok {maxTarget n m r : Nat} (hm : m < 2 ^ 23)
    (h : bitsToTarget maxTarget (n * 2 ^ 24 + m) = .ok r) :
    r = if n ≤ 3 then m / 256 ^ (3 - n) else m * 256 ^ (n - 3) := by
  have hexp : (n * 2 ^ 24 + m) >>> 24 = n := by
    rw [Nat.shiftRight_eq_div_pow]
    omega
  have hman : (n * 2 ^ 24 + m) &&& 0x7fffff = m := by
    have h₁ : (n * 2 ^ 24 + m) &&& 0x7fffff = (n * 2 ^ 24 + m) % 2 ^ 23 := Nat.and_two_pow_sub_one_eq_mod _ 23
    rw [h₁]
    omega
  simp only [bitsToTarget, hexp, hman, except_bind_eq_ok, refuse_eq_ok, except_pure_eq_ok, exists_const] at h
  obtain ⟨-, -, -, -, rfl⟩ := h
  rw [Nat.shiftLeft_eq, Nat.shiftRight_eq_div_pow, two_pow_eight, two_pow_eight]

/-- **The compact round trip** truncates. -/
theorem bitsToTarget_targetToCompact {maxTarget t r : Nat} (ht : t < 2 ^ 256)
    (h : bitsToTarget maxTarget (targetToCompact t) = .ok r) : r = truncateCompact t := by
  have h0 : t ≠ 0 := by
    rintro rfl
    simp [bitsToTarget, targetToCompact] at h
  obtain ⟨hc, hm, -⟩ := targetToCompact_eq h0 ht
  rw [hc] at h
  rw [bitsToTarget_ok hm h, truncateCompact, compactMantissa]
  by_cases hn : compactSize t ≤ 3
  · have hz : compactSize t - 3 = 0 := by omega
    rw [if_pos hn, if_pos hn, hz, Nat.mul_div_cancel _ (by positivity)]
    simp
  · rw [if_neg hn, if_neg hn]

/-! ## The retarget rule -/

/-- Bitcoin's rule at an epoch boundary: the signed timespan of the closed epoch, clamped to a factor of four
either way, scales the old target, which is capped and truncated to compact form. -/
def bitcoinRetarget (maxTarget old firstTs lastTs : Nat) : Nat :=
  let timespan : Int := (lastTs : Int) - firstTs
  let clamped : Int := max (targetTimespan / 4) (min (targetTimespan * 4) timespan)
  truncateCompact (min maxTarget (old * clamped.toNat / targetTimespan))

/-- The clamped timespan, as the contract computes it without signed numbers. -/
theorem clamp_eq (firstTs lastTs : Nat) :
    (let elapsed := if lastTs > firstTs then lastTs - firstTs else 0
     let elapsed := if elapsed < targetTimespan / 4 then targetTimespan / 4 else elapsed
     if elapsed > targetTimespan * 4 then targetTimespan * 4 else elapsed) =
      (max ((targetTimespan : Int) / 4) (min (targetTimespan * 4) ((lastTs : Int) - firstTs))).toNat := by
  simp only [targetTimespan]
  split_ifs <;> omega

theorem retargetTarget_eq {maxTarget old firstTs lastTs r : Nat}
    (h : retargetTarget maxTarget old firstTs lastTs = .ok r) : r = bitcoinRetarget maxTarget old firstTs lastTs := by
  have hclamp := clamp_eq firstTs lastTs
  simp only [retargetTarget, except_bind_eq_ok, need_eq_ok, uint256_eq_some] at h
  simp only at hclamp
  rw [hclamp] at h
  obtain ⟨product, ⟨hfit, rfl⟩, h⟩ := h
  unfold bitcoinRetarget
  simp only
  generalize old * (max ((targetTimespan : Int) / 4) (min (targetTimespan * 4) ((lastTs : Int) - firstTs))).toNat = p at *
  have hraw : (if p / targetTimespan > maxTarget then maxTarget else p / targetTimespan) =
      min maxTarget (p / targetTimespan) := by
    split_ifs <;> omega
  rw [hraw] at h
  have hlt : min maxTarget (p / targetTimespan) < 2 ^ 256 := by
    have := Nat.div_le_self p targetTimespan
    omega
  exact bitsToTarget_targetToCompact hlt h

/-! ## Along a block's own ancestors -/

/-- The height that opens the epoch of `h`. -/
def epochOpener (h : Nat) : Nat := h - h % epochLength

/-- The first timestamp of the epoch of `h` on a chain with timestamps `ts` above the anchor. -/
def epochOpen (anchorHeight seed : Nat) (ts : Nat → Nat) (h : Nat) : Nat :=
  if anchorHeight < epochOpener h then ts (epochOpener h) else seed

/-- The target of the `d`-th block above the anchor by Bitcoin's rule. -/
def ruleTarget (maxTarget anchorHeight anchorTarget seed : Nat) (ts : Nat → Nat) : Nat → Nat
  | 0 => anchorTarget
  | d + 1 =>
    let h := anchorHeight + d
    let old := ruleTarget maxTarget anchorHeight anchorTarget seed ts d
    if (h + 1) % epochLength = 0 then
      bitcoinRetarget maxTarget old (epochOpen anchorHeight seed ts h) (ts h)
    else old

theorem epochOpener_le (h : Nat) : epochOpener h ≤ h := Nat.sub_le _ _

theorem epochOpener_succ {h : Nat} (hh : (h + 1) % epochLength ≠ 0) : epochOpener (h + 1) = epochOpener h := by
  simp only [epochOpener, epochLength] at *
  omega

theorem epochOpen_congr {anchorHeight seed h : Nat} {ts ts' : Nat → Nat} (hts : ∀ i ≤ h, ts i = ts' i) :
    epochOpen anchorHeight seed ts h = epochOpen anchorHeight seed ts' h := by
  unfold epochOpen
  rw [hts _ (epochOpener_le h)]

/-- The rule reads no timestamp at or above the block's height. -/
theorem ruleTarget_congr {maxTarget anchorHeight anchorTarget seed : Nat} {ts ts' : Nat → Nat} :
    ∀ {d : Nat}, (∀ i < anchorHeight + d, ts i = ts' i) →
      ruleTarget maxTarget anchorHeight anchorTarget seed ts d =
        ruleTarget maxTarget anchorHeight anchorTarget seed ts' d
  | 0, _ => rfl
  | d + 1, hts => by
    have ih : ruleTarget maxTarget anchorHeight anchorTarget seed ts d =
        ruleTarget maxTarget anchorHeight anchorTarget seed ts' d := ruleTarget_congr fun i hi => hts i (by omega)
    have hopen : epochOpen anchorHeight seed ts (anchorHeight + d) = epochOpen anchorHeight seed ts' (anchorHeight + d) :=
      epochOpen_congr fun i hi => hts i (by omega)
    simp only [ruleTarget, ih, hopen, hts (anchorHeight + d) (by omega)]

namespace Relay

variable {dsha256 : Bytes → Word} {s : Relay} {b : Word}

/-- The block `k` parent links below `b`. -/
def ancestor (s : Relay) (k : Nat) (b : Word) : Word := (fun x => (s.blocks x).parent)^[k] b

/-- The timestamp at height `h` on the chain of `b`. -/
def chainTime (s : Relay) (b : Word) (h : Nat) : Nat := (s.blocks (s.ancestor ((s.blocks b).height - h) b)).timestamp

theorem ancestor_succ (k : Nat) (b : Word) : s.ancestor (k + 1) b = s.ancestor k (s.blocks b).parent :=
  Function.iterate_succ_apply _ k b

/-- The chain of a stored block runs through stored blocks, one height at a time, down to the anchor. -/
theorem Tree.chain (hH : HeaderHash dsha256) (T : Tree dsha256 s) (hb : s.Stored b) :
    (s.blocks s.anchorTip).height ≤ (s.blocks b).height ∧
      s.ancestor ((s.blocks b).height - (s.blocks s.anchorTip).height) b = s.anchorTip ∧
      ∀ k ≤ (s.blocks b).height - (s.blocks s.anchorTip).height,
        s.Stored (s.ancestor k b) ∧ (s.blocks (s.ancestor k b)).height + k = (s.blocks b).height := by
  induction b using hH.acyclic.induction with
  | _ b ih =>
    by_cases ha : b = s.anchorTip
    · subst ha
      refine ⟨le_rfl, by rw [Nat.sub_self]; rfl, ?_⟩
      intro k hk
      obtain rfl : k = 0 := by omega
      exact ⟨hb, rfl⟩
    · obtain ⟨h, rfl, hp, target, -, hv⟩ := T.linked b hb ha
      have hheight : (s.blocks (dsha256 h)).height = (s.blocks (prevBlock h)).height + 1 := by rw [hv]
      have hparent : (s.blocks (dsha256 h)).parent = prevBlock h := by rw [hv]
      obtain ⟨hle, hanchor, hchain⟩ := ih _ ⟨h, rfl, rfl⟩ hp
      refine ⟨by omega, ?_, ?_⟩
      · rw [hheight, Nat.sub_add_comm hle, ancestor_succ, hparent]
        exact hanchor
      · intro k hk
        cases k with
        | zero => exact ⟨hb, rfl⟩
        | succ k =>
          rw [ancestor_succ, hparent]
          obtain ⟨h₁, h₂⟩ := hchain k (by omega)
          exact ⟨h₁, by omega⟩

/-- A block and its parent see one chain. -/
theorem chainTime_parent {p : Word} (hparent : (s.blocks b).parent = p)
    (hheight : (s.blocks b).height = (s.blocks p).height + 1) {i : Nat} (hi : i ≤ (s.blocks p).height) :
    s.chainTime b i = s.chainTime p i := by
  unfold chainTime
  rw [hheight, Nat.sub_add_comm hi, ancestor_succ, hparent]

theorem chainTime_self : s.chainTime b (s.blocks b).height = (s.blocks b).timestamp := by
  unfold chainTime
  rw [Nat.sub_self]
  rfl

/-- The stored epoch start and target follow the rule: by induction along the tree, the parent's chain being
the block's own below it. -/
theorem Inv.rule (hH : HeaderHash dsha256) (I : Inv dsha256 s) (hb : s.Stored b) :
    let anchor := s.blocks s.anchorTip
    let seed := s.epochStartTimestamp s.genesisEpoch
    (s.blocks b).epochStartTs = epochOpen anchor.height seed (s.chainTime b) (s.blocks b).height ∧
      (s.blocks b).target = ruleTarget s.maxTarget anchor.height anchor.target seed (s.chainTime b)
        ((s.blocks b).height - anchor.height) := by
  intro anchor seed
  induction b using hH.acyclic.induction with
  | _ b ih =>
    by_cases ha : b = s.anchorTip
    · subst ha
      refine ⟨?_, ?_⟩
      · rw [epochOpen, if_neg (not_lt.2 (epochOpener_le _))]
        exact I.epochStart
      · rw [Nat.sub_self]
        rfl
    · obtain ⟨h, rfl, hp, target, htarget, hv⟩ := I.linked b hb ha
      obtain ⟨ihopen, ihtarget⟩ := ih _ ⟨h, rfl, rfl⟩ hp
      set p := prevBlock h with hpdef
      have hle : anchor.height ≤ (s.blocks p).height := (I.toTree.chain hH hp).1
      have hheight : (s.blocks (dsha256 h)).height = (s.blocks p).height + 1 := by rw [hv]
      have hparent : (s.blocks (dsha256 h)).parent = p := by rw [hv]
      have hts : ∀ i ≤ (s.blocks p).height, s.chainTime (dsha256 h) i = s.chainTime p i :=
        fun i hi => chainTime_parent hparent hheight hi
      have hself : s.chainTime (dsha256 h) ((s.blocks p).height + 1) = headerTime h := by
        rw [← hheight, chainTime_self, hv]
      refine ⟨?_, ?_⟩
      · rw [hheight, hv]
        by_cases hopen : ((s.blocks p).height + 1) % epochLength = 0
        · -- the block opens an epoch of its own
          have hself' : epochOpener ((s.blocks p).height + 1) = (s.blocks p).height + 1 := by
            rw [epochOpener, hopen, Nat.sub_zero]
          rw [if_pos hopen, epochOpen, hself', if_pos (by omega), hself]
        · rw [if_neg hopen, ihopen, epochOpen, epochOpen, epochOpener_succ hopen, hts _ (epochOpener_le _)]
      · have hd : (s.blocks (dsha256 h)).height - anchor.height = (s.blocks p).height - anchor.height + 1 := by
          rw [hheight, Nat.sub_add_comm hle]
        have hsum : anchor.height + ((s.blocks p).height - anchor.height) = (s.blocks p).height := by omega
        have hrule : ruleTarget s.maxTarget anchor.height anchor.target seed (s.chainTime (dsha256 h))
            ((s.blocks p).height - anchor.height) = (s.blocks p).target := by
          rw [ihtarget]
          exact ruleTarget_congr fun i hi => hts i (by omega)
        rw [hd, ruleTarget, hrule, hsum, hv]
        show target = if _ then _ else _
        unfold expectedTarget at htarget
        by_cases hopen : ((s.blocks p).height + 1) % epochLength = 0
        · rw [if_pos hopen] at htarget ⊢
          rw [epochOpen_congr hts, ← ihopen, hts _ le_rfl, chainTime_self]
          exact retargetTarget_eq htarget
        · rw [if_neg hopen] at htarget ⊢
          cases htarget
          rfl

end Relay

end Tacit
