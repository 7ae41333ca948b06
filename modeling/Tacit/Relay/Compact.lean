import Tacit.Relay.Mined
/-!
# The compact form of a target (BitcoinLightRelay.sol:421-478)

A compact form is an exponent, a byte count, over a mantissa of three bytes whose sign bit is clear. It is canonical when
the mantissa wastes no leading byte and holds no place below the units. Encoding gives canonical forms, decoding one and
encoding it again gives it back, and the round trip from a target truncates: down, monotonically, and by less than one
unit of the mantissa's last place. Only an exponent above 32 is refused, the one of a target from 2^255 on.
-/
namespace Tacit

open Prog

/-- A canonical compact form. -/
structure IsCompact (bits : Nat) : Prop where
  signBit : bits % 2 ^ 24 < 2 ^ 23
  noLeadingZeros : 2 ^ 15 ≤ bits % 2 ^ 24
  units : 256 ^ (3 - bits / 2 ^ 24) ∣ bits % 2 ^ 24

/-- What a form decodes to, range and sign apart. -/
def compactValue (n m : Nat) : Nat := if n ≤ 3 then m / 256 ^ (3 - n) else m * 256 ^ (n - 3)

section Compact

variable {maxTarget n m t u r : Nat}

/-- Decoding a form whose sign bit is clear: what is refused, and what is not. -/
theorem bitsToTarget_eq_ok (hm : m < 2 ^ 23) :
    bitsToTarget maxTarget (n * 2 ^ 24 + m) = .ok r ↔
      m ≠ 0 ∧ n ≤ 32 ∧ compactValue n m ≠ 0 ∧ compactValue n m ≤ maxTarget ∧ r = compactValue n m := by
  have hexp : (n * 2 ^ 24 + m) >>> 24 = n := by
    rw [Nat.shiftRight_eq_div_pow]
    omega
  have hman : (n * 2 ^ 24 + m) &&& 0x7fffff = m := by
    have h₁ : (n * 2 ^ 24 + m) &&& 0x7fffff = (n * 2 ^ 24 + m) % 2 ^ 23 := Nat.and_two_pow_sub_one_eq_mod _ 23
    rw [h₁]
    omega
  have hsign : (n * 2 ^ 24 + m) &&& 0x00800000 = 0 := by
    have h₁ : (n * 2 ^ 24 + m) &&& 2 ^ 23 = ((n * 2 ^ 24 + m).testBit 23).toNat * 2 ^ 23 := Nat.and_two_pow _ 23
    rw [Nat.testBit_eq_decide_div_mod_eq, show (n * 2 ^ 24 + m) / 2 ^ 23 % 2 = 0 by omega] at h₁
    simpa using h₁
  have hvalue : (if n ≤ 3 then m >>> (8 * (3 - n)) else m <<< (8 * (n - 3))) = compactValue n m := by
    rw [Nat.shiftLeft_eq, Nat.shiftRight_eq_div_pow, two_pow_eight, two_pow_eight, compactValue]
  simp only [bitsToTarget, hexp, hman, hsign, hvalue, except_bind_eq_ok, refuse_eq_ok, except_pure_eq_ok, exists_const]
  constructor
  · rintro ⟨-, hm0, hn, hrange, rfl⟩
    exact ⟨hm0, by omega, by omega, by omega, rfl⟩
  · rintro ⟨hm0, hn, h0, hle, rfl⟩
    exact ⟨by simp, hm0, by omega, by omega, rfl⟩

theorem compactValue_lt (hm : m < 2 ^ 23) (hn : n ≤ 32) : compactValue n m < 2 ^ 256 := by
  unfold compactValue
  split
  · exact (Nat.div_le_self _ _).trans_lt (hm.trans (by norm_num))
  · calc m * 256 ^ (n - 3) ≤ m * 256 ^ 29 := Nat.mul_le_mul_left _ (Nat.pow_le_pow_right (by norm_num) (by omega))
      _ < 2 ^ 256 := by omega

/-- Every target below 2^255 is encoded in a form that decodes. -/
theorem bitsToTarget_accepts (h0 : 0 < t) (ht : t ≤ maxTarget) (hsmall : t < 2 ^ 255) :
    bitsToTarget maxTarget (targetToCompact t) = .ok (truncateCompact t) := by
  obtain ⟨hform, hm, -⟩ := targetToCompact_eq h0.ne' (hsmall.trans (by norm_num))
  have hsize : t.size ≤ 255 := Nat.size_le.2 hsmall
  have hvalue : compactValue (compactSize t) (compactMantissa t) = truncateCompact t := by
    unfold compactValue compactMantissa truncateCompact
    by_cases hn : compactSize t ≤ 3
    · rw [if_pos hn, if_pos hn, Nat.sub_eq_zero_of_le hn, Nat.mul_div_cancel _ (by positivity)]
      simp
    · rw [if_neg hn, if_neg hn]
  have htrunc : truncateCompact t ≠ 0 := by
    intro e
    have := truncateCompact_size h0.ne'
    rw [e, Nat.size_zero] at this
    exact h0.ne' (Nat.size_eq_zero.1 this.symm)
  rw [hform, bitsToTarget_eq_ok hm, hvalue]
  refine ⟨?_, ?_, htrunc, (truncateCompact_le t).trans ht, rfl⟩
  · intro e
    simp [← hvalue, e, compactValue] at htrunc
  · unfold compactSize
    omega

/-! ## Truncation -/

/-- Truncation keeps the order: a target of more bits stays above, one of as many bits is divided alike. -/
theorem truncateCompact_mono (h : t ≤ u) : truncateCompact t ≤ truncateCompact u := by
  obtain rfl | h0 := Nat.eq_zero_or_pos t
  · simp [truncateCompact]
  obtain hlt | heq := (Nat.size_le_size h).lt_or_eq
  · have hu : u ≠ 0 := by omega
    calc truncateCompact t ≤ t := truncateCompact_le t
      _ ≤ 2 ^ t.size := (Nat.lt_size_self t).le
      _ ≤ truncateCompact u := Nat.lt_size.1 (by rwa [truncateCompact_size hu])
  · have hsize : compactSize t = compactSize u := by rw [compactSize, heq, ← compactSize]
    rw [truncateCompact, truncateCompact, hsize]
    exact Nat.mul_le_mul_right _ (Nat.div_le_div_right h)

theorem truncateCompact_error (t : Nat) : (t - truncateCompact t) * 256 ^ 3 < 256 ^ compactSize t := by
  have hmod : t - truncateCompact t = t % 256 ^ (compactSize t - 3) := by
    have := Nat.div_add_mod' t (256 ^ (compactSize t - 3))
    unfold truncateCompact
    omega
  rw [hmod]
  by_cases hn : compactSize t ≤ 3
  · rw [Nat.sub_eq_zero_of_le hn, pow_zero, Nat.mod_one, Nat.zero_mul]
    positivity
  · calc t % 256 ^ (compactSize t - 3) * 256 ^ 3 < 256 ^ (compactSize t - 3) * 256 ^ 3 :=
          Nat.mul_lt_mul_of_pos_right (Nat.mod_lt _ (by positivity)) (by norm_num)
      _ = 256 ^ compactSize t := by rw [← pow_add, Nat.sub_add_cancel (by omega)]

/-! ## Canonical forms -/

theorem size_mul_pow {k : Nat} (hm : m ≠ 0) : (m * 256 ^ k).size = m.size + 8 * k := by
  rw [← two_pow_eight, ← Nat.shiftLeft_eq, Nat.size_shiftLeft hm]

theorem isCompact_mk (hm : m < 2 ^ 23) (hlead : 2 ^ 15 ≤ m) (hunits : 256 ^ (3 - n) ∣ m) : IsCompact (n * 2 ^ 24 + m) := by
  have hmod : (n * 2 ^ 24 + m) % 2 ^ 24 = m := by omega
  have hdiv : (n * 2 ^ 24 + m) / 2 ^ 24 = n := by omega
  exact ⟨by rwa [hmod], by rwa [hmod], by rwa [hmod, hdiv]⟩

theorem targetToCompact_isCompact (h0 : t ≠ 0) (ht : t < 2 ^ 256) : IsCompact (targetToCompact t) := by
  obtain ⟨hform, hm, -⟩ := targetToCompact_eq h0 ht
  have hpos : 0 < t.size := Nat.size_pos.2 (Nat.pos_of_ne_zero h0)
  rw [hform]
  refine isCompact_mk hm ?_ ?_
  · unfold compactMantissa
    split
    · rw [← Nat.lt_size, size_mul_pow h0, compactSize]
      omega
    · rename_i hn
      rw [Nat.le_div_iff_mul_le (by positivity), ← two_pow_eight, ← pow_add, ← Nat.lt_size]
      unfold compactSize at hn ⊢
      omega
  · unfold compactMantissa
    split
    · exact Nat.dvd_mul_left ..
    · rename_i hn
      rw [Nat.sub_eq_zero_of_le (by omega), pow_zero]
      exact one_dvd _

/-- A canonical form is the one its value is encoded in. -/
theorem targetToCompact_bitsToTarget {bits : Nat} (hb : IsCompact bits) (h : bitsToTarget maxTarget bits = .ok r) :
    targetToCompact r = bits := by
  obtain ⟨hm, hlead, hunits⟩ := hb
  have hsplit : bits = bits / 2 ^ 24 * 2 ^ 24 + bits % 2 ^ 24 := by omega
  generalize bits / 2 ^ 24 = n at *
  generalize bits % 2 ^ 24 = m at *
  rw [hsplit, bitsToTarget_eq_ok hm] at h
  obtain ⟨hm0, hn, h0, -, rfl⟩ := h
  have h16 : 15 < m.size := Nat.lt_size.2 hlead
  have h23 : m.size ≤ 23 := Nat.size_le.2 hm
  have hfit : compactValue n m < 2 ^ 256 := compactValue_lt hm hn
  rw [(targetToCompact_eq h0 hfit).1, hsplit]
  unfold compactValue at h0 ⊢
  by_cases hn3 : n ≤ 3
  · obtain ⟨v, rfl⟩ := hunits
    have hv : 256 ^ (3 - n) * v / 256 ^ (3 - n) = v := Nat.mul_div_cancel_left _ (by positivity)
    rw [if_pos hn3, hv] at h0 ⊢
    rw [Nat.mul_comm, size_mul_pow h0] at h16 h23
    have hsize : compactSize v = n := by
      unfold compactSize
      omega
    rw [compactMantissa, hsize, if_pos hn3, Nat.mul_comm v]
  · rw [if_neg hn3] at h0 ⊢
    have hsize : compactSize (m * 256 ^ (n - 3)) = n := by
      rw [compactSize, size_mul_pow hm0]
      omega
    rw [compactMantissa, hsize, if_neg hn3, Nat.mul_div_cancel _ (by positivity)]

end Compact

/-- The form of 2^255 is refused: its exponent is 33. -/
theorem compact_refuses_top : ∃ maxTarget t, maxTarget < 2 ^ 256 ∧ 0 < t ∧ t ≤ maxTarget ∧
    ∀ r, bitsToTarget maxTarget (targetToCompact t) ≠ .ok r :=
  ⟨2 ^ 256 - 1, 2 ^ 255, by decide, by decide, by decide, fun r h => by
    have herr : bitsToTarget (2 ^ 256 - 1) (targetToCompact (2 ^ 255)) = .error .invalidPoW := by decide +kernel
    rw [herr] at h
    cases h⟩

/-- **Compact truncation.** Below 2^255 every target is encoded canonically and decodes, to a target no larger, canonical
itself and less than one unit of the mantissa's last place away, in the order of the targets; and a canonical form that
decodes is the form of what it decodes to. -/
theorem compact_truncation (maxTarget : Nat) :
    (∀ t, 0 < t → t ≤ maxTarget → t < 2 ^ 255 →
      IsCompact (targetToCompact t) ∧
      ∃ r, bitsToTarget maxTarget (targetToCompact t) = .ok r ∧ r ≤ t ∧
        bitsToTarget maxTarget (targetToCompact r) = .ok r ∧
        (t - r) * 256 ^ 3 < 256 ^ (targetToCompact t >>> 24) ∧
        ∀ u v, t ≤ u → u < 2 ^ 256 → bitsToTarget maxTarget (targetToCompact u) = .ok v → r ≤ v) ∧
    ∀ bits r, IsCompact bits → bitsToTarget maxTarget bits = .ok r → targetToCompact r = bits := by
  refine ⟨fun t h0 ht hsmall => ?_, fun bits r hb h => targetToCompact_bitsToTarget hb h⟩
  have hword : t < 2 ^ 256 := hsmall.trans (by norm_num)
  obtain ⟨hform, hm, -⟩ := targetToCompact_eq h0.ne' hword
  have hok := bitsToTarget_accepts h0 ht hsmall
  refine ⟨targetToCompact_isCompact h0.ne' hword, truncateCompact t, hok, truncateCompact_le t,
    Canonical.of_decode hword hok, ?_, ?_⟩
  · have hexp : targetToCompact t >>> 24 = compactSize t := by
      rw [hform, Nat.shiftRight_eq_div_pow]
      omega
    rw [hexp]
    exact truncateCompact_error t
  · intro u v hle hu hv
    rw [bitsToTarget_targetToCompact hu hv]
    exact truncateCompact_mono hle

theorem compact_truncation_proof_limit :
    ∃ r, bitsToTarget (2 ^ 224 - 1) (targetToCompact (2 ^ 224 - 1)) = .ok r ∧ r ≤ 2 ^ 224 - 1 :=
  have ⟨_, r, hr, hle, _⟩ := (compact_truncation (2 ^ 224 - 1)).1 (2 ^ 224 - 1) (by decide) le_rfl (by decide)
  ⟨r, hr, hle⟩

end Tacit
