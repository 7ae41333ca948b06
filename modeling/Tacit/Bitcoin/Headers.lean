import Mathlib.Data.List.Chain
import Tacit.Lib.BigEndian
import Tacit.Notes
import Tacit.Relay.Mined
/-!
# Header chains of the guest (bitcoin.rs :187-:220, :2308-:2331)

The guest decodes the difficulty of a header into 32 bytes; the relay shifts a `uint256`. The two agree on every value that
the relay accepts but those of exponent 32, for which the guest has a range check that lets them through and a copy that
does not: its target is zero. A relay whose targets stay below 2^232 has none of them.
-/
namespace Tacit

open Prog

namespace Bitcoin

/-- `[0u8; 32]` with `bytes` copied in at `start`. -/
def zerosWith (start : Nat) (bytes : Bytes) : Word := Word.ofBytes (List.replicate start 0 ++ bytes)

/-- `bits_to_target` (:190). -/
def bitsToTarget (header : Bytes) : Option Word := do
  guard (76 ≤ header.length)
  let bits := headerBits header
  let exp := bits >>> 24
  let mantissa := bits &&& 0x7fffff
  guard (bits &&& 0x00800000 = 0)
  guard (mantissa ≠ 0)
  guard (exp ≤ 32)
  if exp ≤ 3 then
    let val := mantissa >>> (8 * (3 - exp))
    return zerosWith 28 (beBytes 4 val)
  else
    let shiftBytes := exp - 3
    let bytes := beBytes 4 mantissa
    if shiftBytes + 4 ≤ 32 then
      let start := 32 - shiftBytes - 4
      return zerosWith start bytes
    else return 0

/-- `reverse_u256` (:216). -/
def reverseU256 (v : Word) : Word := ⟨v.bytes.reverse, by rw [List.length_reverse, v.len]⟩

variable (dsha256 : Bytes → Word)

/-- The loop of `verify_header_chain` (:2312). -/
def verifyHeaders : Option Word → List Bytes → Option (Option Word)
  | prevHash, [] => some prevHash
  | prevHash, h :: rest => do
    guard (h.length = 80)
    let bh := dsha256 h
    let target ← bitsToTarget h
    guard (beBytesLte (reverseU256 bh) target)
    guard (prevHash = none ∨ prevHash = some (prevBlock h))
    verifyHeaders (some bh) rest

/-- `verify_header_chain` (:2308). -/
def verifyHeaderChain (headers : List Bytes) : Option Word := do
  guard (headers ≠ [])
  let tip ← verifyHeaders dsha256 none headers
  tip

/-! ## Words as numbers -/

theorem leNat_eq_foldl (l : Bytes) : leNat l = l.reverse.foldl (fun n b => n * 256 + b) 0 := by
  induction l with
  | nil => rfl
  | cons b l ih =>
    rw [leNat, ih, List.reverse_cons, List.foldl_append, List.foldl_cons, List.foldl_nil]
    ring

theorem reverseU256_toNat (v : Word) : (reverseU256 v).toNat = leNat v.bytes := (leNat_eq_foldl v.bytes).symm

theorem leNat_leBytes : ∀ {n v : Nat}, v < 256 ^ n → leNat (leBytes n v) = v
  | 0, v, h => by
    obtain rfl : v = 0 := by simpa using h
    rfl
  | n + 1, v, h => by
    rw [leBytes, leNat, leNat_leBytes ((Nat.div_lt_iff_lt_mul (by decide)).2 (pow_succ 256 n ▸ h))]
    omega

theorem leBytes_lt : ∀ {n v b : Nat}, b ∈ leBytes n v → b < 256
  | n + 1, v, b, h => by
    rcases List.mem_cons.1 h with rfl | h
    · exact Nat.mod_lt _ (by decide)
    · exact leBytes_lt h

theorem zerosWith_toNat {start : Nat} {bytes : Bytes} (h : start + bytes.length ≤ 32) :
    (zerosWith start bytes).toNat = bytes.foldl (fun n b => n * 256 + b) 0 * 256 ^ (32 - start - bytes.length) := by
  have hbytes : (zerosWith start bytes).bytes =
      List.replicate start 0 ++ bytes ++ List.replicate (32 - start - bytes.length) 0 := by
    simp only [zerosWith, Word.ofBytes, List.take_append, List.take_replicate, List.length_append, List.length_replicate]
    have h₁ : min 32 start = start := by omega
    have h₂ : bytes.take (32 - start) = bytes := List.take_of_length_le (by omega)
    have h₃ : min (32 - (start + bytes.length)) 32 = 32 - start - bytes.length := by omega
    rw [h₁, h₂, h₃]
  rw [Word.toNat, hbytes, List.foldl_append, List.foldl_append, foldl_be_zeros start, Nat.zero_mul, foldl_be_zeros]

theorem zerosWith_lt {start : Nat} {bytes : Bytes} (h : ∀ b ∈ bytes, b < 256) : ∀ b ∈ (zerosWith start bytes).bytes, b < 256 := by
  intro b hb
  simp only [zerosWith, Word.ofBytes] at hb
  rcases List.mem_append.1 (List.mem_of_mem_take hb) with hb | hb
  · rcases List.mem_append.1 hb with hb | hb
    · obtain ⟨-, rfl⟩ := List.mem_replicate.1 hb
      decide
    · exact h b hb
  · obtain ⟨-, rfl⟩ := List.mem_replicate.1 hb
    decide

/-- A byte comparison is one of numbers. -/
theorem beBytesLte_iff {a b : Word} (ha : ∀ x ∈ a.bytes, x < 256) (hb : ∀ x ∈ b.bytes, x < 256) :
    beBytesLte a b = true ↔ a.toNat ≤ b.toNat := by
  rw [beBytesLte, beBytesLteLoop_iff (a.len.trans b.len.symm), Word.toNat, Word.toNat,
    foldl_be_le_iff (a.len.trans b.len.symm) ha hb]

/-! ## One header -/

variable {dsha256 : Bytes → Word}

theorem mantissa_lt (bits : Nat) : bits &&& 0x7fffff < 2 ^ 23 :=
  (Nat.and_two_pow_sub_one_eq_mod bits 23).trans_lt (Nat.mod_lt _ (by decide))

theorem beBytes_foldl {n v : Nat} (h : v < 256 ^ n) : (beBytes n v).foldl (fun n b => n * 256 + b) 0 = v := by
  rw [beBytes, ← leNat_eq_foldl, leNat_leBytes h]

theorem zerosWith_beBytes_lt {start v : Nat} : ∀ b ∈ (zerosWith start (beBytes 4 v)).bytes, b < 256 :=
  zerosWith_lt fun _ hb => leBytes_lt (List.mem_reverse.1 hb)

theorem zero_bytes_lt : ∀ b ∈ (0 : Word).bytes, b < 256 := by
  intro b hb
  obtain ⟨-, rfl⟩ := List.mem_replicate.1 (show b ∈ List.replicate 32 0 from hb)
  decide

theorem bitsToTarget_bytes_lt {header : Bytes} {w : Word} (h : bitsToTarget header = some w) : ∀ b ∈ w.bytes, b < 256 := by
  simp only [bitsToTarget, Option.bind_eq_bind, Option.bind_eq_some_iff] at h
  obtain ⟨-, -, -, -, -, -, -, -, h⟩ := h
  split at h
  · cases h
    exact zerosWith_beBytes_lt
  · split at h <;> cases h
    · exact zerosWith_beBytes_lt
    · exact zero_bytes_lt

theorem target_ne_zero {maxTarget bits target : Nat} (h : Tacit.bitsToTarget maxTarget bits = .ok target) : target ≠ 0 := by
  simp only [Tacit.bitsToTarget, except_bind_eq_ok, refuse_eq_ok, except_pure_eq_ok, exists_const] at h
  obtain ⟨-, -, -, hbound, htarget⟩ := h
  exact fun e => hbound (Or.inl (htarget.symm.trans e))

/-- **The decoders.** Where the relay takes a compact value, the guest takes it too, and has the relay's target unless the
exponent is 32. -/
theorem bitsToTarget_eq {maxTarget target : Nat} {header : Bytes} (hlen : 76 ≤ header.length)
    (h : Tacit.bitsToTarget maxTarget (headerBits header) = .ok target) :
    ∃ w, bitsToTarget header = some w ∧ (∀ b ∈ w.bytes, b < 256) ∧
      w.toNat = if headerBits header >>> 24 = 32 then 0 else target := by
  have hman := mantissa_lt (headerBits header)
  simp only [Tacit.bitsToTarget, except_bind_eq_ok, refuse_eq_ok, except_pure_eq_ok, exists_const] at h
  obtain ⟨hsign, hzero, hexp, -, rfl⟩ := h
  simp only [bitsToTarget, not_not.1 hsign, hlen, guard]
  generalize headerBits header >>> 24 = exp at *
  generalize headerBits header &&& 0x7fffff = mantissa at *
  have hle : exp ≤ 32 := by omega
  by_cases hsmall : exp ≤ 3
  · have hval : mantissa >>> (8 * (3 - exp)) < 256 ^ 4 := (Nat.shiftRight_le _ _).trans_lt (hman.trans (by decide))
    refine ⟨zerosWith 28 (beBytes 4 (mantissa >>> (8 * (3 - exp)))), ?_, zerosWith_beBytes_lt, ?_⟩
    · simp [hzero, hle, hsmall]
    · rw [zerosWith_toNat (by simp), beBytes_foldl hval, if_neg (by omega), if_pos hsmall]
      simp
  · by_cases hfits : exp - 3 + 4 ≤ 32
    · refine ⟨zerosWith (32 - (exp - 3) - 4) (beBytes 4 mantissa), ?_, zerosWith_beBytes_lt, ?_⟩
      · simp [hzero, hle, hsmall, hfits]
      · have hrest : 32 - (32 - (exp - 3) - 4) - 4 = exp - 3 := by omega
        rw [zerosWith_toNat (by rw [beBytes_length]; omega), beBytes_foldl (hman.trans (by decide)), if_neg (by omega),
          if_neg hsmall, beBytes_length, hrest, Nat.shiftLeft_eq, two_pow_eight]
    · have htop : exp = 32 := by omega
      refine ⟨0, ?_, zero_bytes_lt, ?_⟩
      · simp [hzero, htop]
      · rw [if_pos htop]
        rfl

/-- An accepted value has exponent 32 only above `2^232`. -/
theorem exponent_ne {maxTarget bits target : Nat} (h : Tacit.bitsToTarget maxTarget bits = .ok target)
    (hmax : maxTarget < 2 ^ 232) : bits >>> 24 ≠ 32 := by
  intro htop
  simp only [Tacit.bitsToTarget, htop, except_bind_eq_ok, refuse_eq_ok, except_pure_eq_ok, exists_const] at h
  obtain ⟨-, hzero, -, hbound, -⟩ := h
  have hexp : 8 * (32 - 3) = 232 := rfl
  rw [if_neg (by decide), hexp, Nat.shiftLeft_eq, not_or, not_lt] at hbound
  exact absurd hmax (not_lt.2 ((Nat.le_mul_of_pos_left _ (Nat.pos_of_ne_zero hzero)).trans hbound.2))

/-- What `verify_header_chain` asks of one header. -/
def Proven (dsha256 : Bytes → Word) (h : Bytes) : Prop :=
  h.length = 80 ∧ ∃ target, bitsToTarget h = some target ∧ beBytesLte (reverseU256 (dsha256 h)) target = true

/-- A header that the relay stores is proven unless its exponent is 32. -/
theorem proven_iff (hbytes : ∀ h, ∀ b ∈ (dsha256 h).bytes, b < 256) (hnonzero : ∀ h, dsha256 h ≠ 0) {maxTarget : Nat}
    {h : Bytes} (hm : Relay.Mined dsha256 maxTarget h) : Proven dsha256 h ↔ headerBits h >>> 24 ≠ 32 := by
  obtain ⟨target, hdecode, hwork⟩ := hm.work
  obtain ⟨w, hw, hwbytes, hvalue⟩ := bitsToTarget_eq (by rw [hm.length]; decide) hdecode
  have hle : beBytesLte (reverseU256 (dsha256 h)) w = true ↔ leNat (dsha256 h).bytes ≤ w.toNat := by
    rw [beBytesLte_iff (fun b hb => hbytes h b (List.mem_reverse.1 hb)) hwbytes, reverseU256_toNat]
  constructor
  · rintro ⟨-, target', htarget', hmet⟩ htop
    obtain rfl := Option.some.inj (hw.symm.trans htarget')
    rw [hle, hvalue, if_pos htop, Nat.le_zero, leNat_eq_foldl] at hmet
    -- only the zero digest has the value 0
    have hlen : (dsha256 h).bytes.reverse.length = (List.replicate 32 0).length := by
      rw [List.length_reverse, (dsha256 h).len, List.length_replicate]
    have hzero := (foldl_be_inj hlen (fun b hb => hbytes h b (List.mem_reverse.1 hb)) zero_bytes_lt
      (hmet.trans (foldl_be_zeros 32 0).symm)).2
    refine hnonzero h (Word.ext ?_)
    rw [← List.reverse_reverse (dsha256 h).bytes, hzero]
    rfl
  · intro htop
    refine ⟨hm.length, w, hw, ?_⟩
    rw [hle, hvalue, if_neg htop]
    exact hwork

/-! ## Chains -/

/-- Each header names its predecessor. -/
def Linked (dsha256 : Bytes → Word) (headers : List Bytes) : Prop :=
  headers.IsChain fun h next => prevBlock next = dsha256 h

theorem getLast_cons_or {α β : Type} (f : α → β) (a : α) (l : List α) (o : Option β) :
    ((a :: l).getLast?.map f).or o = (l.getLast?.map f).or (some (f a)) := by
  rw [List.getLast?_cons]
  cases l.getLast? <;> rfl

theorem verifyHeaders_eq_some : ∀ {headers : List Bytes} {prevHash tip : Option Word},
    verifyHeaders dsha256 prevHash headers = some tip ↔
      (∀ h ∈ headers, Proven dsha256 h) ∧ (∀ h ∈ headers.head?, prevHash = none ∨ prevHash = some (prevBlock h)) ∧
        Linked dsha256 headers ∧ tip = (headers.getLast?.map dsha256).or prevHash
  | [], prevHash, tip => by
    simp [verifyHeaders, Linked, eq_comm]
  | h :: rest, prevHash, tip => by
    have ih : verifyHeaders dsha256 (some (dsha256 h)) rest = some tip ↔ _ := verifyHeaders_eq_some
    simp only [verifyHeaders, Option.bind_eq_bind, Option.bind_eq_some_iff, Option.guard_eq_some', ih, exists_const]
    constructor
    · rintro ⟨hlen, target, htarget, hwork, hprev, hrest, hnext, hlinked, rfl⟩
      refine ⟨List.forall_mem_cons.2 ⟨⟨hlen, target, htarget, hwork⟩, hrest⟩, by simpa using hprev, ?_, ?_⟩
      · refine List.isChain_cons.2 ⟨fun y hy => ?_, hlinked⟩
        exact (Option.some.inj ((hnext y hy).resolve_left (Option.some_ne_none _))).symm
      · rw [getLast_cons_or]
    · rintro ⟨hproven, hprev, hlinked, rfl⟩
      obtain ⟨⟨hlen, target, htarget, hwork⟩, hrest⟩ := List.forall_mem_cons.1 hproven
      obtain ⟨hnext, hlinked⟩ := List.isChain_cons.1 hlinked
      refine ⟨hlen, target, htarget, hwork, hprev h rfl, hrest, fun y hy => Or.inr ?_, hlinked, ?_⟩
      · rw [hnext y hy]
      · rw [getLast_cons_or]

/-- **A header chain** is accepted where its headers are proven and linked; its tip is the digest of the last. -/
theorem verifyHeaderChain_eq_some {headers : List Bytes} {tip : Word} : verifyHeaderChain dsha256 headers = some tip ↔
    (∀ h ∈ headers, Proven dsha256 h) ∧ Linked dsha256 headers ∧ headers.getLast?.map dsha256 = some tip := by
  simp only [verifyHeaderChain, Option.bind_eq_bind, Option.bind_eq_some_iff, Option.guard_eq_some', exists_const,
    verifyHeaders_eq_some, true_or, Option.or_none]
  constructor
  · rintro ⟨-, t, ⟨hproven, -, hlinked, rfl⟩, htip⟩
    exact ⟨hproven, hlinked, by simpa using htip⟩
  · rintro ⟨hproven, hlinked, htip⟩
    refine ⟨?_, _, ⟨hproven, fun _ _ => trivial, hlinked, rfl⟩, by simpa using htip⟩
    rintro rfl
    cases htip

end Bitcoin

open Bitcoin

/-- **Difficulty agrees but for exponent 32.** Of a compact value that the relay accepts, the guest has the relay's target
exactly where the exponent is not 32. In every run of the relay, the guest accepts a linked slice of the stored headers
exactly where no exponent of it is 32; below `2^232` none is. What the guest accepts is linked, each digest at or below the
target that the guest decodes. -/
theorem header_difficulty_agrees {dsha256 : Bytes → Word} (hbytes : ∀ h, ∀ b ∈ (dsha256 h).bytes, b < 256)
    (hnonzero : ∀ h, dsha256 h ≠ 0) :
    (∀ (maxTarget target : Nat) (header : Bytes), 76 ≤ header.length →
      Tacit.bitsToTarget maxTarget (headerBits header) = .ok target →
      ((∃ w, Bitcoin.bitsToTarget header = some w ∧ w.toNat = target) ↔ headerBits header >>> 24 ≠ 32)) ∧
    (∀ (s : Relay) (stored slice : List Bytes), Relay.History dsha256 s stored → (∀ h ∈ slice, h ∈ stored) → slice ≠ [] →
      Linked dsha256 slice →
      ((verifyHeaderChain dsha256 slice).isSome ↔ ∀ h ∈ slice, headerBits h >>> 24 ≠ 32) ∧
      (s.maxTarget < 2 ^ 232 → (verifyHeaderChain dsha256 slice).isSome)) ∧
    ∀ (headers : List Bytes) (tip : Word), verifyHeaderChain dsha256 headers = some tip →
      headers.getLast?.map dsha256 = some tip ∧ Linked dsha256 headers ∧
      ∀ h ∈ headers, h.length = 80 ∧ ∃ target, Bitcoin.bitsToTarget h = some target ∧ leNat (dsha256 h).bytes ≤ target.toNat := by
  refine ⟨fun maxTarget target header hlen hok => ?_, fun s stored slice hs hsub hne hlinked => ?_, fun headers tip hok => ?_⟩
  · obtain ⟨w, hw, -, hvalue⟩ := bitsToTarget_eq hlen hok
    constructor
    · rintro ⟨w', hw', rfl⟩ htop
      obtain rfl := Option.some.inj (hw.symm.trans hw')
      rw [if_pos htop] at hvalue
      exact target_ne_zero hok hvalue
    · intro htop
      exact ⟨w, hw, hvalue.trans (if_neg htop)⟩
  · have hmined := fun h hh => hs.mined.2 h (hsub h hh)
    have hiff : (verifyHeaderChain dsha256 slice).isSome ↔ ∀ h ∈ slice, headerBits h >>> 24 ≠ 32 := by
      rw [Option.isSome_iff_exists]
      constructor
      · rintro ⟨tip, htip⟩ h hh
        exact (proven_iff hbytes hnonzero (hmined h hh)).1 ((verifyHeaderChain_eq_some.1 htip).1 h hh)
      · intro htop
        refine ⟨dsha256 (slice.getLast hne), verifyHeaderChain_eq_some.2 ⟨fun h hh => ?_, hlinked, ?_⟩⟩
        · exact (proven_iff hbytes hnonzero (hmined h hh)).2 (htop h hh)
        · rw [List.getLast?_eq_getLast_of_ne_nil hne, Option.map_some]
    refine ⟨hiff, fun hmax => hiff.2 fun h hh => ?_⟩
    obtain ⟨target, hdecode, -⟩ := (hmined h hh).work
    exact exponent_ne hdecode hmax
  · obtain ⟨hproven, hlinked, htip⟩ := verifyHeaderChain_eq_some.1 hok
    refine ⟨htip, hlinked, fun h hh => ?_⟩
    obtain ⟨hlen, target, htarget, hwork⟩ := hproven h hh
    refine ⟨hlen, target, htarget, ?_⟩
    rwa [beBytesLte_iff (fun b hb => hbytes h b (List.mem_reverse.1 hb)) (bitsToTarget_bytes_lt htarget),
      reverseU256_toNat] at hwork

theorem length_one_zeros : (1 :: List.replicate 31 0).length = 32 := by simp

/-- The digest 1, whatever is hashed. -/
def unitHash (_ : Bytes) : Word := ⟨1 :: List.replicate 31 0, length_one_zeros⟩

/-- A mainnet relay stores one header, and the guest takes it. -/
theorem header_difficulty_agrees_mainnet :
    (verifyHeaderChain unitHash [Relay.demoHeader]).isSome := by
  have hgenesis : Relay.History unitHash ((Relay.demoGenesis.prog unitHash).call (.deploy (0xffff * 2 ^ 208) 7)) [] :=
    .call Relay.demoGenesis (.deploy (by decide))
  have hstored := hgenesis.call (.advanceTip 2000 Relay.demoHeader)
  have hbytes : ∀ b ∈ (⟨1 :: List.replicate 31 0, by simp⟩ : Word).bytes, b < 256 := by decide
  have hnonzero : (⟨1 :: List.replicate 31 0, by simp⟩ : Word) ≠ 0 := by decide
  refine ((header_difficulty_agrees (fun _ => hbytes) (fun _ => hnonzero)).2.1 _ _ [Relay.demoHeader] hstored
    ?_ (by decide) (by simp [Linked])).2 ?_
  · decide +kernel
  · decide +kernel

/-- `0x207fffff`, the easiest target of a test network: the relay decodes it and the guest's target is zero. -/
theorem exponent_thirty_two : ¬ ∀ (maxTarget target : Nat) (header : Bytes), 76 ≤ header.length →
    Tacit.bitsToTarget maxTarget (headerBits header) = .ok target →
    ∃ w, Bitcoin.bitsToTarget header = some w ∧ w.toNat = target := by
  intro h
  obtain ⟨w, hw, hvalue⟩ := h (0x7fffff * 2 ^ 232) (0x7fffff * 2 ^ 232) (List.replicate 72 0 ++ [0xff, 0xff, 0x7f, 0x20])
    (by decide) (by decide +kernel)
  have hzero : Bitcoin.bitsToTarget (List.replicate 72 0 ++ [0xff, 0xff, 0x7f, 0x20]) = some 0 := by decide +kernel
  obtain rfl := Option.some.inj (hzero.symm.trans hw)
  revert hvalue
  decide +kernel

end Tacit
