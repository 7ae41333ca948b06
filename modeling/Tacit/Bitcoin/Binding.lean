import Mathlib.Data.List.Basic
import Tacit.Bitcoin.Transaction
/-!
# Do the signatures of the spent notes bind the outputs? (bitcoin.rs:2467-2632)

`note_spends_bind_outputs` looks up the input of each note, takes the signature from its witness and reads the sighash byte. A
signature of 64 bytes is taken for a Schnorr signature, which has no such byte. In a witness of one item it is one. In a
witness of two items it is a DER signature with its sighash byte, whatever that is.
-/
namespace Tacit.Wire

open Prog Cursor Format

/-- `is_strict_der_sig_with_sighash` (:2467). -/
def isStrictDerSigWithSighash (sig : List UInt8) : Option Bool :=
  if sig.length < 9 ∨ sig.length > 73 then some false
  else do
    if (← sig[0]?) ≠ 0x30 then return false
    if (← sig[1]?).toNat ≠ sig.length - 3 then return false
    if (← sig[2]?) ≠ 0x02 then return false
    let rlen := (← sig[3]?).toNat
    if rlen = 0 ∨ 4 + rlen + 2 > sig.length then return false
    if (← sig[4 + rlen]?) ≠ 0x02 then return false
    let slen := (← sig[5 + rlen]?).toNat
    if slen = 0 then return false
    return 6 + rlen + slen == sig.length - 1

/-- The key of a P2WPKH witness: 33 bytes, the first 0x02 or 0x03. The cursor goes past it. -/
def checkKey : Walk Unit := do
  let plen ← varint
  let c ← get
  let pkEnd ← orThrow (checkedAdd (2 ^ 32) c.pos plen) ()
  check (pkEnd > c.buf.length ∨ plen ≠ 33) ()
  let pk0 ← orPanic c.buf[c.pos]?
  check (pk0 ≠ 0x02 ∧ pk0 ≠ 0x03) ()
  seek pkEnd

/-- The witness of the input asked for. -/
def firstItem (itemCount : Nat) : Walk (List UInt8) := do
  check (itemCount ≠ 1 ∧ itemCount ≠ 2) ()
  let sig ← readSized
  if itemCount = 1 then return sig
  else do
    checkKey
    let der ← orPanic (isStrictDerSigWithSighash sig)
    check (der = false) ()
    return sig

/-- The witnesses, from that of the `i`-th of `i + n` inputs. -/
def witnessAt (vin : Nat) : Nat → Nat → Walk (List UInt8)
  | _, 0 => throw ()
  | i, n + 1 => do
    let itemCount ← varint
    if i = vin then firstItem itemCount
    else do
      let _ ← readN skipSized itemCount
      witnessAt vin (i + 1) n

/-- `input_first_witness_item` (:2502). -/
def inputFirstWitnessItem (tx : List UInt8) (vin : Nat) : Option (Option (List UInt8)) := do
  if ← isSegwit tx then
    runFrom 6 (nonzeroVarint >>= fun inputCount => do
      check (vin ≥ inputCount) ()
      let _ ← readN skipInput inputCount
      let _ ← skipCounted varint skipOutput
      witnessAt vin 0 inputCount) tx
  else return none

/-- `sig_binds_all_outputs` (:2598). -/
def sigBindsAllOutputs (sig : List UInt8) : Option Bool :=
  if sig.length = 0 then some false
  else if sig.length = 64 then some true
  else (sig[sig.length - 1]?).map fun b => b &&& 0x7f == 0x01

/-- The loop over the outpoints. -/
def allBind (tx : List UInt8) (inputs : List OutPoint) : List OutPoint → Option Bool
  | [] => some true
  | op :: ops =>
    match inputs.idxOf? op with
    | none => some false
    | some idx => do
      match ← inputFirstWitnessItem tx idx with
      | none => return false
      | some sig => if ← sigBindsAllOutputs sig then allBind tx inputs ops else return false

/-- `note_spends_bind_outputs` (:2615). -/
def noteSpendsBindOutputs (tx : List UInt8) (noteOutpoints : List OutPoint) : Option Bool := do
  match ← extractInputs tx with
  | none => return false
  | some inputs => allBind tx inputs noteOutpoints

/-! ## What a witness is -/

/-- `0x30 ‖ len ‖ 0x02 ‖ rlen ‖ r ‖ 0x02 ‖ slen ‖ s ‖ sighash`, of at most 73 bytes. -/
def StrictDer (sig : List UInt8) : Prop :=
  ∃ (r s : List UInt8) (sighash : UInt8), r ≠ [] ∧ s ≠ [] ∧ sig.length ≤ 73 ∧
    sig = [0x30, UInt8.ofNat (4 + r.length + s.length), 0x02, UInt8.ofNat r.length] ++ r ++
      ([0x02, UInt8.ofNat s.length] ++ s ++ [sighash])

def CompressedKey (pk : List UInt8) : Prop := pk.length = 33 ∧ (pk.head? = some 0x02 ∨ pk.head? = some 0x03)

/-- A trailing sighash byte of base type ALL. -/
def BaseAll (sig : List UInt8) : Prop := ∃ b, sig.getLast? = some b ∧ b &&& 0x7f = 0x01

/-- The stacks a signature is taken from. -/
def Signs (stack : List (List UInt8)) (sig : List UInt8) : Prop :=
  stack = [sig] ∨ ∃ pk, stack = [sig, pk] ∧ CompressedKey pk ∧ StrictDer sig

variable {tx sig : List UInt8} {op : OutPoint} {stack : List (List UInt8)}

/-! ## The shape of a DER signature -/

/-- The bytes that the test reads, and the two lengths among them. -/
structure DerAt (sig : List UInt8) (len rlen slen : UInt8) : Prop where
  long : ¬(sig.length < 9 ∨ sig.length > 73)
  zero : sig[0]? = some 0x30
  one : sig[1]? = some len
  whole : len.toNat = sig.length - 3
  two : sig[2]? = some 0x02
  three : sig[3]? = some rlen
  r_ne : ¬(rlen.toNat = 0 ∨ 4 + rlen.toNat + 2 > sig.length)
  second : sig[4 + rlen.toNat]? = some 0x02
  slen_at : sig[5 + rlen.toNat]? = some slen
  s_ne : slen.toNat ≠ 0
  fits : 6 + rlen.toNat + slen.toNat = sig.length - 1

theorem isStrictDer_iff_derAt : isStrictDerSigWithSighash sig = some true ↔ ∃ len rlen slen, DerAt sig len rlen slen := by
  have hfalse : ∀ {p : Prop} [Decidable p] {o : Option Bool}, (if p then some false else o) = some true ↔ ¬p ∧ o = some true := by
    intro p _ o
    by_cases h : p <;> simp [h]
  simp only [isStrictDerSigWithSighash, hfalse, Option.pure_def, Option.bind_eq_bind, Option.bind_eq_some_iff,
    Option.some.injEq, beq_iff_eq]
  constructor
  · rintro ⟨hlong, _, h₀, hz, len, h₁, hw, _, h₂, ht, rlen, h₃, hr, _, h₄, hs, slen, h₅, hs', hfit⟩
    rw [not_not.1 hz] at h₀
    rw [not_not.1 ht] at h₂
    rw [not_not.1 hs] at h₄
    exact ⟨len, rlen, slen, hlong, h₀, h₁, not_not.1 hw, h₂, h₃, hr, h₄, h₅, hs', hfit⟩
  · rintro ⟨len, rlen, slen, h⟩
    exact ⟨h.long, _, h.zero, not_not.2 rfl, len, h.one, not_not.2 h.whole, _, h.two, not_not.2 rfl, rlen, h.three, h.r_ne, _,
      h.second, not_not.2 rfl, slen, h.slen_at, h.s_ne, h.fits⟩

theorem getElem?_bind_ne_none {i : Nat} {k : UInt8 → Option Bool} (hi : i < sig.length) (hk : ∀ b, k b ≠ none) :
    sig[i]?.bind k ≠ none := by
  rw [List.getElem?_eq_getElem hi, Option.bind_some]
  exact hk _

theorem ite_false_ne_none {p : Prop} [Decidable p] {o : Option Bool} (h : ¬p → o ≠ none) :
    (if p then pure false else o) ≠ none := by
  by_cases hp : p
  · rw [if_pos hp]
    nofun
  · rw [if_neg hp]
    exact h hp

theorem isStrictDer_ne_none (sig : List UInt8) : isStrictDerSigWithSighash sig ≠ none := by
  refine ite_false_ne_none fun hlong => ?_
  refine getElem?_bind_ne_none (by omega) fun _ => ite_false_ne_none fun _ => ?_
  refine getElem?_bind_ne_none (by omega) fun _ => ite_false_ne_none fun _ => ?_
  refine getElem?_bind_ne_none (by omega) fun _ => ite_false_ne_none fun _ => ?_
  refine getElem?_bind_ne_none (by omega) fun rlen => ite_false_ne_none fun hr => ?_
  refine getElem?_bind_ne_none (by omega) fun _ => ite_false_ne_none fun _ => ?_
  exact getElem?_bind_ne_none (by omega) fun _ => ite_false_ne_none fun _ => nofun

theorem DerAt.strictDer {len rlen slen : UInt8} (h : DerAt sig len rlen slen) : StrictDer sig := by
  obtain ⟨hlong, h₀, h₁, hwhole, h₂, h₃, hr, h₄, h₅, hs, hfits⟩ := h
  obtain ⟨r, tail, hr_len, -, hdrop⟩ := drop_eq_cons h₃ (k := rlen.toNat) (by omega)
  obtain ⟨s, rest, hs_len, -, hdrop'⟩ := drop_eq_cons h₅ (k := slen.toNat) (by omega)
  have hrest : rest.length = 1 := by
    have hlen := congrArg List.length hdrop'
    simp only [List.length_drop, List.cons_append, List.length_cons, List.length_append, hs_len] at hlen
    omega
  obtain ⟨sighash, rfl⟩ := List.length_eq_one_iff.1 hrest
  have htail : tail = 0x02 :: (slen :: s ++ [sighash]) := by
    have hlt : 4 + rlen.toNat < sig.length := by omega
    have hcons : sig.drop (4 + rlen.toNat) = 0x02 :: sig.drop (5 + rlen.toNat) := by
      rw [List.drop_eq_getElem_cons hlt, Nat.add_right_comm]
      rw [List.getElem?_eq_getElem hlt] at h₄
      rw [Option.some.inj h₄]
    have hskip : sig.drop (4 + rlen.toNat) = tail := by
      have : sig.drop (3 + (rlen :: r).length) = tail := by rw [← List.drop_drop, hdrop, List.drop_left]
      rw [← this, List.length_cons, hr_len]
      congr 1
      omega
    rw [← hskip, hcons, hdrop']
  have hhead : sig.take 3 = [0x30, len, 0x02] := by
    rw [List.take_add_one, List.take_add_one, List.take_add_one, h₀, h₁, h₂]
    rfl
  refine ⟨r, s, sighash, ?_, ?_, by omega, ?_⟩
  · rintro rfl
    exact hr (.inl hr_len.symm)
  · rintro rfl
    exact hs hs_len.symm
  · have hlen : UInt8.ofNat (4 + r.length + s.length) = len := by
      rw [hr_len, hs_len, ← UInt8.toNat_inj, UInt8.toNat_ofNat']
      omega
    have hrlen : UInt8.ofNat r.length = rlen := by rw [hr_len, UInt8.ofNat_toNat]
    have hslen : UInt8.ofNat s.length = slen := by rw [hs_len, UInt8.ofNat_toNat]
    rw [hlen, hrlen, hslen]
    conv_lhs => rw [← List.take_append_drop 3 sig, hhead, hdrop, htail]
    simp

theorem StrictDer.derAt (h : StrictDer sig) : ∃ len rlen slen, DerAt sig len rlen slen := by
  obtain ⟨r, s, sighash, hr, hs, hlen, hsig⟩ := h
  have hr_pos := List.length_pos_iff.2 hr
  have hs_pos := List.length_pos_iff.2 hs
  have hsize : sig.length = 7 + r.length + s.length := by
    rw [hsig]
    simp only [List.length_append, List.length_cons, List.length_nil]
    omega
  have hbyte : ∀ {n : Nat}, n < 256 → (UInt8.ofNat n).toNat = n := by
    intro n hn
    rw [UInt8.toNat_ofNat']
    omega
  have hrlen : (UInt8.ofNat r.length).toNat = r.length := hbyte (by omega)
  have hslen : (UInt8.ofNat s.length).toNat = s.length := hbyte (by omega)
  have hback : ∀ i, sig[4 + r.length + i]? = ([0x02, UInt8.ofNat s.length] ++ s ++ [sighash])[i]? := by
    intro i
    rw [hsig, List.getElem?_append_right (by simp only [List.length_append, List.length_cons, List.length_nil]; omega)]
    congr 1
    simp only [List.length_append, List.length_cons, List.length_nil]
    omega
  refine ⟨UInt8.ofNat (4 + r.length + s.length), UInt8.ofNat r.length, UInt8.ofNat s.length, by omega, ?_, ?_, ?_, ?_, ?_, ?_, ?_, ?_,
    ?_, ?_⟩
  · rw [hsig]; rfl
  · rw [hsig]; rfl
  · rw [hbyte (by omega)]
    omega
  · rw [hsig]; rfl
  · rw [hsig]; rfl
  · rw [hrlen]
    omega
  · rw [hrlen]
    exact hback 0
  · rw [hrlen, show 5 + r.length = 4 + r.length + 1 by omega]
    exact hback 1
  · rw [hslen]
    omega
  · rw [hrlen, hslen]
    omega

/-- The test says whether the signature has the shape, and never reads out of bounds. -/
theorem isStrictDerSigWithSighash_spec (sig : List UInt8) :
    ∃ b, isStrictDerSigWithSighash sig = some b ∧ (b = true ↔ StrictDer sig) := by
  obtain ⟨b, hb⟩ := Option.ne_none_iff_exists'.1 (isStrictDer_ne_none sig)
  refine ⟨b, hb, ?_⟩
  have hiff : isStrictDerSigWithSighash sig = some true ↔ StrictDer sig :=
    isStrictDer_iff_derAt.trans ⟨fun ⟨_, _, _, h⟩ => h.strictDer, StrictDer.derAt⟩
  rw [← hiff, hb, Option.some.injEq]

/-! ## The witness of an input -/

theorem checkKey_reads : Reads (2 ^ 32) checkKey fun _ e => ∃ pk, CompressedKey pk ∧ Sized pk e where
  reads := by
    rintro c _ e tail hN hc ⟨pk, ⟨hlen, hfirst⟩, v, hv, rfl⟩ hrest
    rw [List.append_assoc] at hrest
    have hread := varint_reads.reads hN hc hv hrest
    have hfit := pos_add_le (c := c.skip v.length) (pos_add_le hc hrest) (rest_skip_of_append hrest)
    simp only [skip_buf, skip_pos, hlen] at hfit
    have hget : c.buf[c.pos + v.length]? = pk.head? := by
      have hdrop : c.buf.drop (c.pos + v.length) = pk ++ tail := rest_skip_of_append hrest
      rw [← Nat.add_zero (c.pos + v.length), ← List.getElem?_drop, hdrop, List.getElem?_append_left (by omega),
        ← List.head?_eq_getElem?]
    obtain ⟨pk0, hpk0, hkind⟩ : ∃ pk0, pk.head? = some pk0 ∧ ¬(pk0 ≠ 0x02 ∧ pk0 ≠ 0x03) := by
      rcases hfirst with h | h
      · exact ⟨_, h, fun h => h.1 rfl⟩
      · exact ⟨_, h, fun h => h.2 rfl⟩
    simp only [checkKey, seek, bind_eq_ok, get_eq_ok, orThrow_eq_ok, check_eq_ok, orPanic_eq_ok, modify_eq_ok,
      checkedAdd_eq_some]
    refine ⟨_, _, hread, _, _, ⟨rfl, rfl⟩, _, _, ⟨⟨?_, rfl⟩, rfl⟩, (), _, ⟨?_, rfl⟩, pk0, _, ⟨hget.trans hpk0, rfl⟩, (), _,
      ⟨hkind, rfl⟩, ?_⟩
    · simp only [skip_pos]
      omega
    · simp only [skip_pos, skip_buf]
      omega
    · rw [List.length_append]
      simp only [skip, Nat.add_assoc]
  sound := by
    intro c
    simp only [checkKey, seek, wp_bind, wp_get, wp_orThrow, wp_check, wp_orPanic, wp_modify, checkedAdd_eq_some]
    refine wp_mono (varint_reads.sound c) id (fun _ _ => id) ?_
    rintro plen c' ⟨hbuf, hle, hread⟩
    refine ⟨fun _ => trivial, ?_⟩
    rintro _ ⟨-, rfl⟩
    refine ⟨fun _ => trivial, fun hfit => ⟨fun hnone => ?_, fun pk0 hpk0 => ⟨fun _ => trivial, fun hkind => ?_⟩⟩⟩
    · rw [List.getElem?_eq_none_iff] at hnone
      omega
    · refine ⟨hbuf, by simp only; omega, fun hend => ?_⟩
      obtain ⟨v, tail, hv, hrest, rfl⟩ := hread (by rw [← hbuf]; omega)
      obtain rfl : plen = 33 := not_not.1 fun h => hfit (.inr h)
      have htail : c.buf.drop (c.pos + v.length) = tail := rest_skip_of_append hrest
      simp only [skip_pos, skip_buf] at hfit hpk0
      have hlen : (tail.take 33).length = 33 := by
        rw [← htail, List.length_take, List.length_drop]
        omega
      have hhead : (tail.take 33).head? = some pk0 := by
        rw [List.head?_take, if_neg (by decide), ← htail, List.head?_drop]
        exact hpk0
      refine ⟨v ++ tail.take 33, tail.drop 33, ⟨tail.take 33, ⟨hlen, ?_⟩, v, hlen.symm ▸ hv, rfl⟩, ?_, ?_⟩
      · rw [hhead]
        by_cases h : pk0 = 0x02
        · exact .inl (congrArg some h)
        · exact .inr (congrArg some (not_not.1 fun h' => hkind ⟨h, h'⟩))
      · rw [List.append_assoc, List.take_append_drop]
        exact hrest
      · rw [List.length_append, hlen]
        simp only [skip, Nat.add_assoc]

theorem isStrictDer_reads (sig : List UInt8) :
    Reads (2 ^ 32) (do
      let der ← orPanic (isStrictDerSigWithSighash sig)
      check (der = false) ()
      return sig : Walk (List UInt8)) fun s e => s = sig ∧ StrictDer sig ∧ e = [] := by
  obtain ⟨b, hb, hder⟩ := isStrictDerSigWithSighash_spec sig
  rw [hb]
  refine (Reads.check.bind fun _ => Reads.pure : Reads (2 ^ 32) (check (b = false) () >>= fun _ => pure sig : Walk _) _).congr
    fun s e => ?_
  rw [← hder, ← Bool.not_eq_false]
  constructor
  · rintro ⟨rfl, h, rfl⟩
    exact ⟨(), [], [], ⟨h, rfl⟩, ⟨rfl, rfl⟩, rfl⟩
  · rintro ⟨_, _, _, ⟨h, rfl⟩, ⟨rfl, rfl⟩, rfl⟩
    exact ⟨rfl, h, rfl⟩

/-- A walk over the stack, of which it returns the signature. -/
theorem firstItem_reads (n : Nat) : Reads (2 ^ 32) (firstItem n) fun sig e =>
    ∃ stack, stack.length = n ∧ Signs stack sig ∧ Many Sized stack e := by
  refine (Reads.check.bind fun _ => readSized_reads.bind fun sig => Reads.pure.ite
    (checkKey_reads.bind fun _ => isStrictDer_reads sig)).congr fun sig e => ?_
  constructor
  · rintro ⟨_, rfl, rfl | ⟨pk, rfl, hkey, hder⟩, he⟩
    · exact ⟨(), [], e, ⟨by simp, rfl⟩, ⟨sig, e, [], Many.one.1 he, (if_pos rfl).mpr ⟨rfl, rfl⟩, (List.append_nil e).symm⟩, rfl⟩
    · obtain ⟨e₁, e₂, hsig, hpk, rfl⟩ := Many.two.1 he
      refine ⟨(), [], _, ⟨by simp, rfl⟩, ⟨sig, e₁, e₂, hsig, (if_neg (by simp)).mpr ?_, rfl⟩, rfl⟩
      exact ⟨(), e₂, [], ⟨pk, hkey, hpk⟩, ⟨rfl, hder, rfl⟩, (List.append_nil e₂).symm⟩
  · rintro ⟨_, _, _, ⟨hn, rfl⟩, ⟨sig', e₁, e₂, hsig, htail, rfl⟩, rfl⟩
    by_cases h : n = 1
    · obtain ⟨rfl, rfl⟩ := (if_pos h).mp htail
      refine ⟨[sig], h.symm, .inl rfl, ?_⟩
      rw [List.append_nil]
      exact Many.one.2 hsig
    · obtain ⟨_, e₃, _, ⟨pk, hkey, hpk⟩, ⟨rfl, hder, rfl⟩, rfl⟩ := (if_neg h).mp htail
      have hn : n = 2 := not_not.1 fun h' => hn ⟨h, h'⟩
      refine ⟨[sig, pk], hn.symm, .inr ⟨pk, rfl, hkey, hder⟩, ?_⟩
      rw [List.append_nil]
      exact Many.two.2 ⟨e₁, e₃, hsig, hpk, rfl⟩

/-- The witness of the input `vin`, behind those before it. -/
theorem witnessAt_reads (vin : Nat) : ∀ n i, Reads (2 ^ 32) (witnessAt vin i n) fun sig e =>
    ∃ before stack, i + before.length = vin ∧ before.length < n ∧ Signs stack sig ∧ Many Stack (before ++ [stack]) e
  | 0, i => Reads.throw.congr fun o e => by simp
  | n + 1, i => by
    refine (varint_reads.bind fun count => (firstItem_reads count).ite ((skipMany_reads skipSized_reads count).bind fun _ =>
      witnessAt_reads vin n (i + 1))).congr fun sig e => ?_
    constructor
    · rintro ⟨_ | ⟨first, before⟩, stack, hi, hlen, hsig, he⟩
      · obtain ⟨v, e', hv, he', rfl⟩ := Many.one.1 he
        exact ⟨_, v, e', hv, (if_pos hi).mpr ⟨stack, rfl, hsig, he'⟩, rfl⟩
      · rw [List.length_cons] at hi hlen
        cases he with
        | cons hfirst he =>
          obtain ⟨v, e', hv, he', rfl⟩ := hfirst
          refine ⟨_, v, _, hv, (if_neg (by omega)).mpr ?_, List.append_assoc ..⟩
          exact ⟨_, e', _, ⟨first, rfl, rfl, he'⟩, ⟨before, stack, by omega, by omega, hsig, he⟩, rfl⟩
    · rintro ⟨count, v, e', hv, he, rfl⟩
      by_cases hi : i = vin
      · obtain ⟨stack, rfl, hsig, he⟩ := (if_pos hi).mp he
        exact ⟨[], stack, hi, Nat.succ_pos n, hsig, Many.one.2 ⟨v, e', hv, he, rfl⟩⟩
      · obtain ⟨_, e₁, e₂, ⟨first, -, rfl, he₁⟩, ⟨before, stack, hlen, hlt, hsig, he₂⟩, rfl⟩ := (if_neg hi).mp he
        refine ⟨first :: before, stack, by rw [List.length_cons]; omega, by rw [List.length_cons]; omega, hsig, ?_⟩
        rw [← List.append_assoc]
        exact .cons ⟨v, e₁, hv, he₁, rfl⟩ he₂

/-- The walk to the witness of the input `vin`, behind the marker. -/
theorem walk_reads (vin : Nat) :
    Reads (2 ^ 32) (nonzeroVarint >>= fun inputCount => do
      check (vin ≥ inputCount) ()
      let _ ← readN skipInput inputCount
      let _ ← skipCounted varint skipOutput
      witnessAt vin 0 inputCount : Walk (List UInt8)) fun sig e =>
      ∃ (ins : List TxIn) (outs : List TxOut) (body : List UInt8) (before : List (List (List UInt8)))
        (stack : List (List UInt8)) (witness : List UInt8), vin < ins.length ∧ Body ins outs body ∧ before.length = vin ∧
        Signs stack sig ∧ Many Stack (before ++ [stack]) witness ∧ e = body ++ witness := by
  refine (nonzeroVarint_reads.bind fun count => Reads.check.bind fun _ => (skipMany_reads skipInput_reads count).bind fun _ =>
    (skipVarint_reads skipOutput_reads).bind fun _ => witnessAt_reads vin count 0).congr fun sig e => ?_
  constructor
  · rintro ⟨ins, outs, _, before, stack, witness, hvin, ⟨_, e₂, ⟨v, e₁, hv, hins, rfl⟩, houts, rfl⟩, hbefore, hsig, hw, rfl⟩
    refine ⟨ins.length, v, e₁ ++ (e₂ ++ witness), ⟨by omega, hv⟩, ⟨(), [], _, ⟨Nat.not_le_of_lt hvin, rfl⟩, ?_, rfl⟩, by simp⟩
    exact ⟨_, e₁, _, ⟨ins, rfl, rfl, hins⟩, ⟨_, e₂, witness, ⟨outs, rfl, houts⟩, ⟨before, stack, by omega, by omega, hsig, hw⟩, rfl⟩,
      rfl⟩
  · rintro ⟨count, v, _, ⟨-, hv⟩, ⟨_, _, _, ⟨hvin, rfl⟩, ⟨_, e₁, _, ⟨ins, -, rfl, hins⟩, ⟨_, e₂, witness, ⟨outs, -, houts⟩,
      ⟨before, stack, hbefore, -, hsig, hw⟩, rfl⟩, rfl⟩, rfl⟩, rfl⟩
    exact ⟨ins, outs, v ++ e₁ ++ e₂, before, stack, witness, Nat.lt_of_not_le hvin, ⟨_, e₂, ⟨v, e₁, hv, hins, rfl⟩, houts, rfl⟩,
      by omega, hsig, hw, by simp⟩

theorem readSized_inside (c : Cursor UInt8) :
    wp True readSized c (fun _ _ => True) fun _ c' => c'.pos ≤ c'.buf.length := by
  rw [readSized, wp_bind]
  exact wp_mono (varint_reads.sound c) False.elim (fun _ _ => id) fun n c' _ => takeWithin_inside n c'

theorem checkKey_inside (c : Cursor UInt8) :
    wp True checkKey c (fun _ _ => True) fun _ c' => c'.pos ≤ c'.buf.length := by
  simp only [checkKey, seek, wp_bind, wp_get, wp_orThrow, wp_check, wp_orPanic, wp_modify]
  refine wp_mono (varint_reads.sound c) False.elim (fun _ _ => id) fun n c' _ => ⟨fun _ => trivial, fun e _ => ?_⟩
  exact ⟨fun _ => trivial, fun hfit => ⟨fun _ => trivial, fun _ _ => ⟨fun _ => trivial, fun _ =>
    Nat.le_of_not_lt fun h => hfit (.inl h)⟩⟩⟩

/-- A signature is only returned out of what is there. -/
theorem firstItem_inside (n : Nat) (c : Cursor UInt8) :
    wp True (firstItem n) c (fun _ _ => True) fun _ c' => c'.pos ≤ c'.buf.length := by
  rw [firstItem, wp_bind, wp_check]
  refine ⟨fun _ => trivial, fun _ => ?_⟩
  rw [wp_bind]
  refine wp_mono (readSized_inside c) id (fun _ _ => id) fun sig c' hin => ?_
  rw [wp_ite]
  refine ⟨fun _ => hin, fun _ => ?_⟩
  rw [wp_bind]
  refine wp_mono (checkKey_inside c') id (fun _ _ => id) fun _ c'' hin => ?_
  simp only [wp_bind, wp_orPanic, wp_check, wp_pure]
  exact ⟨fun _ => trivial, fun _ _ => ⟨fun _ => trivial, fun _ => hin⟩⟩

theorem witnessAt_inside (vin : Nat) : ∀ n i (c : Cursor UInt8),
    wp True (witnessAt vin i n) c (fun _ _ => True) fun _ c' => c'.pos ≤ c'.buf.length
  | 0, _, _ => trivial
  | n + 1, i, c => by
    rw [witnessAt, wp_bind]
    refine wp_mono (varint_reads.sound c) False.elim (fun _ _ => id) fun count c' _ => ?_
    rw [wp_ite]
    refine ⟨fun _ => firstItem_inside count c', fun _ => ?_⟩
    rw [wp_bind]
    exact wp_mono ((skipMany_reads skipSized_reads count).sound c') False.elim (fun _ _ => id)
      fun _ c'' _ => witnessAt_inside vin n (i + 1) c''

/-- `tx` opens as a transaction with the marker, these inputs and, of the input `vin`, this witness. -/
def HasWitness (tx : List UInt8) (ins : List TxIn) (vin : Nat) (stack : List (List UInt8)) : Prop :=
  ∃ (version : List UInt8) (outs : List TxOut) (body : List UInt8) (before : List (List (List UInt8))) (witness tail : List UInt8),
    version.length = 4 ∧ vin < ins.length ∧ Body ins outs body ∧ before.length = vin ∧ Many Stack (before ++ [stack]) witness ∧
    tx = version ++ [0x00, 0x01] ++ (body ++ witness) ++ tail

theorem inputFirstWitnessItem_of_hasWitness {ins : List TxIn} {vin : Nat} (hlen : tx.length < 2 ^ 32)
    (h : HasWitness tx ins vin stack) (hsig : Signs stack sig) : inputFirstWitnessItem tx vin = some (some sig) := by
  obtain ⟨version, outs, body, before, witness, tail, hversion, hvin, hbody, hbefore, hw, htx⟩ := h
  have hmark : isSegwit tx = some true := by
    rw [htx, List.append_assoc]
    exact isSegwit_of_marker hversion _
  rw [inputFirstWitnessItem, hmark, Option.bind_eq_bind, Option.bind_some, if_pos rfl]
  exact (walk_reads vin).runFrom_eq hlen htx ⟨ins, outs, body, before, stack, witness, hvin, hbody, hbefore, hsig, hw, rfl⟩
    (by rw [List.length_append, hversion]; rfl)

theorem walk_inside (vin : Nat) (c : Cursor UInt8) :
    wp True (nonzeroVarint >>= fun inputCount => do
      check (vin ≥ inputCount) ()
      let _ ← readN skipInput inputCount
      let _ ← skipCounted varint skipOutput
      witnessAt vin 0 inputCount : Walk (List UInt8)) c (fun _ _ => True) fun _ c' => c'.pos ≤ c'.buf.length := by
  rw [wp_bind]
  refine wp_mono (nonzeroVarint_reads.sound c) False.elim (fun _ _ => id) fun count c _ => ?_
  rw [wp_bind, wp_check]
  refine ⟨fun _ => trivial, fun _ => ?_⟩
  rw [wp_bind]
  refine wp_mono ((skipMany_reads skipInput_reads count).sound c) False.elim (fun _ _ => id) fun _ c _ => ?_
  rw [wp_bind]
  exact wp_mono ((skipVarint_reads skipOutput_reads).sound c) False.elim (fun _ _ => id)
    fun _ c _ => witnessAt_inside vin count 0 c

theorem inputFirstWitnessItem_spec (tx : List UInt8) (vin : Nat) : inputFirstWitnessItem tx vin = some none ∨
    ∃ sig ins stack, inputFirstWitnessItem tx vin = some (some sig) ∧ HasWitness tx ins vin stack ∧ Signs stack sig := by
  unfold inputFirstWitnessItem
  cases hmark : isSegwit tx with
  | none => rw [isSegwit_eq] at hmark; cases hmark
  | some segwit =>
    rw [Option.bind_eq_bind, Option.bind_some]
    cases segwit with
    | false => exact .inl rfl
    | true =>
      rw [if_pos rfl]
      rcases runFrom_of_wp (wp_and ((walk_reads vin).sound ⟨tx, 6⟩) (walk_inside vin ⟨tx, 6⟩)) with
        hnone | ⟨sig, c, hsome, ⟨hbuf, -, hread⟩, hin⟩
      · exact .inl hnone
      · rw [hbuf] at hin
        obtain ⟨_, tail, ⟨ins, outs, body, before, stack, witness, hvin, hbody, hbefore, hsig, hw, rfl⟩, hrest, -⟩ := hread hin
        obtain ⟨version, hversion, hsix⟩ := take_six hmark
        refine .inr ⟨sig, ins, stack, hsome,
          ⟨version, outs, body, before, witness, tail, hversion, hvin, hbody, hbefore, hw, ?_⟩, hsig⟩
        have hdrop : tx.drop 6 = body ++ witness ++ tail := hrest
        rw [List.append_assoc, ← hdrop, ← hsix, List.take_append_drop]

/-! ## The first input that spends an outpoint -/

/-- The witness of the first input that spends `op`. -/
def Witnessed (tx : List UInt8) (op : OutPoint) (stack : List (List UInt8)) : Prop :=
  ∃ ins vin, (ins.map TxIn.outpoint).idxOf? op = some vin ∧ HasWitness tx ins vin stack

/-- The outpoint is spent with a signature that binds every output: alone in its witness, of 64 bytes or with base type ALL; or
before a compressed key, with base type ALL. -/
def Bound (tx : List UInt8) (op : OutPoint) : Prop :=
  ∃ stack, Witnessed tx op stack ∧ ((∃ sig, stack = [sig] ∧ (sig.length = 64 ∨ BaseAll sig)) ∨
    ∃ sig pk, stack = [sig, pk] ∧ CompressedKey pk ∧ StrictDer sig ∧ BaseAll sig)

/-- Spent with a DER signature of 64 bytes before a compressed key, of another base type. -/
def Overlaps (tx : List UInt8) (op : OutPoint) : Prop :=
  ∃ sig pk, Witnessed tx op [sig, pk] ∧ CompressedKey pk ∧ StrictDer sig ∧ sig.length = 64 ∧ ¬BaseAll sig

theorem HasWitness.hasInput {ins : List TxIn} {vin : Nat} (h : HasWitness tx ins vin stack) : ins ≠ [] := by
  obtain ⟨version, outs, body, before, witness, tail, -, hvin, -⟩ := h
  exact List.length_pos_iff.1 (Nat.zero_lt_of_lt hvin)

theorem HasWitness.holds {ins : List TxIn} {vin : Nat} (h : HasWitness tx ins vin stack) : ∃ outs, Holds tx ins outs := by
  obtain ⟨version, outs, body, before, witness, tail, hversion, -, hbody, -, -, htx⟩ := h
  refine ⟨outs, ?_⟩
  rw [htx, ← List.append_assoc, List.append_assoc _ witness]
  exact Holds.of_segwit hversion hbody

theorem HasWitness.extractInputs {ins : List TxIn} {vin : Nat} (hlen : tx.length < 2 ^ 32) (h : HasWitness tx ins vin stack) :
    extractInputs tx = some (some (ins.map TxIn.outpoint)) := by
  obtain ⟨outs, hholds⟩ := h.holds
  exact extractInputs_of_holds hholds hlen h.hasInput

/-- Bytes hold one witness of an input. -/
theorem HasWitness.det {ins ins' : List TxIn} {vin : Nat} {stack' : List (List UInt8)} (hlen : tx.length < 2 ^ 32)
    (h : HasWitness tx ins vin stack) (h' : HasWitness tx ins' vin stack') : stack = stack' := by
  have hne := h.hasInput
  have hne' := h'.hasInput
  obtain ⟨version, outs, body, before, witness, tail, hversion, -, hbody, hbefore, hw, htx⟩ := h
  obtain ⟨version', outs', body', before', witness', tail', hversion', -, hbody', hbefore', hw', htx'⟩ := h'
  have heq := htx.symm.trans htx'
  simp only [List.append_assoc] at heq
  obtain ⟨-, heq⟩ := List.append_inj heq (hversion.trans hversion'.symm)
  obtain ⟨-, heq⟩ := List.append_inj heq rfl
  have hshort : (body ++ (witness ++ tail)).length < 2 ^ 32 := by
    rw [htx] at hlen
    simp only [List.length_append] at hlen ⊢
    omega
  obtain ⟨-, rfl⟩ := readOutputs_reads.det hshort ⟨ins, hne, hbody⟩ ⟨ins', hne', hbody'⟩ heq
  have heq := List.append_cancel_left heq
  have hshort : (witness ++ tail).length < 2 ^ 32 := by
    rw [List.length_append] at hshort
    omega
  have hstacks : Reads (2 ^ 32) (readN (varint >>= readN readSized) (vin + 1)) _ := (counted_reads readSized_reads).readN (vin + 1)
  have hlast := (hstacks.det hshort ⟨by rw [List.length_append, hbefore]; rfl, hw⟩
    ⟨by rw [List.length_append, hbefore']; rfl, hw'⟩ heq).1
  exact List.singleton_inj.1 (List.append_inj hlast (hbefore.trans hbefore'.symm)).2

theorem Witnessed.det {stack' : List (List UInt8)} (hlen : tx.length < 2 ^ 32) (h : Witnessed tx op stack)
    (h' : Witnessed tx op stack') : stack = stack' := by
  obtain ⟨ins, vin, hvin, hw⟩ := h
  obtain ⟨ins', vin', hvin', hw'⟩ := h'
  have hins := (hw.extractInputs hlen).symm.trans (hw'.extractInputs hlen)
  rw [Option.some.injEq, Option.some.injEq] at hins
  rw [← hins, hvin] at hvin'
  cases hvin'
  exact hw.det hlen hw'

/-- The two ways to be accepted exclude each other. -/
theorem Overlaps.not_bound (hlen : tx.length < 2 ^ 32) (h : Overlaps tx op) : ¬Bound tx op := by
  obtain ⟨sig, pk, hw, -, -, -, hall⟩ := h
  rintro ⟨stack, hw', ⟨sig', rfl, -⟩ | ⟨sig', pk', rfl, -, -, hall'⟩⟩
  · cases hw.det hlen hw'
  · cases hw.det hlen hw'
    exact hall hall'

/-! ## The decision -/

theorem sigBindsAllOutputs_spec (sig : List UInt8) :
    ∃ b, sigBindsAllOutputs sig = some b ∧ (b = true ↔ sig.length = 64 ∨ BaseAll sig) := by
  unfold sigBindsAllOutputs
  by_cases h₀ : sig.length = 0
  · have hnil := List.length_eq_zero_iff.1 h₀
    refine ⟨false, if_pos h₀, nofun, ?_⟩
    rintro (h | ⟨b, hb, -⟩)
    · omega
    · rw [hnil] at hb
      cases hb
  rw [if_neg h₀]
  by_cases h₁ : sig.length = 64
  · exact ⟨true, if_pos h₁, fun _ => .inl h₁, fun _ => rfl⟩
  rw [if_neg h₁, ← List.getLast?_eq_getElem?]
  obtain ⟨b, hb⟩ := Option.ne_none_iff_exists'.1 (mt List.getLast?_eq_none_iff.1 fun h => h₀ (congrArg List.length h))
  refine ⟨b &&& 0x7f == 0x01, by rw [hb]; rfl, ?_⟩
  rw [beq_iff_eq]
  constructor
  · exact fun h => .inr ⟨b, hb, h⟩
  · rintro (h | ⟨b', hb', h⟩)
    · exact absurd h h₁
    · cases hb.symm.trans hb'
      exact h

section Decision

variable (hlen : tx.length < 2 ^ 32) {inputs : List OutPoint} (hinputs : extractInputs tx = some (some inputs))
include hlen hinputs

/-- Whoever has a witness for an outpoint has it at the place where the inputs hold it. -/
theorem witnessed_iff {vin : Nat} (hvin : inputs.idxOf? op = some vin) :
    Witnessed tx op stack ↔ ∃ ins, HasWitness tx ins vin stack := by
  constructor
  · rintro ⟨ins, vin', hvin', hw⟩
    have hins := hinputs.symm.trans (hw.extractInputs hlen)
    rw [Option.some.injEq, Option.some.injEq] at hins
    rw [← hins, hvin] at hvin'
    cases hvin'
    exact ⟨ins, hw⟩
  · rintro ⟨ins, hw⟩
    have hins := hinputs.symm.trans (hw.extractInputs hlen)
    rw [Option.some.injEq, Option.some.injEq] at hins
    exact ⟨ins, vin, hins ▸ hvin, hw⟩

/-- An input is accepted when it is bound or overlaps. -/
theorem accepted_iff {vin : Nat} (hvin : inputs.idxOf? op = some vin) :
    (∃ sig, inputFirstWitnessItem tx vin = some (some sig) ∧ (sig.length = 64 ∨ BaseAll sig)) ↔ Bound tx op ∨ Overlaps tx op := by
  constructor
  · rintro ⟨sig, hsig, hall⟩
    rcases inputFirstWitnessItem_spec tx vin with hnone | ⟨sig', ins, stack, hsig', hw, hsigns⟩
    · rw [hnone] at hsig
      cases hsig
    cases hsig.symm.trans hsig'
    have hw := (witnessed_iff hlen hinputs hvin).2 ⟨ins, hw⟩
    rcases hsigns with rfl | ⟨pk, rfl, hkey, hder⟩
    · exact .inl ⟨_, hw, .inl ⟨sig, rfl, hall⟩⟩
    · by_cases hbase : BaseAll sig
      · exact .inl ⟨_, hw, .inr ⟨sig, pk, rfl, hkey, hder, hbase⟩⟩
      · exact .inr ⟨sig, pk, hw, hkey, hder, hall.resolve_right hbase, hbase⟩
  · have hread : ∀ {stack sig}, Witnessed tx op stack → Signs stack sig → inputFirstWitnessItem tx vin = some (some sig) := by
      intro stack sig hw hsig
      obtain ⟨ins, hw⟩ := (witnessed_iff hlen hinputs hvin).1 hw
      exact inputFirstWitnessItem_of_hasWitness hlen hw hsig
    rintro (⟨_, hw, ⟨sig, rfl, hall⟩ | ⟨sig, pk, rfl, hkey, hder, hall⟩⟩ | ⟨sig, pk, hw, hkey, hder, h64, -⟩)
    · exact ⟨sig, hread hw (.inl rfl), hall⟩
    · exact ⟨sig, hread hw (.inr ⟨pk, rfl, hkey, hder⟩), .inr hall⟩
    · exact ⟨sig, hread hw (.inr ⟨pk, rfl, hkey, hder⟩), .inl h64⟩

theorem not_accepted_of_idxOf?_eq_none (hvin : inputs.idxOf? op = none) : ¬(Bound tx op ∨ Overlaps tx op) := by
  have hw : ∀ stack, ¬Witnessed tx op stack := by
    rintro stack ⟨ins, vin, hvin', hw⟩
    have hins := hinputs.symm.trans (hw.extractInputs hlen)
    rw [Option.some.injEq, Option.some.injEq] at hins
    rw [← hins, hvin] at hvin'
    cases hvin'
  rintro (⟨stack, h, -⟩ | ⟨sig, pk, h, -⟩)
  · exact hw _ h
  · exact hw _ h

theorem allBind_spec : ∀ ops : List OutPoint,
    ∃ b, allBind tx inputs ops = some b ∧ (b = true ↔ ∀ op ∈ ops, Bound tx op ∨ Overlaps tx op)
  | [] => ⟨true, rfl, by simp⟩
  | op :: ops => by
    rw [allBind, List.forall_mem_cons]
    cases hvin : inputs.idxOf? op with
    | none => exact ⟨false, rfl, nofun, fun h => absurd h.1 (not_accepted_of_idxOf?_eq_none hlen hinputs hvin)⟩
    | some vin =>
      have hiff := accepted_iff hlen hinputs hvin
      rcases inputFirstWitnessItem_spec tx vin with hitem | ⟨sig, -, -, hitem, -, -⟩
      · simp only [hitem, Option.bind_eq_bind, Option.bind_some]
        refine ⟨false, rfl, nofun, fun h => ?_⟩
        obtain ⟨sig, hsig, -⟩ := hiff.2 h.1
        rw [hitem] at hsig
        cases hsig
      · simp only [hitem, Option.bind_eq_bind, Option.bind_some]
        obtain ⟨b, hb, hsig⟩ := sigBindsAllOutputs_spec sig
        have hhead : b = true ↔ Bound tx op ∨ Overlaps tx op := by
          rw [hsig, ← hiff]
          constructor
          · exact fun h => ⟨sig, hitem, h⟩
          · rintro ⟨sig', hitem', h⟩
            cases hitem.symm.trans hitem'
            exact h
        rw [hb, Option.bind_some, ← hhead]
        obtain ⟨b', hb', htail⟩ := allBind_spec ops
        cases b with
        | false => exact ⟨false, rfl, nofun, fun h => absurd h.1 Bool.false_ne_true⟩
        | true => exact ⟨b', hb', by rw [htail]; exact ⟨fun h => ⟨rfl, h⟩, fun h => h.2⟩⟩

end Decision

/-- What the decision says: with inputs to look in, every outpoint is bound or overlaps. -/
theorem noteSpendsBindOutputs_spec (hlen : tx.length < 2 ^ 32) (ops : List OutPoint) :
    ∃ b, noteSpendsBindOutputs tx ops = some b ∧ (b = true → ∀ op ∈ ops, Bound tx op ∨ Overlaps tx op) ∧
      (ops ≠ [] → (∀ op ∈ ops, Bound tx op ∨ Overlaps tx op) → b = true) := by
  unfold noteSpendsBindOutputs
  match hinputs : extractInputs tx with
  | none => exact absurd hinputs (extractInputs_ne_none tx)
  | some none =>
    refine ⟨false, rfl, nofun, fun hne hall => ?_⟩
    obtain ⟨op, hop⟩ := List.exists_mem_of_ne_nil ops hne
    have hw : ∀ stack, ¬Witnessed tx op stack := by
      rintro stack ⟨ins, vin, -, hw⟩
      cases hinputs.symm.trans (hw.extractInputs hlen)
    rcases hall op hop with ⟨stack, h, -⟩ | ⟨sig, pk, h, -⟩
    · exact absurd h (hw _)
    · exact absurd h (hw _)
  | some (some inputs) =>
    obtain ⟨b, hb, hiff⟩ := allBind_spec hlen hinputs ops
    exact ⟨b, hb, hiff.1, fun _ => hiff.2⟩

/-- **Does an accepted list of notes bind the outputs?** For any bytes a slice can hold and any outpoints, the decision is made
without a panic; and an accepted list has every outpoint spent by a signature over all the outputs exactly when none of them is
spent by a DER signature of 64 bytes with another base type, or one of them is not spent in an accepted way at all. -/
theorem note_spends_bind_outputs_iff (tx : List UInt8) (hlen : tx.length < 2 ^ 32) (noteOutpoints : List OutPoint) :
    noteSpendsBindOutputs tx noteOutpoints ≠ none ∧
    ((noteSpendsBindOutputs tx noteOutpoints = some true → ∀ op ∈ noteOutpoints, Bound tx op) ↔
      (∀ op ∈ noteOutpoints, ¬Overlaps tx op) ∨ ∃ op ∈ noteOutpoints, ¬Bound tx op ∧ ¬Overlaps tx op) := by
  obtain ⟨b, hb, haccepted, haccepts⟩ := noteSpendsBindOutputs_spec hlen noteOutpoints
  rw [hb]
  refine ⟨nofun, ?_⟩
  rw [Option.some.injEq]
  constructor
  · intro hbound
    by_cases hall : ∀ op ∈ noteOutpoints, Bound tx op ∨ Overlaps tx op
    · by_cases hne : noteOutpoints = []
      · exact .inl (by rw [hne]; nofun)
      · exact .inl fun op hop hover => hover.not_bound hlen (hbound (haccepts hne hall) op hop)
    · simp only [not_forall, not_or] at hall
      obtain ⟨op, hop, hnone⟩ := hall
      exact .inr ⟨op, hop, hnone⟩
  · rintro (hnone | ⟨op, hop, hbound, hover⟩) htrue op' hop'
    · exact (haccepted htrue op' hop').resolve_right (hnone op' hop')
    · exact absurd (haccepted htrue op hop) (not_or.2 ⟨hbound, hover⟩)

/-! ## Two spends -/

/-- The witness of a serialised transaction. -/
theorem Transaction.witnessed {t : Transaction} {vin : Nat} (hlen : t.segwit.length < 2 ^ 32)
    (hop : (t.ins.map TxIn.outpoint).idxOf? op = some vin) (hstack : t.witness[vin]? = some stack) :
    Witnessed t.segwit op stack := by
  have hbody := t.body_fits (Nat.lt_of_le_of_lt (t.body_length_le (.inl rfl)) hlen)
  have hwitness : Many Stack t.witness (t.witness.map (counted sized)).flatten := by
    refine t.witness_fits ?_
    simp only [Transaction.segwit, List.length_append] at hlen
    omega
  obtain ⟨hvin, hget⟩ := List.getElem?_eq_some_iff.1 hstack
  have hsplit : t.witness = t.witness.take vin ++ [stack] ++ t.witness.drop (vin + 1) := by simp [← hget]
  rw [hsplit] at hwitness
  obtain ⟨e₁, e₂, hw, -, heq⟩ := hwitness.split
  refine ⟨t.ins, vin, hop, toLe 4 t.version.val, t.outs, t.body, t.witness.take vin, e₁, e₂ ++ toLe 4 t.locktime.val,
    toLe_length .., ?_, hbody, ?_, hw, ?_⟩
  · rw [← t.witness_length]
    exact hvin
  · rw [List.length_take]
    omega
  · rw [← hsplit] at heq
    rw [Transaction.segwit, heq]
    simp

theorem demoTxid_length : (List.replicate 32 (7 : UInt8)).length = 32 := List.length_replicate

def demoOutpoint : OutPoint := (⟨List.replicate 32 7, demoTxid_length⟩, 1)

/-- One input and one output, and a witness. -/
def demoSpend (stack : List (List UInt8)) : Transaction where
  version := 2
  ins := [⟨demoOutpoint, [], 0⟩]
  outs := [⟨1000, [0x51, 0x20]⟩]
  witness := [stack]
  locktime := 0
  hasInput := List.cons_ne_nil _ _
  witness_length := rfl

theorem demoSpend_witnessed {stack : List (List UInt8)} (hlen : (demoSpend stack).segwit.length < 2 ^ 32) :
    Witnessed (demoSpend stack).segwit demoOutpoint stack := by
  have hop : ((demoSpend stack).ins.map TxIn.outpoint).idxOf? demoOutpoint = some 0 := by
    show [demoOutpoint].idxOf? demoOutpoint = some 0
    decide +kernel
  exact Transaction.witnessed hlen hop rfl

/-- A signature of 57 bytes in `r` and `s`, with base type NONE. -/
def demoSig : List UInt8 :=
  [0x30, 61, 0x02, 25] ++ List.replicate 25 1 ++ ([0x02, 32] ++ List.replicate 32 1 ++ [0x02])

def demoKey : List UInt8 := 0x02 :: List.replicate 32 9

theorem demoSig_overlaps : Overlaps (demoSpend [demoSig, demoKey]).segwit demoOutpoint := by
  have hbase : ¬BaseAll demoSig := by
    rintro ⟨b, hb, hall⟩
    have hlast : demoSig.getLast? = some 0x02 := by decide +kernel
    cases hlast.symm.trans hb
    exact absurd hall (by decide)
  have hder : StrictDer demoSig :=
    ⟨List.replicate 25 1, List.replicate 32 1, 0x02, List.cons_ne_nil _ _, List.cons_ne_nil _ _, by decide +kernel, rfl⟩
  exact ⟨demoSig, demoKey, demoSpend_witnessed (by decide +kernel), ⟨by decide +kernel, .inl rfl⟩, hder, by decide +kernel, hbase⟩

/-- A spend by key path. -/
theorem note_spends_bind_outputs_iff_key_path :
    noteSpendsBindOutputs (demoSpend [List.replicate 64 1]).segwit [demoOutpoint] = some true ∧
    Bound (demoSpend [List.replicate 64 1]).segwit demoOutpoint := by
  have hlen : (demoSpend [List.replicate 64 1]).segwit.length < 2 ^ 32 := by decide +kernel
  have htrue : noteSpendsBindOutputs (demoSpend [List.replicate 64 1]).segwit [demoOutpoint] = some true := by decide +kernel
  have hnone : ∀ op ∈ [demoOutpoint], ¬Overlaps (demoSpend [List.replicate 64 1]).segwit op := by
    rintro op hop ⟨sig, pk, hw, -⟩
    cases List.mem_singleton.1 hop
    cases hw.det hlen (demoSpend_witnessed hlen)
  exact ⟨htrue, (note_spends_bind_outputs_iff _ hlen _).2.2 (.inl hnone) htrue _ (List.mem_singleton_self _)⟩

/-- A signature with base type NONE is accepted as binding all outputs. -/
theorem sixty_four_byte_der_accepted : ¬∀ (tx : List UInt8) (noteOutpoints : List OutPoint), tx.length < 2 ^ 32 →
    noteSpendsBindOutputs tx noteOutpoints = some true → ∀ op ∈ noteOutpoints, Bound tx op := by
  intro hall
  have hlen : (demoSpend [demoSig, demoKey]).segwit.length < 2 ^ 32 := by decide +kernel
  have htrue : noteSpendsBindOutputs (demoSpend [demoSig, demoKey]).segwit [demoOutpoint] = some true := by decide +kernel
  exact demoSig_overlaps.not_bound hlen (hall _ _ hlen htrue _ (List.mem_singleton_self _))

end Tacit.Wire
