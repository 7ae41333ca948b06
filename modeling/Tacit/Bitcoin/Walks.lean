import Tacit.Bitcoin.Wire
/-!
# What each walker reads

A walker moves over one encoding of what it is named after, whatever follows, and never reads out of bounds. It may end beyond
the end of the transaction, where the next read refuses.
-/
namespace Tacit.Wire

open Prog Cursor Format

variable {data tx : List UInt8} {α : Type}

/-! ## Numbers -/

theorem toLe_wrap {w k : Nat} (hw : 2 ^ w = 256 ^ k) {l : List UInt8} (hl : l.length = k) :
    toLe k (U.wrap w (fromLe l)).val = l := by
  have hlt : fromLe l < 2 ^ w := hw ▸ hl ▸ fromLe_lt l
  simp only [U.wrap, Nat.mod_eq_of_lt hlt]
  rw [← hl, toLe_fromLe]

theorem wrap_toLe {w k : Nat} (hw : 2 ^ w = 256 ^ k) (v : U w) : U.wrap w (fromLe (toLe k v.val)) = v := by
  have hv : fromLe (toLe k v.val) = v.val := fromLe_toLe (hw ▸ v.isLt)
  refine Fin.ext ?_
  simp only [U.wrap, hv]
  exact Nat.mod_eq_of_lt v.isLt

/-- The wide forms: what lies behind the first byte. -/
theorem drop_eq_cons {pos k : Nat} {first : UInt8} (hfirst : data[pos]? = some first) (hk : pos + k < data.length) :
    ∃ l tail, l.length = k ∧ slice data (pos + 1) (pos + 1 + k) = some l ∧ data.drop pos = first :: l ++ tail := by
  have hpos : pos < data.length := by omega
  refine ⟨(data.drop (pos + 1)).take k, (data.drop (pos + 1)).drop k, ?_, ?_, ?_⟩
  · rw [List.length_take, List.length_drop]
    omega
  · rw [slice_eq (by omega) (by omega), Nat.add_sub_cancel_left]
  · rw [List.cons_append, List.take_append_drop, List.drop_eq_getElem_cons hpos]
    rw [List.getElem?_eq_getElem hpos] at hfirst
    rw [Option.some.inj hfirst]

theorem last_byte {b : UInt8} (h₁ : ¬b < 0xfd) (h₂ : b ≠ 0xfd) (h₃ : b ≠ 0xfe) : b = 0xff := by
  have hb := b.toNat_lt
  rw [UInt8.lt_iff_toNat_lt] at h₁
  rw [Ne, ← UInt8.toNat_inj] at h₂ h₃
  apply UInt8.toNat_inj.1
  have e₁ : (0xfd : UInt8).toNat = 0xfd := rfl
  have e₂ : (0xfe : UInt8).toNat = 0xfe := rfl
  have e₃ : (0xff : UInt8).toNat = 0xff := rfl
  omega

/-- A varint is read off its bytes or refused. -/
theorem readVarint_spec (data : List UInt8) (pos : Nat) : readVarint data pos = some none ∨
    ∃ v e tail, Varint v e ∧ data.drop pos = e ++ tail ∧ readVarint data pos = some (some (v, e.length)) := by
  unfold readVarint
  by_cases hpos : pos ≥ data.length
  · exact .inl (if_pos hpos)
  have hfirst := List.getElem?_eq_getElem (Nat.lt_of_not_le hpos)
  have hdrop : data.drop pos = data[pos] :: data.drop (pos + 1) := List.drop_eq_getElem_cons (Nat.lt_of_not_le hpos)
  rw [if_neg hpos, hfirst, Option.bind_eq_bind, Option.bind_some]
  generalize data[pos] = first at hfirst hdrop
  by_cases h₁ : first < 0xfd
  · rw [if_pos h₁]
    exact .inr ⟨_, _, _, .one first h₁, hdrop, rfl⟩
  rw [if_neg h₁]
  by_cases h₂ : first = 0xfd
  · subst h₂
    rw [if_pos rfl]
    by_cases h₃ : pos + 2 ≥ data.length
    · exact .inl (if_pos h₃)
    obtain ⟨l, tail, hl, hslice, hdrop⟩ := drop_eq_cons hfirst (Nat.lt_of_not_le h₃)
    rw [if_neg h₃, hslice]
    exact .inr ⟨_, _, tail, .two l hl, hdrop, by rw [List.length_cons, hl]; rfl⟩
  rw [if_neg h₂]
  by_cases h₄ : first = 0xfe
  · subst h₄
    rw [if_pos rfl]
    by_cases h₅ : pos + 4 ≥ data.length
    · exact .inl (if_pos h₅)
    obtain ⟨l, tail, hl, hslice, hdrop⟩ := drop_eq_cons hfirst (Nat.lt_of_not_le h₅)
    rw [if_neg h₅, hslice]
    exact .inr ⟨_, _, tail, .four l hl, hdrop, by rw [List.length_cons, hl]; rfl⟩
  rw [if_neg h₄]
  by_cases h₆ : pos + 8 ≥ data.length
  · exact .inl (if_pos h₆)
  obtain ⟨l, tail, hl, hslice, hdrop⟩ := drop_eq_cons hfirst (Nat.lt_of_not_le h₆)
  rw [if_neg h₆, hslice, Option.map_some]
  by_cases h₇ : fromLe l ≥ 2 ^ 32
  · exact .inl (congrArg some (if_pos h₇))
  rw [if_neg h₇]
  have hff : first = 0xff := last_byte h₁ h₂ h₄
  subst hff
  exact .inr ⟨_, _, tail, .eight l hl (Nat.lt_of_not_le h₇), hdrop, by rw [List.length_cons, hl]⟩

theorem cons_of_drop {pos : Nat} {first : UInt8} {l tail : List UInt8} (h : data.drop pos = first :: (l ++ tail)) :
    data[pos]? = some first ∧ pos + l.length < data.length ∧ slice data (pos + 1) (pos + 1 + l.length) = some l := by
  have hlen := congrArg List.length h
  simp only [List.length_drop, List.length_cons, List.length_append] at hlen
  have hrest : (⟨data, pos⟩ : Cursor UInt8).rest = [first] ++ l ++ tail := h
  refine ⟨?_, by omega, slice_of_rest (by simp only; omega) hrest rfl rfl⟩
  rw [← Nat.add_zero pos, ← List.getElem?_drop, h]
  rfl

/-- Any of the four forms is read. -/
theorem readVarint_of_drop {pos v : Nat} {e tail : List UInt8} (hv : Varint v e) (h : data.drop pos = e ++ tail) :
    readVarint data pos = some (some (v, e.length)) := by
  cases hv with
  | one b hb =>
    obtain ⟨hfirst, hpos, -⟩ := cons_of_drop (l := []) h
    rw [readVarint, if_neg (Nat.not_le_of_lt (by simpa using hpos)), hfirst, Option.bind_eq_bind, Option.bind_some, if_pos hb]
    rfl
  | two l hl =>
    obtain ⟨hfirst, hpos, hslice⟩ := cons_of_drop h
    rw [hl] at hpos hslice
    rw [readVarint, if_neg (by omega), hfirst, Option.bind_eq_bind, Option.bind_some, if_neg (by decide), if_pos rfl,
      if_neg (Nat.not_le_of_lt hpos), hslice, List.length_cons, hl]
    rfl
  | four l hl =>
    obtain ⟨hfirst, hpos, hslice⟩ := cons_of_drop h
    rw [hl] at hpos hslice
    rw [readVarint, if_neg (by omega), hfirst, Option.bind_eq_bind, Option.bind_some, if_neg (by decide),
      if_neg (by decide), if_pos rfl, if_neg (Nat.not_le_of_lt hpos), hslice, List.length_cons, hl]
    rfl
  | eight l hl hsmall =>
    obtain ⟨hfirst, hpos, hslice⟩ := cons_of_drop h
    rw [hl] at hpos hslice
    rw [readVarint, if_neg (by omega), hfirst, Option.bind_eq_bind, Option.bind_some, if_neg (by decide),
      if_neg (by decide), if_neg (by decide), if_neg (Nat.not_le_of_lt hpos), hslice, List.length_cons, hl, Option.map_some,
      if_neg (Nat.not_le_of_lt hsmall)]

theorem varint_reads : Reads (2 ^ 32) varint Varint where
  reads := by
    intro c v e tail hN hc hv hrest
    have hfit := pos_add_le hc hrest
    have hread : readVarint c.buf c.pos = some (some (v, e.length)) := readVarint_of_drop hv hrest
    have hmove : advance (2 ^ 32) e.length c = .ok () _ := (advance_reads e.length).reads hN hc rfl hrest
    simp only [varint, bind_eq_ok, get_eq_ok, orPanic_eq_ok, orThrow_eq_ok, pure_eq_ok]
    exact ⟨c, c, ⟨rfl, rfl⟩, _, c, ⟨hread, rfl⟩, _, c, ⟨rfl, rfl⟩, (), _, hmove, rfl, rfl⟩
  sound := by
    intro c
    simp only [varint, wp_bind, wp_get, wp_orPanic, wp_orThrow, wp_pure]
    rcases readVarint_spec c.buf c.pos with hnone | ⟨v, e, tail, hv, hrest, hread⟩
    · rw [hnone]
      refine ⟨Option.some_ne_none _, ?_⟩
      rintro _ ⟨⟩
      exact ⟨fun _ => trivial, fun _ h => (Option.some_ne_none _ h.symm).elim⟩
    · rw [hread]
      refine ⟨Option.some_ne_none _, ?_⟩
      rintro _ ⟨⟩
      refine ⟨fun _ => trivial, ?_⟩
      rintro _ ⟨⟩
      refine wp_mono ((advance_reads e.length).sound c) id (fun _ _ => id) ?_
      rintro _ c' ⟨hbuf, hle, hmove⟩
      refine ⟨hbuf, hle, fun hend => ?_⟩
      obtain ⟨e', -, he', -, rfl⟩ := hmove hend
      exact ⟨e, tail, hv, hrest, by rw [he']⟩

theorem nonzeroVarint_reads : Reads (2 ^ 32) nonzeroVarint fun n e => n ≠ 0 ∧ Varint n e := by
  refine (varint_reads.bind fun n => Reads.check.bind fun _ => Reads.pure).congr fun n e => ?_
  constructor
  · rintro ⟨hn, hv⟩
    exact ⟨n, e, [], hv, ⟨(), [], [], ⟨hn, rfl⟩, ⟨rfl, rfl⟩, rfl⟩, (List.append_nil e).symm⟩
  · rintro ⟨n, e, _, hv, ⟨_, _, _, ⟨hn, rfl⟩, ⟨rfl, rfl⟩, rfl⟩, rfl⟩
    rw [List.append_nil, List.append_nil]
    exact ⟨hn, hv⟩

/-! ## Scripts, inputs and outputs -/

theorem skipSized_reads : Reads (2 ^ 32) skipSized fun _ e => ∃ b, Sized b e := by
  refine (varint_reads.bind fun n => advance_reads n).congr fun _ e => ?_
  constructor
  · rintro ⟨b, v, hv, rfl⟩
    exact ⟨b.length, v, b, hv, rfl, rfl⟩
  · rintro ⟨n, v, b, hv, rfl, rfl⟩
    exact ⟨b, v, hv, rfl⟩

theorem readSized_reads : Reads (2 ^ 32) readSized Sized := by
  refine (varint_reads.bind fun n => takeWithin_reads n).congr fun b e => ?_
  constructor
  · rintro ⟨v, hv, rfl⟩
    exact ⟨b.length, v, b, hv, ⟨rfl, rfl⟩, rfl⟩
  · rintro ⟨n, v, b, hv, ⟨rfl, rfl⟩, rfl⟩
    exact ⟨v, hv, rfl⟩

theorem octets_eq_some {n : Nat} {l : List UInt8} {o : Octets n} : octets n l = some o ↔ o.val = l := by
  unfold octets
  by_cases h : l.length = n
  · simp [h, Subtype.ext_iff, eq_comm]
  · rw [dif_neg h]
    refine ⟨nofun, ?_⟩
    rintro rfl
    exact absurd o.property h

theorem prevout_length {op : OutPoint} {e : List UInt8} (h : Prevout op e) : e.length = 36 := by
  rw [h, List.length_append, toLe_length, op.1.property]

theorem readPrevout_reads : Reads (2 ^ 32) readPrevout Prevout where
  reads := by
    rintro c op e tail hN hc hop hrest
    have hfit := pos_add_le hc hrest
    rw [prevout_length hop] at hfit
    rw [hop] at hrest
    have hrest₁ : c.rest = [] ++ op.1.val ++ (toLe 4 op.2.val ++ tail) := by rw [hrest, List.append_assoc, List.nil_append]
    have htxid : slice c.buf c.pos (c.pos + 32) = some op.1.val := slice_of_rest hc hrest₁ rfl (by rw [op.1.property])
    have hvout : slice c.buf (c.pos + 32) (c.pos + 36) = some (toLe 4 op.2.val) :=
      slice_of_rest hc hrest (by rw [op.1.property]) (by rw [toLe_length])
    have hwrap : U.wrap 32 (fromLe (toLe 4 op.2.val)) = op.2 := wrap_toLe (by norm_num) op.2
    have hoctets : (slice c.buf c.pos (c.pos + 32)).bind (octets 32) = some op.1 := by
      rw [htxid, Option.bind_some, octets_eq_some]
    simp only [readPrevout, seek, bind_eq_ok, get_eq_ok, orThrow_eq_ok, checkedAdd_eq_some, check_eq_ok, orPanic_eq_ok,
      modify_eq_ok, pure_eq_ok]
    refine ⟨c, c, ⟨rfl, rfl⟩, _, c, ⟨⟨by omega, rfl⟩, rfl⟩, (), c, ⟨by omega, rfl⟩, op.1, c, ⟨hoctets, rfl⟩, _, c, ⟨hvout, rfl⟩,
      (), _, rfl, ?_, ?_⟩
    · rw [hwrap]
    · rw [prevout_length hop]
      rfl
  sound := by
    intro c
    simp only [readPrevout, seek, wp_bind, wp_get, wp_orThrow, wp_check, wp_orPanic, wp_modify, wp_pure, checkedAdd_eq_some]
    refine ⟨fun _ => trivial, ?_⟩
    rintro _ ⟨-, rfl⟩
    refine ⟨fun _ => trivial, fun hfit => ?_⟩
    have hlen : (c.rest.take 36).length = 36 := by
      simp only [rest, List.length_take, List.length_drop]
      omega
    obtain ⟨txid, vout, hsplit, htxid, hvout⟩ : ∃ txid vout, c.rest.take 36 = txid ++ vout ∧ txid.length = 32 ∧ vout.length = 4 :=
      ⟨_, _, (List.take_append_drop 32 _).symm, by rw [List.length_take, hlen]; rfl, by rw [List.length_drop, hlen]⟩
    have hrest : c.rest = txid ++ vout ++ c.rest.drop 36 := by rw [← hsplit, List.take_append_drop]
    have hrest₁ : c.rest = [] ++ txid ++ (vout ++ c.rest.drop 36) := by rw [List.nil_append, ← List.append_assoc, ← hrest]
    have hpos : c.pos ≤ c.buf.length := by omega
    have hslice₁ : slice c.buf c.pos (c.pos + 32) = some txid := slice_of_rest hpos hrest₁ rfl (by rw [htxid])
    have hslice₂ : slice c.buf (c.pos + 32) (c.pos + 36) = some vout :=
      slice_of_rest hpos hrest (by rw [htxid]) (by rw [hvout])
    rw [hslice₁, hslice₂, Option.bind_some, octets, dif_pos htxid]
    refine ⟨Option.some_ne_none _, ?_⟩
    rintro _ ⟨⟩
    refine ⟨Option.some_ne_none _, ?_⟩
    rintro _ ⟨⟩
    refine ⟨rfl, Nat.le_add_right .., fun _ => ⟨txid ++ vout, c.rest.drop 36, ?_, hrest, ?_⟩⟩
    · rw [Prevout, toLe_wrap (by norm_num) hvout]
    · rw [List.length_append, htxid, hvout]
      rfl

/-- The four bytes of a sequence are any four bytes. -/
theorem exists_toLe {e : List UInt8} {w k : Nat} (hw : 2 ^ w = 256 ^ k) (he : e.length = k) : ∃ v : U w, e = toLe k v.val :=
  ⟨_, (toLe_wrap hw he).symm⟩

theorem readInput_reads : Reads (2 ^ 32) readInput fun op e => ∃ i : TxIn, i.outpoint = op ∧ Input i e := by
  refine (readPrevout_reads.bind fun op => skipSized_reads.bind fun _ => (advance_reads 4).bind fun _ => Reads.pure).congr
    fun op e => ?_
  constructor
  · rintro ⟨i, rfl, e₁, s, hop, hs, rfl⟩
    exact ⟨i.outpoint, e₁, _, hop, ⟨(), s, _, ⟨i.script, hs⟩, ⟨(), toLe 4 i.sequence.val, [], toLe_length .., ⟨rfl, rfl⟩, rfl⟩, rfl⟩,
      by simp⟩
  · rintro ⟨op, e₁, _, hop, ⟨_, s, _, ⟨b, hs⟩, ⟨_, e₂, _, he₂, ⟨rfl, rfl⟩, rfl⟩, rfl⟩, rfl⟩
    obtain ⟨sequence, rfl⟩ : ∃ v : U 32, e₂ = toLe 4 v.val := exists_toLe (by norm_num) he₂
    exact ⟨⟨op, b, sequence⟩, rfl, e₁, s, hop, hs, by simp⟩

theorem skipInput_reads : Reads (2 ^ 32) skipInput fun _ e => ∃ i : TxIn, Input i e := by
  refine ((advance_reads 36).bind fun _ => skipSized_reads.bind fun _ => advance_reads 4).congr fun _ e => ?_
  constructor
  · rintro ⟨i, e₁, s, hop, hs, rfl⟩
    exact ⟨(), e₁, _, prevout_length hop, ⟨(), s, _, ⟨i.script, hs⟩, toLe_length .., rfl⟩, List.append_assoc ..⟩
  · rintro ⟨_, e₁, _, he₁, ⟨_, s, e₂, ⟨b, hs⟩, he₂, rfl⟩, rfl⟩
    obtain ⟨sequence, rfl⟩ : ∃ v : U 32, e₂ = toLe 4 v.val := exists_toLe (by norm_num) he₂
    have htxid : (e₁.take 32).length = 32 := by rw [List.length_take, he₁]; rfl
    have hvout : (e₁.drop 32).length = 4 := by rw [List.length_drop, he₁]
    obtain ⟨vout, hv⟩ : ∃ v : U 32, e₁.drop 32 = toLe 4 v.val := exists_toLe (by norm_num) hvout
    refine ⟨⟨(⟨e₁.take 32, htxid⟩, vout), b, sequence⟩, e₁, s, ?_, hs, (List.append_assoc ..).symm⟩
    rw [Prevout, ← hv, List.take_append_drop]

theorem readOutput_reads : Reads (2 ^ 32) readOutput Output := by
  refine ((takeWithin_reads 8).bind fun _ => readSized_reads.map).congr fun o e => ?_
  constructor
  · rintro ⟨s, hs, rfl⟩
    refine ⟨_, _, s, ⟨rfl, toLe_length ..⟩, ⟨o.script, ?_, hs⟩, rfl⟩
    rw [wrap_toLe (by norm_num)]
  · rintro ⟨l, e₁, s, ⟨rfl, hl⟩, ⟨b, rfl, hs⟩, rfl⟩
    exact ⟨s, hs, by rw [toLe_wrap (by norm_num) hl]⟩

theorem skipOutput_reads : Reads (2 ^ 32) skipOutput fun _ e => ∃ o : TxOut, Output o e := by
  refine ((advance_reads 8).bind fun _ => skipSized_reads).congr fun _ e => ?_
  constructor
  · rintro ⟨o, s, hs, rfl⟩
    exact ⟨(), _, s, toLe_length .., ⟨o.script, hs⟩, rfl⟩
  · rintro ⟨_, e₁, s, he₁, ⟨b, hs⟩, rfl⟩
    obtain ⟨value, rfl⟩ : ∃ v : U 64, e₁ = toLe 8 v.val := exists_toLe (by norm_num) he₁
    exact ⟨⟨value, b⟩, s, hs, rfl⟩

/-! ## Counted fields -/

section Counted

variable {E : Format UInt8 α} {count : Walk Nat} {skip : Walk Unit} {m : Walk α}

theorem counted_reads (hm : Reads (2 ^ 32) m E) : Reads (2 ^ 32) (varint >>= readN m) (Counted E) := by
  refine (varint_reads.bind fun n => hm.readN n).congr fun l e => ?_
  constructor
  · rintro ⟨v, e', hv, hl, rfl⟩
    exact ⟨l.length, v, e', hv, ⟨rfl, hl⟩, rfl⟩
  · rintro ⟨_, v, e', hv, ⟨rfl, hl⟩, rfl⟩
    exact ⟨v, e', hv, hl, rfl⟩

theorem countedNonzero_reads (hm : Reads (2 ^ 32) m E) :
    Reads (2 ^ 32) (nonzeroVarint >>= readN m) fun l e => l ≠ [] ∧ Counted E l e := by
  refine (nonzeroVarint_reads.bind fun n => hm.readN n).congr fun l e => ?_
  constructor
  · rintro ⟨hne, v, e', hv, hl, rfl⟩
    exact ⟨l.length, v, e', ⟨fun h => hne (List.length_eq_zero_iff.1 h), hv⟩, ⟨rfl, hl⟩, rfl⟩
  · rintro ⟨_, v, e', ⟨hne, hv⟩, ⟨rfl, hl⟩, rfl⟩
    exact ⟨fun h => hne (congrArg List.length h), v, e', hv, hl, rfl⟩

/-- A loop that only moves: some elements were there. -/
theorem skipMany_reads (hs : Reads (2 ^ 32) skip fun _ e => ∃ a, E a e) (n : Nat) :
    Reads (2 ^ 32) (readN skip n) fun u e => ∃ l : List α, l.map (fun _ => ()) = u ∧ l.length = n ∧ Many E l e := by
  refine (hs.readN n).congr fun u e => ?_
  constructor
  · rintro ⟨l, rfl, hl, he⟩
    exact ⟨by rw [List.length_map, hl], he.imp fun a _ ha => ⟨a, ha⟩⟩
  · rintro ⟨hu, he⟩
    obtain ⟨l, rfl, hl⟩ := he.lift (f := fun _ : α => ()) fun _ _ ⟨a, ha⟩ => ⟨a, rfl, ha⟩
    exact ⟨l, rfl, by rw [← hu, List.length_map], hl⟩

/-- A count and a loop that only moves. -/
theorem skipCounted_reads {V : Format UInt8 Nat} (hcount : Reads (2 ^ 32) count V)
    (hs : Reads (2 ^ 32) skip fun _ e => ∃ a, E a e) :
    Reads (2 ^ 32) (skipCounted count skip) fun n e => ∃ (l : List α) (v e' : List UInt8),
      l.length = n ∧ V n v ∧ Many E l e' ∧ e = v ++ e' := by
  refine (hcount.bind fun n => (skipMany_reads hs n).bind fun _ => Reads.pure).congr fun n e => ?_
  constructor
  · rintro ⟨l, v, e', rfl, hv, hl, rfl⟩
    exact ⟨l.length, v, e', hv, ⟨_, e', [], ⟨l, rfl, rfl, hl⟩, ⟨rfl, rfl⟩, (List.append_nil e').symm⟩, rfl⟩
  · rintro ⟨n, v, _, hv, ⟨_, e', _, ⟨l, rfl, hn, hl⟩, ⟨rfl, rfl⟩, rfl⟩, rfl⟩
    rw [List.append_nil]
    exact ⟨l, v, e', hn, hv, hl, rfl⟩

theorem skipVarint_reads (hs : Reads (2 ^ 32) skip fun _ e => ∃ a, E a e) :
    Reads (2 ^ 32) (skipCounted varint skip) fun n e => ∃ l : List α, l.length = n ∧ Counted E l e := by
  refine (skipCounted_reads varint_reads hs).congr fun n e => ?_
  constructor
  · rintro ⟨l, rfl, v, e', hv, hl, rfl⟩
    exact ⟨l, v, e', rfl, hv, hl, rfl⟩
  · rintro ⟨l, v, e', rfl, hv, hl, rfl⟩
    exact ⟨l, rfl, v, e', hv, hl, rfl⟩

theorem skipNonzero_reads (hs : Reads (2 ^ 32) skip fun _ e => ∃ a, E a e) :
    Reads (2 ^ 32) (skipCounted nonzeroVarint skip) fun n e => ∃ l : List α, l.length = n ∧ l ≠ [] ∧ Counted E l e := by
  refine (skipCounted_reads nonzeroVarint_reads hs).congr fun n e => ?_
  constructor
  · rintro ⟨l, rfl, hne, v, e', hv, hl, rfl⟩
    exact ⟨l, v, e', rfl, ⟨fun h => hne (List.length_eq_zero_iff.1 h), hv⟩, hl, rfl⟩
  · rintro ⟨l, v, e', rfl, ⟨hne, hv⟩, hl, rfl⟩
    exact ⟨l, rfl, fun h => hne (congrArg List.length h), v, e', hv, hl, rfl⟩

end Counted

theorem skipStack_reads : Reads (2 ^ 32) skipStack fun _ e => ∃ stack, Stack stack e := by
  refine ((skipVarint_reads skipSized_reads).bind fun _ => Reads.pure).congr fun _ e => ?_
  constructor
  · rintro ⟨stack, hstack⟩
    exact ⟨stack.length, e, [], ⟨stack, rfl, hstack⟩, ⟨rfl, rfl⟩, (List.append_nil e).symm⟩
  · rintro ⟨_, e, _, ⟨stack, -, hstack⟩, ⟨-, rfl⟩, rfl⟩
    rw [List.append_nil]
    exact ⟨stack, hstack⟩

/-- The inputs of a body. -/
theorem readInputs_reads :
    Reads (2 ^ 32) (nonzeroVarint >>= readN readInput) fun ops e =>
      ∃ ins : List TxIn, ins.map TxIn.outpoint = ops ∧ ins ≠ [] ∧ Counted Input ins e := by
  refine (countedNonzero_reads readInput_reads).congr fun ops e => ?_
  constructor
  · rintro ⟨ins, rfl, hne, v, e', hv, hl, rfl⟩
    refine ⟨fun h => hne (List.map_eq_nil_iff.1 h), v, e', by rwa [List.length_map], hl.imp fun i _ hi => ⟨i, rfl, hi⟩, rfl⟩
  · rintro ⟨hne, v, e', hv, hl, rfl⟩
    obtain ⟨ins, rfl, hins⟩ := hl.lift fun op e h => h
    rw [List.length_map] at hv
    exact ⟨ins, rfl, fun h => hne (congrArg _ h), v, e', hv, hins, rfl⟩

/-- The outputs of a body. -/
theorem readOutputs_reads :
    Reads (2 ^ 32) (skipCounted nonzeroVarint skipInput >>= fun _ => varint >>= readN readOutput) fun outs e =>
      ∃ ins : List TxIn, ins ≠ [] ∧ Body ins outs e := by
  refine ((skipNonzero_reads skipInput_reads).bind fun _ => counted_reads readOutput_reads).congr fun outs e => ?_
  constructor
  · rintro ⟨ins, hne, e₁, e₂, hins, houts, rfl⟩
    exact ⟨ins.length, e₁, e₂, ⟨ins, rfl, hne, hins⟩, houts, rfl⟩
  · rintro ⟨_, e₁, e₂, ⟨ins, -, hne, hins⟩, houts, rfl⟩
    exact ⟨ins, hne, e₁, e₂, hins, houts, rfl⟩

theorem skipBody_reads : Reads (2 ^ 32) skipBody fun n e =>
    ∃ (ins : List TxIn) (outs : List TxOut), ins.length = n ∧ ins ≠ [] ∧ outs ≠ [] ∧ Body ins outs e := by
  refine ((skipNonzero_reads skipInput_reads).bind fun _ => (skipNonzero_reads skipOutput_reads).bind fun _ => Reads.pure).congr
    fun n e => ?_
  constructor
  · rintro ⟨ins, outs, rfl, hins, houts, e₁, e₂, he₁, he₂, rfl⟩
    exact ⟨_, e₁, e₂, ⟨ins, rfl, hins, he₁⟩, ⟨_, e₂, [], ⟨outs, rfl, houts, he₂⟩, ⟨rfl, rfl⟩, (List.append_nil e₂).symm⟩, rfl⟩
  · rintro ⟨n, e₁, _, ⟨ins, hn, hins, he₁⟩, ⟨_, e₂, _, ⟨outs, -, houts, he₂⟩, ⟨rfl, rfl⟩, rfl⟩, rfl⟩
    rw [List.append_nil]
    exact ⟨ins, outs, hn, hins, houts, e₁, e₂, he₁, he₂, rfl⟩

/-- The output `vout`, when the first to be read is the `i`-th. -/
theorem outputAt_reads (vout : Nat) : ∀ n i, Reads (2 ^ 32) (outputAt vout i n) fun o e =>
    ∃ before : List TxOut, i + before.length = vout ∧ before.length < n ∧ Many Output (before ++ [o]) e
  | 0, i => Reads.throw.congr fun o e => by simp
  | n + 1, i => by
    refine (readOutput_reads.bind fun o => Reads.pure.ite (outputAt_reads vout n (i + 1))).congr fun o e => ?_
    constructor
    · rintro ⟨_ | ⟨o', before⟩, hi, hlen, he⟩
      · cases he with
        | cons ho he =>
          cases he
          exact ⟨o, _, [], ho, (if_pos hi).mpr ⟨rfl, rfl⟩, rfl⟩
      · rw [List.length_cons] at hi hlen
        cases he with
        | cons ho he => exact ⟨o', _, _, ho, (if_neg (by omega)).mpr ⟨before, by omega, by omega, he⟩, rfl⟩
    · rintro ⟨o', e₁, e₂, ho, he, rfl⟩
      by_cases hi : i = vout
      · obtain ⟨rfl, rfl⟩ := (if_pos hi).mp he
        exact ⟨[], hi, Nat.succ_pos n, .cons ho .nil⟩
      · obtain ⟨before, hlen, hlt, he⟩ := (if_neg hi).mp he
        exact ⟨o' :: before, by rw [List.length_cons]; omega, by rw [List.length_cons]; omega, .cons ho he⟩

end Tacit.Wire
