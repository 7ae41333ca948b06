import Tacit.Bitcoin.Walks
/-!
# A transaction and its two serialisations

The serialisation with the witness and the one without it are read alike: same inputs, same outputs, same txid. Backwards,
whatever `compute_txid` accepts holds the body that it hashes, so the inputs found in the bytes are those under the txid.
`compute_txid` wants an output, as Bitcoin does; the other readers do not.
-/
namespace Tacit.Wire

open Prog Cursor Format

variable {tx : List UInt8} {ins : List TxIn} {outs : List TxOut}

/-! ## The marker -/

/-- Both tests of the marker read it where it can be, and out of bounds nowhere. -/
theorem isSegwit_eq (tx : List UInt8) :
    isSegwit tx = some (decide (5 < tx.length ∧ tx[4]? = some 0x00 ∧ tx[5]? = some 0x01)) := by
  unfold isSegwit
  by_cases hlen : tx.length > 5
  · have h₄ : tx[4]? = some tx[4] := List.getElem?_eq_getElem (by omega)
    have h₅ : tx[5]? = some tx[5] := List.getElem?_eq_getElem (by omega)
    rw [if_pos hlen, h₄, h₅]
    by_cases h : tx[4] = 0x00 <;> simp [h, hlen, Bool.beq_eq_decide_eq]
  · rw [if_neg hlen]
    simp [hlen]

theorem hasMarker_eq (h : 5 ≤ tx.length) : hasMarker tx = isSegwit tx := by
  unfold hasMarker isSegwit
  by_cases hlen : tx.length > 5
  · simp [hlen, show 6 ≤ tx.length by omega]
  · have h₄ : tx[4]? = some tx[4] := List.getElem?_eq_getElem (by omega)
    simp [hlen, show ¬6 ≤ tx.length by omega, h₄]

/-- `tx` holds a body where the readers look for it. -/
def Holds (tx : List UInt8) (ins : List TxIn) (outs : List TxOut) : Prop :=
  ∃ segwit pre body tail, isSegwit tx = some segwit ∧ pre.length = inputsAt segwit ∧ Body ins outs body ∧
    tx = pre ++ body ++ tail

theorem varint_ne_nil {n : Nat} {e : List UInt8} (h : Varint n e) : e ≠ [] := by
  cases h <;> nofun

/-- Only the count zero looks like the marker. -/
theorem varint_head_ne_zero {n : Nat} {e : List UInt8} (h : Varint n e) (hn : n ≠ 0) : e.head? ≠ some 0x00 := by
  cases h with
  | one b hb =>
    rintro ⟨⟩
    exact hn rfl
  | two => nofun
  | four => nofun
  | eight => nofun

theorem body_head_ne_zero {body : List UInt8} (h : Body ins outs body) (hne : ins ≠ []) (tail : List UInt8) :
    (body ++ tail).head? ≠ some 0x00 := by
  obtain ⟨_, e₂, ⟨v, e, hv, -, rfl⟩, -, rfl⟩ := h
  have hhead := varint_head_ne_zero hv fun h => hne (List.length_eq_zero_iff.1 h)
  rw [List.append_assoc, List.append_assoc, List.head?_append_of_ne_nil _ (varint_ne_nil hv)]
  exact hhead

theorem isSegwit_of_body {version body : List UInt8} (hversion : version.length = 4) (hbody : Body ins outs body) (hne : ins ≠ [])
    (tail : List UInt8) : isSegwit (version ++ body ++ tail) = some false := by
  have hhead : (version ++ body ++ tail)[4]? ≠ some 0x00 := by
    rw [List.append_assoc, List.getElem?_append_right (by omega), hversion, Nat.sub_self, ← List.head?_eq_getElem?]
    exact body_head_ne_zero hbody hne tail
  rw [isSegwit_eq, decide_eq_false fun h => hhead h.2.1]

theorem isSegwit_of_marker {version : List UInt8} (hversion : version.length = 4) (rest : List UInt8) :
    isSegwit (version ++ [0x00, 0x01] ++ rest) = some true := by
  have hlen : 5 < (version ++ [0x00, 0x01] ++ rest).length := by
    simp only [List.length_append, hversion, List.length_cons]
    omega
  have hget : ∀ i, i < 2 → (version ++ [0x00, 0x01] ++ rest)[4 + i]? = ([0x00, 0x01] : List UInt8)[i]? := by
    intro i hi
    rw [List.append_assoc, List.getElem?_append_right (by omega), hversion, Nat.add_sub_cancel_left,
      List.getElem?_append_left hi]
  rw [isSegwit_eq, decide_eq_true ⟨hlen, hget 0 (by decide), hget 1 (by decide)⟩]

theorem Holds.of_stripped {version body tail : List UInt8} (hversion : version.length = 4) (hbody : Body ins outs body)
    (hne : ins ≠ []) : Holds (version ++ body ++ tail) ins outs :=
  ⟨false, version, body, tail, isSegwit_of_body hversion hbody hne tail, hversion, hbody, rfl⟩

theorem Holds.of_segwit {version body tail : List UInt8} (hversion : version.length = 4) (hbody : Body ins outs body) :
    Holds (version ++ [0x00, 0x01] ++ body ++ tail) ins outs := by
  refine ⟨true, version ++ [0x00, 0x01], body, tail, ?_, by rw [List.length_append, hversion]; rfl, hbody, rfl⟩
  rw [List.append_assoc _ body]
  exact isSegwit_of_marker hversion _

/-! ## The readers -/

theorem Body.pos {body : List UInt8} (h : Body ins outs body) : 0 < body.length := by
  obtain ⟨_, e₂, ⟨v, e, hv, -, rfl⟩, -, rfl⟩ := h
  have := List.length_pos_iff.2 (varint_ne_nil hv)
  simp only [List.length_append]
  omega

theorem Holds.le_length (h : Holds tx ins outs) : 5 ≤ tx.length := by
  obtain ⟨segwit, pre, body, tail, -, hpre, hbody, rfl⟩ := h
  have hbody := hbody.pos
  have hstart : 4 ≤ inputsAt segwit := by cases segwit <;> decide
  simp only [List.length_append, hpre]
  omega

section Readers

variable (h : Holds tx ins outs) (hlen : tx.length < 2 ^ 32)
include h hlen

theorem extractInputs_of_holds (hne : ins ≠ []) : extractInputs tx = some (some (ins.map TxIn.outpoint)) := by
  have hfive := h.le_length
  obtain ⟨segwit, pre, _, tail, hsegwit, hpre, ⟨e₁, e₂, hins, -, rfl⟩, htx⟩ := h
  rw [extractInputs, if_neg (by omega), hasMarker_eq hfive, hsegwit, Option.bind_eq_bind, Option.bind_some]
  have htx' : tx = pre ++ e₁ ++ (e₂ ++ tail) := by rw [htx]; simp
  exact readInputs_reads.runFrom_eq hlen htx' ⟨ins, rfl, hne, hins⟩ hpre

theorem extractOutputs_of_holds (hne : ins ≠ []) : extractOutputs tx = some (some outs) := by
  have hfive := h.le_length
  obtain ⟨segwit, pre, body, tail, hsegwit, hpre, hbody, htx⟩ := h
  rw [extractOutputs, if_neg (by omega), hasMarker_eq hfive, hsegwit, Option.bind_eq_bind, Option.bind_some]
  exact readOutputs_reads.runFrom_eq hlen htx ⟨ins, hne, hbody⟩ hpre

/-- The output at an index, found without the others. -/
theorem parseTxOutput_of_holds (vout : U 32) : parseTxOutput tx vout = some outs[vout.val]? := by
  have hfive := h.le_length
  obtain ⟨segwit, pre, _, tail, hsegwit, hpre, ⟨e₁, _, hins, ⟨v, e₂, hv, houts, rfl⟩, rfl⟩, htx⟩ := h
  have htx₁ : tx = pre ++ e₁ ++ (v ++ e₂ ++ tail) := by rw [htx]; simp
  have htx₂ : tx = (pre ++ e₁) ++ v ++ (e₂ ++ tail) := by rw [htx]; simp
  rw [parseTxOutput, if_neg (by omega), hsegwit, Option.bind_eq_bind, Option.bind_some,
    (skipVarint_reads skipInput_reads).runFrom_bind hlen htx₁ ⟨ins, rfl, hins⟩ hpre,
    varint_reads.runFrom_bind hlen htx₂ hv (by rw [List.length_append, hpre]), runFrom_check]
  by_cases hvout : vout.val < outs.length
  · have hsplit : outs = outs.take vout.val ++ [outs[vout.val]] ++ outs.drop (vout.val + 1) := by simp
    rw [hsplit] at houts
    obtain ⟨e₃, e₄, hat, -, rfl⟩ := houts.split
    have htx₃ : tx = (pre ++ e₁ ++ v) ++ e₃ ++ (e₄ ++ tail) := by rw [htx]; simp
    have hbefore : 0 + (outs.take vout.val).length = vout.val := by rw [List.length_take]; omega
    rw [if_neg (by omega), (outputAt_reads vout.val outs.length 0).runFrom_eq hlen htx₃ ⟨_, hbefore, by omega, hat⟩
      (by simp only [List.length_append, hpre]), List.getElem?_eq_getElem hvout]
  · rw [if_pos (Nat.le_of_not_lt hvout), List.getElem?_eq_none (Nat.le_of_not_lt hvout)]

end Readers

/-! ## The txid -/

/-- A transaction with a witness, cut into its fields. -/
structure Parts where
  version : List UInt8
  ins : List TxIn
  outs : List TxOut
  body : List UInt8
  witness : List (List (List UInt8))
  witnessBytes : List UInt8
  locktime : List UInt8
  version_length : version.length = 4
  hasInput : ins ≠ []
  hasOutput : outs ≠ []
  isBody : Body ins outs body
  isWitness : Many Stack witness witnessBytes
  witness_length : witness.length = ins.length
  locktime_length : locktime.length = 4

namespace Parts

variable (p : Parts)

def segwit : List UInt8 := p.version ++ [0x00, 0x01] ++ p.body ++ p.witnessBytes ++ p.locktime

def stripped : List UInt8 := p.version ++ p.body ++ p.locktime

theorem segwit_holds : Holds p.segwit p.ins p.outs := by
  rw [segwit, List.append_assoc _ p.witnessBytes]
  exact Holds.of_segwit p.version_length p.isBody

theorem stripped_holds : Holds p.stripped p.ins p.outs := Holds.of_stripped p.version_length p.isBody p.hasInput

end Parts

theorem nonwitnessTxExactLen_ne_none : nonwitnessTxExactLen tx ≠ none := by
  unfold nonwitnessTxExactLen
  by_cases h : tx.length < 4
  · rw [if_pos h]
    nofun
  · rw [if_neg h, Ne, Option.map_eq_none_iff]
    refine runFrom_ne_none (Q := fun _ _ => True) ?_
    rw [wp_bind]
    refine wp_mono (skipBody_reads.sound _) id (fun _ _ => id) fun _ c _ => ?_
    rw [wp_bind]
    exact wp_mono ((advance_reads 4).sound c) id (fun _ _ => id) fun _ _ _ => trivial

/-- A body between a version and a locktime parses. -/
theorem nonwitnessTxExactLen_of_body {version body locktime : List UInt8} (hversion : version.length = 4)
    (hbody : Body ins outs body) (hins : ins ≠ []) (houts : outs ≠ []) (hlocktime : locktime.length = 4)
    (hlen : (version ++ body ++ locktime).length < 2 ^ 32) : nonwitnessTxExactLen (version ++ body ++ locktime) = some true := by
  have hbind := skipBody_reads.runFrom_bind (k := fun _ => advance (2 ^ 32) 4 >>= fun _ => get) hlen rfl
    ⟨ins, outs, rfl, hins, houts, hbody⟩ hversion
  have hend : version ++ body ++ locktime = (version ++ body) ++ locktime ++ [] := (List.append_nil _).symm
  have hpos : (version ++ body).length = 4 + body.length := by rw [List.length_append, hversion]
  have hlast := (advance_reads 4).runFrom_bind (a := ()) (k := fun _ => get) hlen hend hlocktime hpos
  rw [nonwitnessTxExactLen, if_neg (by rw [List.length_append, List.length_append]; omega), hbind, hlast]
  have hget : ∀ n, runFrom n (get : Walk (Cursor UInt8)) (version ++ body ++ locktime) = some (some ⟨_, n⟩) := fun _ => rfl
  rw [hget]
  simp only [Option.map_some, Option.any_some, List.length_append, hversion, beq_self_eq_true]

theorem looksMerged_ne_none : looksMerged tx ≠ none := by
  unfold looksMerged
  by_cases h : tx.length = 64
  · rw [if_pos h, Ne, Option.map_eq_none_iff]
    exact nonwitnessTxExactLen_ne_none
  · rw [if_neg h]
    nofun

theorem looksMerged_of_body {version body locktime : List UInt8} (hversion : version.length = 4) (hbody : Body ins outs body)
    (hins : ins ≠ []) (houts : outs ≠ []) (hlocktime : locktime.length = 4)
    (hlen : (version ++ body ++ locktime).length < 2 ^ 32) : looksMerged (version ++ body ++ locktime) = some false := by
  unfold looksMerged
  by_cases h : (version ++ body ++ locktime).length = 64
  · rw [if_pos h, nonwitnessTxExactLen_of_body hversion hbody hins houts hlocktime hlen]
    rfl
  · rw [if_neg h]

theorem take_six (hmark : isSegwit tx = some true) : ∃ version : List UInt8, version.length = 4 ∧
    tx.take 6 = version ++ [0x00, 0x01] := by
  rw [isSegwit_eq, Option.some.injEq, decide_eq_true_iff] at hmark
  obtain ⟨hlen, h₄, h₅⟩ := hmark
  refine ⟨tx.take 4, by rw [List.length_take]; omega, ?_⟩
  rw [List.take_add_one, List.take_add_one, h₄, h₅, List.append_assoc]
  rfl

namespace Parts

variable (p : Parts)

/-- The three slices that are put together. -/
theorem slices : slice p.segwit 0 4 = some p.version ∧ slice p.segwit 6 (6 + p.body.length) = some p.body ∧
    slice p.segwit (6 + p.body.length + p.witnessBytes.length) (6 + p.body.length + p.witnessBytes.length + 4) =
      some p.locktime := by
  have hslice : ∀ {pre v tail : List UInt8}, p.segwit = pre ++ v ++ tail →
      slice p.segwit pre.length (pre.length + v.length) = some v := by
    intro pre v tail h
    exact slice_of_rest (c := ⟨p.segwit, 0⟩) (Nat.zero_le _) h (Nat.zero_add _).symm rfl
  have hversion : p.segwit = [] ++ p.version ++ ([0x00, 0x01] ++ p.body ++ p.witnessBytes ++ p.locktime) := by simp [segwit]
  have hbody : p.segwit = (p.version ++ [0x00, 0x01]) ++ p.body ++ (p.witnessBytes ++ p.locktime) := by simp [segwit]
  have hlocktime : p.segwit = (p.version ++ [0x00, 0x01] ++ p.body ++ p.witnessBytes) ++ p.locktime ++ [] := by simp [segwit]
  have h₁ := hslice hversion
  have h₂ := hslice hbody
  have h₃ := hslice hlocktime
  simp only [List.length_append, List.length_nil, List.length_cons, p.version_length, p.locktime_length] at h₁ h₂ h₃
  exact ⟨h₁, h₂, h₃⟩

theorem length_segwit : p.segwit.length = 6 + p.body.length + p.witnessBytes.length + 4 := by
  simp only [segwit, List.length_append, List.length_cons, List.length_nil, p.version_length, p.locktime_length]

theorem length_stripped : p.stripped.length = 4 + p.body.length + 4 := by
  simp only [stripped, List.length_append, p.version_length, p.locktime_length]

end Parts

/-- What is hashed of a transaction with a witness is the transaction without it. -/
theorem stripWitness_spec (hmark : isSegwit tx = some true) :
    wp False stripWitness ⟨tx, 6⟩ (fun _ _ => True) fun s _ => ∃ p : Parts, tx = p.segwit ∧ s = p.stripped := by
  obtain ⟨version, hversion, hsix⟩ := take_six hmark
  have hsplit : tx = version ++ [0x00, 0x01] ++ tx.drop 6 := by rw [← hsix, List.take_append_drop]
  have hfour : slice tx 0 4 = some version := by
    have hrest : (⟨tx, 0⟩ : Cursor UInt8).rest = [] ++ version ++ ([0x00, 0x01] ++ tx.drop 6) := by
      rw [List.nil_append, ← List.append_assoc, ← hsplit]
      rfl
    exact slice_of_rest (Nat.zero_le _) hrest rfl (by rw [hversion])
  simp only [stripWitness, wp_bind, wp_get, wp_check, wp_orThrow, wp_orPanic, wp_pure, checkedAdd_eq_some, hfour]
  refine ⟨Option.some_ne_none _, ?_⟩
  rintro _ ⟨⟩
  refine wp_mono (skipBody_reads.sound _) id (fun _ _ => id) ?_
  rintro n c₁ ⟨hbuf₁, hle₁, hread₁⟩
  refine wp_mono ((skipMany_reads skipStack_reads n).sound c₁) id (fun _ _ => id) ?_
  rintro _ c₂ ⟨hbuf₂, hle₂, hread₂⟩
  refine ⟨fun _ => trivial, fun hend => ⟨fun _ => trivial, ?_⟩⟩
  rintro stop ⟨-, rfl⟩
  refine ⟨fun _ => trivial, fun hstop => ?_⟩
  have hstop : c₂.pos + 4 = tx.length := by
    rw [not_not] at hstop
    rw [hstop, hbuf₂, hbuf₁]
  obtain ⟨body, tail₁, ⟨ins, outs, hn, hins, houts, hbody⟩, hrest₁, rfl⟩ := hread₁ (by simp only; omega)
  obtain ⟨witnessBytes, locktime, ⟨witness, -, hw, hwitness⟩, hrest₂, rfl⟩ := hread₂ (by rw [hbuf₁]; simp only; omega)
  rw [rest_skip_of_append hrest₁] at hrest₂
  have htx : tx = version ++ [0x00, 0x01] ++ body ++ witnessBytes ++ locktime := by
    have hdrop : tx.drop 6 = body ++ (witnessBytes ++ locktime) := hrest₂ ▸ hrest₁
    rw [hdrop] at hsplit
    simpa using hsplit
  have hlocktime : locktime.length = 4 := by
    have hlen := congrArg List.length htx
    simp only [List.length_append, List.length_cons, List.length_nil, hversion] at hlen
    simp only [skip_pos] at hstop
    omega
  let p : Parts := ⟨version, ins, outs, body, witness, witnessBytes, locktime, hversion, hins, houts, hbody, hwitness,
    hw.trans hn.symm, hlocktime⟩
  have hp : tx = p.segwit := htx
  obtain ⟨-, hslice, hslice'⟩ := p.slices
  rw [← hp] at hslice hslice'
  have h₁ : slice ((Cursor.skip ⟨tx, 6⟩ body.length).skip witnessBytes.length).buf
      ((Cursor.skip ⟨tx, 6⟩ body.length).skip witnessBytes.length).pos
      (((Cursor.skip ⟨tx, 6⟩ body.length).skip witnessBytes.length).pos + 4) = some locktime := hslice'
  have h₂ : slice ((Cursor.skip ⟨tx, 6⟩ body.length).skip witnessBytes.length).buf 6 (Cursor.skip ⟨tx, 6⟩ body.length).pos =
    some body := hslice
  rw [h₁, h₂]
  refine ⟨Option.some_ne_none _, ?_⟩
  rintro _ ⟨⟩
  refine ⟨Option.some_ne_none _, ?_⟩
  rintro _ ⟨⟩
  exact ⟨looksMerged_ne_none, fun _ _ => ⟨fun _ => trivial, fun _ => ⟨p, hp, rfl⟩⟩⟩

theorem stripWitness_of_parts (p : Parts) (hlen : p.segwit.length < 2 ^ 32) :
    runFrom 6 stripWitness p.segwit = some (some p.stripped) := by
  have hsix : (p.version ++ [0x00, 0x01]).length = 6 := by rw [List.length_append, p.version_length]; rfl
  have hbody : p.segwit = (p.version ++ [0x00, 0x01]) ++ p.body ++ (p.witnessBytes ++ p.locktime) := by simp [Parts.segwit]
  have hwitness : p.segwit = (p.version ++ [0x00, 0x01] ++ p.body) ++ p.witnessBytes ++ p.locktime := by simp [Parts.segwit]
  have hat := skipBody_reads.ok_at hlen hbody ⟨p.ins, p.outs, rfl, p.hasInput, p.hasOutput, p.isBody⟩ hsix
  have hat' := (skipMany_reads skipStack_reads p.ins.length).ok_at hlen hwitness ⟨p.witness, rfl, p.witness_length, p.isWitness⟩
    (by rw [List.length_append, hsix])
  obtain ⟨hslice, hslice', hslice''⟩ := p.slices
  have hstripped : p.stripped.length < 2 ^ 32 := by
    rw [p.length_segwit] at hlen
    rw [p.length_stripped]
    omega
  have hmerged := looksMerged_of_body p.version_length p.isBody p.hasInput p.hasOutput p.locktime_length hstripped
  rw [runFrom_eq_some]
  simp only [stripWitness, bind_eq_ok, get_eq_ok, orPanic_eq_ok, orThrow_eq_ok, check_eq_ok, pure_eq_ok, checkedAdd_eq_some]
  have hend := p.length_segwit
  refine ⟨_, _, _, ⟨rfl, rfl⟩, _, _, ⟨hslice, rfl⟩, _, _, hat, _, _, ⟨rfl, rfl⟩, _, _, hat', _, _, ⟨rfl, rfl⟩, (), _,
    ⟨by simp only; omega, rfl⟩, _, _, ⟨⟨by simp only; omega, rfl⟩, rfl⟩, (), _, ⟨by simp only; omega, rfl⟩, _, _,
    ⟨hslice'', rfl⟩, _, _, ⟨hslice', rfl⟩, _, _, ⟨hmerged, rfl⟩, (), _, ⟨by decide, rfl⟩, rfl, rfl⟩

/-- The preimage of a txid: with the marker what the witness leaves, else the bytes. -/
theorem strippedTx_eq_some {s : List UInt8} (h : strippedTx tx = some (some s)) :
    s = tx ∨ ∃ p : Parts, tx = p.segwit ∧ s = p.stripped := by
  unfold strippedTx at h
  cases hmark : isSegwit tx with
  | none => rw [isSegwit_eq] at hmark; cases hmark
  | some segwit =>
    rw [hmark, Option.bind_eq_bind, Option.bind_some] at h
    cases segwit with
    | true =>
      rw [if_pos rfl] at h
      rcases runFrom_of_wp (stripWitness_spec hmark) with hnone | ⟨s', -, hs', hparts⟩
      · rw [hnone] at h
        cases h
      · rw [hs'] at h
        cases h
        exact .inr hparts
    | false =>
      rw [if_neg Bool.false_ne_true, Option.bind_eq_some_iff] at h
      obtain ⟨merged, -, h⟩ := h
      cases merged with
      | true => cases h
      | false =>
        cases h
        exact .inl rfl

theorem strippedTx_ne_none : strippedTx tx ≠ none := by
  unfold strippedTx
  cases hmark : isSegwit tx with
  | none => rw [isSegwit_eq] at hmark; cases hmark
  | some segwit =>
    rw [Option.bind_eq_bind, Option.bind_some]
    cases segwit with
    | true =>
      rw [if_pos rfl]
      exact runFrom_ne_none (stripWitness_spec hmark)
    | false =>
      rw [if_neg Bool.false_ne_true]
      cases hmerged : looksMerged tx with
      | none => exact absurd hmerged looksMerged_ne_none
      | some merged => nofun

theorem Parts.strippedTx_segwit (p : Parts) (hlen : p.segwit.length < 2 ^ 32) : strippedTx p.segwit = some (some p.stripped) := by
  have hmark : isSegwit p.segwit = some true := by
    rw [Parts.segwit, List.append_assoc, List.append_assoc]
    exact isSegwit_of_marker p.version_length _
  rw [strippedTx, hmark, Option.bind_eq_bind, Option.bind_some, if_pos rfl, stripWitness_of_parts p hlen]

/-! ## The serialiser -/

/-- The shortest form of a count. -/
def compactSize (n : Nat) : List UInt8 :=
  if n < 0xfd then [UInt8.ofNat n]
  else if n < 2 ^ 16 then 0xfd :: toLe 2 n
  else if n < 2 ^ 32 then 0xfe :: toLe 4 n
  else 0xff :: toLe 8 n

def sized (b : List UInt8) : List UInt8 := compactSize b.length ++ b

def counted {α : Type} (w : α → List UInt8) (l : List α) : List UInt8 := compactSize l.length ++ (l.map w).flatten

def TxIn.serialize (i : TxIn) : List UInt8 :=
  i.outpoint.1.val ++ toLe 4 i.outpoint.2.val ++ sized i.script ++ toLe 4 i.sequence.val

def TxOut.serialize (o : TxOut) : List UInt8 := toLe 8 o.value.val ++ sized o.script

structure Transaction where
  version : U 32
  ins : List TxIn
  outs : List TxOut
  witness : List (List (List UInt8))
  locktime : U 32
  hasInput : ins ≠ []
  witness_length : witness.length = ins.length

namespace Transaction

variable (t : Transaction)

def body : List UInt8 := counted TxIn.serialize t.ins ++ counted TxOut.serialize t.outs

/-- With the marker, the flag and the witness. -/
def segwit : List UInt8 :=
  toLe 4 t.version.val ++ [0x00, 0x01] ++ t.body ++ (t.witness.map (counted sized)).flatten ++ toLe 4 t.locktime.val

def stripped : List UInt8 := toLe 4 t.version.val ++ t.body ++ toLe 4 t.locktime.val

end Transaction

theorem varint_compactSize {n : Nat} (hn : n < 2 ^ 32) : Varint n (compactSize n) := by
  unfold compactSize
  by_cases h₁ : n < 0xfd
  · rw [if_pos h₁]
    have hbyte : (UInt8.ofNat n).toNat = n := by
      rw [UInt8.toNat_ofNat']
      omega
    have hlt : UInt8.ofNat n < 0xfd := by
      rw [UInt8.lt_iff_toNat_lt, hbyte]
      exact h₁
    simpa only [hbyte] using Varint.one (UInt8.ofNat n) hlt
  rw [if_neg h₁]
  by_cases h₂ : n < 2 ^ 16
  · rw [if_pos h₂]
    have hle : fromLe (toLe 2 n) = n := fromLe_toLe h₂
    simpa only [hle] using Varint.two (toLe 2 n) (toLe_length ..)
  rw [if_neg h₂, if_pos hn]
  have hle : fromLe (toLe 4 n) = n := fromLe_toLe hn
  simpa only [hle] using Varint.four (toLe 4 n) (toLe_length ..)

theorem sized_fits {b : List UInt8} (h : (sized b).length < 2 ^ 32) : Sized b (sized b) := by
  rw [sized, List.length_append] at h
  exact ⟨_, varint_compactSize (by omega), rfl⟩

theorem compactSize_pos (n : Nat) : 0 < (compactSize n).length := by
  unfold compactSize
  split_ifs <;> simp

theorem length_le_flatten {α : Type} {w : α → List UInt8} (hw : ∀ a, 0 < (w a).length) :
    ∀ l : List α, l.length ≤ ((l.map w).flatten).length
  | [] => Nat.le_refl _
  | a :: l => by
    have ih := length_le_flatten hw l
    have ha := hw a
    rw [List.map_cons, List.flatten_cons, List.length_append, List.length_cons]
    omega

theorem length_le_of_mem {α : Type} {w : α → List UInt8} {l : List α} {a : α} (ha : a ∈ l) :
    (w a).length ≤ ((l.map w).flatten).length :=
  (List.sublist_flatten_of_mem (List.mem_map_of_mem ha)).length_le

/-- A whole that fits has a count that fits and elements that do. -/
theorem counted_fits {α : Type} {w : α → List UInt8} {E : Format UInt8 α} {l : List α} (hpos : ∀ a, 0 < (w a).length)
    (hw : ∀ a, (w a).length < 2 ^ 32 → E a (w a)) (h : (counted w l).length < 2 ^ 32) : Counted E l (counted w l) := by
  rw [counted, List.length_append] at h
  have hcount := length_le_flatten hpos l
  refine ⟨_, _, varint_compactSize (by omega), .of_writer fun a ha => hw a ?_, rfl⟩
  have := length_le_of_mem (w := w) ha
  omega

theorem TxIn.serialize_fits {i : TxIn} (h : i.serialize.length < 2 ^ 32) : Input i i.serialize := by
  refine ⟨_, _, rfl, sized_fits ?_, rfl⟩
  simp only [TxIn.serialize, List.length_append] at h
  omega

theorem TxOut.serialize_fits {o : TxOut} (h : o.serialize.length < 2 ^ 32) : Output o o.serialize := by
  refine ⟨_, sized_fits ?_, rfl⟩
  simp only [TxOut.serialize, List.length_append] at h
  omega

namespace Transaction

variable (t : Transaction)

theorem body_fits (h : t.body.length < 2 ^ 32) : Body t.ins t.outs t.body := by
  rw [body, List.length_append] at h
  have hins : (counted TxIn.serialize t.ins).length < 2 ^ 32 := by omega
  have houts : (counted TxOut.serialize t.outs).length < 2 ^ 32 := by omega
  refine ⟨_, _, counted_fits (fun i => ?_) (fun _ => TxIn.serialize_fits) hins,
    counted_fits (fun o => ?_) (fun _ => TxOut.serialize_fits) houts, rfl⟩
  · simp only [TxIn.serialize, List.length_append, toLe_length]
    omega
  · simp only [TxOut.serialize, List.length_append, toLe_length]
    omega

/-- Each input's stack. -/
theorem witness_fits (h : ((t.witness.map (counted sized)).flatten).length < 2 ^ 32) :
    Many Stack t.witness (t.witness.map (counted sized)).flatten := by
  have hsized : ∀ b, 0 < (sized b).length := by
    intro b
    have := compactSize_pos b.length
    rw [sized, List.length_append]
    omega
  refine .of_writer fun stack hstack => counted_fits hsized (fun _ => sized_fits) ?_
  exact Nat.lt_of_le_of_lt (length_le_of_mem hstack) h

theorem body_length_le {x : List UInt8} (hx : x = t.segwit ∨ x = t.stripped) : t.body.length ≤ x.length := by
  rcases hx with rfl | rfl
  · simp only [segwit, List.length_append]
    omega
  · simp only [stripped, List.length_append]
    omega

/-- What fits a slice is read by every walker. -/
theorem holds {x : List UInt8} (hx : x = t.segwit ∨ x = t.stripped) (hlen : x.length < 2 ^ 32) : Holds x t.ins t.outs := by
  have hbody := t.body_fits (Nat.lt_of_le_of_lt (t.body_length_le hx) hlen)
  rcases hx with rfl | rfl
  · rw [segwit, List.append_assoc _ (List.flatten _)]
    exact Holds.of_segwit (toLe_length ..) hbody
  · exact Holds.of_stripped (toLe_length ..) hbody t.hasInput

/-- Its fields, where a witness of that length fits. -/
def parts (houts : t.outs ≠ []) (hbody : t.body.length < 2 ^ 32)
    (hwitness : ((t.witness.map (counted sized)).flatten).length < 2 ^ 32) : Parts where
  version := toLe 4 t.version.val
  ins := t.ins
  outs := t.outs
  body := t.body
  witness := t.witness
  witnessBytes := (t.witness.map (counted sized)).flatten
  locktime := toLe 4 t.locktime.val
  version_length := toLe_length ..
  hasInput := t.hasInput
  hasOutput := houts
  isBody := t.body_fits hbody
  isWitness := t.witness_fits hwitness
  witness_length := t.witness_length
  locktime_length := toLe_length ..

theorem strippedTx_eq (houts : t.outs ≠ []) {x : List UInt8} (hx : x = t.segwit ∨ x = t.stripped) (hlen : x.length < 2 ^ 32) :
    strippedTx x = some (some t.stripped) := by
  have hbody : t.body.length < 2 ^ 32 := Nat.lt_of_le_of_lt (t.body_length_le hx) hlen
  rcases hx with rfl | rfl
  · have hwitness : ((t.witness.map (counted sized)).flatten).length < 2 ^ 32 := by
      simp only [segwit, List.length_append] at hlen
      omega
    exact (t.parts houts hbody hwitness).strippedTx_segwit hlen
  · have hmark : isSegwit t.stripped = some false := isSegwit_of_body (toLe_length ..) (t.body_fits hbody) t.hasInput _
    have hmerged : looksMerged t.stripped = some false :=
      looksMerged_of_body (toLe_length ..) (t.body_fits hbody) t.hasInput houts (toLe_length ..) hlen
    rw [strippedTx, hmark, Option.bind_eq_bind, Option.bind_some, if_neg Bool.false_ne_true, hmerged]
    rfl

end Transaction

/-! ## No panic -/

theorem extractInputs_ne_none (tx : List UInt8) : extractInputs tx ≠ none := by
  unfold extractInputs
  by_cases h : tx.length < 5
  · rw [if_pos h]
    nofun
  · rw [if_neg h, hasMarker_eq (by omega), isSegwit_eq, Option.bind_eq_bind, Option.bind_some]
    exact readInputs_reads.runFrom_ne_panic

theorem extractOutputs_ne_none (tx : List UInt8) : extractOutputs tx ≠ none := by
  unfold extractOutputs
  by_cases h : tx.length < 5
  · rw [if_pos h]
    nofun
  · rw [if_neg h, hasMarker_eq (by omega), isSegwit_eq, Option.bind_eq_bind, Option.bind_some]
    exact readOutputs_reads.runFrom_ne_panic

theorem parseTxOutput_ne_none (tx : List UInt8) (vout : U 32) : parseTxOutput tx vout ≠ none := by
  unfold parseTxOutput
  by_cases h : tx.length < 4
  · rw [if_pos h]
    nofun
  · rw [if_neg h, isSegwit_eq, Option.bind_eq_bind, Option.bind_some]
    exact ((skipVarint_reads skipInput_reads).bind fun _ => varint_reads.bind fun n => Reads.check.bind fun _ =>
      outputAt_reads vout.val n 0).runFrom_ne_panic

/-! ## The round trip -/

/-- **Parsing undoes serialisation.** A transaction with an input, serialised with or without its witness in at most the bytes
a slice can have, is read back: its inputs, its outputs, each output by its index and, where it has an output, the txid of the
form without the witness. No bytes make a reader panic. Under a txid that `compute_txid` gives, the inputs read from the bytes
are those of the hashed bytes, and of the transaction these serialise, if they do. -/
theorem transaction_parsing_inverts (dsha256 : List UInt8 → Octets 32) :
    (∀ (t : Transaction) (x : List UInt8), x = t.segwit ∨ x = t.stripped → x.length < 2 ^ 32 →
      extractInputs x = some (some (t.ins.map TxIn.outpoint)) ∧ extractOutputs x = some (some t.outs) ∧
      (∀ vout : U 32, parseTxOutput x vout = some t.outs[vout.val]?) ∧
      (t.outs ≠ [] → computeTxid dsha256 x = some (some (dsha256 t.stripped)))) ∧
    (∀ x : List UInt8, extractInputs x ≠ none ∧ extractOutputs x ≠ none ∧ (∀ vout : U 32, parseTxOutput x vout ≠ none) ∧
      computeTxid dsha256 x ≠ none) ∧
    ∀ (x : List UInt8) (txid : Octets 32), x.length < 2 ^ 32 → computeTxid dsha256 x = some (some txid) →
      ∃ s, txid = dsha256 s ∧ extractInputs x = extractInputs s ∧
        ∀ t : Transaction, t.stripped = s → extractInputs x = some (some (t.ins.map TxIn.outpoint)) := by
  refine ⟨fun t x hx hlen => ?_, fun x => ?_, fun x txid hlen htxid => ?_⟩
  · have hholds := t.holds hx hlen
    refine ⟨extractInputs_of_holds hholds hlen t.hasInput, extractOutputs_of_holds hholds hlen t.hasInput,
      parseTxOutput_of_holds hholds hlen, fun houts => ?_⟩
    rw [computeTxid, t.strippedTx_eq houts hx hlen]
    rfl
  · refine ⟨extractInputs_ne_none x, extractOutputs_ne_none x, parseTxOutput_ne_none x, ?_⟩
    rw [computeTxid, Ne, Option.map_eq_none_iff]
    exact strippedTx_ne_none
  · simp only [computeTxid, Option.map_eq_some_iff] at htxid
    obtain ⟨_, hs, s, rfl, rfl⟩ := htxid
    have hsame : extractInputs x = extractInputs s := by
      rcases strippedTx_eq_some hs with rfl | ⟨p, rfl, rfl⟩
      · rfl
      · have hshort : p.stripped.length < 2 ^ 32 := by
          rw [p.length_segwit] at hlen
          rw [p.length_stripped]
          omega
        rw [extractInputs_of_holds p.segwit_holds hlen p.hasInput, extractInputs_of_holds p.stripped_holds hshort p.hasInput]
    refine ⟨s, rfl, hsame, ?_⟩
    rintro t rfl
    have hshort : t.stripped.length < 2 ^ 32 := by
      rcases strippedTx_eq_some hs with rfl | ⟨p, rfl, hp⟩
      · exact hlen
      · rw [p.length_segwit] at hlen
        rw [hp, p.length_stripped]
        omega
    rw [hsame]
    exact extractInputs_of_holds (t.holds (.inr rfl) hshort) hshort t.hasInput

/-- A payment with a witness of two items. -/
def demoPayment : Transaction where
  version := 2
  ins := [⟨(⟨List.replicate 32 7, List.length_replicate⟩, 1), [], 0⟩]
  outs := [⟨1000, [0x51, 0x20]⟩]
  witness := [[[0x30, 0x01], [0x02]]]
  locktime := 0
  hasInput := List.cons_ne_nil _ _
  witness_length := rfl

/-- A digest of 32 bytes. -/
def demoSha (b : List UInt8) : Octets 32 := ⟨(b ++ List.replicate 32 0).take 32, by simp⟩

theorem transaction_parsing_inverts_payment :
    extractInputs demoPayment.segwit = some (some [(⟨List.replicate 32 7, List.length_replicate⟩, 1)]) ∧
    computeTxid demoSha demoPayment.segwit = computeTxid demoSha demoPayment.stripped ∧
    ∃ s, demoSha demoPayment.stripped = demoSha s ∧ extractInputs demoPayment.segwit = extractInputs s := by
  obtain ⟨hread, -, hcommit⟩ := transaction_parsing_inverts demoSha
  have hlen : demoPayment.segwit.length < 2 ^ 32 := by decide +kernel
  have hlen' : demoPayment.stripped.length < 2 ^ 32 := by decide +kernel
  have houts : demoPayment.outs ≠ [] := List.cons_ne_nil _ _
  obtain ⟨hins, -, -, htxid⟩ := hread demoPayment _ (.inl rfl) hlen
  obtain ⟨-, -, -, htxid'⟩ := hread demoPayment _ (.inr rfl) hlen'
  obtain ⟨s, hs, hsame, -⟩ := hcommit _ _ hlen (htxid houts)
  exact ⟨hins, (htxid houts).trans (htxid' houts).symm, s, hs, hsame⟩

/-- The same without an output. -/
def demoNoOutput : Transaction := { demoPayment with outs := [] }

/-- With the marker and no output there is no txid. -/
theorem transaction_without_output_refused : ¬∀ (dsha256 : List UInt8 → Octets 32) (t : Transaction) (x : List UInt8),
    x = t.segwit ∨ x = t.stripped → x.length < 2 ^ 32 → computeTxid dsha256 x = some (some (dsha256 t.stripped)) := by
  intro hall
  have hlen : demoNoOutput.segwit.length < 2 ^ 32 := by decide +kernel
  have hrefused : strippedTx demoNoOutput.segwit = some none := by decide +kernel
  have htxid := hall demoSha demoNoOutput _ (.inl rfl) hlen
  rw [computeTxid, hrefused] at htxid
  cases htxid

end Tacit.Wire
