import Tacit.Indexer.Chain
/-!
# What the indexer's readers read

A count has up to four encodings and a transaction two forms, so a transaction is related to its serialisations. What a reader
accepts is one of them, and every one of them is read back.
-/
namespace Tacit

namespace Indexer

open Prog Cursor Reader Format

/-- A count: the shorter forms may hold what a shorter one would. -/
inductive Varint : Format Nat Nat
  | one {n : Nat} : n < 0xfd → Varint n [n]
  | two {l : Bytes} : l.length = 2 → Varint (leNat l) (0xfd :: l)
  | four {l : Bytes} : l.length = 4 → Varint (leNat l) (0xfe :: l)
  | eight {f : Nat} {l : Bytes} : 0xfe < f → l.length = 8 → leNat l < unsafeInteger → Varint (leNat l) (f :: l)

/-- A length, and as many bytes. -/
def Sized : Format Nat Bytes := fun l e => ∃ size, Varint l.length size ∧ e = size ++ l

/-- A count, and as many elements. -/
def Counted {α : Type} (E : Format Nat α) : Format Nat (List α) := fun l e =>
  ∃ size e', Varint l.length size ∧ Many E l e' ∧ e = size ++ e'

inductive Input : Format Nat TxIn
  | mk {txid vout size skipped : Bytes} {n : Nat} : txid.length = 32 → vout.length = 4 → Varint n size →
    skipped.length = n + 4 → Input ⟨txid, leNat vout, []⟩ (txid ++ (vout ++ (size ++ skipped)))

inductive Output : Format Nat TxOut
  | mk {value script e : Bytes} : value.length = 8 → Sized script e → Output ⟨leNat value, script⟩ (value ++ e)

def Body : Format Nat (List TxIn × List TxOut) := fun r e =>
  ∃ e₁ e₂, Counted Input r.1 e₁ ∧ Counted Output r.2 e₂ ∧ e = e₁ ++ e₂

def marker : Bytes := [0x00, 0x01]

/-- A transaction with its witnesses after the marker, or without any. -/
inductive Serialised : Format Nat Fields
  | plain {version body locktime : Bytes} {r : List TxIn × List TxOut} : version.length = 4 → locktime.length = 4 →
    Body r body → (body ++ locktime).take 2 ≠ marker →
    Serialised ⟨version, false, r.1, r.2, body, locktime⟩ (version ++ (body ++ locktime))
  | marked {version body locktime e : Bytes} {r : List TxIn × List TxOut} {witnesses : List (List Bytes)} :
    version.length = 4 → locktime.length = 4 → Body r body → witnesses.length = r.1.length →
    Many (Counted Sized) witnesses e → (∃ i ∈ withWitness r.1 witnesses, i.witness ≠ []) →
    Serialised ⟨version, true, withWitness r.1 witnesses, r.2, body, locktime⟩
      (version ++ (marker ++ (body ++ (e ++ locktime))))

/-! ## Each reader reads its format -/

variable {N : Nat}

theorem readVarint_eq_ok {c c' : Cursor Nat} {n : Nat} : readVarint c = .ok (n, c') ↔
    ∃ l, varint c.buf c.pos = .ok (n, l) ∧ c' = c.skip l := by
  unfold readVarint
  cases varint c.buf c.pos with
  | error e => simp [Bind.bind, Except.bind]
  | ok r =>
    obtain ⟨m, l⟩ := r
    simp only [Bind.bind, Except.bind, Pure.pure, Except.pure, Except.ok.injEq, Prod.mk.injEq]
    constructor
    · rintro ⟨rfl, rfl⟩
      exact ⟨l, ⟨rfl, rfl⟩, rfl⟩
    · rintro ⟨_, ⟨rfl, rfl⟩, rfl⟩
      exact ⟨rfl, rfl⟩

/-- A count is read off its encoding. -/
theorem Varint.read {n p : Nat} {d e tail : Bytes} (h : Varint n e) (hd : d.drop p = e ++ tail) :
    varint d p = .ok (n, e.length) := by
  unfold varint
  rw [hd]
  cases h with
  | one hn =>
    rw [List.cons_append, List.nil_append]
    simp only [if_pos hn, List.length_singleton]
  | two hl => simp [← hl]
  | four hl => simp [← hl]
  | @eight f l hf hl hn =>
    have h₁ : ¬f < 0xfd := by omega
    have h₂ : f ≠ 0xfd := by omega
    have h₃ : f ≠ 0xfe := by omega
    have htake : (l ++ tail).take 8 = l := by rw [← hl, List.take_left]
    have hlong : 8 ≤ (l ++ tail).length := by
      rw [List.length_append]
      omega
    simp only [List.cons_append, if_neg h₁, if_neg h₂, if_neg h₃, htake, hn, hlong, and_self, if_true, List.length_cons, hl]

/-- A count that was read, if its bytes are there. -/
theorem varint_sound {n k p : Nat} {d : Bytes} (h : varint d p = .ok (n, k)) (hend : k ≤ (d.drop p).length) :
    Varint n ((d.drop p).take k) := by
  unfold varint at h
  match hd : d.drop p with
  | [] =>
    rw [hd] at h
    cases h
  | f :: rest =>
    rw [hd] at h hend
    rw [List.length_cons] at hend
    dsimp only at h
    split_ifs at h with h₁ h₂ h₃ h₄
    · cases h
      exact .one h₁
    · cases h
      subst h₂
      exact .two (List.length_take_of_le (by omega))
    · cases h
      subst h₃
      exact .four (List.length_take_of_le (by omega))
    · cases h
      exact .eight (by omega) (List.length_take_of_le h₄.1) h₄.2

theorem readVarint_reads : Reads N (quiet readVarint) Varint where
  reads := by
    intro c n e tail _ _ hn hrest
    rw [quiet_eq_ok, readVarint_eq_ok]
    exact ⟨_, hn.read hrest, rfl⟩
  sound := by
    intro c
    unfold wp
    cases hc : quiet readVarint c with
    | panic =>
      unfold quiet at hc
      split at hc <;> cases hc
    | err e c' => trivial
    | ok n c' =>
      obtain ⟨k, hk, rfl⟩ := readVarint_eq_ok.1 (quiet_eq_ok.1 hc)
      refine ⟨rfl, Nat.le_add_right .., fun hend => ?_⟩
      have hlong : k ≤ c.rest.length := by
        rw [rest, List.length_drop]
        simp only [skip_pos] at hend
        omega
      refine ⟨c.rest.take k, c.rest.drop k, varint_sound hk hlong, (List.take_append_drop k c.rest).symm, ?_⟩
      rw [List.length_take_of_le hlong]

theorem sized_reads : Reads N (quiet sized) Sized := by
  refine (Reads.seq readVarint_reads fun n => Reads.requiring (Reads.viewing n) ?_).congr fun l e => ?_
  · rintro l e ⟨-, rfl⟩
    exact le_rfl
  · constructor
    · rintro ⟨size, hsize, rfl⟩
      exact ⟨l.length, size, l, hsize, ⟨rfl, rfl⟩, rfl⟩
    · rintro ⟨n, size, _, hsize, ⟨rfl, rfl⟩, rfl⟩
      exact ⟨size, hsize, rfl⟩

theorem counted_reads {α : Type} {m : Parser α} {E : Format Nat α} (hm : Reads N (quiet m) E) :
    Reads N (quiet (counted m)) (Counted E) := by
  refine (Reads.seq readVarint_reads fun n => hm.times n).congr fun l e => ?_
  constructor
  · rintro ⟨size, e', hsize, he, rfl⟩
    exact ⟨l.length, size, e', hsize, ⟨rfl, he⟩, rfl⟩
  · rintro ⟨n, size, e', hsize, ⟨rfl, he⟩, rfl⟩
    exact ⟨size, e', hsize, he, rfl⟩

theorem input_reads : Reads N (quiet input) Input := by
  refine (Reads.requiring (Reads.seq (Reads.viewing 32) fun txid => Reads.seq (Reads.viewing 4) fun vout =>
    Reads.seq readVarint_reads fun n => Reads.requiring (Reads.seq (Reads.passing (n + 4)) fun _ => Reads.done) ?_) ?_).congr
      fun i e => ?_
  · rintro i e ⟨_, e₁, _, h, ⟨-, rfl⟩, rfl⟩
    rw [List.append_nil, h]
  · rintro i e ⟨txid, _, _, ⟨rfl, htxid⟩, ⟨vout, _, _, ⟨rfl, hvout⟩, -, rfl⟩, rfl⟩
    rw [List.length_append, List.length_append]
    omega
  · constructor
    · rintro ⟨htxid, hvout, hsize, hskipped⟩
      exact ⟨_, _, _, ⟨rfl, htxid⟩, ⟨_, _, _, ⟨rfl, hvout⟩, ⟨_, _, _, hsize, ⟨(), _, [], hskipped, ⟨rfl, rfl⟩,
        (List.append_nil _).symm⟩, rfl⟩, rfl⟩, rfl⟩
    · rintro ⟨txid, _, _, ⟨rfl, htxid⟩, ⟨vout, _, _, ⟨rfl, hvout⟩, ⟨n, size, _, hsize, ⟨_, skipped, _, hskipped, ⟨rfl, rfl⟩,
        rfl⟩, rfl⟩, rfl⟩, rfl⟩
      rw [List.append_nil]
      exact .mk htxid hvout hsize hskipped

theorem output_reads : Reads N (quiet output) Output := by
  refine (Reads.requiring (Reads.seq (Reads.viewing 8) fun value => sized_reads.mapped) ?_).congr fun o e => ?_
  · rintro o e ⟨value, _, _, ⟨rfl, hvalue⟩, -, rfl⟩
    rw [List.length_append]
    omega
  · constructor
    · rintro ⟨hvalue, hscript⟩
      exact ⟨_, _, _, ⟨rfl, hvalue⟩, ⟨_, rfl, hscript⟩, rfl⟩
    · rintro ⟨value, _, e, ⟨rfl, hvalue⟩, ⟨script, rfl, hscript⟩, rfl⟩
      exact .mk hvalue hscript

theorem inputsOutputs_reads : Reads N (quiet inputsOutputs) Body := by
  refine (Reads.seq (counted_reads input_reads) fun vin => (counted_reads output_reads).mapped).congr fun r e => ?_
  constructor
  · rintro ⟨e₁, e₂, hvin, hvout, rfl⟩
    exact ⟨r.1, e₁, e₂, hvin, ⟨r.2, rfl, hvout⟩, rfl⟩
  · rintro ⟨vin, e₁, e₂, hvin, ⟨vout, rfl, hvout⟩, rfl⟩
    exact ⟨e₁, e₂, hvin, hvout, rfl⟩

/-- The end of a transaction. -/
theorem locktime_reads {f : Bytes → Fields} : Reads N (quiet (do
    need 4
    let locktime ← Reader.view 4
    return f locktime : Parser Fields)) fun r e => ∃ l, f l = r ∧ l = e ∧ e.length = 4 :=
  Reads.requiring ((Reads.viewing 4).mapped) fun _ _ ⟨_, _, _, h⟩ => h.ge

/-- An input read has no witness yet. -/
theorem Body.witness {r : List TxIn × List TxOut} {e : Bytes} (h : Body r e) : ∀ i ∈ r.1, i.witness = [] := by
  obtain ⟨_, _, ⟨_, e', _, hmany, -⟩, -⟩ := h
  refine hmany.all fun i e hi => ?_
  cases hi
  rfl

theorem withWitness_map : ∀ vin : List TxIn, withWitness vin (vin.map TxIn.witness) = vin
  | [] => rfl
  | i :: vin => congrArg (i :: ·) (withWitness_map vin)

/-- From behind the version on, without the marker. -/
theorem fieldsFrom_plain {version : Bytes} : Reads N (quiet (fieldsFrom version false)) fun f e => ∃ r body locktime,
    Body r body ∧ locktime.length = 4 ∧ f = ⟨version, false, r.1, r.2, body, locktime⟩ ∧ e = body ++ locktime := by
  simp only [fieldsFrom, Bool.false_eq_true, if_false, pure_bind, withWitness_map]
  refine (Reads.seq inputsOutputs_reads.spanning fun r => Reads.refusing locktime_reads).congr fun f e => ?_
  constructor
  · rintro ⟨r, body, locktime, hbody, hlocktime, rfl, rfl⟩
    exact ⟨(r, body), body, locktime, ⟨hbody, rfl⟩, ⟨fun h => Bool.false_ne_true h.1, locktime, rfl, rfl, hlocktime⟩, rfl⟩
  · rintro ⟨⟨r, body⟩, _, locktime, ⟨hbody, rfl⟩, ⟨-, _, rfl, rfl, hlocktime⟩, rfl⟩
    exact ⟨r, body, _, hbody, hlocktime, rfl, rfl⟩

/-- From behind the marker on. -/
theorem fieldsFrom_marked {version : Bytes} : Reads N (quiet (fieldsFrom version true)) fun f e =>
    ∃ r body witnesses e' locktime, Body r body ∧ witnesses.length = r.1.length ∧ Many (Counted Sized) witnesses e' ∧
      (∃ i ∈ withWitness r.1 witnesses, i.witness ≠ []) ∧ locktime.length = 4 ∧
      f = ⟨version, true, withWitness r.1 witnesses, r.2, body, locktime⟩ ∧ e = body ++ (e' ++ locktime) := by
  simp only [fieldsFrom, if_true]
  refine (Reads.seq inputsOutputs_reads.spanning fun r => Reads.seq ((counted_reads sized_reads).times _) fun witnesses =>
    Reads.refusing locktime_reads).congr fun f e => ?_
  constructor
  · rintro ⟨r, body, witnesses, e', locktime, hbody, hlen, hwitnesses, ⟨i, hi, hne⟩, hlocktime, rfl, rfl⟩
    exact ⟨(r, body), body, _, ⟨hbody, rfl⟩, ⟨witnesses, e', locktime, ⟨hlen, hwitnesses⟩,
      ⟨fun h => hne (h.2 i hi), locktime, rfl, rfl, hlocktime⟩, rfl⟩, rfl⟩
  · rintro ⟨⟨r, body⟩, _, _, ⟨hbody, rfl⟩, ⟨witnesses, e', locktime, ⟨hlen, hwitnesses⟩, ⟨hsome, _, rfl, rfl, hlocktime⟩, rfl⟩,
      rfl⟩
    simp only [true_and, not_forall, exists_prop] at hsome
    exact ⟨r, body, witnesses, e', _, hbody, hlen, hwitnesses, hsome, hlocktime, rfl, rfl⟩

theorem fields_reads : Reads N (quiet fields) fun r e => Serialised r.1 e ∧ r.2 = e := by
  refine (Reads.spanning (Reads.requiring (Reads.seq (Reads.viewing 4) fun version =>
    Reads.branching fieldsFrom_marked fieldsFrom_plain ?_) ?_)).congr fun r e => and_congr_left fun _ => ?_
  · rintro f e ⟨r, body, locktime, -, hlocktime, -, rfl⟩
    rw [List.length_append]
    exact Nat.le_add_left_of_le (by rw [hlocktime]; decide)
  · rintro f e ⟨_, _, _, ⟨rfl, h⟩, -, rfl⟩
    rw [List.length_append]
    omega
  · obtain ⟨f, b⟩ := r
    dsimp only
    constructor
    · rintro (⟨hversion, hlocktime, hbody, hmarker⟩ | ⟨hversion, hlocktime, hbody, hlen, hwitnesses, hsome⟩)
      · exact ⟨_, _, _, ⟨rfl, hversion⟩, .inr ⟨⟨_, _, _, hbody, hlocktime, rfl, rfl⟩, hmarker⟩, rfl⟩
      · exact ⟨_, _, _, ⟨rfl, hversion⟩, .inl ⟨_, ⟨_, _, _, _, _, hbody, hlen, hwitnesses, hsome, hlocktime, rfl, rfl⟩, rfl⟩, rfl⟩
    · rintro ⟨version, _, _, ⟨rfl, hversion⟩, ⟨_, ⟨s, body, witnesses, e', locktime, hbody, hlen, hwitnesses, hsome, hlocktime, rfl,
        rfl⟩, rfl⟩ | ⟨⟨s, body, locktime, hbody, hlocktime, rfl, rfl⟩, hmarker⟩, rfl⟩
      · exact .marked hversion hlocktime hbody hlen hwitnesses hsome
      · exact .plain hversion hlocktime hbody hmarker

/-- A transaction that is read, and one of its serialisations. -/
def TxFormat (sha256d : Bytes → Word) : Format Nat Tx := fun t e => ∃ f, Serialised f e ∧ t = f.tx sha256d e

variable {sha256d : Bytes → Word}

theorem parseTx_reads : Reads N (quiet (parseTx sha256d)) (TxFormat sha256d) := by
  refine fields_reads.mapped.congr fun t e => ?_
  constructor
  · rintro ⟨f, hf, rfl⟩
    exact ⟨(f, e), rfl, hf, rfl⟩
  · rintro ⟨⟨f, _⟩, rfl, hf, rfl⟩
    exact ⟨f, hf, rfl⟩

theorem transactions_reads : Reads N (quiet (transactions sha256d)) (Counted (TxFormat sha256d)) := counted_reads parseTx_reads

/-! ## A transaction's parts -/

/-- What is hashed to the txid: the serialisation without the marker and the witnesses. -/
theorem Serialised.stripped_eq {f : Fields} {e : Bytes} (h : Serialised f e) :
    f.stripped e = f.version ++ (f.body ++ f.locktime) := by
  cases h with
  | plain => rfl
  | marked => exact List.append_assoc ..

theorem withWitness_bare : ∀ (vin : List TxIn) (witnesses : List (List Bytes)), witnesses.length = vin.length →
    (∀ i ∈ vin, i.witness = []) → (withWitness vin witnesses).map (fun i => { i with witness := [] }) = vin
  | [], witnesses, _, _ => by
    cases witnesses <;> rfl
  | i :: vin, [], h, _ => by cases h
  | i :: vin, w :: witnesses, h, hnone => by
    have hi : { i with witness := [] } = i := by
      rw [← hnone i List.mem_cons_self]
    have ih := withWitness_bare vin witnesses (Nat.succ.inj h) fun j hj => hnone j (List.mem_cons_of_mem _ hj)
    exact congrArg₂ (· :: ·) hi ih

/-- The inputs but for their witnesses, and the outputs. -/
def Fields.bare (f : Fields) : List TxIn × List TxOut := (f.vin.map fun i => { i with witness := [] }, f.vout)

theorem Serialised.body {f : Fields} {e : Bytes} (h : Serialised f e) : Body f.bare f.body ∧ f.version.length = 4 ∧
    f.locktime.length = 4 := by
  cases h with
  | @plain version body locktime r hversion hlocktime hbody _ =>
    have hbare : r.1.map (fun i => { i with witness := [] }) = r.1 := by
      have h := withWitness_bare r.1 (r.1.map TxIn.witness) (by rw [List.length_map]) hbody.witness
      rwa [withWitness_map] at h
    refine ⟨?_, hversion, hlocktime⟩
    rw [Fields.bare, hbare]
    exact hbody
  | @marked version body locktime e' r witnesses hversion hlocktime hbody hlen _ _ =>
    refine ⟨?_, hversion, hlocktime⟩
    rw [Fields.bare, withWitness_bare r.1 witnesses hlen hbody.witness]
    exact hbody

end Indexer

end Tacit
