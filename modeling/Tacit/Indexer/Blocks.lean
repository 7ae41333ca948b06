import Tacit.Indexer.Formats
/-!
# The blocks the indexer accepts

`parseBlock` accepts a buffer exactly when it is a header and the serialisations of a list of transactions, the first its only
coinbase, that stand under the header's Merkle root without two of one txid and under the coinbase's witness commitment.
-/
namespace Tacit

namespace Indexer

open Prog Cursor Reader Format

section

variable {sha256d : Bytes → Word}

theorem merkleNode_injective (hinj : Function.Injective sha256d) : Function.Injective2 (merkleNode sha256d) := by
  intro a a' b b' h
  obtain ⟨hl, hr⟩ := List.append_inj (hinj h) (a.len.trans a'.len.symm)
  exact ⟨Word.ext hl, Word.ext hr⟩

/-! ## The Merkle root -/

theorem pairUpDistinct_of_twins : ∀ {l : List Word}, twins l = false →
    PairedTree.pairUpDistinct (merkleNode sha256d) l = some (PairedTree.pairUp (merkleNode sha256d) l)
  | [], _ => rfl
  | [_], _ => rfl
  | a :: b :: l, h => by
    rw [twins, Bool.or_eq_false_iff, beq_eq_false_iff_ne] at h
    rw [PairedTree.pairUpDistinct, if_neg h.1, pairUpDistinct_of_twins h.2]
    rfl

theorem twins_of_nodup : ∀ {l : List Word}, l.Nodup → twins l = false
  | [], _ => rfl
  | [_], _ => rfl
  | a :: b :: l, h => by
    rw [List.nodup_cons, List.nodup_cons] at h
    have hne : a ≠ b := fun e => h.1 (e ▸ List.mem_cons_self)
    rw [twins, twins_of_nodup h.2.2, beq_false_of_ne hne]
    rfl

theorem merkleLoop_root (l : List Word) (m : Bool) : (merkleLoop sha256d l m).1 = PairedTree.root (merkleNode sha256d) l := by
  induction hn : l.length using Nat.strong_induction_on generalizing l m with
  | _ n ih =>
    unfold merkleLoop PairedTree.root
    by_cases hlong : 1 < l.length
    · rw [if_pos hlong, if_pos hlong]
      exact ih _ (by rw [PairedTree.pairUp_length]; omega) _ _ rfl
    · rw [if_neg hlong, if_neg hlong]

/-- No level of an unmutated tree has two equal siblings. -/
theorem merkleLoop_unmutated {l : List Word} {m : Bool} (h : (merkleLoop sha256d l m).2 = false) :
    m = false ∧ PairedTree.rootDistinct (merkleNode sha256d) l = PairedTree.root (merkleNode sha256d) l := by
  induction hn : l.length using Nat.strong_induction_on generalizing l m with
  | _ n ih =>
    unfold merkleLoop at h
    unfold PairedTree.rootDistinct PairedTree.root
    by_cases hlong : 1 < l.length
    · rw [if_pos hlong] at h
      obtain ⟨hm, hroot⟩ := ih _ (by rw [PairedTree.pairUp_length]; omega) h rfl
      rw [Bool.or_eq_false_iff] at hm
      have hup : PairedTree.pairUpDistinct (merkleNode sha256d) l = some (PairedTree.pairUp (merkleNode sha256d) l) :=
        pairUpDistinct_of_twins hm.2
      rw [if_pos hlong, if_pos hlong]
      refine ⟨hm.1, ?_⟩
      split
      · next hnone => simp [hup] at hnone
      · next u hu =>
        obtain rfl := Option.some.inj (hup.symm.trans hu)
        exact hroot
    · rw [if_neg hlong] at h
      rw [if_neg hlong, if_neg hlong]
      exact ⟨h, rfl⟩

theorem merkleLoop_of_nodup (hinj : Function.Injective sha256d) {l : List Word} {m : Bool} (h : l.Nodup) :
    (merkleLoop sha256d l m).2 = m := by
  induction hn : l.length using Nat.strong_induction_on generalizing l m with
  | _ n ih =>
    unfold merkleLoop
    by_cases hlong : 1 < l.length
    · have hnodup := PairedTree.pairUp_nodup (merkleNode_injective hinj) h
      rw [if_pos hlong, ih _ (by rw [PairedTree.pairUp_length]; omega) hnodup rfl, twins_of_nodup h, Bool.or_false]
    · rw [if_neg hlong]

theorem merkleRoot_eq_ok {l : List Word} {r : Word} {m : Bool} : merkleRoot sha256d l = .ok (r, m) ↔
    PairedTree.root (merkleNode sha256d) l = some r ∧ (merkleLoop sha256d l false).2 = m := by
  rw [← merkleLoop_root l false, merkleRoot]
  obtain ⟨root, mutated⟩ := merkleLoop sha256d l false
  cases root <;> simp

/-! ## The witness commitment -/

/-- What `checkWitnessCommitment` asks for. -/
def Witnessed (sha256d : Bytes → Word) (cb : Tx) (rest : List Tx) : Prop :=
  match commitment cb.vout with
  | none => ∀ t ∈ cb :: rest, t.segwit = false
  | some commit => ∃ w root, reserved cb = some w ∧ PairedTree.root (merkleNode sha256d) (witnessLeaves rest) = some root ∧
    (sha256d (root.bytes ++ w)).bytes = commit

theorem checkWitnessCommitment_eq_ok {cb : Tx} {rest : List Tx} :
    checkWitnessCommitment sha256d cb rest = .ok () ↔ Witnessed sha256d cb rest := by
  unfold checkWitnessCommitment Witnessed
  cases commitment cb.vout with
  | none => simp
  | some commit =>
    simp only [except_bind_eq_ok, need_eq_ok, refuse_eq_ok, not_not]
    constructor
    · rintro ⟨w, hw, ⟨root, m⟩, hroot, hcommit⟩
      exact ⟨w, root, hw, (merkleRoot_eq_ok.1 hroot).1, hcommit⟩
    · rintro ⟨w, root, hw, hroot, hcommit⟩
      exact ⟨w, hw, (root, _), merkleRoot_eq_ok.2 ⟨hroot, rfl⟩, hcommit⟩

/-! ## Blocks -/

/-- What an accepted buffer is. -/
structure Accepted (sha256d : Bytes → Word) (raw : Bytes) (expectHash : Option Word) (b : Block) : Prop where
  raw_eq : b.raw = raw.take 80
  header : parseHeader sha256d b.raw = .ok b.header
  expected : ∀ h ∈ expectHash, b.header.hash = h
  parsed : Counted (TxFormat sha256d) b.txs (raw.drop 80)
  coinbase : ∃ cb rest, b.txs = cb :: rest ∧ isCoinbase cb = true ∧ (∀ t ∈ rest, isCoinbase t = false) ∧
    Witnessed sha256d cb rest
  nodup : (b.txs.map Tx.txid).Nodup
  root : ∃ r, merkleRoot sha256d (b.txs.map Tx.txid) = .ok (r, false) ∧ r.bytes = (b.raw.drop 36).take 32

theorem Varint.ne_nil {n : Nat} {e : Bytes} (h : Varint n e) : e ≠ [] := by
  cases h <;> exact List.cons_ne_nil _ _

/-- The transactions of a buffer, read to its end. -/
theorem transactions_eq_ok {raw : Bytes} {txs : List Tx} (hlong : 80 ≤ raw.length) :
    (∃ c, transactions sha256d ⟨raw, 80⟩ = .ok (txs, c) ∧ c.pos = raw.length) ↔ Counted (TxFormat sha256d) txs (raw.drop 80) := by
  have hreads : Reads (raw.length + 1) (quiet (transactions sha256d)) (Counted (TxFormat sha256d)) := transactions_reads
  constructor
  · rintro ⟨c, hc, hend⟩
    have hsound := hreads.sound ⟨raw, 80⟩
    have hok := wp_of_ok hsound (quiet_eq_ok.2 hc)
    obtain ⟨e, tail, he, hrest, rfl⟩ := hok.2.2 hend.le
    have hnil : tail = [] := by
      have hlen := congrArg List.length hrest
      simp only [rest, List.length_drop, List.length_append] at hlen
      simp only [skip_pos] at hend
      exact List.length_eq_zero_iff.1 (by omega)
    rw [hnil, List.append_nil] at hrest
    have hdrop : raw.drop 80 = e := hrest
    rwa [hdrop]
  · intro h
    have hrest : (⟨raw, 80⟩ : Cursor Nat).rest = raw.drop 80 ++ [] := (List.append_nil _).symm
    have hread := hreads.reads (Nat.lt_succ_self _) hlong h hrest
    refine ⟨_, quiet_eq_ok.1 hread, ?_⟩
    rw [skip_pos, List.length_drop]
    exact Nat.add_sub_cancel' hlong

/-- **Exactly these are accepted.** -/
theorem parseBlock_eq_ok {raw : Bytes} {expectHash : Option Word} {b : Block} :
    parseBlock sha256d raw expectHash = .ok b ↔ Accepted sha256d raw expectHash b := by
  simp only [parseBlock, except_bind_eq_ok, refuse_eq_ok, need_eq_ok, except_pure_eq_ok]
  constructor
  · rintro ⟨-, hlong, header, hheader, -, hexpected, ⟨txs, c⟩, hread, -, hend, cb, hcb, -, hcoinbase, -, hrest, -, hnodup, ⟨r, m⟩,
      hroot, -, hmutated, -, hmerkle, _, hwitness, rfl⟩
    obtain rfl : m = false := by simpa using hmutated
    obtain ⟨rest, rfl⟩ : ∃ rest, txs = cb :: rest := ⟨_, List.eq_cons_of_mem_head? hcb⟩
    exact {
      raw_eq := rfl
      header := hheader
      expected := by simpa using hexpected
      parsed := (transactions_eq_ok (by omega)).1 ⟨c, hread, not_not.1 hend⟩
      coinbase := ⟨cb, rest, rfl, by simpa using hcoinbase, by simpa using hrest, checkWitnessCommitment_eq_ok.1 hwitness⟩
      nodup := not_not.1 hnodup
      root := ⟨r, hroot, not_not.1 hmerkle⟩ }
  · rintro ⟨hraw, hheader, hexpected, hparsed, ⟨cb, rest, htxs, hcoinbase, hrest, hwitness⟩, hnodup, r, hroot, hmerkle⟩
    have hlong : 80 < raw.length := by
      obtain ⟨size, e, hsize, -, hdrop⟩ := hparsed
      have hpos := List.length_pos_iff.2 hsize.ne_nil
      have hlen := congrArg List.length hdrop
      rw [List.length_drop, List.length_append] at hlen
      omega
    obtain ⟨c, hread, hend⟩ := (transactions_eq_ok hlong.le).2 hparsed
    obtain ⟨header, _, txs⟩ := b
    cases hraw
    cases htxs
    exact ⟨(), by omega, header, hheader, (), by simpa using hexpected, (cb :: rest, c), hread, (), not_not.2 hend, cb, rfl, (),
      by simp [hcoinbase], (), by simpa using hrest, (), not_not.2 hnodup, (r, false), hroot, (), by simp, (), not_not.2 hmerkle, (),
      checkWitnessCommitment_eq_ok.2 hwitness, rfl⟩

end

end Indexer

end Tacit
