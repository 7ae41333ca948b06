import Tacit.Indexer.Blocks
/-!
# What an untrusted source can return

Two buffers accepted under one hash have the same header, so their lists of txids stand under one root, and neither is a level of
the other's tree: the coinbase of the shorter would be two digests, the first of which would hold the null outpoint's zeros. A
txid pins a transaction but for its witnesses, and the coinbase's commitment pins those: its own through the reserved value, the
others' through the root of their hashes. What is left open is how the coinbase's witness writes its lengths.
-/
namespace Tacit

namespace Indexer

open Prog Cursor Reader Format

/-- What `parseBlock` returns of a transaction, but for the hash of its whole serialisation. -/
def Tx.contents (t : Tx) : Word × List TxIn × List TxOut × Bool := (t.txid, t.vin, t.vout, t.segwit)

/-- From byte 4 on, a count of one input, in any form that `varint` takes, and then zeros. -/
def OpensNull (w : Word) : Prop := ∃ e z, Varint 1 e ∧ w.bytes.drop 4 = e ++ z ∧ ∀ x ∈ z, x = 0

section

variable {sha256d : Bytes → Word}

/-! ## What a txid and a wtxid pin -/

/-- Cut out of some buffer. -/
def Parsed (sha256d : Bytes → Word) (t : Tx) : Prop := ∃ e, TxFormat sha256d t e

/-- The inputs but for their witnesses, and the outputs. -/
def Tx.bare (t : Tx) : List TxIn × List TxOut := (t.vin.map fun i => { i with witness := [] }, t.vout)

/-- The hash that the witness commitment covers. -/
def Tx.witnessHash (t : Tx) : Word := t.wtxid.getD t.txid

/-- **A txid pins all but the witnesses.** -/
theorem Parsed.bare_eq (hinj : Function.Injective sha256d) {t t' : Tx} (h : Parsed sha256d t) (h' : Parsed sha256d t')
    (heq : t.txid = t'.txid) : t.bare = t'.bare := by
  obtain ⟨e, f, hf, rfl⟩ := h
  obtain ⟨e', f', hf', rfl⟩ := h'
  have hstripped : f.version ++ (f.body ++ f.locktime) = f'.version ++ (f'.body ++ f'.locktime) := by
    rw [← hf.stripped_eq, ← hf'.stripped_eq]
    exact hinj heq
  obtain ⟨hbody, hversion, -⟩ := hf.body
  obtain ⟨hbody', hversion', -⟩ := hf'.body
  have hbodies := (List.append_inj hstripped (hversion.trans hversion'.symm)).2
  exact (inputsOutputs_reads.det (Nat.lt_succ_self _) hbody hbody' hbodies).1

/-- What is hashed to `witnessHash` is the whole serialisation. -/
theorem Serialised.witnessHash {f : Fields} {e : Bytes} (h : Serialised f e) : (f.tx sha256d e).witnessHash = sha256d e := by
  cases h <;> rfl

/-- **A wtxid pins the whole transaction.** -/
theorem Parsed.eq (hinj : Function.Injective sha256d) {t t' : Tx} (h : Parsed sha256d t) (h' : Parsed sha256d t')
    (heq : t.witnessHash = t'.witnessHash) : t = t' := by
  obtain ⟨e, f, hf, rfl⟩ := h
  obtain ⟨e', f', hf', rfl⟩ := h'
  rw [hf.witnessHash, hf'.witnessHash] at heq
  obtain rfl := hinj heq
  have hread : Serialised (f, e).1 e ∧ (f, e).2 = e := ⟨hf, rfl⟩
  have hread' : Serialised (f', e).1 e ∧ (f', e).2 = e := ⟨hf', rfl⟩
  have hend : e ++ [] = e ++ [] := rfl
  obtain ⟨hfields, -⟩ := fields_reads.det (Nat.lt_succ_self _) hread hread' hend
  rw [(Prod.mk.inj hfields).1]

theorem Parsed.eq_of_map (hinj : Function.Injective sha256d) : ∀ {l l' : List Tx}, (∀ t ∈ l, Parsed sha256d t) →
    (∀ t ∈ l', Parsed sha256d t) → l.map Tx.witnessHash = l'.map Tx.witnessHash → l = l'
  | [], [], _, _, _ => rfl
  | t :: l, t' :: l', hl, hl', heq => by
    obtain ⟨hfirst, hrest⟩ := List.cons.inj heq
    rw [List.forall_mem_cons] at hl hl'
    rw [hl.1.eq hinj hl'.1 hfirst, Parsed.eq_of_map hinj hl.2 hl'.2 hrest]

/-- Without the marker there are no witnesses, and the txid is the hash of all. -/
theorem Parsed.plain {t : Tx} (h : Parsed sha256d t) (hplain : t.segwit = false) :
    (∀ i ∈ t.vin, i.witness = []) ∧ t.witnessHash = t.txid := by
  obtain ⟨e, f, hf, rfl⟩ := h
  cases hf with
  | plain _ _ hbody _ => exact ⟨hbody.witness, rfl⟩
  | marked => cases hplain

/-! ## The coinbase -/

theorem Varint.length_le {n : Nat} {e : Bytes} (h : Varint n e) : e.length ≤ 9 := by
  cases h <;> simp [*]

/-- An input starts with the outpoint's txid. -/
theorem Input.opens {i : TxIn} {e : Bytes} (h : Input i e) : ∃ more, e = i.txid ++ more := by
  cases h
  exact ⟨_, rfl⟩

theorem coinbase_bare {t : Tx} (h : isCoinbase t = true) : t.bare.1 = [⟨List.replicate 32 0, 0xffffffff, []⟩] := by
  unfold isCoinbase at h
  unfold Tx.bare
  split at h
  · next i hvin =>
    rw [Bool.and_eq_true, beq_iff_eq, beq_iff_eq] at h
    rw [hvin, List.map_singleton, h.1, h.2]
  · cases h

/-- The null outpoint stands in the coinbase's txid preimage behind the count. -/
theorem Parsed.coinbase_opens (hinj : Function.Injective sha256d) {t : Tx} (h : Parsed sha256d t) (hcoinbase : isCoinbase t = true)
    {a b : Word} (htxid : t.txid = merkleNode sha256d a b) : OpensNull a := by
  obtain ⟨e, f, hf, rfl⟩ := h
  have hpre : f.version ++ (f.body ++ f.locktime) = a.bytes ++ b.bytes := by
    rw [← hf.stripped_eq]
    exact hinj htxid
  obtain ⟨⟨e₁, e₂, ⟨size, e', hsize, hinput, rfl⟩, -, hbody⟩, hversion, -⟩ := hf.body
  have hbare : f.bare.1 = [⟨List.replicate 32 0, 0xffffffff, []⟩] := coinbase_bare hcoinbase
  rw [hbare] at hsize hinput
  obtain ⟨more, hmore⟩ := (Many.one.1 hinput).opens
  have hmore : e' = List.replicate 32 0 ++ more := hmore
  have hnine := hsize.length_le
  have hdrop : a.bytes.drop 4 = size ++ List.replicate (28 - size.length) 0 := by
    have hleft : a.bytes = (a.bytes ++ b.bytes).take 32 := by rw [List.take_append_of_le_length a.len.ge, ← a.len, List.take_length]
    have hzeros : ∀ tail : Bytes, (List.replicate 32 0 ++ tail).take (28 - size.length) =
        List.replicate (28 - size.length) 0 := by
      intro tail
      rw [List.take_append_of_le_length (by rw [List.length_replicate]; omega), List.take_replicate]
      congr 1
      omega
    rw [hleft, ← hpre, hbody, List.drop_take, ← hversion, List.drop_left, hversion, hmore]
    simp only [List.append_assoc]
    rw [List.take_append, List.take_of_length_le (by omega), hzeros]
  exact ⟨size, _, hsize, hdrop, fun x hx => List.eq_of_mem_replicate hx⟩

/-! ## Two accepted buffers -/

theorem Accepted.parsed_tx {raw : Bytes} {h : Option Word} {b : Block} (hb : Accepted sha256d raw h b) :
    ∀ t ∈ b.txs, Parsed sha256d t := by
  obtain ⟨_, e, _, hmany, -⟩ := hb.parsed
  exact hmany.all fun _ e ht => ⟨e, ht⟩

section

variable {raw raw' : Bytes} {h h' : Option Word} {b b' : Block}

theorem Accepted.txid_digest (hb : Accepted sha256d raw h b) : ∀ x ∈ b.txs.map Tx.txid, ∃ c, x = sha256d c := by
  intro x hx
  obtain ⟨t, ht, rfl⟩ := List.mem_map.1 hx
  obtain ⟨e, f, -, rfl⟩ := hb.parsed_tx t ht
  exact ⟨_, rfl⟩

theorem Accepted.txids_ne_nil (hb : Accepted sha256d raw h b) : b.txs.map Tx.txid ≠ [] := by
  obtain ⟨cb, rest, htxs, -⟩ := hb.coinbase
  rw [htxs]
  exact List.cons_ne_nil _ _

/-- No coinbase is a node over a digest and another. -/
theorem Accepted.head_ne (hinj : Function.Injective sha256d) (hnull : ∀ c, ¬OpensNull (sha256d c))
    (hb : Accepted sha256d raw h b) {x y : Word} (hx : ∃ c, x = sha256d c) :
    (b.txs.map Tx.txid).head? ≠ some (merkleNode sha256d x y) := by
  intro hnode
  obtain ⟨c, rfl⟩ := hx
  obtain ⟨cb, rest, htxs, hcoinbase, -, -⟩ := hb.coinbase
  rw [htxs, List.map_cons, List.head?_cons, Option.some.injEq] at hnode
  exact hnull c ((hb.parsed_tx cb (htxs ▸ List.mem_cons_self)).coinbase_opens hinj hcoinbase hnode)

theorem Accepted.rootDistinct (hb : Accepted sha256d raw h b) : ∃ r,
    PairedTree.rootDistinct (merkleNode sha256d) (b.txs.map Tx.txid) = some r ∧ r.bytes = (b.raw.drop 36).take 32 := by
  obtain ⟨r, hr, hbytes⟩ := hb.root
  obtain ⟨hroot, hmutated⟩ := merkleRoot_eq_ok.1 hr
  exact ⟨r, (merkleLoop_unmutated hmutated).2.trans hroot, hbytes⟩

/-- **No list of txids is a level of another's tree**. -/
theorem Accepted.txids_eq (hinj : Function.Injective sha256d) (hnull : ∀ c, ¬OpensNull (sha256d c))
    (hb : Accepted sha256d raw h b) (hb' : Accepted sha256d raw' h' b') (hraw : b.raw = b'.raw) :
    b.txs.map Tx.txid = b'.txs.map Tx.txid := by
  obtain ⟨r, hr, hbytes⟩ := hb.rootDistinct
  obtain ⟨r', hr', hbytes'⟩ := hb'.rootDistinct
  obtain rfl : r = r' := Word.ext (hbytes.trans (hraw ▸ hbytes'.symm))
  exact PairedTree.eq_of_heads (merkleNode_injective hinj) (fun _ _ => ⟨_, rfl⟩) hb.txid_digest hb'.txid_digest
    (fun _ _ => hb.head_ne hinj hnull) (fun _ _ => hb'.head_ne hinj hnull) hb.txids_ne_nil hb'.txids_ne_nil hr hr'

end

theorem reserved_eq_some {t : Tx} {w : Bytes} (h : reserved t = some w) :
    w.length = 32 ∧ ∃ i, t.vin = [i] ∧ i.witness = [w] := by
  unfold reserved at h
  split at h
  · next i hvin =>
    split at h
    · next v hv =>
      split at h
      · next hlen =>
        cases h
        exact ⟨hlen, i, hvin, hv⟩
      · cases h
    · cases h
  · cases h

/-- Two coinbases of one txid whose reserved values are the same. -/
theorem Parsed.contents_eq (hinj : Function.Injective sha256d) {t t' : Tx} {w : Bytes} (h : Parsed sha256d t)
    (h' : Parsed sha256d t') (htxid : t.txid = t'.txid) (hw : reserved t = some w) (hw' : reserved t' = some w) :
    t.contents = t'.contents := by
  have hbare := h.bare_eq hinj h' htxid
  obtain ⟨-, i, hi, hiw⟩ := reserved_eq_some hw
  obtain ⟨-, i', hi', hiw'⟩ := reserved_eq_some hw'
  have hsegwit : ∀ {t : Tx} {i : TxIn}, Parsed sha256d t → t.vin = [i] → i.witness = [w] → t.segwit = true := by
    intro t i ht hi hiw
    by_contra hplain
    have hnone := (ht.plain (by simpa using hplain)).1 i (hi ▸ List.mem_singleton_self i)
    rw [hiw] at hnone
    cases hnone
  have hvin : t.vin = t'.vin := by
    have hone := (Prod.mk.inj hbare).1
    rw [hi, hi', List.map_singleton, List.map_singleton, List.singleton_inj, TxIn.mk.injEq] at hone
    rw [hi, hi', List.singleton_inj]
    obtain ⟨txid, vout, witness⟩ := i
    obtain ⟨txid', vout', witness'⟩ := i'
    obtain ⟨rfl, rfl, -⟩ := hone
    cases hiw
    cases hiw'
    rfl
  rw [Tx.contents, Tx.contents, htxid, hvin, (Prod.mk.inj hbare).2, hsegwit h hi hiw, hsegwit h' hi' hiw']

/-- Two lists under one root and with witnesses that their coinbases allow. -/
theorem Witnessed.eq (hinj : Function.Injective sha256d) {cb cb' : Tx} {rest rest' : List Tx}
    (hparsed : ∀ t ∈ cb :: rest, Parsed sha256d t) (hparsed' : ∀ t ∈ cb' :: rest', Parsed sha256d t)
    (htxids : (cb :: rest).map Tx.txid = (cb' :: rest').map Tx.txid) (h : Witnessed sha256d cb rest)
    (h' : Witnessed sha256d cb' rest') : cb.contents = cb'.contents ∧ rest = rest' := by
  obtain ⟨htxid, hrest⟩ := List.cons.inj htxids
  have hcb := hparsed cb List.mem_cons_self
  have hcb' := hparsed' cb' List.mem_cons_self
  have hbare := hcb.bare_eq hinj hcb' htxid
  have hvout : cb.vout = cb'.vout := (Prod.mk.inj hbare).2
  unfold Witnessed at h h'
  rw [← hvout] at h'
  cases hcommit : commitment cb.vout with
  | none =>
    rw [hcommit] at h h'
    have hplain : ∀ {l : List Tx}, (∀ t ∈ l, Parsed sha256d t) → (∀ t ∈ l, t.segwit = false) →
        l.map Tx.witnessHash = l.map Tx.txid := fun hl hs => List.map_congr_left fun t ht => ((hl t ht).plain (hs t ht)).2
    have hall := Parsed.eq_of_map hinj hparsed hparsed' ((hplain hparsed h).trans (htxids.trans (hplain hparsed' h').symm))
    obtain ⟨rfl, rfl⟩ := List.cons.inj hall
    exact ⟨rfl, rfl⟩
  | some commit =>
    rw [hcommit] at h h'
    obtain ⟨w, root, hw, hroot, hopen⟩ := h
    obtain ⟨w', root', hw', hroot', hopen'⟩ := h'
    have hpre := hinj (Word.ext (hopen.trans hopen'.symm))
    obtain ⟨hroots, rfl⟩ := List.append_inj hpre (root.len.trans root'.len.symm)
    obtain rfl := Word.ext hroots
    have hlen : rest.length = rest'.length := by simpa using congrArg List.length hrest
    have hleaves : witnessLeaves rest = witnessLeaves rest' :=
      PairedTree.root_inj (merkleNode_injective hinj) (by simp [witnessLeaves, hlen]) (hroot.trans hroot'.symm)
    refine ⟨hcb.contents_eq hinj hcb' htxid hw hw', ?_⟩
    exact Parsed.eq_of_map hinj (fun t ht => hparsed t (List.mem_cons_of_mem _ ht)) (fun t ht => hparsed' t
      (List.mem_cons_of_mem _ ht)) (List.cons.inj hleaves).2

/-- **A hash determines the block**: all of it, but for how the coinbase's witness writes its lengths. -/
theorem Accepted.eq (hinj : Function.Injective sha256d) (hnull : ∀ b, ¬OpensNull (sha256d b)) {raw raw' : Bytes} {h : Word}
    {b b' : Block} (hb : Accepted sha256d raw (some h) b) (hb' : Accepted sha256d raw' (some h) b') :
    b.header = b'.header ∧ b.raw = b'.raw ∧ b.txs.map Tx.contents = b'.txs.map Tx.contents ∧ b.txs.tail = b'.txs.tail := by
  have hhash : ∀ {raw : Bytes} {b : Block}, Accepted sha256d raw (some h) b → sha256d b.raw = h := by
    intro raw b hb
    have hheader := hb.header
    unfold parseHeader at hheader
    split at hheader
    · cases hheader
    · have hexpected := hb.expected h rfl
      rw [← Except.ok.inj hheader] at hexpected
      exact hexpected
  have hraw : b.raw = b'.raw := hinj ((hhash hb).trans (hhash hb').symm)
  have hheader : b.header = b'.header := Except.ok.inj (hb.header.symm.trans (hraw ▸ hb'.header))
  have htxids := hb.txids_eq hinj hnull hb' hraw
  obtain ⟨cb, rest, htxs, -, -, hwitnessed⟩ := hb.coinbase
  obtain ⟨cb', rest', htxs', -, -, hwitnessed'⟩ := hb'.coinbase
  have hparsed := hb.parsed_tx
  have hparsed' := hb'.parsed_tx
  rw [htxs, htxs'] at htxids
  rw [htxs] at hparsed
  rw [htxs'] at hparsed'
  obtain ⟨hcontents, hrest⟩ := Witnessed.eq hinj hparsed hparsed' htxids hwitnessed hwitnessed'
  refine ⟨hheader, hraw, ?_, ?_⟩
  · rw [htxs, htxs', List.map_cons, List.map_cons, hcontents, hrest]
  · rw [htxs, htxs']
    exact hrest

end

end Indexer

end Tacit
