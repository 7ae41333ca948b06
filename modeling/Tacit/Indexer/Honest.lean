import Tacit.Bitcoin.Completeness
import Tacit.Bitcoin.Headers
import Tacit.Indexer.Source
/-!
# Honest blocks

A block as the network serialises it: every length in its shortest form, the marker where a transaction has a witness and nowhere
else. If its Merkle root and its witness commitment are as BIP-141 asks for, the indexer accepts it and returns its transactions.
-/
namespace Tacit

namespace Indexer

open Prog Cursor Reader Format

/-! ## The serialisation -/

/-- CompactSize, in its shortest form. -/
def compactSize (n : Nat) : Bytes :=
  if n < 0xfd then [n]
  else if n < 2 ^ 16 then 0xfd :: leBytes 2 n
  else if n < 2 ^ 32 then 0xfe :: leBytes 4 n
  else 0xff :: leBytes 8 n

def sizedBytes (b : Bytes) : Bytes := compactSize b.length ++ b

/-- A count, and the elements. -/
def countedBytes {α : Type} (w : α → Bytes) (l : List α) : Bytes := compactSize l.length ++ (l.map w).flatten

structure RawIn where
  txid : Bytes
  vout : Nat
  script : Bytes
  sequence : Bytes
  witness : List Bytes
deriving DecidableEq

structure RawTx where
  version : Bytes
  vin : List RawIn
  vout : List TxOut
  locktime : Bytes
deriving DecidableEq

structure RawBlock where
  header : Bytes
  coinbase : RawTx
  rest : List RawTx

def RawIn.bytes (i : RawIn) : Bytes := i.txid ++ (leBytes 4 i.vout ++ (compactSize i.script.length ++ (i.script ++ i.sequence)))

def TxOut.bytes (o : TxOut) : Bytes := leBytes 8 o.value ++ sizedBytes o.scriptPubKey

namespace RawTx

def body (t : RawTx) : Bytes := countedBytes RawIn.bytes t.vin ++ countedBytes TxOut.bytes t.vout

/-- The witnesses, one stack an input. -/
def witnesses (t : RawTx) : Bytes := (t.vin.map fun i => countedBytes sizedBytes i.witness).flatten

def segwit (t : RawTx) : Bool := t.vin.any fun i => i.witness ≠ []

def stripped (t : RawTx) : Bytes := t.version ++ (t.body ++ t.locktime)

def bytes (t : RawTx) : Bytes :=
  if t.segwit then t.version ++ (marker ++ (t.body ++ (t.witnesses ++ t.locktime))) else t.stripped

/-- The widths of the fields. -/
structure WellFormed (t : RawTx) : Prop where
  version : t.version.length = 4
  locktime : t.locktime.length = 4
  inputs : t.vin ≠ []
  input : ∀ i ∈ t.vin, i.txid.length = 32 ∧ i.vout < 2 ^ 32 ∧ i.sequence.length = 4
  output : ∀ o ∈ t.vout, o.value < 2 ^ 64

/-- The one input of the null outpoint. -/
def IsCoinbase (t : RawTx) : Prop := ∃ i, t.vin = [i] ∧ i.txid = List.replicate 32 0 ∧ i.vout = 0xffffffff

/-- What the indexer is to return of a transaction. -/
def tx (sha256d : Bytes → Word) (t : RawTx) : Tx :=
  ⟨sha256d t.stripped, t.vin.map fun i => ⟨i.txid, i.vout, i.witness⟩, t.vout, t.segwit,
    if t.segwit then some (sha256d t.bytes) else none⟩

end RawTx

/-- The commitment of an output, behind its prefix. -/
def TxOut.commitment (o : TxOut) : Option Bytes :=
  if 38 ≤ o.scriptPubKey.length ∧ o.scriptPubKey.take 6 = [0x6a, 0x24, 0xaa, 0x21, 0xa9, 0xed] then
    some ((o.scriptPubKey.drop 6).take 32)
  else none

def commitments (vout : List TxOut) : List Bytes := vout.filterMap TxOut.commitment

namespace RawBlock

def txs (b : RawBlock) : List RawTx := b.coinbase :: b.rest

def bytes (b : RawBlock) : Bytes := b.header ++ countedBytes RawTx.bytes b.txs

/-- BIP-141: the last commitment is that to the hashes of all transactions but the coinbase, under the reserved value that is the
coinbase's witness. Without one no transaction has a witness. -/
def Commits (sha256d : Bytes → Word) (b : RawBlock) : Prop :=
  match (commitments b.coinbase.vout).getLast? with
  | none => ∀ t ∈ b.txs, t.segwit = false
  | some commit => ∃ i w root, b.coinbase.vin = [i] ∧ i.witness = [w] ∧ w.length = 32 ∧
    PairedTree.root (merkleNode sha256d) (0 :: b.rest.map fun t => sha256d t.bytes) = some root ∧
    commit = (sha256d (root.bytes ++ w)).bytes

structure Honest (sha256d : Bytes → Word) (b : RawBlock) : Prop where
  header : b.header.length = 80
  wellFormed : ∀ t ∈ b.txs, t.WellFormed
  coinbase : b.coinbase.IsCoinbase
  only : ∀ t ∈ b.rest, ¬t.IsCoinbase
  root : ∃ r, PairedTree.root (merkleNode sha256d) (b.txs.map fun t => sha256d t.stripped) = some r ∧
    (b.header.drop 36).take 32 = r.bytes
  commits : b.Commits sha256d

end RawBlock

/-! ## Its lengths -/

theorem length_le_flatten {α : Type} {w : α → Bytes} : ∀ {l : List α}, (∀ a ∈ l, 0 < (w a).length) →
    l.length ≤ (l.map w).flatten.length
  | [], _ => Nat.zero_le _
  | a :: l, h => by
    rw [List.forall_mem_cons] at h
    have ih := length_le_flatten h.2
    rw [List.map_cons, List.flatten_cons, List.length_append, List.length_cons]
    omega

theorem mem_length_le {α : Type} {w : α → Bytes} {l : List α} {a : α} (h : a ∈ l) : (w a).length ≤ (l.map w).flatten.length := by
  have hsub : (w a).Sublist (l.map w).flatten := List.sublist_flatten_of_mem (List.mem_map_of_mem h)
  exact hsub.length_le

theorem compactSize_varint {n : Nat} (h : n < unsafeInteger) : Varint n (compactSize n) := by
  unfold compactSize
  split_ifs with h₁ h₂ h₃
  · exact .one h₁
  · have hn : leNat (leBytes 2 n) = n := Bitcoin.leNat_leBytes (by omega)
    have := Varint.two (l := leBytes 2 n) (leBytes_length ..)
    rwa [hn] at this
  · have hn : leNat (leBytes 4 n) = n := Bitcoin.leNat_leBytes (by omega)
    have := Varint.four (l := leBytes 4 n) (leBytes_length ..)
    rwa [hn] at this
  · have hn : leNat (leBytes 8 n) = n := Bitcoin.leNat_leBytes (by unfold unsafeInteger at h; omega)
    have := Varint.eight (f := 0xff) (l := leBytes 8 n) (by decide) (leBytes_length ..) (hn.symm ▸ h)
    rwa [hn] at this

theorem compactSize_pos (n : Nat) : 0 < (compactSize n).length := by
  unfold compactSize
  split_ifs <;> simp

theorem sizedBytes_pos (l : Bytes) : 0 < (sizedBytes l).length := by
  have := compactSize_pos l.length
  rw [sizedBytes, List.length_append]
  omega

theorem sized_of_short {l : Bytes} (h : (sizedBytes l).length < unsafeInteger) : Sized l (sizedBytes l) := by
  rw [sizedBytes, List.length_append] at h
  exact ⟨_, compactSize_varint (by omega), rfl⟩

/-- A list is serialised as its elements are: `f` is what is read of one. -/
theorem counted_of_writer {α γ : Type} {E : Format Nat γ} {f : α → γ} {w : α → Bytes} {l : List α}
    (hE : ∀ a ∈ l, (w a).length < unsafeInteger → E (f a) (w a)) (hpos : ∀ a ∈ l, 0 < (w a).length)
    (h : (countedBytes w l).length < unsafeInteger) : Counted E (l.map f) (countedBytes w l) := by
  rw [countedBytes, List.length_append] at h
  have hlen := length_le_flatten hpos
  have hmany : Many (fun a e => E (f a) e) l (l.map w).flatten := Many.of_writer fun a ha => hE a ha (by
    have := mem_length_le (w := w) ha
    omega)
  refine ⟨_, _, ?_, hmany.imp fun _ _ h => h, rfl⟩
  rw [List.length_map]
  exact compactSize_varint (by omega)

/-! ## It is read back -/

/-- An input as it is before its witness is read. -/
def RawIn.bare (i : RawIn) : TxIn := ⟨i.txid, i.vout, []⟩

theorem RawIn.input {i : RawIn} (h : i.txid.length = 32 ∧ i.vout < 2 ^ 32 ∧ i.sequence.length = 4)
    (hlen : i.bytes.length < unsafeInteger) : Input i.bare i.bytes := by
  obtain ⟨htxid, hvout, hsequence⟩ := h
  have hle : leNat (leBytes 4 i.vout) = i.vout := Bitcoin.leNat_leBytes hvout
  simp only [RawIn.bytes, List.length_append] at hlen
  have hsize : Varint i.script.length (compactSize i.script.length) := compactSize_varint (by omega)
  have hskipped : (i.script ++ i.sequence).length = i.script.length + 4 := by rw [List.length_append, hsequence]
  have hinput := Input.mk htxid (leBytes_length 4 i.vout) hsize hskipped
  rwa [hle] at hinput

theorem TxOut.output {o : TxOut} (h : o.value < 2 ^ 64) (hlen : o.bytes.length < unsafeInteger) : Output o o.bytes := by
  have hle : leNat (leBytes 8 o.value) = o.value := Bitcoin.leNat_leBytes h
  rw [TxOut.bytes, List.length_append] at hlen
  have houtput := Output.mk (leBytes_length 8 o.value) (sized_of_short (l := o.scriptPubKey) (by omega))
  rwa [hle] at houtput

namespace RawTx

variable {t : RawTx}

theorem WellFormed.body (h : t.WellFormed) (hlen : t.body.length < unsafeInteger) :
    Body (t.vin.map RawIn.bare, t.vout) t.body := by
  rw [RawTx.body, List.length_append] at hlen
  refine ⟨_, _, counted_of_writer (w := RawIn.bytes) (fun i hi => RawIn.input (h.input i hi)) (fun i hi => ?_) (by omega), ?_,
    rfl⟩
  · rw [RawIn.bytes, List.length_append, (h.input i hi).1]
    omega
  · have hout := counted_of_writer (f := id) (E := Output) (l := t.vout) (w := TxOut.bytes)
      (fun o ho => TxOut.output (h.output o ho)) (fun o _ => ?_) (by omega)
    · rwa [List.map_id] at hout
    · rw [TxOut.bytes, List.length_append, leBytes_length]
      omega

theorem withWitness_bare (vin : List RawIn) : withWitness (vin.map RawIn.bare) (vin.map RawIn.witness) =
    vin.map fun i => ⟨i.txid, i.vout, i.witness⟩ := by
  rw [withWitness, List.zipWith_map, List.zipWith_self]
  rfl

/-- What is cut out of a serialisation. -/
def fields (t : RawTx) : Fields :=
  ⟨t.version, t.segwit, t.vin.map fun i => ⟨i.txid, i.vout, i.witness⟩, t.vout, t.body, t.locktime⟩

theorem segwit_eq_false : t.segwit = false ↔ ∀ i ∈ t.vin, i.witness = [] := by
  simp [segwit]

/-- The count of the inputs does not look like the marker. -/
theorem WellFormed.unmarked (h : t.WellFormed) (tail : Bytes) : (t.body ++ tail).take 2 ≠ marker := by
  have hpos := List.length_pos_iff.2 h.inputs
  obtain ⟨f, rest, hsize, hf⟩ : ∃ f rest, compactSize t.vin.length = f :: rest ∧ f ≠ 0 := by
    unfold compactSize
    split_ifs
    · exact ⟨_, _, rfl, hpos.ne'⟩
    · exact ⟨_, _, rfl, by decide⟩
    · exact ⟨_, _, rfl, by decide⟩
    · exact ⟨_, _, rfl, by decide⟩
  rw [RawTx.body, countedBytes, hsize]
  intro hmarker
  exact hf (List.cons.inj hmarker).1

theorem WellFormed.serialised (h : t.WellFormed) (hlen : t.bytes.length < unsafeInteger) : Serialised t.fields t.bytes := by
  rw [RawTx.bytes] at hlen ⊢
  rw [fields]
  cases hsegwit : t.segwit with
  | false =>
    rw [if_neg (by simp [hsegwit]), stripped, List.length_append, List.length_append] at hlen
    rw [if_neg (by simp), stripped]
    have hbare : t.vin.map (fun i => (⟨i.txid, i.vout, i.witness⟩ : TxIn)) = t.vin.map RawIn.bare :=
      List.map_congr_left fun i hi => by rw [segwit_eq_false.1 hsegwit i hi, RawIn.bare]
    rw [hbare]
    exact .plain h.version h.locktime (h.body (by omega)) (h.unmarked t.locktime)
  | true =>
    rw [if_pos hsegwit] at hlen
    simp only [List.length_append] at hlen
    rw [if_pos rfl, ← withWitness_bare]
    have hmany : Many (fun (i : RawIn) e => Counted Sized i.witness e) t.vin t.witnesses := Many.of_writer fun i hi => by
      have hshort := mem_length_le (w := fun i : RawIn => countedBytes sizedBytes i.witness) hi
      have hitem := counted_of_writer (f := id) (E := Sized) (l := i.witness) (w := sizedBytes) (fun l _ => sized_of_short)
        (fun l _ => sizedBytes_pos l) (by
          rw [witnesses] at hlen
          omega)
      rwa [List.map_id] at hitem
    refine .marked h.version h.locktime (h.body (by omega)) (by rw [List.length_map, List.length_map])
      (hmany.imp (f := RawIn.witness) fun _ _ h => h) ?_
    obtain ⟨i, hi, hne⟩ : ∃ i ∈ t.vin, i.witness ≠ [] := by simpa [segwit] using hsegwit
    rw [withWitness_bare]
    exact ⟨_, List.mem_map_of_mem hi, hne⟩

variable {sha256d : Bytes → Word}

/-- The parts, hashed, are what the indexer is to return. -/
theorem WellFormed.tx_format (h : t.WellFormed) (hlen : t.bytes.length < unsafeInteger) :
    TxFormat sha256d (t.tx sha256d) t.bytes := by
  have hserialised := h.serialised hlen
  refine ⟨t.fields, hserialised, ?_⟩
  rw [Fields.tx, hserialised.stripped_eq]
  rfl

theorem isCoinbase_tx : isCoinbase (t.tx sha256d) = true ↔ t.IsCoinbase := by
  unfold isCoinbase IsCoinbase
  rw [tx]
  match t.vin with
  | [] => simp
  | [i] => simp
  | _ :: _ :: _ => simp

theorem witnessHash_tx : (t.tx sha256d).witnessHash = sha256d t.bytes := by
  unfold Tx.witnessHash tx
  cases hsegwit : t.segwit with
  | true => rfl
  | false =>
    have hbytes : t.bytes = t.stripped := by rw [bytes, hsegwit, if_neg Bool.false_ne_true]
    rw [hbytes]
    rfl

theorem bytes_pos (h : t.WellFormed) : 0 < t.bytes.length := by
  have hversion := h.version
  rw [bytes]
  split_ifs
  · rw [List.length_append]
    omega
  · rw [stripped, List.length_append]
    omega

end RawTx

theorem foldl_or_eq {α β : Type} (f : α → Option β) : ∀ (l : List α) (acc : Option β),
    l.foldl (fun c a => (f a).or c) acc = (l.filterMap f).getLast?.or acc
  | [], _ => rfl
  | a :: l, acc => by
    rw [List.foldl_cons, foldl_or_eq f l, List.filterMap_cons]
    cases f a with
    | none => rfl
    | some b =>
      rw [List.getLast?_cons]
      cases (l.filterMap f).getLast? <;> rfl

/-- The loop of `checkWitnessCommitment` ends with the last commitment. -/
theorem commitment_eq (vout : List TxOut) : commitment vout = (commitments vout).getLast? := by
  have hstep : ∀ (c : Option Bytes) (o : TxOut),
      (if 38 ≤ o.scriptPubKey.length ∧ o.scriptPubKey.take 6 = [0x6a, 0x24, 0xaa, 0x21, 0xa9, 0xed] then
        some ((o.scriptPubKey.drop 6).take 32) else c) = o.commitment.or c := by
    intro c o
    unfold TxOut.commitment
    split_ifs <;> rfl
  unfold commitment
  simp only [hstep]
  rw [foldl_or_eq, Option.or_none]
  rfl

namespace RawBlock

variable {sha256d : Bytes → Word} {b : RawBlock}

theorem Commits.witnessed (h : b.Commits sha256d) :
    Witnessed sha256d (b.coinbase.tx sha256d) (b.rest.map (RawTx.tx sha256d)) := by
  unfold Commits at h
  unfold Witnessed
  have hcommit : commitment (b.coinbase.tx sha256d).vout = (commitments b.coinbase.vout).getLast? := commitment_eq _
  rw [hcommit]
  cases hlast : (commitments b.coinbase.vout).getLast? with
  | none =>
    rw [hlast] at h
    intro t ht
    obtain ⟨raw, hraw, rfl⟩ := List.mem_map.1 (List.map_cons .. ▸ ht : t ∈ b.txs.map (RawTx.tx sha256d))
    exact h raw hraw
  | some commit =>
    rw [hlast] at h
    obtain ⟨i, w, root, hvin, hwitness, hlen, hroot, hopen⟩ := h
    refine ⟨w, root, ?_, ?_, hopen.symm⟩
    · simp [reserved, RawTx.tx, hvin, hwitness, hlen]
    · have hleaves : witnessLeaves (b.rest.map (RawTx.tx sha256d)) = 0 :: b.rest.map fun t => sha256d t.bytes := by
        rw [witnessLeaves, List.map_map]
        exact congrArg (0 :: ·) (List.map_congr_left fun t _ => RawTx.witnessHash_tx)
      rw [hleaves]
      exact hroot

/-- What the indexer is to return of a block. -/
def block (sha256d : Bytes → Word) (b : RawBlock) : Block :=
  ⟨⟨sha256d b.header, (b.header.drop 4).take 32, leNat ((b.header.drop 68).take 4), leNat ((b.header.drop 72).take 4)⟩, b.header,
    b.txs.map (RawTx.tx sha256d)⟩

/-- The transactions of an honest block, as they are read. -/
theorem Honest.parsed (h : b.Honest sha256d) (hlen : b.bytes.length < unsafeInteger) :
    Counted (TxFormat sha256d) (b.txs.map (RawTx.tx sha256d)) (b.bytes.drop 80) := by
  rw [bytes, List.length_append] at hlen
  rw [bytes, ← h.header, List.drop_left]
  exact counted_of_writer (fun t ht hshort => (h.wellFormed t ht).tx_format hshort)
    (fun t ht => RawTx.bytes_pos (h.wellFormed t ht)) (by omega)

theorem txids_eq : (b.block sha256d).txs.map Tx.txid = b.txs.map fun t => sha256d t.stripped := List.map_map

theorem txids_nodup (hinj : Function.Injective sha256d) (h : (b.txs.map RawTx.stripped).Nodup) :
    ((b.block sha256d).txs.map Tx.txid).Nodup := by
  have hmap : (b.block sha256d).txs.map Tx.txid = (b.txs.map RawTx.stripped).map sha256d := by
    rw [txids_eq, List.map_map]
    rfl
  rw [hmap]
  exact h.map hinj

/-- **An honest block is accepted**, if no two of its transactions have one txid. -/
theorem Honest.accepted (hinj : Function.Injective sha256d) (h : b.Honest sha256d) (hlen : b.bytes.length < unsafeInteger)
    (hnodup : (b.txs.map RawTx.stripped).Nodup) {expectHash : Option Word} (hexpect : ∀ x ∈ expectHash, sha256d b.header = x) :
    Accepted sha256d b.bytes expectHash (b.block sha256d) where
  raw_eq := by
    rw [bytes, ← h.header, List.take_left]
    rfl
  header := by
    show parseHeader sha256d b.header = _
    rw [parseHeader, if_neg (not_not.2 h.header)]
    rfl
  expected := hexpect
  parsed := h.parsed hlen
  coinbase := by
    refine ⟨b.coinbase.tx sha256d, b.rest.map (RawTx.tx sha256d), rfl, RawTx.isCoinbase_tx.2 h.coinbase, fun t ht => ?_,
      h.commits.witnessed⟩
    obtain ⟨raw, hraw, rfl⟩ := List.mem_map.1 ht
    exact Bool.eq_false_iff.2 fun hcb => h.only raw hraw (RawTx.isCoinbase_tx.1 hcb)
  nodup := txids_nodup hinj hnodup
  root := by
    obtain ⟨r, hr, hmerkle⟩ := h.root
    rw [← txids_eq] at hr
    exact ⟨r, merkleRoot_eq_ok.2 ⟨hr, merkleLoop_of_nodup hinj (txids_nodup hinj hnodup)⟩, hmerkle.symm⟩

end RawBlock

/-- **An untrusted source cannot alter a block**, where no digest opens with a count of one and a null outpoint: what is accepted
under one hash is one header and one list of transactions, witnesses included, and so one list of envelopes. An honest block is
accepted and returned as it is. -/
theorem block_source {sha256d : Bytes → Word} (hinj : Function.Injective sha256d) (hnull : ∀ c, ¬OpensNull (sha256d c)) :
    (∀ (raw raw' : Bytes) (h : Word) (b b' : Block), parseBlock sha256d raw (some h) = .ok b →
      parseBlock sha256d raw' (some h) = .ok b' →
      b.header = b'.header ∧ b.raw = b'.raw ∧ b.txs.map Tx.contents = b'.txs.map Tx.contents ∧ b.txs.tail = b'.txs.tail ∧
      b.txs.map txEnvelopes = b'.txs.map txEnvelopes) ∧
    ∀ (b : RawBlock) (expectHash : Option Word), b.Honest sha256d → (b.txs.map RawTx.stripped).Nodup →
      b.bytes.length < unsafeInteger → (∀ x ∈ expectHash, sha256d b.header = x) →
      parseBlock sha256d b.bytes expectHash = .ok (b.block sha256d) := by
  constructor
  · intro raw raw' h b b' hb hb'
    obtain ⟨hheader, hraw, hcontents, htail⟩ := (parseBlock_eq_ok.1 hb).eq hinj hnull (parseBlock_eq_ok.1 hb')
    refine ⟨hheader, hraw, hcontents, htail, ?_⟩
    have hvin := congrArg (List.map fun c : Word × List TxIn × List TxOut × Bool => c.2.1.map inputEnvelope) hcontents
    rw [List.map_map, List.map_map] at hvin
    exact hvin
  · intro b expectHash hb hnodup hlen hexpect
    exact parseBlock_eq_ok.2 (hb.accepted hinj hlen hnodup hexpect)

/-! ## Runs -/

variable {sha256d : Bytes → Word}

/-- Transactions under a header with their root. -/
def headed (sha256d : Bytes → Word) (cb : RawTx) (rest : List RawTx) : RawBlock :=
  let root := (PairedTree.root (merkleNode sha256d) ((cb :: rest).map fun t => sha256d t.stripped)).getD 0
  ⟨List.replicate 36 0 ++ (root.bytes ++ List.replicate 12 0), cb, rest⟩

/-- One input that spends an outpoint, one empty output. -/
def demoTx (txid : Bytes) (vout : Nat) (witness : List Bytes) (script : Bytes) : RawTx :=
  ⟨[1, 0, 0, 0], [⟨txid, vout, [], List.replicate 4 255, witness⟩], [⟨0, script⟩], [0, 0, 0, 0]⟩

def demoCoinbase (witness : List Bytes) (script : Bytes) : RawTx := demoTx (List.replicate 32 0) 0xffffffff witness script

def demoSpend (witness : List Bytes) : RawTx := demoTx (7 :: List.replicate 31 0) 0 witness []

theorem demoTx_wellFormed {txid script : Bytes} {vout : Nat} {witness : List Bytes} (htxid : txid.length = 32)
    (hvout : vout < 2 ^ 32) : (demoTx txid vout witness script).WellFormed where
  version := rfl
  locktime := rfl
  inputs := List.cons_ne_nil _ _
  input := by
    intro i hi
    cases List.mem_singleton.1 hi
    exact ⟨htxid, hvout, rfl⟩
  output := by
    intro o ho
    cases List.mem_singleton.1 ho
    exact Nat.two_pow_pos 64

theorem root_eq_some {l : List Word} (h : l ≠ []) :
    PairedTree.root (merkleNode sha256d) l = some ((PairedTree.root (merkleNode sha256d) l).getD 0) := by
  obtain ⟨a, l, rfl⟩ := List.exists_cons_of_ne_nil h
  rw [PairedTree.rootFrom_siblings (i := 0) (x := a) rfl]
  rfl

theorem demo_honest {witness : List Bytes} {script : Bytes} {spends : List (List Bytes)}
    (hcommits : (headed sha256d (demoCoinbase witness script) (spends.map demoSpend)).Commits sha256d) :
    (headed sha256d (demoCoinbase witness script) (spends.map demoSpend)).Honest sha256d where
  header := by simp [headed, Word.len]
  wellFormed := by
    intro t ht
    rcases List.mem_cons.1 ht with rfl | ht
    · exact demoTx_wellFormed rfl (by decide)
    · obtain ⟨w, -, rfl⟩ := List.mem_map.1 ht
      exact demoTx_wellFormed rfl (by decide)
  coinbase := ⟨_, rfl, rfl, rfl⟩
  only := by
    rintro t ht ⟨i, hi, htxid, -⟩
    obtain ⟨w, -, rfl⟩ := List.mem_map.1 ht
    cases hi
    have hne : (7 :: List.replicate 31 0 : Bytes) ≠ List.replicate 32 0 := by decide
    exact hne htxid
  root := by
    refine ⟨_, root_eq_some (List.cons_ne_nil _ _), ?_⟩
    show ((List.replicate 36 0 ++ (Word.bytes _ ++ List.replicate 12 0)).drop 36).take 32 = _
    rw [List.drop_left' List.length_replicate, List.take_left' (Word.len _)]
    rfl
  commits := hcommits

/-! ### An honest block -/

theorem codeSha_not_opensNull (c : Bytes) : ¬OpensNull (Bitcoin.codeSha c) := by
  rintro ⟨e, z, he, hdrop, hz⟩
  have hones : (Bitcoin.codeSha c).bytes.drop 4 = List.replicate 28 1 := rfl
  rw [hones] at hdrop
  have hall : ∀ x ∈ e ++ z, x = 1 := fun x hx => List.eq_of_mem_replicate (hdrop ▸ hx)
  have hlen := congrArg List.length hdrop
  rw [List.length_replicate, List.length_append] at hlen
  have hnine := he.length_le
  obtain ⟨x, z, rfl⟩ : ∃ x z', z = x :: z' := List.exists_cons_of_ne_nil (List.length_pos_iff.1 (by omega))
  have hzero := hz x List.mem_cons_self
  have hone := hall x (List.mem_append_right _ List.mem_cons_self)
  omega

/-- A block without a commitment. -/
theorem plain_commits : (headed sha256d (demoCoinbase [] []) ([[]].map demoSpend)).Commits sha256d := by
  intro t ht
  rcases List.mem_cons.1 ht with rfl | ht
  · rfl
  · cases List.mem_singleton.1 ht
    rfl

theorem header_length (cb : RawTx) (rest : List RawTx) : (headed sha256d cb rest).header.length = 80 := by
  simp [headed, Word.len]

theorem plain_short : (headed sha256d (demoCoinbase [] []) ([[]].map demoSpend)).bytes.length < unsafeInteger := by
  have htxs : (countedBytes RawTx.bytes (demoCoinbase [] [] :: [[]].map demoSpend)).length = 121 := by decide +kernel
  have hlen : (headed sha256d (demoCoinbase [] []) ([[]].map demoSpend)).bytes.length = 80 + 121 := by
    rw [RawBlock.bytes, List.length_append, header_length, ← htxs]
    rfl
  rw [hlen]
  decide

theorem plain_nodup : ((headed sha256d (demoCoinbase [] []) ([[]].map demoSpend)).txs.map RawTx.stripped).Nodup := by
  have htxs : ((demoCoinbase [] [] :: [[]].map demoSpend).map RawTx.stripped).Nodup := by decide +kernel
  exact htxs

/-- An honest block of two transactions, under its own hash. -/
theorem block_source_honest :
    let b := headed Bitcoin.codeSha (demoCoinbase [] []) ([[]].map demoSpend)
    parseBlock Bitcoin.codeSha b.bytes (some (Bitcoin.codeSha b.header)) = .ok (b.block Bitcoin.codeSha) :=
  (block_source Bitcoin.codeSha_injective codeSha_not_opensNull).2 _ _ (demo_honest plain_commits) plain_nodup plain_short
    fun _ h => Option.some.inj h

/-! ### Two blocks of one hash, and two transactions of one txid -/

/-- The two digests, read as a coinbase that writes its count of one input in five bytes. -/
def aliasFields : Fields :=
  ⟨[0, 0, 0, 0], false, [⟨List.replicate 32 0, 0xffffffff, []⟩], [⟨0, []⟩],
    [254, 1, 0, 0, 0] ++ List.replicate 32 0 ++ List.replicate 4 255 ++ 0 :: List.replicate 4 255 ++ 1 :: List.replicate 9 0,
    [0, 0, 0, 0]⟩

def aliasBytes : Bytes := Bitcoin.aliasLeft.bytes ++ Bitcoin.aliasRight.bytes

theorem alias_serialised : Serialised aliasFields aliasBytes := by
  have hfields : fields ⟨aliasBytes, 0⟩ = .ok ((aliasFields, aliasBytes), ⟨aliasBytes, 64⟩) := rfl
  obtain ⟨-, -, hread⟩ := wp_of_ok ((fields_reads (N := 65)).sound ⟨aliasBytes, 0⟩) (quiet_eq_ok.2 hfields)
  obtain ⟨e, tail, ⟨he, rfl⟩, -, -⟩ := hread le_rfl
  exact he

/-- The root over the two digests is the hash of both. -/
theorem alias_root : ∃ r, PairedTree.root (merkleNode Bitcoin.aliasSha) ((demoCoinbase [] [] :: [[]].map demoSpend).map fun t =>
    Bitcoin.aliasSha t.stripped) = some r ∧ r = Bitcoin.aliasSha aliasBytes := by
  have hcoinbase : (demoCoinbase [] []).stripped = Bitcoin.demoCoinbase := by decide +kernel
  have hspend : (demoSpend []).stripped = Bitcoin.demoSpendTx := by decide +kernel
  have hne : Bitcoin.demoSpendTx ≠ Bitcoin.demoCoinbase := by decide +kernel
  have hleft : Bitcoin.aliasSha Bitcoin.demoCoinbase = Bitcoin.aliasLeft := if_pos rfl
  have hright : Bitcoin.aliasSha Bitcoin.demoSpendTx = Bitcoin.aliasRight := by rw [Bitcoin.aliasSha, if_neg hne, if_pos rfl]
  refine ⟨_, ?_, rfl⟩
  simp only [List.map_cons, List.map_nil, hcoinbase, hspend, hleft, hright]
  exact PairedTree.root_pair _ _

/-- The block of the one transaction that the two digests make. -/
theorem alias_accepted {header : Bytes} (hlen : header.length = 80)
    (hroot : (header.drop 36).take 32 = (Bitcoin.aliasSha aliasBytes).bytes) :
    ∃ b, parseBlock Bitcoin.aliasSha (header ++ 1 :: aliasBytes) (some (Bitcoin.aliasSha header)) = .ok b ∧ b.txs.length = 1 := by
  generalize hsha : Bitcoin.aliasSha = sha256d at hroot ⊢
  have htake : (header ++ 1 :: aliasBytes).take 80 = header := List.take_left' hlen
  have hdrop : (header ++ 1 :: aliasBytes).drop 80 = 1 :: aliasBytes := List.drop_left' hlen
  refine ⟨⟨⟨sha256d header, (header.drop 4).take 32, leNat ((header.drop 68).take 4), leNat ((header.drop 72).take 4)⟩, header,
    [aliasFields.tx sha256d aliasBytes]⟩, parseBlock_eq_ok.2 ?_, rfl⟩
  refine ⟨htake.symm, ?_, fun x hx => Option.some.inj hx, ?_, ⟨_, [], rfl, rfl, List.forall_mem_nil _, ?_⟩,
    List.nodup_singleton _, sha256d aliasBytes, ?_, hroot.symm⟩
  · rw [parseHeader, if_neg (not_not.2 hlen)]
  · rw [hdrop]
    exact ⟨[1], aliasBytes, .one (show 1 < 0xfd by decide), Many.one.2 ⟨aliasFields, alias_serialised, rfl⟩, rfl⟩
  · intro t ht
    cases List.mem_singleton.1 ht
    rfl
  · refine merkleRoot_eq_ok.2 ⟨PairedTree.root_singleton _, ?_⟩
    rw [merkleLoop, if_neg (by simp)]

/-- The commitment to two spends that differ in their witness. -/
def twinCommit (sha256d : Bytes → Word) : Word :=
  let leaves := 0 :: ([[[1]], [[2]]].map demoSpend).map fun t => sha256d t.bytes
  sha256d (((PairedTree.root (merkleNode sha256d) leaves).getD 0).bytes ++ List.replicate 32 0)

def twinBlock (sha256d : Bytes → Word) : RawBlock :=
  headed sha256d (demoCoinbase [List.replicate 32 0] ([0x6a, 0x24, 0xaa, 0x21, 0xa9, 0xed] ++ (twinCommit sha256d).bytes))
    ([[[1]], [[2]]].map demoSpend)

theorem twin_commits : (twinBlock sha256d).Commits sha256d := by
  have hcommit : (commitments (twinBlock sha256d).coinbase.vout).getLast? = some (twinCommit sha256d).bytes := by
    have hlen := (twinCommit sha256d).len
    generalize htwin : twinCommit sha256d = w at hlen
    simp [twinBlock, headed, demoCoinbase, demoTx, commitments, TxOut.commitment, htwin, hlen]
  unfold RawBlock.Commits
  rw [hcommit]
  exact ⟨_, List.replicate 32 0, _, rfl, rfl, List.length_replicate, root_eq_some (List.cons_ne_nil _ _), rfl⟩

theorem twin_honest : (twinBlock sha256d).Honest sha256d := demo_honest twin_commits

theorem twin_short : (twinBlock sha256d).bytes.length < unsafeInteger := by
  have hcb : ∀ w : Word, (demoCoinbase [List.replicate 32 0] ([0x6a, 0x24, 0xaa, 0x21, 0xa9, 0xed] ++ w.bytes)).bytes.length =
      134 := by
    intro w
    have hlen := w.len
    simp [demoCoinbase, demoTx, RawTx.bytes, RawTx.segwit, RawTx.body, RawTx.witnesses, countedBytes, RawIn.bytes, TxOut.bytes,
      sizedBytes, compactSize, hlen, marker]
  have hrest : (([[[1]], [[2]]].map demoSpend).map RawTx.bytes).flatten.length = 130 := by decide +kernel
  have hlen : (twinBlock sha256d).bytes.length = 80 + (1 + (134 + 130)) := by
    rw [RawBlock.bytes, List.length_append, twinBlock, header_length, countedBytes, List.length_append]
    show 80 + (1 + (_ ++ (([[[1]], [[2]]].map demoSpend).map RawTx.bytes).flatten).length) = _
    rw [List.length_append, hrest]
    exact congrArg (fun n => 80 + (1 + (n + 130))) (hcb _)
  rw [hlen]
  decide

theorem twin_nodup : (twinBlock sha256d).txs.Nodup := by
  have hrest : ([[[1]], [[2]]].map demoSpend).Nodup := by decide
  refine List.nodup_cons.2 ⟨fun hmem => ?_, hrest⟩
  obtain ⟨w, -, hw⟩ := List.mem_map.1 hmem
  have hvin := congrArg (fun t : RawTx => t.vin.map RawIn.vout) hw
  exact absurd (List.cons.inj hvin).1 (show (0 : Nat) ≠ 0xffffffff by decide)

/-- Two transactions of one txid are refused. -/
theorem twin_refused {expectHash : Option Word} {b : Block} :
    parseBlock sha256d (twinBlock sha256d).bytes expectHash ≠ .ok b := by
  intro hb
  have haccepted := parseBlock_eq_ok.1 hb
  have hend : (twinBlock sha256d).bytes.drop 80 ++ [] = (twinBlock sha256d).bytes.drop 80 ++ [] := rfl
  obtain ⟨htxs, -⟩ := transactions_reads.det (Nat.lt_succ_self _) haccepted.parsed (twin_honest.parsed twin_short) hend
  have hnodup := haccepted.nodup
  rw [htxs] at hnodup
  have hstripped : (demoSpend [[1]]).stripped = (demoSpend [[2]]).stripped := rfl
  have htwins : (((twinBlock sha256d).txs.map (RawTx.tx sha256d)).map Tx.txid).tail =
      [sha256d (demoSpend [[1]]).stripped, sha256d (demoSpend [[2]]).stripped] := rfl
  have htail := hnodup.tail
  rw [htwins, hstripped] at htail
  simp at htail

/-- As first stated neither half holds: digests whose bytes 5 to 31 are not all zero may be read as a coinbase with its count in
five bytes, and transactions that differ in their witnesses alone have one txid. -/
theorem block_source_limits :
    (¬ ∀ sha256d : Bytes → Word, Function.Injective sha256d → (∀ c, ∃ x ∈ (sha256d c).bytes.drop 5, x ≠ 0) →
      ∀ (raw raw' : Bytes) (h : Word) (b b' : Block), parseBlock sha256d raw (some h) = .ok b →
        parseBlock sha256d raw' (some h) = .ok b' → b.txs.length = b'.txs.length) ∧
    ¬ ∀ sha256d : Bytes → Word, Function.Injective sha256d → (∀ c, ∃ x ∈ (sha256d c).bytes.drop 5, x ≠ 0) →
      ∀ b : RawBlock, b.Honest sha256d → b.txs.Nodup → b.bytes.length < unsafeInteger →
        ∃ b', parseBlock sha256d b.bytes (some (sha256d b.header)) = .ok b' := by
  constructor
  · intro hall
    obtain ⟨r, hr, hhash⟩ := alias_root
    have hhonest : (headed Bitcoin.aliasSha (demoCoinbase [] []) ([[]].map demoSpend)).Honest Bitcoin.aliasSha :=
      demo_honest plain_commits
    have hpair := parseBlock_eq_ok.2 (hhonest.accepted Bitcoin.aliasSha_injective plain_short plain_nodup fun _ h =>
      Option.some.inj h)
    obtain ⟨r', hr', hheader⟩ := hhonest.root
    have hroots : r' = r := Option.some.inj (hr'.symm.trans hr)
    rw [hroots, hhash] at hheader
    obtain ⟨b, hb, hone⟩ := alias_accepted hhonest.header hheader
    have hlen := hall Bitcoin.aliasSha Bitcoin.aliasSha_injective Bitcoin.aliasSha_digests _ _ _ _ _ hb hpair
    rw [hone] at hlen
    exact absurd hlen (show 1 ≠ 2 by decide)
  · intro hall
    obtain ⟨b, hb⟩ := hall Bitcoin.codeSha Bitcoin.codeSha_injective (fun c => ⟨1, by simp [Bitcoin.codeSha], one_ne_zero⟩) _
      twin_honest twin_nodup twin_short
    exact twin_refused hb

end Indexer

end Tacit
