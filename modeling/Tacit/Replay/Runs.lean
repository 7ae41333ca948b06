import Mathlib.Data.List.Chain
import Tacit.Indexer.Honest
import Tacit.Replay.Determinate
/-!
# The runs of the indexer (worker-relay/src/btc-pool-indexer.js)

Started on an empty database, the indexer processes blocks, fails at them, rolls back, rescans and restarts, in any order. Which blocks
stand after such a run is a list: a block adds itself, a failure leaves it, everything else keeps as many of its first blocks as the
tables have. Whatever the run, the tables and the state are those of one replay of that list from an empty state.
-/
namespace Tacit

namespace Replay

open Prog

section

variable {P : Type} [AddCommGroup P] [DecidableEq P] (L : Library P) (sha256d : Bytes → Word) (start : Int)

/-- A call came back. -/
def Leads (m : Service Unit) (r t : Replica) : Prop := m r = .ok () t ∨ ∃ e, m r = .err e t

/-- What the loop of `syncOnce` has checked of a block (:237). -/
structure Work.Extends (w : Work) (r : Replica) : Prop where
  parsed : ∃ raw, Indexer.parseBlock sha256d raw (some w.block.header.hash) = .ok w.block
  linked : start < nextHeight start r.state → extendsTip r.db (nextHeight start r.state) w.block.header

/-- The blocks `ws` stand in the replica. -/
inductive Indexes : List Work → Replica → Prop
  | new : Indexes [] ⟨.new, .empty⟩
  | block {ws : List Work} {r t : Replica} {w : Work} {io : Option Error} : Indexes ws r → w.Extends sha256d start r →
      processBlock L w io (nextHeight start r.state) r = .ok () t → Indexes (ws ++ [w]) t
  | failed {ws : List Work} {r t : Replica} {w : Work} {io : Option Error} {e : Error} : Indexes ws r →
      processBlock L w io (nextHeight start r.state) r = .err e t → Indexes ws t
  | rollback {ws : List Work} {r t : Replica} {io : Option Error} {read : Tables → Rows} {height : Int} : Indexes ws r →
      Faithful read → Leads (rollback L io read height) r t → Indexes (ws.take t.db.blocks.length) t
  | rescan {ws : List Work} {r t : Replica} {io : Option Error} : Indexes ws r → Leads (rescan io) r t →
      Indexes (ws.take t.db.blocks.length) t
  | restart {ws : List Work} {r : Replica} {rows : Rows} {st : BtcPoolState} : Indexes ws r → Tables.Snapshot r.db rows →
      restore L rows .new = .ok () st → Indexes ws ⟨st, r.db⟩

/-- A block carries the header that its hash is of. -/
structure Work.Headed (w : Work) : Prop where
  hash : sha256d w.block.raw = w.block.header.hash
  prev : (w.block.raw.drop 4).take 32 = w.block.header.prevHash

/-- Each block names the one before it. -/
def Linked (ws : List Work) : Prop := ws.IsChain fun v w => v.block.header.hash.bytes = w.block.header.prevHash

/-- What every run keeps. -/
structure Replayed (ws : List Work) (r : Replica) (g : History) (log : List Entry) : Prop where
  first : g.start = start
  holds : Holds L g log r
  hashes : log.map (fun e => e.row.hash) = ws.map fun w => w.block.header.hash
  headed : ∀ w ∈ ws, w.Headed sha256d
  linked : Linked ws
  replay : ∃ st, replayAll L start ws .new = .ok log st

variable {L sha256d start} {ws : List Work} {r t : Replica} {g : History} {log : List Entry} {w : Work}

theorem Leads.wp {m : Service Unit} {E Q : Replica → Prop} (hm : Leads m r t) (h : Prog.wp False m r (fun _ t => E t) fun _ t => Q t) :
    E t ∨ Q t := by
  rcases hm with hm | ⟨e, hm⟩
  · exact .inr (wp_of_ok h hm)
  · exact .inl (wp_of_err (E := fun _ t => E t) h hm)

theorem Work.Extends.headed (h : w.Extends sha256d start r) : w.Headed sha256d := by
  obtain ⟨raw, hraw⟩ := h.parsed
  have hheader := (Indexer.parseBlock_eq_ok.1 hraw).header
  unfold Indexer.parseHeader at hheader
  split_ifs at hheader
  have heq := Except.ok.inj hheader
  exact ⟨by rw [← heq], by rw [← heq]⟩

/-- The rows of the tables are as many as the blocks that stand. -/
theorem Replayed.length (h : Replayed L sha256d start ws r g log) : log.length = ws.length ∧ r.db.blocks.length = ws.length := by
  have hlen : log.length = ws.length := by simpa using congrArg List.length h.hashes
  exact ⟨hlen, by rw [h.holds.db, Tables.of, List.length_map, hlen]⟩

theorem Replayed.next (h : Replayed L sha256d start ws r g log) : g.next = start + ws.length := by
  rw [History.next, h.first, ← h.holds.logs.length, h.length.1]

theorem Replayed.nextHeight (h : Replayed L sha256d start ws r g log) : nextHeight start r.state = start + ws.length := by
  rw [← h.next, ← h.first]
  exact h.holds.nextHeight

/-- The row of a block that stands. -/
theorem Replayed.block (h : Replayed L sha256d start ws r g log) (i : Nat) :
    (r.db.block (start + i)).map BlockRow.hash = ws[i]?.map fun w => w.block.header.hash := by
  have hindex : (start + (i : Int) - start).toNat = i := by omega
  rw [h.holds.db, h.holds.logs.block, h.first, if_pos (by omega), hindex, Option.map_map]
  have hhashes := congrArg (fun l : List Word => l[i]?) h.hashes
  simp only [List.getElem?_map] at hhashes
  exact hhashes

/-- The replay of the first blocks stands at their history. -/
theorem Replayed.standing_take (h : Replayed L sha256d start ws r g log) (n : Nat) :
    ∃ u, replayAll L start (ws.take n) .new = .ok (log.take n) u ∧ Standing L (g.below (start + n)) u := by
  obtain ⟨st, hst⟩ := h.replay
  obtain ⟨u, hu⟩ := replayAll_take n hst
  have hnew : Standing L ⟨start, []⟩ .new := Standing.new
  obtain ⟨hstanding, -⟩ := hnew.replayAll (by simpa [History.next] using hu)
  have hbelow : g.below (start + n) = ⟨start, [] ++ (log.take n).map Entry.block⟩ := by
    have hcount : (start + (n : Int) - start).toNat = n := by omega
    rw [History.below, h.first, hcount, List.nil_append, List.map_take, h.holds.logs.blocks]
  exact ⟨u, hu, hbelow ▸ hstanding⟩

theorem Replayed.standing (h : Replayed L sha256d start ws r g log) :
    ∃ st, replayAll L start ws .new = .ok log st ∧ Standing L g st := by
  obtain ⟨u, hu, hstanding⟩ := h.standing_take ws.length
  rw [List.take_length, ← h.length.1, List.take_length] at hu
  rw [← h.next, History.below_of_next_le le_rfl] at hstanding
  exact ⟨u, hu, hstanding⟩

/-- Runs that stand at the same first blocks have the same first rows. -/
theorem Replayed.agree (h : Replayed L sha256d start ws r g log) {ws' : List Work} {r' : Replica} {g' : History} {log' : List Entry}
    (h' : Replayed L sha256d start ws' r' g' log') {n : Nat} (hsame : ws.take n = ws'.take n) : log.take n = log'.take n := by
  obtain ⟨u, hu, -⟩ := h.standing_take n
  obtain ⟨u', hu', -⟩ := h'.standing_take n
  rw [hsame, hu'] at hu
  injection hu with hlog
  exact hlog.symm

/-- Some of the first blocks are left. -/
theorem Replayed.take (h : Replayed L sha256d start ws r g log) {n : Nat} {g' : History} (hstart : g'.start = start)
    (ht : Holds L g' (log.take n) t) : Replayed L sha256d start (ws.take t.db.blocks.length) t g' (log.take n) := by
  obtain ⟨st, hst⟩ := h.replay
  have hlen : t.db.blocks.length = min n ws.length := by rw [ht.db, Tables.of, List.length_map, List.length_take, h.length.1]
  have htake : ws.take t.db.blocks.length = ws.take n := by
    rw [hlen]
    exact List.take_eq_take_min.symm
  rw [htake]
  exact ⟨hstart, ht, by rw [List.map_take, List.map_take, h.hashes], fun w hw => h.headed w (List.mem_of_mem_take hw),
    List.IsChain.take h.linked n, replayAll_take n hst⟩

/-- The next block names the last one. -/
theorem Replayed.names_last (h : Replayed L sha256d start ws r g log) (hext : w.Extends sha256d start r) {v : Work}
    (hv : v ∈ ws.getLast?) : v.block.header.hash.bytes = w.block.header.prevHash := by
  have hpos : 0 < ws.length := List.length_pos_iff.2 fun hnil => by
    rw [hnil] at hv
    cases hv
  have hnext : Replay.nextHeight start r.state = start + (ws.length - 1 : Nat) + 1 := by
    rw [h.nextHeight]
    omega
  obtain ⟨b, hb, hprev⟩ := hext.linked (by omega)
  have hrow := h.block (ws.length - 1)
  rw [← List.getLast?_eq_getElem?, hv, ← Int.add_sub_cancel (start + (ws.length - 1 : Nat)) 1, ← hnext, hb] at hrow
  have hhash : b.hash = v.block.header.hash := Option.some.inj hrow
  rw [← hprev, hhash]

theorem Replayed.push (h : Replayed L sha256d start ws r g log) (hext : w.Extends sha256d start r) {e : Entry}
    (hone : replayOne L w g.next r.state = .ok e t.state) (ht : Holds L (g.push e.block) (log ++ [e]) t)
    (hhash : e.row.hash = w.block.header.hash) : Replayed L sha256d start (ws ++ [w]) t (g.push e.block) (log ++ [e]) := by
  obtain ⟨st, hst, hstanding⟩ := h.standing
  obtain ⟨-, u, hu, -⟩ := h.holds.standing.replayOne hstanding hone
  refine ⟨h.first, ht, ?_, ?_, ?_, u, replayAll_concat hst (h.next ▸ hu)⟩
  · rw [List.map_append, List.map_append, h.hashes, List.map_singleton, List.map_singleton, hhash]
  · intro v hv
    rcases List.mem_append.1 hv with hv | hv
    · exact h.headed v hv
    · rw [List.mem_singleton.1 hv]
      exact hext.headed
  · refine List.isChain_append.2 ⟨h.linked, .singleton _, fun v hv w' hw' => ?_⟩
    obtain rfl : w = w' := Option.some.inj hw'
    exact h.names_last hext hv

/-- **Every run** leaves the tables and the state of one replay of the blocks that stand. -/
theorem Indexes.replayed (hstart : 0 ≤ start) (h : Indexes L sha256d start ws r) : ∃ g log, Replayed L sha256d start ws r g log := by
  induction h with
  | new => exact ⟨⟨start, []⟩, [], rfl, ⟨Standing.new, .nil, rfl⟩, rfl, fun _ hw => (List.not_mem_nil hw).elim, List.isChain_nil, _, rfl⟩
  | block _ hext hrun ih =>
    obtain ⟨g, log, hr⟩ := ih
    have hnext := hr.first ▸ hr.holds.nextHeight
    rw [hnext] at hrun
    obtain ⟨-, e, hone, ht, hhash⟩ := wp_of_ok (hr.holds.processBlock _ _) hrun
    exact ⟨_, _, hr.push hext hone ht hhash⟩
  | failed _ hrun ih =>
    obtain ⟨g, log, hr⟩ := ih
    have hnext := hr.first ▸ hr.holds.nextHeight
    rw [hnext] at hrun
    obtain ⟨ht, -⟩ := wp_of_err (hr.holds.processBlock _ _) hrun
    exact ⟨g, log, hr.first, ht, hr.hashes, hr.headed, hr.linked, hr.replay⟩
  | @rollback ws r t io read height _ hread hrun ih =>
    obtain ⟨g, log, hr⟩ := ih
    have hfirst := hr.first
    rcases hrun.wp (hr.holds.rollback (by omega) hread io height) with ht | ht | ⟨ht, -⟩
    · exact ⟨g, _, hr.take (n := log.length) hfirst (by rwa [List.take_length])⟩
    · exact ⟨g.below height, _, hr.take hfirst ht⟩
    · exact ⟨⟨g.start, []⟩, _, hr.take (n := 0) hfirst (by rwa [List.take_zero])⟩
  | @rescan ws r t io _ hrun ih =>
    obtain ⟨g, log, hr⟩ := ih
    have hfirst := hr.first
    rcases hrun.wp (wp_mono (hr.holds.rescan (by omega) io) id (fun _ _ h => h.2) fun _ _ => id) with ht | ht
    · exact ⟨g, _, hr.take (n := log.length) hfirst (by rw [ht, List.take_length]; exact hr.holds)⟩
    · exact ⟨⟨g.start, []⟩, _, hr.take (n := 0) hfirst (by rwa [List.take_zero])⟩
  | restart _ hsnapshot hrestore ih =>
    obtain ⟨g, log, hr⟩ := ih
    rw [hr.holds.db] at hsnapshot
    obtain ⟨hst, -⟩ := wp_of_ok (hr.holds.logs.restore hr.holds.coherent hsnapshot) hrestore
    exact ⟨g, log, hr.first, ⟨hst, hr.holds.logs, hr.holds.db⟩, hr.hashes, hr.headed, hr.linked, hr.replay⟩

end

/-! ## A run of one block -/

/-- A block of two transactions without envelopes, under a library that knows one point. -/
def plainWork : Work :=
  ⟨⟨"", fun _ _ _ _ => .ok none, none, none⟩,
    (Indexer.headed Bitcoin.codeSha (Indexer.demoCoinbase [] []) ([[]].map Indexer.demoSpend)).block Bitcoin.codeSha⟩

def plainBytes : Bytes := (Indexer.headed Bitcoin.codeSha (Indexer.demoCoinbase [] []) ([[]].map Indexer.demoSpend)).bytes

theorem plainWork_parsed : Indexer.parseBlock Bitcoin.codeSha plainBytes (some plainWork.block.header.hash) = .ok plainWork.block :=
  Indexer.parseBlock_eq_ok.2 ((Indexer.demo_honest Indexer.plain_commits).accepted Bitcoin.codeSha_injective Indexer.plain_short
    Indexer.plain_nodup fun _ h => Option.some.inj h)

theorem plainWork_quiet : Quiet plainWork.block.txs := by
  intro t ht
  cases List.mem_singleton.1 ht
  rfl

theorem plain_run : ∃ r, Indexes generatorOnly Bitcoin.codeSha 0 [plainWork] r ∧ r.db.leaves = [] ∧ r.db.nullifiers = [] ∧
    r.db.exits = [] := by
  have hnew : Holds generatorOnly ⟨0, []⟩ [] ⟨.new, .empty⟩ := ⟨Standing.new, .nil, rfl⟩
  obtain ⟨_, r, hrun, hr⟩ := ok_of_wp (hnew.processBlock_quiet plainWork_quiet)
  exact ⟨r, .block .new ⟨⟨_, plainWork_parsed⟩, fun h => (Int.lt_irrefl _ h).elim⟩ hrun, hr⟩

/-! ### A run of any length -/

/-- The same block after another one. -/
def plainAfter (prev : Word) : Indexer.RawBlock :=
  let b := Indexer.headed Bitcoin.codeSha (Indexer.demoCoinbase [] []) ([[]].map Indexer.demoSpend)
  ⟨List.replicate 4 0 ++ prev.bytes ++ b.header.drop 36, b.coinbase, b.rest⟩

theorem plainAfter_drop (prev : Word) : (plainAfter prev).header.drop 36 =
    (Indexer.headed Bitcoin.codeSha (Indexer.demoCoinbase [] []) ([[]].map Indexer.demoSpend)).header.drop 36 :=
  List.drop_left' (by rw [List.length_append, List.length_replicate, prev.len])

theorem plainAfter_length (prev : Word) : (plainAfter prev).header.length = 80 := by
  rw [plainAfter, List.length_append, List.length_append, List.length_drop, Indexer.header_length, List.length_replicate, prev.len]

theorem plainAfter_honest (prev : Word) : (plainAfter prev).Honest Bitcoin.codeSha := by
  have hplain : (Indexer.headed Bitcoin.codeSha (Indexer.demoCoinbase [] []) ([[]].map Indexer.demoSpend)).Honest Bitcoin.codeSha :=
    Indexer.demo_honest Indexer.plain_commits
  obtain ⟨root, hroot, hheader⟩ := hplain.root
  exact ⟨plainAfter_length prev, hplain.wellFormed, hplain.coinbase, hplain.only,
    ⟨root, hroot, (plainAfter_drop prev).symm ▸ hheader⟩, hplain.commits⟩

theorem plainAfter_short (prev : Word) : (plainAfter prev).bytes.length < Indexer.unsafeInteger := by
  have hshort := @Indexer.plain_short Bitcoin.codeSha
  rw [Indexer.RawBlock.bytes, List.length_append, Indexer.header_length] at hshort
  rw [Indexer.RawBlock.bytes, List.length_append, plainAfter_length]
  exact hshort

/-- A block after any other. -/
theorem plainAfter_work (prev : Word) : ∃ w : Work, Quiet w.block.txs ∧ w.block.header.prevHash = prev.bytes ∧
    ∃ raw, Indexer.parseBlock Bitcoin.codeSha raw (some w.block.header.hash) = .ok w.block := by
  refine ⟨⟨plainWork.answers, (plainAfter prev).block Bitcoin.codeSha⟩, plainWork_quiet, ?_, _, Indexer.parseBlock_eq_ok.2
    ((plainAfter_honest prev).accepted Bitcoin.codeSha_injective (plainAfter_short prev)
      (@Indexer.plain_nodup Bitcoin.codeSha) fun _ h => Option.some.inj h)⟩
  show ((List.replicate 4 0 ++ prev.bytes ++ _).drop 4).take 32 = prev.bytes
  rw [List.append_assoc]
  exact List.take_left' prev.len

theorem plain_chain : ∀ n : Nat, ∃ ws r, Indexes generatorOnly Bitcoin.codeSha 0 ws r ∧ ws.length = n ∧ r.db.leaves = []
  | 0 => ⟨[], _, .new, rfl, rfl⟩
  | n + 1 => by
    obtain ⟨ws, r, h, hlen, hleaves⟩ := plain_chain n
    obtain ⟨g, log, hr⟩ := h.replayed le_rfl
    obtain ⟨w, hquiet, hprev, hparsed⟩ := plainAfter_work ((ws[n - 1]?.map fun w => w.block.header.hash).getD 0)
    have hext : w.Extends Bitcoin.codeSha 0 r := by
      refine ⟨hparsed, fun hlt => ?_⟩
      rw [hr.nextHeight] at hlt ⊢
      have hheight : 0 + (ws.length : Int) - 1 = 0 + (n - 1 : Nat) := by omega
      have hrow := hr.block (n - 1)
      rw [List.getElem?_eq_getElem (by omega), Option.map_some] at hrow hprev
      obtain ⟨b, hb, hhash⟩ := Option.map_eq_some_iff.1 hrow
      rw [extendsTip, hheight]
      exact ⟨b, hb, by rw [hprev, hhash]; rfl⟩
    have hends := hr.holds.processBlock_quiet hquiet
    rw [hr.next, ← hr.nextHeight] at hends
    obtain ⟨_, t, hrun, hsame, -⟩ := ok_of_wp hends
    exact ⟨ws ++ [w], t, .block h hext hrun, by rw [List.length_append, hlen]; rfl, hsame.trans hleaves⟩

end Replay

end Tacit
