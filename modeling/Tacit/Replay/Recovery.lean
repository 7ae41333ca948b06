import Tacit.Replay.Runs
/-!
# What a run leaves behind (worker-relay/src/btc-pool-indexer.js:126-250)

The state and the tables of any run are those of one replay of its blocks, so a restart loses nothing, a commit breaks no constraint,
and the tables are a ledger without gaps or double spends.
-/
namespace Tacit

namespace Replay

open Prog Merkle

section

variable {P : Type} (L : Library P)

/-- The root of the tree over leaf rows. -/
def leavesRoot (leaves : List LeafRecord) : Bytes :=
  bigTo32 (treeRoot L.poseidon2 TREE_DEPTH (pad 0 (leaves.map fun l => bytesToBig l.leaf)))

variable {L} {g : History} {log : List Entry}

/-- A root is that of the leaves up to its height. -/
theorem History.rootAt_eq_leavesRoot (hg : g.Coherent) (a : Int) :
    g.rootAt L a = leavesRoot L (g.leaves.filter fun l => l.height ≤ a) := by
  rw [leavesRoot, ← hg.leaves_below]
  rfl

theorem Logs.root_at (hl : Logs L g log) (a : Int) :
    ((Tables.of log).block a).map BlockRow.root = if g.start ≤ a ∧ a < g.next then some (g.rootAt L a) else none := by
  by_cases ha : g.start ≤ a ∧ a < g.next
  · obtain ⟨b, hb, rfl⟩ := hl.exists_block ha.1 ha.2
    have hfound : (Tables.of log).block b.height = some b := (find?_key hl.blocks_nodup).2 ⟨hb, rfl⟩
    rw [if_pos ha, hfound, Option.map_some, (hl.mem_blocks hb).2]
  · rw [if_neg ha, Option.map_eq_none_iff]
    cases hb : (Tables.of log).block a with
    | none => rfl
    | some b =>
      obtain ⟨hmem, rfl⟩ := (find?_key hl.blocks_nodup).1 hb
      exact (ha (hl.mem_blocks hmem).1).elim

end

section

variable {P : Type} [AddCommGroup P] [DecidableEq P] {L : Library P} {sha256d : Bytes → Word} {start : Int} {ws : List Work} {r : Replica}

/-- **A restart** from any run's tables loses nothing, and can go back `UNDO_DEPTH` blocks. -/
theorem Indexes.restarts (hstart : 0 ≤ start) (h : Indexes L sha256d start ws r) {rows : Rows} (hrows : Tables.Snapshot r.db rows) :
    ∃ st, restore L rows .new = .ok () st ∧ Alike st r.state ∧ ∀ n ≤ ws.length, ws.length ≤ n + UNDO_DEPTH →
      ∃ t log u, rollbackFrom L (start + n) st = .ok () t ∧ replayAll L start (ws.take n) .new = .ok log u ∧ Alike t u := by
  obtain ⟨g, log, hr⟩ := h.replayed hstart
  rw [hr.holds.db] at hrows
  obtain ⟨_, st, hrestore, hst, hback⟩ := ok_of_wp (hr.holds.logs.restore hr.holds.coherent hrows)
  refine ⟨st, hrestore, hst.alike hr.holds.standing, fun n hn hdeep => ?_⟩
  have hnext := hr.next
  have hundone : wp False (rollbackFrom L (start + n)) st (fun _ _ => False) fun _ t => Standing L (g.below (start + n)) t := by
    refine wp_mono (hst.rollbackFrom (start + n)) id ?_ fun _ _ => id
    rintro _ t ⟨-, k, -, hle, hlt, hmissing⟩
    rw [hback k (by rw [hr.first]; omega) (by omega) hlt] at hmissing
    cases hmissing
  obtain ⟨_, t, hrollback, ht⟩ := ok_of_wp hundone
  obtain ⟨u, hu, hustanding⟩ := hr.standing_take n
  exact ⟨t, _, u, hrollback, hu, ht.alike hustanding⟩

theorem Indexes.restarts_plain : ∃ r, Indexes generatorOnly Bitcoin.codeSha 0 [plainWork] r ∧ ∃ st,
    restore generatorOnly r.db.read .new = .ok () st ∧ Alike st r.state ∧ ∀ n : Nat, n ≤ 1 → ((1 : Nat) : Int) ≤ n + UNDO_DEPTH → ∃ t log u,
      rollbackFrom generatorOnly (0 + n) st = .ok () t ∧ replayAll generatorOnly 0 ([plainWork].take n) .new = .ok log u ∧ Alike t u := by
  obtain ⟨r, hr, -⟩ := plain_run
  exact ⟨r, hr, Indexes.restarts le_rfl hr r.db.snapshot_read⟩

/-- **A block is processed** exactly when it can be replayed after the blocks that stand, unless the database refuses. -/
theorem Indexes.processBlock_iff (hstart : 0 ≤ start) (h : Indexes L sha256d start ws r) (w : Work) (io : Option Error) :
    (∃ t, Replay.processBlock L w io (nextHeight start r.state) r = .ok () t) ↔
      io = none ∧ ∃ log st, replayAll L start (ws ++ [w]) .new = .ok log st := by
  obtain ⟨g, log, hr⟩ := h.replayed hstart
  obtain ⟨st, hst, hstanding⟩ := hr.standing
  have hends := hr.holds.processBlock w io
  rw [hr.next, ← hr.nextHeight] at hends
  constructor
  · rintro ⟨t, hrun⟩
    obtain ⟨hio, e, hone, -⟩ := wp_of_ok hends hrun
    rw [hr.nextHeight, ← hr.next] at hone
    obtain ⟨-, u, hu, -⟩ := hr.holds.standing.replayOne hstanding hone
    exact ⟨hio, _, u, replayAll_concat hst (hr.next ▸ hu)⟩
  · rintro ⟨rfl, log', st', hall⟩
    obtain ⟨e, hone⟩ := replayOne_of_concat hst hall
    rw [← hr.next] at hone
    obtain ⟨-, u, hu, -⟩ := hstanding.replayOne hr.holds.standing hone
    rw [hr.next, ← hr.nextHeight] at hu
    cases hrun : Replay.processBlock L w none (nextHeight start r.state) r with
    | panic => exact (ne_panic_of_wp hends hrun).elim
    | err err t =>
      rcases (wp_of_err hends hrun).2 with hio | ⟨v, hv⟩
      · cases hio
      · rw [hu] at hv
        cases hv
    | ok _ t => exact ⟨t, rfl⟩

theorem Indexes.processBlock_iff_plain : ∃ r, Indexes generatorOnly Bitcoin.codeSha 0 [plainWork] r ∧ ∀ io,
    ((∃ t, Replay.processBlock generatorOnly plainWork io (nextHeight 0 r.state) r = .ok () t) ↔
      io = none ∧ ∃ log st, replayAll generatorOnly 0 ([plainWork] ++ [plainWork]) .new = .ok log st) := by
  obtain ⟨r, hr, -⟩ := plain_run
  exact ⟨r, hr, fun io => Indexes.processBlock_iff le_rfl hr plainWork io⟩

/-- **A block without envelopes of the pool** never holds a run up. -/
theorem Indexes.quiet_block (hstart : 0 ≤ start) (h : Indexes L sha256d start ws r) {w : Work} (hquiet : Quiet w.block.txs) :
    ∃ t, Replay.processBlock L w none (nextHeight start r.state) r = .ok () t ∧ t.db.leaves = r.db.leaves ∧
      t.db.nullifiers = r.db.nullifiers ∧ t.db.exits = r.db.exits := by
  obtain ⟨g, log, hr⟩ := h.replayed hstart
  have hends := hr.holds.processBlock_quiet hquiet
  rw [hr.next, ← hr.nextHeight] at hends
  obtain ⟨_, t, hrun, ht⟩ := ok_of_wp hends
  exact ⟨t, hrun, ht⟩

theorem Indexes.quiet_block_plain : ∃ r, Indexes generatorOnly Bitcoin.codeSha 0 [plainWork] r ∧ ∃ t,
    Replay.processBlock generatorOnly plainWork none (nextHeight 0 r.state) r = .ok () t ∧ t.db.leaves = r.db.leaves ∧
      t.db.nullifiers = r.db.nullifiers ∧ t.db.exits = r.db.exits := by
  obtain ⟨r, hr, -⟩ := plain_run
  exact ⟨r, hr, Indexes.quiet_block le_rfl hr plainWork_quiet⟩

variable (L start r) in
/-- The tables as a ledger, and the state as an index of it. -/
structure Ledger : Prop where
  heights : r.db.blocks.map BlockRow.height = (List.range r.db.blocks.length).map fun i : Nat => start + i
  indices : r.db.leaves.map LeafRecord.leafIndex = List.range r.db.leaves.length
  dated : ∀ l ∈ r.db.leaves, ∃ b ∈ r.db.blocks, b.height = l.height
  roots : ∀ b ∈ r.db.blocks, b.root = leavesRoot L (r.db.leaves.filter fun l => l.height ≤ b.height)
  spent_once : (r.db.nullifiers.map NullifierRecord.nf).Nodup
  words : ∀ n ∈ r.db.nullifiers, n.nf.length = 64
  exits_once : (r.db.exits.map ExitRecord.outpoint).Nodup
  envelopes_once : (r.db.envelopes.map placeAt).Nodup
  tree : r.state.tree = .of L (r.db.leaves.map fun l => bytesToBig l.leaf)
  nullifiers : ∀ nf n, r.state.nullifiers.get? nf = some n ↔ n ∈ r.db.nullifiers ∧ n.nf = nf
  exits : ∀ k x, r.state.exits.get? k = some x ↔ x ∈ r.db.exits ∧ x.key = k
  anchors : ∀ a, r.state.roots.get? a =
    if nextHeight start r.state - ANCHOR_WINDOW ≤ a then (r.db.block a).map BlockRow.root else none
  closed : r.state.pending = none

theorem Replayed.is_ledger {g : History} {log : List Entry} (hr : Replayed L sha256d start ws r g log) : Ledger L start r := by
  have hg := hr.holds.coherent
  have hl := hr.holds.logs
  have hst := hr.holds.standing
  have hleaves : r.db.leaves = g.leaves := by rw [hr.holds.db, hl.leaves]
  refine ⟨?_, ?_, ?_, ?_, ?_, ?_, ?_, ?_, ?_, ?_, ?_, ?_, hst.rests.closed⟩
  · rw [hr.holds.db, Tables.of, List.map_map, List.length_map, ← hr.first]
    exact hl.heights
  · rw [hleaves]
    exact hg.indices
  · rw [hleaves, hr.holds.db]
    exact fun l hl' => hl.exists_block (hg.leaves_stamped.le l hl') (hg.leaves_stamped.lt l hl')
  · intro b hb
    rw [hr.holds.db] at hb
    rw [hleaves, (hl.mem_blocks hb).2, History.rootAt_eq_leavesRoot hg]
  · rw [hr.holds.db]
    exact hl.nullifiers_nodup hg
  · rw [hr.holds.db, hl.nullifiers]
    exact hg.words
  · rw [hr.holds.db]
    exact hl.exits_nodup hg
  · rw [hr.holds.db]
    exact hl.places_nodup
  · rw [hleaves]
    exact hst.rests.content.tree
  · intro nf n
    rw [InsertionMap.get?_eq_some, hst.rests.content.nullifiers.mem_iff, hr.holds.db, hl.nullifiers, List.mem_map]
    constructor
    · rintro ⟨m, hm, heq⟩
      cases heq
      exact ⟨hm, rfl⟩
    · rintro ⟨hn, rfl⟩
      exact ⟨n, hn, rfl⟩
  · intro k x
    rw [InsertionMap.get?_eq_some, hst.rests.content.exits.mem_iff, hr.holds.db, hl.exits, List.mem_map]
    constructor
    · rintro ⟨y, hy, heq⟩
      cases heq
      exact ⟨hy, rfl⟩
    · rintro ⟨hx, rfl⟩
      exact ⟨x, hx, rfl⟩
  · intro a
    rw [hst.rests.records.roots, hr.nextHeight, ← hr.next, hr.holds.db, hl.root_at]
    have hanchor : g.Anchor a ↔ g.next - ANCHOR_WINDOW ≤ a ∧ g.start ≤ a ∧ a < g.next := by
      unfold History.Anchor
      omega
    rw [if_congr hanchor rfl rfl, ite_and]

/-- **Every run** leaves a ledger without gaps, double spends or stale roots. -/
theorem Indexes.ledger (hstart : 0 ≤ start) (h : Indexes L sha256d start ws r) : Ledger L start r := by
  obtain ⟨g, log, hr⟩ := h.replayed hstart
  exact hr.is_ledger

theorem Indexes.ledger_plain : ∃ r, Indexes generatorOnly Bitcoin.codeSha 0 [plainWork] r ∧ Ledger generatorOnly 0 r := by
  obtain ⟨r, hr, -⟩ := plain_run
  exact ⟨r, hr, Indexes.ledger le_rfl hr⟩

end

end Replay

end Tacit
