import Tacit.Replay.Service
/-!
# The state and the tables agree (worker-relay/src/btc-pool-indexer.js:126-250)

A replica holds a history when its state stands at it and its tables are the log of its blocks. Every operation of the indexer leads
from a replica that holds a history to one that does, wherever it throws and whatever the database refuses.
-/
namespace Tacit

namespace Replay

open Prog

section

variable {P : Type} (L : Library P)

structure Holds (g : History) (log : List Entry) (r : Replica) : Prop where
  standing : Standing L g r.state
  logs : Logs L g log
  db : r.db = Tables.of log

variable {L} {g : History} {log : List Entry} {r : Replica}

theorem Holds.coherent (hr : Holds L g log r) : g.Coherent := hr.standing.rests.coherent

/-- The next block goes where the history ends. -/
theorem Holds.nextHeight (hr : Holds L g log r) : nextHeight g.start r.state = g.next := by
  rw [Replay.nextHeight]
  rcases hr.standing.tip with htip | ⟨htip, hblocks⟩
  · rw [htip, Option.map_some, Option.getD_some, Int.sub_add_cancel]
  · rw [htip, Option.map_none, Option.getD_none, History.next, hblocks, List.length_nil]
    omega

/-- The last block of a log stands below the next height. -/
theorem Holds.last (h : Holds L g log r) {last : Entry} (hlast : last ∈ log.getLast?) : r.db.block (g.next - 1) = some last.row ∧
    g.start < g.next := by
  have hlen := h.logs.length
  have hne : log ≠ [] := by
    rintro rfl
    cases hlast
  have hpos := List.length_pos_iff.2 hne
  have hindex : (g.next - 1 - g.start).toNat = log.length - 1 := by
    unfold History.next
    omega
  have hnext : g.start < g.next := by
    unfold History.next
    omega
  rw [h.db, h.logs.block, if_pos (by omega), hindex, ← List.getLast?_eq_getElem?, hlast]
  exact ⟨rfl, hnext⟩

theorem wp_onState {α : Type} {m : Run α} {E : Error → Replica → Prop} {Q : α → Replica → Prop} :
    wp False (onState m) r E Q ↔ wp False m r.state (fun e st => E e { r with state := st }) fun a st => Q a { r with state := st } :=
  wp_zoom

theorem wp_onTables {α : Type} {m : Prog Tables Error α} {E : Error → Replica → Prop} {Q : α → Replica → Prop} :
    wp False (onTables m) r E Q ↔ wp False m r.db (fun e db => E e { r with db := db }) fun a db => Q a { r with db := db } :=
  wp_zoom

/-- The rows read back are those of the tables. -/
def Faithful (read : Tables → Rows) : Prop := ∀ db, Tables.Snapshot db (read db)

theorem wp_reload {read : Tables → Rows} {E : Error → Replica → Prop} {Q : Unit → Replica → Prop} : wp False (reload L read) r E Q ↔
    wp False (restore L (read r.db)) .new (fun e _ => E e r) fun _ st => Q () { r with state := st } := by
  unfold wp reload
  cases restore L (read r.db) .new <;> rfl

theorem Logs.reload (hl : Logs L g log) (hg : g.Coherent) {st : BtcPoolState} {read : Tables → Rows} (hread : Faithful read) :
    wp False (reload L read) ⟨st, Tables.of log⟩ (fun _ _ => False) fun _ t => Holds L g log t := by
  rw [wp_reload]
  refine wp_mono (hl.restore hg (hread (Tables.of log))) id (fun _ _ => id) ?_
  rintro _ t ⟨ht, -⟩
  exact ⟨ht, hl, rfl⟩

/-! ## A rescan and a rollback -/

theorem Holds.rescan (hr : Holds L g log r) (hstart : 0 ≤ g.start) (io : Option Error) :
    wp False (rescan io) r (fun e t => io = some e ∧ t = r) fun _ t => Holds L ⟨g.start, []⟩ [] t := by
  have hg := hr.coherent
  obtain ⟨st, db⟩ := r
  obtain ⟨-, hlogs, rfl⟩ := hr
  have hwipe : Tables.of (log.take (-1 - g.start).toNat) = Tables.of [] := by
    rw [Int.toNat_of_nonpos (by omega), List.take_zero]
  have hdelete := hlogs.deleteFrom hg (-1)
  rw [hwipe] at hdelete
  rw [Replay.rescan, wp_bind, wp_onTables]
  refine wp_mono (transaction_spec (m := modify (deleteFrom (-1))) rfl io) id ?_ ?_
  · rintro e _ ⟨he, rfl⟩
    exact ⟨he, rfl⟩
  · rintro _ _ ⟨-, rfl⟩
    exact ⟨Standing.new, .nil, hdelete⟩

/-- **A rollback** leads to the blocks below its height, or to none when an undo record is missing. -/
theorem Holds.rollback (hr : Holds L g log r) (hstart : 0 ≤ g.start) {read : Tables → Rows} (hread : Faithful read) (io : Option Error)
    (height : Int) : wp False (rollback L io read height) r (fun _ t => Holds L g log t) fun _ t =>
      Holds L (g.below height) (log.take (height - g.start).toNat) t ∨
        Holds L ⟨g.start, []⟩ [] t ∧ ∃ h, height ≤ h ∧ h < g.next ∧ r.state.undo.has h = false := by
  have hg := hr.coherent
  obtain ⟨st₀, db⟩ := r
  obtain ⟨hstanding, hlogs, rfl⟩ := id hr
  rw [Replay.rollback, wp_bind, wp_attempt, wp_onState]
  refine wp_mono (hstanding.rollbackFrom height) id ?_ ?_
  · rintro _ _ ⟨rfl, h, rfl, hmissing⟩
    refine wp_mono (hr.rescan hstart io) id ?_ fun _ _ ht => .inr ⟨ht, h, hmissing⟩
    rintro _ t ⟨-, rfl⟩
    exact hr
  · rintro _ st hst
    dsimp only
    rw [wp_onThrow, wp_onTables]
    refine wp_mono (transaction_spec (m := modify (deleteFrom height)) rfl io) id ?_ ?_
    · rintro _ _ ⟨-, rfl⟩
      exact wp_mono (hlogs.reload hg hread) id (fun _ _ => False.elim) fun _ _ => id
    · rintro _ _ ⟨-, rfl⟩
      exact .inl ⟨hst, hlogs.below height, hlogs.deleteFrom hg height⟩

theorem Holds.checkReorg (hr : Holds L g log r) (hstart : 0 ≤ g.start) {read : Tables → Rows} (hread : Faithful read)
    (io : Option Error) (start chainTip : Int) (blockHash : Int → Except Error Word) :
    wp False (checkReorg L start chainTip blockHash io read) r (fun _ t => Holds L g log t) fun _ t =>
      ∃ n, Holds L (g.below (g.start + (n : Nat))) (log.take n) t := by
  have hsame : ∃ n, Holds L (g.below (g.start + (n : Nat))) (log.take n) r := by
    refine ⟨log.length, ?_⟩
    rw [History.below_of_next_le (by rw [hr.logs.length, History.next]), List.take_length]
    exact hr
  have hempty : ∀ t, Holds L ⟨g.start, []⟩ [] t → ∃ n, Holds L (g.below (g.start + (n : Nat))) (log.take n) t := by
    intro t ht
    refine ⟨0, ?_⟩
    have hnil : g.below (g.start + (0 : Nat)) = ⟨g.start, []⟩ := by simp [History.below]
    rwa [hnil, List.take_zero]
  unfold Replay.checkReorg
  rw [wp_bind, wp_get]
  cases htip : r.state.tip with
  | none => exact hsame
  | some tip =>
    dsimp only
    rw [wp_ite]
    refine ⟨fun _ => hsame, fun _ => ?_⟩
    simp only [wp_bind, wp_ofExcept, wp_ite]
    refine ⟨fun _ _ => hr, fun same _ => ⟨fun _ => hsame, fun _ => ⟨fun _ _ => hr, fun fork _ => ?_⟩⟩⟩
    cases fork with
    | none =>
      refine wp_mono (hr.rescan hstart io) id ?_ fun _ t => hempty t
      rintro _ t ⟨-, rfl⟩
      exact hr
    | some fork =>
      refine wp_mono (hr.rollback hstart hread io fork) id (fun _ _ => id) ?_
      rintro _ t (ht | ⟨ht, -⟩)
      · by_cases hle : g.start ≤ fork
        · refine ⟨(fork - g.start).toNat, ?_⟩
          have hheight : g.start + ((fork - g.start).toNat : Int) = fork := by omega
          rwa [hheight]
        · have hzero : (fork - g.start).toNat = 0 := by omega
          rw [hzero, List.take_zero] at ht
          have hnil : g.below fork = ⟨g.start, []⟩ := by simp [History.below, hzero]
          exact hempty t (hnil ▸ ht)
      · exact hempty t ht

end

section

variable {P : Type} [AddCommGroup P] [DecidableEq P] {L : Library P} {g : History} {log : List Entry} {r : Replica}

/-! ## A block -/

/-- **A block** is replayed and committed, or leaves nothing behind. It fails where its replay does, or where the database refuses. -/
theorem Holds.processBlock (hr : Holds L g log r) (w : Work) (io : Option Error) :
    wp False (processBlock L w io g.next) r
      (fun err t => Holds L g log t ∧ (io = some err ∨ ∃ u, replayOne L w g.next r.state = .err err u)) fun _ t =>
      io = none ∧ ∃ e, replayOne L w g.next r.state = .ok e t.state ∧ Holds L (g.push e.block) (log ++ [e]) t ∧
        e.row.hash = w.block.header.hash := by
  obtain ⟨st₀, db⟩ := r
  obtain ⟨hstanding, hlogs, rfl⟩ := hr
  obtain ⟨_, st₁, hbegin, hopen⟩ := ok_of_wp hstanding.beginBlock
  rw [Replay.processBlock, wp_bind, wp_onState, wp_ran hbegin, wp_bind, wp_onThrow, wp_onState]
  have happly := @Opens.applyBlock _ _ _ L _ _ w.answers ⟨_, hopen⟩ w.block.txs
  cases hrun : applyBlock L w.answers w.block.txs st₁ with
  | panic => exact (ne_panic_of_wp happly hrun).elim
  | err err st₂ =>
    obtain ⟨b, hopen₂⟩ := wp_of_err happly hrun
    have hreplay : replayOne L w g.next st₀ = .err err st₂ := by
      rw [replayOne, bind_of_ok hbegin, bind_of_err hrun]
    refine (wp_ended hrun).2 ?_
    rw [wp_onState]
    exact wp_mono hopen₂.abortBlock id (fun _ _ => False.elim) fun _ st₃ hst₃ => ⟨⟨hst₃, hlogs, rfl⟩, .inr ⟨st₂, hreplay⟩⟩
  | ok end₂ st₂ =>
    obtain ⟨d, envelopes⟩ := end₂
    obtain ⟨b, ⟨hst₂, hundo⟩, hplaces, hheight, hroot, hleaves, hnullifiers, hexits⟩ := wp_of_ok happly hrun
    have hblock : (Entry.of d w.block.header.hash envelopes).block = b := by rw [Entry.of, hleaves, hnullifiers, hexits]
    rw [← hblock] at hst₂ hroot
    have hlogs' := hlogs.push (e := Entry.of d w.block.header.hash envelopes) hheight hroot hplaces
    have hreplay : replayOne L w g.next st₀ = .ok (Entry.of d w.block.header.hash envelopes) st₂ :=
      bind_eq_ok.2 ⟨_, _, hbegin, bind_eq_ok.2 ⟨_, _, hrun, rfl⟩⟩
    rw [wp_ran hrun]
    dsimp only
    rw [wp_onThrow, wp_onTables]
    refine wp_mono (hlogs'.commitBlock hst₂.rests.coherent io) id ?_ ?_
    · rintro _ _ ⟨hio, rfl⟩
      rw [wp_onState]
      refine wp_mono (hst₂.rollbackFrom g.next) id ?_ ?_
      · rintro _ _ ⟨-, h, -, hle, hlt, hnone⟩
        rw [History.next_push] at hlt
        obtain rfl : h = g.next := by omega
        rw [hundo] at hnone
        cases hnone
      · rintro _ st₃ hst₃
        rw [History.below_push_next] at hst₃
        exact ⟨⟨hst₃, hlogs, rfl⟩, .inl hio⟩
    · rintro _ _ ⟨hio, rfl⟩
      exact ⟨hio, _, hreplay, ⟨hst₂, hlogs', rfl⟩, rfl⟩

/-- **A block without envelopes of the pool** is processed unless the database refuses, and adds no row but its own. -/
theorem Holds.processBlock_quiet (hr : Holds L g log r) {w : Work} (hquiet : Quiet w.block.txs) :
    wp False (Replay.processBlock L w none g.next) r (fun _ _ => False) fun _ t =>
      t.db.leaves = r.db.leaves ∧ t.db.nullifiers = r.db.nullifiers ∧ t.db.exits = r.db.exits := by
  have hone : wp False (replayOne L w g.next) r.state (fun _ _ => False) fun e _ => e.block = ⟨[], [], []⟩ := by
    rw [replayOne, wp_bind]
    refine wp_mono hr.standing.beginBlock id (fun _ _ => id) ?_
    rintro _ st hst
    rw [wp_bind]
    refine wp_mono (hst.applyBlock_quiet hquiet) id (fun _ _ => id) ?_
    rintro ⟨d, envelopes⟩ _ ⟨hleaves, hnullifiers, hexits⟩
    rw [wp_pure, Entry.of, hleaves, hnullifiers, hexits]
  refine wp_mono (hr.processBlock w none) id ?_ ?_
  · rintro err _ ⟨-, hio | ⟨u, hu⟩⟩
    · cases hio
    · exact wp_of_err hone hu
  · rintro _ t ⟨-, e, he, ht, -⟩
    have hempty := wp_of_ok hone he
    rw [ht.db, hr.db, Tables.of_concat, hempty, List.append_nil, List.append_nil, List.append_nil]
    exact ⟨rfl, rfl, rfl⟩


end

end Replay

end Tacit
