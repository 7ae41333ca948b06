import Tacit.Lib.Tables
import Tacit.Lib.Zoom
import Tacit.Replay.Carriers
/-!
# The indexer's tables (worker-relay/src/lib/btc-pool-store.js)

Every row carries the height of its block. A block is one transaction of inserts, a rollback one of deletes by height; a transaction
that throws leaves the tables as they were. A column of hex is the bytes it encodes, and the columns `meta` and the relayer's tables
are not here. The tables hold a log of blocks if they are what the inserts of its blocks left (`Tables.of`).
-/
namespace Tacit

namespace Replay

open Prog

structure BlockRow where
  height : Int
  hash : Word
  root : Bytes

/-- The tables (:41-58); a row of the envelopes with its height. -/
@[ext] structure Tables where
  blocks : List BlockRow
  leaves : List LeafRecord
  nullifiers : List NullifierRecord
  exits : List ExitRecord
  envelopes : List (Int × EnvelopeRow)

/-- The primary key of the exits. -/
def ExitRecord.outpoint (x : ExitRecord) : String × Nat := (x.txid, x.vout)

/-- The primary key of the envelopes. -/
def placeAt (r : Int × EnvelopeRow) : Int × Nat × Nat := (r.1, r.2.place)

/-- A constraint of a table that an insert breaks. -/
def unique (columns : String) : Error := .message ("UNIQUE constraint failed: " ++ columns)

/-- A transaction that the database may refuse to commit. -/
def transaction (io : Option Error) (m : Prog Tables Error Unit) : Prog Tables Error Unit :=
  atomically do
    m
    ofExcept (io.elim (.ok ()) .error)

/-- `commitBlock` (:82). -/
def commitBlock (io : Option Error) (d : Delta) (hash : Word) (envelopes : List EnvelopeRow) : Prog Tables Error Unit :=
  transaction io do
    zoom Tables.blocks (fun t db => { db with blocks := t })
      (insertRows BlockRow.height (unique "blocks.height") [⟨d.height, hash, d.root⟩])
    zoom Tables.leaves (fun t db => { db with leaves := t })
      (insertRows LeafRecord.leafIndex (unique "leaves.idx") d.leaves)
    zoom Tables.nullifiers (fun t db => { db with nullifiers := t })
      (insertRows NullifierRecord.nf (unique "nullifiers.nf") d.nullifiers)
    zoom Tables.exits (fun t db => { db with exits := t })
      (insertRows ExitRecord.outpoint (unique "exits.txid, exits.vout") d.exits)
    zoom Tables.envelopes (fun t db => { db with envelopes := t })
      (insertRows placeAt (unique "envelopes.height, envelopes.tx_index, envelopes.vin") (envelopes.map (Prod.mk d.height)))

/-- `DELETE … WHERE height >= ?` of every table (:80). -/
def deleteFrom (h : Int) (db : Tables) : Tables where
  blocks := db.blocks.filter fun r => r.height < h
  leaves := db.leaves.filter fun r => r.height < h
  nullifiers := db.nullifiers.filter fun r => r.height < h
  exits := db.exits.filter fun r => r.height < h
  envelopes := db.envelopes.filter fun r => r.1 < h

namespace Tables

def empty : Tables := ⟨[], [], [], [], []⟩

/-- `rollbackFrom` (:111). -/
def rollbackFrom (io : Option Error) (height : Int) : Prog Tables Error Unit := transaction io (modify (deleteFrom height))

/-- `wipe` (:112). -/
def wipe (io : Option Error) : Prog Tables Error Unit := transaction io (modify (deleteFrom (-1)))

/-- `tip` (:63): the block with the greatest height. -/
def tip (db : Tables) : Option BlockRow := (orderBy BlockRow.height db.blocks).getLast?

/-- `block` (:64). -/
def block (db : Tables) (height : Int) : Option BlockRow := db.blocks.find? fun r => r.height = height

def leafRow (l : LeafRecord) : LeafRow := ⟨l.leafIndex, l.leaf, l.height⟩

def rootOf (r : BlockRow) : Int × Bytes := (r.height, r.root)

/-- `snapshot` (:130); a `SELECT` without an order returns its rows in any. -/
structure Snapshot (db : Tables) (r : Rows) : Prop where
  tip : r.tip = db.tip.map BlockRow.height
  leaves : r.leaves = if db.tip.isSome then (orderBy (fun l : LeafRecord => (l.leafIndex : Int)) db.leaves).map leafRow else []
  nullifiers : if db.tip.isSome then r.nullifiers.Perm db.nullifiers else r.nullifiers = []
  exits : if db.tip.isSome then r.exits.Perm db.exits else r.exits = []
  roots : r.roots = db.tip.elim [] fun t =>
    (orderBy BlockRow.height (db.blocks.filter fun b => t.height - UNDO_DEPTH - ANCHOR_WINDOW ≤ b.height)).map rootOf

/-- The rows as they stand. -/
def read (db : Tables) : Rows where
  tip := db.tip.map BlockRow.height
  leaves := if db.tip.isSome then (orderBy (fun l : LeafRecord => (l.leafIndex : Int)) db.leaves).map leafRow else []
  nullifiers := if db.tip.isSome then db.nullifiers else []
  exits := if db.tip.isSome then db.exits else []
  roots := db.tip.elim [] fun t =>
    (orderBy BlockRow.height (db.blocks.filter fun b => t.height - UNDO_DEPTH - ANCHOR_WINDOW ≤ b.height)).map rootOf

theorem snapshot_read (db : Tables) : db.Snapshot db.read := by
  refine ⟨rfl, rfl, ?_, ?_, rfl⟩
  all_goals
    unfold read
    split_ifs <;> rfl

end Tables

/-! ## A log of blocks -/

/-- What the commit of a block inserted. -/
structure Entry where
  row : BlockRow
  block : Block
  envelopes : List EnvelopeRow

def Entry.envelopesAt (e : Entry) : List (Int × EnvelopeRow) := e.envelopes.map (Prod.mk e.row.height)

def Tables.of (log : List Entry) : Tables where
  blocks := log.map Entry.row
  leaves := log.flatMap fun e => e.block.leaves
  nullifiers := log.flatMap fun e => e.block.nullifiers
  exits := log.flatMap fun e => e.block.exits
  envelopes := log.flatMap Entry.envelopesAt

section

variable {P : Type} (L : Library P)

/-- A log of the blocks of a history. -/
structure Logs (g : History) (log : List Entry) : Prop where
  blocks : log.map Entry.block = g.blocks
  rows : ∀ (i : Nat) e, log[i]? = some e → e.row.height = g.start + i ∧ e.row.root = g.rootAt L (g.start + i)
  places : ∀ e ∈ log, (e.envelopes.map EnvelopeRow.place).Nodup

variable {L} {g : History} {log : List Entry} {e : Entry} {h : Int}

theorem Logs.length (hl : Logs L g log) : log.length = g.blocks.length := by rw [← hl.blocks, List.length_map]

theorem Logs.leaves (hl : Logs L g log) : (Tables.of log).leaves = g.leaves := by
  rw [History.leaves, ← hl.blocks, List.flatMap_map]
  rfl

theorem Logs.nullifiers (hl : Logs L g log) : (Tables.of log).nullifiers = g.nullifiers := by
  rw [History.nullifiers, ← hl.blocks, List.flatMap_map]
  rfl

theorem Logs.exits (hl : Logs L g log) : (Tables.of log).exits = g.exits := by
  rw [History.exits, ← hl.blocks, List.flatMap_map]
  rfl

theorem Logs.nil {start : Int} : Logs L ⟨start, []⟩ [] :=
  ⟨rfl, fun _ _ h => (Option.some_ne_none _ h.symm).elim, fun _ h => (List.not_mem_nil h).elim⟩

theorem Logs.at_entry (hl : Logs L g log) (i : Nat) (he : log[i]? = some e) : g.blocks[i]? = some e.block := by
  rw [← hl.blocks, List.getElem?_map, he, Option.map_some]

theorem Logs.push (hl : Logs L g log) (hheight : e.row.height = g.next) (hroot : e.row.root = (g.push e.block).rootAt L g.next)
    (hplaces : (e.envelopes.map EnvelopeRow.place).Nodup) : Logs L (g.push e.block) (log ++ [e]) where
  blocks := by
    rw [List.map_append, hl.blocks]
    rfl
  rows i e' he' := by
    have hnext : g.next = g.start + log.length := by rw [hl.length, History.next]
    rw [List.getElem?_append] at he'
    split_ifs at he' with hi
    · obtain ⟨hrow, hroot'⟩ := hl.rows i e' he'
      refine ⟨hrow, hroot'.trans (History.rootAt_push ?_).symm⟩
      omega
    · obtain ⟨hlt, heq⟩ := List.getElem?_eq_some_iff.1 he'
      obtain rfl := List.mem_singleton.1 (heq ▸ List.getElem_mem hlt)
      rw [List.length_singleton] at hlt
      obtain rfl : i = log.length := by omega
      exact ⟨hheight.trans hnext, hnext ▸ hroot⟩
  places e' he' := by
    rcases List.mem_append.1 he' with he' | he'
    · exact hl.places e' he'
    · rw [List.mem_singleton.1 he']
      exact hplaces

theorem Logs.below (hl : Logs L g log) (h : Int) : Logs L (g.below h) (log.take (h - g.start).toNat) where
  blocks := by
    rw [List.map_take, hl.blocks]
    rfl
  rows i e' he' := by
    rw [List.getElem?_take] at he'
    split_ifs at he' with hi
    obtain ⟨hrow, hroot⟩ := hl.rows i e' he'
    refine ⟨hrow, hroot.trans (History.rootAt_below ?_).symm⟩
    show g.start + i < h
    omega
  places e' he' := hl.places e' (List.mem_of_mem_take he')

/-! ## Rows in the tables of a log -/

theorem Logs.heights (hl : Logs L g log) : log.map (fun e => e.row.height) = (List.range log.length).map fun i : Nat => g.start + i := by
  refine List.ext_getElem? fun i => ?_
  rw [List.getElem?_map, List.getElem?_map]
  by_cases hi : i < log.length
  · rw [List.getElem?_range hi, List.getElem?_eq_getElem hi, Option.map_some, Option.map_some,
      (hl.rows i _ (List.getElem?_eq_getElem hi)).1]
  · rw [List.getElem?_eq_none (by omega), List.getElem?_eq_none (by simpa using Nat.le_of_not_lt hi)]
    rfl

theorem Logs.heights_nodup (hl : Logs L g log) : (log.map fun e => e.row.height).Nodup := by
  rw [hl.heights]
  exact List.nodup_range.map fun i j hij => by
    have hij : g.start + (i : Int) = g.start + j := hij
    omega

theorem Logs.blocks_stamped (hl : Logs L g log) : Stamped BlockRow.height (fun e : Entry => [e.row]) g.start log :=
  fun i e he _ hr => List.mem_singleton.1 hr ▸ (hl.rows i e he).1

theorem Logs.envelopes_stamped (hl : Logs L g log) : Stamped Prod.fst Entry.envelopesAt g.start log := by
  intro i e he r hr
  obtain ⟨_, -, rfl⟩ := List.mem_map.1 hr
  exact (hl.rows i e he).1

theorem of_blocks (log : List Entry) : (Tables.of log).blocks = log.flatMap fun e => [e.row] := List.map_eq_flatMap

/-- **A delete by height** leaves the tables of the blocks below it. -/
theorem Logs.deleteFrom (hl : Logs L g log) (hg : g.Coherent) (h : Int) :
    deleteFrom h (Tables.of log) = Tables.of (log.take (h - g.start).toNat) := by
  have hleaves : Stamped LeafRecord.height (fun e : Entry => e.block.leaves) g.start log :=
    fun i e he => (hg.heights i _ (hl.at_entry i he)).leaves
  have hnullifiers : Stamped NullifierRecord.height (fun e : Entry => e.block.nullifiers) g.start log :=
    fun i e he => (hg.heights i _ (hl.at_entry i he)).nullifiers
  have hexits : Stamped ExitRecord.height (fun e : Entry => e.block.exits) g.start log :=
    fun i e he => (hg.heights i _ (hl.at_entry i he)).exits
  have hblocks : ((Tables.of log).blocks.filter fun r => r.height < h) = (Tables.of (log.take (h - g.start).toNat)).blocks := by
    rw [of_blocks, of_blocks]
    exact hl.blocks_stamped.filter_lt
  exact Tables.ext hblocks hleaves.filter_lt hnullifiers.filter_lt hexits.filter_lt hl.envelopes_stamped.filter_lt

/-! ## The keys of the tables of a log -/

theorem Logs.blocks_nodup (hl : Logs L g log) : ((Tables.of log).blocks.map BlockRow.height).Nodup := by
  rw [Tables.of, List.map_map]
  exact hl.heights_nodup

theorem Logs.leaves_nodup (hl : Logs L g log) (hg : g.Coherent) : ((Tables.of log).leaves.map LeafRecord.leafIndex).Nodup := by
  rw [hl.leaves, hg.indices]
  exact List.nodup_range

theorem Logs.nullifiers_nodup (hl : Logs L g log) (hg : g.Coherent) : ((Tables.of log).nullifiers.map NullifierRecord.nf).Nodup := by
  rw [hl.nullifiers]
  exact hg.nullifiers_nodup

theorem Logs.exits_nodup (hl : Logs L g log) (hg : g.Coherent) : ((Tables.of log).exits.map ExitRecord.outpoint).Nodup := by
  refine List.Nodup.of_map (fun o => outKey o.1 o.2) ?_
  rw [hl.exits, List.map_map]
  exact hg.exits_nodup

theorem Logs.places_nodup (hl : Logs L g log) : ((Tables.of log).envelopes.map placeAt).Nodup := by
  rw [Tables.of, List.map_flatMap, List.nodup_flatMap]
  constructor
  · intro e he
    have hmap : e.envelopesAt.map placeAt = (e.envelopes.map EnvelopeRow.place).map (Prod.mk e.row.height) := by
      rw [Entry.envelopesAt, List.map_map, List.map_map]
      rfl
    rw [hmap]
    exact (hl.places e he).map (Prod.mk_right_injective _)
  · refine (List.pairwise_map.1 hl.heights_nodup).imp fun {e e'} hne => ?_
    refine List.disjoint_left.2 ?_
    intro place hp hp'
    obtain ⟨r, hr, rfl⟩ := List.mem_map.1 hp
    obtain ⟨r', hr', heq⟩ := List.mem_map.1 hp'
    obtain ⟨row, -, rfl⟩ := List.mem_map.1 hr
    obtain ⟨row', -, rfl⟩ := List.mem_map.1 hr'
    exact hne (congrArg Prod.fst heq).symm

/-- What a block's commit inserts. -/
def Entry.of (d : Delta) (hash : Word) (envelopes : List EnvelopeRow) : Entry :=
  ⟨⟨d.height, hash, d.root⟩, ⟨d.leaves, d.nullifiers, d.exits⟩, envelopes⟩

theorem Tables.of_concat (log : List Entry) (e : Entry) : Tables.of (log ++ [e]) =
    ⟨(of log).blocks ++ [e.row], (of log).leaves ++ e.block.leaves, (of log).nullifiers ++ e.block.nullifiers,
      (of log).exits ++ e.block.exits, (of log).envelopes ++ e.envelopesAt⟩ := by
  simp only [Tables.of, List.map_append, List.map_cons, List.map_nil, List.flatMap_append, List.flatMap_singleton]

/-- A transaction that runs well is committed or leaves nothing behind. -/
theorem transaction_spec {m : Prog Tables Error Unit} {db t : Tables} (hm : m db = .ok () t) (io : Option Error) :
    wp False (transaction io m) db (fun e u => io = some e ∧ u = db) fun _ u => io = none ∧ u = t := by
  rw [transaction, wp_atomically, wp_bind, wp_ran hm]
  cases io with
  | none => exact ⟨rfl, rfl⟩
  | some e => exact ⟨rfl, rfl⟩

/-- **A commit** breaks no constraint: it adds the block to the tables, unless the database refuses. -/
theorem Logs.commitBlock {d : Delta} {hash : Word} {envelopes : List EnvelopeRow}
    (hl : Logs L (g.push (Entry.of d hash envelopes).block) (log ++ [Entry.of d hash envelopes]))
    (hg : (g.push (Entry.of d hash envelopes).block).Coherent) (io : Option Error) :
    wp False (commitBlock io d hash envelopes) (Tables.of log) (fun e db => io = some e ∧ db = Tables.of log)
      fun _ db => io = none ∧ db = Tables.of (log ++ [Entry.of d hash envelopes]) := by
  have hend := Tables.of_concat log (Entry.of d hash envelopes)
  have hblocks : (((Tables.of log).blocks ++ [BlockRow.mk d.height hash d.root]).map BlockRow.height).Nodup := by
    have h := hl.blocks_nodup
    rwa [hend] at h
  have hleaves : (((Tables.of log).leaves ++ d.leaves).map LeafRecord.leafIndex).Nodup := by
    have h := hl.leaves_nodup hg
    rwa [hend] at h
  have hnullifiers : (((Tables.of log).nullifiers ++ d.nullifiers).map NullifierRecord.nf).Nodup := by
    have h := hl.nullifiers_nodup hg
    rwa [hend] at h
  have hexits : (((Tables.of log).exits ++ d.exits).map ExitRecord.outpoint).Nodup := by
    have h := hl.exits_nodup hg
    rwa [hend] at h
  have hplaces : (((Tables.of log).envelopes ++ envelopes.map (Prod.mk d.height)).map placeAt).Nodup := by
    have h := hl.places_nodup
    rwa [hend] at h
  have hrun : ∀ {ρ κ : Type} [DecidableEq κ] {key : ρ → κ} {err : Error} {rows table : List ρ} {E : Error → List ρ → Prop}
      {Q : Unit → List ρ → Prop}, ((table ++ rows).map key).Nodup →
      (wp False (insertRows key err rows) table E Q ↔ Q () (table ++ rows)) := fun h => wp_ran (insertRows_fresh h)
  refine transaction_spec ?_ io
  rw [ok_iff_wp]
  simp only [wp_bind, wp_zoom, hrun hblocks, hrun hleaves, hrun hnullifiers, hrun hexits, hrun hplaces, hend]
  exact ⟨trivial, rfl⟩

end

end Replay

end Tacit
