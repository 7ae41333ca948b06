import Tacit.Replay.Store
/-!
# A state restored from the tables (worker/src/btc-shielded-pool.js:617-668, worker-relay/src/lib/btc-pool-store.js:130-142)

The rows of a log's tables, read back in any order, restore a state that stands at the history; its undo records reach back
`UNDO_DEPTH` blocks, or to the first.
-/
namespace Tacit

namespace Replay

open Prog Merkle

section

variable {P : Type} {L : Library P} {g : History} {log : List Entry} {st : BtcPoolState} {r : Rows} {h : Int}

/-! ## The rows -/

theorem firstLeafAt_eq (heights : List Int) (h : Int) (lo hi : Nat) :
    firstLeafAt heights h lo hi = partitionPoint (fun m => heights.getD m 0 < h) lo hi := by
  induction lo, hi using firstLeafAt.induct heights h with
  | case1 lo hi hlt m hm ih => rw [firstLeafAt, partitionPoint, if_pos hlt, if_pos hlt, if_pos hm, if_pos hm, ih]
  | case2 lo hi hlt m hm ih => rw [firstLeafAt, partitionPoint, if_pos hlt, if_pos hlt, if_neg hm, if_neg hm, ih]
  | case3 lo hi hge => rw [firstLeafAt, partitionPoint, if_neg hge, if_neg hge]

theorem History.Coherent.firstLeafAt (hg : g.Coherent) (h : Int) :
    firstLeafAt (g.leaves.map LeafRecord.height) h 0 (g.leaves.map LeafRecord.height).length = (g.below h).leaves.length := by
  have hsorted : (g.leaves.map LeafRecord.height).Pairwise fun a b => b < h → a < h := by
    rw [List.pairwise_map]
    exact hg.leaves_stamped.sorted.imp fun hle hlt => hle.trans_lt hlt
  rw [firstLeafAt_eq, partitionPoint_getD hsorted, hg.countP_heights]

/-- The roots that a snapshot reads. -/
def History.Kept (g : History) (a : Int) : Prop := g.start ≤ a ∧ g.next - 1 - UNDO_DEPTH - ANCHOR_WINDOW ≤ a ∧ a < g.next

instance (g : History) (a : Int) : Decidable (g.Kept a) := inferInstanceAs (Decidable (_ ∧ _ ∧ _))

theorem Logs.mem_blocks (hl : Logs L g log) {b : BlockRow} (hb : b ∈ (Tables.of log).blocks) :
    (g.start ≤ b.height ∧ b.height < g.next) ∧ b.root = g.rootAt L b.height := by
  obtain ⟨e, he, rfl⟩ := List.mem_map.1 hb
  obtain ⟨i, hi, rfl⟩ := List.mem_iff_getElem.1 he
  obtain ⟨hheight, hroot⟩ := hl.rows i _ (List.getElem?_eq_getElem hi)
  have hlen := hl.length
  unfold History.next
  exact ⟨by omega, by rw [hheight, hroot]⟩

theorem Logs.exists_block (hl : Logs L g log) {a : Int} (hstart : g.start ≤ a) (hnext : a < g.next) :
    ∃ b ∈ (Tables.of log).blocks, b.height = a := by
  have hlen := hl.length
  unfold History.next at hnext
  have hi : (a - g.start).toNat < log.length := by omega
  refine ⟨log[(a - g.start).toNat].row, List.mem_map_of_mem (List.getElem_mem hi), ?_⟩
  rw [(hl.rows _ _ (List.getElem?_eq_getElem hi)).1]
  omega

/-- The block at a height. -/
theorem Logs.block (hl : Logs L g log) (h : Int) :
    (Tables.of log).block h = if g.start ≤ h then log[(h - g.start).toNat]?.map Entry.row else none := by
  have hfind : ∀ b, (Tables.of log).block h = some b ↔ b ∈ (Tables.of log).blocks ∧ b.height = h := fun b =>
    find?_key hl.blocks_nodup
  ext b
  rw [hfind]
  constructor
  · rintro ⟨hb, rfl⟩
    obtain ⟨e, he, rfl⟩ := List.mem_map.1 hb
    obtain ⟨i, hi, rfl⟩ := List.mem_iff_getElem.1 he
    have hheight := (hl.rows i _ (List.getElem?_eq_getElem hi)).1
    have hindex : (log[i].row.height - g.start).toNat = i := by omega
    rw [if_pos (by omega), hindex, List.getElem?_eq_getElem hi]
    rfl
  · intro hb
    split_ifs at hb with hstart
    obtain ⟨e, he, rfl⟩ := Option.map_eq_some_iff.1 hb
    refine ⟨List.mem_map_of_mem (List.mem_of_getElem? he), ?_⟩
    rw [(hl.rows _ e he).1]
    omega

theorem Logs.blocks_sorted (hl : Logs L g log) : (Tables.of log).blocks.Pairwise fun a b => a.height ≤ b.height := by
  rw [of_blocks]
  exact hl.blocks_stamped.sorted

/-- The tip is the last block. -/
theorem Logs.tip (hl : Logs L g log) : (Tables.of log).tip.map BlockRow.height = if g.blocks = [] then none else some (g.next - 1) := by
  have hlen := hl.length
  rw [Tables.tip, orderBy_of_sorted hl.blocks_sorted]
  rcases List.eq_nil_or_concat log with rfl | ⟨init, e, rfl⟩
  · rw [if_pos (List.length_eq_zero_iff.1 (by simpa using hlen.symm))]
    rfl
  · have hne : g.blocks ≠ [] := by
      intro hnil
      rw [hnil] at hlen
      simp at hlen
    have hlast : (init.concat e)[init.length]? = some e := by simp
    have hrow := (hl.rows _ _ hlast).1
    have hend : (Tables.of (init.concat e)).blocks.getLast? = some e.row := by
      rw [List.concat_eq_append, Tables.of_concat]
      exact List.getLast?_concat
    rw [List.concat_eq_append, List.length_append, List.length_singleton] at hlen
    rw [if_neg hne, hend, Option.map_some, hrow, History.next, ← hlen]
    congr 1
    omega

/-- What a snapshot of a log's tables is. -/
structure Reads (L : Library P) (g : History) (r : Rows) : Prop where
  tip : r.tip = some (g.next - 1)
  leaves : r.leaves = g.leaves.map Tables.leafRow
  nullifiers : r.nullifiers.Perm g.nullifiers
  exits : r.exits.Perm g.exits
  roots : ∀ e ∈ r.roots, e.2 = g.rootAt L e.1
  kept : ∀ a, a ∈ r.roots.map Prod.fst ↔ g.Kept a

theorem Logs.reads (hl : Logs L g log) (hg : g.Coherent) (hne : g.blocks ≠ []) (hr : Tables.Snapshot (Tables.of log) r) :
    Reads L g r := by
  have htip := hl.tip
  rw [if_neg hne] at htip
  obtain ⟨t, ht, hheight⟩ := Option.map_eq_some_iff.1 htip
  have hsome : (Tables.of log).tip.isSome = true := by rw [ht, Option.isSome_some]
  have hleaves := hr.leaves
  have hnullifiers := hr.nullifiers
  have hexits := hr.exits
  have hroots := hr.roots
  rw [if_pos hsome] at hleaves hnullifiers hexits
  rw [ht, Option.elim_some, hheight] at hroots
  have hsorted : g.leaves.Pairwise fun a b : LeafRecord => (a.leafIndex : Int) ≤ b.leafIndex := by
    have h : (g.leaves.map LeafRecord.leafIndex).Pairwise fun a b : Nat => (a : Int) ≤ b := by
      rw [hg.indices]
      exact List.pairwise_lt_range.imp fun {a b} (h : a < b) => by omega
    rwa [List.pairwise_map] at h
  refine ⟨hr.tip.trans htip, ?_, hl.nullifiers ▸ hnullifiers, hl.exits ▸ hexits, fun e he => ?_, fun a => ?_⟩
  · rw [hleaves, hl.leaves, orderBy_of_sorted hsorted]
  · rw [hroots] at he
    obtain ⟨b, hb, rfl⟩ := List.mem_map.1 he
    exact (hl.mem_blocks (List.mem_of_mem_filter ((orderBy_perm _).mem_iff.1 hb))).2
  · rw [hroots, List.map_map, ((orderBy_perm _).map _).mem_iff, List.mem_map]
    constructor
    · rintro ⟨b, hb, rfl⟩
      obtain ⟨hmem, hle⟩ := List.mem_filter.1 hb
      obtain ⟨⟨hstart, hnext⟩, -⟩ := hl.mem_blocks hmem
      exact ⟨hstart, of_decide_eq_true hle, hnext⟩
    · rintro ⟨hstart, hle, hnext⟩
      obtain ⟨b, hb, rfl⟩ := hl.exists_block hstart hnext
      exact ⟨b, List.mem_filter.2 ⟨hb, decide_eq_true hle⟩, rfl⟩

/-! ## The state that they give -/

theorem restoreLeaf_spec {values : List Nat} {l : LeafRecord} (htree : st.tree = .of L values) (hfield : bytesToBig l.leaf < P_FR)
    (hindex : l.leafIndex = values.length) : restoreLeaf L (values.length, Tables.leafRow l) st = .ok () { st with
      tree := .of L (values ++ [bytesToBig l.leaf])
      leafHeights := st.leafHeights ++ [l.height] } := by
  have happend : st.tree.append L (bytesToBig l.leaf) = .of L (values ++ [bytesToBig l.leaf]) := by rw [htree, PoseidonTree.append_of]
  simp only [restoreLeaf, pushLeaf, bind_eq_ok, check_eq_ok, modify_eq_ok]
  exact ⟨(), st, ⟨not_not.2 hindex, rfl⟩, (), st, ⟨not_le.2 hfield, rfl⟩, happend ▸ rfl⟩

theorem restoreLeaves_spec : ∀ {leaves : List LeafRecord} {values : List Nat} {st : BtcPoolState}, st.tree = .of L values →
    leaves.map LeafRecord.leafIndex = List.range' values.length leaves.length → (∀ l ∈ leaves, bytesToBig l.leaf < P_FR) →
    wp False (forEach ((List.range' values.length leaves.length).zip (leaves.map Tables.leafRow)) (restoreLeaf L)) st (fun _ _ => False)
      fun _ t => t = { st with
        tree := .of L (values ++ leaves.map fun l => bytesToBig l.leaf)
        leafHeights := st.leafHeights ++ leaves.map LeafRecord.height }
  | [], values, st, htree, _, _ => by
    show st = _
    rw [List.map_nil, List.map_nil, List.append_nil, List.append_nil, ← htree]
  | l :: leaves, values, st, htree, hindices, hfield => by
    rw [List.length_cons, List.range'_succ, List.map_cons, List.cons.injEq] at hindices
    obtain ⟨hindex, hindices⟩ := hindices
    have hfirst := restoreLeaf_spec htree (hfield l List.mem_cons_self) hindex
    have hlen : (values ++ [bytesToBig l.leaf]).length = values.length + 1 := by rw [List.length_append, List.length_singleton]
    rw [← hlen] at hindices
    rw [List.length_cons, List.range'_succ, List.map_cons, List.zip_cons_cons, forEach, wp_bind', wp_ran hfirst, ← hlen]
    refine wp_mono (restoreLeaves_spec rfl hindices fun l' hl' => hfield l' (List.mem_cons_of_mem _ hl')) id (fun _ _ => id) ?_
    rintro _ t rfl
    simp only [List.append_assoc, List.singleton_append, List.map_cons]

/-- The undo record of a block, made of the rows. -/
theorem Reads.undoes (hr : Reads L g r) (hg : g.Coherent) {rootMap : InsertionMap Int Bytes} {heights : List Int}
    (hheights : heights = g.leaves.map LeafRecord.height) (hroots : ∀ a, rootMap.get? a = if g.Kept a then some (g.rootAt L a) else none)
    (hstart : g.start ≤ h) (hnext : h < g.next) (hdeep : g.next - 1 - UNDO_DEPTH ≤ h) : Undoes L g h {
      leafStart := firstLeafAt heights h 0 heights.length
      nullifiers := (r.nullifiers.filter fun n => n.height = h).map NullifierRecord.nf
      exits := (r.exits.filter fun x => x.height = h).map ExitRecord.key
      pruned := ((rootMap.get? (h - ANCHOR_WINDOW)).map fun root => (h - ANCHOR_WINDOW, root)).toList } := by
  have hkept : g.Kept (h - ANCHOR_WINDOW) ↔ g.start ≤ h - ANCHOR_WINDOW := by
    unfold History.Kept ANCHOR_WINDOW
    omega
  obtain ⟨b, hb⟩ : ∃ b, g.block? h = some b := by
    have hlt : (h - g.start).toNat < g.blocks.length := by
      unfold History.next at hnext
      omega
    exact ⟨_, List.getElem?_eq_getElem hlt⟩
  refine ⟨hstart, hnext, ?_, ⟨b, hb, ?_, ?_⟩, ?_, ?_⟩
  · rw [hheights, hg.firstLeafAt]
  · have hfilter := hg.nullifiers_stamped.filter_eq hstart
    have hperm := (hr.nullifiers.filter fun n => n.height = h).map NullifierRecord.nf
    rw [History.nullifiers, hfilter] at hperm
    rwa [show g.blocks[(h - g.start).toNat]? = some b from hb] at hperm
  · have hfilter := hg.exits_stamped.filter_eq hstart
    have hperm := (hr.exits.filter fun x => x.height = h).map ExitRecord.key
    rw [History.exits, hfilter] at hperm
    rwa [show g.blocks[(h - g.start).toNat]? = some b from hb] at hperm
  · intro e he
    rw [hroots, Option.mem_toList, Option.map_eq_some_iff] at he
    obtain ⟨root, hroot, rfl⟩ := he
    split_ifs at hroot
    exact (Option.some.inj hroot).symm
  · intro a
    rw [hroots]
    by_cases hk : g.start ≤ h - ANCHOR_WINDOW
    · rw [if_pos (hkept.2 hk), Option.map_some, Option.toList_some, List.map_singleton, List.mem_singleton]
      exact ⟨fun ha => ⟨ha, ha ▸ hk⟩, And.left⟩
    · rw [if_neg (mt hkept.1 hk), Option.map_none, Option.toList_none, List.map_nil]
      refine ⟨fun ha => (List.not_mem_nil ha).elim, ?_⟩
      rintro ⟨rfl, ha⟩
      exact (hk ha).elim

/-- The undo records, from a height down. -/
theorem Reads.restoreUndo (hr : Reads L g r) (hg : g.Coherent) {rootMap : InsertionMap Int Bytes}
    (hroots : ∀ a, rootMap.get? a = if g.Kept a then some (g.rootAt L a) else none) : ∀ {n : Nat} {h : Int} {st : BtcPoolState},
    st.leafHeights = g.leaves.map LeafRecord.height → (∀ h u, st.undo.get? h = some u → Undoes L g h u) → h < g.next →
    g.next - 1 - UNDO_DEPTH ≤ h - n →
    wp False (restoreUndo r rootMap n h) st (fun _ _ => False) fun _ t => t = { st with undo := t.undo } ∧
      (∀ h u, t.undo.get? h = some u → Undoes L g h u) ∧ (∀ k, st.undo.has k = true → t.undo.has k = true) ∧
      ∀ k, h - n < k → k ≤ h → g.start ≤ k → t.undo.has k = true
  | 0, h, st, _, hundo, _, _ => by
    refine ⟨rfl, hundo, fun _ => id, ?_⟩
    intro k hlt hle _
    omega
  | n + 1, h, st, hheights, hundo, hnext, hdeep => by
    have hhas : rootMap.has h = false ↔ ¬g.start ≤ h := by
      rw [← InsertionMap.get?_eq_none, hroots]
      have hkept : g.Kept h ↔ g.start ≤ h := by
        unfold History.Kept ANCHOR_WINDOW
        omega
      split_ifs with hk
      · simpa using hkept.1 hk
      · simpa using mt hkept.2 hk
    rw [Replay.restoreUndo, wp_ite]
    constructor
    · intro hnone
      have hbelow := hhas.1 hnone
      refine ⟨rfl, hundo, fun _ => id, ?_⟩
      intro k _ hle hstart
      omega
    · intro hsome
      have hstart : g.start ≤ h := not_not.1 (mt hhas.2 hsome)
      have hrecord := hr.undoes hg hheights hroots hstart hnext (by omega)
      rw [wp_bind, wp_modify]
      refine wp_mono (Reads.restoreUndo hr hg hroots (n := n) (h := h - 1) ?_ ?_ (by omega) (by omega)) id (fun _ _ => id) ?_
      · exact hheights
      · intro k u hu
        rw [InsertionMap.get?_set] at hu
        split_ifs at hu with hk
        · cases hu
          exact hk ▸ hrecord
        · exact hundo k u hu
      · rintro _ t ⟨ht, hundo', hmono, hall⟩
        refine ⟨ht, hundo', fun k hk => hmono k (InsertionMap.has_set.2 (.inr hk)), ?_⟩
        intro k hlt hle hk
        by_cases heq : k = h
        · exact hmono k (InsertionMap.has_set.2 (.inl heq))
        · exact hall k (by omega) (by omega) hk

/-- Rows set under keys of their own. -/
theorem setAll_keyed {ν : Type} {key : ν → String} {rows : List ν} (h : (rows.map key).Nodup) :
    (rows.foldl (fun m n => m.set (key n) n) (InsertionMap.empty : InsertionMap String ν)).entries = rows.map fun n => (key n, n) := by
  have hset := InsertionMap.setAll_entries (m := .empty) (l := rows.map fun n => (key n, n)) (by rwa [List.map_append, List.map_map])
  rwa [List.foldl_map] at hset

theorem Standing.new {start : Int} : Standing L ⟨start, []⟩ .new where
  rests := {
    coherent := ⟨fun _ _ h => (Option.some_ne_none _ h.symm).elim, rfl, fun _ h => (List.not_mem_nil h).elim, Nat.zero_le _,
      List.nodup_nil, List.nodup_nil, fun _ h => (List.not_mem_nil h).elim⟩
    content := ⟨PoseidonTree.of_nil.symm, rfl, .nil, .nil, rfl⟩
    records := {
      roots := fun a => by
        have hnone : ¬History.Anchor ⟨start, []⟩ a := by
          unfold History.Anchor History.next
          dsimp only [List.length_nil]
          omega
        rw [if_neg hnone]
        rfl
      undo := fun _ _ h => (Option.some_ne_none _ h.symm).elim }
    closed := rfl }
  tip := .inr ⟨rfl, rfl⟩

/-- The undo records reach back to the first block, or `UNDO_DEPTH` blocks. -/
def Recoverable (g : History) (st : BtcPoolState) : Prop :=
  ∀ k, g.start ≤ k → g.next - 1 - UNDO_DEPTH < k → k < g.next → st.undo.has k = true

theorem Reads.restore (hr : Reads L g r) (hg : g.Coherent) :
    wp False (restore L r) .new (fun _ _ => False) fun _ t => Standing L g t ∧ Recoverable g t := by
  have hsorted : (r.leaves.mergeSort fun a b => a.leafIndex ≤ b.leafIndex) = g.leaves.map Tables.leafRow := by
    rw [hr.leaves]
    refine List.mergeSort_of_pairwise ?_
    have hindices : (g.leaves.map LeafRecord.leafIndex).Pairwise (· ≤ ·) := by
      rw [hg.indices]
      exact List.pairwise_lt_range.imp Nat.le_of_lt
    rw [List.pairwise_map] at hindices ⊢
    exact hindices.imp fun h => decide_eq_true h
  let rootMap : InsertionMap Int Bytes := r.roots.foldl (fun m e => m.set e.1 e.2) .empty
  have hroots : ∀ a, rootMap.get? a = if g.Kept a then some (g.rootAt L a) else none := by
    intro a
    rw [InsertionMap.get?_setAll fun e he heq => heq ▸ hr.roots e he]
    by_cases hk : g.Kept a
    · rw [if_pos ((hr.kept a).2 hk), if_pos hk]
    · rw [if_neg (mt (hr.kept a).1 hk), if_neg hk]
      rfl
  have hanchors : ∀ a, ((rootMap.entries.filter fun e => g.next - 1 + 1 - ANCHOR_WINDOW ≤ e.1 ∧ e.1 ≤ g.next - 1).foldl
      (fun m e => m.set e.1 e.2) InsertionMap.empty).get? a = if g.Anchor a then some (g.rootAt L a) else none := by
    intro a
    have hkey : a ∈ (rootMap.entries.filter fun e => g.next - 1 + 1 - ANCHOR_WINDOW ≤ e.1 ∧ e.1 ≤ g.next - 1).map Prod.fst ↔
        g.Anchor a := by
      have hanchor : g.Anchor a ↔ g.Kept a ∧ g.next - 1 + 1 - ANCHOR_WINDOW ≤ a ∧ a ≤ g.next - 1 := by
        unfold History.Anchor History.Kept UNDO_DEPTH ANCHOR_WINDOW
        omega
      rw [List.mem_map, hanchor]
      constructor
      · rintro ⟨e, he, rfl⟩
        obtain ⟨hmem, hin⟩ := List.mem_filter.1 he
        have hget := InsertionMap.get?_eq_some.2 hmem
        rw [hroots] at hget
        split_ifs at hget with hk
        exact ⟨hk, of_decide_eq_true hin⟩
      · rintro ⟨hk, hin⟩
        have hget := hroots a
        rw [if_pos hk] at hget
        exact ⟨_, List.mem_filter.2 ⟨InsertionMap.get?_eq_some.1 hget, decide_eq_true hin⟩, rfl⟩
    rw [InsertionMap.get?_setAll (v := g.rootAt L a)]
    · exact if_congr hkey rfl rfl
    · rintro e he rfl
      have hget := InsertionMap.get?_eq_some.2 (List.mem_of_mem_filter he)
      rw [hroots] at hget
      split_ifs at hget
      exact (Option.some.inj hget).symm
  have hindices : g.leaves.map LeafRecord.leafIndex = List.range' ([] : List Nat).length g.leaves.length := by
    rw [hg.indices, List.range_eq_range']
    rfl
  simp only [Replay.restore, hr.tip, wp_bind, wp_modify]
  rw [hsorted, List.length_map, List.range_eq_range']
  refine wp_mono (restoreLeaves_spec (PoseidonTree.of_nil.symm : _ = PoseidonTree.of L []) hindices hg.field) id (fun _ _ => id) ?_
  rintro _ t rfl
  refine wp_mono (hr.restoreUndo hg hroots ?_ ?_ ?_ ?_) id (fun _ _ => id) ?_
  · rfl
  · exact fun _ _ h => (Option.some_ne_none _ h.symm).elim
  · omega
  · show g.next - 1 - UNDO_DEPTH ≤ g.next - 1 - (288 : Nat)
    unfold UNDO_DEPTH
    omega
  · rintro _ t ⟨ht, hundo, -, hall⟩
    rw [ht]
    refine ⟨⟨⟨hg, ⟨rfl, rfl, ?_, ?_, rfl⟩, ⟨hanchors, hundo⟩, rfl⟩, .inl rfl⟩, ?_⟩
    · exact (setAll_keyed (hr.nullifiers.map NullifierRecord.nf |>.nodup_iff.2 hg.nullifiers_nodup)).symm ▸ hr.nullifiers.map _
    · exact (setAll_keyed (hr.exits.map ExitRecord.key |>.nodup_iff.2 hg.exits_nodup)).symm ▸ hr.exits.map _
    · intro k hstart hdeep hnext
      exact hall k hdeep (by omega) hstart

/-- **A snapshot of a log's tables** restores a state that stands at its history and can be rolled back `UNDO_DEPTH` blocks. -/
theorem Logs.restore (hl : Logs L g log) (hg : g.Coherent) (hr : Tables.Snapshot (Tables.of log) r) :
    wp False (restore L r) .new (fun _ _ => False) fun _ t => Standing L g t ∧ Recoverable g t := by
  by_cases hne : g.blocks = []
  · have htip := hr.tip.trans hl.tip
    rw [if_pos hne] at htip
    have hempty : g = ⟨g.start, []⟩ := hne ▸ rfl
    have hnone : Recoverable g .new := by
      intro k hstart _ hnext
      rw [History.next, hne, List.length_nil] at hnext
      omega
    rw [Replay.restore, htip]
    exact ⟨hempty ▸ Standing.new, hnone⟩
  · exact (hl.reads hg hne hr).restore hg

end

end Replay

end Tacit
