import Tacit.Replay.History
/-!
# The replay stands at a history (worker/src/btc-shielded-pool.js:408-615)

Opening a block, an accepted envelope, the end of the block and its abort lead from a state that stands at a history to one that
stands at it, with or without one block more. A rollback leads to the blocks below its height; it fails only where an undo record is
missing, and then changes nothing.
-/
namespace Tacit

namespace Replay

open Prog Merkle
open Indexer (bytesToHex)

section

variable {P : Type} (L : Library P)

/-- The root over the leaves of the blocks at or below a height. -/
def History.rootAt (g : History) (a : Int) : Bytes :=
  bigTo32 (treeRoot L.poseidon2 TREE_DEPTH (pad 0 (g.below (a + 1)).values))

/-- The anchors that the next block may name. -/
def History.Anchor (g : History) (a : Int) : Prop := g.start ≤ a ∧ g.next - ANCHOR_WINDOW ≤ a ∧ a < g.next

instance (g : History) (a : Int) : Decidable (g.Anchor a) := inferInstanceAs (Decidable (_ ∧ _ ∧ _))

/-- What the blocks have added, whatever the order of the maps. -/
structure Content (g : History) (st : BtcPoolState) : Prop where
  tree : st.tree = .of L g.values
  heights : st.leafHeights = g.leaves.map LeafRecord.height
  nullifiers : st.nullifiers.entries.Perm (g.nullifiers.map fun n => (n.nf, n))
  exits : st.exits.entries.Perm (g.exits.map fun x => (x.key, x))
  limit : st.maxLeaves = MAX_LEAVES

/-- What takes the block at a height back. -/
structure Undoes (g : History) (h : Int) (u : Undo) : Prop where
  start : g.start ≤ h
  next : h < g.next
  leafStart : u.leafStart = (g.below h).leaves.length
  added : ∃ b, g.block? h = some b ∧ u.nullifiers.Perm (b.nullifiers.map NullifierRecord.nf) ∧
    u.exits.Perm (b.exits.map ExitRecord.key)
  pruned : ∀ e, e ∈ u.pruned → e.2 = g.rootAt L e.1
  pruned_iff : ∀ a, a ∈ u.pruned.map Prod.fst ↔ a = h - ANCHOR_WINDOW ∧ g.start ≤ a

/-- The roots and the undo records. -/
structure Records (g : History) (st : BtcPoolState) : Prop where
  roots : ∀ a, st.roots.get? a = if g.Anchor a then some (g.rootAt L a) else none
  undo : ∀ h u, st.undo.get? h = some u → Undoes L g h u

/-- Everything but the tip. -/
structure Rests (g : History) (st : BtcPoolState) : Prop where
  coherent : g.Coherent
  content : Content L g st
  records : Records L g st
  closed : st.pending = none

/-- The tip is the last block; before the first block there may be none. -/
def History.Tip (g : History) (st : BtcPoolState) : Prop := st.tip = some (g.next - 1) ∨ st.tip = none ∧ g.blocks = []

structure Standing (g : History) (st : BtcPoolState) : Prop where
  rests : Rests L g st
  tip : g.Tip st

/-- An open block behind the history. -/
structure Open (g : History) (b : Pending) (st : BtcPoolState) : Prop where
  pending : st.pending = some b
  height : b.height = g.next
  leafStart : b.leafStart = g.leaves.length
  coherent : (g.push b.block).Coherent
  content : Content L (g.push b.block) st
  records : Records L g st
  tip : g.Tip st

variable {L} {g : History} {st t : BtcPoolState} {b : Pending} {c : Block} {h : Int} {u : Undo}

/-! ## One block more -/

theorem History.rootAt_push {a : Int} (ha : a < g.next) : (g.push c).rootAt L a = g.rootAt L a := by
  rw [rootAt, History.below_push (by omega), rootAt]

theorem History.rootAt_below {a : Int} (ha : a < h) : (g.below h).rootAt L a = g.rootAt L a := by
  rw [rootAt, History.below_below (by omega), rootAt]

theorem Undoes.push (hu : Undoes L g h u) : Undoes L (g.push c) h u where
  start := hu.start
  next := by
    rw [History.next_push]
    have := hu.next
    omega
  leafStart := by rw [History.below_push hu.next.le, hu.leafStart]
  added := by rw [History.block?_push hu.start hu.next]; exact hu.added
  pruned e he := by
    have hkey := (hu.pruned_iff e.1).1 (List.mem_map_of_mem he)
    have hnext := hu.next
    rw [hu.pruned e he, History.rootAt_push]
    unfold ANCHOR_WINDOW at hkey
    omega
  pruned_iff := hu.pruned_iff

/-- A record of a block below the last. -/
theorem Undoes.of_push (hu : Undoes L (g.push c) h u) (hh : h ≠ g.next) : Undoes L g h u := by
  have hstart : g.start ≤ h := hu.start
  have hnext := hu.next
  rw [History.next_push] at hnext
  have hlt : h < g.next := by omega
  refine ⟨hstart, hlt, ?_, ?_, ?_, hu.pruned_iff⟩
  · rw [hu.leafStart, History.below_push hlt.le]
  · have hadded := hu.added
    rwa [History.block?_push hstart hlt] at hadded
  · intro e he
    have hkey := (hu.pruned_iff e.1).1 (List.mem_map_of_mem he)
    rw [hu.pruned e he, History.rootAt_push]
    unfold ANCHOR_WINDOW at hkey
    omega

theorem Records.undo_isSome (hr : Records L g st) (hh : st.undo.has h = true) : ∃ u, st.undo.get? h = some u ∧ Undoes L g h u := by
  obtain ⟨u, hu, -⟩ := InsertionMap.get?_of_has hh
  exact ⟨u, hu, hr.undo h u hu⟩

/-! ## A block taken back -/

/-- What is left of the tree, the nullifiers and the exits without the last block. -/
theorem Content.take_back (hc : Content L (g.push c) st) {nullifiers exits : List String} {n : Nat} (hn : n = g.leaves.length)
    (hnf : nullifiers.Perm (c.nullifiers.map NullifierRecord.nf)) (hex : exits.Perm (c.exits.map ExitRecord.key)) :
    ¬st.tree.size < n ∧ st.tree.truncate L n = .of L g.values ∧ st.leafHeights.take n = g.leaves.map LeafRecord.height ∧
    (nullifiers.foldl InsertionMap.delete st.nullifiers).entries.Perm (g.nullifiers.map fun n => (n.nf, n)) ∧
    (exits.foldl InsertionMap.delete st.exits).entries.Perm (g.exits.map fun x => (x.key, x)) := by
  have hlen : n = g.values.length := hn.trans History.values_length.symm
  refine ⟨?_, ?_, ?_, ?_, ?_⟩
  · rw [hc.tree, PoseidonTree.of_size, History.values_push, List.length_append]
    omega
  · rw [hc.tree, History.values_push, PoseidonTree.truncate_of (by rw [List.length_append]; omega), hlen, List.take_left]
  · rw [hc.heights, History.leaves_push, List.map_append]
    exact List.take_left' (by rw [List.length_map, hn])
  · have hperm := hc.nullifiers
    rw [History.nullifiers_push, List.map_append] at hperm
    exact InsertionMap.deleteAll_perm hperm (by rwa [List.map_map])
  · have hperm := hc.exits
    rw [History.exits_push, List.map_append] at hperm
    exact InsertionMap.deleteAll_perm hperm (by rwa [List.map_map])

/-- The roots without the last block's, and with those it had pruned. -/
theorem Records.roots_back (hr : Records L (g.push c) st) (hu : Undoes L (g.push c) g.next u) (a : Int) :
    (u.pruned.foldl (fun roots r => roots.set r.1 r.2) (st.roots.delete g.next)).get? a =
      if g.Anchor a then some (g.rootAt L a) else none := by
  have hpruned : ∀ e ∈ u.pruned, e.1 = a → e.2 = (g.push c).rootAt L a := fun e he heq => heq ▸ hu.pruned e he
  have hiff : a ∈ u.pruned.map Prod.fst ↔ a = g.next - ANCHOR_WINDOW ∧ g.start ≤ a := hu.pruned_iff a
  have hanchor : (g.push c).Anchor a ↔ g.start ≤ a ∧ g.next + 1 - ANCHOR_WINDOW ≤ a ∧ a < g.next + 1 := by
    rw [History.Anchor, History.next_push]
    rfl
  have hanchor' : g.Anchor a ↔ g.start ≤ a ∧ g.next - ANCHOR_WINDOW ≤ a ∧ a < g.next := Iff.rfl
  have hwindow : ANCHOR_WINDOW = 144 := rfl
  simp only [InsertionMap.get?_setAll hpruned, InsertionMap.get?_delete, hr.roots a, hiff, hanchor, hanchor']
  by_cases hin : a < g.next
  · rw [History.rootAt_push hin]
    split_ifs <;> first | rfl | omega
  · split_ifs <;> first | rfl | omega

/-- **The last block is taken back**: the state rests at the blocks before it. -/
theorem Rests.rollbackOne (hst : Rests L (g.push c) st) (hundo : st.undo.has g.next = true) :
    wp False (rollbackOne L g.next) st (fun _ _ => False) fun _ t => Rests L g t ∧ t.tip = st.tip ∧
      ∀ h, h ≠ g.next → t.undo.has h = st.undo.has h := by
  obtain ⟨u, hget, hu⟩ := hst.records.undo_isSome hundo
  obtain ⟨c', hc', hnf, hex⟩ := hu.added
  rw [History.block?_push_next] at hc'
  cases hc'
  have hstart : u.leafStart = g.leaves.length := by rw [hu.leafStart, History.below_push_next]
  obtain ⟨hsize, htree, hheights, hnf, hex⟩ := hst.content.take_back hstart hnf hex
  simp only [Replay.rollbackOne, truncateTo, deleteAdded, wp_bind, wp_get, wp_orThrow, wp_check, wp_modify, hget]
  refine ⟨fun h => (Option.some_ne_none _ h).elim, ?_⟩
  rintro _ ⟨⟩
  refine ⟨hsize, fun _ => ⟨⟨hst.coherent.of_push, ⟨htree, hheights, hnf, hex, hst.content.limit⟩, ⟨hst.records.roots_back hu, ?_⟩,
    hst.closed⟩, trivial, ?_⟩⟩
  · intro h u' hu'
    rw [InsertionMap.get?_delete] at hu'
    split_ifs at hu' with hh
    exact (hst.records.undo h u' hu').of_push hh
  · intro h hh
    rw [Bool.eq_iff_iff, InsertionMap.has_delete]
    exact and_iff_right hh

theorem Rests.rollbackMany : ∀ {n : Nat} {g : History} {st : BtcPoolState}, Rests L g st →
    (∀ i : Nat, i < n → st.undo.has (g.next - 1 - i) = true) →
    wp False (forEach ((List.range n).map fun i : Nat => g.next - 1 - i) (Replay.rollbackOne L)) st (fun _ _ => False)
      fun _ t => (Rests L (g.below (g.next - n)) t ∧ t.tip = st.tip) ∧ g.start ≤ g.next - n
  | 0, g, st, hst, _ => by
    have hall : g.below (g.next - (0 : Nat)) = g := History.below_of_next_le (by simp)
    rw [hall]
    refine ⟨⟨hst, rfl⟩, ?_⟩
    unfold History.next
    omega
  | n + 1, g, st, hst, hundo => by
    have hlast := hundo 0 (Nat.succ_pos n)
    obtain ⟨u, -, hu⟩ := hst.records.undo_isSome hlast
    have hstart := hu.start
    obtain ⟨g, c, rfl⟩ := History.exists_push (g := g) (by omega)
    have hnext : (g.push c).next = g.next + 1 := History.next_push
    have hhead : (g.push c).next - 1 - (0 : Nat) = g.next := by
      rw [hnext]
      omega
    have htail : ∀ i : Nat, (g.push c).next - 1 - (i.succ : Nat) = g.next - 1 - i := by
      intro i
      rw [hnext]
      omega
    rw [hhead] at hlast
    rw [List.range_succ_eq_map, List.map_cons, hhead, List.map_map, forEach, wp_bind']
    refine wp_mono (hst.rollbackOne hlast) id (fun _ _ => id) ?_
    rintro _ t ⟨hrests, htip, hothers⟩
    have hrest : ∀ i : Nat, i < n → t.undo.has (g.next - 1 - i) = true := by
      intro i hi
      rw [hothers _ (by omega), ← htail]
      exact hundo _ (Nat.succ_lt_succ hi)
    have hlist : ((fun i : Nat => (g.push c).next - 1 - i) ∘ Nat.succ) = fun i : Nat => g.next - 1 - i := funext htail
    have hend : (g.push c).next - (n + 1 : Nat) = g.next - n := by
      rw [hnext]
      omega
    rw [hlist, hend, History.below_push (by omega)]
    refine wp_mono (Rests.rollbackMany hrests hrest) id (fun _ _ => id) ?_
    rintro _ v ⟨⟨hv, htip'⟩, hle⟩
    exact ⟨⟨hv, htip'.trans htip⟩, hle⟩

theorem Rests.set_tip (h : Rests L g st) (tip : Option Int) : Rests L g { st with tip := tip } :=
  ⟨h.coherent, ⟨h.content.tree, h.content.heights, h.content.nullifiers, h.content.exits, h.content.limit⟩,
    ⟨h.records.roots, h.records.undo⟩, h.closed⟩

/-- A loop of checks. -/
theorem forEach_check_spec {β : Type} {p : β → Prop} [DecidablePred p] {e : β → Error} : ∀ {l : List β},
    wp False (forEach l fun b => check (p b) (e b)) st (fun err t => t = st ∧ ∃ b ∈ l, p b ∧ err = e b) fun _ t =>
      t = st ∧ ∀ b ∈ l, ¬p b
  | [] => ⟨rfl, fun _ => nofun⟩
  | b :: l => by
    rw [forEach, wp_bind', wp_check]
    refine ⟨fun hb => ⟨rfl, b, List.mem_cons_self, hb, rfl⟩, fun hb => ?_⟩
    refine wp_mono forEach_check_spec id ?_ ?_
    · rintro err t ⟨ht, b', hmem, hp, heq⟩
      exact ⟨ht, b', List.mem_cons_of_mem _ hmem, hp, heq⟩
    · rintro _ t ⟨ht, hl⟩
      exact ⟨ht, List.forall_mem_cons.2 ⟨hb, hl⟩⟩

/-- **A rollback** leads to the blocks below its height, or says that a record is missing and changes nothing. -/
theorem Standing.rollbackFrom (hst : Standing L g st) (height : Int) : wp False (rollbackFrom L height) st
    (fun e t => t = st ∧ ∃ h, e = .reorgTooDeep h ∧ height ≤ h ∧ h < g.next ∧ st.undo.has h = false)
    fun _ t => Standing L (g.below height) t := by
  have hopen : abortBlock L st = .ok () st := by
    rw [ok_iff_wp]
    simp only [abortBlock, wp_bind, wp_get, hst.rests.closed, wp_pure, and_self]
  unfold Replay.rollbackFrom
  rw [wp_bind, wp_ran hopen, wp_bind, wp_get]
  rcases hst.tip with htip | ⟨htip, hblocks⟩
  · simp only [htip]
    rw [wp_ite]
    constructor
    · intro hlt
      rw [wp_pure, History.below_of_next_le (by omega)]
      exact hst
    · intro hge
      rw [wp_bind]
      refine wp_mono forEach_check_spec id ?_ ?_
      · rintro e t ⟨ht, h, hmem, hnone, he⟩
        obtain ⟨i, hi, rfl⟩ := List.mem_map.1 hmem
        rw [List.mem_range] at hi
        exact ⟨ht, _, he, by omega, by omega, hnone⟩
      rintro _ t ⟨rfl, hundo⟩
      have hcount : g.next - ((g.next - 1 - height + 1).toNat : Nat) = height := by omega
      rw [wp_bind]
      refine wp_mono (hst.rests.rollbackMany ?_) id (fun _ _ => False.elim) ?_
      · intro i hi
        have hmem : g.next - 1 - (i : Int) ∈ (List.range (g.next - 1 - height + 1).toNat).map fun i : Nat => g.next - 1 - (i : Int) :=
          List.mem_map.2 ⟨i, List.mem_range.2 hi, rfl⟩
        exact Bool.eq_true_of_not_eq_false (hundo _ hmem)
      · rintro _ u ⟨⟨hrests, -⟩, hstart⟩
        rw [hcount] at hrests hstart
        have hnext : (g.below height).next = height := History.next_below hstart (by omega)
        exact ⟨hrests.set_tip _, .inl (by rw [hnext])⟩
  · simp only [htip]
    have hnone : g.below height = g := by
      rw [History.below, hblocks, List.take_nil, ← hblocks]
    rw [wp_pure, hnone]
    exact hst

/-! ## The open block -/

/-- **An aborted block leaves nothing behind.** -/
theorem Open.abortBlock (hst : Open L g b st) : wp False (abortBlock L) st (fun _ _ => False) fun _ t => Standing L g t := by
  obtain ⟨hsize, htree, hheights, hnf, hex⟩ := hst.content.take_back hst.leafStart (.refl _) (.refl _)
  simp only [Replay.abortBlock, truncateTo, deleteAdded, wp_bind, wp_get, hst.pending, wp_check, wp_modify]
  exact ⟨hsize, fun _ => ⟨⟨hst.coherent.of_push, ⟨htree, hheights, hnf, hex, hst.content.limit⟩, ⟨hst.records.roots, hst.records.undo⟩, rfl⟩, hst.tip⟩⟩

theorem History.Coherent.push_empty (h : g.Coherent) : (g.push ⟨[], [], []⟩).Coherent :=
  ⟨h.heights_push ⟨nofun, nofun, nofun⟩, by simpa using h.indices, by simpa using h.field, by simpa using h.fits,
    by simpa using h.nullifiers_nodup, by simpa using h.exits_nodup, by simpa using h.words⟩

theorem Standing.beginBlock (hst : Standing L g st) : wp False (beginBlock g.next) st (fun _ _ => False) fun _ t =>
    Open L g ⟨g.next, g.leaves.length, [], [], [], []⟩ t := by
  obtain ⟨⟨hcoherent, hcontent, hrecords, hclosed⟩, htip⟩ := hst
  have hready : ¬∃ tip ∈ st.tip, g.next ≠ tip + 1 := by
    rintro ⟨tip, hmem, hne⟩
    rcases htip with h | ⟨h, -⟩
    · rw [h, Option.mem_some] at hmem
      omega
    · rw [h] at hmem
      cases hmem
  have hsize : st.tree.size = g.leaves.length := by rw [hcontent.tree, PoseidonTree.of_size, History.values_length]
  have hpush : Content L (g.push ⟨[], [], []⟩) st := by
    refine ⟨?_, ?_, ?_, ?_, hcontent.limit⟩
    · simpa using hcontent.tree
    · simpa using hcontent.heights
    · simpa using hcontent.nullifiers
    · simpa using hcontent.exits
  simp only [Replay.beginBlock, wp_bind, wp_get, wp_check, wp_modify, hclosed, hready, hsize]
  refine ⟨fun h => ?_, fun _ => ⟨False.elim, fun _ => ?_⟩⟩
  · cases h
  exact ⟨rfl, rfl, rfl, hcoherent.push_empty, ⟨hpush.tree, hpush.heights, hpush.nullifiers, hpush.exits, hpush.limit⟩,
    ⟨hrecords.roots, hrecords.undo⟩, htip⟩

/-- The roots with the open block's, and without those that no later block may name. -/
theorem Records.roots_end (hr : Records L g st) {roots : InsertionMap Int Bytes} {pruned : List (Int × Bytes)}
    (hroots : roots = st.roots.set g.next ((g.push c).rootAt L g.next))
    (hpruned : pruned = roots.entries.filter fun r => r.1 < g.next + 1 - ANCHOR_WINDOW) :
    (∀ e ∈ pruned, e.2 = (g.push c).rootAt L e.1) ∧ (∀ a, a ∈ pruned.map Prod.fst ↔ a = g.next - ANCHOR_WINDOW ∧ g.start ≤ a) ∧
    ∀ a, ((pruned.map Prod.fst).foldl InsertionMap.delete roots).get? a =
      if (g.push c).Anchor a then some ((g.push c).rootAt L a) else none := by
  have hwindow : ANCHOR_WINDOW = 144 := rfl
  have hstart : g.start ≤ g.next := by
    unfold History.next
    omega
  have hget : ∀ a, roots.get? a = if a = g.next ∨ g.Anchor a then some ((g.push c).rootAt L a) else none := by
    intro a
    rw [hroots, InsertionMap.get?_set, hr.roots]
    by_cases ha : a = g.next
    · rw [if_pos ha, if_pos (.inl ha), ha]
    · by_cases hanchor : g.Anchor a
      · rw [if_neg ha, if_pos hanchor, if_pos (.inr hanchor), History.rootAt_push hanchor.2.2]
      · rw [if_neg ha, if_neg hanchor, if_neg (not_or.2 ⟨ha, hanchor⟩)]
  have hmem : ∀ a r, (a, r) ∈ pruned ↔ (a = g.next ∨ g.Anchor a) ∧ a < g.next + 1 - ANCHOR_WINDOW ∧ r = (g.push c).rootAt L a := by
    intro a r
    rw [hpruned, List.mem_filter, decide_eq_true_iff, ← InsertionMap.get?_eq_some, hget]
    split_ifs with ha
    · simp [ha, eq_comm, and_comm]
    · simp [ha]
  have hkeys : ∀ a, a ∈ pruned.map Prod.fst ↔ a = g.next - ANCHOR_WINDOW ∧ g.start ≤ a := by
    intro a
    rw [List.mem_map]
    constructor
    · rintro ⟨e, he, rfl⟩
      obtain ⟨hwhich, hold, -⟩ := (hmem e.1 e.2).1 he
      unfold History.Anchor at hwhich
      omega
    · rintro ⟨ha, hle⟩
      refine ⟨(a, _), (hmem a _).2 ⟨.inr ⟨hle, by omega, by omega⟩, by omega, rfl⟩, rfl⟩
  refine ⟨fun e he => ((hmem e.1 e.2).1 he).2.2, hkeys, fun a => ?_⟩
  have hanchor : (g.push c).Anchor a ↔ g.start ≤ a ∧ g.next + 1 - ANCHOR_WINDOW ≤ a ∧ a < g.next + 1 := by
    rw [History.Anchor, History.next_push]
    rfl
  have hanchor' : g.Anchor a ↔ g.start ≤ a ∧ g.next - ANCHOR_WINDOW ≤ a ∧ a < g.next := Iff.rfl
  simp only [InsertionMap.get?_deleteAll, hget, hkeys, hanchor, hanchor']
  split_ifs <;> first | rfl | omega

/-- **The end of a block** leads to the history with it. -/
theorem Open.endBlock (hst : Open L g b st) : wp False (endBlock L) st (fun _ _ => False) fun d t =>
    (Standing L (g.push b.block) t ∧ ∀ h, t.undo.has h = true ↔ g.next - UNDO_DEPTH < h ∧ (h = g.next ∨ st.undo.has h = true)) ∧
      d.height = g.next ∧ d.root = (g.push b.block).rootAt L g.next ∧ d.leaves = b.leaves ∧ d.nullifiers = b.nullifiers ∧
      d.exits = b.exits := by
  have hroot : st.tree.root L = (g.push b.block).rootAt L g.next := by
    have hlen : (g.push b.block).values.length ≤ MAX_LEAVES := History.values_length.trans_le hst.coherent.fits
    rw [hst.content.tree, PoseidonTree.root, PoseidonTree.rootF_of hlen, History.rootAt,
      History.below_of_next_le (by rw [History.next_push])]
  obtain ⟨hpruned, hkeys, hroots⟩ := hst.records.roots_end (c := b.block) rfl rfl
  simp only [Replay.endBlock, wp_bind, wp_get, wp_orThrow, hst.pending, wp_modify, wp_pure, hroot]
  refine ⟨fun h => (Option.some_ne_none _ h).elim, ?_⟩
  rintro _ ⟨⟩
  simp only [hst.height, and_true]
  refine ⟨⟨⟨hst.coherent, ⟨hst.content.tree, hst.content.heights, hst.content.nullifiers, hst.content.exits, hst.content.limit⟩,
    ⟨hroots, ?_⟩, rfl⟩, .inl ?_⟩, fun h => ?_⟩
  · intro h u hu
    rw [InsertionMap.get?_deleteAll] at hu
    split_ifs at hu
    rw [InsertionMap.get?_set] at hu
    split_ifs at hu with hh
    · cases hu
      subst hh
      have hstart : g.start ≤ g.next := by
        unfold History.next
        omega
      exact ⟨hstart, by rw [History.next_push]; omega, by rw [hst.leafStart, History.below_push_next],
        ⟨_, History.block?_push_next, .refl _, .refl _⟩, hpruned, hkeys⟩
    · exact (hst.records.undo h u hu).push
  · show some g.next = some ((g.push b.block).next - 1)
    rw [History.next_push, Int.add_sub_cancel]
  · rw [InsertionMap.has_deleteAll, InsertionMap.has_set, List.mem_filter, ← InsertionMap.has_iff, InsertionMap.has_set,
      decide_eq_true_iff]
    constructor
    · rintro ⟨hold, hhas⟩
      exact ⟨not_le.1 fun hle => hold ⟨hhas, hle⟩, hhas⟩
    · rintro ⟨hlt, hhas⟩
      exact ⟨fun hold => absurd hlt (not_lt.2 hold.2), hhas⟩

end

end Replay

end Tacit
