import Tacit.Replay.Serving
/-!
# A wallet that reads the indexer (dapp/btc-pool-client.js)

The wallet asks for pages, one request after the other, while the indexer goes on with its blocks. It keeps the list of spent
nullifiers between readings, reads it again from twelve blocks back, and works its paths out from the feed of all leaves. The guards of
10000 requests are the lengths of the lists of replicas. A `0x` before a word of hex is not here.
-/
namespace Tacit

namespace Replay

open Prog Merkle

/-! ## The feed and the list of spent nullifiers -/

/-- The loop of `allNotes` (:147), from the answer to the next request on. -/
def allNotes : List Replica → Nat → List LeafRecord
  | [], _ => []
  | r :: rs, start =>
    let j := notesRoute r (some start) (some 1000)
    if j.notes = [] ∨ j.next = start then j.notes else j.notes ++ allNotes rs j.next

/-- The loop of `spentList` (:174). -/
def spentLoop : List Replica → Int → String → InsertionMap String Int → Except Refusal (InsertionMap String Int)
  | [], _, _, map => .ok map
  | r :: rs, start, after, map => do
    let j ← nullifiersRoute r (some start) after (some 5000)
    let map := j.nullifiers.foldl (fun m n => m.set n.1 n.2) map
    match j.next with
    | none => return map
    | some (start, after) => spentLoop rs start after map

/-- `nfMemo`. -/
structure Memo where
  map : InsertionMap String Int
  through : Int

/-- Where a reading starts (:171). -/
def Memo.start (memo : Option Memo) : Int := memo.elim 0 fun m => max 0 (m.through - 12)

/-- What a reading keeps of the last one (:172). -/
def Memo.kept (memo : Option Memo) : InsertionMap String Int :=
  .ofEntries (memo.elim [] fun m => m.map.entries.filter fun e => e.2 < Memo.start memo)

/-- `spentList` (:170), the status read from `r`. -/
def spentList (memo : Option Memo) (r : Replica) (rs : List Replica) : Except Refusal Memo := do
  let map ← spentLoop rs (Memo.start memo) "" (Memo.kept memo)
  return ⟨map, r.state.tip.getD 0⟩

section

variable {P : Type} (L : Library P)

/-! ## Paths worked out from the feed -/

/-- The leaves through a block (:25); `none` is no text of the source's. -/
def countThrough (h : Int) : Nat → List LeafRecord → Except (Option String) Nat
  | n, [] => .ok n
  | n, x :: feed =>
    if x.height ≤ h then
      if x.leafIndex ≠ n then .error (some "the note feed has a gap") else countThrough h (n + 1) feed
    else .ok n

/-- `ZEROS` (:20). -/
def ZEROS (i : Nat) : Nat := zeros L.poseidon2 0 i

/-- One round (:29). -/
def nextLevel (i : Nat) (a : List Nat) : List Nat :=
  (List.range ((a.length + 1) / 2)).map fun j =>
    L.poseidon2 (a.getD (2 * j) 0) (if 2 * j + 1 < a.length then a.getD (2 * j + 1) 0 else ZEROS L i)

/-- The levels from the `i`-th on (:28). -/
def levelsFrom : Nat → Nat → List Nat → List (List Nat)
  | _, 0, a => [a]
  | i, n + 1, a => a :: levelsFrom (i + 1) n (nextLevel L i a)

/-- `pathsAt` (:23). -/
def pathsAt (feed : List LeafRecord) (h : Int) (indexes : List Nat) : Except (Option String) (Bytes × List (List Bytes)) := do
  let n ← countThrough h 0 feed
  refuse (∃ i ∈ indexes, n ≤ i) (some "a note is newer than the anchor")
  let levels := levelsFrom L 0 TREE_DEPTH ((feed.take n).map fun x => bytesToBig x.leaf)
  let node := fun i j => if j < (levels.getD i []).length then (levels.getD i []).getD j 0 else ZEROS L i
  let paths ← need (indexes.mapM (PoseidonTree.siblings node)) none
  return (bigTo32 (node TREE_DEPTH 0), paths)

variable {L}

/-- A round is one of the replay's tree. -/
theorem nextLevel_eq (i : Nat) (a : List Nat) : nextLevel L i a = levelUp L.poseidon2 (ZEROS L i) a := by
  refine List.ext_getElem (by rw [nextLevel, List.length_map, List.length_range, levelUp_length]) fun j hj hj' => ?_
  rw [nextLevel, List.length_map, List.length_range] at hj
  have hlt : 2 * j < a.length := by omega
  have hnode : level L.poseidon2 (pad (ZEROS L i) a) j = _ := congrFun (level_pad (ZEROS L i) a) j
  simp only [level, pad, List.getD_eq_getElem?_getD] at hnode
  rw [List.getElem?_eq_getElem hj', Option.getD_some] at hnode
  simp only [nextLevel, List.getElem_map, List.getElem_range, ← hnode, List.getD_eq_getElem?_getD]
  rw [List.getElem?_eq_getElem hlt, Option.getD_some, Option.getD_some]
  split_ifs with hpair
  · rw [List.getElem?_eq_getElem hpair, Option.getD_some, Option.getD_some]
  · rw [List.getElem?_eq_none (Nat.le_of_not_lt hpair), Option.getD_none]

theorem levelsFrom_eq (l : List Nat) : ∀ n i, levelsFrom L i n (row L.poseidon2 0 l i) = rows L.poseidon2 0 l i (n + 1)
  | 0, i => rfl
  | n + 1, i => by
    rw [levelsFrom, nextLevel_eq, rows]
    exact congrArg _ (levelsFrom_eq l n (i + 1))

/-- The leaves through a block, of a feed that has them all in order. -/
theorem countThrough_eq {h : Int} : ∀ {feed : List LeafRecord} {n : Nat},
    feed.map LeafRecord.leafIndex = List.range' n feed.length → (feed.map LeafRecord.height).Pairwise (· ≤ ·) →
    countThrough h n feed = .ok (n + (feed.filter fun x => x.height ≤ h).length)
  | [], n, _, _ => rfl
  | x :: feed, n, hindex, hsorted => by
    rw [List.map_cons, List.length_cons, List.range'_succ, List.cons.injEq] at hindex
    rw [List.map_cons, List.pairwise_cons] at hsorted
    rw [countThrough]
    split_ifs with hle hgap
    · exact (hgap hindex.1).elim
    · have hcons : ((x :: feed).filter fun x => x.height ≤ h) = x :: feed.filter fun x => x.height ≤ h :=
        List.filter_cons_of_pos (decide_eq_true hle)
      rw [countThrough_eq hindex.2 hsorted.2, hcons, List.length_cons, Nat.add_right_comm, Nat.add_assoc]
    · have hnil : ((x :: feed).filter fun x => x.height ≤ h) = [] := by
        refine List.filter_eq_nil_iff.2 fun y hy => ?_
        rcases List.mem_cons.1 hy with rfl | hy
        · simpa using hle
        · have hge := hsorted.1 _ (List.mem_map_of_mem hy)
          simpa using (not_le.1 hle).trans_le hge
      rw [hnil]
      rfl

/-- The count ends in the feed. -/
theorem countThrough_le {h : Int} : ∀ {feed : List LeafRecord} {n m : Nat}, countThrough h n feed = .ok m → m ≤ n + feed.length
  | [], n, m, hrun => by
    rw [countThrough] at hrun
    exact (Except.ok.inj hrun).ge
  | x :: feed, n, m, hrun => by
    rw [countThrough] at hrun
    rw [List.length_cons]
    split_ifs at hrun with hle hgap
    · have hrest := countThrough_le hrun
      omega
    · have hhere := Except.ok.inj hrun
      omega

/-- **The paths of a wallet** in a feed are those of the tree of its leaves through the block. -/
theorem pathsAt_eq {feed : List LeafRecord} {a : Int} {n : Nat} (hcount : countThrough a 0 feed = .ok n) (hsmall : n ≤ 2 ^ 30)
    {indexes : List Nat} (hindexes : ∀ i ∈ indexes, i < n) : pathsAt L feed a indexes = .ok (leavesRoot L (feed.take n),
      indexes.map fun i => (PoseidonTree.answer L ((feed.take n).map fun x => bytesToBig x.leaf) i).2) := by
  have hnew : ¬∃ i ∈ indexes, n ≤ i := by
    rintro ⟨i, hi, hold⟩
    exact Nat.lt_irrefl _ ((hindexes i hi).trans_le hold)
  rw [Replay.pathsAt, hcount, except_ok_bind, refuse, if_neg hnew, except_ok_bind, leavesRoot]
  generalize (feed.take n).map (fun x => bytesToBig x.leaf) = values
  have hlevels : levelsFrom L 0 TREE_DEPTH values = (PoseidonTree.of L values).levels := levelsFrom_eq _ TREE_DEPTH 0
  have hpaths : indexes.mapM (PoseidonTree.siblings ((PoseidonTree.of L values).nodeOrZero L)) =
      some (indexes.map fun i => (PoseidonTree.answer L values i).2) := by
    refine PoseidonTree.mapM_some fun i hi => ?_
    have hlt := hindexes i hi
    exact PoseidonTree.siblings_eq (by omega) fun i j hi => PoseidonTree.nodeOrZero_of j hi
  rw [hlevels]
  show (need (indexes.mapM (PoseidonTree.siblings ((PoseidonTree.of L values).nodeOrZero L))) none >>= _) = _
  rw [hpaths, need, Option.elim_some, except_ok_bind]
  show Except.ok (bigTo32 ((PoseidonTree.of L values).nodeOrZero L TREE_DEPTH 0), _) = _
  rw [PoseidonTree.nodeOrZero_of 0 le_rfl, PoseidonTree.root_eq]

/-- In the leaves of a history, they are those at the block. -/
theorem History.Coherent.pathsAt {g : History} (hg : g.Coherent) (hsmall : g.leaves.length ≤ 2 ^ 30) {a : Int} {indexes : List Nat}
    (hindexes : ∀ i ∈ indexes, i < (g.below (a + 1)).leaves.length) : pathsAt L g.leaves a indexes =
      .ok (g.rootAt L a, indexes.map fun i => (PoseidonTree.answer L (g.below (a + 1)).values i).2) := by
  have hcount : countThrough a 0 g.leaves = .ok (g.below (a + 1)).leaves.length := by
    have hsorted : (g.leaves.map LeafRecord.height).Pairwise (· ≤ ·) := List.pairwise_map.2 hg.leaves_stamped.sorted
    rw [countThrough_eq (by rw [hg.indices, List.range_eq_range']) hsorted, Nat.zero_add, hg.leaves_below]
  have hle := countThrough_le hcount
  rw [pathsAt_eq hcount (by omega) hindexes, ← History.leaves_take]
  rfl

theorem History.Coherent.index_below {g : History} (hg : g.Coherent) {l : LeafRecord} (hl : l ∈ g.leaves) {a : Int} (hle : l.height ≤ a) :
    l.leafIndex < (g.below (a + 1)).leaves.length := by
  have hmem : l ∈ (g.below (a + 1)).leaves := by
    rw [hg.leaves_below]
    exact List.mem_filter.2 ⟨hl, decide_eq_true hle⟩
  rw [History.leaves_take] at hmem
  exact (hg.leaf_at.1 hmem).2

theorem rootFromPath_word {b : Bytes} (hb : bytesToBig b < P_FR) (i : Nat) (path : List Bytes) :
    rootFromPath L (bigTo32 (bytesToBig b)) i path = rootFromPath L b i path := by
  rw [rootFromPath, rootFromPath, bytesToBig_bigTo32 hb]

/-- **Whatever the feed**, the paths worked out from it lead from its leaves to one root. -/
theorem pathsAt_sound (hnode : ∀ a b, L.poseidon2 a b < P_FR) {feed : List LeafRecord} (hfield : ∀ x ∈ feed, bytesToBig x.leaf < P_FR)
    (hsmall : feed.length ≤ 2 ^ 30) {a : Int} {indexes : List Nat} {root : Bytes} {paths : List (List Bytes)}
    (hrun : pathsAt L feed a indexes = .ok (root, paths)) :
    List.Forall₂ (fun i path => ∃ x, feed[i]? = some x ∧ rootFromPath L x.leaf i path = some root) indexes paths := by
  obtain ⟨n, hcount, hrest⟩ := except_bind_eq_ok.1 hrun
  obtain ⟨_, hnew, -⟩ := except_bind_eq_ok.1 hrest
  have hindexes : ∀ i ∈ indexes, i < n := fun i hi => Nat.lt_of_not_le fun hle => refuse_eq_ok.1 hnew ⟨i, hi, hle⟩
  have hle := countThrough_le hcount
  rw [pathsAt_eq hcount (by omega) hindexes] at hrun
  obtain ⟨rfl, rfl⟩ := Prod.mk.inj (Except.ok.inj hrun)
  refine List.forall₂_map_right_iff.2 (List.forall₂_same.2 fun i hi => ?_)
  have hlt := hindexes i hi
  obtain ⟨x, hx⟩ : ∃ x, feed[i]? = some x := ⟨_, List.getElem?_eq_getElem (by omega)⟩
  have hvalue : ((feed.take n).map fun x => bytesToBig x.leaf).getD i 0 = bytesToBig x.leaf := by
    rw [List.getD_eq_getElem?_getD, List.getElem?_map, List.getElem?_take_of_lt hlt, hx]
    rfl
  have hvalues : ∀ v ∈ (feed.take n).map fun x => bytesToBig x.leaf, v < P_FR := by
    intro v hv
    obtain ⟨y, hy, rfl⟩ := List.mem_map.1 hv
    exact hfield y (List.mem_of_mem_take hy)
  have hlen : ((feed.take n).map fun x => bytesToBig x.leaf).length = n := by
    rw [List.length_map, List.length_take]
    omega
  have hmax : 2 ^ 30 ≤ MAX_LEAVES := by decide
  have hleads := PoseidonTree.rootFromPath_answer hnode hvalues (hlen.symm ▸ hlt) (by omega)
  rw [hvalue, rootFromPath_word (hfield x (List.mem_of_getElem? hx))] at hleads
  exact ⟨x, hx, hleads⟩

end

section

variable {P : Type} [AddCommGroup P] [DecidableEq P] {L : Library P} {sha256d : Bytes → Word} {start : Int} {ws ws' : List Work}
  {r r' : Replica}

/-- Runs that stand at the same blocks below a height have the same rows below it. -/
theorem Indexes.below_same (hstart : 0 ≤ start) (h : Indexes L sha256d start ws r) (h' : Indexes L sha256d start ws' r') {bound : Int}
    (hsame : ws.take (bound - start).toNat = ws'.take (bound - start).toNat) : deleteFrom bound r.db = deleteFrom bound r'.db := by
  obtain ⟨g, log, hr⟩ := h.replayed hstart
  obtain ⟨g', log', hr'⟩ := h'.replayed hstart
  rw [hr.holds.db, hr'.holds.db, hr.holds.logs.deleteFrom hr.holds.coherent, hr'.holds.logs.deleteFrom hr'.holds.coherent, hr.first,
    hr'.first, hr.agree hr' hsame]

/-- A run that stands at more blocks has more rows. -/
theorem Indexes.grows (hstart : 0 ≤ start) (h : Indexes L sha256d start ws r) (h' : Indexes L sha256d start ws' r') (hle : ws <+: ws') :
    r.db.leaves <+: r'.db.leaves ∧ r.db.nullifiers <+: r'.db.nullifiers := by
  obtain ⟨g, log, hr⟩ := h.replayed hstart
  obtain ⟨g', log', hr'⟩ := h'.replayed hstart
  have hsame : ws.take ws.length = ws'.take ws.length := by
    rw [List.take_length]
    exact List.prefix_iff_eq_take.1 hle
  have hlog : log <+: log' := by
    have hagree := hr.agree hr' hsame
    rw [← hr.length.1, List.take_length] at hagree
    rw [hagree]
    exact List.take_prefix ..
  obtain ⟨rest, rfl⟩ := hlog
  rw [hr.holds.db, hr'.holds.db]
  simp only [Tables.of, List.flatMap_append]
  exact ⟨List.prefix_append .., List.prefix_append ..⟩

variable (L sha256d start) in
/-- Replicas asked one after the other, each at the blocks of the one before it or at more. -/
structure Grows (wss : List (List Work)) (rs : List Replica) : Prop where
  runs : List.Forall₂ (Indexes L sha256d start) wss rs
  grows : wss.IsChain (· <+: ·)

variable {wss : List (List Work)} {rs : List Replica}

theorem Grows.tail (h : Grows L sha256d start (ws :: wss) (r :: rs)) : Grows L sha256d start wss rs := by
  obtain ⟨hruns, hgrows⟩ := h
  exact ⟨(List.forall₂_cons.1 hruns).2, hgrows.tail⟩

/-- The first replica has the fewest blocks. -/
theorem Grows.first (h : Grows L sha256d start (ws :: wss) (r :: rs)) :
    ∀ r' ∈ r :: rs, ∃ ws', Indexes L sha256d start ws' r' ∧ ws <+: ws' := by
  induction rs generalizing ws wss r with
  | nil =>
    intro r' hr'
    rw [List.mem_singleton.1 hr']
    exact ⟨ws, (List.forall₂_cons.1 h.runs).1, List.prefix_refl ws⟩
  | cons s rs ih =>
    obtain ⟨hruns, hgrows⟩ := h
    intro r' hr'
    rcases List.mem_cons.1 hr' with rfl | hr'
    · exact ⟨ws, (List.forall₂_cons.1 hruns).1, List.prefix_refl ws⟩
    · cases wss with
      | nil => cases (List.forall₂_cons.1 hruns).2
      | cons vs wss =>
        obtain ⟨ws', hws', hle⟩ := ih (Grows.tail ⟨hruns, hgrows⟩) r' hr'
        exact ⟨ws', hws', (List.isChain_cons_cons.1 hgrows).1.trans hle⟩

theorem Grows.tables (hstart : 0 ≤ start) (h : Grows L sha256d start wss rs) :
    (rs.map fun r => r.db.leaves).IsChain (· <+: ·) ∧ (rs.map fun r => r.db.nullifiers).IsChain (· <+: ·) := by
  induction rs generalizing wss with
  | nil => exact ⟨.nil, .nil⟩
  | cons r rs ih =>
    cases rs with
    | nil => exact ⟨.singleton _, .singleton _⟩
    | cons s rs =>
      obtain ⟨hruns, hgrows⟩ := h
      cases hruns with
      | cons hrun hruns =>
        cases hruns with
        | cons hrun' hruns =>
          obtain ⟨hle, hgrows⟩ := List.isChain_cons_cons.1 hgrows
          obtain ⟨hleaves, hnullifiers⟩ := hrun.grows hstart hrun' hle
          obtain ⟨ih₁, ih₂⟩ := ih ⟨.cons hrun' hruns, hgrows⟩
          exact ⟨List.isChain_cons_cons.2 ⟨hleaves, ih₁⟩, List.isChain_cons_cons.2 ⟨hnullifiers, ih₂⟩⟩

theorem prefix_last {α : Type} : ∀ {ts : List (List α)} {last : List α}, ts.IsChain (· <+: ·) → last ∈ ts.getLast? → ∀ t ∈ ts, t <+: last
  | [t], last, _, hlast, u, hu => by
    have heq : t = last := Option.some.inj hlast
    rw [List.mem_singleton.1 hu, heq]
  | t :: t' :: ts, last, hchain, hlast, u, hu => by
    obtain ⟨hstep, hchain⟩ := List.isChain_cons_cons.1 hchain
    rw [List.getLast?_cons_cons] at hlast
    rcases List.mem_cons.1 hu with heq | hu
    · rw [heq]
      exact hstep.trans (prefix_last hchain hlast t' List.mem_cons_self)
    · exact prefix_last hchain hlast u hu

/-! ## The feed -/

/-- The leaves from an index on. -/
theorem filter_index {start : Nat} : ∀ {l : List LeafRecord} {s : Nat}, l.map LeafRecord.leafIndex = List.range' s l.length →
    (l.filter fun x => start ≤ x.leafIndex) = l.drop (start - s)
  | [], _, _ => by simp
  | x :: l, s, h => by
    rw [List.map_cons, List.length_cons, List.range'_succ, List.cons.injEq] at h
    obtain ⟨rfl, hrest⟩ := h
    have ih : (l.filter fun x => start ≤ x.leafIndex) = l.drop (start - (x.leafIndex + 1)) := filter_index hrest
    by_cases hle : start ≤ x.leafIndex
    · have hnone : start - (x.leafIndex + 1) = 0 := by omega
      have hnone' : start - x.leafIndex = 0 := by omega
      have hkeep : ((x :: l).filter fun x => start ≤ x.leafIndex) = x :: l.filter fun x => start ≤ x.leafIndex :=
        List.filter_cons_of_pos (decide_eq_true hle)
      rw [hkeep, ih, hnone, hnone', List.drop_zero, List.drop_zero]
    · have hstep : start - x.leafIndex = start - (x.leafIndex + 1) + 1 := by omega
      have hskip : ((x :: l).filter fun x => start ≤ x.leafIndex) = l.filter fun x => start ≤ x.leafIndex :=
        List.filter_cons_of_neg (by simpa using hle)
      rw [hskip, ih, hstep, List.drop_succ_cons]

/-- A page of the feed. -/
theorem notes_eq {db : Tables} (h : db.leaves.map LeafRecord.leafIndex = List.range db.leaves.length) (start limit : Nat) :
    db.notes start limit = (db.leaves.drop start).take limit := by
  have hsorted : (db.leaves.filter fun x => start ≤ x.leafIndex).Pairwise fun a b => a.leafIndex ≤ b.leafIndex := by
    refine List.Pairwise.filter _ ?_
    have hrange : (db.leaves.map LeafRecord.leafIndex).Pairwise (· ≤ ·) := h ▸ List.pairwise_lt_range.imp Nat.le_of_lt
    exact List.pairwise_map.1 hrange
  rw [List.range_eq_range'] at h
  rw [Tables.notes, page, orderBy_of_sorted hsorted, filter_index h, Nat.sub_zero]

/-- **The loop over the feed** reads a beginning of the leaves, with all that were there at its first request unless it runs out of
requests. -/
theorem allNotes_eq {all : List LeafRecord} (hall : all.map LeafRecord.leafIndex = List.range all.length) :
    ∀ {rs : List Replica} {s : Nat}, (∀ r ∈ rs, r.db.leaves <+: all) → ∃ m, allNotes rs s = (all.drop s).take m ∧
      ∀ k, (∀ r ∈ rs, k ≤ r.db.leaves.length) → k ≤ s + 1000 * rs.length → k ≤ s + m
  | [], s, _ => ⟨0, rfl, fun k _ hk => hk⟩
  | r :: rs, s, hinit => by
    have hn : r.db.leaves = all.take r.db.leaves.length := List.prefix_iff_eq_take.1 (hinit r List.mem_cons_self)
    have hle : r.db.leaves.length ≤ all.length := (hinit r List.mem_cons_self).length_le
    have hindices : r.db.leaves.map LeafRecord.leafIndex = List.range r.db.leaves.length := by
      rw [hn, List.map_take, hall, List.take_range, List.length_take]
    let c := min 1000 (r.db.leaves.length - s)
    have hrows : r.db.notes s (limitOf (some 1000) 200 1000) = (all.drop s).take c := by
      rw [notes_eq hindices, hn, List.drop_take, List.take_take]
      rfl
    rw [allNotes, notesRoute]
    simp only [Option.getD_some, hrows]
    by_cases hc : c = 0
    · refine ⟨0, ?_, fun k hk _ => ?_⟩
      · rw [if_pos (.inl (by rw [hc, List.take_zero])), hc]
      · have := hk r List.mem_cons_self
        omega
    · have hlast : ((all.drop s).take c).getLast? = all[s + (c - 1)]? := by
        rw [List.getLast?_eq_getElem?, List.length_take, List.length_drop, List.getElem?_take_of_lt (by omega), List.getElem?_drop]
        congr 1
        omega
      obtain ⟨l, hl⟩ : ∃ l, all[s + (c - 1)]? = some l := ⟨_, List.getElem?_eq_getElem (by omega)⟩
      have hindex : l.leafIndex + 1 = s + c := by
        have hrange := congrArg (fun indices : List Nat => indices[s + (c - 1)]?) hall
        simp only [List.getElem?_map, hl, Option.map_some] at hrange
        rw [List.getElem?_range (by omega)] at hrange
        have hrange := Option.some.inj hrange
        omega
      have hinit' : ∀ r ∈ rs, r.db.leaves <+: all := fun r hr => hinit r (List.mem_cons_of_mem _ hr)
      obtain ⟨m, hm, hreach⟩ := allNotes_eq hall (s := s + c) hinit'
      have hgoes : ¬((all.drop s).take c = [] ∨ s + c = s) := by
        rw [not_or, ← ne_eq, ← List.length_pos_iff, List.length_take, List.length_drop]
        omega
      rw [hlast, hl, Option.elim_some, hindex, if_neg hgoes, hm]
      refine ⟨c + m, by rw [List.take_add, List.drop_drop], fun k hk hroom => ?_⟩
      rw [List.length_cons] at hroom
      have hfirst := hk r List.mem_cons_self
      by_cases hfull : c = 1000
      · have := hreach k (fun r hr => hk r (List.mem_cons_of_mem _ hr)) (by omega)
        omega
      · omega

/-- A replica before and after its first block. -/
theorem plain_grows : ∃ r, Grows generatorOnly Bitcoin.codeSha 0 [[], [plainWork]] [⟨.new, .empty⟩, r] ∧ r.db.nullifiers = [] := by
  obtain ⟨r, hr, -, hnullifiers, -⟩ := plain_run
  exact ⟨r, ⟨.cons .new (.cons hr .nil), .cons_cons (List.nil_prefix) (.singleton _)⟩, hnullifiers⟩

/-- Behind a row is behind its place. -/
theorem behind_row {n : NullifierRecord} (hword : n.nf ≠ "") :
    Tables.behind n.height n.nf = fun k => decide (Tables.placeOf n < k) := by
  funext k
  rw [Tables.behind, if_pos hword, decide_eq_decide, Prod.Lex.lt_iff]
  exact or_congr Iff.rfl (and_congr eq_comm Iff.rfl)

/-- Without a cursor a reading begins at its first block. -/
theorem behind_start (s : Int) (n : NullifierRecord) : Tables.behind s "" (Tables.placeOf n) = true ↔ s ≤ n.height := by
  rw [Tables.behind, if_neg (not_not.2 rfl), decide_eq_true_iff]
  show s - 1 < n.height ∨ n.height = s ∧ "" < n.nf ↔ s ≤ n.height
  omega

/-- The entry of a row. -/
def entryOf (n : NullifierRecord) : String × Int := (n.nf, n.height)

theorem nullifiersRoute_eq_ok {s : Int} {after : String} {j : NullifiersReply} (hs : 0 ≤ s)
    (h : nullifiersRoute r (some s) after (some 5000) = .ok j) :
    j.nullifiers = (page Tables.placeOf 5000 (Tables.behind s after) r.db.nullifiers).map entryOf ∧
    j.next = if (page Tables.placeOf 5000 (Tables.behind s after) r.db.nullifiers).length = 5000 then
      (page Tables.placeOf 5000 (Tables.behind s after) r.db.nullifiers).getLast?.map fun n => (n.height, n.nf) else none := by
  obtain ⟨_, -, h⟩ := except_bind_eq_ok.1 h
  have hmax : max 0 s = s := max_eq_right hs
  rw [Option.getD_some, hmax] at h
  obtain rfl := Except.ok.inj h
  exact ⟨rfl, rfl⟩

/-- **The loop over the nullifiers** enters the rows of its pages. -/
theorem spentLoop_eq_ok : ∀ {rs : List Replica} {s : Int} {after : String} {map map' : InsertionMap String Int},
    (∀ r ∈ rs, ∀ n ∈ r.db.nullifiers, 0 ≤ n.height ∧ n.nf ≠ "") → 0 ≤ s → spentLoop rs s after map = .ok map' →
    ∃ rows ended, ReadsPages Tables.placeOf 5000 (Tables.behind s after) (rs.map fun r => r.db.nullifiers) rows ended ∧
      map' = (rows.map entryOf).foldl (fun m e => m.set e.1 e.2) map
  | [], _, _, map, map', _, _, hrun => by
    rw [spentLoop] at hrun
    exact ⟨[], false, .out, (Except.ok.inj hrun).symm⟩
  | r :: rs, s, after, map, map', hrows, hs, hrun => by
    obtain ⟨j, hj, hrun⟩ := except_bind_eq_ok.1 hrun
    obtain ⟨hentries, hnext⟩ := nullifiersRoute_eq_ok hs hj
    rw [hentries, hnext] at hrun
    split_ifs at hrun with hfull
    · obtain ⟨n, hn⟩ : ∃ n, (page Tables.placeOf 5000 (Tables.behind s after) r.db.nullifiers).getLast? = some n := by
        rw [← Option.isSome_iff_exists, List.getLast?_isSome]
        rintro hnil
        rw [hnil] at hfull
        cases hfull
      obtain ⟨hheight, hword⟩ := hrows r List.mem_cons_self n (mem_page (List.mem_of_mem_getLast? hn)).1
      rw [hn, Option.map_some] at hrun
      obtain ⟨rows, ended, hreads, rfl⟩ := spentLoop_eq_ok (fun r hr => hrows r (List.mem_cons_of_mem _ hr)) hheight hrun
      rw [behind_row hword] at hreads
      refine ⟨_, ended, .more hfull hn hreads, ?_⟩
      rw [List.map_append, List.foldl_append]
    · have hshort : (page Tables.placeOf 5000 (Tables.behind s after) r.db.nullifiers).length < 5000 :=
        lt_of_le_of_ne (List.length_take_le ..) hfull
      exact ⟨_, true, .last hshort, (Except.ok.inj hrun).symm⟩

/-- Below a height the map has the rows of the table. -/
def Covers (map : InsertionMap String Int) (db : Tables) (bound : Int) : Prop := ∀ nf k, k < bound →
  (map.get? nf = some k ↔ ∃ n ∈ db.nullifiers, n.nf = nf ∧ n.height = k)

theorem mem_of_deleteFrom_eq {db db' : Tables} {bound : Int} (hsame : deleteFrom bound db = deleteFrom bound db') {n : NullifierRecord}
    (hn : n.height < bound) : n ∈ db.nullifiers ↔ n ∈ db'.nullifiers := by
  have hfilter := congrArg (fun d => n ∈ d.nullifiers) hsame
  simp only [deleteFrom, List.mem_filter, decide_eq_true hn, and_true] at hfilter
  exact iff_of_eq hfilter

theorem Covers.congr {map : InsertionMap String Int} {db db' : Tables} {bound : Int} (h : Covers map db bound)
    (hsame : deleteFrom bound db = deleteFrom bound db') : Covers map db' bound := by
  intro nf k hk
  rw [h nf k hk]
  constructor
  · rintro ⟨n, hn, rfl, rfl⟩
    exact ⟨n, (mem_of_deleteFrom_eq hsame hk).1 hn, rfl, rfl⟩
  · rintro ⟨n, hn, rfl, rfl⟩
    exact ⟨n, (mem_of_deleteFrom_eq hsame hk).2 hn, rfl, rfl⟩

/-- What is kept of a memo. -/
theorem kept_get? {m : Memo} {nf : String} {k : Int} :
    (Memo.kept (some m)).get? nf = some k ↔ m.map.get? nf = some k ∧ k < Memo.start (some m) := by
  have hnodup : ((m.map.entries.filter fun e => e.2 < Memo.start (some m)).map Prod.fst).Nodup :=
    m.map.nodup.sublist ((List.filter_sublist ..).map _)
  have hentries : (Memo.kept (some m)).entries = m.map.entries.filter fun e => e.2 < Memo.start (some m) :=
    InsertionMap.setAll_entries (m := .empty) hnodup
  rw [InsertionMap.get?_eq_some, InsertionMap.get?_eq_some, hentries, List.mem_filter, decide_eq_true_iff]

theorem Indexes.nullifier_rows (hstart : 0 ≤ start) (h : Indexes L sha256d start ws r) :
    ∀ n ∈ r.db.nullifiers, 0 ≤ n.height ∧ n.nf ≠ "" := by
  obtain ⟨g, log, hr⟩ := h.replayed hstart
  have hnullifiers : r.db.nullifiers = g.nullifiers := by rw [hr.holds.db, hr.holds.logs.nullifiers]
  intro n hn
  have hmem : n ∈ g.nullifiers := hnullifiers ▸ hn
  have hle := hr.holds.coherent.nullifiers_stamped.le n hmem
  refine ⟨hstart.trans (hr.first ▸ hle), fun hempty => ?_⟩
  have hword := hr.is_ledger.words n hn
  rw [hempty] at hword
  cases hword

/-- Nothing is kept from where the reading starts. -/
theorem kept_below {memo : Option Memo} {nf : String} {k : Int} (h : (Memo.kept memo).get? nf = some k) : k < Memo.start memo := by
  cases memo with
  | none => cases h
  | some m => exact (kept_get?.1 h).2

/-- Rows of a table with one row a word, entered over a map: a word of the table has its row, if it was read, or what it had. -/
theorem entered_get? {rows table : List NullifierRecord} {map : InsertionMap String Int} (hsound : rows ⊆ table)
    (honce : (table.map NullifierRecord.nf).Nodup) {n : NullifierRecord} (hn : n ∈ table) :
    ((rows.map entryOf).foldl (fun m e => m.set e.1 e.2) map).get? n.nf =
      if n.nf ∈ rows.map NullifierRecord.nf then some n.height else map.get? n.nf := by
  have hentries : ∀ e ∈ rows.map entryOf, e.1 = n.nf → e.2 = n.height := by
    intro e he heq
    obtain ⟨n', hn', rfl⟩ := List.mem_map.1 he
    rw [List.inj_on_of_nodup_map honce (hsound hn') hn heq]
    rfl
  have hwords : (rows.map entryOf).map Prod.fst = rows.map NullifierRecord.nf := by
    rw [List.map_map]
    rfl
  rw [InsertionMap.get?_setAll hentries, hwords]

/-- An entry is that of a row, or was there before. -/
theorem entered_of_get? {rows table : List NullifierRecord} {map : InsertionMap String Int} (hsound : rows ⊆ table)
    (honce : (table.map NullifierRecord.nf).Nodup) {nf : String} {k : Int}
    (h : ((rows.map entryOf).foldl (fun m e => m.set e.1 e.2) map).get? nf = some k) :
    (∃ n ∈ rows, n.nf = nf ∧ n.height = k) ∨ map.get? nf = some k := by
  by_cases hread : nf ∈ (rows.map entryOf).map Prod.fst
  · rw [List.map_map] at hread
    obtain ⟨n, hn, rfl⟩ := List.mem_map.1 hread
    have hrow : ((rows.map entryOf).foldl (fun m e => m.set e.1 e.2) map).get? n.nf = _ := entered_get? hsound honce (hsound hn)
    rw [if_pos (List.mem_map_of_mem hn)] at hrow
    exact .inl ⟨n, hn, rfl, Option.some.inj (hrow.symm.trans h)⟩
  · have hsame : ((rows.map entryOf).foldl (fun m e => m.set e.1 e.2) map).get? nf =
        if nf ∈ (rows.map entryOf).map Prod.fst then some k else map.get? nf :=
      InsertionMap.get?_setAll fun e he heq => (hread (heq ▸ List.mem_map_of_mem he)).elim
    rw [if_neg hread] at hsame
    exact .inr (hsame.symm.trans h)

/-- The nullifiers of replicas that grow: one row a word, and all of them among the last replica's. -/
theorem Grows.nullifiers (hstart : 0 ≤ start) {p last : Replica} (h : Grows L sha256d start (ws :: wss) (p :: rs))
    (hlast : last ∈ (p :: rs).getLast?) : ∀ q ∈ p :: rs, (∀ n ∈ q.db.nullifiers, 0 ≤ n.height ∧ n.nf ≠ "") ∧
      (q.db.nullifiers.map NullifierRecord.nf).Nodup ∧ q.db.nullifiers ⊆ last.db.nullifiers := by
  intro q hq
  obtain ⟨vs, hvs, -⟩ := h.first q hq
  obtain ⟨g, log, hr⟩ := hvs.replayed hstart
  have hinit : q.db.nullifiers <+: last.db.nullifiers := by
    refine prefix_last (h.tables hstart).2 ?_ _ (List.mem_map_of_mem hq)
    rw [List.getLast?_map, Option.mem_def.1 hlast]
    rfl
  exact ⟨hvs.nullifier_rows hstart, hr.is_ledger.spent_once, hinit.subset⟩

/-- **A reading** that begins where the memo is right has every row of its first page's table, and none that the last one has not. -/
theorem Grows.spentList (hstart : 0 ≤ start) {p last : Replica} (h : Grows L sha256d start (ws :: wss) (p :: rs))
    (hlast : last ∈ (p :: rs).getLast?) (hroom : last.db.nullifiers.length < 5000 * (rs.length + 1)) {memo : Option Memo} {memo' : Memo}
    (hcovers : Covers (Memo.kept memo) p.db (Memo.start memo)) (hrun : spentList memo r (p :: rs) = .ok memo') :
    (∀ n ∈ p.db.nullifiers, memo'.map.get? n.nf = some n.height) ∧
      ∀ nf k, memo'.map.get? nf = some k → ∃ n ∈ last.db.nullifiers, n.nf = nf ∧ n.height = k := by
  have hzero : 0 ≤ Memo.start memo := by
    cases memo with
    | none => exact le_rfl
    | some m => exact le_max_left ..
  have htables := h.nullifiers hstart hlast
  obtain ⟨-, honce, -⟩ := htables last (List.mem_of_mem_getLast? hlast)
  obtain ⟨-, -, hfirst⟩ := htables p List.mem_cons_self
  obtain ⟨map, hmap, hrun⟩ := except_bind_eq_ok.1 hrun
  obtain rfl := Except.ok.inj hrun
  obtain ⟨rows, ended, hreads, rfl⟩ := spentLoop_eq_ok (fun q hq => (htables q hq).1) hzero hmap
  have hkeys : ∀ t ∈ (p :: rs).map fun q => q.db.nullifiers, (t.map Tables.placeOf).Nodup := by
    intro t ht
    obtain ⟨q, hq, rfl⟩ := List.mem_map.1 ht
    refine List.Nodup.of_map (fun k => (ofLex k).2) ?_
    rw [List.map_map]
    exact (htables q hq).2.1
  have hall : ∀ t ∈ (p :: rs).map fun q => q.db.nullifiers, t ⊆ last.db.nullifiers := by
    intro t ht
    obtain ⟨q, hq, rfl⟩ := List.mem_map.1 ht
    exact (htables q hq).2.2
  have hsound : rows ⊆ last.db.nullifiers := by
    intro n hn
    obtain ⟨t, ht, hnt⟩ := hreads.sound n hn
    exact hall t ht hnt
  have hended := hreads.ends hkeys hall (by rwa [List.length_map, List.length_cons])
  have hcomplete := hreads.complete hended hkeys ((h.tables hstart).2.imp fun _ _ hle => hle.subset) _ rfl
  constructor
  · intro n hn
    rw [entered_get? hsound honce (hfirst hn)]
    split_ifs with hread
    · rfl
    · have hbelow : n.height < Memo.start memo := by
        by_contra hle
        exact hread (List.mem_map_of_mem (hcomplete n hn ((behind_start _ n).2 (not_lt.1 hle))))
      exact (hcovers n.nf n.height hbelow).2 ⟨n, hn, rfl, rfl⟩
  · intro nf k hnf
    rcases entered_of_get? hsound honce hnf with ⟨n, hn, rfl, rfl⟩ | hkept
    · exact ⟨n, hsound hn, rfl, rfl⟩
    · obtain ⟨n, hn, hword, hheight⟩ := (hcovers nf k (kept_below hkept)).1 hkept
      exact ⟨n, hfirst hn, hword, hheight⟩

variable (L sha256d start) in
/-- The memo of a wallet, and the blocks at which its last reading asked for the status. -/
inductive Remembers : Option Memo → List Work → Prop
  | none : Remembers none []
  | read {memo : Option Memo} {memo' : Memo} {ws ws₁ ws₂ : List Work} {wss : List (List Work)} {r p last : Replica} {rs : List Replica} :
      Remembers memo ws → Grows L sha256d start (ws₁ :: ws₂ :: wss) (r :: p :: rs) →
      ws.take (Memo.start memo - start).toNat = ws₂.take (Memo.start memo - start).toNat →
      last ∈ (p :: rs).getLast? → last.db.nullifiers.length < 5000 * (rs.length + 1) →
      Replay.spentList memo r (p :: rs) = .ok memo' → Remembers (some memo') ws₁

theorem Remembers.stood {memo : Option Memo} (h : Remembers L sha256d start memo ws) : ∃ q, Indexes L sha256d start ws q := by
  cases h with
  | none => exact ⟨_, .new⟩
  | read _ hgrows => exact ⟨_, (List.forall₂_cons.1 hgrows.runs).1⟩

/-- The next reading starts in the blocks of the last one. -/
theorem spentList_start {rs : List Replica} {memo : Option Memo} {memo' : Memo} (hstart : 0 ≤ start) (h : Indexes L sha256d start ws r)
    (hrun : spentList memo r rs = .ok memo') : (Memo.start (some memo') - start).toNat ≤ ws.length := by
  obtain ⟨g, log, hr⟩ := h.replayed hstart
  obtain ⟨map, -, hrun⟩ := except_bind_eq_ok.1 hrun
  obtain rfl := Except.ok.inj hrun
  have hnext := hr.nextHeight
  rw [nextHeight] at hnext
  show (max 0 (r.state.tip.getD 0 - 12) - start).toNat ≤ ws.length
  cases htip : r.state.tip with
  | none =>
    rw [Option.getD_none]
    omega
  | some tip =>
    rw [htip, Option.map_some, Option.getD_some] at hnext
    rw [Option.getD_some]
    omega

/-- Where the next reading starts, the memo is right. -/
theorem Remembers.covers (hstart : 0 ≤ start) {memo : Option Memo} (h : Remembers L sha256d start memo ws) {q : Replica}
    (hq : Indexes L sha256d start ws q) : Covers (Memo.kept memo) q.db (Memo.start memo) := by
  induction h generalizing q with
  | none =>
    intro nf k hk
    refine iff_of_false (fun h => (Option.some_ne_none _ h.symm).elim) ?_
    rintro ⟨n, hn, -, rfl⟩
    exact Int.not_lt.2 (hq.nullifier_rows hstart n hn).1 hk
  | @read memo memo' ws ws₁ ws₂ wss r p last rs hbefore hgrows hsame hlast hroom hrun ih =>
    obtain ⟨q₀, hq₀⟩ := hbefore.stood
    have hp := (List.forall₂_cons.1 hgrows.tail.runs).1
    obtain ⟨hcomplete, hsound⟩ := hgrows.tail.spentList hstart hlast hroom ((ih hq₀).congr (hq₀.below_same hstart hp hsame)) hrun
    have hshort := spentList_start hstart (List.forall₂_cons.1 hgrows.runs).1 hrun
    have hstands : ∀ q' ∈ p :: rs, deleteFrom (Memo.start (some memo')) q.db = deleteFrom (Memo.start (some memo')) q'.db := by
      intro q' hq'
      obtain ⟨ws', hws', hle⟩ := hgrows.first q' (List.mem_cons_of_mem _ hq')
      refine hq.below_same hstart hws' ?_
      obtain ⟨rest, rfl⟩ := hle
      rw [List.take_append_of_le_length hshort]
    intro nf k hk
    rw [kept_get?]
    constructor
    · rintro ⟨hget, -⟩
      obtain ⟨n, hn, rfl, rfl⟩ := hsound nf k hget
      exact ⟨n, (mem_of_deleteFrom_eq (hstands last (List.mem_of_mem_getLast? hlast)) hk).2 hn, rfl, rfl⟩
    · rintro ⟨n, hn, rfl, rfl⟩
      exact ⟨hcomplete n ((mem_of_deleteFrom_eq (hstands p List.mem_cons_self) hk).1 hn), hk⟩

/-- A first page without rows ends the reading. -/
theorem spentList_of_empty {memo : Option Memo} {p : Replica} (hp : p.db.nullifiers = []) :
    spentList memo r (p :: rs) = .ok ⟨Memo.kept memo, r.state.tip.getD 0⟩ := by
  have hroute : ∀ s, nullifiersRoute p (some s) "" (some 5000) = .ok ⟨p.state.tip, [], none⟩ := by
    intro s
    have hrows : p.db.nullifiersFrom (max 0 s) "" 5000 = [] := by
      rw [Tables.nullifiersFrom, hp]
      simp [page, orderBy]
    have hlimit : limitOf (some 5000) 2000 5000 = 5000 := rfl
    rw [nullifiersRoute, refuse, if_neg fun h => h.1 rfl, except_ok_bind, hlimit, Option.getD_some]
    dsimp only
    rw [hrows]
    rfl
  rw [spentList, spentLoop, hroute, except_ok_bind]
  rfl

end

end Replay

end Tacit
