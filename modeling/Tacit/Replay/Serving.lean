import Mathlib.Data.Prod.Lex
import Mathlib.Data.String.Basic
import Tacit.Lib.Paging
import Tacit.Replay.Anchored
import Tacit.Replay.Recovery
/-!
# What the indexer serves (worker-relay/src/btc-pool-indexer.js:309-388)

The routes read the state and the tables between two blocks. A parameter of a query is absent or a number. What a route answers is one
of the state's and the tables' alike, and a path always leads to the root beside it.
-/
namespace Tacit

namespace Replay

open Prog Merkle

/-- An answer with an error; `failed` is the 500 whose text is that of what was thrown. -/
inductive Refusal
  | status (code : Nat) (error : String)
  | failed

structure RootReply where
  height : Int
  root : Bytes
  blockHash : Word
  retained : Bool

structure PathReply where
  leafIndex : Nat
  leaf : Bytes
  height : Option Int
  hAnchor : Option Int
  root : Bytes
  path : List Bytes

structure NotesReply where
  height : Option Int
  start : Nat
  notes : List LeafRecord
  next : Nat

structure NullifiersReply where
  height : Option Int
  nullifiers : List (String × Int)
  next : Option (Int × String)

/-! ## The selects (worker-relay/src/lib/btc-pool-store.js:71-78) -/

namespace Tables

/-- `notes` (:123). -/
def notes (db : Tables) (start limit : Nat) : List LeafRecord := page LeafRecord.leafIndex limit (fun k => start ≤ k) db.leaves

/-- `nullifier` (:124). -/
def nullifier (db : Tables) (nf : String) : Option NullifierRecord := db.nullifiers.find? fun n => n.nf = nf

/-- The order of `nullifiersFrom`. -/
def placeOf (n : NullifierRecord) : Lex (Int × String) := toLex (n.height, n.nf)

/-- `WHERE height > ? OR (height = ? AND nf > ?)`. -/
def behind (start : Int) (after : String) (k : Lex (Int × String)) : Bool :=
  (if after ≠ "" then start else start - 1) < (ofLex k).1 ∨ (ofLex k).1 = start ∧ after < (ofLex k).2

/-- `nullifiersFrom` (:126). -/
def nullifiersFrom (db : Tables) (start : Int) (after : String) (limit : Nat) : List NullifierRecord :=
  page placeOf limit (behind start after) db.nullifiers

/-- `exit` (:127). -/
def exit (db : Tables) (txid : String) (vout : Nat) : Option ExitRecord := db.exits.find? fun x => x.outpoint = (txid, vout)

end Tables

/-! ## The routes -/

/-- `Math.min(most, Math.max(1, Number(limit) || usual))`. -/
def limitOf (limit : Option Nat) (usual most : Nat) : Nat :=
  min most (max 1 (match limit with | none | some 0 => usual | some n => n))

/-- `/btc-pool/root/…` (:331). -/
def rootRoute (r : Replica) (h : Nat) : Except Refusal RootReply := do
  let b ← need (r.db.block h) (.status 404 "height not replayed")
  return ⟨b.height, b.root, b.hash, r.state.roots.has b.height⟩

/-- `/^[0-9a-f]{64}$/`. -/
def IsHex64 (s : String) : Prop := s.length = 64 ∧ ∀ c ∈ s.toList, c ∈ "0123456789abcdef".toList

instance (s : String) : Decidable (IsHex64 s) := inferInstanceAs (Decidable (_ ∧ _))

/-- `/btc-pool/notes` (:356). -/
def notesRoute (r : Replica) (start limit : Option Nat) : NotesReply :=
  let start := start.getD 0
  let rows := r.db.notes start (limitOf limit 200 1000)
  ⟨r.state.tip, start, rows, rows.getLast?.elim start fun l => l.leafIndex + 1⟩

/-- `/btc-pool/nullifiers` (:362). -/
def nullifiersRoute (r : Replica) (start : Option Int) (after : String) (limit : Option Nat) : Except Refusal NullifiersReply := do
  let start := max 0 (start.getD 0)
  refuse (after ≠ "" ∧ ¬IsHex64 after) (.status 400 "after must be a nullifier")
  let limit := limitOf limit 2000 5000
  let rows := r.db.nullifiersFrom start after limit
  return ⟨r.state.tip, rows.map fun n => (n.nf, n.height),
    if rows.length = limit then rows.getLast?.map fun n => (n.height, n.nf) else none⟩

/-- `/btc-pool/nullifier/…` (:372): the row that spent it, or else the tip. -/
def nullifierRoute (r : Replica) (nf : String) : NullifierRecord ⊕ Option Int := (r.db.nullifier nf).elim (.inr r.state.tip) .inl

/-- `/btc-pool/exit/…` (:376): its row, or else the tip. -/
def exitRoute (r : Replica) (txid : String) (vout : Nat) : ExitRecord ⊕ Option Int :=
  (r.db.exit txid vout).elim (.inr r.state.tip) .inl

section

variable {P : Type} (L : Library P)

/-- `/btc-pool/path/…` (:336). -/
def pathRoute (st : BtcPoolState) (i : Nat) (anchor : Option Nat) : Except Refusal PathReply := do
  refuse (st.pending.isSome = true) (.status 503 "block in progress")
  match anchor with
  | some a => do
    let R ← need (st.roots.get? a) (.status 404 "no root retained for that height")
    let n ← need (leafCountAt st a) .failed
    refuse (n ≤ i) (.status 404 "no such leaf at that height")
    let (root, path) ← need (st.tree.rootAndPathAt L i n) .failed
    refuse (root ≠ R) (.status 500 ("root at " ++ toString a ++ " does not match the retained root"))
    return ⟨i, st.tree.leaf i, st.tip, some a, root, path⟩
  | none => do
    refuse (st.tree.size ≤ i) (.status 404 "no such leaf")
    let (root, path) ← need (st.tree.rootAndPath L i) .failed
    return ⟨i, st.tree.leaf i, st.tip, none, root, path⟩

variable {L}

/-- The route at a height, between two blocks. -/
theorem pathRoute_answers {st : BtcPoolState} {a i : Nat} (hclosed : st.pending = none) :
    (st.roots.get? a = none → pathRoute L st i (some a) = .error (.status 404 "no root retained for that height")) ∧
    ∀ R n, st.roots.get? a = some R → leafCountAt st a = some n →
      (n ≤ i → pathRoute L st i (some a) = .error (.status 404 "no such leaf at that height")) ∧
      ∀ path, i < n → st.tree.rootAndPathAt L i n = some (R, path) →
        pathRoute L st i (some a) = .ok ⟨i, st.tree.leaf i, st.tip, some (a : Int), R, path⟩ := by
  have hroute : ∀ R n, st.roots.get? a = some R → leafCountAt st a = some n → pathRoute L st i (some a) = (do
      refuse (n ≤ i) (.status 404 "no such leaf at that height")
      let (root, path) ← need (st.tree.rootAndPathAt L i n) .failed
      refuse (root ≠ R) (.status 500 ("root at " ++ toString a ++ " does not match the retained root"))
      return ⟨i, st.tree.leaf i, st.tip, some (a : Int), root, path⟩) := by
    intro R n hR hn
    rw [pathRoute, hclosed]
    dsimp only
    rw [hR, hn]
    rfl
  refine ⟨fun hnone => ?_, fun R n hR hn => ⟨fun hle => ?_, fun path hlt hpath => ?_⟩⟩
  · rw [pathRoute, hclosed]
    dsimp only
    rw [hnone]
    rfl
  · rw [hroute R n hR hn, refuse, if_pos hle, except_error_bind]
  · rw [hroute R n hR hn, refuse, if_neg (Nat.not_le_of_lt hlt), except_ok_bind, hpath, need, Option.elim_some, except_ok_bind]
    dsimp only
    rw [refuse, if_neg (not_not.2 rfl)]
    rfl

/-- The route in a state that stands at a history. -/
theorem Standing.pathRoute {g : History} {st : BtcPoolState} (hst : Standing L g st) (hsmall : g.leaves.length ≤ 2 ^ 30) {a i : Nat}
    (hanchor : g.Anchor a) :
    ((g.below (a + 1)).leaves.length ≤ i → pathRoute L st i (some a) = .error (.status 404 "no such leaf at that height")) ∧
    (i < (g.below (a + 1)).leaves.length → pathRoute L st i (some a) =
      .ok ⟨i, st.tree.leaf i, st.tip, some (a : Int), g.rootAt L a, (PoseidonTree.answer L (g.below (a + 1)).values i).2⟩) := by
  have hroot := hst.rests.records.roots a
  rw [if_pos hanchor] at hroot
  obtain ⟨hmissing, hfound⟩ := (pathRoute_answers hst.rests.closed).2 _ _ hroot (hst.leafCountAt hsmall a)
  exact ⟨hmissing, fun hi => hfound _ hi (hst.rootAndPathAt hi hsmall)⟩

/-- The leaf row of an index. -/
theorem History.Coherent.leaf_at {g : History} (hg : g.Coherent) {l : LeafRecord} {n : Nat} :
    l ∈ g.leaves.take n ↔ g.leaves[l.leafIndex]? = some l ∧ l.leafIndex < n := by
  have hindex : ∀ i, (g.leaves[i]?).map LeafRecord.leafIndex = if i < g.leaves.length then some i else none := by
    intro i
    rw [← List.getElem?_map, hg.indices]
    split_ifs with hi
    · exact List.getElem?_range hi
    · exact List.getElem?_eq_none (by simpa using Nat.le_of_not_lt hi)
  constructor
  · intro hl
    obtain ⟨i, hi⟩ := List.mem_iff_getElem?.1 hl
    rw [List.getElem?_take] at hi
    split_ifs at hi with hlt
    have hsame := hindex i
    rw [hi, Option.map_some, if_pos (List.getElem?_eq_some_iff.1 hi).1] at hsame
    rw [Option.some.inj hsame]
    exact ⟨hi, hlt⟩
  · rintro ⟨hl, hlt⟩
    refine List.mem_of_getElem? (i := l.leafIndex) ?_
    rw [List.getElem?_take, if_pos hlt, hl]

theorem History.Coherent.value_at {g : History} (hg : g.Coherent) {l : LeafRecord} (hl : l ∈ g.leaves) :
    g.values.getD l.leafIndex 0 = bytesToBig l.leaf := by
  rw [← List.take_length (l := g.leaves)] at hl
  rw [History.values, List.getD_eq_getElem?_getD, List.getElem?_map, (hg.leaf_at.1 hl).1]
  rfl

end

section

variable {P : Type} [AddCommGroup P] [DecidableEq P] {L : Library P} {sha256d : Bytes → Word} {start : Int} {ws : List Work} {r : Replica}

theorem elim_eq_inl {α β : Type} {o : Option α} {b : β} {a : α} : (o.elim (Sum.inr b) .inl : α ⊕ β) = .inl a ↔ o = some a := by
  cases o <;> simp

/-- **What is served** of a nullifier, an exit or a root is what the replay decides by. -/
theorem Indexes.lookups_agree (hstart : 0 ≤ start) (h : Indexes L sha256d start ws r) :
    (∀ nf n, nullifierRoute r nf = .inl n ↔ r.state.nullifiers.get? nf = some n) ∧
    (∀ x, exitRoute r x.txid x.vout = .inl x ↔ r.state.exits.get? x.key = some x) ∧
    ∀ (a : Nat) reply, rootRoute r a = .ok reply → reply.root = leavesRoot L (r.db.leaves.filter fun l => l.height ≤ a) ∧
      (reply.retained = true ↔ nextHeight start r.state - ANCHOR_WINDOW ≤ a) := by
  obtain ⟨g, log, hr⟩ := h.replayed hstart
  have hledger := hr.is_ledger
  refine ⟨fun nf n => ?_, fun x => ?_, fun a reply hreply => ?_⟩
  · rw [nullifierRoute, elim_eq_inl, hledger.nullifiers]
    exact find?_key hledger.spent_once
  · rw [exitRoute, elim_eq_inl, hledger.exits]
    exact (find?_key hledger.exits_once).trans (and_congr_right fun _ => iff_of_true rfl rfl)
  · obtain ⟨b, hb, hreply⟩ := except_bind_eq_ok.1 hreply
    obtain rfl := Except.ok.inj hreply
    have hblock : r.db.block a = some b := need_eq_ok.1 hb
    obtain ⟨hmem, hheight⟩ : b ∈ r.db.blocks ∧ b.height = a := by
      rw [hr.holds.db] at hblock ⊢
      exact (find?_key hr.holds.logs.blocks_nodup).1 hblock
    have hanchor := hledger.anchors a
    rw [hblock, Option.map_some] at hanchor
    rw [hledger.roots b hmem, hheight]
    refine ⟨rfl, ?_⟩
    rw [← Bool.not_eq_false, ← InsertionMap.get?_eq_none, hanchor]
    by_cases hwindow : nextHeight start r.state - ANCHOR_WINDOW ≤ a
    · rw [if_pos hwindow]
      exact iff_of_true (Option.some_ne_none _) hwindow
    · rw [if_neg hwindow]
      exact iff_of_false (not_not.2 rfl) hwindow

theorem Indexes.lookups_agree_plain : ∃ r, Indexes generatorOnly Bitcoin.codeSha 0 [plainWork] r ∧
    (∀ nf n, nullifierRoute r nf = .inl n ↔ r.state.nullifiers.get? nf = some n) ∧
    (∀ x, exitRoute r x.txid x.vout = .inl x ↔ r.state.exits.get? x.key = some x) ∧
    ∀ (a : Nat) reply, rootRoute r a = .ok reply →
      reply.root = leavesRoot generatorOnly (r.db.leaves.filter fun l => l.height ≤ a) ∧
      (reply.retained = true ↔ nextHeight 0 r.state - ANCHOR_WINDOW ≤ a) := by
  obtain ⟨r, hr, -⟩ := plain_run
  exact ⟨r, hr, Indexes.lookups_agree le_rfl hr⟩

/-- **A path at a height** is refused only where the root or the leaf is missing; otherwise it leads from the leaf's row to the root of
the block's row. -/
theorem Indexes.pathRoute_at (hstart : 0 ≤ start) (h : Indexes L sha256d start ws r) (hsmall : r.db.leaves.length ≤ 2 ^ 30)
    (hnode : ∀ a b, L.poseidon2 a b < P_FR) (i a : Nat) :
    (pathRoute L r.state i (some a) = .error (.status 404 "no root retained for that height") ∧
      (nextHeight start r.state - ANCHOR_WINDOW ≤ a → r.db.block a = none)) ∨
    (pathRoute L r.state i (some a) = .error (.status 404 "no such leaf at that height") ∧
      ∀ l ∈ r.db.leaves, l.leafIndex = i → a < l.height) ∨
    ∃ b l path, r.db.block a = some b ∧ l ∈ r.db.leaves ∧ l.leafIndex = i ∧ l.height ≤ a ∧
      pathRoute L r.state i (some a) = .ok ⟨i, bigTo32 (bytesToBig l.leaf), r.state.tip, some (a : Int), b.root, path⟩ ∧
      rootFromPath L (bigTo32 (bytesToBig l.leaf)) i path = some b.root := by
  obtain ⟨g, log, hr⟩ := h.replayed hstart
  have hst := hr.holds.standing
  have hg := hr.holds.coherent
  have hleaves : r.db.leaves = g.leaves := by rw [hr.holds.db, hr.holds.logs.leaves]
  rw [hleaves] at hsmall ⊢
  have hbelow : (g.below (a + 1)).leaves = g.leaves.take (g.below (a + 1)).leaves.length := History.leaves_take _
  have hanchor := hr.is_ledger.anchors a
  by_cases hkept : g.Anchor a
  · have hroot := hst.rests.records.roots a
    rw [if_pos hkept] at hroot
    rw [hroot] at hanchor
    split_ifs at hanchor
    obtain ⟨b, hb, hR⟩ := Option.map_eq_some_iff.1 hanchor.symm
    obtain ⟨hmissing, hfound⟩ := hst.pathRoute hsmall (i := i) hkept
    by_cases hi : (g.below (a + 1)).leaves.length ≤ i
    · refine .inr (.inl ⟨hmissing hi, fun l hl hindex => ?_⟩)
      by_contra hle
      have hmem : l ∈ (g.below (a + 1)).leaves := by
        rw [hg.leaves_below]
        exact List.mem_filter.2 ⟨hl, decide_eq_true (not_lt.1 hle)⟩
      rw [hbelow, hg.leaf_at] at hmem
      omega
    · have hi := Nat.lt_of_not_le hi
      obtain ⟨l, hl⟩ : ∃ l, g.leaves[i]? = some l := by
        rw [hbelow, List.length_take] at hi
        exact ⟨_, List.getElem?_eq_getElem (by omega)⟩
      have hmem : l ∈ (g.below (a + 1)).leaves := by
        rw [hbelow]
        refine List.mem_of_getElem? (i := i) ?_
        rw [List.getElem?_take, if_pos hi, hl]
      have hindex : l.leafIndex = i := by
        have hrange := congrArg (fun indices : List Nat => indices[i]?) hg.indices
        simp only [List.getElem?_map, hl, Option.map_some] at hrange
        rw [List.getElem?_range (List.getElem?_eq_some_iff.1 hl).1] at hrange
        exact Option.some.inj hrange
      have hvalue : g.values.getD i 0 = bytesToBig l.leaf := hindex ▸ hg.value_at (List.mem_of_getElem? hl)
      have hfold := hg.path_leads hnode (a := a) hi
      have hleaf := hst.leaf i
      rw [hvalue, ← hR] at hfold
      rw [hvalue] at hleaf
      refine .inr (.inr ⟨b, l, _, hb, List.mem_of_getElem? hl, hindex, ?_, ?_, hfold⟩)
      · rw [hg.leaves_below] at hmem
        exact of_decide_eq_true (List.mem_filter.1 hmem).2
      · rw [← hleaf, hR]
        exact hfound hi
  · have hroot := hst.rests.records.roots a
    rw [if_neg hkept] at hroot
    refine .inl ⟨(pathRoute_answers hst.rests.closed).1 hroot, fun hwindow => ?_⟩
    rw [hroot, if_pos hwindow] at hanchor
    exact Option.map_eq_none_iff.1 hanchor.symm

theorem Indexes.pathRoute_at_plain : ∃ r, Indexes generatorOnly Bitcoin.codeSha 0 [plainWork] r ∧
    ((pathRoute generatorOnly r.state 0 (some 0) = .error (.status 404 "no root retained for that height") ∧
      (nextHeight 0 r.state - ANCHOR_WINDOW ≤ (0 : Nat) → r.db.block (0 : Nat) = none)) ∨
    (pathRoute generatorOnly r.state 0 (some 0) = .error (.status 404 "no such leaf at that height") ∧
      ∀ l ∈ r.db.leaves, l.leafIndex = 0 → ((0 : Nat) : Int) < l.height) ∨
    ∃ b l path, r.db.block (0 : Nat) = some b ∧ l ∈ r.db.leaves ∧ l.leafIndex = 0 ∧ l.height ≤ (0 : Nat) ∧
      pathRoute generatorOnly r.state 0 (some 0) =
        .ok ⟨0, bigTo32 (bytesToBig l.leaf), r.state.tip, some ((0 : Nat) : Int), b.root, path⟩ ∧
      rootFromPath generatorOnly (bigTo32 (bytesToBig l.leaf)) 0 path = some b.root) := by
  obtain ⟨r, hr, hleaves, -⟩ := plain_run
  exact ⟨r, hr, Indexes.pathRoute_at le_rfl hr (hleaves ▸ Nat.zero_le _) (fun _ _ => show 1 < P_FR by decide) 0 0⟩

end

end Replay

end Tacit
