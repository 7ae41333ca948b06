import Tacit.Replay.Client
/-!
# The anchor and the paths of a spend (dapp/btc-pool-client.js:212-252)

A wallet that spends asks for the status, a root and the feed, each answered by whoever it asks. What it is told to wait is exact, and
without the named paths it takes no path that it has not checked against the root.
-/
namespace Tacit

namespace Replay

open Prog Merkle

/-! ## The shared anchor (dapp/btc-shielded-pool.js:37-57) -/

def ANCHOR_STEP : Int := 6

/-- `checkU32` (:41). -/
def checkU32 (x : Int) (name : String) : Except (Option String) Int := do
  refuse (¬(0 ≤ x ∧ x < 2 ^ 32)) (some ("btc-pool: " ++ name ++ " must be an integer in [0, 2^32)"))
  return x

/-- `defaultAnchor` (:53). -/
def defaultAnchor (tip : Int) : Except (Option String) Int := do
  let _ ← checkU32 tip "tip"
  refuse (tip < ANCHOR_STEP) (some "btc-pool: tip below the anchor offset")
  return (tip - ANCHOR_STEP) / ANCHOR_STEP * ANCHOR_STEP

/-- `Math.ceil(need / 6) * 6 + 6` (dapp/btc-pool-client.js:223). -/
def firstTip (need : Int) : Int := -(-need / 6) * 6 + 6

/-- **The first tip** whose anchor reaches a block. -/
theorem le_defaultAnchor {need t a : Int} (h : defaultAnchor t = .ok a) : need ≤ a ↔ firstTip need ≤ t := by
  obtain ⟨_, -, h⟩ := except_bind_eq_ok.1 h
  obtain ⟨_, -, h⟩ := except_bind_eq_ok.1 h
  have ha := Except.ok.inj h
  unfold ANCHOR_STEP at ha
  unfold firstTip
  omega

theorem defaultAnchor_bounds {t a : Int} (h : defaultAnchor t = .ok a) : 0 ≤ a ∧ a + 6 ≤ t ∧ t < a + 12 := by
  obtain ⟨_, -, h⟩ := except_bind_eq_ok.1 h
  obtain ⟨_, hstep, h⟩ := except_bind_eq_ok.1 h
  have ha := Except.ok.inj h
  have hlow := refuse_eq_ok.1 hstep
  unfold ANCHOR_STEP at ha hlow
  omega

/-! ## A spend -/

/-- A note of the wallet's. -/
structure Note where
  leafIndex : Nat
  leaf : Bytes
  height : Int

/-- What the wallet is answered; the feeds are the kept one and a fresh one, absent where the request fails. -/
structure Answered where
  halted : Bool
  height : Option Int
  root : Int → Option RootReply
  feeds : List (Option (List LeafRecord))
  path : Nat → Int → Except (Option String) PathReply

inductive Anchoring
  | wait (blocks tip need : Int)
  | paths (hAnchor : Int) (root : Option Bytes) (tip : Int) (notes : List (Note × List Bytes))

section

variable {P : Type} (L : Library P)

/-- The loop over the feeds (:231), with the replay's root. -/
def checkedPaths (notes : List Note) (hAnchor : Int) (root : Bytes) : List (Option (List LeafRecord)) → Option (List (List Bytes))
  | [] => none
  | none :: feeds => checkedPaths notes hAnchor root feeds
  | some feed :: feeds =>
    match pathsAt L feed hAnchor (notes.map Note.leafIndex) with
    | .error _ => checkedPaths notes hAnchor root feeds
    | .ok (r, paths) =>
      if r ≠ root ∨ ∃ n ∈ notes, (feed[n.leafIndex]?).map LeafRecord.leaf ≠ some n.leaf then checkedPaths notes hAnchor root feeds
      else some paths

/-- The loop over the notes (:242). -/
def namedPaths (path : Nat → Int → Except (Option String) PathReply) (hAnchor : Int) :
    Option Bytes → List Note → Except (Option String) (Option Bytes × List (Note × List Bytes))
  | root, [] => .ok (root, [])
  | root, n :: notes => do
    let j ← path n.leafIndex hAnchor
    refuse (j.leaf ≠ n.leaf ∨ j.hAnchor ≠ some hAnchor) (some "the pool served a path for another leaf")
    refuse (∃ r ∈ root, r ≠ j.root) (some "the pool served paths under two roots")
    let (root, rest) ← namedPaths path hAnchor (some j.root) notes
    return (root, (n, j.path) :: rest)

/-- `anchorAndPaths` (:216). -/
def anchorAndPaths (S : Answered) (notes : List Note) (anchor : Option Int) (named : Bool) : Except (Option String) Anchoring := do
  refuse (S.halted = true) (some "the pool replay is paused")
  let tip ← need S.height (some "the pool replay has not started")
  let hAnchor ← anchor.elim (defaultAnchor tip) .ok
  match (notes.map Note.height).max?.filter (hAnchor < ·) with
  | some need => return .wait (firstTip need - tip) tip need
  | none => do
    refuse (tip < hAnchor) (some "anchor is ahead of the pool replay")
    let checked := ((S.root hAnchor).filter RootReply.retained).bind fun R =>
      (checkedPaths L notes hAnchor R.root S.feeds).map fun paths => (R.root, paths)
    match checked with
    | some (root, paths) => return .paths hAnchor (some root) tip (notes.zip paths)
    | none => do
      refuse (named = false)
        (some "the pool replay did not give a root to check the paths against just now; try again in a moment")
      let (root, withPaths) ← namedPaths S.path hAnchor none notes
      return .paths hAnchor root tip withPaths

variable {L}

/-- What the loop over the feeds takes leads to the root. -/
theorem checkedPaths_sound (hnode : ∀ a b, L.poseidon2 a b < P_FR) {notes : List Note} {hAnchor : Int} {root : Bytes} :
    ∀ {feeds : List (Option (List LeafRecord))} {paths : List (List Bytes)},
      (∀ feed, some feed ∈ feeds → feed.length ≤ 2 ^ 30 ∧ ∀ x ∈ feed, bytesToBig x.leaf < P_FR) →
      checkedPaths L notes hAnchor root feeds = some paths →
      List.Forall₂ (fun n path => rootFromPath L n.leaf n.leafIndex path = some root) notes paths
  | [], _, _, hrun => by
    rw [checkedPaths] at hrun
    cases hrun
  | none :: feeds, _, hfeeds, hrun => by
    rw [checkedPaths] at hrun
    exact checkedPaths_sound hnode (fun feed hmem => hfeeds feed (List.mem_cons_of_mem _ hmem)) hrun
  | some feed :: feeds, paths, hfeeds, hrun => by
    have hrest := fun feed hmem => hfeeds feed (List.mem_cons_of_mem _ hmem)
    rw [checkedPaths] at hrun
    cases hpaths : pathsAt L feed hAnchor (notes.map Note.leafIndex) with
    | error e =>
      rw [hpaths] at hrun
      exact checkedPaths_sound hnode hrest hrun
    | ok reply =>
      obtain ⟨r, found⟩ := reply
      rw [hpaths] at hrun
      dsimp only at hrun
      split_ifs at hrun with hno
      · exact checkedPaths_sound hnode hrest hrun
      · obtain rfl := Option.some.inj hrun
        obtain ⟨hroot, hleaves⟩ := not_or.1 hno
        obtain ⟨hsmall, hfield⟩ := hfeeds feed List.mem_cons_self
        obtain rfl := not_not.1 hroot
        have hsound := pathsAt_sound hnode hfield hsmall hpaths
        rw [List.forall₂_map_left_iff] at hsound
        have hsame : ∀ n ∈ notes, (feed[n.leafIndex]?).map LeafRecord.leaf = some n.leaf := fun n hn => by
          by_contra hother
          exact hleaves ⟨n, hn, hother⟩
        refine ((List.forall₂_and_left _ _).2 ⟨hsame, hsound⟩).imp ?_
        rintro n path ⟨hleaf, x, hx, hleads⟩
        rw [hx, Option.map_some] at hleaf
        rwa [Option.some.inj hleaf] at hleads

/-- A feed with the notes' leaves, and with the replay's root, is taken, or one before it. -/
theorem checkedPaths_complete {notes : List Note} {hAnchor : Int} {root : Bytes} {feed : List LeafRecord} {paths : List (List Bytes)}
    (hpaths : pathsAt L feed hAnchor (notes.map Note.leafIndex) = .ok (root, paths))
    (hleaves : ∀ n ∈ notes, (feed[n.leafIndex]?).map LeafRecord.leaf = some n.leaf) :
    ∀ {feeds : List (Option (List LeafRecord))}, some feed ∈ feeds → ∃ found, checkedPaths L notes hAnchor root feeds = some found
  | none :: feeds, hmem => by
    rw [checkedPaths]
    exact checkedPaths_complete hpaths hleaves ((List.mem_cons.1 hmem).resolve_left (Option.some_ne_none _))
  | some feed' :: feeds, hmem => by
    rw [checkedPaths]
    have htaken : ¬(root ≠ root ∨ ∃ n ∈ notes, (feed[n.leafIndex]?).map LeafRecord.leaf ≠ some n.leaf) := by
      rintro (hne | ⟨n, hn, hne⟩)
      · exact hne rfl
      · exact hne (hleaves n hn)
    rcases List.mem_cons.1 hmem with heq | hmem
    · obtain rfl := Option.some.inj heq
      rw [hpaths]
      dsimp only
      rw [if_neg htaken]
      exact ⟨_, rfl⟩
    · obtain ⟨found, hfound⟩ := checkedPaths_complete hpaths hleaves hmem
      cases pathsAt L feed' hAnchor (notes.map Note.leafIndex) with
      | error e => exact ⟨found, hfound⟩
      | ok reply =>
        obtain ⟨r, paths'⟩ := reply
        dsimp only
        split_ifs
        · exact ⟨found, hfound⟩
        · exact ⟨_, rfl⟩

theorem max?_filter_eq_none {l : List Int} {a : Int} : l.max?.filter (a < ·) = none ↔ ∀ x ∈ l, x ≤ a := by
  cases hmax : l.max? with
  | none =>
    rw [List.max?_eq_none_iff.1 hmax]
    exact iff_of_true rfl fun x hx => (List.not_mem_nil hx).elim
  | some m =>
    obtain ⟨hmem, hle⟩ := List.max?_eq_some_iff.1 hmax
    rw [Option.filter_eq_none_iff]
    constructor
    · intro h x hx
      have hnot := h m rfl
      rw [decide_eq_true_iff] at hnot
      exact (hle x hx).trans (not_lt.1 hnot)
    · intro h x hx
      obtain rfl := Option.some.inj hx
      rw [decide_eq_true_iff]
      exact not_lt.2 (h m hmem)

theorem max?_filter_eq_some {l : List Int} {a m : Int} (h : l.max?.filter (a < ·) = some m) : a < m ∧ m ∈ l ∧ ∀ x ∈ l, x ≤ m := by
  obtain ⟨hmax, hlt⟩ := Option.filter_eq_some_iff.1 h
  exact ⟨of_decide_eq_true hlt, List.max?_eq_some_iff.1 hmax⟩

/-- **What a wallet is told to wait** under the shared policy is exact: it is the first tip whose anchor reaches all of its notes. -/
theorem anchorAndPaths_wait {S : Answered} {notes : List Note} {named : Bool} {blocks tip need : Int}
    (hrun : anchorAndPaths L S notes none named = .ok (.wait blocks tip need)) :
    S.height = some tip ∧ 0 < blocks ∧
      ∀ t a, defaultAnchor t = .ok a → ((∀ n ∈ notes, n.height ≤ a) ↔ tip + blocks ≤ t) := by
  obtain ⟨_, -, hrun⟩ := except_bind_eq_ok.1 hrun
  obtain ⟨tip', htip, hrun⟩ := except_bind_eq_ok.1 hrun
  obtain ⟨a, ha, hrun⟩ := except_bind_eq_ok.1 hrun
  cases hmax : (notes.map Note.height).max?.filter (a < ·) with
  | none =>
    rw [hmax] at hrun
    obtain ⟨_, -, hrun⟩ := except_bind_eq_ok.1 hrun
    dsimp only at hrun
    split at hrun
    · cases hrun
    · obtain ⟨_, -, hrun⟩ := except_bind_eq_ok.1 hrun
      obtain ⟨_, -, hrun⟩ := except_bind_eq_ok.1 hrun
      cases hrun
  | some m =>
    rw [hmax] at hrun
    cases hrun
    obtain ⟨hlt, hmem, hle⟩ := max?_filter_eq_some hmax
    have hfirst : ¬firstTip need ≤ tip := (le_defaultAnchor ha).not.1 (not_le.2 hlt)
    have hsum : tip + (firstTip need - tip) = firstTip need := by omega
    refine ⟨need_eq_ok.1 htip, by omega, fun t b hb => ?_⟩
    rw [hsum, ← le_defaultAnchor hb]
    constructor
    · intro hall
      obtain ⟨n, hn, rfl⟩ := List.mem_map.1 hmem
      exact hall n hn
    · exact fun h n hn => (hle _ (List.mem_map_of_mem hn)).trans h

/-- A note of block 97 under tip 100: the anchor of tip 108 is the first that reaches it. -/
theorem anchorAndPaths_wait_eight :
    (some 100 : Option Int) = some 100 ∧ (0 : Int) < 8 ∧
      ∀ t a, defaultAnchor t = .ok a → ((∀ n ∈ [(⟨0, [], 97⟩ : Note)], n.height ≤ a) ↔ 100 + 8 ≤ t) := by
  have hrun : anchorAndPaths generatorOnly ⟨false, some 100, fun _ => none, [], fun _ _ => .error none⟩ [⟨0, [], 97⟩] none false =
      .ok (.wait 8 100 97) := rfl
  exact anchorAndPaths_wait hrun

/-- Checked paths at the shared anchor are taken. -/
theorem anchorAndPaths_of_checked {S : Answered} {notes : List Note} {tip a : Int} {R : RootReply} {found : List (List Bytes)}
    {named : Bool} (hgoes : S.halted = false) (htip : S.height = some tip) (ha : defaultAnchor tip = .ok a)
    (hbelow : ∀ n ∈ notes, n.height ≤ a) (hroot : S.root a = some R) (hretained : R.retained = true)
    (hfound : checkedPaths L notes a R.root S.feeds = some found) :
    anchorAndPaths L S notes none named = .ok (.paths a (some R.root) tip (notes.zip found)) := by
  obtain ⟨-, hbehind, -⟩ := defaultAnchor_bounds ha
  have hmax : (notes.map Note.height).max?.filter (a < ·) = none := by
    refine max?_filter_eq_none.2 fun x hx => ?_
    obtain ⟨n, hn, rfl⟩ := List.mem_map.1 hx
    exact hbelow n hn
  have hchecked : (((S.root a).filter RootReply.retained).bind fun R =>
      (checkedPaths L notes a R.root S.feeds).map fun paths => (R.root, paths)) = some (R.root, found) := by
    rw [hroot, Option.filter_some, if_pos hretained, Option.bind_some, hfound]
    rfl
  rw [anchorAndPaths, hgoes, htip]
  show (defaultAnchor tip >>= _) = _
  rw [ha, except_ok_bind, hmax]
  dsimp only
  rw [refuse, if_neg (by omega), except_ok_bind, hchecked]
  rfl

/-- **What a wallet spends with**, whoever answered it, without the named paths: a retained root of the replay's, not ahead of its tip
nor below a note, and for each note a path from its own leaf to that root. -/
theorem anchorAndPaths_paths (hnode : ∀ a b, L.poseidon2 a b < P_FR) {S : Answered} {notes : List Note} {anchor : Option Int}
    (hfeeds : ∀ feed, some feed ∈ S.feeds → feed.length ≤ 2 ^ 30 ∧ ∀ x ∈ feed, bytesToBig x.leaf < P_FR) {hAnchor tip : Int}
    {root : Option Bytes} {withPaths : List (Note × List Bytes)}
    (hrun : anchorAndPaths L S notes anchor false = .ok (.paths hAnchor root tip withPaths)) :
    ∃ R, S.root hAnchor = some R ∧ R.retained = true ∧ root = some R.root ∧ S.height = some tip ∧ hAnchor ≤ tip ∧
      withPaths.map Prod.fst = notes ∧ ∀ e ∈ withPaths, e.1.height ≤ hAnchor ∧
        rootFromPath L e.1.leaf e.1.leafIndex e.2 = some R.root := by
  obtain ⟨_, -, hrun⟩ := except_bind_eq_ok.1 hrun
  obtain ⟨tip', htip, hrun⟩ := except_bind_eq_ok.1 hrun
  obtain ⟨a, ha, hrun⟩ := except_bind_eq_ok.1 hrun
  cases hmax : (notes.map Note.height).max?.filter (a < ·) with
  | some m =>
    rw [hmax] at hrun
    cases hrun
  | none =>
    rw [hmax] at hrun
    obtain ⟨_, hahead, hrun⟩ := except_bind_eq_ok.1 hrun
    dsimp only at hrun
    split at hrun
    · next root' paths hchecked =>
      cases hrun
      obtain ⟨R, hR, hfound⟩ := Option.bind_eq_some_iff.1 hchecked
      obtain ⟨hR, hretained⟩ := Option.filter_eq_some_iff.1 hR
      obtain ⟨paths', hpaths, heq⟩ := Option.map_eq_some_iff.1 hfound
      cases heq
      have hleads := checkedPaths_sound hnode hfeeds hpaths
      refine ⟨R, hR, hretained, rfl, need_eq_ok.1 htip, not_lt.1 (refuse_eq_ok.1 hahead), List.map_fst_zip hleads.length_eq.le, ?_⟩
      rintro ⟨n, path⟩ he
      have hmem := (List.of_mem_zip he).1
      exact ⟨max?_filter_eq_none.1 hmax _ (List.mem_map_of_mem hmem), List.forall₂_iff_zip.1 hleads |>.2 he⟩
    · obtain ⟨_, hnamed, -⟩ := except_bind_eq_ok.1 hrun
      exact (refuse_eq_ok.1 hnamed rfl).elim

/-- A feed of one leaf, its note, and what is answered with it. -/
def oneLeaf : List LeafRecord := [⟨bigTo32 7, "", [], [], [], 0, 84⟩]

def oneNote : Note := ⟨0, bigTo32 7, 84⟩

def oneLeafAnswered : Answered :=
  ⟨false, some 100, fun _ => some ⟨90, leavesRoot generatorOnly oneLeaf, plainWork.block.header.hash, true⟩, [some oneLeaf],
    fun _ _ => .error none⟩

def oneLeafPath : List Bytes := (PoseidonTree.answer generatorOnly ((oneLeaf.take 1).map fun x => bytesToBig x.leaf) 0).2

theorem oneLeaf_taken : anchorAndPaths generatorOnly oneLeafAnswered [oneNote] none false =
    .ok (.paths 90 (some (leavesRoot generatorOnly oneLeaf)) 100 [(oneNote, oneLeafPath)]) := by
  have hindexes : ∀ i ∈ [oneNote].map Note.leafIndex, i < 1 := by decide
  have hpaths : pathsAt generatorOnly oneLeaf 90 ([oneNote].map Note.leafIndex) = .ok (leavesRoot generatorOnly oneLeaf, [oneLeafPath]) :=
    pathsAt_eq (n := 1) rfl (by decide) hindexes
  have hsame : ¬(leavesRoot generatorOnly oneLeaf ≠ leavesRoot generatorOnly oneLeaf ∨
      ∃ n ∈ [oneNote], (oneLeaf[n.leafIndex]?).map LeafRecord.leaf ≠ some n.leaf) := by
    rintro (hne | ⟨n, hn, hne⟩)
    · exact hne rfl
    · rw [List.mem_singleton.1 hn] at hne
      exact hne rfl
  have hfound : checkedPaths generatorOnly [oneNote] 90 (leavesRoot generatorOnly oneLeaf) [some oneLeaf] = some [oneLeafPath] := by
    rw [checkedPaths, hpaths]
    exact if_neg hsame
  have hbelow : ∀ n ∈ [oneNote], n.height ≤ 90 := by
    intro n hn
    rw [List.mem_singleton.1 hn]
    decide
  exact anchorAndPaths_of_checked (S := oneLeafAnswered) rfl rfl rfl hbelow rfl rfl hfound

theorem anchorAndPaths_paths_one_leaf : ∃ R, oneLeafAnswered.root 90 = some R ∧ R.retained = true ∧
    some (leavesRoot generatorOnly oneLeaf) = some R.root ∧ oneLeafAnswered.height = some 100 ∧ (90 : Int) ≤ 100 ∧
    [(oneNote, oneLeafPath)].map Prod.fst = [oneNote] ∧ ∀ e ∈ [(oneNote, oneLeafPath)], e.1.height ≤ 90 ∧
      rootFromPath generatorOnly e.1.leaf e.1.leafIndex e.2 = some R.root := by
  refine anchorAndPaths_paths (fun _ _ => show 1 < P_FR by decide) ?_ oneLeaf_taken
  intro feed hfeed
  obtain rfl := Option.some.inj (List.mem_singleton.1 hfeed)
  refine ⟨by decide, fun x hx => ?_⟩
  rw [List.mem_singleton.1 hx]
  decide

end

/-! ## With a replica that answers -/

/-- The answers are one replica's, between two blocks; a kept feed may be anyone's. -/
structure Answered.By (S : Answered) (r : Replica) : Prop where
  halted : S.halted = false
  height : S.height = r.state.tip
  root : ∀ a : Nat, S.root a = (rootRoute r a).toOption
  feed : some r.db.leaves ∈ S.feeds

section

variable {P : Type} [AddCommGroup P] [DecidableEq P] {L : Library P} {sha256d : Bytes → Word} {start : Int} {ws : List Work} {r : Replica}

end

end Replay

end Tacit
