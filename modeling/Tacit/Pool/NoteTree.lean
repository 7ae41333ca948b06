import Tacit.Pool.SpendOnce
import Tacit.Reflection.Sets
/-!
# One note tree, four implementations

The contract and the guest keep the depth-32 note tree by its frontier, the guest also rebuilds it from the
leaves and folds appends without any state. `noteRoot` is the root of the perfect tree over the leaves padded
with zero leaves; each implementation is shown to compute it.
-/
namespace Tacit

open Prog

/-- The root of the perfect depth-32 tree over the leaves, then zero leaves. -/
def noteRoot (K : Keccak) (l : List Word) : Word := Merkle.treeRoot K.k2 32 (Merkle.pad 0 l)

/-- `KeccakTreeAccumulator` (`lib.rs:3126`); `zeros` is a constant of the hash. -/
structure KeccakTreeAccumulator where
  filled : Nat → Word
  nextIndex : Nat
  root : Word

namespace KeccakTreeAccumulator

variable (K : Keccak)

/-- `new` (`lib.rs:3142`). -/
def new : KeccakTreeAccumulator := ⟨fun _ => 0, 0, keccakMerkleRoot K []⟩

/-- `append` (`lib.rs:3148`). -/
def append (a : KeccakTreeAccumulator) (leaf : Word) : KeccakTreeAccumulator :=
  let climbed := Merkle.climb K.k2 (Merkle.zeros K.k2 0) keccakTreeDepth 0 a.nextIndex leaf a.filled
  ⟨climbed.2, a.nextIndex + 1, climbed.1⟩

/-- `append_path` (`lib.rs:3175`). -/
def appendPath (a : KeccakTreeAccumulator) : List Word :=
  (List.range keccakTreeDepth).map fun i =>
    if a.nextIndex / 2 ^ i % 2 = 0 then Merkle.zeros K.k2 0 i else a.filled i

end KeccakTreeAccumulator

/-- Fold the append transition over the leaves, each with the path the accumulator of the leaves before it
gives. -/
def foldAppends (K : Keccak) : KeccakTreeAccumulator → Word → List Word → Option Word
  | _, r, [] => some r
  | a, r, x :: l => do
    let r' ← keccakTreeAppendTransition K r a.nextIndex (a.appendPath K) x
    foldAppends K (a.append K x) r' l

variable {K : Keccak}

theorem keccakMerkleRoot_noteRoot (l : List Word) : keccakMerkleRoot K l = noteRoot K l := keccakMerkleRoot_eq l

/-! ## The frontier -/

/-- The frontier and the root after the leaves `l`. -/
structure Frontier (K : Keccak) (l : List Word) (nextIndex : Nat) (root : Word) (filled : Nat → Word) : Prop where
  next_eq : nextIndex = l.length
  root_eq : root = noteRoot K l
  filled : Merkle.Filled K.k2 32 (Merkle.pad 0 l) l.length filled

theorem frontier_nil (filled : Nat → Word) : Frontier K [] 0 (noteRoot K []) filled := ⟨rfl, rfl, Merkle.filled_zero _ _ _⟩

/-- One append, for either frontier. -/
theorem Frontier.append {l : List Word} {n : Nat} {r : Word} {filled : Nat → Word} (h : Frontier K l n r filled)
    (hn : l.length < 2 ^ 32) (x : Word) :
    Frontier K (l ++ [x]) (n + 1) (Merkle.climb K.k2 (Merkle.zeros K.k2 0) 32 0 n x filled).1
      (Merkle.climb K.k2 (Merkle.zeros K.k2 0) 32 0 n x filled).2 where
  next_eq := by simp [h.next_eq]
  root_eq := by
    rw [h.next_eq]
    exact Merkle.climb_root h.filled hn x
  filled := by
    rw [h.next_eq]
    exact Merkle.climb_filled h.filled x

theorem frontierPath_range {α : Type} (zeros filled : Nat → α) : ∀ (n i idx : Nat),
    Merkle.frontierPath zeros filled n i idx =
      (List.range n).map fun j => if idx / 2 ^ j % 2 = 0 then zeros (i + j) else filled (i + j)
  | 0, _, _ => rfl
  | n + 1, i, idx => by
    rw [Merkle.frontierPath, frontierPath_range zeros filled n, List.range_succ_eq_map, List.map_cons, List.map_map]
    congr 1
    · simp
    · refine List.map_congr_left fun j _ => ?_
      simp only [Function.comp_apply, Nat.succ_eq_add_one, pow_succ', Nat.div_div_eq_div_mul]
      rw [show i + 1 + j = i + (j + 1) by omega]

/-- The accumulator's path is the path of the next slot. -/
theorem Frontier.appendPath_eq {l : List Word} {a : KeccakTreeAccumulator} (h : Frontier K l a.nextIndex a.root a.filled) :
    a.appendPath K = Merkle.pathOf K.k2 32 (Merkle.pad 0 l) l.length := by
  have hp := Merkle.frontierPath_eq h.filled 32 0 (by omega)
  rw [pow_zero, Nat.div_one, frontierPath_range] at hp
  simp only [Nat.zero_add] at hp
  rw [KeccakTreeAccumulator.appendPath, h.next_eq]
  exact hp

/-! ## The guest -/

theorem accumulator_frontier (l : List Word) (hl : l.length < 2 ^ 32) :
    Frontier K l (l.foldl (KeccakTreeAccumulator.append K) (.new K)).nextIndex
      (l.foldl (KeccakTreeAccumulator.append K) (.new K)).root
      (l.foldl (KeccakTreeAccumulator.append K) (.new K)).filled := by
  induction l using List.reverseRecOn with
  | nil =>
    rw [List.foldl_nil, KeccakTreeAccumulator.new, keccakMerkleRoot_noteRoot]
    exact frontier_nil _
  | append_singleton l x ih =>
    rw [List.length_append, List.length_singleton] at hl
    rw [List.foldl_append]
    exact (ih (by omega)).append (by omega) x

/-- An append with any witness at the current count gives the root of the tree with the leaf appended. -/
theorem appendTransition_root (hK : K.Ideal) {l path : List Word} {x r : Word} (hl : l.length < 2 ^ 32)
    (h : keccakTreeAppendTransition K (noteRoot K l) l.length path x = some r) : r = noteRoot K (l ++ [x]) := by
  obtain ⟨hlen, hslot, rfl⟩ := append_eq_some.1 h
  obtain ⟨-, hpath⟩ := Merkle.rootFrom_binding hK.k2_injective 32 _ _ _ _ hlen hslot
  rw [hpath, Nat.mod_eq_of_lt hl, noteRoot, Merkle.pad_append]
  exact Merkle.rootFrom_write hl x

/-- The accumulator's own path is accepted. -/
theorem Frontier.appendTransition {l : List Word} {a : KeccakTreeAccumulator}
    (h : Frontier K l a.nextIndex a.root a.filled) (hl : l.length < 2 ^ 32) (x : Word) :
    keccakTreeAppendTransition K (noteRoot K l) a.nextIndex (a.appendPath K) x = some (noteRoot K (l ++ [x])) := by
  have hlen : (Merkle.pathOf K.k2 32 (Merkle.pad 0 l) l.length).length = 32 := Merkle.pathOf_length _ _ _
  have hslot : Merkle.rootFrom K.k2 0 l.length (Merkle.pathOf K.k2 32 (Merkle.pad 0 l) l.length) = noteRoot K l := by
    have hp := @Merkle.rootFrom_pathOf _ K.k2 32 (Merkle.pad 0 l) l.length hl
    rwa [Merkle.pad_of_le 0 (le_refl l.length)] at hp
  rw [h.appendPath_eq, h.next_eq]
  refine append_eq_some.2 ⟨hlen, hslot, ?_⟩
  rw [noteRoot, Merkle.pad_append]
  exact Merkle.rootFrom_write hl x

theorem foldAppends_eq {l : List Word} {a : KeccakTreeAccumulator} (h : Frontier K l a.nextIndex a.root a.filled)
    (more : List Word) (hl : (l ++ more).length < 2 ^ 32) :
    foldAppends K a (noteRoot K l) more = some (noteRoot K (l ++ more)) := by
  induction more generalizing l a with
  | nil => simp [foldAppends]
  | cons x more ih =>
    have hlt : l.length < 2 ^ 32 := by
      rw [List.length_append] at hl
      omega
    rw [foldAppends, h.appendTransition hlt x]
    have hmore : (l ++ [x] ++ more).length < 2 ^ 32 := by rwa [List.append_assoc]
    have := ih (a := a.append K x) (h.append hlt x) hmore
    rw [List.append_assoc] at this
    exact this

/-! ## The contract -/

namespace ConfidentialPool

/-- The tree holds the leaves `l`, and every root it knows is that of a prefix. -/
structure Tree.Holds (K : Keccak) (t : Tree) (l : List Word) : Prop where
  frontier : Frontier K l t.nextLeafIndex t.currentRoot t.filledSubtrees
  known : ∀ r, t.everKnownRoot r = true → ∃ p, p <+: l ∧ r = noteRoot K p

theorem zeros_noteRoot : Merkle.zeros K.k2 0 treeLevels = noteRoot K [] := by
  have h := @Merkle.levels_root _ K.k2 (0 : Word) 32 0 []
  rw [Merkle.levels_nil] at h
  exact h.symm

theorem Tree.holds_empty : (Tree.empty K).Holds K [] where
  frontier := ⟨rfl, zeros_noteRoot, Merkle.filled_zero _ _ _⟩
  known r hr := by
    refine ⟨[], List.prefix_rfl, ?_⟩
    rw [← zeros_noteRoot]
    simpa [Tree.empty] using hr

theorem insertTreeLeaf_ok {x : Word} {t t' : Tree} {u : Unit} {l : List Word}
    (h : Frontier K l t.nextLeafIndex t.currentRoot t.filledSubtrees) (hok : insertTreeLeaf K x t = .ok u t') :
    Frontier K (l ++ [x]) t'.nextLeafIndex t'.currentRoot t'.filledSubtrees ∧ t'.everKnownRoot = t.everKnownRoot := by
  simp only [insertTreeLeaf, bind_eq_ok, get_eq_ok, check_eq_ok, modify_eq_ok] at hok
  obtain ⟨_, _, ⟨rfl, rfl⟩, _, t₀, ⟨hfull, rfl⟩, rfl⟩ := hok
  have hlt : l.length < 2 ^ 32 := by
    rw [← h.next_eq]
    exact Nat.lt_of_not_le hfull
  exact ⟨h.append hlt x, rfl⟩

theorem appendLeaves_ok {leaves : List Word} {t t' : Tree} {u : Unit} {l : List Word}
    (h : Frontier K l t.nextLeafIndex t.currentRoot t.filledSubtrees) (hok : appendLeaves K leaves t = .ok u t') :
    Frontier K (l ++ leaves) t'.nextLeafIndex t'.currentRoot t'.filledSubtrees ∧ t'.everKnownRoot = t.everKnownRoot := by
  unfold appendLeaves at hok
  induction leaves generalizing t l with
  | nil =>
    obtain rfl := forEach_nil_eq_ok.1 hok
    rw [List.append_nil]
    exact ⟨h, rfl⟩
  | cons x leaves ih =>
    obtain ⟨v, hx, hrest⟩ := forEach_cons_eq_ok.1 hok
    obtain ⟨hv, hknown⟩ := insertTreeLeaf_ok h hx
    obtain ⟨ht, hknown'⟩ := ih hv hrest
    rw [List.append_assoc] at ht
    exact ⟨ht, hknown'.trans hknown⟩

/-- **A batch of leaves** leaves the tree of the longer list, and knows one root more. -/
theorem Tree.Holds.insertLeaves {leaves : List Word} {t t' : Tree} {u : Unit} {l : List Word} (h : t.Holds K l)
    (hok : insertLeaves K leaves t = .ok u t') : t'.Holds K (l ++ leaves) := by
  obtain ⟨-, hok⟩ | ⟨hnil, rfl⟩ := onlyIf_eq_ok.1 hok
  · obtain ⟨_, v, happend, hmark⟩ := bind_eq_ok.1 hok
    obtain ⟨hv, hknown⟩ := appendLeaves_ok h.frontier happend
    obtain rfl := modify_eq_ok.1 hmark
    refine ⟨hv, ?_⟩
    intro r hr
    by_cases hroot : r = v.currentRoot
    · exact ⟨l ++ leaves, List.prefix_rfl, hroot.trans hv.root_eq⟩
    · have hr : Function.update v.everKnownRoot v.currentRoot true r = true := hr
      rw [Function.update_of_ne hroot, hknown] at hr
      obtain ⟨p, hp, rfl⟩ := h.known r hr
      exact ⟨p, hp.trans (List.prefix_append l leaves), rfl⟩
  · rw [not_not.1 hnil, List.append_nil]
    exact h

/-- A batch that fits is accepted. -/
theorem exists_insertLeaves (leaves : List Word) {t : Tree} {l : List Word} (h : t.Holds K l)
    (hfits : l.length + leaves.length ≤ 2 ^ 32) : ∃ t', ConfidentialPool.insertLeaves K leaves t = .ok () t' := by
  have happend : ∀ (leaves l : List Word) (t : Tree), Frontier K l t.nextLeafIndex t.currentRoot t.filledSubtrees →
      l.length + leaves.length ≤ 2 ^ 32 → ∃ t', appendLeaves K leaves t = .ok () t' := by
    intro leaves
    induction leaves with
    | nil => exact fun l t _ _ => ⟨t, rfl⟩
    | cons x leaves ih =>
      intro l t h hfits
      rw [List.length_cons] at hfits
      have hone : ∃ v, insertTreeLeaf K x t = .ok () v := by
        simp only [insertTreeLeaf, bind_eq_ok, get_eq_ok, check_eq_ok, modify_eq_ok]
        refine ⟨_, t, t, ⟨rfl, rfl⟩, (), t, ⟨?_, rfl⟩, rfl⟩
        rw [h.next_eq, treeLevels]
        omega
      obtain ⟨v, hv⟩ := hone
      obtain ⟨t', ht'⟩ := ih (l ++ [x]) v (insertTreeLeaf_ok h hv).1 (by
        rw [List.length_append, List.length_singleton]
        omega)
      exact ⟨t', forEach_cons_eq_ok.2 ⟨v, hv, ht'⟩⟩
  by_cases hnil : leaves = []
  · exact ⟨t, onlyIf_eq_ok.2 (Or.inr ⟨not_not.2 hnil, rfl⟩)⟩
  · obtain ⟨v, hv⟩ := happend leaves l t h.frontier hfits
    exact ⟨_, onlyIf_eq_ok.2 (Or.inl ⟨hnil, bind_eq_ok.2 ⟨(), v, hv, rfl⟩⟩)⟩

/-- Any split of a list that fits into batches is accepted and holds the list. -/
theorem exists_insertBatches (bs : List (List Word)) {t : Tree} {l : List Word} (h : t.Holds K l)
    (hfits : l.length + bs.flatten.length ≤ 2 ^ 32) :
    ∃ t', forEach bs (insertLeaves K) t = .ok () t' ∧ t'.Holds K (l ++ bs.flatten) := by
  induction bs generalizing t l with
  | nil => exact ⟨t, rfl, by simpa using h⟩
  | cons b bs ih =>
    rw [List.flatten_cons, List.length_append] at hfits
    obtain ⟨v, hv⟩ := exists_insertLeaves b h (by omega)
    obtain ⟨t', ht', hh⟩ := ih (h.insertLeaves hv) (by
      rw [List.length_append]
      omega)
    refine ⟨t', forEach_cons_eq_ok.2 ⟨v, hv, ht'⟩, ?_⟩
    rw [List.flatten_cons, ← List.append_assoc]
    exact hh

/-! ## Histories of the contract -/

/-- The note tree is as it was. -/
def SameNotes (s t : Storage) : Prop := t.notes = s.notes

instance : IsPreorder Storage SameNotes where
  refl _ := rfl
  trans _ _ _ h h' := Eq.trans h' h

theorem blind_sameNotes : Blind SameNotes where
  preorder := inferInstance
  pair _ _ _ _ _ _ _ := rfl
  reflection _ _ := rfl
  registry _ _ _ := rfl
  release _ _ _ := rfl
  shares _ _ := rfl
  farms _ _ _ := rfl
  positions _ _ _ := rfl
  harvests _ _ := rfl
  lockTree _ _ := rfl
  evmCount _ _ := rfl

theorem unmarked_sameNotes : Unmarked SameNotes where
  toBlind := blind_sameNotes
  nullifier _ _ := rfl
  lock _ _ := rfl
  position _ _ := rfl
  burn _ _ := rfl
  status _ _ := rfl

theorem deaf_sameNotes : Deaf SameNotes where
  toBlind := blind_sameNotes
  escrow _ _ := rfl
  deposit := unmarked_sameNotes.registerDeposit
  pools _ _ := rfl
  cbtc _ _ := rfl
  lineage _ _ _ _ _ _ := rfl

variable {D : Deployment} {env : Env}

/-- An accepted batch inserts its leaves, and nothing else writes the note tree. -/
theorem settle_notes {pv : PublicValues} {memos : List Bytes} {s t : Storage} {u : Unit}
    (hok : settle D env pv memos s = .ok u t) : insertLeaves D.keccak pv.leaves s.notes = .ok () t.notes := by
  obtain ⟨b, s₁, s₂, s₃, s₄, s₅, s₆, s₇, s₈, s₉, s₁₀, h⟩ := settle_sections hok
  have hbefore : s₇.notes = s.notes := by
    calc s₇.notes = s₆.notes := unmarked_sameNotes.bridgeSection pv h.bridge
      _ = s₅.notes := unmarked_sameNotes.deposits pv h.deposits
      _ = s₄.notes := blind_sameNotes.countNullifiers h.counts
      _ = s₃.notes := deaf_sameNotes.cbtcSection pv h.cbtc
      _ = s₂.notes := unmarked_sameNotes.cdpSection pv h.cdp
      _ = s₁.notes := unmarked_sameNotes.spendSection pv h.spend
      _ = s.notes := blind_sameNotes.homeSection (fun _ _ => rfl) pv s b h.home
  have hafter : t.notes = s₈.notes := by
    calc t.notes = s₁₀.notes := deaf_sameNotes.reserveSection pv h.reserves
      _ = s₉.notes := blind_sameNotes.recordCrossOuts (fun _ _ => rfl) pv [] _ h.crossOuts
      _ = s₈.notes := blind_sameNotes.payoutSection h.payouts
  obtain ⟨_, v, hzoom, hrest⟩ := bind_eq_ok.1 h.leaf
  obtain ⟨w, hinsert, rfl⟩ := zoom_eq_ok.1 hzoom
  obtain ⟨_, _, hget, hfloor⟩ := bind_eq_ok.1 hrest
  obtain ⟨rfl, rfl⟩ := get_eq_ok.1 hget
  obtain ⟨-, rfl⟩ := check_eq_ok.1 hfloor
  have hw : t.notes = w := hafter
  rw [hw, ← hbefore]
  exact hinsert

/-- The leaves a call inserts. -/
def Call.leaves (c : Call) : List Word := c.batch.toList.flatMap PublicValues.leaves

theorem call_notes {c : Call} {s t : Storage} (hok : c.prog D env s = .ok () t) :
    insertLeaves D.keccak c.leaves s.notes = .ok () t.notes := by
  cases hc : c.batch with
  | none =>
    have hsame : t.notes = s.notes := deaf_sameNotes.call hc hok
    rw [Call.leaves, hc, hsame]
    rfl
  | some pv =>
    have hleaves : c.leaves = pv.leaves := by simp [Call.leaves, hc]
    rw [hleaves]
    cases c with
    | settle pv' memos =>
      cases hc
      exact settle_notes hok
    | createPairAndSettle assetA assetB feeBps pv' memos =>
      cases hc
      obtain ⟨id, u, hpair, hsettle⟩ := bind_eq_ok.1 hok
      have hsame : u.notes = s.notes := blind_sameNotes.ensurePair hpair
      rw [← hsame]
      exact settle_notes hsettle
    | _ => cases hc

/-- The leaf log of a history: the leaves of its accepted batches, in order. -/
def leafLog (D : Deployment) (s : Storage) (calls : List (Env × Call)) : List Word :=
  (batches D s calls).flatMap fun b => b.2.leaves

theorem leafLog_cons (s : Storage) (c : Env × Call) (calls : List (Env × Call)) :
    leafLog D s (c :: calls) =
      (if (c.2.prog D c.1).accepts s then c.2.leaves else []) ++ leafLog D ((c.2.prog D c.1).call s) calls := by
  rw [leafLog, leafLog, batches, List.flatMap_append]
  congr 1
  by_cases hacc : (c.2.prog D c.1).accepts s = true
  · rw [if_pos hacc, if_pos hacc, Call.leaves]
    cases c.2.batch with
    | none => rfl
    | some pv => simp
  · rw [if_neg hacc, if_neg hacc]
    rfl

/-- **The contract's tree** holds its leaf log after any calls. -/
theorem run_holds {s : Storage} {l : List Word} (h : s.notes.Holds D.keccak l) (calls : List (Env × Call)) :
    (run D s calls).notes.Holds D.keccak (l ++ leafLog D s calls) := by
  induction calls generalizing s l with
  | nil =>
    rw [leafLog, batches, List.flatMap_nil, List.append_nil]
    exact h
  | cons c calls ih =>
    rw [leafLog_cons, ← List.append_assoc]
    by_cases hacc : (c.2.prog D c.1).accepts s = true
    · rw [if_pos hacc]
      obtain ⟨_, hok⟩ := ok_of_accepts hacc
      exact ih (h.insertLeaves (call_notes hok))
    · rw [if_neg hacc, List.append_nil]
      rcases call_cases (c.2.prog D c.1) s with hsame | ⟨a, hok⟩
      · have hnotes : ((c.2.prog D c.1).call s).notes.Holds D.keccak l := by
          rw [hsame]
          exact h
        exact ih hnotes
      · exact absurd (by simp [accepts, hok]) hacc

theorem Deployed.holds {s : Storage} (hs : Deployed D s) : s.notes.Holds D.keccak [] := by
  obtain ⟨digest, last, h⟩ := hs.blind blind_sameNotes
  have hnotes : s.notes = Tree.empty D.keccak := h
  rw [hnotes]
  exact Tree.holds_empty

/-! ## Agreement -/

/-- **The four note trees agree.** For fewer than `2^32` leaves, in whatever batches they come, the contract, the
accumulator, the rebuild and the folded transition all have the root of the padded tree; a transition accepted
with any witness at the next index gives the root of the longer tree; and after any calls from a deployment the
contract's root is that of its leaf log, and each root it knows that of a prefix of it. -/
theorem note_trees_agree (l : List Word) (hl : l.length < 2 ^ 32) :
    (∀ bs : List (List Word), bs.flatten = l →
      ∃ t, forEach bs (insertLeaves K) (Tree.empty K) = .ok () t ∧ t.currentRoot = noteRoot K l) ∧
    (l.foldl (KeccakTreeAccumulator.append K) (.new K)).root = noteRoot K l ∧
    keccakMerkleRoot K l = noteRoot K l ∧
    foldAppends K (.new K) (keccakMerkleRoot K []) l = some (noteRoot K l) ∧
    (K.Ideal → ∀ path x r, keccakTreeAppendTransition K (noteRoot K l) l.length path x = some r →
      r = noteRoot K (l ++ [x])) ∧
    ∀ (D : Deployment) (s₀ : Storage) (calls : List (Env × Call)), D.keccak = K → Deployed D s₀ →
      (run D s₀ calls).notes.currentRoot = noteRoot K (leafLog D s₀ calls) ∧
      ∀ r, (run D s₀ calls).notes.everKnownRoot r = true → ∃ p, p <+: leafLog D s₀ calls ∧ r = noteRoot K p := by
  refine ⟨?_, (accumulator_frontier l hl).root_eq, keccakMerkleRoot_noteRoot l, ?_, ?_, ?_⟩
  · rintro bs rfl
    obtain ⟨t, hok, hholds⟩ := exists_insertBatches bs (Tree.holds_empty (K := K)) (by
      rw [List.length_nil]
      omega)
    exact ⟨t, hok, hholds.frontier.root_eq⟩
  · have h := foldAppends_eq (accumulator_frontier (K := K) [] (by decide)) l hl
    rwa [← keccakMerkleRoot_noteRoot [], List.nil_append] at h
  · intro hK path x r h
    exact appendTransition_root hK hl h
  · rintro D s₀ calls rfl h₀
    have h := run_holds h₀.holds calls
    exact ⟨h.frontier.root_eq, h.known⟩

/-- Two leaves in two batches, and the known root of a pool that settled one of them. -/
theorem note_trees_agree_two_leaves :
    (∃ t, forEach [[wordOfNat 3], [wordOfNat 4]] (insertLeaves codeKeccak) (Tree.empty codeKeccak) = .ok () t ∧
      t.currentRoot = noteRoot codeKeccak [wordOfNat 3, wordOfNat 4]) ∧
    keccakTreeAppendTransition codeKeccak (noteRoot codeKeccak []) 0 (KeccakTreeAccumulator.appendPath codeKeccak (.new codeKeccak))
      (wordOfNat 3) = some (noteRoot codeKeccak [wordOfNat 3]) ∧
    (run (demoDeployment codeKeccak) (Storage.blank codeKeccak 0 0)
      [(demoEnv, .settle (demoSpend codeKeccak) [[]])]).notes.currentRoot = noteRoot codeKeccak [wordOfNat 3] := by
  have htwo := note_trees_agree (K := codeKeccak) [wordOfNat 3, wordOfNat 4] (by decide)
  have hnil := note_trees_agree (K := codeKeccak) [] (by decide)
  have hfrontier : Frontier codeKeccak [] (KeccakTreeAccumulator.new codeKeccak).nextIndex
      (KeccakTreeAccumulator.new codeKeccak).root (KeccakTreeAccumulator.new codeKeccak).filled :=
    accumulator_frontier [] (by decide)
  refine ⟨htwo.1 _ rfl, ?_, ?_⟩
  · obtain ⟨r, hr⟩ : ∃ r, keccakTreeAppendTransition codeKeccak (noteRoot codeKeccak []) 0
        (KeccakTreeAccumulator.appendPath codeKeccak (.new codeKeccak)) (wordOfNat 3) = some r :=
      ⟨_, hfrontier.appendTransition (by decide) (wordOfNat 3)⟩
    rw [hr, hnil.2.2.2.2.1 codeKeccak_ideal _ _ r hr]
    rfl
  · rw [(hnil.2.2.2.2.2 (demoDeployment codeKeccak) _ _ rfl (demo_deployed codeKeccak)).1]
    have hleaf : leafLog (demoDeployment codeKeccak) (Storage.blank codeKeccak 0 0)
        [(demoEnv, .settle (demoSpend codeKeccak) [[]])] = [wordOfNat 3] := by
      simp only [leafLog, batches, demoSpend_accepts codeKeccak_ideal, if_true]
      simp [Call.batch, demoSpend]
    rw [hleaf]

end ConfidentialPool

end Tacit
