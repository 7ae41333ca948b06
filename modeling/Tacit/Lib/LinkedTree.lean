import Tacit.Lib.Merkle
import Tacit.Lib.SortedLinks
/-!
# Sorted links committed in a Merkle tree (indexed Merkle trees)

The links of a `SortedLinks` list are hashed into the first slots of a fixed-depth tree, in order of
insertion; the other slots hold the empty leaf. A verifier that sees only the root accepts an insert
through two writes: the low link is rewired, then the new link fills an empty slot of the rewired tree.
Against the root of a list, whatever witnesses are accepted, the second root is the root of the list
with the key inserted (`Inserts.root_eq`); and a straddling link always yields accepted witnesses
(`exists_inserts`).
-/
namespace Tacit.LinkedTree

open Merkle SortedLinks

variable {α κ ν : Type*}

/-- The hashes of a linked tree and its empty leaf. -/
structure Hashing (α κ ν : Type*) where
  node : α → α → α
  leaf : Link κ ν → α
  empty : α

structure Hashing.Ideal (H : Hashing α κ ν) : Prop where
  node_inj : Function.Injective2 H.node
  leaf_inj : Function.Injective H.leaf
  leaf_ne : ∀ p, H.leaf p ≠ H.empty

/-- Root of the depth-`d` tree over the links `l`. -/
def root (H : Hashing α κ ν) (d : Nat) (l : List (Link κ ν)) : α :=
  treeRoot H.node d (pad H.empty (l.map H.leaf))

variable {H : Hashing α κ ν} {d : Nat} {l : List (Link κ ν)}

/-- An accepted path of a link's leaf points at that link. -/
theorem member_spec (hH : H.Ideal) {p : Link κ ν} {i : Nat} {path : List α}
    (hp : path.length = d) (h : rootFrom H.node (H.leaf p) i path = root H d l) : l[i % 2 ^ d]? = some p := by
  obtain ⟨he, -⟩ := rootFrom_binding hH.node_inj d _ _ i path hp h
  generalize i % 2 ^ d = j at he
  rcases Nat.lt_or_ge j l.length with hj | hj
  · rw [pad_of_lt _ (by simpa using hj)] at he
    simp only [List.getElem_map] at he
    rw [List.getElem?_eq_getElem hj, hH.leaf_inj he]
  · rw [pad_of_le _ (by simpa using hj)] at he
    exact absurd he (hH.leaf_ne p)

/-- Every link has an accepted path. -/
theorem exists_member (hl : l.length ≤ 2 ^ d) {p : Link κ ν} {i : Nat} (hi : l[i]? = some p) :
    ∃ path, path.length = d ∧ rootFrom H.node (H.leaf p) i path = root H d l := by
  obtain ⟨hil, rfl⟩ := List.getElem?_eq_some_iff.1 hi
  refine ⟨pathOf H.node d (pad H.empty (l.map H.leaf)) i, pathOf_length .., ?_⟩
  have h := @rootFrom_pathOf _ H.node d (pad H.empty (l.map H.leaf)) i (hil.trans_le hl)
  rwa [pad_of_lt _ (by simpa using hil), List.getElem_map] at h

/-- The tree after the rewire. -/
theorem root_rewire {p : Link κ ν} {i : Nat} (hi : l[i]? = some p) (x : κ) :
    pad H.empty ((l.set i { p with next := x }).map H.leaf) =
      Function.update (pad H.empty (l.map H.leaf)) i (H.leaf { p with next := x }) := by
  obtain ⟨hil, -⟩ := List.getElem?_eq_some_iff.1 hi
  rw [List.map_set, pad_set _ _ (by simpa using hil)]

theorem root_insertAt {p : Link κ ν} {i : Nat} (hi : l[i]? = some p) (x : κ) (v : ν) :
    pad H.empty ((insertAt l i p x v).map H.leaf) =
      Function.update (Function.update (pad H.empty (l.map H.leaf)) i (H.leaf { p with next := x }))
        l.length (H.leaf ⟨x, p.next, v⟩) := by
  rw [insertAt, List.map_append, List.map_cons, List.map_nil, pad_append, root_rewire hi x]
  simp

variable [LinearOrder κ] [OrderBot κ]

/-- The verifier's checks of an insert of `x ↦ v` that takes root `r` to root `r'`: the low link
straddles `x` and is in `r`, slot `j` is empty after the rewire, and `r'` fills it. -/
structure Inserts (H : Hashing α κ ν) (d : Nat) (r : α) (x : κ) (v : ν) (low : Link κ ν) (i : Nat)
    (lowPath : List α) (j : Nat) (newPath : List α) (r' : α) : Prop where
  straddles : Straddles low x
  lowLen : lowPath.length = d
  newLen : newPath.length = d
  lowIn : rootFrom H.node (H.leaf low) i lowPath = r
  slotEmpty : rootFrom H.node H.empty j newPath = rootFrom H.node (H.leaf { low with next := x }) i lowPath
  filled : rootFrom H.node (H.leaf ⟨x, low.next, v⟩) j newPath = r'

/-- **Accepted inserts are list inserts**, for every witness. -/
theorem Inserts.root_eq (hH : H.Ideal) (hl : l.length < 2 ^ d) {x : κ} {v : ν} {low : Link κ ν} {i : Nat}
    {lowPath newPath : List α} {r' : α} (h : Inserts H d (root H d l) x v low i lowPath l.length newPath r') :
    l[i % 2 ^ d]? = some low ∧ r' = root H d (insertAt l (i % 2 ^ d) low x v) := by
  have hlow := member_spec hH h.lowLen h.lowIn
  have hj : i % 2 ^ d < 2 ^ d := Nat.mod_lt _ (Nat.two_pow_pos d)
  obtain ⟨-, hpath⟩ := rootFrom_binding hH.node_inj d _ _ i lowPath h.lowLen h.lowIn
  -- the intermediate root is the root of the rewired tree
  have hmid : rootFrom H.node (H.leaf { low with next := x }) i lowPath =
      treeRoot H.node d (Function.update (pad H.empty (l.map H.leaf)) (i % 2 ^ d) (H.leaf { low with next := x })) := by
    rw [rootFrom_mod, h.lowLen, hpath, rootFrom_write hj]
  obtain ⟨-, hnew⟩ := rootFrom_binding hH.node_inj d _ _ _ newPath h.newLen (h.slotEmpty.trans hmid)
  rw [Nat.mod_eq_of_lt hl] at hnew
  refine ⟨hlow, ?_⟩
  rw [root, root_insertAt hlow, ← h.filled, hnew, rootFrom_write hl]

/-- A straddling link gives accepted witnesses. -/
theorem exists_inserts (hl : l.length < 2 ^ d) {x : κ} (v : ν) {p : Link κ ν} {i : Nat} (hi : l[i]? = some p)
    (hs : Straddles p x) :
    ∃ lowPath newPath, Inserts H d (root H d l) x v p i lowPath l.length newPath
      (root H d (insertAt l i p x v)) := by
  obtain ⟨hil, -⟩ := List.getElem?_eq_some_iff.1 hi
  have hid : i < 2 ^ d := hil.trans hl
  let f := pad H.empty (l.map H.leaf)
  let g := Function.update f i (H.leaf { p with next := x })
  have hfi : f i = H.leaf p := by
    simp only [f]
    rw [pad_of_lt _ (by simpa using hil), List.getElem_map]
    rw [List.getElem?_eq_getElem hil] at hi
    rw [Option.some.inj hi]
  have hge : g l.length = H.empty := by
    simp only [g, f]
    rw [Function.update_of_ne (by omega), pad_of_le _ (by simp)]
  refine ⟨pathOf H.node d f i, pathOf H.node d g l.length, hs, pathOf_length .., pathOf_length .., ?_, ?_, ?_⟩
  · rw [← hfi]
    exact rootFrom_pathOf d f i hid
  · rw [rootFrom_write hid, ← hge]
    exact rootFrom_pathOf d g l.length hl
  · rw [rootFrom_write hl, root, root_insertAt hi]

/-! ## A root that commits a list

What a verifier can keep of a list it never sees: the root and the number of links. -/

/-- `r` and `n` are the root and the length of the sorted list `l`, which fits the tree. -/
structure Commits (H : Hashing α κ ν) (d : Nat) (r : α) (n : Nat) (l : List (Link κ ν)) : Prop where
  linked : Linked l
  root_eq : r = root H d l
  length_eq : l.length = n
  fits : n ≤ 2 ^ d

section Commits

variable {r r' : α} {n : Nat} {x : κ} {v : ν} {low : Link κ ν} {i : Nat} {lowPath newPath : List α}

theorem commits_empty (v : ν) : Commits H d (root H d [⟨⊥, ⊥, v⟩]) 1 [⟨⊥, ⊥, v⟩] :=
  ⟨linked_empty v, rfl, rfl, Nat.one_le_two_pow⟩

theorem Commits.mem_of_path (hH : H.Ideal) (h : Commits H d r n l) {p : Link κ ν} (hp : lowPath.length = d)
    (hr : rootFrom H.node (H.leaf p) i lowPath = r) : p ∈ l :=
  List.mem_of_getElem? (member_spec hH hp (hr.trans h.root_eq))

/-- A full tree takes no insert: the slot at `2 ^ d` is slot 0, which is taken. -/
theorem Commits.lt_of_inserts (hH : H.Ideal) (h : Commits H d r n l)
    (hI : Inserts H d r x v low i lowPath n newPath r') : n < 2 ^ d := by
  rcases Nat.lt_or_ge n (2 ^ d) with hn | hn
  · exact hn
  exfalso
  have hnd : n = 2 ^ d := Nat.le_antisymm h.fits hn
  have hlow := member_spec hH hI.lowLen (hI.lowIn.trans h.root_eq)
  have hj : i % 2 ^ d < 2 ^ d := Nat.mod_lt _ (Nat.two_pow_pos d)
  obtain ⟨-, hpath⟩ := rootFrom_binding hH.node_inj d _ _ i lowPath hI.lowLen (hI.lowIn.trans h.root_eq)
  have hmid : rootFrom H.node (H.leaf { low with next := x }) i lowPath =
      treeRoot H.node d (pad H.empty ((l.set (i % 2 ^ d) { low with next := x }).map H.leaf)) := by
    rw [rootFrom_mod, hI.lowLen, hpath, rootFrom_write hj, root_rewire hlow]
  obtain ⟨he, -⟩ := rootFrom_binding hH.node_inj d _ _ n newPath hI.newLen (hI.slotEmpty.trans hmid)
  have h0 : 0 < (l.set (i % 2 ^ d) { low with next := x }).length := by
    rw [List.length_set, h.length_eq, hnd]
    exact Nat.two_pow_pos d
  rw [hnd, Nat.mod_self, pad_of_lt _ (by simpa using h0), List.getElem_map] at he
  exact hH.leaf_ne _ he.symm

/-- An accepted insert commits the list with the key inserted. -/
theorem Commits.insert (hH : H.Ideal) (h : Commits H d r n l)
    (hI : Inserts H d r x v low i lowPath n newPath r') :
    l[i % 2 ^ d]? = some low ∧ Commits H d r' (n + 1) (insertAt l (i % 2 ^ d) low x v) := by
  have hn := h.lt_of_inserts hH hI
  have hl : l.length < 2 ^ d := by rw [h.length_eq]; exact hn
  rw [h.root_eq, ← h.length_eq] at hI
  obtain ⟨hlow, hr⟩ := hI.root_eq hH hl
  refine ⟨hlow, h.linked.insertAt hlow hI.straddles v, hr, ?_, hn⟩
  simp [insertAt, h.length_eq]

theorem Commits.not_mem_of_inserts (hH : H.Ideal) (h : Commits H d r n l)
    (hI : Inserts H d r x v low i lowPath n newPath r') : x ∉ keys l :=
  h.linked.not_mem_of_straddles (h.mem_of_path hH hI.lowLen hI.lowIn) hI.straddles

/-- Whatever two witnesses are accepted for one insert, they give one root. -/
theorem Commits.insert_unique (hH : H.Ideal) (h : Commits H d r n l) {low' : Link κ ν} {i' : Nat}
    {lowPath' newPath' : List α} {r'' : α} (hI : Inserts H d r x v low i lowPath n newPath r')
    (hI' : Inserts H d r x v low' i' lowPath' n newPath' r'') : r' = r'' := by
  obtain ⟨hlow, hC⟩ := h.insert hH hI
  obtain ⟨hlow', hC'⟩ := h.insert hH hI'
  have hk := h.linked.straddles_unique (List.mem_of_getElem? hlow) (List.mem_of_getElem? hlow') hI.straddles
    hI'.straddles
  -- equal keys are one slot
  obtain ⟨hil, rfl⟩ := List.getElem?_eq_some_iff.1 hlow
  obtain ⟨hil', rfl⟩ := List.getElem?_eq_some_iff.1 hlow'
  have hidx : i % 2 ^ d = i' % 2 ^ d := by
    have := (List.nodup_iff_injective_get.1 h.linked.nodup).eq_iff (a := ⟨i % 2 ^ d, by simpa [keys] using hil⟩)
      (b := ⟨i' % 2 ^ d, by simpa [keys] using hil'⟩)
    exact congrArg Fin.val (this.1 (by simpa [keys] using hk))
  rw [hC.root_eq, hC'.root_eq]
  simp only [hidx]

/-- An absent key has an accepted insert while a slot is left. -/
theorem Commits.exists_insert (h : Commits H d r n l) (hn : n < 2 ^ d) (hx : x ∉ keys l) (v : ν) :
    ∃ low i lowPath newPath r', Inserts H d r x v low i lowPath n newPath r' := by
  obtain ⟨p, hp, hs⟩ := h.linked.exists_straddles hx
  obtain ⟨i, hi⟩ := List.mem_iff_getElem?.1 hp
  obtain ⟨lowPath, newPath, hI⟩ := exists_inserts (H := H) (d := d) (l := l) (by rw [h.length_eq]; exact hn) v hi hs
  rw [← h.root_eq, h.length_eq] at hI
  exact ⟨p, i, lowPath, newPath, _, hI⟩

/-- A present key has an accepted path. -/
theorem Commits.exists_path (h : Commits H d r n l) {p : Link κ ν} (hp : p ∈ l) :
    ∃ i path, path.length = d ∧ rootFrom H.node (H.leaf p) i path = r := by
  obtain ⟨i, hi⟩ := List.mem_iff_getElem?.1 hp
  obtain ⟨path, hl, hr⟩ := exists_member (H := H) (d := d) (by rw [h.length_eq]; exact h.fits) hi
  exact ⟨i, path, hl, hr.trans h.root_eq.symm⟩

end Commits

end Tacit.LinkedTree
