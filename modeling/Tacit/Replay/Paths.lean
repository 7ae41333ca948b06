import Tacit.Lib.BigEndian
import Tacit.Lib.PartitionPoint
import Tacit.Replay.Reach
/-!
# Roots and paths at an anchor (worker/src/btc-shielded-pool.js:343-406)

A path may be asked for in the tree as it stands, or in that of its first leaves as it stood after an earlier block. A node whose
leaves are all among the first ones is read, the others are computed again.
-/
namespace Tacit

namespace Replay

open Merkle

/-- `leafCountAt` (:402); `none` from 2^30 leaves on, where the sum that `>> 1` halves may not fit. -/
def leafCountAt (st : BtcPoolState) (height : Int) : Option Nat :=
  if st.leafHeights.length ≤ 2 ^ 30 then
    some (partitionPoint (fun m => st.leafHeights.getD m 0 ≤ height) 0 st.leafHeights.length)
  else none

/-- `k ^ 1`; `none` where it is negative, and what it indexes undefined. -/
def xorOne (k : Nat) : Option Nat := if k < 2 ^ 31 then some (sibling k) else none

namespace PoseidonTree

section

variable {P : Type} (L : Library P)

/-- `leaf` (:340). -/
def leaf (t : PoseidonTree) (i : Nat) : Bytes := bigTo32 ((t.levels.headD []).getD i 0)

/-- The loop of both (:345, :364): the node beside the path at each level. -/
def siblings (node : Nat → Nat → Nat) (index : Nat) : Option (List Bytes) :=
  (List.range TREE_DEPTH).mapM fun i => (xorOne (index / 2 ^ i)).map fun sib => bigTo32 (node i sib)

/-- A node of a level, or the empty subtree behind its end (:348). -/
def nodeOrZero (t : PoseidonTree) (i j : Nat) : Nat :=
  if j < (t.levels.getD i []).length then (t.levels.getD i []).getD j 0 else ZEROS_F L i

/-- `rootAndPath` (:343); `none` where it throws. -/
def rootAndPath (t : PoseidonTree) (index : Nat) : Option (Bytes × List Bytes) :=
  (siblings (t.nodeOrZero L) index).map fun path => (t.root L, path)

/-- The node `j` of level `i` over the first `n` leaves (:357). -/
def nodeOf (t : PoseidonTree) (n : Nat) : Nat → Nat → Nat
  | 0, j => if n ≤ j then ZEROS_F L 0 else (t.levels.getD 0 []).getD j 0
  | i + 1, j =>
    let lo := j * 2 ^ (i + 1)
    if n ≤ lo then ZEROS_F L (i + 1)
    else if lo + 2 ^ (i + 1) ≤ n then (t.levels.getD (i + 1) []).getD j 0
    else L.poseidon2 (nodeOf t n i (2 * j)) (nodeOf t n i (2 * j + 1))

/-- `rootAndPathAt` (:354); `none` where it throws. -/
def rootAndPathAt (t : PoseidonTree) (index n : Nat) : Option (Bytes × List Bytes) :=
  if index < n ∧ n ≤ t.size then (siblings (t.nodeOf L n) index).map fun path => (bigTo32 (t.nodeOf L n TREE_DEPTH 0), path)
  else none

end

end PoseidonTree

section

variable {P : Type} (L : Library P)

/-- The loop of `rootFromPath` (:370), from level `i` on. -/
def foldPath (index : Nat) : Nat → Nat → List Bytes → Nat
  | _, h, [] => h
  | i, h, sib :: path =>
    foldPath index (i + 1) (if index / 2 ^ i % 2 ≠ 0 then L.poseidon2 (bytesToBig sib) h else L.poseidon2 h (bytesToBig sib)) path

/-- `rootFromPath` (:368); `none` where `path[i]` is undefined. -/
def rootFromPath (leaf : Bytes) (index : Nat) (path : List Bytes) : Option Bytes :=
  if TREE_DEPTH ≤ path.length then some (bigTo32 (foldPath L index 0 (bytesToBig leaf) (path.take TREE_DEPTH))) else none

variable {L} {l : List Nat} {index n : Nat}

theorem foldl_beBytes : ∀ {k x : Nat}, x < 256 ^ k → (beBytes k x).foldl (fun n b => n * 256 + b) 0 = x
  | 0, x, h => by
    rw [pow_zero, Nat.lt_one_iff] at h
    rw [h]
    rfl
  | k + 1, x, h => by
    have hcons : beBytes (k + 1) x = beBytes k (x / 256) ++ [x % 256] := List.reverse_cons
    rw [pow_succ] at h
    rw [hcons, List.foldl_append, foldl_beBytes (by omega), List.foldl_cons, List.foldl_nil]
    omega

theorem bytesToBig_bigTo32 {x : Nat} (h : x < P_FR) : bytesToBig (bigTo32 x) = x :=
  foldl_beBytes (h.trans (by decide))

theorem xorOne_eq {k : Nat} (h : k < 2 ^ 31) : xorOne k = some (sibling k) := if_pos h

/-- A path of field elements folds as the tree does. -/
theorem foldPath_eq (index : Nat) : ∀ (path : List Nat) (i h : Nat), (∀ sib ∈ path, sib < P_FR) →
    foldPath L index i h (path.map bigTo32) = rootFrom L.poseidon2 h (index / 2 ^ i) path
  | [], _, _, _ => rfl
  | sib :: path, i, h, hpath => by
    have hsib := bytesToBig_bigTo32 (hpath sib List.mem_cons_self)
    have hnext : index / 2 ^ i / 2 = index / 2 ^ (i + 1) := by rw [Nat.div_div_eq_div_mul, pow_succ]
    have hside : (if index / 2 ^ i % 2 ≠ 0 then L.poseidon2 sib h else L.poseidon2 h sib) =
        if index / 2 ^ i % 2 = 0 then L.poseidon2 h sib else L.poseidon2 sib h := ite_not ..
    rw [List.map_cons, foldPath, hsib, hside, foldPath_eq index path _ _ fun s hs => hpath s (List.mem_cons_of_mem _ hs), rootFrom,
      hnext]

namespace PoseidonTree

theorem of_level {i : Nat} (hi : i ≤ TREE_DEPTH) : (of L l).levels.getD i [] = row L.poseidon2 0 l i := by
  rw [of, List.getD_eq_getElem?_getD, rows_getElem? l (Nat.lt_succ_of_le hi), Nat.zero_add, Option.getD_some]

/-- A node whose leaves are all among the first is read. -/
theorem of_node {i j : Nat} (hi : i ≤ TREE_DEPTH) (hn : n ≤ l.length) (hj : (j + 1) * 2 ^ i ≤ n) :
    ((of L l).levels.getD i []).getD j 0 = nodesAt L.poseidon2 (pad 0 (l.take n)) i j := by
  have hlt : j < rowLength l.length i := by
    rw [lt_rowLength]
    have hpos := Nat.two_pow_pos i
    rw [Nat.add_mul] at hj
    omega
  rw [of_level hi, List.getD_eq_getElem?_getD, row_getElem? l hlt, Option.getD_some, nodesAt_take hj]

/-- **`node` is the node over the first leaves**, read or computed. -/
theorem nodeOf_of (hn : n ≤ l.length) : ∀ {i j : Nat}, i ≤ TREE_DEPTH →
    (of L l).nodeOf L n i j = nodesAt L.poseidon2 (pad 0 (l.take n)) i j := by
  have hpast : ∀ {i j : Nat}, n ≤ j * 2 ^ i → nodesAt L.poseidon2 (pad 0 (l.take n)) i j = ZEROS_F L i := by
    intro i j h
    refine nodesAt_past (Nat.le_of_not_lt fun hlt => ?_)
    rw [lt_rowLength, List.length_take_of_le hn] at hlt
    omega
  intro i
  induction i with
  | zero =>
    intro j hi
    rw [nodeOf]
    split_ifs with hj
    · exact (hpast (by omega)).symm
    · exact of_node hi hn (by omega)
  | succ i ih =>
    intro j hi
    rw [nodeOf]
    split_ifs with hlo hall
    · exact (hpast hlo).symm
    · exact of_node hi hn (by rw [Nat.add_mul]; omega)
    · rw [ih (by omega), ih (by omega)]
      rfl

theorem mapM_some {α β : Type} {f : α → Option β} {g : α → β} : ∀ {l : List α}, (∀ a ∈ l, f a = some (g a)) →
    l.mapM f = some (l.map g)
  | [], _ => rfl
  | a :: l, h => by
    rw [List.mapM_cons, h a List.mem_cons_self, Option.bind_eq_bind, Option.bind_some,
      mapM_some fun b hb => h b (List.mem_cons_of_mem _ hb), Option.bind_eq_bind, Option.bind_some]
    rfl

/-- What the tree of the first leaves answers. -/
def answer (L : Library P) (l : List Nat) (index : Nat) : Bytes × List Bytes :=
  (bigTo32 (treeRoot L.poseidon2 TREE_DEPTH (pad 0 l)), (pathOf L.poseidon2 TREE_DEPTH (pad 0 l) index).map bigTo32)

theorem path_eq (l : List Nat) (index : Nat) : pathOf L.poseidon2 TREE_DEPTH (pad 0 l) index =
    (List.range' 0 TREE_DEPTH).map fun i => nodesAt L.poseidon2 (pad 0 l) i (sibling (index / 2 ^ i)) := by
  rw [← pathOf_nodesAt (pad 0 l) index TREE_DEPTH 0, pow_zero, Nat.div_one]
  rfl

theorem siblings_eq {f : Nat → Nat → Nat} (hsmall : index < 2 ^ 31)
    (hf : ∀ i j, i ≤ TREE_DEPTH → f i j = nodesAt L.poseidon2 (pad 0 l) i j) :
    siblings f index = some ((pathOf L.poseidon2 TREE_DEPTH (pad 0 l) index).map bigTo32) := by
  have hstep : ∀ i ∈ List.range TREE_DEPTH, ((xorOne (index / 2 ^ i)).map fun sib => bigTo32 (f i sib)) =
      some (bigTo32 (nodesAt L.poseidon2 (pad 0 l) i (sibling (index / 2 ^ i)))) := by
    intro i hi
    have hlt := Nat.lt_of_le_of_lt (Nat.div_le_self index (2 ^ i)) hsmall
    rw [xorOne_eq hlt, Option.map_some, hf i _ (List.mem_range.1 hi).le]
  rw [siblings, mapM_some hstep, List.range_eq_range', path_eq, List.map_map]
  rfl

theorem root_eq (l : List Nat) : nodesAt L.poseidon2 (pad 0 l) TREE_DEPTH 0 = treeRoot L.poseidon2 TREE_DEPTH (pad 0 l) := by
  have h : treeRoot L.poseidon2 TREE_DEPTH (pad 0 l) = nodesAt L.poseidon2 (pad 0 l) (0 + TREE_DEPTH) 0 :=
    treeRoot_nodesAt (pad 0 l) TREE_DEPTH 0
  rw [h, Nat.zero_add]

theorem rootAndPathAt_of (hsmall : index < 2 ^ 31) (hindex : index < n) (hn : n ≤ l.length) :
    (of L l).rootAndPathAt L index n = some (answer L (l.take n) index) := by
  have hpath := siblings_eq hsmall fun i j hi => nodeOf_of (L := L) (l := l) hn (j := j) hi
  rw [rootAndPathAt, if_pos ⟨hindex, hn⟩, hpath, Option.map_some, nodeOf_of hn le_rfl, root_eq]
  rfl

theorem nodeOrZero_of {i : Nat} (j : Nat) (hi : i ≤ TREE_DEPTH) :
    (of L l).nodeOrZero L i j = nodesAt L.poseidon2 (pad 0 l) i j := by
  rw [nodeOrZero, of_level hi, row_length]
  split_ifs with hj
  · rw [List.getD_eq_getElem?_getD, row_getElem? l hj, Option.getD_some]
  · exact (nodesAt_past (Nat.le_of_not_lt hj)).symm

/-- **In the tree as it stands** the path is that in the tree of all its leaves. -/
theorem rootAndPath_of (hsmall : index < 2 ^ 31) (hl : l.length ≤ MAX_LEAVES) :
    (of L l).rootAndPath L index = some (answer L l index) := by
  rw [rootAndPath, siblings_eq hsmall fun i j hi => nodeOrZero_of j hi, Option.map_some, root, rootF_of hl]
  rfl

/-- Every node over field elements is one. -/
theorem nodesAt_lt (hnode : ∀ a b, L.poseidon2 a b < P_FR) (hl : ∀ v ∈ l, v < P_FR) :
    ∀ i j, nodesAt L.poseidon2 (pad 0 l) i j < P_FR
  | 0, j => by
    have hzero : 0 < P_FR := by decide
    rw [nodesAt, pad, List.getD_eq_getElem?_getD]
    cases hj : l[j]? with
    | none => exact hzero
    | some v => exact hl v (List.mem_of_getElem? hj)
  | _ + 1, _ => hnode _ _

/-- **A path leads to its root.** -/
theorem rootFromPath_answer (hnode : ∀ a b, L.poseidon2 a b < P_FR) (hl : ∀ v ∈ l, v < P_FR) (hindex : index < l.length)
    (hsize : l.length ≤ MAX_LEAVES) :
    rootFromPath L (bigTo32 (l.getD index 0)) index (answer L l index).2 = some (answer L l index).1 := by
  have hpath : ∀ sib ∈ pathOf L.poseidon2 TREE_DEPTH (pad 0 l) index, sib < P_FR := by
    intro sib hsib
    rw [path_eq] at hsib
    obtain ⟨i, -, rfl⟩ := List.mem_map.1 hsib
    exact nodesAt_lt hnode hl _ _
  have hlen : (answer L l index).2.length = TREE_DEPTH := by rw [answer, List.length_map, pathOf_length]
  have hleaf : l.getD index 0 = nodesAt L.poseidon2 (pad 0 l) 0 index := rfl
  have hroot : rootFrom L.poseidon2 (pad 0 l index) index (pathOf L.poseidon2 TREE_DEPTH (pad 0 l) index) =
      treeRoot L.poseidon2 TREE_DEPTH (pad 0 l) := rootFrom_pathOf TREE_DEPTH (pad 0 l) index (Nat.lt_of_lt_of_le hindex hsize)
  rw [rootFromPath, if_pos hlen.ge, List.take_of_length_le hlen.le, answer, foldPath_eq index _ 0 _ hpath, pow_zero, Nat.div_one,
    hleaf, bytesToBig_bigTo32 (nodesAt_lt hnode hl 0 index)]
  exact congrArg (fun root => some (bigTo32 root)) hroot

end PoseidonTree

end

end Replay

end Tacit
