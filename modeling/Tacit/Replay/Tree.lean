import Tacit.Lib.Rows
import Tacit.Replay.Envelopes
/-!
# The note tree of the replay (worker/src/btc-shielded-pool.js:300-342)

Every level is kept. `append` and `truncate` change the end of each level and put its last node right from the leaves up, so the
tree is always that of its leaves (`PoseidonTree.of`), whatever their number.
-/
namespace Tacit

namespace Replay

open Merkle

def TREE_DEPTH : Nat := 32
def MAX_LEAVES : Nat := 2 ^ TREE_DEPTH

structure PoseidonTree where
  levels : List (List Nat)

namespace PoseidonTree

/-- `new PoseidonTree()`. -/
def empty : PoseidonTree := ⟨List.replicate (TREE_DEPTH + 1) []⟩

def size (t : PoseidonTree) : Nat := (t.levels.headD []).length

section

variable {P : Type} (L : Library P)

/-- `ZEROS_F` (:306). -/
def ZEROS_F (i : Nat) : Nat := zeros L.poseidon2 0 i

/-- The loop of `_rehash` (:324), on the levels above `lv`. -/
def rehashFrom : Nat → Nat → List Nat → List (List Nat) → List (List Nat)
  | _, _, _, [] => []
  | i, k, lv, up :: rest =>
    let pk := k / 2
    let l := lv.getD (2 * pk) 0
    let r := if 2 * pk + 1 < lv.length then lv.getD (2 * pk + 1) 0 else ZEROS_F L i
    let up := put up pk (L.poseidon2 l r)
    up :: rehashFrom (i + 1) pk up rest

/-- `_rehash` (:324). -/
def rehash (t : PoseidonTree) (idx : Nat) : PoseidonTree :=
  match t.levels with
  | [] => t
  | lv :: rest => ⟨lv :: rehashFrom L 0 idx lv rest⟩

/-- `append` (:316), of a field element. -/
def append (t : PoseidonTree) (v : Nat) : PoseidonTree :=
  match t.levels with
  | [] => t
  | lv :: rest => rehash L ⟨(lv ++ [v]) :: rest⟩ lv.length

/-- `levels[i].length = Math.ceil(n / 2 ** i)`, from level `i` up. -/
def cut (n : Nat) : Nat → List (List Nat) → List (List Nat)
  | _, [] => []
  | i, lv :: rest => lv.take (rowLength n i) :: cut n (i + 1) rest

/-- `truncate` (:335), to at most the size. -/
def truncate (t : PoseidonTree) (n : Nat) : PoseidonTree :=
  let t := ⟨cut n 0 t.levels⟩
  if 0 < n then rehash L t (n - 1) else t

/-- `rootF` (:341). -/
def rootF (t : PoseidonTree) : Nat := if t.size = 0 then ZEROS_F L TREE_DEPTH else (t.levels.getD TREE_DEPTH []).headD 0

/-- `root` (:342). -/
def root (t : PoseidonTree) : Bytes := bigTo32 (t.rootF L)

/-! ## The tree of its leaves -/

/-- All levels over some leaves. -/
def of (leaves : List Nat) : PoseidonTree := ⟨rows L.poseidon2 0 leaves 0 (TREE_DEPTH + 1)⟩

variable {L} {T : List Nat}

/-- Levels that are right but for their last nodes. -/
def NearAll (L : Library P) (T : List Nat) : Nat → List (List Nat) → Prop
  | _, [] => True
  | i, up :: rest => Near L.poseidon2 0 T i up ∧ NearAll L T (i + 1) rest

/-- **A rehash of the last leaf puts every level right.** -/
theorem rehashFrom_eq (hpos : 0 < T.length) : ∀ {rest : List (List Nat)} {i : Nat}, NearAll L T (i + 1) rest →
    rehashFrom L i (rowLength T.length i - 1) (row L.poseidon2 0 T i) rest = rows L.poseidon2 0 T (i + 1) rest.length
  | [], _, _ => rfl
  | up :: rest, i, h => by
    obtain ⟨hup, hrest⟩ := h
    have hone := rowLength_pos (i := i) hpos
    have hpk : (rowLength T.length i - 1) / 2 = rowLength T.length (i + 1) - 1 := by
      rw [rowLength_succ]
      omega
    have hget : ∀ {j : Nat}, j < rowLength T.length i → (row L.poseidon2 0 T i).getD j 0 =
        nodesAt L.poseidon2 (pad 0 T) i j := by
      intro j hj
      rw [List.getD_eq_getElem?_getD, row_getElem? T hj, Option.getD_some]
    have hl := hget (show 2 * (rowLength T.length (i + 1) - 1) < rowLength T.length i by omega)
    have hr : (if 2 * (rowLength T.length (i + 1) - 1) + 1 < (row L.poseidon2 0 T i).length then
        (row L.poseidon2 0 T i).getD (2 * (rowLength T.length (i + 1) - 1) + 1) 0 else ZEROS_F L i) =
        nodesAt L.poseidon2 (pad 0 T) i (2 * (rowLength T.length (i + 1) - 1) + 1) := by
      rw [← row_getD]
      split_ifs with hin
      · rw [hget (by rwa [row_length] at hin), row_getD]
      · rw [List.getD_eq_getElem?_getD, List.getElem?_eq_none (not_lt.1 hin)]
        rfl
    have hput : put up (rowLength T.length (i + 1) - 1) (nodesAt L.poseidon2 (pad 0 T) (i + 1) (rowLength T.length (i + 1) - 1)) =
        row L.poseidon2 0 T (i + 1) := hup.put hpos
    have hnode : L.poseidon2 (nodesAt L.poseidon2 (pad 0 T) i (2 * (rowLength T.length (i + 1) - 1)))
        (nodesAt L.poseidon2 (pad 0 T) i (2 * (rowLength T.length (i + 1) - 1) + 1)) =
        nodesAt L.poseidon2 (pad 0 T) (i + 1) (rowLength T.length (i + 1) - 1) := rfl
    rw [rehashFrom]
    simp only [hpk, hl, hr, hnode, hput]
    rw [rehashFrom_eq hpos hrest]
    rfl

theorem of_levels (l : List Nat) : (of L l).levels = l :: rows L.poseidon2 0 l 1 TREE_DEPTH := rfl

theorem of_size (l : List Nat) : (of L l).size = l.length := rfl

theorem of_nil : of L [] = empty := by
  have hrows : ∀ d i, rows L.poseidon2 0 [] i d = List.replicate d [] := by
    have hrow : ∀ i, row L.poseidon2 0 [] i = [] := by
      intro i
      induction i with
      | zero => rfl
      | succ i ih => rw [row, ih, levelUp]
    intro d
    induction d with
    | zero => exact fun _ => rfl
    | succ d ih =>
      intro i
      rw [rows, hrow, ih, List.replicate_succ]
  rw [of, hrows]
  rfl

/-- What a rehash of the last leaf makes of levels that are right but for their last nodes. -/
theorem rehash_eq (hpos : 0 < T.length) {rest : List (List Nat)} (hlen : rest.length = TREE_DEPTH) (h : NearAll L T 1 rest) :
    rehash L ⟨T :: rest⟩ (T.length - 1) = of L T := by
  have hrehash := rehashFrom_eq (i := 0) hpos h
  rw [rowLength_zero, hlen] at hrehash
  show (⟨T :: rehashFrom L 0 (T.length - 1) T rest⟩ : PoseidonTree) = _
  exact congrArg (fun rest => (⟨T :: rest⟩ : PoseidonTree)) hrehash

/-- **`append`** is the tree with the leaf behind the others. -/
theorem append_of (l : List Nat) (v : Nat) : (of L l).append L v = of L (l ++ [v]) := by
  have hnear : ∀ d i, NearAll L (l ++ [v]) i (rows L.poseidon2 0 l i d) := by
    intro d
    induction d with
    | zero => exact fun _ => trivial
    | succ d ih => exact fun i => ⟨near_append l v i, ih (i + 1)⟩
  have hlen : l.length = (l ++ [v]).length - 1 := by simp
  show rehash L ⟨(l ++ [v]) :: rows L.poseidon2 0 l 1 TREE_DEPTH⟩ l.length = _
  rw [hlen]
  exact rehash_eq (by simp) (rows_length l 1 TREE_DEPTH) (hnear TREE_DEPTH 1)

theorem cut_length (n : Nat) : ∀ (levels : List (List Nat)) (i : Nat), (cut n i levels).length = levels.length
  | [], _ => rfl
  | _ :: levels, i => congrArg Nat.succ (cut_length n levels (i + 1))

/-- **`truncate`** is the tree of the first leaves, at any count. -/
theorem truncate_of {l : List Nat} {n : Nat} (hn : n ≤ l.length) : (of L l).truncate L n = of L (l.take n) := by
  have hnear : ∀ d i, NearAll L (l.take n) i (cut n i (rows L.poseidon2 0 l i d)) := by
    intro d
    induction d with
    | zero => exact fun _ => trivial
    | succ d ih => exact fun i => ⟨near_take hn, ih (i + 1)⟩
  have hcut : cut n 0 (of L l).levels = l.take n :: cut n 1 (rows L.poseidon2 0 l 1 TREE_DEPTH) := by
    rw [of_levels, cut, rowLength_zero]
  have hlen : (l.take n).length = n := List.length_take_of_le hn
  unfold truncate
  rw [hcut]
  dsimp only
  by_cases hpos : 0 < n
  · have hrehash := rehash_eq (by rw [hlen]; exact hpos) ((cut_length n _ 1).trans (rows_length l 1 TREE_DEPTH))
      (hnear TREE_DEPTH 1)
    rw [hlen] at hrehash
    rw [if_pos hpos, hrehash]
  · obtain rfl : n = 0 := by omega
    have hempty : ∀ d i, cut 0 i (rows L.poseidon2 0 l i d) = List.replicate d [] := by
      intro d
      induction d with
      | zero => exact fun _ => rfl
      | succ d ih =>
        intro i
        have hzero : rowLength 0 i = 0 := Nat.le_zero.1 (Nat.le_of_not_lt fun h => by
          have := lt_rowLength.1 h
          omega)
        rw [rows, cut, hzero, List.take_zero, ih, List.replicate_succ]
    rw [if_neg hpos, hempty, List.take_zero, of_nil]
    rfl

/-- The root that a block records is that of the tree over its leaves and zeros behind them. -/
theorem rootF_of {l : List Nat} (h : l.length ≤ MAX_LEAVES) : (of L l).rootF L = treeRoot L.poseidon2 TREE_DEPTH (pad 0 l) := by
  rw [rootF, of_size]
  by_cases hnil : l = []
  · rw [hnil, treeRoot_pad_nil]
    rfl
  · have hpos := List.length_pos_iff.2 hnil
    have htop : (of L l).levels.getD TREE_DEPTH [] = row L.poseidon2 0 l TREE_DEPTH := by
      rw [of, List.getD_eq_getElem?_getD, rows_getElem? l (Nat.lt_succ_self _), Nat.zero_add, Option.getD_some]
    rw [if_neg hpos.ne', htop, row_top hnil h, List.headD_cons]

end

end PoseidonTree

end Replay

end Tacit
