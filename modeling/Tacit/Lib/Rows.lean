import Mathlib.Algebra.Order.Ring.Nat
import Mathlib.Tactic.Ring
import Tacit.Lib.Frontier
/-!
# The rows of an append-only Merkle tree

Row `i` holds the nodes of height `i` over at least one leaf; behind its end stands the empty subtree of that height. A node over
the first `n` leaves alone does not depend on the rest. So the rows of a list and of one of its beginnings differ only from the
last node of the shorter on, and putting that node right in every row, from the leaves up, leads from the one to the other.
-/
namespace Tacit.Merkle

variable {α : Type} (node : α → α → α) (z : α)

/-- The nodes of height `i` over the leaves `l`. -/
def row (l : List α) : Nat → List α
  | 0 => l
  | i + 1 => levelUp node (zeros node z i) (row l i)

/-- How many nodes of height `i` there are over `n` leaves. -/
def rowLength (n i : Nat) : Nat := (n + 2 ^ i - 1) / 2 ^ i

/-- `d` rows from the `i`-th on. -/
def rows (l : List α) : Nat → Nat → List (List α)
  | _, 0 => []
  | i, d + 1 => row node z l i :: rows l (i + 1) d

variable {node z}

theorem rowLength_zero (n : Nat) : rowLength n 0 = n := by
  rw [rowLength, pow_zero, Nat.add_sub_cancel, Nat.div_one]

theorem lt_rowLength {n i j : Nat} : j < rowLength n i ↔ j * 2 ^ i < n := by
  have hpos := Nat.two_pow_pos i
  rw [rowLength, Nat.lt_iff_add_one_le, Nat.le_div_iff_mul_le hpos, Nat.add_mul, Nat.one_mul]
  omega

theorem rowLength_succ (n i : Nat) : rowLength n (i + 1) = (rowLength n i + 1) / 2 := by
  refine eq_of_forall_lt_iff fun j => ?_
  have hhalf : j < (rowLength n i + 1) / 2 ↔ 2 * j < rowLength n i := by omega
  rw [hhalf, lt_rowLength, lt_rowLength, pow_succ]
  have hmul : j * (2 ^ i * 2) = 2 * j * 2 ^ i := by ring
  rw [hmul]

theorem rowLength_pos {n i : Nat} (h : 0 < n) : 0 < rowLength n i := lt_rowLength.2 (by rwa [Nat.zero_mul])

theorem rowLength_mono {n m : Nat} (h : n ≤ m) (i : Nat) : rowLength n i ≤ rowLength m i := by
  by_contra hlt
  have hn : rowLength m i * 2 ^ i < n := lt_rowLength.1 (Nat.lt_of_not_le hlt)
  exact Nat.lt_irrefl _ (lt_rowLength.2 (Nat.lt_of_lt_of_le hn h))

theorem levelUp_length (w : α) : ∀ l : List α, (levelUp node w l).length = (l.length + 1) / 2
  | [] => by simp [levelUp]
  | [_] => by simp [levelUp]
  | _ :: _ :: l => by
    rw [levelUp, List.length_cons, levelUp_length w l, List.length_cons, List.length_cons]
    omega

theorem row_length (l : List α) : ∀ i, (row node z l i).length = rowLength l.length i
  | 0 => (rowLength_zero _).symm
  | i + 1 => by rw [row, levelUp_length, row_length l i, rowLength_succ]

theorem rows_length (l : List α) : ∀ i d, (rows node z l i d).length = d
  | _, 0 => rfl
  | i, d + 1 => congrArg Nat.succ (rows_length l (i + 1) d)

theorem rows_getElem? (l : List α) : ∀ {i d j : Nat}, j < d → (rows node z l i d)[j]? = some (row node z l (i + j))
  | _, d + 1, 0, _ => rfl
  | i, d + 1, j + 1, h => by
    rw [rows, List.getElem?_cons_succ, rows_getElem? l (Nat.lt_of_succ_lt_succ h), Nat.add_right_comm, Nat.add_assoc]

/-- **A row and the empty subtrees behind it** are the nodes of its height. -/
theorem nodesAt_pad (l : List α) : ∀ i, nodesAt node (pad z l) i = pad (zeros node z i) (row node z l i)
  | 0 => rfl
  | i + 1 => by
    have ih := nodesAt_pad l i
    show level node (nodesAt node (pad z l) i) = _
    rw [ih, level_pad]
    rfl

theorem row_getD (l : List α) (i j : Nat) : (row node z l i).getD j (zeros node z i) = nodesAt node (pad z l) i j :=
  (congrFun (nodesAt_pad l i) j).symm

theorem row_getElem? (l : List α) {i j : Nat} (h : j < rowLength l.length i) :
    (row node z l i)[j]? = some (nodesAt node (pad z l) i j) := by
  have hj : j < (row node z l i).length := by rwa [row_length]
  rw [← row_getD, List.getD_eq_getElem?_getD, List.getElem?_eq_getElem hj, Option.getD_some]

/-- The last row of a tree with leaves is its root. -/
theorem row_top {l : List α} {d : Nat} (h : l ≠ []) (hd : l.length ≤ 2 ^ d) : row node z l d = [treeRoot node d (pad z l)] := by
  have hone : rowLength l.length d = 1 := by
    have hpos := rowLength_pos (i := d) (List.length_pos_iff.2 h)
    have hle : ¬1 < rowLength l.length d := fun hlt => by
      have := lt_rowLength.1 hlt
      omega
    omega
  have hzero : (row node z l d)[0]? = some (nodesAt node (pad z l) d 0) := row_getElem? l (by rw [hone]; exact Nat.one_pos)
  have hroot : nodesAt node (pad z l) d 0 = treeRoot node d (pad z l) := by
    have h : treeRoot node d (pad z l) = nodesAt node (pad z l) (0 + d) 0 := treeRoot_nodesAt (pad z l) d 0
    rw [h, Nat.zero_add]
  have hlen : (row node z l d).length = 1 := by rw [row_length, hone]
  obtain ⟨a, ha⟩ := List.length_eq_one_iff.1 hlen
  rw [ha] at hzero ⊢
  rw [← hroot, ← Option.some.inj hzero]

/-- The path of a slot, level by level. -/
theorem pathOf_nodesAt (f : Nat → α) (m : Nat) : ∀ n i, pathOf node n (nodesAt node f i) (m / 2 ^ i) =
    (List.range' i n).map fun j => nodesAt node f j (sibling (m / 2 ^ j))
  | 0, _ => rfl
  | n + 1, i => by
    rw [pathOf, List.range'_succ, List.map_cons, ← div_pow_succ]
    exact congrArg _ (pathOf_nodesAt f m n (i + 1))

/-! ## Rows of a beginning -/

/-- A node over leaves that two lists share. -/
theorem nodesAt_take {l : List α} {n i j : Nat} (h : (j + 1) * 2 ^ i ≤ n) :
    nodesAt node (pad z (l.take n)) i j = nodesAt node (pad z l) i j := by
  refine nodesAt_congr i fun k hk => ?_
  have hlt : k < n := by
    have hpos := Nat.two_pow_pos i
    have := (Nat.div_lt_iff_lt_mul hpos).1 (hk ▸ Nat.lt_succ_self _ : k / 2 ^ i < j + 1)
    omega
  rw [pad, pad, List.getD_eq_getElem?_getD, List.getD_eq_getElem?_getD, List.getElem?_take, if_pos hlt]

/-- A node whose leaves are all there stays as leaves are appended. -/
theorem nodesAt_append {l t : List α} {i j : Nat} (h : (j + 1) * 2 ^ i ≤ l.length) :
    nodesAt node (pad z (l ++ t)) i j = nodesAt node (pad z l) i j := by
  have htake : nodesAt node (pad z ((l ++ t).take l.length)) i j = nodesAt node (pad z (l ++ t)) i j := nodesAt_take h
  rw [← htake, List.take_left]

/-- Behind the last node there are empty subtrees. -/
theorem nodesAt_past {l : List α} {i j : Nat} (h : rowLength l.length i ≤ j) : nodesAt node (pad z l) i j = zeros node z i := by
  rw [← row_getD, List.getD_eq_getElem?_getD, List.getElem?_eq_none (by rwa [row_length])]
  rfl

/-- Write one node, behind the last or over one that is there. -/
def put (l : List α) (k : Nat) (v : α) : List α := l.take k ++ v :: l.drop (k + 1)

/-- A row that is right but for its last node, which may be missing. -/
structure Near (node : α → α → α) (z : α) (l : List α) (i : Nat) (r : List α) : Prop where
  length : r.length ≤ rowLength l.length i
  take : r.take (rowLength l.length i - 1) = (row node z l i).take (rowLength l.length i - 1)

/-- Its last node put right, the row is. -/
theorem Near.put {l r : List α} {i : Nat} (h : Near node z l i r) (hpos : 0 < l.length) :
    put r (rowLength l.length i - 1) (nodesAt node (pad z l) i (rowLength l.length i - 1)) = row node z l i := by
  have hone := rowLength_pos (i := i) hpos
  have hlast : (row node z l i)[rowLength l.length i - 1]? = some (nodesAt node (pad z l) i (rowLength l.length i - 1)) :=
    row_getElem? l (by omega)
  have hdrop : (row node z l i).drop (rowLength l.length i - 1) =
      [nodesAt node (pad z l) i (rowLength l.length i - 1)] := by
    obtain ⟨hlt, hget⟩ := List.getElem?_eq_some_iff.1 hlast
    rw [List.drop_eq_getElem_cons hlt, hget, List.drop_of_length_le (by rw [row_length]; omega)]
  have hlen := h.length
  rw [Merkle.put, h.take, List.drop_of_length_le (by omega), ← hdrop, List.take_append_drop]

/-- The rows of a list, as those of a beginning: one leaf more at most, or cut. -/
theorem near_take {l : List α} {n i : Nat} (hn : n ≤ l.length) :
    Near node z (l.take n) i ((row node z l i).take (rowLength n i)) := by
  have hlen : (l.take n).length = n := List.length_take_of_le hn
  constructor
  · rw [hlen]
    exact List.length_take_le ..
  · rw [hlen, List.take_take, Nat.min_eq_left (Nat.sub_le ..)]
    refine List.ext_getElem? fun j => ?_
    rw [List.getElem?_take, List.getElem?_take]
    by_cases hj : j < rowLength n i - 1
    · have hfull : (j + 1) * 2 ^ i ≤ n := (lt_rowLength.1 (by omega : j + 1 < rowLength n i)).le
      have hmono := rowLength_mono hn i
      rw [if_pos hj, if_pos hj, row_getElem? l (by omega), row_getElem? (l.take n) (by rw [hlen]; omega), nodesAt_take hfull]
    · rw [if_neg hj, if_neg hj]

theorem near_append (l : List α) (x : α) (i : Nat) : Near node z (l ++ [x]) i (row node z l i) := by
  have hlen : (l ++ [x]).length = l.length + 1 := by simp
  constructor
  · rw [row_length, hlen]
    exact rowLength_mono (Nat.le_succ _) i
  · rw [hlen]
    refine List.ext_getElem? fun j => ?_
    rw [List.getElem?_take, List.getElem?_take]
    by_cases hj : j < rowLength (l.length + 1) i - 1
    · have hfull : (j + 1) * 2 ^ i ≤ l.length :=
        Nat.le_of_lt_succ (lt_rowLength.1 (by omega : j + 1 < rowLength (l.length + 1) i))
      have hpos := Nat.two_pow_pos i
      have hinside : j * 2 ^ i < l.length := by
        rw [Nat.add_mul] at hfull
        omega
      rw [if_pos hj, if_pos hj, row_getElem? l (lt_rowLength.2 hinside), row_getElem? (l ++ [x]) (by rw [hlen]; omega),
        nodesAt_append hfull]
    · rw [if_neg hj, if_neg hj]

end Tacit.Merkle
