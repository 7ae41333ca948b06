import Tacit.Lib.Rows
/-!
# Append-only Merkle trees that take batches

Over `n` leaves, `lastLeft` is the last left node of each height; it is what an append-only tree stores of its right edge. A batch
behind them changes the nodes of a `window`, from the one above the first new leaf to the last one: what lies before is complete,
and the node just before an odd edge is the stored one; what lies behind is empty.
-/
namespace Tacit.Merkle

variable {α : Type} {node : α → α → α} {z : α}

/-- The index of the last left node of height `i` over `n` leaves. -/
def lastLeft (n i : Nat) : Nat := (rowLength n i - 1) / 2 * 2

/-- The index of the last node. -/
theorem rowLength_pred {n i : Nat} (h : 0 < n) : rowLength n i - 1 = (n - 1) / 2 ^ i := by
  have hpos := Nat.two_pow_pos i
  have hlast : (n - 1) / 2 ^ i < rowLength n i := lt_rowLength.2 (by
    have := Nat.div_mul_le_self (n - 1) (2 ^ i)
    omega)
  have hnext : ¬(n - 1) / 2 ^ i + 1 < rowLength n i := fun hlt => by
    have hmul := lt_rowLength.1 hlt
    have hover := Nat.lt_mul_div_succ (n - 1) hpos
    rw [Nat.mul_comm] at hover
    omega
  exact (Nat.eq_sub_of_add_eq (Nat.le_antisymm hlast (Nat.le_of_not_lt hnext))).symm

/-- The edge is the node of the next leaf, or is complete. -/
theorem rowLength_edge (n i : Nat) : n / 2 ^ i ≤ rowLength n i ∧ rowLength n i ≤ n / 2 ^ i + 1 := by
  have hpos := Nat.two_pow_pos i
  constructor
  · refine Nat.le_of_not_lt fun hlt => ?_
    have hin : rowLength n i * 2 ^ i < n := by
      have := Nat.mul_le_of_le_div _ _ _ (Nat.succ_le_of_lt hlt)
      rw [Nat.succ_mul] at this
      omega
    exact Nat.lt_irrefl _ (lt_rowLength.2 hin)
  · refine Nat.le_of_not_lt fun hlt => ?_
    have hmul := lt_rowLength.1 hlt
    exact absurd ((Nat.le_div_iff_mul_le hpos).2 hmul.le) (Nat.not_succ_le_self _)

/-- What is stored when the edge is odd is the node just before it. -/
theorem lastLeft_odd {n i : Nat} (h : n / 2 ^ i % 2 = 1) : lastLeft n i = n / 2 ^ i - 1 := by
  have := rowLength_edge n i
  unfold lastLeft
  omega

/-- The node just before an edge is complete. -/
theorem before_edge {n i j : Nat} (h : j < n / 2 ^ i) : (j + 1) * 2 ^ i ≤ n := Nat.mul_le_of_le_div _ _ _ h

/-- The nodes from the `lo`-th to the `hi`-th. -/
def window (f : Nat → α) (lo hi : Nat) : List α := (List.range' lo (hi + 1 - lo)).map f

theorem window_length (f : Nat → α) (lo hi : Nat) : (window f lo hi).length = hi + 1 - lo := by
  rw [window, List.length_map, List.length_range']

theorem window_getElem? {f : Nat → α} {lo hi k : Nat} (hlo : lo ≤ k) (hhi : k ≤ hi) : (window f lo hi)[k - lo]? = some (f k) := by
  rw [window, List.getElem?_map, List.getElem?_range' (by omega), Option.map_some, Nat.one_mul, Nat.add_sub_cancel' hlo]

theorem window_getD {f : Nat → α} {lo hi k : Nat} (hlo : lo ≤ k) (hhi : k ≤ hi) (a : α) :
    (window f lo hi).getD (k - lo) a = f k := by
  rw [List.getD_eq_getElem?_getD, window_getElem? hlo hhi, Option.getD_some]

/-- The leaves of a batch are the window of height zero. -/
theorem window_leaves (l t : List α) (ht : t ≠ []) : window (pad z (l ++ t)) l.length ((l ++ t).length - 1) = t := by
  have hpos := List.length_pos_iff.2 ht
  have hcount : (l ++ t).length - 1 + 1 - l.length = t.length := by
    rw [List.length_append]
    omega
  rw [window, hcount]
  refine List.ext_getElem? fun j => ?_
  rw [List.getElem?_map]
  by_cases hj : j < t.length
  · rw [List.getElem?_range' hj, Option.map_some, Nat.one_mul, pad, List.getD_eq_getElem?_getD,
      List.getElem?_append_right (Nat.le_add_right _ _), Nat.add_sub_cancel_left, List.getElem?_eq_getElem hj, Option.getD_some]
  · rw [List.getElem?_eq_none (by rw [List.length_range']; omega), Option.map_none, List.getElem?_eq_none (by omega)]

section Append

variable {l t : List α} {i : Nat}

/-- **The stored node stands in** for the one just before an odd edge. -/
theorem nodesAt_stored (h : l.length / 2 ^ i % 2 = 1) :
    nodesAt node (pad z (l ++ t)) i (l.length / 2 ^ i - 1) = nodesAt node (pad z l) i (lastLeft l.length i) := by
  have hpos : 0 < l.length / 2 ^ i := Nat.pos_of_ne_zero fun h0 => by simp [h0] at h
  rw [lastLeft_odd h]
  exact nodesAt_append (before_edge (Nat.pred_lt hpos.ne'))

/-- Before the window nothing changes. -/
theorem nodesAt_before {j : Nat} (h : j < l.length / 2 ^ i) :
    nodesAt node (pad z (l ++ t)) i j = nodesAt node (pad z l) i j := nodesAt_append (before_edge h)

/-- Behind the window everything is empty. -/
theorem nodesAt_behind {j : Nat} (ht : t ≠ []) (h : ((l ++ t).length - 1) / 2 ^ i < j) :
    nodesAt node (pad z (l ++ t)) i j = zeros node z i := by
  have hpos : 0 < (l ++ t).length := List.length_pos_iff.2 (List.append_ne_nil_of_right_ne_nil l ht)
  have := rowLength_pred (i := i) hpos
  exact nodesAt_past (by omega)

/-- Behind the window everything was empty. -/
theorem nodesAt_behind_old {j : Nat} (ht : t ≠ []) (h : ((l ++ t).length - 1) / 2 ^ i < j) :
    nodesAt node (pad z l) i j = zeros node z i := by
  have hpos : 0 < (l ++ t).length := List.length_pos_iff.2 (List.append_ne_nil_of_right_ne_nil l ht)
  have hlast := rowLength_pred (i := i) hpos
  have hmono := rowLength_mono (show l.length ≤ (l ++ t).length by simp) i
  exact nodesAt_past (by omega)

/-- The window is not empty. -/
theorem window_nonempty (l t : List α) (ht : t ≠ []) (i : Nat) : l.length / 2 ^ i ≤ ((l ++ t).length - 1) / 2 ^ i := by
  have hpos := List.length_pos_iff.2 ht
  refine Nat.div_le_div_right ?_
  rw [List.length_append]
  omega

/-- A pair behind an even number of leaves is one node of the level above. -/
theorem level_pad_pair (heven : l.length % 2 = 0) (a b : α) :
    level node (pad z (l ++ [a, b])) = Function.update (level node (pad z l)) (l.length / 2) (node a b) := by
  have hsplit : l ++ [a, b] = (l ++ [a]) ++ [b] := by rw [List.append_assoc]; rfl
  have hlen : (l ++ [a]).length = l.length + 1 := by simp
  funext k
  rw [hsplit, level, pad_append, pad_append, hlen]
  by_cases hk : k = l.length / 2
  · obtain rfl := hk
    have hleft : 2 * (l.length / 2) = l.length := by omega
    rw [Function.update_self, hleft, Function.update_self, Function.update_of_ne (Nat.ne_of_lt (Nat.lt_succ_self _)),
      Function.update_self]
  · rw [Function.update_of_ne hk, Function.update_of_ne (by omega), Function.update_of_ne (by omega),
      Function.update_of_ne (by omega), Function.update_of_ne (by omega)]
    rfl

/-- Empty leaves behind the others are there already. -/
theorem pad_append_empty (l : List α) (z : α) : pad z (l ++ [z, z]) = pad z l := by
  have hsplit : l ++ [z, z] = (l ++ [z]) ++ [z] := by rw [List.append_assoc]; rfl
  have hone : ∀ l : List α, pad z (l ++ [z]) = pad z l := fun l => by
    rw [pad_append]
    exact Function.update_eq_self_iff.2 (pad_of_le z (le_refl _)).symm
  rw [hsplit, hone, hone]

end Append

end Tacit.Merkle
