import Tacit.Lib.Merkle
/-!
# Append-only Merkle trees kept by their frontier

An append-only tree of fixed depth stores one completed left subtree for each level (`filled`). Appending at
index `k` climbs from the new leaf: at a level where `k` has a zero bit the current node is a left child, is
stored, and pairs with the empty subtree of that height; where the bit is one it pairs with the stored left
sibling. `Filled` says what the stored subtrees are after `k` leaves, `climb_root` that the climb ends at the
root of the whole tree and `climb_filled` that it stores what the next append needs.
-/
namespace Tacit.Merkle

variable {α : Type} (node : α → α → α)

/-- The append loop on `n` levels from level `i` up: the root and the stored subtrees. -/
def climb (zeros : Nat → α) : Nat → Nat → Nat → α → (Nat → α) → α × (Nat → α)
  | 0, _, _, h, filled => (h, filled)
  | n + 1, i, idx, h, filled =>
    if idx % 2 = 0 then climb zeros n (i + 1) (idx / 2) (node h (zeros i)) (Function.update filled i h)
    else climb zeros n (i + 1) (idx / 2) (node (filled i) h) filled

/-- The siblings of slot `idx` as the frontier gives them, `n` levels from level `i` up. -/
def frontierPath (zeros filled : Nat → α) : Nat → Nat → Nat → List α
  | 0, _, _ => []
  | n + 1, i, idx => (if idx % 2 = 0 then zeros i else filled i) :: frontierPath zeros filled n (i + 1) (idx / 2)

/-- The nodes of height `i` over the leaves `f`. -/
def nodesAt (f : Nat → α) : Nat → Nat → α
  | 0 => f
  | i + 1 => level node (nodesAt f i)

variable {node}

theorem treeRoot_nodesAt (f : Nat → α) : ∀ (d i : Nat), treeRoot node d (nodesAt node f i) = nodesAt node f (i + d) 0
  | 0, _ => rfl
  | d + 1, i => by
    have h := treeRoot_nodesAt f d (i + 1)
    rw [show i + 1 + d = i + (d + 1) by omega] at h
    exact h

/-- The node of height `i` above a slot is made of its two children. -/
theorem nodesAt_succ_div (f : Nat → α) (i k : Nat) :
    nodesAt node f (i + 1) (k / 2) =
      if k % 2 = 0 then node (nodesAt node f i k) (nodesAt node f i (k + 1))
      else node (nodesAt node f i (k - 1)) (nodesAt node f i k) := by
  show level node (nodesAt node f i) (k / 2) = _
  unfold level
  by_cases h : k % 2 = 0
  · rw [if_pos h, show 2 * (k / 2) = k by omega]
  · rw [if_neg h, show 2 * (k / 2) = k - 1 by omega, show k - 1 + 1 = k by omega]

theorem div_pow_succ (j i : Nat) : j / 2 ^ (i + 1) = j / 2 ^ i / 2 := by
  rw [pow_succ, Nat.div_div_eq_div_mul]

/-- A node is a function of the leaves under it. -/
theorem nodesAt_congr {f g : Nat → α} : ∀ (i : Nat) {m : Nat}, (∀ j, j / 2 ^ i = m → f j = g j) →
    nodesAt node f i m = nodesAt node g i m
  | 0, m, h => h m (by simp)
  | i + 1, m, h => by
    have hchild : ∀ c, c / 2 = m → nodesAt node f i c = nodesAt node g i c := by
      intro c hc
      refine nodesAt_congr i fun j hj => h j ?_
      rw [div_pow_succ, hj, hc]
    show level node _ m = level node _ m
    unfold level
    rw [hchild (2 * m) (by omega), hchild (2 * m + 1) (by omega)]

/-- A node over empty leaves only. -/
theorem nodesAt_empty {f : Nat → α} {z : α} : ∀ (i : Nat) {m : Nat}, (∀ j, j / 2 ^ i = m → f j = z) →
    nodesAt node f i m = zeros node z i
  | 0, m, h => h m (by simp)
  | i + 1, m, h => by
    have hchild : ∀ c, c / 2 = m → nodesAt node f i c = zeros node z i := by
      intro c hc
      refine nodesAt_empty i fun j hj => h j ?_
      rw [div_pow_succ, hj, hc]
    show level node _ m = _
    unfold level
    rw [hchild (2 * m) (by omega), hchild (2 * m + 1) (by omega)]
    rfl

/-- The stored subtrees of a tree of depth `d` after `k` leaves `f`: at every level where `k` has a one bit,
the complete subtree on the left of the next slot. -/
def Filled (node : α → α → α) (d : Nat) (f : Nat → α) (k : Nat) (filled : Nat → α) : Prop :=
  ∀ i < d, k / 2 ^ i % 2 = 1 → filled i = nodesAt node f i (k / 2 ^ i - 1)

theorem filled_zero (d : Nat) (f filled : Nat → α) : Filled node d f 0 filled := by
  intro i _ h
  simp at h

section Append

variable {z : α} {l : List α} {filled : Nat → α} {d : Nat}

/-- The empty subtrees lie on the right of the last leaf. -/
theorem nodesAt_pad_gt {l : List α} {i m : Nat} (hm : ∀ j < l.length, j / 2 ^ i < m) :
    nodesAt node (pad z l) i m = zeros node z i := by
  refine nodesAt_empty i fun j hj => pad_of_le z ?_
  by_contra hlt
  have := hm j (by omega)
  omega

/-- A subtree on the left of the next slot does not change by an append. -/
theorem nodesAt_pad_append (x : α) {i m : Nat} (hm : m < l.length / 2 ^ i) :
    nodesAt node (pad z (l ++ [x])) i m = nodesAt node (pad z l) i m := by
  refine nodesAt_congr i fun j hj => ?_
  have hne : j ≠ l.length := by
    rintro rfl
    omega
  rw [pad_append, Function.update_of_ne hne]

/-- The next slot's sibling at level `i` is the empty subtree or the stored one. -/
theorem nodesAt_sibling (hf : Filled node d (pad z l) l.length filled) {i : Nat} (hi : i < d) :
    nodesAt node (pad z l) i (sibling (l.length / 2 ^ i)) =
      if l.length / 2 ^ i % 2 = 0 then zeros node z i else filled i := by
  unfold sibling
  by_cases h : l.length / 2 ^ i % 2 = 0
  · rw [if_pos h, if_pos h]
    refine nodesAt_pad_gt fun j hj => ?_
    exact Nat.lt_succ_of_le (Nat.div_le_div_right (Nat.le_of_lt hj))
  · rw [if_neg h, if_neg h, hf i hi (by omega)]

/-- The frontier's path is the path of the next slot. -/
theorem frontierPath_eq (hf : Filled node d (pad z l) l.length filled) : ∀ (n i : Nat), i + n ≤ d →
    frontierPath (zeros node z) filled n i (l.length / 2 ^ i) =
      pathOf node n (nodesAt node (pad z l) i) (l.length / 2 ^ i)
  | 0, _, _ => rfl
  | n + 1, i, hd => by
    have ih := frontierPath_eq hf n (i + 1) (by omega)
    rw [div_pow_succ] at ih
    rw [frontierPath, pathOf, nodesAt_sibling hf (by omega), ih]
    rfl

/-- The climb folds its leaf along the frontier's path. -/
theorem climb_eq_rootFrom : ∀ (n i idx : Nat) (h : α) (filled : Nat → α),
    (climb node (zeros node z) n i idx h filled).1 = rootFrom node h idx (frontierPath (zeros node z) filled n i idx)
  | 0, _, _, _, _ => rfl
  | n + 1, i, idx, h, filled => by
    have hpath : ∀ (m k : Nat), i < k → ∀ idx, frontierPath (zeros node z) (Function.update filled i h) m k idx =
        frontierPath (zeros node z) filled m k idx := by
      intro m
      induction m with
      | zero => intro k _ idx; rfl
      | succ m ih =>
        intro k hk idx
        rw [frontierPath, frontierPath, ih (k + 1) (by omega), Function.update_of_ne (by omega)]
    rw [climb, frontierPath, rootFrom]
    by_cases hi : idx % 2 = 0
    · rw [if_pos hi, if_pos hi, if_pos hi, climb_eq_rootFrom n, hpath n (i + 1) (by omega)]
    · rw [if_neg hi, if_neg hi, if_neg hi, climb_eq_rootFrom n]

/-- **The root after an append** is the root of the tree with the leaf in the next slot. -/
theorem climb_root (hf : Filled node d (pad z l) l.length filled) (hd : l.length < 2 ^ d) (x : α) :
    (climb node (zeros node z) d 0 l.length x filled).1 = treeRoot node d (pad z (l ++ [x])) := by
  have hp := frontierPath_eq hf d 0 (by omega)
  rw [pow_zero, Nat.div_one] at hp
  rw [climb_eq_rootFrom, hp, pad_append]
  exact rootFrom_write hd x

theorem pred_lt_of_odd {q : Nat} (h : q % 2 = 1) : q - 1 < q := by omega

/-- The node above the new leaf, one level up. -/
theorem nodesAt_climb (hf : Filled node d (pad z l) l.length filled) (x : α) {i : Nat} (hi : i < d) :
    nodesAt node (pad z (l ++ [x])) (i + 1) (l.length / 2 ^ (i + 1)) =
      if l.length / 2 ^ i % 2 = 0 then node (nodesAt node (pad z (l ++ [x])) i (l.length / 2 ^ i)) (zeros node z i)
      else node (filled i) (nodesAt node (pad z (l ++ [x])) i (l.length / 2 ^ i)) := by
  rw [div_pow_succ, nodesAt_succ_div]
  by_cases h : l.length / 2 ^ i % 2 = 0
  · rw [if_pos h, if_pos h, nodesAt_pad_gt (m := l.length / 2 ^ i + 1)]
    intro j hj
    rw [List.length_append, List.length_singleton] at hj
    exact Nat.lt_succ_of_le (Nat.div_le_div_right (by omega))
  · have hodd : l.length / 2 ^ i % 2 = 1 := by omega
    rw [if_neg h, if_neg h, hf i hi hodd, nodesAt_pad_append x (pred_lt_of_odd hodd)]

/-- What the climb stores: at each level it passes where the index has a zero bit, the node above the leaf. -/
theorem climb_stores (hf : Filled node d (pad z l) l.length filled) (x : α) : ∀ (n i : Nat) {filled' : Nat → α},
    i + n ≤ d → (∀ j, i ≤ j → filled' j = filled j) → ∀ j,
    (climb node (zeros node z) n i (l.length / 2 ^ i) (nodesAt node (pad z (l ++ [x])) i (l.length / 2 ^ i)) filled').2 j =
      if i ≤ j ∧ j < i + n ∧ l.length / 2 ^ j % 2 = 0 then nodesAt node (pad z (l ++ [x])) j (l.length / 2 ^ j)
      else filled' j
  | 0, i, filled', _, _, j => by
    rw [if_neg (by omega)]
    rfl
  | n + 1, i, filled', hd, hsame, j => by
    have hnext := nodesAt_climb hf x (i := i) (by omega)
    rw [climb]
    by_cases h : l.length / 2 ^ i % 2 = 0
    · rw [if_pos h] at hnext ⊢
      rw [← hnext, ← div_pow_succ, climb_stores hf x n (i + 1) (by omega) (fun j hj => by
        rw [Function.update_of_ne (by omega), hsame j (by omega)])]
      by_cases hj : j = i
      · subst hj
        rw [if_neg (by omega), if_pos ⟨le_refl _, by omega, h⟩, Function.update_self]
      · rw [Function.update_of_ne hj]
        exact if_congr (by omega) rfl rfl
    · rw [if_neg h] at hnext ⊢
      rw [hsame i (le_refl i), ← hnext, ← div_pow_succ, climb_stores hf x n (i + 1) (by omega) (fun j hj => hsame j (by omega))]
      by_cases hj : j = i
      · subst hj
        rw [if_neg (by omega), if_neg (by tauto)]
      · exact if_congr (by omega) rfl rfl

/-- **An append keeps the stored subtrees.** -/
theorem climb_filled (hf : Filled node d (pad z l) l.length filled) (x : α) :
    Filled node d (pad z (l ++ [x])) (l ++ [x]).length (climb node (zeros node z) d 0 l.length x filled).2 := by
  have hstores := @climb_stores _ node z l filled d hf x d 0 filled (by omega) (fun _ _ => rfl)
  have hleaf : nodesAt node (pad z (l ++ [x])) 0 l.length = x := by
    show pad z (l ++ [x]) l.length = x
    rw [pad_append, Function.update_self]
  rw [pow_zero, Nat.div_one, hleaf] at hstores
  intro i hid hi
  rw [List.length_append, List.length_singleton] at hi ⊢
  rw [hstores i]
  -- the bit at level `i` was one before, or the carry has just reached it
  have hstep := Nat.succ_div (a := l.length) (b := 2 ^ i)
  by_cases hdvd : 2 ^ i ∣ l.length + 1
  · rw [if_pos hdvd] at hstep
    rw [hstep] at hi ⊢
    rw [if_pos ⟨Nat.zero_le _, by omega, by omega⟩, Nat.add_sub_cancel]
  · rw [if_neg hdvd] at hstep
    rw [hstep, Nat.add_zero] at hi ⊢
    rw [if_neg (by omega), hf i hid hi, nodesAt_pad_append x (pred_lt_of_odd hi)]

end Append

end Tacit.Merkle
