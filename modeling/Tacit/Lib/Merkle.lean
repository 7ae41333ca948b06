import Mathlib.Logic.Function.Basic
import Mathlib.Algebra.Group.Nat.Even
import Mathlib.Tactic.Common
/-!
# Fixed-depth binary Merkle trees

A tree of depth `d` is its leaf function `Nat → α`, of which only the first `2 ^ d` slots count.
`rootFrom` is what a verifier computes from a leaf, an index and a sibling path; `treeRoot` is the
root of the whole tree. With an injective node hash an accepted path pins the leaf and every
sibling (`rootFrom_binding`), and re-folding another leaf along the same path gives the root of the
tree with that one slot written (`rootFrom_write`).
-/
namespace Tacit.Merkle

variable {α : Type*} (node : α → α → α)

/-- Fold a leaf up a sibling path: at each level the low bit of the index picks the side. -/
def rootFrom : α → Nat → List α → α
  | h, _, [] => h
  | h, i, sib :: path => rootFrom (if i % 2 = 0 then node h sib else node sib h) (i / 2) path

/-- The level above the leaves `f`. -/
def level (f : Nat → α) : Nat → α := fun k => node (f (2 * k)) (f (2 * k + 1))

/-- Root of the depth-`d` tree over `f`. -/
def treeRoot : Nat → (Nat → α) → α
  | 0, f => f 0
  | d + 1, f => treeRoot d (level node f)

def sibling (i : Nat) : Nat := if i % 2 = 0 then i + 1 else i - 1

/-- The authentication path of slot `i` in the depth-`d` tree over `f`. -/
def pathOf : Nat → (Nat → α) → Nat → List α
  | 0, _, _ => []
  | d + 1, f, i => f (sibling i) :: pathOf d (level node f) (i / 2)

variable {node}

@[simp] theorem pathOf_length : ∀ (d : Nat) (f : Nat → α) (i : Nat), (pathOf node d f i).length = d
  | 0, _, _ => rfl
  | d + 1, f, i => by simp [pathOf, pathOf_length d]

theorem level_pair (f : Nat → α) (i : Nat) :
    (if i % 2 = 0 then node (f i) (f (sibling i)) else node (f (sibling i)) (f i)) = level node f (i / 2) := by
  unfold level sibling
  by_cases h : i % 2 = 0
  · rw [if_pos h, if_pos h, show 2 * (i / 2) = i by omega]
  · rw [if_neg h, if_neg h, show 2 * (i / 2) = i - 1 by omega, show i - 1 + 1 = i by omega]

/-- The honest path folds back to the root. -/
theorem rootFrom_pathOf : ∀ (d : Nat) (f : Nat → α) (i : Nat), i < 2 ^ d →
    rootFrom node (f i) i (pathOf node d f i) = treeRoot node d f
  | 0, f, i, h => by
    have : i = 0 := by simpa using h
    subst this; rfl
  | d + 1, f, i, h => by
    have h2 : i / 2 < 2 ^ d := by rw [pow_succ] at h; omega
    simp only [pathOf, rootFrom, treeRoot, level_pair]
    exact rootFrom_pathOf d (level node f) (i / 2) h2

/-- Only the low `path.length` bits of an index are read. -/
theorem rootFrom_mod : ∀ (path : List α) (h : α) (i : Nat),
    rootFrom node h i path = rootFrom node h (i % 2 ^ path.length) path
  | [], _, _ => rfl
  | sib :: path, h, i => by
    have h1 : i % 2 ^ (path.length + 1) % 2 = i % 2 := by
      rw [pow_succ', Nat.mod_mul_right_mod]
    have h2 : i % 2 ^ (path.length + 1) / 2 = i / 2 % 2 ^ path.length := by
      rw [pow_succ', Nat.mod_mul_right_div_self]
    simp only [rootFrom, List.length_cons, h1, h2]
    exact rootFrom_mod path _ (i / 2)

/-- A value that no node takes is no root of another. -/
theorem rootFrom_ne {z : α} (hz : ∀ a b, node a b ≠ z) : ∀ (path : List α) {h : α} (i : Nat), h ≠ z → rootFrom node h i path ≠ z
  | [], _, _, hne => hne
  | sib :: path, h, i, _ => by
    refine rootFrom_ne hz path (i / 2) ?_
    by_cases hi : i % 2 = 0
    · rw [if_pos hi]
      exact hz h sib
    · rw [if_neg hi]
      exact hz sib h

/-- **Position binding.** With an injective node hash, a path of the tree's depth that folds to its
root carries the leaf of its own slot and exactly the siblings of that slot. -/
theorem rootFrom_binding (hn : Function.Injective2 node) : ∀ (d : Nat) (f : Nat → α) (h : α) (i : Nat)
    (path : List α), path.length = d → rootFrom node h i path = treeRoot node d f →
    h = f (i % 2 ^ d) ∧ path = pathOf node d f (i % 2 ^ d)
  | 0, f, h, i, path, hl, he => by
    obtain rfl : path = [] := List.length_eq_zero_iff.1 hl
    simp only [pow_zero, Nat.mod_one]
    exact ⟨he, rfl⟩
  | d + 1, f, h, i, path, hl, he => by
    match path, hl with
    | sib :: path, hl =>
      have hl' : path.length = d := by simpa using hl
      obtain ⟨hh, hp⟩ := rootFrom_binding hn d (level node f) _ (i / 2) path hl' he
      have h1 : i % 2 ^ (d + 1) % 2 = i % 2 := by rw [pow_succ', Nat.mod_mul_right_mod]
      have h2 : i % 2 ^ (d + 1) / 2 = i / 2 % 2 ^ d := by rw [pow_succ', Nat.mod_mul_right_div_self]
      generalize i % 2 ^ (d + 1) = j at h1 h2
      rw [← h2, ← level_pair, ← h1] at hh
      rw [pathOf, h2, ← hp]
      by_cases hb : j % 2 = 0
      · rw [if_pos hb, if_pos hb] at hh
        exact ⟨(hn hh).1, by rw [(hn hh).2]⟩
      · rw [if_neg hb, if_neg hb] at hh
        exact ⟨(hn hh).2, by rw [(hn hh).1]⟩

/-- Two paths of one length that fold at one index to one root are one path. -/
theorem rootFrom_inj (hn : Function.Injective2 node) : ∀ {p q : List α} {h h' : α} {i : Nat}, p.length = q.length →
    rootFrom node h i p = rootFrom node h' i q → h = h' ∧ p = q
  | [], [], _, _, _, _, he => ⟨he, rfl⟩
  | a :: p, b :: q, h, h', i, hl, he => by
    obtain ⟨hh, rfl⟩ := rootFrom_inj hn (p := p) (q := q) (by simpa using hl) he
    by_cases hb : i % 2 = 0
    · rw [if_pos hb, if_pos hb] at hh
      exact ⟨(hn hh).1, by rw [(hn hh).2]⟩
    · rw [if_neg hb, if_neg hb] at hh
      exact ⟨(hn hh).2, by rw [(hn hh).1]⟩

theorem level_congr {f g : Nat → α} {n : Nat} (h : ∀ i < 2 * n, f i = g i) :
    ∀ k < n, level node f k = level node g k := by
  intro k hk
  simp only [level]
  rw [h (2 * k) (by omega), h (2 * k + 1) (by omega)]

theorem treeRoot_congr : ∀ (d : Nat) {f g : Nat → α}, (∀ i < 2 ^ d, f i = g i) →
    treeRoot node d f = treeRoot node d g
  | 0, _, _, h => h 0 (by simp)
  | d + 1, f, g, h => treeRoot_congr d (level_congr (fun i hi => h i (by rw [pow_succ']; exact hi)))

/-- The root determines every slot. -/
theorem treeRoot_injective (hn : Function.Injective2 node) {d : Nat} {f g : Nat → α}
    (h : treeRoot node d f = treeRoot node d g) {i : Nat} (hi : i < 2 ^ d) : f i = g i := by
  have hb := rootFrom_binding hn d g (f i) i (pathOf node d f i) (pathOf_length d f i)
    ((rootFrom_pathOf d f i hi).trans h)
  rw [Nat.mod_eq_of_lt hi] at hb
  exact hb.1

theorem sibling_ne (i : Nat) : sibling i ≠ i := by unfold sibling; split <;> omega

theorem level_update (f : Nat → α) (i : Nat) (x : α) :
    level node (Function.update f i x) =
      Function.update (level node f) (i / 2) (level node (Function.update f i x) (i / 2)) := by
  funext k
  by_cases hk : k = i / 2
  · rw [hk, Function.update_self]
  · rw [Function.update_of_ne hk]
    simp only [level]
    rw [Function.update_of_ne (by omega), Function.update_of_ne (by omega)]

/-- A slot's path does not read the slot itself. -/
theorem pathOf_update : ∀ (d : Nat) (f : Nat → α) (i : Nat) (x : α),
    pathOf node d (Function.update f i x) i = pathOf node d f i
  | 0, _, _, _ => rfl
  | d + 1, f, i, x => by
    rw [pathOf, pathOf, Function.update_of_ne (sibling_ne i), level_update, pathOf_update d]

/-- **Write.** Re-folding `x` along slot `i`'s own path gives the root of the tree with `x` at `i`. -/
theorem rootFrom_write {d : Nat} {f : Nat → α} {i : Nat} (hi : i < 2 ^ d) (x : α) :
    rootFrom node x i (pathOf node d f i) = treeRoot node d (Function.update f i x) := by
  have h := @rootFrom_pathOf _ node d (Function.update f i x) i hi
  rwa [pathOf_update, Function.update_self] at h

/-! ## Trees built from a list of leaves -/

/-- Hash of the empty subtree of each height over the empty leaf `z`. -/
def zeros (node : α → α → α) (z : α) : Nat → α
  | 0 => z
  | i + 1 => node (zeros node z i) (zeros node z i)

/-- The leaves of a list, then the filler `z` in every later slot. -/
def pad (z : α) (l : List α) : Nat → α := fun i => l.getD i z

/-- One round of a list build: pair up, a lone last entry pairs with the round's empty subtree. -/
def levelUp (node : α → α → α) (z : α) : List α → List α
  | [] => []
  | [l] => [node l z]
  | l :: r :: t => node l r :: levelUp node z t

theorem level_pad (z : α) : ∀ (l : List α), level node (pad z l) = pad (node z z) (levelUp node z l)
  | [] => by funext k; simp [level, pad, levelUp]
  | [a] => by
    funext k
    cases k with
    | zero => simp [level, pad, levelUp]
    | succ k =>
      have h1 : 2 * (k + 1) = 2 * k + 1 + 1 := by omega
      simp [level, pad, levelUp, h1]
  | a :: b :: t => by
    have ih := level_pad z t
    funext k
    cases k with
    | zero => simp [level, pad, levelUp]
    | succ k =>
      have h1 : 2 * (k + 1) = 2 * k + 1 + 1 := by omega
      have h2 : 2 * (k + 1) + 1 = 2 * k + 1 + 1 + 1 := by omega
      have := congrFun ih k
      simpa [level, pad, levelUp, h1, h2] using this

/-- `n` rounds of a list build, the first of them with the empty subtree of height `i`. -/
def levels (node : α → α → α) (z : α) : Nat → Nat → List α → List α
  | 0, _, l => l
  | n + 1, i, l => levels node z n (i + 1) (levelUp node (zeros node z i) l)

/-- Building from a list gives the root of the tree with empty leaves after the list. -/
theorem levels_root (z : α) : ∀ (n i : Nat) (l : List α),
    treeRoot node n (pad (zeros node z i) l) = (levels node z n i l).getD 0 (zeros node z (i + n))
  | 0, i, l => by simp [treeRoot, levels, pad]
  | n + 1, i, l => by
    have hz : node (zeros node z i) (zeros node z i) = zeros node z (i + 1) := rfl
    rw [treeRoot, level_pad, hz, levels_root z n (i + 1), levels, show i + 1 + n = i + (n + 1) by omega]

theorem levelUp_ne_nil (z : α) : ∀ (l : List α), l ≠ [] → levelUp node z l ≠ []
  | [], h => absurd rfl h
  | [_], _ => by simp [levelUp]
  | _ :: _ :: _, _ => by simp [levelUp]

theorem levels_ne_nil (z : α) : ∀ (n i : Nat) (l : List α), l ≠ [] → levels node z n i l ≠ []
  | 0, _, _, h => h
  | n + 1, i, _, h => levels_ne_nil z n (i + 1) _ (levelUp_ne_nil _ _ h)

theorem levels_nil (z : α) : ∀ (n i : Nat), levels node z n i [] = []
  | 0, _ => rfl
  | n + 1, i => levels_nil z n (i + 1)

theorem pad_append (z : α) (l : List α) (x : α) :
    pad z (l ++ [x]) = Function.update (pad z l) l.length x := by
  funext i
  by_cases h : i = l.length
  · subst h; simp [pad]
  · rw [Function.update_of_ne h]
    simp only [pad, List.getD_eq_getElem?_getD]
    rcases Nat.lt_or_ge i l.length with hl | hl
    · rw [List.getElem?_append_left hl]
    · rw [List.getElem?_eq_none hl, List.getElem?_eq_none (by simp; omega)]

theorem pad_set (z : α) (l : List α) {i : Nat} (hi : i < l.length) (x : α) :
    pad z (l.set i x) = Function.update (pad z l) i x := by
  funext j
  by_cases h : j = i
  · subst h; simp [pad, hi]
  · rw [Function.update_of_ne h]
    simp [pad, Ne.symm h]

theorem pad_of_le (z : α) {l : List α} {i : Nat} (hi : l.length ≤ i) : pad z l i = z := by
  simp [pad, hi]

theorem pad_of_lt (z : α) {l : List α} {i : Nat} (hi : i < l.length) : pad z l i = l[i] := by
  simp [pad, hi]

/-- Lists that never use the filler are determined by their padding. -/
theorem pad_inj {z : α} {l l' : List α} (hz : z ∉ l) (hz' : z ∉ l') {n : Nat} (hl : l.length ≤ n) (hl' : l'.length ≤ n)
    (h : ∀ i < n, pad z l i = pad z l' i) : l = l' := by
  have hle : ∀ {l l' : List α}, z ∉ l' → l'.length ≤ n → (∀ i < n, pad z l i = pad z l' i) → l'.length ≤ l.length := by
    intro l l' hz' hl' h
    by_contra hlt
    have hi : l.length < l'.length := by omega
    have heq := h l.length (by omega)
    rw [pad_of_le z (le_refl _), pad_of_lt z hi] at heq
    exact hz' (heq ▸ List.getElem_mem hi)
  have hlen : l.length = l'.length := le_antisymm (hle hz hl fun i hi => (h i hi).symm) (hle hz' hl' h)
  refine List.ext_getElem hlen fun i hi hi' => ?_
  have heq := h i (by omega)
  rwa [pad_of_lt z hi, pad_of_lt z hi'] at heq

/-- The root of an empty tree. -/
theorem treeRoot_pad_nil (z : α) (d : Nat) : treeRoot node d (pad z []) = zeros node z d := by
  have h : treeRoot node d (pad (zeros node z 0) []) = _ := levels_root z d 0 []
  rwa [levels_nil, List.getD_nil, Nat.zero_add] at h

end Tacit.Merkle
