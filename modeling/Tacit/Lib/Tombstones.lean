import Mathlib.Data.List.ReduceOption
import Tacit.Lib.LinkedTree
/-!
# Linked trees with removal

The slots of a tree hold a link each or are empty. A key is removed by rewiring the link before it and emptying
its own slot; the slot is not used again, so the tree stays a log of inserts with holes. `Chained` says that the
links that are left form a sorted linked list with its sentinel in the first slot. Against the root of a chained
list every accepted insert and remove is the operation on the list (`insert_root`, `Removes.root_eq`),
whatever the witnesses; and the operation always has an accepted witness.
-/
namespace Tacit.Tombstones

open Merkle SortedLinks LinkedTree

variable {α κ ν : Type*}

/-- The links in the slots `s`, in order. -/
def live (s : List (Option (Link κ ν))) : List (Link κ ν) := s.reduceOption

theorem mem_live {s : List (Option (Link κ ν))} {p : Link κ ν} : p ∈ live s ↔ ∃ i : Nat, s[i]? = some (some p) := by
  rw [live, List.reduceOption_mem_iff, List.mem_iff_getElem?]

/-- A slot cuts the list in two. -/
theorem exists_cut {β : Type*} {s : List β} {i : Nat} {b : β} (h : s[i]? = some b) :
    ∃ s₁ s₂, s = s₁ ++ b :: s₂ ∧ s₁.length = i := by
  obtain ⟨hi, rfl⟩ := List.getElem?_eq_some_iff.1 h
  refine ⟨s.take i, s.drop (i + 1), ?_, by simp [hi.le]⟩
  rw [List.getElem_cons_drop, List.take_append_drop]

theorem live_append (s t : List (Option (Link κ ν))) : live (s ++ t) = live s ++ live t := by
  simp [live, List.reduceOption_append]

@[simp] theorem live_cons_some (p : Link κ ν) (s : List (Option (Link κ ν))) : live (some p :: s) = p :: live s := rfl

@[simp] theorem live_cons_none (s : List (Option (Link κ ν))) : live (none :: s) = live s := rfl

@[simp] theorem live_nil : live ([] : List (Option (Link κ ν))) = [] := rfl

@[simp] theorem set_cut {β : Type*} (s₁ s₂ : List β) (b c : β) : (s₁ ++ b :: s₂).set s₁.length c = s₁ ++ c :: s₂ := by
  simp

/-- Rewire the link in slot `i` to `x` and append `x` with the displaced successor. -/
def insertSlot (s : List (Option (Link κ ν))) (i : Nat) (p : Link κ ν) (x : κ) (v : ν) : List (Option (Link κ ν)) :=
  s.set i (some { p with next := x }) ++ [some ⟨x, p.next, v⟩]

/-- Rewire the link in slot `j` to `next` and empty slot `i`. -/
def removeSlot (s : List (Option (Link κ ν))) (j : Nat) (p : Link κ ν) (i : Nat) (next : κ) :
    List (Option (Link κ ν)) :=
  (s.set j (some { p with next := next })).set i none

section Rewire

variable {s : List (Option (Link κ ν))} {i : Nat} {p : Link κ ν}

/-- The links after a rewire, as a list. -/
theorem live_rewire (hi : s[i]? = some (some p)) (q : Link κ ν) :
    ∃ j, (live s)[j]? = some p ∧ live (s.set i (some q)) = (live s).set j q := by
  obtain ⟨s₁, s₂, rfl, rfl⟩ := exists_cut hi
  refine ⟨(live s₁).length, ?_, ?_⟩
  · simp [live_append]
  · rw [set_cut, live_append, live_append, live_cons_some, live_cons_some, set_cut]

theorem keys_rewire (hi : s[i]? = some (some p)) (x : κ) :
    keys (live (s.set i (some { p with next := x }))) = keys (live s) := by
  obtain ⟨s₁, s₂, rfl, rfl⟩ := exists_cut hi
  simp [live_append, keys]

theorem live_insertSlot (hi : s[i]? = some (some p)) (x : κ) (v : ν) :
    ∃ j, (live s)[j]? = some p ∧ live (insertSlot s i p x v) = insertAt (live s) j p x v := by
  obtain ⟨j, hj, he⟩ := live_rewire hi { p with next := x }
  refine ⟨j, hj, ?_⟩
  rw [insertSlot, live_append, he]
  rfl

/-- Emptying a slot takes its key out. -/
theorem keys_clear [DecidableEq κ] (hi : s[i]? = some (some p)) (hn : (keys (live s)).Nodup) :
    keys (live (s.set i none)) = (keys (live s)).erase p.key := by
  obtain ⟨s₁, s₂, rfl, rfl⟩ := exists_cut hi
  have hk : p.key ∉ keys (live s₁) := by
    intro hm
    simp only [live_append, live_cons_some, keys, List.map_append, List.map_cons] at hn
    exact (List.nodup_append.1 hn).2.2 _ hm _ (by simp) rfl
  rw [set_cut, live_append, live_append, live_cons_none, live_cons_some]
  simp only [keys, List.map_append, List.map_cons] at hk ⊢
  rw [List.erase_append_right _ hk, List.erase_cons_head]

end Rewire

/-! ## The slots in a tree -/

/-- What a slot hashes to. -/
def slotLeaf (H : Hashing α κ ν) : Option (Link κ ν) → α
  | none => H.empty
  | some p => H.leaf p

/-- Root of the depth-`d` tree over the slots `s`. -/
def slotRoot (H : Hashing α κ ν) (d : Nat) (s : List (Option (Link κ ν))) : α :=
  treeRoot H.node d (pad H.empty (s.map (slotLeaf H)))

section Tree

variable {H : Hashing α κ ν} {d : Nat} {s : List (Option (Link κ ν))} {i : Nat} {path : List α} {x : α}

/-- An accepted path carries the leaf of its slot. -/
theorem slot_leaf (hH : H.Ideal) (hp : path.length = d) (h : rootFrom H.node x i path = slotRoot H d s) :
    x = pad H.empty (s.map (slotLeaf H)) (i % 2 ^ d) :=
  (rootFrom_binding hH.node_inj d _ _ i path hp h).1

/-- An accepted path of a link's leaf points at the slot of that link. -/
theorem slot_spec (hH : H.Ideal) {p : Link κ ν} (hp : path.length = d)
    (h : rootFrom H.node (H.leaf p) i path = slotRoot H d s) : s[i % 2 ^ d]? = some (some p) := by
  have he := slot_leaf hH hp h
  generalize i % 2 ^ d = j at he
  rcases Nat.lt_or_ge j s.length with hj | hj
  · rw [pad_of_lt _ (by simpa using hj), List.getElem_map] at he
    rw [List.getElem?_eq_getElem hj]
    cases hs : s[j] with
    | none =>
      rw [hs] at he
      exact absurd he (hH.leaf_ne p)
    | some q =>
      rw [hs] at he
      rw [hH.leaf_inj he]
  · rw [pad_of_le _ (by simpa using hj)] at he
    exact absurd he (hH.leaf_ne p)

/-- Folding another leaf along an accepted path writes its slot. -/
theorem slot_write (hH : H.Ideal) (hp : path.length = d) (h : rootFrom H.node x i path = slotRoot H d s)
    (hi : i % 2 ^ d < s.length) (o : Option (Link κ ν)) :
    rootFrom H.node (slotLeaf H o) i path = slotRoot H d (s.set (i % 2 ^ d) o) := by
  have hj : i % 2 ^ d < 2 ^ d := Nat.mod_lt _ (Nat.two_pow_pos d)
  obtain ⟨-, hpath⟩ := rootFrom_binding hH.node_inj d _ _ i path hp h
  rw [rootFrom_mod, hp, hpath, rootFrom_write hj, slotRoot, List.map_set, pad_set _ _ (by simpa using hi)]

/-- Folding a leaf along an accepted path of the first free slot appends it. -/
theorem slot_append (hH : H.Ideal) (hp : path.length = d) (hl : s.length < 2 ^ d)
    (h : rootFrom H.node x s.length path = slotRoot H d s) (o : Option (Link κ ν)) :
    rootFrom H.node (slotLeaf H o) s.length path = slotRoot H d (s ++ [o]) := by
  obtain ⟨-, hpath⟩ := rootFrom_binding hH.node_inj d _ _ _ path hp h
  rw [Nat.mod_eq_of_lt hl] at hpath
  rw [hpath, rootFrom_write hl, slotRoot, List.map_append, List.map_singleton, pad_append, List.length_map]

/-- Every slot of the tree has an accepted path. -/
theorem exists_slot (hi : i < 2 ^ d) :
    ∃ path, path.length = d ∧
      rootFrom H.node (pad H.empty (s.map (slotLeaf H)) i) i path = slotRoot H d s :=
  ⟨pathOf H.node d (pad H.empty (s.map (slotLeaf H))) i, pathOf_length .., rootFrom_pathOf d _ i hi⟩

/-- An empty slot at the end does not show. -/
theorem slotRoot_append_none : slotRoot H d (s ++ [none]) = slotRoot H d s := by
  have hz : pad H.empty (s.map (slotLeaf H)) s.length = H.empty := pad_of_le _ (by simp)
  have hu : Function.update (pad H.empty (s.map (slotLeaf H))) s.length H.empty = pad H.empty (s.map (slotLeaf H)) :=
    Function.update_eq_self_iff.2 hz.symm
  rw [slotRoot, List.map_append, List.map_singleton, pad_append, List.length_map]
  exact congrArg _ hu

theorem exists_slot_of_link {p : Link κ ν} (hi : i < 2 ^ d) (hs : s[i]? = some (some p)) :
    ∃ path, path.length = d ∧ rootFrom H.node (H.leaf p) i path = slotRoot H d s := by
  obtain ⟨hil, he⟩ := List.getElem?_eq_some_iff.1 hs
  obtain ⟨path, hp, h⟩ := exists_slot (H := H) (s := s) hi
  rw [pad_of_lt _ (by simpa using hil), List.getElem_map, he] at h
  exact ⟨path, hp, h⟩

/-- The verifier's checks of a remove of `x` that takes root `r` to root `r'`: a link that points at `x` is in
`r`, `x` itself is in the tree where that link skips it, and `r'` has the slot of `x` emptied. -/
structure Removes (H : Hashing α κ ν) (d : Nat) (r : α) (x next : κ) (v : ν) (i : Nat) (path : List α)
    (pred : κ) (predVal : ν) (j : Nat) (predPath : List α) (r' : α) : Prop where
  predLen : predPath.length = d
  nodeLen : path.length = d
  predIn : rootFrom H.node (H.leaf ⟨pred, x, predVal⟩) j predPath = r
  nodeIn : rootFrom H.node (H.leaf ⟨x, next, v⟩) i path = rootFrom H.node (H.leaf ⟨pred, next, predVal⟩) j predPath
  cleared : rootFrom H.node H.empty i path = r'

/-- The links an accepted remove is about. In a chain without a self-loop they are two links; if `x` may be the
sentinel, the link that points at it may be the sentinel itself. -/
theorem Removes.slots (hH : H.Ideal) {x next pred : κ} {v predVal : ν} {j : Nat} {predPath : List α} {r' : α}
    (hR : Removes H d (slotRoot H d s) x next v i path pred predVal j predPath r') :
    s[j % 2 ^ d]? = some (some ⟨pred, x, predVal⟩) ∧
      (s[i % 2 ^ d]? = some (some ⟨x, next, v⟩) ∨ (i % 2 ^ d = j % 2 ^ d ∧ pred = x ∧ predVal = v)) ∧
      r' = slotRoot H d (removeSlot s (j % 2 ^ d) ⟨pred, x, predVal⟩ (i % 2 ^ d) next) := by
  have hpred := slot_spec hH hR.predLen hR.predIn
  obtain ⟨hjl, -⟩ := List.getElem?_eq_some_iff.1 hpred
  have hmid := slot_write hH hR.predLen hR.predIn hjl (some ⟨pred, next, predVal⟩)
  have hin := hR.nodeIn.trans hmid
  have hnode := slot_spec hH hR.nodeLen hin
  obtain ⟨hil, -⟩ := List.getElem?_eq_some_iff.1 hnode
  have hclear := slot_write hH hR.nodeLen hin hil none
  refine ⟨hpred, ?_, hR.cleared.symm.trans hclear⟩
  rw [List.getElem?_set] at hnode
  split at hnode
  · rename_i hji
    simp only [Option.some.injEq, Link.mk.injEq] at hnode
    exact Or.inr ⟨hji.symm, hnode.1, hnode.2.2⟩
  · exact Or.inl hnode

end Tree

/-! ## Chains -/

variable [LinearOrder κ] [OrderBot κ]

/-- The links in the slots are a sorted linked list, with the sentinel in the first slot. -/
structure Chained (s : List (Option (Link κ ν))) : Prop where
  sentinel : ∃ n v t, s = some ⟨⊥, n, v⟩ :: t
  nodup : (keys (live s)).Nodup
  next : ∀ p ∈ live s, IsNext (keys (live s)) p

section Chained

variable {s : List (Option (Link κ ν))} {i j : Nat} {p q : Link κ ν} {x : κ}

theorem Chained.linked (h : Chained s) : Linked (live s) := by
  obtain ⟨n, v, t, rfl⟩ := h.sentinel
  exact ⟨⟨n, v, live t, rfl⟩, h.nodup, h.next⟩

theorem chained_empty (v : ν) : Chained [some (⟨⊥, ⊥, v⟩ : Link κ ν)] :=
  ⟨⟨⊥, v, [], rfl⟩, (linked_empty v).nodup, (linked_empty v).next⟩

/-- A key has one slot. -/
theorem Chained.slot_unique (h : Chained s) (hi : s[i]? = some (some p)) (hj : s[j]? = some (some q))
    (he : p.key = q.key) : i = j := by
  have hpw : s.Pairwise fun a b => ∀ c, a = some c → ∀ d, b = some d → c.key ≠ d.key := by
    have hn := h.nodup
    rw [keys, List.Nodup, List.pairwise_map, live, List.reduceOption, List.pairwise_filterMap] at hn
    exact hn
  obtain ⟨hil, hi⟩ := List.getElem?_eq_some_iff.1 hi
  obtain ⟨hjl, hj⟩ := List.getElem?_eq_some_iff.1 hj
  rcases lt_trichotomy i j with hij | hij | hij
  · exact absurd he (List.pairwise_iff_getElem.1 hpw i j hil hjl hij p hi q hj)
  · exact hij
  · exact absurd he.symm (List.pairwise_iff_getElem.1 hpw j i hjl hil hij q hj p hi)

/-- The sentinel stays in front under a write that does not empty the first slot. -/
theorem sentinel_set {n : κ} {v : ν} {t : List (Option (Link κ ν))} (hs : s = some ⟨⊥, n, v⟩ :: t)
    (hi : s[i]? = some (some p)) (x : κ) :
    ∃ n' t', s.set i (some { p with next := x }) = some ⟨⊥, n', v⟩ :: t' := by
  subst hs
  cases i with
  | zero =>
    obtain rfl : ⟨⊥, n, v⟩ = p := by simpa using hi
    exact ⟨x, t, rfl⟩
  | succ i => exact ⟨n, t.set i (some { p with next := x }), rfl⟩

/-- Inserting through a straddling link keeps the chain. -/
theorem Chained.insertSlot (h : Chained s) (hi : s[i]? = some (some p)) (hs : Straddles p x) (v : ν) :
    Chained (insertSlot s i p x v) := by
  obtain ⟨k, hk, he⟩ := live_insertSlot hi x v
  have hl := h.linked.insertAt hk hs v
  rw [← he] at hl
  refine ⟨?_, hl.nodup, hl.next⟩
  obtain ⟨n, w, t, hst⟩ := h.sentinel
  obtain ⟨n', t', ht⟩ := sentinel_set hst hi x
  exact ⟨n', w, t' ++ [some ⟨x, p.next, v⟩], by rw [Tombstones.insertSlot, ht]; rfl⟩

/-- A link before the removed one, rewired, points at the next of the keys left. -/
theorem isNext_rewire {ks : List κ} (hn : ks.Nodup) (hp : IsNext ks p) (hq : IsNext ks q) (hpq : p.next = q.key)
    (h0 : q.key ≠ ⊥) : IsNext (ks.erase q.key) { p with next := q.next } := by
  obtain ⟨hlt, hmem, hmin⟩ : p.key < q.key ∧ q.key ∈ ks ∧ ∀ k ∈ ks, p.key < k → q.key ≤ k := by
    rcases hp with ⟨hb, _⟩ | hp
    · exact absurd (hpq.symm.trans hb) h0
    · rwa [hpq] at hp
  rcases hq with ⟨hb, hmax⟩ | ⟨hqn, hqm, hqmin⟩
  · refine Or.inl ⟨hb, fun k hk => le_of_not_gt fun hpk => ?_⟩
    obtain ⟨hne, hk⟩ := hn.mem_erase_iff.1 hk
    exact hne (le_antisymm (hmax k hk) (hmin k hk hpk))
  · refine Or.inr ⟨hlt.trans hqn, hn.mem_erase_iff.2 ⟨hqn.ne', hqm⟩, fun k hk hpk => ?_⟩
    obtain ⟨hne, hk⟩ := hn.mem_erase_iff.1 hk
    exact hqmin k hk (lt_of_le_of_ne (hmin k hk hpk) (Ne.symm hne))

/-- A link that does not point at the removed key stays right. -/
theorem isNext_erase {ks : List κ} (hn : ks.Nodup) (hp : IsNext ks p) (hx : p.next ≠ x) : IsNext (ks.erase x) p := by
  rcases hp with ⟨hb, hmax⟩ | ⟨hlt, hmem, hmin⟩
  · exact Or.inl ⟨hb, fun k hk => hmax k (List.mem_of_mem_erase hk)⟩
  · exact Or.inr ⟨hlt, hn.mem_erase_iff.2 ⟨hx, hmem⟩, fun k hk => hmin k (List.mem_of_mem_erase hk)⟩

/-- The two slots of a remove are different slots. -/
theorem Chained.pred_ne (h : Chained s) (hj : s[j]? = some (some p)) (hi : s[i]? = some (some q))
    (hpq : p.next = q.key) (h0 : q.key ≠ ⊥) : j ≠ i := by
  rintro rfl
  obtain rfl : p = q := by simpa [hj] using hi
  exact h.linked.next_ne_key (mem_live.2 ⟨_, hi⟩) h0 hpq

theorem Chained.keys_removeSlot (h : Chained s) (hj : s[j]? = some (some p)) (hi : s[i]? = some (some q))
    (hpq : p.next = q.key) (h0 : q.key ≠ ⊥) (next : κ) :
    keys (live (removeSlot s j p i next)) = (keys (live s)).erase q.key := by
  have hne := h.pred_ne hj hi hpq h0
  have hk := keys_rewire hj next
  rw [removeSlot, keys_clear (p := q), hk]
  · rw [List.getElem?_set_ne hne, hi]
  · rw [hk]
    exact h.nodup

/-- What is left in the slots after a remove. -/
theorem Chained.mem_removeSlot (h : Chained s) (hj : s[j]? = some (some p)) {next : κ}
    {r : Link κ ν} (hr : r ∈ live (removeSlot s j p i next)) :
    r = { p with next := next } ∨ (r ∈ live s ∧ r.key ≠ p.key) := by
  obtain ⟨k, hk⟩ := mem_live.1 hr
  rw [removeSlot, List.getElem?_set] at hk
  split at hk
  · split at hk <;> simp at hk
  · rw [List.getElem?_set] at hk
    split at hk
    · split at hk
      · exact Or.inl (by simpa using hk.symm)
      · cases hk
    · rename_i hjk
      exact Or.inr ⟨mem_live.2 ⟨k, hk⟩, fun e => hjk (h.slot_unique hj hk e.symm)⟩

/-- Removing a key keeps the chain. -/
theorem Chained.removeSlot (h : Chained s) (hj : s[j]? = some (some p)) (hi : s[i]? = some (some q))
    (hpq : p.next = q.key) (h0 : q.key ≠ ⊥) : Chained (removeSlot s j p i q.next) := by
  have hk := h.keys_removeSlot hj hi hpq h0 q.next
  have hp : p ∈ live s := mem_live.2 ⟨j, hj⟩
  have hq : q ∈ live s := mem_live.2 ⟨i, hi⟩
  refine ⟨?_, ?_, ?_⟩
  · obtain ⟨n, v, t, hs⟩ := h.sentinel
    obtain ⟨n', t', ht⟩ := sentinel_set hs hj q.next
    have hi0 : i ≠ 0 := by
      rintro rfl
      rw [hs] at hi
      obtain rfl : ⟨⊥, n, v⟩ = q := by simpa using hi
      exact h0 rfl
    obtain ⟨i, rfl⟩ := Nat.exists_eq_succ_of_ne_zero hi0
    exact ⟨n', v, t'.set i none, by rw [Tombstones.removeSlot, ht]; rfl⟩
  · rw [hk]
    exact h.nodup.erase _
  · intro r hr
    rw [hk]
    rcases h.mem_removeSlot hj hr with rfl | ⟨hr, hrp⟩
    · exact isNext_rewire h.nodup (h.next p hp) (h.next q hq) hpq h0
    · refine isNext_erase h.nodup (h.next r hr) fun hrq => hrp ?_
      exact h.linked.pred_unique hr hp (by rw [hrq]; exact h0) (hrq.trans hpq.symm)

end Chained

/-! ## Operations in a tree -/

section Operations

variable {H : Hashing α κ ν} {d : Nat} {s : List (Option (Link κ ν))} {r' : α} {x : κ} {v : ν} {i j : Nat}

/-- A full tree takes no insert: the slot at `2 ^ d` is the sentinel's. -/
theorem Chained.lt_of_inserts (hH : H.Ideal) (h : Chained s) (hl : s.length ≤ 2 ^ d) {low : Link κ ν}
    {lowPath newPath : List α} (hI : Inserts H d (slotRoot H d s) x v low i lowPath s.length newPath r') :
    s.length < 2 ^ d := by
  rcases Nat.lt_or_ge s.length (2 ^ d) with hn | hn
  · exact hn
  exfalso
  have hlow := slot_spec hH hI.lowLen hI.lowIn
  obtain ⟨hil, -⟩ := List.getElem?_eq_some_iff.1 hlow
  have hmid := slot_write hH hI.lowLen hI.lowIn hil (some { low with next := x })
  obtain ⟨n, w, t, hs⟩ := h.sentinel
  obtain ⟨n', t', ht⟩ := sentinel_set hs hlow x
  have he := slot_leaf hH hI.newLen (hI.slotEmpty.trans hmid)
  rw [Nat.le_antisymm hl hn, Nat.mod_self, ht] at he
  exact hH.leaf_ne _ he.symm

/-- **Accepted inserts are slot inserts**, for every witness at the first free slot. -/
theorem insert_root (hH : H.Ideal) (hl : s.length < 2 ^ d) {low : Link κ ν} {lowPath newPath : List α}
    (hI : Inserts H d (slotRoot H d s) x v low i lowPath s.length newPath r') :
    s[i % 2 ^ d]? = some (some low) ∧ r' = slotRoot H d (insertSlot s (i % 2 ^ d) low x v) := by
  have hlow := slot_spec hH hI.lowLen hI.lowIn
  obtain ⟨hil, -⟩ := List.getElem?_eq_some_iff.1 hlow
  have hmid := slot_write hH hI.lowLen hI.lowIn hil (some { low with next := x })
  have hset : (s.set (i % 2 ^ d) (some { low with next := x })).length = s.length := List.length_set
  have happ := slot_append (s := s.set (i % 2 ^ d) (some { low with next := x })) hH hI.newLen (by rwa [hset])
    (by rw [hset]; exact hI.slotEmpty.trans hmid) (some ⟨x, low.next, v⟩)
  rw [hset] at happ
  exact ⟨hlow, hI.filled.symm.trans happ⟩

/-- A tree without an empty slot takes no insert at all. -/
theorem not_inserts_of_full (hH : H.Ideal) (hl : 2 ^ d ≤ s.length) (hs : ∀ o ∈ s, o ≠ none) {low : Link κ ν}
    {lowPath newPath : List α} : ¬ Inserts H d (slotRoot H d s) x v low i lowPath j newPath r' := by
  intro hI
  have hlow := slot_spec hH hI.lowLen hI.lowIn
  obtain ⟨hil, -⟩ := List.getElem?_eq_some_iff.1 hlow
  have hmid := slot_write hH hI.lowLen hI.lowIn hil (some { low with next := x })
  have he := slot_leaf hH hI.newLen (hI.slotEmpty.trans hmid)
  have hj : j % 2 ^ d < (s.set (i % 2 ^ d) (some { low with next := x })).length := by
    rw [List.length_set]
    exact (Nat.mod_lt _ (Nat.two_pow_pos d)).trans_le hl
  rw [pad_of_lt _ (by simpa using hj), List.getElem_map] at he
  rcases List.mem_or_eq_of_mem_set (List.getElem_mem hj) with hm | hm
  · obtain ⟨q, hq⟩ := Option.ne_none_iff_exists'.1 (hs _ hm)
    rw [hq] at he
    exact hH.leaf_ne _ he.symm
  · rw [hm] at he
    exact hH.leaf_ne _ he.symm

/-- A straddling link gives accepted witnesses while a slot is left. -/
theorem exists_insert (hH : H.Ideal) (hl : s.length < 2 ^ d) {low : Link κ ν} (hi : s[i]? = some (some low))
    (hs : Straddles low x) (v : ν) :
    ∃ lowPath newPath r', Inserts H d (slotRoot H d s) x v low i lowPath s.length newPath r' := by
  obtain ⟨hil, -⟩ := List.getElem?_eq_some_iff.1 hi
  have hid : i % 2 ^ d = i := Nat.mod_eq_of_lt (hil.trans hl)
  obtain ⟨lowPath, hlp, hlow⟩ := exists_slot_of_link (H := H) (hil.trans hl) hi
  have hmid := slot_write hH hlp hlow (by rwa [hid]) (some { low with next := x })
  rw [hid] at hmid
  obtain ⟨newPath, hnp, hnew⟩ := exists_slot (H := H) (s := s.set i (some { low with next := x })) hl
  rw [pad_of_le _ (by simp)] at hnew
  exact ⟨lowPath, newPath, _, hs, hlp, hnp, hlow, hnew.trans hmid.symm, rfl⟩

section Removes

variable {next pred : κ} {predVal : ν} {path predPath : List α}

/-- **Accepted removes are slot removes**, for every witness. -/
theorem Removes.root_eq (hH : H.Ideal) (h : Chained s) (h0 : x ≠ ⊥)
    (hR : Removes H d (slotRoot H d s) x next v i path pred predVal j predPath r') :
    s[j % 2 ^ d]? = some (some ⟨pred, x, predVal⟩) ∧ s[i % 2 ^ d]? = some (some ⟨x, next, v⟩) ∧
      r' = slotRoot H d (removeSlot s (j % 2 ^ d) ⟨pred, x, predVal⟩ (i % 2 ^ d) next) := by
  obtain ⟨hpred, hnode, hr⟩ := hR.slots hH
  refine ⟨hpred, ?_, hr⟩
  rcases hnode with hnode | ⟨-, rfl, -⟩
  · exact hnode
  · exact absurd rfl (h.linked.next_ne_key (mem_live.2 ⟨_, hpred⟩) h0)

/-- A present key has accepted witnesses. -/
theorem Chained.exists_remove (hH : H.Ideal) (h : Chained s) (hl : s.length ≤ 2 ^ d) (h0 : x ≠ ⊥)
    (hi : s[i]? = some (some ⟨x, next, v⟩)) :
    ∃ path pred predVal j predPath r', Removes H d (slotRoot H d s) x next v i path pred predVal j predPath r' := by
  obtain ⟨p, hp, hpx⟩ := h.linked.exists_pred h0 (mem_keys (mem_live.2 ⟨i, hi⟩))
  obtain ⟨j, hj⟩ := mem_live.1 hp
  have hne := h.pred_ne hj hi hpx h0
  obtain ⟨pred, _, predVal⟩ := p
  cases hpx
  obtain ⟨hil, -⟩ := List.getElem?_eq_some_iff.1 hi
  obtain ⟨hjl, -⟩ := List.getElem?_eq_some_iff.1 hj
  have hjd : j % 2 ^ d = j := Nat.mod_eq_of_lt (hjl.trans_le hl)
  obtain ⟨predPath, hpp, hpred⟩ := exists_slot_of_link (H := H) (hjl.trans_le hl) hj
  have hmid := slot_write hH hpp hpred (by rwa [hjd]) (some ⟨pred, next, predVal⟩)
  rw [hjd] at hmid
  obtain ⟨path, hnp, hnode⟩ := exists_slot_of_link (H := H) (s := s.set j (some ⟨pred, next, predVal⟩))
    (hil.trans_le hl) (by rw [List.getElem?_set_ne hne, hi])
  exact ⟨path, pred, predVal, j, predPath, _, hpp, hnp, hpred, hnode.trans hmid.symm, rfl⟩

end Removes

end Operations

end Tacit.Tombstones
