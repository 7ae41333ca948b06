import Tacit.Lib.Merkle
/-!
# Merkle trees that pair an odd last node with itself

A level pairs its nodes from the left; a last node without a neighbour is paired with itself. Two lists can so have one
root: one may repeat the tail of the other, or be a higher level of the other. `pairUpDistinct` refuses the first: with an
injective node hash it is injective, whatever the lengths. What is left (`aliases`) is that one list is a level of the other.
-/
namespace Tacit.PairedTree

variable {α : Type*} (node : α → α → α)

/-- The level above. -/
def pairUp : List α → List α
  | [] => []
  | [a] => [node a a]
  | a :: b :: l => node a b :: pairUp l

/-- The level above, of a level without a pair of equal nodes. -/
def pairUpDistinct [DecidableEq α] : List α → Option (List α)
  | [] => some []
  | [a] => some [node a a]
  | a :: b :: l => if a = b then none else (pairUpDistinct l).map (node a b :: ·)

variable {node}

theorem pairUp_length : ∀ l : List α, (pairUp node l).length = (l.length + 1) / 2
  | [] => by simp [pairUp]
  | [_] => by simp [pairUp]
  | _ :: _ :: l => by
    have ih := pairUp_length l
    simp only [pairUp, List.length_cons, ih]
    omega

theorem pairUpDistinct_eq_some [DecidableEq α] : ∀ {l m : List α}, pairUpDistinct node l = some m → m = pairUp node l
  | [], m, h => (Option.some.inj h).symm
  | [a], m, h => (Option.some.inj h).symm
  | a :: b :: l, m, h => by
    rw [pairUpDistinct] at h
    split at h
    · cases h
    · obtain ⟨m', hm', rfl⟩ := Option.map_eq_some_iff.1 h
      rw [pairUp, pairUpDistinct_eq_some hm']

variable (node)

/-- The root of a list that is not empty. -/
def root (l : List α) : Option α := if 1 < l.length then root (pairUp node l) else l.head?
termination_by l.length
decreasing_by
  rw [pairUp_length]
  omega

/-- The root of a list none of whose levels has a pair of equal nodes. -/
def rootDistinct [DecidableEq α] (l : List α) : Option α :=
  if 1 < l.length then
    match _h : pairUpDistinct node l with
    | none => none
    | some m => rootDistinct m
  else l.head?
termination_by l.length
decreasing_by
  rw [pairUpDistinct_eq_some _h, pairUp_length]
  omega

/-- The `k`-th level above a list. -/
def layer [DecidableEq α] : Nat → List α → Option (List α)
  | 0, l => some l
  | k + 1, l => (pairUpDistinct node l).bind (layer k)

/-- The node that shares the parent of node `i`: `x` itself if there is none. -/
def neighbour (l : List α) (i : Nat) (x : α) : α := if i % 2 = 0 then l[i + 1]?.getD x else l[i - 1]?.getD x

/-- The siblings on the way up from node `i`. -/
def siblings (l : List α) (i : Nat) : List α :=
  if h : 1 < l.length ∧ i < l.length then neighbour l i l[i] :: siblings (pairUp node l) (i / 2) else []
termination_by l.length
decreasing_by
  rw [pairUp_length]
  omega

variable {node}

/-! ## One level -/

theorem pairUpDistinct_cons [DecidableEq α] {a b : α} {l m : List α} (h : pairUpDistinct node (a :: b :: l) = some m) :
    a ≠ b ∧ ∃ m', pairUpDistinct node l = some m' ∧ m = node a b :: m' := by
  rw [pairUpDistinct] at h
  split at h
  · cases h
  · next hne =>
    obtain ⟨m', hm', rfl⟩ := Option.map_eq_some_iff.1 h
    exact ⟨hne, m', hm', rfl⟩

/-- **A level determines the one below it**, and so how long that is. -/
theorem pairUpDistinct_inj [DecidableEq α] (hinj : Function.Injective2 node) : ∀ {l l' m : List α},
    pairUpDistinct node l = some m → pairUpDistinct node l' = some m → l = l'
  | [], [], m, _, _ => rfl
  | [], [_], m, h, h' => by simp [pairUpDistinct, ← h'] at h
  | [_], [], m, h, h' => by simp [pairUpDistinct, ← h'] at h
  | [a], [b], m, h, h' => by
    simp only [pairUpDistinct, ← h', Option.some.injEq, List.cons.injEq, and_true] at h
    rw [(hinj h).1]
  | [], a :: b :: l', m, h, h' => by
    obtain ⟨-, m', -, rfl⟩ := pairUpDistinct_cons h'
    cases h
  | a :: b :: l, [], m, h, h' => by
    obtain ⟨-, m', -, rfl⟩ := pairUpDistinct_cons h
    cases h'
  | [c], a :: b :: l', m, h, h' => by
    -- an odd last node pairs equals, which a refused pair would be
    obtain ⟨hne, m', -, rfl⟩ := pairUpDistinct_cons h'
    simp only [pairUpDistinct, Option.some.injEq, List.cons.injEq] at h
    obtain ⟨ha, hb⟩ := hinj h.1
    exact absurd (ha.symm.trans hb) hne
  | a :: b :: l, [c], m, h, h' => by
    obtain ⟨hne, m', -, rfl⟩ := pairUpDistinct_cons h
    simp only [pairUpDistinct, Option.some.injEq, List.cons.injEq] at h'
    obtain ⟨ha, hb⟩ := hinj h'.1
    exact absurd (ha.symm.trans hb) hne
  | a :: b :: l, a' :: b' :: l', m, h, h' => by
    obtain ⟨-, m₁, hm₁, rfl⟩ := pairUpDistinct_cons h
    obtain ⟨-, m₂, hm₂, heq⟩ := pairUpDistinct_cons h'
    simp only [List.cons.injEq] at heq
    obtain ⟨hnode, rfl⟩ := heq
    obtain ⟨rfl, rfl⟩ := hinj hnode
    rw [pairUpDistinct_inj hinj hm₁ hm₂]

theorem mem_pairUp : ∀ {l : List α} {x : α}, x ∈ pairUp node l → ∃ a ∈ l, ∃ b ∈ l, x = node a b
  | [a], x, h => ⟨a, List.mem_cons_self, a, List.mem_cons_self, List.mem_singleton.1 h⟩
  | a :: b :: l, x, h => by
    rcases List.mem_cons.1 h with rfl | h
    · exact ⟨a, by simp, b, by simp, rfl⟩
    · obtain ⟨c, hc, d, hd, rfl⟩ := mem_pairUp h
      exact ⟨c, by simp [hc], d, by simp [hd], rfl⟩

theorem pairUp_nodup (hinj : Function.Injective2 node) : ∀ {l : List α}, l.Nodup → (pairUp node l).Nodup
  | [], _ => List.nodup_nil
  | [_], _ => by simp [pairUp]
  | a :: b :: l, h => by
    rw [List.nodup_cons, List.nodup_cons] at h
    refine List.nodup_cons.2 ⟨fun hmem => ?_, pairUp_nodup hinj h.2.2⟩
    obtain ⟨c, hc, d, -, heq⟩ := mem_pairUp hmem
    obtain ⟨rfl, -⟩ := hinj heq
    exact h.1 (List.mem_cons_of_mem _ hc)

theorem pairUpDistinct_of_nodup [DecidableEq α] : ∀ {l : List α}, l.Nodup → pairUpDistinct node l = some (pairUp node l)
  | [], _ => rfl
  | [_], _ => rfl
  | a :: b :: l, h => by
    rw [List.nodup_cons, List.nodup_cons] at h
    have hne : a ≠ b := fun e => h.1 (e ▸ List.mem_cons_self)
    rw [pairUpDistinct, if_neg hne, pairUpDistinct_of_nodup h.2.2]
    rfl

/-- Of levels of one length the one above determines the one below. -/
theorem pairUp_inj (hinj : Function.Injective2 node) : ∀ {l l' : List α}, l.length = l'.length →
    pairUp node l = pairUp node l' → l = l'
  | [], [], _, _ => rfl
  | [a], [a'], _, h => by rw [(hinj (List.cons.inj h).1).1]
  | a :: b :: l, a' :: b' :: l', hlen, h => by
    obtain ⟨hnode, h⟩ := List.cons.inj h
    obtain ⟨ha, hb⟩ := hinj hnode
    have htail : l = l' := pairUp_inj hinj (by simpa using hlen) h
    rw [ha, hb, htail]

/-- Node `i` and its neighbour are the pair of node `i / 2` above. -/
theorem pairUp_getElem : ∀ {l : List α} {i : Nat} {x : α}, l[i]? = some x → (pairUp node l)[i / 2]? =
    some (if i % 2 = 0 then node x (neighbour l i x) else node (neighbour l i x) x)
  | [a], 0, x, h => by
    cases h
    rfl
  | a :: b :: l, 0, x, h => by
    cases h
    rfl
  | a :: b :: l, 1, x, h => by
    cases h
    rfl
  | a :: b :: l, i + 2, x, h => by
    have ih := pairUp_getElem (l := l) (i := i) (x := x) h
    have hhalf : (i + 2) / 2 = i / 2 + 1 := by omega
    have hmod : (i + 2) % 2 = i % 2 := by omega
    have hneighbour : neighbour (a :: b :: l) (i + 2) x = neighbour l i x := by
      unfold neighbour
      rw [hmod]
      by_cases hi : i % 2 = 0
      · rw [if_pos hi, if_pos hi]
        rfl
      · obtain ⟨j, rfl⟩ : ∃ j, i = j + 1 := ⟨i - 1, by omega⟩
        rw [if_neg hi, if_neg hi]
        rfl
    rw [hhalf, hmod, hneighbour, pairUp]
    exact ih

/-! ## All levels -/

theorem rootDistinct_of_nodup [DecidableEq α] (hinj : Function.Injective2 node) {l : List α} (h : l.Nodup) :
    rootDistinct node l = root node l := by
  induction hn : l.length using Nat.strong_induction_on generalizing l with
  | _ n ih =>
    unfold rootDistinct root
    by_cases hlen : 1 < l.length
    · rw [if_pos hlen, if_pos hlen]
      have hup : pairUpDistinct node l = some (pairUp node l) := pairUpDistinct_of_nodup h
      split
      · next hnone => simp [hup] at hnone
      · next m hm =>
        obtain rfl := pairUpDistinct_eq_some hm
        exact ih _ (by rw [pairUp_length]; omega) (pairUp_nodup hinj h) rfl
    · rw [if_neg hlen, if_neg hlen]

theorem root_singleton (a : α) : root node [a] = some a := by
  rw [root]
  rfl

theorem root_pair (a b : α) : root node [a, b] = some (node a b) := by
  rw [root, if_pos (by simp)]
  exact root_singleton _

theorem rootDistinct_pair [DecidableEq α] {a b : α} (h : a ≠ b) : rootDistinct node [a, b] = some (node a b) := by
  have hup : pairUpDistinct node [a, b] = some [node a b] := by
    rw [pairUpDistinct, if_neg h]
    rfl
  rw [rootDistinct, if_pos (by simp)]
  split
  · next hnone => simp [hup] at hnone
  · next m hm =>
    obtain rfl := Option.some.inj (hup.symm.trans hm)
    rw [rootDistinct]
    rfl

/-- **The honest path** leads to the root. -/
theorem rootFrom_siblings {l : List α} {i : Nat} {x : α} (h : l[i]? = some x) :
    root node l = some (Merkle.rootFrom node x i (siblings node l i)) := by
  induction hn : l.length using Nat.strong_induction_on generalizing l i x with
  | _ n ih =>
    obtain ⟨hi, hx⟩ := List.getElem?_eq_some_iff.1 h
    unfold root siblings
    by_cases hlen : 1 < l.length
    · rw [if_pos hlen, dif_pos ⟨hlen, hi⟩, hx, Merkle.rootFrom]
      exact ih _ (by rw [pairUp_length]; omega) (pairUp_getElem h) rfl
    · have hone : l.length = 1 := by omega
      obtain ⟨y, rfl⟩ := List.length_eq_one_iff.1 hone
      obtain rfl : i = 0 := by omega
      rw [if_neg hlen, dif_neg (fun hc => hlen hc.1), Merkle.rootFrom]
      exact h

/-- Of lists of one length the root determines all, repeated nodes or not. -/
theorem root_inj (hinj : Function.Injective2 node) {l l' : List α} (hlen : l.length = l'.length)
    (h : root node l = root node l') : l = l' := by
  induction hn : l.length using Nat.strong_induction_on generalizing l l' with
  | _ n ih =>
    unfold root at h
    by_cases hlong : 1 < l.length
    · rw [if_pos hlong, if_pos (hlen ▸ hlong)] at h
      have hup : pairUp node l = pairUp node l' :=
        ih _ (by rw [pairUp_length]; omega) (by rw [pairUp_length, pairUp_length, hlen]) h rfl
      exact pairUp_inj hinj hlen hup
    · rw [if_neg hlong, if_neg (hlen ▸ hlong)] at h
      match l, l', hlen with
      | [], [], _ => rfl
      | [a], [b], _ => rw [Option.some.inj h]
      | _ :: _ :: _, _, _ => simp at hlong

section

variable [DecidableEq α]

theorem layer_add : ∀ (k d : Nat) (l : List α), layer node (k + d) l = (layer node k l).bind (layer node d)
  | 0, d, l => by rw [Nat.zero_add, layer, Option.bind_some]
  | k + 1, d, l => by
    rw [Nat.succ_add, layer, layer, Option.bind_assoc]
    congr 1
    funext m
    exact layer_add k d m

theorem layer_inj (hinj : Function.Injective2 node) : ∀ {k : Nat} {l l' m : List α},
    layer node k l = some m → layer node k l' = some m → l = l'
  | 0, l, l', m, h, h' => Option.some.inj (h.trans h'.symm)
  | k + 1, l, l', m, h, h' => by
    obtain ⟨u, hu, h⟩ := Option.bind_eq_some_iff.1 h
    obtain ⟨u', hu', h'⟩ := Option.bind_eq_some_iff.1 h'
    obtain rfl := layer_inj hinj h h'
    exact pairUpDistinct_inj hinj hu hu'

theorem exists_layer {l : List α} {r : α} (h : rootDistinct node l = some r) : ∃ k, layer node k l = some [r] := by
  induction hn : l.length using Nat.strong_induction_on generalizing l with
  | _ n ih =>
    unfold rootDistinct at h
    by_cases hlen : 1 < l.length
    · rw [if_pos hlen] at h
      split at h
      · cases h
      · next m hm =>
        obtain ⟨k, hk⟩ := ih m.length (by rw [pairUpDistinct_eq_some hm, pairUp_length]; omega) h rfl
        exact ⟨k + 1, by rw [layer, hm, Option.bind_some, hk]⟩
    · rw [if_neg hlen] at h
      cases l with
      | nil => cases h
      | cons a l =>
        obtain rfl : l = [] := List.length_eq_zero_iff.1 (by rw [List.length_cons] at hlen; omega)
        cases h
        exact ⟨0, rfl⟩

/-- **Two lists with one root**: one of them is a level of the other. -/
theorem aliases (hinj : Function.Injective2 node) {l l' : List α} {r : α} (h : rootDistinct node l = some r)
    (h' : rootDistinct node l' = some r) : ∃ k, layer node k l' = some l ∨ layer node k l = some l' := by
  obtain ⟨d, hd⟩ := exists_layer h
  obtain ⟨d', hd'⟩ := exists_layer h'
  rcases Nat.le_total d d' with hle | hle
  · refine ⟨d' - d, Or.inl ?_⟩
    rw [← Nat.sub_add_cancel hle, layer_add] at hd'
    obtain ⟨m, hm, hd'⟩ := Option.bind_eq_some_iff.1 hd'
    rw [hm, layer_inj hinj hd hd']
  · refine ⟨d - d', Or.inr ?_⟩
    rw [← Nat.sub_add_cancel hle, layer_add] at hd
    obtain ⟨m, hm, hd⟩ := Option.bind_eq_some_iff.1 hd
    rw [hm, layer_inj hinj hd hd']

/-- The first node of a higher level is over the first of the level below. -/
theorem layer_head : ∀ {k : Nat} {l m : List α} {x : α}, layer node (k + 1) l = some (x :: m) →
    ∃ u a b, layer node k l = some (a :: u) ∧ x = node a b
  | 0, l, m, x, h => by
    obtain ⟨u, hu, h⟩ := Option.bind_eq_some_iff.1 h
    cases h
    have hup := pairUpDistinct_eq_some hu
    match l, hup with
    | [a], hup =>
      cases hup
      exact ⟨[], a, a, rfl, rfl⟩
    | a :: b :: l, hup =>
      cases hup
      exact ⟨b :: l, a, b, rfl, rfl⟩
  | k + 1, l, m, x, h => by
    rw [layer] at h
    obtain ⟨l₁, hl₁, h⟩ := Option.bind_eq_some_iff.1 h
    obtain ⟨u, a, b, hu, rfl⟩ := layer_head h
    exact ⟨u, a, b, by rw [layer, hl₁, Option.bind_some, hu], rfl⟩

/-- The first node of a higher level is over a node with what all nodes and all leaves have. -/
theorem layer_head_of {D : α → Prop} (hnode : ∀ a b, D (node a b)) {k : Nat} {l m : List α} {x : α} (hl : ∀ a ∈ l, D a)
    (h : layer node (k + 1) l = some (x :: m)) : ∃ a b, D a ∧ x = node a b := by
  obtain ⟨u, a, b, hu, rfl⟩ := layer_head h
  refine ⟨a, b, ?_, rfl⟩
  cases k with
  | zero =>
    cases hu
    exact hl a List.mem_cons_self
  | succ k =>
    obtain ⟨-, c, d, -, rfl⟩ := layer_head hu
    exact hnode c d

/-- Two lists with one root are the same, if neither first leaf can be a node. -/
theorem eq_of_heads (hinj : Function.Injective2 node) {D : α → Prop} (hnode : ∀ a b, D (node a b)) {l l' : List α} {r : α}
    (hl : ∀ a ∈ l, D a) (hl' : ∀ a ∈ l', D a) (hhead : ∀ a b, D a → l.head? ≠ some (node a b))
    (hhead' : ∀ a b, D a → l'.head? ≠ some (node a b)) (hne : l ≠ []) (hne' : l' ≠ []) (h : rootDistinct node l = some r)
    (h' : rootDistinct node l' = some r) : l = l' := by
  have hlevel : ∀ {u v : List α} {k : Nat}, (∀ a ∈ u, D a) → v ≠ [] → (∀ a b, D a → v.head? ≠ some (node a b)) →
      layer node (k + 1) u ≠ some v := by
    intro u v k hu hv hhead hlayer
    cases v with
    | nil => exact hv rfl
    | cons x v =>
      obtain ⟨a, b, ha, rfl⟩ := layer_head_of hnode hu hlayer
      exact hhead a b ha rfl
  obtain ⟨k, hk | hk⟩ := aliases hinj h h'
  · cases k with
    | zero => exact (Option.some.inj hk).symm
    | succ k => exact absurd hk (hlevel hl' hne hhead)
  · cases k with
    | zero => exact Option.some.inj hk
    | succ k => exact absurd hk (hlevel hl hne' hhead')

theorem layer_length : ∀ {k : Nat} {l m : List α}, layer node k l = some m → m.length ≤ l.length
  | 0, l, m, h => by
    cases h
    exact le_rfl
  | k + 1, l, m, h => by
    obtain ⟨u, hu, h⟩ := Option.bind_eq_some_iff.1 h
    have hlen := layer_length h
    rw [pairUpDistinct_eq_some hu, pairUp_length] at hlen
    omega

/-- Of lists of one length the root determines all. -/
theorem rootDistinct_inj (hinj : Function.Injective2 node) {l l' : List α} {r : α} (hlen : l.length = l'.length)
    (h : rootDistinct node l = some r) (h' : rootDistinct node l' = some r) : l = l' := by
  by_cases hlong : 1 < l.length
  · have hshort : ∀ {k : Nat} {u v : List α}, 1 < u.length → layer node (k + 1) u = some v → v.length < u.length := by
      intro k u v hu hv
      obtain ⟨w, hw, hv⟩ := Option.bind_eq_some_iff.1 hv
      have := layer_length hv
      rw [pairUpDistinct_eq_some hw, pairUp_length] at this
      omega
    obtain ⟨k, hk | hk⟩ := aliases hinj h h'
    · cases k with
      | zero => exact (Option.some.inj hk).symm
      | succ k => exact absurd (hshort (hlen ▸ hlong) hk) (by omega)
    · cases k with
      | zero => exact Option.some.inj hk
      | succ k => exact absurd (hshort hlong hk) (by omega)
  · unfold rootDistinct at h h'
    rw [if_neg hlong] at h
    rw [if_neg (hlen ▸ hlong)] at h'
    match l, l', hlen with
    | [], [], _ => rfl
    | [a], [b], _ => rw [Option.some.inj (h.trans h'.symm)]
    | _ :: _ :: _, _, _ => simp at hlong

end

end Tacit.PairedTree
