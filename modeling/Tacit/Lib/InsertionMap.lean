import Mathlib.Data.List.Nodup
/-!
# Maps that keep the order of insertion

The entries of a map in the order in which their keys were first set; a deleted key loses its place. Deleting what was added since
gives the earlier map back, order included.
-/
namespace Tacit

structure InsertionMap (κ ν : Type) where
  entries : List (κ × ν)
  nodup : (entries.map Prod.fst).Nodup

namespace InsertionMap

variable {κ ν : Type}

@[ext] theorem ext {m m' : InsertionMap κ ν} (h : m.entries = m'.entries) : m = m' := by
  cases m
  cases m'
  cases h
  rfl

def empty : InsertionMap κ ν := ⟨[], List.nodup_nil⟩

section

variable [DecidableEq κ] (m : InsertionMap κ ν) (k : κ) (v : ν)

def get? : Option ν := (m.entries.find? fun e => e.1 = k).map Prod.snd

def has : Bool := m.entries.any fun e => e.1 = k

theorem has_eq_false {m : InsertionMap κ ν} {k : κ} : m.has k = false ↔ k ∉ m.entries.map Prod.fst := by
  rw [has, List.any_eq_false, List.mem_map]
  constructor
  · rintro h ⟨e, he, hk⟩
    exact h e he (decide_eq_true hk)
  · exact fun h e he hk => h ⟨e, he, of_decide_eq_true hk⟩

/-- A key that is there keeps its place. -/
def set : InsertionMap κ ν :=
  if h : k ∈ m.entries.map Prod.fst then
    ⟨m.entries.map fun e => if e.1 = k then (k, v) else e, by
      have hkeys : (m.entries.map fun e => if e.1 = k then (k, v) else e).map Prod.fst = m.entries.map Prod.fst := by
        rw [List.map_map]
        refine List.map_congr_left fun e _ => ?_
        by_cases he : e.1 = k <;> simp [he]
      rw [hkeys]
      exact m.nodup⟩
  else
    ⟨m.entries ++ [(k, v)], by
      rw [List.map_append, List.nodup_append']
      exact ⟨m.nodup, List.nodup_singleton _, by simpa using h⟩⟩

/-- Every value changed in place. -/
def mapValues (m : InsertionMap κ ν) (f : κ → ν → ν) : InsertionMap κ ν :=
  ⟨m.entries.map fun e => (e.1, f e.1 e.2), by rw [List.map_map]; exact m.nodup⟩

def delete : InsertionMap κ ν :=
  ⟨m.entries.filter fun e => e.1 ≠ k, m.nodup.sublist (List.filter_sublist.map Prod.fst)⟩

variable {m k v}

theorem has_iff : m.has k = true ↔ k ∈ m.entries.map Prod.fst := by
  rw [← not_iff_not, Bool.not_eq_true, has_eq_false]

theorem get?_of_has (h : m.has k = true) : ∃ v, m.get? k = some v ∧ (k, v) ∈ m.entries := by
  obtain ⟨e, he, hk⟩ := List.any_eq_true.1 h
  have hfound : (m.entries.find? fun e => e.1 = k).isSome := List.find?_isSome.2 ⟨e, he, hk⟩
  obtain ⟨e', he'⟩ := Option.isSome_iff_exists.1 hfound
  have hkey := List.find?_some he'
  obtain rfl : e'.1 = k := of_decide_eq_true hkey
  exact ⟨e'.2, by rw [get?, he', Option.map_some], List.mem_of_find?_eq_some he'⟩

theorem mem_set {e : κ × ν} (h : e ∈ (m.set k v).entries) : e = (k, v) ∨ e ∈ m.entries := by
  unfold set at h
  split_ifs at h with hk
  · obtain ⟨e', he', rfl⟩ := List.mem_map.1 h
    by_cases hek : e'.1 = k
    · exact .inl (if_pos hek)
    · exact .inr (by rwa [if_neg hek])
  · rcases List.mem_append.1 h with h | h
    · exact .inr h
    · exact .inl (List.mem_singleton.1 h)

theorem has_set {k' : κ} : (m.set k v).has k' = true ↔ k' = k ∨ m.has k' = true := by
  unfold set
  split_ifs with hk
  · have hkeys : (m.entries.map fun e => if e.1 = k then (k, v) else e).map Prod.fst = m.entries.map Prod.fst := by
      rw [List.map_map]
      refine List.map_congr_left fun e _ => ?_
      by_cases he : e.1 = k <;> simp [he]
    rw [has_iff, has_iff, hkeys]
    exact ⟨.inr, fun h => h.elim (fun h => h ▸ hk) id⟩
  · rw [has_iff, has_iff, List.map_append, List.mem_append, or_comm]
    exact or_congr_left List.mem_singleton

theorem has_delete {k' : κ} : (m.delete k).has k' = true ↔ k' ≠ k ∧ m.has k' = true := by
  rw [has_iff, has_iff, delete, List.mem_map, List.mem_map]
  constructor
  · rintro ⟨e, he, rfl⟩
    obtain ⟨hmem, hne⟩ := List.mem_filter.1 he
    exact ⟨of_decide_eq_true hne, e, hmem, rfl⟩
  · rintro ⟨hne, e, he, rfl⟩
    exact ⟨e, List.mem_filter.2 ⟨he, decide_eq_true hne⟩, rfl⟩

theorem has_mapValues {f : κ → ν → ν} : (m.mapValues f).has k = m.has k := by
  rw [Bool.eq_iff_iff, has_iff, has_iff, mapValues, List.map_map]
  rfl

/-- A new key goes to the end. -/
theorem set_entries (h : m.has k = false) : (m.set k v).entries = m.entries ++ [(k, v)] := by
  unfold set
  rw [dif_neg (has_eq_false.1 h)]

end

section

variable [DecidableEq κ] {m m' : InsertionMap κ ν}

/-- `new Map(entries)`. -/
def ofEntries (l : List (κ × ν)) : InsertionMap κ ν := l.foldl (fun m e => m.set e.1 e.2) empty

theorem foldl_set_mem {e : κ × ν} : ∀ {l : List (κ × ν)} {m : InsertionMap κ ν},
    e ∈ (l.foldl (fun m e => m.set e.1 e.2) m).entries → e ∈ m.entries ∨ e ∈ l
  | [], _, h => .inl h
  | a :: l, m, h => by
    rcases foldl_set_mem (l := l) h with h | h
    · rcases mem_set h with rfl | h
      · exact .inr List.mem_cons_self
      · exact .inl h
    · exact .inr (List.mem_cons_of_mem _ h)

theorem foldl_set_has {k : κ} : ∀ {l : List (κ × ν)} {m : InsertionMap κ ν},
    (l.foldl (fun m e => m.set e.1 e.2) m).has k = true ↔ m.has k = true ∨ k ∈ l.map Prod.fst
  | [], _ => by simp
  | a :: l, m => by
    rw [List.foldl_cons, foldl_set_has, has_set, List.map_cons, List.mem_cons]
    tauto

theorem mem_ofEntries {e : κ × ν} {l : List (κ × ν)} (h : e ∈ (ofEntries l).entries) : e ∈ l :=
  (foldl_set_mem h).resolve_left List.not_mem_nil

theorem has_ofEntries {k : κ} {l : List (κ × ν)} : (ofEntries l).has k = true ↔ k ∈ l.map Prod.fst :=
  foldl_set_has.trans (or_iff_right (by simp [has, empty]))

theorem deleteAll_entries : ∀ (keys : List κ) (m : InsertionMap κ ν),
    (keys.foldl delete m).entries = m.entries.filter fun e => e.1 ∉ keys
  | [], m => by simp
  | k :: keys, m => by
    rw [List.foldl_cons, deleteAll_entries keys, delete, List.filter_filter]
    refine List.filter_congr fun e _ => ?_
    simp [Bool.and_comm]

/-- **What was added is deleted**: the earlier map is back. -/
theorem deleteAll_added {added : List (κ × ν)} (h : m'.entries = m.entries ++ added) :
    (added.map Prod.fst).foldl delete m' = m := by
  have hnodup := m'.nodup
  rw [h, List.map_append, List.nodup_append'] at hnodup
  have hold : (m.entries.filter fun e => e.1 ∉ added.map Prod.fst) = m.entries := by
    refine List.filter_eq_self.2 fun e he => ?_
    exact decide_eq_true fun hmem => hnodup.2.2 (List.mem_map_of_mem he) hmem
  have hnew : (added.filter fun e => e.1 ∉ added.map Prod.fst) = [] := by
    refine List.filter_eq_nil_iff.2 fun e he => ?_
    simpa using ⟨e.2, he⟩
  refine ext ?_
  rw [deleteAll_entries, h, List.filter_append, hold, hnew, List.append_nil]

end

/-! ## Lookups -/

section

variable [DecidableEq κ] {m m' : InsertionMap κ ν} {k k' : κ} {v : ν}

theorem get?_eq_some : m.get? k = some v ↔ (k, v) ∈ m.entries := by
  constructor
  · intro h
    obtain ⟨e, he, rfl⟩ := Option.map_eq_some_iff.1 h
    have hkey := List.find?_some he
    obtain rfl : e.1 = k := of_decide_eq_true hkey
    exact List.mem_of_find?_eq_some he
  · intro h
    obtain ⟨v', hv', hmem⟩ := get?_of_has (has_iff.2 (List.mem_map_of_mem h))
    have heq := List.inj_on_of_nodup_map m.nodup hmem h rfl
    rw [hv', (Prod.mk.inj heq).2]

theorem get?_eq_none : m.get? k = none ↔ m.has k = false := by
  rw [get?, Option.map_eq_none_iff, List.find?_eq_none, has, List.any_eq_false]

/-- A map is what its lookups are. -/
theorem get?_congr (h : m.entries.Perm m'.entries) (k : κ) : m.get? k = m'.get? k := by
  ext v
  rw [get?_eq_some, get?_eq_some, h.mem_iff]

theorem has_congr (h : m.entries.Perm m'.entries) (k : κ) : m.has k = m'.has k := by
  rw [Bool.eq_iff_iff, has_iff, has_iff, (h.map _).mem_iff]

theorem set_perm (h : m.entries.Perm m'.entries) : (m.set k v).entries.Perm (m'.set k v).entries := by
  have hkeys : k ∈ m.entries.map Prod.fst ↔ k ∈ m'.entries.map Prod.fst := (h.map _).mem_iff
  by_cases hk : k ∈ m.entries.map Prod.fst
  · rw [set, set, dif_pos hk, dif_pos (hkeys.1 hk)]
    exact h.map _
  · rw [set, set, dif_neg hk, dif_neg (mt hkeys.2 hk)]
    exact h.append_right _

theorem mem_set_iff {w : ν} : (k', w) ∈ (m.set k v).entries ↔ (k' = k ∧ w = v) ∨ (k' ≠ k ∧ (k', w) ∈ m.entries) := by
  by_cases hk : k ∈ m.entries.map Prod.fst
  · rw [set, dif_pos hk, List.mem_map]
    constructor
    · rintro ⟨e, he, heq⟩
      by_cases hek : e.1 = k
      · rw [if_pos hek, Prod.mk.injEq] at heq
        exact .inl ⟨heq.1.symm, heq.2.symm⟩
      · rw [if_neg hek] at heq
        subst heq
        exact .inr ⟨hek, he⟩
    · rintro (⟨rfl, rfl⟩ | ⟨hne, hmem⟩)
      · obtain ⟨e, he, hek⟩ := List.mem_map.1 hk
        exact ⟨e, he, if_pos hek⟩
      · exact ⟨_, hmem, if_neg hne⟩
  · rw [set, dif_neg hk, List.mem_append, List.mem_singleton, Prod.mk.injEq, or_comm]
    refine or_congr_right ⟨fun hmem => ⟨?_, hmem⟩, And.right⟩
    rintro rfl
    exact hk (List.mem_map_of_mem hmem)

theorem get?_set : (m.set k v).get? k' = if k' = k then some v else m.get? k' := by
  ext w
  rw [get?_eq_some, mem_set_iff]
  split_ifs with hk
  · simp [hk, eq_comm]
  · simp [hk, get?_eq_some]

theorem get?_deleteAll (keys : List κ) : (keys.foldl delete m).get? k = if k ∈ keys then none else m.get? k := by
  ext v
  rw [get?_eq_some, deleteAll_entries, List.mem_filter]
  split_ifs with hk
  · simp [hk]
  · rw [get?_eq_some]
    simp [hk]

theorem has_deleteAll {keys : List κ} : (keys.foldl delete m).has k = true ↔ k ∉ keys ∧ m.has k = true := by
  rw [← not_iff_not, not_and, Bool.not_eq_true, Bool.not_eq_true, ← get?_eq_none, ← get?_eq_none, get?_deleteAll]
  split_ifs with hk
  · simp only [hk, not_true, false_imp_iff]
  · simp only [hk, not_false_eq_true, true_imp_iff]

theorem get?_delete : (m.delete k).get? k' = if k' = k then none else m.get? k' := by
  have h : ([k].foldl delete m).get? k' = _ := get?_deleteAll [k]
  simpa only [List.foldl_cons, List.foldl_nil, List.mem_singleton] using h

/-- Several entries set in turn, those of one key alike. -/
theorem get?_setAll {l : List (κ × ν)} : ∀ {m : InsertionMap κ ν}, (∀ e ∈ l, e.1 = k → e.2 = v) →
    (l.foldl (fun m e => m.set e.1 e.2) m).get? k = if k ∈ l.map Prod.fst then some v else m.get? k := by
  induction l with
  | nil => simp
  | cons e l ih =>
    intro m h
    rw [List.foldl_cons, ih fun e' he' => h e' (List.mem_cons_of_mem _ he'), get?_set]
    by_cases hl : k ∈ l.map Prod.fst
    · simp [hl]
    · by_cases he : k = e.1
      · rw [if_neg hl, if_pos he, h e List.mem_cons_self he.symm, if_pos (by simp [he])]
      · rw [if_neg hl, if_neg he, if_neg (by simp only [List.map_cons, List.mem_cons, he, hl, or_self, not_false_eq_true])]

/-- What no other has the key of is found under its key. -/
theorem get?_ofEntries {β : Type} {key : β → κ} {l : List β} {b : β} (hkey : ∀ a ∈ l, key a = key b → a = b) (hb : b ∈ l) :
    (ofEntries (l.map fun a => (key a, a))).get? (key b) = some b := by
  have hentries : ∀ e ∈ l.map (fun a => (key a, a)), e.1 = key b → e.2 = b := by
    intro e he heq
    obtain ⟨a, ha, rfl⟩ := List.mem_map.1 he
    exact hkey a ha heq
  have hmem : key b ∈ (l.map fun a => (key a, a)).map Prod.fst := by
    rw [List.map_map]
    exact List.mem_map_of_mem (f := key) hb
  rw [ofEntries, get?_setAll hentries, if_pos hmem]

/-- Fresh entries go to the end, in their order. -/
theorem setAll_entries : ∀ {l : List (κ × ν)} {m : InsertionMap κ ν}, ((m.entries ++ l).map Prod.fst).Nodup →
    (l.foldl (fun m e => m.set e.1 e.2) m).entries = m.entries ++ l
  | [], m, _ => (List.append_nil _).symm
  | e :: l, m, h => by
    have hfresh : m.has e.1 = false := by
      rw [List.map_append, List.map_cons, List.nodup_append'] at h
      exact has_eq_false.2 fun hmem => h.2.2 hmem List.mem_cons_self
    have hset : (m.set e.1 e.2).entries = m.entries ++ [e] := set_entries hfresh
    rw [List.foldl_cons, setAll_entries (by rwa [hset, List.append_assoc, List.singleton_append]), hset, List.append_assoc,
      List.singleton_append]

/-- What was added is deleted, whatever the order. -/
theorem deleteAll_perm {old added : List (κ × ν)} {keys : List κ} (h : m.entries.Perm (old ++ added))
    (hkeys : keys.Perm (added.map Prod.fst)) : (keys.foldl delete m).entries.Perm old := by
  have hnodup := (h.map Prod.fst).nodup_iff.1 m.nodup
  rw [List.map_append, List.nodup_append'] at hnodup
  have hold : (old.filter fun e => e.1 ∉ keys) = old := by
    refine List.filter_eq_self.2 fun e he => decide_eq_true fun hmem => ?_
    exact hnodup.2.2 (List.mem_map_of_mem he) (hkeys.mem_iff.1 hmem)
  have hnew : (added.filter fun e => e.1 ∉ keys) = [] := by
    refine List.filter_eq_nil_iff.2 fun e he => ?_
    have hmem : e.1 ∈ keys := hkeys.mem_iff.2 (List.mem_map_of_mem he)
    simpa using hmem
  have hperm := h.filter fun e => e.1 ∉ keys
  rw [List.filter_append, hold, hnew, List.append_nil] at hperm
  rwa [deleteAll_entries]

end

end InsertionMap

end Tacit
