import Mathlib.Data.Finset.Max
import Mathlib.Data.List.Nodup
import Mathlib.Order.BoundedOrder.Basic
import Mathlib.Tactic.Common
/-!
# Sets kept as sorted linked lists

A finite map with keys above `⊥` is kept as a list of links `key → next` with a value each: the first
link is the sentinel `⊥`, and every `next` is the smallest larger key, or `⊥` on the largest. The list
order is the order of insertion, so a key is added by rewiring one link and appending another. A link
whose open interval contains `x` both refutes `x ∈ keys` and is where `x` is to be inserted.
-/
namespace Tacit.SortedLinks

structure Link (κ ν : Type*) where
  key : κ
  next : κ
  val : ν
deriving DecidableEq

variable {κ ν : Type*}

def keys (l : List (Link κ ν)) : List κ := l.map Link.key

theorem mem_keys {l : List (Link κ ν)} {p : Link κ ν} (h : p ∈ l) : p.key ∈ keys l := List.mem_map_of_mem h

/-- Rewire link `i` to `x` and append `x` with the displaced successor. -/
def insertAt (l : List (Link κ ν)) (i : Nat) (p : Link κ ν) (x : κ) (v : ν) : List (Link κ ν) :=
  l.set i { p with next := x } ++ [⟨x, p.next, v⟩]

theorem keys_insertAt {l : List (Link κ ν)} {i : Nat} {p : Link κ ν} (hi : l[i]? = some p) (x : κ) (v : ν) :
    keys (insertAt l i p x v) = keys l ++ [x] := by
  obtain ⟨hil, rfl⟩ := List.getElem?_eq_some_iff.1 hi
  have : (keys l).set i l[i].key = keys l := by simp [keys, ← List.map_set]
  simp only [keys, insertAt, List.map_append, List.map_set, List.map_cons, List.map_nil] at this ⊢
  rw [this]

theorem mem_insertAt {l : List (Link κ ν)} {i : Nat} {p q : Link κ ν} {x : κ} {v : ν} (hi : l[i]? = some p)
    (hnd : (keys l).Nodup) (hq : q ∈ insertAt l i p x v) :
    q = { p with next := x } ∨ q = ⟨x, p.next, v⟩ ∨ (q ∈ l ∧ q.key ≠ p.key) := by
  simp only [insertAt, List.mem_append, List.mem_singleton] at hq
  rcases hq with hq | rfl
  · obtain ⟨j, hj, rfl⟩ := List.getElem_of_mem hq
    rw [List.length_set] at hj
    rw [List.getElem_set]
    by_cases hij : i = j
    · exact Or.inl (by simp [hij])
    · refine Or.inr (Or.inr ?_)
      rw [if_neg hij]
      refine ⟨List.getElem_mem hj, fun e => hij ?_⟩
      obtain ⟨hil, rfl⟩ := List.getElem?_eq_some_iff.1 hi
      have := (List.nodup_iff_injective_get.1 hnd).eq_iff (a := ⟨i, by simpa [keys] using hil⟩)
        (b := ⟨j, by simpa [keys] using hj⟩)
      exact congrArg Fin.val (this.1 (by simp [keys, e]))
  · exact Or.inr (Or.inl rfl)

variable [LinearOrder κ] [OrderBot κ]

/-- The open interval of the link `p` contains `x` (`⊥` as `next` means no upper end). -/
def Straddles (p : Link κ ν) (x : κ) : Prop := p.key < x ∧ (p.next = ⊥ ∨ x < p.next)

instance (p : Link κ ν) (x : κ) : Decidable (Straddles p x) := inferInstanceAs (Decidable (_ ∧ _))

/-- `p.next` is the successor of `p.key` among the keys `ks`, or `⊥` if `p.key` is the largest. -/
def IsNext (ks : List κ) (p : Link κ ν) : Prop :=
  (p.next = ⊥ ∧ ∀ k ∈ ks, k ≤ p.key) ∨ (p.key < p.next ∧ p.next ∈ ks ∧ ∀ k ∈ ks, p.key < k → p.next ≤ k)

/-- The list is a sorted linked list: sentinel first, keys distinct, every `next` the successor. -/
structure Linked (l : List (Link κ ν)) : Prop where
  sentinel : ∃ n v t, l = ⟨⊥, n, v⟩ :: t
  nodup : (keys l).Nodup
  next : ∀ p ∈ l, IsNext (keys l) p

theorem linked_empty (v : ν) : Linked [(⟨⊥, ⊥, v⟩ : Link κ ν)] :=
  ⟨⟨⊥, v, [], rfl⟩, by simp [keys], by simp [keys, IsNext]⟩

theorem bot_mem_keys {l : List (Link κ ν)} (h : Linked l) : (⊥ : κ) ∈ keys l := by
  obtain ⟨n, v, t, rfl⟩ := h.sentinel
  simp [keys]

/-- A link that straddles `x` refutes the membership of `x`. -/
theorem Linked.not_mem_of_straddles {l : List (Link κ ν)} (h : Linked l) {p : Link κ ν} (hp : p ∈ l) {x : κ}
    (hs : Straddles p x) : x ∉ keys l := by
  intro hx
  rcases h.next p hp with ⟨_, hmax⟩ | ⟨hlt, _, hmin⟩
  · exact absurd (hmax x hx) (not_le.2 hs.1)
  · rcases hs.2 with h0 | hx2
    · exact not_lt_bot (h0 ▸ hlt)
    · exact absurd (hmin x hx hs.1) (not_le.2 hx2)

/-- Below every key above `⊥` there is a link with the largest key that is smaller. -/
theorem Linked.exists_below {l : List (Link κ ν)} (h : Linked l) {x : κ} (hx : x ≠ ⊥) :
    ∃ p ∈ l, p.key < x ∧ ∀ k ∈ keys l, k < x → k ≤ p.key := by
  have hx0 : (⊥ : κ) < x := bot_lt_iff_ne_bot.2 hx
  let below := (keys l).toFinset.filter (· < x)
  have hne : below.Nonempty := ⟨⊥, by simp [below, bot_mem_keys h, hx0]⟩
  have hm := below.max'_mem hne
  have hmax : ∀ k ∈ below, k ≤ below.max' hne := fun k hk => below.le_max' k hk
  generalize below.max' hne = m at hm hmax
  obtain ⟨hmk, hmx⟩ : m ∈ keys l ∧ m < x := by simpa [below] using hm
  obtain ⟨p, hp, rfl⟩ := List.mem_map.1 hmk
  exact ⟨p, hp, hmx, fun k hk hkx => hmax k (by simp [below, hk, hkx])⟩

/-- Every absent key above `⊥` is straddled by some link. -/
theorem Linked.exists_straddles {l : List (Link κ ν)} (h : Linked l) {x : κ} (hx : x ∉ keys l) :
    ∃ p ∈ l, Straddles p x := by
  have h0 : x ≠ ⊥ := fun e => hx (e ▸ bot_mem_keys h)
  obtain ⟨p, hp, hpx, hmax⟩ := h.exists_below h0
  refine ⟨p, hp, hpx, ?_⟩
  rcases h.next p hp with ⟨h0, _⟩ | ⟨hlt, hmem, _⟩
  · exact Or.inl h0
  · right
    by_contra hle
    have hne : p.next ≠ x := fun e => hx (e ▸ hmem)
    exact absurd hlt (not_lt.2 (hmax p.next hmem (lt_of_le_of_ne (not_lt.1 hle) hne)))

/-- Every present key above `⊥` is the `next` of some link. -/
theorem Linked.exists_pred {l : List (Link κ ν)} (h : Linked l) {x : κ} (h0 : x ≠ ⊥) (hx : x ∈ keys l) :
    ∃ p ∈ l, p.next = x := by
  obtain ⟨p, hp, hpx, hmax⟩ := h.exists_below h0
  refine ⟨p, hp, ?_⟩
  rcases h.next p hp with ⟨_, hall⟩ | ⟨hlt, hmem, hmin⟩
  · exact absurd (hall x hx) (not_le.2 hpx)
  · refine le_antisymm (hmin x hx hpx) (le_of_not_gt fun hnx => ?_)
    exact absurd hlt (not_lt.2 (hmax p.next hmem hnx))

/-- At most one link points at a key. -/
theorem Linked.pred_unique {l : List (Link κ ν)} (h : Linked l) {p q : Link κ ν} (hp : p ∈ l) (hq : q ∈ l)
    (h0 : p.next ≠ ⊥) (he : p.next = q.next) : p.key = q.key := by
  have key : ∀ {a b : Link κ ν}, a ∈ l → b ∈ l → a.next ≠ ⊥ → a.next = b.next → ¬ a.key < b.key := by
    intro a b ha hb ha0 hab hlt
    rcases h.next a ha with ⟨h0, _⟩ | ⟨_, _, hmin⟩
    · exact ha0 h0
    · rcases h.next b hb with ⟨h0, _⟩ | ⟨hbn, _, _⟩
      · exact ha0 (hab.trans h0)
      · exact absurd (hab ▸ hmin _ (mem_keys hb) hlt) (not_le.2 hbn)
  rcases lt_trichotomy p.key q.key with hlt | he' | hgt
  · exact absurd hlt (key hp hq h0 he)
  · exact he'
  · exact absurd hgt (key hq hp (he ▸ h0) he.symm)

/-- No link points at itself. -/
theorem Linked.next_ne_key {l : List (Link κ ν)} (h : Linked l) {p : Link κ ν} (hp : p ∈ l) (h0 : p.key ≠ ⊥) :
    p.next ≠ p.key := by
  rcases h.next p hp with ⟨hn, _⟩ | ⟨hlt, _, _⟩
  · rw [hn]
    exact h0.symm
  · exact hlt.ne'

/-- At most one link straddles a key. -/
theorem Linked.straddles_unique {l : List (Link κ ν)} (h : Linked l) {p q : Link κ ν} (hp : p ∈ l) (hq : q ∈ l)
    {x : κ} (hps : Straddles p x) (hqs : Straddles q x) : p.key = q.key := by
  have key : ∀ {a b : Link κ ν}, a ∈ l → b ∈ l → Straddles a x → b.key < x → ¬ a.key < b.key := by
    intro a b ha hb has hbx hab
    rcases h.next a ha with ⟨_, hmax⟩ | ⟨hlt, _, hmin⟩
    · exact absurd (hmax _ (mem_keys hb)) (not_le.2 hab)
    · rcases has.2 with h0 | hx2
      · exact not_lt_bot (h0 ▸ hlt)
      · exact absurd (hx2.trans_le (hmin _ (mem_keys hb) hab)) (not_lt.2 hbx.le)
  rcases lt_trichotomy p.key q.key with hlt | he | hgt
  · exact absurd hlt (key hp hq hps hqs.1)
  · exact he
  · exact absurd hgt (key hq hp hqs hps.1)

/-- Inserting through a straddling link keeps the list linked. -/
theorem Linked.insertAt {l : List (Link κ ν)} (h : Linked l) {i : Nat} {p : Link κ ν} (hi : l[i]? = some p)
    {x : κ} (hs : Straddles p x) (v : ν) : Linked (insertAt l i p x v) := by
  have hp : p ∈ l := List.mem_of_getElem? hi
  have hx : x ∉ keys l := h.not_mem_of_straddles hp hs
  have hk := keys_insertAt hi x v
  refine ⟨?_, ?_, ?_⟩
  · obtain ⟨n, w, t, rfl⟩ := h.sentinel
    cases i with
    | zero =>
      obtain rfl : ⟨⊥, n, w⟩ = p := by simpa using hi
      exact ⟨x, w, t ++ [⟨x, n, v⟩], by simp [SortedLinks.insertAt]⟩
    | succ i => exact ⟨n, w, t.set i { p with next := x } ++ [⟨x, p.next, v⟩], by simp [SortedLinks.insertAt]⟩
  · rw [hk]
    exact List.nodup_append.2 ⟨h.nodup, by simp, by rintro a ha b hb rfl; simp_all⟩
  · intro q hq
    rw [hk]
    -- what `p` knew about the keys above it
    have hup : ∀ k ∈ keys l, p.key < k → x < k := by
      intro k hk' hlt
      rcases h.next p hp with ⟨_, hmax⟩ | ⟨_, _, hmin⟩
      · exact absurd (hmax k hk') (not_le.2 hlt)
      · rcases hs.2 with h0 | hx2
        · exact lt_of_le_of_ne (le_of_not_gt fun hkx => (h.not_mem_of_straddles hp ⟨hlt, Or.inl h0⟩) hk')
            (fun e => hx (e ▸ hk'))
        · exact lt_of_lt_of_le hx2 (hmin k hk' hlt)
    rcases mem_insertAt hi h.nodup hq with rfl | rfl | ⟨hql, hne⟩
    · refine Or.inr ⟨hs.1, by simp, ?_⟩
      intro k hk' hlt
      rcases List.mem_append.1 hk' with hk' | hk'
      · exact (hup k hk' hlt).le
      · exact (List.mem_singleton.1 hk').ge
    · rcases h.next p hp with ⟨h0, hmax⟩ | ⟨hlt, hmem, hmin⟩
      · refine Or.inl ⟨h0, ?_⟩
        intro k hk'
        rcases List.mem_append.1 hk' with hk' | hk'
        · exact (hmax k hk').trans hs.1.le
        · exact (List.mem_singleton.1 hk').le
      · refine Or.inr ⟨hup _ hmem hlt, List.mem_append_left _ hmem, ?_⟩
        intro k hk' hxk
        rcases List.mem_append.1 hk' with hk' | hk'
        · exact hmin k hk' (hs.1.trans hxk)
        · exact absurd hxk (by rw [List.mem_singleton.1 hk']; exact lt_irrefl x)
    · rcases h.next q hql with ⟨h0, hmax⟩ | ⟨hlt, hmem, hmin⟩
      · refine Or.inl ⟨h0, ?_⟩
        intro k hk'
        rcases List.mem_append.1 hk' with hk' | hk'
        · exact hmax k hk'
        · rw [List.mem_singleton.1 hk']
          have hpq : p.key < q.key := lt_of_le_of_ne (hmax p.key (mem_keys hp)) (Ne.symm hne)
          exact (hup q.key (mem_keys hql) hpq).le
      · refine Or.inr ⟨hlt, List.mem_append_left _ hmem, ?_⟩
        intro k hk' hqk
        rcases List.mem_append.1 hk' with hk' | hk'
        · exact hmin k hk' hqk
        · rw [List.mem_singleton.1 hk'] at hqk ⊢
          rcases lt_or_ge q.key p.key with hqp | hpq
          · exact (hmin p.key (mem_keys hp) hqp).trans hs.1.le
          · exact absurd (hup q.key (mem_keys hql) (lt_of_le_of_ne hpq (Ne.symm hne))) (not_lt.2 hqk.le)

end Tacit.SortedLinks
