import Mathlib.Data.List.Nodup
import Tacit.EvmPool.Checkpoints
/-!
# The chain of checkpoints

A point stores the count that was newest when it was posted. The points a pool has through the hub can be listed in
the order they were posted (`LinksBack`), so that the chain back from the newest ends. Counts fall along it, except at a count
that both registries hold: there the hub's point is read, also where the wrapped registry's was meant.
-/
namespace Tacit

open Prog

/-! ## Back pointers -/

/-- `l` are the entries met from `s` along `prev`, down to 0. -/
inductive BackChain (prev : Nat → Nat) : Nat → List Nat → Prop
  | nil : BackChain prev 0 []
  | cons {s : Nat} {l : List Nat} : s ≠ 0 → BackChain prev (prev s) l → BackChain prev s (s :: l)

/-- Each entry points at one after it in the list that has the property, or at 0. -/
def LinksBack (prev : Nat → Nat) (good : Nat → Prop) : List Nat → Prop
  | [] => True
  | s :: rest => (prev s = 0 ∨ prev s ∈ rest ∧ good (prev s)) ∧ LinksBack prev good rest

variable {prev prev' : Nat → Nat} {good good' : Nat → Prop} {s : Nat} {order : List Nat}

/-- Links are kept by whatever keeps the entries' pointers and their property. -/
theorem LinksBack.congr (hp : ∀ s ∈ order, prev' s = prev s) (hg : ∀ s ∈ order, good s → good' s) :
    LinksBack prev good order → LinksBack prev' good' order := by
  induction order with
  | nil => exact id
  | cons s rest ih =>
    rintro ⟨hs, hrest⟩
    refine ⟨?_, ih (fun x hx => hp x (by simp [hx])) (fun x hx => hg x (by simp [hx])) hrest⟩
    rw [hp s (by simp)]
    rcases hs with h0 | ⟨hmem, hgood⟩
    · exact Or.inl h0
    · exact Or.inr ⟨hmem, hg _ (by simp [hmem]) hgood⟩

/-- **A linked list has an ending chain from each entry**, made of entries further on. -/
theorem LinksBack.chain (hpos : ∀ s ∈ order, s ≠ 0) : LinksBack prev good order → ∀ {s : Nat}, s = 0 ∨ s ∈ order →
    ∃ l, BackChain prev s l ∧ l.Sublist order ∧ (good s → ∀ x ∈ l, good x) := by
  induction order with
  | nil =>
    rintro - s (rfl | h)
    · exact ⟨[], .nil, List.Sublist.refl _, by simp⟩
    · simp at h
  | cons a rest ih =>
    rintro ⟨ha, hrest⟩ s hs
    have ih := @ih (fun x hx => hpos x (by simp [hx])) hrest
    rcases hs with rfl | hs
    · exact ⟨[], .nil, List.nil_sublist _, by simp⟩
    · rcases List.mem_cons.1 hs with rfl | hs
      · obtain ⟨l, hchain, hsub, hgood⟩ := @ih (prev s) (ha.imp id And.left)
        refine ⟨s :: l, .cons (hpos s (by simp)) hchain, hsub.cons_cons s, fun hs x hx => ?_⟩
        rcases List.mem_cons.1 hx with rfl | hx
        · exact hs
        · rcases ha with h0 | ⟨-, hprev⟩
          · rw [h0] at hchain
            cases hchain with
            | nil => simp at hx
            | cons h _ => exact absurd rfl h
          · exact hgood hprev x hx
      · obtain ⟨l, hchain, hsub, hgood⟩ := ih (Or.inr hs)
        exact ⟨l, hchain, hsub.cons a, hgood⟩

namespace Checkpoints

/-! ## Two registries, one read through the other -/

/-- The point read: the hub's, else the wrapped registry's. -/
def seen (h p : Registry) (s : Nat) : Point := if (h.points s).postedAt = 0 then p.points s else h.points s

/-- The newest count of the two. -/
def top (h p : Registry) : Nat := max h.latest p.latest

/-- The chain goes down at `s`, or both registries hold it. -/
def Descends (h p : Registry) (s : Nat) : Prop :=
  (seen h p s).prev < s ∨ ((h.points s).postedAt ≠ 0 ∧ (p.points s).postedAt ≠ 0)

/-- A registry's newest count is the largest it holds. -/
structure Registry.Sound (r : Registry) : Prop where
  blank : ∀ s, (r.points s).postedAt = 0 → r.points s = .none
  le : ∀ s, (r.points s).postedAt ≠ 0 → s ≤ r.latest
  held : r.latest = 0 ∨ (r.points r.latest).postedAt ≠ 0

/-- What holds of a pool's points through the hub; `order` lists them, the last posted first. -/
structure Pair (h p : Registry) (order : List Nat) : Prop where
  hub : h.Sound
  previous : p.Sound
  /-- The wrapped registry's newest point was its newest when it was posted. -/
  newest : p.latest = 0 ∨ (p.points p.latest).prev < p.latest
  topDescends : top h p = 0 ∨ Descends h p (top h p)
  small : top h p ≤ 2 ^ 32
  nodup : order.Nodup
  mem : ∀ s, s ∈ order ↔ (seen h p s).postedAt ≠ 0
  pos : ∀ s ∈ order, s ≠ 0
  linked : LinksBack (fun s => (seen h p s).prev) (Descends h p) order

theorem Registry.Sound.empty : Registry.empty.Sound :=
  ⟨fun _ _ => rfl, fun _ h => absurd rfl h, Or.inl rfl⟩

theorem Registry.Sound.store {r : Registry} (h : r.Sound) {size : Nat} {q : Point} (hq : q.postedAt ≠ 0) :
    (r.store size q).Sound := by
  have hlatest : (r.store size q).latest = max r.latest size := by
    unfold Registry.store
    simp only
    split <;> omega
  refine ⟨fun s hs => ?_, fun s hs => ?_, ?_⟩
  · by_cases e : s = size
    · subst e
      simp [Registry.store, hq] at hs
    · simp only [Registry.store, Function.update_of_ne e] at hs ⊢
      exact h.blank s hs
  · rw [hlatest]
    by_cases e : s = size
    · omega
    · simp only [Registry.store, Function.update_of_ne e] at hs
      have := h.le s hs
      omega
  · rw [hlatest]
    by_cases hle : size ≤ r.latest
    · rw [max_eq_left hle]
      rcases h.held with h0 | hheld
      · exact Or.inl h0
      · refine Or.inr ?_
        by_cases e : r.latest = size
        · simpa [Registry.store, e] using hq
        · simpa [Registry.store, e] using hheld
    · rw [max_eq_right (by omega)]
      exact Or.inr (by simpa [Registry.store] using hq)

section
variable {h p : Registry} {order : List Nat}

theorem seen_postedAt {s : Nat} : (seen h p s).postedAt ≠ 0 ↔ (h.points s).postedAt ≠ 0 ∨ (p.points s).postedAt ≠ 0 := by
  unfold seen
  split <;> simp_all

theorem Pair.le_top (H : Pair h p order) {s : Nat} (hs : (seen h p s).postedAt ≠ 0) : s ≤ top h p := by
  rcases seen_postedAt.1 hs with hh | hp
  · exact (H.hub.le s hh).trans (le_max_left _ _)
  · exact (H.previous.le s hp).trans (le_max_right _ _)

theorem Pair.top_mem (H : Pair h p order) : top h p = 0 ∨ top h p ∈ order := by
  rw [H.mem, seen_postedAt]
  unfold top
  rcases le_total h.latest p.latest with hle | hle
  · rw [max_eq_right hle]
    exact H.previous.held.imp id Or.inr
  · rw [max_eq_left hle]
    exact H.hub.held.imp id Or.inl

/-- The wrapped registry's newest point is one the chain goes down at. -/
theorem Pair.previous_descends (H : Pair h p order) (h0 : p.latest ≠ 0) : Descends h p p.latest := by
  have hheld := H.previous.held.resolve_left h0
  by_cases hh : (h.points p.latest).postedAt = 0
  · refine Or.inl ?_
    rw [seen, if_pos hh]
    exact H.newest.resolve_left h0
  · exact Or.inr ⟨hh, hheld⟩

/-- A new point is read, the others as before. -/
theorem Pair.insert (H : Pair h p order) {h' p' : Registry} {x : Nat} (hx : x ≠ 0) (hnew : (seen h p x).postedAt = 0)
    (hub : h'.Sound) (previous : p'.Sound) (newest : p'.latest = 0 ∨ (p'.points p'.latest).prev < p'.latest)
    (hposted : (seen h' p' x).postedAt ≠ 0) (hother : ∀ s, s ≠ x → seen h' p' s = seen h p s)
    (hboth : ∀ s, (h.points s).postedAt ≠ 0 ∧ (p.points s).postedAt ≠ 0 →
      (h'.points s).postedAt ≠ 0 ∧ (p'.points s).postedAt ≠ 0)
    (htop : top h' p' = max (top h p) x) (hsmall : x ≤ 2 ^ 32)
    (hprev : (seen h' p' x).prev = 0 ∨ (seen h' p' x).prev ∈ order ∧ Descends h p (seen h' p' x).prev)
    (hlt : top h p < x → (seen h' p' x).prev < x) : Pair h' p' (x :: order) := by
  have hfresh : x ∉ order := fun hmem => (H.mem x).1 hmem hnew
  have hkeep : ∀ s, s ≠ x → Descends h p s → Descends h' p' s := by
    rintro s hs (hdown | hb)
    · exact Or.inl (by rwa [hother s hs])
    · exact Or.inr (hboth s hb)
  have hne : ∀ s ∈ order, s ≠ x := fun s hs e => hfresh (e ▸ hs)
  refine ⟨hub, previous, newest, ?_, ?_, List.nodup_cons.2 ⟨hfresh, H.nodup⟩, ?_, ?_, ?_, ?_⟩
  · rw [htop]
    by_cases hle : x ≤ top h p
    · rw [max_eq_left hle]
      rcases H.topDescends with h0 | hdesc
      · exact Or.inl h0
      · rcases H.top_mem with h0 | hmem
        · exact Or.inl h0
        · exact Or.inr (hkeep _ (hne _ hmem) hdesc)
    · rw [max_eq_right (by omega)]
      exact Or.inr (Or.inl (hlt (by omega)))
  · rw [htop]
    exact max_le H.small hsmall
  · intro s
    by_cases e : s = x
    · simp [e, hposted]
    · rw [List.mem_cons, hother s e, ← H.mem s]
      simp [e]
  · intro s hs
    rcases List.mem_cons.1 hs with rfl | hs
    · exact hx
    · exact H.pos s hs
  · rcases hprev with h0 | ⟨hmem, hdesc⟩
    · exact Or.inl h0
    · exact Or.inr ⟨hmem, hkeep _ (hne _ hmem) hdesc⟩
  · exact H.linked.congr (fun s hs => by rw [hother s (hne s hs)]) fun s hs => hkeep s (hne s hs)

/-- A point stored with the newest count. -/
theorem Submission.point_prev {q : Submission} {n : Nat} (hn : n ≤ 2 ^ 32) : (q.point n).prev = n :=
  Nat.mod_eq_of_lt (by omega)

theorem Submission.point_postedAt (q : Submission) (n : Nat) : (q.point n).postedAt ≠ 0 := by
  have hpos := q.time.pos
  show q.time.val % 2 ^ 64 ≠ 0
  rw [Nat.mod_eq_of_lt q.time.lt]
  omega

theorem Registry.store_points {r : Registry} {size : Nat} {q : Point} :
    (r.store size q).points size = q ∧ ∀ s, s ≠ size → (r.store size q).points s = r.points s :=
  ⟨by simp [Registry.store], fun s hs => by simp [Registry.store, hs]⟩

theorem Registry.store_latest (r : Registry) (size : Nat) (q : Point) : (r.store size q).latest = max r.latest size := by
  unfold Registry.store
  simp only
  split <;> omega

/-- The hub keeps a point of a count that neither registry holds. -/
theorem Pair.keep (H : Pair h p order) {q : Submission} (hx : q.size ≠ 0) (hsmall : q.size ≤ 2 ^ 32)
    (hnew : (seen h p q.size).postedAt = 0) :
    Pair (h.store q.size (q.point (top h p))) p (q.size :: order) := by
  obtain ⟨hself, hother⟩ := @Registry.store_points h q.size (q.point (top h p))
  have hposted := q.point_postedAt (top h p)
  have hseen : seen (h.store q.size (q.point (top h p))) p q.size = q.point (top h p) := by
    rw [seen, hself, if_neg hposted]
  have hprev : (seen (h.store q.size (q.point (top h p))) p q.size).prev = top h p := by
    rw [hseen, Submission.point_prev H.small]
  refine H.insert hx hnew (H.hub.store hposted) H.previous H.newest (by rwa [hseen]) ?_ ?_ ?_ hsmall ?_ ?_
  · intro s hs
    rw [seen, seen, hother s hs]
  · rintro s ⟨hh, hp⟩
    have hs : s ≠ q.size := by
      rintro rfl
      exact seen_postedAt.2 (Or.inl hh) hnew
    exact ⟨by rwa [hother s hs], hp⟩
  · rw [top, top, Registry.store_latest, max_right_comm]
  · rw [hprev]
    rcases H.top_mem with h0 | hmem
    · exact Or.inl h0
    · exact Or.inr ⟨hmem, H.topDescends.resolve_left (H.pos _ hmem)⟩
  · intro hlt
    rwa [hprev]

/-- The wrapped registry takes a count of its own accord, whether the hub holds it or not. -/
theorem Pair.post (H : Pair h p order) {q : Submission} (hx : q.size ≠ 0) (hsmall : q.size ≤ 2 ^ 32)
    (hnew : (p.points q.size).postedAt = 0) :
    ∃ order', Pair h (p.store q.size (q.point p.latest)) order' := by
  obtain ⟨hself, hother⟩ := @Registry.store_points p q.size (q.point p.latest)
  have hposted := q.point_postedAt p.latest
  have hplatest : p.latest ≤ 2 ^ 32 := (le_max_right _ _).trans H.small
  have hprev : (q.point p.latest).prev = p.latest := Submission.point_prev hplatest
  have hsound : (p.store q.size (q.point p.latest)).Sound := H.previous.store hposted
  have hne : p.latest = 0 ∨ p.latest ≠ q.size := by
    rcases H.previous.held with h0 | hheld
    · exact Or.inl h0
    · exact Or.inr fun e => (e ▸ hheld) hnew
  have hnewest : (p.store q.size (q.point p.latest)).latest = 0 ∨
      ((p.store q.size (q.point p.latest)).points (p.store q.size (q.point p.latest)).latest).prev <
        (p.store q.size (q.point p.latest)).latest := by
    rw [Registry.store_latest]
    by_cases hle : q.size ≤ p.latest
    · rw [max_eq_left hle, hother _ (hne.resolve_left (by omega))]
      exact H.newest
    · rw [max_eq_right (by omega), hself, hprev]
      exact Or.inr (by omega)
  by_cases hh : (h.points q.size).postedAt = 0
  · have hseen : seen h (p.store q.size (q.point p.latest)) q.size = q.point p.latest := by
      rw [seen, if_pos hh, hself]
    refine ⟨_, H.insert hx ?_ H.hub hsound hnewest (by rwa [hseen]) ?_ ?_ ?_ hsmall ?_ ?_⟩
    · rw [seen, if_pos hh]
      exact hnew
    · intro s hs
      rw [seen, seen, hother s hs]
    · rintro s ⟨hhs, hps⟩
      have hs : s ≠ q.size := by
        rintro rfl
        exact hps hnew
      exact ⟨hhs, by rwa [hother s hs]⟩
    · rw [top, top, Registry.store_latest, max_assoc]
    · rw [hseen, hprev]
      by_cases h0 : p.latest = 0
      · exact Or.inl h0
      · refine Or.inr ⟨?_, H.previous_descends h0⟩
        rw [H.mem, seen_postedAt]
        exact Or.inr (H.previous.held.resolve_left h0)
    · intro hlt
      rw [hseen, hprev]
      exact lt_of_le_of_lt (le_max_right _ _) hlt
  · -- the hub's point is still the one read
    have hseen : ∀ s, seen h (p.store q.size (q.point p.latest)) s = seen h p s := by
      intro s
      by_cases e : s = q.size
      · rw [e, seen, seen, if_neg hh, if_neg hh]
      · rw [seen, seen, hother s e]
    have hboth : ∀ s, (p.points s).postedAt ≠ 0 → ((p.store q.size (q.point p.latest)).points s).postedAt ≠ 0 := by
      intro s hs
      by_cases e : s = q.size
      · rwa [e, hself]
      · rwa [hother s e]
    have hkeep : ∀ s, Descends h p s → Descends h (p.store q.size (q.point p.latest)) s := by
      rintro s (hdown | ⟨hhs, hps⟩)
      · exact Or.inl (by rwa [hseen])
      · exact Or.inr ⟨hhs, hboth s hps⟩
    have htop : top h (p.store q.size (q.point p.latest)) = top h p := by
      have := H.hub.le q.size hh
      rw [top, top, Registry.store_latest]
      omega
    refine ⟨order, H.hub, hsound, hnewest, ?_, by rw [htop]; exact H.small, H.nodup, ?_, H.pos, ?_⟩
    · rw [htop]
      exact H.topDescends.imp id (hkeep _)
    · intro s
      rw [hseen s]
      exact H.mem s
    · exact H.linked.congr (fun s _ => by rw [hseen s]) fun s _ => hkeep s

theorem Pair.empty : Pair .empty .empty [] :=
  ⟨.empty, .empty, Or.inl rfl, Or.inl rfl, Nat.zero_le _, List.nodup_nil, fun s => by simp [seen, Registry.empty, Point.none],
    by simp, trivial⟩

end

/-! ## A pool through the hub -/

section
variable {cfg : Config} {w w' : World} {pool : Address}

/-- The wrapped registry as the pool's points see it. -/
def World.under (cfg : Config) (w : World) (pool : Address) : Registry :=
  if World.wraps cfg pool then w.previous else .empty

theorem World.latest_eq : w.latest cfg pool = top (w.pools pool) (w.under cfg pool) := by
  unfold World.latest World.under top
  by_cases h : World.wraps cfg pool = true
  · simp only [h, if_true]
    split <;> omega
  · simp [h, Registry.empty]

theorem World.postedAt_eq (s : Nat) : w.postedAt cfg pool s = (seen (w.pools pool) (w.under cfg pool) s).postedAt := by
  unfold World.postedAt World.under seen
  by_cases h : World.wraps cfg pool = true
  · by_cases h0 : ((w.pools pool).points s).postedAt = 0 <;> simp [h, h0]
  · by_cases h0 : ((w.pools pool).points s).postedAt = 0 <;> simp [h, h0, Registry.empty, Point.none]

theorem World.pointAt_eq (hs : (w.pools pool).Sound) (s : Nat) :
    w.pointAt cfg pool s = seen (w.pools pool) (w.under cfg pool) s := by
  unfold World.pointAt World.under seen
  by_cases h : World.wraps cfg pool = true
  · by_cases h0 : ((w.pools pool).points s).postedAt = 0 <;> simp [h, h0]
  · by_cases h0 : ((w.pools pool).points s).postedAt = 0
    · simp [h, Registry.empty, hs.blank s h0]
    · simp [h, h0]

/-- The state of a pool's points: `Pair`, for some order of the posts. -/
def World.Good (cfg : Config) (w : World) (pool : Address) : Prop :=
  ∃ order, Pair (w.pools pool) (w.under cfg pool) order

/-- A pool's size fits its tree. -/
def Submission.Small (q : Submission) : Prop := ∀ root n, q.rootSize root = some n → n ≤ 2 ^ 32

theorem postChecks_ok {H : Poseidon} {q : Submission} {known : Nat} (h : postChecks H q known = .ok ()) :
    q.size ≠ 0 ∧ known = 0 ∧ q.rootSize (H.edgeRoot q.size q.filled) = some q.size := by
  simp only [postChecks, except_bind_eq_ok, refuse_eq_ok, need_eq_ok] at h
  obtain ⟨_, hsize, _, -, _, hknown, held, hheld, heq⟩ := h
  refine ⟨fun h0 => hsize (Or.inl h0), not_not.1 hknown, ?_⟩
  rw [hheld, not_not.1 heq]

theorem Registry.post_ok {H : Poseidon} {q : Submission} {r t : Registry} {u : Unit} (hok : Registry.post H q r = .ok u t) :
    postChecks H q (r.points q.size).postedAt = .ok () ∧ t = r.store q.size (q.point r.latest) := by
  simp only [Registry.post, bind_eq_ok, get_eq_ok, ofExcept_eq_ok, modify_eq_ok] at hok
  obtain ⟨_, _, ⟨rfl, rfl⟩, _, _, ⟨hchecks, rfl⟩, rfl⟩ := hok
  exact ⟨hchecks, rfl⟩

theorem hubPost_ok {H : Poseidon} {p : Address} {q : Submission} {t : World} {u : Unit} (hok : hubPost H cfg p q w = .ok u t) :
    postChecks H q (w.postedAt cfg p q.size) = .ok () ∧ t = w.keep cfg p q := by
  simp only [hubPost, bind_eq_ok, get_eq_ok, ofExcept_eq_ok, modify_eq_ok] at hok
  obtain ⟨_, _, ⟨rfl, rfl⟩, _, _, ⟨hchecks, rfl⟩, rfl⟩ := hok
  exact ⟨hchecks, rfl⟩

/-- The hub keeping a point of another pool changes nothing here; keeping one of this pool is `Pair.keep`. -/
theorem World.Good.keep (hgood : w.Good cfg pool) {p : Address} {q : Submission} (hsmall : p = pool → q.size ≤ 2 ^ 32)
    (hx : q.size ≠ 0) (hnew : w.postedAt cfg p q.size = 0) :
    (w.keep cfg p q).Good cfg pool ∧ w.latest cfg pool ≤ (w.keep cfg p q).latest cfg pool := by
  by_cases e : p = pool
  · subst e
    obtain ⟨order, H⟩ := hgood
    rw [World.postedAt_eq] at hnew
    have hpools : (w.keep cfg p q).pools p =
        (w.pools p).store q.size (q.point (top (w.pools p) (w.under cfg p))) := by
      rw [World.keep, World.latest_eq]
      simp
    have hunder : (w.keep cfg p q).under cfg p = w.under cfg p := rfl
    refine ⟨⟨_, by rw [hpools, hunder]; exact H.keep hx (hsmall rfl) hnew⟩, ?_⟩
    rw [World.latest_eq, World.latest_eq, hpools, hunder, top, top, Registry.store_latest]
    omega
  · have hpools : (w.keep cfg p q).pools pool = w.pools pool := by
      simp [World.keep, Ne.symm e]
    have hunder : (w.keep cfg p q).under cfg pool = w.under cfg pool := rfl
    refine ⟨by rw [World.Good, hpools, hunder]; exact hgood, ?_⟩
    rw [World.latest_eq, World.latest_eq, hpools, hunder]

theorem World.Good.postMany {H : Poseidon} (posts : List (Address × Submission)) : ∀ {w : World}, w.Good cfg pool →
    (∀ p ∈ posts, p.1 = pool → p.2.Small) →
    (posts.foldl (postManyStep H cfg) w).Good cfg pool ∧
      w.latest cfg pool ≤ (posts.foldl (postManyStep H cfg) w).latest cfg pool := by
  induction posts with
  | nil => exact fun hw _ => ⟨hw, le_rfl⟩
  | cons p posts ih =>
    intro w hw hsmall
    have hstep : (postManyStep H cfg w p).Good cfg pool ∧ w.latest cfg pool ≤ (postManyStep H cfg w p).latest cfg pool := by
      unfold postManyStep
      split
      · exact ⟨hw, le_rfl⟩
      · next hsize =>
        split
        · exact ⟨hw, le_rfl⟩
        · next hnew =>
          split
          · exact ⟨hw, le_rfl⟩
          · next hheld =>
            rw [not_not] at hnew hheld
            exact hw.keep (fun e => hsmall p (by simp) e _ _ hheld) (fun h0 => hsize (Or.inl h0)) hnew
    obtain ⟨hgood, hle⟩ := ih hstep.1 fun p hp => hsmall p (by simp [hp])
    exact ⟨hgood, hstep.2.trans hle⟩

/-- What a call keeps, and that the newest count never decreases. -/
theorem World.Good.run {H : Poseidon} (hw : w.Good cfg pool) {c : Call} (hsmall : ∀ q ∈ c.submissions cfg pool, q.Small) :
    (c.run H cfg w).Good cfg pool ∧ w.latest cfg pool ≤ (c.run H cfg w).latest cfg pool := by
  cases c with
  | previousPost q =>
    show World.Good cfg { w with previous := (Registry.post H q).call w.previous } pool ∧ _
    by_cases hwrap : World.wraps cfg pool = true
    · rcases call_cases (Registry.post H q) w.previous with hcall | ⟨_, hok⟩
      · have hrun : Call.run H cfg w (.previousPost q) = w := by
          show { w with previous := (Registry.post H q).call w.previous } = w
          rw [hcall]
        exact ⟨by rw [hcall]; exact hw, by rw [hrun]⟩
      · obtain ⟨hchecks, hstore⟩ := Registry.post_ok hok
        obtain ⟨hx, hnew, hheld⟩ := postChecks_ok hchecks
        have hle := hsmall q (by simp [Call.submissions, hwrap]) _ _ hheld
        obtain ⟨order, hpair⟩ := hw
        have hunder : ∀ r : Registry, World.under cfg { w with previous := r } pool = r := fun r => by
          simp [World.under, hwrap]
        have hunder' : w.under cfg pool = w.previous := hunder w.previous
        rw [hunder'] at hpair
        obtain ⟨order', hpair'⟩ := hpair.post hx hle hnew
        refine ⟨⟨order', ?_⟩, ?_⟩
        · rw [hunder]
          exact hstore ▸ hpair'
        · rw [World.latest_eq, World.latest_eq, hunder']
          show top (w.pools pool) w.previous ≤
            top (w.pools pool) (World.under cfg { w with previous := (Registry.post H q).call w.previous } pool)
          rw [hunder, top, top, hstore, Registry.store_latest]
          omega
    · have hunder : World.under cfg { w with previous := (Registry.post H q).call w.previous } pool = w.under cfg pool := by
        simp [World.under, hwrap]
      refine ⟨by rw [World.Good, hunder]; exact hw, ?_⟩
      rw [World.latest_eq, World.latest_eq]
      show _ ≤ top (w.pools pool) (World.under cfg { w with previous := (Registry.post H q).call w.previous } pool)
      rw [hunder]
  | post p q =>
    show World.Good cfg ((hubPost H cfg p q).call w) pool ∧ w.latest cfg pool ≤ ((hubPost H cfg p q).call w).latest cfg pool
    rcases call_cases (hubPost H cfg p q) w with hcall | ⟨_, hok⟩
    · rw [hcall]
      exact ⟨hw, le_rfl⟩
    · obtain ⟨hchecks, hkeep⟩ := hubPost_ok hok
      obtain ⟨hx, hnew, hheld⟩ := postChecks_ok hchecks
      rw [hkeep]
      exact hw.keep (fun e => hsmall q (by simp [Call.submissions, e]) _ _ hheld) hx hnew
  | postMany posts =>
    refine hw.postMany posts fun p hp e => hsmall p.2 ?_
    simp only [Call.submissions, List.mem_map, List.mem_filter, decide_eq_true_eq]
    exact ⟨p, ⟨hp, e⟩, rfl⟩

theorem World.Good.calls {H : Poseidon} (calls : List Call) : ∀ {w : World}, w.Good cfg pool →
    (∀ c ∈ calls, ∀ q ∈ c.submissions cfg pool, q.Small) →
    (calls.foldl (Call.run H cfg) w).Good cfg pool ∧
      w.latest cfg pool ≤ (calls.foldl (Call.run H cfg) w).latest cfg pool := by
  induction calls with
  | nil => exact fun hw _ => ⟨hw, le_rfl⟩
  | cons c calls ih =>
    intro w hw hsmall
    obtain ⟨hgood, hle⟩ := hw.run (H := H) (c := c) (hsmall c (by simp))
    obtain ⟨hgood', hle'⟩ := ih hgood fun c hc => hsmall c (by simp [hc])
    exact ⟨hgood', hle.trans hle'⟩

theorem World.deployed_good : World.deployed.Good cfg pool := by
  have hunder : World.under cfg .deployed pool = .empty := by
    unfold World.under
    split <;> rfl
  exact ⟨[], by rw [hunder]; exact .empty⟩

/-- The newest count is the largest one posted. -/
theorem World.Good.newest (hgood : w.Good cfg pool) :
    (∀ s, w.postedAt cfg pool s ≠ 0 → s ≤ w.latest cfg pool) ∧
      (w.latest cfg pool ≠ 0 → w.postedAt cfg pool (w.latest cfg pool) ≠ 0 ∧
        (w.pointAt cfg pool (w.latest cfg pool)).postedAt ≠ 0) := by
  obtain ⟨order, P⟩ := hgood
  refine ⟨fun s hs => ?_, fun h0 => ?_⟩
  · rw [World.latest_eq]
    rw [World.postedAt_eq] at hs
    exact P.le_top hs
  · rw [World.pointAt_eq P.hub, World.postedAt_eq, World.latest_eq] at *
    have hmem := (P.mem _).1 (P.top_mem.resolve_left h0)
    exact ⟨hmem, hmem⟩

/-- The chain back from the newest count. -/
theorem World.Good.chain (hgood : w.Good cfg pool) :
    ∃ l, BackChain (fun s => (w.pointAt cfg pool s).prev) (w.latest cfg pool) l ∧ l.Nodup ∧
      ∀ s ∈ l, w.postedAt cfg pool s ≠ 0 ∧ ((w.pointAt cfg pool s).prev < s ∨
        (World.wraps cfg pool = true ∧ ((w.pools pool).points s).postedAt ≠ 0 ∧ (w.previous.points s).postedAt ≠ 0)) := by
  obtain ⟨order, P⟩ := hgood
  obtain ⟨l, hchain, hsub, hdesc⟩ := P.linked.chain P.pos P.top_mem
  simp only [World.pointAt_eq P.hub, World.postedAt_eq, World.latest_eq]
  refine ⟨l, hchain, hsub.nodup P.nodup, fun s hs => ⟨(P.mem s).1 (hsub.subset hs), ?_⟩⟩
  have htop : top (w.pools pool) (w.under cfg pool) ≠ 0 := by
    intro h0
    rw [h0] at hchain
    cases hchain with
    | nil => simp at hs
    | cons h _ => exact h rfl
  refine (hdesc (P.topDescends.resolve_left htop) s hs).imp id fun hboth => ?_
  by_cases hwrap : World.wraps cfg pool = true
  · rw [World.under, if_pos hwrap] at hboth
    exact ⟨hwrap, hboth⟩
  · rw [World.under, if_neg hwrap] at hboth
    exact absurd rfl hboth.2

end

/-- **The checkpoint chain ends at 0 and keeps the newest point.** For any calls on the two registries, at a pool whose
sizes are at most `2 ^ 32`: the newest count is the largest posted one and never decreases; the chain back from it meets
posted counts only, none twice, and ends; and each count on it is followed by a smaller one, unless both registries hold
that count. -/
theorem checkpoint_chain (H : Poseidon) (cfg : Config) (pool : Address) (calls more : List Call)
    (hsmall : ∀ c ∈ calls ++ more, ∀ q ∈ c.submissions cfg pool, q.Small) :
    let w := run H cfg calls
    ((∀ s, w.postedAt cfg pool s ≠ 0 → s ≤ w.latest cfg pool) ∧
      (w.latest cfg pool ≠ 0 → w.postedAt cfg pool (w.latest cfg pool) ≠ 0 ∧
        (w.pointAt cfg pool (w.latest cfg pool)).postedAt ≠ 0)) ∧
    w.latest cfg pool ≤ (run H cfg (calls ++ more)).latest cfg pool ∧
    ∃ l, BackChain (fun s => (w.pointAt cfg pool s).prev) (w.latest cfg pool) l ∧ l.Nodup ∧
      ∀ s ∈ l, w.postedAt cfg pool s ≠ 0 ∧ ((w.pointAt cfg pool s).prev < s ∨
        (World.wraps cfg pool = true ∧ ((w.pools pool).points s).postedAt ≠ 0 ∧ (w.previous.points s).postedAt ≠ 0)) := by
  intro w
  have hgood : w.Good cfg pool := (World.deployed_good.calls calls fun c hc => hsmall c (by simp [hc])).1
  have hle := (hgood.calls (H := H) more fun c hc => hsmall c (by simp [hc])).2
  refine ⟨hgood.newest, ?_, hgood.chain⟩
  rw [run, List.foldl_append]
  exact hle

/-! ## A chain that turns back -/

/-- A Poseidon to run the registries on. -/
def demoPoseidon : Poseidon := ⟨id, fun _ => 1⟩

/-- A submission whose edge the pool held at its count. -/
def heldAt (size : Nat) : Submission := ⟨size, 0, fun _ => 0, ⟨1, by decide, by decide⟩, fun _ => some size⟩

/-- The hub holds 4 behind its newest, 10; then the wrapped registry takes 4 and 20 of its own accord. -/
def turningCalls : List Call :=
  [.post 7 (heldAt 10), .post 7 (heldAt 4), .previousPost (heldAt 4), .previousPost (heldAt 20)]

theorem heldAt_small (size : Nat) (h : size ≤ 2 ^ 32) : (heldAt size).Small := by
  intro root n hn
  cases hn
  exact h

theorem turning_small : ∀ c ∈ turningCalls ++ [], ∀ q ∈ c.submissions ⟨7⟩ 7, q.Small := by
  intro c hc q hq
  simp only [turningCalls, List.append_nil, List.mem_cons, List.not_mem_nil, or_false] at hc
  rcases hc with rfl | rfl | rfl | rfl
  · exact (List.mem_singleton.1 hq : q = heldAt 10) ▸ heldAt_small 10 (by decide)
  · exact (List.mem_singleton.1 hq : q = heldAt 4) ▸ heldAt_small 4 (by decide)
  · exact (List.mem_singleton.1 hq : q = heldAt 4) ▸ heldAt_small 4 (by decide)
  · exact (List.mem_singleton.1 hq : q = heldAt 20) ▸ heldAt_small 20 (by decide)

theorem checkpoint_chain_turning :
    ∃ l, BackChain (fun s => ((run demoPoseidon ⟨7⟩ turningCalls).pointAt ⟨7⟩ 7 s).prev) 20 l ∧ l.Nodup := by
  obtain ⟨-, -, l, hchain, hnodup, -⟩ := checkpoint_chain demoPoseidon ⟨7⟩ 7 turningCalls [] turning_small
  exact ⟨l, hchain, hnodup⟩

/-- From 20 the chain goes to 4, whose point in the hub leads up to 10. -/
theorem chain_turns_up :
    let w := run demoPoseidon ⟨7⟩ turningCalls
    w.latest ⟨7⟩ 7 = 20 ∧ BackChain (fun s => (w.pointAt ⟨7⟩ 7 s).prev) 20 [20, 4, 10] ∧
      ¬ [20, 4, 10].Pairwise (· > ·) := by
  refine ⟨by decide, ?_, by decide⟩
  have hstep : ∀ {s t : Nat} {l : List Nat}, s ≠ 0 → ((run demoPoseidon ⟨7⟩ turningCalls).pointAt ⟨7⟩ 7 s).prev = t →
      BackChain (fun s => ((run demoPoseidon ⟨7⟩ turningCalls).pointAt ⟨7⟩ 7 s).prev) t l →
      BackChain (fun s => ((run demoPoseidon ⟨7⟩ turningCalls).pointAt ⟨7⟩ 7 s).prev) s (s :: l) := by
    rintro s t l hs rfl h
    exact .cons hs h
  exact hstep (by decide) (by decide : _ = 4) (hstep (by decide) (by decide : _ = 10) (hstep (by decide) (by decide) .nil))

end Checkpoints

end Tacit
