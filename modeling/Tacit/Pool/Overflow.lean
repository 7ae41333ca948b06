import Mathlib.Data.Finset.Card
import Tacit.Pool.Anchoring
/-!
# The overflow queue

Effects a cycle cannot surface are queued as the roots of chunks and applied when someone drains them. The
counter is the number of queued roots (`Overflow.Counted`). A root commits to its effects (`Carries`): what
the attests committed is, at any time, what was applied together with what the queue still carries. Applying
effects only ever adds terminals and first registrations, so the locks that can be minted depend on the set of
applied effects and not on their order.
-/
namespace Tacit

open Prog

namespace ReflectionLib

variable {K : Keccak}

/-! ## The counter -/

/-- `pendingOverflowChunks` is the number of roots whose entry is nonzero. -/
def Overflow.Counted (q : Overflow) : Prop := ∃ F : Finset Word, (∀ x, x ∈ F ↔ q.queue x ≠ 0) ∧ F.card = q.pending

theorem Overflow.Counted.pending_eq_zero {q : Overflow} (h : q.Counted) : q.pending = 0 ↔ ∀ x, q.queue x = 0 := by
  obtain ⟨F, hF, hcard⟩ := h
  rw [← hcard, Finset.card_eq_zero, Finset.eq_empty_iff_forall_notMem]
  constructor
  · intro h x
    by_contra hx
    exact h x ((hF x).2 hx)
  · intro h x hx
    exact (hF x).1 hx (h x)

theorem Overflow.Counted.pending_pos {q : Overflow} (h : q.Counted) {x : Word} (hx : q.queue x ≠ 0) : q.pending ≠ 0 :=
  fun h0 => hx (h.pending_eq_zero.1 h0 x)

theorem Overflow.Counted.enqueue {q : Overflow} (h : q.Counted) {level : Nat} (hl : level ≠ 0) (root : Word) :
    (q.enqueue level root).Counted := by
  unfold Overflow.enqueue
  split
  · next hr =>
    obtain ⟨F, hF, hcard⟩ := h
    have hnew : root ∉ F := fun hx => (hF root).1 hx hr.2
    refine ⟨insert root F, ?_, ?_⟩
    · intro x
      by_cases e : x = root
      · simp [e, hl]
      · simp [e, hF x]
    · rw [Finset.card_insert_of_notMem hnew, hcard]
  · exact h

theorem Overflow.Counted.enqueueAll {level : Nat} (hl : level ≠ 0) (roots : List Word) {q : Overflow} (h : q.Counted) :
    (roots.foldl (Overflow.enqueue · level) q).Counted := by
  induction roots generalizing q with
  | nil => exact h
  | cons x roots ih => exact ih (h.enqueue hl x)

/-- Deleting a queued entry and the unchecked decrement agree. -/
theorem Overflow.Counted.dequeue {q : Overflow} (h : q.Counted) {root : Word} (hr : q.queue root ≠ 0) :
    (q.dequeue root).Counted := by
  have hpos := h.pending_pos hr
  obtain ⟨F, hF, hcard⟩ := h
  refine ⟨F.erase root, ?_, ?_⟩
  · intro x
    by_cases e : x = root
    · simp [Overflow.dequeue, e]
    · simp [Overflow.dequeue, e, hF x]
  · rw [Finset.card_erase_of_mem ((hF root).2 hr), hcard]
    simp [Overflow.dequeue, hpos]

/-! ## The queued roots -/

theorem Overflow.queue_enqueue {q : Overflow} {level : Nat} (hl : level ≠ 0) (root x : Word) :
    (q.enqueue level root).queue x ≠ 0 ↔ q.queue x ≠ 0 ∨ x = root ∧ x ≠ 0 := by
  unfold Overflow.enqueue
  split
  · next hr =>
    by_cases e : x = root
    · simp [e, hl, hr.1]
    · simp [e]
  · next hr =>
    by_cases e : x = root
    · subst e
      by_cases h0 : x = 0
      · simp [h0]
      · have : q.queue x ≠ 0 := fun h => hr ⟨h0, h⟩
        simp [this]
    · simp [e]

theorem Overflow.queue_enqueueAll {level : Nat} (hl : level ≠ 0) (roots : List Word) {q : Overflow} (x : Word) :
    (roots.foldl (Overflow.enqueue · level) q).queue x ≠ 0 ↔ q.queue x ≠ 0 ∨ x ∈ roots ∧ x ≠ 0 := by
  induction roots generalizing q with
  | nil => simp
  | cons r roots ih =>
    rw [List.foldl_cons, ih, Overflow.queue_enqueue hl, List.mem_cons]
    tauto

theorem Overflow.queue_dequeue {q : Overflow} (root x : Word) :
    (q.dequeue root).queue x ≠ 0 ↔ q.queue x ≠ 0 ∧ x ≠ root := by
  by_cases e : x = root
  · simp [Overflow.dequeue, e]
  · simp [Overflow.dequeue, e]

/-! ## What a root commits to -/

/-- A lock effect, surfaced or deferred. -/
inductive Effect
  | lock (f : CbtcLockFolded)
  | spend (o : Word)
  | redeem (o : Word)

/-- A deferred value is a `uint64`. -/
def Effect.Fits : Effect → Prop
  | .lock f => f.vBtc < 2 ^ 64
  | _ => True

def effectLeaf (K : Keccak) : Effect → Word
  | .lock f => lockLeaf K f
  | .spend o => terminalLeaf K true o
  | .redeem o => terminalLeaf K false o

def wrapLeaf (K : Keccak) (r : Word) : Word := K.kn [[0x06], r.bytes]

/-- `x` commits to the effect `e`, directly or through wrapped roots. -/
inductive Carries (K : Keccak) : Word → Effect → Prop
  | item {l : List Word} {e : Effect} : effectLeaf K e ∈ l → e.Fits → Carries K (chainRoot K l) e
  | sub {l : List Word} {y : Word} {e : Effect} : wrapLeaf K y ∈ l → Carries K y e → Carries K (chainRoot K l) e

theorem chainRoot_concat (l : List Word) (x : Word) : chainRoot K (l ++ [x]) = K.k2 (chainRoot K l) x := by
  simp [chainRoot]

theorem chainRoot_injective (hK : K.Ideal) : Function.Injective (chainRoot K) := by
  intro l
  induction l using List.reverseRecOn with
  | nil =>
    intro l' h
    induction l' using List.reverseRecOn with
    | nil => rfl
    | append_singleton l' x _ =>
      rw [chainRoot_concat] at h
      exact absurd h.symm (hK.kn_ne_zero _)
  | append_singleton l x ih =>
    intro l' h
    induction l' using List.reverseRecOn with
    | nil =>
      rw [chainRoot_concat] at h
      exact absurd h (hK.kn_ne_zero _)
    | append_singleton l' x' _ =>
      rw [chainRoot_concat, chainRoot_concat] at h
      obtain ⟨h₁, rfl⟩ := hK.k2_injective h
      rw [ih h₁]

theorem carries_chainRoot (hK : K.Ideal) {l : List Word} {e : Effect} :
    Carries K (chainRoot K l) e ↔ (effectLeaf K e ∈ l ∧ e.Fits) ∨ ∃ y, wrapLeaf K y ∈ l ∧ Carries K y e := by
  constructor
  · intro h
    generalize hx : chainRoot K l = x at h
    cases h with
    | item he hf => rw [chainRoot_injective hK hx]; exact Or.inl ⟨he, hf⟩
    | sub hy hc => rw [chainRoot_injective hK hx]; exact Or.inr ⟨_, hy, hc⟩
  · rintro (⟨he, hf⟩ | ⟨y, hy, hc⟩)
    · exact .item he hf
    · exact .sub hy hc

theorem not_carries_zero (hK : K.Ideal) {e : Effect} : ¬ Carries K 0 e := by
  intro h
  rw [show (0 : Word) = chainRoot K [] from rfl, carries_chainRoot hK] at h
  simp at h

/-- The effects of a chunk. -/
def Chunk.effects (c : Chunk) : List Effect :=
  c.spends.map .spend ++ c.redeems.map .redeem ++ c.locks.map .lock

/-- The first byte of a leaf's preimage is its kind. -/
theorem tag_of_kn_eq (hK : K.Ideal) {a b : Nat} {p q : List Bytes} (h : K.kn ([a] :: p) = K.kn ([b] :: q)) : a = b := by
  have := hK.injective h
  simp only [List.flatten_cons, List.singleton_append, List.cons.injEq] at this
  exact this.1

theorem terminalLeaf_inj (hK : K.Ideal) {b b' : Bool} {o o' : Word} (h : terminalLeaf K b o = terminalLeaf K b' o') :
    b = b' ∧ o = o' := by
  have htag := tag_of_kn_eq hK h
  have hparts := hK.kn_inj (by simp [o.len, o'.len]) h
  simp only [List.cons.injEq, and_true] at hparts
  refine ⟨?_, Word.ext hparts.2⟩
  cases b <;> cases b' <;> simp_all

theorem lockLeaf_inj (hK : K.Ideal) {f g : CbtcLockFolded} (hf : f.vBtc < 2 ^ 64) (hg : g.vBtc < 2 ^ 64)
    (h : lockLeaf K f = lockLeaf K g) : f = g := by
  have hparts := hK.kn_inj (by simp [f.outpoint.len, g.outpoint.len, f.commitment.len, g.commitment.len]) h
  simp only [List.cons.injEq, and_true, true_and] at hparts
  obtain ⟨ho, hv, hc⟩ := hparts
  have hval := beBytes_inj (n := 8) (by omega) (by omega) hv
  rw [Nat.mod_eq_of_lt hf, Nat.mod_eq_of_lt hg] at hval
  cases f
  cases g
  simp_all [Word.ext_iff]

/-- A leaf of calls is tagged as one. -/
theorem callLeaves_tag {x : Word} : ∀ {l : List Word}, x ∈ callLeaves K l → ∃ p, x = K.kn ([0x03] :: p)
  | [], h => by simp [callLeaves] at h
  | [_], h => by simp [callLeaves] at h
  | a :: b :: l, h => by
    rw [callLeaves] at h
    rcases List.mem_cons.1 h with rfl | h
    · exact ⟨_, rfl⟩
    · exact callLeaves_tag h

/-- The kind byte of an effect's leaf. -/
def Effect.tag : Effect → Nat
  | .lock _ => 0x01
  | .spend _ => 0x04
  | .redeem _ => 0x05

theorem effectLeaf_tag (e : Effect) : ∃ p, effectLeaf K e = K.kn ([e.tag] :: p) := by
  cases e with
  | lock f => exact ⟨_, rfl⟩
  | spend o => exact ⟨_, rfl⟩
  | redeem o => exact ⟨_, rfl⟩

theorem effectLeaf_inj (hK : K.Ideal) {e e' : Effect} (he : e.Fits) (he' : e'.Fits)
    (h : effectLeaf K e = effectLeaf K e') : e = e' := by
  obtain ⟨p, hp⟩ := effectLeaf_tag (K := K) e
  obtain ⟨q, hq⟩ := effectLeaf_tag (K := K) e'
  have htag : e.tag = e'.tag := tag_of_kn_eq hK (hp.symm.trans (h.trans hq))
  cases e with
  | lock f =>
    cases e' with
    | lock g => rw [lockLeaf_inj hK he he' h]
    | spend o => cases htag
    | redeem o => cases htag
  | spend o =>
    cases e' with
    | lock g => cases htag
    | spend o' => rw [(terminalLeaf_inj hK h).2]
    | redeem o' => cases htag
  | redeem o =>
    cases e' with
    | lock g => cases htag
    | spend o' => cases htag
    | redeem o' => rw [(terminalLeaf_inj hK h).2]

/-- The leaves of a chunk: its effects', then leaves of other kinds. -/
theorem Chunk.mem_leaves {c : Chunk} {x : Word} (hx : x ∈ c.leaves K) :
    (∃ e ∈ c.effects, x = effectLeaf K e) ∨ ∃ a p, (a = 0x02 ∨ a = 0x03) ∧ x = K.kn ([a] :: p) := by
  simp only [Chunk.leaves, List.mem_append, List.mem_map] at hx
  rcases hx with (((⟨o, ho, rfl⟩ | ⟨o, ho, rfl⟩) | ⟨f, hf, rfl⟩) | ⟨m, hm, rfl⟩) | h
  · exact Or.inl ⟨.spend o, by simp [Chunk.effects, ho], rfl⟩
  · exact Or.inl ⟨.redeem o, by simp [Chunk.effects, ho], rfl⟩
  · exact Or.inl ⟨.lock f, by simp [Chunk.effects, hf], rfl⟩
  · exact Or.inr ⟨0x02, _, Or.inl rfl, rfl⟩
  · obtain ⟨p, rfl⟩ := callLeaves_tag h
    exact Or.inr ⟨0x03, p, Or.inr rfl, rfl⟩

theorem Chunk.effectLeaf_mem {c : Chunk} {e : Effect} (he : e ∈ c.effects) : effectLeaf K e ∈ c.leaves K := by
  simp only [Chunk.effects, List.mem_append, List.mem_map] at he
  rcases he with (⟨o, ho, rfl⟩ | ⟨o, ho, rfl⟩) | ⟨f, hf, rfl⟩
  · simp only [Chunk.leaves, List.mem_append, List.mem_map]
    exact Or.inl (Or.inl (Or.inl (Or.inl ⟨o, ho, rfl⟩)))
  · simp only [Chunk.leaves, List.mem_append, List.mem_map]
    exact Or.inl (Or.inl (Or.inl (Or.inr ⟨o, ho, rfl⟩)))
  · simp only [Chunk.leaves, List.mem_append, List.mem_map]
    exact Or.inl (Or.inl (Or.inr ⟨f, hf, rfl⟩))

/-- **A chunk's root commits to its effects**, and to nothing else. -/
theorem carries_chunk (hK : K.Ideal) {c : Chunk} (hc : ∀ f ∈ c.locks, f.vBtc < 2 ^ 64) {e : Effect} :
    Carries K (c.root K) e ↔ e ∈ c.effects := by
  have hfits : ∀ e ∈ c.effects, e.Fits := by
    intro e he
    simp only [Chunk.effects, List.mem_append, List.mem_map] at he
    rcases he with (⟨o, -, rfl⟩ | ⟨o, -, rfl⟩) | ⟨f, hf, rfl⟩
    · trivial
    · trivial
    · exact hc f hf
  rw [Chunk.root, carries_chainRoot hK]
  constructor
  · rintro (⟨he, hf⟩ | ⟨y, hy, -⟩)
    · rcases Chunk.mem_leaves he with ⟨e', he', heq⟩ | ⟨a, p, ha, heq⟩
      · rwa [effectLeaf_inj hK hf (hfits e' he') heq]
      · obtain ⟨q, hq⟩ := effectLeaf_tag (K := K) e
        have := tag_of_kn_eq hK (hq.symm.trans heq)
        cases e <;> simp [Effect.tag] at this <;> omega
    · -- a wrapped root has a kind of its own
      rcases Chunk.mem_leaves hy with ⟨e', -, heq⟩ | ⟨a, p, ha, heq⟩
      · obtain ⟨q, hq⟩ := effectLeaf_tag (K := K) e'
        have := tag_of_kn_eq hK (heq.trans hq)
        cases e' <;> cases this
      · have := tag_of_kn_eq hK heq
        omega
  · intro he
    exact Or.inl ⟨Chunk.effectLeaf_mem he, hfits e he⟩

theorem wrapLeaf_inj (hK : K.Ideal) {x y : Word} (h : wrapLeaf K x = wrapLeaf K y) : x = y := by
  have hparts := hK.kn_inj (by simp [x.len, y.len]) h
  simp only [List.cons.injEq, and_true, true_and] at hparts
  exact Word.ext hparts

/-- **A wrapped root commits to what its subroots commit to.** -/
theorem carries_metaRoot (hK : K.Ideal) {subroots : List Word} {e : Effect} :
    Carries K (metaRoot K subroots) e ↔ ∃ y ∈ subroots, Carries K y e := by
  have hmap : metaRoot K subroots = chainRoot K (subroots.map (wrapLeaf K)) := rfl
  rw [hmap, carries_chainRoot hK]
  constructor
  · rintro (⟨he, -⟩ | ⟨y, hy, hc⟩)
    · obtain ⟨r, -, hr⟩ := List.mem_map.1 he
      obtain ⟨q, hq⟩ := effectLeaf_tag (K := K) e
      have := tag_of_kn_eq hK (hr.trans hq)
      cases e <;> cases this
    · obtain ⟨r, hr, heq⟩ := List.mem_map.1 hy
      exact ⟨y, wrapLeaf_inj hK heq ▸ hr, hc⟩
  · rintro ⟨y, hy, hc⟩
    exact Or.inr ⟨y, List.mem_map_of_mem hy, hc⟩

/-! ## What the applied effects leave -/

/-- The lock a mint may be made against: value and commitment (the gate of the cBTC mint in `_settle`). -/
def Locks.mintable (l : Locks) (o : Word) : Option (Nat × Word) :=
  if l.vBtc o ≠ 0 ∧ l.terminal o = false then some (l.vBtc o, l.commitment o) else none

/-- `o` is spent or redeemed by one of the effects. -/
def Ends (E : List Effect) (o : Word) : Prop := o ≠ 0 ∧ (.spend o ∈ E ∨ .redeem o ∈ E)

/-- `l` is `l₀` after the effects `E`: the terminals are the old ones and those of `E`; a lock that is not
terminal keeps an old registration, and without one has a registration of `E` as soon as there is any. -/
structure Locks.After (l₀ : Locks) (E : List Effect) (l : Locks) : Prop where
  terminal : ∀ o, l.terminal o = true ↔ l₀.terminal o = true ∨ Ends E o
  kept : ∀ o, l.terminal o = false → l₀.vBtc o ≠ 0 → l.vBtc o = l₀.vBtc o ∧ l.commitment o = l₀.commitment o
  registered : ∀ o, l.terminal o = false → l₀.vBtc o = 0 → l.vBtc o ≠ 0 →
    o ≠ 0 ∧ ∃ f, .lock f ∈ E ∧ f.outpoint = o ∧ f.vBtc = l.vBtc o ∧ f.commitment = l.commitment o
  complete : ∀ f, .lock f ∈ E → f.outpoint ≠ 0 → l.terminal f.outpoint = false → l.vBtc f.outpoint ≠ 0

theorem Locks.After.refl (l : Locks) : Locks.After l [] l where
  terminal o := by simp [Ends]
  kept o _ _ := ⟨rfl, rfl⟩
  registered o _ h h' := absurd h h'
  complete f hf := by simp at hf

/-- A terminal effect on `o`. -/
theorem Locks.After.end {l₀ l l' : Locks} {E : List Effect} (h : l₀.After E l) {o : Word} {e : Effect}
    (he : e = .spend o ∨ e = .redeem o) (hv : l'.vBtc = l.vBtc) (hc : l'.commitment = l.commitment)
    (ht : ∀ x, l'.terminal x = true ↔ l.terminal x = true ∨ x = o ∧ o ≠ 0) : l₀.After (E ++ [e]) l' := by
  have alive : ∀ x, l'.terminal x = false → l.terminal x = false := by
    intro x hx
    by_contra hb
    rw [Bool.not_eq_false] at hb
    rw [(ht x).2 (Or.inl hb)] at hx
    cases hx
  refine ⟨?_, ?_, ?_, ?_⟩
  · intro x
    rw [ht x, h.terminal x]
    rcases he with rfl | rfl
    · simp only [Ends, List.mem_append, List.mem_singleton, Effect.spend.injEq, reduceCtorEq, or_false]
      constructor
      · rintro ((h' | ⟨h0, h'⟩) | ⟨rfl, h0⟩)
        · exact Or.inl h'
        · exact Or.inr ⟨h0, by tauto⟩
        · exact Or.inr ⟨h0, Or.inl (Or.inr rfl)⟩
      · rintro (h' | ⟨h0, (h' | rfl) | h'⟩)
        · exact Or.inl (Or.inl h')
        · exact Or.inl (Or.inr ⟨h0, Or.inl h'⟩)
        · exact Or.inr ⟨rfl, h0⟩
        · exact Or.inl (Or.inr ⟨h0, Or.inr h'⟩)
    · simp only [Ends, List.mem_append, List.mem_singleton, Effect.redeem.injEq, reduceCtorEq, or_false]
      constructor
      · rintro ((h' | ⟨h0, h'⟩) | ⟨rfl, h0⟩)
        · exact Or.inl h'
        · exact Or.inr ⟨h0, by tauto⟩
        · exact Or.inr ⟨h0, Or.inr (Or.inr rfl)⟩
      · rintro (h' | ⟨h0, h' | h' | rfl⟩)
        · exact Or.inl (Or.inl h')
        · exact Or.inl (Or.inr ⟨h0, Or.inl h'⟩)
        · exact Or.inl (Or.inr ⟨h0, Or.inr h'⟩)
        · exact Or.inr ⟨rfl, h0⟩
  · intro x hx h0
    rw [hv, hc]
    exact h.kept x (alive x hx) h0
  · intro x hx h0 hne
    rw [hv] at hne ⊢
    rw [hc]
    obtain ⟨hx0, f, hf, hrest⟩ := h.registered x (alive x hx) h0 hne
    exact ⟨hx0, f, by simp [hf], hrest⟩
  · intro f hf hfo hx
    have hf' : .lock f ∈ E := by
      rcases he with rfl | rfl <;> simpa using hf
    rw [hv]
    exact h.complete f hf' hfo (alive _ hx)

theorem Locks.After.spend {l₀ l : Locks} {E : List Effect} (h : l₀.After E l) (o : Word) :
    l₀.After (E ++ [.spend o]) (l.spend o) := by
  apply h.end (Or.inl rfl)
  · unfold Locks.spend; split <;> rfl
  · unfold Locks.spend; split <;> rfl
  · intro x
    unfold Locks.spend
    split
    · next hskip =>
      constructor
      · exact Or.inl
      · rintro (h' | ⟨rfl, h0⟩)
        · exact h'
        · tauto
    · next hnew =>
      by_cases e : x = o
      · subst e
        simp only [not_or] at hnew
        simp [Locks.terminal, hnew.1]
      · simp [Locks.terminal, e]

theorem Locks.After.redeem {l₀ l : Locks} {E : List Effect} (h : l₀.After E l) (o : Word) :
    l₀.After (E ++ [.redeem o]) (l.redeem o) := by
  apply h.end (Or.inr rfl)
  · unfold Locks.redeem; split <;> rfl
  · unfold Locks.redeem; split <;> rfl
  · intro x
    unfold Locks.redeem
    split
    · next hskip =>
      constructor
      · exact Or.inl
      · rintro (h' | ⟨rfl, h0⟩)
        · exact h'
        · tauto
    · next hnew =>
      by_cases e : x = o
      · subst e
        simp only [not_or] at hnew
        simp [Locks.terminal, hnew.1]
      · simp [Locks.terminal, e]

/-- A registration: skipped where the outpoint is terminal or has one. -/
theorem Locks.After.register {l₀ l : Locks} {E : List Effect} (h : l₀.After E l) {f : CbtcLockFolded}
    (hf : f.vBtc ≠ 0) : l₀.After (E ++ [.lock f]) (l.register f) := by
  have hterm : ∀ x, (l.register f).terminal x = l.terminal x := by
    intro x
    unfold Locks.register
    split <;> rfl
  refine ⟨?_, ?_, ?_, ?_⟩
  · intro x
    rw [hterm x, h.terminal x]
    simp [Ends]
  · intro x hx h0
    rw [hterm x] at hx
    obtain ⟨hv, hc⟩ := h.kept x hx h0
    unfold Locks.register
    split
    · exact ⟨hv, hc⟩
    · next hnew =>
      have e : x ≠ f.outpoint := by
        rintro rfl
        exact hnew (Or.inr (Or.inl (hv ▸ h0)))
      simp [e, hv, hc]
  · intro x hx h0 hne
    rw [hterm x] at hx
    unfold Locks.register at hne ⊢
    split at hne
    · next hskip =>
      obtain ⟨hx0, g, hg, hrest⟩ := h.registered x hx h0 hne
      rw [if_pos hskip]
      exact ⟨hx0, g, by simp [hg], hrest⟩
    · next hnew =>
      rw [if_neg hnew]
      by_cases e : x = f.outpoint
      · subst e
        exact ⟨fun e => hnew (Or.inl e), f, by simp, rfl, by simp, by simp⟩
      · simp only [Function.update_of_ne e] at hne ⊢
        obtain ⟨hx0, g, hg, hrest⟩ := h.registered x hx h0 hne
        exact ⟨hx0, g, by simp [hg], hrest⟩
  · intro g hg hgo hx
    rw [hterm] at hx
    have hold : l.vBtc g.outpoint ≠ 0 → (l.register f).vBtc g.outpoint ≠ 0 := by
      intro hne
      unfold Locks.register
      split
      · exact hne
      · by_cases e : g.outpoint = f.outpoint
        · simp [e, hf]
        · simpa [e] using hne
    rcases List.mem_append.1 hg with hg | hg
    · exact hold (h.complete g hg hgo hx)
    · obtain rfl : g = f := by simpa using hg
      by_cases hne : l.vBtc g.outpoint = 0
      · unfold Locks.register
        rw [if_neg (by simp [hgo, hne, hx])]
        simpa using hf
      · exact hold hne

/-- A loop of effects of one kind. -/
theorem Locks.After.foldl {β : Type} {l₀ : Locks} {step : Locks → β → Locks} (mk : β → Effect) (items : List β)
    (hstep : ∀ b ∈ items, ∀ {l : Locks} {E : List Effect}, l₀.After E l → l₀.After (E ++ [mk b]) (step l b))
    {l : Locks} {E : List Effect} (h : l₀.After E l) : l₀.After (E ++ items.map mk) (items.foldl step l) := by
  induction items generalizing l E with
  | nil => simpa using h
  | cons b items ih =>
    have := ih (fun c hc => hstep c (by simp [hc])) (hstep b (by simp) h)
    simpa using this

/-- One outpoint is registered with one value and commitment. -/
def SingleValued (E : List Effect) : Prop :=
  ∀ f g, .lock f ∈ E → .lock g ∈ E → f.outpoint = g.outpoint → f = g

/-- With the same effects, a lock registered on one side is registered alike on the other. -/
theorem Locks.After.vBtc_eq {l₀ l l' : Locks} {E E' : List Effect} (h : l₀.After E l) (h' : l₀.After E' l')
    (hE : ∀ e, e ∈ E ↔ e ∈ E') (hsingle : SingleValued E) {o : Word} (ht : l.terminal o = false)
    (ht' : l'.terminal o = false) (h0 : l₀.vBtc o = 0) (hne : l.vBtc o ≠ 0) :
    l'.vBtc o = l.vBtc o ∧ l'.commitment o = l.commitment o := by
  obtain ⟨ho, f, hf, hfo, hv, hc⟩ := h.registered o ht h0 hne
  have hne' : l'.vBtc o ≠ 0 := by
    rw [← hfo] at ho ht' ⊢
    exact h'.complete f ((hE _).1 hf) ho ht'
  obtain ⟨-, g, hg, hgo, hv', hc'⟩ := h'.registered o ht' h0 hne'
  obtain rfl : f = g := hsingle f g hf ((hE _).2 hg) (hfo.trans hgo.symm)
  exact ⟨hv'.symm.trans hv, hc'.symm.trans hc⟩

/-- **Order does not matter**: the mintable locks are a function of the set of effects. -/
theorem Locks.After.mintable_eq {l₀ l l' : Locks} {E E' : List Effect} (h : l₀.After E l) (h' : l₀.After E' l')
    (hE : ∀ e, e ∈ E ↔ e ∈ E') (hsingle : SingleValued E) (o : Word) : l.mintable o = l'.mintable o := by
  have hterm : l.terminal o = l'.terminal o := by
    rw [Bool.eq_iff_iff, h.terminal o, h'.terminal o]
    simp only [Ends, hE]
  unfold Locks.mintable
  rw [← hterm]
  cases ht : l.terminal o with
  | true => simp
  | false =>
    have ht' := hterm.symm.trans ht
    by_cases h0 : l₀.vBtc o = 0
    · have hsingle' : SingleValued E' := fun f g hf hg => hsingle f g ((hE _).2 hf) ((hE _).2 hg)
      by_cases hne : l.vBtc o = 0
      · have hne' : l'.vBtc o = 0 := by
          by_contra hb
          exact hb ((h'.vBtc_eq h (fun e => (hE e).symm) hsingle' ht' ht h0 hb).1.symm.trans hne)
        simp [hne, hne']
      · obtain ⟨hv, hc⟩ := h.vBtc_eq h' hE hsingle ht ht' h0 hne
        rw [hv, hc]
    · obtain ⟨hv, hc⟩ := h.kept o ht h0
      obtain ⟨hv', hc'⟩ := h'.kept o ht' h0
      rw [hv, hc, hv', hc']

/-! ## Calls -/

/-- A call on the queue, with any inputs. -/
inductive QueueCall
  | attest (cfg : Config) (verified : Bool) (r : BitcoinRelayPublicValues)
  | drainOverflow (c : Chunk)
  | drainOverflowRoots (subroots : List Word) (level : Nat)

namespace QueueCall

def prog (K : Keccak) : QueueCall → Prog Storage PoolError (List AssetMeta)
  | attest cfg verified r => ReflectionLib.attest K cfg verified r
  | drainOverflow c => ReflectionLib.drainOverflow K c
  | drainOverflowRoots subroots level => do
    ReflectionLib.drainOverflowRoots K subroots level
    return []

/-- The effects the call applies, in its order. -/
def effects : QueueCall → List Effect
  | attest _ _ r => r.cbtcLocksFolded.map .lock ++ r.cbtcLocksSpent.map .spend ++ r.cbtcLocksRedeemed.map .redeem
  | drainOverflow c => c.effects
  | drainOverflowRoots _ _ => []

/-- The root the call takes from the queue. -/
def drained (K : Keccak) : QueueCall → Option Word
  | attest _ _ _ => none
  | drainOverflow c => some (c.root K)
  | drainOverflowRoots subroots _ => some (metaRoot K subroots)

/-- The roots the call queues. -/
def queued : QueueCall → List Word
  | attest _ _ r => r.overflowRoots
  | drainOverflow _ => []
  | drainOverflowRoots subroots _ => subroots

/-- The effects an attest commits to: those it surfaces and those its roots carry. -/
def Commits (K : Keccak) : QueueCall → Effect → Prop
  | attest cfg verified r, e => e ∈ (attest cfg verified r).effects ∨ ∃ x ∈ r.overflowRoots, Carries K x e
  | _, _ => False

end QueueCall

/-- The queue carries the effect `e`. -/
def Storage.Carries (K : Keccak) (s : Storage) (e : Effect) : Prop :=
  ∃ x, s.overflow.queue x ≠ 0 ∧ ReflectionLib.Carries K x e

/-- What an accepted call does to the queue and the locks. -/
structure QueueCall.Does (K : Keccak) (q : QueueCall) (s t : Storage) : Prop where
  counted : s.overflow.Counted → t.overflow.Counted
  drained : ∀ x, q.drained K = some x → s.overflow.queue x ≠ 0
  queue : ∀ x, t.overflow.queue x ≠ 0 ↔
    (s.overflow.queue x ≠ 0 ∧ q.drained K ≠ some x) ∨ (x ∈ q.queued ∧ x ≠ 0)
  locks : ∀ {l₀ E}, Locks.After l₀ E s.locks → l₀.After (E ++ q.effects) t.locks
  committed : ∀ e, s.Carries K e ∨ q.Commits K e ↔ e ∈ q.effects ∨ t.Carries K e

theorem attest_does (hK : K.Ideal) {cfg : Config} {verified : Bool} {r : BitcoinRelayPublicValues} {s t : Storage}
    {metas : List AssetMeta} (hok : attest K cfg verified r s = .ok metas t) :
    (QueueCall.attest cfg verified r).Does K s t := by
  obtain ⟨-, -, -, -, hvalues, -, -, hlocks, hqueue⟩ := attest_ok hok
  have hl : (if r.overflowRootLevel = 0 then 1 else r.overflowRootLevel) ≠ 0 := by
    split <;> omega
  have hq : ∀ x, t.overflow.queue x ≠ 0 ↔ s.overflow.queue x ≠ 0 ∨ (x ∈ r.overflowRoots ∧ x ≠ 0) := by
    intro x
    rw [hqueue]
    exact Overflow.queue_enqueueAll hl _ x
  refine ⟨?_, ?_, ?_, ?_, ?_⟩
  · intro hc
    rw [hqueue]
    exact hc.enqueueAll hl _
  · intro x hx
    cases hx
  · intro x
    rw [hq x]
    simp [QueueCall.drained, QueueCall.queued]
  · intro l₀ E h
    rw [hlocks]
    have h₁ := Locks.After.foldl .lock r.cbtcLocksFolded
      (fun f hf {_ _} h => Locks.After.register h (hvalues f hf).1) h
    have h₂ := Locks.After.foldl .spend r.cbtcLocksSpent (fun o _ {_ _} h => h.spend o) h₁
    have h₃ := Locks.After.foldl .redeem r.cbtcLocksRedeemed (fun o _ {_ _} h => h.redeem o) h₂
    simpa [QueueCall.effects] using h₃
  · intro e
    constructor
    · rintro (⟨x, hx, hc⟩ | he | ⟨x, hx, hc⟩)
      · exact Or.inr ⟨x, (hq x).2 (Or.inl hx), hc⟩
      · exact Or.inl he
      · have h0 : x ≠ 0 := fun h0 => not_carries_zero hK (h0 ▸ hc)
        exact Or.inr ⟨x, (hq x).2 (Or.inr ⟨hx, h0⟩), hc⟩
    · rintro (he | ⟨x, hx, hc⟩)
      · exact Or.inr (Or.inl he)
      · rcases (hq x).1 hx with hx | ⟨hx, -⟩
        · exact Or.inl ⟨x, hx, hc⟩
        · exact Or.inr (Or.inr ⟨x, hx, hc⟩)

theorem drainOverflow_does (hK : K.Ideal) {c : Chunk} {s t : Storage} {metas : List AssetMeta}
    (hok : drainOverflow K c s = .ok metas t) : (QueueCall.drainOverflow c).Does K s t := by
  simp only [drainOverflow, bind_eq_ok, get_eq_ok, check_eq_ok, modify_eq_ok, pure_eq_ok, forEach_check_eq_ok] at hok
  obtain ⟨_, _, ⟨-, rfl⟩, _, _, ⟨hvalues, rfl⟩, _, _, ⟨rfl, rfl⟩, _, s₀, ⟨hlevel, rfl⟩, _, _, rfl, -, rfl⟩ := hok
  have hroot : s₀.overflow.queue (c.root K) ≠ 0 := by
    have : s₀.overflow.queue (c.root K) = 1 := not_not.1 hlevel
    omega
  have hfits : ∀ f ∈ c.locks, f.vBtc < 2 ^ 64 := by
    intro f hf
    have := hvalues f hf
    omega
  refine ⟨?_, ?_, ?_, ?_, ?_⟩
  · intro hc
    exact hc.dequeue hroot
  · intro x hx
    cases hx
    exact hroot
  · intro x
    rw [Overflow.queue_dequeue]
    simp [QueueCall.drained, QueueCall.queued, eq_comm]
  · intro l₀ E h
    have h₁ := Locks.After.foldl .spend c.spends (fun o _ {_ _} h => h.spend o) h
    have h₂ := Locks.After.foldl .redeem c.redeems (fun o _ {_ _} h => h.redeem o) h₁
    have h₃ := Locks.After.foldl .lock c.locks
      (fun f hf {_ _} h => Locks.After.register h fun e => hvalues f hf (Or.inl e)) h₂
    simpa [QueueCall.effects, Chunk.effects] using h₃
  · intro e
    constructor
    · rintro (⟨x, hx, hc⟩ | h)
      · by_cases ex : x = c.root K
        · subst ex
          exact Or.inl ((carries_chunk hK hfits).1 hc)
        · exact Or.inr ⟨x, (Overflow.queue_dequeue _ x).2 ⟨hx, ex⟩, hc⟩
      · cases h
    · rintro (he | ⟨x, hx, hc⟩)
      · exact Or.inl ⟨c.root K, hroot, (carries_chunk hK hfits).2 he⟩
      · exact Or.inl ⟨x, ((Overflow.queue_dequeue _ x).1 hx).1, hc⟩

theorem drainOverflowRoots_does (hK : K.Ideal) {subroots : List Word} {level : Nat} {s t : Storage} {u : Unit}
    (hok : drainOverflowRoots K subroots level s = .ok u t) : (QueueCall.drainOverflowRoots subroots level).Does K s t := by
  simp only [drainOverflowRoots, bind_eq_ok, get_eq_ok, check_eq_ok, modify_eq_ok] at hok
  obtain ⟨_, _, ⟨hlevel, rfl⟩, _, _, ⟨rfl, rfl⟩, _, s₀, ⟨hqueued, rfl⟩, rfl⟩ := hok
  have hroot : s₀.overflow.queue (metaRoot K subroots) ≠ 0 := by
    have : s₀.overflow.queue (metaRoot K subroots) = level := not_not.1 hqueued
    omega
  have hl : level - 1 ≠ 0 := by omega
  have hq : ∀ x, (subroots.foldl (Overflow.enqueue · (level - 1)) (s₀.overflow.dequeue (metaRoot K subroots))).queue x ≠ 0 ↔
      (s₀.overflow.queue x ≠ 0 ∧ x ≠ metaRoot K subroots) ∨ (x ∈ subroots ∧ x ≠ 0) := by
    intro x
    rw [Overflow.queue_enqueueAll hl, Overflow.queue_dequeue]
  refine ⟨?_, ?_, ?_, ?_, ?_⟩
  · intro hc
    exact (hc.dequeue hroot).enqueueAll hl _
  · intro x hx
    cases hx
    exact hroot
  · intro x
    rw [hq x]
    simp [QueueCall.drained, QueueCall.queued, eq_comm]
  · intro l₀ E h
    simpa [QueueCall.effects] using h
  · intro e
    constructor
    · rintro (⟨x, hx, hc⟩ | h)
      · by_cases ex : x = metaRoot K subroots
        · subst ex
          obtain ⟨y, hy, hcy⟩ := (carries_metaRoot hK).1 hc
          have h0 : y ≠ 0 := fun h0 => not_carries_zero hK (h0 ▸ hcy)
          exact Or.inr ⟨y, (hq y).2 (Or.inr ⟨hy, h0⟩), hcy⟩
        · exact Or.inr ⟨x, (hq x).2 (Or.inl ⟨hx, ex⟩), hc⟩
      · cases h
    · rintro (he | ⟨x, hx, hc⟩)
      · simp [QueueCall.effects] at he
      · rcases (hq x).1 hx with ⟨hx, -⟩ | ⟨hx, -⟩
        · exact Or.inl ⟨x, hx, hc⟩
        · exact Or.inl ⟨metaRoot K subroots, hroot, (carries_metaRoot hK).2 ⟨x, hx, hc⟩⟩

theorem QueueCall.does (hK : K.Ideal) {q : QueueCall} {s t : Storage} {metas : List AssetMeta}
    (hok : q.prog K s = .ok metas t) : q.Does K s t := by
  cases q with
  | attest cfg verified r => exact attest_does hK hok
  | drainOverflow c => exact drainOverflow_does hK hok
  | drainOverflowRoots subroots level =>
    simp only [QueueCall.prog, bind_eq_ok, pure_eq_ok] at hok
    obtain ⟨u, t', hok, -, rfl⟩ := hok
    exact drainOverflowRoots_does hK hok

/-! ## Histories -/

/-- The storage after a list of calls, the reverted ones included. -/
def run (K : Keccak) (s : Storage) (calls : List QueueCall) : Storage := calls.foldl (fun s q => (q.prog K).call s) s

/-- The accepted calls of a history, each with the storage it ran on. -/
def accepted (K : Keccak) : Storage → List QueueCall → List (Storage × QueueCall)
  | _, [] => []
  | s, q :: calls => if (q.prog K).accepts s then (s, q) :: accepted K ((q.prog K).call s) calls else accepted K s calls

/-- The effects a history applied, in order. -/
def applied (K : Keccak) (s : Storage) (calls : List QueueCall) : List Effect :=
  (accepted K s calls).flatMap fun p => p.2.effects

/-- The effects a history committed to. -/
def Committed (K : Keccak) (s : Storage) (calls : List QueueCall) (e : Effect) : Prop :=
  ∃ p ∈ accepted K s calls, p.2.Commits K e

/-- How often the root `x` was drained. -/
def drains (K : Keccak) (s : Storage) (calls : List QueueCall) (x : Word) : Nat :=
  (accepted K s calls).countP fun p => p.2.drained K = some x

/-- Whether the call puts into the queue a root that is not there, or that it has just taken out. -/
def Enqueues (K : Keccak) (x : Word) (p : Storage × QueueCall) : Prop :=
  (x ∈ p.2.queued ∧ x ≠ 0) ∧ (p.1.overflow.queue x = 0 ∨ p.2.drained K = some x)

instance (K : Keccak) (x : Word) : DecidablePred (Enqueues K x) := fun p => by
  unfold Enqueues
  infer_instance

/-- How often the root `x` was queued. -/
def enqueues (K : Keccak) (s : Storage) (calls : List QueueCall) (x : Word) : Nat :=
  (accepted K s calls).countP fun p => Enqueues K x p

/-- A rejected call does not count. -/
theorem run_cons (s : Storage) (q : QueueCall) (calls : List QueueCall) :
    run K s (q :: calls) = run K ((q.prog K).call s) calls := rfl

theorem call_of_not_accepts {q : QueueCall} {s : Storage} (h : ¬ (q.prog K).accepts s = true) :
    (q.prog K).call s = s := by
  rcases call_cases (q.prog K) s with h' | ⟨a, h'⟩
  · exact h'
  · exact absurd (by simp [accepts, h']) h

/-- **Induction over a history**: what holds of no calls and is carried back over an accepted call holds of
every history. -/
theorem history_induction {P : Storage → List QueueCall → Prop} (hnil : ∀ s, P s [])
    (hskip : ∀ s q calls, (q.prog K).accepts s = false → (q.prog K).call s = s → P s calls → P s (q :: calls))
    (hstep : ∀ s q calls metas, (q.prog K).accepts s = true → q.prog K s = .ok metas ((q.prog K).call s) →
      P ((q.prog K).call s) calls → P s (q :: calls)) :
    ∀ s calls, P s calls := by
  intro s calls
  induction calls generalizing s with
  | nil => exact hnil s
  | cons q calls ih =>
    by_cases h : (q.prog K).accepts s = true
    · obtain ⟨metas, hok⟩ := ok_of_accepts h
      exact hstep s q calls metas h hok (ih _)
    · exact hskip s q calls (by simpa using h) (call_of_not_accepts h) (ih s)

theorem accepted_skip {s : Storage} {q : QueueCall} (calls : List QueueCall) (h : (q.prog K).accepts s = false) :
    accepted K s (q :: calls) = accepted K s calls := by
  simp [accepted, h]

theorem accepted_step {s : Storage} {q : QueueCall} (calls : List QueueCall) (h : (q.prog K).accepts s = true) :
    accepted K s (q :: calls) = (s, q) :: accepted K ((q.prog K).call s) calls := by
  simp [accepted, h]

/-- Along every history the counter is the number of queued roots. -/
theorem counted_run (hK : K.Ideal) (s : Storage) (calls : List QueueCall) :
    s.overflow.Counted → (run K s calls).overflow.Counted := by
  induction s, calls using history_induction (K := K) with
  | hnil s => exact id
  | hskip s q calls _ hcall ih =>
    intro hs
    rw [run_cons, hcall]
    exact ih hs
  | hstep s q calls metas _ hok ih =>
    intro hs
    exact ih ((QueueCall.does hK hok).counted hs)

/-- The locks are those of the start after the applied effects. -/
theorem locks_run (hK : K.Ideal) (s : Storage) (calls : List QueueCall) :
    ∀ {l₀ E}, Locks.After l₀ E s.locks → l₀.After (E ++ applied K s calls) (run K s calls).locks := by
  induction s, calls using history_induction (K := K) with
  | hnil s =>
    intro l₀ E h
    simpa [applied, accepted, run] using h
  | hskip s q calls hrej hcall ih =>
    intro l₀ E h
    rw [run_cons, hcall, applied, accepted_skip calls hrej]
    exact ih h
  | hstep s q calls metas hacc hok ih =>
    intro l₀ E h
    have h' := ih ((QueueCall.does hK hok).locks h)
    rw [applied, accepted_step calls hacc, List.flatMap_cons, ← List.append_assoc]
    exact h'

/-- **Nothing committed is lost**: what the queue carried at the start and what the calls committed is what
they applied together with what the queue still carries. -/
theorem carries_run (hK : K.Ideal) (e : Effect) (s : Storage) (calls : List QueueCall) :
    s.Carries K e ∨ Committed K s calls e ↔ e ∈ applied K s calls ∨ (run K s calls).Carries K e := by
  induction s, calls using history_induction (K := K) with
  | hnil s => simp [Committed, applied, accepted, run]
  | hskip s q calls hrej hcall ih =>
    rw [run_cons, hcall]
    simpa only [Committed, applied, accepted_skip calls hrej] using ih
  | hstep s q calls metas hacc hok ih =>
    have hdoes := (QueueCall.does hK hok).committed e
    have hcommit : Committed K s (q :: calls) e ↔ q.Commits K e ∨ Committed K ((q.prog K).call s) calls e := by
      simp [Committed, accepted_step calls hacc]
    have happly : e ∈ applied K s (q :: calls) ↔ e ∈ q.effects ∨ e ∈ applied K ((q.prog K).call s) calls := by
      simp [applied, accepted_step calls hacc]
    rw [hcommit, happly, run_cons, ← or_assoc, hdoes, or_assoc, ih, or_assoc]

/-- **Each queued root is drained once**: over a history a root is drained as often as it is queued, less one
if it is queued still. -/
theorem drains_run (hK : K.Ideal) (x : Word) (s : Storage) (calls : List QueueCall) :
    drains K s calls x + (if (run K s calls).overflow.queue x ≠ 0 then 1 else 0) =
      (if s.overflow.queue x ≠ 0 then 1 else 0) + enqueues K s calls x := by
  induction s, calls using history_induction (K := K) with
  | hnil s => exact Nat.zero_add _
  | hskip s q calls hrej hcall ih =>
    rw [run_cons, hcall]
    simpa only [drains, enqueues, accepted_skip calls hrej] using ih
  | hstep s q calls metas hacc hok ih =>
    have hdoes := QueueCall.does hK hok
    have hqueue := hdoes.queue x
    have hdrained := hdoes.drained x
    have hd : drains K s (q :: calls) x =
        (if q.drained K = some x then 1 else 0) + drains K ((q.prog K).call s) calls x := by
      simp [drains, accepted_step calls hacc, List.countP_cons, Nat.add_comm]
    have he : enqueues K s (q :: calls) x =
        (if Enqueues K x (s, q) then 1 else 0) + enqueues K ((q.prog K).call s) calls x := by
      simp [enqueues, accepted_step calls hacc, List.countP_cons, Nat.add_comm]
    -- one call: drained and then queued on one side, queued before and newly queued on the other
    have hone : (if q.drained K = some x then 1 else 0) +
        (if ((q.prog K).call s).overflow.queue x ≠ 0 then 1 else 0) =
        (if s.overflow.queue x ≠ 0 then 1 else 0) + (if Enqueues K x (s, q) then 1 else 0) := by
      by_cases hs : s.overflow.queue x = 0
      · have hn : q.drained K ≠ some x := fun h => hdrained h hs
        simp [Enqueues, hqueue, hs, hn]
      · by_cases hq : q.drained K = some x
        · simp [Enqueues, hqueue, hs, hq]
        · simp [Enqueues, hqueue, hs, hq]
    rw [run_cons, hd, he]
    omega

def demoLock : CbtcLockFolded := ⟨wordOfNat 3, 5, wordOfNat 4⟩

def demoChunk : Chunk := ⟨[], 0, [demoLock], [], []⟩

def surfaced : QueueCall := .attest demoConfig true { demoBatch with cbtcLocksFolded := [demoLock] }

def deferred (K : Keccak) : QueueCall := .attest demoConfig true { demoBatch with overflowRoots := [demoChunk.root K] }

/-- A queued chunk can be drained by anyone who has its contents. -/
theorem drainOverflow_accepts {c : Chunk} {s : Storage} (hcalls : c.calls.length % 2 = 0)
    (hspent : c.spentCount ≤ c.terminals.length) (hvalues : ∀ f ∈ c.locks, f.vBtc ≠ 0 ∧ f.vBtc < 2 ^ 64)
    (hqueue : s.overflow.queue (c.root K) = 1) : (drainOverflow K c).accepts s = true := by
  have hok : ∃ metas t, drainOverflow K c s = .ok metas t := by
    simp only [drainOverflow, bind_eq_ok, get_eq_ok, check_eq_ok, modify_eq_ok, pure_eq_ok, forEach_check_eq_ok]
    refine ⟨_, _, (), _, ⟨by omega, rfl⟩, (), _, ⟨?_, rfl⟩, _, _, ⟨rfl, rfl⟩, (), _, ⟨not_not.2 hqueue, rfl⟩, (), _, rfl,
      rfl, rfl⟩
    intro f hf
    have := hvalues f hf
    omega
  obtain ⟨metas, t, hok⟩ := hok
  simp [accepts, hok]

/-- The deferring batch is accepted and so is the drain after it. -/
theorem accepted_deferred (hK : K.Ideal) :
    accepted K (Storage.deployed 0 0) [deferred K, .drainOverflow demoChunk] =
      [(Storage.deployed 0 0, deferred K),
        (((deferred K).prog K).call (Storage.deployed 0 0), .drainOverflow demoChunk)] := by
  have hbatch : ((deferred K).prog K).accepts (Storage.deployed 0 0) = true := by rfl
  have hroot : demoChunk.root K ≠ 0 := hK.nonzero _
  have hqueue : (((deferred K).prog K).call (Storage.deployed 0 0)).overflow.queue (demoChunk.root K) = 1 := by
    obtain ⟨metas, hok⟩ := ok_of_accepts hbatch
    obtain ⟨-, -, -, -, -, -, -, -, hq⟩ := attest_ok hok
    rw [hq]
    simp [Overflow.enqueue, hroot, Storage.deployed, demoBatch]
  have hdrain : ((QueueCall.drainOverflow demoChunk).prog K).accepts
      (((deferred K).prog K).call (Storage.deployed 0 0)) = true :=
    drainOverflow_accepts rfl (Nat.zero_le _) (by simp [demoChunk, demoLock]) hqueue
  rw [accepted_step _ hbatch, accepted_step _ hdrain]
  rfl

theorem accepted_surfaced : accepted K (Storage.deployed 0 0) [surfaced] = [(Storage.deployed 0 0, surfaced)] := by
  rw [accepted_step _ (by rfl)]
  rfl

/-- The surfacing batch commits to the lock alone. -/
theorem committed_surfaced (e : Effect) : Committed K (Storage.deployed 0 0) [surfaced] e ↔ e = .lock demoLock := by
  rw [Committed, accepted_surfaced]
  simp [surfaced, QueueCall.Commits, QueueCall.effects, demoBatch, eq_comm]

/-- So does the deferring one. -/
theorem committed_deferred (hK : K.Ideal) (e : Effect) :
    Committed K (Storage.deployed 0 0) [deferred K, .drainOverflow demoChunk] e ↔ e = .lock demoLock := by
  have hcarries : Carries K (demoChunk.root K) e ↔ e = .lock demoLock := by
    rw [carries_chunk hK (by decide)]
    simp [Chunk.effects, demoChunk, Chunk.spends, Chunk.redeems]
  rw [Committed, accepted_deferred hK, ← hcarries]
  simp [deferred, QueueCall.Commits, QueueCall.effects, demoBatch]

theorem deployed_counted : (Storage.deployed 0 0).overflow.Counted := ⟨∅, by simp [Storage.deployed], rfl⟩

/-- The drain empties the queue. -/
theorem pending_deferred (hK : K.Ideal) :
    (run K (Storage.deployed 0 0) [deferred K, .drainOverflow demoChunk]).overflow.pending = 0 := by
  rw [(counted_run hK _ _ deployed_counted).pending_eq_zero]
  intro x
  have h := drains_run hK x (Storage.deployed 0 0) [deferred K, .drainOverflow demoChunk]
  by_contra hx
  rw [drains, enqueues, accepted_deferred hK, if_pos hx] at h
  simp [Enqueues, deferred, QueueCall.queued, QueueCall.drained, List.countP_cons, Storage.deployed] at h
  by_cases hy : demoChunk.root K = x
  · rw [if_pos hy] at h
    split at h <;> omega
  · rw [if_neg hy, if_neg fun h => hy h.1.symm] at h
    omega

end ReflectionLib

end Tacit
