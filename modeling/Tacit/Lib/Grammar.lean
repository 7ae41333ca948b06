import Tacit.Lib.Cursor
/-!
# Formats in which a value has several encodings

A `Format` relates a value to each of its encodings. A parser `Reads` a format when it reads a value off any of its encodings,
and when what it reads is an encoding, as far as the buffer holds it: such parsers may move past the end of the buffer, and only
the next read refuses. Positions are below `N`, as those of a machine are.
-/
namespace Tacit

open Prog Cursor

abbrev Format (β α : Type) := α → List β → Prop

namespace Format

variable {α β γ : Type}

/-- A field, then what follows it. -/
def Seq (E : Format β α) (F : α → Format β γ) : Format β γ := fun r e => ∃ a e₁ e₂, E a e₁ ∧ F a r e₂ ∧ e = e₁ ++ e₂

/-- One encoding after the other. -/
inductive Many (E : Format β α) : Format β (List α)
  | nil : Many E [] []
  | cons {a : α} {l : List α} {e e' : List β} : E a e → Many E l e' → Many E (a :: l) (e ++ e')

namespace Many

variable {E : Format β α} {l l' : List α} {e e' : List β}

theorem append (h : Many E l e) (h' : Many E l' e') : Many E (l ++ l') (e ++ e') := by
  induction h with
  | nil => exact h'
  | cons ha _ ih =>
    rw [List.append_assoc, List.cons_append]
    exact cons ha ih

theorem split : ∀ {l : List α} {e : List β}, Many E (l ++ l') e → ∃ e₁ e₂, Many E l e₁ ∧ Many E l' e₂ ∧ e = e₁ ++ e₂
  | [], e, h => ⟨[], e, nil, h, rfl⟩
  | a :: l, _, h => by
    cases h with
    | cons ha h =>
      obtain ⟨e₁, e₂, h₁, h₂, rfl⟩ := split h
      exact ⟨_, e₂, cons ha h₁, h₂, (List.append_assoc ..).symm⟩

theorem one {a : α} : Many E [a] e ↔ E a e := by
  constructor
  · rintro (_ | ⟨ha, _ | _⟩)
    rwa [List.append_nil]
  · intro ha
    exact List.append_nil e ▸ cons ha nil

theorem two {a b : α} : Many E [a, b] e ↔ ∃ e₁ e₂, E a e₁ ∧ E b e₂ ∧ e = e₁ ++ e₂ := by
  constructor
  · rintro (_ | ⟨ha, h⟩)
    exact ⟨_, _, ha, one.1 h, rfl⟩
  · rintro ⟨e₁, e₂, ha, hb, rfl⟩
    exact cons ha (one.2 hb)

theorem imp {F : Format β γ} {f : α → γ} (hf : ∀ a e, E a e → F (f a) e) (h : Many E l e) : Many F (l.map f) e := by
  induction h with
  | nil => exact nil
  | cons ha _ ih => exact cons (hf _ _ ha) ih

/-- Of what was read, the values it stands for. -/
theorem lift {f : γ → α} {F : Format β γ} (hf : ∀ a e, E a e → ∃ c, f c = a ∧ F c e) (h : Many E l e) :
    ∃ cs, cs.map f = l ∧ Many F cs e := by
  induction h with
  | nil => exact ⟨[], rfl, nil⟩
  | cons ha _ ih =>
    obtain ⟨c, rfl, hc⟩ := hf _ _ ha
    obtain ⟨cs, rfl, hcs⟩ := ih
    exact ⟨c :: cs, rfl, cons hc hcs⟩

theorem all {P : α → Prop} (hP : ∀ a e, E a e → P a) (h : Many E l e) : ∀ a ∈ l, P a := by
  induction h with
  | nil => exact List.forall_mem_nil _
  | cons ha _ ih => exact List.forall_mem_cons.2 ⟨hP _ _ ha, ih⟩

/-- What a writer writes, one after the other. -/
theorem of_writer {w : α → List β} : ∀ {l : List α}, (∀ a ∈ l, E a (w a)) → Many E l (l.map w).flatten
  | [], _ => nil
  | _ :: _, h => cons (h _ List.mem_cons_self) (of_writer fun a ha => h a (List.mem_cons_of_mem _ ha))

end Many

end Format

open Format

namespace Cursor

variable {α β γ : Type} {N : Nat}

/-- `usize::checked_add`. -/
def checkedAdd (N a b : Nat) : Option Nat := if a + b < N then some (a + b) else none

def seek (p : Nat) : Prog (Cursor β) Unit Unit := modify fun c => { c with pos := p }

/-- `pos = pos.checked_add(n)?`. -/
def advance (N n : Nat) : Prog (Cursor β) Unit Unit := do
  let c ← get
  let e ← orThrow (checkedAdd N c.pos n) ()
  seek e

/-- `let e = pos.checked_add(n)?; if e > b.len() { return None }`, then `b[pos..e]`. -/
def takeWithin (N n : Nat) : Prog (Cursor β) Unit (List β) := do
  let c ← get
  let e ← orThrow (checkedAdd N c.pos n) ()
  check (e > c.buf.length) ()
  let v ← orPanic (slice c.buf c.pos e)
  seek e
  return v

/-- A parser run from a position: `none` is a panic, `some none` a refusal. -/
def runFrom (p : Nat) (m : Prog (Cursor β) Unit α) (b : List β) : Option (Option α) :=
  match m ⟨b, p⟩ with
  | .panic => none
  | .err _ _ => some none
  | .ok a _ => some (some a)

theorem checkedAdd_eq_some {a b c : Nat} : checkedAdd N a b = some c ↔ a + b < N ∧ c = a + b := by
  unfold checkedAdd
  by_cases h : a + b < N <;> simp [h, eq_comm]

theorem runFrom_eq_some {p : Nat} {m : Prog (Cursor β) Unit α} {b : List β} {a : α} :
    runFrom p m b = some (some a) ↔ ∃ c, m ⟨b, p⟩ = .ok a c := by
  unfold runFrom
  cases m ⟨b, p⟩ <;> simp

theorem runFrom_check {P : Prop} [Decidable P] {p : Nat} {k : Unit → Prog (Cursor β) Unit α} {b : List β} :
    runFrom p (check P () >>= k) b = if P then some none else runFrom p (k ()) b := by
  unfold check
  by_cases h : P
  · rw [if_pos h, if_pos h]
    rfl
  · rw [if_neg h, if_neg h]
    rfl

/-- A run with a specification refuses or ends as specified. -/
theorem runFrom_of_wp {p : Nat} {m : Prog (Cursor β) Unit α} {b : List β} {Q : α → Cursor β → Prop}
    (h : wp False m ⟨b, p⟩ (fun _ _ => True) Q) : runFrom p m b = some none ∨ ∃ a c, runFrom p m b = some (some a) ∧ Q a c := by
  unfold wp at h
  unfold runFrom
  cases hm : m ⟨b, p⟩ with
  | panic => rw [hm] at h; exact h.elim
  | err e t => exact .inl rfl
  | ok a t => rw [hm] at h; exact .inr ⟨a, t, rfl, h⟩

theorem runFrom_ne_none {p : Nat} {m : Prog (Cursor β) Unit α} {b : List β} {Q : α → Cursor β → Prop}
    (h : wp False m ⟨b, p⟩ (fun _ _ => True) Q) : runFrom p m b ≠ none := by
  rcases runFrom_of_wp h with h | ⟨a, c, h, -⟩ <;> rw [h] <;> nofun

theorem slice_eq {b : List β} {i e : Nat} (hi : i ≤ e) (he : e ≤ b.length) : slice b i e = some ((b.drop i).take (e - i)) :=
  if_pos ⟨hi, he⟩

theorem slice_of_rest {c : Cursor β} {pre v tail : List β} {i e : Nat} (hc : c.pos ≤ c.buf.length)
    (h : c.rest = pre ++ v ++ tail) (hi : i = c.pos + pre.length) (he : e = i + v.length) : slice c.buf i e = some v := by
  have hfit : c.pos + (pre ++ v).length ≤ c.buf.length := pos_add_le hc h
  rw [List.length_append] at hfit
  have hdrop : c.buf.drop i = v ++ tail := by
    rw [hi, ← List.drop_drop]
    exact (congrArg (List.drop pre.length) (h.trans (List.append_assoc ..))).trans List.drop_left
  rw [slice_eq (by omega) (by omega), hdrop, he, Nat.add_sub_cancel_left, List.take_left]

/-- What lies before a position is an encoding of what was read. -/
def Read (E : Format β α) (c : Cursor β) (a : α) (c' : Cursor β) : Prop :=
  c'.buf = c.buf ∧ c.pos ≤ c'.pos ∧ (c'.pos ≤ c.buf.length → ∃ e tail, E a e ∧ c.rest = e ++ tail ∧ c' = c.skip e.length)

/-- `m` reads `E`, with positions below `N`. -/
structure Reads (N : Nat) (m : Prog (Cursor β) Unit α) (E : Format β α) : Prop where
  reads : ∀ {c : Cursor β} {a : α} {e tail : List β}, c.buf.length < N → c.pos ≤ c.buf.length → E a e → c.rest = e ++ tail →
    m c = .ok a (c.skip e.length)
  sound : ∀ c, wp False m c (fun _ _ => True) (Read E c)

namespace Reads

variable {m : Prog (Cursor β) Unit α} {E : Format β α}

theorem congr {F : Format β α} (h : Reads N m E) (hF : ∀ a e, F a e ↔ E a e) : Reads N m F := by
  obtain rfl : F = E := by
    funext a e
    exact propext (hF a e)
  exact h

theorem bind {k : α → Prog (Cursor β) Unit γ} {F : α → Format β γ} (hm : Reads N m E) (hk : ∀ a, Reads N (k a) (F a)) :
    Reads N (m >>= k) (Seq E F) where
  reads := by
    rintro c r e tail hN hc ⟨a, e₁, e₂, ha, hr, rfl⟩ hrest
    rw [List.append_assoc] at hrest
    have hfield := hm.reads hN hc ha hrest
    have hlast := (hk a).reads (c := c.skip e₁.length) hN (pos_add_le hc hrest) hr (rest_skip_of_append hrest)
    rw [bind_eq_ok]
    refine ⟨_, _, hfield, ?_⟩
    rw [hlast, skip_skip, List.length_append]
  sound := by
    intro c
    rw [wp_bind]
    refine wp_mono (hm.sound c) id (fun _ _ => id) ?_
    rintro a c' ⟨hbuf, hle, ha⟩
    refine wp_mono ((hk a).sound c') id (fun _ _ => id) ?_
    rintro r c'' ⟨hbuf', hle', hr⟩
    refine ⟨hbuf'.trans hbuf, Nat.le_trans hle hle', fun hend => ?_⟩
    obtain ⟨e₁, tail₁, he₁, hrest, rfl⟩ := ha (Nat.le_trans hle' hend)
    obtain ⟨e₂, tail, he₂, hrest', rfl⟩ := hr hend
    refine ⟨e₁ ++ e₂, tail, ⟨a, e₁, e₂, he₁, he₂, rfl⟩, ?_, by rw [skip_skip, List.length_append]⟩
    rw [rest_skip_of_append hrest] at hrest'
    rw [hrest, hrest', List.append_assoc]

theorem pure {a : α} : Reads N (Pure.pure a : Prog (Cursor β) Unit α) fun r e => r = a ∧ e = [] where
  reads := by
    rintro c r e tail - - ⟨rfl, rfl⟩ -
    rfl
  sound := fun c => ⟨rfl, Nat.le_refl _, fun _ => ⟨[], c.rest, ⟨rfl, rfl⟩, rfl, rfl⟩⟩

theorem check {p : Prop} [Decidable p] : Reads N (Prog.check p () : Prog (Cursor β) Unit Unit) fun _ e => ¬p ∧ e = [] where
  reads := by
    rintro c r e tail - - ⟨hp, rfl⟩ -
    rw [Prog.check, if_neg hp]
    rfl
  sound := by
    intro c
    rw [wp_check]
    exact ⟨fun _ => trivial, fun hp => ⟨rfl, Nat.le_refl _, fun _ => ⟨[], c.rest, ⟨hp, rfl⟩, rfl, rfl⟩⟩⟩

theorem throw : Reads N (Prog.throw () : Prog (Cursor β) Unit α) fun _ _ => False where
  reads := fun _ _ h _ => h.elim
  sound := fun _ => trivial

theorem ite {p : Prop} [Decidable p] {m' : Prog (Cursor β) Unit α} {E' : Format β α} (h : Reads N m E) (h' : Reads N m' E') :
    Reads N (if p then m else m') fun a e => if p then E a e else E' a e := by
  by_cases hp : p
  · simpa only [if_pos hp] using h
  · simpa only [if_neg hp] using h'

/-- A value computed from what was read. -/
theorem map {f : α → γ} (hm : Reads N m E) :
    Reads N (m >>= fun a => Pure.pure (f a)) fun r e => ∃ a, f a = r ∧ E a e := by
  refine (hm.bind fun a => pure).congr fun r e => ?_
  constructor
  · rintro ⟨a, rfl, ha⟩
    exact ⟨a, e, [], ha, ⟨rfl, rfl⟩, (List.append_nil e).symm⟩
  · rintro ⟨a, e₁, _, ha, ⟨rfl, rfl⟩, rfl⟩
    rw [List.append_nil]
    exact ⟨a, rfl, ha⟩

/-- A counted loop. -/
theorem readN (hm : Reads N m E) : ∀ n, Reads N (Cursor.readN m n) fun l e => l.length = n ∧ Many E l e
  | 0 => pure.congr fun l e => by
    constructor
    · rintro ⟨hl, he⟩
      cases List.length_eq_zero_iff.1 hl
      cases he
      exact ⟨rfl, rfl⟩
    · rintro ⟨rfl, rfl⟩
      exact ⟨rfl, .nil⟩
  | n + 1 => by
    refine (hm.bind fun a => (readN hm n).map (f := (a :: ·))).congr fun l e => ?_
    constructor
    · rintro ⟨hl, he⟩
      cases he with
      | nil => cases hl
      | cons ha he => exact ⟨_, _, _, ha, ⟨_, rfl, Nat.succ.inj hl, he⟩, rfl⟩
    · rintro ⟨a, e₁, _, ha, ⟨l, rfl, rfl, he⟩, rfl⟩
      exact ⟨rfl, .cons ha he⟩

/-! ## Runs -/

variable {b pre e tail : List β} {a a' : α} {p : Nat}

/-- The cursor in front of an encoding. -/
theorem ok_at (h : Reads N m E) (hN : b.length < N) (hb : b = pre ++ e ++ tail) (ha : E a e) (hp : pre.length = p) :
    m ⟨b, p⟩ = .ok a ⟨b, p + e.length⟩ := by
  subst hp
  have hrest : (⟨b, pre.length⟩ : Cursor β).rest = e ++ tail := by rw [Cursor.rest, hb, List.append_assoc, List.drop_left]
  have hpos : pre.length ≤ b.length := by
    rw [hb, List.length_append, List.length_append]
    omega
  exact h.reads (c := ⟨b, pre.length⟩) hN hpos ha hrest

theorem runFrom_eq (h : Reads N m E) (hN : b.length < N) (hb : b = pre ++ e ++ tail) (ha : E a e) (hp : pre.length = p) :
    runFrom p m b = some (some a) :=
  runFrom_eq_some.2 ⟨_, h.ok_at hN hb ha hp⟩

/-- A run goes on behind what was read. -/
theorem runFrom_bind {k : α → Prog (Cursor β) Unit γ} (h : Reads N m E) (hN : b.length < N) (hb : b = pre ++ e ++ tail)
    (ha : E a e) (hp : pre.length = p) : runFrom p (m >>= k) b = runFrom (p + e.length) (k a) b := by
  have hbind : (m >>= k) ⟨b, p⟩ = k a ⟨b, p + e.length⟩ := by
    show Prog.bind m k _ = _
    rw [Prog.bind, h.ok_at hN hb ha hp]
  rw [runFrom, runFrom, hbind]

theorem runFrom_ne_panic (h : Reads N m E) : runFrom p m b ≠ none := runFrom_ne_none (h.sound ⟨b, p⟩)

/-- A beginning is an encoding of one value, in one way. -/
theorem det (h : Reads N m E) {e' tail' : List β} (hN : (e ++ tail).length < N) (ha : E a e) (ha' : E a' e')
    (hb : e ++ tail = e' ++ tail') : a = a' ∧ e = e' := by
  have hread := h.reads (c := ⟨e ++ tail, 0⟩) hN (Nat.zero_le _) ha rfl
  have hread' := h.reads (c := ⟨e ++ tail, 0⟩) hN (Nat.zero_le _) ha' hb
  rw [hread] at hread'
  simp only [Outcome.ok.injEq, skip, Cursor.mk.injEq, Nat.add_left_cancel_iff, true_and] at hread'
  exact ⟨hread'.1, (List.append_inj hb hread'.2).1⟩

end Reads

theorem advance_reads (n : Nat) : Reads N (advance N n : Prog (Cursor β) Unit Unit) fun _ e => e.length = n where
  reads := by
    rintro c _ e tail hN hc rfl hrest
    have hfit := pos_add_le hc hrest
    simp only [advance, seek, bind_eq_ok, get_eq_ok, orThrow_eq_ok, checkedAdd_eq_some, modify_eq_ok]
    exact ⟨c, c, ⟨rfl, rfl⟩, _, c, ⟨⟨by omega, rfl⟩, rfl⟩, rfl⟩
  sound := by
    intro c
    simp only [advance, seek, wp_bind, wp_get, wp_orThrow, wp_modify, checkedAdd_eq_some]
    refine ⟨fun _ => trivial, ?_⟩
    rintro _ ⟨-, rfl⟩
    refine ⟨rfl, Nat.le_add_right .., fun hend => ?_⟩
    have hlen : (c.rest.take n).length = n := by
      simp only [rest, List.length_take, List.length_drop]
      simp only at hend
      omega
    exact ⟨c.rest.take n, c.rest.drop n, hlen, (List.take_append_drop n c.rest).symm, by rw [hlen]; rfl⟩

theorem takeWithin_reads (n : Nat) :
    Reads N (takeWithin N n : Prog (Cursor β) Unit (List β)) fun l e => l = e ∧ e.length = n where
  reads := by
    rintro c e _ tail hN hc ⟨rfl, rfl⟩ hrest
    have hfit := pos_add_le hc hrest
    have hrest' : c.rest = [] ++ e ++ tail := hrest
    have hslice : slice c.buf c.pos (c.pos + e.length) = some e := slice_of_rest hc hrest' rfl rfl
    simp only [takeWithin, seek, bind_eq_ok, get_eq_ok, orThrow_eq_ok, checkedAdd_eq_some, check_eq_ok, orPanic_eq_ok,
      modify_eq_ok, pure_eq_ok]
    exact ⟨c, c, ⟨rfl, rfl⟩, _, c, ⟨⟨by omega, rfl⟩, rfl⟩, (), c, ⟨by omega, rfl⟩, e, c, ⟨hslice, rfl⟩, (), _, rfl, rfl, rfl⟩
  sound := by
    intro c
    simp only [takeWithin, seek, wp_bind, wp_get, wp_orThrow, wp_check, wp_orPanic, wp_modify, wp_pure, checkedAdd_eq_some]
    refine ⟨fun _ => trivial, ?_⟩
    rintro _ ⟨-, rfl⟩
    refine ⟨fun _ => trivial, fun hfit => ?_⟩
    rw [slice_eq (Nat.le_add_right ..) (by omega), Nat.add_sub_cancel_left]
    refine ⟨Option.some_ne_none _, ?_⟩
    rintro _ ⟨⟩
    have hlen : (c.rest.take n).length = n := by
      simp only [rest, List.length_take, List.length_drop]
      omega
    exact ⟨rfl, Nat.le_add_right .., fun _ =>
      ⟨c.rest.take n, c.rest.drop n, ⟨rfl, hlen⟩, (List.take_append_drop n c.rest).symm, by rw [hlen]; rfl⟩⟩

/-- What was sliced out lies in the buffer. -/
theorem takeWithin_inside (n : Nat) (c : Cursor β) :
    wp True (takeWithin N n) c (fun _ _ => True) fun _ c' => c'.pos ≤ c'.buf.length := by
  simp only [takeWithin, seek, wp_bind, wp_get, wp_orThrow, wp_check, wp_orPanic, wp_modify, wp_pure]
  exact ⟨fun _ => trivial, fun e _ => ⟨fun _ => trivial, fun hfit => ⟨fun _ => trivial, fun _ _ => Nat.le_of_not_lt hfit⟩⟩⟩

end Cursor

end Tacit
