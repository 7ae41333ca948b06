import Mathlib.Data.List.Basic
import Tacit.Lib.Prog
/-!
# Parsers over a cursor, and the writers they invert

A cursor is a position in a buffer. A parser `Inverts` a writer on the valid values when it reads every valid value back
from in front of whatever follows, and when whatever it reads is valid and is what the writer would have written there. The
rules put parsers together as a parser's source does: a field after a field, a guard, a counted loop. `err` is the
parser's refusal; a slice out of bounds is a panic, which no parser that inverts a writer has.
-/
namespace Tacit

open Prog

structure Cursor (β : Type) where
  buf : List β
  pos : Nat

namespace Cursor

variable {β α γ : Type}

/-- `b[i..e]`, which panics out of bounds. -/
def slice (b : List β) (i e : Nat) : Option (List β) := if i ≤ e ∧ e ≤ b.length then some ((b.drop i).take (e - i)) else none

/-- Read `n` elements and move past them: `let e = i + n; if e > b.len() { refuse }`, then the slice. -/
def take (n : Nat) : Prog (Cursor β) Unit (List β) := do
  let c ← get
  let e := c.pos + n
  check (e > c.buf.length) ()
  let v ← orPanic (slice c.buf c.pos e)
  modify fun c => { c with pos := e }
  return v

/-- `for _ in 0..n { r.push(m?) }`. -/
def readN (m : Prog (Cursor β) Unit α) : Nat → Prog (Cursor β) Unit (List α)
  | 0 => pure []
  | n + 1 => do
    let a ← m
    let l ← readN m n
    return a :: l

/-- What is left to read. -/
def rest (c : Cursor β) : List β := c.buf.drop c.pos

/-- The cursor after `n` more elements. -/
def skip (c : Cursor β) (n : Nat) : Cursor β := { c with pos := c.pos + n }

@[simp] theorem skip_zero (c : Cursor β) : c.skip 0 = c := rfl

@[simp] theorem skip_skip (c : Cursor β) (n m : Nat) : (c.skip n).skip m = c.skip (n + m) := by simp [skip, Nat.add_assoc]

@[simp] theorem skip_buf (c : Cursor β) (n : Nat) : (c.skip n).buf = c.buf := rfl

@[simp] theorem skip_pos (c : Cursor β) (n : Nat) : (c.skip n).pos = c.pos + n := rfl

theorem rest_skip (c : Cursor β) (n : Nat) : (c.skip n).rest = c.rest.drop n := by simp [rest, skip]

theorem rest_skip_of_append {c : Cursor β} {w tail : List β} (h : c.rest = w ++ tail) : (c.skip w.length).rest = tail := by
  rw [rest_skip, h, List.drop_left]

theorem pos_add_le {c : Cursor β} (hc : c.pos ≤ c.buf.length) {w tail : List β} (h : c.rest = w ++ tail) :
    c.pos + w.length ≤ c.buf.length := by
  have := congrArg List.length h
  simp only [rest, List.length_drop, List.length_append] at this
  omega

/-- `m` reads back what `w` writes, and nothing else, on the values `v`. -/
structure Inverts (m : Prog (Cursor β) Unit α) (w : α → List β) (v : α → Prop) : Prop where
  reads : ∀ {c : Cursor β} {a : α} {tail : List β}, c.pos ≤ c.buf.length → v a → c.rest = w a ++ tail →
    m c = .ok a (c.skip (w a).length)
  sound : ∀ {c : Cursor β}, c.pos ≤ c.buf.length →
    wp False m c (fun _ _ => True) fun a c' => v a ∧ c' = c.skip (w a).length ∧ c.rest = w a ++ c'.rest

namespace Inverts

variable {m : Prog (Cursor β) Unit α} {w : α → List β} {v : α → Prop}

theorem congr {w' : α → List β} {v' : α → Prop} (h : Inverts m w v) (hv : ∀ a, v' a ↔ v a) (hw : ∀ a, v a → w' a = w a) :
    Inverts m w' v' where
  reads := by
    intro c a tail hc ha hrest
    rw [hw a ((hv a).1 ha)] at hrest ⊢
    exact h.reads hc ((hv a).1 ha) hrest
  sound := by
    intro c hc
    refine wp_mono (h.sound hc) id (fun _ _ => id) ?_
    rintro a c' ⟨ha, hc', hrest⟩
    rw [hw a ha]
    exact ⟨(hv a).2 ha, hc', hrest⟩

/-- A field, then what follows it: `f` names the field in the whole. -/
theorem bind {k : α → Prog (Cursor β) Unit γ} {f : γ → α} {w₂ : γ → List β} {v₂ : γ → Prop} (hm : Inverts m w v)
    (hk : ∀ a, v a → Inverts (k a) w₂ fun r => f r = a ∧ v₂ r) (hv : ∀ r, v₂ r → v (f r)) :
    Inverts (m >>= k) (fun r => w (f r) ++ w₂ r) v₂ where
  reads := by
    intro c r tail hc hr hrest
    rw [List.append_assoc] at hrest
    have hfield : m c = .ok (f r) (c.skip (w (f r)).length) := hm.reads hc (hv r hr) hrest
    have hc' : (c.skip (w (f r)).length).pos ≤ (c.skip (w (f r)).length).buf.length := pos_add_le hc hrest
    have hlast := (hk (f r) (hv r hr)).reads hc' ⟨rfl, hr⟩ (rest_skip_of_append hrest)
    rw [bind_eq_ok]
    refine ⟨_, _, hfield, ?_⟩
    rw [hlast, skip_skip, List.length_append]
  sound := by
    intro c hc
    rw [wp_bind]
    refine wp_mono (hm.sound hc) id (fun _ _ => id) ?_
    rintro a c' ⟨ha, rfl, hrest⟩
    refine wp_mono ((hk a ha).sound (pos_add_le hc hrest)) id (fun _ _ => id) ?_
    rintro r c'' ⟨⟨rfl, hr⟩, rfl, hrest'⟩
    refine ⟨hr, by rw [skip_skip, List.length_append], ?_⟩
    rw [hrest, hrest', List.append_assoc]

/-- The end of a record: the value is the one its fields determine. -/
theorem pure {a : α} (h : ∀ b, v b ↔ b = a) : Inverts (Pure.pure a : Prog (Cursor β) Unit α) (fun _ => []) v where
  reads := by
    intro c b tail _ hb _
    rw [(h b).1 hb]
    rfl
  sound := fun _ => ⟨(h a).2 rfl, rfl, rfl⟩

/-- A guard that no valid value fails. -/
theorem check {p : Prop} [Decidable p] {k : Unit → Prog (Cursor β) Unit α} (hk : ¬p → Inverts (k ()) w v)
    (hv : p → ∀ a, ¬v a) : Inverts (Prog.check p () >>= k) w v where
  reads := by
    intro c a tail hc ha hrest
    have hp : ¬p := fun hp => hv hp a ha
    rw [bind_eq_ok]
    exact ⟨(), c, check_eq_ok.2 ⟨hp, rfl⟩, (hk hp).reads hc ha hrest⟩
  sound := by
    intro c hc
    rw [wp_bind, wp_check]
    exact ⟨fun _ => trivial, fun hp => (hk hp).sound hc⟩

/-- Reading through an encoding of the values. -/
theorem map {f : α → γ} {g : γ → α} {v₂ : γ → Prop} (hm : Inverts m w v) (hf : ∀ a, v a → g (f a) = a ∧ v₂ (f a))
    (hg : ∀ r, v₂ r → v (g r) ∧ f (g r) = r) : Inverts (m >>= fun a => Pure.pure (f a)) (fun r => w (g r)) v₂ := by
  have h : Inverts (m >>= fun a => Pure.pure (f a)) (fun r => w (g r) ++ []) v₂ := by
    refine hm.bind (fun a ha => .pure fun r => ?_) fun r hr => (hg r hr).1
    constructor
    · rintro ⟨rfl, hr⟩
      exact (hg r hr).2.symm
    · rintro rfl
      exact hf a ha
  exact h.congr (fun _ => Iff.rfl) fun _ _ => (List.append_nil _).symm

/-- A counted loop. -/
theorem readN (hm : Inverts m w v) : ∀ n, Inverts (Cursor.readN m n) (fun l => (l.map w).flatten) fun l =>
    l.length = n ∧ ∀ a ∈ l, v a
  | 0 =>
    { reads := by
        rintro c l tail - ⟨hl, -⟩ -
        rw [List.length_eq_zero_iff.1 hl]
        rfl
      sound := fun _ => ⟨⟨rfl, by simp⟩, rfl, rfl⟩ }
  | n + 1 =>
    { reads := by
        rintro c (_ | ⟨a, l⟩) tail hc ⟨hlen, hl⟩ hrest
        · cases hlen
        rw [List.map_cons, List.flatten_cons, List.append_assoc] at hrest
        have hfirst := hm.reads hc (hl a List.mem_cons_self) hrest
        have hloop := (readN hm n).reads (c := c.skip (w a).length) (pos_add_le hc hrest)
          ⟨Nat.succ.inj hlen, fun b hb => hl b (List.mem_cons_of_mem _ hb)⟩ (rest_skip_of_append hrest)
        rw [skip_skip] at hloop
        simp only [Cursor.readN, bind_eq_ok, pure_eq_ok, List.map_cons, List.flatten_cons, List.length_append]
        exact ⟨a, _, hfirst, l, _, hloop, rfl, rfl⟩
      sound := by
        intro c hc
        rw [Cursor.readN, wp_bind]
        refine wp_mono (hm.sound hc) id (fun _ _ => id) ?_
        rintro a c' ⟨ha, rfl, hrest⟩
        rw [wp_bind]
        refine wp_mono ((readN hm n).sound (pos_add_le hc hrest)) id (fun _ _ => id) ?_
        rintro l c'' ⟨⟨hlen, hl⟩, rfl, hrest'⟩
        refine ⟨⟨by rw [List.length_cons, hlen], List.forall_mem_cons.2 ⟨ha, hl⟩⟩, ?_, ?_⟩
        · rw [skip_skip, List.map_cons, List.flatten_cons, List.length_append]
        · rw [hrest, hrest', List.map_cons, List.flatten_cons, List.append_assoc] }

end Inverts

theorem take_inverts (n : Nat) : Inverts (take n : Prog (Cursor β) Unit (List β)) id fun l => l.length = n where
  reads := by
    rintro c l tail hc rfl hrest
    have hfit : c.pos + l.length ≤ c.buf.length := pos_add_le hc hrest
    have hslice : slice c.buf c.pos (c.pos + l.length) = some l := by
      rw [slice, if_pos ⟨Nat.le_add_right .., hfit⟩, Nat.add_sub_cancel_left]
      exact congrArg some ((congrArg (List.take l.length) hrest).trans List.take_left)
    simp only [take, bind_eq_ok, get_eq_ok, check_eq_ok, orPanic_eq_ok, modify_eq_ok, pure_eq_ok]
    exact ⟨c, c, ⟨rfl, rfl⟩, (), c, ⟨by omega, rfl⟩, l, c, ⟨hslice, rfl⟩, (), _, rfl, rfl, rfl⟩
  sound := by
    intro c hc
    simp only [take, wp_bind, wp_get, wp_check, wp_orPanic, wp_modify, wp_pure]
    refine ⟨fun _ => trivial, fun hfit => ⟨?_, ?_⟩⟩
    · intro hnone
      rw [slice, if_pos ⟨by omega, by omega⟩] at hnone
      cases hnone
    · intro l hl
      rw [slice, if_pos ⟨by omega, by omega⟩, Nat.add_sub_cancel_left] at hl
      cases hl
      have hlen : (c.rest.take n).length = n := by
        simp only [rest, List.length_take, List.length_drop]
        omega
      change (c.rest.take n).length = n ∧ _ = c.skip (c.rest.take n).length ∧ c.rest = c.rest.take n ++ _
      refine ⟨hlen, by rw [hlen]; rfl, ?_⟩
      exact (List.take_append_drop n c.rest).symm.trans (congrArg _ (rest_skip c n).symm)

/-- The whole buffer: what is left must be nothing. -/
def whole (m : Prog (Cursor β) Unit α) : Prog (Cursor β) Unit α := do
  let a ← m
  let c ← get
  check (c.pos ≠ c.buf.length) ()
  return a

/-- A parser run on a buffer: `none` is a panic, `some none` a refusal. -/
def run (m : Prog (Cursor β) Unit α) (b : List β) : Option (Option α) :=
  match m ⟨b, 0⟩ with
  | .panic => none
  | .err _ _ => some none
  | .ok a _ => some (some a)

namespace Inverts

variable {m : Prog (Cursor β) Unit α} {w : α → List β} {v : α → Prop} {a a' : α} {x y : List β}

/-- Read as a whole, a buffer gives `a` exactly when it is what the writer writes for it. -/
theorem run_whole (h : Inverts m w v) : run (whole m) x = some (some a) ↔ v a ∧ w a = x := by
  constructor
  · intro hrun
    have hsound := h.sound (c := ⟨x, 0⟩) (Nat.zero_le _)
    unfold run at hrun
    cases hm : whole m ⟨x, 0⟩ with
    | panic => rw [hm] at hrun; cases hrun
    | err e t => rw [hm] at hrun; cases hrun
    | ok b t =>
      rw [hm] at hrun
      cases hrun
      simp only [whole, bind_eq_ok, get_eq_ok, check_eq_ok, pure_eq_ok] at hm
      obtain ⟨b, c, hb, _, _, ⟨rfl, rfl⟩, _, _, ⟨hend, rfl⟩, rfl, rfl⟩ := hm
      obtain ⟨hv, rfl, hrest⟩ := wp_of_ok hsound hb
      have hnil : (Cursor.skip ⟨x, 0⟩ (w a).length).rest = [] := by
        have hpos : 0 + (w a).length = x.length := not_not.1 hend
        simp only [rest, skip_buf, skip_pos, hpos, List.drop_length]
      rw [hnil, List.append_nil] at hrest
      exact ⟨hv, hrest.symm⟩
  · rintro ⟨hv, rfl⟩
    have hread := h.reads (c := ⟨w a, 0⟩) (Nat.zero_le _) hv (List.append_nil _).symm
    have hwhole : whole m ⟨w a, 0⟩ = .ok a (Cursor.skip ⟨w a, 0⟩ (w a).length) := by
      simp only [whole, bind_eq_ok, get_eq_ok, check_eq_ok, pure_eq_ok]
      exact ⟨a, _, hread, _, _, ⟨rfl, rfl⟩, (), _, ⟨by simp, rfl⟩, rfl, rfl⟩
    rw [run, hwhole]

/-- No buffer makes the parser read out of bounds. -/
theorem run_ne_panic (h : Inverts m w v) : run (whole m) x ≠ none := by
  have hsound : wp False (whole m) ⟨x, 0⟩ (fun _ _ => True) fun _ _ => True := by
    rw [whole, wp_bind]
    refine wp_mono (h.sound (Nat.zero_le _)) id (fun _ _ => id) ?_
    intro b c _
    simp
  unfold run
  unfold wp at hsound
  cases hm : whole m ⟨x, 0⟩ with
  | panic => rw [hm] at hsound; exact hsound.elim
  | err e t => simp
  | ok b t => simp

/-- What is not written by the writer is refused. -/
theorem run_refuses (h : Inverts m w v) (hx : ∀ a, v a → w a ≠ x) : run (whole m) x = some none := by
  match hrun : run (whole m) x with
  | none => exact absurd hrun h.run_ne_panic
  | some none => rfl
  | some (some a) =>
    obtain ⟨hv, hw⟩ := h.run_whole.1 hrun
    exact absurd hw (hx a hv)

/-- No valid value is written as the beginning of another. -/
theorem prefix_free (h : Inverts m w v) (ha : v a) (ha' : v a') (hw : w a' = w a ++ y) : y = [] := by
  have hread := h.reads (c := ⟨w a', 0⟩) (Nat.zero_le _) ha hw
  have hread' := h.reads (c := ⟨w a', 0⟩) (Nat.zero_le _) ha' (List.append_nil _).symm
  rw [hread] at hread'
  cases hread'
  exact List.self_eq_append_right.1 hw

end Inverts

end Cursor

end Tacit
