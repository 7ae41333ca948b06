import Tacit.Lib.Grammar
/-!
# Readers whose refusals carry a reason

A reader is a parser over a cursor that cannot panic and that says why it refuses. What it accepts does not depend on the
reasons: `quiet` forgets them, and the rules of `Inverts` and of `Reads` then put readers together as their source does. A reader
may move past the end of its buffer, as long as one that follows it refuses there.
-/
namespace Tacit

open Prog Cursor

abbrev Reader (β ε : Type) := StateT (Cursor β) (Except ε)

namespace Reader

variable {α β γ ε : Type}

/-- `if b { return Err(e) }`. -/
def refuse (b : Prop) [Decidable b] (e : ε) : Reader β ε Unit := fun c => if b then .error e else .ok ((), c)

/-- `buf.get(pos..pos + n).ok_or(e)?`, and past it. -/
def take (n : Nat) (e : ε) : Reader β ε (List β) := do
  let c ← get
  refuse (c.pos + n > c.buf.length) e
  set (c.skip n)
  return (c.buf.drop c.pos).take n

/-- `for _ in 0..n { r.push(m?) }`. -/
def readN (m : Reader β ε α) : Nat → Reader β ε (List α)
  | 0 => pure []
  | n + 1 => do
    let a ← m
    let l ← readN m n
    return a :: l

/-- `if (p + n > d.length) throw`. -/
def require (n : Nat) (e : ε) : Reader β ε Unit := fun c => if c.pos + n > c.buf.length then .error e else .ok ((), c)

/-- `p += n`. -/
def pass (n : Nat) : Reader β ε Unit := fun c => .ok ((), c.skip n)

/-- `d.subarray(p, p + n)`, and past it. -/
def view (n : Nat) : Reader β ε (List β) := fun c => .ok (c.rest.take n, c.skip n)

/-- What a reader read, and the elements it passed. -/
def spanned (m : Reader β ε α) : Reader β ε (α × List β) := fun c => do
  let (a, c') ← m c
  return ((a, c.rest.take (c'.pos - c.pos)), c')

/-- If the next elements are `w`, past them and on with `m`, else on with `m'`. -/
def ifNext [DecidableEq β] (w : List β) (m m' : Reader β ε α) : Reader β ε α := fun c =>
  if c.rest.take w.length = w then m (c.skip w.length) else m' c

/-- The whole buffer: what is left must be nothing. -/
def parse (m : Reader β ε α) (e : ε) (b : List β) : Except ε α := do
  let (a, c) ← m ⟨b, 0⟩
  if c.pos = c.buf.length then .ok a else .error e

/-- The reader without its reasons. -/
def quiet (m : Reader β ε α) : Prog (Cursor β) Unit α := fun c =>
  match m c with
  | .ok (a, c') => .ok a c'
  | .error _ => .err () ⟨[], 0⟩

section Quiet

variable {m : Reader β ε α} {k : α → Reader β ε γ} {c c' : Cursor β} {a : α}

theorem quiet_eq_ok : quiet m c = .ok a c' ↔ m c = .ok (a, c') := by
  unfold quiet
  cases m c with
  | error e => simp
  | ok p => simp [Prod.ext_iff]

theorem quiet_pure : quiet (pure a : Reader β ε α) = pure a := rfl

theorem bind_apply : (m >>= k) c = (match m c with
    | .ok p => k p.1 p.2
    | .error e => .error e) := by
  show (m c >>= fun p => k p.1 p.2) = _
  cases m c <;> rfl

theorem refuse_apply {b : Prop} [Decidable b] {e : ε} :
    (refuse b e : Reader β ε Unit) c = if b then .error e else .ok ((), c) := rfl

theorem take_apply {n : Nat} {e : ε} : (take n e : Reader β ε (List β)) c =
    if c.pos + n > c.buf.length then .error e else .ok (c.rest.take n, c.skip n) := by
  show ((refuse (c.pos + n > c.buf.length) e >>= fun _ => do
    set (c.skip n)
    return (c.buf.drop c.pos).take n : Reader β ε (List β)) c) = _
  rw [bind_apply, refuse_apply]
  by_cases h : c.pos + n > c.buf.length
  · rw [if_pos h, if_pos h]
  · rw [if_neg h, if_neg h]
    rfl

theorem quiet_bind : quiet (m >>= k) = quiet m >>= fun a => quiet (k a) := by
  funext c
  show quiet (m >>= k) c = Prog.bind (quiet m) (fun a => quiet (k a)) c
  simp only [quiet, Prog.bind, bind_apply]
  cases m c <;> rfl

theorem quiet_readN : ∀ n, quiet (readN m n) = Cursor.readN (quiet m) n
  | 0 => rfl
  | n + 1 => by
    rw [readN, quiet_bind, Cursor.readN]
    congr 1
    funext a
    rw [quiet_bind, quiet_readN n]
    rfl

end Quiet

end Reader

/-! ## The rules -/

namespace Cursor.Inverts

open Reader

variable {α β γ ε : Type} {m : Reader β ε α} {w : α → List β} {v : α → Prop}

/-- A field, then what follows it: `f` names the field in the whole. -/
theorem field {k : α → Reader β ε γ} {f : γ → α} {w₂ : γ → List β} {v₂ : γ → Prop} (hm : Inverts (quiet m) w v)
    (hk : ∀ a, v a → Inverts (quiet (k a)) w₂ fun r => f r = a ∧ v₂ r) (hv : ∀ r, v₂ r → v (f r)) :
    Inverts (quiet (m >>= k)) (fun r => w (f r) ++ w₂ r) v₂ := by
  rw [quiet_bind]
  exact hm.bind hk hv

/-- The end of a record. -/
theorem done {a : α} (h : ∀ b, v b ↔ b = a) : Inverts (quiet (Pure.pure a : Reader β ε α)) (fun _ => []) v := Inverts.pure h

/-- What the reader always refuses is no value. -/
theorem never {e : ε} (h : ∀ a, ¬v a) : Inverts (quiet (throw e : Reader β ε α)) w v where
  reads := fun _ ha => (h _ ha).elim
  sound := fun _ => trivial

/-- A guard that no valid value fails. -/
theorem refuse {p : Prop} [Decidable p] {e : ε} {k : Unit → Reader β ε α} (hk : ¬p → Inverts (quiet (k ())) w v)
    (hv : p → ∀ a, ¬v a) : Inverts (quiet (Reader.refuse p e >>= k)) w v := by
  by_cases hp : p
  · have hthrow : (Reader.refuse p e >>= k) = (throw e : Reader β ε α) := by
      funext c
      rw [bind_apply, refuse_apply, if_pos hp]
      rfl
    rw [hthrow]
    exact never (hv hp)
  · have hpass : (Reader.refuse p e >>= k) = k () := by
      funext c
      rw [bind_apply, refuse_apply, if_neg hp]
    rw [hpass]
    exact hk hp

theorem takes (n : Nat) (e : ε) : Inverts (quiet (Reader.take n e : Reader β ε (List β))) id fun l => l.length = n where
  reads := by
    rintro c l tail hc rfl hrest
    have hfit : ¬c.pos + l.length > c.buf.length := Nat.not_lt.2 (pos_add_le hc hrest)
    have htaken : (c.buf.drop c.pos).take l.length = l := (congrArg (List.take l.length) hrest).trans List.take_left
    rw [quiet_eq_ok, take_apply, if_neg hfit]
    exact congrArg (fun l' => Except.ok (l', c.skip l.length)) htaken
  sound := by
    intro c hc
    unfold wp quiet
    rw [take_apply]
    by_cases hfit : c.pos + n > c.buf.length
    · rw [if_pos hfit]
      trivial
    · rw [if_neg hfit]
      have hlen : (c.rest.take n).length = n := by
        simp only [rest, List.length_take, List.length_drop]
        omega
      refine ⟨hlen, by rw [id, hlen], ?_⟩
      exact (List.take_append_drop n c.rest).symm.trans (congrArg _ (rest_skip c n).symm)

/-- A value that is there. -/
theorem present (hm : Inverts (quiet m) w v) : Inverts (quiet (m >>= fun a => Pure.pure (some a))) (fun r => r.elim [] w)
    fun r => ∃ a, r = some a ∧ v a where
  reads := by
    rintro c _ tail hc ⟨a, rfl, ha⟩ hrest
    rw [quiet_bind, bind_eq_ok]
    exact ⟨a, _, hm.reads hc ha hrest, rfl⟩
  sound := by
    intro c hc
    rw [quiet_bind, wp_bind]
    refine wp_mono (hm.sound hc) id (fun _ _ => id) ?_
    rintro a c' ⟨ha, hc', hrest⟩
    exact ⟨⟨a, rfl, ha⟩, hc', hrest⟩

/-- A counted loop. -/
theorem times (hm : Inverts (quiet m) w v) (n : Nat) :
    Inverts (quiet (Reader.readN m n)) (fun l => (l.map w).flatten) fun l => l.length = n ∧ ∀ a ∈ l, v a := by
  rw [quiet_readN]
  exact hm.readN n

/-- Read as a whole, a buffer gives `a` exactly when it is what the writer writes for it. -/
theorem parse_eq_ok {e : ε} {x : List β} {a : α} (h : Inverts (quiet m) w v) :
    Reader.parse m e x = .ok a ↔ v a ∧ w a = x := by
  have hparse : Reader.parse m e x = .ok a ↔ ∃ c, quiet m ⟨x, 0⟩ = .ok a c ∧ c.pos = c.buf.length := by
    simp only [quiet_eq_ok]
    unfold Reader.parse
    cases m ⟨x, 0⟩ with
    | error e' => simp [Bind.bind, Except.bind]
    | ok p =>
      obtain ⟨b, c⟩ := p
      show (if c.pos = c.buf.length then Except.ok b else .error e) = .ok a ↔ _
      by_cases hend : c.pos = c.buf.length <;> simp [hend]
  have hrun : Cursor.run (whole (quiet m)) x = some (some a) ↔ ∃ c, quiet m ⟨x, 0⟩ = .ok a c ∧ c.pos = c.buf.length := by
    have hwhole : Cursor.run (whole (quiet m)) x = some (some a) ↔ ∃ c, whole (quiet m) ⟨x, 0⟩ = .ok a c := by
      unfold Cursor.run
      cases whole (quiet m) ⟨x, 0⟩ <;> simp
    rw [hwhole]
    simp only [whole, bind_eq_ok, get_eq_ok, check_eq_ok, pure_eq_ok, not_not]
    constructor
    · rintro ⟨_, _, c, hc, _, _, ⟨rfl, rfl⟩, _, _, ⟨hend, rfl⟩, rfl, rfl⟩
      exact ⟨_, hc, hend⟩
    · rintro ⟨c, hc, hend⟩
      exact ⟨c, a, c, hc, c, c, ⟨rfl, rfl⟩, (), c, ⟨hend, rfl⟩, rfl, rfl⟩
  rw [← h.run_whole, hparse, hrun]

end Cursor.Inverts

namespace Cursor.Reads

open Reader Format

variable {α β γ ε : Type} {N : Nat} {m m' : Reader β ε α} {E E' : Format β α}

theorem seq {k : α → Reader β ε γ} {F : α → Format β γ} (hm : Reads N (quiet m) E) (hk : ∀ a, Reads N (quiet (k a)) (F a)) :
    Reads N (quiet (m >>= k)) (Seq E F) := by
  rw [quiet_bind]
  exact hm.bind hk

theorem done {a : α} : Reads N (quiet (Pure.pure a : Reader β ε α)) fun r e => r = a ∧ e = [] := Reads.pure

/-- A value computed from what was read. -/
theorem mapped {f : α → γ} (hm : Reads N (quiet m) E) :
    Reads N (quiet (m >>= fun a => Pure.pure (f a))) fun r e => ∃ a, f a = r ∧ E a e := by
  rw [quiet_bind]
  exact hm.map

theorem times (hm : Reads N (quiet m) E) (n : Nat) : Reads N (quiet (Reader.readN m n)) fun l e => l.length = n ∧ Many E l e := by
  rw [quiet_readN]
  exact hm.readN n

/-- A guard. -/
theorem refusing {p : Prop} [Decidable p] {e : ε} {k : Unit → Reader β ε α} (hk : Reads N (quiet (k ())) E) :
    Reads N (quiet (Reader.refuse p e >>= k)) fun r e => ¬p ∧ E r e where
  reads := by
    rintro c r e' tail hN hc ⟨hp, hr⟩ hrest
    have hpass : (Reader.refuse p e >>= k) c = k () c := by rw [bind_apply, refuse_apply, if_neg hp]
    rw [quiet, hpass]
    exact hk.reads hN hc hr hrest
  sound := by
    intro c
    by_cases hp : p
    · have hrefuse : (Reader.refuse p e >>= k) c = .error e := by rw [bind_apply, refuse_apply, if_pos hp]
      unfold wp quiet
      rw [hrefuse]
      trivial
    · have hpass : (Reader.refuse p e >>= k) c = k () c := by rw [bind_apply, refuse_apply, if_neg hp]
      have hquiet : quiet (Reader.refuse p e >>= k) c = quiet (k ()) c := by rw [quiet, quiet, hpass]
      unfold wp
      rw [hquiet]
      refine wp_mono (hk.sound c) id (fun _ _ => id) ?_
      rintro r c' ⟨hbuf, hle, hread⟩
      refine ⟨hbuf, hle, fun hend => ?_⟩
      obtain ⟨e', tail, hr, hrest⟩ := hread hend
      exact ⟨e', tail, ⟨hp, hr⟩, hrest⟩

/-- A test of what is left, of what is read in any case. -/
theorem requiring {n : Nat} {e : ε} {k : Unit → Reader β ε α} (hk : Reads N (quiet (k ())) E) (hE : ∀ r e, E r e → n ≤ e.length) :
    Reads N (quiet (require n e >>= k)) E where
  reads := by
    intro c r e' tail hN hc hr hrest
    have hfit : ¬c.pos + n > c.buf.length := by
      have := pos_add_le hc hrest
      have := hE r e' hr
      omega
    have hpass : (require n e >>= k) c = k () c := by
      rw [bind_apply]
      simp only [require, if_neg hfit]
    rw [quiet, hpass]
    exact hk.reads hN hc hr hrest
  sound := by
    intro c
    by_cases hfit : c.pos + n > c.buf.length
    · have hrefuse : (require n e >>= k) c = .error e := by
        rw [bind_apply]
        simp only [require, if_pos hfit]
      unfold wp quiet
      rw [hrefuse]
      trivial
    · have hquiet : quiet (require n e >>= k) c = quiet (k ()) c := by
        unfold quiet
        rw [bind_apply]
        simp only [require, if_neg hfit]
      unfold wp
      rw [hquiet]
      exact hk.sound c

theorem passing (n : Nat) : Reads N (quiet (pass n : Reader β ε Unit)) fun _ e => e.length = n where
  reads := by
    rintro c _ e tail _ _ rfl _
    rfl
  sound := by
    intro c
    refine ⟨rfl, Nat.le_add_right .., fun hend => ⟨c.rest.take n, c.rest.drop n, ?_, (List.take_append_drop n c.rest).symm, ?_⟩⟩
    all_goals
      have hlen : (c.rest.take n).length = n := by
        simp only [rest, List.length_take, List.length_drop]
        simp only [skip_pos] at hend
        omega
      simp only [hlen]

theorem viewing (n : Nat) : Reads N (quiet (view n : Reader β ε (List β))) fun l e => l = e ∧ e.length = n where
  reads := by
    rintro c l e tail _ _ ⟨hl, hn⟩ hrest
    show Outcome.ok (c.rest.take n) (c.skip n) = _
    rw [hrest, ← hn, List.take_left, hl]
  sound := by
    intro c
    refine ⟨rfl, Nat.le_add_right .., fun hend => ⟨c.rest.take n, c.rest.drop n, ⟨rfl, ?_⟩, (List.take_append_drop n c.rest).symm, ?_⟩⟩
    all_goals
      have hlen : (c.rest.take n).length = n := by
        simp only [rest, List.length_take, List.length_drop]
        simp only [skip_pos] at hend
        omega
      simp only [hlen]

/-- What was passed is the encoding. -/
theorem spanning (hm : Reads N (quiet m) E) : Reads N (quiet (spanned m)) fun r e => E r.1 e ∧ r.2 = e where
  reads := by
    rintro c ⟨a, b⟩ e tail hN hc ⟨ha, hb⟩ hrest
    have hread := quiet_eq_ok.1 (hm.reads hN hc ha hrest)
    rw [quiet_eq_ok]
    show (m c >>= fun r => Except.ok ((r.1, c.rest.take (r.2.pos - c.pos)), r.2)) = _
    rw [hread]
    show Except.ok ((a, c.rest.take (c.pos + e.length - c.pos)), c.skip e.length) = _
    rw [Nat.add_sub_cancel_left, hrest, List.take_left, ← hb]
  sound := by
    intro c
    have hsound := hm.sound c
    unfold wp quiet at hsound ⊢
    have hspan : spanned m c = (m c >>= fun r => Except.ok ((r.1, c.rest.take (r.2.pos - c.pos)), r.2)) := rfl
    rw [hspan]
    cases hmc : m c with
    | error e => trivial
    | ok r =>
      obtain ⟨a, c'⟩ := r
      rw [hmc] at hsound
      obtain ⟨hbuf, hle, hread⟩ := hsound
      refine ⟨hbuf, hle, fun hend => ?_⟩
      obtain ⟨e, tail, ha, hrest, rfl⟩ := hread hend
      refine ⟨e, tail, ⟨ha, ?_⟩, hrest, rfl⟩
      show c.rest.take (c.pos + e.length - c.pos) = e
      rw [Nat.add_sub_cancel_left, hrest, List.take_left]

/-- A branch on the next elements, which either branch reads. -/
theorem branching [DecidableEq β] {w : List β} (hm : Reads N (quiet m) E) (hm' : Reads N (quiet m') E')
    (hE' : ∀ r e, E' r e → w.length ≤ e.length) : Reads N (quiet (ifNext w m m'))
      fun r e => (∃ e', E r e' ∧ e = w ++ e') ∨ E' r e ∧ e.take w.length ≠ w where
  reads := by
    intro c r e tail hN hc hr hrest
    rw [quiet_eq_ok]
    rcases hr with ⟨e', hr, rfl⟩ | ⟨hr, hne⟩
    · have hnext : c.rest.take w.length = w := by rw [hrest, List.append_assoc, List.take_left]
      rw [List.append_assoc] at hrest
      have hread := hm.reads (c := c.skip w.length) hN (pos_add_le hc hrest) hr (rest_skip_of_append hrest)
      rw [skip_skip, ← List.length_append] at hread
      show (if c.rest.take w.length = w then m (c.skip w.length) else m' c) = _
      rw [if_pos hnext]
      exact quiet_eq_ok.1 hread
    · have hnext : c.rest.take w.length ≠ w := by
        rw [hrest, List.take_append_of_le_length (hE' r e hr)]
        exact hne
      show (if c.rest.take w.length = w then m (c.skip w.length) else m' c) = _
      rw [if_neg hnext]
      exact quiet_eq_ok.1 (hm'.reads hN hc hr hrest)
  sound := by
    intro c
    by_cases hnext : c.rest.take w.length = w
    · have hquiet : quiet (ifNext w m m') c = quiet m (c.skip w.length) := by
        unfold quiet ifNext
        rw [if_pos hnext]
      unfold wp
      rw [hquiet]
      refine wp_mono (hm.sound (c.skip w.length)) id (fun _ _ => id) ?_
      rintro r c' ⟨hbuf, hle, hread⟩
      refine ⟨hbuf, Nat.le_trans (Nat.le_add_right ..) hle, fun hend => ?_⟩
      obtain ⟨e, tail, hr, hrest, rfl⟩ := hread hend
      refine ⟨w ++ e, tail, .inl ⟨e, hr, rfl⟩, ?_, by rw [skip_skip, List.length_append]⟩
      rw [List.append_assoc, ← hrest, rest_skip]
      conv_lhs => rw [← List.take_append_drop w.length c.rest, hnext]
    · have hquiet : quiet (ifNext w m m') c = quiet m' c := by
        unfold quiet ifNext
        rw [if_neg hnext]
      unfold wp
      rw [hquiet]
      refine wp_mono (hm'.sound c) id (fun _ _ => id) ?_
      rintro r c' ⟨hbuf, hle, hread⟩
      refine ⟨hbuf, hle, fun hend => ?_⟩
      obtain ⟨e, tail, hr, hrest, rfl⟩ := hread hend
      refine ⟨e, tail, .inr ⟨hr, ?_⟩, hrest, rfl⟩
      rw [hrest, List.take_append_of_le_length (hE' r e hr)] at hnext
      exact hnext

end Cursor.Reads

end Tacit
