import Mathlib.Order.Defs.Unbundled
import Mathlib.Tactic.Common
/-!
# Programs with a mutable state, an error result and a panic

Rust's `fn f(&mut self, …) -> Result<α, ε>`: a program ends by a panic, by `Err` with the state as the code
left it, or by `Ok`. `wp` is the weakest precondition of one run (its first argument is what a panic is
worth: `True` for partial, `False` for total correctness); `Agrees` compares two runs that read different
inputs: unless one panics, they end the same.
-/
namespace Tacit

inductive Outcome (σ ε α : Type)
  | panic
  | err (e : ε) (s : σ)
  | ok (a : α) (s : σ)

def Prog (σ ε α : Type) := σ → Outcome σ ε α

namespace Prog

variable {σ ε ε' α β : Type}

def bind (m : Prog σ ε α) (k : α → Prog σ ε β) : Prog σ ε β := fun s =>
  match m s with
  | .panic => .panic
  | .err e t => .err e t
  | .ok a t => k a t

instance : Monad (Prog σ ε) where
  pure a := fun s => .ok a s
  bind := bind

/-- `panic!`. -/
def panic : Prog σ ε α := fun _ => .panic

/-- `return Err(e)`. -/
def throw (e : ε) : Prog σ ε α := fun s => .err e s

def get : Prog σ ε σ := fun s => .ok s s

def modify (f : σ → σ) : Prog σ ε Unit := fun s => .ok () (f s)

/-- `if b { return Err(e) }`. -/
def check (b : Prop) [Decidable b] (e : ε) : Prog σ ε Unit := if b then throw e else pure ()

/-- `assert!(b)`. -/
def assert (b : Prop) [Decidable b] : Prog σ ε Unit := if b then pure () else panic

/-- `o.ok_or(e)?`. -/
def orThrow (o : Option α) (e : ε) : Prog σ ε α :=
  match o with
  | some a => pure a
  | none => throw e

/-- `o.expect(…)`. -/
def orPanic (o : Option α) : Prog σ ε α :=
  match o with
  | some a => pure a
  | none => panic

/-- `?` on a result computed without the state. -/
def ofExcept (r : Except ε α) : Prog σ ε α :=
  match r with
  | .ok a => pure a
  | .error e => throw e

/-- `m.expect(…)`: an `Err` becomes a panic. -/
def expect (m : Prog σ ε α) : Prog σ ε' α := fun s =>
  match m s with
  | .panic => .panic
  | .err _ _ => .panic
  | .ok a t => .ok a t

/-- The result of `m` as a value; what `m` did to the state stays. -/
def attempt (m : Prog σ ε α) : Prog σ ε' (Except ε α) := fun s =>
  match m s with
  | .panic => .panic
  | .err e t => .ok (.error e) t
  | .ok a t => .ok (.ok a) t

/-- Run `m` once for every element, in order. -/
def forEach (l : List β) (m : β → Prog σ ε Unit) : Prog σ ε Unit :=
  match l with
  | [] => pure ()
  | b :: t => (m b).bind fun _ => forEach t m

/-! ## Results without a state -/

/-- `if b { return Err(e) }` in a function that reads no state. -/
def refuse (b : Prop) [Decidable b] (e : ε) : Except ε Unit := if b then .error e else .ok ()

/-- `o.ok_or(e)?` in a function that reads no state. -/
def need (o : Option α) (e : ε) : Except ε α := o.elim (.error e) .ok

@[simp] theorem refuse_eq_ok {b : Prop} [Decidable b] {e : ε} {u : Unit} : refuse b e = .ok u ↔ ¬ b := by
  unfold refuse
  by_cases h : b <;> simp [h]

@[simp] theorem need_eq_ok {o : Option α} {e : ε} {a : α} : need o e = .ok a ↔ o = some a := by
  cases o <;> simp [need]

@[simp] theorem except_bind_eq_ok {r : Except ε α} {k : α → Except ε β} {b : β} :
    r >>= k = .ok b ↔ ∃ a, r = .ok a ∧ k a = .ok b := by
  cases r with
  | error e => simp [Bind.bind, Except.bind]
  | ok a => simp [Bind.bind, Except.bind]

@[simp] theorem except_pure_eq_ok {a b : α} : (pure a : Except ε α) = .ok b ↔ b = a := by
  simp [Pure.pure, Except.pure, eq_comm]

/-! ## Weakest preconditions -/

/-- `E` holds of an `Err` result, `Q` of an `Ok` result, `A` if the run panics. -/
def wp (A : Prop) (m : Prog σ ε α) (s : σ) (E : ε → σ → Prop) (Q : α → σ → Prop) : Prop :=
  match m s with
  | .panic => A
  | .err e t => E e t
  | .ok a t => Q a t

variable {A : Prop} {s : σ} {E : ε → σ → Prop}

@[simp] theorem wp_pure {a : α} {Q : α → σ → Prop} : wp A (pure a) s E Q ↔ Q a s := Iff.rfl

@[simp] theorem wp_bind {m : Prog σ ε α} {k : α → Prog σ ε β} {Q : β → σ → Prop} :
    wp A (m >>= k) s E Q ↔ wp A m s E (fun a t => wp A (k a) t E Q) := by
  show wp A (m.bind k) s E Q ↔ _
  unfold wp bind
  cases m s <;> rfl

@[simp] theorem wp_bind' {m : Prog σ ε α} {k : α → Prog σ ε β} {Q : β → σ → Prop} :
    wp A (m.bind k) s E Q ↔ wp A m s E (fun a t => wp A (k a) t E Q) := wp_bind

@[simp] theorem wp_panic {Q : α → σ → Prop} : wp A (panic : Prog σ ε α) s E Q ↔ A := Iff.rfl

@[simp] theorem wp_throw {e : ε} {Q : α → σ → Prop} : wp A (throw e : Prog σ ε α) s E Q ↔ E e s := Iff.rfl

@[simp] theorem wp_get {Q : σ → σ → Prop} : wp A (get : Prog σ ε σ) s E Q ↔ Q s s := Iff.rfl

@[simp] theorem wp_modify {f : σ → σ} {Q : Unit → σ → Prop} :
    wp A (modify f : Prog σ ε Unit) s E Q ↔ Q () (f s) := Iff.rfl

@[simp] theorem wp_check {b : Prop} [Decidable b] {e : ε} {Q : Unit → σ → Prop} :
    wp A (check b e) s E Q ↔ (b → E e s) ∧ (¬ b → Q () s) := by
  unfold check
  by_cases h : b <;> simp [h]

@[simp] theorem wp_assert {b : Prop} [Decidable b] {Q : Unit → σ → Prop} :
    wp A (assert b : Prog σ ε Unit) s E Q ↔ (b → Q () s) ∧ (¬ b → A) := by
  unfold assert
  by_cases h : b <;> simp [h]

@[simp] theorem wp_orThrow {o : Option α} {e : ε} {Q : α → σ → Prop} :
    wp A (orThrow o e) s E Q ↔ (o = none → E e s) ∧ (∀ a, o = some a → Q a s) := by
  cases o <;> simp [orThrow]

@[simp] theorem wp_orPanic {o : Option α} {Q : α → σ → Prop} :
    wp A (orPanic o : Prog σ ε α) s E Q ↔ (o = none → A) ∧ (∀ a, o = some a → Q a s) := by
  cases o <;> simp [orPanic]

@[simp] theorem wp_ofExcept {r : Except ε α} {Q : α → σ → Prop} :
    wp A (ofExcept r : Prog σ ε α) s E Q ↔ (∀ e, r = .error e → E e s) ∧ (∀ a, r = .ok a → Q a s) := by
  cases r <;> simp [ofExcept]

@[simp] theorem wp_expect {m : Prog σ ε' α} {Q : α → σ → Prop} :
    wp A (expect m : Prog σ ε α) s E Q ↔ wp A m s (fun _ _ => A) Q := by
  unfold wp expect
  cases m s <;> rfl

@[simp] theorem wp_attempt {m : Prog σ ε' α} {Q : Except ε' α → σ → Prop} :
    wp A (attempt m : Prog σ ε _) s E Q ↔ wp A m s (fun e t => Q (.error e) t) (fun a t => Q (.ok a) t) := by
  unfold wp attempt
  cases m s <;> rfl

@[simp] theorem wp_ite {b : Prop} [Decidable b] {m m' : Prog σ ε α} {Q : α → σ → Prop} :
    wp A (if b then m else m') s E Q ↔ (b → wp A m s E Q) ∧ (¬ b → wp A m' s E Q) := by
  by_cases h : b <;> simp [h]

theorem wp_mono {m : Prog σ ε α} {A' : Prop} {E' : ε → σ → Prop} {Q Q' : α → σ → Prop}
    (h : wp A m s E Q) (ha : A → A') (he : ∀ e t, E e t → E' e t) (hq : ∀ a t, Q a t → Q' a t) :
    wp A' m s E' Q' := by
  unfold wp at *
  cases hm : m s with
  | panic => rw [hm] at h; exact ha h
  | err e t => rw [hm] at h; exact he e t h
  | ok a t => rw [hm] at h; exact hq a t h

/-- A good end has what two specifications say of it. -/
theorem wp_and {m : Prog σ ε α} {Q Q' : α → σ → Prop} (h : wp A m s E Q) (h' : wp True m s (fun _ _ => True) Q') :
    wp A m s E (fun a t => Q a t ∧ Q' a t) := by
  unfold wp at *
  cases hm : m s with
  | panic => rw [hm] at h; exact h
  | err e t => rw [hm] at h; exact h
  | ok a t => rw [hm] at h h'; exact ⟨h, h'⟩

/-- A loop keeps what its body keeps. -/
theorem wp_forEach {I : σ → Prop} {m : β → Prog σ ε Unit} : ∀ {l : List β} {s : σ},
    (∀ b ∈ l, ∀ s, I s → wp A (m b) s (fun _ t => I t) (fun _ t => I t)) → I s →
    wp A (forEach l m) s (fun _ t => I t) (fun _ t => I t)
  | [], _, _, hs => hs
  | b :: t, s, h, hs => by
    rw [forEach, wp_bind']
    refine wp_mono (h b (by simp) s hs) id (fun _ _ h => h) ?_
    intro _ s' hs'
    exact wp_forEach (fun c hc => h c (by simp [hc])) hs'

/-! ## Runs that end well -/

section Ok

variable {m : Prog σ ε α} {k : α → Prog σ ε β} {t : σ} {b : β}

@[simp] theorem bind_eq_ok : (m >>= k) s = .ok b t ↔ ∃ a u, m s = .ok a u ∧ k a u = .ok b t := by
  show m.bind k s = .ok b t ↔ _
  unfold bind
  cases h : m s with
  | panic => simp
  | err e u => simp
  | ok a u => simp

@[simp] theorem pure_eq_ok {a a' : α} : (pure a : Prog σ ε α) s = .ok a' t ↔ a' = a ∧ t = s := by
  show Outcome.ok a s = .ok a' t ↔ _
  constructor
  · intro h; cases h; exact ⟨rfl, rfl⟩
  · rintro ⟨rfl, rfl⟩; rfl

@[simp] theorem panic_ne_ok {a : α} : ¬ (panic : Prog σ ε α) s = .ok a t := by rintro ⟨⟩

@[simp] theorem throw_ne_ok {a : α} {e : ε} : ¬ (throw e : Prog σ ε α) s = .ok a t := by rintro ⟨⟩

@[simp] theorem get_eq_ok {u : σ} : (get : Prog σ ε σ) s = .ok u t ↔ u = s ∧ t = s := pure_eq_ok

@[simp] theorem modify_eq_ok {f : σ → σ} {u : Unit} : (modify f : Prog σ ε Unit) s = .ok u t ↔ t = f s := by
  show Outcome.ok () (f s) = .ok u t ↔ _
  constructor
  · intro h; cases h; rfl
  · rintro rfl; rfl

@[simp] theorem check_eq_ok {b : Prop} [Decidable b] {e : ε} {u : Unit} :
    (check b e : Prog σ ε Unit) s = .ok u t ↔ ¬ b ∧ t = s := by
  unfold check
  by_cases h : b <;> simp [h]

@[simp] theorem assert_eq_ok {b : Prop} [Decidable b] {u : Unit} :
    (assert b : Prog σ ε Unit) s = .ok u t ↔ b ∧ t = s := by
  unfold assert
  by_cases h : b <;> simp [h]

@[simp] theorem orThrow_eq_ok {o : Option α} {e : ε} {a : α} :
    (orThrow o e : Prog σ ε α) s = .ok a t ↔ o = some a ∧ t = s := by
  cases o with
  | none => simp [orThrow]
  | some b => simp [orThrow, eq_comm]

@[simp] theorem orPanic_eq_ok {o : Option α} {a : α} :
    (orPanic o : Prog σ ε α) s = .ok a t ↔ o = some a ∧ t = s := by
  cases o with
  | none => simp [orPanic]
  | some b => simp [orPanic, eq_comm]

@[simp] theorem ofExcept_eq_ok {r : Except ε α} {a : α} :
    (ofExcept r : Prog σ ε α) s = .ok a t ↔ r = .ok a ∧ t = s := by
  cases r with
  | error e => simp [ofExcept]
  | ok b => simp [ofExcept, eq_comm]

@[simp] theorem expect_eq_ok {m : Prog σ ε' α} {a : α} : (expect m : Prog σ ε α) s = .ok a t ↔ m s = .ok a t := by
  unfold expect
  cases m s <;> simp

@[simp] theorem attempt_eq_ok {m : Prog σ ε' α} {x : Except ε' α} : (attempt m : Prog σ ε _) s = .ok x t ↔
    (∃ e, x = .error e ∧ m s = .err e t) ∨ ∃ a, x = .ok a ∧ m s = .ok a t := by
  unfold attempt
  cases m s <;> simp [eq_comm]

@[simp] theorem forEach_nil_eq_ok {m : β → Prog σ ε Unit} {u : Unit} : forEach [] m s = .ok u t ↔ t = s := by
  rw [forEach]
  simp

@[simp] theorem forEach_cons_eq_ok {m : β → Prog σ ε Unit} {b : β} {l : List β} {u : Unit} :
    forEach (b :: l) m s = .ok u t ↔ ∃ v, m b s = .ok () v ∧ forEach l m v = .ok u t := by
  rw [forEach]
  show ((m b) >>= fun _ => forEach l m) s = _ ↔ _
  rw [bind_eq_ok]
  exact ⟨fun ⟨_, v, h⟩ => ⟨v, h⟩, fun ⟨v, h⟩ => ⟨(), v, h⟩⟩

/-- A loop of checks. -/
@[simp] theorem forEach_check_eq_ok {p : β → Prop} [DecidablePred p] {e : ε} {u : Unit} : ∀ {l : List β} {s t : σ},
    (forEach l fun b => check (p b) e) s = .ok u t ↔ (∀ b ∈ l, ¬ p b) ∧ t = s
  | [], s, t => by simp
  | b :: l, s, t => by
    rw [forEach_cons_eq_ok]
    simp only [check_eq_ok, forEach_check_eq_ok (l := l), List.forall_mem_cons]
    exact ⟨fun ⟨v, ⟨hb, hv⟩, hl, ht⟩ => ⟨⟨hb, hl⟩, ht.trans hv⟩, fun ⟨⟨hb, hl⟩, ht⟩ => ⟨s, ⟨hb, rfl⟩, hl, ht⟩⟩

theorem ite_eq_ok {b : Prop} [Decidable b] {m m' : Prog σ ε α} {a : α} :
    (if b then m else m') s = .ok a t ↔ (b ∧ m s = .ok a t) ∨ (¬ b ∧ m' s = .ok a t) := by
  by_cases h : b <;> simp [h]

theorem wp_of_ok {E : ε → σ → Prop} {Q : β → σ → Prop} {m : Prog σ ε β} (h : wp A m s E Q) (hm : m s = .ok b t) :
    Q b t := by
  unfold wp at h
  rwa [hm] at h

theorem wp_of_err {E : ε → σ → Prop} {Q : β → σ → Prop} {m : Prog σ ε β} {e : ε} (h : wp A m s E Q)
    (hm : m s = .err e t) : E e t := by
  unfold wp at h
  rwa [hm] at h

/-- What is asked of a run that is known is asked of its end. -/
theorem wp_ran {E : ε → σ → Prop} {Q : β → σ → Prop} {m : Prog σ ε β} (h : m s = .ok b t) : wp A m s E Q ↔ Q b t := by
  unfold wp
  rw [h]

theorem ne_panic_of_wp {E : ε → σ → Prop} {Q : β → σ → Prop} {m : Prog σ ε β} (h : wp False m s E Q) : m s ≠ .panic := by
  intro hm
  unfold wp at h
  rwa [hm] at h

/-- A run that can only fail, and then leaves the state alone. -/
theorem err_of_wp {m : Prog σ ε β} (h : wp False m s (fun _ t => t = s) (fun _ _ => False)) : ∃ e, m s = .err e s := by
  unfold wp at h
  cases hm : m s with
  | panic => rw [hm] at h; exact h.elim
  | err e t => rw [hm] at h; exact ⟨e, h ▸ rfl⟩
  | ok a t => rw [hm] at h; exact h.elim

/-- A run that neither panics nor fails. -/
theorem ok_of_wp {m : Prog σ ε β} {Q : β → σ → Prop} (h : wp False m s (fun _ _ => False) Q) :
    ∃ b t, m s = .ok b t ∧ Q b t := by
  unfold wp at h
  cases hm : m s with
  | panic => rw [hm] at h; exact h.elim
  | err e t => rw [hm] at h; exact h.elim
  | ok a t => rw [hm] at h; exact ⟨a, t, rfl, h⟩

/-- The one end of a run that ends well. -/
theorem ok_iff_wp {m : Prog σ ε β} : m s = .ok b t ↔ wp False m s (fun _ _ => False) fun c u => c = b ∧ u = t := by
  unfold wp
  cases m s <;> simp

/-- What holds of every good end of a run holds of its weakest precondition, and back. -/
theorem wp_iff_ok {Q : α → σ → Prop} : wp True m s (fun _ _ => True) Q ↔ ∀ a u, m s = .ok a u → Q a u := by
  unfold wp
  cases m s <;> simp

end Ok

@[simp] theorem expect_bind {m : Prog σ ε α} {k : α → Prog σ ε β} :
    (expect (m >>= k) : Prog σ ε' β) = expect m >>= fun a => expect (k a) := by
  funext s
  show expect (m.bind k) s = (expect m).bind (fun a => expect (k a)) s
  simp only [expect, bind]
  cases m s <;> rfl

theorem expect_forEach {m : β → Prog σ ε Unit} : ∀ {l : List β},
    (expect (forEach l m) : Prog σ ε' Unit) = forEach l fun b => expect (m b)
  | [] => rfl
  | b :: t => by
    rw [forEach, forEach, ← expect_forEach (l := t)]
    exact expect_bind

/-! ## What a program can do to the state -/

/-- Every run of `m`, a failed one too, takes the state along `R`. -/
def Within (R : σ → σ → Prop) (m : Prog σ ε α) : Prop := ∀ s, wp True m s (fun _ t => R s t) (fun _ t => R s t)

section Within

variable {R : σ → σ → Prop} {m : Prog σ ε α} {k : α → Prog σ ε β}

theorem Within.of_ok (h : Within R m) {a : α} {t : σ} (hm : m s = .ok a t) : R s t := by
  have := h s
  unfold wp at this
  rwa [hm] at this

theorem Within.mono {R' : σ → σ → Prop} (h : Within R m) (hR : ∀ s t, R s t → R' s t) : Within R' m := by
  intro s
  exact wp_mono (h s) id (fun _ t => hR s t) fun _ t => hR s t

theorem Within.panic : Within R (Prog.panic : Prog σ ε α) := fun _ => trivial

theorem Within.modify {g : σ → σ} (h : ∀ s, R s (g s)) : Within R (Prog.modify g : Prog σ ε Unit) := h

theorem Within.expect {m : Prog σ ε' α} (h : Within R m) : Within R (Prog.expect m : Prog σ ε α) := by
  intro s
  rw [wp_expect]
  exact wp_mono (h s) id (fun _ _ _ => trivial) fun _ _ hq => hq

/-- Only the good ends of a program whose `Err`s are panics count. -/
theorem Within.expect_of_ok {m : Prog σ ε' α} (h : ∀ s a t, m s = .ok a t → R s t) :
    Within R (Prog.expect m : Prog σ ε α) := by
  intro s
  rw [wp_expect, wp_iff_ok]
  exact fun a t => h s a t

theorem Within.attempt {m : Prog σ ε' α} (h : Within R m) : Within R (Prog.attempt m : Prog σ ε _) := by
  intro s
  rw [wp_attempt]
  exact h s

theorem Within.ite {b : Prop} [Decidable b] {m m' : Prog σ ε α} (h : b → Within R m) (h' : ¬ b → Within R m') :
    Within R (if b then m else m') := by
  by_cases hb : b
  · rw [if_pos hb]; exact h hb
  · rw [if_neg hb]; exact h' hb

theorem Within.orPanic_bind {o : Option α} (h : ∀ a, o = some a → Within R (k a)) : Within R (Prog.orPanic o >>= k) := by
  cases o with
  | none => exact fun _ => trivial
  | some a => exact h a rfl

variable [IsPreorder σ R]

theorem Within.pure {a : α} : Within R (Pure.pure a : Prog σ ε α) := fun s => refl_of R s

theorem Within.throw {e : ε} : Within R (Prog.throw e : Prog σ ε α) := fun s => refl_of R s

theorem Within.get : Within R (Prog.get : Prog σ ε σ) := fun s => refl_of R s

theorem Within.check {b : Prop} [Decidable b] {e : ε} : Within R (Prog.check b e) := fun s => by simp [refl_of R s]

theorem Within.assert {b : Prop} [Decidable b] : Within R (Prog.assert b : Prog σ ε Unit) := fun s => by simp [refl_of R s]

theorem Within.orThrow {o : Option α} {e : ε} : Within R (Prog.orThrow o e) := fun s => by simp [refl_of R s]

theorem Within.orPanic {o : Option α} : Within R (Prog.orPanic o : Prog σ ε α) := fun s => by simp [refl_of R s]

theorem Within.ofExcept {r : Except ε α} : Within R (Prog.ofExcept r : Prog σ ε α) := fun s => by simp [refl_of R s]

theorem Within.bind (h : Within R m) (hk : ∀ a, Within R (k a)) : Within R (m >>= k) := by
  intro s
  rw [wp_bind]
  refine wp_mono (h s) id (fun _ _ he => he) fun a t ht => ?_
  exact wp_mono (hk a t) id (fun _ _ he => trans_of R ht he) fun _ _ hq => trans_of R ht hq

/-- What `o` holds is known to the rest. -/
theorem Within.orThrow_bind {o : Option α} {e : ε} (h : ∀ a, o = some a → Within R (k a)) :
    Within R (Prog.orThrow o e >>= k) := by
  cases o with
  | none => exact fun s => refl_of R s
  | some a => exact h a rfl

theorem Within.forEach {m : β → Prog σ ε Unit} : ∀ {l : List β}, (∀ b ∈ l, Within R (m b)) → Within R (Prog.forEach l m)
  | [], _ => Within.pure
  | b :: t, h => (h b (by simp)).bind fun _ => Within.forEach fun c hc => h c (by simp [hc])

end Within

/-- `f` of the state is the same. -/
def Same {γ : Type} (f : σ → γ) (s t : σ) : Prop := f t = f s

instance {γ : Type} (f : σ → γ) : IsPreorder σ (Same f) where
  refl _ := rfl
  trans _ _ _ h h' := Eq.trans h' h

/-- No run of `m` changes `f` of the state. -/
abbrev Fixes {γ : Type} (f : σ → γ) (m : Prog σ ε α) : Prop := Within (Same f) m

/-! ## Two runs -/

/-- Two runs from `s`: unless one panics, they end the same. -/
def Agrees (s : σ) (m m' : Prog σ ε α) : Prop := m s = .panic ∨ m' s = .panic ∨ m s = m' s

section Agrees

variable {m m' : Prog σ ε α} {k k' : α → Prog σ ε β}

theorem Agrees.refl : Agrees s m m := Or.inr (Or.inr rfl)

theorem Agrees.bind (h : Agrees s m m') (hk : ∀ a t, m s = .ok a t → m' s = .ok a t → Agrees t (k a) (k' a)) :
    Agrees s (m >>= k) (m' >>= k') := by
  show Agrees s (m.bind k) (m'.bind k')
  unfold Agrees Prog.bind
  rcases h with h | h | h
  · exact Or.inl (by rw [h])
  · exact Or.inr (Or.inl (by rw [h]))
  · rw [← h]
    cases hm : m s with
    | panic => exact Or.inl rfl
    | err e t => exact Or.inr (Or.inr rfl)
    | ok a t => exact hk a t hm (h ▸ hm)

/-- The two runs begin with one program. -/
theorem Agrees.seq (hk : ∀ a t, m s = .ok a t → Agrees t (k a) (k' a)) : Agrees s (m >>= k) (m >>= k') :=
  Agrees.refl.bind fun a t h _ => hk a t h

theorem Agrees.expect {m m' : Prog σ ε' α} (h : Agrees s m m') :
    Agrees s (Prog.expect m : Prog σ ε α) (Prog.expect m') := by
  unfold Agrees Prog.expect
  rcases h with h | h | h
  · exact Or.inl (by rw [h])
  · exact Or.inr (Or.inl (by rw [h]))
  · exact Or.inr (Or.inr (by rw [h]))

theorem Agrees.attempt {m m' : Prog σ ε' α} (h : Agrees s m m') :
    Agrees s (Prog.attempt m : Prog σ ε _) (Prog.attempt m') := by
  unfold Agrees Prog.attempt
  rcases h with h | h | h
  · exact Or.inl (by rw [h])
  · exact Or.inr (Or.inl (by rw [h]))
  · exact Or.inr (Or.inr (by rw [h]))

theorem Agrees.ite {b : Prop} [Decidable b] {n n' : Prog σ ε α} (h : b → Agrees s m m') (h' : ¬ b → Agrees s n n') :
    Agrees s (if b then m else n) (if b then m' else n') := by
  by_cases hb : b
  · rw [if_pos hb, if_pos hb]; exact h hb
  · rw [if_neg hb, if_neg hb]; exact h' hb

theorem Agrees.check {b b' : Prop} [Decidable b] [Decidable b'] {e : ε} (h : b ↔ b') :
    Agrees s (Prog.check b e) (Prog.check b' e) := by
  unfold Prog.check
  by_cases hb : b
  · rw [if_pos hb, if_pos (h.1 hb)]; exact Agrees.refl
  · rw [if_neg hb, if_neg fun c => hb (h.2 c)]; exact Agrees.refl

theorem Agrees.orPanic {o o' : Option α} (h : ∀ a a', o = some a → o' = some a' → a = a') :
    Agrees s (Prog.orPanic o : Prog σ ε α) (Prog.orPanic o') := by
  cases o with
  | none => exact Or.inl rfl
  | some a =>
    cases o' with
    | none => exact Or.inr (Or.inl rfl)
    | some a' => rw [h a a' rfl rfl]; exact Agrees.refl

/-- Two runs whose `Err`s are panics agree if their good ends do. -/
theorem Agrees.expect_of_ok {m m' : Prog σ ε' α}
    (h : ∀ a t a' t', m s = .ok a t → m' s = .ok a' t' → a = a' ∧ t = t') :
    Agrees s (Prog.expect m : Prog σ ε α) (Prog.expect m') := by
  unfold Agrees Prog.expect
  cases hm : m s with
  | panic => exact Or.inl rfl
  | err e t => exact Or.inl rfl
  | ok a t =>
    cases hm' : m' s with
    | panic => exact Or.inr (Or.inl rfl)
    | err e' t' => exact Or.inr (Or.inl rfl)
    | ok a' t' =>
      obtain ⟨rfl, rfl⟩ := h a t a' t' hm hm'
      exact Or.inr (Or.inr rfl)

/-- Two runs without errors agree if their postconditions leave one end. -/
theorem Agrees.of_wp {Q Q' : α → σ → Prop} (h : wp True m s (fun _ _ => False) Q) (h' : wp True m' s (fun _ _ => False) Q')
    (hQ : ∀ a t a' t', Q a t → Q' a' t' → a = a' ∧ t = t') : Agrees s m m' := by
  unfold Agrees
  unfold wp at h h'
  cases hm : m s with
  | panic => exact Or.inl rfl
  | err e t => rw [hm] at h; exact h.elim
  | ok a t =>
    cases hm' : m' s with
    | panic => exact Or.inr (Or.inl rfl)
    | err e' t' => rw [hm'] at h'; exact h'.elim
    | ok a' t' =>
      rw [hm] at h
      rw [hm'] at h'
      obtain ⟨rfl, rfl⟩ := hQ a t a' t' h h'
      exact Or.inr (Or.inr rfl)

theorem Agrees.forEach {γ : Type} {m : β → Prog σ ε Unit} {m' : γ → Prog σ ε Unit} {l : List β} {l' : List γ}
    (h : List.Forall₂ (fun b c => ∀ s, Agrees s (m b) (m' c)) l l') :
    ∀ s, Agrees s (Prog.forEach l m) (Prog.forEach l' m') := by
  induction h with
  | nil => intro s; exact Agrees.refl
  | cons hbc _ ih =>
    intro s
    exact (hbc s).bind fun _ t _ _ => ih t

theorem Agrees.eq_of_ok {a a' : α} {t t' : σ} (h : Agrees s m m') (hm : m s = .ok a t) (hm' : m' s = .ok a' t') :
    a = a' ∧ t = t' := by
  rcases h with h | h | h
  · rw [hm] at h; cases h
  · rw [hm'] at h; cases h
  · rw [hm, hm'] at h; cases h; exact ⟨rfl, rfl⟩

end Agrees

end Prog

end Tacit
