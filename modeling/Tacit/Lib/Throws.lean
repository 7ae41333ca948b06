import Tacit.Lib.Zoom
/-!
# The errors of a program

`Throws E m`: every error `m` ends with is in `E`. The rules follow the program's shape; `bind_eq_err` takes a
failed run apart where an error has to be ruled out by what the run did before.
-/
namespace Tacit.Prog

variable {σ τ ε ε' α β : Type}

/-! ## Failed results without a state -/

theorem except_bind_eq_error {r : Except ε α} {k : α → Except ε β} {e : ε} :
    (r >>= k) = .error e ↔ r = .error e ∨ ∃ a, r = .ok a ∧ k a = .error e := by
  cases r with
  | error e' => simp [Bind.bind, Except.bind]
  | ok a => simp [Bind.bind, Except.bind]

theorem refuse_eq_error {b : Prop} [Decidable b] {e e' : ε} : refuse b e' = .error e ↔ b ∧ e = e' := by
  unfold refuse
  by_cases hb : b
  · simp [hb, eq_comm]
  · simp [hb]

theorem need_eq_error {o : Option α} {e e' : ε} : need o e' = .error e ↔ o = none ∧ e = e' := by
  cases o with
  | none => simp [need, eq_comm]
  | some a => simp [need]

/-- Every error is in `E`. -/
def Refuses (E : ε → Prop) (r : Except ε α) : Prop := ∀ ⦃e⦄, r = .error e → E e

theorem Refuses.pure {E : ε → Prop} {a : α} : Refuses E (pure a : Except ε α) := by
  rintro e ⟨⟩

theorem Refuses.refuse {E : ε → Prop} {b : Prop} [Decidable b] {e : ε} (h : E e) : Refuses E (refuse b e) := by
  intro e' herr
  obtain ⟨-, rfl⟩ := refuse_eq_error.1 herr
  exact h

theorem Refuses.need {E : ε → Prop} {o : Option α} {e : ε} (h : E e) : Refuses E (need o e) := by
  intro e' herr
  obtain ⟨-, rfl⟩ := need_eq_error.1 herr
  exact h

theorem Refuses.bind {E : ε → Prop} {r : Except ε α} {k : α → Except ε β} (h : Refuses E r) (hk : ∀ a, Refuses E (k a)) :
    Refuses E (r >>= k) := by
  intro e herr
  rcases except_bind_eq_error.1 herr with hr | ⟨a, -, hrest⟩
  · exact h hr
  · exact hk a hrest

/-- What `r` returns is known to the rest. -/
theorem Refuses.bind_of_ok {E : ε → Prop} {r : Except ε α} {a : α} {k : α → Except ε β} (h : r = .ok a)
    (hk : Refuses E (k a)) : Refuses E (r >>= k) := by
  rw [h]
  exact hk

theorem Refuses.ite {E : ε → Prop} {b : Prop} [Decidable b] {r r' : Except ε α} (h : Refuses E r) (h' : Refuses E r') :
    Refuses E (if b then r else r') := by
  by_cases hb : b
  · rw [if_pos hb]
    exact h
  · rw [if_neg hb]
    exact h'

/-! ## Failed runs -/

section Err

variable {s t : σ} {e : ε} {m : Prog σ ε α} {k : α → Prog σ ε β}

theorem bind_eq_err :
    (m >>= k) s = .err e t ↔ m s = .err e t ∨ ∃ a u, m s = .ok a u ∧ k a u = .err e t := by
  show m.bind k s = _ ↔ _
  unfold bind
  cases m s with
  | panic => simp
  | err e' u => simp
  | ok a u => simp

theorem bind_of_ok {a : α} {u : σ} (h : m s = .ok a u) : (m >>= k) s = k a u := by
  show m.bind k s = _
  rw [Prog.bind, h]

theorem bind_check_of {b : Prop} [Decidable b] {e' : ε} {k : Unit → Prog σ ε β} (hb : ¬ b) :
    (check b e' >>= k) s = k () s := bind_of_ok (check_eq_ok.2 ⟨hb, rfl⟩)

theorem pure_ne_err {a : α} : (pure a : Prog σ ε α) s ≠ .err e t := by
  rintro ⟨⟩

theorem get_ne_err : (get : Prog σ ε σ) s ≠ .err e t := by
  rintro ⟨⟩

theorem modify_ne_err {f : σ → σ} : (modify f : Prog σ ε Unit) s ≠ .err e t := by
  rintro ⟨⟩

theorem check_eq_err {b : Prop} [Decidable b] {e' : ε} :
    (check b e' : Prog σ ε Unit) s = .err e t ↔ b ∧ e = e' ∧ t = s := by
  unfold check
  by_cases hb : b
  · simp [hb, throw, eq_comm]
  · simp [hb, pure_ne_err]

theorem orThrow_eq_err {o : Option α} {e' : ε} :
    (orThrow o e' : Prog σ ε α) s = .err e t ↔ o = none ∧ e = e' ∧ t = s := by
  cases o with
  | none => simp [orThrow, throw, eq_comm]
  | some a => simp [orThrow, pure_ne_err]

theorem ofExcept_eq_err {r : Except ε α} :
    (ofExcept r : Prog σ ε α) s = .err e t ↔ r = .error e ∧ t = s := by
  cases r with
  | error e' => simp [ofExcept, throw, eq_comm]
  | ok a => simp [ofExcept, pure_ne_err]

end Err

/-! ## Error classes -/

section Throws

variable {E : ε → Prop} {m : Prog σ ε α}

/-- Every error is in `E`. -/
def Throws (E : ε → Prop) (m : Prog σ ε α) : Prop := ∀ ⦃s e t⦄, m s = .err e t → E e

theorem Throws.pure {a : α} : Throws E (pure a : Prog σ ε α) := by
  intro s e t h
  exact absurd h pure_ne_err

theorem Throws.get : Throws E (get : Prog σ ε σ) := by
  intro s e t h
  exact absurd h get_ne_err

theorem Throws.modify {f : σ → σ} : Throws E (modify f : Prog σ ε Unit) := by
  intro s e t h
  exact absurd h modify_ne_err

theorem Throws.check {b : Prop} [Decidable b] {e : ε} (h : E e) : Throws E (check b e : Prog σ ε Unit) := by
  intro s e' t herr
  obtain ⟨-, rfl, -⟩ := check_eq_err.1 herr
  exact h

theorem Throws.orThrow {o : Option α} {e : ε} (h : E e) : Throws E (orThrow o e : Prog σ ε α) := by
  intro s e' t herr
  obtain ⟨-, rfl, -⟩ := orThrow_eq_err.1 herr
  exact h

theorem Throws.ofExcept {r : Except ε α} (h : Refuses E r) : Throws E (ofExcept r : Prog σ ε α) := by
  intro s e t herr
  exact h (ofExcept_eq_err.1 herr).1

theorem Throws.ite {b : Prop} [Decidable b] {m' : Prog σ ε α} (h : Throws E m) (h' : Throws E m') :
    Throws E (if b then m else m') := by
  by_cases hb : b
  · rw [if_pos hb]
    exact h
  · rw [if_neg hb]
    exact h'

theorem Throws.onlyIf {b : Prop} [Decidable b] {m : Prog σ ε Unit} (h : Throws E m) : Throws E (onlyIf b m) :=
  Throws.ite h Throws.pure

theorem Throws.bind {k : α → Prog σ ε β} (h : Throws E m) (hk : ∀ a, Throws E (k a)) : Throws E (m >>= k) := by
  intro s e t herr
  rcases bind_eq_err.1 herr with hm | ⟨a, u, -, hrest⟩
  · exact h hm
  · exact hk a hrest

theorem Throws.forEach {m : β → Prog σ ε Unit} (h : ∀ b, Throws E (m b)) : ∀ {l : List β}, Throws E (forEach l m)
  | [] => Throws.pure
  | b :: l => Throws.bind (h b) fun _ => Throws.forEach h (l := l)

/-- From one state, where the continuation is only reached with what the run before it gave. -/
theorem throws_bind_of {k : α → Prog σ ε β} {s t : σ} {e : ε} (herr : (m >>= k) s = .err e t) (h : Throws E m)
    (hk : ∀ a u, m s = .ok a u → k a u = .err e t → E e) : E e := by
  rcases bind_eq_err.1 herr with hm | ⟨a, u, hm, hrest⟩
  · exact h hm
  · exact hk a u hm hrest

end Throws

/-! ## A call of another contract -/

/-- The callee's error is passed on under a name of the caller's. -/
def mapErr (f : ε → ε') (m : Prog σ ε α) : Prog σ ε' α := fun s =>
  match m s with
  | .panic => .panic
  | .err e t => .err (f e) t
  | .ok a t => .ok a t

theorem mapErr_eq_err {f : ε → ε'} {m : Prog σ ε α} {s t : σ} {e' : ε'} :
    mapErr f m s = .err e' t ↔ ∃ e, m s = .err e t ∧ e' = f e := by
  unfold mapErr
  cases m s with
  | panic => simp
  | err e u => simp [eq_comm, and_comm]
  | ok a u => simp

theorem mapErr_eq_ok {f : ε → ε'} {m : Prog σ ε α} {s t : σ} {a : α} :
    mapErr f m s = .ok a t ↔ m s = .ok a t := by
  unfold mapErr
  cases m s with
  | panic => simp
  | err e u => simp
  | ok a u => simp

end Tacit.Prog
