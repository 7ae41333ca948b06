import Tacit.Lib.Throws
/-!
# Programs whose errors leave no trace

A program that checks before it writes leaves the state of an `Err` as it found it. `Traceless` is a weakest precondition, so the
checks are taken off with the rules of `wp`; what is left once the program writes must have no `Err` (`Infallible`). A program
`Upholds` an invariant when both its ends have it.
-/
namespace Tacit.Prog

variable {σ ε ε' α β : Type} {m : Prog σ ε α} {k : α → Prog σ ε β} {s t : σ}

/-- An `Err` leaves the state as it was. -/
def Traceless (m : Prog σ ε α) (s : σ) : Prop := wp True m s (fun _ t => t = s) fun _ _ => True

/-- No run ends in an `Err`. -/
def Infallible (m : Prog σ ε α) : Prop := ∀ s, wp True m s (fun _ _ => False) fun _ _ => True

theorem Traceless.eq (h : Traceless m s) {e : ε} (hrun : m s = .err e t) : t = s :=
  wp_of_err (E := fun _ t => t = s) h hrun

theorem Traceless.wp (h : Traceless m s) {Q : α → σ → Prop} (hQ : ∀ a t, Q a t) : wp True m s (fun _ t => t = s) Q :=
  wp_mono h id (fun _ _ he => he) fun a t _ => hQ a t

theorem Infallible.wp (h : Infallible m) {E : ε → σ → Prop} {Q : α → σ → Prop} (hQ : ∀ a t, Q a t) : wp True m s E Q :=
  wp_mono (h s) id (fun _ _ he => he.elim) fun a t _ => hQ a t

theorem Infallible.traceless (h : Infallible m) : Traceless m s := h.wp fun _ _ => trivial

/-- What writes has no `Err`. -/
theorem Traceless.bind (h : Traceless m s) (hk : ∀ a, Infallible (k a)) : Traceless (m >>= k) s :=
  wp_bind.2 (h.wp fun a _ => (hk a).wp fun _ _ => trivial)

namespace Infallible

theorem pure {a : α} : Infallible (Pure.pure a : Prog σ ε α) := fun _ => trivial

theorem get : Infallible (Prog.get : Prog σ ε σ) := fun _ => trivial

theorem modify {f : σ → σ} : Infallible (Prog.modify f : Prog σ ε Unit) := fun _ => trivial

theorem orPanic {o : Option α} : Infallible (Prog.orPanic o : Prog σ ε α) := fun s => by simp

theorem assert {b : Prop} [Decidable b] : Infallible (Prog.assert b : Prog σ ε Unit) := fun s => by simp

theorem expect {m : Prog σ ε' α} : Infallible (Prog.expect m : Prog σ ε α) := by
  intro s
  rw [wp_expect, wp_iff_ok]
  exact fun _ _ _ => trivial

theorem bind (h : Infallible m) (hk : ∀ a, Infallible (k a)) : Infallible (m >>= k) :=
  fun _ => wp_bind.2 (h.wp fun a t => hk a t)

theorem ite {b : Prop} [Decidable b] {m m' : Prog σ ε α} (h : b → Infallible m) (h' : ¬b → Infallible m') :
    Infallible (if b then m else m') := by
  by_cases hb : b
  · rw [if_pos hb]
    exact h hb
  · rw [if_neg hb]
    exact h' hb

theorem forEach {m : β → Prog σ ε Unit} (h : ∀ b, Infallible (m b)) : ∀ {l : List β}, Infallible (Prog.forEach l m)
  | [] => pure
  | b :: _ => (h b).bind fun _ => forEach h

end Infallible

/-- Whichever way a run ends, the invariant still holds. -/
def Upholds (I : σ → Prop) (m : Prog σ ε α) : Prop := ∀ ⦃s⦄, I s → wp True m s (fun _ t => I t) fun _ t => I t

namespace Upholds

variable {I : σ → Prop}

theorem pure {a : α} : Upholds I (Pure.pure a : Prog σ ε α) := fun _ h => h

theorem get : Upholds I (Prog.get : Prog σ ε σ) := fun _ h => h

theorem throw {e : ε} : Upholds I (Prog.throw e : Prog σ ε α) := fun _ h => h

theorem modify {f : σ → σ} (hf : ∀ s, I s → I (f s)) : Upholds I (Prog.modify f : Prog σ ε Unit) := fun s h => hf s h

theorem check {b : Prop} [Decidable b] {e : ε} : Upholds I (Prog.check b e : Prog σ ε Unit) :=
  fun _ h => wp_check.2 ⟨fun _ => h, fun _ => h⟩

theorem orThrow {o : Option α} {e : ε} : Upholds I (Prog.orThrow o e : Prog σ ε α) :=
  fun _ h => wp_orThrow.2 ⟨fun _ => h, fun _ _ => h⟩

theorem bind (h : Upholds I m) (hk : ∀ a, Upholds I (k a)) : Upholds I (m >>= k) :=
  fun _ hs => wp_bind.2 (wp_mono (h hs) id (fun _ _ => id) fun a _ ht => hk a ht)

theorem forEach {m : β → Prog σ ε Unit} {l : List β} (h : ∀ b ∈ l, Upholds I (m b)) : Upholds I (Prog.forEach l m) :=
  fun _ hs => wp_forEach (fun b hb _ hs => h b hb hs) hs

end Upholds

end Tacit.Prog
