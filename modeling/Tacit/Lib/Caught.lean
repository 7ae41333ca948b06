import Tacit.Lib.Throws
/-!
# Programs that catch what they run

`onThrow` runs a handler when a program throws and throws again; `atomically` gives the earlier state back; `mapAll` runs a program
on every element of a list and keeps the results.
-/
namespace Tacit.Prog

variable {σ ε α β : Type}

/-- `try { m } catch (e) { c; throw e }`. -/
def onThrow (m : Prog σ ε α) (c : Prog σ ε Unit) : Prog σ ε α := do
  match (← (attempt m : Prog σ ε (Except ε α))) with
  | .ok a => pure a
  | .error e => do
    c
    throw e

/-- A transaction: what a run that throws has done is undone. -/
def atomically (m : Prog σ ε α) : Prog σ ε α := fun s =>
  match m s with
  | .err e _ => .err e s
  | r => r

/-- The results of `m` on every element, in order. -/
def mapAll (m : β → Prog σ ε α) : List β → Prog σ ε (List α)
  | [] => pure []
  | b :: l => do
    let a ← m b
    let rest ← mapAll m l
    return a :: rest

section

variable {A : Prop} {s : σ} {E : ε → σ → Prop} {Q : α → σ → Prop}

theorem bind_of_err {m : Prog σ ε α} {k : α → Prog σ ε β} {e : ε} {t : σ} (h : m s = .err e t) : (m >>= k) s = .err e t := by
  show m.bind k s = _
  unfold Prog.bind
  rw [h]

theorem except_ok_bind {a : α} {k : α → Except ε β} : (Except.ok a >>= k) = k a := rfl

theorem except_error_bind {e : ε} {k : α → Except ε β} : (Except.error e >>= k) = .error e := rfl

/-- What is asked of a run that has thrown is asked of its end. -/
theorem wp_ended {m : Prog σ ε α} {e : ε} {t : σ} (h : m s = .err e t) : wp A m s E Q ↔ E e t := by
  unfold wp
  rw [h]

@[simp] theorem wp_onThrow {m : Prog σ ε α} {c : Prog σ ε Unit} :
    wp A (onThrow m c) s E Q ↔ wp A m s (fun e t => wp A c t E fun _ u => E e u) Q := by
  simp only [onThrow, wp_bind, wp_attempt, wp_throw, wp_pure]

@[simp] theorem wp_atomically {m : Prog σ ε α} : wp A (atomically m) s E Q ↔ wp A m s (fun e _ => E e s) Q := by
  unfold wp atomically
  cases m s <;> rfl

/-- **A loop that keeps its results**: what the body keeps of the state, whatever it throws, and what it says of each result. -/
theorem wp_mapAll {I : σ → Prop} {R : β → α → Prop} {m : β → Prog σ ε α} : ∀ {l : List β} {s : σ},
    (∀ b ∈ l, ∀ s, I s → wp A (m b) s (fun _ t => I t) fun a t => I t ∧ R b a) → I s →
    wp A (mapAll m l) s (fun _ t => I t) fun as t => I t ∧ List.Forall₂ R l as
  | [], _, _, hs => ⟨hs, .nil⟩
  | b :: l, s, h, hs => by
    rw [mapAll, wp_bind]
    refine wp_mono (h b List.mem_cons_self s hs) id (fun _ _ => id) ?_
    rintro a t ⟨ht, ha⟩
    rw [wp_bind]
    refine wp_mono (wp_mapAll (fun c hc => h c (List.mem_cons_of_mem _ hc)) ht) id (fun _ _ => id) ?_
    rintro as u ⟨hu, has⟩
    exact ⟨hu, .cons ha has⟩

/-- A body that leaves the state as it is. -/
theorem mapAll_of_ok {m : β → Prog σ ε α} {f : β → α} : ∀ {l : List β}, (∀ b ∈ l, m b s = .ok (f b) s) → mapAll m l s = .ok (l.map f) s
  | [], _ => rfl
  | b :: l, h => by
    have hrest : mapAll m l s = .ok (l.map f) s := mapAll_of_ok fun c hc => h c (List.mem_cons_of_mem _ hc)
    rw [mapAll, bind_of_ok (h b List.mem_cons_self), bind_of_ok hrest]
    rfl

end

end Tacit.Prog
