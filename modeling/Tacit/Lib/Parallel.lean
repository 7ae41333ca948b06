import Tacit.Lib.Caught
/-!
# Two runs from related states

`Parallel R m m' s s'`: the run of `m` from `s` and that of `m'` from `s'` end alike, with equal results or equal errors, in related
states. The rules follow the shape of the two programs; where both read their state, what they read may differ.
-/
namespace Tacit.Prog

variable {σ σ' ε α β : Type}

/-- Two ends that only the relation tells apart. -/
inductive SameEnd (R : σ → σ' → Prop) : Outcome σ ε α → Outcome σ' ε α → Prop
  | panic : SameEnd R .panic .panic
  | err {e : ε} {t : σ} {t' : σ'} : R t t' → SameEnd R (.err e t) (.err e t')
  | ok {a : α} {t : σ} {t' : σ'} : R t t' → SameEnd R (.ok a t) (.ok a t')

def Parallel (R : σ → σ' → Prop) (m : Prog σ ε α) (m' : Prog σ' ε α) (s : σ) (s' : σ') : Prop := SameEnd R (m s) (m' s')

section

variable {R : σ → σ' → Prop} {s : σ} {s' : σ'} {m : Prog σ ε α} {m' : Prog σ' ε α}

theorem Parallel.pure {a : α} (h : R s s') : Parallel R (pure a : Prog σ ε α) (pure a) s s' := .ok h

theorem Parallel.throw {e : ε} (h : R s s') : Parallel R (throw e : Prog σ ε α) (throw e) s s' := .err h

theorem Parallel.bind {k : α → Prog σ ε β} {k' : α → Prog σ' ε β} (h : Parallel R m m' s s')
    (hk : ∀ a t t', R t t' → Parallel R (k a) (k' a) t t') : Parallel R (m >>= k) (m' >>= k') s s' := by
  show SameEnd R (m.bind k s) (m'.bind k' s')
  unfold Parallel at h
  unfold Prog.bind
  cases hm : m s <;> cases hm' : m' s' <;> rw [hm, hm'] at h <;> cases h
  · exact .panic
  · exact .err ‹_›
  · exact hk _ _ _ ‹_›

/-- What is read goes to both continuations, each its own. -/
theorem Parallel.get_bind {k : σ → Prog σ ε β} {k' : σ' → Prog σ' ε β} (h : Parallel R (k s) (k' s') s s') :
    Parallel R (get >>= k) (get >>= k') s s' := h

theorem Parallel.modify {f : σ → σ} {f' : σ' → σ'} (h : R (f s) (f' s')) :
    Parallel R (modify f : Prog σ ε Unit) (modify f') s s' := .ok h

theorem Parallel.check {b b' : Prop} [Decidable b] [Decidable b'] {e : ε} (hb : b ↔ b') (h : R s s') :
    Parallel R (check b e) (check b' e) s s' := by
  unfold Prog.check
  by_cases hp : b
  · rw [if_pos hp, if_pos (hb.1 hp)]
    exact .throw h
  · rw [if_neg hp, if_neg fun hp' => hp (hb.2 hp')]
    exact .pure h

theorem Parallel.orThrow {o : Option α} {e : ε} (h : R s s') : Parallel R (orThrow o e) (orThrow o e) s s' := by
  cases o with
  | none => exact .throw h
  | some a => exact .pure h

theorem Parallel.ofExcept {r : Except ε α} (h : R s s') : Parallel R (ofExcept r) (ofExcept r) s s' := by
  cases r with
  | error e => exact .throw h
  | ok a => exact .pure h

theorem Parallel.forEach {m : β → Prog σ ε Unit} {m' : β → Prog σ' ε Unit} (hm : ∀ b t t', R t t' → Parallel R (m b) (m' b) t t') :
    ∀ {l : List β} {s : σ} {s' : σ'}, R s s' → Parallel R (forEach l m) (forEach l m') s s'
  | [], _, _, h => .pure h
  | b :: _, s, s', h => (hm b s s' h).bind fun _ _ _ => Parallel.forEach hm

theorem Parallel.mapAll {m : β → Prog σ ε α} {m' : β → Prog σ' ε α} (hm : ∀ b t t', R t t' → Parallel R (m b) (m' b) t t') :
    ∀ {l : List β} {s : σ} {s' : σ'}, R s s' → Parallel R (mapAll m l) (mapAll m' l) s s'
  | [], _, _, h => .pure h
  | b :: _, s, s', h => (hm b s s' h).bind fun _ _ _ ht => (Parallel.mapAll hm ht).bind fun _ _ _ => .pure

/-- A good end of the one is a good end of the other. -/
theorem Parallel.ok {a : α} {t : σ} (h : Parallel R m m' s s') (hm : m s = .ok a t) : ∃ t', m' s' = .ok a t' ∧ R t t' := by
  unfold Parallel at h
  rw [hm] at h
  cases hm' : m' s' <;> rw [hm'] at h <;> cases h
  exact ⟨_, rfl, ‹_›⟩

end

end Tacit.Prog
