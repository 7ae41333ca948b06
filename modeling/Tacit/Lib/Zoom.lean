import Mathlib.Data.List.Nodup
import Mathlib.Logic.Function.Basic
import Tacit.Lib.Prog
/-!
# Programs on a part of the state

`zoom` runs a program on one component of a larger state, so that a loop over one mapping is specified on that
mapping alone. `Keeps R m` says that every accepted run of `m` ends in a state related to its start; over a
preorder the rule is compositional, which is how one invariant is carried through a long function. `markOnce`
is the guard of every spend-once mapping: refuse what is marked, then mark it.
-/
namespace Tacit.Prog

variable {σ τ ε α β : Type}

/-- Run `m` on the component that `get` reads and `set` writes. -/
def zoom (get : σ → τ) (set : τ → σ → σ) (m : Prog τ ε α) : Prog σ ε α := fun s =>
  match m (get s) with
  | .panic => .panic
  | .err e u => .err e (set u s)
  | .ok a u => .ok a (set u s)

@[simp] theorem zoom_eq_ok {get : σ → τ} {set : τ → σ → σ} {m : Prog τ ε α} {s t : σ} {a : α} :
    zoom get set m s = .ok a t ↔ ∃ u, m (get s) = .ok a u ∧ t = set u s := by
  unfold zoom
  cases m (get s) with
  | panic => simp
  | err e u => simp
  | ok b u =>
    simp only [Outcome.ok.injEq]
    constructor
    · rintro ⟨rfl, rfl⟩
      exact ⟨u, ⟨rfl, rfl⟩, rfl⟩
    · rintro ⟨v, ⟨rfl, rfl⟩, rfl⟩
      exact ⟨rfl, rfl⟩

theorem wp_zoom {A : Prop} {get : σ → τ} {set : τ → σ → σ} {m : Prog τ ε α} {s : σ} {E : ε → σ → Prop}
    {Q : α → σ → Prop} : wp A (zoom get set m) s E Q ↔
      wp A m (get s) (fun e u => E e (set u s)) (fun a u => Q a (set u s)) := by
  unfold wp zoom
  cases m (get s) <;> rfl

/-- `if (b) { m }`. -/
def onlyIf (b : Prop) [Decidable b] (m : Prog σ ε Unit) : Prog σ ε Unit := if b then m else pure ()

@[simp] theorem onlyIf_eq_ok {b : Prop} [Decidable b] {m : Prog σ ε Unit} {s t : σ} {u : Unit} :
    onlyIf b m s = .ok u t ↔ (b ∧ m s = .ok u t) ∨ (¬ b ∧ t = s) := by
  unfold onlyIf
  by_cases h : b
  · simp [h]
  · simp [h]

/-! ## Relations kept by a program -/

/-- Every accepted run relates its start to its end. -/
def Keeps (R : σ → σ → Prop) (m : Prog σ ε α) : Prop := ∀ ⦃s a t⦄, m s = .ok a t → R s t

section Keeps

variable {R : σ → σ → Prop} {m : Prog σ ε α}

theorem Keeps.modify {f : σ → σ} (h : ∀ s, R s (f s)) : Keeps R (modify f : Prog σ ε Unit) := by
  intro s u t hok
  rw [modify_eq_ok] at hok
  exact hok ▸ h s

theorem Keeps.throw {e : ε} : Keeps R (throw e : Prog σ ε α) := by
  intro s a t hok
  exact absurd hok throw_ne_ok

theorem Keeps.zoom {get : σ → τ} {set : τ → σ → σ} {m : Prog τ ε α} (h : ∀ s u, R s (set u s)) :
    Keeps R (zoom get set m) := by
  intro s a t hok
  obtain ⟨u, -, rfl⟩ := zoom_eq_ok.1 hok
  exact h s u

theorem Keeps.ite {b : Prop} [Decidable b] {m' : Prog σ ε α} (h : Keeps R m) (h' : Keeps R m') :
    Keeps R (if b then m else m') := by
  by_cases hb : b
  · rw [if_pos hb]
    exact h
  · rw [if_neg hb]
    exact h'

theorem Keeps.mono {R' : σ → σ → Prop} (h : Keeps R m) (hR : ∀ {s t}, R s t → R' s t) : Keeps R' m :=
  fun _ _ _ hok => hR (h hok)

variable [hR : IsPreorder σ R]

theorem Keeps.pure {a : α} : Keeps R (pure a : Prog σ ε α) := by
  intro s b t hok
  obtain ⟨-, rfl⟩ := pure_eq_ok.1 hok
  exact refl_of R t

theorem Keeps.get : Keeps R (get : Prog σ ε σ) := by
  intro s b t hok
  obtain ⟨-, rfl⟩ := get_eq_ok.1 hok
  exact refl_of R t

theorem Keeps.check {b : Prop} [Decidable b] {e : ε} : Keeps R (check b e : Prog σ ε Unit) := by
  intro s u t hok
  obtain ⟨-, rfl⟩ := check_eq_ok.1 hok
  exact refl_of R t

theorem Keeps.orThrow {o : Option α} {e : ε} : Keeps R (orThrow o e : Prog σ ε α) := by
  intro s a t hok
  obtain ⟨-, rfl⟩ := orThrow_eq_ok.1 hok
  exact refl_of R t

theorem Keeps.ofExcept {r : Except ε α} : Keeps R (ofExcept r : Prog σ ε α) := by
  intro s a t hok
  obtain ⟨-, rfl⟩ := ofExcept_eq_ok.1 hok
  exact refl_of R t

theorem Keeps.onlyIf {b : Prop} [Decidable b] {m : Prog σ ε Unit} (h : Keeps R m) : Keeps R (onlyIf b m) :=
  Keeps.ite h Keeps.pure

theorem Keeps.bind {k : α → Prog σ ε β} (h : Keeps R m) (hk : ∀ a, Keeps R (k a)) : Keeps R (m >>= k) := by
  intro s b t hok
  obtain ⟨a, u, hm, hrest⟩ := bind_eq_ok.1 hok
  exact trans_of R (h hm) (hk a hrest)

theorem Keeps.forEach {m : β → Prog σ ε Unit} : ∀ {l : List β}, (∀ b ∈ l, Keeps R (m b)) → Keeps R (forEach l m)
  | [], _ => by
    intro s u t hok
    obtain rfl := forEach_nil_eq_ok.1 hok
    exact refl_of R t
  | b :: l, h => by
    intro s u t hok
    obtain ⟨v, hb, hl⟩ := forEach_cons_eq_ok.1 hok
    exact trans_of R (h b (by simp) hb) (Keeps.forEach (fun c hc => h c (by simp [hc])) hl)

end Keeps

/-! ## Spend-once marks -/

section Marks

variable {κ : Type} [DecidableEq κ]

/-- `if (m[x]) revert e; m[x] = true`. -/
def markOnce (e : ε) (x : κ) : Prog (κ → Bool) ε Unit := do
  let m ← get
  check (m x = true) e
  modify fun m => Function.update m x true

/-- The mapping with the elements of a list marked. -/
def marked (m : κ → Bool) (l : List κ) : κ → Bool := fun x => m x || decide (x ∈ l)

theorem marked_eq_true {m : κ → Bool} {l : List κ} {x : κ} : marked m l x = true ↔ m x = true ∨ x ∈ l := by
  simp [marked]

@[simp] theorem marked_nil (m : κ → Bool) : marked m [] = m := by
  funext x
  simp [marked]

@[simp] theorem marked_marked (m : κ → Bool) (l l' : List κ) : marked (marked m l) l' = marked m (l ++ l') := by
  funext x
  simp [marked, Bool.or_assoc]

theorem markOnce_eq_ok {e : ε} {x : κ} {m m' : κ → Bool} {u : Unit} :
    markOnce e x m = .ok u m' ↔ m x = false ∧ m' = marked m [x] := by
  have hupdate : Function.update m x true = marked m [x] := by
    funext y
    by_cases hy : y = x
    · simp [marked, hy]
    · simp [marked, hy]
  simp only [markOnce, bind_eq_ok, get_eq_ok, check_eq_ok, modify_eq_ok]
  constructor
  · rintro ⟨_, _, ⟨rfl, rfl⟩, _, _, ⟨hx, rfl⟩, rfl⟩
    exact ⟨by simpa using hx, hupdate⟩
  · rintro ⟨hx, rfl⟩
    exact ⟨_, _, ⟨rfl, rfl⟩, (), _, ⟨by simp [hx], rfl⟩, hupdate.symm⟩

/-- A list whose elements are distinct and not yet marked. -/
def Fresh (m : κ → Bool) (l : List κ) : Prop := l.Nodup ∧ ∀ x ∈ l, m x = false

omit [DecidableEq κ] in
theorem fresh_nil (m : κ → Bool) : Fresh m [] := ⟨List.nodup_nil, by simp⟩

theorem fresh_append {m : κ → Bool} {l l' : List κ} : Fresh m (l ++ l') ↔ Fresh m l ∧ Fresh (marked m l) l' := by
  unfold Fresh
  rw [List.nodup_append]
  constructor
  · rintro ⟨⟨hl, hl', hne⟩, hm⟩
    refine ⟨⟨hl, fun x hx => hm x (by simp [hx])⟩, hl', ?_⟩
    intro x hx
    have hnot : x ∉ l := fun h => hne x h x hx rfl
    simp [marked, hm x (by simp [hx]), hnot]
  · rintro ⟨⟨hl, hm⟩, hl', hm'⟩
    have hfresh : ∀ x ∈ l', m x = false ∧ x ∉ l := by
      intro x hx
      simpa [marked] using hm' x hx
    refine ⟨⟨hl, hl', ?_⟩, ?_⟩
    · rintro x hx y hy rfl
      exact (hfresh x hy).2 hx
    · intro x hx
      rcases List.mem_append.1 hx with hx | hx
      · exact hm x hx
      · exact (hfresh x hx).1

/-- **A spend-once loop** accepts exactly the lists without repeats of unmarked elements, and marks them. -/
theorem forEach_markOnce_eq_ok {e : ε} {u : Unit} : ∀ {l : List κ} {m m' : κ → Bool},
    forEach l (markOnce e) m = .ok u m' ↔ Fresh m l ∧ m' = marked m l
  | [], m, m' => by simp [fresh_nil]
  | x :: l, m, m' => by
    have hone : Fresh m [x] ↔ m x = false := by simp [Fresh]
    rw [forEach_cons_eq_ok, ← List.singleton_append, fresh_append, hone]
    simp only [markOnce_eq_ok, forEach_markOnce_eq_ok (l := l)]
    constructor
    · rintro ⟨v, ⟨hx, rfl⟩, hl, rfl⟩
      exact ⟨⟨hx, hl⟩, marked_marked m [x] l⟩
    · rintro ⟨⟨hx, hl⟩, rfl⟩
      exact ⟨_, ⟨hx, rfl⟩, hl, (marked_marked m [x] l).symm⟩

/-- A loop over a component. -/
theorem forEach_zoom_eq_ok {get : σ → τ} {set : τ → σ → σ} (hget : ∀ s u, get (set u s) = u)
    (hset : ∀ s u v, set v (set u s) = set v s) (hsame : ∀ s, set (get s) s = s) {m : β → Prog τ ε Unit} {u : Unit} :
    ∀ {l : List β} {s t : σ}, forEach l (fun b => zoom get set (m b)) s = .ok u t ↔
      ∃ v, forEach l m (get s) = .ok () v ∧ t = set v s
  | [], s, t => by
    simp only [forEach_nil_eq_ok]
    constructor
    · rintro rfl
      exact ⟨_, rfl, (hsame t).symm⟩
    · rintro ⟨_, rfl, rfl⟩
      exact hsame s
  | b :: l, s, t => by
    simp only [forEach_cons_eq_ok, zoom_eq_ok, forEach_zoom_eq_ok hget hset hsame (l := l)]
    constructor
    · rintro ⟨_, ⟨w, hb, rfl⟩, v, hl, rfl⟩
      rw [hget] at hl
      exact ⟨v, ⟨w, hb, hl⟩, hset s w v⟩
    · rintro ⟨v, ⟨w, hb, hl⟩, rfl⟩
      exact ⟨_, ⟨w, hb, rfl⟩, v, (hget s w).symm ▸ hl, (hset s w v).symm⟩

end Marks

end Tacit.Prog
