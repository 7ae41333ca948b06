import Mathlib.Data.Nat.Basic
/-!
# A clock that stands still in pauses

The clock is not stored: it is read off the latest pause and the time spent in the pauses before it. A pause may be lengthened while
it runs, up to `most` after it began, or cut short; the next one waits as long as the last one ran.
-/
namespace Tacit

/-- The latest pause, from `start` to `stop`, and the time spent in those before it. -/
structure PauseClock where
  start : Nat
  stop : Nat
  spent : Nat

namespace PauseClock

variable {p q : PauseClock} {most now now' t c : Nat}

def reading (p : PauseClock) (now : Nat) : Nat := now - p.spent - (min now p.stop - p.start)

/-- The wait that the latest pause still asks for: what it has run, less the time since it ended. -/
def owed (p : PauseClock) (now : Nat) : Nat := (min now p.stop - p.start) - (now - p.stop)

/-- The pauses lie behind one another, and the latest is no longer than `most`. -/
structure Paced (most : Nat) (p : PauseClock) (now : Nat) : Prop where
  ends : p.start ≤ p.stop
  before : p.spent ≤ p.start
  began : p.start ≤ now
  short : p.stop ≤ p.start + most

theorem Paced.later (h : p.Paced most now) (hle : now ≤ now') : p.Paced most now' := { h with began := Nat.le_trans h.began hle }

theorem Paced.owed_le (h : p.Paced most now) : p.owed now ≤ most := by
  have := h.short
  unfold owed
  omega

/-- A second on. -/
theorem Paced.reading_succ (h : p.Paced most now) :
    p.reading (now + 1) = p.reading now + if now < p.stop then 0 else 1 := by
  obtain ⟨hends, hbefore, hbegan, -⟩ := h
  unfold reading
  split
  · next hrun => omega
  · next hrun => omega

/-! ## Progress -/

/-- Since `t`, when the clock read `c`, it ran for at least half the time but for a pause that is not waited out. -/
def Progress (t c : Nat) (p : PauseClock) (now : Nat) : Prop := now + 2 * c ≤ t + 2 * p.reading now + p.owed now

theorem Progress.start : Progress now (p.reading now) p now := by
  unfold Progress
  omega

theorem Progress.later (hp : Progress t c p now) (h : p.Paced most now) (hle : now ≤ now') : Progress t c p now' := by
  obtain ⟨hends, hbefore, hbegan, -⟩ := h
  unfold Progress reading owed at *
  omega

/-! ## Changes -/

/-- A change of the pauses at `now`, at which the clock reads the same and the same wait is asked for. -/
structure Changes (most now : Nat) (p q : PauseClock) : Prop where
  paced : q.Paced most now
  reading : q.reading now = p.reading now
  owed : q.owed now = p.owed now

theorem Changes.refl (h : p.Paced most now) : Changes most now p p := ⟨h, rfl, rfl⟩

theorem Changes.progress (h : Changes most now p q) (hp : Progress t c p now) : Progress t c q now := by
  unfold Progress at *
  rw [h.reading, h.owed]
  exact hp

/-- A new pause, once the last is waited out. -/
theorem Paced.begin (h : p.Paced most now) {duration : Nat} (hover : p.stop ≤ now) (hwait : 2 * p.stop - p.start ≤ now)
    (hmost : duration ≤ most) : Changes most now p ⟨now, now + duration, p.spent + (p.stop - p.start)⟩ := by
  obtain ⟨hends, hbefore, -, -⟩ := h
  refine ⟨⟨Nat.le_add_right _ _, ?_, le_refl _, ?_⟩, ?_, ?_⟩
  · show p.spent + (p.stop - p.start) ≤ now
    omega
  · exact Nat.add_le_add_left hmost _
  · simp only [PauseClock.reading]
    omega
  · simp only [PauseClock.owed]
    omega

/-- The running pause gets another end. -/
theorem Paced.extend (h : p.Paced most now) {stop : Nat} (hrun : now ≤ p.stop) (hstop : now ≤ stop)
    (hmost : stop ≤ p.start + most) : Changes most now p ⟨p.start, stop, p.spent⟩ := by
  obtain ⟨hends, hbefore, hbegan, -⟩ := h
  refine ⟨⟨Nat.le_trans hbegan hstop, hbefore, hbegan, hmost⟩, ?_, ?_⟩
  · simp only [PauseClock.reading]
    omega
  · simp only [PauseClock.owed]
    omega

end PauseClock

end Tacit
