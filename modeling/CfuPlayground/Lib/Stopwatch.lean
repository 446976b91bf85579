import Mathlib.Tactic

/-!
# Stopwatches

A stopwatch has a total and the time it runs since. Starting a running one changes nothing.
-/

namespace CfuPlayground.Lib

structure Stopwatch where
  total : ℕ
  since : Option ℕ

namespace Stopwatch

variable (w : Stopwatch) (t : ℕ)

def reading : ℕ :=
  match w.since with
  | none => w.total
  | some a => w.total + (t - a)

def start : Stopwatch := { w with since := some (w.since.getD t) }

def stop : Stopwatch := ⟨w.reading t, none⟩

/-- Set the total; a running one runs on. -/
def set (v : ℕ) : Stopwatch := ⟨v, w.since.map fun _ => t⟩

/-- It does not run since the future. -/
def Past : Prop := ∀ a, w.since = some a → a ≤ t

variable {w t}

theorem reading_start : (w.start t).reading t = w.reading t := by
  rcases w with ⟨total, since⟩
  cases since <;> simp [start, reading]

theorem reading_stop : (w.stop t).reading t = w.reading t := rfl

theorem reading_set (v : ℕ) : (w.set t v).reading t = v := by
  rcases w with ⟨total, since⟩
  cases since <;> simp [set, reading]

theorem reading_succ (h : w.Past t) :
    w.reading (t + 1) = if w.since.isSome then w.reading t + 1 else w.reading t := by
  rcases w with ⟨total, since⟩
  cases since with
  | none => rfl
  | some a =>
    have ha : a ≤ t := h a rfl
    simp only [reading, Option.isSome_some, if_true]
    omega

theorem Past.succ (h : w.Past t) : w.Past (t + 1) := fun a ha => (h a ha).trans (Nat.le_succ t)

theorem Past.start (h : w.Past t) : (w.start t).Past t := by
  intro a ha
  cases hs : w.since with
  | none =>
    simp only [Stopwatch.start, hs, Option.getD_none, Option.some.injEq] at ha
    exact ha.ge
  | some b =>
    simp only [Stopwatch.start, hs, Option.getD_some, Option.some.injEq] at ha
    exact ha ▸ h b hs

theorem past_stop : (w.stop t).Past t := fun a ha => by cases ha

theorem past_set (v : ℕ) : (w.set t v).Past t := by
  intro a ha
  cases hs : w.since with
  | none => simp [set, hs] at ha
  | some b =>
    simp only [set, hs, Option.map_some, Option.some.injEq] at ha
    exact ha.ge

end Stopwatch

end CfuPlayground.Lib
