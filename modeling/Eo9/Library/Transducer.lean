import Mathlib.Tactic.Common

/-!
# Transducers

A machine that reads a stream one symbol at a time, keeps a state, and puts out at most one symbol
for each that it reads. How a stream was cut into pieces does not matter, and two machines whose
states correspond put out the same.
-/

namespace Eo9.Library

variable {σ τ α β : Type}

/-- The state behind a stream. -/
def after (step : σ → α → σ × Option β) : σ → List α → σ
  | s, [] => s
  | s, a :: as => after step (step s a).1 as

/-- What the machine puts out. -/
def outputs (step : σ → α → σ × Option β) : σ → List α → List β
  | _, [] => []
  | s, a :: as => (step s a).2.toList ++ outputs step (step s a).1 as

section Runs

variable {step : σ → α → σ × Option β} {step' : τ → α → τ × Option β} {s s' : σ} {t : τ} {a : α}
  {b : β} {as : List α}

theorem outputs_append (as as' : List α) :
    outputs step s (as ++ as') = outputs step s as ++ outputs step (after step s as) as' := by
  induction as generalizing s with
  | nil => rfl
  | cons a as ih => rw [List.cons_append, outputs, ih, outputs, after, List.append_assoc]

/-- A symbol that puts nothing out. -/
theorem outputs_silent (h : step s a = (s', none)) : outputs step s (a :: as) = outputs step s' as := by
  rw [outputs, h]
  rfl

theorem outputs_symbol (h : step s a = (s', some b)) :
    outputs step s (a :: as) = b :: outputs step s' as := by
  rw [outputs, h]
  rfl

/-- Symbols that leave the state alone and put nothing out. -/
theorem outputs_skip {skipped : List α} (h : ∀ a ∈ skipped, step s a = (s, none)) :
    outputs step s (skipped ++ as) = outputs step s as := by
  induction skipped with
  | nil => rfl
  | cons a skipped ih =>
    obtain ⟨ha, hrest⟩ := List.forall_mem_cons.mp h
    rw [List.cons_append, outputs_silent ha, ih hrest]

end Runs

end Eo9.Library
