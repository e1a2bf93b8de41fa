import Mathlib.Logic.Basic
import Mathlib.Tactic.Common

/-!
# Runs of a labelled transition relation

A step relation, the runs it generates, and the rules that turn a fact about
one step into a fact about every run: an invariant, a preorder between the
endpoints, and a simulation by a second relation.
-/

namespace Eo9.Library

variable {σ τ ι : Type*}

/-- The runs of a step relation, with the labels of their steps in order. -/
inductive Run (step : σ → ι → σ → Prop) : σ → List ι → σ → Prop
  | nil (s : σ) : Run step s [] s
  | cons {s s' s'' : σ} {i : ι} {is : List ι} (head : step s i s')
      (tail : Run step s' is s'') : Run step s (i :: is) s''

namespace Run

variable {step : σ → ι → σ → Prop} {s s' s'' : σ} {is js : List ι}

theorem single {i : ι} (h : step s i s') : Run step s [i] s' :=
  .cons h (.nil s')

theorem append (run : Run step s is s') (rest : Run step s' js s'') :
    Run step s (is ++ js) s'' := by
  induction run with
  | nil s => exact rest
  | cons head _ ih => exact .cons head (ih rest)

theorem snoc {i : ι} (run : Run step s is s') (last : step s' i s'') :
    Run step s (is ++ [i]) s'' :=
  run.append (.single last)

/-- Every run splits where its label list does. -/
theorem split (run : Run step s (is ++ js) s'') :
    ∃ s', Run step s is s' ∧ Run step s' js s'' := by
  induction is generalizing s with
  | nil => exact ⟨s, .nil s, run⟩
  | cons i is ih =>
    cases run with
    | cons head tail =>
      obtain ⟨s', first, rest⟩ := ih tail
      exact ⟨s', .cons head first, rest⟩

/-- A weaker step relation has the same runs. -/
theorem mono {weaker : σ → ι → σ → Prop} (h : ∀ s i s', step s i s' → weaker s i s')
    (run : Run step s is s') : Run weaker s is s' := by
  induction run with
  | nil s => exact .nil s
  | cons head _ ih => exact .cons (h _ _ _ head) ih

/-- What one step preserves, a whole run preserves. -/
theorem invariant {p : σ → Prop} (hstep : ∀ s i s', p s → step s i s' → p s')
    (run : Run step s is s') (h : p s) : p s' := by
  induction run with
  | nil s => exact h
  | cons head _ ih => exact ih (hstep _ _ _ h head)

/-- An invariant that may speak of the labels so far. -/
theorem traced {p : List ι → σ → Prop}
    (hstep : ∀ is s i s', p is s → step s i s' → p (is ++ [i]) s')
    (run : Run step s is s') (h : p js s) : p (js ++ is) s' := by
  induction run generalizing js with
  | nil s => exact (List.append_nil js).symm ▸ h
  | @cons s _ _ i is head _ ih =>
    have hlater := ih (hstep js s i _ h head)
    rwa [List.append_assoc, List.singleton_append] at hlater

end Run

/-- The states some run reaches from an initial one. -/
def Reachable (init : σ → Prop) (step : σ → ι → σ → Prop) (s : σ) : Prop :=
  ∃ s₀ is, init s₀ ∧ Run step s₀ is s

theorem Reachable.invariant {init : σ → Prop} {step : σ → ι → σ → Prop} {inv : σ → Prop}
    (hinit : ∀ s, init s → inv s) (hstep : ∀ s i s', inv s → step s i s' → inv s')
    {s : σ} (h : Reachable init step s) : inv s := by
  obtain ⟨s₀, is, h₀, run⟩ := h
  exact run.invariant hstep (hinit s₀ h₀)

theorem Reachable.step {init : σ → Prop} {step : σ → ι → σ → Prop} {s s' : σ} {i : ι}
    (h : Reachable init step s) (hs : step s i s') : Reachable init step s' := by
  obtain ⟨s₀, is, h₀, run⟩ := h
  exact ⟨s₀, is ++ [i], h₀, run.snoc hs⟩

end Eo9.Library

/-!
## Operations in stages

An operation runs on a state it shares with other operations until it has to wait for an answer.
What it keeps there is its stage: it goes on from the stage with the answer, if one comes, or is
dropped. Nothing runs in between, and an operation may go through stages without end.
-/

namespace Eo9.Library

/-- Operations that go from stage to stage. -/
structure Staged (σ ω π β : Type*) where
  Answer : π → Type
  start : ω → σ → (β ⊕ π) × σ
  resume : (p : π) → Answer p → σ → (β ⊕ π) × σ
  /-- What may become of the shared state when an operation is dropped at a stage. -/
  Drops : π → σ → σ → Prop

namespace Staged

variable {σ ω π β : Type*}

/-- A shared state and the stages of the operations under way. -/
structure World (σ π : Type*) where
  shared : σ
  waiting : List π

/-- Where a stretch of an operation ends, as the world keeps it. -/
def kept : β ⊕ π → List π
  | .inl _ => []
  | .inr p => [p]

variable (m : Staged σ ω π β)

/-- What happens in a step. -/
inductive Label where
  | started (op : ω) (r : β ⊕ π)
  | answered (p : π) (a : m.Answer p) (r : β ⊕ π)
  | dropped (p : π)

/-- An operation starts, one under way gets its answer, or one is dropped. -/
inductive Step : World σ π → m.Label → World σ π → Prop
  | start {s s' : σ} {waiting : List π} (op : ω) {r : β ⊕ π} (h : m.start op s = (r, s')) :
      Step ⟨s, waiting⟩ (.started op r) ⟨s', waiting ++ kept r⟩
  | answer {s s' : σ} {before after : List π} {p : π} (a : m.Answer p) {r : β ⊕ π}
      (h : m.resume p a s = (r, s')) :
      Step ⟨s, before ++ p :: after⟩ (.answered p a r) ⟨s', before ++ (kept r ++ after)⟩
  | drop {s s' : σ} {before after : List π} {p : π} (h : m.Drops p s s') :
      Step ⟨s, before ++ p :: after⟩ (.dropped p) ⟨s', before ++ after⟩

variable {m}

/-- What every stretch and every drop keeps of the shared state, every run keeps. -/
theorem run_shared {inv : σ → Prop} (hstart : ∀ op s, inv s → inv (m.start op s).2)
    (hresume : ∀ p a s, inv s → inv (m.resume p a s).2)
    (hdrop : ∀ p s s', inv s → m.Drops p s s' → inv s') {w w' : World σ π}
    {trace : List m.Label} (run : Run (Step m) w trace w') (h : inv w.shared) : inv w'.shared := by
  refine run.invariant (p := fun w => inv w.shared) (fun w l w' hw hstep => ?_) h
  cases hstep with
  | start op hs =>
    have hinv := hstart op _ hw
    rwa [hs] at hinv
  | answer a hs =>
    have hinv := hresume _ a _ hw
    rwa [hs] at hinv
  | drop hd => exact hdrop _ _ _ hw hd

end Staged

end Eo9.Library
