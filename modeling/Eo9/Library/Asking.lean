import Mathlib.Tactic.Common

/-!
# Computations that ask

A computation that puts questions to a party it does not trust, and goes on with the answers.
What holds whatever the answers are holds of every run against such a party, also against one
that answers the same question differently the next time.
-/

namespace Eo9.Library

universe u v w x y

/-- A computation that ends with a value, stops with an error, or asks a question. -/
inductive Asking (Q : Type u) (A : Type v) (ε : Type w) (α : Type x) where
  | done (a : α)
  | stop (e : ε)
  | ask (q : Q) (next : A → Asking Q A ε α)

namespace Asking

variable {Q : Type u} {A : Type v} {ε : Type w} {α β : Type x}

/-- Go on with the value. -/
def bind : Asking Q A ε α → (α → Asking Q A ε β) → Asking Q A ε β
  | done a, f => f a
  | stop e, _ => stop e
  | ask q next, f => ask q fun answer => (next answer).bind f

instance : Monad (Asking Q A ε) where
  pure := done
  bind := bind

/-- A step that asks nothing. -/
def ofExcept : Except ε α → Asking Q A ε α
  | .ok a => done a
  | .error e => stop e

@[simp] theorem done_bind (a : α) (f : α → Asking Q A ε β) : (done a >>= f) = f a := rfl

@[simp] theorem stop_bind (e : ε) (f : α → Asking Q A ε β) : (stop e >>= f) = stop e := rfl

@[simp] theorem ask_bind (q : Q) (next : A → Asking Q A ε α) (f : α → Asking Q A ε β) :
    (ask q next >>= f) = ask q fun answer => next answer >>= f := rfl

@[simp] theorem ofExcept_ok (a : α) : (ofExcept (.ok a) : Asking Q A ε α) = done a := rfl

@[simp] theorem ofExcept_error (e : ε) : (ofExcept (.error e) : Asking Q A ε α) = stop e := rfl

/-- The result when a question always has the same answer. -/
def run (answer : Q → A) : Asking Q A ε α → Except ε α
  | done a => .ok a
  | stop e => .error e
  | ask q next => (next (answer q)).run answer

@[simp] theorem run_ofExcept (answer : Q → A) (r : Except ε α) :
    (ofExcept r : Asking Q A ε α).run answer = r := by
  cases r <;> rfl

theorem run_bind (answer : Q → A) (m : Asking Q A ε α) (f : α → Asking Q A ε β) :
    (m >>= f).run answer = (m.run answer >>= fun a => (f a).run answer) := by
  induction m with
  | done a => rfl
  | stop e => rfl
  | ask q next ih => exact ih (answer q)

/-- Every question satisfies `P`, every error `E`, and every value `R`, whatever the answers
are. -/
def Within (P : Q → Prop) (E : ε → Prop) (R : α → Prop) : Asking Q A ε α → Prop
  | done a => R a
  | stop e => E e
  | ask q next => P q ∧ ∀ answer, (next answer).Within P E R

variable {P : Q → Prop} {E : ε → Prop} {R : α → Prop} {m : Asking Q A ε α}

theorem Within.bind {S : β → Prop} {f : α → Asking Q A ε β} (h : m.Within P E R)
    (hf : ∀ a, R a → (f a).Within P E S) : (m >>= f).Within P E S := by
  induction m with
  | done a => exact hf a h
  | stop e => exact h
  | ask q next ih => exact ⟨h.1, fun answer => ih answer (h.2 answer)⟩

/-- A step that asks nothing is within what its result is. -/
theorem within_ofExcept {r : Except ε α} :
    (ofExcept r : Asking Q A ε α).Within P E R ↔
      (∀ a, r = .ok a → R a) ∧ ∀ e, r = .error e → E e := by
  cases r with
  | ok a => simp [Within]
  | error e => simp [Within]

/-- The same when a question always has the same answer. -/
theorem Within.run (h : m.Within P E R) (answer : Q → A) :
    (∀ a, m.run answer = .ok a → R a) ∧ ∀ e, m.run answer = .error e → E e := by
  induction m with
  | done a =>
    refine ⟨?_, nofun⟩
    rintro _ ⟨⟩
    exact h
  | stop e =>
    refine ⟨nofun, ?_⟩
    rintro _ ⟨⟩
    exact h
  | ask q next ih => exact ih (answer q) (h.2 (answer q))

end Asking

end Eo9.Library
