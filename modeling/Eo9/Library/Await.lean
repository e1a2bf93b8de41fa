import Eo9.Library.Action

/-!
# Tasks that await answers

A task makes calls on its environment and goes on with the answers. The
environment is the list of its answers; a task that awaits one which never comes
is abandoned there, and what it wrote to its own state stays. The record of the
calls keeps where it was abandoned.
-/

namespace Eo9.Library

/-- Why a task gives no value. -/
inductive Ended (ε : Type*) where
  | failed (e : ε)
  | dropped

/-- A task in the middle of its calls: its own state, the answers that are still
to come, and the calls it made. A call without an answer was abandoned. -/
structure Dialogue (σ κ α : Type*) where
  own : σ
  answers : List α
  wire : List (κ × Option α)

namespace Dialogue

variable {σ κ α ε : Type} {β : Type} {s : Dialogue σ κ α}

/-- The task after one more call. -/
def called (s : Dialogue σ κ α) (c : κ) (answer : Option α) (rest : List α) : Dialogue σ κ α :=
  ⟨s.own, rest, s.wire ++ [(c, answer)]⟩

@[simp] theorem called_own (c : κ) (answer : Option α) (rest : List α) :
    (s.called c answer rest).own = s.own := rfl

@[simp] theorem called_answers (c : κ) (answer : Option α) (rest : List α) :
    (s.called c answer rest).answers = rest := rfl

@[simp] theorem called_wire (c : κ) (answer : Option α) (rest : List α) :
    (s.called c answer rest).wire = s.wire ++ [(c, answer)] := rfl

/-- Call the environment and await its answer. -/
def await (c : κ) : Action (Dialogue σ κ α) (Ended ε) α := fun s =>
  match s.answers with
  | [] => (.error (.err .dropped), s.called c none [])
  | answer :: rest => (.ok answer, s.called c (some answer) rest)

/-- Change the task's own state. -/
def setOwn (f : σ → σ) : Action (Dialogue σ κ α) (Ended ε) PUnit :=
  Action.modify fun s => { s with own := f s.own }

/-- Stop the task with an error. -/
def failWith (e : ε) : Action (Dialogue σ κ α) (Ended ε) β := Action.fail (.failed e)

/-- Translate the errors of a task. -/
def mapFailed {ε' : Type} (f : ε → ε') (m : Action (Dialogue σ κ α) (Ended ε) β) :
    Action (Dialogue σ κ α) (Ended ε') β :=
  m.mapErr fun
    | .failed e => Outcome.fail (.failed (f e))
    | .dropped => Outcome.fail .dropped

theorem await_cons {own : σ} {wire : List (κ × Option α)} (c : κ) (a : α) (rest : List α) :
    (await c : Action _ (Ended ε) α) ⟨own, a :: rest, wire⟩ =
      (.ok a, ⟨own, rest, wire ++ [(c, some a)]⟩) := rfl

open Library.Action in
/-- An awaited call either gets the next answer or is abandoned. -/
theorem wp_await {c : κ} {q : α → Dialogue σ κ α → Prop}
    {t : Stop (Ended ε) → Dialogue σ κ α → Prop}
    (hdrop : t (.err .dropped) (s.called c none []))
    (hanswer : ∀ a rest, s.answers = a :: rest → q a (s.called c (some a) rest)) :
    wp (await c) s q t := by
  unfold wp await
  rcases h : s.answers with - | ⟨a, rest⟩
  · exact hdrop
  · exact hanswer a rest h

open Library.Action in
theorem wp_mapFailed {ε' : Type} {f : ε → ε'} {m : Action (Dialogue σ κ α) (Ended ε) β}
    {post : β → Dialogue σ κ α → Prop} {stop : Stop (Ended ε) → Dialogue σ κ α → Prop}
    {stop' : Stop (Ended ε') → Dialogue σ κ α → Prop} (h : wp m s post stop)
    (hfailed : ∀ e s', stop (.err (.failed e)) s' → stop' (.err (.failed (f e))) s')
    (hdropped : ∀ s', stop (.err .dropped) s' → stop' (.err .dropped) s')
    (hpanic : ∀ site s', stop (.panic site) s' → stop' (.panic site) s')
    (hdiverge : ∀ s', stop .diverge s' → stop' .diverge s') :
    wp (mapFailed f m) s post stop' := by
  unfold wp mapFailed at *
  rw [mapErr_apply]
  rcases hm : m s with ⟨e | a, s'⟩
  · rw [hm] at h
    cases e with
    | err e =>
      cases e with
      | failed e => exact hfailed e s' h
      | dropped => exact hdropped s' h
    | panic site => exact hpanic site s' h
    | diverge => exact hdiverge s' h
  · rw [hm] at h
    exact h

end Dialogue

end Eo9.Library
