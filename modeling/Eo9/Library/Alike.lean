import Eo9.Library.Routine
import Mathlib.Data.List.Forall2

/-!
# Two runs of routines

Routines that go the same way from related states on related answers, and worlds whose
operations are all such routines: whatever one run of such a world does, a run on related
answers does the same up to related results.
-/

namespace Eo9.Library

variable {σ κ ω : Type} {A : κ → Type} {β γ : Type}

/-- What is related to an append is an append. -/
theorem forall₂_append_left {α β : Type} {R : α → β → Prop} {l₁ l₂ : List α} {m : List β}
    (h : List.Forall₂ R (l₁ ++ l₂) m) :
    ∃ m₁ m₂, m = m₁ ++ m₂ ∧ List.Forall₂ R l₁ m₁ ∧ List.Forall₂ R l₂ m₂ := by
  induction l₁ generalizing m with
  | nil => exact ⟨[], m, rfl, .nil, h⟩
  | cons a l₁ ih =>
    cases h with
    | cons hab hrest =>
      obtain ⟨m₁, m₂, rfl, h₁, h₂⟩ := ih hrest
      exact ⟨_ :: m₁, m₂, rfl, .cons hab h₁, h₂⟩

section

/- Related shared states, and related answers to one call. -/
variable (states : σ → σ → Prop) (answers : ∀ c, A c → A c → Prop)

/-- Two routines that go the same way. -/
inductive Alike (results : β → β → Prop) : Routine σ A β → Routine σ A β → Prop
  | done {b b' : β} (h : results b b') : Alike results (.done b) (.done b')
  | step {f f' : σ → σ} {next next' : σ → Routine σ A β}
      (hf : ∀ s s', states s s' → states (f s) (f' s'))
      (hnext : ∀ s s', states s s' → Alike results (next s) (next' s')) :
      Alike results (.step f next) (.step f' next')
  | park {call : κ} {abandon abandon' : σ → σ} {resume resume' : A call → Routine σ A β}
      (habandon : ∀ s s', states s s' → states (abandon s) (abandon' s'))
      (hresume : ∀ a a', answers call a a' → Alike results (resume a) (resume' a')) :
      Alike results (.park call abandon resume) (.park call abandon' resume')

/-- Two parked routines that go the same way. -/
inductive AlikeParked (results : β → β → Prop) : Parked σ A β → Parked σ A β → Prop
  | mk {call : κ} {abandon abandon' : σ → σ} {resume resume' : A call → Routine σ A β}
      (habandon : ∀ s s', states s s' → states (abandon s) (abandon' s'))
      (hresume : ∀ a a', answers call a a' → Alike states answers results (resume a) (resume' a')) :
      AlikeParked results ⟨call, abandon, resume⟩ ⟨call, abandon', resume'⟩

/-- Two ends of a stretch that look the same up to related results. -/
inductive AlikeSettled (results : β → β → Prop) : Settled σ A β → Settled σ A β → Prop
  | returned {b b' : β} (h : results b b') : AlikeSettled results (.returned b) (.returned b')
  | parked {p p' : Parked σ A β} (h : AlikeParked states answers results p p') :
      AlikeSettled results (.parked p) (.parked p')

variable {states answers} {results results' : β → β → Prop} {t t' : Routine σ A β} {s s' : σ}

namespace Alike

theorem bind {results' : γ → γ → Prop} {k k' : β → Routine σ A γ}
    (h : Alike states answers results t t')
    (hk : ∀ b b', results b b' → Alike states answers results' (k b) (k' b')) :
    Alike states answers results' (t >>= k) (t' >>= k') := by
  induction h with
  | done h => exact hk _ _ h
  | step hf hnext ih => exact .step hf ih
  | park habandon hresume ih => exact .park habandon ih

theorem guarded {cleanup : σ → σ} {kept : β → Bool} (h : Alike states answers results t t')
    (hcleanup : ∀ s s', states s s' → states (cleanup s) (cleanup s'))
    (hkept : ∀ b b', results b b' → kept b = kept b') :
    Alike states answers results (t.guarded cleanup kept) (t'.guarded cleanup kept) := by
  induction h with
  | @done b b' h =>
    unfold Routine.guarded
    rw [hkept b b' h]
    split
    · exact .done h
    · exact .step hcleanup fun _ _ _ => .done h
  | step hf hnext ih => exact .step hf ih
  | park habandon hresume ih =>
    exact .park (fun s s' hs => hcleanup _ _ (habandon s s' hs)) ih

theorem act {f f' : σ → β × σ} (h : ∀ s s', states s s' →
    results (f s).1 (f' s').1 ∧ states (f s).2 (f' s').2) :
    Alike states answers results (Routine.act f) (Routine.act f') :=
  .step (fun s s' hs => (h s s' hs).2) fun s s' hs => .done (h s s' hs).1

/-- From related states two routines come to the same. -/
theorem settle (h : Alike states answers results t t') (hs : states s s') :
    AlikeSettled states answers results (t.settle s).1 (t'.settle s').1 ∧
      states (t.settle s).2 (t'.settle s').2 := by
  induction h generalizing s s' with
  | done h => exact ⟨.returned h, hs⟩
  | step hf hnext ih => exact ih s s' hs (hf s s' hs)
  | park habandon hresume ih => exact ⟨.parked (.mk habandon hresume), hs⟩

end Alike

variable (states answers) in
/-- Two labels that look the same up to related answers and related results. -/
inductive AlikeLabel (results : ω → β → β → Prop) : Label A ω β → Label A ω β → Prop
  | start {op : ω} {b b' : β} (h : results op b b') :
      AlikeLabel results (.ran op .start (.returned b)) (.ran op .start (.returned b'))
  | called {op : ω} {call : κ} :
      AlikeLabel results (.ran op .start (.called call)) (.ran op .start (.called call))
  | answer {op : ω} {call : κ} {a a' : A call} (ha : answers call a a') {b b' : β}
      (h : results op b b') :
      AlikeLabel results (.ran op (.answer call a) (.returned b))
        (.ran op (.answer call a') (.returned b'))
  | answerCalled {op : ω} {call call' : κ} {a a' : A call} (ha : answers call a a') :
      AlikeLabel results (.ran op (.answer call a) (.called call'))
        (.ran op (.answer call a') (.called call'))
  | dropped {op : ω} {call : κ} : AlikeLabel results (.dropped op call) (.dropped op call)

/-- What the environment does in a step. -/
inductive Event {κ : Type} (A : κ → Type) (ω : Type) where
  | start (op : ω)
  | answer (op : ω) (call : κ) (a : A call)
  | drop (op : ω) (call : κ)

def Label.event : Label A ω β → Event A ω
  | .ran op .start _ => .start op
  | .ran op (.answer call a) _ => .answer op call a
  | .dropped op call => .drop op call

variable (answers) in
/-- Two events that differ in related answers at most. -/
inductive AlikeEvent : Event A ω → Event A ω → Prop
  | start {op : ω} : AlikeEvent (.start op) (.start op)
  | answer {op : ω} {call : κ} {a a' : A call} (ha : answers call a a') :
      AlikeEvent (.answer op call a) (.answer op call a')
  | drop {op : ω} {call : κ} : AlikeEvent (.drop op call) (.drop op call)

variable (states answers) in
/-- Two worlds in related states, with the same operations parked. -/
structure AlikeWorld (results : ω → β → β → Prop) (w w' : World σ A ω β) : Prop where
  shared : states w.shared w'.shared
  parked : List.Forall₂ (fun q q' : ω × Parked σ A β =>
    q.1 = q'.1 ∧ AlikeParked states answers (results q.1) q.2 q'.2) w.parked w'.parked

section Run

variable {program : ω → Routine σ A β} {results : ω → β → β → Prop} {w w' v : World σ A ω β}
  (hprogram : ∀ op, Alike states answers (results op) (program op) (program op))

theorem AlikeSettled.kept {op : ω} {results : β → β → Prop} {r r' : Settled σ A β}
    {results' : ω → β → β → Prop} (hresults : results = results' op)
    (h : AlikeSettled states answers results r r') :
    List.Forall₂ (fun q q' : ω × Parked σ A β =>
      q.1 = q'.1 ∧ AlikeParked states answers (results' q.1) q.2 q'.2) (r.kept op) (r'.kept op) := by
  subst hresults
  cases h with
  | returned h => exact .nil
  | parked h => exact .cons ⟨rfl, h⟩ .nil

include hprogram

/-- What one world does, a world like it does on a like event. -/
theorem AlikeWorld.step {l : Label A ω β} {e : Event A ω}
    (hw : AlikeWorld states answers results w v) (hstep : World.Step program w l w')
    (he : AlikeEvent answers l.event e) :
    ∃ l' v', World.Step program v l' v' ∧ l'.event = e ∧ AlikeLabel answers results l l' ∧
      AlikeWorld states answers results w' v' := by
  obtain ⟨hshared, hparked⟩ := hw
  cases hstep with
  | start op h =>
    rename_i r s'
    cases he
    obtain ⟨hsettle, hstate⟩ := (hprogram op).settle hshared
    rw [h] at hsettle hstate
    refine ⟨_, _, .start op rfl, rfl, ?_, hstate, List.rel_append hparked (hsettle.kept rfl)⟩
    generalize ((program op).settle v.shared).1 = r' at hsettle
    cases hsettle with
    | returned hb => exact .start hb
    | parked hp =>
      cases hp
      exact .called
  | answer a h =>
    rename_i s before after op p r s'
    obtain ⟨t, parked⟩ := v
    obtain ⟨before', rest, hsplit, hbefore, hrest⟩ := forall₂_append_left hparked
    simp only at hsplit
    subst hsplit
    cases hrest with
    | cons hq hafter =>
      rename_i q' after'
      obtain ⟨op', p'⟩ := q'
      obtain ⟨hop, hp⟩ := hq
      subst hop
      cases hp with
      | @mk call abandon abandon' resume resume' habandon hresume =>
        cases he with
        | answer ha =>
          rename_i a'
          obtain ⟨hsettle, hstate⟩ := (hresume a a' ha).settle hshared
          simp only at h
          rw [h] at hsettle hstate
          rcases hgoes : (resume' a').settle t with ⟨r', t'⟩
          rw [hgoes] at hsettle hstate
          refine ⟨_, _, .answer (p := ⟨call, abandon', resume'⟩) a' hgoes, rfl, ?_, hstate,
            List.rel_append hbefore (List.rel_append (hsettle.kept rfl) hafter)⟩
          cases hsettle with
          | returned hb => exact .answer ha hb
          | parked hp =>
            cases hp
            exact .answerCalled ha
  | drop =>
    rename_i s before after op p
    obtain ⟨t, parked⟩ := v
    obtain ⟨before', rest, hsplit, hbefore, hrest⟩ := forall₂_append_left hparked
    simp only at hsplit
    subst hsplit
    cases hrest with
    | cons hq hafter =>
      rename_i q' after'
      obtain ⟨op', p'⟩ := q'
      obtain ⟨hop, hp⟩ := hq
      subst hop
      cases hp with
      | mk habandon hresume =>
        cases he
        exact ⟨_, _, .drop, rfl, .dropped, habandon _ _ hshared,
          List.rel_append hbefore hafter⟩

/-- What a run does, a run on like events does too. -/
theorem AlikeWorld.run {trace : List (Label A ω β)} {events : List (Event A ω)}
    (hw : AlikeWorld states answers results w v) (run : Run (World.Step program) w trace w')
    (he : List.Forall₂ (AlikeEvent answers) (trace.map Label.event) events) :
    ∃ trace' v', Run (World.Step program) v trace' v' ∧ trace'.map Label.event = events ∧
      List.Forall₂ (AlikeLabel answers results) trace trace' ∧
      AlikeWorld states answers results w' v' := by
  induction run generalizing v events with
  | nil w =>
    cases he
    exact ⟨[], v, .nil v, rfl, .nil, hw⟩
  | cons head tail ih =>
    cases he with
    | cons hl hrest =>
      obtain ⟨l', v₁, hstep, rfl, hlabel, hworld⟩ := hw.step hprogram head hl
      obtain ⟨trace', v', run', rfl, htrace, hlast⟩ := ih hworld hrest
      exact ⟨l' :: trace', v', .cons hstep run', rfl, .cons hlabel htrace, hlast⟩

end Run

end

end Eo9.Library
