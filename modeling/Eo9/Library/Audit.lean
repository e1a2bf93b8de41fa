import Mathlib.Tactic.Common
import Eo9.Library.Action

/-!
# Actions audited by what they take in

An action that takes in values it does not trust may keep a record of them. It is audited when it
ends cleanly exactly where all that it takes in is sane. Audited actions compose, so that the
statement for a program is put together from the places where it relies on such a value.
-/

namespace Eo9.Library

variable {σ ε ρ α β : Type} {record : σ → List ρ} {Sane : ρ → Prop} {post post' : α → Prop}
  {m : Action σ ε α}

/-- From any state, the action ends cleanly exactly if all that it takes in is sane, and what it
returns satisfies `post`. -/
def Audited (record : σ → List ρ) (Sane : ρ → Prop) (post : α → Prop) (m : Action σ ε α) : Prop :=
  ∀ s, (∃ new, record (m s).2 = record s ++ new ∧ ((m s).1.Clean ↔ ∀ r ∈ new, Sane r)) ∧
    ∀ a s', m s = (.ok a, s') → post a

namespace Audited

/-- An action that takes nothing in has to end cleanly. -/
theorem of_clean (hclean : ∀ s, (m s).1.Clean) (hrecord : ∀ s, record (m s).2 = record s)
    (hpost : ∀ s a s', m s = (.ok a, s') → post a) : Audited record Sane post m := by
  intro s
  refine ⟨⟨[], ?_, ?_⟩, hpost s⟩
  · rw [hrecord, List.append_nil]
  · exact iff_of_true (hclean s) nofun

theorem mono (h : Audited record Sane post m) (hpost : ∀ a, post a → post' a) :
    Audited record Sane post' m :=
  fun s => ⟨(h s).1, fun a s' hm => hpost a ((h s).2 a s' hm)⟩

theorem pure {a : α} (h : post a) :
    Audited record Sane post (Pure.pure a : Action σ ε α) := by
  refine of_clean (fun s => ?_) (fun _ => rfl) ?_
  · exact Outcome.clean_ok a
  · rintro s _ _ ⟨⟩
    exact h

theorem fail {e : ε} : Audited record Sane post (Action.fail e : Action σ ε α) :=
  of_clean (fun _ => trivial) (fun _ => rfl) fun _ _ _ h => by cases h

theorem gets {f : σ → α} (h : ∀ s, post (f s)) :
    Audited record Sane post (Action.gets f : Action σ ε α) := by
  refine of_clean (fun s => ?_) (fun _ => rfl) ?_
  · exact Outcome.clean_ok (f s)
  · rintro s _ _ ⟨⟩
    exact h s

theorem modify {f : σ → σ} (h : ∀ s, record (f s) = record s) :
    Audited record Sane (fun _ => True) (Action.modify f : Action σ ε PUnit) :=
  of_clean (fun _ => trivial) h fun _ _ _ _ => trivial

theorem ofOutcome {o : Outcome ε α} (hclean : o.Clean) (hpost : ∀ a, o = .ok a → post a) :
    Audited record Sane post (Action.ofOutcome o) := by
  apply of_clean (fun _ => hclean) (fun _ => rfl)
  intro s a s' h
  rw [Action.ofOutcome_apply] at h
  exact hpost a (congrArg Prod.fst h)

theorem ite {p : Prop} [Decidable p] {m' : Action σ ε α} (h : p → Audited record Sane post m)
    (h' : ¬p → Audited record Sane post m') :
    Audited record Sane post (if p then m else m') := by
  by_cases hp : p
  · rw [if_pos hp]
    exact h hp
  · rw [if_neg hp]
    exact h' hp

theorem bind {q : β → Prop} {f : α → Action σ ε β} (h : Audited record Sane post m)
    (hf : ∀ a, post a → Audited record Sane q (f a)) : Audited record Sane q (m >>= f) := by
  intro s
  obtain ⟨⟨new, hnew, hclean⟩, hpost⟩ := h s
  cases hm : m s with
  | mk result s₁ =>
    rw [hm] at hnew hclean
    cases result with
    | error e =>
      rw [Action.bind_of_error hm]
      refine ⟨⟨new, hnew, ?_⟩, fun _ _ h => by cases h⟩
      exact Outcome.clean_error_iff.trans hclean
    | ok a =>
      rw [Action.bind_of_ok hm]
      obtain ⟨⟨more, hmore, hrest⟩, hlast⟩ := hf a (hpost a s₁ hm) s₁
      have hsane : ∀ r ∈ new, Sane r := hclean.mp trivial
      refine ⟨⟨new ++ more, ?_, ?_⟩, hlast⟩
      · rw [hmore, hnew, List.append_assoc]
      · rw [hrest, List.forall_mem_append]
        exact (and_iff_right hsane).symm

/-- A value is taken in: what follows is audited if it is sane, and breaks at once if it is not. -/
theorem take {r : ρ} {add : σ → σ} (hadd : ∀ s, record (add s) = record s ++ [r])
    (hsane : Sane r → Audited record Sane post m)
    (hbroken : ¬Sane r → ∀ s, ¬(m s).1.Clean ∧ record (m s).2 = record s) :
    Audited record Sane post (Action.modify add >>= fun _ => m) := by
  intro s
  by_cases hr : Sane r
  · obtain ⟨⟨new, hnew, hclean⟩, hpost⟩ := hsane hr (add s)
    refine ⟨⟨r :: new, ?_, ?_⟩, hpost⟩
    · exact hnew.trans (by rw [hadd, List.append_assoc, List.singleton_append])
    · rw [List.forall_mem_cons]
      exact hclean.trans (and_iff_right hr).symm
  · obtain ⟨hpanic, hsame⟩ := hbroken hr (add s)
    refine ⟨⟨[r], hsame.trans (hadd s), ?_⟩, fun a s' hm => ?_⟩
    · refine iff_of_false hpanic fun h => hr (h r List.mem_cons_self)
    · have hok : (m (add s)).1 = .ok a := congrArg Prod.fst hm
      rw [hok] at hpanic
      exact absurd trivial hpanic

end Audited

end Eo9.Library
