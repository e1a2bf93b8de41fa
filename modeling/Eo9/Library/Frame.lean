import Eo9.Library.Action
import Mathlib.Order.Defs.Unbundled

/-!
# What an action leaves alone

An action respects a preorder of states when every run of it moves up in the order, returns
only values of a kind, and stops with nothing worse than a typed error. Equality of an
observation is such a preorder: the action then leaves the observation alone.
-/

namespace Eo9.Library.Action

universe u v w

variable {σ : Type u} {ε ε' : Type v} {α β : Type w} {rel : σ → σ → Prop}

/-- An action of a component, in terms of what it does to the component. -/
theorem wp_zoom {τ : Type u} {get : σ → τ} {set : τ → σ → σ} {m : Action τ ε α} {s : σ}
    {post : α → σ → Prop} {stop : Stop ε → σ → Prop}
    (h : wp m (get s) (fun a t => post a (set t s)) fun e t => stop e (set t s)) :
    wp (m.zoom get set) s post stop := by
  unfold wp at h ⊢
  rw [zoom_apply]
  rcases hm : m (get s) with ⟨e | a, t⟩
  · rw [hm] at h
    exact h
  · rw [hm] at h
    exact h

/-- An action whose typed errors are renamed. -/
theorem wp_mapErr {f : ε → ε'} {m : Action σ ε α} {s : σ} {post : α → σ → Prop}
    {stop : Stop ε' → σ → Prop}
    (h : wp m s post fun e s' => ∃ x, e = .err x ∧ stop (.err (f x)) s') :
    wp (m.mapErr fun e => Outcome.fail (f e)) s post stop := by
  unfold wp at h ⊢
  rw [mapErr_apply]
  rcases hm : m s with ⟨e | a, s'⟩
  · rw [hm] at h
    obtain ⟨x, rfl, hx⟩ := h
    exact hx
  · rw [hm] at h
    exact h

/-- Two facts about one run. -/
theorem wp_and {m : Action σ ε α} {s : σ} {p q : α → σ → Prop} {stop stop' : Stop ε → σ → Prop}
    (h : wp m s p stop) (h' : wp m s q stop') :
    wp m s (fun a s' => p a s' ∧ q a s') fun e s' => stop e s' ∧ stop' e s' := by
  rw [wp_iff] at *
  exact ⟨fun a s' hm => ⟨h.1 a s' hm, h'.1 a s' hm⟩, fun e s' hm => ⟨h.2 e s' hm, h'.2 e s' hm⟩⟩

/-- What holds of the state however a run ends. -/
theorem wp.final {m : Action σ ε α} {s : σ} {p : σ → Prop}
    (h : wp m s (fun _ => p) fun _ => p) : p (m s).2 := by
  rcases hm : m s with ⟨e | a, s'⟩
  · exact h.stopped hm
  · exact h.returned hm

/-- A value that is made from the result does not change the state. -/
theorem wp_map {m : Action σ ε α} {s : σ} {f : α → β} {post : σ → Prop}
    {stop : Stop ε → σ → Prop} (h : wp m s (fun _ => post) stop) :
    wp (m >>= fun a => pure (f a)) s (fun _ => post) stop :=
  wp_bind h (fun _ _ hp => wp_pure hp) fun _ _ => id

/-- The observation is the same at both ends. -/
def Same {β : Type*} (f : σ → β) (s s' : σ) : Prop := f s' = f s

instance {β : Type*} (f : σ → β) : Std.Refl (Same f) := ⟨fun _ => rfl⟩

instance {β : Type*} (f : σ → β) : IsTrans σ (Same f) :=
  ⟨fun _ _ _ h h' => Eq.trans h' h⟩

/-- Every run moves along the relation, returns a value of the kind and does not panic. -/
def Respects (rel : σ → σ → Prop) (p : α → Prop) (m : Action σ ε α) : Prop :=
  ∀ s, wp m s (fun a s' => p a ∧ rel s s') fun e s' => (∃ x, e = .err x) ∧ rel s s'

namespace Respects

variable {p p' : α → Prop} {q : β → Prop} {m : Action σ ε α} {f : α → Action σ ε β}

theorem mono (h : Respects rel p m) (hp : ∀ a, p a → p' a) : Respects rel p' m := fun s =>
  wp_mono (h s) (fun a _ ha => ⟨hp a ha.1, ha.2⟩) fun _ _ he => he

theorem weaken {rel' : σ → σ → Prop} (h : Respects rel p m) (hrel : ∀ s s', rel s s' → rel' s s') :
    Respects rel' p m := fun s =>
  wp_mono (h s) (fun _ s' ha => ⟨ha.1, hrel s s' ha.2⟩) fun _ s' he => ⟨he.1, hrel s s' he.2⟩

section Preorder

variable [Std.Refl rel] [IsTrans σ rel]

omit [IsTrans σ rel] in
protected theorem pure {a : α} (h : p a) : Respects rel p (pure a : Action σ ε α) := fun s =>
  wp_pure ⟨h, Std.Refl.refl s⟩

omit [IsTrans σ rel] in
protected theorem fail {e : ε} : Respects rel p (Action.fail e) := fun s =>
  wp_fail ⟨⟨e, rfl⟩, Std.Refl.refl s⟩

omit [Std.Refl rel] in
protected theorem bind (h : Respects rel p m) (hf : ∀ a, p a → Respects rel q (f a)) :
    Respects rel q (m >>= f) := by
  intro s
  refine wp_bind (h s) (fun a s' ha => ?_) (fun _ _ he => he)
  refine wp_mono (hf a ha.1 s') (fun b s'' hb => ?_) (fun e s'' he => ?_)
  · exact ⟨hb.1, IsTrans.trans _ _ _ ha.2 hb.2⟩
  · exact ⟨he.1, IsTrans.trans _ _ _ ha.2 he.2⟩

end Preorder

/-- The error of an attempt is a value. -/
protected theorem attempt (h : Respects rel p m) :
    Respects rel (fun r => ∀ a, r = .ok a → p a) (m.attempt : Action σ ε' (Except ε α)) := by
  intro s
  refine wp_attempt (wp_mono (h s) (fun a s' ha => ?_) fun e s' he => ?_)
  · exact ⟨fun b hb => Except.ok.inj hb ▸ ha.1, ha.2⟩
  · obtain ⟨⟨x, rfl⟩, hrel⟩ := he
    exact ⟨x, rfl, ⟨nofun, hrel⟩⟩

/-- An action in front of another one that is at home anywhere up in the order. -/
theorem wp_bind (h : Respects rel p m) {s : σ} {post : β → σ → Prop} {stop : Stop ε → σ → Prop}
    (hf : ∀ a s', p a → rel s s' → wp (f a) s' post stop)
    (hstop : ∀ x s', rel s s' → stop (.err x) s') : wp (m >>= f) s post stop := by
  refine Action.wp_bind (h s) (fun a s' ha => hf a s' ha.1 ha.2) fun e s' he => ?_
  obtain ⟨⟨x, rfl⟩, hrel⟩ := he
  exact hstop x s' hrel

end Respects

/-- Every run moves along the relation, however it ends. -/
def Moves (rel : σ → σ → Prop) (m : Action σ ε α) : Prop := ∀ s, rel s (m s).2

theorem Respects.moves {p : α → Prop} {m : Action σ ε α} (h : Respects rel p m) :
    Moves rel m := by
  intro s
  have hs := wp_iff.mp (h s)
  rcases hm : m s with ⟨e | a, s'⟩
  · exact (hs.2 e s' hm).2
  · exact (hs.1 a s' hm).2

namespace Moves

variable {m : Action σ ε α} {f : α → Action σ ε β}

theorem of_stay [Std.Refl rel] (h : ∀ s, (m s).2 = s) : Moves rel m := fun s =>
  (h s).symm ▸ Std.Refl.refl s

protected theorem bind [IsTrans σ rel] (h : Moves rel m) (hf : ∀ a, Moves rel (f a)) :
    Moves rel (m >>= f) := by
  intro s
  have hs := h s
  rw [bind_apply]
  rcases hm : m s with ⟨e | a, s'⟩
  · rw [hm] at hs
    exact hs
  · rw [hm] at hs
    exact IsTrans.trans _ _ _ hs (hf a s')

theorem mapErr {g : ε → Outcome ε' α} (h : Moves rel m) :
    Moves rel (m.mapErr g) := h

theorem zoom {τ : Type u} {rel' : τ → τ → Prop} {get : τ → σ} {set : σ → τ → τ}
    (h : Moves rel m) (hset : ∀ t s, rel (get t) s → rel' t (set s t)) :
    Moves rel' (m.zoom get set) := fun t => hset t _ (h (get t))

end Moves

end Eo9.Library.Action
