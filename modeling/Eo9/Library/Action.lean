import Eo9.Library.Outcome

/-!
# Computations over a mutable state

An action receives the state of an object, and hands back an outcome and the
state it left behind. The state survives an early stop, as the receiver of a
`&mut self` method does: an error returned halfway keeps what was written
before it, so "a failed call changes nothing" has to be proved.

Actions are reasoned about through `wp`, the weakest precondition at one
state, with one postcondition for a returned value and one for a stop.
-/

namespace Eo9.Library

universe u v w

/-- A computation over the state `σ` with typed errors `ε`. -/
def Action (σ : Type u) (ε : Type v) (α : Type w) := σ → Outcome ε α × σ

namespace Action

variable {σ : Type u} {τ : Type u} {ε ε' : Type v} {α β : Type w}

protected def pure (a : α) : Action σ ε α := fun s => (.ok a, s)

protected def bind (m : Action σ ε α) (f : α → Action σ ε β) : Action σ ε β :=
  fun s =>
    match m s with
    | (.ok a, s') => f a s'
    | (.error e, s') => (.error e, s')

instance : Monad (Action.{u, v, w} σ ε) where
  pure := Action.pure
  bind := Action.bind

/-- Stop with an outcome that does not touch the state, or return its value. -/
def ofOutcome (o : Outcome ε α) : Action σ ε α := fun s => (o, s)

instance : MonadLift (Except.{v, w} (Stop ε)) (Action.{u, v, w} σ ε) where
  monadLift := ofOutcome

/-- Read the state through a query that can itself stop. -/
def query (f : σ → Outcome ε α) : Action σ ε α := fun s => (f s, s)

/-- Read a value off the state. -/
def gets (f : σ → α) : Action σ ε α := fun s => (.ok (f s), s)

/-- Change the state. -/
def modify (f : σ → σ) : Action σ ε PUnit := fun s => (.ok ⟨⟩, f s)

/-- Change the state and return a value computed with the change. -/
def update (f : σ → α × σ) : Action σ ε α := fun s => (.ok (f s).1, (f s).2)

/-- Stop with a typed error. -/
def fail (e : ε) : Action σ ε α := fun s => (Outcome.fail e, s)

def panic (site : String) : Action σ ε α := fun s => (Outcome.panic site, s)

/-- Run an action of a component on the whole it is part of. -/
def zoom (get : σ → τ) (set : τ → σ → σ) (m : Action τ ε α) : Action σ ε α :=
  fun s => ((m (get s)).1, set (m (get s)).2 s)

/-- Translate the typed errors of an action. -/
def mapErr (f : ε → Outcome ε' α) (m : Action σ ε α) : Action σ ε' α :=
  fun s => (Outcome.mapErr f (m s).1, (m s).2)

/-- A typed error here is a panic with the given message. -/
def expect (site : String) (m : Action σ ε α) : Action σ ε' α :=
  m.mapErr fun _ => Outcome.panic site

/-- Run an action and hand its typed error on as a value. -/
def attempt (m : Action σ ε α) : Action σ ε' (Except ε α) := fun s =>
  match m s with
  | (.ok a, s') => (.ok (.ok a), s')
  | (.error (.err e), s') => (.ok (.error e), s')
  | (.error (.panic site), s') => (.error (.panic site), s')
  | (.error .diverge, s') => (.error .diverge, s')

@[simp] theorem pure_apply (a : α) (s : σ) :
    (pure a : Action σ ε α) s = (.ok a, s) := rfl

@[simp] theorem ofOutcome_apply (o : Outcome ε α) (s : σ) :
    (ofOutcome o : Action σ ε α) s = (o, s) := rfl

@[simp] theorem monadLift_apply (o : Outcome ε α) (s : σ) :
    (liftM o : Action σ ε α) s = (o, s) := rfl

@[simp] theorem query_apply (f : σ → Outcome ε α) (s : σ) :
    (query f : Action σ ε α) s = (f s, s) := rfl

@[simp] theorem gets_apply (f : σ → α) (s : σ) :
    (gets f : Action σ ε α) s = (.ok (f s), s) := rfl

@[simp] theorem modify_apply (f : σ → σ) (s : σ) :
    (modify f : Action σ ε PUnit) s = (.ok ⟨⟩, f s) := rfl

@[simp] theorem update_apply (f : σ → α × σ) (s : σ) :
    (update f : Action σ ε α) s = (.ok (f s).1, (f s).2) := rfl

@[simp] theorem fail_apply (e : ε) (s : σ) :
    (fail e : Action σ ε α) s = (.error (.err e), s) := rfl

@[simp] theorem panic_apply (site : String) (s : σ) :
    (panic site : Action σ ε α) s = (.error (.panic site), s) := rfl

@[simp] theorem zoom_apply (get : σ → τ) (set : τ → σ → σ) (m : Action τ ε α) (s : σ) :
    zoom get set m s = ((m (get s)).1, set (m (get s)).2 s) := rfl

@[simp] theorem mapErr_apply (f : ε → Outcome ε' α) (m : Action σ ε α) (s : σ) :
    m.mapErr f s = (Outcome.mapErr f (m s).1, (m s).2) := rfl

@[simp] theorem expect_apply (site : String) (m : Action σ ε α) (s : σ) :
    (m.expect site : Action σ ε' α) s =
      (Outcome.mapErr (fun _ => Outcome.panic site) (m s).1, (m s).2) := rfl

theorem bind_apply (m : Action σ ε α) (f : α → Action σ ε β) (s : σ) :
    (m >>= f) s =
      match m s with
      | (.ok a, s') => f a s'
      | (.error e, s') => (.error e, s') := rfl

theorem bind_of_ok {m : Action σ ε α} {f : α → Action σ ε β} {s s' : σ} {a : α}
    (h : m s = (.ok a, s')) : (m >>= f) s = f a s' := by
  simp only [bind_apply, h]

theorem bind_of_error {m : Action σ ε α} {f : α → Action σ ε β} {s s' : σ} {e : Stop ε}
    (h : m s = (.error e, s')) : (m >>= f) s = (.error e, s') := by
  simp only [bind_apply, h]

theorem ofOutcome_bind {o : Outcome ε α} {a : α} (h : o = .ok a) (f : α → Action σ ε β) (s : σ) :
    (ofOutcome o >>= f) s = f a s := by
  rw [h]
  rfl

theorem ofOutcome_bind_error {o : Outcome ε α} {e : Stop ε} (h : o = .error e)
    (f : α → Action σ ε β) (s : σ) : (ofOutcome o >>= f) s = (.error e, s) := by
  rw [h]
  rfl

/-- A sequence returns when both halves do. -/
theorem bind_returns {m : Action σ ε α} {f : α → Action σ ε β} {s s' : σ} {b : β} :
    (m >>= f) s = (.ok b, s') ↔ ∃ a s₁, m s = (.ok a, s₁) ∧ f a s₁ = (.ok b, s') := by
  constructor
  · intro h
    rw [bind_apply] at h
    rcases hm : m s with ⟨e | a, s₁⟩
    · rw [hm] at h
      cases h
    · rw [hm] at h
      exact ⟨a, s₁, rfl, h⟩
  · rintro ⟨a, s₁, hm, h⟩
    rw [bind_of_ok hm, h]

theorem pure_returns {a b : α} {s s' : σ} :
    (pure a : Action σ ε α) s = (.ok b, s') ↔ a = b ∧ s = s' := by
  rw [pure_apply, Prod.mk.injEq, Except.ok.injEq]

theorem liftM_returns {o : Outcome ε α} {b : α} {s s' : σ} :
    (liftM o : Action σ ε α) s = (.ok b, s') ↔ o = .ok b ∧ s = s' := by
  rw [monadLift_apply, Prod.mk.injEq]

/-- What must hold at `s` for the action to end in `post` when it returns and
in `stop` when it does not. -/
def wp (m : Action σ ε α) (s : σ) (post : α → σ → Prop)
    (stop : Stop ε → σ → Prop) : Prop :=
  match m s with
  | (.ok a, s') => post a s'
  | (.error e, s') => stop e s'

section Rules

variable {m : Action σ ε α} {s : σ} {post post' : α → σ → Prop}
  {stop stop' : Stop ε → σ → Prop}

theorem wp_iff : wp m s post stop ↔
    (∀ a s', m s = (.ok a, s') → post a s') ∧
      ∀ e s', m s = (.error e, s') → stop e s' := by
  unfold wp
  rcases m s with ⟨a | e, s'⟩ <;> simp

/-- What a precondition promises of a run that returned. -/
theorem wp.returned (h : wp m s post stop) {a : α} {s' : σ}
    (hm : m s = (.ok a, s')) : post a s' := (wp_iff.mp h).1 a s' hm

/-- What a precondition promises of a run that stopped. -/
theorem wp.stopped (h : wp m s post stop) {e : Stop ε} {s' : σ}
    (hm : m s = (.error e, s')) : stop e s' := (wp_iff.mp h).2 e s' hm

theorem wp_of_ok {a : α} {s' : σ} (hm : m s = (.ok a, s')) (h : post a s') :
    wp m s post stop := by
  simp only [wp, hm, h]

theorem wp_of_error {e : Stop ε} {s' : σ} (hm : m s = (.error e, s')) (h : stop e s') :
    wp m s post stop := by
  simp only [wp, hm, h]

theorem wp_mono (h : wp m s post stop) (hp : ∀ a s', post a s' → post' a s')
    (hs : ∀ e s', stop e s' → stop' e s') : wp m s post' stop' := by
  rw [wp_iff] at h ⊢
  exact ⟨fun a s' hm => hp a s' (h.1 a s' hm), fun e s' hm => hs e s' (h.2 e s' hm)⟩

theorem wp_pure {a : α} (h : post a s) : wp (pure a : Action σ ε α) s post stop := h

theorem wp_fail {e : ε} (h : stop (.err e) s) :
    wp (fail e : Action σ ε α) s post stop := h

theorem wp_panic {site : String} (h : stop (.panic site) s) :
    wp (panic site : Action σ ε α) s post stop := h

theorem wp_gets {f : σ → α} (h : post (f s) s) :
    wp (gets f : Action σ ε α) s post stop := h

theorem wp_modify {f : σ → σ} {post : PUnit → σ → Prop} (h : post ⟨⟩ (f s)) :
    wp (modify f : Action σ ε PUnit) s post stop := h

theorem wp_query {f : σ → Outcome ε α} (hp : ∀ a, f s = .ok a → post a s)
    (hs : ∀ e, f s = .error e → stop e s) : wp (query f) s post stop := by
  unfold wp query
  rcases h : f s with e | a
  · exact hs e h
  · exact hp a h

theorem wp_ofOutcome {o : Outcome ε α} (hp : ∀ a, o = .ok a → post a s)
    (hs : ∀ e, o = .error e → stop e s) : wp (ofOutcome o) s post stop :=
  wp_query (f := fun _ => o) hp hs

theorem wp_liftM {o : Outcome ε α} (hp : ∀ a, o = .ok a → post a s)
    (hs : ∀ e, o = .error e → stop e s) : wp (liftM o : Action σ ε α) s post stop :=
  wp_ofOutcome hp hs

/-- Sequencing: reach an intermediate condition, then go on from it. A stop of
the first half stops the whole. -/
theorem wp_bind {f : α → Action σ ε β} {q : α → σ → Prop} {post : β → σ → Prop}
    {t : Stop ε → σ → Prop} (h : wp m s q t)
    (hf : ∀ a s', q a s' → wp (f a) s' post stop)
    (hs : ∀ e s', t e s' → stop e s') : wp (m >>= f) s post stop := by
  unfold wp at h ⊢
  rw [bind_apply]
  rcases hm : m s with ⟨e | a, s'⟩
  · rw [hm] at h
    exact hs e s' h
  · rw [hm] at h
    exact hf a s' h

/-- Sequencing behind a first half whose result is known. -/
theorem wp_bind_of_ok {f : α → Action σ ε β} {post : β → σ → Prop} {a : α} {s' : σ}
    (hm : m s = (.ok a, s')) (h : wp (f a) s' post stop) : wp (m >>= f) s post stop := by
  unfold wp at h ⊢
  rwa [bind_of_ok hm]

/-- Sequencing behind an outcome that is known. -/
theorem wp_ofOutcome_bind {o : Outcome ε α} {f : α → Action σ ε β} {post : β → σ → Prop} {a : α}
    (ho : o = .ok a) (h : wp (f a) s post stop) : wp (ofOutcome o >>= f) s post stop := by
  unfold wp at h ⊢
  rwa [ofOutcome_bind ho]

/-- An attempt stops only where its action panics or runs forever. -/
theorem wp_attempt {m : Action σ ε α} {q : Except ε α → σ → Prop} {stop : Stop ε' → σ → Prop}
    (h : wp m s (fun a => q (.ok a)) fun e s' => ∃ x, e = .err x ∧ q (.error x) s') :
    wp (attempt m) s q stop := by
  unfold wp attempt at *
  rcases hm : m s with ⟨e | a, s'⟩
  · rw [hm] at h
    obtain ⟨x, rfl, hx⟩ := h
    exact hx
  · rw [hm] at h
    exact h

/-- A loop keeps an invariant that may speak of the rounds already made. -/
theorem wp_foldlM {γ : Type w} {f : β → γ → Action σ ε β} {cs : List γ}
    {p : List γ → β → σ → Prop} {b : β} (h : p [] b s)
    (hstep : ∀ done c rest b s, cs = done ++ c :: rest → p done b s →
      wp (f b c) s (p (done ++ [c])) stop) :
    wp (cs.foldlM f b) s (p cs) stop := by
  suffices hgen : ∀ todo done b s, cs = done ++ todo → p done b s →
      wp (todo.foldlM f b) s (p cs) stop from hgen cs [] b s rfl h
  intro todo
  induction todo with
  | nil =>
    intro done b s hsplit hb
    rw [List.append_nil] at hsplit
    subst hsplit
    exact hb
  | cons c todo ih =>
    intro done b s hsplit hb
    rw [List.foldlM_cons]
    refine wp_bind (hstep done c todo b s hsplit hb) (fun b' s' hb' => ?_) (fun _ _ => id)
    exact ih (done ++ [c]) b' s' (by rw [hsplit, List.append_assoc, List.singleton_append]) hb'

/-- A loop over a list has, of every element, what its round leaves of it. -/
theorem wp_forM_all {γ : Type w} {f : γ → Action σ ε PUnit} {cs : List γ} {q : γ → Prop}
    (hstep : ∀ c ∈ cs, ∀ s, wp (f c) s (fun _ _ => q c) stop) :
    wp (cs.forM f) s (fun _ _ => ∀ c ∈ cs, q c) stop := by
  induction cs generalizing s with
  | nil => exact fun _ h => absurd h List.not_mem_nil
  | cons c cs ih =>
    refine wp_bind (hstep c List.mem_cons_self s) (fun _ s' hc => ?_) (fun _ _ => id)
    refine wp_mono (ih fun c' hc' => hstep c' (List.mem_cons_of_mem _ hc')) ?_ (fun _ _ => id)
    exact fun _ _ hrest => List.forall_mem_cons.mpr ⟨hc, hrest⟩

end Rules

end Action

end Eo9.Library

/-!
## Unsigned machine arithmetic

The operators of an unsigned type of the given width panic when the result does not fit;
their checked forms stop with an error instead.
-/

namespace Eo9.Library.Checked

variable {σ ε : Type} {post : Nat → σ → Prop} {stop : Stop ε → σ → Prop} {s : σ} {w a b : Nat}

def add (w a b : Nat) : Action σ ε Nat :=
  if a + b < 2 ^ w then pure (a + b) else Action.panic "attempt to add with overflow"

def sub (a b : Nat) : Action σ ε Nat :=
  if b ≤ a then pure (a - b) else Action.panic "attempt to subtract with overflow"

def mul (w a b : Nat) : Action σ ε Nat :=
  if a * b < 2 ^ w then pure (a * b) else Action.panic "attempt to multiply with overflow"

def checkedAdd (w a b : Nat) : Action σ Unit Nat :=
  if a + b < 2 ^ w then pure (a + b) else Action.fail ()

/-- Conversion of a value of a wider type. -/
def tryFrom (w a : Nat) : Action σ Unit Nat :=
  if a < 2 ^ w then pure a else Action.fail ()

/-- The complement of the bits of a word. -/
def complement (w a : Nat) : Nat := 2 ^ w - 1 - a

theorem add_of_lt (h : a + b < 2 ^ w) : (add w a b : Action σ ε Nat) = pure (a + b) := if_pos h

theorem mul_of_lt (h : a * b < 2 ^ w) : (mul w a b : Action σ ε Nat) = pure (a * b) := if_pos h

theorem sub_of_le (h : b ≤ a) : (sub a b : Action σ ε Nat) = pure (a - b) := if_pos h

theorem wp_checkedAdd {stop : Stop Unit → σ → Prop} (hok : a + b < 2 ^ w → post (a + b) s)
    (hstop : stop (.err ()) s) : Action.wp (checkedAdd w a b) s post stop := by
  unfold checkedAdd
  split
  · rename_i h
    exact Action.wp_pure (hok h)
  · exact Action.wp_fail hstop

theorem wp_tryFrom {stop : Stop Unit → σ → Prop} (hok : a < 2 ^ w → post a s)
    (hstop : stop (.err ()) s) : Action.wp (tryFrom w a) s post stop := by
  unfold tryFrom
  split
  · rename_i h
    exact Action.wp_pure (hok h)
  · exact Action.wp_fail hstop

/-- Clearing the bits of a mask takes off no more than the mask. -/
theorem le_and_complement_add {x m : Nat} (hx : x < 2 ^ w) (hm : m < 2 ^ w) :
    x ≤ (x &&& complement w m) + m := by
  have hsum : BitVec.ofNat w x =
      (BitVec.ofNat w x &&& ~~~BitVec.ofNat w m) + (BitVec.ofNat w x &&& BitVec.ofNat w m) := by
    rw [BitVec.add_eq_or_of_and_eq_zero]
    · ext i hi
      simp only [BitVec.getElem_or, BitVec.getElem_and, BitVec.getElem_not]
      cases (BitVec.ofNat w x)[i] <;> cases (BitVec.ofNat w m)[i] <;> rfl
    · ext i hi
      simp only [BitVec.getElem_and, BitVec.getElem_not, BitVec.getElem_zero]
      cases (BitVec.ofNat w x)[i] <;> cases (BitVec.ofNat w m)[i] <;> rfl
  have hvalue := congrArg BitVec.toNat hsum
  simp only [BitVec.toNat_add, BitVec.toNat_and, BitVec.toNat_not, BitVec.toNat_ofNat,
    Nat.mod_eq_of_lt hx, Nat.mod_eq_of_lt hm] at hvalue
  have hmask : x &&& m ≤ m := Nat.and_le_right
  calc
    x = ((x &&& complement w m) + (x &&& m)) % 2 ^ w := hvalue
    _ ≤ (x &&& complement w m) + (x &&& m) := Nat.mod_le _ _
    _ ≤ (x &&& complement w m) + m := Nat.add_le_add_left hmask _

end Eo9.Library.Checked
