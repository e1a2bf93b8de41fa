import Eo9.Library.Runs

/-!
# Routines that park

A routine runs on a state it shares with other routines until it makes a call, parks there,
and goes on with the answer, if one comes: a parked routine can also be dropped, which runs
the destructors in its scope. Nothing runs in between. Routines are reasoned about through
`Meets`, which says of every stretch between two calls what it does to the shared state.
-/

namespace Eo9.Library

variable {σ κ ω : Type} {A : κ → Type} {β γ ε : Type}

/-- A routine over a shared state. A call comes with what dropping the routine there does. -/
inductive Routine (σ : Type) {κ : Type} (A : κ → Type) (β : Type) where
  | done (b : β)
  /-- One access to the shared state, and the rest, which knows the state before it. -/
  | step (f : σ → σ) (next : σ → Routine σ A β)
  | park (call : κ) (abandon : σ → σ) (resume : A call → Routine σ A β)

/-- A routine that waits for the answer to its call. -/
structure Parked (σ : Type) {κ : Type} (A : κ → Type) (β : Type) where
  call : κ
  abandon : σ → σ
  resume : A call → Routine σ A β

/-- Where a routine comes to before anything else runs. -/
inductive Settled (σ : Type) {κ : Type} (A : κ → Type) (β : Type) where
  | returned (b : β)
  | parked (p : Parked σ A β)

namespace Routine

protected def bind : Routine σ A β → (β → Routine σ A γ) → Routine σ A γ
  | done b, k => k b
  | step f next, k => .step f fun s => (next s).bind k
  | park call abandon resume, k => .park call abandon fun a => (resume a).bind k

instance : Monad (Routine σ A) where
  pure := .done
  bind := Routine.bind

/-- Read and change the shared state at once. -/
def act (f : σ → β × σ) : Routine σ A β := .step (fun s => (f s).2) fun s => .done (f s).1

def get (f : σ → β) : Routine σ A β := act fun s => (f s, s)

def modify (f : σ → σ) : Routine σ A Unit := act fun s => ((), f s)

/-- Call and wait for the answer. -/
def await (call : κ) : Routine σ A (A call) := .park call id .done

/-- Run a routine in the scope of a value whose destructor is `cleanup`, unless the
result takes that value over. -/
def guarded (cleanup : σ → σ) (kept : β → Bool) : Routine σ A β → Routine σ A β
  | done b => if kept b then .done b else .step cleanup fun _ => .done b
  | step f next => .step f fun s => (next s).guarded cleanup kept
  | park call abandon resume =>
    .park call (cleanup ∘ abandon) fun a => (resume a).guarded cleanup kept

/-- Run a routine to its end or to its next call. -/
def settle : Routine σ A β → σ → Settled σ A β × σ
  | done b, s => (.returned b, s)
  | step f next, s => (next s).settle (f s)
  | park call abandon resume, s => (.parked ⟨call, abandon, resume⟩, s)

@[simp] theorem done_bind (b : β) (k : β → Routine σ A γ) :
    Routine.bind (.done b : Routine σ A β) k = k b := rfl

@[simp] theorem bind_done (b : β) (k : β → Routine σ A γ) : (.done b : Routine σ A β) >>= k = k b := rfl

@[simp] theorem pure_eq (b : β) : (pure b : Routine σ A β) = .done b := rfl

theorem act_bind (f : σ → β × σ) (k : β → Routine σ A γ) :
    act f >>= k = .step (fun s => (f s).2) fun s => k (f s).1 := rfl

/-- A first half that comes to its end goes on with the second. -/
theorem settle_bind {t : Routine σ A β} {k : β → Routine σ A γ} {s s' : σ} {b : β}
    (h : t.settle s = (.returned b, s')) : (t >>= k).settle s = (k b).settle s' := by
  induction t generalizing s with
  | done b' =>
    obtain ⟨hb, rfl⟩ := Prod.mk.inj h
    obtain rfl := Settled.returned.inj hb
    rfl
  | step f next ih => exact ih s h
  | park call abandon resume ih => exact absurd (Prod.mk.inj h).1 nofun

/-- A routine that comes to its end leaves its scope. -/
theorem settle_guarded {t : Routine σ A β} {cleanup : σ → σ} {kept : β → Bool} {s s' : σ} {b : β}
    (h : t.settle s = (.returned b, s')) (hkept : kept b = false) :
    (t.guarded cleanup kept).settle s = (.returned b, cleanup s') := by
  induction t generalizing s with
  | done b' =>
    obtain ⟨hb, rfl⟩ := Prod.mk.inj h
    obtain rfl := Settled.returned.inj hb
    rw [Routine.guarded, hkept]
    rfl
  | step f next ih => exact ih s h
  | park call abandon resume ih => exact absurd (Prod.mk.inj h).1 nofun

section Exec

variable {χ : Type} (reply : (call : κ) → σ × χ → A call × (σ × χ))

/-- Run a routine to its end where the environment answers every call. Until it does, the others may
have changed the shared state. -/
def exec : Routine σ A β → σ × χ → β × (σ × χ)
  | done b, w => (b, w)
  | step f next, w => (next w.1).exec (f w.1, w.2)
  | park call _ resume, w => (resume (reply call w).1).exec (reply call w).2

variable {reply}

theorem exec_bind (t : Routine σ A β) (k : β → Routine σ A γ) (w : σ × χ) :
    (t >>= k).exec reply w = (k (t.exec reply w).1).exec reply (t.exec reply w).2 := by
  induction t generalizing w with
  | done b => rfl
  | step f next ih => exact ih w.1 (f w.1, w.2)
  | park call abandon resume ih => exact ih (reply call w).1 (reply call w).2

end Exec

/-- Every access of the routine to the shared state is one that the relation allows. -/
def Through (r : σ → σ → Prop) : Routine σ A β → Prop
  | done _ => True
  | step f next => ∀ s, r s (f s) ∧ (next s).Through r
  | park _ _ resume => ∀ a, (resume a).Through r

namespace Through

variable {r : σ → σ → Prop} {t : Routine σ A β}

theorem bind {k : β → Routine σ A γ} (h : t.Through r) (hk : ∀ b, (k b).Through r) :
    (t >>= k).Through r := by
  induction t with
  | done b => exact hk b
  | step f next ih => exact fun s => ⟨(h s).1, ih s (h s).2⟩
  | park call abandon resume ih => exact fun a => ih a (h a)

theorem act {f : σ → β × σ} (h : ∀ s, r s (f s).2) :
    (Routine.act f : Routine σ A β).Through r := fun s => ⟨h s, trivial⟩

/-- What every access keeps, a run keeps if the environment does. -/
theorem exec {χ : Type} {reply : (call : κ) → σ × χ → A call × (σ × χ)} (h : t.Through r)
    (hrefl : ∀ s, r s s) (htrans : ∀ s₁ s₂ s₃, r s₁ s₂ → r s₂ s₃ → r s₁ s₃)
    (hreply : ∀ call w, r w.1 (reply call w).2.1) (w : σ × χ) : r w.1 (t.exec reply w).2.1 := by
  induction t generalizing w with
  | done b => exact hrefl w.1
  | step f next ih => exact htrans _ _ _ (h w.1).1 (ih w.1 (h w.1).2 (f w.1, w.2))
  | park call abandon resume ih =>
    exact htrans _ _ _ (hreply call w) (ih (reply call w).1 (h _) (reply call w).2)

end Through

/-- What set a routine going. -/
inductive Cause {κ : Type} (A : κ → Type) where
  | start
  | answer (call : κ) (a : A call)

/-- The start of a stretch: what set it going, and the shared state there. -/
structure Moment (σ : Type) {κ : Type} (A : κ → Type) where
  cause : Cause A
  before : σ

section Meets

/- What dropping a routine may do, what must hold at a call, and what the other routines
do to the shared state in the meantime. -/
variable (drops : κ → σ → σ → Prop) (calls : Moment σ A → κ → σ → Prop) (rely : σ → σ → Prop)

/-- Every stretch of the routine ends in a call that `calls` allows or in a result that
`post` allows. What a routine goes on from is a fact that holds when it parks and that
the others keep. -/
def Meets (post : Moment σ A → β → σ → Prop) : Moment σ A → Routine σ A β → σ → Prop
  | m, done b, s => post m b s
  | m, step f next, s => Meets post m (next s) (f s)
  | m, park call abandon resume, s =>
    calls m call s ∧ ∃ fact : σ → Prop, fact s ∧ (∀ s₁ s₂, fact s₁ → rely s₁ s₂ → fact s₂) ∧
      (∀ s', fact s' → drops call s' (abandon s')) ∧
      ∀ a s', fact s' → Meets post ⟨.answer call a, s'⟩ (resume a) s'

variable {drops calls rely} {drops' : κ → σ → σ → Prop} {calls' : Moment σ A → κ → σ → Prop}
  {post post' : Moment σ A → β → σ → Prop} {m : Moment σ A} {t : Routine σ A β} {s : σ}

theorem Meets.bind {post' : Moment σ A → γ → σ → Prop} {k : β → Routine σ A γ}
    (h : Meets drops calls rely post m t s)
    (hk : ∀ m b s, post m b s → Meets drops calls rely post' m (k b) s) :
    Meets drops calls rely post' m (t >>= k) s := by
  induction t generalizing m s with
  | done b => exact hk m b s h
  | step f next ih => exact ih s h
  | park call abandon resume ih =>
    obtain ⟨hcall, fact, hfact, hkeep, habandon, hresume⟩ := h
    exact ⟨hcall, fact, hfact, hkeep, habandon, fun a s' hs' => ih a (hresume a s' hs')⟩

/-- A scope: its destructor runs after the routine, wherever the routine ends. -/
theorem Meets.guarded {cleanup : σ → σ} {kept : β → Bool}
    (h : Meets drops' calls rely post' m t s)
    (hdrops : ∀ c s s', drops' c s s' → drops c s (cleanup s'))
    (hkept : ∀ m b s, kept b = true → post' m b s → post m b s)
    (hpost : ∀ m b s, kept b = false → post' m b s → post m b (cleanup s)) :
    Meets drops calls rely post m (t.guarded cleanup kept) s := by
  induction t generalizing m s with
  | done b =>
    unfold Routine.guarded
    split
    · rename_i hb
      exact hkept m b s hb h
    · rename_i hb
      exact hpost m b s (Bool.eq_false_iff.mpr hb) h
  | step f next ih => exact ih s h
  | park call abandon resume ih =>
    obtain ⟨hcall, fact, hfact, hkeep, habandon, hresume⟩ := h
    exact ⟨hcall, fact, hfact, hkeep, fun s' hs' => hdrops call s' _ (habandon s' hs'),
      fun a s' hs' => ih a (hresume a s' hs')⟩

/-- What is known of a routine that waits. -/
def Awaits (drops : κ → σ → σ → Prop) (calls : Moment σ A → κ → σ → Prop) (rely : σ → σ → Prop)
    (post : Moment σ A → β → σ → Prop) (p : Parked σ A β) (s : σ) : Prop :=
  ∃ fact : σ → Prop, fact s ∧ (∀ s₁ s₂, fact s₁ → rely s₁ s₂ → fact s₂) ∧
    (∀ s', fact s' → drops p.call s' (p.abandon s')) ∧
    ∀ a s', fact s' → Meets drops calls rely post ⟨.answer p.call a, s'⟩ (p.resume a) s'

theorem Awaits.keep {p : Parked σ A β} {s' : σ} (h : Awaits drops calls rely post p s)
    (hrely : rely s s') : Awaits drops calls rely post p s' := by
  obtain ⟨fact, hfact, hkeep, hrest⟩ := h
  exact ⟨fact, hkeep s s' hfact hrely, hkeep, hrest⟩

/-- The end of a stretch. -/
theorem Meets.settle (h : Meets drops calls rely post m t s) :
    match t.settle s with
    | (.returned b, s') => post m b s'
    | (.parked p, s') => calls m p.call s' ∧ Awaits drops calls rely post p s' := by
  induction t generalizing s with
  | done b => exact h
  | step f next ih => exact ih s h
  | park call abandon resume ih => exact h

end Meets

end Routine

/-- A shared state and the operations that are parked, each with its routine. -/
structure World (σ : Type) {κ : Type} (A : κ → Type) (ω β : Type) where
  shared : σ
  parked : List (ω × Parked σ A β)

/-- What a stretch of an operation came to. -/
inductive Seen (κ β : Type) where
  | returned (b : β)
  | called (call : κ)

/-- One step of the world, as seen from outside of it. -/
inductive Label {κ : Type} (A : κ → Type) (ω β : Type) where
  | ran (op : ω) (cause : Routine.Cause A) (seen : Seen κ β)
  | dropped (op : ω) (call : κ)

namespace Settled

def seen : Settled σ A β → Seen κ β
  | returned b => .returned b
  | parked p => .called p.call

/-- The operation as the world keeps it. -/
def kept (op : ω) : Settled σ A β → List (ω × Parked σ A β)
  | returned _ => []
  | parked p => [(op, p)]

end Settled

variable (program : ω → Routine σ A β)

/-- An operation starts, one that is parked gets its answer, or one is dropped. -/
inductive World.Step : World σ A ω β → Label A ω β → World σ A ω β → Prop
  | start {w : World σ A ω β} (op : ω) {r : Settled σ A β} {s' : σ}
      (h : (program op).settle w.shared = (r, s')) :
      Step w (.ran op .start r.seen) ⟨s', w.parked ++ r.kept op⟩
  | answer {s : σ} {before after : List (ω × Parked σ A β)} {op : ω} {p : Parked σ A β}
      (a : A p.call) {r : Settled σ A β} {s' : σ} (h : (p.resume a).settle s = (r, s')) :
      Step ⟨s, before ++ (op, p) :: after⟩ (.ran op (.answer p.call a) r.seen)
        ⟨s', before ++ (r.kept op ++ after)⟩
  | drop {s : σ} {before after : List (ω × Parked σ A β)} {op : ω} {p : Parked σ A β} :
      Step ⟨s, before ++ (op, p) :: after⟩ (.dropped op p.call) ⟨p.abandon s, before ++ after⟩

/-- What the environment does next. An answer is for the parked operation at a place. -/
inductive Move {κ : Type} (A : κ → Type) (ω : Type) where
  | start (op : ω)
  | answer (i : Nat) (reply : ∀ call, Option (A call))
  | drop (i : Nat)

/-- What comes of a move, if there is such an operation and the answer fits its call. -/
def World.move (w : World σ A ω β) : Move A ω → Option (Label A ω β × World σ A ω β)
  | .start op =>
    let (r, s) := (program op).settle w.shared
    some (.ran op .start r.seen, ⟨s, w.parked ++ r.kept op⟩)
  | .answer i reply => do
      let (op, p) ← w.parked[i]?
      let a ← reply p.call
      let (r, s) := (p.resume a).settle w.shared
      some (.ran op (.answer p.call a) r.seen,
        ⟨s, w.parked.take i ++ (r.kept op ++ w.parked.drop (i + 1))⟩)
  | .drop i => do
      let (op, p) ← w.parked[i]?
      some (.dropped op p.call, ⟨p.abandon w.shared, w.parked.take i ++ w.parked.drop (i + 1)⟩)

/-- What comes of some moves in turn. -/
def World.play : World σ A ω β → List (Move A ω) → Option (List (Label A ω β) × World σ A ω β)
  | w, [] => some ([], w)
  | w, move :: moves => do
      let (l, w) ← w.move program move
      let (trace, w) ← w.play moves
      some (l :: trace, w)

/-- What a specification of the operations says of a step. -/
def Label.Allowed (drops : κ → σ → σ → Prop) (calls : ω → Routine.Moment σ A → κ → σ → Prop)
    (post : ω → Routine.Moment σ A → β → σ → Prop) : Label A ω β → σ → σ → Prop
  | .ran op cause (.returned b), s, s' => post op ⟨cause, s⟩ b s'
  | .ran op cause (.called call), s, s' => calls op ⟨cause, s⟩ call s'
  | .dropped _ call, s, s' => drops call s s'

/-- The parked operations that a step does not move: all of them if one starts, and all
but one otherwise. -/
def Label.Leaves : Label A ω β → List (ω × Parked σ A β) → List (ω × Parked σ A β) → Prop
  | .ran _ .start _, parked, others => others = parked
  | .ran _ (.answer _ _) _, parked, others => others.length + 1 = parked.length
  | .dropped _ _, parked, others => others.length + 1 = parked.length

namespace World

variable {program} {w w' : World σ A ω β} {l : Label A ω β}

/-- The parked operations around one of them. -/
theorem parked_split {i : Nat} {q : ω × Parked σ A β} (h : w.parked[i]? = some q) :
    w = ⟨w.shared, w.parked.take i ++ q :: w.parked.drop (i + 1)⟩ := by
  obtain ⟨hi, hq⟩ := List.getElem?_eq_some_iff.mp h
  rw [← hq, List.getElem_cons_drop, List.take_append_drop]

theorem step_of_move {move : Move A ω} (h : w.move program move = some (l, w')) :
    Step program w l w' := by
  cases move with
  | start op =>
    obtain ⟨rfl, rfl⟩ := Prod.mk.inj (Option.some.inj h)
    exact .start op rfl
  | answer i reply =>
    obtain ⟨⟨op, p⟩, hget, h⟩ := Option.bind_eq_some_iff.mp h
    obtain ⟨a, -, h⟩ := Option.bind_eq_some_iff.mp h
    obtain ⟨rfl, rfl⟩ := Prod.mk.inj (Option.some.inj h)
    have hstep : Step program ⟨w.shared, w.parked.take i ++ (op, p) :: w.parked.drop (i + 1)⟩
      _ _ := .answer a rfl
    rwa [← parked_split hget] at hstep
  | drop i =>
    obtain ⟨⟨op, p⟩, hget, h⟩ := Option.bind_eq_some_iff.mp h
    obtain ⟨rfl, rfl⟩ := Prod.mk.inj (Option.some.inj h)
    have hstep : Step program ⟨w.shared, w.parked.take i ++ (op, p) :: w.parked.drop (i + 1)⟩
      _ _ := .drop
    rwa [← parked_split hget] at hstep

/-- Moves in turn make a run. -/
theorem run_of_play {moves : List (Move A ω)} {trace : List (Label A ω β)}
    (h : w.play program moves = some (trace, w')) : Run (Step program) w trace w' := by
  induction moves generalizing w trace with
  | nil =>
    obtain ⟨rfl, rfl⟩ := Prod.mk.inj (Option.some.inj h)
    exact .nil w
  | cons move moves ih =>
    obtain ⟨⟨l, w₁⟩, hmove, h⟩ := Option.bind_eq_some_iff.mp h
    obtain ⟨⟨rest, w₂⟩, hplay, h⟩ := Option.bind_eq_some_iff.mp h
    obtain ⟨rfl, rfl⟩ := Prod.mk.inj (Option.some.inj h)
    exact .cons (step_of_move hmove) (ih hplay)

/-- The rule for worlds: when the routines of all operations meet a specification, every
step is one that it allows. The routines that were parked and did not move are the
`others`; they go on from what they know where they can rely on the step. -/
theorem Step.meets {drops : κ → σ → σ → Prop} {calls : ω → Routine.Moment σ A → κ → σ → Prop}
    {post : ω → Routine.Moment σ A → β → σ → Prop} {rely : σ → σ → Prop}
    (hprogram : ∀ op, Routine.Meets drops (calls op) rely (post op) ⟨.start, w.shared⟩
      (program op) w.shared)
    (hparked : ∀ q ∈ w.parked, Routine.Awaits drops (calls q.1) rely (post q.1) q.2 w.shared)
    (h : Step program w l w') :
    l.Allowed drops calls post w.shared w'.shared ∧
    ∃ others, (∀ q ∈ others, q ∈ w.parked) ∧ l.Leaves w.parked others ∧
      ∀ q ∈ w'.parked, q ∈ others ∨
        Routine.Awaits drops (calls q.1) rely (post q.1) q.2 w'.shared := by
  cases h with
  | start op h =>
    have hsettle := (hprogram op).settle
    rw [h] at hsettle
    rename_i r s'
    cases r with
    | returned b =>
      exact ⟨hsettle, w.parked, fun _ => id, rfl, fun q hq => .inl (by
        simpa [Settled.kept] using hq)⟩
    | parked p =>
      refine ⟨hsettle.1, w.parked, fun _ => id, rfl, fun q hq => ?_⟩
      rcases List.mem_append.mp hq with hq | hq
      · exact .inl hq
      · obtain rfl := List.mem_singleton.mp hq
        exact .inr hsettle.2
  | answer a h =>
    rename_i s before after op p r s'
    obtain ⟨fact, hfact, -, -, hresume⟩ := hparked (op, p) (by simp)
    have hsettle := (hresume a s hfact).settle
    rw [h] at hsettle
    have hothers : ∀ q ∈ before ++ after, q ∈ before ++ (op, p) :: after := fun q hq =>
      (List.mem_append.mp hq).elim (List.mem_append_left _) fun hq =>
        List.mem_append_right _ (List.mem_cons_of_mem _ hq)
    have hcount : (before ++ after).length + 1 = (before ++ (op, p) :: after).length := by
      rw [List.length_append, List.length_append, List.length_cons, Nat.add_assoc]
    cases r with
    | returned b =>
      exact ⟨hsettle, before ++ after, hothers, hcount, fun q hq => .inl hq⟩
    | parked p' =>
      refine ⟨hsettle.1, before ++ after, hothers, hcount, fun q hq => ?_⟩
      rcases List.mem_append.mp hq with hq | hq
      · exact .inl (List.mem_append_left _ hq)
      · rcases List.mem_cons.mp hq with rfl | hq
        · exact .inr hsettle.2
        · exact .inl (List.mem_append_right _ hq)
  | drop =>
    rename_i s before after op p
    obtain ⟨fact, hfact, -, habandon, -⟩ := hparked (op, p) (by simp)
    have hcount : (before ++ after).length + 1 = (before ++ (op, p) :: after).length := by
      rw [List.length_append, List.length_append, List.length_cons, Nat.add_assoc]
    refine ⟨habandon s hfact, before ++ after, fun q hq => ?_, hcount, fun q hq => .inl hq⟩
    exact (List.mem_append.mp hq).elim (List.mem_append_left _) fun hq =>
      List.mem_append_right _ (List.mem_cons_of_mem _ hq)

end World

end Eo9.Library
