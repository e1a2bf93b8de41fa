import Eo9.Library.Routine

/-!
# A resource that one routine at a time holds

Routines take the resource off its seat and put it back, the first of them after bringing
it up. Who finds the seat claimed is turned away. Under every interleaving at most one
routine is then parked, on the one resource there ever is or on bringing it up, and when
none is parked the resource is on its seat or nobody has claimed it.
-/

namespace Eo9.Library

variable {σ κ ω ι ρ : Type} {A : κ → Type} {β γ ε : Type}

/-- The seat of the resource: nobody claimed it, the resource is there, or some routine
has it. -/
inductive Seat (ι : Type) where
  | vacant
  | home (i : ι)
  | away

/-- The seat once the routine that has the resource, or brings it up, is gone. -/
def Seat.left : Option ι → Seat ι
  | none => .vacant
  | some i => .home i

/-- What a routine finds on the seat. -/
inductive View (ρ : Type) where
  | ready (r : ρ)
  | busy
  | needOpen

/-- Take the resource for a routine, bringing it up on first use; nothing if another routine
has it. The claim to bring it up is released unless that succeeds, and the resource is
put back when the routine is through. -/
def withResource (take : σ → View ρ × σ) (release : σ → σ) (putBack : ρ → σ → σ)
    (bringUp : Routine σ A (Except ε ρ)) (body : ρ → Routine σ A (Except ε β)) :
    Routine σ A (Except ε (Option β)) := do
  match ← Routine.act take with
  | .ready r =>
    let result ← (body r).guarded (putBack r) fun _ => false
    return result.map some
  | .busy => return .ok none
  | .needOpen =>
    match ← bringUp.guarded release fun opened => opened.isOk with
    | .error e => return .error e
    | .ok r =>
      let result ← (body r).guarded (putBack r) fun _ => false
      return result.map some

namespace Custody

/- Where the seat is, which resource a call is made on, if it is up, and which resource
an answer hands over. -/
variable (seat : σ → Seat ι) (onto : κ → Option ι) (gives : ∀ c, A c → Option ι)

/-- The resource that an answer leaves a routine with. -/
def heldAfter (call : κ) (a : A call) : Option ι := (onto call).or (gives call a)

/-- How a stretch of a routine has to leave the seat if it ends there. -/
def owed (m : Routine.Moment σ A) : Seat ι :=
  match m.cause with
  | .start => seat m.before
  | .answer call a => .left (heldAfter onto gives call a)

def Drops (call : κ) (_ s' : σ) : Prop := seat s' = .left (onto call)

def Calls (m : Routine.Moment σ A) (call : κ) (s : σ) : Prop :=
  seat s = .away ∧ owed seat onto gives m = .left (onto call)

def Returns (m : Routine.Moment σ A) (_ : β) (s : σ) : Prop := seat s = owed seat onto gives m

/-- The others leave the seat of a routine that has the resource alone. -/
def Relies (s s' : σ) : Prop := seat s = .away → seat s' = .away

/-- The specification that the routines of a shared resource meet. -/
def Keeps (m : Routine.Moment σ A) (t : Routine σ A β) (s : σ) : Prop :=
  Routine.Meets (Drops seat onto) (Calls seat onto gives) (Relies seat)
    (Returns seat onto gives) m t s

/-- A routine in the middle of its use of a resource: it leaves the seat alone. -/
def Uses (i : ι) : Routine σ A β → Prop
  | .done _ => True
  | .step f next => (∀ s, seat (f s) = seat s) ∧ ∀ s, Uses i (next s)
  | .park call abandon resume =>
    onto call = some i ∧ (∀ s, seat (abandon s) = seat s) ∧ ∀ a, Uses i (resume a)

variable {seat onto gives} {i : ι} {t : Routine σ A β} {m : Routine.Moment σ A} {s : σ}

namespace Uses

theorem bind {k : β → Routine σ A γ} (h : Uses seat onto i t) (hk : ∀ b, Uses seat onto i (k b)) :
    Uses seat onto i (t >>= k) := by
  induction t with
  | done b => exact hk b
  | step f next ih => exact ⟨h.1, fun s => ih s (h.2 s)⟩
  | park call abandon resume ih => exact ⟨h.1, h.2.1, fun a => ih a (h.2.2 a)⟩

theorem act {f : σ → β × σ} (h : ∀ s, seat (f s).2 = seat s) : Uses seat onto i
    (Routine.act f : Routine σ A β) :=
  ⟨h, fun _ => trivial⟩

theorem guarded {cleanup : σ → σ} {kept : β → Bool} (h : Uses seat onto i t)
    (hcleanup : ∀ s, seat (cleanup s) = seat s) : Uses seat onto i (t.guarded cleanup kept) := by
  induction t with
  | done b =>
    unfold Routine.guarded
    split
    · trivial
    · exact ⟨hcleanup, fun _ => trivial⟩
  | step f next ih => exact ⟨h.1, fun s => ih s (h.2 s)⟩
  | park call abandon resume ih =>
    exact ⟨h.1, fun s => (hcleanup _).trans (h.2.1 s), fun a => ih a (h.2.2 a)⟩

end Uses

/-- A call in the middle of a use goes to the resource in hand. -/
def UsesDrops (i : ι) (seat : σ → Seat ι) (onto : κ → Option ι) (call : κ) (_ s' : σ) : Prop :=
  onto call = some i ∧ seat s' = .away

/-- In the middle of its use of a resource a routine owes it to the seat. -/
theorem Uses.meets (h : Uses seat onto i t) (hs : seat s = .away)
    (howed : owed seat onto gives m = .home i) :
    Routine.Meets (UsesDrops i seat onto) (Calls seat onto gives) (Relies seat)
      (fun m _ s => seat s = .away ∧ owed seat onto gives m = .home i) m t s := by
  induction t generalizing m s with
  | done b => exact ⟨hs, howed⟩
  | step f next ih => exact ih s (h.2 s) ((h.1 s).trans hs) howed
  | park call abandon resume ih =>
    obtain ⟨honto, habandon, hresume⟩ := h
    refine ⟨⟨hs, by rw [howed, honto]; rfl⟩, (seat · = .away), hs, fun _ _ h h' => h' h,
      fun s' hs' => ⟨honto, (habandon s').trans hs'⟩, fun a s' hs' => ih a (hresume a) hs' ?_⟩
    simp only [owed, heldAfter, honto, Option.some_or]
    rfl

/-- What taking, releasing and putting back do to the seat. -/
structure Lawful (seat : σ → Seat ι) (name : ρ → ι) (take : σ → View ρ × σ) (release : σ → σ)
    (putBack : ρ → σ → σ) : Prop where
  take_vacant : ∀ s, seat s = .vacant → (take s).1 = .needOpen ∧ seat (take s).2 = .away
  take_home : ∀ s i, seat s = .home i →
    ∃ r, (take s).1 = .ready r ∧ name r = i ∧ seat (take s).2 = .away
  take_away : ∀ s, seat s = .away → take s = (.busy, s)
  release_away : ∀ s, seat s = .away → seat (release s) = .vacant
  putBack_away : ∀ r s, seat s = .away → seat (putBack r s) = .home (name r)

/-- A routine that brings the resource up, up to the resource in its hand. -/
def BringsUp (seat : σ → Seat ι) (onto : κ → Option ι) (gives : ∀ c, A c → Option ι)
    (name : ρ → ι) (t : Routine σ A (Except ε ρ)) : Prop :=
  ∀ m s, seat s = .away → owed seat onto gives m = .vacant →
    Routine.Meets (fun call _ s' => onto call = none ∧ seat s' = .away) (Calls seat onto gives)
      (Relies seat)
      (fun m opened s => seat s = .away ∧
        owed seat onto gives m = .left (opened.toOption.map name)) m t s

variable {name : ρ → ι} {take : σ → View ρ × σ} {release : σ → σ} {putBack : ρ → σ → σ}
  {bringUp : Routine σ A (Except ε ρ)} {body : ρ → Routine σ A (Except ε β)}

theorem Lawful.uses_keeps (law : Lawful seat name take release putBack) {r : ρ}
    (h : Uses seat onto (name r) (body r)) (hs : seat s = .away)
    (howed : owed seat onto gives m = .home (name r)) :
    Keeps seat onto gives m
      (do
        let result ← (body r).guarded (putBack r) fun _ => false
        return result.map some : Routine σ A (Except ε (Option β))) s := by
  have hscope : Keeps seat onto gives m ((body r).guarded (putBack r) fun _ => false) s := by
    refine (h.meets hs howed).guarded (fun c s s' hdrop => ?_) (fun m b s hb => nomatch hb)
      fun m b s _ hpost => ?_
    · rw [Drops, law.putBack_away r s' hdrop.2, hdrop.1]
      rfl
    · rw [Returns, law.putBack_away r s hpost.1, hpost.2]
  exact Routine.Meets.bind hscope fun m b s hb => hb

/-- A routine on the resource keeps its seat, wherever it starts from. -/
theorem Lawful.keeps (law : Lawful seat name take release putBack)
    (hbring : BringsUp seat onto gives name bringUp)
    (hbody : ∀ r, Uses seat onto (name r) (body r)) (hm : m.cause = .start)
    (hs : seat m.before = seat s) :
    Keeps seat onto gives m (withResource take release putBack bringUp body) s := by
  have howed : owed seat onto gives m = seat s := by rw [owed, hm, hs]
  unfold withResource Keeps
  rw [Routine.act_bind]
  cases hseat : seat s with
  | away =>
    simp only [Routine.Meets, law.take_away s hseat]
    exact howed.symm
  | home i =>
    obtain ⟨r, hr, rfl, haway⟩ := law.take_home s i hseat
    simp only [Routine.Meets, hr]
    exact law.uses_keeps (hbody r) haway (howed.trans hseat)
  | vacant =>
    obtain ⟨hopen, haway⟩ := law.take_vacant s hseat
    simp only [Routine.Meets, hopen]
    have hopening : Routine.Meets (Drops seat onto) (Calls seat onto gives) (Relies seat)
        (fun m opened s => match opened with
          | .error _ => seat s = owed seat onto gives m
          | .ok r => seat s = .away ∧ owed seat onto gives m = .home (name r))
        m (bringUp.guarded release fun opened => opened.isOk) (take s).2 := by
      refine (hbring m _ haway (howed.trans hseat)).guarded (fun c s s' hdrop => ?_)
        (fun m opened s hkept hpost => ?_) fun m opened s hkept hpost => ?_
      · rw [Drops, law.release_away s' hdrop.2, hdrop.1]
        rfl
      · cases opened with
        | error e => exact nomatch hkept
        | ok r => exact hpost
      · cases opened with
        | error e => exact (law.release_away s hpost.1).trans hpost.2.symm
        | ok r => exact nomatch hkept
    refine Routine.Meets.bind hopening fun m opened s hpost => ?_
    cases opened with
    | error e => exact hpost
    | ok r => exact law.uses_keeps (hbody r) hpost.1 hpost.2

theorem Keeps.bind_done {f : β → γ} (h : Keeps seat onto gives m t s) :
    Keeps seat onto gives m (t >>= fun b => .done (f b)) s :=
  Routine.Meets.bind h fun _ _ _ hb => hb

/-- A scope whose destructor leaves the seat alone. -/
theorem Keeps.guarded {cleanup : σ → σ} {kept : β → Bool} (h : Keeps seat onto gives m t s)
    (hcleanup : ∀ s, seat (cleanup s) = seat s) :
    Keeps seat onto gives m (t.guarded cleanup kept) s :=
  Routine.Meets.guarded h (fun _ _ s' hdrop => (hcleanup s').trans hdrop) (fun _ _ _ _ hpost => hpost)
    fun _ _ s _ hpost => (hcleanup s).trans hpost

variable (gives) in
/-- The resource that a step hands over. -/
def openedBy : Label A ω β → Option ι
  | .ran _ (.answer call a) _ => gives call a
  | _ => none

variable (seat onto) in
/-- The seat and the parked routines, when `opened` is the resource there is. -/
def Kept (opened : Option ι) (w : World σ A ω β) : Prop :=
  (w.parked = [] ∧ seat w.shared = .left opened) ∨
    ∃ q, w.parked = [q] ∧ seat w.shared = .away ∧ onto q.2.call = opened

variable (seat onto gives) in
/-- One resource, one holder, and nobody wedged, after a run with the given trace. -/
structure NeverWedged (program : ω → Routine σ A β) (turnedAway : ω → σ → β × σ)
    (trace : List (Label A ω β)) (w : World σ A ω β) : Prop where
  one_open : (trace.filterMap (openedBy gives)).length ≤ 1
  one_holder : w.parked.length ≤ 1
  /-- A parked routine is on the resource that was handed over, or brings up the first. -/
  on_it : ∀ q ∈ w.parked, onto q.2.call = (trace.filterMap (openedBy gives)).head?
  ready : w.parked = [] → seat w.shared = .left (trace.filterMap (openedBy gives)).head?
  refuses : w.parked ≠ [] → seat w.shared = .away ∧ ∀ op,
    (program op).settle w.shared =
      (.returned (turnedAway op w.shared).1, (turnedAway op w.shared).2) ∧
    seat (turnedAway op w.shared).2 = .away

theorem left_ne_away {held : Option ι} : Seat.left held ≠ .away := by
  cases held <;> exact nofun

theorem left_injective {held held' : Option ι} (h : Seat.left held = .left held') :
    held = held' := by
  cases held <;> cases held' <;> first | rfl | (cases h; rfl) | exact nomatch h

variable (seat onto gives) in
/-- What is known of the parked routines. -/
def Known (w : World σ A ω β) : Prop :=
  ∀ q ∈ w.parked, Routine.Awaits (Drops seat onto) (Calls seat onto gives) (Relies seat)
    (Returns seat onto gives) q.2 w.shared

/-- A parked operation is the only one. -/
theorem Kept.alone {opened : Option ι} {s : σ} {before after : List (ω × Parked σ A β)} {op : ω}
    {p : Parked σ A β} (h : Kept seat onto opened ⟨s, before ++ (op, p) :: after⟩) :
    before = [] ∧ after = [] ∧ onto p.call = opened := by
  rcases h with ⟨hnone, -⟩ | ⟨q, hq, -, honto⟩
  · simp at hnone
  · obtain ⟨rfl, hrest⟩ := (List.append_eq_singleton_iff.mp hq).resolve_right (by simp)
    obtain ⟨rfl, rfl⟩ := List.cons.inj hrest
    exact ⟨rfl, rfl, honto⟩

section Run

variable {program : ω → Routine σ A β}
  (hprogram : ∀ op s, Keeps seat onto gives ⟨.start, s⟩ (program op) s)
  (hgives : ∀ c (a : A c) i, gives c a = some i → onto c = none)

include hprogram hgives

/-- One step keeps the seat and hands over at most the resource there will be. -/
theorem kept_step {opened : Option ι} {w w' : World σ A ω β} {l : Label A ω β}
    (hkept : Kept seat onto opened w) (hparked : Known seat onto gives w)
    (hstep : World.Step program w l w') :
    ∃ opened', opened'.toList = opened.toList ++ (openedBy gives l).toList ∧
      Kept seat onto opened' w' ∧ Known seat onto gives w' := by
  obtain ⟨hlabel, others, hothers, hcount, hrest⟩ :=
    hstep.meets (fun op => hprogram op w.shared) hparked
  have hknown : (others ≠ [] → seat w'.shared = .away) → Known seat onto gives w' := by
    intro haway q hq
    rcases hrest q hq with hother | hmoved
    · refine (hparked q (hothers q hother)).keep fun _ => haway ?_
      exact List.ne_nil_of_mem hother
    · exact hmoved
  cases hstep with
  | start op h =>
    rename_i r s'
    refine ⟨opened, by simp [openedBy], ?_⟩
    rcases hkept with ⟨hnone, hseat⟩ | ⟨q, hq, haway, honto⟩
    · refine ⟨?_, hknown fun h => absurd (hcount.trans hnone) h⟩
      cases r with
      | returned b => exact .inl ⟨by rw [hnone]; rfl, hlabel.trans hseat⟩
      | parked p =>
        refine .inr ⟨(op, p), by rw [hnone]; rfl, hlabel.1, ?_⟩
        exact left_injective (hlabel.2.symm.trans hseat)
    · cases r with
      | returned b =>
        have haway' : seat s' = .away := hlabel.trans haway
        exact ⟨.inr ⟨q, by simp [hq, Settled.kept], haway', honto⟩, hknown fun _ => haway'⟩
      | parked p => exact absurd (hlabel.2.symm.trans haway) left_ne_away
  | answer a h =>
    rename_i s before after op p r s'
    obtain ⟨hbefore, hafter, honto⟩ := hkept.alone
    subst hbefore hafter
    have hnone : others = [] := List.length_eq_zero_iff.mp (Nat.succ.inj hcount)
    refine ⟨heldAfter onto gives p.call a, ?_, ?_, hknown fun h => absurd hnone h⟩
    · subst honto
      cases hgive : gives p.call a with
      | none => simp [openedBy, heldAfter, hgive]
      | some i => simp [openedBy, heldAfter, hgive, hgives _ _ _ hgive]
    · cases r with
      | returned b => exact .inl ⟨rfl, hlabel⟩
      | parked p' => exact .inr ⟨(op, p'), rfl, hlabel.1, (left_injective hlabel.2).symm⟩
  | drop =>
    rename_i s before after op p
    obtain ⟨hbefore, hafter, honto⟩ := hkept.alone
    subst hbefore hafter
    have hnone : others = [] := List.length_eq_zero_iff.mp (Nat.succ.inj hcount)
    refine ⟨opened, by simp [openedBy], .inl ⟨rfl, ?_⟩, hknown fun h => absurd hnone h⟩
    exact hlabel.trans (by rw [honto])

/-- Every run keeps the seat. -/
theorem kept_run {trace : List (Label A ω β)} {w₀ w : World σ A ω β}
    (hstart : w₀.parked = []) (hseat : seat w₀.shared = .vacant)
    (run : Run (World.Step program) w₀ trace w) :
    ∃ opened, opened.toList = trace.filterMap (openedBy gives) ∧ Kept seat onto opened w := by
  suffices hgen : ∀ (opened : Option ι), Kept seat onto opened w₀ → Known seat onto gives w₀ →
      ∃ opened', opened'.toList = opened.toList ++ trace.filterMap (openedBy gives) ∧
        Kept seat onto opened' w by
    obtain ⟨opened, hopened, hkept⟩ :=
      hgen none (.inl ⟨hstart, hseat⟩) (by simp [Known, hstart])
    exact ⟨opened, by simpa using hopened, hkept⟩
  clear hstart hseat
  induction run with
  | nil w => exact fun opened hkept _ => ⟨opened, by simp, hkept⟩
  | @cons w₀ w₁ w₂ l ls head _ ih =>
    intro opened hkept hparked
    obtain ⟨opened₁, hopened₁, hkept₁, hparked₁⟩ := kept_step hprogram hgives hkept hparked head
    obtain ⟨opened₂, hopened₂, hkept₂⟩ := ih opened₁ hkept₁ hparked₁
    refine ⟨opened₂, ?_, hkept₂⟩
    rw [hopened₂, hopened₁, List.append_assoc, List.filterMap_cons]
    cases openedBy gives l <;> rfl

/-- The rule for a shared resource. -/
theorem neverWedged {turnedAway : ω → σ → β × σ} {trace : List (Label A ω β)}
    {w₀ w : World σ A ω β}
    (hturned : ∀ op s, seat s = .away → (program op).settle s =
      (.returned (turnedAway op s).1, (turnedAway op s).2))
    (hstart : w₀.parked = []) (hseat : seat w₀.shared = .vacant)
    (run : Run (World.Step program) w₀ trace w) :
    NeverWedged seat onto gives program turnedAway trace w := by
  obtain ⟨opened, hopened, hkept⟩ := kept_run hprogram hgives hstart hseat run
  have hhead : (trace.filterMap (openedBy gives)).head? = opened := by
    rw [← hopened]
    cases opened <;> rfl
  have hlength : (trace.filterMap (openedBy gives)).length ≤ 1 := by
    rw [← hopened]
    exact Option.length_toList_le
  rcases hkept with ⟨hnone, hhome⟩ | ⟨q, hq, haway, honto⟩
  · exact {
      one_open := hlength
      one_holder := by simp [hnone]
      on_it := by simp [hnone]
      ready := fun _ => by rw [hhead, hhome]
      refuses := fun h => absurd hnone h }
  · refine {
      one_open := hlength
      one_holder := by simp [hq]
      on_it := by simpa [hq, hhead] using honto
      ready := fun h => absurd (hq.symm.trans h) nofun
      refuses := fun _ => ⟨haway, fun op => ⟨hturned op _ haway, ?_⟩⟩ }
    have hsettle := (hprogram op w.shared).settle
    rw [hturned op _ haway] at hsettle
    exact hsettle.trans haway

end Run

end Custody

end Eo9.Library
