import Eo9.Sched.Safety

/-!
# Completion queues and doorbells

The readiness primitives of `completion.rs`, and the pairing its documentation
gives: a producer pushes a record, rings the doorbell when the push reports the
empty edge, and marks the task ready when the ring reports its edge. Each of
the three is a step of its own here, and steps of any number of producers, of
the task being resumed and of the scheduler come in any order.

A wake that comes while its task is running is dropped. So the pairing loses no
wakeup as long as a task reports itself blocked only with nothing left to take,
or with a wake on the way; without that it does.
-/

namespace Eo9.Sched

open Eo9.Library Std

/-- An edge-triggered wake flag. -/
structure Doorbell where
  rung : Bool

namespace Doorbell

def new : Doorbell := ⟨false⟩

/-- Ring; whether this call set the flag. -/
def ring (bell : Doorbell) : Bool × Doorbell := (!bell.rung, ⟨true⟩)

/-- Consume the signal; whether there was one. -/
def take (bell : Doorbell) : Bool × Doorbell := (bell.rung, ⟨false⟩)

end Doorbell

/-- A queue of completion records for one task. -/
structure CompletionQueue (T : Type) where
  records : List T

namespace CompletionQueue

variable {T : Type}

def new : CompletionQueue T := ⟨[]⟩

/-- Append a record; whether the queue was empty. -/
def push (record : T) (queue : CompletionQueue T) : Bool × CompletionQueue T :=
  (queue.records.isEmpty, ⟨queue.records ++ [record]⟩)

/-- Remove all records, oldest first. -/
def drain (queue : CompletionQueue T) : List T × CompletionQueue T := (queue.records, ⟨[]⟩)

end CompletionQueue

/-- What a producer that has pushed its record still has to do. -/
inductive Producer where
  /-- The push reported the empty edge: ring. -/
  | ring (task : TaskId)
  /-- The ring reported its edge: mark the task ready. -/
  | ready (task : TaskId)

/-- A scheduler with the queue and the doorbell of each task, and the producers
in the middle of a completion. -/
structure Host (P T : Type) where
  sched : Scheduler P
  queue : TaskId → CompletionQueue T
  bell : TaskId → Doorbell
  producers : List Producer

namespace Host

variable {P T : Type} [Policy P]

/-- A fresh scheduler, nothing queued and nothing rung. -/
def Fresh (h : Host P T) : Prop :=
  Scheduler.new Policy.empty = .ok h.sched ∧ h.queue = (fun _ => .new) ∧
    h.bell = (fun _ => .new) ∧ h.producers = []

/-- What happens in a step. -/
inductive Event (T : Type) where
  | push (task : TaskId) (record : T)
  | ring (task : TaskId)
  | ready (task : TaskId) (result : Outcome SchedError Reply)
  | take (task : TaskId)
  | drain (task : TaskId)
  | call (call : Call) (result : Outcome SchedError Reply)

/-- One step of a producer, of the task being resumed, or of the scheduler. -/
inductive Step : Host P T → Event T → Host P T → Prop
  | push (h : Host P T) (task : TaskId) (record : T) :
      Step h (.push task record)
        { h with
          queue := Function.update h.queue task ((h.queue task).push record).2
          producers :=
            if ((h.queue task).push record).1 then .ring task :: h.producers else h.producers }
  | ring {h : Host P T} {task : TaskId} {before after : List Producer}
      (hmem : h.producers = before ++ .ring task :: after) :
      Step h (.ring task)
        { h with
          bell := Function.update h.bell task (h.bell task).ring.2
          producers :=
            if (h.bell task).ring.1 then .ready task :: (before ++ after) else before ++ after }
  | ready {h : Host P T} {task : TaskId} {before after : List Producer}
      {result : Outcome SchedError Reply} {sched : Scheduler P}
      (hmem : h.producers = before ++ .ready task :: after)
      (hcall : h.sched.Step (.ready task, result) sched) :
      Step h (.ready task result) { h with sched, producers := before ++ after }
  | take {h : Host P T} {task : TaskId} (hrun : h.sched.state task = .ok .running) :
      Step h (.take task) { h with bell := Function.update h.bell task (h.bell task).take.2 }
  | drain {h : Host P T} {task : TaskId} (hrun : h.sched.state task = .ok .running) :
      Step h (.drain task) { h with queue := Function.update h.queue task (h.queue task).drain.2 }
  | call {h : Host P T} {c : Call} {result : Outcome SchedError Reply} {sched : Scheduler P}
      (hcall : h.sched.Step (c, result) sched) : Step h (.call c result) { h with sched }

/-- A producer step is pending that will mark the task ready. -/
def WillWake (h : Host P T) (task : TaskId) : Prop :=
  .ready task ∈ h.producers ∨ ((h.bell task).rung = false ∧ .ring task ∈ h.producers)

/-- There is something for the task to take. -/
def Waiting (h : Host P T) (task : TaskId) : Prop :=
  (h.queue task).records ≠ [] ∨ (h.bell task).rung = true

/-- A report of blocking is made only with nothing left to take, or with a wake
on the way. -/
def Attentive (h : Host P T) : Event T → Prop
  | .call (.report task _ .blocked) _ => h.Waiting task → h.WillWake task
  | _ => True

end Host

namespace Scheduler

variable {P : Type}

def IsBlocked (s : Scheduler P) (t : TaskId) : Prop :=
  ∃ entry, s.tasks[t]? = some entry ∧ entry.state = .blocked

theorem isBlocked_iff {s : Scheduler P} {t : TaskId} :
    s.IsBlocked t ↔ s.state t = .ok .blocked := by
  unfold IsBlocked state
  cases s.tasks[t]? with
  | none => simp [Outcome.fail]
  | some entry => simp

/-- An action that blocks no task but, at most, those of `p`. -/
def Calm {ε α : Type} (p : TaskId → Prop) (m : Action (Scheduler P) ε α) : Prop :=
  ∀ s t, (m s).2.IsBlocked t → s.IsBlocked t ∨ p t

section Calm

variable {ε ε' α β : Type} {p : TaskId → Prop}

theorem Calm.of_tasks {m : Action (Scheduler P) ε α} (h : ∀ s, (m s).2.tasks = s.tasks) :
    Calm p m := by
  rintro s t ⟨entry, hentry, hstate⟩
  exact .inl ⟨entry, by rw [← h s]; exact hentry, hstate⟩

theorem Calm.bind {m : Action (Scheduler P) ε α} {f : α → Action (Scheduler P) ε β}
    (hm : Calm p m) (hf : ∀ a, Calm p (f a)) : Calm p (m >>= f) := by
  intro s t ht
  rw [Action.bind_apply] at ht
  rcases hrun : m s with ⟨e | a, s'⟩ <;> rw [hrun] at ht
  · exact hm s t (by rwa [hrun])
  · rcases hf a s' t ht with hs' | hp
    · exact hm s t (by rwa [hrun])
    · exact .inr hp

theorem calm_pure (a : α) : Calm p (pure a : Action (Scheduler P) ε α) := .of_tasks fun _ => rfl

theorem calm_gets (f : Scheduler P → α) : Calm p (Action.gets f : Action (Scheduler P) ε α) :=
  .of_tasks fun _ => rfl

theorem calm_query (f : Scheduler P → Outcome ε α) : Calm p (Action.query f) :=
  .of_tasks fun _ => rfl

theorem calm_fail (e : ε) : Calm p (Action.fail e : Action (Scheduler P) ε α) :=
  .of_tasks fun _ => rfl

theorem calm_panic (site : String) : Calm p (Action.panic site : Action (Scheduler P) ε α) :=
  .of_tasks fun _ => rfl

theorem calm_onLedger (m : Action (FuelLedger Account) (FuelError Account) α) :
    Calm p (onLedger m : Action (Scheduler P) _ α) := .of_tasks fun _ => rfl

theorem calm_onPolicy (m : Action P SchedError α) : Calm p (onPolicy m) := .of_tasks fun _ => rfl

theorem Calm.mapErr {f : ε → Outcome ε' α} {m : Action (Scheduler P) ε α} (h : Calm p m) :
    Calm p (m.mapErr f) := h

theorem Calm.expect {site : String} {m : Action (Scheduler P) ε α} (h : Calm p m) :
    Calm p (m.expect site : Action (Scheduler P) ε' α) := h

/-- A change of one row, after which it is no more blocked than before. -/
theorem calm_updateTask {site : String} {task : TaskId} {f : Task → Task}
    (h : ∀ entry, (f entry).state = .blocked → entry.state = .blocked ∨ p task) :
    Calm p (updateTask site task f : Action (Scheduler P) SchedError Unit) := by
  rintro s t ⟨entry, hentry, hstate⟩
  unfold updateTask at hentry
  cases hrow : s.tasks[task]? with
  | none =>
    simp only [hrow] at hentry
    exact .inl ⟨entry, hentry, hstate⟩
  | some old =>
    simp only [hrow, lookup_insert] at hentry
    by_cases heq : t = task
    · subst heq
      rw [if_pos rfl] at hentry
      obtain rfl := Option.some.inj hentry
      exact (h old hstate).imp_left fun hold => ⟨old, hrow, hold⟩
    · rw [if_neg heq] at hentry
      exact .inl ⟨entry, hentry, hstate⟩

/-- A row that is put in without being blocked. -/
theorem calm_insert {task : TaskId} {row : Scheduler P → Task} {g : Scheduler P → Scheduler P}
    (hg : ∀ s, (g s).tasks = s.tasks.insert task (row s))
    (hrow : ∀ s, (row s).state ≠ .blocked) :
    Calm p (Action.modify g : Action (Scheduler P) SchedError Unit) := by
  rintro s t ⟨entry, hentry, hstate⟩
  simp only [Action.modify_apply, hg, lookup_insert] at hentry
  by_cases heq : t = task
  · rw [if_pos heq] at hentry
    obtain rfl := Option.some.inj hentry
    exact absurd hstate (hrow s)
  · rw [if_neg heq] at hentry
    exact .inl ⟨entry, hentry, hstate⟩

theorem calm_erase (task : TaskId) : Calm p (Action.modify fun s : Scheduler P =>
    { s with tasks := s.tasks.erase task } : Action (Scheduler P) SchedError Unit) := by
  rintro s t ⟨entry, hentry, hstate⟩
  simp only [Action.modify_apply, lookup_erase] at hentry
  by_cases heq : t = task
  · simp [heq] at hentry
  · rw [if_neg heq] at hentry
    exact .inl ⟨entry, hentry, hstate⟩

theorem calm_reclaimAll (task : TaskId) :
    Calm p (reclaimAll task : Action (Scheduler P) SchedError Unit) := by
  refine .bind (calm_gets _) fun balance => ?_
  cases balance with
  | none => exact calm_panic _
  | some balance =>
    by_cases hpos : 0 < balance
    · simpa only [if_pos hpos] using (calm_onLedger _).expect
    · simpa only [if_neg hpos] using calm_pure ()

end Calm

section Calls

variable [Policy P] {p : TaskId → Prop}

theorem calm_spawnChecked (parent : Option TaskId) :
    Calm p (spawnChecked parent : Action (Scheduler P) SchedError TaskId) := by
  refine .bind (calm_gets _) fun id => .bind (calm_query _) fun nextId => ?_
  refine .bind (.of_tasks fun _ => rfl) fun _ => .bind (calm_onLedger _).expect fun _ => ?_
  refine .bind (calm_insert (fun _ => rfl) (by simp)) fun _ => ?_
  cases parent with
  | none => exact .bind (calm_onPolicy _) fun _ => calm_pure _
  | some parentId =>
    exact .bind (calm_updateTask fun entry h => .inl h) fun _ =>
      .bind (calm_onPolicy _) fun _ => calm_pure _

theorem calm_spawn (parent : Option TaskId) :
    Calm p (spawn parent : Action (Scheduler P) SchedError TaskId) := by
  cases parent with
  | none => exact calm_spawnChecked none
  | some parentId =>
    refine .bind (calm_query _) fun state => ?_
    cases state with
    | done => exact calm_fail _
    | runnable => exact calm_spawnChecked _
    | running => exact calm_spawnChecked _
    | blocked => exact calm_spawnChecked _

theorem calm_kill (task : TaskId) : Calm p (kill task : Action (Scheduler P) SchedError Unit) := by
  refine .bind (calm_query _) fun state => ?_
  cases state with
  | running => exact calm_fail _
  | done => exact calm_pure ()
  | runnable =>
    refine .bind (calm_onPolicy _) fun removed => ?_
    cases removed with
    | true => exact .bind (calm_reclaimAll task) fun _ => calm_updateTask (by simp)
    | false =>
      exact .bind (calm_panic _) fun _ => .bind (calm_reclaimAll task) fun _ =>
        calm_updateTask (by simp)
  | blocked => exact .bind (calm_reclaimAll task) fun _ => calm_updateTask (by simp)

omit [Policy P] in
theorem calm_reap (task : TaskId) : Calm p (reap task : Action (Scheduler P) SchedError Unit) := by
  refine .bind (calm_gets _) fun row => ?_
  cases row with
  | none => exact calm_fail _
  | some entry =>
    by_cases hdone : entry.state ≠ .done
    · simpa only [if_pos hdone] using calm_fail _
    · by_cases hkids : entry.children ≠ []
      · simpa only [if_neg hdone, if_pos hkids] using calm_fail _
      · simp only [if_neg hdone, if_neg hkids]
        refine .bind (calm_onLedger _).expect fun _ => .bind (calm_erase task) fun _ => ?_
        cases entry.parent with
        | none => exact calm_pure ()
        | some parentId => exact calm_updateTask fun entry h => .inl h

theorem calm_ready (task : TaskId) : Calm p (ready task : Action (Scheduler P) SchedError Bool) := by
  refine .bind (calm_gets _) fun row => ?_
  cases row with
  | none => exact calm_fail _
  | some entry =>
    by_cases hstate : entry.state = .blocked
    · simp only [if_pos hstate]
      exact .bind (calm_insert (fun _ => rfl) (by simp)) fun _ =>
        .bind (calm_onPolicy _) fun _ => calm_pure _
    · simpa only [if_neg hstate] using calm_pure false

theorem calm_pick : Calm p (pick : Action (Scheduler P) SchedError (Option TaskId)) := by
  refine .bind (calm_gets _) fun running => ?_
  by_cases hrun : running.isSome
  · simpa only [if_pos hrun] using calm_panic _
  · simp only [if_neg hrun]
    refine .bind (calm_onPolicy _) fun next => ?_
    cases next with
    | none => exact calm_pure _
    | some task =>
      refine .bind (calm_gets _) fun row => ?_
      cases row with
      | none => exact calm_panic _
      | some entry =>
        by_cases hstate : entry.state ≠ .runnable
        · simpa only [if_pos hstate] using calm_panic _
        · simp only [if_neg hstate]
          exact .bind (calm_insert (fun _ => rfl) (by simp)) fun _ => calm_pure _

/-- A report blocks no task but its own, and that one only if it says so. -/
theorem calm_report (task : TaskId) (spent : Nat) (outcome : ResumeOutcome) :
    Calm (fun t => t = task ∧ outcome = .blocked)
      (report task spent outcome : Action (Scheduler P) SchedError Unit) := by
  refine .bind (calm_gets _) fun running => ?_
  by_cases hrun : running ≠ some task
  · simpa only [if_pos hrun] using calm_fail _
  · simp only [if_neg hrun]
    refine .bind (calm_onLedger _).mapErr fun _ => ?_
    cases outcome with
    | outOfFuel =>
      exact .bind (calm_updateTask (by simp)) fun _ => .bind (calm_onPolicy _) fun _ =>
        .of_tasks fun _ => rfl
    | blocked =>
      exact .bind (calm_updateTask (by simp)) fun _ => .of_tasks fun _ => rfl
    | done =>
      exact .bind (calm_updateTask (by simp)) fun _ => .bind (calm_reclaimAll task) fun _ =>
        .of_tasks fun _ => rfl

/-- The calls that can block a task. -/
def Blocks (call : Call) (t : TaskId) : Prop := ∃ spent, call = .report t spent .blocked

/-- A call blocks a task only by a report that says so. -/
theorem calm_perform (call : Call) :
    Calm (Blocks call) (perform call : Action (Scheduler P) SchedError Reply) := by
  cases call with
  | spawn parent => exact .bind (calm_spawn parent) fun _ => calm_pure _
  | kill task => exact .bind (calm_kill task) fun _ => calm_pure _
  | reap task => exact .bind (calm_reap task) fun _ => calm_pure _
  | ready task => exact .bind (calm_ready task) fun _ => calm_pure _
  | pick => exact .bind calm_pick fun _ => calm_pure _
  | report task spent outcome =>
    intro s t ht
    rcases (Calm.bind (calm_report task spent outcome) fun _ => calm_pure Reply.done) s t ht
      with hs | ⟨rfl, rfl⟩
    · exact .inl hs
    · exact .inr ⟨spent, rfl⟩
  | refuel amount =>
    refine .bind (.bind (calm_gets _) fun total => ?_) fun _ => calm_pure _
    by_cases hmax : Fuel.max < total + amount
    · simpa only [if_pos hmax] using calm_fail _
    · simpa only [if_neg hmax] using (calm_onLedger _).expect
  | exportFuel amount => exact .bind (calm_onLedger _).mapErr fun _ => calm_pure _
  | donate task amount =>
    refine .bind (.bind (calm_query _) fun state => ?_) fun _ => calm_pure _
    cases state with
    | done => exact calm_fail _
    | runnable => exact (calm_onLedger _).mapErr
    | running => exact (calm_onLedger _).mapErr
    | blocked => exact (calm_onLedger _).mapErr
  | reclaim task amount =>
    refine .bind (.bind (calm_query _) fun state => ?_) fun _ => calm_pure _
    cases state with
    | done => exact calm_fail _
    | runnable => exact (calm_onLedger _).mapErr
    | running => exact calm_fail _
    | blocked => exact (calm_onLedger _).mapErr

/-- After `ready`, the task is not blocked. -/
theorem not_isBlocked_ready (task : TaskId) (s : Scheduler P) :
    ¬ (ready task s).2.IsBlocked task := by
  have hcases : (ready task s).2 = s ∧ ¬ s.IsBlocked task ∨
      ∃ row : Task, (ready task s).2.tasks = s.tasks.insert task row ∧ row.state = .runnable := by
    unfold IsBlocked
    cases hrow : s.tasks[task]? with
    | none => exact .inl ⟨by simp [ready, Action.bind_apply, hrow], by simp⟩
    | some old =>
      by_cases hold : old.state = .blocked
      · refine .inr ⟨{ old with state := .runnable }, ?_, rfl⟩
        simp only [ready, Action.bind_apply, Action.gets_apply, hrow, if_pos hold,
          Action.modify_apply, onPolicy_apply]
        split
        · next hpolicy =>
          obtain ⟨-, rfl⟩ := Prod.mk.inj hpolicy
          rfl
        · next hpolicy =>
          obtain ⟨-, rfl⟩ := Prod.mk.inj hpolicy
          rfl
      · exact .inl ⟨by simp [ready, Action.bind_apply, hrow, hold], by simpa using hold⟩
  rcases hcases with ⟨hsame, hnot⟩ | ⟨row, htasks, hrunnable⟩
  · rwa [hsame]
  · rintro ⟨entry, hentry, hstate⟩
    rw [htasks, lookup_insert, if_pos rfl] at hentry
    obtain rfl := Option.some.inj hentry
    rw [hrunnable] at hstate
    cases hstate

end Calls

end Scheduler

namespace Host

variable {P T : Type} [Policy P] {h h' : Host P T} {task : TaskId}

/-- A blocked task with something to take has a wake on the way. -/
def Awake (h : Host P T) : Prop := ∀ t, h.sched.IsBlocked t → h.Waiting t → h.WillWake t

theorem Fresh.awake (hfresh : h.Fresh) : h.Awake := by
  rintro t - hwait
  obtain ⟨-, hqueue, hbell, -⟩ := hfresh
  simp [Waiting, hqueue, hbell, CompletionQueue.new, Doorbell.new] at hwait

/-- One step keeps it, if its report of blocking is attentive. -/
theorem Step.awake {e : Event T} (hstep : Step h e h') (hatt : h.Attentive e) (hawake : h.Awake) :
    h'.Awake := by
  intro t hblocked hwait
  cases hstep with
  | push task record =>
    by_cases heq : t = task
    · subst heq
      by_cases hedge : (h.queue t).records = []
      · -- The edge: this producer will ring, unless the bell is rung already.
        by_cases hrung : (h.bell t).rung = false
        · exact .inr ⟨hrung, by simp [CompletionQueue.push, hedge]⟩
        · have hbefore := hawake t hblocked (.inr (by simpa using hrung))
          rcases hbefore with hready | ⟨hnot, -⟩
          · exact .inl (by simp [CompletionQueue.push, hedge, hready])
          · exact absurd hnot hrung
      · have hbefore := hawake t hblocked (.inl hedge)
        simpa [WillWake, CompletionQueue.push, hedge] using hbefore
    · have hbefore : h.WillWake t := hawake t hblocked (by
        simpa [Waiting, Function.update_of_ne heq] using hwait)
      rcases hbefore with hready | ⟨hnot, hring⟩
      · refine .inl ?_
        split
        · exact List.mem_cons_of_mem _ hready
        · exact hready
      · refine .inr ⟨hnot, ?_⟩
        split
        · exact List.mem_cons_of_mem _ hring
        · exact hring
  | @ring task before after hmem =>
    by_cases heq : t = task
    · subst heq
      by_cases hrung : (h.bell t).rung = false
      · exact .inl (by simp [Doorbell.ring, hrung])
      · -- Rung before: the producer that rang it is still to mark the task ready.
        rcases hawake t hblocked (.inr (by simpa using hrung)) with hready | ⟨hnot, -⟩
        · rw [hmem] at hready
          exact .inl (by simpa [Doorbell.ring, hrung] using hready)
        · exact absurd hnot hrung
    · have hbefore : h.WillWake t := hawake t hblocked (by
        simpa [Waiting, Function.update_of_ne heq] using hwait)
      unfold WillWake at hbefore ⊢
      rw [hmem] at hbefore
      simp only [Function.update_of_ne heq]
      split <;> simp_all
  | @ready task before after result sched hmem hcall =>
    have hsched : (Scheduler.perform (.ready task) h.sched).2 = sched := by rw [hcall.result]
    by_cases heq : t = task
    · subst heq
      have hstate : (Scheduler.ready t h.sched).2 = sched := by
        rw [← hsched]
        simp only [Scheduler.perform, Action.bind_apply]
        split <;> simp_all
      exact absurd (hstate ▸ hblocked) (Scheduler.not_isBlocked_ready t h.sched)
    · have hold : h.sched.IsBlocked t := by
        rcases Scheduler.calm_perform (.ready task) h.sched t (hsched ▸ hblocked) with
          hold | ⟨spent, hcall⟩
        · exact hold
        · cases hcall
      have hbefore := hawake t hold hwait
      unfold WillWake at hbefore ⊢
      rw [hmem] at hbefore
      simp_all
  | @take task hrun =>
    have hne : t ≠ task := by
      rintro rfl
      rw [Scheduler.isBlocked_iff.mp hblocked] at hrun
      cases hrun
    simp only [Waiting, WillWake, Function.update_of_ne hne] at hwait ⊢
    exact hawake t hblocked hwait
  | @drain task hrun =>
    have hne : t ≠ task := by
      rintro rfl
      rw [Scheduler.isBlocked_iff.mp hblocked] at hrun
      cases hrun
    simp only [Waiting, Function.update_of_ne hne] at hwait
    exact hawake t hblocked hwait
  | @call c result sched hcall =>
    have hsched : (Scheduler.perform c h.sched).2 = sched := by rw [hcall.result]
    rcases Scheduler.calm_perform c h.sched t (hsched ▸ hblocked) with hold | ⟨spent, rfl⟩
    · exact hawake t hold hwait
    · exact hatt hwait

/-- A step whose report of blocking, if it is one, is attentive. -/
def AttentiveStep (h : Host P T) (e : Event T) (h' : Host P T) : Prop :=
  h.Attentive e ∧ Step h e h'

/-- A step that does not report blocking is attentive. -/
theorem AttentiveStep.of_step {e : Event T} (hstep : Step h e h')
    (he : ∀ t n r, e ≠ .call (.report t n .blocked) r) : AttentiveStep h e h' := by
  refine ⟨?_, hstep⟩
  unfold Attentive
  split
  · exact absurd rfl (he _ _ _)
  · trivial

/-- No wakeup is lost: in every order of the steps of producers, tasks and the
scheduler, a blocked task whose queue holds a record or whose doorbell is rung
has a producer that is still to mark it ready. -/
theorem no_lost_wakeup (h : Host P T) (hreach : Reachable Fresh AttentiveStep h) (t : TaskId)
    (hblocked : h.sched.state t = .ok .blocked)
    (hwait : (h.queue t).records ≠ [] ∨ (h.bell t).rung = true) : h.WillWake t := by
  have hawake : h.Awake := hreach.invariant (fun _ => Fresh.awake)
    fun _ _ _ hawake hstep => hstep.2.awake hstep.1 hawake
  exact hawake t (Scheduler.isBlocked_iff.mpr hblocked) hwait

section OneTask

/-- A fresh host: no task, no record, no ring. -/
def freshHost : Host DeterministicPolicy Unit where
  sched :=
    { tasks := ∅
      nextId := 0
      policy := Policy.empty
      ledger := (FuelLedger.openAccount Account.pool FuelLedger.new).2
      running := none }
  queue _ := .new
  bell _ := .new
  producers := []

theorem fresh_freshHost : freshHost.Fresh := ⟨rfl, rfl, rfl, rfl⟩

/-- A call of the scheduler that is allowed and comes back. -/
theorem Step.of_call (h : Host P T) (c : Call) (hallowed : h.sched.Allowed c)
    (hclean : (Scheduler.perform c h.sched).1.Clean) :
    Step h (.call c (Scheduler.perform c h.sched).1)
      { h with sched := (Scheduler.perform c h.sched).2 } :=
  .call ⟨hallowed, rfl, hclean⟩

theorem Step.of_ring {h : Host P T} {task : TaskId} {after : List Producer}
    (hmem : h.producers = .ring task :: after) :
    Step h (.ring task)
      { h with
        bell := Function.update h.bell task (h.bell task).ring.2
        producers := if (h.bell task).ring.1 then .ready task :: after else after } :=
  @Step.ring P T _ h task [] after hmem

/-- The wake of the first producer. -/
theorem Step.of_ready {h : Host P T} {task : TaskId} {after : List Producer}
    (hmem : h.producers = .ready task :: after)
    (hclean : (Scheduler.perform (.ready task) h.sched).1.Clean) :
    Step h (.ready task (Scheduler.perform (.ready task) h.sched).1)
      { h with sched := (Scheduler.perform (.ready task) h.sched).2, producers := after } :=
  @Step.ready P T _ h task [] after _ _ hmem ⟨by simp [Scheduler.Allowed], rfl, hclean⟩

/-- One task, spawned and picked. -/
def pickedHost : Host DeterministicPolicy Unit :=
  let spawned := (Scheduler.perform (.spawn none) freshHost.sched).2
  { freshHost with sched := (Scheduler.perform .pick spawned).2 }

theorem reachable_pickedHost : ∀ step : Host DeterministicPolicy Unit → Event Unit →
    Host DeterministicPolicy Unit → Prop,
    (∀ h c r h', (∀ t n, c ≠ .report t n .blocked) → Step h (.call c r) h' →
      step h (.call c r) h') → Reachable Fresh step pickedHost := by
  intro step hstep
  have hfresh : Reachable Fresh step freshHost := ⟨freshHost, [], fresh_freshHost, .nil _⟩
  refine (hfresh.step (hstep _ _ _ _ ?_ (.of_call freshHost (.spawn none) ?_ ?_))).step
    (hstep _ _ _ _ ?_ (.of_call _ .pick ?_ ?_))
  · simp
  · simp [Scheduler.Allowed]
  · exact trivial
  · simp
  · intro _
    rfl
  · exact trivial

/-- The state of a task that blocked, and to which a completion then came: its
producer has rung and is still to mark it ready. -/
theorem no_lost_wakeup_arriving : ∃ h : Host DeterministicPolicy Unit,
    h.sched.state ⟨0⟩ = .ok .blocked ∧ (h.queue ⟨0⟩).records ≠ [] ∧ h.WillWake ⟨0⟩ := by
  have hpicked : Reachable Fresh AttentiveStep pickedHost := by
    refine reachable_pickedHost AttentiveStep fun h c r h' hc hstep => .of_step hstep ?_
    rintro t n r' heq
    exact hc t n (Event.call.inj heq).1
  have hquiet : pickedHost.Attentive (.call (.report ⟨0⟩ 0 .blocked)
      (Scheduler.perform (.report ⟨0⟩ 0 .blocked) pickedHost.sched).1) := by
    rintro (hwait | hwait)
    · exact absurd rfl hwait
    · cases hwait
  have hblocked := hpicked.step ⟨hquiet, .of_call pickedHost (.report ⟨0⟩ 0 .blocked)
    (by simp [Scheduler.Allowed]) trivial⟩
  have hpushed := hblocked.step (.of_step (.push _ ⟨0⟩ ()) (by simp))
  have hrung := hpushed.step (.of_step (.of_ring rfl) (by simp))
  exact ⟨_, rfl, by simp [CompletionQueue.push],
    no_lost_wakeup _ hrung ⟨0⟩ rfl (.inl (by simp [CompletionQueue.push]))⟩

/-- A completion that arrives while its task runs is lost when the task then
reports itself blocked: the task stays blocked with a record in its queue and
its doorbell rung, and no producer is left to mark it ready. -/
theorem wakeup_lost_while_running : ∃ h : Host DeterministicPolicy Unit,
    Reachable Fresh Step h ∧ h.sched.state ⟨0⟩ = .ok .blocked ∧ (h.queue ⟨0⟩).records ≠ [] ∧
      (h.bell ⟨0⟩).rung = true ∧ h.producers = [] := by
  have hpicked : Reachable Fresh Step pickedHost :=
    reachable_pickedHost Step fun _ _ _ _ _ hstep => hstep
  have hpushed := hpicked.step (.push _ ⟨0⟩ ())
  have hrung := hpushed.step (.of_ring rfl)
  have hready := hrung.step (.of_ready rfl trivial)
  have hblocked := hready.step (.of_call _ (.report ⟨0⟩ 0 .blocked)
    (by simp [Scheduler.Allowed]) trivial)
  exact ⟨_, hblocked, rfl, by simp [CompletionQueue.push], rfl, rfl⟩

end OneTask

end Host

end Eo9.Sched
