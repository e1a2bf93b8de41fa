import Eo9.Sched.Books
import Eo9.Sched.Policy

/-!
# The scheduler proper

The task table, the run queue and the fuel books of `sched.rs`, one definition
for each method. Every `expect`, `unreachable!` and debug assertion of the
source is a panic of the model under its own message.
-/

namespace Eo9.Sched

open Eo9.Library Std

inductive TaskState where
  | runnable
  | running
  | blocked
  | done
  deriving DecidableEq

/-- How a resume ended. -/
inductive ResumeOutcome where
  | outOfFuel
  | blocked
  | done

inductive SchedError where
  | noSuchTask (task : TaskId)
  | taskDone (task : TaskId)
  | running (task : TaskId)
  | notRunning (task : TaskId)
  | notDone (task : TaskId)
  | hasChildren (task : TaskId)
  | insufficientFuel (requested available : Nat)
  | fuelOverflow

/-- The node's accounts: its own pool and one for each tracked task. -/
inductive Account where
  | pool
  | task (id : TaskId)
  deriving DecidableEq

/-- The position of an account in the derived order: the pool comes first. -/
def Account.key : Account → Nat
  | .pool => 0
  | .task id => id.raw + 1

theorem Account.key_injective : Function.Injective Account.key := by
  intro a b h
  cases a <;> cases b <;> simp only [key] at h
  · rfl
  · omega
  · omega
  · exact congrArg Account.task (TaskId.raw_injective (Nat.succ.inj h))

instance : Ord Account := ⟨compareOn Account.key⟩

instance : TransOrd Account := inferInstanceAs (TransCmp (compareOn Account.key))

instance : LawfulEqOrd Account where
  eq_of_compare {a b} h := by
    have hkey : compare a.key b.key = .eq := h
    exact Account.key_injective (Std.compare_eq_iff_eq.mp hkey)

/-- One row of the task table. -/
structure Task where
  state : TaskState
  parent : Option TaskId
  children : List TaskId

/-- A snapshot of the fuel books. -/
structure FuelAudit where
  imported : Nat
  burned : Nat
  exported : Nat
  pool : Nat
  heldByTasks : Nat

def FuelAudit.isConserved (audit : FuelAudit) : Bool :=
  audit.imported == audit.burned + audit.exported + audit.pool + audit.heldByTasks

/-- The scheduler: a task table, a run queue, conserved fuel accounts, and the
task being resumed. -/
structure Scheduler (P : Type) where
  tasks : TreeMap TaskId Task
  nextId : Nat
  policy : P
  ledger : FuelLedger Account
  running : Option TaskId

namespace Scheduler

variable {P : Type}

/-- Run a ledger operation on the scheduler's books. -/
def onLedger {α : Type} (m : Action (FuelLedger Account) (FuelError Account) α) :
    Action (Scheduler P) (FuelError Account) α :=
  Action.zoom ledger (fun ledger s => { s with ledger }) m

/-- Update the row of a task that must be in the table. -/
def updateTask (site : String) (task : TaskId) (f : Task → Task) :
    Action (Scheduler P) SchedError Unit := fun s =>
  match s.tasks[task]? with
  | some entry => (.ok (), { s with tasks := s.tasks.insert task (f entry) })
  | none => (Outcome.panic site, s)

theorem onLedger_apply {α : Type}
    (m : Action (FuelLedger Account) (FuelError Account) α) (s : Scheduler P) :
    onLedger m s = ((m s.ledger).1, { s with ledger := (m s.ledger).2 }) := rfl

theorem updateTask_of_mem {s : Scheduler P} {t : TaskId} {entry : Task} (site : String)
    (f : Task → Task) (ht : s.tasks[t]? = some entry) :
    updateTask site t f s = (.ok (), { s with tasks := s.tasks.insert t (f entry) }) := by
  simp only [updateTask, ht]

def state (s : Scheduler P) (task : TaskId) : Outcome SchedError TaskState :=
  match s.tasks[task]? with
  | some entry => .ok entry.state
  | none => Outcome.fail (.noSuchTask task)

theorem state_of_mem {s : Scheduler P} {t : TaskId} {entry : Task}
    (ht : s.tasks[t]? = some entry) : s.state t = .ok entry.state := by
  simp only [state, ht]

theorem state_of_not_mem {s : Scheduler P} {t : TaskId} (ht : s.tasks[t]? = none) :
    s.state t = .error (.err (.noSuchTask t)) := by
  simp only [state, ht, Outcome.fail]

def parent (s : Scheduler P) (task : TaskId) : Outcome SchedError (Option TaskId) :=
  match s.tasks[task]? with
  | some entry => .ok entry.parent
  | none => Outcome.fail (.noSuchTask task)

/-- The unreaped children of a task, in spawn order. -/
def children (s : Scheduler P) (task : TaskId) : Outcome SchedError (List TaskId) :=
  match s.tasks[task]? with
  | some entry => .ok entry.children
  | none => Outcome.fail (.noSuchTask task)

/-- The fuel in the node's own pool. -/
def pool (s : Scheduler P) : Outcome SchedError Nat :=
  match s.ledger.balance .pool with
  | some balance => .ok balance
  | none => Outcome.panic "the pool account always exists"

/-- The unspent fuel held by a task. -/
def fuelOf (s : Scheduler P) (task : TaskId) : Outcome SchedError Nat := do
  let _ ← s.state task
  match s.ledger.balance (.task task) with
  | some balance => .ok balance
  | none => Outcome.panic "every tracked task has a fuel account"

/-- A snapshot of the fuel books. -/
def fuelAudit (s : Scheduler P) : Outcome SchedError FuelAudit := do
  let pool ← s.pool
  let heldByTasks ← checkedSub s.ledger.circulating pool
  .ok {
    imported := s.ledger.imported
    burned := s.ledger.burned
    exported := s.ledger.exported
    pool
    heldByTasks }

/-- The ledger's errors in the scheduler's vocabulary. -/
def fuelErr {α : Type} : FuelError Account → Outcome SchedError α
  | .insufficient _ requested available =>
    Outcome.fail (.insufficientFuel requested available)
  | .balanceOverflow _ => Outcome.fail .fuelOverflow
  | .noSuchAccount _ | .accountExists _ | .nonEmptyClose _ _ =>
    Outcome.panic "the scheduler keeps exactly one open account per tracked task"

/-- Return all of a task's unspent fuel to the pool. -/
def reclaimAll (task : TaskId) : Action (Scheduler P) SchedError Unit := do
  match ← Action.gets (·.ledger.balance (.task task)) with
  | none => Action.panic "every tracked task has a fuel account"
  | some balance =>
    if 0 < balance then
      (onLedger (FuelLedger.transfer (.task task) .pool balance)).expect
        "outstanding fuel is bounded by Fuel::MAX, so the pool cannot overflow"
    else pure ()

section Policies

variable [Policy P]

/-- Run a policy operation on the scheduler's run queue. -/
def onPolicy {α : Type} (m : Action P SchedError α) : Action (Scheduler P) SchedError α :=
  Action.zoom policy (fun policy s => { s with policy }) m

omit [Policy P] in
theorem onPolicy_apply {α : Type} (m : Action P SchedError α) (s : Scheduler P) :
    onPolicy m s = ((m s.policy).1, { s with policy := (m s.policy).2 }) := rfl

/-- A scheduler with no tasks and no fuel. -/
def new (policy : P) : Outcome SchedError (Scheduler P) :=
  match FuelLedger.openAccount Account.pool FuelLedger.new with
  | (.ok (), ledger) =>
    .ok { tasks := ∅, nextId := 0, policy, ledger, running := none }
  | (.error _, _) =>
    Outcome.panic "a fresh ledger cannot already hold the pool account"

/-- The part of `spawn` that follows the check of the parent. -/
def spawnChecked (parent : Option TaskId) : Action (Scheduler P) SchedError TaskId := do
  let id : TaskId := ⟨← Action.gets (·.nextId)⟩
  let nextId ← Action.query fun s => checkedAdd 64 s.nextId 1
  Action.modify fun s => { s with nextId }
  (onLedger (FuelLedger.openAccount (.task id))).expect
    "task ids are never reused, so the account cannot already exist"
  Action.modify fun s =>
    { s with tasks := s.tasks.insert id { state := .runnable, parent, children := [] } }
  match parent with
  | some parentId =>
    updateTask "the parent's existence was checked above" parentId
      fun entry => { entry with children := entry.children ++ [id] }
  | none => pure ()
  onPolicy (Policy.enqueue id)
  pure id

/-- Create a runnable task with no fuel, as a child of `parent` if given. -/
def spawn (parent : Option TaskId) : Action (Scheduler P) SchedError TaskId := do
  match parent with
  | some parentId =>
    match ← Action.query (·.state parentId) with
    | .done => Action.fail (.taskDone parentId)
    | .runnable | .running | .blocked => spawnChecked parent
  | none => spawnChecked parent

/-- Mark a task done without it having run to completion. -/
def kill (task : TaskId) : Action (Scheduler P) SchedError Unit := do
  match ← Action.query (·.state task) with
  | .running => Action.fail (.running task)
  | .done => pure ()
  | .runnable =>
    let removed ← onPolicy (Action.update (Policy.remove task))
    if removed then pure () else Action.panic "a runnable task is always queued"
    reclaimAll task
    updateTask "existence was checked by state()" task
      fun entry => { entry with state := .done }
  | .blocked =>
    reclaimAll task
    updateTask "existence was checked by state()" task
      fun entry => { entry with state := .done }

/-- Remove a finished task, all of whose children were removed before. -/
def reap (task : TaskId) : Action (Scheduler P) SchedError Unit := do
  match ← Action.gets (·.tasks[task]?) with
  | none => Action.fail (.noSuchTask task)
  | some entry =>
    if entry.state ≠ .done then Action.fail (.notDone task)
    else if entry.children ≠ [] then Action.fail (.hasChildren task)
    else
      (onLedger (FuelLedger.closeAccount (.task task))).expect
        "a done task's fuel was returned to the pool when it finished"
      Action.modify fun s => { s with tasks := s.tasks.erase task }
      match entry.parent with
      | some parentId =>
        updateTask "a parent cannot be reaped before its children" parentId
          fun p => { p with children := p.children.filter (· ≠ task) }
      | none => pure ()

/-- Record that an external completion may have made a task runnable. -/
def ready (task : TaskId) : Action (Scheduler P) SchedError Bool := do
  match ← Action.gets (·.tasks[task]?) with
  | none => Action.fail (.noSuchTask task)
  | some entry =>
    if entry.state = .blocked then
      Action.modify fun s =>
        { s with tasks := s.tasks.insert task { entry with state := .runnable } }
      onPolicy (Policy.enqueue task)
      pure true
    else pure false

/-- Pick the next task to resume and mark it running. -/
def pick : Action (Scheduler P) SchedError (Option TaskId) := do
  if (← Action.gets (·.running)).isSome then
    Action.panic
      "single-resumer invariant violated: pick() while a task is still being resumed"
  else
    match ← onPolicy (Action.update Policy.dequeue) with
    | none => pure none
    | some task =>
      match ← Action.gets (·.tasks[task]?) with
      | none => Action.panic "queued tasks are always in the table"
      | some entry =>
        if entry.state ≠ .runnable then Action.panic "queued tasks are always runnable"
        else
          Action.modify fun s =>
            { s with
              tasks := s.tasks.insert task { entry with state := .running }
              running := some task }
          pure (some task)

/-- Report how resuming the picked task ended and what it spent. -/
def report (task : TaskId) (spent : Nat) (outcome : ResumeOutcome) :
    Action (Scheduler P) SchedError Unit := do
  if (← Action.gets (·.running)) ≠ some task then Action.fail (.notRunning task)
  else
    (onLedger (FuelLedger.burn (.task task) spent)).mapErr fuelErr
    match outcome with
    | .outOfFuel =>
      updateTask "the running task is always in the table" task
        fun entry => { entry with state := .runnable }
      onPolicy (Policy.enqueue task)
    | .blocked =>
      updateTask "the running task is always in the table" task
        fun entry => { entry with state := .blocked }
    | .done =>
      updateTask "the running task is always in the table" task
        fun entry => { entry with state := .done }
      reclaimAll task
    Action.modify fun s => { s with running := none }

/-- Credit the node's pool from outside. -/
def refuel (amount : Nat) : Action (Scheduler P) SchedError Unit := do
  if Fuel.max < (← Action.gets (·.ledger.circulating)) + amount then
    Action.fail .fuelOverflow
  else
    (onLedger (FuelLedger.importFuel .pool amount)).expect
      "outstanding fuel is bounded by Fuel::MAX, so the pool cannot overflow"

/-- Hand fuel from the pool back out of this scheduler. -/
def exportFuel (amount : Nat) : Action (Scheduler P) SchedError Unit :=
  (onLedger (FuelLedger.exportFuel .pool amount)).mapErr fuelErr

/-- Donate fuel from the pool to a task that has not finished. -/
def donate (task : TaskId) (amount : Nat) : Action (Scheduler P) SchedError Unit := do
  match ← Action.query (·.state task) with
  | .done => Action.fail (.taskDone task)
  | .runnable | .running | .blocked =>
    (onLedger (FuelLedger.transfer .pool (.task task) amount)).mapErr fuelErr

/-- Take unspent fuel back from a task that is neither running nor done. -/
def reclaim (task : TaskId) (amount : Nat) : Action (Scheduler P) SchedError Unit := do
  match ← Action.query (·.state task) with
  | .running => Action.fail (.running task)
  | .done => Action.fail (.taskDone task)
  | .runnable | .blocked =>
    (onLedger (FuelLedger.transfer (.task task) .pool amount)).mapErr fuelErr

end Policies

end Scheduler

end Eo9.Sched
