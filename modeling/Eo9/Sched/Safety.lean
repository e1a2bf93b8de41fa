import Eo9.Library.Runs
import Eo9.Sched.Family

/-!
# Runs of the scheduler

A run is a sequence of calls, each of which returned a value or a typed error.
Consistency holds along every run from a fresh scheduler, ids are issued in
increasing order, fuel is conserved, and a refused call changes nothing.
-/

namespace Eo9.Sched

open Eo9.Library Std LawfulPolicy

inductive Call where
  | spawn (parent : Option TaskId)
  | kill (task : TaskId)
  | reap (task : TaskId)
  | ready (task : TaskId)
  | pick
  | report (task : TaskId) (spent : Nat) (outcome : ResumeOutcome)
  | refuel (amount : Nat)
  | exportFuel (amount : Nat)
  | donate (task : TaskId) (amount : Nat)
  | reclaim (task : TaskId) (amount : Nat)

/-- What a call returns. -/
inductive Reply where
  | done
  | issued (task : TaskId)
  | woke (woken : Bool)
  | picked (task : Option TaskId)

def Reply.issuedId : Reply → Option Nat
  | .issued task => some task.raw
  | .done | .woke _ | .picked _ => none

namespace Scheduler

variable {P : Type} [Policy P]

def perform : Call → Action (Scheduler P) SchedError Reply
  | .spawn parent => do return .issued (← spawn parent)
  | .kill task => do kill task; return .done
  | .reap task => do reap task; return .done
  | .ready task => do return .woke (← ready task)
  | .pick => do return .picked (← pick)
  | .report task spent outcome => do report task spent outcome; return .done
  | .refuel amount => do refuel amount; return .done
  | .exportFuel amount => do exportFuel amount; return .done
  | .donate task amount => do donate task amount; return .done
  | .reclaim task amount => do reclaim task amount; return .done

/-- The embedder picks only while no task is being resumed. -/
def Allowed (s : Scheduler P) (call : Call) : Prop := call = .pick → s.running = none

/-- An allowed call that returned a value or a typed error. -/
structure Step (s : Scheduler P) (event : Call × Outcome SchedError Reply)
    (s' : Scheduler P) : Prop where
  allowed : s.Allowed event.1
  result : perform event.1 s = (event.2, s')
  clean : event.2.Clean

/-- The ids issued along a run, in order. -/
def issuedIds (events : List (Call × Outcome SchedError Reply)) : List Nat :=
  events.filterMap fun event =>
    match event.2 with
    | .ok reply => reply.issuedId
    | .error _ => none

/-- The fuel held by all tasks of the table. -/
def heldByTasks (s : Scheduler P) : Nat :=
  (s.tasks.keys.map fun task => (s.ledger.balances[Account.task task]?).getD 0).sum

def poolFuel (s : Scheduler P) : Nat := (s.ledger.balances[Account.pool]?).getD 0

variable [LawfulPolicy P] {s : Scheduler P}

theorem new_spec : ∃ s : Scheduler P, new Policy.empty = .ok s ∧ s.Consistent ∧ s.nextId = 0 := by
  have hclosed : (FuelLedger.new : FuelLedger Account).balances[Account.pool]? = none := by
    simp [FuelLedger.new]
  have hopen := FuelLedger.openAccount_of_closed FuelLedger.new_conserved hclosed
  have htotal := total_insert_new 0 hclosed
  have hzero : (FuelLedger.new : FuelLedger Account).circulating = 0 := by
    have := FuelLedger.new_conserved (A := Account)
    simp only [FuelLedger.Conserved, FuelLedger.new] at this ⊢
    omega
  refine ⟨_, by simp only [new, hopen]; rfl, ?_, rfl⟩
  constructor
  · simp [queued_empty]
  · simp [queued_empty]
  · simp
  · intro t
    rw [lookup_insert]
    simp [FuelLedger.new]
  · rw [lookup_insert]
    simp
  · simp
  · simp
  · simp
  · simp
  · have := FuelLedger.new_conserved (A := Account)
    simp only [FuelLedger.Conserved, FuelLedger.circulating] at this hzero ⊢
    omega
  · simp only [FuelLedger.circulating] at hzero ⊢
    omega

/-- What a call that did not return leaves behind. -/
def Stopped (s : Scheduler P) (call : Call) : Stop SchedError → Scheduler P → Prop
  | .err e, s' => s' = s ∧ (e = .fuelOverflow → ∃ amount, call = .refuel amount ∧
      Fuel.max < s.ledger.circulating + amount)
  | .panic site, _ => site = overflowSite
  | .diverge, _ => False

omit [Policy P] [LawfulPolicy P] in
theorem Refused.stopped {call : Call} {e : Stop SchedError} {s' : Scheduler P}
    (h : s.Refused e s') : s.Stopped call e s' := by
  cases e with
  | err e => exact ⟨h.1, fun he => absurd he h.2⟩
  | panic site => exact h
  | diverge => exact h

/-- What a call that returned leaves behind: a consistent state, and a new id
exactly when one was issued. -/
def Returned (s : Scheduler P) (reply : Reply) (s' : Scheduler P) : Prop :=
  s'.Consistent ∧ s.nextId ≤ s'.nextId ∧
    ∀ id ∈ reply.issuedId, s.nextId ≤ id ∧ id < s'.nextId

theorem Kept.returned {s' : Scheduler P} (h : s.Kept s') {reply : Reply}
    (hreply : reply.issuedId = none) : s.Returned reply s' := by
  obtain ⟨hkept, hid⟩ := h
  refine ⟨hkept, hid.ge, ?_⟩
  simp [hreply]

/-- The method of a call that issues no id, followed by its reply. -/
theorem wp_reply {α : Type} {m : Action (Scheduler P) SchedError α} {call : Call}
    {reply : α → Reply} (hm : m.wp s (fun _ s' => s.Kept s') s.Refused)
    (hreply : ∀ a, (reply a).issuedId = none) :
    (m >>= fun a => pure (reply a)).wp s s.Returned (s.Stopped call) :=
  Action.wp_bind hm (fun a _ hkept => Action.wp_pure (hkept.returned (hreply a)))
    fun _ _ => Refused.stopped

theorem perform_spec (h : s.Consistent) (call : Call) (hallowed : s.Allowed call) :
    (perform call).wp s s.Returned (s.Stopped call) := by
  cases call with
  | spawn parent =>
    refine Action.wp_bind (spawn_spec h parent) (fun id s' hid => Action.wp_pure ?_)
      fun _ _ => Refused.stopped
    obtain ⟨hkept, hraw, hnext⟩ := hid
    refine ⟨hkept, by omega, fun x hx => ?_⟩
    cases hx
    omega
  | kill task => exact wp_reply (kill_spec h task) fun _ => rfl
  | reap task => exact wp_reply (reap_spec h task) fun _ => rfl
  | ready task => exact wp_reply (ready_spec h task) fun _ => rfl
  | pick => exact wp_reply (pick_spec h (hallowed rfl)) fun _ => rfl
  | report task spent outcome =>
    exact wp_reply (report_spec h task spent outcome) fun _ => rfl
  | refuel amount =>
    refine Action.wp_bind (refuel_spec h amount)
      (fun _ _ hkept => Action.wp_pure (Kept.returned hkept rfl)) fun e s' hstop => ?_
    cases e with
    | err e => exact ⟨hstop.1, fun _ => ⟨amount, rfl, hstop.2.2⟩⟩
    | panic site => exact hstop
    | diverge => exact hstop
  | exportFuel amount => exact wp_reply (exportFuel_spec h amount) fun _ => rfl
  | donate task amount => exact wp_reply (donate_spec h task amount) fun _ => rfl
  | reclaim task amount => exact wp_reply (reclaim_spec h task amount) fun _ => rfl

/-- A step keeps the invariant and never lowers the next id, and the id it
issued lies between the two. -/
theorem Step.spec {event : Call × Outcome SchedError Reply} {s' : Scheduler P}
    (h : s.Consistent) (hstep : Step s event s') :
    s'.Consistent ∧ s.nextId ≤ s'.nextId ∧
      ∀ id ∈ issuedIds [event], s.nextId ≤ id ∧ id < s'.nextId := by
  obtain ⟨call, outcome⟩ := event
  have hspec := perform_spec h call hstep.allowed
  have hres := hstep.result
  have hclean := hstep.clean
  dsimp only at hres hclean
  cases outcome with
  | ok reply =>
    obtain ⟨hkept, hle, hid⟩ := hspec.returned hres
    refine ⟨hkept, hle, fun id hmem => hid id ?_⟩
    cases hissued : reply.issuedId with
    | none => simp [issuedIds, hissued] at hmem
    | some x => simpa [issuedIds, hissued, eq_comm] using hmem
  | error e =>
    have hstopped := hspec.stopped hres
    cases e with
    | err e =>
      obtain ⟨rfl, -⟩ := hstopped
      exact ⟨h, le_rfl, by simp [issuedIds]⟩
    | panic site => exact absurd hclean (Outcome.not_clean_panic site)
    | diverge => exact absurd hclean Outcome.not_clean_diverge

/-- Along a run the invariant is kept, and the ids issued lie in increasing
order between the first and the last value of the id counter. -/
theorem run_spec {events : List (Call × Outcome SchedError Reply)} {s' : Scheduler P}
    (run : Run Step s events s') (h : s.Consistent) :
    s'.Consistent ∧ s.nextId ≤ s'.nextId ∧ (issuedIds events).Pairwise (· < ·) ∧
      ∀ id ∈ issuedIds events, s.nextId ≤ id ∧ id < s'.nextId := by
  induction run with
  | nil s => exact ⟨h, le_rfl, by simp [issuedIds], by simp [issuedIds]⟩
  | @cons s mid s' event events head _ ih =>
    obtain ⟨hmid, hle, hids⟩ := head.spec h
    obtain ⟨hlast, hle', hpairwise, hrest⟩ := ih hmid
    have hsplit : issuedIds (event :: events) = issuedIds [event] ++ issuedIds events := by
      simp only [issuedIds, ← List.filterMap_append, List.singleton_append]
    have hone : (issuedIds [event]).Pairwise (· < ·) := by
      simp only [issuedIds, List.filterMap_cons, List.filterMap_nil]
      split <;> simp
    refine ⟨hlast, hle.trans hle', ?_, ?_⟩
    · rw [hsplit, List.pairwise_append]
      refine ⟨hone, hpairwise, fun a ha b hb => ?_⟩
      have := hids a ha
      have := hrest b hb
      omega
    · intro id hid
      rw [hsplit, List.mem_append] at hid
      rcases hid with hid | hid
      · have := hids id hid
        omega
      · have := hrest id hid
        omega

/-- The queries of a consistent state meet none of their expectations. -/
theorem Consistent.queries (h : s.Consistent) (task : TaskId) :
    s.pool.Clean ∧ (s.fuelOf task).Clean ∧ s.fuelAudit.Clean := by
  obtain ⟨b, hb⟩ := Option.isSome_iff_exists.mp h.pool_open
  have hpool : s.pool = .ok b := by
    simp only [pool, FuelLedger.balance, hb]
  have hle : b ≤ s.ledger.circulating := le_total hb
  refine ⟨by simp [hpool], ?_, ?_⟩
  · cases ht : s.tasks[task]? with
    | none => simp [fuelOf, state_of_not_mem ht]
    | some entry =>
      obtain ⟨a, -, ha, -, -⟩ := h.accounts ht
      simp [fuelOf, state_of_mem ht, FuelLedger.balance, ha]
  · simp [fuelAudit, hpool, checkedSub_ok hle]

/-- Whatever a policy's scheduler is asked to do, it stays consistent, issues
ids in increasing order, and stops at no expectation of its own. -/
def SafeUnder (P : Type) [Policy P] [LawfulPolicy P] : Prop :=
  ∃ s₀ : Scheduler P, new Policy.empty = .ok s₀ ∧
    ∀ (events : List (Call × Outcome SchedError Reply)) (s : Scheduler P),
      Run Step s₀ events s →
        s.Consistent ∧
        (issuedIds events).Pairwise (· < ·) ∧ (∀ id ∈ issuedIds events, id < s.nextId) ∧
        (∀ call, s.Allowed call → (perform call s).1.PanicsOnly [overflowSite]) ∧
        ∀ task, s.pool.Clean ∧ (s.fuelOf task).Clean ∧ s.fuelAudit.Clean

theorem safeUnder_lawful : SafeUnder P := by
  obtain ⟨s₀, hnew, h₀, -⟩ := new_spec (P := P)
  refine ⟨s₀, hnew, fun events s run => ?_⟩
  obtain ⟨hs, -, hpairwise, hids⟩ := run_spec run h₀
  refine ⟨hs, hpairwise, fun id hid => (hids id hid).2, fun call hallowed => ?_, hs.queries⟩
  have hspec := perform_spec hs call hallowed
  rcases hres : perform call s with ⟨e | reply, s'⟩
  · have hstopped := hspec.stopped hres
    cases e with
    | err e => trivial
    | panic site => exact List.mem_singleton.mpr hstopped
    | diverge => exact hstopped
  · trivial

/-- The scheduler is consistent along every run, under both shipped policies. -/
theorem consistent_along_every_run :
    SafeUnder DeterministicPolicy ∧ SafeUnder FairPolicy :=
  ⟨safeUnder_lawful, safeUnder_lawful⟩

/-- The books of the scheduler: everything imported was burned, exported or is
held by the pool and the tasks of the table, and what is held fits in 64 bits. -/
structure Balanced (s : Scheduler P) : Prop where
  conserved : s.ledger.imported =
    s.ledger.burned + s.ledger.exported + s.poolFuel + s.heldByTasks
  bounded : s.poolFuel + s.heldByTasks ≤ Fuel.max

/-- The open accounts of a consistent state, each once. -/
theorem Consistent.accounts_perm (h : s.Consistent) :
    s.ledger.balances.keys.Perm (Account.pool :: s.tasks.keys.map Account.task) := by
  refine (List.perm_ext_iff_of_nodup TreeMap.nodup_keys ?_).mpr fun a => ?_
  · refine List.nodup_cons.mpr ⟨by simp, TreeMap.nodup_keys.map fun x y hxy => ?_⟩
    cases hxy
    rfl
  · rw [TreeMap.mem_keys, TreeMap.mem_iff_isSome_getElem?, List.mem_cons, List.mem_map]
    cases a with
    | pool => simp [h.pool_open]
    | task t =>
      rw [h.account_iff t, ← TreeMap.mem_iff_isSome_getElem?, ← TreeMap.mem_keys]
      simp only [reduceCtorEq, Account.task.injEq, exists_eq_right, false_or]

theorem Consistent.circulating_eq (h : s.Consistent) :
    s.ledger.circulating = s.poolFuel + s.heldByTasks := by
  calc s.ledger.circulating
      = (s.ledger.balances.keys.map fun a => (s.ledger.balances[a]?).getD 0).sum :=
        total_eq_sum_keys s.ledger.balances
    _ = ((Account.pool :: s.tasks.keys.map Account.task).map
          fun a => (s.ledger.balances[a]?).getD 0).sum := (h.accounts_perm.map _).sum_eq
    _ = s.poolFuel + s.heldByTasks := by
        simp only [List.map_cons, List.map_map, List.sum_cons, poolFuel, heldByTasks,
          Function.comp_def]

theorem Consistent.balanced (h : s.Consistent) : s.Balanced where
  conserved := by
    have hc := h.conserved
    rw [FuelLedger.Conserved, h.circulating_eq] at hc
    omega
  bounded := h.circulating_eq ▸ h.bounded

/-- Fuel is conserved at every state of every run, under both policies, the
outstanding total stays within 64 bits so that no movement inside the books
overflows, and a call that returns an error leaves the whole state alone. -/
def ConservedUnder (P : Type) [Policy P] [LawfulPolicy P] : Prop :=
  ∃ s₀ : Scheduler P, new Policy.empty = .ok s₀ ∧
    ∀ (events : List (Call × Outcome SchedError Reply)) (s : Scheduler P),
      Run Step s₀ events s →
        s.Balanced ∧
        (∀ event s', Step s event s' → s'.Balanced) ∧
        (∀ src dst amount account, (FuelLedger.transfer src dst amount s.ledger).1 ≠
          Outcome.fail (.balanceOverflow account)) ∧
        ∀ call, s.Allowed call → ∀ e s', perform call s = (Outcome.fail e, s') →
          s' = s ∧ (e = .fuelOverflow → ∃ amount, call = .refuel amount ∧
            Fuel.max < s.poolFuel + s.heldByTasks + amount)

theorem conservedUnder_lawful : ConservedUnder P := by
  obtain ⟨s₀, hnew, h₀, -⟩ := new_spec (P := P)
  refine ⟨s₀, hnew, fun events s run => ?_⟩
  obtain ⟨hs, -⟩ := run_spec run h₀
  refine ⟨hs.balanced, fun event s' hstep => (hstep.spec hs).1.balanced,
    FuelLedger.transfer_fits hs.conserved hs.bounded, ?_⟩
  intro call hallowed e s' hres
  have hstopped := (perform_spec hs call hallowed).stopped hres
  rw [← hs.circulating_eq]
  exact hstopped

theorem fuel_conserved_along_every_run :
    ConservedUnder DeterministicPolicy ∧ ConservedUnder FairPolicy :=
  ⟨conservedUnder_lawful, conservedUnder_lawful⟩

end Scheduler

end Eo9.Sched
