import Eo9.Sched.Scheduler

/-!
# The invariant of the scheduler

One invariant couples the task table, the run queue, the ledger and the
running slot. Every operation started in a consistent state either returns and
leaves a consistent state, or returns an error and leaves the state as it was,
or stops because a counter overflowed.
-/

namespace Eo9.Sched

open Eo9.Library Std LawfulPolicy

namespace Scheduler

variable {P : Type} [Policy P] [LawfulPolicy P]

/-- The scheduler's four structures agree with each other. -/
structure Consistent (s : Scheduler P) : Prop where
  /-- The queue holds no task twice. -/
  queue_nodup : (queued s.policy).Nodup
  /-- The queue holds exactly the runnable tasks. -/
  queue_iff : ∀ t : TaskId, t ∈ queued s.policy ↔
    ∃ entry : Task, s.tasks[t]? = some entry ∧ entry.state = .runnable
  /-- The running slot names exactly the running task. -/
  running_iff : ∀ t : TaskId, s.running = some t ↔
    ∃ entry : Task, s.tasks[t]? = some entry ∧ entry.state = .running
  /-- The open task accounts are exactly those of the tasks in the table. -/
  account_iff : ∀ t : TaskId, (s.ledger.balances[Account.task t]?).isSome ↔ (s.tasks[t]?).isSome
  pool_open : (s.ledger.balances[Account.pool]?).isSome
  /-- A task's parent is in the table and lists it exactly once. -/
  parent_lists : ∀ (t : TaskId) (entry : Task) (p : TaskId), s.tasks[t]? = some entry → entry.parent = some p →
    ∃ parent : Task, s.tasks[p]? = some parent ∧ parent.children.count t = 1
  /-- A listed child is in the table under that parent. -/
  child_listed : ∀ (p : TaskId) (parent : Task) (t : TaskId), s.tasks[p]? = some parent → t ∈ parent.children →
    ∃ entry : Task, s.tasks[t]? = some entry ∧ entry.parent = some p
  /-- A finished task holds no fuel. -/
  done_empty : ∀ (t : TaskId) (entry : Task), s.tasks[t]? = some entry → entry.state = .done →
    s.ledger.balances[Account.task t]? = some 0
  /-- Every id in the table was issued before the next one. -/
  id_lt : ∀ t : TaskId, (s.tasks[t]?).isSome → t.raw < s.nextId
  /-- The conservation law. -/
  conserved : s.ledger.Conserved
  /-- The outstanding fuel fits in 64 bits. -/
  bounded : s.ledger.circulating ≤ Fuel.max

/-- An operation that did not return: an error other than a fuel overflow left
the state alone, and the only panic is a counter's overflow. -/
def Refused (s : Scheduler P) : Stop SchedError → Scheduler P → Prop
  | .err e, s' => s' = s ∧ e ≠ .fuelOverflow
  | .panic site, _ => site = overflowSite
  | .diverge, _ => False

/-- A ledger with the same open accounts, the same empty accounts of finished
tasks and the same laws fits the same scheduler. -/
theorem Consistent.withLedger {s : Scheduler P} (h : s.Consistent)
    (ledger : FuelLedger Account)
    (hopen : ∀ a : Account, (ledger.balances[a]?).isSome = (s.ledger.balances[a]?).isSome)
    (hdone : ∀ (t : TaskId) (entry : Task), s.tasks[t]? = some entry → entry.state = .done →
      ledger.balances[Account.task t]? = some 0)
    (hc : ledger.Conserved) (hb : ledger.circulating ≤ Fuel.max) :
    ({ s with ledger } : Scheduler P).Consistent where
  queue_nodup := h.queue_nodup
  queue_iff := h.queue_iff
  running_iff := h.running_iff
  account_iff t := by
    simp only [hopen]
    exact h.account_iff t
  pool_open := by
    simp only [hopen]
    exact h.pool_open
  parent_lists := h.parent_lists
  child_listed := h.child_listed
  done_empty := hdone
  id_lt := h.id_lt
  conserved := hc
  bounded := hb

/-- Moving one task to another state, with the queue and the running slot
following it. -/
theorem Consistent.withState {s : Scheduler P} (h : s.Consistent) {t : TaskId} {entry : Task}
    (ht : s.tasks[t]? = some entry) (state : TaskState) (policy : P) (running : Option TaskId)
    (hnodup : (queued policy).Nodup)
    (hq : ∀ x, x ∈ queued policy ↔
      (x = t ∧ state = .runnable) ∨ (x ≠ t ∧ x ∈ queued s.policy))
    (hr : ∀ x, running = some x ↔
      (x = t ∧ state = .running) ∨ (x ≠ t ∧ s.running = some x))
    (hdone : state = .done → s.ledger.balances[Account.task t]? = some 0) :
    ({ s with
      tasks := s.tasks.insert t { entry with state }
      policy
      running } : Scheduler P).Consistent := by
  have hlook : ∀ x, (s.tasks.insert t { entry with state })[x]? =
      if x = t then some { entry with state } else s.tasks[x]? :=
    fun x => lookup_insert s.tasks t x _
  constructor
  · exact hnodup
  · intro x
    simp only [hq, hlook]
    by_cases hx : x = t
    · simp [hx]
    · simp [hx, h.queue_iff]
  · intro x
    simp only [hr, hlook]
    by_cases hx : x = t
    · simp [hx]
    · simp [hx, h.running_iff]
  · intro x
    simp only [hlook, h.account_iff]
    by_cases hx : x = t
    · simp [hx, ht]
    · simp [hx]
  · exact h.pool_open
  · intro x e p hx hp
    rw [hlook] at hx
    obtain ⟨e', he', hp'⟩ : ∃ e' : Task, s.tasks[x]? = some e' ∧ e'.parent = some p := by
      by_cases hxt : x = t
      · rw [if_pos hxt] at hx
        cases hx
        exact ⟨entry, hxt ▸ ht, hp⟩
      · rw [if_neg hxt] at hx
        exact ⟨e, hx, hp⟩
    obtain ⟨parent, hparent, hcount⟩ := h.parent_lists x e' p he' hp'
    by_cases hpt : p = t
    · subst hpt
      rw [ht] at hparent
      cases hparent
      exact ⟨{ entry with state }, by rw [hlook, if_pos rfl], hcount⟩
    · exact ⟨parent, by rw [hlook, if_neg hpt, hparent], hcount⟩
  · intro p parent c hp hc
    rw [hlook] at hp
    obtain ⟨parent', hparent', hc'⟩ : ∃ parent' : Task, s.tasks[p]? = some parent' ∧
        c ∈ parent'.children := by
      by_cases hpt : p = t
      · rw [if_pos hpt] at hp
        cases hp
        exact ⟨entry, hpt ▸ ht, hc⟩
      · rw [if_neg hpt] at hp
        exact ⟨parent, hp, hc⟩
    obtain ⟨e, he, hep⟩ := h.child_listed p parent' c hparent' hc'
    by_cases hct : c = t
    · subst hct
      rw [ht] at he
      cases he
      exact ⟨{ entry with state }, by rw [hlook, if_pos rfl], hep⟩
    · exact ⟨e, by rw [hlook, if_neg hct, he], hep⟩
  · intro x e hx he
    rw [hlook] at hx
    by_cases hxt : x = t
    · rw [if_pos hxt] at hx
      cases hx
      exact hxt ▸ hdone he
    · rw [if_neg hxt] at hx
      exact h.done_empty x e hx he
  · intro x hx
    rw [hlook] at hx
    by_cases hxt : x = t
    · exact h.id_lt x (by simp [hxt, ht])
    · rw [if_neg hxt] at hx
      exact h.id_lt x hx
  · exact h.conserved
  · exact h.bounded

theorem Consistent.mem_queued {s : Scheduler P} (h : s.Consistent) {t : TaskId} {entry : Task}
    (ht : s.tasks[t]? = some entry) : t ∈ queued s.policy ↔ entry.state = .runnable := by
  rw [h.queue_iff]
  constructor
  · rintro ⟨e, he, hst⟩
    rw [ht] at he
    cases he
    exact hst
  · intro hst
    exact ⟨entry, ht, hst⟩

theorem Consistent.running_eq {s : Scheduler P} (h : s.Consistent) {t : TaskId} {entry : Task}
    (ht : s.tasks[t]? = some entry) : s.running = some t ↔ entry.state = .running := by
  rw [h.running_iff]
  constructor
  · rintro ⟨e, he, hst⟩
    rw [ht] at he
    cases he
    exact hst
  · intro hst
    exact ⟨entry, ht, hst⟩

/-- A task that is not queued and becomes runnable joins the queue. -/
theorem Consistent.toRunnable {s : Scheduler P} (h : s.Consistent) {t : TaskId} {entry : Task}
    (ht : s.tasks[t]? = some entry) (hst : entry.state ≠ .runnable) :
    ∃ policy : P,
      (Policy.enqueue t s.policy : Outcome SchedError Unit × P) = (.ok (), policy) ∧
      ∀ running : Option TaskId,
        (∀ x, running = some x ↔ x ≠ t ∧ s.running = some x) →
        ({ s with
          tasks := s.tasks.insert t { entry with state := .runnable }
          policy
          running } : Scheduler P).Consistent := by
  have hfresh : t ∉ queued s.policy := fun hmem => hst ((h.mem_queued ht).mp hmem)
  obtain ⟨policy, hpolicy⟩ := enqueue_fresh t s.policy hfresh
  obtain ⟨henq, hperm⟩ := hpolicy SchedError
  refine ⟨policy, henq, fun running hr => h.withState ht .runnable policy running ?_ ?_ ?_ ?_⟩
  · exact hperm.nodup_iff.mpr (List.nodup_cons.mpr ⟨hfresh, h.queue_nodup⟩)
  · intro x
    rw [hperm.mem_iff, List.mem_cons]
    by_cases hx : x = t
    · simp [hx]
    · simp [hx]
  · intro x
    simp [hr]
  · simp

/-- A task that leaves the running slot leaves the queue as it is. -/
theorem Consistent.toStopped {s : Scheduler P} (h : s.Consistent) {t : TaskId} {entry : Task}
    (ht : s.tasks[t]? = some entry) (hst : entry.state ≠ .runnable) (state : TaskState)
    (hs : state ≠ .runnable) (hs' : state ≠ .running) (running : Option TaskId)
    (hr : ∀ x, running = some x ↔ x ≠ t ∧ s.running = some x)
    (hdone : state = .done → s.ledger.balances[Account.task t]? = some 0) :
    ({ s with
      tasks := s.tasks.insert t { entry with state }
      running } : Scheduler P).Consistent := by
  refine h.withState ht state s.policy running h.queue_nodup (fun x => ?_) (fun x => ?_) hdone
  · have hfresh : t ∉ queued s.policy := fun hmem => hst ((h.mem_queued ht).mp hmem)
    simp only [hs, and_false, false_or]
    exact ⟨fun hx => ⟨fun heq => hfresh (heq ▸ hx), hx⟩, fun hx => hx.2⟩
  · simp [hr, hs']

/-- A queued task that is taken out of the queue moves to its next state. -/
theorem Consistent.fromQueue {s : Scheduler P} (h : s.Consistent) {t : TaskId} {entry : Task}
    (ht : s.tasks[t]? = some entry) {policy : P}
    (hperm : (queued s.policy).Perm (t :: queued policy)) (state : TaskState)
    (hs : state ≠ .runnable) (running : Option TaskId)
    (hr : ∀ x, running = some x ↔ (x = t ∧ state = .running) ∨ (x ≠ t ∧ s.running = some x))
    (hdone : state = .done → s.ledger.balances[Account.task t]? = some 0) :
    ({ s with
      tasks := s.tasks.insert t { entry with state }
      policy
      running } : Scheduler P).Consistent := by
  have hcons := hperm.nodup_iff.mp h.queue_nodup
  refine h.withState ht state policy running (List.nodup_cons.mp hcons).2 (fun x => ?_) hr hdone
  rw [hperm.mem_iff, List.mem_cons]
  simp only [hs, and_false, false_or]
  constructor
  · intro hx
    exact ⟨fun heq => (List.nodup_cons.mp hcons).1 (heq ▸ hx), Or.inr hx⟩
  · rintro ⟨hne, rfl | hx⟩
    · exact absurd rfl hne
    · exact hx

/-- A task in the table has an account, and with the pool's it fits in 64 bits. -/
theorem Consistent.accounts {s : Scheduler P} (h : s.Consistent) {t : TaskId} {entry : Task}
    (ht : s.tasks[t]? = some entry) :
    ∃ a b, s.ledger.balances[Account.task t]? = some a ∧
      s.ledger.balances[Account.pool]? = some b ∧ a + b ≤ Fuel.max := by
  obtain ⟨a, ha⟩ := Option.isSome_iff_exists.mp ((h.account_iff t).mpr (by simp [ht]))
  obtain ⟨b, hb⟩ := Option.isSome_iff_exists.mp h.pool_open
  refine ⟨a, b, ha, hb, ?_⟩
  have hne : Account.task t ≠ Account.pool := by simp
  exact (add_le_total hne ha hb).trans h.bounded

/-- The ledger after moving `amount` between two open accounts. -/
theorem Consistent.afterTransfer {s : Scheduler P} (h : s.Consistent) {src dst : Account}
    {a b amount : Nat} (hne : src ≠ dst) (ha : s.ledger.balances[src]? = some a)
    (hb : s.ledger.balances[dst]? = some b) (hle : amount ≤ a)
    (hdone : ∀ (t : TaskId) (entry : Task), s.tasks[t]? = some entry → entry.state = .done →
      Account.task t ≠ src ∧ Account.task t ≠ dst) :
    ({ s with ledger := { s.ledger with
        balances := (s.ledger.balances.insert src (a - amount)).insert dst (b + amount) } } :
      Scheduler P).Consistent := by
  have htotal := FuelLedger.circulating_transfer hne ha hb hle
  refine h.withLedger _ (fun x => ?_) (fun t entry ht hst => ?_) ?_ ?_
  · simp only [TreeMap.getElem?_insert, Std.compare_eq_iff_eq]
    by_cases hd : dst = x
    · simp [← hd, hb]
    · by_cases hs : src = x
      · simp [← hs, Ne.symm hne, ha]
      · simp [hd, hs]
  · obtain ⟨hs, hd⟩ := hdone t entry ht hst
    simp only [TreeMap.getElem?_insert, Std.compare_eq_iff_eq, hs.symm, hd.symm, if_false]
    exact h.done_empty t entry ht hst
  · have := h.conserved
    simp only [FuelLedger.Conserved, FuelLedger.circulating] at this htotal ⊢
    rw [htotal]
    exact this
  · simp only [FuelLedger.circulating] at htotal ⊢
    rw [htotal]
    exact h.bounded

/-- Giving a live task's whole balance back to the pool works from every state
with the same books, and empties the account. -/
theorem Consistent.reclaimAll {s : Scheduler P} (h : s.Consistent) {t : TaskId} {entry : Task}
    (ht : s.tasks[t]? = some entry) (hlive : entry.state ≠ .done) :
    ∃ ledger : FuelLedger Account,
      (∀ s' : Scheduler P, s'.ledger = s.ledger →
        Scheduler.reclaimAll t s' = (.ok (), { s' with ledger })) ∧
      ledger.balances[Account.task t]? = some 0 ∧
      ({ s with ledger } : Scheduler P).Consistent := by
  obtain ⟨a, b, ha, hb, hsum⟩ := h.accounts ht
  have hne : Account.task t ≠ Account.pool := by simp
  rcases Nat.eq_zero_or_pos a with hzero | hpos
  · refine ⟨s.ledger, fun s' hs' => ?_, hzero ▸ ha, h⟩
    simp only [Scheduler.reclaimAll, Action.bind_apply, Action.gets_apply, hs',
      FuelLedger.balance, ha, hzero, Nat.lt_irrefl, if_false, Action.pure_apply]
    rw [← hs']
  · have htransfer := FuelLedger.transfer_of_open a h.conserved hne ha hb hsum
    rw [if_pos le_rfl] at htransfer
    refine ⟨_, fun s' hs' => ?_, ?_, h.afterTransfer hne ha hb le_rfl ?_⟩
    · simp only [Scheduler.reclaimAll, Action.bind_apply, Action.gets_apply, hs',
        FuelLedger.balance, ha, hpos, if_true, Action.expect_apply, onLedger_apply, htransfer,
        Outcome.mapErr_ok]
    · simp only [lookup_insert, hne, if_false, if_true, Nat.sub_self]
    · intro x e hx he
      refine ⟨fun heq => hlive ?_, by simp⟩
      cases heq
      rw [ht] at hx
      cases hx
      exact he

end Scheduler

end Eo9.Sched
