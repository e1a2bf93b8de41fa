import Eo9.Sched.Operations

/-!
# Spawning and reaping

The two operations that change which tasks exist. Both rewrite the children
list of one parent, so each is described by how the new task table answers a
lookup.
-/

namespace Eo9.Sched

open Eo9.Library Std LawfulPolicy

namespace Scheduler

variable {P : Type} [Policy P] [LawfulPolicy P] {s : Scheduler P}

omit [Policy P] [LawfulPolicy P] in
/-- A lookup in a table whose rows were rewritten by `f`. -/
theorem lookup_rewritten {tasks : TreeMap TaskId Task} {x : TaskId} {f : Task → Task}
    (hlook : tasks[x]? = (s.tasks[x]?).map f) {e : Task} :
    tasks[x]? = some e ↔ ∃ e₀ : Task, s.tasks[x]? = some e₀ ∧ e = f e₀ := by
  rw [hlook, Option.map_eq_some_iff]
  simp only [eq_comm]

theorem Consistent.fresh (h : s.Consistent) : s.tasks[TaskId.mk s.nextId]? = none := by
  cases ht : s.tasks[TaskId.mk s.nextId]? with
  | none => rfl
  | some entry => exact absurd (h.id_lt ⟨s.nextId⟩ (by simp [ht])) (lt_irrefl _)

/-- A new runnable task under a parent of the table, listed there once. -/
theorem Consistent.withChild (h : s.Consistent) {parent : Option TaskId} {policy : P}
    {tasks : TreeMap TaskId Task}
    (hparent : ∀ p, parent = some p → ∃ e : Task, s.tasks[p]? = some e)
    (hperm : (queued policy).Perm (TaskId.mk s.nextId :: queued s.policy))
    (hnew : tasks[TaskId.mk s.nextId]? = some ⟨.runnable, parent, []⟩)
    (hold : ∀ x : TaskId, x ≠ ⟨s.nextId⟩ → tasks[x]? = (s.tasks[x]?).map fun e =>
      { e with children := e.children ++ if parent = some x then [⟨s.nextId⟩] else [] }) :
    ({ s with
      tasks
      nextId := s.nextId + 1
      policy
      ledger := { s.ledger with
        balances := s.ledger.balances.insert (.task ⟨s.nextId⟩) 0 } } :
      Scheduler P).Consistent := by
  have hfresh := h.fresh
  have hclosed : s.ledger.balances[Account.task ⟨s.nextId⟩]? = none := by
    have := h.account_iff ⟨s.nextId⟩
    simpa [hfresh] using this
  have hunqueued : TaskId.mk s.nextId ∉ queued s.policy := by
    intro hmem
    obtain ⟨e, he, -⟩ := (h.queue_iff _).mp hmem
    rw [hfresh] at he
    cases he
  have hunlisted : ∀ (x : TaskId) (e : Task), s.tasks[x]? = some e →
      TaskId.mk s.nextId ∉ e.children := by
    intro x e he hmem
    obtain ⟨c, hc, -⟩ := h.child_listed x e _ he hmem
    rw [hfresh] at hc
    cases hc
  have htotal := total_insert_new 0 hclosed
  constructor
  · exact hperm.nodup_iff.mpr (List.nodup_cons.mpr ⟨hunqueued, h.queue_nodup⟩)
  · intro x
    rw [hperm.mem_iff, List.mem_cons]
    by_cases hx : x = ⟨s.nextId⟩
    · subst hx
      simp [hnew]
    · simp only [hx, false_or, h.queue_iff, lookup_rewritten (hold x hx)]
      constructor
      · rintro ⟨e, he, hst⟩
        exact ⟨_, ⟨e, he, rfl⟩, hst⟩
      · rintro ⟨_, ⟨e, he, rfl⟩, hst⟩
        exact ⟨e, he, hst⟩
  · intro x
    by_cases hx : x = ⟨s.nextId⟩
    · subst hx
      simp [hnew, h.running_iff, hfresh]
    · simp only [h.running_iff, lookup_rewritten (hold x hx)]
      constructor
      · rintro ⟨e, he, hst⟩
        exact ⟨_, ⟨e, he, rfl⟩, hst⟩
      · rintro ⟨_, ⟨e, he, rfl⟩, hst⟩
        exact ⟨e, he, hst⟩
  · intro x
    rw [lookup_insert]
    by_cases hx : x = ⟨s.nextId⟩
    · simp [hx, hnew]
    · simpa [hx, hold x hx] using h.account_iff x
  · rw [lookup_insert]
    simpa using h.pool_open
  · intro x e p hx hp
    by_cases hxid : x = ⟨s.nextId⟩
    · subst hxid
      rw [hnew] at hx
      cases hx
      obtain ⟨e₀, he₀⟩ := hparent p hp
      have hne : p ≠ ⟨s.nextId⟩ := by
        rintro rfl
        rw [hfresh] at he₀
        cases he₀
      refine ⟨_, (lookup_rewritten (hold p hne)).mpr ⟨e₀, he₀, rfl⟩, ?_⟩
      have hzero := List.count_eq_zero.mpr (hunlisted p e₀ he₀)
      have hp' : parent = some p := hp
      simp [hp', List.count_append, hzero]
    · obtain ⟨e₀, he₀, rfl⟩ := (lookup_rewritten (hold x hxid)).mp hx
      obtain ⟨pe, hpe, hcount⟩ := h.parent_lists x e₀ p he₀ hp
      have hne : p ≠ ⟨s.nextId⟩ := by
        rintro rfl
        rw [hfresh] at hpe
        cases hpe
      refine ⟨_, (lookup_rewritten (hold p hne)).mpr ⟨pe, hpe, rfl⟩, ?_⟩
      have hother : List.count x (if parent = some p then [TaskId.mk s.nextId] else []) = 0 := by
        rw [List.count_eq_zero]
        split
        · simpa using hxid
        · simp
      simp only [List.count_append, hcount, hother]
  · intro p pe c hp hc
    by_cases hpid : p = ⟨s.nextId⟩
    · subst hpid
      rw [hnew] at hp
      cases hp
      simp at hc
    · obtain ⟨e₀, he₀, rfl⟩ := (lookup_rewritten (hold p hpid)).mp hp
      rw [List.mem_append] at hc
      rcases hc with hc | hc
      · obtain ⟨ce, hce, hcp⟩ := h.child_listed p e₀ c he₀ hc
        have hne : c ≠ ⟨s.nextId⟩ := by
          rintro rfl
          rw [hfresh] at hce
          cases hce
        exact ⟨_, (lookup_rewritten (hold c hne)).mpr ⟨ce, hce, rfl⟩, hcp⟩
      · split at hc
        · next hpar =>
          rw [List.mem_singleton] at hc
          subst hc
          exact ⟨_, hnew, hpar⟩
        · cases hc
  · intro x e hx he
    rw [lookup_insert]
    by_cases hxid : x = ⟨s.nextId⟩
    · simp [hxid]
    · obtain ⟨e₀, he₀, rfl⟩ := (lookup_rewritten (hold x hxid)).mp hx
      simpa [hxid] using h.done_empty x e₀ he₀ he
  · intro x hx
    by_cases hxid : x = ⟨s.nextId⟩
    · simp [hxid]
    · rw [hold x hxid, Option.isSome_map] at hx
      exact Nat.lt_succ_of_lt (h.id_lt x hx)
  · have := h.conserved
    simp only [FuelLedger.Conserved, FuelLedger.circulating] at this ⊢
    omega
  · have := h.bounded
    simp only [FuelLedger.circulating] at this ⊢
    omega

/-- Spawning under a checked parent issues the next id, or stops because the
id counter is used up. -/
theorem spawnChecked_spec (h : s.Consistent) (parent : Option TaskId)
    (hparent : ∀ p, parent = some p → ∃ e : Task, s.tasks[p]? = some e) :
    (spawnChecked parent).wp s
      (fun id s' => s'.Consistent ∧ id.raw = s.nextId ∧ s'.nextId = s.nextId + 1)
      (Refused s) := by
  by_cases hfit : s.nextId + 1 < 2 ^ 64
  swap
  · have hrun : spawnChecked parent s = (.error (.panic overflowSite), s) := by
      simp only [spawnChecked, Action.bind_apply, Action.gets_apply, Action.query_apply,
        checkedAdd, hfit, if_false, Outcome.panic, overflowSite]
    exact Action.wp_of_error hrun rfl
  have hfresh := h.fresh
  have hclosed : s.ledger.balances[Account.task ⟨s.nextId⟩]? = none := by
    have := h.account_iff ⟨s.nextId⟩
    simpa [hfresh] using this
  have hopen := FuelLedger.openAccount_of_closed h.conserved hclosed
  have hunqueued : TaskId.mk s.nextId ∉ queued s.policy := by
    intro hmem
    obtain ⟨e, he, -⟩ := (h.queue_iff _).mp hmem
    rw [hfresh] at he
    cases he
  obtain ⟨policy, hpolicy⟩ := enqueue_fresh _ s.policy hunqueued
  obtain ⟨henq, hperm⟩ := hpolicy SchedError
  cases parent with
  | none =>
    have hrun : spawnChecked none s = (.ok ⟨s.nextId⟩, { s with
        tasks := s.tasks.insert ⟨s.nextId⟩ ⟨.runnable, none, []⟩
        nextId := s.nextId + 1
        policy
        ledger := { s.ledger with
          balances := s.ledger.balances.insert (.task ⟨s.nextId⟩) 0 } }) := by
      simp only [spawnChecked, Action.bind_apply, Action.gets_apply, Action.query_apply,
        checkedAdd_ok hfit, Action.modify_apply, Action.expect_apply, onLedger_apply, hopen,
        Outcome.mapErr_ok, onPolicy_apply, henq, Action.pure_apply]
    refine Action.wp_of_ok hrun ⟨h.withChild hparent hperm ?_ (fun x hx => ?_), rfl, rfl⟩
    · rw [lookup_insert, if_pos rfl]
    · simp [lookup_insert, hx]
  | some p =>
    obtain ⟨pe, hpe⟩ := hparent p rfl
    have hne : p ≠ ⟨s.nextId⟩ := by
      rintro rfl
      rw [hfresh] at hpe
      cases hpe
    have hpe' : (s.tasks.insert ⟨s.nextId⟩ ⟨.runnable, some p, []⟩)[p]? = some pe := by
      rw [lookup_insert, if_neg hne, hpe]
    have hrun : spawnChecked (some p) s = (.ok ⟨s.nextId⟩, { s with
        tasks := (s.tasks.insert ⟨s.nextId⟩ ⟨.runnable, some p, []⟩).insert p
          { pe with children := pe.children ++ [⟨s.nextId⟩] }
        nextId := s.nextId + 1
        policy
        ledger := { s.ledger with
          balances := s.ledger.balances.insert (.task ⟨s.nextId⟩) 0 } }) := by
      simp only [spawnChecked, Action.bind_apply, Action.gets_apply, Action.query_apply,
        checkedAdd_ok hfit, Action.modify_apply, Action.expect_apply, onLedger_apply, hopen,
        Outcome.mapErr_ok, updateTask, hpe', onPolicy_apply, henq, Action.pure_apply]
    refine Action.wp_of_ok hrun ⟨h.withChild hparent hperm ?_ (fun x hx => ?_), rfl, rfl⟩
    · rw [lookup_insert, if_neg (Ne.symm hne), lookup_insert, if_pos rfl]
    · by_cases hxp : x = p
      · simp [hxp, hpe]
      · simp [lookup_insert, hx, hxp, Ne.symm hxp]

theorem spawn_spec (h : s.Consistent) (parent : Option TaskId) :
    (spawn parent).wp s
      (fun id s' => s'.Consistent ∧ id.raw = s.nextId ∧ s'.nextId = s.nextId + 1)
      (Refused s) := by
  cases parent with
  | none => exact spawnChecked_spec h none (by simp)
  | some p =>
    cases hp : s.tasks[p]? with
    | none =>
      have hrun : spawn (some p) s = (.error (.err (.noSuchTask p)), s) := by
        simp only [spawn, Action.bind_apply, Action.query_apply, state_of_not_mem hp]
      exact Action.wp_of_error hrun ⟨rfl, by simp⟩
    | some entry =>
      have hstate := state_of_mem hp
      by_cases hdone : entry.state = .done
      · have hrun : spawn (some p) s = (.error (.err (.taskDone p)), s) := by
          simp only [spawn, Action.bind_apply, Action.query_apply, hstate, hdone,
            Action.fail_apply]
        exact Action.wp_of_error hrun ⟨rfl, by simp⟩
      · have hrun : spawn (some p) s = spawnChecked (some p) s := by
          simp only [spawn, Action.bind_apply, Action.query_apply, hstate]
          cases hst : entry.state with
          | done => exact absurd hst hdone
          | _ => rfl
        unfold Action.wp
        rw [hrun]
        refine spawnChecked_spec h (some p) fun q hq => ?_
        cases hq
        exact ⟨entry, hp⟩

/-- Without a finished and childless task, and without its name in its
parent's list, the rest still fits together. -/
theorem Consistent.withoutTask (h : s.Consistent) {t : TaskId} {entry : Task}
    {tasks : TreeMap TaskId Task} (ht : s.tasks[t]? = some entry) (hst : entry.state = .done)
    (hchildless : entry.children = []) (hgone : tasks[t]? = none)
    (hold : ∀ x : TaskId, x ≠ t → tasks[x]? = (s.tasks[x]?).map fun e =>
      { e with children := if entry.parent = some x then e.children.filter (· ≠ t)
          else e.children }) :
    ({ s with
      tasks
      ledger := { s.ledger with balances := s.ledger.balances.erase (.task t) } } :
      Scheduler P).Consistent := by
  have hqueue : t ∉ queued s.policy := fun hmem => by
    have := (h.mem_queued ht).mp hmem
    simp [hst] at this
  have hslot : s.running ≠ some t := fun hr => by
    have := (h.running_eq ht).mp hr
    simp [hst] at this
  have hunlisting : ∀ (x c : TaskId) (e : Task), c ≠ t →
      List.count c (if entry.parent = some x then e.children.filter (· ≠ t) else e.children) =
        e.children.count c := by
    intro x c e hc
    split
    · exact List.count_filter (by simpa using hc)
    · rfl
  have htotal := total_erase (h.done_empty t entry ht hst)
  constructor
  · exact h.queue_nodup
  · intro x
    by_cases hx : x = t
    · subst hx
      simp [hqueue, hgone]
    · simp only [h.queue_iff, lookup_rewritten (hold x hx)]
      constructor
      · rintro ⟨e, he, hst⟩
        exact ⟨_, ⟨e, he, rfl⟩, hst⟩
      · rintro ⟨_, ⟨e, he, rfl⟩, hst⟩
        exact ⟨e, he, hst⟩
  · intro x
    by_cases hx : x = t
    · subst hx
      simp [hslot, hgone]
    · simp only [h.running_iff, lookup_rewritten (hold x hx)]
      constructor
      · rintro ⟨e, he, hst⟩
        exact ⟨_, ⟨e, he, rfl⟩, hst⟩
      · rintro ⟨_, ⟨e, he, rfl⟩, hst⟩
        exact ⟨e, he, hst⟩
  · intro x
    rw [lookup_erase]
    by_cases hx : x = t
    · simp [hx, hgone]
    · simpa [hx, hold x hx] using h.account_iff x
  · rw [lookup_erase]
    simpa using h.pool_open
  · intro x e p hx hp
    have hxt : x ≠ t := by
      rintro rfl
      rw [hgone] at hx
      cases hx
    obtain ⟨e₀, he₀, rfl⟩ := (lookup_rewritten (hold x hxt)).mp hx
    obtain ⟨pe, hpe, hcount⟩ := h.parent_lists x e₀ p he₀ hp
    -- The reaped task has no children, so it is nobody's parent.
    have hpt : p ≠ t := by
      rintro rfl
      rw [ht] at hpe
      cases hpe
      simp [hchildless] at hcount
    exact ⟨_, (lookup_rewritten (hold p hpt)).mpr ⟨pe, hpe, rfl⟩,
      (hunlisting p x pe hxt).trans hcount⟩
  · intro p pe c hp hc
    have hpt : p ≠ t := by
      rintro rfl
      rw [hgone] at hp
      cases hp
    obtain ⟨e₀, he₀, rfl⟩ := (lookup_rewritten (hold p hpt)).mp hp
    have hin : c ∈ e₀.children := by
      revert hc
      dsimp only
      split
      · exact fun hc => (List.mem_filter.mp hc).1
      · exact id
    obtain ⟨ce, hce, hcp⟩ := h.child_listed p e₀ c he₀ hin
    -- The reaped task was listed by its parent only, where it is now filtered out.
    have hct : c ≠ t := by
      rintro rfl
      rw [ht] at hce
      cases hce
      simp [hcp] at hc
    exact ⟨_, (lookup_rewritten (hold c hct)).mpr ⟨ce, hce, rfl⟩, hcp⟩
  · intro x e hx he
    have hxt : x ≠ t := by
      rintro rfl
      rw [hgone] at hx
      cases hx
    obtain ⟨e₀, he₀, rfl⟩ := (lookup_rewritten (hold x hxt)).mp hx
    rw [lookup_erase]
    simpa [hxt] using h.done_empty x e₀ he₀ he
  · intro x hx
    have hxt : x ≠ t := by
      rintro rfl
      rw [hgone] at hx
      cases hx
    rw [hold x hxt, Option.isSome_map] at hx
    exact h.id_lt x hx
  · have := h.conserved
    simp only [FuelLedger.Conserved, FuelLedger.circulating] at this ⊢
    omega
  · have := h.bounded
    simp only [FuelLedger.circulating] at this ⊢
    omega

theorem reap_spec (h : s.Consistent) (t : TaskId) :
    (reap t).wp s (fun _ s' => Kept s s') (Refused s) := by
  cases ht : s.tasks[t]? with
  | none =>
    have hrun : reap t s = (.error (.err (.noSuchTask t)), s) := by
      simp only [reap, Action.bind_apply, Action.gets_apply, ht, Action.fail_apply]
    exact Action.wp_of_error hrun ⟨rfl, by simp⟩
  | some entry =>
    by_cases hst : entry.state = .done
    swap
    · have hrun : reap t s = (.error (.err (.notDone t)), s) := by
        simp only [reap, Action.bind_apply, Action.gets_apply, ht, hst, ne_eq,
          not_false_eq_true, if_true, Action.fail_apply]
      exact Action.wp_of_error hrun ⟨rfl, by simp⟩
    by_cases hchildless : entry.children = []
    swap
    · have hrun : reap t s = (.error (.err (.hasChildren t)), s) := by
        simp only [reap, Action.bind_apply, Action.gets_apply, ht, hst, ne_eq,
          not_true_eq_false, if_false, hchildless, not_false_eq_true, if_true,
          Action.fail_apply]
      exact Action.wp_of_error hrun ⟨rfl, by simp⟩
    have hclose := FuelLedger.closeAccount_of_empty h.conserved
      (h.done_empty t entry ht hst)
    cases hparent : entry.parent with
    | none =>
      have hrun : reap t s = (.ok (), { s with
          tasks := s.tasks.erase t
          ledger := { s.ledger with
            balances := s.ledger.balances.erase (.task t) } }) := by
        simp only [reap, Action.bind_apply, Action.gets_apply, ht, hst, ne_eq,
          not_true_eq_false, if_false, hchildless, Action.expect_apply, onLedger_apply,
          hclose, Outcome.mapErr_ok, Action.modify_apply, hparent, Action.pure_apply]
      refine Action.wp_of_ok hrun
        ⟨h.withoutTask ht hst hchildless (by simp) (fun x hx => ?_), rfl⟩
      simp [lookup_erase, hx, hparent]
    | some p =>
      obtain ⟨pe, hpe, hcount⟩ := h.parent_lists t entry p ht hparent
      have hpt : p ≠ t := by
        rintro rfl
        rw [ht] at hpe
        cases hpe
        simp [hchildless] at hcount
      have hpe' : (s.tasks.erase t)[p]? = some pe := by
        rw [lookup_erase, if_neg hpt, hpe]
      have hrun : reap t s = (.ok (), { s with
          tasks := (s.tasks.erase t).insert p
            { pe with children := pe.children.filter (· ≠ t) }
          ledger := { s.ledger with
            balances := s.ledger.balances.erase (.task t) } }) := by
        simp only [reap, Action.bind_apply, Action.gets_apply, ht, hst, ne_eq,
          not_true_eq_false, if_false, hchildless, Action.expect_apply, onLedger_apply,
          hclose, Outcome.mapErr_ok, Action.modify_apply, hparent, updateTask, hpe']
      refine Action.wp_of_ok hrun
        ⟨h.withoutTask ht hst hchildless ?_ (fun x hx => ?_), rfl⟩
      · rw [lookup_insert, if_neg (Ne.symm hpt), lookup_erase, if_pos rfl]
      · by_cases hxp : x = p
        · simp [hxp, hpe, hparent]
        · simp [lookup_insert, lookup_erase, hx, hxp, Ne.symm hxp, hparent]

end Scheduler

end Eo9.Sched
