import Eo9.Sched.Consistency

/-!
# Every operation keeps the invariant

One theorem for each method: from a consistent state it returns to a
consistent state, or refuses and leaves the state as it was.
-/

namespace Eo9.Sched

open Eo9.Library Std LawfulPolicy

namespace Scheduler

variable {P : Type} [Policy P] [LawfulPolicy P] {s : Scheduler P}

/-- The state after an operation that issued no id. -/
def Kept (s s' : Scheduler P) : Prop := s'.Consistent ∧ s'.nextId = s.nextId

theorem ready_spec (h : s.Consistent) (t : TaskId) :
    (ready t).wp s (fun _ s' => Kept s s') (Refused s) := by
  cases ht : s.tasks[t]? with
  | none =>
    have hrun : ready t s = (.error (.err (.noSuchTask t)), s) := by
      simp only [ready, Action.bind_apply, Action.gets_apply, ht, Action.fail_apply]
    exact Action.wp_of_error hrun ⟨rfl, by simp⟩
  | some entry =>
    by_cases hst : entry.state = .blocked
    · obtain ⟨policy, henq, hkept⟩ := h.toRunnable ht (by simp [hst])
      have hrun : ready t s = (.ok true, { s with
          tasks := s.tasks.insert t { entry with state := .runnable }
          policy }) := by
        simp only [ready, Action.bind_apply, Action.gets_apply, ht, hst, if_true,
          Action.modify_apply, onPolicy_apply, henq, Action.pure_apply]
      refine Action.wp_of_ok hrun ⟨hkept s.running fun x => ?_, rfl⟩
      have hidle : s.running ≠ some t := by
        rw [ne_eq, h.running_eq ht, hst]
        simp
      exact ⟨fun hx => ⟨fun heq => hidle (heq ▸ hx), hx⟩, fun hx => hx.2⟩
    · have hrun : ready t s = (.ok false, s) := by
        simp only [ready, Action.bind_apply, Action.gets_apply, ht, hst, if_false,
          Action.pure_apply]
      exact Action.wp_of_ok hrun ⟨h, rfl⟩

theorem pick_spec (h : s.Consistent) (hidle : s.running = none) :
    pick.wp s (fun _ s' => Kept s s') (Refused s) := by
  rcases hd : Policy.dequeue s.policy with ⟨_ | t, policy⟩
  · obtain ⟨hsame, -⟩ := dequeue_none _ _ hd
    have hrun : pick s = (.ok none, s) := by
      simp only [pick, Action.bind_apply, Action.gets_apply, hidle, Option.isSome_none,
        Bool.false_eq_true, if_false, onPolicy_apply, Action.update_apply, hd, hsame, Action.pure_apply]
      rw [← hidle]
    exact Action.wp_of_ok hrun ⟨h, rfl⟩
  · have hperm := dequeue_some _ _ _ hd
    obtain ⟨entry, ht, hst⟩ := (h.queue_iff t).mp (hperm.mem_iff.mpr List.mem_cons_self)
    have hrun : pick s = (.ok (some t), { s with
        tasks := s.tasks.insert t { entry with state := .running }
        policy
        running := some t }) := by
      simp only [pick, Action.bind_apply, Action.gets_apply, hidle, Option.isSome_none,
        Bool.false_eq_true, if_false, onPolicy_apply, Action.update_apply, hd, ht, hst, ne_eq, not_true_eq_false,
        Action.modify_apply, Action.pure_apply]
    refine Action.wp_of_ok hrun ⟨h.fromQueue ht hperm .running (by simp) _ (fun x => ?_)
      (by simp), rfl⟩
    simp [hidle, eq_comm]

theorem kill_spec (h : s.Consistent) (t : TaskId) :
    (kill t).wp s (fun _ s' => Kept s s') (Refused s) := by
  cases ht : s.tasks[t]? with
  | none =>
    have hrun : kill t s = (.error (.err (.noSuchTask t)), s) := by
      simp only [kill, Action.bind_apply, Action.query_apply, state_of_not_mem ht]
    exact Action.wp_of_error hrun ⟨rfl, by simp⟩
  | some entry =>
    have hstate := state_of_mem ht
    cases hst : entry.state with
    | running =>
      have hrun : kill t s = (.error (.err (.running t)), s) := by
        simp only [kill, Action.bind_apply, Action.query_apply, hstate, hst,
          Action.fail_apply]
      exact Action.wp_of_error hrun ⟨rfl, by simp⟩
    | done =>
      have hrun : kill t s = (.ok (), s) := by
        simp only [kill, Action.bind_apply, Action.query_apply, hstate, hst,
          Action.pure_apply]
      exact Action.wp_of_ok hrun ⟨h, rfl⟩
    | runnable =>
      obtain ⟨policy, hremove, hperm⟩ := remove_mem t s.policy ((h.mem_queued ht).mpr hst)
      obtain ⟨ledger, hreclaim, hempty, hkept⟩ := h.reclaimAll ht (by simp [hst])
      have hrun : kill t s = (.ok (), { s with
          tasks := s.tasks.insert t { entry with state := .done }
          policy
          ledger }) := by
        simp only [kill, Action.bind_apply, Action.query_apply, hstate, hst, onPolicy_apply,
          Action.update_apply, hremove, if_true, hreclaim { s with policy } rfl]
        exact updateTask_of_mem (s := { s with policy, ledger }) _ _ ht
      refine Action.wp_of_ok hrun ⟨hkept.fromQueue ht hperm .done (by simp) s.running
        (fun x => ?_) (fun _ => hempty), rfl⟩
      have hidle : s.running ≠ some t := by
        rw [ne_eq, h.running_eq ht, hst]
        simp
      simp only [reduceCtorEq, and_false, false_or]
      exact ⟨fun hx => ⟨fun heq => hidle (heq ▸ hx), hx⟩, fun hx => hx.2⟩
    | blocked =>
      obtain ⟨ledger, hreclaim, hempty, hkept⟩ := h.reclaimAll ht (by simp [hst])
      have hrun : kill t s = (.ok (), { s with
          tasks := s.tasks.insert t { entry with state := .done }
          ledger }) := by
        simp only [kill, Action.bind_apply, Action.query_apply, hstate, hst, hreclaim s rfl]
        exact updateTask_of_mem (s := { s with ledger }) _ _ ht
      refine Action.wp_of_ok hrun ⟨hkept.toStopped ht (by simp [hst]) .done (by simp)
        (by simp) s.running (fun x => ?_) (fun _ => hempty), rfl⟩
      have hidle : s.running ≠ some t := by
        rw [ne_eq, h.running_eq ht, hst]
        simp
      exact ⟨fun hx => ⟨fun heq => hidle (heq ▸ hx), hx⟩, fun hx => hx.2⟩

/-- A task of a live scheduler burns at most what it holds. -/
theorem Consistent.afterBurn (h : s.Consistent) {t : TaskId} {entry : Task} {a spent : Nat}
    (ht : s.tasks[t]? = some entry) (hlive : entry.state ≠ .done)
    (ha : s.ledger.balances[Account.task t]? = some a) (hle : spent ≤ a) :
    ({ s with ledger := { s.ledger with
        balances := s.ledger.balances.insert (Account.task t) (a - spent)
        burned := s.ledger.burned + spent } } : Scheduler P).Consistent := by
  have htotal := FuelLedger.circulating_insert (a - spent) ha
  refine h.withLedger _ (fun x => ?_) (fun x e hx he => ?_) ?_ ?_
  · rw [lookup_insert]
    by_cases hx : x = Account.task t
    · simp [hx, ha]
    · simp [hx]
  · have hne : x ≠ t := by
      rintro rfl
      rw [ht] at hx
      cases hx
      exact hlive he
    simp only [lookup_insert, Account.task.injEq, hne, if_false]
    exact h.done_empty x e hx he
  · have := h.conserved
    simp only [FuelLedger.Conserved, FuelLedger.circulating] at this htotal ⊢
    omega
  · have := h.bounded
    simp only [FuelLedger.circulating] at this htotal ⊢
    omega

/-- Once the spent fuel is burned, every outcome of the resume is accepted. -/
theorem report_burned {t : TaskId} {entry : Task} {spent : Nat} {ledger : FuelLedger Account}
    (h : ({ s with ledger } : Scheduler P).Consistent) (hr : s.running = some t)
    (ht : s.tasks[t]? = some entry) (hst : entry.state = .running)
    (hburn : FuelLedger.burn (.task t) spent s.ledger = (.ok (), ledger))
    (outcome : ResumeOutcome) :
    (report t spent outcome).wp s (fun _ s' => Kept s s') (Refused s) := by
  have hlive : entry.state ≠ .runnable := by simp [hst]
  have hslot : ∀ x : TaskId, (none : Option TaskId) = some x ↔ x ≠ t ∧ s.running = some x := by
    intro x
    simp [hr, eq_comm]
  cases outcome with
  | outOfFuel =>
    obtain ⟨policy, henq, hkept⟩ := h.toRunnable ht hlive
    have hrun : report t spent .outOfFuel s = (.ok (), { s with
        tasks := s.tasks.insert t { entry with state := .runnable }
        policy
        ledger
        running := none }) := by
      simp only [report, Action.bind_apply, Action.gets_apply, hr, ne_eq, not_true_eq_false,
        if_false, Action.mapErr_apply, onLedger_apply, hburn, Outcome.mapErr_ok, updateTask,
        ht, onPolicy_apply, henq, Action.modify_apply]
    exact Action.wp_of_ok hrun ⟨hkept none hslot, rfl⟩
  | blocked =>
    have hrun : report t spent .blocked s = (.ok (), { s with
        tasks := s.tasks.insert t { entry with state := .blocked }
        ledger
        running := none }) := by
      simp only [report, Action.bind_apply, Action.gets_apply, hr, ne_eq, not_true_eq_false,
        if_false, Action.mapErr_apply, onLedger_apply, hburn, Outcome.mapErr_ok, updateTask,
        ht, Action.modify_apply]
    exact Action.wp_of_ok hrun
      ⟨h.toStopped ht hlive .blocked (by simp) (by simp) none hslot (by simp), rfl⟩
  | done =>
    obtain ⟨emptied, hreclaim, hempty, hkept⟩ := h.reclaimAll ht (by simp [hst])
    have hrun : report t spent .done s = (.ok (), { s with
        tasks := s.tasks.insert t { entry with state := .done }
        ledger := emptied
        running := none }) := by
      simp only [report, Action.bind_apply, Action.gets_apply, hr, ne_eq, not_true_eq_false,
        if_false, Action.mapErr_apply, onLedger_apply, hburn, Outcome.mapErr_ok, updateTask,
        ht, hreclaim { s with
          tasks := s.tasks.insert t { entry with state := .done }
          ledger
          running := some t } rfl, Action.modify_apply]
    exact Action.wp_of_ok hrun
      ⟨hkept.toStopped ht hlive .done (by simp) (by simp) none hslot (fun _ => hempty), rfl⟩

theorem report_spec (h : s.Consistent) (t : TaskId) (spent : Nat) (outcome : ResumeOutcome) :
    (report t spent outcome).wp s (fun _ s' => Kept s s') (Refused s) := by
  by_cases hr : s.running = some t
  swap
  · have hrun : report t spent outcome s = (.error (.err (.notRunning t)), s) := by
      simp only [report, Action.bind_apply, Action.gets_apply, hr, ne_eq, not_false_eq_true,
        if_true, Action.fail_apply]
    exact Action.wp_of_error hrun ⟨rfl, by simp⟩
  obtain ⟨entry, ht, hst⟩ := (h.running_iff t).mp hr
  obtain ⟨a, -, ha, -, -⟩ := h.accounts ht
  have hburn := FuelLedger.burn_of_open spent h.conserved ha
  by_cases hle : spent ≤ a
  swap
  · have hrun : report t spent outcome s =
        (.error (.err (.insufficientFuel spent a)), s) := by
      simp only [report, Action.bind_apply, Action.gets_apply, hr, ne_eq, not_true_eq_false,
        if_false, Action.mapErr_apply, onLedger_apply, hburn, hle, Outcome.fail,
        Outcome.mapErr_err, fuelErr]
      rw [← hr]
    exact Action.wp_of_error hrun ⟨rfl, by simp⟩
  by_cases hlife : s.ledger.burned + spent < 2 ^ 128
  swap
  · have hrun : (report t spent outcome s).1 = .error (.panic overflowSite) := by
      simp only [report, Action.bind_apply, Action.gets_apply, hr, ne_eq, not_true_eq_false,
        if_false, Action.mapErr_apply, onLedger_apply, hburn, hle, if_true, hlife,
        Outcome.panic, Outcome.mapErr]
    exact Action.wp_of_error (Prod.ext hrun rfl) rfl
  rw [if_pos hle, if_pos hlife] at hburn
  exact report_burned (h.afterBurn ht (by simp [hst]) ha hle) hr ht hst hburn outcome

/-- Every import is refused, overflows a lifetime total, or is credited to the
pool: the refusal is the only place where the outstanding total is bounded. -/
theorem refuel_spec (h : s.Consistent) (amount : Nat) :
    (refuel amount).wp s (fun _ s' => Kept s s') fun e s' => match e with
      | .err e => s' = s ∧ e = .fuelOverflow ∧ Fuel.max < s.ledger.circulating + amount
      | .panic site => site = overflowSite
      | .diverge => False := by
  obtain ⟨b, hb⟩ := Option.isSome_iff_exists.mp h.pool_open
  by_cases hmax : Fuel.max < s.ledger.circulating + amount
  · have hrun : refuel amount s = (.error (.err .fuelOverflow), s) := by
      simp only [refuel, Action.bind_apply, Action.gets_apply, hmax, if_true, Action.fail_apply]
    exact Action.wp_of_error hrun ⟨rfl, rfl, hmax⟩
  have hle : b ≤ s.ledger.circulating := le_total hb
  have himport := FuelLedger.importFuel_of_open amount h.conserved hb (by omega)
  by_cases hlife : s.ledger.imported + amount < 2 ^ 128
  swap
  · have hrun : (refuel amount s).1 = .error (.panic overflowSite) := by
      simp only [refuel, Action.bind_apply, Action.gets_apply, hmax, if_false,
        Action.expect_apply, onLedger_apply, himport, hlife, Outcome.panic, Outcome.mapErr]
    exact Action.wp_of_error (Prod.ext hrun rfl) rfl
  rw [if_pos hlife] at himport
  have hrun : refuel amount s = (.ok (), { s with ledger := { s.ledger with
      balances := s.ledger.balances.insert Account.pool (b + amount)
      imported := s.ledger.imported + amount } }) := by
    simp only [refuel, Action.bind_apply, Action.gets_apply, hmax, if_false,
      Action.expect_apply, onLedger_apply, himport, Outcome.mapErr_ok]
  refine Action.wp_of_ok hrun ⟨h.withLedger _ (fun x => ?_) (fun x e hx he => ?_) ?_ ?_, rfl⟩
  · rw [lookup_insert]
    by_cases hx : x = Account.pool
    · simp [hx, hb]
    · simp [hx]
  · simp only [lookup_insert, reduceCtorEq, if_false]
    exact h.done_empty x e hx he
  · have htotal := FuelLedger.circulating_insert (b + amount) hb
    have := h.conserved
    simp only [FuelLedger.Conserved, FuelLedger.circulating] at this htotal ⊢
    omega
  · have htotal := FuelLedger.circulating_insert (b + amount) hb
    simp only [FuelLedger.circulating] at htotal hmax ⊢
    omega

/-- A transfer between the pool and a live task moves the amount or is refused
for want of it: it never overflows. -/
theorem transfer_spec (h : s.Consistent) {t : TaskId} {entry : Task} {src dst : Account}
    (ht : s.tasks[t]? = some entry) (hlive : entry.state ≠ .done)
    (hpair : (src = .pool ∧ dst = .task t) ∨ (src = .task t ∧ dst = .pool)) (amount : Nat) :
    ((onLedger (FuelLedger.transfer src dst amount)).mapErr fuelErr).wp s
      (fun _ s' => Kept s s') (Refused s) := by
  obtain ⟨a, b, ha, hb, hsum⟩ := h.accounts ht
  obtain ⟨c, d, hc, hd, hne, hfit⟩ : ∃ c d, s.ledger.balances[src]? = some c ∧
      s.ledger.balances[dst]? = some d ∧ src ≠ dst ∧ c + d ≤ Fuel.max := by
    rcases hpair with ⟨rfl, rfl⟩ | ⟨rfl, rfl⟩
    · exact ⟨b, a, hb, ha, by simp, by omega⟩
    · exact ⟨a, b, ha, hb, by simp, hsum⟩
  have htransfer := FuelLedger.transfer_of_open amount h.conserved hne hc hd hfit
  by_cases hle : amount ≤ c
  · rw [if_pos hle] at htransfer
    have hrun : (onLedger (FuelLedger.transfer src dst amount)).mapErr fuelErr s =
        ((.ok (), { s with ledger := { s.ledger with
          balances := (s.ledger.balances.insert src (c - amount)).insert dst (d + amount) } }) :
          Outcome SchedError Unit × Scheduler P) := by
      simp only [Action.mapErr_apply, onLedger_apply, htransfer, Outcome.mapErr_ok]
    refine Action.wp_of_ok hrun ⟨h.afterTransfer hne hc hd hle (fun x e hx he => ?_), rfl⟩
    · have hxt : x ≠ t := by
        rintro rfl
        rw [ht] at hx
        cases hx
        exact hlive he
      rcases hpair with ⟨rfl, rfl⟩ | ⟨rfl, rfl⟩
      · simp [hxt]
      · simp [hxt]
  · rw [if_neg hle] at htransfer
    have hrun : (onLedger (FuelLedger.transfer src dst amount)).mapErr fuelErr s =
        ((.error (.err (.insufficientFuel amount c)), s) :
          Outcome SchedError Unit × Scheduler P) := by
      simp only [Action.mapErr_apply, onLedger_apply, htransfer, Outcome.fail,
        Outcome.mapErr_err, fuelErr]
    exact Action.wp_of_error hrun ⟨rfl, by simp⟩

theorem donate_spec (h : s.Consistent) (t : TaskId) (amount : Nat) :
    (donate t amount).wp s (fun _ s' => Kept s s') (Refused s) := by
  cases ht : s.tasks[t]? with
  | none =>
    have hrun : donate t amount s = (.error (.err (.noSuchTask t)), s) := by
      simp only [donate, Action.bind_apply, Action.query_apply, state_of_not_mem ht]
    exact Action.wp_of_error hrun ⟨rfl, by simp⟩
  | some entry =>
    have hstate := state_of_mem ht
    by_cases hdone : entry.state = .done
    · have hrun : donate t amount s = (.error (.err (.taskDone t)), s) := by
        simp only [donate, Action.bind_apply, Action.query_apply, hstate, hdone,
          Action.fail_apply]
      exact Action.wp_of_error hrun ⟨rfl, by simp⟩
    · have hrun : donate t amount s =
          (onLedger (FuelLedger.transfer .pool (.task t) amount)).mapErr fuelErr s := by
        simp only [donate, Action.bind_apply, Action.query_apply, hstate]
        cases hst : entry.state with
        | done => exact absurd hst hdone
        | _ => rfl
      unfold Action.wp
      rw [hrun]
      exact transfer_spec h ht hdone (Or.inl ⟨rfl, rfl⟩) amount

theorem reclaim_spec (h : s.Consistent) (t : TaskId) (amount : Nat) :
    (reclaim t amount).wp s (fun _ s' => Kept s s') (Refused s) := by
  cases ht : s.tasks[t]? with
  | none =>
    have hrun : reclaim t amount s = (.error (.err (.noSuchTask t)), s) := by
      simp only [reclaim, Action.bind_apply, Action.query_apply, state_of_not_mem ht]
    exact Action.wp_of_error hrun ⟨rfl, by simp⟩
  | some entry =>
    have hstate := state_of_mem ht
    have hmoves : entry.state = .runnable ∨ entry.state = .blocked → reclaim t amount s =
        (onLedger (FuelLedger.transfer (.task t) .pool amount)).mapErr fuelErr s := by
      intro hst
      simp only [reclaim, Action.bind_apply, Action.query_apply, hstate]
      rcases hst with hst | hst <;> rw [hst]
    cases hst : entry.state with
    | running =>
      have hrun : reclaim t amount s = (.error (.err (.running t)), s) := by
        simp only [reclaim, Action.bind_apply, Action.query_apply, hstate, hst,
          Action.fail_apply]
      exact Action.wp_of_error hrun ⟨rfl, by simp⟩
    | done =>
      have hrun : reclaim t amount s = (.error (.err (.taskDone t)), s) := by
        simp only [reclaim, Action.bind_apply, Action.query_apply, hstate, hst,
          Action.fail_apply]
      exact Action.wp_of_error hrun ⟨rfl, by simp⟩
    | runnable =>
      unfold Action.wp
      rw [hmoves (Or.inl hst)]
      exact transfer_spec h ht (by simp [hst]) (Or.inr ⟨rfl, rfl⟩) amount
    | blocked =>
      unfold Action.wp
      rw [hmoves (Or.inr hst)]
      exact transfer_spec h ht (by simp [hst]) (Or.inr ⟨rfl, rfl⟩) amount

theorem exportFuel_spec (h : s.Consistent) (amount : Nat) :
    (exportFuel amount).wp s (fun _ s' => Kept s s') (Refused s) := by
  obtain ⟨b, hb⟩ := Option.isSome_iff_exists.mp h.pool_open
  have hexport := FuelLedger.exportFuel_of_open amount h.conserved hb
  by_cases hle : amount ≤ b
  swap
  · have hrun : exportFuel amount s = (.error (.err (.insufficientFuel amount b)), s) := by
      simp only [exportFuel, Action.mapErr_apply, onLedger_apply, hexport, hle, if_false,
        Outcome.fail, Outcome.mapErr_err, fuelErr]
    exact Action.wp_of_error hrun ⟨rfl, by simp⟩
  by_cases hlife : s.ledger.exported + amount < 2 ^ 128
  swap
  · have hrun : (exportFuel amount s).1 = .error (.panic overflowSite) := by
      simp only [exportFuel, Action.mapErr_apply, onLedger_apply, hexport, hle, if_true, hlife,
        if_false, Outcome.panic, Outcome.mapErr]
    exact Action.wp_of_error (Prod.ext hrun rfl) rfl
  rw [if_pos hle, if_pos hlife] at hexport
  have hrun : exportFuel amount s = (.ok (), { s with ledger := { s.ledger with
      balances := s.ledger.balances.insert Account.pool (b - amount)
      exported := s.ledger.exported + amount } }) := by
    simp only [exportFuel, Action.mapErr_apply, onLedger_apply, hexport, Outcome.mapErr_ok]
  have htotal := FuelLedger.circulating_insert (b - amount) hb
  refine Action.wp_of_ok hrun ⟨h.withLedger _ (fun x => ?_) (fun x e hx he => ?_) ?_ ?_, rfl⟩
  · rw [lookup_insert]
    by_cases hx : x = Account.pool
    · simp [hx, hb]
    · simp [hx]
  · simp only [lookup_insert, reduceCtorEq, if_false]
    exact h.done_empty x e hx he
  · have := h.conserved
    simp only [FuelLedger.Conserved, FuelLedger.circulating] at this htotal ⊢
    omega
  · have := h.bounded
    simp only [FuelLedger.circulating] at this htotal ⊢
    omega

end Scheduler

end Eo9.Sched
