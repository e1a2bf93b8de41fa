import Eo9.Gate.Intake

/-!
# Severance

Each call is answered at most once, with what its own operation returned or with a severance
error, and no caller is left waiting on a share whose owner has no live run.
-/

namespace Eo9.Gate

open Eo9.Library

variable {config : Config} {g g' g'' : Gate} {call : Nat} {calls : List Nat}

theorem mem_of_lookup {α β : Type*} [BEq α] [LawfulBEq α] {a : α} {b : β} {l : List (α × β)}
    (h : l.lookup a = some b) : (a, b) ∈ l := by
  obtain ⟨l₁, l₂, heq, -⟩ := List.lookup_eq_some_iff.mp h
  rw [heq]
  exact List.mem_append_right l₁ List.mem_cons_self

/-! ## What changes the cells -/

/-- The calls of a list are over: with a result, or severed; the waiting ones are rung. -/
structure Settles (g : Gate) (calls : List Nat) (g' : Gate) : Prop where
  same : g' = { g with calls := g'.calls, rung := g'.rung, finished := g'.finished }
  others : ∀ call ∉ calls, g'.calls call = g.calls call
  settled : ∀ call ∈ calls, (g'.calls call).state.unfinished = false
  share : ∀ call, (g'.calls call).share = (g.calls call).share
  rung : ∀ call ∈ g.rung, call ∈ g'.rung
  wakes : ∀ call ∈ calls, (g.calls call).state.unfinished → (g.calls call).waker = true →
    call ∈ g'.rung
  finished : ∀ result ∈ g.finished, result ∈ g'.finished
  payload : ∀ call done, (g'.calls call).state = .done (some done) →
    (g.calls call).state = .done (some done) ∨ (call, .ok done) ∈ g'.finished

namespace Settles

theorem refl (g : Gate) : Settles g [] g where
  same := rfl
  others _ _ := rfl
  settled _ h := absurd h List.not_mem_nil
  share _ := rfl
  rung _ h := h
  wakes _ h := absurd h List.not_mem_nil
  finished _ h := h
  payload _ _ h := .inl h

theorem trans {more : List Nat} (h : Settles g calls g') (h' : Settles g' more g'') :
    Settles g (calls ++ more) g'' where
  same := by rw [h'.same, h.same]
  others call hcall := by
    rw [List.mem_append, not_or] at hcall
    rw [h'.others call hcall.2, h.others call hcall.1]
  settled call hcall := by
    by_cases hmore : call ∈ more
    · exact h'.settled call hmore
    · rw [h'.others call hmore]
      exact h.settled call ((List.mem_append.mp hcall).resolve_right hmore)
  share call := (h'.share call).trans (h.share call)
  rung call hcall := h'.rung call (h.rung call hcall)
  wakes call hcall hstate hwaker := by
    by_cases hearlier : call ∈ calls
    · exact h'.rung call (h.wakes call hearlier hstate hwaker)
    · have hsame := h.others call hearlier
      exact h'.wakes call ((List.mem_append.mp hcall).resolve_left hearlier)
        (by rwa [hsame]) (by rwa [hsame])
  finished result hresult := h'.finished result (h.finished result hresult)
  payload call done hstate := by
    rcases h'.payload call done hstate with hmid | hlast
    · exact (h.payload call done hmid).imp_right (h'.finished _)
    · exact .inr hlast

end Settles

theorem Gate.settles_finish (g : Gate) (call : Nat) (done : Except String GateDone) :
    Settles g [call] (g.finish call done) := by
  constructor
  · rfl
  all_goals
    simp only [Gate.finish, Gate.ring, Gate.onCall, Function.update_apply, List.mem_singleton]
    cases done <;> grind [CallState.unfinished]

theorem Gate.settles_sever (g : Gate) (reason : String) (call : Nat) :
    Settles g [call] (g.sever reason call) := by
  rw [Gate.sever.eq_def]
  split
  case h_1 hdone =>
    constructor <;> grind [CallState.unfinished]
  case h_2 hstate =>
    constructor
    · rfl
    all_goals
      simp only [Gate.ring, Gate.onCall, Function.update_apply, List.mem_singleton]
      grind [CallState.unfinished]

theorem Gate.settles_foldl_sever (g : Gate) (reason : String) (calls : List Nat) :
    Settles g calls (calls.foldl (fun g call => g.sever reason call) g) := by
  induction calls generalizing g with
  | nil => exact .refl g
  | cons call calls ih => exact (g.settles_sever reason call).trans (ih _)

/-- The steps that only touch the tables, the tasks and the children: each share keeps its
owner and its calls. -/
structure SameCalls (g g' : Gate) : Prop where
  same : g' = { g with
    shares := g'.shares, children := g'.children, mints := g'.mints, killed := g'.killed }
  service : ∀ share, (g'.shares share).service = (g.shares share).service
  severed : ∀ share, (g'.shares share).severed = (g.shares share).severed
  queue : ∀ share, (g'.shares share).queue = (g.shares share).queue
  live : ∀ share, (g'.shares share).live = (g.shares share).live

namespace SameCalls

theorem refl (g : Gate) : SameCalls g g := ⟨rfl, fun _ => rfl, fun _ => rfl, fun _ => rfl,
  fun _ => rfl⟩

theorem trans (h : SameCalls g g') (h' : SameCalls g' g'') : SameCalls g g'' where
  same := by rw [h'.same, h.same]
  service share := (h'.service share).trans (h.service share)
  severed share := (h'.severed share).trans (h.severed share)
  queue share := (h'.queue share).trans (h.queue share)
  live share := (h'.live share).trans (h.live share)

end SameCalls

/-- The children and the mints count for nothing there. -/
theorem SameCalls.minted (h : SameCalls g g') (children : Nat → Option GrantHandle)
    (mints : Nat) : SameCalls g { g' with children := children, mints := mints } where
  same := by rw [h.same]
  service := h.service
  severed := h.severed
  queue := h.queue
  live := h.live

/-- A change of the grants of one share. -/
theorem Gate.sameCalls_onShare (g : Gate) (share : Nat) {f : Share → Share}
    (hf : ∀ s, f s = { s with grants := (f s).grants }) : SameCalls g (g.onShare share f) := by
  constructor
  · rfl
  all_goals
    intro other
    simp only [Gate.onShare, Function.update_apply]
    split
    · rename_i h
      rw [h, hf]
    · rfl

theorem Gate.sameCalls_mintConsoleGrant {handle : Option GrantHandle}
    (h : g.mintConsoleGrant config = .ok (handle, g')) : SameCalls g g' := by
  rw [Gate.mintConsoleGrant] at h
  split at h
  case h_1 =>
    obtain ⟨-, rfl⟩ := Prod.mk.inj (Except.ok.inj h)
    exact .refl g
  case h_2 share hshare =>
    split at h
    case isTrue => exact absurd h nofun
    case isFalse =>
      obtain ⟨-, rfl⟩ := Prod.mk.inj (Except.ok.inj h)
      refine SameCalls.minted ?_ _ _
      apply Gate.sameCalls_onShare
      exact fun _ => rfl

/-! ## The invariant -/

/-- Every caller is attended to: what the registry and the cells keep in step. -/
structure Attended (config : Config) (g : Gate) : Prop where
  wired : ∀ share service, (g.shares share).service = some service →
    ∃ run, g.services service = some run ∧ run.share = share
  declared : ∀ share, (g.shares share).service.isSome → share < config.shares.length
  severed : ∀ share, (g.shares share).severed = (g.shares share).service.isNone
  queued : ∀ share, ∀ call ∈ (g.shares share).queue, (g.calls call).share = share ∧
    call < g.submitted ∧ (g.calls call).state = .enqueued ∧ call ∉ g.withdrawn
  living : ∀ share, ∀ call ∈ (g.shares share).live,
    (g.calls call).share = share ∧ call < g.submitted
  distinct : ∀ share, (g.shares share).queue.Nodup
  flying : ∀ service run, g.services service = some run → ∀ entry ∈ run.inFlight,
    entry.1 ∈ g.entered
  entered : ∀ call ∈ g.entered, call < g.submitted ∧ (g.calls call).state ≠ .enqueued
  withdrawn : ∀ call ∈ g.withdrawn, call < g.submitted ∧ call ∉ g.entered
  called : ∀ call, (g.callers call).isSome → call < g.submitted
  waiting : ∀ call, (g.callers call).isSome → (g.calls call).state.unfinished →
    (g.shares (g.calls call).share).service.isSome ∧ call ∈ (g.shares (g.calls call).share).live
  waker : ∀ call, g.callers call = some .parked → (g.calls call).state.unfinished →
    (g.calls call).waker = true
  woken : ∀ call, g.callers call = some .parked → (g.calls call).state.unfinished = false →
    call ∈ g.rung
  once : (g.resolved.map Prod.fst).Nodup
  answered : ∀ answer ∈ g.resolved, answer.1 < g.submitted ∧ g.callers answer.1 = none
  payload : ∀ call done, (g.calls call).state = .done (some done) → (call, .ok done) ∈ g.finished
  own : ∀ call done, (call, .ok done) ∈ g.resolved → (call, .ok done) ∈ g.finished
  errors : ∀ call e, (call, .error e) ∈ g.resolved → ∃ reason, e = severedError reason

theorem attended_boot : Attended config .boot := by
  constructor <;> simp [Gate.boot]

namespace Attended

theorem sameCalls (h : Attended config g) (hsame : SameCalls g g') : Attended config g' := by
  rw [hsame.same]
  constructor <;> simp only [hsame.service, hsame.severed, hsame.queue, hsame.live]
  exacts [h.wired, h.declared, h.severed, h.queued, h.living, h.distinct, h.flying,
    h.entered, h.withdrawn, h.called, h.waiting, h.waker, h.woken, h.once, h.answered, h.payload, h.own,
    h.errors]

/-- The calls that are in no queue may be over at any time. -/
theorem settles (h : Attended config g) (hsettles : Settles g calls g')
    (hqueue : ∀ share, ∀ call ∈ calls, call ∉ (g.shares share).queue) : Attended config g' := by
  -- a call that is still unfinished is not one of those
  have hkept : ∀ call, (g'.calls call).state.unfinished → g'.calls call = g.calls call := by
    intro call hstate
    refine hsettles.others call fun hcall => ?_
    rw [hsettles.settled call hcall] at hstate
    exact Bool.false_ne_true hstate
  rw [hsettles.same]
  refine { h with
    queued := ?queued, living := ?living, entered := ?entered, waiting := ?waiting
    waker := ?waker, woken := ?woken, payload := ?payload, own := ?own }
  case queued =>
    intro share call hcall
    have hsamecall := hsettles.others call fun hin => hqueue share call hin hcall
    simpa only [hsamecall] using h.queued share call hcall
  case living =>
    intro share call hcall
    simpa only [hsettles.share] using h.living share call hcall
  case entered =>
    intro call hcall
    refine ⟨(h.entered call hcall).1, fun hstate => ?_⟩
    have hsamecall := hkept call (by rw [hstate]; rfl)
    exact (h.entered call hcall).2 (by rw [← hsamecall, hstate])
  case waiting =>
    intro call hcaller hstate
    have hsamecall := hkept call hstate
    simp only [hsamecall] at hstate ⊢
    exact h.waiting call hcaller hstate
  case waker =>
    intro call hcaller hstate
    have hsamecall := hkept call hstate
    simp only [hsamecall] at hstate ⊢
    exact h.waker call hcaller hstate
  case woken =>
    intro call hcaller hstate
    by_cases hbefore : (g.calls call).state.unfinished
    · have hcall : call ∈ calls := by
        by_contra hcall
        rw [← hsettles.others call hcall, hstate] at hbefore
        exact Bool.false_ne_true hbefore
      exact hsettles.wakes call hcall hbefore (h.waker call hcaller hbefore)
    · exact hsettles.rung call (h.woken call hcaller (Bool.eq_false_iff.mpr hbefore))
  case payload =>
    intro call done hstate
    rcases hsettles.payload call done hstate with hbefore | hnow
    · exact hsettles.finished _ (h.payload call done hbefore)
    · exact hnow
  case own =>
    intro call done hin
    exact hsettles.finished _ (h.own call done hin)

/-! ### The runs and the shares -/

theorem onRun (h : Attended config g) (service : Nat) {f : OwnerRun → OwnerRun}
    (hshare : ∀ run, (f run).share = run.share)
    (hflying : ∀ run, g.services service = some run →
      ∀ entry ∈ (f run).inFlight, entry.1 ∈ g.entered) :
    Attended config (g.onRun service f) := by
  refine { h with wired := ?_, flying := ?_ }
  · intro share service' hservice
    obtain ⟨run, hrun, hof⟩ := h.wired share service' hservice
    simp only [Gate.onRun, Function.update_apply]
    split
    case isTrue heq =>
      subst heq
      exact ⟨f run, by rw [hrun]; rfl, by rw [hshare, hof]⟩
    case isFalse => exact ⟨run, hrun, hof⟩
  · intro service' run hrun entry hentry
    simp only [Gate.onRun, Function.update_apply] at hrun
    split at hrun
    case isTrue heq =>
      obtain ⟨run, hbefore, rfl⟩ := Option.map_eq_some_iff.mp hrun
      exact hflying run hbefore entry hentry
    case isFalse => exact h.flying service' run hrun entry hentry

/-- The queue of a share is taken away. -/
theorem unqueue (h : Attended config g) (share : Nat) (intakeWaker : Bool) :
    Attended config
      (g.onShare share fun s => { s with queue := [], intakeWaker := intakeWaker }) := by
  have hall := h
  cases hall
  refine { h with
    wired := ?_, declared := ?_, severed := ?_, queued := ?_, living := ?_, distinct := ?_
    waiting := ?_ }
  all_goals
    simp only [Gate.onShare, Function.update_apply]
    grind

/-- A call that is over leaves the live list. -/
theorem unlive (h : Attended config g) (share : Nat)
    (hstate : (g.calls call).state.unfinished = false) :
    Attended config
      (g.onShare share fun s => { s with live := s.live.filter (· ≠ call) }) := by
  have hall := h
  cases hall
  refine { h with
    wired := ?_, declared := ?_, severed := ?_, queued := ?_, living := ?_, distinct := ?_
    waiting := ?_ }
  all_goals
    simp only [Gate.onShare, Function.update_apply]
    grind

/-! ### The intake -/

/-- A call that its share handed over enters the owner. -/
theorem takeOp (h : Attended config g) (hlt : call < g.submitted)
    (hstate : (g.calls call).state = .enqueued)
    (hqueue : ∀ share, call ∉ (g.shares share).queue) (hwithdrawn : call ∉ g.withdrawn) :
    Attended config (g.takeOp call).2 := by
  have hall := h
  cases hall
  refine { h with
    queued := ?_, living := ?_, flying := ?_, entered := ?_, withdrawn := ?_, waiting := ?_
    waker := ?_, woken := ?_, payload := ?_ }
  all_goals
    simp only [Gate.takeOp, Gate.onCall, Function.update_apply]
    grind [CallState.unfinished]

theorem complete (h : Attended config g) (share : Nat) (hentered : call ∈ g.entered)
    (result : Except String GateDone) : Attended config (g.complete share call result) := by
  have hsettles := g.settles_finish call result
  have hqueue : ∀ share, ∀ other ∈ [call], other ∉ (g.shares share).queue := by
    intro share other hother hin
    rw [List.mem_singleton.mp hother] at hin
    exact (h.entered call hentered).2 (h.queued share call hin).2.2.1
  exact (h.settles hsettles hqueue).unlive share (hsettles.settled call List.mem_cons_self)

end Attended

/-- A call that left its queue and has not been started. -/
structure Startable (g : Gate) (call : Nat) : Prop where
  lt : call < g.submitted
  state : (g.calls call).state = .enqueued
  queue : ∀ share, call ∉ (g.shares share).queue
  withdrawn : call ∉ g.withdrawn

theorem Gate.buildCallFuture_snd (g : Gate) (run : OwnerRun) (call : Nat) :
    (g.buildCallFuture run call).2 = (g.takeOp call).2 := by
  fun_cases Gate.buildCallFuture <;> rfl

/-- The start of a call leaves the others startable. -/
theorem Startable.start {other : Nat} (h : Startable g other) (service : Nat)
    (hne : other ≠ call) : Startable (g.start service call) other := by
  obtain ⟨hlt, hstate, hqueue, hwithdrawn⟩ := h
  fun_cases Gate.start
  case case1 => exact ⟨hlt, hstate, hqueue, hwithdrawn⟩
  case case2 run hrun built future hbuilt =>
    rw [Gate.buildCallFuture_snd]
    refine ⟨hlt, ?_, hqueue, hwithdrawn⟩
    simpa [Gate.onRun, Gate.takeOp, Gate.onCall, Function.update_of_ne hne] using hstate
  case case3 run hrun built reason hbuilt =>
    rw [Gate.buildCallFuture_snd]
    refine ⟨hlt, ?_, fun share => ?_, hwithdrawn⟩
    · simpa [Gate.complete, Gate.finish, Gate.ring, Gate.onShare, Gate.takeOp, Gate.onCall,
        Function.update_of_ne hne] using hstate
    · simp only [Gate.complete, Gate.finish, Gate.ring, Gate.onShare, Gate.takeOp, Gate.onCall,
        Function.update_apply]
      split <;> exact hqueue _

theorem Attended.start (h : Attended config g) (service : Nat) (hcall : Startable g call) :
    Attended config (g.start service call) := by
  have htaken := h.takeOp hcall.lt hcall.state hcall.queue hcall.withdrawn
  have hentered : call ∈ (g.takeOp call).2.entered := List.mem_cons_self
  fun_cases Gate.start
  case case1 => exact h
  case case2 run hrun built future hbuilt =>
    rw [Gate.buildCallFuture_snd]
    refine htaken.onRun service (fun _ => rfl) fun run hrun entry hentry => ?_
    rcases List.mem_append.mp hentry with hbefore | hnew
    · exact htaken.flying service run hrun entry hbefore
    · rw [List.mem_singleton.mp hnew]
      exact hentered
  case case3 run hrun built reason hbuilt =>
    rw [Gate.buildCallFuture_snd]
    exact htaken.complete run.share hentered (.error reason)

theorem Attended.foldl_start (h : Attended config g) (service : Nat) (calls : List Nat)
    (hcalls : ∀ call ∈ calls, Startable g call) (hdistinct : calls.Nodup) :
    Attended config (calls.foldl (fun g call => g.start service call) g) := by
  induction calls generalizing g with
  | nil => exact h
  | cons call calls ih =>
    rw [List.nodup_cons] at hdistinct
    have hfirst := hcalls call List.mem_cons_self
    refine ih (h.start service hfirst) (fun other hother => ?_) hdistinct.2
    exact (hcalls other (List.mem_cons_of_mem call hother)).start service
      fun heq => hdistinct.1 (heq ▸ hother)

theorem Attended.drain (h : Attended config g) (service : Nat) :
    Attended config (g.drain service) := by
  fun_cases Gate.drain
  case case1 => exact h
  case case2 run hrun taken =>
    refine (h.unqueue run.share true).foldl_start service _ (fun call hcall => ?_)
      (h.distinct run.share)
    obtain ⟨hshare, hlt, hstate, hwithdrawn⟩ := h.queued run.share call hcall
    refine ⟨hlt, hstate, fun share => ?_, hwithdrawn⟩
    simp only [Gate.onShare, Function.update_apply]
    split
    case isTrue => exact List.not_mem_nil
    case isFalse hne => exact fun hin => hne ((h.queued share call hin).1.symm.trans hshare)

/-- The poll of a call only touches the table of its grant. -/
theorem Gate.sameCalls_tableEnter (g : Gate) (share grant : Nat) (handle : ResourceAny) :
    SameCalls g (g.tableEnter share grant handle).2 := by
  fun_cases Gate.tableEnter
  case case1 => exact .refl g
  case case2 =>
    dsimp only
    apply Gate.sameCalls_onShare
    exact fun _ => rfl

theorem Gate.sameCalls_parse (g : Gate) (run : OwnerRun) (call : Nat) (op : GateOp)
    (returned : Returned) : SameCalls g (g.parse run call op returned).2 := by
  fun_cases Gate.parse
  all_goals first
    | exact .refl g
    | exact g.sameCalls_tableEnter ..

theorem Gate.sameCalls_callFunction (g : Gate) (run : OwnerRun) (call : Nat) (op : GateOp)
    (handle : ResourceAny) (ready : Ready) :
    SameCalls g (g.callFunction run call op handle ready).2 := by
  fun_cases Gate.callFunction
  case case1 => exact .refl g
  case case2 => exact g.sameCalls_parse ..

theorem Gate.sameCalls_mintHandler (g : Gate) (run : OwnerRun) (call : Nat) (op : GateOp)
    (ready : Ready) : SameCalls g (g.mintHandler run call op ready).2 := by
  fun_cases Gate.mintHandler
  case case1 => exact .refl g
  case case2 => exact .refl g
  case case3 =>
    refine SameCalls.trans ?_ (Gate.sameCalls_callFunction ..)
    apply Gate.sameCalls_onShare
    exact fun _ => rfl

theorem Gate.sameCalls_pollCall (g : Gate) (run : OwnerRun) (call : Nat) (ready : Ready)
    (future : CallFut) : SameCalls g (g.pollCall run call ready future).2 := by
  fun_cases Gate.pollCall
  case case1 => exact g.sameCalls_callFunction ..
  case case2 => exact g.sameCalls_mintHandler ..
  case case3 => exact g.sameCalls_mintHandler ..
  case case4 => exact g.sameCalls_callFunction ..
  case case5 => exact g.sameCalls_callFunction ..

theorem Attended.advance (h : Attended config g) (service call : Nat) (ready : Ready) :
    Attended config (g.advance service call ready) := by
  fun_cases Gate.advance
  case case1 => exact h
  case case2 => exact h
  case case3 run hrun future hlookup polled future' hpolled =>
    have hlater := h.sameCalls (g.sameCalls_pollCall run call ready future)
    refine hlater.onRun service (fun _ => rfl) fun run hrun entry hentry => ?_
    obtain ⟨before, hbefore, rfl⟩ := List.mem_map.mp hentry
    have hin := hlater.flying service run hrun before hbefore
    split
    case isTrue heq => rwa [heq] at hin
    case isFalse => exact hin
  case case4 run hrun future hlookup polled result hpolled =>
    have hsame := g.sameCalls_pollCall run call ready future
    have hlater := h.sameCalls hsame
    have hentered : call ∈ polled.2.entered := by
      rw [hsame.same]
      exact h.flying service run hrun (call, future) (mem_of_lookup hlookup)
    have hgone := hlater.onRun service
      (f := fun run => { run with inFlight := run.inFlight.filter fun entry => entry.1 ≠ call })
      (fun _ => rfl) fun run hrun entry hentry =>
        hlater.flying service run hrun entry (List.mem_of_mem_filter hentry)
    exact hgone.complete run.share hentered result

/-! ### The callers -/

namespace Attended

/-- A caller gets an answer, and waits no more. -/
theorem resolve (h : Attended config g) (hcaller : (g.callers call).isSome)
    {result : Except WitL4Error GateDone}
    (hown : ∀ done, result = .ok done → (call, .ok done) ∈ g.finished)
    (herror : ∀ e, result = .error e → ∃ reason, e = severedError reason) :
    Attended config (g.resolve call result) := by
  have hlt := h.called call hcaller
  have hfresh : call ∉ g.resolved.map Prod.fst := by
    intro hin
    obtain ⟨answer, hanswer, rfl⟩ := List.mem_map.mp hin
    rw [(h.answered answer hanswer).2] at hcaller
    exact Bool.false_ne_true hcaller
  have hcallers : ∀ other, (g.resolve call result).callers other ≠ none →
      (g.resolve call result).callers other = g.callers other := by
    intro other
    simp only [Gate.resolve, Function.update_apply]
    split
    case isTrue => exact fun hne => absurd rfl hne
    case isFalse => exact fun _ => rfl
  refine { h with
    called := ?called, waiting := ?waiting, waker := ?waker, woken := ?woken, once := ?once
    answered := ?answered, own := ?own, errors := ?errors }
  case called =>
    intro other hother
    rw [hcallers other (Option.isSome_iff_ne_none.mp hother)] at hother
    exact h.called other hother
  case waiting =>
    intro other hother
    rw [hcallers other (Option.isSome_iff_ne_none.mp hother)] at hother
    exact h.waiting other hother
  case waker =>
    intro other hother
    rw [hcallers other (hother ▸ Option.some_ne_none _)] at hother
    exact h.waker other hother
  case woken =>
    intro other hother
    rw [hcallers other (hother ▸ Option.some_ne_none _)] at hother
    exact h.woken other hother
  case once => exact List.nodup_cons.mpr ⟨hfresh, h.once⟩
  case answered =>
    intro answer hanswer
    rcases List.mem_cons.mp hanswer with rfl | hbefore
    · exact ⟨hlt, Function.update_self ..⟩
    · refine ⟨(h.answered answer hbefore).1, ?_⟩
      by_contra hne
      exact hne ((hcallers answer.1 hne).trans (h.answered answer hbefore).2)
  case own =>
    intro other done hin
    rcases List.mem_cons.mp hin with heq | hbefore
    · rw [(Prod.mk.inj heq).1]
      exact hown done (Prod.mk.inj heq).2.symm
    · exact h.own other done hbefore
  case errors =>
    intro other e hin
    rcases List.mem_cons.mp hin with heq | hbefore
    · exact herror e (Prod.mk.inj heq).2.symm
    · exact h.errors other e hbefore

/-- The payload of a call is taken. -/
theorem consume (h : Attended config g) {done : GateDone}
    (hstate : (g.calls call).state = .done (some done)) :
    Attended config (g.onCall call fun cell => { cell with state := .done none }) := by
  have hall := h
  cases hall
  refine { h with
    queued := ?_, living := ?_, entered := ?_, waiting := ?_, waker := ?_, woken := ?_
    payload := ?_ }
  all_goals
    simp only [Gate.onCall, Function.update_apply]
    grind [CallState.unfinished]

/-- The waker of a caller is stored. -/
theorem park (h : Attended config g) (call : Nat) :
    Attended config (g.onCall call fun cell => { cell with waker := true }) := by
  have hall := h
  cases hall
  refine { h with
    queued := ?_, living := ?_, entered := ?_, waiting := ?_, waker := ?_, woken := ?_
    payload := ?_ }
  all_goals
    simp only [Gate.onCall, Function.update_apply]
    grind

/-- A caller sits down with its call, or goes on in its loop. -/
theorem seat (h : Attended config g) (caller : Caller) (hlt : call < g.submitted)
    (hstate : (g.calls call).state.unfinished)
    (hservice : (g.shares (g.calls call).share).service.isSome)
    (hlive : call ∈ (g.shares (g.calls call).share).live)
    (hwaker : caller = .parked → (g.calls call).waker = true)
    (hfresh : ∀ answer ∈ g.resolved, answer.1 ≠ call) :
    Attended config { g with callers := Function.update g.callers call (some caller) } := by
  have hall := h
  cases hall
  refine { h with
    called := ?_, waiting := ?_, waker := ?_, woken := ?_, answered := ?_ }
  all_goals
    simp only [Function.update_apply]
    grind

theorem unseat (h : Attended config g) (call : Nat) :
    Attended config { g with callers := Function.update g.callers call none } := by
  have hall := h
  cases hall
  refine { h with
    called := ?_, waiting := ?_, waker := ?_, woken := ?_, answered := ?_ }
  all_goals
    simp only [Function.update_apply]
    grind

/-- A queued call without a caller is withdrawn. -/
theorem withdraw (h : Attended config g) (hcaller : g.callers call = none)
    (hlt : call < g.submitted) (hstate : (g.calls call).state = .enqueued) :
    Attended config
      { g.forget (g.calls call).share call with withdrawn := call :: g.withdrawn } := by
  have hall := h
  cases hall
  have hnodup : ∀ share, ((g.shares share).queue.filter (· ≠ call)).Nodup :=
    fun share => (h.distinct share).filter _
  refine { h with
    wired := ?_, declared := ?_, severed := ?_, queued := ?_, living := ?_, distinct := ?_
    withdrawn := ?_, waiting := ?_ }
  all_goals
    simp only [Gate.forget, Gate.onShare, Function.update_apply]
    grind

/-- A caller whose call is over takes its answer. -/
theorem takeDone (h : Attended config g) (hcaller : (g.callers call).isSome) {done : GateDone}
    (hstate : (g.calls call).state = .done (some done)) :
    Attended config
      ((g.onCall call fun cell => { cell with state := .done none }).resolve call (.ok done)) := by
  refine (h.consume hstate).resolve hcaller (fun other heq => ?_) nofun
  rw [← Except.ok.inj heq]
  exact h.payload call done hstate

theorem takeError (h : Attended config g) (hcaller : (g.callers call).isSome) (reason : String) :
    Attended config (g.resolve call (.error (severedError reason))) :=
  h.resolve hcaller nofun fun _ heq => ⟨reason, (Except.error.inj heq).symm⟩

theorem pollCaller (h : Attended config g) (hcaller : (g.callers call).isSome) :
    Attended config (g.pollCaller call) := by
  rw [Gate.pollCaller.eq_def]
  split
  case h_1 done hstate => exact h.takeDone hcaller hstate
  case h_2 => exact h.takeError hcaller _
  case h_3 reason hstate => exact h.takeError hcaller reason
  case h_4 => exact h.park call
  case h_5 => exact h.park call

theorem pump (h : Attended config g) {polls : Nat} (hcaller : g.callers call = some (.pumping polls))
    (hbound : polls ≠ Gate.MAX_POLLS) : Attended config (g.pump call polls) := by
  have hsome : (g.callers call).isSome := by rw [hcaller]; rfl
  have hseat : (g.calls call).state.unfinished → Attended config
      { g with callers := Function.update g.callers call (some (.pumping (polls + 1))) } := by
    intro hstate
    obtain ⟨hservice, hlive⟩ := h.waiting call hsome hstate
    refine h.seat _ (h.called call hsome) hstate hservice hlive nofun ?_
    intro answer hanswer heq
    rw [← heq, (h.answered answer hanswer).2] at hcaller
    exact absurd hcaller nofun
  rw [Gate.pump.eq_def, if_neg hbound]
  split
  case h_1 done hstate => exact h.takeDone hsome hstate
  case h_2 => exact h.takeError hsome _
  case h_3 reason hstate => exact h.takeError hsome reason
  all_goals
    rename_i hstate
    split
    case h_1 => exact h.takeError hsome _
    case h_2 =>
      split
      case h_1 => exact h.takeError hsome _
      case h_2 => exact hseat (by rw [hstate]; rfl)

theorem dropCaller (h : Attended config g) (hlt : call < g.submitted) :
    Attended config (g.dropCaller call) := by
  have hgone := h.unseat call
  rw [Gate.dropCaller.eq_def]
  split
  case h_1 hstate => exact hgone.withdraw (Function.update_self ..) hlt hstate
  case h_2 => exact hgone

theorem foldl_dropCaller (h : Attended config g) (calls : List Nat)
    (hlt : ∀ call ∈ calls, call < g.submitted) :
    Attended config (calls.foldl Gate.dropCaller g) := by
  induction calls generalizing g with
  | nil => exact h
  | cons call calls ih =>
    refine ih (h.dropCaller (hlt call List.mem_cons_self)) fun other hother => ?_
    have hsame : (g.dropCaller call).submitted = g.submitted := by
      rw [Gate.dropCaller.eq_def]
      split <;> rfl
    rw [hsame]
    exact hlt other (List.mem_cons_of_mem call hother)

theorem dropChild (h : Attended config g) (mint : Nat) (handle : GrantHandle) :
    Attended config (g.dropChild mint handle) := by
  have hdropped := h.foldl_dropCaller
    ((List.range g.submitted).filter fun call =>
      g.callers call = some .parked ∧ (g.calls call).mint = mint)
    fun call hcall => List.mem_range.mp (List.mem_of_mem_filter hcall)
  refine hdropped.sameCalls (SameCalls.minted ?_ _ _)
  apply Gate.sameCalls_onShare
  exact fun _ => rfl

/-! ### The registry -/

/-- A call is queued, and has no caller yet. -/
theorem submit (h : Attended config g) {mint : Nat} {handle : GrantHandle} {op : GateOp}
    (hsubmit : g.submit config mint handle op = .ok (call, g')) :
    Attended config g' ∧ call = g.submitted ∧ call < g'.submitted ∧
      (g'.calls call).state = .enqueued ∧
      (g'.shares (g'.calls call).share).service.isSome ∧
      call ∈ (g'.shares (g'.calls call).share).live ∧ g'.resolved = g.resolved := by
  rw [Gate.submit] at hsubmit
  split at hsubmit
  case isTrue => exact absurd hsubmit nofun
  case isFalse haccepts =>
    split at hsubmit
    case isTrue => exact absurd hsubmit nofun
    case isFalse =>
      obtain ⟨rfl, rfl⟩ := Prod.mk.inj (Except.ok.inj hsubmit)
      have hservice : (g.shares handle.share).service.isSome := by
        simp only [Gate.accepts, not_not, Bool.and_eq_true] at haccepts
        exact haccepts.2
      refine ⟨?_, rfl, Nat.lt_succ_self _, ?_, ?_, ?_, rfl⟩
      case refine_1 =>
        have hall := h
        cases hall
        have hnodup : ∀ share, ((g.shares share).queue ++ [g.submitted]).Nodup := by
          intro share
          refine List.nodup_append.mpr ⟨h.distinct share, List.pairwise_singleton .., ?_⟩
          intro other hin new hnew heq
          rw [heq, List.mem_singleton.mp hnew] at hin
          exact absurd (h.queued share _ hin).2.1 (Nat.lt_irrefl _)
        refine { h with
          wired := ?_, declared := ?_, severed := ?_, queued := ?_, living := ?_, distinct := ?_
          entered := ?_, withdrawn := ?_, called := ?_, waiting := ?_, waker := ?_, woken := ?_
          answered := ?_, payload := ?_ }
        all_goals
          simp only [Gate.onShare, Gate.onCall, Function.update_apply]
          grind
      case refine_2 => simp [Gate.onShare, Gate.onCall]
      case refine_3 => simpa [Gate.onShare, Gate.onCall] using hservice
      case refine_4 => simp [Gate.onShare, Gate.onCall]

/-- The caller of the call sits down. -/
theorem submitted (h : Attended config g) {mint : Nat} {handle : GrantHandle} {op : GateOp}
    (hsubmit : g.submit config mint handle op = .ok (call, g')) (parks : Bool) :
    Attended config
      (if parks then
        { g' with callers := Function.update g'.callers call (some .parked) }.pollCaller call
      else { g' with callers := Function.update g'.callers call (some (.pumping 0)) }) := by
  obtain ⟨hqueued, hcall, hlt, hstate, hservice, hlive, hresolved⟩ := h.submit hsubmit
  have hunfinished : (g'.calls call).state.unfinished := by rw [hstate]; rfl
  have hfresh : ∀ answer ∈ g'.resolved, answer.1 ≠ call := by
    rw [hresolved, hcall]
    exact fun answer hanswer => Nat.ne_of_lt (h.answered answer hanswer).1
  split
  case isTrue =>
    have hpoll : Gate.pollCaller
          { g' with callers := Function.update g'.callers call (some .parked) } call =
        { g'.onCall call fun cell => { cell with waker := true } with
          callers := Function.update g'.callers call (some .parked) } := by
      rw [Gate.pollCaller.eq_def]
      dsimp only
      rw [hstate]
      rfl
    rw [hpoll]
    have hself : (g'.onCall call fun cell => { cell with waker := true }).calls call =
        { g'.calls call with waker := true } := Function.update_self ..
    refine (hqueued.park call).seat .parked hlt ?_ ?_ ?_ (fun _ => ?_) hfresh
    all_goals rw [hself]
    exacts [hunfinished, hservice, hlive]
  case isFalse => exact hqueued.seat _ hlt hunfinished hservice hlive nofun hfresh

/-- A run starts for a share that nobody waits on. -/
theorem openRun (h : Attended config g) {share service : Nat} (hshare : share < config.shares.length)
    (hfree : g.services service = none) (hidle : g.waitingOn share = []) (dnsServers : Bool) :
    Attended config (g.openRun share service dnsServers) := by
  have hnone : ∀ call, (g.callers call).isSome → (g.calls call).state.unfinished →
      (g.calls call).share ≠ share := by
    intro call hcaller hstate heq
    have hin : call ∈ g.waitingOn share := by
      simp only [Gate.waitingOn, List.mem_filter, List.mem_range]
      exact ⟨h.called call hcaller, by simp [hcaller, hstate, heq]⟩
    rw [hidle] at hin
    exact List.not_mem_nil hin
  have hall := h
  cases hall
  refine { h with
    wired := ?wired, declared := ?_, severed := ?_, queued := ?_, living := ?_, distinct := ?_
    flying := ?_, waiting := ?_ }
  case wired =>
    intro other service'
    simp only [Gate.openRun, Gate.wireOwner, Gate.onShare, Function.update_apply]
    split
    case isTrue heq =>
      rintro ⟨⟩
      exact ⟨_, if_pos rfl, heq.symm⟩
    case isFalse hne =>
      intro hservice
      obtain ⟨run, hrun, hof⟩ := h.wired other service' hservice
      refine ⟨run, (if_neg fun heq => ?_).trans hrun, hof⟩
      rw [heq, hfree] at hrun
      exact Option.some_ne_none run hrun.symm
  all_goals
    simp only [Gate.openRun, Gate.wireOwner, Gate.onShare, Function.update_apply]
    grind

end Attended

/-- Where the shares and the services stand does not matter to what is severed. -/
theorem Gate.foldl_sever_with (g : Gate) (reason : String) (calls : List Nat)
    (shares : Nat → Share) (services : Nat → Option OwnerRun) (orphaned : List Nat) :
    calls.foldl (fun g call => g.sever reason call)
        { g with shares := shares, services := services, orphaned := orphaned } =
      { calls.foldl (fun g call => g.sever reason call) g with
        shares := shares, services := services, orphaned := orphaned } := by
  induction calls generalizing g with
  | nil => rfl
  | cons call calls ih =>
    have hstep : Gate.sever
          { g with shares := shares, services := services, orphaned := orphaned } reason call =
        { g.sever reason call with
          shares := shares, services := services, orphaned := orphaned } := by
      rw [Gate.sever.eq_def, Gate.sever.eq_def]
      dsimp only
      split <;> rfl
    rw [List.foldl_cons, hstep, ih, List.foldl_cons]

theorem Gate.foldl_sever_shares (g : Gate) (reason : String) (calls : List Nat)
    (shares : Nat → Share) :
    calls.foldl (fun g call => g.sever reason call) { g with shares := shares } =
      { calls.foldl (fun g call => g.sever reason call) g with shares := shares } := by
  have hsame := (g.settles_foldl_sever reason calls).same
  have hwith := g.foldl_sever_with reason calls shares g.services g.orphaned
  rw [hsame] at hwith ⊢
  exact hwith

/-- The run of a share ends: its queue goes, its calls are severed, and then the share and the
run are gone. -/
theorem Gate.endRun_of_wired (g : Gate) {service share : Nat} (reason : String)
    (h : g.wiredShare config service = some share) : ∃ killed,
    g.endRun config service reason =
      { ((g.shares share).queue ++ (g.shares share).live).foldl
          (fun g call => g.sever reason call)
          (g.onShare share fun s => { s with queue := [], intakeWaker := false }) with
        shares := Function.update g.shares share
          { g.shares share with
            severed := true
            service := none
            intakeWaker := false
            queue := []
            live := []
            grants := [] }
        services := Function.update g.services service none
        killed := killed
        orphaned := g.waitingOn share ++ g.orphaned } := by
  have hwired : Gate.wiredShare { g with
      services := Function.update g.services service none
      orphaned := (some share).elim [] g.waitingOn ++ g.orphaned } config service = some share := h
  refine ⟨(g.endRun config service reason).killed, ?_⟩
  generalize hk : (g.endRun config service reason).killed = killed
  rw [Gate.endRun, Gate.onOwnerRunEnded.eq_def, h, hwired] at hk ⊢
  dsimp only [Option.elim, Gate.onShare] at hk ⊢
  rw [← hk, g.foldl_sever_with, g.foldl_sever_shares reason _
    (Function.update g.shares share { g.shares share with queue := [], intakeWaker := false })]

namespace Attended

/-- The run of a share ends, once none of its calls is unfinished. -/
theorem unwire (h : Attended config g) {share service : Nat}
    (hservice : (g.shares share).service = some service)
    (hover : ∀ call ∈ (g.shares share).live, (g.calls call).state.unfinished = false)
    (killed orphaned : List Nat) :
    Attended config { g with
      shares := Function.update g.shares share
        { g.shares share with
          severed := true
          service := none
          intakeWaker := false
          queue := []
          live := []
          grants := [] }
      services := Function.update g.services service none
      killed := killed
      orphaned := orphaned } := by
  obtain ⟨run, hrun, hof⟩ := h.wired share service hservice
  have hall := h
  cases hall
  refine { h with
    wired := ?_, declared := ?_, severed := ?_, queued := ?_, living := ?_, distinct := ?_
    flying := ?_, waiting := ?_ }
  all_goals
    simp only [Function.update_apply]
    grind

/-- A run that owns no share ends. -/
theorem dropRun (h : Attended config g) {service : Nat}
    (hservice : ∀ share, (g.shares share).service ≠ some service) (orphaned : List Nat) :
    Attended config { g with
      services := Function.update g.services service none
      orphaned := orphaned } := by
  have := h.wired
  have := h.flying
  refine { h with wired := ?_, flying := ?_ }
  all_goals
    simp only [Function.update_apply]
    grind

theorem endRun (h : Attended config g) (service : Nat) (reason : String) :
    Attended config (g.endRun config service reason) := by
  cases hwired : g.wiredShare config service with
  | none =>
    have hfree : ∀ share, (g.shares share).service ≠ some service := by
      intro share hservice
      have hlt := h.declared share (by rw [hservice]; rfl)
      have hnone := List.find?_eq_none.mp hwired share (List.mem_range.mpr hlt)
      exact hnone (decide_eq_true hservice)
    have hended : g.endRun config service reason = { g with
        services := Function.update g.services service none
        orphaned := (g.endRun config service reason).orphaned } := by
      have hstill : Gate.wiredShare { g with
          services := Function.update g.services service none
          orphaned := [] ++ g.orphaned } config service = none := hwired
      rw [Gate.endRun, Gate.onOwnerRunEnded.eq_def, hwired]
      dsimp only [Option.elim]
      rw [hstill]
    rw [hended]
    exact h.dropRun hfree _
  | some share =>
    have hservice : (g.shares share).service = some service := by
      simpa using List.find?_some hwired
    let idle := g.onShare share fun s => { s with queue := [], intakeWaker := false }
    let calls := (g.shares share).queue ++ (g.shares share).live
    have hidle : Attended config idle := h.unqueue share false
    have hself : idle.shares share = { g.shares share with queue := [], intakeWaker := false } :=
      Function.update_self ..
    have hsettles := idle.settles_foldl_sever reason calls
    have hqueue : ∀ other, ∀ call ∈ calls, call ∉ (idle.shares other).queue := by
      intro other call hcall hin
      have hshare : (g.calls call).share = share := by
        rcases List.mem_append.mp hcall with hqueued | hlive
        · exact (h.queued share call hqueued).1
        · exact (h.living share call hlive).1
      have hother : (g.calls call).share = other := (hidle.queued other call hin).1
      rw [← hother, hshare, hself] at hin
      exact List.not_mem_nil hin
    have hsevered := hidle.settles hsettles hqueue
    have hshares := congrArg Gate.shares hsettles.same
    have hservices := congrArg Gate.services hsettles.same
    dsimp only at hshares hservices
    have hstill : ((calls.foldl (fun g call => g.sever reason call) idle).shares share).service =
        some service := by
      rw [hshares, hself]
      exact hservice
    have hover : ∀ call ∈ ((calls.foldl (fun g call => g.sever reason call) idle).shares share).live,
        ((calls.foldl (fun g call => g.sever reason call) idle).calls call).state.unfinished =
          false := by
      intro call hcall
      rw [hshares, hself] at hcall
      exact hsettles.settled call (List.mem_append_right _ hcall)
    obtain ⟨killed, hended⟩ := g.endRun_of_wired reason hwired
    rw [hended]
    have hended := hsevered.unwire hstill hover killed (g.waitingOn share ++ g.orphaned)
    rw [hshares, hservices, hself] at hended
    simpa only [idle, Gate.onShare, Function.update_idem] using hended

end Attended

/-! ## Every run -/

/-- A share is wired again only while nobody waits on it, and no loop that pumps an owner
reaches its bound. -/
def Orderly (g : Gate) : Event → Prop
  | .openRun share _ _ => g.waitingOn share = []
  | .pump call => g.callers call ≠ some (.pumping Gate.MAX_POLLS)
  | _ => True

theorem Attended.next (h : Attended config g) {event : Event} (hstep : Step config g event g')
    (horderly : Orderly g event) : Attended config g' := by
  unfold Step at hstep
  cases event with
  | openRun share service dnsServers =>
    obtain ⟨⟨hshare, hfree⟩, heq⟩ := Option.ite_none_right_eq_some.mp hstep
    exact Option.some.inj heq ▸ h.openRun hshare hfree horderly dnsServers
  | endRun service reason =>
    obtain ⟨-, heq⟩ := Option.ite_none_right_eq_some.mp hstep
    exact Option.some.inj heq ▸ h.endRun service reason
  | mint =>
    simp only [Gate.next] at hstep
    split at hstep
    case h_1 minted hminted =>
      exact Option.some.inj hstep ▸ h.sameCalls (Gate.sameCalls_mintConsoleGrant hminted)
    case h_2 => exact Option.some.inj hstep ▸ h
  | bind mint task =>
    obtain ⟨handle, -, rfl⟩ := Option.map_eq_some_iff.mp hstep
    refine h.sameCalls ?_
    apply Gate.sameCalls_onShare
    exact fun _ => rfl
  | submit mint op parks =>
    obtain ⟨handle, -, rfl⟩ := Option.map_eq_some_iff.mp hstep
    split
    case h_1 => exact h
    case h_2 call queued hsubmit => exact h.submitted hsubmit parks
  | pollCaller call =>
    obtain ⟨hcaller, heq⟩ := Option.ite_none_right_eq_some.mp hstep
    exact Option.some.inj heq ▸ h.pollCaller (by rw [hcaller]; rfl)
  | pump call =>
    simp only [Gate.next] at hstep
    split at hstep
    case h_1 polls hcaller =>
      rw [← Option.some.inj hstep]
      exact h.pump hcaller fun hpolls => horderly (by rw [hcaller, hpolls])
    case h_2 => exact absurd hstep nofun
  | dropCaller call =>
    obtain ⟨hcaller, heq⟩ := Option.ite_none_right_eq_some.mp hstep
    exact Option.some.inj heq ▸ h.dropCaller (h.called call (by rw [hcaller]; rfl))
  | dropChild mint =>
    obtain ⟨-, heq⟩ := Option.ite_none_left_eq_some.mp hstep
    obtain ⟨handle, -, rfl⟩ := Option.map_eq_some_iff.mp heq
    exact h.dropChild mint handle
  | dropChildHandle mint rep =>
    obtain ⟨handle, -, rfl⟩ := Option.map_eq_some_iff.mp hstep
    rw [Gate.dropChildHandle.eq_def]
    split
    case isTrue => exact h
    case isFalse =>
      refine h.sameCalls ?_
      apply Gate.sameCalls_onShare
      exact fun _ => rfl
  | drain service =>
    obtain ⟨-, heq⟩ := Option.ite_none_right_eq_some.mp hstep
    exact Option.some.inj heq ▸ h.drain service
  | advance service call ready =>
    obtain ⟨-, heq⟩ := Option.ite_none_right_eq_some.mp hstep
    exact Option.some.inj heq ▸ h.advance service call ready

/-- The owner run that a share is wired to is live. -/
def Live (g : Gate) (share : Nat) : Prop :=
  ∃ service run, (g.shares share).service = some service ∧ g.services service = some run ∧
    run.share = share

/-- Each call is answered at most once, with its own result or a severance error; a withdrawn
call never entered an owner; a share takes calls while its owner is live; and whoever waits
has its call with a live owner, or was rung. -/
structure NoneStranded (g : Gate) : Prop where
  once : (g.resolved.map Prod.fst).Nodup
  own : ∀ call done, (call, .ok done) ∈ g.resolved → (call, .ok done) ∈ g.finished
  errors : ∀ call e, (call, .error e) ∈ g.resolved → ∃ reason, e = severedError reason
  withdrawn : ∀ call ∈ g.withdrawn, call ∉ g.entered
  accepts : ∀ share, g.accepts share = true ↔ Live g share
  waiting : ∀ call, (g.callers call).isSome → (g.calls call).state.unfinished →
    Live g (g.calls call).share ∧ call ∈ (g.shares (g.calls call).share).live
  woken : ∀ call, g.callers call = some .parked → (g.calls call).state.unfinished = false →
    call ∈ g.rung

theorem Attended.live_iff (h : Attended config g) (share : Nat) :
    Live g share ↔ (g.shares share).service.isSome := by
  constructor
  · rintro ⟨service, run, hservice, -⟩
    rw [hservice]
    rfl
  · intro hsome
    obtain ⟨service, hservice⟩ := Option.isSome_iff_exists.mp hsome
    obtain ⟨run, hrun, hof⟩ := h.wired share service hservice
    exact ⟨service, run, hservice, hrun, hof⟩

theorem Attended.noneStranded (h : Attended config g) : NoneStranded g where
  once := h.once
  own := h.own
  errors := h.errors
  withdrawn call hcall := (h.withdrawn call hcall).2
  accepts share := by
    rw [h.live_iff, Gate.accepts, h.severed]
    cases (g.shares share).service <;> simp
  waiting call hcaller hstate := by
    rw [h.live_iff]
    exact h.waiting call hcaller hstate
  woken := h.woken

/-- A run ends only while nobody waits on its share. -/
def Unawaited (config : Config) (g : Gate) : Event → Prop
  | .endRun service _ => (g.wiredShare config service).elim [] g.waitingOn = []
  | _ => True

theorem Gate.onOwnerRunEnded_orphaned (g : Gate) (service : Nat) (reason : String) :
    (g.onOwnerRunEnded config service reason).orphaned = g.orphaned := by
  rw [Gate.onOwnerRunEnded.eq_def]
  split
  case h_1 => rfl
  case h_2 share hshare =>
    dsimp only
    rw [(Gate.settles_foldl_sever _ reason _).same]
    rfl

theorem Gate.pollCaller_orphaned (g : Gate) (call : Nat) :
    (g.pollCaller call).orphaned = g.orphaned := by
  rw [Gate.pollCaller.eq_def]
  split <;> rfl

theorem Gate.dropCaller_orphaned (g : Gate) (call : Nat) :
    (g.dropCaller call).orphaned = g.orphaned := by
  rw [Gate.dropCaller.eq_def]
  split <;> rfl

theorem Gate.start_orphaned (g : Gate) (service call : Nat) :
    (g.start service call).orphaned = g.orphaned := by
  fun_cases Gate.start
  case case1 => rfl
  all_goals
    rw [Gate.buildCallFuture_snd]
    rfl

theorem Gate.drain_orphaned (g : Gate) (service : Nat) :
    (g.drain service).orphaned = g.orphaned := by
  fun_cases Gate.drain
  case case1 => rfl
  case case2 run hrun taken =>
    exact List.foldlRecOn (motive := fun later : Gate => later.orphaned = g.orphaned) _ _ rfl
      fun later hlater call _ => (later.start_orphaned service call).trans hlater

theorem Gate.advance_orphaned (g : Gate) (service call : Nat) (ready : Ready) :
    (g.advance service call ready).orphaned = g.orphaned := by
  fun_cases Gate.advance
  case case1 => rfl
  case case2 => rfl
  all_goals
    rename_i run _ future _ _ _ _
    have hsame := congrArg Gate.orphaned (g.sameCalls_pollCall run call ready future).same
    exact hsame

theorem Gate.dropChild_orphaned (g : Gate) (mint : Nat) (handle : GrantHandle) :
    (g.dropChild mint handle).orphaned = g.orphaned :=
  List.foldlRecOn (motive := fun later : Gate => later.orphaned = g.orphaned) _ _ rfl
    fun later hlater call _ => (later.dropCaller_orphaned call).trans hlater

/-- No other step touches a store. -/
theorem Gate.next_orphaned {event : Event} (hstep : Step config g event g')
    (hends : ∀ service reason, event ≠ .endRun service reason) : g'.orphaned = g.orphaned := by
  unfold Step at hstep
  cases event with
  | endRun service reason => exact absurd rfl (hends service reason)
  | openRun share service dnsServers =>
    obtain ⟨-, heq⟩ := Option.ite_none_right_eq_some.mp hstep
    exact Option.some.inj heq ▸ rfl
  | mint =>
    simp only [Gate.next] at hstep
    split at hstep
    case h_1 minted hminted =>
      rw [← Option.some.inj hstep, (Gate.sameCalls_mintConsoleGrant hminted).same]
    case h_2 => exact Option.some.inj hstep ▸ rfl
  | bind mint task =>
    obtain ⟨handle, -, rfl⟩ := Option.map_eq_some_iff.mp hstep
    rfl
  | submit mint op parks =>
    obtain ⟨handle, -, rfl⟩ := Option.map_eq_some_iff.mp hstep
    split
    case h_1 => rfl
    case h_2 call queued hsubmit =>
      have hsame : queued.orphaned = g.orphaned := by
        rw [Gate.submit] at hsubmit
        split at hsubmit
        case isTrue => exact absurd hsubmit nofun
        case isFalse =>
          split at hsubmit
          case isTrue => exact absurd hsubmit nofun
          case isFalse => exact (Prod.mk.inj (Except.ok.inj hsubmit)).2 ▸ rfl
      split
      case isTrue => exact (Gate.pollCaller_orphaned ..).trans hsame
      case isFalse => exact hsame
  | pollCaller call =>
    obtain ⟨-, heq⟩ := Option.ite_none_right_eq_some.mp hstep
    exact Option.some.inj heq ▸ g.pollCaller_orphaned call
  | pump call =>
    simp only [Gate.next] at hstep
    split at hstep
    case h_1 polls hcaller =>
      rw [← Option.some.inj hstep]
      fun_cases Gate.pump <;> rfl
    case h_2 => exact absurd hstep nofun
  | dropCaller call =>
    obtain ⟨-, heq⟩ := Option.ite_none_right_eq_some.mp hstep
    exact Option.some.inj heq ▸ g.dropCaller_orphaned call
  | dropChild mint =>
    obtain ⟨-, heq⟩ := Option.ite_none_left_eq_some.mp hstep
    obtain ⟨handle, -, rfl⟩ := Option.map_eq_some_iff.mp heq
    exact g.dropChild_orphaned mint handle
  | dropChildHandle mint rep =>
    obtain ⟨handle, -, rfl⟩ := Option.map_eq_some_iff.mp hstep
    rw [Gate.dropChildHandle.eq_def]
    split <;> rfl
  | drain service =>
    obtain ⟨-, heq⟩ := Option.ite_none_right_eq_some.mp hstep
    exact Option.some.inj heq ▸ g.drain_orphaned service
  | advance service call ready =>
    obtain ⟨-, heq⟩ := Option.ite_none_right_eq_some.mp hstep
    exact Option.some.inj heq ▸ g.advance_orphaned service call ready

/-- A step strands the callers that wait when a store goes, and no others. -/
theorem orphaned_eq_nil_iff {event : Event} (hstep : Step config g event g') :
    g'.orphaned = [] ↔ g.orphaned = [] ∧ Unawaited config g event := by
  unfold Step at hstep
  cases event with
  | endRun service reason =>
    obtain ⟨-, heq⟩ := Option.ite_none_right_eq_some.mp hstep
    rw [← Option.some.inj heq, Gate.endRun, Gate.onOwnerRunEnded_orphaned, List.append_eq_nil_iff,
      and_comm]
    rfl
  | _ =>
    rw [Gate.next_orphaned hstep nofun]
    exact (and_iff_left trivial).symm

/-- In every orderly run nobody is stranded, and each run was over for its callers before its
store went if and only if none of them ended while a caller waited. -/
theorem noneStranded_of_run {events : List Event}
    (run : Run (fun g event g' => Step config g event g' ∧ Orderly g event) .boot events g) :
    NoneStranded g ∧
      (g.orphaned = [] ↔
        Run (fun g event g' => Step config g event g' ∧ Unawaited config g event)
          .boot events g) := by
  constructor
  · have hattended : Attended config g :=
      run.invariant (fun _ _ _ h step => h.next step.1 step.2) attended_boot
    exact hattended.noneStranded
  · constructor
    · exact run.traced (p := fun events g => g.orphaned = [] → Run
          (fun g event g' => Step config g event g' ∧ Unawaited config g event) .boot events g)
        (fun events g event g' ih step hnone => by
          obtain ⟨hbefore, hnow⟩ := (orphaned_eq_nil_iff step.1).mp hnone
          exact (ih hbefore).snoc ⟨step.1, hnow⟩)
        fun _ => .nil _
    · intro hrun
      refine hrun.invariant (p := fun g => g.orphaned = []) ?_ rfl
      exact fun _ _ _ h step => (orphaned_eq_nil_iff step.1).mpr ⟨h, step.2⟩

/-! ### One call -/

def netConfig : Config where
  shares := ["net"]
  consoleUse := some ("l4", "net")

/-- The service runs, and a child asks for the resolvers and waits. -/
def asked : List Event := [.openRun 0 0 true, .mint, .submit 0 .dnsServers true, .drain 0]

def answeredEvents : List Event :=
  asked ++ [.advance 0 0 ⟨some .handler, some (.addresses [])⟩, .pollCaller 0,
    .endRun 0 "completed"]

/-- The call is answered before the service completes. -/
theorem noneStranded_of_run_answered : ∃ g, NoneStranded g ∧ g.orphaned = [] := by
  have run : ∃ g, Run (fun g event g' =>
      Step netConfig g event g' ∧ Orderly g event ∧ Unawaited netConfig g event) .boot
      answeredEvents g :=
    ⟨_, .cons ⟨rfl, rfl, trivial⟩ (.cons ⟨rfl, trivial, trivial⟩ (.cons ⟨rfl, trivial, trivial⟩
      (.cons ⟨rfl, trivial, trivial⟩ (.cons ⟨rfl, trivial, trivial⟩
        (.cons ⟨rfl, trivial, trivial⟩ (.cons ⟨rfl, trivial, rfl⟩ (.nil _)))))))⟩
  obtain ⟨g, run⟩ := run
  obtain ⟨hnone, hiff⟩ := noneStranded_of_run (run.mono fun _ _ _ step => ⟨step.1, step.2.1⟩)
  exact ⟨g, hnone, hiff.mpr (run.mono fun _ _ _ step => ⟨step.1, step.2.2⟩)⟩

/-- A service that is stopped while a caller waits loses its store before the caller is
severed. -/
theorem orphaned_by_stop :
    ¬ ∀ (config : Config) (events : List Event) (g : Gate),
      Run (Step config) .boot events g → NoneStranded g ∧ g.orphaned = [] := by
  intro h
  have run : ∃ g, Run (Step netConfig) .boot (asked ++ [.endRun 0 "stopped by the operator"]) g ∧
      g.orphaned = [0] :=
    ⟨_, .cons rfl (.cons rfl (.cons rfl (.cons rfl (.cons rfl (.nil _))))), rfl⟩
  obtain ⟨g, run, horphaned⟩ := run
  have hnone := (h _ _ g run).2
  rw [horphaned] at hnone
  exact absurd hnone (List.cons_ne_nil _ _)

end Eo9.Gate
