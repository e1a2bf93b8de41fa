import Eo9.Gate.Severance

/-!
# Isolation of the grants

A handle in the table of a grant was made by a call of the present grantee in the present run,
the first index holds the handler, a call works on the table of its own grantee, and a child
touches no grant but its own. This holds as long as no index of a grant is given out again
while a call under the earlier grant is queued or in flight, and while an earlier grantee
still uses its handle.
-/

namespace Eo9.Gate

open Eo9.Library

variable {config : Config} {g g' g'' : Gate} {share grant call : Nat} {granted : Grant}

/-! ## What a table holds -/

/-- The run that a share is wired to has a number. -/
def Present (g : Gate) (share number : Nat) : Prop :=
  ∃ service run, (g.shares share).service = some service ∧ g.services service = some run ∧
    run.number = number

/-- A handle was made for a call of the grantee, in the present run. -/
structure Owned (g : Gate) (share mint : Nat) (handle : ResourceAny) : Prop where
  lt : handle.call < g.submitted
  mint : (g.calls handle.call).mint = mint
  present : Present g share handle.run

/-- The table of a grant: the handles are the grantee's, the first one is a handler, and there
is none before the handler is there. -/
structure SoundTable (g : Gate) (share : Nat) (granted : Grant) : Prop where
  owned : ∀ rep handle, granted.table.get rep = some handle → Owned g share granted.mint handle
  root : ∀ handle, granted.table.get 0 = some handle → handle.factory = true
  first : granted.table.get 0 = none → granted.table = [none]

/-- The handle that a future holds. -/
def CallFut.handle : CallFut → Option ResourceAny
  | .root _ | .minting _ => none
  | .entry _ handle | .calling _ handle => some handle

/-- A call works for the grantee that submitted it. -/
structure Works (g : Gate) (share call : Nat) : Prop where
  lt : call < g.submitted
  place : (g.calls call).share = share
  own : ∀ granted, g.grantAt share (g.calls call).grant = some granted →
    granted.mint = (g.calls call).mint

/-- A future goes on with a handle of the grantee, once there is a handler. -/
structure Flies (g : Gate) (share call : Nat) (future : CallFut) : Prop where
  works : Works g share call
  handler : future.handle.isSome → ∀ granted,
    g.grantAt share (g.calls call).grant = some granted → (granted.table.get 0).isSome
  owned : ∀ handle ∈ future.handle, Owned g share (g.calls call).mint handle

/-- The gate keeps the grantees apart: what the registry, the tables and the calls keep in
step. -/
structure Sealed (config : Config) (g : Gate) : Prop where
  wired : ∀ share service, (g.shares share).service = some service →
    ∃ run, g.services service = some run ∧ run.share = share
  serves : ∀ service run, g.services service = some run →
    (g.shares run.share).service = some service ∧ run.share < config.shares.length
  closed : ∀ share, (g.shares share).service = none → (g.shares share).grants = []
  tables : ∀ share grant granted, g.grantAt share grant = some granted →
    SoundTable g share granted
  queued : ∀ share, ∀ call ∈ (g.shares share).queue, Works g share call
  flying : ∀ service run, g.services service = some run → ∀ entry ∈ run.inFlight,
    Flies g run.share entry.1 entry.2

theorem sealed_boot : Sealed config .boot := by
  constructor <;> simp [Gate.boot, Gate.grantAt]

/-! ## What keeps the grantees of a share apart -/

/-- A share keeps its run, and the cells of the calls keep the grant that they were submitted
under. -/
structure Holds (share : Nat) (g g' : Gate) : Prop where
  present : ∀ number, Present g share number → Present g' share number
  submitted : g.submitted ≤ g'.submitted
  cells : ∀ call < g.submitted, (g'.calls call).share = (g.calls call).share ∧
    (g'.calls call).grant = (g.calls call).grant ∧ (g'.calls call).mint = (g.calls call).mint

/-- The grant at an index was there, for the same grantee, and its handler stays. -/
def Carried (share grant : Nat) (g g' : Gate) : Prop :=
  ∀ granted, g'.grantAt share grant = some granted →
    ∃ before, g.grantAt share grant = some before ∧ granted.mint = before.mint ∧
      ((before.table.get 0).isSome → (granted.table.get 0).isSome)

namespace Holds

theorem owned (h : Holds share g g') {mint : Nat} {handle : ResourceAny}
    (howned : Owned g share mint handle) : Owned g' share mint handle where
  lt := Nat.lt_of_lt_of_le howned.lt h.submitted
  mint := (h.cells _ howned.lt).2.2.trans howned.mint
  present := h.present _ howned.present

theorem table (h : Holds share g g') (hsound : SoundTable g share granted) :
    SoundTable g' share granted where
  owned rep handle hget := h.owned (hsound.owned rep handle hget)
  root := hsound.root
  first := hsound.first

theorem works (h : Holds share g g') (hcarried : Carried share (g.calls call).grant g g')
    (hworks : Works g share call) : Works g' share call where
  lt := Nat.lt_of_lt_of_le hworks.lt h.submitted
  place := (h.cells call hworks.lt).1.trans hworks.place
  own granted hgranted := by
    obtain ⟨-, hgrant, hcellmint⟩ := h.cells call hworks.lt
    rw [hgrant] at hgranted
    obtain ⟨before, hbefore, hmint, -⟩ := hcarried granted hgranted
    rw [hmint, hcellmint]
    exact hworks.own before hbefore

theorem flies (h : Holds share g g') (hcarried : Carried share (g.calls call).grant g g')
    {future : CallFut} (hflies : Flies g share call future) : Flies g' share call future where
  works := h.works hcarried hflies.works
  handler hsome granted hgranted := by
    rw [(h.cells call hflies.works.lt).2.1] at hgranted
    obtain ⟨before, hbefore, -, hroot⟩ := hcarried granted hgranted
    exact hroot (hflies.handler hsome before hbefore)
  owned handle hhandle := by
    rw [(h.cells call hflies.works.lt).2.2]
    exact h.owned (hflies.owned handle hhandle)

end Holds

/-- A share keeps its grants too, as far as they are not released. -/
structure Keeps (share : Nat) (g g' : Gate) : Prop extends Holds share g g' where
  grants : ∀ grant, Carried share grant g g'

namespace Keeps

theorem refl (share : Nat) (g : Gate) : Keeps share g g where
  present _ h := h
  submitted := Nat.le_refl _
  cells _ _ := ⟨rfl, rfl, rfl⟩
  grants _ granted h := ⟨granted, h, rfl, id⟩

theorem trans (h : Keeps share g g') (h' : Keeps share g' g'') : Keeps share g g'' where
  present number hpresent := h'.present number (h.present number hpresent)
  submitted := Nat.le_trans h.submitted h'.submitted
  cells call hcall := by
    obtain ⟨hshare, hgrant, hmint⟩ := h.cells call hcall
    obtain ⟨hshare', hgrant', hmint'⟩ := h'.cells call (Nat.lt_of_lt_of_le hcall h.submitted)
    exact ⟨hshare'.trans hshare, hgrant'.trans hgrant, hmint'.trans hmint⟩
  grants grant granted hgranted := by
    obtain ⟨mid, hmid, hmint', hroot'⟩ := h'.grants grant granted hgranted
    obtain ⟨before, hbefore, hmint, hroot⟩ := h.grants grant mid hmid
    exact ⟨before, hbefore, hmint'.trans hmint, fun hsome => hroot' (hroot hsome)⟩

/-- What happens at other shares and other runs. -/
theorem of_same (hshares : g'.shares share = g.shares share)
    (hservices : ∀ service, (g.shares share).service = some service →
      g'.services service = g.services service)
    (hcalls : g'.calls = g.calls) (hsubmitted : g'.submitted = g.submitted) :
    Keeps share g g' where
  present number hpresent := by
    obtain ⟨service, run, hservice, hrun, hnumber⟩ := hpresent
    exact ⟨service, run, hshares ▸ hservice, (hservices service hservice).trans hrun, hnumber⟩
  submitted := Nat.le_of_eq hsubmitted.symm
  cells call _ := by rw [hcalls]; exact ⟨rfl, rfl, rfl⟩
  grants grant granted hgranted := by
    rw [Gate.grantAt, hshares] at hgranted
    exact ⟨granted, hgranted, rfl, id⟩

theorem works (h : Keeps share g g') (hworks : Works g share call) : Works g' share call :=
  h.toHolds.works (h.grants _) hworks

theorem flies (h : Keeps share g g') {future : CallFut} (hflies : Flies g share call future) :
    Flies g' share call future :=
  h.toHolds.flies (h.grants _) hflies

end Keeps

/-- The runs and the wiring stay, and nothing is queued. -/
structure Stays (g g' : Gate) : Prop where
  services : g'.services = g.services
  service : ∀ share, (g'.shares share).service = (g.shares share).service
  queue : ∀ share, ∀ call ∈ (g'.shares share).queue, call ∈ (g.shares share).queue
  closed : ∀ share, (g.shares share).grants = [] → (g'.shares share).grants = []

theorem Stays.present (h : Stays g g') {number : Nat} (hpresent : Present g share number) :
    Present g' share number := by
  obtain ⟨service, run, hservice, hrun, hnumber⟩ := hpresent
  exact ⟨service, run, (h.service share).trans hservice, by rw [h.services, hrun], hnumber⟩

theorem Sealed.stays (h : Sealed config g) (hstays : Stays g g')
    (hkeeps : ∀ share, Keeps share g g')
    (htables : ∀ share grant granted, g'.grantAt share grant = some granted →
      SoundTable g' share granted) : Sealed config g' where
  wired share service hservice := by
    rw [hstays.service] at hservice
    rw [hstays.services]
    exact h.wired share service hservice
  serves service run hrun := by
    rw [hstays.services] at hrun
    rw [hstays.service]
    exact h.serves service run hrun
  closed share hservice := by
    rw [hstays.service] at hservice
    exact hstays.closed share (h.closed share hservice)
  tables := htables
  queued share call hcall :=
    (hkeeps share).works (h.queued share call (hstays.queue share call hcall))
  flying service run hrun entry hentry := by
    rw [hstays.services] at hrun
    exact (hkeeps run.share).flies (h.flying service run hrun entry hentry)

/-! ## The cells and the lists -/

/-- What the gate does to its cells, its callers and its queues. -/
structure Still (g g' : Gate) : Prop where
  services : g'.services = g.services
  submitted : g'.submitted = g.submitted
  service : ∀ share, (g'.shares share).service = (g.shares share).service
  grants : ∀ share, (g'.shares share).grants = (g.shares share).grants
  cells : ∀ call, (g'.calls call).share = (g.calls call).share ∧
    (g'.calls call).grant = (g.calls call).grant ∧ (g'.calls call).mint = (g.calls call).mint
  queue : ∀ share, ∀ call ∈ (g'.shares share).queue, call ∈ (g.shares share).queue

namespace Still

theorem refl (g : Gate) : Still g g where
  services := rfl
  submitted := rfl
  service _ := rfl
  grants _ := rfl
  cells _ := ⟨rfl, rfl, rfl⟩
  queue _ _ h := h

theorem trans (h : Still g g') (h' : Still g' g'') : Still g g'' where
  services := h'.services.trans h.services
  submitted := h'.submitted.trans h.submitted
  service share := (h'.service share).trans (h.service share)
  grants share := (h'.grants share).trans (h.grants share)
  cells call := ⟨(h'.cells call).1.trans (h.cells call).1,
    (h'.cells call).2.1.trans (h.cells call).2.1, (h'.cells call).2.2.trans (h.cells call).2.2⟩
  queue share call hcall := h.queue share call (h'.queue share call hcall)

theorem grantAt (h : Still g g') (share grant : Nat) :
    g'.grantAt share grant = g.grantAt share grant := by
  rw [Gate.grantAt, Gate.grantAt, h.grants]

theorem stays (h : Still g g') : Stays g g' where
  services := h.services
  service := h.service
  queue := h.queue
  closed share hgrants := (h.grants share).trans hgrants

theorem keeps (h : Still g g') (share : Nat) : Keeps share g g' where
  present _ hpresent := h.stays.present hpresent
  submitted := Nat.le_of_eq h.submitted.symm
  cells call _ := h.cells call
  grants grant granted hgranted := ⟨granted, (h.grantAt share grant).symm.trans hgranted, rfl, id⟩

/-- A change of one cell that keeps where the call belongs. -/
theorem onCall (g : Gate) (call : Nat) {f : GateCall → GateCall}
    (hf : ∀ cell, (f cell).share = cell.share ∧ (f cell).grant = cell.grant ∧
      (f cell).mint = cell.mint) : Still g (g.onCall call f) :=
  { refl g with
    cells := fun other => by
      simp only [Gate.onCall, Function.update_apply]
      split
      case isTrue heq => exact heq ▸ hf _
      case isFalse => exact ⟨rfl, rfl, rfl⟩ }

/-- A change of the lists of a share that queues nothing. -/
theorem onShare (g : Gate) (share : Nat) {f : Share → Share}
    (hf : ∀ s, (f s).service = s.service ∧ (f s).grants = s.grants ∧
      ∀ call ∈ (f s).queue, call ∈ s.queue) : Still g (g.onShare share f) := by
  refine { refl g with service := ?_, grants := ?_, queue := ?_ }
  all_goals
    intro other
    simp only [Gate.onShare, Function.update_apply]
    split
  case refine_1.isTrue heq => exact heq ▸ (hf _).1
  case refine_2.isTrue heq => exact heq ▸ (hf _).2.1
  case refine_3.isTrue heq => exact heq ▸ (hf _).2.2
  case refine_3.isFalse => exact fun _ h => h
  all_goals rfl

theorem ring (g : Gate) (call : Nat) : Still g (g.ring call) := by
  have hcell := onCall g call (f := fun cell => { cell with waker := false })
    fun _ => ⟨rfl, rfl, rfl⟩
  exact { hcell with }

theorem finish (g : Gate) (call : Nat) (done : Except String GateDone) :
    Still g (g.finish call done) := by
  have hnoted : Still g { g with finished := (call, done) :: g.finished } := { refl g with }
  refine hnoted.trans (trans ?_ (ring _ call))
  exact onCall _ call fun _ => ⟨rfl, rfl, rfl⟩

theorem sever (g : Gate) (reason : String) (call : Nat) : Still g (g.sever reason call) := by
  rw [Gate.sever.eq_def]
  split
  case h_1 => exact refl g
  case h_2 =>
    refine trans ?_ (ring _ call)
    exact onCall g call fun _ => ⟨rfl, rfl, rfl⟩

theorem complete (g : Gate) (share call : Nat) (result : Except String GateDone) :
    Still g (g.complete share call result) := by
  refine trans ?_ (finish _ call result)
  exact onShare g share fun _ => ⟨rfl, rfl, fun _ h => h⟩

theorem takeOp (g : Gate) (call : Nat) : Still g (g.takeOp call).2 := by
  have hcell := onCall g call (f := fun cell => { cell with state := .inFlight, op := none })
    fun _ => ⟨rfl, rfl, rfl⟩
  exact { hcell with }

theorem pollCaller (g : Gate) (call : Nat) : Still g (g.pollCaller call) := by
  have hcell := onCall g call (f := fun cell => { cell with state := .done none })
    fun _ => ⟨rfl, rfl, rfl⟩
  rw [Gate.pollCaller.eq_def]
  split
  case h_1 => exact { hcell with }
  case h_2 => exact { refl g with }
  case h_3 => exact { refl g with }
  all_goals exact onCall g call fun _ => ⟨rfl, rfl, rfl⟩

theorem pump (g : Gate) (call polls : Nat) : Still g (g.pump call polls) := by
  have hcell := onCall g call (f := fun cell => { cell with state := .done none })
    fun _ => ⟨rfl, rfl, rfl⟩
  fun_cases Gate.pump
  case case2 => exact { hcell with }
  all_goals exact { refl g with }

theorem dropCaller (g : Gate) (call : Nat) : Still g (g.dropCaller call) := by
  have hforget := onShare g (g.calls call).share
    (f := fun s =>
      { s with queue := s.queue.filter (· ≠ call), live := s.live.filter (· ≠ call) })
    fun _ => ⟨rfl, rfl, fun _ h => List.mem_of_mem_filter h⟩
  rw [Gate.dropCaller.eq_def]
  split
  case h_1 => exact { hforget with }
  case h_2 => exact { refl g with }

theorem foldl {f : Gate → Nat → Gate} (hf : ∀ g call, Still g (f g call)) (calls : List Nat)
    (g : Gate) : Still g (calls.foldl f g) := by
  induction calls generalizing g with
  | nil => exact refl g
  | cons call calls ih => exact (hf g call).trans (ih _)

end Still

theorem Sealed.still (h : Sealed config g) (hstill : Still g g') : Sealed config g' := by
  refine h.stays hstill.stays hstill.keeps fun share grant granted hgranted => ?_
  rw [hstill.grantAt] at hgranted
  exact (hstill.keeps share).table (h.tables share grant granted hgranted)

/-! ## The tables -/

def Gate.onGrant (g : Gate) (share grant : Nat) (f : Grant → Grant) : Gate :=
  g.onShare share fun s => { s with grants := s.grants.update grant f }

theorem Gate.grantAt_onGrant_self (g : Gate) (share grant : Nat) (f : Grant → Grant) :
    (g.onGrant share grant f).grantAt share grant = (g.grantAt share grant).map f := by
  simp only [Gate.grantAt, Gate.onGrant, Gate.onShare, Function.update_self]
  exact Slots.get_update_self

theorem Gate.grantAt_onGrant_of_ne (g : Gate) {share grant share' grant' : Nat} (f : Grant → Grant)
    (hne : ¬ (share' = share ∧ grant' = grant)) :
    (g.onGrant share grant f).grantAt share' grant' = g.grantAt share' grant' := by
  simp only [Gate.grantAt, Gate.onGrant, Gate.onShare, Function.update_apply]
  split
  case isTrue heq =>
    subst heq
    exact Slots.get_update_of_ne fun hgrant => hne ⟨rfl, hgrant⟩
  case isFalse => rfl

/-- A grant after the change of one is that one changed, or was there. -/
theorem Gate.grantAt_onGrant_cases {f : Grant → Grant} {share' grant' : Nat}
    (h : (g.onGrant share grant f).grantAt share' grant' = some granted) :
    (share' = share ∧ grant' = grant ∧
      ∃ before, g.grantAt share grant = some before ∧ granted = f before) ∨
    g.grantAt share' grant' = some granted := by
  by_cases hsame : share' = share ∧ grant' = grant
  · obtain ⟨rfl, rfl⟩ := hsame
    rw [Gate.grantAt_onGrant_self] at h
    obtain ⟨before, hbefore, rfl⟩ := Option.map_eq_some_iff.mp h
    exact .inl ⟨rfl, rfl, before, hbefore, rfl⟩
  · rw [g.grantAt_onGrant_of_ne f hsame] at h
    exact .inr h

theorem Gate.stays_onGrant (g : Gate) (share grant : Nat) (f : Grant → Grant) :
    Stays g (g.onGrant share grant f) := by
  constructor
  case services => rfl
  all_goals
    intro other
    simp only [Gate.onGrant, Gate.onShare, Function.update_apply]
    split
  case service.isTrue heq => rw [heq]
  case service.isFalse => rfl
  case queue.isTrue heq => exact heq ▸ fun _ h => h
  case queue.isFalse => exact fun _ h => h
  case closed.isTrue heq => exact fun hgrants => by rw [← heq, hgrants]; exact List.modify_nil ..
  case closed.isFalse => exact id

theorem Gate.keeps_onGrant (g : Gate) (share grant : Nat) {f : Grant → Grant}
    (hmint : ∀ granted, (f granted).mint = granted.mint)
    (hroot : ∀ granted, g.grantAt share grant = some granted →
      (granted.table.get 0).isSome → ((f granted).table.get 0).isSome) (other : Nat) :
    Keeps other g (g.onGrant share grant f) where
  present _ hpresent := (g.stays_onGrant share grant f).present hpresent
  submitted := Nat.le_refl _
  cells _ _ := ⟨rfl, rfl, rfl⟩
  grants grant' granted hgranted := by
    rcases Gate.grantAt_onGrant_cases hgranted with ⟨rfl, rfl, before, hbefore, rfl⟩ | hbefore
    · exact ⟨before, hbefore, hmint before, hroot before hbefore⟩
    · exact ⟨granted, hbefore, rfl, id⟩

/-- The change of a grant keeps the grantees apart if it keeps the table sound. -/
theorem Sealed.onGrant (h : Sealed config g) {f : Grant → Grant}
    (hmint : ∀ granted, (f granted).mint = granted.mint)
    (hroot : ∀ granted, g.grantAt share grant = some granted →
      (granted.table.get 0).isSome → ((f granted).table.get 0).isSome)
    (hsound : ∀ granted, g.grantAt share grant = some granted →
      SoundTable g share granted → SoundTable g share (f granted)) :
    Sealed config (g.onGrant share grant f) := by
  have hkeeps := g.keeps_onGrant share grant hmint hroot
  refine h.stays (g.stays_onGrant share grant f) hkeeps fun share' grant' granted hgranted => ?_
  rcases Gate.grantAt_onGrant_cases hgranted with ⟨rfl, rfl, before, hbefore, rfl⟩ | hbefore
  · exact (hkeeps share').table (hsound before hbefore (h.tables share' grant' before hbefore))
  · exact (hkeeps share').table (h.tables share' grant' granted hbefore)

/-- The factory's handler goes to the first index. -/
theorem SoundTable.handler {handle : ResourceAny} (h : SoundTable g share granted)
    (howned : Owned g share granted.mint handle) (hfactory : handle.factory = true) :
    SoundTable g share { granted with table := granted.table.set 0 (some handle) } := by
  have hzero : Slots.get (granted.table.set 0 (some handle)) 0 = some handle := by
    by_cases hget : granted.table.get 0 = none
    · rw [h.first hget]
      rfl
    · cases htable : granted.table with
      | nil => exact absurd (htable ▸ Slots.get_nil) hget
      | cons => rfl
  have hother : ∀ rep, rep ≠ 0 →
      Slots.get (granted.table.set 0 (some handle)) rep = granted.table.get rep :=
    fun rep hrep => by rw [Slots.get, Slots.get, List.getElem?_set_ne hrep.symm]
  constructor
  case owned =>
    intro rep other hget
    by_cases hrep : rep = 0
    · rw [hrep, hzero] at hget
      exact Option.some.inj hget ▸ howned
    · exact h.owned rep other ((hother rep hrep).symm.trans hget)
  case root =>
    intro other hget
    rw [hzero] at hget
    exact Option.some.inj hget ▸ hfactory
  case first =>
    intro hget
    rw [hzero] at hget
    exact absurd hget (Option.some_ne_none _)

theorem SoundTable.enter {handle : ResourceAny} (h : SoundTable g share granted)
    (howned : Owned g share granted.mint handle) (hroot : (granted.table.get 0).isSome) :
    SoundTable g share { granted with table := (granted.table.insert handle).2 } := by
  have hzero : Slots.get (granted.table.insert handle).2 0 = granted.table.get 0 := by
    apply Slots.get_insert_of_ne
    intro heq
    have hfresh : granted.table.get (granted.table.insert handle).1 = none := Slots.insert_fresh
    rw [← heq] at hfresh
    rw [hfresh] at hroot
    exact Bool.false_ne_true hroot
  constructor
  case owned =>
    intro rep other hget
    rcases Slots.get_insert_cases hget with ⟨-, rfl⟩ | hbefore
    · exact howned
    · exact h.owned rep other hbefore
  case root => exact fun other hget => h.root other (hzero.symm.trans hget)
  case first =>
    intro hget
    rw [hzero] at hget
    rw [hget] at hroot
    exact absurd hroot Bool.false_ne_true

/-- A child drops a handle other than the handler. -/
theorem SoundTable.drop {rep : Nat} (h : SoundTable g share granted) (hrep : rep ≠ 0) :
    SoundTable g share { granted with table := granted.table.clear rep } := by
  have hzero : Slots.get (granted.table.clear rep) 0 = granted.table.get 0 :=
    Slots.get_clear_of_ne hrep.symm
  constructor
  case owned => exact fun other handle hget => h.owned other handle (Slots.get_of_get_clear hget)
  case root => exact fun handle hget => h.root handle (hzero.symm.trans hget)
  case first =>
    intro hget
    dsimp only
    rw [h.first (hzero.symm.trans hget)]
    cases rep with
    | zero => exact absurd rfl hrep
    | succ rep => rfl

theorem SoundTable.occupied {rep : Nat} {handle : ResourceAny} (h : SoundTable g share granted)
    (hget : granted.table.get rep = some handle) : (granted.table.get 0).isSome := by
  by_contra hnone
  have htable := h.first (Option.not_isSome_iff_eq_none.mp hnone)
  rw [htable] at hget
  cases rep with
  | zero => exact absurd hget nofun
  | succ rep => exact absurd hget nofun

/-! ## The intake -/

/-- What a call does for its own grantee: the grantees stay apart, and no other grant is
touched. -/
structure Serves (config : Config) (mint : Nat) (g g' : Gate) : Prop where
  isolated : Sealed config g'
  services : g'.services = g.services
  keeps : ∀ share, Keeps share g g'
  others : ∀ share grant granted, g.grantAt share grant = some granted → granted.mint ≠ mint →
    g'.grantAt share grant = some granted

namespace Serves

variable {mint : Nat}

theorem refl (h : Sealed config g) : Serves config mint g g where
  isolated := h
  services := rfl
  keeps share := .refl share g
  others _ _ _ hgranted _ := hgranted

theorem trans (h : Serves config mint g g') (h' : Serves config mint g' g'') :
    Serves config mint g g'' where
  isolated := h'.isolated
  services := h'.services.trans h.services
  keeps share := (h.keeps share).trans (h'.keeps share)
  others share grant granted hgranted hne :=
    h'.others share grant granted (h.others share grant granted hgranted hne) hne

/-- A sound change of the grantee's own grant. -/
theorem onGrant (h : Sealed config g) {f : Grant → Grant}
    (hown : ∀ granted, g.grantAt share grant = some granted → granted.mint = mint)
    (hmint : ∀ granted, (f granted).mint = granted.mint)
    (hroot : ∀ granted, g.grantAt share grant = some granted →
      (granted.table.get 0).isSome → ((f granted).table.get 0).isSome)
    (hsound : ∀ granted, g.grantAt share grant = some granted →
      SoundTable g share granted → SoundTable g share (f granted)) :
    Serves config mint g (g.onGrant share grant f) where
  isolated := h.onGrant hmint hroot hsound
  services := rfl
  keeps := g.keeps_onGrant share grant hmint hroot
  others share' grant' granted hgranted hne := by
    rw [g.grantAt_onGrant_of_ne f, hgranted]
    rintro ⟨rfl, rfl⟩
    exact hne (hown granted hgranted)

end Serves

theorem Gate.grantAt_of_tableEntry {rep : Nat} {handle : ResourceAny}
    (h : g.tableEntry share grant rep = .ok handle) :
    ∃ granted, g.grantAt share grant = some granted ∧ granted.table.get rep = some handle := by
  rw [Gate.tableEntry] at h
  split at h
  case h_1 other hentry =>
    rw [← Except.ok.inj h]
    exact Option.bind_eq_some_iff.mp hentry
  case h_2 => exact absurd h nofun

theorem Gate.grantAt_of_handlerEntry {handle : ResourceAny}
    (h : g.handlerEntry share grant = some handle) :
    ∃ granted, g.grantAt share grant = some granted ∧ granted.table.get 0 = some handle := by
  rw [Gate.handlerEntry] at h
  cases hentry : g.tableEntry share grant 0 with
  | error => exact absurd (hentry ▸ h) nofun
  | ok other =>
    rw [hentry] at h
    exact Option.some.inj h ▸ Gate.grantAt_of_tableEntry hentry

/-- A handle that a call finds in the table of its grant. -/
theorem Works.found (hworks : Works g share call) (h : Sealed config g) {rep : Nat}
    {handle : ResourceAny} (hgranted : g.grantAt share (g.calls call).grant = some granted)
    (hget : granted.table.get rep = some handle) :
    Owned g share (g.calls call).mint handle ∧ ∀ other,
      g.grantAt share (g.calls call).grant = some other → (other.table.get 0).isSome := by
  have hsound := h.tables share _ granted hgranted
  constructor
  · rw [← hworks.own granted hgranted]
    exact hsound.owned rep handle hget
  · intro other hother
    rw [hgranted] at hother
    exact Option.some.inj hother ▸ hsound.occupied hget

/-- What a live run hands out while it serves a call is the grantee's. -/
theorem Works.handed (hworks : Works g share call) (h : Sealed config g) {service : Nat}
    {run : OwnerRun} (hrun : g.services service = some run) (hshare : run.share = share)
    (factory : Bool) : Owned g share (g.calls call).mint ⟨run.number, call, factory⟩ where
  lt := hworks.lt
  mint := rfl
  present := ⟨service, run, hshare ▸ (h.serves service run hrun).1, hrun, rfl⟩

section Polls

variable {service : Nat} {run : OwnerRun} {op : GateOp} {handle : ResourceAny}

theorem Sealed.tableEnter (h : Sealed config g) (hworks : Works g share call)
    (hroot : ∀ granted, g.grantAt share (g.calls call).grant = some granted →
      (granted.table.get 0).isSome)
    (howned : Owned g share (g.calls call).mint handle) :
    Serves config (g.calls call).mint g
      (g.tableEnter (g.calls call).share (g.calls call).grant handle).2 := by
  rw [hworks.place]
  fun_cases Gate.tableEnter
  case case1 => exact .refl h
  case case2 =>
    apply Serves.onGrant h hworks.own
      (f := fun granted => { granted with table := (granted.table.insert handle).2 })
    case hmint => exact fun _ => rfl
    case hroot =>
      intro granted hgranted hsome
      have hsound := (h.tables share _ granted hgranted).enter
        (hworks.own granted hgranted ▸ howned) hsome
      by_contra hnone
      have hempty := hsound.first (Option.not_isSome_iff_eq_none.mp hnone)
      have hself : Slots.get (granted.table.insert handle).2 (granted.table.insert handle).1 =
          some handle := Slots.get_insert_self
      exact absurd (hsound.occupied hself) hnone
    case hsound =>
      intro granted hgranted hsound
      exact hsound.enter (hworks.own granted hgranted ▸ howned) (hroot granted hgranted)

theorem Sealed.parse (h : Sealed config g) (hrun : g.services service = some run)
    (hflies : Flies g run.share call (.calling op handle)) (returned : Returned) :
    Serves config (g.calls call).mint g (g.parse run call op returned).2 := by
  have henter := h.tableEnter hflies.works (hflies.handler rfl)
    (hflies.works.handed h hrun rfl false)
  fun_cases Gate.parse
  all_goals first
    | exact .refl h
    | exact henter

theorem Sealed.callFunction (h : Sealed config g) (op : GateOp) (ready : Ready)
    (hrun : g.services service = some run)
    (hflies : Flies g run.share call (.calling op handle)) :
    Serves config (g.calls call).mint g (g.callFunction run call op handle ready).2 ∧
      ∀ future, (g.callFunction run call op handle ready).1 = .error future →
        Flies (g.callFunction run call op handle ready).2 run.share call future := by
  fun_cases Gate.callFunction
  case case1 =>
    refine ⟨.refl h, fun future hfuture => ?_⟩
    rw [← Except.error.inj hfuture]
    exact hflies
  case case2 returned hreturned parsed =>
    exact ⟨h.parse hrun hflies returned, fun _ heq => by cases heq⟩

/-- The handler of a grant comes from the factory, for a call of the grantee. -/
theorem Sealed.setHandlerEntry (h : Sealed config g) (hworks : Works g share call)
    (howned : Owned g share (g.calls call).mint handle) (hfactory : handle.factory = true) :
    Serves config (g.calls call).mint g
        (g.setHandlerEntry (g.calls call).share (g.calls call).grant handle) ∧
      ∀ granted, (g.setHandlerEntry (g.calls call).share (g.calls call).grant handle).grantAt
        share (g.calls call).grant = some granted → (granted.table.get 0).isSome := by
  have hsound : ∀ granted, g.grantAt share (g.calls call).grant = some granted →
      SoundTable g share granted →
      SoundTable g share { granted with table := granted.table.set 0 (some handle) } :=
    fun granted hgranted hsound => hsound.handler (hworks.own granted hgranted ▸ howned) hfactory
  have hzero : ∀ granted : Grant, SoundTable g share granted →
      (Slots.get (granted.table.set 0 (some handle)) 0).isSome := by
    intro granted hsound
    cases htable : granted.table with
    | nil => exact absurd (hsound.first (by rw [htable]; rfl)) (htable ▸ (List.cons_ne_nil _ _).symm)
    | cons => rfl
  rw [hworks.place]
  constructor
  · apply Serves.onGrant h hworks.own
      (f := fun granted => { granted with table := granted.table.set 0 (some handle) })
    case hmint => exact fun _ => rfl
    case hroot => exact fun granted hgranted _ => hzero granted (h.tables share _ granted hgranted)
    case hsound => exact hsound
  · intro granted hgranted
    have hself := g.grantAt_onGrant_self share (g.calls call).grant
      fun granted => { granted with table := granted.table.set 0 (some handle) }
    obtain ⟨before, hbefore, rfl⟩ := Option.map_eq_some_iff.mp (hself.symm.trans hgranted)
    exact hzero before (h.tables share _ before hbefore)

theorem Sealed.mintHandler (h : Sealed config g) (ready : Ready) (hrun : g.services service = some run)
    (hworks : Works g run.share call) :
    Serves config (g.calls call).mint g (g.mintHandler run call op ready).2 ∧
      ∀ future, (g.mintHandler run call op ready).1 = .error future →
        Flies (g.mintHandler run call op ready).2 run.share call future := by
  fun_cases Gate.mintHandler
  case case1 =>
    refine ⟨.refl h, fun future hfuture => ?_⟩
    rw [← Except.error.inj hfuture]
    exact ⟨hworks, fun heq => (by cases heq), fun _ heq => by cases heq⟩
  case case2 => exact ⟨.refl h, fun _ heq => by cases heq⟩
  case case3 hminted cell minted =>
    have howned := hworks.handed h hrun rfl true
    obtain ⟨hset, hzero⟩ := h.setHandlerEntry hworks howned rfl
    have hcall := hset.isolated.callFunction op ready (hset.services ▸ hrun) ⟨(hset.keeps run.share).works hworks, fun _ => hzero,
        fun _ heq => Option.some.inj heq ▸ (hset.keeps run.share).owned howned⟩
    exact ⟨hset.trans hcall.1, hcall.2⟩

/-- One poll of a call serves its grantee. -/
theorem Sealed.pollCall (h : Sealed config g) (ready : Ready) (hrun : g.services service = some run)
    {future : CallFut} (hflies : Flies g run.share call future) :
    Serves config (g.calls call).mint g (g.pollCall run call ready future).2 ∧
      ∀ later, (g.pollCall run call ready future).1 = .error later →
        Flies (g.pollCall run call ready future).2 run.share call later := by
  fun_cases Gate.pollCall
  case case1 op cell found hentry =>
    have hplace := hflies.works.place
    obtain ⟨granted, hgranted, hget⟩ := Gate.grantAt_of_handlerEntry hentry
    obtain ⟨howned, hroot⟩ := hflies.works.found h (hplace ▸ hgranted) hget
    exact h.callFunction _ ready hrun ⟨hflies.works, fun _ => hroot,
      fun _ heq => Option.some.inj heq ▸ howned⟩
  case case2 => exact h.mintHandler ready hrun hflies.works
  case case3 => exact h.mintHandler ready hrun hflies.works
  case case4 => exact h.callFunction _ ready hrun ⟨hflies.works, hflies.handler, hflies.owned⟩
  case case5 => exact h.callFunction _ ready hrun ⟨hflies.works, hflies.handler, hflies.owned⟩

end Polls

/-! ### The runs -/

theorem Gate.services_onRun (g : Gate) (service : Nat) (f : OwnerRun → OwnerRun) :
    (g.onRun service f).services service = (g.services service).map f := Function.update_self ..

theorem Gate.keeps_onRun (g : Gate) (service : Nat) {f : OwnerRun → OwnerRun}
    (hnumber : ∀ run, (f run).number = run.number) (share : Nat) :
    Keeps share g (g.onRun service f) where
  present number hpresent := by
    obtain ⟨service', run, hservice, hrun, rfl⟩ := hpresent
    by_cases heq : service' = service
    · refine ⟨service', f run, hservice, ?_, hnumber run⟩
      rw [← heq, Gate.services_onRun, hrun, Option.map_some]
    · exact ⟨service', run, hservice, (Function.update_of_ne heq ..).trans hrun, rfl⟩
  submitted := Nat.le_refl _
  cells _ _ := ⟨rfl, rfl, rfl⟩
  grants _ granted hgranted := ⟨granted, hgranted, rfl, id⟩

/-- The calls in flight of one run change. -/
theorem Sealed.onRun (h : Sealed config g) (service : Nat) {f : OwnerRun → OwnerRun}
    (hnumber : ∀ run, (f run).number = run.number) (hshare : ∀ run, (f run).share = run.share)
    (hflying : ∀ run, g.services service = some run →
      ∀ entry ∈ (f run).inFlight, Flies g run.share entry.1 entry.2) :
    Sealed config (g.onRun service f) := by
  have hkeeps := g.keeps_onRun service hnumber
  have hservices : ∀ service' run, (g.onRun service f).services service' = some run →
      ∃ before, g.services service' = some before ∧ run.share = before.share ∧
        ∀ entry ∈ run.inFlight, Flies g before.share entry.1 entry.2 := by
    intro service' run hrun
    by_cases heq : service' = service
    · rw [heq, Gate.services_onRun] at hrun
      obtain ⟨before, hbefore, rfl⟩ := Option.map_eq_some_iff.mp hrun
      exact ⟨before, heq ▸ hbefore, hshare before, hflying before hbefore⟩
    · have hbefore := (Function.update_of_ne heq ..).symm.trans hrun
      exact ⟨run, hbefore, rfl, h.flying service' run hbefore⟩
  constructor
  case wired =>
    intro share service' hservice
    obtain ⟨run, hrun, hof⟩ := h.wired share service' hservice
    by_cases heq : service' = service
    · refine ⟨f run, ?_, (hshare run).trans hof⟩
      rw [← heq, Gate.services_onRun, hrun, Option.map_some]
    · exact ⟨run, (Function.update_of_ne heq ..).trans hrun, hof⟩
  case serves =>
    intro service' run hrun
    obtain ⟨before, hbefore, hof, -⟩ := hservices service' run hrun
    rw [hof]
    exact h.serves service' before hbefore
  case closed => exact h.closed
  case tables =>
    exact fun share grant granted hgranted =>
      (hkeeps share).table (h.tables share grant granted hgranted)
  case queued => exact fun share call hcall => (hkeeps share).works (h.queued share call hcall)
  case flying =>
    intro service' run hrun entry hentry
    obtain ⟨before, -, hof, hflying⟩ := hservices service' run hrun
    rw [hof]
    exact (hkeeps before.share).flies (hflying entry hentry)

/-- The future of a call that left the queue works for its grantee. -/
theorem Works.built (hworks : Works g share call) (h : Sealed config g) {run : OwnerRun}
    {future : CallFut} (hbuilt : (g.buildCallFuture run call).1 = .ok future) :
    Flies (g.takeOp call).2 share call future := by
  refine ((Still.takeOp g call).keeps share).flies ?_
  revert hbuilt
  fun_cases Gate.buildCallFuture
  case case1 => rintro ⟨⟩
  case case2 => rintro ⟨⟩
  case case3 =>
    intro hbuilt
    rw [← Except.ok.inj hbuilt]
    exact ⟨hworks, fun heq => (by cases heq), fun _ heq => by cases heq⟩
  case case4 => rintro ⟨⟩
  case case5 cell taken op hop hdns rep hnamed handle hentry =>
    intro hbuilt
    obtain ⟨granted, hgranted, hget⟩ := Gate.grantAt_of_tableEntry hentry
    have hbefore : g.grantAt share (g.calls call).grant = some granted := hworks.place ▸ hgranted
    obtain ⟨howned, hroot⟩ := hworks.found h hbefore hget
    rw [← Except.ok.inj hbuilt]
    exact ⟨hworks, fun _ => hroot, fun _ heq => Option.some.inj heq ▸ howned⟩

theorem Sealed.start (h : Sealed config g) {service : Nat} {run : OwnerRun}
    (hrun : g.services service = some run) (hworks : Works g run.share call) :
    Sealed config (g.start service call) ∧ (∀ share, Keeps share g (g.start service call)) ∧
      ∃ later, (g.start service call).services service = some later ∧
        later.share = run.share := by
  have htaken := h.still (Still.takeOp g call)
  have hkeeps := (Still.takeOp g call).keeps
  fun_cases Gate.start
  case case1 hnone => exact absurd (hrun.symm.trans hnone) (Option.some_ne_none run)
  case case2 other hother built future hbuilt =>
    rw [hrun] at hother
    cases Option.some.inj hother
    rw [Gate.buildCallFuture_snd]
    have hflies := hworks.built h hbuilt
    let queued := fun run : OwnerRun => { run with inFlight := run.inFlight ++ [(call, future)] }
    have hkeeps' := Gate.keeps_onRun (g.takeOp call).2 service (f := queued) fun _ => rfl
    refine ⟨htaken.onRun service (fun _ => rfl) (fun _ => rfl) ?_,
      fun share => (hkeeps share).trans (hkeeps' share), queued run, ?_, rfl⟩
    · intro later hlater entry hentry
      rcases List.mem_append.mp hentry with hbefore | hnew
      · exact htaken.flying service later hlater entry hbefore
      · have hlater : g.services service = some later := hlater
        rw [hrun] at hlater
        rw [List.mem_singleton.mp hnew, ← Option.some.inj hlater]
        exact hflies
    · have hstill : (g.takeOp call).2.services service = some run := hrun
      rw [Gate.services_onRun, hstill, Option.map_some]
  case case3 other hother built reason hbuilt =>
    rw [Gate.buildCallFuture_snd]
    have hcomplete := Still.complete (g.takeOp call).2 other.share call (.error reason)
    exact ⟨htaken.still hcomplete, fun share => (hkeeps share).trans (hcomplete.keeps share),
      run, hrun, rfl⟩

theorem Sealed.foldl_start (h : Sealed config g) {service : Nat} {run : OwnerRun}
    (hrun : g.services service = some run) (calls : List Nat)
    (hcalls : ∀ call ∈ calls, Works g run.share call) :
    Sealed config (calls.foldl (fun g call => g.start service call) g) := by
  induction calls generalizing g run with
  | nil => exact h
  | cons call calls ih =>
    obtain ⟨hstarted, hkeeps, later, hlater, hof⟩ :=
      h.start hrun (hcalls call List.mem_cons_self)
    refine ih hstarted hlater fun other hother => ?_
    rw [hof]
    exact (hkeeps run.share).works (hcalls other (List.mem_cons_of_mem call hother))

theorem Sealed.drain (h : Sealed config g) (service : Nat) : Sealed config (g.drain service) := by
  fun_cases Gate.drain
  case case1 => exact h
  case case2 run hrun taken =>
    have hstill : Still g taken := Still.onShare g run.share fun _ =>
      ⟨rfl, rfl, fun _ hcall => absurd hcall List.not_mem_nil⟩
    exact (h.still hstill).foldl_start hrun _ fun call hcall =>
      (hstill.keeps run.share).works (h.queued run.share call hcall)

/-- A poll of a call in flight serves its grantee. -/
theorem Sealed.advance (h : Sealed config g) (service call : Nat) (ready : Ready) :
    Sealed config (g.advance service call ready) ∧ ∀ share grant granted,
      g.grantAt share grant = some granted → granted.mint ≠ (g.calls call).mint →
      (g.advance service call ready).grantAt share grant = some granted := by
  have hnothing : Sealed config g ∧ ∀ share grant granted,
      g.grantAt share grant = some granted → granted.mint ≠ (g.calls call).mint →
      g.grantAt share grant = some granted := ⟨h, fun _ _ _ hgranted _ => hgranted⟩
  fun_cases Gate.advance
  case case1 => exact hnothing
  case case2 => exact hnothing
  case case3 run hrun future hlookup polled future' hpolled =>
    obtain ⟨hserves, hflies⟩ := h.pollCall ready hrun
      (h.flying service run hrun (call, future) (mem_of_lookup hlookup))
    refine ⟨hserves.isolated.onRun service (fun _ => rfl) (fun _ => rfl) ?_, hserves.others⟩
    intro later hlater entry hentry
    obtain ⟨before, hbefore, rfl⟩ := List.mem_map.mp hentry
    split
    case isTrue =>
      rw [hserves.services, hrun] at hlater
      exact Option.some.inj hlater ▸ hflies future' hpolled
    case isFalse => exact hserves.isolated.flying service later hlater before hbefore
  case case4 run hrun future hlookup polled result hpolled =>
    obtain ⟨hserves, -⟩ := h.pollCall ready hrun
      (h.flying service run hrun (call, future) (mem_of_lookup hlookup))
    have hgone := hserves.isolated.onRun service
      (f := fun run => { run with inFlight := run.inFlight.filter fun entry => entry.1 ≠ call })
      (fun _ => rfl) (fun _ => rfl) fun later hlater entry hentry =>
        hserves.isolated.flying service later hlater entry (List.mem_of_mem_filter hentry)
    have hcomplete := Still.complete (polled.2.onRun service fun run =>
      { run with inFlight := run.inFlight.filter fun entry => entry.1 ≠ call }) run.share call result
    refine ⟨hgone.still hcomplete, fun share grant granted hgranted hne => ?_⟩
    rw [hcomplete.grantAt]
    exact hserves.others share grant granted hgranted hne

/-! ## The registry -/

/-- A share starts over with no grant and no call, and with at most one run. -/
theorem Sealed.elsewhere (h : Sealed config g) (share : Nat)
    (hothers : ∀ other, other ≠ share → g'.shares other = g.shares other ∧
      ∀ service, (g.shares other).service = some service →
        g'.services service = g.services service)
    (hcalls : g'.calls = g.calls) (hsubmitted : g'.submitted = g.submitted)
    (hgrants : (g'.shares share).grants = []) (hqueue : (g'.shares share).queue = [])
    (hwired : ∀ service, (g'.shares share).service = some service →
      ∃ run, g'.services service = some run ∧ run.share = share)
    (hruns : ∀ service run, g'.services service = some run →
      (run.share = share ∧ (g'.shares share).service = some service ∧
        share < config.shares.length ∧ run.inFlight = []) ∨
      (run.share ≠ share ∧ g.services service = some run)) : Sealed config g' := by
  have hkeeps : ∀ other, other ≠ share → Keeps other g g' := fun other hne =>
    .of_same (hothers other hne).1 (hothers other hne).2 hcalls hsubmitted
  constructor
  case wired =>
    intro other service hservice
    by_cases hne : other = share
    · rw [hne] at hservice ⊢
      exact hwired service hservice
    · obtain ⟨hsame, hservices⟩ := hothers other hne
      rw [hsame] at hservice
      rw [hservices service hservice]
      exact h.wired other service hservice
  case serves =>
    intro service run hrun
    rcases hruns service run hrun with ⟨hof, hservice, hlt, -⟩ | ⟨hne, hbefore⟩
    · rw [hof]
      exact ⟨hservice, hlt⟩
    · rw [(hothers run.share hne).1]
      exact h.serves service run hbefore
  case closed =>
    intro other hservice
    by_cases hne : other = share
    · rw [hne, hgrants]
    · rw [(hothers other hne).1] at hservice ⊢
      exact h.closed other hservice
  case tables =>
    intro other grant granted hgranted
    by_cases hne : other = share
    · rw [hne, Gate.grantAt, hgrants, Slots.get_nil] at hgranted
      exact absurd hgranted nofun
    · have hbefore := hgranted
      rw [Gate.grantAt, (hothers other hne).1] at hbefore
      exact (hkeeps other hne).table (h.tables other grant granted hbefore)
  case queued =>
    intro other call hcall
    by_cases hne : other = share
    · rw [hne, hqueue] at hcall
      exact absurd hcall List.not_mem_nil
    · rw [(hothers other hne).1] at hcall
      exact (hkeeps other hne).works (h.queued other call hcall)
  case flying =>
    intro service run hrun entry hentry
    rcases hruns service run hrun with ⟨-, -, -, hnone⟩ | ⟨hne, hbefore⟩
    · rw [hnone] at hentry
      exact absurd hentry List.not_mem_nil
    · exact (hkeeps run.share hne).flies (h.flying service run hbefore entry hentry)

/-- A share is wired to a run while no other run serves it. -/
theorem Sealed.openRun (h : Sealed config g) {service : Nat} (hlt : share < config.shares.length)
    (hfree : g.services service = none)
    (halone : ∀ service run, g.services service = some run → run.share ≠ share)
    (dnsServers : Bool) : Sealed config (g.openRun share service dnsServers) := by
  have hne : ∀ other service', (g.shares other).service = some service' → service' ≠ service := by
    intro other service' hservice heq
    obtain ⟨run, hrun, -⟩ := h.wired other service' hservice
    rw [heq, hfree] at hrun
    exact Option.some_ne_none run hrun.symm
  have hself : (g.openRun share service dnsServers).shares share =
      { service := some service, severed := false } := Function.update_self ..
  apply h.elsewhere share
  case hothers =>
    exact fun other hother => ⟨Function.update_of_ne hother ..,
      fun service' hservice => Function.update_of_ne (hne other service' hservice) ..⟩
  case hcalls => rfl
  case hsubmitted => rfl
  case hgrants => rw [hself]
  case hqueue => rw [hself]
  case hwired =>
    intro service' hservice
    rw [hself] at hservice
    rw [← Option.some.inj hservice]
    exact ⟨_, Function.update_self .., rfl⟩
  case hruns =>
    intro service' run hrun
    by_cases heq : service' = service
    · rw [heq] at hrun ⊢
      have hrun := (Function.update_self ..).symm.trans hrun
      rw [← Option.some.inj hrun]
      exact .inl ⟨rfl, by rw [hself], hlt, rfl⟩
    · have hrun := (Function.update_of_ne heq ..).symm.trans hrun
      exact .inr ⟨halone service' run hrun, hrun⟩

/-- The run of a share ends. -/
theorem Sealed.unwire (h : Sealed config g) {service : Nat}
    (hservice : (g.shares share).service = some service) (killed orphaned : List Nat) :
    Sealed config { g with
      shares := Function.update g.shares share
        { g.shares share with
          severed := true
          service := none
          intakeWaker := false
          queue := []
          live := []
          grants := [] }
      services := Function.update g.services service none
      killed := killed
      orphaned := orphaned } := by
  obtain ⟨run, hrun, hof⟩ := h.wired share service hservice
  apply h.elsewhere share
  case hothers =>
    refine fun other hother => ⟨Function.update_of_ne hother .., fun service' hservice' =>
      Function.update_of_ne (fun heq => ?_) ..⟩
    obtain ⟨run', hrun', hof'⟩ := h.wired other service' hservice'
    rw [heq, hrun] at hrun'
    rw [← hof', ← Option.some.inj hrun'] at hother
    exact hother hof
  case hcalls => rfl
  case hsubmitted => rfl
  case hgrants => simp only [Function.update_self]
  case hqueue => simp only [Function.update_self]
  case hwired =>
    intro service' hservice'
    simp only [Function.update_self] at hservice'
    exact absurd hservice' nofun
  case hruns =>
    intro service' run' hrun'
    by_cases heq : service' = service
    · rw [heq] at hrun'
      exact absurd ((Function.update_self ..).symm.trans hrun') nofun
    · have hbefore := (Function.update_of_ne heq ..).symm.trans hrun'
      refine .inr ⟨fun hshare => heq ?_, hbefore⟩
      have hserves := (h.serves service' run' hbefore).1
      rw [hshare, hservice] at hserves
      exact (Option.some.inj hserves).symm

theorem Sealed.endRun (h : Sealed config g) {service : Nat} (hsome : (g.services service).isSome)
    (reason : String) : Sealed config (g.endRun config service reason) := by
  cases hwired : g.wiredShare config service with
  | none =>
    -- a run is the one that its share is wired to
    obtain ⟨run, hrun⟩ := Option.isSome_iff_exists.mp hsome
    obtain ⟨hservice, hlt⟩ := h.serves service run hrun
    have hnone := List.find?_eq_none.mp hwired run.share (List.mem_range.mpr hlt)
    exact absurd (decide_eq_true hservice) hnone
  | some share =>
    have hservice : (g.shares share).service = some service := by
      simpa using List.find?_some hwired
    let idle := g.onShare share fun s => { s with queue := [], intakeWaker := false }
    let calls := (g.shares share).queue ++ (g.shares share).live
    have hself : idle.shares share = { g.shares share with queue := [], intakeWaker := false } :=
      Function.update_self ..
    have hidle : Still g idle := Still.onShare g share fun _ =>
      ⟨rfl, rfl, fun _ hcall => absurd hcall List.not_mem_nil⟩
    have hsame := (idle.settles_foldl_sever reason calls).same
    have hsevered : Sealed config (calls.foldl (fun g call => g.sever reason call) idle) :=
      (h.still hidle).still (Still.foldl (fun g call => Still.sever g reason call) calls idle)
    have hshares := congrArg Gate.shares hsame
    have hservices := congrArg Gate.services hsame
    dsimp only at hshares hservices
    have hstill : ((calls.foldl (fun g call => g.sever reason call) idle).shares share).service =
        some service := by
      rw [hshares, hself]
      exact hservice
    obtain ⟨killed, hended⟩ := g.endRun_of_wired reason hwired
    have hover := hsevered.unwire hstill killed (g.waitingOn share ++ g.orphaned)
    rw [hshares, hservices, hself] at hover
    rw [hended]
    simpa only [idle, Gate.onShare, Function.update_idem] using hover

/-! ### The grantees -/

/-- A call that is queued on a share or in flight in a run of it. -/
def Pending (g : Gate) (share call : Nat) : Prop :=
  call ∈ (g.shares share).queue ∨ ∃ service run, g.services service = some run ∧
    run.share = share ∧ ∃ entry ∈ run.inFlight, entry.1 = call

/-- The index that the next grant of a share gets. -/
def Gate.nextGrant (g : Gate) (share : Nat) : Nat :=
  ((g.shares share).grants.insert ⟨[none], none, g.mints⟩).1

/-- A grant is minted under an index that no pending call names. -/
theorem Sealed.mint (h : Sealed config g) {handle : Option GrantHandle}
    (hmint : g.mintConsoleGrant config = .ok (handle, g'))
    (hfresh : ∀ share, Gate.consoleL4Share config = some share → g.accepts share = true →
      ∀ call, Pending g share call → (g.calls call).grant ≠ g.nextGrant share) :
    Sealed config g' := by
  rw [Gate.mintConsoleGrant] at hmint
  split at hmint
  case h_1 =>
    obtain ⟨-, rfl⟩ := Prod.mk.inj (Except.ok.inj hmint)
    exact h
  case h_2 share hshare =>
    split at hmint
    case isTrue => cases hmint
    case isFalse haccepts =>
      obtain ⟨-, rfl⟩ := Prod.mk.inj (Except.ok.inj hmint)
      have haccepts := of_not_not haccepts
      let new : Grant := ⟨[none], none, g.mints⟩
      let minted := g.onShare share fun s => { s with grants := (s.grants.insert new).2 }
      have hservice : ∀ other, (minted.shares other).service = (g.shares other).service := by
        intro other
        simp only [minted, Gate.onShare, Function.update_apply]
        split
        case isTrue heq => rw [heq]
        case isFalse => rfl
      have hqueue : ∀ other, (minted.shares other).queue = (g.shares other).queue := by
        intro other
        simp only [minted, Gate.onShare, Function.update_apply]
        split
        case isTrue heq => rw [heq]
        case isFalse => rfl
      have hgrants : ∀ other grant granted, minted.grantAt other grant = some granted →
          (other = share ∧ grant = g.nextGrant share ∧ granted = new) ∨
          g.grantAt other grant = some granted := by
        intro other grant granted hgranted
        by_cases hother : other = share
        · rw [hother, Gate.grantAt] at hgranted
          simp only [minted, Gate.onShare, Function.update_self] at hgranted
          rcases Slots.get_insert_cases hgranted with ⟨hgrant, hnew⟩ | hbefore
          · exact .inl ⟨hother, hgrant, hnew⟩
          · exact .inr (hother ▸ hbefore)
        · have hsame : minted.shares other = g.shares other := Function.update_of_ne hother ..
          rw [Gate.grantAt, hsame] at hgranted
          exact .inr hgranted
      have hholds : ∀ other, Holds other g minted := by
        intro other
        refine ⟨fun number hpresent => ?_, Nat.le_refl _, fun _ _ => ⟨rfl, rfl, rfl⟩⟩
        obtain ⟨service, run, hwired, hrun, hnumber⟩ := hpresent
        exact ⟨service, run, (hservice other).trans hwired, hrun, hnumber⟩
      have hcarried : ∀ other call, Pending g other call →
          Carried other (g.calls call).grant g minted := by
        intro other call hpending granted hgranted
        rcases hgrants other _ granted hgranted with ⟨hother, hgrant, -⟩ | hbefore
        · rw [hother] at hpending
          exact absurd hgrant (hfresh share hshare haccepts call hpending)
        · exact ⟨granted, hbefore, rfl, id⟩
      have hminted : Sealed config minted := by
        constructor
        case wired =>
          intro other service hwired
          rw [hservice] at hwired
          exact h.wired other service hwired
        case serves =>
          intro service run hrun
          rw [hservice]
          exact h.serves service run hrun
        case closed =>
          intro other hnone
          have hother : other ≠ share := by
            intro heq
            rw [hservice, heq] at hnone
            rw [Gate.accepts, hnone] at haccepts
            simp at haccepts
          rw [show minted.shares other = g.shares other from Function.update_of_ne hother ..]
            at hnone ⊢
          exact h.closed other hnone
        case tables =>
          intro other grant granted hgranted
          rcases hgrants other grant granted hgranted with ⟨-, -, rfl⟩ | hbefore
          · have hempty : ∀ rep, Slots.get [(none : Option ResourceAny)] rep = none := by
              intro rep
              cases rep <;> rfl
            exact ⟨fun rep handle hget => (by cases (hempty rep).symm.trans hget),
              fun handle hget => (by cases hget), fun _ => rfl⟩
          · exact (hholds other).table (h.tables other grant granted hbefore)
        case queued =>
          intro other call hcall
          rw [hqueue] at hcall
          exact (hholds other).works (hcarried other call (.inl hcall)) (h.queued other call hcall)
        case flying =>
          intro service run hrun entry hentry
          exact (hholds run.share).flies
            (hcarried run.share entry.1 (.inr ⟨service, run, hrun, rfl, entry, hentry, rfl⟩))
            (h.flying service run hrun entry hentry)
      exact hminted.still { Still.refl minted with }

/-- A grantee submits a call under its own grant. -/
theorem Sealed.submit (h : Sealed config g) {mint : Nat} {handle : GrantHandle} {op : GateOp}
    (hown : ∀ granted, g.grantAt handle.share handle.grant = some granted → granted.mint = mint)
    (hsubmit : g.submit config mint handle op = .ok (call, g')) :
    Sealed config g' ∧ ∀ share, (g'.shares share).grants = (g.shares share).grants := by
  rw [Gate.submit] at hsubmit
  split at hsubmit
  case isTrue => cases hsubmit
  case isFalse =>
    split at hsubmit
    case isTrue => cases hsubmit
    case isFalse =>
      obtain ⟨rfl, rfl⟩ := Prod.mk.inj (Except.ok.inj hsubmit)
      let cell : GateCall :=
        { share := handle.share
          grant := handle.grant
          mint := mint
          op := some op
          state := .enqueued
          waker := false }
      let queued : Gate :=
        { (g.onCall g.submitted fun _ => cell).onShare handle.share fun s =>
            { s with
              queue := s.queue ++ [g.submitted]
              live := s.live ++ [g.submitted]
              intakeWaker := false } with
          submitted := g.submitted + 1 }
      have hself : queued.calls g.submitted = cell := Function.update_self ..
      have hothers : ∀ other < g.submitted, queued.calls other = g.calls other :=
        fun other hlt => Function.update_of_ne (Nat.ne_of_lt hlt) ..
      have hshares : ∀ share, (queued.shares share).service = (g.shares share).service ∧
          (queued.shares share).grants = (g.shares share).grants ∧
          ∀ call ∈ (queued.shares share).queue, call ∈ (g.shares share).queue ∨
            share = handle.share ∧ call = g.submitted := by
        intro share
        simp only [queued, Gate.onShare, Gate.onCall, Function.update_apply]
        split
        case isTrue heq =>
          subst heq
          refine ⟨rfl, rfl, fun call hcall => ?_⟩
          exact (List.mem_append.mp hcall).imp id fun hnew => ⟨rfl, List.mem_singleton.mp hnew⟩
        case isFalse => exact ⟨rfl, rfl, fun call hcall => .inl hcall⟩
      have hgrantAt : ∀ share grant, queued.grantAt share grant = g.grantAt share grant := by
        intro share grant
        rw [Gate.grantAt, Gate.grantAt, (hshares share).2.1]
      have hkeeps : ∀ share, Keeps share g queued := by
        intro share
        constructor
        case toHolds =>
          refine ⟨fun number hpresent => ?_, Nat.le_succ _, fun other hlt => ?_⟩
          · obtain ⟨service, run, hservice, hrun, hnumber⟩ := hpresent
            exact ⟨service, run, (hshares share).1.trans hservice, hrun, hnumber⟩
          · rw [hothers other hlt]
            exact ⟨rfl, rfl, rfl⟩
        case grants =>
          exact fun grant granted hgranted =>
            ⟨granted, (hgrantAt share grant).symm.trans hgranted, rfl, id⟩
      refine ⟨?_, fun share => (hshares share).2.1⟩
      constructor
      case wired =>
        intro share service hservice
        rw [(hshares share).1] at hservice
        exact h.wired share service hservice
      case serves =>
        intro service run hrun
        rw [(hshares run.share).1]
        exact h.serves service run hrun
      case closed =>
        intro share hnone
        rw [(hshares share).1] at hnone
        rw [(hshares share).2.1]
        exact h.closed share hnone
      case tables =>
        intro share grant granted hgranted
        exact (hkeeps share).table
          (h.tables share grant granted ((hgrantAt share grant).symm.trans hgranted))
      case queued =>
        intro share call hcall
        rcases (hshares share).2.2 call hcall with hbefore | ⟨rfl, rfl⟩
        · exact (hkeeps share).works (h.queued share call hbefore)
        · refine ⟨Nat.lt_succ_self _, congrArg GateCall.share hself, fun granted hgranted => ?_⟩
          have hgrant : (queued.calls g.submitted).grant = handle.grant :=
            congrArg GateCall.grant hself
          have hbefore := (hgrantAt _ _).symm.trans (hgrant ▸ hgranted)
          exact (hown granted hbefore).trans (congrArg GateCall.mint hself).symm
      case flying =>
        intro service run hrun entry hentry
        exact (hkeeps run.share).flies (h.flying service run hrun entry hentry)

/-- The handle of a grantee goes, and the grant at its index. -/
theorem Sealed.release (h : Sealed config g) (mint : Nat) (handle : GrantHandle) :
    Sealed config (g.dropGrantHandle mint handle) := by
  let released := g.onShare handle.share fun s => { s with grants := s.grants.clear handle.grant }
  have hstays : Stays g released := by
    constructor
    case services => rfl
    all_goals
      intro other
      simp only [released, Gate.onShare, Function.update_apply]
      split
    case service.isTrue heq => rw [heq]
    case service.isFalse => rfl
    case queue.isTrue heq => exact heq ▸ fun _ h => h
    case queue.isFalse => exact fun _ h => h
    case closed.isTrue heq => exact fun hgrants => by rw [← heq, hgrants]; rfl
    case closed.isFalse => exact id
  have hgrants : ∀ share grant granted, released.grantAt share grant = some granted →
      g.grantAt share grant = some granted := by
    intro share grant granted hgranted
    by_cases hshare : share = handle.share
    · rw [hshare, Gate.grantAt] at hgranted ⊢
      simp only [released, Gate.onShare, Function.update_self] at hgranted
      exact Slots.get_of_get_clear hgranted
    · rwa [Gate.grantAt, show released.shares share = g.shares share from
        Function.update_of_ne hshare ..] at hgranted
  have hkeeps : ∀ share, Keeps share g released := fun share =>
    ⟨⟨fun _ hpresent => hstays.present hpresent, Nat.le_refl _, fun _ _ => ⟨rfl, rfl, rfl⟩⟩,
      fun grant granted hgranted => ⟨granted, hgrants share grant granted hgranted, rfl, id⟩⟩
  have hreleased : Sealed config released := h.stays hstays hkeeps fun share grant granted hgranted =>
    (hkeeps share).table (h.tables share grant granted (hgrants share grant granted hgranted))
  exact hreleased.still { Still.refl released with }

theorem Gate.grantAt_release (g : Gate) (mint : Nat) {handle : GrantHandle}
    (hown : ∀ granted, g.grantAt handle.share handle.grant = some granted → granted.mint = mint)
    (hgranted : g.grantAt share grant = some granted) (hne : granted.mint ≠ mint) :
    (g.dropGrantHandle mint handle).grantAt share grant = some granted := by
  rw [← hgranted]
  simp only [Gate.grantAt, Gate.dropGrantHandle, Gate.onShare, Function.update_apply]
  split
  case isTrue hshare =>
    subst hshare
    exact Slots.get_clear_of_ne fun hgrant => hne (hown granted (hgrant ▸ hgranted))
  case isFalse => rfl

/-! ## Every run -/

/-- No index is used again too early: a share is wired while no run of it is live, a grant is
minted under an index that no pending call names, and a grantee uses its handle while the grant
at its index is its own or released. -/
def Proper (config : Config) (g : Gate) : Event → Prop
  | .openRun share _ _ => ∀ service run, g.services service = some run → run.share ≠ share
  | .mint => ∀ share, Gate.consoleL4Share config = some share → g.accepts share = true →
      ∀ call, Pending g share call → (g.calls call).grant ≠ g.nextGrant share
  | .bind mint _ | .submit mint _ _ | .dropChild mint | .dropChildHandle mint _ =>
    ∀ handle granted, g.children mint = some handle →
      g.grantAt handle.share handle.grant = some granted → granted.mint = mint
  | _ => True

/-- The grantee that a step works for. -/
def grantee (g : Gate) : Event → Option Nat
  | .bind mint _ | .submit mint _ _ | .dropChild mint | .dropChildHandle mint _ => some mint
  | .advance _ call _ => some (g.calls call).mint
  | _ => none

/-- A step that works for a grantee leaves the grants of the others alone. -/
def Confined (g : Gate) (event : Event) (g' : Gate) : Prop :=
  ∀ mint, grantee g event = some mint → ∀ share grant granted,
    g.grantAt share grant = some granted → granted.mint ≠ mint →
    g'.grantAt share grant = some granted

theorem Sealed.next (h : Sealed config g) {event : Event} (hstep : Step config g event g')
    (hproper : Proper config g event) : Sealed config g' ∧ Confined g event g' := by
  unfold Step at hstep
  cases event with
  | openRun share service dnsServers =>
    obtain ⟨⟨hlt, hfree⟩, heq⟩ := Option.ite_none_right_eq_some.mp hstep
    exact Option.some.inj heq ▸ ⟨h.openRun hlt hfree hproper dnsServers, fun _ heq => by cases heq⟩
  | endRun service reason =>
    obtain ⟨hsome, heq⟩ := Option.ite_none_right_eq_some.mp hstep
    exact Option.some.inj heq ▸ ⟨h.endRun hsome reason, fun _ heq => by cases heq⟩
  | mint =>
    simp only [Gate.next] at hstep
    split at hstep
    case h_1 minted hminted =>
      exact Option.some.inj hstep ▸ ⟨h.mint hminted hproper, fun _ heq => by cases heq⟩
    case h_2 => exact Option.some.inj hstep ▸ ⟨h, fun _ heq => by cases heq⟩
  | bind mint task =>
    obtain ⟨handle, hchild, rfl⟩ := Option.map_eq_some_iff.mp hstep
    have hserves : Serves config mint g (g.bindGrantTask handle.share handle.grant task) := by
      apply Serves.onGrant h (fun granted => hproper handle granted hchild)
        (f := fun granted => { granted with task := some task })
      case hmint => exact fun _ => rfl
      case hroot => exact fun _ _ hsome => hsome
      case hsound => exact fun _ _ hsound => ⟨hsound.owned, hsound.root, hsound.first⟩
    exact ⟨hserves.isolated, fun _ heq => Option.some.inj heq ▸ hserves.others⟩
  | submit mint op parks =>
    obtain ⟨handle, hchild, rfl⟩ := Option.map_eq_some_iff.mp hstep
    split
    case h_1 => exact ⟨h, fun _ _ _ _ _ hgranted _ => hgranted⟩
    case h_2 call queued hsubmit =>
      obtain ⟨hqueued, hgrants⟩ :=
        h.submit (fun granted => hproper handle granted hchild) hsubmit
      have hgrantAt : ∀ share grant, queued.grantAt share grant = g.grantAt share grant :=
        fun share grant => by rw [Gate.grantAt, Gate.grantAt, hgrants]
      split
      case isTrue =>
        have hseated : Still queued
            { queued with callers := Function.update queued.callers call (some .parked) } :=
          { Still.refl queued with }
        have hstill := hseated.trans (Still.pollCaller _ call)
        refine ⟨hqueued.still hstill, fun _ _ share grant granted hgranted _ => ?_⟩
        rw [hstill.grantAt, hgrantAt, hgranted]
      case isFalse =>
        have hstill : Still queued
            { queued with callers := Function.update queued.callers call (some (.pumping 0)) } :=
          { Still.refl queued with }
        refine ⟨hqueued.still hstill, fun _ _ share grant granted hgranted _ => ?_⟩
        rw [hstill.grantAt, hgrantAt, hgranted]
  | pollCaller call =>
    obtain ⟨-, heq⟩ := Option.ite_none_right_eq_some.mp hstep
    exact Option.some.inj heq ▸ ⟨h.still (Still.pollCaller g call), fun _ heq => by cases heq⟩
  | pump call =>
    simp only [Gate.next] at hstep
    split at hstep
    case h_1 polls hcaller =>
      exact Option.some.inj hstep ▸ ⟨h.still (Still.pump g call polls), fun _ heq => by cases heq⟩
    case h_2 => cases hstep
  | dropCaller call =>
    obtain ⟨-, heq⟩ := Option.ite_none_right_eq_some.mp hstep
    exact Option.some.inj heq ▸ ⟨h.still (Still.dropCaller g call), fun _ heq => by cases heq⟩
  | dropChild mint =>
    obtain ⟨-, heq⟩ := Option.ite_none_left_eq_some.mp hstep
    obtain ⟨handle, hchild, rfl⟩ := Option.map_eq_some_iff.mp heq
    let calls := (List.range g.submitted).filter fun call =>
      g.callers call = some .parked ∧ (g.calls call).mint = mint
    have hstill : Still g (calls.foldl Gate.dropCaller g) := Still.foldl Still.dropCaller calls g
    refine ⟨(h.still hstill).release mint handle, fun _ hmint share grant granted hgranted hne => ?_⟩
    rw [← Option.some.inj hmint] at hne
    apply Gate.grantAt_release _ mint
    case hown =>
      intro granted hgranted
      rw [hstill.grantAt] at hgranted
      exact hproper handle granted hchild hgranted
    case hgranted => rw [hstill.grantAt, hgranted]
    case hne => exact hne
  | dropChildHandle mint rep =>
    obtain ⟨handle, hchild, rfl⟩ := Option.map_eq_some_iff.mp hstep
    rw [Gate.dropChildHandle.eq_def]
    split
    case isTrue => exact ⟨h, fun _ _ _ _ _ hgranted _ => hgranted⟩
    case isFalse hrep =>
      have hserves : Serves config mint g (g.onGrant handle.share handle.grant fun granted =>
          { granted with table := granted.table.clear rep }) := by
        apply Serves.onGrant h fun granted => hproper handle granted hchild
        case hmint => exact fun _ => rfl
        case hroot => exact fun _ _ hsome => (Slots.get_clear_of_ne (Ne.symm hrep)).symm ▸ hsome
        case hsound => exact fun _ _ hsound => hsound.drop hrep
      exact ⟨hserves.isolated, fun _ heq => Option.some.inj heq ▸ hserves.others⟩
  | drain service =>
    obtain ⟨-, heq⟩ := Option.ite_none_right_eq_some.mp hstep
    exact Option.some.inj heq ▸ ⟨h.drain service, fun _ heq => by cases heq⟩
  | advance service call ready =>
    obtain ⟨-, heq⟩ := Option.ite_none_right_eq_some.mp hstep
    obtain ⟨hlater, hothers⟩ := h.advance service call ready
    exact Option.some.inj heq ▸ ⟨hlater, fun _ hmint => Option.some.inj hmint ▸ hothers⟩

/-- The grantees are kept apart: each handle in a table was made for a call of the grantee in
the present run, the first index is empty or holds a handler of the factory, and the grant that
a pending call names, and the handle that its future holds, belong to the grantee that submitted
it. -/
structure Isolated (g : Gate) : Prop where
  owned : ∀ share grant granted, g.grantAt share grant = some granted →
    ∀ rep handle, granted.table.get rep = some handle → Owned g share granted.mint handle
  root : ∀ share grant granted, g.grantAt share grant = some granted →
    ∀ handle, granted.table.get 0 = some handle → handle.factory = true
  pending : ∀ share call, Pending g share call → (g.calls call).share = share ∧
    ∀ granted, g.grantAt share (g.calls call).grant = some granted →
      granted.mint = (g.calls call).mint
  flying : ∀ service run, g.services service = some run → ∀ entry ∈ run.inFlight,
    ∀ handle ∈ entry.2.handle, Owned g run.share (g.calls entry.1).mint handle

theorem Sealed.isolated (h : Sealed config g) : Isolated g where
  owned share grant granted hgranted := (h.tables share grant granted hgranted).owned
  root share grant granted hgranted := (h.tables share grant granted hgranted).root
  pending share call hpending := by
    rcases hpending with hqueued | ⟨service, run, hrun, rfl, entry, hentry, rfl⟩
    · have hworks := h.queued share call hqueued
      exact ⟨hworks.place, hworks.own⟩
    · have hworks := (h.flying service run hrun entry hentry).works
      exact ⟨hworks.place, hworks.own⟩
  flying service run hrun entry hentry := (h.flying service run hrun entry hentry).owned

/-- In every proper run the grantees are kept apart, and so does each further proper step, which
leaves the grants of all other grantees alone. -/
theorem isolated_of_run {events : List Event}
    (run : Run (fun g event g' => Step config g event g' ∧ Proper config g event) .boot events g) :
    Isolated g ∧ ∀ event g', Step config g event g' → Proper config g event →
      Isolated g' ∧ Confined g event g' := by
  have hsealed : Sealed config g := by
    refine run.invariant (fun _ _ _ h step => ?_) sealed_boot
    exact (h.next step.1 step.2).1
  refine ⟨hsealed.isolated, fun event g' hstep hproper => ?_⟩
  obtain ⟨hlater, hconfined⟩ := hsealed.next hstep hproper
  exact ⟨hlater.isolated, hconfined⟩

/-! ### One connection -/

def remote : WitSocketAddress := ⟨.v4 [10, 0, 2, 2], 80⟩

/-- The service runs, and a child asks for a connection that the intake starts. -/
def connecting : List Event :=
  [.openRun 0 0 true, .mint, .submit 0 (.connect remote) true, .drain 0]

/-- The owner has the connection. -/
def connected : Event := .advance 0 0 ⟨some .handler, some .handle⟩

theorem proper_mint_of_idle (hidle : ∀ share call, ¬ Pending g share call) :
    Proper config g .mint :=
  fun share _ _ call hpending => absurd hpending (hidle share call)

/-- The child gets its connection and goes. -/
theorem isolated_of_run_connected : ∃ g g', Isolated g ∧
    (g.grantAt 0 0).isSome ∧ Isolated g' ∧ Confined g (.dropChild 0) g' := by
  have run : ∃ g g', Run (fun g event g' => Step netConfig g event g' ∧ Proper netConfig g event)
      .boot (connecting ++ [connected]) g ∧ (g.grantAt 0 0).isSome ∧
      Step netConfig g (.dropChild 0) g' ∧ Proper netConfig g (.dropChild 0) := by
    refine ⟨_, _, .cons ⟨rfl, fun _ _ heq => by cases heq⟩ (.cons ⟨rfl, proper_mint_of_idle ?_⟩ (.cons ⟨rfl, ?_⟩
      (.cons ⟨rfl, trivial⟩ (.cons ⟨rfl, trivial⟩ (.nil _))))), rfl, rfl, ?_⟩
    case refine_1 =>
      rintro share call (hqueue | ⟨service, run, hrun, -, entry, hentry, -⟩)
      · simp only [Gate.openRun, Gate.wireOwner, Gate.onShare, Gate.boot, Function.update_apply]
          at hqueue
        split at hqueue <;> exact absurd hqueue List.not_mem_nil
      · simp only [Gate.openRun, Gate.wireOwner, Gate.onShare, Gate.boot, Function.update_apply]
          at hrun
        split at hrun
        case isTrue => exact absurd (Option.some.inj hrun ▸ hentry) List.not_mem_nil
        case isFalse => cases hrun
    all_goals
      intro handle granted hchild hgranted
      rw [← Option.some.inj hchild] at hgranted
      exact Option.some.inj hgranted ▸ rfl
  obtain ⟨g, g', run, hgranted, hstep, hproper⟩ := run
  obtain ⟨hisolated, hnext⟩ := isolated_of_run run
  exact ⟨g, g', hisolated, hgranted, hnext _ _ hstep hproper⟩

/-- A child goes while its connection is being made, another is minted at the same index, and
the connection comes up in the table of that one. -/
theorem inherited_connection :
    ¬ ∀ (config : Config) (events : List Event) (g : Gate),
      Run (Step config) .boot events g → Isolated g := by
  intro h
  have run : ∃ g, Run (Step netConfig) .boot
      (connecting ++ [.dropChild 0, .mint, connected]) g ∧
      g.grantAt 0 0 = some ⟨[some ⟨0, 0, true⟩, some ⟨0, 0, false⟩], none, 1⟩ ∧
      (g.calls 0).mint = 0 :=
    ⟨_, .cons rfl (.cons rfl (.cons rfl (.cons rfl (.cons rfl (.cons rfl (.cons rfl (.nil _))))))),
      rfl, rfl⟩
  obtain ⟨g, run, hgranted, hmint⟩ := run
  have howned := (h _ _ g run).owned 0 0 _ hgranted 1 ⟨0, 0, false⟩ rfl
  exact absurd (hmint.symm.trans howned.mint) nofun

end Eo9.Gate
