import Eo9.Kernel.Endpoint
import Eo9.Kernel.Quiesce

/-!
# Buffers that go back to the heap

When the storage of a buffer is freed, no device may still write to it. Over every run of any
number of tasks, that is so exactly where the licences and the writes to registers that the
teardown finds are among those that it undoes.
-/

namespace Eo9.Kernel.Devices

open Eo9.Library
open Eo9.Kernel.Pci (Armed AtRegister Board Bus ConfigAccess DmaBuffer FunctionAddress Grows
  Happening Held LawfulPci Machine RegionDef Settled freedAll)
open Eo9.Kernel.Pci.LawfulPci (master)
open Eo9.Kernel.Platform (Grant block)

variable {D : Type}

/-- A task did something of a kind, and has not ended since. -/
def Since (p : Event → Prop) (events : List Event) (task : Nat) : Prop :=
  ∃ earlier event later, events = earlier ++ event :: later ∧ event.task = task ∧ p event ∧
    ∀ other ∈ later, ¬ (other.task = task ∧ other.call = .finish)

def HasOpened (events : List Event) (task : Nat) (f : FunctionAddress) : Prop :=
  Since (fun event => event.call = .pci (.open_ f) ∧ ∃ rep, event.answer = .pci (.ok (.handle rep)))
    events task

def Claimed (D : Type) [Board D] (events : List Event) (task : Nat) (region : RegionDef) : Prop :=
  ∃ name, (Board.regions D).find? (fun region => region.name = name) = some region ∧
    Since (fun event => event.call = .platform (.claim name) ∧
      ∃ rep, event.answer = .platform (.ok (.handle rep))) events task

section Since

variable {p : Event → Prop} {events : List Event} {event : Event} {task : Nat}

theorem Since.snoc (h : Since p events task) (hf : ¬ (event.task = task ∧ event.call = .finish)) :
    Since p (events ++ [event]) task := by
  obtain ⟨earlier, first, later, rfl, htask, hp, hlater⟩ := h
  refine ⟨earlier, first, later ++ [event], by simp, htask, hp, fun other hother => ?_⟩
  rcases List.mem_append.mp hother with hold | hnew
  · exact hlater other hold
  · exact List.mem_singleton.mp hnew ▸ hf

theorem Since.last (htask : event.task = task) (hp : p event) : Since p (events ++ [event]) task :=
  ⟨events, event, [], rfl, htask, hp, fun _ h => absurd h List.not_mem_nil⟩

end Since

/-- The call takes licences back or runs hooks. -/
def Call.revokes : Call → Bool
  | .pci (.setBusMaster _ enable) => !enable
  | .pci (.dropDevice _) | .pci (.dropBuffer _) => true
  | .platform (.dropRegion _) | .platform (.dropBuffer _) => true
  | .finish => true
  | _ => false

theorem Call.revokes_pci {call : Pci.Call} (h : (Call.pci call).revokes = true) :
    (∃ device, call = .setBusMaster device false) ∨ (∃ rep, call = .dropDevice rep) ∨
      ∃ rep, call = .dropBuffer rep := by
  cases call with
  | setBusMaster device enable =>
    cases enable with
    | false => exact .inl ⟨device, rfl⟩
    | true => exact absurd h nofun
  | dropDevice rep => exact .inr (.inl ⟨rep, rfl⟩)
  | dropBuffer rep => exact .inr (.inr ⟨rep, rfl⟩)
  | _ => exact absurd h nofun

variable [Bus D] [ConfigAccess D] [Board D] [LawfulPci D]

/-- What may happen in a call of the task: a buffer is freed while no function that the task
opened has its licence and each region that it claimed is settled, if there is a hook for it,
and only regions that the task claimed are quiesced. -/
def Sound (events : List Event) (task : Nat) (earlier : List (Happening D)) : Happening D → Prop
  | .freed _ bus => (∀ f, HasOpened events task f → master bus f = false) ∧
      ∀ region, Claimed D events task region → region.quiesce.isSome → Settled region.name earlier
  | .quiesced name => ∃ region, Claimed D events task region ∧ region.name = name
  | .wrote _ => True

/-- No device masters the bus into freed memory, and a revocation touches the functions and
the regions of its task only. -/
structure Revoked (events : List Event) (kernel : Kernel D) (event : Event)
    (kernel' : Kernel D) : Prop where
  happenings : Grows (Sound events event.task) kernel.machine.history kernel'.machine.history
  licences : event.call.revokes → ∀ f, ¬ HasOpened events event.task f →
    master kernel'.machine.bus f = master kernel.machine.bus f
  accesses : event.call.revokes → ∀ touch ∈ kernel'.machine.touched,
    (∃ f, HasOpened events event.task f ∧ AtRegister D f 4 touch) ∨
      ∃ region, Claimed D events event.task region ∧ touch.extent.Within (block region)

/-- A licence of a function that the task opened was granted through a handle of it. -/
def Accounted (events : List Event) (kernel : Kernel D) (task : Nat) : Prop :=
  ∀ f, HasOpened events task f → master kernel.machine.bus f = true → Armed (kernel.pci task).devices f

/-- The regions with a hook that the task claimed are settled, unless they are exempt. -/
def Rested (exempt : RegionDef → Prop) (events : List Event) (kernel : Kernel D) (task : Nat) :
    Prop :=
  ∀ region, Claimed D events task region → region.quiesce.isSome → ¬ exempt region →
    Settled region.name kernel.machine.history

/-- There is a buffer in the table. -/
def Stocked (buffers : Slots DmaBuffer) : Prop := ∃ buffer, some buffer ∈ buffers

/-- The teardown of the buffers undoes all that the task has done: the licences before a PCI
buffer goes, nothing before a platform buffer goes, and at the end of the task the licences
first and the writes to regions that it still holds before the platform buffers go. -/
def Guarded (events : List Event) (kernel : Kernel D) (event : Event) : Prop :=
  match event.call with
  | .pci (.dropBuffer rep) =>
    ((kernel.pci event.task).buffers.get rep).isSome →
      Accounted events kernel event.task ∧ Rested (fun _ => False) events kernel event.task
  | .platform (.dropBuffer rep) =>
    ((kernel.platform event.task).buffers.get rep).isSome →
      (∀ f, HasOpened events event.task f → master kernel.machine.bus f = false) ∧
        Rested (fun _ => False) events kernel event.task
  | .finish =>
    (Stocked (kernel.pci event.task).buffers →
      Accounted events kernel event.task ∧ Rested (fun _ => False) events kernel event.task) ∧
    (Stocked (kernel.platform event.task).buffers →
      Accounted events kernel event.task ∧
        Rested (fun region => some region ∈ (kernel.platform event.task).regions)
          events kernel event.task)
  | _ => True

structure Kept (events : List Event) (kernel : Kernel D) : Prop where
  functions : ∀ task f, Held (kernel.pci task).devices f →
    Pci.Reachable D f ∧ HasOpened events task f
  regions : ∀ task region, some region ∈ (kernel.platform task).regions →
    Claimed D events task region

section Kept

variable {grant : Grant} {events : List Event} {kernel kernel' : Kernel D} {event : Event}
  {task : Nat}

omit [Bus D] [ConfigAccess D] [LawfulPci D] in
theorem Claimed.mem {region : RegionDef} (h : Claimed D events task region) :
    region ∈ Board.regions D := by
  obtain ⟨name, hfind, -⟩ := h
  exact List.mem_of_find?_eq_some hfind

omit [Bus D] [ConfigAccess D] [LawfulPci D] in
theorem Claimed.eq_of_name {region region' : RegionDef} (h : Claimed D events task region)
    (h' : Claimed D events task region') (hname : region.name = region'.name) :
    region = region' := by
  obtain ⟨name, hfind, -⟩ := h
  obtain ⟨name', hfind', -⟩ := h'
  have hn : region.name = name := by simpa using List.find?_some hfind
  have hn' : region'.name = name' := by simpa using List.find?_some hfind'
  rw [← hn, hname, hn', hfind'] at hfind
  exact (Option.some.inj hfind).symm

theorem Kept.orderly (h : Kept events kernel) (task : Nat) :
    Pci.Orderly (kernel.enter.pciStore task) := fun f hf => (h.functions task f hf).1

theorem Kept.board (h : Kept events kernel) {region : RegionDef}
    (hr : some region ∈ (kernel.platform task).regions) :
    Claimed D events task region ∧ region ∈ Board.regions D :=
  ⟨h.regions task region hr, (h.regions task region hr).mem⟩

/-- The states that the end of a task goes through: its handles are quiesced, its PCI buffers
freed, its regions quiesced and its platform buffers freed. -/
structure Ends (task : Nat) (kernel : Kernel D) (store₁ : Pci.Store D)
    (m : Machine D) (kernel' : Kernel D) : Prop where
  quiesces : Pci.Quiesces (kernel.enter.pciStore task) store₁
  calms : Platform.Calms (fun region => some region ∈ (kernel.platform task).regions)
    { store₁.machine with
      history := freedAll store₁.machine.bus (kernel.pci task).buffers store₁.machine.history } m
  settled : ∀ region, some region ∈ (kernel.platform task).regions → region.quiesce.isSome →
    Settled region.name m.history
  machine : kernel'.machine =
    { m with history := freedAll m.bus (kernel.platform task).buffers m.history }
  pci : kernel'.pci = Function.update kernel.pci task {}
  platform : kernel'.platform = Function.update kernel.platform task {}

theorem Kept.finish (h : Kept events kernel) {answer : Answer}
    (hs : Step grant kernel ⟨task, .finish, answer⟩ kernel') :
    ∃ store₁ m, Ends task kernel store₁ m kernel' := by
  injection hs with _ hkernel
  obtain ⟨store₁, hquiesces, hpci, hmachine⟩ :=
    (Action.wp_mono (Pci.dropTables_spec (h.orderly task)) (fun _ _ hd => hd)
      fun _ _ => False.elim).final (p := fun store' : Pci.Store D => ∃ store₁,
        Pci.Quiesces (kernel.enter.pciStore task) store₁ ∧ store'.pci = {} ∧ store'.machine =
          { store₁.machine with
            history :=
              freedAll store₁.machine.bus (kernel.pci task).buffers store₁.machine.history })
  generalize (Pci.dropTables (kernel.enter.pciStore task)).2 = store at hkernel hpci hmachine
  have hregions : ∀ region, some region ∈
      ((kernel.withPci task store).platformStore task).platform.regions →
      some region ∈ (kernel.platform task).regions ∧ region ∈ Board.regions D :=
    fun region hr => ⟨hr, (h.regions task region hr).mem⟩
  obtain ⟨m, hcalms, hsettled, hplatform, hfreed⟩ :=
    (Action.wp_mono (Platform.dropTables_spec hregions) (fun _ _ hd => hd)
      fun _ _ => False.elim).final (p := fun store' : Platform.Store D => ∃ m,
        Platform.Calms (fun region => some region ∈ (kernel.platform task).regions)
          store.machine m ∧
        (∀ region, some region ∈ (kernel.platform task).regions → region.quiesce.isSome →
          Settled region.name m.history) ∧ store'.platform = {} ∧
        store'.machine =
          { m with history := freedAll m.bus (kernel.platform task).buffers m.history })
  refine ⟨store₁, m, hquiesces, hmachine ▸ hcalms, hsettled, ?_, ?_, ?_⟩
  · rw [← hkernel]
    exact hfreed
  · rw [← hkernel, ← hpci]
    rfl
  · rw [← hkernel, ← hplatform]
    rfl

/-- What the tables hold is still there after a call that changes them for one task. -/
theorem Kept.of_tables (h : Kept events kernel)
    (hpci : ∀ task f, Held (kernel'.pci task).devices f →
      (Held (kernel.pci task).devices f ∧ ¬ (event.task = task ∧ event.call = .finish)) ∨
      Pci.Reachable D f ∧ HasOpened (events ++ [event]) task f)
    (hplatform : ∀ task region, some region ∈ (kernel'.platform task).regions →
      (some region ∈ (kernel.platform task).regions ∧
        ¬ (event.task = task ∧ event.call = .finish)) ∨
      Claimed D (events ++ [event]) task region) :
    Kept (events ++ [event]) kernel' where
  functions task f hf := by
    rcases hpci task f hf with ⟨hold, hlives⟩ | hnew
    · have hkept := h.functions task f hold
      exact ⟨hkept.1, hkept.2.snoc hlives⟩
    · exact hnew
  regions task region hr := by
    rcases hplatform task region hr with ⟨hold, hlives⟩ | hnew
    · obtain ⟨name, hfind, hsince⟩ := h.regions task region hold
      exact ⟨name, hfind, hsince.snoc hlives⟩
    · exact hnew

theorem Kept.step (h : Kept events kernel) (hs : Step grant kernel event kernel') :
    Kept (events ++ [event]) kernel' := by
  obtain ⟨task, call, answer⟩ := event
  cases call with
  | pci call =>
    obtain ⟨hanswer, rfl⟩ := hs.pci
    refine h.of_tables (fun other f hf => ?_) fun other region hr => .inl ⟨hr, nofun⟩
    by_cases hother : other = task
    · subst hother
      simp only [Kernel.withPci, Function.update_self] at hf
      rcases Pci.Call.run_held (h.orderly other) hf with hold | ⟨rfl, hreach, rep, hok⟩
      · exact .inl ⟨hold, nofun⟩
      · exact .inr ⟨hreach, .last rfl ⟨rfl, rep, hanswer.trans (congrArg _ hok)⟩⟩
    · simp only [Kernel.withPci, Function.update_of_ne hother] at hf
      exact .inl ⟨hf, nofun⟩
  | platform call =>
    obtain ⟨hanswer, rfl⟩ := hs.platform
    refine h.of_tables (fun other f hf => .inl ⟨hf, nofun⟩) fun other region hr => ?_
    by_cases hother : other = task
    · subst hother
      simp only [Kernel.withPlatform, Function.update_self] at hr
      rcases Platform.Call.run_regions (fun r hmem => (h.board hmem).2) hr
        with hold | ⟨name, rfl, hfind, rep, hok⟩
      · exact .inl ⟨hold, nofun⟩
      · exact .inr ⟨name, hfind, .last rfl ⟨rfl, rep, hanswer.trans (congrArg _ hok)⟩⟩
    · simp only [Kernel.withPlatform, Function.update_of_ne hother] at hr
      exact .inl ⟨hr, nofun⟩
  | finish =>
    obtain ⟨store₁, m, hends⟩ := h.finish hs
    refine h.of_tables (fun other f hf => ?_) fun other region hr => ?_
    · rw [hends.pci] at hf
      by_cases hother : other = task
      · rw [hother, Function.update_self] at hf
        obtain ⟨device, hmem, -⟩ := hf
        exact absurd hmem List.not_mem_nil
      · rw [Function.update_of_ne hother] at hf
        exact .inl ⟨hf, fun hself => hother hself.1.symm⟩
    · rw [hends.platform] at hr
      by_cases hother : other = task
      · rw [hother, Function.update_self] at hr
        exact absurd hr List.not_mem_nil
      · rw [Function.update_of_ne hother] at hr
        exact .inl ⟨hr, fun hself => hother hself.1.symm⟩

/-- Along every run the tables hold what their tasks opened and claimed. -/
theorem kept_run {bus : D} (run : Run (Step grant) (boot bus) events kernel) :
    Kept events kernel := by
  have hstart : Kept [] (boot bus : Kernel D) := by
    refine ⟨fun task f hf => ?_, fun task region hr => absurd hr List.not_mem_nil⟩
    obtain ⟨device, hmem, -⟩ := hf
    exact absurd hmem List.not_mem_nil
  exact run.traced (fun _ _ _ _ h hs => h.step hs) hstart

end Kept

section Calls

variable {grant : Grant} {events : List Event} {kernel kernel' : Kernel D} {task : Nat}
  {call : Call} {answer : Answer} {fs : FunctionAddress → Prop} {m : Machine D}

/-- A revocation through the handles of a task touches the functions of the task only. -/
theorem Kept.revoked (h : Kept events kernel)
    (hw : Pci.Withdraws (kernel.pci task).devices fs kernel.enter.machine m)
    (hbus : kernel'.machine.bus = m.bus) (htouched : kernel'.machine.touched = m.touched)
    (hgrows : Grows (Sound events task) kernel.machine.history kernel'.machine.history) :
    Revoked events kernel ⟨task, call, answer⟩ kernel' where
  happenings := hgrows
  licences _ f hf := by
    rw [hbus]
    exact hw.keeps fun hheld => hf (h.functions task f hheld).2
  accesses _ touch ht := by
    obtain ⟨new, hnew, hp⟩ := hw.touching
    rw [htouched, hnew, show kernel.enter.machine.touched = [] from rfl, List.append_nil] at ht
    obtain ⟨f, hheld, hat⟩ := hp touch ht
    exact .inl ⟨f, (h.functions task f hheld).2, hat⟩

/-- Where the licences are accounted for, none is left when the handles are quiesced. -/
theorem accounted_iff (events : List Event) {store₁ : Pci.Store D}
    (hq : Pci.Quiesces (kernel.enter.pciStore task) store₁) :
    (∀ f, HasOpened events task f → master store₁.machine.bus f = false) ↔
      Accounted events kernel task := by
  have hrevokes := hq.withdraws.revokes
  constructor
  · intro hclear f hf hset
    by_contra hnot
    have hsame : master store₁.machine.bus f = true := (hrevokes.spares.2 f hnot).trans hset
    exact absurd ((hclear f hf).symm.trans hsame) nofun
  · intro haccounted f hf
    rw [Bool.eq_false_iff]
    intro hset
    have harmed := haccounted f hf (hrevokes.licenses.2 f id hset)
    exact absurd ((hrevokes.clear f harmed).symm.trans hset) nofun

theorem Kept.pci_dropBuffer (h : Kept events kernel) {rep : Nat}
    (hs : Step grant kernel ⟨task, .pci (.dropBuffer rep), answer⟩ kernel') :
    Revoked events kernel ⟨task, .pci (.dropBuffer rep), answer⟩ kernel' ↔
      Guarded events kernel ⟨task, .pci (.dropBuffer rep), answer⟩ := by
  obtain ⟨-, rfl⟩ := hs.pci
  obtain ⟨store₁, hquiesces, -, hmachine⟩ := Pci.Call.run_dropBuffer (h.orderly task) rep
  have hhistory : store₁.machine.history = kernel.machine.history :=
    hquiesces.withdraws.revokes.spares.1
  have haccounted := accounted_iff events hquiesces
  rcases hget : (kernel.pci task).buffers.get rep with _ | buffer
  · have hstay : ((Pci.Call.dropBuffer rep).run (kernel.enter.pciStore task)).2.machine =
        store₁.machine := by
      rw [hmachine, show (kernel.enter.pciStore task).pci.buffers.get rep = none from hget]
    refine ⟨fun _ hsome => absurd hsome (by simp [hget]), fun _ => h.revoked hquiesces.withdraws
      (congrArg _ hstay) (congrArg _ hstay) ?_⟩
    exact ((congrArg _ hstay).trans hhistory).symm ▸ .nil
  have hfreed : ((Pci.Call.dropBuffer rep).run (kernel.enter.pciStore task)).2.machine =
      { store₁.machine with
        history := .freed buffer.storage store₁.machine.bus :: kernel.machine.history } := by
    rw [hmachine, show (kernel.enter.pciStore task).pci.buffers.get rep = some buffer from hget,
      ← hhistory]
  have hgrown := congrArg Machine.history hfreed
  have hbus := congrArg Machine.bus hfreed
  have htouched := congrArg Machine.touched hfreed
  constructor
  · intro hrevoked _
    have hgrows := hrevoked.happenings
    rw [show (kernel.withPci task _).machine.history = _ from hgrown] at hgrows
    obtain ⟨hclear, hsettled⟩ := hgrows.head (Nat.le_refl _)
    exact ⟨haccounted.mp hclear, fun region hclaimed hhook _ => hsettled region hclaimed hhook⟩
  · intro hguarded
    obtain ⟨hacc, hrested⟩ := hguarded (by simp [hget])
    refine h.revoked hquiesces.withdraws hbus htouched ?_
    rw [show (kernel.withPci task _).machine.history = _ from hgrown]
    refine .cons .nil ⟨haccounted.mpr hacc, fun region hclaimed hhook => ?_⟩
    exact hrested region hclaimed hhook id

theorem Kept.platform_dropBuffer {rep : Nat}
    (hs : Step grant kernel ⟨task, .platform (.dropBuffer rep), answer⟩ kernel') :
    Revoked events kernel ⟨task, .platform (.dropBuffer rep), answer⟩ kernel' ↔
      Guarded events kernel ⟨task, .platform (.dropBuffer rep), answer⟩ := by
  obtain ⟨-, rfl⟩ := hs.platform
  have hmachine := (Platform.Call.run_dropBuffer grant
    (kernel.enter.platformStore task) rep).machine
  rcases hget : (kernel.platform task).buffers.get rep with _ | buffer
  · rw [show (kernel.enter.platformStore task).platform.buffers.get rep = none from hget]
      at hmachine
    have hbus := congrArg Machine.bus hmachine
    have htouched := congrArg Machine.touched hmachine
    have hgrown := congrArg Machine.history hmachine
    refine ⟨fun _ hsome => absurd hsome (by simp [hget]), fun _ => ⟨?_, fun _ f _ => ?_, ?_⟩⟩
    · rw [show (kernel.withPlatform task _).machine.history = _ from hgrown]
      exact .nil
    · exact congrArg (master · f) hbus
    · intro _ touch ht
      rw [show (kernel.withPlatform task _).machine.touched = _ from htouched] at ht
      exact absurd ht List.not_mem_nil
  rw [show (kernel.enter.platformStore task).platform.buffers.get rep = some buffer from hget]
    at hmachine
  have hbus := congrArg Machine.bus hmachine
  have htouched := congrArg Machine.touched hmachine
  have hgrown := congrArg Machine.history hmachine
  constructor
  · intro hrevoked _
    have hgrows := hrevoked.happenings
    rw [show (kernel.withPlatform task _).machine.history = _ from hgrown] at hgrows
    obtain ⟨hclear, hsettled⟩ := hgrows.head (Nat.le_refl _)
    exact ⟨hclear, fun region hclaimed hhook _ => hsettled region hclaimed hhook⟩
  · intro hguarded
    obtain ⟨hclear, hrested⟩ := hguarded (by simp [hget])
    refine ⟨?_, fun _ f _ => congrArg (master · f) hbus, fun _ touch ht => ?_⟩
    · rw [show (kernel.withPlatform task _).machine.history = _ from hgrown]
      exact .cons .nil ⟨hclear, fun region hclaimed hhook => hrested region hclaimed hhook id⟩
    · rw [show (kernel.withPlatform task _).machine.touched = _ from htouched] at ht
      exact absurd ht List.not_mem_nil

/-- The regions that a task holds are among those that it claimed. -/
theorem Kept.calms_sound (h : Kept events kernel) {m' : Machine D}
    (hc : Platform.Calms (fun region => some region ∈ (kernel.platform task).regions) m m') :
    Grows (Sound events task) m.history m'.history := by
  refine hc.grows.mono fun l x hx => ?_
  obtain ⟨region, hmem, rfl⟩ := hx
  exact ⟨region, h.regions task region hmem, rfl⟩

theorem Kept.platform_dropRegion (h : Kept events kernel) {rep : Nat}
    (hs : Step grant kernel ⟨task, .platform (.dropRegion rep), answer⟩ kernel') :
    Revoked events kernel ⟨task, .platform (.dropRegion rep), answer⟩ kernel' := by
  obtain ⟨-, rfl⟩ := hs.platform
  have hcalms := (Platform.Call.run_dropRegion grant
    (kernel.enter.platformStore task) rep fun region hr =>
      ⟨hr, (h.regions task region hr).mem⟩).1
  have hgrown := h.calms_sound hcalms
  refine ⟨hgrown, fun _ f _ => hcalms.master f, fun _ touch ht => ?_⟩
  obtain ⟨new, hnew, hp⟩ := hcalms.touching
  rw [show (kernel.withPlatform task _).machine.touched = _ from hnew,
    show (kernel.enter.platformStore task).machine.touched = [] from rfl, List.append_nil] at ht
  obtain ⟨region, hmem, hwithin⟩ := hp touch ht
  exact .inr ⟨region, h.regions task region hmem, hwithin⟩

/-- A call that revokes nothing and frees nothing. -/
theorem revoked_of_history (hrevokes : call.revokes = false)
    (hgrows : Grows (Sound events task) kernel.machine.history kernel'.machine.history) :
    Revoked events kernel ⟨task, call, answer⟩ kernel' :=
  ⟨hgrows, fun hcall => absurd (hrevokes.symm.trans hcall) nofun,
    fun hcall => absurd (hrevokes.symm.trans hcall) nofun⟩

theorem Kept.pci_other (h : Kept events kernel) {call : Pci.Call}
    (hs : Step grant kernel ⟨task, .pci call, answer⟩ kernel')
    (hdrop : ∀ rep, call ≠ .dropBuffer rep) :
    Revoked events kernel ⟨task, .pci call, answer⟩ kernel' := by
  obtain ⟨-, rfl⟩ := hs.pci
  have hhistory := Pci.Call.run_history (h.orderly task) hdrop
  have hgrows : Grows (Sound events task) kernel.machine.history
      (call.run (kernel.enter.pciStore task)).2.machine.history := hhistory.symm ▸ .nil
  rcases hrevokes : (Call.pci call).revokes with _ | _
  · exact revoked_of_history hrevokes hgrows
  rcases Call.revokes_pci hrevokes with ⟨device, rfl⟩ | ⟨rep, rfl⟩ | ⟨rep, rfl⟩
  · obtain ⟨fs, hw⟩ := Pci.Call.run_setBusMaster (h.orderly task) device
    exact h.revoked hw rfl rfl hgrows
  · obtain ⟨fs, hw⟩ := (Pci.Call.run_dropDevice (h.orderly task) rep).1
    exact h.revoked hw rfl rfl hgrows
  · exact absurd rfl (hdrop rep)

/-- A write to a register is no concern. -/
theorem platform_other {call : Platform.Call}
    (hs : Step grant kernel ⟨task, .platform call, answer⟩ kernel')
    (hregion : ∀ rep, call ≠ .dropRegion rep) (hbuffer : ∀ rep, call ≠ .dropBuffer rep) :
    Revoked events kernel ⟨task, .platform call, answer⟩ kernel' := by
  obtain ⟨-, rfl⟩ := hs.platform
  have hwrites : Platform.Writes (kernel.enter.platformStore task).machine
      (call.run grant (kernel.enter.platformStore task)).2.machine := by
    by_cases hclaim : ∃ name, call = .claim name
    · obtain ⟨name, rfl⟩ := hclaim
      exact Platform.Call.run_claim_history name
    · exact (Platform.Call.run_restful (fun _ heq => hclaim ⟨_, heq⟩) hregion hbuffer).1
  have hgrows := hwrites.mono (q := Sound events task) fun l x ⟨name, hx⟩ => hx ▸ trivial
  refine revoked_of_history ?_ hgrows
  cases call with
  | dropRegion rep => exact absurd rfl (hregion rep)
  | dropBuffer rep => exact absurd rfl (hbuffer rep)
  | _ => rfl

section Finish

variable {store₁ : Pci.Store D}

omit [Bus D] [ConfigAccess D] [LawfulPci D] in
/-- What the regions of the task claimed look like when its platform buffers go. -/
theorem rested_iff (h : ∀ region, some region ∈ (kernel.platform task).regions →
      Claimed D events task region) {old new : List (Happening D)}
    (hgrows : Grows (fun _ x => ∃ region, some region ∈ (kernel.platform task).regions ∧
      x = .quiesced region.name) old new)
    (hheld : ∀ region, some region ∈ (kernel.platform task).regions → region.quiesce.isSome →
      Settled region.name new) :
    (∀ region, Claimed D events task region → region.quiesce.isSome → Settled region.name new) ↔
      ∀ region, Claimed D events task region → region.quiesce.isSome →
        ¬ some region ∈ (kernel.platform task).regions → Settled region.name old := by
  constructor
  · intro hnew region hclaimed hhook hnot
    rcases Platform.quiesced_of_settled hgrows (hnew region hclaimed hhook) with hold | ⟨held, hmem, hname⟩
    · exact hold
    · exact absurd ((h held hmem).eq_of_name hclaimed hname ▸ hmem) hnot
  · intro hold region hclaimed hhook
    by_cases hmem : some region ∈ (kernel.platform task).regions
    · exact hheld region hmem hhook
    · exact Platform.settled_of_quiesced hgrows (hold region hclaimed hhook hmem)

/-- The history of the end of a task is in keeping where its teardown is guarded. -/
theorem Ends.happenings_iff (h : Kept events kernel) (hends : Ends task kernel store₁ m kernel') :
    Grows (Sound events task) kernel.machine.history kernel'.machine.history ↔
      Guarded events kernel ⟨task, .finish, answer⟩ := by
  have hhistory : store₁.machine.history = kernel.machine.history :=
    hends.quiesces.withdraws.revokes.spares.1
  have hmachine := congrArg Machine.history hends.machine
  have haccounted := accounted_iff events hends.quiesces
  have hmaster : ∀ f, master m.bus f = master store₁.machine.bus f := hends.calms.master
  have hcalms := hends.calms.grows
  have hsound := h.calms_sound hends.calms
  rw [hhistory] at hcalms hsound
  have hrested := rested_iff (h.regions task) hcalms hends.settled
  simp only [Pci.freedAll_settled] at hrested
  have hlen : kernel.machine.history.length ≤ m.history.length := by
    calc kernel.machine.history.length
        ≤ (freedAll store₁.machine.bus (kernel.pci task).buffers kernel.machine.history).length :=
          Pci.freedAll_length_le _ _ _
      _ ≤ m.history.length := hcalms.length_le
  rw [hmachine]
  constructor
  · intro hgrows
    refine ⟨fun ⟨buffer, hmem⟩ => ?_, fun ⟨buffer, hmem⟩ => ?_⟩
    · obtain ⟨later, hlater⟩ := Pci.freedAll_suffix m.bus (kernel.platform task).buffers m.history
      obtain ⟨later', hlater'⟩ := hcalms.suffix
      have hmiddle := (hlater ▸ hgrows).before hlen
      rw [hlater'] at hmiddle
      have hpci := hmiddle.before (Pci.freedAll_length_le _ _ _)
      obtain ⟨storage, hclear, hsettled⟩ := Pci.freedAll_added hpci (Nat.le_refl _) hmem
      exact ⟨haccounted.mp hclear, fun region hclaimed hhook _ => hsettled region hclaimed hhook⟩
    · obtain ⟨storage, hclear, hsettled⟩ := Pci.freedAll_added hgrows hlen hmem
      exact ⟨haccounted.mp fun f hf => (hmaster f).symm.trans (hclear f hf), hrested.mp hsettled⟩
  · intro ⟨hpci, hplatform⟩
    refine Pci.freedAll_grows ((Pci.freedAll_grows .nil fun buffer hmem l hl => ?_).trans hsound)
      fun buffer hmem l hl => ?_
    · obtain ⟨hacc, hrest⟩ := hpci ⟨buffer, hmem⟩
      refine ⟨haccounted.mpr hacc, fun region hclaimed hhook => hl _ ?_⟩
      exact hrest region hclaimed hhook id
    · obtain ⟨hacc, hrest⟩ := hplatform ⟨buffer, hmem⟩
      refine ⟨fun f hf => (hmaster f).trans (haccounted.mpr hacc f hf), fun region hclaimed hhook => ?_⟩
      exact hl _ (hrested.mpr hrest region hclaimed hhook)

/-- The end of a task touches its functions and its regions only. -/
theorem Ends.revoked (h : Kept events kernel) (hends : Ends task kernel store₁ m kernel')
    (hgrows : Grows (Sound events task) kernel.machine.history kernel'.machine.history) :
    Revoked events kernel ⟨task, .finish, answer⟩ kernel' where
  happenings := hgrows
  licences _ f hf := by
    have hbus := congrArg Machine.bus hends.machine
    calc master kernel'.machine.bus f
        = master m.bus f := congrArg (master · f) hbus
      _ = master store₁.machine.bus f := hends.calms.master f
      _ = master kernel.machine.bus f :=
          hends.quiesces.withdraws.keeps fun hheld => hf (h.functions task f hheld).2
  accesses _ touch ht := by
    have htouched := congrArg Machine.touched hends.machine
    obtain ⟨new, hnew, hp⟩ := hends.quiesces.withdraws.touching
    obtain ⟨new', hnew', hp'⟩ := hends.calms.touching
    rw [htouched] at ht
    change touch ∈ m.touched at ht
    rw [hnew'] at ht
    rcases List.mem_append.mp ht with hlast | hfirst
    · obtain ⟨region, hmem, hwithin⟩ := hp' touch hlast
      exact .inr ⟨region, h.regions task region hmem, hwithin⟩
    · change touch ∈ store₁.machine.touched at hfirst
      rw [hnew, show (kernel.enter.pciStore task).machine.touched = [] from rfl,
        List.append_nil] at hfirst
      obtain ⟨f, hheld, hat⟩ := hp touch hfirst
      exact .inl ⟨f, (h.functions task f hheld).2, hat⟩

end Finish

end Calls

/-- The state after a call of task 0, and the call as an event. -/
def Kernel.after (kernel : Kernel D) (call : Call) : Kernel D :=
  (kernel.perform .none 0 call).2

def Kernel.event (kernel : Kernel D) (call : Call) : Event :=
  ⟨0, call, (kernel.perform .none 0 call).1⟩

omit [LawfulPci D] in
theorem step_after (kernel : Kernel D) (call : Call) :
    Step .none kernel (kernel.event call) (kernel.after call) := rfl

/-- A driver that opened the endpoint and has a buffer. -/
def stocked : Kernel Endpoint :=
  ((boot ⟨0, 0⟩).after (.pci (.open_ Endpoint.slot))).after (.pci (.allocDma 0 4096 7))

def stockedEvents : List Event :=
  [Kernel.event (boot (⟨0, 0⟩ : Endpoint)) (.pci (.open_ Endpoint.slot)),
    Kernel.event ((boot (⟨0, 0⟩ : Endpoint)).after (.pci (.open_ Endpoint.slot)))
      (.pci (.allocDma 0 4096 7))]

theorem stocked_run : Run (Step .none) (boot (⟨0, 0⟩ : Endpoint)) stockedEvents stocked :=
  .cons (step_after _ _) (.cons (step_after _ _) (.nil _))

/-- The licence is granted through the handle. -/
def armed : Kernel Endpoint := stocked.after (.pci (.setBusMaster 0 true))

/-- The licence is granted with a write to the command register. -/
def licensed : Kernel Endpoint := stocked.after (.pci (.configWrite 0 4 .word 4))

end Eo9.Kernel.Devices
