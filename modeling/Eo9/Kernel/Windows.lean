import Eo9.Kernel.Endpoint
import Eo9.Kernel.Handles
import Mathlib.Data.List.Pairwise

/-!
# Registers stay in their window

Where an opening finds an address in the register of a BAR, it takes that address on trust.
If all the addresses so found are ones that the BAR was given before, then every access
to a register stays in the range of the BAR and in the window of its segment, and the
ranges of different BARs are apart, whatever the functions on the bus answer. A driver
that writes an address of its own into the register reaches any address with it.
-/

namespace Eo9.Kernel.Devices

open Eo9.Library Eo9.Library.Action
open Eo9.Kernel.Pci

/-- A range that an opening handed out, to which handle, and for which BAR. -/
structure Opened where
  task : Nat
  rep : Nat
  function : FunctionAddress
  index : Nat
  bar : OpenBar

def Opened.extent (o : Opened) : Extent := o.bar.extent

/-- The kernel, and the ranges handed out so far with the last one first. -/
structure Watched (D : Type) where
  kernel : Kernel D
  opened : List Opened

variable {D : Type}

/-- The range that a handle stands for. -/
def latest (opened : List Opened) (task rep : Nat) : Option Opened :=
  opened.find? fun o => o.task = task ∧ o.rep = rep

/-- The ranges handed out once an event has happened. -/
def record (s : Watched D) (event : Event) (kernel' : Kernel D) : List Opened :=
  match event.call, event.answer with
  | .pci (.openBar device index), .pci (.ok (.handle rep)) =>
    match (s.kernel.pci event.task).devices.get device, (kernel'.pci event.task).bars.get rep with
    | some open_, some bar => ⟨event.task, rep, open_.address, index, bar⟩ :: s.opened
    | _, _ => s.opened
  | _, _ => s.opened

variable [Bus D] [ConfigAccess D] [Board D]

/-- The steps of the system, with the ranges that they hand out. -/
def Watch (grant : Platform.Grant) (s : Watched D) (event : Event) (s' : Watched D) : Prop :=
  Step grant s.kernel event s'.kernel ∧ s'.opened = record s event s'.kernel

def start (bus : D) : Watched D := ⟨boot bus, []⟩

/-- Where an opening finds an address in the register of the BAR, the same BAR was given this
address before, and not for a smaller range. -/
def RegisterTrusted (s : Watched D) (event : Event) : Prop :=
  ∀ device index open_ bar base m, event.call = .pci (.openBar device index) →
    (s.kernel.pci event.task).devices.get device = some open_ →
    foundBase open_.address index s.kernel.enter.machine = (.ok (bar, base), m) →
    base ≠ 0 → ∃ o ∈ s.opened, o.function = open_.address ∧ o.index = index ∧
      o.bar.base = base ∧ bar.size ≤ o.bar.size

/-- The handle, the offset and the width of an access to an open register. -/
def Call.barAccess : Call → Option (Nat × Nat × AccessWidth)
  | .pci (.barRead rep offset width) => some (rep, offset, width)
  | .pci (.barWrite rep offset width _) => some (rep, offset, width)
  | _ => none

/-- The accesses of a call to registers of BARs stay where they belong. -/
structure Contained (s : Watched D) (event : Event) (s' : Watched D) : Prop where
  /-- What an access touches is in the range of its handle and in the window of the segment. -/
  inside : ∀ rep offset width, event.call.barAccess = some (rep, offset, width) →
    ∀ touch ∈ s'.kernel.machine.touched, ∃ o ctrl, latest s.opened event.task rep = some o ∧
      (Board.controllers D)[o.function.segment]? = some ctrl ∧ touch.extent.Within ctrl.window ∧
      touch.extent.Within o.extent
  /-- An access past the end, or across the grain of its width, touches nothing. -/
  misfit : ∀ rep offset width bar, event.call.barAccess = some (rep, offset, width) →
    (s.kernel.pci event.task).bars.get rep = some bar →
    bar.size < offset + width.bytes ∨ ¬ width.bytes ∣ offset →
    event.answer = .pci (.error (.err .outOfRange)) ∧ s'.kernel.machine.touched = []
  /-- Different BARs have ranges that do not meet. -/
  apart : ∀ a ∈ s'.opened, ∀ b ∈ s'.opened,
    (a.function, a.index) ≠ (b.function, b.index) → a.extent.Apart b.extent
  /-- Nothing overflows. -/
  clean : ∀ outcome, event.answer = .pci outcome → outcome.Clean

def extents (segment : Nat) (given : List Opened) : List Extent :=
  (given.filter fun o => o.function.segment = segment).map Opened.extent

/-- Every range handed out lies in one that the pointer of its segment moved over for the
same BAR, and every handle stands for a range handed out. -/
structure Placed (s : Watched D) (given : List Opened) : Prop where
  bumped : ∀ segment ctrl, (Board.controllers D)[segment]? = some ctrl →
    Bumped ctrl.window (s.kernel.machine.nextBar segment) (extents segment given)
  covered : ∀ o ∈ s.opened, ∃ g ∈ given, g.function = o.function ∧ g.index = o.index ∧
    o.extent.Within g.extent ∧ ∃ ctrl, (Board.controllers D)[o.function.segment]? = some ctrl
  held : ∀ task rep bar, (s.kernel.pci task).bars.get rep = some bar →
    ∃ o, latest s.opened task rep = some o ∧ o.bar = bar

def InWindows (s : Watched D) : Prop := ∃ given, Placed s given

section Placed

variable {grant : Platform.Grant} {s s' : Watched D} {given : List Opened} {event : Event}

omit [Bus D] [ConfigAccess D] [Board D] in
theorem latest_mem {opened : List Opened} {task rep : Nat} {o : Opened}
    (h : latest opened task rep = some o) : o ∈ opened := List.mem_of_find?_eq_some h

omit [Bus D] [ConfigAccess D] [Board D] in
/-- Where the last range of a handle is the new one, and where it is an older one. -/
theorem latest_cons (o : Opened) (opened : List Opened) (task rep : Nat) :
    latest (o :: opened) task rep =
      if o.task = task ∧ o.rep = rep then some o else latest opened task rep := by
  simp only [latest, List.find?_cons]
  by_cases h : o.task = task ∧ o.rep = rep
  · simp [h]
  · simp [h]

omit [Bus D] [ConfigAccess D] in
theorem placed_start (bus : D) : Placed (start bus) [] where
  bumped := by
    intro segment ctrl hctrl
    have hnext : (start bus).kernel.machine.nextBar segment = ctrl.window.base := by
      simp [start, boot, hctrl, Controller.window]
    rw [hnext]
    exact Bumped.start _
  covered := by simp [start]
  held := by simp [start, boot]

omit [Bus D] [ConfigAccess D] in
/-- The range that the pointer moved over lies in the window. -/
theorem Placed.within_window (h : Placed s given) {g : Opened} (hg : g ∈ given) {ctrl : Controller}
    (hctrl : (Board.controllers D)[g.function.segment]? = some ctrl) :
    g.extent.Within ctrl.window := by
  refine (h.bumped _ _ hctrl).within (List.mem_map_of_mem (List.mem_filter.mpr ⟨hg, ?_⟩))
  exact decide_eq_true rfl

omit [Bus D] [ConfigAccess D] in
theorem Placed.apart (h : Placed s given) {a b : Opened} (ha : a ∈ s.opened) (hb : b ∈ s.opened)
    (hne : (a.function, a.index) ≠ (b.function, b.index)) : a.extent.Apart b.extent := by
  obtain ⟨g, hg, hgf, hgi, hga, ctrl, hctrl⟩ := h.covered a ha
  obtain ⟨g', hg', hgf', hgi', hgb, ctrl', hctrl'⟩ := h.covered b hb
  refine Extent.Apart.mono ?_ hga hgb
  by_cases hsegment : a.function.segment = b.function.segment
  · -- two ranges of one pointer
    have hpair : ((given.filter fun o => o.function.segment = a.function.segment).map
        Opened.extent).Pairwise Extent.Apart := (h.bumped _ _ hctrl).apart
    rw [List.pairwise_map] at hpair
    have hsymm : Std.Symm fun o o' : Opened => o.extent.Apart o'.extent :=
      ⟨fun _ _ => Extent.Apart.symm⟩
    refine hpair.forall ?_ ?_ ?_
    · exact List.mem_filter.mpr ⟨hg, by simp [hgf]⟩
    · exact List.mem_filter.mpr ⟨hg', by simp [hgf', hsegment]⟩
    · intro heq
      apply hne
      rw [← hgf, ← hgi, heq, hgf', hgi']
  · -- two windows
    have hwindow := h.within_window hg (hgf.symm ▸ hctrl)
    have hwindow' := h.within_window hg' (hgf'.symm ▸ hctrl')
    refine Extent.Apart.mono ?_ hwindow hwindow'
    have hboard := List.pairwise_iff_getElem.mp (Board.apart (D := D))
    obtain ⟨hlt, hget⟩ := List.getElem?_eq_some_iff.mp hctrl
    obtain ⟨hlt', hget'⟩ := List.getElem?_eq_some_iff.mp hctrl'
    rcases Nat.lt_or_gt_of_ne hsegment with hlower | hupper
    · have := hboard _ _ hlt hlt' hlower
      rwa [hget, hget'] at this
    · have := hboard _ _ hlt' hlt hupper
      rw [hget, hget'] at this
      exact this.symm

omit [Bus D] [ConfigAccess D] in
/-- A step that opens nothing. -/
theorem Placed.keep (h : Placed s given)
    (hnext : s'.kernel.machine.nextBar = s.kernel.machine.nextBar) (hopened : s'.opened = s.opened)
    (hheld : ∀ task rep bar, (s'.kernel.pci task).bars.get rep = some bar →
      (s.kernel.pci task).bars.get rep = some bar) : Placed s' given where
  bumped := hnext ▸ h.bumped
  covered := hopened ▸ h.covered
  held := fun task rep bar hbar => hopened ▸ h.held task rep bar (hheld task rep bar hbar)

omit [Bus D] [ConfigAccess D] [Board D] in
/-- What is handed out with a new range in front. -/
theorem extents_cons (segment : Nat) (o : Opened) :
    extents segment (o :: given) =
      if o.function.segment = segment then o.extent :: extents segment given
      else extents segment given := by
  unfold extents
  by_cases h : o.function.segment = segment
  · rw [List.filter_cons_of_pos (by simpa using h), if_pos h, List.map_cons]
  · rw [List.filter_cons_of_neg (by simpa using h), if_neg h]

omit [Bus D] [ConfigAccess D] in
/-- The pointer of a segment moves over a range, which is given to a BAR of the segment or
to nobody. -/
theorem Placed.moved (h : Placed s given) {segment : Nat} {ctrl : Controller} {range : Extent}
    {m : Machine D} (hctrl : (Board.controllers D)[segment]? = some ctrl)
    (hbump : Bumps segment ctrl range s.kernel.machine m) {given' : List Opened}
    (hgiven : given' = given ∨ ∃ o, given' = o :: given ∧ o.function.segment = segment ∧
      o.extent = range)
    (segment' : Nat) (ctrl' : Controller) (hctrl' : (Board.controllers D)[segment']? = some ctrl') :
    Bumped ctrl'.window (m.nextBar segment') (extents segment' given') := by
  have hold := h.bumped segment' ctrl' hctrl'
  rw [hbump.moved]
  by_cases hsegment : segment' = segment
  · subst hsegment
    rw [hctrl] at hctrl'
    obtain rfl := Option.some.inj hctrl'
    rw [Function.update_self]
    have hstop : range.stop ≤ ctrl.window.stop := by
      rw [ctrl.window_stop]
      exact hbump.stop_le
    rcases hgiven with rfl | ⟨o, rfl, hseg, rfl⟩
    · exact hold.skip (hbump.base_ge.trans (Nat.le_add_right _ _)) hstop
    · rw [extents_cons, if_pos hseg]
      exact hold.give hbump.base_ge hstop
  · rw [Function.update_of_ne hsegment]
    rcases hgiven with rfl | ⟨o, rfl, hseg, _⟩
    · exact hold
    · rw [extents_cons, if_neg (fun heq => hsegment (heq.symm.trans hseg))]
      exact hold

omit [Bus D] [ConfigAccess D] in
/-- The handle of a new range stands for it, the others for what they stood for. -/
theorem Placed.held_cons (h : Placed s given) {o : Opened} {bars : Slots OpenBar}
    (hinsert : (o.rep, bars) = (s.kernel.pci o.task).bars.insert o.bar) {kernel' : Kernel D}
    (hself : (kernel'.pci o.task).bars = bars)
    (hother : ∀ task, task ≠ o.task → kernel'.pci task = s.kernel.pci task)
    (task rep : Nat) (bar : OpenBar) (hbar : (kernel'.pci task).bars.get rep = some bar) :
    ∃ o', latest (o :: s.opened) task rep = some o' ∧ o'.bar = bar := by
  have hrep : o.rep = ((s.kernel.pci o.task).bars.insert o.bar).1 := congrArg Prod.fst hinsert
  have hbars : bars = ((s.kernel.pci o.task).bars.insert o.bar).2 := congrArg Prod.snd hinsert
  rw [latest_cons]
  by_cases htask : task = o.task
  · subst htask
    rw [hself, hbars] at hbar
    by_cases heq : rep = o.rep
    · rw [heq, hrep, Slots.get_insert_self] at hbar
      exact ⟨o, if_pos ⟨rfl, heq.symm⟩, Option.some.inj hbar⟩
    · rw [Slots.get_insert_of_ne (hrep ▸ heq)] at hbar
      rw [if_neg fun hand => heq hand.2.symm]
      exact h.held _ rep bar hbar
  · rw [hother task htask] at hbar
    rw [if_neg fun hand => htask hand.1.symm]
    exact h.held task rep bar hbar

omit [Bus D] [ConfigAccess D] [Board D] in
/-- A call that sheds registers opens none in any table. -/
theorem held_withPci {kernel : Kernel D} {task : Nat} {store : Pci.Store D}
    (h : Sheds (kernel.enter.pciStore task) store) (task' rep : Nat) (bar : OpenBar)
    (hbar : ((kernel.withPci task store).pci task').bars.get rep = some bar) :
    (kernel.pci task').bars.get rep = some bar := by
  by_cases htask : task' = task
  · subst htask
    refine h.2 rep bar ?_
    simpa [Kernel.withPci] using hbar
  · simpa [Kernel.withPci, Function.update_of_ne htask] using hbar

theorem Placed.opens (h : Placed s given) {task device index rep : Nat} {store : Pci.Store D}
    (hopen : Opens device index rep (s.kernel.enter.pciStore task) store)
    (htrust : RegisterTrusted s ⟨task, .pci (.openBar device index), .pci (.ok (.handle rep))⟩)
    (hkernel : s'.kernel = s.kernel.withPci task store)
    (hrecord : s'.opened =
      record s ⟨task, .pci (.openBar device index), .pci (.ok (.handle rep))⟩ s'.kernel) :
    ∃ given', Placed s' given' := by
  obtain ⟨open_, bar, base, m, hdevice, hsize, hfound, hsame, hassign, hinsert⟩ := hopen.opened
  have hself : (s'.kernel.pci task).bars = store.pci.bars := by
    rw [hkernel]
    simp [Kernel.withPci]
  have hother : ∀ task', task' ≠ task → s'.kernel.pci task' = s.kernel.pci task' := by
    intro task' htask
    rw [hkernel]
    simp [Kernel.withPci, Function.update_of_ne htask]
  have hnew : (s'.kernel.pci task).bars.get rep = some ⟨base, bar.size⟩ := by
    have hbars := congrArg Prod.snd hinsert
    have hrep : rep = _ := congrArg Prod.fst hinsert
    dsimp only at hbars
    rw [hself, hbars, hrep, Slots.get_insert_self]
  have hopened : s'.opened =
      ⟨task, rep, open_.address, index, ⟨base, bar.size⟩⟩ :: s.opened := by
    rw [hrecord]
    have hdevice' : (s.kernel.pci task).devices.get device = some open_ := hdevice
    simp only [record, hdevice', hnew]
  have hheld := h.held_cons (o := ⟨task, rep, open_.address, index, ⟨base, bar.size⟩⟩) hinsert
    hself hother
  have hnext : s'.kernel.machine = store.machine := by
    rw [hkernel]
    rfl
  rcases hassign with ⟨m₁, hcurrent, hne, hmachine⟩ | ⟨ctrl, hctrl, hbump⟩
  · -- the address was in the register, and the BAR was given it before
    obtain ⟨o, ho, hof, hoi, hbase, hle⟩ :=
      htrust device index open_ bar base m₁ rfl hdevice (hfound base m₁ hcurrent) hne
    obtain ⟨g, hg, hgf, hgi, hwithin, ctrl, hctrl⟩ := h.covered o ho
    have hpointer : s'.kernel.machine.nextBar = s.kernel.machine.nextBar := by
      rw [hnext]
      exact Eq.trans hmachine hsame
    refine ⟨given, ⟨hpointer ▸ h.bumped, ?_, hopened ▸ hheld⟩⟩
    intro o' ho'
    rw [hopened] at ho'
    rcases List.mem_cons.mp ho' with rfl | ho'
    · have hinside : Extent.Within ⟨base, bar.size⟩ o.extent :=
        Extent.within_of_size_le hle hbase.symm
      exact ⟨g, hg, hgf.trans hof, hgi.trans hoi, hinside.trans hwithin, ctrl, hof ▸ hctrl⟩
    · exact h.covered o' ho'
  · -- the pointer of the segment moved over a new range
    have hbump' : Bumps open_.address.segment ctrl ⟨base, bar.size⟩ s.kernel.machine
        s'.kernel.machine := by
      rw [hnext]
      exact ⟨hsame ▸ hbump.base_ge, hbump.stop_le, hsame ▸ hbump.moved⟩
    refine ⟨⟨task, rep, open_.address, index, ⟨base, bar.size⟩⟩ :: given, ⟨?_, ?_, hopened ▸ hheld⟩⟩
    · exact h.moved hctrl hbump' (.inr ⟨_, rfl, rfl, rfl⟩)
    · intro o' ho'
      rw [hopened] at ho'
      rcases List.mem_cons.mp ho' with rfl | ho'
      · exact ⟨_, List.mem_cons_self, rfl, rfl, Extent.Within.refl _, ctrl, hctrl⟩
      · obtain ⟨g, hg, hrest⟩ := h.covered o' ho'
        exact ⟨g, List.mem_cons_of_mem _ hg, hrest⟩

/-- What one step preserves. -/
theorem Placed.step (h : Placed s given) (hw : Watch grant s event s')
    (htrust : RegisterTrusted s event) : ∃ given', Placed s' given' := by
  obtain ⟨task, call, answer⟩ := event
  obtain ⟨hstep, hrecord⟩ := hw
  cases call with
  | pci call =>
    obtain ⟨rfl, hkernel⟩ := hstep.pci
    by_cases hopening : ∃ device index, call = .openBar device index
    · obtain ⟨device, index, rfl⟩ := hopening
      have hspec := wp_iff.mp (openBar_spec device index (s.kernel.enter.pciStore task))
      rcases hrun : Pci.openBar device index (s.kernel.enter.pciStore task) with ⟨e | rep, store⟩
      · -- nothing is handed out, though a pointer may have moved
        have hcall : Pci.Call.run (.openBar device index) (s.kernel.enter.pciStore task) =
            (.error e, store) := bind_of_error hrun
        rw [hcall] at hkernel hrecord
        have hmachine : s'.kernel.machine = store.machine := hkernel ▸ rfl
        obtain ⟨_, hbars, address, hwaste⟩ := hspec.2 e store hrun
        have hheld : ∀ task' rep bar, (s'.kernel.pci task').bars.get rep = some bar →
            (s.kernel.pci task').bars.get rep = some bar := by
          intro task' rep bar hbar
          rw [hkernel] at hbar
          by_cases htask : task' = task
          · subst htask
            have hbar' : store.pci.bars.get rep = some bar := by
              simpa [Kernel.withPci] using hbar
            rwa [hbars] at hbar'
          · simpa [Kernel.withPci, Function.update_of_ne htask] using hbar
        rcases hwaste with hsame | ⟨ctrl, range, hctrl, hbump⟩
        · exact ⟨given, h.keep (hmachine ▸ hsame) hrecord hheld⟩
        · refine ⟨given, ⟨?_, hrecord ▸ h.covered, fun task' rep bar hbar => ?_⟩⟩
          · rw [hmachine]
            exact h.moved hctrl ⟨hbump.base_ge, hbump.stop_le, hbump.moved⟩ (.inl rfl)
          · rw [hrecord]
            exact h.held task' rep bar (hheld task' rep bar hbar)
      · have hcall : Pci.Call.run (.openBar device index) (s.kernel.enter.pciStore task) =
            (.ok (.handle rep), store) := bind_of_ok hrun
        rw [hcall] at hkernel hrecord htrust
        exact h.opens (hspec.1 rep store hrun) htrust hkernel hrecord
    · have hsheds := (Pci.Call.run_sheds (D := D) call
        fun device index heq => hopening ⟨device, index, heq⟩).moves (s.kernel.enter.pciStore task)
      refine ⟨given, h.keep ?_ ?_ fun task' rep bar hbar => ?_⟩
      · rw [hkernel]
        exact hsheds.1
      · rw [hrecord]
        cases call with
        | openBar device index => exact absurd ⟨device, index, rfl⟩ hopening
        | _ => rfl
      · rw [hkernel] at hbar
        exact held_withPci hsheds task' rep bar hbar
  | platform call =>
    obtain ⟨_, hkernel⟩ := hstep.platform
    refine ⟨given, h.keep ?_ hrecord fun task' rep bar hbar => ?_⟩
    · rw [hkernel]
      exact Platform.Call.run_moves (D := D) grant call (s.kernel.enter.platformStore task)
    · rwa [hkernel] at hbar
  | finish =>
    injection hstep with hanswer hkernel
    have hsheds := (Pci.dropTables_sheds (D := D)).moves (s.kernel.enter.pciStore task)
    refine ⟨given, h.keep ?_ hrecord fun task' rep bar hbar => ?_⟩
    · rw [← hkernel]
      exact Eq.trans (Platform.dropTables_moves (D := D) _) hsheds.1
    · rw [← hkernel] at hbar
      exact held_withPci hsheds task' rep bar hbar

end Placed

section Accesses

variable {grant : Platform.Grant} {s s' : Watched D} {given : List Opened} {task rep offset : Nat}
  {width : AccessWidth} {outcome : Outcome WitPciError Reply} {store : Pci.Store D}

/-- What is known of an access from how it ended. -/
def AccessEnds (rep offset : Nat) (width : AccessWidth) (store : Pci.Store D)
    (outcome : Outcome WitPciError Reply) (store' : Pci.Store D) : Prop :=
  match outcome with
  | .ok _ => Accesses rep offset width store store'
  | .error e => Refuses rep store e store'

theorem access_ends {call : Pci.Call}
    (hcall : Call.barAccess (.pci call) = some (rep, offset, width)) (store : Pci.Store D) :
    AccessEnds rep offset width store (call.run store).1 (call.run store).2 := by
  have hends : ∀ {α : Type} {m : Action (Pci.Store D) WitPciError α} {f : α → Reply},
      wp m store (fun _ => Accesses rep offset width store) (Refuses rep store) →
      AccessEnds rep offset width store ((do return f (← m) : Action _ _ Reply) store).1
        ((do return f (← m) : Action _ _ Reply) store).2 := by
    intro α m f h
    rw [wp_iff] at h
    rcases hm : m store with ⟨e | a, store'⟩
    · rw [bind_of_error hm]
      exact h.2 e store' hm
    · rw [bind_of_ok hm]
      exact h.1 a store' hm
  cases call with
  | barRead bar offset width =>
    obtain ⟨rfl, rfl, rfl⟩ : bar = rep ∧ _ = _ ∧ _ = _ := by
      injection hcall with hcall
      injection hcall with hbar hcall
      injection hcall with hoffset hwidth
      exact ⟨hbar, hoffset, hwidth⟩
    exact hends (barReadCall_spec _ _ _ store)
  | barWrite bar offset width value =>
    obtain ⟨rfl, rfl, rfl⟩ : bar = rep ∧ _ = _ ∧ _ = _ := by
      injection hcall with hcall
      injection hcall with hbar hcall
      injection hcall with hoffset hwidth
      exact ⟨hbar, hoffset, hwidth⟩
    exact hends (f := fun _ => .unit) (barWriteCall_spec _ _ _ _ store)
  | _ => exact absurd hcall nofun

theorem Placed.contained {event : Event} (h : Placed s given) {given' : List Opened}
    (h' : Placed s' given') (hw : Watch grant s event s') : Contained s event s' := by
  obtain ⟨task, call, answer⟩ := event
  obtain ⟨hstep, hrecord⟩ := hw
  constructor
  · -- the slot of the handle holds a range that was handed out
    intro rep offset width hcall touch htouch
    cases call with
    | pci call =>
      obtain ⟨-, hkernel⟩ := hstep.pci
      have hends := access_ends hcall (s.kernel.enter.pciStore task)
      rw [hkernel] at htouch
      rcases hrun : call.run (s.kernel.enter.pciStore task) with ⟨e | reply, store⟩
      · rw [hrun] at hends htouch
        have hstore : store = s.kernel.enter.pciStore task := hends.1
        have hnone : store.machine.touched = [] := by
          rw [hstore]
          rfl
        exact absurd (hnone ▸ htouch : touch ∈ []) List.not_mem_nil
      · rw [hrun] at hends htouch
        obtain ⟨bar, hbar, hfits, htouched⟩ := hends.fits
        have hone : store.machine.touched = [⟨bar.base + offset, width⟩] := htouched
        have htouch' : touch ∈ store.machine.touched := htouch
        rw [hone, List.mem_singleton] at htouch'
        obtain ⟨o, hlatest, hobar⟩ := h.held task rep bar hbar
        obtain ⟨g, hg, hgf, _, hwithin, ctrl, hctrl⟩ := h.covered o (latest_mem hlatest)
        have hinside : touch.extent.Within o.extent := by
          rw [htouch', Opened.extent, hobar]
          exact Extent.within_of_offset (a := bar.extent) hfits
        exact ⟨o, ctrl, hlatest, hctrl,
          (hinside.trans hwithin).trans (h.within_window hg (hgf ▸ hctrl)), hinside⟩
    | platform call => exact absurd hcall nofun
    | finish => exact absurd hcall nofun
  · intro rep offset width bar hcall hbar hmisfit
    cases call with
    | pci call =>
      obtain ⟨hanswer, hkernel⟩ := hstep.pci
      have hends := access_ends hcall (s.kernel.enter.pciStore task)
      rcases hrun : call.run (s.kernel.enter.pciStore task) with ⟨e | reply, store⟩
      · rw [hrun] at hends hanswer hkernel
        obtain ⟨hstore, rfl | ⟨-, hnone⟩⟩ := hends
        · refine ⟨hanswer, ?_⟩
          rw [hkernel, hstore]
          rfl
        · exact absurd (hbar.symm.trans hnone) nofun
      · rw [hrun] at hends
        obtain ⟨bar', hbar', hfits, -⟩ := hends.fits
        obtain rfl : bar = bar' := Option.some.inj (hbar.symm.trans hbar')
        rcases hmisfit with hpast | hgrain
        · omega
        · exact absurd hends.aligned hgrain
    | platform call => exact absurd hcall nofun
    | finish => exact absurd hcall nofun
  · exact fun a ha b hb => h'.apart ha hb
  · intro outcome houtcome
    cases call with
    | pci call =>
      obtain ⟨hanswer, -⟩ := hstep.pci
      obtain rfl : outcome = (call.run (s.kernel.enter.pciStore task)).1 := by
        dsimp only at houtcome
        rw [hanswer] at houtcome
        exact (Answer.pci.inj houtcome).symm
      exact Pci.Call.run_clean call _
    | platform call =>
      obtain ⟨hanswer, -⟩ := hstep.platform
      dsimp only at houtcome
      rw [hanswer] at houtcome
      exact absurd houtcome nofun
    | finish =>
      injection hstep with hanswer _
      exact absurd (hanswer.trans houtcome) nofun

end Accesses

/-- In a run whose openings find no address in a register, or only one that the same BAR was
given before, every step keeps the accesses where they belong. -/
theorem accesses_contained (grant : Platform.Grant) (bus : D) {events : List Event}
    {s s' : Watched D} {event : Event}
    (run : Run (fun s event s' => Watch grant s event s' ∧ RegisterTrusted s event) (start bus)
      events s)
    (hstep : Watch grant s event s') (htrust : RegisterTrusted s event) :
    Contained s event s' := by
  have hinvariant : ∀ (s : Watched D) event s', InWindows s →
      Watch grant s event s' ∧ RegisterTrusted s event → InWindows s' := by
    intro s event s' hinv hw
    obtain ⟨given, hinv⟩ := hinv
    exact hinv.step hw.1 hw.2
  have hplaced : InWindows s := run.invariant hinvariant ⟨[], placed_start bus⟩
  obtain ⟨given, hplaced⟩ := hplaced
  obtain ⟨given', hplaced'⟩ := hplaced.step hstep htrust
  exact hplaced.contained hplaced' hstep

/-- What a task does to the system. -/
def Watched.after (s : Watched D) (grant : Platform.Grant) (task : Nat) (call : Call) : Watched D :=
  ⟨(s.kernel.perform grant task call).2,
    record s ⟨task, call, (s.kernel.perform grant task call).1⟩ (s.kernel.perform grant task call).2⟩

def Watched.event (s : Watched D) (grant : Platform.Grant) (task : Nat) (call : Call) : Event :=
  ⟨task, call, (s.kernel.perform grant task call).1⟩

theorem watch_after (s : Watched D) (grant : Platform.Grant) (task : Nat) (call : Call) :
    Watch grant s (s.event grant task call) (s.after grant task call) := ⟨rfl, rfl⟩

/-- The machine as it boots. -/
def bare : Watched Endpoint := start ⟨0, 0⟩

/-- A task has opened the endpoint. -/
def driver : Watched Endpoint := bare.after .none 0 (.pci (.open_ Endpoint.slot))

/-- The driver with its BAR opened. -/
def mapped : Watched Endpoint := driver.after .none 0 (.pci (.openBar 0 0))

/-- The driver after it wrote an address of its own to the BAR, and opened it. -/
def redirected : Watched Endpoint :=
  (driver.after .none 0 (.pci (.configWrite 0 0x10 .dword 0x4000_0000))).after .none 0
    (.pci (.openBar 0 0))

theorem mapped_step : Watch .none driver (driver.event .none 0 (.pci (.openBar 0 0))) mapped ∧
    RegisterTrusted driver (driver.event .none 0 (.pci (.openBar 0 0))) := by
  refine ⟨watch_after _ _ _ _, ?_⟩
  intro device index open_ bar base m hcall hdevice hfound hne
  injection hcall with hcall
  injection hcall with hd hi
  subst hd hi
  have hopen : (driver.kernel.pci 0).devices.get 0 = some ⟨Endpoint.slot, false⟩ := by decide +kernel
  obtain rfl := Option.some.inj (hopen.symm.trans hdevice)
  have hzero : ((foundBase Endpoint.slot 0 driver.kernel.enter.machine).1.toOption.map Prod.snd) =
      some 0 := by decide +kernel
  rw [hfound] at hzero
  exact absurd (Option.some.inj hzero) hne

/-- Another call than an opening trusts no register. -/
theorem registerTrusted_of_ne {s : Watched D} {event : Event}
    (h : ∀ device index, event.call ≠ .pci (.openBar device index)) : RegisterTrusted s event :=
  fun device index _ _ _ _ hcall => absurd hcall (h device index)

theorem driver_step :
    Watch .none bare (bare.event .none 0 (.pci (.open_ Endpoint.slot))) driver ∧
      RegisterTrusted bare (bare.event .none 0 (.pci (.open_ Endpoint.slot))) :=
  ⟨watch_after _ _ _ _, registerTrusted_of_ne fun _ _ => nofun⟩

/-- A driver that writes to the BAR that the machine assigned. -/
theorem accesses_contained_mapped :
    Contained mapped (mapped.event .none 0 (.pci (.barWrite 0 8 .dword 1)))
      (mapped.after .none 0 (.pci (.barWrite 0 8 .dword 1))) := by
  have run : Run (fun s event s' => Watch .none s event s' ∧ RegisterTrusted s event) bare
      [bare.event .none 0 (.pci (.open_ Endpoint.slot)),
        driver.event .none 0 (.pci (.openBar 0 0))] mapped :=
    .cons driver_step (.cons mapped_step (.nil mapped))
  exact accesses_contained .none (⟨0, 0⟩ : Endpoint) run
    (watch_after mapped .none 0 (.pci (.barWrite 0 8 .dword 1)))
    (registerTrusted_of_ne fun _ _ => nofun)

/-- A driver that writes the address of the main memory to its BAR, opens it and writes
through it reaches the main memory. -/
theorem address_taken_on_trust :
    ¬ ∀ (events : List Event) (s s' : Watched Endpoint) (event : Event),
      Run (Watch .none) (start ⟨0, 0⟩) events s → Watch .none s event s' →
        Contained s event s' := by
  intro h
  have hcontained := h _ redirected _
    (redirected.event .none 0 (.pci (.barWrite 0 0 .dword 1)))
    (.cons (watch_after _ _ _ _) (.cons (watch_after _ _ _ _) (.cons (watch_after _ _ _ _) (.nil _))))
    (watch_after _ _ _ _)
  have htouched : ⟨0x4000_0000, .dword⟩ ∈
      (redirected.after .none 0 (.pci (.barWrite 0 0 .dword 1))).kernel.machine.touched := by
    decide +kernel
  obtain ⟨o, ctrl, _, hctrl, hwindow, _⟩ := hcontained.inside 0 0 .dword rfl _ htouched
  have hmem : ctrl ∈ Board.controllers Endpoint := List.mem_of_getElem? hctrl
  have hends : ∀ ctrl ∈ Board.controllers Endpoint, ctrl.window.stop = 0x3eff_0000 := by
    decide +kernel
  have hstop := hwindow.2
  rw [hends ctrl hmem] at hstop
  exact absurd hstop (by decide)

end Eo9.Kernel.Devices
