import Eo9.Kernel.Assignment
import Eo9.Kernel.Devices

/-!
# What the PCI calls do to the table of open registers

Three calls touch the pointers of the windows or the table of open base address registers:
opening one, dropping one, and the end of the task. No call panics.
-/

namespace Eo9.Kernel.Pci

open Eo9.Library Eo9.Library.Action

variable {D : Type} {ε : Type} {α : Type}

/-- The pointers of the windows and the open base address registers of the task. -/
def Store.placed (store : Store D) : (Nat → Nat) × Slots OpenBar :=
  (store.machine.nextBar, store.pci.bars)

abbrev SamePlaced : Store D → Store D → Prop := Same Store.placed

theorem samePlaced_of_sameBars {store : Store D} {m : Machine D} (h : SameBars store.machine m) :
    SamePlaced store { store with machine := m } :=
  congrArg (·, store.pci.bars) h

theorem wp_onMachine {m : Action (Machine D) ε α} {f : ε → WitPciError} {store : Store D}
    {post : α → Store D → Prop} {stop : Stop WitPciError → Store D → Prop}
    (h : wp m store.machine (fun a m' => post a { store with machine := m' })
      fun e m' => ∃ x, e = .err x ∧ stop (.err (f x)) { store with machine := m' }) :
    wp (onMachine m f) store post stop :=
  wp_mapErr (wp_zoom h)

theorem wp_onMachineAlways {m : Action (Machine D) WitPciError α} {store : Store D}
    {post : α → Store D → Prop} {stop : Stop WitPciError → Store D → Prop}
    (h : wp m store.machine (fun a m' => post a { store with machine := m' })
      fun e m' => stop e { store with machine := m' }) :
    wp (onMachineAlways m) store post stop :=
  wp_zoom h

theorem onMachine_respects {m : Action (Machine D) ε α} {p : α → Prop}
    (h : Respects SameBars p m) (f : ε → WitPciError) :
    Respects SamePlaced p (onMachine m f) := by
  intro store
  refine wp_onMachine (wp_mono (h store.machine) (fun a m' ha => ?_) fun e m' he => ?_)
  · exact ⟨ha.1, samePlaced_of_sameBars ha.2⟩
  · obtain ⟨⟨x, rfl⟩, hsame⟩ := he
    exact ⟨x, rfl, ⟨_, rfl⟩, samePlaced_of_sameBars hsame⟩

theorem onMachineAlways_respects {m : Action (Machine D) WitPciError α} {p : α → Prop}
    (h : Respects SameBars p m) : Respects SamePlaced p (onMachineAlways m) := by
  intro store
  refine wp_onMachineAlways (wp_mono (h store.machine) (fun a m' ha => ?_) fun e m' he => ?_)
  · exact ⟨ha.1, samePlaced_of_sameBars ha.2⟩
  · exact ⟨he.1, samePlaced_of_sameBars he.2⟩

theorem wp_lookup {table : PciTables → Slots α} {rep : Nat} {store : Store D}
    {post : α → Store D → Prop} {stop : Stop WitPciError → Store D → Prop}
    (hpost : ∀ value, (table store.pci).get rep = some value → post value store)
    (hstop : (table store.pci).get rep = none → stop (.err .notFound) store) :
    wp (lookup table rep) store post stop := by
  rcases h : (table store.pci).get rep with _ | value
  · exact wp_of_error (show lookup table rep store = (.error (.err .notFound), store) by
      simp only [lookup, h]) (hstop h)
  · exact wp_of_ok (show lookup table rep store = (.ok value, store) by simp only [lookup, h])
      (hpost value h)

theorem lookup_respects (table : PciTables → Slots α) (rep : Nat) :
    Respects SamePlaced (fun _ => True)
      (lookup table rep : Action (Store D) WitPciError α) := fun _ =>
  wp_lookup (fun _ _ => ⟨trivial, rfl⟩) fun _ => ⟨⟨_, rfl⟩, rfl⟩

theorem gets_respects (f : Store D → α) :
    Respects SamePlaced (fun _ => True)
      (Action.gets f : Action (Store D) WitPciError α) := fun _ => ⟨trivial, rfl⟩

theorem freeBuffer_respects (buffer : DmaBuffer) :
    Respects SameBars (fun _ => True)
      (freeBuffer buffer : Action (Machine D) ε Unit) := fun _ => ⟨trivial, rfl⟩

theorem freeBuffers_respects (buffers : Slots DmaBuffer) :
    Respects SameBars (fun _ => True) (freeBuffers buffers : Action (Machine D) ε Unit) := by
  induction buffers with
  | nil => exact Respects.pure trivial
  | cons slot rest ih =>
    cases slot with
    | none => exact ih
    | some buffer => exact (freeBuffer_respects buffer).bind fun _ _ => ih

variable [Bus D] [ConfigAccess D] [Board D]

theorem setBusMaster_respects (address : FunctionAddress) (enable : Bool) :
    Respects SameBars (fun _ => True)
      (setBusMaster address enable : Action (Machine D) Unit Unit) := by
  unfold setBusMaster
  refine (configRead_respects _ _ _).bind fun command _ => ?_
  refine (configWrite_respects _ _ _ _).bind fun _ _ => ?_
  split
  · refine (configRead_respects _ _ _).attempt.bind fun r _ => ?_
    cases r with
    | error e => exact Respects.pure trivial
    | ok bridgeCommand =>
      dsimp only
      split
      · exact configWriteAnyway_respects _ _ _ _
      · exact Respects.pure trivial
  · exact Respects.pure trivial

theorem revoke_respects (device : OpenDevice) :
    Respects SameBars (fun _ => True) (revoke device : Action (Machine D) ε Unit) := by
  unfold revoke
  split
  · exact (setBusMaster_respects _ _).attempt.bind fun _ _ => Respects.pure trivial
  · exact Respects.pure trivial

theorem quiesceDevices_respects (devices : Slots OpenDevice) :
    Respects SameBars (fun _ => True)
      (quiesceDevices devices : Action (Machine D) ε (Slots OpenDevice)) := by
  induction devices with
  | nil => exact Respects.pure trivial
  | cons slot rest ih =>
    cases slot with
    | none => exact ih.bind fun _ _ => Respects.pure trivial
    | some device =>
      refine (revoke_respects device).bind fun _ _ => ?_
      exact ih.bind fun _ _ => Respects.pure trivial

theorem quiesceAll_respects :
    Respects SamePlaced (fun _ => True) (quiesceAll : Action (Store D) WitPciError Unit) := by
  unfold quiesceAll
  refine (gets_respects _).bind fun devices _ => ?_
  refine (onMachineAlways_respects (quiesceDevices_respects _)).bind fun _ _ => ?_
  exact fun _ => ⟨trivial, rfl⟩

theorem openFunction_respects (address : FunctionAddress) :
    Respects SamePlaced (fun _ => True)
      (openFunction address : Action (Store D) WitPciError Nat) := by
  unfold openFunction
  refine (onMachineAlways_respects (sameBars_lenient.functionPresent _)).bind fun present _ => ?_
  split
  · exact Respects.fail
  · refine (gets_respects _).bind fun devices _ => ?_
    split
    · exact Respects.fail
    · exact fun _ => ⟨trivial, rfl⟩

theorem configReadCall_respects (device offset : Nat) (width : AccessWidth) :
    Respects SamePlaced (fun _ => True)
      (configReadCall device offset width : Action (Store D) WitPciError Nat) := by
  unfold configReadCall
  refine (lookup_respects _ _).bind fun open_ _ => ?_
  split
  · exact Respects.fail
  · exact onMachine_respects (configRead_respects _ _ _) _

theorem configWriteCall_respects (device offset : Nat) (width : AccessWidth) (value : Nat) :
    Respects SamePlaced (fun _ => True)
      (configWriteCall device offset width value : Action (Store D) WitPciError Unit) := by
  unfold configWriteCall
  refine (lookup_respects _ _).bind fun open_ _ => ?_
  split
  · exact Respects.fail
  · exact onMachine_respects (configWrite_respects _ _ _ _) _

theorem barsCall_respects (device : Nat) :
    Respects SamePlaced (fun _ => True)
      (barsCall device : Action (Store D) WitPciError (List BarDescription)) := by
  unfold barsCall
  refine (lookup_respects _ _).bind fun open_ _ => ?_
  exact onMachineAlways_respects ((sameBars_lenient.describeBars _).mono fun _ _ => trivial)

theorem setBusMasterCall_respects (device : Nat) (enable : Bool) :
    Respects SamePlaced (fun _ => True)
      (setBusMasterCall device enable : Action (Store D) WitPciError Unit) := by
  unfold setBusMasterCall
  refine (lookup_respects _ _).bind fun open_ _ => ?_
  refine (onMachine_respects (setBusMaster_respects _ _) _).bind fun _ _ => ?_
  exact fun _ => ⟨trivial, rfl⟩

theorem enableIntxOutput_respects (address : FunctionAddress) :
    Respects SameBars (fun _ => True)
      (enableIntxOutput address : Action (Machine D) Unit Unit) := by
  unfold enableIntxOutput
  exact (configRead_respects _ _ _).bind fun _ _ => configWrite_respects _ _ _ _

theorem enableInterrupts_respects (device : Nat) (kind : WitInterruptKind) (count : Nat) :
    Respects SamePlaced (fun _ => True)
      (enableInterrupts device kind count : Action (Store D) WitPciError (List Nat)) := by
  unfold enableInterrupts
  refine (lookup_respects _ _).bind fun open_ _ => ?_
  split
  · exact Respects.fail
  split
  · exact Respects.pure trivial
  refine (onMachine_respects (configRead_respects _ _ _) _).bind fun pin _ => ?_
  split
  · exact Respects.fail
  refine (onMachine_respects (enableIntxOutput_respects _) _).bind fun _ _ => ?_
  refine Respects.bind (p := fun _ => True) (fun _ => ⟨trivial, rfl⟩) fun rep _ => ?_
  exact Respects.pure trivial

omit [Bus D] [ConfigAccess D] [Board D] in
theorem allocDma_respects (device len storage : Nat) :
    Respects SamePlaced (fun _ => True)
      (allocDma device len storage : Action (Store D) WitPciError Nat) := by
  unfold allocDma
  refine (lookup_respects _ _).bind fun open_ _ => ?_
  split
  · exact Respects.fail
  · refine (gets_respects _).bind fun buffers _ => ?_
    split
    · exact Respects.fail
    · exact fun _ => ⟨trivial, rfl⟩

theorem closeDevice_respects (rep : Nat) :
    Respects SamePlaced (fun _ => True)
      (closeDevice rep : Action (Store D) WitPciError Unit) := by
  unfold closeDevice
  refine (gets_respects _).bind fun devices _ => ?_
  split
  · exact Respects.pure trivial
  · refine Respects.bind (p := fun _ => True) (fun _ => ⟨trivial, rfl⟩) fun _ _ => ?_
    exact onMachineAlways_respects (revoke_respects _)

theorem quiesceArmed_respects :
    Respects SamePlaced (fun _ => True) (quiesceArmed : Action (Store D) WitPciError Unit) := by
  unfold quiesceArmed
  refine (gets_respects _).bind fun devices _ => ?_
  split
  · exact quiesceAll_respects
  · exact Respects.pure trivial

theorem closeBuffer_respects (rep : Nat) :
    Respects SamePlaced (fun _ => True)
      (closeBuffer rep : Action (Store D) WitPciError Unit) := by
  unfold closeBuffer
  refine quiesceArmed_respects.bind fun _ _ => (gets_respects _).bind fun buffers _ => ?_
  split
  · exact Respects.pure trivial
  · refine Respects.bind (p := fun _ => True) (fun _ => ⟨trivial, rfl⟩) fun _ _ => ?_
    exact onMachineAlways_respects (freeBuffer_respects _)

omit [Bus D] [ConfigAccess D] [Board D] in
theorem wp_barAccessInBounds {offset size : Nat} {width : AccessWidth} {store : Store D}
    {post : Unit → Store D → Prop} {stop : Stop WitPciError → Store D → Prop}
    (hpost : offset + width.bytes ≤ size → post () store)
    (hstop : stop (.err .outOfRange) store) :
    wp (barAccessInBounds offset width size) store post stop := by
  unfold barAccessInBounds
  split
  · rename_i h
    exact wp_pure (hpost h.2)
  · exact wp_fail hstop

/-- The access that is made on a register behind a handle: it fits, it is aligned, and it
touches its own bytes and nothing else. -/
structure Accesses (rep offset : Nat) (width : AccessWidth) (store store' : Store D) : Prop where
  fits : ∃ bar, store.pci.bars.get rep = some bar ∧ offset + width.bytes ≤ bar.size ∧
    store'.machine.touched = ⟨bar.base + offset, width⟩ :: store.machine.touched
  aligned : width.bytes ∣ offset
  same : SamePlaced store store'

/-- An access that is refused touches nothing. -/
def Refuses (rep : Nat) (store : Store D) (e : Stop WitPciError) (store' : Store D) : Prop :=
  store' = store ∧ (e = .err .outOfRange ∨ e = .err .notFound ∧ store.pci.bars.get rep = none)

omit [Bus D] [ConfigAccess D] [Board D] in
theorem Refuses.isErr {rep : Nat} {store store' : Store D} {e : Stop WitPciError}
    (h : Refuses rep store e store') : ∃ x, e = .err x := by
  rcases h.2 with rfl | ⟨rfl, _⟩
  · exact ⟨_, rfl⟩
  · exact ⟨_, rfl⟩

omit [ConfigAccess D] [Board D] in
/-- One aligned access behind a handle. -/
theorem wp_barCall {α : Type} {rep offset : Nat} {width : AccessWidth} {store : Store D}
    {access : Nat → Action (Machine D) Unit α}
    (haccess : ∀ target m, ∃ a m', access target m = (.ok a, m') ∧
      m'.touched = ⟨target, width⟩ :: m.touched ∧
        ∀ s : Store D, s.machine = m → SamePlaced s { s with machine := m' }) :
    wp (do
        let window ← lookup PciTables.bars rep
        barAccessInBounds offset width window.size
        onMachine (do
          if ¬ width.bytes ∣ offset then Action.fail ()
          else
            let target ← Checked.checkedAdd 64 window.base (← Checked.tryFrom 64 offset)
            access target) fun _ => WitPciError.outOfRange) store
      (fun _ => Accesses rep offset width store) (Refuses rep store) := by
  refine wp_bind (q := fun bar s => s = store ∧ store.pci.bars.get rep = some bar)
    (wp_lookup (fun bar h => ⟨rfl, h⟩) fun h => ⟨rfl, .inr ⟨rfl, h⟩⟩) (fun bar s h => ?_) fun _ _ => id
  obtain ⟨rfl, hbar⟩ := h
  refine wp_bind (q := fun _ s' => s' = s ∧ offset + width.bytes ≤ bar.size)
    (wp_barAccessInBounds (fun h => ⟨rfl, h⟩) ⟨rfl, .inl rfl⟩) (fun _ s' h => ?_) fun _ _ => id
  obtain ⟨rfl, hfits⟩ := h
  have hrefuse : ∃ x, (Stop.err () : Stop Unit) = .err x ∧
      Refuses rep s' (.err .outOfRange) { s' with machine := s'.machine } :=
    ⟨(), rfl, rfl, .inl rfl⟩
  refine wp_onMachine ?_
  split
  · exact wp_fail hrefuse
  rename_i haligned
  refine wp_bind (q := fun o m => o = offset ∧ m = s'.machine)
    (Checked.wp_tryFrom (fun _ => ⟨rfl, rfl⟩) hrefuse) (fun o m h => ?_) fun _ _ => id
  obtain ⟨rfl, rfl⟩ := h
  refine wp_bind (q := fun target m => target = bar.base + o ∧ m = s'.machine)
    (Checked.wp_checkedAdd (fun _ => ⟨rfl, rfl⟩) hrefuse) (fun target m h => ?_) fun _ _ => id
  obtain ⟨rfl, rfl⟩ := h
  obtain ⟨a, m', hrun, htouched, hsame⟩ := haccess (bar.base + o) s'.machine
  exact wp_of_ok hrun ⟨⟨bar, hbar, hfits, htouched⟩, not_not.mp haligned, hsame s' rfl⟩

omit [ConfigAccess D] [Board D] in
theorem barReadCall_spec (rep offset : Nat) (width : AccessWidth) (store : Store D) :
    wp (barReadCall rep offset width) store (fun _ => Accesses rep offset width store)
      (Refuses rep store) :=
  wp_barCall fun _ _ => ⟨_, _, rfl, rfl, by rintro s rfl; rfl⟩

omit [ConfigAccess D] [Board D] in
theorem barWriteCall_spec (rep offset : Nat) (width : AccessWidth) (value : Nat)
    (store : Store D) :
    wp (barWriteCall rep offset width value) store (fun _ => Accesses rep offset width store)
      (Refuses rep store) :=
  wp_barCall fun _ _ => ⟨_, _, rfl, rfl, by rintro s rfl; rfl⟩

omit [ConfigAccess D] [Board D] in
theorem barReadCall_respects (rep offset : Nat) (width : AccessWidth) :
    Respects SamePlaced (fun _ => True)
      (barReadCall rep offset width : Action (Store D) WitPciError Nat) := fun store =>
  wp_mono (barReadCall_spec rep offset width store) (fun _ _ h => ⟨trivial, h.same⟩)
    fun _ _ h => ⟨h.isErr, h.1 ▸ rfl⟩

omit [ConfigAccess D] [Board D] in
theorem barWriteCall_respects (rep offset : Nat) (width : AccessWidth) (value : Nat) :
    Respects SamePlaced (fun _ => True)
      (barWriteCall rep offset width value : Action (Store D) WitPciError Unit) := fun store =>
  wp_mono (barWriteCall_spec rep offset width value store) (fun _ _ h => ⟨trivial, h.same⟩)
    fun _ _ h => ⟨h.isErr, h.1 ▸ rfl⟩

/-- The memory BAR that an opening comes to, and the address that its register holds then. -/
def foundBase (address : FunctionAddress) (index : Nat) :
    Action (Machine D) WitPciError (BarDescription × Nat) := do
  let bars ← describeBars address
  match bars.find? fun bar => bar.index = index with
  | none => Action.fail .notFound
  | some bar =>
    if bar.ioSpace then Action.fail .unsupported
    else
      let current ← (currentBase address bar).mapErr fun _ => Outcome.fail .exhausted
      return (bar, current)

/-- A register that is opened has a handle of its own, and was sized and assigned first. -/
structure Opens (device index rep : Nat) (store store' : Store D) : Prop where
  opened : ∃ open_ bar base m, store.pci.devices.get device = some open_ ∧ bar.size ≠ 0 ∧
    (∀ current m₁, currentBase open_.address bar m = (.ok current, m₁) →
      foundBase open_.address index store.machine = (.ok (bar, current), m₁)) ∧
    SameBars store.machine m ∧ Assigns open_.address bar m base store'.machine ∧
    (rep, store'.pci.bars) = store.pci.bars.insert ⟨base, bar.size⟩

/-- An opening that fails opens nothing, and may have moved a pointer. -/
def OpensNothing (store : Store D) (e : Stop WitPciError) (store' : Store D) : Prop :=
  (∃ x, e = .err x) ∧ store'.pci.bars = store.pci.bars ∧
    ∃ address, Wastes address store.machine store'.machine

theorem openBar_spec (device index : Nat) (store : Store D) :
    wp (openBar device index) store (fun rep => Opens device index rep store)
      (OpensNothing store) := by
  have hquiet : ∀ x m, SameBars store.machine m →
      OpensNothing store (.err x) { store with machine := m } := fun x m hm =>
    ⟨⟨x, rfl⟩, rfl, ⟨0, 0, 0, 0⟩, .inl hm⟩
  unfold openBar
  refine wp_bind (q := fun open_ s => s = store ∧ store.pci.devices.get device = some open_)
    (wp_lookup (fun open_ h => ⟨rfl, h⟩) fun _ => hquiet .notFound _ rfl) (fun open_ s h => ?_)
    fun _ _ => id
  obtain ⟨rfl, hopen⟩ := h
  refine wp_bind (q := fun bars s' => ∃ m, s' = { s with machine := m } ∧
    (describeBars open_.address : Action _ WitPciError _) s.machine = (.ok bars, m) ∧ SameBars s.machine m ∧
      ∀ bar ∈ bars, bar.index < 6) (wp_onMachineAlways ?_) (fun bars s' h => ?_) fun _ _ => id
  · have hbars := sameBars_lenient.describeBars (D := D) (ε := WitPciError) open_.address s.machine
    rw [wp_iff] at hbars ⊢
    constructor
    · exact fun bars m hrun => ⟨m, rfl, hrun, (hbars.1 _ _ hrun).2, (hbars.1 _ _ hrun).1⟩
    · intro e m hrun
      obtain ⟨⟨x, rfl⟩, hm⟩ := hbars.2 _ _ hrun
      exact hquiet x m hm
  obtain ⟨m, rfl, hdescribe, hm, hindex⟩ := h
  split
  · exact wp_fail (hquiet _ _ hm)
  rename_i bar hfind
  split
  · exact wp_fail (hquiet _ _ hm)
  rename_i hmemory
  refine wp_bind (q := fun base s' => ∃ m', s' = { s with machine := m' } ∧ bar.size ≠ 0 ∧
    Assigns open_.address bar m base m')
    (wp_onMachine (wp_mono (assignBar_spec open_.address (hindex bar (List.mem_of_find?_eq_some hfind)) m)
      (fun base m' h => ⟨m', rfl, h.1, h.2⟩) fun e m' h => ?_)) (fun base s' h => ?_) fun _ _ => id
  · obtain ⟨⟨x, rfl⟩, hwaste⟩ := h
    refine ⟨x, rfl, ⟨_, rfl⟩, rfl, open_.address, ?_⟩
    rcases hwaste with hs | ⟨ctrl, range, hctrl, hb⟩
    · exact .inl (Eq.trans hs hm)
    · exact .inr ⟨ctrl, range, hctrl, ⟨hm ▸ hb.base_ge, hb.stop_le, hm ▸ hb.moved⟩⟩
  · obtain ⟨m', rfl, hsize, hassign⟩ := h
    refine ⟨⟨open_, bar, base, m, hopen, hsize, fun current m₁ hcurrent => ?_, hm, hassign, rfl⟩⟩
    unfold foundBase
    rw [bind_of_ok hdescribe, hfind]
    simp only [hmemory, if_false, Bool.false_eq_true]
    simp only [bind_apply, mapErr_apply, hcurrent, Outcome.mapErr_ok]
    rfl

/-- The pointers of the windows stay, and no register is opened. -/
def Sheds (store store' : Store D) : Prop :=
  SameBars store.machine store'.machine ∧
    ∀ rep bar, store'.pci.bars.get rep = some bar → store.pci.bars.get rep = some bar

omit [Bus D] [ConfigAccess D] [Board D] in
theorem SamePlaced.sheds {store store' : Store D} (h : SamePlaced store store') :
    Sheds store store' := by
  have hbars : store'.pci.bars = store.pci.bars := congrArg Prod.snd h
  exact ⟨congrArg Prod.fst h, fun rep bar hbar => hbars ▸ hbar⟩

omit [Bus D] [ConfigAccess D] [Board D] in
instance : Std.Refl (Sheds (D := D)) := ⟨fun _ => ⟨rfl, fun _ _ => id⟩⟩

omit [Bus D] [ConfigAccess D] [Board D] in
instance : IsTrans (Store D) Sheds :=
  ⟨fun _ _ _ h h' => ⟨Eq.trans h'.1 h.1, fun rep bar hbar => h.2 rep bar (h'.2 rep bar hbar)⟩⟩

omit [Bus D] [ConfigAccess D] [Board D] in
theorem closeBar_sheds (rep : Nat) :
    Respects Sheds (fun _ => True) (closeBar rep : Action (Store D) WitPciError Unit) :=
  fun _ => ⟨trivial, rfl, fun _ _ => Slots.get_of_get_clear⟩

theorem dropTables_sheds :
    Respects Sheds (fun _ => True) (dropTables : Action (Store D) WitPciError Unit) := by
  unfold dropTables
  refine (quiesceAll_respects.weaken fun _ _ => SamePlaced.sheds).bind fun _ _ => ?_
  refine ((gets_respects _).weaken fun _ _ => SamePlaced.sheds).bind fun buffers _ => ?_
  refine Respects.bind (p := fun _ => True) ?_ fun _ _ => ?_
  · exact fun _ => ⟨trivial, rfl, fun rep bar h => absurd h nofun⟩
  · exact (onMachineAlways_respects (freeBuffers_respects _)).weaken fun _ _ => SamePlaced.sheds

/-- Every call but an opening keeps the pointers and opens no register. -/
theorem Call.run_sheds (call : Call) (h : ∀ device index, call ≠ .openBar device index) :
    Respects Sheds (fun _ => True) (call.run : Action (Store D) WitPciError Reply) := by
  have hreturn : ∀ {α : Type} {m : Action (Store D) WitPciError α} {f : α → Reply},
      Respects SamePlaced (fun _ => True) m →
      Respects Sheds (fun _ => True) (do return f (← m)) := fun hm =>
    (hm.weaken fun _ _ => SamePlaced.sheds).bind fun _ _ => Respects.pure trivial
  cases call with
  | open_ address => exact hreturn (openFunction_respects address)
  | configRead device offset width => exact hreturn (configReadCall_respects device offset width)
  | configWrite device offset width value =>
    exact hreturn (f := fun _ => .unit) (configWriteCall_respects device offset width value)
  | bars device => exact hreturn (barsCall_respects device)
  | openBar device index => exact absurd rfl (h device index)
  | barRead bar offset width => exact hreturn (barReadCall_respects bar offset width)
  | barWrite bar offset width value =>
    exact hreturn (f := fun _ => .unit) (barWriteCall_respects bar offset width value)
  | setBusMaster device enable =>
    exact hreturn (f := fun _ => .unit) (setBusMasterCall_respects device enable)
  | enableInterrupts device kind count =>
    exact hreturn (enableInterrupts_respects device kind count)
  | allocDma device len storage => exact hreturn (allocDma_respects device len storage)
  | dropDevice rep => exact hreturn (f := fun _ => .unit) (closeDevice_respects rep)
  | dropBar rep => exact (closeBar_sheds rep).bind fun _ _ => Respects.pure trivial
  | dropInterrupt rep =>
    exact hreturn (f := fun _ => .unit) (m := closeInterrupt rep) fun _ => ⟨trivial, rfl⟩
  | dropBuffer rep => exact hreturn (f := fun _ => .unit) (closeBuffer_respects rep)

/-- No call overflows or runs on forever. -/
theorem Call.run_clean (call : Call) (store : Store D) :
    (call.run store : Outcome WitPciError Reply × Store D).1.Clean := by
  have hclean : wp call.run store (fun _ _ => True) fun e _ => ∃ x, e = .err x := by
    by_cases hopening : ∃ device index, call = .openBar device index
    · obtain ⟨device, index, rfl⟩ := hopening
      exact wp_bind (openBar_spec device index store) (fun _ _ _ => wp_pure trivial)
        fun _ _ he => he.1
    · refine wp_mono (Call.run_sheds call (fun device index heq => ?_) store)
        (fun _ _ _ => trivial) fun _ _ he => he.1
      exact hopening ⟨device, index, heq⟩
  rcases hrun : call.run store with ⟨e | reply, store'⟩
  · obtain ⟨x, rfl⟩ := hclean.stopped hrun
    exact Outcome.clean_err x
  · exact Outcome.clean_ok reply

end Eo9.Kernel.Pci

namespace Eo9.Kernel.Platform

open Eo9.Library Eo9.Library.Action
open Eo9.Kernel.Pci (AccessWidth Board Bus DmaBuffer Machine RegionDef SameBars)

variable {D : Type} {ε : Type} {α : Type}

/-- The platform calls leave the windows of the segments alone. -/
abbrev SameWindows : Store D → Store D → Prop := Same fun store => store.machine.nextBar

theorem onMachine_moves {m : Action (Machine D) ε α} {f : ε → WitPlatformError}
    (h : Moves SameBars m) : Moves SameWindows (onMachine m f) := by
  have hzoom : Moves SameWindows
      (m.zoom Store.machine fun machine (store : Store D) => { store with machine }) :=
    h.zoom fun _ _ hs => hs
  exact hzoom.mapErr

theorem onMachineAlways_moves {m : Action (Machine D) WitPlatformError α}
    (h : Moves SameBars m) : Moves SameWindows (onMachineAlways m) := h.zoom fun _ _ hs => hs

theorem lookupRegion_moves (rep : Nat) :
    Moves SameWindows (lookupRegion rep : Action (Store D) WitPlatformError RegionDef) := by
  intro store
  unfold lookupRegion
  split <;> rfl

theorem add_moves (w a b : Nat) :
    Moves SameBars (Checked.add w a b : Action (Machine D) ε Nat) := by
  refine .of_stay fun m => ?_
  unfold Checked.add
  split <;> rfl

theorem claim_moves [Board D] (grant : Grant) (name : String) :
    Moves SameWindows (claim grant name : Action (Store D) WitPlatformError Nat) := by
  unfold claim
  split
  · exact fun _ => rfl
  · split
    · exact fun _ => rfl
    · refine Moves.bind (fun store => ?_) fun claimed => ?_
      · unfold tryClaim
        rw [update_apply]
        dsimp only
        split <;> rfl
      · split
        · exact fun _ => rfl
        · exact fun _ => rfl

theorem closeBuffer_moves (rep : Nat) :
    Moves SameWindows (closeBuffer rep : Action (Store D) WitPlatformError Unit) := by
  unfold closeBuffer
  refine Moves.bind (fun _ => rfl) fun buffers => ?_
  split
  · exact fun _ => rfl
  · exact Moves.bind (fun _ => rfl) fun _ _ => rfl

theorem allocDma_moves (region len storage : Nat) :
    Moves SameWindows (allocDma region len storage : Action (Store D) WitPlatformError Nat) := by
  unfold allocDma
  refine (lookupRegion_moves _).bind fun _ => ?_
  split
  · exact fun _ => rfl
  · refine Moves.bind (fun _ => rfl) fun buffers => ?_
    split
    · exact fun _ => rfl
    · exact fun _ => rfl

variable [Bus D]

theorem regionRead_moves (region : RegionDef) (offset : Nat) (width : AccessWidth) :
    Moves SameBars (regionRead region offset width : Action (Machine D) Unit Nat) := by
  unfold regionRead
  split
  · exact fun _ => rfl
  · exact (add_moves _ _ _).bind fun _ _ => rfl

theorem regionWrite_moves (region : RegionDef) (offset : Nat) (width : AccessWidth)
    (value : Nat) :
    Moves SameBars (regionWrite region offset width value : Action (Machine D) Unit Unit) := by
  unfold regionWrite
  split
  · exact fun _ => rfl
  · exact (add_moves _ _ _).bind fun _ _ => rfl

theorem quiesceRegion_moves (region : RegionDef) :
    Moves SameBars (quiesceRegion region : Action (Machine D) ε Unit) := by
  unfold quiesceRegion
  split
  · exact fun _ => rfl
  · exact (add_moves _ _ _).bind fun _ _ => rfl

theorem releaseRegions_moves (regions : Slots RegionDef) :
    Moves SameWindows (releaseRegions regions : Action (Store D) WitPlatformError Unit) := by
  induction regions with
  | nil => exact fun _ => rfl
  | cons slot rest ih =>
    cases slot with
    | none => exact ih
    | some region =>
      refine (onMachineAlways_moves (quiesceRegion_moves region)).bind fun _ => ?_
      exact Moves.bind (fun _ => rfl) fun _ => ih

theorem dropTables_moves :
    Moves SameWindows (dropTables : Action (Store D) WitPlatformError Unit) := by
  unfold dropTables
  refine Moves.bind (fun _ => rfl) fun tables => ?_
  refine (releaseRegions_moves _).bind fun _ => Moves.bind (fun _ => rfl) fun _ => ?_
  exact onMachineAlways_moves (Pci.freeBuffers_respects _).moves

theorem closeRegion_moves (rep : Nat) :
    Moves SameWindows (closeRegion rep : Action (Store D) WitPlatformError Unit) := by
  unfold closeRegion
  refine Moves.bind (fun _ => rfl) fun regions => ?_
  split
  · exact fun _ => rfl
  · refine Moves.bind (fun _ => rfl) fun _ => ?_
    exact (onMachineAlways_moves (quiesceRegion_moves _)).bind fun _ _ => rfl

variable [Board D]

theorem Call.run_moves (grant : Grant) (call : Call) :
    Moves SameWindows (call.run grant : Action (Store D) WitPlatformError Pci.Reply) := by
  have hreturn : ∀ {α : Type} {m : Action (Store D) WitPlatformError α} {f : α → Pci.Reply},
      Moves SameWindows m → Moves SameWindows (do return f (← m)) := fun hm =>
    hm.bind fun _ _ => rfl
  cases call with
  | claim name => exact hreturn (claim_moves grant name)
  | read region offset width =>
    exact hreturn ((lookupRegion_moves _).bind fun _ => onMachine_moves (regionRead_moves _ _ _))
  | write region offset width value =>
    exact hreturn (f := fun _ => .unit) ((lookupRegion_moves _).bind fun _ =>
      onMachine_moves (regionWrite_moves _ _ _ _))
  | allocDma region len storage => exact hreturn (allocDma_moves region len storage)
  | dropRegion rep => exact hreturn (f := fun _ => .unit) (closeRegion_moves rep)
  | dropBuffer rep => exact hreturn (f := fun _ => .unit) (closeBuffer_moves rep)

end Eo9.Kernel.Platform
