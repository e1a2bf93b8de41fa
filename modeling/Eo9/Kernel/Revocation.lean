import Eo9.Kernel.Handles
import Eo9.Kernel.Licence

/-!
# Revocation

What the calls of `eo9:pci` do to the handles of a task, to the happenings of the machine and
to the licences of the functions. Dropping a device, a buffer or the tables clears the
bus-master bits that were granted through the handles of the task, and no others, and a buffer
goes back to the heap after that.
-/

namespace Eo9.Kernel.Pci

open Eo9.Library Eo9.Library.Action
open LawfulPci (master commandAt present)

variable {D : Type} {ε : Type} {α : Type}

/-- The last thing that happened to a region is not a write to it. -/
def Settled (name : String) : List (Happening D) → Prop
  | [] => True
  | .wrote region :: earlier => region ≠ name ∧ Settled name earlier
  | .quiesced region :: earlier => region = name ∨ Settled name earlier
  | .freed _ _ :: earlier => Settled name earlier

/-- Happenings are added one by one, each in keeping with those before it. -/
inductive Grows (p : List (Happening D) → Happening D → Prop) (old : List (Happening D)) :
    List (Happening D) → Prop
  | nil : Grows p old old
  | cons {new : List (Happening D)} {h : Happening D} (grows : Grows p old new) (head : p new h) :
      Grows p old (h :: new)

namespace Grows

variable {p q : List (Happening D) → Happening D → Prop} {old new new' : List (Happening D)}

theorem trans (h : Grows p old new) (h' : Grows p new new') : Grows p old new' := by
  induction h' with
  | nil => exact h
  | cons _ head ih => exact .cons ih head

theorem mono (h : Grows p old new) (hle : ∀ l x, p l x → q l x) : Grows q old new := by
  induction h with
  | nil => exact .nil
  | cons _ head ih => exact .cons ih (hle _ _ head)

theorem length_le (h : Grows p old new) : old.length ≤ new.length := by
  induction h with
  | nil => exact Nat.le_refl _
  | cons _ _ ih => exact ih.trans (Nat.le_succ _)

/-- What was added last is in keeping with what came before. -/
theorem head {x : Happening D} (h : Grows p old (x :: new)) (hlen : old.length ≤ new.length) :
    p new x := by
  cases h with
  | nil =>
    rw [List.length_cons] at hlen
    omega
  | cons _ head => exact head

/-- What is added is put in front. -/
theorem suffix (h : Grows p old new) : ∃ later, new = later ++ old := by
  induction h with
  | nil => exact ⟨[], rfl⟩
  | @cons _ x _ _ ih =>
    obtain ⟨later, rfl⟩ := ih
    exact ⟨x :: later, rfl⟩

/-- What came before was in keeping, too. -/
theorem before {later middle : List (Happening D)} (h : Grows p old (later ++ middle))
    (hlen : old.length ≤ middle.length) : Grows p old middle := by
  induction later with
  | nil => exact h
  | cons x later ih =>
    generalize hwhole : x :: later ++ middle = whole at h
    cases h with
    | nil =>
      have := congrArg List.length hwhole
      simp only [List.cons_append, List.length_cons, List.length_append] at this
      omega
    | cons grows head =>
      injection hwhole with _ hrest
      subst hrest
      exact ih grows

end Grows

/-- The storage of the buffers of a table goes back, all with the bus in one state. -/
def freedAll (bus : D) : Slots DmaBuffer → List (Happening D) → List (Happening D)
  | [], earlier => earlier
  | none :: rest, earlier => freedAll bus rest earlier
  | some buffer :: rest, earlier => freedAll bus rest (.freed buffer.storage bus :: earlier)

theorem freedAll_settled {bus : D} {buffers : Slots DmaBuffer} {earlier : List (Happening D)}
    {name : String} : Settled name (freedAll bus buffers earlier) ↔ Settled name earlier := by
  induction buffers generalizing earlier with
  | nil => exact Iff.rfl
  | cons slot rest ih =>
    cases slot with
    | none => exact ih
    | some buffer => exact ih

/-- The happenings of an emptied table are in keeping if those of each of its buffers are. -/
theorem freedAll_grows {p : List (Happening D) → Happening D → Prop} {bus : D}
    {buffers : Slots DmaBuffer} {old new : List (Happening D)} (h : Grows p old new)
    (hp : ∀ buffer, some buffer ∈ buffers → ∀ l, (∀ name, Settled name new → Settled name l) →
      p l (.freed buffer.storage bus)) :
    Grows p old (freedAll bus buffers new) := by
  induction buffers generalizing new with
  | nil => exact h
  | cons slot rest ih =>
    cases slot with
    | none => exact ih h fun buffer hb => hp buffer (List.mem_cons_of_mem _ hb)
    | some buffer =>
      refine ih (.cons h (hp buffer List.mem_cons_self new fun _ => id)) ?_
      exact fun buffer' hb l hl => hp buffer' (List.mem_cons_of_mem _ hb) l hl

theorem freedAll_suffix (bus : D) (buffers : Slots DmaBuffer) (new : List (Happening D)) :
    ∃ later, freedAll bus buffers new = later ++ new :=
  (freedAll_grows (p := fun _ _ => True) .nil fun _ _ _ _ => trivial).suffix

theorem freedAll_length_le (bus : D) (buffers : Slots DmaBuffer) (new : List (Happening D)) :
    new.length ≤ (freedAll bus buffers new).length :=
  (freedAll_grows (p := fun _ _ => True) .nil fun _ _ _ _ => trivial).length_le

/-- A table with a buffer in it shows that its happenings are in keeping. -/
theorem freedAll_added {p : List (Happening D) → Happening D → Prop} {bus : D}
    {buffers : Slots DmaBuffer} {old new : List (Happening D)} {buffer : DmaBuffer}
    (h : Grows p old (freedAll bus buffers new)) (hlen : old.length ≤ new.length)
    (hmem : some buffer ∈ buffers) : ∃ storage, p new (.freed storage bus) := by
  induction buffers generalizing new with
  | nil => exact absurd hmem (List.not_mem_nil)
  | cons slot rest ih =>
    cases slot with
    | none => exact ih h hlen ((List.mem_cons.mp hmem).resolve_left nofun)
    | some first =>
      obtain ⟨later, hlater⟩ := freedAll_suffix bus rest (.freed first.storage bus :: new)
      have hgrows : Grows p old (later ++ .freed first.storage bus :: new) := hlater ▸ h
      exact ⟨first.storage, (hgrows.before (hlen.trans (Nat.le_succ _))).head hlen⟩

theorem freeBuffers_eq (buffers : Slots DmaBuffer) (m : Machine D) :
    (freeBuffers buffers : Action (Machine D) ε Unit) m =
      (.ok (), { m with history := freedAll m.bus buffers m.history }) := by
  induction buffers generalizing m with
  | nil => rfl
  | cons slot rest ih =>
    cases slot with
    | none => exact ih m
    | some buffer => exact ih { m with history := .freed buffer.storage m.bus :: m.history }

variable [Bus D] [ConfigAccess D] [Board D]

/-- The access is to the register at the given offset in the configuration space of a
function. -/
def AtRegister (D : Type) [ConfigAccess D] (address : FunctionAddress) (offset : Nat)
    (touch : Touch) : Prop :=
  ∃ d d' : D, ConfigAccess.map d address offset = (some touch.address, d')

/-- Only accesses of a kind are made. -/
def Touching (p : Touch → Prop) (m m' : Machine D) : Prop :=
  ∃ new, m'.touched = new ++ m.touched ∧ ∀ touch ∈ new, p touch

section Touching

variable {p q : Touch → Prop}

omit [Bus D] [ConfigAccess D] [Board D] in
theorem Touching.of_eq {m m' : Machine D} (h : m'.touched = m.touched) : Touching p m m' :=
  ⟨[], h, nofun⟩

omit [Bus D] [ConfigAccess D] [Board D] in
theorem Touching.mono {m m' : Machine D} (h : Touching p m m') (hle : ∀ t, p t → q t) :
    Touching q m m' := by
  obtain ⟨new, hnew, hp⟩ := h
  exact ⟨new, hnew, fun t ht => hle t (hp t ht)⟩

instance : Std.Refl (Touching p (D := D)) := ⟨fun _ => .of_eq rfl⟩

instance : IsTrans (Machine D) (Touching p) where
  trans := by
    intro m m' m'' h h'
    obtain ⟨new, hnew, hp⟩ := h
    obtain ⟨new', hnew', hp'⟩ := h'
    refine ⟨new' ++ new, by rw [hnew', hnew, List.append_assoc], fun t ht => ?_⟩
    exact (List.mem_append.mp ht).elim (hp' t) (hp t)

omit [Bus D] in
theorem configAddress_touching (address : FunctionAddress) (offset : Nat) :
    Respects (Touching p) (fun target => ∃ d d' : D,
      ConfigAccess.map d address offset = (some target, d'))
      (configAddress address offset : Action (Machine D) Unit Nat) := by
  unfold configAddress
  split
  · exact Respects.fail
  refine Respects.bind (p := fun _ => True) ?_ fun ctrl _ => ?_
  · unfold controller
    split
    · exact Respects.pure trivial
    · exact Respects.fail
  · refine Respects.bind (p := fun target => ∃ d d' : D,
      ConfigAccess.map d address offset = (target, d')) ?_ fun target htarget => ?_
    · exact fun m => ⟨⟨m.bus, _, rfl⟩, .of_eq rfl⟩
    · cases target with
      | some target => exact Respects.pure htarget
      | none => exact Respects.fail

theorem configRead_touching (address : FunctionAddress) (offset : Nat) (width : AccessWidth) :
    Respects (Touching (AtRegister D address offset)) (fun _ => True)
      (configRead address offset width : Action (Machine D) Unit Nat) := by
  rcases fitting_cases offset width
    (do mmioRead (← configAddress address offset) width : Action (Machine D) Unit Nat)
    with ⟨hrun, -⟩ | ⟨hrun, -⟩
  · have hfail : (configRead address offset width : Action (Machine D) Unit Nat) =
        Action.fail () := hrun
    exact hfail ▸ Respects.fail
  · have haccess : (configRead address offset width : Action (Machine D) Unit Nat) =
        (do mmioRead (← configAddress address offset) width) := hrun
    rw [haccess]
    refine (configAddress_touching address offset).bind fun target htarget m => ?_
    exact ⟨trivial, [⟨target, width⟩], rfl, fun t ht => List.mem_singleton.mp ht ▸ htarget⟩

theorem configWrite_touching (address : FunctionAddress) (offset : Nat) (width : AccessWidth)
    (value : Nat) :
    Respects (Touching (AtRegister D address offset)) (fun _ => True)
      (configWrite address offset width value : Action (Machine D) Unit Unit) := by
  rcases fitting_cases offset width
    (do mmioWrite (← configAddress address offset) width value : Action (Machine D) Unit Unit)
    with ⟨hrun, -⟩ | ⟨hrun, -⟩
  · have hfail : (configWrite address offset width value : Action (Machine D) Unit Unit) =
        Action.fail () := hrun
    exact hfail ▸ Respects.fail
  · have haccess : (configWrite address offset width value : Action (Machine D) Unit Unit) =
        (do mmioWrite (← configAddress address offset) width value) := hrun
    rw [haccess]
    refine (configAddress_touching address offset).bind fun target htarget m => ?_
    exact ⟨trivial, [⟨target, width⟩], rfl, fun t ht => List.mem_singleton.mp ht ▸ htarget⟩

/-- A licence is revoked in the command register of its function. -/
theorem setBusMaster_touching (address : FunctionAddress) :
    Respects (Touching (AtRegister D address 4)) (fun _ => True)
      (setBusMaster address false : Action (Machine D) Unit Unit) := by
  unfold setBusMaster
  refine (configRead_touching address 4 .word).bind fun command _ => ?_
  refine (configWrite_touching address 4 .word _).bind fun _ _ => ?_
  rw [if_neg (by simp)]
  exact Respects.pure trivial

theorem revoke_touching (device : OpenDevice) :
    Respects (Touching (AtRegister D device.address 4)) (fun _ => True)
      (revoke device : Action (Machine D) ε Unit) := by
  unfold revoke
  split
  · exact (setBusMaster_touching _).attempt.bind fun _ _ => Respects.pure trivial
  · exact Respects.pure trivial

theorem quiesceDevices_touching {devices : Slots OpenDevice} {p : Touch → Prop}
    (h : ∀ f, Held devices f → ∀ t, AtRegister D f 4 t → p t) :
    Respects (Touching p) (fun _ => True)
      (quiesceDevices devices : Action (Machine D) ε (Slots OpenDevice)) := by
  induction devices with
  | nil => exact Respects.pure trivial
  | cons slot rest ih =>
    have hrest := ih fun f ⟨device, hd, hf⟩ => h f ⟨device, List.mem_cons_of_mem _ hd, hf⟩
    cases slot with
    | none => exact hrest.bind fun _ _ => Respects.pure trivial
    | some device =>
      have hself := h _ ⟨device, List.mem_cons_self, rfl⟩
      refine Respects.bind ((revoke_touching device).weaken fun _ _ h => h.mono hself) ?_
      exact fun _ _ => hrest.bind fun _ _ => Respects.pure trivial

end Touching

variable [LawfulPci D]

/-- Nothing happens, and no function is opened. -/
def Quiet (store store' : Store D) : Prop :=
  store'.machine.history = store.machine.history ∧
    ∀ f, Held store'.pci.devices f → Held store.pci.devices f

instance : Std.Refl (Quiet (D := D)) := ⟨fun _ => ⟨rfl, fun _ => id⟩⟩

instance : IsTrans (Store D) Quiet :=
  ⟨fun _ _ _ h h' => ⟨Eq.trans h'.1 h.1, fun f hf => h.2 f (h'.2 f hf)⟩⟩

/-- The handles are those of functions that are there. -/
def Orderly (store : Store D) : Prop := ∀ f, Held store.pci.devices f → Reachable D f

section Quiet

variable {fs : FunctionAddress → Prop} {p : α → Prop}

theorem onMachine_quiet {m : Action (Machine D) ε α} (h : Respects (Licenses fs) p m)
    (f : ε → WitPciError) : Respects Quiet p (onMachine m f) := by
  intro store
  refine wp_onMachine (wp_mono (h store.machine) (fun a m' ha => ?_) fun e m' he => ?_)
  · exact ⟨ha.1, ha.2.1, fun _ => id⟩
  · obtain ⟨⟨x, rfl⟩, hle⟩ := he
    exact ⟨x, rfl, ⟨_, rfl⟩, hle.1, fun _ => id⟩

theorem onMachineAlways_quiet {m : Action (Machine D) WitPciError α}
    (h : Respects (Licenses fs) p m) : Respects Quiet p (onMachineAlways m) := by
  intro store
  refine wp_onMachineAlways (wp_mono (h store.machine) (fun a m' ha => ?_) fun e m' he => ?_)
  · exact ⟨ha.1, ha.2.1, fun _ => id⟩
  · exact ⟨he.1, he.2.1, fun _ => id⟩

omit [Bus D] [ConfigAccess D] [Board D] [LawfulPci D] in
theorem lookup_quiet (table : PciTables → Slots α) (rep : Nat) :
    Respects Quiet (fun _ => True) (lookup table rep : Action (Store D) WitPciError α) := fun _ =>
  wp_lookup (fun _ _ => ⟨trivial, rfl, fun _ => id⟩) fun _ => ⟨⟨_, rfl⟩, rfl, fun _ => id⟩

omit [Bus D] [ConfigAccess D] [Board D] [LawfulPci D] in
theorem barAccessInBounds_quiet (offset : Nat) (width : AccessWidth) (size : Nat) :
    Respects Quiet (fun _ => True)
      (barAccessInBounds offset width size : Action (Store D) WitPciError Unit) := by
  unfold barAccessInBounds
  split
  · exact Respects.pure trivial
  · exact Respects.fail

/-- Any function may gain or lose its licence. -/
abbrev anybody : FunctionAddress → Prop := fun _ => True

theorem configWrite_anybody (address : FunctionAddress) (offset : Nat) (width : AccessWidth)
    (value : Nat) :
    Respects (Licenses anybody) (fun _ => True)
      (configWrite address offset width value : Action (Machine D) Unit Unit) := fun m =>
  wp_mono (configWrite_spec address offset width value m)
    (fun _ _ h => ⟨trivial, h.history, fun _ hf => absurd trivial hf⟩)
    fun _ _ h => ⟨h.1, h.2.1.1, fun _ hf => absurd trivial hf⟩

theorem mmioRead_anybody (address : Nat) (width : AccessWidth) :
    Respects (Licenses anybody) (fun _ => True)
      (mmioRead address width : Action (Machine D) ε Nat) := fun _ =>
  ⟨trivial, rfl, fun _ hf => absurd trivial hf⟩

theorem mmioWrite_anybody (address : Nat) (width : AccessWidth) (value : Nat) :
    Respects (Licenses anybody) (fun _ => True)
      (mmioWrite address width value : Action (Machine D) ε Unit) := fun _ =>
  ⟨trivial, rfl, fun _ hf => absurd trivial hf⟩

/-- An access at an offset from the base of an open register, where there is no overflow. -/
theorem barTarget_anybody {access : Nat → Action (Machine D) Unit α} {base offset : Nat}
    {width : AccessWidth} (h : ∀ target, Respects (Licenses anybody) p (access target)) :
    Respects (Licenses anybody) p (do
      if ¬ width.bytes ∣ offset then Action.fail ()
      else
        let target ← Checked.checkedAdd 64 base (← Checked.tryFrom 64 offset)
        access target) := by
  split
  · exact Respects.fail
  refine Respects.bind (p := fun _ => True) ?_ fun value _ => ?_
  · exact fun m => Checked.wp_tryFrom (fun _ => ⟨trivial, Std.Refl.refl m⟩)
      ⟨⟨(), rfl⟩, Std.Refl.refl m⟩
  · refine Respects.bind (p := fun _ => True) ?_ fun target _ => h target
    exact fun m => Checked.wp_checkedAdd (fun _ => ⟨trivial, Std.Refl.refl m⟩)
      ⟨⟨(), rfl⟩, Std.Refl.refl m⟩

theorem configReadCall_quiet (device offset : Nat) (width : AccessWidth) :
    Respects Quiet (fun _ => True)
      (configReadCall device offset width : Action (Store D) WitPciError Nat) := by
  refine (lookup_quiet _ _).bind fun open_ _ => ?_
  split
  · exact Respects.fail
  · exact onMachine_quiet ((configRead_spares _ _ _).weaken fun _ _ => Spares.licenses) _

theorem configWriteCall_quiet (device offset : Nat) (width : AccessWidth) (value : Nat) :
    Respects Quiet (fun _ => True)
      (configWriteCall device offset width value : Action (Store D) WitPciError Unit) := by
  refine (lookup_quiet _ _).bind fun open_ _ => ?_
  split
  · exact Respects.fail
  · exact onMachine_quiet (configWrite_anybody _ _ _ _) _

theorem barsCall_quiet (device : Nat) :
    Respects Quiet (fun _ => True)
      (barsCall device : Action (Store D) WitPciError (List BarDescription)) :=
  (lookup_quiet _ _).bind fun _ _ =>
    (onMachineAlways_quiet (licenses_lenient.describeBars _)).mono fun _ _ => trivial

theorem barReadCall_quiet (bar offset : Nat) (width : AccessWidth) :
    Respects Quiet (fun _ => True)
      (barReadCall bar offset width : Action (Store D) WitPciError Nat) :=
  (lookup_quiet _ _).bind fun _ _ => (barAccessInBounds_quiet _ _ _).bind fun _ _ =>
    onMachine_quiet (barTarget_anybody fun _ => mmioRead_anybody _ _) _

theorem barWriteCall_quiet (bar offset : Nat) (width : AccessWidth) (value : Nat) :
    Respects Quiet (fun _ => True)
      (barWriteCall bar offset width value : Action (Store D) WitPciError Unit) :=
  (lookup_quiet _ _).bind fun _ _ => (barAccessInBounds_quiet _ _ _).bind fun _ _ =>
    onMachine_quiet (barTarget_anybody fun _ => mmioWrite_anybody _ _ _) _

omit [Bus D] [ConfigAccess D] [Board D] [LawfulPci D] in
theorem held_of_get {devices : Slots OpenDevice} {rep : Nat} {device : OpenDevice}
    (h : devices.get rep = some device) : Held devices device.address :=
  ⟨device, Slots.mem_iff_get.mpr ⟨rep, h⟩, rfl⟩

omit [Bus D] [ConfigAccess D] [Board D] [LawfulPci D] in
theorem held_of_clear {devices : Slots OpenDevice} {rep : Nat} {f : FunctionAddress}
    (h : Held (devices.clear rep) f) : Held devices f := by
  obtain ⟨device, hmem, rfl⟩ := h
  obtain ⟨i, hget⟩ := Slots.mem_iff_get.mp hmem
  exact held_of_get (Slots.get_of_get_clear hget)

omit [Bus D] [ConfigAccess D] [Board D] [LawfulPci D] in
/-- A change of the flag of a handle. -/
theorem held_of_update {devices : Slots OpenDevice} {rep : Nat} {flag : Bool}
    {f : FunctionAddress} (h : Held (devices.update rep fun device =>
      { device with busMasterEnabled := flag }) f) : Held devices f := by
  obtain ⟨device, hmem, rfl⟩ := h
  obtain ⟨i, hget⟩ := Slots.mem_iff_get.mp hmem
  by_cases hi : i = rep
  · rw [hi, Slots.get_update_self, Option.map_eq_some_iff] at hget
    obtain ⟨device', hget', rfl⟩ := hget
    exact ⟨device', Slots.mem_iff_get.mpr ⟨rep, hget'⟩, rfl⟩
  · rw [Slots.get_update_of_ne hi] at hget
    exact held_of_get hget

theorem setBusMasterCall_quiet (device : Nat) (enable : Bool) :
    Respects Quiet (fun _ => True)
      (setBusMasterCall device enable : Action (Store D) WitPciError Unit) :=
  (lookup_quiet _ _).bind fun _ _ => (onMachine_quiet (setBusMaster_licenses _ _) _).bind
    fun _ _ _ => ⟨trivial, rfl, fun _ => held_of_update⟩

omit [Bus D] [ConfigAccess D] [Board D] [LawfulPci D] in
theorem allocDma_quiet (device len storage : Nat) :
    Respects Quiet (fun _ => True)
      (allocDma device len storage : Action (Store D) WitPciError Nat) := by
  refine (lookup_quiet _ _).bind fun _ _ => ?_
  split
  · exact Respects.fail
  refine Respects.bind (p := fun _ => True) (fun store => ⟨trivial, Std.Refl.refl store⟩)
    fun buffers _ => ?_
  split
  · exact Respects.fail
  · exact fun store => ⟨trivial, rfl, fun _ => id⟩

/-- A call on a handle: what it runs is known to be on a function that is there. -/
theorem lookup_bind_quiet {device : Nat} {store : Store D}
    {k : OpenDevice → Action (Store D) WitPciError α} (h : Orderly store)
    (hk : ∀ open_, Reachable D open_.address →
      Respects Quiet (fun _ => True) (k open_)) :
    wp (lookup PciTables.devices device >>= k) store (fun _ => Quiet store)
      fun _ => Quiet store := by
  refine wp_bind (q := fun open_ s => s = store ∧ Held store.pci.devices open_.address)
    (wp_lookup (fun open_ hget => ⟨rfl, held_of_get hget⟩) fun _ => Std.Refl.refl store)
    (fun open_ s hq => ?_) fun _ _ => id
  obtain ⟨rfl, hheld⟩ := hq
  exact wp_mono (hk open_ (h _ hheld) s) (fun _ _ h => h.2) fun _ _ h => h.2

theorem openBar_quiet {store : Store D} (h : Orderly store) (device index : Nat) :
    wp (openBar device index) store (fun _ => Quiet store) fun _ => Quiet store := by
  refine lookup_bind_quiet h fun open_ hopen => ?_
  refine (onMachineAlways_quiet (licenses_lenient.describeBars _)).bind fun bars hbars => ?_
  split
  · exact Respects.fail
  rename_i bar hfind
  split
  · exact Respects.fail
  have hmem : bar ∈ bars := List.mem_of_find?_eq_some hfind
  refine (onMachine_quiet (assignBar_licenses hopen.2 (hbars bar hmem)) _).bind fun base _ => ?_
  exact fun store => ⟨trivial, rfl, fun _ => id⟩

theorem enableInterrupts_quiet {store : Store D} (h : Orderly store) (device : Nat)
    (kind : WitInterruptKind) (count : Nat) :
    wp (enableInterrupts device kind count) store (fun _ => Quiet store)
      fun _ => Quiet store := by
  refine lookup_bind_quiet h fun open_ hopen => ?_
  split
  · exact Respects.fail
  split
  · exact Respects.pure trivial
  refine Respects.bind (p := fun _ => True) (onMachine_quiet
    ((configRead_spares _ _ _).weaken fun _ _ => Spares.licenses) _) fun pin _ => ?_
  split
  · exact Respects.fail
  refine (onMachine_quiet (enableIntxOutput_licenses hopen.2) _).bind fun _ _ => ?_
  refine Respects.bind (p := fun _ => True) (fun store => ⟨trivial, rfl, fun _ => id⟩) ?_
  exact fun _ _ => Respects.pure trivial

/-- An opening call adds a handle of a function that is there. -/
theorem openFunction_spec (address : FunctionAddress) (store : Store D) :
    wp (openFunction address) store
      (fun _ store' => store'.machine.history = store.machine.history ∧ Reachable D address ∧
        ∀ f, Held store'.pci.devices f → f = address ∨ Held store.pci.devices f)
      fun _ => Quiet store := by
  refine wp_bind (q := fun answer store' => Quiet store store' ∧
    (answer = true → Reachable D address)) (wp_onMachineAlways (wp_mono
    (functionPresent_spec address store.machine) (fun _ _ h => ?_) fun _ _ => False.elim))
    (fun answer store' h => ?_) fun _ _ => id
  · exact ⟨⟨h.1, fun _ => id⟩, h.2⟩
  split
  · exact wp_fail h.1
  rename_i hpresent
  refine wp_bind_of_ok (gets_apply _ _) ?_
  split
  · exact wp_fail h.1
  refine wp_of_ok rfl ⟨h.1.1, h.2 (not_not.mp hpresent), fun f hf => ?_⟩
  obtain ⟨device, hmem, rfl⟩ := hf
  obtain ⟨i, hget⟩ := Slots.mem_iff_get.mp hmem
  rcases Slots.get_insert_cases hget with ⟨-, rfl⟩ | hold
  · exact .inl rfl
  · exact .inr (h.1.2 _ (held_of_get hold))

end Quiet

/-- The calls of `eo9:pci` that neither open a function nor free a buffer. -/
theorem Call.run_quiet {call : Call} {store : Store D} (h : Orderly store)
    (hopen : ∀ address, call ≠ .open_ address) (hdrop : ∀ rep, call ≠ .dropBuffer rep)
    (hclose : ∀ rep, call ≠ .dropDevice rep) : Quiet store (call.run store).2 := by
  have hmoves : ∀ {α : Type} {m : Action (Store D) WitPciError α} {reply : α → Reply},
      wp m store (fun _ => Quiet store) (fun _ => Quiet store) →
      Quiet store ((m >>= fun a => pure (reply a)) store).2 := fun hm => (wp_map hm).final
  have hrespects : ∀ {α : Type} {m : Action (Store D) WitPciError α} {reply : α → Reply},
      Respects Quiet (fun _ => True) m → Quiet store ((m >>= fun a => pure (reply a)) store).2 :=
    fun hm => hmoves (wp_mono (hm store) (fun _ _ hq => hq.2) fun _ _ hq => hq.2)
  cases call with
  | open_ address => exact absurd rfl (hopen address)
  | configRead device offset width => exact hrespects (configReadCall_quiet _ _ _)
  | configWrite device offset width value => exact hrespects (configWriteCall_quiet _ _ _ _)
  | bars device => exact hrespects (barsCall_quiet _)
  | openBar device index => exact hmoves (openBar_quiet h _ _)
  | barRead bar offset width => exact hrespects (barReadCall_quiet _ _ _)
  | barWrite bar offset width value => exact hrespects (barWriteCall_quiet _ _ _ _)
  | setBusMaster device enable => exact hrespects (setBusMasterCall_quiet _ _)
  | enableInterrupts device kind count => exact hmoves (enableInterrupts_quiet h _ _ _)
  | allocDma device len storage => exact hrespects (allocDma_quiet _ _ _)
  | dropDevice rep => exact absurd rfl (hclose rep)
  | dropBar rep =>
    exact hrespects (m := closeBar rep) fun _ => ⟨trivial, rfl, fun _ => id⟩
  | dropInterrupt rep =>
    exact hrespects (m := closeInterrupt rep) fun _ => ⟨trivial, rfl, fun _ => id⟩
  | dropBuffer rep => exact absurd rfl (hdrop rep)

/-- A revocation for handles of the table: the licences of the given functions are gone, and
only command registers of functions that the table is for are touched. -/
structure Withdraws (devices : Slots OpenDevice) (fs : FunctionAddress → Prop)
    (m m' : Machine D) : Prop where
  revokes : Revokes fs m m'
  held : ∀ f, fs f → Held devices f
  touching : Touching (fun touch => ∃ f, Held devices f ∧ AtRegister D f 4 touch) m m'

/-- A function that the table is not for keeps its licence. -/
theorem Withdraws.keeps {devices : Slots OpenDevice} {fs : FunctionAddress → Prop}
    {m m' : Machine D} (h : Withdraws devices fs m m') {f : FunctionAddress}
    (hf : ¬ Held devices f) : master m'.bus f = master m.bus f :=
  h.revokes.spares.2 f fun hfs => hf (h.held f hfs)

theorem Withdraws.refl {devices : Slots OpenDevice} {fs : FunctionAddress → Prop}
    (m : Machine D) (h : ∀ f, ¬ fs f) : Withdraws devices fs m m :=
  ⟨Revokes.refl h, fun f hf => absurd hf (h f), Std.Refl.refl m⟩

omit [Bus D] [ConfigAccess D] [Board D] [LawfulPci D] in
theorem Armed.held {devices : Slots OpenDevice} {f : FunctionAddress} (h : Armed devices f) :
    Held devices f := by
  obtain ⟨device, hmem, hf, -⟩ := h
  exact ⟨device, hmem, hf⟩

theorem revoke_withdraws {devices : Slots OpenDevice} {device : OpenDevice}
    (hmem : Held devices device.address) (h : Reachable D device.address) (m : Machine D) :
    wp (revoke device : Action (Machine D) ε Unit) m
      (fun _ m' => Withdraws devices
        (fun f => device.address = f ∧ device.busMasterEnabled = true) m m')
      fun _ _ => False := by
  refine wp_mono (wp_and (revoke_spec h m) (revoke_touching device m)) (fun _ m' hr => ?_)
    fun _ _ he => he.1
  exact ⟨hr.1, fun f hf => hf.1 ▸ hmem, hr.2.2.mono fun t ht => ⟨_, hmem, ht⟩⟩

theorem quiesceDevices_withdraws {devices : Slots OpenDevice}
    (h : ∀ f, Held devices f → Reachable D f) (m : Machine D) :
    wp (quiesceDevices devices : Action (Machine D) ε (Slots OpenDevice)) m
      (fun devices' m' => Withdraws devices (Armed devices) m m' ∧
        ∀ f, Held devices' f → Held devices f)
      fun _ _ => False := by
  have htouching := quiesceDevices_touching (ε := ε)
    (p := fun touch => ∃ f, Held devices f ∧ AtRegister D f 4 touch) fun f hf t ht => ⟨f, hf, ht⟩
  refine wp_mono (wp_and (quiesceDevices_spec h m) (htouching m)) (fun devices' m' hq => ?_)
    fun _ _ he => he.1
  refine ⟨⟨hq.1.1, fun f => Armed.held, hq.2.2⟩, fun f hf => ?_⟩
  obtain ⟨device, hmem, rfl⟩ := hf
  rw [hq.1.2, List.mem_map] at hmem
  obtain ⟨slot, hslot, heq⟩ := hmem
  obtain ⟨device', rfl, rfl⟩ := Option.map_eq_some_iff.mp heq
  exact ⟨device', hslot, rfl⟩

/-- The machine after the handles of a store are quiesced. -/
structure Quiesces (store store' : Store D) : Prop where
  withdraws : Withdraws store.pci.devices (Armed store.pci.devices) store.machine store'.machine
  held : ∀ f, Held store'.pci.devices f → Held store.pci.devices f
  buffers : store'.pci.buffers = store.pci.buffers

theorem quiesceAll_spec {store : Store D} (h : Orderly store) :
    wp quiesceAll store (fun _ store' => Quiesces store store') fun _ _ => False := by
  refine wp_bind_of_ok (gets_apply _ _) ?_
  refine wp_bind (q := fun devices s => Quiesces store s ∧
    ∀ f, Held devices f → Held store.pci.devices f)
    (wp_onMachineAlways (wp_mono (quiesceDevices_withdraws h store.machine) (fun devices m hq => ?_)
      fun _ _ => False.elim)) (fun devices s hs => ?_) fun _ _ => id
  · exact ⟨⟨hq.1, fun _ => id, rfl⟩, hq.2⟩
  · exact wp_modify ⟨hs.1.withdraws, hs.2, hs.1.buffers⟩

theorem quiesceArmed_spec {store : Store D} (h : Orderly store) :
    wp quiesceArmed store (fun _ store' => Quiesces store store') fun _ _ => False := by
  refine wp_bind_of_ok (gets_apply _ _) ?_
  split
  · exact quiesceAll_spec h
  · rename_i hnone
    refine wp_pure ⟨Withdraws.refl _ fun f hf => ?_, fun _ => id, rfl⟩
    obtain ⟨device, hmem, -, hon⟩ := hf
    refine hnone (List.any_eq_true.mpr ⟨some device, hmem, ?_⟩)
    rw [Option.any_some]
    exact hon

/-- A device goes with the licence that was granted through it. -/
theorem closeDevice_spec {store : Store D} (h : Orderly store) (rep : Nat) :
    wp (closeDevice rep) store
      (fun _ store' => (∃ fs, Withdraws store.pci.devices fs store.machine store'.machine) ∧
        Quiet store store') fun _ _ => False := by
  unfold closeDevice
  refine wp_bind_of_ok (gets_apply _ _) ?_
  rcases hget : store.pci.devices.get rep with _ | device
  · exact wp_pure ⟨⟨nobody, Withdraws.refl _ fun _ => id⟩, Std.Refl.refl store⟩
  · refine wp_bind_of_ok (modify_apply _ _) (wp_onMachineAlways ?_)
    have hheld := held_of_get hget
    refine wp_mono (revoke_withdraws hheld (h _ hheld) store.machine) (fun _ m hr => ?_)
      fun _ _ => id
    exact ⟨⟨_, hr⟩, hr.revokes.spares.1, fun f => held_of_clear⟩

/-- A buffer is freed after the handles are quiesced. -/
structure Frees (store : Store D) (rep : Nat) (store₁ store' : Store D) : Prop where
  quiesces : Quiesces store store₁
  devices : store'.pci.devices = store₁.pci.devices
  machine : store'.machine = match store.pci.buffers.get rep with
    | none => store₁.machine
    | some buffer =>
      { store₁.machine with
        history := .freed buffer.storage store₁.machine.bus :: store₁.machine.history }

theorem closeBuffer_spec {store : Store D} (h : Orderly store) (rep : Nat) :
    wp (closeBuffer rep) store (fun _ store' => ∃ store₁, Frees store rep store₁ store')
      fun _ _ => False := by
  refine wp_bind (quiesceArmed_spec h) (fun _ store₁ hq => ?_) fun _ _ => id
  refine wp_bind_of_ok (gets_apply _ _) ?_
  rw [hq.buffers]
  rcases hget : store.pci.buffers.get rep with _ | buffer
  · exact wp_pure ⟨store₁, hq, rfl, by rw [hget]⟩
  · exact wp_of_ok rfl ⟨store₁, hq, rfl, by rw [hget]; rfl⟩

/-- The tables go after the handles are quiesced. -/
theorem dropTables_spec {store : Store D} (h : Orderly store) :
    wp dropTables store
      (fun _ store' => ∃ store₁, Quiesces store store₁ ∧ store'.pci = {} ∧
        store'.machine = { store₁.machine with
          history := freedAll store₁.machine.bus store.pci.buffers store₁.machine.history })
      fun _ _ => False := by
  refine wp_bind (quiesceAll_spec h) (fun _ store₁ hq => ?_) fun _ _ => id
  refine wp_bind_of_ok (gets_apply _ _) (wp_bind_of_ok (modify_apply _ _) ?_)
  rw [hq.buffers]
  refine wp_onMachineAlways (wp_of_ok (freeBuffers_eq _ _) ?_)
  exact ⟨store₁, hq, rfl, rfl⟩

/-- Revoking the licence through a handle. -/
theorem setBusMasterCall_revokes {store : Store D} (h : Orderly store) (device : Nat) :
    wp (setBusMasterCall device false) store
      (fun _ store' => ∃ fs, Withdraws store.pci.devices fs store.machine store'.machine)
      fun _ store' => ∃ fs, Withdraws store.pci.devices fs store.machine store'.machine := by
  refine wp_bind (q := fun open_ s => s = store ∧ Held store.pci.devices open_.address)
    (wp_lookup (fun open_ hget => ⟨rfl, held_of_get hget⟩)
      fun _ => ⟨nobody, Withdraws.refl _ fun _ => id⟩) (fun open_ s hq => ?_) fun _ _ => id
  obtain ⟨rfl, hheld⟩ := hq
  have hrun : wp (onMachine (setBusMaster open_.address false) fun _ =>
      WitPciError.io "command register write failed") s
      (fun _ s' => ∃ fs, Withdraws s.pci.devices fs s.machine s'.machine) fun _ _ => False := by
    refine wp_onMachine (wp_mono (wp_and (setBusMaster_revokes (h _ hheld) s.machine)
      (setBusMaster_touching _ s.machine)) (fun _ m hr => ?_) fun _ _ he => he.1.elim)
    refine ⟨only open_.address, ⟨hr.1.1, fun f hf => ?_⟩, fun f hf => ?_, ?_⟩
    · exact (congrArg (master m.bus) hf).trans hr.1.2
    · exact hf ▸ hheld
    · exact hr.2.2.mono fun t ht => ⟨_, hheld, ht⟩
  exact wp_bind hrun (fun _ s' hs => wp_modify hs) fun _ _ => False.elim

section Run

variable {call : Call} {store : Store D}

theorem Call.run_dropDevice (h : Orderly store) (rep : Nat) :
    (∃ fs, Withdraws store.pci.devices fs store.machine
      ((Call.dropDevice rep).run store).2.machine) ∧
      Quiet store ((Call.dropDevice rep).run store).2 :=
  (wp_map (wp_mono (closeDevice_spec h rep) (fun _ _ hs => hs) fun _ _ => False.elim)).final

theorem Call.run_dropBuffer (h : Orderly store) (rep : Nat) :
    ∃ store₁, Frees store rep store₁ ((Call.dropBuffer rep).run store).2 :=
  (wp_map (wp_mono (closeBuffer_spec h rep) (fun _ _ hs => hs) fun _ _ => False.elim)).final
    (p := fun store' : Store D => ∃ store₁, Frees store rep store₁ store')

theorem Call.run_setBusMaster (h : Orderly store) (device : Nat) :
    ∃ fs, Withdraws store.pci.devices fs store.machine
      ((Call.setBusMaster device false).run store).2.machine :=
  (wp_map (setBusMasterCall_revokes h device)).final
    (p := fun store' : Store D => ∃ fs, Withdraws store.pci.devices fs store.machine store'.machine)

/-- A handle that is there after an opening call was there before, or is the new one. -/
theorem Call.run_open (address : FunctionAddress) {f : FunctionAddress}
    (hf : Held ((Call.open_ address).run store).2.pci.devices f) :
    Held store.pci.devices f ∨ address = f ∧ Reachable D f ∧
      ∃ rep, ((Call.open_ address).run store).1 = .ok (.handle rep) := by
  have hspec : wp (Call.open_ address).run store
      (fun reply s => ∀ g, Held s.pci.devices g → Held store.pci.devices g ∨
        address = g ∧ Reachable D g ∧ ∃ rep, reply = .handle rep)
      fun _ s => ∀ g, Held s.pci.devices g → Held store.pci.devices g := by
    refine wp_bind (openFunction_spec address store) (fun rep s hs => ?_) fun _ s hs => hs.2
    refine wp_pure fun g hg => (hs.2.2 g hg).symm.imp_right fun heq => ?_
    exact ⟨heq.symm, heq.symm ▸ hs.2.1, rep, rfl⟩
  rcases hrun : (Call.open_ address).run store with ⟨e | reply, s⟩
  · rw [hrun] at hf
    exact .inl (hspec.stopped hrun f hf)
  · rw [hrun] at hf
    refine (hspec.returned hrun f hf).imp_right fun hnew => ?_
    exact ⟨hnew.1, hnew.2.1, hnew.2.2.imp fun rep hrep => congrArg _ hrep⟩

/-- A handle that is there after a call was there before, or the call opened its function. -/
theorem Call.run_held (h : Orderly store) {f : FunctionAddress}
    (hf : Held (call.run store).2.pci.devices f) : Held store.pci.devices f ∨
      call = .open_ f ∧ Reachable D f ∧ ∃ rep, (call.run store).1 = .ok (.handle rep) := by
  by_cases hopen : ∃ address, call = .open_ address
  · obtain ⟨address, rfl⟩ := hopen
    exact (Call.run_open address hf).imp_right fun hnew => ⟨congrArg _ hnew.1, hnew.2⟩
  left
  by_cases hdrop : ∃ rep, call = .dropBuffer rep
  · obtain ⟨rep, rfl⟩ := hdrop
    obtain ⟨store₁, hfrees⟩ := Call.run_dropBuffer h rep
    exact hfrees.quiesces.held f (hfrees.devices ▸ hf)
  by_cases hclose : ∃ rep, call = .dropDevice rep
  · obtain ⟨rep, rfl⟩ := hclose
    exact (Call.run_dropDevice h rep).2.2 f hf
  · exact (Call.run_quiet h (fun _ heq => hopen ⟨_, heq⟩) (fun _ heq => hdrop ⟨_, heq⟩)
      fun _ heq => hclose ⟨_, heq⟩).2 f hf

/-- The history is as it was, unless a buffer was dropped. -/
theorem Call.run_history (h : Orderly store) (hdrop : ∀ rep, call ≠ .dropBuffer rep) :
    (call.run store).2.machine.history = store.machine.history := by
  by_cases hclose : ∃ rep, call = .dropDevice rep
  · obtain ⟨rep, rfl⟩ := hclose
    exact (Call.run_dropDevice h rep).2.1
  by_cases hopen : ∃ address, call = .open_ address
  · obtain ⟨address, rfl⟩ := hopen
    have hspec : wp (openFunction address) store
        (fun _ s => s.machine.history = store.machine.history)
        fun _ s => s.machine.history = store.machine.history :=
      wp_mono (openFunction_spec address store) (fun _ _ hs => hs.1) fun _ _ hs => hs.1
    exact (wp_map hspec).final (p := fun s : Store D => s.machine.history = store.machine.history)
  · exact (Call.run_quiet h (fun _ heq => hopen ⟨_, heq⟩) hdrop fun _ heq => hclose ⟨_, heq⟩).1

end Run

end Eo9.Kernel.Pci
