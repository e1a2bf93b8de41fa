import Eo9.Kernel.Pci
import Eo9.Library.Slots

/-!
# The PCI capability

The calls of `eo9:pci` on the handle tables of one task (`pci_provider.rs`), each of them one
step of the executor. Waiting for an interrupt and the bytes of a buffer are left out; where
the heap puts the storage of a buffer comes with the call.
-/

namespace Eo9.Kernel.Pci

open Eo9.Library Eo9.Library.Action

structure OpenDevice where
  address : FunctionAddress
  busMasterEnabled : Bool
  deriving DecidableEq

structure OpenBar where
  base : Nat
  size : Nat

def OpenBar.extent (bar : OpenBar) : Extent := ⟨bar.base, bar.size⟩

structure OpenInterrupt where
  line : Nat

def MAX_DMA_ALLOC_BYTES : Nat := 4 * 1024 * 1024

def MAX_DMA_BUFFERS : Nat := 64

structure DmaBuffer where
  storage : Nat
  len : Nat

structure PciTables where
  devices : Slots OpenDevice := []
  bars : Slots OpenBar := []
  interrupts : Slots OpenInterrupt := []
  buffers : Slots DmaBuffer := []

inductive WitPciError where
  | denied
  | notFound
  | busy
  | outOfRange
  | unsupported
  | exhausted
  | io (text : String)

inductive WitInterruptKind where
  | intx
  | msi
  | msiX
  deriving DecidableEq

/-- What a call of a task works on. -/
structure Store (D : Type) where
  machine : Machine D
  pci : PciTables

variable {D : Type} {ε : Type} {α : Type}

/-- An operation of the machine, whose failure is the given error. -/
def onMachine (m : Action (Machine D) ε α) (f : ε → WitPciError) : Action (Store D) WitPciError α :=
  (m.zoom Store.machine fun machine store => { store with machine }).mapErr
    fun e => Outcome.fail (f e)

/-- An operation of the machine that cannot fail. -/
def onMachineAlways (m : Action (Machine D) WitPciError α) : Action (Store D) WitPciError α :=
  m.zoom Store.machine fun machine store => { store with machine }

/-- The entry behind a handle. -/
def lookup (table : PciTables → Slots α) (rep : Nat) : Action (Store D) WitPciError α := fun store =>
  match (table store.pci).get rep with
  | some value => (.ok value, store)
  | none => (.error (.err .notFound), store)

def insertDevice (device : OpenDevice) : Action (Store D) WitPciError Nat :=
  .update fun store =>
    ((store.pci.devices.insert device).1,
      { store with pci.devices := (store.pci.devices.insert device).2 })

def insertBar (bar : OpenBar) : Action (Store D) WitPciError Nat :=
  .update fun store =>
    ((store.pci.bars.insert bar).1, { store with pci.bars := (store.pci.bars.insert bar).2 })

def insertInterrupt (vector : OpenInterrupt) : Action (Store D) WitPciError Nat :=
  .update fun store =>
    ((store.pci.interrupts.insert vector).1,
      { store with pci.interrupts := (store.pci.interrupts.insert vector).2 })

def insertBuffer (buffer : DmaBuffer) : Action (Store D) WitPciError Nat :=
  .update fun store =>
    ((store.pci.buffers.insert buffer).1,
      { store with pci.buffers := (store.pci.buffers.insert buffer).2 })

/-- The storage of a buffer goes back to the heap. -/
def freeBuffer (buffer : DmaBuffer) : Action (Machine D) ε Unit :=
  .modify fun m => { m with history := .freed buffer.storage m.bus :: m.history }

def barAccessInBounds (offset : Nat) (width : AccessWidth) (size : Nat) :
    Action (Store D) WitPciError Unit :=
  if offset + width.bytes < 2 ^ 64 ∧ offset + width.bytes ≤ size then pure ()
  else .fail .outOfRange

section Calls

variable [Bus D] [ConfigAccess D] [Board D]

def openFunction (address : FunctionAddress) : Action (Store D) WitPciError Nat := do
  let present ← onMachineAlways (functionPresent address)
  if ¬ present then Action.fail .notFound
  else
    let devices ← Action.gets fun store => store.pci.devices
    if devices.any fun slot => slot.any fun device => device.address = address then
      Action.fail .busy
    else insertDevice ⟨address, false⟩

def configReadCall (device offset : Nat) (width : AccessWidth) :
    Action (Store D) WitPciError Nat := do
  let open_ ← lookup PciTables.devices device
  if width = .qword then Action.fail .unsupported
  else onMachine (configRead open_.address offset width) fun _ => .outOfRange

def configWriteCall (device offset : Nat) (width : AccessWidth) (value : Nat) :
    Action (Store D) WitPciError Unit := do
  let open_ ← lookup PciTables.devices device
  if width = .qword then Action.fail .unsupported
  else onMachine (configWrite open_.address offset width value) fun _ => .outOfRange

def barsCall (device : Nat) : Action (Store D) WitPciError (List BarDescription) := do
  let open_ ← lookup PciTables.devices device
  onMachineAlways (describeBars open_.address)

def openBar (device index : Nat) : Action (Store D) WitPciError Nat := do
  let open_ ← lookup PciTables.devices device
  let bars ← onMachineAlways (describeBars open_.address)
  match bars.find? fun bar => bar.index = index with
  | none => Action.fail .notFound
  | some bar =>
    if bar.ioSpace then Action.fail .unsupported
    else
      let base ← onMachine (assignBar open_.address bar) fun _ => .exhausted
      insertBar ⟨base, bar.size⟩

def barReadCall (bar offset : Nat) (width : AccessWidth) : Action (Store D) WitPciError Nat := do
  let window ← lookup PciTables.bars bar
  barAccessInBounds offset width window.size
  onMachine (barRead window.base offset width) fun _ => .outOfRange

def barWriteCall (bar offset : Nat) (width : AccessWidth) (value : Nat) :
    Action (Store D) WitPciError Unit := do
  let window ← lookup PciTables.bars bar
  barAccessInBounds offset width window.size
  onMachine (barWrite window.base offset width value) fun _ => .outOfRange

def setBusMasterCall (device : Nat) (enable : Bool) : Action (Store D) WitPciError Unit := do
  let open_ ← lookup PciTables.devices device
  onMachine (setBusMaster open_.address enable) fun _ => .io "command register write failed"
  Action.modify fun store =>
    { store with
      pci.devices := store.pci.devices.update device fun open_ =>
        { open_ with busMasterEnabled := enable } }

def enableInterrupts (device : Nat) (kind : WitInterruptKind) (count : Nat) :
    Action (Store D) WitPciError (List Nat) := do
  let open_ ← lookup PciTables.devices device
  if kind ≠ .intx ∨ Board.intxWired D = false then Action.fail .unsupported
  else if count = 0 then return []
  else
    let pin ← onMachine (interruptPin open_.address) fun _ => .outOfRange
    if pin = 0 ∨ 4 < pin then Action.fail .unsupported
    else
      onMachine (enableIntxOutput open_.address) fun _ => .io "command register write failed"
      let rep ← insertInterrupt ⟨intxLine open_.address pin⟩
      return [rep]

def allocDma (device len storage : Nat) : Action (Store D) WitPciError Nat := do
  let _ ← lookup PciTables.devices device
  if len = 0 ∨ MAX_DMA_ALLOC_BYTES < len then Action.fail .exhausted
  else
    let buffers ← Action.gets fun store => store.pci.buffers
    if MAX_DMA_BUFFERS ≤ (buffers.filter Option.isSome).length then Action.fail .exhausted
    else insertBuffer ⟨storage, len⟩

/-- Revoke the licence to access memory that was granted through a handle. -/
def revoke (device : OpenDevice) : Action (Machine D) ε Unit := do
  if device.busMasterEnabled then
    let _ ← (setBusMaster device.address false).attempt
    return ()
  else return ()

def quiesceDevices : Slots OpenDevice → Action (Machine D) ε (Slots OpenDevice)
  | [] => pure []
  | none :: rest => do return none :: (← quiesceDevices rest)
  | some device :: rest => do
      revoke device
      return some { device with busMasterEnabled := false } :: (← quiesceDevices rest)

def quiesceAll : Action (Store D) WitPciError Unit := do
  let devices ← onMachineAlways (quiesceDevices (← Action.gets fun store => store.pci.devices))
  Action.modify fun store => { store with pci.devices := devices }

def closeDevice (rep : Nat) : Action (Store D) WitPciError Unit := do
  let devices ← Action.gets fun store => store.pci.devices
  match devices.get rep with
  | none => return ()
  | some device =>
    Action.modify fun store => { store with pci.devices := devices.clear rep }
    onMachineAlways (revoke device)

def closeBar (rep : Nat) : Action (Store D) WitPciError Unit :=
  .modify fun store => { store with pci.bars := store.pci.bars.clear rep }

def closeInterrupt (rep : Nat) : Action (Store D) WitPciError Unit :=
  .modify fun store => { store with pci.interrupts := store.pci.interrupts.clear rep }

/-- A buffer goes only after the devices that the task armed are quiesced. -/
def quiesceArmed : Action (Store D) WitPciError Unit := do
  let devices ← Action.gets fun store => store.pci.devices
  if devices.any fun slot => slot.any fun device => device.busMasterEnabled then quiesceAll
  else return ()

def closeBuffer (rep : Nat) : Action (Store D) WitPciError Unit := do
  quiesceArmed
  let buffers ← Action.gets fun store => store.pci.buffers
  match buffers.get rep with
  | none => return ()
  | some buffer =>
    Action.modify fun store => { store with pci.buffers := buffers.clear rep }
    onMachineAlways (freeBuffer buffer)

/-- The buffers of a table, freed one after the other. -/
def freeBuffers : Slots DmaBuffer → Action (Machine D) ε Unit
  | [] => pure ()
  | none :: rest => freeBuffers rest
  | some buffer :: rest => do
      freeBuffer buffer
      freeBuffers rest

/-- What dropping the tables of a task does, before and while its fields are dropped. -/
def dropTables : Action (Store D) WitPciError Unit := do
  quiesceAll
  let buffers ← Action.gets fun store => store.pci.buffers
  Action.modify fun store => { store with pci := {} }
  onMachineAlways (freeBuffers buffers)

end Calls

end Eo9.Kernel.Pci

/-!
## The platform capability

Register blocks outside of PCI (`platform.rs`) and the calls of `eo9:platform` on the handle
tables of one task (`platform_provider.rs`). A block is claimed by one task at a time
machine-wide. The bytes of a buffer are left out, as are interrupts, which are unsupported.
-/

namespace Eo9.Kernel.Platform

open Eo9.Library Eo9.Library.Action
open Eo9.Kernel.Pci (AccessWidth Board Bus DmaBuffer Machine RegionDef mmioRead mmioWrite
  MAX_DMA_ALLOC_BYTES MAX_DMA_BUFFERS freeBuffer freeBuffers)

inductive WitPlatformError where
  | denied
  | notFound
  | busy
  | outOfRange
  | unsupported
  | exhausted

/-- What a boot granted: nothing, the whole table, or some names. -/
inductive Grant where
  | none
  | all
  | named (names : List String)

def Grant.covers (grant : Grant) (name : String) : Bool :=
  match grant with
  | .none => false
  | .all => true
  | .named names => names.contains name

structure PlatformTables where
  regions : Slots RegionDef := []
  buffers : Slots DmaBuffer := []

/-- What a call of a task works on: the claims are those of all tasks. -/
structure Store (D : Type) where
  machine : Machine D
  claimed : List String
  platform : PlatformTables

variable {D : Type} {ε : Type} {α : Type}

/-- Whether an access is aligned and stays inside a region of the given size. -/
def accessInBounds (offset : Nat) (width : AccessWidth) (size : Nat) : Bool :=
  width.bytes ∣ offset ∧ offset + width.bytes < 2 ^ 64 ∧ offset + width.bytes ≤ size

section Registers

variable [Bus D]

def regionRead (region : RegionDef) (offset : Nat) (width : AccessWidth) :
    Action (Machine D) Unit Nat := do
  if ¬ accessInBounds offset width region.size then Action.fail ()
  else
    let address ← Checked.add 64 region.base offset
    mmioRead address width

def regionWrite (region : RegionDef) (offset : Nat) (width : AccessWidth) (value : Nat) :
    Action (Machine D) Unit Unit := do
  if ¬ accessInBounds offset width region.size then Action.fail ()
  else
    let address ← Checked.add 64 region.base offset
    mmioWrite address width value
    Action.modify fun m => { m with history := .wrote region.name :: m.history }

/-- Run the hook of a region. -/
def quiesceRegion (region : RegionDef) : Action (Machine D) ε Unit :=
  match region.quiesce with
  | none => pure ()
  | some (offset, value) => do
      let address ← Checked.add 64 region.base offset
      mmioWrite address .dword value
      Action.modify fun m => { m with history := .quiesced region.name :: m.history }

end Registers

def onMachine (m : Action (Machine D) ε α) (f : ε → WitPlatformError) :
    Action (Store D) WitPlatformError α :=
  (m.zoom Store.machine fun machine store => { store with machine }).mapErr
    fun e => Outcome.fail (f e)

def onMachineAlways (m : Action (Machine D) WitPlatformError α) :
    Action (Store D) WitPlatformError α :=
  m.zoom Store.machine fun machine store => { store with machine }

def lookupRegion (rep : Nat) : Action (Store D) WitPlatformError RegionDef := fun store =>
  match store.platform.regions.get rep with
  | some region => (.ok region, store)
  | none => (.error (.err .notFound), store)

def tryClaim (name : String) : Action (Store D) WitPlatformError Bool :=
  .update fun store =>
    if store.claimed.contains name then (false, store)
    else (true, { store with claimed := store.claimed ++ [name] })

def releaseClaim (name : String) : Action (Store D) WitPlatformError Unit :=
  .modify fun store => { store with claimed := store.claimed.filter (· ≠ name) }

section Calls

variable [Bus D] [Board D]

def claim (grant : Grant) (name : String) : Action (Store D) WitPlatformError Nat := do
  match (Board.regions D).find? fun region => region.name = name with
  | none => Action.fail .notFound
  | some region =>
    if ¬ grant.covers region.name then Action.fail .denied
    else if ¬ (← tryClaim region.name) then Action.fail .busy
    else
      Action.update fun store =>
        ((store.platform.regions.insert region).1,
          { store with platform.regions := (store.platform.regions.insert region).2 })

def readCall (region offset : Nat) (width : AccessWidth) : Action (Store D) WitPlatformError Nat := do
  let claimed ← lookupRegion region
  onMachine (regionRead claimed offset width) fun _ => .outOfRange

def writeCall (region offset : Nat) (width : AccessWidth) (value : Nat) :
    Action (Store D) WitPlatformError Unit := do
  let claimed ← lookupRegion region
  onMachine (regionWrite claimed offset width value) fun _ => .outOfRange

def allocDma (region len storage : Nat) : Action (Store D) WitPlatformError Nat := do
  let _ ← lookupRegion region
  if len = 0 ∨ MAX_DMA_ALLOC_BYTES < len then Action.fail .exhausted
  else
    let buffers ← Action.gets fun store => store.platform.buffers
    if MAX_DMA_BUFFERS ≤ (buffers.filter Option.isSome).length then Action.fail .exhausted
    else
      Action.update fun store =>
        ((store.platform.buffers.insert ⟨storage, len⟩).1,
          { store with platform.buffers := (store.platform.buffers.insert ⟨storage, len⟩).2 })

def closeRegion (rep : Nat) : Action (Store D) WitPlatformError Unit := do
  let regions ← Action.gets fun store => store.platform.regions
  match regions.get rep with
  | none => return ()
  | some region =>
    Action.modify fun store => { store with platform.regions := regions.clear rep }
    onMachineAlways (quiesceRegion region)
    releaseClaim region.name

def closeBuffer (rep : Nat) : Action (Store D) WitPlatformError Unit := do
  let buffers ← Action.gets fun store => store.platform.buffers
  match buffers.get rep with
  | none => return ()
  | some buffer =>
    Action.modify fun store => { store with platform.buffers := buffers.clear rep }
    onMachineAlways (freeBuffer buffer)

/-- Quiesce the claimed regions and release their claims, one after the other. -/
def releaseRegions : Slots RegionDef → Action (Store D) WitPlatformError Unit
  | [] => pure ()
  | none :: rest => releaseRegions rest
  | some region :: rest => do
      onMachineAlways (quiesceRegion region)
      releaseClaim region.name
      releaseRegions rest

/-- What dropping the tables of a task does, before and while its fields are dropped. -/
def dropTables : Action (Store D) WitPlatformError Unit := do
  let tables ← Action.gets fun store => store.platform
  releaseRegions tables.regions
  Action.modify fun store => { store with platform := {} }
  onMachineAlways (freeBuffers tables.buffers)

end Calls

end Eo9.Kernel.Platform
