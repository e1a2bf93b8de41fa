import Eo9.Library.Extent
import Eo9.Library.Frame

/-!
# PCI Express host support

Configuration space, the sizing and assignment of base address registers, bus mastering and
register access (`pci.rs`). What answers on the bus is a parameter without laws, so that a
function may read back anything, at any time. An address is the number on both sides of the
identity map. How configuration space is reached is a parameter as well. Interrupt delivery
and the printed diagnostics are left out.
-/

namespace Eo9.Kernel.Pci

open Eo9.Library Eo9.Library.Action

structure FunctionAddress where
  segment : Nat
  bus : Nat
  device : Nat
  function : Nat
  deriving DecidableEq

inductive AccessWidth where
  | byte
  | word
  | dword
  | qword
  deriving DecidableEq

def AccessWidth.bytes : AccessWidth → Nat
  | .byte => 1
  | .word => 2
  | .dword => 4
  | .qword => 8

structure BarDescription where
  index : Nat
  ioSpace : Bool
  size : Nat
  prefetchable : Bool
  wide : Bool

def CONFIG_SPACE_SIZE : Nat := 4096

/-- What answers on the bus: each access may change it. -/
class Bus (D : Type) where
  read : D → (address : Nat) → AccessWidth → Nat × D
  write : D → (address : Nat) → AccessWidth → (value : Nat) → D

/-- Where an access to the configuration space of a function lands, if a function can be
there. The way there may have to be set up first. -/
class ConfigAccess (D : Type) where
  map : D → FunctionAddress → (offset : Nat) → Option Nat × D

/-- Flat configuration space, one MiB for each bus. -/
structure Ecam where
  base : Nat
  buses : Nat

def Ecam.map (ecam : Ecam) (address : FunctionAddress) (offset : Nat) : Option Nat :=
  if ecam.buses ≤ address.bus then none
  else
    some (ecam.base + address.bus <<< 20 + address.device <<< 15 + address.function <<< 12 + offset)

/-- The window of a segment that its base address registers are assigned from. -/
structure Controller where
  mmioBase : Nat
  mmioEnd : Nat
  ordered : mmioBase ≤ mmioEnd

def Controller.window (ctrl : Controller) : Extent := ⟨ctrl.mmioBase, ctrl.mmioEnd - ctrl.mmioBase⟩

@[simp] theorem Controller.window_stop (ctrl : Controller) : ctrl.window.stop = ctrl.mmioEnd :=
  Nat.add_sub_of_le ctrl.ordered

/-- A register block outside of PCI. The hook that keeps its device off the memory writes
one register, an offset and a value. -/
structure RegionDef where
  name : String
  base : Nat
  size : Nat
  quiesce : Option (Nat × Nat)
  deriving DecidableEq

/-- The tables of the machine with this bus: a controller for each segment, whether functions
sit behind root ports, whether interrupt pins are wired, and the named register blocks. -/
class Board (D : Type) where
  controllers : List Controller
  apart : controllers.Pairwise fun a b => a.window.Apart b.window
  rootPorts : Bool
  intxWired : Bool
  regions : List RegionDef
  fits : ∀ region ∈ regions, region.base + region.size ≤ 2 ^ 64 ∧
    ∀ hook ∈ region.quiesce, hook.1 + 4 ≤ region.size

/-- An access on the bus. -/
structure Touch where
  address : Nat
  width : AccessWidth
  deriving DecidableEq

def Touch.extent (touch : Touch) : Extent := ⟨touch.address, touch.width.bytes⟩

/-- What happens to a register block, and to the storage of a buffer: it goes back to the
heap with the bus in some state. -/
inductive Happening (D : Type) where
  | wrote (region : String)
  | quiesced (region : String)
  | freed (storage : Nat) (bus : D)
  deriving DecidableEq

/-- The bus, the accesses made on it and the other happenings, each with the last one
first, and where the next base address register of each segment goes. -/
structure Machine (D : Type) where
  bus : D
  touched : List Touch
  history : List (Happening D)
  nextBar : Nat → Nat

variable {D : Type} {ε : Type}

section Bus

variable [Bus D]

def mmioRead (address : Nat) (width : AccessWidth) : Action (Machine D) ε Nat :=
  .update fun m =>
    ((Bus.read m.bus address width).1 % 2 ^ (8 * width.bytes),
      { m with
        bus := (Bus.read m.bus address width).2
        touched := ⟨address, width⟩ :: m.touched })

def mmioWrite (address : Nat) (width : AccessWidth) (value : Nat) :
    Action (Machine D) ε Unit :=
  .modify fun m =>
    { m with
      bus := Bus.write m.bus address width (value % 2 ^ (8 * width.bytes))
      touched := ⟨address, width⟩ :: m.touched }

end Bus

section Config

variable [Board D]

def controller (segment : Nat) : Action (Machine D) Unit Controller :=
  match (Board.controllers D)[segment]? with
  | some ctrl => pure ctrl
  | none => .fail ()

variable [ConfigAccess D]

def configAddress (address : FunctionAddress) (offset : Nat) : Action (Machine D) Unit Nat := do
  if 32 ≤ address.device ∨ 8 ≤ address.function ∨ CONFIG_SPACE_SIZE ≤ offset then Action.fail ()
  else
    let _ ← controller address.segment
    let target ← Action.update fun m =>
      ((ConfigAccess.map m.bus address offset).1,
        { m with bus := (ConfigAccess.map m.bus address offset).2 })
    match target with
    | some target => return target
    | none => Action.fail ()

variable [Bus D]

def configRead (address : FunctionAddress) (offset : Nat) (width : AccessWidth) :
    Action (Machine D) Unit Nat := do
  if width = .qword ∨ ¬ width.bytes ∣ offset then Action.fail ()
  else
    let stop ← Checked.checkedAdd 32 offset width.bytes
    if CONFIG_SPACE_SIZE < stop then Action.fail ()
    else
      let target ← configAddress address offset
      mmioRead target width

def configWrite (address : FunctionAddress) (offset : Nat) (width : AccessWidth) (value : Nat) :
    Action (Machine D) Unit Unit := do
  if width = .qword ∨ ¬ width.bytes ∣ offset then Action.fail ()
  else
    let stop ← Checked.checkedAdd 32 offset width.bytes
    if CONFIG_SPACE_SIZE < stop then Action.fail ()
    else
      let target ← configAddress address offset
      mmioWrite target width value

/-- A configuration read that counts as zero where it fails. -/
def configReadOrZero (address : FunctionAddress) (offset : Nat) (width : AccessWidth) :
    Action (Machine D) ε Nat := do
  match ← (configRead address offset width).attempt with
  | .ok value => return value
  | .error () => return 0

/-- A configuration write whose failure goes unnoticed. -/
def configWriteAnyway (address : FunctionAddress) (offset : Nat) (width : AccessWidth)
    (value : Nat) : Action (Machine D) ε Unit := do
  let _ ← (configWrite address offset width value).attempt
  return ()

def functionPresent (address : FunctionAddress) : Action (Machine D) ε Bool := do
  match ← (configRead address 0x00 .word).attempt with
  | .ok vendor => return vendor ≠ 0xffff
  | .error () => return false

/-- All ones, written to a register to find out which of its bits are wired to zero. -/
def ALL_ONES : Nat := 0xffff_ffff

/-- Write all ones to a register, read it back and restore it. -/
def probe (address : FunctionAddress) (offset original : Nat) : Action (Machine D) ε Nat := do
  configWriteAnyway address offset .dword ALL_ONES
  let mask ← configReadOrZero address offset .dword
  configWriteAnyway address offset .dword original
  return mask

/-- The size that a mask of writable bits stands for. -/
def maskSize (maskLow mask : Nat) : Nat :=
  if maskLow = 0 then 0 else (Checked.complement 64 mask + 1) % 2 ^ 64

/-- Where the register of a BAR is. -/
def barOffset (index : Nat) : Action (Machine D) ε Nat := do
  Checked.add 32 0x10 (← Checked.mul 32 index 4)

/-- The mask of a register, padded with ones where it has no upper half. -/
def barMask (address : FunctionAddress) (offset maskLow : Nat) (ioSpace wide : Bool) :
    Action (Machine D) ε Nat := do
  if wide then
    let highOffset ← Checked.add 32 offset 4
    let originalHigh ← configReadOrZero address highOffset .dword
    let maskHigh ← probe address highOffset originalHigh
    return (maskHigh <<< 32) % 2 ^ 64 ||| (maskLow &&& Checked.complement 32 0xf)
  else if ioSpace then
    return 0xffff_ffff_0000_0000 ||| (maskLow &&& Checked.complement 32 0x3)
  else return 0xffff_ffff_0000_0000 ||| (maskLow &&& Checked.complement 32 0xf)

/-- The loop over the registers, from the one with the given index on. -/
def describeFrom (address : FunctionAddress) :
    (fuel : Nat) → (index : Nat) → List BarDescription → Action (Machine D) ε (List BarDescription)
  | 0, index, bars => if index < 6 then Action.ofOutcome (.error .diverge) else pure bars
  | fuel + 1, index, bars => do
      if index < 6 then
        let offset ← barOffset index
        match ← (configRead address offset .dword).attempt with
        | .error () => return bars
        | .ok originalLow =>
          let ioSpace : Bool := originalLow &&& 0x1 ≠ 0
          let wide : Bool := ¬ ioSpace ∧ (originalLow >>> 1) &&& 0x3 = 0x2
          let prefetchable : Bool := ¬ ioSpace ∧ originalLow &&& 0x8 ≠ 0
          let maskLow ← probe address offset originalLow
          let mask ← barMask address offset maskLow ioSpace wide
          let size := maskSize maskLow mask
          let bars :=
            if size ≠ 0 then bars ++ [⟨index, ioSpace, size, prefetchable, wide⟩] else bars
          let index ← Checked.add 8 index (if wide then 2 else 1)
          describeFrom address fuel index bars
      else return bars

/-- Size the base address registers of an endpoint. -/
def describeBars (address : FunctionAddress) : Action (Machine D) ε (List BarDescription) := do
  let headerType ← configReadOrZero address 0x0e .byte
  if headerType &&& 0x7f ≠ 0 then return []
  else describeFrom address 6 0 []

/-- The upper half of the address in a register, if it has one. -/
def highHalf (address : FunctionAddress) (bar : BarDescription) (offset : Nat) :
    Action (Machine D) Unit Nat := do
  if bar.wide then configRead address (← Checked.add 32 offset 4) .dword else return 0

/-- The address that the register of a memory BAR holds. -/
def currentBase (address : FunctionAddress) (bar : BarDescription) :
    Action (Machine D) Unit Nat := do
  let offset ← barOffset bar.index
  let low ← configRead address offset .dword
  let high ← highHalf address bar offset
  return (high <<< 32) % 2 ^ 64 ||| (low &&& Checked.complement 32 0xf)

/-- Take the next aligned range of a window. The exchange of the pointer never fails on the
one core that there is. -/
def bumpBar (segment : Nat) (ctrl : Controller) (barSize : Nat) :
    Action (Machine D) Unit Nat := do
  let size ← Checked.tryFrom 64 barSize
  let next ← Action.gets fun m => m.nextBar segment
  let align ← Checked.sub size 1
  let sum ← Checked.checkedAdd 64 next align
  let base := sum &&& Checked.complement 64 align
  let stop ← Checked.checkedAdd 64 base size
  if ctrl.mmioEnd < stop then Action.fail ()
  else
    Action.modify fun m => { m with nextBar := Function.update m.nextBar segment stop }
    return base

/-- Write an address to the register of a memory BAR. -/
def placeBar (address : FunctionAddress) (bar : BarDescription) (base : Nat) :
    Action (Machine D) Unit Unit := do
  let offset ← barOffset bar.index
  configWriteAnyway address offset .dword (base &&& 0xffff_ffff)
  if bar.wide then
    configWriteAnyway address (← Checked.add 32 offset 4) .dword (base >>> 32)
  else return ()

/-- The address of a memory BAR: what its register holds, or a new place in the window. -/
def baseOf (address : FunctionAddress) (bar : BarDescription) (ctrl : Controller)
    (current : Nat) : Action (Machine D) Unit Nat := do
  if current ≠ 0 then Checked.tryFrom 64 current
  else
    let base ← bumpBar address.segment ctrl bar.size
    placeBar address bar base
    return base

/-- Make sure that a memory BAR has an address, and that the function decodes it. -/
def assignBar (address : FunctionAddress) (bar : BarDescription) :
    Action (Machine D) Unit Nat := do
  if bar.ioSpace ∨ bar.size = 0 then Action.fail ()
  else
    let ctrl ← controller address.segment
    let current ← currentBase address bar
    let base ← baseOf address bar ctrl current
    let command ← configRead address 0x04 .word
    configWriteAnyway address 0x04 .word (command ||| 0x2)
    return base

/-- The root port that a function sits behind. -/
def FunctionAddress.bridge (address : FunctionAddress) : FunctionAddress :=
  ⟨address.segment, 0, 0, 0⟩

/-- Grant or revoke the licence to access memory. A root port has to forward, too. -/
def setBusMaster (address : FunctionAddress) (enable : Bool) : Action (Machine D) Unit Unit := do
  let command ← configRead address 0x04 .word
  configWrite address 0x04 .word
    (if enable then command ||| 0x4 else command &&& Checked.complement 64 0x4)
  if Board.rootPorts D ∧ enable ∧ address.bus ≠ 0 then
    match ← (configRead address.bridge 0x04 .word).attempt with
    | .ok bridgeCommand =>
      if bridgeCommand &&& 0x6 ≠ 0x6 then
        configWriteAnyway address.bridge 0x04 .word (bridgeCommand ||| 0x6)
      else return ()
    | .error () => return ()
  else return ()

def interruptPin (address : FunctionAddress) : Action (Machine D) Unit Nat :=
  configRead address 0x3d .byte

def enableIntxOutput (address : FunctionAddress) : Action (Machine D) Unit Unit := do
  let command ← configRead address 0x04 .word
  configWrite address 0x04 .word (command &&& Checked.complement 64 (1 <<< 10))

def INTX_LINES : Nat := 4

def intxLine (address : FunctionAddress) (pin : Nat) : Nat :=
  (address.device + pin - 1) % INTX_LINES

end Config

section Registers

variable [Bus D]

def barRead (base offset : Nat) (width : AccessWidth) : Action (Machine D) Unit Nat := do
  if ¬ width.bytes ∣ offset then Action.fail ()
  else
    let target ← Checked.checkedAdd 64 base (← Checked.tryFrom 64 offset)
    mmioRead target width

def barWrite (base offset : Nat) (width : AccessWidth) (value : Nat) :
    Action (Machine D) Unit Unit := do
  if ¬ width.bytes ∣ offset then Action.fail ()
  else
    let target ← Checked.checkedAdd 64 base (← Checked.tryFrom 64 offset)
    mmioWrite target width value

end Registers

end Eo9.Kernel.Pci
