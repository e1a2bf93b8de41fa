import Eo9.Kernel.Providers
import Eo9.Library.Runs

/-!
# Tasks on the device capabilities

Any number of tasks make calls of `eo9:pci` and `eo9:platform`, drop handles and end. The
calls hold no await, so the executor interleaves them as a whole. A task that ends, is
trapped or is killed drops the tables of its store, those of PCI first.
-/

namespace Eo9.Kernel

open Eo9.Library

namespace Pci

/-- A call or a handle drop of a task; an allocation comes with the place of the storage. -/
inductive Call where
  | open_ (address : FunctionAddress)
  | configRead (device offset : Nat) (width : AccessWidth)
  | configWrite (device offset : Nat) (width : AccessWidth) (value : Nat)
  | bars (device : Nat)
  | openBar (device index : Nat)
  | barRead (bar offset : Nat) (width : AccessWidth)
  | barWrite (bar offset : Nat) (width : AccessWidth) (value : Nat)
  | setBusMaster (device : Nat) (enable : Bool)
  | enableInterrupts (device : Nat) (kind : WitInterruptKind) (count : Nat)
  | allocDma (device len storage : Nat)
  | dropDevice (rep : Nat)
  | dropBar (rep : Nat)
  | dropInterrupt (rep : Nat)
  | dropBuffer (rep : Nat)
  deriving DecidableEq

/-- What a call gives back. -/
inductive Reply where
  | unit
  | value (value : Nat)
  | handle (rep : Nat)
  | bars (bars : List BarDescription)
  | handles (reps : List Nat)

variable {D : Type} [Bus D] [ConfigAccess D] [Board D]

def Call.run : Call → Action (Store D) WitPciError Reply
  | .open_ address => return .handle (← openFunction address)
  | .configRead device offset width => return .value (← configReadCall device offset width)
  | .configWrite device offset width value => do
      configWriteCall device offset width value
      return .unit
  | .bars device => return .bars (← barsCall device)
  | .openBar device index => return .handle (← Pci.openBar device index)
  | .barRead bar offset width => return .value (← barReadCall bar offset width)
  | .barWrite bar offset width value => do
      barWriteCall bar offset width value
      return .unit
  | .setBusMaster device enable => do
      setBusMasterCall device enable
      return .unit
  | .enableInterrupts device kind count =>
    return .handles (← Pci.enableInterrupts device kind count)
  | .allocDma device len storage => return .handle (← Pci.allocDma device len storage)
  | .dropDevice rep => do
      closeDevice rep
      return .unit
  | .dropBar rep => do
      closeBar rep
      return .unit
  | .dropInterrupt rep => do
      closeInterrupt rep
      return .unit
  | .dropBuffer rep => do
      closeBuffer rep
      return .unit

end Pci

namespace Platform

inductive Call where
  | claim (name : String)
  | read (region offset : Nat) (width : Pci.AccessWidth)
  | write (region offset : Nat) (width : Pci.AccessWidth) (value : Nat)
  | allocDma (region len storage : Nat)
  | dropRegion (rep : Nat)
  | dropBuffer (rep : Nat)
  deriving DecidableEq

variable {D : Type} [Pci.Bus D] [Pci.Board D]

def Call.run (grant : Grant) : Call → Action (Store D) WitPlatformError Pci.Reply
  | .claim name => return .handle (← Platform.claim grant name)
  | .read region offset width => return .value (← readCall region offset width)
  | .write region offset width value => do
      writeCall region offset width value
      return .unit
  | .allocDma region len storage => return .handle (← Platform.allocDma region len storage)
  | .dropRegion rep => do
      closeRegion rep
      return .unit
  | .dropBuffer rep => do
      closeBuffer rep
      return .unit

end Platform

namespace Devices

open Pci (Bus ConfigAccess Board Machine PciTables WitPciError Reply)
open Platform (PlatformTables WitPlatformError Grant)

/-- The machine, the regions claimed by any task, and the tables in the store of each. -/
structure Kernel (D : Type) where
  machine : Machine D
  claimed : List String
  pci : Nat → PciTables
  platform : Nat → PlatformTables

variable {D : Type}

def Kernel.pciStore (kernel : Kernel D) (task : Nat) : Pci.Store D :=
  ⟨kernel.machine, kernel.pci task⟩

def Kernel.withPci (kernel : Kernel D) (task : Nat) (store : Pci.Store D) : Kernel D :=
  { kernel with machine := store.machine, pci := Function.update kernel.pci task store.pci }

def Kernel.platformStore (kernel : Kernel D) (task : Nat) : Platform.Store D :=
  ⟨kernel.machine, kernel.claimed, kernel.platform task⟩

def Kernel.withPlatform (kernel : Kernel D) (task : Nat) (store : Platform.Store D) : Kernel D :=
  { kernel with
    machine := store.machine
    claimed := store.claimed
    platform := Function.update kernel.platform task store.platform }

/-- The machine at the start of a call, with the accesses of the call still to come. -/
def Kernel.enter (kernel : Kernel D) : Kernel D :=
  { kernel with machine := { kernel.machine with touched := [] } }

/-- A call of a task, or its end. -/
inductive Call where
  | pci (call : Pci.Call)
  | platform (call : Platform.Call)
  | finish
  deriving DecidableEq

/-- How a call ended. -/
inductive Answer where
  | pci (outcome : Outcome WitPciError Reply)
  | platform (outcome : Outcome WitPlatformError Reply)
  | finish (pci : Outcome WitPciError Unit) (platform : Outcome WitPlatformError Unit)

/-- What a task did, and how it ended. -/
structure Event where
  task : Nat
  call : Call
  answer : Answer

variable [Bus D] [ConfigAccess D] [Board D]

/-- A call as one step of the executor. -/
def Kernel.perform (grant : Grant) (task : Nat) (call : Call) (kernel : Kernel D) :
    Answer × Kernel D :=
  match call with
  | .pci call =>
    let result := call.run (kernel.enter.pciStore task)
    (.pci result.1, kernel.withPci task result.2)
  | .platform call =>
    let result := call.run grant (kernel.enter.platformStore task)
    (.platform result.1, kernel.withPlatform task result.2)
  | .finish =>
    let dropped := Pci.dropTables (kernel.enter.pciStore task)
    let between := kernel.withPci task dropped.2
    let result := Platform.dropTables (between.platformStore task)
    (.finish dropped.1 result.1, between.withPlatform task result.2)

def Step (grant : Grant) (kernel : Kernel D) (event : Event) (kernel' : Kernel D) : Prop :=
  kernel.perform grant event.task event.call = (event.answer, kernel')

section Step

variable {grant : Grant} {kernel kernel' : Kernel D} {task : Nat} {answer : Answer}

theorem Step.pci {call : Pci.Call} (h : Step grant kernel ⟨task, .pci call, answer⟩ kernel') :
    answer = .pci (call.run (kernel.enter.pciStore task)).1 ∧
      kernel' = kernel.withPci task (call.run (kernel.enter.pciStore task)).2 := by
  injection h with hanswer hkernel
  exact ⟨hanswer.symm, hkernel.symm⟩

theorem Step.platform {call : Platform.Call}
    (h : Step grant kernel ⟨task, .platform call, answer⟩ kernel') :
    answer = .platform (call.run grant (kernel.enter.platformStore task)).1 ∧
      kernel' = kernel.withPlatform task (call.run grant (kernel.enter.platformStore task)).2 := by
  injection h with hanswer hkernel
  exact ⟨hanswer.symm, hkernel.symm⟩

end Step

/-- The kernel before any task has made a call. -/
def boot (bus : D) : Kernel D where
  machine :=
    { bus
      touched := []
      history := []
      nextBar := fun segment => ((Board.controllers D)[segment]?.map Pci.Controller.mmioBase).getD 0 }
  claimed := []
  pci := fun _ => {}
  platform := fun _ => {}

end Devices

end Eo9.Kernel
