import Eo9.Library.Action
import Eo9.Ohci.Enumerate

/-!
# The OHCI driver

The driver of `driver.rs`, generic over the shell that gives it registers and the arena. Where the
arena ends below 4 GiB no address in it wraps. A transfer into a buffer of the caller hands the
buffer back. As a ghost the driver keeps the words of the controller that it computes addresses and
lengths with.
-/

namespace Eo9.Ohci

open Eo9.Library

inductive WaitOutcome where
  | delivered
  | timedOut
  | unsupported
  deriving DecidableEq

/-- What a shell provides: registers, the arena and, if it routes one, the interrupt. -/
class RegionIo (R : Type) (ε : outParam Type) where
  read32 : (offset : ℕ) → R → Except ε Word × R
  write32 : (offset : ℕ) → Word → R → Except ε PUnit × R
  dmaBase : R → Word
  dmaWrite : (offset : ℕ) → Bytes → R → R
  dmaRead : (offset len : ℕ) → R → Bytes × R
  waitInterrupt : R → Except ε WaitOutcome × R
  length_dmaRead : ∀ offset len r, (dmaRead offset len r).1.length = len
  below : ∀ r, (dmaBase r).toNat + SIZE < 2 ^ 32

inductive DriverError (ε : Type) where
  | io (e : ε)
  | timeout (wait : String)
  | stall
  | transfer (code : ConditionCode)
  | noSuchPort
  | notConnected
  | enumeration (e : EnumerationError)
  | doneQueueCorrupt

structure InterruptState where
  pendingSlot : ℕ
  dummySlot : ℕ
  maxPacket : UInt16

structure BulkState where
  pendingSlot : ℕ
  dummySlot : ℕ

inductive BulkDir where
  | «in»
  | out

/-- What the driver takes from the controller: a link of the done queue, and a retired transfer
descriptor that says how much of a buffer was filled, with the length of the transfer and the room
the caller has for it. -/
inductive Reading where
  | link (base address : Word)
  | stage (base : Word) (td : TransferDescriptor) (length room : ℕ)
  | window (buffer : ℕ) (base : Word) (td : TransferDescriptor) (length room : ℕ)

structure Ohci (R : Type) where
  io : R
  /-- The number of ports, from bring-up. -/
  info : Option UInt8
  interrupt : Option InterruptState
  bulkIn : Option BulkState
  bulkOut : Option BulkState
  reapedCredit : ℕ
  events : Bool
  seen : List Reading

abbrev Driver (R ε α : Type) := Action (Ohci R) (DriverError ε) α

variable {R ε : Type}

def Ohci.new (io : R) : Ohci R := ⟨io, none, none, none, none, 0, false, []⟩

section Access

variable [RegionIo R ε]

/-- A call on the shell that can fail. -/
def ask {α : Type} (f : R → Except ε α × R) : Driver R ε α := fun d =>
  match f d.io with
  | (.ok a, io) => (.ok a, { d with io := io })
  | (.error e, io) => (.error (.err (.io e)), { d with io := io })

def read32 (offset : ℕ) : Driver R ε Word := ask (RegionIo.read32 offset)

def write32 (offset : ℕ) (value : Word) : Driver R ε PUnit := ask (RegionIo.write32 offset value)

def waitInterrupt : Driver R ε WaitOutcome := ask RegionIo.waitInterrupt

def dmaBase : Driver R ε Word := Action.gets fun d => RegionIo.dmaBase d.io

/-- The provider traps on a range outside the arena. -/
def dmaWrite (offset : ℕ) (bytes : Bytes) : Driver R ε PUnit :=
  if offset + bytes.length ≤ SIZE then
    Action.modify fun d => { d with io := RegionIo.dmaWrite offset bytes d.io }
  else Action.panic "dma-write: out of bounds"

def dmaRead (offset len : ℕ) : Driver R ε Bytes :=
  if offset + len ≤ SIZE then
    Action.update fun d =>
      ((RegionIo.dmaRead offset len d.io).1,
        { d with io := (RegionIo.dmaRead offset len d.io).2 })
  else Action.panic "dma-read: out of bounds"

def readTd (slot : ℕ) : Driver R ε TransferDescriptor := do
  let bytes ← dmaRead slot 16
  pure (.decode bytes)

def readEd (offset : ℕ) : Driver R ε EndpointDescriptor := do
  let bytes ← dmaRead offset 16
  pure (.decode bytes)

end Access

def observe (r : Reading) : Driver R ε PUnit :=
  Action.modify fun d => { d with seen := d.seen ++ [r] }

/-- The bus address of an offset in the arena. -/
def bus (base : Word) (offset : ℕ) : Word := base + UInt32.ofNat offset

def HC_CONTROL : ℕ := 0x04
def HC_COMMAND_STATUS : ℕ := 0x08
def HC_INTERRUPT_STATUS : ℕ := 0x0c
def HC_CONTROL_HEAD_ED : ℕ := 0x20
def HC_CONTROL_CURRENT_ED : ℕ := 0x24
def HC_FM_NUMBER : ℕ := 0x3c
def HC_RH_PORT_STATUS : ℕ := 0x54

def rhPortStatus (port : UInt8) : ℕ := HC_RH_PORT_STATUS + 4 * (port.toNat - 1)

def CONTROL_CLE : Word := flag true 4
def CMD_CLF : Word := flag true 1
def CMD_BLF : Word := flag true 2
def INT_WDH : Word := flag true 1
def INT_RHSC : Word := flag true 6
def PORT_CCS : Word := flag true 0
def PORT_PRS : Word := flag true 4
def PORT_LSDA : Word := flag true 9
def PORT_PRSC : Word := flag true 20

def PORT_RESET_POLL_LIMIT : ℕ := 200000
def FRAME_POLL_LIMIT_PER_MS : ℕ := 50000
def CONTROL_POLL_LIMIT : ℕ := 500000
def BULK_POLL_LIMIT : ℕ := 500000
def WRITEBACK_POLL_LIMIT : ℕ := 200000

/-- A counted wait: as many checks as there are rounds. -/
def pollLoop {α : Type} (check : Driver R ε (Option α)) (expired : Driver R ε α) :
    (rounds : ℕ) → Driver R ε α
  | 0 => expired
  | rounds + 1 => do
      match ← check with
      | some a => pure a
      | none => pollLoop check expired rounds

variable [RegionIo R ε]

def frameNumber : Driver R ε Word := do
  let number ← read32 HC_FM_NUMBER
  pure (number &&& 0xffff)

/-- The descriptor behind a link of the done queue. -/
def readLink (address : Word) : Driver R ε TransferDescriptor := do
  let base ← dmaBase
  observe (.link base address)
  let offset ← Action.ofOutcome (checkedSub address.toNat base.toNat)
  readTd offset

/-- Take what the controller wrote back; the number of descriptors. -/
def consumeDoneQueue : Driver R ε ℕ := do
  let bytes ← dmaRead (HCCA + DONE_HEAD) 4
  let head := decodeDword bytes 0
  if head = 0 then pure 0
  else
    dmaWrite (HCCA + DONE_HEAD) (leBytes 4 0)
    write32 HC_INTERRUPT_STATUS INT_WDH
    match ← walkDoneQueue readLink DONE_QUEUE_LIMIT (pointer head) with
    | none => Action.fail .doneQueueCorrupt
    | some walked => pure walked

/-- `u32::saturating_add`. -/
def saturatingAdd (a b : ℕ) : ℕ := min (a + b) (2 ^ 32 - 1)

/-- The counted wait for writebacks; `polls` more rounds may go by without an error. -/
def reapLoop (expected : ℕ) (startFrame : Word) : (polls taken : ℕ) → Driver R ε ℕ
  | polls, taken =>
    if expected ≤ taken then pure taken
    else do
      let consumed ← consumeDoneQueue
      let frame ← frameNumber
      match polls with
      | 0 => Action.fail (.timeout "done-queue writeback")
      | polls + 1 =>
        if 8 < (frame - startFrame) &&& 0xffff then
          Action.fail (.timeout "done-queue writeback")
        else reapLoop expected startFrame polls (saturatingAdd taken consumed)

def reapDoneQueue (expected : ℕ) : Driver R ε PUnit := do
  let consumed ← consumeDoneQueue
  let credit ← Action.gets Ohci.reapedCredit
  Action.modify fun d => { d with reapedCredit := 0 }
  if ← Action.gets Ohci.events then
    let startFrame ← frameNumber
    let taken ← reapLoop expected startFrame WRITEBACK_POLL_LIMIT (saturatingAdd credit consumed)
    let rest ← Action.ofOutcome (checkedSub taken expected)
    Action.modify fun d => { d with reapedCredit := rest }

def disableControlList : Driver R ε PUnit := do
  let control ← read32 HC_CONTROL
  write32 HC_CONTROL (control &&& ~~~CONTROL_CLE)

/-- In event mode each descriptor requests the writeback. -/
def delayInterrupt : Driver R ε UInt8 := do
  pure (if ← Action.gets Ohci.events then DI_IMMEDIATE else DI_NONE)

/-- The setup packet, the chain of descriptors and the endpoint of a control transfer. -/
def submitControl (address maxPacket : UInt8) (lowSpeed : Bool) (setup : SetupPacket)
    (inLength : ℕ) : Driver R ε PUnit := do
  let base ← dmaBase
  dmaWrite SETUP_BUFFER setup.encode
  let delay ← delayInterrupt
  let setupTd : TransferDescriptor :=
    { TransferDescriptor.new .setup .data0 (some (bus base SETUP_BUFFER, 8)) with
      delayInterrupt := delay
      next := bus base (if 0 < inLength then tdSlot 1 else tdSlot 2) }
  dmaWrite (tdSlot 0) setupTd.encode
  let dataTd : TransferDescriptor :=
    { TransferDescriptor.new .in .data1 (some (bus base CONTROL_BUFFER, UInt32.ofNat inLength)) with
      delayInterrupt := delay
      next := bus base (tdSlot 2) }
  let _ ← (if 0 < inLength then dmaWrite (tdSlot 1) dataTd.encode else pure ⟨⟩)
  let statusTd : TransferDescriptor :=
    { TransferDescriptor.new (if 0 < inLength then .out else .in) .data1 none with
      delayInterrupt := delay
      next := bus base (tdSlot 3) }
  dmaWrite (tdSlot 2) statusTd.encode
  dmaWrite (tdSlot 3) ({} : TransferDescriptor).encode
  let ed : EndpointDescriptor :=
    { functionAddress := address
      lowSpeed := lowSpeed
      maxPacketSize := maxPacket.toUInt16
      head := bus base (tdSlot 0)
      tail := bus base (tdSlot 3) }
  dmaWrite CONTROL_ED ed.encode

/-- Hand the list to the controller. -/
def handControlList : Driver R ε PUnit := do
  let base ← dmaBase
  write32 HC_CONTROL_HEAD_ED (bus base CONTROL_ED)
  write32 HC_CONTROL_CURRENT_ED 0
  let control ← read32 HC_CONTROL
  write32 HC_CONTROL (control ||| CONTROL_CLE)
  write32 HC_COMMAND_STATUS CMD_CLF

/-- The head of an endpoint caught its tail, or the endpoint halted; whether it halted. -/
def drained (edOffset : ℕ) (tail : EndpointDescriptor → Word) : Driver R ε (Option Bool) := do
  let current ← readEd edOffset
  pure (if current.halted ∨ current.head = tail current then some current.halted else none)

def drainControl : Driver R ε Bool :=
  pollLoop (drained CONTROL_ED EndpointDescriptor.tail)
    (do
      disableControlList
      Action.fail (.timeout "control transfer"))
    (CONTROL_POLL_LIMIT + 1)

def judge (td : TransferDescriptor) : Driver R ε PUnit :=
  match td.conditionCode with
  | .noError => pure ()
  | .stall => Action.fail .stall
  | other => Action.fail (.transfer other)

/-- The data stage of an IN request; what arrived, and the caller's buffer with it. -/
def dataStage (inLength : ℕ) (dataIn : Bytes) : Driver R ε (ℕ × Bytes) := do
  let base ← dmaBase
  let td ← readTd (tdSlot 1)
  judge td
  observe (.stage base td inLength dataIn.length)
  let received := td.bytesTransferred (bus base CONTROL_BUFFER) (UInt32.ofNat inLength)
  let _ ← Action.ofOutcome (rangeOf dataIn 0 received)
  let bytes ← dmaRead CONTROL_BUFFER received
  pure (received, copyInto dataIn 0 bytes)

/-- Judge the stages in the order of the pipeline. -/
def judgeControl (halted : Bool) (inLength : ℕ) (dataIn : Bytes) : Driver R ε (ℕ × Bytes) := do
  let setupTd ← readTd (tdSlot 0)
  judge setupTd
  let received ← (if 0 < inLength then dataStage inLength dataIn else pure (0, dataIn))
  let statusTd ← readTd (tdSlot 2)
  judge statusTd
  if halted then Action.fail (.transfer .notAccessed) else pure received

def control (address maxPacket : UInt8) (lowSpeed : Bool) (setup : SetupPacket) (dataIn : Bytes) :
    Driver R ε (ℕ × Bytes) := do
  let inLength :=
    if setup.isIn then min (min setup.length.toNat dataIn.length) CONTROL_BUFFER_LEN else 0
  submitControl address maxPacket lowSpeed setup inLength
  handControlList
  let halted ← drainControl
  disableControlList
  reapDoneQueue (if halted then 1 else if 0 < inLength then 3 else 2)
  judgeControl halted inLength dataIn

structure PortStatus where
  connected : Bool
  lowSpeed : Bool

def portStatus (port : UInt8) : Driver R ε PortStatus := do
  let ports ← Action.gets fun d => d.info.getD 0
  if port = 0 ∨ ports < port then Action.fail .noSuchPort
  else
    let raw ← read32 (rhPortStatus port)
    pure ⟨raw &&& PORT_CCS ≠ 0, raw &&& PORT_LSDA ≠ 0⟩

def waitMs (ms : ℕ) : Driver R ε PUnit := do
  let start ← frameNumber
  pollLoop
    (do
      let now ← frameNumber
      pure (if ms ≤ ((now - start) &&& 0xffff).toNat then some ⟨⟩ else none))
    (Action.fail (.timeout "frame-counted wait"))
    (FRAME_POLL_LIMIT_PER_MS * max ms 1 + 1)

def resetPort (port : UInt8) : Driver R ε PUnit := do
  let status ← portStatus port
  if ¬status.connected then Action.fail .notConnected
  else
    write32 (rhPortStatus port) PORT_PRS
    pollLoop
      (do
        let raw ← read32 (rhPortStatus port)
        if raw &&& PORT_PRSC ≠ 0 then
          write32 (rhPortStatus port) PORT_PRSC
          pure (some ⟨⟩)
        else pure none)
      (Action.fail (.timeout "port reset"))
      (PORT_RESET_POLL_LIMIT + 1)

/-- `machine.event(…)?`. -/
def feed (machine : Enumeration) (event : Event) : Driver R ε Enumeration :=
  Action.mapErr (fun e => Outcome.fail (.enumeration e)) (Action.ofOutcome (machine.event event))

/-- One action of the machine, and the event that answers it. -/
def perform (port : UInt8) (lowSpeed : Bool) : Step → Driver R ε (Option Event)
  | .resetPort => do
      resetPort port
      pure (some .portResetComplete)
  | .waitMs ms => do
      waitMs ms
      pure (some .waited)
  | .control address maxPacket setup => do
      let (received, buffer) ←
        control address maxPacket lowSpeed setup (List.replicate MAX_CONFIG_BYTES 0)
      let data ← Action.ofOutcome (rangeOf buffer 0 received)
      pure (some (.controlDone data))
  | .done => pure none

/-- The loop of `attach`. -/
def enumerate (port : UInt8) (lowSpeed : Bool) : (fuel : ℕ) → Enumeration →
    Driver R ε Enumeration
  | 0, _ => Action.ofOutcome (.error .diverge)
  | fuel + 1, machine => do
      match ← perform port lowSpeed machine.nextAction with
      | none => pure machine
      | some event => do
          let machine ← feed machine event
          enumerate port lowSpeed fuel machine

structure Attached where
  enumerated : Enumerated
  lowSpeed : Bool

def attach (port : UInt8) (configOut : Bytes) : Driver R ε ((Attached × ℕ) × Bytes) := do
  let status ← portStatus port
  if ¬status.connected then Action.fail .notConnected
  else
    let machine ← enumerate port status.lowSpeed 9 (.new port)
    match machine.result with
    | none => Action.fail (.enumeration .protocolMismatch)
    | some enumerated =>
      let length := min machine.config.length configOut.length
      let _ ← Action.ofOutcome (rangeOf configOut 0 length)
      let bytes ← Action.ofOutcome (rangeOf machine.config 0 length)
      pure ((⟨enumerated, status.lowSpeed⟩, length), copyInto configOut 0 bytes)

def reportLength (maxPacket : UInt16) : ℕ := min maxPacket.toNat INTERRUPT_BUFFER_LEN

/-- The descriptor that waits for a report. -/
def reportTd (base : Word) (delay : UInt8) (maxPacket : UInt16) (dummySlot : ℕ) :
    TransferDescriptor :=
  { TransferDescriptor.new .in .fromEd
      (some (bus base INTERRUPT_BUFFER, UInt32.ofNat (reportLength maxPacket))) with
    delayInterrupt := delay
    next := bus base (tdSlot dummySlot) }

/-- Queue the old dummy, with the old pending descriptor as the new dummy tail. -/
def rearm (state : InterruptState) : Driver R ε PUnit := do
  let base ← dmaBase
  let delay ← delayInterrupt
  let newDummy := state.pendingSlot
  dmaWrite (tdSlot newDummy) ({} : TransferDescriptor).encode
  dmaWrite (tdSlot state.dummySlot) (reportTd base delay state.maxPacket newDummy).encode
  let ed ← readEd INTERRUPT_ED
  dmaWrite INTERRUPT_ED { ed with tail := bus base (tdSlot newDummy) }.encode
  Action.modify fun d =>
    { d with interrupt := some ⟨state.dummySlot, newDummy, state.maxPacket⟩ }

/-- Copy a window of the arena out, as far as a retired descriptor filled it. -/
def copyOut (buffer : ℕ) (td : TransferDescriptor) (length : ℕ) (out : Bytes) :
    Driver R ε (ℕ × Bytes) := do
  let base ← dmaBase
  observe (.window buffer base td length out.length)
  let received := td.bytesTransferred (bus base buffer) (UInt32.ofNat length)
  let copied := min received out.length
  let bytes ← dmaRead buffer copied
  pure (copied, copyInto out 0 bytes)

def pollInterrupt (report : Bytes) : Driver R ε (Option ℕ × Bytes) := do
  match ← Action.gets Ohci.interrupt with
  | none => Action.fail (.timeout "interrupt endpoint not open")
  | some state =>
    let base ← dmaBase
    let ed ← readEd INTERRUPT_ED
    if ed.halted then
      let td ← readTd (tdSlot state.pendingSlot)
      match td.conditionCode with
      | .stall => Action.fail .stall
      | other => Action.fail (.transfer other)
    else if ed.head ≠ bus base (tdSlot state.dummySlot) then pure (none, report)
    else
      let td ← readTd (tdSlot state.pendingSlot)
      judge td
      let (copied, report) ←
        copyOut INTERRUPT_BUFFER td (reportLength state.maxPacket) report
      reapDoneQueue 1
      rearm state
      pure (some copied, report)

structure ReadReport where
  length : Option ℕ
  rescued : Bool

def ackRootHubChange : Driver R ε PUnit := do
  let status ← read32 HC_INTERRUPT_STATUS
  if status &&& INT_RHSC ≠ 0 then write32 HC_INTERRUPT_STATUS INT_RHSC else pure ()

def readReport (report : Bytes) : Driver R ε (ReadReport × Bytes) := do
  if ← Action.gets Ohci.events then
    let outcome ← waitInterrupt
    let (length, report) ← pollInterrupt report
    if outcome = .delivered ∧ length.isNone then
      let consumed ← consumeDoneQueue
      Action.modify fun d => { d with reapedCredit := saturatingAdd d.reapedCredit consumed }
      ackRootHubChange
      pure (⟨none, false⟩, report)
    else pure (⟨length, decide (outcome = .timedOut) && length.isSome⟩, report)
  else
    let (length, report) ← pollInterrupt report
    pure (⟨length, false⟩, report)

def BulkDir.edOffset : BulkDir → ℕ
  | .in => BULK_IN_ED
  | .out => BULK_OUT_ED

def BulkDir.pid : BulkDir → TdPid
  | .in => .in
  | .out => .out

def BulkDir.notOpen : BulkDir → String
  | .in => "bulk-IN endpoint not open"
  | .out => "bulk-OUT endpoint not open"

def bulkState : BulkDir → Ohci R → Option BulkState
  | .in => Ohci.bulkIn
  | .out => Ohci.bulkOut

def setBulkState (dir : BulkDir) (state : BulkState) (d : Ohci R) : Ohci R :=
  match dir with
  | .in => { d with bulkIn := some state }
  | .out => { d with bulkOut := some state }

/-- Write the first word of an endpoint only, which the controller leaves alone. -/
def writeSkip (edOffset : ℕ) (ed : EndpointDescriptor) (skip : Bool) : Driver R ε PUnit :=
  dmaWrite edOffset ({ ed with skip := skip }.encode.take 4)

/-- The transfer did not retire in time: skip the endpoint for a frame, look once more, and take
the descriptor back. -/
def cancelBulk (edOffset : ℕ) (tail : Word) : Driver R ε Bool := do
  let ed ← readEd edOffset
  writeSkip edOffset ed true
  waitMs 2
  let ed ← readEd edOffset
  if ed.halted ∨ ed.head = tail then
    writeSkip edOffset ed false
    pure ed.halted
  else
    dmaWrite edOffset { ed with head := tail }.encode
    writeSkip edOffset { ed with head := tail } false
    Action.fail (.timeout "bulk transfer")

def queueBulk (dir : BulkDir) (state : BulkState) (length : ℕ) : Driver R ε Word := do
  let base ← dmaBase
  let delay ← delayInterrupt
  let newDummy := state.pendingSlot
  let buffer := if 0 < length then some (bus base BULK_BUFFER, UInt32.ofNat length) else none
  let td : TransferDescriptor :=
    { TransferDescriptor.new dir.pid .fromEd buffer with
      delayInterrupt := delay
      next := bus base (tdSlot newDummy) }
  dmaWrite (tdSlot newDummy) ({} : TransferDescriptor).encode
  dmaWrite (tdSlot state.dummySlot) td.encode
  let ed ← readEd dir.edOffset
  let tail := bus base (tdSlot newDummy)
  dmaWrite dir.edOffset { ed with tail := tail }.encode
  Action.modify (setBulkState dir ⟨state.dummySlot, newDummy⟩)
  pure tail

/-- The host half of the recovery of a halted endpoint. -/
def clearHalt (edOffset : ℕ) : Driver R ε PUnit := do
  let ed ← readEd edOffset
  dmaWrite edOffset { ed with halted := false, toggleCarry := false }.encode

def judgeBulk (edOffset : ℕ) (halted : Bool) (td : TransferDescriptor) :
    Driver R ε TransferDescriptor := do
  if td.conditionCode = .noError ∧ ¬halted then pure td
  else
    let _ ← (if halted then clearHalt edOffset else pure ⟨⟩)
    match td.conditionCode with
    | .stall => Action.fail .stall
    | .noError => Action.fail (.transfer .notAccessed)
    | other => Action.fail (.transfer other)

def runBulkTd (dir : BulkDir) (length : ℕ) : Driver R ε TransferDescriptor := do
  match ← Action.gets (bulkState dir) with
  | none => Action.fail (.timeout dir.notOpen)
  | some state =>
    let tail ← queueBulk dir state length
    write32 HC_COMMAND_STATUS CMD_BLF
    let halted ← pollLoop (drained dir.edOffset fun _ => tail)
      (cancelBulk dir.edOffset tail) (BULK_POLL_LIMIT + 1)
    reapDoneQueue 1
    let retired ← readTd (tdSlot state.dummySlot)
    judgeBulk dir.edOffset halted retired

def bulkRead (buf : Bytes) : Driver R ε (ℕ × Bytes) := do
  if buf.isEmpty then pure (0, buf)
  else
    let length := min buf.length BULK_BUFFER_LEN
    let td ← runBulkTd .in length
    copyOut BULK_BUFFER td length buf

/-- The loop of `bulk_write`. -/
def writeChunks : List Bytes → Driver R ε PUnit
  | [] => pure ()
  | chunk :: rest => do
      dmaWrite BULK_BUFFER chunk
      let _ ← runBulkTd .out chunk.length
      writeChunks rest

def bulkWrite (data : Bytes) : Driver R ε PUnit := do
  if data.isEmpty then
    let _ ← runBulkTd .out 0
  else writeChunks (chunks BULK_BUFFER_LEN data)

end Eo9.Ohci
