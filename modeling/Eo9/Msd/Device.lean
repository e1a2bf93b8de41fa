import Eo9.Library.Await
import Eo9.Msd.Scsi

/-!
# The Bulk-Only Transport command engine

The three-phase ladder over a pair of bulk endpoints (`device.rs`). Each call on
the transport is an await: the transport may answer anything there, and the
command may be dropped there. A call is recorded with the purpose that the
engine makes it for.
-/

namespace Eo9.Msd

open Eo9.Library Eo9.Library.Action Eo9.Library.Dialogue

def FIRST_TAG : Nat := 0xe0900001

inductive TransportError where
  | stall
  | timeout
  | other (text : String)

inductive ProtocolError where
  | cbwStalled
  | cswStalledTwice
  | badCsw (e : CswError)
  | phaseError

inductive MsdError where
  | commandFailed (sense : Option Sense)
  | protocol (e : ProtocolError)
  | transport (e : TransportError)
  | shortData (expected got : Nat)

inductive DataPhase where
  | none
  | dataIn (expected : Nat)
  | dataOut (data : Bytes)

/-- A call on the transport. The wrapper and the data go through `bulk_out`, the
data and the status through `bulk_in`. -/
inductive Call where
  | cbw (bytes : Bytes)
  | dataOut (bytes : Bytes)
  | dataIn (length : Nat)
  | csw
  | clearHaltIn
  | clearHaltOut
  | massStorageReset

/-- What a bulk-IN transfer moved. As a ghost, the number of the command wrapper
that the device emitted it for, where it is a status wrapper. -/
structure Chunk where
  bytes : Bytes
  origin : Option Nat := none

/-- An answer of the transport; only a bulk-IN transfer reads the chunk. -/
abbrev Answer := Except TransportError Chunk

structure Bot where
  tag : Nat
  midCommand : Bool

def Bot.new : Bot := ⟨FIRST_TAG, false⟩

/-- The engine with what the transport is going to answer and the calls so far. -/
abbrev Io := Dialogue Bot Call Answer

abbrev Engine (ε α : Type) := Action Io (Ended ε) α

/-- Make a call and pass its error on. -/
def ask (c : Call) : Engine TransportError Chunk := do
  match ← await c with
  | .ok chunk => pure chunk
  | .error e => failWith e

/-- `map_err(MsdError::Transport)?`. -/
def orTransport {α : Type} (m : Engine TransportError α) : Engine MsdError α :=
  mapFailed .transport m

def setMidCommand (b : Bool) : Engine MsdError PUnit :=
  setOwn fun bot => { bot with midCommand := b }

def resetRecovery : Engine TransportError PUnit := do
  let _ ← ask .massStorageReset
  let _ ← ask .clearHaltIn
  let _ ← ask .clearHaltOut

/-- End the command with a protocol error, behind a reset recovery. -/
def recover {α : Type} (e : ProtocolError) : Engine MsdError α := do
  orTransport resetRecovery
  setMidCommand false
  failWith (.protocol e)

/-- Re-synchronize after an abandoned exchange. -/
def resync : Engine MsdError PUnit := do
  if ← gets (·.own.midCommand) then
    orTransport resetRecovery
    setMidCommand false

def sendCbw (cbw : Bytes) : Engine MsdError PUnit := do
  match ← await (.cbw cbw) with
  | .ok _ => pure ()
  | .error .stall => recover .cbwStalled
  | .error e => failWith (.transport e)

/-- The loop of the IN data stage. Each round takes one answer, so as much fuel as
there are answers left is enough. -/
def readData (expected : Nat) : (fuel : Nat) → Bytes → Engine MsdError Bytes
  | 0, _ => ofOutcome (.error .diverge)
  | fuel + 1, data => do
      if expected ≤ data.length % 2 ^ 32 then pure data
      else
        match ← await (.dataIn (expected - data.length % 2 ^ 32)) with
        | .ok chunk =>
          if chunk.bytes.isEmpty then pure data
          else readData expected fuel (data ++ chunk.bytes)
        | .error .stall =>
          let _ ← orTransport (ask .clearHaltIn)
          pure data
        | .error e => failWith (.transport e)

def moveData : DataPhase → Engine MsdError Bytes
  | .none => pure []
  | .dataIn expected => do
      let fuel ← gets (·.answers.length)
      readData expected (fuel + 1) []
  | .dataOut payload => do
      match ← await (.dataOut payload) with
      | .ok _ => pure []
      | .error .stall =>
        let _ ← orTransport (ask .clearHaltOut)
        pure []
      | .error e => failWith (.transport e)

/-- The status stage, with its two tries. -/
def readCsw : Engine MsdError Chunk := do
  match ← await .csw with
  | .ok chunk => pure chunk
  | .error .stall =>
    let _ ← orTransport (ask .clearHaltIn)
    match ← await .csw with
    | .ok chunk => pure chunk
    | .error .stall => recover .cswStalledTwice
    | .error e => failWith (.transport e)
  | .error e => failWith (.transport e)

/-- The status as far as it lets the command go on. -/
def acceptCsw (chunk : Chunk) (tag : Nat) : Engine MsdError Csw := do
  match decodeCsw chunk.bytes tag with
  | .error e => recover (.badCsw e)
  | .ok csw => if csw.status = CSW_PHASE_ERROR then recover .phaseError else pure csw

def DataPhase.transferLength : DataPhase → Nat
  | .none => 0
  | .dataIn expected => expected
  | .dataOut data => data.length % 2 ^ 32

def DataPhase.direction : DataPhase → Direction
  | .none => .out
  | .dataIn _ => .in_
  | .dataOut _ => .out

def takeTag : Engine MsdError Nat :=
  update fun s => ((s.own.tag + 1) % 2 ^ 32, { s with own.tag := (s.own.tag + 1) % 2 ^ 32 })

/-- The three-phase ladder. -/
def execute (cdb : Bytes) (phase : DataPhase) : Engine MsdError (Bytes × Csw) := do
  resync
  let tag ← takeTag
  let cbw ← ofOutcome (encodeCbw tag phase.transferLength phase.direction 0 cdb)
  setMidCommand true
  sendCbw cbw
  let data ← moveData phase
  let chunk ← readCsw
  let csw ← acceptCsw chunk tag
  setMidCommand false
  pure (data, csw)

/-- Best effort: an error gives no sense data, but a drop drops the command. -/
def fetchSense : Engine MsdError (Option Sense) := fun s =>
  match execute (Scsi.requestSense SENSE_LEN) (.dataIn SENSE_LEN.toNat) s with
  | (.ok (data, csw), s') => (.ok (if csw.status = CSW_PASSED then Sense.parse data else none), s')
  | (.error (.err (.failed _)), s') => (.ok none, s')
  | (.error e, s') => (.error e, s')

def command (cdb : Bytes) (phase : DataPhase) : Engine MsdError (Bytes × Nat) := do
  let (data, csw) ← execute cdb phase
  if csw.status = CSW_PASSED then pure (data, csw.residue)
  else
    let sense ← fetchSense
    failWith (.commandFailed sense)

def inquiry : Engine MsdError Inquiry := do
  let expected := INQUIRY_LEN.toNat
  let (data, _) ← command (Scsi.inquiry INQUIRY_LEN) (.dataIn expected)
  match Inquiry.parse data with
  | some inquiry => pure inquiry
  | none => failWith (.shortData expected (data.length % 2 ^ 32))

def testUnitReady : Engine MsdError PUnit := do
  let _ ← command Scsi.testUnitReady .none

def readCapacity : Engine MsdError Capacity := do
  let expected := READ_CAPACITY_LEN
  let (data, _) ← command Scsi.readCapacity10 (.dataIn expected)
  match Capacity.parse data with
  | some capacity => pure capacity
  | none => failWith (.shortData expected (data.length % 2 ^ 32))

def read10 (lba : UInt32) (blocks : UInt16) (blockSize : UInt32) : Engine MsdError Bytes := do
  let expected ← ofOutcome (checkedMul 32 blocks.toNat blockSize.toNat)
  let (data, _) ← command (Scsi.read10 lba blocks) (.dataIn expected)
  if data.length % 2 ^ 32 < expected then
    failWith (.shortData expected (data.length % 2 ^ 32))
  else pure data

def write10 (lba : UInt32) (blocks : UInt16) (blockSize : UInt32) (data : Bytes) :
    Engine MsdError PUnit := do
  let expected ← ofOutcome (checkedMul 32 blocks.toNat blockSize.toNat)
  if data.length % 2 ^ 32 ≠ expected then Action.panic "write10 payload size"
  else
    let (_, residue) ← command (Scsi.write10 lba blocks) (.dataOut data)
    if residue ≠ 0 then failWith (.shortData expected (expected - residue))

inductive Command where
  | inquiry
  | testUnitReady
  | readCapacity
  | read10 (lba : UInt32) (blocks : UInt16) (blockSize : UInt32)
  | write10 (lba : UInt32) (blocks : UInt16) (blockSize : UInt32) (data : Bytes)

inductive Reply where
  | inquiry (answer : Inquiry)
  | capacity (answer : Capacity)
  | data (bytes : Bytes)
  | done

def Command.run : Command → Engine MsdError Reply
  | .inquiry => do return .inquiry (← Msd.inquiry)
  | .testUnitReady => do Msd.testUnitReady; return .done
  | .readCapacity => do return .capacity (← Msd.readCapacity)
  | .read10 lba blocks blockSize => do return .data (← Msd.read10 lba blocks blockSize)
  | .write10 lba blocks blockSize data => do
      Msd.write10 lba blocks blockSize data
      return .done

end Eo9.Msd
