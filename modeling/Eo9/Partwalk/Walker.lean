import Eo9.Library.Action
import Eo9.Library.Endian

/-!
# The partition-table walker

Sector decoding, the extended-partition chain walk and the validation of
`eo9-partwalk`, one definition for each function. Sector numbers are 64-bit:
the source's `checked_add` is an option, and its plain additions panic on
overflow.
-/

namespace Eo9.Partwalk

open Eo9.Library

/-- The sector size the MBR format is defined in. -/
def sectorSize : Nat := 512

/-- Upper bound on the length of the EBR chain. -/
def maxEbrs : Nat := 64

/-- Offset of the first partition entry in a sector. -/
def entriesOffset : Nat := 446

/-- One selectable partition, in sectors from the start of the device. -/
structure Partition where
  number : Nat
  startLba : Nat
  sectors : Nat
  deriving DecidableEq

/-- Why a partition table was refused. -/
inductive TableError where
  | sectorSize (got : Nat)
  | missingSignature
  | gpt
  | ebrMissingSignature (lba : Nat)
  | zeroLength (number : Nat)
  | startsAtZero (number : Nat)
  | outOfBounds (number endLba deviceSectors : Nat)
  | overlap (a b : Nat)
  | twoExtendedContainers
  | logicalOutsideContainer (number : Nat)
  | ebrOutsideContainer (lba : Nat)
  | ebrInsideLogical (ebrLba number : Nat)
  | chainCycle (lba : Nat)
  | chainTooLong
  | badChainEntry (lba : Nat) (partitionType : UInt8)
  | notExpectingSector
  deriving DecidableEq

/-- Why a partition number could not be selected. -/
inductive SelectError where
  | zero
  | extendedContainer (number : Nat)
  | notPresent (number : Nat) (present : List Nat)
  deriving DecidableEq

/-- A 64-bit addition that reports its overflow. -/
def checkedAdd64 (a b : Nat) : Option Nat :=
  if a + b < 2 ^ 64 then some (a + b) else none

namespace Partition

/-- Whether a sector falls inside the partition's span. -/
def contains (p : Partition) (lba : Nat) : Outcome TableError Bool := do
  if p.startLba ≤ lba then
    let stop ← checkedAdd 64 p.startLba p.sectors
    .ok (decide (lba < stop))
  else .ok false

/-- Whether two spans intersect. -/
def overlaps (p other : Partition) : Outcome TableError Bool := do
  let otherStop ← checkedAdd 64 other.startLba other.sectors
  if p.startLba < otherStop then
    let stop ← checkedAdd 64 p.startLba p.sectors
    .ok (decide (other.startLba < stop))
  else .ok false

end Partition

/-- A parsed and validated partition table. -/
structure PartitionTable where
  partitions : List Partition
  container : Option Nat
  deriving DecidableEq

/-- Look up the partition with the given number. -/
def PartitionTable.select (table : PartitionTable) (number : Nat) :
    Except SelectError Partition :=
  if number = 0 then .error .zero
  else if table.container = some number then .error (.extendedContainer number)
  else
    match table.partitions.find? (·.number == number) with
    | some p => .ok p
    | none => .error (.notPresent number (table.partitions.map (·.number)))

/-- What the walker needs next. -/
inductive Step where
  | need (lba : Nat)
  | done (table : PartitionTable)

/-- A sector whose length was checked. -/
structure Sector where
  bytes : List UInt8
  length_eq : bytes.length = sectorSize

def Sector.byte (sector : Sector) (i : Fin sectorSize) : UInt8 :=
  sector.bytes.get (i.cast sector.length_eq.symm)

structure RawEntry where
  partitionType : UInt8
  startLba : Nat
  sectors : Nat

def decodeEntry (sector : Sector) (index : Fin 4) : RawEntry :=
  let entry (k : Fin 16) : UInt8 :=
    sector.byte ⟨entriesOffset + index * 16 + k, by simp only [entriesOffset, sectorSize]; omega⟩
  { partitionType := entry 4
    startLba := leValue [entry 8, entry 9, entry 10, entry 11]
    sectors := leValue [entry 12, entry 13, entry 14, entry 15] }

def isExtended (partitionType : UInt8) : Bool :=
  partitionType == 0x05 || partitionType == 0x0F

def hasSignature (sector : Sector) : Bool :=
  sector.byte ⟨510, by decide⟩ == 0x55 && sector.byte ⟨511, by decide⟩ == 0xAA

/-- The span of the extended container. -/
structure Container where
  startLba : Nat
  sectors : Nat

structure Walker where
  deviceSectors : Nat
  partitions : List Partition
  container : Option Container
  containerNumber : Option Nat
  /-- The EBR sectors asked for, in order. -/
  ebrLbas : List Nat
  /-- The sector the last `need` asked for. -/
  pending : Option Nat
  nextLogical : Nat

namespace Walker

/-- A walker for a device of the given size in bytes. -/
def new (deviceSize : UInt64) : Walker where
  deviceSectors := deviceSize.toNat / sectorSize
  partitions := []
  container := none
  containerNumber := none
  ebrLbas := []
  pending := none
  nextLogical := 5

/-- The checks shared by primaries and logicals. -/
def checkSpan (w : Walker) (number startLba sectors : Nat) : Outcome TableError Unit :=
  if sectors = 0 then Outcome.fail (.zeroLength number)
  else if startLba = 0 then Outcome.fail (.startsAtZero number)
  else
    match checkedAdd64 startLba sectors with
    | none => Outcome.fail (.outOfBounds number (2 ^ 64 - 1) w.deviceSectors)
    | some endLba =>
      if w.deviceSectors < endLba then
        Outcome.fail (.outOfBounds number endLba w.deviceSectors)
      else .ok ()

/-- Refuse a span that intersects one of the listed partitions. -/
def checkDisjoint (a : Partition) : List Partition → Outcome TableError Unit
  | [] => .ok ()
  | b :: rest => do
      if ← a.overlaps b then Outcome.fail (.overlap a.number b.number)
      else checkDisjoint a rest

/-- Refuse two partitions that intersect. -/
def checkPairs : List Partition → Outcome TableError Unit
  | [] => .ok ()
  | a :: rest => do
      checkDisjoint a rest
      checkPairs rest

/-- Refuse a partition that covers the given EBR sector. -/
def checkEbr (ebrLba : Nat) : List Partition → Outcome TableError Unit
  | [] => .ok ()
  | p :: rest => do
      if ← p.contains ebrLba then Outcome.fail (.ebrInsideLogical ebrLba p.number)
      else checkEbr ebrLba rest

/-- Refuse a partition that covers one of the EBR sectors. -/
def checkEbrs (partitions : List Partition) : List Nat → Outcome TableError Unit
  | [] => .ok ()
  | ebrLba :: rest => do
      checkEbr ebrLba partitions
      checkEbrs partitions rest

/-- The container against the primaries: logicals live inside it by design. -/
def checkContainer (w : Walker) : Outcome TableError Unit :=
  match w.container, w.containerNumber with
  | some container, some number =>
    checkDisjoint { number, startLba := container.startLba, sectors := container.sectors }
      (w.partitions.filter (·.number ≤ 4))
  | _, _ => .ok ()

/-- Whole-table validation once every entry is in. -/
def finalize : Action Walker TableError Step := do
  Action.query fun w => checkPairs w.partitions
  Action.query checkContainer
  Action.query fun w => checkEbrs w.partitions w.ebrLbas
  let table ← Action.gets fun w =>
    { partitions := w.partitions, container := w.containerNumber : PartitionTable }
  Action.modify fun w => { w with partitions := [] }
  pure (.done table)

/-- Record one primary entry. -/
def startEntry (sector : Sector) (index : Fin 4) : Action Walker TableError Unit := do
  let entry := decodeEntry sector index
  let number : Nat := index + 1
  if entry.partitionType = 0x00 then pure ()
  else
    Action.query fun w => w.checkSpan number entry.startLba entry.sectors
    if isExtended entry.partitionType then
      if (← Action.gets (·.container)).isSome then Action.fail .twoExtendedContainers
      else
        Action.modify fun w =>
          { w with
            container := some { startLba := entry.startLba, sectors := entry.sectors }
            containerNumber := some number }
    else
      Action.modify fun w =>
        { w with partitions := w.partitions ++
            [{ number, startLba := entry.startLba, sectors := entry.sectors }] }

/-- Record the primary entries in slot order. -/
def startEntries (sector : Sector) : List (Fin 4) → Action Walker TableError Unit
  | [] => pure ()
  | index :: rest => do
      startEntry sector index
      startEntries sector rest

/-- Ask for the first EBR, or validate a table without a container. -/
def startChain : Action Walker TableError Step := do
  match ← Action.gets (·.container) with
  | some container =>
    Action.modify fun w =>
      { w with
        ebrLbas := w.ebrLbas ++ [container.startLba]
        pending := some container.startLba }
    pure (.need container.startLba)
  | none => finalize

def start (sector0 : List UInt8) : Action Walker TableError Step := do
  if h : sector0.length = sectorSize then
    let sector : Sector := ⟨sector0, h⟩
    if ¬ hasSignature sector then Action.fail .missingSignature
    else if [0, 1, 2, 3].any fun index => (decodeEntry sector index).partitionType == 0xEE then
      Action.fail .gpt
    else
      startEntries sector [0, 1, 2, 3]
      startChain
  else Action.fail (.sectorSize sector0.length)

/-- The logical partition an EBR describes, relative to that EBR. -/
def feedLogical (ebrLba : Nat) (container : Container) (sector : Sector) :
    Action Walker TableError Unit := do
  let logical := decodeEntry sector 0
  if logical.partitionType = 0xEE then Action.fail .gpt
  else if logical.partitionType = 0x00 then pure ()
  else if isExtended logical.partitionType then
    Action.fail (.badChainEntry ebrLba logical.partitionType)
  else
    let number ← Action.gets (·.nextLogical)
    let nextLogical ← Action.query fun w => checkedAdd 32 w.nextLogical 1
    Action.modify fun w => { w with nextLogical }
    match checkedAdd64 ebrLba logical.startLba with
    | none => Action.query fun w =>
      Outcome.fail (.outOfBounds number (2 ^ 64 - 1) w.deviceSectors)
    | some startLba =>
      Action.query fun w => w.checkSpan number startLba logical.sectors
      let stop ← Action.ofOutcome (checkedAdd 64 startLba logical.sectors)
      let containerStop ← Action.ofOutcome (checkedAdd 64 container.startLba container.sectors)
      if startLba < container.startLba ∨ containerStop < stop then
        Action.fail (.logicalOutsideContainer number)
      else
        Action.modify fun w =>
          { w with partitions := w.partitions ++
              [{ number, startLba, sectors := logical.sectors }] }

/-- The chain link of an EBR, relative to the container. -/
def feedChain (ebrLba : Nat) (container : Container) (sector : Sector) :
    Action Walker TableError Step := do
  let chain := decodeEntry sector 1
  if chain.partitionType = 0x00 then finalize
  else if ¬ isExtended chain.partitionType then
    Action.fail (.badChainEntry ebrLba chain.partitionType)
  else
    match checkedAdd64 container.startLba chain.startLba with
    | none => Action.fail (.ebrOutsideContainer (2 ^ 64 - 1))
    | some nextLba =>
      let containerStop ← Action.ofOutcome (checkedAdd 64 container.startLba container.sectors)
      if nextLba < container.startLba ∨ containerStop ≤ nextLba then
        Action.fail (.ebrOutsideContainer nextLba)
      else if nextLba ∈ (← Action.gets (·.ebrLbas)) then Action.fail (.chainCycle nextLba)
      else if maxEbrs ≤ (← Action.gets (·.ebrLbas)).length then Action.fail .chainTooLong
      else
        Action.modify fun w =>
          { w with ebrLbas := w.ebrLbas ++ [nextLba], pending := some nextLba }
        pure (.need nextLba)

/-- Feed the sector the previous `need` asked for. -/
def feed (bytes : List UInt8) : Action Walker TableError Step := do
  match ← Action.gets (·.pending) with
  | none => Action.fail .notExpectingSector
  | some ebrLba =>
    Action.modify fun w => { w with pending := none }
    if h : bytes.length = sectorSize then
      let sector : Sector := ⟨bytes, h⟩
      if ¬ hasSignature sector then Action.fail (.ebrMissingSignature ebrLba)
      else
        match ← Action.gets (·.container) with
        | none => Action.panic "feed only runs after start found a container"
        | some container =>
          feedLogical ebrLba container sector
          feedChain ebrLba container sector
    else Action.fail (.sectorSize bytes.length)

end Walker

end Eo9.Partwalk
