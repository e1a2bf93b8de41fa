import Eo9.Library.Bytes
import Eo9.Partwalk.Walk

/-!
# One partition as a block device

The `disk.part` provider: a strict window over one partition of an underlying disk.
The table is walked on the first operation, and the window is kept from then on.
-/

namespace Eo9.DiskPart

open Eo9.Library Eo9.Library.Action
open Eo9.Partwalk

abbrev Buffer := List UInt8

namespace Underlying

inductive ReadError where
  | notFound
  | io (message : String)
  | outOfRange
  deriving DecidableEq

inductive WriteError where
  | io (message : String)
  | outOfRange
  | readOnly
  deriving DecidableEq

end Underlying

/-- A whole device. A read fills a prefix of the buffer that it hands back. -/
class UnderlyingDisk (D : Type) where
  size : D → UInt64
  read : Nat → Buffer → D → (Buffer × Except Underlying.ReadError Nat) × D
  write : Nat → Buffer → D → (Buffer × Except Underlying.WriteError Nat) × D
  flush : D → Except Underlying.WriteError Unit × D

/-- Why there is no window; rendered as the text of an `io` error. -/
inductive Refusal where
  | reading (lba : Nat) (e : Underlying.ReadError)
  | shortRead (lba bytesRead : Nat)
  | table (e : TableError)
  | select (e : SelectError)
  deriving DecidableEq

/-- The text of an exported `io` error: the device's own or a refusal. -/
inductive Message where
  | device (message : String)
  | refusal (r : Refusal)
  deriving DecidableEq

inductive ReadError where
  | notFound
  | io (message : Message)
  | outOfRange
  deriving DecidableEq

inductive WriteError where
  | io (message : Message)
  | outOfRange
  | readOnly
  deriving DecidableEq

def mapReadError : Underlying.ReadError → ReadError
  | .notFound => .notFound
  | .io message => .io (.device message)
  | .outOfRange => .outOfRange

def mapWriteError : Underlying.WriteError → WriteError
  | .io message => .io (.device message)
  | .outOfRange => .outOfRange
  | .readOnly => .readOnly

/-- The selected partition's span on the underlying device, in bytes. -/
structure Window where
  start : Nat
  len : Nat
  deriving DecidableEq

structure State where
  selected : Nat
  window : Option Window

def DEFAULT_PARTITION : Nat := 1

/-- The state of a provider that was not configured. -/
def State.default : State := ⟨DEFAULT_PARTITION, none⟩

/-- A call on the underlying device. -/
inductive Access where
  | read (offset len : Nat)
  | write (offset len : Nat)
  | flush
  deriving DecidableEq

/-- The provider over its device, with the calls that it made on it. -/
structure Session (D : Type) where
  state : State
  disk : D
  log : List Access

section Provider

variable {D : Type} [UnderlyingDisk D] {ε : Type}

def underlyingRead (offset : Nat) (dst : Buffer) :
    Action (Session D) ε (Buffer × Except Underlying.ReadError Nat) :=
  update fun s => ((UnderlyingDisk.read offset dst s.disk).1,
    { s with
      disk := (UnderlyingDisk.read offset dst s.disk).2
      log := s.log ++ [.read offset dst.length] })

def underlyingWrite (offset : Nat) (src : Buffer) :
    Action (Session D) ε (Buffer × Except Underlying.WriteError Nat) :=
  update fun s => ((UnderlyingDisk.write offset src s.disk).1,
    { s with
      disk := (UnderlyingDisk.write offset src s.disk).2
      log := s.log ++ [.write offset src.length] })

def underlyingFlush : Action (Session D) ε (Except Underlying.WriteError Unit) :=
  update fun s => ((UnderlyingDisk.flush s.disk).1,
    { s with
      disk := (UnderlyingDisk.flush s.disk).2
      log := s.log ++ [.flush] })

def readTableSector (lba : Nat) : Action (Session D) Refusal Buffer := do
  let offset ← ofOutcome (checkedMul 64 lba sectorSize)
  let (dst, result) ← underlyingRead offset (List.replicate sectorSize 0)
  match result with
  | .error e => fail (.reading lba e)
  | .ok bytesRead =>
    if bytesRead < sectorSize then fail (.shortRead lba bytesRead)
    else pure (dst.take sectorSize)

/-- A refused table; a panic of the walker stays one. -/
def tableErr {α : Type} (o : Outcome TableError α) : Action (Session D) Refusal α :=
  ofOutcome (Outcome.mapErr (fun e => Outcome.fail (.table e)) o)

/-- The loop of `ensureWindow`. A walk asks for at most `maxEbrs` sectors. -/
def walkTable : (fuel : Nat) → Outcome TableError Step × Walker →
    Action (Session D) Refusal PartitionTable
  | 0, _ => ofOutcome (.error .diverge)
  | fuel + 1, (step, walker) => do
      match ← tableErr step with
      | .done table => pure table
      | .need lba =>
        let sector ← readTableSector lba
        walkTable fuel (Walker.feed sector walker)

/-- The window, with the table walked where it is not there yet. A refusal is not
kept: the next operation walks again. -/
def ensureWindow : Action (Session D) Refusal Window := do
  match ← gets (·.state.window) with
  | some window => pure window
  | none =>
    let selected ← gets (·.state.selected)
    let sector0 ← readTableSector 0
    let deviceSize ← gets fun s => UnderlyingDisk.size s.disk
    let table ← walkTable (maxEbrs + 2) (Walker.start sector0 (Walker.new deviceSize))
    match table.select selected with
    | .error e => fail (.select e)
    | .ok partition =>
      let start ← ofOutcome (checkedMul 64 partition.startLba sectorSize)
      let len ← ofOutcome (checkedMul 64 partition.sectors sectorSize)
      modify fun s => { s with state.window := some ⟨start, len⟩ }
      pure ⟨start, len⟩

/-- The absolute offset of an access that lies inside the window. -/
def translate (window : Window) (offset len : Nat) : Outcome ε (Option Nat) :=
  if window.len < offset then .ok none
  else do
    let rest ← checkedSub window.len offset
    if rest < len then .ok none
    else
      let absolute ← checkedAdd 64 window.start offset
      .ok (some absolute)

def configure (partition : Nat) (s : Session D) : Except String Unit × Session D :=
  if partition = 0 then
    (.error "disk.part: partition numbers are 1-based (fdisk numbering); 0 is not valid", s)
  else (.ok (), { s with state := ⟨partition, none⟩ })

/-- Answers 0 until a first awaited operation has bound the window. -/
def size (s : Session D) : Nat := (s.state.window.map (·.len)).getD 0

def read (offset : UInt64) (dst : Buffer) :
    Action (Session D) Empty (Buffer × Except ReadError Nat) := do
  match ← attempt ensureWindow with
  | .error refusal => pure (dst, .error (.io (.refusal refusal)))
  | .ok window =>
    match ← ofOutcome (translate window offset.toNat dst.length) with
    | none => pure (dst, .error .outOfRange)
    | some absolute =>
      let (dst, result) ← underlyingRead absolute dst
      pure (dst, result.mapError mapReadError)

def write (offset : UInt64) (src : Buffer) :
    Action (Session D) Empty (Buffer × Except WriteError Nat) := do
  match ← attempt ensureWindow with
  | .error refusal => pure (src, .error (.io (.refusal refusal)))
  | .ok window =>
    match ← ofOutcome (translate window offset.toNat src.length) with
    | none => pure (src, .error .outOfRange)
    | some absolute =>
      let (src, result) ← underlyingWrite absolute src
      pure (src, result.mapError mapWriteError)

def flush : Action (Session D) Empty (Except WriteError Unit) := do
  match ← attempt ensureWindow with
  | .error refusal => pure (.error (.io (.refusal refusal)))
  | .ok _ =>
    let result ← underlyingFlush
    pure (result.mapError mapWriteError)

end Provider

/-- An awaited operation of the exported disk. -/
inductive Op where
  | read (offset : UInt64) (dst : Buffer)
  | write (offset : UInt64) (src : Buffer)
  | flush

inductive Answer where
  | read (dst : Buffer) (result : Except ReadError Nat)
  | write (src : Buffer) (result : Except WriteError Nat)
  | flush (result : Except WriteError Unit)

def Op.run {D : Type} [UnderlyingDisk D] : Op → Action (Session D) Empty Answer
  | .read offset dst => do
      let (dst, result) ← DiskPart.read offset dst
      return .read dst result
  | .write offset src => do
      let (src, result) ← DiskPart.write offset src
      return .write src result
  | .flush => do return .flush (← DiskPart.flush)

/-!
## The table of a content

A lawful disk shows the bytes it holds and changes only the range of a write. The
table is a function of the sectors that its walk asks for, none of which a selectable
partition covers.
-/

open Eo9.Partwalk

/-- The contract of the underlying disk, in terms of the bytes it holds. Any call may
fail, a read may be short, and a write may apply any part of itself. -/
class LawfulDisk (D : Type) [UnderlyingDisk D] where
  byte : D → Nat → UInt8
  read_buffer : ∀ (offset : Nat) (dst : Buffer) (d : D) (n : Nat),
    (UnderlyingDisk.read offset dst d).1.2 = .ok n → n ≤ dst.length ∧
      (UnderlyingDisk.read offset dst d).1.1.take n = slice (byte d) offset n
  read_byte : ∀ (offset : Nat) (dst : Buffer) (d : D),
    byte (UnderlyingDisk.read offset dst d).2 = byte d
  read_size : ∀ (offset : Nat) (dst : Buffer) (d : D),
    UnderlyingDisk.size (UnderlyingDisk.read offset dst d).2 = UnderlyingDisk.size d
  write_byte : ∀ (offset : Nat) (src : Buffer) (d : D) (k : Nat),
    k < offset ∨ offset + src.length ≤ k →
      byte (UnderlyingDisk.write offset src d).2 k = byte d k
  write_size : ∀ (offset : Nat) (src : Buffer) (d : D),
    UnderlyingDisk.size (UnderlyingDisk.write offset src d).2 = UnderlyingDisk.size d
  flush_byte : ∀ d : D, byte (UnderlyingDisk.flush d).2 = byte d
  flush_size : ∀ d : D, UnderlyingDisk.size (UnderlyingDisk.flush d).2 = UnderlyingDisk.size d

export LawfulDisk (byte)

/-- The bytes of a sector. -/
def sectorAt (byte : Nat → UInt8) (lba : Nat) : Buffer := slice byte (lba * sectorSize) sectorSize

/-- A walk over a content without a device, with the sectors it asks for. -/
def contentWalk (byte : Nat → UInt8) : (fuel : Nat) → List Nat →
    Outcome TableError Step × Walker → List Nat × Outcome TableError PartitionTable
  | 0, asked, _ => (asked, .error .diverge)
  | fuel + 1, asked, (.ok (.need lba), walker) =>
    contentWalk byte fuel (asked ++ [lba]) (Walker.feed (sectorAt byte lba) walker)
  | _ + 1, asked, (.ok (.done table), _) => (asked, .ok table)
  | _ + 1, asked, (.error e, _) => (asked, .error e)

/-- The EBR sectors and the table of a device of the given size and content. -/
def tableOn (size : UInt64) (byte : Nat → UInt8) : List Nat × Outcome TableError PartitionTable :=
  contentWalk byte (maxEbrs + 2) [] (Walker.start (sectorAt byte 0) (Walker.new size))

theorem stepSafe_start (sector0 : Buffer) (size : UInt64) :
    Walker.StepSafe sector0 (size.toNat / sectorSize) []
      (Walker.start sector0 (Walker.new size)) :=
  Walker.stepSafe_of_wp (Walker.start_spec sector0 size)

theorem stepSafe_feed {sector0 : Buffer} {deviceSectors lba : Nat} {before : List Nat}
    {walker : Walker} (h : Walker.Waiting sector0 deviceSectors lba before walker)
    (sector : Buffer) :
    Walker.StepSafe sector0 deviceSectors (before ++ [lba]) (Walker.feed sector walker) :=
  Walker.stepSafe_of_wp (Walker.feed_spec h sector)

section Content

variable {byte byte' : Nat → UInt8} {fuel : Nat} {before asked : List Nat}
  {o : Outcome TableError Step × Walker} {result : Outcome TableError PartitionTable}

theorem contentWalk_prefix (h : contentWalk byte fuel before o = (asked, result)) :
    before <+: asked := by
  induction fuel generalizing before o with
  | zero => exact (Prod.mk.inj h).1 ▸ List.prefix_refl _
  | succ fuel ih =>
    rcases o with ⟨_ | _ | _, walker⟩
    · exact (Prod.mk.inj h).1 ▸ List.prefix_refl _
    · exact (List.prefix_append _ _).trans (ih h)
    · exact (Prod.mk.inj h).1 ▸ List.prefix_refl _

/-- A walk reads only the sectors that it asks for. -/
theorem contentWalk_congr (h : contentWalk byte fuel before o = (asked, result))
    (hsame : ∀ lba ∈ asked, sectorAt byte' lba = sectorAt byte lba) :
    contentWalk byte' fuel before o = (asked, result) := by
  induction fuel generalizing before o with
  | zero => exact h
  | succ fuel ih =>
    rcases o with ⟨_ | lba | _, walker⟩
    · exact h
    · have hgrown : before ++ [lba] <+: asked := contentWalk_prefix h
      have hlba : lba ∈ asked := hgrown.subset (List.mem_append_right _ List.mem_cons_self)
      change contentWalk byte' fuel _ (Walker.feed (sectorAt byte' lba) walker) = _
      rw [hsame lba hlba]
      exact ih h
    · exact h

/-- The table that a walk ends in is safe. -/
theorem contentWalk_safe {sector0 : Buffer} {deviceSectors : Nat} {table : PartitionTable}
    (hsafe : Walker.StepSafe sector0 deviceSectors before o)
    (h : contentWalk byte fuel before o = (asked, .ok table)) :
    ∃ container, TableSafe deviceSectors container asked table := by
  induction fuel generalizing before o with
  | zero => exact absurd (Prod.mk.inj h).2 nofun
  | succ fuel ih =>
    rcases o with ⟨_ | lba | _, walker⟩
    · exact absurd (Prod.mk.inj h).2 nofun
    · exact ih (stepSafe_feed hsafe _) h
    · obtain ⟨rfl, htable⟩ := Prod.mk.inj h
      obtain rfl := Except.ok.inj htable
      obtain ⟨container, -, hsafe⟩ := hsafe
      exact ⟨container, hsafe⟩

end Content

/-- The selection resolves on a device of the given size and content. -/
structure Resolves (size : UInt64) (byte : Nat → UInt8) (asked : List Nat)
    (table : PartitionTable) (selected : Nat) (p : Partition) : Prop where
  walk : tableOn size byte = (asked, .ok table)
  select : table.select selected = .ok p

/-- The byte belongs to the partition. -/
def InSpan (p : Partition) (k : Nat) : Prop :=
  p.startLba * sectorSize ≤ k ∧ k < (p.startLba + p.sectors) * sectorSize

instance (p : Partition) (k : Nat) : Decidable (InSpan p k) :=
  inferInstanceAs (Decidable (_ ∧ _))

theorem inSpan_iff {p : Partition} {k : Nat} : InSpan p k ↔ p.Covers (k / sectorSize) := by
  unfold InSpan Partition.Covers sectorSize
  omega

/-- Contents that agree outside of a partition agree on the sectors it does not cover. -/
theorem sectorAt_congr {byte byte' : Nat → UInt8} {p : Partition} {lba : Nat}
    (hsame : ∀ k, ¬ InSpan p k → byte' k = byte k) (hlba : ¬ p.Covers lba) :
    sectorAt byte' lba = sectorAt byte lba := by
  apply slice_congr
  intro k hle hlt
  have hk : k / sectorSize = lba := by
    unfold sectorSize at *
    omega
  apply hsame
  rwa [inSpan_iff, hk]

section Resolved

variable {size : UInt64} {content : Nat → UInt8} {asked : List Nat} {table : PartitionTable}
  {i j : Nat} {p q : Partition}

theorem Resolves.safe (h : Resolves size content asked table i p) :
    (∃ container, TableSafe (size.toNat / sectorSize) container asked table) ∧
      p ∈ table.partitions ∧ p.number = i := by
  have hwalk := h.walk
  unfold tableOn at hwalk
  obtain ⟨container, hsafe⟩ := contentWalk_safe (stepSafe_start _ _) hwalk
  exact ⟨⟨container, hsafe⟩, (hsafe.selectable i p).mp h.select⟩

/-- A partition covers no sector of the table. -/
theorem Resolves.not_covers (h : Resolves size content asked table i p) {lba : Nat}
    (hlba : lba ∈ 0 :: asked) : ¬ p.Covers lba := by
  obtain ⟨⟨_, hsafe⟩, hp, -⟩ := h.safe
  rcases List.mem_cons.mp hlba with rfl | hlba
  · exact hsafe.excludes_mbr p hp
  · exact hsafe.excludes_ebrs p hp lba hlba

/-- Two selections share no byte. -/
theorem Resolves.apart (hi : Resolves size content asked table i p)
    (hj : Resolves size content asked table j q) (hne : i ≠ j) (k : Nat) :
    ¬ (InSpan p k ∧ InSpan q k) := by
  obtain ⟨⟨_, hsafe⟩, hp, hpi⟩ := hi.safe
  obtain ⟨-, hq, hqj⟩ := hj.safe
  rw [inSpan_iff, inSpan_iff]
  refine hsafe.disjoint p hp q hq ?_ _
  rintro rfl
  exact hne (hpi.symm.trans hqj)

/-- A change inside of the partition leaves the table as it is. -/
theorem Resolves.congr {content' : Nat → UInt8} (h : Resolves size content asked table i p)
    (hsame : ∀ k, ¬ InSpan p k → content' k = content k) :
    Resolves size content' asked table i p := by
  refine ⟨?_, h.select⟩
  have hsector : ∀ lba ∈ 0 :: asked, sectorAt content' lba = sectorAt content lba :=
    fun lba hlba => sectorAt_congr hsame (h.not_covers hlba)
  have hwalk := h.walk
  unfold tableOn at hwalk ⊢
  rw [hsector 0 List.mem_cons_self]
  exact contentWalk_congr hwalk fun lba hlba => hsector lba (List.mem_cons_of_mem _ hlba)

/-- The span lies on the device. -/
theorem Resolves.fits (h : Resolves size content asked table i p) :
    (p.startLba + p.sectors) * sectorSize < 2 ^ 64 := by
  obtain ⟨⟨_, hsafe⟩, hp, -⟩ := h.safe
  have hinside := hsafe.inside p hp
  have hsize := size.toNat_lt
  unfold sectorSize at *
  omega

end Resolved

end Eo9.DiskPart
