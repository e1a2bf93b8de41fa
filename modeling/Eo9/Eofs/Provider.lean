import Eo9.Eofs.Probe

/-!
# The provider `fs.eofs`

The component that serves `eo9:fs` from the engine. Its state is the slot that holds the
mounted engine and the open files, which are paths into the filesystem. A call that awaits
the disk holds the engine until it is resumed, and the calls that arrive meanwhile find the
slot busy.

## Implementation notes

A call is atomic where it ends: no other call reaches the engine while one holds it. The disk
that the import hands out on first use is part of the event, so a mount that fails leaves
nothing to remember.

-/

namespace Eo9.Eofs.Provider

open Eo9.Library

/-- Errors of `eo9:fs` that the provider returns. -/
inductive Error where
  | notFound
  | alreadyExists
  | notADirectory
  | isADirectory
  | noSpace
  | io (message : String)
  deriving DecidableEq

def deviceText : DeviceError → String
  | .outOfRange => "access outside the device"
  | .io => "device i/o failure"
  | .ioNamed what => what

/-- The display text of an engine error. -/
def errorText : FsError → String
  | .device e => "device error: " ++ deviceText e
  | .notFound => "not found"
  | .alreadyExists => "already exists"
  | .notADirectory => "not a directory"
  | .isADirectory => "is a directory"
  | .directoryNotEmpty => "directory not empty"
  | .invalidPath => "invalid path"
  | .noSpace => "no space left on device"
  | .checksumMismatch => "block checksum mismatch"
  | .corrupt what => "corrupt filesystem: " ++ what
  | .invalidConfig what => "invalid format options: " ++ what

def deviceError (e : DeviceError) : Error := .io ("device error: " ++ deviceText e)

/-- The engine's errors as `eo9:fs` errors. -/
def mapError : FsError → Error
  | .notFound => .notFound
  | .alreadyExists => .alreadyExists
  | .notADirectory => .notADirectory
  | .isADirectory => .isADirectory
  | .noSpace => .noSpace
  | .directoryNotEmpty => .io "directory is not empty"
  | .checksumMismatch => .io ("integrity check failed: block checksum mismatch (the stored data " ++
      "does not match its recorded hash; the device is corrupted at this location)")
  | .corrupt what => .io ("integrity check failed: corrupt filesystem structure (" ++ what ++ ")")
  | e => .io (errorText e)

def busy : Error :=
  .io ("the filesystem is busy with a concurrent operation; " ++
    "issue filesystem calls sequentially")

/-- One segment of a path, given the segments before it, the last one first. -/
def pushSegment (segments : List String) (segment : String) : List String :=
  if segment = "" ∨ segment = "." then segments
  else if segment = ".." then segments.tail
  else segment :: segments

/-- The `/`-joined segments of a path, with `.` and `..` resolved. -/
def canonical (path : String) : String :=
  let segments := ((path.toList.splitOn '/').map String.ofList).foldl pushSegment []
  segments.reverse.foldl (fun out segment => out ++ "/" ++ segment) ""

section Engine

variable {D : Type} [Primitives] [BlockDevice D]

/-- The provider's state slot. -/
inductive Slot (D : Type) where
  /-- Not mounted yet. -/
  | empty
  /-- A call holds the engine. -/
  | busy
  | ready (fs : AsyncEofs D)

/-- The default options of `format`. -/
def formatOptions : FormatOptions := ⟨4096, 512, true⟩

/-- Mount the imported disk, formatting it first if and only if it is blank. -/
def mountOrFormat (dev : D) : Outcome Error (AsyncEofs D) :=
  if BlockDevice.size dev = 0 then
    match BlockDevice.readAt dev 0 1 with
    | .error e => Outcome.fail (deviceError e)
    | .ok _ => Outcome.fail (.io "the disk reports a size of 0 bytes")
  else do
    let state ← (probe dev).mapErr fun e => Outcome.fail (mapError e)
    match state with
    | .eofs _ _ | .unmountable =>
      (AsyncEofs.mount dev).mapErr fun e => Outcome.fail (mapError e)
    | .blank => (AsyncEofs.format dev formatOptions).mapErr fun e => Outcome.fail (mapError e)
    | .foreign => Outcome.fail (.io ("the disk holds data that is not an eofs filesystem; " ++
        "refusing to format over it. If that data is expendable, format the device " ++
        "explicitly: `eo9 mkfs.eofs <image> --force`"))

/-- The engine goes back to the slot without its uncommitted changes; a call that panics
takes the component with it. -/
def putBack {α : Type} : Outcome Error α × AsyncEofs D → Outcome Error α × Slot D
  | (.ok a, fs) => (.ok a, .ready fs.rollback)
  | (.error (.err e), fs) => (.error (.err e), .ready fs.rollback)
  | (.error (.panic site), _) => (.error (.panic site), .busy)
  | (.error .diverge, _) => (.error .diverge, .busy)

/-- Run an operation over the mounted filesystem, mounting it on first use. -/
def withFs {α : Type} (disk : D) (f : Action (AsyncEofs D) Error α) : Action (Slot D) Error α
  | .busy => (Outcome.fail busy, .busy)
  | .ready fs => putBack (f fs)
  | .empty =>
    match mountOrFormat disk with
    | .ok fs => putBack (f fs)
    | .error (.err e) => (.error (.err e), .empty)
    | .error (.panic site) => (.error (.panic site), .busy)
    | .error .diverge => (.error .diverge, .busy)

/-- One attempt, and after an allocation failed a collection and a second one. -/
def reclaiming {α : Type} (f : Engine D α) : Engine D α := do
  match ← f.attempt with
  | .ok a => pure a
  | .error .noSpace => do
      let _ ← AsyncEofs.gc
      f
  | .error e => Action.fail e

/-- A mutating operation: what a failed one has half applied is discarded. -/
def mutate {α : Type} (f : Engine D α) : Action (AsyncEofs D) Error α := do
  match ← (reclaiming f).attempt with
  | .ok a => pure a
  | .error e => do
      Action.modify AsyncEofs.rollback
      Action.fail (mapError e)

structure OpenFlags where
  write : Bool
  create : Bool
  truncate : Bool

/-- An open file: a path, and whether a truncation still has to be applied. -/
structure OpenFile where
  path : String
  writable : Bool
  truncatePending : Bool

/-- The first half of `open`: the file exists afterwards. -/
def openNode (path : String) (create : Bool) : Engine D Unit := do
  match ← Action.attempt (Action.query fun fs : AsyncEofs D => fs.stat path) with
  | .ok stat => if stat.kind = .directory then Action.fail .isADirectory else pure ()
  | .error e =>
    if e = .notFound ∧ create then do
      AsyncEofs.createFile path
      let _ ← AsyncEofs.commit
      pure ()
    else Action.fail e

/-- Whether there is a truncation to record for a file just opened. -/
def nonEmptyFile (path : String) : Action (AsyncEofs D) Error Bool := do
  match ← Action.attempt (Action.query fun fs : AsyncEofs D => fs.stat path) with
  | .ok stat => pure (decide (0 < stat.size ∧ stat.kind = .file))
  | .error _ => pure false

/-- The second half of `open`: the truncation to record on the handle. -/
def recordTruncation (disk : D) (path : String) (truncate : Bool) : Action (Slot D) Error Bool :=
  if truncate then withFs disk (nonEmptyFile path) else pure false

/-- `open`: the file to put on a new handle. -/
def openFile (disk : D) (path : String) (flags : OpenFlags) : Action (Slot D) Error OpenFile :=
  let path := canonical path
  if path = "" then Action.fail .isADirectory
  else do
    withFs disk (mutate (openNode path flags.create))
    let pending ← recordTruncation disk path flags.truncate
    pure ⟨path, flags.write, pending⟩

def createDirectory (disk : D) (path : String) : Action (Slot D) Error Unit :=
  let path := canonical path
  if path = "" then Action.fail .alreadyExists
  else withFs disk (mutate do
    AsyncEofs.mkdir path
    let _ ← AsyncEofs.commit
    pure ())

def remove (disk : D) (path : String) : Action (Slot D) Error Unit :=
  let path := canonical path
  if path = "" then Action.fail (.io "cannot remove the root directory")
  else withFs disk (mutate do
    AsyncEofs.remove path
    let _ ← AsyncEofs.commit
    pure ())

/-- `read`, into a buffer of `len` bytes. -/
def read (disk : D) (file : OpenFile) (offset len : Nat) : Action (Slot D) Error (List UInt8) :=
  if file.truncatePending then pure []
  else withFs disk (Action.mapErr (fun e => Outcome.fail (mapError e))
    (Action.query fun fs => fs.read file.path offset (min len (2 ^ 32 - 1))))

/-- The engine calls of a `write`. -/
def writeNode (path : String) (truncating : Bool) (offset : Nat) (bytes : List UInt8) :
    Engine D Nat := do
  if truncating then do
    let found : Engine D (Except FsError NodeStat) :=
      Action.attempt (Action.query fun fs : AsyncEofs D => fs.stat path)
    match ← found with
    | .ok _ => AsyncEofs.remove path
    | .error _ => pure ()
    AsyncEofs.createFile path
  AsyncEofs.write path offset bytes
  let _ ← AsyncEofs.commit
  pure bytes.length

def write (disk : D) (file : OpenFile) (offset : Nat) (bytes : List UInt8) :
    Action (Slot D) Error Nat :=
  if file.writable = false then Action.fail (.io "file is not open for writing")
  else withFs disk (mutate (writeNode file.path file.truncatePending offset bytes))

inductive Call where
  | open (path : String) (flags : OpenFlags)
  | createDirectory (path : String)
  | remove (path : String)
  | read (file offset len : Nat)
  | write (file offset : Nat) (bytes : List UInt8)

/-- What a call that succeeds returns. -/
inductive Value where
  | file (handle : Nat)
  | done
  | read (bytes : List UInt8)
  | wrote (count : Nat)
  deriving DecidableEq

/-- The provider: its slot, its open files by handle, and the call that awaits the disk with
the slot it took. -/
structure State (D : Type) where
  slot : Slot D
  files : List OpenFile
  parked : Option (Slot D × Call × D)

namespace State

/-- Before the first call. -/
def initial : State D := ⟨.empty, [], none⟩

/-- What an operation on the slot leaves behind. -/
def after {α : Type} (s : State D) (value : α → Value) (r : Outcome Error α × Slot D) :
    Outcome Error Value × State D :=
  (r.1.map value, { s with slot := r.2 })

def perform (s : State D) (disk : D) : Call → Outcome Error Value × State D
  | .open path flags =>
    match openFile disk path flags s.slot with
    | (.ok file, slot) =>
      (.ok (.file s.files.length), { s with slot, files := s.files ++ [file] })
    | (.error e, slot) => (.error e, { s with slot })
  | .createDirectory path => s.after (fun _ => .done) (createDirectory disk path s.slot)
  | .remove path => s.after (fun _ => .done) (remove disk path s.slot)
  | .read handle offset len =>
    match s.files[handle]? with
    | none => (Outcome.panic "unknown handle index", s)
    | some file => s.after .read (read disk file offset len s.slot)
  | .write handle offset bytes =>
    match s.files[handle]? with
    | none => (Outcome.panic "unknown handle index", s)
    | some file =>
      match write disk file offset bytes s.slot with
      | (.ok count, slot) =>
        (.ok (.wrote count), { s with
          slot
          files := s.files.set handle { file with truncatePending := false } })
      | (.error e, slot) => (.error e, { s with slot })

end State

/-- A call runs to its end without awaiting, a call awaits the disk, or the call that awaits
is resumed. -/
inductive Event (D : Type) where
  | call (c : Call) (disk : D)
  | park (c : Call) (disk : D)
  | resume

/-- The call that an event runs, and the state it runs in. -/
def Event.performs (s : State D) : Event D → Option (State D × Call × D)
  | .call c disk => some (s, c, disk)
  | .park c disk =>
    match s.slot with
    | .busy => some (s, c, disk)
    | _ => none
  | .resume => s.parked.map fun (slot, c, disk) => ({ s with slot, parked := none }, c, disk)

def State.next (s : State D) (e : Event D) : State D :=
  match e.performs s, e with
  | some (before, c, disk), _ => (before.perform disk c).2
  | none, .park c disk => { s with slot := .busy, parked := some (s.slot, c, disk) }
  | none, _ => s

end Engine

end Eo9.Eofs.Provider
