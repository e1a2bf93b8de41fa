import Mathlib.Data.UInt
import Mathlib.Tactic.Common

/-!
# Filesystems

The filesystem interface (`eo9:fs`) as a provider answers it, and what callers rely on. The
overlay does not look into a path, so paths and names are of any type.
-/

namespace Eo9.Overlay

inductive FsError where
  | notFound
  | alreadyExists
  | notADirectory
  | isADirectory
  | denied
  | readOnly
  | noSpace
  | notImmutable
  | io (message : String)
  deriving DecidableEq

inductive NodeKind where
  | file
  | directory

structure NodeStat where
  kind : NodeKind
  size : UInt64

structure OpenFlags where
  read : Bool
  write : Bool
  create : Bool
  truncate : Bool

def OpenFlags.forReading : OpenFlags := ⟨true, false, false, false⟩

abbrev Buffer := List UInt8

/-- A provider of the interface: every call gives its result and the state behind it. -/
structure Layer (Path Name : Type) where
  State : Type
  File : Type
  ImmutableHandle : Type
  «open» : State → Path → OpenFlags → Except FsError File × State
  openExec : State → Path → Except FsError ImmutableHandle × State
  listDirectory : State → Path → Except FsError (List Name) × State
  stat : State → Path → Except FsError NodeStat × State
  createDirectory : State → Path → Except FsError Unit × State
  remove : State → Path → Except FsError Unit × State
  read : State → File → UInt64 → Buffer → (Buffer × Except FsError UInt64) × State
  write : State → File → UInt64 → Buffer → (Buffer × Except FsError UInt64) × State
  execSize : State → ImmutableHandle → UInt64
  execRead : State → ImmutableHandle → UInt64 → Buffer → (Buffer × Except FsError UInt64) × State

namespace Layer

variable {Path Name : Type} (L : Layer Path Name)

/-- A path that can be told about. -/
def Exists (s : L.State) (path : Path) : Prop := ∃ st, (L.stat s path).1 = .ok st

/-- One tree, as its three reading operations show it in a state. -/
structure Lawful (child : Path → Name → Path) (s : L.State) : Prop where
  /-- Directories and nothing else can be listed. -/
  list_iff : ∀ d, (∃ names, (L.listDirectory s d).1 = .ok names) ↔
    ∃ size, (L.stat s d).1 = .ok ⟨.directory, size⟩
  /-- A listing names what exists below the directory, each once. -/
  nodup : ∀ d names, (L.listDirectory s d).1 = .ok names → names.Nodup
  mem_iff : ∀ d names, (L.listDirectory s d).1 = .ok names →
    ∀ name, name ∈ names ↔ L.Exists s (child d name)
  /-- What exists is below a directory. -/
  parent : ∀ d name, L.Exists s (child d name) → ∃ names, (L.listDirectory s d).1 = .ok names
  /-- Files can be opened for reading. -/
  file : ∀ path size, (L.stat s path).1 = .ok ⟨.file, size⟩ →
    ∃ f, (L.«open» s path .forReading).1 = .ok f
  /-- What is not found is not found by an open either. -/
  absent : ∀ path, (L.stat s path).1 = .error .notFound →
    (L.«open» s path .forReading).1 = .error .notFound

/-- What is in a filesystem is changed by its mutating operations only: reading leaves it alone,
and a write through a file that was opened without the write flag is refused. -/
structure Guarded {C : Type} (content : L.State → C) : Prop where
  «open» : ∀ s path (options : OpenFlags), options.write = false → options.create = false →
    options.truncate = false → content (L.«open» s path options).2 = content s
  openExec : ∀ s path, content (L.openExec s path).2 = content s
  listDirectory : ∀ s path, content (L.listDirectory s path).2 = content s
  stat : ∀ s path, content (L.stat s path).2 = content s
  read : ∀ s f offset dst, content (L.read s f offset dst).2 = content s
  execRead : ∀ s h offset dst, content (L.execRead s h offset dst).2 = content s
  write : ∀ s path (options : OpenFlags) f, options.write = false →
    (L.«open» s path options).1 = .ok f →
      ∀ s' offset src, content (L.write s' f offset src).2 = content s'

end Layer

/-!
## The overlay

The overlay provider (`fs-overlay`) over its two slots. The slots' own copies of the plain types
are one type here, so the maps between them are left out, and so is the root handle.
-/

variable {Path Name : Type}

/-- The states of the two layers. -/
structure Layers (U L : Layer Path Name) where
  upper : U.State
  lower : L.State

/-- An open file, tagged with the layer that served the open. -/
inductive OverlayFile (U L : Layer Path Name) where
  | upper (inner : U.File)
  | lower (inner : L.File)

/-- An immutable execution handle, tagged with its layer. -/
inductive OverlayExec (U L : Layer Path Name) where
  | upper (inner : U.ImmutableHandle)
  | lower (inner : L.ImmutableHandle)

/-- True if the options request any mutation of the file. -/
def isWrite (options : OpenFlags) : Bool := options.write || options.create || options.truncate

variable {U L : Layer Path Name}

/-- Try the upper layer, and fall through to the lower one on not-found. -/
def fallThrough {α β γ : Type} (up : U.State → Except FsError α × U.State)
    (low : L.State → Except FsError β × L.State) (ofUpper : α → γ) (ofLower : β → γ)
    (s : Layers U L) : Except FsError γ × Layers U L :=
  let (result, upper) := up s.upper
  match result with
  | .ok a => (.ok (ofUpper a), { s with upper })
  | .error .notFound =>
    let (result, lower) := low s.lower
    (result.map ofLower, ⟨upper, lower⟩)
  | .error other => (.error other, { s with upper })

def «open» (s : Layers U L) (path : Path) (options : OpenFlags) :
    Except FsError (OverlayFile U L) × Layers U L :=
  if isWrite options then
    let (inner, lower) := L.«open» s.lower path options
    (inner.map .lower, { s with lower })
  else
    fallThrough (U.«open» · path options) (L.«open» · path options) OverlayFile.upper
      OverlayFile.lower s

def openExec (s : Layers U L) (path : Path) : Except FsError (OverlayExec U L) × Layers U L :=
  fallThrough (U.openExec · path) (L.openExec · path) OverlayExec.upper OverlayExec.lower s

/-- Both lists of names, without the names that come again. -/
def union [DecidableEq Name] (up low : List Name) : List Name :=
  low.foldl (fun up name => if name ∈ up then up else up ++ [name]) up

def listDirectory [DecidableEq Name] (s : Layers U L) (path : Path) :
    Except FsError (List Name) × Layers U L :=
  let (up, upper) := U.listDirectory s.upper path
  let (low, lower) := L.listDirectory s.lower path
  (match up, low with
    | .ok up, .ok low => .ok (union up low)
    | .ok up, .error _ => .ok up
    | .error _, .ok low => .ok low
    | .error up, .error _ => .error up, ⟨upper, lower⟩)

/-- `stat`, with the layer that answered. -/
def statOf (s : Layers U L) (path : Path) : Except FsError (NodeStat ⊕ NodeStat) × Layers U L :=
  fallThrough (U.stat · path) (L.stat · path) Sum.inl Sum.inr s

def stat (s : Layers U L) (path : Path) : Except FsError NodeStat × Layers U L :=
  fallThrough (U.stat · path) (L.stat · path) id id s

def createDirectory (s : Layers U L) (path : Path) : Except FsError Unit × Layers U L :=
  let (result, lower) := L.createDirectory s.lower path
  (result, { s with lower })

def remove (s : Layers U L) (path : Path) : Except FsError Unit × Layers U L :=
  let (result, lower) := L.remove s.lower path
  (result, { s with lower })

def read (s : Layers U L) (f : OverlayFile U L) (offset : UInt64) (dst : Buffer) :
    (Buffer × Except FsError UInt64) × Layers U L :=
  match f with
  | .upper inner =>
    let (result, upper) := U.read s.upper inner offset dst
    (result, { s with upper })
  | .lower inner =>
    let (result, lower) := L.read s.lower inner offset dst
    (result, { s with lower })

/-- A write through an upper file is forwarded, so that the layer's own policy decides. -/
def write (s : Layers U L) (f : OverlayFile U L) (offset : UInt64) (src : Buffer) :
    (Buffer × Except FsError UInt64) × Layers U L :=
  match f with
  | .lower inner =>
    let (result, lower) := L.write s.lower inner offset src
    (result, { s with lower })
  | .upper inner =>
    let (result, upper) := U.write s.upper inner offset src
    (result, { s with upper })

def execSize (s : Layers U L) (h : OverlayExec U L) : UInt64 :=
  match h with
  | .upper inner => U.execSize s.upper inner
  | .lower inner => L.execSize s.lower inner

def execRead (s : Layers U L) (h : OverlayExec U L) (offset : UInt64) (dst : Buffer) :
    (Buffer × Except FsError UInt64) × Layers U L :=
  match h with
  | .upper inner =>
    let (result, upper) := U.execRead s.upper inner offset dst
    (result, { s with upper })
  | .lower inner =>
    let (result, lower) := L.execRead s.lower inner offset dst
    (result, { s with lower })

/-- The layers, and the files and handles that have been given out. -/
structure Session (U L : Layer Path Name) where
  layers : Layers U L
  files : List (OverlayFile U L)
  execs : List (OverlayExec U L)

/-- One operation of a caller, with any arguments, on files and handles it has been given. -/
inductive Step [DecidableEq Name] : Session U L → Session U L → Prop where
  | «open» (s : Session U L) (path : Path) (options : OpenFlags) :
      Step s ⟨(«open» s.layers path options).2,
        («open» s.layers path options).1.toOption.toList ++ s.files, s.execs⟩
  | openExec (s : Session U L) (path : Path) :
      Step s ⟨(openExec s.layers path).2, s.files,
        (openExec s.layers path).1.toOption.toList ++ s.execs⟩
  | listDirectory (s : Session U L) (path : Path) :
      Step s { s with layers := (listDirectory s.layers path).2 }
  | stat (s : Session U L) (path : Path) : Step s { s with layers := (stat s.layers path).2 }
  | createDirectory (s : Session U L) (path : Path) :
      Step s { s with layers := (createDirectory s.layers path).2 }
  | remove (s : Session U L) (path : Path) : Step s { s with layers := (remove s.layers path).2 }
  | read (s : Session U L) {f : OverlayFile U L} (hf : f ∈ s.files) (offset : UInt64)
      (dst : Buffer) : Step s { s with layers := (read s.layers f offset dst).2 }
  | write (s : Session U L) {f : OverlayFile U L} (hf : f ∈ s.files) (offset : UInt64)
      (src : Buffer) : Step s { s with layers := (write s.layers f offset src).2 }
  | execRead (s : Session U L) {h : OverlayExec U L} (hh : h ∈ s.execs) (offset : UInt64)
      (dst : Buffer) : Step s { s with layers := (execRead s.layers h offset dst).2 }

end Eo9.Overlay
