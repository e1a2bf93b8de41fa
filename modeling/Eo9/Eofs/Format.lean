import Mathlib.Data.List.Lex
import Mathlib.Data.List.Sort
import Mathlib.Data.Nat.Basic
import Eo9.Library.Endian
import Eo9.Eofs.Device

/-!
# The on-disk format of eofs

Constants, stored structures, and their encoders and parsers, after
`format.rs` and `error.rs`. Integer fields are natural numbers; an encoder
keeps the low bytes of a field's width, and `Fits` says that nothing is cut
off. Hashing and compression are the two foreign functions the format uses.
-/

namespace Eo9.Eofs

open Eo9.Library

/-- A 32-byte digest. -/
abbrev Digest := { bytes : List UInt8 // bytes.length = 32 }

def Digest.zero : Digest := ⟨List.replicate 32 0, by simp⟩

/-- The foreign functions: the block hash, and the block compressor with its
inverse, which is told the size it has to produce. -/
class Primitives where
  hash : List UInt8 → Digest
  compress : List UInt8 → List UInt8
  decompress : List UInt8 → Nat → Option (List UInt8)

/-- The compressor loses nothing, and its output has at least one token. -/
class LawfulCompression [Primitives] : Prop where
  decompress_compress : ∀ b : List UInt8,
    Primitives.decompress (Primitives.compress b) b.length = some b
  compress_ne_nil : ∀ b : List UInt8, b ≠ [] → Primitives.compress b ≠ []

export Primitives (hash compress decompress)

/-- Errors returned by the eofs engine. -/
inductive FsError where
  | device (e : DeviceError)
  | notFound
  | alreadyExists
  | notADirectory
  | isADirectory
  | directoryNotEmpty
  | invalidPath
  | noSpace
  | checksumMismatch
  | corrupt (what : String)
  | invalidConfig (what : String)
  deriving DecidableEq

/-- Fail because a stored structure is not valid. -/
def corrupt {α : Type*} (what : String) : Outcome FsError α := Outcome.fail (.corrupt what)

/-- A device error becomes a filesystem error. -/
def ofDevice {α : Type} : Except DeviceError α → Outcome FsError α
  | .ok a => .ok a
  | .error e => Outcome.fail (.device e)

/-- `b"EOFS-UB\0"`. -/
def MAGIC : List UInt8 := [0x45, 0x4F, 0x46, 0x53, 0x2D, 0x55, 0x42, 0x00]

def FORMAT_VERSION : Nat := 1

def SLOT_SIZE : Nat := 4096

/-- `SLOT_OFFSETS[i]`. -/
def slotOffset (i : Nat) : Nat := i * SLOT_SIZE

/-- First byte of the data region. -/
def DATA_START : Nat := 2 * SLOT_SIZE

def BLOCK_PTR_SIZE : Nat := 56

def OBJ_REF_SIZE : Nat := 72

def UBERBLOCK_BODY_SIZE : Nat := 192

def UBERBLOCK_SIZE : Nat := UBERBLOCK_BODY_SIZE + 32

def DIR_ENTRY_FIXED : Nat := 4 + OBJ_REF_SIZE

def SNAP_ENTRY_FIXED : Nat := 16 + OBJ_REF_SIZE

def MAX_NAME_LEN : Nat := 255

def MAX_META_OBJECT_SIZE : Nat := 2 ^ 24

/-- How a block's bytes are stored on disk. -/
inductive Codec where
  | raw
  | lz4
  deriving DecidableEq

namespace Codec

def toTag : Codec → UInt8
  | raw => 0
  | lz4 => 1

def fromTag (tag : UInt8) : Outcome FsError Codec :=
  if tag = 0 then .ok raw else if tag = 1 then .ok lz4 else corrupt "unknown codec tag"

end Codec

/-- What a directory entry points at. -/
inductive NodeKind where
  | file
  | directory
  deriving DecidableEq

namespace NodeKind

def toTag : NodeKind → UInt8
  | file => 1
  | directory => 2

def fromTag (tag : UInt8) : Outcome FsError NodeKind :=
  if tag = 1 then .ok file else if tag = 2 then .ok directory else corrupt "unknown node kind"

end NodeKind

/-- A pointer to one stored block. -/
structure BlockPtr where
  /-- Byte offset of the stored bytes; `0` means "null". -/
  addr : Nat
  /-- Logical (uncompressed) size in bytes. -/
  lsize : Nat
  /-- Physical (stored) size in bytes. -/
  psize : Nat
  codec : Codec
  /-- Hash of the logical bytes. -/
  hash : Digest
  deriving DecidableEq

namespace BlockPtr

def NULL : BlockPtr := ⟨0, 0, 0, .raw, Digest.zero⟩

def isNull (ptr : BlockPtr) : Bool := ptr.addr = 0

def writeTo (ptr : BlockPtr) : List UInt8 :=
  leBytes 8 ptr.addr ++ leBytes 4 ptr.lsize ++ leBytes 4 ptr.psize ++ [ptr.codec.toTag] ++
    List.replicate 7 0 ++ ptr.hash.1

def digestOf (bytes : List UInt8) : Digest :=
  if h : bytes.length = 32 then ⟨bytes, h⟩ else Digest.zero

def readFrom (bytes : List UInt8) : Outcome FsError BlockPtr := do
  let addr ← rangeOf bytes 0 8
  let lsize ← rangeOf bytes 8 12
  let psize ← rangeOf bytes 12 16
  let codec ← Codec.fromTag (← elemAt bytes 16)
  let hash ← rangeOf bytes 24 56
  .ok ⟨leValue addr, leValue lsize, leValue psize, codec, digestOf hash⟩

end BlockPtr

/-- A reference to a byte object: its length, the height of its block tree,
and the root of that tree. -/
structure ObjRef where
  size : Nat
  level : Nat
  root : BlockPtr
  deriving DecidableEq

namespace ObjRef

def EMPTY : ObjRef := ⟨0, 0, BlockPtr.NULL⟩

def writeTo (obj : ObjRef) : List UInt8 :=
  leBytes 8 obj.size ++ leBytes 1 obj.level ++ List.replicate 7 0 ++ obj.root.writeTo

def readFrom (bytes : List UInt8) : Outcome FsError ObjRef := do
  let size ← rangeOf bytes 0 8
  let level ← rangeOf bytes 8 9
  let root ← BlockPtr.readFrom (← rangeOf bytes 16 (16 + BLOCK_PTR_SIZE))
  .ok ⟨leValue size, leValue level, root⟩

end ObjRef

/-- The root of everything, written alternately to the two slots. -/
structure Uberblock where
  blockSize : Nat
  allocUnit : Nat
  codec : Codec
  txg : Nat
  frontier : Nat
  deviceSize : Nat
  liveRoot : ObjRef
  snapshots : ObjRef

/-- What one uberblock slot holds. -/
inductive SlotState where
  | noMagic
  | invalid
  | valid (ub : Uberblock)

namespace Uberblock

variable [Primitives]

/-- The checksummed part of a slot. -/
def body (ub : Uberblock) : List UInt8 :=
  MAGIC ++ leBytes 4 FORMAT_VERSION ++ leBytes 4 ub.blockSize ++ leBytes 4 ub.allocUnit ++
    [ub.codec.toTag] ++ List.replicate 3 0 ++ leBytes 8 ub.txg ++ leBytes 8 ub.frontier ++
    leBytes 8 ub.deviceSize ++ ub.liveRoot.writeTo ++ ub.snapshots.writeTo

/-- The full zero-padded slot. -/
def toSlotBytes (ub : Uberblock) : List UInt8 :=
  ub.body ++ (hash ub.body).1 ++ List.replicate (SLOT_SIZE - UBERBLOCK_SIZE) 0

/-- The fields of a slot whose checksum has been accepted. -/
def parseBody (slot : List UInt8) : Outcome FsError SlotState := do
  let version ← rangeOf slot 8 12
  if leValue version ≠ FORMAT_VERSION then corrupt "unsupported format version"
  else do
    let blockSize ← rangeOf slot 12 16
    let allocUnit ← rangeOf slot 16 20
    let codec ← Codec.fromTag (← elemAt slot 20)
    let txg ← rangeOf slot 24 32
    let frontier ← rangeOf slot 32 40
    let deviceSize ← rangeOf slot 40 48
    let liveRoot ← ObjRef.readFrom (← rangeOf slot 48 (48 + OBJ_REF_SIZE))
    let snapshots ← ObjRef.readFrom (← rangeOf slot 120 (120 + OBJ_REF_SIZE))
    .ok (.valid ⟨leValue blockSize, leValue allocUnit, codec, leValue txg, leValue frontier,
      leValue deviceSize, liveRoot, snapshots⟩)

def classifySlot (slot : List UInt8) : Outcome FsError SlotState :=
  if slot.length < UBERBLOCK_SIZE ∨ sub slot 0 8 ≠ MAGIC then .ok .noMagic
  else if (hash (sub slot 0 UBERBLOCK_BODY_SIZE)).1 ≠ sub slot UBERBLOCK_BODY_SIZE 32 then
    .ok .invalid
  else parseBody slot

end Uberblock

def nameBytes (name : String) : List UInt8 := name.toByteArray.data.toList

/-- The name with the given utf-8 bytes. -/
def nameOf (bytes : List UInt8) : Option String := String.fromUTF8? ⟨bytes.toArray⟩

/-- The byte order of names, by the values of their bytes. -/
def nameLe (a b : String) : Prop :=
  (nameBytes a).map UInt8.toNat ≤ (nameBytes b).map UInt8.toNat

instance : DecidableRel nameLe := fun _ _ => inferInstanceAs (Decidable (_ ≤ _))

structure DirEntry where
  name : String
  kind : NodeKind
  obj : ObjRef
  deriving DecidableEq

/-- One snapshot: a retained root. -/
structure SnapEntry where
  /-- The commit that makes the snapshot durable. -/
  txg : Nat
  name : String
  root : ObjRef

def DirEntry.writeTo (entry : DirEntry) : List UInt8 :=
  leBytes 2 (nameBytes entry.name).length ++ [entry.kind.toTag] ++ [0] ++ entry.obj.writeTo ++
    nameBytes entry.name

def SnapEntry.writeTo (entry : SnapEntry) : List UInt8 :=
  leBytes 8 entry.txg ++ leBytes 2 (nameBytes entry.name).length ++ List.replicate 6 0 ++
    entry.root.writeTo ++ nameBytes entry.name

/-- The entries in the order they are stored in. -/
def sortEntries (entries : List DirEntry) : List DirEntry :=
  entries.insertionSort fun a b => nameLe a.name b.name

/-- Serialize a directory: its entries sorted by name. -/
def serializeDir (entries : List DirEntry) : List UInt8 :=
  (sortEntries entries).flatMap DirEntry.writeTo

/-- Serialize the snapshot table: its entries in creation order. -/
def serializeSnapshots (entries : List SnapEntry) : List UInt8 :=
  entries.flatMap SnapEntry.writeTo

/-- Parse entries one after the other until no byte is left. -/
def parseEntries {α : Type} (parse : List UInt8 → Outcome FsError (α × List UInt8)) :
    Nat → List UInt8 → Outcome FsError (List α)
  | _, [] => .ok []
  | 0, _ :: _ => .error .diverge
  | fuel + 1, rest => do
      let (entry, rest) ← parse rest
      let entries ← parseEntries parse fuel rest
      .ok (entry :: entries)

/-- The directory entry at the head of `rest`, and the bytes after it. -/
def parseDirEntry (rest : List UInt8) : Outcome FsError (DirEntry × List UInt8) :=
  if rest.length < DIR_ENTRY_FIXED then corrupt "truncated directory entry"
  else do
    let nameLen := leValue (← rangeOf rest 0 2)
    let kind ← NodeKind.fromTag (← elemAt rest 2)
    let obj ← ObjRef.readFrom (← rangeOf rest 4 (4 + OBJ_REF_SIZE))
    if MAX_NAME_LEN < nameLen ∨ rest.length - DIR_ENTRY_FIXED < nameLen then
      corrupt "truncated directory entry name"
    else do
      match nameOf (← rangeOf rest DIR_ENTRY_FIXED (DIR_ENTRY_FIXED + nameLen)) with
      | none => corrupt "directory entry name is not utf-8"
      | some name => .ok (⟨name, kind, obj⟩, rest.drop (DIR_ENTRY_FIXED + nameLen))

/-- The snapshot entry at the head of `rest`, and the bytes after it. -/
def parseSnapEntry (rest : List UInt8) : Outcome FsError (SnapEntry × List UInt8) :=
  if rest.length < SNAP_ENTRY_FIXED then corrupt "truncated snapshot entry"
  else do
    let txg := leValue (← rangeOf rest 0 8)
    let nameLen := leValue (← rangeOf rest 8 10)
    let root ← ObjRef.readFrom (← rangeOf rest 16 (16 + OBJ_REF_SIZE))
    if MAX_NAME_LEN < nameLen ∨ rest.length - SNAP_ENTRY_FIXED < nameLen then
      corrupt "truncated snapshot entry name"
    else do
      match nameOf (← rangeOf rest SNAP_ENTRY_FIXED (SNAP_ENTRY_FIXED + nameLen)) with
      | none => corrupt "snapshot name is not utf-8"
      | some name => .ok (⟨txg, name, root⟩, rest.drop (SNAP_ENTRY_FIXED + nameLen))

def parseDir (bytes : List UInt8) : Outcome FsError (List DirEntry) :=
  parseEntries parseDirEntry bytes.length bytes

def parseSnapshots (bytes : List UInt8) : Outcome FsError (List SnapEntry) :=
  parseEntries parseSnapEntry bytes.length bytes

/-!
## Space allocation

The allocator of `space.rs`: first fit from the free list, otherwise append at
the frontier.
-/

structure Extent where
  addr : Nat
  len : Nat

structure Allocator where
  allocUnit : Nat
  deviceSize : Nat
  /-- First never-allocated byte. -/
  frontier : Nat
  free : List Extent

namespace Allocator

def new (allocUnit deviceSize frontier : Nat) : Allocator :=
  ⟨allocUnit, deviceSize, frontier, []⟩

/-- Round `len` up to the allocation unit. -/
def aligned (a : Allocator) (len : Nat) : Nat := divCeil len a.allocUnit * a.allocUnit

/-- Total bytes on the free list. -/
def freeBytes (a : Allocator) : Nat := (a.free.map Extent.len).sum

/-- The first extent with room for `need` bytes gives up its head. -/
def firstFit (need : Nat) : List Extent → Option (Nat × List Extent)
  | [] => none
  | e :: rest =>
    if need ≤ e.len then
      some (e.addr, if e.len - need = 0 then rest else ⟨e.addr + need, e.len - need⟩ :: rest)
    else (firstFit need rest).map fun (addr, rest) => (addr, e :: rest)

/-- Room for `len` bytes, rounded up to the allocation unit. -/
def allocate (len : Nat) (a : Allocator) : Outcome FsError Nat × Allocator :=
  if len = 0 then (corrupt "zero-length allocation", a)
  else
    let need := a.aligned len
    match firstFit need a.free with
    | some (addr, free) => (.ok addr, { a with free })
    | none =>
      let addr := a.frontier
      if 2 ^ 64 ≤ addr + need then (Outcome.fail .noSpace, a)
      else if a.deviceSize < addr + need then (Outcome.fail .noSpace, a)
      else (.ok addr, { a with frontier := addr + need })

def setFree (extents : List Extent) (a : Allocator) : Allocator := { a with free := extents }

end Allocator

end Eo9.Eofs
