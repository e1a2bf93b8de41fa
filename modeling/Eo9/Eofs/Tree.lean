import Eo9.Eofs.Format

/-!
# Block I/O and byte-object trees

The engine state of `fs.rs`, and the functions of `tree.rs` over it: single
blocks, and byte objects stored as a tree of data blocks under indirect blocks
of pointers. Reads are queries of the state; writes are actions that keep what
they have written when they fail.
-/

namespace Eo9.Eofs

open Eo9.Library

/-- A mounted filesystem over a block device. -/
structure AsyncEofs (D : Type) where
  dev : D
  blockSize : Nat
  allocUnit : Nat
  codec : Codec
  /-- Device capacity as seen by this mount. -/
  deviceSize : Nat
  /-- Device size recorded at format time. -/
  formatDeviceSize : Nat
  committedTxg : Nat
  committedLiveRoot : ObjRef
  committedSnapshots : ObjRef
  /-- The pending (possibly uncommitted) roots. -/
  liveRoot : ObjRef
  snapshots : ObjRef
  alloc : Allocator
  dirty : Bool

/-- A `&mut self` method of the engine. -/
abbrev Engine (D α : Type) := Action (AsyncEofs D) FsError α

namespace AsyncEofs

variable {D : Type} [Primitives] [BlockDevice D]

/-- Pointers per indirect block. -/
def fanout (fs : AsyncEofs D) : Nat := fs.blockSize / BLOCK_PTR_SIZE

def devWrite (offset : Nat) (data : List UInt8) : Engine D Unit := fun fs =>
  (ofDevice (BlockDevice.writeAt offset data fs.dev).1,
    { fs with dev := (BlockDevice.writeAt offset data fs.dev).2 })

def devFlush : Engine D Unit := fun fs =>
  (ofDevice (BlockDevice.flush fs.dev).1, { fs with dev := (BlockDevice.flush fs.dev).2 })

def allocate (len : Nat) : Engine D Nat :=
  Action.zoom (·.alloc) (fun alloc fs => { fs with alloc }) (Allocator.allocate len)

/-- The stored form of a block: compressed when that makes it smaller. -/
def encodeBlock (codec : Codec) (logical : List UInt8) : Codec × List UInt8 :=
  match codec with
  | .lz4 =>
    let compressed := compress logical
    if compressed.length < logical.length then (.lz4, compressed) else (.raw, logical)
  | .raw => (.raw, logical)

/-- Hash, compress, allocate, and write one logical block. -/
def writeBlock (logical : List UInt8) : Engine D BlockPtr := do
  let bs ← Action.gets AsyncEofs.blockSize
  if logical = [] ∨ bs < logical.length then Action.panic "assertion failed"
  else do
    let codec ← Action.gets AsyncEofs.codec
    let stored := encodeBlock codec logical
    let addr ← allocate stored.2.length
    devWrite addr stored.2
    pure ⟨addr, logical.length, stored.2.length, stored.1, hash logical⟩

/-- The checks on a pointer before anything is read through it. -/
def checkPtr (fs : AsyncEofs D) (ptr : BlockPtr) : Outcome FsError Unit :=
  if ptr.isNull then corrupt "read through a null block pointer"
  else if ptr.lsize = 0 ∨ fs.blockSize < ptr.lsize ∨ ptr.psize = 0 ∨ fs.blockSize < ptr.psize then
    corrupt "block pointer with impossible sizes"
  else if ptr.addr < DATA_START ∨ ptr.addr % fs.allocUnit ≠ 0 ∨ 2 ^ 64 ≤ ptr.addr + ptr.psize ∨
      fs.deviceSize < ptr.addr + ptr.psize then
    corrupt "block pointer outside the data region"
  else .ok ()

/-- The logical bytes of a stored block. -/
def decodeBlock (ptr : BlockPtr) (payload : List UInt8) : Outcome FsError (List UInt8) :=
  match ptr.codec with
  | .raw =>
    if ptr.psize ≠ ptr.lsize then corrupt "raw block with differing sizes" else .ok payload
  | .lz4 =>
    match decompress payload ptr.lsize with
    | none => Outcome.fail .checksumMismatch
    | some out =>
      if out.length ≠ ptr.lsize then corrupt "decompressed size mismatch" else .ok out

/-- Read one block and check it against its pointer. -/
def readBlock (fs : AsyncEofs D) (ptr : BlockPtr) : Outcome FsError (List UInt8) := do
  fs.checkPtr ptr
  let payload ← ofDevice (BlockDevice.readAt fs.dev ptr.addr ptr.psize)
  let logical ← decodeBlock ptr payload
  if hash logical ≠ ptr.hash then Outcome.fail .checksumMismatch else .ok logical

/-- The height the writer would have produced for `leafCount` data blocks. The
`u8` height overflows before the fuel is used up. -/
def canonicalLevel (fanout leafCount : Nat) : Nat → Nat → Nat → Outcome FsError Nat
  | 0, _, _ => .error .diverge
  | fuel + 1, capacity, level =>
    if capacity < leafCount then do
      let level ← checkedAdd 8 level 1
      canonicalLevel fanout leafCount fuel (min (capacity * fanout) (2 ^ 64 - 1)) level
    else .ok level

/-- Sanity-check an object reference; the number of data blocks it must have. -/
def checkObject (fs : AsyncEofs D) (obj : ObjRef) : Outcome FsError Nat :=
  if obj.size = 0 then
    if obj.root.isNull = false ∨ obj.level ≠ 0 then corrupt "empty object with a root block"
    else .ok 0
  else if obj.root.isNull then corrupt "non-empty object without a root block"
  else do
    let leafCount := divCeil obj.size fs.blockSize
    let room ← checkedSub fs.deviceSize DATA_START
    if room / fs.allocUnit < leafCount then corrupt "object larger than the device"
    else do
      let canonical ← canonicalLevel fs.fanout leafCount 257 1 0
      if obj.level ≠ canonical then corrupt "object level inconsistent with its size"
      else .ok leafCount

/-- Descend the indirect tree under `ptr`, appending its data-block pointers. -/
def collectLevel (fs : AsyncEofs D) (leafCount : Nat) :
    Nat → BlockPtr → List BlockPtr → Outcome FsError (List BlockPtr)
  | 0, ptr, out =>
    if leafCount ≤ out.length then corrupt "object has more data blocks than its size"
    else .ok (out ++ [ptr])
  | level + 1, ptr, out => do
      let block ← fs.readBlock ptr
      if block = [] ∨ block.length % BLOCK_PTR_SIZE ≠ 0 then corrupt "malformed indirect block"
      else (chunks BLOCK_PTR_SIZE block).foldlM (fun out chunk => do
        let child ← BlockPtr.readFrom chunk
        collectLevel fs leafCount level child out) out

/-- The ordered data-block pointers of an object. -/
def collectLeaves (fs : AsyncEofs D) (obj : ObjRef) : Outcome FsError (List BlockPtr) := do
  let leafCount ← fs.checkObject obj
  if leafCount = 0 then .ok []
  else do
    let leaves ← fs.collectLevel leafCount obj.level obj.root []
    if leaves.length ≠ leafCount then corrupt "object data-block count mismatch" else .ok leaves

/-- The bytes of an object from `offset + buf.length` up to `offset + want`,
appended to `buf`. Every round that reads a byte uses one unit of fuel, so a
fuel of `want + 1` is used up only by rounds that read none. -/
def readLoop (fs : AsyncEofs D) (leaves : List BlockPtr) (offset want : Nat) :
    Nat → List UInt8 → Outcome FsError (List UInt8)
  | 0, _ => .error .diverge
  | fuel + 1, buf =>
    if buf.length < want then do
      let pos ← checkedAdd 64 offset buf.length
      let leaf ← elemAt leaves (pos / fs.blockSize)
      let within := pos % fs.blockSize
      let logical ← fs.readBlock leaf
      let left ← checkedSub logical.length within
      let piece ← rangeOf logical within (within + min (want - buf.length) left)
      readLoop fs leaves offset want fuel (buf ++ piece)
    else .ok buf

/-- Read up to `len` bytes of an object from `offset` on: the bytes put into
the buffer, whose number is the count returned. -/
def readObjectRange (fs : AsyncEofs D) (obj : ObjRef) (offset len : Nat) :
    Outcome FsError (List UInt8) :=
  if obj.size ≤ offset ∨ len = 0 then .ok []
  else do
    let want := min len (obj.size - offset)
    let leaves ← fs.collectLeaves obj
    fs.readLoop leaves offset want (want + 1) []

/-- Read a whole metadata object. -/
def readObject (fs : AsyncEofs D) (obj : ObjRef) : Outcome FsError (List UInt8) :=
  if MAX_META_OBJECT_SIZE < obj.size then corrupt "metadata object impossibly large"
  else do
    let _ ← fs.checkObject obj
    fs.readObjectRange obj 0 obj.size

/-- One indirect block for each group of pointers. -/
def writeGroups : List (List BlockPtr) → Engine D (List BlockPtr)
  | [] => pure []
  | group :: groups => do
      let ptr ← writeBlock (group.flatMap BlockPtr.writeTo)
      let next ← writeGroups groups
      pure (ptr :: next)

/-- Write levels of indirect blocks until one pointer is left. A level is
shorter than the one below it, so its length is fuel enough. -/
def buildLevels (size : Nat) : Nat → Nat → List BlockPtr → Engine D ObjRef
  | 0, _, _ => Action.ofOutcome (.error .diverge)
  | fuel + 1, level, current =>
    if 1 < current.length then do
      let fanout ← Action.gets AsyncEofs.fanout
      let next ← writeGroups (chunks fanout current)
      let level ← liftM (checkedAdd 8 level 1 : Outcome FsError Nat)
      buildLevels size fuel level next
    else do
      let root ← liftM (elemAt current 0 : Outcome FsError BlockPtr)
      pure ⟨size, level, root⟩

/-- Build the indirect-block tree over `leaves`. -/
def buildTree (leaves : List BlockPtr) (size : Nat) : Engine D ObjRef :=
  if leaves = [] then
    if size ≠ 0 then Action.panic "assertion failed" else pure ObjRef.EMPTY
  else buildLevels size leaves.length 0 leaves

/-- One range update: where `data` goes, and the object it goes into. -/
structure RangeWrite where
  obj : ObjRef
  offset : Nat
  data : List UInt8
  oldLeaves : List BlockPtr

namespace RangeWrite

variable (w : RangeWrite)

def writeEnd : Nat := w.offset + w.data.length

def newSize : Nat := max w.obj.size w.writeEnd

/-- The length of data block `b` after the update. -/
def newLen (bs b : Nat) : Nat := min bs (w.newSize - b * bs)

/-- The length of data block `b` before the update. -/
def oldLen (bs b : Nat) : Nat :=
  if b < w.oldLeaves.length then min bs (w.obj.size - b * bs) else 0

def overlapStart (bs b : Nat) : Nat := max (b * bs) w.offset

def overlapEnd (bs b : Nat) : Nat := min (b * bs + w.newLen bs b) w.writeEnd

/-- Data block `b` after the update, given what was in it before. -/
def content (bs b : Nat) (old : List UInt8) : List UInt8 :=
  let kept := copyInto (List.replicate (w.newLen bs b) 0) 0 old
  if w.overlapStart bs b < w.overlapEnd bs b then
    copyInto kept (w.overlapStart bs b - b * bs)
      (sub w.data (w.overlapStart bs b - w.offset) (w.overlapEnd bs b - w.overlapStart bs b))
  else kept

end RangeWrite

/-- What data block `b` held before the update. -/
def oldContent (fs : AsyncEofs D) (w : RangeWrite) (b : Nat) : Outcome FsError (List UInt8) :=
  if 0 < w.oldLen fs.blockSize b then do
    let old ← fs.readBlock (← elemAt w.oldLeaves b)
    if old.length ≠ w.oldLen fs.blockSize b then corrupt "data block size mismatch" else .ok old
  else .ok []

/-- The pointer to data block `b` after the update: the old one if nothing
changes in it. -/
def rewriteLeaf (w : RangeWrite) (b : Nat) : Engine D BlockPtr := do
  let bs ← Action.gets AsyncEofs.blockSize
  if ¬ w.overlapStart bs b < w.overlapEnd bs b ∧ w.newLen bs b = w.oldLen bs b then
    liftM (elemAt w.oldLeaves b : Outcome FsError BlockPtr)
  else do
    let old ← Action.query fun fs => fs.oldContent w b
    writeBlock (w.content bs b old)

/-- The pointers to the `n` data blocks from block `b` on. -/
def rewriteLeaves (w : RangeWrite) : Nat → Nat → Engine D (List BlockPtr)
  | 0, _ => pure []
  | n + 1, b => do
      let leaf ← rewriteLeaf w b
      let leaves ← rewriteLeaves w n (b + 1)
      pure (leaf :: leaves)

/-- Copy-on-write range update of an object. -/
def writeObjectRange (obj : ObjRef) (offset : Nat) (data : List UInt8) : Engine D ObjRef :=
  if data = [] then pure obj
  else if 2 ^ 64 ≤ offset + data.length then Action.fail .noSpace
  else do
    let oldLeaves ← Action.query fun fs => fs.collectLeaves obj
    let w : RangeWrite := ⟨obj, offset, data, oldLeaves⟩
    let bs ← Action.gets AsyncEofs.blockSize
    let newLeaves ← rewriteLeaves w (divCeil w.newSize bs) 0
    buildTree newLeaves w.newSize

/-- Store `data` as a fresh byte object. -/
def writeObject (data : List UInt8) : Engine D ObjRef := writeObjectRange ObjRef.EMPTY 0 data

end AsyncEofs

end Eo9.Eofs
