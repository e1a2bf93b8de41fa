import Eo9.Eofs.Tree

/-!
# The eofs engine

Format, mount, transactions, namespace operations, snapshots, verification and
garbage collection, after `fs.rs`.
-/

namespace Eo9.Eofs

open Eo9.Library

/-- Options for `format`. -/
structure FormatOptions where
  blockSize : Nat
  allocUnit : Nat
  compression : Bool

/-- What `stat` reports about a node. -/
structure NodeStat where
  kind : NodeKind
  size : Nat
  hash : Digest

/-- One entry of `snapshotList`. -/
structure SnapshotInfo where
  name : String
  txg : Nat
  rootHash : Digest

/-- What `verify` found while walking every reachable block. -/
structure VerifyReport where
  blocks : Nat
  logicalBytes : Nat
  physicalBytes : Nat
  compressedBlocks : Nat
  files : Nat
  directories : Nat
  snapshots : Nat
  deriving DecidableEq

def VerifyReport.zero : VerifyReport := ⟨0, 0, 0, 0, 0, 0, 0⟩

/-- What `gc` reclaimed. -/
structure GcReport where
  reclaimedBytes : Nat
  freeExtents : Nat

/-- What a mount observed while electing the uberblock. -/
structure MountReport where
  txg : Nat
  fellBackPastInvalidSlot : Bool

/-- An edit applied to one directory entry. -/
inductive DirOp where
  | insert (name : String) (kind : NodeKind) (obj : ObjRef)
  | replace (name : String) (obj : ObjRef)
  | remove (name : String)

/-- Validate one path segment or snapshot name. -/
def checkName (name : String) : Outcome FsError Unit :=
  if name = "" ∨ MAX_NAME_LEN < (nameBytes name).length ∨ name = "." ∨ name = ".." ∨
      '/' ∈ name.toList ∨ Char.ofNat 0 ∈ name.toList then
    Outcome.fail .invalidPath
  else .ok ()

/-- The segments of a path that are not empty, each of them checked. -/
def checkSegments : List String → Outcome FsError (List String)
  | [] => .ok []
  | segment :: rest =>
    if segment = "" then checkSegments rest
    else do
      checkName segment
      let segments ← checkSegments rest
      .ok (segment :: segments)

/-- Split a path into its segments. -/
def splitPath (path : String) : Outcome FsError (List String) :=
  checkSegments ((path.toList.splitOn '/').map String.ofList)

/-- Whether `n` is a power of two. -/
def isPowerOfTwo (n : Nat) : Bool := n = 2 ^ n.log2

/-- The first entry called `name` refers to `obj` from now on. -/
def replaceEntry (name : String) (obj : ObjRef) : List DirEntry → List DirEntry
  | [] => []
  | entry :: rest =>
    if entry.name = name then { entry with obj } :: rest
    else entry :: replaceEntry name obj rest

/-- The entries after an edit. -/
def DirOp.apply (entries : List DirEntry) : DirOp → Outcome FsError (List DirEntry)
  | insert name kind obj =>
    if entries.any (·.name = name) then Outcome.fail .alreadyExists
    else .ok (entries ++ [⟨name, kind, obj⟩])
  | replace name obj =>
    if entries.any (·.name = name) then .ok (replaceEntry name obj entries)
    else Outcome.fail .notFound
  | remove name =>
    if entries.any (·.name = name) then .ok (entries.eraseP (·.name = name))
    else Outcome.fail .notFound

namespace AsyncEofs

variable {D : Type} [Primitives] [BlockDevice D]

/-- The uberblock the next commit writes. -/
def nextUberblock (fs : AsyncEofs D) : Uberblock where
  blockSize := fs.blockSize
  allocUnit := fs.allocUnit
  codec := fs.codec
  txg := fs.committedTxg + 1
  frontier := fs.alloc.frontier
  deviceSize := fs.formatDeviceSize
  liveRoot := fs.liveRoot
  snapshots := fs.snapshots

/-- The pending roots become the committed ones. -/
def adopt (txg : Nat) (fs : AsyncEofs D) : AsyncEofs D :=
  { fs with
    committedTxg := txg
    committedLiveRoot := fs.liveRoot
    committedSnapshots := fs.snapshots
    dirty := false }

/-- Flush, write the next uberblock into the slot the previous commit did not
use, and flush again. -/
def commit : Engine D Nat := do
  let dirty ← Action.gets AsyncEofs.dirty
  if dirty = false then Action.gets AsyncEofs.committedTxg
  else do
    devFlush
    let txg ← Action.query fun fs => checkedAdd 64 fs.committedTxg 1
    let ub ← Action.gets nextUberblock
    devWrite (slotOffset (txg % 2)) ub.toSlotBytes
    devFlush
    Action.modify (adopt txg)
    pure txg

/-- The pending state returns to the last committed transaction. -/
def rollback (fs : AsyncEofs D) : AsyncEofs D :=
  { fs with
    liveRoot := fs.committedLiveRoot
    snapshots := fs.committedSnapshots
    dirty := false }

/-- Create a fresh filesystem, and commit its empty state as transaction 1. -/
def format (dev : D) (opts : FormatOptions) : Outcome FsError (AsyncEofs D) :=
  if isPowerOfTwo opts.blockSize = false ∨ opts.blockSize < 512 ∨ 2 ^ 20 < opts.blockSize then
    Outcome.fail (.invalidConfig "block_size")
  else if isPowerOfTwo opts.allocUnit = false ∨ opts.allocUnit < 64 ∨ 4096 < opts.allocUnit ∨
      opts.blockSize < opts.allocUnit then
    Outcome.fail (.invalidConfig "alloc_unit")
  else if BlockDevice.size dev < DATA_START + 4 * opts.blockSize then
    Outcome.fail (.invalidConfig "device too small")
  else
    let blank : AsyncEofs D :=
      { dev
        blockSize := opts.blockSize
        allocUnit := opts.allocUnit
        codec := if opts.compression then .lz4 else .raw
        deviceSize := BlockDevice.size dev
        formatDeviceSize := BlockDevice.size dev
        committedTxg := 0
        committedLiveRoot := ObjRef.EMPTY
        committedSnapshots := ObjRef.EMPTY
        liveRoot := ObjRef.EMPTY
        snapshots := ObjRef.EMPTY
        alloc := Allocator.new opts.allocUnit (BlockDevice.size dev) DATA_START
        dirty := true }
    match (do devWrite 0 (List.replicate (2 * SLOT_SIZE) 0); commit : Engine D Nat) blank with
    | (.ok _, fs) => .ok fs
    | (.error e, _) => .error e

/-- The state of the uberblock election after some slots: the best valid
uberblock, the last typed error, and whether a slot held remains. -/
structure Election where
  best : Option Uberblock
  deferred : Option FsError
  fellBack : Bool

def Election.visit (e : Election) (slot : List UInt8) : Outcome FsError Election :=
  match Uberblock.classifySlot slot with
  | .ok (.valid ub) =>
    match e.best with
    | none => .ok { e with best := some ub }
    | some b => if b.txg < ub.txg then .ok { e with best := some ub } else .ok e
  | .ok .noMagic => .ok e
  | .ok .invalid => .ok { e with fellBack := true }
  | .error (.err err) => .ok { e with deferred := some err, fellBack := true }
  | .error (.panic site) => .error (.panic site)
  | .error .diverge => .error .diverge

/-- Both slots, in order. -/
def elect (dev : D) : Outcome FsError Election :=
  [0, 1].foldlM (fun e i => do
    let slot ← ofDevice (BlockDevice.readAt dev (slotOffset i) SLOT_SIZE)
    e.visit slot) ⟨none, none, false⟩

/-- The engine of a mount that adopts `ub`. -/
def ofUberblock (dev : D) (ub : Uberblock) : AsyncEofs D where
  dev := dev
  blockSize := ub.blockSize
  allocUnit := ub.allocUnit
  codec := ub.codec
  deviceSize := BlockDevice.size dev
  formatDeviceSize := ub.deviceSize
  committedTxg := ub.txg
  committedLiveRoot := ub.liveRoot
  committedSnapshots := ub.snapshots
  liveRoot := ub.liveRoot
  snapshots := ub.snapshots
  alloc := Allocator.new ub.allocUnit (BlockDevice.size dev) ub.frontier
  dirty := false

/-- Adopt the valid slot with the highest transaction number. -/
def mountWithReport (dev : D) : Outcome FsError (AsyncEofs D × MountReport) :=
  if BlockDevice.size dev < DATA_START then corrupt "device too small to hold an eofs image"
  else do
    let election ← elect dev
    match election.best with
    | none => Outcome.fail (election.deferred.getD (.corrupt "no valid uberblock"))
    | some ub =>
      if isPowerOfTwo ub.blockSize = false ∨ ub.blockSize < 512 ∨ 2 ^ 20 < ub.blockSize then
        corrupt "uberblock block size"
      else if isPowerOfTwo ub.allocUnit = false ∨ ub.allocUnit < 64 ∨ 4096 < ub.allocUnit ∨
          ub.blockSize < ub.allocUnit then
        corrupt "uberblock allocation unit"
      else if BlockDevice.size dev < ub.deviceSize ∨ BlockDevice.size dev < ub.frontier ∨
          ub.frontier < DATA_START then
        corrupt "device smaller than the filesystem on it"
      else .ok (ofUberblock dev ub, ⟨ub.txg, election.fellBack⟩)

def mount (dev : D) : Outcome FsError (AsyncEofs D) := do
  let mounted ← mountWithReport dev
  .ok mounted.1

/-- Give the device back. -/
def unmount (fs : AsyncEofs D) : D := fs.dev

def readDir (fs : AsyncEofs D) (obj : ObjRef) : Outcome FsError (List DirEntry) := do
  parseDir (← fs.readObject obj)

def readSnapshots (fs : AsyncEofs D) (obj : ObjRef) : Outcome FsError (List SnapEntry) := do
  parseSnapshots (← fs.readObject obj)

/-- Walk the segments down from a node. -/
def walk (fs : AsyncEofs D) : NodeKind → ObjRef → List String → Outcome FsError (NodeKind × ObjRef)
  | kind, obj, [] => .ok (kind, obj)
  | kind, obj, segment :: rest =>
    if kind ≠ .directory then Outcome.fail .notADirectory
    else do
      let entries ← fs.readDir obj
      match entries.find? (·.name = segment) with
      | none => Outcome.fail .notFound
      | some entry => walk fs entry.kind entry.obj rest

/-- The kind and object of the node a path leads to. -/
def resolve (fs : AsyncEofs D) (root : ObjRef) (segments : List String) :
    Outcome FsError (NodeKind × ObjRef) :=
  fs.walk .directory root segments

def storeDir (entries : List DirEntry) : Engine D ObjRef :=
  let bytes := serializeDir entries
  if MAX_META_OBJECT_SIZE < bytes.length then Action.fail .noSpace else writeObject bytes

/-- Apply an edit inside the directory the segments lead to; the new root. -/
def applyInDir (op : DirOp) : List String → ObjRef → Engine D ObjRef
  | [], dir => do
      let entries ← Action.query fun fs => fs.readDir dir
      let entries ← liftM (op.apply entries)
      storeDir entries
  | segment :: rest, dir => do
      let entries ← Action.query fun fs => fs.readDir dir
      match entries.find? (·.name = segment) with
      | none => Action.fail .notFound
      | some entry =>
        if entry.kind ≠ .directory then Action.fail .notADirectory
        else do
          let obj ← applyInDir op rest entry.obj
          storeDir (replaceEntry segment obj entries)

/-- Apply an edit under the live root, and make the result the live root. -/
def editLive (op : DirOp) (parent : List String) : Engine D Unit := do
  let root ← Action.gets AsyncEofs.liveRoot
  let root ← applyInDir op parent root
  Action.modify fun fs => { fs with liveRoot := root, dirty := true }

def createNode (path : String) (kind : NodeKind) : Engine D Unit := do
  let segments ← liftM (splitPath path)
  match segments.getLast? with
  | none => Action.fail .invalidPath
  | some name => editLive (.insert name kind ObjRef.EMPTY) segments.dropLast

def createFile (path : String) : Engine D Unit := createNode path .file

def mkdir (path : String) : Engine D Unit := createNode path .directory

def write (path : String) (offset : Nat) (data : List UInt8) : Engine D Unit := do
  let segments ← liftM (splitPath path)
  match segments.getLast? with
  | none => Action.fail .isADirectory
  | some name => do
      let node ← Action.query fun fs => fs.resolve fs.liveRoot segments
      if node.1 ≠ .file then Action.fail .isADirectory
      else do
        let obj ← writeObjectRange node.2 offset data
        editLive (.replace name obj) segments.dropLast

def remove (path : String) : Engine D Unit := do
  let segments ← liftM (splitPath path)
  match segments.getLast? with
  | none => Action.fail .invalidPath
  | some name => do
      let node ← Action.query fun fs => fs.resolve fs.liveRoot segments
      if node.1 = .directory ∧ node.2.size ≠ 0 then Action.fail .directoryNotEmpty
      else editLive (.remove name) segments.dropLast

def readAtRoot (fs : AsyncEofs D) (root : ObjRef) (path : String) (offset len : Nat) :
    Outcome FsError (List UInt8) := do
  let node ← fs.resolve root (← splitPath path)
  if node.1 ≠ .file then Outcome.fail .isADirectory else fs.readObjectRange node.2 offset len

def listAtRoot (fs : AsyncEofs D) (root : ObjRef) (path : String) :
    Outcome FsError (List String) := do
  let node ← fs.resolve root (← splitPath path)
  if node.1 ≠ .directory then Outcome.fail .notADirectory
  else do
    let entries ← fs.readDir node.2
    .ok (entries.map DirEntry.name)

def statAtRoot (fs : AsyncEofs D) (root : ObjRef) (path : String) : Outcome FsError NodeStat := do
  let node ← fs.resolve root (← splitPath path)
  .ok ⟨node.1, node.2.size, node.2.root.hash⟩

def read (fs : AsyncEofs D) (path : String) (offset len : Nat) : Outcome FsError (List UInt8) :=
  fs.readAtRoot fs.liveRoot path offset len

def list (fs : AsyncEofs D) (path : String) : Outcome FsError (List String) :=
  fs.listAtRoot fs.liveRoot path

def stat (fs : AsyncEofs D) (path : String) : Outcome FsError NodeStat :=
  fs.statAtRoot fs.liveRoot path

/-- Retain the live tree as it is now under `name`. -/
def snapshotCreate (name : String) : Engine D Unit := do
  liftM (checkName name)
  let entries ← Action.query fun fs => fs.readSnapshots fs.snapshots
  if entries.any (·.name = name) then Action.fail .alreadyExists
  else do
    let txg ← Action.query fun fs => checkedAdd 64 fs.committedTxg 1
    let root ← Action.gets AsyncEofs.liveRoot
    let bytes := serializeSnapshots (entries ++ [⟨txg, name, root⟩])
    if MAX_META_OBJECT_SIZE < bytes.length then Action.fail .noSpace
    else do
      let snapshots ← writeObject bytes
      Action.modify fun fs => { fs with snapshots, dirty := true }

def snapshotList (fs : AsyncEofs D) : Outcome FsError (List SnapshotInfo) := do
  let entries ← fs.readSnapshots fs.snapshots
  .ok (entries.map fun entry => ⟨entry.name, entry.txg, entry.root.root.hash⟩)

/-- The root of the read-only view of a snapshot. -/
def snapshot (fs : AsyncEofs D) (name : String) : Outcome FsError ObjRef := do
  let entries ← fs.readSnapshots fs.snapshots
  match entries.find? (·.name = name) with
  | none => Outcome.fail .notFound
  | some entry => .ok entry.root

/-- A walk that reports as it goes. -/
abbrev Verify (α : Type) := Action VerifyReport FsError α

/-- Addition to a 64-bit counter. -/
abbrev Adder := Nat → Nat → Outcome FsError Nat

/-- Add `n` to one counter of the report. -/
def count (add : Adder) (get : VerifyReport → Nat) (set : Nat → VerifyReport → VerifyReport)
    (n : Nat) : Verify Unit := fun report =>
  match add (get report) n with
  | .ok total => (.ok (), set total report)
  | .error e => (.error e, report)

variable (add : Adder)

def countCompressed (ptr : BlockPtr) : Verify Unit :=
  if ptr.codec = .lz4 then
    count add VerifyReport.compressedBlocks (fun n r => { r with compressedBlocks := n }) 1
  else pure ()

/-- Read one block and count it. -/
def verifyBlock (fs : AsyncEofs D) (ptr : BlockPtr) : Verify (List UInt8) := do
  let logical ← liftM (fs.readBlock ptr)
  count add VerifyReport.blocks (fun n r => { r with blocks := n }) 1
  count add VerifyReport.logicalBytes (fun n r => { r with logicalBytes := n }) ptr.lsize
  count add VerifyReport.physicalBytes (fun n r => { r with physicalBytes := n })
    (fs.alloc.aligned ptr.psize)
  countCompressed add ptr
  pure logical

/-- Verify the subtree under `ptr`, whose first data block has the number
`firstLeaf`; how many data blocks it covers. -/
def verifyPtr (fs : AsyncEofs D) (objSize leafCount : Nat) :
    Nat → BlockPtr → Nat → Verify Nat
  | 0, ptr, firstLeaf => do
      let _ ← fs.verifyBlock add ptr
      if leafCount ≤ firstLeaf then
        liftM (corrupt "object has more data blocks than its size" : Outcome FsError Nat)
      else do
        let left ← liftM (checkedSub objSize (firstLeaf * fs.blockSize) : Outcome FsError Nat)
        if ptr.lsize ≠ min fs.blockSize left then
          liftM (corrupt "data block size mismatch" : Outcome FsError Nat)
        else pure 1
  | level + 1, ptr, firstLeaf => do
      let logical ← fs.verifyBlock add ptr
      if logical = [] ∨ logical.length % BLOCK_PTR_SIZE ≠ 0 then
        liftM (corrupt "malformed indirect block" : Outcome FsError Nat)
      else (chunks BLOCK_PTR_SIZE logical).foldlM (fun covered chunk => do
        let child ← liftM (BlockPtr.readFrom chunk)
        let first ← liftM (checkedAdd 64 firstLeaf covered : Outcome FsError Nat)
        let more ← verifyPtr fs objSize leafCount level child first
        liftM (checkedAdd 64 covered more : Outcome FsError Nat)) 0

def verifyObject (fs : AsyncEofs D) (obj : ObjRef) : Verify Unit := do
  let leafCount ← liftM (fs.checkObject obj)
  if leafCount = 0 then pure ()
  else do
    let counted ← fs.verifyPtr add obj.size leafCount obj.level obj.root 0
    if counted ≠ leafCount then
      liftM (corrupt "object data-block count mismatch" : Outcome FsError Unit)
    else pure ()

/-- One entry of a verified directory: a file is verified, a directory goes on
the worklist. -/
def verifyEntry (fs : AsyncEofs D) (pending : List ObjRef) (entry : DirEntry) :
    Verify (List ObjRef) := do
  liftM (checkName entry.name)
  match entry.kind with
  | .file => do
      count add VerifyReport.files (fun n r => { r with files := n }) 1
      fs.verifyObject add entry.obj
      pure pending
  | .directory => pure (entry.obj :: pending)

/-- A root address that has been visited must not come up again. -/
def visit (visited : List Nat) (dir : ObjRef) : Outcome FsError (List Nat) :=
  if dir.root.isNull then .ok visited
  else if dir.root.addr ∈ visited then corrupt "directory tree is not a tree"
  else .ok (dir.root.addr :: visited)

/-- Walk the directories of a worklist, the last one pushed first. -/
def verifyLoop (fs : AsyncEofs D) : Nat → List ObjRef → List Nat → Verify Unit
  | _, [], _ => pure ()
  | 0, _ :: _, _ => Action.ofOutcome (.error .diverge)
  | fuel + 1, dir :: pending, visited => do
      let visited ← liftM (visit visited dir)
      count add VerifyReport.directories (fun n r => { r with directories := n }) 1
      fs.verifyObject add dir
      let entries ← liftM (fs.readDir dir)
      let pending ← entries.foldlM (fs.verifyEntry add) pending
      verifyLoop fs fuel pending visited

/-- More directories than a walk can visit: every directory but the empty ones
has a root address of its own, and an entry takes up bytes of its directory. -/
def walkFuel (fs : AsyncEofs D) : Nat := 2 + (fs.deviceSize + 1) * MAX_META_OBJECT_SIZE

def verifyDirTree (fs : AsyncEofs D) (root : ObjRef) : Verify Unit :=
  fs.verifyLoop add fs.walkFuel [root] []

/-- One snapshot of the verified table. -/
def verifySnapshot (fs : AsyncEofs D) (entry : SnapEntry) : Verify Unit := do
  count add VerifyReport.snapshots (fun n r => { r with snapshots := n }) 1
  fs.verifyDirTree add entry.root

/-- The whole walk over a report. -/
def verifyWalk (fs : AsyncEofs D) : Verify Unit := do
  fs.verifyDirTree add fs.liveRoot
  fs.verifyObject add fs.snapshots
  let entries ← liftM (fs.readSnapshots fs.snapshots)
  entries.forM (fs.verifySnapshot add)

/-- The report of a walk that was started on an empty one. -/
def reportOf (walk : Verify Unit) : Outcome FsError VerifyReport :=
  match walk VerifyReport.zero with
  | (.ok (), report) => .ok report
  | (.error e, _) => .error e

/-- Walk every reachable block and check it against its pointer. -/
def verify (fs : AsyncEofs D) : Outcome FsError VerifyReport :=
  reportOf (fs.verifyWalk (checkedAdd 64))

/-- Mark the subtree under `ptr`; the data blocks seen so far and the marked
extents are threaded through. -/
def markPtr (fs : AsyncEofs D) (leafCount : Nat) :
    Nat → BlockPtr → Nat × List Extent → Outcome FsError (Nat × List Extent)
  | 0, ptr, (seen, out) => do
      let out := out ++ [⟨ptr.addr, fs.alloc.aligned ptr.psize⟩]
      let seen ← checkedAdd 64 seen 1
      if leafCount < seen then corrupt "object has more data blocks than its size"
      else .ok (seen, out)
  | level + 1, ptr, (seen, out) => do
      let out := out ++ [⟨ptr.addr, fs.alloc.aligned ptr.psize⟩]
      let logical ← fs.readBlock ptr
      if logical = [] ∨ logical.length % BLOCK_PTR_SIZE ≠ 0 then corrupt "malformed indirect block"
      else (chunks BLOCK_PTR_SIZE logical).foldlM (fun marks chunk => do
        let child ← BlockPtr.readFrom chunk
        markPtr fs leafCount level child marks) (seen, out)

def markObject (fs : AsyncEofs D) (out : List Extent) (obj : ObjRef) :
    Outcome FsError (List Extent) := do
  let leafCount ← fs.checkObject obj
  if leafCount = 0 then .ok out
  else do
    let marks ← fs.markPtr leafCount obj.level obj.root (0, out)
    .ok marks.2

/-- One entry of a marked directory. -/
def markEntry (fs : AsyncEofs D) (state : List ObjRef × List Extent) (entry : DirEntry) :
    Outcome FsError (List ObjRef × List Extent) :=
  match entry.kind with
  | .file => do
      let out ← fs.markObject state.2 entry.obj
      .ok (state.1, out)
  | .directory => .ok (entry.obj :: state.1, state.2)

/-- Mark the directories of a worklist, the last one pushed first. -/
def markLoop (fs : AsyncEofs D) :
    Nat → List ObjRef → List Nat → List Extent → Outcome FsError (List Extent)
  | _, [], _, out => .ok out
  | 0, _ :: _, _, _ => .error .diverge
  | fuel + 1, dir :: pending, visited, out => do
      let visited ← visit visited dir
      let out ← fs.markObject out dir
      let entries ← fs.readDir dir
      let (pending, out) ← entries.foldlM fs.markEntry (pending, out)
      markLoop fs fuel pending visited out

def markDirTree (fs : AsyncEofs D) (out : List Extent) (root : ObjRef) :
    Outcome FsError (List Extent) :=
  fs.markLoop fs.walkFuel [root] [] out

/-- Mark a snapshot table and the tree of each of its snapshots. -/
def markTable (fs : AsyncEofs D) (out : List Extent) (table : ObjRef) :
    Outcome FsError (List Extent) := do
  let out ← fs.markObject out table
  let entries ← fs.readSnapshots table
  (entries.map SnapEntry.root).foldlM fs.markDirTree out

/-- Everything any retained root can reach. -/
def markAll (fs : AsyncEofs D) : Outcome FsError (List Extent) := do
  let out ← [fs.committedLiveRoot, fs.liveRoot].foldlM fs.markDirTree []
  [fs.committedSnapshots, fs.snapshots].foldlM fs.markTable out

/-- The gaps between extents sorted by address, from `cursor` on, and where
the last extent ends. -/
def gaps : Nat → List Extent → Outcome FsError (List Extent × Nat)
  | cursor, [] => .ok ([], cursor)
  | cursor, e :: rest => do
      let stop ← checkedAdd 64 e.addr e.len
      let (free, last) ← gaps (max cursor stop) rest
      .ok (if cursor < e.addr then ⟨cursor, e.addr - cursor⟩ :: free else free, last)

/-- The free extents that the marked extents leave below the frontier. -/
def unmarked (marked : List Extent) (frontier : Nat) : Outcome FsError (List Extent) := do
  let (free, cursor) ← gaps DATA_START (marked.insertionSort fun a b => a.addr ≤ b.addr)
  .ok (if cursor < frontier then free ++ [⟨cursor, frontier - cursor⟩] else free)

/-- Hand the gaps between the marked extents back to the allocator. -/
def gc : Engine D GcReport := do
  let marked ← Action.query markAll
  let free ← Action.query fun fs => unmarked marked fs.alloc.frontier
  let reclaimed ← liftM ((free.map Extent.len).foldlM (checkedAdd 64) 0 : Outcome FsError Nat)
  Action.modify fun fs => { fs with alloc := fs.alloc.setFree free }
  pure ⟨reclaimed, free.length⟩

end AsyncEofs

end Eo9.Eofs
