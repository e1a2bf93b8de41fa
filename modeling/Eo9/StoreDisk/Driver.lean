import Eo9.Library.Action
import Eo9.Library.Splice

/-!
# The device of the store disk

The memory that the kernel's virtio-blk driver shares with its device, and the moves of the
device. It fetches published requests in order, moves their data in pieces or at the end, and
completes them in any order and with any status. What the addresses and flags of the descriptors
say never changes, so that only their lengths are kept.
-/

namespace Eo9.StoreDisk

open Eo9.Library

abbrev Bytes := List UInt8

def SECTOR : ℕ := 512

def DATA_BYTES : ℕ := 64 * 1024

def BLK_S_OK : UInt8 := 0

/-- What a device reports for a request outside the medium. -/
def BLK_S_IOERR : UInt8 := 1

/-- As a ghost, what a call put into a request. -/
structure Request where
  write : Bool
  sector : ℕ
  byteLen : ℕ
  payload : Bytes

/-- A request as the device fetched it. The number is a ghost. -/
structure Ticket where
  number : ℕ
  write : Bool
  sector : ℕ
  byteLen : ℕ

/-- As a ghost, bytes that the device stored for a request. -/
structure Stored where
  number : ℕ
  position : ℕ
  bytes : Bytes

inductive Move where
  | fetch
  /-- A piece of the data of a fetched request. -/
  | piece (k i n : ℕ)
  | finish (k : ℕ) (status : UInt8)

/-- What the device does between two steps of the driver, and whether the doorbell fails. -/
structure Turn where
  moves : List Move
  refused : Bool

/-- The request page, the bounce buffer and the rings. -/
structure Shared where
  write : Bool
  sector : ℕ
  byteLen : ℕ
  status : UInt8
  data : Bytes
  avail : List ℕ
  availIdx : ℕ
  usedIdx : ℕ

/-- The ghosts: the requests published, the number fetched, the numbers of those completed, for
each completion that the driver took the number of its request and of the completed one, and what
was stored. -/
structure Books where
  published : List Request
  fetched : ℕ
  completed : List ℕ
  taken : List (ℕ × Option ℕ)
  stored : List Stored

structure World where
  shared : Shared
  queueSize : ℕ
  availIndex : ℕ
  usedIndex : ℕ
  capacityBytes : ℕ
  medium : Bytes
  seen : ℕ
  fetched : List Ticket
  script : List Turn
  books : Books

namespace World

variable (w : World)

/-- The next published request, whose chain starts at the first descriptor. -/
def fetch : World :=
  if w.seen ≠ w.shared.availIdx ∧ w.shared.avail[w.seen % w.queueSize]? = some 0 then
    { w with
      seen := (w.seen + 1) % 2 ^ 16
      fetched := w.fetched ++
        [⟨w.books.fetched, w.shared.write, w.shared.sector, w.shared.byteLen⟩]
      books.fetched := w.books.fetched + 1 }
  else w

def Inside (t : Ticket) : Prop := t.sector * SECTOR + t.byteLen ≤ w.medium.length

instance (t : Ticket) : Decidable (w.Inside t) := inferInstanceAs (Decidable (_ ≤ _))

/-- The `n` bytes from `i` on of the data of a request. -/
def moved (t : Ticket) (i n : ℕ) : World :=
  if i + n ≤ t.byteLen ∧ w.Inside t then
    if t.write then
      { w with
        medium := copyInto w.medium (t.sector * SECTOR + i) (sub w.shared.data i n)
        books.stored := w.books.stored ++
          [⟨t.number, t.sector * SECTOR + i, sub w.shared.data i n⟩] }
    else
      { w with
        shared.data := copyInto w.shared.data i (sub w.medium (t.sector * SECTOR + i) n) }
  else w

/-- A request without its data completes. -/
def completed (k : ℕ) (t : Ticket) (status : UInt8) : World :=
  { w with
    fetched := w.fetched.eraseIdx k
    shared.status := status
    shared.usedIdx := (w.shared.usedIdx + 1) % 2 ^ 16
    books.completed := w.books.completed ++ [t.number] }

/-- A request inside the medium that completes well has all its data moved. -/
def finished (k : ℕ) (t : Ticket) (status : UInt8) : World :=
  if ¬w.Inside t then w.completed k t BLK_S_IOERR
  else if status = BLK_S_OK then (w.moved t 0 t.byteLen).completed k t BLK_S_OK
  else w.completed k t status

def move : Move → World
  | .fetch => w.fetch
  | .piece k i n =>
    match w.fetched[k]? with
    | some t => w.moved t i n
    | none => w
  | .finish k status =>
    match w.fetched[k]? with
    | some t => w.finished k t status
    | none => w

end World

/-- The device has its turn; whether the doorbell fails then. -/
def turn {ε : Type} : Action World ε Bool := fun w =>
  match w.script with
  | [] => (.ok false, w)
  | t :: script => (.ok t.refused, t.moves.foldl World.move { w with script := script })

/-!
## The driver of the store disk

The kernel's polled virtio-blk driver (`virtio_blk.rs`): one descriptor chain and one bounce
buffer for all requests. The device has a turn between any two steps of the driver on their
memory.
-/

abbrev Call (α : Type) := Action World String α

def QUEUE_SIZE : ℕ := 16

def POLL_LIMIT : ℕ := 50000000

/-- Bring-up, as far as the queue and the capacity go: the rings are empty. -/
def start (maxSize sectors : ℕ) (medium : Bytes) (script : List Turn) : Outcome String World := do
  if maxSize = 0 then Outcome.fail "storedisk: virtqueue 0 is not available"
  else
    let queueSize := min maxSize QUEUE_SIZE
    let capacityBytes ← checkedMul 64 sectors SECTOR
    pure {
      shared := ⟨false, 0, 0, 0, List.replicate DATA_BYTES 0, List.replicate queueSize 0, 0, 0⟩
      queueSize := queueSize
      availIndex := 0
      usedIndex := 0
      capacityBytes := capacityBytes
      medium := medium
      seen := 0
      fetched := []
      script := script
      books := ⟨[], 0, [], [], []⟩ }

/-- A step of the driver on the shared memory, behind a turn of the device. -/
def store (f : Shared → Shared) : Call PUnit := do
  let _ ← turn
  Action.modify fun w => { w with shared := f w.shared }

/-- The header, the preset status, the payload and the descriptors of a request. -/
def prepare (write : Bool) (sector byteLen : ℕ) (payload : Option Bytes) : Call PUnit := do
  store fun s => { s with write := write, sector := sector }
  store fun s => { s with status := 0xff }
  match payload with
  | some bytes =>
    if DATA_BYTES < bytes.length then
      Action.panic "assertion failed: offset + bytes.len() <= self.layout.size()"
    else store fun s => { s with data := copyInto s.data 0 bytes }
  | none => pure ()
  store fun s => { s with byteLen := byteLen }

/-- Publish descriptor 0 in the avail ring and bump its index. -/
def publish (request : Request) : Call PUnit := do
  let slot ← Action.gets fun w => w.availIndex % w.queueSize
  store fun s => { s with avail := s.avail.set slot 0 }
  Action.modify fun w => { w with availIndex := (w.availIndex + 1) % 2 ^ 16 }
  let _ ← turn
  Action.modify fun w => { w with
    shared.availIdx := w.availIndex
    books.published := w.books.published ++ [request] }

def notifyQueue : Call PUnit := do
  if ← turn then Action.fail "storedisk: queue notify failed" else pure ()

/-- Take a completion. -/
def consume (w : World) : World :=
  { w with
    usedIndex := (w.usedIndex + 1) % 2 ^ 16
    books.taken := w.books.taken ++
      [(w.books.published.length - 1, w.books.completed[w.books.taken.length]?)] }

/-- Poll the used index. -/
def poll : (spins : ℕ) → Call PUnit
  | 0 => Action.fail "storedisk: the virtio-blk device did not complete a request (poll limit)"
  | spins + 1 => do
      let _ ← turn
      if ← Action.gets fun w => decide (w.shared.usedIdx ≠ w.usedIndex) then
        Action.modify consume
      else poll spins

/-- What the request brought. -/
def collect (write : Bool) (byteLen : ℕ) : Call (Option Bytes) := do
  let _ ← turn
  let status ← Action.gets fun w => w.shared.status
  if status ≠ BLK_S_OK then
    Action.fail s!"storedisk: the device reported request status {status}"
  else if write then pure none
  else
    let _ ← turn
    let bytes ← Action.gets fun w => sub w.shared.data 0 byteLen
    pure (some bytes)

def transfer (write : Bool) (sector sectors : ℕ) (payload : Option Bytes) :
    Call (Option Bytes) := do
  let byteLen := sectors * SECTOR
  if DATA_BYTES < byteLen then Action.panic "assertion failed: byte_len <= DATA_BYTES"
  else
    prepare write sector byteLen payload
    publish ⟨write, sector, byteLen, payload.getD []⟩
    notifyQueue
    poll (POLL_LIMIT + 1)
    collect write byteLen

def checkRange (offset len : ℕ) : Call PUnit := do
  if offset + len < 2 ^ 64 then
    if (← Action.gets World.capacityBytes) < offset + len then
      Action.fail "storedisk: access beyond the end of the disk"
    else pure ()
  else Action.fail "storedisk: range overflow"

/-- The loop of `read_bytes`; a round fills a byte at least. -/
def readLoop : (fuel cursor filled : ℕ) → Bytes → Call Bytes
  | 0, _, _, _ => Action.ofOutcome (.error .diverge)
  | fuel + 1, cursor, filled, buf =>
    if buf.length ≤ filled then pure buf
    else do
      let sector := cursor / SECTOR
      let within := cursor % SECTOR
      let remaining := buf.length - filled
      let wantSectors := min (divCeil (within + remaining) SECTOR) (DATA_BYTES / SECTOR)
      let bytes ← transfer false sector wantSectors none
      let bytes := bytes.getD []
      let available ← Action.ofOutcome (checkedSub bytes.length within)
      let take := min available remaining
      let piece ← Action.ofOutcome (rangeOf bytes within (within + take))
      readLoop fuel (cursor + take) (filled + take) (copyInto buf filled piece)

def readBytes (offset : ℕ) (buf : Bytes) : Call Bytes := do
  checkRange offset buf.length
  readLoop (buf.length + 1) offset 0 buf

/-- The sectors under a piece: read where the piece does not fill them. -/
def edges (sector spanSectors within take : ℕ) : Call Bytes :=
  if within ≠ 0 ∨ take ≠ spanSectors * SECTOR then do
    let bytes ← transfer false sector spanSectors none
    pure (bytes.getD [])
  else pure (List.replicate (spanSectors * SECTOR) 0)

def writeLoop (data : Bytes) : (fuel cursor consumed : ℕ) → Call PUnit
  | 0, _, _ => Action.ofOutcome (.error .diverge)
  | fuel + 1, cursor, consumed =>
    if data.length ≤ consumed then pure ()
    else do
      let sector := cursor / SECTOR
      let within := cursor % SECTOR
      let maxBytes ← Action.ofOutcome (checkedSub DATA_BYTES within)
      let take := min (data.length - consumed) maxBytes
      let spanSectors := divCeil (within + take) SECTOR
      let block ← edges sector spanSectors within take
      let _ ← Action.ofOutcome (rangeOf block within (within + take))
      let piece ← Action.ofOutcome (rangeOf data consumed (consumed + take))
      let _ ← transfer true sector spanSectors (some (copyInto block within piece))
      writeLoop data fuel (cursor + take) (consumed + take)

def writeBytes (offset : ℕ) (data : Bytes) : Call PUnit := do
  checkRange offset data.length
  writeLoop data (data.length + 1) offset 0

end Eo9.StoreDisk
