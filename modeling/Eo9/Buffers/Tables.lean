import Eo9.Library.Bytes
import Eo9.Library.Slots

/-!
# Buffer tables

The two tables behind the guests' buffer handles: that of the kernel's shell sessions, and that
of the runtime's tasks. Memory is not exhausted, and the sizes of buffers are far from the bounds
of `u64`.
-/

namespace Eo9.Buffers

open Eo9.Library

abbrev Bytes := List UInt8

/-- Per-buffer allocation ceiling. -/
def MAX_BUFFER_BYTES : ℕ := 16 * 1024 * 1024

/-- Ceiling on the total bytes of all live buffers. -/
def MAX_TOTAL_BUFFER_BYTES : ℕ := 64 * 1024 * 1024

/-- The errors of the tables. -/
inductive TableError where
  | exceedsCap (len : ℕ)
  | budgetExceeded (len : ℕ)
  | tableFull
  | unknownHandle (rep : ℕ)
  | inFlight
  | notLive
  | notAvailable
  | outOfBounds (offset len size : ℕ)

/-- What a session or a task does with its table. -/
structure Ops (T : Type) where
  alloc : T → ℕ → Except TableError ℕ × T
  bytes : T → ℕ → Except TableError Bytes
  /-- Bytes written through the borrow of `bytes`. -/
  put : T → ℕ → Bytes → T
  take : T → ℕ → Except TableError (Bytes × T)
  restore : T → ℕ → Bytes → T
  free : T → ℕ → T

/-- Bounds-check a range against a buffer. -/
def byteRange (size offset len : ℕ) : Except TableError ℕ :=
  if offset + len ≤ size then .ok offset else .error (.outOfBounds offset len size)

/-- `[method]buffer.write`, and what reading a file into a buffer writes. -/
def Ops.write {T : Type} (ops : Ops T) (t : T) (rep offset : ℕ) (data : Bytes) :
    Except TableError T :=
  match ops.bytes t rep with
  | .error e => .error e
  | .ok bytes =>
    match byteRange bytes.length offset data.length with
    | .error e => .error e
    | .ok start => .ok (ops.put t rep (copyInto bytes start data))

namespace Kernel

structure BufferTable where
  slots : Slots Bytes
  totalBytes : ℕ

def empty : BufferTable := ⟨[], 0⟩

namespace BufferTable

def alloc (t : BufferTable) (len : ℕ) : Except TableError ℕ × BufferTable :=
  if MAX_BUFFER_BYTES < len then (.error (.exceedsCap len), t)
  else if MAX_TOTAL_BUFFER_BYTES < t.totalBytes + len then (.error (.budgetExceeded len), t)
  else
    let placed := Slots.insert (List.replicate len 0) t.slots
    (if placed.1 < 2 ^ 32 then .ok placed.1 else .error .tableFull,
      ⟨placed.2, t.totalBytes + len⟩)

def bytes (t : BufferTable) (rep : ℕ) : Except TableError Bytes :=
  match Slots.get t.slots rep with
  | some bytes => .ok bytes
  | none => .error (.unknownHandle rep)

def put (t : BufferTable) (rep : ℕ) (bytes : Bytes) : BufferTable :=
  { t with slots := t.slots.set rep (some bytes) }

/-- The slot is left empty. -/
def take (t : BufferTable) (rep : ℕ) : Except TableError (Bytes × BufferTable) :=
  match Slots.get t.slots rep with
  | some bytes => .ok (bytes, ⟨Slots.clear t.slots rep, t.totalBytes - bytes.length⟩)
  | none => .error (.unknownHandle rep)

def restore (t : BufferTable) (rep : ℕ) (bytes : Bytes) : BufferTable :=
  ⟨t.slots.set rep (some bytes), t.totalBytes + bytes.length⟩

/-- Foreign bytes as a fresh entry. -/
def insert (t : BufferTable) (bytes : Bytes) : ℕ × BufferTable :=
  let placed := Slots.insert bytes t.slots
  (placed.1 % 2 ^ 32, ⟨placed.2, t.totalBytes + bytes.length⟩)

def free (t : BufferTable) (rep : ℕ) : BufferTable :=
  match Slots.get t.slots rep with
  | some bytes => ⟨Slots.clear t.slots rep, t.totalBytes - bytes.length⟩
  | none => t

end BufferTable

def ops : Ops BufferTable where
  alloc := BufferTable.alloc
  bytes := BufferTable.bytes
  put := BufferTable.put
  take := BufferTable.take
  restore := BufferTable.restore
  free := BufferTable.free

end Kernel

namespace Task

/-- What is in a slot that is not free. -/
inductive Tenancy where
  | held (bytes : Bytes)
  /-- Bytes handed to a provider. -/
  | inFlight (reserved : ℕ)

/-- A slot; `none` is `Free`. -/
abbrev BufferSlot := Option Tenancy

structure BufferTable where
  slots : Slots Tenancy
  totalBytes : ℕ

def empty : BufferTable := ⟨[], 0⟩

namespace BufferTable

def alloc (t : BufferTable) (len : ℕ) : Except TableError ℕ × BufferTable :=
  if MAX_BUFFER_BYTES < len then (.error (.exceedsCap len), t)
  else if MAX_TOTAL_BUFFER_BYTES < t.totalBytes + len then (.error (.budgetExceeded len), t)
  else
    let placed := Slots.insert (.held (List.replicate len 0)) t.slots
    (if placed.1 < 2 ^ 32 then .ok placed.1 else .error .tableFull,
      ⟨placed.2, t.totalBytes + len⟩)

def slot (t : BufferTable) (rep : ℕ) : Except TableError BufferSlot :=
  match t.slots[rep]? with
  | some slot => .ok slot
  | none => .error (.unknownHandle rep)

def bytes (t : BufferTable) (rep : ℕ) : Except TableError Bytes :=
  match t.slot rep with
  | .error e => .error e
  | .ok (some (.held bytes)) => .ok bytes
  | .ok (some (.inFlight _)) => .error .inFlight
  | .ok none => .error .notLive

def put (t : BufferTable) (rep : ℕ) (bytes : Bytes) : BufferTable :=
  { t with slots := t.slots.set rep (some (.held bytes)) }

/-- The slot stays reserved. -/
def take (t : BufferTable) (rep : ℕ) : Except TableError (Bytes × BufferTable) :=
  match t.slot rep with
  | .error e => .error e
  | .ok (some (.held bytes)) =>
    .ok (bytes, { t with slots := t.slots.set rep (some (.inFlight bytes.length)) })
  | .ok (some (.inFlight _)) => .error .notAvailable
  | .ok none => .error .notAvailable

def restore (t : BufferTable) (rep : ℕ) (bytes : Bytes) : BufferTable :=
  match t.slots[rep]? with
  | some (some (.inFlight reserved)) =>
    ⟨t.slots.set rep (some (.held bytes)), t.totalBytes - reserved + bytes.length⟩
  | _ => t

def released : BufferSlot → ℕ
  | some (.held bytes) => bytes.length
  | some (.inFlight reserved) => reserved
  | none => 0

def free (t : BufferTable) (rep : ℕ) : BufferTable :=
  match t.slots[rep]? with
  | some slot => ⟨t.slots.set rep none, t.totalBytes - released slot⟩
  | none => t

end BufferTable

def ops : Ops BufferTable where
  alloc := BufferTable.alloc
  bytes := BufferTable.bytes
  put := BufferTable.put
  take := BufferTable.take
  restore := BufferTable.restore
  free := BufferTable.free

end Task

end Eo9.Buffers
