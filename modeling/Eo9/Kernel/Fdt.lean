import Eo9.Library.Endian
import Eo9.Library.Bytes
import Eo9.Library.Utf8

/-!
# The device-tree reader

`validate` and `bootargs_at` of the kernel. The memory is the bytes that can be read from the boot
pointer on; a read outside it and arithmetic that does not fit are panics, and a typed error is
the `None` that ends the walk.
-/

namespace Eo9.Kernel.Fdt

open Eo9.Library

abbrev Bytes := List UInt8

/-- A step of the reader: `.err ()` is `None`. -/
abbrev Read (α : Type) := Outcome Unit α

def FDT_MAGIC : ℕ := 0xd00dfeed

def FDT_HEADER_LEN : ℕ := 40

def FDT_BEGIN_NODE : ℕ := 1

def FDT_END_NODE : ℕ := 2

def FDT_PROP : ℕ := 3

def FDT_NOP : ℕ := 4

def FDT_END : ℕ := 9

/-- Upper bound on a believable size; the board's is tighter. -/
def MAX_FDT_SIZE (board : Bool) : ℕ := if board then 1024 * 1024 else 16 * 1024 * 1024

/-- `b"chosen"` -/
def chosen : Bytes := [99, 104, 111, 115, 101, 110]

/-- `b"bootargs"` -/
def bootargs : Bytes := [98, 111, 111, 116, 97, 114, 103, 115]

/-- Addition of an unsigned type. -/
def add (width a b : ℕ) : Read ℕ :=
  if a + b < 2 ^ width then .ok (a + b) else Outcome.panic "attempt to add with overflow"

/-- `checked_add` of `usize` -/
def checkedAdd (a b : ℕ) : Read ℕ := if a + b < 2 ^ 64 then .ok (a + b) else Outcome.fail ()

/-- Round `len` up to 4 bytes. -/
def align4 (len : ℕ) : Read ℕ :=
  let words := divCeil len 4
  if words * 4 < 2 ^ 64 then .ok (words * 4)
  else Outcome.panic "attempt to multiply with overflow"

/-- `bytes.get(start..stop)?` -/
def get (bytes : Bytes) (start stop : ℕ) : Read Bytes :=
  if start ≤ stop ∧ stop ≤ bytes.length then .ok (sub bytes start (stop - start))
  else Outcome.fail ()

/-- Big-endian `u32` at `offset`. -/
def be32 (bytes : Bytes) (offset : ℕ) : Read ℕ := do
  let stop ← checkedAdd offset 4
  let chunk ← get bytes offset stop
  pure (bigEndianValue chunk)

/-- The NUL-terminated byte string at `offset`. -/
def cstr (bytes : Bytes) (offset : ℕ) : Read Bytes :=
  if offset ≤ bytes.length then
    let rest := bytes.drop offset
    if 0 ∈ rest then .ok (rest.takeWhile (· ≠ 0)) else Outcome.fail ()
  else Outcome.fail ()

/-- `value.strip_suffix(&[0]).unwrap_or(value)` -/
def stripNul (value : Bytes) : Bytes :=
  if value.getLast? = some 0 then value.dropLast else value

/-- The value of a property as a string. -/
def text (value : Bytes) : Read Bytes :=
  if Utf8.Valid (stripNul value) then .ok (stripNul value) else Outcome.fail ()

structure Cursor where
  offset : ℕ
  depth : ℕ
  inChosen : Bool

/-- What one round of the loop comes to. -/
inductive Turn where
  | next (c : Cursor)
  | found (value : Bytes)

def beginNode (fdt : Bytes) (c : Cursor) : Read Turn := do
  let name ← cstr fdt c.offset
  let size ← add 64 name.length 1
  let size ← align4 size
  let offset ← add 64 c.offset size
  let depth ← add 32 c.depth 1
  pure (.next ⟨offset, depth, depth = 2 && name = chosen⟩)

/-- `FDT_END_NODE` -/
def endNode (c : Cursor) : Read Turn :=
  -- left /chosen without finding bootargs
  if c.inChosen then Outcome.fail ()
  else if c.depth = 0 then Outcome.fail ()
  else pure (.next { c with depth := c.depth - 1 })

/-- `FDT_PROP` -/
def property (fdt : Bytes) (offDtStrings : ℕ) (c : Cursor) : Read Turn := do
  let len ← be32 fdt c.offset
  let nameAt ← add 64 c.offset 4
  let nameOff ← be32 fdt nameAt
  let valueStart ← add 64 c.offset 8
  let valueStop ← checkedAdd valueStart len
  let value ← get fdt valueStart valueStop
  let size ← align4 len
  let offset ← add 64 valueStart size
  if c.inChosen then do
    let nameAt ← add 64 offDtStrings nameOff
    let name ← cstr fdt nameAt
    if name = bootargs then do
      let value ← text value
      pure (.found value)
    else pure (.next { c with offset := offset })
  else pure (.next { c with offset := offset })

/-- One round of the loop over the tokens of the structure block. -/
def turn (fdt : Bytes) (offDtStrings : ℕ) (c : Cursor) : Read Turn := do
  let token ← be32 fdt c.offset
  let offset ← add 64 c.offset 4
  let c := { c with offset := offset }
  if token = FDT_BEGIN_NODE then beginNode fdt c
  else if token = FDT_END_NODE then endNode c
  else if token = FDT_PROP then property fdt offDtStrings c
  else if token = FDT_NOP then pure (.next c)
  else Outcome.fail ()

/-- The loop over the tokens. -/
def walk (fdt : Bytes) (offDtStrings : ℕ) : (fuel : ℕ) → Cursor → Read Bytes
  | 0, _ => .error .diverge
  | fuel + 1, c => do
      match ← turn fdt offDtStrings c with
      | .next c => walk fdt offDtStrings fuel c
      | .found value => pure value

/-- `slice::from_raw_parts` -/
def rawParts (mem : Bytes) (len : ℕ) : Read Bytes :=
  if len ≤ mem.length then .ok (mem.take len) else Outcome.panic "read outside the memory"

/-- The command line in the device tree at the address `dtb`. -/
def bootargsAt (board : Bool) (dtb : ℕ) (mem : Bytes) : Read Bytes :=
  if dtb = 0 ∨ dtb % 4 ≠ 0 then Outcome.fail ()
  else do
    let header ← rawParts mem FDT_HEADER_LEN
    let magic ← be32 header 0
    if magic ≠ FDT_MAGIC then Outcome.fail ()
    else
      let totalsize ← be32 header 4
      if ¬ (FDT_HEADER_LEN ≤ totalsize ∧ totalsize ≤ MAX_FDT_SIZE board) then Outcome.fail ()
      else
        let offDtStruct ← be32 header 8
        let offDtStrings ← be32 header 12
        let fdt ← rawParts mem totalsize
        walk fdt offDtStrings (fdt.length + 1) ⟨offDtStruct, 0, false⟩

end Eo9.Kernel.Fdt
