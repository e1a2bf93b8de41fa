import Eo9.Library.Action
import Eo9.Library.Splice

/-!
# Bytes over blocks

The byte-addressed operations that the drivers of block devices share: a range is split into
commands of at most 64 KiB, and a write reads, modifies and writes the blocks at its edges.
Arithmetic and slices are checked.
-/

namespace Eo9.Sectors

open Eo9.Library

abbrev Bytes := List UInt8

/-- The most that one command moves. -/
def DATA_CAP : ℕ := 64 * 1024

inductive DiskFail (ε : Type) where
  | outOfRange
  | io (e : ε)

/-- A command of a driver, as the blocks that it moves. -/
structure Command where
  block : ℕ
  count : ℕ

/-- What a driver's byte operations are made of. `narrow` is the cast of a block count; a read is
told whether it is for the edges of a write, which its error says. -/
structure Seam (σ ε : Type) where
  blockSize : ℕ
  capacityBytes : ℕ
  narrow : ℕ → ℕ
  read : (edges : Bool) → (block count : ℕ) → Action σ (DiskFail ε) Bytes
  write : (block count : ℕ) → Bytes → Action σ (DiskFail ε) PUnit
  shortRead : ε

namespace Seam

variable {σ ε : Type} (io : Seam σ ε)

/-- The range rule of the disk contract. -/
def checkRange (offset len : ℕ) : Action σ (DiskFail ε) PUnit :=
  if offset + len < 2 ^ 64 then
    if io.capacityBytes < offset + len then Action.fail .outOfRange else pure ()
  else Action.fail .outOfRange

/-- The loop of `read_bytes`. A round moves a byte at least, so that as much fuel as there are
bytes, and one more, is enough. -/
def readLoop : (fuel cursor remaining : ℕ) → Bytes → Action σ (DiskFail ε) Bytes
  | 0, _, _, _ => Action.ofOutcome (.error .diverge)
  | fuel + 1, cursor, remaining, out =>
    if remaining = 0 then pure out
    else do
      let firstBlock := cursor / io.blockSize
      let within := cursor - firstBlock * io.blockSize
      let room ← Action.ofOutcome (checkedSub DATA_CAP within)
      let take := min remaining room
      let blocks := io.narrow (divCeil (within + take) io.blockSize)
      let chunk ← io.read false firstBlock blocks
      let piece ← Action.ofOutcome (rangeOf chunk within (within + take))
      let cursor ← Action.ofOutcome (checkedAdd 64 cursor take)
      readLoop fuel cursor (remaining - take) (out ++ piece)

def readBytes (offset len : ℕ) : Action σ (DiskFail ε) Bytes := do
  io.checkRange offset len
  io.readLoop (len + 1) offset len []

/-- What a round of `write_bytes` sends: where the piece ends inside a block, the covering blocks
with the piece over them. -/
def chunk (firstBlock blocks within endWithin : ℕ) (piece : Bytes) :
    Action σ (DiskFail ε) Bytes :=
  if within = 0 ∧ endWithin % io.blockSize = 0 then pure piece
  else do
    let current ← io.read true firstBlock blocks
    if current.length < blocks * io.blockSize then Action.fail (.io io.shortRead)
    else
      let _ ← Action.ofOutcome (rangeOf current within endWithin)
      pure (copyInto current within piece)

def writeLoop (bytes : Bytes) : (fuel cursor written : ℕ) → Action σ (DiskFail ε) PUnit
  | 0, _, _ => Action.ofOutcome (.error .diverge)
  | fuel + 1, cursor, written =>
    if bytes.length ≤ written then pure ()
    else do
      let firstBlock := cursor / io.blockSize
      let within := cursor - firstBlock * io.blockSize
      let room ← Action.ofOutcome (checkedSub DATA_CAP within)
      let take := min (bytes.length - written) room
      let endWithin := within + take
      let blocks := io.narrow (divCeil endWithin io.blockSize)
      let piece ← Action.ofOutcome (rangeOf bytes written (written + take))
      let chunk ← io.chunk firstBlock blocks within endWithin piece
      io.write firstBlock blocks chunk
      let cursor ← Action.ofOutcome (checkedAdd 64 cursor take)
      writeLoop bytes fuel cursor (written + take)

def writeBytes (offset : ℕ) (bytes : Bytes) : Action σ (DiskFail ε) PUnit := do
  io.checkRange offset bytes.length
  io.writeLoop bytes (bytes.length + 1) offset 0

end Seam

/-- Within the bounds that a command has, the commands move the blocks of the content, and are
recorded. -/
structure Seam.Obeys {σ ε : Type} (io : Seam σ ε) (Ready : σ → Prop) (content : σ → Bytes)
    (log : σ → List Command) : Prop where
  pos : 0 < io.blockSize
  le : io.blockSize ≤ DATA_CAP
  narrow : ∀ n < 2 ^ 16, io.narrow n = n
  read : ∀ s edges block count, Ready s → (content s).length = io.capacityBytes → 0 < count →
    count < 2 ^ 16 → count ≤ divCeil DATA_CAP io.blockSize →
    (block + count) * io.blockSize ≤ (content s).length →
    ∃ s', io.read edges block count s =
        (.ok (sub (content s) (block * io.blockSize) (count * io.blockSize)), s') ∧
      Ready s' ∧ content s' = content s ∧ log s' = log s ++ [⟨block, count⟩]
  write : ∀ s block count data, Ready s → (content s).length = io.capacityBytes → 0 < count →
    count < 2 ^ 16 → count ≤ divCeil DATA_CAP io.blockSize →
    (block + count) * io.blockSize ≤ (content s).length → data.length = count * io.blockSize →
    ∃ s', io.write block count data s = (.ok ⟨⟩, s') ∧ Ready s' ∧
      content s' = copyInto (content s) (block * io.blockSize) data ∧
      log s' = log s ++ [⟨block, count⟩]

/-!
## Rounds of the loops

One round of a loop moves the bytes that it should, with a command that stays in the device. The
command is as long as one buffer where the block size divides that of the buffer, or where the
whole range ends in the blocks that fit in a buffer.
-/

/-- The accesses that a driver of such blocks serves: block counts are not narrowed to less, and
the covering blocks fit in the buffer. -/
def Suits (blockSize offset len : ℕ) : Prop :=
  (blockSize = 1 → len < DATA_CAP) ∧
    (blockSize ∣ DATA_CAP ∨ offset % blockSize + len ≤ DATA_CAP / blockSize * blockSize)

instance (blockSize offset len : ℕ) : Decidable (Suits blockSize offset len) :=
  inferInstanceAs (Decidable (_ ∧ _))

/-- A command for `take` bytes from `cursor` on, in a device of `size` bytes. -/
structure Round (blockSize size cursor take : ℕ) (c : Command) : Prop where
  block : c.block = cursor / blockSize
  count : c.count = divCeil (cursor % blockSize + take) blockSize
  pos : 0 < c.count
  narrow : c.count < 2 ^ 16
  few : c.count ≤ divCeil DATA_CAP blockSize
  inside : (c.block + c.count) * blockSize ≤ size
  covers : cursor % blockSize + take ≤ c.count * blockSize
  buffer : c.count * blockSize ≤ DATA_CAP ↔
    cursor % blockSize + take ≤ DATA_CAP / blockSize * blockSize

section Rounds

variable {bs size cursor take len : ℕ}

theorem divCeil_mono {a b : ℕ} (hbs : 0 < bs) (h : a ≤ b) : divCeil a bs ≤ divCeil b bs :=
  (divCeil_le_iff hbs).mpr (Nat.le_trans h (le_divCeil_mul b hbs))

/-- Only blocks of one byte are more than a count can say. -/
theorem divCeil_lt (hbs : 0 < bs) {n : ℕ} (hn : n ≤ DATA_CAP) (hone : bs = 1 → n < DATA_CAP) :
    divCeil n bs < 2 ^ 16 := by
  rw [← Nat.not_le, Nat.not_le, Nat.lt_iff_le_pred (by decide), divCeil_le_iff hbs]
  have hcap : DATA_CAP = 2 ^ 16 := rfl
  obtain hbs | rfl : 2 ≤ bs ∨ bs = 1 := by omega
  · have hmul : (2 ^ 16 - 1) * 2 ≤ (2 ^ 16 - 1) * bs := Nat.mul_le_mul_left _ hbs
    omega
  · have hlt := hone rfl
    omega

/-- The blocks under a range that ends in the device are in the device. -/
theorem covering_inside (hbs : 0 < bs) (hsize : bs ∣ size) (hin : cursor + take ≤ size) :
    (cursor / bs + divCeil (cursor % bs + take) bs) * bs ≤ size := by
  obtain ⟨blocks, rfl⟩ := hsize
  have hdiv := Nat.div_add_mod cursor bs
  have hle : bs * (cursor / bs) ≤ bs * blocks := by omega
  have hblock : cursor / bs ≤ blocks := Nat.le_of_mul_le_mul_left hle hbs
  have hcount : divCeil (cursor % bs + take) bs ≤ blocks - cursor / bs := by
    rw [divCeil_le_iff hbs, Nat.sub_mul, Nat.mul_comm blocks, Nat.mul_comm (cursor / bs)]
    omega
  rw [Nat.mul_comm bs]
  apply Nat.mul_le_mul_right
  omega

theorem round (hbs : 0 < bs) (hsize : bs ∣ size) (htake : 0 < take)
    (hcap : cursor % bs + take ≤ DATA_CAP) (hin : cursor + take ≤ size)
    (hone : bs = 1 → take < DATA_CAP) :
    Round bs size cursor take ⟨cursor / bs, divCeil (cursor % bs + take) bs⟩ where
  block := rfl
  count := rfl
  pos := divCeil_pos hbs (by omega)
  narrow := divCeil_lt hbs hcap fun h => by
    have hlt := hone h
    subst h
    omega
  few := divCeil_mono hbs hcap
  inside := covering_inside hbs hsize hin
  covers := le_divCeil_mul _ hbs
  buffer := by
    dsimp only
    rw [← Nat.le_div_iff_mul_le hbs, divCeil_le_iff hbs]

/-- The first round of a range has the command that is too long, if any has. -/
theorem suits_iff (hbs : 0 < bs) (hle : bs ≤ DATA_CAP) (hone : bs = 1 → len < DATA_CAP)
    (htake : take = min len (DATA_CAP - cursor % bs)) :
    Suits bs cursor len ↔ cursor % bs + take ≤ DATA_CAP / bs * bs ∧
      Suits bs (cursor + take) (len - take) := by
  have hmod := Nat.mod_lt cursor hbs
  have hrest := Nat.mod_lt (cursor + take) hbs
  have hwhole : bs ≤ DATA_CAP / bs * bs := by
    have hpos : 1 ≤ DATA_CAP / bs := (Nat.le_div_iff_mul_le hbs).mpr (by omega)
    calc bs = 1 * bs := (Nat.one_mul bs).symm
      _ ≤ DATA_CAP / bs * bs := Nat.mul_le_mul_right bs hpos
  have hle' : DATA_CAP / bs * bs ≤ DATA_CAP := Nat.div_mul_le_self _ _
  by_cases hdvd : bs ∣ DATA_CAP
  · have heq : DATA_CAP / bs * bs = DATA_CAP := Nat.div_mul_cancel hdvd
    constructor
    · rintro -
      exact ⟨by omega, fun h => by have := hone h; omega, .inl hdvd⟩
    · rintro -
      exact ⟨hone, .inl hdvd⟩
  · have hne : DATA_CAP / bs * bs ≠ DATA_CAP := fun h => hdvd ⟨_, (h.symm.trans (Nat.mul_comm _ _))⟩
    constructor
    · rintro ⟨-, hdvd' | hfits⟩
      · exact absurd hdvd' hdvd
      · exact ⟨by omega, fun h => by have := hone h; omega, .inr (by omega)⟩
    · rintro ⟨hfits, -⟩
      exact ⟨hone, .inr (by omega)⟩

end Rounds

end Eo9.Sectors
