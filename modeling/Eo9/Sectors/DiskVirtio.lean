import Eo9.Sectors.ByteDisk

/-!
# `disk.virtio`

The byte operations of `disk.virtio`, over requests that go through the one bounce buffer, and a
device that serves every request inside its medium. No request of a cancelled operation is left.
-/

namespace Eo9.Sectors.DiskVirtio

open Eo9.Library

def SECTOR : ℕ := 512

def BLK_S_OK : UInt8 := 0

/-- What a device reports for a request outside the medium. -/
def BLK_S_IOERR : UInt8 := 1

/-- The medium, the bounce buffer, and the requests that were issued. -/
structure State where
  medium : Bytes
  bounce : Bytes
  log : List Command

/-- `pci::dma_write` at the start of the bounce buffer. -/
def dmaWrite (bytes : Bytes) : Action State (DiskFail String) PUnit := fun s =>
  if bytes.length ≤ s.bounce.length then
    (.ok ⟨⟩, { s with bounce := copyInto s.bounce 0 bytes })
  else (Outcome.panic "dma write outside the buffer", s)

def dmaRead (len : ℕ) : Action State (DiskFail String) Bytes := fun s =>
  if len ≤ s.bounce.length then (.ok (sub s.bounce 0 len), s)
  else (Outcome.panic "dma read outside the buffer", s)

/-- The device serves a request: its status, with the data moved. -/
def served (write : Bool) (sector sectors : ℕ) (s : State) : UInt8 × State :=
  let byteLen := sectors * SECTOR
  let log := s.log ++ [⟨sector, sectors⟩]
  if (sector + sectors) * SECTOR ≤ s.medium.length then
    if write then
      (BLK_S_OK, ⟨copyInto s.medium (sector * SECTOR) (sub s.bounce 0 byteLen), s.bounce, log⟩)
    else (BLK_S_OK, ⟨s.medium, copyInto s.bounce 0 (sub s.medium (sector * SECTOR) byteLen), log⟩)
  else (BLK_S_IOERR, { s with log := log })

def transfer (write : Bool) (sector sectors : ℕ) (payload : Option Bytes) :
    Action State (DiskFail String) (Option Bytes) := do
  let byteLen ← Action.ofOutcome (checkedMul 64 sectors SECTOR)
  if DATA_CAP < byteLen then Action.panic "assertion failed: byte_len <= DATA_BYTES"
  else
    match payload with
    | some bytes => dmaWrite bytes
    | none => pure ()
    let status ← Action.update (served write sector sectors)
    if status ≠ BLK_S_OK then
      Action.fail (.io s!"disk.virtio: the device reported request status {status}")
    else if write then pure none
    else
      let bytes ← dmaRead byteLen
      pure (some bytes)

/-- The capacity in sectors that the two words of the device configuration report. -/
def reportedSectors (low high : UInt32) : ℕ := high.toNat <<< 32 ||| low.toNat

/-- The capacity that bring-up computes. -/
def capacityBytes (low high : UInt32) : Outcome Unit ℕ :=
  checkedMul 64 (reportedSectors low high) SECTOR

def seam (capacityBytes : ℕ) : Seam State String where
  blockSize := SECTOR
  capacityBytes := capacityBytes
  narrow n := n % 2 ^ 32
  read _ sector sectors := do
    let bytes ← transfer false sector sectors none
    pure (bytes.getD [])
  write sector sectors bytes := do
    let _ ← transfer true sector sectors (some bytes)
  shortRead := "disk.virtio: short read during read-modify-write"

section Requests

variable {capacity sector sectors : ℕ} {s : State} {bytes : Bytes}

theorem read_served (hbounce : s.bounce.length = DATA_CAP) (hbytes : sectors * SECTOR ≤ DATA_CAP)
    (hin : (sector + sectors) * SECTOR ≤ s.medium.length) :
    ∃ bounce, bounce.length = DATA_CAP ∧ transfer false sector sectors none s =
      (.ok (some (sub s.medium (sector * SECTOR) (sectors * SECTOR))),
        ⟨s.medium, bounce, s.log ++ [⟨sector, sectors⟩]⟩) := by
  have hcap : DATA_CAP < 2 ^ 64 := by decide
  have hlen : (sub s.medium (sector * SECTOR) (sectors * SECTOR)).length = sectors * SECTOR := by
    rw [Nat.add_mul] at hin
    exact length_sub hin
  have hserved : served false sector sectors s = (BLK_S_OK, ⟨s.medium, copyInto s.bounce 0
      (sub s.medium (sector * SECTOR) (sectors * SECTOR)), s.log ++ [⟨sector, sectors⟩]⟩) := by
    rw [served, if_pos hin]
    rfl
  generalize hdata : sub s.medium (sector * SECTOR) (sectors * SECTOR) = data at hlen hserved
  have hmoved : (copyInto s.bounce 0 data).length = DATA_CAP := by
    rw [length_copyInto (by omega), hbounce]
  refine ⟨copyInto s.bounce 0 data, hmoved, ?_⟩
  have hread : dmaRead (sectors * SECTOR)
      ⟨s.medium, copyInto s.bounce 0 data, s.log ++ [⟨sector, sectors⟩]⟩ =
        (.ok data, ⟨s.medium, copyInto s.bounce 0 data, s.log ++ [⟨sector, sectors⟩]⟩) := by
    rw [dmaRead, if_pos (by rw [hmoved]; exact hbytes), ← hlen, sub_copyInto (Nat.zero_le _)]
  have hstatus : (Action.update (served false sector sectors) : Action State (DiskFail String) UInt8)
      s = (.ok BLK_S_OK,
        ⟨s.medium, copyInto s.bounce 0 data, s.log ++ [⟨sector, sectors⟩]⟩) := by
    rw [Action.update_apply, hserved]
  rw [transfer, Action.ofOutcome_bind (checkedMul_ok (by omega)), if_neg (by omega)]
  dsimp only
  rw [Action.bind_of_ok hstatus, if_neg (by decide), if_neg (by decide), Action.bind_of_ok hread]
  rfl

theorem write_served (hbounce : s.bounce.length = DATA_CAP) (hbytes : sectors * SECTOR ≤ DATA_CAP)
    (hin : (sector + sectors) * SECTOR ≤ s.medium.length)
    (hlen : bytes.length = sectors * SECTOR) :
    ∃ bounce, bounce.length = DATA_CAP ∧ transfer true sector sectors (some bytes) s =
      (.ok none, ⟨copyInto s.medium (sector * SECTOR) bytes, bounce,
        s.log ++ [⟨sector, sectors⟩]⟩) := by
  have hcap : DATA_CAP < 2 ^ 64 := by decide
  have hmoved : (copyInto s.bounce 0 bytes).length = DATA_CAP := by
    rw [length_copyInto (by omega), hbounce]
  refine ⟨copyInto s.bounce 0 bytes, hmoved, ?_⟩
  have hwrite : dmaWrite bytes s = (.ok ⟨⟩, { s with bounce := copyInto s.bounce 0 bytes }) :=
    if_pos (by omega)
  have hserved : served true sector sectors { s with bounce := copyInto s.bounce 0 bytes } =
      (BLK_S_OK, ⟨copyInto s.medium (sector * SECTOR) bytes, copyInto s.bounce 0 bytes,
        s.log ++ [⟨sector, sectors⟩]⟩) := by
    rw [served, if_pos hin, if_pos rfl]
    dsimp only
    rw [← hlen, sub_copyInto (Nat.zero_le _)]
  have hstatus : (Action.update (served true sector sectors) : Action State (DiskFail String) UInt8)
      { s with bounce := copyInto s.bounce 0 bytes } =
        (.ok BLK_S_OK, ⟨copyInto s.medium (sector * SECTOR) bytes, copyInto s.bounce 0 bytes,
          s.log ++ [⟨sector, sectors⟩]⟩) := by
    rw [Action.update_apply, hserved]
  rw [transfer, Action.ofOutcome_bind (checkedMul_ok (by omega)), if_neg (by omega)]
  dsimp only
  rw [Action.bind_of_ok hwrite, Action.bind_of_ok hstatus, if_neg (by decide), if_pos rfl]
  rfl

/-- The buffer is a whole number of sectors. -/
theorem sectors_le (h : sectors ≤ divCeil DATA_CAP SECTOR) : sectors * SECTOR ≤ DATA_CAP :=
  calc sectors * SECTOR ≤ divCeil DATA_CAP SECTOR * SECTOR := Nat.mul_le_mul_right SECTOR h
    _ = DATA_CAP := by decide

/-- The requests of the driver move the sectors of the medium. -/
theorem obeys : (seam capacity).Obeys (fun s => s.bounce.length = DATA_CAP) State.medium
    State.log where
  pos := show 0 < SECTOR by decide
  le := show SECTOR ≤ DATA_CAP by decide
  narrow n hn := Nat.mod_eq_of_lt (show n < 2 ^ 32 by omega)
  read s edges sector sectors hbounce hsize hpos hlt hfew hin := by
    obtain ⟨bounce, hbounce', hread⟩ := read_served hbounce (sectors_le hfew) hin
    exact ⟨⟨s.medium, bounce, s.log ++ [⟨sector, sectors⟩]⟩, Action.bind_of_ok hread, hbounce', rfl,
      rfl⟩
  write s sector sectors data hbounce hsize hpos hlt hfew hin hdata := by
    obtain ⟨bounce, hbounce', hwrite⟩ := write_served hbounce (sectors_le hfew) hin hdata
    exact ⟨⟨copyInto s.medium (sector * SECTOR) data, bounce, s.log ++ [⟨sector, sectors⟩]⟩,
      Action.bind_of_ok hwrite, hbounce', rfl, rfl⟩

end Requests

end Eo9.Sectors.DiskVirtio
