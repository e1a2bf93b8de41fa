import Eo9.Sectors.UsbMsd
import Eo9.Sectors.DiskVirtio

/-!
# The drivers as byte disks

`disk.virtio` is a byte disk for every sequence of accesses when its capacity in bytes is a 64-bit
number; `usb.msd` is one for the sequences whose accesses suit the block size or end outside.
-/

namespace Eo9.Sectors

open Eo9.Library

/-- `disk.virtio` comes up with the capacity that the device reports, and is a byte disk. -/
def DiskVirtio.Faithful (low high : UInt32) (medium bounce : Bytes) (accesses : List Access) :
    Prop :=
  DiskVirtio.capacityBytes low high = .ok medium.length ∧
    (DiskVirtio.seam medium.length).ByteDisk DiskVirtio.State.medium DiskVirtio.State.log accesses
      ⟨medium, bounce, []⟩

/-- `usb.msd` is a byte disk, behind its bring-up. -/
def UsbMsd.Faithful (stick : UsbMsd.Stick) (driver : UsbMsd.Driver) (medium : Bytes) (tag : ℕ)
    (accesses : List Access) : Prop :=
  (driver.seam stick).ByteDisk UsbMsd.State.medium UsbMsd.State.log accesses
    ⟨⟨tag, false⟩, medium, []⟩

variable {low high : UInt32} {medium bounce : Bytes} {accesses : List Access}

theorem DiskVirtio.faithful_iff
    (hmedium : medium.length = DiskVirtio.reportedSectors low high * DiskVirtio.SECTOR)
    (hbounce : bounce.length = DATA_CAP) :
    DiskVirtio.Faithful low high medium bounce accesses ↔ medium.length < 2 ^ 64 := by
  rw [DiskVirtio.Faithful, DiskVirtio.capacityBytes]
  constructor
  · rintro ⟨hcapacity, -⟩
    by_contra hlarge
    rw [checkedMul, if_neg (by omega)] at hcapacity
    cases hcapacity
  · intro hlt
    refine ⟨by rw [checkedMul_ok (by omega), hmedium], ?_⟩
    have hdvd : DiskVirtio.SECTOR ∣ medium.length := ⟨_, hmedium.trans (Nat.mul_comm _ _)⟩
    apply (byteDisk_iff DiskVirtio.obeys hdvd hlt ?_ hbounce rfl (by simp)).mpr
    · exact fun a ha => .inr ⟨fun h => absurd h (show DiskVirtio.SECTOR ≠ 1 by decide),
        .inl (show DiskVirtio.SECTOR ∣ DATA_CAP by decide)⟩
    · exact fun a s _ _ h => absurd h (show DiskVirtio.SECTOR ≠ 1 by decide)

theorem UsbMsd.faithful_iff {stick : UsbMsd.Stick} {capacity : Msd.Capacity}
    {driver : UsbMsd.Driver} {tag : ℕ} (hlast : capacity.lastLba < 2 ^ 32)
    (hdriver : UsbMsd.bringUp capacity = .ok driver) (hmedium : medium.length = driver.capacityBytes) :
    UsbMsd.Faithful stick driver medium tag accesses ↔ ∀ a ∈ accesses,
      driver.capacityBytes < a.offset + a.length ∨ Suits driver.blockSize a.offset a.length := by
  have hcapacity : driver.capacityBytes = (capacity.lastLba + 1) * driver.blockSize := by
    rw [UsbMsd.bringUp] at hdriver
    split_ifs at hdriver
    cases hdriver
    rfl
  have hlt : driver.capacityBytes < 2 ^ 64 :=
    calc driver.capacityBytes = (capacity.lastLba + 1) * driver.blockSize := hcapacity
      _ ≤ 2 ^ 32 * DATA_CAP := Nat.mul_le_mul (by omega) driver.le
      _ < 2 ^ 64 := by decide
  have hdvd : driver.blockSize ∣ driver.capacityBytes := ⟨_, hcapacity.trans (Nat.mul_comm _ _)⟩
  apply byteDisk_iff (UsbMsd.obeys hlast hcapacity) hdvd hlt ?_ rfl hmedium (by simp)
  intro a s hmid hsize hone hlong hin bytes hbytes
  obtain ⟨site, hpanic⟩ : ∃ site, ((driver.seam stick).access a s).1 = .error (.panic site) :=
    UsbMsd.access_overlong hmid hsize hlt hone hlong hin
  rw [hpanic] at hbytes
  cases hbytes

/-- The two drivers on any sequence of accesses to a medium of the reported geometry. -/
theorem drivers_faithful_iff (accesses : List Access) (medium : Bytes) :
    (∀ low high bounce, medium.length = DiskVirtio.reportedSectors low high * DiskVirtio.SECTOR →
      bounce.length = DATA_CAP →
      (DiskVirtio.Faithful low high medium bounce accesses ↔ medium.length < 2 ^ 64)) ∧
    ∀ stick capacity driver tag, capacity.lastLba < 2 ^ 32 →
      UsbMsd.bringUp capacity = .ok driver → medium.length = driver.capacityBytes →
      (UsbMsd.Faithful stick driver medium tag accesses ↔ ∀ a ∈ accesses,
        driver.capacityBytes < a.offset + a.length ∨ Suits driver.blockSize a.offset a.length) :=
  ⟨fun _ _ _ => DiskVirtio.faithful_iff, fun _ _ _ _ => UsbMsd.faithful_iff⟩

/-- Both drivers on the same 512 bytes, across the edges of blocks and behind the end. -/
theorem drivers_faithful_iff_sample :
    DiskVirtio.Faithful 1 0 (List.replicate 512 0) (List.replicate DATA_CAP 0)
      [.write 3 [1, 2, 3], .read 2 510, .write 511 [4, 5]] ∧
    UsbMsd.Faithful ⟨1, by decide, []⟩ ⟨4, 512, by decide, by decide⟩ (List.replicate 512 0) 7
      [.write 3 [1, 2, 3], .read 2 510, .write 511 [4, 5]] := by
  constructor
  · apply ((drivers_faithful_iff _ _).1 1 0 _ ?_ ?_).mpr
    · rw [List.length_replicate]
      decide
    · rw [List.length_replicate]
      decide
    · rw [List.length_replicate]
  · apply ((drivers_faithful_iff _ _).2 _ ⟨127, 4⟩ _ 7 (by decide) rfl ?_).mpr
    · decide
    · exact List.length_replicate

/-- With blocks of one byte, a read of 64 KiB asks for no blocks. -/
theorem bytewise_stick : ¬∀ stick capacity driver medium tag accesses, capacity.lastLba < 2 ^ 32 →
    UsbMsd.bringUp capacity = .ok driver → medium.length = driver.capacityBytes →
    UsbMsd.Faithful stick driver medium tag accesses := by
  intro h
  have hmedium : (List.replicate 65536 (0 : UInt8)).length = 65536 := List.length_replicate
  have hfaithful := h ⟨1, by decide, []⟩ ⟨65535, 1⟩ ⟨1, 65536, by decide, by decide⟩ _ 7
    [.read 0 65536] (by decide) rfl hmedium
  have hlast : (⟨65535, 1⟩ : Msd.Capacity).lastLba < 2 ^ 32 := by decide
  have hsuits := (UsbMsd.faithful_iff hlast rfl hmedium).mp hfaithful (.read 0 65536) (by simp)
  exact absurd hsuits (by decide)

end Eo9.Sectors
