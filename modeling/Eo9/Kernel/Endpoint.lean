import Eo9.Kernel.Devices
import Eo9.Kernel.Licence

/-!
# A small machine

The emulated machine with one endpoint on it, in slot 1: it has a command register and a
memory BAR of 4 KiB, and answers as the specification of PCI asks.
-/

namespace Eo9.Kernel.Devices

open Eo9.Kernel.Pci

structure Endpoint where
  command : Nat
  bar0 : Nat
  deriving DecidableEq

namespace Endpoint

def ecam : Ecam := ⟨0x3f00_0000, 16⟩

def slot : FunctionAddress := ⟨0, 0, 1, 0⟩

/-- Where the configuration space of the endpoint lies. -/
def config : Nat := 0x3f00_8000

instance : ConfigAccess Endpoint where
  map d address offset := (ecam.map address offset, d)

instance : Bus Endpoint where
  read d address _ :=
    if address = config then (0x1af4, d)
    else if address = config + 0x04 then (d.command, d)
    else if address = config + 0x10 then (d.bar0, d)
    else if config ≤ address ∧ address < config + CONFIG_SPACE_SIZE then (0, d)
    else (0xffff_ffff, d)
  write d address width value :=
    if address ≤ config + 0x04 ∧ config + 0x04 < address + width.bytes then
      { d with command := value >>> (8 * (config + 0x04 - address)) }
    else if address = config + 0x10 then { d with bar0 := value &&& 0xffff_f000 }
    else d

/-- The tables of the emulated machine. -/
instance : Board Endpoint where
  controllers := [⟨0x1000_0000, 0x3eff_0000, by decide⟩]
  apart := List.pairwise_singleton _ _
  rootPorts := false
  intxWired := true
  regions := [⟨"pl031-rtc", 0x0901_0000, 0x1000, none⟩, ⟨"pl061-gpio", 0x0903_0000, 0x1000, none⟩]
  fits := by decide

theorem map_some {address : FunctionAddress} {offset target : Nat}
    (h : ecam.map address offset = some target) :
    address.bus < 16 ∧ target = 0x3f00_0000 + address.bus * 2 ^ 20 + address.device * 2 ^ 15 +
      address.function * 2 ^ 12 + offset := by
  unfold Ecam.map at h
  split at h
  · exact absurd h nofun
  · rename_i hbus
    refine ⟨Nat.lt_of_not_le hbus, ?_⟩
    simpa only [Nat.shiftLeft_eq, ecam] using (Option.some.inj h).symm

/-- Whose command register an address is that of. -/
def decode (address : Nat) : Option FunctionAddress :=
  let place := address - 0x3f00_0000
  if 0x3f00_0000 ≤ address ∧ place < 16 * 2 ^ 20 ∧ place % 2 ^ 12 = 4 then
    some ⟨0, place / 2 ^ 20, place / 2 ^ 15 % 32, place / 2 ^ 12 % 8⟩
  else none

theorem decode_map {address : FunctionAddress} {offset target k : Nat}
    (hvalid : Valid Endpoint address) (h : ecam.map address offset = some target)
    (hk : offset + k < CONFIG_SPACE_SIZE) :
    decode (target + k) = if offset + k = 4 then some address else none := by
  obtain ⟨segment, bus, device, function⟩ := address
  obtain ⟨hdevice, hfunction, ctrl, hctrl⟩ := hvalid
  obtain ⟨hbus, htarget⟩ := map_some h
  have hsegment : segment = 0 := Nat.lt_one_iff.mp (List.getElem?_eq_some_iff.mp hctrl).1
  unfold CONFIG_SPACE_SIZE at hk
  dsimp only at hdevice hfunction hbus htarget
  have hplace : target + k - 0x3f00_0000 =
      bus * 2 ^ 20 + device * 2 ^ 15 + function * 2 ^ 12 + (offset + k) := by omega
  generalize hat : bus * 2 ^ 20 + device * 2 ^ 15 + function * 2 ^ 12 + (offset + k) = place at hplace
  have hpieces : place / 2 ^ 20 = bus ∧ place / 2 ^ 15 % 32 = device ∧
      place / 2 ^ 12 % 8 = function ∧ place % 2 ^ 12 = offset + k := by omega
  have hplaced : 0x3f00_0000 ≤ target + k ∧ place < 16 * 2 ^ 20 := by omega
  unfold decode
  simp only [hplace, hpieces, hplaced, hsegment, true_and]

theorem decode_slot {address : Nat} : decode address = some slot ↔ address = config + 4 := by
  constructor
  · intro h
    unfold decode at h
    dsimp only at h
    split at h
    · rename_i hplace
      injection h with h
      injection h with _ hbus hdevice hfunction
      unfold config
      omega
    · exact absurd h nofun
  · rintro rfl
    decide

theorem read_same (d : Endpoint) (address : Nat) (width : AccessWidth) :
    (Bus.read d address width).2 = d := by
  simp only [Bus.read]
  repeat' split
  all_goals rfl

/-- A write that covers the command register gives it a new value, and others keep it. -/
theorem write_command (d : Endpoint) (address : Nat) (width : AccessWidth) (value : Nat) :
    (address ≤ config + 4 ∧ config + 4 < address + width.bytes) ∧
        (Bus.write d address width value).command = value >>> (8 * (config + 4 - address)) ∨
      ¬ (address ≤ config + 4 ∧ config + 4 < address + width.bytes) ∧
        (Bus.write d address width value).command = d.command := by
  by_cases hcover : address ≤ config + 4 ∧ config + 4 < address + width.bytes
  · left
    exact ⟨hcover, congrArg command (if_pos hcover)⟩
  · right
    refine ⟨hcover, (congrArg command (if_neg hcover)).trans ?_⟩
    split
    · rfl
    · rfl

instance : LawfulPci Endpoint where
  master d f := f = slot ∧ d.command.testBit 2
  commandAt _ := decode
  present f := f = slot
  map_master _ _ _ _ := rfl
  read_master d address width f := by rw [read_same]
  write_master d address width value f h := by
    simp only [decide_eq_true_eq] at h ⊢
    obtain ⟨rfl, hbit⟩ := h
    rcases write_command d address width value with ⟨hcover, hwritten⟩ | ⟨hcover, hkept⟩
    · left
      refine ⟨config + 4 - address, by omega, decode_slot.mpr (by omega), ?_⟩
      rw [hwritten, Nat.testBit_shiftRight] at hbit
      exact hbit
    · right
      refine ⟨⟨rfl, hkept ▸ hbit⟩, fun k hk hat => ?_⟩
      have := decode_slot.mp hat
      omega
  write_other d address width value f g _ hf := by
    congr 1
    refine propext (and_congr_right fun hslot => ?_)
    subst hslot
    rcases write_command d address width value with ⟨hcover, -⟩ | ⟨-, hkept⟩
    · exact absurd (decode_slot.mpr (by omega)) (hf (config + 4 - address) (by omega))
    · rw [hkept]
  config_command d address offset target d' hvalid h k hk :=
    decode_map hvalid (congrArg Prod.fst h) hk
  region_master d region hregion offset width value f h := by
    have hlow : ∀ region ∈ Board.regions Endpoint, region.base + region.size ≤ config := by decide
    have := hlow region hregion
    rcases write_command d (region.base + offset) width value with ⟨hcover, -⟩ | ⟨-, hkept⟩
    · omega
    · rw [hkept]
  map_present d address offset h _ := by
    rw [h]
    rfl
  vendor d address target d' hvalid h hvendor := by
    by_contra hslot
    have hmap : ecam.map address 0 = some target := congrArg Prod.fst h
    have hplace := (map_some hmap).2
    have hcommand : decode (target + 4) = some address := decode_map hvalid hmap (by decide)
    have hne : target ≠ config := fun heq =>
      hslot (Option.some.inj (hcommand.symm.trans (decode_slot.mpr (congrArg (· + 4) heq))))
    have hread : (Bus.read d' target .word).1 = 0xffff_ffff := by
      unfold config at hne
      simp only [Bus.read]
      unfold config CONFIG_SPACE_SIZE
      rw [if_neg hne, if_neg (by omega), if_neg (by omega), if_neg (by omega)]
    rw [hread] at hvendor
    exact absurd rfl hvendor
  command_read d address target d' h hmap hbit := by
    subst h
    have htarget : target = config + 4 :=
      (Option.some.inj ((congrArg Prod.fst hmap).symm.trans (show ecam.map slot 4 = _ from rfl)))
    rw [htarget, Nat.testBit_mod_two_pow, Bool.and_eq_true] at hbit
    exact decide_eq_true ⟨rfl, hbit.2⟩

end Endpoint

end Eo9.Kernel.Devices
