import Eo9.Fatwalk.Callback

/-!
# Geometry that fits 32 bits

The checked parser is the parser, and it calculates without overflow exactly when the geometry
of the boot sector fits 32 bits.
-/

namespace Eo9.Fatwalk

open Eo9.Library

namespace Callback

theorem readU16_lt (bytes : Bytes) (i : Nat) : readU16 bytes i < 2 ^ 32 := by
  have hlt := leValue_lt (sub bytes i 2)
  have hlength : (sub bytes i 2).length ≤ 2 := by simp [sub]
  calc readU16 bytes i < 256 ^ (sub bytes i 2).length := hlt
    _ ≤ 256 ^ 2 := Nat.pow_le_pow_right (by omega) hlength
    _ ≤ 2 ^ 32 := by decide

theorem readU32_lt (bytes : Bytes) (i : Nat) : readU32 bytes i < 2 ^ 32 := by
  have hlt := leValue_lt (sub bytes i 4)
  have hlength : (sub bytes i 4).length ≤ 4 := by simp [sub]
  calc readU32 bytes i < 256 ^ (sub bytes i 4).length := hlt
    _ ≤ 256 ^ 4 := Nat.pow_le_pow_right (by omega) hlength
    _ = 2 ^ 32 := by decide

theorem totalSectors_lt (boot : Sector) : totalSectors boot < 2 ^ 32 := by
  unfold totalSectors
  split
  · exact readU32_lt _ _
  · exact readU16_lt _ _

/-- What the parser has checked before it calculates. -/
structure Shaped (boot : Sector) : Prop where
  signature : ¬ (readU8 boot.val 510 ≠ 0x55 ∨ readU8 boot.val 511 ≠ 0xAA)
  sector : ¬ readU16 boot.val 11 ≠ SECTOR
  cluster : ¬ ((readU8 boot.val 13).toNat = 0 ∨ ¬ isPowerOfTwo (readU8 boot.val 13).toNat = true)
  root : ¬ readU16 boot.val 17 ≠ 0
  fat16 : ¬ readU16 boot.val 22 ≠ 0
  fat : ¬ readU32 boot.val 36 = 0
  count : ¬ ((readU8 boot.val 16).toNat = 0 ∨ 2 < (readU8 boot.val 16).toNat)
  reserved : ¬ readU16 boot.val 14 = 0

/-- Both parsers refuse for the first reason, or go on to calculate. -/
theorem refusal_cases (boot : Sector) :
    (∃ why, refusal boot = some why ∧ Fatwalk.parse boot = Fatwalk.notFat32 why) ∨
      (refusal boot = none ∧ Shaped boot) := by
  delta refusal sectorsPerCluster fatSectors fatCount reservedSectors Fatwalk.parse
  dsimp only
  by_cases h1 : readU8 boot.val 510 ≠ 0x55 ∨ readU8 boot.val 511 ≠ 0xAA
  · exact .inl ⟨_, if_pos h1, if_pos h1⟩
  rw [if_neg h1, if_neg h1]
  by_cases h2 : readU16 boot.val 11 ≠ SECTOR
  · exact .inl ⟨_, if_pos h2, if_pos h2⟩
  rw [if_neg h2, if_neg h2]
  by_cases h3 : (readU8 boot.val 13).toNat = 0 ∨ ¬ isPowerOfTwo (readU8 boot.val 13).toNat = true
  · exact .inl ⟨_, if_pos h3, dif_pos h3⟩
  rw [if_neg h3, dif_neg h3]
  by_cases h4 : readU16 boot.val 17 ≠ 0
  · exact .inl ⟨_, if_pos h4, if_pos h4⟩
  rw [if_neg h4, if_neg h4]
  by_cases h5 : readU16 boot.val 22 ≠ 0
  · exact .inl ⟨_, if_pos h5, if_pos h5⟩
  rw [if_neg h5, if_neg h5]
  by_cases h6 : readU32 boot.val 36 = 0
  · exact .inl ⟨_, if_pos h6, if_pos h6⟩
  rw [if_neg h6, if_neg h6]
  by_cases h7 : (readU8 boot.val 16).toNat = 0 ∨ 2 < (readU8 boot.val 16).toNat
  · exact .inl ⟨_, if_pos h7, dif_pos h7⟩
  rw [if_neg h7, dif_neg h7]
  by_cases h8 : readU16 boot.val 14 = 0
  · exact .inl ⟨_, if_pos h8, dif_pos h8⟩
  rw [if_neg h8]
  exact .inr ⟨rfl, h1, h2, h3, h4, h5, h6, h7, h8⟩

/-- The checked parser is the parser: where the sum of clusters could overflow it never does. -/
theorem parse_eq (boot : Sector) :
    parse boot = (Fatwalk.parse boot).map Volume.geometry := by
  obtain ⟨why, hr, hold⟩ | ⟨hr, h⟩ := refusal_cases boot
  · rw [parse, hr, hold]
    rfl
  have htotal : (if readU16 boot.val 19 = 0 then readU32 boot.val 32 else readU16 boot.val 19) <
      2 ^ 32 := totalSectors_lt boot
  have hreserved := h.reserved
  have hfat := h.fat
  have hcount := (not_or.mp h.count).1
  have hcluster := (not_or.mp h.cluster).1
  have hproduct : 0 < (readU8 boot.val 16).toNat * readU32 boot.val 36 :=
    Nat.mul_pos (Nat.pos_of_ne_zero hcount) (Nat.pos_of_ne_zero hfat)
  rw [parse, hr]
  delta sectorsPerCluster fatSectors fatCount reservedSectors totalSectors rootCluster Fatwalk.parse
  dsimp only
  rw [if_neg h.signature, if_neg h.sector, dif_neg h.cluster, if_neg h.root, if_neg h.fat16,
    if_neg h.fat, dif_neg h.count, dif_neg h.reserved]
  by_cases hmul : 2 ^ 32 ≤ (readU8 boot.val 16).toNat * readU32 boot.val 36
  · rw [if_pos hmul, checkedMul, if_neg (Nat.not_lt.mpr hmul)]
    rfl
  rw [if_neg hmul, checkedMul_ok (Nat.lt_of_not_le hmul), Outcome.ok_bind]
  by_cases hadd : 2 ^ 32 ≤ readU16 boot.val 14 + (readU8 boot.val 16).toNat * readU32 boot.val 36
  · rw [if_pos hadd, checkedAdd, if_neg (Nat.not_lt.mpr hadd)]
    rfl
  rw [if_neg hadd, checkedAdd_ok (Nat.lt_of_not_le hadd), Outcome.ok_bind]
  by_cases hdata : (if readU16 boot.val 19 = 0 then readU32 boot.val 32 else readU16 boot.val 19) ≤
      readU16 boot.val 14 + (readU8 boot.val 16).toNat * readU32 boot.val 36
  · rw [if_pos hdata, dif_pos hdata]
    rfl
  have hlt := Nat.lt_of_not_le hdata
  rw [if_neg hdata, dif_neg hdata, checkedSub_ok hlt.le, Outcome.ok_bind]
  -- at least two sectors lie in front of the data, so two more clusters are no overflow
  have hle := Nat.div_le_self ((if readU16 boot.val 19 = 0 then readU32 boot.val 32 else readU16 boot.val 19) -
    (readU16 boot.val 14 + (readU8 boot.val 16).toNat * readU32 boot.val 36)) (readU8 boot.val 13).toNat
  rw [checkedAdd_ok (by omega), Outcome.ok_bind]
  by_cases hentries : 2 ^ 32 ≤ readU32 boot.val 36 * (SECTOR / 4)
  · rw [if_pos hentries, checkedMul, if_neg (Nat.not_lt.mpr hentries)]
    rfl
  rw [if_neg hentries, checkedMul_ok (Nat.lt_of_not_le hentries), Outcome.ok_bind]
  by_cases hsmall : readU32 boot.val 36 * (SECTOR / 4) < ((if readU16 boot.val 19 = 0 then readU32 boot.val 32 else readU16 boot.val 19) -
      (readU16 boot.val 14 + (readU8 boot.val 16).toNat * readU32 boot.val 36)) / (readU8 boot.val 13).toNat + 2
  · rw [if_pos hsmall, dif_pos hsmall]
    rfl
  rw [if_neg hsmall, dif_neg hsmall]
  by_cases hroot : masked (readU32 boot.val 44) < 2
  · rw [if_pos hroot, dif_pos (.inl hroot)]
    rfl
  rw [if_neg hroot, checkedSub_ok (Nat.le_of_not_lt hroot), Outcome.ok_bind]
  by_cases hindex : ((if readU16 boot.val 19 = 0 then readU32 boot.val 32 else readU16 boot.val 19) -
      (readU16 boot.val 14 + (readU8 boot.val 16).toNat * readU32 boot.val 36)) / (readU8 boot.val 13).toNat ≤ masked (readU32 boot.val 44) - 2
  · rw [if_pos hindex, dif_pos (.inr hindex)]
    rfl
  · rw [if_neg hindex, dif_neg (not_or.mpr ⟨hroot, hindex⟩)]
    rfl

/-- The geometry of the boot sector fits 32 bits, as far as the parser calculates. -/
def Fits (boot : Sector) : Prop :=
  refusal boot = none →
    reservedSectors boot + fatCount boot * fatSectors boot < 2 ^ 32 ∧
      (reservedSectors boot + fatCount boot * fatSectors boot < totalSectors boot →
        fatSectors boot * (SECTOR / 4) < 2 ^ 32)

/-- The parser overflows exactly when the geometry does not fit. -/
theorem clean_parse_iff (boot : Sector) : (parse boot).Clean ↔ Fits boot := by
  unfold Fits
  obtain ⟨why, hr, -⟩ | ⟨hr, h⟩ := refusal_cases boot
  · rw [parse, hr]
    constructor
    · intro _ hnone
      cases hnone
    · intro _
      trivial
  have htotal := totalSectors_lt boot
  have hpositive : 0 < fatCount boot * fatSectors boot :=
    Nat.mul_pos (Nat.pos_of_ne_zero (not_or.mp h.count).1) (Nat.pos_of_ne_zero h.fat)
  have hreserved : 0 < reservedSectors boot := Nat.pos_of_ne_zero h.reserved
  rw [parse, hr]
  dsimp only
  rw [eq_self_iff_true, true_imp_iff]
  by_cases hadd : reservedSectors boot + fatCount boot * fatSectors boot < 2 ^ 32
  · have hmul : fatCount boot * fatSectors boot < 2 ^ 32 := by omega
    rw [checkedMul_ok hmul, Outcome.ok_bind, checkedAdd_ok hadd, Outcome.ok_bind]
    by_cases hdata : totalSectors boot ≤ reservedSectors boot + fatCount boot * fatSectors boot
    · rw [if_pos hdata]
      exact ⟨fun _ => ⟨hadd, fun hlt => absurd hdata (Nat.not_le.mpr hlt)⟩, fun _ => trivial⟩
    have hlt := Nat.lt_of_not_le hdata
    have hle := Nat.div_le_self (totalSectors boot -
      (reservedSectors boot + fatCount boot * fatSectors boot)) (sectorsPerCluster boot)
    rw [if_neg hdata, checkedSub_ok hlt.le, Outcome.ok_bind, checkedAdd_ok (by omega),
      Outcome.ok_bind]
    constructor
    · intro hclean
      have hentries := (Outcome.clean_bind.mp hclean).1
      refine ⟨hadd, fun _ => ?_⟩
      by_contra hover
      rw [checkedMul, if_neg hover] at hentries
      exact hentries
    · rintro ⟨-, hentries⟩
      rw [checkedMul_ok (hentries hlt), Outcome.ok_bind]
      split
      · trivial
      split
      · trivial
      next hroot =>
      rw [checkedSub_ok (Nat.le_of_not_lt hroot), Outcome.ok_bind]
      split <;> trivial
  · constructor
    · intro hclean
      obtain ⟨-, hrest⟩ := Outcome.clean_bind.mp hclean
      by_cases hmul : fatCount boot * fatSectors boot < 2 ^ 32
      · have hsum := (Outcome.clean_bind.mp (hrest _ (checkedMul_ok hmul))).1
        exact absurd (clean_checkedAdd.mp hsum) hadd
      · rw [checkedMul, if_neg hmul] at hclean
        exact hclean.elim
    · rintro ⟨hlt, -⟩
      exact absurd hlt hadd

/-- What the walks need of a parsed volume: its numbers are those of the boot sector. -/
structure Small (v : Volume) : Prop where
  total_lt : v.totalSectors < 2 ^ 32
  cluster_lt : v.sectorsPerCluster < 2 ^ 8

theorem small_of_parse {v : Volume} (h : parse boot = .ok v.geometry) : Small v := by
  obtain ⟨why, hr, -⟩ | ⟨hr, -⟩ := refusal_cases boot
  · rw [parse, hr] at h
    cases h
  rw [parse, hr] at h
  obtain ⟨fats, -, h⟩ := Outcome.bind_eq_ok.mp h
  obtain ⟨dataStart, -, h⟩ := Outcome.bind_eq_ok.mp h
  split at h
  · cases h
  obtain ⟨data, -, h⟩ := Outcome.bind_eq_ok.mp h
  obtain ⟨needed, -, h⟩ := Outcome.bind_eq_ok.mp h
  obtain ⟨entries, -, h⟩ := Outcome.bind_eq_ok.mp h
  split at h
  · cases h
  split at h
  · cases h
  obtain ⟨index, -, h⟩ := Outcome.bind_eq_ok.mp h
  split at h
  · cases h
  have hgeometry := Except.ok.inj h
  have htotal : totalSectors boot = v.totalSectors := congrArg Geometry.totalSectors hgeometry
  have hcluster : sectorsPerCluster boot = v.sectorsPerCluster :=
    congrArg Geometry.sectorsPerCluster hgeometry
  constructor
  · exact htotal ▸ totalSectors_lt boot
  · exact hcluster ▸ UInt8.toNat_lt _

end Callback

end Eo9.Fatwalk
