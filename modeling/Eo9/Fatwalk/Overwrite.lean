import Eo9.Fatwalk.Plan

/-!
# What a plan overwrites

The operations of a plan put the data where the file is and change nothing else. They
stay off the metadata exactly when the links of the file and of the root directory
never meet.
-/

namespace Eo9.Fatwalk

open Eo9.Library

variable {v : Volume} {map : FileMap} {n : Nat} {image : Image} {runs : List Run} {data : Bytes}

theorem WriteOp.mem_pieces {op : WriteOp} {lba : Nat} {bytes : Bytes} :
    (lba, bytes) ∈ op.pieces ↔ op.lba ≤ lba ∧ (lba - op.lba + 1) * SECTOR ≤ op.data.length ∧
      bytes = sub op.data ((lba - op.lba) * SECTOR) SECTOR := by
  simp only [WriteOp.pieces, List.mem_map, List.mem_range, Prod.mk.injEq]
  constructor
  · rintro ⟨i, hi, rfl, rfl⟩
    have hfits := (Nat.le_div_iff_mul_le (by decide)).mp (Nat.succ_le_of_lt hi)
    rw [Nat.add_sub_cancel_left]
    exact ⟨Nat.le_add_right _ _, hfits, rfl⟩
  · rintro ⟨hle, hfits, rfl⟩
    exact ⟨lba - op.lba, (Nat.le_div_iff_mul_le (by decide)).mpr hfits, by omega, rfl⟩

theorem WriteOp.mem_lbas {op : WriteOp} {lba : Nat} :
    lba ∈ op.lbas ↔ op.lba ≤ lba ∧ (lba - op.lba + 1) * SECTOR ≤ op.data.length := by
  constructor
  · intro h
    obtain ⟨⟨at', bytes⟩, hpiece, rfl⟩ := List.mem_map.mp h
    obtain ⟨hle, hfits, -⟩ := WriteOp.mem_pieces.mp hpiece
    exact ⟨hle, hfits⟩
  · rintro ⟨hle, hfits⟩
    exact List.mem_map.mpr ⟨(lba, _), WriteOp.mem_pieces.mpr ⟨hle, hfits, rfl⟩, rfl⟩

theorem WriteOp.length_sub_iff {data : Bytes} {i : Nat} :
    (sub data (i * SECTOR) SECTOR).length = SECTOR ↔ (i + 1) * SECTOR ≤ data.length := by
  have hpos : 0 < SECTOR := by decide
  rw [sub, List.length_take, List.length_drop, Nat.succ_mul]
  omega

theorem WriteOp.apply_of_not_mem {op : WriteOp} {lba : Nat} (h : lba ∉ op.lbas) :
    op.apply image lba = image lba := by
  have hnone : op.sector lba = none := by
    rw [WriteOp.sector, dif_neg]
    exact fun hin => h (WriteOp.mem_lbas.mpr ⟨hin.1, WriteOp.length_sub_iff.mp hin.2⟩)
  rw [WriteOp.apply, hnone, Option.none_or]

theorem WriteOp.apply_of_mem {op : WriteOp} {lba : Nat} {bytes : Bytes}
    (h : (lba, bytes) ∈ op.pieces) : (op.apply image lba).map (·.val) = some bytes := by
  obtain ⟨hle, hfits, rfl⟩ := WriteOp.mem_pieces.mp h
  rw [WriteOp.apply, WriteOp.sector, dif_pos ⟨hle, WriteOp.length_sub_iff.mpr hfits⟩]
  rfl

theorem applyAll_of_not_mem {ops : List WriteOp} {lba : Nat}
    (h : lba ∉ ops.flatMap WriteOp.lbas) : applyAll ops image lba = image lba := by
  induction ops generalizing image with
  | nil => rfl
  | cons op ops ih =>
    rw [List.flatMap_cons, List.mem_append, not_or] at h
    rw [applyAll, List.foldl_cons, ← applyAll, ih h.2, WriteOp.apply_of_not_mem h.1]

/-- Operations that write no sector twice leave in each what they write there. -/
theorem applyAll_of_mem {ops : List WriteOp} {lba : Nat} {bytes : Bytes}
    (hnodup : (ops.flatMap WriteOp.lbas).Nodup)
    (h : (lba, bytes) ∈ ops.flatMap WriteOp.pieces) :
    (applyAll ops image lba).map (·.val) = some bytes := by
  induction ops generalizing image with
  | nil => exact absurd h List.not_mem_nil
  | cons op ops ih =>
    rw [List.flatMap_cons] at h hnodup
    rw [applyAll, List.foldl_cons, ← applyAll]
    obtain ⟨-, htail, hdisjoint⟩ := List.nodup_append.mp hnodup
    rcases List.mem_append.mp h with hhead | hrest
    · have hlba : lba ∈ op.lbas := List.mem_map.mpr ⟨_, hhead, rfl⟩
      rw [applyAll_of_not_mem fun hin => hdisjoint lba hlba lba hin rfl]
      exact WriteOp.apply_of_mem hhead
    · exact ih htail hrest

/-- The runs of a file read as its sectors, one after the other. -/
theorem RunsCover.readRuns_eq (hcover : RunsCover v map n runs) (content : Nat → Bytes)
    (hread : ∀ k < n, (image (v.sectorOf map k)).map (·.val) = some (content (k * SECTOR))) :
    readRuns image runs =
      some ((List.range n).map fun k => content (k * SECTOR)).flatten := by
  have hpieces : ∀ run ∈ runs, ∀ p ∈ run.pieces, (image p.1).map (·.val) = some (content p.2) := by
    intro run hrun p hp
    have hin : p ∈ runs.flatMap Run.pieces := List.mem_flatMap.mpr ⟨run, hrun, hp⟩
    rw [hcover.pieces] at hin
    obtain ⟨k, hk, rfl⟩ := List.mem_map.mp hin
    exact hread k (List.mem_range.mp hk)
  have hrun : ∀ run ∈ runs, readRun image run =
      some (run.pieces.map fun p => content p.2).flatten := by
    intro run hmem
    rw [readRun, mapM_eq_pure fun i hi => hpieces run hmem _ (List.mem_map.mpr ⟨i, hi, rfl⟩),
      Run.pieces, List.map_map]
    rfl
  calc readRuns image runs
      = some (runs.map fun run => (run.pieces.map fun p => content p.2).flatten).flatten := by
        rw [readRuns, mapM_eq_pure hrun]
        rfl
    _ = some ((runs.flatMap Run.pieces).map fun p => content p.2).flatten := by
        rw [List.map_flatMap, List.flatMap_def, List.flatten_flatten, List.map_map]
        rfl
    _ = _ := by
        rw [hcover.pieces, List.map_map]
        rfl

/-- The operations overwrite exactly the file with the data. -/
structure OverwritesFile (v : Volume) (image : Image) (name : Bytes) (map : FileMap)
    (data : Bytes) (ops : List WriteOp) : Prop where
  whole : ∀ op ∈ ops, op.data.length % SECTOR = 0
  disjoint : (ops.flatMap WriteOp.lbas).Nodup
  /-- Sector by sector the operations write the file's sectors, in the file's order. -/
  inOrder : ops.flatMap WriteOp.lbas = (List.range (map.size / SECTOR)).map (v.sectorOf map)
  covers : (ops.map (·.data)).flatten = data
  inData : ∀ lba ∈ ops.flatMap WriteOp.lbas, v.dataStart ≤ lba ∧ lba < v.totalSectors
  offMetadata : ∀ lba ∈ ops.flatMap WriteOp.lbas, ¬ v.MetadataSector image lba
  unchanged : ∀ lba, lba ∉ ops.flatMap WriteOp.lbas → applyAll ops image lba = image lba
  opened : Volume.«open» (applyAll ops image) = .ok v
  located : v.locate (applyAll ops image) name = .ok map
  readBack : ∃ runs, v.runs map 0 map.size = .ok runs ∧
    readRuns (applyAll ops image) runs = some data

namespace Volume

theorem dataStart_pos : 0 < v.dataStart :=
  Nat.lt_of_lt_of_le v.reservedSectors_pos (Nat.le_add_right _ _)

theorem Mapped.mem_lbas (h : v.Mapped map) {lba : Nat}
    (hlba : lba ∈ (List.range (map.size / SECTOR)).map (v.sectorOf map)) :
    v.dataStart ≤ lba ∧ lba < v.totalSectors ∧
      ∃ cluster ∈ map.chain, v.lbaOf cluster ≤ lba ∧
        lba < v.lbaOf cluster + v.sectorsPerCluster := by
  obtain ⟨k, hk, rfl⟩ := List.mem_map.mp hlba
  have hk := List.mem_range.mp hk
  obtain ⟨hstart, hstop⟩ := h.sectorOf_mem hk
  refine ⟨hstart, hstop, _, List.getElem_mem (h.index_lt hk), ?_⟩
  have hmod := Nat.mod_lt k v.sectorsPerCluster_pos
  rw [h.sectorOf_eq hk, lbaOf]
  omega

/-- Every cluster of the file is written in its first sector. -/
theorem Mapped.lbaOf_mem (h : v.Mapped map) {cluster : Nat} (hcluster : cluster ∈ map.chain) :
    v.lbaOf cluster ∈ (List.range (map.size / SECTOR)).map (v.sectorOf map) := by
  obtain ⟨i, hi, rfl⟩ := List.getElem_of_mem hcluster
  have hbytes : 0 < v.clusterBytes := Nat.mul_pos v.sectorsPerCluster_pos (by decide)
  have hlt := hi
  rw [h.length, lt_divCeil_iff hbytes, clusterBytes, ← Nat.mul_assoc, h.size_eq] at hlt
  have hsector := Nat.lt_of_mul_lt_mul_right hlt
  refine List.mem_map.mpr ⟨i * v.sectorsPerCluster, List.mem_range.mpr hsector, ?_⟩
  rw [h.sectorOf_eq hsector, lbaOf]
  simp only [Nat.mul_div_cancel _ v.sectorsPerCluster_pos, Nat.mul_mod_left, Nat.add_zero]

theorem lbaOf_inj {c c' lba : Nat} (hc : v.validCluster c) (hc' : v.validCluster c')
    (hlba : v.lbaOf c ≤ lba ∧ lba < v.lbaOf c + v.sectorsPerCluster)
    (hlba' : v.lbaOf c' ≤ lba ∧ lba < v.lbaOf c' + v.sectorsPerCluster) : c = c' := by
  unfold lbaOf at hlba hlba'
  have hle := (validCluster_iff.mp hc).1
  have hle' := (validCluster_iff.mp hc').1
  rcases Nat.lt_trichotomy (c - 2) (c' - 2) with hlt | heq | hlt
  · have := Nat.mul_le_mul_right v.sectorsPerCluster (Nat.succ_le_of_lt hlt)
    rw [Nat.succ_mul] at this
    omega
  · omega
  · have := Nat.mul_le_mul_right v.sectorsPerCluster (Nat.succ_le_of_lt hlt)
    rw [Nat.succ_mul] at this
    omega

/-- No sector of the file is metadata, unless the links meet. -/
theorem Mapped.not_metadata (h : v.Mapped map) (hlinks : ¬ v.CrossLinked image map) {lba : Nat}
    (hlba : lba ∈ (List.range (map.size / SECTOR)).map (v.sectorOf map)) :
    ¬ v.MetadataSector image lba := by
  obtain ⟨hstart, -, cluster, hcluster, hin⟩ := h.mem_lbas hlba
  rintro (rfl | ⟨-, hfat⟩ | ⟨c, hroot, hc⟩)
  · exact absurd hstart (Nat.not_le.mpr dataStart_pos)
  · exact absurd hstart (Nat.not_le.mpr hfat)
  · have hsame := lbaOf_inj (reaches_valid root_validCluster hroot) (h.valid cluster hcluster) hc hin
    exact hlinks ⟨cluster, hcluster, hsame ▸ hroot⟩

/-- A plan overwrites exactly the file, unless the links of the file and of the root
directory meet. -/
theorem Mapped.overwrites (h : v.Mapped map) {name : Bytes} (hopen : Volume.«open» image = .ok v)
    (hlocate : v.locate image name = .ok map) (hlength : data.length = map.size)
    (hruns : v.runs map 0 map.size = .ok runs)
    (hcover : RunsCover v map (map.size / SECTOR) runs) (hlinks : ¬ v.CrossLinked image map) :
    OverwritesFile v image name map data (runs.map (opOf data)) := by
  have hdata : data.length = map.size / SECTOR * SECTOR := hlength.trans h.size_eq
  have hlbas := hcover.op_lbas hdata
  have hnodup : ((runs.map (opOf data)).flatMap WriteOp.lbas).Nodup := by
    rw [hlbas]
    refine List.Nodup.map_on (fun k hk k' hk' heq => ?_) List.nodup_range
    exact h.sectorOf_inj (List.mem_range.mp hk) (List.mem_range.mp hk') heq
  have hoff : ∀ lba, v.MetadataSector image lba →
      applyAll (runs.map (opOf data)) image lba = image lba := by
    intro lba hmeta
    refine applyAll_of_not_mem fun hin => ?_
    rw [hlbas] at hin
    exact h.not_metadata hlinks hin hmeta
  have hbefore : ∀ s < v.dataStart, applyAll (runs.map (opOf data)) image s = image s := by
    intro s hs
    refine applyAll_of_not_mem fun hin => ?_
    rw [hlbas] at hin
    exact absurd (h.mem_lbas hin).1 (Nat.not_le.mpr hs)
  refine {
    whole := hcover.op_whole hdata
    disjoint := hnodup
    inOrder := hlbas
    covers := hcover.op_data hdata
    inData := ?_
    offMetadata := ?_
    unchanged := fun lba hlba => applyAll_of_not_mem hlba
    opened := (open_congr (hbefore 0 dataStart_pos)).trans hopen
    located := ?_
    readBack := ⟨runs, hruns, ?_⟩ }
  · rw [hlbas]
    exact fun lba hlba => ⟨(h.mem_lbas hlba).1, (h.mem_lbas hlba).2.1⟩
  · rw [hlbas]
    exact fun lba hlba => h.not_metadata hlinks hlba
  · refine (locate_congr hbefore fun c hc i hi => hoff _ ?_).trans hlocate
    exact .inr (.inr ⟨c, hc, Nat.le_add_right _ _, Nat.add_lt_add_left hi _⟩)
  · rw [hcover.readRuns_eq (fun at' => sub data at' SECTOR) ?_,
      chunks_of_sectors hdata, flatten_chunks (by decide)]
    intro k hk
    refine applyAll_of_mem hnodup ?_
    rw [hcover.op_pieces hdata]
    exact List.mem_map.mpr ⟨k, List.mem_range.mpr hk, rfl⟩

end Volume

/-- The plan for a located file overwrites exactly the file if and only if the links
from the root cluster and the links of the file lead to no common cluster. -/
theorem writePlan_overwrites {name : Bytes} (hopen : Volume.«open» image = .ok v)
    (hlocate : v.locate image name = .ok map) (hpos : map.size ≠ 0)
    (haligned : map.size % SECTOR = 0) (hlength : data.length = map.size) :
    (∃ ops, v.writePlan map data = .ok ops ∧ OverwritesFile v image name map data ops) ↔
      ¬ v.CrossLinked image map := by
  obtain ⟨hsize, hnodup, hvalid, hclusters⟩ := Volume.locate_ok hpos hlocate
  have hmap : v.Mapped map := ⟨hsize, hnodup, hvalid, hclusters, haligned⟩
  obtain ⟨runs, hruns, hcover, hplan⟩ := hmap.writePlan_ok hpos hlength
  constructor
  · rintro ⟨ops, -, hops⟩ ⟨cluster, hcluster, hroot⟩
    refine hops.offMetadata (v.lbaOf cluster) ?_ (.inr (.inr ⟨cluster, hroot, le_rfl, ?_⟩))
    · rw [hops.inOrder]
      exact hmap.lbaOf_mem hcluster
    · exact Nat.lt_add_of_pos_right v.sectorsPerCluster_pos
  · intro hlinks
    exact ⟨_, hplan, hmap.overwrites hopen hlocate hlength hruns hcover hlinks⟩

/-! ## A small volume

One cluster for the root directory, with one file in it, and one cluster more. -/

def smallBoot : Sector :=
  ⟨List.replicate 11 0 ++ [0, 2, 1, 1, 0, 1, 0, 0, 4] ++ List.replicate 16 0 ++ [1] ++
    List.replicate 7 0 ++ [2] ++ List.replicate 465 0 ++ [0x55, 0xAA], by decide +kernel⟩

def smallFat : Sector :=
  ⟨List.replicate 8 0 ++ [0xF8, 0xFF, 0xFF, 0x0F, 0xF8, 0xFF, 0xFF, 0x0F] ++
    List.replicate 496 0, by decide +kernel⟩

/-- A root directory whose only entry starts at a given cluster. -/
def smallRoot (first : UInt8) : Sector :=
  ⟨0x41 :: List.replicate 10 0x20 ++ List.replicate 15 0 ++ [first, 0, 0, 2, 0, 0] ++
    List.replicate 480 0, by
      simp only [List.length_append, List.length_cons, List.length_replicate, List.length_nil,
        SECTOR]⟩

def zeros : Sector := ⟨List.replicate SECTOR 0, length_zeros⟩

def smallImage (first : UInt8) : Image
  | 0 => some smallBoot
  | 1 => some smallFat
  | 2 => some (smallRoot first)
  | 3 => some zeros
  | _ => none

def smallVolume : Volume where
  sectorsPerCluster := 1
  reservedSectors := 1
  fatCount := 1
  fatSectors := 1
  rootCluster := 2
  totalSectors := 4
  clusterCount := 2
  sectorsPerCluster_pos := by decide
  reservedSectors_pos := by decide
  fatCount_pos := by decide
  data_fits := by decide
  fat_large := by decide
  root_valid := by decide

theorem smallVolume_linkOf : smallVolume.linkOf (smallImage 3) 2 = none := by decide +kernel

theorem writePlan_overwrites_small :
    ∃ ops, smallVolume.writePlan ⟨512, [3]⟩ (List.replicate 512 7) = .ok ops ∧
      OverwritesFile smallVolume (smallImage 3) [0x41] ⟨512, [3]⟩ (List.replicate 512 7) ops := by
  refine (writePlan_overwrites (by decide +kernel) (by decide +kernel) (by decide) (by decide)
    (by decide +kernel)).mpr ?_
  rintro ⟨cluster, hcluster, hroot⟩
  obtain rfl := List.mem_singleton.mp hcluster
  rcases Relation.ReflTransGen.cases_head hroot with heq | ⟨next, hlink, -⟩
  · exact absurd heq (by decide)
  · exact absurd (smallVolume_linkOf.symm.trans hlink) nofun

/-- An entry that starts at the root cluster has its own directory overwritten. -/
theorem crossLinked_overwrites_root :
    Volume.«open» (smallImage 2) = .ok smallVolume ∧
      smallVolume.locate (smallImage 2) [0x41] = .ok ⟨512, [2]⟩ ∧
      smallVolume.writePlan ⟨512, [2]⟩ zeros.val = .ok [⟨2, zeros.val⟩] ∧
      smallVolume.MetadataSector (smallImage 2) 2 ∧
      smallVolume.locate (applyAll [⟨2, zeros.val⟩] (smallImage 2)) [0x41] =
        Outcome.fail (.fat .notFound) ∧
      ¬ ∃ ops, smallVolume.writePlan ⟨512, [2]⟩ zeros.val = .ok ops ∧
        OverwritesFile smallVolume (smallImage 2) [0x41] ⟨512, [2]⟩ zeros.val ops := by
  have hplan : smallVolume.writePlan ⟨512, [2]⟩ zeros.val = .ok [⟨2, zeros.val⟩] := by
    decide +kernel
  have hlost : smallVolume.locate (applyAll [⟨2, zeros.val⟩] (smallImage 2)) [0x41] =
      Outcome.fail (.fat .notFound) := by
    decide +kernel
  refine ⟨by decide +kernel, by decide +kernel, hplan,
    .inr (.inr ⟨2, .refl, by decide, by decide⟩), hlost, ?_⟩
  rintro ⟨ops, hops, hover⟩
  obtain rfl := Except.ok.inj (hplan.symm.trans hops)
  exact absurd (hlost.symm.trans hover.located) nofun

end Eo9.Fatwalk
