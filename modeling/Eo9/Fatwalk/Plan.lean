import Eo9.Fatwalk.Links

/-!
# The sectors of a plan

The runs of a file cover its sectors one by one and in order, whatever pieces its
chain is in, and the operations of a plan carry the data of these sectors.
-/

namespace Eo9.Fatwalk

open Eo9.Library

/-- The sectors of a run, each with its offset in the file. -/
def Run.pieces (run : Run) : List (Nat × Nat) :=
  (List.range run.sectors).map fun i => (run.lba + i, run.fileOffset + i * SECTOR)

/-- The sectors that an operation writes, each with its bytes. -/
def WriteOp.pieces (op : WriteOp) : List (Nat × Bytes) :=
  (List.range (op.data.length / SECTOR)).map fun i =>
    (op.lba + i, sub op.data (i * SECTOR) SECTOR)

def WriteOp.lbas (op : WriteOp) : List Nat := op.pieces.map (·.1)

/-- The sector of the volume that holds a sector of the file. -/
def Volume.sectorOf (v : Volume) (map : FileMap) (fileSector : Nat) : Nat :=
  v.lbaOf (map.chain.getD (fileSector / v.sectorsPerCluster) 0) +
    fileSector % v.sectorsPerCluster

/-- The runs hold the first sectors of the file, in order. -/
structure RunsCover (v : Volume) (map : FileMap) (n : Nat) (runs : List Run) : Prop where
  pieces : runs.flatMap Run.pieces =
    (List.range n).map fun k => (v.sectorOf map k, k * SECTOR)
  fits : ∀ run ∈ runs, run.fileOffset + run.sectors * SECTOR ≤ n * SECTOR
  last : ∀ run, runs.getLast? = some run → run.fileOffset + run.sectors * SECTOR = n * SECTOR

variable {v : Volume} {map : FileMap} {n : Nat} {runs : List Run} {data : Bytes}

theorem Run.pieces_grow (run : Run) :
    Run.pieces { run with sectors := run.sectors + 1 } =
      run.pieces ++ [(run.lba + run.sectors, run.fileOffset + run.sectors * SECTOR)] := by
  simp [Run.pieces, List.range_succ]

theorem RunsCover.nil : RunsCover v map 0 [] := ⟨rfl, nofun, nofun⟩

/-- One more sector, in the last run or in one of its own. -/
theorem RunsCover.push (h : RunsCover v map n runs) :
    RunsCover v map (n + 1) (Volume.pushSector runs (v.sectorOf map n) n) := by
  have hfits : ∀ run ∈ runs, run.fileOffset + run.sectors * SECTOR ≤ (n + 1) * SECTOR :=
    fun run hrun => (h.fits run hrun).trans (Nat.mul_le_mul_right _ (Nat.le_succ n))
  have hcover : runs.flatMap Run.pieces ++ [(v.sectorOf map n, n * SECTOR)] =
      (List.range (n + 1)).map fun k => (v.sectorOf map k, k * SECTOR) := by
    rw [h.pieces, List.range_succ, List.map_append]
    rfl
  have hone : (⟨v.sectorOf map n, 1, n * SECTOR⟩ : Run).pieces =
      [(v.sectorOf map n, n * SECTOR)] := by
    simp [Run.pieces]
  have hfresh : RunsCover v map (n + 1) (runs ++ [⟨v.sectorOf map n, 1, n * SECTOR⟩]) := by
    refine ⟨?_, fun run hrun => ?_, fun run hrun => ?_⟩
    · rw [List.flatMap_append, List.flatMap_singleton, hone, hcover]
    · rcases List.mem_append.mp hrun with hrun | hrun
      · exact hfits run hrun
      · obtain rfl := List.mem_singleton.mp hrun
        simp only [Nat.add_mul]
        exact le_rfl
    · rw [List.getLast?_concat] at hrun
      obtain rfl := Option.some.inj hrun
      simp only [Nat.add_mul]
  rcases runs.eq_nil_or_concat' with rfl | ⟨front, run, rfl⟩
  · exact hfresh
  · have hlast := h.last run List.getLast?_concat
    simp only [Volume.pushSector, List.getLast?_concat]
    split
    · -- The sector continues the run on the disk, and the run ends where it starts in the file.
      rename_i hcontinues
      rw [List.dropLast_concat]
      have hgrown : run.fileOffset + (run.sectors + 1) * SECTOR = (n + 1) * SECTOR := by
        rw [Nat.add_mul, Nat.add_mul, ← hlast, Nat.add_assoc]
      refine ⟨?_, fun other hother => ?_, fun other hother => ?_⟩
      · rw [← hcover, List.flatMap_append, List.flatMap_append, List.flatMap_singleton,
          List.flatMap_singleton, Run.pieces_grow, hcontinues, hlast, List.append_assoc]
      · rcases List.mem_append.mp hother with hother | hother
        · exact hfits other (List.mem_append_left _ hother)
        · obtain rfl := List.mem_singleton.mp hother
          exact hgrown.le
      · rw [List.getLast?_concat] at hother
        obtain rfl := Option.some.inj hother
        exact hgrown
    · exact hfresh

namespace Volume

/-- What a map must say for its runs to be found. -/
structure Mapped (v : Volume) (map : FileMap) : Prop where
  size_lt : map.size < 2 ^ 32
  nodup : map.chain.Nodup
  valid : ∀ cluster ∈ map.chain, v.validCluster cluster
  length : map.chain.length = divCeil map.size v.clusterBytes
  aligned : map.size % SECTOR = 0

variable (h : v.Mapped map)

include h

theorem Mapped.size_eq : map.size = map.size / SECTOR * SECTOR :=
  (Nat.div_mul_cancel (Nat.dvd_of_mod_eq_zero h.aligned)).symm

/-- The chain has a cluster for every sector of the file. -/
theorem Mapped.index_lt {k : Nat} (hk : k < map.size / SECTOR) :
    k / v.sectorsPerCluster < map.chain.length := by
  have hbytes : 0 < v.clusterBytes := Nat.mul_pos v.sectorsPerCluster_pos (by decide)
  rw [h.length, lt_divCeil_iff hbytes]
  calc k / v.sectorsPerCluster * v.clusterBytes
      = k / v.sectorsPerCluster * v.sectorsPerCluster * SECTOR := by
        rw [clusterBytes, Nat.mul_assoc]
    _ ≤ k * SECTOR := Nat.mul_le_mul_right _ (Nat.div_mul_le_self _ _)
    _ < map.size / SECTOR * SECTOR := Nat.mul_lt_mul_of_pos_right hk (by decide)
    _ = map.size := h.size_eq.symm

theorem Mapped.valid_at {k : Nat} (hindex : k / v.sectorsPerCluster < map.chain.length) :
    v.validCluster map.chain[k / v.sectorsPerCluster] :=
  h.valid _ (List.getElem_mem _)

theorem Mapped.sectorOf_eq {k : Nat} (hk : k < map.size / SECTOR)
    (hindex : k / v.sectorsPerCluster < map.chain.length := h.index_lt hk) :
    v.sectorOf map k = v.dataStart +
      ((map.chain[k / v.sectorsPerCluster] - 2) * v.sectorsPerCluster +
        k % v.sectorsPerCluster) := by
  rw [sectorOf, List.getD_eq_getElem?_getD, List.getElem?_eq_getElem hindex,
    Option.getD_some, lbaOf, Nat.add_assoc]

/-- Every sector of the file lies in the data region. -/
theorem Mapped.sectorOf_mem {k : Nat} (hk : k < map.size / SECTOR) :
    v.dataStart ≤ v.sectorOf map k ∧ v.sectorOf map k < v.totalSectors := by
  rw [h.sectorOf_eq hk]
  have hcluster := (validCluster_iff.mp (h.valid_at (h.index_lt hk))).2
  have hmod := Nat.mod_lt k v.sectorsPerCluster_pos
  have hfits := v.data_fits
  have hmul := Nat.mul_le_mul_right v.sectorsPerCluster (Nat.succ_le_of_lt hcluster)
  rw [Nat.succ_mul] at hmul
  unfold dataStart
  omega

/-- Two sectors of the file lie in different sectors of the volume. -/
theorem Mapped.sectorOf_inj {k k' : Nat} (hk : k < map.size / SECTOR)
    (hk' : k' < map.size / SECTOR) (heq : v.sectorOf map k = v.sectorOf map k') : k = k' := by
  rw [h.sectorOf_eq hk, h.sectorOf_eq hk'] at heq
  have heq := Nat.add_left_cancel heq
  have hdiv := congrArg (· / v.sectorsPerCluster) heq
  have hmod := congrArg (· % v.sectorsPerCluster) heq
  simp only [Nat.mul_add_mod_self_right, Nat.mod_mod] at hmod
  simp only [Nat.mul_comm _ v.sectorsPerCluster, Nat.mul_add_div v.sectorsPerCluster_pos,
    Nat.div_eq_of_lt (Nat.mod_lt _ v.sectorsPerCluster_pos), Nat.add_zero] at hdiv
  have hvalid := (validCluster_iff.mp (h.valid_at (h.index_lt hk))).1
  have hvalid' := (validCluster_iff.mp (h.valid_at (h.index_lt hk'))).1
  have hin := h.index_lt hk
  have hin' := h.index_lt hk'
  have hsame : map.chain[k / v.sectorsPerCluster] = map.chain[k' / v.sectorsPerCluster] := by
    omega
  have hindex := (h.nodup.getElem_inj_iff).mp hsame
  rw [← Nat.div_add_mod k v.sectorsPerCluster, ← Nat.div_add_mod k' v.sectorsPerCluster, hindex,
    hmod]

theorem Mapped.runStep_ok {k : Nat} (hk : k < map.size / SECTOR) :
    v.runStep map runs k = .ok (pushSector runs (v.sectorOf map k) k) := by
  rw [runStep, elemAt_ok (h.index_lt hk), Outcome.ok_bind,
    clusterLba_ok (h.valid_at (h.index_lt hk)), Outcome.ok_bind, sectorOf,
    List.getD_eq_getElem?_getD, List.getElem?_eq_getElem (h.index_lt hk), Option.getD_some]

theorem Mapped.foldlM_ok {k : Nat} (hk : k ≤ map.size / SECTOR) :
    ∃ runs, (List.range k).foldlM (v.runStep map) [] = .ok runs ∧ RunsCover v map k runs := by
  induction k with
  | zero => exact ⟨[], rfl, .nil⟩
  | succ k ih =>
    obtain ⟨runs, hruns, hcover⟩ := ih (by omega)
    refine ⟨_, ?_, hcover.push⟩
    rw [List.range_succ, List.foldlM_append, hruns, Outcome.ok_bind, List.foldlM_cons,
      h.runStep_ok (by omega), Outcome.ok_bind, List.foldlM_nil]
    rfl

/-- The runs of the whole file hold its sectors. -/
theorem Mapped.runs_ok (hpos : map.size ≠ 0) :
    ∃ runs, v.runs map 0 map.size = .ok runs ∧ RunsCover v map (map.size / SECTOR) runs := by
  obtain ⟨runs, hruns, hcover⟩ := h.foldlM_ok le_rfl
  refine ⟨runs, ?_, hcover⟩
  have hlt := h.size_lt
  have hlast : (0 + map.size - 1) / SECTOR + 1 - 0 = map.size / SECTOR := by
    have haligned := h.aligned
    unfold SECTOR at haligned ⊢
    omega
  rw [Volume.runs, if_neg (by omega), if_neg (by omega)]
  simp only [Nat.zero_div, hlast, ← List.range_eq_range']
  exact hruns

end Volume

def opOf (data : Bytes) (run : Run) : WriteOp :=
  ⟨run.lba, sub data run.fileOffset (run.sectors * SECTOR)⟩

theorem writeOp_ok {run : Run} (h : run.fileOffset + run.sectors * SECTOR ≤ data.length) :
    Volume.writeOp data run = .ok (opOf data run) := by
  rw [Volume.writeOp, rangeOf_ok (Nat.le_add_right _ _) h, Outcome.ok_bind,
    Nat.add_sub_cancel_left]
  rfl

theorem opOf_length {run : Run} (h : run.fileOffset + run.sectors * SECTOR ≤ data.length) :
    (opOf data run).data.length = run.sectors * SECTOR :=
  length_sub h

theorem opOf_pieces {run : Run} (h : run.fileOffset + run.sectors * SECTOR ≤ data.length) :
    (opOf data run).pieces = run.pieces.map fun p => (p.1, sub data p.2 SECTOR) := by
  rw [WriteOp.pieces, opOf_length h, Nat.mul_div_cancel _ (by decide), Run.pieces, List.map_map]
  refine List.map_congr_left fun i hi => Prod.ext rfl ?_
  have hi := List.mem_range.mp hi
  have hle := Nat.mul_le_mul_right SECTOR (Nat.succ_le_of_lt hi)
  ext j b
  simp only [opOf, getElem?_sub, Function.comp_apply]
  split
  · rw [if_pos (by rw [Nat.succ_mul] at hle; omega), Nat.add_assoc]
  · rfl

theorem Volume.Mapped.writePlan_ok (h : v.Mapped map) (hpos : map.size ≠ 0)
    (hlength : data.length = map.size) :
    ∃ runs, v.runs map 0 map.size = .ok runs ∧ RunsCover v map (map.size / SECTOR) runs ∧
      v.writePlan map data = .ok (runs.map (opOf data)) := by
  obtain ⟨runs, hruns, hcover⟩ := h.runs_ok hpos
  refine ⟨runs, hruns, hcover, ?_⟩
  rw [writePlan, if_neg (not_not.mpr hlength), if_neg (not_not.mpr h.aligned), hruns,
    Outcome.ok_bind]
  refine mapM_eq_pure fun run hrun => writeOp_ok ?_
  rw [hlength, h.size_eq]
  exact hcover.fits run hrun

section Cover

variable (hcover : RunsCover v map n runs) (hlength : data.length = n * SECTOR)

include hcover hlength

theorem RunsCover.fits_data : ∀ run ∈ runs,
    run.fileOffset + run.sectors * SECTOR ≤ data.length := by
  rw [hlength]
  exact hcover.fits

/-- The operations write every sector of the file with its part of the data. -/
theorem RunsCover.op_pieces : (runs.map (opOf data)).flatMap WriteOp.pieces =
    (List.range n).map fun k => (v.sectorOf map k, sub data (k * SECTOR) SECTOR) := by
  calc (runs.map (opOf data)).flatMap WriteOp.pieces
      = runs.flatMap fun run => run.pieces.map fun p => (p.1, sub data p.2 SECTOR) := by
        rw [List.flatMap_map]
        exact List.flatMap_congr fun run hrun =>
          opOf_pieces (hcover.fits_data hlength run hrun)
    _ = (runs.flatMap Run.pieces).map fun p => (p.1, sub data p.2 SECTOR) :=
        List.map_flatMap.symm
    _ = _ := by
        rw [hcover.pieces, List.map_map]
        rfl

theorem RunsCover.op_lbas : (runs.map (opOf data)).flatMap WriteOp.lbas =
    (List.range n).map (v.sectorOf map) := by
  calc (runs.map (opOf data)).flatMap WriteOp.lbas
      = ((runs.map (opOf data)).flatMap WriteOp.pieces).map (·.1) := List.map_flatMap.symm
    _ = _ := by
        rw [hcover.op_pieces hlength, List.map_map]
        rfl

theorem RunsCover.op_whole : ∀ op ∈ runs.map (opOf data), op.data.length % SECTOR = 0 := by
  intro op hop
  obtain ⟨run, hrun, rfl⟩ := List.mem_map.mp hop
  rw [opOf_length (hcover.fits_data hlength run hrun), Nat.mul_mod_left]

end Cover

theorem chunks_of_sectors (h : data.length = n * SECTOR) :
    (List.range n).map (fun k => sub data (k * SECTOR) SECTOR) = chunks SECTOR data := by
  have hceil : divCeil data.length SECTOR = n := by
    rw [h, divCeil, if_pos (Nat.mul_mod_left _ _), Nat.mul_div_cancel _ (by decide)]
  rw [chunks, hceil]

/-- The bytes of an operation of whole sectors, sector by sector. -/
theorem WriteOp.flatten_pieces {op : WriteOp} (h : op.data.length % SECTOR = 0) :
    (op.pieces.map (·.2)).flatten = op.data := by
  have hlength : op.data.length = op.data.length / SECTOR * SECTOR :=
    (Nat.div_mul_cancel (Nat.dvd_of_mod_eq_zero h)).symm
  rw [WriteOp.pieces, List.map_map]
  exact (congrArg List.flatten (chunks_of_sectors hlength)).trans
    (flatten_chunks (by decide) _)

/-- The bytes of the operations, one after the other, are the data. -/
theorem RunsCover.op_data (hcover : RunsCover v map n runs) (hlength : data.length = n * SECTOR) :
    ((runs.map (opOf data)).map (·.data)).flatten = data := by
  calc ((runs.map (opOf data)).map (·.data)).flatten
      = ((runs.map (opOf data)).map fun op => (op.pieces.map (·.2)).flatten).flatten := by
        refine congrArg List.flatten (List.map_congr_left fun op hop => ?_)
        exact (op.flatten_pieces (hcover.op_whole hlength op hop)).symm
    _ = (((runs.map (opOf data)).flatMap WriteOp.pieces).map (·.2)).flatten := by
        rw [List.map_flatMap, List.flatMap_def, List.flatten_flatten, List.map_map, List.map_map,
          List.map_map]
        rfl
    _ = (chunks SECTOR data).flatten := by
        rw [hcover.op_pieces hlength, List.map_map, ← chunks_of_sectors hlength]
        rfl
    _ = data := flatten_chunks (by decide) _

end Eo9.Fatwalk
