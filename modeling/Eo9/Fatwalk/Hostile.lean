import Eo9.Fatwalk.Geometry

/-!
# A hostile volume is refused

On a volume that the parser accepts every walk asks for sectors of the volume only, ends with a
value or a typed error whatever the device answers, and returns clusters and runs of the data
region.
-/

namespace Eo9.Fatwalk

open Eo9.Library

namespace Callback

/-- A typed error, neither a panic nor an endless loop. -/
def Typed (e : Stop Error) : Prop := ∃ x, e = .err x

/-- A walk over the volume: sectors of the volume, typed errors, and values that satisfy `R`. -/
def Safe {α : Type} (v : Volume) (R : α → Prop) (m : Reading α) : Prop :=
  m.Within (· < v.totalSectors) Typed R

section Sectors

variable {v : Volume} {cluster : Nat} {cache : FatCache}

theorem safe_fail {α : Type} {R : α → Prop} (e : FatError) : Safe v R (fail e : Reading α) :=
  ⟨_, rfl⟩

theorem safe_readSector {lba : Nat} (h : lba < v.totalSectors) :
    Safe v (fun _ => True) (readSector lba) := by
  refine ⟨h, ?_⟩
  intro answer
  cases answer with
  | none => exact ⟨_, rfl⟩
  | some sector => trivial

/-- The sectors of a cluster lie in the data region. -/
theorem lbaOf_bounds (hvalid : v.validCluster cluster) {s : Nat} (hs : s < v.sectorsPerCluster) :
    v.dataStart ≤ v.lbaOf cluster + s ∧ v.lbaOf cluster + s < v.totalSectors := by
  have hcluster := (Volume.validCluster_iff.mp hvalid).2
  have hfits := v.data_fits
  have hmul := Nat.mul_le_mul_right v.sectorsPerCluster (Nat.succ_le_of_lt hcluster)
  rw [Nat.succ_mul] at hmul
  unfold Volume.lbaOf Volume.dataStart
  omega

theorem clusterLba_eq (hv : Small v) (hvalid : v.validCluster cluster) :
    clusterLba v cluster = .ok (v.lbaOf cluster) := by
  have hfits := v.data_fits
  have htotal := hv.total_lt
  have hlba := (lbaOf_bounds hvalid v.sectorsPerCluster_pos).2
  have hle := (Volume.validCluster_iff.mp hvalid).1
  unfold Volume.lbaOf Volume.dataStart at hlba
  rw [clusterLba, checkedMul_ok (by omega), Outcome.ok_bind, checkedAdd_ok (by omega),
    Outcome.ok_bind, checkedSub_ok hle, Outcome.ok_bind, checkedMul_ok (by omega),
    Outcome.ok_bind, checkedAdd_ok (by omega)]
  rfl

theorem safe_fatEntry (hvalid : v.validCluster cluster) :
    Safe v (fun _ => True) (fatEntry v cache cluster) := by
  have hentry := Volume.entry_lt_dataStart hvalid
  have hfits := v.data_fits
  have hlt : v.reservedSectors + cluster / entriesPerSector < v.totalSectors := by
    unfold Volume.dataStart at hentry
    omega
  unfold fatEntry
  dsimp only
  split
  · apply Asking.Within.bind (safe_readSector hlt)
    intro bytes _
    trivial
  · trivial

theorem safe_nextCluster {next : Nat} :
    Safe v (fun found => ∀ next, found = some next → v.validCluster next = true)
      (.ofExcept (v.nextCluster cluster next)) := by
  refine Asking.within_ofExcept.mpr ⟨?_, ?_⟩
  · rintro found hfound next rfl
    obtain ⟨rfl, -, -, -, hvalid⟩ := Volume.nextCluster_some hfound
    exact hvalid
  · intro e he
    unfold Volume.nextCluster at he
    split at he
    · cases he
    split at he
    · cases he
      exact ⟨_, rfl⟩
    split at he
    · cases he
      exact ⟨_, rfl⟩
    · cases he

end Sectors

section Root

variable {v : Volume} {cluster : Nat} {cache : FatCache} {want : Bytes} {fuel : Nat}

/-- A file that a scan finds has a size of 32 bits. -/
def SizeOk (found : Option (Except FatError RootFile)) : Prop :=
  ∀ file, found = some (.ok file) → file.size < 2 ^ 32

theorem safe_scanSectors (hv : Small v) (hvalid : v.validCluster cluster) {sectors : List Nat}
    (hsectors : ∀ s ∈ sectors, s < v.sectorsPerCluster) :
    Safe v SizeOk (scanSectors want (v.lbaOf cluster) sectors) := by
  induction sectors with
  | nil =>
    intro file hfile
    cases hfile
  | cons s rest ih =>
    have hlba := (lbaOf_bounds hvalid (hsectors s List.mem_cons_self)).2
    have htotal := hv.total_lt
    rw [scanSectors, checkedAdd_ok (by omega), Asking.ofExcept_ok, Asking.done_bind]
    apply Asking.Within.bind (safe_readSector hlba)
    intro sector _
    cases hscan : scanSector want sector with
    | some found =>
      rintro file hfile
      obtain rfl := Option.some.inj hfile
      obtain ⟨entry, -, hentry⟩ := List.exists_of_findSome?_eq_some hscan
      exact Volume.scanEntry_size hentry
    | none => exact ih fun s hs => hsectors s (List.mem_cons_of_mem _ hs)

theorem safe_rootLoop (hv : Small v) (hvalid : v.validCluster cluster) :
    Safe v (fun file => file.size < 2 ^ 32) (rootLoop v want fuel cluster cache) := by
  induction fuel generalizing cluster cache with
  | zero => exact safe_fail _
  | succ fuel ih =>
    have hrange : ∀ s ∈ List.range v.sectorsPerCluster, s < v.sectorsPerCluster :=
      fun s hs => List.mem_range.mp hs
    rw [rootLoop, clusterLba_eq hv hvalid, Asking.ofExcept_ok, Asking.done_bind]
    apply Asking.Within.bind (safe_scanSectors hv hvalid hrange)
    intro found hfound
    match found, hfound with
    | some (.ok file), hfound => exact hfound file rfl
    | some (.error e), _ => exact safe_fail e
    | none, _ =>
      apply Asking.Within.bind (safe_fatEntry hvalid)
      intro entry _
      apply Asking.Within.bind safe_nextCluster
      intro next hnext
      cases next with
      | none => exact safe_fail _
      | some next => exact ih (hnext next rfl)

theorem safe_findRootFile (hv : Small v) (name : Bytes) :
    Safe v (fun file => file.size < 2 ^ 32) (findRootFile v name) := by
  unfold findRootFile
  cases nameTo83 name with
  | error e => exact safe_fail e
  | ok want => exact safe_rootLoop hv Volume.root_validCluster

end Root

section Chain

variable {v : Volume} {cluster : Nat} {cache : FatCache} {fuel : Nat}

/-- Clusters of the volume, not more than it has. -/
structure InRange (v : Volume) (chain : List Nat) : Prop where
  length_le : chain.length ≤ v.clusterCount
  valid : ∀ cluster ∈ chain, v.validCluster cluster

theorem clusterCount_lt (hv : Small v) : v.clusterCount + 1 < 2 ^ 32 := by
  have hreserved := v.reservedSectors_pos
  have hfits := v.data_fits
  have htotal := hv.total_lt
  have hle := Nat.le_mul_of_pos_right v.clusterCount v.sectorsPerCluster_pos
  omega

/-- A chain is returned before the walk has taken more steps than there are clusters. -/
theorem safe_chainLoop (hv : Small v) {chain : List Nat}
    (hfuel : chain.length + fuel = v.clusterCount + 1) (hle : chain.length ≤ v.clusterCount)
    (hchain : ∀ cluster ∈ chain, v.validCluster cluster) (hvalid : v.validCluster cluster) :
    Safe v (InRange v) (chainLoop v fuel chain cluster cache) := by
  induction fuel generalizing chain cluster cache with
  | zero => omega
  | succ fuel ih =>
    have hcount := clusterCount_lt hv
    have hlength : (chain ++ [cluster]).length = chain.length + 1 := List.length_append
    have hmod : (chain ++ [cluster]).length % 2 ^ 32 = chain.length + 1 := by
      rw [hlength]
      exact Nat.mod_eq_of_lt (by omega)
    have hclusters : ∀ c ∈ chain ++ [cluster], v.validCluster c := by
      intro c hc
      rcases List.mem_append.mp hc with hc | hc
      · exact hchain c hc
      · exact List.mem_singleton.mp hc ▸ hvalid
    rw [chainLoop]
    dsimp only
    rw [hmod]
    split
    · exact safe_fail _
    next hgo =>
    apply Asking.Within.bind (safe_fatEntry hvalid)
    intro entry _
    apply Asking.Within.bind safe_nextCluster
    intro next hnext
    cases next with
    | none => exact ⟨by omega, hclusters⟩
    | some next => exact ih (by omega) (by omega) hclusters (hnext next rfl)

/-- What the map of a file says about the volume. -/
structure Located (v : Volume) (map : FileMap) : Prop where
  size_lt : map.size < 2 ^ 32
  valid : ∀ cluster ∈ map.chain, v.validCluster cluster
  length : map.chain.length = divCeil map.size v.clusterBytes

theorem safe_chain (hv : Small v) {file : RootFile} (hsize : file.size < 2 ^ 32) :
    Safe v (Located v) (chain v file) := by
  have hcluster := hv.cluster_lt
  have hbytes : v.sectorsPerCluster * SECTOR < 2 ^ 32 := by
    unfold SECTOR
    omega
  have hpos : 0 < v.sectorsPerCluster * SECTOR := Nat.mul_pos v.sectorsPerCluster_pos (by decide)
  have hneeded : divCeil file.size (v.sectorsPerCluster * SECTOR) % 2 ^ 32 =
      divCeil file.size (v.sectorsPerCluster * SECTOR) := by
    apply Nat.mod_eq_of_lt
    have hle := (divCeil_le_iff (n := file.size) hpos).mpr (Nat.le_mul_of_pos_right _ hpos)
    omega
  rw [chain, checkedMul_ok hbytes, Asking.ofExcept_ok, Asking.done_bind]
  dsimp only
  rw [hneeded]
  split
  · split
    · next hempty =>
      refine ⟨by decide, nofun, ?_⟩
      exact (divCeil_zero v.clusterBytes).symm
    · exact safe_fail _
  split
  · exact safe_fail _
  next hvalid =>
  apply Asking.Within.bind (safe_chainLoop hv (by simp) (Nat.zero_le _) (by simp)
    (not_not.mp hvalid))
  intro chain hchain
  have hcount := clusterCount_lt hv
  have hmod : chain.length % 2 ^ 32 = chain.length :=
    Nat.mod_eq_of_lt (hchain.length_le.trans_lt (by omega))
  rw [hmod]
  split
  · exact safe_fail _
  next hlength =>
  exact ⟨hsize, hchain.valid, not_not.mp hlength⟩

theorem safe_locate (hv : Small v) (name : Bytes) : Safe v (Located v) (locate v name) := by
  apply Asking.Within.bind (safe_findRootFile hv name)
  intro file hfile
  exact safe_chain hv hfile

end Chain

section Runs

variable {v : Volume} {map : FileMap}

/-- A run of sectors of the data region. -/
def InData (v : Volume) (run : Run) : Prop :=
  v.dataStart ≤ run.lba ∧ run.lba + run.sectors ≤ v.totalSectors

/-- The chain has a cluster for every sector that holds a byte of the file. -/
theorem Located.index_lt (h : Located v map) {k : Nat} (hk : k * SECTOR < map.size) :
    k / v.sectorsPerCluster < map.chain.length := by
  have hpos : 0 < v.clusterBytes := Nat.mul_pos v.sectorsPerCluster_pos (by decide)
  rw [h.length, lt_divCeil_iff hpos]
  calc k / v.sectorsPerCluster * v.clusterBytes
      = k / v.sectorsPerCluster * v.sectorsPerCluster * SECTOR := by
        rw [Volume.clusterBytes, Nat.mul_assoc]
    _ ≤ k * SECTOR := Nat.mul_le_mul_right _ (Nat.div_mul_le_self _ _)
    _ < map.size := hk

/-- A sector of the data region makes a run longer, or a run of its own. -/
theorem pushSector_inData (hv : Small v) {runs : List Run} {lba : Nat} (fileSector : Nat)
    (hruns : ∀ run ∈ runs, InData v run) (hlba : v.dataStart ≤ lba ∧ lba < v.totalSectors) :
    ∃ runs', pushSector runs lba fileSector = .ok runs' ∧ ∀ run ∈ runs', InData v run := by
  have htotal := hv.total_lt
  have hfresh : ∀ run ∈ runs ++ [⟨lba, 1, fileSector * SECTOR⟩], InData v run := by
    intro run hrun
    rcases List.mem_append.mp hrun with hrun | hrun
    · exact hruns run hrun
    · obtain rfl := List.mem_singleton.mp hrun
      exact hlba
  unfold pushSector
  cases hlast : runs.getLast? with
  | none => exact ⟨_, rfl, hfresh⟩
  | some last =>
    have hdata := hruns last (List.mem_of_mem_getLast? hlast)
    have hend := hdata.2
    simp only [checkedAdd_ok (show last.lba + last.sectors < 2 ^ 64 by omega), Outcome.ok_bind]
    split
    · next hcontinues =>
      refine ⟨_, by rw [checkedAdd_ok (by omega), Outcome.ok_bind], ?_⟩
      intro run hrun
      rcases List.mem_append.mp hrun with hrun | hrun
      · exact hruns run (List.dropLast_subset _ hrun)
      · obtain rfl := List.mem_singleton.mp hrun
        have hgrown : last.lba + (last.sectors + 1) ≤ v.totalSectors := by omega
        exact ⟨hdata.1, hgrown⟩
    · exact ⟨_, rfl, hfresh⟩

theorem runStep_inData (hv : Small v) (h : Located v map) {runs : List Run} {k : Nat}
    (hk : k * SECTOR < map.size) (hruns : ∀ run ∈ runs, InData v run) :
    ∃ runs', runStep v map runs k = .ok runs' ∧ ∀ run ∈ runs', InData v run := by
  have hindex := h.index_lt hk
  have hvalid := h.valid _ (List.getElem_mem hindex)
  have hlba := lbaOf_bounds hvalid (Nat.mod_lt k v.sectorsPerCluster_pos)
  have htotal := hv.total_lt
  rw [runStep, elemAt_ok hindex, Outcome.ok_bind, clusterLba_eq hv hvalid, Outcome.ok_bind,
    checkedAdd_ok (by omega), Outcome.ok_bind]
  exact pushSector_inData hv k hruns hlba

/-- The runs of a located file end without a panic, and lie in the data region. -/
theorem runs_inData (hv : Small v) (h : Located v map) (offset len : Nat) :
    (runs v map offset len).Clean ∧
      ∀ rs, runs v map offset len = .ok rs → ∀ run ∈ rs, InData v run := by
  unfold runs
  split
  · exact ⟨trivial, fun _ hrs => by cases hrs⟩
  split
  · exact ⟨trivial, fun _ hrs => by cases hrs⟩
  next hrange =>
  have hsectors : ∀ k ∈ List.range' (offset / SECTOR)
      ((offset + len - 1) / SECTOR + 1 - offset / SECTOR), k * SECTOR < map.size := by
    intro k hk
    have hlast : k ≤ (offset + len - 1) / SECTOR := by
      have hbounds := List.mem_range'_1.mp hk
      omega
    have hmul := (Nat.le_div_iff_mul_le (by decide : 0 < SECTOR)).mp hlast
    omega
  have hstep : ∀ rs k, (∀ run ∈ rs, InData v run) → k ∈ List.range' (offset / SECTOR)
      ((offset + len - 1) / SECTOR + 1 - offset / SECTOR) →
        ∃ rs', runStep v map rs k = .ok rs' ∧ ∀ run ∈ rs', InData v run :=
    fun rs k hrs hk => runStep_inData hv h (hsectors k hk) hrs
  constructor
  · apply Outcome.clean_foldlM (p := fun rs => ∀ run ∈ rs, InData v run) (by simp)
    · intro rs k hrs hk
      obtain ⟨rs', hrs', -⟩ := hstep rs k hrs hk
      rw [hrs']
      trivial
    · intro rs k rs₂ hrs hk hok
      obtain ⟨rs', hrs', hdata⟩ := hstep rs k hrs hk
      rw [hrs'] at hok
      exact Except.ok.inj hok ▸ hdata
  · intro rs hrs
    apply Outcome.foldlM_invariant (p := fun rs => ∀ run ∈ rs, InData v run) (by simp) ?_ hrs
    intro rs k rs₂ hrs hk hok
    obtain ⟨rs', hrs', hdata⟩ := hstep rs k hrs hk
    rw [hrs'] at hok
    exact Except.ok.inj hok ▸ hdata

end Runs

section Image

variable {v : Volume} {image : Image} {cluster : Nat} {cache : FatCache} {fuel : Nat}

theorem run_readSector (lba : Nat) : (readSector lba).run image = Fatwalk.readSector image lba := by
  unfold readSector Fatwalk.readSector
  rw [Asking.run]
  cases image lba <;> rfl

theorem run_fatEntry : (fatEntry v cache cluster).run image = v.fatEntry image cache cluster := by
  unfold fatEntry Volume.fatEntry
  dsimp only
  split
  · rw [Asking.run_bind, run_readSector]
    rfl
  · rfl

theorem run_chainLoop (hv : Small v) {chain : List Nat}
    (hfuel : chain.length + fuel = v.clusterCount + 1) :
    (chainLoop v fuel chain cluster cache).run image =
      v.chainLoop image fuel chain cluster cache := by
  induction fuel generalizing chain cluster cache with
  | zero => rfl
  | succ fuel ih =>
    have hcount := clusterCount_lt hv
    have hlength : (chain ++ [cluster]).length = chain.length + 1 := List.length_append
    have hmod : (chain ++ [cluster]).length % 2 ^ 32 = (chain ++ [cluster]).length :=
      Nat.mod_eq_of_lt (by omega)
    rw [chainLoop, Volume.chainLoop]
    dsimp only
    rw [hmod]
    split
    · rfl
    · rw [Asking.run_bind, run_fatEntry]
      apply bind_congr
      intro entry
      rw [Asking.run_bind, Asking.run_ofExcept]
      apply bind_congr
      intro next
      cases next with
      | none => rfl
      | some next => exact ih (by omega)

theorem run_chain (hv : Small v) {file : RootFile} (hsize : file.size < 2 ^ 32) :
    (chain v file).run image = v.chain image file := by
  have hcluster := hv.cluster_lt
  have hbytes : v.sectorsPerCluster * SECTOR < 2 ^ 32 := by
    unfold SECTOR
    omega
  have hpos : 0 < v.sectorsPerCluster * SECTOR := Nat.mul_pos v.sectorsPerCluster_pos (by decide)
  have hneeded : divCeil file.size (v.sectorsPerCluster * SECTOR) % 2 ^ 32 =
      divCeil file.size v.clusterBytes := by
    apply Nat.mod_eq_of_lt
    have hle := (divCeil_le_iff (n := file.size) hpos).mpr (Nat.le_mul_of_pos_right _ hpos)
    omega
  rw [chain, checkedMul_ok hbytes, Asking.ofExcept_ok, Asking.done_bind]
  unfold Volume.chain
  dsimp only
  rw [hneeded]
  split
  · split <;> rfl
  split
  · rfl
  next hvalid =>
  have hsame : (chainLoop v (v.clusterCount + 1) [] file.firstCluster FatCache.new).run image =
      v.chainLoop image (v.clusterCount + 1) [] file.firstCluster FatCache.new :=
    run_chainLoop hv (by simp)
  rw [Asking.run_bind, hsame]
  cases hloop : v.chainLoop image (v.clusterCount + 1) [] file.firstCluster FatCache.new with
  | error e => rfl
  | ok chain =>
    have hsafe : Safe v (InRange v)
        (chainLoop v (v.clusterCount + 1) [] file.firstCluster FatCache.new) :=
      safe_chainLoop hv (by simp) (Nat.zero_le _) (by simp) (not_not.mp hvalid)
    have hrange := (hsafe.run image).1 chain (hsame.trans hloop)
    have hcount := clusterCount_lt hv
    have hmod : chain.length % 2 ^ 32 = chain.length :=
      Nat.mod_eq_of_lt (hrange.length_le.trans_lt (by omega))
    rw [Outcome.ok_bind, Outcome.ok_bind, hmod]
    split <;> rfl

theorem run_scanSectors (hv : Small v) (hvalid : v.validCluster cluster) {want : Bytes}
    {sectors : List Nat} (hsectors : ∀ s ∈ sectors, s < v.sectorsPerCluster) :
    (scanSectors want (v.lbaOf cluster) sectors).run image =
      Fatwalk.scanSectors image want (v.lbaOf cluster) sectors := by
  induction sectors with
  | nil => rfl
  | cons s rest ih =>
    have hlba := (lbaOf_bounds hvalid (hsectors s List.mem_cons_self)).2
    have htotal := hv.total_lt
    rw [scanSectors, Fatwalk.scanSectors, checkedAdd_ok (by omega), Asking.ofExcept_ok,
      Asking.done_bind, Asking.run_bind, run_readSector]
    apply bind_congr
    intro sector
    cases hscan : scanSector want sector with
    | some found => rfl
    | none => exact ih fun s hs => hsectors s (List.mem_cons_of_mem _ hs)

theorem run_rootLoop (hv : Small v) (hvalid : v.validCluster cluster) {want : Bytes} :
    (rootLoop v want fuel cluster cache).run image =
      v.rootLoop image want fuel cluster cache := by
  induction fuel generalizing cluster cache with
  | zero => rfl
  | succ fuel ih =>
    have hrange : ∀ s ∈ List.range v.sectorsPerCluster, s < v.sectorsPerCluster :=
      fun s hs => List.mem_range.mp hs
    rw [rootLoop, Volume.rootLoop, clusterLba_eq hv hvalid, Volume.clusterLba_ok hvalid,
      Asking.ofExcept_ok, Asking.done_bind, Outcome.ok_bind, Asking.run_bind,
      run_scanSectors hv hvalid hrange]
    apply bind_congr
    intro found
    cases found with
    | some result => cases result <;> rfl
    | none =>
      dsimp only
      rw [Asking.run_bind, run_fatEntry]
      apply bind_congr
      intro entry
      rw [Asking.run_bind, Asking.run_ofExcept]
      cases hnext : v.nextCluster cluster entry.1 with
      | error e => rfl
      | ok next =>
        cases next with
        | none => rfl
        | some next =>
          obtain ⟨rfl, -, -, -, hvalid'⟩ := Volume.nextCluster_some hnext
          exact ih hvalid'

theorem run_locate (hv : Small v) (name : Bytes) :
    (locate v name).run image = v.locate image name := by
  have hroot : (findRootFile v name).run image = v.findRootFile image name := by
    unfold findRootFile Volume.findRootFile
    cases nameTo83 name with
    | error e => rfl
    | ok want => exact run_rootLoop hv Volume.root_validCluster
  rw [locate, Volume.locate, Asking.run_bind, hroot]
  cases hfile : v.findRootFile image name with
  | error e => rfl
  | ok file =>
    rw [Outcome.ok_bind, Outcome.ok_bind]
    exact run_chain hv (((safe_findRootFile hv name).run image).1 file (hroot.trans hfile))

/-- No cluster comes twice in a chain of one image. -/
theorem chain_nodup {file : RootFile} {map : FileMap} (h : v.chain image file = .ok map) :
    map.chain.Nodup := by
  by_cases hpos : map.size = 0
  · unfold Volume.chain at h
    split at h
    · split at h
      · obtain rfl := Except.ok.inj h
        exact List.nodup_nil
      · cases h
    next hfile =>
    split at h
    · cases h
    obtain ⟨clusters, -, h⟩ := Outcome.bind_eq_ok.mp h
    split at h
    · cases h
    · obtain rfl := Except.ok.inj h
      exact absurd hpos (not_or.mp hfile).1
  · exact (Volume.chain_ok hpos h).2.1.nodup

end Image

/-- The walks over a volume, whatever the device answers. -/
structure SafeWalks (v : Volume) : Prop where
  root : ∀ name, Safe v (fun file => file.size < 2 ^ 32) (findRootFile v name)
  chain : ∀ file, file.size < 2 ^ 32 → Safe v (Located v) (chain v file)
  locate : ∀ name, Safe v (Located v) (locate v name)
  distinct : ∀ image file map, file.size < 2 ^ 32 → (Callback.chain v file).run image = .ok map →
    map.chain.Nodup
  distinct_locate : ∀ image name map, (Callback.locate v name).run image = .ok map →
    map.chain.Nodup
  runs : ∀ map, Located v map → ∀ offset len, (Callback.runs v map offset len).Clean ∧
    ∀ rs, Callback.runs v map offset len = .ok rs → ∀ run ∈ rs, InData v run

theorem safeWalks (v : Volume) (hv : Small v) : SafeWalks v where
  root := safe_findRootFile hv
  chain _ hsize := safe_chain hv hsize
  locate := safe_locate hv
  distinct image file map hsize h := chain_nodup ((run_chain hv hsize).symm.trans h)
  distinct_locate image name map h := by
    rw [run_locate hv] at h
    obtain ⟨file, -, hchain⟩ := Outcome.bind_eq_ok.mp h
    exact chain_nodup hchain
  runs _ h offset len := runs_inData hv h offset len

/-- Opening the boot sector ends with a value or a typed error, and a volume that is opened has
safe walks; opening asks for one of its sectors. -/
structure Sound (boot : Sector) : Prop where
  opens : Outcome.Clean («open».run fun _ => some boot)
  walks : ∀ g, («open».run fun _ => some boot) = .ok g → ∃ v : Volume, v.geometry = g ∧
    «open».Within (· < v.totalSectors) (fun _ => True) (fun _ => True) ∧ SafeWalks v

theorem run_open (boot : Sector) : («open».run fun _ => some boot) = parse boot := by
  change (Asking.ofExcept (parse boot) : Reading Geometry).run _ = _
  exact Asking.run_ofExcept _ _

theorem within_open {total : Nat} (h : 0 < total) :
    «open».Within (· < total) (fun _ => True) (fun _ => True) := by
  refine ⟨h, ?_⟩
  intro answer
  cases answer with
  | none => trivial
  | some boot => exact Asking.within_ofExcept.mpr ⟨fun _ _ => trivial, fun _ _ => trivial⟩

/-- Two FATs of 2^31 sectors. -/
def hugeBoot : Sector :=
  ⟨List.replicate 11 0 ++ [0, 2, 1, 1, 0, 2, 0, 0, 4] ++ List.replicate 16 0 ++ [0, 0, 0, 0x80] ++
    List.replicate 4 0 ++ [2] ++ List.replicate 465 0 ++ [0x55, 0xAA], by decide +kernel⟩

theorem not_sound_of_panic {boot : Sector} {site : String}
    (h : parse boot = Outcome.panic site) : ¬ Sound boot := by
  intro hsound
  have hclean := hsound.opens
  rw [run_open, h] at hclean
  exact hclean

end Callback

end Eo9.Fatwalk
