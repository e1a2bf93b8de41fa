import Eo9.Fatwalk.Walk
import Eo9.Library.Chain

/-!
# The links of the first FAT

The successor that the first FAT gives a cluster, as a function of the image alone.
The chain of a file is a chain of these links, the walk over the root directory reads
no cluster that they do not reach, and both read the same from every image that
agrees on the FATs and on these clusters.
-/

namespace Eo9.Fatwalk

open Eo9.Library

variable {image image' : Image} {v : Volume} {cache cache' : FatCache} {cluster next n : Nat}

namespace Volume

/-- The entry of a cluster in the first FAT of an image. -/
def entryOf (v : Volume) (image : Image) (cluster : Nat) : Option Nat :=
  (image (v.reservedSectors + cluster / entriesPerSector)).map fun sector =>
    masked (readU32 sector.val (cluster % entriesPerSector * 4))

/-- The cluster that the first FAT puts behind a given one. -/
def linkOf (v : Volume) (image : Image) (cluster : Nat) : Option Nat :=
  (v.entryOf image cluster).bind fun next =>
    if FAT32_EOC ≤ next ∨ next = 0 ∨ next = FAT32_BAD ∨ ¬ v.validCluster next then none
    else some next

end Volume

/-- The cached sector is the image's. -/
def FatCache.Valid (image : Image) (cache : FatCache) : Prop :=
  ∀ sector, cache.lba = some sector → image sector = some cache.bytes

theorem FatCache.new_valid : FatCache.Valid image FatCache.new := nofun

theorem readSector_eq_ok {lba : Nat} {sector : Sector} :
    readSector image lba = .ok sector ↔ image lba = some sector := by
  unfold readSector
  cases image lba with
  | none => simp [Outcome.fail]
  | some found => simp

namespace Volume

theorem validCluster_iff : v.validCluster cluster ↔ 2 ≤ cluster ∧ cluster - 2 < v.clusterCount := by
  simp [validCluster]

theorem root_validCluster : v.validCluster v.rootCluster := validCluster_iff.mpr v.root_valid

/-- The entries of the volume's clusters lie in the FATs. -/
theorem entry_lt_dataStart (hvalid : v.validCluster cluster) :
    v.reservedSectors + cluster / entriesPerSector < v.dataStart := by
  have hfat := v.fat_large
  have hcount := Nat.mul_le_mul_right v.fatSectors v.fatCount_pos
  have hcluster := validCluster_iff.mp hvalid
  unfold dataStart entriesPerSector SECTOR at *
  omega

theorem clusterLba_ok (hvalid : v.validCluster cluster) :
    v.clusterLba cluster = .ok (v.lbaOf cluster) := by
  have hle := (validCluster_iff.mp hvalid).1
  simp [clusterLba, checkedSub_ok hle, lbaOf]

theorem fatEntry_ok (hcache : cache.Valid image)
    (h : v.fatEntry image cache cluster = .ok (n, cache')) :
    v.entryOf image cluster = some n ∧ cache'.Valid image := by
  simp only [fatEntry] at h
  split at h
  · obtain ⟨bytes, hbytes, h⟩ := Outcome.bind_eq_ok.mp h
    obtain ⟨rfl, rfl⟩ := Prod.mk.inj (Except.ok.inj h)
    have hread := readSector_eq_ok.mp hbytes
    exact ⟨by rw [entryOf, hread, Option.map_some],
      fun sector hsector => Option.some.inj hsector ▸ hread⟩
  · rename_i hlba
    obtain ⟨rfl, rfl⟩ := Prod.mk.inj (Except.ok.inj h)
    have hread := hcache _ (not_not.mp hlba)
    exact ⟨by rw [entryOf, hread, Option.map_some], hcache⟩

theorem fatEntry_congr (hvalid : v.validCluster cluster)
    (hfat : ∀ s < v.dataStart, image' s = image s) :
    v.fatEntry image' cache cluster = v.fatEntry image cache cluster := by
  simp only [fatEntry, readSector, hfat _ (entry_lt_dataStart hvalid)]

theorem nextCluster_none (h : v.nextCluster cluster n = .ok none) : FAT32_EOC ≤ n := by
  unfold nextCluster at h
  by_cases heoc : FAT32_EOC ≤ n
  · exact heoc
  · rw [if_neg heoc] at h
    split at h
    · cases h
    · split at h
      · cases h
      · exact absurd (Except.ok.inj h) nofun

theorem nextCluster_some (h : v.nextCluster cluster n = .ok (some next)) :
    next = n ∧ ¬ FAT32_EOC ≤ n ∧ n ≠ 0 ∧ n ≠ FAT32_BAD ∧ v.validCluster n := by
  unfold nextCluster at h
  split at h
  · exact absurd (Except.ok.inj h) nofun
  · rename_i heoc
    split at h
    · cases h
    · rename_i hzero
      split at h
      · cases h
      · rename_i hbad
        obtain ⟨hbad, hvalid⟩ := not_or.mp hbad
        exact ⟨(Option.some.inj (Except.ok.inj h)).symm, heoc, hzero, hbad, not_not.mp hvalid⟩

theorem linkOf_none (hentry : v.entryOf image cluster = some n)
    (h : v.nextCluster cluster n = .ok none) : v.linkOf image cluster = none := by
  rw [linkOf, hentry, Option.bind_some, if_pos (.inl (nextCluster_none h))]

theorem linkOf_some (hentry : v.entryOf image cluster = some n)
    (h : v.nextCluster cluster n = .ok (some next)) :
    v.linkOf image cluster = some next ∧ v.validCluster next := by
  obtain ⟨rfl, heoc, hzero, hbad, hvalid⟩ := nextCluster_some h
  refine ⟨?_, hvalid⟩
  rw [linkOf, hentry, Option.bind_some, if_neg]
  simp [heoc, hzero, hbad, hvalid]

theorem linkOf_valid (h : v.linkOf image cluster = some next) : v.validCluster next := by
  unfold linkOf at h
  obtain ⟨n, -, h⟩ := Option.bind_eq_some_iff.mp h
  split at h
  · cases h
  · rename_i hn
    obtain rfl := Option.some.inj h
    exact not_not.mp (not_or.mp (not_or.mp (not_or.mp hn).2).2).2

/-- The links stay between the clusters of the volume. -/
theorem reaches_valid (hvalid : v.validCluster cluster)
    (h : Reaches (v.linkOf image) cluster next) : v.validCluster next := by
  induction h with
  | refl => exact hvalid
  | tail hreach hlink ih => exact linkOf_valid hlink

/-- What `chainLoop` returns is the chain of links behind what it had. -/
theorem chainLoop_chain {fuel : Nat} {chain result : List Nat} (hcache : cache.Valid image)
    (h : v.chainLoop image fuel chain cluster cache = .ok result) :
    ∃ rest, result = chain ++ rest ∧ Chain (v.linkOf image) cluster rest := by
  induction fuel generalizing chain cluster cache with
  | zero => cases h
  | succ fuel ih =>
    simp only [chainLoop] at h
    split at h
    · cases h
    · obtain ⟨⟨n, cache'⟩, hentry, h⟩ := Outcome.bind_eq_ok.mp h
      obtain ⟨next, hnext, h⟩ := Outcome.bind_eq_ok.mp h
      obtain ⟨hentry, hcache'⟩ := fatEntry_ok hcache hentry
      cases next with
      | none =>
        obtain rfl := Except.ok.inj h
        exact ⟨[cluster], rfl, .last (linkOf_none hentry hnext)⟩
      | some next =>
        obtain ⟨rest, rfl, hrest⟩ := ih hcache' h
        exact ⟨cluster :: rest, by simp, .link (linkOf_some hentry hnext).1 hrest⟩

theorem chainLoop_congr {fuel : Nat} {chain : List Nat}
    (hfat : ∀ s < v.dataStart, image' s = image s) (hvalid : v.validCluster cluster) :
    v.chainLoop image' fuel chain cluster cache = v.chainLoop image fuel chain cluster cache := by
  induction fuel generalizing chain cluster cache with
  | zero => rfl
  | succ fuel ih =>
    simp only [chainLoop, fatEntry_congr hvalid hfat]
    split
    · rfl
    · refine bind_congr fun entry => ?_
      cases hnext : v.nextCluster cluster entry.1 with
      | error e => rfl
      | ok next =>
        cases next with
        | none => rfl
        | some next =>
          obtain ⟨rfl, -, -, -, hvalid'⟩ := nextCluster_some hnext
          exact ih hvalid'

theorem chain_congr {file : RootFile} (hfat : ∀ s < v.dataStart, image' s = image s) :
    v.chain image' file = v.chain image file := by
  unfold chain
  by_cases hvalid : v.validCluster file.firstCluster
  · simp only [chainLoop_congr hfat hvalid]
  · simp only [hvalid]
    rfl

/-- The chain of a located file: the links from its first cluster, in number what
its size needs. -/
theorem chain_ok {file : RootFile} {map : FileMap} (hpos : map.size ≠ 0)
    (h : v.chain image file = .ok map) :
    map.size = file.size ∧ Chain (v.linkOf image) file.firstCluster map.chain ∧
      v.validCluster file.firstCluster ∧
      map.chain.length = divCeil map.size v.clusterBytes := by
  unfold chain at h
  split at h
  · split at h
    · obtain rfl := Except.ok.inj h
      exact absurd rfl hpos
    · cases h
  · split at h
    · cases h
    · rename_i hvalid
      obtain ⟨clusters, hloop, h⟩ := Outcome.bind_eq_ok.mp h
      split at h
      · cases h
      · rename_i hlength
        obtain rfl := Except.ok.inj h
        obtain ⟨rest, rfl, hchain⟩ := chainLoop_chain FatCache.new_valid hloop
        exact ⟨rfl, hchain, not_not.mp hvalid, not_not.mp hlength⟩

/-- The links of the root directory and of the file meet. -/
def CrossLinked (v : Volume) (image : Image) (map : FileMap) : Prop :=
  ∃ cluster ∈ map.chain, Reaches (v.linkOf image) v.rootCluster cluster

/-- What the walk over the root directory and the walk along a chain read: the boot
sector, the FATs, and every cluster of the root directory. -/
def MetadataSector (v : Volume) (image : Image) (lba : Nat) : Prop :=
  lba = 0 ∨ (v.reservedSectors ≤ lba ∧ lba < v.dataStart) ∨
    ∃ cluster, Reaches (v.linkOf image) v.rootCluster cluster ∧
      v.lbaOf cluster ≤ lba ∧ lba < v.lbaOf cluster + v.sectorsPerCluster

theorem scanSectors_congr {want : Bytes} {lba : Nat} {sectors : List Nat}
    (hsame : ∀ s ∈ sectors, image' (lba + s) = image (lba + s)) :
    scanSectors image' want lba sectors = scanSectors image want lba sectors := by
  induction sectors with
  | nil => rfl
  | cons s rest ih =>
    have hread : readSector image' (lba + s) = readSector image (lba + s) := by
      rw [readSector, readSector, hsame s List.mem_cons_self]
    simp only [scanSectors, hread, ih fun s hs => hsame s (List.mem_cons_of_mem _ hs)]

theorem rootLoop_congr {want : Bytes} {fuel : Nat} (hcache : cache.Valid image)
    (hvalid : v.validCluster cluster) (hfat : ∀ s < v.dataStart, image' s = image s)
    (hroot : ∀ c, Reaches (v.linkOf image) cluster c → ∀ i < v.sectorsPerCluster,
      image' (v.lbaOf c + i) = image (v.lbaOf c + i)) :
    v.rootLoop image' want fuel cluster cache = v.rootLoop image want fuel cluster cache := by
  induction fuel generalizing cluster cache with
  | zero => rfl
  | succ fuel ih =>
    have hscan : scanSectors image' want (v.lbaOf cluster) (List.range v.sectorsPerCluster) =
        scanSectors image want (v.lbaOf cluster) (List.range v.sectorsPerCluster) :=
      scanSectors_congr fun s hs => hroot cluster .refl s (List.mem_range.mp hs)
    simp only [rootLoop, clusterLba_ok hvalid, Outcome.ok_bind, hscan,
      fatEntry_congr hvalid hfat]
    refine bind_congr fun found => ?_
    cases found with
    | some found => cases found <;> rfl
    | none =>
      simp only
      cases hentry : v.fatEntry image cache cluster with
      | error e => rfl
      | ok entry =>
        obtain ⟨hentry, hcache'⟩ := fatEntry_ok hcache hentry
        simp only [Outcome.ok_bind]
        cases hnext : v.nextCluster cluster entry.1 with
        | error e => rfl
        | ok next =>
          cases next with
          | none => rfl
          | some next =>
            obtain ⟨hlink, hvalid'⟩ := linkOf_some hentry hnext
            exact ih hcache' hvalid' fun c hc => hroot c (.head hlink hc)

/-- Locating a file reads metadata only. -/
theorem locate_congr {name : Bytes} (hfat : ∀ s < v.dataStart, image' s = image s)
    (hroot : ∀ c, Reaches (v.linkOf image) v.rootCluster c → ∀ i < v.sectorsPerCluster,
      image' (v.lbaOf c + i) = image (v.lbaOf c + i)) :
    v.locate image' name = v.locate image name := by
  simp only [locate, findRootFile, chain_congr hfat]
  cases nameTo83 name with
  | error e => rfl
  | ok want => simp only [rootLoop_congr FatCache.new_valid root_validCluster hfat hroot]

theorem open_congr (hboot : image' 0 = image 0) :
    Volume.«open» image' = Volume.«open» image := by
  simp only [Volume.«open», readSector, hboot]

theorem scanEntry_size {want entry : Bytes} {file : RootFile}
    (h : scanEntry want entry = some (.ok file)) : file.size < 2 ^ 32 := by
  unfold scanEntry at h
  split at h
  · cases Option.some.inj h
  · split at h
    · cases h
    · simp only at h
      split at h
      · cases h
      · split at h
        · cases h
        · split at h
          · cases Option.some.inj h
          · obtain rfl := Except.ok.inj (Option.some.inj h)
            have hlt := leValue_lt (sub entry 28 4)
            have hlength : (sub entry 28 4).length ≤ 4 := by simp [sub]
            calc leValue (sub entry 28 4)
                < 256 ^ (sub entry 28 4).length := hlt
              _ ≤ 256 ^ 4 := Nat.pow_le_pow_right (by omega) hlength
              _ = 2 ^ 32 := by norm_num

theorem scanSectors_size {want : Bytes} {lba : Nat} {sectors : List Nat} {file : RootFile}
    (h : scanSectors image want lba sectors = .ok (some (.ok file))) : file.size < 2 ^ 32 := by
  induction sectors with
  | nil => exact absurd (Except.ok.inj h) nofun
  | cons s rest ih =>
    simp only [scanSectors] at h
    obtain ⟨sector, -, h⟩ := Outcome.bind_eq_ok.mp h
    cases hscan : scanSector want sector with
    | none => exact ih (by simpa only [hscan] using h)
    | some found =>
      simp only [hscan] at h
      obtain rfl := Option.some.inj (Except.ok.inj h)
      obtain ⟨entry, -, hentry⟩ := List.exists_of_findSome?_eq_some hscan
      exact scanEntry_size hentry

theorem rootLoop_size {want : Bytes} {fuel : Nat} {file : RootFile}
    (h : v.rootLoop image want fuel cluster cache = .ok file) : file.size < 2 ^ 32 := by
  induction fuel generalizing cluster cache with
  | zero => cases h
  | succ fuel ih =>
    simp only [rootLoop] at h
    obtain ⟨lba, -, h⟩ := Outcome.bind_eq_ok.mp h
    obtain ⟨found, hfound, h⟩ := Outcome.bind_eq_ok.mp h
    match found, hfound with
    | some (.ok found), hfound =>
      obtain rfl := Except.ok.inj h
      exact scanSectors_size hfound
    | some (.error e), _ => cases h
    | none, _ =>
      obtain ⟨entry, -, h⟩ := Outcome.bind_eq_ok.mp h
      obtain ⟨next, -, h⟩ := Outcome.bind_eq_ok.mp h
      cases next with
      | none => cases h
      | some next => exact ih h

/-- What a located file with bytes in it looks like. -/
theorem locate_ok {name : Bytes} {map : FileMap} (hpos : map.size ≠ 0)
    (h : v.locate image name = .ok map) :
    map.size < 2 ^ 32 ∧ map.chain.Nodup ∧ (∀ cluster ∈ map.chain, v.validCluster cluster) ∧
      map.chain.length = divCeil map.size v.clusterBytes := by
  obtain ⟨file, hfile, hchain⟩ := Outcome.bind_eq_ok.mp h
  obtain ⟨hsize, hlinks, hvalid, hlength⟩ := chain_ok hpos hchain
  refine ⟨?_, hlinks.nodup, fun c hc => reaches_valid hvalid (hlinks.mem_iff.mp hc), hlength⟩
  rw [hsize]
  unfold findRootFile at hfile
  split at hfile
  · cases hfile
  · exact rootLoop_size hfile

end Volume

end Eo9.Fatwalk
