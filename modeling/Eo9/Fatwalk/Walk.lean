import Eo9.Library.Bytes
import Eo9.Library.Endian

/-!
# FAT32 volumes

The parser of the boot sector and the walks of `eo9-fatwalk`. The image is read
sector by sector, and a sector outside of it is a device error. The source's plain
32-bit arithmetic panics on overflow.
-/

namespace Eo9.Fatwalk

open Eo9.Library

abbrev Bytes := List UInt8

def SECTOR : Nat := 512

/-- The bytes of one sector. -/
abbrev Sector := { bytes : Bytes // bytes.length = SECTOR }

/-- A volume image by sectors, relative to the boot sector. -/
abbrev Image := Nat → Option Sector

inductive FatError where
  | notFat32 (why : String)
  | badName
  | notFound
  | notAFile
  | freeClusterInChain (cluster : Nat)
  | badClusterInChain (cluster : Nat)
  | chainCycle
  | chainSizeMismatch (chainClusters fileSize : Nat)
  | outOfRange
  | sizeMismatch (data file : Nat)
  | unalignedSize (size : Nat)
  deriving DecidableEq

inductive Error where
  | device
  | fat (e : FatError)
  deriving DecidableEq

def FAT32_EOC : Nat := 0x0FFFFFF8

def FAT32_BAD : Nat := 0x0FFFFFF7

/-- The value of an entry without its reserved bits (`FAT32_MASK`). -/
def masked (n : Nat) : Nat := n % 2 ^ 28

def DIR_ENTRY : Nat := 32

def ATTR_LONG_NAME : UInt8 := 0x0F

def ATTR_DIRECTORY : UInt8 := 0x10

def ATTR_VOLUME_ID : UInt8 := 0x08

def readU8 (bytes : Bytes) (at' : Nat) : UInt8 := bytes.getD at' 0

def readU16 (bytes : Bytes) (at' : Nat) : Nat := leValue (sub bytes at' 2)

def readU32 (bytes : Bytes) (at' : Nat) : Nat := leValue (sub bytes at' 4)

def isUpper (b : UInt8) : Bool := 0x41 ≤ b && b ≤ 0x5A

def isLower (b : UInt8) : Bool := 0x61 ≤ b && b ≤ 0x7A

def isDigit (b : UInt8) : Bool := 0x30 ≤ b && b ≤ 0x39

def toUpper (b : UInt8) : UInt8 := if isLower b then b - 0x20 else b

/-- The conservative 8.3 charset: letters, digits and `_-~!#$%&@`. -/
def nameByte (up : UInt8) : Bool :=
  isUpper up || isDigit up ||
    [0x5F, 0x2D, 0x7E, 0x21, 0x23, 0x24, 0x25, 0x26, 0x40].contains up

/-- A part of a name, upcased and padded with spaces. -/
def namePart (width : Nat) (part : Bytes) : Bytes :=
  part.map toUpper ++ List.replicate (width - part.length) 0x20

/-- The 11-byte directory form of an 8.3 name. -/
def nameTo83 (name : Bytes) : Except FatError Bytes :=
  let base := name.takeWhile (· ≠ 0x2E)
  let ext := (name.dropWhile (· ≠ 0x2E)).drop 1
  if 1 < name.count 0x2E then .error .badName
  else if base.isEmpty ∨ 8 < base.length ∨ 3 < ext.length then .error .badName
  else if (base ++ ext).all (nameByte ∘ toUpper) then .ok (namePart 8 base ++ namePart 3 ext)
  else .error .badName

/-- A parsed volume, with what the parser checked. -/
structure Volume where
  sectorsPerCluster : Nat
  reservedSectors : Nat
  fatCount : Nat
  fatSectors : Nat
  rootCluster : Nat
  totalSectors : Nat
  clusterCount : Nat
  sectorsPerCluster_pos : 0 < sectorsPerCluster
  reservedSectors_pos : 0 < reservedSectors
  fatCount_pos : 0 < fatCount
  /-- The data region lies behind the FATs and inside of the volume. -/
  data_fits : reservedSectors + fatCount * fatSectors + clusterCount * sectorsPerCluster ≤
    totalSectors
  /-- Every cluster has an entry in the first FAT. -/
  fat_large : clusterCount + 2 ≤ fatSectors * (SECTOR / 4)
  root_valid : 2 ≤ rootCluster ∧ rootCluster - 2 < clusterCount
  deriving DecidableEq

section Parse

/-- Whether a number of sectors per cluster is a power of two. -/
def isPowerOfTwo (n : Nat) : Bool := [1, 2, 4, 8, 16, 32, 64, 128].contains n

def notFat32 (why : String) : Outcome Error Volume := Outcome.fail (.fat (.notFat32 why))

def parse (boot : Sector) : Outcome Error Volume :=
  let sectorsPerCluster := (readU8 boot.val 13).toNat
  let fatSectors := readU32 boot.val 36
  let fatCount := (readU8 boot.val 16).toNat
  let reservedSectors := readU16 boot.val 14
  let small := readU16 boot.val 19
  let totalSectors := if small = 0 then readU32 boot.val 32 else small
  let dataStart := reservedSectors + fatCount * fatSectors
  let clusterCount := (totalSectors - dataStart) / sectorsPerCluster
  let rootCluster := masked (readU32 boot.val 44)
  if readU8 boot.val 510 ≠ 0x55 ∨ readU8 boot.val 511 ≠ 0xAA then
    notFat32 "missing 0x55AA boot signature"
  else if readU16 boot.val 11 ≠ SECTOR then notFat32 "bytes per sector is not 512"
  else if hcluster : sectorsPerCluster = 0 ∨ ¬ isPowerOfTwo sectorsPerCluster then
    notFat32 "sectors per cluster is not a power of two"
  else if readU16 boot.val 17 ≠ 0 then
    notFat32 "root entry count is nonzero (FAT12/16 layout)"
  else if readU16 boot.val 22 ≠ 0 then
    notFat32 "16-bit FAT size is nonzero (FAT12/16 layout)"
  else if fatSectors = 0 then notFat32 "32-bit FAT size is zero"
  else if hcount : fatCount = 0 ∨ 2 < fatCount then notFat32 "FAT count is not 1 or 2"
  else if hreserved : reservedSectors = 0 then notFat32 "zero reserved sectors"
  else if 2 ^ 32 ≤ fatCount * fatSectors then
    Outcome.panic "attempt to multiply with overflow"
  else if 2 ^ 32 ≤ dataStart then Outcome.panic "attempt to add with overflow"
  else if hdata : totalSectors ≤ dataStart then notFat32 "no data region after the FATs"
  else if 2 ^ 32 ≤ fatSectors * (SECTOR / 4) then
    Outcome.panic "attempt to multiply with overflow"
  else if hfat : fatSectors * (SECTOR / 4) < clusterCount + 2 then
    notFat32 "FAT too small for the data region"
  else if hroot : rootCluster < 2 ∨ clusterCount ≤ rootCluster - 2 then
    notFat32 "root cluster out of range"
  else
    .ok {
      sectorsPerCluster, reservedSectors, fatCount, fatSectors, rootCluster, totalSectors,
      clusterCount
      sectorsPerCluster_pos := by omega
      reservedSectors_pos := by omega
      fatCount_pos := by omega
      data_fits := by
        have hdiv := Nat.div_mul_le_self (totalSectors - dataStart) sectorsPerCluster
        change clusterCount * sectorsPerCluster ≤ _ at hdiv
        omega
      fat_large := by omega
      root_valid := by omega }

end Parse

def readSector (image : Image) (lba : Nat) : Outcome Error Sector :=
  match image lba with
  | some sector => .ok sector
  | none => Outcome.fail .device

namespace Volume

/-- Read sector 0 and parse it. -/
def «open» (image : Image) : Outcome Error Volume := do
  let boot ← readSector image 0
  parse boot

def clusterBytes (v : Volume) : Nat := v.sectorsPerCluster * SECTOR

/-- The first sector behind the FATs. -/
def dataStart (v : Volume) : Nat := v.reservedSectors + v.fatCount * v.fatSectors

/-- The first sector of a cluster's data. -/
def lbaOf (v : Volume) (cluster : Nat) : Nat := v.dataStart + (cluster - 2) * v.sectorsPerCluster

def clusterLba (v : Volume) (cluster : Nat) : Outcome Error Nat := do
  let rest ← checkedSub cluster 2
  .ok (v.dataStart + rest * v.sectorsPerCluster)

def validCluster (v : Volume) (cluster : Nat) : Bool :=
  2 ≤ cluster && cluster - 2 < v.clusterCount

end Volume

/-!
## Locating a file and planning its overwrite

The walks over the root directory and over a file's cluster chain, the map of the
file to runs of sectors, and the plan of a same-size overwrite.
-/

structure FatCache where
  lba : Option Nat
  bytes : Sector

theorem length_zeros : (List.replicate SECTOR (0 : UInt8)).length = SECTOR :=
  List.length_replicate

def FatCache.new : FatCache := ⟨none, ⟨List.replicate SECTOR 0, length_zeros⟩⟩

structure RootFile where
  firstCluster : Nat
  size : Nat

structure FileMap where
  size : Nat
  chain : List Nat
  deriving DecidableEq

structure Run where
  lba : Nat
  sectors : Nat
  fileOffset : Nat

structure WriteOp where
  lba : Nat
  data : Bytes
  deriving DecidableEq

def entriesPerSector : Nat := SECTOR / 4

/-- What a directory entry says about a name; nothing for most of them. -/
def scanEntry (want entry : Bytes) : Option (Except FatError RootFile) :=
  if readU8 entry 0 = 0x00 then some (.error .notFound)
  else if readU8 entry 0 = 0xE5 then none
  else
    let attr := readU8 entry 11
    if attr &&& ATTR_LONG_NAME = ATTR_LONG_NAME then none
    else if entry.take 11 ≠ want then none
    else if attr &&& (ATTR_DIRECTORY ||| ATTR_VOLUME_ID) ≠ 0 then some (.error .notAFile)
    else
      some (.ok {
        firstCluster := masked (readU16 entry 20 * 2 ^ 16 + readU16 entry 26)
        size := readU32 entry 28 })

def scanSector (want : Bytes) (sector : Sector) : Option (Except FatError RootFile) :=
  (chunks DIR_ENTRY sector.val).findSome? (scanEntry want)

/-- The sectors of a directory cluster, up to the first that says something. -/
def scanSectors (image : Image) (want : Bytes) (lba : Nat) :
    List Nat → Outcome Error (Option (Except FatError RootFile))
  | [] => .ok none
  | s :: rest => do
      let sector ← readSector image (lba + s)
      match scanSector want sector with
      | some found => .ok (some found)
      | none => scanSectors image want lba rest

namespace Volume

def fatEntry (v : Volume) (image : Image) (cache : FatCache) (cluster : Nat) :
    Outcome Error (Nat × FatCache) := do
  let sector := v.reservedSectors + cluster / entriesPerSector
  let cache ←
    if cache.lba ≠ some sector then do
      let bytes ← readSector image sector
      .ok ⟨some sector, bytes⟩
    else .ok cache
  .ok (masked (readU32 cache.bytes.val (cluster % entriesPerSector * 4)), cache)

/-- The cluster behind a given one, or none at the end of its chain. -/
def nextCluster (v : Volume) (cluster next : Nat) : Outcome Error (Option Nat) :=
  if FAT32_EOC ≤ next then .ok none
  else if next = 0 then Outcome.fail (.fat (.freeClusterInChain cluster))
  else if next = FAT32_BAD ∨ ¬ v.validCluster next then
    Outcome.fail (.fat (.badClusterInChain next))
  else .ok (some next)

/-- The loop of `findRootFile`. -/
def rootLoop (v : Volume) (image : Image) (want : Bytes) :
    (fuel : Nat) → Nat → FatCache → Outcome Error RootFile
  | 0, _, _ => Outcome.fail (.fat .chainCycle)
  | fuel + 1, cluster, cache => do
      let lba ← v.clusterLba cluster
      match ← scanSectors image want lba (List.range v.sectorsPerCluster) with
      | some (.ok file) => .ok file
      | some (.error e) => Outcome.fail (.fat e)
      | none =>
        let (next, cache) ← v.fatEntry image cache cluster
        match ← v.nextCluster cluster next with
        | none => Outcome.fail (.fat .notFound)
        | some next => rootLoop v image want fuel next cache

def findRootFile (v : Volume) (image : Image) (name : Bytes) : Outcome Error RootFile :=
  match nameTo83 name with
  | .error e => Outcome.fail (.fat e)
  | .ok want => v.rootLoop image want (v.clusterCount + 1) v.rootCluster FatCache.new

/-- The loop of `chain`. A chain longer than the volume has clusters ends it. -/
def chainLoop (v : Volume) (image : Image) :
    (fuel : Nat) → List Nat → Nat → FatCache → Outcome Error (List Nat)
  | 0, _, _, _ => .error .diverge
  | fuel + 1, chain, cluster, cache => do
      let chain := chain ++ [cluster]
      if v.clusterCount < chain.length then Outcome.fail (.fat .chainCycle)
      else
        let (next, cache) ← v.fatEntry image cache cluster
        match ← v.nextCluster cluster next with
        | none => .ok chain
        | some next => chainLoop v image fuel chain next cache

def chain (v : Volume) (image : Image) (file : RootFile) : Outcome Error FileMap :=
  let needed := divCeil file.size v.clusterBytes
  if file.size = 0 ∨ file.firstCluster = 0 then
    if file.size = 0 ∧ file.firstCluster = 0 then .ok ⟨0, []⟩
    else Outcome.fail (.fat (.chainSizeMismatch 0 file.size))
  else if ¬ v.validCluster file.firstCluster then
    Outcome.fail (.fat (.badClusterInChain file.firstCluster))
  else do
    let chain ← v.chainLoop image (v.clusterCount + 1) [] file.firstCluster FatCache.new
    if chain.length ≠ needed then
      Outcome.fail (.fat (.chainSizeMismatch chain.length file.size))
    else .ok ⟨file.size, chain⟩

def locate (v : Volume) (image : Image) (name : Bytes) : Outcome Error FileMap := do
  let file ← v.findRootFile image name
  v.chain image file

/-- One more sector of the file, merged into the last run where it continues it. -/
def pushSector (runs : List Run) (lba fileSector : Nat) : List Run :=
  match runs.getLast? with
  | some run =>
    if run.lba + run.sectors = lba then
      runs.dropLast ++ [{ run with sectors := run.sectors + 1 }]
    else runs ++ [⟨lba, 1, fileSector * SECTOR⟩]
  | none => runs ++ [⟨lba, 1, fileSector * SECTOR⟩]

/-- One round of `runs`. -/
def runStep (v : Volume) (map : FileMap) (runs : List Run) (fileSector : Nat) :
    Outcome Error (List Run) := do
  let cluster ← elemAt map.chain (fileSector / v.sectorsPerCluster)
  let lba ← v.clusterLba cluster
  .ok (pushSector runs (lba + fileSector % v.sectorsPerCluster) fileSector)

/-- The runs of sectors that hold a byte range of the file. -/
def runs (v : Volume) (map : FileMap) (offset len : Nat) : Outcome Error (List Run) :=
  if 2 ^ 64 ≤ offset + len then Outcome.fail (.fat .outOfRange)
  else if len = 0 ∨ map.size < offset + len then Outcome.fail (.fat .outOfRange)
  else
    let first := offset / SECTOR
    let last := (offset + len - 1) / SECTOR
    (List.range' first (last + 1 - first)).foldlM (v.runStep map) []

def writeOp (data : Bytes) (run : Run) : Outcome Error WriteOp := do
  let data ← rangeOf data run.fileOffset (run.fileOffset + run.sectors * SECTOR)
  .ok ⟨run.lba, data⟩

/-- The same-size overwrite of the whole file. -/
def writePlan (v : Volume) (map : FileMap) (data : Bytes) : Outcome Error (List WriteOp) :=
  if data.length ≠ map.size then Outcome.fail (.fat (.sizeMismatch data.length map.size))
  else if map.size % SECTOR ≠ 0 then Outcome.fail (.fat (.unalignedSize map.size))
  else do
    let runs ← v.runs map 0 map.size
    runs.mapM (writeOp data)

end Volume

/-- What an operation leaves in a sector. -/
def WriteOp.sector (op : WriteOp) (lba : Nat) : Option Sector :=
  if h : op.lba ≤ lba ∧ (sub op.data ((lba - op.lba) * SECTOR) SECTOR).length = SECTOR then
    some ⟨_, h.2⟩
  else none

def WriteOp.apply (op : WriteOp) (image : Image) : Image := fun lba =>
  (op.sector lba).or (image lba)

/-- The image after the operations, in order. -/
def applyAll (ops : List WriteOp) (image : Image) : Image :=
  ops.foldl (fun image op => op.apply image) image

def readRun (image : Image) (run : Run) : Option Bytes :=
  ((List.range run.sectors).mapM fun i => (image (run.lba + i)).map (·.val)).map List.flatten

/-- The bytes of runs of sectors, one after the other. -/
def readRuns (image : Image) (runs : List Run) : Option Bytes :=
  (runs.mapM (readRun image)).map List.flatten

end Eo9.Fatwalk
