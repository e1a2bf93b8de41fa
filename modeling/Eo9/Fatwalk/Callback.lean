import Eo9.Library.Asking
import Eo9.Fatwalk.Links

/-!
# Walks through the sector callback

The parser and the walks with every sector asked for by itself, so that the device may answer
as it likes, and with every operation on 32-bit and 64-bit numbers checked. Against a device
that always gives the sectors of one image these are the walks over that image.
-/

namespace Eo9.Fatwalk

open Eo9.Library

/-- The fields of a volume. -/
structure Geometry where
  sectorsPerCluster : Nat
  reservedSectors : Nat
  fatCount : Nat
  fatSectors : Nat
  rootCluster : Nat
  totalSectors : Nat
  clusterCount : Nat
  deriving DecidableEq

def Volume.geometry (v : Volume) : Geometry :=
  ⟨v.sectorsPerCluster, v.reservedSectors, v.fatCount, v.fatSectors, v.rootCluster,
    v.totalSectors, v.clusterCount⟩

namespace Callback

section Parse

variable (boot : Sector)

def sectorsPerCluster : Nat := (readU8 boot.val 13).toNat

def fatSectors : Nat := readU32 boot.val 36

def fatCount : Nat := (readU8 boot.val 16).toNat

def reservedSectors : Nat := readU16 boot.val 14

def totalSectors : Nat :=
  if readU16 boot.val 19 = 0 then readU32 boot.val 32 else readU16 boot.val 19

def rootCluster : Nat := masked (readU32 boot.val 44)

/-- The first refusal of the parser, before it calculates. -/
def refusal : Option String :=
  if readU8 boot.val 510 ≠ 0x55 ∨ readU8 boot.val 511 ≠ 0xAA then
    some "missing 0x55AA boot signature"
  else if readU16 boot.val 11 ≠ SECTOR then some "bytes per sector is not 512"
  else if sectorsPerCluster boot = 0 ∨ ¬ isPowerOfTwo (sectorsPerCluster boot) then
    some "sectors per cluster is not a power of two"
  else if readU16 boot.val 17 ≠ 0 then some "root entry count is nonzero (FAT12/16 layout)"
  else if readU16 boot.val 22 ≠ 0 then some "16-bit FAT size is nonzero (FAT12/16 layout)"
  else if fatSectors boot = 0 then some "32-bit FAT size is zero"
  else if fatCount boot = 0 ∨ 2 < fatCount boot then some "FAT count is not 1 or 2"
  else if reservedSectors boot = 0 then some "zero reserved sectors"
  else none

def notFat32 (why : String) : Outcome Error Geometry := Outcome.fail (.fat (.notFat32 why))

/-- `Volume::parse` -/
def parse : Outcome Error Geometry :=
  match refusal boot with
  | some why => notFat32 why
  | none => do
      let fats ← checkedMul 32 (fatCount boot) (fatSectors boot)
      let dataStart ← checkedAdd 32 (reservedSectors boot) fats
      if totalSectors boot ≤ dataStart then notFat32 "no data region after the FATs"
      else
        let data ← checkedSub (totalSectors boot) dataStart
        let clusterCount := data / sectorsPerCluster boot
        let needed ← checkedAdd 32 clusterCount 2
        let entries ← checkedMul 32 (fatSectors boot) (SECTOR / 4)
        if entries < needed then notFat32 "FAT too small for the data region"
        else if rootCluster boot < 2 then notFat32 "root cluster out of range"
        else
          let index ← checkedSub (rootCluster boot) 2
          if clusterCount ≤ index then notFat32 "root cluster out of range"
          else
            .ok ⟨sectorsPerCluster boot, reservedSectors boot, fatCount boot, fatSectors boot,
              rootCluster boot, totalSectors boot, clusterCount⟩

end Parse

/-- A computation that asks for sectors; a device error is no sector. -/
abbrev Reading := Asking Nat (Option Sector) (Stop Error)

def fail {α : Type} (e : FatError) : Reading α := .stop (.err (.fat e))

def readSector (lba : Nat) : Reading Sector :=
  .ask lba fun answer => answer.elim (.stop (.err .device)) .done

/-- `Volume::open` -/
def «open» : Reading Geometry := do
  let boot ← readSector 0
  .ofExcept (parse boot)

variable (v : Volume)

def clusterLba (cluster : Nat) : Outcome Error Nat := do
  let fats ← checkedMul 32 v.fatCount v.fatSectors
  let dataStart ← checkedAdd 32 v.reservedSectors fats
  let rest ← checkedSub cluster 2
  let offset ← checkedMul 64 rest v.sectorsPerCluster
  checkedAdd 64 dataStart offset

def fatEntry (cache : FatCache) (cluster : Nat) : Reading (Nat × FatCache) := do
  let sector := v.reservedSectors + cluster / entriesPerSector
  let cache ←
    if cache.lba ≠ some sector then do
      let bytes ← readSector sector
      pure ⟨some sector, bytes⟩
    else pure cache
  pure (masked (readU32 cache.bytes.val (cluster % entriesPerSector * 4)), cache)

/-- The sectors of a directory cluster, up to the first that says something. -/
def scanSectors (want : Bytes) (lba : Nat) :
    List Nat → Reading (Option (Except FatError RootFile))
  | [] => pure none
  | s :: rest => do
      let lbaOfSector ← .ofExcept (checkedAdd 64 lba s)
      let sector ← readSector lbaOfSector
      match scanSector want sector with
      | some found => pure (some found)
      | none => scanSectors want lba rest

/-- The loop of `findRootFile`. -/
def rootLoop (want : Bytes) : (fuel : Nat) → Nat → FatCache → Reading RootFile
  | 0, _, _ => fail .chainCycle
  | fuel + 1, cluster, cache => do
      let lba ← .ofExcept (clusterLba v cluster)
      match ← scanSectors want lba (List.range v.sectorsPerCluster) with
      | some (.ok file) => pure file
      | some (.error e) => fail e
      | none =>
        let (next, cache) ← fatEntry v cache cluster
        match ← .ofExcept (v.nextCluster cluster next) with
        | none => fail .notFound
        | some next => rootLoop want fuel next cache

def findRootFile (name : Bytes) : Reading RootFile :=
  match nameTo83 name with
  | .error e => fail e
  | .ok want => rootLoop v want (v.clusterCount + 1) v.rootCluster FatCache.new

def chainLoop : (fuel : Nat) → List Nat → Nat → FatCache → Reading (List Nat)
  | 0, _, _, _ => .stop .diverge
  | fuel + 1, chain, cluster, cache => do
      let chain := chain ++ [cluster]
      if v.clusterCount < chain.length % 2 ^ 32 then fail .chainCycle
      else
        let (next, cache) ← fatEntry v cache cluster
        match ← .ofExcept (v.nextCluster cluster next) with
        | none => pure chain
        | some next => chainLoop fuel chain next cache

def chain (file : RootFile) : Reading FileMap := do
  let clusterBytes ← .ofExcept (checkedMul 32 v.sectorsPerCluster SECTOR)
  let needed := divCeil file.size clusterBytes % 2 ^ 32
  if file.size = 0 ∨ file.firstCluster = 0 then
    if file.size = 0 ∧ file.firstCluster = 0 then pure ⟨0, []⟩
    else fail (.chainSizeMismatch 0 file.size)
  else if ¬ v.validCluster file.firstCluster then fail (.badClusterInChain file.firstCluster)
  else
    let chain ← chainLoop v (v.clusterCount + 1) [] file.firstCluster FatCache.new
    if chain.length % 2 ^ 32 ≠ needed then
      fail (.chainSizeMismatch (chain.length % 2 ^ 32) file.size)
    else pure ⟨file.size, chain⟩

def locate (name : Bytes) : Reading FileMap := do
  let file ← findRootFile v name
  chain v file

/-- One more sector of the file, merged into the last run where it continues it. -/
def pushSector (runs : List Run) (lba fileSector : Nat) : Outcome Error (List Run) :=
  match runs.getLast? with
  | some run => do
      let behind ← checkedAdd 64 run.lba run.sectors
      if behind = lba then
        let sectors ← checkedAdd 32 run.sectors 1
        .ok (runs.dropLast ++ [{ run with sectors }])
      else .ok (runs ++ [⟨lba, 1, fileSector * SECTOR⟩])
  | none => .ok (runs ++ [⟨lba, 1, fileSector * SECTOR⟩])

/-- One round of `runs`. -/
def runStep (map : FileMap) (runs : List Run) (fileSector : Nat) : Outcome Error (List Run) := do
  let cluster ← elemAt map.chain (fileSector / v.sectorsPerCluster)
  let first ← clusterLba v cluster
  let lba ← checkedAdd 64 first (fileSector % v.sectorsPerCluster)
  pushSector runs lba fileSector

/-- The runs of sectors that hold a byte range of the file. -/
def runs (map : FileMap) (offset len : Nat) : Outcome Error (List Run) :=
  if 2 ^ 64 ≤ offset + len then Outcome.fail (.fat .outOfRange)
  else if len = 0 ∨ map.size < offset + len then Outcome.fail (.fat .outOfRange)
  else
    let first := offset / SECTOR
    let last := (offset + len - 1) / SECTOR
    (List.range' first (last + 1 - first)).foldlM (runStep v map) []

end Callback

end Eo9.Fatwalk
