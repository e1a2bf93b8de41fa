import Eo9.Eofs.Verification

/-!
# The uberblock election

What a mount adopts, as a function of the bytes in the two slots, and what an
engine that a mount or a format hands out satisfies.
-/

namespace Eo9.Eofs

open Eo9.Library Outcome

theorem dvd_slot_of_isPowerOfTwo {n : Nat} (h : isPowerOfTwo n = true) (hle : n ≤ 4096) :
    n ∣ SLOT_SIZE := by
  have hpow : n = 2 ^ n.log2 := by simpa [isPowerOfTwo] using h
  have hlog : n.log2 ≤ 12 := by
    by_contra hgt
    have : 2 ^ 13 ≤ 2 ^ n.log2 := Nat.pow_le_pow_right (by omega) (by omega)
    omega
  rw [hpow]
  exact Nat.pow_dvd_pow 2 hlog

/-- An uberblock that a mount on a device of `size` bytes is willing to adopt. -/
structure Uberblock.Mountable (ub : Uberblock) (size : Nat) : Prop where
  block_pow : isPowerOfTwo ub.blockSize = true
  block_ge : 512 ≤ ub.blockSize
  block_le : ub.blockSize ≤ 2 ^ 20
  unit_pow : isPowerOfTwo ub.allocUnit = true
  unit_ge : 64 ≤ ub.allocUnit
  unit_le : ub.allocUnit ≤ 4096
  unit_le_block : ub.allocUnit ≤ ub.blockSize
  device_le : ub.deviceSize ≤ size
  frontier_le : ub.frontier ≤ size
  frontier_ge : DATA_START ≤ ub.frontier

namespace AsyncEofs

variable {D : Type} [BlockDevice D]

theorem Geometry.ofUberblock {dev : D} {ub : Uberblock}
    (h : ub.Mountable (BlockDevice.size dev)) : (ofUberblock dev ub).Geometry where
  block_ge := h.block_ge
  block_le := h.block_le
  unit_ge := h.unit_ge
  unit_dvd := dvd_slot_of_isPowerOfTwo h.unit_pow h.unit_le
  unit_le := h.unit_le_block
  start_le := h.frontier_ge.trans h.frontier_le
  device_size := rfl
  format_size := h.device_le
  alloc_unit := rfl
  alloc_size := rfl
  frontier_ge := h.frontier_ge
  frontier_le := h.frontier_le

section Election

variable [Primitives]

/-- A mount succeeds exactly when the election has a winner that it is willing
to adopt. -/
theorem mountWithReport_eq_ok_iff {dev : D} {fs : AsyncEofs D} {report : MountReport} :
    mountWithReport dev = .ok (fs, report) ↔ DATA_START ≤ BlockDevice.size dev ∧
      ∃ election ub, elect dev = .ok election ∧ election.best = some ub ∧
        ub.Mountable (BlockDevice.size dev) ∧ fs = ofUberblock dev ub ∧
        report = ⟨ub.txg, election.fellBack⟩ := by
  unfold mountWithReport
  constructor
  · intro h
    by_cases hsmall : BlockDevice.size dev < DATA_START
    · simp [hsmall, corrupt, Outcome.fail] at h
    · rw [if_neg hsmall] at h
      obtain ⟨election, helect, h⟩ := bind_eq_ok.mp h
      cases hbest : election.best with
      | none => simp [hbest, Outcome.fail] at h
      | some ub =>
        simp only [hbest, corrupt, Outcome.fail] at h
        split at h
        · cases h
        · split at h
          · cases h
          · split at h
            · cases h
            · obtain ⟨rfl, rfl⟩ := Prod.mk.inj (Except.ok.inj h)
              refine ⟨by omega, election, ub, helect, hbest, ?_, rfl, rfl⟩
              constructor <;> first | omega | simp_all
  · rintro ⟨hstart, election, ub, helect, hbest, hmount, rfl, rfl⟩
    have := hmount.block_ge
    have := hmount.block_le
    have := hmount.unit_ge
    have := hmount.unit_le
    have := hmount.unit_le_block
    have := hmount.device_le
    have := hmount.frontier_le
    have := hmount.frontier_ge
    rw [if_neg (by omega), helect, ok_bind]
    simp only [hbest]
    rw [if_neg (by simp [hmount.block_pow]; omega), if_neg (by simp [hmount.unit_pow]; omega),
      if_neg (by omega)]

theorem mount_eq_ok_iff {dev : D} {fs : AsyncEofs D} : mount dev = .ok fs ↔
    DATA_START ≤ BlockDevice.size dev ∧ ∃ election ub, elect dev = .ok election ∧
      election.best = some ub ∧ ub.Mountable (BlockDevice.size dev) ∧ fs = ofUberblock dev ub := by
  unfold mount
  rw [bind_eq_ok]
  constructor
  · rintro ⟨⟨fs', report⟩, h, hfs⟩
    obtain rfl := Except.ok.inj hfs
    obtain ⟨hstart, election, ub, helect, hbest, hmount, hfs, -⟩ := mountWithReport_eq_ok_iff.mp h
    exact ⟨hstart, election, ub, helect, hbest, hmount, hfs⟩
  · rintro ⟨hstart, election, ub, helect, hbest, hmount, hfs⟩
    exact ⟨(fs, _), mountWithReport_eq_ok_iff.mpr
      ⟨hstart, election, ub, helect, hbest, hmount, hfs, rfl⟩, rfl⟩

/-- The winner so far fits its fields. -/
theorem Election.visit_fits {e e' : Election} {slot : List UInt8}
    (h : ∀ ub, e.best = some ub → ub.Fits) (hvisit : e.visit slot = .ok e') :
    ∀ ub, e'.best = some ub → ub.Fits := by
  unfold Election.visit at hvisit
  split at hvisit
  · next ub hslot =>
    have hub := Uberblock.fits_of_classifySlot hslot
    split at hvisit
    · obtain rfl := Except.ok.inj hvisit
      rintro ub' heq
      rwa [← Option.some.inj heq]
    · split at hvisit
      · obtain rfl := Except.ok.inj hvisit
        rintro ub' heq
        rwa [← Option.some.inj heq]
      · obtain rfl := Except.ok.inj hvisit
        exact h
  · obtain rfl := Except.ok.inj hvisit
    exact h
  · obtain rfl := Except.ok.inj hvisit
    exact h
  · obtain rfl := Except.ok.inj hvisit
    exact h
  · cases hvisit
  · cases hvisit

theorem elect_fits {dev : D} {election : Election} (h : elect dev = .ok election) :
    ∀ ub, election.best = some ub → ub.Fits := by
  refine foldlM_invariant (p := fun e : Election => ∀ ub, e.best = some ub → ub.Fits)
    (by simp) ?_ h
  intro e i e' he _ hround
  obtain ⟨slot, -, hround⟩ := bind_eq_ok.mp hround
  exact Election.visit_fits he hround

def slotBytes [LawfulDevice D] (dev : D) (i : Nat) : List UInt8 :=
  slice (LawfulDevice.byte dev) (slotOffset i) SLOT_SIZE

/-- The election reads the two slots. -/
theorem elect_eq [LawfulDevice D] {dev : D} (hsize : DATA_START ≤ BlockDevice.size dev) :
    elect dev = (do
      let e ← (⟨none, none, false⟩ : Election).visit (slotBytes dev 0)
      e.visit (slotBytes dev 1)) := by
  have hdata : DATA_START = 8192 := rfl
  have hslot : SLOT_SIZE = 4096 := rfl
  have hread : ∀ i < 2, ofDevice (BlockDevice.readAt dev (slotOffset i) SLOT_SIZE) =
      .ok (slotBytes dev i) := by
    intro i hi
    rw [LawfulDevice.readAt_eq dev (slotOffset i) SLOT_SIZE (by rw [slotOffset, hslot]; omega)]
    rfl
  unfold elect
  rw [List.foldlM_cons, hread 0 (by omega), ok_bind]
  refine congrArg _ (funext fun e => ?_)
  rw [List.foldlM_cons, hread 1 (by omega), ok_bind]
  cases e.visit (slotBytes dev 1) <;> rfl

end Election

end AsyncEofs

/-!
## Hostile images

Over any bytes that a mount accepts, every call of `list`, `stat`, `read`,
`verify` and `gc` ends in a value or in a typed error, unless it comes to one
of the conditions named here: a data block shorter than its place in the
object implies, an extent that ends past the last address, or a total that
does not fit in its counter.
-/

namespace AsyncEofs

section Calls

variable {D : Type} [BlockDevice D] [Primitives]

/-- The engines that a mount of `dev` hands out, before and after collections. -/
inductive Served (dev : D) : AsyncEofs D → Prop
  | mounted {fs : AsyncEofs D} (h : mount dev = .ok fs) : Served dev fs
  | collected {fs fs' : AsyncEofs D} {r : Outcome FsError GcReport} (h : Served dev fs)
      (hrun : (gc : Engine D GcReport) fs = (r, fs')) : Served dev fs'

/-- A collection changes the free list only. -/
theorem gc_state (fs : AsyncEofs D) : ((gc : Engine D GcReport) fs).2 = fs ∨
    ∃ marked free, fs.markAll = .ok marked ∧ unmarked marked fs.alloc.frontier = .ok free ∧
      ((gc : Engine D GcReport) fs).2 = { fs with alloc := fs.alloc.setFree free } := by
  have hquery : (Action.query markAll : Engine D _) fs = (fs.markAll, fs) := rfl
  cases hmark : fs.markAll with
  | error e =>
    rw [hmark] at hquery
    exact .inl (congrArg Prod.snd (Action.bind_of_error hquery))
  | ok marked =>
    rw [hmark] at hquery
    have hfree : (Action.query fun fs : AsyncEofs D => unmarked marked fs.alloc.frontier :
        Engine D _) fs = (unmarked marked fs.alloc.frontier, fs) := rfl
    rw [gc, Action.bind_of_ok hquery]
    cases hunmarked : unmarked marked fs.alloc.frontier with
    | error e =>
      rw [hunmarked] at hfree
      exact .inl (congrArg Prod.snd (Action.bind_of_error hfree))
    | ok free =>
      rw [hunmarked] at hfree
      rw [Action.bind_of_ok hfree]
      have hsum : (liftM ((free.map Extent.len).foldlM (checkedAdd 64) 0 :
          Outcome FsError Nat) : Engine D Nat) fs =
          ((free.map Extent.len).foldlM (checkedAdd 64) 0, fs) := rfl
      cases htotal : ((free.map Extent.len).foldlM (checkedAdd 64) 0 :
          Outcome FsError Nat) with
      | error e =>
        rw [htotal] at hsum
        exact .inl (congrArg Prod.snd (Action.bind_of_error hsum))
      | ok total =>
        rw [htotal] at hsum
        exact .inr ⟨marked, free, rfl, hunmarked, congrArg Prod.snd (Action.bind_of_ok hsum)⟩

theorem Served.facts {dev : D} {fs : AsyncEofs D} (h : Served dev fs) :
    fs.Geometry ∧ fs.RootsFit := by
  induction h with
  | mounted h =>
    obtain ⟨-, election, ub, helect, hbest, hmount, rfl⟩ := mount_eq_ok_iff.mp h
    have hfits := elect_fits helect ub hbest
    exact ⟨.ofUberblock hmount, hfits.liveRoot, hfits.snapshots, hfits.liveRoot, hfits.snapshots⟩
  | @collected fs fs' r _ hrun ih =>
    obtain ⟨hgeo, hfit⟩ := ih
    have hstate := gc_state fs
    rw [hrun] at hstate
    rcases hstate with rfl | ⟨-, free, -, -, rfl⟩
    · exact ⟨hgeo, hfit⟩
    · exact ⟨⟨hgeo.block_ge, hgeo.block_le, hgeo.unit_ge, hgeo.unit_dvd, hgeo.unit_le,
        hgeo.start_le, hgeo.device_size, hgeo.format_size, hgeo.alloc_unit, hgeo.alloc_size,
        hgeo.frontier_ge, hgeo.frontier_le⟩,
        hfit.committedLiveRoot, hfit.committedSnapshots, hfit.liveRoot, hfit.snapshots⟩

/-- Every call over a hostile image is clean exactly when it comes to none of
the conditions that its code does not check. -/
theorem hostile_calls_clean_iff [LawfulDevice D] (dev : D) (fs : AsyncEofs D)
    (h : Served dev fs) :
    (∀ path, Clean (fs.list path) ↔
      ∀ dir, fs.ListReads fs.liveRoot path dir → ¬ fs.WholeShort dir) ∧
    (∀ path, Clean (fs.stat path) ↔
      ∀ dir, fs.PathReads fs.liveRoot path dir → ¬ fs.WholeShort dir) ∧
    (∀ path offset len, Clean (fs.read path offset len) ↔
      (∀ dir, fs.PathReads fs.liveRoot path dir → ¬ fs.WholeShort dir) ∧
      ∀ file, fs.LeadsToFile fs.liveRoot path file → ¬ fs.ShortRead file offset len) ∧
    (Clean fs.verify ↔ fs.verifyTotals.Fits) ∧
    (Clean ((gc : Engine D GcReport) fs).1 ↔
      (∀ dir, fs.GcReads dir → ¬ fs.WholeShort dir) ∧
      ∀ marked, fs.markAll = .ok marked → ∀ e ∈ marked, e.addr + e.len < 2 ^ 64) := by
  obtain ⟨hgeo, hfit⟩ := h.facts
  exact ⟨clean_listAtRoot hgeo hfit.liveRoot, clean_statAtRoot hgeo hfit.liveRoot,
    clean_readAtRoot hgeo hfit.liveRoot, clean_verify hgeo hfit, clean_gc hgeo hfit⟩

end Calls

section ShortLeaf

variable [Primitives]

/-- The data block: 50 zero bytes at the start of the data region. -/
def shortLeaf : BlockPtr := ⟨DATA_START, 50, 50, .raw, hash (List.replicate 50 0)⟩

/-- A root directory that claims to be twice as long. -/
def shortRoot : ObjRef := ⟨100, 0, shortLeaf⟩

def shortUberblock : Uberblock where
  blockSize := 512
  allocUnit := 64
  codec := .raw
  txg := 1
  frontier := DATA_START + 64
  deviceSize := DATA_START + 64
  liveRoot := shortRoot
  snapshots := ObjRef.EMPTY

/-- Its slot, and zeros. -/
def shortDevice : MemDevice where
  size := DATA_START + 64
  byte := overwrite (fun _ => 0) 0 shortUberblock.toSlotBytes
  size_lt := by decide

theorem shortUberblock_fits : shortUberblock.Fits := by
  have hleaf : shortLeaf.Fits :=
    ⟨(by decide : (8192 : Nat) < 2 ^ 64), (by decide : (50 : Nat) < 2 ^ 32),
      (by decide : (50 : Nat) < 2 ^ 32)⟩
  have hroot : shortRoot.Fits :=
    ⟨(by decide : (100 : Nat) < 2 ^ 64), (by decide : (0 : Nat) < 2 ^ 8), hleaf⟩
  exact ⟨(by decide : (512 : Nat) < 2 ^ 32), (by decide : (64 : Nat) < 2 ^ 32),
    (by decide : (1 : Nat) < 2 ^ 64), (by decide : (8256 : Nat) < 2 ^ 64),
    (by decide : (8256 : Nat) < 2 ^ 64), hroot, ObjRef.fits_empty⟩

theorem shortUberblock_mountable : shortUberblock.Mountable (BlockDevice.size shortDevice) where
  block_pow := (by decide : isPowerOfTwo 512 = true)
  block_ge := (by decide : (512 : Nat) ≤ 512)
  block_le := (by decide : (512 : Nat) ≤ 2 ^ 20)
  unit_pow := (by decide : isPowerOfTwo 64 = true)
  unit_ge := (by decide : (64 : Nat) ≤ 64)
  unit_le := (by decide : (64 : Nat) ≤ 4096)
  unit_le_block := (by decide : (64 : Nat) ≤ 512)
  device_le := (by decide : (8256 : Nat) ≤ 8256)
  frontier_le := (by decide : (8256 : Nat) ≤ 8256)
  frontier_ge := (by decide : (8192 : Nat) ≤ 8256)

/-- Past the first slot the device holds zeros. -/
theorem shortDevice_zero {i : Nat} (h : SLOT_SIZE ≤ i) : shortDevice.byte i = 0 := by
  have hout : overwrite (fun _ => (0 : UInt8)) 0 shortUberblock.toSlotBytes i = 0 := by
    refine overwrite_outside (.inr ?_)
    rw [Uberblock.length_toSlotBytes]
    omega
  exact hout

/-- A device with an uberblock in its first slot and zeros in its second mounts. -/
theorem mount_of_slot [BlockDevice D] [LawfulDevice D] {dev : D} {ub : Uberblock} (hfits : ub.Fits)
    (hmount : ub.Mountable (BlockDevice.size dev)) (hsize : DATA_START ≤ BlockDevice.size dev)
    (hslot : slotBytes dev 0 = ub.toSlotBytes)
    (hzero : LawfulDevice.byte dev SLOT_SIZE = 0) :
    mount dev = .ok (ofUberblock dev ub) := by
  have hslot1 : Uberblock.classifySlot (slotBytes dev 1) = .ok .noMagic := by
    have hne : sub (slotBytes dev 1) 0 8 ≠ MAGIC := by
      intro heq
      have hfirst : (sub (slotBytes dev 1) 0 8)[0]? = some 0 := by
        rw [getElem?_sub, if_pos (by omega), slotBytes, getElem?_slice (by decide)]
        exact congrArg some hzero
      rw [heq] at hfirst
      exact absurd hfirst (by decide)
    rw [Uberblock.classifySlot, if_pos (.inr hne)]
  have hvisit0 : (⟨none, none, false⟩ : Election).visit (slotBytes dev 0) =
      .ok ⟨some ub, none, false⟩ := by
    rw [Election.visit, hslot, Uberblock.classifySlot_toSlotBytes hfits]
  have hvisit1 : (⟨some ub, none, false⟩ : Election).visit (slotBytes dev 1) =
      .ok ⟨some ub, none, false⟩ := by
    rw [Election.visit, hslot1]
  refine mount_eq_ok_iff.mpr ⟨hsize, ⟨some ub, none, false⟩, ub, ?_, rfl, hmount, rfl⟩
  rw [elect_eq hsize, hvisit0, ok_bind, hvisit1]

theorem mount_shortDevice : mount shortDevice = .ok (ofUberblock shortDevice shortUberblock) := by
  refine mount_of_slot shortUberblock_fits shortUberblock_mountable
    (by decide : (8192 : Nat) ≤ 8256) ?_ (shortDevice_zero (Nat.le_refl _))
  have := slice_overwrite (fun _ => 0) 0 shortUberblock.toSlotBytes
  rwa [Uberblock.length_toSlotBytes] at this

/-- The engine that mounts the image. -/
def shortFs : AsyncEofs MemDevice := ofUberblock shortDevice shortUberblock

theorem readBlock_shortLeaf : shortFs.readBlock shortLeaf = .ok (List.replicate 50 0) := by
  have hptr : shortFs.PtrOk shortLeaf :=
    ⟨(by decide : 0 < 50), (by decide : 50 ≤ 512), (by decide : 0 < 50), (by decide : 50 ≤ 512),
      (by decide : 8192 ≤ 8192), (by decide : 8192 % 64 = 0), (by decide : 8192 + 50 < 2 ^ 64),
      (by decide : 8192 + 50 ≤ 8256)⟩
  have hread : BlockDevice.readAt shortDevice DATA_START 50 =
      .ok (List.replicate 50 (0 : UInt8)) := by
    rw [LawfulDevice.readAt_eq shortDevice DATA_START 50 (by decide : 8192 + 50 ≤ 8256)]
    refine congrArg Except.ok (List.ext_getElem (by simp) fun i h₁ h₂ => ?_)
    rw [List.getElem_replicate]
    simp only [slice, List.getElem_map, List.getElem_range]
    exact shortDevice_zero (Nat.le_trans (by decide) (Nat.le_add_right DATA_START i))
  refine readBlock_eq_ok_iff.mpr ⟨hptr, _, hread, ?_, rfl⟩
  exact decodeBlock_eq_ok_iff.mpr (.inl ⟨rfl, rfl, rfl⟩)

theorem checkObject_shortRoot : shortFs.checkObject shortRoot = .ok 1 := by
  have hgeo : shortFs.Geometry := .ofUberblock shortUberblock_mountable
  have hcount : divCeil shortRoot.size shortFs.blockSize = 1 := (by decide : divCeil 100 512 = 1)
  have hroom : shortFs.maxLeaves = 1 := (by decide : (8256 - 8192) / 64 = 1)
  have hwalk : shortFs.Walkable shortRoot := by
    refine ⟨(by decide : 0 < 100), rfl, ?_, ?_⟩
    · rw [hcount, hroom]
    · rw [hcount, Nat.clog_of_right_le_one le_rfl]
      rfl
  rw [checkObject_walkable hgeo hwalk, hcount]

/-- After 50 bytes the read of the root stops advancing. -/
theorem readObject_shortRoot : shortFs.readObject shortRoot = .error .diverge := by
  have hleaves : shortFs.collectLeaves shortRoot = .ok [shortLeaf] := by
    rw [collectLeaves, checkObject_shortRoot]
    rfl
  have hround : shortFs.readLoop [shortLeaf] 0 100 101 [] =
      shortFs.readLoop [shortLeaf] 0 100 100 (List.replicate 50 0) :=
    readLoop_succ (by decide : 0 < 100) (by decide : 0 + 100 < 2 ^ 64)
      (by simp) readBlock_shortLeaf (by simp)
  have hstuck : shortFs.readLoop [shortLeaf] 0 100 100 (List.replicate 50 0) = .error .diverge :=
    readLoop_stuck (b := 0) (by simp) (by decide : 0 + 100 < 2 ^ 64) rfl readBlock_shortLeaf
      (by simp; exact (by decide : 50 < 512)) (by simp)
  have hloop : shortFs.readObjectRange shortRoot 0 100 = .error .diverge := by
    have hsome : ¬ (shortRoot.size ≤ 0 ∨ 100 = 0) := (by decide : ¬ (100 ≤ 0 ∨ 100 = 0))
    rw [readObjectRange, if_neg hsome, hleaves, ok_bind]
    exact hround.trans hstuck
  have hsmall : ¬ MAX_META_OBJECT_SIZE < shortRoot.size := (by decide : ¬ 2 ^ 24 < 100)
  rw [readObject, if_neg hsmall, checkObject_shortRoot, ok_bind]
  exact hloop

end ShortLeaf

/-- Listing the root of that image never ends: the mount accepts it, and the read loop stops
advancing after 50 of 100 bytes. -/
theorem list_shortDevice_diverges :
    letI := plainBlake3
    ∃ fs : AsyncEofs MemDevice, mount shortDevice = .ok fs ∧ fs.list "/" = .error .diverge := by
  let _ := plainBlake3
  refine ⟨shortFs, mount_shortDevice, ?_⟩
  have hpath : splitPath "/" = .ok [] := by
    decide
  have hdir : shortFs.readDir shortRoot = .error .diverge := by
    rw [readDir, readObject_shortRoot]
    rfl
  have hroot : shortFs.liveRoot = shortRoot := rfl
  rw [list, listAtRoot, hpath, ok_bind, resolve, walk, ok_bind, if_neg (by simp), hroot, hdir,
    error_bind]

/-- The classification at that image: it is the root directory that is short. -/
theorem hostile_calls_clean_iff_shortDevice :
    letI := plainBlake3
    Clean (shortFs.list "/") ↔
      ∀ dir, shortFs.ListReads shortRoot "/" dir → ¬ shortFs.WholeShort dir :=
  let _ := plainBlake3
  (hostile_calls_clean_iff shortDevice shortFs (.mounted mount_shortDevice)).1 "/"

end AsyncEofs

end Eo9.Eofs
