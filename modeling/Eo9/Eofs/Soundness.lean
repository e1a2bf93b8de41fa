import Eo9.Eofs.Hostile

/-!
# A verified image is read without error

When `verify` returns a report, every directory below a retained root lists, and every file
gives exactly the bytes that its size promises. The reads here are those of the engine after
any number of collections: a collection changes the allocator alone, and no read looks at it.
-/

namespace Eo9.Eofs

open Eo9.Library Outcome

namespace AsyncEofs

variable {D : Type} [BlockDevice D] [Primitives] {fs : AsyncEofs D}

section Reading

variable [LawfulDevice D] (hgeo : fs.Geometry)

include hgeo

/-- Over readable blocks of the right sizes the loop reads the whole range. -/
theorem readLoop_leavesOk {leaves : List BlockPtr} {size offset want fuel : Nat}
    {buf : List UInt8} (hok : fs.LeavesOk size 0 leaves)
    (hcount : leaves.length = divCeil size fs.blockSize) (hend : offset + want ≤ size)
    (hword : size < 2 ^ 64) (hbuf : buf.length ≤ want) (hfuel : want < fuel + buf.length) :
    ∃ bytes, fs.readLoop leaves offset want fuel buf = .ok bytes ∧ bytes.length = want := by
  induction fuel generalizing buf with
  | zero => omega
  | succ fuel ih =>
    by_cases hdone : buf.length < want
    · have hmod := Nat.mod_lt (offset + buf.length) hgeo.block_pos
      have hsplit := Nat.div_add_mod (offset + buf.length) fs.blockSize
      rw [Nat.mul_comm] at hsplit
      have hlt : (offset + buf.length) / fs.blockSize < leaves.length := by
        rw [hcount]
        exact (lt_divCeil_iff hgeo.block_pos).mpr (by omega)
      have hleaf := List.getElem?_eq_getElem hlt
      obtain ⟨⟨logical, hblock⟩, hsize⟩ := hok _ _ hleaf
      rw [← (readBlock_length hgeo hblock).2, Nat.zero_add] at hsize
      rw [readLoop_succ hdone (by omega) hleaf hblock (by omega)]
      refine ih ?_ ?_
      all_goals
        rw [List.length_append, length_sub (by omega)]
        omega
    · rw [readLoop, if_neg hdone]
      exact ⟨buf, rfl, by omega⟩

theorem Verified.readObjectRange {obj : ObjRef} (h : fs.Verified obj) (hsize : obj.size < 2 ^ 64)
    (offset len : Nat) : ∃ bytes, fs.readObjectRange obj offset len = .ok bytes ∧
      bytes.length = min len (obj.size - offset) := by
  obtain ⟨leaves, hleaves, hok⟩ := h
  rw [AsyncEofs.readObjectRange]
  by_cases hempty : obj.size ≤ offset ∨ len = 0
  · exact ⟨[], if_pos hempty, by rw [List.length_nil]; omega⟩
  · rw [if_neg hempty, hleaves, ok_bind]
    obtain ⟨-, -, hcount⟩ := collectLeaves_eq_ok hgeo (by omega) hleaves
    exact readLoop_leavesOk hgeo hok hcount (by omega) hsize (Nat.zero_le _) (by simp)

end Reading

/-- The error of a path that leads to nothing of the kind that the call wants. -/
def PathError (e : Stop FsError) : Prop :=
  e = .err .notFound ∨ e = .err .notADirectory ∨ e = .err .isADirectory ∨ e = .err .invalidPath

/-- A node that is verified, a directory with everything below it. -/
def SoundNode (fs : AsyncEofs D) : NodeKind × ObjRef → Prop
  | (.file, obj) => fs.Verified obj
  | (.directory, obj) => fs.SoundTree obj

theorem SoundTree.walk (kind : NodeKind) {obj : ObjRef} (h : fs.SoundNode (kind, obj))
    (segments : List String) : (∃ node, fs.walk kind obj segments = .ok node ∧ fs.SoundNode node) ∨
      ∃ e, fs.walk kind obj segments = .error e ∧ PathError e := by
  induction segments generalizing kind obj with
  | nil => exact .inl ⟨(kind, obj), rfl, h⟩
  | cons segment rest ih =>
    cases kind with
    | file => exact .inr ⟨_, rfl, .inr (.inl rfl)⟩
    | directory =>
      obtain ⟨-, hlisted, hfiles, hdirs⟩ := h
      rw [AsyncEofs.walk, if_neg (by simp), hlisted, ok_bind]
      split
      case h_1 => exact .inr ⟨_, rfl, .inl rfl⟩
      case h_2 entry hfind =>
        have hmem := List.mem_of_find?_eq_some hfind
        refine ih _ ?_
        cases hkind : entry.kind with
        | file => exact hfiles entry hmem hkind
        | directory => exact hdirs entry hmem hkind

section Reallocated

variable (fs) (alloc : Allocator)

theorem readBlock_alloc (ptr : BlockPtr) : { fs with alloc }.readBlock ptr = fs.readBlock ptr := rfl

theorem collectLevel_alloc (n level : Nat) (ptr : BlockPtr) (out : List BlockPtr) :
    { fs with alloc }.collectLevel n level ptr out = fs.collectLevel n level ptr out := by
  induction level generalizing ptr out with
  | zero => rfl
  | succ level ih => simp only [collectLevel, readBlock_alloc, ih]

theorem collectLeaves_alloc (obj : ObjRef) :
    { fs with alloc }.collectLeaves obj = fs.collectLeaves obj := by
  simp only [collectLeaves, collectLevel_alloc]
  rfl

theorem readLoop_alloc (leaves : List BlockPtr) (offset want fuel : Nat) (buf : List UInt8) :
    { fs with alloc }.readLoop leaves offset want fuel buf =
      fs.readLoop leaves offset want fuel buf := by
  induction fuel generalizing buf with
  | zero => rfl
  | succ fuel ih => simp only [readLoop, readBlock_alloc, ih]

theorem readObjectRange_alloc (obj : ObjRef) (offset len : Nat) :
    { fs with alloc }.readObjectRange obj offset len = fs.readObjectRange obj offset len := by
  simp only [readObjectRange, collectLeaves_alloc, readLoop_alloc]

theorem readDir_alloc (obj : ObjRef) : { fs with alloc }.readDir obj = fs.readDir obj := by
  simp only [readDir, readObject, readObjectRange_alloc]
  rfl

theorem readSnapshots_alloc (obj : ObjRef) :
    { fs with alloc }.readSnapshots obj = fs.readSnapshots obj := by
  simp only [readSnapshots, readObject, readObjectRange_alloc]
  rfl

theorem walk_alloc (kind : NodeKind) (obj : ObjRef) (segments : List String) :
    { fs with alloc }.walk kind obj segments = fs.walk kind obj segments := by
  induction segments generalizing kind obj with
  | nil => rfl
  | cons segment rest ih => simp only [walk, readDir_alloc, ih]

end Reallocated

/-- The live tree, and the trees of the snapshots. -/
def Retained (fs : AsyncEofs D) (root : ObjRef) : Prop :=
  root = fs.liveRoot ∨ ∃ name, fs.snapshot name = .ok root

/-- The node that a path leads to below a root. -/
def Leads (fs : AsyncEofs D) (root : ObjRef) (path : String) (kind : NodeKind) (obj : ObjRef) :
    Prop :=
  ∃ segments, splitPath path = .ok segments ∧ fs.resolve root segments = .ok (kind, obj)

/-- A call that fails only because of its path. -/
def OnlyPathErrors {α : Type} (call : Outcome FsError α) : Prop :=
  ∀ e, call = .error e → PathError e

omit [BlockDevice D] [Primitives] in
theorem splitPath_error {path : String} {e : Stop FsError} (h : splitPath path = .error e) :
    PathError e := by
  unfold splitPath at h
  generalize (path.toList.splitOn '/').map String.ofList = segments at h
  induction segments with
  | nil => exact absurd h nofun
  | cons segment rest ih =>
    rw [checkSegments] at h
    split at h
    case isTrue => exact ih h
    case isFalse =>
      cases hname : checkName segment with
      | error e' =>
        rw [hname, error_bind] at h
        obtain rfl := Except.error.inj h
        unfold checkName at hname
        split at hname
        case isTrue =>
          obtain rfl := Except.error.inj hname
          exact .inr (.inr (.inr rfl))
        case isFalse => exact absurd hname nofun
      | ok _ =>
        rw [hname, ok_bind] at h
        cases hrest : checkSegments rest with
        | error e' =>
          rw [hrest, error_bind] at h
          obtain rfl := Except.error.inj h
          exact ih hrest
        | ok segments =>
          rw [hrest, ok_bind] at h
          exact absurd h nofun

section Calls

variable {root : ObjRef} (hroot : fs.SoundTree root)

include hroot

/-- Below a verified root a call either stops at its path, or goes on at a verified node. -/
theorem SoundTree.call {α : Type} {path : String} {f : NodeKind × ObjRef → Outcome FsError α}
    (hf : ∀ segments node, fs.resolve root segments = .ok node → fs.SoundNode node →
      OnlyPathErrors (f node)) :
    OnlyPathErrors (do
      let node ← fs.resolve root (← splitPath path)
      f node) := by
  intro e h
  cases hsplit : splitPath path with
  | error e' =>
    rw [hsplit, error_bind] at h
    obtain rfl := Except.error.inj h
    exact splitPath_error hsplit
  | ok segments =>
    rw [hsplit, ok_bind] at h
    rcases SoundTree.walk .directory hroot segments with
      ⟨node, hwalk, hnode⟩ | ⟨e', hwalk, herror⟩
    · rw [resolve, hwalk, ok_bind] at h
      exact hf segments node hwalk hnode e h
    · rw [resolve, hwalk, error_bind] at h
      exact Except.error.inj h ▸ herror

theorem SoundTree.stat (path : String) : OnlyPathErrors (fs.statAtRoot root path) :=
  hroot.call fun _ _ _ _ _ h => absurd h nofun

theorem SoundTree.list (path : String) : OnlyPathErrors (fs.listAtRoot root path) := by
  refine hroot.call fun segments node _ hnode e h => ?_
  obtain ⟨kind, obj⟩ := node
  cases kind with
  | file =>
    rw [if_pos (by simp)] at h
    exact .inr (.inl (Except.error.inj h).symm)
  | directory =>
    obtain ⟨-, hlisted, -, -⟩ := hnode
    rw [if_neg (by simp), hlisted, ok_bind] at h
    exact absurd h nofun

theorem SoundTree.list_of_leads {path : String} {obj : ObjRef}
    (h : fs.Leads root path .directory obj) : ∃ names, fs.listAtRoot root path = .ok names := by
  obtain ⟨segments, hsplit, hresolve⟩ := h
  rcases SoundTree.walk .directory hroot segments with
    ⟨node, hwalk, hnode⟩ | ⟨e, hwalk, -⟩
  · obtain rfl := Except.ok.inj (hwalk.symm.trans hresolve)
    obtain ⟨-, hlisted, -, -⟩ := hnode
    exact ⟨_, by rw [listAtRoot, hsplit, ok_bind, hresolve, ok_bind, if_neg (by simp), hlisted,
      ok_bind]⟩
  · cases hwalk.symm.trans hresolve

variable [LawfulDevice D] (hgeo : fs.Geometry) (hfits : root.Fits)

include hgeo hfits

theorem SoundTree.read (path : String) (offset len : Nat) :
    OnlyPathErrors (fs.readAtRoot root path offset len) := by
  refine hroot.call fun segments node hwalk hnode e h => ?_
  obtain ⟨kind, obj⟩ := node
  cases kind with
  | file =>
    obtain ⟨bytes, hbytes, -⟩ :=
      Verified.readObjectRange hgeo hnode (walk_fits hfits hwalk).size offset len
    rw [if_neg (by simp), hbytes] at h
    exact absurd h nofun
  | directory =>
    rw [if_pos (by simp)] at h
    exact .inr (.inr (.inl (Except.error.inj h).symm))

/-- A file gives the bytes that its size promises. -/
theorem SoundTree.read_of_leads {path : String} {obj : ObjRef}
    (h : fs.Leads root path .file obj) (offset len : Nat) :
    ∃ bytes, fs.readAtRoot root path offset len = .ok bytes ∧
      bytes.length = min len (obj.size - offset) := by
  obtain ⟨segments, hsplit, hresolve⟩ := h
  rcases SoundTree.walk .directory hroot segments with
    ⟨node, hwalk, hnode⟩ | ⟨e, hwalk, -⟩
  · obtain rfl := Except.ok.inj (hwalk.symm.trans hresolve)
    obtain ⟨bytes, hbytes, hlen⟩ :=
      Verified.readObjectRange hgeo hnode (walk_fits hfits hwalk).size offset len
    exact ⟨bytes, by rw [readAtRoot, hsplit, ok_bind, hresolve, ok_bind, if_neg (by simp),
      hbytes], hlen⟩
  · exact absurd (hwalk.symm.trans hresolve) nofun

end Calls

omit [BlockDevice D] [Primitives] in
theorem reportOf_eq_ok {walk : Verify Unit} {report : VerifyReport}
    (h : reportOf walk = .ok report) : walk VerifyReport.zero = (.ok (), report) := by
  unfold reportOf at h
  rcases hwalk : walk VerifyReport.zero with ⟨e | _, final⟩
  · rw [hwalk] at h
    exact absurd h nofun
  · rw [hwalk] at h
    rw [Except.ok.inj h]

/-- A verification that returns a report went through the whole image. -/
theorem soundImage_of_verify [LawfulDevice D] (hgeo : fs.Geometry) (hfit : fs.RootsFit)
    {report : VerifyReport} (h : fs.verify = .ok report) : fs.SoundImage := by
  have htotals : fs.verifyTotals.Fits := by
    rw [← clean_verify hgeo hfit, h]
    exact clean_ok _
  rw [verifyTotals, totalsOf] at htotals
  have hwalk := reportOf_eq_ok h
  rw [tracks_verifyWalk.same _ htotals] at hwalk
  exact (wp_verifyWalk hgeo hfit _).returned hwalk

theorem Retained.sound {root : ObjRef} (h : fs.Retained root) (himage : fs.SoundImage)
    (hfit : fs.RootsFit) : fs.SoundTree root ∧ root.Fits := by
  rcases h with rfl | ⟨name, hname⟩
  · exact ⟨himage.live, hfit.liveRoot⟩
  · obtain ⟨entries, hentries, htrees⟩ := himage.snapshots
    rw [snapshot, hentries, ok_bind] at hname
    split at hname
    case h_1 => exact absurd hname nofun
    case h_2 entry hfind =>
      obtain rfl := Except.ok.inj hname
      have hmem := List.mem_of_find?_eq_some hfind
      exact ⟨htrees entry hmem, (readSnapshots_fits hentries entry hmem).root⟩

def emptyUberblock : Uberblock where
  blockSize := 512
  allocUnit := 64
  codec := .raw
  txg := 1
  frontier := DATA_START
  deviceSize := DATA_START
  liveRoot := ObjRef.EMPTY
  snapshots := ObjRef.EMPTY

/-- Its slot, and zeros. -/
def emptyDevice : MemDevice where
  size := DATA_START
  byte := overwrite (fun _ => 0) 0 emptyUberblock.toSlotBytes
  size_lt := by decide

theorem mount_emptyDevice :
    mount emptyDevice = .ok (ofUberblock emptyDevice emptyUberblock) := by
  have hfits : emptyUberblock.Fits :=
    ⟨(by decide : (512 : Nat) < 2 ^ 32), (by decide : (64 : Nat) < 2 ^ 32),
      (by decide : (1 : Nat) < 2 ^ 64), (by decide : (8192 : Nat) < 2 ^ 64),
      (by decide : (8192 : Nat) < 2 ^ 64), ObjRef.fits_empty, ObjRef.fits_empty⟩
  have hmount : emptyUberblock.Mountable DATA_START := by
    constructor <;> decide
  refine mount_of_slot hfits hmount (Nat.le_refl DATA_START) ?_ ?_
  · have := slice_overwrite (fun _ => 0) 0 emptyUberblock.toSlotBytes
    rwa [Uberblock.length_toSlotBytes] at this
  · have hout : overwrite (fun _ => (0 : UInt8)) 0 emptyUberblock.toSlotBytes SLOT_SIZE = 0 := by
      refine overwrite_outside (.inr ?_)
      rw [Uberblock.length_toSlotBytes, Nat.zero_add]
    exact hout

end AsyncEofs

end Eo9.Eofs
