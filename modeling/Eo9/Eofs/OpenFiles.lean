import Eo9.Library.Runs
import Eo9.Eofs.Provider
import Eo9.Eofs.Soundness

/-!
# Writes through a handle whose file is gone

An open file of the provider is a path. What a write does when the path names no regular file
any more is followed through the engine: without a pending truncation the write looks the path
up and fails, and with one it first removes what has the name and creates the file again.

## Implementation notes

Between calls the engine has no uncommitted change, because every call puts it back rolled
back. A write that fails on a lookup therefore leaves the whole state as it was.

-/

namespace Eo9.Eofs

open Eo9.Library Outcome

namespace AsyncEofs

variable {D : Type} [Primitives] [BlockDevice D] {fs : AsyncEofs D}

/-- Nothing is below a missing directory. -/
theorem walk_append_missing {kind : NodeKind} {obj : ObjRef} {parent rest : List String}
    (h : fs.walk kind obj parent = Outcome.fail .notFound) :
    fs.walk kind obj (parent ++ rest) = Outcome.fail .notFound := by
  induction parent generalizing kind obj with
  | nil => cases h
  | cons segment parent ih =>
    rw [walk] at h
    rw [List.cons_append, walk]
    by_cases hkind : kind ≠ .directory
    · rw [if_pos hkind] at h
      cases h
    · rw [if_neg hkind] at h ⊢
      cases hentries : fs.readDir obj with
      | error e =>
        rw [hentries, error_bind] at h
        rw [error_bind, h]
      | ok entries =>
        rw [hentries, ok_bind] at h
        rw [ok_bind]
        cases hfind : entries.find? (·.name = segment) with
        | none => rfl
        | some entry =>
          rw [hfind] at h
          exact ih h

/-- A node that is no directory has no missing children. -/
theorem walk_file_ne_missing {kind : NodeKind} (hkind : kind ≠ .directory) (obj : ObjRef)
    (segments : List String) : fs.walk kind obj segments ≠ Outcome.fail .notFound := by
  cases segments with
  | nil => rintro ⟨⟩
  | cons segment rest =>
    rw [walk, if_pos hkind]
    rintro ⟨⟩

/-- An edit below a missing directory fails where the directory is looked up. -/
theorem applyInDir_missing {op : DirOp} {parent : List String} {dir : ObjRef}
    (h : fs.walk .directory dir parent = Outcome.fail .notFound) :
    applyInDir op parent dir fs = (Outcome.fail .notFound, fs) := by
  induction parent generalizing dir with
  | nil => cases h
  | cons segment parent ih =>
    rw [walk, if_neg (not_not.mpr rfl)] at h
    rw [applyInDir, Action.bind_apply, Action.query_apply]
    cases hentries : fs.readDir dir with
    | error e =>
      rw [hentries, error_bind] at h
      rw [Except.error.inj h]
      exact rfl
    | ok entries =>
      rw [hentries, ok_bind] at h
      cases hfind : entries.find? (·.name = segment) with
      | none => simp only [hfind]; rfl
      | some entry =>
        rw [hfind] at h
        change fs.walk entry.kind entry.obj parent = Outcome.fail .notFound at h
        have hkind : entry.kind = .directory := by
          by_contra hkind
          exact walk_file_ne_missing hkind _ _ h
        rw [hkind] at h
        simp only [hfind, hkind, ne_eq, not_true_eq_false, if_false]
        exact Action.bind_of_error (ih h)

/-- The path leads to no regular file. -/
def NoFile (fs : AsyncEofs D) (path : String) : Prop :=
  fs.stat path = Outcome.fail .notFound ∨ fs.stat path = Outcome.fail .notADirectory ∨
    ∃ stat, fs.stat path = .ok stat ∧ stat.kind = .directory

/-- Already the directory above the path is missing. -/
def ParentMissing (fs : AsyncEofs D) (path : String) : Prop :=
  ∃ segments, splitPath path = .ok segments ∧
    fs.resolve fs.liveRoot segments.dropLast = Outcome.fail .notFound

omit [Primitives] in
/-- A path that cannot be split has a segment that is no name. -/
theorem checkSegments_error {segments : List String} {e : Stop FsError}
    (h : checkSegments segments = .error e) : e = .err .invalidPath := by
  induction segments with
  | nil => cases h
  | cons segment rest ih =>
    rw [checkSegments] at h
    split at h
    case isTrue => exact ih h
    case isFalse =>
      unfold checkName at h
      split at h
      case isTrue => exact (Except.error.inj h).symm
      case isFalse =>
        rw [ok_bind] at h
        cases hrest : checkSegments rest with
        | ok names =>
          rw [hrest] at h
          cases h
        | error e' =>
          rw [hrest, error_bind] at h
          exact ih (hrest.trans h)

theorem stat_of_split {path : String} {segments : List String} (h : splitPath path = .ok segments) :
    fs.stat path = (do
      let node ← fs.resolve fs.liveRoot segments
      .ok ⟨node.1, node.2.size, node.2.root.hash⟩) := by
  rw [stat, statAtRoot, h, ok_bind]

theorem NoFile.split {path : String} (h : fs.NoFile path) :
    ∃ segments, splitPath path = .ok segments := by
  cases hsplit : splitPath path with
  | ok segments => exact ⟨segments, rfl⟩
  | error e =>
    have hstat : fs.stat path = .error (.err .invalidPath) := by
      rw [stat, statAtRoot, hsplit, error_bind, checkSegments_error hsplit]
    rcases h with h | h | ⟨stat, h, -⟩ <;> cases hstat.symm.trans h

/-- A write to a path that leads to no regular file fails in the lookup. -/
theorem write_noFile {path : String} (h : fs.NoFile path)
    (hparent : fs.stat path ≠ Outcome.fail .notADirectory) (offset : Nat) (data : List UInt8) :
    ∃ e, (e = .notFound ∨ e = .isADirectory) ∧
      write path offset data fs = (Outcome.fail e, fs) := by
  obtain ⟨segments, hsplit⟩ := h.split
  have hstat := fs.stat_of_split hsplit
  unfold write
  rw [Action.bind_apply, Action.monadLift_apply, hsplit]
  cases hlast : segments.getLast? with
  | none => exact ⟨.isADirectory, .inr rfl, by simp only [hlast]; rfl⟩
  | some name =>
    simp only [hlast]
    rw [Action.bind_apply, Action.query_apply]
    cases hresolve : fs.resolve fs.liveRoot segments with
    | error e =>
      rw [hresolve, error_bind] at hstat
      rcases h with h | h | ⟨stat, h, -⟩
      · exact ⟨.notFound, .inl rfl, by rw [Except.error.inj (hstat.symm.trans h)]; rfl⟩
      · exact absurd h hparent
      · cases hstat.symm.trans h
    | ok node =>
      rw [hresolve, ok_bind] at hstat
      rcases h with h | h | ⟨stat, h, hkind⟩
      · cases hstat.symm.trans h
      · cases hstat.symm.trans h
      · have hnode : node.1 = .directory := by
          rw [← hkind, ← Except.ok.inj (hstat.symm.trans h)]
        refine ⟨.isADirectory, .inr rfl, ?_⟩
        simp only [hnode, ne_eq, reduceCtorEq, not_false_eq_true, if_true]
        rfl

/-- What is below a missing directory is missing. -/
theorem ParentMissing.stat {path : String} (h : fs.ParentMissing path) :
    fs.stat path = Outcome.fail .notFound := by
  obtain ⟨segments, hsplit, hresolve⟩ := h
  cases hlast : segments.getLast? with
  | none =>
    rw [List.getLast?_eq_none_iff.mp hlast] at hresolve
    cases hresolve
  | some name =>
    have hsegments : segments.dropLast ++ [name] = segments :=
      List.dropLast_append_getLast? name hlast
    rw [stat_of_split hsplit, resolve, ← hsegments, walk_append_missing hresolve]
    rfl

/-- No file is created in a missing directory. -/
theorem ParentMissing.createFile {path : String} (h : fs.ParentMissing path) :
    createFile path fs = (Outcome.fail .notFound, fs) := by
  obtain ⟨segments, hsplit, hresolve⟩ := h
  rw [AsyncEofs.createFile, createNode, Action.bind_apply, Action.monadLift_apply, hsplit]
  cases hlast : segments.getLast? with
  | none =>
    rw [List.getLast?_eq_none_iff.mp hlast] at hresolve
    cases hresolve
  | some name =>
    simp only [hlast]
    rw [editLive, Action.bind_apply, Action.gets_apply]
    exact Action.bind_of_error (applyInDir_missing hresolve)

omit [Primitives] [BlockDevice D] in
theorem rollback_adopt (txg : Nat) (fs : AsyncEofs D) : (adopt txg fs).rollback = adopt txg fs :=
  rfl

/-- A commit on a device that is not failing. -/
theorem commit_of_reliable [LawfulDevice D] [ReliableDevice D] (fs : AsyncEofs D) (hdirty : fs.dirty = true)
    (htxg : fs.committedTxg + 1 < 2 ^ 64) (hsize : DATA_START ≤ BlockDevice.size fs.dev) :
    commit fs = (.ok (fs.committedTxg + 1), adopt (fs.committedTxg + 1) { fs with
      dev := (BlockDevice.flush (BlockDevice.writeAt (slotOffset ((fs.committedTxg + 1) % 2))
        fs.nextUberblock.toSlotBytes (BlockDevice.flush fs.dev).2).2).2 }) := by
  have hflush : ∀ fs : AsyncEofs D, (devFlush : Engine D Unit) fs =
      (.ok (), { fs with dev := (BlockDevice.flush fs.dev).2 }) := by
    intro fs
    rw [devFlush, ReliableDevice.flush_ok]
    rfl
  have hroom : slotOffset ((fs.committedTxg + 1) % 2) + fs.nextUberblock.toSlotBytes.length ≤
      BlockDevice.size (BlockDevice.flush fs.dev).2 := by
    have hdata : DATA_START = 2 * SLOT_SIZE := rfl
    have hslot : (fs.committedTxg + 1) % 2 ≤ 1 := by omega
    rw [Uberblock.length_toSlotBytes, LawfulDevice.size_flush, slotOffset]
    calc (fs.committedTxg + 1) % 2 * SLOT_SIZE + SLOT_SIZE
        ≤ 1 * SLOT_SIZE + SLOT_SIZE := Nat.add_le_add_right (Nat.mul_le_mul_right _ hslot) _
      _ ≤ BlockDevice.size fs.dev := by omega
  have hwrite : (devWrite (slotOffset ((fs.committedTxg + 1) % 2)) fs.nextUberblock.toSlotBytes :
      Engine D Unit) { fs with dev := (BlockDevice.flush fs.dev).2 } = (.ok (), { fs with
        dev := (BlockDevice.writeAt (slotOffset ((fs.committedTxg + 1) % 2))
          fs.nextUberblock.toSlotBytes (BlockDevice.flush fs.dev).2).2 }) := by
    rw [devWrite, ReliableDevice.writeAt_ok _ _ _ hroom]
    rfl
  rw [commit, Action.bind_apply, Action.gets_apply]
  simp only []
  rw [if_neg (by simp [hdirty]), Action.bind_of_ok (hflush fs), Action.bind_apply, Action.query_apply, checkedAdd_ok htxg]
  simp only []
  rw [Action.bind_apply, Action.gets_apply]
  simp only []
  refine (Action.bind_of_ok hwrite).trans ?_
  exact Action.bind_of_ok (hflush _)

end AsyncEofs

namespace Provider

variable {D : Type} [Primitives] [BlockDevice D] {fs : AsyncEofs D}

/-- A mutation that fails on a lookup leaves what was committed. -/
theorem mutate_of_error {α : Type} {f : Engine D α} {e : FsError}
    (h : f fs = (Outcome.fail e, fs)) (hspace : e ≠ .noSpace) :
    mutate f fs = (Outcome.fail (mapError e), fs.rollback) := by
  have hattempt : (f.attempt : Engine D _) fs = (.ok (.error e), fs) := by
    rw [Action.attempt, h]
    rfl
  have hreclaiming : reclaiming f fs = (Outcome.fail e, fs) := by
    rw [reclaiming, Action.bind_of_ok hattempt]
    cases e <;> first | rfl | exact absurd rfl hspace
  have hattempt' : ((reclaiming f).attempt : Action _ Error _) fs = (.ok (.error e), fs) := by
    rw [Action.attempt, hreclaiming]
    rfl
  rw [mutate, Action.bind_of_ok hattempt']
  rfl

/-- The engine calls of a write through a handle whose file is gone. -/
theorem writeNode_noFile {path : String} {truncating : Bool} (h : fs.NoFile path)
    (hparent : fs.stat path ≠ Outcome.fail .notADirectory)
    (htruncating : truncating = false ∨ fs.ParentMissing path) (offset : Nat)
    (bytes : List UInt8) : ∃ e, (e = .notFound ∨ e = .isADirectory) ∧
      writeNode path truncating offset bytes fs = (Outcome.fail e, fs) := by
  cases truncating with
  | false =>
    obtain ⟨e, he, hwrite⟩ := AsyncEofs.write_noFile h hparent offset bytes
    refine ⟨e, he, ?_⟩
    rw [writeNode]
    exact Action.bind_of_error hwrite
  | true =>
    have hmissing := htruncating.resolve_left (Bool.noConfusion ·)
    refine ⟨.notFound, .inl rfl, ?_⟩
    have hstat : (Action.query fun fs : AsyncEofs D => fs.stat path).attempt fs =
        ((.ok (.error .notFound), fs) : Outcome FsError _ × AsyncEofs D) := by
      rw [Action.attempt, Action.query_apply, hmissing.stat]
      rfl
    rw [writeNode, if_pos rfl, Action.bind_of_ok hstat]
    exact Action.bind_of_error hmissing.createFile

/-- The engine in the slot has no uncommitted change. -/
def Slot.Settled (slot : Slot D) : Prop := ∀ fs, slot = .ready fs → fs.rollback = fs

omit [Primitives] [BlockDevice D] in
theorem settled_putBack {α : Type} (r : Outcome Error α × AsyncEofs D) :
    (putBack r).2.Settled := by
  intro fs hfs
  fun_cases putBack r
  all_goals cases hfs
  all_goals rfl

theorem settled_withFs {α : Type} {slot : Slot D} (h : slot.Settled) (disk : D)
    (f : Action (AsyncEofs D) Error α) : (withFs disk f slot).2.Settled := by
  fun_cases withFs disk f slot
  case case1 => exact h
  case case2 => exact settled_putBack _
  case case3 => exact settled_putBack _
  all_goals
    intro fs hfs
    cases hfs

theorem settled_openFile {slot : Slot D} (h : slot.Settled) (disk : D) (path : String)
    (flags : OpenFlags) : (openFile disk path flags slot).2.Settled := by
  have hwp : ∀ {α : Type} {m : Action (Slot D) Error α} {slot : Slot D},
      Action.wp m slot (fun _ => Slot.Settled) (fun _ => Slot.Settled) ↔ (m slot).2.Settled := by
    intro α m slot
    unfold Action.wp
    rcases m slot with ⟨a | e, s⟩ <;> exact Iff.rfl
  rw [openFile]
  split
  case isTrue => exact h
  case isFalse =>
    refine hwp.mp (Action.wp_bind (hwp.mpr (settled_withFs h _ _)) (fun _ s hs => ?_) fun _ _ => id)
    refine Action.wp_bind (q := fun _ => Slot.Settled) ?_ (fun _ _ hs => ?_) fun _ _ => id
    case refine_2 => exact hs
    refine hwp.mpr ?_
    unfold recordTruncation
    split
    · exact settled_withFs hs _ _
    · exact hs

theorem settled_write {slot : Slot D} (h : slot.Settled) (disk : D) (file : OpenFile)
    (offset : Nat) (bytes : List UInt8) : (write disk file offset bytes slot).2.Settled := by
  unfold write
  split
  · exact h
  · exact settled_withFs h _ _

/-- Every engine that the provider holds has no uncommitted change. -/
structure State.Settled (s : State D) : Prop where
  slot : s.slot.Settled
  parked : ∀ taken, s.parked = some taken → taken.1.Settled

theorem State.Settled.perform {s : State D} (h : s.Settled) (disk : D) (c : Call) :
    (s.perform disk c).2.Settled := by
  have hcall : ∀ {slot : Slot D} (files : List OpenFile), slot.Settled →
      (⟨slot, files, s.parked⟩ : State D).Settled :=
    fun _ hslot => ⟨hslot, h.parked⟩
  fun_cases State.perform s disk c
  case case1 path flags file slot hopen =>
    have hslot := settled_openFile h.slot disk path flags
    rw [hopen] at hslot
    exact hcall _ hslot
  case case2 path flags e slot hopen =>
    have hslot := settled_openFile h.slot disk path flags
    rw [hopen] at hslot
    exact hcall _ hslot
  case case3 path =>
    refine hcall _ ?_
    unfold createDirectory
    split
    · exact h.slot
    · exact settled_withFs h.slot _ _
  case case4 path =>
    refine hcall _ ?_
    unfold remove
    split
    · exact h.slot
    · exact settled_withFs h.slot _ _
  case case5 => exact h
  case case6 handle offset len file hfile =>
    refine hcall _ ?_
    unfold read
    split
    · exact h.slot
    · exact settled_withFs h.slot _ _
  case case7 => exact h
  case case8 handle offset bytes file hfile count slot hwrite =>
    have hslot := settled_write h.slot disk file offset bytes
    rw [hwrite] at hslot
    exact hcall _ hslot
  case case9 handle offset bytes file hfile e slot hwrite =>
    have hslot := settled_write h.slot disk file offset bytes
    rw [hwrite] at hslot
    exact hcall _ hslot

omit [Primitives] [BlockDevice D] in
/-- The state in which an event runs its call. -/
theorem State.Settled.before {s : State D} (h : s.Settled) {e : Event D} {before : State D}
    {c : Call} {disk : D} (hperforms : e.performs s = some (before, c, disk)) :
    before.Settled := by
  revert hperforms
  fun_cases Event.performs s e
  case case1 =>
    intro hperforms
    obtain ⟨rfl, -⟩ := Prod.mk.inj (Option.some.inj hperforms)
    exact h
  case case2 =>
    intro hperforms
    obtain ⟨rfl, -⟩ := Prod.mk.inj (Option.some.inj hperforms)
    exact h
  case case3 => rintro ⟨⟩
  case case4 =>
    intro hperforms
    obtain ⟨taken, htaken, heq⟩ := Option.map_eq_some_iff.mp hperforms
    obtain ⟨rfl, -⟩ := Prod.mk.inj heq
    constructor
    case slot => exact h.parked taken htaken
    case parked =>
      intro taken htaken
      cases htaken

theorem State.next_of_performs {s : State D} {e : Event D} {before : State D} {c : Call} {disk : D}
    (h : e.performs s = some (before, c, disk)) : s.next e = (before.perform disk c).2 := by
  simp only [State.next, h]

theorem State.next_call (s : State D) (c : Call) (disk : D) :
    s.next (.call c disk) = (s.perform disk c).2 :=
  State.next_of_performs rfl

theorem State.Settled.next {s : State D} (h : s.Settled) (e : Event D) : (s.next e).Settled := by
  cases hperforms : e.performs s with
  | some running =>
    rw [State.next_of_performs hperforms]
    exact (h.before hperforms).perform _ _
  | none =>
    unfold State.next
    rw [hperforms]
    cases e with
    | call c disk => exact h
    | resume => exact h
    | park c disk =>
      constructor
      case slot =>
        intro fs hfs
        cases hfs
      case parked =>
        intro taken htaken
        rw [← Option.some.inj htaken]
        exact h.slot

/-- The engine, in the slot or taken out of it. -/
def State.engine (s : State D) : Option (AsyncEofs D) :=
  match s.slot, s.parked with
  | .ready fs, _ => some fs
  | .busy, some (.ready fs, _) => some fs
  | _, _ => none

/-- A write through a handle whose path leads to no regular file. -/
structure StrayWrite (s : State D) (c : Call) (file : OpenFile) (fs : AsyncEofs D) : Prop where
  write : ∃ handle offset bytes, c = .write handle offset bytes ∧ s.files[handle]? = some file
  engine : s.engine = some fs
  gone : fs.NoFile file.path

/-- The stray writes that the code refuses: of a file open for writing, while no other call
holds the engine, below directories only, and without a pending truncation of a path whose
parent directory exists. -/
def Proper (s : State D) (e : Event D) : Prop :=
  ∀ before c disk file fs, e.performs s = some (before, c, disk) → StrayWrite before c file fs →
    file.writable = true ∧ before.slot = .ready fs ∧
      fs.stat file.path ≠ Outcome.fail .notADirectory ∧
      (file.truncatePending = false ∨ fs.ParentMissing file.path)

/-- Every stray write fails with not-found or is-a-directory, and leaves the engine, its
device and the open files as they were. -/
def Refused (s : State D) (e : Event D) : Prop :=
  ∀ before c disk file fs, e.performs s = some (before, c, disk) → StrayWrite before c file fs →
    ((before.perform disk c).1 = Outcome.fail .notFound ∨
      (before.perform disk c).1 = Outcome.fail .isADirectory) ∧ s.next e = before

/-- One write through a handle whose file is gone. -/
theorem refused_write {s : State D} (hsettled : s.slot.Settled) {file : OpenFile}
    {fs : AsyncEofs D} {handle : Nat} (hfile : s.files[handle]? = some file)
    (hslot : s.slot = .ready fs) (hgone : fs.NoFile file.path) (hwritable : file.writable = true)
    (hparent : fs.stat file.path ≠ Outcome.fail .notADirectory)
    (hpending : file.truncatePending = false ∨ fs.ParentMissing file.path) (disk : D)
    (offset : Nat) (bytes : List UInt8) : ∃ e, (e = .notFound ∨ e = .isADirectory) ∧
      s.perform disk (.write handle offset bytes) = (Outcome.fail e, s) := by
  obtain ⟨e, he, hnode⟩ := writeNode_noFile hgone hparent hpending offset bytes
  have hspace : e ≠ .noSpace := by
    rintro rfl
    simp at he
  have hmap : mapError e = .notFound ∨ mapError e = .isADirectory := by
    rcases he with rfl | rfl
    · exact .inl rfl
    · exact .inr rfl
  refine ⟨mapError e, hmap, ?_⟩
  have hwrite : write disk file offset bytes s.slot = (Outcome.fail (mapError e), s.slot) := by
    rw [write, hwritable, if_neg (by simp), hslot]
    change putBack (mutate _ fs) = _
    rw [mutate_of_error hnode hspace]
    change (Outcome.fail (mapError e), Slot.ready fs.rollback) = _
    rw [hsettled fs hslot]
  simp only [State.perform, hfile, hwrite]
  rfl

/-- A call that is no write is of the kind that the code treats properly. -/
theorem proper_of_ne_write {s : State D} {c : Call} (h : ∀ handle offset bytes,
    c ≠ .write handle offset bytes) (disk : D) : Proper s (.call c disk) := by
  intro before c' disk' file fs hperforms hstray
  obtain ⟨-, heq⟩ := Prod.mk.inj (Option.some.inj hperforms)
  obtain ⟨handle, offset, bytes, hwrite, -⟩ := hstray.write
  exact absurd ((Prod.mk.inj heq).1.trans hwrite) (h handle offset bytes)

/-- In a run whose stray writes are of this kind, every one of them is refused. -/
theorem refused_of_run {events : List (Event D)} {s : State D}
    (run : Run (fun s e s' => s.next e = s' ∧ Proper s e) .initial events s) (e : Event D)
    (hproper : Proper s e) : Refused s e := by
  have hsettled : s.Settled := by
    refine run.invariant (p := State.Settled) ?_ ?_
    case refine_1 =>
      rintro s e _ h ⟨rfl, -⟩
      exact h.next e
    constructor
    case slot =>
      intro fs hfs
      cases hfs
    case parked =>
      intro taken htaken
      cases htaken
  intro before c disk file fs hperforms hstray
  obtain ⟨hwritable, hslot, hparent, hpending⟩ := hproper before c disk file fs hperforms hstray
  obtain ⟨handle, offset, bytes, rfl, hfile⟩ := hstray.write
  obtain ⟨e, he, hperform⟩ := refused_write (hsettled.before hperforms).slot hfile hslot
    hstray.gone hwritable hparent hpending disk offset bytes
  rw [State.next_of_performs hperforms, hperform]
  refine ⟨?_, rfl⟩
  rcases he with rfl | rfl
  · exact .inl rfl
  · exact .inr rfl

/-- A mutation that succeeds at once. -/
theorem mutate_of_ok {α : Type} {f : Engine D α} {a : α} {fs' : AsyncEofs D}
    (h : f fs = (.ok a, fs')) : mutate f fs = (.ok a, fs') := by
  have hattempt : (f.attempt : Engine D _) fs = (.ok (.ok a), fs') := by
    rw [Action.attempt, h]
  have hreclaiming : reclaiming f fs = (.ok a, fs') := by
    rw [reclaiming, Action.bind_of_ok hattempt]
    rfl
  have hattempt' : ((reclaiming f).attempt : Action _ Error _) fs = (.ok (.ok a), fs') := by
    rw [Action.attempt, hreclaiming]
  rw [mutate, Action.bind_of_ok hattempt']
  rfl

/-- An operation that leaves the engine as it was leaves the slot so. -/
theorem withFs_of_same {α : Type} (hsettled : fs.rollback = fs) (disk : D)
    {f : Action (AsyncEofs D) Error α} {a : α} (h : f fs = (.ok a, fs)) :
    withFs disk f (.ready fs) = (.ok a, .ready fs) := by
  rw [withFs, h, putBack, hsettled]

section ExistingFile

variable {path : String} {stat : NodeStat} (hstat : fs.stat path = .ok stat)
  (hkind : stat.kind = .file)

include hstat

theorem attempt_stat {ε : Type} : (Action.query fun fs : AsyncEofs D => fs.stat path).attempt fs =
    ((.ok (.ok stat), fs) : Outcome ε _ × AsyncEofs D) := by
  rw [Action.attempt, Action.query_apply, hstat]

include hkind

theorem openNode_of_file (create : Bool) : openNode path create fs = (.ok (), fs) := by
  rw [openNode, Action.bind_of_ok (attempt_stat hstat)]
  simp only [hkind, reduceCtorEq, if_false, Action.pure_apply]

theorem nonEmptyFile_of_file : nonEmptyFile path fs = (.ok (decide (0 < stat.size)), fs) := by
  rw [nonEmptyFile, Action.bind_of_ok (attempt_stat hstat)]
  simp only [hkind, and_true, Action.pure_apply]

end ExistingFile

/-- Opening a file that exists changes nothing. -/
theorem openFile_of_file (hsettled : fs.rollback = fs) (disk : D) {path : String} {stat : NodeStat}
    (hpath : canonical path ≠ "") (hstat : fs.stat (canonical path) = .ok stat)
    (hkind : stat.kind = .file) (flags : OpenFlags) :
    openFile disk path flags (.ready fs) =
      (.ok ⟨canonical path, flags.write, flags.truncate && decide (0 < stat.size)⟩, .ready fs) := by
  rw [openFile]
  generalize canonical path = segments at *
  have hopen := withFs_of_same hsettled disk
    (mutate_of_ok (openNode_of_file hstat hkind flags.create))
  have hrecord : recordTruncation disk segments flags.truncate (.ready fs) =
      (.ok (flags.truncate && decide (0 < stat.size)), .ready fs) := by
    unfold recordTruncation
    cases flags.truncate with
    | false => rfl
    | true =>
      rw [if_pos rfl, Bool.true_and]
      exact withFs_of_same hsettled disk (nonEmptyFile_of_file hstat hkind)
  rw [if_neg hpath, Action.bind_of_ok hopen, Action.bind_of_ok hrecord, Action.pure_apply]

/-- An open that succeeds puts the file on a new handle. -/
theorem State.perform_open {slot slot' : Slot D} {files : List OpenFile} {disk : D} {path : String}
    {flags : OpenFlags} {file : OpenFile}
    (h : openFile disk path flags slot = (.ok file, slot')) :
    (⟨slot, files, none⟩ : State D).perform disk (.open path flags) =
      (.ok (.file files.length), ⟨slot', files ++ [file], none⟩) := by
  simp only [State.perform, h]

/-- A slot that mounts on first use. -/
theorem openFile_empty {disk : D} {fs : AsyncEofs D} (hmount : mountOrFormat disk = .ok fs)
    {path : String} (hpath : canonical path ≠ "") (flags : OpenFlags) :
    openFile disk path flags .empty = openFile disk path flags (.ready fs) := by
  have hfirst : withFs disk (mutate (openNode (canonical path) flags.create)) .empty =
      withFs disk (mutate (openNode (canonical path) flags.create)) (.ready fs) := by
    simp only [withFs, hmount]
  rw [openFile, if_neg hpath]
  simp only [Action.bind_apply, hfirst]

/-- A memory device, as the list of its writes with the newest one first. -/
structure PatchDevice where
  size : Nat
  patches : List (Nat × Nat × List UInt8)
  size_lt : size < 2 ^ 64
  length_eq : ∀ p ∈ patches, p.2.1 = p.2.2.length

namespace PatchDevice

def byte (d : PatchDevice) (i : Nat) : UInt8 :=
  match d.patches.find? fun p => p.1 ≤ i && i < p.1 + p.2.1 with
  | some p => p.2.2.getD (i - p.1) 0
  | none => 0

instance : BlockDevice PatchDevice where
  size := size
  readAt d offset len := do
    checkRange d.size offset len
    .ok (slice d.byte offset len)
  writeAt offset data d :=
    match checkRange d.size offset data.length with
    | .error e => (.error e, d)
    | .ok () => (.ok (), { d with
        patches := (offset, data.length, data) :: d.patches
        length_eq := List.forall_mem_cons.mpr ⟨rfl, d.length_eq⟩ })
  flush d := (.ok (), d)

omit [Primitives] in
theorem byte_cons (d : PatchDevice) (offset : Nat) (data : List UInt8)
    (h : ∀ p ∈ (offset, data.length, data) :: d.patches, p.2.1 = p.2.2.length) :
    byte { d with patches := (offset, data.length, data) :: d.patches, length_eq := h } =
      overwrite d.byte offset data := by
  funext i
  rw [byte, overwrite, List.find?_cons]
  by_cases hle : offset ≤ i
  · rw [if_pos hle]
    by_cases hlt : i < offset + data.length
    · rw [List.getElem?_eq_getElem (by omega)]
      simp [hle, hlt, List.getD, show i - offset < data.length by omega]
    · rw [List.getElem?_eq_none (by omega)]
      simp [hle, hlt, byte]
  · simp [hle, byte]

instance : LawfulDevice PatchDevice where
  byte := byte
  size_lt := size_lt
  readAt_eq d offset len h := by
    have hrange : checkRange d.size offset len = .ok () :=
      MemDevice.checkRange_ok (d := ⟨d.size, d.byte, d.size_lt⟩) h
    simp only [BlockDevice.readAt, hrange]
    rfl
  size_writeAt d offset data := by
    simp only [BlockDevice.writeAt, BlockDevice.size]
    split <;> rfl
  writeAt_prefix d offset data := by
    simp only [BlockDevice.writeAt]
    split
    · exact ⟨0, by simp, by simp⟩
    · exact ⟨data.length, by simp [byte_cons], fun _ => le_rfl⟩
  size_flush _ := rfl
  byte_flush _ := rfl

instance : ReliableDevice PatchDevice where
  writeAt_ok d offset data h := by
    have hrange : checkRange d.size offset data.length = .ok () :=
      MemDevice.checkRange_ok (d := ⟨d.size, d.byte, d.size_lt⟩) h
    simp only [BlockDevice.writeAt]
    split
    case h_1 e herror => cases hrange.symm.trans herror
    case h_2 => rfl
  flush_ok _ := rfl

end PatchDevice

/-- A root directory with the file `x` of one byte. -/
def oneFile : List UInt8 :=
  serializeDir [⟨"x", .file, ⟨1, 0, ⟨DATA_START + 128, 1, 1, .raw, hash [7]⟩⟩⟩]

def oneFileUberblock : Uberblock where
  blockSize := 512
  allocUnit := 64
  codec := .raw
  txg := 1
  frontier := DATA_START + 192
  deviceSize := DATA_START + 4096
  liveRoot := ⟨77, 0, ⟨DATA_START, 77, 77, .raw, hash oneFile⟩⟩
  snapshots := ObjRef.EMPTY

theorem length_oneFile : oneFile.length = 77 := by
  rw [oneFile, serializeDir, sortEntries, List.insertionSort_cons, List.insertionSort_nil,
    List.orderedInsert_nil, List.flatMap_singleton, DirEntry.length_writeTo]
  exact (by decide : DIR_ENTRY_FIXED + (nameBytes "x").length = 77)

/-- Its slot, its directory and its data block. -/
def oneFileDevice : PatchDevice where
  size := DATA_START + 4096
  patches := [(DATA_START, 77, oneFile), (DATA_START + 128, 1, [7]),
    (0, SLOT_SIZE, oneFileUberblock.toSlotBytes)]
  size_lt := by decide
  length_eq := by
    simp [length_oneFile, Uberblock.length_toSlotBytes]

theorem byte_oneFileDevice {i : Nat} (h : i < DATA_START) :
    oneFileDevice.byte i = overwrite (fun _ => 0) 0 oneFileUberblock.toSlotBytes i := by
  have hdir : ¬ DATA_START ≤ i := by omega
  have hdata : ¬ DATA_START + 128 ≤ i := by omega
  simp only [PatchDevice.byte, oneFileDevice, List.find?_cons, hdir, hdata, decide_false,
    Bool.false_and, List.find?_nil, Nat.zero_le, decide_true, Bool.true_and, Nat.zero_add]
  rw [overwrite, if_pos (Nat.zero_le i), Nat.sub_zero]
  by_cases hi : i < SLOT_SIZE
  · simp [hi, List.getD]
  · simp [hi]

theorem oneFileUberblock_mountable :
    oneFileUberblock.Mountable (BlockDevice.size oneFileDevice) where
  block_pow := (by decide : isPowerOfTwo 512 = true)
  block_ge := (by decide : (512 : Nat) ≤ 512)
  block_le := (by decide : (512 : Nat) ≤ 2 ^ 20)
  unit_pow := (by decide : isPowerOfTwo 64 = true)
  unit_ge := (by decide : (64 : Nat) ≤ 64)
  unit_le := (by decide : (64 : Nat) ≤ 4096)
  unit_le_block := (by decide : (64 : Nat) ≤ 512)
  device_le := (by decide : (12288 : Nat) ≤ 12288)
  frontier_le := (by decide : (8384 : Nat) ≤ 12288)
  frontier_ge := (by decide : (8192 : Nat) ≤ 8384)

theorem mountOrFormat_oneFile : mountOrFormat oneFileDevice =
    .ok (AsyncEofs.ofUberblock oneFileDevice oneFileUberblock) := by
  have hroot : ObjRef.Fits ⟨77, 0, ⟨DATA_START, 77, 77, .raw, hash oneFile⟩⟩ :=
    ⟨(by decide : (77 : Nat) < 2 ^ 64), (by decide : (0 : Nat) < 2 ^ 8),
      (by decide : (8192 : Nat) < 2 ^ 64), (by decide : (77 : Nat) < 2 ^ 32),
      (by decide : (77 : Nat) < 2 ^ 32)⟩
  have hfits : oneFileUberblock.Fits :=
    ⟨(by decide : (512 : Nat) < 2 ^ 32), (by decide : (64 : Nat) < 2 ^ 32),
      (by decide : (1 : Nat) < 2 ^ 64), (by decide : (8384 : Nat) < 2 ^ 64),
      (by decide : (12288 : Nat) < 2 ^ 64), hroot, ObjRef.fits_empty⟩
  have hslot : AsyncEofs.slotBytes oneFileDevice 0 = oneFileUberblock.toSlotBytes := by
    have hslice := slice_overwrite (fun _ => 0) 0 oneFileUberblock.toSlotBytes
    rw [Uberblock.length_toSlotBytes] at hslice
    refine (slice_congr fun i _ hi => ?_).trans hslice
    exact byte_oneFileDevice (Nat.lt_trans hi (by decide))
  have hzero : oneFileDevice.byte SLOT_SIZE = 0 := by
    rw [byte_oneFileDevice (by decide), overwrite_outside]
    exact .inr (by rw [Uberblock.length_toSlotBytes, Nat.zero_add])
  have hmount : AsyncEofs.mount oneFileDevice =
      .ok (AsyncEofs.ofUberblock oneFileDevice oneFileUberblock) :=
    AsyncEofs.mount_of_slot hfits oneFileUberblock_mountable
      (by decide : (8192 : Nat) ≤ 12288) hslot hzero
  obtain ⟨⟨fs, report⟩, hreport, -⟩ := bind_eq_ok.mp hmount
  have hsize : BlockDevice.size oneFileDevice ≠ 0 := (by decide : (12288 : Nat) ≠ 0)
  rw [mountOrFormat, if_neg hsize, probe_of_mountWithReport hreport, mapErr_ok, ok_bind]
  change (AsyncEofs.mount oneFileDevice).mapErr _ = _
  rw [hmount, mapErr_ok]

/-- The engine that mounts the image. -/
def oneFileFs : AsyncEofs PatchDevice := AsyncEofs.ofUberblock oneFileDevice oneFileUberblock

/-- The engine after the file is removed. -/
def noFileFs : AsyncEofs PatchDevice :=
  let pending := { oneFileFs with liveRoot := ObjRef.EMPTY, dirty := true }
  AsyncEofs.adopt (pending.committedTxg + 1) { pending with
    dev := (BlockDevice.flush (BlockDevice.writeAt (slotOffset ((pending.committedTxg + 1) % 2))
      pending.nextUberblock.toSlotBytes (BlockDevice.flush pending.dev).2).2).2 }

omit [Primitives] in
theorem readDir_oneFile :
    letI := plainBlake3
    oneFileFs.readDir oneFileFs.liveRoot =
      .ok [⟨"x", .file, ⟨1, 0, ⟨DATA_START + 128, 1, 1, .raw, hash [7]⟩⟩⟩] := by
  let _ := plainBlake3
  decide +kernel

omit [Primitives] in
theorem stat_oneFile :
    letI := plainBlake3
    oneFileFs.stat "/x" = .ok ⟨.file, 1, hash [7]⟩ := by
  let _ := plainBlake3
  have hsplit : splitPath "/x" = .ok ["x"] := by decide
  rw [AsyncEofs.stat_of_split hsplit, AsyncEofs.resolve, AsyncEofs.walk, if_neg (by simp),
    readDir_oneFile]
  rfl

omit [Primitives] in
theorem remove_oneFile :
    letI := plainBlake3
    remove oneFileDevice "/x" (.ready oneFileFs) = (.ok (), .ready noFileFs) := by
  let _ := plainBlake3
  have hsplit : splitPath "/x" = .ok ["x"] := by decide
  have hresolve : oneFileFs.resolve oneFileFs.liveRoot ["x"] = .ok
      (.file, ⟨1, 0, ⟨DATA_START + 128, 1, 1, .raw, hash [7]⟩⟩) := by
    rw [AsyncEofs.resolve, AsyncEofs.walk, if_neg (by simp), readDir_oneFile]
    rfl
  have hremove : AsyncEofs.remove "/x" oneFileFs =
      (.ok (), { oneFileFs with liveRoot := ObjRef.EMPTY, dirty := true }) := by
    have happly : AsyncEofs.applyInDir (.remove "x") [] oneFileFs.liveRoot oneFileFs =
        (.ok ObjRef.EMPTY, oneFileFs) := by
      rw [AsyncEofs.applyInDir, Action.bind_apply, Action.query_apply, readDir_oneFile]
      rfl
    rw [AsyncEofs.remove, Action.bind_apply, Action.monadLift_apply, hsplit]
    simp only [List.getLast?_singleton]
    rw [Action.bind_apply, Action.query_apply, hresolve]
    simp only [reduceCtorEq, false_and, if_false]
    rw [AsyncEofs.editLive, Action.bind_apply, Action.gets_apply]
    exact Action.bind_of_ok happly
  let pending : AsyncEofs PatchDevice := { oneFileFs with liveRoot := ObjRef.EMPTY, dirty := true }
  have hcommit := pending.commit_of_reliable rfl (by decide : 1 + 1 < 2 ^ 64)
    (by decide : (8192 : Nat) ≤ 12288)
  have hwhole : (do
      AsyncEofs.remove "/x"
      let _ ← AsyncEofs.commit
      pure () : Engine PatchDevice Unit) oneFileFs = (.ok (), noFileFs) := by
    rw [Action.bind_of_ok hremove, Action.bind_of_ok hcommit, Action.pure_apply, noFileFs]
  have hpath : canonical "/x" = "/x" := by decide
  rw [remove, hpath, if_neg (by decide), withFs, mutate_of_ok hwhole, putBack, noFileFs,
    AsyncEofs.rollback_adopt]

/-- The file is opened with a truncation and without one, and removed. -/
def removing : List (Event PatchDevice) :=
  [.call (.open "/x" ⟨true, false, true⟩) oneFileDevice,
    .call (.open "/x" ⟨true, false, false⟩) oneFileDevice, .call (.remove "/x") oneFileDevice]

def removed : State PatchDevice := ⟨.ready noFileFs, [⟨"/x", true, true⟩, ⟨"/x", true, false⟩], none⟩

omit [Primitives] in
theorem run_removing :
    letI := plainBlake3
    Run (fun s e s' => s.next e = s' ∧ Proper s e) State.initial removing removed := by
  let _ := plainBlake3
  have hpath : canonical "/x" = "/x" := by decide
  have hopen : ∀ flags, openFile oneFileDevice "/x" flags (.ready oneFileFs) =
      (.ok ⟨"/x", flags.write, flags.truncate⟩, .ready oneFileFs) := by
    intro flags
    have hstat : oneFileFs.stat (canonical "/x") = .ok ⟨.file, 1, hash [7]⟩ := by
      rw [hpath, stat_oneFile]
    rw [openFile_of_file rfl oneFileDevice (by decide) hstat rfl flags, hpath]
    simp
  have hfirst : openFile oneFileDevice "/x" ⟨true, false, true⟩ .empty =
      (.ok ⟨"/x", true, true⟩, .ready oneFileFs) :=
    (openFile_empty mountOrFormat_oneFile (by decide) _).trans (hopen _)
  let opened : List OpenFile → State PatchDevice := fun files => ⟨.ready oneFileFs, files, none⟩
  have hone : State.initial.next (.call (.open "/x" ⟨true, false, true⟩) oneFileDevice) =
      opened [⟨"/x", true, true⟩] := by
    exact (State.next_call ..).trans (congrArg Prod.snd (State.perform_open hfirst))
  have htwo : (opened [⟨"/x", true, true⟩]).next
      (.call (.open "/x" ⟨true, false, false⟩) oneFileDevice) =
      opened [⟨"/x", true, true⟩, ⟨"/x", true, false⟩] := by
    exact (State.next_call ..).trans (congrArg Prod.snd (State.perform_open (hopen _)))
  have hthree : (opened [⟨"/x", true, true⟩, ⟨"/x", true, false⟩]).next
      (.call (.remove "/x") oneFileDevice) = removed := by
    rw [State.next_call]
    simp only [State.perform, State.after, opened, remove_oneFile, removed]
  refine .cons ⟨hone, ?_⟩ (.cons ⟨htwo, ?_⟩ (.single ⟨hthree, ?_⟩))
  all_goals
    apply proper_of_ne_write
    rintro _ _ _ ⟨⟩

omit [Primitives] in
/-- The path leads nowhere then. -/
theorem stat_removed : letI := plainBlake3; noFileFs.stat "/x" = Outcome.fail .notFound := by
  let _ := plainBlake3
  have hsplit : splitPath "/x" = .ok ["x"] := by decide
  rw [AsyncEofs.stat_of_split hsplit]
  rfl

omit [Primitives] in
/-- The write through the second handle is refused. -/
theorem refused_of_run_removed :
    letI := plainBlake3
    (removed.perform oneFileDevice (.write 1 0 [8])).1 = Outcome.fail .notFound ∨
      (removed.perform oneFileDevice (.write 1 0 [8])).1 = Outcome.fail .isADirectory := by
  let _ := plainBlake3
  refine (refused_of_run run_removing (.call (.write 1 0 [8]) oneFileDevice) ?_ removed _ oneFileDevice
    ⟨"/x", true, false⟩ noFileFs rfl ⟨⟨1, 0, [8], rfl, rfl⟩, rfl, .inl stat_removed⟩).1
  intro before c disk file fs hperforms hstray
  obtain ⟨rfl, heq⟩ := Prod.mk.inj (Option.some.inj hperforms)
  obtain ⟨handle, offset, bytes, hwrite, hfile⟩ := hstray.write
  cases (Prod.mk.inj heq).1.trans hwrite
  cases Option.some.inj hfile
  cases Option.some.inj hstray.engine
  refine ⟨rfl, rfl, ?_, .inl rfl⟩
  rw [stat_removed]
  rintro ⟨⟩

omit [Primitives] in
/-- The write through the first handle brings the removed file back. -/
theorem recreated_file :
    letI := plainBlake3
    ¬ ∀ (events : List (Event PatchDevice)) (s : State PatchDevice),
      Run (fun s e s' => s.next e = s') .initial events s → ∀ e, Refused s e := by
  let _ := plainBlake3
  intro h
  have hwrite : (removed.perform oneFileDevice (.write 0 0 [])).1 = .ok (.wrote 0) := by
    decide +kernel
  have hrefused := h removing removed (run_removing.mono fun _ _ _ hstep => hstep.1)
    (.call (.write 0 0 []) oneFileDevice) removed _ oneFileDevice ⟨"/x", true, true⟩ noFileFs rfl
    ⟨⟨0, 0, [], rfl, rfl⟩, rfl, .inl stat_removed⟩
  rw [hwrite] at hrefused
  rcases hrefused.1 with heq | heq <;> cases heq

end Provider

end Eo9.Eofs
