import Eo9.Eofs.Entries
import Mathlib.Data.Nat.Log

/-!
# Directories and snapshot tables as records

A directory is stored in one canonical order, so its bytes depend on its set of entries
and on nothing else. Bytes that parse are records back to back, one for each entry, and
each entry is read from its own record alone.
-/

namespace Eo9.Eofs

open Eo9.Library Outcome

theorem nameLe_total (a b : String) : nameLe a b ∨ nameLe b a :=
  le_total (α := List Nat) _ _

theorem nameLe_trans {a b c : String} (hab : nameLe a b) (hbc : nameLe b c) : nameLe a c :=
  le_trans (α := List Nat) hab hbc

theorem nameLe_antisymm {a b : String} (hab : nameLe a b) (hba : nameLe b a) : a = b := by
  have h : (nameBytes a).map UInt8.toNat = (nameBytes b).map UInt8.toNat :=
    le_antisymm (α := List Nat) hab hba
  exact nameBytes_injective (List.map_injective_iff.mpr (fun _ _ => UInt8.toNat.inj) h)

theorem perm_sortEntries (entries : List DirEntry) : (sortEntries entries).Perm entries :=
  List.perm_insertionSort _ entries

theorem pairwise_sortEntries (entries : List DirEntry) :
    (sortEntries entries).Pairwise fun a b => nameLe a.name b.name := by
  have htotal : Std.Total fun a b : DirEntry => nameLe a.name b.name :=
    ⟨fun a b => nameLe_total a.name b.name⟩
  have htrans : IsTrans DirEntry fun a b => nameLe a.name b.name :=
    ⟨fun _ _ _ hab hbc => nameLe_trans hab hbc⟩
  exact List.pairwise_insertionSort _ entries

/-- Entries with distinct names have one sorted order. -/
theorem sortEntries_of_perm {entries others : List DirEntry} (h : entries.Perm others)
    (hnodup : (entries.map DirEntry.name).Nodup) : sortEntries entries = sortEntries others := by
  have hperm : (sortEntries entries).Perm (sortEntries others) :=
    (perm_sortEntries entries).trans (h.trans (perm_sortEntries others).symm)
  apply hperm.eq_of_pairwise ?_ (pairwise_sortEntries entries) (pairwise_sortEntries others)
  intro a b ha hb hab hba
  have ha : a ∈ entries := (perm_sortEntries entries).mem_iff.mp ha
  have hb : b ∈ entries := h.mem_iff.mpr ((perm_sortEntries others).mem_iff.mp hb)
  exact List.inj_on_of_nodup_map hnodup ha hb (nameLe_antisymm hab hba)

/-- The bytes of a directory do not depend on the order its entries are given in. -/
theorem serializeDir_of_perm {entries others : List DirEntry} (h : entries.Perm others)
    (hnodup : (entries.map DirEntry.name).Nodup) : serializeDir entries = serializeDir others := by
  rw [serializeDir, serializeDir, sortEntries_of_perm h hnodup]

/-- The bytes of a directory determine its entries. -/
theorem perm_of_serializeDir {entries others : List DirEntry}
    (h : ∀ entry ∈ entries, entry.Fits) (hothers : ∀ entry ∈ others, entry.Fits)
    (heq : serializeDir entries = serializeDir others) : entries.Perm others := by
  have hsort : sortEntries entries = sortEntries others := by
    have hread := parseDir_serializeDir h
    rw [heq, parseDir_serializeDir hothers] at hread
    exact (Except.ok.inj hread).symm
  calc entries.Perm (sortEntries entries) := (perm_sortEntries entries).symm
    _ = sortEntries others := hsort
    List.Perm _ others := perm_sortEntries others

section Records

variable {α : Type} {parse : List UInt8 → Outcome FsError (α × List UInt8)} {size : α → Nat}

/-- The bytes that an entry is read from, wherever they stand. -/
structure Record (parse : List UInt8 → Outcome FsError (α × List UInt8)) (size : α → Nat)
    (bytes : List UInt8) (entry : α) : Prop where
  length : bytes.length = size entry
  parse : ∀ rest, parse (bytes ++ rest) = .ok (entry, rest)

/-- An entry is read from a record at the head of the input, and the rest is left. -/
def Consumes (parse : List UInt8 → Outcome FsError (α × List UInt8)) (size : α → Nat) : Prop :=
  ∀ rest entry rest', parse rest = .ok (entry, rest') →
    ∃ record, rest = record ++ rest' ∧ Record parse size record entry

/-- The entries take up the input exactly. -/
theorem parseEntries_records (h : Consumes parse size) {fuel : Nat} {bytes : List UInt8}
    {entries : List α} (hok : parseEntries parse fuel bytes = .ok entries) :
    ∃ records, records.flatten = bytes ∧ List.Forall₂ (Record parse size) records entries := by
  induction fuel generalizing bytes entries with
  | zero =>
    cases bytes with
    | nil =>
      obtain rfl := Except.ok.inj hok
      exact ⟨[], rfl, .nil⟩
    | cons b bytes => cases hok
  | succ fuel ih =>
    cases bytes with
    | nil =>
      obtain rfl := Except.ok.inj hok
      exact ⟨[], rfl, .nil⟩
    | cons b bytes =>
      obtain ⟨⟨entry, rest⟩, hstep, hok⟩ := bind_eq_ok.mp hok
      obtain ⟨others, hothers, hok⟩ := bind_eq_ok.mp hok
      obtain rfl := Except.ok.inj hok
      obtain ⟨record, hrecord, hentry⟩ := h _ _ _ hstep
      obtain ⟨records, hflatten, hall⟩ := ih hothers
      exact ⟨record :: records, by rw [List.flatten_cons, hflatten, hrecord],
        .cons hentry hall⟩

end Records

/-- A range within the first part of an append. -/
theorem rangeOf_take_append {bytes tail : List UInt8} {start stop len : Nat} (hstart : start ≤ stop)
    (hstop : stop ≤ len) (hlen : len ≤ bytes.length) :
    (rangeOf (bytes.take len ++ tail) start stop : Outcome FsError (List UInt8)) =
      rangeOf bytes start stop := by
  have htake : (bytes.take len).length = len := List.length_take_of_le hlen
  rw [rangeOf_ok hstart (by rw [List.length_append, htake]; omega), rangeOf_ok hstart (by omega)]
  congr 1
  ext1 i
  rw [getElem?_sub, getElem?_sub, List.getElem?_append, htake, List.getElem?_take]
  grind

theorem elemAt_take_append {bytes tail : List UInt8} {i len : Nat} (hi : i < len)
    (hlen : len ≤ bytes.length) :
    (elemAt (bytes.take len ++ tail) i : Outcome FsError UInt8) = elemAt bytes i := by
  have htake : (bytes.take len).length = len := List.length_take_of_le hlen
  rw [elemAt, elemAt, List.getElem?_append_left (by omega), List.getElem?_take_of_lt hi]

theorem length_take_append_sub {bytes tail : List UInt8} {len : Nat} (hlen : len ≤ bytes.length) :
    (bytes.take len ++ tail).length = len + tail.length := by
  rw [List.length_append, List.length_take_of_le hlen]

/-- The size of a directory entry as it is stored. -/
def DirEntry.stored (entry : DirEntry) : Nat := DIR_ENTRY_FIXED + (nameBytes entry.name).length

def SnapEntry.stored (entry : SnapEntry) : Nat := SNAP_ENTRY_FIXED + (nameBytes entry.name).length

theorem consumes_parseDirEntry : Consumes parseDirEntry DirEntry.stored := by
  intro rest entry rest' h
  have hfixed : DIR_ENTRY_FIXED = 76 := rfl
  have href : OBJ_REF_SIZE = 72 := rfl
  unfold parseDirEntry at h
  split at h
  · cases h
  obtain ⟨lenBytes, hlenBytes, h⟩ := bind_eq_ok.mp h
  obtain ⟨tag, htag, h⟩ := bind_eq_ok.mp h
  obtain ⟨kind, hkind, h⟩ := bind_eq_ok.mp h
  obtain ⟨objBytes, hobjBytes, h⟩ := bind_eq_ok.mp h
  obtain ⟨obj, hobj, h⟩ := bind_eq_ok.mp h
  split at h
  · cases h
  next hname =>
  obtain ⟨bytes, hbytes, h⟩ := bind_eq_ok.mp h
  split at h
  · cases h
  next name hof =>
  obtain ⟨rfl, rfl⟩ := Prod.mk.inj (Except.ok.inj h)
  have hlen : (nameBytes name).length = leValue lenBytes := by
    obtain ⟨-, rfl⟩ := rangeOf_eq_ok_iff.mp hbytes
    rw [nameBytes_of_nameOf hof, length_sub (by omega)]
    omega
  have hle : DIR_ENTRY_FIXED + leValue lenBytes ≤ rest.length := by omega
  refine ⟨rest.take (DIR_ENTRY_FIXED + leValue lenBytes), (List.take_append_drop _ _).symm,
    ⟨?_, fun tail => ?_⟩⟩
  · rw [List.length_take_of_le hle, DirEntry.stored, hlen]
  · have hshort : ¬ (rest.take (DIR_ENTRY_FIXED + leValue lenBytes) ++ tail).length <
        DIR_ENTRY_FIXED := by
      rw [length_take_append_sub hle]
      omega
    have hfits : ¬ (MAX_NAME_LEN < leValue lenBytes ∨
        (rest.take (DIR_ENTRY_FIXED + leValue lenBytes) ++ tail).length - DIR_ENTRY_FIXED <
          leValue lenBytes) := by
      rw [length_take_append_sub hle]
      omega
    have hrange : ∀ start stop, start ≤ stop → stop ≤ DIR_ENTRY_FIXED + leValue lenBytes →
        (rangeOf (rest.take (DIR_ENTRY_FIXED + leValue lenBytes) ++ tail) start stop :
          Outcome FsError _) = rangeOf rest start stop :=
      fun _ _ hstart hstop => rangeOf_take_append hstart hstop hle
    have helem : (elemAt (rest.take (DIR_ENTRY_FIXED + leValue lenBytes) ++ tail) 2 :
        Outcome FsError _) = elemAt rest 2 := elemAt_take_append (by omega) hle
    rw [parseDirEntry, if_neg hshort]
    simp only [hrange 0 2 (by omega) (by omega), hlenBytes, helem, htag, hkind,
      hrange 4 (4 + OBJ_REF_SIZE) (by omega) (by omega), hobjBytes, hobj, ok_bind, if_neg hfits,
      hrange DIR_ENTRY_FIXED _ (Nat.le_add_right _ _) le_rfl, hbytes, hof]
    rw [List.drop_left' (List.length_take_of_le hle)]

theorem consumes_parseSnapEntry : Consumes parseSnapEntry SnapEntry.stored := by
  intro rest entry rest' h
  have hfixed : SNAP_ENTRY_FIXED = 88 := rfl
  have href : OBJ_REF_SIZE = 72 := rfl
  unfold parseSnapEntry at h
  split at h
  · cases h
  obtain ⟨txgBytes, htxgBytes, h⟩ := bind_eq_ok.mp h
  obtain ⟨lenBytes, hlenBytes, h⟩ := bind_eq_ok.mp h
  obtain ⟨rootBytes, hrootBytes, h⟩ := bind_eq_ok.mp h
  obtain ⟨root, hroot, h⟩ := bind_eq_ok.mp h
  split at h
  · cases h
  next hname =>
  obtain ⟨bytes, hbytes, h⟩ := bind_eq_ok.mp h
  split at h
  · cases h
  next name hof =>
  obtain ⟨rfl, rfl⟩ := Prod.mk.inj (Except.ok.inj h)
  have hlen : (nameBytes name).length = leValue lenBytes := by
    obtain ⟨-, rfl⟩ := rangeOf_eq_ok_iff.mp hbytes
    rw [nameBytes_of_nameOf hof, length_sub (by omega)]
    omega
  have hle : SNAP_ENTRY_FIXED + leValue lenBytes ≤ rest.length := by omega
  refine ⟨rest.take (SNAP_ENTRY_FIXED + leValue lenBytes), (List.take_append_drop _ _).symm,
    ⟨?_, fun tail => ?_⟩⟩
  · rw [List.length_take_of_le hle, SnapEntry.stored, hlen]
  · have hshort : ¬ (rest.take (SNAP_ENTRY_FIXED + leValue lenBytes) ++ tail).length <
        SNAP_ENTRY_FIXED := by
      rw [length_take_append_sub hle]
      omega
    have hfits : ¬ (MAX_NAME_LEN < leValue lenBytes ∨
        (rest.take (SNAP_ENTRY_FIXED + leValue lenBytes) ++ tail).length - SNAP_ENTRY_FIXED <
          leValue lenBytes) := by
      rw [length_take_append_sub hle]
      omega
    have hrange : ∀ start stop, start ≤ stop → stop ≤ SNAP_ENTRY_FIXED + leValue lenBytes →
        (rangeOf (rest.take (SNAP_ENTRY_FIXED + leValue lenBytes) ++ tail) start stop :
          Outcome FsError _) = rangeOf rest start stop :=
      fun _ _ hstart hstop => rangeOf_take_append hstart hstop hle
    rw [parseSnapEntry, if_neg hshort]
    simp only [hrange 0 8 (by omega) (by omega), htxgBytes, hrange 8 10 (by omega) (by omega),
      hlenBytes, hrange 16 (16 + OBJ_REF_SIZE) (by omega) (by omega), hrootBytes, hroot, ok_bind,
      if_neg hfits, hrange SNAP_ENTRY_FIXED _ (Nat.le_add_right _ _) le_rfl, hbytes, hof]
    rw [List.drop_left' (List.length_take_of_le hle)]

/-- What is written is read back; the bytes of a directory stand for its set of entries;
and what parses is made of records, read without a step out of bounds. -/
theorem codec_exact [Primitives] :
    (∀ ub : Uberblock, ub.Fits → Uberblock.classifySlot ub.toSlotBytes = .ok (.valid ub)) ∧
    (∀ entries : List DirEntry, (∀ entry ∈ entries, entry.Fits) →
      parseDir (serializeDir entries) = .ok (sortEntries entries) ∧
        (sortEntries entries).Perm entries ∧
        (sortEntries entries).Pairwise fun a b => nameLe a.name b.name) ∧
    (∀ entries : List SnapEntry, (∀ entry ∈ entries, entry.Fits) →
      parseSnapshots (serializeSnapshots entries) = .ok entries) ∧
    (∀ entries others : List DirEntry, (entries.map DirEntry.name).Nodup →
      entries.Perm others → serializeDir entries = serializeDir others) ∧
    (∀ entries others : List DirEntry, (∀ entry ∈ entries, entry.Fits) →
      (∀ entry ∈ others, entry.Fits) → serializeDir entries = serializeDir others →
      entries.Perm others) ∧
    (∀ bytes, Clean (parseDir bytes) ∧ ∀ entries, parseDir bytes = .ok entries →
      ∃ records, records.flatten = bytes ∧
        List.Forall₂ (Record parseDirEntry DirEntry.stored) records entries) ∧
    (∀ bytes, Clean (parseSnapshots bytes) ∧ ∀ entries, parseSnapshots bytes = .ok entries →
      ∃ records, records.flatten = bytes ∧
        List.Forall₂ (Record parseSnapEntry SnapEntry.stored) records entries) := by
  refine ⟨fun ub h => Uberblock.classifySlot_toSlotBytes h, fun entries h => ?_,
    fun entries h => parseSnapshots_serializeSnapshots h,
    fun entries others hnodup h => serializeDir_of_perm h hnodup,
    fun entries others h hothers heq => perm_of_serializeDir h hothers heq,
    fun bytes => ⟨clean_parseDir bytes, fun entries h => ?_⟩,
    fun bytes => ⟨clean_parseSnapshots bytes, fun entries h => ?_⟩⟩
  · exact ⟨parseDir_serializeDir h, perm_sortEntries entries, pairwise_sortEntries entries⟩
  · exact parseEntries_records consumes_parseDirEntry h
  · exact parseEntries_records consumes_parseSnapEntry h

/-!
## Reading objects of a mounted device

The geometry that a mount has checked, what it gives the readers of blocks and
objects, and the height of a block tree as a logarithm of its width.
-/

namespace AsyncEofs

variable {D : Type} [BlockDevice D]

/-- What `format` and `mount` check before they hand out an engine, and what
no operation changes. -/
structure Geometry (fs : AsyncEofs D) : Prop where
  block_ge : 512 ≤ fs.blockSize
  block_le : fs.blockSize ≤ 2 ^ 20
  unit_ge : 64 ≤ fs.allocUnit
  unit_dvd : fs.allocUnit ∣ SLOT_SIZE
  unit_le : fs.allocUnit ≤ fs.blockSize
  start_le : DATA_START ≤ fs.deviceSize
  device_size : fs.deviceSize = BlockDevice.size fs.dev
  format_size : fs.formatDeviceSize ≤ fs.deviceSize
  alloc_unit : fs.alloc.allocUnit = fs.allocUnit
  alloc_size : fs.alloc.deviceSize = fs.deviceSize
  frontier_ge : DATA_START ≤ fs.alloc.frontier
  frontier_le : fs.alloc.frontier ≤ fs.deviceSize

section Geometry

variable {fs : AsyncEofs D} (hgeo : fs.Geometry)

include hgeo

theorem Geometry.unit_pos : 0 < fs.allocUnit := by
  have := hgeo.unit_ge
  omega

theorem Geometry.block_pos : 0 < fs.blockSize := by
  have := hgeo.block_ge
  omega

theorem Geometry.fanout_ge : 9 ≤ fs.fanout := by
  have := hgeo.block_ge
  have h : (9 : Nat) ≤ fs.blockSize / 56 := by omega
  exact h

theorem Geometry.size_lt [LawfulDevice D] : fs.deviceSize < 2 ^ 64 := by
  rw [hgeo.device_size]
  exact LawfulDevice.size_lt fs.dev

end Geometry

omit [BlockDevice D] in
/-- The search for the canonical height, from any height it passes through. -/
theorem canonicalLevel_from {fanout n fuel level : Nat} (hf : 2 ≤ fanout) (hn : n < 2 ^ 64)
    (hlevel : level ≤ Nat.clog fanout n) (hfuel : fuel + level = 257) :
    canonicalLevel fanout n fuel (min (fanout ^ level) (2 ^ 64 - 1)) level =
      .ok (Nat.clog fanout n) := by
  have hheight : Nat.clog fanout n ≤ 64 := by
    refine (Nat.clog_le_iff_le_pow hf).mpr (Nat.le_of_lt (Nat.lt_of_lt_of_le hn ?_))
    exact Nat.pow_le_pow_left hf 64
  induction fuel generalizing level with
  | zero => omega
  | succ fuel ih =>
    unfold canonicalLevel
    by_cases hlt : min (fanout ^ level) (2 ^ 64 - 1) < n
    · have hpow : fanout ^ level < n := by omega
      have hnext : level < Nat.clog fanout n := (Nat.lt_clog_iff_pow_lt hf).mpr hpow
      have hcap : min (min (fanout ^ level) (2 ^ 64 - 1) * fanout) (2 ^ 64 - 1) =
          min (fanout ^ (level + 1)) (2 ^ 64 - 1) := by
        rw [Nat.min_eq_left (show fanout ^ level ≤ 2 ^ 64 - 1 by omega),
          ← Nat.pow_succ]
      have hadd : (checkedAdd 8 level 1 : Outcome FsError Nat) = .ok (level + 1) :=
        checkedAdd_ok (by omega)
      rw [if_pos hlt, hadd, ok_bind, hcap]
      exact ih hnext (by omega)
    · have hpow : n ≤ fanout ^ level := by omega
      have := (Nat.clog_le_iff_le_pow hf).mpr hpow
      rw [if_neg hlt, Nat.le_antisymm this hlevel]

omit [BlockDevice D] in
/-- The canonical height is the logarithm of the width, rounded up. -/
theorem canonicalLevel_eq {fanout n : Nat} (hf : 2 ≤ fanout) (hn : n < 2 ^ 64) :
    canonicalLevel fanout n 257 1 0 = .ok (Nat.clog fanout n) :=
  canonicalLevel_from hf hn (Nat.zero_le _) rfl

/-- The most data blocks a device has room for. -/
def maxLeaves (fs : AsyncEofs D) : Nat := (fs.deviceSize - DATA_START) / fs.allocUnit

omit [BlockDevice D] in
theorem maxLeaves_le_size (fs : AsyncEofs D) : fs.maxLeaves ≤ fs.deviceSize :=
  (Nat.div_le_self _ _).trans (Nat.sub_le _ _)

/-- A non-empty reference that a walk may be started on. -/
structure Walkable (fs : AsyncEofs D) (obj : ObjRef) : Prop where
  size_pos : 0 < obj.size
  root : obj.root.isNull = false
  leaves_le : divCeil obj.size fs.blockSize ≤ fs.maxLeaves
  level : obj.level = Nat.clog fs.fanout (divCeil obj.size fs.blockSize)

section Checks

variable [LawfulDevice D] {fs : AsyncEofs D} (hgeo : fs.Geometry)

include hgeo

/-- The sanity check, as a condition: an empty reference, or one of the right
height and no wider than the device. -/
theorem checkObject_eq (obj : ObjRef) : (∃ what, fs.checkObject obj = corrupt what) ∨
    (obj.size = 0 ∧ obj.root.isNull = true ∧ obj.level = 0 ∧ fs.checkObject obj = .ok 0) ∨
    (fs.Walkable obj ∧ fs.checkObject obj = .ok (divCeil obj.size fs.blockSize)) := by
  have hroom : (checkedSub fs.deviceSize DATA_START : Outcome FsError Nat) =
      .ok (fs.deviceSize - DATA_START) := checkedSub_ok hgeo.start_le
  have hfan := hgeo.fanout_ge
  unfold checkObject
  by_cases hsize : obj.size = 0
  · rw [if_pos hsize]
    by_cases hroot : obj.root.isNull = false ∨ obj.level ≠ 0
    · exact .inl ⟨_, if_pos hroot⟩
    · rw [if_neg hroot]
      exact .inr (.inl ⟨hsize, by simp_all, by simp_all, rfl⟩)
  · rw [if_neg hsize]
    by_cases hroot : obj.root.isNull = true
    · exact .inl ⟨_, if_pos hroot⟩
    · rw [if_neg hroot, hroom, ok_bind]
      by_cases hwide : (fs.deviceSize - DATA_START) / fs.allocUnit <
          divCeil obj.size fs.blockSize
      · exact .inl ⟨_, if_pos hwide⟩
      · have hleaves : divCeil obj.size fs.blockSize ≤ fs.maxLeaves := Nat.le_of_not_lt hwide
        have hlt : divCeil obj.size fs.blockSize < 2 ^ 64 :=
          Nat.lt_of_le_of_lt (hleaves.trans fs.maxLeaves_le_size) hgeo.size_lt
        rw [if_neg hwide, canonicalLevel_eq (by omega) hlt, ok_bind]
        by_cases hlevel : obj.level ≠ Nat.clog fs.fanout (divCeil obj.size fs.blockSize)
        · exact .inl ⟨_, if_pos hlevel⟩
        · rw [if_neg hlevel]
          refine .inr (.inr ⟨⟨Nat.pos_of_ne_zero hsize, by simpa using hroot, hleaves,
            not_not.mp hlevel⟩, rfl⟩)

theorem clean_checkObject (obj : ObjRef) : Clean (fs.checkObject obj) := by
  rcases checkObject_eq hgeo obj with ⟨what, h⟩ | ⟨-, -, -, h⟩ | ⟨-, h⟩ <;> rw [h]
  · exact clean_fail _
  · exact clean_ok _
  · exact clean_ok _

/-- What an accepted reference looks like. -/
theorem checkObject_ok {obj : ObjRef} {n : Nat} (h : fs.checkObject obj = .ok n) :
    (obj.size = 0 ∧ obj.root.isNull = true ∧ n = 0) ∨
      (fs.Walkable obj ∧ n = divCeil obj.size fs.blockSize ∧ 0 < n) := by
  rcases checkObject_eq hgeo obj with ⟨what, heq⟩ | ⟨hsize, hroot, -, heq⟩ | ⟨hwalk, heq⟩
  · rw [heq] at h
    cases h
  · rw [heq] at h
    exact .inl ⟨hsize, hroot, (Except.ok.inj h).symm⟩
  · rw [heq] at h
    obtain rfl := Except.ok.inj h
    exact .inr ⟨hwalk, rfl, divCeil_pos hgeo.block_pos hwalk.size_pos⟩

theorem checkObject_walkable {obj : ObjRef} (h : fs.Walkable obj) :
    fs.checkObject obj = .ok (divCeil obj.size fs.blockSize) := by
  have hsize := h.size_pos
  have hroom : (checkedSub fs.deviceSize DATA_START : Outcome FsError Nat) =
      .ok (fs.deviceSize - DATA_START) := checkedSub_ok hgeo.start_le
  have hfan := hgeo.fanout_ge
  have hlt : divCeil obj.size fs.blockSize < 2 ^ 64 :=
    Nat.lt_of_le_of_lt (h.leaves_le.trans fs.maxLeaves_le_size) hgeo.size_lt
  have hwide : ¬ (fs.deviceSize - DATA_START) / fs.allocUnit < divCeil obj.size fs.blockSize :=
    Nat.not_lt_of_le h.leaves_le
  rw [checkObject, if_neg (by omega), if_neg (by simp [h.root]), hroom, ok_bind,
    if_neg hwide, canonicalLevel_eq (by omega) hlt, ok_bind,
    if_neg (not_not.mpr h.level)]

end Checks

section Reading

variable [Primitives] [LawfulDevice D] {fs : AsyncEofs D} (hgeo : fs.Geometry)

include hgeo

omit [Primitives] in
theorem readAt_of_ptrOk {ptr : BlockPtr} (h : fs.PtrOk ptr) :
    BlockDevice.readAt fs.dev ptr.addr ptr.psize =
      .ok (slice (LawfulDevice.byte fs.dev) ptr.addr ptr.psize) := by
  refine LawfulDevice.readAt_eq fs.dev _ _ ?_
  rw [← hgeo.device_size]
  exact h.le_size

/-- A block that is read has the logical size its pointer gives. -/
theorem readBlock_length {ptr : BlockPtr} {b : List UInt8} (h : fs.readBlock ptr = .ok b) :
    fs.PtrOk ptr ∧ b.length = ptr.lsize := by
  obtain ⟨hptr, payload, hread, hdecode, -⟩ := readBlock_eq_ok_iff.mp h
  refine ⟨hptr, ?_⟩
  rcases decodeBlock_eq_ok_iff.mp hdecode with ⟨-, hsizes, rfl⟩ | ⟨-, -, hlen⟩
  · rw [readAt_of_ptrOk hgeo hptr] at hread
    obtain rfl := Except.ok.inj hread
    rw [length_slice, hsizes]
  · exact hlen

omit [LawfulDevice D] hgeo in
theorem clean_collectLevel (leafCount level : Nat) (ptr : BlockPtr) (out : List BlockPtr) :
    Clean (fs.collectLevel leafCount level ptr out) := by
  induction level generalizing ptr out with
  | zero =>
    unfold collectLevel
    split
    · exact clean_fail _
    · exact clean_ok _
  | succ level ih =>
    refine clean_bind.mpr ⟨clean_readBlock fs ptr, fun block _ => ?_⟩
    split
    · exact clean_fail _
    · next hblock =>
      have hdvd : block.length % BLOCK_PTR_SIZE = 0 := by
        by_contra hne
        exact hblock (.inr hne)
      refine clean_foldlM (p := fun _ => True) trivial ?_ (fun _ _ _ _ _ _ => trivial)
      intro out chunk _ hchunk
      have hlen := length_mem_chunks_of_dvd (by decide) hdvd hchunk
      exact clean_bind.mpr ⟨BlockPtr.clean_readFrom hlen, fun child _ => ih child out⟩

theorem clean_collectLeaves (obj : ObjRef) : Clean (fs.collectLeaves obj) := by
  refine clean_bind.mpr ⟨clean_checkObject hgeo obj, fun leafCount _ => ?_⟩
  split
  · exact clean_ok _
  · refine clean_bind.mpr ⟨clean_collectLevel leafCount _ _ _, fun leaves _ => ?_⟩
    split
    · exact clean_fail _
    · exact clean_ok _

/-- The leaves of an object that has some. -/
theorem collectLeaves_eq_ok {obj : ObjRef} {leaves : List BlockPtr} (hsize : 0 < obj.size)
    (h : fs.collectLeaves obj = .ok leaves) : fs.Walkable obj ∧
      fs.collectLevel (divCeil obj.size fs.blockSize) obj.level obj.root [] = .ok leaves ∧
      leaves.length = divCeil obj.size fs.blockSize := by
  obtain ⟨n, hn, h⟩ := bind_eq_ok.mp h
  rcases checkObject_ok hgeo hn with ⟨hzero, -⟩ | ⟨hwalk, rfl, hpos⟩
  · omega
  · rw [if_neg (by omega)] at h
    obtain ⟨leaves', hlevel, h⟩ := bind_eq_ok.mp h
    by_cases hlen : leaves'.length ≠ divCeil obj.size fs.blockSize
    · simp [hlen, corrupt, Outcome.fail] at h
    · rw [if_neg hlen] at h
      obtain rfl := Except.ok.inj h
      exact ⟨hwalk, hlevel, not_not.mp hlen⟩

end Reading

end AsyncEofs

end Eo9.Eofs
