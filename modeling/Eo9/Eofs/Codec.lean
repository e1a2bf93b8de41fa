import Eo9.Eofs.Blocks

/-!
# The encoders and parsers of stored structures

What is written is read back, what is read back fits its fields, and no
parser reads outside its input or runs on without consuming bytes.
-/

namespace Eo9.Eofs

open Eo9.Library Outcome

/-- A pointer whose fields fit in their widths. -/
structure BlockPtr.Fits (ptr : BlockPtr) : Prop where
  addr : ptr.addr < 2 ^ 64
  lsize : ptr.lsize < 2 ^ 32
  psize : ptr.psize < 2 ^ 32

/-- A reference whose fields fit in their widths. -/
structure ObjRef.Fits (obj : ObjRef) : Prop where
  size : obj.size < 2 ^ 64
  level : obj.level < 2 ^ 8
  root : obj.root.Fits

structure Uberblock.Fits (ub : Uberblock) : Prop where
  blockSize : ub.blockSize < 2 ^ 32
  allocUnit : ub.allocUnit < 2 ^ 32
  txg : ub.txg < 2 ^ 64
  frontier : ub.frontier < 2 ^ 64
  deviceSize : ub.deviceSize < 2 ^ 64
  liveRoot : ub.liveRoot.Fits
  snapshots : ub.snapshots.Fits

structure DirEntry.Fits (entry : DirEntry) : Prop where
  name : (nameBytes entry.name).length ≤ MAX_NAME_LEN
  obj : entry.obj.Fits

structure SnapEntry.Fits (entry : SnapEntry) : Prop where
  txg : entry.txg < 2 ^ 64
  name : (nameBytes entry.name).length ≤ MAX_NAME_LEN
  root : entry.root.Fits

theorem BlockPtr.fits_null : BlockPtr.NULL.Fits := by
  constructor <;> decide

theorem ObjRef.fits_empty : ObjRef.EMPTY.Fits :=
  ⟨by decide, by decide, BlockPtr.fits_null⟩

@[simp] theorem BlockPtr.length_writeTo (ptr : BlockPtr) :
    ptr.writeTo.length = BLOCK_PTR_SIZE := by
  simp [BlockPtr.writeTo, ptr.hash.2, BLOCK_PTR_SIZE]

@[simp] theorem ObjRef.length_writeTo (obj : ObjRef) : obj.writeTo.length = OBJ_REF_SIZE := by
  simp [ObjRef.writeTo, OBJ_REF_SIZE, BLOCK_PTR_SIZE]

@[simp] theorem Codec.fromTag_toTag (c : Codec) : Codec.fromTag c.toTag = .ok c := by
  cases c <;> rfl

@[simp] theorem NodeKind.fromTag_toTag (k : NodeKind) : NodeKind.fromTag k.toTag = .ok k := by
  cases k <;> rfl

theorem Codec.clean_fromTag (tag : UInt8) : Clean (Codec.fromTag tag) := by
  unfold Codec.fromTag corrupt
  split
  · exact clean_ok _
  · split
    · exact clean_ok _
    · exact clean_fail _

theorem NodeKind.clean_fromTag (tag : UInt8) : Clean (NodeKind.fromTag tag) := by
  unfold NodeKind.fromTag corrupt
  split
  · exact clean_ok _
  · split
    · exact clean_ok _
    · exact clean_fail _

theorem digestOf_val (d : Digest) : BlockPtr.digestOf d.1 = d := by
  simp [BlockPtr.digestOf, d.2]

/-- A field of `width` bytes holds a value below its bound. -/
theorem leValue_lt_of_rangeOf {l r : List UInt8} {start stop : Nat}
    (h : (rangeOf l start stop : Outcome FsError (List UInt8)) = .ok r) :
    leValue r < 256 ^ (stop - start) := by
  obtain ⟨⟨hle, hlen⟩, rfl⟩ := rangeOf_eq_ok_iff.mp h
  have := leValue_lt (sub l start (stop - start))
  rwa [length_sub (by omega)] at this

theorem BlockPtr.readFrom_writeTo {ptr : BlockPtr} (h : ptr.Fits) :
    BlockPtr.readFrom ptr.writeTo = .ok ptr := by
  have haddr : rangeOf ptr.writeTo 0 8 = (.ok (leBytes 8 ptr.addr) : Outcome FsError _) :=
    rangeOf_append (p := []) (by simp [writeTo]; rfl) rfl (by simp)
  have hlsize : rangeOf ptr.writeTo 8 12 = (.ok (leBytes 4 ptr.lsize) : Outcome FsError _) :=
    rangeOf_append (p := leBytes 8 ptr.addr) (by simp [writeTo]; rfl) (by simp) (by simp)
  have hpsize : rangeOf ptr.writeTo 12 16 = (.ok (leBytes 4 ptr.psize) : Outcome FsError _) :=
    rangeOf_append (p := leBytes 8 ptr.addr ++ leBytes 4 ptr.lsize) (by simp [writeTo]; rfl)
      (by simp) (by simp)
  have htag : elemAt ptr.writeTo 16 = (.ok ptr.codec.toTag : Outcome FsError _) :=
    elemAt_append (p := leBytes 8 ptr.addr ++ leBytes 4 ptr.lsize ++ leBytes 4 ptr.psize)
      (by simp [writeTo]; rfl) (by simp)
  have hhash : rangeOf ptr.writeTo 24 56 = (.ok ptr.hash.1 : Outcome FsError _) :=
    rangeOf_append (p := leBytes 8 ptr.addr ++ leBytes 4 ptr.lsize ++ leBytes 4 ptr.psize ++
      [ptr.codec.toTag] ++ List.replicate 7 0) (q := []) (by simp [writeTo]) (by simp)
      (by simp [ptr.hash.2])
  simp only [readFrom, haddr, hlsize, hpsize, htag, hhash, ok_bind, Codec.fromTag_toTag,
    leValue_leBytes 8 _ h.addr, leValue_leBytes 4 _ h.lsize, leValue_leBytes 4 _ h.psize,
    digestOf_val]

theorem BlockPtr.fits_of_readFrom {bytes : List UInt8} {ptr : BlockPtr}
    (h : BlockPtr.readFrom bytes = .ok ptr) : ptr.Fits := by
  obtain ⟨addr, haddr, h⟩ := bind_eq_ok.mp h
  obtain ⟨lsize, hlsize, h⟩ := bind_eq_ok.mp h
  obtain ⟨psize, hpsize, h⟩ := bind_eq_ok.mp h
  obtain ⟨tag, -, h⟩ := bind_eq_ok.mp h
  obtain ⟨codec, -, h⟩ := bind_eq_ok.mp h
  obtain ⟨hash, -, h⟩ := bind_eq_ok.mp h
  obtain rfl := Except.ok.inj h
  exact ⟨leValue_lt_of_rangeOf haddr, leValue_lt_of_rangeOf hlsize, leValue_lt_of_rangeOf hpsize⟩

/-- A slice of exactly the size of a pointer is read without a panic. -/
theorem BlockPtr.clean_readFrom {bytes : List UInt8} (h : bytes.length = BLOCK_PTR_SIZE) :
    Clean (BlockPtr.readFrom bytes) := by
  have h : bytes.length = 56 := h
  refine clean_bind.mpr ⟨clean_rangeOf.mpr (by omega), fun _ _ => ?_⟩
  refine clean_bind.mpr ⟨clean_rangeOf.mpr (by omega), fun _ _ => ?_⟩
  refine clean_bind.mpr ⟨clean_rangeOf.mpr (by omega), fun _ _ => ?_⟩
  refine clean_bind.mpr ⟨clean_elemAt.mpr (by omega), fun tag _ => ?_⟩
  refine clean_bind.mpr ⟨Codec.clean_fromTag tag, fun _ _ => ?_⟩
  exact clean_bind.mpr ⟨clean_rangeOf.mpr (by omega), fun _ _ => clean_ok _⟩

theorem ObjRef.readFrom_writeTo {obj : ObjRef} (h : obj.Fits) :
    ObjRef.readFrom obj.writeTo = .ok obj := by
  have hsize : rangeOf obj.writeTo 0 8 = (.ok (leBytes 8 obj.size) : Outcome FsError _) :=
    rangeOf_append (p := []) (by simp [writeTo]; rfl) rfl (by simp)
  have hlevel : rangeOf obj.writeTo 8 9 = (.ok (leBytes 1 obj.level) : Outcome FsError _) :=
    rangeOf_append (p := leBytes 8 obj.size) (by simp [writeTo]; rfl) (by simp) (by simp)
  have hroot : rangeOf obj.writeTo 16 (16 + BLOCK_PTR_SIZE) =
      (.ok obj.root.writeTo : Outcome FsError _) :=
    rangeOf_append (p := leBytes 8 obj.size ++ leBytes 1 obj.level ++ List.replicate 7 0)
      (q := []) (by simp [writeTo]) (by simp) (by simp)
  simp only [readFrom, hsize, hlevel, hroot, ok_bind, BlockPtr.readFrom_writeTo h.root,
    leValue_leBytes 8 _ h.size, leValue_leBytes 1 _ h.level]

theorem ObjRef.fits_of_readFrom {bytes : List UInt8} {obj : ObjRef}
    (h : ObjRef.readFrom bytes = .ok obj) : obj.Fits := by
  obtain ⟨size, hsize, h⟩ := bind_eq_ok.mp h
  obtain ⟨level, hlevel, h⟩ := bind_eq_ok.mp h
  obtain ⟨_, -, h⟩ := bind_eq_ok.mp h
  obtain ⟨root, hroot, h⟩ := bind_eq_ok.mp h
  obtain rfl := Except.ok.inj h
  exact ⟨leValue_lt_of_rangeOf hsize, leValue_lt_of_rangeOf hlevel,
    BlockPtr.fits_of_readFrom hroot⟩

theorem ObjRef.clean_readFrom {bytes : List UInt8} (h : bytes.length = OBJ_REF_SIZE) :
    Clean (ObjRef.readFrom bytes) := by
  have h : bytes.length = 72 := h
  refine clean_bind.mpr ⟨clean_rangeOf.mpr (by omega), fun _ _ => ?_⟩
  refine clean_bind.mpr ⟨clean_rangeOf.mpr (by omega), fun _ _ => ?_⟩
  refine clean_bind.mpr ⟨clean_rangeOf.mpr ⟨by decide, by rw [h]; decide⟩, fun root hroot => ?_⟩
  obtain ⟨-, rfl⟩ := rangeOf_eq_ok_iff.mp hroot
  refine clean_bind.mpr ⟨BlockPtr.clean_readFrom (length_sub ?_), fun _ _ => clean_ok _⟩
  rw [h]
  decide

namespace Uberblock

variable [Primitives]

omit [Primitives] in
@[simp] theorem length_body (ub : Uberblock) : ub.body.length = UBERBLOCK_BODY_SIZE := by
  simp [body, MAGIC, UBERBLOCK_BODY_SIZE, OBJ_REF_SIZE]

@[simp] theorem length_toSlotBytes (ub : Uberblock) : ub.toSlotBytes.length = SLOT_SIZE := by
  simp only [toSlotBytes, List.length_append, length_body, (hash ub.body).2,
    List.length_replicate]
  rfl

omit [Primitives] in
/-- The fields of a slot that starts with the body of an uberblock. -/
theorem parseBody_body {ub : Uberblock} (h : ub.Fits) (rest : List UInt8) :
    parseBody (ub.body ++ rest) = .ok (.valid ub) := by
  have hm : MAGIC.length = 8 := rfl
  have ho : OBJ_REF_SIZE = 72 := rfl
  have hversion : rangeOf (ub.body ++ rest) 8 12 =
      (.ok (leBytes 4 FORMAT_VERSION) : Outcome FsError _) :=
    rangeOf_append (p := MAGIC) (by simp [body]; rfl) rfl (by simp [hm])
  have hblock : rangeOf (ub.body ++ rest) 12 16 =
      (.ok (leBytes 4 ub.blockSize) : Outcome FsError _) :=
    rangeOf_append (p := MAGIC ++ leBytes 4 FORMAT_VERSION) (by simp [body]; rfl)
      (by simp [hm]) (by simp [hm])
  have hunit : rangeOf (ub.body ++ rest) 16 20 =
      (.ok (leBytes 4 ub.allocUnit) : Outcome FsError _) :=
    rangeOf_append (p := MAGIC ++ leBytes 4 FORMAT_VERSION ++ leBytes 4 ub.blockSize)
      (by simp [body]; rfl) (by simp [hm]) (by simp [hm])
  have htag : elemAt (ub.body ++ rest) 20 = (.ok ub.codec.toTag : Outcome FsError _) :=
    elemAt_append (p := MAGIC ++ leBytes 4 FORMAT_VERSION ++ leBytes 4 ub.blockSize ++
      leBytes 4 ub.allocUnit) (by simp [body]; rfl) (by simp [hm])
  have htxg : rangeOf (ub.body ++ rest) 24 32 =
      (.ok (leBytes 8 ub.txg) : Outcome FsError _) :=
    rangeOf_append (p := MAGIC ++ leBytes 4 FORMAT_VERSION ++ leBytes 4 ub.blockSize ++
      leBytes 4 ub.allocUnit ++ [ub.codec.toTag] ++ List.replicate 3 0)
      (by simp [body]; rfl) (by simp [hm]) (by simp [hm])
  have hfrontier : rangeOf (ub.body ++ rest) 32 40 =
      (.ok (leBytes 8 ub.frontier) : Outcome FsError _) :=
    rangeOf_append (p := MAGIC ++ leBytes 4 FORMAT_VERSION ++ leBytes 4 ub.blockSize ++
      leBytes 4 ub.allocUnit ++ [ub.codec.toTag] ++ List.replicate 3 0 ++ leBytes 8 ub.txg)
      (by simp [body]; rfl) (by simp [hm]) (by simp [hm])
  have hdevice : rangeOf (ub.body ++ rest) 40 48 =
      (.ok (leBytes 8 ub.deviceSize) : Outcome FsError _) :=
    rangeOf_append (p := MAGIC ++ leBytes 4 FORMAT_VERSION ++ leBytes 4 ub.blockSize ++
      leBytes 4 ub.allocUnit ++ [ub.codec.toTag] ++ List.replicate 3 0 ++ leBytes 8 ub.txg ++
      leBytes 8 ub.frontier) (by simp [body]; rfl) (by simp [hm]) (by simp [hm])
  have hlive : rangeOf (ub.body ++ rest) 48 (48 + OBJ_REF_SIZE) =
      (.ok ub.liveRoot.writeTo : Outcome FsError _) :=
    rangeOf_append (p := MAGIC ++ leBytes 4 FORMAT_VERSION ++ leBytes 4 ub.blockSize ++
      leBytes 4 ub.allocUnit ++ [ub.codec.toTag] ++ List.replicate 3 0 ++ leBytes 8 ub.txg ++
      leBytes 8 ub.frontier ++ leBytes 8 ub.deviceSize) (by simp [body]; rfl)
      (by simp [hm]) (by simp [hm])
  have hsnaps : rangeOf (ub.body ++ rest) 120 (120 + OBJ_REF_SIZE) =
      (.ok ub.snapshots.writeTo : Outcome FsError _) :=
    rangeOf_append (p := MAGIC ++ leBytes 4 FORMAT_VERSION ++ leBytes 4 ub.blockSize ++
      leBytes 4 ub.allocUnit ++ [ub.codec.toTag] ++ List.replicate 3 0 ++ leBytes 8 ub.txg ++
      leBytes 8 ub.frontier ++ leBytes 8 ub.deviceSize ++ ub.liveRoot.writeTo)
      (by simp [body]; rfl) (by simp [hm, ho]) (by simp [hm, ho])
  have hv : leValue (leBytes 4 FORMAT_VERSION) = FORMAT_VERSION :=
    leValue_leBytes 4 _ (by decide)
  simp only [parseBody, hversion, hblock, hunit, htag, htxg, hfrontier, hdevice, hlive, hsnaps,
    ok_bind, hv, ne_eq, not_true_eq_false, if_false, Codec.fromTag_toTag,
    ObjRef.readFrom_writeTo h.liveRoot, ObjRef.readFrom_writeTo h.snapshots,
    leValue_leBytes 4 _ h.blockSize, leValue_leBytes 4 _ h.allocUnit,
    leValue_leBytes 8 _ h.txg, leValue_leBytes 8 _ h.frontier, leValue_leBytes 8 _ h.deviceSize]

/-- A slot that was written is classified as the uberblock written to it. -/
theorem classifySlot_toSlotBytes {ub : Uberblock} (h : ub.Fits) :
    classifySlot ub.toSlotBytes = .ok (.valid ub) := by
  have hlen : ub.toSlotBytes.length = SLOT_SIZE := ub.length_toSlotBytes
  have hmagic : sub ub.toSlotBytes 0 8 = MAGIC := by
    simp only [toSlotBytes, body, List.append_assoc]
    exact sub_append_left rfl
  have hbody : sub ub.toSlotBytes 0 UBERBLOCK_BODY_SIZE = ub.body := by
    simp only [toSlotBytes, List.append_assoc]
    exact sub_append_left ub.length_body.symm
  have hsum : sub ub.toSlotBytes UBERBLOCK_BODY_SIZE 32 = (hash ub.body).1 := by
    simp only [toSlotBytes, List.append_assoc]
    rw [sub_append_right (Nat.le_of_eq ub.length_body), ub.length_body, Nat.sub_self]
    exact sub_append_left (hash ub.body).2.symm
  have hshort : ¬ (ub.toSlotBytes.length < UBERBLOCK_SIZE ∨ sub ub.toSlotBytes 0 8 ≠ MAGIC) := by
    rw [hlen, hmagic]
    decide
  rw [classifySlot, if_neg hshort, hbody, hsum, if_neg (by simp), toSlotBytes, List.append_assoc]
  exact parseBody_body h _

/-- A slot in range is classified without a panic. -/
theorem clean_classifySlot (slot : List UInt8) : Clean (classifySlot slot) := by
  unfold classifySlot
  split
  · exact clean_ok _
  · next hlen =>
    have hlen : 224 ≤ slot.length := by
      have : UBERBLOCK_SIZE = 224 := rfl
      omega
    split
    · exact clean_ok _
    · refine clean_bind.mpr ⟨clean_rangeOf.mpr (by omega), fun _ _ => ?_⟩
      split
      · exact clean_fail _
      · refine clean_bind.mpr ⟨clean_rangeOf.mpr (by omega), fun _ _ => ?_⟩
        refine clean_bind.mpr ⟨clean_rangeOf.mpr (by omega), fun _ _ => ?_⟩
        refine clean_bind.mpr ⟨clean_elemAt.mpr (by omega), fun tag _ => ?_⟩
        refine clean_bind.mpr ⟨Codec.clean_fromTag tag, fun _ _ => ?_⟩
        refine clean_bind.mpr ⟨clean_rangeOf.mpr (by omega), fun _ _ => ?_⟩
        refine clean_bind.mpr ⟨clean_rangeOf.mpr (by omega), fun _ _ => ?_⟩
        refine clean_bind.mpr ⟨clean_rangeOf.mpr (by omega), fun _ _ => ?_⟩
        have ho : OBJ_REF_SIZE = 72 := rfl
        refine clean_bind.mpr ⟨clean_rangeOf.mpr (by omega), fun live hlive => ?_⟩
        obtain ⟨-, rfl⟩ := rangeOf_eq_ok_iff.mp hlive
        refine clean_bind.mpr ⟨ObjRef.clean_readFrom (length_sub (by omega)), fun _ _ => ?_⟩
        refine clean_bind.mpr ⟨clean_rangeOf.mpr (by omega), fun snaps hsnaps => ?_⟩
        obtain ⟨-, rfl⟩ := rangeOf_eq_ok_iff.mp hsnaps
        exact clean_bind.mpr ⟨ObjRef.clean_readFrom (length_sub (by omega)),
          fun _ _ => clean_ok _⟩

omit [Primitives] in
theorem fits_of_parseBody {slot : List UInt8} {ub : Uberblock}
    (h : parseBody slot = .ok (.valid ub)) : ub.Fits := by
  obtain ⟨version, -, h⟩ := bind_eq_ok.mp h
  by_cases hv : leValue version ≠ FORMAT_VERSION
  · simp [hv, corrupt, Outcome.fail] at h
  · rw [if_neg hv] at h
    obtain ⟨blockSize, hblock, h⟩ := bind_eq_ok.mp h
    obtain ⟨allocUnit, hunit, h⟩ := bind_eq_ok.mp h
    obtain ⟨tag, -, h⟩ := bind_eq_ok.mp h
    obtain ⟨codec, -, h⟩ := bind_eq_ok.mp h
    obtain ⟨txg, htxg, h⟩ := bind_eq_ok.mp h
    obtain ⟨frontier, hfrontier, h⟩ := bind_eq_ok.mp h
    obtain ⟨deviceSize, hdevice, h⟩ := bind_eq_ok.mp h
    obtain ⟨_, -, h⟩ := bind_eq_ok.mp h
    obtain ⟨liveRoot, hlive, h⟩ := bind_eq_ok.mp h
    obtain ⟨_, -, h⟩ := bind_eq_ok.mp h
    obtain ⟨snapshots, hsnaps, h⟩ := bind_eq_ok.mp h
    obtain rfl := SlotState.valid.inj (Except.ok.inj h)
    exact ⟨leValue_lt_of_rangeOf hblock, leValue_lt_of_rangeOf hunit, leValue_lt_of_rangeOf htxg,
      leValue_lt_of_rangeOf hfrontier, leValue_lt_of_rangeOf hdevice,
      ObjRef.fits_of_readFrom hlive, ObjRef.fits_of_readFrom hsnaps⟩

theorem fits_of_classifySlot {slot : List UInt8} {ub : Uberblock}
    (h : classifySlot slot = .ok (.valid ub)) : ub.Fits := by
  unfold classifySlot at h
  split at h
  · cases h
  · split at h
    · cases h
    · exact fits_of_parseBody h

end Uberblock

end Eo9.Eofs
