import Eo9.Eofs.Building
import Eo9.Library.Runs
import Eo9.Library.Splice
import Mathlib.Data.List.Perm.Subperm

/-!
# Versions of an object

A range update (`write_object_range`) leaves the object it starts from as it was: it shares the
blocks that do not change, and writes all others where nothing is settled. So every version that
was ever handed out is read as it was written, whatever is written later, and whatever of it fails.
-/

namespace Eo9.Eofs

open Eo9.Library Outcome

/-- The bytes `old` with `data` at `offset`, and zeros before it where nothing was. -/
def spliced (old : List UInt8) (offset : ℕ) (data : List UInt8) : List UInt8 :=
  copyInto (old ++ List.replicate (offset + data.length - old.length) 0) offset data

section Bytes

variable {old data : List UInt8} {offset : ℕ}

theorem length_spliced : (spliced old offset data).length = max old.length (offset + data.length) := by
  have hpadded : (old ++ List.replicate (offset + data.length - old.length) (0 : UInt8)).length =
      max old.length (offset + data.length) := by
    rw [List.length_append, List.length_replicate]
    omega
  rw [spliced, length_copyInto (by omega), hpadded]

theorem getElem?_spliced (i : ℕ) : (spliced old offset data)[i]? =
    if offset ≤ i ∧ i < offset + data.length then data[i - offset]?
    else if i < old.length then old[i]? else if i < offset + data.length then some 0 else none := by
  rw [spliced, getElem?_copyInto (by rw [List.length_append, List.length_replicate]; omega),
    List.getElem?_append, List.getElem?_replicate]
  split_ifs <;> first | rfl | omega

theorem length_sub_eq (l : List UInt8) (i n : ℕ) : (sub l i n).length = min n (l.length - i) := by
  rw [sub, List.length_take, List.length_drop]

namespace AsyncEofs.RangeWrite

variable {w : RangeWrite} {bs b : ℕ}

theorem newSize_eq (hsize : w.obj.size = old.length) :
    w.newSize = (spliced old w.offset w.data).length := by
  rw [length_spliced, newSize, writeEnd, hsize]

/-- A block with nothing but its old content in it. -/
theorem getElem?_kept (hsize : w.obj.size = old.length) (i : ℕ) :
    (copyInto (List.replicate (w.newLen bs b) 0) 0 (sub old (b * bs) bs))[i]? =
      if i < bs ∧ b * bs + i < old.length then old[b * bs + i]?
      else if i < w.newLen bs b then some 0 else none := by
  have hlen := length_sub_eq old (b * bs) bs
  have hnew := newSize_eq hsize
  rw [length_spliced] at hnew
  rw [getElem?_copyInto (by rw [List.length_replicate, newLen]; omega), getElem?_sub,
    List.getElem?_replicate]
  by_cases hin : i < bs ∧ b * bs + i < old.length
  · rw [if_pos hin, if_pos (by omega), if_pos (by omega), Nat.sub_zero]
  · rw [if_neg hin, if_neg (by omega)]

/-- The new content of a block is its part of the new content. -/
theorem content_eq (hsize : w.obj.size = old.length) :
    w.content bs b (sub old (b * bs) bs) = sub (spliced old w.offset w.data) (b * bs) bs := by
  have hnew := newSize_eq hsize
  rw [length_spliced] at hnew
  have hlen : w.newLen bs b = min bs (w.newSize - b * bs) := rfl
  have hstart : w.overlapStart bs b = max (b * bs) w.offset := rfl
  have hend : w.overlapEnd bs b = min (b * bs + w.newLen bs b) (w.offset + w.data.length) := rfl
  have hkept := length_sub_eq old (b * bs) bs
  apply List.ext_getElem?
  intro i
  rw [getElem?_sub, getElem?_spliced, content]
  split
  · rw [getElem?_copyInto, getElem?_kept hsize, getElem?_sub, length_sub (by omega)]
    · by_cases hin : w.offset ≤ b * bs + i ∧ b * bs + i < w.offset + w.data.length ∧ i < bs
      · rw [if_pos (by omega), if_pos (by omega), if_pos (by omega), if_pos (by omega)]
        congr 1
        omega
      · rw [if_neg (by omega)]
        split_ifs <;> first | rfl | omega
    · rw [length_copyInto (by rw [List.length_replicate]; omega), List.length_replicate,
        length_sub (by omega)]
      omega
  · rw [getElem?_kept hsize]
    split_ifs <;> first | rfl | omega

/-- A block that keeps its length and is not written to keeps its content. -/
theorem content_kept (hsize : w.obj.size = old.length)
    (hapart : ¬w.overlapStart bs b < w.overlapEnd bs b)
    (hlen : w.newLen bs b = (sub old (b * bs) bs).length) :
    sub (spliced old w.offset w.data) (b * bs) bs = sub old (b * bs) bs := by
  rw [← content_eq hsize, content, if_neg hapart, copyInto, hlen]
  simp

end AsyncEofs.RangeWrite

end Bytes

namespace AsyncEofs

variable {D : Type} [BlockDevice D] [LawfulDevice D] [Primitives]

/-- The object has these bytes, in these data blocks under these indirect ones, and none of them
will be written over. -/
structure Holds (fs : AsyncEofs D) (obj : ObjRef) (bytes : List UInt8)
    (leaves inner : List BlockPtr) : Prop where
  size : obj.size = bytes.length
  length_lt : bytes.length < 2 ^ 64
  count : leaves.length = divCeil bytes.length fs.blockSize
  stored : ∀ b leaf, leaves[b]? = some leaf →
    Stored fs.image leaf (sub bytes (b * fs.blockSize) fs.blockSize)
  apart : (leaves.map BlockPtr.addr).Nodup
  settled : Settled fs (leaves ++ inner)
  empty : bytes = [] → obj = ObjRef.EMPTY ∧ inner = []
  tree : bytes ≠ [] → obj.level = Nat.clog fs.fanout leaves.length ∧
    TreeRep fs.image obj.level obj.root leaves inner

/-- The object has these bytes for good. -/
def Version (fs : AsyncEofs D) (obj : ObjRef) (bytes : List UInt8) : Prop :=
  ∃ leaves inner, Holds fs obj bytes leaves inner

variable {fs fs' : AsyncEofs D} {obj : ObjRef} {bytes old data : List UInt8}
  {leaves inner : List BlockPtr} {offset : ℕ}

namespace Holds

theorem moved (h : Holds fs obj bytes leaves inner) (hunit : 0 < fs.allocUnit)
    (hagree : fs.image.AgreeOn fs'.image (leaves ++ inner)) (hsettled : Settled fs' (leaves ++ inner)) :
    Holds fs' obj bytes leaves inner :=
  have hblock : fs'.blockSize = fs.blockSize := hagree.blockSize.symm
  { h with
    count := by
      rw [hblock]
      exact h.count
    stored := by
      intro b leaf hleaf
      rw [hblock]
      have hmem := List.mem_append_left inner (List.mem_of_getElem? hleaf)
      exact (h.stored b leaf hleaf).frame hunit
        (hagree.mono (List.cons_subset.mpr ⟨hmem, List.nil_subset _⟩))
    settled := hsettled
    tree := by
      intro hne
      obtain ⟨hlevel, htree⟩ := h.tree hne
      rw [fanout, hblock]
      exact ⟨hlevel, htree.frame hunit (hagree.mono (List.subset_append_right _ _))⟩ }

theorem grown (h : Holds fs obj bytes leaves inner) (hunit : 0 < fs.allocUnit)
    (hgrown : Grown fs fs') : Holds fs' obj bytes leaves inner :=
  h.moved hunit (hgrown.agreeOn h.settled) (hgrown.settled h.settled)

/-- Blocks in different places are no more than there are places on the device. -/
theorem length_le (h : Holds fs obj bytes leaves inner) (hgeo : fs.Geometry) :
    leaves.length ≤ fs.maxLeaves := by
  have hunit := hgeo.unit_pos
  have hplace : ∀ a ∈ leaves.map BlockPtr.addr, DATA_START ≤ a ∧
      fs.allocUnit ∣ a - DATA_START ∧ a + fs.allocUnit ≤ fs.deviceSize := by
    intro a ha
    obtain ⟨leaf, hleaf, rfl⟩ := List.mem_map.mp ha
    obtain ⟨b, hb⟩ := List.getElem?_of_mem hleaf
    have hstored := h.stored b leaf hb
    have hend := hstored.end_le
    have hround := Nat.le_mul_of_pos_left fs.allocUnit (divCeil_pos hunit hstored.psize_pos)
    simp only [image] at hend
    exact ⟨hstored.start_le, Nat.dvd_sub hstored.dvd (hgeo.unit_dvd.mul_left 2), by omega⟩
  have hnodup : ((leaves.map BlockPtr.addr).map fun a => (a - DATA_START) / fs.allocUnit).Nodup := by
    apply h.apart.map_on
    intro a ha a' ha' heq
    obtain ⟨hle, hdvd, -⟩ := hplace a ha
    obtain ⟨hle', hdvd', -⟩ := hplace a' ha'
    have hsame := (Nat.div_left_inj hdvd hdvd').mp heq
    omega
  have hrange : ((leaves.map BlockPtr.addr).map fun a => (a - DATA_START) / fs.allocUnit) ⊆
      List.range fs.maxLeaves := by
    intro slot hslot
    obtain ⟨a, ha, rfl⟩ := List.mem_map.mp hslot
    obtain ⟨hle, hdvd, hend⟩ := hplace a ha
    rw [List.mem_range, maxLeaves]
    apply (Nat.le_div_iff_mul_le hunit).mpr
    rw [Nat.succ_mul, Nat.div_mul_cancel hdvd]
    omega
  have hle := (List.subperm_of_subset hnodup hrange).length_le
  rwa [List.length_map, List.length_map, List.length_range] at hle

theorem collectLeaves_eq (h : Holds fs obj bytes leaves inner) (hgeo : fs.Geometry) :
    fs.collectLeaves obj = .ok leaves := by
  by_cases hne : bytes = []
  · obtain ⟨rfl, -⟩ := h.empty hne
    have hcount := h.count
    rw [hne, List.length_nil, divCeil_zero, List.length_eq_zero_iff] at hcount
    rw [hcount]
    rfl
  · obtain ⟨hlevel, htree⟩ := h.tree hne
    have hpos := List.length_pos_of_ne_nil hne
    have hcount : divCeil obj.size fs.blockSize = leaves.length := by rw [h.size, h.count]
    have hleaves := divCeil_pos hgeo.block_pos hpos
    have hreal : ∀ p ∈ leaves, p.isNull = false := by
      intro p hp
      obtain ⟨b, hb⟩ := List.getElem?_of_mem hp
      have hstart := (h.stored b p hb).start_le
      have hzero : 0 < DATA_START := by decide
      exact decide_eq_false (by omega)
    have hcheck := checkObject_walkable hgeo ⟨h.size ▸ hpos, root_isNull htree hreal,
      hcount ▸ h.length_le hgeo, by rw [hcount, hlevel]⟩
    rw [hcount] at hcheck
    rw [collectLeaves, hcheck, ok_bind, if_neg (by rw [h.count]; omega),
      collectLevel_rep hgeo htree (by simp), ok_bind, List.nil_append, if_neg (by simp)]

/-- The loop goes on from what it has read. -/
theorem readLoop_eq (h : Holds fs obj bytes leaves inner) (hgeo : fs.Geometry) {want k fuel : ℕ}
    (hend : offset + want ≤ bytes.length) (hk : k ≤ want) (hfuel : want < fuel + k) :
    fs.readLoop leaves offset want fuel (sub bytes offset k) = .ok (sub bytes offset want) := by
  have hlt := h.length_lt
  induction fuel generalizing k with
  | zero => omega
  | succ fuel ih =>
    have hread : (sub bytes offset k).length = k := length_sub (by omega)
    by_cases hdone : k < want
    · have hbs := hgeo.block_pos
      have hmod := Nat.mod_lt (offset + k) hbs
      have hsplit := Nat.div_add_mod (offset + k) fs.blockSize
      rw [Nat.mul_comm] at hsplit
      have hin : (offset + k) / fs.blockSize < leaves.length := by
        rw [h.count]
        exact (lt_divCeil_iff hbs).mpr (by omega)
      have hleaf := List.getElem?_eq_getElem hin
      have hblock := readBlock_stored hgeo (h.stored _ _ hleaf)
      have hlen := length_sub_eq bytes ((offset + k) / fs.blockSize * fs.blockSize) fs.blockSize
      rw [readLoop_succ (by omega) (by omega) (by rw [hread]; exact hleaf) hblock
        (by rw [hread]; omega), hread, sub_of_sub (by omega), hsplit, ← sub_split]
      exact ih (by omega) (by omega)
    · obtain rfl : k = want := by omega
      rw [readLoop, if_neg (by omega)]

theorem readObjectRange_eq (h : Holds fs obj bytes leaves inner) (hgeo : fs.Geometry) (len : ℕ) :
    fs.readObjectRange obj offset len = .ok (sub bytes offset len) := by
  rw [readObjectRange]
  split
  · next hempty =>
    rw [h.size] at hempty
    have hnil : (sub bytes offset len).length = 0 := by
      rw [length_sub_eq]
      omega
    rw [List.length_eq_zero_iff.mp hnil]
  · next hsome =>
    rw [h.size] at hsome ⊢
    have hend : offset + min len (bytes.length - offset) ≤ bytes.length := by omega
    have hloop := h.readLoop_eq hgeo hend (Nat.zero_le _) (Nat.lt_succ_self _)
    rw [sub_empty] at hloop
    rw [h.collectLeaves_eq hgeo, ok_bind, hloop, ← List.length_drop]
    exact congrArg _ (List.take_eq_take_iff.mpr (by omega))

end Holds

/-- What is settled is not free. -/
theorem Settled.not_room {ptrs : List BlockPtr} {p : BlockPtr} {logical : List UInt8}
    (h : Settled fs ptrs) (hp : p ∈ ptrs) (hstored : Stored fs.image p logical)
    (hunit : 0 < fs.allocUnit) : ¬fs.alloc.Room p.addr :=
  h p hp p.addr ⟨le_rfl, Nat.lt_add_of_pos_right
    (Nat.mul_pos (divCeil_pos hunit hstored.psize_pos) hunit)⟩

variable [LawfulCompression] {w : RangeWrite} {n b : ℕ}

omit [LawfulCompression] in
theorem Holds.oldContent_eq (h : Holds fs w.obj old w.oldLeaves inner) (hgeo : fs.Geometry) :
    w.oldLen fs.blockSize b = (sub old (b * fs.blockSize) fs.blockSize).length ∧
      fs.oldContent w b = .ok (sub old (b * fs.blockSize) fs.blockSize) := by
  have hlen := length_sub_eq old (b * fs.blockSize) fs.blockSize
  have hin : b < w.oldLeaves.length ↔ b * fs.blockSize < old.length := by
    rw [h.count, lt_divCeil_iff hgeo.block_pos]
  have hold : w.oldLen fs.blockSize b = (sub old (b * fs.blockSize) fs.blockSize).length := by
    rw [RangeWrite.oldLen, h.size]
    split <;> omega
  refine ⟨hold, ?_⟩
  rw [oldContent, hold]
  split
  · have hb : b < w.oldLeaves.length := by omega
    have hblock := readBlock_stored hgeo (h.stored b _ (List.getElem?_eq_getElem hb))
    rw [elemAt_ok hb, ok_bind, hblock, ok_bind, if_neg (by simp)]
  · have hnil : sub old (b * fs.blockSize) fs.blockSize = [] :=
      List.length_eq_zero_iff.mp (by omega)
    rw [hnil]

open Action in
/-- A data block of the new object is one of the old object, or was free. -/
theorem wp_rewriteLeaf (h : Ready fs) (hold : Holds fs w.obj old w.oldLeaves inner)
    (hb : b * fs.blockSize < w.newSize) :
    wp (rewriteLeaf w b) fs
      (fun leaf fs' => Ready fs' ∧ Grown fs fs' ∧ Settled fs' [leaf] ∧
        Stored fs'.image leaf
          (sub (spliced old w.offset w.data) (b * fs.blockSize) fs.blockSize) ∧
        (w.oldLeaves[b]? = some leaf ∨ fs.alloc.Room leaf.addr))
      fun _ fs' => Ready fs' ∧ Grown fs fs' := by
  have hgeo := h.geometry
  have hbs := hgeo.block_pos
  obtain ⟨holdLen, hcontent⟩ := hold.oldContent_eq hgeo
  have hlen := length_sub_eq (spliced old w.offset w.data) (b * fs.blockSize) fs.blockSize
  have hnew := RangeWrite.newSize_eq hold.size
  rw [rewriteLeaf]
  apply wp_bind_of_ok (gets_apply _ _)
  split
  · next hkeep =>
    have hnewLen : w.newLen fs.blockSize b = min fs.blockSize (w.newSize - b * fs.blockSize) := rfl
    have hin : b < w.oldLeaves.length := by
      by_contra hout
      rw [RangeWrite.oldLen, if_neg hout] at hkeep
      omega
    have hleaf := List.getElem?_eq_getElem hin
    rw [elemAt_ok hin]
    apply wp_of_ok (monadLift_apply _ _)
    refine ⟨h, .refl fs, fun p hp => ?_, ?_, .inl hleaf⟩
    · obtain rfl := List.mem_singleton.mp hp
      exact hold.settled _ (List.mem_append_left _ (List.getElem_mem hin))
    · rw [RangeWrite.content_kept hold.size hkeep.1 (hkeep.2.trans holdLen)]
      exact hold.stored b _ hleaf
  · apply wp_bind_of_ok (congrArg (·, fs) hcontent)
    rw [RangeWrite.content_eq hold.size]
    apply wp_mono (wp_writeBlock h (List.ne_nil_of_length_pos (by omega)) (by omega))
    · rintro leaf fs' ⟨h', hgrown, hstored, hsettled, hroom⟩
      exact ⟨h', hgrown, hsettled, hstored, .inr hroom⟩
    · exact fun _ _ hstop => hstop.2

open Action in
/-- The data blocks of the new object are in different places. -/
theorem wp_rewriteLeaves (h : Ready fs) (hold : Holds fs w.obj old w.oldLeaves inner)
    (hn : ∀ i < n, (b + i) * fs.blockSize < w.newSize) :
    wp (rewriteLeaves w n b) fs
      (fun leaves fs' => Ready fs' ∧ Grown fs fs' ∧ Settled fs' leaves ∧ leaves.length = n ∧
        (leaves.map BlockPtr.addr).Nodup ∧ ∀ i leaf, leaves[i]? = some leaf →
          Stored fs'.image leaf
            (sub (spliced old w.offset w.data) ((b + i) * fs.blockSize) fs.blockSize) ∧
          (w.oldLeaves[b + i]? = some leaf ∨ fs.alloc.Room leaf.addr))
      fun _ fs' => Ready fs' ∧ Grown fs fs' := by
  induction n generalizing fs b with
  | zero => exact wp_pure ⟨h, .refl fs, nofun, rfl, .nil, nofun⟩
  | succ n ih =>
    have hunit := h.geometry.unit_pos
    rw [rewriteLeaves]
    apply wp_bind (wp_rewriteLeaf h hold (hn 0 n.succ_pos)) ?_ fun _ _ => id
    rintro leaf fs₁ ⟨h₁, hgrown₁, hsettled₁, hstored₁, hfrom⟩
    have hrest := ih (b := b + 1) h₁ (hold.grown hunit hgrown₁) fun i hi => by
      rw [hgrown₁.blockSize, Nat.add_assoc, Nat.add_comm 1]
      exact hn (i + 1) (Nat.succ_lt_succ hi)
    rw [hgrown₁.blockSize] at hrest
    apply wp_bind hrest ?_ fun _ _ hstop => ⟨hstop.1, hgrown₁.trans hstop.2⟩
    rintro leaves fs₂ ⟨h₂, hgrown₂, hsettled₂, rfl, hnodup, hall⟩
    have hunit₁ := h₁.geometry.unit_pos
    apply wp_pure
    refine ⟨h₂, hgrown₁.trans hgrown₂, ?_, rfl, List.nodup_cons.mpr ⟨?_, hnodup⟩, ?_⟩
    · intro p hp
      rcases List.mem_cons.mp hp with rfl | hp
      · exact hgrown₂.settled hsettled₁ p List.mem_cons_self
      · exact hsettled₂ p hp
    · intro hmem
      obtain ⟨other, hother, haddr⟩ := List.mem_map.mp hmem
      obtain ⟨i, hi⟩ := List.getElem?_of_mem hother
      rcases (hall i other hi).2 with hshared | hfresh
      · rcases hfrom with hsame | hroom
        · have hin := (List.getElem?_eq_some_iff.mp hsame).1
          have hindex := (List.getElem?_inj (j := b + 1 + i) (by rwa [List.length_map])
            hold.apart).mp (by rw [List.getElem?_map, List.getElem?_map, hsame, hshared,
              Option.map_some, Option.map_some, haddr])
          omega
        · have hmem := List.mem_append_left inner (List.mem_of_getElem? hshared)
          exact hold.settled.not_room hmem (hold.stored _ _ hshared) hunit (haddr ▸ hroom)
      · exact hsettled₁.not_room List.mem_cons_self hstored₁ hunit₁ (haddr ▸ hfresh)
    · rintro (_ | i) p hp
      · obtain rfl := Option.some.inj hp
        exact ⟨hstored₁.frame hunit₁ (hgrown₂.agreeOn hsettled₁), hfrom⟩
      · have hp' := hall i p hp
        rw [Nat.add_assoc, Nat.add_comm 1] at hp'
        exact ⟨hp'.1, hp'.2.imp_right (hgrown₁.room _)⟩

open Action in
/-- An update hands out a version with the data in it, and keeps what there was. -/
theorem wp_writeObjectRange (h : Ready fs) (hold : Version fs obj old) :
    wp (writeObjectRange obj offset data) fs
      (fun obj' fs' => Ready fs' ∧ Grown fs fs' ∧
        Version fs' obj' (if data = [] then old else spliced old offset data))
      fun _ fs' => Ready fs' ∧ Grown fs fs' := by
  obtain ⟨oldLeaves, inner, hold⟩ := hold
  have hgeo := h.geometry
  have hbs := hgeo.block_pos
  rw [writeObjectRange]
  by_cases hdata : data = []
  · rw [if_pos hdata, if_pos hdata]
    exact wp_pure ⟨h, .refl fs, _, _, hold⟩
  rw [if_neg hdata, if_neg hdata]
  split
  · exact wp_fail ⟨h, .refl fs⟩
  · next hfits =>
    apply wp_bind_of_ok (congrArg (·, fs) (hold.collectLeaves_eq hgeo))
    dsimp only
    have hpos := List.length_pos_of_ne_nil hdata
    have hlt := hold.length_lt
    have hnew : (spliced old offset data).length = max old.length (offset + data.length) :=
      length_spliced
    have hsize : RangeWrite.newSize ⟨obj, offset, data, oldLeaves⟩ =
        (spliced old offset data).length := RangeWrite.newSize_eq hold.size
    rw [hsize]
    apply wp_bind_of_ok (gets_apply _ _)
    apply wp_bind (wp_rewriteLeaves h hold ?_) ?_ fun _ _ => id
    · intro i hi
      rw [Nat.zero_add, hsize]
      exact (lt_divCeil_iff hbs).mp hi
    rintro leaves fs₁ ⟨h₁, hgrown₁, hsettled₁, hlen, hnodup, hall⟩
    have hleaves : 0 < leaves.length := hlen ▸ divCeil_pos hbs (by omega)
    have hne := List.ne_nil_of_length_pos hleaves
    have hfits : ∀ p ∈ leaves, p.Fits := by
      intro p hp
      obtain ⟨i, hi⟩ := List.getElem?_of_mem hp
      exact (hall i p hi).1.fits
    have hheight : Nat.clog fs₁.fanout leaves.length ≤ 64 := by
      have hfan := h₁.geometry.fanout_ge
      apply (Nat.clog_le_iff_le_pow (by omega)).mpr
      have hle : leaves.length ≤ (spliced old offset data).length := by
        rw [hlen, divCeil_le_iff hbs]
        exact Nat.le_mul_of_pos_right _ hbs
      calc
        leaves.length ≤ 2 ^ 64 := by omega
        _ ≤ fs₁.fanout ^ 64 := Nat.pow_le_pow_left (by omega) 64
    rw [buildTree, if_neg hne]
    apply wp_mono (wp_buildSettled h₁ (forest_leaves fs₁ hfits) (List.forall_mem_nil _) hne
      le_rfl (by omega))
    · rintro obj' fs' ⟨h', hgrown, hobj, hlevel, inner', htree, hinner⟩
      have hagree := hgrown.agreeOn hsettled₁
      have hblock := hgrown.blockSize.trans hgrown₁.blockSize
      refine ⟨h', hgrown₁.trans hgrown, leaves, inner', ?_⟩
      exact {
        size := hobj
        length_lt := by omega
        count := by rw [hlen, hblock]
        stored := by
          intro i leaf hleaf
          have hstored := (hall i leaf hleaf).1
          rw [Nat.zero_add] at hstored
          rw [hblock]
          have hmem := List.mem_of_getElem? hleaf
          exact hstored.frame h₁.geometry.unit_pos
            (hagree.mono (List.cons_subset.mpr ⟨hmem, List.nil_subset _⟩))
        apart := hnodup
        settled := by
          intro p hp
          rcases List.mem_append.mp hp with hp | hp
          · exact hgrown.settled hsettled₁ p hp
          · exact hinner p hp
        empty := by
          intro hnil
          rw [hnil, List.length_nil] at hnew
          omega
        tree := by
          intro _
          have hfan : fs'.fanout = fs₁.fanout := by rw [fanout, hgrown.blockSize, fanout]
          exact ⟨by rw [hlevel, Nat.zero_add, hfan], htree⟩ }
    · rintro _ fs' ⟨-, h', hgrown⟩
      exact ⟨h', hgrown₁.trans hgrown⟩

/-- A mount, and the objects that were handed out, with their bytes. -/
structure Archive (D : Type) where
  fs : AsyncEofs D
  versions : List (ObjRef × List UInt8)

/-- An update of one of them adds one, unless it fails. -/
def Archive.update (a : Archive D) (v : ObjRef × List UInt8) (offset : ℕ) (data : List UInt8) :
    Archive D :=
  match writeObjectRange v.1 offset data a.fs with
  | (.ok obj, fs) => ⟨fs, (obj, if data = [] then v.2 else spliced v.2 offset data) :: a.versions⟩
  | (.error _, fs) => ⟨fs, a.versions⟩

def Updates (a : Archive D) (l : (ObjRef × List UInt8) × ℕ × List UInt8) (a' : Archive D) : Prop :=
  l.1 ∈ a.versions ∧ a' = a.update l.1 l.2.1 l.2.2

/-- The mount is sound, and the objects have their bytes. -/
structure Archive.Sound (a : Archive D) : Prop where
  ready : Ready a.fs
  version : ∀ v ∈ a.versions, Version a.fs v.1 v.2

omit [LawfulCompression] in
theorem Archive.Sound.grown {fs fs' : AsyncEofs D} {versions : List (ObjRef × List UInt8)}
    (h : Archive.Sound ⟨fs, versions⟩) (hready : Ready fs') (hgrown : Grown fs fs') :
    Archive.Sound ⟨fs', versions⟩ := by
  refine ⟨hready, fun v hv => ?_⟩
  obtain ⟨leaves, inner, hholds⟩ := h.version v hv
  exact ⟨leaves, inner, hholds.grown h.ready.geometry.unit_pos hgrown⟩

/-- An update keeps the archive sound, and leaves alone what is settled. -/
theorem Archive.Sound.update {a : Archive D} (h : a.Sound) {v : ObjRef × List UInt8}
    (hv : v ∈ a.versions) (offset : ℕ) (data : List UInt8) :
    (a.update v offset data).Sound ∧ Grown a.fs (a.update v offset data).fs := by
  have hwp : Action.wp (writeObjectRange v.1 offset data) a.fs _ _ :=
    wp_writeObjectRange h.ready (h.version v hv)
  rw [Archive.update]
  split
  · next obj fs' hwrite =>
    obtain ⟨hready, hgrown, hnew⟩ := hwp.returned hwrite
    exact ⟨⟨hready, List.forall_mem_cons.mpr ⟨hnew, (h.grown hready hgrown).version⟩⟩, hgrown⟩
  · next e fs' hwrite =>
    obtain ⟨hready, hgrown⟩ := hwp.stopped hwrite
    exact ⟨h.grown hready hgrown, hgrown⟩

theorem Archive.Sound.updates {a a' : Archive D} {ls : List ((ObjRef × List UInt8) × ℕ × List UInt8)}
    (h : a.Sound) (run : Run Updates a ls a') : a'.Sound ∧ Grown a.fs a'.fs := by
  apply run.invariant (p := fun b => b.Sound ∧ Grown a.fs b.fs) ?_ ⟨h, .refl a.fs⟩
  rintro b l _ ⟨hs, hgrown⟩ ⟨hv, rfl⟩
  exact (hs.update hv _ _).imp_right hgrown.trans

omit [LawfulCompression] in
/-- The empty object holds from the start. -/
theorem Archive.Sound.first (h : Ready fs) : Archive.Sound ⟨fs, [(ObjRef.EMPTY, [])]⟩ := by
  refine ⟨h, fun v hv => ?_⟩
  rw [List.mem_singleton.mp hv]
  exact ⟨[], [], rfl, by decide, (divCeil_zero _).symm, nofun, .nil, nofun, fun _ => ⟨rfl, rfl⟩,
    fun hne => absurd rfl hne⟩

/-- Everything is read as it was written. -/
def Archive.Reads (a : Archive D) : Prop := ∀ v ∈ a.versions, v.1.size = v.2.length ∧
  ∀ offset len, a.fs.readObjectRange v.1 offset len = .ok (sub v.2 offset len)

omit [LawfulCompression] in
theorem Archive.Sound.reads {a : Archive D} (h : a.Sound) : a.Reads := by
  intro v hv
  obtain ⟨leaves, inner, hholds⟩ := h.version v hv
  exact ⟨hholds.size, fun offset len => hholds.readObjectRange_eq h.ready.geometry len⟩

/-- Every version is read as it was written, after any updates of any versions, on a device that
may fail in any of them. -/
theorem versions_kept {ls : List ((ObjRef × List UInt8) × ℕ × List UInt8)} {a : Archive D}
    (h : Ready fs) (run : Run Updates ⟨fs, [(ObjRef.EMPTY, [])]⟩ ls a) : a.Reads :=
  ((Archive.Sound.first h).updates run).1.reads

set_option maxRecDepth 10000 in
omit [BlockDevice D] [LawfulDevice D] [Primitives] [LawfulCompression] in
/-- A byte behind a gap. -/
theorem versions_kept_gap : letI := plainBlake3
    ∃ obj fs', writeObjectRange ObjRef.EMPTY 2 [7] smallMount = (.ok obj, fs') ∧
      fs'.readObjectRange obj 0 9 = .ok [0, 0, 7] ∧
        fs'.readObjectRange ObjRef.EMPTY 0 9 = .ok [] := by
  have hrun : letI := plainBlake3
      ∃ obj fs', writeObjectRange ObjRef.EMPTY 2 [7] smallMount = (.ok obj, fs') := ⟨_, _, rfl⟩
  let _ := plainBlake3
  obtain ⟨obj, fs', hwrite⟩ := hrun
  have hlawful : LawfulCompression := ⟨fun _ => rfl, fun _ h => h⟩
  have hready : Ready smallMount := by
    refine ⟨by constructor <;> decide, ?_⟩
    exact Allocator.tidy_new (by decide) (by decide) (by decide) (by decide)
  have hupdate : Archive.update ⟨smallMount, [(ObjRef.EMPTY, [])]⟩ (ObjRef.EMPTY, []) 2 [7] =
      ⟨fs', [(obj, [0, 0, 7]), (ObjRef.EMPTY, [])]⟩ := by
    rw [Archive.update, hwrite]
    rfl
  have hkept := versions_kept hready
    (.single (i := ((ObjRef.EMPTY, []), 2, [7])) ⟨List.mem_cons_self, hupdate.symm⟩)
  obtain ⟨hnew, hold⟩ := List.forall_mem_cons.mp hkept
  exact ⟨obj, fs', hwrite, hnew.2 0 9, (List.forall_mem_singleton.mp hold).2 0 9⟩

end AsyncEofs

end Eo9.Eofs
