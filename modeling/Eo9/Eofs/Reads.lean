import Mathlib.Data.List.Forall2
import Eo9.Eofs.ShortReads

/-!
# What a device stores

Blocks and block trees as relations between the bytes of a device and the
values stored in them, with the list of the pointers involved.
Every relation looks at the extents of those pointers only, so it survives any
change elsewhere.
-/

namespace Eo9.Eofs

open Eo9.Library Outcome

/-- What decides what is read through a pointer: the geometry of a mount and
the bytes on its device. -/
structure Image where
  blockSize : Nat
  allocUnit : Nat
  deviceSize : Nat
  byte : Nat → UInt8

/-- The bytes that a block occupies, rounded up to the allocation unit. -/
def Covers (unit : Nat) (ptr : BlockPtr) (i : Nat) : Prop :=
  ptr.addr ≤ i ∧ i < ptr.addr + divCeil ptr.psize unit * unit

/-- Two images of one geometry that hold the same bytes under some pointers. -/
structure Image.AgreeOn (im im' : Image) (ptrs : List BlockPtr) : Prop where
  blockSize : im.blockSize = im'.blockSize
  allocUnit : im.allocUnit = im'.allocUnit
  deviceSize : im.deviceSize = im'.deviceSize
  byte : ∀ p ∈ ptrs, ∀ i, Covers im.allocUnit p i → im.byte i = im'.byte i

theorem Image.AgreeOn.mono {im im' : Image} {ptrs ptrs' : List BlockPtr}
    (h : im.AgreeOn im' ptrs) (hsub : ptrs' ⊆ ptrs) : im.AgreeOn im' ptrs' :=
  ⟨h.blockSize, h.allocUnit, h.deviceSize, fun p hp => h.byte p (hsub hp)⟩

variable [Primitives]

/-- The block `logical` is stored where the pointer says, in the data region,
with its hash in the pointer. -/
structure Stored (im : Image) (ptr : BlockPtr) (logical : List UInt8) : Prop where
  fits : ptr.Fits
  length_pos : 0 < logical.length
  length_le : logical.length ≤ im.blockSize
  lsize : ptr.lsize = logical.length
  psize_pos : 0 < ptr.psize
  psize_le : ptr.psize ≤ im.blockSize
  start_le : DATA_START ≤ ptr.addr
  dvd : im.allocUnit ∣ ptr.addr
  end_le : ptr.addr + divCeil ptr.psize im.allocUnit * im.allocUnit ≤ im.deviceSize
  decodes : AsyncEofs.decodeBlock ptr (slice im.byte ptr.addr ptr.psize) = .ok logical
  hash : hash logical = ptr.hash

theorem Stored.frame {im im' : Image} {ptr : BlockPtr} {logical : List UInt8}
    (h : Stored im ptr logical) (hunit : 0 < im.allocUnit) (hagree : im.AgreeOn im' [ptr]) :
    Stored im' ptr logical where
  fits := h.fits
  length_pos := h.length_pos
  length_le := hagree.blockSize ▸ h.length_le
  lsize := h.lsize
  psize_pos := h.psize_pos
  psize_le := hagree.blockSize ▸ h.psize_le
  start_le := h.start_le
  dvd := hagree.allocUnit ▸ h.dvd
  end_le := hagree.allocUnit ▸ hagree.deviceSize ▸ h.end_le
  decodes := by
    rw [← h.decodes]
    refine congrArg _ (slice_congr fun i hle hlt => (hagree.byte ptr (by simp) i ⟨hle, ?_⟩).symm)
    have := le_divCeil_mul ptr.psize hunit
    omega
  hash := h.hash

/-- A row of block trees: its roots, the data blocks under them, and the
indirect blocks of which they are made. -/
inductive Forest (tree : BlockPtr → List BlockPtr → List BlockPtr → Prop) :
    List BlockPtr → List BlockPtr → List BlockPtr → Prop
  | nil : Forest tree [] [] []
  | cons {root : BlockPtr} {roots leaves leaves' inner inner' : List BlockPtr}
      (fits : root.Fits) (head : tree root leaves inner) (tail : Forest tree roots leaves' inner') :
      Forest tree (root :: roots) (leaves ++ leaves') (inner ++ inner')

namespace Forest

variable {tree tree' : BlockPtr → List BlockPtr → List BlockPtr → Prop}
  {roots roots' leaves leaves' inner inner' : List BlockPtr}

omit [Primitives] in
theorem split (h : Forest tree (roots ++ roots') leaves inner) :
    ∃ l l' i i', leaves = l ++ l' ∧ inner = i ++ i' ∧ Forest tree roots l i ∧
      Forest tree roots' l' i' := by
  induction roots generalizing leaves inner with
  | nil => exact ⟨[], leaves, [], inner, rfl, rfl, .nil, h⟩
  | cons root roots ih =>
    cases h with
    | cons fits head tail =>
      obtain ⟨l, l', i, i', rfl, rfl, hleft, hright⟩ := ih tail
      exact ⟨_, l', _, i', (List.append_assoc ..).symm, (List.append_assoc ..).symm,
        .cons fits head hleft, hright⟩

omit [Primitives] in
theorem fits (h : Forest tree roots leaves inner) : ∀ root ∈ roots, root.Fits := by
  induction h with
  | nil => simp
  | cons fits _ _ ih =>
    intro root hroot
    rcases List.mem_cons.mp hroot with rfl | hroot
    · exact fits
    · exact ih root hroot

omit [Primitives] in
/-- A row of trees, seen through another relation that holds of each of them. -/
theorem imp (h : Forest tree roots leaves inner)
    (himp : ∀ root l i, l ⊆ leaves → i ⊆ inner → tree root l i → tree' root l i) :
    Forest tree' roots leaves inner := by
  induction h with
  | nil => exact .nil
  | cons fits head tail ih =>
    refine .cons fits (himp _ _ _ (List.subset_append_left _ _) (List.subset_append_left _ _)
      head) (ih fun root l i hl hi => himp root l i ?_ ?_)
    · exact List.Subset.trans hl (List.subset_append_right _ _)
    · exact List.Subset.trans hi (List.subset_append_right _ _)

end Forest

/-- A block tree of height `level`: at the bottom its only data block, above
it an indirect block that stores the roots of a row of lower trees. -/
def TreeRep (im : Image) : Nat → BlockPtr → List BlockPtr → List BlockPtr → Prop
  | 0, root, leaves, inner => leaves = [root] ∧ inner = []
  | level + 1, root, leaves, inner => ∃ roots inner',
      Stored im root (roots.flatMap BlockPtr.writeTo) ∧
      Forest (TreeRep im level) roots leaves inner' ∧ inner = root :: inner'

theorem TreeRep.frame {im im' : Image} (hunit : 0 < im.allocUnit) {level : Nat}
    {root : BlockPtr} {leaves inner : List BlockPtr} (h : TreeRep im level root leaves inner)
    (hagree : im.AgreeOn im' inner) : TreeRep im' level root leaves inner := by
  induction level generalizing root leaves inner with
  | zero => exact h
  | succ level ih =>
    obtain ⟨roots, inner', hroot, hforest, rfl⟩ := h
    refine ⟨roots, inner', hroot.frame hunit (hagree.mono (by simp)), ?_, rfl⟩
    exact hforest.imp fun root l i _ hi htree =>
      ih htree (hagree.mono (List.Subset.trans hi (List.subset_cons_self _ _)))

end Eo9.Eofs

/-!
## Reading what is stored

The readers of `tree.rs` return exactly what the device stores: a stored block,
and the data blocks of a tree.
-/

namespace Eo9.Eofs

open Eo9.Library Outcome

/-- The pointers in an indirect block are cut apart where they were put
together. -/
theorem chunks_flatMap_writeTo (roots : List BlockPtr) :
    chunks BLOCK_PTR_SIZE (roots.flatMap BlockPtr.writeTo) = roots.map BlockPtr.writeTo := by
  rw [List.flatMap_def]
  refine chunks_flatten (by decide) fun bytes hbytes => ?_
  obtain ⟨root, -, rfl⟩ := List.mem_map.mp hbytes
  exact root.length_writeTo

/-- A loop over the children of an indirect block is a loop over its pointers. -/
theorem foldlM_children {β : Type} {f : β → BlockPtr → Outcome FsError β}
    {roots : List BlockPtr} (hfits : ∀ root ∈ roots, root.Fits) (b : β) :
    (chunks BLOCK_PTR_SIZE (roots.flatMap BlockPtr.writeTo)).foldlM (fun b chunk => do
      let child ← BlockPtr.readFrom chunk
      f b child) b = roots.foldlM f b := by
  rw [chunks_flatMap_writeTo]
  induction roots generalizing b with
  | nil => rfl
  | cons root roots ih =>
    rw [List.map_cons, List.foldlM_cons, List.foldlM_cons,
      BlockPtr.readFrom_writeTo (hfits root List.mem_cons_self), ok_bind]
    refine congrArg _ (funext fun b' => ih ?_ b')
    exact fun r hr => hfits r (List.mem_cons_of_mem _ hr)

theorem length_flatMap_writeTo (roots : List BlockPtr) :
    (roots.flatMap BlockPtr.writeTo).length = roots.length * BLOCK_PTR_SIZE := by
  induction roots with
  | nil => simp
  | cons root roots ih =>
    rw [List.flatMap_cons, List.length_append, ih, root.length_writeTo, List.length_cons]
    ring

namespace AsyncEofs

variable {D : Type} [BlockDevice D] [LawfulDevice D]

/-- What decides the reads of a mount. -/
def image (fs : AsyncEofs D) : Image where
  blockSize := fs.blockSize
  allocUnit := fs.allocUnit
  deviceSize := fs.deviceSize
  byte := LawfulDevice.byte fs.dev

variable [Primitives] {fs : AsyncEofs D} (hgeo : fs.Geometry)

include hgeo

theorem ptrOk_of_stored {ptr : BlockPtr} {b : List UInt8} (h : Stored fs.image ptr b) :
    fs.PtrOk ptr := by
  have hend := h.end_le
  have hround := le_divCeil_mul ptr.psize hgeo.unit_pos
  have hpos := h.length_pos
  have hsize := hgeo.size_lt
  simp only [image] at hend
  refine ⟨by rw [h.lsize]; exact hpos, by rw [h.lsize]; exact h.length_le, h.psize_pos,
    h.psize_le, h.start_le, Nat.mod_eq_zero_of_dvd h.dvd, ?_, ?_⟩
  · omega
  · omega

/-- A stored block is read. -/
theorem readBlock_stored {ptr : BlockPtr} {b : List UInt8} (h : Stored fs.image ptr b) :
    fs.readBlock ptr = .ok b := by
  have hptr := ptrOk_of_stored hgeo h
  exact readBlock_eq_ok_iff.mpr ⟨hptr, _, readAt_of_ptrOk hgeo hptr, h.decodes, h.hash⟩

/-- The leaves of a stored tree are collected in order. -/
theorem collectLevel_rep {level n : Nat} {root : BlockPtr} {leaves inner out : List BlockPtr}
    (h : TreeRep fs.image level root leaves inner) (hn : out.length + leaves.length ≤ n) :
    fs.collectLevel n level root out = .ok (out ++ leaves) := by
  induction level generalizing root leaves inner out with
  | zero =>
    obtain ⟨rfl, -⟩ := h
    simp only [List.length_singleton] at hn
    rw [collectLevel, if_neg (by omega)]
  | succ level ih =>
    obtain ⟨roots, inner', hroot, hforest, -⟩ := h
    have hne : roots.flatMap BlockPtr.writeTo ≠ [] := List.ne_nil_of_length_pos hroot.length_pos
    rw [collectLevel, readBlock_stored hgeo hroot, ok_bind,
      if_neg (by simp [hne]), foldlM_children hforest.fits]
    clear hroot hne
    induction hforest generalizing out with
    | nil => simp [pure, Except.pure]
    | cons _ head _ ihrow =>
      rw [List.length_append] at hn
      rw [List.foldlM_cons, ih head (by omega), ok_bind,
        ihrow (by rw [List.length_append]; omega), List.append_assoc]

end AsyncEofs

end Eo9.Eofs
