import Eo9.Eofs.Reads

/-!
# Building a tree

What the writers of `tree.rs` leave on the device. A block goes to a free extent, so what was
settled before stays; a level of indirect blocks stands over the trees below it; and the reference
that comes out is one that `checkObject` accepts and `collectLeaves` walks back to the leaves.
-/

namespace Eo9.Eofs

open Eo9.Library Outcome

def InFree (free : List Extent) (i : ℕ) : Prop := ∃ e ∈ free, e.addr ≤ i ∧ i < e.addr + e.len

def Before (e f : Extent) : Prop := e.addr + e.len ≤ f.addr

/-- What taking `need` bytes from a free list leaves of it. -/
structure Fitted (need : ℕ) (free : List Extent) (addr : ℕ) (free' : List Extent) : Prop where
  found : ∃ e ∈ free, addr = e.addr ∧ need ≤ e.len
  inside : ∀ e' ∈ free', ∃ e ∈ free, (e'.addr = e.addr ∨ e'.addr = e.addr + need) ∧
    e'.addr + e'.len = e.addr + e.len
  apart : free'.Pairwise Before
  free : ∀ i, InFree free' i → InFree free i ∧ ¬(addr ≤ i ∧ i < addr + need)

theorem firstFit_fitted {need addr : ℕ} {free free' : List Extent}
    (hapart : free.Pairwise Before) (h : Allocator.firstFit need free = some (addr, free')) :
    Fitted need free addr free' := by
  induction free generalizing free' with
  | nil => cases h
  | cons e rest ih =>
    obtain ⟨hbefore, hrest⟩ := List.pairwise_cons.mp hapart
    rw [Allocator.firstFit] at h
    split at h
    · next hneed =>
      split at h
      · next hzero =>
        cases h
        exact {
          found := ⟨e, List.mem_cons_self, rfl, hneed⟩
          inside := fun e' he' => ⟨e', List.mem_cons_of_mem _ he', .inl rfl, rfl⟩
          apart := hrest
          free := by
            rintro i ⟨e', he', hle, hlt⟩
            have hafter : e.addr + e.len ≤ e'.addr := hbefore e' he'
            exact ⟨⟨e', List.mem_cons_of_mem _ he', hle, hlt⟩, by omega⟩ }
      · next hpos =>
        cases h
        exact {
          found := ⟨e, List.mem_cons_self, rfl, hneed⟩
          inside := by
            intro e' he'
            rcases List.mem_cons.mp he' with rfl | he'
            · exact ⟨e, List.mem_cons_self, .inr rfl, by dsimp only; omega⟩
            · exact ⟨e', List.mem_cons_of_mem _ he', .inl rfl, rfl⟩
          apart := by
            apply List.pairwise_cons.mpr
            refine ⟨fun e' he' => ?_, hrest⟩
            have hafter : e.addr + e.len ≤ e'.addr := hbefore e' he'
            show e.addr + need + (e.len - need) ≤ e'.addr
            omega
          free := by
            rintro i ⟨e', he', hle, hlt⟩
            rcases List.mem_cons.mp he' with rfl | he'
            · dsimp only at hle hlt
              exact ⟨⟨e, List.mem_cons_self, by omega, by omega⟩, by omega⟩
            · have hafter : e.addr + e.len ≤ e'.addr := hbefore e' he'
              exact ⟨⟨e', List.mem_cons_of_mem _ he', hle, hlt⟩, by omega⟩ }
    · cases hfit : Allocator.firstFit need rest with
      | none =>
        rw [hfit] at h
        cases h
      | some found =>
        rw [hfit] at h
        cases h
        have hfitted := ih hrest hfit
        obtain ⟨e₁, he₁, haddr, hneed⟩ := hfitted.found
        have hafter : e.addr + e.len ≤ e₁.addr := hbefore e₁ he₁
        exact {
          found := ⟨e₁, List.mem_cons_of_mem _ he₁, haddr, hneed⟩
          inside := by
            intro e' he'
            rcases List.mem_cons.mp he' with rfl | he'
            · exact ⟨e', List.mem_cons_self, .inl rfl, rfl⟩
            · obtain ⟨e₂, he₂, hsame⟩ := hfitted.inside e' he'
              exact ⟨e₂, List.mem_cons_of_mem _ he₂, hsame⟩
          apart := by
            apply List.pairwise_cons.mpr
            refine ⟨fun e' he' => ?_, hfitted.apart⟩
            obtain ⟨e₂, he₂, hstart, -⟩ := hfitted.inside e' he'
            have hafter₂ : e.addr + e.len ≤ e₂.addr := hbefore e₂ he₂
            show e.addr + e.len ≤ e'.addr
            omega
          free := by
            rintro i ⟨e', he', hle, hlt⟩
            rcases List.mem_cons.mp he' with rfl | he'
            · exact ⟨⟨e', List.mem_cons_self, hle, hlt⟩, by omega⟩
            · obtain ⟨⟨e₂, he₂, hin⟩, hout⟩ := hfitted.free i ⟨e', he', hle, hlt⟩
              exact ⟨⟨e₂, List.mem_cons_of_mem _ he₂, hin⟩, hout⟩ }

namespace Allocator

/-- What is documented of the free list: its extents are sorted, do not overlap, and start at
multiples of the allocation unit, all below the frontier. -/
structure Tidy (a : Allocator) : Prop where
  unit_pos : 0 < a.allocUnit
  start_le : DATA_START ≤ a.frontier
  frontier_dvd : a.allocUnit ∣ a.frontier
  frontier_le : a.frontier ≤ a.deviceSize
  extents : ∀ e ∈ a.free, DATA_START ≤ e.addr ∧ a.allocUnit ∣ e.addr ∧ e.addr + e.len ≤ a.frontier
  apart : a.free.Pairwise Before

/-- The bytes that the allocator may hand out. -/
def Room (a : Allocator) (i : ℕ) : Prop := a.frontier ≤ i ∨ InFree a.free i

/-- The allocator that comes up has nothing on its free list. -/
theorem tidy_new {unit size frontier : ℕ} (hunit : 0 < unit) (hstart : DATA_START ≤ frontier)
    (hdvd : unit ∣ frontier) (hle : frontier ≤ size) : (new unit size frontier).Tidy where
  unit_pos := hunit
  start_le := hstart
  frontier_dvd := hdvd
  frontier_le := hle
  extents := nofun
  apart := .nil

/-- What an allocation hands out, and what it leaves. -/
structure Gives (a : Allocator) (len addr : ℕ) (a' : Allocator) : Prop where
  tidy : a'.Tidy
  allocUnit : a'.allocUnit = a.allocUnit
  deviceSize : a'.deviceSize = a.deviceSize
  start_le : DATA_START ≤ addr
  dvd : a.allocUnit ∣ addr
  end_le : addr + a.aligned len ≤ a.deviceSize
  room : ∀ i, addr ≤ i → i < addr + a.aligned len → a.Room i ∧ ¬a'.Room i
  mono : ∀ i, a'.Room i → a.Room i

theorem Tidy.gives {a a' : Allocator} {len addr : ℕ} (h : a.Tidy)
    (hallocate : a.allocate len = (.ok addr, a')) : a.Gives len addr a' := by
  have hdvd : a.allocUnit ∣ a.aligned len := Dvd.intro_left _ rfl
  have hstart := h.start_le
  have hfrontier := h.frontier_le
  rw [allocate] at hallocate
  split at hallocate
  · cases hallocate
  · dsimp only at hallocate
    cases hfit : firstFit (a.aligned len) a.free with
    | some found =>
      obtain ⟨addr', free'⟩ := found
      rw [hfit] at hallocate
      cases hallocate
      have hfitted := firstFit_fitted h.apart hfit
      obtain ⟨e, he, rfl, hneed⟩ := hfitted.found
      obtain ⟨hlow, hunit, hhigh⟩ := h.extents e he
      exact {
        tidy := { h with
          extents := by
            intro e' he'
            obtain ⟨e₁, he₁, hsame, hend⟩ := hfitted.inside e' he'
            obtain ⟨hlow₁, hunit₁, hhigh₁⟩ := h.extents e₁ he₁
            refine ⟨by omega, ?_, hend ▸ hhigh₁⟩
            rcases hsame with hsame | hsame
            · rw [hsame]
              exact hunit₁
            · rw [hsame]
              exact Nat.dvd_add hunit₁ hdvd
          apart := hfitted.apart }
        allocUnit := rfl
        deviceSize := rfl
        start_le := hlow
        dvd := hunit
        end_le := by omega
        room := by
          intro i hle hlt
          refine ⟨.inr ⟨e, he, hle, by omega⟩, ?_⟩
          rintro (hout | hin)
          · have hout' : a.frontier ≤ i := hout
            omega
          · exact (hfitted.free i hin).2 ⟨hle, hlt⟩
        mono := by
          rintro i (hout | hin)
          · exact .inl hout
          · exact .inr (hfitted.free i hin).1 }
    | none =>
      rw [hfit] at hallocate
      dsimp only at hallocate
      split at hallocate
      · cases hallocate
      · split at hallocate
        · cases hallocate
        · cases hallocate
          exact {
            tidy := { h with
              start_le := by
                show DATA_START ≤ a.frontier + a.aligned len
                omega
              frontier_dvd := Nat.dvd_add h.frontier_dvd hdvd
              frontier_le := by
                show a.frontier + a.aligned len ≤ a.deviceSize
                omega
              extents := by
                intro e he
                obtain ⟨hlow, hunit, hhigh⟩ := h.extents e he
                exact ⟨hlow, hunit, Nat.le_add_right_of_le hhigh⟩ }
            allocUnit := rfl
            deviceSize := rfl
            start_le := h.start_le
            dvd := h.frontier_dvd
            end_le := by omega
            room := by
              intro i hle hlt
              refine ⟨.inl hle, ?_⟩
              rintro (hout | ⟨e, he, hlow, hhigh⟩)
              · have hout' : a.frontier + a.aligned len ≤ i := hout
                omega
              · have hend := (h.extents e he).2.2
                omega
            mono := by
              rintro i (hout | hin)
              · have hout' : a.frontier + a.aligned len ≤ i := hout
                exact .inl (by omega)
              · exact .inr hin }

/-- An allocation that is refused changes nothing. -/
theorem allocate_stopped {a a' : Allocator} {len : ℕ} {e : Stop FsError}
    (h : a.allocate len = (.error e, a')) : (∃ x, e = .err x) ∧ a' = a := by
  rw [allocate] at h
  split at h
  · cases h
    exact ⟨⟨_, rfl⟩, rfl⟩
  · dsimp only at h
    cases hfit : firstFit (a.aligned len) a.free with
    | some found =>
      rw [hfit] at h
      cases h
    | none =>
      rw [hfit] at h
      dsimp only at h
      split at h
      · cases h
        exact ⟨⟨_, rfl⟩, rfl⟩
      · split at h
        · cases h
          exact ⟨⟨_, rfl⟩, rfl⟩
        · cases h

end Allocator

/-- Grouping takes one off the height. -/
theorem clog_divCeil {b n : ℕ} (hb : 2 ≤ b) (hn : 1 < n) :
    Nat.clog b n = Nat.clog b (divCeil n b) + 1 := by
  have hstep : ∀ k, n ≤ b ^ (k + 1) ↔ divCeil n b ≤ b ^ k := by
    intro k
    rw [divCeil_le_iff (by omega), Nat.pow_succ]
  have hpos : 0 < Nat.clog b n := Nat.clog_pos hb hn
  apply Nat.le_antisymm
  · apply (Nat.clog_le_iff_le_pow hb).mpr
    exact (hstep _).mpr (Nat.le_pow_clog hb _)
  · have hle : Nat.clog b (divCeil n b) ≤ Nat.clog b n - 1 := by
      apply (Nat.clog_le_iff_le_pow hb).mpr
      apply (hstep _).mp
      rw [Nat.sub_add_cancel hpos]
      exact Nat.le_pow_clog hb n
    omega

theorem divCeil_lt {b n : ℕ} (hb : 2 ≤ b) (hn : 1 < n) : divCeil n b < n := by
  have hle : divCeil n b ≤ n - 1 := by
    apply (divCeil_le_iff (by omega)).mpr
    have hmul : (n - 1) * 2 ≤ (n - 1) * b := Nat.mul_le_mul_left _ hb
    omega
  omega

section Primitives

variable [Primitives] [LawfulCompression] {logical : List UInt8}

/-- The stored form of a block is not empty and no longer than the block. -/
theorem length_encodeBlock (codec : Codec) (h : logical ≠ []) :
    0 < (AsyncEofs.encodeBlock codec logical).2.length ∧
      (AsyncEofs.encodeBlock codec logical).2.length ≤ logical.length := by
  have hpos := List.length_pos_of_ne_nil h
  cases codec with
  | raw => exact ⟨hpos, le_rfl⟩
  | lz4 =>
    rw [AsyncEofs.encodeBlock]
    split
    · next hshorter =>
      have hne := LawfulCompression.compress_ne_nil logical h
      exact ⟨List.length_pos_of_ne_nil hne, Nat.le_of_lt hshorter⟩
    · exact ⟨hpos, le_rfl⟩

/-- The stored form of a block decodes to it. -/
theorem decodeBlock_encodeBlock (codec : Codec) (addr : ℕ) (digest : Digest) :
    AsyncEofs.decodeBlock ⟨addr, logical.length, (AsyncEofs.encodeBlock codec logical).2.length,
      (AsyncEofs.encodeBlock codec logical).1, digest⟩ (AsyncEofs.encodeBlock codec logical).2 =
        .ok logical := by
  rw [AsyncEofs.decodeBlock_eq_ok_iff]
  cases codec with
  | raw => exact .inl ⟨rfl, rfl, rfl⟩
  | lz4 =>
    rw [AsyncEofs.encodeBlock]
    split
    · exact .inr ⟨rfl, LawfulCompression.decompress_compress logical, rfl⟩
    · exact .inl ⟨rfl, rfl, rfl⟩

end Primitives

namespace AsyncEofs

variable {D : Type} [BlockDevice D] {fs fs' fs'' : AsyncEofs D}

/-- A mount that blocks can be written to. -/
structure Ready (fs : AsyncEofs D) : Prop where
  geometry : fs.Geometry
  tidy : fs.alloc.Tidy

/-- None of these blocks will be written over. -/
def Settled (fs : AsyncEofs D) (ptrs : List BlockPtr) : Prop :=
  ∀ p ∈ ptrs, ∀ i, Covers fs.allocUnit p i → ¬fs.alloc.Room i

open Action in
omit [BlockDevice D] in
theorem wp_allocate {len : ℕ} (h : fs.alloc.Tidy) :
    wp (allocate len) fs
      (fun addr fs' => ∃ a', fs.alloc.Gives len addr a' ∧ fs' = { fs with alloc := a' })
      fun e fs' => (∃ x, e = .err x) ∧ fs' = fs := by
  cases hresult : fs.alloc.allocate len with
  | mk result a' =>
    have hzoom : allocate len fs = (result, { fs with alloc := a' }) := by
      rw [allocate]
      show ((fs.alloc.allocate len).1, { fs with alloc := (fs.alloc.allocate len).2 }) = _
      rw [hresult]
    cases result with
    | ok addr => exact wp_of_ok hzoom ⟨a', h.gives hresult, rfl⟩
    | error e =>
      obtain ⟨herr, rfl⟩ := Allocator.allocate_stopped hresult
      exact wp_of_error hzoom ⟨herr, rfl⟩

variable [LawfulDevice D]

/-- What writers leave alone. -/
structure Grown (fs fs' : AsyncEofs D) : Prop where
  blockSize : fs'.blockSize = fs.blockSize
  allocUnit : fs'.allocUnit = fs.allocUnit
  deviceSize : fs'.deviceSize = fs.deviceSize
  room : ∀ i, fs'.alloc.Room i → fs.alloc.Room i
  byte : ∀ i, ¬fs.alloc.Room i → LawfulDevice.byte fs'.dev i = LawfulDevice.byte fs.dev i
  rest : ∃ alloc dev, fs' = { fs with alloc, dev }

namespace Grown

theorem refl (fs : AsyncEofs D) : Grown fs fs := ⟨rfl, rfl, rfl, fun _ => id, fun _ _ => rfl, _, _, rfl⟩

theorem trans (h : Grown fs fs') (h' : Grown fs' fs'') : Grown fs fs'' where
  blockSize := h'.blockSize.trans h.blockSize
  allocUnit := h'.allocUnit.trans h.allocUnit
  deviceSize := h'.deviceSize.trans h.deviceSize
  room := fun i hroom => h.room i (h'.room i hroom)
  byte := fun i hroom => (h'.byte i fun hroom' => hroom (h.room i hroom')).trans (h.byte i hroom)
  rest := by
    obtain ⟨_, _, rfl⟩ := h.rest
    exact h'.rest

theorem settled (h : Grown fs fs') {ptrs : List BlockPtr} (hsettled : Settled fs ptrs) :
    Settled fs' ptrs := by
  intro p hp i hcovers hroom
  rw [h.allocUnit] at hcovers
  exact hsettled p hp i hcovers (h.room i hroom)

theorem agreeOn (h : Grown fs fs') {ptrs : List BlockPtr} (hsettled : Settled fs ptrs) :
    fs.image.AgreeOn fs'.image ptrs where
  blockSize := h.blockSize.symm
  allocUnit := h.allocUnit.symm
  deviceSize := h.deviceSize.symm
  byte := fun p hp i hcovers => (h.byte i (hsettled p hp i hcovers)).symm

end Grown

open Action in
theorem wp_devWrite {offset : ℕ} {data : List UInt8} :
    wp (devWrite offset data) fs
      (fun _ fs' => ∃ d', fs' = { fs with dev := d' } ∧ BlockDevice.size d' = BlockDevice.size fs.dev ∧
        LawfulDevice.byte d' = overwrite (LawfulDevice.byte fs.dev) offset data)
      fun e fs' => (∃ x, e = .err x) ∧ ∃ d' n, fs' = { fs with dev := d' } ∧
        BlockDevice.size d' = BlockDevice.size fs.dev ∧
          LawfulDevice.byte d' = overwrite (LawfulDevice.byte fs.dev) offset (data.take n) := by
  obtain ⟨n, hbyte, hall⟩ := LawfulDevice.writeAt_prefix fs.dev offset data
  have hsize := LawfulDevice.size_writeAt fs.dev offset data
  cases hwrite : BlockDevice.writeAt offset data fs.dev with
  | mk result d' =>
    rw [hwrite] at hbyte hall hsize
    cases result with
    | ok u =>
      have hrun : devWrite offset data fs = (.ok u, { fs with dev := d' }) := by
        rw [devWrite, hwrite]
        rfl
      apply wp_of_ok hrun
      refine ⟨d', rfl, hsize, ?_⟩
      rw [hbyte, List.take_of_length_le (hall rfl)]
    | error e =>
      have hrun : devWrite offset data fs =
          (.error (.err (.device e)), { fs with dev := d' }) := by
        rw [devWrite, hwrite]
        rfl
      apply wp_of_error hrun
      exact ⟨⟨_, rfl⟩, d', n, rfl, hsize, hbyte⟩

/-- A write of any part of the data to what was handed out for it leaves everything else alone. -/
theorem Ready.handed {a' : Allocator} {d' : D} {data : List UInt8} {addr n : ℕ} (h : Ready fs)
    (hgives : fs.alloc.Gives data.length addr a')
    (hsize : BlockDevice.size d' = BlockDevice.size fs.dev)
    (hbyte : LawfulDevice.byte d' = overwrite (LawfulDevice.byte fs.dev) addr (data.take n)) :
    Ready { fs with alloc := a', dev := d' } ∧ Grown fs { fs with alloc := a', dev := d' } := by
  have hgeo := h.geometry
  have hround : data.length ≤ fs.alloc.aligned data.length := le_divCeil_mul _ h.tidy.unit_pos
  have htake := List.length_take_le' n data
  refine ⟨⟨?_, hgives.tidy⟩, rfl, rfl, rfl, hgives.mono, ?_, _, _, rfl⟩
  · exact { hgeo with
      device_size := hgeo.device_size.trans hsize.symm
      alloc_unit := hgives.allocUnit.trans hgeo.alloc_unit
      alloc_size := hgives.deviceSize.trans hgeo.alloc_size
      frontier_ge := hgives.tidy.start_le
      frontier_le := by
        have hfrontier := hgives.tidy.frontier_le
        rwa [hgives.deviceSize, hgeo.alloc_size] at hfrontier }
  · intro i hout
    show LawfulDevice.byte d' i = LawfulDevice.byte fs.dev i
    rw [hbyte]
    apply overwrite_outside
    by_contra hin
    have hend : i < addr + fs.alloc.aligned data.length := by omega
    exact hout (hgives.room i (by omega) hend).1

variable [Primitives] [LawfulCompression]

open Action in
/-- A block that was written is stored in what was free, and everything that was settled stays, also
if the write fails. -/
theorem wp_writeBlock {logical : List UInt8} (h : Ready fs) (hne : logical ≠ [])
    (hle : logical.length ≤ fs.blockSize) :
    wp (writeBlock logical) fs
      (fun ptr fs' => Ready fs' ∧ Grown fs fs' ∧ Stored fs'.image ptr logical ∧
        Settled fs' [ptr] ∧ fs.alloc.Room ptr.addr)
      fun e fs' => (∃ x, e = .err x) ∧ Ready fs' ∧ Grown fs fs' := by
  have hgeo := h.geometry
  obtain ⟨hpos, hshort⟩ := length_encodeBlock fs.codec hne
  have hdecode := @decodeBlock_encodeBlock _ _ logical fs.codec
  rw [writeBlock]
  apply wp_bind_of_ok (gets_apply _ _)
  rw [if_neg (by
    rintro (hnil | hlong)
    · exact hne hnil
    · omega)]
  apply wp_bind_of_ok (gets_apply _ _)
  dsimp only
  generalize hstored : encodeBlock fs.codec logical = stored at hpos hshort hdecode ⊢
  apply wp_bind (wp_allocate h.tidy) ?_ fun e fs' hstop => ?_
  rotate_left
  · obtain ⟨herr, rfl⟩ := hstop
    exact ⟨herr, h, .refl fs'⟩
  rintro addr _ ⟨a', hgives, rfl⟩
  apply wp_bind wp_devWrite ?_ fun e fs' hstop => ?_
  rotate_left
  · obtain ⟨herr, d', n, rfl, hsize, hbyte⟩ := hstop
    exact ⟨herr, h.handed hgives hsize hbyte⟩
  rintro _ _ ⟨d', rfl, hsize, hbyte⟩
  apply wp_pure
  obtain ⟨hready, hgrown⟩ := h.handed (n := stored.2.length) hgives hsize
    (by rw [hbyte, List.take_length])
  have hround : stored.2.length ≤ divCeil stored.2.length fs.allocUnit * fs.allocUnit :=
    le_divCeil_mul _ hgeo.unit_pos
  have haligned : fs.alloc.aligned stored.2.length =
      divCeil stored.2.length fs.allocUnit * fs.allocUnit := by
    rw [Allocator.aligned, hgeo.alloc_unit]
  have hend := hgives.end_le
  have hroom := hgives.room
  have hdevice := hgeo.size_lt
  have hblock := hgeo.block_le
  rw [haligned, hgeo.alloc_size] at hend
  rw [haligned] at hroom
  refine ⟨hready, hgrown, ?_, ?_, (hroom addr le_rfl (by omega)).1⟩
  · exact {
      fits := ⟨by dsimp only; omega, by dsimp only; omega, by dsimp only; omega⟩
      length_pos := List.length_pos_of_ne_nil hne
      length_le := hle
      lsize := rfl
      psize_pos := hpos
      psize_le := Nat.le_trans hshort hle
      start_le := hgives.start_le
      dvd := by
        show fs.allocUnit ∣ addr
        rw [← hgeo.alloc_unit]
        exact hgives.dvd
      end_le := hend
      decodes := by
        show decodeBlock _ (slice (LawfulDevice.byte d') addr stored.2.length) = _
        rw [hbyte, slice_overwrite]
        exact hdecode _ _
      hash := rfl }
  · intro p hp i hcovers
    obtain rfl := List.mem_singleton.mp hp
    exact (hroom i hcovers.1 hcovers.2).2

variable {level size : ℕ} {roots current leaves inner : List BlockPtr}

omit [LawfulCompression] in
theorem Grown.forest (h : Grown fs fs') (hunit : 0 < fs.allocUnit)
    (hforest : Forest (TreeRep fs.image level) roots leaves inner) (hsettled : Settled fs inner) :
    Forest (TreeRep fs'.image level) roots leaves inner :=
  hforest.imp fun _ _ _ _ hi htree => htree.frame hunit ((h.agreeOn hsettled).mono hi)

open Action in
/-- A row of trees becomes a row of trees that are one level higher. -/
theorem wp_writeGroups {groups : List (List BlockPtr)} (h : Ready fs)
    (hforest : Forest (TreeRep fs.image level) groups.flatten leaves inner)
    (hsettled : Settled fs inner) (hgroups : ∀ g ∈ groups, 0 < g.length ∧ g.length ≤ fs.fanout) :
    wp (writeGroups groups) fs
      (fun next fs' => Ready fs' ∧ Grown fs fs' ∧ next.length = groups.length ∧
        ∃ inner', Forest (TreeRep fs'.image (level + 1)) next leaves inner' ∧ Settled fs' inner')
      fun e fs' => (∃ x, e = .err x) ∧ Ready fs' ∧ Grown fs fs' := by
  induction groups generalizing fs leaves inner with
  | nil =>
    cases hforest
    exact wp_pure ⟨h, .refl fs, rfl, [], .nil, nofun⟩
  | cons group groups ih =>
    obtain ⟨hgroup, hrest⟩ := List.forall_mem_cons.mp hgroups
    rw [List.flatten_cons] at hforest
    obtain ⟨l, l', i, i', rfl, rfl, hleft, hright⟩ := hforest.split
    have hlength := length_flatMap_writeTo group
    have hfan : fs.fanout * BLOCK_PTR_SIZE ≤ fs.blockSize := Nat.div_mul_le_self _ _
    have hne : group.flatMap BlockPtr.writeTo ≠ [] := by
      apply List.ne_nil_of_length_pos
      rw [hlength]
      exact Nat.mul_pos hgroup.1 (by decide)
    have hfits : (group.flatMap BlockPtr.writeTo).length ≤ fs.blockSize := by
      rw [hlength]
      exact Nat.le_trans (Nat.mul_le_mul_right _ hgroup.2) hfan
    rw [writeGroups]
    apply wp_bind (wp_writeBlock h hne hfits) ?_ fun _ _ => id
    rintro ptr fs₁ ⟨h₁, hgrown₁, hstored₁, hsettled₁, -⟩
    have hleftSettled : Settled fs i := fun p hp => hsettled p (List.mem_append_left _ hp)
    have hrightSettled : Settled fs i' := fun p hp => hsettled p (List.mem_append_right _ hp)
    have hunit := h.geometry.unit_pos
    have hfanout : fs₁.fanout = fs.fanout := by
      rw [fanout, hgrown₁.blockSize, fanout]
    have hright₁ := hgrown₁.forest hunit hright hrightSettled
    apply wp_bind (ih h₁ hright₁ (hgrown₁.settled hrightSettled) (hfanout ▸ hrest)) ?_
      fun _ _ hstop => ⟨hstop.1, hstop.2.1, hgrown₁.trans hstop.2.2⟩
    rintro next fs₂ ⟨h₂, hgrown₂, hnext, inner', hforest₂, hsettled₂⟩
    have hgrown := hgrown₁.trans hgrown₂
    have hroot : TreeRep fs₂.image (level + 1) ptr l (ptr :: i) := by
      refine ⟨group, i, ?_, hgrown.forest hunit hleft hleftSettled, rfl⟩
      exact hstored₁.frame h₁.geometry.unit_pos (hgrown₂.agreeOn hsettled₁)
    apply wp_pure
    refine ⟨h₂, hgrown, congrArg Nat.succ hnext, _, .cons hstored₁.fits hroot hforest₂, ?_⟩
    intro p hp
    rcases List.mem_append.mp hp with hp | hp
    · rcases List.mem_cons.mp hp with rfl | hp
      · exact hgrown₂.settled hsettled₁ p List.mem_cons_self
      · exact hgrown.settled hleftSettled p hp
    · exact hsettled₂ p hp

open Action in
/-- The levels are built up to the canonical height, of blocks that were free. -/
theorem wp_buildSettled {fuel : ℕ} (h : Ready fs)
    (hforest : Forest (TreeRep fs.image level) current leaves inner)
    (hsettled : Settled fs inner) (hne : current ≠ []) (hfuel : current.length ≤ fuel)
    (hlevel : level + Nat.clog fs.fanout current.length < 2 ^ 8) :
    wp (buildLevels size fuel level current) fs
      (fun obj fs' => Ready fs' ∧ Grown fs fs' ∧ obj.size = size ∧
        obj.level = level + Nat.clog fs.fanout current.length ∧
        ∃ inner', TreeRep fs'.image obj.level obj.root leaves inner' ∧ Settled fs' inner')
      fun e fs' => (∃ x, e = .err x) ∧ Ready fs' ∧ Grown fs fs' := by
  have hpos := List.length_pos_of_ne_nil hne
  have hfan := h.geometry.fanout_ge
  induction fuel generalizing fs current inner level with
  | zero => omega
  | succ fuel ih =>
    rw [buildLevels]
    split
    · next hmany =>
      have hclog := clog_divCeil (b := fs.fanout) (by omega) hmany
      have hshorter := divCeil_lt (b := fs.fanout) (by omega) hmany
      have hflatten : (chunks fs.fanout current).flatten = current :=
        flatten_chunks (by omega) current
      have hgroups : ∀ g ∈ chunks fs.fanout current, 0 < g.length ∧ g.length ≤ fs.fanout :=
        fun g hg => length_mem_chunks (by omega) hg
      apply wp_bind_of_ok (gets_apply _ _)
      apply wp_bind (wp_writeGroups h (hflatten.symm ▸ hforest) hsettled hgroups) ?_
        fun _ _ => id
      rintro next fs₁ ⟨h₁, hgrown₁, hnext, inner', hforest₁, hsettled₁⟩
      rw [length_chunks] at hnext
      have hadd : (checkedAdd 8 level 1 : Outcome FsError ℕ) = .ok (level + 1) :=
        checkedAdd_ok (by omega)
      rw [hadd]
      apply wp_bind_of_ok (monadLift_apply _ _)
      have hfanout : fs₁.fanout = fs.fanout := by
        rw [fanout, hgrown₁.blockSize, fanout]
      have hnextPos : 0 < next.length := by
        rw [hnext]
        exact divCeil_pos (by omega) hpos
      apply wp_mono (ih h₁ hforest₁ hsettled₁ (List.ne_nil_of_length_pos hnextPos)
        (by omega) (by rw [hfanout, hnext]; omega) hnextPos h₁.geometry.fanout_ge) ?_
          fun _ _ hstop => ⟨hstop.1, hstop.2.1, hgrown₁.trans hstop.2.2⟩
      rintro obj fs' ⟨h', hgrown', hsize, hobj, hrep⟩
      refine ⟨h', hgrown₁.trans hgrown', hsize, ?_, hrep⟩
      rw [hobj, hfanout, hnext, hclog]
      omega
    · next hone =>
      obtain ⟨root, rfl⟩ := List.length_eq_one_iff.mp (show current.length = 1 by omega)
      have hroot : (liftM (elemAt [root] 0 : Outcome FsError BlockPtr) : Engine D BlockPtr) fs =
          (.ok root, fs) := rfl
      apply wp_bind_of_ok hroot
      apply wp_pure
      cases hforest with
      | cons fits head tail =>
        cases tail
        rw [List.append_nil] at *
        refine ⟨h, .refl fs, rfl, ?_, _, head, hsettled⟩
        rw [List.length_singleton, Nat.clog_one_right, Nat.add_zero]

open Action in
theorem wp_buildLevels {fuel : ℕ} (h : Ready fs)
    (hforest : Forest (TreeRep fs.image level) current leaves inner)
    (hsettled : Settled fs inner) (hne : current ≠ []) (hfuel : current.length ≤ fuel)
    (hlevel : level + Nat.clog fs.fanout current.length < 2 ^ 8) :
    wp (buildLevels size fuel level current) fs
      (fun obj fs' => Ready fs' ∧ Grown fs fs' ∧ obj.size = size ∧
        obj.level = level + Nat.clog fs.fanout current.length ∧
        ∃ inner', TreeRep fs'.image obj.level obj.root leaves inner')
      fun e _ => ∃ x, e = .err x := by
  apply wp_mono (wp_buildSettled h hforest hsettled hne hfuel hlevel)
  · rintro obj fs' ⟨h', hgrown, hsize, hobj, inner', htree, -⟩
    exact ⟨h', hgrown, hsize, hobj, inner', htree⟩
  · exact fun _ _ hstop => hstop.1

omit [LawfulCompression] in
/-- The leaves as a row of trees. -/
theorem forest_leaves (fs : AsyncEofs D) (h : ∀ p ∈ leaves, p.Fits) :
    Forest (TreeRep fs.image 0) leaves leaves [] := by
  induction leaves with
  | nil => exact .nil
  | cons p leaves ih =>
    obtain ⟨hp, hrest⟩ := List.forall_mem_cons.mp h
    have hhead : TreeRep fs.image 0 p [p] [] := ⟨rfl, rfl⟩
    exact .cons hp hhead (ih hrest)

omit [LawfulCompression] in
/-- The root of a tree with real leaves is a real pointer. -/
theorem root_isNull {root : BlockPtr} (h : TreeRep fs.image level root leaves inner)
    (hleaves : ∀ p ∈ leaves, p.isNull = false) : root.isNull = false := by
  cases level with
  | zero =>
    obtain ⟨rfl, -⟩ := h
    exact hleaves root List.mem_cons_self
  | succ level =>
    obtain ⟨roots, inner', hroot, -⟩ := h
    have hstart := hroot.start_le
    have hzero : 0 < DATA_START := by decide
    exact decide_eq_false (by omega)

/-- Building a tree over data blocks and walking it gives back the blocks, in their order. -/
theorem collectLeaves_buildTree (h : Ready fs) (hne : leaves ≠ [])
    (hleaves : ∀ p ∈ leaves, p.Fits ∧ p.isNull = false)
    (hsize : divCeil size fs.blockSize = leaves.length) (hroom : leaves.length ≤ fs.maxLeaves) :
    Clean (buildTree leaves size fs).1 ∧
      ∀ obj fs', buildTree leaves size fs = (.ok obj, fs') →
        obj.size = size ∧ obj.level = Nat.clog fs.fanout leaves.length ∧
          fs'.checkObject obj = .ok leaves.length ∧ fs'.collectLeaves obj = .ok leaves := by
  have hfan := h.geometry.fanout_ge
  have hpos := List.length_pos_of_ne_nil hne
  have hheight : Nat.clog fs.fanout leaves.length ≤ 64 := by
    apply (Nat.clog_le_iff_le_pow (by omega)).mpr
    calc
      leaves.length ≤ fs.deviceSize := hroom.trans fs.maxLeaves_le_size
      _ ≤ 2 ^ 64 := Nat.le_of_lt h.geometry.size_lt
      _ ≤ fs.fanout ^ 64 := Nat.pow_le_pow_left (by omega) 64
  have hforest := forest_leaves fs fun p hp => (hleaves p hp).1
  have hbuild := @wp_buildLevels _ _ _ _ _ _ _ size _ _ _ _ h hforest nofun hne le_rfl (by omega)
  rw [Nat.zero_add] at hbuild
  rw [buildTree, if_neg hne]
  constructor
  · cases hresult : buildLevels size leaves.length 0 leaves fs with
    | mk result fs' =>
      cases result with
      | ok obj => exact clean_ok obj
      | error e =>
        obtain ⟨x, rfl⟩ := hbuild.stopped hresult
        exact clean_err x
  · intro obj fs' hresult
    obtain ⟨h', hgrown, hobj, hlevel, inner, htree⟩ := hbuild.returned hresult
    have hfanout : fs'.fanout = fs.fanout := by
      rw [fanout, hgrown.blockSize, fanout]
    have hmax : fs'.maxLeaves = fs.maxLeaves := by
      rw [maxLeaves, hgrown.deviceSize, hgrown.allocUnit, maxLeaves]
    have hcount : divCeil obj.size fs'.blockSize = leaves.length := by
      rw [hobj, hgrown.blockSize, hsize]
    have hwalk : fs'.Walkable obj :=
      { size_pos := by
          apply Nat.pos_of_ne_zero
          intro hzero
          rw [hzero, divCeil_zero] at hcount
          omega
        root := root_isNull htree fun p hp => (hleaves p hp).2
        leaves_le := by
          rw [hcount, hmax]
          exact hroom
        level := by rw [hcount, hfanout, hlevel] }
    have hcheck := checkObject_walkable h'.geometry hwalk
    rw [hcount] at hcheck
    refine ⟨hobj, hlevel, hcheck, ?_⟩
    rw [collectLeaves, hcheck, ok_bind, if_neg (by omega),
      collectLevel_rep h'.geometry htree (by simp), ok_bind, List.nil_append, if_neg (by simp)]

/-- A fresh device of 64 KiB, mounted. -/
def smallMount : AsyncEofs MemDevice where
  dev := ⟨2 ^ 16, fun _ => 0, by decide⟩
  blockSize := 512
  allocUnit := 64
  codec := .lz4
  deviceSize := 2 ^ 16
  formatDeviceSize := 2 ^ 16
  committedTxg := 1
  committedLiveRoot := ObjRef.EMPTY
  committedSnapshots := ObjRef.EMPTY
  liveRoot := ObjRef.EMPTY
  snapshots := ObjRef.EMPTY
  alloc := Allocator.new 64 (2 ^ 16) (DATA_START + 1024)
  dirty := false

set_option maxRecDepth 10000 in
omit [Primitives] [LawfulCompression] in
/-- Two data blocks under one indirect block. -/
theorem collectLeaves_buildTree_two : letI := plainBlake3
    ∃ obj fs', buildTree [⟨DATA_START, 512, 512, .raw, Digest.zero⟩,
        ⟨DATA_START + 512, 88, 88, .raw, Digest.zero⟩] 600 smallMount = (.ok obj, fs') ∧
      obj.level = 1 ∧ fs'.collectLeaves obj = .ok [⟨DATA_START, 512, 512, .raw, Digest.zero⟩,
        ⟨DATA_START + 512, 88, 88, .raw, Digest.zero⟩] := by
  have hrun : letI := plainBlake3
      ∃ obj fs', buildTree [⟨DATA_START, 512, 512, .raw, Digest.zero⟩,
        ⟨DATA_START + 512, 88, 88, .raw, Digest.zero⟩] 600 smallMount = (.ok obj, fs') ∧
      obj.level = 1 := ⟨_, _, rfl, rfl⟩
  let _ := plainBlake3
  obtain ⟨obj, fs', hbuild, hlevel⟩ := hrun
  have hlawful : LawfulCompression := ⟨fun _ => rfl, fun _ h => h⟩
  have hready : Ready smallMount := by
    refine ⟨by constructor <;> decide, ?_⟩
    exact Allocator.tidy_new (by decide) (by decide) (by decide) (by decide)
  have hleaves : ∀ p ∈ [(⟨DATA_START, 512, 512, .raw, Digest.zero⟩ : BlockPtr),
      ⟨DATA_START + 512, 88, 88, .raw, Digest.zero⟩], p.Fits ∧ p.isNull = false := by
    intro p hp
    rcases List.mem_pair.mp hp with rfl | rfl
    · exact ⟨by constructor <;> decide, rfl⟩
    · exact ⟨by constructor <;> decide, rfl⟩
  have hsize : divCeil 600 smallMount.blockSize = 2 := by decide
  have htree := collectLeaves_buildTree hready (List.cons_ne_nil _ _) hleaves hsize (by decide)
  exact ⟨obj, fs', hbuild, hlevel, (htree.2 obj fs' hbuild).2.2.2⟩

end AsyncEofs

end Eo9.Eofs
