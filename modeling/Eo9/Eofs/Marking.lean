import Mathlib.Data.List.Nodup
import Eo9.Eofs.ShortReads

/-!
# The marking walk of the garbage collector

The worklist of directories never outlasts its fuel, and the walk panics or
hangs only where it reads a directory or a snapshot table that comes to a
short block.
-/

namespace Eo9.Eofs

open Eo9.Library Outcome

namespace AsyncEofs

variable {D : Type} [BlockDevice D] [Primitives]

/-- The loop returns as many bytes as were asked for. -/
theorem readLoop_length {fs : AsyncEofs D} {leaves : List BlockPtr} {offset want fuel : Nat}
    {buf bytes : List UInt8} (hbuf : buf.length ≤ want)
    (h : fs.readLoop leaves offset want fuel buf = .ok bytes) : bytes.length = want := by
  induction fuel generalizing buf with
  | zero => cases h
  | succ fuel ih =>
    unfold readLoop at h
    by_cases hdone : buf.length < want
    · rw [if_pos hdone] at h
      obtain ⟨pos, -, h⟩ := bind_eq_ok.mp h
      obtain ⟨leaf, -, h⟩ := bind_eq_ok.mp h
      obtain ⟨logical, -, h⟩ := bind_eq_ok.mp h
      obtain ⟨left, -, h⟩ := bind_eq_ok.mp h
      obtain ⟨piece, hpiece, h⟩ := bind_eq_ok.mp h
      obtain ⟨hrange, rfl⟩ := rangeOf_eq_ok_iff.mp hpiece
      refine ih ?_ h
      rw [List.length_append, length_sub (by omega)]
      omega
    · rw [if_neg hdone] at h
      obtain rfl := Except.ok.inj h
      omega

/-- The descent reads the root, unless the root is the only data block. -/
theorem collectLevel_root {fs : AsyncEofs D} {leafCount level : Nat} {root : BlockPtr}
    {leaves : List BlockPtr} (h : fs.collectLevel leafCount level root [] = .ok leaves) :
    leaves = [root] ∨ ∃ block, fs.readBlock root = .ok block := by
  cases level with
  | zero =>
    unfold collectLevel at h
    split at h
    · cases h
    · exact .inl (Except.ok.inj h).symm
  | succ level =>
    obtain ⟨block, hblock, -⟩ := bind_eq_ok.mp h
    exact .inr ⟨block, hblock⟩

section Bounds

variable [LawfulDevice D] {fs : AsyncEofs D} (hgeo : fs.Geometry)

include hgeo

/-- An object that is read whole is empty, or its root is on the device. -/
theorem readObject_ok {obj : ObjRef} {bytes : List UInt8} (h : fs.readObject obj = .ok bytes) :
    bytes.length = obj.size ∧ obj.size ≤ MAX_META_OBJECT_SIZE ∧
      ((obj.size = 0 ∧ obj.root.isNull = true) ∨
        (obj.root.isNull = false ∧ obj.root.addr < fs.deviceSize)) := by
  unfold readObject at h
  by_cases hbig : MAX_META_OBJECT_SIZE < obj.size
  · rw [if_pos hbig] at h
    cases h
  · rw [if_neg hbig] at h
    obtain ⟨n, hn, h⟩ := bind_eq_ok.mp h
    rcases checkObject_ok hgeo hn with ⟨hzero, hnull, -⟩ | ⟨hwalk, -, -⟩
    · rw [readObjectRange, if_pos (by omega)] at h
      obtain rfl := Except.ok.inj h
      exact ⟨by simp [hzero], by omega, .inl ⟨hzero, hnull⟩⟩
    · have hpos := hwalk.size_pos
      rw [readObjectRange, if_neg (by omega)] at h
      obtain ⟨leaves, hleaves, h⟩ := bind_eq_ok.mp h
      have hlen := readLoop_length (Nat.zero_le _) h
      refine ⟨by omega, by omega, .inr ⟨hwalk.root, ?_⟩⟩
      obtain ⟨block, hblock⟩ : ∃ block, fs.readBlock obj.root = .ok block := by
        obtain ⟨-, hlevel, -⟩ := collectLeaves_eq_ok hgeo hpos hleaves
        rcases collectLevel_root hlevel with rfl | hroot
        · rw [readLoop, if_pos (by simp only [List.length_nil]; omega)] at h
          obtain ⟨pos, hpos', h⟩ := bind_eq_ok.mp h
          obtain ⟨leaf, hleaf, h⟩ := bind_eq_ok.mp h
          obtain ⟨logical, hlogical, -⟩ := bind_eq_ok.mp h
          have hzero : pos = 0 := by
            simp only [checkedAdd] at hpos'
            split at hpos'
            · exact (Except.ok.inj hpos').symm
            · cases hpos'
          rw [hzero, Nat.zero_div] at hleaf
          obtain rfl := Except.ok.inj hleaf
          exact ⟨logical, hlogical⟩
        · exact hroot
      have hptr := (readBlock_length hgeo hblock).1
      have := hptr.le_size
      have := hptr.psize_pos
      omega

/-- A directory that is read is empty, or its root is on the device; it has
fewer entries than the largest directory has bytes. -/
theorem readDir_ok {dir : ObjRef} {entries : List DirEntry} (h : fs.readDir dir = .ok entries) :
    (∀ entry ∈ entries, entry.Fits) ∧ entries.length ≤ MAX_META_OBJECT_SIZE ∧
      ((entries = [] ∧ dir.root.isNull = true) ∨
        (dir.root.isNull = false ∧ dir.root.addr < fs.deviceSize)) := by
  obtain ⟨bytes, hbytes, h⟩ := bind_eq_ok.mp h
  obtain ⟨hfits, hcount⟩ := parseDir_ok h
  obtain ⟨hlen, hmax, hroot⟩ := readObject_ok hgeo hbytes
  have hfixed : DIR_ENTRY_FIXED = 76 := rfl
  rw [hfixed] at hcount
  refine ⟨hfits, by omega, hroot.imp_left ?_⟩
  rintro ⟨hzero, hnull⟩
  exact ⟨List.length_eq_zero_iff.mp (by omega), hnull⟩

end Bounds

/-- The directories among some entries. -/
def subdirs (entries : List DirEntry) : List ObjRef :=
  (entries.filter (·.kind = .directory)).map DirEntry.obj

omit [BlockDevice D] [Primitives] in
theorem length_subdirs_le (entries : List DirEntry) :
    (subdirs entries).length ≤ entries.length := by
  rw [subdirs, List.length_map]
  exact List.length_filter_le _ _

omit [BlockDevice D] [Primitives] in
theorem mem_subdirs {entries : List DirEntry} {obj : ObjRef} (h : obj ∈ subdirs entries) :
    ∃ entry ∈ entries, entry.kind = .directory ∧ entry.obj = obj := by
  obtain ⟨entry, hmem, rfl⟩ := List.mem_map.mp h
  obtain ⟨hmem, hkind⟩ := List.mem_filter.mp hmem
  exact ⟨entry, hmem, by simpa using hkind, rfl⟩

/-- A worklist with fuel enough: every directory visited so far has used up
one address of the device, and each brings in a bounded number of others. -/
structure WorkBudget (fs : AsyncEofs D) (fuel : Nat) (pending : List ObjRef)
    (visited : List Nat) : Prop where
  fuel_le : pending.length + (fs.deviceSize + 1 - visited.length) * MAX_META_OBJECT_SIZE ≤ fuel
  nodup : visited.Nodup
  below : ∀ a ∈ visited, a < fs.deviceSize
  fits : ∀ dir ∈ pending, dir.Fits

omit [BlockDevice D] [Primitives] in
theorem WorkBudget.start {fs : AsyncEofs D} {root : ObjRef} (h : root.Fits) :
    fs.WorkBudget fs.walkFuel [root] [] where
  fuel_le := by
    simp only [walkFuel, List.length_cons, List.length_nil, Nat.sub_zero]
    omega
  nodup := List.nodup_nil
  below := by simp
  fits := by simpa using h

omit [BlockDevice D] [Primitives] in
theorem visited_length_le {fs : AsyncEofs D} {visited : List Nat} (hnodup : visited.Nodup)
    (hbelow : ∀ a ∈ visited, a < fs.deviceSize) : visited.length ≤ fs.deviceSize := by
  have hsub : visited ⊆ List.range fs.deviceSize := fun a ha => List.mem_range.mpr (hbelow a ha)
  simpa using (List.subperm_of_subset hnodup hsub).length_le

/-- One directory uses up at least one unit of fuel. -/
theorem WorkBudget.step [LawfulDevice D] {fs : AsyncEofs D} (hgeo : fs.Geometry) {fuel : Nat}
    {dir : ObjRef} {pending : List ObjRef} {visited visited' : List Nat}
    {entries : List DirEntry} (h : fs.WorkBudget (fuel + 1) (dir :: pending) visited)
    (hvisit : visit visited dir = .ok visited') (hdir : fs.readDir dir = .ok entries) :
    fs.WorkBudget fuel ((subdirs entries).reverse ++ pending) visited' := by
  obtain ⟨hfits, hcount, hroot⟩ := readDir_ok hgeo hdir
  have hsubdirs := length_subdirs_le entries
  have hfuel := h.fuel_le
  have hpending : ∀ d ∈ (subdirs entries).reverse ++ pending, d.Fits := by
    intro d hd
    rcases List.mem_append.mp hd with hd | hd
    · obtain ⟨entry, hmem, -, rfl⟩ := mem_subdirs (List.mem_reverse.mp hd)
      exact (hfits entry hmem).obj
    · exact h.fits d (List.mem_cons_of_mem _ hd)
  have hlen : ((subdirs entries).reverse ++ pending).length =
      (subdirs entries).length + pending.length := by simp
  unfold visit at hvisit
  by_cases hnull : dir.root.isNull = true
  · rw [if_pos hnull] at hvisit
    obtain rfl := Except.ok.inj hvisit
    have hempty : entries = [] := by
      rcases hroot with ⟨hempty, -⟩ | ⟨hroot, -⟩
      · exact hempty
      · simp [hroot] at hnull
    refine ⟨?_, h.nodup, h.below, hpending⟩
    subst hempty
    simp only [List.length_cons] at hfuel
    simp only [subdirs, List.filter_nil, List.map_nil, List.reverse_nil, List.nil_append]
    omega
  · rw [if_neg hnull] at hvisit
    by_cases hseen : dir.root.addr ∈ visited
    · rw [if_pos hseen] at hvisit
      cases hvisit
    · rw [if_neg hseen] at hvisit
      obtain rfl := Except.ok.inj hvisit
      have hlt : dir.root.addr < fs.deviceSize := by
        rcases hroot with ⟨-, hroot⟩ | ⟨-, hlt⟩
        · exact absurd hroot hnull
        · exact hlt
      have hnodup : (dir.root.addr :: visited).Nodup := List.nodup_cons.mpr ⟨hseen, h.nodup⟩
      have hbelow : ∀ a ∈ dir.root.addr :: visited, a < fs.deviceSize := by
        intro a ha
        rcases List.mem_cons.mp ha with rfl | ha
        · exact hlt
        · exact h.below a ha
      have hroom := visited_length_le hnodup hbelow
      refine ⟨?_, hnodup, hbelow, hpending⟩
      have hstep : fs.deviceSize + 1 - visited.length =
          fs.deviceSize + 1 - (dir.root.addr :: visited).length + 1 := by
        simp only [List.length_cons] at hroom ⊢
        omega
      rw [hstep, Nat.add_mul, Nat.one_mul] at hfuel
      simp only [List.length_cons] at hfuel hlen ⊢
      omega

section Marks

variable {fs : AsyncEofs D}

theorem markPtr_seen {leafCount level : Nat} {ptr : BlockPtr} {marks marks' : Nat × List Extent}
    (hseen : marks.1 ≤ leafCount) (h : fs.markPtr leafCount level ptr marks = .ok marks') :
    marks'.1 ≤ leafCount := by
  induction level generalizing ptr marks marks' with
  | zero =>
    unfold markPtr at h
    obtain ⟨seen, -, h⟩ := bind_eq_ok.mp h
    split at h
    · cases h
    · obtain rfl := Except.ok.inj h
      omega
  | succ level ih =>
    unfold markPtr at h
    obtain ⟨logical, -, h⟩ := bind_eq_ok.mp h
    split at h
    · cases h
    · refine foldlM_invariant (p := fun m => m.1 ≤ leafCount) hseen ?_ h
      intro m chunk m' hm _ hround
      obtain ⟨child, -, hround⟩ := bind_eq_ok.mp hround
      exact ih hm hround

theorem clean_markPtr {leafCount level : Nat} (hn : leafCount + 1 < 2 ^ 64) {ptr : BlockPtr}
    {marks : Nat × List Extent} (hseen : marks.1 ≤ leafCount) :
    Clean (fs.markPtr leafCount level ptr marks) := by
  induction level generalizing ptr marks with
  | zero =>
    unfold markPtr
    refine clean_bind.mpr ⟨clean_checkedAdd.mpr (by omega), fun seen _ => ?_⟩
    split
    · exact clean_fail _
    · exact clean_ok _
  | succ level ih =>
    unfold markPtr
    refine clean_bind.mpr ⟨clean_readBlock fs ptr, fun logical _ => ?_⟩
    split
    · exact clean_fail _
    · next hblock =>
      have hdvd : logical.length % BLOCK_PTR_SIZE = 0 := by
        by_contra hne
        exact hblock (.inr hne)
      refine clean_foldlM (p := fun m => m.1 ≤ leafCount) hseen ?_ ?_
      · intro m chunk hm hchunk
        have hlen := length_mem_chunks_of_dvd (by decide) hdvd hchunk
        exact clean_bind.mpr ⟨BlockPtr.clean_readFrom hlen, fun child _ => ih hm⟩
      · intro m chunk m' hm _ hround
        obtain ⟨child, -, hround⟩ := bind_eq_ok.mp hround
        exact markPtr_seen hm hround

theorem clean_markObject [LawfulDevice D] (hgeo : fs.Geometry) (out : List Extent)
    (obj : ObjRef) : Clean (fs.markObject out obj) := by
  refine clean_bind.mpr ⟨clean_checkObject hgeo obj, fun n hn => ?_⟩
  split
  · exact clean_ok _
  · have hroom : n + 1 < 2 ^ 64 := by
      have hsize := hgeo.size_lt
      have hstart : 0 < DATA_START := by decide
      rcases checkObject_ok hgeo hn with ⟨-, -, rfl⟩ | ⟨hwalk, rfl, -⟩
      · omega
      · have hle := hwalk.leaves_le
        have hdiv : fs.maxLeaves ≤ fs.deviceSize - DATA_START := Nat.div_le_self _ _
        have := hgeo.start_le
        omega
    exact clean_bind.mpr ⟨clean_markPtr hroom (Nat.zero_le _), fun _ _ => clean_ok _⟩

/-- The worklist after the entries of a directory. -/
theorem foldlM_markEntry {entries : List DirEntry} {pending pending' : List ObjRef}
    {out out' : List Extent}
    (h : entries.foldlM fs.markEntry (pending, out) = .ok (pending', out')) :
    pending' = (subdirs entries).reverse ++ pending := by
  induction entries generalizing pending out with
  | nil =>
    obtain ⟨rfl, -⟩ := Prod.mk.inj (Except.ok.inj h)
    rfl
  | cons entry entries ih =>
    obtain ⟨state, hstate, h⟩ := bind_eq_ok.mp h
    obtain ⟨mid, out₁⟩ := state
    rw [ih h]
    unfold markEntry at hstate
    cases hkind : entry.kind with
    | file =>
      simp only [hkind] at hstate
      obtain ⟨_, -, hstate⟩ := bind_eq_ok.mp hstate
      obtain ⟨rfl, -⟩ := Prod.mk.inj (Except.ok.inj hstate)
      simp [subdirs, hkind]
    | directory =>
      simp only [hkind] at hstate
      obtain ⟨rfl, -⟩ := Prod.mk.inj (Except.ok.inj hstate)
      simp [subdirs, hkind]

variable (fs) in
/-- The directories that the marking walk reads whole, from a worklist on: the
next one if it is marked, and after it those that the walk goes on to. -/
inductive MarkReads : List ObjRef → List Nat → List Extent → ObjRef → Prop
  | here {dir : ObjRef} {pending : List ObjRef} {visited visited' : List Nat}
      {out out' : List Extent} (hvisit : visit visited dir = .ok visited')
      (hmark : fs.markObject out dir = .ok out') : MarkReads (dir :: pending) visited out dir
  | next {dir dir' : ObjRef} {pending pending' : List ObjRef} {visited visited' : List Nat}
      {out out' out'' : List Extent} {entries : List DirEntry}
      (hvisit : visit visited dir = .ok visited') (hmark : fs.markObject out dir = .ok out')
      (hdir : fs.readDir dir = .ok entries)
      (hentries : entries.foldlM fs.markEntry (pending, out') = .ok (pending', out''))
      (rest : MarkReads pending' visited' out'' dir') :
      MarkReads (dir :: pending) visited out dir'

omit [BlockDevice D] [Primitives] in
theorem clean_visit (visited : List Nat) (dir : ObjRef) : Clean (visit visited dir) := by
  unfold visit
  split
  · exact clean_ok _
  · split
    · exact clean_fail _
    · exact clean_ok _

variable [LawfulDevice D] (hgeo : fs.Geometry)

include hgeo

/-- The marking walk is clean exactly when no directory it reads whole comes
to a short block. -/
theorem clean_markLoop {fuel : Nat} {pending : List ObjRef} {visited : List Nat}
    {out : List Extent} (hbudget : fs.WorkBudget fuel pending visited) :
    Clean (fs.markLoop fuel pending visited out) ↔
      ∀ dir, fs.MarkReads pending visited out dir → ¬ fs.WholeShort dir := by
  induction fuel generalizing pending visited out with
  | zero =>
    have hempty : pending = [] := by
      have := hbudget.fuel_le
      exact List.length_eq_zero_iff.mp (by omega)
    subst hempty
    exact iff_of_true (clean_ok out) fun dir h => by cases h
  | succ fuel ih =>
    cases pending with
    | nil => exact iff_of_true (clean_ok out) fun dir h => by cases h
    | cons dir pending =>
      have hfits := hbudget.fits dir List.mem_cons_self
      rw [markLoop, clean_bind]
      simp only [clean_visit, true_and, clean_bind, clean_markObject hgeo, clean_readDir hgeo
        hfits.size]
      constructor
      · intro h d hreads
        cases hreads with
        | here hvisit hmark => exact (h _ hvisit _ hmark).1
        | next hvisit hmark hdir hentries rest =>
          have hclean := ((h _ hvisit _ hmark).2 _ hdir).2 _ hentries
          have hnext := hbudget.step hgeo hvisit hdir
          rw [← foldlM_markEntry hentries] at hnext
          exact (ih hnext).mp hclean d rest
      · intro h visited' hvisit out' hmark
        refine ⟨h dir (.here hvisit hmark), fun entries hdir => ?_⟩
        refine ⟨?_, ?_⟩
        · refine clean_foldlM (p := fun _ => True) trivial ?_ (fun _ _ _ _ _ _ => trivial)
          intro state entry _ _
          unfold markEntry
          split
          · exact clean_bind.mpr ⟨clean_markObject hgeo _ _, fun _ _ => clean_ok _⟩
          · exact clean_ok _
        · rintro ⟨pending', out''⟩ hentries
          have hnext := hbudget.step hgeo hvisit hdir
          rw [← foldlM_markEntry hentries] at hnext
          exact (ih hnext).mpr fun d rest =>
            h d (.next hvisit hmark hdir hentries rest)

theorem clean_markDirTree {root : ObjRef} (hroot : root.Fits) (out : List Extent) :
    Clean (fs.markDirTree out root) ↔
      ∀ dir, fs.MarkReads [root] [] out dir → ¬ fs.WholeShort dir :=
  clean_markLoop hgeo (.start hroot)

end Marks

/-- The directories that marking a list of roots reads whole. -/
def RootsRead (fs : AsyncEofs D) (out : List Extent) (roots : List ObjRef) (dir : ObjRef) : Prop :=
  ∃ done root rest out', roots = done ++ root :: rest ∧
    done.foldlM fs.markDirTree out = .ok out' ∧ fs.MarkReads [root] [] out' dir

/-- What marking a snapshot table reads whole: the table, and directories
under its snapshots. -/
def TableReads (fs : AsyncEofs D) (out : List Extent) (table dir : ObjRef) : Prop :=
  ∃ out', fs.markObject out table = .ok out' ∧
    (dir = table ∨ ∃ entries, fs.readSnapshots table = .ok entries ∧
      fs.RootsRead out' (entries.map SnapEntry.root) dir)

/-- What a collection reads whole. -/
def GcReads (fs : AsyncEofs D) (dir : ObjRef) : Prop :=
  fs.RootsRead [] [fs.committedLiveRoot, fs.liveRoot] dir ∨
    ∃ done table rest out out',
      [fs.committedLiveRoot, fs.liveRoot].foldlM fs.markDirTree [] = .ok out ∧
      [fs.committedSnapshots, fs.snapshots] = done ++ table :: rest ∧
      done.foldlM fs.markTable out = .ok out' ∧ fs.TableReads out' table dir

/-- The roots an engine holds fit their fields. -/
structure RootsFit (fs : AsyncEofs D) : Prop where
  committedLiveRoot : fs.committedLiveRoot.Fits
  committedSnapshots : fs.committedSnapshots.Fits
  liveRoot : fs.liveRoot.Fits
  snapshots : fs.snapshots.Fits

section Collect

variable [LawfulDevice D] {fs : AsyncEofs D} (hgeo : fs.Geometry)

include hgeo

theorem clean_markRoots {roots : List ObjRef} (hroots : ∀ root ∈ roots, root.Fits)
    (out : List Extent) : Clean (roots.foldlM fs.markDirTree out) ↔
      ∀ dir, fs.RootsRead out roots dir → ¬ fs.WholeShort dir := by
  rw [clean_foldlM_iff]
  constructor
  · rintro h dir ⟨done, root, rest, out', hsplit, hdone, hreads⟩
    have hmem : root ∈ roots := by simp [hsplit]
    exact (clean_markDirTree hgeo (hroots root hmem) out').mp
      (h done root rest out' hsplit hdone) dir hreads
  · intro h done root rest out' hsplit hdone
    have hmem : root ∈ roots := by simp [hsplit]
    exact (clean_markDirTree hgeo (hroots root hmem) out').mpr fun dir hreads =>
      h dir ⟨done, root, rest, out', hsplit, hdone, hreads⟩

omit [LawfulDevice D] hgeo in
theorem readSnapshots_fits {table : ObjRef} {entries : List SnapEntry}
    (h : fs.readSnapshots table = .ok entries) : ∀ entry ∈ entries, entry.Fits := by
  obtain ⟨bytes, -, h⟩ := bind_eq_ok.mp h
  exact (parseSnapshots_ok h).1

theorem clean_markTable {table : ObjRef} (htable : table.Fits) (out : List Extent) :
    Clean (fs.markTable out table) ↔
      ∀ dir, fs.TableReads out table dir → ¬ fs.WholeShort dir := by
  unfold markTable
  simp only [clean_bind, clean_markObject hgeo, true_and, clean_readSnapshots hgeo htable.size]
  have hroots : ∀ entries, fs.readSnapshots table = .ok entries →
      ∀ root ∈ entries.map SnapEntry.root, root.Fits := by
    intro entries hentries root hroot
    obtain ⟨entry, hmem, rfl⟩ := List.mem_map.mp hroot
    exact (readSnapshots_fits hentries entry hmem).root
  constructor
  · rintro h dir ⟨out', hmark, rfl | ⟨entries, hentries, hreads⟩⟩
    · exact (h out' hmark).1
    · exact (clean_markRoots hgeo (hroots entries hentries) out').mp
        ((h out' hmark).2 entries hentries) dir hreads
  · intro h out' hmark
    refine ⟨h table ⟨out', hmark, .inl rfl⟩, fun entries hentries => ?_⟩
    exact (clean_markRoots hgeo (hroots entries hentries) out').mpr fun dir hreads =>
      h dir ⟨out', hmark, .inr ⟨entries, hentries, hreads⟩⟩

/-- The marking phase of a collection is clean exactly when nothing it reads
whole comes to a short block. -/
theorem clean_markAll (hfit : fs.RootsFit) :
    Clean fs.markAll ↔ ∀ dir, fs.GcReads dir → ¬ fs.WholeShort dir := by
  have hroots : ∀ root ∈ [fs.committedLiveRoot, fs.liveRoot], root.Fits := by
    simp [hfit.committedLiveRoot, hfit.liveRoot]
  have htables : ∀ table ∈ [fs.committedSnapshots, fs.snapshots], table.Fits := by
    simp [hfit.committedSnapshots, hfit.snapshots]
  unfold markAll
  rw [clean_bind, clean_markRoots hgeo hroots]
  constructor
  · rintro ⟨hlive, hrest⟩ dir (hreads | ⟨done, table, rest, out, out', hout, hsplit, hdone, hreads⟩)
    · exact hlive dir hreads
    · have hmem : table ∈ [fs.committedSnapshots, fs.snapshots] := by simp [hsplit]
      exact (clean_markTable hgeo (htables table hmem) out').mp
        (clean_foldlM_iff.mp (hrest out hout) done table rest out' hsplit hdone) dir hreads
  · intro h
    refine ⟨fun dir hreads => h dir (.inl hreads), fun out hout => clean_foldlM_iff.mpr ?_⟩
    intro done table rest out' hsplit hdone
    have hmem : table ∈ [fs.committedSnapshots, fs.snapshots] := by simp [hsplit]
    exact (clean_markTable hgeo (htables table hmem) out').mpr fun dir hreads =>
      h dir (.inr ⟨done, table, rest, out, out', hout, hsplit, hdone, hreads⟩)

end Collect

omit [BlockDevice D] [Primitives] in
theorem clean_gaps {cursor : Nat} {extents : List Extent} :
    Clean (gaps cursor extents) ↔ ∀ e ∈ extents, e.addr + e.len < 2 ^ 64 := by
  induction extents generalizing cursor with
  | nil => exact iff_of_true (clean_ok _) (by simp)
  | cons e extents ih =>
    rw [gaps, clean_bind, clean_checkedAdd]
    constructor
    · rintro ⟨hlt, hrest⟩ e' he'
      rcases List.mem_cons.mp he' with rfl | hmem
      · exact hlt
      · exact ih.mp (clean_bind.mp (hrest _ (checkedAdd_ok hlt))).1 e' hmem
    · intro h
      refine ⟨h e List.mem_cons_self, fun stop _ => ?_⟩
      exact clean_bind.mpr ⟨ih.mpr fun e' he' => h e' (List.mem_cons_of_mem _ he'),
        fun _ _ => clean_ok _⟩

omit [BlockDevice D] [Primitives] in
/-- The gaps lie one after the other between the cursor and the last end. -/
theorem gaps_sum {cursor last : Nat} {extents free : List Extent}
    (hcursor : cursor < 2 ^ 64) (h : gaps cursor extents = .ok (free, last)) :
    cursor + (free.map Extent.len).sum ≤ last ∧ last < 2 ^ 64 := by
  induction extents generalizing cursor free last with
  | nil =>
    obtain ⟨rfl, rfl⟩ := Prod.mk.inj (Except.ok.inj h)
    simpa using hcursor
  | cons e extents ih =>
    rw [gaps] at h
    obtain ⟨stop, hstop, h⟩ := bind_eq_ok.mp h
    obtain ⟨⟨free', last'⟩, hrest, h⟩ := bind_eq_ok.mp h
    obtain ⟨rfl, rfl⟩ := Prod.mk.inj (Except.ok.inj h)
    have hend : stop = e.addr + e.len ∧ e.addr + e.len < 2 ^ 64 := by
      unfold checkedAdd at hstop
      split at hstop
      · next hlt => exact ⟨(Except.ok.inj hstop).symm, hlt⟩
      · cases hstop
    obtain ⟨hsum, hlast⟩ := ih (by omega) hrest
    refine ⟨?_, hlast⟩
    split
    · simp only [List.map_cons, List.sum_cons]
      omega
    · omega

omit [BlockDevice D] [Primitives] in
/-- Adding up numbers whose sum fits does not overflow. -/
theorem foldlM_checkedAdd {ns : List Nat} {total : Nat} (h : total + ns.sum < 2 ^ 64) :
    (ns.foldlM (checkedAdd 64) total : Outcome FsError Nat) = .ok (total + ns.sum) := by
  induction ns generalizing total with
  | nil => rfl
  | cons n ns ih =>
    simp only [List.sum_cons] at h ⊢
    rw [List.foldlM_cons, checkedAdd_ok (by omega), ok_bind, ih (by omega), Nat.add_assoc]

omit [BlockDevice D] [Primitives] in
theorem clean_unmarked {marked : List Extent} {frontier : Nat} :
    Clean (unmarked marked frontier) ↔ ∀ e ∈ marked, e.addr + e.len < 2 ^ 64 := by
  unfold unmarked
  rw [clean_bind, clean_gaps]
  simp only [List.mem_insertionSort]
  exact ⟨And.left, fun h => ⟨h, fun _ _ => clean_ok _⟩⟩

omit [BlockDevice D] [Primitives] in
theorem unmarked_sum {marked free : List Extent} {frontier : Nat} (hfrontier : frontier < 2 ^ 64)
    (h : unmarked marked frontier = .ok free) : (free.map Extent.len).sum < 2 ^ 64 := by
  unfold unmarked at h
  obtain ⟨⟨free', cursor⟩, hgaps, h⟩ := bind_eq_ok.mp h
  obtain rfl := Except.ok.inj h
  obtain ⟨hsum, hlast⟩ := gaps_sum (by decide) hgaps
  have hstart : 0 < DATA_START := by decide
  split
  · simp only [List.map_append, List.map_cons, List.map_nil, List.sum_append, List.sum_cons,
      List.sum_nil]
    omega
  · omega

/-- A collection is clean exactly when nothing it reads whole comes to a short
block, and no extent it marks ends past the last address. -/
theorem clean_gc [LawfulDevice D] {fs : AsyncEofs D} (hgeo : fs.Geometry) (hfit : fs.RootsFit) :
    Clean ((gc : Engine D GcReport) fs).1 ↔ (∀ dir, fs.GcReads dir → ¬ fs.WholeShort dir) ∧
      ∀ marked, fs.markAll = .ok marked → ∀ e ∈ marked, e.addr + e.len < 2 ^ 64 := by
  rw [← clean_markAll hgeo hfit]
  cases hmark : fs.markAll with
  | error e =>
    have hgc : (gc : Engine D GcReport) fs = (.error e, fs) :=
      Action.bind_of_error (by rw [Action.query_apply, hmark])
    rw [hgc]
    exact ⟨fun h => ⟨clean_error_iff.mp h, fun _ h => by cases h⟩,
      fun h => clean_error_iff.mp h.1⟩
  | ok marked =>
    simp only [clean_ok, true_and, Except.ok.injEq, forall_eq']
    rw [← @clean_unmarked marked fs.alloc.frontier]
    have hquery : (Action.query markAll : Engine D _) fs = (.ok marked, fs) := by
      rw [Action.query_apply, hmark]
    cases hfree : unmarked marked fs.alloc.frontier with
    | error e =>
      have hgc : (gc : Engine D GcReport) fs = (.error e, fs) := by
        rw [gc, Action.bind_of_ok hquery]
        exact Action.bind_of_error (by rw [Action.query_apply, hfree])
      rw [hgc]
      exact clean_error_iff
    | ok free =>
      have hfrontier : fs.alloc.frontier < 2 ^ 64 :=
        Nat.lt_of_le_of_lt hgeo.frontier_le hgeo.size_lt
      have hsum := unmarked_sum hfrontier hfree
      have htotal : ((free.map Extent.len).foldlM (checkedAdd 64) 0 : Outcome FsError Nat) =
          .ok (0 + (free.map Extent.len).sum) := foldlM_checkedAdd (by omega)
      have hunmarked : (Action.query fun fs : AsyncEofs D =>
          unmarked marked fs.alloc.frontier : Engine D _) fs = (.ok free, fs) := by
        rw [Action.query_apply, hfree]
      have hgc : ((gc : Engine D GcReport) fs).1 =
          .ok ⟨0 + (free.map Extent.len).sum, free.length⟩ := by
        rw [gc, Action.bind_of_ok hquery, Action.bind_of_ok hunmarked, htotal]
        rfl
      rw [hgc]
      exact iff_of_true (clean_ok _) (clean_ok _)

end AsyncEofs

end Eo9.Eofs
