import Eo9.Eofs.Objects

/-!
# Reads that run into a short data block

`readObjectRange` takes as many bytes from a data block as the block has, and
does not ask for as many as the block's place in the object implies. On a
block that is too short it subtracts past zero or stops advancing. This module
says exactly which reads do, and that every other read ends in bytes or in a
typed error.
-/

namespace Eo9.Eofs

open Eo9.Library Outcome

namespace AsyncEofs

variable {D : Type} [BlockDevice D] [Primitives]

/-- Data block `b` is read, and reaches to the end of the block or of the
range that stops at `stop`. -/
def ReadsFull (fs : AsyncEofs D) (leaves : List BlockPtr) (stop b : Nat) : Prop :=
  ∃ leaf logical, leaves[b]? = some leaf ∧ fs.readBlock leaf = .ok logical ∧
    min fs.blockSize (stop - b * fs.blockSize) ≤ logical.length

/-- Data block `b` is read, and ends before. -/
def ReadsShort (fs : AsyncEofs D) (leaves : List BlockPtr) (stop b : Nat) : Prop :=
  ∃ leaf logical, leaves[b]? = some leaf ∧ fs.readBlock leaf = .ok logical ∧
    logical.length < min fs.blockSize (stop - b * fs.blockSize)

/-- The first block of a range that is not read in full is a short one. -/
def ShortFrom (fs : AsyncEofs D) (leaves : List BlockPtr) (start stop : Nat) : Prop :=
  ∃ b, start / fs.blockSize ≤ b ∧ b * fs.blockSize < stop ∧
    (∀ b', start / fs.blockSize ≤ b' → b' < b → fs.ReadsFull leaves stop b') ∧
    fs.ReadsShort leaves stop b

/-- A read of an object that comes to a short data block. -/
def ShortRead (fs : AsyncEofs D) (obj : ObjRef) (offset len : Nat) : Prop :=
  offset < obj.size ∧ 0 < len ∧ ∃ leaves, fs.collectLeaves obj = .ok leaves ∧
    fs.ShortFrom leaves offset (offset + min len (obj.size - offset))

/-- A metadata object that comes to a short data block when it is read whole. -/
def WholeShort (fs : AsyncEofs D) (obj : ObjRef) : Prop :=
  obj.size ≤ MAX_META_OBJECT_SIZE ∧ fs.ShortRead obj 0 obj.size

section Loop

variable {fs : AsyncEofs D} {leaves : List BlockPtr} {offset want : Nat}

omit [Primitives] in
/-- The position `within` block `b`. -/
theorem position_split {bs b within pos : Nat} (hpos : pos = b * bs + within)
    (hlt : within < bs) : pos / bs = b ∧ pos % bs = within := by
  have hbs : 0 < bs := by omega
  subst hpos
  constructor
  · rw [Nat.add_comm, Nat.add_mul_div_right _ _ hbs, Nat.div_eq_of_lt hlt, Nat.zero_add]
  · rw [Nat.add_comm, Nat.add_mul_mod_self_right, Nat.mod_eq_of_lt hlt]

/-- One round of the loop, on a block that is read. -/
theorem readLoop_succ {fuel : Nat} {buf logical : List UInt8} {leaf : BlockPtr}
    (hbuf : buf.length < want) (hword : offset + want < 2 ^ 64)
    (hleaf : leaves[(offset + buf.length) / fs.blockSize]? = some leaf)
    (hblock : fs.readBlock leaf = .ok logical)
    (hwithin : (offset + buf.length) % fs.blockSize ≤ logical.length) :
    fs.readLoop leaves offset want (fuel + 1) buf =
      fs.readLoop leaves offset want fuel (buf ++ sub logical
        ((offset + buf.length) % fs.blockSize)
        (min (want - buf.length) (logical.length - (offset + buf.length) % fs.blockSize))) := by
  have hadd : (checkedAdd 64 offset buf.length : Outcome FsError Nat) =
      .ok (offset + buf.length) := checkedAdd_ok (by omega)
  have helem : (elemAt leaves ((offset + buf.length) / fs.blockSize) : Outcome FsError BlockPtr) =
      .ok leaf := by simp [elemAt, hleaf]
  rw [readLoop, if_pos hbuf, hadd, ok_bind, helem, ok_bind, hblock, ok_bind,
    checkedSub_ok hwithin, ok_bind, rangeOf_ok (by omega) (by omega), ok_bind,
    Nat.add_sub_cancel_left]

/-- At the end of a short block the loop makes no progress. -/
theorem readLoop_stuck {fuel b : Nat} {buf logical : List UInt8} {leaf : BlockPtr}
    (hbuf : buf.length < want) (hword : offset + want < 2 ^ 64)
    (hleaf : leaves[b]? = some leaf) (hblock : fs.readBlock leaf = .ok logical)
    (hshort : logical.length < fs.blockSize)
    (hpos : offset + buf.length = b * fs.blockSize + logical.length) :
    fs.readLoop leaves offset want fuel buf = .error .diverge := by
  induction fuel with
  | zero => rfl
  | succ fuel ih =>
    obtain ⟨hdiv, hmod⟩ := position_split hpos hshort
    rw [readLoop_succ hbuf hword (by rw [hdiv, hleaf]) hblock (by rw [hmod]), hmod,
      Nat.sub_self, Nat.min_zero]
    simpa [sub] using ih

/-- A range read to the end has no short block left. -/
theorem not_shortFrom_last {start stop b : Nat} (hb : start / fs.blockSize = b)
    (hstop : stop ≤ (b + 1) * fs.blockSize) (hfull : ¬ fs.ReadsShort leaves stop b) :
    ¬ fs.ShortFrom leaves start stop := by
  rintro ⟨c, hstart, hc, -, hshort⟩
  rcases Nat.lt_or_ge b c with hlt | hge
  · have := Nat.mul_le_mul_right fs.blockSize hlt
    rw [Nat.succ_eq_add_one] at this
    omega
  · obtain rfl : c = b := by omega
    exact hfull hshort

/-- Past a full block, the range is the one that starts at the next block. -/
theorem shortFrom_next {start stop b : Nat} (hbs : 0 < fs.blockSize)
    (hb : start / fs.blockSize = b) (hfull : fs.ReadsFull leaves stop b)
    (hshort : ¬ fs.ReadsShort leaves stop b) :
    fs.ShortFrom leaves start stop ↔ fs.ShortFrom leaves ((b + 1) * fs.blockSize) stop := by
  unfold ShortFrom
  rw [hb, Nat.mul_div_cancel _ hbs]
  constructor
  · rintro ⟨c, hle, hc, hbefore, hends⟩
    have hne : c ≠ b := by
      rintro rfl
      exact hshort hends
    exact ⟨c, by omega, hc, fun b' h h' => hbefore b' (by omega) h', hends⟩
  · rintro ⟨c, hle, hc, hbefore, hends⟩
    refine ⟨c, by omega, hc, fun b' h h' => ?_, hends⟩
    rcases Nat.eq_or_lt_of_le h with rfl | hlt
    · exact hfull
    · exact hbefore b' hlt h'

variable [LawfulDevice D] (hgeo : fs.Geometry)

include hgeo

/-- The loop fails cleanly, or returns, unless it comes to a short block. -/
theorem clean_readLoop (hword : offset + want < 2 ^ 64)
    (hcover : ∀ pos, pos < offset + want → pos / fs.blockSize < leaves.length)
    {fuel : Nat} {buf : List UInt8} (hbuf : buf.length ≤ want)
    (hfuel : want < fuel + buf.length) :
    Clean (fs.readLoop leaves offset want fuel buf) ↔
      (buf.length < want →
        ¬ fs.ShortFrom leaves (offset + buf.length) (offset + want)) := by
  induction fuel generalizing buf with
  | zero => omega
  | succ fuel ih =>
    by_cases hdone : buf.length < want
    · simp only [hdone, true_implies]
      have hbs := hgeo.block_pos
      obtain ⟨pos, hpos⟩ : ∃ pos, pos = offset + buf.length := ⟨_, rfl⟩
      obtain ⟨b, hb⟩ : ∃ b, b = pos / fs.blockSize := ⟨_, rfl⟩
      obtain ⟨within, hwithin⟩ : ∃ within, within = pos % fs.blockSize := ⟨_, rfl⟩
      have hsplit : pos = b * fs.blockSize + within := by
        rw [hb, hwithin, Nat.mul_comm, Nat.div_add_mod]
      have hwlt : within < fs.blockSize := hwithin ▸ Nat.mod_lt _ hbs
      have hindex : b < leaves.length := by
        rw [hb]
        exact hcover pos (by omega)
      have hleaf : leaves[b]? = some leaves[b] := List.getElem?_eq_getElem hindex
      have hadd : (checkedAdd 64 offset buf.length : Outcome FsError Nat) = .ok pos := by
        rw [hpos]
        exact checkedAdd_ok (by omega)
      rw [← hpos]
      cases hblock : fs.readBlock leaves[b] with
      | error e =>
        -- An unreadable block ends the read, and no later block counts.
        have hclean := clean_readBlock fs leaves[b]
        rw [hblock] at hclean
        obtain ⟨x, rfl⟩ := hclean.isErr
        have hloop : fs.readLoop leaves offset want (fuel + 1) buf = .error (.err x) := by
          rw [readLoop, if_pos hdone, hadd, ok_bind, ← hb, elemAt_ok hindex, ok_bind,
            hblock, error_bind]
        rw [hloop]
        refine iff_of_true (clean_err x) ?_
        rintro ⟨c, hle, -, hbefore, hends⟩
        have hnot : ∀ {leaf logical}, leaves[b]? = some leaf →
            ¬ fs.readBlock leaf = .ok logical := by
          intro leaf logical hl hr
          rw [hleaf] at hl
          rw [← Option.some.inj hl, hblock] at hr
          cases hr
        rcases Nat.eq_or_lt_of_le hle with heq | hlt
        · rw [← heq, ← hb] at hends
          obtain ⟨leaf, logical, hl, hr, -⟩ := hends
          exact hnot hl hr
        · obtain ⟨leaf, logical, hl, hr, -⟩ := hbefore b (by omega) (by omega)
          exact hnot hl hr
      | ok logical =>
        have hlen : logical.length ≤ fs.blockSize := by
          obtain ⟨hptr, hlsize⟩ := readBlock_length hgeo hblock
          rw [hlsize]
          exact hptr.lsize_le
        by_cases hshort : logical.length <
            min fs.blockSize (offset + want - b * fs.blockSize)
        · -- A short block: the offset lies past its end, or the next round is stuck there.
          refine iff_of_false ?_ ?_
          · by_cases hpast : within ≤ logical.length
            · rw [readLoop_succ hdone hword (by rw [← hpos, ← hb, hleaf]) hblock
                (by rw [← hpos, ← hwithin]; exact hpast), ← hpos, ← hwithin,
                Nat.min_eq_right (by omega)]
              rw [readLoop_stuck ?_ hword hleaf hblock (by omega) ?_]
              · exact not_clean_diverge
              · rw [List.length_append, length_sub (by omega)]
                omega
              · rw [List.length_append, length_sub (by omega)]
                omega
            · have hsub : (checkedSub logical.length within : Outcome FsError Nat) =
                  Outcome.panic "attempt to subtract with overflow" := if_neg hpast
              rw [readLoop, if_pos hdone, hadd, ok_bind, ← hb, elemAt_ok hindex, ok_bind,
                hblock, ok_bind, ← hwithin, hsub]
              exact not_clean_panic _
          · refine not_not.mpr ⟨b, by omega, by omega, ?_, ?_⟩
            · intro b' h h'
              omega
            · exact ⟨_, _, hleaf, hblock, hshort⟩
        · have hfull : fs.ReadsFull leaves (offset + want) b :=
            ⟨_, _, hleaf, hblock, by omega⟩
          have hnot : ¬ fs.ReadsShort leaves (offset + want) b := by
            rintro ⟨leaf, logical', hl, hr, hlt⟩
            rw [hleaf] at hl
            rw [← Option.some.inj hl, hblock] at hr
            rw [← Except.ok.inj hr] at hlt
            exact hshort hlt
          have hpast : within < logical.length := by omega
          rw [readLoop_succ hdone hword (by rw [← hpos, ← hb, hleaf]) hblock
            (by rw [← hpos, ← hwithin]; omega), ← hpos, ← hwithin]
          have htake : (buf ++ sub logical within (min (want - buf.length)
              (logical.length - within))).length =
              buf.length + min (want - buf.length) (logical.length - within) := by
            rw [List.length_append, length_sub (by omega)]
          rw [ih (by rw [htake]; omega) (by rw [htake]; omega), htake]
          by_cases hlast : want - buf.length ≤ logical.length - within
          · rw [Nat.min_eq_left hlast]
            refine iff_of_true (fun h => absurd h (by omega)) ?_
            refine not_shortFrom_last hb.symm ?_ hnot
            rw [Nat.add_mul, Nat.one_mul]
            omega
          · rw [Nat.min_eq_right (by omega)]
            have hwhole : logical.length = fs.blockSize := by omega
            have hnext : offset + (buf.length + (logical.length - within)) =
                (b + 1) * fs.blockSize := by
              rw [Nat.add_mul, Nat.one_mul]
              omega
            rw [hnext, shortFrom_next hbs hb.symm hfull hnot]
            exact ⟨fun h => h (by omega), fun h _ => h⟩
    · rw [readLoop, if_neg hdone]
      exact iff_of_true (clean_ok buf) fun h => absurd h hdone

omit [Primitives] [LawfulDevice D] in
/-- A position inside an object lies in one of its data blocks. -/
theorem position_lt {obj : ObjRef} {pos : Nat} (h : pos < obj.size) :
    pos / fs.blockSize < divCeil obj.size fs.blockSize :=
  (lt_divCeil_iff hgeo.block_pos).mpr (Nat.lt_of_le_of_lt (Nat.div_mul_le_self _ _) h)

/-- Reading a range of an object fails cleanly, or returns, exactly when it
does not come to a short block. -/
theorem clean_readObjectRange {obj : ObjRef} (hsize : obj.size < 2 ^ 64) (offset len : Nat) :
    Clean (fs.readObjectRange obj offset len) ↔ ¬ fs.ShortRead obj offset len := by
  unfold readObjectRange
  by_cases hempty : obj.size ≤ offset ∨ len = 0
  · rw [if_pos hempty]
    refine iff_of_true (clean_ok _) ?_
    rintro ⟨h, h', -⟩
    omega
  · rw [if_neg hempty]
    simp only [clean_bind, clean_collectLeaves hgeo obj, true_and]
    have hread : ∀ leaves, fs.collectLeaves obj = .ok leaves →
        (Clean (fs.readLoop leaves offset (min len (obj.size - offset))
          (min len (obj.size - offset) + 1) []) ↔
        ¬ fs.ShortFrom leaves offset (offset + min len (obj.size - offset))) := by
      intro leaves hleaves
      obtain ⟨-, -, hcount⟩ := collectLeaves_eq_ok hgeo (by omega) hleaves
      rw [clean_readLoop hgeo (by omega) (fun pos hpos => ?_) (Nat.zero_le _) (by simp)]
      · simp only [List.length_nil, Nat.add_zero]
        exact ⟨fun h => h (by omega), fun h _ => h⟩
      · rw [hcount]
        exact position_lt hgeo (by omega)
    constructor
    · rintro h ⟨-, -, leaves, hleaves, hshort⟩
      exact (hread leaves hleaves).mp (h leaves hleaves) hshort
    · intro h leaves hleaves
      exact (hread leaves hleaves).mpr fun hshort =>
        h ⟨by omega, by omega, leaves, hleaves, hshort⟩

theorem clean_readObject {obj : ObjRef} (hsize : obj.size < 2 ^ 64) :
    Clean (fs.readObject obj) ↔ ¬ fs.WholeShort obj := by
  unfold readObject
  by_cases hbig : MAX_META_OBJECT_SIZE < obj.size
  · rw [if_pos hbig]
    exact iff_of_true (clean_fail _) fun h => Nat.not_le_of_lt hbig h.1
  · rw [if_neg hbig, clean_bind]
    simp only [clean_checkObject hgeo obj, true_and, clean_readObjectRange hgeo hsize]
    constructor
    · rintro h ⟨-, hshort⟩
      obtain ⟨leaves, hleaves, -⟩ := hshort.2.2
      obtain ⟨n, hn, -⟩ := bind_eq_ok.mp hleaves
      exact h n hn hshort
    · exact fun h _ _ hshort => h ⟨Nat.le_of_not_lt hbig, hshort⟩

theorem clean_readDir {dir : ObjRef} (hsize : dir.size < 2 ^ 64) :
    Clean (fs.readDir dir) ↔ ¬ fs.WholeShort dir := by
  rw [← clean_readObject hgeo hsize, readDir, clean_bind]
  exact ⟨And.left, fun h => ⟨h, fun bytes _ => clean_parseDir bytes⟩⟩

theorem clean_readSnapshots {table : ObjRef} (hsize : table.size < 2 ^ 64) :
    Clean (fs.readSnapshots table) ↔ ¬ fs.WholeShort table := by
  rw [← clean_readObject hgeo hsize, readSnapshots, clean_bind]
  exact ⟨And.left, fun h => ⟨h, fun bytes _ => clean_parseSnapshots bytes⟩⟩

end Loop

omit [Primitives] in
theorem clean_checkName (name : String) : Clean (checkName name) := by
  unfold checkName
  split
  · exact clean_fail _
  · exact clean_ok _

omit [Primitives] in
theorem clean_splitPath (path : String) : Clean (splitPath path) := by
  unfold splitPath
  induction (path.toList.splitOn '/').map String.ofList with
  | nil => exact clean_ok _
  | cons segment rest ih =>
    unfold checkSegments
    split
    · exact ih
    · refine clean_bind.mpr ⟨clean_checkName segment, fun _ _ => ?_⟩
      exact clean_bind.mpr ⟨ih, fun _ _ => clean_ok _⟩

/-- The directories that a walk from a node reads whole: those it leads
through. -/
def WalkReads (fs : AsyncEofs D) (kind : NodeKind) (obj : ObjRef) (segments : List String)
    (dir : ObjRef) : Prop :=
  ∃ done segment rest, segments = done ++ segment :: rest ∧
    fs.walk kind obj done = .ok (.directory, dir)

theorem readDir_fits {fs : AsyncEofs D} {dir : ObjRef} {entries : List DirEntry}
    (h : fs.readDir dir = .ok entries) : ∀ entry ∈ entries, entry.Fits := by
  obtain ⟨bytes, -, h⟩ := bind_eq_ok.mp h
  exact (parseDir_ok h).1

section Walks

variable {fs : AsyncEofs D} [LawfulDevice D] (hgeo : fs.Geometry)

omit [LawfulDevice D] in
theorem walkReads_cons {obj dir : ObjRef} {segment : String} {rest : List String} :
    fs.WalkReads .directory obj (segment :: rest) dir ↔ dir = obj ∨
      ∃ entries entry, fs.readDir obj = .ok entries ∧
        entries.find? (·.name = segment) = some entry ∧
        fs.WalkReads entry.kind entry.obj rest dir := by
  constructor
  · rintro ⟨done, segment', rest', hsplit, hwalk⟩
    cases done with
    | nil => exact .inl (Prod.mk.inj (Except.ok.inj hwalk)).2.symm
    | cons head done =>
      obtain ⟨rfl, rfl⟩ := List.cons.inj hsplit
      obtain ⟨entries, hentries, hwalk⟩ := bind_eq_ok.mp hwalk
      cases hfind : entries.find? (·.name = segment) with
      | none => simp [hfind, Outcome.fail] at hwalk
      | some entry =>
        rw [hfind] at hwalk
        exact .inr ⟨entries, entry, hentries, hfind, done, segment', rest', rfl, hwalk⟩
  · rintro (rfl | ⟨entries, entry, hentries, hfind, done, segment', rest', rfl, hwalk⟩)
    · exact ⟨[], segment, rest, rfl, rfl⟩
    · refine ⟨segment :: done, segment', rest', rfl, ?_⟩
      rw [walk, if_neg (by simp), hentries, ok_bind, hfind]
      exact hwalk

include hgeo

/-- A walk fails cleanly, or returns, exactly when no directory it leads
through comes to a short block. -/
theorem clean_walk {kind : NodeKind} {obj : ObjRef} (hsize : obj.size < 2 ^ 64)
    (segments : List String) : Clean (fs.walk kind obj segments) ↔
      ∀ dir, fs.WalkReads kind obj segments dir → ¬ fs.WholeShort dir := by
  induction segments generalizing kind obj with
  | nil =>
    refine iff_of_true (clean_ok _) ?_
    rintro dir ⟨done, segment, rest, hsplit, -⟩
    simp at hsplit
  | cons segment rest ih =>
    cases kind with
    | file =>
      refine iff_of_true (clean_fail _) ?_
      rintro dir ⟨done, segment', rest', hsplit, hwalk⟩
      cases done with
      | nil => cases hwalk
      | cons head done => cases hwalk
    | directory =>
      have hcons : fs.walk .directory obj (segment :: rest) = _ := if_neg (by simp)
      rw [hcons, clean_bind, clean_readDir hgeo hsize]
      simp only [walkReads_cons]
      constructor
      · rintro ⟨hdir, hrest⟩ dir (rfl | ⟨entries, entry, hentries, hfind, hreads⟩)
        · exact hdir
        · have hclean := hrest entries hentries
          rw [hfind] at hclean
          have hfits := readDir_fits hentries entry (List.mem_of_find?_eq_some hfind)
          exact (ih hfits.obj.size).mp hclean dir hreads
      · intro h
        refine ⟨h obj (.inl rfl), fun entries hentries => ?_⟩
        cases hfind : entries.find? (·.name = segment) with
        | none => exact clean_fail _
        | some entry =>
          have hfits := readDir_fits hentries entry (List.mem_of_find?_eq_some hfind)
          exact (ih hfits.obj.size).mpr fun dir hreads =>
            h dir (.inr ⟨entries, entry, hentries, hfind, hreads⟩)

omit [LawfulDevice D] hgeo in
/-- What a walk arrives at fits its fields. -/
theorem walk_fits {kind kind' : NodeKind} {obj obj' : ObjRef} {segments : List String}
    (hfits : obj.Fits) (h : fs.walk kind obj segments = .ok (kind', obj')) : obj'.Fits := by
  induction segments generalizing kind obj with
  | nil =>
    obtain ⟨rfl, rfl⟩ := Prod.mk.inj (Except.ok.inj h)
    exact hfits
  | cons segment rest ih =>
    unfold walk at h
    split at h
    · cases h
    · obtain ⟨entries, hentries, h⟩ := bind_eq_ok.mp h
      cases hfind : entries.find? (·.name = segment) with
      | none => simp [hfind, Outcome.fail] at h
      | some entry =>
        rw [hfind] at h
        exact ih (readDir_fits hentries entry (List.mem_of_find?_eq_some hfind)).obj h

end Walks

/-- The directories that `list` reads whole. -/
def ListReads (fs : AsyncEofs D) (root : ObjRef) (path : String) (dir : ObjRef) : Prop :=
  ∃ segments, splitPath path = .ok segments ∧
    (fs.WalkReads .directory root segments dir ∨
      fs.resolve root segments = .ok (.directory, dir))

/-- The directories that `stat` and `read` read whole. -/
def PathReads (fs : AsyncEofs D) (root : ObjRef) (path : String) (dir : ObjRef) : Prop :=
  ∃ segments, splitPath path = .ok segments ∧ fs.WalkReads .directory root segments dir

def LeadsToFile (fs : AsyncEofs D) (root : ObjRef) (path : String) (file : ObjRef) : Prop :=
  ∃ segments, splitPath path = .ok segments ∧ fs.resolve root segments = .ok (.file, file)

section Calls

variable {fs : AsyncEofs D} [LawfulDevice D] (hgeo : fs.Geometry) {root : ObjRef}
  (hroot : root.Fits)

include hgeo hroot

theorem clean_statAtRoot (path : String) : Clean (fs.statAtRoot root path) ↔
    ∀ dir, fs.PathReads root path dir → ¬ fs.WholeShort dir := by
  unfold statAtRoot resolve
  simp only [clean_bind, clean_splitPath, true_and, clean_ok, clean_walk hgeo hroot.size]
  constructor
  · rintro h dir ⟨segments, hsplit, hreads⟩
    exact (h segments hsplit).1 dir hreads
  · exact fun h segments hsplit => ⟨fun dir hreads => h dir ⟨segments, hsplit, hreads⟩,
      fun _ _ => trivial⟩

theorem clean_listAtRoot (path : String) : Clean (fs.listAtRoot root path) ↔
    ∀ dir, fs.ListReads root path dir → ¬ fs.WholeShort dir := by
  unfold listAtRoot resolve
  simp only [clean_bind, clean_splitPath, true_and, clean_walk hgeo hroot.size]
  constructor
  · rintro h dir ⟨segments, hsplit, hreads | harrives⟩
    · exact (h segments hsplit).1 dir hreads
    · have hlist := (h segments hsplit).2 _ harrives
      rw [if_neg (by simp), clean_bind] at hlist
      exact (clean_readDir hgeo (walk_fits hroot harrives).size).mp hlist.1
  · intro h segments hsplit
    refine ⟨fun dir hreads => h dir ⟨segments, hsplit, .inl hreads⟩, ?_⟩
    rintro ⟨kind, obj⟩ harrives
    by_cases hkind : kind ≠ .directory
    · rw [if_pos hkind]
      exact clean_fail _
    · obtain rfl := not_not.mp hkind
      rw [if_neg (by simp), clean_bind]
      refine ⟨?_, fun _ _ => clean_ok _⟩
      exact (clean_readDir hgeo (walk_fits hroot harrives).size).mpr
        (h obj ⟨segments, hsplit, .inr harrives⟩)

theorem clean_readAtRoot (path : String) (offset len : Nat) :
    Clean (fs.readAtRoot root path offset len) ↔
      (∀ dir, fs.PathReads root path dir → ¬ fs.WholeShort dir) ∧
      ∀ file, fs.LeadsToFile root path file → ¬ fs.ShortRead file offset len := by
  unfold readAtRoot resolve
  simp only [clean_bind, clean_splitPath, true_and, clean_walk hgeo hroot.size]
  constructor
  · intro h
    refine ⟨?_, ?_⟩
    · rintro dir ⟨segments, hsplit, hreads⟩
      exact (h segments hsplit).1 dir hreads
    · rintro file ⟨segments, hsplit, harrives⟩
      have hread := (h segments hsplit).2 _ harrives
      rw [if_neg (by simp)] at hread
      exact (clean_readObjectRange hgeo (walk_fits hroot harrives).size _ _).mp hread
  · rintro ⟨hdirs, hfiles⟩ segments hsplit
    refine ⟨fun dir hreads => hdirs dir ⟨segments, hsplit, hreads⟩, ?_⟩
    rintro ⟨kind, obj⟩ harrives
    by_cases hkind : kind ≠ .file
    · rw [if_pos hkind]
      exact clean_fail _
    · obtain rfl := not_not.mp hkind
      rw [if_neg (by simp)]
      exact (clean_readObjectRange hgeo (walk_fits hroot harrives).size _ _).mpr
        (hfiles obj ⟨segments, hsplit, harrives⟩)

end Calls

end AsyncEofs

end Eo9.Eofs
