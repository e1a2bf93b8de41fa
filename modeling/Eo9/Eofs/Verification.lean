import Eo9.Eofs.Marking

/-!
# The verification walk

`verify` checks every block of an object, and its size, before it reads the
object whole, so it never comes to a short block. What is left are its 64-bit
counters: the walk panics exactly when one of its totals does not fit. To say
so, the walk is compared with itself over counters that do not overflow.
-/

namespace Eo9.Eofs

open Eo9.Library Outcome

/-- Counters that fit in 64 bits. -/
structure VerifyReport.Fits (r : VerifyReport) : Prop where
  blocks : r.blocks < 2 ^ 64
  logicalBytes : r.logicalBytes < 2 ^ 64
  physicalBytes : r.physicalBytes < 2 ^ 64
  compressedBlocks : r.compressedBlocks < 2 ^ 64
  files : r.files < 2 ^ 64
  directories : r.directories < 2 ^ 64
  snapshots : r.snapshots < 2 ^ 64

theorem VerifyReport.fits_iff {r : VerifyReport} : r.Fits ↔ r.blocks < 2 ^ 64 ∧
    r.logicalBytes < 2 ^ 64 ∧ r.physicalBytes < 2 ^ 64 ∧ r.compressedBlocks < 2 ^ 64 ∧
    r.files < 2 ^ 64 ∧ r.directories < 2 ^ 64 ∧ r.snapshots < 2 ^ 64 :=
  ⟨fun ⟨h1, h2, h3, h4, h5, h6, h7⟩ => ⟨h1, h2, h3, h4, h5, h6, h7⟩,
    fun ⟨h1, h2, h3, h4, h5, h6, h7⟩ => ⟨h1, h2, h3, h4, h5, h6, h7⟩⟩

namespace AsyncEofs

/-- Addition that does not overflow. -/
def tally : Adder := fun a b => .ok (a + b)

/-- `m` does what `m'` does while the counters of `m'` fit, and panics when
they no longer do. -/
structure Tracks {α : Type} (m m' : Verify α) : Prop where
  beyond : ∀ r, ¬ r.Fits → ¬ (m' r).2.Fits
  same : ∀ r, (m' r).2.Fits → m r = m' r
  stops : ∀ r, r.Fits → ¬ (m' r).2.Fits → ¬ Clean (m r).1

namespace Tracks

variable {α β γ : Type}

theorem lift (o : Outcome FsError α) : Tracks (liftM o) (liftM o) where
  beyond _ h := h
  same _ _ := rfl
  stops _ h h' := absurd h h'

theorem pure (a : α) : Tracks (Pure.pure a) (Pure.pure a) where
  beyond _ h := h
  same _ _ := rfl
  stops _ h h' := absurd h h'

theorem bind {m m' : Verify α} {f f' : α → Verify β} (hm : Tracks m m')
    (hf : ∀ a, Tracks (f a) (f' a)) : Tracks (m >>= f) (m' >>= f') where
  beyond r hr := by
    have hmid := hm.beyond r hr
    rw [Action.bind_apply]
    rcases h : m' r with ⟨e | a, s⟩
    · rwa [h] at hmid
    · rw [h] at hmid
      exact (hf a).beyond s hmid
  same r hr := by
    rw [Action.bind_apply] at hr
    rcases h : m' r with ⟨e | a, s⟩
    · rw [h] at hr
      rw [Action.bind_of_error h, Action.bind_of_error ((hm.same r (by rwa [h])).trans h)]
    · rw [h] at hr
      have hs : s.Fits := by
        by_contra hnot
        exact (hf a).beyond s hnot hr
      rw [Action.bind_of_ok h, Action.bind_of_ok ((hm.same r (by rwa [h])).trans h)]
      exact (hf a).same s hr
  stops r hr hover := by
    rw [Action.bind_apply] at hover
    rcases h : m' r with ⟨e | a, s⟩
    · rw [h] at hover
      have hnot := hm.stops r hr (by rwa [h])
      rcases hrun : m r with ⟨e' | a', s'⟩
      · rw [Action.bind_of_error hrun]
        rw [hrun] at hnot
        exact fun hclean => hnot (clean_error_iff.mp hclean)
      · rw [hrun] at hnot
        exact absurd (clean_ok _) hnot
    · rw [h] at hover
      by_cases hs : s.Fits
      · rw [Action.bind_of_ok ((hm.same r (by rwa [h])).trans h)]
        exact (hf a).stops s hs hover
      · have hnot := hm.stops r hr (by rwa [h])
        rcases hrun : m r with ⟨e' | a', s'⟩
        · rw [Action.bind_of_error hrun]
          rw [hrun] at hnot
          exact fun hclean => hnot (clean_error_iff.mp hclean)
        · rw [hrun] at hnot
          exact absurd (clean_ok _) hnot

theorem ite {p : Prop} [Decidable p] {m m' n n' : Verify α} (hm : Tracks m m')
    (hn : Tracks n n') : Tracks (if p then m else n) (if p then m' else n') := by
  by_cases h : p
  · simpa only [if_pos h] using hm
  · simpa only [if_neg h] using hn

theorem foldlM {f f' : β → γ → Verify β} (hf : ∀ b c, Tracks (f b c) (f' b c)) (cs : List γ)
    (b : β) : Tracks (cs.foldlM f b) (cs.foldlM f' b) := by
  induction cs generalizing b with
  | nil => exact pure b
  | cons c cs ih => exact bind (hf b c) ih

theorem forM {f f' : γ → Verify Unit} (hf : ∀ c, Tracks (f c) (f' c)) (cs : List γ) :
    Tracks (cs.forM f) (cs.forM f') := by
  induction cs with
  | nil => exact pure ()
  | cons c cs ih => exact bind (hf c) fun _ => ih

/-- Where the unbounded counters end decides whether the code's walk is clean. -/
theorem clean_iff {m m' : Verify Unit} (h : Tracks m m') {r : VerifyReport} (hr : r.Fits)
    (hclean : Clean (m' r).1) : Clean (m r).1 ↔ (m' r).2.Fits := by
  by_cases hfits : (m' r).2.Fits
  · rw [h.same r hfits]
    exact iff_of_true hclean hfits
  · exact iff_of_false (h.stops r hr hfits) hfits

theorem count {get : VerifyReport → Nat} {set : Nat → VerifyReport → VerifyReport} {n : Nat}
    (hset : ∀ r v, r.Fits → ((set v r).Fits ↔ v < 2 ^ 64))
    (hover : ∀ r v, get r ≤ v → ¬ r.Fits → ¬ (set v r).Fits) :
    Tracks (AsyncEofs.count (checkedAdd 64) get set n) (AsyncEofs.count tally get set n) where
  beyond r hr := hover r _ (Nat.le_add_right _ _) hr
  same r hr := by
    have hr : (set (get r + n) r).Fits := hr
    have hfits : r.Fits := by
      by_contra hnot
      exact hover r _ (Nat.le_add_right _ _) hnot hr
    have hlt := (hset r (get r + n) hfits).mp hr
    simp only [AsyncEofs.count, checkedAdd_ok hlt, tally]
  stops r hr hnot := by
    have hnot : ¬ (set (get r + n) r).Fits := hnot
    have hge : ¬ get r + n < 2 ^ 64 := fun hlt => hnot ((hset r _ hr).mpr hlt)
    rw [AsyncEofs.count, checkedAdd, if_neg hge]
    exact not_clean_panic _

end Tracks

variable {D : Type} [BlockDevice D] [Primitives]

section Tracking

variable {fs : AsyncEofs D}

theorem tracks_verifyBlock (ptr : BlockPtr) :
    Tracks (fs.verifyBlock (checkedAdd 64) ptr) (fs.verifyBlock tally ptr) := by
  refine .bind (.lift _) fun logical => ?_
  refine .bind (.count ?_ ?_) fun _ => .bind (.count ?_ ?_) fun _ =>
    .bind (.count ?_ ?_) fun _ => .bind (.ite (.count ?_ ?_) (.pure _)) fun _ => .pure logical
  all_goals
    intro r v
    simp only [VerifyReport.fits_iff]
    omega

theorem tracks_verifyPtr (objSize leafCount level : Nat) (ptr : BlockPtr) (firstLeaf : Nat) :
    Tracks (fs.verifyPtr (checkedAdd 64) objSize leafCount level ptr firstLeaf)
      (fs.verifyPtr tally objSize leafCount level ptr firstLeaf) := by
  induction level generalizing ptr firstLeaf with
  | zero =>
    refine .bind (tracks_verifyBlock ptr) fun _ => .ite (.lift _) ?_
    exact .bind (.lift _) fun left => .ite (.lift _) (.pure _)
  | succ level ih =>
    refine .bind (tracks_verifyBlock ptr) fun logical => .ite (.lift _) ?_
    refine .foldlM (fun covered chunk => ?_) _ _
    exact .bind (.lift _) fun child => .bind (.lift _) fun first =>
      .bind (ih child first) fun more => .lift _

theorem tracks_verifyObject (obj : ObjRef) :
    Tracks (fs.verifyObject (checkedAdd 64) obj) (fs.verifyObject tally obj) :=
  .bind (.lift _) fun _ => .ite (.pure _) <|
    .bind (tracks_verifyPtr _ _ _ _ _) fun _ => .ite (.lift _) (.pure _)

theorem tracks_verifyEntry (pending : List ObjRef) (entry : DirEntry) :
    Tracks (fs.verifyEntry (checkedAdd 64) pending entry) (fs.verifyEntry tally pending entry) := by
  refine .bind (.lift _) fun _ => ?_
  cases entry.kind with
  | file =>
    refine .bind (.count ?_ ?_) fun _ => .bind (tracks_verifyObject entry.obj) fun _ => .pure _
    all_goals
      intro r v
      simp only [VerifyReport.fits_iff]
      omega
  | directory => exact .pure _

theorem tracks_verifyLoop (fuel : Nat) (pending : List ObjRef) (visited : List Nat) :
    Tracks (fs.verifyLoop (checkedAdd 64) fuel pending visited)
      (fs.verifyLoop tally fuel pending visited) := by
  induction fuel generalizing pending visited with
  | zero =>
    cases pending with
    | nil => exact .pure _
    | cons dir pending => exact .lift _
  | succ fuel ih =>
    cases pending with
    | nil => exact .pure _
    | cons dir pending =>
      refine .bind (.lift _) fun visited' => .bind (.count ?_ ?_) fun _ =>
        .bind (tracks_verifyObject dir) fun _ => .bind (.lift _) fun entries =>
        .bind (.foldlM tracks_verifyEntry _ _) fun pending' => ih pending' visited'
      all_goals
        intro r v
        simp only [VerifyReport.fits_iff]
        omega

/-- The code's walk tracks the unbounded one. -/
theorem tracks_verifyWalk : Tracks (fs.verifyWalk (checkedAdd 64)) (fs.verifyWalk tally) := by
  refine .bind (tracks_verifyLoop _ _ _) fun _ => .bind (tracks_verifyObject _) fun _ =>
    .bind (.lift _) fun entries => .forM (fun entry => ?_) entries
  refine .bind (.count ?_ ?_) fun _ => tracks_verifyLoop _ _ _
  all_goals
    intro r v
    simp only [VerifyReport.fits_iff]
    omega

end Tracking

def Typed (e : Stop FsError) (_ : VerifyReport) : Prop := ∃ x, e = .err x

omit [Primitives] [BlockDevice D] in
/-- A query that cannot panic stops with a typed error, if it stops. -/
theorem wp_lift {α : Type} {o : Outcome FsError α} {r : VerifyReport} (hclean : Clean o) :
    Action.wp (liftM o : Verify α) r (fun a _ => o = .ok a) Typed :=
  Action.wp_liftM (fun _ h => h) fun e he => by
    rw [he] at hclean
    exact hclean.isErr

omit [Primitives] [BlockDevice D] in
theorem wp_corrupt {α : Type} {what : String} {r : VerifyReport}
    {post : α → VerifyReport → Prop} :
    Action.wp (liftM (corrupt what : Outcome FsError α) : Verify α) r post Typed := ⟨_, rfl⟩

omit [Primitives] [BlockDevice D] in
theorem wp_count {get : VerifyReport → Nat} {set : Nat → VerifyReport → VerifyReport} {n : Nat}
    {r : VerifyReport} : Action.wp (count tally get set n) r (fun _ _ => True) Typed := trivial

/-- The data blocks `leaves`, numbered from `first` on, are readable and have
the sizes that an object of `objSize` bytes implies. -/
def LeavesOk (fs : AsyncEofs D) (objSize first : Nat) (leaves : List BlockPtr) : Prop :=
  ∀ i leaf, leaves[i]? = some leaf → (∃ b, fs.readBlock leaf = .ok b) ∧
    leaf.lsize = min fs.blockSize (objSize - (first + i) * fs.blockSize)

/-- The data blocks of an object can be collected and read. -/
def Verified (fs : AsyncEofs D) (obj : ObjRef) : Prop :=
  ∃ leaves, fs.collectLeaves obj = .ok leaves ∧ fs.LeavesOk obj.size 0 leaves

/-- A directory that is verified with everything below it. -/
inductive SoundTree (fs : AsyncEofs D) : ObjRef → Prop
  | dir {obj : ObjRef} {entries : List DirEntry} (verified : fs.Verified obj)
      (listed : fs.readDir obj = .ok entries)
      (files : ∀ entry ∈ entries, entry.kind = .file → fs.Verified entry.obj)
      (dirs : ∀ entry ∈ entries, entry.kind = .directory → SoundTree fs entry.obj) :
      SoundTree fs obj

section Walk

variable {fs : AsyncEofs D}

theorem wp_verifyBlock (ptr : BlockPtr) (r : VerifyReport) :
    Action.wp (fs.verifyBlock tally ptr) r (fun b _ => fs.readBlock ptr = .ok b) Typed := by
  refine Action.wp_bind (wp_lift (clean_readBlock fs ptr)) (fun b s hb => ?_)
    (fun _ _ => id)
  refine Action.wp_bind wp_count (fun _ _ _ => ?_) (fun _ _ => id)
  refine Action.wp_bind wp_count (fun _ _ _ => ?_) (fun _ _ => id)
  refine Action.wp_bind wp_count (fun _ _ _ => ?_) (fun _ _ => id)
  refine Action.wp_bind (q := fun _ _ => True) ?_ (fun _ _ _ => Action.wp_pure hb) (fun _ _ => id)
  unfold countCompressed
  split
  · exact wp_count
  · exact trivial

theorem LeavesOk.append {objSize first : Nat} {leaves more : List BlockPtr}
    (h : fs.LeavesOk objSize first leaves) (h' : fs.LeavesOk objSize (first + leaves.length) more) :
    fs.LeavesOk objSize first (leaves ++ more) := by
  intro i leaf hleaf
  rcases Nat.lt_or_ge i leaves.length with hlt | hge
  · rw [List.getElem?_append_left hlt] at hleaf
    exact h i leaf hleaf
  · rw [List.getElem?_append_right hge] at hleaf
    have := h' (i - leaves.length) leaf hleaf
    rwa [Nat.add_assoc, Nat.add_sub_cancel' hge] at this

/-- A verified subtree has the data blocks that the readers collect from it,
each of the right size. -/
theorem wp_verifyPtr {objSize leafCount : Nat} (hbs : 0 < fs.blockSize)
    (hcount : leafCount = divCeil objSize fs.blockSize) (hword : leafCount < 2 ^ 64)
    (level : Nat) (ptr : BlockPtr) (firstLeaf : Nat) (hfirst : firstLeaf ≤ leafCount)
    (r : VerifyReport) :
    Action.wp (fs.verifyPtr tally objSize leafCount level ptr firstLeaf) r
      (fun n _ => firstLeaf + n ≤ leafCount ∧ ∃ leaves, leaves.length = n ∧
        (∀ out : List BlockPtr, out.length = firstLeaf →
          fs.collectLevel leafCount level ptr out = .ok (out ++ leaves)) ∧
        fs.LeavesOk objSize firstLeaf leaves) Typed := by
  induction level generalizing ptr firstLeaf r with
  | zero =>
    refine Action.wp_bind (wp_verifyBlock ptr r) (fun b s hb => ?_) (fun _ _ => id)
    by_cases hfull : leafCount ≤ firstLeaf
    · rw [if_pos hfull]
      exact wp_corrupt
    · rw [if_neg hfull]
      have hlt : firstLeaf * fs.blockSize < objSize := by
        rw [← lt_divCeil_iff hbs, ← hcount]
        omega
      refine Action.wp_bind (wp_lift (clean_checkedSub.mpr (Nat.le_of_lt hlt)))
        (fun left s hleft => ?_) (fun _ _ => id)
      rw [checkedSub_ok (Nat.le_of_lt hlt)] at hleft
      obtain rfl := Except.ok.inj hleft
      by_cases hsize : ptr.lsize ≠ min fs.blockSize (objSize - firstLeaf * fs.blockSize)
      · rw [if_pos hsize]
        exact wp_corrupt
      · rw [if_neg hsize]
        refine Action.wp_pure ⟨by omega, [ptr], rfl, fun out hout => ?_, fun i leaf hleaf => ?_⟩
        · rw [collectLevel, if_neg (by omega)]
        · have hi : i = 0 ∧ ptr = leaf := by
            cases i with
            | zero => exact ⟨rfl, Option.some.inj hleaf⟩
            | succ i => simp at hleaf
          obtain ⟨rfl, rfl⟩ := hi
          exact ⟨⟨b, hb⟩, not_not.mp hsize⟩
  | succ level ih =>
    refine Action.wp_bind (wp_verifyBlock ptr r) (fun b s hb => ?_) (fun _ _ => id)
    by_cases hblock : b = [] ∨ b.length % BLOCK_PTR_SIZE ≠ 0
    · rw [if_pos hblock]
      exact wp_corrupt
    · rw [if_neg hblock]
      have hdvd : b.length % BLOCK_PTR_SIZE = 0 := by
        by_contra hne
        exact hblock (.inr hne)
      -- After some children: their data blocks, in order.
      refine Action.wp_mono (Action.wp_foldlM (p := fun done n _ =>
        firstLeaf + n ≤ leafCount ∧ ∃ leaves, leaves.length = n ∧
          (∀ out : List BlockPtr, out.length = firstLeaf →
            done.foldlM (fun out chunk => do
              let child ← BlockPtr.readFrom chunk
              fs.collectLevel leafCount level child out) out = .ok (out ++ leaves)) ∧
          fs.LeavesOk objSize firstLeaf leaves)
        ⟨by omega, [], rfl, by simp [Pure.pure, Except.pure], by intro i leaf h; simp at h⟩ ?_)
        ?_ (fun _ _ => id)
      · rintro done chunk rest n s hsplit ⟨hle, leaves, hlen, hcollect, hok⟩
        have hmem : chunk ∈ chunks BLOCK_PTR_SIZE b := by simp [hsplit]
        have hsize := length_mem_chunks_of_dvd (by decide) hdvd hmem
        refine Action.wp_bind (wp_lift (BlockPtr.clean_readFrom hsize))
          (fun child s hchild => ?_) (fun _ _ => id)
        have hadd : (checkedAdd 64 firstLeaf n : Outcome FsError Nat) = .ok (firstLeaf + n) :=
          checkedAdd_ok (by omega)
        refine Action.wp_bind (wp_lift (clean_checkedAdd.mpr (by omega)))
          (fun first s hfirst => ?_) (fun _ _ => id)
        obtain rfl := Except.ok.inj (hadd.symm.trans hfirst)
        refine Action.wp_bind (ih child (firstLeaf + n) hle s) ?_ (fun _ _ => id)
        rintro more s ⟨hmore, leaves', hlen', hcollect', hok'⟩
        have hadd' : (checkedAdd 64 n more : Outcome FsError Nat) = .ok (n + more) :=
          checkedAdd_ok (by omega)
        rw [hadd']
        refine ⟨by omega, leaves ++ leaves', by rw [List.length_append]; omega, ?_, ?_⟩
        · intro out hout
          rw [List.foldlM_append, hcollect out hout, ok_bind, List.foldlM_cons, hchild, ok_bind,
            hcollect' (out ++ leaves) (by rw [List.length_append]; omega), ok_bind,
            List.append_assoc]
          rfl
        · rw [← hlen] at hok'
          exact hok.append hok'
      · rintro n s ⟨hle, leaves, hlen, hcollect, hok⟩
        refine ⟨hle, leaves, hlen, fun out hout => ?_, hok⟩
        rw [collectLevel, hb, ok_bind, if_neg hblock]
        exact hcollect out hout

variable [LawfulDevice D] (hgeo : fs.Geometry)

include hgeo

/-- A verified object is read whole without coming to a short block. -/
theorem Verified.not_wholeShort {obj : ObjRef} (h : fs.Verified obj) : ¬ fs.WholeShort obj := by
  rintro ⟨-, hlt, -, leaves', hleaves', b, -, -, -, leaf, logical, hleaf, hblock, hshort⟩
  obtain ⟨leaves, hleaves, hok⟩ := h
  obtain rfl := Except.ok.inj (hleaves.symm.trans hleaves')
  obtain ⟨-, hsize⟩ := hok b leaf hleaf
  rw [(readBlock_length hgeo hblock).2, hsize] at hshort
  simp only [Nat.zero_add, Nat.sub_zero, Nat.min_self] at hshort
  omega

theorem wp_verifyObject (obj : ObjRef) (r : VerifyReport) :
    Action.wp (fs.verifyObject tally obj) r (fun _ _ => fs.Verified obj) Typed := by
  refine Action.wp_bind (wp_lift (clean_checkObject hgeo obj)) (fun n s hn => ?_)
    (fun _ _ => id)
  rcases checkObject_ok hgeo hn with ⟨hzero, -, rfl⟩ | ⟨hwalk, hcount, hpos⟩
  · rw [if_pos rfl]
    refine Action.wp_pure ⟨[], ?_, by simp [LeavesOk]⟩
    rw [collectLeaves, hn, ok_bind, if_pos rfl]
  · rw [if_neg (by omega)]
    have hword : n < 2 ^ 64 := by
      rw [hcount]
      exact Nat.lt_of_le_of_lt (hwalk.leaves_le.trans fs.maxLeaves_le_size) hgeo.size_lt
    refine Action.wp_bind (wp_verifyPtr hgeo.block_pos hcount hword obj.level obj.root 0
      (Nat.zero_le _) s) ?_ (fun _ _ => id)
    rintro m s ⟨-, leaves, hlen, hcollect, hok⟩
    by_cases hm : m ≠ n
    · rw [if_pos hm]
      exact wp_corrupt
    · rw [if_neg hm]
      refine Action.wp_pure ⟨leaves, ?_, hok⟩
      rw [collectLeaves, hn, ok_bind, if_neg (by omega), hcollect [] rfl, ok_bind,
        List.nil_append, if_neg (by omega)]

theorem wp_verifyEntry (pending : List ObjRef) (entry : DirEntry) (r : VerifyReport) :
    Action.wp (fs.verifyEntry tally pending entry) r
      (fun pending' _ => pending' = (subdirs [entry]).reverse ++ pending ∧
        (entry.kind = .file → fs.Verified entry.obj)) Typed := by
  refine Action.wp_bind (wp_lift (clean_checkName entry.name)) (fun _ s _ => ?_)
    (fun _ _ => id)
  cases hkind : entry.kind with
  | file =>
    refine Action.wp_bind wp_count (fun _ s _ => ?_) (fun _ _ => id)
    refine Action.wp_bind (wp_verifyObject hgeo entry.obj s) (fun _ s hobj => ?_)
      (fun _ _ => id)
    exact Action.wp_pure ⟨by simp [subdirs, hkind], fun _ => hobj⟩
  | directory => exact Action.wp_pure ⟨by simp [subdirs, hkind], fun h => by cases h⟩

/-- A walk that ends has verified every tree of its worklist. -/
theorem wp_verifyLoop {fuel : Nat} {pending : List ObjRef} {visited : List Nat}
    (hbudget : fs.WorkBudget fuel pending visited) (r : VerifyReport) :
    Action.wp (fs.verifyLoop tally fuel pending visited) r
      (fun _ _ => ∀ dir ∈ pending, fs.SoundTree dir) Typed := by
  induction fuel generalizing pending visited r with
  | zero =>
    have hempty : pending = [] := by
      have := hbudget.fuel_le
      exact List.length_eq_zero_iff.mp (by omega)
    subst hempty
    exact fun _ h => absurd h List.not_mem_nil
  | succ fuel ih =>
    cases pending with
    | nil => exact fun _ h => absurd h List.not_mem_nil
    | cons dir pending =>
      refine Action.wp_bind (wp_lift (clean_visit visited dir))
        (fun visited' s hvisit => ?_) (fun _ _ => id)
      refine Action.wp_bind wp_count (fun _ s _ => ?_) (fun _ _ => id)
      refine Action.wp_bind (wp_verifyObject hgeo dir s) (fun _ s hdir => ?_) (fun _ _ => id)
      have hfits := hbudget.fits dir List.mem_cons_self
      refine Action.wp_bind
        (wp_lift ((clean_readDir hgeo hfits.size).mpr (hdir.not_wholeShort hgeo)))
        (fun entries s hlisted => ?_) (fun _ _ => id)
      refine Action.wp_bind (Action.wp_foldlM
        (p := fun done pending' _ => pending' = (subdirs done).reverse ++ pending ∧
          ∀ entry ∈ done, entry.kind = .file → fs.Verified entry.obj)
        ⟨rfl, fun _ h => absurd h List.not_mem_nil⟩ ?_) ?_ (fun _ _ => id)
      · rintro done entry rest _ s - ⟨rfl, hdone⟩
        refine Action.wp_mono (wp_verifyEntry hgeo _ entry s) ?_ (fun _ _ => id)
        rintro _ _ ⟨rfl, hentry⟩
        refine ⟨by simp [subdirs, List.filter_append], fun other hother => ?_⟩
        rcases List.mem_append.mp hother with hbefore | hnow
        · exact hdone other hbefore
        · exact List.mem_singleton.mp hnow ▸ hentry
      · rintro _ s ⟨rfl, hfiles⟩
        refine Action.wp_mono (ih (hbudget.step hgeo hvisit hlisted) s) ?_ (fun _ _ => id)
        intro _ _ hrest
        refine List.forall_mem_cons.mpr
          ⟨.dir hdir hlisted hfiles fun entry hentry hkind => ?_, fun other hother => ?_⟩
        · refine hrest _ (List.mem_append_left _ (List.mem_reverse.mpr ?_))
          refine List.mem_map.mpr ⟨entry, List.mem_filter.mpr ⟨hentry, ?_⟩, rfl⟩
          exact decide_eq_true hkind
        · exact hrest other (List.mem_append_right _ hother)

/-- The trees and the table that a verification goes through. -/
structure SoundImage (fs : AsyncEofs D) : Prop where
  live : fs.SoundTree fs.liveRoot
  snapshots : ∃ entries, fs.readSnapshots fs.snapshots = .ok entries ∧
    ∀ entry ∈ entries, fs.SoundTree entry.root

theorem wp_verifyWalk (hfit : fs.RootsFit) (r : VerifyReport) :
    Action.wp (fs.verifyWalk tally) r (fun _ _ => fs.SoundImage) Typed := by
  refine Action.wp_bind (wp_verifyLoop hgeo (.start hfit.liveRoot) r) (fun _ s hlive => ?_)
    (fun _ _ => id)
  refine Action.wp_bind (wp_verifyObject hgeo fs.snapshots s) (fun _ s htable => ?_)
    (fun _ _ => id)
  refine Action.wp_bind
    (wp_lift ((clean_readSnapshots hgeo hfit.snapshots.size).mpr (htable.not_wholeShort hgeo)))
    (fun entries s hentries => ?_) (fun _ _ => id)
  have hlive := hlive _ (List.mem_singleton_self _)
  refine Action.wp_mono (Action.wp_forM_all fun entry hmem s => ?_)
    (fun _ _ htrees => ⟨hlive, entries, hentries, htrees⟩) (fun _ _ => id)
  refine Action.wp_bind wp_count (fun _ s _ => ?_) (fun _ _ => id)
  refine Action.wp_mono
    (wp_verifyLoop hgeo (.start (readSnapshots_fits hentries entry hmem).root) s) ?_
    (fun _ _ => id)
  exact fun _ _ htree => htree _ (List.mem_singleton_self _)

end Walk

/-- The counters a walk leaves behind. -/
def totalsOf (walk : Verify Unit) : VerifyReport := (walk VerifyReport.zero).2

/-- The totals of the verification walk, over counters that do not overflow. -/
def verifyTotals (fs : AsyncEofs D) : VerifyReport := totalsOf (fs.verifyWalk tally)

omit [Primitives] [BlockDevice D] in
theorem clean_reportOf (walk : Verify Unit) :
    Clean (reportOf walk) ↔ Clean (walk VerifyReport.zero).1 := by
  unfold reportOf
  split
  · next h => exact iff_of_true (clean_ok _) (by rw [h]; exact clean_ok _)
  · next h =>
    rw [h]
    exact clean_error_iff

omit [Primitives] [BlockDevice D] in
theorem clean_of_wp {walk : Verify Unit} {r : VerifyReport} {post : Unit → VerifyReport → Prop}
    (h : Action.wp walk r post Typed) : Clean (walk r).1 := by
  unfold Action.wp at h
  split at h
  · next hrun => rw [hrun]; exact clean_ok _
  · next hrun =>
    obtain ⟨x, rfl⟩ := h
    rw [hrun]
    exact clean_err x

/-- Verification is clean exactly when its totals fit in its counters. -/
theorem clean_verify [LawfulDevice D] {fs : AsyncEofs D} (hgeo : fs.Geometry)
    (hfit : fs.RootsFit) : Clean fs.verify ↔ fs.verifyTotals.Fits := by
  have hzero : VerifyReport.zero.Fits := by constructor <;> decide
  rw [verify, clean_reportOf, verifyTotals, totalsOf]
  exact tracks_verifyWalk.clean_iff hzero (clean_of_wp (wp_verifyWalk hgeo hfit _))

end AsyncEofs

end Eo9.Eofs
