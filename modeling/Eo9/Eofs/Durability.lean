import Eo9.Eofs.Soundness
import Eo9.Eofs.Versions

/-!
# Commits and remounts

What a mount finds after any updates and commits. A commit puts the next uberblock into a slot,
where it wins the election; nothing else writes to the slots, or to a block of the last commit.
So to lose the state in memory is to go back to where `rollback` does.
-/

namespace Eo9.Eofs

open Eo9.Library Outcome

namespace AsyncEofs

variable {D : Type} [BlockDevice D] [LawfulDevice D] [Primitives] {fs : AsyncEofs D}
  {obj : ObjRef} {bytes : List UInt8} {leaves inner : List BlockPtr}

omit [LawfulDevice D] [Primitives] in
/-- The slots are not free. -/
theorem Ready.slots (h : Ready fs) {i : ℕ} (hi : i < DATA_START) : ¬fs.alloc.Room i := by
  have hstart := h.tidy.start_le
  rintro (hfrontier | ⟨e, he, hle, -⟩)
  · omega
  · have hextent := (h.tidy.extents e he).1
    omega

omit [BlockDevice D] [LawfulDevice D] in
theorem treeRep_start_le {im : Image} {level : ℕ} {root : BlockPtr}
    (h : TreeRep im level root leaves inner) : ∀ p ∈ inner, DATA_START ≤ p.addr := by
  induction level generalizing root leaves inner with
  | zero =>
    obtain ⟨-, rfl⟩ := h
    exact nofun
  | succ level ih =>
    obtain ⟨roots, inner', hroot, hforest, rfl⟩ := h
    refine List.forall_mem_cons.mpr ⟨hroot.start_le, ?_⟩
    clear hroot
    induction hforest with
    | nil => exact nofun
    | cons _ head _ rest => exact List.forall_mem_append.mpr ⟨ih head, rest⟩

theorem Holds.start_le (h : Holds fs obj bytes leaves inner) :
    ∀ p ∈ leaves ++ inner, DATA_START ≤ p.addr := by
  intro p hp
  rcases List.mem_append.mp hp with hp | hp
  · obtain ⟨b, hb⟩ := List.getElem?_of_mem hp
    exact (h.stored b p hb).start_le
  · by_cases hne : bytes = []
    · rw [(h.empty hne).2] at hp
      cases hp
    · exact treeRep_start_le (h.tree hne).2 p hp

section Elections

variable {e e' : Election} {slot : List UInt8} {ub ub' : Uberblock} {dev dev' : D} {n : ℕ}

/-- Who has won is no older than who won before, nor than the slot. -/
theorem visit_le (h : e.visit slot = .ok e') (hn : ∀ b, e'.best = some b → b.txg ≤ n) :
    (∀ b, e.best = some b → b.txg ≤ n) ∧
      ∀ ub, Uberblock.classifySlot slot = .ok (.valid ub) → ub.txg ≤ n := by
  unfold Election.visit at h
  split at h
  all_goals grind

theorem visit_newer (hslot : Uberblock.classifySlot slot = .ok (.valid ub))
    (hlt : ∀ b, e.best = some b → b.txg < ub.txg) : e.visit slot = .ok { e with best := some ub } := by
  unfold Election.visit
  rw [hslot]
  grind

theorem visit_older {e₀ : Election} (h : e₀.visit slot = .ok e') (hbest : e.best = some ub)
    (hle : ∀ ub', Uberblock.classifySlot slot = .ok (.valid ub') → ub'.txg ≤ ub.txg) :
    ∃ e₁, e.visit slot = .ok e₁ ∧ e₁.best = some ub := by
  unfold Election.visit at h ⊢
  split at h
  all_goals grind

/-- The device mounts with this uberblock. -/
structure Elects (dev : D) (ub : Uberblock) : Prop where
  start_le : DATA_START ≤ BlockDevice.size dev
  mountable : ub.Mountable (BlockDevice.size dev)
  elected : ∃ election, elect dev = .ok election ∧ election.best = some ub

omit [LawfulDevice D] in
theorem mount_iff_elects : mount dev = .ok fs ↔ ∃ ub, Elects dev ub ∧ fs = ofUberblock dev ub := by
  rw [mount_eq_ok_iff]
  constructor
  · rintro ⟨hstart, election, ub, helect, hbest, hmountable, hfs⟩
    exact ⟨ub, ⟨hstart, hmountable, election, helect, hbest⟩, hfs⟩
  · rintro ⟨ub, ⟨hstart, hmountable, election, helect, hbest⟩, hfs⟩
    exact ⟨hstart, election, ub, helect, hbest, hmountable, hfs⟩

omit [Primitives] in
theorem slotBytes_congr {i : ℕ}
    (h : ∀ j < DATA_START, LawfulDevice.byte dev' j = LawfulDevice.byte dev j) (hi : i < 2) :
    slotBytes dev' i = slotBytes dev i := by
  have hend := (by decide : ∀ i < 2, slotOffset i + SLOT_SIZE ≤ DATA_START) i hi
  exact slice_congr fun j _ hj => h j (by omega)

theorem Elects.moved (h : Elects dev ub) (hsize : BlockDevice.size dev' = BlockDevice.size dev)
    (hslots : ∀ i < 2, slotBytes dev' i = slotBytes dev i) : Elects dev' ub := by
  obtain ⟨hstart, hmountable, election, helect, hbest⟩ := h
  refine ⟨hsize ▸ hstart, hsize ▸ hmountable, election, ?_, hbest⟩
  rw [elect_eq (hsize ▸ hstart), hslots 0 (by decide), hslots 1 (by decide),
    ← elect_eq hstart, helect]

/-- A newer uberblock that is written to either slot wins. -/
theorem Elects.next {i : ℕ} (h : Elects dev ub) (hsize : BlockDevice.size dev' = BlockDevice.size dev)
    (hmountable : ub'.Mountable (BlockDevice.size dev)) (hfits : ub'.Fits) (hlt : ub.txg < ub'.txg)
    (hi : i < 2) (hbyte : LawfulDevice.byte dev' =
      overwrite (LawfulDevice.byte dev) (slotOffset i) ub'.toSlotBytes) : Elects dev' ub' := by
  have hlen := ub'.length_toSlotBytes
  have hslot : slotBytes dev' i = ub'.toSlotBytes := by
    rw [slotBytes, hbyte, ← hlen]
    exact slice_overwrite ..
  have hother : slotBytes dev' (1 - i) = slotBytes dev (1 - i) := by
    have hwidth : SLOT_SIZE = 4096 := rfl
    rw [slotBytes, hbyte]
    apply slice_overwrite_of_apart
    rw [hlen, slotOffset, slotOffset, hwidth]
    omega
  obtain ⟨hstart, -, election, helect, hbest⟩ := h
  rw [elect_eq hstart] at helect
  obtain ⟨e₁, hfirst, hsecond⟩ := bind_eq_ok.mp helect
  obtain ⟨hfirstLe, hsecondLe⟩ := visit_le (n := ub.txg) hsecond fun b hb => by
    rw [hbest] at hb
    rw [Option.some.inj hb]
  have hclass := Uberblock.classifySlot_toSlotBytes hfits
  refine ⟨hsize ▸ hstart, hsize ▸ hmountable, ?_⟩
  rw [elect_eq (hsize ▸ hstart)]
  obtain rfl | rfl : i = 0 ∨ i = 1 := by omega
  · have hnone : ∀ b, (none : Option Uberblock) = some b → b.txg < ub'.txg := by
      intro b hb
      cases hb
    rw [hslot, visit_newer (e := ⟨none, none, false⟩) hclass hnone, ok_bind, hother]
    exact visit_older hsecond rfl fun b hb => (hsecondLe b hb).trans hlt.le
  · rw [hother, hfirst, ok_bind, hslot,
      visit_newer hclass fun b hb => (hfirstLe b hb).trans_lt hlt]
    exact ⟨_, rfl, rfl⟩

end Elections

open Action in
omit [Primitives] in
theorem wp_devFlush : wp devFlush fs
    (fun _ fs' => ∃ d', fs' = { fs with dev := d' } ∧
      BlockDevice.size d' = BlockDevice.size fs.dev ∧ LawfulDevice.byte d' = LawfulDevice.byte fs.dev)
    fun _ _ => True := by
  have hkept : BlockDevice.size (BlockDevice.flush fs.dev).2 = BlockDevice.size fs.dev ∧
      LawfulDevice.byte (BlockDevice.flush fs.dev).2 = LawfulDevice.byte fs.dev :=
    ⟨LawfulDevice.size_flush _, LawfulDevice.byte_flush _⟩
  cases hresult : devFlush fs with
  | mk result fs' =>
    obtain rfl := congrArg Prod.snd hresult
    cases result with
    | ok u => exact wp_of_ok hresult ⟨_, rfl, hkept⟩
    | error e => exact wp_of_error hresult trivial

open Action in
/-- A commit that returns has written the next uberblock, and nothing else. -/
theorem wp_commit (hdirty : fs.dirty = true) :
    wp commit fs
      (fun txg fs' => txg = fs.committedTxg + 1 ∧ txg < 2 ^ 64 ∧
        (∃ d', fs' = adopt txg { fs with dev := d' }) ∧
          BlockDevice.size fs'.dev = BlockDevice.size fs.dev ∧
            LawfulDevice.byte fs'.dev = overwrite (LawfulDevice.byte fs.dev) (slotOffset (txg % 2))
              fs.nextUberblock.toSlotBytes)
      fun _ _ => True := by
  rw [commit]
  apply wp_bind_of_ok (gets_apply _ _)
  rw [hdirty, if_neg Bool.true_eq_false.mp]
  apply wp_bind wp_devFlush ?_ fun _ _ => id
  rintro _ _ ⟨d₁, rfl, hsize₁, hbyte₁⟩
  refine wp_bind (q := fun txg fs' => txg = fs.committedTxg + 1 ∧ txg < 2 ^ 64 ∧
    fs' = { fs with dev := d₁ }) (wp_query (fun txg htxg => ?_) fun _ _ => ⟨⟩) ?_ fun _ _ => id
  · unfold checkedAdd at htxg
    split at htxg
    · next hlt =>
      cases htxg
      exact ⟨rfl, hlt, rfl⟩
    · cases htxg
  rintro _ _ ⟨rfl, hlt, rfl⟩
  apply wp_bind_of_ok (gets_apply _ _)
  apply wp_bind wp_devWrite ?_ fun _ _ _ => trivial
  rintro _ _ ⟨d₂, rfl, hsize₂, hbyte₂⟩
  apply wp_bind wp_devFlush ?_ fun _ _ => id
  rintro _ _ ⟨d₃, rfl, hsize₃, hbyte₃⟩
  apply wp_bind_of_ok (modify_apply _ _)
  refine wp_pure ⟨rfl, hlt, ⟨d₃, rfl⟩, hsize₃.trans (hsize₂.trans hsize₁), ?_⟩
  exact hbyte₃.trans (hbyte₂.trans (by rw [hbyte₁]; rfl))

/-- An archive, and the versions there were when something was last committed. -/
structure Life (D : Type) extends Archive D where
  kept : List (ObjRef × List UInt8)

inductive Event where
  | update (v : ObjRef × List UInt8) (offset : ℕ) (data : List UInt8)
  | commit (liveRoot snapshots : ObjRef)
  | remount

/-- An update, a commit of two roots that returns, and a mount with the state in memory lost. -/
inductive Step (s : Life D) : Event → Life D → Prop
  | update {v : ObjRef × List UInt8} {offset : ℕ} {data : List UInt8} (hv : v ∈ s.versions) :
    Step s (.update v offset data) ⟨s.toArchive.update v offset data, s.kept⟩
  | commit {liveRoot snapshots : ObjRef} {txg : ℕ} {fs : AsyncEofs D} (hroot : liveRoot.Fits)
    (hsnapshots : snapshots.Fits)
    (h : commit { s.fs with liveRoot, snapshots, dirty := true } = (.ok txg, fs)) :
    Step s (.commit liveRoot snapshots) ⟨⟨fs, s.versions⟩, s.versions⟩
  | remount {fs : AsyncEofs D} (h : mount s.fs.dev = .ok fs) : Step s .remount ⟨⟨fs, s.kept⟩, s.kept⟩

/-- The state that a mount of the device comes up with. -/
def remounted (fs : AsyncEofs D) (ub : Uberblock) : AsyncEofs D :=
  { fs.rollback with alloc := .new ub.allocUnit (BlockDevice.size fs.dev) ub.frontier }

/-- A mount of the device finds what was committed. -/
structure Durable (s : Life D) (ub : Uberblock) : Prop where
  sound : s.Sound
  elects : Elects s.fs.dev ub
  same : ofUberblock s.fs.dev ub = remounted s.fs ub
  tidy : (remounted s.fs ub).alloc.Tidy
  held : ∀ v ∈ s.kept, ∃ leaves inner,
    Holds (remounted s.fs ub) v.1 v.2 leaves inner ∧ Settled s.fs (leaves ++ inner)

/-- What is stored stays while nothing changes but the slots and the free space. -/
theorem Archive.Sound.moved {a : Archive D} {g : AsyncEofs D} (h : a.Sound)
    (hblock : g.blockSize = a.fs.blockSize) (hunit : g.allocUnit = a.fs.allocUnit)
    (hsize : g.deviceSize = a.fs.deviceSize)
    (hbyte : ∀ i, DATA_START ≤ i → LawfulDevice.byte g.dev i = LawfulDevice.byte a.fs.dev i)
    (hroom : ∀ i, g.alloc.Room i → a.fs.alloc.Room i) {v : ObjRef × List UInt8}
    (hv : v ∈ a.versions) :
    ∃ leaves inner, Holds g v.1 v.2 leaves inner ∧ Settled a.fs (leaves ++ inner) := by
  obtain ⟨leaves, inner, hholds⟩ := h.version v hv
  refine ⟨leaves, inner, hholds.moved h.ready.geometry.unit_pos ?_ ?_, hholds.settled⟩
  · refine ⟨hblock.symm, hunit.symm, hsize.symm, fun p hp i hcovers => ?_⟩
    exact (hbyte i ((hholds.start_le p hp).trans hcovers.1)).symm
  · intro p hp i hcovers hi
    rw [hunit] at hcovers
    exact hholds.settled p hp i hcovers (hroom i hi)

/-- The next uberblock has the sizes of the last one. -/
theorem Durable.nextUberblock_eq {s : Life D} {ub : Uberblock} (h : Durable s ub)
    (liveRoot snapshots : ObjRef) :
    nextUberblock { s.fs with liveRoot, snapshots, dirty := true } =
      { ub with
        txg := s.fs.committedTxg + 1
        frontier := s.fs.alloc.frontier
        liveRoot
        snapshots } := by
  have hblock : ub.blockSize = s.fs.blockSize := congrArg AsyncEofs.blockSize h.same
  have hunit : ub.allocUnit = s.fs.allocUnit := congrArg AsyncEofs.allocUnit h.same
  have hcodec : ub.codec = s.fs.codec := congrArg AsyncEofs.codec h.same
  have hformat : ub.deviceSize = s.fs.formatDeviceSize := congrArg AsyncEofs.formatDeviceSize h.same
  rw [nextUberblock, hblock, hunit, hcodec, hformat]

theorem Durable.commit {s : Life D} {ub : Uberblock} {liveRoot snapshots : ObjRef} {txg : ℕ}
    (h : Durable s ub) (hroot : liveRoot.Fits) (hsnapshots : snapshots.Fits)
    (hcommit : commit { s.fs with liveRoot, snapshots, dirty := true } = (.ok txg, fs)) :
    ∃ ub', Durable ⟨⟨fs, s.versions⟩, s.versions⟩ ub' := by
  obtain ⟨rfl, htxg, ⟨dev, rfl⟩, hsize, hbyte⟩ := (wp_commit rfl).returned hcommit
  have hgeo := h.sound.ready.geometry
  have hnext := h.nextUberblock_eq liveRoot snapshots
  replace hbyte : LawfulDevice.byte dev = overwrite (LawfulDevice.byte s.fs.dev)
    (slotOffset ((s.fs.committedTxg + 1) % 2)) _ := hbyte
  have hdev : BlockDevice.size dev = s.fs.deviceSize := hsize.trans hgeo.device_size.symm
  have hout : ∀ i, DATA_START ≤ i → LawfulDevice.byte dev i = LawfulDevice.byte s.fs.dev i := by
    intro i hi
    rw [hbyte]
    apply overwrite_outside
    have hslot : SLOT_SIZE = 4096 := rfl
    have hdata : DATA_START = 8192 := rfl
    rw [Uberblock.length_toSlotBytes, slotOffset, hslot]
    omega
  have helects : Elects dev (nextUberblock { s.fs with liveRoot, snapshots, dirty := true }) := by
    obtain ⟨election, helect, hbest⟩ := h.elects.elected
    have hsame : ub.txg = s.fs.committedTxg := congrArg AsyncEofs.committedTxg h.same
    have hsizeLt := hgeo.size_lt
    have hfrontier := hgeo.frontier_le
    refine h.elects.next hsize ?_ ?_ ?_ (Nat.mod_lt (s.fs.committedTxg + 1) (by decide)) hbyte
    · rw [hnext]
      exact { h.elects.mountable with
        frontier_le := hgeo.device_size ▸ hfrontier
        frontier_ge := hgeo.frontier_ge }
    · rw [hnext]
      exact { elect_fits helect ub hbest with
        txg := htxg
        frontier := by
          dsimp only
          omega
        liveRoot := hroot
        snapshots := hsnapshots }
    · rw [hsame]
      exact Nat.lt_succ_self _
  set ub' := nextUberblock { s.fs with liveRoot, snapshots, dirty := true }
  set fs := adopt (s.fs.committedTxg + 1) { s.fs with liveRoot, snapshots, dev, dirty := true }
  refine ⟨ub', ⟨⟨{ hgeo with device_size := hdev.symm }, h.sound.ready.tidy⟩, fun v hv => ?_⟩,
    helects, ?_, ?_, fun v hv => ?_⟩
  · obtain ⟨leaves, inner, hholds, -⟩ :=
      h.sound.moved (g := fs) rfl rfl rfl hout (fun _ => id) hv
    exact ⟨leaves, inner, hholds⟩
  · calc
      ofUberblock dev ub' = { remounted fs ub' with deviceSize := BlockDevice.size dev } := rfl
      _ = remounted fs ub' := by rw [hdev]; rfl
  · have hdvd := h.sound.ready.tidy.frontier_dvd
    rw [hgeo.alloc_unit] at hdvd
    exact Allocator.tidy_new hgeo.unit_pos hgeo.frontier_ge hdvd (hdev ▸ hgeo.frontier_le)
  · refine h.sound.moved (g := remounted fs ub') rfl rfl rfl hout ?_ hv
    rintro i (hi | ⟨_, he, -⟩)
    · exact .inl hi
    · cases he

theorem Durable.remount {s : Life D} {ub : Uberblock} (h : Durable s ub)
    (hmount : mount s.fs.dev = .ok fs) :
    fs = remounted s.fs ub ∧ Durable ⟨⟨fs, s.kept⟩, s.kept⟩ ub := by
  have hfs := (mount_iff_elects.mpr ⟨ub, h.elects, rfl⟩).symm.trans hmount
  obtain rfl : remounted s.fs ub = fs := h.same.symm.trans (Except.ok.inj hfs)
  have hgeo : (remounted s.fs ub).Geometry := h.same ▸ Geometry.ofUberblock h.elects.mountable
  refine ⟨rfl, ⟨⟨hgeo, h.tidy⟩, fun v hv => ?_⟩, h.elects, h.same, h.tidy, fun v hv => ?_⟩
  · obtain ⟨leaves, inner, hholds, -⟩ := h.held v hv
    exact ⟨leaves, inner, hholds⟩
  · obtain ⟨leaves, inner, hholds, -⟩ := h.held v hv
    exact ⟨leaves, inner, hholds, hholds.settled⟩

variable [LawfulCompression]

theorem Durable.update {s : Life D} {ub : Uberblock} (h : Durable s ub)
    {v : ObjRef × List UInt8} (hv : v ∈ s.versions) (offset : ℕ) (data : List UInt8) :
    Durable ⟨s.toArchive.update v offset data, s.kept⟩ ub := by
  obtain ⟨hsound, hgrown⟩ := h.sound.update hv offset data
  generalize s.toArchive.update v offset data = a at *
  obtain ⟨fs, versions⟩ := a
  obtain ⟨alloc, dev, rfl⟩ := hgrown.rest
  have hsize : BlockDevice.size dev = BlockDevice.size s.fs.dev :=
    hsound.ready.geometry.device_size.symm.trans h.sound.ready.geometry.device_size
  have hnew : remounted { s.fs with alloc, dev } ub = { remounted s.fs ub with dev } := by
    rw [remounted, remounted, hsize]
    rfl
  refine ⟨hsound, h.elects.moved hsize fun i hi => ?_, ?_, ?_, ?_⟩
  · exact slotBytes_congr (fun j hj => hgrown.byte j (h.sound.ready.slots hj)) hi
  · rw [hnew, ← h.same, ofUberblock, ofUberblock, hsize]
  · rw [hnew]
    exact h.tidy
  · intro v hv
    obtain ⟨leaves, inner, hholds, hsettled⟩ := h.held v hv
    rw [hnew]
    refine ⟨leaves, inner, hholds.moved h.sound.ready.geometry.unit_pos ?_ hholds.settled,
      hgrown.settled hsettled⟩
    exact ⟨rfl, rfl, rfl, fun p hp i hcovers => (hgrown.byte i (hsettled p hp i hcovers)).symm⟩

theorem Durable.step {s s' : Life D} {ub : Uberblock} {e : Event} (h : Durable s ub)
    (hstep : Step s e s') : ∃ ub', Durable s' ub' := by
  cases hstep with
  | update hv => exact ⟨ub, h.update hv _ _⟩
  | commit hroot hsnapshots hcommit => exact h.commit hroot hsnapshots hcommit
  | remount hmount => exact ⟨ub, (h.remount hmount).2⟩

end AsyncEofs

end Eo9.Eofs
