import Eo9.Kernel.Revocation

/-!
# Quiescing the regions of a task

What the calls of `eo9:platform` do to the claims of a task and to the happenings of the
machine: a dropped claim and the end of the task run the hooks of the regions, and leave the
licences of the functions alone.
-/

namespace Eo9.Kernel.Platform

open Eo9.Library Eo9.Library.Action
open Eo9.Kernel.Pci (AccessWidth Board Bus ConfigAccess DmaBuffer Grows Happening LawfulPci Machine
  RegionDef Settled Touch Touching freedAll freeBuffers_eq mmioRead mmioWrite)
open Eo9.Kernel.Pci.LawfulPci (master)

variable {D : Type} {ε : Type} {α : Type}

/-- Where a register block lies. -/
def block (region : RegionDef) : Extent := ⟨region.base, region.size⟩

/-- Registers are written at most, and no region is claimed. -/
def Restful (store store' : Store D) : Prop :=
  Grows (fun _ h => ∃ name, h = .wrote name) store.machine.history store'.machine.history ∧
    ∀ region, some region ∈ store'.platform.regions → some region ∈ store.platform.regions

instance : Std.Refl (Restful (D := D)) := ⟨fun _ => ⟨.nil, fun _ => id⟩⟩

instance : IsTrans (Store D) Restful :=
  ⟨fun _ _ _ h h' => ⟨h.1.trans h'.1, fun region hr => h.2 region (h'.2 region hr)⟩⟩

/-- The history grows by writes to registers at most. -/
abbrev Writes (m m' : Machine D) : Prop :=
  Grows (fun _ h => ∃ name, h = .wrote name) m.history m'.history

instance : Std.Refl (Writes (D := D)) := ⟨fun _ => .nil⟩

instance : IsTrans (Machine D) Writes := ⟨fun _ _ _ h h' => h.trans h'⟩

theorem onMachine_restful {m : Action (Machine D) ε α} {f : ε → WitPlatformError}
    (h : Moves Writes m) : Moves Restful (onMachine m f) := by
  have hzoom : Moves Restful
      (m.zoom Store.machine fun machine (store : Store D) => { store with machine }) :=
    h.zoom fun _ _ hs => ⟨hs, fun _ => id⟩
  exact hzoom.mapErr

theorem lookupRegion_restful (rep : Nat) :
    Moves Restful (lookupRegion rep : Action (Store D) WitPlatformError RegionDef) := by
  refine .of_stay fun store => ?_
  unfold lookupRegion
  split <;> rfl

theorem add_writes (w a b : Nat) :
    Moves Writes (Checked.add w a b : Action (Machine D) ε Nat) := by
  refine .of_stay fun m => ?_
  unfold Checked.add
  split <;> rfl

theorem allocDma_restful (region len storage : Nat) :
    Moves Restful (allocDma region len storage : Action (Store D) WitPlatformError Nat) := by
  unfold allocDma
  refine (lookupRegion_restful _).bind fun _ => ?_
  split
  · exact .of_stay fun _ => rfl
  · refine Moves.bind (.of_stay fun _ => rfl) fun buffers => ?_
    split
    · exact .of_stay fun _ => rfl
    · exact fun _ => ⟨.nil, fun _ => id⟩

section Registers

variable [Bus D]

theorem readCall_restful (region offset : Nat) (width : AccessWidth) :
    Moves Restful (readCall region offset width : Action (Store D) WitPlatformError Nat) := by
  refine (lookupRegion_restful _).bind fun claimed => onMachine_restful ?_
  unfold regionRead
  split
  · exact .of_stay fun _ => rfl
  · exact (add_writes _ _ _).bind fun _ _ => .nil

theorem writeCall_restful (region offset : Nat) (width : AccessWidth) (value : Nat) :
    Moves Restful (writeCall region offset width value : Action (Store D) WitPlatformError Unit) := by
  refine (lookupRegion_restful _).bind fun claimed => onMachine_restful ?_
  unfold regionWrite
  split
  · exact .of_stay fun _ => rfl
  · exact (add_writes _ _ _).bind fun _ _ => .cons .nil ⟨_, rfl⟩

variable [Board D]

omit [Bus D] in
/-- A claim that is granted is one of a region of the board. -/
theorem claim_spec (grant : Grant) (name : String) (store : Store D) :
    wp (claim grant name) store
      (fun _ store' => store'.machine = store.machine ∧
        ∀ region, some region ∈ store'.platform.regions →
          (Board.regions D).find? (fun region => region.name = name) = some region ∨
            some region ∈ store.platform.regions)
      fun _ store' => Restful store store' := by
  unfold claim
  split
  · exact wp_fail (Std.Refl.refl store)
  rename_i region hfind
  split
  · exact wp_fail (Std.Refl.refl store)
  refine wp_bind (q := fun _ s => s.machine = store.machine ∧ s.platform = store.platform)
    ?_ (fun granted s hs => ?_) fun _ _ => id
  · refine wp_of_ok (update_apply _ _) ?_
    split
    · exact ⟨rfl, rfl⟩
    · exact ⟨rfl, rfl⟩
  split
  · exact wp_fail ⟨hs.1 ▸ .nil, hs.2 ▸ fun _ => id⟩
  · refine wp_of_ok (update_apply _ _) ⟨hs.1, fun other hother => ?_⟩
    obtain ⟨i, hget⟩ := Slots.mem_iff_get.mp hother
    rcases Slots.get_insert_cases hget with ⟨-, rfl⟩ | hold
    · exact .inl hfind
    · exact .inr (hs.2 ▸ Slots.mem_iff_get.mpr ⟨i, hold⟩)

end Registers

theorem settled_of_quiesced {p : RegionDef → Prop} {old new : List (Happening D)} {name : String}
    (h : Grows (fun _ x => ∃ region, p region ∧ x = .quiesced region.name) old new)
    (hold : Settled name old) : Settled name new := by
  induction h with
  | nil => exact hold
  | cons _ head ih =>
    obtain ⟨region, -, rfl⟩ := head
    exact .inr ih

/-- Only the hooks of certain regions settle anything. -/
theorem quiesced_of_settled {p : RegionDef → Prop} {old new : List (Happening D)} {name : String}
    (h : Grows (fun _ x => ∃ region, p region ∧ x = .quiesced region.name) old new)
    (hnew : Settled name new) : Settled name old ∨ ∃ region, p region ∧ region.name = name := by
  induction h with
  | nil => exact .inl hnew
  | cons _ head ih =>
    obtain ⟨region, hp, rfl⟩ := head
    exact hnew.elim (fun hname => .inr ⟨region, hp, hname⟩) ih

variable [Bus D] [ConfigAccess D] [Board D] [LawfulPci D]

/-- Hooks of certain regions are run, and nothing else is done. -/
structure Calms (p : RegionDef → Prop) (m m' : Machine D) : Prop where
  master : ∀ f, LawfulPci.master m'.bus f = LawfulPci.master m.bus f
  grows : Grows (fun _ h => ∃ region, p region ∧ h = .quiesced region.name) m.history m'.history
  touching : Touching (fun touch => ∃ region, p region ∧ touch.extent.Within (block region)) m m'

section Calms

variable {p q : RegionDef → Prop} {m m' m'' : Machine D}

theorem Calms.refl (m : Machine D) : Calms p m m := ⟨fun _ => rfl, .nil, Std.Refl.refl m⟩

theorem Calms.trans (h : Calms p m m') (h' : Calms p m' m'') : Calms p m m'' :=
  ⟨fun f => (h'.master f).trans (h.master f), h.grows.trans h'.grows,
    IsTrans.trans _ _ _ h.touching h'.touching⟩

theorem quiesceRegion_spec {region : RegionDef} (hp : p region)
    (hboard : region ∈ Board.regions D) (m : Machine D) :
    wp (quiesceRegion region : Action (Machine D) ε Unit) m
      (fun _ m' => Calms p m m' ∧ (region.quiesce.isSome → Settled region.name m'.history))
      fun _ _ => False := by
  obtain ⟨hends, hhook⟩ := Board.fits region hboard
  unfold quiesceRegion
  split
  · rename_i hnone
    exact wp_pure ⟨Calms.refl m, fun hsome => absurd hsome (by simp [hnone])⟩
  rename_i offset value hsome
  have hfits : offset + 4 ≤ region.size := hhook (offset, value) hsome
  have hadd : (Checked.add 64 region.base offset : Action (Machine D) ε Nat) =
      pure (region.base + offset) := Checked.add_of_lt (by omega)
  rw [hadd]
  refine wp_bind_of_ok rfl (wp_of_ok rfl ⟨⟨fun f => ?_, .cons .nil ⟨region, hp, rfl⟩, ?_⟩, ?_⟩)
  · exact LawfulPci.region_master _ region hboard offset .dword _ f hfits
  · refine ⟨[⟨region.base + offset, .dword⟩], rfl, fun touch ht => ⟨region, hp, ?_⟩⟩
    rw [List.mem_singleton.mp ht]
    exact Extent.within_of_offset hfits
  · exact fun _ => .inl rfl

/-- The claimed regions are quiesced one after the other, and stay so. -/
theorem releaseRegions_spec {regions : Slots RegionDef}
    (h : ∀ region, some region ∈ regions → p region ∧ region ∈ Board.regions D) (store : Store D) :
    wp (releaseRegions regions) store
      (fun _ store' => Calms p store.machine store'.machine ∧ store'.platform = store.platform ∧
        ∀ region, some region ∈ regions → region.quiesce.isSome →
          Settled region.name store'.machine.history)
      fun _ _ => False := by
  induction regions generalizing store with
  | nil => exact wp_pure ⟨Calms.refl _, rfl, nofun⟩
  | cons slot rest ih =>
    have hrest := ih fun region hr => h region (List.mem_cons_of_mem _ hr)
    cases slot with
    | none =>
      refine wp_mono (hrest store) (fun _ s hs => ⟨hs.1, hs.2.1, fun region hr => ?_⟩)
        fun _ _ => id
      exact hs.2.2 region ((List.mem_cons.mp hr).resolve_left nofun)
    | some region =>
      obtain ⟨hp, hboard⟩ := h region List.mem_cons_self
      refine wp_bind (q := fun _ s => Calms p store.machine s.machine ∧
        s.platform = store.platform ∧
        (region.quiesce.isSome → Settled region.name s.machine.history))
        (wp_zoom (wp_mono (quiesceRegion_spec hp hboard store.machine) (fun _ m hm => ?_)
          fun _ _ => id)) (fun _ s hs => ?_) fun _ _ => id
      · exact ⟨hm.1, rfl, hm.2⟩
      · refine wp_bind_of_ok (modify_apply _ _) ?_
        refine wp_mono (hrest _) (fun _ s' hs' => ?_) fun _ _ => id
        refine ⟨hs.1.trans hs'.1, hs'.2.1.trans hs.2.1, fun other hother => ?_⟩
        rcases List.mem_cons.mp hother with hself | htail
        · obtain rfl := Option.some.inj hself
          exact fun hhook => settled_of_quiesced hs'.1.grows (hs.2.2 hhook)
        · exact hs'.2.2 other htail

/-- A dropped claim quiesces its region. -/
theorem closeRegion_spec {store : Store D} (rep : Nat)
    (h : ∀ region, some region ∈ store.platform.regions → p region ∧ region ∈ Board.regions D) :
    wp (closeRegion rep) store
      (fun _ store' => Calms p store.machine store'.machine ∧
        ∀ region, some region ∈ store'.platform.regions → some region ∈ store.platform.regions)
      fun _ _ => False := by
  unfold closeRegion
  refine wp_bind_of_ok (gets_apply _ _) ?_
  rcases hget : store.platform.regions.get rep with _ | region
  · exact wp_pure ⟨Calms.refl _, fun _ => id⟩
  obtain ⟨hp, hboard⟩ := h region (Slots.mem_iff_get.mpr ⟨rep, hget⟩)
  refine wp_bind_of_ok (modify_apply _ _) ?_
  refine wp_bind (q := fun _ s => Calms p store.machine s.machine ∧
    s.platform.regions = store.platform.regions.clear rep)
    (wp_zoom (wp_mono (quiesceRegion_spec hp hboard store.machine) (fun _ m hm => ⟨hm.1, rfl⟩)
      fun _ _ => id)) (fun _ s hs => ?_) fun _ _ => id
  refine wp_modify ⟨hs.1, fun other hother => ?_⟩
  rw [hs.2] at hother
  obtain ⟨i, hi⟩ := Slots.mem_iff_get.mp hother
  exact Slots.mem_iff_get.mpr ⟨i, Slots.get_of_get_clear hi⟩

/-- A buffer is freed at once. -/
structure Frees (store : Store D) (rep : Nat) (store' : Store D) : Prop where
  regions : store'.platform.regions = store.platform.regions
  machine : store'.machine = match store.platform.buffers.get rep with
    | none => store.machine
    | some buffer =>
      { store.machine with
        history := .freed buffer.storage store.machine.bus :: store.machine.history }

omit [Bus D] [ConfigAccess D] [Board D] [LawfulPci D] in
theorem closeBuffer_spec (store : Store D) (rep : Nat) :
    wp (closeBuffer rep) store (fun _ store' => Frees store rep store') fun _ _ => False := by
  unfold closeBuffer
  refine wp_bind_of_ok (gets_apply _ _) ?_
  rcases hget : store.platform.buffers.get rep with _ | buffer
  · exact wp_pure ⟨rfl, by rw [hget]⟩
  · exact wp_of_ok rfl ⟨rfl, by rw [hget]; rfl⟩

/-- The tables go after the regions are quiesced. -/
theorem dropTables_spec {store : Store D}
    (h : ∀ region, some region ∈ store.platform.regions → p region ∧ region ∈ Board.regions D) :
    wp dropTables store
      (fun _ store' => ∃ m, Calms p store.machine m ∧
        (∀ region, some region ∈ store.platform.regions → region.quiesce.isSome →
          Settled region.name m.history) ∧ store'.platform = {} ∧
        store'.machine = { m with history := freedAll m.bus store.platform.buffers m.history })
      fun _ _ => False := by
  refine wp_bind_of_ok (gets_apply _ _) ?_
  refine wp_bind (releaseRegions_spec h store) (fun _ s hs => ?_) fun _ _ => id
  refine wp_bind_of_ok (modify_apply _ _) (wp_zoom (wp_of_ok (freeBuffers_eq _ _) ?_))
  exact ⟨s.machine, hs.1, hs.2.2, rfl, rfl⟩

end Calms

section Run

variable {p : RegionDef → Prop} {grant : Grant} {call : Call} {store : Store D}

omit [ConfigAccess D] [LawfulPci D] in
/-- The calls that neither claim a region, nor drop one, nor free a buffer. -/
theorem Call.run_restful (hclaim : ∀ name, call ≠ .claim name)
    (hregion : ∀ rep, call ≠ .dropRegion rep) (hbuffer : ∀ rep, call ≠ .dropBuffer rep) :
    Restful store (call.run grant store).2 := by
  have hreturn : ∀ {α : Type} {m : Action (Store D) WitPlatformError α} {f : α → Pci.Reply},
      Moves Restful m → Restful store ((m >>= fun a => pure (f a)) store).2 := fun hm =>
    hm.bind (fun _ => .of_stay fun _ => rfl) store
  cases call with
  | claim name => exact absurd rfl (hclaim name)
  | read region offset width => exact hreturn (readCall_restful _ _ _)
  | write region offset width value => exact hreturn (writeCall_restful _ _ _ _)
  | allocDma region len storage => exact hreturn (allocDma_restful _ _ _)
  | dropRegion rep => exact absurd rfl (hregion rep)
  | dropBuffer rep => exact absurd rfl (hbuffer rep)

theorem Call.run_dropRegion (grant : Grant) (store : Store D) (rep : Nat)
    (h : ∀ region, some region ∈ store.platform.regions → p region ∧ region ∈ Board.regions D) :
    Calms p store.machine ((Call.dropRegion rep).run grant store).2.machine ∧
      ∀ region, some region ∈ ((Call.dropRegion rep).run grant store).2.platform.regions →
        some region ∈ store.platform.regions :=
  (wp_map (wp_mono (closeRegion_spec rep h) (fun _ _ hs => hs) fun _ _ => False.elim)).final

omit [ConfigAccess D] [LawfulPci D] in
theorem Call.run_dropBuffer (grant : Grant) (store : Store D) (rep : Nat) :
    Frees store rep ((Call.dropBuffer rep).run grant store).2 :=
  (wp_map (wp_mono (closeBuffer_spec store rep) (fun _ _ hs => hs) fun _ _ => False.elim)).final

omit [ConfigAccess D] [LawfulPci D] in
/-- A region that is held after a claim was held before, or is the new one. -/
theorem Call.run_claim (name : String) {region : RegionDef}
    (hr : some region ∈ ((Call.claim name).run grant store).2.platform.regions) :
    some region ∈ store.platform.regions ∨
      (Board.regions D).find? (fun region => region.name = name) = some region ∧
        ∃ rep, ((Call.claim name).run grant store).1 = .ok (.handle rep) := by
  have hspec : wp ((Call.claim name).run grant) store
      (fun reply s => ∀ r, some r ∈ s.platform.regions → some r ∈ store.platform.regions ∨
        (Board.regions D).find? (fun region => region.name = name) = some r ∧
          ∃ rep, reply = .handle rep)
      fun _ s => ∀ r, some r ∈ s.platform.regions → some r ∈ store.platform.regions := by
    refine wp_bind (claim_spec grant name store) (fun rep s hs => ?_) fun _ s hs => hs.2
    exact wp_pure fun r hmem => (hs.2 r hmem).symm.imp_right fun hfind => ⟨hfind, rep, rfl⟩
  rcases hrun : (Call.claim name).run grant store with ⟨e | reply, s⟩
  · rw [hrun] at hr
    exact .inl (hspec.stopped hrun region hr)
  · rw [hrun] at hr
    refine (hspec.returned hrun region hr).imp_right fun hnew => ?_
    exact ⟨hnew.1, hnew.2.imp fun rep hrep => congrArg _ hrep⟩

omit [ConfigAccess D] [LawfulPci D] in
theorem Call.run_claim_history (name : String) :
    Writes store.machine ((Call.claim name).run grant store).2.machine := by
  have hspec : wp (Platform.claim grant name) store (fun _ s => Writes store.machine s.machine)
      fun _ s => Writes store.machine s.machine :=
    wp_mono (claim_spec grant name store) (fun _ _ hs => hs.1 ▸ .nil) fun _ _ hs => hs.1
  exact (wp_map hspec).final (p := fun s : Store D => Writes store.machine s.machine)

/-- A region that is held after a call was held before, or the call claimed it. -/
theorem Call.run_regions
    (h : ∀ region, some region ∈ store.platform.regions → region ∈ Board.regions D)
    {region : RegionDef} (hr : some region ∈ (call.run grant store).2.platform.regions) :
    some region ∈ store.platform.regions ∨ ∃ name, call = .claim name ∧
      (Board.regions D).find? (fun region => region.name = name) = some region ∧
        ∃ rep, (call.run grant store).1 = .ok (.handle rep) := by
  by_cases hclaim : ∃ name, call = .claim name
  · obtain ⟨name, rfl⟩ := hclaim
    exact (Call.run_claim name hr).imp_right fun hnew => ⟨name, rfl, hnew⟩
  left
  by_cases hregion : ∃ rep, call = .dropRegion rep
  · obtain ⟨rep, rfl⟩ := hregion
    exact (Call.run_dropRegion (p := fun _ => True) _ _ rep fun r hmem => ⟨trivial, h r hmem⟩).2 region hr
  by_cases hbuffer : ∃ rep, call = .dropBuffer rep
  · obtain ⟨rep, rfl⟩ := hbuffer
    rwa [(Call.run_dropBuffer _ _ rep).regions] at hr
  · exact (Call.run_restful (fun _ heq => hclaim ⟨_, heq⟩) (fun _ heq => hregion ⟨_, heq⟩)
      fun _ heq => hbuffer ⟨_, heq⟩).2 region hr

end Run

end Eo9.Kernel.Platform
