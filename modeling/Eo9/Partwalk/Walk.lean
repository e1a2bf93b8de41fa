import Eo9.Partwalk.Safety

/-!
# Whole walks

The walk from sector 0 through every sector fed to it: it ends after at most
`maxEbrs` feeds, never asks for a sector twice nor outside the container, and
the table it ends with is safe.
-/

namespace Eo9.Partwalk

open Eo9.Library

namespace Walker

variable {sector0 : List UInt8} {bound : Nat} {w : Walker}

theorem new_valid (sector0 : List UInt8) (deviceSize : UInt64) :
    (new deviceSize).Valid sector0 1 := by
  have := deviceSize.toNat_lt
  constructor
  · simp only [new, sectorSize]
    omega
  all_goals simp [new]

theorem Valid.mono (h : w.Valid sector0 bound) {larger : Nat} (hle : bound ≤ larger) :
    w.Valid sector0 larger :=
  { h with
    numbered := fun p hp => by
      have := h.numbered p hp
      omega
    container_number := fun n hn => by
      obtain ⟨hlt, hrest⟩ := h.container_number n hn
      exact ⟨by omega, hrest⟩ }

/-- One more partition, numbered above all others. -/
theorem Valid.addPartition (h : w.Valid sector0 bound) {number startLba sectors : Nat}
    (hle : bound ≤ number) (hpos : 1 ≤ number) (hfits : w.Fits startLba sectors)
    (hlogical : 5 ≤ number → ∃ c, w.container = some c ∧ c.startLba ≤ startLba ∧
      startLba + sectors ≤ c.startLba + c.sectors) :
    ({ w with partitions := w.partitions ++ [⟨number, startLba, sectors⟩] } : Walker).Valid
      sector0 (number + 1) where
  device := h.device
  entry p hp := by
    rcases List.mem_append.mp hp with hp | hp
    · exact h.entry p hp
    · rw [List.mem_singleton] at hp
      subst hp
      exact hfits
  numbered p hp := by
    rcases List.mem_append.mp hp with hp | hp
    · have := h.numbered p hp
      omega
    · rw [List.mem_singleton] at hp
      subst hp
      exact ⟨hpos, Nat.lt_succ_self _⟩
  ordered := by
    refine List.pairwise_append.mpr ⟨h.ordered, List.pairwise_singleton _ _, fun p hp q hq => ?_⟩
    rw [List.mem_singleton] at hq
    have := (h.numbered p hp).2
    subst hq
    exact this.trans_le hle
  container := h.container
  container_iff := h.container_iff
  container_number n hn := by
    obtain ⟨hlt, hle', hne⟩ := h.container_number n hn
    refine ⟨by omega, hle', fun p hp => ?_⟩
    rcases List.mem_append.mp hp with hp | hp
    · exact hne p hp
    · rw [List.mem_singleton] at hp
      subst hp
      exact Nat.ne_of_gt (hlt.trans_le hle)
  logical p hp hn := by
    rcases List.mem_append.mp hp with hp | hp
    · exact h.logical p hp hn
    · rw [List.mem_singleton] at hp
      subst hp
      exact hlogical hn
  ebr_nodup := h.ebr_nodup
  ebr_inside := h.ebr_inside

/-- The extended entry of sector 0, found in a primary slot. -/
theorem Valid.setContainer (h : w.Valid sector0 bound) (hnone : w.container = none)
    {number : Nat} {c : Container} (hle : bound ≤ number) (hprimary : number ≤ 4)
    (hfits : w.Fits c.startLba c.sectors) (hof : ContainerOf sector0 c) :
    ({ w with container := some c, containerNumber := some number } : Walker).Valid
      sector0 (number + 1) where
  device := h.device
  entry := h.entry
  numbered p hp := by
    have := h.numbered p hp
    omega
  ordered := h.ordered
  container c' hc' := by
    cases hc'
    exact ⟨hfits, hof⟩
  container_iff := rfl
  container_number n hn := by
    cases hn
    refine ⟨by omega, hprimary, fun p hp => ?_⟩
    exact Nat.ne_of_lt ((h.numbered p hp).2.trans_le hle)
  logical p hp hn := by
    have := (h.numbered p hp).2
    omega
  ebr_nodup := h.ebr_nodup
  ebr_inside lba hlba := by
    obtain ⟨c', hc', -⟩ := h.ebr_inside lba hlba
    rw [hnone] at hc'
    cases hc'

/-- One more EBR sector asked for. -/
theorem Valid.addEbr (h : w.Valid sector0 bound) {lba : Nat} {c : Container}
    (hc : w.container = some c) (hcov : c.Covers lba) (hnew : lba ∉ w.ebrLbas) :
    ({ w with ebrLbas := w.ebrLbas ++ [lba], pending := some lba } : Walker).Valid
      sector0 bound :=
  { h with
    ebr_nodup := by
      refine List.nodup_append.mpr ⟨h.ebr_nodup, by simp, fun a ha b hb => ?_⟩
      rw [List.mem_singleton] at hb
      rintro rfl
      exact hnew (hb ▸ ha)
    ebr_inside := fun x hx => by
      rcases List.mem_append.mp hx with hx | hx
      · exact h.ebr_inside x hx
      · rw [List.mem_singleton] at hx
        exact ⟨c, hc, hx ▸ hcov⟩ }

/-- Nothing was asked for yet, and no logical was numbered. -/
def Unasked (w : Walker) : Prop := w.ebrLbas = [] ∧ w.nextLogical = 5

/-- An extended entry in one of the first `slots` slots is the container. -/
def Found (sector0 : List UInt8) (slots : Nat) (w : Walker) : Prop :=
  ∀ (h : sector0.length = sectorSize) (index : Fin 4), index.val < slots →
    isExtended (decodeEntry ⟨sector0, h⟩ index).partitionType = true →
      w.container = some
        { startLba := (decodeEntry ⟨sector0, h⟩ index).startLba
          sectors := (decodeEntry ⟨sector0, h⟩ index).sectors }

theorem Found.next {index : Fin 4} (h0 : sector0.length = sectorSize)
    (h : w.Found sector0 index)
    (hslot : isExtended (decodeEntry ⟨sector0, h0⟩ index).partitionType = true →
      w.container = some
        { startLba := (decodeEntry ⟨sector0, h0⟩ index).startLba
          sectors := (decodeEntry ⟨sector0, h0⟩ index).sectors }) :
    w.Found sector0 (index + 1) := by
  intro h' i hi hext
  rcases Nat.lt_succ_iff_lt_or_eq.mp hi with hlt | heq
  · exact h h' i hlt hext
  · obtain rfl : i = index := Fin.ext heq
    exact hslot hext

/-- The recorded container is the extended entry of sector 0, and the only one. -/
theorem Valid.containerOf_iff (h : w.Valid sector0 bound) (hfound : w.Found sector0 4)
    (c : Container) : w.container = some c ↔ ContainerOf sector0 c := by
  constructor
  · intro hc
    exact (h.container c hc).2
  · rintro ⟨h0, index, hext, rfl⟩
    exact hfound h0 index index.isLt hext

theorem startEntry_spec (h0 : sector0.length = sectorSize) (index : Fin 4)
    (h : w.Valid sector0 (index + 1)) (hu : w.Unasked) (hfound : w.Found sector0 index) :
    (startEntry ⟨sector0, h0⟩ index).wp w
      (fun _ w' => w'.Valid sector0 (index + 2) ∧ w'.Unasked ∧ w'.Found sector0 (index + 1) ∧
        w'.deviceSectors = w.deviceSectors)
      (fun e _ => ∃ err, e = .err err) := by
  generalize hentry : decodeEntry ⟨sector0, h0⟩ index = entry
  by_cases hempty : entry.partitionType = 0x00
  · have hrun : startEntry ⟨sector0, h0⟩ index w = (.ok (), w) := by
      simp only [startEntry, hentry, hempty, if_true, Action.pure_apply]
    refine Action.wp_of_ok hrun ⟨h.mono (by omega), hu, hfound.next h0 fun hext => ?_, rfl⟩
    rw [hentry, hempty] at hext
    cases hext
  cases hspan : w.checkSpan (index + 1) entry.startLba entry.sectors with
  | error e =>
    have hrun : startEntry ⟨sector0, h0⟩ index w = (.error e, w) := by
      simp only [startEntry, hentry, hempty, if_false, Action.bind_apply, Action.query_apply,
        hspan]
    exact Action.wp_of_error hrun (Outcome.Clean.isErr (hspan ▸ clean_checkSpan w _ _ _))
  | ok =>
  have hfits := (checkSpan_eq_ok w _ _ _ h.device).mp hspan
  by_cases hext : isExtended entry.partitionType = true
  swap
  · have hrun : startEntry ⟨sector0, h0⟩ index w = (.ok (), { w with
        partitions := w.partitions ++ [⟨index + 1, entry.startLba, entry.sectors⟩] }) := by
      simp only [startEntry, hentry, hempty, if_false, Action.bind_apply, Action.query_apply,
        hspan, hext, Bool.false_eq_true, Action.modify_apply]
    refine Action.wp_of_ok hrun ⟨h.addPartition le_rfl (by omega) hfits (by omega), hu,
      Found.next h0 hfound fun hext' => ?_, rfl⟩
    rw [hentry] at hext'
    exact absurd hext' hext
  cases hc : w.container with
  | some c =>
    have hrun : startEntry ⟨sector0, h0⟩ index w =
        (.error (.err .twoExtendedContainers), w) := by
      simp only [startEntry, hentry, hempty, if_false, Action.bind_apply, Action.query_apply,
        hspan, hext, if_true, Action.gets_apply, hc, Option.isSome_some, Action.fail_apply]
    exact Action.wp_of_error hrun ⟨_, rfl⟩
  | none =>
    have hrun : startEntry ⟨sector0, h0⟩ index w = (.ok (), { w with
        container := some ⟨entry.startLba, entry.sectors⟩
        containerNumber := some (index + 1) }) := by
      simp only [startEntry, hentry, hempty, if_false, Action.bind_apply, Action.query_apply,
        hspan, hext, if_true, Action.gets_apply, hc, Option.isSome_none, Bool.false_eq_true,
        Action.modify_apply]
    refine Action.wp_of_ok hrun
      ⟨h.setContainer hc le_rfl (by omega) hfits ⟨h0, index, ?_⟩, hu,
        Found.next h0 (fun h' i hi hext' => ?_) fun _ => ?_, rfl⟩
    · rw [hentry]
      exact ⟨hext, rfl⟩
    · have hc' := hfound h' i hi hext'
      rw [hc] at hc'
      cases hc'
    · rw [hentry]

theorem startEntries_spec (h0 : sector0.length = sectorSize) (h : w.Valid sector0 1)
    (hu : w.Unasked) :
    (startEntries ⟨sector0, h0⟩ [0, 1, 2, 3]).wp w
      (fun _ w' => w'.Valid sector0 5 ∧ w'.Unasked ∧ w'.Found sector0 4 ∧
        w'.deviceSectors = w.deviceSectors)
      (fun e _ => ∃ err, e = .err err) := by
  have hnone : w.Found sector0 0 := fun _ _ hlt => absurd hlt (Nat.not_lt_zero _)
  refine Action.wp_bind (startEntry_spec h0 0 h hu hnone) (fun _ w₁ h₁ => ?_) fun _ _ => id
  obtain ⟨hv₁, hu₁, hf₁, hd₁⟩ := h₁
  refine Action.wp_bind (startEntry_spec h0 1 hv₁ hu₁ hf₁) (fun _ w₂ h₂ => ?_) fun _ _ => id
  obtain ⟨hv₂, hu₂, hf₂, hd₂⟩ := h₂
  refine Action.wp_bind (startEntry_spec h0 2 hv₂ hu₂ hf₂) (fun _ w₃ h₃ => ?_) fun _ _ => id
  obtain ⟨hv₃, hu₃, hf₃, hd₃⟩ := h₃
  refine Action.wp_bind (startEntry_spec h0 3 hv₃ hu₃ hf₃) (fun _ w₄ h₄ => ?_) fun _ _ => id
  obtain ⟨hv₄, hu₄, hf₄, hd₄⟩ := h₄
  exact Action.wp_pure ⟨hv₄, hu₄, hf₄, hd₄.trans (hd₃.trans (hd₂.trans hd₁))⟩

/-- The walker waits for the last sector it asked for. -/
structure Waiting (sector0 : List UInt8) (deviceSectors lba : Nat) (asked : List Nat)
    (w : Walker) : Prop where
  valid : w.Valid sector0 w.nextLogical
  found : w.Found sector0 4
  device_eq : w.deviceSectors = deviceSectors
  pending_eq : w.pending = some lba
  asked_eq : w.ebrLbas = asked ++ [lba]
  logicals : 5 ≤ w.nextLogical ∧ w.nextLogical ≤ 5 + asked.length
  short : asked.length < maxEbrs

theorem Waiting.nodup {deviceSectors lba : Nat} {asked : List Nat}
    (h : Waiting sector0 deviceSectors lba asked w) : (asked ++ [lba]).Nodup :=
  h.asked_eq ▸ h.valid.ebr_nodup

theorem Waiting.inside {deviceSectors lba : Nat} {asked : List Nat}
    (h : Waiting sector0 deviceSectors lba asked w) :
    ∃ c, ContainerOf sector0 c ∧ c.Covers lba := by
  obtain ⟨c, hc, hcov⟩ := h.valid.ebr_inside lba (by simp [h.asked_eq])
  exact ⟨c, (h.valid.container c hc).2, hcov⟩

/-- What the walk has come to after a step: the sectors asked for before it
are `asked`. -/
def Arrived (sector0 : List UInt8) (deviceSectors : Nat) (asked : List Nat) (step : Step)
    (w : Walker) : Prop :=
  match step with
  | .need lba => Waiting sector0 deviceSectors lba asked w
  | .done table => ∃ container, (∀ c, container = some c ↔ ContainerOf sector0 c) ∧
      TableSafe deviceSectors container asked table

theorem startChain_spec (h : w.Valid sector0 5) (hu : w.Unasked) (hf : w.Found sector0 4) :
    startChain.wp w (Arrived sector0 w.deviceSectors []) (fun e _ => ∃ err, e = .err err) := by
  obtain ⟨hnil, hfive⟩ := hu
  cases hc : w.container with
  | some c =>
    have hcov : c.Covers c.startLba := by
      have := (h.container c hc).1.1
      simp only [Container.Covers]
      omega
    have hrun : startChain w = (.ok (.need c.startLba), { w with
        ebrLbas := w.ebrLbas ++ [c.startLba]
        pending := some c.startLba }) := by
      simp only [startChain, Action.bind_apply, Action.gets_apply, hc, Action.modify_apply,
        Action.pure_apply]
    refine Action.wp_of_ok hrun ⟨?_, hf, rfl, rfl, by simp [hnil], ?_, by simp [maxEbrs]⟩
    · exact hfive.symm ▸ h.addEbr hc hcov (by simp [hnil])
    · simp only [hfive]
      exact ⟨le_rfl, Nat.le_add_right _ _⟩
  | none =>
    have hrun : startChain w = finalize w := by
      simp only [startChain, Action.bind_apply, Action.gets_apply, hc]
    unfold Action.wp
    rw [hrun]
    refine Action.wp_mono (finalize_spec h) (fun step w' hw' => ?_) fun e w' hw' => hw'.2
    obtain ⟨-, -, table, rfl, hsafe⟩ := hw'
    exact ⟨w.container, h.containerOf_iff hf, hnil ▸ hsafe⟩

theorem start_spec (sector0 : List UInt8) (deviceSize : UInt64) :
    (start sector0).wp (new deviceSize)
      (Arrived sector0 (deviceSize.toNat / sectorSize) [])
      (fun e _ => ∃ err, e = .err err) := by
  unfold start
  split
  case isFalse h => exact Action.wp_fail ⟨_, rfl⟩
  case isTrue h0 =>
  dsimp only
  split
  · exact Action.wp_fail ⟨_, rfl⟩
  split
  · exact Action.wp_fail ⟨_, rfl⟩
  refine Action.wp_bind (startEntries_spec h0 (new_valid sector0 deviceSize) ⟨rfl, rfl⟩)
    (fun _ w hw => ?_) fun _ _ => id
  obtain ⟨hvalid, hu, hf, hdevice⟩ := hw
  have hchain := startChain_spec hvalid hu hf
  rw [hdevice] at hchain
  exact hchain

/-- What feeding one EBR keeps: the container, the device and the sectors asked for. -/
structure Frame (w w' : Walker) : Prop where
  container : w'.container = w.container
  device : w'.deviceSectors = w.deviceSectors
  asked : w'.ebrLbas = w.ebrLbas

theorem Frame.refl (w : Walker) : Frame w w := ⟨rfl, rfl, rfl⟩

theorem feedLogical_spec (h : w.Valid sector0 w.nextLogical) {c : Container}
    (hc : w.container = some c) (hfive : 5 ≤ w.nextLogical) (hfit : w.nextLogical + 1 < 2 ^ 32)
    (ebrLba : Nat) (sector : Sector) :
    (feedLogical ebrLba c sector).wp w
      (fun _ w' => w'.Valid sector0 w'.nextLogical ∧ Frame w w' ∧
        w.nextLogical ≤ w'.nextLogical ∧ w'.nextLogical ≤ w.nextLogical + 1)
      (fun e _ => ∃ err, e = .err err) := by
  unfold feedLogical
  dsimp only
  generalize decodeEntry sector 0 = logical
  split
  · exact Action.wp_fail ⟨_, rfl⟩
  split
  · exact Action.wp_pure ⟨h, .refl w, le_rfl, Nat.le_succ _⟩
  split
  · exact Action.wp_fail ⟨_, rfl⟩
  -- The logical is numbered before its span is checked.
  let w₁ : Walker := { w with nextLogical := w.nextLogical + 1 }
  have h₁ : w₁.Valid sector0 w.nextLogical := { h with }
  have hcfit := (h.container c hc).1
  have hdevice := h.device
  have hstop : c.startLba + c.sectors < 2 ^ 64 := by
    have := hcfit.2.2
    omega
  unfold Action.wp
  simp only [Action.bind_apply, Action.gets_apply, Action.query_apply, checkedAdd_ok hfit,
    Action.modify_apply]
  cases hstart : checkedAdd64 ebrLba logical.startLba with
  | none => exact ⟨_, rfl⟩
  | some startLba =>
  cases hspan : w₁.checkSpan w.nextLogical startLba logical.sectors with
  | error e =>
    simp only [Action.bind_apply, Action.query_apply, w₁] at hspan ⊢
    rw [hspan]
    exact Outcome.Clean.isErr (hspan ▸ clean_checkSpan _ _ _ _)
  | ok =>
  have hfits := (checkSpan_eq_ok w₁ _ _ _ h₁.device).mp hspan
  have hend : startLba + logical.sectors < 2 ^ 64 := by
    have := hfits.2.2
    simp only [w₁] at this
    omega
  simp only [Action.bind_apply, Action.query_apply, w₁] at hspan ⊢
  simp only [hspan, Action.ofOutcome_apply, checkedAdd_ok hend, checkedAdd_ok hstop]
  by_cases hout : startLba < c.startLba ∨ c.startLba + c.sectors < startLba + logical.sectors
  · simp only [hout, if_true, Action.fail_apply]
    exact ⟨_, rfl⟩
  · simp only [hout, if_false, Action.modify_apply]
    refine ⟨h₁.addPartition le_rfl (by omega) hfits fun _ => ⟨c, hc, ?_⟩, ⟨rfl, rfl, rfl⟩,
      Nat.le_succ _, le_rfl⟩
    omega

/-- The chain link of an EBR: the end of the walk, a refusal, or a sector of
the container that was not asked for before. -/
theorem feedChain_spec (h : w.Valid sector0 w.nextLogical) (hf : w.Found sector0 4)
    {c : Container} (hc : w.container = some c) (hfive : 5 ≤ w.nextLogical)
    (hle : w.nextLogical ≤ 5 + w.ebrLbas.length) (ebrLba : Nat) (sector : Sector) :
    (feedChain ebrLba c sector).wp w (Arrived sector0 w.deviceSectors w.ebrLbas)
      (fun e _ => ∃ err, e = .err err) := by
  unfold feedChain
  dsimp only
  generalize decodeEntry sector 1 = chain
  split
  · refine Action.wp_mono (finalize_spec h) (fun step w' hw' => ?_) fun e w' hw' => hw'.2
    obtain ⟨-, -, table, rfl, hsafe⟩ := hw'
    exact ⟨w.container, h.containerOf_iff hf, hsafe⟩
  split
  · exact Action.wp_fail ⟨_, rfl⟩
  have hcfit := (h.container c hc).1
  have hdevice := h.device
  have hstop : c.startLba + c.sectors < 2 ^ 64 := by
    have := hcfit.2.2
    omega
  cases hnext : checkedAdd64 c.startLba chain.startLba with
  | none => exact Action.wp_fail ⟨_, rfl⟩
  | some nextLba =>
  unfold Action.wp
  simp only [Action.bind_apply, Action.ofOutcome_apply, checkedAdd_ok hstop]
  by_cases hout : nextLba < c.startLba ∨ c.startLba + c.sectors ≤ nextLba
  · simp only [hout, if_true, Action.fail_apply]
    exact ⟨_, rfl⟩
  simp only [hout, if_false, Action.bind_apply, Action.gets_apply]
  by_cases hseen : nextLba ∈ w.ebrLbas
  · simp only [hseen, if_true, Action.fail_apply]
    exact ⟨_, rfl⟩
  simp only [hseen, if_false, Action.bind_apply, Action.gets_apply]
  by_cases hlong : maxEbrs ≤ w.ebrLbas.length
  · simp only [hlong, if_true, Action.fail_apply]
    exact ⟨_, rfl⟩
  simp only [hlong, if_false, Action.bind_apply, Action.modify_apply, Action.pure_apply]
  have hcov : c.Covers nextLba := by
    simp only [Container.Covers]
    omega
  exact ⟨h.addEbr hc hcov hseen, hf, rfl, rfl, rfl, ⟨hfive, hle⟩, by omega⟩

/-- Feeding the sector that was asked for refuses the table, asks for a new
sector, or ends the walk with a safe table. -/
theorem feed_spec {deviceSectors lba : Nat} {asked : List Nat}
    (h : Waiting sector0 deviceSectors lba asked w) (bytes : List UInt8) :
    (feed bytes).wp w (Arrived sector0 deviceSectors (asked ++ [lba]))
      (fun e _ => ∃ err, e = .err err) := by
  obtain ⟨hvalid, hf, hdevice, hpending, hasked, ⟨hfive, hle⟩, hshort⟩ := h
  simp only [maxEbrs] at hshort
  obtain ⟨c, hc, -⟩ := hvalid.ebr_inside lba (by simp [hasked])
  let w₁ : Walker := { w with pending := none }
  have h₁ : w₁.Valid sector0 w₁.nextLogical := { hvalid with }
  by_cases hlen : bytes.length = sectorSize
  swap
  · have hrun : feed bytes w = (.error (.err (.sectorSize bytes.length)), w₁) := by
      simp only [feed, Action.bind_apply, Action.gets_apply, hpending, Action.modify_apply, hlen,
        dite_false, Action.fail_apply, w₁]
    exact Action.wp_of_error hrun ⟨_, rfl⟩
  by_cases hsig : hasSignature ⟨bytes, hlen⟩ = true
  swap
  · have hrun : feed bytes w = (.error (.err (.ebrMissingSignature lba)), w₁) := by
      simp only [feed, Action.bind_apply, Action.gets_apply, hpending, Action.modify_apply, hlen,
        dite_true, hsig, not_false_eq_true, if_true, Bool.false_eq_true, Action.fail_apply, w₁]
    exact Action.wp_of_error hrun ⟨_, rfl⟩
  have hrun : feed bytes w =
      (feedLogical lba c ⟨bytes, hlen⟩ >>= fun _ => feedChain lba c ⟨bytes, hlen⟩) w₁ := by
    simp only [feed, Action.bind_apply, Action.gets_apply, hpending, Action.modify_apply, hlen,
      dite_true, hsig, not_true_eq_false, if_false, hc, w₁]
  unfold Action.wp
  rw [hrun]
  refine Action.wp_bind (feedLogical_spec h₁ hc hfive (by simp only [w₁]; omega) lba _)
    (fun _ w' hw' => ?_) fun _ _ => id
  obtain ⟨hvalid', ⟨hcontainer, hdevice', hasked'⟩, hgrow, hone⟩ := hw'
  have hlist : w'.ebrLbas = asked ++ [lba] := hasked'.trans hasked
  have hf' : w'.Found sector0 4 := fun h0 i hi hext => hcontainer.trans (hf h0 i hi hext)
  have hchain := feedChain_spec hvalid' hf' (hcontainer.trans hc) (hfive.trans hgrow)
    (by
      simp only [hlist, List.length_append, List.length_singleton]
      simp only [w₁] at hone
      omega) lba ⟨bytes, hlen⟩
  rw [hlist, hdevice'.trans hdevice] at hchain
  exact hchain

/-- A walk: the sectors asked for, how many were fed, and the last step. -/
structure Walk where
  asked : List Nat
  feeds : Nat
  last : Outcome TableError Step

/-- Answer every request from the list of sectors while it lasts. -/
def follow : List (List UInt8) → Outcome TableError Step × Walker → Walk
  | [], (.ok (.need lba), _) => { asked := [lba], feeds := 0, last := .ok (.need lba) }
  | bytes :: fed, (.ok (.need lba), w) =>
    let rest := follow fed (feed bytes w)
    { asked := lba :: rest.asked, feeds := rest.feeds + 1, last := rest.last }
  | _, (last, _) => { asked := [], feeds := 0, last }

/-- The walk of a device: sector 0 first, then the sectors fed to it. -/
def walk (deviceSize : UInt64) (sector0 : List UInt8) (fed : List (List UInt8)) : Walk :=
  follow fed (start sector0 (new deviceSize))

/-- What holds of a walk, given the sectors asked for before it. -/
structure WalkSafe (sector0 : List UInt8) (deviceSectors : Nat) (before : List Nat)
    (fed : List (List UInt8)) (walk : Walk) : Prop where
  /-- At most `maxEbrs` sectors are fed. -/
  bounded : before.length + walk.feeds ≤ maxEbrs
  /-- A walk that is fed for long enough has ended. -/
  ends : maxEbrs ≤ before.length + fed.length → ∀ lba, walk.last ≠ .ok (.need lba)
  /-- It ends in a table or in a typed error. -/
  clean : walk.last.Clean
  nodup : (before ++ walk.asked).Nodup
  inside : ∀ lba ∈ walk.asked, ∃ c, ContainerOf sector0 c ∧ c.Covers lba
  safe : ∀ table, walk.last = .ok (.done table) → ∃ container,
    (∀ c, container = some c ↔ ContainerOf sector0 c) ∧
    TableSafe deviceSectors container (before ++ walk.asked) table

theorem follow_ended {last : Outcome TableError Step} (hlast : ∀ lba, last ≠ .ok (.need lba))
    (fed : List (List UInt8)) (w : Walker) :
    follow fed (last, w) = { asked := [], feeds := 0, last } := by
  unfold follow
  split
  · next lba _ heq => exact absurd (congrArg Prod.fst heq) (hlast lba)
  · next lba _ heq => exact absurd (congrArg Prod.fst heq) (hlast lba)
  · next heq =>
    cases heq
    rfl

/-- What a step of the walk must satisfy for the rest to be safe. -/
def StepSafe (sector0 : List UInt8) (deviceSectors : Nat) (before : List Nat)
    (o : Outcome TableError Step × Walker) : Prop :=
  match o.1 with
  | .ok step => Arrived sector0 deviceSectors before step o.2
  | .error e => ∃ err, e = .err err

theorem stepSafe_of_wp {deviceSectors : Nat} {before : List Nat}
    {m : Action Walker TableError Step} {w : Walker}
    (h : m.wp w (Arrived sector0 deviceSectors before) (fun e _ => ∃ err, e = .err err)) :
    StepSafe sector0 deviceSectors before (m w) := by
  unfold Action.wp at h
  unfold StepSafe
  rcases hm : m w with ⟨e | step, w'⟩
  · rw [hm] at h
    exact h
  · rw [hm] at h
    exact h

theorem follow_safe_ended {deviceSectors : Nat} {before : List Nat}
    {o : Outcome TableError Step × Walker} (hlast : ∀ lba, o.1 ≠ .ok (.need lba))
    (hbefore : before.Nodup) (hlen : before.length ≤ maxEbrs)
    (h : StepSafe sector0 deviceSectors before o) (fed : List (List UInt8)) :
    WalkSafe sector0 deviceSectors before fed (follow fed o) := by
  obtain ⟨last, w⟩ := o
  rw [follow_ended hlast]
  cases last with
  | error e =>
    obtain ⟨err, rfl⟩ := h
    exact ⟨hlen, by simp, trivial, by simpa using hbefore, by simp, by simp⟩
  | ok step =>
  cases step with
  | need lba => exact absurd rfl (hlast lba)
  | done table =>
    refine ⟨hlen, by simp, trivial, by simpa using hbefore, by simp, fun table' heq => ?_⟩
    cases heq
    simpa [StepSafe, Arrived] using h

theorem follow_safe {deviceSectors : Nat} (fed : List (List UInt8)) (before : List Nat)
    (o : Outcome TableError Step × Walker) (hbefore : before.Nodup)
    (hlen : before.length ≤ maxEbrs) (h : StepSafe sector0 deviceSectors before o) :
    WalkSafe sector0 deviceSectors before fed (follow fed o) := by
  induction fed generalizing before o with
  | nil =>
    by_cases hlast : ∀ lba, o.1 ≠ .ok (.need lba)
    · exact follow_safe_ended hlast hbefore hlen h []
    obtain ⟨last, w⟩ := o
    simp only [not_forall, not_not] at hlast
    obtain ⟨lba, rfl⟩ := hlast
    have hwait : Waiting sector0 deviceSectors lba before w := h
    have hshort := hwait.short
    refine ⟨hlen, fun hle => ?_, trivial, hwait.nodup, ?_, fun table heq => by cases heq⟩
    · simp only [List.length_nil] at hle
      omega
    · simpa [follow] using hwait.inside
  | cons bytes fed ih =>
    by_cases hlast : ∀ lba, o.1 ≠ .ok (.need lba)
    · exact follow_safe_ended hlast hbefore hlen h (bytes :: fed)
    obtain ⟨last, w⟩ := o
    simp only [not_forall, not_not] at hlast
    obtain ⟨lba, rfl⟩ := hlast
    have hwait : Waiting sector0 deviceSectors lba before w := h
    have hshort := hwait.short
    have hlen' : (before ++ [lba]).length ≤ maxEbrs := by
      simp only [List.length_append, List.length_singleton]
      omega
    obtain ⟨hbounded, hends, hclean, hnodup, hinside, hsafe⟩ :=
      ih (before ++ [lba]) (feed bytes w) hwait.nodup hlen'
        (stepSafe_of_wp (feed_spec hwait bytes))
    simp only [List.length_append, List.length_singleton, List.append_assoc,
      List.singleton_append] at hbounded hends hnodup hsafe
    refine ⟨?_, fun hle => hends ?_, hclean, hnodup, fun x hx => ?_, hsafe⟩
    · simp only [follow]
      omega
    · simp only [List.length_cons] at hle
      omega
    · rcases List.mem_cons.mp hx with rfl | hx
      · exact hwait.inside
      · exact hinside x hx

theorem walk_safe (deviceSize : UInt64) (sector0 : List UInt8) (fed : List (List UInt8)) :
    WalkSafe sector0 (deviceSize.toNat / sectorSize) [] fed (walk deviceSize sector0 fed) :=
  follow_safe fed [] _ List.nodup_nil (Nat.zero_le _)
    (stepSafe_of_wp (start_spec sector0 deviceSize))

end Walker

end Eo9.Partwalk
