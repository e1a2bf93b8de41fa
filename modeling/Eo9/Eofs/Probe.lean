import Eo9.Eofs.Hostile

/-!
# Probing a device

`probe` looks at a device without mounting it. Its election of a slot is written apart from the
one of a mount; the two are compared slot by slot, so that a device whose probe is blank,
foreign or unmountable does not mount.
-/

namespace Eo9.Eofs

open Eo9.Library Outcome

/-- What a probe found on a device. -/
inductive ImageState where
  | eofs (txg : Nat) (degraded : Bool)
  | blank
  | foreign
  | unmountable
  deriving DecidableEq

/-- How many leading bytes of a device count for a blank one. -/
def PROBE_ZERO_PREFIX : Nat := 1024 * 1024

/-- How many trailing bytes of a device count for a blank one. -/
def PROBE_ZERO_SUFFIX : Nat := 64 * 1024

/-- Up to this size the whole device counts. -/
def PROBE_WHOLE_DEVICE_BELOW : Nat := 2 * 1024 * 1024

variable {D : Type} [Primitives] [BlockDevice D]

/-- What a probe has seen of the slots so far. -/
structure Survey where
  best : Option Nat
  anyInvalid : Bool
  anyMagic : Bool

def Survey.visit (s : Survey) (slot : List UInt8) : Outcome FsError Survey :=
  match Uberblock.classifySlot slot with
  | .ok (.valid ub) =>
    match s.best with
    | none => .ok { s with best := some ub.txg, anyMagic := true }
    | some txg =>
      if txg < ub.txg then .ok { s with best := some ub.txg, anyMagic := true }
      else .ok { s with anyMagic := true }
  | .ok .invalid => .ok { s with anyMagic := true, anyInvalid := true }
  | .ok .noMagic => .ok s
  -- a valid checksum over unsupported contents is still an eofs image
  | .error (.err _) => .ok { s with anyMagic := true, anyInvalid := true }
  | .error (.panic site) => .error (.panic site)
  | .error .diverge => .error .diverge

/-- Both slots, in order; one that does not fit on the device is passed over. -/
def survey (dev : D) : Outcome FsError Survey :=
  [0, 1].foldlM (fun s i =>
    if BlockDevice.size dev < slotOffset i + SLOT_SIZE then .ok s
    else do
      let slot ← ofDevice (BlockDevice.readAt dev (slotOffset i) SLOT_SIZE)
      s.visit slot) ⟨none, false, false⟩

/-- The spans that a blank device has no byte in. -/
def probedSpans (size : Nat) : List (Nat × Nat) :=
  if size ≤ PROBE_WHOLE_DEVICE_BELOW then [(0, size), (0, 0)]
  else [(0, PROBE_ZERO_PREFIX), (size - PROBE_ZERO_SUFFIX, size)]

/-- Whether the bytes from `offset` up to `stop` are zero, read in chunks. A round reads a byte,
so a fuel of one more than the bytes is enough. -/
def zeroUpTo (dev : D) (stop : Nat) : Nat → Nat → Outcome FsError Bool
  | 0, _ => .error .diverge
  | fuel + 1, offset =>
    if offset < stop then do
      let len := min 4096 (stop - offset)
      let chunk ← ofDevice (BlockDevice.readAt dev offset len)
      if chunk.any (· ≠ 0) then .ok false else zeroUpTo dev stop fuel (offset + len)
    else .ok true

/-- Whether the spans are zero; the first one that is not decides. -/
def zeroSpans (dev : D) : List (Nat × Nat) → Outcome FsError Bool
  | [] => .ok true
  | span :: spans => do
      let zero ← zeroUpTo dev span.2 (span.2 - span.1 + 1) span.1
      if zero then zeroSpans dev spans else .ok false

/-- Inspect a device without mounting it. -/
def probe (dev : D) : Outcome FsError ImageState := do
  let s ← survey dev
  match s.best with
  | some txg => .ok (.eofs txg s.anyInvalid)
  | none =>
    if s.anyMagic then .ok .unmountable
    else do
      let zero ← zeroSpans dev (probedSpans (BlockDevice.size dev))
      .ok (if zero then .blank else .foreign)

/-- The two elections have seen the same. -/
structure Survey.Matches (s : Survey) (e : AsyncEofs.Election) : Prop where
  best : s.best = e.best.map Uberblock.txg
  anyInvalid : s.anyInvalid = e.fellBack
  anyMagic : s.anyMagic = (e.best.isSome || e.fellBack)

/-- One slot of both elections. -/
theorem Survey.Matches.visit {s : Survey} {e e' : AsyncEofs.Election} (h : s.Matches e)
    {slot : List UInt8} (hvisit : e.visit slot = .ok e') :
    ∃ s', s.visit slot = .ok s' ∧ s'.Matches e' := by
  obtain ⟨hbest, hinvalid, hmagic⟩ := h
  unfold AsyncEofs.Election.visit at hvisit
  unfold Survey.visit
  cases hslot : Uberblock.classifySlot slot with
  | error stop =>
    rw [hslot] at hvisit
    cases stop with
    | err x =>
      obtain rfl := Except.ok.inj hvisit
      exact ⟨_, rfl, hbest, rfl, (Bool.or_true _).symm⟩
    | panic site => exact absurd hvisit nofun
    | diverge => exact absurd hvisit nofun
  | ok state =>
    rw [hslot] at hvisit
    cases state with
    | noMagic =>
      obtain rfl := Except.ok.inj hvisit
      exact ⟨_, rfl, hbest, hinvalid, hmagic⟩
    | invalid =>
      obtain rfl := Except.ok.inj hvisit
      exact ⟨_, rfl, hbest, rfl, (Bool.or_true _).symm⟩
    | valid ub =>
      dsimp only at hvisit ⊢
      cases hwinner : e.best with
      | none =>
        rw [hwinner] at hvisit hbest
        obtain rfl := Except.ok.inj hvisit
        rw [hbest]
        exact ⟨_, rfl, rfl, hinvalid, rfl⟩
      | some b =>
        rw [hwinner] at hvisit hbest
        rw [hbest]
        dsimp only [Option.map_some] at hvisit ⊢
        split at hvisit
        case isTrue hlt =>
          obtain rfl := Except.ok.inj hvisit
          exact ⟨_, if_pos hlt, rfl, hinvalid, rfl⟩
        case isFalse hle =>
          obtain rfl := Except.ok.inj hvisit
          exact ⟨_, if_neg hle, by rw [hwinner]; rfl, hinvalid, by rw [hwinner]; rfl⟩

/-- On a device with room for both slots a probe sees what a mount sees. -/
theorem survey_matches {dev : D} (hsize : DATA_START ≤ BlockDevice.size dev)
    {e : AsyncEofs.Election} (helect : AsyncEofs.elect dev = .ok e) :
    ∃ s, survey dev = .ok s ∧ s.Matches e := by
  have hdata : DATA_START = 8192 := rfl
  have hslot : SLOT_SIZE = 4096 := rfl
  have hfits : ∀ i < 2, ¬ BlockDevice.size dev < slotOffset i + SLOT_SIZE := by
    intro i hi
    rw [slotOffset, hslot]
    omega
  unfold AsyncEofs.elect at helect
  rw [List.foldlM_cons, bind_assoc] at helect
  obtain ⟨slot₀, hread₀, helect⟩ := bind_eq_ok.mp helect
  obtain ⟨e₀, hvisit₀, helect⟩ := bind_eq_ok.mp helect
  rw [List.foldlM_cons, bind_assoc] at helect
  obtain ⟨slot₁, hread₁, helect⟩ := bind_eq_ok.mp helect
  obtain ⟨e₁, hvisit₁, helect⟩ := bind_eq_ok.mp helect
  obtain rfl := Except.ok.inj helect
  have hstart : (⟨none, false, false⟩ : Survey).Matches ⟨none, none, false⟩ := ⟨rfl, rfl, rfl⟩
  obtain ⟨s₀, hsurvey₀, hmatches₀⟩ := hstart.visit hvisit₀
  obtain ⟨s₁, hsurvey₁, hmatches₁⟩ := hmatches₀.visit hvisit₁
  refine ⟨s₁, ?_, hmatches₁⟩
  rw [survey, List.foldlM_cons, if_neg (hfits 0 (by omega)), hread₀, ok_bind, hsurvey₀, ok_bind,
    List.foldlM_cons, if_neg (hfits 1 (by omega)), hread₁, ok_bind, hsurvey₁, ok_bind]
  rfl

/-- A device that mounts is probed as what it mounts as. -/
theorem probe_of_mountWithReport {dev : D} {fs : AsyncEofs D} {report : MountReport}
    (h : AsyncEofs.mountWithReport dev = .ok (fs, report)) :
    probe dev = .ok (.eofs report.txg report.fellBackPastInvalidSlot) := by
  obtain ⟨hsize, e, ub, helect, hbest, -, -, rfl⟩ := AsyncEofs.mountWithReport_eq_ok_iff.mp h
  obtain ⟨s, hsurvey, hmatches⟩ := survey_matches hsize helect
  rw [probe, hsurvey, ok_bind, hmatches.best, hbest, hmatches.anyInvalid]
  rfl

/-- A mount that fails, fails with a typed error. -/
theorem clean_mountWithReport (dev : D) : Clean (AsyncEofs.mountWithReport dev) := by
  have hvisit : ∀ (e : AsyncEofs.Election) slot, Clean (e.visit slot) := by
    intro e slot
    have hclean := Uberblock.clean_classifySlot slot
    unfold AsyncEofs.Election.visit
    cases hslot : Uberblock.classifySlot slot with
    | error stop =>
      rw [hslot] at hclean
      cases stop with
      | err x => exact clean_ok _
      | panic site => exact hclean
      | diverge => exact hclean
    | ok state =>
      cases state with
      | noMagic => exact clean_ok _
      | invalid => exact clean_ok _
      | valid ub =>
        dsimp only
        split
        · exact clean_ok _
        · split <;> exact clean_ok _
  unfold AsyncEofs.mountWithReport
  split
  case isTrue => exact clean_err _
  case isFalse =>
    refine clean_bind.mpr ⟨?_, fun e _ => ?_⟩
    · refine clean_foldlM_iff.mpr fun done i rest e _ _ => ?_
      exact clean_bind.mpr ⟨AsyncEofs.clean_ofDevice _, fun slot _ => hvisit e slot⟩
    · split
      case h_1 => exact clean_err _
      case h_2 ub _ =>
        split
        · exact clean_err _
        · split
          · exact clean_err _
          · split
            · exact clean_err _
            · exact clean_ok _

/-- A byte in the spans of a probe. -/
def Probed (size a : Nat) : Prop :=
  a < size ∧ (size ≤ PROBE_WHOLE_DEVICE_BELOW ∨ a < PROBE_ZERO_PREFIX ∨
    size - PROBE_ZERO_SUFFIX ≤ a)

variable [LawfulDevice D]

omit [Primitives] in
/-- The scan of a span ends, and says whether the span is zero. -/
theorem zeroUpTo_eq {dev : D} {stop : Nat} (hstop : stop ≤ BlockDevice.size dev) (fuel : Nat)
    (offset : Nat) (hfuel : stop - offset < fuel) :
    ∃ zero, zeroUpTo dev stop fuel offset = .ok zero ∧
      (zero = true ↔ ∀ a, offset ≤ a → a < stop → LawfulDevice.byte dev a = 0) := by
  induction fuel generalizing offset with
  | zero => omega
  | succ fuel ih =>
    rw [zeroUpTo]
    split
    case isTrue hlt =>
      have hread := LawfulDevice.readAt_eq dev offset (min 4096 (stop - offset)) (by omega)
      dsimp only
      rw [hread, ofDevice, ok_bind]
      split
      case isTrue hany =>
        refine ⟨false, rfl, iff_of_false Bool.false_ne_true fun hzero => ?_⟩
        obtain ⟨byte, hbyte, hne⟩ := List.any_eq_true.mp hany
        obtain ⟨i, hi, rfl⟩ := List.mem_map.mp hbyte
        have hlen := List.mem_range.mp hi
        exact of_decide_eq_true hne (hzero (offset + i) (by omega) (by omega))
      case isFalse hnone =>
        obtain ⟨zero, hrest, hiff⟩ := ih (offset + min 4096 (stop - offset)) (by omega)
        refine ⟨zero, hrest, hiff.trans ⟨fun hzero a hle hlt => ?_, fun hzero a hle hlt => ?_⟩⟩
        · by_cases hchunk : a < offset + min 4096 (stop - offset)
          · by_contra hne
            refine hnone (List.any_eq_true.mpr ⟨_, ?_, decide_eq_true hne⟩)
            refine List.mem_map.mpr ⟨a - offset, List.mem_range.mpr (by omega), ?_⟩
            rw [Nat.add_sub_cancel' hle]
          · exact hzero a (by omega) hlt
        · exact hzero a (by omega) hlt
    case isFalse hge =>
      exact ⟨true, rfl, iff_of_true rfl fun a hle hlt => absurd hlt (by omega)⟩

omit [Primitives] in
theorem zeroSpans_eq (dev : D) (spans : List (Nat × Nat))
    (hspans : ∀ span ∈ spans, span.2 ≤ BlockDevice.size dev) :
    ∃ zero, zeroSpans dev spans = .ok zero ∧
      (zero = true ↔ ∀ span ∈ spans, ∀ a, span.1 ≤ a → a < span.2 →
        LawfulDevice.byte dev a = 0) := by
  induction spans with
  | nil => exact ⟨true, rfl, by simp⟩
  | cons span spans ih =>
    have hspan := hspans span List.mem_cons_self
    obtain ⟨first, hfirst, hiff⟩ := zeroUpTo_eq hspan (span.2 - span.1 + 1) span.1
      (Nat.lt_succ_self _)
    obtain ⟨rest, hrest, hiff'⟩ := ih fun span' h => hspans span' (List.mem_cons_of_mem _ h)
    rw [zeroSpans, hfirst, ok_bind]
    cases first with
    | true =>
      refine ⟨rest, by rw [if_pos rfl, hrest], ?_⟩
      rw [List.forall_mem_cons, ← hiff', ← hiff]
      exact (and_iff_right rfl).symm
    | false =>
      refine ⟨false, if_neg Bool.false_ne_true, ?_⟩
      rw [List.forall_mem_cons, ← hiff]
      exact iff_of_false Bool.false_ne_true fun h => Bool.false_ne_true h.1

omit [Primitives] in
/-- The scan of a probe says whether the probed bytes are zero. -/
theorem zeroSpans_probed (dev : D) :
    ∃ zero, zeroSpans dev (probedSpans (BlockDevice.size dev)) = .ok zero ∧
      (zero = true ↔ ∀ a, Probed (BlockDevice.size dev) a → LawfulDevice.byte dev a = 0) := by
  have hprefix : PROBE_ZERO_PREFIX = 2 ^ 20 := rfl
  have hwhole : PROBE_WHOLE_DEVICE_BELOW = 2 ^ 21 := rfl
  by_cases hsmall : BlockDevice.size dev ≤ PROBE_WHOLE_DEVICE_BELOW
  · obtain ⟨zero, hzero, hiff⟩ := zeroSpans_eq dev
      [(0, BlockDevice.size dev), (0, 0)] (by simp)
    refine ⟨zero, by rw [probedSpans, if_pos hsmall, hzero], hiff.trans ?_⟩
    simp [Probed, hsmall]
  · obtain ⟨zero, hzero, hiff⟩ := zeroSpans_eq dev
      [(0, PROBE_ZERO_PREFIX),
        (BlockDevice.size dev - PROBE_ZERO_SUFFIX, BlockDevice.size dev)]
      (by simp; omega)
    refine ⟨zero, by rw [probedSpans, if_neg hsmall, hzero], hiff.trans ?_⟩
    simp only [List.forall_mem_cons, Probed, hsmall, false_or]
    constructor
    · rintro ⟨hfirst, hlast, -⟩ a ⟨hlt, hlow | hhigh⟩
      · exact hfirst a (Nat.zero_le a) hlow
      · exact hlast a hhigh hlt
    · intro h
      refine ⟨fun a _ hlt => h a ⟨by omega, .inl hlt⟩, fun a hle hlt => h a ⟨hlt, .inr hle⟩, ?_⟩
      exact fun _ hin => absurd hin List.not_mem_nil

/-- A device that probes blank has no byte in the probed spans. -/
theorem zero_of_probe_blank {dev : D} (h : probe dev = .ok .blank) {a : Nat}
    (ha : Probed (BlockDevice.size dev) a) : LawfulDevice.byte dev a = 0 := by
  obtain ⟨zero, hzero, hiff⟩ := zeroSpans_probed dev
  obtain ⟨s, -, h⟩ := bind_eq_ok.mp h
  split at h
  case h_1 => exact absurd (Except.ok.inj h) nofun
  case h_2 =>
    split at h
    case isTrue => exact absurd (Except.ok.inj h) nofun
    case isFalse =>
      rw [hzero, ok_bind] at h
      cases zero with
      | true => exact hiff.mp rfl a ha
      | false => exact absurd (Except.ok.inj h) nofun

omit [Primitives] in
theorem noMagic_of_zero {dev : D} {i : Nat} (hi : i < 2)
    (hroom : slotOffset i + 8 ≤ BlockDevice.size dev)
    (hzero : ∀ a, Probed (BlockDevice.size dev) a → LawfulDevice.byte dev a = 0) :
    slice (LawfulDevice.byte dev) (slotOffset i) 8 ≠ MAGIC := by
  have hslot : slotOffset i < 8192 := by
    have : SLOT_SIZE = 4096 := rfl
    rw [slotOffset, this]
    omega
  have hprobed : Probed (BlockDevice.size dev) (slotOffset i) := by
    have : PROBE_ZERO_PREFIX = 2 ^ 20 := rfl
    exact ⟨by omega, .inr (.inl (by omega))⟩
  intro heq
  have hfirst := congrArg (·[0]?) heq
  rw [getElem?_slice (by omega), Nat.add_zero, hzero _ hprobed] at hfirst
  exact absurd hfirst (by decide)

/-- What mounts is probed as what it mounts as; what is probed as no mountable eofs does not
mount; and a blank device has no magic and no byte in the probed spans. -/
theorem probe_agrees (dev : D) :
    (∀ fs report, AsyncEofs.mountWithReport dev = .ok (fs, report) →
      probe dev = .ok (.eofs report.txg report.fellBackPastInvalidSlot)) ∧
    (∀ state, probe dev = .ok state → (∀ txg degraded, state ≠ .eofs txg degraded) →
      ∃ e, AsyncEofs.mountWithReport dev = .error (.err e)) ∧
    (probe dev = .ok .blank →
      (∀ i < 2, slotOffset i + 8 ≤ BlockDevice.size dev →
        slice (LawfulDevice.byte dev) (slotOffset i) 8 ≠ MAGIC) ∧
      ∀ a, Probed (BlockDevice.size dev) a → LawfulDevice.byte dev a = 0) := by
  refine ⟨fun fs report h => probe_of_mountWithReport h, fun state hprobe hstate => ?_, fun h => ?_⟩
  · cases hmount : AsyncEofs.mountWithReport dev with
    | ok mounted =>
      have hagain := probe_of_mountWithReport hmount
      rw [hprobe] at hagain
      exact absurd (Except.ok.inj hagain) (hstate _ _)
    | error stop =>
      have hclean := clean_mountWithReport dev
      rw [hmount] at hclean
      cases stop with
      | err e => exact ⟨e, rfl⟩
      | panic site => exact absurd hclean id
      | diverge => exact absurd hclean id
  · have hzero := fun a => zero_of_probe_blank h (a := a)
    exact ⟨fun i hi hroom => noMagic_of_zero hi hroom hzero, hzero⟩

omit [Primitives] [BlockDevice D] [LawfulDevice D] in
/-- The image with one short block probes as it mounts, and a small blank device does not
mount. -/
theorem probe_agrees_shortDevice :
    letI := plainBlake3
    (∃ txg degraded, probe AsyncEofs.shortDevice = .ok (.eofs txg degraded)) ∧
      ∃ e, AsyncEofs.mountWithReport (MemDevice.new 64) = .error (.err e) := by
  let _ := plainBlake3
  obtain ⟨⟨fs, report⟩, hmount, -⟩ := bind_eq_ok.mp AsyncEofs.mount_shortDevice
  refine ⟨⟨_, _, (probe_agrees AsyncEofs.shortDevice).1 fs report hmount⟩, ?_⟩
  exact (probe_agrees (MemDevice.new 64)).2.1 .blank (by decide +kernel) nofun

end Eo9.Eofs
