import Eo9.Sectors.ByteDisk
import Eo9.StoreDisk.Transfers

/-!
# The store disk under its own errors

In every run in which no call reaches the device while the driver's indices differ, each call that
returns has acted on its own range, each completion is taken for its own request, and the device
stores nothing but what the requests supplied.
-/

namespace Eo9.StoreDisk

open Eo9.Library Sectors

variable {w : World} {cursor fuel sector sectors : ℕ}

open Action in
theorem wp_readSectors (h : Quiet w) (hin : (sector + sectors) * SECTOR ≤ w.medium.length)
    (hfits : sectors * SECTOR ≤ DATA_BYTES) :
    wp (transfer false sector sectors none) w
      (fun v w' => Quiet w' ∧ w'.medium = w.medium ∧
        v = some (sub w.medium (sector * SECTOR) (sectors * SECTOR))) Ends :=
  wp_mono (wp_transfer h hin hfits rfl) (fun _ _ hpost => ⟨hpost.1, hpost.2.2, hpost.2.1⟩)
    fun _ _ => id

open Action in
theorem wp_writeSectors (h : Quiet w) {bytes : Bytes}
    (hin : (sector + sectors) * SECTOR ≤ w.medium.length)
    (hfits : sectors * SECTOR ≤ DATA_BYTES) (hbytes : bytes.length = sectors * SECTOR) :
    wp (transfer true sector sectors (some bytes)) w
      (fun _ w' => Quiet w' ∧ w'.medium = copyInto w.medium (sector * SECTOR) bytes) Ends :=
  wp_mono (wp_transfer h hin hfits ⟨bytes, rfl, hbytes⟩)
    (fun _ _ hpost => ⟨hpost.1, hpost.2.2⟩) fun _ _ => id

open Action in
/-- The read loop fills the buffer with the range. -/
theorem wp_readLoop (h : Quiet w) {filled : ℕ} {buf : Bytes} (hfilled : filled ≤ buf.length)
    (hdvd : SECTOR ∣ w.medium.length) (hin : cursor + (buf.length - filled) ≤ w.medium.length)
    (hfuel : buf.length - filled < fuel) :
    wp (readLoop fuel cursor filled buf) w
      (fun v w' => Quiet w' ∧ w'.medium = w.medium ∧
        v = copyInto buf filled (sub w.medium cursor (buf.length - filled))) Ends := by
  induction fuel generalizing cursor filled buf w with
  | zero => omega
  | succ fuel ih =>
    rw [readLoop]
    by_cases hdone : buf.length ≤ filled
    · rw [if_pos hdone]
      apply wp_pure
      refine ⟨h, rfl, ?_⟩
      rw [Nat.sub_eq_zero_of_le hdone, sub_empty, copyInto_nil]
    rw [if_neg hdone]
    dsimp only
    have hwithin : cursor % SECTOR < SECTOR := Nat.mod_lt _ (by decide)
    have hblock : cursor / SECTOR * SECTOR + cursor % SECTOR = cursor := Nat.div_add_mod' _ _
    have hcovering := covering_inside (show 0 < SECTOR by decide) hdvd hin
    have hceil : cursor % SECTOR + (buf.length - filled) ≤
        divCeil (cursor % SECTOR + (buf.length - filled)) SECTOR * SECTOR :=
      le_divCeil_mul _ (by decide)
    have hpos : 0 < divCeil (cursor % SECTOR + (buf.length - filled)) SECTOR :=
      divCeil_pos (by decide) (by omega)
    generalize divCeil (cursor % SECTOR + (buf.length - filled)) SECTOR = covering
      at hcovering hceil hpos ⊢
    have hbuffer : DATA_BYTES / SECTOR = 128 := by decide
    have hsector : SECTOR = 512 := rfl
    have hbytes : DATA_BYTES = 65536 := rfl
    generalize hwant : min covering (DATA_BYTES / SECTOR) = want
    have hspan : (cursor / SECTOR + want) * SECTOR ≤ w.medium.length :=
      Nat.le_trans (Nat.mul_le_mul_right _ (by omega)) hcovering
    have hlen : (sub w.medium (cursor / SECTOR * SECTOR) (want * SECTOR)).length =
        want * SECTOR := by
      rw [Nat.add_mul] at hspan
      exact length_sub hspan
    have hmul : want * SECTOR = want * 512 := rfl
    have hmul' : covering * SECTOR = covering * 512 := rfl
    apply wp_bind (wp_readSectors h hspan (by omega)) ?_ fun _ _ => id
    rintro _ w₁ ⟨h₁, hmedium, rfl⟩
    rw [Option.getD_some, hlen]
    apply wp_ofOutcome_bind (checkedSub_ok (by omega))
    generalize htake : min (want * SECTOR - cursor % SECTOR) (buf.length - filled) = take
    have hcovers : cursor % SECTOR + take ≤ want * SECTOR := by omega
    have hrange : (rangeOf (sub w.medium (cursor / SECTOR * SECTOR) (want * SECTOR))
        (cursor % SECTOR) (cursor % SECTOR + take) : Outcome String Bytes) =
          .ok (sub w.medium cursor take) := by
      rw [rangeOf_ok (by omega) (by omega), Nat.add_sub_cancel_left, sub_of_sub hcovers, hblock]
    apply wp_ofOutcome_bind hrange
    have hpiece : (sub w.medium cursor take).length = take := length_sub (by omega)
    have hbuf : (copyInto buf filled (sub w.medium cursor take)).length = buf.length :=
      length_copyInto (by omega)
    apply wp_mono (ih h₁ (by omega) (hmedium ▸ hdvd) (by rw [hmedium, hbuf]; omega)
      (by rw [hbuf]; omega)) ?_ fun _ _ => id
    rintro v w' ⟨h', hmedium', rfl⟩
    refine ⟨h', hmedium'.trans hmedium, ?_⟩
    have hrest : buf.length - filled = take + (buf.length - (filled + take)) := by omega
    have hsub : (sub w.medium (cursor + take) (buf.length - (filled + take))).length =
        buf.length - (filled + take) := length_sub (by omega)
    have happend : copyInto (copyInto buf filled (sub w.medium cursor take))
        (filled + (sub w.medium cursor take).length)
        (sub w.medium (cursor + take) (buf.length - (filled + take))) =
          copyInto buf filled (sub w.medium cursor take ++
            sub w.medium (cursor + take) (buf.length - (filled + take))) :=
      copyInto_append (by omega)
    rw [hpiece] at happend
    rw [hbuf, hmedium, happend, ← sub_split, ← hrest]

/-- A list put over one of its length. -/
theorem copyInto_whole {l xs : Bytes} (h : xs.length = l.length) : copyInto l 0 xs = xs := by
  rw [copyInto, List.take_zero, List.nil_append, List.drop_eq_nil_of_le (by omega),
    List.append_nil]

open Action in
/-- The sectors under a piece, ready for it. -/
theorem wp_edges (h : Quiet w) {take : ℕ} (hin : (sector + sectors) * SECTOR ≤ w.medium.length)
    (hfits : sectors * SECTOR ≤ DATA_BYTES) {within : ℕ} (hcovers : within + take ≤ sectors * SECTOR) :
    wp (edges sector sectors within take) w
      (fun block w' => Quiet w' ∧ w'.medium = w.medium ∧ block.length = sectors * SECTOR ∧
        ∀ piece : Bytes, piece.length = take →
          copyInto w.medium (sector * SECTOR) (copyInto block within piece) =
            copyInto w.medium (sector * SECTOR + within) piece) Ends := by
  have hspan := hin
  rw [Nat.add_mul] at hspan
  rw [edges]
  by_cases hedge : within ≠ 0 ∨ take ≠ sectors * SECTOR
  · rw [if_pos hedge]
    apply wp_bind (wp_readSectors h hin hfits) ?_ fun _ _ => id
    rintro _ w₁ ⟨h₁, hmedium, rfl⟩
    apply wp_pure
    refine ⟨h₁, hmedium, length_sub hspan, fun piece hpiece => ?_⟩
    exact copyInto_copyInto_sub hspan (by omega)
  · rw [if_neg hedge]
    apply wp_pure
    refine ⟨h, rfl, List.length_replicate, fun piece hpiece => ?_⟩
    have hzero : within = 0 := by omega
    rw [hzero, copyInto_whole (by rw [List.length_replicate]; omega), Nat.add_zero]

open Action in
/-- The write loop changes exactly the range. -/
theorem wp_writeLoop (h : Quiet w) {data : Bytes} {consumed : ℕ}
    (hdvd : SECTOR ∣ w.medium.length) (hin : cursor + (data.length - consumed) ≤ w.medium.length)
    (hfuel : data.length - consumed < fuel) :
    wp (writeLoop data fuel cursor consumed) w
      (fun _ w' => Quiet w' ∧ w'.medium = copyInto w.medium cursor (data.drop consumed)) Ends := by
  induction fuel generalizing cursor consumed w with
  | zero => omega
  | succ fuel ih =>
    rw [writeLoop]
    by_cases hdone : data.length ≤ consumed
    · rw [if_pos hdone]
      apply wp_pure
      refine ⟨h, ?_⟩
      rw [List.drop_eq_nil_of_le hdone, copyInto_nil]
    rw [if_neg hdone]
    dsimp only
    have hwithin : cursor % SECTOR < 512 := Nat.mod_lt _ (by decide)
    have hblock : cursor / SECTOR * SECTOR + cursor % SECTOR = cursor := Nat.div_add_mod' _ _
    have hbytes : DATA_BYTES = 65536 := rfl
    apply wp_ofOutcome_bind (checkedSub_ok (by omega))
    generalize htake : min (data.length - consumed) (DATA_BYTES - cursor % SECTOR) = take
    have hspan : (cursor / SECTOR + divCeil (cursor % SECTOR + take) SECTOR) * SECTOR ≤
        w.medium.length := covering_inside (by decide) hdvd (by omega)
    have hcovers : cursor % SECTOR + take ≤ divCeil (cursor % SECTOR + take) SECTOR * SECTOR :=
      le_divCeil_mul _ (by decide)
    have hfits : divCeil (cursor % SECTOR + take) SECTOR * SECTOR ≤ DATA_BYTES :=
      calc divCeil (cursor % SECTOR + take) SECTOR * SECTOR
          ≤ divCeil DATA_BYTES SECTOR * SECTOR :=
            Nat.mul_le_mul_right _ (divCeil_mono (by decide) (by omega))
        _ = DATA_BYTES := by decide
    apply wp_bind (wp_edges h hspan hfits hcovers) ?_ fun _ _ => id
    rintro block w₁ ⟨h₁, hmedium₁, hlen, hcopy⟩
    have hpiece : (sub data consumed take).length = take := length_sub (by omega)
    have hblocklen : (copyInto block (cursor % SECTOR) (sub data consumed take)).length =
        block.length := length_copyInto (by omega)
    apply wp_ofOutcome_bind (rangeOf_ok (by omega) (by omega))
    apply wp_ofOutcome_bind (rangeOf_ok (by omega) (by omega))
    rw [Nat.add_sub_cancel_left]
    apply wp_bind (wp_writeSectors h₁ (hmedium₁ ▸ hspan) hfits (hblocklen.trans hlen)) ?_
      fun _ _ => id
    rintro _ w₂ ⟨h₂, hmedium₂⟩
    have hstored : w₂.medium = copyInto w.medium cursor (sub data consumed take) := by
      rw [hmedium₂, hmedium₁, hcopy _ hpiece, hblock]
    have hsize : w₂.medium.length = w.medium.length := by
      rw [hstored, length_copyInto (by omega)]
    apply wp_mono (ih h₂ (hsize ▸ hdvd) (by omega) (by omega)) ?_ fun _ _ => id
    rintro _ w' ⟨h', hmedium'⟩
    refine ⟨h', ?_⟩
    have hsplit : sub data consumed take ++ data.drop (consumed + take) = data.drop consumed := by
      rw [sub, ← List.drop_drop, List.take_append_drop]
    have hend : cursor + (sub data consumed take).length + (data.drop (consumed + take)).length ≤
        w.medium.length := by
      rw [hpiece, List.length_drop]
      omega
    rw [hmedium', hstored, ← hsplit, ← copyInto_append hend, hpiece]

/-- A call of `read_bytes` or `write_bytes`. -/
def access : Access → Call Bytes
  | .read offset len => readBytes offset (List.replicate len 0)
  | .write offset bytes => do
      writeBytes offset bytes
      pure []

/-- Two parties take steps: the filesystem calls, or the device has its turn between calls. -/
inductive Event where
  | call (a : Access)
  | pass

/-- The state behind an event. -/
def Event.after (w : World) : Event → World
  | .call a => (access a w).2
  | .pass => ((turn : Call Bool) w).2

/-- A call that returned has acted on its own range of the medium and on nothing else. -/
def Acted (w : World) (a : Access) : Prop :=
  ∀ bytes, (access a w).1 = .ok bytes →
    a.plain (ε := String) w.medium = (.ok bytes, (access a w).2.medium)

/-- In every state of the run the books are honest, and every call that returned has acted. -/
def Survives : World → List Event → Prop
  | w, [] => Honest w
  | w, e :: events => Honest w ∧ (∀ a, e = .call a → Acted w a) ∧ Survives (e.after w) events

/-- A call that gets to the device. -/
def Reaches (w : World) (a : Access) : Prop :=
  0 < a.length ∧ a.offset + a.length ≤ w.capacityBytes

/-- No call of the run gets to the device while the driver's indices differ. -/
def Leveled : World → List Event → Prop
  | _, [] => True
  | w, e :: events =>
    (∀ a, e = .call a → Reaches w a → w.availIndex = w.usedIndex) ∧ Leveled (e.after w) events

section Accesses

variable {a : Access}

open Action in
theorem wp_checkRange {offset len : ℕ} (hbounded : w.capacityBytes < 2 ^ 64) :
    wp (checkRange offset len) w
      (fun _ w' => w' = w ∧ offset + len ≤ w.capacityBytes)
      fun e w' => (∃ text, e = .err text) ∧ w' = w := by
  rw [checkRange]
  split
  · apply wp_bind_of_ok (gets_apply _ _)
    split
    · exact wp_fail ⟨⟨_, rfl⟩, rfl⟩
    · exact wp_pure ⟨rfl, by omega⟩
  · exact wp_fail ⟨⟨_, rfl⟩, rfl⟩

open Action in
/-- A call while no request is out. -/
theorem wp_access (h : Quiet w) :
    wp (access a) w
      (fun bytes w' => Quiet w' ∧ a.plain (ε := String) w.medium = (.ok bytes, w'.medium)) Ends := by
  have hstop : ∀ (e : Stop String) (w' : World), ((∃ text, e = .err text) ∧ w' = w) → Ends e w' :=
    fun e w' he => ⟨he.1, .inl (he.2 ▸ h)⟩
  have hdvd : SECTOR ∣ w.medium.length := h.medium ▸ h.whole
  cases a with
  | read offset len =>
    rw [access, readBytes, List.length_replicate]
    apply wp_bind (wp_checkRange h.bounded) ?_ hstop
    rintro _ w₁ ⟨rfl, hin⟩
    have hlen : (List.replicate len (0 : UInt8)).length = len := List.length_replicate
    rw [← h.medium] at hin
    apply wp_mono (wp_readLoop h (Nat.zero_le _) hdvd (by omega) (by omega)) ?_ fun _ _ => id
    rintro v w' ⟨h', hmedium, rfl⟩
    refine ⟨h', ?_⟩
    rw [Access.plain, if_pos hin, hmedium, Nat.sub_zero, hlen,
      copyInto_whole (by rw [hlen, length_sub hin])]
  | write offset bytes =>
    rw [access]
    have hwrite : wp (writeBytes offset bytes) w (fun _ w' => Quiet w' ∧
        offset + bytes.length ≤ w.medium.length ∧ w'.medium = copyInto w.medium offset bytes)
        Ends := by
      rw [writeBytes]
      apply wp_bind (wp_checkRange h.bounded) ?_ hstop
      rintro _ w₁ ⟨rfl, hin⟩
      rw [← h.medium] at hin
      apply wp_mono (wp_writeLoop h hdvd (by omega) (by omega)) ?_ fun _ _ => id
      rintro _ w' ⟨h', hmedium⟩
      exact ⟨h', hin, by rw [hmedium, List.drop_zero]⟩
    apply wp_bind hwrite ?_ fun _ _ => id
    rintro _ w' ⟨h', hin, hmedium⟩
    apply wp_pure
    refine ⟨h', ?_⟩
    rw [Access.plain, if_pos hin, hmedium]

open Action in
/-- A call that does not get to the device leaves everything as it is. -/
theorem wp_access_short (hbounded : w.capacityBytes < 2 ^ 64)
    (hmedium : w.medium.length = w.capacityBytes) (hshort : ¬Reaches w a) :
    wp (access a) w
      (fun bytes w' => w' = w ∧ a.plain (ε := String) w.medium = (.ok bytes, w.medium))
      fun e w' => (∃ text, e = .err text) ∧ w' = w := by
  cases a with
  | read offset len =>
    rw [access, readBytes, List.length_replicate]
    apply wp_bind (wp_checkRange hbounded) ?_ fun _ _ => id
    rintro _ w₁ ⟨rfl, hin⟩
    obtain rfl : len = 0 := Nat.eq_zero_of_not_pos fun hpos => hshort ⟨hpos, hin⟩
    apply wp_pure
    refine ⟨rfl, ?_⟩
    rw [Access.plain, if_pos (hmedium ▸ hin), sub_empty]
    rfl
  | write offset bytes =>
    rw [access]
    have hwrite : wp (writeBytes offset bytes) w
        (fun _ w' => w' = w ∧ bytes = [] ∧ offset + bytes.length ≤ w.capacityBytes)
        fun e w' => (∃ text, e = .err text) ∧ w' = w := by
      rw [writeBytes]
      apply wp_bind (wp_checkRange hbounded) ?_ fun _ _ => id
      rintro _ w₁ ⟨rfl, hin⟩
      have hnil : bytes = [] := by
        apply List.eq_nil_of_length_eq_zero
        exact Nat.eq_zero_of_not_pos fun hpos => hshort ⟨hpos, hin⟩
      subst hnil
      exact wp_pure ⟨rfl, rfl, hin⟩
    apply wp_bind hwrite ?_ fun _ _ => id
    rintro _ w' ⟨rfl, rfl, hin⟩
    apply wp_pure
    refine ⟨rfl, ?_⟩
    rw [Access.plain, if_pos (hmedium ▸ hin), copyInto_nil]

end Accesses

theorem Steady.honest (h : Steady w) : Honest w := by
  obtain h | ⟨m, r, h⟩ := h
  · exact h.honest
  · exact h.honest

/-- A state with a request out is one where the driver's indices differ. -/
theorem Busy.unlevel {m : Bytes} {r : Request} (h : Busy m r w) : w.availIndex ≠ w.usedIndex := by
  have hsmall := h.small
  rw [h.availIndex]
  omega

/-- One call: it acts, and what it leaves is steady. -/
theorem Steady.call (h : Steady w) {a : Access}
    (hlevel : Reaches w a → w.availIndex = w.usedIndex) :
    Acted w a ∧ Steady (access a w).2 := by
  obtain h | ⟨m, r, h⟩ := h
  · have hcall := wp_access (a := a) h
    cases hresult : access a w with
    | mk result w' =>
      cases result with
      | ok bytes =>
        obtain ⟨hquiet, hplain⟩ := hcall.returned hresult
        refine ⟨fun bytes' hbytes => ?_, .inl hquiet⟩
        rw [hresult] at hbytes ⊢
        cases hbytes
        exact hplain
      | error e =>
        refine ⟨fun bytes' hbytes => ?_, (hcall.stopped hresult).2⟩
        rw [hresult] at hbytes
        cases hbytes
  · have hshort : ¬Reaches w a := fun hreaches => h.unlevel (hlevel hreaches)
    have hcall := wp_access_short h.bounded h.medium hshort
    cases hresult : access a w with
    | mk result w' =>
      cases result with
      | ok bytes =>
        obtain ⟨rfl, hplain⟩ := hcall.returned hresult
        refine ⟨fun bytes' hbytes => ?_, .inr ⟨m, r, h⟩⟩
        rw [hresult] at hbytes ⊢
        cases hbytes
        exact hplain
      | error e =>
        obtain ⟨-, rfl⟩ := hcall.stopped hresult
        refine ⟨fun bytes' hbytes => ?_, .inr ⟨m, r, h⟩⟩
        rw [hresult] at hbytes
        cases hbytes

theorem Steady.turn (h : Steady w) : Steady ((turn : Call Bool) w).2 := by
  obtain h | ⟨m, r, h⟩ := h
  · obtain ⟨b, script, hturn⟩ := h.idle.turn (ε := String)
    rw [hturn]
    exact .inl (h.script script)
  · obtain ⟨b, w', hturn, h'⟩ := h.turn (ε := String)
    rw [hturn]
    exact .inr ⟨m, r, h'⟩

theorem Steady.survives (h : Steady w) {events : List Event} (hleveled : Leveled w events) :
    Survives w events := by
  induction events generalizing w with
  | nil => exact h.honest
  | cons e events ih =>
    obtain ⟨hlevel, hrest⟩ := hleveled
    cases e with
    | call a =>
      obtain ⟨hacted, hsteady⟩ := h.call (hlevel a rfl)
      refine ⟨h.honest, fun a' ha' => ?_, ih hsteady hrest⟩
      cases ha'
      exact hacted
    | pass => exact ⟨h.honest, nofun, ih h.turn hrest⟩

/-- Bring-up leaves no request. -/
theorem quiet_start {maxSize : ℕ} {medium : Bytes} {script : List Turn}
    (hmedium : medium.length = sectors * SECTOR)
    (hstart : start maxSize sectors medium script = .ok w) : Quiet w := by
  rw [start] at hstart
  split at hstart
  · cases hstart
  · next hmax =>
    rw [checkedMul] at hstart
    split at hstart
    · next hbounded =>
      cases hstart
      exact {
        data := List.length_replicate
        medium := hmedium
        whole := ⟨sectors, Nat.mul_comm _ _⟩
        bounded := hbounded
        queue := Nat.lt_min.mpr ⟨Nat.pos_of_ne_zero hmax, by decide⟩
        avail := rfl
        small := show 0 < 2 ^ 16 by decide
        honest := ⟨by simp, by simp⟩
        fetched := rfl
        seen := rfl
        availIdx := rfl
        availIndex := rfl
        usedIdx := rfl
        published := rfl
        fetchedCount := rfl
        completed := rfl }
    · cases hstart

/-- What the device does in `late_write`: it fetches the first write although its doorbell failed,
and completes it during the second. -/
def lateScript : List Turn :=
  List.replicate 6 ⟨[], false⟩ ++ [⟨[.fetch], true⟩] ++ List.replicate 7 ⟨[], false⟩ ++
    [⟨[.finish 0 0], false⟩]

end Eo9.StoreDisk
