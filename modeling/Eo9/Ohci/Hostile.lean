import Eo9.Library.Audit
import Eo9.Ohci.Driver

/-!
# Hostile controllers

Whatever a controller leaves in the arena and answers in its registers, a call of the driver ends
in a value or in a typed error exactly when the words it computes addresses and lengths with are
sane. Only four of the driver's places rely on such a word.
-/

namespace Eo9.Ohci

open Eo9.Library

/-- The link of a done queue leads to a descriptor inside the arena; what a descriptor claims to
have filled fits in the caller's buffer, where the driver relies on it, and in the arena. -/
def Reading.Sane : Reading → Prop
  | .link base address =>
    base.toNat ≤ address.toNat ∧ address.toNat - base.toNat + 16 ≤ SIZE
  | .stage base td length room =>
    td.bytesTransferred (bus base CONTROL_BUFFER) (UInt32.ofNat length) ≤ room ∧
      CONTROL_BUFFER + td.bytesTransferred (bus base CONTROL_BUFFER) (UInt32.ofNat length) ≤ SIZE
  | .window buffer base td length room =>
    buffer + min (td.bytesTransferred (bus base buffer) (UInt32.ofNat length)) room ≤ SIZE

instance : DecidablePred Reading.Sane
  | .link _ _ => inferInstanceAs (Decidable (_ ∧ _))
  | .stage _ _ _ _ => inferInstanceAs (Decidable (_ ∧ _))
  | .window _ _ _ _ _ => inferInstanceAs (Decidable (_ ≤ _))

@[simp] theorem length_encodeDwords (dwords : List Word) :
    (encodeDwords dwords).length = 4 * dwords.length := by
  induction dwords with
  | nil => rfl
  | cons w dwords ih =>
    have hcons : encodeDwords (w :: dwords) = leBytes 4 w.toNat ++ encodeDwords dwords := rfl
    rw [hcons, List.length_append, ih, length_leBytes, List.length_cons]
    omega

@[simp] theorem length_encode_ed (ed : EndpointDescriptor) : ed.encode.length = 16 :=
  length_encodeDwords _

@[simp] theorem length_encode_td (td : TransferDescriptor) : td.encode.length = 16 :=
  length_encodeDwords _

@[simp] theorem length_encode_setup (setup : SetupPacket) : setup.encode.length = 8 := by
  simp [SetupPacket.encode]

theorem tdSlot_inside (slot : ℕ) : tdSlot slot + 16 ≤ SIZE := by
  have hslot : slot % TD_SLOTS < TD_SLOTS := Nat.mod_lt _ (by decide)
  simp only [tdSlot, TD_POOL, TD_SLOTS, SIZE] at *
  omega

theorem edOffset_inside (dir : BulkDir) : dir.edOffset + 16 ≤ SIZE := by
  cases dir <;> decide

variable {R ε α : Type} [RegionIo R ε]

/-- The driver ends in a value or a typed error exactly when all that it relies on is sane. -/
abbrev Typed (post : α → Prop) (m : Driver R ε α) : Prop :=
  Audited Ohci.seen Reading.Sane post m

/-- No condition on the value. -/
abbrev Anything : α → Prop := fun _ => True

theorem typed_ask (f : R → Except ε α × R) : Typed Anything (ask f : Driver R ε α) := by
  refine Audited.of_clean (fun d => ?_) (fun d => ?_) fun _ _ _ _ => trivial
  · rw [ask]
    split
    · exact Outcome.clean_ok _
    · exact Outcome.clean_err _
  · rw [ask]
    split
    · rfl
    · rfl

theorem typed_read32 (offset : ℕ) : Typed Anything (read32 offset : Driver R ε Word) :=
  typed_ask _

theorem typed_write32 (offset : ℕ) (value : Word) :
    Typed Anything (write32 offset value : Driver R ε PUnit) := typed_ask _

theorem typed_dmaBase : Typed Anything (dmaBase : Driver R ε Word) :=
  Audited.gets fun _ => trivial

theorem typed_dmaWrite {offset : ℕ} {bytes : Bytes} (h : offset + bytes.length ≤ SIZE) :
    Typed Anything (dmaWrite offset bytes : Driver R ε PUnit) := by
  rw [dmaWrite, if_pos h]
  exact Audited.modify fun _ => rfl

theorem typed_writeTd (slot : ℕ) (td : TransferDescriptor) :
    Typed Anything (dmaWrite (tdSlot slot) td.encode : Driver R ε PUnit) := by
  apply typed_dmaWrite
  rw [length_encode_td]
  exact tdSlot_inside slot

theorem typed_dmaRead {offset len : ℕ} (h : offset + len ≤ SIZE) :
    Typed (fun bytes => bytes.length = len) (dmaRead offset len : Driver R ε Bytes) := by
  rw [dmaRead, if_pos h]
  refine Audited.of_clean (fun d => ?_) (fun _ => rfl) ?_
  · exact Outcome.clean_ok _
  · rintro d _ _ ⟨⟩
    exact RegionIo.length_dmaRead offset len d.io

theorem typed_readTd {slot : ℕ} (h : slot + 16 ≤ SIZE) :
    Typed Anything (readTd slot : Driver R ε TransferDescriptor) :=
  (typed_dmaRead h).bind fun _ _ => Audited.pure trivial

theorem typed_readEd {offset : ℕ} (h : offset + 16 ≤ SIZE) :
    Typed Anything (readEd offset : Driver R ε EndpointDescriptor) :=
  (typed_dmaRead h).bind fun _ _ => Audited.pure trivial

theorem typed_gets (f : Ohci R → α) : Typed Anything (Action.gets f : Driver R ε α) :=
  Audited.gets fun _ => trivial

theorem typed_delayInterrupt : Typed Anything (delayInterrupt : Driver R ε UInt8) :=
  (typed_gets _).bind fun _ _ => Audited.pure trivial

/-- A range outside the arena is a trap. -/
theorem dmaRead_outside {offset len : ℕ} (h : ¬offset + len ≤ SIZE) (d : Ohci R) :
    (dmaRead offset len : Driver R ε Bytes) d =
      (.error (.panic "dma-read: out of bounds"), d) := by
  rw [dmaRead, if_neg h]
  rfl

omit [RegionIo R ε] in
theorem typed_ofOutcome {o : Outcome (DriverError ε) α} (h : o.Clean) :
    Typed Anything (Action.ofOutcome o : Driver R ε α) :=
  Audited.ofOutcome h fun _ _ => trivial

omit [RegionIo R ε] in
theorem breaks_of_panic {m : Driver R ε α} {d : Ohci R} {site : String}
    (h : m d = (.error (.panic site), d)) : ¬(m d).1.Clean ∧ (m d).2.seen = d.seen := by
  rw [h]
  exact ⟨Outcome.not_clean_panic site, rfl⟩

omit [RegionIo R ε] in
/-- A counted wait is audited where its rounds are. -/
theorem typed_pollLoop {post : α → Prop} {check : Driver R ε (Option α)} {expired : Driver R ε α}
    (hcheck : Typed (fun a => ∀ b, a = some b → post b) check) (hexpired : Typed post expired)
    (rounds : ℕ) : Typed post (pollLoop check expired rounds) := by
  induction rounds with
  | zero => exact hexpired
  | succ rounds ih =>
    rw [pollLoop]
    apply hcheck.bind
    intro a ha
    cases a with
    | none => exact ih
    | some b => exact Audited.pure (ha b rfl)

theorem typed_frameNumber : Typed Anything (frameNumber : Driver R ε Word) :=
  (typed_read32 _).bind fun _ _ => Audited.pure trivial

theorem typed_readLink (address : Word) :
    Typed Anything (readLink address : Driver R ε TransferDescriptor) := by
  rw [readLink]
  apply typed_dmaBase.bind
  intro base _
  refine Audited.take (fun _ => rfl) (fun hsane => ?_) (fun hbroken d => ?_)
  · rw [checkedSub_ok hsane.1]
    apply (Audited.ofOutcome (Outcome.clean_ok _) fun _ h => h).bind
    rintro _ ⟨⟩
    exact typed_readTd hsane.2
  · by_cases hle : base.toNat ≤ address.toNat
    · have houtside : ¬address.toNat - base.toNat + 16 ≤ SIZE := fun h => hbroken ⟨hle, h⟩
      apply breaks_of_panic
      rw [Action.ofOutcome_bind (checkedSub_ok hle), readTd]
      exact Action.bind_of_error (dmaRead_outside houtside d)
    · apply breaks_of_panic
      exact Action.ofOutcome_bind_error (if_neg hle) _ d

theorem typed_walkDoneQueue (limit : ℕ) (current : Word) :
    Typed Anything (walkDoneQueue readLink limit current : Driver R ε (Option ℕ)) := by
  induction limit generalizing current with
  | zero => exact Audited.pure trivial
  | succ limit ih =>
    rw [walkDoneQueue]
    apply Audited.ite fun _ => Audited.pure trivial
    intro _
    apply (typed_readLink current).bind
    intro td _
    exact (ih _).bind fun _ _ => Audited.pure trivial

theorem typed_consumeDoneQueue : Typed Anything (consumeDoneQueue : Driver R ε ℕ) := by
  rw [consumeDoneQueue]
  apply (typed_dmaRead (by decide)).bind
  intro bytes _
  apply Audited.ite fun _ => Audited.pure trivial
  intro _
  apply (typed_dmaWrite (by decide)).bind
  intro _ _
  apply (typed_write32 _ _).bind
  intro _ _
  apply (typed_walkDoneQueue _ _).bind
  intro walked _
  cases walked with
  | none => exact Audited.fail
  | some walked => exact Audited.pure trivial

/-- The counted wait comes to the count. -/
theorem typed_reapLoop (expected : ℕ) (startFrame : Word) (polls taken : ℕ) :
    Typed (expected ≤ ·) (reapLoop expected startFrame polls taken : Driver R ε ℕ) := by
  induction polls generalizing taken with
  | zero =>
    rw [reapLoop]
    apply Audited.ite fun h => Audited.pure h
    intro _
    apply typed_consumeDoneQueue.bind
    intro consumed _
    exact typed_frameNumber.bind fun _ _ => Audited.fail
  | succ polls ih =>
    rw [reapLoop]
    apply Audited.ite fun h => Audited.pure h
    intro _
    apply typed_consumeDoneQueue.bind
    intro consumed _
    apply typed_frameNumber.bind
    intro frame _
    exact Audited.ite (fun _ => Audited.fail) fun _ => ih _

theorem typed_reapDoneQueue (expected : ℕ) :
    Typed Anything (reapDoneQueue expected : Driver R ε PUnit) := by
  rw [reapDoneQueue]
  apply typed_consumeDoneQueue.bind
  intro consumed _
  apply (typed_gets _).bind
  intro credit _
  refine Audited.bind (Audited.modify ?_) fun _ _ => ?_
  · exact fun _ => rfl
  · apply (typed_gets _).bind
    intro events _
    apply Audited.ite _ fun _ => Audited.pure trivial
    intro _
    apply typed_frameNumber.bind
    intro startFrame _
    apply (typed_reapLoop _ _ _ _).bind
    intro taken htaken
    rw [checkedSub_ok htaken]
    apply (typed_ofOutcome (Outcome.clean_ok _)).bind
    intro rest _
    exact Audited.modify fun _ => rfl

theorem typed_disableControlList : Typed Anything (disableControlList : Driver R ε PUnit) := by
  apply (typed_read32 _).bind
  intro control _
  exact typed_write32 _ _

theorem typed_submitControl (address maxPacket : UInt8) (lowSpeed : Bool) (setup : SetupPacket)
    (inLength : ℕ) :
    Typed Anything (submitControl address maxPacket lowSpeed setup inLength : Driver R ε PUnit) := by
  rw [submitControl]
  apply typed_dmaBase.bind
  intro base _
  apply (typed_dmaWrite (by rw [length_encode_setup]; decide)).bind
  intro _ _
  apply typed_delayInterrupt.bind
  intro delay _
  apply (typed_writeTd _ _).bind
  intro _ _
  apply Audited.bind
  · exact Audited.ite (fun _ => typed_writeTd _ _) fun _ => Audited.pure trivial
  intro _ _
  apply (typed_writeTd _ _).bind
  intro _ _
  apply (typed_writeTd _ _).bind
  intro _ _
  apply typed_dmaWrite
  rw [length_encode_ed]
  decide

theorem typed_handControlList : Typed Anything (handControlList : Driver R ε PUnit) := by
  apply typed_dmaBase.bind
  intro base _
  apply (typed_write32 _ _).bind
  intro _ _
  apply (typed_write32 _ _).bind
  intro _ _
  apply (typed_read32 _).bind
  intro control _
  apply (typed_write32 _ _).bind
  intro _ _
  exact typed_write32 _ _

theorem typed_drained {edOffset : ℕ} (h : edOffset + 16 ≤ SIZE)
    (tail : EndpointDescriptor → Word) :
    Typed Anything (drained edOffset tail : Driver R ε (Option Bool)) :=
  (typed_readEd h).bind fun _ _ => Audited.pure trivial

theorem typed_drainControl : Typed Anything (drainControl : Driver R ε Bool) := by
  apply typed_pollLoop
  · exact (typed_drained (by decide) _).mono fun _ _ _ _ => trivial
  · exact typed_disableControlList.bind fun _ _ => Audited.fail

omit [RegionIo R ε] in
theorem typed_judge (td : TransferDescriptor) : Typed Anything (judge td : Driver R ε PUnit) := by
  rw [judge]
  split
  · exact Audited.pure trivial
  · exact Audited.fail
  · exact Audited.fail

/-- The data stage fills no more than the caller's buffer. -/
theorem typed_dataStage (inLength : ℕ) (dataIn : Bytes) :
    Typed (fun result => result.1 ≤ result.2.length)
      (dataStage inLength dataIn : Driver R ε (ℕ × Bytes)) := by
  rw [dataStage]
  apply typed_dmaBase.bind
  intro base _
  apply (typed_readTd (tdSlot_inside 1)).bind
  intro td _
  apply (typed_judge td).bind
  intro _ _
  dsimp only
  refine Audited.take (fun _ => rfl) (fun hsane => ?_) (fun hbroken d => ?_)
  · obtain ⟨hroom, hinside⟩ := hsane
    rw [rangeOf_ok (Nat.zero_le _) hroom]
    apply (typed_ofOutcome (Outcome.clean_ok _)).bind
    intro _ _
    apply (typed_dmaRead hinside).bind
    intro bytes hbytes
    apply Audited.pure
    rw [length_copyInto (by omega)]
    exact hroom
  · by_cases hroom : td.bytesTransferred (bus base CONTROL_BUFFER) (UInt32.ofNat inLength) ≤
        dataIn.length
    · have houtside : ¬CONTROL_BUFFER +
          td.bytesTransferred (bus base CONTROL_BUFFER) (UInt32.ofNat inLength) ≤ SIZE :=
        fun h => hbroken ⟨hroom, h⟩
      apply breaks_of_panic
      rw [Action.ofOutcome_bind (rangeOf_ok (Nat.zero_le _) hroom)]
      exact Action.bind_of_error (dmaRead_outside houtside d)
    · have hrange : ¬(0 ≤ td.bytesTransferred (bus base CONTROL_BUFFER) (UInt32.ofNat inLength) ∧
          td.bytesTransferred (bus base CONTROL_BUFFER) (UInt32.ofNat inLength) ≤ dataIn.length) :=
        fun h => hroom h.2
      apply breaks_of_panic
      exact Action.ofOutcome_bind_error (if_neg hrange) _ d

theorem typed_judgeControl (halted : Bool) (inLength : ℕ) (dataIn : Bytes) :
    Typed (fun result => result.1 ≤ result.2.length)
      (judgeControl halted inLength dataIn : Driver R ε (ℕ × Bytes)) := by
  rw [judgeControl]
  apply (typed_readTd (tdSlot_inside 0)).bind
  intro setupTd _
  apply (typed_judge setupTd).bind
  intro _ _
  apply Audited.bind
  · apply Audited.ite fun _ => typed_dataStage inLength dataIn
    exact fun _ => Audited.pure (Nat.zero_le _)
  intro received hreceived
  apply (typed_readTd (tdSlot_inside 2)).bind
  intro statusTd _
  apply (typed_judge statusTd).bind
  intro _ _
  apply Audited.ite fun _ => Audited.fail
  exact fun _ => Audited.pure hreceived

theorem typed_control (address maxPacket : UInt8) (lowSpeed : Bool) (setup : SetupPacket)
    (dataIn : Bytes) :
    Typed (fun result => result.1 ≤ result.2.length)
      (control address maxPacket lowSpeed setup dataIn : Driver R ε (ℕ × Bytes)) := by
  apply (typed_submitControl _ _ _ _ _).bind
  intro _ _
  apply typed_handControlList.bind
  intro _ _
  apply typed_drainControl.bind
  intro halted _
  apply typed_disableControlList.bind
  intro _ _
  apply (typed_reapDoneQueue _).bind
  intro _ _
  exact typed_judgeControl _ _ _

theorem typed_portStatus (port : UInt8) :
    Typed Anything (portStatus port : Driver R ε PortStatus) := by
  apply (typed_gets _).bind
  intro ports _
  apply Audited.ite fun _ => Audited.fail
  intro _
  exact (typed_read32 _).bind fun _ _ => Audited.pure trivial

theorem typed_waitMs (ms : ℕ) : Typed Anything (waitMs ms : Driver R ε PUnit) := by
  apply typed_frameNumber.bind
  intro start _
  apply typed_pollLoop
  · exact typed_frameNumber.bind fun _ _ => Audited.pure fun _ _ => trivial
  · exact Audited.fail

theorem typed_resetPort (port : UInt8) : Typed Anything (resetPort port : Driver R ε PUnit) := by
  apply (typed_portStatus port).bind
  intro status _
  apply Audited.ite fun _ => Audited.fail
  intro _
  apply (typed_write32 _ _).bind
  intro _ _
  apply typed_pollLoop
  · apply (typed_read32 _).bind
    intro raw _
    apply Audited.ite
    · exact fun _ => (typed_write32 _ _).bind fun _ _ => Audited.pure fun _ _ => trivial
    · exact fun _ => Audited.pure fun _ _ => trivial
  · exact Audited.fail

/-- How many events the machine still takes. -/
def State.remaining : State → ℕ
  | .resetIssued => 8
  | .resetRecovery => 7
  | .descriptorHead => 6
  | .setAddress => 5
  | .addressSettle => 4
  | .deviceDescriptor => 3
  | .configurationHead => 2
  | .configurationFull _ => 1
  | .done => 0

theorem advances_ok {next : Enumeration} {n : ℕ} (h : next.state.remaining < n) :
    Outcome.Clean (.ok next : Outcome EnumerationError Enumeration) ∧
      ∀ next', (Except.ok next : Outcome EnumerationError Enumeration) = .ok next' →
        next'.state.remaining < n := by
  refine ⟨trivial, ?_⟩
  rintro _ ⟨⟩
  exact h

theorem advances_fail {e : EnumerationError} {n : ℕ} :
    (Outcome.fail e : Outcome EnumerationError Enumeration).Clean ∧
      ∀ next, (Outcome.fail e : Outcome EnumerationError Enumeration) = .ok next →
        next.state.remaining < n :=
  ⟨trivial, nofun⟩

/-- An event brings the machine nearer to its end, and never trips it. -/
theorem event_advances (machine : Enumeration) (event : Event) :
    (machine.event event).Clean ∧ ∀ next, machine.event event = .ok next →
      next.state.remaining < machine.state.remaining := by
  unfold Enumeration.event
  split
  case h_1 hstate => exact advances_ok (by rw [hstate]; exact Nat.lt_succ_self _)
  case h_2 hstate => exact advances_ok (by rw [hstate]; exact Nat.lt_succ_self _)
  case h_3 data hstate =>
    split
    · exact advances_fail
    · exact advances_ok (by rw [hstate]; exact Nat.lt_succ_self _)
  case h_4 hstate => exact advances_ok (by rw [hstate]; exact Nat.lt_succ_self _)
  case h_5 hstate => exact advances_ok (by rw [hstate]; exact Nat.lt_succ_self _)
  case h_6 data hstate =>
    by_cases hparse : (DeviceDescriptor.parse data).isNone
    · rw [if_pos hparse]
      exact advances_fail
    · rw [if_neg hparse]
      have hlength : 18 ≤ data.length := by
        by_contra hshort
        rw [DeviceDescriptor.parse, if_pos (.inl (by omega))] at hparse
        exact hparse rfl
      rw [rangeOf_ok (Nat.zero_le _) hlength, Outcome.ok_bind]
      exact advances_ok (by rw [hstate]; exact Nat.lt_succ_self _)
  case h_7 data hstate =>
    split
    · exact advances_fail
    · split
      · exact advances_fail
      · exact advances_ok (by rw [hstate]; exact Nat.lt_succ_self _)
  case h_8 total data hstate =>
    rw [rangeOf_ok (Nat.zero_le _) (Nat.min_le_left _ _), Outcome.ok_bind]
    exact advances_ok (by rw [hstate]; exact Nat.lt_succ_self _)
  case h_9 => exact advances_fail

omit [RegionIo R ε] in
theorem typed_feed (machine : Enumeration) (event : Event) :
    Typed (fun next => next.state.remaining < machine.state.remaining)
      (feed machine event : Driver R ε Enumeration) := by
  obtain ⟨hclean, hadvances⟩ := event_advances machine event
  rw [feed]
  cases hevent : machine.event event with
  | ok next =>
    apply Audited.ofOutcome (Outcome.clean_ok next)
    rintro _ ⟨⟩
    exact hadvances next hevent
  | error e =>
    rw [hevent] at hclean
    obtain ⟨x, rfl⟩ := hclean.isErr
    exact Audited.fail

theorem typed_perform (port : UInt8) (lowSpeed : Bool) (step : Step) :
    Typed Anything (perform port lowSpeed step : Driver R ε (Option Event)) := by
  cases step with
  | resetPort =>
    apply (typed_resetPort port).bind
    exact fun _ _ => Audited.pure trivial
  | waitMs ms =>
    apply (typed_waitMs ms).bind
    exact fun _ _ => Audited.pure trivial
  | control address maxPacket setup =>
    apply (typed_control _ _ _ _ _).bind
    rintro ⟨received, buffer⟩ hreceived
    dsimp only
    rw [rangeOf_ok (Nat.zero_le _) hreceived]
    apply (typed_ofOutcome (Outcome.clean_ok _)).bind
    exact fun _ _ => Audited.pure trivial
  | done => exact Audited.pure trivial

/-- The loop comes to its end with the events that the machine still takes. -/
theorem typed_enumerate (port : UInt8) (lowSpeed : Bool) {fuel : ℕ} {machine : Enumeration}
    (h : machine.state.remaining < fuel) :
    Typed Anything (enumerate port lowSpeed fuel machine : Driver R ε Enumeration) := by
  induction fuel generalizing machine with
  | zero => omega
  | succ fuel ih =>
    rw [enumerate]
    apply (typed_perform _ _ _).bind
    intro event _
    cases event with
    | none => exact Audited.pure trivial
    | some event =>
      apply (typed_feed machine event).bind
      intro next hnext
      exact ih (by omega)

theorem typed_attach (port : UInt8) (configOut : Bytes) :
    Typed Anything (attach port configOut : Driver R ε ((Attached × ℕ) × Bytes)) := by
  apply (typed_portStatus port).bind
  intro status _
  apply Audited.ite fun _ => Audited.fail
  intro _
  apply (typed_enumerate port _ (Nat.lt_succ_self 8)).bind
  intro machine _
  split
  · exact Audited.fail
  · dsimp only
    rw [rangeOf_ok (Nat.zero_le _) (Nat.min_le_right _ _),
      rangeOf_ok (Nat.zero_le _) (Nat.min_le_left _ _)]
    apply (typed_ofOutcome (Outcome.clean_ok _)).bind
    intro _ _
    apply (typed_ofOutcome (Outcome.clean_ok _)).bind
    exact fun _ _ => Audited.pure trivial

theorem typed_rearm (state : InterruptState) :
    Typed Anything (rearm state : Driver R ε PUnit) := by
  apply typed_dmaBase.bind
  intro base _
  apply typed_delayInterrupt.bind
  intro delay _
  apply (typed_writeTd _ _).bind
  intro _ _
  apply (typed_writeTd _ _).bind
  intro _ _
  apply (typed_readEd (by decide)).bind
  intro ed _
  apply (typed_dmaWrite (by rw [length_encode_ed]; decide)).bind
  intro _ _
  exact Audited.modify fun _ => rfl

theorem typed_copyOut (buffer : ℕ) (td : TransferDescriptor) (length : ℕ) (out : Bytes) :
    Typed Anything (copyOut buffer td length out : Driver R ε (ℕ × Bytes)) := by
  apply typed_dmaBase.bind
  intro base _
  dsimp only
  refine Audited.take (fun _ => rfl) (fun hsane => ?_) (fun hbroken d => ?_)
  · apply (typed_dmaRead hsane).bind
    exact fun _ _ => Audited.pure trivial
  · apply breaks_of_panic
    exact Action.bind_of_error (dmaRead_outside hbroken d)

theorem typed_pollInterrupt (report : Bytes) :
    Typed Anything (pollInterrupt report : Driver R ε (Option ℕ × Bytes)) := by
  apply (typed_gets _).bind
  intro state _
  cases state with
  | none => exact Audited.fail
  | some state =>
    apply typed_dmaBase.bind
    intro base _
    apply (typed_readEd (by decide)).bind
    intro ed _
    apply Audited.ite
    · intro _
      apply (typed_readTd (tdSlot_inside _)).bind
      intro td _
      split
      · exact Audited.fail
      · exact Audited.fail
    intro _
    apply Audited.ite fun _ => Audited.pure trivial
    intro _
    apply (typed_readTd (tdSlot_inside _)).bind
    intro td _
    apply (typed_judge td).bind
    intro _ _
    apply (typed_copyOut _ _ _ _).bind
    intro result _
    apply (typed_reapDoneQueue _).bind
    intro _ _
    apply (typed_rearm state).bind
    exact fun _ _ => Audited.pure trivial

theorem typed_ackRootHubChange : Typed Anything (ackRootHubChange : Driver R ε PUnit) := by
  apply (typed_read32 _).bind
  intro status _
  apply Audited.ite fun _ => typed_write32 _ _
  exact fun _ => Audited.pure trivial

theorem typed_readReport (report : Bytes) :
    Typed Anything (readReport report : Driver R ε (ReadReport × Bytes)) := by
  apply (typed_gets _).bind
  intro events _
  apply Audited.ite
  · intro _
    apply (typed_ask _).bind
    intro outcome _
    apply (typed_pollInterrupt report).bind
    intro result _
    apply Audited.ite
    · intro _
      apply typed_consumeDoneQueue.bind
      intro consumed _
      refine Audited.bind (Audited.modify ?_) fun _ _ => ?_
      · exact fun _ => rfl
      · exact typed_ackRootHubChange.bind fun _ _ => Audited.pure trivial
    · exact fun _ => Audited.pure trivial
  · intro _
    apply (typed_pollInterrupt report).bind
    exact fun _ _ => Audited.pure trivial

theorem typed_writeSkip (dir : BulkDir) (ed : EndpointDescriptor) (skip : Bool) :
    Typed Anything (writeSkip dir.edOffset ed skip : Driver R ε PUnit) := by
  apply typed_dmaWrite
  have hinside := edOffset_inside dir
  rw [List.length_take]
  omega

theorem typed_writeEd (dir : BulkDir) (ed : EndpointDescriptor) :
    Typed Anything (dmaWrite dir.edOffset ed.encode : Driver R ε PUnit) := by
  apply typed_dmaWrite
  rw [length_encode_ed]
  exact edOffset_inside dir

theorem typed_cancelBulk (dir : BulkDir) (tail : Word) :
    Typed Anything (cancelBulk dir.edOffset tail : Driver R ε Bool) := by
  apply (typed_readEd (edOffset_inside dir)).bind
  intro ed _
  apply (typed_writeSkip dir _ _).bind
  intro _ _
  apply (typed_waitMs 2).bind
  intro _ _
  apply (typed_readEd (edOffset_inside dir)).bind
  intro ed _
  apply Audited.ite
  · exact fun _ => (typed_writeSkip dir _ _).bind fun _ _ => Audited.pure trivial
  · intro _
    apply (typed_writeEd dir _).bind
    intro _ _
    exact (typed_writeSkip dir _ _).bind fun _ _ => Audited.fail

theorem typed_queueBulk (dir : BulkDir) (state : BulkState) (length : ℕ) :
    Typed Anything (queueBulk dir state length : Driver R ε Word) := by
  apply typed_dmaBase.bind
  intro base _
  apply typed_delayInterrupt.bind
  intro delay _
  apply (typed_writeTd _ _).bind
  intro _ _
  apply (typed_writeTd _ _).bind
  intro _ _
  apply (typed_readEd (edOffset_inside dir)).bind
  intro ed _
  apply (typed_writeEd dir _).bind
  intro _ _
  refine Audited.bind (Audited.modify ?_) fun _ _ => Audited.pure trivial
  intro d
  cases dir <;> rfl

theorem typed_judgeBulk (dir : BulkDir) (halted : Bool) (td : TransferDescriptor) :
    Typed Anything (judgeBulk dir.edOffset halted td : Driver R ε TransferDescriptor) := by
  apply Audited.ite fun _ => Audited.pure trivial
  intro _
  apply Audited.bind
  · apply Audited.ite
    · intro _
      apply (typed_readEd (edOffset_inside dir)).bind
      exact fun _ _ => typed_writeEd dir _
    · exact fun _ => Audited.pure trivial
  intro _ _
  split
  · exact Audited.fail
  · exact Audited.fail
  · exact Audited.fail

theorem typed_runBulkTd (dir : BulkDir) (length : ℕ) :
    Typed Anything (runBulkTd dir length : Driver R ε TransferDescriptor) := by
  apply (typed_gets _).bind
  intro state _
  cases state with
  | none => exact Audited.fail
  | some state =>
    apply (typed_queueBulk dir state length).bind
    intro tail _
    apply (typed_write32 _ _).bind
    intro _ _
    apply Audited.bind
    · apply typed_pollLoop
      · exact (typed_drained (edOffset_inside dir) _).mono fun _ _ _ _ => trivial
      · exact typed_cancelBulk dir tail
    intro halted _
    apply (typed_reapDoneQueue _).bind
    intro _ _
    apply (typed_readTd (tdSlot_inside _)).bind
    intro retired _
    exact typed_judgeBulk dir halted retired

theorem typed_bulkRead (buf : Bytes) :
    Typed Anything (bulkRead buf : Driver R ε (ℕ × Bytes)) := by
  apply Audited.ite fun _ => Audited.pure trivial
  intro _
  apply (typed_runBulkTd _ _).bind
  exact fun td _ => typed_copyOut _ _ _ _

theorem typed_writeChunks {pieces : List Bytes}
    (h : ∀ chunk ∈ pieces, chunk.length ≤ BULK_BUFFER_LEN) :
    Typed Anything (writeChunks pieces : Driver R ε PUnit) := by
  induction pieces with
  | nil => exact Audited.pure trivial
  | cons chunk rest ih =>
    obtain ⟨hchunk, hrest⟩ := List.forall_mem_cons.mp h
    apply (typed_dmaWrite (Nat.add_le_add_left hchunk _)).bind
    intro _ _
    apply (typed_runBulkTd _ _).bind
    exact fun _ _ => ih hrest

theorem typed_bulkWrite (data : Bytes) : Typed Anything (bulkWrite data : Driver R ε PUnit) := by
  apply Audited.ite
  · exact fun _ => (typed_runBulkTd _ _).bind fun _ _ => Audited.pure trivial
  · intro _
    exact typed_writeChunks fun chunk hchunk => (length_mem_chunks (by decide) hchunk).2

inductive Operation where
  | control (address maxPacket : UInt8) (lowSpeed : Bool) (setup : SetupPacket) (dataIn : Bytes)
  | pollInterrupt (report : Bytes)
  | readReport (report : Bytes)
  | bulkRead (buf : Bytes)
  | bulkWrite (data : Bytes)
  | attach (port : UInt8) (configOut : Bytes)

/-- A call, without its value. -/
def Operation.run : Operation → Driver R ε PUnit
  | control address maxPacket lowSpeed setup dataIn => do
      let _ ← Ohci.control address maxPacket lowSpeed setup dataIn
  | pollInterrupt report => do
      let _ ← Ohci.pollInterrupt report
  | readReport report => do
      let _ ← Ohci.readReport report
  | bulkRead buf => do
      let _ ← Ohci.bulkRead buf
  | bulkWrite data => Ohci.bulkWrite data
  | attach port configOut => do
      let _ ← Ohci.attach port configOut

theorem typed_run (op : Operation) : Typed Anything (op.run : Driver R ε PUnit) := by
  cases op with
  | control address maxPacket lowSpeed setup dataIn =>
    exact (typed_control _ _ _ _ _).bind fun _ _ => Audited.pure trivial
  | pollInterrupt report => exact (typed_pollInterrupt _).bind fun _ _ => Audited.pure trivial
  | readReport report => exact (typed_readReport _).bind fun _ _ => Audited.pure trivial
  | bulkRead buf => exact (typed_bulkRead _).bind fun _ _ => Audited.pure trivial
  | bulkWrite data => exact typed_bulkWrite data
  | attach port configOut => exact (typed_attach _ _).bind fun _ _ => Audited.pure trivial

/-- The words that a call takes from the controller. -/
def Operation.readings (op : Operation) (d : Ohci R) : List Reading :=
  ((op.run : Driver R ε PUnit) d).2.seen.drop d.seen.length

/-- A call ends in a value or a typed error exactly when all the words it takes are sane. -/
theorem run_clean_iff (op : Operation) (d : Ohci R) :
    ((op.run : Driver R ε PUnit) d).1.Clean ↔ ∀ r ∈ op.readings d, r.Sane := by
  obtain ⟨new, hnew, hclean⟩ := (typed_run op d).1
  have hreadings : op.readings d = new := by
    rw [Operation.readings, hnew, List.drop_left]
  rw [hreadings]
  exact hclean

/-- A controller that leaves the arena as it is, and has nothing in its registers. -/
structure Idle where
  memory : ℕ → UInt8

instance : RegionIo Idle Empty where
  read32 _ r := (.ok 0, r)
  write32 _ _ r := (.ok ⟨⟩, r)
  dmaBase _ := 0x40000000
  dmaWrite offset bytes r := ⟨overwrite r.memory offset bytes⟩
  dmaRead offset len r := (slice r.memory offset len, r)
  waitInterrupt r := (.ok .unsupported, r)
  length_dmaRead _ _ r := length_slice r.memory _ _
  below _ := by decide

/-- A report has retired, and the done queue is said to start at the address `0x10`. -/
def strayMemory : ℕ → UInt8 :=
  let retired : TransferDescriptor :=
    { TransferDescriptor.new .in .fromEd (some (bus 0x40000000 INTERRUPT_BUFFER, 8)) with
      conditionCode := .noError
      currentBuffer := 0
      next := bus 0x40000000 (tdSlot 5) }
  let ed : EndpointDescriptor :=
    { direction := .in
      head := bus 0x40000000 (tdSlot 5)
      tail := bus 0x40000000 (tdSlot 5) }
  overwrite (overwrite (overwrite (fun _ => 0) (tdSlot 4) retired.encode) INTERRUPT_ED ed.encode)
    DONE_HEAD (leBytes 4 0x10)

/-- A done queue outside the arena makes the driver panic. -/
theorem stray_done_head : ¬∀ (R ε : Type) [RegionIo R ε] (op : Operation) (d : Ohci R),
    ((op.run : Driver R ε PUnit) d).1.Clean := by
  intro h
  have hclean := h Idle Empty (.pollInterrupt (List.replicate 8 0))
    { Ohci.new ⟨strayMemory⟩ with interrupt := some ⟨4, 5, 8⟩ }
  have hpanic : ((Operation.pollInterrupt (List.replicate 8 0)).run
      { Ohci.new (⟨strayMemory⟩ : Idle) with interrupt := some ⟨4, 5, 8⟩ }).1 =
        .error (.panic "attempt to subtract with overflow") := by
    rfl
  rw [hpanic] at hclean
  exact hclean

end Eo9.Ohci
