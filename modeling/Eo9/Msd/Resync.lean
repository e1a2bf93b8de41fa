import Eo9.Library.Runs
import Eo9.Msd.Ladder

/-!
# Resynchronization

Over every run of commands, with every answer and every drop, a command wrapper is
sent only on a link that is between exchanges, `mid_command` says whether the link
is, and a status is only taken for the exchange that it was emitted for until the
tags wrap.
-/

namespace Eo9.Msd

open Eo9.Library Eo9.Library.Action Eo9.Library.Dialogue

/-- A command that ended, with the number of wrappers that were sent before it. -/
structure Event where
  command : Command
  first : Nat
  outcome : Outcome (Ended MsdError) Reply

/-- One command, under any answers; it is dropped where they run out. -/
inductive Step : Io → Event → Io → Prop
  | mk (s : Io) (c : Command) (answers : List Answer) :
      Step s ⟨c, (cbws s.wire).length, (c.run { s with answers := answers }).1⟩
        (c.run { s with answers := answers }).2

/-- The command returned a value, or the device refused it. -/
inductive Event.Concluded : Event → UInt8 → Prop
  | returned (c : Command) (first : Nat) (reply : Reply) :
      Concluded ⟨c, first, .ok reply⟩ CSW_PASSED
  | refused (c : Command) (first : Nat) (sense : Option Sense) :
      Concluded ⟨c, first, .error (.err (.failed (.commandFailed sense)))⟩ CSW_FAILED

/-- The device echoes the tag of a command wrapper in the status that it emits for it. -/
def Echoes (wire : Wire) : Prop :=
  ∀ chunk, (Call.csw, some (Except.ok chunk)) ∈ wire → ∀ k, chunk.origin = some k →
    ∃ cbw, (cbws wire)[k]? = some cbw ∧ tagBytes chunk.bytes = tagBytes cbw

/-- No command concluded on a status that the device emitted for another wrapper than
the command's own. -/
def OwnStatus (events : List Event) (wire : Wire) : Prop :=
  ∀ e ∈ events, ∀ status, e.Concluded status →
    Taken (e.first + 1) status wire ∧
    ∀ before chunk after tag, wire = before ++ (.csw, some (.ok chunk)) :: after →
      (cbws before).length = e.first + 1 → linkOf before = .exchange tag →
      (accepted tag chunk).isSome → ∀ k, chunk.origin = some k → k = e.first

/-- The link that the engine is created on. -/
def Io.new : Io := ⟨Bot.new, [], []⟩

theorem settled_new : Settled Io.new 0 Io.new := by
  refine .inl ⟨?_, ?_, List.prefix_refl _, rfl, rfl, rfl, rfl⟩
  · intro before bytes answer after hsplit
    exact absurd hsplit.symm (by simp [Io.new])
  · intro n bytes h
    exact absurd h nofun

theorem Settled.numbered {s₀ s : Io} {n : Nat} (h : Settled s₀ n s) :
    (cbws s.wire).length = n ∧ Guarded s.wire ∧ Numbered s.wire ∧
      (s.own.midCommand = true ↔ linkOf s.wire ≠ .between) := by
  rcases h with h | ⟨link, hlink, h⟩
  · refine ⟨h.sent, h.guarded, h.numbered, ?_⟩
    rw [h.mid, h.link]
    simp
  · refine ⟨h.sent, h.guarded, h.numbered, ?_⟩
    rw [h.mid, h.link]
    simp [hlink]

/-- What one command does, wherever it ends. -/
theorem Step.settled {s₀ s s' : Io} {e : Event} {n : Nat} (h : Settled s₀ n s)
    (hstep : Step s e s') : (∃ m, Settled s₀ m s') ∧ s.wire <+: s'.wire ∧
      ∀ status, e.Concluded status → Taken (e.first + 1) status s'.wire := by
  obtain ⟨c, answers⟩ := hstep
  have hgrown := h.grown
  have hstart : Settled s n { s with answers := answers } := by
    rcases h with h | ⟨link, hlink, h⟩
    · exact .inl { h with grown := List.prefix_refl _ }
    · exact .inr ⟨link, hlink, { h with grown := List.prefix_refl _ }⟩
  have hfirst : (cbws s.wire).length = n := hstart.numbered.1
  have hrun := wp_run c hstart
  unfold wp at hrun
  rw [hfirst]
  rcases hresult : c.run { s with answers := answers } with ⟨outcome | reply, s'⟩
  · rw [hresult] at hrun
    obtain ⟨-, ⟨m, hsettled⟩, htaken⟩ := hrun
    refine ⟨⟨m, hsettled.rebase hgrown⟩, hsettled.grown, ?_⟩
    rintro status ⟨⟩
    exact htaken _ rfl
  · rw [hresult] at hrun
    obtain ⟨⟨m, hsettled⟩, htaken⟩ := hrun
    refine ⟨⟨m, hsettled.rebase hgrown⟩, hsettled.grown, ?_⟩
    rintro status ⟨⟩
    exact htaken

/-- What every run leaves behind: each command that concluded took a status. -/
theorem settled_of_run {s₀ s s' : Io} {events : List Event} {n : Nat} (h : Settled s₀ n s)
    (run : Run Step s events s') : (∃ m, Settled s₀ m s') ∧ s.wire <+: s'.wire ∧
      ∀ e ∈ events, ∀ status, e.Concluded status → Taken (e.first + 1) status s'.wire := by
  induction run generalizing n with
  | nil s => exact ⟨⟨n, h⟩, List.prefix_refl _, fun e he => absurd he List.not_mem_nil⟩
  | cons head tail ih =>
    obtain ⟨⟨m, h₁⟩, hgrown₁, htaken₁⟩ := head.settled h
    obtain ⟨hsettled, hgrown, htaken⟩ := ih h₁
    refine ⟨hsettled, hgrown₁.trans hgrown, ?_⟩
    intro e he status hstatus
    rcases List.mem_cons.mp he with rfl | he
    · exact (htaken₁ status hstatus).mono hgrown
    · exact htaken e he status hstatus

/-- An accepted status was emitted a multiple of `2 ^ 32` wrappers before its exchange. -/
theorem origin_of_accepted {wire before after : Wire} {chunk : Chunk} {tag k : Nat}
    (hnumbered : Numbered wire) (hechoes : Echoes wire)
    (hsplit : wire = before ++ (.csw, some (.ok chunk)) :: after)
    (hlink : linkOf before = .exchange tag) (haccepted : (accepted tag chunk).isSome)
    (hk : chunk.origin = some k) :
    k < (cbws wire).length ∧ (k + 1) % 2 ^ 32 = (cbws before).length % 2 ^ 32 := by
  obtain ⟨cbw, hcbw, htags⟩ := hechoes chunk (by rw [hsplit]; simp) k hk
  obtain ⟨hlt, -⟩ := List.getElem?_eq_some_iff.mp hcbw
  refine ⟨hlt, tagAfter_eq_iff.mp ?_⟩
  have hbefore : Numbered before := by
    intro m bytes hm
    apply hnumbered m bytes
    have hlt := (List.getElem?_eq_some_iff.mp hm).1
    rw [hsplit, cbws_append, List.getElem?_append_left hlt, hm]
  have htag : tagOf chunk.bytes = tag := by
    unfold accepted at haccepted
    split at haccepted
    · rename_i csw hcsw
      exact (decodeCsw_eq_ok hcsw).1
    · exact absurd haccepted nofun
  calc
    tagAfter (k + 1) = tagOf cbw := (hnumbered k cbw hcbw).symm
    _ = tagOf chunk.bytes := by rw [tagOf, tagOf, htags]
    _ = tag := htag
    _ = tagAfter (cbws before).length := hbefore.exchange hlink

section Answers

/-- A status wrapper without residue. -/
def cswBytes (tag : Nat) (status : UInt8) : Bytes :=
  CSW_SIGNATURE ++ leBytes 4 tag ++ leBytes 4 0 ++ [status]

theorem tagBytes_cswBytes {tag : Nat} {status : UInt8} :
    tagBytes (cswBytes tag status) = leBytes 4 tag := by
  simp only [tagBytes, cswBytes, List.append_assoc]
  rw [List.drop_left' (show CSW_SIGNATURE.length = 4 from rfl),
    List.take_left' (length_leBytes 4 tag)]

theorem decodeCsw_cswBytes {tag : Nat} {status : UInt8} (htag : tag < 2 ^ 32)
    (hstatus : status ≤ CSW_PHASE_ERROR) :
    decodeCsw (cswBytes tag status) tag = .ok ⟨tag, 0, status⟩ := by
  have hlength : (cswBytes tag status).length = CSW_LEN := by
    simp [cswBytes, CSW_SIGNATURE, CSW_LEN]
  have hsignature : (cswBytes tag status).take 4 = CSW_SIGNATURE := by
    simp only [cswBytes, List.append_assoc]
    exact List.take_left' rfl
  have htagOf : tagOf (cswBytes tag status) = tag := by
    rw [tagOf, tagBytes_cswBytes, leValue_leBytes 4 tag (by omega)]
  have hprefix : (CSW_SIGNATURE ++ leBytes 4 tag).length = 8 := by
    simp [CSW_SIGNATURE]
  have hresidue : leValue (((cswBytes tag status).drop 8).take 4) = 0 := by
    simp only [cswBytes]
    rw [List.append_assoc (CSW_SIGNATURE ++ _), List.drop_left' hprefix]
    rfl
  have hlast : (cswBytes tag status).getD 12 0 = status := by
    have h12 : (CSW_SIGNATURE ++ leBytes 4 tag ++ leBytes 4 0).length = 12 := by
      simp [CSW_SIGNATURE]
    rw [List.getD_eq_getElem?_getD, cswBytes, List.getElem?_append_right h12.le, h12]
    rfl
  unfold decodeCsw
  rw [hlength, hsignature, htagOf, hresidue, hlast]
  simp [UInt8.not_lt.mpr hstatus]

theorem tagAfter_lt (n : Nat) : tagAfter n < 2 ^ 32 := Nat.mod_lt _ (by decide)

variable {n : Nat} {wire : Wire}

/-- An exchange that the device answers. -/
theorem execute_answered {cdb : Bytes} {phase : DataPhase} {first chunk : Chunk} {csw : Csw}
    {data : Bytes} {answers rest : List Answer} {wire' : Wire}
    (hcdb : 1 ≤ cdb.length ∧ cdb.length ≤ MAX_CDB_LEN)
    (hmove : moveData phase ⟨⟨tagAfter (n + 1), true⟩, answers, wire ++
        [(.cbw (cbwBytes (tagAfter (n + 1)) phase.transferLength phase.direction 0 cdb),
          some (.ok first))]⟩ =
      (.ok data, ⟨⟨tagAfter (n + 1), true⟩, .ok chunk :: rest, wire'⟩))
    (hcsw : decodeCsw chunk.bytes (tagAfter (n + 1)) = .ok csw)
    (hstatus : csw.status ≠ CSW_PHASE_ERROR) :
    execute cdb phase ⟨⟨tagAfter n, false⟩, .ok first :: answers, wire⟩ =
      (.ok (data, csw),
        ⟨⟨tagAfter (n + 1), false⟩, rest, wire' ++ [(.csw, some (.ok chunk))]⟩) := by
  have haccept : ∀ s : Io, acceptCsw chunk (tagAfter (n + 1)) s = (.ok csw, s) := by
    intro s
    simp only [acceptCsw, hcsw, if_neg hstatus, pure_apply]
  have hresync : resync ⟨⟨tagAfter n, false⟩, .ok first :: answers, wire⟩ =
      (.ok ⟨⟩, ⟨⟨tagAfter n, false⟩, .ok first :: answers, wire⟩) := rfl
  have hcbw : ∀ cbw, sendCbw cbw ⟨⟨tagAfter (n + 1), true⟩, .ok first :: answers, wire⟩ =
      (.ok ⟨⟩, ⟨⟨tagAfter (n + 1), true⟩, answers, wire ++ [(.cbw cbw, some (.ok first))]⟩) :=
    fun _ => rfl
  have hread : readCsw ⟨⟨tagAfter (n + 1), true⟩, .ok chunk :: rest, wire'⟩ =
      (.ok chunk, ⟨⟨tagAfter (n + 1), true⟩, rest, wire' ++ [(.csw, some (.ok chunk))]⟩) := rfl
  have hset : ∀ (b b' : Bool) (answers : List Answer) (wire : Wire),
      setMidCommand b ⟨⟨tagAfter (n + 1), b'⟩, answers, wire⟩ =
        (.ok ⟨⟩, ⟨⟨tagAfter (n + 1), b⟩, answers, wire⟩) := fun _ _ _ _ => rfl
  unfold execute
  rw [bind_of_ok hresync, bind_of_ok (takeTag_apply rfl), encodeCbw_ok hcdb,
    bind_of_ok (ofOutcome_apply _ _), bind_of_ok (hset _ _ _ _), bind_of_ok (hcbw _),
    bind_of_ok hmove, bind_of_ok hread, bind_of_ok (haccept _), bind_of_ok (hset _ _ _ _)]
  rfl

/-- The wrapper of `TEST UNIT READY`. -/
def readyCbw (n : Nat) : Bytes := cbwBytes (tagAfter n) 0 .out 0 Scsi.testUnitReady

/-- The wrapper of the `REQUEST SENSE` behind it. -/
def senseCbw (n : Nat) : Bytes :=
  cbwBytes (tagAfter n) 18 .in_ 0 (Scsi.requestSense SENSE_LEN)

/-- A status that the device emitted for the wrapper of a given number. -/
def statusOf (n : Nat) (tag : Nat) (status : UInt8) : Answer := .ok ⟨cswBytes tag status, some n⟩

theorem ready_answered (n origin : Nat) (wire : Wire) {status : UInt8} (rest : List Answer)
    (hstatus : status < CSW_PHASE_ERROR) :
    execute Scsi.testUnitReady .none ⟨⟨tagAfter n, false⟩,
        .ok ⟨[], none⟩ :: statusOf origin (tagAfter (n + 1)) status :: rest, wire⟩ =
      (.ok ([], ⟨tagAfter (n + 1), 0, status⟩), ⟨⟨tagAfter (n + 1), false⟩, rest,
        wire ++ [(.cbw (readyCbw (n + 1)), some (.ok ⟨[], none⟩))] ++
          [(.csw, some (statusOf origin (tagAfter (n + 1)) status))]⟩) :=
  execute_answered (by decide) rfl
    (decodeCsw_cswBytes (tagAfter_lt _) (UInt8.le_of_lt hstatus)) (UInt8.ne_of_lt hstatus)

theorem sense_answered {origin : Nat} {rest : List Answer} :
    execute (Scsi.requestSense SENSE_LEN) (.dataIn SENSE_LEN.toNat) ⟨⟨tagAfter n, false⟩,
        .ok ⟨[], none⟩ :: .ok ⟨[], none⟩ :: statusOf origin (tagAfter (n + 1)) CSW_PASSED :: rest,
        wire⟩ =
      (.ok ([], ⟨tagAfter (n + 1), 0, CSW_PASSED⟩), ⟨⟨tagAfter (n + 1), false⟩, rest,
        wire ++ [(.cbw (senseCbw (n + 1)), some (.ok ⟨[], none⟩))] ++
          [(.dataIn 18, some (.ok ⟨[], none⟩))] ++
          [(.csw, some (statusOf origin (tagAfter (n + 1)) CSW_PASSED))]⟩) :=
  execute_answered (by decide) rfl
    (decodeCsw_cswBytes (tagAfter_lt _) (by decide)) (show CSW_PASSED ≠ CSW_PHASE_ERROR by decide)

theorem run_passed {origin : Nat} {rest : List Answer} :
    Command.testUnitReady.run ⟨⟨tagAfter n, false⟩,
        .ok ⟨[], none⟩ :: statusOf origin (tagAfter (n + 1)) CSW_PASSED :: rest, wire⟩ =
      (.ok .done, ⟨⟨tagAfter (n + 1), false⟩, rest,
        wire ++ [(.cbw (readyCbw (n + 1)), some (.ok ⟨[], none⟩))] ++
          [(.csw, some (statusOf origin (tagAfter (n + 1)) CSW_PASSED))]⟩) := by
  have hcommand := bind_of_ok (f := fun result : Bytes × Csw =>
    if result.2.status = CSW_PASSED then pure (result.1, result.2.residue)
    else fetchSense >>= fun sense => failWith (.commandFailed sense))
    (ready_answered n origin wire rest
      (show CSW_PASSED < CSW_PHASE_ERROR by decide))
  rw [if_pos rfl, pure_apply] at hcommand
  exact bind_of_ok (bind_of_ok hcommand)

/-- A refused command, with the sense data fetched: two wrappers. -/
theorem run_refused {rest : List Answer} :
    Command.testUnitReady.run ⟨⟨tagAfter n, false⟩,
        .ok ⟨[], none⟩ :: statusOf n (tagAfter (n + 1)) CSW_FAILED ::
          .ok ⟨[], none⟩ :: .ok ⟨[], none⟩ ::
          statusOf (n + 1) (tagAfter (n + 1 + 1)) CSW_PASSED :: rest, wire⟩ =
      (.error (.err (.failed (.commandFailed none))), ⟨⟨tagAfter (n + 1 + 1), false⟩, rest,
        wire ++ [(.cbw (readyCbw (n + 1)), some (.ok ⟨[], none⟩))] ++
          [(.csw, some (statusOf n (tagAfter (n + 1)) CSW_FAILED))] ++
          [(.cbw (senseCbw (n + 1 + 1)), some (.ok ⟨[], none⟩))] ++
          [(.dataIn 18, some (.ok ⟨[], none⟩))] ++
          [(.csw, some (statusOf (n + 1) (tagAfter (n + 1 + 1)) CSW_PASSED))]⟩) := by
  have hsense : ∀ (wire : Wire), fetchSense ⟨⟨tagAfter (n + 1), false⟩,
      .ok ⟨[], none⟩ :: .ok ⟨[], none⟩ ::
        statusOf (n + 1) (tagAfter (n + 1 + 1)) CSW_PASSED :: rest, wire⟩ =
      (.ok none, ⟨⟨tagAfter (n + 1 + 1), false⟩, rest,
        wire ++ [(.cbw (senseCbw (n + 1 + 1)), some (.ok ⟨[], none⟩))] ++
          [(.dataIn 18, some (.ok ⟨[], none⟩))] ++
          [(.csw, some (statusOf (n + 1) (tagAfter (n + 1 + 1)) CSW_PASSED))]⟩) := by
    intro wire
    unfold fetchSense
    rw [sense_answered]
    rfl
  have hcommand := bind_of_ok (f := fun result : Bytes × Csw =>
    if result.2.status = CSW_PASSED then pure (result.1, result.2.residue)
    else fetchSense >>= fun sense => failWith (.commandFailed sense))
    (ready_answered n n wire (.ok ⟨[], none⟩ :: .ok ⟨[], none⟩ ::
        statusOf (n + 1) (tagAfter (n + 1 + 1)) CSW_PASSED :: rest)
      (show CSW_FAILED < CSW_PHASE_ERROR by decide))
  rw [if_neg (show CSW_FAILED ≠ CSW_PASSED by decide), bind_of_ok (hsense _)] at hcommand
  exact bind_of_error (bind_of_error hcommand)

theorem Echoes.snoc {e : Call × Option Answer} (h : Echoes wire)
    (he : ∀ chunk k, e = (.csw, some (.ok chunk)) → chunk.origin = some k →
      ∃ cbw, (cbws wire)[k]? = some cbw ∧ tagBytes chunk.bytes = tagBytes cbw) :
    Echoes (wire ++ [e]) := by
  intro chunk hmem k hk
  have hstays : ∀ cbw, (cbws wire)[k]? = some cbw → (cbws (wire ++ [e]))[k]? = some cbw := by
    intro cbw hcbw
    have hlt := (List.getElem?_eq_some_iff.mp hcbw).1
    rw [cbws_append, List.getElem?_append_left hlt, hcbw]
  rcases List.mem_append.mp hmem with hmem | hmem
  · obtain ⟨cbw, hcbw, htag⟩ := h chunk hmem k hk
    exact ⟨cbw, hstays cbw hcbw, htag⟩
  · obtain ⟨cbw, hcbw, htag⟩ := he chunk k (List.mem_singleton.mp hmem).symm hk
    exact ⟨cbw, hstays cbw hcbw, htag⟩

/-- So many wrappers were sent, to a device that echoes their tags. -/
def Answered (n : Nat) (wire : Wire) : Prop := (cbws wire).length = n ∧ Echoes wire

theorem Answered.cbw (h : Answered n wire) (cbw : Bytes) (answer : Option Answer) :
    Answered (n + 1) (wire ++ [(.cbw cbw, answer)]) ∧
      (cbws (wire ++ [(.cbw cbw, answer)]))[n]? = some cbw := by
  have hcbws : cbws (wire ++ [(.cbw cbw, answer)]) = cbws wire ++ [cbw] := cbws_append _ _
  refine ⟨⟨?_, h.2.snoc fun _ _ he => absurd he nofun⟩, ?_⟩
  · rw [hcbws, List.length_append, h.1, List.length_singleton]
  · rw [hcbws, List.getElem?_append_right h.1.le, h.1, Nat.sub_self]
    rfl

theorem Answered.moved (h : Answered n wire) (length : Nat) (answer : Option Answer) :
    Answered n (wire ++ [(.dataIn length, answer)]) :=
  ⟨(congrArg List.length (cbws_snoc_of_none rfl)).trans h.1,
    h.2.snoc fun _ _ he => absurd he nofun⟩

theorem Answered.status {k tag : Nat} {cbw : Bytes} (h : Answered n wire) (status : UInt8)
    (hk : (cbws wire)[k]? = some cbw) (htag : tagBytes cbw = leBytes 4 tag) :
    Answered n (wire ++ [(.csw, some (statusOf k tag status))]) := by
  refine ⟨(congrArg List.length (cbws_snoc_of_none rfl)).trans h.1, h.2.snoc ?_⟩
  rintro chunk k' ⟨⟩ ⟨⟩
  exact ⟨cbw, hk, tagBytes_cswBytes.trans htag.symm⟩

/-- Resynchronization: over every run of commands, with all answers and drops, a
wrapper is sent only between exchanges, `mid_command` says whether the last exchange
may be torn, and as long as fewer than `2 ^ 32` wrappers are sent, no command
concludes on a status that was emitted for another wrapper. -/
theorem resynchronized {s : Io} {events : List Event} (run : Run Step Io.new events s) :
    Guarded s.wire ∧ (s.own.midCommand = true ↔ linkOf s.wire ≠ .between) ∧
      (Echoes s.wire → (cbws s.wire).length < 2 ^ 32 → OwnStatus events s.wire) := by
  obtain ⟨⟨n, hsettled⟩, -, htaken⟩ := settled_of_run settled_new run
  obtain ⟨-, hguarded, hnumbered, hmid⟩ := hsettled.numbered
  refine ⟨hguarded, hmid, ?_⟩
  intro hechoes hcount e he status hstatus
  refine ⟨htaken e he status hstatus, ?_⟩
  intro before chunk after tag hsplit hfirst hlink haccepted k hk
  obtain ⟨hlt, hmod⟩ := origin_of_accepted hnumbered hechoes hsplit hlink haccepted hk
  have hle : (cbws before).length ≤ (cbws s.wire).length := by
    rw [hsplit, cbws_append, List.length_append]
    exact Nat.le_add_right _ _
  rw [Nat.mod_eq_of_lt (by omega), Nat.mod_eq_of_lt (by omega)] at hmod
  omega

/-- The calls of a first command that passes. -/
def passedWire : Wire :=
  [(.cbw (readyCbw 1), some (.ok ⟨[], none⟩)),
    (.csw, some (statusOf 0 (tagAfter 1) CSW_PASSED))]

theorem resynchronized_passed :
    Guarded passedWire ∧ OwnStatus [⟨.testUnitReady, 0, .ok .done⟩] passedWire := by
  have hstep := Step.mk Io.new .testUnitReady
    [.ok ⟨[], none⟩, statusOf 0 (tagAfter (0 + 1)) CSW_PASSED]
  have hsync := resynchronized (.single hstep)
  refine ⟨hsync.1, hsync.2.2 ?_ (by decide)⟩
  have hnone : Answered 0 [] := ⟨rfl, fun _ h => absurd h List.not_mem_nil⟩
  obtain ⟨hsent, hcbw⟩ := hnone.cbw (readyCbw 1) (some (.ok ⟨[], none⟩))
  exact (hsent.status CSW_PASSED hcbw tagBytes_cbwBytes).2

/-- The device refuses one command after the other. -/
theorem refused_run (m : Nat) {s : Io} (hown : s.own = ⟨tagAfter n, false⟩)
    (hwire : Answered n s.wire) :
    ∃ s' events, Run Step s events s' ∧ events.length = m ∧
      s'.own = ⟨tagAfter (n + 2 * m), false⟩ ∧ Answered (n + 2 * m) s'.wire ∧
      s.wire <+: s'.wire := by
  induction m generalizing n s with
  | zero => exact ⟨s, [], .nil s, rfl, hown, hwire, List.prefix_refl _⟩
  | succ m ih =>
    obtain ⟨own, answers, wire⟩ := s
    subst hown
    have hstep := Step.mk ⟨⟨tagAfter n, false⟩, answers, wire⟩ .testUnitReady
      [.ok ⟨[], none⟩, statusOf n (tagAfter (n + 1)) CSW_FAILED, .ok ⟨[], none⟩, .ok ⟨[], none⟩,
        statusOf (n + 1) (tagAfter (n + 1 + 1)) CSW_PASSED]
    rw [run_refused] at hstep
    obtain ⟨h₁, hcbw₁⟩ := hwire.cbw (readyCbw (n + 1)) (some (.ok ⟨[], none⟩))
    have h₂ := h₁.status CSW_FAILED hcbw₁ tagBytes_cbwBytes
    obtain ⟨h₃, hcbw₃⟩ := h₂.cbw (senseCbw (n + 1 + 1)) (some (.ok ⟨[], none⟩))
    have h₄ := h₃.moved 18 (some (.ok ⟨[], none⟩))
    have h₅ := h₄.status CSW_PASSED
      (by rw [cbws_snoc_of_none rfl]; exact hcbw₃) tagBytes_cbwBytes
    obtain ⟨s', events, run, hlength, hown, hanswered, hgrown⟩ :=
      ih (s := ⟨⟨tagAfter (n + 1 + 1), false⟩, [], _⟩) rfl h₅
    have hcount : n + 1 + 1 + 2 * m = n + 2 * (m + 1) := by omega
    rw [hcount] at hown hanswered
    refine ⟨s', _ :: events, .cons hstep run, congrArg Nat.succ hlength, hown, hanswered, ?_⟩
    refine List.IsPrefix.trans ?_ hgrown
    simp only [List.append_assoc]
    exact List.prefix_append _ _

/-- The calls of a command that is dropped in front of its status, and of one that
recovers from that. -/
def recoveredWire : Wire :=
  [(.cbw (readyCbw 1), some (.ok ⟨[], none⟩)), (.csw, none),
    (.massStorageReset, some (.ok ⟨[], none⟩)), (.clearHaltIn, some (.ok ⟨[], none⟩)),
    (.clearHaltOut, some (.ok ⟨[], none⟩)), (.cbw (readyCbw 2), some (.ok ⟨[], none⟩)),
    (.csw, some (statusOf 1 (tagAfter 2) CSW_PASSED))]

theorem answered_recoveredWire : Answered 2 recoveredWire := by
  refine ⟨rfl, ?_⟩
  intro chunk hmem k hk
  simp only [recoveredWire, List.mem_cons, Prod.mk.injEq, reduceCtorEq, false_and, true_and,
    List.not_mem_nil, or_false, false_or, statusOf, Option.some.injEq, Except.ok.injEq] at hmem
  subst hmem
  obtain rfl := Option.some.inj hk
  exact ⟨readyCbw 2, rfl, tagBytes_cswBytes.trans tagBytes_cbwBytes.symm⟩

/-- The tags wrap behind fewer than `2 ^ 32` commands, as a refused command sends two
wrappers: the last of these commands returns on the status of the first. -/
theorem stale_status_taken : ∃ s events, Run Step Io.new events s ∧
    events.length < 2 ^ 32 ∧ Echoes s.wire ∧ ¬ OwnStatus events s.wire := by
  obtain ⟨m, hm⟩ : ∃ m, 2 + 2 * m = 2 ^ 32 := ⟨2 ^ 31 - 1, by norm_num⟩
  have hdropped := Step.mk Io.new .testUnitReady [.ok ⟨[], none⟩]
  have hreset := Step.mk ⟨⟨tagAfter 1, true⟩, [], recoveredWire.take 2⟩ .testUnitReady
    [.ok ⟨[], none⟩, .ok ⟨[], none⟩, .ok ⟨[], none⟩, .ok ⟨[], none⟩,
      statusOf 1 (tagAfter 2) CSW_PASSED]
  obtain ⟨⟨own, answers, wire⟩, events, run, hlength, hown, hwire, hgrown⟩ := refused_run m
    (s := ⟨⟨tagAfter 2, false⟩, [], recoveredWire⟩) rfl answered_recoveredWire
  obtain rfl : own = _ := hown
  have hlast := Step.mk ⟨⟨tagAfter (2 + 2 * m), false⟩, answers, wire⟩ .testUnitReady
    [.ok ⟨[], none⟩, statusOf 0 (tagAfter (2 + 2 * m + 1)) CSW_PASSED]
  rw [run_passed] at hlast
  obtain ⟨hsent, -⟩ := hwire.cbw (readyCbw (2 + 2 * m + 1)) (some (.ok ⟨[], none⟩))
  have hfirst : (cbws (wire ++ [(.cbw (readyCbw (2 + 2 * m + 1)), some (.ok ⟨[], none⟩))]))[0]? =
      some (readyCbw 1) := by
    obtain ⟨rest, rfl⟩ := hgrown
    rfl
  have hwrapped : tagAfter (2 + 2 * m + 1) = tagAfter 1 := tagAfter_eq_iff.mpr (by omega)
  have htag : tagBytes (readyCbw 1) = leBytes 4 (tagAfter (2 + 2 * m + 1)) := by
    rw [hwrapped]
    exact tagBytes_cbwBytes
  have hstale := hsent.status CSW_PASSED hfirst htag
  refine ⟨_, _, .cons hdropped (.cons hreset (run.snoc hlast)), ?_, hstale.2, ?_⟩
  · simp only [List.length_cons, List.length_append, List.length_nil, hlength]
    omega
  · intro hown
    have hconcluded := hown ⟨.testUnitReady, (cbws wire).length, .ok .done⟩ (by simp) CSW_PASSED
      (.returned _ _ _)
    have haccepted : (accepted (tagAfter (2 + 2 * m + 1))
        ⟨cswBytes (tagAfter (2 + 2 * m + 1)) CSW_PASSED, some 0⟩).isSome := by
      unfold accepted
      rw [decodeCsw_cswBytes (tagAfter_lt _) (by decide)]
      rfl
    have hlink : linkOf (wire ++ [(.cbw (readyCbw (2 + 2 * m + 1)), some (.ok ⟨[], none⟩))]) =
        .exchange (tagAfter (2 + 2 * m + 1)) := by
      rw [linkOf_snoc]
      exact congrArg Link.exchange (tagOf_cbwBytes (tagAfter_lt _))
    have hlength : (cbws wire).length = 2 + 2 * m := hwire.1
    have horigin := hconcluded.2 _ _ [] _ rfl (by rw [hlength]; exact hsent.1) hlink haccepted 0 rfl
    change 0 = (cbws wire).length at horigin
    omega

end Answers

end Eo9.Msd
