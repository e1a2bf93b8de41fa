import Eo9.Net.Accounts
import Eo9.Library.Alike

/-!
# Isolation of the switch's ports

Two runs of the switch that differ in the unicast frames for one port look the same to
the other; and the laws that hold of every run.
-/

namespace Eo9.Net.Switch

open Eo9.Library

variable {I : Type} {base : MacBase}

/-- Two answers that differ at most in a unicast frame for a port. -/
def PrivateTo (base : MacBase) (slot : Slot) (call : L2Call I) (a a' : L2Answer I call) : Prop :=
  a = a' ∨ ∃ frame frame', receivedFrame (.answer call a) = some frame ∧
    receivedFrame (.answer call a') = some frame' ∧
    unicastTo base slot frame ∧ unicastTo base slot frame'

/-- Two states that differ at most in the contents of the frames queued for a port. -/
structure SameFor (slot : Slot) (s s' : SwitchState I) : Prop where
  uplink : s.slot = s'.slot
  sibling : rxOf s slot.sibling = rxOf s' slot.sibling
  length : (rxOf s slot).length = (rxOf s' slot).length

/-- Two results that are the same unless they are a port's own. -/
def SameUnless (slot : Slot) (op : PortOp) (result result' : PortResult) : Prop :=
  op.slot ≠ slot → result = result'

section Alike

variable {slot : Slot} {s s' : SwitchState I} {β : Type}

/-- Routines of the switch that look the same on two answers of the uplink. -/
def LooksSame (base : MacBase) (slot : Slot) (t t' : PortRoutine (SwitchState I) I β) : Prop :=
  Alike (SameFor slot) (PrivateTo base slot) Eq t t'

theorem SameFor.onSlot (f : UplinkSlot I → UplinkSlot I) (h : SameFor slot s s') :
    SameFor slot (onSlot f s) (onSlot f s') where
  uplink := congrArg f h.uplink
  sibling := by
    rw [rxOf_onSlot, rxOf_onSlot]
    exact h.sibling
  length := by
    rw [rxOf_onSlot, rxOf_onSlot]
    exact h.length

/-- The same change of the sibling's queue, and one of the port's own by the same count. -/
theorem SameFor.setRx {port : Slot} {queue queue' : List Bytes} (h : SameFor slot s s')
    (hlength : queue.length = queue'.length) (hsame : port ≠ slot → queue = queue') :
    SameFor slot (setRx port queue s) (setRx port queue' s') where
  uplink := h.uplink
  sibling := by
    rw [rxOf_setRx, rxOf_setRx]
    by_cases hport : slot.sibling = port
    · subst hport
      rw [Function.update_self, Function.update_self]
      exact hsame slot.sibling_ne
    · rw [Function.update_of_ne hport, Function.update_of_ne hport]
      exact h.sibling
  length := by
    rw [rxOf_setRx, rxOf_setRx]
    by_cases hport : slot = port
    · subst hport
      rw [Function.update_self, Function.update_self]
      exact hlength
    · rw [Function.update_of_ne hport, Function.update_of_ne hport]
      exact h.length

theorem SameFor.rx (h : SameFor slot s s') (port : Slot) :
    (rxOf s port).length = (rxOf s' port).length ∧ (port ≠ slot → rxOf s port = rxOf s' port) := by
  rcases slot.eq_or_sibling port with rfl | rfl
  · exact ⟨h.length, fun hne => absurd rfl hne⟩
  · exact ⟨congrArg List.length h.sibling, fun _ => h.sibling⟩

theorem SameFor.enqueue {port : Slot} {frame frame' : Bytes} (h : SameFor slot s s')
    (hsame : port ≠ slot → frame = frame') :
    SameFor slot (enqueue port frame s) (enqueue port frame' s') := by
  obtain ⟨hlength, hqueue⟩ := h.rx port
  refine h.setRx ?_ fun hne => ?_
  · rw [List.length_append, List.length_append, hlength]
    split <;> simp [hlength]
  · rw [hqueue hne, hsame hne]

/-- A frame that both runs receive. -/
theorem SameFor.demux (h : SameFor slot s s') (frame : Bytes) :
    SameFor slot (demux base frame s) (demux base frame s') := by
  unfold Switch.demux
  split
  · dsimp only
    split_ifs
    · exact (h.enqueue fun _ => rfl).enqueue fun _ => rfl
    · exact h.enqueue fun _ => rfl
    · exact h.enqueue fun _ => rfl
    · exact h
  · exact h

/-- A unicast frame is queued for its port alone. -/
theorem demux_unicast {frame : Bytes} (h : unicastTo base slot frame) :
    demux base frame s = enqueue slot frame s := by
  obtain ⟨hheader, hgroup, hdst⟩ := h
  unfold demux
  rw [dif_pos hheader]
  dsimp only
  rw [hgroup, hdst, if_neg Bool.false_ne_true]
  cases slot with
  | A => rw [if_pos rfl]
  | B => rw [if_neg (mac_ne_mac base).symm, if_pos rfl]

/-- The first frames of two queues. -/
theorem popFront_same (h : SameFor slot s s') (port : Slot) :
    ((popFront port s).1.isSome = (popFront port s').1.isSome ∧
      (port ≠ slot → (popFront port s).1 = (popFront port s').1)) ∧
    SameFor slot (popFront port s).2 (popFront port s').2 := by
  obtain ⟨hlength, hqueue⟩ := h.rx port
  unfold popFront
  cases hs : rxOf s port with
  | nil =>
    rw [hs] at hlength
    rw [List.length_eq_zero_iff.mp hlength.symm]
    exact ⟨⟨rfl, fun _ => rfl⟩, h⟩
  | cons frame rest =>
    rw [hs] at hlength hqueue
    obtain ⟨frame', rest', hs'⟩ := List.exists_cons_of_length_eq_add_one hlength.symm
    rw [hs'] at hlength hqueue ⊢
    refine ⟨⟨rfl, fun hne => ?_⟩, h.setRx (Nat.succ.inj hlength) fun hne => ?_⟩
    · rw [(List.cons.inj (hqueue hne)).1]
    · exact (List.cons.inj (hqueue hne)).2

theorem looksSame_done (b : β) : LooksSame (I := I) base slot (.done b) (.done b) := .done rfl

theorem LooksSame.bind {γ : Type} {t t' : PortRoutine (SwitchState I) I β}
    {k : β → PortRoutine (SwitchState I) I γ} (h : LooksSame base slot t t')
    (hk : ∀ b, LooksSame base slot (k b) (k b)) : LooksSame base slot (t >>= k) (t' >>= k) :=
  Alike.bind h fun b _ hb => hb ▸ hk b

/-- A call other than a receive is answered the same. -/
theorem looksSame_park {call : L2Call I}
    {resume : L2Answer I call → PortRoutine (SwitchState I) I β}
    (hquiet : ∀ a, receivedFrame (.answer call a) = none)
    (hresume : ∀ a, LooksSame base slot (resume a) (resume a)) :
    LooksSame base slot (.park call id resume) (.park call id resume) := by
  refine .park (fun _ _ => id) fun a a' ha => ?_
  rcases ha with rfl | ⟨frame, frame', hframe, -⟩
  · exact hresume a
  · exact nomatch (hquiet a).symm.trans hframe

theorem openUplink_same :
    LooksSame base slot (openUplink : PortRoutine (SwitchState I) I _) openUplink := by
  refine looksSame_park (fun _ => rfl) fun listed => ?_
  cases listed with
  | error e => exact looksSame_done _
  | ok interfaces =>
    cases interfaces with
    | nil => exact looksSame_done _
    | cons first rest =>
      refine looksSame_park (fun _ => rfl) fun opened => ?_
      cases opened with
      | error e => exact looksSame_done _
      | ok iface => exact .step (fun s s' h => h.onSlot _) fun _ _ _ => looksSame_done _

theorem withUplink_same {body : Uplink I → PortRoutine (SwitchState I) I (Except PortError β)}
    (hbody : ∀ uplink, LooksSame base slot (body uplink) (body uplink)) :
    LooksSame base slot (withUplink body) (withUplink body) := by
  have hscope : ∀ uplink, LooksSame base slot
      ((body uplink).guarded (Net.onSlot (.putBack uplink)) fun _ => false)
      ((body uplink).guarded (Net.onSlot (.putBack uplink)) fun _ => false) := fun uplink =>
    (hbody uplink).guarded (fun s s' h => h.onSlot _) fun _ _ _ => rfl
  have htake : ∀ s s' : SwitchState I, SameFor slot s s' →
      (takeUplink s).1 = (takeUplink s').1 ∧ SameFor slot (takeUplink s).2 (takeUplink s').2 := by
    intro s s' h
    exact ⟨congrArg (fun uplink => uplink.takeUplink.1) h.uplink,
      h.onSlot fun uplink => uplink.takeUplink.2⟩
  refine LooksSame.bind (.act htake) fun view => ?_
  cases view with
  | ready uplink => exact (hscope uplink).bind fun _ => looksSame_done _
  | busy => exact looksSame_done _
  | needOpen =>
    have hopen : LooksSame base slot (openUplink : PortRoutine (SwitchState I) I _) openUplink :=
      openUplink_same
    refine LooksSame.bind (hopen.guarded (fun s s' h => h.onSlot _) fun _ _ h => h ▸ rfl)
      fun opened => ?_
    cases opened with
    | error e => exact looksSame_done _
    | ok uplink => exact (hscope uplink).bind fun _ => looksSame_done _

theorem sendUpstream_same (uplink : Uplink I) (frame : Bytes) :
    LooksSame base slot (sendUpstream uplink frame) (sendUpstream uplink frame) := by
  refine looksSame_park (fun _ => rfl) fun sent => ?_
  cases sent <;> exact looksSame_done _

/-- An answer that brings a frame in. -/
theorem takeIn_of_receivedFrame {iface : I} {frame : Bytes}
    {rest : PortRoutine (SwitchState I) I (Except PortError Unit)}
    {answer : { buffer : Bytes // buffer.length = MAX_FRAME_BYTES } × Except L2Error Nat}
    (h : receivedFrame (.answer (L2Call.recvFrame iface MAX_FRAME_BYTES) answer) = some frame) :
    takeIn (demux base) rest answer = .step (demux base frame) fun _ => rest := by
  obtain ⟨buffer, e | received⟩ := answer
  · cases h
  · rw [takeIn]
    by_cases hpos : 0 < received
    · rw [receivedFrame, if_pos hpos] at h
      rw [if_pos hpos, Option.some.inj h]
      rfl
    · rw [receivedFrame, if_neg hpos] at h
      cases h

theorem drainUplink_same (uplink : Uplink I) (rounds : Nat) :
    LooksSame base slot (drainUplink (demux base) uplink rounds)
      (drainUplink (demux base) uplink rounds) := by
  induction rounds with
  | zero => exact looksSame_done _
  | succ rounds ih =>
    refine .park (fun _ _ => id) fun a a' ha => ?_
    rcases ha with rfl | ⟨frame, frame', hframe, hframe', hunicast, hunicast'⟩
    · obtain ⟨buffer, e | received⟩ := a
      · exact looksSame_done _
      · change LooksSame base slot (takeIn (demux base) _ (buffer, .ok received))
          (takeIn (demux base) _ (buffer, .ok received))
        rw [takeIn]
        split_ifs
        · exact .step (fun s s' h => h.demux _) fun _ _ _ => ih
        · exact looksSame_done _
    · change Alike _ _ Eq (takeIn (demux base) _ a) (takeIn (demux base) _ a')
      rw [takeIn_of_receivedFrame hframe, takeIn_of_receivedFrame hframe']
      refine .step (fun s s' h => ?_) fun _ _ _ => ih
      rw [demux_unicast hunicast, demux_unicast hunicast']
      exact h.enqueue fun hne => absurd rfl hne

/-- A receive looks the same to the other port. -/
theorem portRecv_same (port : Slot) :
    Alike (A := L2Answer I) (SameFor slot) (PrivateTo base slot) (fun r r' => port ≠ slot → r = r')
      (portRecv (demux base) port) (portRecv (demux base) port) := by
  have hpop : Alike (A := L2Answer I) (SameFor slot) (PrivateTo base slot)
      (fun front front' : Option Bytes => front.isSome = front'.isSome ∧ (port ≠ slot → front = front'))
      (Routine.act (popFront (σ := SwitchState I) port)) (Routine.act (popFront port)) :=
    .act fun s s' h => popFront_same h port
  refine Alike.bind hpop fun front front' hfront => ?_
  obtain ⟨hsome, hsame⟩ := hfront
  match front, front', hsome with
  | some frame, some frame', _ =>
    refine .done fun hne => ?_
    rw [hsame hne]
  | none, none, _ =>
    refine Alike.bind (withUplink_same fun uplink => drainUplink_same uplink DRAIN_BATCH)
      fun result result' hresult => ?_
    subst hresult
    match result with
    | .error e => exact .done fun _ => rfl
    | .ok none => exact .done fun _ => rfl
    | .ok (some ()) =>
      refine .step (fun s s' h => (popFront_same h port).2) fun s s' h => .done fun hne => ?_
      rw [(popFront_same h port).1.2 hne]

/-- Every operation looks the same to the other port. -/
theorem program_same (op : PortOp) :
    Alike (A := L2Answer I) (SameFor slot) (PrivateTo base slot) (SameUnless slot op) (program base op)
      (program base op) := by
  have hquiet : ∀ {β : Type} {t : PortRoutine (SwitchState I) I β} (f : β → PortResult),
      LooksSame base slot t t → Alike (SameFor slot) (PrivateTo base slot) (SameUnless slot op)
        (t >>= fun b => .done (f b)) (t >>= fun b => .done (f b)) :=
    fun f ht => Alike.bind ht fun b b' hb => .done fun _ => congrArg f hb
  cases op with
  | listInterfaces port =>
    exact hquiet .interfaces ((withUplink_same fun _ => looksSame_done _).bind
      fun _ => looksSame_done _)
  | openInterface port name =>
    exact hquiet .opened ((withUplink_same fun _ => looksSame_done _).bind
      fun _ => looksSame_done _)
  | info port =>
    refine hquiet .info (LooksSame.bind (.act fun s s' h => ⟨?_, h⟩) fun _ => looksSame_done _)
    exact congrArg UplinkSlot.params h.uplink
  | sendFrame port frame =>
    refine hquiet .sent ?_
    unfold portSend
    split_ifs
    · exact looksSame_done _
    · exact looksSame_done _
    · exact (withUplink_same fun uplink => sendUpstream_same uplink _).bind
        fun _ => looksSame_done _
  | recvFrame port capacity =>
    refine Alike.bind (portRecv_same port) fun result result' hresult => .done fun hne => ?_
    rw [hresult hne]
  | waitRecv port bound => exact .done fun _ => rfl

end Alike

/-- What is handed up was delivered in order. -/
theorem delivered_of_removed (removed : List (Bytes × Mailbox.Fate Nat)) :
    ∃ delivered : List (Bytes × Nat),
      removed.filterMap seenOf = delivered.map (fun d => d.1.take d.2) ∧
      List.Sublist (delivered.map (·.1)) (removed.map (·.1)) := by
  induction removed with
  | nil => exact ⟨[], rfl, List.Sublist.refl _⟩
  | cons p removed ih =>
    obtain ⟨delivered, hseen, hsub⟩ := ih
    obtain ⟨frame, capacity | n⟩ := p
    · by_cases hempty : frame.take capacity = []
      · exact ⟨delivered, by simpa [seenOf, hempty] using hseen, hsub.cons frame⟩
      · refine ⟨(frame, capacity) :: delivered, ?_, hsub.cons_cons frame⟩
        simpa [seenOf, hempty] using hseen
    · exact ⟨delivered, (List.filterMap_cons_none rfl).trans hseen, hsub.cons frame⟩

/-- The isolation of the ports, after a run. -/
structure Isolated (base : MacBase) (trace : List (PortLabel I)) (w : SwitchWorld I) : Prop where
  /-- A port is handed up frames of the uplink that are for it, in order, each once and as
  far as the buffers of its receives go. -/
  handed_up : ∀ slot, ∃ delivered : List (Bytes × Nat),
    handedUp slot trace = delivered.map (fun d => d.1.take d.2) ∧
    List.Sublist (delivered.map (·.1)) (uplinkFrames trace) ∧
    ∀ d ∈ delivered, ∃ h : HEADER ≤ d.1.length,
      (dstOf d.1 h).isGroup = true ∨ dstOf d.1 h = mac base slot
  /-- A frame goes upstream from its port, and is otherwise as the consumer gave it. -/
  sent : ∀ op cause iface bytes, Label.ran op cause (.called (.sendFrame iface bytes)) ∈ trace →
    ∃ slot frame, op = .sendFrame slot frame ∧ bytes.length = frame.length ∧
      bytes.take 6 = frame.take 6 ∧ bytes.drop 12 = frame.drop 12 ∧
      ∃ h : HEADER ≤ bytes.length, srcOf bytes h = mac base slot
  /-- A unicast frame for one port never comes in for the other, and with any other such
  frames in their places the run looks the same to the other port. -/
  unseen : ∀ slot, (∀ frame, unicastTo base slot frame → frame ∉ arrivals base slot.sibling trace) ∧
    ∀ events, List.Forall₂ (AlikeEvent (PrivateTo base slot)) (trace.map Label.event) events →
      ∃ trace' w', Run (World.Step (program base)) SwitchWorld.new trace' w' ∧
        trace'.map Label.event = events ∧
        List.Forall₂ (AlikeLabel (PrivateTo base slot) (SameUnless slot)) trace trace'
  /-- A frame for a port is not lost unless newer ones push it out of its full queue. -/
  accounted : ∀ slot, Accounted base slot trace (rxOf w.shared slot)

/-- An uplink with frames for the first port, of so many bytes each. -/
def framesForA (bytes : Nat) : ∀ call : L2Call Unit, Option (L2Answer Unit call)
  | .listInterfaces => some (.ok [⟨"eth0", BROADCAST, 1500, true⟩])
  | .openInterface _ => some (.ok ())
  | .recvFrame _ capacity =>
    if h : 6 ≤ capacity then
      some (⟨(mac DEFAULT_BASE .A).val ++ List.replicate (capacity - 6) 0, by
        rw [List.length_append, (mac DEFAULT_BASE .A).property, List.length_replicate]
        omega⟩, .ok bytes)
    else none
  | .sendFrame _ _ => none
  | .waitRecv _ _ => none

end Eo9.Net.Switch
