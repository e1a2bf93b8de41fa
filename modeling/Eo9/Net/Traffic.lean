import Eo9.Net.Switch
import Eo9.Library.Mailbox

/-!
# The frames that pass the switch

What one stretch of an operation does to the queues and to the uplink: frames come in
with the answer of a receive, leave a queue with the result of one, and go upstream with
the call of a send. Over a run, every frame addressed to a port is accounted for.
-/

namespace Eo9.Net.Switch

open Eo9.Library

variable {I : Type} {base : MacBase}

/-- Whether a frame is for a port. -/
def addressed (base : MacBase) (slot : Slot) (frame : Bytes) : Bool :=
  if h : HEADER ≤ frame.length then
    (dstOf frame h).isGroup || dstOf frame h = mac base slot
  else false

def unicastTo (base : MacBase) (slot : Slot) (frame : Bytes) : Prop :=
  ∃ h : HEADER ≤ frame.length, (dstOf frame h).isGroup = false ∧ dstOf frame h = mac base slot

def receivedFrame : Routine.Cause (L2Answer I) → Option Bytes
  | .answer (.recvFrame _ _) (buffer, .ok received) =>
    if 0 < received then some (buffer.val.take (min received MAX_FRAME_BYTES)) else none
  | .answer (.recvFrame _ _) (_, .error _) => none
  | .answer .listInterfaces _ => none
  | .answer (.openInterface _) _ => none
  | .answer (.sendFrame _ _) _ => none
  | .answer (.waitRecv _ _) _ => none
  | .start => none

/-- The queues with what a stretch brought in. -/
def afterArrival (base : MacBase) (m : Routine.Moment (SwitchState I) (L2Answer I))
    (slot : Slot) : List Bytes :=
  match receivedFrame m.cause with
  | some frame =>
    if addressed base slot frame then Mailbox.push RX_QUEUE_CAP (rxOf m.before slot) frame
    else rxOf m.before slot
  | none => rxOf m.before slot

/-- What an operation may send upstream. -/
def SentBy (base : MacBase) (op : PortOp) (call : L2Call I) : Prop :=
  ∀ iface bytes, call = .sendFrame iface bytes → ∃ slot frame, op = .sendFrame slot frame ∧
    HEADER ≤ frame.length ∧ frame.length ≤ MAX_FRAME_BYTES ∧ bytes = stamped base slot frame

/-- How an operation that ends leaves the queues: a receive can take a frame. -/
inductive Handed (op : PortOp) (result : PortResult) (queues queues' : Slot → List Bytes) : Prop
  | frame {slot : Slot} {capacity : Nat} {frame : Bytes} {rest : List Bytes}
      (hop : op = .recvFrame slot capacity)
      (hresult : result = .received (.ok (frame.take capacity)))
      (hqueue : queues slot = frame :: rest) (hqueues : queues' = Function.update queues slot rest)
  | nothing
      (hresult : ∀ slot capacity bytes, op = .recvFrame slot capacity →
        result = .received (.ok bytes) → bytes = [])
      (hqueues : queues' = queues)

theorem addressed_iff {slot : Slot} {frame : Bytes} : addressed base slot frame = true ↔
    ∃ h : HEADER ≤ frame.length, (dstOf frame h).isGroup = true ∨ dstOf frame h = mac base slot := by
  unfold addressed
  by_cases h : HEADER ≤ frame.length <;> simp [h]

/-- A unicast frame for one port is not for the other. -/
theorem not_addressed_sibling {slot : Slot} {frame : Bytes} (h : unicastTo base slot frame) :
    addressed base slot.sibling frame = false := by
  obtain ⟨hheader, hgroup, hdst⟩ := h
  rw [Bool.eq_false_iff, ne_eq, addressed_iff]
  intro ⟨_, hfor⟩
  rcases hfor with hgroup' | hdst'
  · exact Bool.eq_false_iff.mp hgroup hgroup'
  · exact slot.sibling_ne (portMac_injective base.mac (hdst'.symm.trans hdst))

/-- A frame goes upstream from its port, and is otherwise as it was given. -/
theorem stamped_spec (slot : Slot) {frame : Bytes} (h : HEADER ≤ frame.length) :
    ∃ h' : HEADER ≤ (stamped base slot frame).length,
      srcOf (stamped base slot frame) h' = mac base slot ∧
      (stamped base slot frame).length = frame.length ∧
      (stamped base slot frame).take 6 = frame.take 6 ∧
      (stamped base slot frame).drop 12 = frame.drop 12 := by
  have hmac : (mac base slot).val.length = 6 := (mac base slot).property
  have hsix : 6 ≤ frame.length := Nat.le_trans (by decide) h
  have hlength : (stamped base slot frame).length = frame.length :=
    length_copyInto (by rw [hmac]; exact Nat.le_trans (by decide) h)
  have hsrc := @sub_copyInto _ frame (mac base slot).val 6 hsix
  have hdrop := @drop_copyInto _ frame (mac base slot).val 6 hsix
  rw [hmac] at hsrc hdrop
  exact ⟨hlength.symm ▸ h, Subtype.ext hsrc, hlength, take_copyInto hsix, hdrop⟩

theorem rxOf_enqueue (slot : Slot) (frame : Bytes) (s : SwitchState I) :
    rxOf (enqueue slot frame s) =
      Function.update (rxOf s) slot (Mailbox.push RX_QUEUE_CAP (rxOf s slot) frame) :=
  rxOf_setRx slot _ s

theorem rxOf_demux (frame : Bytes) (s : SwitchState I) (slot : Slot) :
    rxOf (demux base frame s) slot =
      if addressed base slot frame then Mailbox.push RX_QUEUE_CAP (rxOf s slot) frame
      else rxOf s slot := by
  have hdistinct := mac_ne_mac base
  unfold demux addressed
  by_cases h : HEADER ≤ frame.length
  · simp only [dif_pos h]
    by_cases hgroup : (dstOf frame h).isGroup
    · cases slot <;> simp [hgroup, rxOf_enqueue]
    · by_cases hA : dstOf frame h = mac base .A
      · rw [hA] at hgroup
        cases slot <;> simp [hA, hgroup, hdistinct, rxOf_enqueue]
      · by_cases hB : dstOf frame h = mac base .B
        · rw [hB] at hgroup
          cases slot <;> simp [hB, hgroup, hdistinct.symm, rxOf_enqueue]
        · cases slot <;> simp [hgroup, hA, hB]
  · simp [h]

section Stretch

/- The operation whose stretches these are. -/
variable (base) (op : PortOp)

/-- At a call the queues are those with the arrivals, and a frame goes upstream if it is
the operation's. -/
def TrafficCalls (m : Routine.Moment (SwitchState I) (L2Answer I)) (call : L2Call I)
    (s : SwitchState I) : Prop :=
  rxOf s = afterArrival base m ∧ SentBy base op call

def TrafficDrops (_ : L2Call I) (s s' : SwitchState I) : Prop := rxOf s' = rxOf s

/-- In the middle of an operation the queues are those with the arrivals. -/
def Middle {β : Type} (m : Routine.Moment (SwitchState I) (L2Answer I)) (_ : β)
    (s : SwitchState I) : Prop :=
  rxOf s = afterArrival base m

def TrafficMeets {β : Type}
    (post : Routine.Moment (SwitchState I) (L2Answer I) → β → SwitchState I → Prop)
    (m : Routine.Moment (SwitchState I) (L2Answer I)) (t : PortRoutine (SwitchState I) I β)
    (s : SwitchState I) : Prop :=
  Routine.Meets TrafficDrops (TrafficCalls base op) (fun _ _ => True) post m t s

variable {base op} {m : Routine.Moment (SwitchState I) (L2Answer I)} {s : SwitchState I}
  {β : Type}

/-- A call other than a receive brings nothing in. -/
theorem traffic_park {call : L2Call I} {resume : L2Answer I call → PortRoutine (SwitchState I) I β}
    {post : Routine.Moment (SwitchState I) (L2Answer I) → β → SwitchState I → Prop}
    (hs : rxOf s = afterArrival base m) (hcall : SentBy base op call)
    (hresume : ∀ a s', TrafficMeets base op post ⟨.answer call a, s'⟩ (resume a) s') :
    TrafficMeets base op post m (.park call id resume) s :=
  ⟨⟨hs, hcall⟩, fun _ => True, trivial, fun _ _ _ _ => trivial, fun _ _ => rfl,
    fun a s' _ => hresume a s'⟩

theorem sentBy_of_ne {call : L2Call I} (h : ∀ iface bytes, call ≠ .sendFrame iface bytes) :
    SentBy base op call :=
  fun iface bytes heq => absurd heq (h iface bytes)

theorem openUplink_traffic (hs : rxOf s = afterArrival base m) :
    TrafficMeets base op (Middle base) m openUplink s := by
  refine traffic_park hs (sentBy_of_ne fun _ _ => nofun) fun listed s' => ?_
  cases listed with
  | error e => exact rfl
  | ok interfaces =>
    cases interfaces with
    | nil => exact rfl
    | cons first rest =>
      refine traffic_park rfl (sentBy_of_ne fun _ _ => nofun) fun opened s' => ?_
      cases opened with
      | error e => exact rfl
      | ok iface => exact rxOf_onSlot _ s'

/-- The uplink is acquired and put back without a look at the queues. -/
theorem withUplink_traffic {body : Uplink I → PortRoutine (SwitchState I) I (Except PortError β)}
    (hbody : ∀ uplink m s, rxOf s = afterArrival base m →
      TrafficMeets base op (Middle base) m (body uplink) s)
    (hs : rxOf s = afterArrival base m) :
    TrafficMeets base op (Middle base) m (withUplink body) s := by
  have hscope : ∀ uplink m s, rxOf s = afterArrival base m →
      TrafficMeets base op (Middle base) m
        ((body uplink).guarded (onSlot (.putBack uplink)) fun _ => false) s := by
    intro uplink m s hs
    refine (hbody uplink m s hs).guarded (fun c s s' hdrop => ?_) (fun m b s hkept => nomatch hkept)
      fun m b s _ hpost => ?_
    · exact (rxOf_onSlot _ s').trans hdrop
    · exact (rxOf_onSlot _ s).trans hpost
  have htake : rxOf (takeUplink s).2 = afterArrival base m := (rxOf_onSlot _ s).trans hs
  unfold withUplink withResource TrafficMeets
  rw [Routine.act_bind, Routine.Meets]
  cases (takeUplink s).1 with
  | ready uplink => exact Routine.Meets.bind (hscope uplink m _ htake) fun _ _ _ hpost => hpost
  | busy => exact htake
  | needOpen =>
    have hopen : TrafficMeets base op (Middle base) m
        (openUplink.guarded (onSlot .release) fun opened => opened.isOk) (takeUplink s).2 := by
      refine (openUplink_traffic htake).guarded (fun c s s' hdrop => ?_)
        (fun m b s _ hpost => hpost) fun m b s _ hpost => ?_
      · exact (rxOf_onSlot _ s').trans hdrop
      · exact (rxOf_onSlot _ s).trans hpost
    refine Routine.Meets.bind hopen fun m opened s hpost => ?_
    cases opened with
    | error e => exact hpost
    | ok uplink =>
      exact Routine.Meets.bind (hscope uplink m s hpost) fun _ _ _ hpost => hpost

theorem sendUpstream_traffic {slot : Slot} {frame : Bytes} (hop : op = .sendFrame slot frame)
    (hheader : HEADER ≤ frame.length) (hmax : frame.length ≤ MAX_FRAME_BYTES) (uplink : Uplink I)
    (hs : rxOf s = afterArrival base m) :
    TrafficMeets base op (Middle base) m (sendUpstream uplink (stamped base slot frame)) s := by
  refine traffic_park hs ?_ fun sent s' => ?_
  · intro iface bytes heq
    cases heq
    exact ⟨slot, frame, hop, hheader, hmax, rfl⟩
  · cases sent <;> exact rfl

theorem takeIn_traffic {iface : I} {rest : PortRoutine (SwitchState I) I (Except PortError Unit)}
    (hrest : ∀ m s, rxOf s = afterArrival base m → TrafficMeets base op (Middle base) m rest s)
    (answer : { buffer : Bytes // buffer.length = MAX_FRAME_BYTES } × Except L2Error Nat) :
    TrafficMeets base op (Middle base) ⟨.answer (.recvFrame iface MAX_FRAME_BYTES) answer, s⟩
      (takeIn (demux base) rest answer) s := by
  rcases answer with ⟨buffer, e | received⟩
  · exact rfl
  · rw [takeIn]
    by_cases hpos : 0 < received
    · rw [if_pos hpos]
      refine hrest _ _ (funext fun slot => ?_)
      simp only [rxOf_demux, afterArrival, receivedFrame, if_pos hpos]
    · rw [if_neg hpos]
      refine funext fun slot => ?_
      simp only [afterArrival, receivedFrame, if_neg hpos]

theorem drainUplink_traffic (uplink : Uplink I) (rounds : Nat)
    (hs : rxOf s = afterArrival base m) :
    TrafficMeets base op (Middle base) m (drainUplink (demux base) uplink rounds) s := by
  induction rounds generalizing m s with
  | zero => exact hs
  | succ rounds ih =>
    exact traffic_park hs (sentBy_of_ne fun _ _ => nofun) fun answer s' =>
      takeIn_traffic (fun m s hs => ih hs) answer

/-- A receive of a port hands up the first frame of its queue, or nothing. -/
theorem portRecv_traffic (slot : Slot) (hs : rxOf s = afterArrival base m) :
    TrafficMeets base op
      (fun m result s =>
        (∃ frame rest, result = .ok (some frame) ∧ afterArrival base m slot = frame :: rest ∧
          rxOf s = Function.update (afterArrival base m) slot rest) ∨
        ((∀ frame, result ≠ .ok (some frame)) ∧ rxOf s = afterArrival base m))
      m (portRecv (demux base) slot) s := by
  have hpop : ∀ (m : Routine.Moment (SwitchState I) (L2Answer I)) (s : SwitchState I), rxOf s = afterArrival base m →
      (∃ frame rest, (popFront slot s).1 = some frame ∧ afterArrival base m slot = frame :: rest ∧
        rxOf (popFront slot s).2 = Function.update (afterArrival base m) slot rest) ∨
      ((popFront slot s).1 = none ∧ rxOf (popFront slot s).2 = afterArrival base m) := by
    intro m s hs
    unfold popFront
    cases hqueue : rxOf s slot with
    | nil => exact .inr ⟨rfl, hs⟩
    | cons frame rest =>
      refine .inl ⟨frame, rest, rfl, hs ▸ hqueue, ?_⟩
      rw [rxOf_setRx, hs]
  unfold portRecv TrafficMeets
  rw [Routine.act_bind, Routine.Meets]
  rcases hpop m s hs with ⟨frame, rest, hfront, hqueue, hrx⟩ | ⟨hfront, hrx⟩
  · rw [hfront]
    exact .inl ⟨frame, rest, rfl, hqueue, hrx⟩
  · rw [hfront]
    refine Routine.Meets.bind (withUplink_traffic (fun uplink m s hs =>
      drainUplink_traffic uplink DRAIN_BATCH hs) hrx) fun m result s hs => ?_
    rcases result with e | _ | _
    · exact .inr ⟨fun _ heq => (by cases heq), hs⟩
    · exact .inr ⟨fun _ heq => (by cases heq), hs⟩
    · rcases hpop m s hs with ⟨frame, rest, hfront, hqueue, hrx⟩ | ⟨hfront, hrx⟩
      · exact .inl ⟨frame, rest, by rw [hfront], hqueue, hrx⟩
      · refine .inr ⟨fun frame heq => ?_, hrx⟩
        rw [hfront] at heq
        cases heq

end Stretch

/-- The end of an operation. -/
def TrafficPost (base : MacBase) (op : PortOp) (m : Routine.Moment (SwitchState I) (L2Answer I))
    (result : PortResult) (s : SwitchState I) : Prop :=
  Handed op result (afterArrival base m) (rxOf s)

/-- Every stretch of the switch's operations accounts for its frames. -/
theorem program_traffic (op : PortOp) (s : SwitchState I) :
    TrafficMeets base op (TrafficPost base op) ⟨.start, s⟩ (program base op) s := by
  have hs : rxOf s = afterArrival base ⟨.start, s⟩ := rfl
  have hquiet : ∀ {β : Type} {t : PortRoutine (SwitchState I) I β} (f : β → PortResult),
      TrafficMeets base op (Middle base) ⟨.start, s⟩ t s →
      (∀ slot capacity, op ≠ .recvFrame slot capacity) →
      TrafficMeets base op (TrafficPost base op) ⟨.start, s⟩ (t >>= fun b => .done (f b)) s :=
    fun f ht hop => Routine.Meets.bind ht fun m b s hpost =>
      .nothing (fun slot capacity _ heq => absurd heq (hop slot capacity)) hpost
  cases op with
  | listInterfaces slot =>
    refine hquiet .interfaces ?_ (fun _ _ => nofun)
    exact Routine.Meets.bind (withUplink_traffic (fun _ _ _ hs => hs) hs) fun _ _ _ hs => hs
  | openInterface slot name =>
    refine hquiet .opened ?_ (fun _ _ => nofun)
    exact Routine.Meets.bind (withUplink_traffic (fun _ _ _ hs => hs) hs) fun _ _ _ hs => hs
  | info slot => exact .nothing (fun _ _ _ => nofun) rfl
  | sendFrame slot frame =>
    refine hquiet .sent ?_ (fun _ _ => nofun)
    unfold portSend
    split_ifs with hshort hlarge
    · exact hs
    · exact hs
    · exact Routine.Meets.bind (withUplink_traffic (fun uplink m s hs =>
        sendUpstream_traffic rfl (Nat.le_of_not_lt hshort) (Nat.le_of_not_lt hlarge) uplink hs)
        hs) fun _ _ _ hs => hs
  | recvFrame slot capacity =>
    refine Routine.Meets.bind (portRecv_traffic slot hs) fun m result s hpost => ?_
    rcases hpost with ⟨frame, rest, rfl, hqueue, hrx⟩ | ⟨hnone, hrx⟩
    · exact .frame rfl rfl hqueue hrx
    · refine .nothing (fun _ _ bytes _ hbytes => ?_) hrx
      match result with
      | .error e => exact nomatch hbytes
      | .ok none =>
        obtain rfl := Except.ok.inj (PortResult.received.inj hbytes)
        rfl
      | .ok (some frame) => exact absurd rfl (hnone frame)
  | waitRecv slot bound => exact .nothing (fun _ _ _ => nofun) rfl

end Eo9.Net.Switch
