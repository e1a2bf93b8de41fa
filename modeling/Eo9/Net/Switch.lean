import Eo9.Net.Ports

/-!
# The switch

`net.l2.switch`: a port sends under its own address, and receives what is addressed to
it or to a group.
-/

namespace Eo9.Net.Switch

open Eo9.Library

variable {I : Type}

/-- A base for the ports' addresses, as `configure` accepts it. -/
structure MacBase where
  mac : Mac
  locallyAdministered : mac.val.headD 0 &&& 0x02 ≠ 0
  unicast : mac.val.headD 0 &&& 0x01 = 0

def DEFAULT_BASE : MacBase := ⟨⟨[0x02, 0xe0, 0x09, 0x00, 0x00, 0x00], rfl⟩, by decide, by decide⟩

/-- `Slot::mac`. -/
def mac (base : MacBase) (slot : Slot) : Mac := portMac base.mac slot

theorem mac_ne_mac (base : MacBase) : mac base .A ≠ mac base .B := fun h =>
  nomatch portMac_injective base.mac h

def interfaceName : Slot → String
  | .A => "vnic-a"
  | .B => "vnic-b"

abbrev SwitchState (I : Type) := Ports I

instance : HasPorts (SwitchState I) I where
  ports s := s
  setPorts x _ := x
  ports_setPorts _ _ := rfl
  setPorts_ports _ := rfl

/-- Deliver one inbound frame: to every port for a group address, to a port alone for its
own, and to none for any other. -/
def demux (base : MacBase) (frame : Bytes) (s : SwitchState I) : SwitchState I :=
  if h : HEADER ≤ frame.length then
    let dst := dstOf frame h
    if dst.isGroup then enqueue .B frame (enqueue .A frame s)
    else if dst = mac base .A then enqueue .A frame s
    else if dst = mac base .B then enqueue .B frame s
    else s
  else s

/-- The frame as it goes upstream: its source is overwritten. -/
def stamped (base : MacBase) (slot : Slot) (frame : Bytes) : Bytes :=
  copyInto frame 6 (mac base slot).val

def portSend (base : MacBase) (slot : Slot) (frame : Bytes) :
    PortRoutine (SwitchState I) I (Except PortError Nat) :=
  if frame.length < HEADER then return .error (.io (.tooShort frame.length))
  else if MAX_FRAME_BYTES < frame.length then return .error .frameTooLarge
  else do
    let sent ← withUplink fun uplink => sendUpstream uplink (stamped base slot frame)
    return orBusy "send-frame" sent

def program (base : MacBase) : PortOp → PortRoutine (SwitchState I) I PortResult :=
  portProgram interfaceName (mac base) (portSend base) (demux base)

/-- What a frame to send comes to when the sibling has the uplink. -/
def sendTurnedAway (frame : Bytes) (s : SwitchState I) : Except PortError Nat × SwitchState I :=
  if frame.length < HEADER then (.error (.io (.tooShort frame.length)), s)
  else if MAX_FRAME_BYTES < frame.length then (.error .frameTooLarge, s)
  else (.error (busy "send-frame"), s)

/-- What an operation comes to when the sibling has the uplink. -/
def turnedAway (base : MacBase) : PortOp → SwitchState I → PortResult × SwitchState I :=
  portTurnedAway interfaceName (mac base) fun _ => sendTurnedAway

variable {base : MacBase}

theorem seatOf_demux (frame : Bytes) (s : SwitchState I) :
    seatOf (demux base frame s) = seatOf s := by
  unfold demux
  split
  · dsimp only
    split_ifs <;> simp
  · rfl

theorem portSend_keeps (slot : Slot) (frame : Bytes) (s : SwitchState I) :
    Custody.Keeps seatOf L2Call.iface L2Answer.iface ⟨.start, s⟩ (portSend base slot frame) s := by
  unfold portSend
  split_ifs
  · exact rfl
  · exact rfl
  · exact (withUplink_keeps (fun uplink => sendUpstream_uses uplink _) rfl rfl).bind_done

theorem portSend_away (slot : Slot) (frame : Bytes) (s : SwitchState I) (h : seatOf s = .away) :
    (portSend base slot frame).settle s =
      (.returned (sendTurnedAway frame s).1, (sendTurnedAway frame s).2) := by
  unfold portSend sendTurnedAway
  split_ifs
  · rfl
  · rfl
  · exact Routine.settle_bind (withUplink_away h)

theorem program_keeps (op : PortOp) (s : SwitchState I) :
    Custody.Keeps seatOf L2Call.iface L2Answer.iface ⟨.start, s⟩ (program base op) s :=
  portProgram_keeps seatOf_demux portSend_keeps op s

theorem program_away (op : PortOp) (s : SwitchState I) (h : seatOf s = .away) :
    (program base op).settle s = (.returned (turnedAway base op s).1, (turnedAway base op s).2) :=
  portProgram_away portSend_away op h

end Eo9.Net.Switch

/-!
## The bridge

`net.l2.bridge`: a learning bridge between the two ports and the uplink. Frames keep
their source, and a copy for the sibling is made once the upstream has taken the frame.
-/

namespace Eo9.Net.Bridge

open Eo9.Library

variable {I : Type}

/-- Entries of the learning table. -/
def LEARN_CAP : Nat := 64

def interfaceName : Slot → String
  | .A => "bridge-a"
  | .B => "bridge-b"

/-- `Slot::advertised_mac`: a suggestion, never enforced. -/
def advertisedMac (base : Mac) (slot : Slot) : Mac := portMac base slot

/-- Where a learned address lives. -/
inductive BridgePort where
  | consumer (slot : Slot)
  | uplink
  deriving DecidableEq

structure BridgeState (I : Type) extends Ports I where
  /-- Ordered from the oldest to the newest learned. -/
  learned : List (Mac × BridgePort)

def BridgeState.new : BridgeState I := ⟨.new, []⟩

instance : HasPorts (BridgeState I) I where
  ports s := s.toPorts
  setPorts x s := { s with toPorts := x }
  ports_setPorts _ _ := rfl
  setPorts_ports _ := rfl

/-- Learn or refresh an address. Group addresses are never learned. -/
def learn (mac : Mac) (port : BridgePort) (s : BridgeState I) : BridgeState I :=
  if mac.val.headD 0 &&& 0x01 ≠ 0 then s
  else
    let learned :=
      if s.learned.any (·.1 = mac) then s.learned.eraseP (·.1 = mac)
      else if s.learned.length = LEARN_CAP then s.learned.drop 1
      else s.learned
    { s with learned := learned ++ [(mac, port)] }

def lookup (s : BridgeState I) (mac : Mac) : Option BridgePort :=
  (s.learned.find? (·.1 = mac)).map (·.2)

/-- Where a frame goes. -/
inductive Forward where
  | drop
  | local' (slot : Slot)
  | upstream
  | flood (toConsumer : Option Slot) (andUpstream : Bool)

/-- Every port but the one a frame came in on. -/
def floodFrom : BridgePort → Forward
  | .consumer slot => .flood (some slot.sibling) true
  | .uplink => .flood none false

/-- The forwarding decision, after learning. -/
def decide' (s : BridgeState I) (ingress : BridgePort) (dst : Mac) : Forward :=
  if dst.isGroup then floodFrom ingress
  else
    match lookup s dst with
    | some port =>
      if port = ingress then .drop
      else
        match port with
        | .consumer slot => .local' slot
        | .uplink => .upstream
    | none => floodFrom ingress

def ingressFromUplink (frame : Bytes) (s : BridgeState I) : BridgeState I :=
  if h : HEADER ≤ frame.length then
    let s := learn (srcOf frame h) .uplink s
    match decide' s .uplink (dstOf frame h) with
    | .drop => s
    | .upstream => s
    | .local' slot => enqueue slot frame s
    | .flood _ _ => enqueue .B frame (enqueue .A frame s)
  else s

/-- The sibling's share of a flood, once the upstream has taken the frame. -/
def deliver (toConsumer : Option Slot) (frame : Bytes) (s : BridgeState I) : BridgeState I :=
  match toConsumer with
  | some sibling => enqueue sibling frame s
  | none => s

/-- What `portSend` does with a frame for a decision. -/
def forward (frame : Bytes) : Forward → PortRoutine (BridgeState I) I (Except PortError Nat)
  | .drop => return .ok frame.length
  | .local' slot => do
      Routine.modify (enqueue slot frame)
      return .ok frame.length
  | .upstream => do
      let sent ← withUplink fun uplink => sendUpstream uplink frame
      return orBusy "send-frame" sent
  | .flood toConsumer _ => do
      match orBusy "send-frame" (← withUplink fun uplink => sendUpstream uplink frame) with
      | .error e => return .error e
      | .ok sent =>
        Routine.modify (deliver toConsumer frame)
        return .ok sent

/-- Learn the source of a frame from a port, and decide where it goes. -/
def learnAndDecide (slot : Slot) (frame : Bytes) (h : HEADER ≤ frame.length)
    (s : BridgeState I) : Forward × BridgeState I :=
  let s := learn (srcOf frame h) (.consumer slot) s
  (decide' s (.consumer slot) (dstOf frame h), s)

def portSend (slot : Slot) (frame : Bytes) :
    PortRoutine (BridgeState I) I (Except PortError Nat) :=
  if h : HEADER ≤ frame.length then
    if MAX_FRAME_BYTES < frame.length then return .error .frameTooLarge
    else do
      let decision ← Routine.act (learnAndDecide slot frame h)
      forward frame decision
  else return .error (.io (.tooShort frame.length))

def program (base : Mac) : PortOp → PortRoutine (BridgeState I) I PortResult :=
  portProgram interfaceName (advertisedMac base) portSend ingressFromUplink

/-- What a frame to send comes to when the sibling has the uplink. -/
def sendTurnedAway (slot : Slot) (frame : Bytes) (s : BridgeState I) :
    Except PortError Nat × BridgeState I :=
  if h : HEADER ≤ frame.length then
    if MAX_FRAME_BYTES < frame.length then (.error .frameTooLarge, s)
    else
      let (decision, s) := learnAndDecide slot frame h s
      match decision with
      | .drop => (.ok frame.length, s)
      | .local' slot => (.ok frame.length, enqueue slot frame s)
      | .upstream => (.error (busy "send-frame"), s)
      | .flood _ _ => (.error (busy "send-frame"), s)
  else (.error (.io (.tooShort frame.length)), s)

/-- What an operation comes to when the sibling has the uplink. -/
def turnedAway (base : Mac) : PortOp → BridgeState I → PortResult × BridgeState I :=
  portTurnedAway interfaceName (advertisedMac base) sendTurnedAway

variable {base : Mac}

@[simp] theorem seatOf_learn (mac : Mac) (port : BridgePort) (s : BridgeState I) :
    seatOf (learn mac port s) = seatOf s := by
  unfold learn
  split <;> rfl

theorem seatOf_ingressFromUplink (frame : Bytes) (s : BridgeState I) :
    seatOf (ingressFromUplink frame s) = seatOf s := by
  unfold ingressFromUplink
  split
  · dsimp only
    split <;> simp
  · rfl

theorem seatOf_deliver (toConsumer : Option Slot) (frame : Bytes) (s : BridgeState I) :
    seatOf (deliver toConsumer frame s) = seatOf s := by
  cases toConsumer with
  | none => rfl
  | some slot => exact seatOf_enqueue slot frame s

theorem forward_keeps (frame : Bytes) (decision : Forward) {s s₀ : BridgeState I}
    (h : seatOf s₀ = seatOf s) :
    Custody.Keeps seatOf L2Call.iface L2Answer.iface ⟨.start, s₀⟩ (forward frame decision) s := by
  have hsend : ∀ uplink : Uplink I, Custody.Uses (seatOf (σ := BridgeState I)) L2Call.iface
      uplink.iface (sendUpstream uplink frame) := fun uplink => sendUpstream_uses uplink frame
  cases decision with
  | drop => exact h.symm
  | local' slot => exact (seatOf_enqueue slot frame s).trans h.symm
  | upstream => exact (withUplink_keeps hsend rfl h).bind_done
  | flood toConsumer andUpstream =>
    refine Routine.Meets.bind (withUplink_keeps hsend rfl h) fun m sent s' hs' => ?_
    cases orBusy "send-frame" sent with
    | error e => exact hs'
    | ok sent => exact (seatOf_deliver toConsumer frame s').trans hs'

theorem portSend_keeps (slot : Slot) (frame : Bytes) (s : BridgeState I) :
    Custody.Keeps seatOf L2Call.iface L2Answer.iface ⟨.start, s⟩ (portSend slot frame) s := by
  unfold portSend
  split_ifs
  · exact rfl
  · exact forward_keeps frame _ (seatOf_learn _ _ s).symm
  · exact rfl

theorem portSend_away (slot : Slot) (frame : Bytes) (s : BridgeState I) (h : seatOf s = .away) :
    (portSend slot frame).settle s =
      (.returned (sendTurnedAway slot frame s).1, (sendTurnedAway slot frame s).2) := by
  unfold portSend sendTurnedAway
  split_ifs with hlength hlarge
  · rfl
  · have haway : seatOf (learnAndDecide slot frame hlength s).2 = .away :=
      (seatOf_learn _ _ s).trans h
    rw [Routine.act_bind, Routine.settle]
    rcases hdecided : learnAndDecide slot frame hlength s with ⟨decision, s'⟩
    rw [hdecided] at haway
    cases decision with
    | drop => rfl
    | local' slot => rfl
    | upstream => exact Routine.settle_bind (withUplink_away haway)
    | flood toConsumer andUpstream => exact Routine.settle_bind (withUplink_away haway)
  · rfl

theorem program_keeps (op : PortOp) (s : BridgeState I) :
    Custody.Keeps seatOf L2Call.iface L2Answer.iface ⟨.start, s⟩ (program base op) s :=
  portProgram_keeps seatOf_ingressFromUplink portSend_keeps op s

theorem program_away (op : PortOp) (s : BridgeState I) (h : seatOf s = .away) :
    (program base op).settle s = (.returned (turnedAway base op s).1, (turnedAway base op s).2) :=
  portProgram_away portSend_away op h

end Eo9.Net.Bridge
