import Eo9.Net.L2

/-!
# Two ports on one uplink

What `net.l2.switch` and `net.l2.bridge` share: two ports with an address each, the errors of a
port, and the acquisition of the uplink for one operation.
-/

namespace Eo9.Net

open Eo9.Library

variable {I : Type}

/-- Frames a port's receive queue holds. -/
def RX_QUEUE_CAP : Nat := 32

/-- The largest frame that is queued or forwarded. -/
def MAX_FRAME_BYTES : Nat := 2048

/-- Receive attempts against the uplink per drain. -/
def DRAIN_BATCH : Nat := 16

/-- One of the two ports. -/
inductive Slot where
  | A
  | B
  deriving DecidableEq

namespace Slot

def index : Slot → Nat
  | A => 0
  | B => 1

def sibling : Slot → Slot
  | A => B
  | B => A

theorem sibling_ne (slot : Slot) : slot.sibling ≠ slot := by
  cases slot <;> decide

theorem eq_or_sibling (slot other : Slot) : other = slot ∨ other = slot.sibling := by
  cases slot <;> cases other <;> decide

end Slot

/-- The address of a port: the base with the last octet advanced by the index + 1,
wrapping. -/
def portMac (base : Mac) (slot : Slot) : Mac :=
  ⟨base.val.set 5 (base.val.getD 5 0 + UInt8.ofNat (slot.index + 1)), by
    rw [List.length_set, base.property]⟩

theorem portMac_injective (base : Mac) {slot slot' : Slot}
    (h : portMac base slot = portMac base slot') : slot = slot' := by
  have hlength : 5 < base.val.length := by rw [base.property]; decide
  have hlast := congrArg (fun mac : Mac => mac.val[5]?) h
  simp only [portMac, List.getElem?_set_self hlength, Option.some.injEq] at hlast
  have hindex := (UInt8.add_right_inj _).mp hlast
  cases slot <;> cases slot' <;> first | rfl | exact absurd hindex (by decide)

/-- What an `io` error says. -/
inductive Message where
  | busy (what : String)
  | uplink (e : L2Error)
  | noInterfaces
  | tooShort (bytes : Nat)

/-- The errors of a port (`SwitchError` and `BridgeError`). -/
inductive PortError where
  | denied
  | linkDown
  | frameTooLarge
  | noSuchInterface
  | io (message : Message)

/-- The sibling port holds the uplink. -/
def busy (what : String) : PortError := .io (.busy what)

/-- The uplink's own error, preserved in kind where the kinds align. -/
def uplinkFailure : L2Error → PortError
  | .denied => .denied
  | .linkDown => .linkDown
  | .frameTooLarge => .frameTooLarge
  | other => .io (.uplink other)

/-- The operations of the two ports. -/
inductive PortOp where
  | listInterfaces (slot : Slot)
  | openInterface (slot : Slot) (name : String)
  | info (slot : Slot)
  | sendFrame (slot : Slot) (frame : Bytes)
  | recvFrame (slot : Slot) (capacity : Nat)
  | waitRecv (slot : Slot) (maxWaitNs : Nat)

def PortOp.slot : PortOp → Slot
  | listInterfaces slot => slot
  | openInterface slot _ => slot
  | info slot => slot
  | sendFrame slot _ => slot
  | recvFrame slot _ => slot
  | waitRecv slot _ => slot

inductive PortResult where
  | interfaces (result : Except PortError InterfaceInfo)
  | opened (result : Except PortError Unit)
  | info (interface : InterfaceInfo)
  | sent (result : Except PortError Nat)
  /-- The bytes written to the caller's buffer. -/
  | received (result : Except PortError Bytes)
  | waited

/-- What both middlewares keep: the uplink in its slot, and a receive queue per port. -/
structure Ports (I : Type) where
  slot : UplinkSlot I
  rx : Slot → List Bytes

def Ports.new : Ports I := ⟨.new, fun _ => []⟩

/-- A state with these ports in it. -/
class HasPorts (σ : Type) (I : outParam Type) where
  ports : σ → Ports I
  setPorts : Ports I → σ → σ
  ports_setPorts : ∀ x s, ports (setPorts x s) = x
  setPorts_ports : ∀ s, setPorts (ports s) s = s

section Operations

variable {σ : Type} [HasPorts σ I] {β : Type}

def onSlot (f : UplinkSlot I → UplinkSlot I) (s : σ) : σ :=
  HasPorts.setPorts { HasPorts.ports s with slot := f (HasPorts.ports s).slot } s

def rxOf (s : σ) : Slot → List Bytes := (HasPorts.ports s).rx

def setRx (slot : Slot) (queue : List Bytes) (s : σ) : σ :=
  HasPorts.setPorts { HasPorts.ports s with rx := Function.update (rxOf s) slot queue } s

/-- Bounded enqueue: drop the oldest frame on overflow. -/
def enqueue (slot : Slot) (frame : Bytes) (s : σ) : σ :=
  let queue := rxOf s slot
  let queue := if queue.length = RX_QUEUE_CAP then queue.drop 1 else queue
  setRx slot (queue ++ [frame]) s

def popFront (slot : Slot) (s : σ) : Option Bytes × σ :=
  match rxOf s slot with
  | [] => (none, s)
  | frame :: queue => (some frame, setRx slot queue s)

/-- An operation on the shared state that calls the uplink. -/
abbrev PortRoutine (σ I β : Type) := Routine σ (L2Answer I) β

def takeUplink (s : σ) : View (Uplink I) × σ :=
  ((HasPorts.ports s).slot.takeUplink.1, onSlot (fun slot => slot.takeUplink.2) s)

/-- First-use bring-up: the first interface that the upstream lists. -/
def openUplink : PortRoutine σ I (Except PortError (Uplink I)) := do
  match ← Routine.await (A := L2Answer I) L2Call.listInterfaces with
  | .error e => return .error (uplinkFailure e)
  | .ok [] => return .error (.io .noInterfaces)
  | .ok (first :: _) =>
    match ← Routine.await (A := L2Answer I) (.openInterface first.name) with
    | .error e => return .error (uplinkFailure e)
    | .ok iface =>
      Routine.modify (onSlot (.cacheParams (first.mtu, first.up)))
      return .ok ⟨iface, first.mtu, first.up⟩

/-- `acquire_uplink` and the scope of its guard. Nothing comes back if the sibling
port holds the uplink. -/
def withUplink (body : Uplink I → PortRoutine σ I (Except PortError β)) :
    PortRoutine σ I (Except PortError (Option β)) :=
  withResource takeUplink (onSlot .release) (fun uplink => onSlot (.putBack uplink)) openUplink
    body

/-- An operation that reports a held uplink as a typed error. -/
def orBusy (what : String) : Except PortError (Option β) → Except PortError β
  | .error e => .error e
  | .ok none => .error (busy what)
  | .ok (some result) => .ok result

def sendUpstream (uplink : Uplink I) (frame : Bytes) : PortRoutine σ I (Except PortError Nat) := do
  match ← Routine.await (A := L2Answer I) (.sendFrame uplink.iface frame) with
  | .error e => return .error (uplinkFailure e)
  | .ok sent => return .ok sent

/-- One received frame of a drain, and the rest of the drain if there was one. -/
def takeIn (ingress : Bytes → σ → σ) (rest : PortRoutine σ I (Except PortError Unit)) :
    { buffer : Bytes // buffer.length = MAX_FRAME_BYTES } × Except L2Error Nat →
      PortRoutine σ I (Except PortError Unit)
  | (buffer, .ok received) =>
    if 0 < received then do
      Routine.modify (ingress (buffer.val.take (min received MAX_FRAME_BYTES)))
      rest
    else return .ok ()
  | (_, .error e) => return .error (uplinkFailure e)

/-- Pull what the uplink has waiting, and take every frame in. -/
def drainUplink (ingress : Bytes → σ → σ) (uplink : Uplink I) :
    Nat → PortRoutine σ I (Except PortError Unit)
  | 0 => return .ok ()
  | rounds + 1 => do
      let answer ← Routine.await (A := L2Answer I) (.recvFrame uplink.iface MAX_FRAME_BYTES)
      takeIn ingress (drainUplink ingress uplink rounds) answer

/-- `port_list`: exactly one interface, with the uplink's link parameters. -/
def portList (name : String) (mac : Mac) : PortRoutine σ I (Except PortError InterfaceInfo) := do
  let listed ← withUplink fun uplink => return .ok ⟨name, mac, uplink.mtu, uplink.up⟩
  return orBusy "list-interfaces" listed

/-- `port_open`: the port's single interface name, strictly. -/
def portOpen (interfaceName name : String) : PortRoutine σ I (Except PortError Unit) := do
  let opened ← withUplink fun _ =>
    return if name = interfaceName then .ok () else .error .noSuchInterface
  return orBusy "open-interface" opened

/-- `info`: what bring-up cached. -/
def portInfo (name : String) (mac : Mac) : PortRoutine σ I InterfaceInfo := do
  let params ← Routine.get fun s : σ => (HasPorts.ports s).slot.params
  let (mtu, up) := params.getD (0, false)
  return ⟨name, mac, mtu, up⟩

/-- `port_recv`: serve the port's queue, draining the uplink when it is empty. -/
def portRecv (ingress : Bytes → σ → σ) (slot : Slot) :
    PortRoutine σ I (Except PortError (Option Bytes)) := do
  match ← Routine.act (popFront slot) with
  | some frame => return .ok (some frame)
  | none =>
    match ← withUplink fun uplink => drainUplink ingress uplink DRAIN_BATCH with
    | .error e => return .error e
    | .ok none => return .ok none
    | .ok (some ()) => return .ok (← Routine.act (popFront slot))

/-- What `recv-frame` writes to the caller's buffer. -/
def received (capacity : Nat) : Except PortError (Option Bytes) → PortResult
  | .ok (some frame) => .received (.ok (frame.take capacity))
  | .ok none => .received (.ok [])
  | .error e => .received (.error e)

/-- The operations of the ports, by what sets a middleware apart: the names and the
addresses of its interfaces, what it does with a frame to send, and with one received. -/
def portProgram (interfaceName : Slot → String) (mac : Slot → Mac)
    (portSend : Slot → Bytes → PortRoutine σ I (Except PortError Nat)) (ingress : Bytes → σ → σ) :
    PortOp → PortRoutine σ I PortResult
  | .listInterfaces slot => return .interfaces (← portList (interfaceName slot) (mac slot))
  | .openInterface slot name => return .opened (← portOpen (interfaceName slot) name)
  | .info slot => return .info (← portInfo (interfaceName slot) (mac slot))
  | .sendFrame slot frame => return .sent (← portSend slot frame)
  | .recvFrame slot capacity => return received capacity (← portRecv ingress slot)
  | .waitRecv _ _ => return .waited

def seatOf (s : σ) : Seat I := (HasPorts.ports s).slot.seat

@[simp] theorem ports_onSlot (f : UplinkSlot I → UplinkSlot I) (s : σ) :
    HasPorts.ports (onSlot f s) =
      { HasPorts.ports s with slot := f (HasPorts.ports s).slot } :=
  HasPorts.ports_setPorts _ _

@[simp] theorem rxOf_onSlot (f : UplinkSlot I → UplinkSlot I) (s : σ) :
    rxOf (onSlot f s) = rxOf s := by
  simp [rxOf]

@[simp] theorem slot_setRx (slot : Slot) (queue : List Bytes) (s : σ) :
    (HasPorts.ports (setRx slot queue s)).slot = (HasPorts.ports s).slot := by
  rw [setRx, HasPorts.ports_setPorts]

@[simp] theorem rxOf_setRx (slot : Slot) (queue : List Bytes) (s : σ) :
    rxOf (setRx slot queue s) = Function.update (rxOf s) slot queue := by
  rw [rxOf, setRx, HasPorts.ports_setPorts]

theorem slot_popFront (slot : Slot) (s : σ) :
    (HasPorts.ports (popFront slot s).2).slot = (HasPorts.ports s).slot := by
  unfold popFront
  split
  · rfl
  · exact slot_setRx slot _ s

theorem seatOf_onSlot (f : UplinkSlot I → UplinkSlot I) (s : σ) :
    seatOf (onSlot f s) = (f (HasPorts.ports s).slot).seat := by
  rw [seatOf, ports_onSlot]

theorem takeUplink_lawful : Custody.Lawful (seatOf (σ := σ)) Uplink.iface takeUplink
    (onSlot .release) fun uplink => onSlot (.putBack uplink) where
  take_vacant s h := by
    obtain ⟨hopen, haway⟩ := UplinkSlot.lawful.take_vacant _ h
    exact ⟨hopen, (seatOf_onSlot (fun slot => slot.takeUplink.2) s).trans haway⟩
  take_home s i h := by
    obtain ⟨uplink, hready, hname, haway⟩ := UplinkSlot.lawful.take_home _ i h
    exact ⟨uplink, hready, hname, (seatOf_onSlot (fun slot => slot.takeUplink.2) s).trans haway⟩
  take_away s h := by
    have htake := UplinkSlot.lawful.take_away _ h
    rw [takeUplink, onSlot, htake]
    exact congrArg _ (HasPorts.setPorts_ports s)
  release_away s h := (seatOf_onSlot _ s).trans (UplinkSlot.lawful.release_away _ h)
  putBack_away uplink s h := (seatOf_onSlot _ s).trans (UplinkSlot.lawful.putBack_away _ _ h)

theorem openUplink_bringsUp : Custody.BringsUp (seatOf (σ := σ)) L2Call.iface L2Answer.iface
    Uplink.iface openUplink := by
  intro m s haway howed
  have hcall : ∀ call : L2Call I, call.iface = none →
      ∀ m s, seatOf (σ := σ) s = .away → Custody.owed seatOf L2Call.iface L2Answer.iface m =
        .vacant → Custody.Calls seatOf L2Call.iface L2Answer.iface m call s :=
    fun call hnone m s hs hm => ⟨hs, by rw [hm, hnone]; rfl⟩
  refine ⟨hcall _ rfl m s haway howed, (seatOf · = .away), haway, fun _ _ h h' => h' h,
    fun s' hs' => ⟨rfl, hs'⟩, fun listed s' hs' => ?_⟩
  cases listed with
  | error e => exact ⟨hs', rfl⟩
  | ok interfaces =>
    cases interfaces with
    | nil => exact ⟨hs', rfl⟩
    | cons first rest =>
      refine ⟨hcall _ rfl _ _ hs' rfl, (seatOf · = .away), hs', fun _ _ h h' => h' h,
        fun s' hs' => ⟨rfl, hs'⟩, fun opened s' hs' => ?_⟩
      cases opened with
      | error e => exact ⟨hs', rfl⟩
      | ok iface => exact ⟨(seatOf_onSlot _ s').trans hs', rfl⟩

theorem sendUpstream_uses (uplink : Uplink I) (frame : Bytes) :
    Custody.Uses (seatOf (σ := σ)) L2Call.iface uplink.iface (sendUpstream uplink frame) := by
  refine ⟨rfl, fun _ => rfl, fun sent => ?_⟩
  cases sent <;> trivial

theorem takeIn_uses {ingress : Bytes → σ → σ} {rest : PortRoutine σ I (Except PortError Unit)}
    {iface : I} (hingress : ∀ frame s, seatOf (ingress frame s) = seatOf s)
    (hrest : Custody.Uses seatOf L2Call.iface iface rest)
    (answer : { buffer : Bytes // buffer.length = MAX_FRAME_BYTES } × Except L2Error Nat) :
    Custody.Uses seatOf L2Call.iface iface (takeIn ingress rest answer) := by
  rcases answer with ⟨buffer, e | received⟩
  · trivial
  · rw [takeIn]
    split
    · exact ⟨fun s => hingress _ s, fun _ => hrest⟩
    · trivial

theorem drainUplink_uses {ingress : Bytes → σ → σ}
    (hingress : ∀ frame s, seatOf (ingress frame s) = seatOf s) (uplink : Uplink I)
    (rounds : Nat) :
    Custody.Uses seatOf L2Call.iface uplink.iface (drainUplink ingress uplink rounds) := by
  induction rounds with
  | zero => trivial
  | succ rounds ih => exact ⟨rfl, fun _ => rfl, takeIn_uses hingress ih⟩

/-- An operation on the uplink keeps its custody, whatever it does in between. -/
theorem withUplink_keeps {body : Uplink I → PortRoutine σ I (Except PortError β)}
    (hbody : ∀ uplink, Custody.Uses seatOf L2Call.iface uplink.iface (body uplink)) {s : σ}
    {m : Routine.Moment σ (L2Answer I)} (hm : m.cause = .start) (hs : seatOf m.before = seatOf s) :
    Custody.Keeps seatOf L2Call.iface L2Answer.iface m (withUplink body) s :=
  takeUplink_lawful.keeps openUplink_bringsUp hbody hm hs

/-- An operation that finds the uplink claimed learns it without a call. -/
theorem withUplink_away {body : Uplink I → PortRoutine σ I (Except PortError β)} {s : σ}
    (h : seatOf s = .away) : (withUplink body).settle s = (.returned (.ok none), s) := by
  have htake := takeUplink_lawful.take_away s h
  unfold withUplink withResource
  rw [Routine.act_bind, Routine.settle, htake]
  rfl

@[simp] theorem seatOf_setRx (slot : Slot) (queue : List Bytes) (s : σ) :
    seatOf (setRx slot queue s) = seatOf s :=
  congrArg UplinkSlot.seat (slot_setRx slot queue s)

@[simp] theorem seatOf_enqueue (slot : Slot) (frame : Bytes) (s : σ) :
    seatOf (enqueue slot frame s) = seatOf s :=
  seatOf_setRx slot _ s

@[simp] theorem seatOf_popFront (slot : Slot) (s : σ) :
    seatOf (popFront slot s).2 = seatOf s :=
  congrArg UplinkSlot.seat (slot_popFront slot s)

/-- What an operation comes to that finds the uplink claimed by the sibling. -/
def portTurnedAway (interfaceName : Slot → String) (mac : Slot → Mac)
    (sendTurnedAway : Slot → Bytes → σ → Except PortError Nat × σ) :
    PortOp → σ → PortResult × σ
  | .listInterfaces _, s => (.interfaces (.error (busy "list-interfaces")), s)
  | .openInterface _ _, s => (.opened (.error (busy "open-interface")), s)
  | .info slot, s =>
    let (mtu, up) := (HasPorts.ports s).slot.params.getD (0, false)
    (.info ⟨interfaceName slot, mac slot, mtu, up⟩, s)
  | .sendFrame slot frame, s =>
    let (sent, s) := sendTurnedAway slot frame s
    (.sent sent, s)
  | .recvFrame slot capacity, s =>
    let (frame, s) := popFront slot s
    (received capacity (.ok frame), s)
  | .waitRecv _ _, s => (.waited, s)

section Program

variable {interfaceName : Slot → String} {mac : Slot → Mac}
  {portSend : Slot → Bytes → PortRoutine σ I (Except PortError Nat)} {ingress : Bytes → σ → σ}

theorem portRecv_keeps (hingress : ∀ frame s, seatOf (ingress frame s) = seatOf s)
    (slot : Slot) (s : σ) : Custody.Keeps seatOf L2Call.iface L2Answer.iface ⟨.start, s⟩
      (portRecv ingress slot) s := by
  have hpop := seatOf_popFront slot s
  unfold portRecv Custody.Keeps
  rw [Routine.act_bind, Routine.Meets]
  cases (popFront slot s).1 with
  | some frame => exact hpop
  | none =>
    refine Routine.Meets.bind (withUplink_keeps
      (fun uplink => drainUplink_uses hingress uplink DRAIN_BATCH) rfl hpop.symm) ?_
    intro m result s' hs'
    rcases result with e | _ | _
    · exact hs'
    · exact hs'
    · exact (seatOf_popFront slot s').trans hs'

theorem portRecv_away (slot : Slot) {s : σ} (h : seatOf s = .away) :
    (portRecv ingress slot).settle s =
      (.returned (.ok (popFront slot s).1), (popFront slot s).2) := by
  have hpop := (seatOf_popFront slot s).trans h
  unfold portRecv
  rw [Routine.act_bind, Routine.settle]
  cases (popFront slot s).1 with
  | some frame => rfl
  | none => exact Routine.settle_bind (withUplink_away hpop)

/-- The operations of the ports keep the custody of the uplink. -/
theorem portProgram_keeps (hingress : ∀ frame s, seatOf (ingress frame s) = seatOf s)
    (hsend : ∀ slot frame s, Custody.Keeps seatOf L2Call.iface L2Answer.iface ⟨.start, s⟩
      (portSend slot frame) s) (op : PortOp) (s : σ) :
    Custody.Keeps seatOf L2Call.iface L2Answer.iface ⟨.start, s⟩
      (portProgram interfaceName mac portSend ingress op) s := by
  cases op with
  | listInterfaces slot =>
    refine ((withUplink_keeps ?_ rfl rfl).bind_done).bind_done
    exact fun _ => trivial
  | openInterface slot name =>
    refine ((withUplink_keeps ?_ rfl rfl).bind_done).bind_done
    exact fun _ => trivial
  | info slot => exact rfl
  | sendFrame slot frame => exact (hsend slot frame s).bind_done
  | recvFrame slot capacity => exact (portRecv_keeps hingress slot s).bind_done
  | waitRecv slot bound => exact rfl

/-- An operation that finds the uplink claimed returns without a call. -/
theorem portProgram_away {sendTurnedAway : Slot → Bytes → σ → Except PortError Nat × σ}
    (hsend : ∀ slot frame s, seatOf s = .away → (portSend slot frame).settle s =
      (.returned (sendTurnedAway slot frame s).1, (sendTurnedAway slot frame s).2))
    (op : PortOp) {s : σ} (h : seatOf s = .away) :
    (portProgram interfaceName mac portSend ingress op).settle s =
      (.returned (portTurnedAway interfaceName mac sendTurnedAway op s).1,
        (portTurnedAway interfaceName mac sendTurnedAway op s).2) := by
  cases op with
  | listInterfaces slot =>
    exact Routine.settle_bind (Routine.settle_bind (withUplink_away h))
  | openInterface slot name =>
    exact Routine.settle_bind (Routine.settle_bind (withUplink_away h))
  | info slot => rfl
  | sendFrame slot frame => exact Routine.settle_bind (hsend slot frame s h)
  | recvFrame slot capacity => exact Routine.settle_bind (portRecv_away slot h)
  | waitRecv slot bound => rfl

end Program

end Operations

end Eo9.Net
