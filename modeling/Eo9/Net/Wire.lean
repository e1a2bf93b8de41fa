import Eo9.Net.Stack

/-!
# The link in use

Everything the stack does with its link in hand calls that link only and leaves its slot
alone.
-/

namespace Eo9.Net.L4

open Eo9.Library

variable {S H I : Type} {β γ : Type}

def seatOf (s : L4State S H I) : Seat I := s.slot.seat

/-- A part of an operation that calls its link only, and leaves the slot alone. -/
def UsesLink (iface : I) (t : Part S H I β) : Prop := Custody.Uses seatOf L2Call.iface iface t

section Uses

variable {iface : I}

theorem UsesLink.then {t : Part S H I β} {k : β → Part S H I γ} (h : UsesLink iface t)
    (hk : ∀ b, UsesLink iface (k b)) : UsesLink iface (t >>= k) :=
  Custody.Uses.bind h hk

/-- An error ends a part early. -/
theorem UsesLink.bind {t : L4Routine S H I β} {k : β → L4Routine S H I γ}
    (h : UsesLink iface t.run) (hk : ∀ b, UsesLink iface (k b).run) :
    UsesLink iface (t >>= k).run :=
  Custody.Uses.bind h fun result => by
    cases result with
    | error e => exact trivial
    | ok b => exact hk b

theorem usesLink_access {f : L4State S H I → Except Stop β × L4State S H I}
    (h : ∀ s, (f s).2.slot = s.slot) : UsesLink iface (access f).run :=
  Custody.Uses.act fun s => congrArg LinkSlot.seat (h s)

theorem usesLink_withNet (f : NetState S H → Except L4Error β × NetState S H) :
    UsesLink iface (withNet f : L4Routine S H I β).run :=
  usesLink_access fun s => by
    cases s.net <;> rfl

theorem usesLink_onNet (f : NetState S H → β × NetState S H) :
    UsesLink iface (onNet f : L4Routine S H I β).run :=
  usesLink_withNet _

theorem usesLink_remember (f : History H → History H) :
    UsesLink iface (remember f : L4Routine S H I Unit).run :=
  usesLink_access fun _ => rfl

theorem usesLink_nowNs (env : Env) : UsesLink iface (nowNs env : L4Routine S H I Nat).run :=
  usesLink_access fun _ => rfl

/-- A call on the link, and what becomes of the answer. -/
theorem usesLink_await {call : L2Call I} {k : L2Answer I call → L4Routine S H I β}
    (hcall : call.iface = some iface) (hk : ∀ a, UsesLink iface (k a).run) :
    UsesLink iface (await call >>= k).run :=
  ⟨hcall, fun _ => rfl, hk⟩

theorem usesLink_sendFrames (frames : List Bytes) :
    UsesLink iface (sendFrames iface frames : L4Routine S H I Unit).run := by
  induction frames with
  | nil => trivial
  | cons frame frames ih =>
    refine usesLink_await rfl fun sent => ?_
    split
    · trivial
    · exact ih

theorem usesLink_flushTx : UsesLink iface (flushTx iface : L4Routine S H I Bool).run :=
  (usesLink_onNet _).bind fun frames => (usesLink_sendFrames frames).bind fun _ => trivial

theorem usesLink_receiveFrames (n : Nat) (receivedAny : Bool) :
    UsesLink iface (receiveFrames iface n receivedAny : L4Routine S H I Bool).run := by
  induction n generalizing receivedAny with
  | zero => trivial
  | succ n ih =>
    refine usesLink_await rfl fun answer => ?_
    match answer with
    | (buffer, .ok received) =>
      dsimp only
      split
      · exact (usesLink_onNet _).bind fun _ => ih true
      · trivial
    | (_, .error e) => cases e <;> trivial

variable [Smoltcp S H] (env : Env)

theorem usesLink_pollStack : UsesLink iface (pollStack env : L4Routine S H I Unit).run :=
  (usesLink_nowNs env).bind fun _ => usesLink_access fun s => by
    cases s.net <;> rfl

theorem usesLink_pump : UsesLink iface (pump env iface : L4Routine S H I Bool).run := by
  refine (usesLink_pollStack env).bind fun _ => usesLink_flushTx.bind fun sentAny =>
    (usesLink_receiveFrames _ _).bind fun receivedAny => ?_
  split
  · exact (usesLink_pollStack env).bind fun _ => usesLink_flushTx.bind fun _ => trivial
  · trivial

omit [Smoltcp S H] in
theorem usesLink_look (check : Check S H I γ β) (c : γ) : UsesLink iface (look check c) :=
  Custody.Uses.act fun s => by
    cases s.net <;> rfl

theorem usesLink_giveUp (check : Check S H I γ β) (c : γ) :
    UsesLink iface (giveUp env iface check c) := by
  refine (usesLink_pump env).then fun pumped => ?_
  cases pumped with
  | error e => trivial
  | ok progressed =>
    refine (usesLink_look check c).then fun looked => ?_
    obtain ⟨_ | result, c⟩ := looked <;> trivial

theorem usesLink_parkOnLink (deadline start : Nat) :
    UsesLink iface (parkOnLink env iface deadline start : L4Routine S H I Unit).run := by
  refine (usesLink_nowNs env).bind fun now => (usesLink_onNet _).bind fun due => ?_
  dsimp only
  split
  · refine usesLink_await rfl fun waited => ?_
    split <;> trivial
  · trivial

theorem usesLink_waitRounds (deadline start : Nat) (check : Check S H I γ β)
    (rounds lastNow frozenRounds : Nat) (c : γ) :
    UsesLink iface (waitRounds env iface deadline start check rounds lastNow frozenRounds c) := by
  induction rounds generalizing lastNow frozenRounds c with
  | zero =>
    refine (usesLink_look check c).then fun looked => ?_
    obtain ⟨_ | result, c⟩ := looked
    · exact usesLink_giveUp env check c
    · trivial
  | succ rounds ih =>
    refine (usesLink_look check c).then fun looked => ?_
    obtain ⟨_ | result, c⟩ := looked
    · refine (usesLink_nowNs env).then fun now => ?_
      cases now with
      | error e => trivial
      | ok now =>
        dsimp only
        generalize (if now = lastNow then frozenRounds + 1 else 0) = frozenRounds
        split
        · exact usesLink_giveUp env check c
        · refine (usesLink_pump env).then fun pumped => ?_
          match pumped with
          | .error e => trivial
          | .ok true => exact ih now _ c
          | .ok false =>
            refine (usesLink_look check c).then fun looked => ?_
            obtain ⟨_ | result, c⟩ := looked
            · refine (usesLink_parkOnLink env deadline start).then fun waited => ?_
              cases waited with
              | error e => trivial
              | ok => exact ih now _ c
            · trivial
    · trivial

theorem usesLink_waitUntil (deadline : Nat) (check : Check S H I γ β) (c : γ) :
    UsesLink iface (waitUntil env iface deadline check c) := by
  refine (usesLink_nowNs env).then fun start => ?_
  cases start with
  | error e => trivial
  | ok start => exact usesLink_waitRounds env deadline start check _ _ _ c

theorem usesLink_waitFor (deadline : Nat)
    (check : L4State S H I → NetState S H → Option (Except L4Error β) × NetState S H) :
    UsesLink iface (waitFor env iface deadline check).run :=
  (usesLink_waitUntil env deadline _ ()).then fun _ => trivial

theorem usesLink_ensureDhcpBound :
    UsesLink iface (ensureDhcpBound env iface : L4Routine S H I Unit).run := by
  refine (usesLink_onNet _).bind fun waiting => ?_
  split
  · refine (usesLink_waitFor env _ _).then fun bound => ?_
    split <;> trivial
  · trivial

end Uses

end Eo9.Net.L4

/-!
## A small engine

An engine to run the stack with: its frames name a socket and a segment, and its sockets go
through the standard transitions without retransmissions.
-/

namespace Eo9.Net.Wire

open Eo9.Library

inductive Segment where
  | syn
  | synAck
  | ack
  | fin
  | rst

/-- What a segment does to a socket. -/
def arrive : TcpState → Segment → TcpState
  | .listen, .syn => .synReceived
  | .synSent, .synAck => .established
  | .synSent, .rst => .closed
  | .synReceived, .ack => .established
  | .synReceived, .fin => .closeWait
  | .synReceived, .rst => .listen
  | .established, .fin => .closeWait
  | .finWait1, .ack => .finWait2
  | .finWait1, .fin => .closing
  | .finWait2, .fin => .timeWait
  | .closing, .ack => .timeWait
  | .lastAck, .ack => .closed
  | s, .rst => if s.synchronized then .closed else s
  | s, _ => s

/-- A frame that carries a segment for a socket. -/
def frame (handle : Nat) (segment : Segment) : Bytes :=
  [UInt8.ofNat handle, match segment with
    | .syn => 0
    | .synAck => 1
    | .ack => 2
    | .fin => 3
    | .rst => 4]

/-- The segment of a frame. Malformed frames are dropped. -/
def parse : Bytes → Option (Nat × Segment)
  | [handle, 0] => some (handle.toNat, .syn)
  | [handle, 1] => some (handle.toNat, .synAck)
  | [handle, 2] => some (handle.toNat, .ack)
  | [handle, 3] => some (handle.toNat, .fin)
  | [handle, 4] => some (handle.toNat, .rst)
  | _ => none

/-- The sockets by their handles. -/
structure Engine where
  sockets : List (Option TcpState)

namespace Engine

def state (e : Engine) (handle : Nat) : TcpState := (e.sockets[handle]?.join).getD .closed

def contains (e : Engine) (handle : Nat) : Bool := (e.sockets[handle]?.join).isSome

def add (s : TcpState) (e : Engine) : Nat × Engine :=
  (e.sockets.length, ⟨e.sockets ++ [some s]⟩)

def remove (handle : Nat) (e : Engine) : Engine := ⟨e.sockets.set handle none⟩

/-- Change the state of a socket that is there. -/
def set (handle : Nat) (s : TcpState) (e : Engine) : Engine :=
  if e.contains handle then ⟨e.sockets.set handle (some s)⟩ else e

def process (e : Engine) (bytes : Bytes) : Engine :=
  match parse bytes with
  | none => e
  | some (handle, segment) => e.set handle (arrive (e.state handle) segment)

/-- The states that a socket goes through as frames arrive. -/
def passes (e : Engine) (handle : Nat) : List Bytes → List TcpState
  | [] => []
  | bytes :: frames =>
    let e' := e.process bytes
    if e'.state handle = e.state handle then e'.passes handle frames
    else e'.state handle :: e'.passes handle frames

end Engine

instance : Smoltcp Engine Nat where
  new _ _ _ := ⟨[]⟩
  poll _ dev e := ({ dev with rx := [] }, dev.rx.foldl .process e)
  passes _ dev e handle := e.passes handle dev.rx
  pollDelay _ _ := none
  setAddress _ e := e
  setRoute _ e := e
  addDhcp e := e.add .closed
  pollDhcp _ e := (none, e)
  connect _ _ e := .ok (e.add .synSent)
  listen port e := if port = 0 then .error "Unaddressable" else .ok (e.add .listen)
  contains e handle := e.contains handle
  state e handle := e.state handle
  remoteEndpoint _ _ := some ((10, 0, 2, 2), 1234)
  maySend e handle := e.state handle = .established || e.state handle = .closeWait
  mayRecv e handle := e.state handle = .established
  canRecv _ _ := false
  sendSlice _ bytes e := (.ok bytes.length, e)
  recvSlice _ _ e := (.ok [], e)
  close handle e := e.set handle (match e.state handle with
    | .listen | .synSent => .closed
    | .synReceived | .established => .finWait1
    | .closeWait => .lastAck
    | s => s)
  abort handle e := e.set handle .closed
  remove := Engine.remove
  bindUdp _ e := .ok (e.add .closed)
  udpPorts _ := []
  udpCanRecv _ _ := false
  udpSend _ _ _ e := (.ok (), e)
  udpQueued _ _ := 0
  udpRecv _ e := (.error .exhausted, e)
  udpClose _ e := e

/-- A clock that jumps past any deadline in the third reading. -/
def env : L4.Env := ⟨none, fun n => if n < 3 then 0 else 30000000000, 0, 8⟩

/-- The answers of a link that takes every frame, and has one for each receive or none. -/
def quiet (received : Bytes) : ∀ call : L2Call Unit, Option (L2Answer Unit call)
  | .listInterfaces => some (.ok [⟨"eth0", BROADCAST, 1500, true⟩])
  | .openInterface _ => some (.ok ())
  | .sendFrame _ bytes => some (.ok bytes.length)
  | .recvFrame _ capacity =>
    if h : received.length ≤ capacity then
      some (⟨received ++ List.replicate (capacity - received.length) 0, by
        rw [List.length_append, List.length_replicate]
        omega⟩, .ok received.length)
    else none
  | .waitRecv _ _ => some (.ok ())

end Eo9.Net.Wire
