import Eo9.Net.Smoltcp

/-!
# The stack over a link

The state of `net.l4.over-l2`, the acquisition of its link for one operation, and the loop
that pumps the link until an operation completes or its deadline passes. The lines that go
to the operator's console are left out.
-/

namespace Eo9.Net.L4

open Eo9.Library

def MAX_SOCKETS : Nat := 16
def TCP_BUFFER_BYTES : Nat := 16 * 1024
def UDP_PACKET_BYTES : Nat := 1536
def RX_QUEUE_CAP : Nat := 32
def RX_BUFFER_BYTES : Nat := 2048
def RX_BATCH : Nat := 4
def RECV_DEADLINE_NS : Nat := 4000000000
def CONNECT_DEADLINE_NS : Nat := 6000000000
def SEND_FLUSH_DEADLINE_NS : Nat := 1500000000
def DHCP_DEADLINE_NS : Nat := 20000000000
def FROZEN_CLOCK_ROUNDS : Nat := 4096

structure Addressing where
  address : Ipv4Address
  prefixLen : Nat
  gateway : Ipv4Address

inductive AddressMode where
  | static (addressing : Addressing)
  | dhcp

/-- QEMU user-mode networking's layout, the documented default. -/
def Addressing.defaults : Addressing := ⟨(10, 0, 2, 15), 24, (10, 0, 2, 2)⟩

def USER_NET_DNS : Ipv4Address := (10, 0, 2, 3)

/-- What surrounds a stack. -/
structure Env where
  /-- Nothing for an unconfigured provider. -/
  configured : Option AddressMode
  /-- The readings of the clock, in turn. -/
  clock : Nat → Nat
  seed : Nat
  /-- The rounds in which the clock lets a wait expire at the latest. -/
  rounds : Nat

def Env.mode (env : Env) : AddressMode := env.configured.getD (.static .defaults)

def Env.staticAddressing (env : Env) : Option Addressing :=
  match env.mode with
  | .static addressing => some addressing
  | .dhcp => none

inductive L4Message where
  | l2 (e : L2Error)
  | socketTableFull
  | inProgress
  | noInterfaces
  | noLease
  | engine (operation message : String)
  | udpSendQueueFull
  deriving DecidableEq

inductive L4Error where
  | denied
  | unreachable
  | connectionRefused
  | connectionReset
  | timedOut
  | addressInUse
  | addressUnavailable
  | messageTooLarge
  | io (message : L4Message)
  deriving DecidableEq

/-- What ends an operation early: an error, or a trap of the component. -/
inductive Stop where
  | error (e : L4Error)
  | trap
  deriving DecidableEq

def l2Failure : L2Error → L4Error
  | .denied => .denied
  | other => .io (.l2 other)

def tableFull : L4Error := .io .socketTableFull

/-- The slot of the link: the link unless some operation has it, and whether it was claimed
for opening. -/
structure LinkSlot (I : Type) where
  link : Option I
  opened : Bool
  claimed : link.isSome = true → opened = true

/-- The engine with its frame queues, and what the provider keeps beside it. -/
structure NetState (S H : Type) where
  stack : S
  dev : QueueDevice
  ephemeral : UInt16
  closing : List H
  live : Nat
  listeningPorts : List UInt16
  dhcp : Option H
  bound : Option (Ipv4Address × Nat)
  dns : List Ipv4Address

structure Conn (H : Type) where
  handle : H
  peer : SocketAddress

structure Listener (H : Type) where
  handle : H
  localAddress : SocketAddress

structure Udp (H : Type) where
  handle : H
  localAddress : SocketAddress

/-- The resources that the provider's callers hold. -/
inductive Resource where
  | connection (id : Nat)
  | listener (id : Nat)
  | udp (id : Nat)
  deriving DecidableEq

/-- What a poll of the engine met, and the states that it took the sockets through, from the
one before the poll on. -/
structure Polled (H : Type) where
  listeners : Nat → Option (Listener H)
  connecting : Option H
  path : H → List TcpState

/-- A history of the stack, for its specification: no operation reads it. -/
structure History (H : Type) where
  /-- The socket of the `connect` under way. -/
  connecting : Option H
  /-- Whether the socket at a handle has completed a handshake. -/
  completed : H → Bool
  polls : List (Polled H)

/-- The state of the provider and the tables of its resources. -/
structure L4State (S H I : Type) where
  slot : LinkSlot I
  net : Option (NetState S H)
  reads : Nat
  nextId : Nat
  conns : Nat → Option (Conn H)
  listeners : Nat → Option (Listener H)
  udps : Nat → Option (Udp H)
  /-- How many operations have borrowed a resource. -/
  lends : Resource → Nat
  history : History H

variable {S H I : Type}

def L4State.new : L4State S H I where
  slot := ⟨none, false, nofun⟩
  net := none
  reads := 0
  nextId := 0
  conns _ := none
  listeners _ := none
  udps _ := none
  lends _ := 0
  history := ⟨none, fun _ => false, []⟩

namespace LinkSlot

def seat (slot : LinkSlot I) : Seat I :=
  match slot.link with
  | some link => .home link
  | none => if slot.opened then .away else .vacant

/-- What `acquire` finds in the slot. -/
def take (slot : LinkSlot I) : View I × LinkSlot I :=
  match slot.link with
  | some link => (.ready link, ⟨none, slot.opened, nofun⟩)
  | none => if slot.opened then (.busy, slot) else (.needOpen, ⟨none, true, nofun⟩)

/-- The destructor of `LinkGuard`. The link has been claimed since it was opened. -/
def putBack (link : I) (_ : LinkSlot I) : LinkSlot I := ⟨some link, true, fun _ => rfl⟩

/-- The destructor of `BringUpClaim`, which no link is in the slot for. -/
def release (_ : LinkSlot I) : LinkSlot I := ⟨none, false, nofun⟩

theorem lawful : Custody.Lawful (seat (I := I)) id take release putBack where
  take_vacant s h := by
    rcases s with ⟨_ | link, _ | _, claimed⟩ <;> simp_all [seat, take]
  take_home s i h := by
    rcases s with ⟨_ | link, _ | _, claimed⟩ <;> simp_all [seat, take]
  take_away s h := by
    rcases s with ⟨_ | link, _ | _, claimed⟩ <;> simp_all [seat, take]
  release_away _ _ := rfl
  putBack_away _ _ _ := rfl

end LinkSlot

/-- A part of an operation, on the state and the calls of the link. -/
abbrev Part (S H I β : Type) := Routine (L4State S H I) (L2Answer I) β

/-- A part that errors and traps end. -/
abbrev L4Routine (S H I β : Type) := ExceptT Stop (Part S H I) β

variable {β γ : Type}

def access (f : L4State S H I → Except Stop β × L4State S H I) : L4Routine S H I β :=
  ExceptT.mk (Routine.act f)

/-- `with_net`: it traps before the stack is up. -/
def withNet (f : NetState S H → Except L4Error β × NetState S H) : L4Routine S H I β :=
  access fun s =>
    match s.net with
    | none => (.error .trap, s)
    | some n => ((f n).1.mapError .error, { s with net := some (f n).2 })

/-- An access that cannot fail. -/
def onNet (f : NetState S H → β × NetState S H) : L4Routine S H I β :=
  withNet fun n => (.ok (f n).1, (f n).2)

def await (call : L2Call I) : L4Routine S H I (L2Answer I call) :=
  ExceptT.lift (Routine.await (A := L2Answer I) call)

def fail (e : L4Error) : L4Routine S H I β := throw (.error e)

def ofExcept : Except L4Error β → L4Routine S H I β
  | .error e => fail e
  | .ok b => return b

def remember (f : History H → History H) : L4Routine S H I Unit :=
  access fun s => (.ok (), { s with history := f s.history })

def nowNs (env : Env) : L4Routine S H I Nat :=
  access fun s => (.ok (env.clock s.reads), { s with reads := s.reads + 1 })

/-- Microseconds. -/
def smolInstant (ns : Nat) : Nat := ns / 1000

namespace History

/-- A socket was added to the set. -/
def added [DecidableEq H] (handle : H) (history : History H) : History H :=
  { history with completed := Function.update history.completed handle false }

/-- What a poll of the engine did. -/
def polled (listeners : Nat → Option (Listener H)) (path : H → List TcpState)
    (history : History H) : History H where
  connecting := history.connecting
  completed handle := history.completed handle || (path handle).any TcpState.synchronized
  polls := history.polls ++ [⟨listeners, history.connecting, path⟩]

end History

section Stack

variable [Smoltcp S H]

namespace NetState

def new (env : Env) (mac : Mac) (mtu now : Nat) : NetState S H :=
  let stack := Smoltcp.new mac env.seed (smolInstant now)
  let ephemeral : UInt16 := 49152 + UInt16.ofNat (env.seed % 16000)
  match env.staticAddressing with
  | some addressing =>
    let bound := some (addressing.address, addressing.prefixLen)
    let stack := Smoltcp.setRoute (some addressing.gateway) (Smoltcp.setAddress bound stack)
    ⟨stack, ⟨[], [], mtu⟩, ephemeral, [], 0, [], none, bound, []⟩
  | none =>
    let (handle, stack) := Smoltcp.addDhcp stack
    ⟨stack, ⟨[], [], mtu⟩, ephemeral, [], 0, [], some handle, none, []⟩

def ephemeralPort (n : NetState S H) : UInt16 × NetState S H :=
  (n.ephemeral,
    { n with ephemeral := if n.ephemeral = 65535 then 49152 else n.ephemeral + 1 })

/-- Remove dropped sockets whose close handshake has finished. -/
def sweep (n : NetState S H) : NetState S H :=
  n.closing.foldl (fun n handle =>
    if Smoltcp.state n.stack handle = .closed then
      { n with stack := Smoltcp.remove handle n.stack }
    else { n with closing := n.closing ++ [handle] }) { n with closing := [] }

/-- Apply a DHCP lease event to the interface. -/
def lease (n : NetState S H) : DhcpEvent → NetState S H
  | .configured address prefixLen router dnsServers =>
    let bound := some (address, prefixLen)
    { n with
      stack := Smoltcp.setRoute router (Smoltcp.setAddress bound n.stack)
      bound := bound
      dns := dnsServers }
  | .deconfigured =>
    if n.bound.isSome then
      { n with
        stack := Smoltcp.setRoute none (Smoltcp.setAddress none n.stack)
        bound := none
        dns := [] }
    else n

/-- The states that a poll takes a socket through. -/
def path (time : Nat) (n : NetState S H) (handle : H) : List TcpState :=
  Smoltcp.state n.stack handle :: Smoltcp.passes time n.dev n.stack handle

/-- `poll_stack`, on the engine. -/
def poll (time : Nat) (n : NetState S H) : NetState S H :=
  let (dev, stack) := Smoltcp.poll time n.dev n.stack
  let n := { n with stack := stack, dev := dev }
  match n.dhcp with
  | none => n
  | some handle =>
    let (event, stack) := Smoltcp.pollDhcp handle n.stack
    let n := { n with stack := stack }
    match event with
    | none => n
    | some event => n.lease event

end NetState

/-- First-use bring-up: the first interface that the link lists, and the stack. -/
def openLink (env : Env) : L4Routine S H I I := do
  match ← await .listInterfaces with
  | .error e => fail (l2Failure e)
  | .ok [] => fail (.io .noInterfaces)
  | .ok (first :: _) =>
    let mtu := max 576 (min first.mtu 9216)
    match ← await (.openInterface first.name) with
    | .error e => fail (l2Failure e)
    | .ok iface =>
      access fun s =>
        match s.net with
        | some _ => (.ok (), s)
        | none =>
          let now := env.clock s.reads
          (.ok (), { s with net := some (.new env first.mac mtu now), reads := s.reads + 1 })
      return iface

def pollStack (env : Env) : L4Routine S H I Unit := do
  let now ← nowNs env
  access fun s =>
    match s.net with
    | none => (.error .trap, s)
    | some n =>
      (.ok (), { s with
        net := some (n.poll (smolInstant now))
        history := s.history.polled s.listeners (n.path (smolInstant now)) })

/-- Hand frames to the link. Only a refusal ends the operation. -/
def sendFrames (iface : I) : List Bytes → L4Routine S H I Unit
  | [] => return ()
  | frame :: frames => do
      match ← await (.sendFrame iface frame) with
      | .error .denied => fail .denied
      | _ => sendFrames iface frames

/-- Hand everything the stack queued to the link, and tell whether there was any. -/
def flushTx (iface : I) : L4Routine S H I Bool := do
  let frames ← onNet fun n => (n.dev.tx, { n with dev := { n.dev with tx := [] } })
  sendFrames iface frames
  return !frames.isEmpty

/-- Queue a frame for the stack, unless the queue is full. -/
def NetState.enqueue (frame : Bytes) (n : NetState S H) : NetState S H :=
  if n.dev.rx.length < RX_QUEUE_CAP then
    { n with dev := { n.dev with rx := n.dev.rx ++ [frame] } }
  else n

/-- Pull a few frames from the link, and tell whether there was any. -/
def receiveFrames (iface : I) : Nat → Bool → L4Routine S H I Bool
  | 0, receivedAny => return receivedAny
  | n + 1, receivedAny => do
      match ← await (.recvFrame iface RX_BUFFER_BYTES) with
      | (buffer, .ok received) =>
        if 0 < received then do
          onNet fun n => ((), n.enqueue (buffer.val.take (min received RX_BUFFER_BYTES)))
          receiveFrames iface n true
        else return receivedAny
      | (_, .error .denied) => fail .denied
      | (_, .error _) => return receivedAny

/-- One pump round, and whether any frame moved in it. -/
def pump (env : Env) (iface : I) : L4Routine S H I Bool := do
  pollStack env
  let sentAny ← flushTx iface
  let receivedAny ← receiveFrames iface RX_BATCH false
  if receivedAny then do
    pollStack env
    let _ ← flushTx iface
    return true
  else return sentAny

/-- What an operation waits for: the result once the state decides it. The look can keep
something of its own in between. -/
abbrev Check (S H I γ β : Type) :=
  L4State S H I → γ → NetState S H → Option (Except L4Error β) × γ × NetState S H

/-- `check`. -/
def look (check : Check S H I γ β) (c : γ) :
    Part S H I (Option (Except Stop β) × γ) :=
  Routine.act fun s =>
    match s.net with
    | none => ((some (.error .trap), c), s)
    | some n =>
      let (result, c, n) := check s c n
      ((result.map (·.mapError .error), c), { s with net := some n })

/-- The deadline has passed: wire truth beats the clock, so pump and look once more. -/
def giveUp (env : Env) (iface : I) (check : Check S H I γ β) (c : γ) : Part S H I (Except Stop β × γ) := do
  match ← (pump env iface).run with
  | .error e => return (.error e, c)
  | .ok _ =>
    match ← look check c with
    | (some result, c) => return (result, c)
    | (none, c) => return (.error (.error .timedOut), c)

/-- Wait for the link until the deadline or the stack's next timed obligation. -/
def parkOnLink (env : Env) (iface : I) (deadline start : Nat) : L4Routine S H I Unit := do
  let now ← nowNs env
  let remaining := deadline - (now - start)
  let due ← onNet fun n =>
    ((Smoltcp.pollDelay (smolInstant now) n.stack).map (· * 1000), n)
  let bound := due.elim remaining (min · remaining)
  if 0 < bound then
    match ← await (.waitRecv iface bound) with
    | .error .denied => fail .denied
    | _ => return ()
  else return ()

/-- The rounds of a wait, by how many are left at most. -/
def waitRounds (env : Env) (iface : I) (deadline start : Nat) (check : Check S H I γ β) :
    Nat → Nat → Nat → γ → Part S H I (Except Stop β × γ)
  | 0, _, _, c => do
      match ← look check c with
      | (some result, c) => return (result, c)
      | (none, c) => giveUp env iface check c
  | rounds + 1, lastNow, frozenRounds, c => do
      match ← look check c with
      | (some result, c) => return (result, c)
      | (none, c) =>
        match ← (nowNs env).run with
        | .error e => return (.error e, c)
        | .ok now =>
          let frozenRounds := if now = lastNow then frozenRounds + 1 else 0
          if deadline ≤ now - start ∨ FROZEN_CLOCK_ROUNDS ≤ frozenRounds then
            giveUp env iface check c
          else
            match ← (pump env iface).run with
            | .error e => return (.error e, c)
            | .ok true => waitRounds env iface deadline start check rounds now frozenRounds c
            | .ok false =>
              match ← look check c with
              | (some result, c) => return (result, c)
              | (none, c) =>
                match ← (parkOnLink env iface deadline start).run with
                | .error e => return (.error e, c)
                | .ok () =>
                  waitRounds env iface deadline start check rounds now frozenRounds c

/-- Pump the link until the check reports a result or the deadline passes. -/
def waitUntil (env : Env) (iface : I) (deadline : Nat) (check : Check S H I γ β) (c : γ) :
    Part S H I (Except Stop β × γ) := do
  match ← (nowNs env).run with
  | .error e => return (.error e, c)
  | .ok start => waitRounds env iface deadline start check env.rounds start 0 c

/-- A wait whose check keeps nothing. -/
def waitFor (env : Env) (iface : I) (deadline : Nat)
    (check : L4State S H I → NetState S H → Option (Except L4Error β) × NetState S H) :
    L4Routine S H I β :=
  ExceptT.mk do
    let (result, ()) ← waitUntil env iface deadline
      (fun s () n => ((check s n).1, (), (check s n).2)) ()
    return result

/-- In DHCP mode, gate an operation behind a bound lease. -/
def ensureDhcpBound (env : Env) (iface : I) : L4Routine S H I Unit := do
  let waiting ← onNet fun n => (n.dhcp.isSome && n.bound.isNone, n)
  if waiting then
    ExceptT.mk do
      match ← (waitFor env iface DHCP_DEADLINE_NS fun _ n =>
          (n.bound.map fun _ => .ok (), n)).run with
      | .ok () => return .ok ()
      | .error (.error .timedOut) => return .error (.error (.io .noLease))
      | .error e => return .error e
  else return ()

def onSlot (f : LinkSlot I → LinkSlot I) (s : L4State S H I) : L4State S H I :=
  { s with slot := f s.slot }

def takeLink (s : L4State S H I) : View I × L4State S H I :=
  (s.slot.take.1, onSlot (fun slot => slot.take.2) s)

/-- `acquire` and the scope of its guard: a second operation finds the link taken. -/
def withLink (env : Env) (body : I → L4Routine S H I β) : L4Routine S H I β := do
  let result ← ExceptT.mk (withResource takeLink (onSlot .release)
    (fun link => onSlot (.putBack link)) (openLink env).run fun link =>
      (do
        ensureDhcpBound env link
        body link : L4Routine S H I β).run)
  match result with
  | some b => return b
  | none => fail (.io .inProgress)

end Stack

end Eo9.Net.L4
