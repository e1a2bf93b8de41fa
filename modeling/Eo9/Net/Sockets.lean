import Eo9.Net.Stack

/-!
# Transport sockets

The operations of `net.l4.over-l2` on its stack: connections, listeners and datagram
sockets, and the handles that callers hold and drop.
-/

namespace Eo9.Net.L4

open Eo9.Library

variable {S H I : Type} {β γ : Type}

inductive L4Op where
  | connect (remote : SocketAddress)
  | listen (localAddress : SocketAddress)
  | accept (listener : Nat)
  | listenerAddress (listener : Nat)
  | peerAddress (connection : Nat)
  | send (connection : Nat) (bytes : Bytes)
  | recv (connection : Nat) (capacity : Nat)
  | bindUdp (localAddress : SocketAddress)
  | udpAddress (socket : Nat)
  | sendTo (socket : Nat) (remote : SocketAddress) (payload : Bytes)
  | recvFrom (socket : Nat) (capacity : Nat)
  | dnsServers
  /-- The caller drops a handle. -/
  | drop (resource : Resource)

inductive L4Result where
  | connected (result : Except L4Error Nat)
  | listening (result : Except L4Error Nat)
  | accepted (result : Except L4Error (Nat × SocketAddress))
  | address (address : SocketAddress)
  | sent (result : Except L4Error Nat)
  | received (result : Except L4Error Bytes)
  | bound (result : Except L4Error Nat)
  | receivedFrom (result : Except L4Error (Bytes × SocketAddress))
  | servers (result : Except L4Error (List IpAddress))
  | dropped
  | trapped

/-- How an operation ends. -/
def finish (result : Except L4Error β → L4Result) (t : L4Routine S H I β) : Part S H I L4Result := do
  match ← t.run with
  | .ok b => return result (.ok b)
  | .error (.error e) => return result (.error e)
  | .error .trap => return .trapped

def destinationV4 : IpAddress → Except L4Error Ipv4Address
  | .v4 octets => .ok octets
  | .v6 _ => .error .unreachable

/-- The address that is bound, or will be. -/
def boundAddress (env : Env) (s : L4State S H I) : Option (Ipv4Address × Nat) :=
  match s.net with
  | some n => n.bound
  | none => env.staticAddressing.map fun a => (a.address, a.prefixLen)

/-- Whether an address can be bound: the unspecified one or the stack's. -/
def bindable (env : Env) (s : L4State S H I) : IpAddress → Bool
  | .v4 octets =>
    octets = (0, 0, 0, 0) ∨ (boundAddress env s).any fun bound => octets = bound.1
  | .v6 groups => groups = Vector.replicate 8 0

def localAddressWith (bound : Option (Ipv4Address × Nat)) (port : UInt16) : SocketAddress :=
  ⟨.v4 (bound.elim (0, 0, 0, 0) (·.1)), port⟩

/-- An endpoint of the engine. -/
def witEndpoint (endpoint : IpEndpoint) : SocketAddress := ⟨.v4 endpoint.1, endpoint.2⟩

def newConn (conn : Conn H) : L4Routine S H I Nat :=
  access fun s => (.ok s.nextId, { s with
    nextId := s.nextId + 1
    conns := Function.update s.conns s.nextId (some conn) })

def newListener (listener : Listener H) : L4Routine S H I Nat :=
  access fun s => (.ok s.nextId, { s with
    nextId := s.nextId + 1
    listeners := Function.update s.listeners s.nextId (some listener) })

def newUdp (udp : Udp H) : L4Routine S H I Nat :=
  access fun s => (.ok s.nextId, { s with
    nextId := s.nextId + 1
    udps := Function.update s.udps s.nextId (some udp) })

/-- What a handle stands for. -/
def lookup (f : L4State S H I → Option β) : L4Routine S H I β :=
  access fun s => ((f s).elim (.error .trap) .ok, s)

def lend (resource : Resource) (s : L4State S H I) : L4State S H I :=
  { s with lends := Function.update s.lends resource (s.lends resource + 1) }

def giveBack (resource : Resource) (s : L4State S H I) : L4State S H I :=
  { s with lends := Function.update s.lends resource (s.lends resource - 1) }

/-- An operation on a borrowed handle, which the caller holds. -/
def borrowing (resource : Resource) (f : L4State S H I → Option γ)
    (body : γ → L4Routine S H I β) : L4Routine S H I β := do
  let c ← lookup f
  ExceptT.mk do
    Routine.modify (lend resource)
    (body c).run.guarded (giveBack resource) fun _ => false

section Operations

variable [Smoltcp S H] [DecidableEq H] (env : Env)

/-- A socket that connects, if there is room for one. -/
def NetState.openConnection (endpoint : IpEndpoint) (n : NetState S H) :
    Except L4Error H × NetState S H :=
  let n := n.sweep
  if MAX_SOCKETS ≤ n.live then (.error tableFull, n)
  else
    let (localPort, n) := n.ephemeralPort
    match Smoltcp.connect endpoint localPort n.stack with
    | .error e => (.error (.io (.engine "connect" e)), n)
    | .ok (handle, stack) => (.ok handle, { n with stack := stack, live := n.live + 1 })

/-- Give a socket up. -/
def NetState.discard (handle : H) (n : NetState S H) : NetState S H :=
  { n with
    stack := Smoltcp.remove handle (Smoltcp.abort handle n.stack)
    live := n.live - 1 }

def History.connects (handle : H) (history : History H) : History H :=
  { history.added handle with connecting := some handle }

def History.connected (history : History H) : History H := { history with connecting := none }

/-- What `connect` makes of the state of its socket. -/
def handshake (handle : H) (_ : L4State S H I) (n : NetState S H) :
    Option (Except L4Error Unit) × NetState S H :=
  (match Smoltcp.state n.stack handle with
    | .established => some (.ok ())
    | .closed => some (.error .connectionRefused)
    | _ => none, n)

/-- The part of `connect` after its socket was added. -/
def awaitHandshake (iface : I) (handle : H) (remote : SocketAddress) : L4Routine S H I Nat :=
  ExceptT.mk do
    match ← (waitFor env iface CONNECT_DEADLINE_NS (handshake handle)).run with
    | .ok () => (newConn ⟨handle, remote⟩).run
    | .error e =>
      (do
        onNet fun n => ((), n.discard handle)
        throw e : L4Routine S H I Nat).run

def connect (remote : SocketAddress) : L4Routine S H I Nat := do
  let destination ← ofExcept (destinationV4 remote.address)
  withLink env fun iface => do
    let handle ← withNet (·.openConnection (destination, remote.port))
    remember (·.connects handle)
    ExceptT.mk <| (awaitHandshake env iface handle remote).run.guarded
      (fun s => { s with history := s.history.connected }) fun _ => false

/-- A fresh socket that listens. -/
def NetState.listenOn (port : UInt16) (n : NetState S H) : Except L4Error H × NetState S H :=
  match Smoltcp.listen port n.stack with
  | .error e => (.error (.io (.engine "listen" e)), n)
  | .ok (handle, stack) => (.ok handle, { n with stack := stack, live := n.live + 1 })

/-- The port of a listener or a datagram socket: any free one for port 0. -/
def NetState.choosePort (port : UInt16) (n : NetState S H) : UInt16 × NetState S H :=
  if port = 0 then n.ephemeralPort else (port, n)

/-- A listener, if there is room for one and its port is free. -/
def NetState.openListener (port : UInt16) (n : NetState S H) :
    Except L4Error (Listener H) × NetState S H :=
  let n := n.sweep
  if MAX_SOCKETS ≤ n.live then (.error tableFull, n)
  else
    let (port, n) := n.choosePort port
    if port ∈ n.listeningPorts then (.error .addressInUse, n)
    else
      match n.listenOn port with
      | (.error e, n) => (.error e, n)
      | (.ok handle, n) =>
        (.ok ⟨handle, localAddressWith n.bound port⟩,
          { n with listeningPorts := n.listeningPorts ++ [port] })

def listen (localAddress : SocketAddress) : L4Routine S H I Nat := do
  let free ← access fun s => (.ok (bindable env s localAddress.address), s)
  if free then
    withLink env fun _ => do
      let listener ← withNet (·.openListener localAddress.port)
      remember (·.added listener.handle)
      newListener listener
  else fail .addressUnavailable

/-- What `accept` makes of the state of its listener's socket. -/
def arrival (id : Nat) (s : L4State S H I) (n : NetState S H) :
    Option (Except L4Error (Option IpEndpoint)) × NetState S H :=
  (match s.listeners id with
    | none => none
    | some listener =>
      match Smoltcp.state n.stack listener.handle with
      | .established => some (.ok (Smoltcp.remoteEndpoint n.stack listener.handle))
      | .closed => some (.error .connectionReset)
      | _ => none, n)

/-- The connection takes the listener's socket over, and a fresh socket listens. -/
def handOver (id : Nat) (endpoint : Option IpEndpoint) :
    L4Routine S H I (Nat × SocketAddress) := do
  let listener ← lookup (·.listeners id)
  let replacement ← withNet (·.listenOn listener.localAddress.port)
  remember (·.added replacement)
  access fun s => (.ok (), { s with
    listeners := Function.update s.listeners id (some { listener with handle := replacement }) })
  let bound ← access fun s => (.ok (boundAddress env s), s)
  let peer := endpoint.elim (localAddressWith bound 0) witEndpoint
  let connection ← newConn ⟨listener.handle, peer⟩
  return (connection, peer)

def accept (id : Nat) : L4Routine S H I (Nat × SocketAddress) :=
  borrowing (.listener id) (·.listeners id) fun _ =>
    withLink env fun iface => do
      let endpoint ← waitFor env iface RECV_DEADLINE_NS (arrival id)
      handOver env id endpoint

def listenerAddress (id : Nat) : L4Routine S H I SocketAddress := do
  return (← lookup (·.listeners id)).localAddress

def peerAddress (id : Nat) : L4Routine S H I SocketAddress := do
  return (← lookup (·.conns id)).peer

/-- What `send` makes of its socket, by the bytes that are queued. -/
def sendMore (handle : H) (bytes : Bytes) (_ : L4State S H I) (queued : Nat) (n : NetState S H) :
    Option (Except L4Error Unit) × Nat × NetState S H :=
  if !Smoltcp.maySend n.stack handle then
    (if 0 < queued then some (.ok ()) else some (.error .connectionReset), queued, n)
  else
    let (count, stack) := Smoltcp.sendSlice handle (bytes.drop queued) n.stack
    let n := { n with stack := stack }
    match count with
    | .error e => (some (.error (.io (.engine "send" e))), queued, n)
    | .ok count =>
      (if queued + count = bytes.length then some (.ok ()) else none, queued + count, n)

/-- Give what was queued a chance to leave the stack, unless the link refuses. -/
def flushQueued (iface : I) (outcome : Except Stop Unit) : Part S H I Unit :=
  if outcome = .error (.error .denied) then return ()
  else do
    let _ ← (pump env iface).run
    return ()

def sendOn (iface : I) (handle : H) (bytes : Bytes) : L4Routine S H I Nat :=
  ExceptT.mk do
    let (outcome, queued) ←
      waitUntil env iface SEND_FLUSH_DEADLINE_NS (sendMore handle bytes) 0
    flushQueued env iface outcome
    match outcome with
    | .ok () => return .ok queued
    | .error (.error .timedOut) =>
      if 0 < queued then return .ok queued else return .error (.error .timedOut)
    | .error e => return .error e

def send (id : Nat) (bytes : Bytes) : L4Routine S H I Nat :=
  borrowing (.connection id) (·.conns id) fun connection =>
    withLink env fun iface => sendOn env iface connection.handle bytes

/-- What `recv` makes of its socket. -/
def recvSome (handle : H) (capacity : Nat) (_ : L4State S H I) (n : NetState S H) :
    Option (Except L4Error Bytes) × NetState S H :=
  if Smoltcp.canRecv n.stack handle then
    let (chunk, stack) := Smoltcp.recvSlice handle (min capacity TCP_BUFFER_BYTES) n.stack
    (some (chunk.mapError fun e => .io (.engine "recv" e)), { n with stack := stack })
  else if !Smoltcp.mayRecv n.stack handle then (some (.ok []), n)
  else (none, n)

def recv (id : Nat) (capacity : Nat) : L4Routine S H I Bytes :=
  borrowing (.connection id) (·.conns id) fun connection =>
    withLink env fun iface =>
      waitFor env iface RECV_DEADLINE_NS (recvSome connection.handle capacity)

/-- A datagram socket, if there is room for one and its port is free. -/
def NetState.openUdp (port : UInt16) (n : NetState S H) : Except L4Error (Udp H) × NetState S H :=
  let n := n.sweep
  if MAX_SOCKETS ≤ n.live then (.error tableFull, n)
  else
    let (port, n) := n.choosePort port
    if port ∈ Smoltcp.udpPorts n.stack then (.error .addressInUse, n)
    else
      match Smoltcp.bindUdp port n.stack with
      | .error e => (.error (.io (.engine "bind" e)), n)
      | .ok (handle, stack) =>
        (.ok ⟨handle, localAddressWith n.bound port⟩,
          { n with stack := stack, live := n.live + 1 })

def bindUdp (localAddress : SocketAddress) : L4Routine S H I Nat := do
  let free ← access fun s => (.ok (bindable env s localAddress.address), s)
  if free then
    withLink env fun _ => do
      let udp ← withNet (·.openUdp localAddress.port)
      newUdp udp
  else fail .addressUnavailable

def udpAddress (id : Nat) : L4Routine S H I SocketAddress := do
  return (← lookup (·.udps id)).localAddress

/-- A few pump rounds, until the datagram has left the stack. -/
def drainDatagram (iface : I) (handle : H) : Nat → L4Routine S H I Unit
  | 0 => return ()
  | rounds + 1 => do
      let pumped ← ExceptT.mk do return .ok (← (pump env iface).run)
      if pumped = .error (.error .denied) then fail .denied
      else
        let drained ← onNet fun n =>
          (n.dev.tx.isEmpty && Smoltcp.udpQueued n.stack handle = 0, n)
        if drained then return () else drainDatagram iface handle rounds

def sendTo (id : Nat) (remote : SocketAddress) (payload : Bytes) : L4Routine S H I Nat :=
  borrowing (.udp id) (·.udps id) fun socket => do
    let destination ← ofExcept (destinationV4 remote.address)
    if UDP_PACKET_BYTES < payload.length then fail .messageTooLarge
    else
      withLink env fun iface => do
        withNet fun n =>
          let (sent, stack) :=
            Smoltcp.udpSend socket.handle payload (destination, remote.port) n.stack
          (sent.mapError fun
            | .bufferFull => .io .udpSendQueueFull
            | .unaddressable => .unreachable, { n with stack := stack })
        drainDatagram env iface socket.handle 6
        return payload.length

/-- What `recv-from` makes of its socket. -/
def recvDatagram (handle : H) (_ : L4State S H I) (n : NetState S H) :
    Option (Except L4Error (Bytes × SocketAddress)) × NetState S H :=
  if !Smoltcp.udpCanRecv n.stack handle then (none, n)
  else
    let (result, stack) := Smoltcp.udpRecv handle n.stack
    (match result with
      | .ok (payload, endpoint) => some (.ok (payload, witEndpoint endpoint))
      | .error .exhausted => none
      | .error (.other e) => some (.error (.io (.engine "recv-from" e))),
      { n with stack := stack })

def recvFrom (id : Nat) (capacity : Nat) : L4Routine S H I (Bytes × SocketAddress) :=
  borrowing (.udp id) (·.udps id) fun socket =>
    withLink env fun iface => do
      let (payload, sender) ← waitFor env iface RECV_DEADLINE_NS (recvDatagram socket.handle)
      return (payload.take capacity, sender)

/-- What the stack's own addressing taught it about DNS. -/
def dnsServers : L4Routine S H I (List IpAddress) :=
  match env.mode with
  | .static _ =>
    match env.configured with
    | some _ => return []
    | none => return [.v4 USER_NET_DNS]
  | .dhcp =>
    withLink env fun _ => onNet fun n => (n.dns.map .v4, n)

/-- What the destructor of a connection does to the stack. -/
def NetState.dropConn (conn : Conn H) (n : NetState S H) : NetState S H :=
  { n with
    stack := Smoltcp.close conn.handle n.stack
    closing := n.closing ++ [conn.handle]
    live := n.live - 1 }

/-- What the destructor of a listener does to the stack. -/
def NetState.dropListener (listener : Listener H) (n : NetState S H) : NetState S H :=
  { n.discard listener.handle with
    listeningPorts := n.listeningPorts.filter (· ≠ listener.localAddress.port) }

/-- What the destructor of a datagram socket does to the stack. -/
def NetState.dropUdp (udp : Udp H) (n : NetState S H) : NetState S H :=
  { n with
    stack := Smoltcp.remove udp.handle (Smoltcp.udpClose udp.handle n.stack)
    live := n.live - 1 }

/-- Run the destructor that a handle stands for, if there is one. -/
def destroy (resource : Resource) (s : L4State S H I) : Option (L4State S H I) :=
  match resource with
  | .connection id => (s.conns id).map fun conn =>
    { s with conns := Function.update s.conns id none, net := s.net.map (·.dropConn conn) }
  | .listener id => (s.listeners id).map fun listener =>
    { s with
      listeners := Function.update s.listeners id none
      net := s.net.map (·.dropListener listener) }
  | .udp id => (s.udps id).map fun udp =>
    { s with udps := Function.update s.udps id none, net := s.net.map (·.dropUdp udp) }

/-- The caller drops a handle. One that an operation has borrowed it cannot drop. -/
def dropHandle (resource : Resource) : Part S H I L4Result :=
  Routine.act fun s =>
    if s.lends resource ≠ 0 then (.trapped, s)
    else
      match destroy resource s with
      | none => (.trapped, s)
      | some s => (.dropped, s)

/-- An address, which no error takes the place of. -/
def onlyAddress : Except L4Error SocketAddress → L4Result
  | .ok address => .address address
  | .error _ => .trapped

/-- The operations of the provider. -/
def program : L4Op → Part S H I L4Result
  | .connect remote => finish .connected (connect env remote)
  | .listen localAddress => finish .listening (listen env localAddress)
  | .accept id => finish .accepted (accept env id)
  | .listenerAddress id => finish onlyAddress (listenerAddress id)
  | .peerAddress id => finish onlyAddress (peerAddress id)
  | .send id bytes => finish .sent (send env id bytes)
  | .recv id capacity => finish .received (recv env id capacity)
  | .bindUdp localAddress => finish .bound (bindUdp env localAddress)
  | .udpAddress id => finish onlyAddress (udpAddress id)
  | .sendTo id remote payload => finish .sent (sendTo env id remote payload)
  | .recvFrom id capacity => finish .receivedFrom (recvFrom env id capacity)
  | .dnsServers => finish .servers (dnsServers env)
  | .drop resource => dropHandle resource

end Operations

end Eo9.Net.L4
