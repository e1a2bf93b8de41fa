import Eo9.Net.L2

/-!
# The TCP/IP engine

What `net.l4.over-l2` uses of smoltcp: an interface with its sockets, polled against frame
queues. The engine itself is not part of the repository and stays a parameter.
-/

namespace Eo9.Net

open Eo9.Library

abbrev Ipv4Address := UInt8 × UInt8 × UInt8 × UInt8

inductive IpAddress where
  | v4 (octets : Ipv4Address)
  | v6 (groups : Vector UInt16 8)

structure SocketAddress where
  address : IpAddress
  port : UInt16

/-- An endpoint as the engine has it. -/
abbrev IpEndpoint := Ipv4Address × UInt16

inductive TcpState where
  | closed
  | listen
  | synSent
  | synReceived
  | established
  | finWait1
  | finWait2
  | closeWait
  | closing
  | lastAck
  | timeWait
  deriving DecidableEq

namespace TcpState

/-- The handshake is complete. -/
def synchronized : TcpState → Bool
  | established | finWait1 | finWait2 | closeWait | closing | lastAck | timeWait => true
  | closed | listen | synSent | synReceived => false

end TcpState

/-- The frame queues that the engine's device runs over. -/
structure QueueDevice where
  rx : List Bytes
  tx : List Bytes
  mtu : Nat

inductive DhcpEvent where
  | configured (address : Ipv4Address) (prefixLen : Nat) (router : Option Ipv4Address)
      (dnsServers : List Ipv4Address)
  | deconfigured

inductive UdpSendError where
  | bufferFull
  | unaddressable

inductive UdpRecvError where
  | exhausted
  | other (message : String)

/-- An interface and its socket set, with handles for the sockets. -/
class Smoltcp (S : Type) (H : outParam Type) where
  /-- An interface without addresses, by its MAC address, random seed and time. -/
  new : Mac → Nat → Nat → S
  poll : Nat → QueueDevice → S → QueueDevice × S
  /-- The states that a socket goes through in a poll, after the one before it. -/
  passes : Nat → QueueDevice → S → H → List TcpState
  pollDelay : Nat → S → Option Nat
  /-- Replace the addresses of the interface. -/
  setAddress : Option (Ipv4Address × Nat) → S → S
  /-- Replace the default route. -/
  setRoute : Option Ipv4Address → S → S
  addDhcp : S → H × S
  pollDhcp : H → S → Option DhcpEvent × S
  /-- A new socket that connects from a local port. -/
  connect : IpEndpoint → UInt16 → S → Except String (H × S)
  /-- A new socket that listens. -/
  listen : UInt16 → S → Except String (H × S)
  /-- Whether there is a socket at a handle. -/
  contains : S → H → Bool
  state : S → H → TcpState
  remoteEndpoint : S → H → Option IpEndpoint
  maySend : S → H → Bool
  mayRecv : S → H → Bool
  canRecv : S → H → Bool
  sendSlice : H → Bytes → S → Except String Nat × S
  recvSlice : H → Nat → S → Except String Bytes × S
  close : H → S → S
  abort : H → S → S
  remove : H → S → S
  /-- A new UDP socket, bound to a port. -/
  bindUdp : UInt16 → S → Except String (H × S)
  /-- The ports of the UDP sockets. -/
  udpPorts : S → List UInt16
  udpCanRecv : S → H → Bool
  udpSend : H → Bytes → IpEndpoint → S → Except UdpSendError Unit × S
  udpQueued : S → H → Nat
  udpRecv : H → S → Except UdpRecvError (Bytes × IpEndpoint) × S
  udpClose : H → S → S

end Eo9.Net
