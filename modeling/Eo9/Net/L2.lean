import Eo9.Library.Bytes
import Eo9.Library.Custody

/-!
# The link layer

The calls of `eo9:net/l2` as a client makes them and awaits them, MAC addresses and
Ethernet frames, and the uplink that a middleware keeps in a slot between its calls.
-/

namespace Eo9.Net

open Eo9.Library

abbrev Bytes := List UInt8

/-- A 48-bit MAC address. -/
abbrev Mac := { bytes : Bytes // bytes.length = 6 }

/-- The Ethernet broadcast address. -/
def BROADCAST : Mac := ⟨List.replicate 6 0xFF, rfl⟩

/-- The shortest frame that has a header. -/
def HEADER : Nat := 14

/-- The address at a place of a frame. -/
def macAt (frame : Bytes) (at' : Nat) (h : at' + 6 ≤ frame.length) : Mac :=
  ⟨sub frame at' 6, length_sub h⟩

def dstOf (frame : Bytes) (h : HEADER ≤ frame.length) : Mac :=
  macAt frame 0 (by unfold HEADER at h; omega)

def srcOf (frame : Bytes) (h : HEADER ≤ frame.length) : Mac :=
  macAt frame 6 (by unfold HEADER at h; omega)

/-- Broadcast or multicast. -/
def Mac.isGroup (mac : Mac) : Bool := mac == BROADCAST || mac.val.headD 0 &&& 0x01 != 0

inductive L2Error where
  | denied
  | noSuchInterface
  | linkDown
  | frameTooLarge
  | io (message : String)
  deriving DecidableEq

structure InterfaceInfo where
  name : String
  mac : Mac
  mtu : Nat
  up : Bool

/-- The awaited calls, on an interface where there is one. -/
inductive L2Call (I : Type) where
  | listInterfaces
  | openInterface (name : String)
  | sendFrame (iface : I) (frame : Bytes)
  | recvFrame (iface : I) (capacity : Nat)
  | waitRecv (iface : I) (maxWaitNs : Nat)

/-- The answers to the calls. The buffer of a receive comes back with what is in it. -/
def L2Answer (I : Type) : L2Call I → Type
  | .listInterfaces => Except L2Error (List InterfaceInfo)
  | .openInterface _ => Except L2Error I
  | .sendFrame _ _ => Except L2Error Nat
  | .recvFrame _ capacity => { buffer : Bytes // buffer.length = capacity } × Except L2Error Nat
  | .waitRecv _ _ => Except L2Error Unit

variable {I : Type}

/-- The interface that a call is made on. -/
def L2Call.iface : L2Call I → Option I
  | .listInterfaces => none
  | .openInterface _ => none
  | .sendFrame iface _ => some iface
  | .recvFrame iface _ => some iface
  | .waitRecv iface _ => some iface

/-- The interface that an answer hands over. -/
def L2Answer.iface : ∀ call : L2Call I, L2Answer I call → Option I
  | .openInterface _, .ok iface => some iface
  | .openInterface _, .error _ => none
  | .listInterfaces, _ => none
  | .sendFrame _ _, _ => none
  | .recvFrame _ _, _ => none
  | .waitRecv _ _, _ => none

theorem L2Answer.iface_none {call : L2Call I} {a : L2Answer I call} {i : I}
    (h : L2Answer.iface call a = some i) : call.iface = none := by
  cases call with
  | listInterfaces => rfl
  | openInterface name => rfl
  | sendFrame iface frame => exact nomatch h
  | recvFrame iface capacity => exact nomatch h
  | waitRecv iface bound => exact nomatch h

/-- An opened upstream interface. -/
structure Uplink (I : Type) where
  iface : I
  mtu : Nat
  up : Bool

/-- The slot of a middleware with two ports: the uplink unless some operation has it,
whether one does or opens it, and the link parameters cached at bring-up. -/
structure UplinkSlot (I : Type) where
  uplink : Option (Uplink I)
  claimed : Bool
  params : Option (Nat × Bool)

namespace UplinkSlot

def new : UplinkSlot I := ⟨none, false, none⟩

def seat (slot : UplinkSlot I) : Seat I :=
  match slot.uplink with
  | some uplink => .home uplink.iface
  | none => if slot.claimed then .away else .vacant

def takeUplink (slot : UplinkSlot I) : View (Uplink I) × UplinkSlot I :=
  match slot.uplink with
  | some uplink => (.ready uplink, { slot with uplink := none, claimed := true })
  | none => if slot.claimed then (.busy, slot) else (.needOpen, { slot with claimed := true })

/-- The destructor of the guard that an operation holds the uplink in. -/
def putBack (uplink : Uplink I) (slot : UplinkSlot I) : UplinkSlot I :=
  { slot with uplink := some uplink, claimed := false }

/-- The destructor of the claim to open the uplink. -/
def release (slot : UplinkSlot I) : UplinkSlot I := { slot with claimed := false }

def cacheParams (params : Nat × Bool) (slot : UplinkSlot I) : UplinkSlot I :=
  { slot with params := some params }

theorem lawful : Custody.Lawful (seat (I := I)) Uplink.iface takeUplink release putBack where
  take_vacant s h := by
    rcases s with ⟨_ | uplink, _ | _, params⟩ <;> simp_all [seat, takeUplink]
  take_home s i h := by
    rcases s with ⟨_ | uplink, _ | _, params⟩ <;> simp_all [seat, takeUplink]
  take_away s h := by
    rcases s with ⟨_ | uplink, _ | _, params⟩ <;> simp_all [seat, takeUplink]
  release_away s h := by
    rcases s with ⟨_ | uplink, _ | _, params⟩ <;> simp_all [seat, release]
  putBack_away _ _ _ := rfl

@[simp] theorem seat_cacheParams (params : Nat × Bool) (slot : UplinkSlot I) :
    (cacheParams params slot).seat = slot.seat := rfl

end UplinkSlot

end Eo9.Net
