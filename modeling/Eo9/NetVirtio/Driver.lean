import Eo9.Library.Await
import Eo9.Library.Bytes
import Eo9.Library.SplitRing

/-!
# The driver of `net.virtio`

The virtio-net driver (`net-virtio/src/lib.rs`) with its two queues, eight receive slots and one
bounce buffer, and a device that obeys virtio. The device has a turn before each access of the
driver to their memory; at each await the call can fail or the operation be dropped. A receive
descriptor covers the slot of its index from bring-up on, and all transmit descriptors point to the
bounce buffer, so that of the descriptors only the lengths of the latter are kept.
-/

namespace Eo9.NetVirtio

open Eo9.Library

abbrev Bytes := List UInt8

def QUEUE_SIZE : ℕ := 16

def VNET_HEADER : ℕ := 12

def RX_SLOTS : ℕ := 8

def RX_SLOT_BYTES : ℕ := 2048

def TX_DATA_BYTES : ℕ := 2048

def MAX_FRAME : ℕ := TX_DATA_BYTES - VNET_HEADER

def TX_POLL_LIMIT : ℕ := 50000000

def RX_POLL_LIMIT : ℕ := 2000

inductive RxMove where
  | fetch
  /-- Bytes into a fetched buffer. -/
  | fill (k i : ℕ) (bytes : Bytes)
  /-- A fetched buffer comes back with a frame. -/
  | deliver (k len : ℕ)

inductive TxMove where
  | fetch
  /-- Bytes out of a fetched buffer. -/
  | read (k i n : ℕ)
  | finish (k : ℕ)

/-- The receive queue: its ring and slots, the slots that the device fetched, and as a ghost what
came with each completion. -/
structure Rx where
  ring : SplitRing ℕ (ℕ × ℕ)
  slots : List Bytes
  flight : List ℕ
  frames : List Bytes

/-- A transmit as the device fetched it. The number is a ghost. -/
structure Ticket where
  number : ℕ
  descriptor : ℕ
  len : ℕ

/-- Bytes that the device read for a transmit. -/
structure Piece where
  number : ℕ
  position : ℕ
  bytes : Bytes

/-- The transmit queue. The last four are ghosts: the packet of each transmit, what the device
read, the transmits it completed, and how many were out at each write to the bounce buffer and the
descriptors. -/
structure Tx where
  ring : SplitRing ℕ ℕ
  bounce : Bytes
  lens : List ℕ
  flight : List Ticket
  packets : List Bytes
  sent : List Piece
  settled : List ℕ
  writes : List ℕ

namespace Rx

variable (r : Rx)

def fetch : Rx :=
  match r.ring.offered with
  | some id => { r with ring := r.ring.fetch, flight := r.flight ++ [id] }
  | none => r

def fill (id i : ℕ) (bytes : Bytes) : Rx :=
  if i + bytes.length ≤ RX_SLOT_BYTES then
    { r with slots := r.slots.modify id fun slot => copyInto slot i bytes }
  else r

def deliver (k id len : ℕ) : Rx :=
  if len ≤ RX_SLOT_BYTES then
    { r with
      ring := r.ring.complete (id, len)
      flight := r.flight.eraseIdx k
      frames := r.frames ++ [((r.slots[id]?).getD []).take len] }
  else r

def move : RxMove → Rx
  | .fetch => r.fetch
  | .fill k i bytes =>
    match r.flight[k]? with
    | some id => r.fill id i bytes
    | none => r
  | .deliver k len =>
    match r.flight[k]? with
    | some id => r.deliver k id len
    | none => r

end Rx

namespace Tx

variable (t : Tx)

def fetch : Tx :=
  match t.ring.offered with
  | some d =>
    { t with
      ring := t.ring.fetch
      flight := t.flight ++ [⟨t.ring.fetched, d, (t.lens[d]?).getD 0⟩] }
  | none => t

def read (ticket : Ticket) (i n : ℕ) : Tx :=
  if i + n ≤ ticket.len then
    { t with sent := t.sent ++ [⟨ticket.number, i, sub t.bounce i n⟩] }
  else t

/-- A transmit completes when all of its packet is read. -/
def finish (k : ℕ) (ticket : Ticket) : Tx :=
  { t with
    ring := t.ring.complete ticket.descriptor
    flight := t.flight.eraseIdx k
    sent := t.sent ++ [⟨ticket.number, 0, sub t.bounce 0 ticket.len⟩]
    settled := t.settled ++ [ticket.number] }

def move : TxMove → Tx
  | .fetch => t.fetch
  | .read k i n =>
    match t.flight[k]? with
    | some ticket => t.read ticket i n
    | none => t
  | .finish k =>
    match t.flight[k]? with
    | some ticket => t.finish k ticket
    | none => t

end Tx

/-- How an awaited call ends. -/
inductive Reply where
  | ok
  | failed
  | dropped

structure Turn where
  rx : List RxMove
  tx : List TxMove
  reply : Reply

structure World where
  rx : Rx
  tx : Tx
  interrupt : Bool
  script : List Turn

abbrev Call (α : Type) := Action World (Ended String) α

def turn : Call Reply := fun w =>
  match w.script with
  | [] => (.ok .ok, w)
  | t :: script =>
    (.ok t.reply, { w with
      rx := t.rx.foldl Rx.move w.rx
      tx := t.tx.foldl Tx.move w.tx
      script := script })

/-- The turn of the device before an access to the shared memory. -/
def pass : Call PUnit := do
  let _ ← turn

/-- A PCI call: it can fail, and the operation can be dropped there. -/
def pciCall (what : String) : Call PUnit := do
  match ← turn with
  | .ok => pure ()
  | .failed => Action.fail (.failed what)
  | .dropped => Action.fail .dropped

def notifyQueue : Call PUnit := pciCall "net.virtio: queue notify"

def modifyRx (f : Rx → Rx) : Call PUnit := Action.modify fun w => { w with rx := f w.rx }

def modifyTx (f : Tx → Tx) : Call PUnit := Action.modify fun w => { w with tx := f w.tx }

/-- A write to the bounce buffer or to a transmit descriptor. -/
def writeTx (f : Tx → Tx) : Call PUnit := do
  pass
  modifyTx fun t => f { t with
    writes := t.writes ++ [t.ring.published.length - t.ring.completed.length] }

def setupQueue (maxSize : ℕ) : Outcome String ℕ :=
  if maxSize = 0 then Outcome.fail "net.virtio: virtqueue is not available"
  else .ok (min maxSize QUEUE_SIZE)

def Rx.fresh (size : ℕ) : Rx where
  ring := .empty size (List.replicate size 0) (List.replicate size (0, 0))
  slots := List.replicate RX_SLOTS (List.replicate RX_SLOT_BYTES 0)
  flight := []
  frames := []

def Tx.fresh (size : ℕ) : Tx where
  ring := .empty size (List.replicate size 0) (List.replicate size 0)
  bounce := List.replicate TX_DATA_BYTES 0
  lens := List.replicate QUEUE_SIZE 0
  flight := []
  packets := []
  sent := []
  settled := []
  writes := []

def Rx.stage (slot : ℕ) (r : Rx) : Rx := { r with ring := r.ring.stage slot }

def Rx.publish (r : Rx) : Rx := { r with ring := r.ring.publish }

def Rx.consume (r : Rx) : Rx := { r with ring := r.ring.consume }

/-- Put a slot into the avail ring of the receive queue. -/
def stageRx (slot : ℕ) : Call PUnit := do
  pass
  modifyRx (Rx.stage slot)

def publishRx : Call PUnit := do
  pass
  modifyRx Rx.publish

def postInitialReceiveBuffers : Call PUnit := do
  (List.range RX_SLOTS).forM stageRx
  publishRx
  notifyQueue

/-- The queues of a device that offers these sizes, with the receive buffers posted. -/
def start (maxRx maxTx : ℕ) (interrupt : Bool) (script : List Turn) :
    Outcome (Ended String) World := do
  let rxSize ← Outcome.mapErr (fun e => Outcome.fail (.failed e)) (setupQueue maxRx)
  let txSize ← Outcome.mapErr (fun e => Outcome.fail (.failed e)) (setupQueue maxTx)
  match postInitialReceiveBuffers ⟨.fresh rxSize, .fresh txSize, interrupt, script⟩ with
  | (.ok _, w) => .ok w
  | (.error e, _) => .error e

/-- Poll a used index until it moved; the spins that are left then. -/
def poll (moved : World → Bool) : (spins : ℕ) → Call (Option ℕ)
  | 0 => pure none
  | spins + 1 => do
      pass
      if ← Action.gets moved then pure (some (spins + 1)) else poll moved spins

def txMoved (w : World) : Bool := w.tx.ring.usedIdx ≠ w.tx.ring.usedIndex

def rxMoved (w : World) : Bool := w.rx.ring.usedIdx ≠ w.rx.ring.usedIndex

def Tx.consume (t : Tx) : Tx := { t with ring := t.ring.consume }

/-- Settle transmits that earlier operations left published. The spins are those of all rounds. -/
def drainTx : (fuel spins : ℕ) → Call PUnit
  | 0, _ => Action.ofOutcome (.error .diverge)
  | fuel + 1, spins => do
      if ← Action.gets fun w => decide (w.tx.ring.availIndex = w.tx.ring.usedIndex) then pure ()
      else
        notifyQueue
        match ← poll txMoved spins with
        | some spins => do
            modifyTx Tx.consume
            drainTx fuel spins
        | none =>
          Action.fail (.failed "net.virtio: the device did not complete a cancelled transmit")

def Tx.load (packet : Bytes) (t : Tx) : Tx := { t with bounce := copyInto t.bounce 0 packet }

def Tx.describe (d len : ℕ) (t : Tx) : Tx := { t with lens := t.lens.set d len }

def Tx.stage (d : ℕ) (t : Tx) : Tx := { t with ring := t.ring.stage d }

def Tx.publish (packet : Bytes) (t : Tx) : Tx :=
  { t with ring := t.ring.publish, packets := t.packets ++ [packet] }

/-- A frame behind the header that says that nothing is offloaded. -/
def packetOf (frame : Bytes) : Bytes := List.replicate VNET_HEADER 0 ++ frame

/-- Put a packet into the bounce buffer and publish it. -/
def submit (packet : Bytes) : Call PUnit := do
  writeTx (Tx.load packet)
  let descriptor ← Action.gets fun w => w.tx.ring.availIndex % w.tx.ring.size
  writeTx (Tx.describe descriptor packet.length)
  pass
  modifyTx (Tx.stage descriptor)
  pass
  modifyTx (Tx.publish packet)

def send (frame : Bytes) : Call ℕ := do
  if MAX_FRAME < frame.length then Action.fail (.failed "frame-too-large")
  else
    drainTx (2 ^ 16) (TX_POLL_LIMIT + 1)
    submit (packetOf frame)
    notifyQueue
    match ← poll txMoved (TX_POLL_LIMIT + 1) with
    | some _ => do
        modifyTx Tx.consume
        pure frame.length
    | none => Action.fail (.failed "net.virtio: the device did not consume the transmitted frame")

/-- What a completion brought, as far as the caller has room for it. -/
def frameOf (maxLen id written : ℕ) : Call Bytes := do
  if RX_SLOTS ≤ id ∨ written ≤ VNET_HEADER then pure []
  else
    pass
    let slot ← Action.gets fun w => (w.rx.slots[id]?).getD []
    pure (sub slot VNET_HEADER
      (min (min (written - VNET_HEADER) maxLen) (RX_SLOT_BYTES - VNET_HEADER)))

/-- Hand a slot straight back to the device. -/
def handBack (id : ℕ) : Call PUnit := do
  if id < RX_SLOTS then
    stageRx id
    publishRx
    notifyQueue
  else pure ()

/-- A failure of the read does not matter, but the operation can be dropped there. -/
def acknowledgeIsr : Call PUnit := do
  match ← turn with
  | .dropped => Action.fail .dropped
  | _ => pure ()

def acknowledge : Call PUnit := do
  if ← Action.gets World.interrupt then acknowledgeIsr else pure ()

def recv (maxLen : ℕ) : Call Bytes := do
  match ← poll rxMoved (RX_POLL_LIMIT + 1) with
  | some _ => do
      pass
      let element ← Action.gets fun w => w.rx.ring.delivered.getD (0, 0)
      modifyRx Rx.consume
      let bytes ← frameOf maxLen element.1 element.2
      handBack element.1
      acknowledge
      pure bytes
  | none => pure []

/-- The vector is out of its place while the operation waits. -/
def waitRx : Call PUnit := do
  pass
  if ← Action.gets rxMoved then pure ()
  else if ← Action.gets World.interrupt then
    Action.modify fun w => { w with interrupt := false }
    let reply ← turn
    match reply with
    | .dropped => Action.fail .dropped
    | .ok => do
        Action.modify fun w => { w with interrupt := true }
        acknowledgeIsr
    | .failed => Action.modify fun w => { w with interrupt := true }
  else pure ()

end Eo9.NetVirtio
