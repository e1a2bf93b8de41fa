import Eo9.Library.Runs
import Eo9.Text.Nvt

/-!
# The session of `net.text`

The operations of the provider over a transport. An operation takes the connection out of the state
while it waits for the transport, and puts it back with the answer.
-/

namespace Eo9.Text

open Eo9.Library

inductive L4Error where
  | denied
  | unreachable
  | connectionRefused
  | connectionReset
  | timedOut
  | addressInUse
  | addressUnavailable
  | notConnected
  | messageTooLarge
  | io (message : String)
  deriving DecidableEq

inductive Message where
  | inProgress
  | failed (doing : String) (err : L4Error)

inductive TextError where
  | closed
  | io (message : Message)

def ioError (doing : String) (err : L4Error) : TextError := .io (.failed doing err)

/-- Whether the session is over rather than broken. -/
def peerGone : L4Error → Bool
  | .connectionReset | .notConnected => true
  | _ => false

inductive Op where
  | write (text : Bytes)
  | readLine

inductive Result where
  | wrote (r : Except TextError Unit)
  | line (r : Except TextError (Option Bytes))

/-- What an operation does behind a flush. -/
inductive After where
  | reading
  /-- Close the session and answer with a line. -/
  | closing (answer : Option Bytes)

/-- What goes to the transport at once. -/
abbrev Chunk := { bytes : Bytes // bytes.length ≤ SEND_CHUNK }

/-- Where a `read-line` waits for the transport, with what it keeps there. -/
inductive Stage (L C : Type) where
  | listen
  | accept (listener : L)
  | send (after : After) (chunk : Chunk) (conn : C)
  | recv (conn : C)
  /-- The bounded throwaway accept that pumps the close handshake out. -/
  | closeListen (answer : Option Bytes)
  | closeAccept (answer : Option Bytes) (listener : L)

variable {L C : Type}

def Stage.Answer : Stage L C → Type
  | .listen => Except L4Error L
  | .accept _ => Except L4Error C
  | .send _ _ _ => Except L4Error Nat
  | .recv _ => { buffer : Bytes // buffer.length = RECV_BUFFER_BYTES } × Except L4Error Nat
  | .closeListen _ => Except L4Error L
  | .closeAccept _ _ => Except L4Error C

/-- Where an operation comes to, and the state behind it. -/
abbrev Stretch (L C : Type) := (Result ⊕ Stage L C) × NetText C

def answer (r : Except TextError (Option Bytes)) (s : NetText C) : Stretch L C :=
  (.inl (.line r), s)

def wait (stage : Stage L C) (s : NetText C) : Stretch L C := (.inr stage, s)

namespace NetText

def takeConn (s : NetText C) : Option C × NetText C := (s.conn, { s with conn := none })

def putConn (conn : C) (s : NetText C) : NetText C := { s with conn := some conn }

def closeNow (s : NetText C) : NetText C := { s with conn := none, phase := .closed }

/-- What a flush sends next: nothing if there is nothing. -/
def takeChunk (s : NetText C) : Chunk × NetText C :=
  if s.out = [] ∧ s.outDropped = false then (⟨[], Nat.zero_le _⟩, s)
  else
    let s :=
      if s.out = [] then
        { s with
          outDropped := false
          out := DROPPED_MARKER
          history := { s.history with items := s.history.items ++ [.marker] } }
      else s
    let take := min s.out.length SEND_CHUNK
    (⟨s.out.take take, (List.length_take_le _ _).trans (min_le_right _ _)⟩,
      { s with out := s.out.drop take })

/-- The transport took the first bytes of a chunk. The tail goes back to the front. -/
def sent (chunk : Bytes) (bytesSent : Nat) (s : NetText C) : NetText C :=
  let queued := min (bytesSent % 2 ^ 32) chunk.length
  let s := { s with history := { s.history with
    accepted := s.history.accepted ++ chunk.take queued } }
  if queued < chunk.length then { s with out := chunk.drop queued ++ s.out } else s

/-- A connection was accepted. The greeting goes first. -/
def bringUp (conn : C) (s : NetText C) : NetText C :=
  { s with
    conn := some conn
    phase := .live
    out := GREETING ++ s.out
    history := { s.history with connections := s.history.connections + 1 } }

end NetText

/-- The end of `close_session`. -/
def closeTail (line : Option Bytes) (s : NetText C) : Stretch L C :=
  let stillOpen := s.conn.isSome
  let s := { s with conn := none, phase := .closed }
  if stillOpen then wait (.closeListen line) s else answer (.ok line) s

/-- One round of `flush`. -/
def flush (after : After) (go : Except TextError Unit → NetText C → Stretch L C)
    (s : NetText C) : Stretch L C :=
  let (chunk, s) := s.takeChunk
  if chunk.val = [] then go (.ok ()) s
  else
    match s.takeConn with
    | (none, s) => go (.error (.io .inProgress)) s
    | (some conn, s) => wait (.send after chunk conn) s

def closing (line : Option Bytes) (s : NetText C) : Stretch L C :=
  flush (.closing line) (fun _ => closeTail line) s

/-- `close_session`, and the answer behind it. -/
def closeSession (goodbye : Option Bytes) (line : Option Bytes) (s : NetText C) : Stretch L C :=
  match goodbye with
  | some text => closing line (s.queueOut .goodbye text)
  | none => closing line s

/-- The loop of `read_line` behind its flush. -/
def flushed (r : Except TextError Unit) (s : NetText C) : Stretch L C :=
  match r with
  | .error .closed => answer (.ok none) s
  | .error err => answer (.error err) s
  | .ok () =>
    match s.popLine with
    | (some line, s) =>
      if isExit line then closeSession (some GOODBYE) none s else answer (.ok (some line)) s
    | (none, s) =>
      match s.takeConn with
      | (none, s) => answer (.error (.io .inProgress)) s
      | (some conn, s) => wait (.recv conn) s

/-- The loop of `read_line` from its top. -/
def reading (s : NetText C) : Stretch L C := flush .reading flushed s

/-- What follows a flush. -/
def After.go : After → Except TextError Unit → NetText C → Stretch L C
  | .reading => flushed
  | .closing line => fun _ => closeTail line

def start (op : Op) (s : NetText C) : Stretch L C :=
  match op with
  | .write text =>
    if s.phase = .closed then (.inl (.wrote (.error .closed)), s)
    else (.inl (.wrote (.ok ())), s.queueOut .text (encode text))
  | .readLine =>
    match s.phase with
    | .closed => answer (.ok none) s
    | .idle => wait .listen s
    | .live => reading s

/-- A send has come back. -/
def resumeSend (after : After) (chunk : Chunk) (conn : C) (a : Except L4Error Nat)
    (s : NetText C) : Stretch L C :=
  let s := s.putConn conn
  match a with
  | .ok bytesSent => flush after after.go (s.sent chunk.val bytesSent)
  | .error err =>
    if peerGone err then after.go (.error .closed) s.closeNow
    else after.go (.error (ioError "send" err)) s

/-- A receive has come back. -/
def resumeRecv (conn : C) (buffer : Bytes) (a : Except L4Error Nat) (s : NetText C) :
    Stretch L C :=
  let s := s.putConn conn
  match a with
  | .ok received =>
    if received = 0 then
      let (last, s) := s.endInput
      closeSession none last s
    else
      let bytes := buffer.take (min received RECV_BUFFER_BYTES)
      reading (bytes.foldl (fun s byte => s.feed byte) s)
  | .error err =>
    if err = .timedOut then reading s
    else if peerGone err then answer (.ok none) s.closeNow
    else answer (.error (ioError "recv" err)) s

def resume : (stage : Stage L C) → stage.Answer → NetText C → Stretch L C
  | .listen, .error err, s => answer (.error (ioError "listen" err)) s
  | .listen, .ok listener, s => wait (.accept listener) s
  | .accept _, .ok conn, s => reading (s.bringUp conn)
  | .accept listener, .error err, s =>
    if err = .timedOut then wait (.accept listener) s
    else answer (.error (ioError "accept" err)) s
  | .send after chunk conn, a, s => resumeSend after chunk conn a s
  | .recv conn, (buffer, a), s => resumeRecv conn buffer.val a s
  | .closeListen line, .ok listener, s => wait (.closeAccept line listener) s
  | .closeListen line, .error _, s => answer (.ok line) s
  | .closeAccept line _, _, s => answer (.ok line) s

/-- A dropped operation drops what it keeps: a connection that is dropped is not put back. The
transport may have taken the first bytes of a chunk. -/
def Drops : Stage L C → NetText C → NetText C → Prop
  | .send _ chunk _, s, s' => ∃ n, s' = { s with history := { s.history with
      accepted := s.history.accepted ++ chunk.val.take n } }
  | _, s, s' => s' = s

/-- `net.text` over a transport. -/
def netText (L C : Type) : Staged (NetText C) Op (Stage L C) Result where
  Answer := Stage.Answer
  start := start
  resume := resume
  Drops := Drops

end Eo9.Text
