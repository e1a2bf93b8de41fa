import Mathlib.Algebra.GroupWithZero.Nat
import Mathlib.Data.List.Basic
import Eo9.Library.Trimming
import Eo9.Library.Utf8

/-!
# The line discipline of `net.text`

The state of a session, and what the provider does with it at once: output is queued below a cap,
and every byte from the peer goes through the telnet negotiator and the line assembler.
-/

namespace Eo9.Text

open Eo9.Library

abbrev Bytes := List UInt8

def DEFAULT_PORT : UInt16 := 23
def OUT_CAP : Nat := 64 * 1024
def LINE_CAP : Nat := 4096
def RECV_BUFFER_BYTES : Nat := 2048
def SEND_CHUNK : Nat := 4096

def ascii (s : String) : Bytes := s.toList.map fun c => UInt8.ofNat c.toNat

def GREETING : Bytes := ascii
  "eo9 net.text: cleartext telnet session - unauthenticated; trusted networks only\r\n"
def GOODBYE : Bytes := ascii "eo9 net.text: session closed\r\n"
def DROPPED_MARKER : Bytes := ascii "\r\n[net.text: some output was dropped]\r\n"

def IAC : UInt8 := 255
def DONT : UInt8 := 254
def DO : UInt8 := 253
def WONT : UInt8 := 252
def WILL : UInt8 := 251
def SB : UInt8 := 250
def SE : UInt8 := 240

def CR : UInt8 := 13
def LF : UInt8 := 10
def NUL : UInt8 := 0

/-- The state of the telnet command parser. -/
inductive Nvt where
  | data
  | iac
  | verb (verb : UInt8)
  | sub
  | subIac

inductive Phase where
  | idle
  | live
  | closed
  deriving DecidableEq

/-- What queues output. -/
inductive Source where
  | text
  | refusal
  | goodbye

/-- What went into the output queue: some bytes, with the room there was for them, or the marker. -/
inductive Item where
  | queued (source : Source) (bytes : Bytes) (room : Nat)
  | marker

/-- A history of the session, for its specification: no operation reads it. -/
structure History where
  /-- What came from the peer: bytes, and ends of the stream. -/
  fed : List (Option UInt8)
  /-- The lines taken out of the queue. -/
  taken : List Bytes
  items : List Item
  /-- The connections that were brought up. -/
  connections : Nat
  /-- The bytes that the transport accepted. -/
  accepted : Bytes

structure NetText (C : Type) where
  phase : Phase
  /-- The connection, unless an operation has it. -/
  conn : Option C
  out : Bytes
  outDropped : Bool
  lines : List Bytes
  partialLine : Bytes
  nvt : Nvt
  swallowAfterCr : Bool
  history : History

variable {C : Type}

namespace NetText

def new : NetText C where
  phase := .idle
  conn := none
  out := []
  outDropped := false
  lines := []
  partialLine := []
  nvt := .data
  swallowAfterCr := false
  history := ⟨[], [], [], 0, []⟩

/-- Queue bytes that are encoded for the wire, below the cap. -/
def queueOut (source : Source) (bytes : Bytes) (s : NetText C) : NetText C :=
  let room := OUT_CAP - s.out.length
  let s := { s with history := { s.history with
    items := s.history.items ++ [Item.queued source bytes room] } }
  if bytes.length ≤ room then { s with out := s.out ++ bytes }
  else { s with out := s.out ++ bytes.take room, outDropped := true }

/-- The line assembled so far goes into the queue. -/
def endLine (s : NetText C) : NetText C :=
  { s with partialLine := [], lines := s.lines ++ [Utf8.lossy s.partialLine] }

/-- One byte through the negotiator and the assembler. -/
def step (byte : UInt8) (s : NetText C) : NetText C :=
  match s.nvt with
  | .data =>
    if byte = IAC then { s with nvt := .iac }
    else if byte = CR then { s.endLine with swallowAfterCr := true }
    else if (byte = LF ∨ byte = NUL) ∧ s.swallowAfterCr = true then
      { s with swallowAfterCr := false }
    else if byte = LF then s.endLine
    else
      let s := { s with swallowAfterCr := false, partialLine := s.partialLine ++ [byte] }
      if LINE_CAP ≤ s.partialLine.length then s.endLine else s
  | .iac =>
    if byte = IAC then { s with partialLine := s.partialLine ++ [IAC], nvt := .data }
    else if byte = WILL ∨ byte = WONT ∨ byte = DO ∨ byte = DONT then { s with nvt := .verb byte }
    else if byte = SB then { s with nvt := .sub }
    else { s with nvt := .data }
  | .verb verb =>
    let s :=
      if verb = WILL then s.queueOut .refusal [IAC, DONT, byte]
      else if verb = DO then s.queueOut .refusal [IAC, WONT, byte]
      else s
    { s with nvt := .data }
  | .sub => if byte = IAC then { s with nvt := .subIac } else s
  | .subIac => { s with nvt := if byte = SE then .data else .sub }

/-- Something came from the peer. -/
def record (e : Option UInt8) (s : NetText C) : NetText C :=
  { s with history := { s.history with fed := s.history.fed ++ [e] } }

/-- `feed` -/
def feed (byte : UInt8) (s : NetText C) : NetText C := (s.record (some byte)).step byte

def popLine (s : NetText C) : Option Bytes × NetText C :=
  match s.lines with
  | [] => (none, s)
  | line :: rest =>
    (some line, { s with lines := rest, history := { s.history with
      taken := s.history.taken ++ [line] } })

/-- The end of the stream ends a line that is under way. -/
def endInput (s : NetText C) : Option Bytes × NetText C :=
  let s := s.record none
  if s.partialLine = [] then (none, s) else s.endLine.popLine

end NetText

/-- The characters of `char::is_whitespace`. -/
def WHITE_SPACE : List Nat :=
  [9, 10, 11, 12, 13, 0x20, 0x85, 0xA0, 0x1680, 0x2000, 0x2001, 0x2002, 0x2003, 0x2004, 0x2005,
    0x2006, 0x2007, 0x2008, 0x2009, 0x200A, 0x2028, 0x2029, 0x202F, 0x205F, 0x3000]

/-- Whether some bytes are a white character. -/
def isWhite (c : Bytes) : Bool :=
  WHITE_SPACE.any fun n => String.utf8EncodeChar (Char.ofNat n) = c

/-- `line.trim() == "exit"` -/
def isExit (line : Bytes) : Bool := (trim isWhite (Utf8.chars line)).flatten = ascii "exit"

/-- A newline on the wire is CR LF. -/
def encode (text : Bytes) : Bytes := text.flatMap fun byte => if byte = LF then [CR, LF] else [byte]

end Eo9.Text
