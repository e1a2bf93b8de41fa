import Mathlib.Data.BitVec
import Mathlib.Data.List.Basic
import Mathlib.Data.List.FinRange
import Mathlib.Tactic.Common

/-!
# Parser inputs and what a parser admits

The shell's parser reads a line one byte at a time (`input.rs`), and says of
each of its states which bytes it would take next (`charset.rs`, `inc.rs`).
Text is kept as its bytes throughout.
-/

namespace Eo9.Eosh

/-- A string, by its UTF-8 bytes. -/
abbrev Str := List UInt8

/-- A fact about the bytes of a text is decided along the text, not over all bytes. -/
instance (p : UInt8 → Prop) [DecidablePred p] (text : Str) : Decidable (∀ b ∈ text, p b) :=
  List.decidableBAll p text

abbrev Ascii := { b : UInt8 // b < 0x80 }

def ch (c : Char) : UInt8 := UInt8.ofNat c.toNat

theorem ch_dollar_lt : ch '$' < 0x80 := by decide
theorem ch_ampersand_lt : ch '&' < 0x80 := by decide
theorem ch_openParen_lt : ch '(' < 0x80 := by decide
theorem ch_closeParen_lt : ch ')' < 0x80 := by decide
theorem ch_comma_lt : ch ',' < 0x80 := by decide
theorem ch_equals_lt : ch '=' < 0x80 := by decide

def asciiChars (s : String) : List Ascii :=
  s.toList.filterMap fun c => if h : ch c < 0x80 then some ⟨ch c, h⟩ else none

/-- An ASCII literal as text. -/
def ascii (s : String) : Str := (asciiChars s).map (·.1)

/-- One unit of parser input. -/
inductive Input where
  | eof
  | byte (b : Ascii)
  | text (b : UInt8)
  deriving DecidableEq

def Input.ofByte (b : UInt8) : Input :=
  if h : b < 0x80 then .byte ⟨b, h⟩ else .text b

@[simp] theorem Input.ofByte_ascii (b : Ascii) : Input.ofByte b.1 = .byte b := dif_pos b.2

/-- The byte of an input, if there is one. -/
def Input.bytes : Input → Str
  | .eof => []
  | .byte b => [b.1]
  | .text b => [b]

@[simp] theorem Input.bytes_ofByte (b : UInt8) : (Input.ofByte b).bytes = [b] := by
  unfold Input.ofByte
  split <;> rfl

/-- A set of ASCII bytes: bit `b` set means byte `b` is in. -/
structure Charset where
  bits : BitVec 128

namespace Charset

def empty : Charset := ⟨0#128⟩

def all : Charset := ⟨BitVec.allOnes 128⟩

def singleton (i : Ascii) : Charset := ⟨BitVec.twoPow 128 i.1.toNat⟩

def add (cs : Charset) (i : Ascii) : Charset := ⟨cs.bits ||| BitVec.twoPow 128 i.1.toNat⟩

def remove (cs : Charset) (i : Ascii) : Charset := ⟨cs.bits &&& ~~~BitVec.twoPow 128 i.1.toNat⟩

def contains (cs : Charset) (i : Ascii) : Bool := cs.bits.getLsbD i.1.toNat

def union (cs other : Charset) : Charset := ⟨cs.bits ||| other.bits⟩

/-- All ASCII bytes, in order. -/
def asciiBytes : List Ascii :=
  (List.finRange 128).map fun i =>
    ⟨UInt8.ofNat i.1, by
      rw [UInt8.lt_iff_toNat_lt, UInt8.toNat_ofNat']
      exact Nat.lt_of_le_of_lt (Nat.mod_le _ _) i.2⟩

/-- The bytes of the set, in order. -/
def bytes (cs : Charset) : List Ascii := asciiBytes.filter cs.contains

/-- The byte of a set with one byte. -/
def one (cs : Charset) : Option Ascii :=
  match cs.bytes with
  | [b] => some b
  | _ => none

/-- The bytes for which `p` holds, added one at a time. -/
def build (p : UInt8 → Bool) : Charset :=
  asciiBytes.foldl (fun cs b => if p b.1 then cs.add b else cs) empty

theorem mem_asciiBytes (b : Ascii) : b ∈ asciiBytes := by
  apply List.mem_map.mpr
  refine ⟨⟨b.1.toNat, UInt8.lt_iff_toNat_lt.mp b.2⟩, List.mem_finRange _, ?_⟩
  apply Subtype.ext
  exact UInt8.ofNat_toNat

@[simp] theorem mem_bytes {cs : Charset} {b : Ascii} : b ∈ cs.bytes ↔ cs.contains b = true := by
  simp [bytes, mem_asciiBytes]

theorem toNat_lt (b : Ascii) : b.1.toNat < 128 := UInt8.lt_iff_toNat_lt.mp b.2

theorem toNat_inj {b c : Ascii} : b.1.toNat = c.1.toNat ↔ b = c := by
  rw [UInt8.toNat_inj, Subtype.ext_iff]

@[simp] theorem contains_empty (b : Ascii) : empty.contains b = false := by
  simp [contains, empty]

@[simp] theorem contains_all (b : Ascii) : all.contains b = true := by
  rw [contains, all, BitVec.getLsbD_allOnes]
  exact decide_eq_true (toNat_lt b)

@[simp] theorem contains_singleton (i b : Ascii) :
    (singleton i).contains b = decide (b = i) := by
  simp [contains, singleton, toNat_lt, toNat_inj]

@[simp] theorem contains_add (cs : Charset) (i b : Ascii) :
    (cs.add i).contains b = (cs.contains b || decide (b = i)) := by
  simp [contains, add, toNat_lt, toNat_inj]

@[simp] theorem contains_remove (cs : Charset) (i b : Ascii) :
    (cs.remove i).contains b = (cs.contains b && !decide (b = i)) := by
  simp [contains, remove, toNat_lt, toNat_inj]

@[simp] theorem contains_union (cs other : Charset) (b : Ascii) :
    (cs.union other).contains b = (cs.contains b || other.contains b) := by
  simp [contains, union]

theorem contains_foldl_add {p : UInt8 → Bool} (bs : List Ascii) (cs : Charset) (b : Ascii) :
    (bs.foldl (fun cs b => if p b.1 then cs.add b else cs) cs).contains b =
      (cs.contains b || (p b.1 && decide (b ∈ bs))) := by
  induction bs generalizing cs with
  | nil => simp
  | cons c bs ih =>
    rw [List.foldl_cons, ih]
    by_cases hbc : b = c
    · subst hbc
      cases hp : p b.1 <;> simp
    · cases hp : p c.1 <;> simp [hbc]

@[simp] theorem contains_build (p : UInt8 → Bool) (b : Ascii) :
    (build p).contains b = p b.1 := by
  simp [build, contains_foldl_add, mem_asciiBytes]

/-- A set whose single byte is `b` has that byte and no other. -/
theorem contains_of_one {cs : Charset} {b : Ascii} (h : cs.one = some b) (c : Ascii) :
    cs.contains c = true ↔ c = b := by
  unfold one at h
  split at h
  · rename_i b' hb
    cases h
    rw [← mem_bytes, hb, List.mem_singleton]
  · cases h

end Charset

/-- What a parser state will do with the next input. -/
structure Admissible where
  charset : Charset
  hardRequired : Bool
  nonAsciiOk : Bool

namespace Admissible

/-- Nothing consumable, ready to finish. -/
def timeToFinish : Admissible := ⟨.empty, false, false⟩

/-- The alternation of two admissibilities. -/
def either (a b : Admissible) : Admissible :=
  ⟨a.charset.union b.charset, a.hardRequired && b.hardRequired, a.nonAsciiOk || b.nonAsciiOk⟩

end Admissible

/-- What kind of word a completion is. -/
inductive Tag where
  | builtin | keyword | program | binding | other | flag | value
  deriving DecidableEq

/-- Whether a candidate with this tag is evidence of a name position. -/
def Tag.isName : Tag → Bool
  | flag | value => false
  | _ => true

/-- One completion candidate, and how many of its bytes are typed. -/
structure Completion where
  word : Str
  matched : ℕ
  tag : Tag
  desc : Option Str
  glue : Bool

structure HintEntry where
  word : Str
  tag : Tag
  desc : Option Str
  glue : Bool

def HintEntry.plain (word : Str) (tag : Tag) : HintEntry := ⟨word, tag, none, false⟩

/-- The candidate an entry gives once `matched` of its bytes are typed. -/
def HintEntry.completion (entry : HintEntry) (matched : ℕ) : Completion :=
  ⟨entry.word, matched, entry.tag, entry.desc, entry.glue⟩

end Eo9.Eosh
