import Eo9.Eosh.Input
import Eo9.Library.Utf8

/-!
# Leaf parsers

The leaf parsers of `comb.rs` that the grammar uses, with the shell's lexical
rules. A leaf fails, finishes without taking the input, or takes it and goes on.
A set of words that a bit mask or a list of indices selects is kept as the list
of those words.
-/

namespace Eo9.Eosh

open Eo9.Library

/-- The bytes that end a bare word. -/
def isBoundaryByte (b : UInt8) : Bool :=
  (0x09 ≤ b && b ≤ 0x0D) || b == ch ' ' || b == ch '$' || b == ch '&' || b == ch '(' ||
    b == ch ')' || b == ch ',' || b == ch '=' || b == ch '\"' || b == ch '#'

def isWordByte (b : UInt8) : Bool := b < 0x80 && !isBoundaryByte b

/-- ASCII whitespace. -/
def isWs (b : UInt8) : Bool := (0x09 ≤ b && b ≤ 0x0D) || b == ch ' '

def wordCharset : Charset := .build isWordByte

def wsCharset : Charset := .build isWs

def openBracket : Ascii := ⟨ch '[', by decide⟩

def openBrace : Ascii := ⟨ch '{', by decide⟩

def dash : Ascii := ⟨ch '-', by decide⟩

def quote : Ascii := ⟨ch '\"', by decide⟩

/-- The state of a bare word: the excluded words that still equal what has been
read, whether it is a name or a flag name, its length, and whether it is `-`. -/
structure Word where
  exclAlive : List Str
  bare : Bool
  len : ℕ
  dash1 : Bool

/-- What one input does to a word. -/
inductive WordStep where
  | finish
  | fail
  | advance (next : Word)

namespace Word

/-- The state before the first byte. -/
def start (excluded : List Str) (bare : Bool) : Word := ⟨excluded, bare, 0, false⟩

def finishable (word : Word) : Bool :=
  decide (0 < word.len) && !word.exclAlive.any fun w => w.length == word.len

def stepCore (word : Word) : Input → WordStep
  | .eof => if word.finishable then .finish else .fail
  | .text _ => .advance ⟨[], word.bare, word.len + 1, false⟩
  | .byte b =>
    if isBoundaryByte b.1 then
      if word.finishable then .finish else .fail
    else if word.bare && (word.len == 0 && (b == openBracket || b == openBrace)) then .fail
    else if word.bare && (word.dash1 && b == dash) then .fail
    else
      .advance
        ⟨word.exclAlive.filter fun w => w[word.len]? == some b.1, word.bare, word.len + 1,
          word.bare && word.len == 0 && b == dash⟩

def admissibleCore (word : Word) : Admissible :=
  let charset := wordCharset
  let charset :=
    if word.bare then
      let charset :=
        if word.len == 0 then (charset.remove openBracket).remove openBrace else charset
      if word.dash1 then charset.remove dash else charset
    else charset
  ⟨charset, !word.finishable, true⟩

end Word

/-- Whether an entry is one plain word of printable bytes. -/
def entryIsWord (entry : Str) : Bool :=
  !entry.isEmpty && entry.all (fun b => isWordByte b && (0x21 ≤ b && b ≤ 0x7e)) &&
    !(entry.head? == some openBracket.1) && !(entry.head? == some openBrace.1) &&
    !(ascii "--").isPrefixOf entry

structure WordEntry extends HintEntry where
  isWord : entryIsWord word = true

theorem isWordByte_of_entry {entry : Str} (h : entryIsWord entry = true) {b : UInt8}
    (hb : b ∈ entry) : isWordByte b = true := by
  simp only [entryIsWord, Bool.and_eq_true] at h
  exact (Bool.and_eq_true_iff.mp (List.all_eq_true.mp h.1.1.1.2 b hb)).1

theorem ascii_of_isWordByte {b : UInt8} (h : isWordByte b = true) : b < 0x80 :=
  of_decide_eq_true (Bool.and_eq_true_iff.mp h).1

def WordEntry.byteAt (entry : WordEntry) (pos : ℕ) : Option Ascii :=
  if h : pos < entry.word.length then
    some ⟨entry.word[pos],
      ascii_of_isWordByte (isWordByte_of_entry entry.isWord (List.getElem_mem h))⟩
  else none

def wordEntries (vocab : List HintEntry) : List WordEntry :=
  vocab.filterMap fun entry =>
    if h : entryIsWord entry.word = true then some ⟨entry, h⟩ else none

inductive QuotedState where
  | opening | body | escape | finished
  deriving DecidableEq

inductive CompoundState where
  | opening | plain (depth : ℕ) | str (depth : ℕ) | strEscape (depth : ℕ) | finished
  deriving DecidableEq

/-- The state of a leaf parser. -/
inductive Leaf : Type → Type 1 where
  | fail {α : Type} : Leaf α
  | lit (rest : List Ascii) : Leaf Unit
  | kw (word : List Ascii) (pos : ℕ) (tag : Tag) : Leaf Unit
  | overlay {α : Type} (alive : List WordEntry) (pos : ℕ) : Leaf α
  | capWord (word : Word) (bytes : Str) : Leaf Str
  | capQuoted (state : QuotedState) (text : Str) : Leaf Str
  | capCompound (state : CompoundState) (text : Str) : Leaf Str
  | ws : Leaf Unit
  | commentRest : Leaf Unit

/-- What a leaf does with an input it does not fail on. -/
inductive LeafStep (α : Type) : Type 1 where
  | finish (value : α)
  | advance (next : Leaf α)

/-- The exact bytes `rest`, then whatever comes. -/
def Lit.step : List Ascii → Input → Option (LeafStep Unit)
  | [], _ => some (.finish ())
  | b :: rest, .byte c => if c = b then some (.advance (.lit rest)) else none
  | _ :: _, _ => none

def Lit.admissible : List Ascii → Admissible
  | [] => .timeToFinish
  | b :: _ => ⟨.singleton b, true, false⟩

/-- The exact word, which must end at a word boundary. -/
def Kw.step (word : List Ascii) (pos : ℕ) (tag : Tag) : Input → Option (LeafStep Unit)
  | .text _ => none
  | .eof => if pos = word.length then some (.finish ()) else none
  | .byte b =>
    if pos = word.length then
      if isBoundaryByte b.1 then some (.finish ()) else none
    else if word[pos]? = some b then some (.advance (.kw word (pos + 1) tag))
    else none

def Kw.admissible (word : List Ascii) (pos : ℕ) : Admissible :=
  match word[pos]? with
  | none => .timeToFinish
  | some b => ⟨.singleton b, true, false⟩

/-- A vocabulary that is offered for completion and never finishes. -/
def Overlay.step {α : Type} (alive : List WordEntry) (pos : ℕ) : Input → Option (LeafStep α)
  | .eof => none
  | .text _ => none
  | .byte b =>
    if isBoundaryByte b.1 then none
    else
      match alive.filter fun entry => entry.byteAt pos == some b with
      | [] => none
      | entry :: rest => some (.advance (.overlay (entry :: rest) (pos + 1)))

def Overlay.admissible (alive : List WordEntry) (pos : ℕ) : Admissible :=
  ⟨alive.foldl (fun charset entry =>
      match entry.byteAt pos with
      | some b => charset.add b
      | none => charset) .empty, true, false⟩

def CapWord.step (word : Word) (bytes : Str) (input : Input) : Option (LeafStep Str) :=
  match word.stepCore input with
  | .fail => none
  | .finish => some (.finish (Utf8.lossy bytes))
  | .advance next =>
    some (.advance (.capWord next (bytes ++ input.bytes)))

/-- What the five escapes stand for. -/
def unescape (b : UInt8) : Option UInt8 :=
  if b = ch '\"' then some (ch '\"')
  else if b = ch '\\' then some (ch '\\')
  else if b = ch 'n' then some (ch '\n')
  else if b = ch 't' then some (ch '\t')
  else if b = ch 'r' then some (ch '\r')
  else none

def quoteEscapeCharset : Charset :=
  (((((Charset.empty.add quote).add ⟨ch '\\', by decide⟩).add ⟨ch 'n', by decide⟩).add
    ⟨ch 't', by decide⟩).add ⟨ch 'r', by decide⟩)

/-- A quoted string, captured with its escapes decoded. -/
def CapQuoted.step (state : QuotedState) (text : Str) : Input → Option (LeafStep Str)
  | .eof => if state = .finished then some (.finish (Utf8.lossy text)) else none
  | .text b =>
    match state with
    | .body => some (.advance (.capQuoted .body (text ++ [b])))
    | .finished => some (.finish (Utf8.lossy text))
    | _ => none
  | .byte b =>
    match state with
    | .opening => if b = quote then some (.advance (.capQuoted .body text)) else none
    | .body =>
      if b = quote then some (.advance (.capQuoted .finished text))
      else if b.1 = ch '\\' then some (.advance (.capQuoted .escape text))
      else some (.advance (.capQuoted .body (text ++ [b.1])))
    | .escape => (unescape b.1).map fun c => .advance (.capQuoted .body (text ++ [c]))
    | .finished => some (.finish (Utf8.lossy text))

def CapQuoted.admissible : QuotedState → Admissible
  | .opening => ⟨.singleton quote, true, false⟩
  | .body => ⟨.all, true, true⟩
  | .escape => ⟨quoteEscapeCharset, true, false⟩
  | .finished => .timeToFinish

def IsOpen (b : UInt8) : Prop := b = ch '[' ∨ b = ch '{'

def IsClose (b : UInt8) : Prop := b = ch ']' ∨ b = ch '}'

instance (b : UInt8) : Decidable (IsOpen b) := inferInstanceAs (Decidable (_ ∨ _))

instance (b : UInt8) : Decidable (IsClose b) := inferInstanceAs (Decidable (_ ∨ _))

/-- The state of a compound literal after one byte; `none` outside of it. -/
def CompoundState.next (state : CompoundState) (b : UInt8) : Option CompoundState :=
  match state with
  | .opening => if IsOpen b then some (.plain 1) else none
  | .plain depth =>
    if IsOpen b then some (.plain (depth + 1))
    else if IsClose b then
      if depth = 1 then some .finished else some (.plain (depth - 1))
    else if b = ch '\"' then some (.str depth)
    else some (.plain depth)
  | .str depth =>
    if b = ch '\"' then some (.plain depth)
    else if b = ch '\\' then some (.strEscape depth)
    else some (.str depth)
  | .strEscape depth => some (.str depth)
  | .finished => none

/-- The state of a compound literal after one byte of text. -/
def CompoundState.nextText : CompoundState → Option CompoundState
  | .opening => none
  | .plain depth => some (.plain depth)
  | .str depth => some (.str depth)
  | .strEscape depth => some (.str depth)
  | .finished => none

/-- A balanced literal, captured verbatim. -/
def CapCompound.step (state : CompoundState) (text : Str) : Input → Option (LeafStep Str)
  | .eof => if state = .finished then some (.finish (Utf8.lossy text)) else none
  | .text b =>
    if state = .finished then some (.finish (Utf8.lossy text))
    else state.nextText.map fun next => .advance (.capCompound next (text ++ [b]))
  | .byte b =>
    if state = .finished then some (.finish (Utf8.lossy text))
    else (state.next b.1).map fun next => .advance (.capCompound next (text ++ [b.1]))

def CapCompound.admissible : CompoundState → Admissible
  | .opening => ⟨(Charset.empty.add openBracket).add openBrace, true, false⟩
  | .finished => .timeToFinish
  | _ => ⟨.all, true, true⟩

def Ws.step : Input → Option (LeafStep Unit)
  | .byte b => if isWs b.1 then some (.advance .ws) else some (.finish ())
  | _ => some (.finish ())

def CommentRest.step : Input → Option (LeafStep Unit)
  | .eof => some (.finish ())
  | _ => some (.advance .commentRest)

namespace Leaf

def step {α : Type} : Leaf α → Input → Option (LeafStep α)
  | .fail, _ => none
  | .lit rest, input => Lit.step rest input
  | .kw word pos tag, input => Kw.step word pos tag input
  | .overlay alive pos, input => Overlay.step alive pos input
  | .capWord word bytes, input => CapWord.step word bytes input
  | .capQuoted state text, input => CapQuoted.step state text input
  | .capCompound state text, input => CapCompound.step state text input
  | .ws, input => Ws.step input
  | .commentRest, input => CommentRest.step input

def admissible {α : Type} : Leaf α → Admissible
  | .fail => ⟨.empty, true, false⟩
  | .lit rest => Lit.admissible rest
  | .kw word pos _ => Kw.admissible word pos
  | .overlay alive pos => Overlay.admissible alive pos
  | .capWord word _ => word.admissibleCore
  | .capQuoted state _ => CapQuoted.admissible state
  | .capCompound state _ => CapCompound.admissible state
  | .ws => ⟨wsCharset, false, false⟩
  | .commentRest => ⟨.all, false, true⟩

def completions {α : Type} : Leaf α → List Completion
  | .kw word pos tag => [⟨word.map (·.1), pos, tag, none, false⟩]
  | .overlay alive pos => alive.map fun entry => entry.completion pos
  | _ => []

end Leaf

end Eo9.Eosh
