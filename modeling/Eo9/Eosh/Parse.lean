import Eo9.Eosh.Contract

/-!
# Parsing a whole line

The entry points of `parse.rs`: the line's characters are fed to the grammar one
after the other, and the first one that is not viable, or the end of the line, is
the place of the error.
-/

namespace Eo9.Eosh

open Eo9.Library

/-- A `&str`: text that is well-formed UTF-8. -/
structure Text where
  bytes : Str
  valid : Utf8.Valid bytes

def utf8 (s : String) : Str := s.toUTF8.toList

/-- A parse failure: the 1-based column, the character found there, which is `none`
at the end of the line, and what was expected. -/
structure ParseError where
  column : ℕ
  found : Option Str
  expected : Str

namespace Parse

/-- An ASCII character as it is shown in a message. -/
def escapeDebug (b : UInt8) : Str :=
  if b = 0x00 then ascii "\\0"
  else if b = 0x09 then ascii "\\t"
  else if b = 0x0A then ascii "\\n"
  else if b = 0x0D then ascii "\\r"
  else if b = 0x22 ∨ b = 0x27 ∨ b = 0x5C then [0x5C, b]
  else if 0x20 ≤ b ∧ b < 0x7F then [b]
  else ascii "\\u\x7b" ++ (Nat.toDigits 16 b.toNat).map ch ++ ascii "\x7d"

/-- `a`, `a or b`, `a, b, or c`. -/
def joinOr (items : List Str) : Str :=
  match items with
  | [] => []
  | [a] => a
  | [a, b] => a ++ ascii " or " ++ b
  | items =>
    (ascii ", ").intercalate items.dropLast ++ ascii ", or " ++ items.getLast?.getD []

/-- The words of a position with keywords only, at most eight of them. -/
def oneOf (comps : List Completion) : Str :=
  let words := ((comps.map (·.word)).mergeSort fun a b => decide (a ≤ b)).eraseReps
  if 8 < words.length then
    ascii "one of: " ++ (ascii ", ").intercalate (words.take 8) ++ utf8 ", …"
  else ascii "one of: " ++ (ascii ", ").intercalate words

/-- What the bytes and the completions of a state amount to. -/
def expectedItems (charset : Charset) (comps : List Completion) : List Str :=
  let has (c : Char) : Bool := charset.bytes.any fun b => b.1 == ch c
  let hasWord := has 'a' && has 'z' && has '0'
  let interesting := charset.bytes.filter fun b => !(isWs b.1 || b.1 == ch '#')
  if !hasWord && !comps.isEmpty then [oneOf comps]
  else if !hasWord && interesting.length ≤ 6 then
    interesting.map fun b => ascii "`" ++ escapeDebug b.1 ++ ascii "`"
  else
    (if hasWord then [ascii "a word"] else []) ++
      (if has '\"' then [ascii "a quoted string"] else []) ++
      (['$', '&', '(', ')', ',', '='].filter has).map fun c => ascii "`" ++ [ch c] ++ ascii "`"

/-- The items as one phrase, with the end of the line when that is possible. -/
def phrased (hardRequired : Bool) (items : List Str) : Str :=
  let items := if hardRequired then items else items ++ [ascii "end of line"]
  if items.isEmpty then ascii "nothing more" else joinOr items

/-- The admissible set of a state in words. -/
def renderExpected {α : Type} (state : P α) : Except Panic Str := do
  let adm ← state.admissible
  let items ←
    if 128 ≤ adm.charset.bytes.length then
      pure [utf8 "more of the quoted string or `[…]`/`\x7b…\x7d` literal (it is not closed)"]
    else do
      let comps ← state.completions
      pure (expectedItems adm.charset comps)
  return phrased adm.hardRequired items

/-- The error at a character: a fresh parser is fed what comes before it. -/
def errorAt {α : Type} (fresh : P α) (before : Str) (column : ℕ) (c : Str) :
    Except Panic ParseError :=
  match fresh.feedBytes before with
  | some reached => (renderExpected reached).map fun expected => ⟨column, some c, expected⟩
  | none => .ok ⟨column, some c, ascii "nothing (internal: prefix no longer viable)"⟩

/-- Feed the characters from `state` on; `before` is what has been fed. -/
def runFrom {α : Type} (fresh : P α) : Str → ℕ → P α → List Str →
    Except Panic (Except ParseError α)
  | _, column, state, [] =>
    match state.finish with
    | some value => .ok (.ok value)
    | none =>
      (renderExpected state).map fun expected => .error ⟨column + 1, none, expected⟩
  | before, column, state, c :: cs =>
    match state.feedBytes c with
    | some next => runFrom fresh (before ++ c) (column + 1) next cs
    | none => (errorAt fresh before (column + 1) c).map .error

/-- Drive a parser over a whole line. -/
def run {α : Type} (parser : P α) (line : Text) : Except Panic (Except ParseError α) :=
  runFrom parser [] 0 parser (Utf8.chars line.bytes)

/-- The value is the one that the parser reads from the line. -/
theorem runFrom_eq_ok {α : Type} (fresh : P α) (before : Str) (column : ℕ) (state : P α)
    (cs : List Str) (value : α) :
    runFrom fresh before column state cs = .ok (.ok value) ↔
      state.run cs.flatten .eof = some value := by
  induction cs generalizing before column state with
  | nil =>
    rw [runFrom]
    change _ ↔ state.finish = some value
    cases state.finish with
    | some v => simp
    | none => cases renderExpected state <;> simp [Except.map]
  | cons c cs ih =>
    rw [runFrom, List.flatten_cons]
    cases hc : state.feedBytes c with
    | some next => rw [Parser.run_append hc, ih]
    | none =>
      have hrun : state.run (c ++ cs.flatten) .eof = none := by
        rw [Parser.run, Parser.feedBytes_append, hc]
        rfl
      rw [hrun]
      cases errorAt fresh before (column + 1) c <;> simp [Except.map]

end Parse

def parseCommand [ApiDocs] (line : Text) : Except Panic (Except ParseError Command) :=
  Parse.run (commandLine .default) line

/-- Parse a program expression on its own. -/
def parseExpr [ApiDocs] (line : Text) : Except Panic (Except ParseError Expr) :=
  Parse.run (exprLine .default) line

end Eo9.Eosh
