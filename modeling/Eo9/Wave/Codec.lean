import Eo9.Library.Numeral
import Eo9.Store.Hash

/-!
# The kernel's WAVE codec

`wasm/wave.rs`: text to a value of a given type, and a value to text. A value is one of its type,
so what is rendered is well typed. Floats are read and written by the standard library, and are
a parameter. The types that the kernel does not parse are only named.
-/

namespace Eo9.Wave

open Eo9.Library Eo9.Store

inductive Width where
  | w8
  | w16
  | w32
  | w64

def Width.bits : Width → Nat
  | .w8 => 8
  | .w16 => 16
  | .w32 => 32
  | .w64 => 64

structure IntTy where
  signed : Bool
  width : Width

/-- The largest value. -/
def IntTy.most (k : IntTy) : Nat := 2 ^ (k.width.bits - k.signed.toNat) - 1

/-- The smallest value, negated. -/
def IntTy.least (k : IntTy) : Nat := if k.signed then 2 ^ (k.width.bits - 1) else 0

abbrev IntTy.Val (k : IntTy) : Type := { n : Int // -k.least ≤ n ∧ n ≤ k.most }

/-- The name of a case: letters, digits and dashes. -/
abbrev Label : Type := { name : Text // name ≠ [] ∧ ∀ c ∈ name, c.isAlphanum = true ∨ c = '-' }

inductive Ty where
  | bool
  | int (k : IntTy)
  | float (double : Bool)
  | char
  | string
  | enum (cases : List Label)
  | option (ty : Ty)
  | list (ty : Ty)
  | other (name : String)

/-- Floating-point numbers and their decimal notation. -/
class Floats (F : Type) where
  parse : (double : Bool) → Text → Except String F
  render : F → Text

variable (F : Type)

def Ty.Val : Ty → Type
  | bool => Bool
  | int k => k.Val
  | float _ => F
  | char => Char
  | string => Text
  | enum cases => { name : Label // name ∈ cases }
  | option ty => Option ty.Val
  | list ty => List ty.Val
  | other _ => Empty

variable {F}

def typeText : Ty → String
  | .bool => "bool"
  | .int k => (if k.signed then "s" else "u") ++ toString k.width.bits
  | .float double => if double then "f64" else "f32"
  | .char => "char"
  | .string => "string"
  | .enum cases =>
    "enum \x7b " ++ ", ".intercalate (cases.map fun name => .ofList name.1) ++ " \x7d"
  | .option ty => "option<" ++ typeText ty ++ ">"
  | .list ty => "list<" ++ typeText ty ++ ">"
  | .other name => name

/-- The digits of a number, behind the value of those that are read. -/
def magnitude (limit : Nat) (overflow : String) :
    { n : Nat // n ≤ limit } → Text → Except String { n : Nat // n ≤ limit }
  | n, [] => .ok n
  | n, c :: digits =>
    match digitValue c with
    | none => .error "invalid digit found in string"
    | some d =>
      if h : n.1 * 10 + d ≤ limit then magnitude limit overflow ⟨_, h⟩ digits
      else .error overflow

def positive (k : IntTy) (digits : Text) : Except String k.Val :=
  (magnitude k.most "number too large to fit in target type" ⟨0, Nat.zero_le _⟩ digits).map
    fun n => ⟨n.1, by omega, by exact_mod_cast n.2⟩

def negative (k : IntTy) (digits : Text) : Except String k.Val :=
  (magnitude k.least "number too small to fit in target type" ⟨0, Nat.zero_le _⟩ digits).map
    fun n => ⟨-n.1, by omega, by omega⟩

/-- `str::parse` of an integer type. -/
def int (k : IntTy) : Text → Except String k.Val
  | [] => .error "cannot parse integer from empty string"
  | c :: digits =>
    if digits = [] ∧ (c = '+' ∨ c = '-') then .error "invalid digit found in string"
    else if c = '+' then positive k digits
    else if c = '-' ∧ k.signed = true then negative k digits
    else positive k (c :: digits)

/-- What is between a prefix and a last character. -/
def between (first : Text) (last : Char) (t : Text) : Option Text :=
  if first.isPrefixOf t then
    let rest := t.drop first.length
    if rest.getLast? = some last then some rest.dropLast else none
  else none

def escapeOf (c : Char) : Option Char :=
  if c = '"' ∨ c = '\\' ∨ c = '\'' then some c
  else if c = 'n' then some '\n'
  else if c = 't' then some '\t'
  else if c = 'r' then some '\r'
  else none

def unescape : Text → Except String Text
  | [] => .ok []
  | c :: rest =>
    if c ≠ '\\' then (unescape rest).map (c :: ·)
    else
      match rest with
      | [] => .error "dangling `\\` at the end of the value"
      | e :: rest =>
        match escapeOf e with
        | some d => (unescape rest).map (d :: ·)
        | none => .error ("unsupported escape `\\" ++ .ofList [e] ++ "`")

def parseChar (t : Text) : Except String Char :=
  match unescape ((between ['\''] '\'' t).getD t) with
  | .ok [c] => .ok c
  | .ok _ => .error "expected exactly one character"
  | .error e => .error e

def parseString (t : Text) : Except String Text :=
  match between ['"'] '"' t with
  | some inner => unescape inner
  | none => .error "expected a double-quoted WAVE string"

def parseEnum (cases : List Label) (t : Text) : Except String { name // name ∈ cases } :=
  match h : cases.find? fun name => name.1 = t with
  | some name => .ok ⟨name, List.mem_of_find?_eq_some h⟩
  | none => .error ("`" ++ .ofList t ++ "` is not a case of the expected enum")

/-- Where the splitter is: how deep in brackets, in a string, and behind a backslash there. -/
structure Scan where
  depth : Nat := 0
  inString : Bool := false
  escaped : Bool := false

/-- A comma between items. -/
def Scan.separates (s : Scan) (c : Char) : Bool := c == ',' && !s.inString && s.depth == 0

def isOpening (c : Char) : Bool := c = '[' || c = '(' || c = '{'

def isClosing (c : Char) : Bool := c = ']' || c = ')' || c = '}'

/-- The splitter behind one more character, unless a bracket closes that none opened. -/
def Scan.next (s : Scan) (c : Char) : Option Scan :=
  if s.inString then
    if s.escaped then some { s with escaped := false }
    else if c = '\\' then some { s with escaped := true }
    else some { s with inString := c ≠ '"' }
  else if c = '"' then some { s with inString := true }
  else if isOpening c then some { s with depth := s.depth + 1 }
  else if isClosing c then if s.depth = 0 then none else some { s with depth := s.depth - 1 }
  else some s

def splitLoop (s : Scan) (current : Text) (items : List Text) : Text → Except String (List Text)
  | [] =>
    if s.inString then .error "unterminated string in the list value"
    else if s.depth ≠ 0 then .error "unbalanced brackets in the list value"
    else if trim isWhitespace current ≠ [] then .ok (items ++ [trim isWhitespace current])
    else if items ≠ [] then .error "trailing comma in the list value"
    else .ok items
  | c :: rest =>
    if s.separates c then splitLoop s [] (items ++ [trim isWhitespace current]) rest
    else
      match s.next c with
      | none => .error "unbalanced brackets in the list value"
      | some s => splitLoop s (current ++ [c]) items rest

def splitTopLevel (t : Text) : Except String (List Text) := splitLoop {} [] [] t

variable [Floats F]

def parse : (ty : Ty) → Text → Except String (ty.Val F)
  | .bool, t =>
    if trim isWhitespace t = text "true" then .ok true
    else if trim isWhitespace t = text "false" then .ok false
    else .error "expected `true` or `false`"
  | .int k, t => int k (trim isWhitespace t)
  | .float double, t => (Floats.parse double (trim isWhitespace t) : Except String F)
  | .char, t => parseChar (trim isWhitespace t)
  | .string, t => parseString (trim isWhitespace t)
  | .enum cases, t => parseEnum cases (trim isWhitespace t)
  | .option ty, t =>
    if trim isWhitespace t = text "none" then .ok none
    else
      match between (text "some(") ')' (trim isWhitespace t) with
      | some inner => (parse ty inner).map some
      | none => (parse ty (trim isWhitespace t)).map some
  | .list ty, t =>
    match between ['['] ']' (trim isWhitespace t) with
    | some inner => do (← splitTopLevel inner).mapM (parse ty)
    | none => .error "expected a WAVE list like `[…]`"
  | .other name, _ => .error ("the kernel only parses scalar, enum, option, and list arguments " ++
      "so far (got a " ++ name ++ " parameter)")

/-- The escape of a character between quotes of this kind. -/
def escape (quote c : Char) : Text :=
  if c = quote then ['\\', quote]
  else if c = '\\' then ['\\', '\\']
  else if c = '\n' then ['\\', 'n']
  else if c = '\t' then ['\\', 't']
  else if c = '\r' then ['\\', 'r']
  else [c]

def escapeChar (c : Char) : Text := escape '\'' c

def quote (t : Text) : Text := '"' :: t.flatMap (escape '"') ++ ['"']

def intText (n : Int) : Text :=
  if n < 0 then '-' :: Nat.toDigits 10 n.natAbs else Nat.toDigits 10 n.natAbs

def render : (ty : Ty) → ty.Val F → Text
  | .bool, true => text "true"
  | .bool, false => text "false"
  | .int _, n => intText n.1
  | .float _, x => Floats.render (show F from x)
  | .char, c => '\'' :: escapeChar c ++ ['\'']
  | .string, t => quote t
  | .enum _, name => name.1.1
  | .option _, none => text "none"
  | .option ty, some v => text "some(" ++ render ty v ++ [')']
  | .list ty, items => '[' :: (text ", ").intercalate (items.map (render ty)) ++ [']']

end Eo9.Wave
