import Mathlib.Data.UInt
import Mathlib.Tactic.Common
import Eo9.Library.Trimming

/-!
# Strings

The functions of the standard library's strings that the store's text formats are read and
written with. A string is the list of its characters.
-/

namespace Eo9.Store

open Eo9.Library

abbrev Text := List Char

def text (s : String) : Text := s.toList

def isWhitespace (c : Char) : Bool :=
  let n := c.toNat
  (9 ≤ n && n ≤ 13) || n = 0x20 || n = 0x85 || n = 0xA0 || n = 0x1680 ||
    (0x2000 ≤ n && n ≤ 0x200A) || n = 0x2028 || n = 0x2029 || n = 0x202F || n = 0x205F || n = 0x3000

def utf8 (t : Text) : List UInt8 := t.flatMap String.utf8EncodeChar

theorem utf8_injective : Function.Injective utf8 := by
  intro s t h
  have hencode : s.utf8Encode = t.utf8Encode := congrArg List.toByteArray h
  have hs := List.utf8Decode?_utf8Encode (l := s)
  rw [hencode, List.utf8Decode?_utf8Encode] at hs
  exact (List.toArray_inj (Option.some.inj hs)).symm

/-- A line without the `\r` at its end. -/
def stripReturn (line : Text) : Text :=
  if line.getLast? = some '\r' then line.dropLast else line

/-- `str::lines`, behind the characters of a line that has been begun -/
def linesFrom : Text → Text → List Text
  | [], [] => []
  | line, [] => [line]
  | line, c :: rest =>
    if c = '\n' then stripReturn line :: linesFrom [] rest else linesFrom (line ++ [c]) rest

/-- `str::lines` -/
def lines (t : Text) : List Text := linesFrom [] t

theorem linesFrom_append {line : Text} (hline : '\n' ∉ line) (begun rest : Text) :
    linesFrom begun (line ++ '\n' :: rest) = stripReturn (begun ++ line) :: lines rest := by
  induction line generalizing begun with
  | nil => rw [List.nil_append, linesFrom, if_pos rfl, List.append_nil, lines]
  | cons c line ih =>
    have hc : c ≠ '\n' := fun h => hline (h ▸ List.mem_cons_self)
    rw [List.cons_append, linesFrom, if_neg hc, ih (fun h => hline (List.mem_cons_of_mem _ h)),
      List.append_assoc]
    rfl

/-- A line that is ended by a line feed. -/
theorem lines_append {line : Text} (hline : '\n' ∉ line) (hreturn : '\r' ∉ line) (rest : Text) :
    lines (line ++ '\n' :: rest) = line :: lines rest := by
  have hstrip : stripReturn line = line := by
    apply if_neg
    intro h
    exact hreturn (List.mem_of_mem_getLast? h)
  rw [lines, linesFrom_append hline, List.nil_append, hstrip]

/-- `u64`'s `Display` -/
def decimal (n : UInt64) : Text := Nat.toDigits 10 n.toNat

/-- `ParseIntError` -/
inductive IntError where
  | empty
  | invalidDigit
  | posOverflow

def digit (c : Char) : Option ℕ :=
  if c.isDigit then some (c.toNat - '0'.toNat) else none

/-- The loop over the digits of a number. -/
def parseDigits : ℕ → Text → Except IntError ℕ
  | n, [] => .ok n
  | n, c :: rest =>
    match digit c with
    | none => .error .invalidDigit
    | some d => if n * 10 + d < 2 ^ 64 then parseDigits (n * 10 + d) rest else .error .posOverflow

/-- `str::parse::<u64>` -/
def parseU64 (t : Text) : Except IntError UInt64 :=
  match t with
  | [] => .error .empty
  | ['+'] => .error .invalidDigit
  | '+' :: digits => (parseDigits 0 digits).map UInt64.ofNat
  | digits => (parseDigits 0 digits).map UInt64.ofNat

theorem le_ofDigitChars (l : Text) (n : ℕ) : n ≤ Nat.ofDigitChars 10 l n := by
  induction l generalizing n with
  | nil => exact Nat.le_refl n
  | cons c l ih =>
    rw [Nat.ofDigitChars_cons]
    have hle := ih (10 * n + (c.toNat - '0'.toNat))
    omega

/-- Digits whose number fits are read as that number. -/
theorem parseDigits_eq {l : Text} {n : ℕ} (hdigits : ∀ c ∈ l, c.isDigit = true)
    (hfits : Nat.ofDigitChars 10 l n < 2 ^ 64) :
    parseDigits n l = .ok (Nat.ofDigitChars 10 l n) := by
  induction l generalizing n with
  | nil => rfl
  | cons c l ih =>
    have hc : digit c = some (c.toNat - '0'.toNat) := if_pos (hdigits c List.mem_cons_self)
    have hcons : Nat.ofDigitChars 10 (c :: l) n =
        Nat.ofDigitChars 10 l (n * 10 + (c.toNat - '0'.toNat)) := by
      rw [Nat.ofDigitChars_cons, Nat.mul_comm]
    rw [hcons] at hfits ⊢
    have hlt : n * 10 + (c.toNat - '0'.toNat) < 2 ^ 64 :=
      (le_ofDigitChars l _).trans_lt hfits
    rw [parseDigits, hc]
    dsimp only
    rw [if_pos hlt]
    exact ih (fun c hc => hdigits c (List.mem_cons_of_mem _ hc)) hfits

theorem isDigit_of_mem_decimal {n : UInt64} {c : Char} (h : c ∈ decimal n) : c.isDigit = true :=
  Nat.isDigit_of_mem_toDigits (by decide) (by decide) h

theorem decimal_ne_nil (n : UInt64) : decimal n ≠ [] := Nat.toDigits_ne_nil

/-- A number is read back. -/
theorem parseU64_decimal (n : UInt64) : parseU64 (decimal n) = .ok n := by
  have hvalue : Nat.ofDigitChars 10 (decimal n) 0 = n.toNat := Nat.ofDigitChars_ten_toDigits
  have hparse : parseDigits 0 (decimal n) = .ok n.toNat := by
    rw [parseDigits_eq (fun c hc => isDigit_of_mem_decimal hc) (by rw [hvalue]; exact n.toNat_lt),
      hvalue]
  unfold parseU64
  split
  · next hnil => exact absurd hnil (decimal_ne_nil n)
  · next hplus =>
    have hdigit := isDigit_of_mem_decimal (n := n) (c := '+') (by rw [hplus]; decide)
    cases hdigit
  · next digits _ hplus =>
    have hdigit := isDigit_of_mem_decimal (n := n) (c := '+')
      (by rw [hplus]; exact List.mem_cons_self)
    cases hdigit
  · rw [hparse]
    exact congrArg Except.ok (UInt64.ofNat_toNat)

/-!
## Content hashes

The digests that identify the objects of the store, and their hexadecimal text.
-/

/-- The digest of a store object. -/
structure ObjectHash where
  bytes : List UInt8
  length_eq : bytes.length = 32

/-- Why a text is no digest. -/
inductive HashError where
  | length (found : ℕ)
  | character (c : UInt8)
  deriving DecidableEq

/-- A lower-case hexadecimal digit. -/
def hexChar (n : ℕ) : Char := Char.ofNat (if n < 10 then 48 + n else 87 + n)

def encodeHex (bytes : List UInt8) : Text :=
  bytes.flatMap fun b => [hexChar (b.toNat / 16), hexChar (b.toNat % 16)]

def hexValue (c : UInt8) : Except HashError ℕ :=
  if 48 ≤ c ∧ c ≤ 57 then .ok (c.toNat - 48)
  else if 97 ≤ c ∧ c ≤ 102 then .ok (c.toNat - 97 + 10)
  else .error (.character c)

/-- The bytes of pairs of digits. -/
def decodePairs : List UInt8 → Except HashError (List UInt8)
  | hi :: lo :: rest => do
      let hi ← hexValue hi
      let lo ← hexValue lo
      let bytes ← decodePairs rest
      .ok (UInt8.ofNat (hi * 16 + lo) :: bytes)
  | _ => .ok []

theorem length_decodePairs {input bytes : List UInt8} (h : decodePairs input = .ok bytes) :
    bytes.length = input.length / 2 := by
  induction input using decodePairs.induct generalizing bytes with
  | case1 hi lo rest ih =>
    rw [decodePairs] at h
    cases hhi : hexValue hi with
    | error e =>
      rw [hhi] at h
      cases h
    | ok hi' =>
      cases hlo : hexValue lo with
      | error e =>
        rw [hhi, hlo] at h
        cases h
      | ok lo' =>
        cases hrest : decodePairs rest with
        | error e =>
          rw [hhi, hlo, hrest] at h
          cases h
        | ok tail =>
          rw [hhi, hlo, hrest] at h
          obtain rfl := Except.ok.inj h
          rw [List.length_cons, ih hrest, List.length_cons, List.length_cons]
          omega
  | case2 input hshort =>
    cases input with
    | nil =>
      obtain rfl := Except.ok.inj h
      rfl
    | cons b input =>
      cases input with
      | nil =>
        obtain rfl := Except.ok.inj h
        simp
      | cons c input => exact absurd rfl (hshort b c input)

def decodeHex (input : Text) : Except HashError ObjectHash :=
  if hlen : (utf8 input).length = 64 then
    match h : decodePairs (utf8 input) with
    | .ok bytes => .ok ⟨bytes, by rw [length_decodePairs h, hlen]⟩
    | .error e => .error e
  else .error (.length (utf8 input).length)

def ObjectHash.toHex (hash : ObjectHash) : Text := encodeHex hash.bytes

def ObjectHash.fromHex (input : Text) : Except HashError ObjectHash := decodeHex input

/-- The byte of a hexadecimal digit. -/
def hexByte (n : ℕ) : UInt8 := UInt8.ofNat (if n < 10 then 48 + n else 87 + n)

theorem utf8_hexChar {n : ℕ} (h : n < 16) : String.utf8EncodeChar (hexChar n) = [hexByte n] := by
  have hall : ∀ n < 16, String.utf8EncodeChar (hexChar n) = [hexByte n] := by decide
  exact hall n h

theorem hexValue_hexByte {n : ℕ} (h : n < 16) : hexValue (hexByte n) = .ok n := by
  have hall : ∀ n < 16, hexValue (hexByte n) = .ok n := by decide
  exact hall n h

theorem utf8_encodeHex (bytes : List UInt8) : utf8 (encodeHex bytes) =
    bytes.flatMap fun b => [hexByte (b.toNat / 16), hexByte (b.toNat % 16)] := by
  induction bytes with
  | nil => rfl
  | cons b bytes ih =>
    have hb := b.toNat_lt
    have hcons : encodeHex (b :: bytes) =
        hexChar (b.toNat / 16) :: hexChar (b.toNat % 16) :: encodeHex bytes := rfl
    rw [utf8] at ih ⊢
    rw [hcons, List.flatMap_cons, List.flatMap_cons, ih, utf8_hexChar (by omega),
      utf8_hexChar (by omega)]
    rfl

theorem decodePairs_encodeHex (bytes : List UInt8) :
    decodePairs (bytes.flatMap fun b => [hexByte (b.toNat / 16), hexByte (b.toNat % 16)]) =
      .ok bytes := by
  induction bytes with
  | nil => rfl
  | cons b bytes ih =>
    have hb := b.toNat_lt
    have hvalue : b.toNat / 16 * 16 + b.toNat % 16 = b.toNat := Nat.div_add_mod' _ _
    simp only [List.flatMap_cons, List.cons_append, List.nil_append, decodePairs,
      hexValue_hexByte (show b.toNat / 16 < 16 by omega),
      hexValue_hexByte (Nat.mod_lt b.toNat (show 0 < 16 by decide)), ih]
    change Except.ok (UInt8.ofNat (b.toNat / 16 * 16 + b.toNat % 16) :: bytes) = _
    rw [hvalue, UInt8.ofNat_toNat]

/-- A digest is read back. -/
theorem fromHex_toHex (hash : ObjectHash) : ObjectHash.fromHex hash.toHex = .ok hash := by
  have hpairs : decodePairs (utf8 hash.toHex) = .ok hash.bytes := by
    rw [ObjectHash.toHex, utf8_encodeHex, decodePairs_encodeHex]
  have hlen : (utf8 hash.toHex).length = 64 := by
    rw [ObjectHash.toHex, utf8_encodeHex, List.length_flatMap]
    simp [hash.length_eq]
  rw [ObjectHash.fromHex, decodeHex, dif_pos hlen]
  split
  · next bytes h =>
    rw [hpairs] at h
    obtain rfl := Except.ok.inj h
    rfl
  · next e h =>
    rw [hpairs] at h
    cases h

/-- The text of a digest has no blanks. -/
theorem not_isWhitespace_of_mem_toHex {hash : ObjectHash} {c : Char} (h : c ∈ hash.toHex) :
    ¬ isWhitespace c = true := by
  have hall : ∀ n < 16, ¬ isWhitespace (hexChar n) = true := by decide
  obtain ⟨b, -, hc⟩ := List.mem_flatMap.mp h
  have hb := b.toNat_lt
  rcases List.mem_cons.mp hc with rfl | hc
  · exact hall _ (by omega)
  · rw [List.mem_singleton.mp hc]
    exact hall _ (by omega)

end Eo9.Store
