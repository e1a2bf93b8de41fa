import Mathlib.Tactic.Common
import Mathlib.Data.Nat.Notation

/-!
# Decimal numerals

Reading a numeral whose value stays below a bound. The numeral that a number is written as is
read back.
-/

namespace Eo9.Library

variable {bound n m : ℕ} {digits : List Char}

def digitValue (c : Char) : Option ℕ :=
  if c.isDigit then some (c.toNat - '0'.toNat) else none

/-- The loop over the digits of a numeral, behind the value of those that are read. -/
def readDigits (bound : ℕ) : ℕ → List Char → Option ℕ
  | n, [] => some n
  | n, c :: digits =>
    match digitValue c with
    | none => none
    | some d => if n * 10 + d < bound then readDigits bound (n * 10 + d) digits else none

/-- A numeral, with or without a plus sign. -/
def readNumeral (bound : ℕ) : List Char → Option ℕ
  | [] => none
  | c :: digits =>
    if c = '+' then
      if digits = [] then none else readDigits bound 0 digits
    else readDigits bound 0 (c :: digits)

theorem le_ofDigitChars_of (digits : List Char) (n : ℕ) : n ≤ Nat.ofDigitChars 10 digits n := by
  induction digits generalizing n with
  | nil => exact Nat.le_refl n
  | cons c digits ih =>
    calc n ≤ 10 * n + (c.toNat - '0'.toNat) := by omega
      _ ≤ Nat.ofDigitChars 10 digits (10 * n + (c.toNat - '0'.toNat)) := ih _
      _ = Nat.ofDigitChars 10 (c :: digits) n := Nat.ofDigitChars_cons.symm

/-- Digits whose number is below the bound are read as that number. -/
theorem readDigits_eq (hdigits : ∀ c ∈ digits, c.isDigit = true)
    (hfits : Nat.ofDigitChars 10 digits n < bound) :
    readDigits bound n digits = some (Nat.ofDigitChars 10 digits n) := by
  induction digits generalizing n with
  | nil => rfl
  | cons c digits ih =>
    have hc : digitValue c = some (c.toNat - '0'.toNat) :=
      if_pos (hdigits c List.mem_cons_self)
    rw [Nat.ofDigitChars_cons, Nat.mul_comm] at hfits ⊢
    have hlt : n * 10 + (c.toNat - '0'.toNat) < bound :=
      Nat.lt_of_le_of_lt (le_ofDigitChars_of digits _) hfits
    rw [readDigits, hc]
    dsimp only
    rw [if_pos hlt]
    exact ih (fun c hc => hdigits c (List.mem_cons_of_mem _ hc)) hfits

/-- A number is read back from its numeral. -/
theorem readNumeral_toDigits (h : n < bound) : readNumeral bound (Nat.toDigits 10 n) = some n := by
  have hdigits : ∀ c ∈ Nat.toDigits 10 n, c.isDigit = true :=
    fun c hc => Nat.isDigit_of_mem_toDigits (by decide) (by decide) hc
  have hvalue : Nat.ofDigitChars 10 (Nat.toDigits 10 n) 0 = n := Nat.ofDigitChars_ten_toDigits
  have hread : readDigits bound 0 (Nat.toDigits 10 n) = some n := by
    rw [readDigits_eq hdigits (by rwa [hvalue]), hvalue]
  cases hlist : Nat.toDigits 10 n with
  | nil => exact absurd hlist Nat.toDigits_ne_nil
  | cons c digits =>
    rw [hlist] at hdigits hread
    have hplus : c ≠ '+' := by
      intro hc
      have hdigit := hdigits c List.mem_cons_self
      rw [hc] at hdigit
      cases hdigit
    rw [readNumeral, if_neg hplus, hread]

end Eo9.Library
