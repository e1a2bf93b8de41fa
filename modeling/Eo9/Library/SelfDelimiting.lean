import Mathlib.Data.List.Basic
import Mathlib.Data.UInt
import Mathlib.Tactic.Common

/-!
# Encodings whose end shows

An encoding is self-delimiting when what it encodes, and where it ends, can be told
from the symbols from its start on. Such encodings can be written one after the
other, joined by separators, and closed by a symbol that none of them starts with.
-/

namespace Eo9.Library

variable {α β γ σ : Type*}

/-- Whatever text with `x` in front is also a text with another value in front, the
values and what follows them are the same. -/
def DelimitsAt (enc : α → List σ) (x : α) : Prop :=
  ∀ y s t, enc x ++ s = enc y ++ t → x = y ∧ s = t

/-- Every value is delimited by its encoding. -/
def SelfDelimiting (enc : α → List σ) : Prop := ∀ x, DelimitsAt enc x

/-- A text that is closed by a symbol it does not contain shows its end. -/
theorem append_cons_inj {xs ys s t : List σ} {c : σ} (hxs : c ∉ xs) (hys : c ∉ ys)
    (h : xs ++ c :: s = ys ++ c :: t) : xs = ys ∧ s = t := by
  induction xs generalizing ys with
  | nil =>
    cases ys with
    | nil => exact ⟨rfl, (List.cons.inj h).2⟩
    | cons y ys => exact absurd (List.cons.inj h).1 (List.ne_of_not_mem_cons hys)
  | cons x xs ih =>
    cases ys with
    | nil => exact absurd (List.cons.inj h).1.symm (List.ne_of_not_mem_cons hxs)
    | cons y ys =>
      obtain ⟨rfl, hrest⟩ := List.cons.inj h
      obtain ⟨rfl, hst⟩ := ih (List.not_mem_of_not_mem_cons hxs)
        (List.not_mem_of_not_mem_cons hys) hrest
      exact ⟨rfl, hst⟩

/-- A pair is delimited by the encodings of its parts. -/
theorem SelfDelimiting.pair {enc : α → List σ} {enc' : β → List σ} (h : SelfDelimiting enc)
    (h' : SelfDelimiting enc') : SelfDelimiting fun p : α × β => enc p.1 ++ enc' p.2 := by
  intro p q s t heq
  rw [List.append_assoc, List.append_assoc] at heq
  obtain ⟨hfst, hrest⟩ := h p.1 q.1 _ _ heq
  obtain ⟨hsnd, hst⟩ := h' p.2 q.2 s t hrest
  exact ⟨Prod.ext hfst hsnd, hst⟩

/-- As many encodings one after the other show their end. -/
theorem SelfDelimiting.counted {enc : α → List σ} (h : SelfDelimiting enc) {xs ys : List α}
    (hlen : xs.length = ys.length) {s t : List σ}
    (heq : xs.flatMap enc ++ s = ys.flatMap enc ++ t) : xs = ys ∧ s = t := by
  induction xs generalizing ys with
  | nil =>
    obtain rfl := List.length_eq_zero_iff.mp hlen.symm
    exact ⟨rfl, heq⟩
  | cons x xs ih =>
    cases ys with
    | nil => cases hlen
    | cons y ys =>
      rw [List.flatMap_cons, List.flatMap_cons, List.append_assoc, List.append_assoc] at heq
      obtain ⟨rfl, hrest⟩ := h x y _ _ heq
      obtain ⟨rfl, hst⟩ := ih (Nat.succ.inj hlen) hrest
      exact ⟨rfl, hst⟩

/-- Of two sequences of encodings in front of one text, one starts with the other. -/
theorem SelfDelimiting.comparable {enc : α → List σ} (h : SelfDelimiting enc) {xs ys : List α}
    {s t : List σ} (heq : xs.flatMap enc ++ s = ys.flatMap enc ++ t) : xs <+: ys ∨ ys <+: xs := by
  induction xs generalizing ys with
  | nil => exact .inl List.nil_prefix
  | cons x xs ih =>
    cases ys with
    | nil => exact .inr List.nil_prefix
    | cons y ys =>
      rw [List.flatMap_cons, List.flatMap_cons, List.append_assoc, List.append_assoc] at heq
      obtain ⟨rfl, hrest⟩ := h x y _ _ heq
      rw [List.prefix_cons_inj, List.prefix_cons_inj]
      exact ih hrest

/-- The texts with `sep` between them. -/
def joined (sep : σ) : List (List σ) → List σ
  | [] => []
  | [x] => x
  | x :: y :: rest => x ++ sep :: joined sep (y :: rest)

@[simp] theorem joined_nil (sep : σ) : joined sep [] = [] := rfl

@[simp] theorem joined_singleton (sep : σ) (x : List σ) : joined sep [x] = x := rfl

@[simp] theorem joined_cons_cons (sep : σ) (x y : List σ) (rest : List (List σ)) :
    joined sep (x :: y :: rest) = x ++ sep :: joined sep (y :: rest) := rfl

section Joined

variable {enc : α → List σ} {sep close : σ}

/-- The rest of a list, from the end of its first item on. -/
def continued (sep close : σ) (enc : α → List σ) : List α → List σ → List σ
  | [], s => close :: s
  | x :: rest, s => sep :: (joined sep ((x :: rest).map enc) ++ close :: s)

theorem joined_cons (x : α) (rest : List α) (s : List σ) :
    joined sep ((x :: rest).map enc) ++ close :: s = enc x ++ continued sep close enc rest s := by
  cases rest with
  | nil => rfl
  | cons y rest => simp [continued]

/-- A joined list that is closed shows its items and its end, when no item starts
with the closing symbol. -/
theorem joined_delimits (hne : sep ≠ close) (hopen : ∀ x, enc x ≠ [] ∧ (enc x).head? ≠ some close)
    {xs ys : List α} (hxs : ∀ x ∈ xs, DelimitsAt enc x) {s t : List σ}
    (h : joined sep (xs.map enc) ++ close :: s = joined sep (ys.map enc) ++ close :: t) :
    xs = ys ∧ s = t := by
  have hnot : ∀ x s t, enc x ++ s ≠ close :: t := by
    intro x s t heq
    obtain ⟨hnil, hhead⟩ := hopen x
    cases hx : enc x with
    | nil => exact hnil hx
    | cons c rest =>
      rw [hx, List.cons_append, List.cons.injEq] at heq
      rw [hx, heq.1] at hhead
      exact hhead rfl
  induction xs generalizing ys with
  | nil =>
    cases ys with
    | nil => exact ⟨rfl, List.cons.inj h |>.2⟩
    | cons y ys =>
      rw [joined_cons] at h
      exact absurd h.symm (hnot y _ _)
  | cons x xs ih =>
    cases ys with
    | nil =>
      rw [joined_cons] at h
      exact absurd h (hnot x _ _)
    | cons y ys =>
      rw [joined_cons, joined_cons] at h
      obtain ⟨rfl, hrest⟩ := hxs x List.mem_cons_self y _ _ h
      have hall : ∀ x ∈ xs, DelimitsAt enc x := fun x hx => hxs x (List.mem_cons_of_mem _ hx)
      cases xs with
      | nil =>
        cases ys with
        | nil => exact ⟨rfl, (List.cons.inj hrest).2⟩
        | cons y ys => exact absurd (List.cons.inj hrest).1.symm hne
      | cons x' xs =>
        cases ys with
        | nil => exact absurd (List.cons.inj hrest).1 hne
        | cons y ys =>
          obtain ⟨heq, hst⟩ := ih hall (List.cons.inj hrest).2
          rw [heq]
          exact ⟨rfl, hst⟩

end Joined

def charByte (c : Char) : UInt8 := UInt8.ofNat c.toNat

def decimal (n : ℕ) : List UInt8 := (Nat.toDigits 10 n).map charByte

theorem charByte_of_isDigit {c : Char} (h : c.isDigit = true) :
    Char.ofNat (charByte c).toNat = c := by
  have hlt : c.toNat < 256 := by
    simp only [Char.isDigit, Bool.and_eq_true, decide_eq_true_eq] at h
    have h9 : c.toNat ≤ 57 := h.2
    omega
  rw [charByte, UInt8.toNat_ofNat', Nat.mod_eq_of_lt hlt, Char.ofNat_toNat]

theorem decimal_injective : Function.Injective decimal := by
  intro m n h
  have hdigits : ∀ k, (decimal k).map (fun b => Char.ofNat b.toNat) = Nat.toDigits 10 k := by
    intro k
    rw [decimal, List.map_map]
    calc (Nat.toDigits 10 k).map ((fun b => Char.ofNat b.toNat) ∘ charByte)
        = (Nat.toDigits 10 k).map id := List.map_congr_left fun c hc =>
          charByte_of_isDigit (Nat.isDigit_of_mem_toDigits (by decide) (by decide) hc)
      _ = Nat.toDigits 10 k := List.map_id _
  have heq := congrArg (List.map fun b : UInt8 => Char.ofNat b.toNat) h
  rw [hdigits, hdigits] at heq
  rw [← @Nat.ofDigitChars_ten_toDigits m, ← @Nat.ofDigitChars_ten_toDigits n, heq]

/-- The bytes of a number are digits. -/
theorem mem_decimal {n : ℕ} {b : UInt8} (h : b ∈ decimal n) : 48 ≤ b ∧ b ≤ 57 := by
  obtain ⟨c, hc, rfl⟩ := List.mem_map.mp h
  have hdigit : c.isDigit = true := Nat.isDigit_of_mem_toDigits (by decide) (by decide) hc
  simp only [Char.isDigit, Bool.and_eq_true, decide_eq_true_eq] at hdigit
  have h0 : 48 ≤ c.toNat := hdigit.1
  have h9 : c.toNat ≤ 57 := hdigit.2
  rw [UInt8.le_iff_toNat_le, UInt8.le_iff_toNat_le, charByte, UInt8.toNat_ofNat',
    Nat.mod_eq_of_lt (by omega)]
  exact ⟨h0, h9⟩

theorem decimal_ne_nil (n : ℕ) : decimal n ≠ [] := by
  rw [decimal, Ne, List.map_eq_nil_iff]
  exact Nat.toDigits_ne_nil

/-- A number that is closed by a symbol that is no digit. -/
theorem decimal_delimits {m n : ℕ} {c : UInt8} (hc : ¬ (48 ≤ c ∧ c ≤ 57)) {s t : List UInt8}
    (h : decimal m ++ c :: s = decimal n ++ c :: t) : m = n ∧ s = t := by
  obtain ⟨heq, hst⟩ := append_cons_inj (fun hm => hc (mem_decimal hm))
    (fun hn => hc (mem_decimal hn)) h
  exact ⟨decimal_injective heq, hst⟩

def netstring (text : List UInt8) : List UInt8 := decimal text.length ++ charByte ':' :: text

theorem netstring_selfDelimiting : SelfDelimiting netstring := by
  intro x y s t h
  simp only [netstring, List.append_assoc, List.cons_append] at h
  obtain ⟨hlen, hrest⟩ := decimal_delimits (by decide) h
  exact List.append_inj hrest hlen

theorem netstring_ne_nil (text : List UInt8) : netstring text ≠ [] := by
  simp [netstring]

/-- A netstring starts with a digit. -/
theorem netstring_head {text : List UInt8} {c : UInt8} (h : (netstring text).head? = some c) :
    48 ≤ c ∧ c ≤ 57 := by
  rw [netstring, List.head?_append_of_ne_nil _ (decimal_ne_nil _)] at h
  exact mem_decimal (List.mem_of_head? h)

end Eo9.Library
