import Mathlib.Data.List.Basic
import Mathlib.Tactic.Common

/-!
# UTF-8

A byte string is read one byte at a time. Between bytes the state is the part
of a character that has been read so far and the range of bytes that may
continue it. Strict reading stops at the first byte that cannot continue;
lossy reading puts U+FFFD in the place of each maximal broken part.
-/

namespace Eo9.Library.Utf8

/-- A character that has been read in part. -/
structure Partial where
  bytes : List UInt8
  need : ℕ
  lo : UInt8
  hi : UInt8
  deriving DecidableEq

/-- How many bytes follow a lead byte, and the range of the next one. -/
def lead (b : UInt8) : Option Partial :=
  if 0xC2 ≤ b ∧ b ≤ 0xDF then some ⟨[b], 1, 0x80, 0xBF⟩
  else if b = 0xE0 then some ⟨[b], 2, 0xA0, 0xBF⟩
  else if b = 0xED then some ⟨[b], 2, 0x80, 0x9F⟩
  else if 0xE1 ≤ b ∧ b ≤ 0xEF then some ⟨[b], 2, 0x80, 0xBF⟩
  else if b = 0xF0 then some ⟨[b], 3, 0x90, 0xBF⟩
  else if 0xF1 ≤ b ∧ b ≤ 0xF3 then some ⟨[b], 3, 0x80, 0xBF⟩
  else if b = 0xF4 then some ⟨[b], 3, 0x80, 0x8F⟩
  else none

/-- Read one byte; `none` when the state cannot continue with it. The inner
option of the result is `none` between characters. -/
def push : Option Partial → UInt8 → Option (Option Partial)
  | none, b => if b < 0x80 then some none else (lead b).map some
  | some p, b =>
    if p.lo ≤ b ∧ b ≤ p.hi then
      if p.need = 1 then some none
      else some (some ⟨p.bytes ++ [b], p.need - 1, 0x80, 0xBF⟩)
    else none

/-- Strict reading. -/
def scan (s : Option Partial) : List UInt8 → Option (Option Partial)
  | [] => some s
  | b :: bs => (push s b).bind fun s' => scan s' bs

/-- Well-formed UTF-8. -/
def Valid (bs : List UInt8) : Prop := scan none bs = some none

instance (bs : List UInt8) : Decidable (Valid bs) := inferInstanceAs (Decidable (_ = _))

/-- The bytes read but not yet given out. -/
def held : Option Partial → List UInt8
  | none => []
  | some p => p.bytes

/-- The bytes of U+FFFD. -/
def replacement : List UInt8 := [0xEF, 0xBF, 0xBD]

def lossyFrom (s : Option Partial) : List UInt8 → List UInt8
  | [] => if s = none then [] else replacement
  | b :: bs =>
    match push s b with
    | some none => held s ++ b :: lossyFrom none bs
    | some (some p) => lossyFrom (some p) bs
    | none =>
      replacement ++
        if s = none then lossyFrom none bs
        else match push none b with
          | some none => b :: lossyFrom none bs
          | some (some p) => lossyFrom (some p) bs
          | none => replacement ++ lossyFrom none bs

/-- A byte string as text, with every broken part replaced. -/
def lossy (bs : List UInt8) : List UInt8 := lossyFrom none bs

theorem scan_append (s : Option Partial) (xs ys : List UInt8) :
    scan s (xs ++ ys) = (scan s xs).bind fun s' => scan s' ys := by
  induction xs generalizing s with
  | nil => rfl
  | cons b xs ih =>
    simp only [List.cons_append, scan]
    cases push s b with
    | none => rfl
    | some s' => exact ih s'

/-- An ASCII byte is a character of its own. -/
theorem push_ascii {b : UInt8} (h : b < 0x80) : push none b = some none := by
  rw [push, if_pos h]

/-- What a partial character still expects is no ASCII byte. -/
def Partial.Ok (p : Partial) : Prop := 0x80 ≤ p.lo ∧ 0 < p.need

/-- Partial characters that arise in reading. -/
def Reading : Option Partial → Prop
  | none => True
  | some p => p.Ok

theorem lead_ok {b : UInt8} {p : Partial} (h : lead b = some p) : p.Ok ∧ p.bytes = [b] := by
  unfold lead at h
  split_ifs at h <;> cases h <;> simp [Partial.Ok]

theorem reading_push {s s' : Option Partial} {b : UInt8} (hs : Reading s)
    (h : push s b = some s') : Reading s' := by
  cases s with
  | none =>
    rw [push] at h
    split_ifs at h with hb
    · cases h
      trivial
    · obtain ⟨p, hp, rfl⟩ := Option.map_eq_some_iff.mp h
      exact (lead_ok hp).1
  | some p =>
    rw [push] at h
    split_ifs at h with hb hneed
    · cases h
      trivial
    · cases h
      have hpos := hs.2
      exact ⟨UInt8.le_refl 0x80, by simp only; omega⟩

theorem reading_scan {s s' : Option Partial} {bs : List UInt8} (hs : Reading s)
    (h : scan s bs = some s') : Reading s' := by
  induction bs generalizing s with
  | nil =>
    cases h
    exact hs
  | cons b bs ih =>
    obtain ⟨m, hm, h⟩ := Option.bind_eq_some_iff.mp h
    exact ih (reading_push hs hm) h

/-- An ASCII byte comes between characters only. -/
theorem push_ascii_inv {s s' : Option Partial} {b : UInt8} (hs : Reading s) (hb : b < 0x80)
    (h : push s b = some s') : s = none ∧ s' = none := by
  cases s with
  | none =>
    rw [push_ascii hb] at h
    cases h
    exact ⟨rfl, rfl⟩
  | some p =>
    rw [push] at h
    split_ifs at h with hrange
    · exact absurd (UInt8.lt_of_lt_of_le hb (UInt8.le_trans hs.1 hrange.1)) (UInt8.lt_irrefl b)
    · exact absurd (UInt8.lt_of_lt_of_le hb (UInt8.le_trans hs.1 hrange.1)) (UInt8.lt_irrefl b)

theorem push_partial_ascii {p : Partial} {b : UInt8} (hp : p.Ok) (hb : b < 0x80) :
    push (some p) b = none := by
  cases h : push (some p) b with
  | none => rfl
  | some s =>
    obtain ⟨hp, -⟩ := push_ascii_inv (s := some p) hp hb h
    cases hp

/-- A well-formed string may be cut before an ASCII byte. -/
theorem valid_split {xs ys : List UInt8} {b : UInt8} (hb : b < 0x80) :
    Valid (xs ++ b :: ys) ↔ Valid xs ∧ Valid ys := by
  unfold Valid
  rw [scan_append]
  constructor
  · intro h
    obtain ⟨s, hs, h⟩ := Option.bind_eq_some_iff.mp h
    obtain ⟨s', hs', h⟩ := Option.bind_eq_some_iff.mp h
    obtain ⟨rfl, rfl⟩ := push_ascii_inv (reading_scan (s := none) trivial hs) hb hs'
    exact ⟨hs, h⟩
  · rintro ⟨hx, hy⟩
    rw [hx]
    change (push none b).bind _ = _
    rw [push_ascii hb]
    exact hy

@[simp] theorem valid_nil : Valid [] := rfl

theorem valid_append {xs ys : List UInt8} (hx : Valid xs) (hy : Valid ys) : Valid (xs ++ ys) := by
  unfold Valid at *
  rw [scan_append, hx]
  exact hy

theorem valid_of_one {b : UInt8} (hb : b < 0x80) : Valid [b] := by
  rw [Valid, scan, push_ascii hb]
  rfl

/-- ASCII bytes before a string do not matter. -/
theorem valid_behind_ascii {xs ys : List UInt8} (hx : ∀ b ∈ xs, b < 0x80) :
    Valid (xs ++ ys) ↔ Valid ys := by
  induction xs with
  | nil => exact Iff.rfl
  | cons b xs ih =>
    have hsplit : Valid ([] ++ b :: (xs ++ ys)) ↔ Valid [] ∧ Valid (xs ++ ys) :=
      valid_split (hx b List.mem_cons_self)
    rw [List.nil_append] at hsplit
    rw [List.cons_append, hsplit, ih fun c hc => hx c (List.mem_cons_of_mem b hc)]
    exact and_iff_right valid_nil

/-- A well-formed string may be cut before an ASCII byte or at its end. -/
theorem valid_before {xs ys : List UInt8} (h : Valid (xs ++ ys))
    (hy : ∀ b ∈ ys.head?, b < 0x80) : Valid xs ∧ Valid ys := by
  cases ys with
  | nil =>
    rw [List.append_nil] at h
    exact ⟨h, valid_nil⟩
  | cons b ys =>
    have hb := hy b rfl
    obtain ⟨hxs, hys⟩ := (valid_split hb).mp h
    have hone : ∀ c ∈ [b], c < 0x80 := fun c hc => List.mem_singleton.mp hc ▸ hb
    exact ⟨hxs, (valid_behind_ascii hone).mpr hys⟩

/-- A well-formed string may be cut behind an ASCII byte. -/
theorem valid_after {xs ys : List UInt8} {b : UInt8} (hb : b < 0x80)
    (h : Valid (xs ++ [b] ++ ys)) : Valid (xs ++ [b]) ∧ Valid ys := by
  rw [List.append_assoc, List.singleton_append] at h
  obtain ⟨hxs, hys⟩ := (valid_split hb).mp h
  exact ⟨valid_append hxs (valid_of_one hb), hys⟩

/-- A byte that does not complete its character is held. -/
theorem held_push {s : Option Partial} {b : UInt8} {p : Partial}
    (h : push s b = some (some p)) : p.bytes = held s ++ [b] := by
  cases s with
  | none =>
    rw [push] at h
    split_ifs at h with hb
    · cases Option.some.inj h
    · obtain ⟨q, hq, hqp⟩ := Option.map_eq_some_iff.mp h
      cases hqp
      exact (lead_ok hq).2
  | some q =>
    rw [push] at h
    split_ifs at h with hb hneed
    · cases Option.some.inj h
    · cases h
      rfl

theorem lossyFrom_eq {s : Option Partial} {bs : List UInt8} (h : scan s bs = some none) :
    lossyFrom s bs = held s ++ bs := by
  induction bs generalizing s with
  | nil =>
    cases h
    rfl
  | cons b bs ih =>
    obtain ⟨s', hs', h⟩ := Option.bind_eq_some_iff.mp h
    cases s' with
    | none => simp only [lossyFrom, hs', ih h, held, List.nil_append]
    | some p => simp only [lossyFrom, hs', ih h, held, held_push hs', List.append_assoc,
        List.cons_append, List.nil_append]

/-- Lossy reading keeps well-formed text. -/
theorem lossy_of_valid {bs : List UInt8} (h : Valid bs) : lossy bs = bs :=
  lossyFrom_eq h

theorem valid_of_ascii {bs : List UInt8} (h : ∀ b ∈ bs, b < 0x80) : Valid bs := by
  induction bs with
  | nil => rfl
  | cons b bs ih =>
    rw [Valid, scan, push_ascii (h b List.mem_cons_self)]
    exact ih fun c hc => h c (List.mem_cons_of_mem b hc)

/-- The characters of a well-formed string, each by its bytes. -/
def charsFrom (s : Option Partial) : List UInt8 → List (List UInt8)
  | [] => []
  | b :: bs =>
    match push s b with
    | some none => (held s ++ [b]) :: charsFrom none bs
    | some (some p) => charsFrom (some p) bs
    | none => []

def chars (bs : List UInt8) : List (List UInt8) := charsFrom none bs

theorem flatten_charsFrom {s : Option Partial} {bs : List UInt8} (h : scan s bs = some none) :
    (charsFrom s bs).flatten = held s ++ bs := by
  induction bs generalizing s with
  | nil =>
    cases h
    rfl
  | cons b bs ih =>
    obtain ⟨s', hs', h⟩ := Option.bind_eq_some_iff.mp h
    cases s' with
    | none => simp [charsFrom, hs', ih h, held]
    | some p => simp [charsFrom, hs', ih h, held, held_push hs']

/-- The characters make up the string. -/
theorem flatten_chars {bs : List UInt8} (h : Valid bs) : (chars bs).flatten = bs :=
  flatten_charsFrom h

/-- A partial character leaves something that is no ASCII. -/
theorem lossyFrom_some {p : Partial} (hp : p.Ok) (bs : List UInt8) :
    ∃ b ∈ lossyFrom (some p) bs, ¬ b < 0x80 := by
  induction bs generalizing p with
  | nil => exact ⟨0xEF, by simp [lossyFrom, replacement], by decide⟩
  | cons b bs ih =>
    rw [lossyFrom]
    cases hpush : push (some p) b with
    | none => exact ⟨0xEF, by simp [replacement], by decide⟩
    | some s =>
      cases s with
      | none =>
        refine ⟨b, by simp, ?_⟩
        rw [push] at hpush
        split_ifs at hpush with hb hneed
        · intro hlt
          have hlo := hp.1
          have hlob := hb.1
          rw [UInt8.le_iff_toNat_le] at hlo hlob
          rw [UInt8.lt_iff_toNat_lt] at hlt
          change b.toNat < 128 at hlt
          change 128 ≤ p.lo.toNat at hlo
          omega
        · cases Option.some.inj hpush
      | some q => exact ih (reading_push (s := some p) hp hpush)

/-- What reads lossily as ASCII text is that text. -/
theorem lossy_of_ascii {bs : List UInt8} (h : ∀ b ∈ lossy bs, b < 0x80) : lossy bs = bs := by
  induction bs with
  | nil => rfl
  | cons b bs ih =>
    have hread : lossy (b :: bs) = lossyFrom none (b :: bs) := rfl
    rw [hread, lossyFrom] at h ⊢
    cases hpush : push none b with
    | none =>
      simp only [hpush] at h
      exact absurd (h 0xEF (by simp [replacement])) (by decide)
    | some s =>
      simp only [hpush] at h
      cases s with
      | none =>
        have hrest := ih fun c hc => h c (List.mem_cons_of_mem b hc)
        simp only [held, List.nil_append]
        exact congrArg (b :: ·) hrest
      | some p =>
        have hp : p.Ok := reading_push (s := none) trivial hpush
        obtain ⟨c, hc, hlarge⟩ := lossyFrom_some hp bs
        exact absurd (h c hc) hlarge

end Eo9.Library.Utf8
