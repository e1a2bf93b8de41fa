import Eo9.Library.Endian
import Eo9.Library.Utf8
import Eo9.Library.Wasm

/-!
# The canonical ABI: types and their layout

Component types after specialised forms (tuples, enums, options, results) are written as
records and variants, the values of these types, where a value lies in linear memory and the
core values it flattens to. A case without a payload has the empty record as its payload.
-/

namespace Eo9.Library.Canonical

open Wasm (ValType)

/-- The types whose values are one number. `flags` has at most 32 labels. -/
inductive Scalar where
  | bool
  | u8
  | s8
  | u16
  | s16
  | u32
  | s32
  | u64
  | s64
  | f32
  | f64
  | char
  | flags (count : ℕ)
  | handle

namespace Scalar

/-- The bytes a value takes in memory. -/
def width : Scalar → ℕ
  | bool | u8 | s8 => 1
  | u16 | s16 => 2
  | u32 | s32 | f32 | char | handle => 4
  | u64 | s64 | f64 => 8
  | flags count => if count ≤ 8 then 1 else if count ≤ 16 then 2 else 4

/-- The core type a value flattens to. -/
def core : Scalar → ValType
  | u64 | s64 => .i64
  | f32 => .f32
  | f64 => .f64
  | _ => .i32

theorem width_cases (kind : Scalar) :
    kind.width = 1 ∨ kind.width = 2 ∨ kind.width = 4 ∨ kind.width = 8 := by
  cases kind with
  | flags count =>
    simp only [width]
    split_ifs <;> simp
  | _ => simp [width]

/-- A bit pattern that is a NaN, and not the one canonical NaN. -/
def StrangeNaN32 (n : ℕ) : Prop :=
  n / 2 ^ 23 % 2 ^ 8 = 2 ^ 8 - 1 ∧ n % 2 ^ 23 ≠ 0 ∧ n ≠ 0x7FC00000

def StrangeNaN64 (n : ℕ) : Prop :=
  n / 2 ^ 52 % 2 ^ 11 = 2 ^ 11 - 1 ∧ n % 2 ^ 52 ≠ 0 ∧ n ≠ 0x7FF8000000000000

instance (n : ℕ) : Decidable (StrangeNaN32 n) := inferInstanceAs (Decidable (_ ∧ _))

instance (n : ℕ) : Decidable (StrangeNaN64 n) := inferInstanceAs (Decidable (_ ∧ _))

/-- A Unicode scalar value. -/
def IsChar (n : ℕ) : Prop := n < 0xD800 ∨ (0xE000 ≤ n ∧ n < 0x110000)

instance (n : ℕ) : Decidable (IsChar n) := inferInstanceAs (Decidable (_ ∨ _))

/-- The bits of the values of a kind. -/
def Valid : Scalar → ℕ → Prop
  | bool, n => n < 2
  | char, n => IsChar n
  | f32, n => n < 2 ^ 32 ∧ ¬ StrangeNaN32 n
  | f64, n => n < 2 ^ 64 ∧ ¬ StrangeNaN64 n
  | flags count, n => count ≤ 32 ∧ n < 2 ^ count
  | kind, n => n < 256 ^ kind.width

/-- The value that stored bits stand for. -/
def decode : Scalar → ℕ → Option ℕ
  | bool, n => some (if n = 0 then 0 else 1)
  | char, n => if IsChar n then some n else none
  | f32, n => some (if StrangeNaN32 n then 0x7FC00000 else n)
  | f64, n => some (if StrangeNaN64 n then 0x7FF8000000000000 else n)
  | flags count, n => some (n % 2 ^ count)
  | _, n => some n

end Scalar

inductive Ty where
  | scalar (kind : Scalar)
  | string
  | list (element : Ty)
  | record (fields : List Ty)
  | variant (cases : List Ty)

/-- A value: the bits of a scalar, the bytes of a string, the number of a case. -/
inductive Val where
  | scalar (bits : ℕ)
  | string (bytes : List UInt8)
  | list (items : List Val)
  | record (fields : List Val)
  | variant (case : ℕ) (payload : Val)

mutual

def Typed : Ty → Val → Prop
  | .scalar kind, .scalar bits => kind.Valid bits
  | .string, .string bytes => Utf8.Valid bytes
  | .list element, .list items => ∀ v ∈ items, Typed element v
  | .record fields, .record values => TypedAll fields values
  | .variant cases, .variant i payload => TypedCase cases i payload
  | _, _ => False

def TypedAll : List Ty → List Val → Prop
  | [], [] => True
  | t :: ts, v :: vs => Typed t v ∧ TypedAll ts vs
  | _, _ => False

def TypedCase : List Ty → ℕ → Val → Prop
  | [], _, _ => False
  | t :: _, 0, v => Typed t v
  | _ :: ts, i + 1, v => TypedCase ts i v

end

/-- The first multiple of `a` from `n` on. -/
def alignTo (n a : ℕ) : ℕ := (n + a - 1) / a * a

/-- The bytes of the discriminant of a variant with this many cases. -/
def discriminantWidth (cases : ℕ) : ℕ :=
  if cases ≤ 256 then 1 else if cases ≤ 65536 then 2 else 4

namespace Ty

mutual

def alignment : Ty → ℕ
  | scalar kind => kind.width
  | string => 4
  | list _ => 4
  | record fields => maxAlignment fields
  | variant cases => max (discriminantWidth cases.length) (maxAlignment cases)

def maxAlignment : List Ty → ℕ
  | [] => 1
  | t :: ts => max t.alignment (maxAlignment ts)

end

/-- Where the payload of a variant lies. -/
def payloadOffset (cases : List Ty) : ℕ :=
  alignTo (discriminantWidth cases.length) (maxAlignment cases)

mutual

def size : Ty → ℕ
  | scalar kind => kind.width
  | string => 8
  | list _ => 8
  | record fields => alignTo (fieldsEnd 0 fields) (maxAlignment fields)
  | variant cases =>
    alignTo (payloadOffset cases + maxSize cases)
      (max (discriminantWidth cases.length) (maxAlignment cases))

/-- Where fields end that are laid out from `s` on. -/
def fieldsEnd (s : ℕ) : List Ty → ℕ
  | [] => s
  | t :: ts => fieldsEnd (alignTo s t.alignment + t.size) ts

def maxSize : List Ty → ℕ
  | [] => 0
  | t :: ts => max t.size (maxSize ts)

end

/-- A core type wide enough for both. -/
def joinCore : ValType → ValType → ValType
  | .i32, .i32 => .i32
  | .i32, .f32 => .i32
  | .f32, .i32 => .i32
  | .f32, .f32 => .f32
  | .f64, .f64 => .f64
  | _, _ => .i64

/-- The core types of two cases side by side. -/
def joinFlat : List ValType → List ValType → List ValType
  | [], bs => bs
  | as, [] => as
  | a :: as, b :: bs => joinCore a b :: joinFlat as bs

mutual

/-- The core types a value is passed as. -/
def flatten : Ty → List ValType
  | scalar kind => [kind.core]
  | string => [.i32, .i32]
  | list _ => [.i32, .i32]
  | record fields => flattenAll fields
  | variant cases => .i32 :: flattenCases cases

def flattenAll : List Ty → List ValType
  | [] => []
  | t :: ts => t.flatten ++ flattenAll ts

def flattenCases : List Ty → List ValType
  | [] => []
  | t :: ts => joinFlat t.flatten (flattenCases ts)

end

end Ty

theorem le_alignTo (n : ℕ) {a : ℕ} (ha : 0 < a) : n ≤ alignTo n a := by
  unfold alignTo
  have hdiv := Nat.div_add_mod (n + a - 1) a
  have hmod := Nat.mod_lt (n + a - 1) ha
  rw [Nat.mul_comm] at hdiv
  omega

theorem alignTo_le {n a m : ℕ} (ha : 0 < a) (hle : n ≤ m) (hdvd : a ∣ m) : alignTo n a ≤ m := by
  obtain ⟨k, rfl⟩ := hdvd
  unfold alignTo
  rw [Nat.mul_comm a k]
  refine Nat.mul_le_mul_right a ?_
  rw [← Nat.lt_succ_iff, Nat.div_lt_iff_lt_mul ha, Nat.succ_mul]
  rw [Nat.mul_comm] at hle
  omega

theorem alignTo_of_dvd {n a : ℕ} (ha : 0 < a) (h : a ∣ n) : alignTo n a = n :=
  Nat.le_antisymm (alignTo_le ha (Nat.le_refl n) h) (le_alignTo n ha)

theorem discriminantWidth_cases (cases : ℕ) :
    discriminantWidth cases = 1 ∨ discriminantWidth cases = 2 ∨ discriminantWidth cases = 4 := by
  unfold discriminantWidth
  split_ifs <;> simp

def IsAlignment (a : ℕ) : Prop := a = 1 ∨ a = 2 ∨ a = 4 ∨ a = 8

theorem IsAlignment.pos {a : ℕ} (h : IsAlignment a) : 0 < a := by
  unfold IsAlignment at h
  omega

theorem IsAlignment.dvd_eight {a : ℕ} (h : IsAlignment a) : a ∣ 8 := by
  rcases h with rfl | rfl | rfl | rfl <;> decide

theorem IsAlignment.max {a b : ℕ} (ha : IsAlignment a) (hb : IsAlignment b) :
    IsAlignment (max a b) := by
  rcases Nat.le_total a b with h | h
  · rwa [Nat.max_eq_right h]
  · rwa [Nat.max_eq_left h]

theorem isAlignment_discriminant (cases : ℕ) : IsAlignment (discriminantWidth cases) := by
  have h := discriminantWidth_cases cases
  unfold IsAlignment
  omega

namespace Ty

mutual

theorem isAlignment : ∀ t : Ty, IsAlignment t.alignment
  | scalar kind => kind.width_cases
  | string => .inr (.inr (.inl rfl))
  | list _ => .inr (.inr (.inl rfl))
  | record fields => isAlignment_max fields
  | variant cases => (isAlignment_discriminant _).max (isAlignment_max cases)

theorem isAlignment_max : ∀ ts : List Ty, IsAlignment (maxAlignment ts)
  | [] => .inl rfl
  | t :: ts => (isAlignment t).max (isAlignment_max ts)

end

theorem alignment_pos (t : Ty) : 0 < t.alignment := t.isAlignment.pos

theorem maxAlignment_pos (ts : List Ty) : 0 < maxAlignment ts := (isAlignment_max ts).pos

theorem size_le_max {t : Ty} {ts : List Ty} (h : t ∈ ts) : t.size ≤ maxSize ts := by
  induction ts with
  | nil => cases h
  | cons u us ih =>
    simp only [maxSize]
    rcases List.mem_cons.mp h with rfl | h
    · exact Nat.le_max_left _ _
    · exact (ih h).trans (Nat.le_max_right _ _)

theorem le_fieldsEnd (s : ℕ) (ts : List Ty) : s ≤ fieldsEnd s ts := by
  induction ts generalizing s with
  | nil => exact Nat.le_refl s
  | cons t ts ih =>
    calc s ≤ alignTo s t.alignment := le_alignTo s t.alignment_pos
      _ ≤ alignTo s t.alignment + t.size := Nat.le_add_right _ _
      _ ≤ fieldsEnd s (t :: ts) := ih _

theorem fieldsEnd_le_size (fields : List Ty) : fieldsEnd 0 fields ≤ (record fields).size :=
  le_alignTo _ (maxAlignment_pos fields)

theorem discriminant_le_payloadOffset (cases : List Ty) :
    discriminantWidth cases.length ≤ payloadOffset cases :=
  le_alignTo _ (maxAlignment_pos cases)

/-- A payload ends before its variant does. -/
theorem payload_le_size {t : Ty} {cases : List Ty} (h : t ∈ cases) :
    payloadOffset cases + t.size ≤ (variant cases).size := by
  calc payloadOffset cases + t.size ≤ payloadOffset cases + maxSize cases :=
        Nat.add_le_add_left (size_le_max h) _
    _ ≤ (variant cases).size :=
        le_alignTo _ ((isAlignment_discriminant _).max (isAlignment_max cases)).pos

/-- The discriminant lies inside its variant. -/
theorem discriminant_le_size (cases : List Ty) :
    discriminantWidth cases.length ≤ (variant cases).size :=
  calc discriminantWidth cases.length ≤ payloadOffset cases :=
        discriminant_le_payloadOffset cases
    _ ≤ payloadOffset cases + maxSize cases := Nat.le_add_right _ _
    _ ≤ (variant cases).size :=
        le_alignTo _ ((isAlignment_discriminant _).max (isAlignment_max cases)).pos

end Ty

/-!
## The canonical ABI: lifting

Values are read from linear memory and from core values. A pointer that is not aligned or
leads out of the memory, a character that is none and a string that is not UTF-8 are traps.
-/

open Wasm (Memory Value)

/-- The number of `width` bytes. -/
def readNat (m : Memory) (p width : ℕ) : ℕ := leValue (slice m.bytes p width)

def loadString (m : Memory) (start length : ℕ) : Option Val :=
  if start + length ≤ m.size ∧ Utf8.Valid (slice m.bytes start length) then
    some (.string (slice m.bytes start length))
  else none

/-- Read `count` items, one behind the other. -/
def loadItems (item : ℕ → Option Val) (stride : ℕ) : ℕ → ℕ → Option (List Val)
  | 0, _ => some []
  | count + 1, p =>
    match item p, loadItems item stride count (p + stride) with
    | some v, some vs => some (v :: vs)
    | _, _ => none

def loadList (m : Memory) (element : Ty) (item : ℕ → Option Val) (start length : ℕ) :
    Option Val :=
  if element.alignment ∣ start ∧ start + length * element.size ≤ m.size then
    (loadItems item element.size length start).map .list
  else none

mutual

/-- The value of a type that lies at an address. -/
def load (m : Memory) : Ty → ℕ → Option Val
  | .scalar kind, p => (kind.decode (readNat m p kind.width)).map .scalar
  | .string, p => loadString m (readNat m p 4) (readNat m (p + 4) 4)
  | .list element, p =>
    loadList m element (load m element) (readNat m p 4) (readNat m (p + 4) 4)
  | .record fields, p => (loadFields m fields p 0).map .record
  | .variant cases, p =>
    let i := readNat m p (discriminantWidth cases.length)
    (loadCase m cases i (p + Ty.payloadOffset cases)).map (.variant i)

/-- The fields of a record at `p`, laid out from `s` on. -/
def loadFields (m : Memory) : List Ty → ℕ → ℕ → Option (List Val)
  | [], _, _ => some []
  | t :: ts, p, s =>
    match load m t (p + alignTo s t.alignment),
      loadFields m ts p (alignTo s t.alignment + t.size) with
    | some v, some vs => some (v :: vs)
    | _, _ => none

def loadCase (m : Memory) : List Ty → ℕ → ℕ → Option Val
  | [], _, _ => none
  | t :: _, 0, p => load m t p
  | _ :: ts, i + 1, p => loadCase m ts i p

end

/-- The core value of a type with these bits; those that do not fit are cut off. -/
def ofBits : ValType → ℕ → Value
  | .i32, n => .i32 (BitVec.ofNat 32 n)
  | .i64, n => .i64 (BitVec.ofNat 64 n)
  | .f32, n => .f32 (BitVec.ofNat 32 n)
  | .f64, n => .f64 (BitVec.ofNat 64 n)

theorem readNat_of_slice {m : Memory} {p width n : ℕ}
    (h : slice m.bytes p width = leBytes width n) (hn : n < 256 ^ width) :
    readNat m p width = n := by
  rw [readNat, h, leValue_leBytes width n hn]

theorem loadString_eq {m : Memory} {start length : ℕ} {bytes : List UInt8}
    (h : slice m.bytes start length = bytes) (hbound : start + length ≤ m.size)
    (hvalid : Utf8.Valid bytes) : loadString m start length = some (.string bytes) := by
  subst h
  exact if_pos ⟨hbound, hvalid⟩

end Eo9.Library.Canonical
