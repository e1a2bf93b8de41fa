import Mathlib.Algebra.GroupWithZero.Nat
import Mathlib.Data.List.Basic
import Mathlib.Tactic.Common

/-!
# A table of slots with reusable indices

The handle table that a vector of optional values is: an insertion takes the first free
slot, a removal leaves the slot free, and the index is the handle.
-/

namespace Eo9.Library

variable {α : Type*}

abbrev Slots (α : Type*) := List (Option α)

namespace Slots

variable {slots : Slots α} {v : α} {i j : Nat}

/-- The value behind a handle. -/
def get (slots : Slots α) (i : Nat) : Option α := (slots[i]?).join

/-- Put a value in the first free slot, or in a new one at the end; its index comes back. -/
def insert (v : α) : Slots α → Nat × Slots α
  | [] => (0, [some v])
  | none :: slots => (0, some v :: slots)
  | some w :: slots => ((insert v slots).1 + 1, some w :: (insert v slots).2)

def clear (slots : Slots α) (i : Nat) : Slots α := slots.set i none

/-- Replace the value behind a handle, if there is one. -/
def update (slots : Slots α) (i : Nat) (f : α → α) : Slots α :=
  slots.modify i (Option.map f)

@[simp] theorem get_nil : get ([] : Slots α) i = none := rfl

@[simp] theorem get_cons_zero {o : Option α} : get (o :: slots) 0 = o := by
  simp [get]

@[simp] theorem get_cons_succ {o : Option α} : get (o :: slots) (i + 1) = get slots i := by
  simp [get]

/-- The slot of an insertion was free, and holds the value afterwards. -/
theorem insert_fresh : get slots (insert v slots).1 = none := by
  induction slots with
  | nil => rfl
  | cons o slots ih =>
    cases o with
    | none => rfl
    | some w => simpa [insert] using ih

theorem get_insert_self : get (insert v slots).2 (insert v slots).1 = some v := by
  induction slots with
  | nil => rfl
  | cons o slots ih =>
    cases o with
    | none => rfl
    | some w => simpa [insert] using ih

theorem get_insert_of_ne (h : i ≠ (insert v slots).1) :
    get (insert v slots).2 i = get slots i := by
  induction slots generalizing i with
  | nil =>
    cases i with
    | zero => exact absurd rfl h
    | succ i => simp [insert]
  | cons o slots ih =>
    cases o with
    | none =>
      cases i with
      | zero => exact absurd rfl h
      | succ i => simp [insert]
    | some w =>
      cases i with
      | zero => simp [insert]
      | succ i =>
        have hi : i ≠ (insert v slots).1 := fun hi => h (congrArg (· + 1) hi)
        simpa [insert] using ih hi

/-- What a table holds after an insertion is the new value at its handle, or was there. -/
theorem get_insert_cases {w : α} (h : get (insert v slots).2 i = some w) :
    (i = (insert v slots).1 ∧ w = v) ∨ get slots i = some w := by
  by_cases hi : i = (insert v slots).1
  · left
    rw [hi, get_insert_self] at h
    exact ⟨hi, (Option.some.inj h).symm⟩
  · right
    rwa [get_insert_of_ne hi] at h

@[simp] theorem get_clear_self : get (clear slots i) i = none := by
  simp only [get, clear, List.getElem?_set_self']
  cases slots[i]? <;> rfl

theorem get_clear_of_ne (h : j ≠ i) : get (clear slots i) j = get slots j := by
  simp only [get, clear, List.getElem?_set_ne h.symm]

/-- Freeing a slot adds nothing. -/
theorem get_of_get_clear {w : α} (h : get (clear slots i) j = some w) : get slots j = some w := by
  by_cases hj : j = i
  · rw [hj, get_clear_self] at h
    exact absurd h nofun
  · rwa [get_clear_of_ne hj] at h

theorem get_update_self {f : α → α} : get (update slots i f) i = (get slots i).map f := by
  simp only [get, update, List.getElem?_modify, if_true]
  cases slots[i]? <;> rfl

theorem get_update_of_ne {f : α → α} (h : j ≠ i) : get (update slots i f) j = get slots j := by
  simp only [get, update, List.getElem?_modify, if_neg h.symm, id_map']

/-- The values in use are those behind a handle. -/
theorem mem_iff_get {v : α} : some v ∈ slots ↔ ∃ i, get slots i = some v := by
  induction slots with
  | nil => simp
  | cons o slots ih =>
    rw [List.mem_cons, ih]
    constructor
    · rintro (h | ⟨i, h⟩)
      · exact ⟨0, by simp [h]⟩
      · exact ⟨i + 1, by simpa using h⟩
    · rintro ⟨i, h⟩
      cases i with
      | zero => exact .inl (by simpa using h.symm)
      | succ i => exact .inr ⟨i, by simpa using h⟩

/-- The index of the first free slot, or of the one that would be new. -/
def firstFree : Slots α → ℕ
  | [] => 0
  | none :: _ => 0
  | some _ :: slots => firstFree slots + 1

theorem insert_fst : (insert v slots).1 = firstFree slots := by
  induction slots with
  | nil => rfl
  | cons o slots ih =>
    cases o with
    | none => rfl
    | some w => exact congrArg (· + 1) ih

theorem get_firstFree : get slots (firstFree slots) = none := by
  induction slots with
  | nil => rfl
  | cons o slots ih =>
    cases o with
    | none => rfl
    | some w => simpa [firstFree] using ih

theorem get_of_getElem? (h : slots[i]? = some o) : get slots i = o := by
  rw [get, h]
  rfl

theorem getElem?_insert_self : (insert v slots).2[firstFree slots]? = some (some v) := by
  induction slots with
  | nil => rfl
  | cons o slots ih =>
    cases o with
    | none => rfl
    | some w => exact ih

theorem getElem?_insert_of_ne (h : i ≠ firstFree slots) : (insert v slots).2[i]? = slots[i]? := by
  induction slots generalizing i with
  | nil =>
    cases i with
    | zero => exact absurd rfl h
    | succ i => rfl
  | cons o slots ih =>
    cases o with
    | none =>
      cases i with
      | zero => exact absurd rfl h
      | succ i => rfl
    | some w =>
      cases i with
      | zero => rfl
      | succ i => exact ih fun hi => h (congrArg (· + 1) hi)

/-- The first free slot holds nothing. -/
theorem getElem?_firstFree : slots[firstFree slots]? ≠ some (some v) := by
  intro h
  have hget := get_of_getElem? h
  rw [get_firstFree] at hget
  cases hget

/-- What a slot takes up. -/
def extent (size : α → ℕ) (o : Option α) : ℕ := (o.map size).getD 0

/-- What the values in use take up together. -/
def total (size : α → ℕ) (slots : Slots α) : ℕ := (slots.map (extent size)).sum

variable {size : α → ℕ} {o o' : Option α}

@[simp] theorem total_nil : total size ([] : Slots α) = 0 := rfl

@[simp] theorem total_cons : total size (o :: slots) = extent size o + total size slots := by
  rw [total, List.map_cons, List.sum_cons, total]

theorem total_insert : total size (insert v slots).2 = total size slots + size v := by
  induction slots with
  | nil => simp [insert, extent]
  | cons o slots ih =>
    cases o with
    | none =>
      rw [insert, total_cons, total_cons]
      simp only [extent, Option.map_some, Option.getD_some, Option.map_none, Option.getD_none]
      omega
    | some w =>
      rw [insert, total_cons, total_cons, ih]
      omega

/-- A slot is counted once. -/
theorem total_set (size : α → ℕ) (o' : Option α) (h : slots[i]? = some o) :
    total size (slots.set i o') + extent size o = total size slots + extent size o' := by
  induction slots generalizing i with
  | nil => cases h
  | cons o₀ slots ih =>
    cases i with
    | zero =>
      obtain rfl : o₀ = o := Option.some.inj h
      rw [List.set_cons_zero, total_cons, total_cons]
      omega
    | succ i =>
      rw [List.getElem?_cons_succ] at h
      have hrest := ih h
      rw [List.set_cons_succ, total_cons, total_cons]
      omega

theorem getElem?_set_of_getElem? (h : slots[i]? = some o) : (slots.set i o')[i]? = some o' := by
  have hlt : i < slots.length := (List.getElem?_eq_some_iff.mp h).1
  rw [List.getElem?_set_self hlt]

end Slots

end Eo9.Library
