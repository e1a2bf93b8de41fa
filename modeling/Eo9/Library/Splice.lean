import Eo9.Library.Bytes

/-!
# Lists inside a list

The elements that stand in a list from an index on. What is encoded inside a buffer is placed
there; its parts are placed one behind the other.
-/

namespace Eo9.Library

variable {α ε : Type*} {l xs ys : List α} {i n : ℕ} {a : α}

/-- The elements `xs` stand in `l` from the index `i` on. -/
def Placed (l : List α) (i : ℕ) (xs : List α) : Prop := xs <+: l.drop i

instance [DecidableEq α] : Decidable (Placed l i xs) :=
  inferInstanceAs (Decidable (xs <+: l.drop i))

@[simp] theorem placed_nil : Placed l i [] := List.nil_prefix

theorem placed_cons : Placed l i (a :: xs) ↔ l[i]? = some a ∧ Placed l (i + 1) xs := by
  rw [Placed, Placed, List.cons_prefix_iff, ← List.head?_drop, ← List.drop_drop, List.drop_one]
  constructor
  · rintro ⟨rest, hdrop, hpre⟩
    rw [hdrop]
    exact ⟨rfl, hpre⟩
  · rintro ⟨hhead, hpre⟩
    cases hdrop : l.drop i with
    | nil =>
      rw [hdrop] at hhead
      cases hhead
    | cons b rest =>
      rw [hdrop] at hhead hpre
      cases hhead
      exact ⟨rest, rfl, hpre⟩

theorem placed_append :
    Placed l i (xs ++ ys) ↔ Placed l i xs ∧ Placed l (i + xs.length) ys := by
  induction xs generalizing i with
  | nil => simp
  | cons a xs ih =>
    have hindex : i + 1 + xs.length = i + (a :: xs).length := by
      rw [List.length_cons]
      omega
    rw [List.cons_append, placed_cons, placed_cons, ih, hindex, and_assoc]

/-- What stands in a list ends in it. -/
theorem Placed.le_length (h : Placed l i xs) (hne : xs ≠ []) : i + xs.length ≤ l.length := by
  have hle := h.length_le
  have hpos := List.length_pos_iff.mpr hne
  rw [List.length_drop] at hle
  omega

/-- The elements of a range that lies in the list. -/
theorem placed_sub (h : i + n ≤ l.length) : Placed l i (sub l i n) := List.take_prefix _ _

/-- What stands at a place is determined by its length. -/
theorem Placed.unique (hx : Placed l i xs) (hy : Placed l i ys) (h : xs.length = ys.length) :
    xs = ys :=
  (List.prefix_of_prefix_length_le hx hy (Nat.le_of_eq h)).eq_of_length h

theorem Placed.elemAt (h : Placed l i (a :: xs)) : (Library.elemAt l i : Outcome ε α) = .ok a := by
  rw [Library.elemAt, (placed_cons.mp h).1]

theorem Placed.sub_eq (h : Placed l i xs) (hn : xs.length = n) : sub l i n = xs := by
  rw [sub, ← hn]
  exact (List.prefix_iff_eq_take.mp h).symm

end Eo9.Library

/-!
## Ranges inside ranges

How ranges of a list, and writes to them, compose: a range is its parts one behind the other, a
write of a longer list is that of its parts in order, and a write into a block is a write of the
whole block with the rest of it as it was.
-/

namespace Eo9.Library

variable {α : Type*} {l xs ys : List α} {i j k n : ℕ}

@[simp] theorem sub_empty : sub l i 0 = [] := List.take_zero

theorem sub_split : sub l i (j + k) = sub l i j ++ sub l (i + j) k := by
  rw [sub, sub, sub, List.take_add, List.drop_drop]

theorem sub_of_sub (h : j + k ≤ n) : sub (sub l i n) j k = sub l (i + j) k := by
  rw [sub, sub, sub, List.drop_take, List.take_take, List.drop_drop, Nat.min_eq_left (by omega)]

@[simp] theorem copyInto_nil : copyInto l i [] = l := by
  rw [copyInto, List.append_nil, List.length_nil, Nat.add_zero, List.take_append_drop]

/-- Two writes, the second where the first ends. -/
theorem copyInto_append (h : i + xs.length + ys.length ≤ l.length) :
    copyInto (copyInto l i xs) (i + xs.length) ys = copyInto l i (xs ++ ys) := by
  have hlen : (copyInto l i xs).length = l.length := length_copyInto (by omega)
  apply List.ext_getElem?
  intro m
  rw [getElem?_copyInto (by omega), getElem?_copyInto (by omega),
    getElem?_copyInto (by rw [List.length_append]; omega), List.length_append]
  rcases lt_or_ge m i with hlt | hge
  · rw [if_neg (by omega), if_neg (by omega), if_neg (by omega)]
  rcases lt_or_ge m (i + xs.length) with hfirst | hrest
  · rw [if_neg (by omega), if_pos (by omega), if_pos (by omega),
      List.getElem?_append_left (by omega)]
  rcases lt_or_ge m (i + xs.length + ys.length) with hsecond | hbehind
  · rw [if_pos (by omega), if_pos (by omega), List.getElem?_append_right (by omega),
      Nat.sub_sub]
  · rw [if_neg (by omega), if_neg (by omega), if_neg (by omega)]

/-- A block with a part of it rewritten, put where it was. -/
theorem copyInto_copyInto_sub (hl : i + n ≤ l.length) (h : j + xs.length ≤ n) :
    copyInto l i (copyInto (sub l i n) j xs) = copyInto l (i + j) xs := by
  have hblock : (sub l i n).length = n := length_sub hl
  have hlen : (copyInto (sub l i n) j xs).length = n := by
    rw [length_copyInto (by omega), hblock]
  have hinner (m : ℕ) : (copyInto (sub l i n) j xs)[m]? =
      if j ≤ m ∧ m < j + xs.length then xs[m - j]? else (sub l i n)[m]? :=
    getElem?_copyInto (by omega) m
  have hpart (m : ℕ) : (copyInto l (i + j) xs)[m]? =
      if i + j ≤ m ∧ m < i + j + xs.length then xs[m - (i + j)]? else l[m]? :=
    getElem?_copyInto (by omega) m
  apply List.ext_getElem?
  intro m
  rw [getElem?_copyInto (by omega), hlen, hinner, hpart, getElem?_sub]
  by_cases hm : i ≤ m ∧ m < i + n
  · rw [if_pos hm, if_pos (show m - i < n by omega), Nat.add_sub_cancel' hm.1]
    by_cases hin : i + j ≤ m ∧ m < i + j + xs.length
    · rw [if_pos (by omega), if_pos hin, Nat.sub_sub]
    · rw [if_neg (by omega), if_neg hin]
  · rw [if_neg hm, if_neg (by omega)]

end Eo9.Library
