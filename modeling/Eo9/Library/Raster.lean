import Eo9.Library.Bytes

/-!
# Rows of a flat buffer

A buffer of rows with a fixed distance between their starts. A rectangle of it is a part of some
consecutive rows; it is written and read row by row.
-/

namespace Eo9.Library

variable {α : Type*}

/-- Lines put over the same columns of consecutive rows. -/
def blitRows (mem : List α) (start stride : ℕ) (lines : ℕ → List α) : ℕ → List α
  | 0 => mem
  | n + 1 => copyInto (blitRows mem start stride lines n) (start + n * stride) (lines n)

/-- The same columns of consecutive rows, one behind the other. -/
def gatherRows (mem : List α) (start stride len : ℕ) : ℕ → List α
  | 0 => []
  | n + 1 => gatherRows mem start stride len n ++ sub mem (start + n * stride) len

/-- An element that is there is the one that a default stands in for. -/
theorem getElem?_eq_some_getD {l : List α} {i : ℕ} (h : i < l.length) (a : α) :
    l[i]? = some ((l[i]?).getD a) := by
  rw [List.getElem?_eq_getElem h, Option.getD_some]

section Rows

variable {mem : List α} {lines : ℕ → List α} {stride len height first column n : ℕ}

/-- The columns of a row that is inside the buffer. -/
theorem row_fits {row : ℕ} (hcolumns : column + len ≤ stride) (hrow : first + row < height) :
    first * stride + column + row * stride + len ≤ height * stride := by
  have hrows : (first + row + 1) * stride ≤ height * stride := Nat.mul_le_mul_right _ hrow
  rw [Nat.add_mul, Nat.add_mul, Nat.one_mul] at hrows
  omega

/-- Where a place in a row lies in the columns of a row. -/
theorem row_range_iff {row y o : ℕ} (hcolumns : column + len ≤ stride) (ho : o < stride) :
    (row * stride + column ≤ y * stride + o ∧ y * stride + o < row * stride + column + len) ↔
      y = row ∧ column ≤ o ∧ o < column + len := by
  constructor
  · rintro ⟨hle, hlt⟩
    have hrow : y = row := by
      rcases Nat.lt_trichotomy y row with hbefore | heq | hbehind
      · have hrows := Nat.mul_le_mul_right stride hbefore
        rw [Nat.succ_mul] at hrows
        omega
      · exact heq
      · have hrows := Nat.mul_le_mul_right stride hbehind
        rw [Nat.succ_mul] at hrows
        omega
    subst hrow
    omega
  · rintro ⟨rfl, hcolumn, hlen⟩
    omega

theorem length_blitRows (hmem : mem.length = height * stride) (hlines : ∀ i < n, (lines i).length = len)
    (hcolumns : column + len ≤ stride) (hrows : first + n ≤ height) :
    (blitRows mem (first * stride + column) stride lines n).length = mem.length := by
  induction n with
  | zero => rfl
  | succ n ih =>
    have hlen := ih (fun i hi => hlines i (Nat.lt_succ_of_lt hi)) (by omega)
    have hfits := row_fits hcolumns (show first + n < height by omega)
    rw [blitRows, length_copyInto, hlen]
    rw [hlen, hmem, hlines n (Nat.lt_succ_self n)]
    exact hfits

/-- A place of the buffer after the lines were put into it. -/
theorem getElem?_blitRows (hmem : mem.length = height * stride)
    (hlines : ∀ i < n, (lines i).length = len) (hcolumns : column + len ≤ stride)
    (hrows : first + n ≤ height) {y o : ℕ} (ho : o < stride) :
    (blitRows mem (first * stride + column) stride lines n)[y * stride + o]? =
      if first ≤ y ∧ y < first + n ∧ column ≤ o ∧ o < column + len then
        (lines (y - first))[o - column]? else mem[y * stride + o]? := by
  induction n with
  | zero => rw [blitRows, if_neg (by omega)]
  | succ n ih =>
    have hfront : ∀ i < n, (lines i).length = len := fun i hi => hlines i (Nat.lt_succ_of_lt hi)
    have hlast : (lines n).length = len := hlines n (Nat.lt_succ_self n)
    have hlen := length_blitRows hmem hfront hcolumns (show first + n ≤ height by omega)
    have hfits := row_fits hcolumns (show first + n < height by omega)
    have hstart : first * stride + column + n * stride = (first + n) * stride + column := by
      rw [Nat.add_mul]
      omega
    rw [blitRows, getElem?_copyInto (by rw [hlen, hmem, hlast]; exact hfits), hlast, hstart,
      ih hfront (by omega)]
    by_cases hhere : y = first + n ∧ column ≤ o ∧ o < column + len
    · rw [if_pos ((row_range_iff hcolumns ho).mpr hhere), if_pos (by omega)]
      obtain ⟨rfl, -, -⟩ := hhere
      rw [Nat.add_sub_cancel_left, Nat.add_sub_add_left]
    · rw [if_neg (mt (row_range_iff hcolumns ho).mp hhere)]
      by_cases hbefore : first ≤ y ∧ y < first + n ∧ column ≤ o ∧ o < column + len
      · rw [if_pos hbefore, if_pos (by omega)]
      · rw [if_neg hbefore, if_neg (by omega)]

theorem length_gatherRows (hmem : mem.length = height * stride) (hcolumns : column + len ≤ stride)
    (hrows : first + n ≤ height) :
    (gatherRows mem (first * stride + column) stride len n).length = n * len := by
  induction n with
  | zero => rw [gatherRows, List.length_nil, Nat.zero_mul]
  | succ n ih =>
    have hfits := row_fits hcolumns (show first + n < height by omega)
    rw [gatherRows, List.length_append, ih (by omega), length_sub (by rw [hmem]; exact hfits),
      Nat.succ_mul]

/-- A place of what was read. -/
theorem getElem?_gatherRows (hmem : mem.length = height * stride) (hcolumns : column + len ≤ stride)
    (hrows : first + n ≤ height) {j o : ℕ} (hj : j < n) (ho : o < len) :
    (gatherRows mem (first * stride + column) stride len n)[j * len + o]? =
      mem[(first + j) * stride + (column + o)]? := by
  induction n with
  | zero => exact absurd hj (Nat.not_lt_zero j)
  | succ n ih =>
    have hlen := length_gatherRows hmem hcolumns (show first + n ≤ height by omega)
    rw [gatherRows]
    rcases Nat.lt_succ_iff_lt_or_eq.mp hj with hfront | rfl
    · have hlt := Nat.mul_le_mul_right len hfront
      rw [Nat.succ_mul] at hlt
      rw [List.getElem?_append_left (by omega), ih (by omega) hfront]
    · rw [List.getElem?_append_right (by omega), hlen, Nat.add_sub_cancel_left, getElem?_sub,
        if_pos ho, Nat.add_mul]
      congr 1
      omega

end Rows

section Patterns

variable {pattern : List α} {n m : ℕ}

theorem length_flatten_replicate (h : pattern.length = m) :
    (List.replicate n pattern).flatten.length = n * m := by
  rw [List.length_flatten, List.map_replicate, List.sum_replicate_nat, h]

/-- A place of a pattern that is repeated. -/
theorem getElem?_flatten_replicate (h : pattern.length = m) {i k : ℕ} (hi : i < n) (hk : k < m) :
    (List.replicate n pattern).flatten[i * m + k]? = pattern[k]? := by
  induction n generalizing i with
  | zero => exact absurd hi (Nat.not_lt_zero i)
  | succ n ih =>
    rw [List.replicate_succ, List.flatten_cons]
    cases i with
    | zero => rw [Nat.zero_mul, Nat.zero_add, List.getElem?_append_left (h ▸ hk)]
    | succ i =>
      have hnext : (i + 1) * m + k - m = i * m + k := by
        rw [Nat.succ_mul]
        omega
      rw [List.getElem?_append_right (by rw [h, Nat.succ_mul]; omega), h, hnext]
      exact ih (Nat.lt_of_succ_lt_succ hi)

end Patterns

end Eo9.Library
