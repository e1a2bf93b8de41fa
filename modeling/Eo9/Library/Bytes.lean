import Mathlib.Data.List.Basic
import Mathlib.Tactic.Common
import Mathlib.Data.Nat.Basic
import Eo9.Library.Outcome

/-!
# Byte ranges

Ranges of a flat store of bytes, and ranges and fixed-size pieces of a list.
An access outside a list is a panic of the access, not a default value.
-/

namespace Eo9.Library

section Stores

/-- The bytes of a store from `offset` on. -/
def slice (m : Nat → UInt8) (offset len : Nat) : List UInt8 :=
  (List.range len).map fun i => m (offset + i)

/-- The store after writing `data` at `offset`. -/
def overwrite (m : Nat → UInt8) (offset : Nat) (data : List UInt8) : Nat → UInt8 :=
  fun i => if offset ≤ i then (data[i - offset]?).getD (m i) else m i

@[simp] theorem length_slice (m : Nat → UInt8) (offset len : Nat) :
    (slice m offset len).length = len := by
  simp [slice]

theorem getElem?_slice {m : Nat → UInt8} {offset len i : Nat} (h : i < len) :
    (slice m offset len)[i]? = some (m (offset + i)) := by
  simp [slice, h]

/-- A slice reads only the bytes of its range. -/
theorem slice_congr {m m' : Nat → UInt8} {offset len : Nat}
    (h : ∀ i, offset ≤ i → i < offset + len → m i = m' i) :
    slice m offset len = slice m' offset len := by
  refine List.map_congr_left fun i hi => h _ (Nat.le_add_right _ _) ?_
  have := List.mem_range.mp hi
  omega

theorem overwrite_outside {m : Nat → UInt8} {offset i : Nat} {data : List UInt8}
    (h : i < offset ∨ offset + data.length ≤ i) : overwrite m offset data i = m i := by
  unfold overwrite
  split
  · rw [List.getElem?_eq_none (by omega), Option.getD_none]
  · rfl

theorem overwrite_inside {m : Nat → UInt8} {offset i : Nat} {data : List UInt8}
    (h : i < data.length) : overwrite m offset data (offset + i) = data[i] := by
  simp [overwrite, h]

/-- What was written is read back. -/
theorem slice_overwrite (m : Nat → UInt8) (offset : Nat) (data : List UInt8) :
    slice (overwrite m offset data) offset data.length = data := by
  refine List.ext_getElem (by simp) fun i h₁ h₂ => ?_
  simp only [slice, List.getElem_map, List.getElem_range, overwrite_inside h₂]

/-- A write is not seen by a read beside it. -/
theorem slice_overwrite_of_apart {m : Nat → UInt8} {offset at' len : Nat} {data : List UInt8}
    (h : offset + data.length ≤ at' ∨ at' + len ≤ offset) :
    slice (overwrite m offset data) at' len = slice m at' len :=
  slice_congr fun i hle hlt => overwrite_outside (by omega)

@[simp] theorem overwrite_nil (m : Nat → UInt8) (offset : Nat) : overwrite m offset [] = m := by
  funext i
  simp [overwrite]

end Stores

section Lists

variable {α : Type*}

/-- `len` elements of a list from `start` on. -/
def sub (l : List α) (start len : Nat) : List α := (l.drop start).take len

theorem length_sub {l : List α} {start len : Nat} (h : start + len ≤ l.length) :
    (sub l start len).length = len := by
  simp only [sub, List.length_take, List.length_drop]
  omega

theorem getElem?_sub (l : List α) (start len i : Nat) :
    (sub l start len)[i]? = if i < len then l[start + i]? else none := by
  simp only [sub, List.getElem?_take, List.getElem?_drop]

/-- The first part of an append. -/
theorem sub_append_left {l r : List α} {len : Nat} (h : len = l.length) :
    sub (l ++ r) 0 len = l := by
  subst h
  simp [sub]

/-- A part of an append that lies in its second half. -/
theorem sub_append_right {l r : List α} {start len : Nat} (h : l.length ≤ start) :
    sub (l ++ r) start len = sub r (start - l.length) len := by
  simp [sub, List.drop_append, List.drop_eq_nil_of_le h]

theorem sub_of_length {l : List α} {len : Nat} (h : l.length = len) : sub l 0 len = l := by
  subst h
  simp [sub]

/-- Overwrite part of a list with `src`, from `start` on. -/
def copyInto (l : List α) (start : Nat) (src : List α) : List α :=
  l.take start ++ src ++ l.drop (start + src.length)

theorem length_copyInto {l src : List α} {start : Nat} (h : start + src.length ≤ l.length) :
    (copyInto l start src).length = l.length := by
  simp only [copyInto, List.length_append, List.length_take, List.length_drop]
  omega

theorem take_copyInto {l src : List α} {start : Nat} (h : start ≤ l.length) :
    (copyInto l start src).take start = l.take start := by
  rw [copyInto, List.append_assoc, List.take_left' (List.length_take_of_le h)]

theorem sub_copyInto {l src : List α} {start : Nat} (h : start ≤ l.length) :
    sub (copyInto l start src) start src.length = src := by
  rw [copyInto, List.append_assoc, sub, List.drop_left' (List.length_take_of_le h), List.take_left]

theorem drop_copyInto {l src : List α} {start : Nat} (h : start ≤ l.length) :
    (copyInto l start src).drop (start + src.length) = l.drop (start + src.length) := by
  refine List.drop_left' ?_
  rw [List.length_append, List.length_take_of_le h]

theorem getElem?_copyInto {l src : List α} {start : Nat} (h : start + src.length ≤ l.length)
    (i : Nat) : (copyInto l start src)[i]? =
      if start ≤ i ∧ i < start + src.length then src[i - start]? else l[i]? := by
  simp only [copyInto, List.getElem?_append, List.length_append, List.length_take,
    List.getElem?_take, List.getElem?_drop]
  grind

end Lists

section Access

variable {α ε : Type*}

/-- The element at an index, which has to exist. -/
def elemAt (l : List α) (i : Nat) : Outcome ε α :=
  match l[i]? with
  | some a => .ok a
  | none => Outcome.panic "index out of bounds"

/-- The elements from `start` up to `stop`, which have to exist. -/
def rangeOf (l : List α) (start stop : Nat) : Outcome ε (List α) :=
  if start ≤ stop ∧ stop ≤ l.length then .ok (sub l start (stop - start))
  else Outcome.panic "range out of bounds"

theorem elemAt_ok {l : List α} {i : Nat} (h : i < l.length) :
    (elemAt l i : Outcome ε α) = .ok l[i] := by
  simp [elemAt, h]

theorem rangeOf_ok {l : List α} {start stop : Nat} (h : start ≤ stop) (hl : stop ≤ l.length) :
    (rangeOf l start stop : Outcome ε (List α)) = .ok (sub l start (stop - start)) :=
  if_pos ⟨h, hl⟩

/-- The middle part of an append. -/
theorem rangeOf_append {l p m q : List α} {start stop : Nat} (h : l = p ++ (m ++ q))
    (hstart : p.length = start) (hstop : p.length + m.length = stop) :
    (rangeOf l start stop : Outcome ε (List α)) = .ok m := by
  have hlen : l.length = p.length + (m.length + q.length) := by
    rw [h, List.length_append, List.length_append]
  have hsub : sub l start (stop - start) = m := by
    rw [h, ← hstart, ← hstop, Nat.add_sub_cancel_left, sub, List.drop_left, List.take_left]
  rw [rangeOf_ok (by omega) (by omega), hsub]

theorem elemAt_append {l p q : List α} {a : α} {i : Nat} (h : l = p ++ (a :: q))
    (hi : p.length = i) : (elemAt l i : Outcome ε α) = .ok a := by
  subst h hi
  simp [elemAt]

theorem clean_elemAt {l : List α} {i : Nat} :
    (elemAt l i : Outcome ε α).Clean ↔ i < l.length := by
  unfold elemAt
  by_cases h : i < l.length <;> simp [h, Outcome.panic]

theorem clean_rangeOf {l : List α} {start stop : Nat} :
    (rangeOf l start stop : Outcome ε (List α)).Clean ↔ start ≤ stop ∧ stop ≤ l.length := by
  unfold rangeOf
  split <;> simp_all [Outcome.panic]

theorem rangeOf_eq_ok_iff {l r : List α} {start stop : Nat} :
    (rangeOf l start stop : Outcome ε (List α)) = .ok r ↔
      (start ≤ stop ∧ stop ≤ l.length) ∧ r = sub l start (stop - start) := by
  unfold rangeOf
  by_cases h : start ≤ stop ∧ stop ≤ l.length <;> simp [h, Outcome.panic, eq_comm]

end Access

/-- The quotient rounded up. -/
def divCeil (a b : Nat) : Nat := if a % b = 0 then a / b else a / b + 1

theorem divCeil_le_iff {a b n : Nat} (hb : 0 < b) : divCeil a b ≤ n ↔ a ≤ n * b := by
  have hdiv := Nat.div_add_mod a b
  have hlt := Nat.mod_lt a hb
  unfold divCeil
  split
  · next h =>
    rw [h, Nat.add_zero] at hdiv
    rw [← hdiv, Nat.mul_div_cancel_left _ hb, Nat.mul_comm b]
    exact ⟨Nat.mul_le_mul_right b, fun h => Nat.le_of_mul_le_mul_right h hb⟩
  · next h =>
    constructor
    · intro hle
      have := Nat.mul_le_mul_right b hle
      rw [Nat.add_mul, Nat.one_mul, Nat.mul_comm (a / b)] at this
      omega
    · intro hle
      by_contra hgt
      have := Nat.mul_le_mul_right b (Nat.le_of_lt_succ (Nat.lt_of_not_le hgt))
      rw [Nat.mul_comm (a / b)] at this
      omega

theorem lt_divCeil_iff {a b n : Nat} (hb : 0 < b) : n < divCeil a b ↔ n * b < a := by
  rw [← Nat.not_le, divCeil_le_iff hb, Nat.not_le]

theorem le_divCeil_mul (a : Nat) {b : Nat} (hb : 0 < b) : a ≤ divCeil a b * b :=
  (divCeil_le_iff hb).mp le_rfl

@[simp] theorem divCeil_zero (b : Nat) : divCeil 0 b = 0 := by
  simp [divCeil]

theorem divCeil_pos {a b : Nat} (hb : 0 < b) (ha : 0 < a) : 0 < divCeil a b :=
  (lt_divCeil_iff hb).mpr (by omega)

theorem divCeil_sub {a b : Nat} (hb : 0 < b) (ha : 0 < a) :
    divCeil a b = divCeil (a - b) b + 1 := by
  refine Nat.le_antisymm ((divCeil_le_iff hb).mpr ?_) ?_
  · have := le_divCeil_mul (a - b) hb
    rw [Nat.add_mul]
    omega
  · refine (lt_divCeil_iff hb).mpr ?_
    rcases Nat.eq_zero_or_pos (divCeil (a - b) b) with hzero | hpos
    · rw [hzero]
      omega
    · have hlt : divCeil (a - b) b - 1 < divCeil (a - b) b := by omega
      have := (lt_divCeil_iff hb).mp hlt
      rw [Nat.sub_mul] at this
      omega

section Chunks

variable {α : Type*}

/-- The list cut into chunks of `size` elements, the last of which may be
shorter. -/
def chunks (size : Nat) (l : List α) : List (List α) :=
  (List.range (divCeil l.length size)).map fun i => sub l (i * size) size

variable {size : Nat} {l : List α}

@[simp] theorem length_chunks : (chunks size l).length = divCeil l.length size := by
  simp [chunks]

@[simp] theorem chunks_nil : chunks size ([] : List α) = [] := by
  simp [chunks]

theorem getElem_chunks {i : Nat} (h : i < (chunks size l).length) :
    (chunks size l)[i] = sub l (i * size) size := by
  simp [chunks]

theorem chunks_cons (hsize : 0 < size) (hl : l ≠ []) :
    chunks size l = l.take size :: chunks size (l.drop size) := by
  have hpos : 0 < l.length := List.length_pos_of_ne_nil hl
  simp only [chunks, divCeil_sub hsize hpos, List.range_succ_eq_map, List.map_cons,
    List.length_drop, List.map_map]
  refine congrArg₂ List.cons (by simp [sub]) (List.map_congr_left fun i _ => ?_)
  simp only [Function.comp_apply, sub, List.drop_drop, Nat.succ_eq_add_one, Nat.add_mul,
    Nat.one_mul, Nat.add_comm]

theorem flatten_chunks (hsize : 0 < size) (l : List α) : (chunks size l).flatten = l := by
  induction h : l.length using Nat.strong_induction_on generalizing l with
  | _ n ih =>
    by_cases hl : l = []
    · simp [hl]
    · have hpos : 0 < l.length := List.length_pos_of_ne_nil hl
      rw [chunks_cons hsize hl, List.flatten_cons,
        ih (l.drop size).length (by simp only [List.length_drop]; omega) _ rfl,
        List.take_append_drop]

/-- Equal pieces are the chunks of their concatenation. -/
theorem chunks_flatten (hsize : 0 < size) {ps : List (List α)}
    (h : ∀ p ∈ ps, p.length = size) : chunks size ps.flatten = ps := by
  induction ps with
  | nil => simp
  | cons p ps ih =>
    have hp := h p List.mem_cons_self
    have hne : p ++ ps.flatten ≠ [] := by
      intro hnil
      rw [(List.append_eq_nil_iff.mp hnil).1] at hp
      simp only [List.length_nil] at hp
      omega
    have hle := Nat.le_of_eq hp
    have hge := Nat.le_of_eq hp.symm
    rw [List.flatten_cons, chunks_cons hsize hne, List.take_append_of_le_length hge,
      List.take_of_length_le hle, List.drop_append_of_le_length hge,
      List.drop_of_length_le hle, List.nil_append,
      ih fun q hq => h q (List.mem_cons_of_mem _ hq)]

/-- No chunk is empty, and none is longer than `size`. -/
theorem length_mem_chunks (hsize : 0 < size) {c : List α} (hc : c ∈ chunks size l) :
    0 < c.length ∧ c.length ≤ size := by
  simp only [chunks, List.mem_map, List.mem_range] at hc
  obtain ⟨i, hi, rfl⟩ := hc
  have := (lt_divCeil_iff hsize).mp hi
  simp only [sub, List.length_take, List.length_drop]
  omega

/-- When the chunks come out even, each has exactly `size` elements. -/
theorem length_mem_chunks_of_dvd (hsize : 0 < size) (hdvd : l.length % size = 0)
    {c : List α} (hc : c ∈ chunks size l) : c.length = size := by
  simp only [chunks, List.mem_map, List.mem_range] at hc
  obtain ⟨i, hi, rfl⟩ := hc
  have hlt := (lt_divCeil_iff hsize).mp hi
  obtain ⟨k, hk⟩ := Nat.dvd_of_mod_eq_zero hdvd
  have hik : i + 1 ≤ k := by
    rw [hk, Nat.mul_comm] at hlt
    exact Nat.lt_of_mul_lt_mul_left hlt
  have := Nat.mul_le_mul_left size hik
  refine length_sub ?_
  rw [hk, Nat.mul_comm i]
  rw [Nat.mul_add, Nat.mul_one] at this
  exact this

end Chunks

end Eo9.Library
