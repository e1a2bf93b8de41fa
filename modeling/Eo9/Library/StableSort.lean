import Mathlib.Data.List.Sort
import Mathlib.Order.Basic

/-!
# Stable sorting by a key

What a stable sort keeps of a list, besides its items, is the order of the items of each key.
-/

namespace Eo9.Library

variable {α κ : Type*} [LinearOrder κ] {key : α → κ} {xs ys : List α}

/-- Sort by a key; items of one key stay in order. -/
def sortByKey (key : α → κ) (xs : List α) : List α :=
  xs.mergeSort fun a b => decide (key a ≤ key b)

theorem sortByKey_perm (key : α → κ) (xs : List α) : (sortByKey key xs).Perm xs :=
  List.mergeSort_perm xs _

theorem trans_key (a b c : α) (hab : decide (key a ≤ key b) = true)
    (hbc : decide (key b ≤ key c) = true) : decide (key a ≤ key c) = true :=
  decide_eq_true ((of_decide_eq_true hab).trans (of_decide_eq_true hbc))

theorem total_key (a b : α) : (decide (key a ≤ key b) || decide (key b ≤ key a)) = true := by
  simp only [Bool.or_eq_true, decide_eq_true_eq]
  exact le_total _ _

theorem sortByKey_pairwise (key : α → κ) (xs : List α) :
    (sortByKey key xs).Pairwise fun a b => key a ≤ key b := by
  have h := List.pairwise_mergeSort (fun a b c => @trans_key α κ _ key a b c) total_key xs
  exact h.imp fun hab => of_decide_eq_true hab

/-- The items of one key stay in order. -/
theorem filter_sortByKey [DecidableEq κ] (k : κ) (xs : List α) :
    (sortByKey key xs).filter (fun a => decide (key a = k)) =
      xs.filter fun a => decide (key a = k) := by
  have hkey : ∀ a ∈ xs.filter (fun a => decide (key a = k)), key a = k := by
    intro a ha
    exact of_decide_eq_true (List.mem_filter.mp ha).2
  have hpairwise : (xs.filter fun a => decide (key a = k)).Pairwise
      fun a b => decide (key a ≤ key b) = true := by
    apply List.pairwise_of_forall_mem_list
    intro a ha b hb
    rw [hkey a ha, hkey b hb]
    exact decide_eq_true (le_refl k)
  have hsub : (xs.filter fun a => decide (key a = k)).Sublist (sortByKey key xs) :=
    List.sublist_mergeSort trans_key total_key hpairwise List.filter_sublist
  have hfilter := hsub.filter fun a => decide (key a = k)
  rw [List.filter_filter] at hfilter
  simp only [Bool.and_self] at hfilter
  refine (hfilter.eq_of_length ?_).symm
  exact ((sortByKey_perm key xs).filter _).length_eq.symm

/-- The first item of a sorted list has the least key. -/
theorem key_le_of_mem {x a : α} (hxs : (x :: xs).Pairwise fun a b => key a ≤ key b)
    (ha : a ∈ x :: xs) : key x ≤ key a := by
  rcases List.mem_cons.mp ha with rfl | ha
  · exact le_refl _
  · exact List.rel_of_pairwise_cons hxs ha

theorem mem_iff_of_filter_eq [DecidableEq κ]
    (h : ∀ k, xs.filter (fun a => decide (key a = k)) = ys.filter fun a => decide (key a = k))
    (a : α) : a ∈ xs ↔ a ∈ ys := by
  have hiff : a ∈ xs.filter (fun b => decide (key b = key a)) ↔
      a ∈ ys.filter fun b => decide (key b = key a) := by rw [h]
  simpa using hiff

/-- Two sorted lists with the same items of each key. -/
theorem eq_of_filter_eq [DecidableEq κ] (hxs : xs.Pairwise fun a b => key a ≤ key b)
    (hys : ys.Pairwise fun a b => key a ≤ key b)
    (h : ∀ k, xs.filter (fun a => decide (key a = k)) = ys.filter fun a => decide (key a = k)) :
    xs = ys := by
  induction xs generalizing ys with
  | nil =>
    cases ys with
    | nil => rfl
    | cons y ys => cases (mem_iff_of_filter_eq h y).mpr List.mem_cons_self
  | cons x xs ih =>
    cases ys with
    | nil => cases (mem_iff_of_filter_eq h x).mp List.mem_cons_self
    | cons y ys =>
      -- the least keys are the same, so the first items of that key are
      have hkey : key x = key y := le_antisymm
        (key_le_of_mem hxs ((mem_iff_of_filter_eq h y).mpr List.mem_cons_self))
        (key_le_of_mem hys ((mem_iff_of_filter_eq h x).mp List.mem_cons_self))
      have hfirst := h (key x)
      simp only [List.filter_cons, hkey, decide_true, if_true] at hfirst
      obtain ⟨rfl, hrest⟩ := List.cons.inj hfirst
      have htail : ∀ k, xs.filter (fun a => decide (key a = k)) =
          ys.filter fun a => decide (key a = k) := by
        intro k
        by_cases hk : key x = k
        · rw [← hk, hkey, hrest]
        · have hcons := h k
          rwa [List.filter_cons_of_neg (by simpa using hk),
            List.filter_cons_of_neg (by simpa using hk)] at hcons
      rw [ih hxs.of_cons hys.of_cons htail]

/-- Two lists sort alike when they have the same items of each key, in the same order. -/
theorem sortByKey_eq_iff [DecidableEq κ] : sortByKey key xs = sortByKey key ys ↔
    ∀ k, xs.filter (fun a => decide (key a = k)) = ys.filter fun a => decide (key a = k) := by
  constructor
  · intro h k
    rw [← filter_sortByKey k xs, h, filter_sortByKey]
  · intro h
    apply eq_of_filter_eq (sortByKey_pairwise key xs) (sortByKey_pairwise key ys)
    intro k
    rw [filter_sortByKey, filter_sortByKey, h k]

end Eo9.Library
