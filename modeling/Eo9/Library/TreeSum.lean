import Mathlib.Algebra.BigOperators.Group.List.Basic
import Mathlib.Algebra.GroupWithZero.Nat
import Std.Data.TreeMap.Lemmas

/-!
# Totals over an ordered map

The sum of the values of a map from ordered keys to naturals, and how it
changes when one entry is added, replaced or removed.
-/

namespace Eo9.Library

open Std

variable {κ : Type*} [Ord κ] [TransOrd κ] [LawfulEqOrd κ]

theorem lookup_insert [DecidableEq κ] {β : Type*} (t : TreeMap κ β) (k x : κ) (v : β) :
    (t.insert k v)[x]? = if x = k then some v else t[x]? := by
  rw [TreeMap.getElem?_insert]
  by_cases h : x = k
  · subst h; simp
  · simp [h, Ne.symm h]

theorem lookup_erase [DecidableEq κ] {β : Type*} (t : TreeMap κ β) (k x : κ) :
    (t.erase k)[x]? = if x = k then none else t[x]? := by
  rw [TreeMap.getElem?_erase]
  by_cases h : x = k
  · subst h; simp
  · simp [h, Ne.symm h]

/-- The sum of all values of the map. -/
def total (t : TreeMap κ Nat) : Nat := (t.toList.map Prod.snd).sum

omit [LawfulEqOrd κ] in
theorem total_congr {t t' : TreeMap κ Nat} (h : t.Equiv t') : total t = total t' := by
  simp only [total, TreeMap.Equiv.toList_eq h]

/-- Adding an entry under a new key adds its value. -/
theorem total_insert_new {t : TreeMap κ Nat} {k : κ} (v : Nat) (h : t[k]? = none) :
    total (t.insert k v) = v + total t := by
  classical
  have hperm := (TreeMap.toList_insert_perm (t := t) (k := k) (v := v)).map Prod.snd
  have hall : t.toList.filter (fun p => decide ¬ (k == p.1) = true) = t.toList := by
    refine List.filter_eq_self.mpr fun p hp => ?_
    have hp' := TreeMap.mem_toList_iff_getElem?_eq_some.mp hp
    have hne : k ≠ p.1 := by
      rintro rfl
      rw [h] at hp'
      cases hp'
    simpa using hne
  rw [total, hperm.sum_eq, hall]
  simp [total]

/-- Replacing the value under a key trades the old value for the new one. -/
theorem total_insert {t : TreeMap κ Nat} {k : κ} {old : Nat} (v : Nat)
    (h : t[k]? = some old) : total (t.insert k v) + old = total t + v := by
  have hback : (t.erase k).insert k old |>.Equiv t := by
    refine TreeMap.Equiv.of_forall_constGet?_eq fun a => ?_
    rw [TreeMap.getElem?_insert, TreeMap.getElem?_erase]
    by_cases ha : k = a
    · subst ha; simp [h]
    · simp [ha]
  have hnew : (t.erase k).insert k v |>.Equiv (t.insert k v) := by
    refine TreeMap.Equiv.of_forall_constGet?_eq fun a => ?_
    rw [TreeMap.getElem?_insert, TreeMap.getElem?_erase, TreeMap.getElem?_insert]
    by_cases ha : k = a
    · subst ha; simp
    · simp [ha]
  have hgone : (t.erase k)[k]? = none := by simp
  rw [← total_congr hback, ← total_congr hnew, total_insert_new _ hgone,
    total_insert_new _ hgone]
  omega

/-- Removing an entry removes its value. -/
theorem total_erase {t : TreeMap κ Nat} {k : κ} {old : Nat} (h : t[k]? = some old) :
    total (t.erase k) + old = total t := by
  have hback : (t.erase k).insert k old |>.Equiv t := by
    refine TreeMap.Equiv.of_forall_constGet?_eq fun a => ?_
    rw [TreeMap.getElem?_insert, TreeMap.getElem?_erase]
    by_cases ha : k = a
    · subst ha; simp [h]
    · simp [ha]
  rw [← total_congr hback, total_insert_new _ (by simp)]
  omega

/-- The sum over the keys, each with the value found under it. -/
theorem total_eq_sum_keys (t : TreeMap κ Nat) :
    total t = (t.keys.map fun k => (t[k]?).getD 0).sum := by
  rw [total, ← TreeMap.map_fst_toList_eq_keys, List.map_map]
  refine congrArg List.sum (List.map_congr_left fun p hp => ?_)
  have := TreeMap.mem_toList_iff_getElem?_eq_some.mp hp
  simp [this]

/-- One entry is at most the total, and two entries together are too. -/
theorem le_total {t : TreeMap κ Nat} {k : κ} {v : Nat} (h : t[k]? = some v) :
    v ≤ total t := by
  have := total_erase h
  omega

theorem add_le_total {t : TreeMap κ Nat} {k k' : κ} {v v' : Nat} (hne : k ≠ k')
    (h : t[k]? = some v) (h' : t[k']? = some v') : v + v' ≤ total t := by
  have hsum := total_erase h
  have hrest : (t.erase k)[k']? = some v' := by
    rw [TreeMap.getElem?_erase]
    simpa [hne] using h'
  have := le_total hrest
  omega

end Eo9.Library
