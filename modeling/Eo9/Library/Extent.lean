import Mathlib.Order.Nat
import Mathlib.Tactic.Common

/-!
# Address ranges and a bump pointer

Half-open ranges of addresses, and ranges that are handed out by a pointer that only moves
up: each new range starts at the pointer or above it and leaves the pointer at its end, so
that no two of them meet.
-/

namespace Eo9.Library

/-- The addresses from `base` up to `base + size`, without the end. -/
structure Extent where
  base : Nat
  size : Nat

namespace Extent

variable {a b c : Extent}

def stop (a : Extent) : Nat := a.base + a.size

/-- Every address of the first range is in the second. -/
def Within (a b : Extent) : Prop := b.base ≤ a.base ∧ a.stop ≤ b.stop

/-- One of the ranges ends before the other begins. -/
def Apart (a b : Extent) : Prop := a.stop ≤ b.base ∨ b.stop ≤ a.base

instance : Decidable (a.Within b) := inferInstanceAs (Decidable (_ ∧ _))

instance : Decidable (a.Apart b) := inferInstanceAs (Decidable (_ ∨ _))

theorem Within.refl (a : Extent) : a.Within a := ⟨Nat.le_refl _, Nat.le_refl _⟩

theorem Within.trans (h : a.Within b) (h' : b.Within c) : a.Within c :=
  ⟨Nat.le_trans h'.1 h.1, Nat.le_trans h.2 h'.2⟩

theorem Apart.symm (h : a.Apart b) : b.Apart a := Or.symm h

/-- What lies inside ranges that are apart is apart. -/
theorem Apart.mono {a' b' : Extent} (h : a.Apart b) (ha : a'.Within a) (hb : b'.Within b) :
    a'.Apart b' := by
  cases h with
  | inl h => exact .inl (ha.2.trans (h.trans hb.1))
  | inr h => exact .inr (hb.2.trans (h.trans ha.1))

/-- A shorter range with the same base lies inside. -/
theorem within_of_size_le (h : a.size ≤ b.size) (hbase : a.base = b.base) : a.Within b := by
  refine ⟨hbase.ge, ?_⟩
  unfold stop
  omega

/-- An access at an offset that ends inside the range lies inside it. -/
theorem within_of_offset {offset bytes : Nat} (h : offset + bytes ≤ a.size) :
    Extent.Within ⟨a.base + offset, bytes⟩ a := by
  refine ⟨Nat.le_add_right _ _, ?_⟩
  unfold stop
  dsimp only
  omega

end Extent

/-- What the holder of a bump pointer has handed out of a window: ranges of the window that
lie below the pointer, any two of which are apart. -/
structure Bumped (window : Extent) (next : Nat) (given : List Extent) : Prop where
  base_le : window.base ≤ next
  next_le : next ≤ window.stop
  below : ∀ a ∈ given, window.base ≤ a.base ∧ a.stop ≤ next
  apart : given.Pairwise Extent.Apart

namespace Bumped

variable {window : Extent} {next : Nat} {given : List Extent}

theorem start (window : Extent) : Bumped window window.base [] where
  base_le := Nat.le_refl _
  next_le := Nat.le_add_right _ _
  below := by simp
  apart := .nil

/-- A range at the pointer or above it may be handed out, with the pointer moved to its end. -/
theorem give {a : Extent} (h : Bumped window next given) (hbase : next ≤ a.base)
    (hstop : a.stop ≤ window.stop) : Bumped window a.stop (a :: given) := by
  have hnext : next ≤ a.stop := hbase.trans (Nat.le_add_right _ _)
  constructor
  · exact h.base_le.trans hnext
  · exact hstop
  · intro b hb
    rcases List.mem_cons.mp hb with rfl | hb
    · exact ⟨h.base_le.trans hbase, Nat.le_refl _⟩
    · exact ⟨(h.below b hb).1, (h.below b hb).2.trans hnext⟩
  · refine .cons (fun b hb => ?_) h.apart
    exact .inr ((h.below b hb).2.trans hbase)

/-- The pointer may move up without anything handed out. -/
theorem skip {next' : Nat} (h : Bumped window next given) (hle : next ≤ next')
    (hstop : next' ≤ window.stop) : Bumped window next' given where
  base_le := h.base_le.trans hle
  next_le := hstop
  below := fun a ha => ⟨(h.below a ha).1, (h.below a ha).2.trans hle⟩
  apart := h.apart

theorem within {a : Extent} (h : Bumped window next given) (ha : a ∈ given) : a.Within window :=
  ⟨(h.below a ha).1, (h.below a ha).2.trans h.next_le⟩

end Bumped

end Eo9.Library
