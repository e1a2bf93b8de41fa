import Mathlib.Data.List.Basic
import Mathlib.Data.List.TakeWhile

/-!
# Trimming and splitting

A list without the blanks at its ends, the parts before and behind its first blank, and a word
with a value behind a blank.
-/

namespace Eo9.Library

variable {α : Type*} {p : α → Bool} {xs ys lead mid trail : List α}

/-- A list without the items at its ends that satisfy `p`. -/
def trim (p : α → Bool) (xs : List α) : List α :=
  ((xs.dropWhile p).reverse.dropWhile p).reverse

/-- A list that starts and ends with an item that does not satisfy `p`, if it has any. -/
def Bare (p : α → Bool) (xs : List α) : Prop :=
  (∀ a ∈ xs.head?, ¬ p a = true) ∧ ∀ a ∈ xs.getLast?, ¬ p a = true

theorem dropWhile_append_bare (hlead : ∀ a ∈ lead, p a = true)
    (hrest : ∀ a ∈ xs.head?, ¬ p a = true) : (lead ++ xs).dropWhile p = xs := by
  rw [List.dropWhile_append_of_pos hlead]
  cases xs with
  | nil => rfl
  | cons a xs => exact List.dropWhile_cons_of_neg (hrest a rfl)

/-- The first item behind those that satisfy `p` does not. -/
theorem head?_dropWhile (p : α → Bool) (xs : List α) :
    ∀ a ∈ (xs.dropWhile p).head?, ¬ p a = true := by
  intro a ha
  have hnot := List.head?_dropWhile_not p xs
  rw [Option.mem_def.mp ha] at hnot
  simpa using hnot

/-- Trimming takes blanks off both ends, and all of them. -/
theorem trim_spec (p : α → Bool) (xs : List α) :
    ∃ lead trail, xs = lead ++ trim p xs ++ trail ∧ (∀ a ∈ lead, p a = true) ∧
      (∀ a ∈ trail, p a = true) ∧ Bare p (trim p xs) := by
  have hsplit : xs.dropWhile p =
      trim p xs ++ ((xs.dropWhile p).reverse.takeWhile p).reverse := by
    rw [trim, ← List.reverse_append, List.takeWhile_append_dropWhile, List.reverse_reverse]
  refine ⟨xs.takeWhile p, ((xs.dropWhile p).reverse.takeWhile p).reverse, ?_, ?_, ?_, ?_, ?_⟩
  · rw [List.append_assoc, ← hsplit, List.takeWhile_append_dropWhile]
  · intro a ha
    exact List.mem_takeWhile_imp ha
  · intro a ha
    exact List.mem_takeWhile_imp (List.mem_reverse.mp ha)
  · intro a ha
    apply head?_dropWhile p xs a
    rw [hsplit, List.head?_append]
    rw [Option.mem_def.mp ha]
    rfl
  · intro a ha
    rw [trim, List.getLast?_reverse] at ha
    exact head?_dropWhile p _ a ha

/-- What is bare between blanks is what trimming leaves. -/
theorem trim_append (hlead : ∀ a ∈ lead, p a = true) (htrail : ∀ a ∈ trail, p a = true)
    (hmid : Bare p mid) : trim p (lead ++ mid ++ trail) = mid := by
  have hreverse : ∀ a ∈ trail.reverse, p a = true :=
    fun a ha => htrail a (List.mem_reverse.mp ha)
  cases mid with
  | nil =>
    have hblank : ∀ a ∈ lead ++ trail, p a = true := by
      intro a ha
      rcases List.mem_append.mp ha with ha | ha
      · exact hlead a ha
      · exact htrail a ha
    have hnil : (lead ++ trail ++ []).dropWhile p = [] :=
      dropWhile_append_bare hblank fun a ha => by cases ha
    rw [List.append_nil] at hnil
    rw [List.append_nil, trim, hnil]
    rfl
  | cons b mid =>
    have hfirst : ∀ a ∈ (b :: mid ++ trail).head?, ¬ p a = true := by
      intro a ha
      exact hmid.1 a ha
    have hlast : ∀ a ∈ (b :: mid).reverse.head?, ¬ p a = true := by
      intro a ha
      rw [List.head?_reverse] at ha
      exact hmid.2 a ha
    rw [trim, List.append_assoc, dropWhile_append_bare hlead hfirst, List.reverse_append,
      dropWhile_append_bare hreverse hlast, List.reverse_reverse]

theorem trim_eq_self_iff : trim p xs = xs ↔ Bare p xs := by
  constructor
  · intro h
    obtain ⟨-, -, -, -, -, hbare⟩ := trim_spec p xs
    rwa [h] at hbare
  · intro h
    have hnil : ∀ a ∈ ([] : List α), p a = true := by simp
    have htrim := trim_append hnil hnil h
    rwa [List.nil_append, List.append_nil] at htrim

/-- The parts before and behind the first item that satisfies `p`. -/
def splitFirst (p : α → Bool) : List α → Option (List α × List α)
  | [] => none
  | a :: xs =>
    if p a then some ([], xs) else (splitFirst p xs).map fun parts => (a :: parts.1, parts.2)

theorem splitFirst_append {sep : α} (hxs : ∀ a ∈ xs, ¬ p a = true) (hsep : p sep = true) :
    splitFirst p (xs ++ sep :: ys) = some (xs, ys) := by
  induction xs with
  | nil => exact if_pos hsep
  | cons a xs ih =>
    rw [List.cons_append, splitFirst, if_neg (hxs a List.mem_cons_self),
      ih fun a ha => hxs a (List.mem_cons_of_mem _ ha)]
    rfl

theorem splitFirst_eq_none (hxs : ∀ a ∈ xs, ¬ p a = true) : splitFirst p xs = none := by
  induction xs with
  | nil => rfl
  | cons a xs ih =>
    rw [splitFirst, if_neg (hxs a List.mem_cons_self),
      ih fun a ha => hxs a (List.mem_cons_of_mem _ ha)]
    rfl

theorem of_splitFirst_eq_none (h : splitFirst p xs = none) : ∀ a ∈ xs, ¬ p a = true := by
  induction xs with
  | nil => simp
  | cons a xs ih =>
    rw [splitFirst] at h
    split at h
    · cases h
    · next ha => exact List.forall_mem_cons.mpr ⟨ha, ih (Option.map_eq_none_iff.mp h)⟩

/-- The parts are what is before and behind an item that satisfies `p`, and no item before does. -/
theorem of_splitFirst (h : splitFirst p xs = some (lead, trail)) :
    ∃ sep, p sep = true ∧ xs = lead ++ sep :: trail ∧ ∀ a ∈ lead, ¬ p a = true := by
  induction xs generalizing lead with
  | nil => cases h
  | cons a xs ih =>
    rw [splitFirst] at h
    split at h
    · next ha =>
      cases h
      exact ⟨a, ha, rfl, by simp⟩
    · next ha =>
      obtain ⟨⟨front, back⟩, hparts, heq⟩ := Option.map_eq_some_iff.mp h
      cases heq
      obtain ⟨sep, hsep, rfl, hfront⟩ := ih hparts
      exact ⟨sep, hsep, rfl, List.forall_mem_cons.mpr ⟨ha, hfront⟩⟩

/-- A line that starts with a word keeps it, and what is behind the blank up to its last blanks. -/
theorem trim_word {word : List α} (value : List α) {sep : α} (hne : word ≠ [])
    (hword : ∀ a ∈ word, ¬ p a = true) (hsep : p sep = true) :
    (trim p value = [] ∧ trim p (word ++ sep :: value) = word) ∨
      ∃ lead, (∀ a ∈ lead, p a = true) ∧
        trim p (word ++ sep :: value) = word ++ sep :: (lead ++ trim p value) := by
  obtain ⟨lead, trail, hvalue, hlead, htrail, hbare⟩ := trim_spec p value
  have hnil : ∀ a ∈ ([] : List α), p a = true := by simp
  have hends : Bare p word :=
    ⟨fun a ha => hword a (List.mem_of_mem_head? ha), fun a ha => hword a (List.mem_of_mem_getLast? ha)⟩
  by_cases hmid : trim p value = []
  · -- only blanks follow, so the whole line is the word
    have hblank : ∀ a ∈ sep :: value, p a = true := by
      intro a ha
      rcases List.mem_cons.mp ha with rfl | ha
      · exact hsep
      · rw [hvalue, hmid, List.append_nil] at ha
        rcases List.mem_append.mp ha with ha | ha
        · exact hlead a ha
        · exact htrail a ha
    have htrim := trim_append hnil hblank hends
    rw [List.nil_append] at htrim
    exact .inl ⟨hmid, htrim⟩
  · have hwhole : Bare p (word ++ sep :: (lead ++ trim p value)) := by
      constructor
      · intro a ha
        rw [List.head?_append_of_ne_nil _ hne] at ha
        exact hends.1 a ha
      · intro a ha
        have hlast : (word ++ sep :: (lead ++ trim p value)).getLast? = (trim p value).getLast? := by
          rw [← List.cons_append, ← List.append_assoc, List.getLast?_append_of_ne_nil _ hmid]
        rw [hlast] at ha
        exact hbare.2 a ha
    have htrim := trim_append hnil htrail hwhole
    rw [List.nil_append, List.append_assoc, List.cons_append, ← hvalue] at htrim
    exact .inr ⟨lead, hlead, htrim⟩

/-- The first word of a trimmed line, and the rest of it, trimmed. -/
def wordAndValue (p : α → Bool) (line : List α) : List α × List α :=
  let line := trim p line
  let parts := (splitFirst p line).getD (line, [])
  (parts.1, trim p parts.2)

/-- A word and what is behind a blank: the value comes back trimmed. -/
theorem wordAndValue_append {word : List α} (value : List α) {sep : α} (hne : word ≠ [])
    (hword : ∀ a ∈ word, ¬ p a = true) (hsep : p sep = true) :
    wordAndValue p (word ++ sep :: value) = (word, trim p value) := by
  have hnil : ∀ a ∈ ([] : List α), p a = true := by simp
  obtain ⟨hmid, hline⟩ | ⟨lead, hlead, hline⟩ := trim_word value hne hword hsep
  · rw [wordAndValue, hline, splitFirst_eq_none hword, hmid]
    rfl
  · obtain ⟨-, -, -, -, -, hbare⟩ := trim_spec p value
    have hback := trim_append hlead hnil hbare
    rw [List.append_nil] at hback
    rw [wordAndValue, hline, splitFirst_append hword hsep, Option.getD_some, hback]

end Eo9.Library
