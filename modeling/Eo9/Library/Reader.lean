import Mathlib.Data.List.Basic
import Mathlib.Tactic.Common

/-!
# Readers: values read off a word and the symbol after it

A reader consumes a whole word and looks at what comes next: another symbol, or
the end. Readers are sequenced by trying the longest word for the first reader
first, and combined by ordered choice. When a word can be split in one way only
the order does not matter, and a sequence reads exactly the split.
-/

namespace Eo9.Library

variable {β ι α γ : Type}

/-- What is read from a word, given what comes after it. -/
abbrev Reader (β ι α : Type) := List β → ι → Option α

/-- What comes after a word that is followed by `rest` and then by `i`. -/
def ahead (look : β → ι) (i : ι) : List β → ι
  | [] => i
  | b :: _ => look b

@[simp] theorem ahead_nil (look : β → ι) (i : ι) : ahead look i [] = i := rfl

@[simp] theorem ahead_cons (look : β → ι) (i : ι) (b : β) (rest : List β) :
    ahead look i (b :: rest) = look b := rfl

theorem ahead_append (look : β → ι) (i : ι) (u t : List β) :
    ahead look i (u ++ t) = ahead look (ahead look i t) u := by
  cases u <;> rfl

namespace Reader

/-- The value read by `m` from a first part and by `k` from the second. -/
def Splits (look : β → ι) (m : Reader β ι α) (k : α → Reader β ι γ) (w : List β) (i : ι)
    (v : γ) : Prop :=
  ∃ u t a, w = u ++ t ∧ m u (ahead look i t) = some a ∧ k a t i = some v

/-- Sequencing: the longest first part that can be completed wins. -/
def seq (look : β → ι) : Reader β ι α → (α → Reader β ι γ) → Reader β ι γ
  | m, k, [], i => (m [] i).bind fun a => k a [] i
  | m, k, b :: w, i =>
    (seq look (fun u => m (b :: u)) k w i).or ((m [] (look b)).bind fun a => k a (b :: w) i)

/-- Ordered choice: the first reader that reads the word wins. -/
def choice (ms : List (Reader β ι α)) : Reader β ι α :=
  fun w i => ms.findSome? fun m => m w i

section Sequence

variable {look : β → ι} {k : α → Reader β ι γ} {i : ι} {v : γ}

theorem splits_nil {m : Reader β ι α} :
    Splits look m k [] i v ↔ (m [] i).bind (fun a => k a [] i) = some v := by
  constructor
  · rintro ⟨u, t, a, hw, ha, hv⟩
    obtain ⟨rfl, rfl⟩ := List.append_eq_nil_iff.mp hw.symm
    exact Option.bind_eq_some_iff.mpr ⟨a, ha, hv⟩
  · intro h
    obtain ⟨a, ha, hv⟩ := Option.bind_eq_some_iff.mp h
    exact ⟨[], [], a, rfl, ha, hv⟩

/-- The first part of a split of `b :: w` is empty or starts with `b`. -/
theorem splits_cons {m : Reader β ι α} {b : β} {w : List β} :
    Splits look m k (b :: w) i v ↔
      Splits look (fun u => m (b :: u)) k w i v ∨
        (m [] (look b)).bind (fun a => k a (b :: w) i) = some v := by
  constructor
  · rintro ⟨u, t, a, hw, ha, hv⟩
    cases u with
    | nil =>
      obtain rfl : b :: w = t := hw
      exact Or.inr (Option.bind_eq_some_iff.mpr ⟨a, ha, hv⟩)
    | cons c u =>
      obtain ⟨rfl, rfl⟩ := List.cons.inj hw
      exact Or.inl ⟨u, t, a, rfl, ha, hv⟩
  · rintro (⟨u, t, a, rfl, ha, hv⟩ | h)
    · exact ⟨b :: u, t, a, rfl, ha, hv⟩
    · obtain ⟨a, ha, hv⟩ := Option.bind_eq_some_iff.mp h
      exact ⟨[], b :: w, a, rfl, ha, hv⟩

theorem splits_of_seq {m : Reader β ι α} {w : List β} (h : seq look m k w i = some v) :
    Splits look m k w i v := by
  induction w generalizing m with
  | nil => exact splits_nil.mpr h
  | cons b w ih =>
    apply splits_cons.mpr
    rcases Option.or_eq_some_iff.mp h with h | ⟨-, h⟩
    · exact Or.inl (ih h)
    · exact Or.inr h

theorem seq_isSome_of_splits {m : Reader β ι α} {w : List β} (h : Splits look m k w i v) :
    (seq look m k w i).isSome := by
  induction w generalizing m with
  | nil => rw [seq, splits_nil.mp h]; rfl
  | cons b w ih =>
    rw [seq, Option.isSome_or, Bool.or_eq_true]
    rcases splits_cons.mp h with h | h
    · exact Or.inl (ih h)
    · exact Or.inr (by rw [h]; rfl)

theorem seq_eq_none {m : Reader β ι α} {w : List β} :
    seq look m k w i = none ↔ ∀ v, ¬ Splits look m k w i v := by
  constructor
  · intro h v hv
    have hsome := seq_isSome_of_splits hv
    rw [h] at hsome
    cases hsome
  · intro h
    cases hseq : seq look m k w i with
    | none => rfl
    | some v => exact absurd (splits_of_seq hseq) (h v)

/-- With one value to read, the order in which splits are tried does not matter. -/
theorem seq_eq_some_iff {m : Reader β ι α} {w : List β}
    (unique : ∀ x y, Splits look m k w i x → Splits look m k w i y → x = y) :
    seq look m k w i = some v ↔ Splits look m k w i v := by
  constructor
  · exact splits_of_seq
  · intro h
    obtain ⟨v', hv'⟩ := Option.isSome_iff_exists.mp (seq_isSome_of_splits h)
    rw [hv', unique v' v (splits_of_seq hv') h]

/-- The split that is read, and that no longer first part can be completed. -/
theorem seq_longest {m : Reader β ι α} {w : List β} (h : seq look m k w i = some v) :
    ∃ u t a, w = u ++ t ∧ m u (ahead look i t) = some a ∧ k a t i = some v ∧
      ∀ u' t' a', w = u' ++ t' → u.length < u'.length →
        m u' (ahead look i t') = some a' → k a' t' i = none := by
  induction w generalizing m with
  | nil =>
    obtain ⟨a, ha, hv⟩ := Option.bind_eq_some_iff.mp h
    refine ⟨[], [], a, rfl, ha, hv, ?_⟩
    intro u' t' a' hw hlt
    obtain ⟨rfl, -⟩ := List.append_eq_nil_iff.mp hw.symm
    cases hlt
  | cons b w ih =>
    rcases Option.or_eq_some_iff.mp h with h | ⟨hnone, h⟩
    · obtain ⟨u, t, a, rfl, ha, hv, hmax⟩ := ih h
      refine ⟨b :: u, t, a, rfl, ha, hv, ?_⟩
      intro u' t' a' hw hlt ha'
      cases u' with
      | nil => cases hlt
      | cons c u' =>
        obtain ⟨rfl, hrest⟩ := List.cons.inj hw
        exact hmax u' t' a' hrest (Nat.lt_of_succ_lt_succ hlt) ha'
    · obtain ⟨a, ha, hv⟩ := Option.bind_eq_some_iff.mp h
      refine ⟨[], b :: w, a, rfl, ha, hv, ?_⟩
      intro u' t' a' hw hlt ha'
      cases u' with
      | nil => cases hlt
      | cons c u' =>
        obtain ⟨rfl, rfl⟩ := List.cons.inj hw
        cases hk : k a' t' i with
        | none => rfl
        | some v' => exact absurd ⟨u', t', a', rfl, ha', hk⟩ (seq_eq_none.mp hnone v')

/-- A sequence is read alike when its first parts are, and so is what follows
each first part that is read. -/
theorem seq_congr {m m' : Reader β ι α} {k' : α → Reader β ι γ} {w : List β}
    (hm : ∀ u t, w = u ++ t → m u (ahead look i t) = m' u (ahead look i t))
    (hk : ∀ u t a, w = u ++ t → m u (ahead look i t) = some a → k a t i = k' a t i) :
    seq look m k w i = seq look m' k' w i := by
  induction w generalizing m m' with
  | nil =>
    have hnil := hm [] [] rfl
    rw [ahead_nil] at hnil
    rw [seq, seq, ← hnil]
    cases ha : m [] i with
    | none => rfl
    | some a => exact hk [] [] a rfl ha
  | cons b w ih =>
    have hnil := hm [] (b :: w) rfl
    rw [ahead_cons] at hnil
    rw [seq, seq, ← hnil]
    congr 1
    · apply ih
      · rintro u t rfl
        exact hm (b :: u) t rfl
      · rintro u t a rfl ha
        exact hk (b :: u) t a rfl ha
    · cases ha : m [] (look b) with
      | none => rfl
      | some a => exact hk [] (b :: w) a rfl ha

/-- A first part that starts with `bs` reads what is left behind it. -/
theorem seq_shift {m m' : Reader β ι α} {bs w : List β} (hm : ∀ u j, m (bs ++ u) j = m' u j)
    (hnone : ∀ u j, ¬ bs <+: u → m u j = none) :
    seq look m k (bs ++ w) i = seq look m' k w i := by
  induction bs generalizing m with
  | nil => exact seq_congr (fun u t _ => hm u _) fun _ _ _ _ _ => rfl
  | cons b bs ih =>
    rw [List.cons_append, seq, hnone [] _ (by simp), Option.bind_none, Option.or_none]
    apply ih
    · exact fun u j => hm u j
    · exact fun u j h => hnone (b :: u) j fun hpre => h (List.cons_prefix_cons.mp hpre).2

theorem seq_eq_none_of_first {m : Reader β ι α} {w : List β}
    (h : ∀ u t, w = u ++ t → m u (ahead look i t) = none) : seq look m k w i = none := by
  apply seq_eq_none.mpr
  rintro v ⟨u, t, a, hw, ha, -⟩
  rw [h u t hw] at ha
  cases ha

end Sequence

theorem choice_eq_some {ms : List (Reader β ι α)} {w : List β} {i : ι} {v : α}
    (h : choice ms w i = some v) : ∃ m ∈ ms, m w i = some v :=
  List.exists_of_findSome?_eq_some h

/-- With one value to read, the order of the alternatives does not matter. -/
theorem choice_eq_some_iff {ms : List (Reader β ι α)} {w : List β} {i : ι} {v : α}
    (unique : ∀ m ∈ ms, ∀ m' ∈ ms, ∀ x y, m w i = some x → m' w i = some y → x = y) :
    choice ms w i = some v ↔ ∃ m ∈ ms, m w i = some v := by
  constructor
  · exact choice_eq_some
  · rintro ⟨m, hm, hv⟩
    have hsome : (choice ms w i).isSome :=
      List.findSome?_isSome_iff.mpr ⟨m, hm, by rw [hv]; rfl⟩
    obtain ⟨v', hv'⟩ := Option.isSome_iff_exists.mp hsome
    obtain ⟨m', hm', h'⟩ := choice_eq_some hv'
    rw [hv', unique m' hm' m hm v' v h' hv]

end Reader

end Eo9.Library
