import Mathlib.Data.List.Basic
import Mathlib.Data.List.Forall2
import Mathlib.Tactic.Common

/-!
# Phrases: what lists of tokens stand for

A phrase relates lists of tokens to values. It is delimited by what may follow it
when the place where it ends, and its value, are determined by the tokens from its
start on. Delimited phrases are built up from delimited parts: in sequence when
what a part is followed by can follow it, and as alternatives when the tokens tell
which one it is.

The bound on the number of tokens is for recursive phrases, whose inner
occurrences are shorter.
-/

namespace Eo9.Library

variable {τ α β γ : Type}

/-- What a list of tokens can stand for. -/
abbrev Phrase (τ α : Type) := List τ → α → Prop

namespace Phrase

/-- No token, with a value. -/
def empty (v : α) : Phrase τ α := fun ts a => ts = [] ∧ a = v

/-- The values of a phrase under `f`. -/
def map (P : Phrase τ α) (f : α → β) : Phrase τ β := fun ts v => ∃ a, P ts a ∧ v = f a

/-- One phrase and then another. -/
def seq (P : Phrase τ α) (Q : α → Phrase τ β) : Phrase τ β :=
  fun ts v => ∃ ts₁ ts₂ a, ts = ts₁ ++ ts₂ ∧ P ts₁ a ∧ Q a ts₂ v

def anyOf (Ps : List (Phrase τ α)) : Phrase τ α := fun ts v => ∃ P ∈ Ps, P ts v

/-- The first of several phrases that has a value. -/
def firstOf : List (Phrase τ α) → Phrase τ α
  | [] => fun _ _ => False
  | P :: Ps => fun ts v => P ts v ∨ (∀ a, ¬ P ts a) ∧ firstOf Ps ts v

/-- Among fewer than `n` tokens, followed by what `S` allows, the phrase ends in
one place and has one value. -/
def Delimited (n : ℕ) (P : Phrase τ α) (S : List τ → Prop) : Prop :=
  ∀ ts ts' r r' v v', P ts v → P ts' v' → ts ++ r = ts' ++ r' → (ts ++ r).length < n →
    S r → S r' → ts = ts' ∧ v = v'

/-- What the phrase and its followers start with. -/
def Begins (P : Phrase τ α) (S F : List τ → Prop) : Prop :=
  ∀ ts v r, P ts v → S r → F (ts ++ r)

/-- The phrase has at least one token. -/
def Nonempty (P : Phrase τ α) : Prop := ∀ v, ¬ P [] v

variable {n : ℕ} {P P' : Phrase τ α} {S S' F : List τ → Prop}

theorem anyOf_cons {Ps : List (Phrase τ α)} {ts : List τ} {v : α} :
    anyOf (P :: Ps) ts v ↔ P ts v ∨ anyOf Ps ts v := by
  simp [anyOf]

theorem firstOf_value {Ps : List (Phrase τ α)} {ts : List τ} {v v' : α}
    (h : ∀ P ∈ Ps, ∀ v v', P ts v → P ts v' → v = v') (hv : firstOf Ps ts v)
    (hv' : firstOf Ps ts v') : v = v' := by
  induction Ps with
  | nil => exact hv.elim
  | cons P Ps ih =>
    rcases hv with hv | ⟨hno, hv⟩
    · rcases hv' with hv' | ⟨hno', -⟩
      · exact h P List.mem_cons_self v v' hv hv'
      · exact absurd hv (hno' v)
    · rcases hv' with hv' | ⟨-, hv'⟩
      · exact absurd hv' (hno v')
      · exact ih (fun Q hQ => h Q (List.mem_cons_of_mem P hQ)) hv hv'

namespace Delimited

theorem zero : Delimited 0 P S := fun _ _ _ _ _ _ _ _ _ h => absurd h (Nat.not_lt_zero _)

theorem mono {m : ℕ} (h : Delimited n P S) (hm : m ≤ n) (hS : ∀ r, S' r → S r) :
    Delimited m P S' := fun ts ts' r r' v v' hp hp' heq hlt hs hs' =>
  h ts ts' r r' v v' hp hp' heq (by omega) (hS r hs) (hS r' hs')

theorem congr (h : Delimited n P S) (hP : ∀ ts v, P' ts v → P ts v) : Delimited n P' S :=
  fun ts ts' r r' v v' hp hp' => h ts ts' r r' v v' (hP ts v hp) (hP ts' v' hp')

theorem value (h : Delimited n P S) {ts : List τ} {v v' : α} (hp : P ts v) (hp' : P ts v')
    (hlt : ts.length < n) (hS : S []) : v = v' :=
  (h ts ts [] [] v v' hp hp' rfl (by simpa using hlt) hS hS).2

theorem empty (v : α) : Delimited n (Phrase.empty v : Phrase τ α) S := by
  rintro ts ts' r r' v v' ⟨rfl, rfl⟩ ⟨rfl, rfl⟩ - - - -
  exact ⟨rfl, rfl⟩

theorem map (h : Delimited n P S) (f : α → β) : Delimited n (P.map f) S := by
  rintro ts ts' r r' v v' ⟨a, ha, rfl⟩ ⟨a', ha', rfl⟩ heq hlt hs hs'
  obtain ⟨rfl, rfl⟩ := h ts ts' r r' a a' ha ha' heq hlt hs hs'
  exact ⟨rfl, rfl⟩

/-- In sequence, each part is delimited by what comes after it. -/
theorem seq {Q : α → Phrase τ β} (h : Delimited n P S) (hQ : ∀ a, Delimited n (Q a) S')
    (hfollow : ∀ a, Begins (Q a) S' S) : Delimited n (P.seq Q) S' := by
  rintro ts ts' r r' v v' ⟨t₁, t₂, a, rfl, ha, hv⟩ ⟨t₁', t₂', a', rfl, ha', hv'⟩ heq hlt hs hs'
  rw [List.append_assoc, List.append_assoc] at heq
  rw [List.append_assoc] at hlt
  obtain ⟨rfl, rfl⟩ := h t₁ t₁' (t₂ ++ r) (t₂' ++ r') a a' ha ha' heq hlt
    (hfollow a t₂ v r hv hs) (hfollow a' t₂' v' r' hv' hs')
  rw [List.length_append] at hlt
  obtain ⟨rfl, rfl⟩ := hQ a t₂ t₂' r r' v v' hv hv' (List.append_cancel_left heq) (by omega) hs hs'
  exact ⟨rfl, rfl⟩

/-- Behind a part with a token, a shorter list is left. -/
theorem seq_nonempty {Q : α → Phrase τ β} (h : Delimited (n + 1) P S) (hne : P.Nonempty)
    (hQ : ∀ a, Delimited n (Q a) S') (hfollow : ∀ a, Begins (Q a) S' S) :
    Delimited (n + 1) (P.seq Q) S' := by
  rintro ts ts' r r' v v' ⟨t₁, t₂, a, rfl, ha, hv⟩ ⟨t₁', t₂', a', rfl, ha', hv'⟩ heq hlt hs hs'
  rw [List.append_assoc, List.append_assoc] at heq
  rw [List.append_assoc] at hlt
  obtain ⟨rfl, rfl⟩ := h t₁ t₁' (t₂ ++ r) (t₂' ++ r') a a' ha ha' heq hlt
    (hfollow a t₂ v r hv hs) (hfollow a' t₂' v' r' hv' hs')
  have hpos : 0 < t₁.length := by
    cases t₁ with
    | nil => exact absurd ha (hne a)
    | cons t t₁ => exact Nat.succ_pos _
  rw [List.length_append] at hlt
  obtain ⟨rfl, rfl⟩ := hQ a t₂ t₂' r r' v v' hv hv' (List.append_cancel_left heq) (by omega) hs hs'
  exact ⟨rfl, rfl⟩

/-- Alternatives that begin differently. -/
theorem anyOf {Ps : List (Phrase τ α)} (Fs : List (List τ → Prop))
    (h : List.Forall₂ (fun P F => Delimited n P S ∧ Begins P S F) Ps Fs)
    (apart : Fs.Pairwise fun F F' => ∀ l, F l → ¬ F' l) : Delimited n (Phrase.anyOf Ps) S := by
  induction h with
  | nil =>
    rintro ts ts' r r' v v' ⟨P, hP, -⟩
    exact absurd hP List.not_mem_nil
  | @cons P F Ps Fs hPF hrest ih =>
    obtain ⟨hfirst, apart⟩ := List.pairwise_cons.mp apart
    have hother : ∀ ts v r, Phrase.anyOf Ps ts v → S r → ¬ F (ts ++ r) := by
      rintro ts v r ⟨Q, hQ, hv⟩ hs hF
      obtain ⟨k, hk, rfl⟩ := List.mem_iff_getElem.mp hQ
      have hlen := hrest.length_eq
      have hk' : k < Fs.length := hlen ▸ hk
      have hQF := (List.forall₂_iff_get.mp hrest).2 k hk hk'
      exact hfirst _ (List.getElem_mem hk') _ hF (hQF.2 ts v r hv hs)
    rintro ts ts' r r' v v' ⟨Q, hQ, hv⟩ ⟨Q', hQ', hv'⟩ heq hlt hs hs'
    rcases List.mem_cons.mp hQ with rfl | hmem
    · rcases List.mem_cons.mp hQ' with rfl | hmem'
      · exact hPF.1 ts ts' r r' v v' hv hv' heq hlt hs hs'
      · have hF := hPF.2 ts v r hv hs
        rw [heq] at hF
        exact absurd hF (hother ts' v' r' ⟨Q', hmem', hv'⟩ hs')
    · rcases List.mem_cons.mp hQ' with rfl | hmem'
      · have hF := hPF.2 ts' v' r' hv' hs'
        rw [← heq] at hF
        exact absurd hF (hother ts v r ⟨Q, hmem, hv⟩ hs)
      · exact ih apart ts ts' r r' v v' ⟨Q, hmem, hv⟩ ⟨Q', hmem', hv'⟩ heq hlt hs hs'

end Delimited

end Phrase

end Eo9.Library
