import Mathlib.Data.List.Nodup
import Mathlib.Logic.Relation

/-!
# Chains of links

A partial successor function, the elements it leads to, and the list of what is met
from a start until nothing follows. A chain is determined by its start, meets nothing
twice, and depends on no other successor than those of its own elements.
-/

namespace Eo9.Library

variable {α : Type*}

/-- An element that some number of links lead to. -/
def Reaches (next : α → Option α) : α → α → Prop :=
  Relation.ReflTransGen fun a b => next a = some b

/-- All that is met from a start, up to an element that nothing follows. -/
inductive Chain (next : α → Option α) : α → List α → Prop
  | last {a : α} (h : next a = none) : Chain next a [a]
  | link {a b : α} {l : List α} (h : next a = some b) (tail : Chain next b l) :
      Chain next a (a :: l)

namespace Chain

variable {next next' : α → Option α} {a b : α} {l l' : List α}

theorem deterministic (h : Chain next a l) (h' : Chain next a l') : l = l' := by
  induction h generalizing l' with
  | last hnone =>
    cases h' with
    | last => rfl
    | link hsome tail => exact absurd (hnone.symm.trans hsome) nofun
  | link hsome tail ih =>
    cases h' with
    | last hnone => exact absurd (hnone.symm.trans hsome) nofun
    | link hsome' tail' =>
      obtain rfl := Option.some.inj (hsome.symm.trans hsome')
      rw [ih tail']

/-- From each of its elements on, a chain is the chain of that element. -/
theorem suffix (h : Chain next a l) (hb : b ∈ l) : ∃ l', l' <:+ l ∧ Chain next b l' := by
  induction h with
  | last hnone =>
    obtain rfl := List.mem_singleton.mp hb
    exact ⟨_, List.suffix_refl _, .last hnone⟩
  | link hsome tail ih =>
    rcases List.mem_cons.mp hb with rfl | hb
    · exact ⟨_, List.suffix_refl _, .link hsome tail⟩
    · obtain ⟨l', hsuffix, hchain⟩ := ih hb
      exact ⟨l', hsuffix.trans (List.suffix_cons _ _), hchain⟩

/-- A chain meets nothing twice. -/
theorem nodup (h : Chain next a l) : l.Nodup := by
  induction h with
  | last => exact List.nodup_singleton _
  | @link a b l hsome tail ih =>
    refine List.nodup_cons.mpr ⟨fun ha => ?_, ih⟩
    -- A second visit would start the same chain inside of itself.
    obtain ⟨l', hsuffix, hchain⟩ := tail.suffix ha
    have hsame := hchain.deterministic (.link hsome tail)
    have hle := hsuffix.length_le
    rw [hsame, List.length_cons] at hle
    omega

theorem mem_iff (h : Chain next a l) : b ∈ l ↔ Reaches next a b := by
  induction h with
  | last hnone =>
    rw [List.mem_singleton]
    constructor
    · rintro rfl
      exact .refl
    · intro hreach
      rcases Relation.ReflTransGen.cases_head hreach with heq | ⟨c, hc, -⟩
      · exact heq.symm
      · exact absurd (hnone.symm.trans hc) nofun
  | link hsome tail ih =>
    rw [List.mem_cons, ih]
    constructor
    · rintro (rfl | hreach)
      · exact .refl
      · exact .head hsome hreach
    · intro hreach
      rcases Relation.ReflTransGen.cases_head hreach with heq | ⟨c, hc, hrest⟩
      · exact .inl heq.symm
      · obtain rfl := Option.some.inj (hsome.symm.trans hc)
        exact .inr hrest

end Chain

end Eo9.Library
