import Eo9.Eosh.Laws
import Eo9.Library.Reader

/-!
# What a parser reads

A parser that is fed a word and then one more input reads a value, or none. The
value it reads is given by its shape alone: a bind sequences what its sides
read, the longest left side first, and an alternation chooses the first branch
that reads the word. In the same way its shape says which words keep it alive.
-/

namespace Eo9.Eosh

open Eo9.Library

variable {Nt : Type → Type} {α β : Type} [Productions Nt]

open Productions (build)

namespace Parser

/-- The value read from a word that is followed by `i`. -/
def run (p : Parser Nt α) : Reader UInt8 Input α := fun w i =>
  (p.feedBytes w).bind fun q => q.valueAt i

/-- Whether the parser takes all of a word. -/
def Lives (p : Parser Nt α) (w : Str) : Prop := (p.feedBytes w).isSome = true

@[simp] theorem feedBytes_nil (p : Parser Nt α) : p.feedBytes [] = some p := rfl

theorem feedBytes_cons (p : Parser Nt α) (b : UInt8) (w : Str) :
    p.feedBytes (b :: w) = (p.nextAt (.ofByte b)).bind fun q => q.feedBytes w := rfl

theorem feedBytes_append (p : Parser Nt α) (u w : Str) :
    p.feedBytes (u ++ w) = (p.feedBytes u).bind fun q => q.feedBytes w := by
  induction u generalizing p with
  | nil => rfl
  | cons b u ih =>
    rw [List.cons_append, feedBytes_cons, feedBytes_cons, Option.bind_assoc]
    exact congrArg _ (funext fun q => ih q)

@[simp] theorem run_nil (p : Parser Nt α) (i : Input) : p.run [] i = p.valueAt i := rfl

/-- A parser that takes an input reads nothing from the empty word. -/
theorem run_nil_of_consumes {p : Parser Nt α} (h : p.Consumes) (i : Input) : p.run [] i = none := by
  rw [run_nil, valueAt]
  cases hr : p.step i with
  | none => rfl
  | some r => exact value_of_consumes callStep h hr

theorem run_cons (p : Parser Nt α) (b : UInt8) (w : Str) (i : Input) :
    p.run (b :: w) i = (p.nextAt (.ofByte b)).bind fun q => q.run w i := by
  rw [run, feedBytes_cons, Option.bind_assoc]
  rfl

/-- Reading goes on from the state that a first part leads to. -/
theorem run_append {p q : Parser Nt α} {u : Str} (h : p.feedBytes u = some q) (w : Str)
    (i : Input) : p.run (u ++ w) i = q.run w i := by
  rw [run, feedBytes_append, h]
  rfl

theorem lives_nil (p : Parser Nt α) : p.Lives [] := rfl

theorem lives_cons {p : Parser Nt α} {b : UInt8} {w : Str} :
    p.Lives (b :: w) ↔ ∃ q, p.nextAt (.ofByte b) = some q ∧ q.Lives w := by
  rw [Lives, feedBytes_cons]
  cases p.nextAt (.ofByte b) <;> simp [Lives]

theorem findSome?_filterMap {γ δ ε : Type*} (f : γ → Option δ) (g : δ → Option ε) (l : List γ) :
    (l.filterMap f).findSome? g = l.findSome? fun x => (f x).bind g := by
  rw [← List.head?_filterMap, ← List.head?_filterMap, List.filterMap_filterMap]

/-- An alternation reads what its first branch to read the word reads. -/
theorem run_alt (ps : List (Parser Nt α)) (w : Str) (i : Input) :
    (alt ps).run w i = Reader.choice (ps.map run) w i := by
  rw [Reader.choice, List.findSome?_map]
  induction w generalizing ps with
  | nil => simp [Function.comp_def]
  | cons b w ih =>
    rw [run_cons, nextAt_alt]
    have hsome : ∀ qs : List (Parser Nt α),
        (alive qs).bind (fun q => q.run w i) = qs.findSome? fun q => q.run w i := by
      intro qs
      cases qs with
      | nil => rfl
      | cons q qs => exact ih (q :: qs)
    rw [hsome, findSome?_filterMap]
    exact congrFun (congrArg _ (funext fun p => (run_cons p b w i).symm)) ps

theorem run_alive (ps : List (Parser Nt α)) (w : Str) (i : Input) :
    (alive ps).bind (fun q => q.run w i) = ps.findSome? fun q => q.run w i := by
  cases ps with
  | nil => rfl
  | cons p ps =>
    change (alt (p :: ps)).run w i = _
    rw [run_alt, Reader.choice, List.findSome?_map]
    rfl

theorem run_oneOf (bs : Branches Nt α) (w : Str) (i : Input) :
    (oneOf bs).run w i = Reader.choice (bs.toList.map run) w i := by
  rw [Reader.choice, List.findSome?_map]
  cases w with
  | nil =>
    rw [run_nil, valueAt_oneOf]
    rfl
  | cons b w =>
    rw [run_cons, nextAt_oneOf, run_alive, findSome?_filterMap]
    exact congrFun (congrArg _ (funext fun p => (run_cons p b w i).symm)) bs.toList

/-- An alternation lives as long as one of its branches does. -/
theorem lives_alt {ps : List (Parser Nt α)} {w : Str} (hw : w ≠ []) :
    (alt ps).Lives w ↔ ∃ p ∈ ps, p.Lives w := by
  cases w with
  | nil => exact absurd rfl hw
  | cons b w =>
    clear hw
    induction w generalizing b ps with
    | nil =>
      simp only [lives_cons, nextAt_alt, lives_nil, and_true]
      cases hps : ps.filterMap fun p => p.nextAt (.ofByte b) with
      | nil =>
        have hnone := List.filterMap_eq_nil_iff.mp hps
        constructor
        · rintro ⟨q, hq⟩
          cases hq
        · rintro ⟨p, hp, q, hq⟩
          rw [hnone p hp] at hq
          cases hq
      | cons q qs =>
        have hmem : q ∈ ps.filterMap fun p => p.nextAt (.ofByte b) := by rw [hps]; simp
        obtain ⟨p, hp, hq⟩ := List.mem_filterMap.mp hmem
        exact ⟨fun _ => ⟨p, hp, q, hq⟩, fun _ => ⟨_, rfl⟩⟩
    | cons c w ih =>
      rw [lives_cons, nextAt_alt]
      constructor
      · rintro ⟨q, hq, hl⟩
        cases hps : ps.filterMap fun p => p.nextAt (.ofByte b) with
        | nil =>
          rw [hps] at hq
          cases hq
        | cons r rs =>
          rw [hps] at hq
          cases hq
          obtain ⟨r', hr', hl⟩ := (ih c).mp hl
          rw [← hps] at hr'
          obtain ⟨p, hp, hr⟩ := List.mem_filterMap.mp hr'
          exact ⟨p, hp, lives_cons.mpr ⟨r', hr, hl⟩⟩
      · rintro ⟨p, hp, hl⟩
        obtain ⟨q, hq, hl⟩ := lives_cons.mp hl
        have hmem : q ∈ ps.filterMap fun p => p.nextAt (.ofByte b) :=
          List.mem_filterMap.mpr ⟨p, hp, hq⟩
        cases hps : ps.filterMap fun p => p.nextAt (.ofByte b) with
        | nil =>
          rw [hps] at hmem
          cases hmem
        | cons r rs =>
          rw [hps] at hmem
          exact ⟨_, rfl, (ih c).mpr ⟨q, hmem, hl⟩⟩

theorem run_pure (v : α) (w : Str) (i : Input) :
    (pure v : Parser Nt α).run w i = if w = [] then some v else none := by
  cases w <;> rfl

theorem run_map (p : Parser Nt α) (f : α → β) (w : Str) (i : Input) :
    (p.map f).run w i = (p.run w i).map f := by
  induction w generalizing p with
  | nil => exact valueAt_map p f i
  | cons b w ih =>
    rw [run_cons, run_cons, nextAt_map, Option.bind_map, Option.map_bind]
    exact congrArg _ (funext fun q => ih q)

theorem run_bound (p : Parser Nt α) (w : Str) (i : Input) : p.bound.run w i = p.run w i := by
  induction w generalizing p with
  | nil => exact valueAt_bound p i
  | cons b w ih =>
    rw [run_cons, run_cons, nextAt_bound, Option.bind_map]
    exact congrArg _ (funext fun q => ih q)

theorem run_lazy (n : Nt α) (w : Str) (i : Input) :
    (lazy n : Parser Nt α).run w i = (build n).run w i := by
  cases w with
  | nil => exact valueAt_lazy n i
  | cons b w => rw [run_cons, run_cons, nextAt_lazy]

/-- A bind reads a split of the word, with the longest left side. -/
theorem run_bind (p : Parser Nt α) (f : α → Parser Nt β) (w : Str) (i : Input) :
    (p.bind f).run w i = Reader.seq Input.ofByte p.run (fun a => (f a).run) w i := by
  induction w generalizing p with
  | nil => exact valueAt_bind p f i
  | cons b w ih =>
    rw [run_cons, nextAt_bind, run_alive, List.findSome?_append]
    have hleft : (((p.nextAt (.ofByte b)).map fun q => q.bind f).toList.findSome?
        fun q => q.run w i) =
        Reader.seq Input.ofByte (fun u => p.run (b :: u)) (fun a => (f a).run) w i := by
      have hrun : (fun u => p.run (b :: u)) =
          fun u j => (p.nextAt (.ofByte b)).bind fun q => q.run u j :=
        funext fun u => funext fun j => run_cons p b u j
      rw [hrun]
      cases p.nextAt (.ofByte b) with
      | none => exact (Reader.seq_eq_none.mpr (by rintro v ⟨u, t, a, -, ha, -⟩; cases ha)).symm
      | some q =>
        change List.findSome? _ [_] = _
        rw [List.findSome?_singleton]
        exact ih q
    have hright : ((((p.valueAt (.ofByte b)).bind fun a => (f a).nextAt (.ofByte b)).map
        bound).toList.findSome? fun q => q.run w i) =
        (p.run [] (.ofByte b)).bind fun a => (f a).run (b :: w) i := by
      rw [run_nil]
      cases p.valueAt (.ofByte b) with
      | none => rfl
      | some a =>
        change _ = (f a).run (b :: w) i
        rw [run_cons]
        change ((((f a).nextAt (.ofByte b)).map bound).toList.findSome? fun q => q.run w i) = _
        cases (f a).nextAt (.ofByte b) with
        | none => rfl
        | some r =>
          change List.findSome? _ [_] = _
          rw [List.findSome?_singleton]
          exact run_bound r w i
    rw [hleft, hright]
    rfl

/-- The right side of a sequence reads what the left side leaves. -/
theorem run_keepRight (first : Parser Nt Unit) (second : Parser Nt α) (w : Str) (i : Input) :
    (keepRight first second).run w i =
      Reader.seq Input.ofByte first.run (fun _ => second.run) w i :=
  run_bind first (fun _ => second) w i

theorem lives_map (p : Parser Nt α) (f : α → β) (w : Str) : (p.map f).Lives w ↔ p.Lives w := by
  induction w generalizing p with
  | nil => exact Iff.rfl
  | cons b w ih => simp [lives_cons, nextAt_map, ih]

theorem lives_bound (p : Parser Nt α) (w : Str) : p.bound.Lives w ↔ p.Lives w := by
  induction w generalizing p with
  | nil => exact Iff.rfl
  | cons b w ih => simp [lives_cons, nextAt_bound, ih]

theorem lives_lazy (n : Nt α) (w : Str) :
    (lazy n : Parser Nt α).Lives w ↔ (build n).Lives w := by
  cases w with
  | nil => exact Iff.rfl
  | cons b w => simp [lives_cons]

/-- What keeps the alternation of some states alive. -/
theorem lives_alive {ps : List (Parser Nt α)} {w : Str} :
    (∃ q, alive ps = some q ∧ q.Lives w) ↔ ∃ p ∈ ps, p.Lives w := by
  cases ps with
  | nil => simp [alive]
  | cons p ps =>
    cases w with
    | nil =>
      constructor
      · exact fun _ => ⟨p, List.mem_cons_self, lives_nil p⟩
      · exact fun _ => ⟨_, rfl, lives_nil _⟩
    | cons b w =>
      constructor
      · rintro ⟨q, hq, hl⟩
        cases hq
        exact (lives_alt (List.cons_ne_nil b w)).mp hl
      · exact fun h => ⟨_, rfl, (lives_alt (List.cons_ne_nil b w)).mpr h⟩

/-- A bind lives in its left side, or in the right side after a split. -/
theorem lives_bind (p : Parser Nt α) (f : α → Parser Nt β) (w : Str) :
    (p.bind f).Lives w ↔
      p.Lives w ∨ ∃ u b t a, w = u ++ b :: t ∧ p.run u (.ofByte b) = some a ∧
        (f a).Lives (b :: t) := by
  induction w generalizing p with
  | nil =>
    constructor
    · exact fun _ => Or.inl (lives_nil p)
    · exact fun _ => lives_nil _
  | cons c w ih =>
    rw [lives_cons, nextAt_bind, lives_alive]
    constructor
    · rintro ⟨q, hq, hl⟩
      rcases List.mem_append.mp hq with hq | hq
      · obtain ⟨p', hp', rfl⟩ := Option.map_eq_some_iff.mp (Option.mem_toList.mp hq)
        rcases (ih p').mp hl with hl | ⟨u, b, t, a, rfl, ha, hl⟩
        · exact Or.inl (lives_cons.mpr ⟨p', hp', hl⟩)
        · exact Or.inr ⟨c :: u, b, t, a, rfl, by rw [run_cons, hp']; exact ha, hl⟩
      · obtain ⟨r, hr, rfl⟩ := Option.map_eq_some_iff.mp (Option.mem_toList.mp hq)
        obtain ⟨a, ha, hr⟩ := Option.bind_eq_some_iff.mp hr
        exact Or.inr ⟨[], c, w, a, rfl, ha, lives_cons.mpr ⟨r, hr, (lives_bound r w).mp hl⟩⟩
    · rintro (hl | ⟨u, b, t, a, hw, ha, hl⟩)
      · obtain ⟨p', hp', hl⟩ := lives_cons.mp hl
        exact ⟨p'.bind f, List.mem_append_left _ (by rw [hp']; exact List.mem_singleton_self _),
          (ih p').mpr (Or.inl hl)⟩
      · cases u with
        | nil =>
          obtain ⟨rfl, rfl⟩ := List.cons.inj hw
          obtain ⟨r, hr, hl⟩ := lives_cons.mp hl
          refine ⟨r.bound, List.mem_append_right _ ?_, (lives_bound r w).mpr hl⟩
          rw [show p.valueAt (.ofByte c) = some a from ha, Option.bind_some, hr]
          exact List.mem_singleton_self _
        | cons d u =>
          obtain ⟨rfl, rfl⟩ := List.cons.inj hw
          rw [run_cons] at ha
          obtain ⟨p', hp', ha⟩ := Option.bind_eq_some_iff.mp ha
          refine ⟨p'.bind f, List.mem_append_left _ ?_,
            (ih p').mpr (Or.inr ⟨u, b, t, a, rfl, ha, hl⟩)⟩
          rw [hp']
          exact List.mem_singleton_self _

end Parser

end Eo9.Eosh
