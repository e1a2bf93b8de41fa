import Eo9.Eosh.Meaning

/-!
# What a state admits

`admissible` is computed from the shape of a state, `step` by running it. They
agree on a state whose binds do not look ahead: whatever input the left side of
a bind finishes on, the right side it finishes into takes the same inputs next.
Such a state is tame, and what it steps to is tame again.
-/

namespace Eo9.Eosh

open Eo9.Library

variable {Nt : Type → Type} {α β : Type}

open Productions (build)

theorem Leaf.hardRequired_of_consumes {l : Leaf α} (h : l.Consumes) :
    l.admissible.hardRequired = true := by
  cases l with
  | fail => rfl
  | lit rest =>
    cases rest with
    | nil => exact absurd rfl h
    | cons b rest => rfl
  | kw word pos tag =>
    simp only [Leaf.admissible, Kw.admissible]
    rw [List.getElem?_eq_getElem (h : pos < word.length)]
  | overlay alive pos => rfl
  | capWord word bytes =>
    simp only [Leaf.Consumes] at h
    simp [Leaf.admissible, Word.admissibleCore, Word.finishable, h]
  | capQuoted state text => cases state <;> first | rfl | exact absurd rfl h
  | capCompound state text => cases state <;> first | rfl | exact absurd rfl h
  | ws => exact absurd h id
  | commentRest => exact absurd h id

theorem Branches.hardRequired_of_consumes {call : CallStep Nt} {ask : CallAsk Nt Admissible}
    {adm : Admissible} : ∀ {bs : Branches Nt α} {acc : Option Admissible},
    (∀ p ∈ bs.toList, ∀ a, p.admissibleWith call ask = .ok a → a.hardRequired = true) →
    (∀ a, acc = some a → a.hardRequired = true) →
    bs.admissibleWith call ask acc = .ok adm → adm.hardRequired = true
  | .nil, none, _, _, h => by cases h
  | .nil, some a, _, hacc, h => by
    cases h
    exact hacc adm rfl
  | .cons p rest, acc, hall, hacc, h => by
    rw [Branches.admissibleWith] at h
    cases hp : p.admissibleWith call ask with
    | error e =>
      rw [hp] at h
      cases h
    | ok a =>
      rw [hp] at h
      have ha := hall p List.mem_cons_self a hp
      refine hardRequired_of_consumes
        (fun q hq => hall q (List.mem_cons_of_mem p hq)) ?_ h
      intro a' ha'
      cases acc with
      | none =>
        cases ha'
        exact ha
      | some b =>
        cases ha'
        exact Bool.and_eq_true_iff.mpr ⟨hacc b rfl, ha⟩

namespace Parser

/-- A parser that takes an input before it finishes requires one. -/
theorem hardRequired_of_consumes {call : CallStep Nt} {ask : CallAsk Nt Admissible}
    {p : Parser Nt α} (h : p.Consumes) {adm : Admissible}
    (hadm : p.admissibleWith call ask = .ok adm) : adm.hardRequired = true := by
  induction p using Parser.induct generalizing adm with
  | pure v => exact absurd h id
  | map p f ih => exact ih h hadm
  | bind p f ihp ihf =>
    rw [admissibleWith] at hadm
    cases hp : p.admissibleWith call ask with
    | error e =>
      rw [hp] at hadm
      cases hadm
    | ok p1e =>
      rw [hp] at hadm
      change (if p1e.hardRequired = true then _ else _) = _ at hadm
      split_ifs at hadm with hard
      · cases hadm
        exact hard
      · have hf := h.resolve_left fun hc => hard (ihp hc hp)
        split at hadm
        · cases hadm
        · split at hadm
          · cases hadm
          · rename_i v rej _
            split_ifs at hadm
            cases hv : (f v).admissibleWith call ask with
            | error e =>
              rw [hv] at hadm
              cases hadm
            | ok p2e =>
              rw [hv] at hadm
              cases hadm
              have hright := ihf v (hf v) hv
              exact hright
  | bound p ih => exact ih h hadm
  | oneOf bs ih =>
    exact Branches.hardRequired_of_consumes
      (fun p hp a ha => ih p hp ((Branches.consumes_iff bs).mp h p hp) ha)
      (fun _ h => by cases h) hadm
  | lazy n => exact absurd h id
  | leaf l =>
    cases hadm
    exact Leaf.hardRequired_of_consumes h

end Parser

theorem Branches.admissibleWith_congr {call : CallStep Nt} {ask ask' : CallAsk Nt Admissible} :
    ∀ {bs : Branches Nt α} {acc : Option Admissible},
    (∀ p ∈ bs.toList, p.admissibleWith call ask = p.admissibleWith call ask') →
    bs.admissibleWith call ask acc = bs.admissibleWith call ask' acc
  | .nil, none, _ => rfl
  | .nil, some _, _ => rfl
  | .cons p rest, acc, h => by
    rw [Branches.admissibleWith, Branches.admissibleWith, h p List.mem_cons_self]
    exact congrArg _ (funext fun a =>
      admissibleWith_congr fun q hq => h q (List.mem_cons_of_mem p hq))

theorem Branches.completionsWith_congr {call : CallStep Nt} {askAdm askAdm' : CallAsk Nt Admissible}
    {ask ask' : CallAsk Nt (List Completion)} : ∀ {bs : Branches Nt α},
    (∀ p ∈ bs.toList, p.completionsWith call askAdm ask = p.completionsWith call askAdm' ask') →
    bs.completionsWith call askAdm ask = bs.completionsWith call askAdm' ask'
  | .nil, _ => rfl
  | .cons p rest, h => by
    rw [Branches.completionsWith, Branches.completionsWith, h p List.mem_cons_self,
      completionsWith_congr fun q hq => h q (List.mem_cons_of_mem p hq)]

namespace Parser

/-- A guarded parser asks no reference what it admits. -/
theorem admissibleWith_of_guarded (call : CallStep Nt) (ask ask' : CallAsk Nt Admissible)
    {p : Parser Nt α} (h : p.Guarded) : p.admissibleWith call ask = p.admissibleWith call ask' := by
  induction p using Parser.induct with
  | pure v => rfl
  | map p f ih => exact ih h
  | bind p f ihp ihf =>
    rw [admissibleWith, admissibleWith, ihp h.1]
    cases hp : p.admissibleWith call ask' with
    | error e => rfl
    | ok p1e =>
      change (if p1e.hardRequired = true then _ else _) =
        if p1e.hardRequired = true then _ else _
      rcases h.2 with hc | hg
      · rw [if_pos (hardRequired_of_consumes hc hp), if_pos (hardRequired_of_consumes hc hp)]
      · simp only [fun v => ihf v (hg v)]
  | bound p ih => exact ih h
  | oneOf bs ih =>
    exact Branches.admissibleWith_congr fun p hp => ih p hp ((Branches.guarded_iff bs).mp h p hp)
  | lazy n => exact absurd h id
  | leaf l => rfl

/-- A guarded parser asks no reference what it offers. -/
theorem completionsWith_of_guarded (call : CallStep Nt) (askAdm askAdm' : CallAsk Nt Admissible)
    (ask ask' : CallAsk Nt (List Completion)) {p : Parser Nt α} (h : p.Guarded) :
    p.completionsWith call askAdm ask = p.completionsWith call askAdm' ask' := by
  induction p using Parser.induct with
  | pure v => rfl
  | map p f ih => exact ih h
  | bind p f ihp ihf =>
    rw [completionsWith, completionsWith, ihp h.1,
      admissibleWith_of_guarded call askAdm askAdm' h.1]
    cases p.completionsWith call askAdm' ask' with
    | error e => rfl
    | ok left =>
      cases hp : p.admissibleWith call askAdm' with
      | error e => rfl
      | ok p1e =>
        change (if p1e.hardRequired = true then _ else _) =
          if p1e.hardRequired = true then _ else _
        rcases h.2 with hc | hg
        · rw [if_pos (hardRequired_of_consumes hc hp),
            if_pos (hardRequired_of_consumes hc hp)]
        · simp only [fun v => ihf v (hg v)]
  | bound p ih => exact ih h
  | oneOf bs ih =>
    exact Branches.completionsWith_congr fun p hp => ih p hp ((Branches.guarded_iff bs).mp h p hp)
  | lazy n => exact absurd h id
  | leaf l => rfl

variable [Productions Nt]

theorem admissible_lazy (n : Nt α) :
    (lazy n : Parser Nt α).admissible = (build n).admissible :=
  admissibleWith_of_guarded callStep _ _ (Productions.guarded n)

theorem completions_lazy (n : Nt α) :
    (lazy n : Parser Nt α).completions = (build n).completions :=
  completionsWith_of_guarded callStep _ _ _ _ (Productions.guarded n)

/-- What `adm` says of the next input, when `next` holds of the inputs that are
taken and `value` of those that the state finishes on. -/
structure Describes (adm : Admissible) (next value : Input → Bool) : Prop where
  charset : ∀ b, adm.charset.contains b = next (.byte b)
  hardRequired : adm.hardRequired = !value .eof
  nonAsciiOk : ∀ b, adm.nonAsciiOk = next (.text b)
  eof : next .eof = false
  early : ∀ i, value i = true → value .eof = true
  text : ∀ b c, value (.text b) = value (.text c)

theorem Describes.either {a b : Admissible} {n n' v v' : Input → Bool} (h : Describes a n v)
    (h' : Describes b n' v') : Describes (a.either b) (fun i => n i || n' i) fun i => v i || v' i := by
  constructor
  · intro c
    rw [Admissible.either, Charset.contains_union, h.charset, h'.charset]
  · rw [Admissible.either, h.hardRequired, h'.hardRequired, Bool.not_or]
  · intro c
    rw [Admissible.either, h.nonAsciiOk c, h'.nonAsciiOk c]
  · rw [h.eof, h'.eof]
    rfl
  · intro i hi
    rcases Bool.or_eq_true_iff.mp hi with hi | hi
    · rw [h.early i hi]
      rfl
    · rw [h'.early i hi, Bool.or_true]
  · intro c d
    rw [h.text c d, h'.text c d]

/-- What a state admits is what it does. -/
abbrev Exact (p : Parser Nt α) (adm : Admissible) : Prop :=
  Describes adm (fun i => (p.nextAt i).isSome) fun i => (p.valueAt i).isSome

/-- The two parsers treat the next input alike. -/
structure Alike (p q : Parser Nt α) : Prop where
  next : ∀ i, (p.nextAt i).isSome = (q.nextAt i).isSome
  value : ∀ i, (p.valueAt i).isSome = (q.valueAt i).isSome

/-- A state that does not require an input finishes at the end of the line. -/
theorem Exact.valueAt_eof {p : Parser Nt α} {adm : Admissible} (h : Exact p adm) :
    adm.hardRequired = false ↔ ∃ v, p.valueAt .eof = some v := by
  rw [h.hardRequired, Bool.not_eq_false', Option.isSome_iff_exists]

omit [Productions Nt] in
theorem isSome_alive (ps : List (Parser Nt α)) : (alive ps).isSome = !ps.isEmpty := by
  cases ps <;> rfl

theorem isSome_nextAt_bind (p : Parser Nt α) (f : α → Parser Nt β) (i : Input) :
    ((p.bind f).nextAt i).isSome =
      ((p.nextAt i).isSome || ((p.valueAt i).bind fun a => (f a).nextAt i).isSome) := by
  rw [nextAt_bind, isSome_alive]
  cases p.nextAt i <;> cases (p.valueAt i).bind fun a => (f a).nextAt i <;> rfl

theorem isSome_nextAt_oneOf (bs : Branches Nt α) (i : Input) :
    ((oneOf bs).nextAt i).isSome = bs.toList.any fun p => (p.nextAt i).isSome := by
  rw [nextAt_oneOf, isSome_alive, Bool.eq_iff_iff]
  simp [List.filterMap_eq_nil_iff, Option.isSome_iff_ne_none]

theorem isSome_valueAt_oneOf (bs : Branches Nt α) (i : Input) :
    ((oneOf bs).valueAt i).isSome = bs.toList.any fun p => (p.valueAt i).isSome := by
  rw [valueAt_oneOf, Bool.eq_iff_iff, List.findSome?_isSome_iff]
  simp

theorem finishes_step (p : Parser Nt α) (i : Input) :
    finishes (p.stepWith callStep i) = (p.valueAt i).isSome := by
  rw [valueAt, step]
  cases p.stepWith callStep i with
  | none => rfl
  | some r => cases r <;> rfl

/-- A byte is in the joint set when it is in the left one, or in the right one
and the left side finishes on it. -/
theorem contains_foldl_probe (probe : Input → Bool) (bs : List Ascii) (cs : Charset) (b : Ascii) :
    (bs.foldl (fun cs b => if cs.contains b then cs else if probe (.byte b) then cs.add b else cs)
      cs).contains b = (cs.contains b || (decide (b ∈ bs) && probe (.byte b))) := by
  induction bs generalizing cs with
  | nil => simp
  | cons c bs ih =>
    rw [List.foldl_cons, ih]
    cases hc : cs.contains c with
    | true =>
      simp only [if_true, List.mem_cons]
      by_cases hbc : b = c
      · subst hbc
        simp [hc]
      · simp [hbc]
    | false =>
      simp only [Bool.false_eq_true, if_false]
      cases hp : probe (.byte c) with
      | true =>
        simp only [if_true, Charset.contains_add, List.mem_cons]
        by_cases hbc : b = c
        · subst hbc
          simp [hp]
        · simp [hbc]
      | false =>
        simp only [Bool.false_eq_true, if_false, List.mem_cons]
        by_cases hbc : b = c
        · subst hbc
          simp [hp]
        · simp [hbc]

/-- A bind whose left side cannot finish yet admits what its left side does. -/
theorem Exact.bind_hard {p : Parser Nt α} {f : α → Parser Nt β} {adm : Admissible}
    (h : Exact p adm) (hard : adm.hardRequired = true) : Exact (p.bind f) adm := by
  have hnone : ∀ i, p.valueAt i = none := by
    have heof : p.valueAt .eof = none := by
      rw [h.hardRequired, Bool.not_eq_true', Option.isSome_eq_false_iff] at hard
      exact Option.isNone_iff_eq_none.mp hard
    intro i
    apply Option.not_isSome_iff_eq_none.mp
    intro hi
    have hearly := h.early i hi
    rw [heof] at hearly
    cases hearly
  constructor
  · intro b
    rw [isSome_nextAt_bind, hnone, h.charset]
    simp
  · rw [valueAt_bind, hnone, hard]
    rfl
  · intro b
    rw [isSome_nextAt_bind, hnone, h.nonAsciiOk b]
    simp
  · rw [isSome_nextAt_bind, hnone, h.eof]
    rfl
  · intro i hi
    rw [valueAt_bind, hnone] at hi
    cases hi
  · intro b c
    rw [valueAt_bind, valueAt_bind, hnone, hnone]
    rfl

/-- A bind whose left side can finish admits what either side does, when what
the left side finishes on does not matter to the right side. -/
theorem Exact.bind_soft {p : Parser Nt α} {f : α → Parser Nt β} {p1e p2e : Admissible} {a : α}
    (h : Exact p p1e) (ha : p.valueAt .eof = some a) (hf : Exact (f a) p2e)
    (halike : ∀ i a', p.valueAt i = some a' → Alike (f a') (f a)) :
    Exact (p.bind f)
      (bindAdmissible p1e p2e fun i => finishes (p.stepWith callStep i)) := by
  have hvalue : ∀ i, ((p.bind f).valueAt i).isSome =
      ((p.valueAt i).isSome && ((f a).valueAt i).isSome) := by
    intro i
    rw [valueAt_bind]
    cases hi : p.valueAt i with
    | none => rfl
    | some a' => exact (halike i a' hi).value i
  have hnext : ∀ i, ((p.bind f).nextAt i).isSome =
      ((p.nextAt i).isSome || (((f a).nextAt i).isSome && (p.valueAt i).isSome)) := by
    intro i
    rw [isSome_nextAt_bind]
    cases hi : p.valueAt i with
    | none => simp
    | some a' => simp [(halike i a' hi).next i]
  constructor
  · intro b
    rw [hnext, ← h.charset, ← hf.charset, ← finishes_step]
    refine (contains_foldl_probe (fun i => finishes (p.stepWith callStep i)) _ _ b).trans ?_
    simp
  · rw [valueAt_bind, ha, bindAdmissible, hf.hardRequired]
    rfl
  · intro b
    rw [hnext, bindAdmissible, finishes_step, h.nonAsciiOk b, hf.nonAsciiOk b, h.text 0x80 b]
  · rw [hnext, h.eof, hf.eof]
    rfl
  · intro i hi
    rw [hvalue, Bool.and_eq_true] at hi
    rw [hvalue, hf.early i hi.2, ha]
    rfl
  · intro b c
    rw [hvalue, hvalue, h.text b c, hf.text b c]

end Parser

end Eo9.Eosh
