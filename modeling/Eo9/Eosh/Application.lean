import Eo9.Eosh.Eval

/-!
# Applied arguments

What the arguments of an application should do, stated over the parameters that have an
argument already: a flag fills its own parameter, a positional argument the first open
one, and what is left over goes to the variadic tail. The evaluator does this with the
data arguments of an inner application and forgets its component arguments, so an outer
application can bind such a parameter a second time.
-/

namespace Eo9.Eosh

open Eo9.Library

/-- A list of strings is no component. -/
theorem not_component_of_isStringList {ty : Str} (h : isStringList ty = true) :
    isComponentType ty = false := by
  rw [isStringList] at h
  cases hopened : (stripPrefix (ascii "list<") (trim ty)).bind (stripSuffix (ascii ">")) with
  | none =>
    rw [hopened] at h
    cases h
  | some inner =>
    obtain ⟨rest, hrest, hinner⟩ := Option.bind_eq_some_iff.mp hopened
    have htrim : trim ty = ascii "list<" ++ inner ++ ascii ">" := by
      rw [stripPrefix_eq_some hrest, stripSuffix_eq_some hinner, List.append_assoc]
    have hlead : ∀ {lead : Str}, lead.head? = some (ch 'b') ∨ lead.head? = some (ch 'o') →
        stripPrefix lead (trim ty) = none := by
      intro lead hlead
      cases hstrip : stripPrefix lead (trim ty) with
      | none => rfl
      | some rest =>
        have heq := stripPrefix_eq_some hstrip
        rw [htrim] at heq
        cases lead with
        | nil => rcases hlead with h | h <;> cases h
        | cons b lead =>
          have hb : ch 'l' = b := (List.cons.inj heq).1
          subst hb
          rcases hlead with h | h <;> exact absurd (Option.some.inj h) (by decide)
    have hlast : ∀ {tail : Str}, tail.getLast? = some (ch 't') →
        ¬ tail <:+ trim ty := by
      rintro tail htail ⟨front, heq⟩
      have hends := congrArg List.getLast? heq
      rw [htrim, List.getLast?_append, htail] at hends
      rw [List.getLast?_append] at hends
      exact absurd (Option.some.inj hends) (by decide)
    have hborrow : stripPrefix (ascii "borrow<") (trim ty) = none := hlead (Or.inl rfl)
    have hown : stripPrefix (ascii "own<") (trim ty) = none := hlead (Or.inr rfl)
    have hname : ¬ ascii "component" <:+ trim ty := hlast rfl
    have hslash : ¬ ascii "/component" <:+ trim ty := hlast rfl
    have hdot : ¬ ascii ".component" <:+ trim ty := hlast rfl
    rw [← List.isSuffixOf_iff_suffix, Bool.not_eq_true] at hslash hdot
    have hne : trim ty ≠ ascii "component" := by
      intro heq
      rw [heq] at hname
      exact hname (List.suffix_refl _)
    simp [isComponentType, hborrow, hown, hne, hslash, hdot]

/-! ## Matching -/

/-- The text of a value that is no expression. -/
def ArgValue.text : ArgValue → Option Str
  | .word text => some text
  | .quoted text => some text
  | .expr _ => none

namespace Signature

variable (sig : Signature)

/-- The first declared parameter that has no argument, the tail apart. -/
def nextOpen (bound : List Str) : Option ArgSpec :=
  sig.specs.find? fun spec => some spec.name != variadic sig.specs && !bound.contains spec.name

/-- What the arguments fill and what is left over, where `bound` have an argument. -/
inductive Matching : List Str → List Arg → List (ArgSpec × ArgValue) → List Str → Prop where
  | nil {bound : List Str} : Matching bound [] [] []
  | flag {bound : List Str} {spec : ArgSpec} {value : ArgValue} {args : List Arg}
      {fills : List (ArgSpec × ArgValue)} {tail : List Str} (hdeclared : spec ∈ sig.specs)
      (hopen : spec.name ∉ bound) (rest : Matching (spec.name :: bound) args fills tail) :
      Matching bound (.flag spec.name value :: args) ((spec, value) :: fills) tail
  | positional {bound : List Str} {spec : ArgSpec} {value : ArgValue} {args : List Arg}
      {fills : List (ArgSpec × ArgValue)} {tail : List Str} (hnext : sig.nextOpen bound = some spec)
      (rest : Matching (spec.name :: bound) args fills tail) :
      Matching bound (.positional value :: args) ((spec, value) :: fills) tail
  | leftOver {bound : List Str} {value : ArgValue} {text : Str} {args : List Arg}
      {fills : List (ArgSpec × ArgValue)} {tail : List Str} (hnext : sig.nextOpen bound = none)
      (hvariadic : (variadic sig.specs).isSome = true) (htext : value.text = some text)
      (rest : Matching bound args fills tail) :
      Matching bound (.positional value :: args) fills (text :: tail)

/-! ## What arguments take, read off the signature -/

/-- The names of the flags. -/
def flagNames : List Arg → List Str
  | [] => []
  | .flag name _ :: args => name :: flagNames args
  | .positional _ :: args => flagNames args

/-- How many arguments are positional. -/
def positionals : List Arg → ℕ
  | [] => 0
  | .flag _ _ :: args => positionals args
  | .positional _ :: args => positionals args + 1

/-- The declared parameters, in order, that neither `bound` nor a flag gives an argument,
the tail apart. -/
def openNames (bound : List Str) (args : List Arg) : List Str :=
  (sig.specs.map (·.name)).filter fun name =>
    some name != variadic sig.specs && !bound.contains name && !(flagNames args).contains name

/-- The parameters that the arguments take: those of the flags, then as many open ones as
there are positional arguments, and the tail when there are more of these. -/
def taken (bound : List Str) (args : List Arg) : List Str :=
  flagNames args ++ (sig.openNames bound args).take (positionals args) ++
    if (sig.openNames bound args).length < positionals args then (variadic sig.specs).toList
    else []

/-- The parameter of the tail, when something is left over. -/
def tailName (tail : List Str) : List Str :=
  if tail.isEmpty then [] else (variadic sig.specs).toList

variable {sig}

theorem nextOpen_mem {bound : List Str} {spec : ArgSpec} (h : sig.nextOpen bound = some spec) :
    spec ∈ sig.specs ∧ some spec.name ≠ variadic sig.specs ∧ spec.name ∉ bound := by
  have hmem := List.mem_of_find?_eq_some h
  have hprop := List.find?_some h
  simpa [hmem] using hprop

/-- A match takes only parameters without an argument. -/
theorem Matching.fills_open {bound : List Str} {args : List Arg}
    {fills : List (ArgSpec × ArgValue)} {tail : List Str}
    (h : sig.Matching bound args fills tail) :
    (∀ fill ∈ fills, fill.1 ∈ sig.specs ∧ fill.1.name ∉ bound) ∧
      (fills.map (·.1.name)).Nodup := by
  induction h with
  | nil => simp
  | flag hdeclared hopen rest ih =>
    obtain ⟨hfills, hnodup⟩ := ih
    refine ⟨List.forall_mem_cons.mpr ⟨⟨hdeclared, hopen⟩, fun fill hfill => ?_⟩, ?_⟩
    · obtain ⟨hspec, hbound⟩ := hfills fill hfill
      exact ⟨hspec, fun h => hbound (List.mem_cons_of_mem _ h)⟩
    · rw [List.map_cons, List.nodup_cons]
      refine ⟨fun hmem => ?_, hnodup⟩
      obtain ⟨fill, hfill, hname⟩ := List.mem_map.mp hmem
      exact (hfills fill hfill).2 (by rw [hname]; exact List.mem_cons_self)
  | positional hnext rest ih =>
    obtain ⟨hdeclared, -, hopen⟩ := nextOpen_mem hnext
    obtain ⟨hfills, hnodup⟩ := ih
    refine ⟨List.forall_mem_cons.mpr ⟨⟨hdeclared, hopen⟩, fun fill hfill => ?_⟩, ?_⟩
    · obtain ⟨hspec, hbound⟩ := hfills fill hfill
      exact ⟨hspec, fun h => hbound (List.mem_cons_of_mem _ h)⟩
    · rw [List.map_cons, List.nodup_cons]
      refine ⟨fun hmem => ?_, hnodup⟩
      obtain ⟨fill, hfill, hname⟩ := List.mem_map.mp hmem
      exact (hfills fill hfill).2 (by rw [hname]; exact List.mem_cons_self)
  | leftOver hnext hvariadic htext rest ih => exact ih

/-- Every flag fills its parameter. -/
theorem Matching.flags {bound : List Str} {args : List Arg} {fills : List (ArgSpec × ArgValue)}
    {tail : List Str} (h : sig.Matching bound args fills tail) :
    ∀ name ∈ flagNames args, ∃ fill ∈ fills, fill.1.name = name := by
  induction h with
  | nil => exact fun _ hname => absurd hname List.not_mem_nil
  | flag hdeclared hopen rest ih =>
    intro name hname
    rcases List.mem_cons.mp hname with rfl | hname
    · exact ⟨_, List.mem_cons_self, rfl⟩
    · obtain ⟨fill, hfill, hfillName⟩ := ih name hname
      exact ⟨fill, List.mem_cons_of_mem _ hfill, hfillName⟩
  | positional hnext rest ih =>
    intro name hname
    obtain ⟨fill, hfill, hfillName⟩ := ih name hname
    exact ⟨fill, List.mem_cons_of_mem _ hfill, hfillName⟩
  | leftOver hnext hvariadic htext rest ih => exact ih

/-- A flag that is given is as good as an argument that was bound before. -/
theorem openNames_flag (bound : List Str) (name : Str) (value : ArgValue) (args : List Arg) :
    sig.openNames bound (.flag name value :: args) = sig.openNames (name :: bound) args := by
  apply List.filter_congr
  intro n _
  simp only [flagNames, List.contains_cons]
  cases bound.contains n <;> cases (flagNames args).contains n <;> cases n == name <;> simp

/-- The next open parameter is the first of them, unless a later flag names it. -/
theorem openNames_next {bound : List Str} {spec : ArgSpec} {args : List Arg}
    (h : sig.nextOpen bound = some spec) (hflag : spec.name ∉ flagNames args) :
    sig.openNames bound args = spec.name :: sig.openNames (spec.name :: bound) args := by
  obtain ⟨-, hvariadic, hopen⟩ := nextOpen_mem h
  obtain ⟨hprop, before, after, hspecs, hbefore⟩ := List.find?_eq_some_iff_append.mp h
  have hdistinct := sig.distinct
  rw [hspecs, List.map_append, List.map_cons] at hdistinct
  have hskip : ∀ bound' : List Str, (∀ n ∈ bound, n ∈ bound') →
      (before.map (·.name)).filter (fun name => some name != variadic sig.specs &&
        !bound'.contains name && !(flagNames args).contains name) = [] := by
    intro bound' hbound'
    rw [List.filter_eq_nil_iff]
    intro name hname
    obtain ⟨other, hother, rfl⟩ := List.mem_map.mp hname
    have hnot := hbefore other hother
    simp only [Bool.not_eq_true', Bool.and_eq_false_iff, bne_eq_false_iff_eq,
      Bool.not_eq_false', List.contains_iff_mem] at hnot
    rcases hnot with hnot | hnot
    · simp [hnot]
    · simp [hbound' _ hnot]
  rw [openNames, openNames]
  have hmap : sig.specs.map (·.name) = before.map (·.name) ++ spec.name :: after.map (·.name) := by
    rw [hspecs, List.map_append, List.map_cons]
  rw [hmap, List.filter_append, List.filter_append, hskip bound fun _ h => h,
    hskip (spec.name :: bound) fun _ h => List.mem_cons_of_mem _ h, List.nil_append,
    List.nil_append, List.filter_cons_of_pos (by simp [hvariadic, hopen, hflag]),
    List.filter_cons_of_neg (by simp)]
  congr 1
  apply List.filter_congr
  intro name hname
  have hne : name ≠ spec.name := by
    rintro rfl
    exact (List.nodup_cons.mp (List.nodup_append.mp hdistinct).2.1).1 hname
  simp [hne]

theorem openNames_none {bound : List Str} (h : sig.nextOpen bound = none) (args : List Arg) :
    sig.openNames bound args = [] := by
  rw [openNames, List.filter_eq_nil_iff]
  intro name hname
  obtain ⟨spec, hspec, rfl⟩ := List.mem_map.mp hname
  have hnot := List.find?_eq_none.mp h spec hspec
  simp only [Bool.and_eq_true, not_and, Bool.not_eq_true] at hnot ⊢
  intro hopen
  rw [hnot hopen.1] at hopen
  exact absurd hopen.2 (by simp)

/-- What a match takes can be read off the signature. -/
theorem Matching.taken {bound : List Str} {args : List Arg} {fills : List (ArgSpec × ArgValue)}
    {tail : List Str} (h : sig.Matching bound args fills tail) :
    (fills.map (·.1.name)).Perm
        (flagNames args ++ (sig.openNames bound args).take (positionals args)) ∧
      (tail.isEmpty = true ↔ positionals args ≤ (sig.openNames bound args).length) := by
  induction h with
  | nil => exact ⟨by simp [flagNames, positionals], by simp [positionals]⟩
  | flag hdeclared hopen rest ih =>
    rw [openNames_flag]
    exact ⟨ih.1.cons _, ih.2⟩
  | @positional bound spec value args fills tail hnext rest ih =>
    have hflag : spec.name ∉ flagNames args := by
      intro hmem
      obtain ⟨fill, hfill, hname⟩ := rest.flags _ hmem
      exact (rest.fills_open.1 fill hfill).2 (by rw [hname]; exact List.mem_cons_self)
    have hnames : sig.openNames bound (.positional value :: args) =
        spec.name :: sig.openNames (spec.name :: bound) args := openNames_next hnext hflag
    rw [hnames]
    constructor
    · exact (ih.1.cons _).trans List.perm_middle.symm
    · rw [ih.2, positionals, List.length_cons]
      omega
  | @leftOver bound value text args fills tail hnext hvariadic htext rest ih =>
    have hnames : sig.openNames bound (.positional value :: args) = [] := openNames_none hnext _
    rw [hnames]
    rw [openNames_none hnext] at ih
    constructor
    · simpa [flagNames] using ih.1
    · simp [positionals]

end Signature

/-! ## The loop over the arguments -/

/-- The data arguments of a match. -/
def dataArgs (fills : List (ArgSpec × ArgValue)) : List NamedArg :=
  fills.filterMap fun fill =>
    if isComponentType fill.1.ty then none
    else (encodeArgValue fill.1.ty fill.2).map (NamedArg.mk fill.1.name)

/-- The component arguments of a match, still to be evaluated. -/
def componentFills (fills : List (ArgSpec × ArgValue)) : List (Str × ArgValue) :=
  (fills.filter fun fill => isComponentType fill.1.ty).map fun fill => (fill.1.name, fill.2)

/-- The argument of the variadic tail. -/
def Signature.tailArgs (sig : Signature) (tail : List Str) : List NamedArg :=
  (sig.tailName tail).map fun name => ⟨name, stringList tail⟩

/-- A parameter that takes text has been given text. -/
def Encodes (fill : ArgSpec × ArgValue) : Prop :=
  isComponentType fill.1.ty = true ∨ (encodeArgValue fill.1.ty fill.2).isSome = true

theorem dataArgs_cons (fill : ArgSpec × ArgValue) (fills : List (ArgSpec × ArgValue)) :
    dataArgs (fill :: fills) = dataArgs [fill] ++ dataArgs fills := by
  rw [dataArgs, dataArgs, dataArgs, ← List.filterMap_append, List.singleton_append]

theorem componentFills_cons (fill : ArgSpec × ArgValue) (fills : List (ArgSpec × ArgValue)) :
    componentFills (fill :: fills) = componentFills [fill] ++ componentFills fills := by
  rw [componentFills, componentFills, componentFills, ← List.map_append, ← List.filter_append,
    List.singleton_append]

/-- Every fill is a data argument or a component argument. -/
theorem perm_fills {fills : List (ArgSpec × ArgValue)} (h : ∀ fill ∈ fills, Encodes fill) :
    ((dataArgs fills).map (·.name) ++ (componentFills fills).map (·.1)).Perm
      (fills.map (·.1.name)) := by
  induction fills with
  | nil => exact .nil
  | cons fill fills ih =>
    obtain ⟨hfill, hfills⟩ := List.forall_mem_cons.mp h
    rw [dataArgs_cons, componentFills_cons, List.map_append, List.map_append, List.map_cons]
    by_cases hcomponent : isComponentType fill.1.ty = true
    · have hdata : dataArgs [fill] = [] := by simp [dataArgs, hcomponent]
      have hcomp : componentFills [fill] = [(fill.1.name, fill.2)] := by
        simp [componentFills, hcomponent]
      rw [hdata, hcomp]
      exact List.perm_middle.trans ((ih hfills).cons _)
    · obtain ⟨encoded, hencoded⟩ :=
        Option.isSome_iff_exists.mp (hfill.resolve_left hcomponent)
      have hdata : dataArgs [fill] = [⟨fill.1.name, encoded⟩] := by
        simp [dataArgs, hcomponent, hencoded]
      have hcomp : componentFills [fill] = [] := by simp [componentFills, hcomponent]
      rw [hdata, hcomp]
      exact (ih hfills).cons _

/-- A parameter is matched once, by what its type takes. -/
theorem CollectedArgs.push_eq_ok {matched matched' : CollectedArgs} {spec : ArgSpec}
    {value : ArgValue} (h : matched.push spec value = .ok matched') :
    matched.filled spec.name = false ∧ Encodes (spec, value) ∧
      matched'.named = matched.named ++ dataArgs [(spec, value)] ∧
      matched'.components = matched.components ++ componentFills [(spec, value)] := by
  rw [push] at h
  by_cases hcomponent : isComponentType spec.ty = true
  · rw [if_pos hcomponent, pushComponent] at h
    split_ifs at h with hfilled
    · cases h
    · obtain rfl := Except.ok.inj h
      exact ⟨Bool.eq_false_iff.mpr hfilled, Or.inl hcomponent, by simp [dataArgs, hcomponent],
        by simp [componentFills, hcomponent]⟩
  · rw [if_neg hcomponent, pushArg] at h
    split_ifs at h with hfilled
    · cases h
    · cases hencoded : encodeArgValue spec.ty value with
      | none =>
        rw [hencoded] at h
        cases h
      | some encoded =>
        rw [hencoded] at h
        obtain rfl := Except.ok.inj h
        exact ⟨Bool.eq_false_iff.mpr hfilled, Or.inr (by rw [hencoded]; rfl),
          by simp [dataArgs, hcomponent, hencoded], by simp [componentFills, hcomponent]⟩

theorem CollectedArgs.filled_iff {matched : CollectedArgs} {name : Str} :
    matched.filled name = true ↔
      name ∈ matched.named.map (·.name) ++ matched.components.map (·.1) := by
  simp [filled, List.any_eq_true]

/-- The parameters that have an argument after a match. -/
theorem CollectedArgs.filled_push {matched matched' : CollectedArgs} {spec : ArgSpec}
    {value : ArgValue} (h : matched.push spec value = .ok matched') (name : Str) :
    matched'.filled name = true ↔ name = spec.name ∨ matched.filled name = true := by
  obtain ⟨-, hencodes, hnamed, hcomponents⟩ := push_eq_ok h
  have hone := (perm_fills (List.forall_mem_singleton.mpr hencodes)).mem_iff (a := name)
  rw [List.map_singleton, List.mem_singleton, List.mem_append] at hone
  rw [filled_iff, filled_iff, hnamed, hcomponents]
  simp only [List.map_append, List.mem_append, ← hone]
  tauto

/-- The loop matches the arguments as they should be, where `bound` are the parameters
that it knows to have one. -/
theorem collect_matching {sig : Signature} {args : List Arg} {acc acc' : CollectedArgs × List Str}
    {bound : List Str} (h : args.foldlM (collectArg sig.specs) acc = .ok acc')
    (hbound : ∀ name, acc.1.filled name = true ↔ name ∈ bound) :
    ∃ fills tail, sig.Matching bound args fills tail ∧ (∀ fill ∈ fills, Encodes fill) ∧
      acc'.1.named = acc.1.named ++ dataArgs fills ∧
      acc'.1.components = acc.1.components ++ componentFills fills ∧ acc'.2 = acc.2 ++ tail := by
  induction args generalizing acc bound with
  | nil =>
    obtain rfl := Except.ok.inj h
    exact ⟨[], [], .nil, fun _ h => absurd h List.not_mem_nil, (List.append_nil _).symm,
      (List.append_nil _).symm, (List.append_nil _).symm⟩
  | cons arg args ih =>
    obtain ⟨acc₁, hstep, hrest⟩ := Outcome.bind_eq_ok.mp h
    have hfill : ∀ {spec : ArgSpec} {value : ArgValue} {matched : CollectedArgs},
        acc.1.push spec value = .ok matched → acc₁ = (matched, acc.2) →
        ∃ fills tail, sig.Matching (spec.name :: bound) args fills tail ∧
          (∀ fill ∈ (spec, value) :: fills, Encodes fill) ∧
          acc'.1.named = acc.1.named ++ dataArgs ((spec, value) :: fills) ∧
          acc'.1.components = acc.1.components ++ componentFills ((spec, value) :: fills) ∧
          acc'.2 = acc.2 ++ tail := by
      rintro spec value matched hpush rfl
      obtain ⟨-, hencodes, hnamed, hcomponents⟩ := CollectedArgs.push_eq_ok hpush
      obtain ⟨fills, tail, hmatching, hall, hnamed', hcomponents', htail⟩ := ih hrest
        fun name => (CollectedArgs.filled_push hpush name).trans
          ((or_congr_right (hbound name)).trans List.mem_cons.symm)
      refine ⟨fills, tail, hmatching, List.forall_mem_cons.mpr ⟨hencodes, hall⟩, ?_, ?_, htail⟩
      · rw [hnamed', hnamed, dataArgs_cons (spec, value) fills, List.append_assoc]
      · rw [hcomponents', hcomponents, componentFills_cons (spec, value) fills, List.append_assoc]
    cases arg with
    | flag name value =>
      rw [collectArg] at hstep
      cases hfind : sig.specs.find? (·.name == name) with
      | none =>
        rw [hfind] at hstep
        cases hstep
      | some spec =>
        rw [hfind] at hstep
        obtain ⟨matched, hpush, hacc⟩ := Outcome.bind_eq_ok.mp hstep
        have hname := List.find?_some hfind
        obtain rfl : spec.name = name := eq_of_beq hname
        obtain ⟨fills, tail, hmatching, hrest'⟩ := hfill hpush (Except.ok.inj hacc).symm
        have hopen : spec.name ∉ bound := by
          rw [← hbound, (CollectedArgs.push_eq_ok hpush).1]
          exact Bool.false_ne_true
        exact ⟨_, tail, .flag (List.mem_of_find?_eq_some hfind) hopen hmatching, hrest'⟩
    | positional value =>
      have hnext : (sig.specs.find? fun spec => some spec.name != variadic sig.specs &&
          !acc.1.filled spec.name) = sig.nextOpen bound := by
        have hpred : (fun spec : ArgSpec => some spec.name != variadic sig.specs &&
            !acc.1.filled spec.name) = fun spec => some spec.name != variadic sig.specs &&
              !bound.contains spec.name := by
          ext spec
          have hiff := hbound spec.name
          rw [← List.contains_iff_mem, ← Bool.eq_iff_iff] at hiff
          rw [hiff]
        rw [hpred, Signature.nextOpen]
      rw [collectArg, hnext] at hstep
      cases hopen : sig.nextOpen bound with
      | some spec =>
        rw [hopen] at hstep
        obtain ⟨matched, hpush, hacc⟩ := Outcome.bind_eq_ok.mp hstep
        obtain ⟨fills, tail, hmatching, hrest'⟩ := hfill hpush (Except.ok.inj hacc).symm
        exact ⟨_, tail, .positional hopen hmatching, hrest'⟩
      | none =>
        rw [hopen] at hstep
        cases hvariadic : variadic sig.specs with
        | none =>
          rw [hvariadic] at hstep
          cases hstep
        | some name =>
          rw [hvariadic] at hstep
          have htext : ∃ text, value.text = some text ∧ acc₁ = (acc.1, acc.2 ++ [text]) := by
            cases value with
            | word text => exact ⟨text, rfl, (Except.ok.inj hstep).symm⟩
            | quoted text => exact ⟨text, rfl, (Except.ok.inj hstep).symm⟩
            | expr e => cases hstep
          obtain ⟨text, htext, rfl⟩ := htext
          obtain ⟨fills, tail, hmatching, hall, hnamed, hcomponents, htail⟩ :=
            ih hrest hbound
          have hsome : (variadic sig.specs).isSome = true := by rw [hvariadic]; rfl
          exact ⟨fills, text :: tail, .leftOver hopen hsome htext hmatching, hall, hnamed,
            hcomponents, by rw [htail, List.append_assoc, List.singleton_append]⟩

/-- The tail is a declared list of strings. -/
theorem Signature.variadic_declared {sig : Signature} {name : Str}
    (h : variadic sig.specs = some name) :
    ∃ spec ∈ sig.specs, spec.name = name ∧ isStringList spec.ty = true := by
  obtain ⟨spec, hspec, hname⟩ := Option.map_eq_some_iff.mp h
  obtain ⟨hlast, hlist⟩ := Option.filter_eq_some_iff.mp hspec
  exact ⟨spec, List.mem_of_getLast? hlast, hname, hlist⟩

theorem Signature.mem_tailName {sig : Signature} {tail : List Str} {name : Str} :
    name ∈ sig.tailName tail ↔ tail.isEmpty = false ∧ variadic sig.specs = some name := by
  rw [tailName]
  split_ifs with h
  · simp [h]
  · simp [h]

theorem Signature.map_tailArgs (sig : Signature) (tail : List Str) :
    (sig.tailArgs tail).map (·.name) = sig.tailName tail := by
  rw [tailArgs, List.map_map]
  exact List.map_id _

/-- The matches are those of the arguments, and the tail had no argument. -/
theorem collectNamedArgs_eq_ok {sig : Signature} {initial : List NamedArg} {args : List Arg}
    {collected : CollectedArgs} (h : collectNamedArgs initial sig.specs args = .ok collected) :
    ∃ fills tail, sig.Matching (initial.map (·.name)) args fills tail ∧
      (∀ fill ∈ fills, Encodes fill) ∧
      collected.named = initial ++ dataArgs fills ++ sig.tailArgs tail ∧
      collected.components = componentFills fills ∧
      ∀ name ∈ sig.tailName tail, name ∉ (initial ++ dataArgs fills).map (·.name) := by
  obtain ⟨acc, hloop, htail⟩ := Outcome.bind_eq_ok.mp h
  have hfilled : ∀ name, (CollectedArgs.mk initial []).filled name = true ↔
      name ∈ initial.map (·.name) := by
    intro name
    rw [CollectedArgs.filled_iff, List.map_nil, List.append_nil]
  obtain ⟨fills, tail, hmatching, hencodes, hnamed, hcomponents, hleft⟩ :=
    collect_matching hloop hfilled
  rw [List.nil_append] at hcomponents hleft
  rw [collectTail, hleft] at htail
  refine ⟨fills, tail, hmatching, hencodes, ?_⟩
  cases hvariadic : variadic sig.specs with
  | none =>
    rw [hvariadic] at htail
    obtain rfl := Except.ok.inj htail
    have hnone : sig.tailName tail = [] := by simp [Signature.tailName, hvariadic]
    refine ⟨?_, hcomponents, by simp [hnone]⟩
    rw [hnamed, Signature.tailArgs, hnone, List.map_nil, List.append_nil]
  | some name =>
    rw [hvariadic] at htail
    cases hempty : tail.isEmpty with
    | true =>
      rw [hempty] at htail
      obtain rfl := Except.ok.inj htail
      have hnone : sig.tailName tail = [] := by simp [Signature.tailName, hempty]
      refine ⟨?_, hcomponents, by simp [hnone]⟩
      rw [hnamed, Signature.tailArgs, hnone, List.map_nil, List.append_nil]
    | false =>
      have hone : sig.tailName tail = [name] := by simp [Signature.tailName, hempty, hvariadic]
      simp only [hempty, Bool.false_eq_true, if_false] at htail
      split_ifs at htail with hany
      · cases htail
      · obtain rfl := Except.ok.inj htail
        refine ⟨?_, hcomponents, ?_⟩
        · rw [hnamed, Signature.tailArgs, hone, List.map_singleton]
        · rw [hone, List.forall_mem_singleton, ← hnamed]
          simpa [List.any_eq_true] using hany

/-! ## What an application binds -/

namespace EvalOutput

variable {C : Type}

/-- The parameters that have an argument. -/
def bound (out : EvalOutput C) : List Str :=
  out.args.map (·.name) ++ out.components.map (·.name)

/-- No declared parameter has two arguments. -/
def BoundOnce (sig : Signature) (out : EvalOutput C) : Prop :=
  ∀ spec ∈ sig.specs, out.bound.count spec.name ≤ 1

end EvalOutput

/-- The arguments take no parameter that the callee has a component argument for. -/
def Signature.Fresh {C : Type} (sig : Signature) (before : EvalOutput C) (args : List Arg) : Prop :=
  ∀ name ∈ sig.taken (before.args.map (·.name)) args, name ∉ before.components.map (·.name)

/-- The arguments are matched as they should be, with all arguments of the callee known:
the fills and the tail are those of the match, the tail had no argument, and no declared
parameter ends up with two. -/
structure Applied {C : Type} (sig : Signature) (before out : EvalOutput C) (args : List Arg) :
    Prop where
  matched : ∃ fills tail, sig.Matching before.bound args fills tail ∧
    (∀ name ∈ sig.tailName tail, name ∉ before.bound) ∧
    out.args = before.args ++ dataArgs fills ++ sig.tailArgs tail ∧
    out.components.map (·.name) =
      before.components.map (·.name) ++ (componentFills fills).map (·.1)
  once : out.BoundOnce sig

/-- What the evaluator hands out, matched with the data arguments of the callee only. -/
structure Handed {C : Type} (sig : Signature) (before out : EvalOutput C) (args : List Arg)
    (fills : List (ArgSpec × ArgValue)) (tail : List Str) : Prop where
  matching : sig.Matching (before.args.map (·.name)) args fills tail
  encodes : ∀ fill ∈ fills, Encodes fill
  args_eq : out.args = before.args ++ dataArgs fills ++ sig.tailArgs tail
  components_eq : out.components.map (·.name) =
    before.components.map (·.name) ++ (componentFills fills).map (·.1)
  tail_open : ∀ name ∈ sig.tailName tail, name ∉ (before.args ++ dataArgs fills).map (·.name)

/-- A match goes on to be one where other parameters have arguments, if it takes none of
them. -/
theorem Signature.Matching.extend {sig : Signature} {bound bound' : List Str} (extra : List Str)
    {args : List Arg} {fills : List (ArgSpec × ArgValue)} {tail : List Str}
    (h : sig.Matching bound args fills tail) (hfills : ∀ fill ∈ fills, fill.1.name ∉ extra)
    (hbound : ∀ name, name ∈ bound' ↔ name ∈ bound ∨ name ∈ extra) :
    sig.Matching bound' args fills tail := by
  induction h generalizing bound' with
  | nil => exact .nil
  | @flag bound spec value args fills tail hdeclared hopen rest ih =>
    obtain ⟨hfill, hfills⟩ := List.forall_mem_cons.mp hfills
    refine .flag hdeclared (fun hmem => ((hbound _).mp hmem).elim hopen hfill) (ih hfills ?_)
    intro name
    rw [List.mem_cons, List.mem_cons, hbound, or_assoc]
  | @positional bound spec value args fills tail hnext rest ih =>
    obtain ⟨hfill, hfills⟩ := List.forall_mem_cons.mp hfills
    refine .positional ?_ (ih hfills fun name => ?_)
    · obtain ⟨hprop, before, after, hspecs, hbefore⟩ := List.find?_eq_some_iff_append.mp hnext
      refine List.find?_eq_some_iff_append.mpr ⟨?_, before, after, hspecs, fun other hother => ?_⟩
      · have hnot : spec.name ∉ bound' := fun hmem =>
          ((hbound _).mp hmem).elim (nextOpen_mem hnext).2.2 hfill
        simpa [hnot] using (nextOpen_mem hnext).2.1
      · have hskip := hbefore other hother
        simp only [Bool.not_eq_true', Bool.and_eq_false_iff, bne_eq_false_iff_eq,
          Bool.not_eq_false', List.contains_iff_mem] at hskip ⊢
        exact hskip.imp_right fun hmem => (hbound _).mpr (Or.inl hmem)
    · rw [List.mem_cons, List.mem_cons, hbound, or_assoc]
  | @leftOver bound value text args fills tail hnext hvariadic htext rest ih =>
    refine .leftOver (List.find?_eq_none.mpr fun spec hspec => ?_) hvariadic htext
      (ih hfills hbound)
    have hskip := List.find?_eq_none.mp hnext spec hspec
    simp only [Bool.and_eq_true, bne_iff_ne, Bool.not_eq_true', ← Bool.not_eq_true,
      List.contains_iff_mem, not_and, not_not] at hskip ⊢
    exact fun hne => (hbound _).mpr (Or.inl (hskip hne))

namespace Handed

variable {C : Type} {sig : Signature} {before out : EvalOutput C} {args : List Arg}
  {fills : List (ArgSpec × ArgValue)} {tail : List Str}

/-- What is taken, by the fills and by the tail. -/
theorem taken_perm (h : Handed sig before out args fills tail) :
    (fills.map (·.1.name) ++ sig.tailName tail).Perm
      (sig.taken (before.args.map (·.name)) args) := by
  obtain ⟨hfills, htail⟩ := h.matching.taken
  rw [Signature.taken]
  refine hfills.append ?_
  cases hempty : tail.isEmpty with
  | true => rw [Signature.tailName, if_pos hempty, if_neg (Nat.not_lt.mpr (htail.mp hempty))]
  | false =>
    have hlt := mt htail.mpr (by rw [hempty]; exact Bool.false_ne_true)
    rw [Signature.tailName, hempty, if_neg Bool.false_ne_true, if_pos (Nat.lt_of_not_le hlt)]

/-- The tail is not filled by a flag as well: a list of strings is no component, so the
flag would have given a data argument. -/
theorem tail_not_filled (h : Handed sig before out args fills tail) {name : Str}
    (hname : name ∈ sig.tailName tail) : name ∉ fills.map (·.1.name) := by
  intro hmem
  obtain ⟨fill, hfill, rfl⟩ := List.mem_map.mp hmem
  obtain ⟨spec, hspec, hspecName, hlist⟩ :=
    Signature.variadic_declared (Signature.mem_tailName.mp hname).2
  have hsame : fill.1 = spec :=
    List.inj_on_of_nodup_map sig.distinct (h.matching.fills_open.1 fill hfill).1 hspec
      hspecName.symm
  rw [← hsame] at hlist
  have hdata := not_component_of_isStringList hlist
  obtain ⟨encoded, hencoded⟩ := Option.isSome_iff_exists.mp
    ((h.encodes fill hfill).resolve_left (by rw [hdata]; exact Bool.false_ne_true))
  have hin : (⟨fill.1.name, encoded⟩ : NamedArg) ∈ dataArgs fills :=
    List.mem_filterMap.mpr ⟨fill, hfill, by simp [hdata, hencoded]⟩
  exact h.tail_open _ hname (List.mem_map.mpr ⟨_, List.mem_append_right _ hin, rfl⟩)

theorem taken_nodup (h : Handed sig before out args fills tail) :
    (sig.taken (before.args.map (·.name)) args).Nodup := by
  rw [← h.taken_perm.nodup_iff, List.nodup_append]
  refine ⟨h.matching.fills_open.2, ?_, fun name hfill name' htail => ?_⟩
  · rw [Signature.tailName]
    split_ifs
    · exact List.nodup_nil
    · cases variadic sig.specs <;> simp
  · rintro rfl
    exact h.tail_not_filled htail hfill

/-- What is taken is declared and had no data argument. -/
theorem taken_open (h : Handed sig before out args fills tail) {name : Str}
    (hname : name ∈ sig.taken (before.args.map (·.name)) args) :
    (∃ spec ∈ sig.specs, spec.name = name) ∧ name ∉ before.args.map (·.name) := by
  rcases List.mem_append.mp (h.taken_perm.mem_iff.mpr hname) with hmem | hmem
  · obtain ⟨fill, hfill, rfl⟩ := List.mem_map.mp hmem
    obtain ⟨hspec, hopen⟩ := h.matching.fills_open.1 fill hfill
    exact ⟨⟨_, hspec, rfl⟩, hopen⟩
  · obtain ⟨spec, hspec, hspecName, -⟩ :=
      Signature.variadic_declared (Signature.mem_tailName.mp hmem).2
    refine ⟨⟨spec, hspec, hspecName⟩, fun hbound => h.tail_open name hmem ?_⟩
    rw [List.map_append]
    exact List.mem_append_left _ hbound

theorem bound_perm (h : Handed sig before out args fills tail) :
    out.bound.Perm (before.bound ++ sig.taken (before.args.map (·.name)) args) := by
  rw [EvalOutput.bound, EvalOutput.bound, h.args_eq, h.components_eq, List.map_append,
    List.map_append, Signature.map_tailArgs]
  refine List.Perm.trans ?_ (h.taken_perm.append_left _)
  have hfills := perm_fills h.encodes
  rw [List.perm_iff_count] at hfills ⊢
  intro name
  have hcount := hfills name
  simp only [List.count_append] at hcount ⊢
  omega

/-- What is taken gets one more argument. -/
theorem count_bound (h : Handed sig before out args fills tail) (name : Str) :
    out.bound.count name = before.bound.count name +
      if name ∈ sig.taken (before.args.map (·.name)) args then 1 else 0 := by
  rw [h.bound_perm.count_eq, List.count_append, h.taken_nodup.count]

/-- Whether a taken parameter had an argument is a matter of the component arguments. -/
theorem fresh_iff (h : Handed sig before out args fills tail) :
    sig.Fresh before args ↔
      ∀ name ∈ sig.taken (before.args.map (·.name)) args, name ∉ before.bound := by
  refine forall₂_congr fun name hname => not_congr ?_
  rw [EvalOutput.bound, List.mem_append, or_iff_right (h.taken_open hname).2]

theorem boundOnce_iff (h : Handed sig before out args fills tail) :
    out.BoundOnce sig ↔ before.BoundOnce sig ∧ sig.Fresh before args := by
  rw [h.fresh_iff]
  constructor
  · intro honce
    refine ⟨fun spec hspec => ?_, fun name hname hbound => ?_⟩
    · have hcount := honce spec hspec
      rw [h.count_bound] at hcount
      omega
    · obtain ⟨spec, hspec, rfl⟩ := (h.taken_open hname).1
      have hcount := honce spec hspec
      rw [h.count_bound, if_pos hname] at hcount
      have hpos := List.count_pos_iff.mpr hbound
      omega
  · rintro ⟨honce, hfresh⟩ spec hspec
    rw [h.count_bound]
    split_ifs with htaken
    · rw [List.count_eq_zero.mpr (hfresh _ htaken)]
    · exact honce spec hspec

theorem nodup_iff (h : Handed sig before out args fills tail) :
    out.bound.Nodup ↔ before.bound.Nodup ∧ sig.Fresh before args := by
  rw [h.fresh_iff, h.bound_perm.nodup_iff, List.nodup_append]
  constructor
  · rintro ⟨hbefore, -, hdisjoint⟩
    exact ⟨hbefore, fun name hname hbound => hdisjoint name hbound name hname rfl⟩
  · rintro ⟨hbefore, hfresh⟩
    refine ⟨hbefore, h.taken_nodup, fun name hbound name' hname => ?_⟩
    rintro rfl
    exact hfresh name hname hbound

/-- The arguments are matched as they should be exactly where they take no parameter that
the callee has a component argument for. -/
theorem applied_iff (h : Handed sig before out args fills tail) :
    Applied sig before out args ↔ before.BoundOnce sig ∧ sig.Fresh before args := by
  rw [← h.boundOnce_iff]
  refine ⟨fun happlied => happlied.once, fun honce => ⟨?_, honce⟩⟩
  have hfresh := h.fresh_iff.mp (h.boundOnce_iff.mp honce).2
  have hmem : ∀ name ∈ fills.map (·.1.name) ++ sig.tailName tail, name ∉ before.bound :=
    fun name hname => hfresh name (h.taken_perm.mem_iff.mp hname)
  refine ⟨fills, tail, h.matching.extend (before.components.map (·.name)) ?_ ?_,
    fun name hname => hmem name (List.mem_append_right _ hname), h.args_eq, h.components_eq⟩
  · intro fill hfill hcomponent
    have hname := List.mem_append_left (sig.tailName tail)
      (List.mem_map_of_mem (f := fun fill : ArgSpec × ArgValue => fill.1.name) hfill)
    exact hmem _ hname (List.mem_append_right _ hcomponent)
  · exact fun name => List.mem_append

end Handed

/-! ## Completion -/

/-- The parameters that have an argument, of either kind. -/
def boundNames (args : List NamedArg) (filled : List Str) : List Str :=
  args.map (·.name) ++ filled

theorem boundNames_concat (args : List NamedArg) (arg : NamedArg) (filled : List Str) :
    (boundNames (args ++ [arg]) filled).Perm (arg.name :: boundNames args filled) := by
  rw [boundNames, boundNames, List.map_append, List.map_singleton, List.append_assoc,
    List.singleton_append]
  exact List.perm_middle

theorem mem_boundNames {args : List NamedArg} {filled : List Str} {name : Str} :
    name ∈ boundNames args filled ↔
      (args.any (·.name == name) || filled.contains name) = true := by
  simp [boundNames, List.any_eq_true]

/-- Completion gives every declared parameter that has no argument one, and no other. -/
theorem count_completeArgs {filled : List Str} {specs : List ArgSpec} {args args' : List NamedArg}
    (h : completeArgs filled specs args = .ok args') (name : Str) :
    (name ∈ boundNames args filled →
      (boundNames args' filled).count name = (boundNames args filled).count name) ∧
    (name ∈ specs.map (·.name) → name ∉ boundNames args filled →
      (boundNames args' filled).count name = 1) := by
  induction specs generalizing args with
  | nil =>
    obtain rfl := Except.ok.inj h
    exact ⟨fun _ => rfl, fun hname => absurd hname List.not_mem_nil⟩
  | cons spec rest ih =>
    have hpush : ∀ value, spec.name ∉ boundNames args filled →
        completeArgs filled rest (args ++ [⟨spec.name, value⟩]) = .ok args' →
        (name ∈ boundNames args filled →
          (boundNames args' filled).count name = (boundNames args filled).count name) ∧
        (name ∈ (spec :: rest).map (·.name) → name ∉ boundNames args filled →
          (boundNames args' filled).count name = 1) := by
      intro value hopen hrest
      obtain ⟨hbound, hdeclared⟩ := ih hrest
      have hperm := boundNames_concat args ⟨spec.name, value⟩ filled
      rw [hperm.mem_iff, hperm.count_eq, List.mem_cons] at hbound
      rw [hperm.mem_iff, List.mem_cons, not_or] at hdeclared
      refine ⟨fun hin => ?_, fun hname hout => ?_⟩
      · have hne : spec.name ≠ name := by
          rintro rfl
          exact hopen hin
        rw [hbound (Or.inr hin), List.count_cons_of_ne hne]
      · by_cases heq : name = spec.name
        · rw [hbound (Or.inl heq), heq, List.count_cons_self, List.count_eq_zero.mpr hopen]
        · exact hdeclared ((List.mem_cons.mp hname).resolve_left heq) ⟨heq, hout⟩
    rw [completeArgs] at h
    by_cases hin : spec.name ∈ boundNames args filled
    · rw [if_pos (mem_boundNames.mp hin)] at h
      refine ⟨(ih h).1, fun hname hout => ?_⟩
      rcases List.mem_cons.mp hname with rfl | hname
      · exact absurd hin hout
      · exact (ih h).2 hname hout
    · rw [if_neg (mt mem_boundNames.mpr hin)] at h
      split_ifs at h with hcomponent hoption hlist
      · cases h
      · exact hpush _ hin h
      · exact hpush _ hin h
      · cases h

/-- After completion every declared parameter has exactly one argument, if none had two. -/
theorem completeArgs_exact {filled : List Str} {specs : List ArgSpec} {args args' : List NamedArg}
    (h : completeArgs filled specs args = .ok args') :
    (∀ spec ∈ specs, (boundNames args' filled).count spec.name = 1) ↔
      ∀ spec ∈ specs, (boundNames args filled).count spec.name ≤ 1 := by
  refine forall₂_congr fun spec hspec => ?_
  obtain ⟨hbound, hopen⟩ := count_completeArgs h spec.name
  by_cases hin : spec.name ∈ boundNames args filled
  · rw [hbound hin]
    have hpos := List.count_pos_iff.mpr hin
    omega
  · rw [hopen (List.mem_map_of_mem hspec) hin, List.count_eq_zero.mpr hin]
    omega

/-! ## Evaluations -/

/-- What a provider is configured with: the arguments are matched as they should be, and
every declared parameter ends up with exactly one. -/
structure Configured {C : Type} (sig : Signature) (component : C)
    (initial matched named : List NamedArg) (args : List Arg) : Prop where
  applied : Applied sig ⟨component, initial, []⟩ (⟨component, matched, []⟩ : EvalOutput C) args
  once : ∀ spec ∈ sig.specs, (boundNames named []).count spec.name = 1

namespace Evaluator

variable {σ C : Type} {ev : Evaluator σ C} {recur : Expr → Eval σ (EvalOutput C)}

/-- The component arguments keep the names that they were matched by. -/
theorem names_evalComponents {entries : List (Str × ArgValue)}
    {components components' : List (ComponentArg C)} {s s' : EvalState σ}
    (h : entries.foldlM (evalComponent recur) components s = (.ok components', s')) :
    components'.map (·.name) = components.map (·.name) ++ entries.map (·.1) := by
  induction entries generalizing components s with
  | nil =>
    obtain ⟨rfl, -⟩ := Action.pure_returns.mp h
    exact (List.append_nil _).symm
  | cons entry entries ih =>
    obtain ⟨components₁, s₁, hstep, hrest⟩ := Action.bind_returns.mp h
    rw [evalComponent] at hstep
    obtain ⟨e, s₂, -, hstep⟩ := Action.bind_returns.mp hstep
    obtain ⟨out, s₃, -, hstep⟩ := Action.bind_returns.mp hstep
    split_ifs at hstep
    · cases hstep
    · obtain ⟨rfl, -⟩ := Action.pure_returns.mp hstep
      rw [ih hrest, List.map_append, List.map_singleton, List.append_assoc, List.map_cons,
        List.singleton_append]

variable {callee : Expr} {args : List Arg} {s s₁ s₂ s' : EvalState σ} {before out : EvalOutput C}
  {info : ComponentInfo}

/-- Applying arguments to a binary hands out what was matched. -/
theorem evalApp_binary (hcallee : recur callee s = (.ok before, s₁))
    (hinfo : ev.describe before.component s₁ = (.ok info, s₂))
    (hrun : ev.evalApp recur callee args s = (.ok out, s')) (hkind : info.kind = .binary) :
    ∃ fills tail, Handed info.args before out args fills tail := by
  rw [evalApp, Action.bind_of_ok hcallee, Action.bind_of_ok hinfo, hkind] at hrun
  obtain ⟨collected, s₃, hcollected, hrun⟩ := Action.bind_returns.mp hrun
  obtain ⟨components, s₄, hcomponents, hrun⟩ := Action.bind_returns.mp hrun
  obtain ⟨rfl, -⟩ := Action.pure_returns.mp hrun
  obtain ⟨fills, tail, hmatching, hencodes, hnamed, hmatched, htail⟩ :=
    collectNamedArgs_eq_ok (Action.liftM_returns.mp hcollected).1
  refine ⟨fills, tail, hmatching, hencodes, hnamed, ?_, htail⟩
  rw [names_evalComponents hcomponents, hmatched]

/-- A provider is configured with what was matched and completed. -/
theorem evalApp_provider (hcallee : recur callee s = (.ok before, s₁))
    (hinfo : ev.describe before.component s₁ = (.ok info, s₂))
    (hrun : ev.evalApp recur callee args s = (.ok out, s')) (hkind : info.kind = .provider) :
    out.args = [] ∧ out.components = [] ∧ ∃ matched named,
      call (ev.backend.configure before.component named) s₂ = (.ok out.component, s') ∧
      (Configured info.args before.component before.args matched named args ↔
        (⟨before.component, before.args, []⟩ : EvalOutput C).BoundOnce info.args) := by
  rw [evalApp, Action.bind_of_ok hcallee, Action.bind_of_ok hinfo, hkind] at hrun
  cases hfind : info.args.specs.find? fun spec => isComponentType spec.ty with
  | some spec =>
    rw [hfind] at hrun
    cases hrun
  | none =>
    rw [hfind] at hrun
    obtain ⟨collected, s₃, hcollected, hrun⟩ := Action.bind_returns.mp hrun
    obtain ⟨named, s₄, hnamed, hrun⟩ := Action.bind_returns.mp hrun
    obtain ⟨configured, s₅, hconfigured, hrun⟩ := Action.bind_returns.mp hrun
    obtain ⟨rfl, rfl⟩ := Action.pure_returns.mp hrun
    obtain ⟨hmatches, rfl⟩ := Action.liftM_returns.mp hcollected
    obtain ⟨hcompleted, rfl⟩ := Action.liftM_returns.mp hnamed
    refine ⟨rfl, rfl, collected.named, named, hconfigured, ?_⟩
    obtain ⟨fills, tail, hmatching, hencodes, hargs, -, htail⟩ :=
      collectNamedArgs_eq_ok hmatches
    -- no parameter of a provider takes a component
    have hnone : componentFills fills = [] := by
      rw [componentFills, List.map_eq_nil_iff, List.filter_eq_nil_iff]
      exact fun fill hfill => List.find?_eq_none.mp hfind _ (hmatching.fills_open.1 fill hfill).1
    have hhanded : Handed info.args ⟨before.component, before.args, []⟩
        (⟨before.component, collected.named, []⟩ : EvalOutput C) args fills tail :=
      ⟨hmatching, hencodes, hargs, by rw [hnone]; rfl, htail⟩
    have hfresh : info.args.Fresh (⟨before.component, before.args, []⟩ : EvalOutput C) args :=
      fun _ _ => List.not_mem_nil
    constructor
    · exact fun hconfigured => (hhanded.applied_iff.mp hconfigured.applied).1
    · intro honce
      have happlied := hhanded.applied_iff.mpr ⟨honce, hfresh⟩
      exact ⟨happlied, (completeArgs_exact hcompleted).mpr happlied.once⟩

variable (ev) in
/-- Every application of an evaluation that hands its arguments on takes only parameters
that its callee has no component argument for. -/
def Clean : ℕ → Expr → EvalState σ → Prop
  | depth + 1, .app callee args, s => ∀ before s₁ info s₂,
      ev.eval depth callee s = (.ok before, s₁) →
      ev.describe before.component s₁ = (.ok info, s₂) → info.kind = .binary →
      Clean depth callee s ∧ info.args.Fresh before args
  | depth + 1, .compose provider consumer, s => ∀ component s₁,
      evalPlain (ev.eval depth) provider "the provider side of `$`" s = (.ok component, s₁) →
      Clean depth consumer s₁
  | depth + 1, .only _ body, s => Clean depth body s
  | depth + 1, .rename _ _ body, s => Clean depth body s
  | depth + 1, .with _ body, s => Clean depth body s
  | _, _, _ => True

/-- An evaluation binds no parameter twice exactly when its applications are clean. -/
theorem eval_nodup_iff {depth : ℕ} {e : Expr} (h : ev.eval depth e s = (.ok out, s')) :
    out.bound.Nodup ↔ ev.Clean depth e s := by
  induction depth generalizing e s out s' with
  | zero => cases h
  | succ depth ih =>
    have hnil : ∀ component : C, (⟨component, [], []⟩ : EvalOutput C).bound.Nodup :=
      fun _ => List.nodup_nil
    rw [eval] at h
    cases e with
    | name name =>
      obtain ⟨component, s₁, -, h⟩ := Action.bind_returns.mp h
      obtain ⟨rfl, -⟩ := Action.pure_returns.mp h
      exact iff_of_true (hnil _) trivial
    | app callee args =>
      obtain ⟨before, s₁, hcallee, hrest⟩ := Action.bind_returns.mp h
      obtain ⟨info, s₂, hinfo, -⟩ := Action.bind_returns.mp hrest
      cases hkind : info.kind with
      | binary =>
        obtain ⟨fills, tail, hhanded⟩ := evalApp_binary hcallee hinfo h hkind
        rw [hhanded.nodup_iff, ih hcallee]
        constructor
        · rintro ⟨hclean, hfresh⟩ before' s₁' info' s₂' hcallee' hinfo' -
          rw [hcallee] at hcallee'
          cases hcallee'
          rw [hinfo] at hinfo'
          cases hinfo'
          exact ⟨hclean, hfresh⟩
        · exact fun hclean => hclean before s₁ info s₂ hcallee hinfo hkind
      | provider =>
        obtain ⟨hargs, hcomponents, -⟩ := evalApp_provider hcallee hinfo h hkind
        refine iff_of_true ?_ ?_
        · rw [EvalOutput.bound, hargs, hcomponents]
          exact List.nodup_nil
        · intro before' s₁' info' s₂' hcallee' hinfo' hkind'
          rw [hcallee] at hcallee'
          cases hcallee'
          rw [hinfo] at hinfo'
          cases hinfo'
          rw [hkind] at hkind'
          cases hkind'
    | compose provider consumer =>
      obtain ⟨component, s₁, hprovider, h⟩ := Action.bind_returns.mp h
      obtain ⟨inner, s₂, hconsumer, h⟩ := Action.bind_returns.mp h
      obtain ⟨composed, s₃, -, h⟩ := Action.bind_returns.mp h
      obtain ⟨rfl, -⟩ := Action.pure_returns.mp h
      refine (ih hconsumer).trans ⟨fun hclean component' s₁' hprovider' => ?_,
        fun hclean => hclean component s₁ hprovider⟩
      rw [hprovider] at hprovider'
      cases hprovider'
      exact hclean
    | extend base layer =>
      obtain ⟨baseOut, s₁, -, h⟩ := Action.bind_returns.mp h
      obtain ⟨layerOut, s₂, -, h⟩ := Action.bind_returns.mp h
      obtain ⟨baseInfo, s₃, -, h⟩ := Action.bind_returns.mp h
      obtain ⟨layerInfo, s₄, -, h⟩ := Action.bind_returns.mp h
      split_ifs at h
      · cases h
      · cases h
      · obtain ⟨component, s₅, -, h⟩ := Action.bind_returns.mp h
        obtain ⟨rfl, -⟩ := Action.pure_returns.mp h
        exact iff_of_true (hnil _) trivial
    | only allow body =>
      obtain ⟨refs, s₁, hrefs, h⟩ := Action.bind_returns.mp h
      obtain ⟨-, rfl⟩ := Action.liftM_returns.mp hrefs
      obtain ⟨inner, s₂, hbody, h⟩ := Action.bind_returns.mp h
      obtain ⟨component, s₃, -, h⟩ := Action.bind_returns.mp h
      obtain ⟨rfl, -⟩ := Action.pure_returns.mp h
      have hinner := ih hbody
      exact hinner
    | rename source target body =>
      obtain ⟨inner, s₂, hbody, h⟩ := Action.bind_returns.mp h
      obtain ⟨component, s₃, -, h⟩ := Action.bind_returns.mp h
      obtain ⟨rfl, -⟩ := Action.pure_returns.mp h
      have hinner := ih hbody
      exact hinner
    | «with» bindings body =>
      obtain ⟨inner, s₂, hbody, h⟩ := Action.bind_returns.mp h
      obtain ⟨component, s₃, -, h⟩ := Action.bind_returns.mp h
      obtain ⟨rfl, -⟩ := Action.pure_returns.mp h
      have hinner := ih hbody
      exact hinner

end Evaluator

/-- The parameter `c` of the program `f`. -/
def demoSignature : Signature := ⟨[⟨ascii "c", ascii "component"⟩], List.nodup_singleton _⟩

/-- A backend whose components are their names. -/
def demoBackend : Backend Unit Str where
  resolveWithBytes name s := (.ok (name, none), s)
  load bytes s := (.ok bytes, s)
  duplicate component s := (.ok component, s)
  describe component s :=
    (⟨.binary, [], [], if component = ascii "f" then demoSignature else ⟨[], List.nodup_nil⟩⟩, s)
  compose _ consumer s := (.ok consumer, s)
  extend base _ s := (.ok base, s)
  restrict component _ s := (.ok component, s)
  rename component _ _ s := (.ok component, s)
  configure component _ s := (.ok component, s)

def demo : Evaluator Unit Str := ⟨demoBackend, fun _ => none⟩

/-- `f --c a` -/
def appliedOnce : Expr := .app (.name (ascii "f")) [.flag (ascii "c") (.word (ascii "a"))]

/-- `(f --c a) --c b` -/
def appliedTwice : Expr := .app appliedOnce [.flag (ascii "c") (.word (ascii "b"))]

end Eo9.Eosh
