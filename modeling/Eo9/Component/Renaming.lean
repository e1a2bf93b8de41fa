import Eo9.Component.Assembly

/-!
# One side of a renaming

What `rename` plans for the imports or the exports of a component, and what the
plan does to the slots of that side.
-/

namespace Eo9.Component

open Eo9.Library

variable {T V : Type}

/-- The slot part of an interface-style name and of an annotation is of the form
`ns:pkg/iface`, and an annotation has no empty version. -/
structure Extern.Spelled (e : Extern T) : Prop where
  slot : isInterfaceStyle e.name = true → isInterfaceStyle (slotName e.name) = true
  implemented : ∀ id ∈ e.implements, isInterfaceStyle (slotName id) = true ∧
    versioned (slotName id) (splitExternName id).2 = id

/-- Of the slots of a side, given by their extern names, at most one is called
`from_` unless the slot name stays; a slot that gets another slot name gets one
that no other slot of the side has. -/
structure Distinct (names : List Text) (from_ to_ : Text) : Prop where
  single : slotName to_ = slotName from_ ∨
    ∀ n ∈ names, ∀ n' ∈ names, slotName n = from_ ∨ n = from_ → slotName n' = from_ ∨ n' = from_ →
      n = n'
  fresh : ∀ n ∈ names, slotName n = from_ ∨ n = from_ → slotName n ≠ slotName to_ →
    ∀ n' ∈ names, n' ≠ n → slotName n' ≠ slotName to_

theorem versioned_split (name : Text) (h : name ≠ slotName name ++ ['@']) :
    versioned (slotName name) (splitExternName name).2 = name := by
  unfold slotName splitExternName versioned at *
  split
  · rename_i parts hparts
    rw [hparts] at h
    have hname := (splitOnce_eq_some_iff.mp (show splitOnce '@' name = some (parts.1, parts.2)
      from hparts)).2
    by_cases hv : parts.2 = []
    · rw [hv] at hname
      exact absurd hname h
    · rw [if_neg hv, ← hname]
  · exact if_pos rfl

theorem slotName_versioned {interface version : Text} (h : '@' ∉ interface) :
    slotName (versioned interface version) = interface := by
  unfold slotName
  rw [splitExternName_versioned h]

theorem slotName_of_not_mem {name : Text} (h : '@' ∉ name) : slotName name = name := by
  unfold slotName splitExternName
  rw [splitOnce_eq_none_iff.mpr h]

theorem slotName_slotName (name : Text) : slotName (slotName name) = slotName name :=
  slotName_of_not_mem (not_mem_slotName name)

theorem isInterfaceStyle_versioned {interface : Text} (version : Text)
    (h : isInterfaceStyle interface = true) :
    isInterfaceStyle (versioned interface version) = true := by
  rw [isInterfaceStyle, decide_eq_true_eq] at h ⊢
  unfold versioned
  split
  · exact h
  · exact List.mem_append_left _ h

/-- An interface-style name with no version after its slot name. -/
theorem isInterfaceStyle_slotName {name : Text} (h : isInterfaceStyle name = true)
    (hv : (splitExternName name).2 = []) : isInterfaceStyle (slotName name) = true := by
  rw [isInterfaceStyle, decide_eq_true_eq] at h ⊢
  unfold slotName
  unfold splitExternName at hv ⊢
  split
  · rename_i parts hparts
    rw [hparts] at hv
    have hname := (splitOnce_eq_some_iff.mp (show splitOnce '@' name = some (parts.1, parts.2)
      from hparts)).2
    rw [show parts.2 = [] from hv] at hname
    rw [hname, List.mem_append] at h
    rcases h with h | h
    · exact h
    · simp at h
  · exact h

namespace Extern

variable {e : Extern T} {to_ : Text}

theorem ident_annotated (n id : Text) (i : Item T) :
    (⟨n, some id, i⟩ : Extern T).ident = splitExternName id := rfl

theorem ident_default {n : Text} (h : isInterfaceStyle n = true) (i : Item T) :
    (⟨n, none, i⟩ : Extern T).ident = splitExternName n := if_pos h

theorem ident_inline {n : Text} (h : isInterfaceStyle n = false) (i : Item T) :
    (⟨n, none, i⟩ : Extern T).ident = ([], []) := by
  rw [ident, h]
  rfl

theorem ident_not_mem (e : Extern T) : '@' ∉ e.ident.1 := by
  unfold ident
  split
  · exact not_mem_slotName _
  · split
    · exact not_mem_slotName _
    · exact List.not_mem_nil

/-- A slot is of a named interface, or of an inline one. -/
theorem Spelled.ident (h : e.Spelled) :
    isInterfaceStyle e.ident.1 = true ∨ (e.implements = none ∧ e.ident = ([], [])) := by
  unfold Extern.ident
  split
  · rename_i id hid
    exact .inl (h.implemented id hid).1
  · rename_i hnone
    split
    · rename_i hstyle
      exact .inl (h.slot hstyle)
    · exact .inr ⟨hnone, rfl⟩

/-- The rewrite that renaming a slot comes to. -/
def aim (e : Extern T) (to_ : Text) : Rewrite :=
  if isInterfaceStyle to_ = false then
    { oldExtern := e.name
      newExtern := to_
      implements := if e.ident.1 = [] then none else some (versioned e.ident.1 e.ident.2) }
  else
    { oldExtern := e.name
      newExtern := versioned e.ident.1 e.ident.2
      implements := none }

/-- A default slot is named after its interface, and a pinned version is its own. -/
def Suits (e : Extern T) (to_ : Text) : Prop :=
  isInterfaceStyle to_ = true →
    slotName to_ = e.ident.1 ∧ ((splitExternName to_).2 = [] ∨ (splitExternName to_).2 = e.ident.2)

@[simp] theorem aim_oldExtern (e : Extern T) (to_ : Text) : (e.aim to_).oldExtern = e.name := by
  unfold aim
  split
  · rfl
  · rfl

theorem planRewrite_iff (e : Extern T) (to_ : Text) (r : Rewrite) :
    planRewrite e.name to_ e.ident.1 e.ident.2 = .ok r ↔ e.Suits to_ ∧ r = e.aim to_ := by
  unfold planRewrite aim Suits
  by_cases hstyle : isInterfaceStyle to_ = false
  · rw [if_pos hstyle, if_pos hstyle, Except.ok.injEq, eq_comm]
    refine (and_iff_right ?_).symm
    intro h
    rw [hstyle] at h
    cases h
  · rw [if_neg hstyle, if_neg hstyle]
    rw [Bool.not_eq_false] at hstyle
    change (if (splitExternName to_).1 ≠ e.ident.1 then _ else
      if (splitExternName to_).2 ≠ [] ∧ (splitExternName to_).2 ≠ e.ident.2 then _ else _) = _ ↔ _
    unfold slotName
    split
    · rename_i hne
      exact iff_of_false (by simp) (fun h => hne (h.1 hstyle).1)
    · rename_i heq
      rw [not_not] at heq
      split
      · rename_i hpin
        refine iff_of_false (by simp) ?_
        rintro ⟨hsuits, -⟩
        rcases (hsuits hstyle).2 with hv | hv
        · exact hpin.1 hv
        · exact hpin.2 hv
      · rename_i hpin
        have hv : (splitExternName to_).2 = [] ∨ (splitExternName to_).2 = e.ident.2 := by
          by_contra hnot
          exact hpin (not_or.mp hnot)
        rw [Except.ok.injEq, eq_comm]
        exact (and_iff_right fun _ => ⟨heq, hv⟩).symm

/-- The interface of a slot that takes a default name. -/
theorem Spelled.style (h : e.Spelled) (hsuits : e.Suits to_)
    (hstyle : isInterfaceStyle to_ = true) : isInterfaceStyle e.ident.1 = true := by
  rcases h.ident with hident | ⟨-, hident⟩
  · exact hident
  · obtain ⟨hslot, hv⟩ := hsuits hstyle
    have hnil : (splitExternName to_).2 = [] := by simpa [hident] using hv
    rw [← hslot]
    exact isInterfaceStyle_slotName hstyle hnil

end Extern

/-- An extern after the rewrite of its side. -/
def moved (r : Option Rewrite) (e : Extern T) : Extern T := encodedName e (Rewrite.applied r e)

section Moved

variable {e o : Extern T} {to_ : Text}

theorem moved_aim (e : Extern T) (to_ : Text) :
    moved (some (e.aim to_)) e = ⟨(e.aim to_).newExtern, (e.aim to_).implements, e.item⟩ := by
  change encodedName e (if (e.aim to_).oldExtern = e.name then _ else none) = _
  rw [if_pos (e.aim_oldExtern to_)]
  rfl

theorem moved_other (h : o.name ≠ e.name) : moved (some (e.aim to_)) o = o := by
  change encodedName o (if (e.aim to_).oldExtern = o.name then _ else none) = _
  rw [Extern.aim_oldExtern, if_neg (Ne.symm h)]
  rfl

@[simp] theorem moved_item (r : Option Rewrite) (e : Extern T) : (moved r e).item = e.item := by
  unfold moved encodedName
  split
  · rfl
  · rfl

/-- The renamed slot is of its old interface. -/
theorem moved_ident (h : e.Spelled) (hsuits : e.Suits to_) :
    (moved (some (e.aim to_)) e).ident = e.ident := by
  rw [moved_aim]
  unfold Extern.aim
  by_cases hstyle : isInterfaceStyle to_ = false
  · rw [if_pos hstyle]
    rcases h.ident with hident | ⟨-, hident⟩
    · have hne : e.ident.1 ≠ [] := fun hnil => by
        rw [hnil] at hident
        cases hident
      rw [if_neg hne, Extern.ident_annotated]
      exact splitExternName_versioned e.ident_not_mem
    · rw [hident, if_pos rfl]
      exact Extern.ident_inline hstyle e.item
  · rw [if_neg hstyle]
    rw [Bool.not_eq_false] at hstyle
    have hident := isInterfaceStyle_versioned e.ident.2 (h.style hsuits hstyle)
    rw [Extern.ident_default hident]
    exact splitExternName_versioned e.ident_not_mem

/-- The renamed slot has the new slot name. -/
theorem moved_slotName (hsuits : e.Suits to_) :
    slotName (moved (some (e.aim to_)) e).name = slotName to_ := by
  rw [moved_aim]
  unfold Extern.aim
  by_cases hstyle : isInterfaceStyle to_ = false
  · rw [if_pos hstyle]
  · rw [if_neg hstyle, slotName_versioned e.ident_not_mem]
    rw [Bool.not_eq_false] at hstyle
    exact (hsuits hstyle).1.symm

end Moved

/-- The interface slots of a side. -/
def interfaces (es : List (Extern T)) : List (Extern T) := es.filter fun e => e.item.isInterface

/-- The first slot that is called by a name. -/
def chosen (slots : List (Extern T)) (name : Text) : Option (Extern T) :=
  slots.find? fun e => slotName e.name == name || e.name == name

def aimed (slots : List (Extern T)) (from_ to_ : Text) : Option Rewrite :=
  (chosen slots from_).map (Extern.aim · to_)

/-- No other slot of the side has the new name. -/
def Free (slots : List (Extern T)) (e : Extern T) (to_ : Text) : Prop :=
  ∀ o ∈ slots, o.name ≠ e.name → slotName o.name ≠ to_ ∧ o.name ≠ (e.aim to_).newExtern

/-- The slot of a side, if it has one, can be renamed. -/
def Movable (slots : List (Extern T)) (from_ to_ : Text) : Prop :=
  ∀ e ∈ chosen slots from_, e.Suits to_ ∧ Free slots e to_

/-- A binary with the planned names. -/
def relabelled (b : Binary T) (from_ to_ : Text) : Binary T :=
  rewriteExternNames b fun side e =>
    match side with
    | .import_ => Rewrite.applied (aimed (interfaces b.imports) from_ to_) e
    | .export_ => Rewrite.applied (aimed (interfaces b.exports) from_ to_) e

theorem checkCollision_iff (side to_ : Text) (others : List (Text × Text)) (r r' : Rewrite) :
    checkCollision side to_ others r = .ok r' ↔
      (∀ o ∈ others, o.1 ≠ r.oldExtern → o.2 ≠ to_ ∧ o.1 ≠ r.newExtern) ∧ r' = r := by
  unfold checkCollision
  split
  · rename_i hany
    rw [List.any_eq_true] at hany
    obtain ⟨o, ho, hcollides⟩ := hany
    obtain ⟨hne, hor⟩ := of_decide_eq_true hcollides
    refine iff_of_false (by simp) ?_
    rintro ⟨hfree, -⟩
    rcases hor with hslot | hname
    · exact (hfree o ho hne).1 hslot
    · exact (hfree o ho hne).2 hname
  · rename_i hany
    rw [Except.ok.injEq, eq_comm]
    refine (and_iff_right ?_).symm
    intro o ho hne
    rw [← not_or]
    intro hor
    exact hany (List.any_eq_true.mpr ⟨o, ho, decide_eq_true ⟨hne, hor⟩⟩)

/-- The plan for one slot. -/
theorem plan_iff (side : Text) (slots : List (Extern T)) (e : Extern T) (to_ : Text) (r : Rewrite) :
    (planRewrite e.name to_ e.ident.1 e.ident.2).bind
        (checkCollision side to_ (slots.map fun o => (o.name, slotName o.name))) = .ok r ↔
      (e.Suits to_ ∧ Free slots e to_) ∧ r = e.aim to_ := by
  constructor
  · intro h
    cases hplan : planRewrite e.name to_ e.ident.1 e.ident.2 with
    | error err =>
      rw [hplan] at h
      cases h
    | ok r' =>
      rw [hplan] at h
      obtain ⟨hsuits, rfl⟩ := (e.planRewrite_iff to_ r').mp hplan
      obtain ⟨hfree, hr⟩ := (checkCollision_iff side to_ _ _ r).mp h
      refine ⟨⟨hsuits, ?_⟩, hr⟩
      intro o ho hne
      refine hfree _ (List.mem_map_of_mem ho) ?_
      rwa [Extern.aim_oldExtern]
  · rintro ⟨⟨hsuits, hfree⟩, hr⟩
    rw [(e.planRewrite_iff to_ _).mpr ⟨hsuits, rfl⟩]
    refine (checkCollision_iff side to_ _ _ r).mpr ⟨?_, hr⟩
    intro o ho hne
    obtain ⟨o', ho', rfl⟩ := List.mem_map.mp ho
    rw [Extern.aim_oldExtern] at hne
    exact hfree o' ho' hne

theorem transposed_iff {α : Type} (side : Text) (slots : List (Extern T)) (from_ to_ : Text)
    (f : Extern T → α) (plan : α → Except RenameError Rewrite)
    (hplan : ∀ e, plan (f e) = (planRewrite e.name to_ e.ident.1 e.ident.2).bind
      (checkCollision side to_ (slots.map fun o => (o.name, slotName o.name))))
    (r : Option Rewrite) :
    transposed plan ((chosen slots from_).map f) = .ok r ↔
      Movable slots from_ to_ ∧ r = aimed slots from_ to_ := by
  unfold Movable aimed
  cases chosen slots from_ with
  | none => simp [transposed, eq_comm]
  | some e =>
    have hiff := plan_iff side slots e to_
    rw [← hplan] at hiff
    change (plan (f e)).map some = .ok r ↔ _
    constructor
    · intro h
      cases he : plan (f e) with
      | error err =>
        rw [he] at h
        cases h
      | ok r' =>
        rw [he] at h
        obtain ⟨hmovable, rfl⟩ := (hiff r').mp he
        injection h with h
        refine ⟨?_, h.symm⟩
        intro o ho
        cases ho
        exact hmovable
    · rintro ⟨hmovable, rfl⟩
      rw [(hiff _).mpr ⟨hmovable e rfl, rfl⟩]
      rfl

theorem find_importMeta (b : Binary T) (name : Text) :
    ((Meta.importsOf b).find? fun i => i.slot == name || i.externName == name) =
      (chosen (interfaces b.imports) name).map (Meta.importMeta b) :=
  List.find?_map ..

theorem find_exportMeta (b : Binary T) (name : Text) :
    ((Meta.exportsOf b).find? fun e => e.slot == name || e.externName == name) =
      (chosen (interfaces b.exports) name).map Meta.exportMeta :=
  List.find?_map ..

/-- What a renaming checks and what it comes to. -/
theorem rename_iff {t : Toolchain T V} {c c' : Component t} {from_ to_ : Text} :
    rename t c from_ to_ = .ok c' ↔
      ¬ (chosen (interfaces c.binary.imports) from_ = none ∧
          chosen (interfaces c.binary.exports) from_ = none) ∧
        Movable (interfaces c.binary.imports) from_ to_ ∧
        Movable (interfaces c.binary.exports) from_ to_ ∧
        (if Rewrite.noop (aimed (interfaces c.binary.imports) from_ to_) ∧
            Rewrite.noop (aimed (interfaces c.binary.exports) from_ to_) then c' = c
          else load t (relabelled c.binary from_ to_) = .ok c') := by
  have hi := transposed_iff (text "import") (interfaces c.binary.imports) from_ to_
    (Meta.importMeta c.binary) (planImportRewrite · to_ c.metadata.imports) (by
      intro e
      rw [c.imports_eq]
      change _ = (planRewrite e.name to_ e.ident.1 e.ident.2).bind _
      unfold planImportRewrite Meta.importsOf
      rw [List.map_map]
      rfl)
  have he := transposed_iff (text "export") (interfaces c.binary.exports) from_ to_
    Meta.exportMeta (planExportRewrite · to_ c.metadata.exports) (by
      intro e
      rw [c.exports_eq]
      change _ = (planRewrite e.name to_ e.ident.1 e.ident.2).bind _
      unfold planExportRewrite Meta.exportsOf
      rw [List.map_map]
      rfl)
  unfold rename
  simp only
  rw [c.imports_eq, c.exports_eq, find_importMeta, find_exportMeta]
  rw [← c.imports_eq, ← c.exports_eq]
  simp only [Option.isNone_map, Option.isNone_iff_eq_none]
  by_cases hnone : chosen (interfaces c.binary.imports) from_ = none ∧
      chosen (interfaces c.binary.exports) from_ = none
  · rw [if_pos hnone]
    exact iff_of_false (by simp) fun h => h.1 hnone
  · rw [if_neg hnone, and_iff_right hnone]
    cases hri : transposed (planImportRewrite · to_ c.metadata.imports)
        ((chosen (interfaces c.binary.imports) from_).map (Meta.importMeta c.binary)) with
    | error err =>
      refine iff_of_false (by simp) ?_
      rintro ⟨hmovable, -⟩
      rw [(hi _).mpr ⟨hmovable, rfl⟩] at hri
      cases hri
    | ok ri =>
      obtain ⟨hmi, rfl⟩ := (hi ri).mp hri
      rw [and_iff_right hmi]
      cases hre : transposed (planExportRewrite · to_ c.metadata.exports)
          ((chosen (interfaces c.binary.exports) from_).map Meta.exportMeta) with
      | error err =>
        refine iff_of_false (by simp) ?_
        rintro ⟨hmovable, -⟩
        rw [(he _).mpr ⟨hmovable, rfl⟩] at hre
        cases hre
      | ok re =>
        obtain ⟨hme, rfl⟩ := (he re).mp hre
        rw [and_iff_right hme]
        simp only
        split
        · rw [Except.ok.injEq, eq_comm]
        · split
          · rename_i err hload
            change load t (relabelled c.binary from_ to_) = .error err at hload
            rw [hload]
            exact iff_of_false (by simp) (by simp)
          · rename_i r hload
            change load t (relabelled c.binary from_ to_) = .ok r at hload
            rw [hload, Except.ok.injEq, Except.ok.injEq]

def Extern.Called (e : Extern T) (name : Text) : Prop := slotName e.name = name ∨ e.name = name

theorem Extern.Called.slotName {e : Extern T} {name : Text} (h : e.Called name) :
    slotName e.name = Component.slotName name := by
  rcases h with h | h
  · rw [← h, slotName_slotName]
  · rw [h]

/-- The externs of one side of a valid component. -/
structure Naming (es : List (Extern T)) : Prop where
  nodup : (es.map Extern.name).Nodup
  spelled : ∀ e ∈ es, e.Spelled
  label : ∀ e ∈ es, isInterfaceStyle e.name = false → '@' ∉ e.name
  default : ∀ e ∈ es, isInterfaceStyle e.name = true →
    e.implements = none ∧ versioned (slotName e.name) (splitExternName e.name).2 = e.name

theorem chosen_eq_some {slots : List (Extern T)} {name : Text} {e : Extern T}
    (h : chosen slots name = some e) : e ∈ slots ∧ e.Called name := by
  refine ⟨List.mem_of_find?_eq_some h, ?_⟩
  have hcalled := List.find?_some h
  rwa [Bool.or_eq_true, beq_iff_eq, beq_iff_eq] at hcalled

theorem chosen_eq_none {slots : List (Extern T)} {name : Text} (h : chosen slots name = none) :
    ∀ e ∈ slots, ¬ e.Called name := by
  intro e he hcalled
  have hnot := List.find?_eq_none.mp h e he
  rw [Bool.or_eq_true, beq_iff_eq, beq_iff_eq] at hnot
  exact hnot hcalled

/-- Only one slot is called by the name. -/
theorem chosen_eq_of_unique {slots : List (Extern T)} {name : Text} {e : Extern T} (he : e ∈ slots)
    (hcalled : e.Called name) (hunique : ∀ o ∈ slots, o.Called name → o = e) :
    chosen slots name = some e := by
  cases h : chosen slots name with
  | none => exact absurd hcalled (chosen_eq_none h e he)
  | some o => rw [hunique o (chosen_eq_some h).1 (chosen_eq_some h).2]

theorem mem_interfaces {es : List (Extern T)} {e : Extern T} (h : e ∈ interfaces es) : e ∈ es :=
  List.mem_of_mem_filter h

namespace Naming

variable {es : List (Extern T)} {e o x : Extern T} {from_ to_ : Text}

theorem eq_of_name (h : Naming es) (he : e ∈ es) (ho : o ∈ es) (hname : o.name = e.name) : o = e :=
  List.inj_on_of_nodup_map h.nodup ho he hname

/-- A slot of the same interface that is renamed to a name of a slot takes its
name. -/
theorem restores (h : Naming es) (he : e ∈ es) (hident : x.ident = e.ident)
    (hitem : x.item = e.item) (hcalled : e.Called from_) :
    x.Suits from_ ∧ moved (some (x.aim from_)) x = e := by
  rw [moved_aim]
  unfold Extern.Suits Extern.aim
  rw [hident, hitem]
  cases hstyle : isInterfaceStyle e.name with
  | false =>
    have hname : e.name = from_ := by
      rcases hcalled with hslot | hname
      · rw [← hslot, slotName_of_not_mem (h.label e he hstyle)]
      · exact hname
    rw [hname] at hstyle
    refine ⟨fun hfrom => absurd (hstyle.symm.trans hfrom) (by simp), ?_⟩
    rw [if_pos hstyle, ← hname]
    obtain ⟨name, implements, item⟩ := e
    cases implements with
    | none =>
      change name = from_ at hname
      rw [← hname] at hstyle
      rw [Extern.ident_inline hstyle item]
      rfl
    | some id =>
      obtain ⟨hid, hspelled⟩ := (h.spelled _ he).implemented id rfl
      have hne : (splitExternName id).1 ≠ [] := by
        intro hnil
        rw [slotName, hnil] at hid
        cases hid
      rw [Extern.ident_annotated, if_neg hne]
      exact congrArg (fun i => (⟨name, some i, item⟩ : Extern T)) hspelled
  | true =>
    obtain ⟨hnone, hname⟩ := h.default e he hstyle
    have hslot := (h.spelled e he).slot hstyle
    have hsplit : e.ident = splitExternName e.name := by
      obtain ⟨name, implements, item⟩ := e
      cases hnone
      exact Extern.ident_default hstyle item
    have hfrom : isInterfaceStyle from_ = true := by
      rcases hcalled with hcalled | hcalled
      · rwa [← hcalled]
      · rwa [← hcalled]
    refine ⟨fun _ => ⟨?_, ?_⟩, ?_⟩
    · rw [hsplit, ← hcalled.slotName]
      rfl
    · rcases hcalled with hcalled | hcalled
      · left
        rw [← hcalled, splitExternName, splitOnce_eq_none_iff.mpr (not_mem_slotName _)]
      · right
        rw [hsplit, hcalled]
    · rw [hfrom, if_neg (by simp), hsplit]
      obtain ⟨name, implements, item⟩ := e
      cases hnone
      exact congrArg (fun n => (⟨n, none, item⟩ : Extern T)) hname

/-- A rewrite to the same extern name changes nothing. -/
theorem noop (h : Naming es) (he : e ∈ es) (hsuits : e.Suits to_)
    (hnoop : e.name = (e.aim to_).newExtern) : moved (some (e.aim to_)) e = e := by
  have haim : e.aim to_ = e.aim e.name := by
    unfold Extern.aim at hnoop ⊢
    by_cases hstyle : isInterfaceStyle to_ = false
    · rw [if_pos hstyle] at hnoop
      change e.name = to_ at hnoop
      rw [hnoop]
    · rw [if_neg hstyle] at hnoop ⊢
      rw [Bool.not_eq_false] at hstyle
      have hname : isInterfaceStyle e.name = true := by
        rw [hnoop]
        exact isInterfaceStyle_versioned _ ((h.spelled e he).style hsuits hstyle)
      rw [hname, if_neg (by simp)]
  rw [haim]
  exact (h.restores he rfl rfl (.inr rfl)).2

/-- What becomes of the slot that is chosen and of the others. -/
theorem moved_cases (h : Naming es) (to_ : Text) (he : e ∈ es)
    (hchosen : chosen (interfaces es) from_ = some o) :
    (e = o ∨ e.name ≠ o.name) ∧
      (e.name ≠ o.name → moved (aimed (interfaces es) from_ to_) e = e) := by
  constructor
  · by_cases hname : e.name = o.name
    · exact .inl (h.eq_of_name (mem_interfaces (chosen_eq_some hchosen).1) he hname)
    · exact .inr hname
  · intro hname
    rw [aimed, hchosen]
    exact moved_other hname

theorem moved_chosen (to_ : Text) (hchosen : chosen (interfaces es) from_ = some e) :
    moved (aimed (interfaces es) from_ to_) e = moved (some (e.aim to_)) e := by
  rw [aimed, hchosen]
  rfl

theorem moved_unchosen (hchosen : chosen (interfaces es) from_ = none) (e : Extern T) :
    moved (aimed (interfaces es) from_ to_) e = e := by
  rw [aimed, hchosen]
  rfl

/-- A slot that is not called by the old name stays. -/
theorem moved_uncalled (h : Naming es) (to_ : Text) (he : e ∈ es) (hcalled : ¬ e.Called from_) :
    moved (aimed (interfaces es) from_ to_) e = e := by
  cases hchosen : chosen (interfaces es) from_ with
  | none => exact moved_unchosen hchosen e
  | some o =>
    obtain ⟨heq | hname, hother⟩ := h.moved_cases to_ he hchosen
    · exact absurd (heq ▸ (chosen_eq_some hchosen).2) hcalled
    · exact hother hname

theorem ident_moved (h : Naming es) (hmovable : Movable (interfaces es) from_ to_) (he : e ∈ es) :
    (moved (aimed (interfaces es) from_ to_) e).ident = e.ident := by
  cases hchosen : chosen (interfaces es) from_ with
  | none => rw [moved_unchosen hchosen]
  | some o =>
    obtain ⟨heq | hname, hother⟩ := h.moved_cases to_ he hchosen
    · rw [heq, moved_chosen to_ hchosen]
      exact moved_ident (h.spelled o (heq ▸ he)) (hmovable o hchosen).1
    · rw [hother hname]

/-- A side is relabelled as asked, and keeps its slots apart, just when its slots
are distinct. -/
theorem distinct_iff (h : Naming es) (hmovable : Movable (interfaces es) from_ to_) :
    ((∀ e ∈ interfaces es, e.Called from_ →
        slotName (moved (aimed (interfaces es) from_ to_) e).name = slotName to_) ∧
      ∀ e ∈ interfaces es, ∀ o ∈ interfaces es,
        slotName (moved (aimed (interfaces es) from_ to_) e).name =
          slotName (moved (aimed (interfaces es) from_ to_) o).name →
        slotName e.name = slotName o.name) ↔
      Distinct ((interfaces es).map Extern.name) from_ to_ := by
  cases hchosen : chosen (interfaces es) from_ with
  | none =>
    have huncalled := chosen_eq_none hchosen
    simp only [moved_unchosen hchosen]
    refine iff_of_true ⟨?_, ?_⟩ ⟨.inr ?_, ?_⟩
    · exact fun e he hcalled => absurd hcalled (huncalled e he)
    · exact fun e _ o _ hname => hname
    · intro n hn n' _ hcalled
      obtain ⟨e, he, rfl⟩ := List.mem_map.mp hn
      exact absurd hcalled (huncalled e he)
    · intro n hn hcalled
      obtain ⟨e, he, rfl⟩ := List.mem_map.mp hn
      exact absurd hcalled (huncalled e he)
  | some x =>
    obtain ⟨hx, hxcalled⟩ := chosen_eq_some hchosen
    have hmoved := moved_slotName (hmovable x hchosen).1
    rw [← moved_chosen to_ hchosen] at hmoved
    have hother : ∀ e ∈ interfaces es, e.name ≠ x.name →
        moved (aimed (interfaces es) from_ to_) e = e := fun e he hname =>
      (h.moved_cases to_ (mem_interfaces he) hchosen).2 hname
    constructor
    · rintro ⟨hlabels, hapart⟩
      -- a further slot called by the old name stays, so both names have one slot name
      have hsingle : ∀ e ∈ interfaces es, e.Called from_ → e.name ≠ x.name →
          slotName to_ = slotName from_ := by
        intro e he hcalled hname
        rw [← hlabels e he hcalled, hother e he hname, hcalled.slotName]
      refine ⟨?_, ?_⟩
      · by_cases hsame : slotName to_ = slotName from_
        · exact .inl hsame
        · right
          have honly : ∀ e ∈ interfaces es, e.Called from_ → e.name = x.name := by
            intro e he hcalled
            by_contra hname
            exact hsame (hsingle e he hcalled hname)
          intro n hn n' hn' hcalled hcalled'
          obtain ⟨e, he, rfl⟩ := List.mem_map.mp hn
          obtain ⟨o, ho, rfl⟩ := List.mem_map.mp hn'
          exact (honly e he hcalled).trans (honly o ho hcalled').symm
      · intro n hn hcalled hne n' hn' hname htaken
        obtain ⟨e, he, rfl⟩ := List.mem_map.mp hn
        obtain ⟨o, ho, rfl⟩ := List.mem_map.mp hn'
        have hex : e.name = x.name := by
          by_contra hex
          apply hne
          rw [← hlabels e he hcalled, hother e he hex]
        rw [hex] at hname hne
        apply hne
        rw [← htaken]
        apply hapart x hx o ho
        rw [hmoved, hother o ho hname, htaken]
    · rintro ⟨hsingle, hfresh⟩
      constructor
      · intro e he hcalled
        by_cases hex : e.name = x.name
        · rw [h.eq_of_name (mem_interfaces hx) (mem_interfaces he) hex, hmoved]
        · rw [hother e he hex]
          rcases hsingle with hsame | honly
          · rw [hsame, hcalled.slotName]
          · exact absurd (honly _ (List.mem_map_of_mem he) _ (List.mem_map_of_mem hx) hcalled
              hxcalled) hex
      · have hmeet : ∀ o ∈ interfaces es, o.name ≠ x.name → slotName to_ = slotName o.name →
            slotName x.name = slotName o.name := by
          intro o ho hname hmeet
          by_cases hsame : slotName x.name = slotName to_
          · rw [hsame, hmeet]
          · exact absurd hmeet.symm
              (hfresh _ (List.mem_map_of_mem hx) hxcalled hsame _ (List.mem_map_of_mem ho) hname)
        intro e he o ho hname
        by_cases hex : e.name = x.name
        · by_cases hox : o.name = x.name
          · rw [hex, hox]
          · rw [h.eq_of_name (mem_interfaces hx) (mem_interfaces he) hex, hmoved,
              hother o ho hox] at hname
            rw [hex, hmeet o ho hox hname]
        · by_cases hox : o.name = x.name
          · rw [h.eq_of_name (mem_interfaces hx) (mem_interfaces ho) hox, hmoved,
              hother e he hex] at hname
            rw [hox, hmeet e he hex hname.symm]
          · rwa [hother e he hex, hother o ho hox] at hname


theorem interfaces_moved (r : Option Rewrite) (es : List (Extern T)) :
    interfaces (es.map (moved r)) = (interfaces es).map (moved r) := by
  unfold interfaces
  rw [List.filter_map]
  congr 2
  ext e
  exact congrArg Item.isInterface (moved_item r e)

/-- The renamed slot is called by the new name. -/
theorem called_moved (hsuits : e.Suits to_) (hspelled : to_ ≠ slotName to_ ++ ['@']) :
    (moved (some (e.aim to_)) e).Called to_ := by
  by_cases hstyle : isInterfaceStyle to_ = false
  · right
    rw [moved_aim, Extern.aim, if_pos hstyle]
  · have hslot := moved_slotName hsuits
    rw [Bool.not_eq_false] at hstyle
    obtain ⟨hinterface, hversion⟩ := hsuits hstyle
    have hto := versioned_split to_ hspelled
    rcases hversion with hversion | hversion
    · left
      rw [hslot]
      rwa [hversion] at hto
    · right
      rw [moved_aim, Extern.aim, hstyle, if_neg (by simp)]
      rwa [hversion, hinterface] at hto

/-- A slot that is called by the old name, and whose slot name stays, is called by
the new name already. -/
theorem called_of_slotName (h : Naming es) (he : e ∈ es) (hsuits : e.Suits to_)
    (hspelled : to_ ≠ slotName to_ ++ ['@'])
    (hlabel : isInterfaceStyle to_ = false → '@' ∉ to_) (hslot : slotName e.name = slotName to_) :
    e.Called to_ := by
  by_cases hstyle : isInterfaceStyle to_ = false
  · left
    rw [hslot, slotName_of_not_mem (hlabel hstyle)]
  · rw [Bool.not_eq_false] at hstyle
    have hto := versioned_split to_ hspelled
    have hinterface := (h.spelled e he).style hsuits hstyle
    obtain ⟨hident, hversion⟩ := hsuits hstyle
    rcases hversion with hversion | hversion
    · left
      rw [hslot]
      rwa [hversion] at hto
    · right
      have hname : isInterfaceStyle e.name = true := by
        by_contra hplain
        rw [Bool.not_eq_true] at hplain
        rw [← hident, ← hslot, slotName_of_not_mem (h.label e he hplain), hplain] at hinterface
        cases hinterface
      obtain ⟨hnone, hversioned⟩ := h.default e he hname
      have hsplit : e.ident = splitExternName e.name := by
        obtain ⟨name, implements, item⟩ := e
        cases hnone
        exact Extern.ident_default hname item
      rw [← hversioned, ← hto, hversion, hslot, hsplit]

/-- The slots of a side that was renamed, when no slot of it had the new name. -/
theorem unmoved (h : Naming es) (h' : Naming (es.map (moved (aimed (interfaces es) from_ to_))))
    (hmovable : Movable (interfaces es) from_ to_) (hspelled : to_ ≠ slotName to_ ++ ['@'])
    (hdistinct : Distinct ((interfaces es).map Extern.name) from_ to_)
    (hfresh : ∀ e ∈ interfaces es, ¬ e.Called to_) :
    Movable (interfaces (es.map (moved (aimed (interfaces es) from_ to_)))) to_ from_ ∧
      (∀ e ∈ es, moved (aimed (interfaces (es.map (moved (aimed (interfaces es) from_ to_))))
        to_ from_) (moved (aimed (interfaces es) from_ to_) e) = e) ∧
      chosen (interfaces (es.map (moved (aimed (interfaces es) from_ to_)))) to_ =
        (chosen (interfaces es) from_).map (moved (aimed (interfaces es) from_ to_)) := by
  cases hchosen : chosen (interfaces es) from_ with
  | none =>
    have hmap : es.map (moved (aimed (interfaces es) from_ to_)) = es := by
      conv_rhs => rw [← List.map_id es]
      exact List.map_congr_left fun e _ => moved_unchosen hchosen e
    have hnone : chosen (interfaces es) to_ = none := by
      by_contra hsome
      obtain ⟨e, he⟩ := Option.ne_none_iff_exists'.mp hsome
      exact hfresh e (chosen_eq_some he).1 (chosen_eq_some he).2
    rw [hmap]
    refine ⟨?_, ?_, hnone⟩
    · intro e he
      rw [hnone] at he
      cases he
    · intro e _
      rw [moved_unchosen hchosen, moved_unchosen hnone]
  | some x =>
    obtain ⟨hx, hxcalled⟩ := chosen_eq_some hchosen
    obtain ⟨hsuits, hfree⟩ := hmovable x hchosen
    have hxes := mem_interfaces hx
    have hmoved := moved_chosen to_ hchosen
    have hother : ∀ e ∈ es, e.name ≠ x.name → moved (aimed (interfaces es) from_ to_) e = e :=
      fun e he hname => (h.moved_cases to_ he hchosen).2 hname
    -- the renamed slot, and no other, is called by the new name
    have hchosen' : chosen (interfaces (es.map (moved (aimed (interfaces es) from_ to_)))) to_ =
        some (moved (aimed (interfaces es) from_ to_) x) := by
      rw [interfaces_moved]
      apply chosen_eq_of_unique (List.mem_map_of_mem hx)
      · rw [hmoved]
        exact called_moved hsuits hspelled
      · intro o ho hcalled
        obtain ⟨e, he, rfl⟩ := List.mem_map.mp ho
        by_cases hname : e.name = x.name
        · rw [h.eq_of_name hxes (mem_interfaces he) hname]
        · rw [hother e (mem_interfaces he) hname] at hcalled
          exact absurd hcalled (hfresh e he)
    have hback := h.restores hxes (h.ident_moved hmovable hxes) (moved_item _ x) hxcalled
    refine ⟨?_, ?_, hchosen'⟩
    · intro e' he'
      rw [hchosen'] at he'
      cases he'
      refine ⟨hback.1, ?_⟩
      intro o' ho' hname'
      rw [interfaces_moved] at ho'
      obtain ⟨o, ho, rfl⟩ := List.mem_map.mp ho'
      have hname : o.name ≠ x.name := by
        intro hname
        rw [h.eq_of_name hxes (mem_interfaces ho) hname] at hname'
        exact hname' rfl
      rw [hother o (mem_interfaces ho) hname]
      constructor
      · intro hslot
        rcases hdistinct.single with hsame | honly
        · apply hfresh x hx
          apply h.called_of_slotName hxes hsuits hspelled
          · intro hstyle
            have hnew := h'.label _ (List.mem_map_of_mem hxes)
            rw [hmoved, moved_aim, Extern.aim, if_pos hstyle] at hnew
            exact hnew hstyle
          · rw [hsame, hxcalled.slotName]
        · exact hname (honly _ (List.mem_map_of_mem ho) _ (List.mem_map_of_mem hx) (.inl hslot)
            hxcalled)
      · have hnew := congrArg Extern.name hback.2
        rw [moved_aim] at hnew
        change _ = x.name at hnew
        rw [show ((moved (aimed (interfaces es) from_ to_) x).aim from_).newExtern = x.name
          from hnew]
        exact hname
    · intro e he
      rw [aimed, hchosen']
      by_cases hname : e.name = x.name
      · rw [h.eq_of_name hxes he hname]
        exact hback.2
      · have hne : (moved (aimed (interfaces es) from_ to_) e).name ≠
            (moved (aimed (interfaces es) from_ to_) x).name := by
          have hnodup := h'.nodup
          rw [List.map_map] at hnodup
          intro hsame
          exact hname (congrArg Extern.name (List.inj_on_of_nodup_map hnodup he hxes hsame))
        rw [hother e he hname] at hne ⊢
        exact moved_other hne


end Naming

end Eo9.Component
