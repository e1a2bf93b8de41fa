import Mathlib.Data.List.Forall2
import Eo9.Component.Renaming

/-!
# What `rename` relabels

When a renaming relabels the slots called `from` and nothing else, keeps slots
apart and can be undone.

A version-pinned new name is compared with the other slots' versionless names, so
that such a renaming may put two slots under one name. Of several slots called
`from` only the first is relabelled.
-/

namespace Eo9.Component

open Eo9.Library

variable {T V : Type}

/-- A slot is called by its slot name or by its extern name. -/
def ImportMeta.Called (i : ImportMeta) (name : Text) : Prop :=
  i.slot = name ∨ i.externName = name

def ExportMeta.Called (e : ExportMeta) (name : Text) : Prop :=
  e.slot = name ∨ e.externName = name

/-- An import slot before and after a renaming. -/
structure ImportMeta.Relabelled (from_ to_ : Text) (i i' : ImportMeta) : Prop where
  interface : i'.interface = i.interface
  version : i'.version = i.version
  required : i'.required = i.required
  authorityFree : i'.authorityFree = i.authorityFree
  called : i.Called from_ → i'.slot = slotName to_
  other : ¬ i.Called from_ → i' = i

/-- An export slot before and after a renaming. -/
structure ExportMeta.Relabelled (from_ to_ : Text) (e e' : ExportMeta) : Prop where
  interface : e'.interface = e.interface
  version : e'.version = e.version
  called : e.Called from_ → e'.slot = slotName to_
  other : ¬ e.Called from_ → e' = e

/-- Two positions share a name only where they did before. -/
def KeepsApart (before after : List Text) : Prop :=
  ∀ i j : ℕ, after[i]? = after[j]? → before[i]? = before[j]?

/-- A name that some slot is called by. -/
def Meta.Names (m : Meta) (name : Text) : Prop :=
  (∃ i ∈ m.imports, i.Called name) ∨ ∃ e ∈ m.exports, e.Called name

/-- A pure relabelling of the slots called `from_`. -/
structure Relabels (t : Toolchain T V) (c c' : Component t) (from_ to_ : Text) : Prop where
  kind : c'.metadata.kind = c.metadata.kind
  imports : List.Forall₂ (ImportMeta.Relabelled from_ to_) c.metadata.imports c'.metadata.imports
  exports : List.Forall₂ (ExportMeta.Relabelled from_ to_) c.metadata.exports c'.metadata.exports
  importsApart : KeepsApart (c.metadata.imports.map ImportMeta.slot)
    (c'.metadata.imports.map ImportMeta.slot)
  exportsApart : KeepsApart (c.metadata.exports.map ExportMeta.slot)
    (c'.metadata.exports.map ExportMeta.slot)
  back : ¬ c.metadata.Names to_ →
    ∃ c'', rename t c' to_ from_ = .ok c'' ∧ c''.metadata = c.metadata

/-- The new name ends in no bare `@`, and both sides are distinct. -/
structure Relabellable (m : Meta) (from_ to_ : Text) : Prop where
  spelled : to_ ≠ slotName to_ ++ ['@']
  imports : Distinct (m.imports.map ImportMeta.externName) from_ to_
  exports : Distinct (m.exports.map ExportMeta.externName) from_ to_

/-- Two binaries that differ only in how names are wired that neither has. -/
structure Binary.Similar (b b' : Binary T) : Prop where
  imports : b'.imports = b.imports
  exports : b'.exports = b.exports
  given : ∀ leaf n, b'.wires.given leaf n = b.wires.given leaf n ∨
    ∃ m, b.wires.given leaf n = .outer m ∧ m ∉ b.imports.map Extern.name
  exported : ∀ n ∈ b.exports.map Extern.name, b'.wires.exported n = b.wires.exported n

namespace Component

variable {t : Toolchain T V} (c : Component t)

section Sides

variable (hnames : ∀ b : Binary T, t.valid b = true → ∀ e ∈ b.imports ++ b.exports, e.Spelled)

include hnames

theorem importNaming : Naming c.binary.imports where
  nodup := c.named.imports_nodup
  spelled := fun e he => hnames c.binary c.loaded_iff.1 e (List.mem_append_left _ he)
  label := fun e he => c.named.label e (List.mem_append_left _ he)
  default := fun e he hstyle => by
    obtain ⟨hnone, -, hname⟩ := c.named.default e (List.mem_append_left _ he) hstyle
    exact ⟨hnone, hname⟩

theorem exportNaming : Naming c.binary.exports where
  nodup := c.named.exports_nodup
  spelled := fun e he => hnames c.binary c.loaded_iff.1 e (List.mem_append_right _ he)
  label := fun e he => c.named.label e (List.mem_append_right _ he)
  default := fun e he hstyle => by
    obtain ⟨hnone, -, hname⟩ := c.named.default e (List.mem_append_right _ he) hstyle
    exact ⟨hnone, hname⟩

end Sides

end Component

def importAim (b : Binary T) (from_ to_ : Text) : Option Rewrite :=
  aimed (interfaces b.imports) from_ to_

def exportAim (b : Binary T) (from_ to_ : Text) : Option Rewrite :=
  aimed (interfaces b.exports) from_ to_

/-- A rewrite of a side that is one to the same name changes nothing. -/
theorem Naming.moved_noop {es : List (Extern T)} {from_ to_ : Text} (h : Naming es)
    (hmovable : Movable (interfaces es) from_ to_)
    (hnoop : Rewrite.noop (aimed (interfaces es) from_ to_)) :
    es.map (moved (aimed (interfaces es) from_ to_)) = es := by
  conv_rhs => rw [← List.map_id es]
  apply List.map_congr_left
  intro e he
  cases hchosen : chosen (interfaces es) from_ with
  | none => exact moved_unchosen hchosen e
  | some x =>
    obtain ⟨heq | hname, hother⟩ := h.moved_cases to_ he hchosen
    · rw [aimed, hchosen] at hnoop
      have hnew := of_decide_eq_true hnoop
      rw [Extern.aim_oldExtern] at hnew
      rw [heq, moved_chosen to_ hchosen]
      exact h.noop (heq ▸ he) (hmovable x hchosen).1 hnew
    · exact hother hname

/-- What a successful renaming has done. -/
structure Renamed (t : Toolchain T V) (c c' : Component t) (from_ to_ : Text) : Prop where
  some : ¬ (chosen (interfaces c.binary.imports) from_ = none ∧
    chosen (interfaces c.binary.exports) from_ = none)
  importsMovable : Movable (interfaces c.binary.imports) from_ to_
  exportsMovable : Movable (interfaces c.binary.exports) from_ to_
  imports : c'.binary.imports = c.binary.imports.map (moved (importAim c.binary from_ to_))
  exports : c'.binary.exports = c.binary.exports.map (moved (exportAim c.binary from_ to_))
  binary : Rewrite.noop (importAim c.binary from_ to_) ∧ Rewrite.noop (exportAim c.binary from_ to_) ∨
    c'.binary = relabelled c.binary from_ to_

section Renamed

variable {t : Toolchain T V} {c c' : Component t} {from_ to_ : Text}
variable (hnames : ∀ b : Binary T, t.valid b = true → ∀ e ∈ b.imports ++ b.exports, e.Spelled)

include hnames

theorem renamed (h : rename t c from_ to_ = .ok c') : Renamed t c c' from_ to_ := by
  obtain ⟨hsome, hmi, hme, hresult⟩ := rename_iff.mp h
  split at hresult
  · rename_i hnoop
    subst hresult
    exact
      { some := hsome
        importsMovable := hmi
        exportsMovable := hme
        imports := ((c'.importNaming hnames).moved_noop hmi hnoop.1).symm
        exports := ((c'.exportNaming hnames).moved_noop hme hnoop.2).symm
        binary := .inl hnoop }
  · have hbinary := load_eq_ok hresult
    exact
      { some := hsome
        importsMovable := hmi
        exportsMovable := hme
        imports := by rw [hbinary]; rfl
        exports := by rw [hbinary]; rfl
        binary := .inr hbinary }

end Renamed

/-- Reading what is kept from the elements that are kept. -/
theorem flatMap_filter_map {α β γ : Type} {l : List α} {g : α → β} {p : β → Bool} {q : α → Bool}
    {f : β → List γ} {f' : α → List γ} (hp : ∀ a ∈ l, p (g a) = q a) (hf : ∀ a ∈ l, f (g a) = f' a) :
    ((l.map g).filter p).flatMap f = (l.filter q).flatMap f' := by
  have hfilter : l.filter (p ∘ g) = l.filter q := List.filter_congr hp
  rw [List.filter_map, List.flatMap_map, hfilter]
  exact List.flatMap_congr fun a ha => hf a (List.mem_of_mem_filter ha)

/-- The functions of a slot, in a binary whose slots have the same kinds and
interfaces under other names. -/
theorem functions_congr {b b' : Binary T} {e e' : Extern T} {gi ge : Extern T → Extern T}
    (himports : b'.imports = b.imports.map gi) (hexports : b'.exports = b.exports.map ge)
    (hgi : ∀ o ∈ b.imports, (gi o).ident = o.ident ∧ (gi o).item = o.item)
    (hge : ∀ o ∈ b.exports, (ge o).ident = o.ident ∧ (ge o).item = o.item)
    (hident : e'.ident = e.ident) (hitem : e'.item = e.item) :
    b'.functions e' = b.functions e := by
  unfold Binary.functions
  congr 1
  unfold Binary.sharing
  rw [hident]
  split
  · rw [List.flatMap_singleton, List.flatMap_singleton, hitem]
  · unfold Binary.slots
    rw [himports, hexports, List.filter_filter, List.filter_filter, List.filter_append,
      List.filter_append, List.flatMap_append, List.flatMap_append]
    congr 1
    · apply flatMap_filter_map
      · intro o ho
        rw [(hgi o ho).1, (hgi o ho).2]
      · intro o ho
        rw [(hgi o ho).2]
    · apply flatMap_filter_map
      · intro o ho
        rw [(hge o ho).1, (hge o ho).2]
      · intro o ho
        rw [(hge o ho).2]

/-- Function exports are not renamed. -/
theorem Naming.functionExports {es : List (Extern T)} {from_ to_ : Text} (h : Naming es)
    (p : Item T → Bool) (hp : ∀ i, p i = true → i.isInterface = false) :
    ((es.map (moved (aimed (interfaces es) from_ to_))).filter fun e => p e.item).map Extern.name =
      (es.filter fun e => p e.item).map Extern.name := by
  have hfilter : es.filter ((fun e => p e.item) ∘ moved (aimed (interfaces es) from_ to_)) =
      es.filter fun e => p e.item := by
    apply List.filter_congr
    intro e _
    rw [Function.comp_apply, moved_item]
  rw [List.filter_map, List.map_map, hfilter]
  apply List.map_congr_left
  intro e he
  obtain ⟨hes, hpe⟩ := List.mem_filter.mp he
  rw [Function.comp_apply]
  cases hchosen : chosen (interfaces es) from_ with
  | none => rw [moved_unchosen hchosen]
  | some x =>
    obtain ⟨heq | hname, hother⟩ := h.moved_cases to_ hes hchosen
    · have hx := List.of_mem_filter (chosen_eq_some hchosen).1
      rw [heq] at hpe
      rw [hp x.item hpe] at hx
      cases hx
    · rw [hother hname]

/-- The kind of a component depends on the names of its functions and on the
interfaces it exports. -/
theorem classify_congr {functions : List Text} {exports exports' : List ExportMeta}
    (h : exports'.map ExportMeta.interface = exports.map ExportMeta.interface) :
    Meta.classify functions exports' = Meta.classify functions exports := by
  have hfilter : (exports'.filter fun e => e.interface ≠ configuredInterface) ≠ [] ↔
      (exports.filter fun e => e.interface ≠ configuredInterface) ≠ [] := by
    have hmem : ∀ es : List ExportMeta, (es.filter fun e => e.interface ≠ configuredInterface) ≠ [] ↔
        ∃ i ∈ es.map ExportMeta.interface, i ≠ configuredInterface := by
      intro es
      simp
    rw [hmem, hmem, h]
  unfold Meta.classify
  simp only [hfilter]

def Item.isFunction : Item T → Bool
  | .func _ => true
  | _ => false

theorem functionExports_eq (b : Binary T) :
    Meta.functionExports b = (b.exports.filter fun e => e.item.isFunction).map Extern.name := rfl

theorem Item.isInterface_of_isFunction (i : Item T) (h : i.isFunction = true) :
    i.isInterface = false := by
  cases i with
  | func f => rfl
  | interface i => cases h
  | other t => cases h

theorem importsOf_eq (b : Binary T) :
    Meta.importsOf b = (interfaces b.imports).map (Meta.importMeta b) := rfl

theorem exportsOf_eq (b : Binary T) :
    Meta.exportsOf b = (interfaces b.exports).map Meta.exportMeta := rfl

/-- What is read from a component depends on its imports and exports alone. -/
theorem Component.metadata_congr {t : Toolchain T V} {c c' : Component t}
    (himports : c'.binary.imports = c.binary.imports)
    (hexports : c'.binary.exports = c.binary.exports) : c'.metadata = c.metadata := by
  have hfunctions : Binary.functions c'.binary = Binary.functions c.binary := by
    funext e
    unfold Binary.functions Binary.sharing Binary.slots
    rw [himports, hexports]
  have himportsOf : Meta.importsOf c'.binary = Meta.importsOf c.binary := by
    rw [importsOf_eq, importsOf_eq, himports]
    unfold Meta.importMeta
    rw [hfunctions]
  obtain ⟨-, kind, hkind, hmeta⟩ := c.loaded_iff
  obtain ⟨-, kind', hkind', hmeta'⟩ := c'.loaded_iff
  rw [functionExports_eq, exportsOf_eq, hexports, ← functionExports_eq, ← exportsOf_eq, hkind]
    at hkind'
  cases hkind'
  rw [hmeta, hmeta', himportsOf, exportsOf_eq, exportsOf_eq, hexports]

/-- Names that are apart at all positions are apart for all elements. -/
theorem keepsApart_map_iff {α : Type} (l : List α) (before after : α → Text) :
    KeepsApart (l.map before) (l.map after) ↔
      ∀ a ∈ l, ∀ b ∈ l, after a = after b → before a = before b := by
  unfold KeepsApart
  constructor
  · intro h a ha b hb hafter
    obtain ⟨i, hi⟩ := List.mem_iff_getElem?.mp ha
    obtain ⟨j, hj⟩ := List.mem_iff_getElem?.mp hb
    have hij := h i j
    simp only [List.getElem?_map, hi, hj, Option.map_some, Option.some.injEq] at hij
    exact hij hafter
  · intro h i j hafter
    rw [List.getElem?_map, List.getElem?_map] at hafter ⊢
    cases hi : l[i]? with
    | none =>
      cases hj : l[j]? with
      | none => rfl
      | some b => simp [hi, hj] at hafter
    | some a =>
      cases hj : l[j]? with
      | none => simp [hi, hj] at hafter
      | some b =>
        rw [hi, hj] at hafter
        exact congrArg some (h a (List.mem_of_getElem? hi) b (List.mem_of_getElem? hj)
          (Option.some.inj hafter))

theorem forall₂_map_iff {α β : Type} (l : List α) (f g : α → β) (R : β → β → Prop) :
    List.Forall₂ R (l.map f) (l.map g) ↔ ∀ a ∈ l, R (f a) (g a) := by
  rw [List.forall₂_map_left_iff, List.forall₂_map_right_iff, List.forall₂_same]

namespace Renamed

variable {t : Toolchain T V} {c c' : Component t} {from_ to_ : Text}
variable (hnames : ∀ b : Binary T, t.valid b = true → ∀ e ∈ b.imports ++ b.exports, e.Spelled)

include hnames

theorem functions (h : Renamed t c c' from_ to_) {e : Extern T} (he : e ∈ c.binary.imports) :
    c'.binary.functions (moved (importAim c.binary from_ to_) e) = c.binary.functions e := by
  apply functions_congr h.imports h.exports
  · exact fun o ho => ⟨(c.importNaming hnames).ident_moved h.importsMovable ho, moved_item _ o⟩
  · exact fun o ho => ⟨(c.exportNaming hnames).ident_moved h.exportsMovable ho, moved_item _ o⟩
  · exact (c.importNaming hnames).ident_moved h.importsMovable he
  · exact moved_item _ e

theorem importMeta (h : Renamed t c c' from_ to_) {e : Extern T} (he : e ∈ c.binary.imports) :
    Meta.importMeta c'.binary (moved (importAim c.binary from_ to_) e) =
      { Meta.importMeta c.binary e with
        externName := (moved (importAim c.binary from_ to_) e).name
        slot := slotName (moved (importAim c.binary from_ to_) e).name } := by
  have hident := (c.importNaming hnames).ident_moved h.importsMovable he
  unfold Meta.importMeta
  rw [h.functions hnames he]
  change (moved (importAim c.binary from_ to_) e).ident = e.ident at hident
  rw [hident]

theorem exportMeta (h : Renamed t c c' from_ to_) {e : Extern T} (he : e ∈ c.binary.exports) :
    Meta.exportMeta (moved (exportAim c.binary from_ to_) e) =
      { Meta.exportMeta e with
        externName := (moved (exportAim c.binary from_ to_) e).name
        slot := slotName (moved (exportAim c.binary from_ to_) e).name } := by
  have hident := (c.exportNaming hnames).ident_moved h.exportsMovable he
  unfold Meta.exportMeta
  change (moved (exportAim c.binary from_ to_) e).ident = e.ident at hident
  rw [hident]

omit hnames in
theorem importsOf (h : Renamed t c c' from_ to_) :
    c'.metadata.imports = (interfaces c.binary.imports).map fun e =>
      Meta.importMeta c'.binary (moved (importAim c.binary from_ to_) e) := by
  rw [c'.imports_eq, importsOf_eq, h.imports, Naming.interfaces_moved, List.map_map]
  rfl

omit hnames in
theorem exportsOf (h : Renamed t c c' from_ to_) :
    c'.metadata.exports = (interfaces c.binary.exports).map fun e =>
      Meta.exportMeta (moved (exportAim c.binary from_ to_) e) := by
  rw [c'.exports_eq, exportsOf_eq, h.exports, Naming.interfaces_moved, List.map_map]
  rfl

theorem kind (h : Renamed t c c' from_ to_) : c'.metadata.kind = c.metadata.kind := by
  obtain ⟨-, kind, hkind, hmeta⟩ := c.loaded_iff
  obtain ⟨-, kind', hkind', hmeta'⟩ := c'.loaded_iff
  have hfunctions : Meta.functionExports c'.binary = Meta.functionExports c.binary := by
    rw [functionExports_eq, functionExports_eq, h.exports]
    exact (c.exportNaming hnames).functionExports Item.isFunction Item.isInterface_of_isFunction
  have hinterfaces : (Meta.exportsOf c'.binary).map ExportMeta.interface =
      (Meta.exportsOf c.binary).map ExportMeta.interface := by
    rw [← c'.exports_eq, h.exportsOf, exportsOf_eq, List.map_map, List.map_map]
    apply List.map_congr_left
    intro e he
    rw [Function.comp_apply, h.exportMeta hnames (mem_interfaces he)]
    rfl
  rw [hfunctions, classify_congr hinterfaces, hkind] at hkind'
  injection hkind' with hkind'
  rw [hmeta, hmeta', hkind']

/-- The import slots before and after. -/
theorem imports_iff (h : Renamed t c c' from_ to_) :
    List.Forall₂ (ImportMeta.Relabelled from_ to_) c.metadata.imports c'.metadata.imports ∧
        KeepsApart (c.metadata.imports.map ImportMeta.slot)
          (c'.metadata.imports.map ImportMeta.slot) ↔
      Distinct (c.metadata.imports.map ImportMeta.externName) from_ to_ := by
  have hnaming := c.importNaming hnames
  rw [h.importsOf, c.imports_eq, importsOf_eq, forall₂_map_iff, List.map_map, List.map_map,
    keepsApart_map_iff, List.map_map]
  refine Iff.trans ?_ (hnaming.distinct_iff h.importsMovable)
  apply and_congr
  · apply forall₂_congr
    intro e he
    rw [h.importMeta hnames (mem_interfaces he)]
    constructor
    · exact fun hrel => hrel.called
    · intro hcalled
      refine ⟨rfl, rfl, rfl, rfl, hcalled, ?_⟩
      intro hnot
      have hsame := hnaming.moved_uncalled to_ (mem_interfaces he) hnot
      change moved (importAim c.binary from_ to_) e = e at hsame
      rw [hsame]
      rfl
  · exact Iff.rfl

/-- The export slots before and after. -/
theorem exports_iff (h : Renamed t c c' from_ to_) :
    List.Forall₂ (ExportMeta.Relabelled from_ to_) c.metadata.exports c'.metadata.exports ∧
        KeepsApart (c.metadata.exports.map ExportMeta.slot)
          (c'.metadata.exports.map ExportMeta.slot) ↔
      Distinct (c.metadata.exports.map ExportMeta.externName) from_ to_ := by
  have hnaming := c.exportNaming hnames
  rw [h.exportsOf, c.exports_eq, exportsOf_eq, forall₂_map_iff, List.map_map, List.map_map,
    keepsApart_map_iff, List.map_map]
  refine Iff.trans ?_ (hnaming.distinct_iff h.exportsMovable)
  apply and_congr
  · apply forall₂_congr
    intro e he
    rw [h.exportMeta hnames (mem_interfaces he)]
    constructor
    · exact fun hrel => hrel.called
    · intro hcalled
      refine ⟨rfl, rfl, hcalled, ?_⟩
      intro hnot
      have hsame := hnaming.moved_uncalled to_ (mem_interfaces he) hnot
      change moved (exportAim c.binary from_ to_) e = e at hsame
      rw [hsame]
      rfl
  · exact Iff.rfl

end Renamed

/-- A key that is there once is found where it is. -/
theorem find?_key {α : Type} {l : List α} {f : α → Text} (hnodup : (l.map f).Nodup) {a : α}
    (ha : a ∈ l) : l.find? (fun x => f x == f a) = some a := by
  cases h : l.find? fun x => f x == f a with
  | none => exact absurd (beq_self_eq_true (f a)) (List.find?_eq_none.mp h a ha)
  | some x =>
    have hkey := List.find?_some h
    rw [List.inj_on_of_nodup_map hnodup (List.mem_of_find?_eq_some h) ha (beq_iff_eq.mp hkey)]

section Wires

variable {b : Binary T} {from_ to_ : Text} {e : Extern T} {leaf leaf' : List ℕ} {n m : Text}

theorem relabelled_inner (h : b.wires.given leaf n = .inner leaf' m) :
    (relabelled b from_ to_).wires.given leaf n = .inner leaf' m := by
  simp only [relabelled, rewriteExternNames, h]

theorem relabelled_outer (hnodup : (b.imports.map Extern.name).Nodup) (he : e ∈ b.imports)
    (h : b.wires.given leaf n = .outer e.name) :
    (relabelled b from_ to_).wires.given leaf n =
      .outer (moved (importAim b from_ to_) e).name := by
  have hfind := find?_key hnodup he
  simp only [relabelled, rewriteExternNames, h, hfind]
  rfl

theorem relabelled_exported
    (hnodup : ((b.exports.map (moved (exportAim b from_ to_))).map Extern.name).Nodup)
    (he : e ∈ b.exports) :
    (relabelled b from_ to_).wires.exported (moved (exportAim b from_ to_) e).name =
      b.wires.exported e.name := by
  rw [List.map_map] at hnodup
  have hfind := find?_key hnodup he
  change b.exports.find? (fun x => (moved (exportAim b from_ to_) x).name ==
    (moved (exportAim b from_ to_) e).name) = some e at hfind
  simp only [relabelled, rewriteExternNames]
  split
  · rename_i x hx
    have heq := Option.some.inj (hfind.symm.trans hx)
    rw [heq]
  · rename_i hnone
    have hcontra := hfind.symm.trans hnone
    cases hcontra

end Wires

theorem load_of_fromBinary {t : Toolchain T V} {b : Binary T} {m : Meta}
    (h : Meta.fromBinary t b = .ok m) : ∃ c, load t b = .ok c := by
  unfold load
  split
  · exact ⟨_, rfl⟩
  · rename_i err herr
    rw [h] at herr
    cases herr

theorem names_iff {t : Toolchain T V} (c : Component t) (name : Text) :
    c.metadata.Names name ↔ (∃ e ∈ interfaces c.binary.imports, e.Called name) ∨
      ∃ e ∈ interfaces c.binary.exports, e.Called name := by
  unfold Meta.Names
  rw [c.imports_eq, c.exports_eq, importsOf_eq, exportsOf_eq]
  simp only [List.mem_map, exists_exists_and_eq_and]
  rfl

namespace Renamed

variable {t : Toolchain T V} {c c' : Component t} {from_ to_ : Text}
variable (hnames : ∀ b : Binary T, t.valid b = true → ∀ e ∈ b.imports ++ b.exports, e.Spelled)

include hnames

/-- A renaming to a name that no slot had is none to the same name. -/
theorem binary_eq (h : Renamed t c c' from_ to_) (hspelled : to_ ≠ slotName to_ ++ ['@'])
    (hfresh : ¬ c.metadata.Names to_) : c'.binary = relabelled c.binary from_ to_ := by
  rcases h.binary with ⟨hi, he⟩ | hbinary
  · rw [names_iff, not_or] at hfresh
    exfalso
    have hside : ∀ es : List (Extern T), Naming es → Movable (interfaces es) from_ to_ →
        Rewrite.noop (aimed (interfaces es) from_ to_) →
        (¬ ∃ e ∈ interfaces es, e.Called to_) → chosen (interfaces es) from_ = none := by
      intro es hnaming hmovable hnoop hnot
      by_contra hsome
      obtain ⟨x, hx⟩ := Option.ne_none_iff_exists'.mp hsome
      obtain ⟨hxes, -⟩ := chosen_eq_some hx
      have hcalled := Naming.called_moved (hmovable x hx).1 hspelled
      rw [aimed, hx] at hnoop
      have hname := of_decide_eq_true hnoop
      rw [Extern.aim_oldExtern] at hname
      rw [hnaming.noop (mem_interfaces hxes) (hmovable x hx).1 hname] at hcalled
      exact hnot ⟨x, hxes, hcalled⟩
    exact h.some ⟨hside _ (c.importNaming hnames) h.importsMovable hi hfresh.1,
      hside _ (c.exportNaming hnames) h.exportsMovable he hfresh.2⟩
  · exact hbinary

omit hnames in
/-- Renaming there and back gives the wiring that was there. -/
theorem similar (h : Renamed t c c' from_ to_) (hbinary : c'.binary = relabelled c.binary from_ to_)
    (himports : ∀ e ∈ c.binary.imports,
      moved (importAim c'.binary to_ from_) (moved (importAim c.binary from_ to_) e) = e)
    (hexports : ∀ e ∈ c.binary.exports,
      moved (exportAim c'.binary to_ from_) (moved (exportAim c.binary from_ to_) e) = e) :
    Binary.Similar c.binary (relabelled c'.binary to_ from_) := by
  have himports' : c'.binary.imports.map (moved (importAim c'.binary to_ from_)) =
      c.binary.imports := by
    rw [h.imports, List.map_map]
    conv_rhs => rw [← List.map_id c.binary.imports]
    exact List.map_congr_left himports
  have hexports' : c'.binary.exports.map (moved (exportAim c'.binary to_ from_)) =
      c.binary.exports := by
    rw [h.exports, List.map_map]
    conv_rhs => rw [← List.map_id c.binary.exports]
    exact List.map_congr_left hexports
  refine ⟨himports', hexports', ?_, ?_⟩
  · intro leaf n
    cases hgiven : c.binary.wires.given leaf n with
    | inner leaf' m =>
      left
      apply relabelled_inner
      rw [hbinary]
      exact relabelled_inner hgiven
    | outer m =>
      by_cases hm : m ∈ c.binary.imports.map Extern.name
      · left
        obtain ⟨e, he, rfl⟩ := List.mem_map.mp hm
        have hthere : c'.binary.wires.given leaf n =
            .outer (moved (importAim c.binary from_ to_) e).name := by
          rw [hbinary]
          exact relabelled_outer c.named.imports_nodup he hgiven
        have hmem : moved (importAim c.binary from_ to_) e ∈ c'.binary.imports := by
          rw [h.imports]
          exact List.mem_map_of_mem he
        rw [relabelled_outer c'.named.imports_nodup hmem hthere, himports e he]
      · exact .inr ⟨m, rfl, hm⟩
  · intro n hn
    obtain ⟨e, he, rfl⟩ := List.mem_map.mp hn
    have hmem : moved (exportAim c.binary from_ to_) e ∈ c'.binary.exports := by
      rw [h.exports]
      exact List.mem_map_of_mem he
    have hnodup : ((c'.binary.exports.map (moved (exportAim c'.binary to_ from_))).map
        Extern.name).Nodup := by
      rw [hexports']
      exact c.named.exports_nodup
    have hback := relabelled_exported hnodup hmem
    rw [hexports e he] at hback
    rw [hback, hbinary]
    apply relabelled_exported _ he
    rw [← h.exports]
    exact c'.named.exports_nodup

/-- A renaming to a name that no slot had can be undone. -/
theorem back (h : Renamed t c c' from_ to_)
    (hvalid : ∀ b b' : Binary T, Binary.Similar b b' → t.valid b = true → t.valid b' = true)
    (hable : Relabellable c.metadata from_ to_) (hfresh : ¬ c.metadata.Names to_) :
    ∃ c'', rename t c' to_ from_ = .ok c'' ∧ c''.metadata = c.metadata := by
  have hbinary := h.binary_eq hnames hable.spelled hfresh
  rw [names_iff, not_or] at hfresh
  obtain ⟨hfi, hfe⟩ := hfresh
  have hdi := hable.imports
  have hde := hable.exports
  rw [c.imports_eq, importsOf_eq, List.map_map] at hdi
  rw [c.exports_eq, exportsOf_eq, List.map_map] at hde
  have hi' := c'.importNaming hnames
  have he' := c'.exportNaming hnames
  rw [h.imports] at hi'
  rw [h.exports] at he'
  obtain ⟨hmi, himports, hci⟩ := (c.importNaming hnames).unmoved hi' h.importsMovable hable.spelled
    hdi fun e he hcalled => hfi ⟨e, he, hcalled⟩
  obtain ⟨hme, hexports, hce⟩ := (c.exportNaming hnames).unmoved he' h.exportsMovable hable.spelled
    hde fun e he hcalled => hfe ⟨e, he, hcalled⟩
  change Movable (interfaces (c.binary.imports.map (moved (importAim c.binary from_ to_)))) to_ from_
    at hmi
  change Movable (interfaces (c.binary.exports.map (moved (exportAim c.binary from_ to_)))) to_ from_
    at hme
  rw [← h.imports] at hmi
  rw [← h.exports] at hme
  have hsome : ¬ (chosen (interfaces c'.binary.imports) to_ = none ∧
      chosen (interfaces c'.binary.exports) to_ = none) := by
    rw [h.imports, h.exports]
    rintro ⟨hnone, hnone'⟩
    apply h.some
    have hi := hci.symm.trans hnone
    have he := hce.symm.trans hnone'
    rw [Option.map_eq_none_iff] at hi he
    exact ⟨hi, he⟩
  have hthere : ∀ e ∈ c.binary.imports,
      moved (importAim c'.binary to_ from_) (moved (importAim c.binary from_ to_) e) = e := by
    rw [importAim, h.imports]
    exact himports
  have hthere' : ∀ e ∈ c.binary.exports,
      moved (exportAim c'.binary to_ from_) (moved (exportAim c.binary from_ to_) e) = e := by
    rw [exportAim, h.exports]
    exact hexports
  have hsimilar := h.similar hbinary hthere hthere'
  have hresult : ∃ c'', rename t c' to_ from_ = .ok c'' := by
    by_cases hnoop : Rewrite.noop (aimed (interfaces c'.binary.imports) to_ from_) ∧
        Rewrite.noop (aimed (interfaces c'.binary.exports) to_ from_)
    · refine ⟨c', rename_iff.mpr ⟨hsome, hmi, hme, ?_⟩⟩
      rw [if_pos hnoop]
    · obtain ⟨hok, kind, hkind, -⟩ := c.loaded_iff
      have hload : Meta.fromBinary t (relabelled c'.binary to_ from_) =
          .ok ⟨kind, Meta.importsOf (relabelled c'.binary to_ from_),
            Meta.exportsOf (relabelled c'.binary to_ from_)⟩ := by
        have hclassify : Meta.classify (Meta.functionExports (relabelled c'.binary to_ from_))
            (Meta.exportsOf (relabelled c'.binary to_ from_)) = .ok kind := by
          rw [functionExports_eq, exportsOf_eq, hsimilar.exports]
          exact hkind
        unfold Meta.fromBinary
        rw [if_pos (hvalid _ _ hsimilar hok), hclassify]
      obtain ⟨c'', hc''⟩ := load_of_fromBinary hload
      refine ⟨c'', rename_iff.mpr ⟨hsome, hmi, hme, ?_⟩⟩
      rw [if_neg hnoop]
      exact hc''
  obtain ⟨c'', hc''⟩ := hresult
  refine ⟨c'', hc'', ?_⟩
  have h'' := renamed hnames hc''
  apply Component.metadata_congr
  · rw [h''.imports]
    exact hsimilar.imports
  · rw [h''.exports]
    exact hsimilar.exports

/-- A name that ends in a bare `@` is none that the result can be renamed by. -/
theorem spelled_of_back (h : Renamed t c c' from_ to_)
    (hback : ¬ c.metadata.Names to_ →
      ∃ c'', rename t c' to_ from_ = .ok c'' ∧ c''.metadata = c.metadata) :
    to_ ≠ slotName to_ ++ ['@'] := by
  intro hbare
  have hmem : '@' ∈ to_ := by
    rw [hbare]
    simp
  -- no slot of a valid component is called by such a name
  have hnone : ∀ es : List (Extern T), Naming es → ∀ e ∈ interfaces es, ¬ e.Called to_ := by
    intro es hnaming e he hcalled
    rcases hcalled with hslot | hname
    · exact not_mem_slotName e.name (hslot ▸ hmem)
    · cases hstyle : isInterfaceStyle e.name with
      | false => exact hnaming.label e (mem_interfaces he) hstyle (hname ▸ hmem)
      | true =>
        obtain ⟨-, hversioned⟩ := hnaming.default e (mem_interfaces he) hstyle
        have hsplit : splitExternName e.name = (slotName to_, []) := by
          rw [hname, splitExternName, splitOnce_eq_some_iff.mpr ⟨not_mem_slotName to_, hbare⟩]
        rw [slotName, hsplit] at hversioned
        apply not_mem_slotName to_
        rw [show slotName to_ = to_ from hversioned.trans hname]
        exact hmem
  have hfresh : ¬ c.metadata.Names to_ := by
    rw [names_iff]
    rintro (⟨e, he, hcalled⟩ | ⟨e, he, hcalled⟩)
    · exact hnone _ (c.importNaming hnames) e he hcalled
    · exact hnone _ (c.exportNaming hnames) e he hcalled
  obtain ⟨c'', hc'', -⟩ := hback hfresh
  have h'' := renamed hnames hc''
  apply h''.some
  constructor
  · by_contra hsome
    obtain ⟨x, hx⟩ := Option.ne_none_iff_exists'.mp hsome
    exact hnone _ (c'.importNaming hnames) x (chosen_eq_some hx).1 (chosen_eq_some hx).2
  · by_contra hsome
    obtain ⟨x, hx⟩ := Option.ne_none_iff_exists'.mp hsome
    exact hnone _ (c'.exportNaming hnames) x (chosen_eq_some hx).1 (chosen_eq_some hx).2

end Renamed

/-- An extern name with a valid spelling. -/
def Extern.checked (e : Extern T) : Bool :=
  if isInterfaceStyle e.name then
    e.implements.isNone && isInterfaceStyle (slotName e.name) &&
      versioned (slotName e.name) (splitExternName e.name).2 == e.name
  else
    decide ('@' ∉ e.name) && e.implements.all fun id =>
      isInterfaceStyle (slotName id) && versioned (slotName id) (splitExternName id).2 == id

theorem Extern.checked_spelled {e : Extern T} (h : e.checked = true) : e.Spelled := by
  unfold checked at h
  split at h
  · rename_i hstyle
    rw [Bool.and_eq_true, Bool.and_eq_true, Option.isNone_iff_eq_none] at h
    refine ⟨fun _ => h.1.2, ?_⟩
    intro id hid
    rw [h.1.1] at hid
    cases hid
  · rename_i hstyle
    rw [Bool.and_eq_true, Option.all_eq_true] at h
    refine ⟨fun hstyle' => absurd hstyle' hstyle, ?_⟩
    intro id hid
    have hcheck := h.2 id hid
    rw [Bool.and_eq_true, beq_iff_eq] at hcheck
    exact hcheck

/-- A validator that looks at the names. -/
def checkNames (b : Binary T) : Bool :=
  decide (b.imports.map Extern.name).Nodup && decide (b.exports.map Extern.name).Nodup &&
    (b.imports ++ b.exports).all Extern.checked

theorem checkNames_spelled {b : Binary T} (h : checkNames b = true) :
    ∀ e ∈ b.imports ++ b.exports, e.checked = true := by
  unfold checkNames at h
  rw [Bool.and_eq_true, List.all_eq_true] at h
  exact h.2

theorem checkNames_named {b : Binary T} (h : checkNames b = true) : WellNamed b := by
  have hchecked := checkNames_spelled h
  unfold checkNames at h
  rw [Bool.and_eq_true, Bool.and_eq_true, decide_eq_true_eq, decide_eq_true_eq] at h
  have hne : ∀ {name : Text}, isInterfaceStyle (slotName name) = true →
      (splitExternName name).1 ≠ [] := by
    intro name hstyle hnil
    rw [slotName, hnil] at hstyle
    cases hstyle
  refine ⟨h.1.1, h.1.2, ?_, ?_, ?_⟩
  · intro e he hstyle
    have hcheck := hchecked e he
    rw [Extern.checked, hstyle, if_neg (by simp), Bool.and_eq_true, decide_eq_true_eq] at hcheck
    exact hcheck.1
  · intro e he hstyle
    have hcheck := hchecked e he
    rw [Extern.checked, hstyle, if_pos rfl, Bool.and_eq_true, Bool.and_eq_true, beq_iff_eq,
      Option.isNone_iff_eq_none] at hcheck
    exact ⟨hcheck.1.1, hne hcheck.1.2, hcheck.2⟩
  · intro e he id hid
    exact hne ((Extern.checked_spelled (hchecked e he)).implemented id hid).1

/-- A toolchain whose validator looks at the names alone. -/
def namesToolchain : Toolchain Unit Text where
  semver :=
    { parse := some
      major := fun _ => 0
      minor := fun _ => 0
      isPre := fun _ => false
      parse_injective := fun _ _ _ h h' => Option.some.inj (h.trans h'.symm) }
  valid := checkNames
  isOption := fun _ => false
  bindResult := ()
  resolves := fun _ _ => true
  uses := fun _ _ => []
  valid_named := fun _ => checkNames_named

theorem namesToolchain_spelled (b : Binary Unit) (h : namesToolchain.valid b = true) :
    ∀ e ∈ b.imports ++ b.exports, e.Spelled := fun e he =>
  Extern.checked_spelled (checkNames_spelled h e he)

theorem namesToolchain_similar (b b' : Binary Unit) (h : Binary.Similar b b')
    (hvalid : namesToolchain.valid b = true) : namesToolchain.valid b' = true := by
  change checkNames b' = true
  rw [checkNames, h.imports, h.exports]
  exact hvalid

/-- A plain slot of the first version of an interface, and a default slot of the
second. -/
def twoVersions : Component namesToolchain where
  binary :=
    { imports :=
        [⟨text "x", some (text "a:b/c@1.0.0"), .interface ⟨[], []⟩⟩,
          ⟨text "a:b/c@2.0.0", none, .interface ⟨[], []⟩⟩]
      exports := []
      wires := .leaf }
  metadata :=
    { kind := .provider
      imports :=
        [⟨text "x", text "x", text "a:b/c", text "1.0.0", true, true⟩,
          ⟨text "a:b/c@2.0.0", text "a:b/c", text "a:b/c", text "2.0.0", true, true⟩]
      exports := [] }
  loaded := by decide

/-- A successful renaming is a pure relabelling just when the new name is spelled
without a bare `@`, and on both sides the old name calls one slot and the new slot
name is free. -/
theorem rename_relabels_iff {t : Toolchain T V} {c c' : Component t} {from_ to_ : Text}
    (hnames : ∀ b : Binary T, t.valid b = true → ∀ e ∈ b.imports ++ b.exports, e.Spelled)
    (hvalid : ∀ b b' : Binary T, Binary.Similar b b' → t.valid b = true → t.valid b' = true)
    (h : rename t c from_ to_ = .ok c') :
    Relabels t c c' from_ to_ ↔ Relabellable c.metadata from_ to_ := by
  have hrenamed := renamed hnames h
  constructor
  · intro hrel
    exact
      { spelled := hrenamed.spelled_of_back hnames hrel.back
        imports := (hrenamed.imports_iff hnames).mp ⟨hrel.imports, hrel.importsApart⟩
        exports := (hrenamed.exports_iff hnames).mp ⟨hrel.exports, hrel.exportsApart⟩ }
  · intro hable
    have himports := (hrenamed.imports_iff hnames).mpr hable.imports
    have hexports := (hrenamed.exports_iff hnames).mpr hable.exports
    exact
      { kind := hrenamed.kind hnames
        imports := himports.1
        exports := hexports.1
        importsApart := himports.2
        exportsApart := hexports.2
        back := hrenamed.back hnames hvalid hable }

theorem rename_twoVersions :
    ∃ c', rename namesToolchain twoVersions (text "x") (text "a:b/c@1.0.0") = .ok c' := by
  have hok : (rename namesToolchain twoVersions (text "x") (text "a:b/c@1.0.0")).toOption.isSome =
      true := by decide
  cases h : rename namesToolchain twoVersions (text "x") (text "a:b/c@1.0.0") with
  | ok c' => exact ⟨c', rfl⟩
  | error e =>
    rw [h] at hok
    cases hok

/-- Renaming the plain slot to its version of the interface puts both slots under
one name. -/
theorem rename_pinned_not_relabels :
    ∃ c', rename namesToolchain twoVersions (text "x") (text "a:b/c@1.0.0") = .ok c' ∧
      ¬ Relabels namesToolchain twoVersions c' (text "x") (text "a:b/c@1.0.0") := by
  obtain ⟨c', h⟩ := rename_twoVersions
  refine ⟨c', h, ?_⟩
  intro hrel
  have hdistinct := ((renamed namesToolchain_spelled h).imports_iff namesToolchain_spelled).mp
    ⟨hrel.imports, hrel.importsApart⟩
  have hfresh := hdistinct.fresh (text "x") (by decide) (by decide) (by decide)
    (text "a:b/c@2.0.0") (by decide) (by decide)
  exact hfresh (by decide)

theorem rename_relabels_iff_twoVersions :
    ∃ c', rename namesToolchain twoVersions (text "x") (text "y") = .ok c' ∧
      (Relabels namesToolchain twoVersions c' (text "x") (text "y") ↔
        Relabellable twoVersions.metadata (text "x") (text "y")) := by
  have hok : (rename namesToolchain twoVersions (text "x") (text "y")).toOption.isSome = true := by
    decide
  cases h : rename namesToolchain twoVersions (text "x") (text "y") with
  | ok c' =>
    exact ⟨c', rfl, rename_relabels_iff namesToolchain_spelled namesToolchain_similar h⟩
  | error e =>
    rw [h] at hok
    cases hok

end Eo9.Component
