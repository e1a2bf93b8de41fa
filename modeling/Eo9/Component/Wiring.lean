import Mathlib.Data.String.Basic
import Eo9.Component.Relabel

/-!
# The wiring tree

What each operation records on its result (`wiring.rs`), against what the graph
that it encodes was given.

`$` lists what it satisfies by interface, and wires by slot name, version and the
split-identity rule.
-/

namespace Eo9.Component

open Eo9.Library

variable {T V : Type}

/-- How a component was constructed. -/
inductive Wiring where
  | leaf (label : Option Text) (kind : ComponentKind) (exports imports : List Text)
  | compose (provider consumer : Wiring) (satisfied : List Text)
  | extend (base layer : Wiring) (shadowed : List Text)
  | restrict (allow sealedAbsent : List Text) (body : Wiring)
  | rename (from_ to_ : Text) (body : Wiring)
  | configure (args : List Text) (body : Wiring)

/-- `Wiring::leaf`. -/
def Wiring.ofMeta (m : Meta) : Wiring :=
  .leaf none m.kind
    ((m.exports.filter fun e => e.interface ≠ []).map ExportMeta.interface)
    ((m.imports.filter fun i => i.required ∧ i.authorityFree = false ∧ i.interface ≠ []).map
      ImportMeta.interface)

/-- A tree is a part of another. -/
inductive Wiring.Within (w : Wiring) : Wiring → Prop
  | refl : Within w w
  | provider {p c : Wiring} {s : List Text} (h : Within w p) : Within w (.compose p c s)
  | consumer {p c : Wiring} {s : List Text} (h : Within w c) : Within w (.compose p c s)
  | base {b l : Wiring} {s : List Text} (h : Within w b) : Within w (.extend b l s)
  | layer {b l : Wiring} {s : List Text} (h : Within w l) : Within w (.extend b l s)
  | restrict {body : Wiring} {a s : List Text} (h : Within w body) : Within w (.restrict a s body)
  | rename {body : Wiring} {f n : Text} (h : Within w body) : Within w (.rename f n body)
  | configure {body : Wiring} {a : List Text} (h : Within w body) : Within w (.configure a body)

/-- A component with its tree. -/
structure Wired (t : Toolchain T V) where
  component : Component t
  wiring : Wiring

def Wired.ofComponent {t : Toolchain T V} (c : Component t) : Wired t :=
  ⟨c, .ofMeta c.metadata⟩

/-- Append what is not there yet. -/
def pushNew (xs : List Text) (x : Text) : List Text := if x ∈ xs then xs else xs ++ [x]

/-- The consumer imports an interface, in either flavour. -/
def importsInterface (consumer : Meta) (interface : Text) : Bool :=
  consumer.imports.any fun i =>
    decide (i.interface = interface) ||
      decide (stripSuffix optionalSuffix i.interface = some interface)

def satisfiedInterfaces (provider consumer : Meta) : List Text :=
  provider.exports.foldl (fun satisfied e =>
    if e.interface = [] then satisfied
    else if importsInterface consumer e.interface = true then pushNew satisfied e.interface
    else satisfied) []

/-- The base export slots that the layer overrides, as `extend` reports them. -/
def overridden {t : Toolchain T V} (base layer : Component t) : List Text :=
  ((registered layer.binary).exports.map fun e => slotName e.1).filter fun slot =>
    slot ∈ base.metadata.exports.map ExportMeta.slot ∧ slot ≠ configuredInterface

/-- The imports that an allow-list leaves to be sealed. -/
def absentees (m : Meta) (allow : List InterfaceRef) : List ImportMeta :=
  (m.imports.filter fun i => !passes (fun i => admitted i allow) i).filter fun i => !i.required

def InterfaceRef.label (entry : InterfaceRef) : Text :=
  match entry.version with
  | some version => entry.interface ++ '@' :: version
  | none => entry.interface

section Operators

variable [DecidableEq T] [LinearOrder V] (t : Toolchain T V)

def composeWired (provider consumer : Wired t) :
    Except ComposeError (Wired t × List ComposeWarning) :=
  (composeChecked t provider.component consumer.component).map fun r =>
    (⟨r.1, .compose provider.wiring consumer.wiring
      (satisfiedInterfaces provider.component.metadata consumer.component.metadata)⟩, r.2)

def extendWired (base layer : Wired t) : Except ComposeError (Wired t) :=
  (extend t base.component layer.component).map fun r =>
    ⟨r, .extend base.wiring layer.wiring (overridden base.component layer.component)⟩

def restrictWired (c : Wired t) (allow : List InterfaceRef) : Except RestrictError (Wired t) :=
  (restrict t c.component allow).map fun r =>
    ⟨r, .restrict (allow.map InterfaceRef.label)
      (((absentees c.component.metadata allow).map ImportMeta.interface).foldl pushNew []) c.wiring⟩

omit [DecidableEq T] [LinearOrder V] in
def renameWired (c : Wired t) (from_ to_ : Text) : Except RenameError (Wired t) :=
  (rename t c.component from_ to_).map fun r => ⟨r, .rename from_ to_ c.wiring⟩

omit [DecidableEq T] [LinearOrder V] in
/-- The result of `configure` with the bound arguments. -/
def configuredWired (c : Wired t) (args : List Text) (configured : Component t) : Wired t :=
  ⟨configured, .configure args c.wiring⟩

end Operators

section Sealing

variable [DecidableEq T] (t : Toolchain T V)

/-- The graph of `$` and `&` with its arguments, and their number. -/
def linked (provider consumer : Component t) :
    Except ComposeError (CompositionGraph Text (Item T) × ℕ) :=
  wireMatchingImports 0 1 (registered provider.binary).exports
    (splitIdentitySkips provider.metadata consumer.metadata) (registered consumer.binary).imports
    ((CompositionGraph.new.instantiate (registered provider.binary)).instantiate
      (registered consumer.binary), 0)

/-- An import of the consumer that is given an export of the provider. -/
def Sealed (provider consumer : Component t) (importName : Text) : Prop :=
  ∃ g n, linked t provider consumer = .ok (g, n) ∧ (g.arguments.lookup ⟨1, importName⟩).isSome

/-- An import that is given an export of the absent provider. -/
def SealedAbsent (c : Component t) (toSeal : List ImportMeta) (importName : Text) : Prop :=
  ∃ sealer g, toSeal ≠ [] ∧
    buildAbsentProvider t c.binary (interfacesToSeal toSeal) toSeal = some sealer ∧
    wireAbsent sealer toSeal
      ((CompositionGraph.new.instantiate sealer).instantiate (registered c.binary)) = .ok g ∧
    (g.arguments.lookup ⟨1, importName⟩).isSome

omit [DecidableEq T] in
/-- An export of the result of `&` that is the base's. -/
def FromBase (r : Component t) (name : Text) : Prop :=
  (r.binary.wires.exported name).1.head? = some 0

end Sealing

section Graph

variable [DecidableEq T] {t : Toolchain T V}

/-- What wiring adds: an argument for each import that some export satisfies. -/
theorem wireMatchingImports_spec {src dst : ℕ} {exports : List (Text × Item T)} {skip : List Text}
    {imports : List (Text × Item T)} {g g' : CompositionGraph Text (Item T)} {n n' : ℕ}
    (h : wireMatchingImports src dst exports skip imports (g, n) = .ok (g', n')) :
    g'.instances = g.instances ∧ g'.exports = g.exports ∧ n ≤ n' ∧
      (n' = n ↔ ¬ ∃ i ∈ imports, i.2.isInterface = true ∧ i.1 ∉ skip ∧
        (satisfier exports i.1).isSome) ∧
      ∀ p : Port Text, (g'.arguments.lookup p).isSome ↔ (g.arguments.lookup p).isSome ∨
        ∃ i ∈ imports, p = ⟨dst, i.1⟩ ∧ i.2.isInterface = true ∧ i.1 ∉ skip ∧
          (satisfier exports i.1).isSome := by
  induction imports generalizing g n with
  | nil =>
    injection h with h
    injection h with hg hn
    subst hg hn
    simp
  | cons i imports ih =>
    obtain ⟨name, kind⟩ := i
    unfold wireMatchingImports at h
    by_cases hwired : kind.isInterface = true ∧ name ∉ skip ∧ (satisfier exports name).isSome
    · obtain ⟨hkind, hskip, hsatisfier⟩ := hwired
      obtain ⟨exportName, hexport⟩ := Option.isSome_iff_exists.mp hsatisfier
      rw [if_neg (by simp [hkind]), if_neg hskip, hexport] at h
      simp only at h
      split at h
      · cases h
      · rename_i g₁ hset
        obtain ⟨hinstances, hexports, hle, hcount, hargs⟩ := ih h
        have hsome := CompositionGraph.setArgument_isSome hset
        have hg₁ := CompositionGraph.setArgument_keeps hset
        refine ⟨hinstances.trans hg₁.1, hexports.trans hg₁.2, by omega, ?_, ?_⟩
        · refine iff_of_false (by omega) ?_
          rw [not_not]
          exact ⟨(name, kind), List.mem_cons_self, hkind, hskip, hsatisfier⟩
        · intro p
          rw [hargs p, hsome p, or_assoc]
          apply or_congr_right
          simp only [List.mem_cons, exists_eq_or_imp, hkind, hskip, hsatisfier,
            not_false_eq_true, and_true]
    · have hrest : wireMatchingImports src dst exports skip imports (g, n) = .ok (g', n') := by
        rw [← h]
        by_cases hkind : kind.isInterface = true
        · rw [if_neg (by simp [hkind])]
          by_cases hskip : name ∈ skip
          · rw [if_pos hskip]
          · rw [if_neg hskip]
            have hnone : satisfier exports name = none := by
              rw [← Option.not_isSome_iff_eq_none]
              exact fun hsome => hwired ⟨hkind, hskip, hsome⟩
            rw [hnone]
        · rw [if_pos (by simpa using hkind)]
      obtain ⟨hinstances, hexports, hle, hcount, hargs⟩ := ih hrest
      refine ⟨hinstances, hexports, hle, ?_, ?_⟩
      · rw [hcount]
        simp [hwired]
      · intro p
        rw [hargs p]
        simp [hwired]

/-- An import that some export of the provider matches, and that the
split-identity rule does not skip. -/
def Matched (provider consumer : Meta) (i : ImportMeta) : Prop :=
  i.externName ∉ splitIdentitySkips provider consumer ∧
    ∃ e ∈ provider.exports, exportMatchesImport e.externName i.externName = true

omit [DecidableEq T] in
theorem satisfier_isSome (c : Component t) (importName : Text) :
    (satisfier (registered c.binary).exports importName).isSome ↔
      ∃ e ∈ c.metadata.exports, exportMatchesImport e.externName importName = true := by
  unfold satisfier
  rw [Option.isSome_map, List.find?_isSome, registered_exports, c.exports_eq]
  constructor
  · rintro ⟨p, hp, hmatch⟩
    obtain ⟨e, he, rfl⟩ := List.mem_map.mp hp
    rw [Bool.and_eq_true] at hmatch
    exact ⟨Meta.exportMeta e, List.mem_map_of_mem (List.mem_filter.mpr ⟨he, hmatch.1⟩), hmatch.2⟩
  · rintro ⟨p, hp, hmatch⟩
    obtain ⟨e, he, rfl⟩ := List.mem_map.mp hp
    obtain ⟨hes, hkind⟩ := List.mem_filter.mp he
    refine ⟨e.bare, List.mem_map_of_mem hes, ?_⟩
    rw [Bool.and_eq_true]
    exact ⟨hkind, hmatch⟩

variable {provider consumer : Component t}

/-- The wired imports are the matched ones. -/
theorem linked_spec {g : CompositionGraph Text (Item T)} {n : ℕ}
    (h : linked t provider consumer = .ok (g, n)) :
    (n = 0 ↔ ¬ ∃ i ∈ consumer.metadata.imports, Matched provider.metadata consumer.metadata i) ∧
      ∀ i ∈ consumer.metadata.imports, (Sealed t provider consumer i.externName ↔
        Matched provider.metadata consumer.metadata i) := by
  obtain ⟨-, -, -, hcount, hargs⟩ := wireMatchingImports_spec h
  have hmatched : ∀ p : Text × Item T, p ∈ (registered consumer.binary).imports →
      p.2.isInterface = true → ∃ i ∈ consumer.metadata.imports, i.externName = p.1 := by
    intro p hp hkind
    rw [registered_imports] at hp
    obtain ⟨e, he, rfl⟩ := List.mem_map.mp hp
    rw [consumer.imports_eq]
    exact ⟨_, List.mem_map_of_mem (List.mem_filter.mpr ⟨he, hkind⟩), rfl⟩
  have hregistered : ∀ i ∈ consumer.metadata.imports,
      ∃ p ∈ (registered consumer.binary).imports, p.1 = i.externName ∧ p.2.isInterface = true := by
    intro i hi
    rw [consumer.imports_eq] at hi
    obtain ⟨e, he, rfl⟩ := List.mem_map.mp hi
    obtain ⟨hes, hkind⟩ := List.mem_filter.mp he
    refine ⟨e.bare, ?_, rfl, hkind⟩
    rw [registered_imports]
    exact List.mem_map_of_mem hes
  constructor
  · rw [hcount]
    apply not_congr
    constructor
    · rintro ⟨p, hp, hkind, hskip, hsatisfier⟩
      obtain ⟨i, hi, hname⟩ := hmatched p hp hkind
      rw [← hname] at hskip hsatisfier
      exact ⟨i, hi, hskip, (satisfier_isSome provider i.externName).mp hsatisfier⟩
    · rintro ⟨i, hi, hskip, hmatch⟩
      obtain ⟨p, hp, hname, hkind⟩ := hregistered i hi
      refine ⟨p, hp, hkind, ?_⟩
      rw [hname]
      exact ⟨hskip, (satisfier_isSome provider i.externName).mpr hmatch⟩
  · intro i hi
    constructor
    · rintro ⟨g', n', hlinked, hsome⟩
      rw [h] at hlinked
      cases hlinked
      obtain hbefore | ⟨p, hp, hport, hkind, hskip, hsatisfier⟩ := (hargs _).mp hsome
      · cases hbefore
      · injection hport with _ hname
        rw [← hname] at hskip hsatisfier
        exact ⟨hskip, (satisfier_isSome provider i.externName).mp hsatisfier⟩
    · rintro ⟨hskip, hmatch⟩
      obtain ⟨p, hp, hname, hkind⟩ := hregistered i hi
      refine ⟨g, n, h, (hargs _).mpr (.inr ⟨p, hp, ?_, hkind, ?_⟩)⟩
      · rw [hname]
      · rw [hname]
        exact ⟨hskip, (satisfier_isSome provider i.externName).mpr hmatch⟩


omit [DecidableEq T] in
theorem mem_pushNew (xs : List Text) (x y : Text) : y ∈ pushNew xs x ↔ y ∈ xs ∨ y = x := by
  unfold pushNew
  by_cases h : x ∈ xs
  · rw [if_pos h]
    refine (or_iff_left_of_imp ?_).symm
    rintro rfl
    exact h
  · rw [if_neg h, List.mem_append, List.mem_singleton]

theorem mem_satisfiedInterfaces (provider consumer : Meta) (x : Text) :
    x ∈ satisfiedInterfaces provider consumer ↔
      x ≠ [] ∧ importsInterface consumer x = true ∧ ∃ e ∈ provider.exports, e.interface = x := by
  have hfold : ∀ (exports : List ExportMeta) (satisfied : List Text),
      x ∈ exports.foldl (fun satisfied e =>
        if e.interface = [] then satisfied
        else if importsInterface consumer e.interface = true then pushNew satisfied e.interface
        else satisfied) satisfied ↔
      x ∈ satisfied ∨
        (x ≠ [] ∧ importsInterface consumer x = true ∧ ∃ e ∈ exports, e.interface = x) := by
    intro exports
    induction exports with
    | nil => simp
    | cons e exports ih =>
      intro satisfied
      rw [List.foldl_cons, ih]
      by_cases hlisted : e.interface ≠ [] ∧ importsInterface consumer e.interface = true
      · rw [if_neg hlisted.1, if_pos hlisted.2, mem_pushNew, or_assoc]
        apply or_congr_right
        constructor
        · rintro (rfl | ⟨hne, himports, e', he', hx⟩)
          · exact ⟨hlisted.1, hlisted.2, e, List.mem_cons_self, rfl⟩
          · exact ⟨hne, himports, e', List.mem_cons_of_mem e he', hx⟩
        · rintro ⟨hne, himports, e', he', hx⟩
          rcases List.mem_cons.mp he' with rfl | he'
          · exact .inl hx.symm
          · exact .inr ⟨hne, himports, e', he', hx⟩
      · have hskip : (if e.interface = [] then satisfied
            else if importsInterface consumer e.interface = true then
              pushNew satisfied e.interface
            else satisfied) = satisfied := by
          by_cases hnil : e.interface = []
          · rw [if_pos hnil]
          · rw [if_neg hnil, if_neg fun h => hlisted ⟨hnil, h⟩]
        rw [hskip]
        apply or_congr_right
        constructor
        · rintro ⟨hne, himports, e', he', hx⟩
          exact ⟨hne, himports, e', List.mem_cons_of_mem e he', hx⟩
        · rintro ⟨hne, himports, e', he', hx⟩
          rcases List.mem_cons.mp he' with rfl | he'
          · rw [← hx] at hne himports
            exact absurd ⟨hne, himports⟩ hlisted
          · exact ⟨hne, himports, e', he', hx⟩
  unfold satisfiedInterfaces
  rw [hfold]
  simp

/-- The list agrees with what is wired: an interface that the provider exports and
the consumer imports, in either flavour, is that of a matched import, and every
matched import is of an interface that the provider exports. -/
structure Reported (provider consumer : Meta) : Prop where
  wired : ∀ e ∈ provider.exports, e.interface ≠ [] →
    importsInterface consumer e.interface = true →
    ∃ i ∈ consumer.imports, i.interface = e.interface ∧ Matched provider consumer i
  listed : ∀ i ∈ consumer.imports, Matched provider consumer i →
    i.interface ≠ [] ∧ ∃ e ∈ provider.exports, e.interface = i.interface

/-- What `$` is said to record. -/
structure SatisfiedTruth (t : Toolchain T V) (provider consumer : Component t)
    (satisfied : List Text) (warnings : List ComposeWarning) : Prop where
  exact_ : ∀ x, x ∈ satisfied ↔
    ∃ i ∈ consumer.metadata.imports, Sealed t provider consumer i.externName ∧ i.interface = x
  dead : satisfied = [] ↔ warnings ≠ []

variable [LinearOrder V]

/-- A composition warns when it wires nothing. -/
theorem composeChecked_linked {r : Component t × List ComposeWarning}
    (h : composeChecked t provider consumer = .ok r) :
    ∃ g n, linked t provider consumer = .ok (g, n) ∧ (r.2 ≠ [] ↔ n = 0) := by
  unfold composeChecked at h
  simp only [bind, Except.bind, pure, Except.pure, throw, throwThe, MonadExceptOf.throw] at h
  split at h
  · cases h
  · split at h
    · cases h
    · rename_i v hlinked
      obtain ⟨g, n⟩ := v
      refine ⟨g, n, hlinked, ?_⟩
      by_cases hn : n = 0
      · rw [if_pos hn] at h
        split at h
        · cases h
        · split at h
          · cases h
          · split at h
            · cases h
            · split at h
              · cases h
              · injection h with h
                simp [← h, hn]
      · rw [if_neg hn] at h
        split at h
        · cases h
        · split at h
          · cases h
          · split at h
            · cases h
            · injection h with h
              simp [← h, hn]

/-- What `$` lists is what it wires just when the list agrees with the wiring rule. -/
theorem satisfied_iff {r : Component t × List ComposeWarning}
    (h : composeChecked t provider consumer = .ok r) :
    SatisfiedTruth t provider consumer
        (satisfiedInterfaces provider.metadata consumer.metadata) r.2 ↔
      Reported provider.metadata consumer.metadata := by
  obtain ⟨g, n, hlinked, hwarnings⟩ := composeChecked_linked h
  obtain ⟨hcount, hsealed⟩ := linked_spec hlinked
  constructor
  · intro htruth
    constructor
    · intro e he hne himports
      have hmem := (mem_satisfiedInterfaces _ _ _).mpr ⟨hne, himports, e, he, rfl⟩
      obtain ⟨i, hi, hseal, hinterface⟩ := (htruth.exact_ _).mp hmem
      exact ⟨i, hi, hinterface, (hsealed i hi).mp hseal⟩
    · intro i hi hmatched
      have hmem := (htruth.exact_ i.interface).mpr ⟨i, hi, (hsealed i hi).mpr hmatched, rfl⟩
      obtain ⟨hne, -, hexported⟩ := (mem_satisfiedInterfaces _ _ _).mp hmem
      exact ⟨hne, hexported⟩
  · intro hreported
    have hexact : ∀ x, x ∈ satisfiedInterfaces provider.metadata consumer.metadata ↔
        ∃ i ∈ consumer.metadata.imports,
          Sealed t provider consumer i.externName ∧ i.interface = x := by
      intro x
      rw [mem_satisfiedInterfaces]
      constructor
      · rintro ⟨hne, himports, e, he, rfl⟩
        obtain ⟨i, hi, hinterface, hmatched⟩ := hreported.wired e he hne himports
        exact ⟨i, hi, (hsealed i hi).mpr hmatched, hinterface⟩
      · rintro ⟨i, hi, hseal, rfl⟩
        obtain ⟨hne, hexported⟩ := hreported.listed i hi ((hsealed i hi).mp hseal)
        refine ⟨hne, ?_, hexported⟩
        exact List.any_eq_true.mpr ⟨i, hi, by simp⟩
    refine ⟨hexact, ?_⟩
    rw [hwarnings, hcount, List.eq_nil_iff_forall_not_mem]
    constructor
    · rintro hnone ⟨i, hi, hmatched⟩
      exact hnone i.interface ((hexact _).mpr ⟨i, hi, (hsealed i hi).mpr hmatched, rfl⟩)
    · intro hnone x hx
      obtain ⟨i, hi, hseal, -⟩ := (hexact x).mp hx
      exact hnone ⟨i, hi, (hsealed i hi).mp hseal⟩

omit [DecidableEq T] [LinearOrder V] in
/-- The exports that are exported again. -/
theorem exportAll_spec {inst : ℕ} {skip : List Text} {exports : List (Text × Item T)}
    {g g' : CompositionGraph Text (Item T)} (h : exportAll inst skip exports g = .ok g') :
    g'.instances = g.instances ∧ g'.exports = g.exports ++
      (exports.filter fun e => slotName e.1 ∉ skip).map fun e => (e.1, ⟨inst, e.1⟩) := by
  induction exports generalizing g with
  | nil =>
    injection h with h
    simp [h]
  | cons e exports ih =>
    obtain ⟨name, kind⟩ := e
    unfold exportAll at h
    by_cases hskip : slotName name ∈ skip
    · rw [if_pos hskip] at h
      rw [List.filter_cons_of_neg (by simpa using hskip)]
      exact ih h
    · rw [if_neg hskip] at h
      split at h
      · cases h
      · rename_i g₁ hexport
        obtain ⟨hinstances, hexports⟩ := ih h
        rw [CompositionGraph.export_eq_some hexport] at hinstances hexports
        rw [List.filter_cons_of_pos (by simpa using hskip)]
        refine ⟨hinstances, ?_⟩
        rw [hexports, List.map_cons, List.append_assoc]
        rfl

omit [LinearOrder V] in
/-- Passing the entrypoints on adds exports of operands or of the merger. -/
theorem propagateBinds_spec {g g' : CompositionGraph Text (Item T)} {first second : Port Text}
    (h : propagateBinds t g (some first) (some second) = .ok g') :
    g'.instances = g.instances ++ [bindMerger t] ∧
      ∃ name, g'.exports = g.exports ++ [(name, ⟨g.instances.length, name⟩)] := by
  unfold propagateBinds at h
  simp only at h
  split at h
  · cases h
  · rename_i g₁ hfirst
    split at h
    · cases h
    · rename_i g₂ hsecond
      unfold exportPort at h
      split at h
      · cases h
      · rename_i g₃ hexport
        injection h with h
        rw [← h, CompositionGraph.export_eq_some hexport]
        refine ⟨?_, text "eo9:rt/configured@0.1.0", ?_⟩
        · rw [(CompositionGraph.setArgument_keeps hsecond).1, (CompositionGraph.setArgument_keeps hfirst).1]
          rfl
        · rw [(CompositionGraph.setArgument_keeps hsecond).2, (CompositionGraph.setArgument_keeps hfirst).2]
          rfl

/-- The graph that `&` encodes: the layer's exports, the base's of other slots, and
perhaps the merged entrypoint. -/
theorem extend_graph {base layer r : Component t} (h : extend t base layer = .ok r) :
    ∃ g annotations, encode t g annotations = .ok r ∧
      (∃ more, g.instances =
        [registered base.binary, registered layer.binary] ++ more) ∧
      ∃ (skip : List Text) (merged : List (Text × Port Text)), g.exports =
        (((registered layer.binary).exports.filter fun e => slotName e.1 ∉ skip).map fun e =>
          (e.1, (⟨1, e.1⟩ : Port Text))) ++
        (((registered base.binary).exports.filter fun e => slotName e.1 ∉
            (registered layer.binary).exports.map fun e => slotName e.1).map fun e =>
          (e.1, (⟨0, e.1⟩ : Port Text))) ++ merged ∧
        ∀ e ∈ merged, e.2.instance_ ≠ 0 := by
  unfold extend at h
  simp only [bind, Except.bind, pure, Except.pure, throw, throwThe, MonadExceptOf.throw] at h
  split at h
  · cases h
  · split at h
    · cases h
    · rename_i v hlinked
      obtain ⟨g₁, n⟩ := v
      obtain ⟨hinstances₁, hexports₁, -⟩ := wireMatchingImports_spec hlinked
      simp only at h
      split at h
      · cases h
      · rename_i g₂ hlayer
        obtain ⟨hinstances₂, hexports₂⟩ := exportAll_spec hlayer
        split at h
        · cases h
        · rename_i g₃ hbase
          obtain ⟨hinstances₃, hexports₃⟩ := exportAll_spec hbase
          have hinstances : g₃.instances =
              [registered base.binary, registered layer.binary] := by
            rw [hinstances₃, hinstances₂, hinstances₁]
            rfl
          have hexports := hexports₃
          rw [hexports₂, hexports₁] at hexports
          generalize (if (configuredExport (registered base.binary).exports).isSome = true ∧
            (configuredExport (registered layer.binary).exports).isSome = true then
              [configuredInterface] else []) = skip at hexports
          split at h
          · rename_i hboth
            split at h
            · cases h
            · rename_i g₄ hbinds
              obtain ⟨first, hfirst⟩ := Option.isSome_iff_exists.mp hboth.1
              obtain ⟨second, hsecond⟩ := Option.isSome_iff_exists.mp hboth.2
              rw [hfirst, hsecond] at hbinds
              obtain ⟨hinstances₄, name, hexports₄⟩ := propagateBinds_spec hbinds
              refine ⟨g₄, _, h, ⟨_, by rw [hinstances₄, hinstances]⟩, skip,
                [(name, ⟨g₃.instances.length, name⟩)], ?_, ?_⟩
              · rw [hexports₄, hexports]
                rfl
              · intro e he
                rw [List.mem_singleton.mp he, hinstances]
                simp
          · refine ⟨g₃, _, h, ⟨[], by rw [hinstances, List.append_nil]⟩, skip, [], ?_, by simp⟩
            rw [hexports, List.append_nil]
            rfl


theorem encode_wires {g : CompositionGraph Text (Item T)} {annotations : List (Text × Text)}
    {r : Component t} (h : encode t g annotations = .ok r) :
    ∃ canonical, r.binary.wires = g.wires canonical := by
  unfold encode at h
  split at h
  · cases h
  · rename_i o hencode
    split at h
    · cases h
    · rename_i c hload
      injection h with h
      unfold CompositionGraph.encode at hencode
      obtain ⟨s, -, ho⟩ := Option.map_eq_some_iff.mp hencode
      refine ⟨s.canonical, ?_⟩
      calc
        r.binary.wires = (attachImplements (bare o) annotations).wires := by
          rw [← h, load_eq_ok hload]
        _ = o.wires := attachImplements_wires annotations (bare o)
        _ = g.wires s.canonical := by rw [← ho]

/-- A base export is kept just when the layer has no export of its slot. -/
theorem fromBase_iff {base layer r : Component t} (h : extend t base layer = .ok r) {name : Text}
    (hname : name ∈ (registered base.binary).exports.map Prod.fst) :
    FromBase t r name ↔ slotName name ∉ (registered layer.binary).exports.map fun e =>
      slotName e.1 := by
  obtain ⟨g, annotations, hencode, ⟨more, hinstances⟩, skip, merged, hexports, hmerged⟩ :=
    extend_graph h
  obtain ⟨canonical, hwires⟩ := encode_wires hencode
  unfold FromBase
  rw [hwires, CompositionGraph.head_exported, hexports, CompositionGraph.lookup_append_ports,
    CompositionGraph.lookup_append_ports,
    CompositionGraph.lookup_ports _ (fun n => decide (slotName n ∉ skip)),
    CompositionGraph.lookup_ports _ (fun n => decide (slotName n ∉
      (registered layer.binary).exports.map fun e => slotName e.1))]
  have hlayer : name ∈ (registered layer.binary).exports.map Prod.fst →
      slotName name ∈ (registered layer.binary).exports.map fun e => slotName e.1 := by
    intro hmem
    obtain ⟨e, he, rfl⟩ := List.mem_map.mp hmem
    exact List.mem_map_of_mem he
  by_cases hslot : slotName name ∈ (registered layer.binary).exports.map fun e => slotName e.1
  · refine iff_of_false ?_ (not_not.mpr hslot)
    have hbase : ¬ (name ∈ (registered base.binary).exports.map Prod.fst ∧
        decide (slotName name ∉ (registered layer.binary).exports.map fun e => slotName e.1) =
          true) := fun hand => of_decide_eq_true hand.2 hslot
    rw [if_neg hbase, Option.or_none]
    intro hhead
    obtain ⟨src, hsrc, hinstance⟩ := Option.bind_eq_some_iff.mp hhead
    obtain ⟨o, -, hzero⟩ := Option.map_eq_some_iff.mp hinstance
    split at hsrc
    · rw [Option.some_or] at hsrc
      cases hsrc
      cases hzero
    · rw [Option.none_or] at hsrc
      exact hmerged _ (CompositionGraph.mem_of_lookup_ports hsrc) hzero
  · refine iff_of_true ?_ hslot
    rw [if_neg (fun hand => hslot (hlayer hand.1)), Option.none_or,
      if_pos ⟨hname, decide_eq_true hslot⟩, Option.some_or, hinstances]
    rfl

/-- What `&` is said to record. -/
def ShadowedTruth (t : Toolchain T V) (base r : Component t) (shadowed : List Text) : Prop :=
  ∀ slot, slot ∈ shadowed ↔ slot ≠ configuredInterface ∧
    ∃ e ∈ base.metadata.exports, e.slot = slot ∧ ¬ FromBase t r e.externName

theorem shadowed_truth {base layer r : Component t} (h : extend t base layer = .ok r) :
    ShadowedTruth t base r (overridden base layer) := by
  have hkept : ∀ e ∈ base.metadata.exports, (¬ FromBase t r e.externName ↔
      e.slot ∈ (registered layer.binary).exports.map fun e => slotName e.1) := by
    intro e he
    rw [base.exports_eq] at he
    obtain ⟨x, hx, rfl⟩ := List.mem_map.mp he
    have hname : x.name ∈ (registered base.binary).exports.map Prod.fst := by
      rw [registered_exports, List.map_map]
      exact List.mem_map_of_mem (List.mem_of_mem_filter hx)
    rw [show (Meta.exportMeta x).externName = x.name from rfl, fromBase_iff h hname, not_not]
    rfl
  intro slot
  unfold overridden
  rw [List.mem_filter, decide_eq_true_eq]
  constructor
  · rintro ⟨hlayer, hbase, hne⟩
    obtain ⟨e, he, rfl⟩ := List.mem_map.mp hbase
    exact ⟨hne, e, he, rfl, (hkept e he).mpr hlayer⟩
  · rintro ⟨hne, e, he, rfl, hnot⟩
    exact ⟨(hkept e he).mp hnot, List.mem_map_of_mem he, hne⟩


omit [LinearOrder V] in
/-- Every import that is to be sealed is given an export of the absent provider. -/
theorem wireAbsent_spec {sealer : Object Text (Item T)} {toSeal : List ImportMeta}
    {g g' : CompositionGraph Text (Item T)} (h : wireAbsent sealer toSeal g = .ok g')
    (p : Port Text) :
    (g'.arguments.lookup p).isSome ↔ (g.arguments.lookup p).isSome ∨
      ∃ i ∈ toSeal, p = ⟨1, i.externName⟩ := by
  induction toSeal generalizing g with
  | nil =>
    injection h with h
    simp [h]
  | cons i toSeal ih =>
    unfold wireAbsent at h
    split at h
    · split at h
      · cases h
      · rename_i g₁ hset
        rw [ih h, CompositionGraph.setArgument_isSome hset, or_assoc]
        apply or_congr_right
        simp
    · cases h

/-- What `only` is said to record. -/
def SealedTruth (t : Toolchain T V) (c : Component t) (allow : List InterfaceRef)
    (sealedAbsent : List Text) : Prop :=
  ∀ x, x ∈ sealedAbsent ↔ ∃ i ∈ c.metadata.imports, i.required = false ∧
    SealedAbsent t c (absentees c.metadata allow) i.externName ∧ i.interface = x

omit [LinearOrder V] in
theorem mem_foldl_pushNew (xs seen : List Text) (x : Text) :
    x ∈ xs.foldl pushNew seen ↔ x ∈ seen ∨ x ∈ xs := by
  induction xs generalizing seen with
  | nil => simp
  | cons y xs ih =>
    rw [List.foldl_cons, ih, mem_pushNew, List.mem_cons, or_assoc]

/-- A successful restriction has sealed what it had to. -/
theorem restrict_sealed {c r : Component t} {allow : List InterfaceRef}
    (h : restrict t c allow = .ok r) (hne : absentees c.metadata allow ≠ []) :
    ∃ sealer g, buildAbsentProvider t c.binary (interfacesToSeal (absentees c.metadata allow))
        (absentees c.metadata allow) = some sealer ∧
      wireAbsent sealer (absentees c.metadata allow)
        ((CompositionGraph.new.instantiate sealer).instantiate (registered c.binary)) = .ok g := by
  unfold restrict at h
  split at h
  · cases h
  · unfold restrictBy at h
    simp only at h
    split at h
    · cases h
    · split at h
      · rename_i hnil
        exact absurd hnil hne
      · unfold sealOptionalImports at h
        split at h
        · cases h
        · rename_i sealer hsealer
          refine ⟨sealer, ?_⟩
          simp only at h
          split at h
          · cases h
          · rename_i g hwired
            exact ⟨g, hsealer, hwired⟩

theorem sealed_truth {c r : Component t} {allow : List InterfaceRef}
    (h : restrict t c allow = .ok r) :
    SealedTruth t c allow
      (((absentees c.metadata allow).map ImportMeta.interface).foldl pushNew []) := by
  intro x
  rw [mem_foldl_pushNew]
  have hmem : ∀ i, i ∈ absentees c.metadata allow →
      i ∈ c.metadata.imports ∧ i.required = false := by
    intro i hi
    obtain ⟨hi, hrequired⟩ := List.mem_filter.mp hi
    exact ⟨List.mem_of_mem_filter hi, by simpa using hrequired⟩
  constructor
  · rintro (hnil | hx)
    · cases hnil
    · obtain ⟨i, hi, rfl⟩ := List.mem_map.mp hx
      have hne := List.ne_nil_of_mem hi
      obtain ⟨sealer, g, hsealer, hwired⟩ := restrict_sealed h hne
      refine ⟨i, (hmem i hi).1, (hmem i hi).2, ⟨sealer, g, hne, hsealer, hwired, ?_⟩, rfl⟩
      exact (wireAbsent_spec hwired _).mpr (.inr ⟨i, hi, rfl⟩)
  · rintro ⟨i, hi, -, ⟨sealer, g, -, -, hwired, hsome⟩, rfl⟩
    obtain hbefore | ⟨o, ho, hport⟩ := (wireAbsent_spec hwired _).mp hsome
    · cases hbefore
    · injection hport with _ hname
      refine .inr (List.mem_map.mpr ⟨o, ho, ?_⟩)
      -- the names of a component's imports are unique
      have hnodup : (c.metadata.imports.map ImportMeta.externName).Nodup := by
        rw [c.imports_eq, Meta.importsOf, List.map_map]
        exact c.named.imports_nodup.sublist (List.filter_sublist.map _)
      rw [List.inj_on_of_nodup_map hnodup (hmem o ho).1 hi hname.symm]


inductive Operation (t : Toolchain T V) where
  | compose (provider consumer : Wired t)
  | extend (base layer : Wired t)
  | restrict (c : Wired t) (allow : List InterfaceRef)
  | rename (c : Wired t) (from_ to_ : Text)
  | configure (c : Wired t) (args : List Text) (configured : Component t)

namespace Operation

omit [DecidableEq T] [LinearOrder V] in
def operands : Operation t → List (Wired t)
  | compose provider consumer => [provider, consumer]
  | extend base layer => [base, layer]
  | restrict c _ => [c]
  | rename c _ _ => [c]
  | configure c _ _ => [c]

/-- The result, if there is one, with the warnings. -/
def run : Operation t → Option (Wired t × List ComposeWarning)
  | compose provider consumer => (composeWired t provider consumer).toOption
  | extend base layer => (extendWired t base layer).toOption.map (·, [])
  | restrict c allow => (restrictWired t c allow).toOption.map (·, [])
  | rename c from_ to_ => (renameWired t c from_ to_).toOption.map (·, [])
  | configure c args configured => some (configuredWired t c args configured, [])

/-- What the result's tree lists is so. -/
def Listed (op : Operation t) (r : Wired t × List ComposeWarning) : Prop :=
  match op, r.1.wiring with
  | compose provider consumer, .compose _ _ satisfied =>
    SatisfiedTruth t provider.component consumer.component satisfied r.2
  | extend base _, .extend _ _ shadowed =>
    ShadowedTruth t base.component r.1.component shadowed
  | restrict c allow, .restrict _ sealedAbsent _ => SealedTruth t c.component allow sealedAbsent
  | rename _ _ _, .rename _ _ _ => True
  | configure _ _ _, .configure _ _ => True
  | _, _ => False

/-- Of a composition, that the list agrees with the wiring rule. -/
def Agrees : Operation t → Prop
  | compose provider consumer => Reported provider.component.metadata consumer.component.metadata
  | _ => True

/-- What a successful operation has made. -/
inductive Ran : Operation t → Wired t × List ComposeWarning → Prop
  | compose {p c : Wired t} {v : Component t × List ComposeWarning}
      (h : composeChecked t p.component c.component = .ok v) :
      Ran (compose p c) (⟨v.1, .compose p.wiring c.wiring
        (satisfiedInterfaces p.component.metadata c.component.metadata)⟩, v.2)
  | extend {b l : Wired t} {v : Component t} (h : Component.extend t b.component l.component = .ok v) :
      Ran (extend b l) (⟨v, .extend b.wiring l.wiring (overridden b.component l.component)⟩, [])
  | restrict {c : Wired t} {allow : List InterfaceRef} {v : Component t}
      (h : Component.restrict t c.component allow = .ok v) :
      Ran (restrict c allow) (⟨v, .restrict (allow.map InterfaceRef.label)
        (((absentees c.component.metadata allow).map ImportMeta.interface).foldl pushNew [])
        c.wiring⟩, [])
  | rename {c : Wired t} {from_ to_ : Text} {v : Component t}
      (h : Component.rename t c.component from_ to_ = .ok v) :
      Ran (rename c from_ to_) (⟨v, .rename from_ to_ c.wiring⟩, [])
  | configure {c : Wired t} {args : List Text} {v : Component t} :
      Ran (configure c args v) (⟨v, .configure args c.wiring⟩, [])

omit [DecidableEq T] [LinearOrder V] in
theorem toOption_map {ε α β : Type} {x : Except ε α} {f : α → β} {b : β}
    (h : (x.map f).toOption = some b) : ∃ a, x = .ok a ∧ f a = b := by
  cases x with
  | error e => cases h
  | ok a => exact ⟨a, rfl, Option.some.inj h⟩

theorem ran {op : Operation t} {r : Wired t × List ComposeWarning} (h : op.run = some r) :
    op.Ran r := by
  cases op with
  | compose p c =>
    obtain ⟨v, hv, rfl⟩ := toOption_map h
    exact .compose hv
  | extend b l =>
    obtain ⟨w, hw, rfl⟩ := Option.map_eq_some_iff.mp h
    obtain ⟨v, hv, rfl⟩ := toOption_map hw
    exact .extend hv
  | restrict c allow =>
    obtain ⟨w, hw, rfl⟩ := Option.map_eq_some_iff.mp h
    obtain ⟨v, hv, rfl⟩ := toOption_map hw
    exact .restrict hv
  | rename c from_ to_ =>
    obtain ⟨w, hw, rfl⟩ := Option.map_eq_some_iff.mp h
    obtain ⟨v, hv, rfl⟩ := toOption_map hw
    exact .rename hv
  | configure c args configured =>
    cases h
    exact .configure

/-- The tree of every operand is a part of the result's. -/
theorem operand_within {op : Operation t} {r : Wired t × List ComposeWarning}
    (h : op.run = some r) : ∀ o ∈ op.operands, o.wiring.Within r.1.wiring := by
  intro o ho
  cases ran h with
  | compose hv =>
    rcases List.mem_cons.mp ho with rfl | ho
    · exact .provider .refl
    · rw [List.mem_singleton.mp ho]
      exact .consumer .refl
  | extend hv =>
    rcases List.mem_cons.mp ho with rfl | ho
    · exact .base .refl
    · rw [List.mem_singleton.mp ho]
      exact .layer .refl
  | restrict hv =>
    rw [List.mem_singleton.mp ho]
    exact .restrict .refl
  | rename hv =>
    rw [List.mem_singleton.mp ho]
    exact .rename .refl
  | configure =>
    rw [List.mem_singleton.mp ho]
    exact .configure .refl

end Operation

/-- An operand of an operation in the history of a component. -/
inductive Interposed (w : Wired t) : Wired t → Prop
  | self : Interposed w w
  | operand {op : Operation t} {o : Wired t} {r : Wired t × List ComposeWarning}
      (hrun : op.run = some r) (ho : o ∈ op.operands) (h : Interposed w o) : Interposed w r.1

omit [DecidableEq T] [LinearOrder V] in
theorem Wiring.Within.trans {a b c : Wiring} (hab : a.Within b) (hbc : b.Within c) :
    a.Within c := by
  induction hbc with
  | refl => exact hab
  | provider _ ih => exact .provider ih
  | consumer _ ih => exact .consumer ih
  | base _ ih => exact .base ih
  | layer _ ih => exact .layer ih
  | restrict _ ih => exact .restrict ih
  | rename _ ih => exact .rename ih
  | configure _ ih => exact .configure ih

theorem Interposed.within {w r : Wired t} (h : Interposed w r) : w.wiring.Within r.wiring := by
  induction h with
  | self => exact .refl
  | operand hrun ho _ ih => exact ih.trans (Operation.operand_within hrun _ ho)

/-- The tree of a result tells the truth. -/
structure Truthful (op : Operation t) (r : Wired t × List ComposeWarning) : Prop where
  listed : op.Listed r
  interposed : ∀ w o, o ∈ op.operands → Interposed w o → w.wiring.Within r.1.wiring

end Graph

/-- A provider of the first version of an interface. -/
def firstVersion : Component namesToolchain where
  binary :=
    { imports := []
      exports := [⟨text "a:b/c@1.0.0", none, .interface ⟨[⟨text "f", [], none⟩], []⟩⟩]
      wires := .leaf }
  metadata :=
    { kind := .provider
      imports := []
      exports := [⟨text "a:b/c@1.0.0", text "a:b/c", text "a:b/c", text "1.0.0"⟩] }
  loaded := by decide

def needsSecond : Component namesToolchain where
  binary :=
    { imports := [⟨text "a:b/c@2.0.0", none, .interface ⟨[⟨text "f", [], none⟩], []⟩⟩]
      exports := [⟨text "main", none, .func ⟨text "main", [], none⟩⟩]
      wires := .leaf }
  metadata :=
    { kind := .binary
      imports := [⟨text "a:b/c@2.0.0", text "a:b/c", text "a:b/c", text "2.0.0", true, false⟩]
      exports := [] }
  loaded := by decide

def mismatch : Operation namesToolchain :=
  .compose (.ofComponent firstVersion) (.ofComponent needsSecond)

theorem run_mismatch : ∃ r, mismatch.run = some r := by
  apply Option.isSome_iff_exists.mp
  decide

end Eo9.Component
