import Mathlib.Algebra.Group.Nat.Defs
import Mathlib.Data.List.Basic
import Mathlib.Tactic.Common
import Eo9.Library.Linking

/-!
# Names and versions

Extern names, slot names and the semver rule (`slots.rs`, `semver.rs`). A text
is the list of its characters.
-/

namespace Eo9.Component

abbrev Text := List Char

instance : LawfulBEq Text := inferInstance

def text (s : String) : Text := s.toList

/-- `str::split_once`. -/
def splitOnce (sep : Char) : Text → Option (Text × Text)
  | [] => none
  | c :: cs =>
    if c = sep then some ([], cs)
    else (splitOnce sep cs).map fun parts => (c :: parts.1, parts.2)

/-- `str::split`. -/
def split (sep : Char) : Text → List Text
  | [] => [[]]
  | c :: cs =>
    if c = sep then [] :: split sep cs
    else
      match split sep cs with
      | [] => [[c]]
      | part :: parts => (c :: part) :: parts

/-- `str::strip_suffix`. -/
def stripSuffix (suffix s : Text) : Option Text :=
  if suffix.isSuffixOf s then some (s.take (s.length - suffix.length)) else none

theorem splitOnce_eq_none_iff {sep : Char} {s : Text} : splitOnce sep s = none ↔ sep ∉ s := by
  induction s with
  | nil => exact iff_of_true rfl List.not_mem_nil
  | cons c cs ih =>
    unfold splitOnce
    by_cases h : c = sep
    · simp [h]
    · simp [h, ih, Ne.symm h]

theorem splitOnce_eq_some_iff {sep : Char} {s before after : Text} :
    splitOnce sep s = some (before, after) ↔ sep ∉ before ∧ s = before ++ sep :: after := by
  induction s generalizing before with
  | nil => exact iff_of_false nofun (by simp)
  | cons c cs ih =>
    unfold splitOnce
    by_cases h : c = sep
    · rw [if_pos h]
      cases before with
      | nil => simp [h, eq_comm]
      | cons b bs =>
        refine iff_of_false nofun ?_
        intro ⟨hmem, heq⟩
        injection heq with hcb _
        exact hmem (by rw [← hcb, h]; exact List.mem_cons_self)
    · rw [if_neg h, Option.map_eq_some_iff]
      cases before with
      | nil =>
        refine iff_of_false ?_ ?_
        · intro ⟨parts, _, heq⟩
          exact absurd (congrArg Prod.fst heq) nofun
        · intro ⟨_, heq⟩
          injection heq with hcs _
          exact h hcs
      | cons b bs =>
        constructor
        · intro ⟨parts, hparts, heq⟩
          injection heq with hfst hsnd
          injection hfst with hb hbs
          obtain ⟨hmem, hcs⟩ := ih.mp (show splitOnce sep cs = some (bs, after) by
            rw [hparts, ← hbs, ← hsnd])
          refine ⟨?_, by rw [hcs, hb]; rfl⟩
          rw [List.mem_cons, not_or]
          exact ⟨fun heq => h (hb.trans heq.symm), hmem⟩
        · intro ⟨hmem, heq⟩
          injection heq with hb hcs
          have hbs : sep ∉ bs := fun hbs => hmem (List.mem_cons_of_mem b hbs)
          exact ⟨(bs, after), ih.mpr ⟨hbs, hcs⟩, by rw [hb]⟩

/-- A parsed `major.minor.patch` version; `suffix` is what follows the patch
number, with its sigil. -/
structure Version where
  major : ℕ
  minor : ℕ
  patch : ℕ
  suffix : Text

def digit (c : Char) : Option ℕ :=
  if '0' ≤ c ∧ c ≤ '9' then some (c.toNat - '0'.toNat) else none

/-- `str::parse::<u64>` on a text without a sign. -/
def parseU64 (s : Text) : Option ℕ :=
  if s = [] then none
  else
    s.foldl (fun acc c =>
      acc.bind fun n => (digit c).bind fun d =>
        if 10 * n + d < 2 ^ 64 then some (10 * n + d) else none) (some 0)

/-- Parses a `major.minor.patch[-pre][+build]` text. -/
def Version.parse (s : Text) : Option Version :=
  let numeric := s.takeWhile fun c => c ≠ '-' ∧ c ≠ '+'
  let suffix := s.dropWhile fun c => c ≠ '-' ∧ c ≠ '+'
  match split '.' numeric with
  | [major, minor, patch] => do
      some ⟨← parseU64 major, ← parseU64 minor, ← parseU64 patch, suffix⟩
  | _ => none

/-- Whether a provider built against `provided` satisfies an import pinned to
`required`. -/
def satisfies (provided required : Text) : Bool :=
  if required = [] ∨ provided = required then true
  else if provided = [] then false
  else
    match Version.parse provided, Version.parse required with
    | some p, some r =>
      if p.suffix ≠ [] ∨ r.suffix ≠ [] then false
      else if p.major ≠ r.major then false
      else if p.major > 0 then
        decide (p.minor > r.minor ∨ (p.minor = r.minor ∧ p.patch ≥ r.patch))
      else if r.minor > 0 then decide (p.minor = r.minor ∧ p.patch ≥ r.patch)
      else false
    | _, _ => false

example : satisfies (text "1.2.0") (text "1.0.0") = true := by decide

example : satisfies (text "0.2.0") (text "0.1.0") = false := by decide

/-- The versionless slot name of an extern name and its version text. -/
def splitExternName (name : Text) : Text × Text :=
  match splitOnce '@' name with
  | some parts => parts
  | none => (name, [])

def slotName (externName : Text) : Text := (splitExternName externName).1

/-- Whether a name is of the form `ns:pkg/iface[@version]`. -/
def isInterfaceStyle (name : Text) : Bool := decide (':' ∈ name)

/-- Whether an export satisfies an import: equal slot names, and the export's
version satisfies the import's. -/
def exportMatchesImport (exportName importName : Text) : Bool :=
  decide (slotName exportName = slotName importName) &&
    satisfies (splitExternName exportName).2 (splitExternName importName).2

/-- `interface@version`, or the interface alone. -/
def versioned (interface version : Text) : Text :=
  if version = [] then interface else interface ++ '@' :: version

theorem splitExternName_versioned {interface version : Text} (h : '@' ∉ interface) :
    splitExternName (versioned interface version) = (interface, version) := by
  unfold splitExternName versioned
  by_cases hv : version = []
  · rw [if_pos hv, splitOnce_eq_none_iff.mpr h, hv]
  · rw [if_neg hv, splitOnce_eq_some_iff.mpr ⟨h, rfl⟩]

/-- A slot name has no version in it. -/
theorem not_mem_slotName (name : Text) : '@' ∉ slotName name := by
  unfold slotName splitExternName
  split
  · rename_i parts h
    exact (splitOnce_eq_some_iff.mp (show splitOnce '@' name = some (parts.1, parts.2) from h)).1
  · rename_i h
    exact splitOnce_eq_none_iff.mp h

/-!
## Components and what is read from them

A component binary is modelled down to its outer imports and exports, with the
wiring inside. What the crates under the algebra decide is collected in a
`Toolchain`. `Meta.fromBinary` is `load` and `describe` (`describe.rs`,
`component.rs`).
-/

open Eo9.Library

/-- A function of an interface: its parameter types and its result type. -/
structure Func (T : Type) where
  name : Text
  params : List T
  result : Option T
  deriving DecidableEq

/-- An interface type: its functions and its named types. -/
structure Interface (T : Type) where
  functions : List (Func T)
  types : List (Text × T)

/-- The kind of an import or export; `other` is a type, a value, a core module
or a component. -/
inductive Item (T : Type) where
  | interface (i : Interface T)
  | func (f : Func T)
  | other (t : T)

/-- An import or export with its `implements` annotation. -/
structure Extern (T : Type) where
  name : Text
  implements : Option Text
  item : Item T

structure Binary (T : Type) where
  imports : List (Extern T)
  exports : List (Extern T)
  wires : Wires Text

variable {T V : Type}

namespace Item

def isInterface : Item T → Bool
  | interface _ => true
  | _ => false

def functions : Item T → List (Func T)
  | interface i => i.functions
  | _ => []

end Item

namespace Extern

/-- The interface an instance is of and its version; both are empty for an
inline interface. -/
def ident (e : Extern T) : Text × Text :=
  match e.implements with
  | some id => splitExternName id
  | none => if isInterfaceStyle e.name then splitExternName e.name else ([], [])

end Extern

namespace Binary

/-- The interface slots of both sides. -/
def slots (b : Binary T) : List (Extern T) :=
  (b.imports ++ b.exports).filter fun e => e.item.isInterface

/-- The slots whose functions an interface has in the decoded world: all slots
of one named interface are decoded into one interface. -/
def sharing (b : Binary T) (e : Extern T) : List (Extern T) :=
  if e.ident.1 = [] then [e] else b.slots.filter fun o => o.ident = e.ident

/-- Register a function unless its name is taken. -/
def register (fs : List (Func T)) (f : Func T) : List (Func T) :=
  if f.name ∈ fs.map Func.name then fs else fs ++ [f]

/-- The functions of a slot's interface in the decoded world. -/
def functions (b : Binary T) (e : Extern T) : List (Func T) :=
  ((b.sharing e).flatMap fun o => o.item.functions).foldl register []

end Binary

/-- What the `semver` crate reads from a version text. -/
structure SemverCrate (V : Type) where
  parse : Text → Option V
  major : V → ℕ
  minor : V → ℕ
  isPre : V → Bool
  parse_injective : ∀ s s' v, parse s = some v → parse s' = some v → s = s'

/-- The names of a valid component: they are unique on each side, a plain name is
a label, only a plain name is annotated, and versions are not empty. -/
structure WellNamed (b : Binary T) : Prop where
  imports_nodup : (b.imports.map Extern.name).Nodup
  exports_nodup : (b.exports.map Extern.name).Nodup
  label : ∀ e ∈ b.imports ++ b.exports, isInterfaceStyle e.name = false → '@' ∉ e.name
  default : ∀ e ∈ b.imports ++ b.exports, isInterfaceStyle e.name = true →
    e.implements = none ∧ (splitExternName e.name).1 ≠ [] ∧
      versioned (splitExternName e.name).1 (splitExternName e.name).2 = e.name
  annotated : ∀ e ∈ b.imports ++ b.exports, ∀ id, e.implements = some id →
    (splitExternName id).1 ≠ []

/-- The crates that the algebra is built on. `valid` is what the validator and
the decoder accept. `isOption` tells the `option` types. `bindResult` is `result<_, string>`.
`resolves` tells whether a world that exports the given interfaces of a component
can be resolved, and `uses` is what such a world imports for the types they use. -/
structure Toolchain (T V : Type) where
  semver : SemverCrate V
  valid : Binary T → Bool
  isOption : T → Bool
  bindResult : T
  resolves : Binary T → List Text → Bool
  uses : Binary T → List Text → List (Text × Interface T)
  valid_named : ∀ b, valid b = true → WellNamed b

def optionalSuffix : Text := text "-optional"

def configSuffix : Text := text "-config"

/-- The interface of the configured-entrypoint rider. -/
def configuredInterface : Text := text "eo9:rt/configured"

inductive ComponentKind where
  | binary | provider
  deriving DecidableEq

/-- Slot-level metadata for one import. -/
structure ImportMeta where
  externName : Text
  slot : Text
  interface : Text
  version : Text
  required : Bool
  authorityFree : Bool
  deriving DecidableEq

/-- Slot-level metadata for one interface export. -/
structure ExportMeta where
  externName : Text
  slot : Text
  interface : Text
  version : Text
  deriving DecidableEq

/-- What `load` learns about a component. -/
structure Meta where
  kind : ComponentKind
  imports : List ImportMeta
  exports : List ExportMeta
  deriving DecidableEq

/-- Why bytes are not loaded; the texts of other crates are left out. -/
inductive LoadError where
  | invalidComponent
  | notAnEo9Module (message : Text)
  deriving DecidableEq

/-- `[T]::join`. -/
def join (sep : Text) : List Text → Text
  | [] => []
  | [part] => part
  | part :: parts => part ++ sep ++ join sep parts

namespace Meta

def importMeta (b : Binary T) (e : Extern T) : ImportMeta where
  externName := e.name
  slot := slotName e.name
  interface := e.ident.1
  version := e.ident.2
  required := !optionalSuffix.isSuffixOf e.ident.1
  authorityFree := (b.functions e).isEmpty

def exportMeta (e : Extern T) : ExportMeta where
  externName := e.name
  slot := slotName e.name
  interface := e.ident.1
  version := e.ident.2

/-- The imports of the decoded world that are interfaces. -/
def importsOf (b : Binary T) : List ImportMeta :=
  (b.imports.filter fun e => e.item.isInterface).map (importMeta b)

def exportsOf (b : Binary T) : List ExportMeta :=
  (b.exports.filter fun e => e.item.isInterface).map exportMeta

def functionExports (b : Binary T) : List Text :=
  (b.exports.filter fun e => match e.item with | .func _ => true | _ => false).map Extern.name

/-- The kind of a component with the given exports. -/
def classify (functions : List Text) (exports : List ExportMeta) :
    Except LoadError ComponentKind :=
  let other := functions.filter fun f => f ≠ text "main" ∧ f ≠ text "configure"
  if other ≠ [] then
    .error (.notAnEo9Module
      (text "unexpected function exports (only `main` or `configure` are allowed): " ++
        join (text ", ") other))
  else if text "main" ∈ functions then
    if text "configure" ∈ functions then
      .error (.notAnEo9Module (text
        "exports both `main` and `configure`; a module is a binary or a provider, never both"))
    else if (exports.filter fun e => e.interface ≠ configuredInterface) ≠ [] then
      .error (.notAnEo9Module (text
        "exports both `main` and interfaces; a module is a binary or a provider, never both"))
    else .ok .binary
  else .ok .provider

/-- Validates a binary, classifies it and reads its slots. -/
def fromBinary (t : Toolchain T V) (b : Binary T) : Except LoadError Meta :=
  if t.valid b = true then
    match classify (functionExports b) (exportsOf b) with
    | .error e => .error e
    | .ok kind => .ok { kind := kind, imports := importsOf b, exports := exportsOf b }
  else .error .invalidComponent

end Meta

/-- A loaded component: a binary with what was read from it. -/
structure Component (t : Toolchain T V) where
  binary : Binary T
  metadata : Meta
  loaded : Meta.fromBinary t binary = .ok metadata

def load (t : Toolchain T V) (b : Binary T) : Except LoadError (Component t) :=
  match h : Meta.fromBinary t b with
  | .ok m => .ok ⟨b, m, h⟩
  | .error e => .error e

end Eo9.Component
