import Eo9.Component.Compose

/-!
# `only` and `rename`

Restriction to an allow-list (`restrict.rs`) and relabelling of slots
(`rename.rs`).
-/

namespace Eo9.Component

open Eo9.Library

variable {T V : Type}

/-- A reference to an interface or a package; without a version any version is
meant. -/
structure InterfaceRef where
  interface : Text
  version : Option Text

/-- Errors of `only`; the texts of other crates are left out. -/
inductive RestrictError where
  | requiredOutsideAllowList (names : List Text)
  | invalidAllowList (message : Text)
  | internal

/-- Checks that every entry is an interface or package name with a parseable
version. -/
def validateAllowList : List InterfaceRef → Except RestrictError Unit
  | [] => .ok ()
  | entry :: allow =>
    let (name, inlineVersion) := splitExternName entry.interface
    if isInterfaceStyle name = false ∨ inlineVersion ≠ [] then
      .error (.invalidAllowList (text "`" ++ entry.interface ++
        text ("` is not an interface or package name (expected " ++
          "`namespace:package/interface` or `namespace:package`)")))
    else
      match entry.version with
      | none => validateAllowList allow
      | some version =>
        if (Version.parse version).isNone then
          .error (.invalidAllowList (text "`" ++ version ++
            text "` is not a semver version (allow-list entry `" ++ name ++ text "`)"))
        else validateAllowList allow

/-- The panic-message sink, which every allow-list admits. -/
def runtimeDiagnostics (import_ : ImportMeta) : Bool :=
  decide ((splitExternName import_.interface).1 = text "eo9:rt/diagnostics")

/-- Whether one entry names the interface of an import, in either flavour, or
its package. -/
def InterfaceRef.names (entry : InterfaceRef) (import_ : ImportMeta) : Bool :=
  if '/' ∈ entry.interface then
    decide (import_.interface = entry.interface) ||
      decide (stripSuffix optionalSuffix import_.interface = some entry.interface)
  else decide (packageOf import_.interface = entry.interface)

def admitted (import_ : ImportMeta) (allow : List InterfaceRef) : Bool :=
  allow.any fun entry =>
    entry.names import_ &&
      match entry.version with
      | none => true
      | some granted => satisfies granted import_.version

/-- The text used to name an offending import. -/
def describeOffender (import_ : ImportMeta) : Text :=
  let interface :=
    if import_.interface = [] then text "<inline interface>" else import_.interface
  let interface :=
    if import_.version = [] then interface else interface ++ '@' :: import_.version
  if import_.slot = import_.interface then interface
  else import_.slot ++ text " (" ++ interface ++ text ")"

def versionedInterfaceId (import_ : ImportMeta) : Text :=
  versioned import_.interface import_.version

/-- The interfaces to seal, each once. -/
def interfacesToSeal (toSeal : List ImportMeta) : List Text :=
  toSeal.foldl (fun ids import_ =>
    if versionedInterfaceId import_ ∈ ids then ids else ids ++ [versionedInterfaceId import_]) []

/-- Register a named type unless its name is taken. -/
def registerType (ts : List (Text × T)) (ty : Text × T) : List (Text × T) :=
  if ty.1 ∈ ts.map Prod.fst then ts else ts ++ [ty]

def Item.types : Item T → List (Text × T)
  | .interface i => i.types
  | _ => []

/-- An interface of the decoded world, by its versioned id. -/
def Binary.interfaceOf (b : Binary T) (id : Text) : Interface T :=
  let sharing := b.slots.filter fun e => e.ident = splitExternName id
  { functions := (sharing.flatMap fun e => e.item.functions).foldl Binary.register []
    types := (sharing.flatMap fun e => e.item.types).foldl registerType [] }

/-- Whether every function of an optional import is a nullary accessor that
returns an option. -/
def checkSealable (t : Toolchain T V) (b : Binary T) (import_ : ImportMeta) : Bool :=
  match b.imports.find? fun e => e.name == import_.externName with
  | none => false
  | some e =>
    e.item.isInterface &&
      (b.functions e).all fun f =>
        f.params.isEmpty && (match f.result with | some r => t.isOption r | none => false)

/-- The component that exports each of the interfaces, with functions that
answer `none`. -/
def buildAbsentProvider (t : Toolchain T V) (b : Binary T) (interfaces : List Text)
    (toSeal : List ImportMeta) : Option (Object Text (Item T)) :=
  if toSeal.all (checkSealable t b) ∧ t.resolves b interfaces = true then
    some
      { imports := (t.uses b interfaces).map fun p => (p.1, .interface p.2)
        exports := interfaces.map fun id => (id, .interface (b.interfaceOf id))
        wires := .leaf }
  else none

section Only

variable [DecidableEq T]

/-- Wires the absent provider into the given imports. -/
def wireAbsent (sealer : Object Text (Item T)) :
    List ImportMeta → CompositionGraph Text (Item T) →
      Except RestrictError (CompositionGraph Text (Item T))
  | [], g => .ok g
  | import_ :: toSeal, g =>
    if versionedInterfaceId import_ ∈ sealer.exports.map Prod.fst then
      match g.setArgument Item.subtype ⟨1, import_.externName⟩
          ⟨0, versionedInterfaceId import_⟩ with
      | .error _ => .error .internal
      | .ok g => wireAbsent sealer toSeal g
    else .error .internal

variable [LinearOrder V]

/-- Seals the given optional imports as absent. -/
def sealOptionalImports (t : Toolchain T V) (c : Component t) (toSeal : List ImportMeta) :
    Except RestrictError (Component t) :=
  match buildAbsentProvider t c.binary (interfacesToSeal toSeal) toSeal with
  | none => .error .internal
  | some sealer =>
    let g := (CompositionGraph.new.instantiate sealer).instantiate (registered c.binary)
    match wireAbsent sealer toSeal g with
    | .error e => .error e
    | .ok g =>
      match exportAll 1 [] (registered c.binary).exports g with
      | .error _ => .error .internal
      | .ok g =>
        match encode t g (slotAnnotations [c.metadata]) with
        | .error _ => .error .internal
        | .ok r => .ok r

/-- Whether an import stays without being sealed or refused. -/
def passes (admits : ImportMeta → Bool) (import_ : ImportMeta) : Bool :=
  import_.authorityFree || runtimeDiagnostics import_ || admits import_

/-- The gate for the imports that `admits` admits. -/
def restrictBy (t : Toolchain T V) (c : Component t) (admits : ImportMeta → Bool) :
    Except RestrictError (Component t) :=
  let outside := c.metadata.imports.filter fun i => !passes admits i
  let offenders := (outside.filter fun i => i.required).map describeOffender
  let toSeal := outside.filter fun i => !i.required
  if offenders ≠ [] then .error (.requiredOutsideAllowList offenders)
  else if toSeal = [] then .ok c
  else sealOptionalImports t c toSeal

def restrict (t : Toolchain T V) (c : Component t) (allow : List InterfaceRef) :
    Except RestrictError (Component t) :=
  match validateAllowList allow with
  | .error e => .error e
  | .ok () => restrictBy t c fun i => admitted i allow

end Only

/-- One planned extern-name rewrite. -/
structure Rewrite where
  oldExtern : Text
  newExtern : Text
  implements : Option Text

/-- Errors of `rename`. -/
inductive RenameError where
  | noSuchSlot (name : Text)
  | slotCollision (message : Text)
  | internal

/-- The new extern name and annotation for renaming a slot. -/
def planRewrite (oldExtern to_ interface version : Text) : Except RenameError Rewrite :=
  if isInterfaceStyle to_ = false then
    .ok
      { oldExtern := oldExtern
        newExtern := to_
        implements := if interface = [] then none else some (versioned interface version) }
  else
    let (toSlot, toVersion) := splitExternName to_
    if toSlot ≠ interface then
      .error (.slotCollision (text "`" ++ to_ ++ text "` names interface `" ++ toSlot ++
        text "`, but the slot's interface is `" ++ interface ++
        text "`; a default slot's name and interface must agree"))
    else if toVersion ≠ [] ∧ toVersion ≠ version then
      .error (.slotCollision (text "`" ++ to_ ++ text "` pins version `" ++ toVersion ++
        text "`, but the slot's interface version is `" ++ version ++ text "`"))
    else
      .ok
        { oldExtern := oldExtern
          newExtern := versioned interface version
          implements := none }

/-- A rewrite that gives no slot a name that another slot of its side has:
`others` are the extern and slot names of the side. -/
def checkCollision (side to_ : Text) (others : List (Text × Text)) (r : Rewrite) :
    Except RenameError Rewrite :=
  if others.any fun o => o.1 ≠ r.oldExtern ∧ (o.2 = to_ ∨ o.1 = r.newExtern) then
    .error (.slotCollision (text "an " ++ side ++ text " slot named `" ++ to_ ++
      text "` already exists"))
  else .ok r

def planImportRewrite (import_ : ImportMeta) (to_ : Text) (all : List ImportMeta) :
    Except RenameError Rewrite :=
  (planRewrite import_.externName to_ import_.interface import_.version).bind
    (checkCollision (text "import") to_ (all.map fun o => (o.externName, o.slot)))

def planExportRewrite (export_ : ExportMeta) (to_ : Text) (all : List ExportMeta) :
    Except RenameError Rewrite :=
  (planRewrite export_.externName to_ export_.interface export_.version).bind
    (checkCollision (text "export") to_ (all.map fun o => (o.externName, o.slot)))

/-- The rewrite of one side, where the side has the slot. -/
def transposed {α : Type} (plan : α → Except RenameError Rewrite) :
    Option α → Except RenameError (Option Rewrite)
  | none => .ok none
  | some slot => (plan slot).map some

def Rewrite.noop (r : Option Rewrite) : Bool :=
  match r with
  | none => true
  | some r => decide (r.oldExtern = r.newExtern)

/-- What a rewrite does to an extern name. -/
def Rewrite.applied (r : Option Rewrite) (e : Extern T) : Option ExternName :=
  match r with
  | none => none
  | some r => if r.oldExtern = e.name then some ⟨r.newExtern, r.implements⟩ else none

def rename (t : Toolchain T V) (c : Component t) (from_ to_ : Text) :
    Except RenameError (Component t) :=
  let import_ := c.metadata.imports.find? fun i => i.slot == from_ || i.externName == from_
  let export_ := c.metadata.exports.find? fun e => e.slot == from_ || e.externName == from_
  if import_.isNone ∧ export_.isNone then .error (.noSuchSlot from_)
  else
    match transposed (planImportRewrite · to_ c.metadata.imports) import_ with
    | .error e => .error e
    | .ok importRewrite =>
      match transposed (planExportRewrite · to_ c.metadata.exports) export_ with
      | .error e => .error e
      | .ok exportRewrite =>
        if Rewrite.noop importRewrite ∧ Rewrite.noop exportRewrite then .ok c
        else
          match load t (rewriteExternNames c.binary fun side e =>
            match side with
            | .import_ => Rewrite.applied importRewrite e
            | .export_ => Rewrite.applied exportRewrite e) with
          | .error _ => .error .internal
          | .ok r => .ok r

end Eo9.Component

/-!
## What the operators build

Each operator that wires components is shown to assemble its result from slots
of its operands: the imports that are left open and the exports that are kept.
-/

namespace Eo9.Component

open Eo9.Library

variable {T V : Type}

theorem load_eq_ok {t : Toolchain T V} {b : Binary T} {c : Component t}
    (h : load t b = .ok c) : c.binary = b := by
  unfold load at h
  split at h
  · injection h with h
    rw [← h]
  · exact absurd h nofun

namespace Component

variable {t : Toolchain T V} (c : Component t)

theorem loaded_iff : t.valid c.binary = true ∧
    ∃ kind, Meta.classify (Meta.functionExports c.binary) (Meta.exportsOf c.binary) = .ok kind ∧
      c.metadata = ⟨kind, Meta.importsOf c.binary, Meta.exportsOf c.binary⟩ := by
  have h := c.loaded
  unfold Meta.fromBinary at h
  split at h
  · rename_i hvalid
    refine ⟨hvalid, ?_⟩
    split at h
    · exact absurd h nofun
    · rename_i kind hkind
      injection h with h
      exact ⟨kind, hkind, h.symm⟩
  · exact absurd h nofun

theorem named : WellNamed c.binary := t.valid_named c.binary c.loaded_iff.1

theorem imports_eq : c.metadata.imports = Meta.importsOf c.binary := by
  obtain ⟨kind, -, h⟩ := c.loaded_iff.2
  rw [h]

theorem exports_eq : c.metadata.exports = Meta.exportsOf c.binary := by
  obtain ⟨kind, -, h⟩ := c.loaded_iff.2
  rw [h]

end Component

def Extern.bare (e : Extern T) : Text × Item T := (e.name, e.item)

/-- An extern with the annotation recorded for its name. -/
def annotated (annotations : List (Text × Text)) (p : Text × Item T) : Extern T :=
  ⟨p.1, annotations.lookup p.1, p.2⟩

/-- Rewriting that keeps every name keeps the wires. -/
theorem rewriteExternNames_wires {b : Binary T} {rewrite : Side → Extern T → Option ExternName}
    (h : ∀ side e, (encodedName e (rewrite side e)).name = e.name) :
    (rewriteExternNames b rewrite).wires = b.wires := by
  obtain ⟨imports, exports, given, exported⟩ := b
  simp only [rewriteExternNames, Wires.mk.injEq]
  constructor
  · funext leaf n
    cases given leaf n with
    | inner leaf' e => rfl
    | outer m =>
      simp only
      split
      · rename_i e he
        have hn := List.find?_some (p := fun e : Extern T => e.name == m) he
        rw [h, beq_iff_eq.mp hn]
      · rfl
  · funext n
    split
    · rename_i e he
      have hn := List.find?_some
        (p := fun e : Extern T => (encodedName e (rewrite .export_ e)).name == n) he
      rw [h] at hn
      rw [beq_iff_eq.mp hn]
    · rfl

theorem encodedName_strip (e : Extern T) :
    (encodedName e (e.implements.map fun _ => ⟨e.name, none⟩)) = ⟨e.name, none, e.item⟩ := by
  obtain ⟨name, implements, item⟩ := e
  cases implements with
  | none => rfl
  | some id => rfl

theorem registered_imports (b : Binary T) : (registered b).imports = b.imports.map Extern.bare := by
  change (b.imports.map _).map _ = _
  rw [List.map_map]
  apply List.map_congr_left
  intro e _
  change ((encodedName e _).name, (encodedName e _).item) = _
  rw [encodedName_strip]
  rfl

theorem registered_exports (b : Binary T) : (registered b).exports = b.exports.map Extern.bare := by
  change (b.exports.map _).map _ = _
  rw [List.map_map]
  apply List.map_congr_left
  intro e _
  change ((encodedName e _).name, (encodedName e _).item) = _
  rw [encodedName_strip]
  rfl

section Attach

variable (o : Object Text (Item T)) (annotations : List (Text × Text))

theorem attachImplements_wires (b : Binary T) : (attachImplements b annotations).wires = b.wires := by
  unfold attachImplements
  split
  · rfl
  · apply rewriteExternNames_wires
    intro side e
    unfold attachName
    split
    · rfl
    · cases annotations.lookup e.name with
      | none => rfl
      | some id => rfl

end Attach

end Eo9.Component
