import Eo9.Component.Externs

/-!
# `$` and `&`

Composition and extension over a composition graph (`compose.rs`), with what
they use of `wac-graph` and `wac-types`: the track of a name, the types that
agree, and the merging of residual imports.
-/

namespace Eo9.Component

open Eo9.Library

variable {T V : Type}

/-- `alternate_lookup_key`: the compatibility track of a versioned name. -/
def alternateLookupKey (s : SemverCrate V) (name : Text) : Option (Text × V) :=
  match splitOnce '@' name with
  | none => none
  | some (base, version) =>
    match s.parse version with
    | none => none
    | some v =>
      if s.isPre v = true then none
      else if s.major v ≠ 0 then
        (splitOnce '.' version).map fun parts => (base ++ '@' :: parts.1, v)
      else if s.minor v ≠ 0 then
        match splitOnce '.' version with
        | none => none
        | some (major, rest) =>
          (splitOnce '.' rest).map fun parts =>
            (base ++ '@' :: (major ++ '.' :: parts.1), v)
      else none

/-- A key and its version come from one name. -/
theorem alternateLookupKey_eq_some {s : SemverCrate V} {name : Text} {key : Text × V}
    (h : alternateLookupKey s name = some key) :
    ∃ base version tail, '@' ∉ base ∧ name = base ++ '@' :: version ∧
      s.parse version = some key.2 ∧ key.1 = base ++ '@' :: tail := by
  unfold alternateLookupKey at h
  split at h
  · exact absurd h nofun
  · rename_i base version hsplit
    obtain ⟨hbase, hname⟩ := splitOnce_eq_some_iff.mp hsplit
    split at h
    · exact absurd h nofun
    · rename_i v hparse
      split at h
      · exact absurd h nofun
      · split at h
        · obtain ⟨parts, -, hkey⟩ := Option.map_eq_some_iff.mp h
          exact ⟨base, version, parts.1, hbase, hname, by rw [hparse, ← hkey], by rw [← hkey]⟩
        · split at h
          · split at h
            · exact absurd h nofun
            · rename_i major rest _
              obtain ⟨parts, -, hkey⟩ := Option.map_eq_some_iff.mp h
              exact ⟨base, version, major ++ '.' :: parts.1, hbase, hname,
                by rw [hparse, ← hkey], by rw [← hkey]⟩
          · exact absurd h nofun

theorem alternateLookupKey_injective (s : SemverCrate V) (n m : Text) (key : Text × V)
    (hn : alternateLookupKey s n = some key) (hm : alternateLookupKey s m = some key) :
    n = m := by
  obtain ⟨base, version, tail, hbase, hname, hparse, hkey⟩ := alternateLookupKey_eq_some hn
  obtain ⟨base', version', tail', hbase', hname', hparse', hkey'⟩ :=
    alternateLookupKey_eq_some hm
  have h := splitOnce_eq_some_iff.mpr ⟨hbase, hkey⟩
  rw [splitOnce_eq_some_iff.mpr ⟨hbase', hkey'⟩] at h
  injection h with h
  injection h with hb _
  rw [hname, hname', hb, s.parse_injective version version' key.2 hparse hparse']

section Types

variable [DecidableEq T]

/-- Every export that `expected` asks for is there with the type asked for. -/
def Interface.subtype (found expected : Interface T) : Bool :=
  decide ((∀ f ∈ expected.functions, f ∈ found.functions) ∧
    ∀ ty ∈ expected.types, ty ∈ found.types)

/-- `SubtypeChecker::is_subtype`: types agree when they are equal. -/
def Item.subtype : Item T → Item T → Bool
  | .interface found, .interface expected => found.subtype expected
  | .func found, .func expected => decide (found = expected)
  | .other found, .other expected => decide (found = expected)
  | _, _ => false

/-- `merge_interface`: exports of one name agree; the others are added. -/
def Interface.merge (old new : Interface T) : Option (Interface T) :=
  if (∀ f ∈ new.functions, ∀ g ∈ old.functions, g.name = f.name → g = f) ∧
      ∀ f ∈ new.types, ∀ g ∈ old.types, g.1 = f.1 → g = f then
    some
      { functions := old.functions ++
          new.functions.filter fun f => f.name ∉ old.functions.map Func.name
        types := old.types ++ new.types.filter fun f => f.1 ∉ old.types.map Prod.fst }
  else none

/-- `merge_item_kind`. -/
def Item.merge : Item T → Item T → Option (Item T)
  | .interface old, .interface new => (old.merge new).map .interface
  | .func old, .func new => if old = new then some (.func old) else none
  | .other old, .other new => if old = new then some (.other old) else none
  | _, _ => none

/-- How `wac-graph` merges residual imports. -/
def merging (t : Toolchain T V) : Merging Text (Item T) Text V where
  track := alternateLookupKey t.semver
  merge := Item.merge
  track_injective := alternateLookupKey_injective t.semver

end Types

/-- Errors of `$` and `&`; the texts of other crates are left out. -/
inductive ComposeError where
  | notAProvider
  | typeMismatch (message : Text)
  | internal

/-- A non-fatal observation made while composing. -/
inductive ComposeWarning where
  | providerExportsUnused (exports : List Text)

def ComposeError.ofArgument : ArgumentError Text → ComposeError
  | .typeMismatch name => .typeMismatch (text "slot `" ++ name ++ text "`")
  | _ => .internal

/-- The API that the consumer requires and of which the provider offers only the
configuration interface. -/
def unconfiguredProviderFor (provider consumer : Meta) : Option Text :=
  consumer.imports.findSome? fun import_ =>
    if import_.required = false ∨ import_.interface = [] then none
    else
      let exportsApi := provider.exports.any fun e => e.interface = import_.interface
      let exportsConfig :=
        provider.exports.any fun e => e.interface = import_.interface ++ configSuffix
      if exportsConfig ∧ ¬ exportsApi then some import_.slot else none

/-- The package part of an interface name. -/
def packageOf (interface : Text) : Text := (split '/' interface).headD []

/-- The types-only imports whose package has an authority interface that the
consumer imports too and the provider does not export. -/
def splitIdentitySkips (provider consumer : Meta) : List Text :=
  (consumer.imports.filter fun import_ =>
    import_.authorityFree ∧ import_.interface ≠ [] ∧
      consumer.imports.any fun other =>
        other.authorityFree = false ∧
          packageOf other.interface = packageOf import_.interface ∧
          ¬ provider.exports.any fun e => e.interface = other.interface).map
    ImportMeta.externName

/-- The first interface export that satisfies an import. -/
def satisfier (exports : List (Text × Item T)) (importName : Text) : Option Text :=
  (exports.find? fun e => e.2.isInterface && exportMatchesImport e.1 importName).map Prod.fst

def configuredExport (exports : List (Text × Item T)) : Option Text :=
  (exports.find? fun e => e.2.isInterface && slotName e.1 == configuredInterface).map Prod.fst

/-- A component as the graph sees it: its extern names without annotations. -/
def registered (b : Binary T) : Object Text (Item T) where
  imports := (stripImplements b).imports.map fun e => (e.name, e.item)
  exports := (stripImplements b).exports.map fun e => (e.name, e.item)
  wires := (stripImplements b).wires

/-- The component that imports two configured entrypoints and exports one. -/
def bindMerger (t : Toolchain T V) : Object Text (Item T) :=
  let bind := .interface ⟨[⟨text "bind", [], some t.bindResult⟩], []⟩
  { imports := [(text "first", bind), (text "second", bind)]
    exports := [(text "eo9:rt/configured@0.1.0", bind)]
    wires := .leaf }

section CompositionGraph

variable [DecidableEq T]

/-- Wires every interface import of `dst` that is matched by an interface export
of `src`, except those listed in `skip`, and counts them. -/
def wireMatchingImports (src dst : ℕ) (exports : List (Text × Item T)) (skip : List Text) :
    List (Text × Item T) → CompositionGraph Text (Item T) × ℕ →
      Except ComposeError (CompositionGraph Text (Item T) × ℕ)
  | [], s => .ok s
  | (importName, importKind) :: imports, (g, count) =>
    if importKind.isInterface = false then
      wireMatchingImports src dst exports skip imports (g, count)
    else if importName ∈ skip then
      wireMatchingImports src dst exports skip imports (g, count)
    else
      match satisfier exports importName with
      | none => wireMatchingImports src dst exports skip imports (g, count)
      | some exportName =>
        match g.setArgument Item.subtype ⟨dst, importName⟩ ⟨src, exportName⟩ with
        | .error e => .error (.ofArgument e)
        | .ok g' => wireMatchingImports src dst exports skip imports (g', count + 1)

/-- Exports every export of an instance again, except those whose slot name is
listed. -/
def exportAll (inst : ℕ) (skipSlots : List Text) :
    List (Text × Item T) → CompositionGraph Text (Item T) →
      Except ComposeError (CompositionGraph Text (Item T))
  | [], g => .ok g
  | (name, _) :: exports, g =>
    if slotName name ∈ skipSlots then exportAll inst skipSlots exports g
    else
      match g.export_ ⟨inst, name⟩ name with
      | none => .error .internal
      | some g' => exportAll inst skipSlots exports g'

def exportPort (g : CompositionGraph Text (Item T)) (src : Port Text) (name : Text) :
    Except ComposeError (CompositionGraph Text (Item T)) :=
  match g.export_ src name with
  | none => .error .internal
  | some g' => .ok g'

/-- Exports the operands' configured entrypoints again. -/
def propagateBinds (t : Toolchain T V) (g : CompositionGraph Text (Item T))
    (first second : Option (Port Text)) :
    Except ComposeError (CompositionGraph Text (Item T)) :=
  match first, second with
  | some first, some second =>
    let merger := g.instances.length
    let g := g.instantiate (bindMerger t)
    match g.setArgument Item.subtype ⟨merger, text "first"⟩ first with
    | .error _ => .error .internal
    | .ok g =>
      match g.setArgument Item.subtype ⟨merger, text "second"⟩ second with
      | .error _ => .error .internal
      | .ok g =>
        exportPort g ⟨merger, text "eo9:rt/configured@0.1.0"⟩
          (text "eo9:rt/configured@0.1.0")
  | some first, none => exportPort g first first.name
  | _, _ => .ok g

def bare (o : Object Text (Item T)) : Binary T where
  imports := o.imports.map fun p => ⟨p.1, none, p.2⟩
  exports := o.exports.map fun p => ⟨p.1, none, p.2⟩
  wires := o.wires

variable [LinearOrder V]

/-- Encodes the graph, restores the annotations and loads the result. -/
def encode (t : Toolchain T V) (g : CompositionGraph Text (Item T))
    (annotations : List (Text × Text)) :
    Except ComposeError (Component t) :=
  match g.encode (merging t) with
  | none => .error .internal
  | some o =>
    match load t (attachImplements (bare o) annotations) with
    | .error _ => .error .internal
    | .ok c => .ok c

def composeChecked (t : Toolchain T V) (provider consumer : Component t) :
    Except ComposeError (Component t × List ComposeWarning) := do
  if provider.metadata.kind ≠ .provider then throw .notAProvider
  let p := registered provider.binary
  let c := registered consumer.binary
  let g := (CompositionGraph.new.instantiate p).instantiate c
  let skips := splitIdentitySkips provider.metadata consumer.metadata
  let (g, count) ← wireMatchingImports 0 1 p.exports skips c.imports (g, 0)
  let warnings ←
    if count = 0 then
      match unconfiguredProviderFor provider.metadata consumer.metadata with
      | some slot =>
        throw (.typeMismatch (text "`" ++ slot ++ text ("` exports only its configuration " ++
          "interface for an API the consumer requires -- apply `configure(\u2026)` to bind its " ++
          "arguments and produce a composable provider (an unconfigured provider has no API " ++
          "to compose)")))
      | none =>
        pure [ComposeWarning.providerExportsUnused
          (provider.metadata.exports.map ExportMeta.slot)]
    else pure []
  let pBind := configuredExport p.exports
  let cBind := configuredExport c.exports
  let consumerSkip := if pBind.isSome ∧ cBind.isSome then [configuredInterface] else []
  let g ← exportAll 1 consumerSkip c.exports g
  let g ← propagateBinds t g (pBind.map (⟨0, ·⟩)) (cBind.map (⟨1, ·⟩))
  let component ← encode t g (slotAnnotations [provider.metadata, consumer.metadata])
  return (component, warnings)

/-- `$`. -/
def compose (t : Toolchain T V) (provider consumer : Component t) :
    Except ComposeError (Component t) :=
  (composeChecked t provider consumer).map Prod.fst

/-- `&`. -/
def extend (t : Toolchain T V) (base layer : Component t) :
    Except ComposeError (Component t) := do
  if base.metadata.kind ≠ .provider ∨ layer.metadata.kind ≠ .provider then throw .notAProvider
  let x := registered base.binary
  let y := registered layer.binary
  let g := (CompositionGraph.new.instantiate x).instantiate y
  let skips := splitIdentitySkips base.metadata layer.metadata
  let (g, _) ← wireMatchingImports 0 1 x.exports skips y.imports (g, 0)
  let xBind := configuredExport x.exports
  let yBind := configuredExport y.exports
  let bothBind := xBind.isSome ∧ yBind.isSome
  let g ← exportAll 1 (if bothBind then [configuredInterface] else []) y.exports g
  let shadowed := y.exports.map fun e => slotName e.1
  let g ← exportAll 0 shadowed x.exports g
  let g ← if bothBind then
      propagateBinds t g (xBind.map (⟨0, ·⟩)) (yBind.map (⟨1, ·⟩))
    else pure g
  encode t g (slotAnnotations [base.metadata, layer.metadata])

end CompositionGraph

end Eo9.Component
