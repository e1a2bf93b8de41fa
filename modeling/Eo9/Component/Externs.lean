import Eo9.Component.World

/-!
# Rewriting of extern names

Stripping and restoring the `implements` annotations of a component's outer
names (`externs.rs`), and the annotations that the operands of an operation
record (`slot_annotations` of `compose.rs`).
-/

namespace Eo9.Component

open Eo9.Library

variable {T V : Type}

/-- Which side of the component an extern name appears on. -/
inductive Side where
  | import_ | export_

structure ExternName where
  name : Text
  implements : Option Text

def encodedName (e : Extern T) : Option ExternName → Extern T
  | some new => { e with name := new.name, implements := new.implements }
  | none => e

/-- Applies `rewrite` to every outer extern name; the inside is copied. -/
def rewriteExternNames (b : Binary T) (rewrite : Side → Extern T → Option ExternName) :
    Binary T :=
  let import_ := fun e => encodedName e (rewrite .import_ e)
  let export_ := fun e => encodedName e (rewrite .export_ e)
  { imports := b.imports.map import_
    exports := b.exports.map export_
    wires :=
      { given := fun leaf n =>
          match b.wires.given leaf n with
          | .inner leaf' e => .inner leaf' e
          | .outer m =>
            match b.imports.find? fun e => e.name == m with
            | some e => .outer (import_ e).name
            | none => .outer m
        exported := fun n =>
          match b.exports.find? fun e => (export_ e).name == n with
          | some e => b.wires.exported e.name
          | none => b.wires.exported n } }

/-- Drops every `implements` annotation. -/
def stripImplements (b : Binary T) : Binary T :=
  rewriteExternNames b fun _ e => e.implements.map fun _ => ⟨e.name, none⟩

def attachName (annotations : List (Text × Text)) (e : Extern T) : Option ExternName :=
  if e.implements.isSome then none
  else (annotations.lookup e.name).map fun id => ⟨e.name, some id⟩

/-- Gives every extern name that is listed and carries no annotation the
recorded one. -/
def attachImplements (b : Binary T) (annotations : List (Text × Text)) : Binary T :=
  if annotations = [] then b
  else rewriteExternNames b fun _ e => attachName annotations e

/-- The annotations so far, and the names that carry different ones. -/
structure Annotations where
  entries : List (Text × Text)
  conflicting : List Text

/-- What a slot is recorded with: its extern name, interface and version. -/
structure Record where
  externName : Text
  interface : Text
  version : Text

def record (a : Annotations) (r : Record) : Annotations :=
  if isInterfaceStyle r.externName = true ∨ r.interface = [] then a
  else
    match a.entries.lookup r.externName with
    | some existing =>
      if existing ≠ versioned r.interface r.version then
        { a with conflicting := a.conflicting ++ [r.externName] }
      else a
    | none =>
      { a with entries := a.entries ++ [(r.externName, versioned r.interface r.version)] }

def ImportMeta.record (i : ImportMeta) : Record := ⟨i.externName, i.interface, i.version⟩

def ExportMeta.record (e : ExportMeta) : Record := ⟨e.externName, e.interface, e.version⟩

/-- The slots of a component, imports first. -/
def Meta.records (m : Meta) : List Record :=
  m.imports.map ImportMeta.record ++ m.exports.map ExportMeta.record

/-- The annotations of the operands' plain-named slots, without those names that
carry different ones. -/
def slotAnnotations (operands : List Meta) : List (Text × Text) :=
  let all := (operands.flatMap Meta.records).foldl record ⟨[], []⟩
  all.entries.filter fun entry => entry.1 ∉ all.conflicting

end Eo9.Component
