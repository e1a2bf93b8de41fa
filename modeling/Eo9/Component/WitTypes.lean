import Eo9.Library.Canonical
import Eo9.Component.World

/-!
# WIT types and WAVE values

The types a `configure` function may have, as a tree, and the values its arguments are parsed
to. `despecialize` is the canonical form of a type: sizes, alignments, field offsets and
flattened types of `wit-parser` are those of this form.
-/

namespace Eo9.Component

open Eo9.Library Eo9.Library.Canonical

/-- `wit_parser::Type`. The names of variant cases and the payloads of streams and futures are
left out: nothing here reads them. `named` is a type alias. -/
inductive WitType where
  | bool
  | u8
  | u16
  | u32
  | u64
  | s8
  | s16
  | s32
  | s64
  | f32
  | f64
  | char
  | string
  | errorContext
  | record (fields : List (Text × WitType))
  | tuple (types : List WitType)
  | enum (cases : List Text)
  | option (payload : WitType)
  | list (element : WitType)
  | variant (cases : List (Option WitType))
  | result (ok err : Option WitType)
  | flags (count : ℕ)
  | handle
  | future
  | stream
  | map (key value : WitType)
  | fixedLengthList (element : WitType) (size : ℕ)
  | named (inner : WitType)

namespace WitType

def resolveAlias : WitType → WitType
  | named inner => inner.resolveAlias
  | ty => ty

def kindName : WitType → Text
  | variant _ => text "variant"
  | result _ _ => text "result"
  | flags _ => text "flags"
  | handle => text "resource handle"
  | future => text "future"
  | stream => text "stream"
  | map _ _ => text "map"
  | fixedLengthList _ _ => text "fixed-length list"
  | _ => text "unsupported type"

mutual

/-- `ensure_bakeable`: the kind that cannot be baked, if there is one. -/
def ensureBakeable : WitType → Except Text Unit
  | errorContext => .error (text "error-context")
  | list element => element.ensureBakeable
  | option payload => payload.ensureBakeable
  | record fields => ensureFieldsBakeable fields
  | tuple types => ensureAllBakeable types
  | named inner => inner.ensureBakeable
  | ty@(variant _) | ty@(result _ _) | ty@(flags _) | ty@handle | ty@future | ty@stream
  | ty@(map _ _) | ty@(fixedLengthList _ _) => .error ty.kindName
  | _ => .ok ()

def ensureFieldsBakeable : List (Text × WitType) → Except Text Unit
  | [] => .ok ()
  | (_, ty) :: fields =>
    match ty.ensureBakeable with
    | .ok () => ensureFieldsBakeable fields
    | .error what => .error what

def ensureAllBakeable : List WitType → Except Text Unit
  | [] => .ok ()
  | ty :: types =>
    match ty.ensureBakeable with
    | .ok () => ensureAllBakeable types
    | .error what => .error what

end

/-- The payload of a case without one. -/
abbrev unit : Ty := .record []

mutual

/-- The canonical form of a type. -/
def despecialize : WitType → Ty
  | bool => .scalar .bool
  | u8 => .scalar .u8
  | u16 => .scalar .u16
  | u32 => .scalar .u32
  | u64 => .scalar .u64
  | s8 => .scalar .s8
  | s16 => .scalar .s16
  | s32 => .scalar .s32
  | s64 => .scalar .s64
  | f32 => .scalar .f32
  | f64 => .scalar .f64
  | char => .scalar .char
  | string => .string
  | errorContext | handle | future | stream => .scalar .handle
  | record fields => .record (despecializeFields fields)
  | tuple types => .record (despecializeAll types)
  | enum cases => .variant (cases.map fun _ => unit)
  | option payload => .variant [unit, payload.despecialize]
  | list element => .list element.despecialize
  | variant cases => .variant (despecializeCases cases)
  | result ok err => .variant [despecializePayload ok, despecializePayload err]
  | flags count => .scalar (.flags count)
  | map key value => .list (.record [key.despecialize, value.despecialize])
  | fixedLengthList element size => .record (List.replicate size element.despecialize)
  | named inner => inner.despecialize

def despecializeFields : List (Text × WitType) → List Ty
  | [] => []
  | (_, ty) :: fields => ty.despecialize :: despecializeFields fields

def despecializeAll : List WitType → List Ty
  | [] => []
  | ty :: types => ty.despecialize :: despecializeAll types

def despecializePayload : Option WitType → Ty
  | none => unit
  | some ty => ty.despecialize

def despecializeCases : List (Option WitType) → List Ty
  | [] => []
  | none :: cases => unit :: despecializeCases cases
  | some ty :: cases => ty.despecialize :: despecializeCases cases

end

/-- An alias has the layout of what it stands for. -/
@[simp] theorem despecialize_resolveAlias (ty : WitType) :
    ty.resolveAlias.despecialize = ty.despecialize := by
  induction ty using resolveAlias.induct with
  | case1 inner ih => simpa only [resolveAlias, despecialize] using ih
  | case2 ty h => rw [resolveAlias.eq_2 ty h]

end WitType

/-- Text as its UTF-8 bytes. -/
structure Str where
  bytes : List UInt8
  valid : Utf8.Valid bytes

/-- `wasm_wave::value::Value`, for types that can be baked. A float is its bits. -/
inductive Value where
  | bool (b : Bool)
  | u8 (n : BitVec 8)
  | u16 (n : BitVec 16)
  | u32 (n : BitVec 32)
  | u64 (n : BitVec 64)
  | s8 (n : BitVec 8)
  | s16 (n : BitVec 16)
  | s32 (n : BitVec 32)
  | s64 (n : BitVec 64)
  | f32 (bits : BitVec 32)
  | f64 (bits : BitVec 64)
  | char (c : Char)
  | string (s : Str)
  | list (elements : List Value)
  | record (fields : List (Text × Value))
  | tuple (elements : List Value)
  | enum (case : Text)
  | option (value : Option Value)

end Eo9.Component
