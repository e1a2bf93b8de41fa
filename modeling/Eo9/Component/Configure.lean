import Eo9.Library.Extent
import Eo9.Component.WitTypes

/-!
# Compose-time constants

How `configure` (`configure.rs`) turns its arguments into the constants of the binder: core
values for the call and the arena that strings, lists and spilled parameters lie in, with the
places in it that hold pointers.
-/

namespace Eo9.Component

open Eo9.Library Eo9.Library.Canonical
open Eo9.Library.Wasm (ValType)

/-- `FlatConst` -/
inductive FlatConst where
  | i32 (n : BitVec 32)
  | i64 (n : BitVec 64)
  | f32 (bits : BitVec 32)
  | f64 (bits : BitVec 64)
  | arenaPtr (offset : ℕ)

/-- `LoweredArguments` -/
structure LoweredArguments where
  flats : List FlatConst
  arena : List UInt8
  relocs : List ℕ

def arenaLimit : ℕ := 64 * 1024 * 1024

inductive ConfigureError where
  | unknownArgument (name : Text)
  | missingArgument (name : Text)
  | invalidArgument (name message : Text)
  | unbakeableType (name kind : Text)
  | internal (message : Text)

namespace Value

variable {ε : Type}

def unwrapBool : Value → Outcome ε Bool
  | bool b => .ok b
  | _ => .panic "unwrap_bool"

def unwrapU8 : Value → Outcome ε (BitVec 8)
  | u8 n => .ok n
  | _ => .panic "unwrap_u8"

def unwrapU16 : Value → Outcome ε (BitVec 16)
  | u16 n => .ok n
  | _ => .panic "unwrap_u16"

def unwrapU32 : Value → Outcome ε (BitVec 32)
  | u32 n => .ok n
  | _ => .panic "unwrap_u32"

def unwrapU64 : Value → Outcome ε (BitVec 64)
  | u64 n => .ok n
  | _ => .panic "unwrap_u64"

def unwrapS8 : Value → Outcome ε (BitVec 8)
  | s8 n => .ok n
  | _ => .panic "unwrap_s8"

def unwrapS16 : Value → Outcome ε (BitVec 16)
  | s16 n => .ok n
  | _ => .panic "unwrap_s16"

def unwrapS32 : Value → Outcome ε (BitVec 32)
  | s32 n => .ok n
  | _ => .panic "unwrap_s32"

def unwrapS64 : Value → Outcome ε (BitVec 64)
  | s64 n => .ok n
  | _ => .panic "unwrap_s64"

/-- A NaN comes out as the canonical one. -/
def unwrapF32 : Value → Outcome ε (BitVec 32)
  | f32 bits => .ok (if Scalar.StrangeNaN32 bits.toNat then 0x7FC00000 else bits)
  | _ => .panic "unwrap_f32"

def unwrapF64 : Value → Outcome ε (BitVec 64)
  | f64 bits => .ok (if Scalar.StrangeNaN64 bits.toNat then 0x7FF8000000000000 else bits)
  | _ => .panic "unwrap_f64"

def unwrapChar : Value → Outcome ε Char
  | char c => .ok c
  | _ => .panic "unwrap_char"

def unwrapString : Value → Outcome ε Str
  | string s => .ok s
  | _ => .panic "unwrap_string"

def unwrapList : Value → Outcome ε (List Value)
  | list elements => .ok elements
  | _ => .panic "unwrap_list"

def unwrapRecord : Value → Outcome ε (List (Text × Value))
  | record fields => .ok fields
  | _ => .panic "unwrap_record"

def unwrapTuple : Value → Outcome ε (List Value)
  | tuple elements => .ok elements
  | _ => .panic "unwrap_tuple"

def unwrapEnum : Value → Outcome ε Text
  | enum case => .ok case
  | _ => .panic "unwrap_enum"

def unwrapOption : Value → Outcome ε (Option Value)
  | option value => .ok value
  | _ => .panic "unwrap_option"

end Value

/-- A cast to `u32`. -/
def asU32 (n : ℕ) : ℕ := n % 2 ^ 32

/-- The sum of two `u32`; an overflow is a panic. -/
def addU32 {ε : Type} (a b : ℕ) : Outcome ε ℕ :=
  if a + b < 2 ^ 32 then .ok (a + b) else .panic "u32 overflow"

def enumDiscriminant (cases : List Text) (value : Value) : Outcome Text ℕ := do
  let case ← value.unwrapEnum
  match cases.findIdx? (· = case) with
  | some index => .ok (asU32 index)
  | none => .fail (text "`" ++ case ++ text "` is not a case of the enum")

/-- The offsets of fields that are laid out from `s` on (`SizeAlign::field_offsets`). -/
def fieldOffsets (s : ℕ) : List Ty → List ℕ
  | [] => []
  | t :: ts => alignTo s t.alignment :: fieldOffsets (alignTo s t.alignment + t.size) ts

/-- `Lowerer`. The last two fields are a record for the reader, which nothing reads: the ranges
that `reserve` gave out, with their alignments, and the ranges that `write` wrote. -/
structure Lowerer where
  arena : List UInt8
  relocs : List ℕ
  regions : List (Extent × ℕ)
  writes : List Extent

namespace Lowerer

def reserve (l : Lowerer) (size align : ℕ) (what : Text) : Outcome Text (ℕ × Lowerer) :=
  let align := max align 1
  let padded := alignTo l.arena.length align
  let stop := padded + size
  if arenaLimit < stop then
    .fail (what ++ text " does not fit in the compose-time constant arena (" ++
      text (toString size) ++ text " bytes requested, " ++ text (toString arenaLimit) ++
      text " byte limit)")
  else
    .ok (asU32 padded,
      { l with
        arena := l.arena ++ List.replicate (stop - l.arena.length) 0
        regions := l.regions ++ [(⟨padded, size⟩, align)] })

/-- `Lowerer::write` -/
def write (l : Lowerer) (offset : ℕ) (bytes : List UInt8) : Outcome Text Lowerer :=
  if offset + bytes.length ≤ l.arena.length then
    .ok { l with
      arena := copyInto l.arena offset bytes
      writes := l.writes ++ [⟨offset, bytes.length⟩] }
  else .panic "write"

def writeRelPtr (l : Lowerer) (offset target : ℕ) : Outcome Text Lowerer := do
  let l ← l.write offset (leBytes 4 target)
  .ok { l with relocs := l.relocs ++ [offset] }

def appendString (l : Lowerer) (s : Str) : Outcome Text ((ℕ × ℕ) × Lowerer) := do
  let (offset, l) ← l.reserve s.bytes.length 1 (text "a string constant")
  let l ← l.write offset s.bytes
  .ok ((offset, asU32 s.bytes.length), l)

/-- Store the elements of a list from the `index`th on. -/
def storeElements (store : Value → ℕ → Lowerer → Outcome Text Lowerer) (base size : ℕ) :
    ℕ → List Value → Lowerer → Outcome Text Lowerer
  | _, [], l => .ok l
  | index, element :: elements, l => do
      let l ← store element (← addU32 base (asU32 (index * size))) l
      storeElements store base size (index + 1) elements l

/-- `Lowerer::append_list`, with `store` for the elements -/
def appendList (l : Lowerer) (store : Value → ℕ → Lowerer → Outcome Text Lowerer)
    (value : Value) (element : Ty) : Outcome Text ((ℕ × ℕ) × Lowerer) := do
  let elements ← value.unwrapList
  let (base, l) ← l.reserve (element.size * elements.length) element.alignment
    (text "a list constant")
  let l ← storeElements store base element.size 0 elements l
  .ok ((base, asU32 elements.length), l)

/-- `Lowerer::record_field` -/
def recordField (value : Value) (name : Text) : Outcome Text Value := do
  match (← value.unwrapRecord).find? (·.1 = name) with
  | some field => .ok field.2
  | none => .fail (text "record value is missing field `" ++ name ++ text "`")

/-- Values that cannot be baked. -/
def notBakeable (kind : Text) : Text :=
  text "values of this kind (" ++ kind ++ text ") are not bakeable"

/-- The address and the length of a string or a list that has been appended. -/
def storePair (l : Lowerer) (offset ptr len : ℕ) : Outcome Text Lowerer := do
  let l ← l.writeRelPtr offset ptr
  l.write (← addU32 offset 4) (leBytes 4 len)

mutual

def store : WitType → Value → ℕ → Lowerer → Outcome Text Lowerer
  | .bool, value, offset, l => do
      l.write offset (leBytes 1 (if ← value.unwrapBool then 1 else 0))
  | .u8, value, offset, l => do l.write offset (leBytes 1 (← value.unwrapU8).toNat)
  | .s8, value, offset, l => do l.write offset (leBytes 1 (← value.unwrapS8).toNat)
  | .u16, value, offset, l => do l.write offset (leBytes 2 (← value.unwrapU16).toNat)
  | .s16, value, offset, l => do l.write offset (leBytes 2 (← value.unwrapS16).toNat)
  | .u32, value, offset, l => do l.write offset (leBytes 4 (← value.unwrapU32).toNat)
  | .s32, value, offset, l => do l.write offset (leBytes 4 (← value.unwrapS32).toNat)
  | .u64, value, offset, l => do l.write offset (leBytes 8 (← value.unwrapU64).toNat)
  | .s64, value, offset, l => do l.write offset (leBytes 8 (← value.unwrapS64).toNat)
  | .f32, value, offset, l => do l.write offset (leBytes 4 (← value.unwrapF32).toNat)
  | .f64, value, offset, l => do l.write offset (leBytes 8 (← value.unwrapF64).toNat)
  | .char, value, offset, l => do l.write offset (leBytes 4 (← value.unwrapChar).toNat)
  | .string, value, offset, l => do
      let ((ptr, len), l) ← l.appendString (← value.unwrapString)
      l.storePair offset ptr len
  | .errorContext, _, _, _ => .fail (text "error-context values are not bakeable")
  | .enum cases, value, offset, l => do
      l.write offset (leBytes (discriminantWidth cases.length) (← enumDiscriminant cases value))
  | .list element, value, offset, l => do
      let ((ptr, len), l) ← l.appendList (store element) value element.despecialize
      l.storePair offset ptr len
  | .record fields, value, offset, l =>
    storeFields fields (fieldOffsets 0 (WitType.despecializeFields fields)) value offset l
  | .tuple types, value, offset, l => do
      let values ← value.unwrapTuple
      if values.length = types.length then
        storeItems types (fieldOffsets 0 (WitType.despecializeAll types)) values offset l
      else .fail (text "tuple value arity mismatch")
  | .option payload, value, offset, l => do
      match ← value.unwrapOption with
      | some inner =>
        let l ← l.write offset [1]
        store payload inner
          (← addU32 offset (Ty.payloadOffset [WitType.unit, payload.despecialize])) l
      | none => l.write offset [0]
  | .named inner, value, offset, l => store inner value offset l
  | other, _, _, _ => .fail (notBakeable other.kindName)

/-- The fields of a record, each at its offset. -/
def storeFields : List (Text × WitType) → List ℕ → Value → ℕ → Lowerer → Outcome Text Lowerer
  | (name, ty) :: fields, fieldOffset :: offsets, value, offset, l => do
      let field ← recordField value name
      let l ← store ty field (← addU32 offset fieldOffset) l
      storeFields fields offsets value offset l
  | _, _, _, _, l => .ok l

/-- The items of a tuple, each at its offset. -/
def storeItems : List WitType → List ℕ → List Value → ℕ → Lowerer → Outcome Text Lowerer
  | ty :: types, itemOffset :: offsets, item :: items, offset, l => do
      let l ← store ty item (← addU32 offset itemOffset) l
      storeItems types offsets items offset l
  | _, _, _, _, l => .ok l

end

def zeroFlat : ValType → FlatConst
  | .i32 => .i32 0
  | .i64 => .i64 0
  | .f32 => .f32 0
  | .f64 => .f64 0

/-- `Lowerer::push_zero_flats`; the flattened type is cut off behind 32 slots. -/
def pushZeroFlats (ty : WitType) (flats : List FlatConst) : List FlatConst :=
  flats ++ (ty.despecialize.flatten.take 32).map zeroFlat

mutual

/-- `Lowerer::lower_flat` -/
def lowerFlat : WitType → Value → List FlatConst → Lowerer →
    Outcome Text (List FlatConst × Lowerer)
  | .bool, value, flats, l => do
      .ok (flats ++ [.i32 (if ← value.unwrapBool then 1 else 0)], l)
  | .u8, value, flats, l => do .ok (flats ++ [.i32 ((← value.unwrapU8).setWidth 32)], l)
  | .u16, value, flats, l => do .ok (flats ++ [.i32 ((← value.unwrapU16).setWidth 32)], l)
  | .u32, value, flats, l => do .ok (flats ++ [.i32 (← value.unwrapU32)], l)
  | .s8, value, flats, l => do .ok (flats ++ [.i32 ((← value.unwrapS8).signExtend 32)], l)
  | .s16, value, flats, l => do .ok (flats ++ [.i32 ((← value.unwrapS16).signExtend 32)], l)
  | .s32, value, flats, l => do .ok (flats ++ [.i32 (← value.unwrapS32)], l)
  | .u64, value, flats, l => do .ok (flats ++ [.i64 (← value.unwrapU64)], l)
  | .s64, value, flats, l => do .ok (flats ++ [.i64 (← value.unwrapS64)], l)
  | .f32, value, flats, l => do .ok (flats ++ [.f32 (← value.unwrapF32)], l)
  | .f64, value, flats, l => do .ok (flats ++ [.f64 (← value.unwrapF64)], l)
  | .char, value, flats, l => do
      .ok (flats ++ [.i32 (BitVec.ofNat 32 (← value.unwrapChar).toNat)], l)
  | .string, value, flats, l => do
      let ((ptr, len), l) ← l.appendString (← value.unwrapString)
      .ok (flats ++ [.arenaPtr ptr, .i32 (BitVec.ofNat 32 len)], l)
  | .errorContext, _, _, _ => .fail (text "error-context values are not bakeable")
  | .enum cases, value, flats, l => do
      .ok (flats ++ [.i32 (BitVec.ofNat 32 (← enumDiscriminant cases value))], l)
  | .list element, value, flats, l => do
      let ((ptr, len), l) ← l.appendList (store element) value element.despecialize
      .ok (flats ++ [.arenaPtr ptr, .i32 (BitVec.ofNat 32 len)], l)
  | .record fields, value, flats, l => lowerFields fields value flats l
  | .tuple types, value, flats, l => do
      let values ← value.unwrapTuple
      if values.length = types.length then lowerItems types values flats l
      else .fail (text "tuple value arity mismatch")
  | .option payload, value, flats, l => do
      match ← value.unwrapOption with
      | some inner => lowerFlat payload inner (flats ++ [.i32 1]) l
      | none => .ok (pushZeroFlats payload (flats ++ [.i32 0]), l)
  | .named inner, value, flats, l => lowerFlat inner value flats l
  | other, _, _, _ => .fail (notBakeable other.kindName)

def lowerFields : List (Text × WitType) → Value → List FlatConst → Lowerer →
    Outcome Text (List FlatConst × Lowerer)
  | [], _, flats, l => .ok (flats, l)
  | (name, ty) :: fields, value, flats, l => do
      let field ← recordField value name
      let (flats, l) ← lowerFlat ty field flats l
      lowerFields fields value flats l

def lowerItems : List WitType → List Value → List FlatConst → Lowerer →
    Outcome Text (List FlatConst × Lowerer)
  | ty :: types, item :: items, flats, l => do
      let (flats, l) ← lowerFlat ty item flats l
      lowerItems types items flats l
  | _, _, flats, l => .ok (flats, l)

end

end Lowerer

/-- The `configure` function of a config interface. -/
structure Function where
  params : List (Text × WitType)
  result : Option WitType

/-- `wit_parser::abi::WasmSignature` of a function lowered as an import. -/
structure WasmSignature where
  params : List ValType
  results : List ValType
  indirectParams : Bool
  retptr : Bool

/-- `Resolve::wasm_signature(AbiVariant::GuestImport, ..)` -/
def Function.wasmSignature (function : Function) : WasmSignature :=
  let flat := Ty.flattenAll (WitType.despecializeFields function.params)
  let results := (function.result.map fun ty => ty.despecialize.flatten).getD []
  let indirectParams : Bool := 16 < flat.length
  let retptr : Bool := 1 < results.length
  { params := (if indirectParams then [.i32] else flat) ++ (if retptr then [.i32] else [])
    results := if retptr then [] else results
    indirectParams
    retptr }

/-- WAVE text: `from_str` for a type that has a WAVE type, with the message for a text that does
not parse. -/
abbrev FromStr := WitType → Option (Text → Except Text Value)

def parseArgument (fromStr : FromStr) (name : Text) (ty : WitType) (arg : Text) :
    Except ConfigureError Value :=
  match ty.resolveAlias.ensureBakeable with
  | .error kind => .error (.unbakeableType name kind)
  | .ok () =>
    match fromStr ty.resolveAlias with
    | none => .error (.internal (text "parameter `" ++ name ++
        text "`: failed to derive a WAVE type for compose-time baking"))
    | some parse =>
      match parse arg with
      | .ok value => .ok value
      | .error message => .error (.invalidArgument name message)

/-- The value of one parameter, from the arguments supplied under its name. -/
def parseParam (fromStr : FromStr) (args : List (Text × Text)) (param : Text × WitType) :
    Except ConfigureError Value :=
  match (args.filter (·.1 = param.1)).map (·.2) with
  | [] => .error (.missingArgument param.1)
  | [arg] => parseArgument fromStr param.1 param.2 arg
  | _ => .error (.invalidArgument param.1 (text "supplied more than once"))

/-- Check the names of the arguments and parse them, in the order of the parameters. -/
def parseArguments (fromStr : FromStr) (function : Function) (args : List (Text × Text)) :
    Except ConfigureError (List Value) :=
  match args.find? fun arg => function.params.all (·.1 ≠ arg.1) with
  | some arg => .error (.unknownArgument arg.1)
  | none => function.params.mapM (parseParam fromStr args)

/-- An error of the lowerer, as an error of the argument. -/
def invalid {α : Type} (name : Text) : Outcome Text α → Outcome ConfigureError α :=
  Outcome.mapErr fun message => .fail (.invalidArgument name message)

/-- Store the parameters in the spilled record at `base`. -/
def spillParams : List (Text × WitType) → List Value → List ℕ → ℕ → Lowerer →
    Outcome ConfigureError Lowerer
  | param :: params, value :: values, offset :: offsets, base, l => do
      let l ← invalid param.1 (do Lowerer.store param.2 value (← addU32 base offset) l)
      spillParams params values offsets base l
  | _, _, _, _, l => .ok l

/-- Lower the parameters one after the other. -/
def lowerParams : List (Text × WitType) → List Value → List FlatConst → Lowerer →
    Outcome ConfigureError (List FlatConst × Lowerer)
  | param :: params, value :: values, flats, l => do
      let (flats, l) ← invalid param.1 (Lowerer.lowerFlat param.2 value flats l)
      lowerParams params values flats l
  | _, _, flats, l => .ok (flats, l)

/-- The message when the constants do not line up with the core parameters. -/
def misalignedFlats (flats expected : ℕ) : Text :=
  text "lowered " ++ text (toString flats) ++
    text " flat constants for `configure` but its core signature takes " ++
    text (toString expected) ++ text "; this is a bug in compose-time configuration"

/-- `bind_arguments`, behind the parsing of the values -/
def lowerArguments (function : Function) (values : List Value) :
    Outcome ConfigureError LoweredArguments :=
  let sig := function.wasmSignature
  let types := WitType.despecializeFields function.params
  let l : Lowerer := ⟨[], [], [], []⟩
  if sig.indirectParams then do
    let (base, l) ← Outcome.mapErr (fun message => .fail (.internal message))
      (l.reserve (Ty.size (.record types)) (Ty.alignment (.record types))
        (text "the spilled parameter record"))
    let l ← spillParams function.params values (fieldOffsets 0 types) base l
    .ok ⟨[.arenaPtr base], l.arena, l.relocs⟩
  else do
    let (flats, l) ← lowerParams function.params values [] l
    let expected := sig.params.length - (if sig.retptr then 1 else 0)
    if flats.length = expected then .ok ⟨flats, l.arena, l.relocs⟩
    else .fail (.internal (misalignedFlats flats.length expected))

def bindArguments (fromStr : FromStr) (function : Function) (args : List (Text × Text)) :
    Outcome ConfigureError LoweredArguments :=
  match parseArguments fromStr function args with
  | .error e => .fail e
  | .ok values => lowerArguments function values

structure BinderPlan where
  configSig : WasmSignature
  constants : LoweredArguments
  scratchSize : ℕ

/-- The plan that `configure` makes. -/
def binderPlan (function : Function) (constants : LoweredArguments) : BinderPlan where
  configSig := function.wasmSignature
  constants
  scratchSize :=
    let size := match function.result with
      | some ty => asU32 ty.despecialize.size
      | none => 0
    max (alignTo size 8) 16

structure Layout where
  scratch : ℕ
  arenaBase : ℕ
  arena : List UInt8
  heapBase : ℕ

/-- Turn the pointer at `reloc` into an address. -/
def relocate (arenaBase : ℕ) (arena : List UInt8) (reloc : ℕ) : List UInt8 :=
  copyInto arena reloc (leBytes 4 (arenaBase + leValue (sub arena reloc 4)))

def layout (plan : BinderPlan) : Layout :=
  let scratch := 16
  let arenaBase := scratch + plan.scratchSize
  let arena := plan.constants.relocs.foldl (relocate arenaBase) plan.constants.arena
  { scratch, arenaBase, arena, heapBase := alignTo (arenaBase + asU32 arena.length) 16 }

end Eo9.Component
