import Eo9.Eosh.Ast
import Eo9.Library.Action

/-!
# The evaluator

The evaluator of `eval.rs` over an arbitrary backend, with the encoding of argument
values from `wave.rs` and the session's bytes cache from `cache.rs`. Flags and
positional arguments are matched against the signature that the backend reports.

The recursion of the source is a parameter of one evaluation step; `eval` ties it
with a bound on the depth.
-/

namespace Eo9.Eosh

open Eo9.Library

/-- Which of the two module kinds a component is. -/
inductive ComponentKind where
  | binary | provider
  deriving DecidableEq

structure ImportNeed where
  slot : Str
  interface : Str
  version : Str
  required : Bool

structure ExportSlot where
  name : Str
  interface : Str
  version : Str

/-- One named, typed argument of `main` or `configure`; `ty` is WIT type text. -/
structure ArgSpec where
  name : Str
  ty : Str

/-- The arguments that a component declares. They are the parameters of a WIT function,
which have different names. -/
structure Signature where
  specs : List ArgSpec
  distinct : (specs.map (·.name)).Nodup

structure ComponentInfo where
  kind : ComponentKind
  imports : List ImportNeed
  exports : List ExportSlot
  args : Signature

structure InterfaceRef where
  interface : Str
  version : Option Str

/-- One WAVE-encoded argument. -/
structure NamedArg where
  name : Str
  value : Str

/-- One component-typed argument of `main`. -/
structure ComponentArg (C : Type) where
  name : Str
  value : C

structure BackendError where
  message : Str

/-- What the evaluator needs of the trait `Backend`: operations over the state of the
backend, on components of the type `C`. -/
structure Backend (σ C : Type) where
  resolveWithBytes : Str → σ → Except BackendError (C × Option Str) × σ
  load : Str → σ → Except BackendError C × σ
  duplicate : C → σ → Except BackendError C × σ
  describe : C → σ → ComponentInfo × σ
  compose (provider consumer : C) : σ → Except BackendError C × σ
  extend (base layer : C) : σ → Except BackendError C × σ
  restrict : C → List InterfaceRef → σ → Except BackendError C × σ
  rename (component : C) (source target : Str) : σ → Except BackendError C × σ
  configure : C → List NamedArg → σ → Except BackendError C × σ

/-- An evaluation error. -/
inductive EvalError where
  | backend (err : BackendError)
  | unknownFlag (name : Str)
  | duplicateArgument (name : Str)
  | tooManyPositional
  | missingArgument (name ty : Str)
  | expressionForDataParameter (name ty : Str)
  | componentArgumentText (name : Str)
  | componentArgumentWithArgs (name : Str)
  | componentArgumentForConfigure (name : Str)
  | argumentsNotAllowed (context : Str)
  | extendOperandNotAProvider (side : Str) (operand suggestion : Option Str)
  | namedWorldUnsupported (name : Str)
  | withProviderExports (slot : Str) (exports : ℕ)
  | topLevelProvider
  | unknownName (name : Str)

/-- Whether a type takes a program expression. -/
def isComponentType (ty : Str) : Bool :=
  let ty := trim ty
  let opened := (stripPrefix (ascii "borrow<") ty).or (stripPrefix (ascii "own<") ty)
  let inner := (opened.bind (stripSuffix (ascii ">"))).getD ty
  inner == ascii "component" || (ascii "/component").isSuffixOf inner ||
    (ascii ".component").isSuffixOf inner

/-- The inner type of an `option<…>` type. -/
def optionInner (ty : Str) : Option Str :=
  ((stripPrefix (ascii "option<") (trim ty)).bind (stripSuffix (ascii ">"))).map trim

/-- Whether a type is the `list<string>` of a variadic tail. -/
def isStringList (ty : Str) : Bool :=
  match (stripPrefix (ascii "list<") (trim ty)).bind (stripSuffix (ascii ">")) with
  | some inner => trim inner == ascii "string"
  | none => false

/-- A byte of a WAVE string literal. -/
def quoteByte (b : UInt8) : Str :=
  if b = ch '\"' then ascii "\\\""
  else if b = ch '\\' then ascii "\\\\"
  else if b = ch '\n' then ascii "\\n"
  else if b = ch '\t' then ascii "\\t"
  else if b = ch '\r' then ascii "\\r"
  else [b]

def quoteString (text : Str) : Str := ch '\"' :: (text.flatMap quoteByte ++ [ch '\"'])

/-- The WAVE text of a `list<string>` value. -/
def stringList (elements : List Str) : Str :=
  ch '[' :: ((ascii ", ").intercalate (elements.map quoteString) ++ [ch ']'])

def noneValue : Str := ascii "none"

/-- Whether a text starts with `[` behind white space. -/
def startsList (text : Str) : Bool :=
  let strip := fun s => whiteSpace.findSome? fun w => stripPrefix w s
  (stripMany strip text.length text).head? == some (ch '[')

/-- Encode a token for a parameter. Every level takes an `option<…>` off the type, so
the length of the type is enough of them. -/
def encodeTextIn : ℕ → Str → Str → Bool → Str
  | 0, _, text, _ => text
  | fuel + 1, ty, text, bare =>
    match optionInner ty with
    | some inner =>
      if bare && text == ascii "none" then ascii "none"
      else ascii "some(" ++ encodeTextIn fuel inner text bare ++ ascii ")"
    | none =>
      if trim ty = ascii "string" then quoteString text
      else if isStringList (trim ty) && !startsList text then
        ascii "[" ++ quoteString text ++ ascii "]"
      else text

def encodeText (ty text : Str) (bare : Bool) : Str := encodeTextIn (ty.length + 1) ty text bare

/-- Encode a value for a data-typed parameter. -/
def encodeArgValue (ty : Str) : ArgValue → Option Str
  | .word text => some (encodeText ty text true)
  | .quoted text => some (encodeText ty text false)
  | .expr _ => none

/-- The matches: data arguments, and component-typed ones still to be evaluated. -/
structure CollectedArgs where
  named : List NamedArg
  components : List (Str × ArgValue)

namespace CollectedArgs

/-- Whether the parameter has an argument. -/
def filled (matched : CollectedArgs) (name : Str) : Bool :=
  matched.named.any (·.name == name) || matched.components.any (·.1 == name)

/-- Match one component-typed parameter. -/
def pushComponent (matched : CollectedArgs) (spec : ArgSpec) (value : ArgValue) :
    Outcome EvalError CollectedArgs :=
  if matched.filled spec.name then .fail (.duplicateArgument spec.name)
  else .ok { matched with components := matched.components ++ [(spec.name, value)] }

/-- Fill one data-typed parameter. -/
def pushArg (matched : CollectedArgs) (spec : ArgSpec) (value : ArgValue) :
    Outcome EvalError CollectedArgs :=
  if matched.filled spec.name then .fail (.duplicateArgument spec.name)
  else
    match encodeArgValue spec.ty value with
    | none => .fail (.expressionForDataParameter spec.name spec.ty)
    | some encoded => .ok { matched with named := matched.named ++ [⟨spec.name, encoded⟩] }

/-- Match a parameter by what its type takes. -/
def push (matched : CollectedArgs) (spec : ArgSpec) (value : ArgValue) :
    Outcome EvalError CollectedArgs :=
  if isComponentType spec.ty then matched.pushComponent spec value
  else matched.pushArg spec value

end CollectedArgs

/-- The final parameter, when it takes the positional values left over. -/
def variadic (specs : List ArgSpec) : Option Str :=
  (specs.getLast?.filter fun spec => isStringList spec.ty).map (·.name)

/-- Match one argument; the tail holds the values left over. -/
def collectArg (specs : List ArgSpec) (acc : CollectedArgs × List Str) :
    Arg → Outcome EvalError (CollectedArgs × List Str)
  | .flag name value =>
    match specs.find? (·.name == name) with
    | none => .fail (.unknownFlag name)
    | some spec => return (← acc.1.push spec value, acc.2)
  | .positional value =>
    let spec := specs.find? fun spec =>
      some spec.name != variadic specs && !acc.1.filled spec.name
    match spec, variadic specs with
    | some spec, _ => return (← acc.1.push spec value, acc.2)
    | none, some name =>
      match value with
      | .word text => .ok (acc.1, acc.2 ++ [text])
      | .quoted text => .ok (acc.1, acc.2 ++ [text])
      | .expr _ => .fail (.expressionForDataParameter name (ascii "list<string>"))
    | none, none => .fail .tooManyPositional

/-- Give the variadic parameter what is left over. -/
def collectTail (specs : List ArgSpec) (matched : CollectedArgs) (tail : List Str) :
    Outcome EvalError CollectedArgs :=
  match variadic specs with
  | none => .ok matched
  | some name =>
    if tail.isEmpty then .ok matched
    else if matched.named.any (·.name == name) then .fail (.duplicateArgument name)
    else .ok { matched with named := matched.named ++ [⟨name, stringList tail⟩] }

/-- Match flags and positional arguments against a signature; `initial` are the
arguments bound by an inner application. -/
def collectNamedArgs (initial : List NamedArg) (specs : List ArgSpec) (args : List Arg) :
    Outcome EvalError CollectedArgs := do
  let acc ← args.foldlM (collectArg specs) (⟨initial, []⟩, [])
  collectTail specs acc.1 acc.2

/-- Fill the parameters that may be omitted; the others are missing. -/
def completeArgs (filledComponents : List Str) :
    List ArgSpec → List NamedArg → Outcome EvalError (List NamedArg)
  | [], args => .ok args
  | spec :: rest, args =>
    if args.any (·.name == spec.name) || filledComponents.contains spec.name then
      completeArgs filledComponents rest args
    else if isComponentType spec.ty then .fail (.missingArgument spec.name spec.ty)
    else if (optionInner spec.ty).isSome then
      completeArgs filledComponents rest (args ++ [⟨spec.name, noneValue⟩])
    else if rest.isEmpty && isStringList spec.ty then
      completeArgs filledComponents rest (args ++ [⟨spec.name, stringList []⟩])
    else .fail (.missingArgument spec.name spec.ty)

/-- The operand's name, with or without arguments. -/
def operandName : Expr → Option Str
  | .name name => some name
  | .app callee _ => operandName callee
  | _ => none

/-- How a value is written again. -/
def valueSpelling : ArgValue → Option Str
  | .word text => some text
  | .quoted text => some (ch '\"' :: (text ++ [ch '\"']))
  | .expr _ => none

/-- The arguments, each with a space before it. -/
def argsSpelling : List Arg → Option Str
  | [] => some []
  | .flag name value :: rest => do
      let text ← valueSpelling value
      let rest ← argsSpelling rest
      return ascii " --" ++ name ++ ascii " " ++ text ++ rest
  | .positional value :: rest => do
      let text ← valueSpelling value
      let rest ← argsSpelling rest
      return ascii " " ++ text ++ rest

/-- How an operand is written again. -/
def exprSpelling : Expr → Option Str
  | .name name => some name
  | .app (.name name) args => (argsSpelling args).map (name ++ ·)
  | _ => none

/-- The refusal of an operand of `&`. -/
def extendRefusal (base layer : Expr) (baseIsProvider layerIsProvider : Bool) : EvalError :=
  let (side, offender, provider) :=
    match baseIsProvider, layerIsProvider with
    | true, false => (ascii "right", layer, some base)
    | false, true => (ascii "left", base, some layer)
    | _, _ => (ascii "neither", base, none)
  let operand := if side = ascii "neither" then none else operandName offender
  let suggestion := do
    let provider ← exprSpelling (← provider)
    let program ← exprSpelling offender
    return provider ++ ascii " $ " ++ program
  .extendOperandNotAProvider side operand suggestion

/-- The bytes of programs by name, the most recently used last. -/
structure BytesCache where
  entries : List (Str × Str)
  total : ℕ
  disabled : Bool

namespace BytesCache

def maxEntries : ℕ := 16

def maxTotal : ℕ := 4 * 1024 * 1024

/-- The bytes of a name, which become the most recently used. -/
def get (cache : BytesCache) (name : Str) : Option (Str × BytesCache) :=
  if cache.disabled then none
  else (cache.entries.find? (·.1 == name)).map fun entry =>
    (entry.2, { cache with entries := cache.entries.eraseP (·.1 == name) ++ [entry] })

def remove (cache : BytesCache) (name : Str) : BytesCache :=
  match cache.entries.find? (·.1 == name) with
  | none => cache
  | some entry =>
    { cache with
      entries := cache.entries.eraseP (·.1 == name)
      total := cache.total - entry.2.length }

/-- Evict from the front until the bounds are met. -/
def evict : List (Str × Str) → ℕ → List (Str × Str) × ℕ
  | [], total => ([], total)
  | entry :: rest, total =>
    if maxEntries < rest.length + 1 ∨ maxTotal < total then evict rest (total - entry.2.length)
    else (entry :: rest, total)

def insert (cache : BytesCache) (name bytes : Str) : BytesCache :=
  if cache.disabled ∨ maxTotal < bytes.length then cache
  else
    let cache := cache.remove name
    let (entries, total) := evict (cache.entries ++ [(name, bytes)]) (cache.total + bytes.length)
    { cache with entries, total }

end BytesCache

/-- The result of an expression: a component, with the arguments of `main` that were
applied along the way. -/
structure EvalOutput (C : Type) where
  component : C
  args : List NamedArg
  components : List (ComponentArg C)

/-- The backend's state, and the session's bytes cache when there is one. -/
structure EvalState (σ : Type) where
  backend : σ
  cache : Option BytesCache

/-- A backend and the `let` bindings of the session. -/
structure Evaluator (σ C : Type) where
  backend : Backend σ C
  bindings : Str → Option C

def parseAllowEntry (entry : Str) : Outcome EvalError InterfaceRef :=
  if !entry.contains (ch ':') then .fail (.namedWorldUnsupported entry)
  else
    match entry.span (· != ch '@') with
    | (interface, []) => .ok ⟨interface, none⟩
    | (interface, _ :: version) => .ok ⟨interface, some version⟩

namespace Evaluator

variable {σ C : Type}

/-- An evaluation. -/
abbrev Eval (σ α : Type) := Action (EvalState σ) EvalError α

def call {α : Type} (op : σ → Except BackendError α × σ) : Eval σ α := fun s =>
  match op s.backend with
  | (.ok a, backend) => (.ok a, { s with backend })
  | (.error err, backend) => (.error (.err (.backend err)), { s with backend })

variable (ev : Evaluator σ C)

def describe (component : C) : Eval σ ComponentInfo :=
  Action.update fun s =>
    let (info, backend) := ev.backend.describe component s.backend
    (info, { s with backend })

/-- A `let` binding, or a program of the session's cache or of the backend. -/
def lookup (name : Str) : Eval σ C := do
  match ev.bindings name with
  | some bound => call (ev.backend.duplicate bound)
  | none =>
    let cached ← Action.update fun s =>
      match s.cache.bind (·.get name) with
      | some (bytes, cache) => (some bytes, { s with cache := some cache })
      | none => (none, s)
    match cached with
    | some bytes => call (ev.backend.load bytes)
    | none =>
      let (component, bytes) ← call (ev.backend.resolveWithBytes name)
      match bytes with
      | some bytes =>
        Action.modify fun s => { s with cache := s.cache.map (·.insert name bytes) }
        return component
      | none => return component

/- The recursive call. -/
variable (recur : Expr → Eval σ (EvalOutput C))

/-- Evaluate and require that no arguments were applied. -/
def evalPlain (expr : Expr) (context : String) : Eval σ C := do
  let out ← recur expr
  if out.args.isEmpty && out.components.isEmpty then return out.component
  else Action.fail (.argumentsNotAllowed (ascii context))

/-- One binding of a `with` gate: the provider's only export becomes the slot. -/
def evalWithProvider : WithBinding → Eval σ C
  | .mk provider slot => do
      let provider ← evalPlain recur provider "a `with` provider"
      let info ← ev.describe provider
      match info.exports with
      | [exported] =>
        if exported.name = slot then return provider
        else call (ev.backend.rename provider exported.name slot)
      | exports => Action.fail (.withProviderExports slot exports.length)

/-- The program expression that a value is for a component-typed parameter. -/
def componentExpr (name : Str) : ArgValue → Outcome EvalError Expr
  | .word text => .ok (.name text)
  | .quoted _ => .fail (.componentArgumentText name)
  | .expr expr => .ok expr

/-- Evaluate one component-typed argument, which may have no arguments of its own. -/
def evalComponent (components : List (ComponentArg C)) (entry : Str × ArgValue) :
    Eval σ (List (ComponentArg C)) := do
  let expr ← componentExpr entry.1 entry.2
  let out ← recur expr
  if !out.args.isEmpty || !out.components.isEmpty then
    Action.fail (.componentArgumentWithArgs entry.1)
  else return components ++ [⟨entry.1, out.component⟩]

/-- Argument application by the signature of the callee: of a binary the arguments are
carried along, of a provider they are configured now. -/
def evalApp (callee : Expr) (args : List Arg) : Eval σ (EvalOutput C) := do
  let calleeOut ← recur callee
  let info ← ev.describe calleeOut.component
  match info.kind with
  | .provider =>
    match info.args.specs.find? fun spec => isComponentType spec.ty with
    | some spec => Action.fail (.componentArgumentForConfigure spec.name)
    | none =>
      let collected ← collectNamedArgs calleeOut.args info.args.specs args
      let named ← completeArgs [] info.args.specs collected.named
      let configured ← call (ev.backend.configure calleeOut.component named)
      return ⟨configured, [], []⟩
  | .binary =>
    let collected ← collectNamedArgs calleeOut.args info.args.specs args
    let components ← collected.components.foldlM (evalComponent recur) calleeOut.components
    return ⟨calleeOut.component, collected.named, components⟩

/-- `base & layer`. -/
def evalExtend (base layer : Expr) : Eval σ (EvalOutput C) := do
  let baseOut ← recur base
  let layerOut ← recur layer
  let baseInfo ← ev.describe baseOut.component
  let layerInfo ← ev.describe layerOut.component
  let baseIsProvider := decide (baseInfo.kind = .provider)
  let layerIsProvider := decide (layerInfo.kind = .provider)
  if !baseIsProvider || !layerIsProvider then
    Action.fail (extendRefusal base layer baseIsProvider layerIsProvider)
  else if !baseOut.args.isEmpty || !layerOut.args.isEmpty || !baseOut.components.isEmpty ||
      !layerOut.components.isEmpty then
    Action.fail (.argumentsNotAllowed (ascii "an `&` operand"))
  else
    let component ← call (ev.backend.extend baseOut.component layerOut.component)
    return ⟨component, [], []⟩

/-- Evaluate an expression, with the recursive calls as given. -/
def evalStep : Expr → Eval σ (EvalOutput C)
  | .name name => do
      let component ← ev.lookup name
      return ⟨component, [], []⟩
  | .app callee args => ev.evalApp recur callee args
  | .compose provider consumer => do
      let provider ← evalPlain recur provider "the provider side of `$`"
      let consumer ← recur consumer
      let component ← call (ev.backend.compose provider consumer.component)
      return { consumer with component }
  | .extend base layer => ev.evalExtend recur base layer
  | .only allow body => do
      let refs ← (allow.mapM parseAllowEntry : Outcome EvalError (List InterfaceRef))
      let body ← recur body
      let component ← call (ev.backend.restrict body.component refs)
      return { body with component }
  | .rename source target body => do
      let body ← recur body
      let component ← call (ev.backend.rename body.component source target)
      return { body with component }
  | .with bindings body => do
      let body ← recur body
      let component ← bindings.reverse.foldlM (fun component binding => do
        let provider ← ev.evalWithProvider recur binding
        call (ev.backend.compose provider component)) body.component
      return { body with component }

/-- Evaluate an expression, to the given depth. -/
def eval : ℕ → Expr → Eval σ (EvalOutput C)
  | 0, _ => Action.ofOutcome (.error .diverge)
  | depth + 1, expr => ev.evalStep (eval depth) expr

end Evaluator

end Eo9.Eosh
