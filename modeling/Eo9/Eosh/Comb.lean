import Eo9.Eosh.Leaves

/-!
# Parser combinators

The combinators of `comb.rs`. A parser is a state: `step` gives what it does
with one input, `admissible` says which inputs it would take, `completions` the
words it offers. Recursion goes through `lazy`, a reference to a production that
is built when it is used. A production meets no reference before it has taken an
input (`Guarded`), so one level of building is enough for a step.
-/

namespace Eo9.Eosh

mutual

/-- A parser with values in `α` and references to the productions `Nt`. -/
inductive Parser (Nt : Type → Type) : Type → Type 1 where
  | pure {α : Type} (value : α) : Parser Nt α
  | map {α β : Type} (parser : Parser Nt α) (f : α → β) : Parser Nt β
  | bind {α β : Type} (p1 : Parser Nt α) (f : α → Parser Nt β) : Parser Nt β
  | bound {β : Type} (p2 : Parser Nt β) : Parser Nt β
  | oneOf {α : Type} (branches : Branches Nt α) : Parser Nt α
  | lazy {α : Type} (n : Nt α) : Parser Nt α
  | leaf {α : Type} (l : Leaf α) : Parser Nt α

/-- The branches of an alternation, in order. -/
inductive Branches (Nt : Type → Type) : Type → Type 1 where
  | nil {α : Type} : Branches Nt α
  | cons {α : Type} (p : Parser Nt α) (rest : Branches Nt α) : Branches Nt α

end

variable {Nt : Type → Type} {α β : Type}

namespace Branches

def toList : Branches Nt α → List (Parser Nt α)
  | nil => []
  | cons p rest => p :: rest.toList

def ofList : List (Parser Nt α) → Branches Nt α
  | [] => nil
  | p :: rest => cons p (ofList rest)

@[simp] theorem toList_ofList (ps : List (Parser Nt α)) : (ofList ps).toList = ps := by
  induction ps with
  | nil => rfl
  | cons p ps ih => simp [ofList, toList, ih]

@[simp] theorem ofList_toList : ∀ bs : Branches Nt α, ofList bs.toList = bs
  | nil => rfl
  | cons p rest => by simp [ofList, toList, ofList_toList rest]

end Branches

/-- The result of stepping one input. -/
inductive Step (Nt : Type → Type) (α : Type) : Type 1 where
  | done (value : α) (rejected : Input)
  | continue (p : Parser Nt α)
  | both (value : α) (rejected : Input) (cont : Parser Nt α)

namespace Step

/-- The finished value, if this step finished. -/
def value : Step Nt α → Option α
  | done v _ => some v
  | .continue _ => none
  | both v _ _ => some v

/-- The finished value and the input it hands back. -/
def finished : Step Nt α → Option (α × Input)
  | done v rejected => some (v, rejected)
  | .continue _ => none
  | both v rejected _ => some (v, rejected)

/-- The continuing parser, if parsing can continue. -/
def cont : Step Nt α → Option (Parser Nt α)
  | done _ _ => none
  | .continue p => some p
  | both _ _ p => some p

end Step

/-- An inconsistency that `admissible` stops at. -/
inductive Panic where
  | nonEof | continued | lied | emptyAlt

namespace Parser

/-- Alternation; an alternation of one branch is that branch. -/
def alt (ps : List (Parser Nt α)) : Parser Nt α :=
  match ps with
  | [p] => p
  | ps => oneOf (.ofList ps)

/-- Sequence, keeping the left value. -/
def keepLeft (first : Parser Nt α) (second : Parser Nt Unit) : Parser Nt α :=
  bind first fun value => map second fun _ => value

/-- Sequence, keeping the right value. -/
def keepRight (first : Parser Nt Unit) (second : Parser Nt α) : Parser Nt α :=
  bind first fun _ => second

def fail : Parser Nt α := leaf .fail

def lit (bytes : List Ascii) : Parser Nt Unit := leaf (.lit bytes)

def kw (word : List Ascii) (tag : Tag) : Parser Nt Unit := leaf (.kw word 0 tag)

def overlayWords (vocab : List HintEntry) : Parser Nt α := leaf (.overlay (wordEntries vocab) 0)

def capBareWord (excluded : List Str) : Parser Nt Str :=
  leaf (.capWord (.start excluded true) [])

def capFlagName : Parser Nt Str := leaf (.capWord (.start [] false) [])

def capQuoted : Parser Nt Str := leaf (.capQuoted .opening [])

def capCompound : Parser Nt Str := leaf (.capCompound .opening [])

def ws : Parser Nt Unit := leaf .ws

def commentRest : Parser Nt Unit := leaf .commentRest

/-- Keep a left side that is still alive as a parallel branch. -/
def mergeRhs (rhs : Step Nt β) (leftAlive : Option (Parser Nt β)) : Step Nt β :=
  match rhs, leftAlive with
  | step, none => step
  | .done value rejected, some left => .both value rejected left
  | .continue cont, some left => .continue (alt [left, cont])
  | .both value rejected cont, some left => .both value rejected (alt [left, cont])

/-- The result of a right side, which goes on as `bound`. -/
def wrapP2 (step : Step Nt β) (leftAlive : Option (Parser Nt β)) : Step Nt β :=
  let wrapped :=
    match step with
    | .done value rejected => .done value rejected
    | .continue p2 => .continue (bound p2)
    | .both value rejected cont => .both value rejected (bound cont)
  mergeRhs wrapped leftAlive

def leafStep (l : Leaf α) (input : Input) : Option (Step Nt α) :=
  (l.step input).map fun
    | .finish value => .done value input
    | .advance next => .continue (leaf next)

end Parser

/-- How references are stepped. -/
abbrev CallStep (Nt : Type → Type) : Type 1 := ∀ α : Type, Nt α → Input → Option (Step Nt α)

mutual

/-- Feed one input, with references stepped by `call`. -/
def Parser.stepWith (call : CallStep Nt) {α : Type} :
    Parser Nt α → Input → Option (Step Nt α)
  | .pure value, input => some (.done value input)
  | .map parser f, input =>
    match parser.stepWith call input with
    | none => none
    | some (.done value rejected) => some (.done (f value) rejected)
    | some (.continue cont) => some (.continue (.map cont f))
    | some (.both value rejected cont) => some (.both (f value) rejected (.map cont f))
  | .bind p1 f, input =>
    match p1.stepWith call input with
    | none => none
    | some (.done value rejected) =>
      ((f value).stepWith call rejected).map fun rhs => Parser.wrapP2 rhs none
    | some (.continue p1) => some (.continue (.bind p1 f))
    | some (.both value rejected cont) =>
      match (f value).stepWith call rejected with
      | none => some (.continue (.bind cont f))
      | some rhs => some (Parser.wrapP2 rhs (some (.bind cont f)))
  | .bound p2, input => (p2.stepWith call input).map fun rhs => Parser.wrapP2 rhs none
  | .oneOf branches, input =>
    let (done, conts) := branches.stepWith call input
    match done, conts.toList with
    | none, [] => none
    | some (value, rejected), [] => some (.done value rejected)
    | none, conts => some (.continue (.alt conts))
    | some (value, rejected), conts => some (.both value rejected (.alt conts))
  | .lazy n, input => call α n input
  | .leaf l, input => Parser.leafStep l input

/-- Step every branch: the first finisher's value and the continuing branches. -/
def Branches.stepWith (call : CallStep Nt) {α : Type} :
    Branches Nt α → Input → Option (α × Input) × Branches Nt α
  | .nil, _ => (none, .nil)
  | .cons branch rest, input =>
    let (done, conts) := rest.stepWith call input
    match branch.stepWith call input with
    | none => (done, conts)
    | some (.done value rejected) => (some (value, rejected), conts)
    | some (.continue cont) => (done, .cons cont conts)
    | some (.both value rejected cont) => (some (value, rejected), .cons cont conts)

end

-- The equations are made here, once for all the proofs that step a parser.
attribute [grind =] Parser.stepWith Branches.stepWith

/-- A leaf that takes an input before it finishes. -/
def Leaf.Consumes : Leaf α → Prop
  | .fail => True
  | .lit rest => rest ≠ []
  | .kw word pos _ => pos < word.length
  | .overlay _ _ => True
  | .capWord word _ => word.len = 0
  | .capQuoted state _ => state ≠ .finished
  | .capCompound state _ => state ≠ .finished
  | .ws => False
  | .commentRest => False

mutual

/-- The parser does not finish before it has taken an input. -/
def Parser.Consumes {α : Type} : Parser Nt α → Prop
  | .pure _ => False
  | .map parser _ => parser.Consumes
  | .bind p1 f => p1.Consumes ∨ ∀ a, (f a).Consumes
  | .bound p2 => p2.Consumes
  | .oneOf branches => branches.Consumes
  | .lazy _ => False
  | .leaf l => l.Consumes

def Branches.Consumes {α : Type} : Branches Nt α → Prop
  | .nil => True
  | .cons p rest => p.Consumes ∧ rest.Consumes

end

mutual

/-- The parser meets no reference before it has taken an input. -/
def Parser.Guarded {α : Type} : Parser Nt α → Prop
  | .pure _ => True
  | .map parser _ => parser.Guarded
  | .bind p1 f => p1.Guarded ∧ (p1.Consumes ∨ ∀ a, (f a).Guarded)
  | .bound p2 => p2.Guarded
  | .oneOf branches => branches.Guarded
  | .lazy _ => False
  | .leaf _ => True

def Branches.Guarded {α : Type} : Branches Nt α → Prop
  | .nil => True
  | .cons p rest => p.Guarded ∧ rest.Guarded

end

/-- The productions of a grammar. -/
class Productions (Nt : Type → Type) where
  build : ∀ {α : Type}, Nt α → Parser Nt α
  guarded : ∀ {α : Type} (n : Nt α), (build n).Guarded

open Productions (build)

namespace Parser

def finishes (r : Option (Step Nt α)) : Bool :=
  match r with
  | some (.done _ _) => true
  | some (.both _ _ _) => true
  | _ => false

/-- What a bind admits when its left side can wrap up: each byte of the right
side is probed on the left side, and so is a text byte. -/
def bindAdmissible (p1e p2e : Admissible) (probe : Input → Bool) : Admissible :=
  let charset := p2e.charset.bytes.foldl (fun charset b =>
    if charset.contains b then charset
    else if probe (.byte b) then charset.add b
    else charset) p1e.charset
  let rhsTextOk := p2e.nonAsciiOk && probe (.text 0x80)
  ⟨charset, p2e.hardRequired, p1e.nonAsciiOk || rhsTextOk⟩

end Parser

/-- How references are asked. -/
abbrev CallAsk (Nt : Type → Type) (ρ : Type) : Type 1 := ∀ α : Type, Nt α → Except Panic ρ

mutual

/-- What the next input could be, with references asked by `ask`. -/
def Parser.admissibleWith (call : CallStep Nt) (ask : CallAsk Nt Admissible) {α : Type} :
    Parser Nt α → Except Panic Admissible
  | .pure _ => .ok .timeToFinish
  | .map parser _ => parser.admissibleWith call ask
  | .bind p1 f => do
      let p1e ← p1.admissibleWith call ask
      if p1e.hardRequired then .ok p1e
      else
        match p1.stepWith call .eof with
        | none => .error .lied
        | some r =>
          match r.finished with
          | none => .error .continued
          | some (value, rejected) =>
            if rejected ≠ .eof then .error .nonEof
            else do
              let p2e ← (f value).admissibleWith call ask
              .ok (Parser.bindAdmissible p1e p2e fun input =>
                Parser.finishes (p1.stepWith call input))
  | .bound p2 => p2.admissibleWith call ask
  | .oneOf branches => branches.admissibleWith call ask none
  | .lazy n => ask α n
  | .leaf l => .ok l.admissible

/-- The branches' admissibilities, alternated from the left. -/
def Branches.admissibleWith (call : CallStep Nt) (ask : CallAsk Nt Admissible) {α : Type} :
    Branches Nt α → Option Admissible → Except Panic Admissible
  | .nil, none => .error .emptyAlt
  | .nil, some acc => .ok acc
  | .cons branch rest, acc => do
      let adm ← branch.admissibleWith call ask
      rest.admissibleWith call ask
        (some (match acc with
          | none => adm
          | some acc => acc.either adm))

end

mutual

/-- The completions offered, in order, with references asked by `ask` and their
admissibility by `askAdm`. -/
def Parser.completionsWith (call : CallStep Nt) (askAdm : CallAsk Nt Admissible)
    (ask : CallAsk Nt (List Completion)) {α : Type} :
    Parser Nt α → Except Panic (List Completion)
  | .pure _ => .ok []
  | .map parser _ => parser.completionsWith call askAdm ask
  | .bind p1 f => do
      let left ← p1.completionsWith call askAdm ask
      let p1e ← p1.admissibleWith call askAdm
      if p1e.hardRequired then .ok left
      else
        match (p1.stepWith call .eof).bind Step.value with
        | none => .ok left
        | some value => do
            let right ← (f value).completionsWith call askAdm ask
            .ok (left ++ right)
  | .bound p2 => p2.completionsWith call askAdm ask
  | .oneOf branches => branches.completionsWith call askAdm ask
  | .lazy n => ask α n
  | .leaf l => .ok l.completions

def Branches.completionsWith (call : CallStep Nt) (askAdm : CallAsk Nt Admissible)
    (ask : CallAsk Nt (List Completion)) {α : Type} :
    Branches Nt α → Except Panic (List Completion)
  | .nil => .ok []
  | .cons branch rest => do
      let first ← branch.completionsWith call askAdm ask
      let others ← rest.completionsWith call askAdm ask
      .ok (first ++ others)

end

attribute [grind =] Parser.admissibleWith Branches.admissibleWith Parser.completionsWith
  Branches.completionsWith

namespace Parser

variable [Productions Nt]

/-- How a reference is stepped: it is built. -/
def callStep : CallStep Nt := fun _ n input => (build n).stepWith (fun _ _ _ => none) input

/-- What a reference admits: what it builds does. -/
def callAdmissible : CallAsk Nt Admissible :=
  fun _ n => (build n).admissibleWith callStep fun _ _ => .error .emptyAlt

/-- What a reference offers: what it builds does. -/
def callCompletions : CallAsk Nt (List Completion) :=
  fun _ n => (build n).completionsWith callStep callAdmissible fun _ _ => .ok []

/-- Feed one input. `none` means no parse continues through this input. -/
def step (p : Parser Nt α) (input : Input) : Option (Step Nt α) := p.stepWith callStep input

/-- What the next input could be. -/
def admissible (p : Parser Nt α) : Except Panic Admissible :=
  p.admissibleWith callStep callAdmissible

/-- The word completions available. -/
def completions (p : Parser Nt α) : Except Panic (List Completion) :=
  p.completionsWith callStep callAdmissible callCompletions

/-- Feed a whole byte string. -/
def feedBytes (p : Parser Nt α) : Str → Option (Parser Nt α)
  | [] => some p
  | b :: bs => ((p.step (.ofByte b)).bind Step.cont).bind fun p => p.feedBytes bs

/-- Step end of line and return the finished value. -/
def finish (p : Parser Nt α) : Option α := (p.step .eof).bind Step.value

end Parser

end Eo9.Eosh
