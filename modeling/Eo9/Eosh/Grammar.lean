import Eo9.Eosh.Ast
import Eo9.Eosh.Laws

/-!
# The grammar of the shell

The parsers of `grammar.rs`, under its names. A recursive call, lazy in the
source or made inside a continuation, is a reference to one of the productions.
-/

namespace Eo9.Eosh

/-- The productions that are called recursively. -/
inductive Nt : Type → Type where
  | expr (cx : Cx) (pos : Pos) : Nt Expr
  | starArgs (cx : Cx) (acc : List Arg) : Nt (List Arg)
  | starArgsKnown (cx : Cx) (program : ProgramSlots) (acc : List Arg) : Nt (List Arg)
  | ampRest (cx : Cx) (acc : Expr) : Nt Expr
  | wordListRest (acc : List Str) : Nt (List Str)
  | withItemsRest (cx : Cx) (acc : List WithBinding) : Nt (List WithBinding)
  | moreExprs (cx : Cx) (acc : List Expr) : Nt (List Expr)

abbrev P (α : Type) := Parser Nt α

namespace Grammar

open Eosh.Parser

/-- Zero or more items after those in `acc`; `again` is the recursive call. -/
def starVecFrom {α : Type} (again : List α → P (List α)) (acc : List α) (item : P α) :
    P (List α) :=
  .alt [.pure acc, .bind item fun value => again (acc ++ [value])]

/-- Exactly `n` items after those in `acc`. -/
def repVecFrom {α : Type} (item : P α) : ℕ → List α → P (List α)
  | 0, acc => .pure acc
  | n + 1, acc => .bind item fun value => repVecFrom item n (acc ++ [value])

def repVec {α : Type} (n : ℕ) (item : P α) : P (List α) := repVecFrom item n []

/-- Two unit parsers in sequence. -/
def andThen (first second : P Unit) : P Unit := .bind first fun _ => second

def litByte (b : Ascii) : P Unit := lit [b]

def dollar : Ascii := ⟨ch '$', ch_dollar_lt⟩
def ampersand : Ascii := ⟨ch '&', ch_ampersand_lt⟩
def openParen : Ascii := ⟨ch '(', ch_openParen_lt⟩
def closeParen : Ascii := ⟨ch ')', ch_closeParen_lt⟩
def comma : Ascii := ⟨ch ',', ch_comma_lt⟩
def equals : Ascii := ⟨ch '=', ch_equals_lt⟩
def hash : Ascii := ⟨ch '#', by decide⟩

def tByte (b : Ascii) : P Unit := andThen ws (litByte b)

def tKw (word : String) (tag : Tag) : P Unit := andThen ws (kw (asciiChars word) tag)

/-- A non-reserved bare word, or a compound literal. -/
def tPlainWord : P Str := keepRight ws (.alt [capBareWord reserved, capCompound])

/-- A lazy reference to `expr`. -/
def exprL (cx : Cx) (pos : Pos) : P Expr := .lazy (.expr cx pos)

/-- `"(" expr ")"`. -/
def parenExpr (cx : Cx) : P Expr :=
  keepLeft (keepRight (litByte openParen) (exprL cx .normal)) (tByte closeParen)

/-- A name in primary position, with the word when it is one. -/
def capPrimary (cx : Cx) (pos : Pos) : P (Option Str × Expr) :=
  let (excluded, vocab) :=
    match pos with
    | .head => (cmdHeadExcluded, cx.headVocab)
    | .normal => (reserved, cx.vocab)
  keepRight ws (.alt [
    .map (capBareWord excluded) fun word => (some word, .name word),
    overlayWords vocab,
    .map capCompound fun raw => (none, .name raw),
    .map (parenExpr cx) fun expr => (none, expr)])

/-- A flag's value, with the flag's candidate words when it has any. -/
def valueHinted (cx : Cx) (hints : Option (List HintEntry)) : P ArgValue :=
  let branches : List (P ArgValue) := [
    .map (capBareWord reserved) .word,
    .map capCompound .word,
    .map capQuoted .quoted,
    .map (parenExpr cx) .expr]
  let branches :=
    match hints with
    | some hints => branches ++ [overlayWords hints]
    | none => branches
  keepRight ws (.alt branches)

/-- A flag's value. -/
def value (cx : Cx) : P ArgValue := valueHinted cx none

/-- The positional forms of an argument. -/
def positionals (cx : Cx) : List (P Arg) := [
  .map (capBareWord reserved) fun word => .positional (.word word),
  .map capCompound fun raw => .positional (.word raw),
  .map capQuoted fun text => .positional (.quoted text),
  .map (parenExpr cx) fun expr => .positional (.expr expr)]

/-- A flag or positional argument. -/
def arg (cx : Cx) : P Arg :=
  keepRight ws (.alt (
    keepRight (lit [dash, dash])
      (.bind capFlagName fun name => .map (value cx) fun value => .flag name value) ::
    positionals cx))

/-- An argument of a program whose slots are known. -/
def argKnown (cx : Cx) (program : ProgramSlots) : P Arg :=
  let flag : P Str := .alt [capFlagName, overlayWords program.flags]
  keepRight ws (.alt (
    keepRight (lit [dash, dash])
      (.bind flag fun name =>
        .map (valueHinted cx (program.values name)) fun value => .flag name value) ::
    positionals cx))

def starArgsFrom (cx : Cx) (acc : List Arg) : P (List Arg) :=
  starVecFrom (fun acc => .lazy (.starArgs cx acc)) acc (arg cx)

def starArgs (cx : Cx) : P (List Arg) := starArgsFrom cx []

def starArgsKnownFrom (cx : Cx) (program : ProgramSlots) (acc : List Arg) : P (List Arg) :=
  starVecFrom (fun acc => .lazy (.starArgsKnown cx program acc)) acc (argKnown cx program)

/-- The argument list for a captured head name. -/
def starArgsFor (cx : Cx) (name : Str) : P (List Arg) :=
  match cx.programs name with
  | some program => starArgsKnownFrom cx program []
  | none => starArgs cx

def appFrom (head : P (Option Str × Expr)) (cx : Cx) : P Expr :=
  .bind head fun (name, callee) =>
    let args :=
      match name with
      | some n => starArgsFor cx n
      | none => starArgs cx
    .map args fun args => if args.isEmpty then callee else .app callee args

def app (cx : Cx) (pos : Pos) : P Expr := appFrom (capPrimary cx pos) cx

/-- The left-associative `&` fold. -/
def ampRest (cx : Cx) (acc : Expr) : P Expr :=
  .alt [
    .pure acc,
    .bind (keepRight (tByte ampersand) (app cx .normal)) fun layer =>
      .lazy (.ampRest cx (.extend acc layer))]

def amp (cx : Cx) (pos : Pos) : P Expr := .bind (app cx pos) fun first => ampRest cx first

/-- The `$ <expr>` every gate requires. -/
def gateBody (cx : Cx) : P Expr := keepRight (tByte dollar) (exprL cx .normal)

def wordListRest (acc : List Str) : P (List Str) :=
  .alt [
    .pure acc,
    .bind (keepRight (tByte comma) tPlainWord) fun word => .lazy (.wordListRest (acc ++ [word]))]

/-- `name ("," name)*`. -/
def wordList : P (List Str) := .bind tPlainWord fun first => wordListRest [first]

def gateOnly (cx : Cx) : P Expr :=
  keepRight (tKw "only" .keyword)
    (.bind wordList fun allow => .map (gateBody cx) fun body => .only allow body)

def gateRename (cx : Cx) : P Expr :=
  keepRight (tKw "rename" .keyword)
    (.bind tPlainWord fun source =>
      .bind tPlainWord fun target =>
        .map (gateBody cx) fun body => .rename source target body)

/-- `("," expr)+ ")"`, collecting the extra providers. -/
def moreExprsAcc (cx : Cx) (acc : List Expr) : P (List Expr) :=
  .bind (keepRight (tByte comma) (exprL cx .normal)) fun extra =>
    let next := acc ++ [extra]
    .alt [
      .map (tByte closeParen) fun _ => next,
      .lazy (.moreExprs cx next)]

def moreExprs (cx : Cx) : P (List Expr) := moreExprsAcc cx []

/-- `"as" "(" slot ("," slot){n-1} ")"`. -/
def slotTuple (n : ℕ) : P (List Str) :=
  keepLeft
    (keepRight (andThen (tKw "as" .keyword) (tByte openParen))
      (.bind tPlainWord fun first =>
        .map (repVec (n - 1) (keepRight (tByte comma) tPlainWord)) fun rest => first :: rest))
    (tByte closeParen)

/-- The non-paren provider of a `with` item. -/
def providerNoParen (cx : Cx) : P Expr :=
  let head : P (Option Str × Expr) := keepRight ws (.alt [
    .map (capBareWord reserved) fun word => (some word, .name word),
    overlayWords cx.vocab,
    .map capCompound fun raw => (none, .name raw)])
  .bind (appFrom head cx) fun first => ampRest cx first

/-- One `with` binding, or several from a tuple. -/
def withItem (cx : Cx) : P (List WithBinding) :=
  .alt [
    keepRight (tByte openParen)
      (.bind (exprL cx .normal) fun first =>
        .alt [
          .map (keepRight (andThen (tByte closeParen) (tKw "as" .keyword)) tPlainWord) fun slot =>
            [.mk first slot],
          .bind (moreExprs cx) fun rest =>
            let providers := first :: rest
            .map (slotTuple providers.length) fun slots => List.zipWith .mk providers slots]),
    .bind (providerNoParen cx) fun provider =>
      .map (keepRight (tKw "as" .keyword) tPlainWord) fun slot => [.mk provider slot]]

def withItemsRest (cx : Cx) (acc : List WithBinding) : P (List WithBinding) :=
  .alt [
    .pure acc,
    .bind (keepRight (tByte comma) (withItem cx)) fun more =>
      .lazy (.withItemsRest cx (acc ++ more))]

def withItems (cx : Cx) : P (List WithBinding) :=
  .bind (withItem cx) fun first => withItemsRest cx first

def gateWith (cx : Cx) : P Expr :=
  keepRight (tKw "with" .keyword)
    (.bind (withItems cx) fun bindings => .map (gateBody cx) fun body => .with bindings body)

def expr (cx : Cx) (pos : Pos) : P Expr :=
  .alt [
    gateOnly cx,
    gateRename cx,
    gateWith cx,
    .bind (amp cx pos) fun left =>
      .alt [
        .pure left,
        .map (keepRight (tByte dollar) (exprL cx .normal)) fun consumer => .compose left consumer]]

/-- `<keyword> <name> = <expr>`. -/
def nameEqExpr (cx : Cx) (word : String) (build : Str → Expr → Command) : P Command :=
  keepRight (tKw word .builtin)
    (.bind tPlainWord fun name =>
      .map (keepRight (tByte equals) (exprL cx .normal)) fun expr => build name expr)

/-- `detach <name> = <expr> restart <policy>`. -/
def detach (cx : Cx) : P Command :=
  keepRight (tKw "detach" .builtin)
    (.bind tPlainWord fun name =>
      keepRight (tByte equals)
        (.bind (exprL cx .normal) fun program =>
          .map (keepRight (tKw "restart" .keyword) (exprL cx .normal)) fun policy =>
            .detach name program policy))

def svc : P Command :=
  keepRight (tKw "svc" .builtin)
    (.alt [
      .pure .svcList,
      .map (tKw "list" .builtin) fun _ => .svcList,
      .bind (.alt [
        .map (tKw "log" .builtin) fun _ => (0 : UInt8),
        .map (tKw "stop" .builtin) fun _ => 1,
        .map (tKw "clear" .builtin) fun _ => 2]) fun which =>
          .map tPlainWord fun name =>
            if which = 0 then .svcLog name else if which = 1 then .svcStop name else .svcClear name])

/-- Where a lone word of `describe` goes. -/
def cardRoute (word : Str) : P Command :=
  if hasBuiltinDoc word then .pure (.describeBuiltin word)
  else if word.contains (ch ':') then .pure (.describeApi word)
  else .fail

def describe (cx : Cx) : P Command :=
  keepRight (tKw "describe" .builtin)
    (.alt [
      .map (tByte dollar) fun _ => .describeBuiltin (ascii "$"),
      .map (tByte ampersand) fun _ => .describeBuiltin (ascii "&"),
      keepRight ws (.alt [.bind (capBareWord []) cardRoute, overlayWords cx.cards]),
      .map (exprL cx .normal) .describe])

def man (cx : Cx) : P Command :=
  keepRight (tKw "man" .builtin)
    (keepRight ws (.alt [
      .map (litByte dollar) fun _ => .man (ascii "$"),
      .map (litByte ampersand) fun _ => .man (ascii "&"),
      .map (capBareWord []) .man,
      .map capCompound .man,
      overlayWords cx.manVocab]))

def command (cx : Cx) : P Command :=
  .alt [
    nameEqExpr cx "let" .let,
    nameEqExpr cx "save" .save,
    detach cx,
    svc,
    .map (tKw "help" .builtin) fun _ => .help,
    .map (tKw "history" .builtin) fun _ => .history,
    .map (tKw "exit" .builtin) fun _ => .exit,
    .map (tKw "quit" .builtin) fun _ => .exit,
    .map (tKw "poweroff" .builtin) fun _ => .poweroff,
    keepRight (tKw "env" .builtin) (.alt [.pure .env, .map (exprL cx .normal) .envOf]),
    describe cx,
    man cx,
    .map (keepRight (tKw "imports" .builtin) (exprL cx .normal)) .imports,
    .map (expr cx .head) .run,
    .pure .empty]

/-- Trailing whitespace and an optional comment. -/
def trailing : P Unit :=
  andThen ws (.alt [.pure (), andThen (litByte hash) commentRest])

/-- What a reference builds. -/
def production {α : Type} : Nt α → P α
  | .expr cx pos => expr cx pos
  | .starArgs cx acc => starArgsFrom cx acc
  | .starArgsKnown cx program acc => starArgsKnownFrom cx program acc
  | .ampRest cx acc => ampRest cx acc
  | .wordListRest acc => wordListRest acc
  | .withItemsRest cx acc => withItemsRest cx acc
  | .moreExprs cx acc => moreExprsAcc cx acc

/-- Behind a parser that takes an input there may be any reference. -/
theorem guarded_bind {α β : Type} {p : P α} {f : α → P β} (hg : p.Guarded) (hc : p.Consumes) :
    (p.bind f).Guarded := ⟨hg, Or.inl hc⟩

theorem consumes_tByte (b : Ascii) : (tByte b).Consumes := Or.inr fun _ => List.cons_ne_nil b []

theorem guarded_tByte (b : Ascii) : (tByte b).Guarded := ⟨trivial, Or.inr fun _ => trivial⟩

theorem consumes_tKw {word : String} {tag : Tag} (h : 0 < (asciiChars word).length) :
    (tKw word tag).Consumes := Or.inr fun _ => h

theorem guarded_tKw (word : String) (tag : Tag) : (tKw word tag).Guarded :=
  ⟨trivial, Or.inr fun _ => trivial⟩

theorem guarded_litByte {α : Type} (b : Ascii) (q : P α) : (keepRight (litByte b) q).Guarded :=
  guarded_bind trivial (List.cons_ne_nil b [])

theorem consumes_parenExpr (cx : Cx) : (parenExpr cx).Consumes :=
  Or.inl (Or.inl (List.cons_ne_nil _ _))

theorem guarded_parenExpr (cx : Cx) : (parenExpr cx).Guarded :=
  guarded_bind (guarded_litByte openParen _) (Or.inl (List.cons_ne_nil _ _))

/-- The alternatives behind optional whitespace. -/
theorem consumes_ws_alt {α : Type} {ps : List (P α)} (h : ∀ p ∈ ps, p.Consumes) :
    (keepRight ws (.alt ps)).Consumes := Or.inr fun _ => consumes_alt.mpr h

theorem guarded_ws_alt {α : Type} {ps : List (P α)} (h : ∀ p ∈ ps, p.Guarded) :
    (keepRight ws (.alt ps)).Guarded := ⟨trivial, Or.inr fun _ => guarded_alt.mpr h⟩

theorem consumes_capPrimary (cx : Cx) (pos : Pos) : (capPrimary cx pos).Consumes := by
  cases pos <;>
    exact consumes_ws_alt (by simp [Parser.Consumes, capBareWord, overlayWords, capCompound,
      Leaf.Consumes, Word.start, consumes_parenExpr])

theorem guarded_capPrimary (cx : Cx) (pos : Pos) : (capPrimary cx pos).Guarded := by
  cases pos <;>
    exact guarded_ws_alt (by simp [Parser.Guarded, capBareWord, overlayWords, capCompound,
      guarded_parenExpr])

theorem forall_positionals {cx : Cx} {motive : P Arg → Prop}
    (leaf : ∀ {α : Type} (l : Leaf α) (f : α → Arg), l.Consumes → motive (.map (.leaf l) f))
    (paren : motive (.map (parenExpr cx) fun expr => .positional (.expr expr))) :
    ∀ p ∈ positionals cx, motive p := by
  intro p hp
  simp only [positionals, List.mem_cons, List.not_mem_nil, or_false] at hp
  rcases hp with rfl | rfl | rfl | rfl
  · exact leaf _ _ rfl
  · exact leaf _ _ CompoundState.noConfusion
  · exact leaf _ _ QuotedState.noConfusion
  · exact paren

/-- The forms of an argument: a flag, then the positional ones. -/
theorem consumes_args {cx : Cx} {p : P Arg} :
    (keepRight ws (.alt (keepRight (lit [dash, dash]) p :: positionals cx))).Consumes := by
  apply consumes_ws_alt
  intro q hq
  rcases List.mem_cons.mp hq with rfl | hq
  · exact Or.inl (List.cons_ne_nil _ _)
  · exact forall_positionals (fun l f h => h) (consumes_parenExpr cx) q hq

theorem guarded_args {cx : Cx} {p : P Arg} :
    (keepRight ws (.alt (keepRight (lit [dash, dash]) p :: positionals cx))).Guarded := by
  apply guarded_ws_alt
  intro q hq
  rcases List.mem_cons.mp hq with rfl | hq
  · exact guarded_bind trivial (List.cons_ne_nil _ _)
  · exact forall_positionals (fun l f h => trivial) (guarded_parenExpr cx) q hq

theorem guarded_starVecFrom {α : Type} (again : List α → P (List α)) (acc : List α) {item : P α}
    (hg : item.Guarded) (hc : item.Consumes) : (starVecFrom again acc item).Guarded := by
  apply guarded_alt.mpr
  simp only [List.forall_mem_cons, List.not_mem_nil, false_implies, implies_true, and_true]
  exact ⟨trivial, guarded_bind hg hc⟩

/-- A list that goes on behind a token. -/
theorem guarded_rest {α β : Type} {acc : β} {b : Ascii} {item : P α} {f : α → P β} :
    (Parser.alt [.pure acc, .bind (keepRight (tByte b) item) f] : P β).Guarded := by
  apply guarded_alt.mpr
  simp only [List.forall_mem_cons, List.not_mem_nil, false_implies, implies_true, and_true]
  exact ⟨trivial, guarded_bind (guarded_bind (guarded_tByte b) (consumes_tByte b))
    (Or.inl (consumes_tByte b))⟩

theorem guarded_expr (cx : Cx) (pos : Pos) : (expr cx pos).Guarded := by
  have hgate : ∀ {word : String} {q : P Expr}, 0 < (asciiChars word).length →
      (keepRight (tKw word .keyword) q).Guarded :=
    fun h => guarded_bind (guarded_tKw _ _) (consumes_tKw h)
  have happ : (app cx pos).Guarded :=
    guarded_bind (guarded_capPrimary cx pos) (consumes_capPrimary cx pos)
  have hamp : (amp cx pos).Guarded := guarded_bind happ (Or.inl (consumes_capPrimary cx pos))
  apply guarded_alt.mpr
  simp only [List.forall_mem_cons, List.not_mem_nil, false_implies, implies_true, and_true]
  exact ⟨hgate (by decide), hgate (by decide), hgate (by decide),
    guarded_bind hamp (Or.inl (Or.inl (consumes_capPrimary cx pos)))⟩

/-- A production takes an input before it refers to another. -/
theorem guarded_production {α : Type} (n : Nt α) : (production n).Guarded := by
  cases n with
  | expr cx pos => exact guarded_expr cx pos
  | starArgs cx acc =>
    have hg : (arg cx).Guarded := guarded_args
    exact guarded_starVecFrom (fun acc => .lazy (.starArgs cx acc)) acc hg consumes_args
  | starArgsKnown cx program acc =>
    have hg : (argKnown cx program).Guarded := guarded_args
    exact guarded_starVecFrom (fun acc => .lazy (.starArgsKnown cx program acc)) acc hg
      consumes_args
  | ampRest cx acc => exact guarded_rest
  | wordListRest acc => exact guarded_rest
  | withItemsRest cx acc => exact guarded_rest
  | moreExprs cx acc =>
    exact guarded_bind (guarded_bind (guarded_tByte comma) (consumes_tByte comma))
      (Or.inl (consumes_tByte comma))

instance : Productions Nt := ⟨production, guarded_production⟩

end Grammar

/-- The whole-line parser. -/
def commandLine [ApiDocs] (vocab : Vocab) : P Command :=
  Parser.keepLeft (Grammar.command (buildCx vocab)) Grammar.trailing

/-- The parser of an expression on its own. -/
def exprLine [ApiDocs] (vocab : Vocab) : P Expr :=
  Parser.keepLeft (Grammar.expr (buildCx vocab) .normal) Grammar.trailing

end Eo9.Eosh
