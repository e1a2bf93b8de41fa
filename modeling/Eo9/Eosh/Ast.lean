import Eo9.Eosh.Comb

/-!
# The syntax of command lines

The trees of `ast.rs`. Grouping by parentheses leaves no trace except in
argument position.
-/

namespace Eo9.Eosh

mutual

inductive Expr where
  | name (name : Str)
  | app (callee : Expr) (args : List Arg)
  | compose (provider consumer : Expr)
  | extend (base layer : Expr)
  | only (allow : List Str) (body : Expr)
  | rename (source target : Str) (body : Expr)
  | «with» (bindings : List WithBinding) (body : Expr)

/-- One `provider as slot` binding of a `with` gate. -/
inductive WithBinding where
  | mk (provider : Expr) (slot : Str)

/-- One argument of an application. -/
inductive Arg where
  | flag (name : Str) (value : ArgValue)
  | positional (value : ArgValue)

/-- The surface form of an argument value. -/
inductive ArgValue where
  | word (word : Str)
  | quoted (text : Str)
  | expr (expr : Expr)

end

/-- One parsed command line. -/
inductive Command where
  | empty
  | «let» (name : Str) (expr : Expr)
  | save (name : Str) (expr : Expr)
  | run (expr : Expr)
  | describe (expr : Expr)
  | describeBuiltin (word : Str)
  | describeApi (word : Str)
  | imports (expr : Expr)
  | man (word : Str)
  | env
  | envOf (expr : Expr)
  | detach (name : Str) (expr policy : Expr)
  | svcList
  | svcLog (name : Str)
  | svcStop (name : Str)
  | svcClear (name : Str)
  | history
  | help
  | exit
  | poweroff

/-!
## Vocabularies

The vocabulary snapshot of a prompt and what the grammar makes of it: the
entries for each name position, the argument candidates of the programs, and the
words that have a card (`grammar.rs`, `builtins.rs`, `apidocs.rs`).
-/

/-- The white space characters, by their bytes. -/
def whiteSpace : List Str :=
  [[0x09], [0x0A], [0x0B], [0x0C], [0x0D], [0x20], [0xC2, 0x85], [0xC2, 0xA0],
    [0xE1, 0x9A, 0x80], [0xE2, 0x80, 0x80], [0xE2, 0x80, 0x81], [0xE2, 0x80, 0x82],
    [0xE2, 0x80, 0x83], [0xE2, 0x80, 0x84], [0xE2, 0x80, 0x85], [0xE2, 0x80, 0x86],
    [0xE2, 0x80, 0x87], [0xE2, 0x80, 0x88], [0xE2, 0x80, 0x89], [0xE2, 0x80, 0x8A],
    [0xE2, 0x80, 0xA8], [0xE2, 0x80, 0xA9], [0xE2, 0x80, 0xAF], [0xE2, 0x81, 0x9F],
    [0xE3, 0x80, 0x80]]

/-- `s` without a leading `lead`. -/
def stripPrefix (lead s : Str) : Option Str :=
  if lead.isPrefixOf s then some (s.drop lead.length) else none

/-- `s` without a trailing `tail`. -/
def stripSuffix (tail s : Str) : Option Str :=
  if tail.isSuffixOf s then some (s.take (s.length - tail.length)) else none

/-- Strip by `strip` at most `fuel` times. -/
def stripMany (strip : Str → Option Str) : ℕ → Str → Str
  | 0, s => s
  | fuel + 1, s =>
    match strip s with
    | none => s
    | some rest => stripMany strip fuel rest

/-- Without leading and trailing white space. -/
def trim (s : Str) : Str :=
  let s := stripMany (fun s => whiteSpace.findSome? fun w => stripPrefix w s) s.length s
  stripMany (fun s => whiteSpace.findSome? fun w => stripSuffix w s) s.length s

theorem stripPrefix_eq_some {lead s rest : Str} (h : stripPrefix lead s = some rest) :
    s = lead ++ rest := by
  rw [stripPrefix] at h
  split_ifs at h with hprefix
  obtain ⟨t, rfl⟩ := List.isPrefixOf_iff_prefix.mp hprefix
  rw [List.drop_left] at h
  rw [Option.some.inj h]

theorem stripSuffix_eq_some {tail s rest : Str} (h : stripSuffix tail s = some rest) :
    s = rest ++ tail := by
  rw [stripSuffix] at h
  split_ifs at h with hsuffix
  obtain ⟨t, rfl⟩ := List.isSuffixOf_iff_suffix.mp hsuffix
  rw [List.length_append, Nat.add_sub_cancel, List.take_left] at h
  rw [Option.some.inj h]

/-- One flag of a program's signature, with its completion hints. -/
structure FlagSpec where
  name : Str
  ty : Str
  doc : Option Str
  values : List Str
  kind : Option Str

/-- One program's argument data. -/
structure ProgramArgs where
  flags : List FlagSpec

/-- The vocabulary for name positions; `programs` is the lookup of its map. -/
structure Vocab where
  entries : List (Str × Tag)
  programs : Str → Option ProgramArgs

/-- No entries and no programs. -/
def Vocab.default : Vocab := ⟨[], fun _ => none⟩

def Vocab.new (entries : List (Str × Tag)) : Vocab := ⟨entries, fun _ => none⟩

/-- Words that may not appear as bare names or bare argument values. -/
def reserved : List Str := ["as", "let", "only", "rename", "with"].map ascii

/-- Words that cannot head a plain run expression. -/
def cmdHeadExcluded : List Str :=
  ["as", "describe", "detach", "env", "exit", "help", "history", "imports", "let", "man", "only",
    "poweroff", "quit", "rename", "save", "svc", "with"].map ascii

/-- Where a name sits. -/
inductive Pos where
  | head | normal

/-- The names on the cards of the shell's own words. -/
def builtinDocs : List (List Str) :=
  [["help"], ["describe"], ["man"], ["imports"], ["env"], ["history"], ["let"], ["save"],
    ["detach"], ["svc"], ["exit", "quit"], ["poweroff"], ["$", "compose"], ["&", "extend"],
    ["only"], ["rename"], ["with"]].map (·.map ascii)

/-- Whether a shell word has a card. -/
def hasBuiltinDoc (word : Str) : Bool := builtinDocs.any fun names => names.contains word

def cardWords : List Str := builtinDocs.flatten

/-- The API cards, which the build extracts from the interface files: the names
of the packages, and the package and name of each interface. -/
class ApiDocs where
  packages : List Str
  interfaces : List (Str × Str)

/-- Every API word that has a card. -/
def apiWords [ApiDocs] : List Str :=
  ApiDocs.packages ++ ApiDocs.interfaces.map fun i => i.1 ++ ascii "/" ++ i.2

def cardEntries [ApiDocs] : List HintEntry :=
  cardWords.map (HintEntry.plain · .builtin) ++ apiWords.map (HintEntry.plain · .builtin)

/-- One program's argument candidates. -/
structure ProgramSlots where
  flags : List HintEntry
  values : Str → Option (List HintEntry)

/-- The grammar's shared context. -/
structure Cx where
  headVocab : List HintEntry
  vocab : List HintEntry
  programs : Str → Option ProgramSlots
  cards : List HintEntry
  manVocab : List HintEntry

/-- The value candidates that a type alone yields. -/
def witValueEntries (ty : Str) : List HintEntry :=
  let strip := fun s => ((stripPrefix (ascii "option<") s).bind (stripSuffix (ascii ">"))).map trim
  let inner := stripMany strip ty.length (trim ty)
  if inner = ascii "bool" then
    [ascii "false", ascii "true"].map (HintEntry.plain · .value)
  else []

/-- The candidates for a flag's value. -/
def valueEntries (spec : FlagSpec) (vocab : List HintEntry) : List HintEntry :=
  let entries := witValueEntries spec.ty
  let entries := entries ++ ((spec.values.map trim).filter fun word =>
    entryIsWord word && !reserved.contains word).map (HintEntry.plain · .value)
  entries ++
    if spec.kind = some (ascii "url") then
      [⟨ascii "http://", .value, some (ascii "url"), true⟩]
    else if spec.kind = some (ascii "path") then
      [⟨ascii "/", .value, some (ascii "path"), true⟩]
    else if spec.kind = some (ascii "component-name") then
      vocab.map fun entry => ⟨entry.word, .value, none, false⟩
    else []

def buildSlots (program : ProgramArgs) (vocab : List HintEntry) : ProgramSlots where
  flags := (program.flags.filter fun spec => entryIsWord spec.name).map fun spec =>
    ⟨spec.name, .flag, spec.doc, false⟩
  values := program.flags.foldl (fun values spec =>
    let entries := valueEntries spec vocab
    if entries.isEmpty then values
    else fun name => if name = spec.name then some entries else values name) fun _ => none

def buildCx [ApiDocs] (vocab : Vocab) : Cx :=
  let filter := fun excluded : List Str =>
    (vocab.entries.filter fun entry => !excluded.contains entry.1).map fun entry =>
      HintEntry.plain entry.1 entry.2
  let normal := filter reserved
  { headVocab := filter cmdHeadExcluded
    vocab := normal
    programs := fun name =>
      ((vocab.programs name).filter fun program => !program.flags.isEmpty).map fun program =>
        buildSlots program normal
    cards := cardEntries
    manVocab := cardEntries ++ normal.filter fun entry => entry.tag = .program }

end Eo9.Eosh
