import Eo9.Eosh.Irrelevance
import Eo9.Eosh.Readings

/-!
# The productions read their phrases

Each parser of the grammar, in the context without a vocabulary, reads the phrase
of the documented grammar that bears its name. A recursive reference sees a
shorter word, so the productions are treated by induction on the length.
-/

namespace Eo9.Eosh

open Eo9.Library Eo9.Eosh.Parser Eo9.Eosh.Bnf

/-! ## First tokens -/

def startsArg : Token → Bool
  | .word w => !reserved.contains w
  | .punct b => Token.punct b == lparen
  | _ => true

/-- The tokens that go on with an `&` expression. -/
def inAmp (t : Token) : Bool := startsArg t || t == ampersand

/-- The tokens that go on with an expression. -/
def inExpr (t : Token) : Bool := inAmp t || t == dollar

/-- The token that goes on with a list. -/
def inList (t : Token) : Bool := t == comma

theorem inAmp_of_startsArg {t : Token} (h : startsArg t = true) : inAmp t = true := by
  rw [inAmp, h, Bool.true_or]

theorem inExpr_of_inAmp {t : Token} (h : inAmp t = true) : inExpr t = true := by
  rw [inExpr, h, Bool.true_or]

def Pos.start : Pos → Start
  | .head => .command
  | .normal => .any

/-! ## What is left of a list -/

namespace Bnf

/-- The layers that follow `acc`, with the expression they make. -/
inductive AmpRest (E : Phrase Token Expr) : Expr → Phrase Token Expr where
  | nil {acc : Expr} : AmpRest E acc [] acc
  | cons {acc layer v : Expr} {ts ts' : List Token} (h : IsApp E .any ts layer)
      (rest : AmpRest E (.extend acc layer) ts' v) :
      AmpRest E acc (ampersand :: (ts ++ ts')) v

/-- `("," item)*` -/
inductive More {α : Type} (item : Phrase Token α) : Phrase Token (List α) where
  | nil : More item [] []
  | cons {ts ts' : List Token} {a : α} {as : List α} (h : item ts a) (rest : More item ts' as) :
      More item (comma :: (ts ++ ts')) (a :: as)

/-- A list is its first item and the rest. -/
theorem listed_iff {α : Type} {item : Phrase Token α} {ts : List Token} {v : List α} :
    Listed item ts v ↔ (item.seq fun a => (More item).map (a :: ·)) ts v := by
  constructor
  · intro h
    induction h with
    | @one ts a h => exact ⟨ts, [], a, by simp, h, [], .nil, rfl⟩
    | cons h rest ih =>
      obtain ⟨ts₁, ts₂, a, rfl, ha, as, has, rfl⟩ := ih
      exact ⟨_, _, _, rfl, h, _, .cons ha has, rfl⟩
  · rintro ⟨ts₁, ts₂, a, rfl, ha, as, has, rfl⟩
    induction has generalizing ts₁ a with
    | nil =>
      rw [List.append_nil]
      exact .one ha
    | cons h rest ih => exact .cons ha (ih _ _ h)

theorem Listed.length_pos {α : Type} {item : Phrase Token α} {ts : List Token} {v : List α}
    (h : Listed item ts v) : 0 < v.length := by
  cases h <;> exact Nat.succ_pos _

/-- The rest of a list ends or goes on behind a comma. -/
theorem more_map_iff {α β : Type} {item : Phrase Token α} {g : List α → β} {ts : List Token}
    {v : β} : (More item).map g ts v ↔ (ts = [] ∧ v = g []) ∨
      (after comma item).seq (fun a => (More item).map fun as => g (a :: as)) ts v := by
  constructor
  · rintro ⟨as, has, rfl⟩
    cases has with
    | nil => exact Or.inl ⟨rfl, rfl⟩
    | cons h rest => exact Or.inr ⟨_, _, _, by simp, ⟨_, rfl, h⟩, _, rest, rfl⟩
  · rintro (⟨rfl, rfl⟩ | ⟨-, ts₂, a, rfl, ⟨ts₁, rfl, ha⟩, as, has, rfl⟩)
    · exact ⟨[], .nil, rfl⟩
    · exact ⟨_, .cons ha has, rfl⟩

theorem AmpRest.concat {E : Phrase Token Expr} {acc base layer : Expr} {ts ts' : List Token}
    (h : AmpRest E acc ts base) (hlayer : IsApp E .any ts' layer) :
    AmpRest E acc (ts ++ ampersand :: ts') (.extend base layer) := by
  induction h with
  | @nil acc =>
    have hlast : AmpRest E (.extend acc layer) [] (.extend acc layer) := .nil
    have hone := AmpRest.cons hlayer hlast
    rwa [List.append_nil] at hone
  | cons h rest ih =>
    have hmore := AmpRest.cons h ih
    simpa using hmore

/-- An `&` expression is its first application and the layers after it. -/
theorem isAmp_iff {E : Phrase Token Expr} {start : Start} {ts : List Token} {v : Expr} :
    IsAmp E start ts v ↔ ∃ ts₁ ts₂ first, ts = ts₁ ++ ts₂ ∧ IsApp E start ts₁ first ∧
      AmpRest E first ts₂ v := by
  constructor
  · intro h
    induction h with
    | @app ts e h => exact ⟨ts, [], e, by simp, h, .nil⟩
    | extend h hlayer ih =>
      obtain ⟨ts₁, ts₂, first, rfl, hfirst, hrest⟩ := ih
      exact ⟨ts₁, _, first, by simp, hfirst, hrest.concat hlayer⟩
  · rintro ⟨ts₁, ts₂, first, rfl, hfirst, hrest⟩
    have hgo : ∀ {acc : Expr} {ts₀ : List Token}, IsAmp E start ts₀ acc →
        ∀ {ts₂ : List Token} {v : Expr}, AmpRest E acc ts₂ v → IsAmp E start (ts₀ ++ ts₂) v := by
      intro acc ts₀ hacc ts₂ v h
      induction h generalizing ts₀ with
      | nil => rwa [List.append_nil]
      | cons h rest ih =>
        have hnext := ih (.extend hacc h)
        simpa using hnext
    exact hgo (.app hfirst) hrest

def headWord : List Token → Option Str
  | [.word w] => some w
  | _ => none

/-- What an application starts with, with its word when it is one. -/
def IsHead (start : Start) : Phrase Token (Option Str × Expr) :=
  fun ts v => v.1 = headWord ts ∧ IsPrimary IsExpr start ts v.2

/-- An `&` expression, and the expression it is composed with when there is one. -/
def Composed (start : Start) : Phrase Token Expr :=
  (IsAmp IsExpr start).seq fun left ts v => (ts = [] ∧ v = left) ∨
    (after dollar IsExpr).map (Expr.compose left) ts v

/-! ## What phrases start with -/

theorem startsWith_isName : StartsWith IsName startsArg := by
  intro ts v h
  cases h with
  | word h => exact starts_cons.mpr (by simp [startsArg, h])
  | compound => exact starts_cons.mpr rfl

theorem startsWith_isValue {E : Phrase Token Expr} : StartsWith (IsValue E) startsArg := by
  intro ts v h
  cases h with
  | word h => exact starts_cons.mpr (by simp [startsArg, h])
  | compound => exact starts_cons.mpr rfl
  | quoted => exact starts_cons.mpr rfl
  | paren h => exact starts_cons.mpr rfl

theorem startsWith_isArg {E : Phrase Token Expr} : StartsWith (IsArg E) startsArg := by
  intro ts v h
  cases h with
  | flag h => exact starts_cons.mpr rfl
  | positional h => exact startsWith_isValue _ _ h

theorem mayStart_ampRest {E : Phrase Token Expr} {acc : Expr} :
    MayStart (AmpRest E acc) fun t => t == ampersand := by
  intro ts v h
  cases h with
  | nil => exact Or.inl rfl
  | cons h rest => exact Or.inr (starts_cons.mpr rfl)

/-- The words that an application may start with. -/
def startsHead (start : Start) : Token → Bool
  | .word w => !start.excluded.contains w
  | .compound _ => true
  | .punct b => start != .named && Token.punct b == lparen
  | _ => false

theorem startsWith_isPrimary {E : Phrase Token Expr} {start : Start} :
    StartsWith (IsPrimary E start) (startsHead start) := by
  intro ts v h
  cases h with
  | word h => exact starts_cons.mpr (by simp [startsHead, h])
  | compound => exact starts_cons.mpr rfl
  | paren hs h => exact starts_cons.mpr (by simp [startsHead, lparen, hs])

theorem startsWith_isApp {E : Phrase Token Expr} {start : Start} :
    StartsWith (IsApp E start) (startsHead start) := by
  intro ts v h
  cases h with
  | mk h args => exact (startsWith_isPrimary _ _ h).append _

theorem startsWith_isAmp {E : Phrase Token Expr} {start : Start} :
    StartsWith (IsAmp E start) (startsHead start) := by
  intro ts v h
  obtain ⟨ts₁, ts₂, first, rfl, hfirst, -⟩ := isAmp_iff.mp h
  exact (startsWith_isApp _ _ hfirst).append _

/-- The words that an expression may start with. -/
def startsExpr (start : Start) (t : Token) : Bool :=
  t == word "only" || t == word "rename" || t == word "with" || startsHead start t

theorem startsWith_isExprWith {start : Start} :
    StartsWith (IsExprWith IsExpr start) (startsExpr start) := by
  have hamp : ∀ {ts v}, IsAmp IsExpr start ts v → Starts (startsExpr start) ts := fun h =>
    (startsWith_isAmp _ _ h).mono fun t ht => by rw [startsExpr, ht, Bool.or_true]
  intro ts v h
  cases h with
  | gate h => cases h <;> exact starts_cons.mpr (by simp [startsExpr])
  | amp h => exact hamp h
  | compose h h' => exact (hamp h).append _

theorem startsWith_isExpr : StartsWith IsExpr (startsExpr .any) := by
  intro ts v h
  cases h with
  | mk h => exact startsWith_isExprWith ts v h

end Bnf

/-- One token does not go on with a phrase. -/
theorem only_token {tok : Token} {goes : Token → Bool} (h : goes tok = false) (t : Token)
    (ht : (t == tok) = true) : goes t = false := by
  rw [eq_of_beq ht, h]

namespace Nt

/-- What a production reads. -/
def phrase {α : Type} : Nt α → Phrase Token α
  | .expr _ pos => IsExprWith IsExpr pos.start
  | .starArgs _ acc => (IsArgs IsExpr).map (acc ++ ·)
  | .starArgsKnown _ _ acc => (IsArgs IsExpr).map (acc ++ ·)
  | .ampRest _ acc => AmpRest IsExpr acc
  | .wordListRest acc => (More IsName).map (acc ++ ·)
  | .withItemsRest _ acc => (More (IsItem IsExpr)).map fun items => acc ++ items.flatten
  | .moreExprs _ acc => fun ts v =>
    ∃ es, es ≠ [] ∧ before (More IsExpr) rparen ts es ∧ v = acc ++ es

/-- The tokens that go on with it. -/
def goes {α : Type} : Nt α → Token → Bool
  | .expr _ _ => inExpr
  | .starArgs _ _ => startsArg
  | .starArgsKnown _ _ _ => startsArg
  | .ampRest _ _ => inAmp
  | .wordListRest _ => inList
  | .withItemsRest _ _ => inList
  | .moreExprs _ _ => fun _ => false

end Nt

namespace Grammar

open Nt (bare)

/-! ## Tokens -/

theorem reads_tByte {n : ℕ} {goes : Token → Bool} {b : Ascii} (hb : b.1 ∈ punctuation) :
    Reads n true (tByte b) (single fun t _ => t = .punct b) goes :=
  (Reads.litByte hb).ws nonempty_single

theorem reads_tKw {n : ℕ} {goes : Token → Bool} {s : String} {tag : Tag}
    (hword : BareWord (ascii s)) :
    Reads n true (tKw s tag) (single fun t _ => t = Bnf.word s) goes :=
  (Reads.kw hword).ws nonempty_single

theorem reads_behind {α : Type} {n : ℕ} {p : P α} {D : Phrase Token α} {goes : Token → Bool}
    {b : Ascii} (hb : b.1 ∈ punctuation) (h : Reads n true p D goes) :
    Reads (n + 1) true (keepRight (tByte b) p) (after (.punct b) D) goes :=
  (reads_tByte hb).after h

theorem reads_behindKw {α : Type} {n : ℕ} {p : P α} {D : Phrase Token α} {goes : Token → Bool}
    {s : String} {tag : Tag} (hword : BareWord (ascii s)) (h : Reads n true p D goes) :
    Reads (n + 1) true (keepRight (tKw s tag) p) (after (Bnf.word s) D) goes :=
  (reads_tKw hword).after h

/-- The kinds of tokens that tell the alternatives apart. -/
def isWord (t : Token) : Bool := t matches .word _

def isFlag (t : Token) : Bool := t matches .flag _

def isQuoted (t : Token) : Bool := t matches .quoted _

def isCompound (t : Token) : Bool := t matches .compound _

def isParen (t : Token) : Bool := t == lparen

theorem startsWith_single {α : Type} {Q : Token → α → Prop} {k : Token → Bool}
    (h : ∀ t v, Q t v → k t = true) : StartsWith (single Q) k := by
  rintro ts v ⟨t, rfl, hv⟩
  exact starts_cons.mpr (h t v hv)

theorem reads_name {n : ℕ} {goes : Token → Bool} {excluded : List Str}
    (hex : AllAscii excluded) :
    Reads n false (capBareWord excluded : P Str) (single fun t v => t = .word v ∧ v ∉ excluded)
        goes ∧
      StartsWith (single fun t v => t = .word v ∧ v ∉ excluded) isWord :=
  ⟨.capBareWord hex, startsWith_single (by rintro t v ⟨rfl, -⟩; rfl)⟩

theorem reads_compound {n : ℕ} {goes : Token → Bool} :
    Reads n false (capCompound : P Str) (single fun t v => t = .compound v) goes ∧
      StartsWith (single fun t (v : Str) => t = .compound v) isCompound :=
  ⟨.capCompound, startsWith_single (by rintro t v rfl; rfl)⟩

theorem reads_quoted {n : ℕ} {goes : Token → Bool} :
    Reads n false (capQuoted : P Str) (single fun t v => t = .quoted v) goes ∧
      StartsWith (single fun t (v : Str) => t = .quoted v) isQuoted :=
  ⟨.capQuoted, startsWith_single (by rintro t v rfl; rfl)⟩

/-- The values of an alternative under `f`. -/
theorem reads_map {α β : Type} {n : ℕ} {gap : Bool} {goes k : Token → Bool} {p : P α}
    {D : Phrase Token α} (h : Reads n gap p D goes ∧ StartsWith D k) (f : α → β) :
    Reads n gap (.map p f) (D.map f) goes ∧ StartsWith (D.map f) k := ⟨h.1.map f, h.2.map f⟩

/-- The two forms of a name; they start differently. -/
theorem reads_tPlainWord {n : ℕ} {goes : Token → Bool} :
    Reads n true tPlainWord IsName goes := by
  refine Reads.ws ((Reads.either (reads_name allAscii_reserved) reads_compound ?_).congr ?_)
    startsWith_isName.nonempty
  · intro t ht
    cases t <;> first | rfl | cases ht
  · intro ts v
    constructor
    · rintro (⟨t, rfl, rfl, hnot⟩ | ⟨t, rfl, rfl⟩)
      · exact .word hnot
      · exact .compound
    · intro h
      cases h with
      | word h => exact Or.inl ⟨_, rfl, rfl, h⟩
      | compound => exact Or.inr ⟨_, rfl, rfl⟩

section Step

/-! ## One production

The references of a production read their phrases on the words shorter than `n`;
then so does the production on the words shorter than `n + 1`. -/

variable {n : ℕ} (href : ∀ {α : Type} (m : Nt α), Reads n true (.lazy m.strip : P α) m.phrase m.goes)

include href

theorem reads_exprL : Reads n true (exprL bare .normal) IsExpr inExpr := by
  apply (href (.expr bare .normal)).congr
  intro ts v
  constructor
  · exact fun h => .mk h
  · intro h
    cases h with
    | mk h => exact h

/-- An expression in parentheses. -/
theorem reads_parenExpr {goes : Token → Bool} :
    Reads (n + 1) false (parenExpr bare) (before (after lparen IsExpr) rparen) goes ∧
      StartsWith (before (after lparen IsExpr) rparen) isParen := by
  have hstarts : StartsWith (after lparen IsExpr) isParen := startsWith_after _ _
  refine ⟨?_, startsWith_before hstarts rparen⟩
  have hopen : Reads (n + 1) false (keepRight (litByte openParen) (exprL bare .normal))
      (after lparen IsExpr) inExpr :=
    (Reads.litByte (by decide)).after (reads_exprL href)
  exact hopen.before (reads_tByte (by decide)) (fun _ => hstarts.nonempty) rfl

/-- The alternatives of a value, under `f`. -/
theorem reads_values {α : Type} {goes : Token → Bool} (f : ArgValue → α) :
    ∀ x ∈ [
      ((.map (capBareWord reserved) fun w => f (.word w) : P α),
        (single fun t v => t = .word v ∧ v ∉ reserved).map fun w => f (.word w), isWord),
      (.map capCompound fun raw => f (.word raw),
        (single fun t v => t = .compound v).map fun raw => f (.word raw), isCompound),
      (.map capQuoted fun text => f (.quoted text),
        (single fun t v => t = .quoted v).map fun text => f (.quoted text), isQuoted),
      (.map (parenExpr bare) fun e => f (.expr e),
        (before (after lparen IsExpr) rparen).map fun e => f (.expr e), isParen)],
      Reads (n + 1) false x.1 x.2.1 goes ∧ StartsWith x.2.1 x.2.2 := by
  simp only [List.forall_mem_cons, List.not_mem_nil, false_implies, implies_true, and_true]
  exact ⟨reads_map (reads_name allAscii_reserved) _, reads_map reads_compound _,
    reads_map reads_quoted _, reads_map (reads_parenExpr href) _⟩

end Step

/-- The kinds of a value are different tokens. -/
theorem apart_values : List.Pairwise (fun k k' : Token → Bool => ∀ t, k t = true → k' t = false)
    [isWord, isCompound, isQuoted, isParen] := by
  have hparen : ∀ t, isParen t = true → t = lparen := fun t h => eq_of_beq h
  simp only [List.pairwise_cons, List.mem_cons, List.not_mem_nil, or_false, forall_eq_or_imp,
    forall_eq, false_implies, implies_true, List.Pairwise.nil, and_true]
  refine ⟨⟨?_, ?_, ?_⟩, ⟨?_, ?_⟩, ?_⟩ <;>
    · intro t ht
      cases t <;> first | rfl | cases ht

theorem isValue_iff {α : Type} (f : ArgValue → α) (ts : List Token) (v : α) :
    Phrase.anyOf [
      (single fun t v => t = .word v ∧ v ∉ reserved).map fun w => f (.word w),
      (single fun t v => t = .compound v).map fun raw => f (.word raw),
      (single fun t v => t = .quoted v).map fun text => f (.quoted text),
      (before (after lparen IsExpr) rparen).map fun e => f (.expr e)] ts v ↔
      (IsValue IsExpr).map f ts v := by
  constructor
  · rintro ⟨Q, hQ, hv⟩
    simp only [List.mem_cons, List.not_mem_nil, or_false] at hQ
    rcases hQ with rfl | rfl | rfl | rfl
    · obtain ⟨w, ⟨t, rfl, rfl, hnot⟩, rfl⟩ := hv
      exact ⟨_, .word hnot, rfl⟩
    · obtain ⟨w, ⟨t, rfl, rfl⟩, rfl⟩ := hv
      exact ⟨_, .compound, rfl⟩
    · obtain ⟨w, ⟨t, rfl, rfl⟩, rfl⟩ := hv
      exact ⟨_, .quoted, rfl⟩
    · obtain ⟨e, ⟨ts', rfl, ts, rfl, he⟩, rfl⟩ := hv
      exact ⟨_, .paren he, rfl⟩
  · rintro ⟨a, ha, rfl⟩
    cases ha with
    | word h => exact ⟨_, .head _, _, ⟨_, rfl, rfl, h⟩, rfl⟩
    | compound => exact ⟨_, .tail _ (.head _), _, ⟨_, rfl, rfl⟩, rfl⟩
    | quoted => exact ⟨_, .tail _ (.tail _ (.head _)), _, ⟨_, rfl, rfl⟩, rfl⟩
    | paren h => exact ⟨_, .tail _ (.tail _ (.tail _ (.head _))), _, ⟨_, rfl, _, rfl, h⟩, rfl⟩

/-- A head is one of its alternatives, the last only where it is allowed. -/
theorem isHead_iff {start : Start} {last : List (Phrase Token (Option Str × Expr))}
    (hlast : ∀ ts v, Phrase.anyOf last ts v ↔ start ≠ .named ∧
      (before (after lparen IsExpr) rparen).map (fun e => ((none : Option Str), e)) ts v)
    (ts : List Token) (v : Option Str × Expr) :
    Phrase.anyOf ((single fun t v => t = .word v ∧ v ∉ start.excluded).map
        (fun w => (some w, Expr.name w)) :: (fun _ _ => False) ::
        (single fun t v => t = .compound v).map (fun raw => (none, Expr.name raw)) :: last) ts v ↔
      IsHead start ts v := by
  rw [Phrase.anyOf_cons, Phrase.anyOf_cons, Phrase.anyOf_cons, hlast]
  constructor
  · rintro (⟨w, ⟨t, rfl, rfl, hnot⟩, rfl⟩ | hfalse | ⟨raw, ⟨t, rfl, rfl⟩, rfl⟩ |
      ⟨hstart, e, ⟨-, rfl, ts, rfl, he⟩, rfl⟩)
    · exact ⟨rfl, .word hnot⟩
    · exact hfalse.elim
    · exact ⟨rfl, .compound⟩
    · exact ⟨by simp [headWord, lparen], .paren hstart he⟩
  · rintro ⟨htag, h⟩
    obtain ⟨tag, e⟩ := v
    simp only at htag h
    subst htag
    cases h with
    | word h => exact Or.inl ⟨_, ⟨_, rfl, rfl, h⟩, rfl⟩
    | compound => exact Or.inr (Or.inr (Or.inl ⟨_, ⟨_, rfl, rfl⟩, rfl⟩))
    | paren hstart h =>
      exact Or.inr (Or.inr (Or.inr ⟨hstart, _, ⟨_, rfl, _, rfl, h⟩, by simp [headWord, lparen]⟩))

/-- So are the kinds of a head. -/
theorem apart_heads : List.Pairwise (fun k k' : Token → Bool => ∀ t, k t = true → k' t = false)
    [isWord, fun _ => false, isCompound, isParen] := by
  simp only [List.pairwise_cons, List.mem_cons, List.not_mem_nil, or_false, forall_eq_or_imp,
    forall_eq, false_implies, implies_true, List.Pairwise.nil, and_true]
  refine ⟨⟨trivial, ?_, ?_⟩, ⟨?_, ?_⟩, ?_⟩ <;>
    · intro t ht
      cases t <;> first | rfl | cases ht

/-- A flag is none of them. -/
theorem apart_args : List.Pairwise (fun k k' : Token → Bool => ∀ t, k t = true → k' t = false)
    [isFlag, isWord, isCompound, isQuoted, isParen] := by
  refine List.pairwise_cons.mpr ⟨?_, apart_values⟩
  simp only [List.mem_cons, List.not_mem_nil, or_false, forall_eq_or_imp, forall_eq]
  refine ⟨?_, ?_, ?_, ?_⟩ <;>
    · intro t ht
      cases t <;> first | rfl | cases ht

section Step

variable {n : ℕ} (href : ∀ {α : Type} (m : Nt α), Reads n true (.lazy m.strip : P α) m.phrase m.goes)

include href

theorem reads_value {goes : Token → Bool} :
    Reads (n + 1) true (value bare) (IsValue IsExpr) goes := by
  refine Reads.ws (Reads.congr (Reads.alt_starts _ (reads_values href id) ?_) ?_)
    startsWith_isValue.nonempty
  · exact apart_values
  · intro ts v
    refine (isValue_iff id ts v).trans ?_
    simp [Phrase.map]

theorem reads_flagArg {goes : Token → Bool} :
    Reads (n + 1) false (keepRight (lit [dash, dash])
        (.bind capFlagName fun name => .map (value bare) fun value => .flag name value) : P Arg)
      ((single fun t v => t = .flag v).seq fun name => (IsValue IsExpr).map (Arg.flag name)) goes := by
  have hflag : Reads (n + 1) false (keepRight (lit [dash, dash]) capFlagName : P Str)
      (single fun t v => t = .flag v) fun _ => false := .flag
  have hvalue : Reads (n + 1) true (value bare) (IsValue IsExpr) goes := reads_value href
  have hbind := hflag.bind (fun name => hvalue.map (Arg.flag name))
    (fun _ => nonempty_single) fun _ => follows_closed _
  exact hbind.of_run run_lit_bind

theorem reads_arg {goes : Token → Bool} :
    Reads (n + 1) true (arg bare) (IsArg IsExpr) goes := by
  have hflag : StartsWith ((single fun t v => t = .flag v).seq fun name =>
      (IsValue IsExpr).map (Arg.flag name)) isFlag :=
    (startsWith_single (by rintro t v rfl; rfl)).seq
  refine Reads.ws (Reads.congr (Reads.alt_starts ((_, _, isFlag) :: _) (List.forall_mem_cons.mpr
    ⟨⟨reads_flagArg href, hflag⟩, reads_values href Arg.positional⟩) apart_args) ?_)
    startsWith_isArg.nonempty
  intro ts v
  refine Phrase.anyOf_cons.trans ((or_congr Iff.rfl (isValue_iff Arg.positional ts v)).trans ?_)
  constructor
  · rintro (⟨-, ts₂, name, rfl, ⟨t, rfl, rfl⟩, value, hv, rfl⟩ | ⟨value, hv, rfl⟩)
    · exact .flag hv
    · exact .positional hv
  · intro h
    cases h with
    | flag h => exact Or.inl ⟨[_], _, _, rfl, ⟨_, rfl, rfl⟩, _, h, rfl⟩
    | positional h => exact Or.inr ⟨_, h, rfl⟩

/-- The arguments behind those in `acc`. -/
theorem reads_starArgsFrom (acc : List Arg) :
    Reads (n + 1) true (starArgsFrom bare acc) ((IsArgs IsExpr).map (acc ++ ·)) startsArg := by
  have hitem : Reads (n + 1) true (arg bare) (IsArg IsExpr) fun _ => false := reads_arg href
  apply hitem.rest startsWith_isArg (fun a => href (.starArgs bare (acc ++ [a])))
    (fun _ => follows_closed _) fun _ h => h
  intro ts v
  constructor
  · rintro ⟨as, has, rfl⟩
    cases has with
    | nil => exact Or.inl ⟨rfl, List.append_nil acc⟩
    | cons h rest => exact Or.inr ⟨_, _, _, rfl, h, _, rest, by simp⟩
  · rintro (⟨rfl, hv⟩ | ⟨ts₁, ts₂, a, rfl, ha, as, has, rfl⟩)
    · exact ⟨[], .nil, hv.trans (List.append_nil acc).symm⟩
    · exact ⟨_, .cons ha has, by simp⟩

theorem reads_starArgs : Reads (n + 1) true (starArgs bare) (IsArgs IsExpr) startsArg := by
  apply (reads_starArgsFrom href []).congr
  intro ts v
  simp [Phrase.map]

/-! ## Applications and layers -/

omit href in
/-- A head, whose last alternatives depend on where it stands. -/
theorem reads_head {start : Start} (hex : AllAscii start.excluded)
    (last : List (P (Option Str × Expr) × Phrase Token (Option Str × Expr) × (Token → Bool)))
    (hreads : ∀ x ∈ last, Reads n false x.1 x.2.1 (fun _ => false) ∧ StartsWith x.2.1 x.2.2)
    (apart : List.Pairwise (fun k k' : Token → Bool => ∀ t, k t = true → k' t = false)
      (isWord :: (fun _ => false) :: isCompound :: last.map (·.2.2)))
    (hlast : ∀ ts v, Phrase.anyOf (last.map (·.2.1)) ts v ↔ start ≠ .named ∧
      (before (after lparen IsExpr) rparen).map (fun e => ((none : Option Str), e)) ts v) :
    Reads n true (keepRight ws (.alt (
      .map (capBareWord start.excluded) (fun word => (some word, .name word)) ::
      overlayWords [] ::
      .map capCompound (fun raw => (none, .name raw)) ::
      last.map (·.1)))) (IsHead start) fun _ => false := by
  have hall : ∀ x ∈
      ((.map (capBareWord start.excluded) fun w => (some w, .name w) : P (Option Str × Expr)),
        (single fun t v => t = .word v ∧ v ∉ start.excluded).map fun w => (some w, Expr.name w),
        isWord) ::
      (overlayWords [], (fun _ _ => False), fun _ => false) ::
      (.map capCompound fun raw => (none, .name raw),
        (single fun t v => t = .compound v).map fun raw => (none, Expr.name raw), isCompound) ::
      last, Reads n false x.1 x.2.1 (fun _ => false) ∧ StartsWith x.2.1 x.2.2 := by
    simp only [List.forall_mem_cons]
    exact ⟨reads_map (reads_name hex) _, ⟨.none fun _ _ => run_overlay, fun _ _ h => h.elim⟩,
      reads_map reads_compound _, hreads⟩
  have halt := Reads.alt_starts _ hall apart
  refine Reads.ws (halt.congr (isHead_iff hlast)) ?_
  rintro v ⟨-, h⟩
  exact startsWith_isPrimary.nonempty _ h

/-- The start of an application. -/
theorem reads_capPrimary (pos : Pos) :
    Reads (n + 1) true (capPrimary bare pos) (IsHead pos.start) fun _ => false := by
  have hparen : Reads (n + 1) false (parenExpr bare) (before (after lparen IsExpr) rparen)
      (fun _ => false) ∧ StartsWith (before (after lparen IsExpr) rparen) isParen :=
    reads_parenExpr href
  have hhead : ∀ start : Start, AllAscii start.excluded → start ≠ .named →
      Reads (n + 1) true (keepRight ws (.alt [
        .map (capBareWord start.excluded) fun word => (some word, .name word),
        overlayWords [],
        .map capCompound fun raw => (none, .name raw),
        .map (parenExpr bare) fun expr => (none, expr)])) (IsHead start) fun _ => false := by
    intro start hex hstart
    apply reads_head hex [(_, _, isParen)]
    · exact List.forall_mem_singleton.mpr (reads_map hparen fun e => ((none : Option Str), e))
    · exact apart_heads
    · intro ts v
      simp [Phrase.anyOf, Phrase.map, hstart]
  cases pos with
  | head => exact hhead .command allAscii_cmdHeadExcluded (by decide)
  | normal => exact hhead .any allAscii_reserved (by decide)

theorem reads_appFrom {start : Start} {head : P (Option Str × Expr)}
    (h : Reads (n + 1) true head (IsHead start) fun _ => false) :
    Reads (n + 1) true (appFrom head bare) (IsApp IsExpr start) startsArg := by
  have hargs : Reads (n + 1) true (appFrom head bare)
      ((IsHead start).seq fun x => (IsArgs IsExpr).map (applied x.2)) startsArg := by
    apply h.bind _ (fun h => by cases h) fun _ => follows_closed _
    rintro ⟨tag, callee⟩
    cases tag <;> exact (reads_starArgs href).map _
  apply hargs.congr
  intro ts v
  constructor
  · rintro ⟨ts₁, ts₂, a, rfl, ⟨-, ha⟩, as, has, rfl⟩
    exact .mk ha has
  · intro h
    cases h with
    | mk h args => exact ⟨_, _, (_, _), rfl, ⟨rfl, h⟩, _, args, rfl⟩

theorem reads_app (pos : Pos) :
    Reads (n + 1) true (app bare pos) (IsApp IsExpr pos.start) startsArg :=
  reads_appFrom href (reads_capPrimary href pos)

/-- The layers behind `acc`. -/
theorem reads_ampRest (acc : Expr) :
    Reads (n + 1) true (ampRest bare acc) (AmpRest IsExpr acc) inAmp := by
  have happ : Reads n true (app bare .normal) (IsApp IsExpr .any) startsArg :=
    (reads_app href .normal).mono (Nat.le_succ n)
  have hitem : Reads (n + 1) true (keepRight (tByte ampersand) (app bare .normal))
      (after Bnf.ampersand (IsApp IsExpr .any)) startsArg := reads_behind (by decide) happ
  apply hitem.rest (startsWith_after _ _) (fun a => href (.ampRest bare (.extend acc a)))
  · intro a
    exact mayStart_ampRest.follows (only_token rfl) fun _ => inAmp_of_startsArg
  · intro t ht
    rw [eq_of_beq ht]
    rfl
  · intro ts v
    constructor
    · intro h
      cases h with
      | nil => exact Or.inl ⟨rfl, rfl⟩
      | cons h rest => exact Or.inr ⟨_, _, _, by simp, ⟨_, rfl, h⟩, rest⟩
    · rintro (⟨rfl, rfl⟩ | ⟨-, ts₂, layer, rfl, ⟨ts₁, rfl, h⟩, rest⟩)
      · exact .nil
      · exact .cons h rest

/-- An application and the layers behind it. -/
theorem reads_ampFrom {start : Start} {first : P Expr}
    (h : Reads (n + 1) true first (IsApp IsExpr start) startsArg) :
    Reads (n + 1) true (.bind first fun acc => ampRest bare acc) (IsAmp IsExpr start) inAmp := by
  have hrest := h.bind (reads_ampRest href) nofun fun acc =>
    mayStart_ampRest.follows (only_token rfl) fun _ => inAmp_of_startsArg
  apply hrest.congr
  intro ts v
  rw [isAmp_iff]
  exact Iff.rfl

theorem reads_amp (pos : Pos) :
    Reads (n + 1) true (amp bare pos) (IsAmp IsExpr pos.start) inAmp :=
  reads_ampFrom href (reads_app href pos)

theorem reads_providerNoParen :
    Reads (n + 1) true (providerNoParen bare) (IsAmp IsExpr .named) inAmp := by
  have hhead : Reads (n + 1) true (keepRight ws (.alt [
      .map (capBareWord reserved) fun word => (some word, .name word),
      overlayWords [],
      .map capCompound fun raw => (none, .name raw)]) : P (Option Str × Expr))
      (IsHead .named) fun _ => false := by
    have hex : AllAscii Start.named.excluded := allAscii_reserved
    apply reads_head hex []
    · exact fun _ hx => absurd hx List.not_mem_nil
    · exact apart_heads.sublist (by simp)
    · intro ts v
      simp [Phrase.anyOf]
  exact reads_ampFrom href (reads_appFrom href hhead)

/-! ## Lists and gates -/

theorem reads_gateBody : Reads (n + 1) true (gateBody bare) (after Bnf.dollar IsExpr) inExpr :=
  reads_behind (by decide) (reads_exprL href)

/-- The names behind those in `acc`. -/
theorem reads_wordListRest (acc : List Str) :
    Reads (n + 1) true (wordListRest acc) ((More IsName).map (acc ++ ·)) inList := by
  have hitem : Reads (n + 1) true (keepRight (tByte comma) tPlainWord)
      (after Bnf.comma IsName) fun _ => false := reads_behind (by decide) reads_tPlainWord
  apply hitem.rest (startsWith_after _ _) (fun a => href (.wordListRest (acc ++ [a])))
    (fun _ => follows_closed _) fun _ ht => ht
  intro ts v
  rw [more_map_iff]
  simp only [List.append_nil, Nt.phrase, List.append_assoc, List.singleton_append]

theorem reads_wordList : Reads (n + 1) true wordList (Listed IsName) inList := by
  have hfirst : Reads (n + 1) true tPlainWord IsName fun _ => false := reads_tPlainWord
  apply (hfirst.bind (fun a => reads_wordListRest href [a]) nofun fun _ => follows_closed _).congr
  exact fun ts v => listed_iff.symm

/-- A gate: its word, its subject and its body. -/
theorem reads_gate {α : Type} {word : String} {subject : P α} {D : Phrase Token α}
    {goes : Token → Bool} (build : α → Expr → Expr) (hword : BareWord (ascii word))
    (h : Reads (n + 1) true subject D goes) (hgoes : goes Bnf.dollar = false) :
    Reads (n + 1) true (keepRight (tKw word .keyword)
        (.bind subject fun a => .map (gateBody bare) fun body => build a body))
      (after (Bnf.word word) (D.seq fun a => (after Bnf.dollar IsExpr).map (build a))) inExpr := by
  have hbody := h.bind (fun a => (reads_gateBody href).map (build a)) nofun fun a =>
    ((startsWith_after _ _).map (build a)).follows (only_token hgoes) _
  exact (reads_behindKw hword hbody).mono (Nat.le_succ _)

theorem reads_gateOnly : Reads (n + 1) true (gateOnly bare)
    (after (Bnf.word "only")
      ((Listed IsName).seq fun allow => (after Bnf.dollar IsExpr).map (Expr.only allow))) inExpr :=
  reads_gate href Expr.only (by decide) (reads_wordList href) rfl

theorem reads_gateRename : Reads (n + 1) true (gateRename bare)
    (after (Bnf.word "rename") (IsName.seq fun source => IsName.seq fun target =>
      (after Bnf.dollar IsExpr).map (Expr.rename source target))) inExpr := by
  have hname : Reads (n + 1) true tPlainWord IsName fun _ => false := reads_tPlainWord
  have htarget := fun source => hname.bind
    (fun target => (reads_gateBody href).map (Expr.rename source target)) nofun
    fun _ => follows_closed _
  have hsource := hname.bind htarget nofun fun _ => follows_closed _
  exact (reads_behindKw (by decide) hsource).mono (Nat.le_succ _)

/-! ## The items of `with` -/

omit href in
theorem startsWith_moreExprs (acc : List Expr) :
    StartsWith (Nt.moreExprs bare acc).phrase fun t => t == Bnf.comma := by
  rintro ts v ⟨es, hne, ⟨ts', rfl, hes⟩, -⟩
  cases hes with
  | nil => exact absurd rfl hne
  | cons h rest => exact starts_cons.mpr rfl

omit href in
/-- Neither a closing parenthesis nor a comma goes on with an expression. -/
theorem closes_expr (t : Token) (ht : (t == rparen || t == Bnf.comma) = true) :
    inExpr t = false := by
  rcases Bool.or_eq_true_iff.mp ht with ht | ht
  · exact only_token rfl t ht
  · exact only_token rfl t ht

/-- The providers of a tuple behind its first, up to the closing parenthesis. -/
theorem reads_moreExprsAcc (acc : List Expr) : Reads (n + 1) true (moreExprsAcc bare acc)
    (Nt.moreExprs bare acc).phrase fun _ => false := by
  have hitem : Reads (n + 1) true (keepRight (tByte comma) (exprL bare .normal))
      (after Bnf.comma IsExpr) inExpr := reads_behind (by decide) (reads_exprL href)
  have hclose : ∀ es : List Expr, Reads n true (.map (tByte closeParen) fun _ => es : P _)
      ((single fun t (_ : Unit) => t = rparen).map fun _ => es) (fun _ => false) ∧
      StartsWith ((single fun t (_ : Unit) => t = rparen).map fun _ => es) fun t => t == rparen :=
    fun es => reads_map ⟨reads_tByte (by decide), startsWith_single fun t _ ht => beq_iff_eq.mpr ht⟩ _
  have hrest := fun extra => Reads.either (hclose (acc ++ [extra]))
    ⟨href (.moreExprs bare (acc ++ [extra])), startsWith_moreExprs _⟩ (only_token rfl)
  apply (hitem.bind_shorter (startsWith_after _ _).nonempty hrest ?_).congr
  · intro ts v
    constructor
    · rintro ⟨-, ts₂, extra, rfl, ⟨ts₁, rfl, he⟩,
        (⟨-, ⟨t, rfl, rfl⟩, rfl⟩ | ⟨es, hne, ⟨ts', rfl, hes⟩, rfl⟩)⟩
      · have hone : More IsExpr (Bnf.comma :: (ts₁ ++ [])) [extra] := .cons he .nil
        exact ⟨[extra], List.cons_ne_nil _ _, ⟨_, by simp, hone⟩, rfl⟩
      · exact ⟨extra :: es, List.cons_ne_nil _ _, ⟨_, by simp, .cons he hes⟩, by simp⟩
    · rintro ⟨es, hne, ⟨ts', rfl, hes⟩, rfl⟩
      cases hes with
      | nil => exact absurd rfl hne
      | cons h rest =>
        cases rest with
        | nil => exact ⟨_, [rparen], _, by simp, ⟨_, rfl, h⟩, Or.inl ⟨(), ⟨_, rfl, rfl⟩, rfl⟩⟩
        | cons h' rest' =>
          refine ⟨_, _, _, ?_, ⟨_, rfl, h⟩,
            Or.inr ⟨_, List.cons_ne_nil _ _, ⟨_, rfl, .cons h' rest'⟩, by simp⟩⟩
          simp
  · exact fun extra => ((hclose _).2.or (startsWith_moreExprs _)).follows closes_expr _

omit href in
/-- So many further names, behind those in `acc`. -/
theorem reads_repVecFrom {goes : Token → Bool} (k : ℕ) (acc : List Str) :
    Reads (n + 1) true (repVecFrom (keepRight (tByte comma) tPlainWord) k acc)
      (fun ts v => ∃ names, More IsName ts names ∧ names.length = k ∧ v = acc ++ names) goes := by
  induction k generalizing acc with
  | zero =>
    apply (Reads.pure acc).congr
    intro ts v
    constructor
    · rintro ⟨rfl, rfl⟩
      exact ⟨[], .nil, rfl, (List.append_nil _).symm⟩
    · rintro ⟨names, hnames, hlen, rfl⟩
      obtain rfl := List.length_eq_zero_iff.mp hlen
      cases hnames
      exact ⟨rfl, List.append_nil _⟩
  | succ k ih =>
    have hitem : Reads (n + 1) true (keepRight (tByte comma) tPlainWord)
        (after Bnf.comma IsName) fun _ => false := reads_behind (by decide) reads_tPlainWord
    apply (hitem.bind (fun name => ih (acc ++ [name])) nofun fun _ => follows_closed _).congr
    intro ts v
    constructor
    · rintro ⟨-, ts₂, name, rfl, ⟨ts₁, rfl, hname⟩, names, hnames, rfl, rfl⟩
      exact ⟨name :: names, .cons hname hnames, rfl, by simp⟩
    · rintro ⟨names, hnames, hlen, rfl⟩
      cases hnames with
      | nil => cases hlen
      | cons h rest =>
        exact ⟨_, _, _, by simp, ⟨_, rfl, h⟩, _, rest, Nat.succ_inj.mp hlen, by simp⟩

omit href in
theorem reads_behindTwo {α : Type} {first second : P Unit} {tok tok' : Token} {p : P α}
    {D : Phrase Token α} {goes : Token → Bool}
    (h : Reads n true first (single fun t _ => t = tok) fun _ => false)
    (h' : Reads n true second (single fun t _ => t = tok') fun _ => false)
    (hp : Reads n true p D goes) :
    Reads n true (keepRight (andThen first second) p) (after tok (after tok' D)) goes := by
  have hboth := h.bind (fun _ => h') nofun fun _ => follows_closed _
  apply (hboth.bind (fun _ => hp) nofun fun _ => follows_closed _).congr
  intro ts v
  constructor
  · rintro ⟨-, ts', -, rfl, ⟨-, -, -, rfl, ⟨t, rfl, rfl⟩, t', rfl, rfl⟩, hv⟩
    exact ⟨_, rfl, ts', rfl, hv⟩
  · rintro ⟨-, rfl, ts', rfl, hv⟩
    exact ⟨[tok, tok'], ts', (), rfl, ⟨[tok], [tok'], (), rfl, ⟨_, rfl, rfl⟩, _, rfl, rfl⟩, hv⟩

omit href in
/-- The slots of a tuple of `k` providers. -/
theorem reads_slotTuple {goes : Token → Bool} (k : ℕ) : Reads (n + 1) true (slotTuple k)
    (before (after (Bnf.word "as") (after lparen fun ts v =>
      Listed IsName ts v ∧ v.length - 1 = k - 1)) rparen) goes := by
  have hfirst : Reads (n + 1) true tPlainWord IsName fun _ => false := reads_tPlainWord
  have hnames : Reads (n + 1) true (.bind tPlainWord fun first =>
      .map (repVec (k - 1) (keepRight (tByte comma) tPlainWord)) fun rest => first :: rest)
      (fun ts v => Listed IsName ts v ∧ v.length - 1 = k - 1) fun _ => false := by
    apply (hfirst.bind (fun first => (reads_repVecFrom (k - 1) []).map (first :: ·)) nofun
      fun _ => follows_closed _).congr
    intro ts v
    rw [listed_iff]
    constructor
    · rintro ⟨ts₁, ts₂, first, rfl, ha, rest, ⟨names, hnames, hlen, hrest⟩, rfl⟩
      obtain rfl : rest = names := hrest
      exact ⟨⟨_, _, _, rfl, ha, rest, hnames, rfl⟩, hlen⟩
    · rintro ⟨⟨ts₁, ts₂, first, rfl, ha, names, hnames, rfl⟩, hlen⟩
      exact ⟨_, _, _, rfl, ha, names, ⟨names, hnames, hlen, rfl⟩, rfl⟩
  have has : Reads (n + 1) true (tKw "as" .keyword) (single fun t _ => t = Bnf.word "as")
      fun _ => false := reads_tKw (by decide)
  have hparen : Reads (n + 1) true (tByte openParen) (single fun t _ => t = lparen)
      fun _ => false := reads_tByte (by decide)
  exact (reads_behindTwo has hparen hnames).before (reads_tByte (by decide)) nofun rfl

theorem reads_withItem {goes : Token → Bool} :
    Reads (n + 1) true (withItem bare) (IsItem IsExpr) goes := by
  have hname : ∀ {m : ℕ}, Reads m true tPlainWord IsName goes := reads_tPlainWord
  have has : ∀ {m : ℕ}, Reads m true (tKw "as" .keyword) (single fun t _ => t = Bnf.word "as")
      fun _ => false := reads_tKw (by decide)
  have hclose : Reads n true (tByte closeParen) (single fun t _ => t = rparen) fun _ => false :=
    reads_tByte (by decide)
  -- what comes after the first provider in parentheses: a slot, or the rest of a tuple
  have hone := fun first => (reads_behindTwo hclose has hname).map fun slot =>
    [WithBinding.mk first slot]
  have hmore : Reads n true (moreExprs bare) (Nt.moreExprs bare []).phrase fun _ => false :=
    (reads_moreExprsAcc href []).mono (Nat.le_succ n)
  have hslots : ∀ k, Reads n true (slotTuple k) (before (after (Bnf.word "as") (after lparen
      fun ts v => Listed IsName ts v ∧ v.length - 1 = k - 1)) rparen) goes :=
    fun k => (reads_slotTuple k).mono (Nat.le_succ n)
  have htuple := fun first : Expr => hmore.bind
    (fun rest => (hslots (rest.length + 1)).map (List.zipWith WithBinding.mk (first :: rest)))
    nofun fun _ => follows_closed _
  have hrest := fun first => Reads.either
    ⟨hone first, (startsWith_after _ _).map _⟩ ⟨htuple first, (startsWith_moreExprs _).seq⟩
    (only_token rfl)
  have hparen : Reads (n + 1) true _ (after lparen _) goes := reads_behind (b := openParen)
    (by decide) ((reads_exprL href).bind hrest nofun fun first => (((startsWith_after _ _).map _).or (startsWith_moreExprs _).seq).follows
      closes_expr _)
  have hslot : Reads (n + 1) true (keepRight (tKw "as" .keyword) tPlainWord)
      (after (Bnf.word "as") IsName) goes := reads_behindKw (by decide) hname
  have hplain := (reads_providerNoParen href).bind
    (fun provider => hslot.map fun slot => [WithBinding.mk provider slot]) nofun
    fun provider => ((startsWith_after _ _).map _).follows (only_token rfl) _
  apply (Reads.either ⟨hparen, startsWith_after _ _⟩ ⟨hplain, startsWith_isAmp.seq⟩ ?_).congr
  · intro ts v
    constructor
    · rintro (⟨-, rfl, ts₁, ts₂, first, rfl, he, h⟩ |
        ⟨ts₁, -, provider, rfl, hp, slot, ⟨ts', rfl, hslot⟩, rfl⟩)
      · rcases h with ⟨slot, ⟨-, rfl, ts', rfl, hslot⟩, rfl⟩ |
          ⟨-, -, rest, rfl, ⟨es, hne, ⟨w, rfl, hes⟩, hrest⟩, slots,
            ⟨-, rfl, -, rfl, y, rfl, hslots, hlen⟩, rfl⟩
        · exact .paren he hslot
        · obtain rfl : rest = es := hrest
          have hpos := hslots.length_pos
          have htwo : 2 ≤ (first :: rest).length :=
            Nat.succ_le_succ (List.length_pos_iff.mpr hne)
          have htuple : IsItem IsExpr _ _ := .tuple (listed_iff.mpr
            ⟨ts₁, w, first, rfl, he, rest, hes, rfl⟩) htwo hslots
            (by rw [List.length_cons]; omega)
          simpa using htuple
      · exact .plain hp hslot
    · intro h
      cases h with
      | paren h hslot =>
        exact Or.inl ⟨_, rfl, _, _, _, rfl, h, Or.inl ⟨_, ⟨_, rfl, _, rfl, hslot⟩, rfl⟩⟩
      | @tuple ts ts' es slots h htwo hslots hlength =>
        obtain ⟨ts₁, w, first, rfl, he, rest, hes, rfl⟩ := listed_iff.mp h
        refine Or.inl ⟨_, rfl, ts₁, _, first, ?_, he, Or.inr ⟨_, _, rest, rfl,
          ⟨rest, ?_, ⟨w, rfl, hes⟩, rfl⟩, slots, ⟨_, rfl, _, rfl, ts', rfl, hslots, ?_⟩, rfl⟩⟩
        · simp
        · exact List.length_pos_iff.mp (Nat.le_of_succ_le_succ htwo)
        · rw [hlength, List.length_cons]
      | plain h hslot => exact Or.inr ⟨_, _, _, rfl, h, _, ⟨_, rfl, hslot⟩, rfl⟩
  · exact only_token rfl

/-- The items behind those in `acc`. -/
theorem reads_withItemsRest (acc : List WithBinding) :
    Reads (n + 1) true (withItemsRest bare acc)
      ((More (IsItem IsExpr)).map fun items => acc ++ items.flatten) inList := by
  have hitem : Reads (n + 1) true (keepRight (tByte comma) (withItem bare))
      (after Bnf.comma (IsItem IsExpr)) fun _ => false :=
    reads_behind (by decide) ((reads_withItem href).mono (Nat.le_succ n))
  apply hitem.rest (startsWith_after _ _)
    (fun more => href (.withItemsRest bare (acc ++ more)))
    (fun _ => follows_closed _) fun _ ht => ht
  intro ts v
  rw [more_map_iff]
  simp only [List.flatten_nil, List.append_nil, Nt.phrase, List.append_assoc, List.flatten_cons]

theorem reads_withItems : Reads (n + 1) true (withItems bare)
    ((Listed (IsItem IsExpr)).map List.flatten) inList := by
  have hfirst : Reads (n + 1) true (withItem bare) (IsItem IsExpr) fun _ => false :=
    reads_withItem href
  apply (hfirst.bind (reads_withItemsRest href) nofun fun _ => follows_closed _).congr
  intro ts v
  constructor
  · rintro ⟨ts₁, ts₂, first, rfl, h, items, hitems, rfl⟩
    exact ⟨first :: items, listed_iff.mpr ⟨_, _, _, rfl, h, items, hitems, rfl⟩, rfl⟩
  · rintro ⟨items, h, rfl⟩
    obtain ⟨ts₁, ts₂, first, rfl, hitem, more, hmore, rfl⟩ := listed_iff.mp h
    exact ⟨_, _, _, rfl, hitem, more, hmore, rfl⟩

theorem reads_gateWith : Reads (n + 1) true (gateWith bare)
    (after (Bnf.word "with") (((Listed (IsItem IsExpr)).map List.flatten).seq fun bindings =>
      (after Bnf.dollar IsExpr).map (Expr.with bindings))) inExpr :=
  reads_gate href Expr.with (by decide) (reads_withItems href) rfl

/-! ## Expressions -/

/-- An `&` expression and its consumer, when it has one. -/
theorem reads_composed (pos : Pos) :
    Reads (n + 1) true (.bind (amp bare pos) fun left => .alt [
      .pure left,
      .map (keepRight (tByte dollar) (exprL bare .normal)) fun consumer =>
        .compose left consumer]) (Composed pos.start) inExpr := by
  have hconsumer : ∀ left, Reads (n + 1) true (.alt [
      .pure left,
      .map (keepRight (tByte dollar) (exprL bare .normal)) fun consumer =>
        .compose left consumer]) (fun ts v => (ts = [] ∧ v = left) ∨
          (after Bnf.dollar IsExpr).map (Expr.compose left) ts v) inExpr :=
    fun left => ((reads_gateBody href).map (Expr.compose left)).alt_pure
      ((startsWith_after _ _).map _) fun t ht => by rw [eq_of_beq ht]; rfl
  apply (reads_amp href pos).bind hconsumer nofun
  rintro left ts v r (⟨rfl, -⟩ | h) hr t ht
  · by_contra hne
    have hstop := hr t ht
    rw [inExpr_of_inAmp (Bool.eq_true_of_not_eq_false hne)] at hstop
    cases hstop
  · exact ((startsWith_after _ _).map _).follows (only_token rfl) (Stops inExpr) ts v r h hr t ht

/-- An expression is a gate or an `&` expression with or without a consumer. -/
theorem reads_expr (pos : Pos) :
    Reads (n + 1) true (expr bare pos) (IsExprWith IsExpr pos.start) inExpr := by
  have hall : ∀ x ∈ [
      (gateOnly bare, after (Bnf.word "only")
        ((Listed IsName).seq fun allow => (after Bnf.dollar IsExpr).map (Expr.only allow)),
        fun t => t == Bnf.word "only"),
      (gateRename bare, after (Bnf.word "rename") (IsName.seq fun source => IsName.seq
        fun target => (after Bnf.dollar IsExpr).map (Expr.rename source target)),
        fun t => t == Bnf.word "rename"),
      (gateWith bare, after (Bnf.word "with") (((Listed (IsItem IsExpr)).map List.flatten).seq
        fun bindings => (after Bnf.dollar IsExpr).map (Expr.with bindings)),
        fun t => t == Bnf.word "with"),
      (.bind (amp bare pos) fun left => .alt [
        .pure left,
        .map (keepRight (tByte dollar) (exprL bare .normal)) fun consumer =>
          .compose left consumer], Composed pos.start, startsHead pos.start)],
      Reads (n + 1) true x.1 x.2.1 inExpr ∧ StartsWith x.2.1 x.2.2 := by
    simp only [List.forall_mem_cons, List.not_mem_nil, false_implies, implies_true, and_true]
    exact ⟨⟨reads_gateOnly href, startsWith_after _ _⟩,
      ⟨reads_gateRename href, startsWith_after _ _⟩, ⟨reads_gateWith href, startsWith_after _ _⟩,
      ⟨reads_composed href pos, startsWith_isAmp.seq⟩⟩
  apply (Reads.alt_starts _ hall ?_).congr
  · intro ts v
    constructor
    · rintro ⟨D, hD, hv⟩
      simp only [List.map_cons, List.map_nil, List.mem_cons, List.not_mem_nil, or_false] at hD
      rcases hD with rfl | rfl | rfl | rfl
      · obtain ⟨-, rfl, ts₁, -, allow, rfl, h, body, ⟨ts₂, rfl, hbody⟩, rfl⟩ := hv
        exact .gate (.only h hbody)
      · obtain ⟨-, rfl, ts₁, -, source, rfl, h, ts₂, -, target, rfl, h', body,
          ⟨ts₃, rfl, hbody⟩, rfl⟩ := hv
        exact .gate (.rename h h' hbody)
      · obtain ⟨-, rfl, ts₁, -, -, rfl, ⟨items, h, rfl⟩, body, ⟨ts₂, rfl, hbody⟩, rfl⟩ := hv
        exact .gate (.with h hbody)
      · obtain ⟨ts₁, ts₂, left, rfl, h, (⟨rfl, rfl⟩ | ⟨consumer, ⟨ts', rfl, h'⟩, rfl⟩)⟩ := hv
        · rw [List.append_nil]
          exact .amp h
        · exact .compose h h'
    · intro h
      cases h with
      | gate h =>
        cases h with
        | only h hbody =>
          exact ⟨_, .head _, _, rfl, _, _, _, rfl, h, _, ⟨_, rfl, hbody⟩, rfl⟩
        | rename h h' hbody =>
          exact ⟨_, .tail _ (.head _), _, rfl, _, _, _, rfl, h, _, _, _, rfl, h', _,
            ⟨_, rfl, hbody⟩, rfl⟩
        | «with» h hbody =>
          exact ⟨_, .tail _ (.tail _ (.head _)), _, rfl, _, _, _, rfl, ⟨_, h, rfl⟩, _,
            ⟨_, rfl, hbody⟩, rfl⟩
      | amp h =>
        exact ⟨_, .tail _ (.tail _ (.tail _ (.head _))), ts, [], v, by simp, h,
          Or.inl ⟨rfl, rfl⟩⟩
      | compose h h' =>
        exact ⟨_, .tail _ (.tail _ (.tail _ (.head _))), _, _, _, rfl, h,
          Or.inr ⟨_, ⟨_, rfl, h'⟩, rfl⟩⟩
  · simp only [List.map_cons, List.map_nil, List.pairwise_cons, List.mem_cons, List.not_mem_nil,
      or_false, forall_eq_or_imp, forall_eq, false_implies, implies_true, List.Pairwise.nil,
      and_true]
    refine ⟨⟨?_, ?_, ?_⟩, ⟨?_, ?_⟩, ?_⟩
    all_goals apply only_token
    all_goals cases pos <;> rfl

/-- A production without a vocabulary. -/
theorem reads_production {α : Type} (m : Nt α) :
    Reads (n + 1) true (production m.strip) m.phrase m.goes := by
  cases m with
  | expr cx pos => exact reads_expr href pos
  | starArgs cx acc => exact reads_starArgsFrom href acc
  | starArgsKnown cx program acc => exact reads_starArgsFrom href acc
  | ampRest cx acc => exact reads_ampRest href acc
  | wordListRest acc => exact reads_wordListRest href acc
  | withItemsRest cx acc => exact reads_withItemsRest href acc
  | moreExprs cx acc => exact reads_moreExprsAcc href acc

end Step

/-- Every production reads its phrase, by induction on the length of what it reads. -/
theorem reads_strip (n : ℕ) :
    ∀ {α : Type} (m : Nt α), Reads n true (.lazy m.strip : P α) m.phrase m.goes := by
  induction n with
  | zero => exact fun m => .zero
  | succ n ih => exact fun m => .lazy (reads_production ih m)

end Grammar

end Eo9.Eosh
