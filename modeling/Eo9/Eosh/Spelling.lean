import Eo9.Eosh.Eval
import Eo9.Eosh.Lines

/-!
# Suggested spellings

The refusal of an operand of `&` suggests a line, in which the operands are spelled
again. A spelling puts quotes around a quoted text and escapes nothing in it, so the
line stands for the operands exactly when no text of theirs needs an escape.
-/

namespace Eo9.Eosh

open Eo9.Library Eo9.Eosh.Bnf

/-! ## What the parser produces -/

def ArgValue.program : ArgValue → Option Expr
  | .expr e => some e
  | _ => none

def Arg.value : Arg → ArgValue
  | .flag _ value => value
  | .positional value => value

def WithBinding.provider : WithBinding → Expr
  | .mk provider _ => provider

/-- The expressions right inside an expression. -/
def Expr.children : Expr → List Expr
  | .name _ => []
  | .app callee args => callee :: args.filterMap fun arg => arg.value.program
  | .compose provider consumer => [provider, consumer]
  | .extend base layer => [base, layer]
  | .only _ body => [body]
  | .rename _ _ body => [body]
  | .with bindings body => body :: bindings.map (·.provider)

/-- An expression inside another, at any depth. -/
inductive Expr.Part (e : Expr) : Expr → Prop where
  | refl : Expr.Part e e
  | inside {child whole : Expr} (h : child ∈ whole.children) (hpart : Expr.Part e child) :
      Expr.Part e whole

/-- The expressions of a command. -/
def Command.exprs : Command → List Expr
  | .let _ expr => [expr]
  | .save _ expr => [expr]
  | .run expr => [expr]
  | .describe expr => [expr]
  | .imports expr => [expr]
  | .envOf expr => [expr]
  | .detach _ expr policy => [expr, policy]
  | _ => []

/-- The expressions that the shell's parser produces, from a line on its own or in a
command, and what is inside them. -/
def Produced [ApiDocs] (e : Expr) : Prop :=
  (∃ line whole, parseExpr line = .ok (.ok whole) ∧ e.Part whole) ∨
  ∃ line c, parseCommand line = .ok (.ok c) ∧ ∃ whole ∈ c.exprs, e.Part whole

/-! ## Tokens of a well-formed line -/

/-- What a token of a well-formed line is. -/
def Token.WellFormed : Token → Prop
  | .word w => BareWord w ∧ Utf8.Valid w
  | .flag name => FlagWord name ∧ Utf8.Valid name
  | .quoted text => Utf8.Valid text
  | .compound raw => CompoundText raw ∧ Utf8.Valid raw
  | .punct _ => True

theorem Token.wellFormed {tok : Token} {text : Str} (h : tok.Spelled id text)
    (hv : Utf8.Valid text) : tok.WellFormed := by
  cases tok with
  | word w =>
    obtain ⟨hw, rfl⟩ := h
    exact ⟨hw, hv⟩
  | flag name =>
    obtain ⟨n, rfl, hn, rfl⟩ := h
    have hdashes : ∀ b ∈ [dash.1, dash.1], b < 0x80 := by decide
    exact ⟨hn, (Utf8.valid_behind_ascii hdashes).mp hv⟩
  | quoted t =>
    obtain ⟨raw, ⟨w, rfl, hw⟩, rfl⟩ := h
    have hquote : ∀ b ∈ [ch '\"'], b < 0x80 := by decide
    have hclosed := (Utf8.valid_behind_ascii hquote).mp hv
    have hvalid := (Utf8.valid_split (b := ch '\"') (by decide)).mp hclosed
    exact (hw.scan none trivial).symm.trans hvalid.1
  | compound raw =>
    obtain ⟨hw, rfl⟩ := h
    exact ⟨hw, hv⟩
  | punct b => trivial

theorem Lexes.wellFormed {w : Str} {i : Input} {ts : List Token} (h : Lexes id w i ts)
    (hv : Utf8.Valid w) : ∀ t ∈ ts, t.WellFormed := by
  induction h with
  | nil => exact fun _ ht => absurd ht List.not_mem_nil
  | cons hgap hspelled hbounded hrest ih =>
    have hascii := fun b hb => isWs_lt (hgap b hb)
    have hcut := Token.valid_cut hspelled hbounded ((Utf8.valid_behind_ascii hascii).mp hv)
    exact List.forall_mem_cons.mpr ⟨Token.wellFormed hspelled hcut.1, ih hcut.2⟩

theorem LineTokens.wellFormed {line : Text} {ts : List Token} (h : LineTokens id line.bytes ts) :
    ∀ t ∈ ts, t.WellFormed := by
  obtain ⟨text, t, hline, hts, ht⟩ := h
  have hvalid := line.valid
  rw [hline] at hvalid
  exact hts.wellFormed (ht.valid_text hvalid)

/-! ## The parts of an expression -/

/-- The expression is written with tokens of `ts`. -/
def Covered (ts : List Token) (e : Expr) : Prop := ∃ ts', ts' ⊆ ts ∧ IsExpr ts' e

theorem Covered.mono {ts ts' : List Token} {e : Expr} (h : Covered ts e) (hsub : ts ⊆ ts') :
    Covered ts' e := by
  obtain ⟨us, hus, he⟩ := h
  exact ⟨us, List.Subset.trans hus hsub, he⟩

theorem Bnf.Start.reserved_subset (start : Start) : reserved ⊆ start.excluded := by
  cases start <;> decide

namespace Bnf

variable {start : Start} {ts : List Token} {e : Expr}

theorem IsPrimary.any (h : IsPrimary IsExpr start ts e) : IsPrimary IsExpr .any ts e := by
  cases h with
  | word h => exact .word fun hmem => h (start.reserved_subset hmem)
  | compound => exact .compound
  | paren hstart h => exact .paren nofun h

theorem IsApp.any (h : IsApp IsExpr start ts e) : IsApp IsExpr .any ts e := by
  cases h with
  | mk h args => exact .mk h.any args

theorem IsAmp.any (h : IsAmp IsExpr start ts e) : IsAmp IsExpr .any ts e := by
  induction h with
  | app h => exact .app h.any
  | extend h hlayer ih => exact .extend ih hlayer

theorem IsApp.isExpr (h : IsApp IsExpr start ts e) : IsExpr ts e := .mk (.amp (.app h.any))

theorem IsAmp.isExpr (h : IsAmp IsExpr start ts e) : IsExpr ts e := .mk (.amp h.any)

theorem IsPrimary.isExpr (h : IsPrimary IsExpr start ts e) : IsExpr ts e := by
  have happ := IsApp.mk h .nil
  rw [List.append_nil] at happ
  exact happ.isExpr

theorem IsExprWith.isExpr (h : IsExprWith IsExpr start ts e) : IsExpr ts e := by
  cases h with
  | gate h => exact .mk (.gate h)
  | amp h => exact h.isExpr
  | compose h hconsumer => exact .mk (.compose h.any hconsumer)

end Bnf

theorem Bnf.IsExpr.covered {ts : List Token} {e : Expr} (h : IsExpr ts e) : Covered ts e :=
  ⟨ts, List.Subset.refl ts, h⟩

theorem Bnf.IsArgs.covered {ts : List Token} {as : List Arg} (h : IsArgs IsExpr ts as) {a : Arg}
    (ha : a ∈ as) {e : Expr} (he : a.value.program = some e) : Covered ts e := by
  have hvalue : ∀ {ts : List Token} {v : ArgValue}, IsValue IsExpr ts v → v.program = some e →
      Covered ts e := by
    intro ts v h hv
    cases h with
    | paren h =>
      cases hv
      exact h.covered.mono fun t ht => by simp [ht]
    | _ => cases hv
  induction h with
  | nil => exact absurd ha List.not_mem_nil
  | cons h rest ih =>
    rcases List.mem_cons.mp ha with rfl | ha
    · cases h with
      | flag h => exact (hvalue h he).mono fun t ht => by simp [ht]
      | positional h => exact (hvalue h he).mono fun t ht => by simp [ht]
    · exact (ih ha).mono (List.subset_append_right _ _)

theorem Bnf.Listed.covered {ts : List Token} {es : List Expr} (h : Listed IsExpr ts es) {e : Expr}
    (he : e ∈ es) : Covered ts e := by
  induction h with
  | one h =>
    rw [List.mem_singleton.mp he]
    exact h.covered
  | cons h rest ih =>
    rcases List.mem_cons.mp he with rfl | he
    · exact h.covered.mono (List.subset_append_left _ _)
    · exact (ih he).mono fun t ht => by simp [ht]

/-- The providers of a tuple of bindings. -/
theorem mem_of_mem_zipWith {es : List Expr} {slots : List Str} {b : WithBinding}
    (h : b ∈ List.zipWith .mk es slots) : b.provider ∈ es := by
  induction es generalizing slots with
  | nil => cases h
  | cons e es ih =>
    cases slots with
    | nil => cases h
    | cons slot slots =>
      rcases List.mem_cons.mp h with rfl | h
      · exact List.mem_cons_self
      · exact List.mem_cons_of_mem _ (ih h)

theorem Bnf.IsItem.covered {ts : List Token} {bs : List WithBinding} (h : IsItem IsExpr ts bs)
    {b : WithBinding} (hb : b ∈ bs) : Covered ts b.provider := by
  cases h with
  | paren h hslot =>
    rw [List.mem_singleton.mp hb]
    exact h.covered.mono fun t ht => by simp [ht]
  | tuple h htwo hslots hlength =>
    have hprovider := mem_of_mem_zipWith hb
    exact (h.covered hprovider).mono fun t ht => by simp [ht]
  | plain h hslot =>
    rw [List.mem_singleton.mp hb]
    exact h.isExpr.covered.mono (List.subset_append_left _ _)

theorem Bnf.Listed.covered_items {ts : List Token} {items : List (List WithBinding)}
    (h : Listed (IsItem IsExpr) ts items) {b : WithBinding} (hb : b ∈ items.flatten) :
    Covered ts b.provider := by
  induction h with
  | one h =>
    rw [List.flatten_singleton] at hb
    exact h.covered hb
  | cons h rest ih =>
    rw [List.flatten_cons] at hb
    rcases List.mem_append.mp hb with hb | hb
    · exact (h.covered hb).mono (List.subset_append_left _ _)
    · exact (ih hb).mono fun t ht => by simp [ht]

/-- What is right inside an expression is written with its tokens. The expression may be
in parentheses, so the induction is on the number of tokens. -/
theorem Bnf.IsExpr.child {n : ℕ} {ts : List Token} {e child : Expr} (h : IsExpr ts e)
    (hn : ts.length < n) (hchild : child ∈ e.children) : Covered ts child := by
  induction n generalizing ts e with
  | zero => exact absurd hn (Nat.not_lt_zero _)
  | succ n ih =>
    have happ : ∀ {start : Start} {ts' : List Token} {e : Expr}, ts'.length ≤ ts.length →
        IsApp IsExpr start ts' e → child ∈ e.children → Covered ts' child := by
      intro start ts' e hle h hchild
      cases h with
      | @mk ts₁ ts₂ e as h args =>
        by_cases has : as.isEmpty = true
        · rw [applied, if_pos has] at hchild
          refine Covered.mono ?_ (List.subset_append_left _ _)
          cases h with
          | paren hstart h =>
            simp only [List.length_append, List.length_cons] at hle
            exact (ih h (by omega) hchild).mono fun t ht => by simp [ht]
          | _ => exact absurd hchild List.not_mem_nil
        · rw [applied, if_neg has] at hchild
          rcases List.mem_cons.mp hchild with rfl | hchild
          · exact h.isExpr.covered.mono (List.subset_append_left _ _)
          · obtain ⟨a, ha, hprogram⟩ := List.mem_filterMap.mp hchild
            exact (args.covered ha hprogram).mono (List.subset_append_right _ _)
    have hamp : ∀ {start : Start} {ts' : List Token} {e : Expr}, ts'.length ≤ ts.length →
        IsAmp IsExpr start ts' e → child ∈ e.children → Covered ts' child := by
      intro start ts' e hle h hchild
      cases h with
      | app h => exact happ hle h hchild
      | extend h hlayer =>
        simp only [Expr.children, List.mem_cons, List.not_mem_nil, or_false] at hchild
        rcases hchild with rfl | rfl
        · exact h.isExpr.covered.mono (List.subset_append_left _ _)
        · exact hlayer.isExpr.covered.mono fun t ht => by simp [ht]
    obtain ⟨h⟩ := h
    cases h with
    | gate h =>
      cases h with
      | only h hbody =>
        rw [List.mem_singleton.mp hchild]
        exact hbody.covered.mono fun t ht => by simp [ht]
      | rename hsource htarget hbody =>
        rw [List.mem_singleton.mp hchild]
        exact hbody.covered.mono fun t ht => by simp [ht]
      | «with» h hbody =>
        rcases List.mem_cons.mp hchild with rfl | hchild
        · exact hbody.covered.mono fun t ht => by simp [ht]
        · obtain ⟨b, hb, rfl⟩ := List.mem_map.mp hchild
          exact (h.covered_items hb).mono fun t ht => by simp [ht]
    | amp h => exact hamp (Nat.le_refl _) h hchild
    | compose h hconsumer =>
      simp only [Expr.children, List.mem_cons, List.not_mem_nil, or_false] at hchild
      rcases hchild with rfl | rfl
      · exact h.isExpr.covered.mono (List.subset_append_left _ _)
      · exact hconsumer.covered.mono fun t ht => by simp [ht]

theorem Covered.part {ts : List Token} {e whole : Expr} (h : Covered ts whole)
    (hpart : e.Part whole) : Covered ts e := by
  induction hpart generalizing ts with
  | refl => exact h
  | inside hchild hpart ih =>
    obtain ⟨ts', hsub, hwhole⟩ := h
    exact ih ((hwhole.child (Nat.lt_succ_self _) hchild).mono hsub)

theorem Bnf.IsCommand.covered {ts : List Token} {c : Command} (h : IsCommand ts c) {e : Expr}
    (he : e ∈ c.exprs) : Covered ts e := by
  have hone : ∀ {ts' : List Token} {e' : Expr}, IsExpr ts' e' → ts' ⊆ ts → e ∈ [e'] →
      Covered ts e := by
    intro ts' e' h hsub he
    rw [List.mem_singleton.mp he]
    exact h.covered.mono hsub
  cases h with
  | «let» h he' => exact hone he' (fun t ht => by simp [ht]) he
  | save h he' => exact hone he' (fun t ht => by simp [ht]) he
  | detach h hprogram hpolicy =>
    rcases List.mem_cons.mp he with rfl | he
    · exact hprogram.covered.mono fun t ht => by simp [ht]
    · exact hone hpolicy (fun t ht => by simp [ht]) he
  | envOf h => exact hone h (List.subset_cons_self _ _) he
  | describe h => exact hone h (List.subset_cons_self _ _) he
  | imports h => exact hone h (List.subset_cons_self _ _) he
  | run h => exact hone h.isExpr (List.Subset.refl _) he
  | describeCard h =>
    rw [card] at he
    split_ifs at he <;> exact absurd he List.not_mem_nil
  | _ => exact absurd he List.not_mem_nil

/-- An expression that the parser produces is written with tokens of a well-formed line. -/
theorem Produced.tokens [ApiDocs] {e : Expr} (h : Produced e) :
    ∃ ts, IsExpr ts e ∧ ∀ t ∈ ts, t.WellFormed := by
  have hcovered : ∃ ts, Covered ts e ∧ ∀ t ∈ ts, t.WellFormed := by
    rcases h with ⟨line, whole, hparse, hpart⟩ | ⟨line, c, hparse, whole, hwhole, hpart⟩
    · obtain ⟨ts, hts, he⟩ := parseExpr_iff.mp hparse
      exact ⟨ts, he.covered.part hpart, hts.wellFormed⟩
    · obtain ⟨ts, hts, hc⟩ := parseCommand_iff.mp hparse
      exact ⟨ts, (hc.isCommand.covered hwhole).part hpart, hts.wellFormed⟩
  obtain ⟨ts, ⟨ts', hsub, he⟩, hwell⟩ := hcovered
  exact ⟨ts', he, fun t ht => hwell t (hsub ht)⟩

/-! ## Quoted texts that need no escape -/

/-- A text that stands for itself between quotes. -/
def Verbatim (text : Str) : Prop := ch '\"' ∉ text ∧ ch '\\' ∉ text

theorem verbatim_nil : Verbatim [] := ⟨List.not_mem_nil, List.not_mem_nil⟩

theorem verbatim_cons {b : UInt8} {text : Str} :
    Verbatim (b :: text) ↔ (b ≠ ch '\"' ∧ b ≠ ch '\\') ∧ Verbatim text := by
  simp only [Verbatim, List.mem_cons, not_or, ne_comm]
  tauto

theorem Verbatim.unquotes {text : Str} (h : Verbatim text) : Unquotes text text := by
  induction text with
  | nil => exact .nil
  | cons b text ih =>
    obtain ⟨⟨hquote, hescape⟩, hrest⟩ := verbatim_cons.mp h
    exact .plain hquote hescape (ih hrest)

/-- Backslashes before a string never make it the text that the string stands for: the
text always ends first. -/
theorem Unquotes.not_shifted {w t r r' : Str} (h : Unquotes w t) (m : ℕ) :
    List.replicate (m + 1) (ch '\\') ++ (w ++ ch '\"' :: r) ≠ t ++ ch '\"' :: r' := by
  induction h generalizing m with
  | nil =>
    intro heq
    exact absurd (List.cons.inj heq).1 (by decide)
  | plain hquote hescape rest ih =>
    intro heq
    exact hescape (List.cons.inj heq).1.symm
  | @escape b c w t hb rest ih =>
    intro heq
    obtain ⟨rfl, htail⟩ := List.cons.inj heq
    obtain rfl : b = ch '\\' := by
      unfold unescape at hb
      split_ifs at hb with h₁ h₂
      · cases hb
      · exact h₂
      all_goals cases hb
    apply ih (m + 1)
    calc List.replicate (m + 2) (ch '\\') ++ (w ++ ch '\"' :: r)
        = List.replicate m (ch '\\') ++ (ch '\\' :: ch '\\' :: w ++ ch '\"' :: r) := by
          simp [List.replicate_succ']
      _ = t ++ ch '\"' :: r' := htail

/-- A quoted text that is read where the text itself stands needs no escape. -/
theorem Unquotes.verbatim {w t r r' : Str} (h : Unquotes w t)
    (heq : w ++ ch '\"' :: r = t ++ ch '\"' :: r') : Verbatim t ∧ w = t := by
  induction h with
  | nil => exact ⟨verbatim_nil, rfl⟩
  | plain hquote hescape rest ih =>
    obtain ⟨hverbatim, rfl⟩ := ih (List.cons.inj heq).2
    exact ⟨verbatim_cons.mpr ⟨⟨hquote, hescape⟩, hverbatim⟩, rfl⟩
  | @escape b c w t hb rest ih =>
    obtain ⟨rfl, htail⟩ := List.cons.inj heq
    obtain rfl : b = ch '\\' := by
      unfold unescape at hb
      split_ifs at hb with h₁ h₂
      · cases hb
      · exact h₂
      all_goals cases hb
    exact absurd htail (rest.not_shifted 0)

/-! ## Spelled arguments -/

/-- No quoted argument needs an escape. -/
def ArgValue.Verbatim : ArgValue → Prop
  | .quoted text => Eosh.Verbatim text
  | _ => True

/-- No quoted argument of an application needs an escape. -/
def Expr.Verbatim : Expr → Prop
  | .app _ args => ∀ a ∈ args, a.value.Verbatim
  | _ => True

/-- A value with a spelling is one token. -/
theorem Bnf.IsValue.token {ts : List Token} {v : ArgValue} {text : Str} (h : IsValue IsExpr ts v)
    (hv : valueSpelling v = some text) (hwell : ∀ t ∈ ts, t.WellFormed) :
    ∃ tok : Token, ts = [tok] ∧ (v.Verbatim → tok.Spelled id text) ∧
      (∃ b s, text = b :: s ∧ isWs b = false) ∧ ∀ {text' r r' : Str}, tok.Spelled id text' →
        text' ++ r = text ++ r' → v.Verbatim ∧ text' = text := by
  cases h with
  | word h =>
    obtain rfl := Option.some.inj hv
    have hspelled : (Token.word _).Spelled id _ := ⟨(hwell _ List.mem_cons_self).1, rfl⟩
    exact ⟨_, rfl, fun _ => hspelled, Token.head_spelled hspelled, fun h _ => ⟨trivial, h.2.symm⟩⟩
  | compound =>
    obtain rfl := Option.some.inj hv
    have hspelled : (Token.compound _).Spelled id _ := ⟨(hwell _ List.mem_cons_self).1, rfl⟩
    exact ⟨_, rfl, fun _ => hspelled, Token.head_spelled hspelled, fun h _ => ⟨trivial, h.2.symm⟩⟩
  | @quoted t =>
    obtain rfl := Option.some.inj hv
    refine ⟨.quoted t, rfl, fun h => ⟨t, ⟨t, rfl, Eosh.Verbatim.unquotes h⟩, rfl⟩,
      ⟨_, _, rfl, by decide⟩, ?_⟩
    rintro text' r r' ⟨raw, ⟨w, rfl, hw⟩, hraw⟩ heq
    obtain rfl : t = raw := hraw
    have hinside : w ++ ch '\"' :: r = t ++ ch '\"' :: r' := by simpa using heq
    obtain ⟨hverbatim, rfl⟩ := hw.verbatim hinside
    exact ⟨hverbatim, rfl⟩
  | paren h => cases hv

/-- What comes after a spelling ends the token before it. -/
theorem ends_argsSpelling {as : List Arg} {s rest : Str} {i : Input}
    (h : argsSpelling as = some s) (hi : Ends (ahead Input.ofByte i rest)) :
    Ends (ahead Input.ofByte i (s ++ rest)) := by
  cases as with
  | nil =>
    obtain rfl := Option.some.inj h
    exact hi
  | cons a as =>
    cases a <;>
      · simp only [argsSpelling, Option.bind_eq_bind, Option.bind_eq_some_iff,
          Option.pure_def, Option.some.injEq] at h
        obtain ⟨text, -, s', -, rfl⟩ := h
        exact (ends_ofByte _).mpr (by decide)

theorem Token.bounded_of_ends {tok : Token} {i : Input} (h : Ends i) : tok.Bounded i := by
  cases tok with
  | word w => exact h
  | flag name => exact h
  | _ => trivial

/-- The space before an argument. -/
theorem isWs_space : ∀ b ∈ [ch ' '], isWs b = true := by decide

theorem ends_space {i : Input} {rest : Str} : Ends (ahead Input.ofByte i (ch ' ' :: rest)) :=
  (ends_ofByte _).mpr (by decide)

/-- The first token, where a text begins with white space and something else. -/
theorem Lexes.first {tok : Token} {ts : List Token} {u t gap text r : Str} {i : Input}
    (h : Lexes id u i (tok :: ts)) (hgap : ∀ b ∈ gap, isWs b = true)
    (htext : ∃ b s, text = b :: s ∧ isWs b = false) (heq : u ++ t = gap ++ (text ++ r)) :
    ∃ text' u', tok.Spelled id text' ∧ tok.Bounded (ahead Input.ofByte i u') ∧
      Lexes id u' i ts ∧ text' ++ (u' ++ t) = text ++ r := by
  cases h with
  | @cons gap' text' u' _ _ _ hgap' hspelled hbounded hrest =>
    obtain ⟨b, s, rfl, hb⟩ := htext
    obtain ⟨b', s', rfl, hb'⟩ := Token.head_spelled hspelled
    rw [List.append_assoc, List.append_assoc] at heq
    obtain ⟨-, htail⟩ := eq_of_gaps hgap' hgap ⟨b', _, rfl, hb'⟩ ⟨b, _, rfl, hb⟩ heq
    exact ⟨_, u', hspelled, hbounded, hrest, htail⟩

/-- Arguments without escapes are read from their spelling. -/
theorem Bnf.IsArgs.lexes {ts : List Token} {as : List Arg} {s : Str} (h : IsArgs IsExpr ts as)
    (hwell : ∀ t ∈ ts, t.WellFormed) (hs : argsSpelling as = some s)
    (hverbatim : ∀ a ∈ as, a.value.Verbatim) {rest : Str} {i : Input} {more : List Token}
    (hends : Ends (ahead Input.ofByte i rest)) (hrest : Lexes id rest i more) :
    Lexes id (s ++ rest) i (ts ++ more) := by
  have hbehind : ∀ {tok : Token} {text rest : Str} {ts : List Token}, tok.Spelled id text →
      Ends (ahead Input.ofByte i rest) → Lexes id rest i ts →
      Lexes id (ch ' ' :: (text ++ rest)) i (tok :: ts) :=
    fun h hends hrest => .cons isWs_space h (Token.bounded_of_ends hends) hrest
  induction h generalizing s with
  | nil =>
    obtain rfl := Option.some.inj hs
    exact hrest
  | @cons ts₁ ts₂ a as h rest' ih =>
    obtain ⟨hwell₁, hwell₂⟩ := List.forall_mem_append.mp hwell
    obtain ⟨ha, has⟩ := List.forall_mem_cons.mp hverbatim
    cases h with
    | @flag name ts v h =>
      simp only [argsSpelling, Option.bind_eq_bind, Option.bind_eq_some_iff,
        Option.pure_def, Option.some.injEq] at hs
      obtain ⟨text, htext, s', hs', rfl⟩ := hs
      obtain ⟨hname, hwellValue⟩ := List.forall_mem_cons.mp hwell₁
      obtain ⟨tok, rfl, hspelled, -⟩ := h.token htext hwellValue
      have hvalue := hbehind (hspelled ha) (ends_argsSpelling hs' hends) (ih hwell₂ hs' has)
      have hflag : (Token.flag name).Spelled id (dash.1 :: dash.1 :: name) :=
        ⟨name, rfl, hname.1, rfl⟩
      have hall := hbehind hflag ends_space hvalue
      rw [show ascii " --" ++ name ++ ascii " " ++ text ++ s' ++ rest = ch ' ' ::
        (dash.1 :: dash.1 :: name ++ ch ' ' :: (text ++ (s' ++ rest))) by simp; rfl]
      exact hall
    | positional h =>
      simp only [argsSpelling, Option.bind_eq_bind, Option.bind_eq_some_iff,
        Option.pure_def, Option.some.injEq] at hs
      obtain ⟨text, htext, s', hs', rfl⟩ := hs
      obtain ⟨tok, rfl, hspelled, -⟩ := h.token htext hwell₁
      have hall := hbehind (hspelled ha) (ends_argsSpelling hs' hends) (ih hwell₂ hs' has)
      rw [show ascii " " ++ text ++ s' ++ rest = ch ' ' :: (text ++ (s' ++ rest)) by simp; rfl]
      exact hall

/-- Arguments that are read from their spelling are without escapes. -/
theorem Bnf.IsArgs.verbatim {ts : List Token} {as : List Arg} {s : Str} (h : IsArgs IsExpr ts as)
    (hwell : ∀ t ∈ ts, t.WellFormed) (hs : argsSpelling as = some s) {u t r : Str} {i : Input}
    {more : List Token} (hu : Lexes id u i (ts ++ more)) (heq : u ++ t = s ++ r) :
    (∀ a ∈ as, a.value.Verbatim) ∧ ∃ u', Lexes id u' i more ∧ u' ++ t = r := by
  induction h generalizing s u with
  | nil =>
    obtain rfl := Option.some.inj hs
    exact ⟨fun _ ha => absurd ha List.not_mem_nil, u, hu, heq⟩
  | @cons ts₁ ts₂ a as h rest ih =>
    obtain ⟨hwell₁, hwell₂⟩ := List.forall_mem_append.mp hwell
    cases h with
    | @flag name ts v h =>
      simp only [argsSpelling, Option.bind_eq_bind, Option.bind_eq_some_iff,
        Option.pure_def, Option.some.injEq] at hs
      obtain ⟨text, htext, s', hs', rfl⟩ := hs
      obtain ⟨hname, hwellValue⟩ := List.forall_mem_cons.mp hwell₁
      obtain ⟨tok, rfl, -, hhead, hback⟩ := h.token htext hwellValue
      have hsplit : u ++ t = [ch ' '] ++ (dash.1 :: dash.1 :: name ++
          ([ch ' '] ++ (text ++ (s' ++ r)))) := by
        rw [heq]
        simp
        rfl
      obtain ⟨text₁, u₁, ⟨n, rfl, -, hn⟩, -, hu₁, heq₁⟩ :=
        hu.first isWs_space ⟨_, _, rfl, by decide⟩ hsplit
      obtain rfl : name = n := hn
      have htail : u₁ ++ t = [ch ' '] ++ (text ++ (s' ++ r)) := List.append_cancel_left heq₁
      obtain ⟨text₂, u₂, hspelled, -, hu₂, heq₂⟩ := hu₁.first isWs_space hhead htail
      obtain ⟨hverbatim, rfl⟩ := hback hspelled heq₂
      obtain ⟨hall, hmore⟩ := ih hwell₂ hs' hu₂ (List.append_cancel_left heq₂)
      exact ⟨List.forall_mem_cons.mpr ⟨hverbatim, hall⟩, hmore⟩
    | positional h =>
      simp only [argsSpelling, Option.bind_eq_bind, Option.bind_eq_some_iff,
        Option.pure_def, Option.some.injEq] at hs
      obtain ⟨text, htext, s', hs', rfl⟩ := hs
      obtain ⟨tok, rfl, -, hhead, hback⟩ := h.token htext hwell₁
      have hsplit : u ++ t = [ch ' '] ++ (text ++ (s' ++ r)) := by
        rw [heq]
        simp
        rfl
      obtain ⟨text₁, u₁, hspelled, -, hu₁, heq₁⟩ := hu.first isWs_space hhead hsplit
      obtain ⟨hverbatim, rfl⟩ := hback hspelled heq₁
      obtain ⟨hall, hmore⟩ := ih hwell₂ hs' hu₁ (List.append_cancel_left heq₁)
      exact ⟨List.forall_mem_cons.mpr ⟨hverbatim, hall⟩, hmore⟩

theorem Bnf.IsArgs.valid_spelling {ts : List Token} {as : List Arg} {s : Str}
    (h : IsArgs IsExpr ts as) (hwell : ∀ t ∈ ts, t.WellFormed) (hs : argsSpelling as = some s) :
    Utf8.Valid s := by
  have hvalue : ∀ {ts : List Token} {v : ArgValue} {text : Str}, IsValue IsExpr ts v →
      (∀ t ∈ ts, t.WellFormed) → valueSpelling v = some text → Utf8.Valid text := by
    intro ts v text h hwell hv
    cases h with
    | word h =>
      obtain rfl := Option.some.inj hv
      exact (hwell _ List.mem_cons_self).2
    | compound =>
      obtain rfl := Option.some.inj hv
      exact (hwell _ List.mem_cons_self).2
    | @quoted t =>
      obtain rfl := Option.some.inj hv
      have ht : Utf8.Valid t := hwell _ List.mem_cons_self
      have hquote : Utf8.Valid [ch '\"'] := Utf8.valid_of_one (by decide)
      have hall : Utf8.Valid ([ch '\"'] ++ (t ++ [ch '\"'])) :=
        Utf8.valid_append hquote (Utf8.valid_append ht hquote)
      exact hall
    | paren h => cases hv
  induction h generalizing s with
  | nil =>
    obtain rfl := Option.some.inj hs
    rfl
  | cons h rest ih =>
    obtain ⟨hwell₁, hwell₂⟩ := List.forall_mem_append.mp hwell
    have hspace : Utf8.Valid (ascii " ") := Utf8.valid_of_ascii (by decide)
    have hdashes : Utf8.Valid (ascii " --") := Utf8.valid_of_ascii (by decide)
    cases h with
    | flag h =>
      simp only [argsSpelling, Option.bind_eq_bind, Option.bind_eq_some_iff,
        Option.pure_def, Option.some.injEq] at hs
      obtain ⟨text, htext, s', hs', rfl⟩ := hs
      obtain ⟨hname, hwellValue⟩ := List.forall_mem_cons.mp hwell₁
      exact Utf8.valid_append (Utf8.valid_append (Utf8.valid_append
        (Utf8.valid_append hdashes hname.2) hspace) (hvalue h hwellValue htext)) (ih hwell₂ hs')
    | positional h =>
      simp only [argsSpelling, Option.bind_eq_bind, Option.bind_eq_some_iff,
        Option.pure_def, Option.some.injEq] at hs
      obtain ⟨text, htext, s', hs', rfl⟩ := hs
      exact Utf8.valid_append (Utf8.valid_append hspace (hvalue h hwell₁ htext))
        (ih hwell₂ hs')

/-! ## Spelled operands -/

theorem applied_name_inj {name name' : Str} {as as' : List Arg}
    (h : applied (.name name) as = applied (.name name') as') : name = name' ∧ as = as' := by
  cases as <;> cases as' <;> simp_all [applied]

/-- A name, the token it is written as, and arguments with their spelling. -/
structure Written (tok : Token) (name : Str) (as : List Arg) (s : Str) : Prop where
  spelled : tok.Spelled id name
  head : (tok = .word name ∧ name ∉ reserved) ∨ tok = .compound name
  args : ∃ ts, IsArgs IsExpr ts as ∧ ∀ t ∈ ts, t.WellFormed
  spelling : argsSpelling as = some s
  valid : Utf8.Valid (name ++ s)

/-- An expression with a spelling was written as a name with arguments, perhaps in
parentheses. -/
theorem Bnf.IsExpr.written {n : ℕ} {ts : List Token} {e : Expr} {s : Str} (hexpr : IsExpr ts e)
    (hn : ts.length < n) (hwell : ∀ t ∈ ts, t.WellFormed) (hs : exprSpelling e = some s) :
    ∃ tok name as s', Written tok name as s' ∧ e = applied (.name name) as ∧ s = name ++ s' := by
  induction n generalizing ts e s with
  | zero => exact absurd hn (Nat.not_lt_zero _)
  | succ n ih =>
    have hprimary : ∀ {start : Start} {ts₁ : List Token} {name : Str}, ts₁ ⊆ ts →
        ts₁.length ≤ ts.length → IsPrimary IsExpr start ts₁ (.name name) →
        ∃ tok : Token, tok.Spelled id name ∧ Utf8.Valid name ∧
          ((tok = .word name ∧ name ∉ reserved) ∨ tok = .compound name) := by
      intro start ts₁ name hsub hle h
      cases h with
      | word h =>
        obtain ⟨hw, hv⟩ := hwell _ (hsub List.mem_cons_self)
        exact ⟨.word name, ⟨hw, rfl⟩, hv,
          Or.inl ⟨rfl, fun hmem => h (start.reserved_subset hmem)⟩⟩
      | compound =>
        obtain ⟨hw, hv⟩ := hwell _ (hsub List.mem_cons_self)
        exact ⟨.compound name, ⟨hw, rfl⟩, hv, Or.inr rfl⟩
      | @paren ts' _ hstart h =>
        simp only [List.length_append, List.length_cons] at hle
        obtain ⟨tok, name', as, s', hwritten, he, -⟩ := ih h (by omega)
          (fun t ht => hwell t (hsub (by simp [ht]))) rfl
        have happlied : applied (.name name) [] = applied (.name name') as := he
        obtain ⟨rfl, rfl⟩ := applied_name_inj happlied
        have hnil := Option.some.inj hwritten.spelling
        have hvalid := hwritten.valid
        rw [← hnil, List.append_nil] at hvalid
        exact ⟨tok, hwritten.spelled, hvalid, hwritten.head⟩
    have happ : ∀ {start : Start} {ts' : List Token} {e : Expr} {s : Str}, ts' = ts →
        IsApp IsExpr start ts' e → exprSpelling e = some s →
        ∃ tok name as s', Written tok name as s' ∧ e = applied (.name name) as ∧
          s = name ++ s' := by
      rintro start - e s hts ⟨hcallee, hargs⟩ hs
      rename_i ts₁ ts₂ callee as
      rw [← hts] at hn hwell hprimary
      have hname : (∃ name, callee = .name name) ∨
          (as = [] ∧ ∃ ts', ts₁ = lparen :: (ts' ++ [rparen]) ∧ IsExpr ts' callee) := by
        cases hcallee with
        | word h => exact Or.inl ⟨_, rfl⟩
        | compound => exact Or.inl ⟨_, rfl⟩
        | paren hstart h =>
          cases as with
          | nil => exact Or.inr ⟨rfl, _, rfl, h⟩
          | cons a as =>
            cases callee with
            | name name => exact Or.inl ⟨name, rfl⟩
            | _ => cases hs
      rcases hname with ⟨name, rfl⟩ | ⟨rfl, ts', rfl, h⟩
      · obtain ⟨tok, hspelled, hvalid, hhead⟩ :=
          hprimary (List.subset_append_left _ _) (by simp) hcallee
        have hspelling : ∃ s', argsSpelling as = some s' ∧ s = name ++ s' := by
          cases as with
          | nil =>
            obtain rfl := Option.some.inj hs
            exact ⟨[], rfl, by simp⟩
          | cons a as =>
            obtain ⟨s', hs', rfl⟩ := Option.map_eq_some_iff.mp hs
            exact ⟨s', hs', rfl⟩
        obtain ⟨s', hs', rfl⟩ := hspelling
        have hwellArgs := (List.forall_mem_append.mp hwell).2
        exact ⟨tok, name, as, s', ⟨hspelled, hhead, ⟨ts₂, hargs, hwellArgs⟩, hs',
          Utf8.valid_append hvalid (hargs.valid_spelling hwellArgs hs')⟩, rfl, rfl⟩
      · simp only [List.length_append, List.length_cons] at hn
        exact ih h (by omega) (fun t ht => hwell t (by simp [ht])) hs
    obtain ⟨h⟩ := hexpr
    cases h with
    | gate h => cases h <;> cases hs
    | amp h =>
      cases h with
      | app h => exact happ rfl h hs
      | extend h hlayer => cases hs
    | compose h hconsumer => cases hs

/-- What the parser produces and has a spelling. -/
theorem Produced.written [ApiDocs] {e : Expr} {s : Str} (h : Produced e)
    (hs : exprSpelling e = some s) :
    ∃ tok name as s', Written tok name as s' ∧ e = applied (.name name) as ∧ s = name ++ s' := by
  obtain ⟨ts, he, hwell⟩ := h.tokens
  exact he.written (Nat.lt_succ_self _) hwell hs

namespace Written

variable {tok : Token} {name s : Str} {as : List Arg}

theorem verbatim_iff : (applied (.name name) as).Verbatim ↔ ∀ a ∈ as, a.value.Verbatim := by
  cases as with
  | nil => exact ⟨fun _ a ha => absurd ha List.not_mem_nil, fun _ => trivial⟩
  | cons a as => exact Iff.rfl

theorem operandName_applied : operandName (applied (.name name) as) = some name := by
  cases as <;> rfl

/-- A literal is no word, so it may stand anywhere. -/
theorem allowed_iff (h : Written tok name as s) (start : Start) :
    (tok = .word name → name ∉ start.excluded) ↔ name ∉ start.excluded := by
  rcases h.head with ⟨rfl, -⟩ | rfl
  · exact ⟨fun hword => hword rfl, fun hname _ => hname⟩
  · refine ⟨fun _ hmem => ?_, fun hname _ => hname⟩
    obtain ⟨⟨b, rest, rfl, hopen, -⟩, -⟩ := h.spelled
    have hbrackets : ∀ e ∈ start.excluded, ∀ c ∈ e.head?, ¬ IsOpen c := by
      cases start <;> decide +kernel
    exact hbrackets _ hmem b rfl hopen

/-- Without escapes, the operand is read from its spelling. -/
theorem lexes (h : Written tok name as s) (hverbatim : ∀ a ∈ as, a.value.Verbatim) (start : Start)
    (hstart : name ∉ start.excluded) : ∃ ts, IsApp IsExpr start ts (applied (.name name) as) ∧
      ∀ {rest : Str} {i : Input} {more : List Token}, Ends (ahead Input.ofByte i rest) →
        Lexes id rest i more → Lexes id (name ++ (s ++ rest)) i (ts ++ more) := by
  obtain ⟨ts, hargs, hwell⟩ := h.args
  have hprimary : IsPrimary IsExpr start [tok] (.name name) := by
    rcases h.head with ⟨rfl, -⟩ | rfl
    · exact .word hstart
    · exact .compound
  refine ⟨[tok] ++ ts, .mk hprimary hargs, fun hends hrest => ?_⟩
  have hbounded : tok.Bounded _ := Token.bounded_of_ends (ends_argsSpelling h.spelling hends)
  exact .cons_tight h.spelled hbounded (hargs.lexes hwell h.spelling hverbatim hends hrest)

/-- The first token is the operand's name. -/
theorem first (h : Written tok name as s) {tok' : Token} {ts : List Token} {u t gap r : Str}
    (hu : Lexes id u (ahead Input.ofByte .eof t) (tok' :: ts)) (hgap : ∀ b ∈ gap, isWs b = true)
    (heq : u ++ t = gap ++ (name ++ (s ++ r))) (hends : Ends (ahead Input.ofByte .eof r)) :
    tok' = tok ∧ ∃ u', Lexes id u' (ahead Input.ofByte .eof t) ts ∧ u' ++ t = s ++ r := by
  obtain ⟨text, u', hspelled, hbounded, hu', heq'⟩ :=
    hu.first hgap (Token.head_spelled h.spelled) heq
  rw [← ahead_append] at hbounded
  obtain ⟨rfl, rfl⟩ := Token.unique hspelled h.spelled heq' hbounded
    (Token.bounded_of_ends (ends_argsSpelling h.spelling hends))
  exact ⟨rfl, u', hu', List.append_cancel_left heq'⟩

theorem ne_lparen (h : Written tok name as s) : lparen ≠ tok := by
  rcases h.head with ⟨rfl, -⟩ | rfl <;> exact Token.noConfusion

/-- The operand is read from its spelling only without escapes, and only where its name
may stand. -/
theorem back (h : Written tok name as s) {start : Start} {ts more : List Token} {u t gap r : Str}
    (hamp : IsAmp IsExpr start ts (applied (.name name) as)) (hwell : ∀ t ∈ ts, t.WellFormed)
    (hu : Lexes id u (ahead Input.ofByte .eof t) (ts ++ more)) (hgap : ∀ b ∈ gap, isWs b = true)
    (heq : u ++ t = gap ++ (name ++ (s ++ r))) (hends : Ends (ahead Input.ofByte .eof r)) :
    (∀ a ∈ as, a.value.Verbatim) ∧ name ∉ start.excluded ∧
      ∃ u', Lexes id u' (ahead Input.ofByte .eof t) more ∧ u' ++ t = r := by
  rw [← h.allowed_iff start]
  generalize happlied : applied (.name name) as = e at hamp
  cases hamp with
  | extend h' hlayer => cases as <;> cases happlied
  | app h' =>
    obtain ⟨hprimary, hargs⟩ := h'
    have hargsWell := (List.forall_mem_append.mp hwell).2
    cases hprimary with
    | word hw =>
      obtain ⟨rfl, rfl⟩ := applied_name_inj happlied
      obtain ⟨-, u', hu', heq'⟩ := h.first hu hgap heq hends
      obtain ⟨hall, hmore⟩ := hargs.verbatim hargsWell h.spelling hu' heq'
      exact ⟨hall, fun _ => hw, hmore⟩
    | compound =>
      obtain ⟨rfl, rfl⟩ := applied_name_inj happlied
      obtain ⟨rfl, u', hu', heq'⟩ := h.first hu hgap heq hends
      obtain ⟨hall, hmore⟩ := hargs.verbatim hargsWell h.spelling hu' heq'
      exact ⟨hall, Token.noConfusion, hmore⟩
    | paren hstart h' => exact absurd (h.first hu hgap heq hends).1 h.ne_lparen

theorem not_reserved (h : Written tok name as s) : name ∉ reserved := by
  apply (h.allowed_iff .any).mp
  rintro rfl
  rcases h.head with ⟨-, hname⟩ | hcompound
  · exact hname
  · cases hcompound

end Written

/-- A name with arguments is no gate and no composition. -/
theorem Bnf.IsExpr.isAmp {ts : List Token} {name : Str} {as : List Arg}
    (h : IsExpr ts (applied (.name name) as)) : IsAmp IsExpr .any ts (applied (.name name) as) := by
  generalize happlied : applied (.name name) as = e at h
  obtain ⟨h⟩ := h
  cases h with
  | gate h => cases h <;> cases as <;> cases happlied
  | amp h => exact h
  | compose h hconsumer => cases as <;> cases happlied

/-- The spelling of an operand stands for it exactly when no text of it needs an escape. -/
theorem spelling_reparses [ApiDocs] {e : Expr} {s : Str} (h : Produced e)
    (hs : exprSpelling e = some s) :
    (∃ line : Text, line.bytes = s ∧ parseExpr line = .ok (.ok e)) ↔ e.Verbatim := by
  obtain ⟨tok, name, as, s, hwritten, rfl, rfl⟩ := h.written hs
  rw [Written.verbatim_iff]
  constructor
  · rintro ⟨line, hline, hparse⟩
    obtain ⟨ts, hts, he⟩ := parseExpr_iff.mp hparse
    have hwell := hts.wellFormed
    obtain ⟨text, t, hsplit, hlexes, ht⟩ := hts
    have heq : text ++ t = [] ++ (name ++ (s ++ [])) := by
      rw [← hsplit, hline, List.append_nil, List.nil_append]
    rw [← List.append_nil ts] at hlexes
    exact (hwritten.back he.isAmp hwell hlexes (by simp) heq trivial).1
  · intro hverbatim
    obtain ⟨ts, happ, hlexes⟩ := hwritten.lexes hverbatim .any hwritten.not_reserved
    refine ⟨⟨name ++ s, hwritten.valid⟩, rfl, parseExpr_iff.mpr ⟨ts, ?_, happ.isExpr⟩⟩
    have hall : Lexes id (name ++ (s ++ [])) .eof (ts ++ []) := hlexes trivial .nil
    rw [List.append_nil, List.append_nil] at hall
    exact ⟨name ++ s, [], (List.append_nil _).symm, hall, [], [], rfl, by simp, Or.inl rfl⟩

/-! ## Suggested lines -/

theorem Expr.Part.trans {e child whole : Expr} (h : e.Part child) (hchild : child.Part whole) :
    e.Part whole := by
  induction hchild with
  | refl => exact h
  | inside hmem hpart ih => exact .inside hmem ih

theorem Produced.child [ApiDocs] {e child : Expr} (h : Produced e) (hchild : child ∈ e.children) :
    Produced child := by
  have hpart : child.Part e := .inside hchild .refl
  rcases h with ⟨line, whole, hparse, he⟩ | ⟨line, c, hparse, whole, hwhole, he⟩
  · exact Or.inl ⟨line, whole, hparse, hpart.trans he⟩
  · exact Or.inr ⟨line, c, hparse, whole, hwhole, hpart.trans he⟩

/-- The line that is suggested for two operands. -/
def suggestedLine (provider program : Str) : Str := provider ++ ascii " $ " ++ program

/-- White space before tokens. -/
theorem Lexes.behind_gap {gap w : Str} {i : Input} {ts : List Token}
    (hgap : ∀ b ∈ gap, isWs b = true) (h : Lexes id w i ts) (hne : ts ≠ []) :
    Lexes id (gap ++ w) i ts := by
  cases h with
  | nil => exact absurd rfl hne
  | cons hgap' hspelled hbounded hrest =>
    rw [← List.append_assoc]
    exact .cons (List.forall_mem_append.mpr ⟨hgap, hgap'⟩) hspelled hbounded hrest

/-- The suggested line stands for the composition exactly when no text of the operands
needs an escape and the provider's name may stand where the line starts. -/
theorem composed_iff (start : Start) {tok tok' : Token}
    {name name' s s' : Str} {as as' : List Arg} (hprovider : Written tok name as s)
    (hprogram : Written tok' name' as' s') {line : Text}
    (hline : line.bytes = suggestedLine (name ++ s) (name' ++ s')) :
    (∃ ts, LineTokens id line.bytes ts ∧ IsExprWith IsExpr start ts
        (.compose (applied (.name name) as) (applied (.name name') as'))) ↔
      (∀ a ∈ as, a.value.Verbatim) ∧ (∀ a ∈ as', a.value.Verbatim) ∧ name ∉ start.excluded := by
  have hdollar : dollar.Spelled id [ch '$'] := ⟨rfl, by decide⟩
  have hbytes : line.bytes =
      name ++ (s ++ ([ch ' '] ++ ([ch '$'] ++ ([ch ' '] ++ (name' ++ (s' ++ [])))))) := by
    rw [hline, suggestedLine]
    simp
    rfl
  constructor
  · rintro ⟨ts, hts, he⟩
    have hwell := hts.wellFormed
    obtain ⟨text, t, hsplit, hlexes, ht⟩ := hts
    have heq : text ++ t = [] ++ (name ++ (s ++ ([ch ' '] ++ ([ch '$'] ++
        ([ch ' '] ++ (name' ++ (s' ++ []))))))) := by
      rw [← hsplit, hbytes, List.nil_append]
    cases he with
    | gate h => cases h
    | amp h =>
      cases h with
      | app h =>
        generalize hcompose : Expr.compose _ _ = e at h
        obtain ⟨hprimary, hargs⟩ := h
        rename_i ts₁ ts₂ callee as₀
        cases hprimary with
        | paren _ h =>
          exact absurd (hprovider.first hlexes (by simp) heq ends_space).1 hprovider.ne_lparen
        | _ => cases as₀ <;> cases hcompose
    | @compose ts₁ ts₂ _ _ h hconsumer =>
      obtain ⟨hwell₁, hwell₂⟩ := List.forall_mem_append.mp hwell
      obtain ⟨hverbatim, hname, u, hu, hrest⟩ :=
        hprovider.back h hwell₁ hlexes (by simp) heq ends_space
      obtain ⟨text', u', hspelled, -, hu', hrest'⟩ :=
        hu.first isWs_space ⟨_, _, rfl, by decide⟩ hrest
      obtain ⟨rfl, -⟩ : text' = [ch '$'] ∧ _ := hspelled
      rw [← List.append_nil ts₂] at hu'
      obtain ⟨hverbatim', -⟩ := hprogram.back hconsumer.isAmp
        (fun t ht => hwell₂ t (List.mem_cons_of_mem _ ht)) hu' isWs_space
        (List.append_cancel_left hrest') trivial
      exact ⟨hverbatim, hverbatim', hname⟩
  · rintro ⟨hverbatim, hverbatim', hname⟩
    obtain ⟨ts, happ, hlexes⟩ := hprovider.lexes hverbatim start hname
    obtain ⟨ts', happ', hlexes'⟩ := hprogram.lexes hverbatim' .any hprogram.not_reserved
    have hprogramTokens : Lexes id (name' ++ (s' ++ [])) .eof (ts' ++ []) := hlexes' trivial .nil
    have hne : ts' ++ [] ≠ [] := by
      obtain ⟨t, ht, -⟩ := startsWith_isApp _ _ happ'
      rintro hnil
      rw [List.append_nil] at hnil
      rw [hnil] at ht
      cases ht
    have hbehind := hprogramTokens.behind_gap isWs_space hne
    have hcomposed : Lexes id ([ch ' '] ++ ([ch '$'] ++ ([ch ' '] ++ (name' ++ (s' ++ []))))) .eof
        (dollar :: (ts' ++ [])) := .cons isWs_space hdollar trivial hbehind
    have hline' : Lexes id line.bytes .eof (ts ++ dollar :: ts') := by
      rw [List.append_nil ts'] at hcomposed
      rw [hbytes]
      exact hlexes ends_space hcomposed
    exact ⟨_, ⟨line.bytes, [], (List.append_nil _).symm, hline', [], [], rfl, by simp, Or.inl rfl⟩,
      .compose (.app happ) happ'.isExpr⟩

/-- The operands of the suggested composition. -/
def suggested (base layer : Expr) (baseIsProvider : Bool) : Expr × Expr :=
  if baseIsProvider then (base, layer) else (layer, base)

/-- The line that a refusal suggests spells the two operands. -/
theorem extendRefusal_suggests {base layer : Expr} {baseIsProvider layerIsProvider : Bool}
    {side line : Str} {operand : Option Str}
    (h : extendRefusal base layer baseIsProvider layerIsProvider =
      .extendOperandNotAProvider side operand (some line)) :
    ∃ s s', exprSpelling (suggested base layer baseIsProvider).1 = some s ∧
      exprSpelling (suggested base layer baseIsProvider).2 = some s' ∧
      line = suggestedLine s s' := by
  cases baseIsProvider <;> cases layerIsProvider <;>
    simp only [extendRefusal, EvalError.extendOperandNotAProvider.injEq, Option.bind_eq_bind,
      Option.bind_some, Option.bind_none, Option.bind_eq_some_iff, Option.pure_def,
      Option.some.injEq, reduceCtorEq, and_false] at h
  · obtain ⟨-, -, s, hs, s', hs', rfl⟩ := h
    exact ⟨s, s', hs, hs', rfl⟩
  · obtain ⟨-, -, s, hs, s', hs', rfl⟩ := h
    exact ⟨s, s', hs, hs', rfl⟩

/-- A command that is a composition starts like one. -/
theorem Bnf.Means.composition {ts : List Token} {provider consumer : Expr} :
    Means ts (.run (.compose provider consumer)) ↔
      IsExprWith IsExpr .command ts (.compose provider consumer) := by
  constructor
  · intro hmeans
    generalize hc : Command.run _ = c at hmeans
    cases hmeans.isCommand with
    | run h =>
      cases hc
      exact h
    | describeCard h =>
      rw [card] at hc
      split_ifs at hc
    | _ => cases hc
  · intro h
    refine .other (.run h) (fun hhead => ?_) fun e => Command.noConfusion
    obtain ⟨t, ht, hstart⟩ := startsWith_isExprWith _ _ h
    rw [Option.mem_unique ht hhead] at hstart
    exact absurd hstart (by decide)

/-- The suggested line stands for the composition of the operands. -/
theorem suggestion_reparses [ApiDocs] {provider program : Expr} {s s' : Str}
    (hprovider : Produced provider) (hprogram : Produced program)
    (hs : exprSpelling provider = some s) (hs' : exprSpelling program = some s') :
    ((∃ line : Text, line.bytes = suggestedLine s s' ∧
        parseExpr line = .ok (.ok (.compose provider program))) ↔
      provider.Verbatim ∧ program.Verbatim) ∧
    ((∃ line : Text, line.bytes = suggestedLine s s' ∧
        parseCommand line = .ok (.ok (.run (.compose provider program)))) ↔
      provider.Verbatim ∧ program.Verbatim ∧ ∀ name ∈ operandName provider,
        name ∉ cmdHeadExcluded) := by
  obtain ⟨tok, name, as, s, hwritten, rfl, rfl⟩ := hprovider.written hs
  obtain ⟨tok', name', as', s', hwritten', rfl, rfl⟩ := hprogram.written hs'
  rw [Written.verbatim_iff, Written.verbatim_iff, Written.operandName_applied]
  have hvalid : Utf8.Valid (suggestedLine (name ++ s) (name' ++ s')) :=
    Utf8.valid_append (Utf8.valid_append hwritten.valid (Utf8.valid_of_ascii (by decide)))
      hwritten'.valid
  have hany := fun (line : Text) (hline : line.bytes = _) =>
    composed_iff .any hwritten hwritten' hline
  have hcommand := fun (line : Text) (hline : line.bytes = _) =>
    composed_iff .command hwritten hwritten' hline
  constructor
  · constructor
    · rintro ⟨line, hline, hparse⟩
      obtain ⟨ts, hts, he⟩ := parseExpr_iff.mp hparse
      obtain ⟨he⟩ := he
      obtain ⟨hverbatim, hverbatim', -⟩ := (hany line hline).mp ⟨ts, hts, he⟩
      exact ⟨hverbatim, hverbatim'⟩
    · rintro ⟨hverbatim, hverbatim'⟩
      obtain ⟨ts, hts, he⟩ := (hany ⟨_, hvalid⟩ rfl).mpr
        ⟨hverbatim, hverbatim', hwritten.not_reserved⟩
      exact ⟨⟨_, hvalid⟩, rfl, parseExpr_iff.mpr ⟨ts, hts, .mk he⟩⟩
  · constructor
    · rintro ⟨line, hline, hparse⟩
      obtain ⟨ts, hts, hc⟩ := parseCommand_iff.mp hparse
      obtain ⟨hverbatim, hverbatim', hname⟩ :=
        (hcommand line hline).mp ⟨ts, hts, Means.composition.mp hc⟩
      refine ⟨hverbatim, hverbatim', fun n hn => ?_⟩
      rw [← Option.mem_some_iff.mp hn]
      exact hname
    · rintro ⟨hverbatim, hverbatim', hname⟩
      obtain ⟨ts, hts, he⟩ := (hcommand ⟨_, hvalid⟩ rfl).mpr
        ⟨hverbatim, hverbatim', hname name rfl⟩
      exact ⟨⟨_, hvalid⟩, rfl, parseCommand_iff.mpr ⟨ts, hts, Means.composition.mpr he⟩⟩

/-- Which spellings stand for what they spell: those of operands without escapes, and the
suggested line where its first word may start a command. -/
theorem spellings_reparse [ApiDocs] :
    (∀ e s, Produced e → exprSpelling e = some s →
      ((∃ line : Text, line.bytes = s ∧ parseExpr line = .ok (.ok e)) ↔ e.Verbatim)) ∧
    ∀ base layer baseIsProvider layerIsProvider side operand suggestion,
      Produced (.extend base layer) →
      extendRefusal base layer baseIsProvider layerIsProvider =
        .extendOperandNotAProvider side operand (some suggestion) →
      let operands := suggested base layer baseIsProvider
      ((∃ line : Text, line.bytes = suggestion ∧
          parseExpr line = .ok (.ok (.compose operands.1 operands.2))) ↔
        operands.1.Verbatim ∧ operands.2.Verbatim) ∧
      ((∃ line : Text, line.bytes = suggestion ∧
          parseCommand line = .ok (.ok (.run (.compose operands.1 operands.2)))) ↔
        operands.1.Verbatim ∧ operands.2.Verbatim ∧ ∀ name ∈ operandName operands.1,
          name ∉ cmdHeadExcluded) := by
  refine ⟨fun e s h hs => spelling_reparses h hs, ?_⟩
  intro base layer baseIsProvider layerIsProvider side operand suggestion h hrefusal
  obtain ⟨s, s', hs, hs', rfl⟩ := extendRefusal_suggests hrefusal
  have hmem : (suggested base layer baseIsProvider).1 ∈ (Expr.extend base layer).children ∧
      (suggested base layer baseIsProvider).2 ∈ (Expr.extend base layer).children := by
    cases baseIsProvider <;> simp [suggested, Expr.children]
  exact suggestion_reparses (h.child hmem.1) (h.child hmem.2) hs hs'

/-! A text with a quote in it. -/

abbrev noDocs : ApiDocs := ⟨[], []⟩

/-- `echo --text "a\"b"` -/
def quotedEcho : Expr :=
  .app (.name (ascii "echo")) [.flag (ascii "text") (.quoted (ascii "a\"b"))]

theorem produced_quotedEcho : @Produced noDocs quotedEcho := by
  let _ : ApiDocs := noDocs
  have hquoted : QuotedText (ascii "\"a\\\"b\"") (ascii "a\"b") :=
    ⟨ascii "a\\\"b", rfl, .plain (by decide) (by decide)
      (.escape rfl (.plain (by decide) (by decide) .nil))⟩
  have htokens : Lexes id (ascii "echo" ++ ([ch ' '] ++ (ascii "--text" ++
      ([ch ' '] ++ (ascii "\"a\\\"b\"" ++ []))))) .eof
      [Bnf.word "echo", .flag (ascii "text"), .quoted (ascii "a\"b")] := by
    have htext : Lexes id ([ch ' '] ++ (ascii "\"a\\\"b\"" ++ [])) .eof
        [.quoted (ascii "a\"b")] := .cons isWs_space ⟨_, hquoted, rfl⟩ trivial .nil
    have hflag : (Token.flag (ascii "text")).Spelled id (ascii "--text") :=
      ⟨ascii "text", rfl, ⟨⟨by decide, Bool.noConfusion, Bool.noConfusion⟩, by decide⟩, rfl⟩
    exact .cons_tight ⟨by decide, rfl⟩ (Token.bounded_of_ends ends_space)
      (.cons isWs_space hflag (Token.bounded_of_ends ends_space) htext)
  have hargs : IsArgs IsExpr ([.flag (ascii "text"), .quoted (ascii "a\"b")] ++ [])
      [.flag (ascii "text") (.quoted (ascii "a\"b"))] := .cons (.flag .quoted) .nil
  have happ : IsApp IsExpr .any [Bnf.word "echo", .flag (ascii "text"), .quoted (ascii "a\"b")]
      quotedEcho := .mk (.word (by decide)) hargs
  exact Or.inl ⟨⟨_, Utf8.valid_of_ascii (by decide)⟩, quotedEcho, parseExpr_iff.mpr
    ⟨_, ⟨_, [], (List.append_nil _).symm, htokens, [], [], rfl, by simp, Or.inl rfl⟩,
      happ.isExpr⟩, .refl⟩

theorem quotedEcho_lost : @Produced noDocs quotedEcho ∧
    exprSpelling quotedEcho = some (ascii "echo --text \"a\"b\"") ∧
    ¬ ∃ line : Text, line.bytes = ascii "echo --text \"a\"b\"" ∧
      @parseExpr noDocs line = .ok (.ok quotedEcho) := by
  let _ : ApiDocs := noDocs
  have hspelling : exprSpelling quotedEcho = some (ascii "echo --text \"a\"b\"") := by decide
  refine ⟨produced_quotedEcho, hspelling, fun hparse => ?_⟩
  have hverbatim := (spelling_reparses produced_quotedEcho hspelling).mp hparse
  have htext := hverbatim _ List.mem_cons_self
  exact htext.1 (by decide)

theorem spellings_reparse_quotedEcho :
    (∃ line : Text, line.bytes = ascii "echo --text \"a\"b\"" ∧
      @parseExpr noDocs line = .ok (.ok quotedEcho)) ↔ quotedEcho.Verbatim :=
  (@spellings_reparse noDocs).1 quotedEcho _ produced_quotedEcho (by decide)

end Eo9.Eosh
