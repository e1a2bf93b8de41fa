import Eo9.Eosh.Literals
import Eo9.Eosh.Ast
import Eo9.Library.Phrase

/-!
# Tokens

A line of the shell is a sequence of tokens with optional white space before each.
A word and a flag end at a boundary; the other tokens end by themselves. What the
first bytes are tells which token comes next, and the token tells where it ends,
so a text has one sequence of tokens.
-/

namespace Eo9.Eosh

open Eo9.Library

/-- The tokens, with the texts they stand for. -/
inductive Token where
  | word (w : Str)
  | flag (name : Str)
  | quoted (text : Str)
  | compound (raw : Str)
  | punct (b : Ascii)
  deriving DecidableEq

/-- The bytes that are tokens by themselves. -/
def punctuation : List UInt8 := [ch '$', ch '&', ch '(', ch ')', ch ',', ch '=']

/-- How a token is written; `dec` decodes its bytes. -/
def Token.Spelled (dec : Str → Str) : Token → Str → Prop
  | .word w, text => BareWord text ∧ w = dec text
  | .flag name, text => ∃ n, text = dash.1 :: dash.1 :: n ∧ FlagWord n ∧ name = dec n
  | .quoted t, text => ∃ raw, QuotedText text raw ∧ t = dec raw
  | .compound t, text => CompoundText text ∧ t = dec text
  | .punct b, text => text = [b.1] ∧ b.1 ∈ punctuation

/-- What must follow a token. -/
def Token.Bounded : Token → Input → Prop
  | .word _, i => Ends i
  | .flag _, i => Ends i
  | _, _ => True

/-- The text is the tokens, with white space before each, and is followed by `i`. -/
inductive Lexes (dec : Str → Str) : Str → Input → List Token → Prop where
  | nil {i : Input} : Lexes dec [] i []
  | cons {gap text rest : Str} {i : Input} {tok : Token} {ts : List Token}
      (hgap : ∀ b ∈ gap, isWs b = true) (hspelled : tok.Spelled dec text)
      (hbounded : tok.Bounded (ahead Input.ofByte i rest)) (hrest : Lexes dec rest i ts) :
      Lexes dec (gap ++ (text ++ rest)) i (tok :: ts)

variable {dec : Str → Str}

theorem boundary_of_isWs {b : UInt8} (h : isWs b = true) : isBoundaryByte b = true := by
  simp only [isWs, isBoundaryByte, Bool.or_eq_true] at h ⊢
  tauto

/-- The token that starts with these bytes: a number for its kind. -/
def tokenKind : Str → ℕ
  | [] => 0
  | b :: rest =>
    if b = ch '\"' then 1
    else if b = openBracket.1 ∨ b = openBrace.1 then 2
    else if isBoundaryByte b = true then 3
    else if b = dash.1 ∧ rest.head? = some dash.1 then 4
    else 5

def Token.kind : Token → ℕ
  | .word _ => 5
  | .flag _ => 4
  | .quoted _ => 1
  | .compound _ => 2
  | .punct _ => 3

theorem Token.kind_eq {tok : Token} {text r : Str} {i : Input} (h : tok.Spelled dec text)
    (hb : tok.Bounded (ahead Input.ofByte i r)) : tokenKind (text ++ r) = tok.kind := by
  cases tok with
  | word w =>
    obtain ⟨hw, -⟩ := h
    cases text with
    | nil => exact absurd rfl hw.nonempty
    | cons b text =>
      have hbound := hw.run b List.mem_cons_self
      have hop := hw.noOpener rfl
      have hquote : b ≠ ch '\"' := by
        rintro rfl
        cases hbound
      have hopen : ¬ (b = openBracket.1 ∨ b = openBrace.1) := by
        rintro (rfl | rfl)
        · exact hop.1 rfl
        · exact hop.2 rfl
      have hflag : ¬ (b = dash.1 ∧ (text ++ r).head? = some dash.1) := by
        rintro ⟨rfl, hd⟩
        cases text with
        | nil =>
          cases r with
          | nil => cases hd
          | cons c r =>
            cases hd
            rw [Token.Bounded, ahead_cons, ends_ofByte] at hb
            cases hb
        | cons c text =>
          cases hd
          exact hw.noFlag rfl (List.cons_prefix_cons.mpr
            ⟨rfl, List.cons_prefix_cons.mpr ⟨rfl, List.nil_prefix⟩⟩)
      rw [List.cons_append, tokenKind, if_neg hquote, if_neg hopen,
        if_neg (by rw [hbound]; exact Bool.noConfusion), if_neg hflag]
      rfl
  | flag name =>
    obtain ⟨n, rfl, -, -⟩ := h
    rfl
  | quoted t =>
    obtain ⟨raw, ⟨w, rfl, -⟩, -⟩ := h
    rfl
  | compound t =>
    obtain ⟨⟨b, rest, rfl, hopen, -⟩, -⟩ := h
    rcases hopen with rfl | rfl <;> rfl
  | punct b =>
    obtain ⟨rfl, hb⟩ := h
    simp only [punctuation, List.mem_cons, List.not_mem_nil, or_false] at hb
    rw [List.singleton_append, tokenKind]
    rcases hb with h | h | h | h | h | h <;> rw [h] <;> rfl

/-- A token has a first byte, which is no white space. -/
theorem Token.head_spelled {tok : Token} {text : Str} (h : tok.Spelled dec text) :
    ∃ b rest, text = b :: rest ∧ isWs b = false := by
  cases tok with
  | word w =>
    obtain ⟨hw, -⟩ := h
    cases text with
    | nil => exact absurd rfl hw.nonempty
    | cons b text =>
      refine ⟨b, text, rfl, ?_⟩
      by_contra hws
      have hbound := hw.run b List.mem_cons_self
      rw [boundary_of_isWs (Bool.eq_true_of_not_eq_false hws)] at hbound
      cases hbound
  | flag name =>
    obtain ⟨n, rfl, -, -⟩ := h
    exact ⟨_, _, rfl, rfl⟩
  | quoted t =>
    obtain ⟨raw, ⟨w, rfl, -⟩, -⟩ := h
    exact ⟨_, _, rfl, rfl⟩
  | compound t =>
    obtain ⟨⟨b, rest, rfl, hopen, -⟩, -⟩ := h
    rcases hopen with rfl | rfl <;> exact ⟨_, _, rfl, rfl⟩
  | punct b =>
    obtain ⟨rfl, hb⟩ := h
    simp only [punctuation, List.mem_cons, List.not_mem_nil, or_false] at hb
    rcases hb with h | h | h | h | h | h <;> exact ⟨_, _, rfl, by rw [h]; rfl⟩

/-- A run of bytes up to a boundary is the longest one. -/
theorem eq_of_runs {u u' r r' : Str} {i : Input} (hu : ∀ b ∈ u, isBoundaryByte b = false)
    (hu' : ∀ b ∈ u', isBoundaryByte b = false) (heq : u ++ r = u' ++ r')
    (hr : Ends (ahead Input.ofByte i r)) (hr' : Ends (ahead Input.ofByte i r')) :
    u = u' := by
  induction u generalizing u' with
  | nil =>
    cases u' with
    | nil => rfl
    | cons c u' =>
      obtain rfl : r = c :: (u' ++ r') := heq
      rw [ahead_cons, ends_ofByte, hu' c List.mem_cons_self] at hr
      cases hr
  | cons b u ih =>
    cases u' with
    | nil =>
      obtain rfl : b :: (u ++ r) = r' := heq
      rw [ahead_cons, ends_ofByte, hu b List.mem_cons_self] at hr'
      cases hr'
    | cons c u' =>
      obtain ⟨rfl, htail⟩ := List.cons.inj heq
      rw [ih (fun d hd => hu d (List.mem_cons_of_mem _ hd))
        (fun d hd => hu' d (List.mem_cons_of_mem _ hd)) htail]

theorem Unquotes.unique {u u' r r' t t' : Str} (h : Unquotes u t) (h' : Unquotes u' t')
    (heq : u ++ ch '\"' :: r = u' ++ ch '\"' :: r') : u = u' ∧ t = t' := by
  induction h generalizing u' t' with
  | nil =>
    cases h' with
    | nil => exact ⟨rfl, rfl⟩
    | plain hquote hescape rest => exact absurd (List.cons.inj heq).1.symm hquote
    | escape hb rest => exact absurd (List.cons.inj heq).1 (by decide)
  | plain hquote hescape rest ih =>
    cases h' with
    | nil => exact absurd (List.cons.inj heq).1 hquote
    | plain hquote' hescape' rest' =>
      obtain ⟨rfl, htail⟩ := List.cons.inj heq
      obtain ⟨rfl, rfl⟩ := ih rest' htail
      exact ⟨rfl, rfl⟩
    | escape hb rest' => exact absurd (List.cons.inj heq).1 hescape
  | escape hb rest ih =>
    cases h' with
    | nil => exact absurd (List.cons.inj heq).1 (by decide)
    | plain hquote' hescape' rest' => exact absurd (List.cons.inj heq).1.symm hescape'
    | escape hb' rest' =>
      obtain ⟨-, htail⟩ := List.cons.inj heq
      obtain ⟨rfl, htail'⟩ := List.cons.inj htail
      rw [hb] at hb'
      cases hb'
      obtain ⟨rfl, rfl⟩ := ih rest' htail'
      exact ⟨rfl, rfl⟩

theorem InString.unique {u u' r r' : Str} (h : InString u) (h' : InString u')
    (heq : u ++ r = u' ++ r') : u = u' := by
  induction h generalizing u' with
  | close =>
    cases h' with
    | close => rfl
    | plain hquote hescape rest => exact absurd (List.cons.inj heq).1.symm hquote
    | escape rest => exact absurd (List.cons.inj heq).1 (by decide)
  | plain hquote hescape rest ih =>
    cases h' with
    | close => exact absurd (List.cons.inj heq).1 hquote
    | plain hquote' hescape' rest' =>
      obtain ⟨rfl, htail⟩ := List.cons.inj heq
      rw [ih rest' htail]
    | escape rest' => exact absurd (List.cons.inj heq).1 hescape
  | escape rest ih =>
    cases h' with
    | close => exact absurd (List.cons.inj heq).1 (by decide)
    | plain hquote' hescape' rest' => exact absurd (List.cons.inj heq).1.symm hescape'
    | escape rest' =>
      obtain ⟨-, htail⟩ := List.cons.inj heq
      obtain ⟨rfl, htail'⟩ := List.cons.inj htail
      rw [ih rest' htail']

theorem Closes.unique {depth : ℕ} {u u' r r' : Str} (h : Closes depth u) (h' : Closes depth u')
    (heq : u ++ r = u' ++ r') : u = u' := by
  have hnot : ∀ {b : UInt8}, IsOpen b → ¬ IsClose b ∧ b ≠ ch '\"' := by
    rintro b (rfl | rfl) <;> decide
  have hnot' : ∀ {b : UInt8}, IsClose b → ¬ IsOpen b ∧ b ≠ ch '\"' := by
    rintro b (rfl | rfl) <;> decide
  induction h generalizing u' with
  | last hb =>
    cases h' with
    | last hb' => rw [(List.cons.inj heq).1]
    | «open» hb' rest => exact absurd ((List.cons.inj heq).1 ▸ hb') (hnot' hb).1
    | string hs rest => exact absurd (List.cons.inj heq).1 (hnot' hb).2
    | plain hopen hclose hquote rest => exact absurd ((List.cons.inj heq).1 ▸ hb) hclose
  | close hb rest ih =>
    cases h' with
    | close hb' rest' =>
      obtain ⟨rfl, htail⟩ := List.cons.inj heq
      rw [ih rest' htail]
    | «open» hb' rest' => exact absurd ((List.cons.inj heq).1 ▸ hb') (hnot' hb).1
    | string hs rest' => exact absurd (List.cons.inj heq).1 (hnot' hb).2
    | plain hopen hclose hquote rest' => exact absurd ((List.cons.inj heq).1 ▸ hb) hclose
  | «open» hb rest ih =>
    cases h' with
    | last hb' => exact absurd ((List.cons.inj heq).1 ▸ hb') (hnot hb).1
    | close hb' rest' => exact absurd ((List.cons.inj heq).1 ▸ hb') (hnot hb).1
    | «open» hb' rest' =>
      obtain ⟨rfl, htail⟩ := List.cons.inj heq
      rw [ih rest' htail]
    | string hs rest' => exact absurd (List.cons.inj heq).1 (hnot hb).2
    | plain hopen hclose hquote rest' => exact absurd ((List.cons.inj heq).1 ▸ hb) hopen
  | @string depth s w hs rest ih =>
    cases h' with
    | last hb' => exact absurd (List.cons.inj heq).1.symm (hnot' hb').2
    | close hb' rest' => exact absurd (List.cons.inj heq).1.symm (hnot' hb').2
    | «open» hb' rest' => exact absurd (List.cons.inj heq).1.symm (hnot hb').2
    | @string _ s' w' hs' rest' =>
      obtain ⟨-, htail⟩ := List.cons.inj heq
      change s ++ w ++ r = s' ++ w' ++ r' at htail
      rw [List.append_assoc, List.append_assoc] at htail
      obtain rfl := hs.unique hs' htail
      rw [ih rest' (List.append_cancel_left htail)]
    | plain hopen hclose hquote rest' => exact absurd (List.cons.inj heq).1.symm hquote
  | plain hopen hclose hquote rest ih =>
    cases h' with
    | last hb' => exact absurd ((List.cons.inj heq).1 ▸ hb') hclose
    | close hb' rest' => exact absurd ((List.cons.inj heq).1 ▸ hb') hclose
    | «open» hb' rest' => exact absurd ((List.cons.inj heq).1 ▸ hb') hopen
    | string hs rest' => exact absurd (List.cons.inj heq).1 hquote
    | plain hopen' hclose' hquote' rest' =>
      obtain ⟨rfl, htail⟩ := List.cons.inj heq
      rw [ih rest' htail]

theorem CompoundText.unique {u u' r r' : Str} (h : CompoundText u) (h' : CompoundText u')
    (heq : u ++ r = u' ++ r') : u = u' := by
  obtain ⟨b, rest, rfl, -, hrest⟩ := h
  obtain ⟨b', rest', rfl, -, hrest'⟩ := h'
  obtain ⟨rfl, htail⟩ := List.cons.inj heq
  rw [hrest.unique hrest' htail]

theorem QuotedText.unique {u u' r r' t t' : Str} (h : QuotedText u t) (h' : QuotedText u' t')
    (heq : u ++ r = u' ++ r') : u = u' ∧ t = t' := by
  obtain ⟨raw, rfl, hraw⟩ := h
  obtain ⟨raw', rfl, hraw'⟩ := h'
  have htail : raw ++ ch '\"' :: r = raw' ++ ch '\"' :: r' := by simpa using heq
  obtain ⟨rfl, rfl⟩ := hraw.unique hraw' htail
  exact ⟨rfl, rfl⟩

/-- The next token, and where it ends. -/
theorem Token.unique {tok tok' : Token} {u u' r r' : Str} {i : Input}
    (h : tok.Spelled dec u) (h' : tok'.Spelled dec u') (heq : u ++ r = u' ++ r')
    (hb : tok.Bounded (ahead Input.ofByte i r)) (hb' : tok'.Bounded (ahead Input.ofByte i r')) :
    tok = tok' ∧ u = u' := by
  have hkind : tok.kind = tok'.kind := by
    rw [← Token.kind_eq h hb, ← Token.kind_eq h' hb', heq]
  cases tok with
  | word w =>
    cases tok' with
    | word w' =>
      obtain ⟨hu, rfl⟩ := h
      obtain ⟨hu', rfl⟩ := h'
      obtain rfl := eq_of_runs hu.run hu'.run heq hb hb'
      exact ⟨rfl, rfl⟩
    | _ => cases hkind
  | flag name =>
    cases tok' with
    | flag name' =>
      obtain ⟨n, rfl, hn, rfl⟩ := h
      obtain ⟨n', rfl, hn', rfl⟩ := h'
      have htail : n ++ r = n' ++ r' := by simpa using heq
      obtain rfl := eq_of_runs hn.run hn'.run htail hb hb'
      exact ⟨rfl, rfl⟩
    | _ => cases hkind
  | quoted t =>
    cases tok' with
    | quoted t' =>
      obtain ⟨raw, hu, rfl⟩ := h
      obtain ⟨raw', hu', rfl⟩ := h'
      obtain ⟨rfl, rfl⟩ := hu.unique hu' heq
      exact ⟨rfl, rfl⟩
    | _ => cases hkind
  | compound t =>
    cases tok' with
    | compound t' =>
      obtain ⟨hu, rfl⟩ := h
      obtain ⟨hu', rfl⟩ := h'
      obtain rfl := hu.unique hu' heq
      exact ⟨rfl, rfl⟩
    | _ => cases hkind
  | punct b =>
    cases tok' with
    | punct b' =>
      obtain ⟨rfl, -⟩ := h
      obtain ⟨rfl, -⟩ := h'
      obtain ⟨hbb, -⟩ := List.cons.inj heq
      rw [hbb]
      exact ⟨by rw [Subtype.ext hbb], rfl⟩
    | _ => cases hkind

/-- White space ends where a token starts. -/
theorem eq_of_gaps {g g' u u' : Str} (hg : ∀ b ∈ g, isWs b = true)
    (hg' : ∀ b ∈ g', isWs b = true) (hu : ∃ b t, u = b :: t ∧ isWs b = false)
    (hu' : ∃ b t, u' = b :: t ∧ isWs b = false) (heq : g ++ u = g' ++ u') : g = g' ∧ u = u' := by
  obtain ⟨b, t, rfl, hb⟩ := hu
  obtain ⟨b', t', rfl, hb'⟩ := hu'
  induction g generalizing g' with
  | nil =>
    cases g' with
    | nil => exact ⟨rfl, heq⟩
    | cons c g' =>
      obtain ⟨rfl, -⟩ := List.cons.inj heq
      rw [hg' b List.mem_cons_self] at hb
      cases hb
  | cons c g ih =>
    cases g' with
    | nil =>
      obtain ⟨rfl, -⟩ := List.cons.inj heq
      rw [hg c List.mem_cons_self] at hb'
      cases hb'
    | cons c' g' =>
      obtain ⟨rfl, htail⟩ := List.cons.inj heq
      obtain ⟨rfl, ht⟩ := ih (fun d hd => hg d (List.mem_cons_of_mem _ hd))
        (fun d hd => hg' d (List.mem_cons_of_mem _ hd)) htail
      exact ⟨rfl, ht⟩

namespace Lexes

/-- A token without a gap before it. -/
theorem cons_tight {text rest : Str} {i : Input} {tok : Token} {ts : List Token}
    (hspelled : tok.Spelled dec text) (hbounded : tok.Bounded (ahead Input.ofByte i rest))
    (hrest : Lexes dec rest i ts) : Lexes dec (text ++ rest) i (tok :: ts) := by
  have hgap : ∀ b ∈ ([] : Str), isWs b = true := fun _ h => absurd h List.not_mem_nil
  exact .cons hgap hspelled hbounded hrest

theorem append {u t : Str} {i : Input} {ts ts' : List Token}
    (h : Lexes dec u (ahead Input.ofByte i t) ts) (h' : Lexes dec t i ts') :
    Lexes dec (u ++ t) i (ts ++ ts') := by
  generalize hj : ahead Input.ofByte i t = j at h
  induction h with
  | nil => exact h'
  | cons hgap hspelled hbounded hrest ih =>
    rw [List.append_assoc, List.append_assoc]
    refine .cons hgap hspelled ?_ (ih hj)
    rw [ahead_append, hj]
    exact hbounded

/-- Where a part of the tokens ends. -/
theorem split {w : Str} {i : Input} {ts ts' : List Token} (h : Lexes dec w i (ts ++ ts')) :
    ∃ u t, w = u ++ t ∧ Lexes dec u (ahead Input.ofByte i t) ts ∧ Lexes dec t i ts' := by
  induction ts generalizing w with
  | nil => exact ⟨[], w, rfl, .nil, h⟩
  | cons tok ts ih =>
    cases h with
    | cons hgap hspelled hbounded hrest =>
      obtain ⟨u, t, rfl, hu, ht⟩ := ih hrest
      refine ⟨_, t, ?_, .cons hgap hspelled ?_ hu, ht⟩
      · simp
      · rw [← ahead_append]
        exact hbounded

theorem nil_iff {w : Str} {i : Input} : Lexes dec w i [] ↔ w = [] := by
  constructor
  · intro h
    cases h
    rfl
  · rintro rfl
    exact .nil

/-- A text of tokens has no more tokens than bytes. -/
theorem length_le {w : Str} {i : Input} {ts : List Token} (h : Lexes dec w i ts) :
    ts.length ≤ w.length := by
  induction h with
  | nil => exact Nat.le_refl _
  | cons hgap hspelled hbounded hrest ih =>
    obtain ⟨b, t, rfl, -⟩ := Token.head_spelled hspelled
    simp only [List.length_cons, List.length_append]
    omega

/-- Of two texts of tokens that begin a line, the longer one goes on with more tokens. -/
theorem compare {u u' t t' : Str} {i : Input} {ts ts' : List Token}
    (h : Lexes dec u (ahead Input.ofByte i t) ts) (h' : Lexes dec u' (ahead Input.ofByte i t') ts')
    (heq : u ++ t = u' ++ t') (hle : u.length ≤ u'.length) :
    ∃ r more, u' = u ++ r ∧ ts' = ts ++ more ∧
      Lexes dec r (ahead Input.ofByte i t') more := by
  generalize hj : ahead Input.ofByte i t = j at h
  induction h generalizing u' ts' with
  | nil => exact ⟨u', ts', rfl, rfl, h'⟩
  | @cons gap text rest j tok ts hgap hspelled hbounded hrest ih =>
    cases h' with
    | nil =>
      obtain ⟨b, s, rfl, -⟩ := Token.head_spelled hspelled
      simp at hle
    | @cons gap' text' rest' _ tok' ts' hgap' hspelled' hbounded' hrest' =>
      have hhead : ∀ {tok : Token} {text : Str} (r : Str), tok.Spelled dec text →
          ∃ b s, text ++ r = b :: s ∧ isWs b = false := by
        intro tok text r h
        obtain ⟨b, s, rfl, hb⟩ := Token.head_spelled h
        exact ⟨b, s ++ r, rfl, hb⟩
      rw [List.append_assoc, List.append_assoc, List.append_assoc, List.append_assoc] at heq
      obtain ⟨rfl, htail⟩ := eq_of_gaps hgap hgap' (hhead _ hspelled) (hhead _ hspelled') heq
      rw [← hj, ← ahead_append] at hbounded
      rw [← ahead_append] at hbounded'
      obtain ⟨rfl, htext⟩ := Token.unique hspelled hspelled' htail hbounded hbounded'
      subst htext
      obtain ⟨r, more, rfl, rfl, hmore⟩ := ih hrest' (List.append_cancel_left htail)
        (by simp only [List.length_append] at hle; omega) hj
      exact ⟨r, more, by simp, rfl, hmore⟩

/-- A text has one sequence of tokens. -/
theorem unique {w : Str} {i : Input} {ts ts' : List Token} (h : Lexes dec w i ts)
    (h' : Lexes dec w i ts') : ts = ts' := by
  have hnil : w ++ [] = w ++ [] := rfl
  obtain ⟨-, more, -, hmore, -⟩ := compare h h' hnil (Nat.le_refl _)
  obtain ⟨-, more', -, hmore', -⟩ := compare h' h hnil (Nat.le_refl _)
  rw [hmore] at hmore'
  have hempty : more ++ more' = [] := by simpa [List.append_assoc] using hmore'
  rw [hmore, (List.append_eq_nil_iff.mp hempty).1, List.append_nil]

end Lexes

end Eo9.Eosh

/-!
## The documented grammar

The grammar in the documentation of `grammar.rs`, over tokens and with the tree
that each derivation stands for. It names no parser. An expression in parentheses
is passed to the smaller phrases as a parameter, which the expressions themselves
instantiate.
-/

namespace Eo9.Eosh

open Eo9.Library

namespace Bnf

def word (s : String) : Token := .word (ascii s)

def dollar : Token := .punct ⟨ch '$', ch_dollar_lt⟩
def ampersand : Token := .punct ⟨ch '&', ch_ampersand_lt⟩
def lparen : Token := .punct ⟨ch '(', ch_openParen_lt⟩
def rparen : Token := .punct ⟨ch ')', ch_closeParen_lt⟩
def comma : Token := .punct ⟨ch ',', ch_comma_lt⟩
def equals : Token := .punct ⟨ch '=', ch_equals_lt⟩

/-- `name := bare word (reserved excluded) | compound` -/
inductive IsName : Phrase Token Str where
  | word {w : Str} (h : w ∉ reserved) : IsName [.word w] w
  | compound {raw : Str} : IsName [.compound raw] raw

/-- `item ("," item)*` -/
inductive Listed {α : Type} (item : Phrase Token α) : Phrase Token (List α) where
  | one {ts : List Token} {a : α} (h : item ts a) : Listed item ts [a]
  | cons {ts ts' : List Token} {a : α} {as : List α} (h : item ts a)
      (rest : Listed item ts' as) : Listed item (ts ++ comma :: ts') (a :: as)

/-- What an application may start with: the first word of a command may not be a
word that commands start with, and the provider of a `with` item may not start
with a parenthesis. -/
inductive Start where
  | command | any | named
  deriving DecidableEq

def Start.excluded : Start → List Str
  | .command => cmdHeadExcluded
  | _ => reserved

section Expressions

variable (E : Phrase Token Expr)

/-- `value := name | quoted | compound | "(" expr ")"` -/
inductive IsValue : Phrase Token ArgValue where
  | word {w : Str} (h : w ∉ reserved) : IsValue [.word w] (.word w)
  | compound {raw : Str} : IsValue [.compound raw] (.word raw)
  | quoted {text : Str} : IsValue [.quoted text] (.quoted text)
  | paren {ts : List Token} {e : Expr} (h : E ts e) :
      IsValue (lparen :: (ts ++ [rparen])) (.expr e)

/-- `arg := "--" flagname value | name | quoted | compound | "(" expr ")"` -/
inductive IsArg : Phrase Token Arg where
  | flag {name : Str} {ts : List Token} {v : ArgValue} (h : IsValue E ts v) :
      IsArg (.flag name :: ts) (.flag name v)
  | positional {ts : List Token} {v : ArgValue} (h : IsValue E ts v) : IsArg ts (.positional v)

/-- `arg*` -/
inductive IsArgs : Phrase Token (List Arg) where
  | nil : IsArgs [] []
  | cons {ts ts' : List Token} {a : Arg} {as : List Arg} (h : IsArg E ts a)
      (rest : IsArgs ts' as) : IsArgs (ts ++ ts') (a :: as)

/-- `primary := name | "(" expr ")"` -/
inductive IsPrimary (start : Start) : Phrase Token Expr where
  | word {w : Str} (h : w ∉ start.excluded) : IsPrimary start [.word w] (.name w)
  | compound {raw : Str} : IsPrimary start [.compound raw] (.name raw)
  | paren {ts : List Token} {e : Expr} (hstart : start ≠ .named) (h : E ts e) :
      IsPrimary start (lparen :: (ts ++ [rparen])) e

/-- An application; without arguments it is its head. -/
def applied (callee : Expr) (args : List Arg) : Expr :=
  if args.isEmpty then callee else .app callee args

/-- `app-expr := primary arg*` -/
inductive IsApp (start : Start) : Phrase Token Expr where
  | mk {ts ts' : List Token} {e : Expr} {as : List Arg} (h : IsPrimary E start ts e)
      (args : IsArgs E ts' as) : IsApp start (ts ++ ts') (applied e as)

/-- `amp-expr := app-expr ( "&" app-expr )*`, from the left -/
inductive IsAmp (start : Start) : Phrase Token Expr where
  | app {ts : List Token} {e : Expr} (h : IsApp E start ts e) : IsAmp start ts e
  | extend {ts ts' : List Token} {base layer : Expr} (h : IsAmp start ts base)
      (hlayer : IsApp E .any ts' layer) :
      IsAmp start (ts ++ ampersand :: ts') (.extend base layer)

/-- `with-item := "(" expr ")" "as" name
              | "(" expr ("," expr)+ ")" "as" "(" name ("," name)N ")"
              | amp-expr-with-non-paren-head "as" name` -/
inductive IsItem : Phrase Token (List WithBinding) where
  | paren {ts ts' : List Token} {e : Expr} {slot : Str} (h : E ts e) (hslot : IsName ts' slot) :
      IsItem (lparen :: (ts ++ rparen :: word "as" :: ts')) [.mk e slot]
  | tuple {ts ts' : List Token} {es : List Expr} {slots : List Str} (h : Listed E ts es)
      (htwo : 2 ≤ es.length) (hslots : Listed IsName ts' slots)
      (hlength : slots.length = es.length) :
      IsItem (lparen :: (ts ++ rparen :: word "as" :: lparen :: (ts' ++ [rparen])))
        (List.zipWith .mk es slots)
  | plain {ts ts' : List Token} {e : Expr} {slot : Str} (h : IsAmp E .named ts e)
      (hslot : IsName ts' slot) : IsItem (ts ++ word "as" :: ts') [.mk e slot]

/-- `gate := "only" name ("," name)* "$" expr
         | "rename" name name "$" expr
         | "with" with-item ("," with-item)* "$" expr` -/
inductive IsGate : Phrase Token Expr where
  | only {ts ts' : List Token} {allow : List Str} {body : Expr} (h : Listed IsName ts allow)
      (hbody : E ts' body) : IsGate (word "only" :: (ts ++ dollar :: ts')) (.only allow body)
  | rename {ts ts' ts'' : List Token} {source target : Str} {body : Expr}
      (hsource : IsName ts source) (htarget : IsName ts' target) (hbody : E ts'' body) :
      IsGate (word "rename" :: (ts ++ (ts' ++ dollar :: ts''))) (.rename source target body)
  | «with» {ts ts' : List Token} {items : List (List WithBinding)} {body : Expr}
      (h : Listed (IsItem E) ts items) (hbody : E ts' body) :
      IsGate (word "with" :: (ts ++ dollar :: ts')) (.with items.flatten body)

/-- `expr := gate | amp-expr ( "$" expr )?` -/
inductive IsExprWith (start : Start) : Phrase Token Expr where
  | gate {ts : List Token} {e : Expr} (h : IsGate E ts e) : IsExprWith start ts e
  | amp {ts : List Token} {e : Expr} (h : IsAmp E start ts e) : IsExprWith start ts e
  | compose {ts ts' : List Token} {provider consumer : Expr} (h : IsAmp E start ts provider)
      (hconsumer : E ts' consumer) :
      IsExprWith start (ts ++ dollar :: ts') (.compose provider consumer)

end Expressions

/-- An expression, whose inner expressions are expressions again. -/
inductive IsExpr : Phrase Token Expr where
  | mk {ts : List Token} {e : Expr} (h : IsExprWith IsExpr .any ts e) : IsExpr ts e

/-- A word of `describe` that has a card, or is the name of an interface. -/
def Carded (w : Str) : Prop := hasBuiltinDoc w = true ∨ ch ':' ∈ w

def card (w : Str) : Command := if hasBuiltinDoc w then .describeBuiltin w else .describeApi w

/-- `command`, by its documented alternatives. -/
inductive IsCommand : Phrase Token Command where
  | empty : IsCommand [] .empty
  | «let» {ts ts' : List Token} {name : Str} {e : Expr} (h : IsName ts name)
      (he : IsExpr ts' e) : IsCommand (word "let" :: (ts ++ equals :: ts')) (.let name e)
  | save {ts ts' : List Token} {name : Str} {e : Expr} (h : IsName ts name)
      (he : IsExpr ts' e) : IsCommand (word "save" :: (ts ++ equals :: ts')) (.save name e)
  | detach {ts ts₁ ts₂ : List Token} {name : Str} {program policy : Expr} (h : IsName ts name)
      (hprogram : IsExpr ts₁ program) (hpolicy : IsExpr ts₂ policy) :
      IsCommand (word "detach" :: (ts ++ equals :: (ts₁ ++ word "restart" :: ts₂)))
        (.detach name program policy)
  | svc : IsCommand [word "svc"] .svcList
  | svcList : IsCommand [word "svc", word "list"] .svcList
  | svcLog {ts : List Token} {name : Str} (h : IsName ts name) :
      IsCommand (word "svc" :: word "log" :: ts) (.svcLog name)
  | svcStop {ts : List Token} {name : Str} (h : IsName ts name) :
      IsCommand (word "svc" :: word "stop" :: ts) (.svcStop name)
  | svcClear {ts : List Token} {name : Str} (h : IsName ts name) :
      IsCommand (word "svc" :: word "clear" :: ts) (.svcClear name)
  | help : IsCommand [word "help"] .help
  | history : IsCommand [word "history"] .history
  | exit : IsCommand [word "exit"] .exit
  | quit : IsCommand [word "quit"] .exit
  | poweroff : IsCommand [word "poweroff"] .poweroff
  | env : IsCommand [word "env"] .env
  | envOf {ts : List Token} {e : Expr} (h : IsExpr ts e) :
      IsCommand (word "env" :: ts) (.envOf e)
  | describeDollar : IsCommand [word "describe", dollar] (.describeBuiltin (ascii "$"))
  | describeAmpersand : IsCommand [word "describe", ampersand] (.describeBuiltin (ascii "&"))
  | describeCard {w : Str} (h : Carded w) : IsCommand [word "describe", .word w] (card w)
  | describe {ts : List Token} {e : Expr} (h : IsExpr ts e) :
      IsCommand (word "describe" :: ts) (.describe e)
  | manDollar : IsCommand [word "man", dollar] (.man (ascii "$"))
  | manAmpersand : IsCommand [word "man", ampersand] (.man (ascii "&"))
  | manWord {w : Str} : IsCommand [word "man", .word w] (.man w)
  | manCompound {raw : Str} : IsCommand [word "man", .compound raw] (.man raw)
  | imports {ts : List Token} {e : Expr} (h : IsExpr ts e) :
      IsCommand (word "imports" :: ts) (.imports e)
  | run {ts : List Token} {e : Expr} (h : IsExprWith IsExpr .command ts e) : IsCommand ts (.run e)

/-- What a line of tokens stands for. Of several derivations, a card comes before an
expression, and the program of `detach` is the longest one before a policy. -/
inductive Means : Phrase Token Command where
  | detach {ts ts₁ ts₂ : List Token} {name : Str} {program policy : Expr} (h : IsName ts name)
      (hprogram : IsExpr ts₁ program) (hpolicy : IsExpr ts₂ policy)
      (longest : ∀ ts₁' ts₂' program' policy',
        ts₁ ++ word "restart" :: ts₂ = ts₁' ++ word "restart" :: ts₂' →
        IsExpr ts₁' program' → IsExpr ts₂' policy' → ts₁'.length ≤ ts₁.length) :
      Means (word "detach" :: (ts ++ equals :: (ts₁ ++ word "restart" :: ts₂)))
        (.detach name program policy)
  | describe {ts : List Token} {e : Expr} (h : IsExpr ts e)
      (hcard : ∀ w, ts = [.word w] → ¬ Carded w) : Means (word "describe" :: ts) (.describe e)
  | other {ts : List Token} {c : Command} (h : IsCommand ts c)
      (hdetach : ts.head? ≠ some (word "detach")) (hdescribe : ∀ e, c ≠ .describe e) : Means ts c

/-- The documented ambiguities: a word with a card may be an expression as well, and the
program of `detach` may end at several places. -/
inductive Ambiguous : Command → Command → Prop where
  | card {w : Str} {e : Expr} (h : Carded w) : Ambiguous (card w) (.describe e)
  | detach {name : Str} {program policy program' policy' : Expr} :
      Ambiguous (.detach name program policy) (.detach name program' policy')

/-- `line := ws command? ws ( "#" anything )? EOF`; the white space before a token
belongs to the token. -/
inductive IsLine (C : Phrase Token Command) : Str → Command → Prop where
  | mk {text gap comment : Str} {ts : List Token} {c : Command}
      (htokens : Lexes id text (ahead Input.ofByte .eof (gap ++ comment)) ts) (h : C ts c)
      (hgap : ∀ b ∈ gap, isWs b = true)
      (hcomment : comment = [] ∨ comment.head? = some (ch '#')) :
      IsLine C (text ++ (gap ++ comment)) c

end Bnf

end Eo9.Eosh
