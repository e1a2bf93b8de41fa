import Eo9.Eosh.Commands

/-!
# Lines

A line is a command, white space and perhaps a comment. On well-formed text the
tokens stand for their own bytes, so what the parser reads is what the documented
grammar says of the line.
-/

namespace Eo9.Eosh

open Eo9.Library Eo9.Eosh.Parser Eo9.Eosh.Bnf

/-- An escape stands for one character as well. -/
theorem Unquotes.scan {w t : Str} (h : Unquotes w t) (s : Option Utf8.Partial)
    (hs : Utf8.Reading s) : Utf8.scan s w = Utf8.scan s t := by
  induction h generalizing s with
  | nil => rfl
  | @plain b w t hquote hescape rest ih =>
    rw [Utf8.scan, Utf8.scan]
    cases hpush : Utf8.push s b with
    | none => rfl
    | some s' => exact ih s' (Utf8.reading_push hs hpush)
  | @escape b c w t hb rest ih =>
    have hc := unescape_value_lt hb
    cases s with
    | none =>
      rw [Utf8.scan, Utf8.push_ascii (by decide), Option.bind_some, Utf8.scan,
        Utf8.push_ascii (unescape_lt hb), Option.bind_some, Utf8.scan, Utf8.push_ascii hc]
      exact ih none trivial
    | some p =>
      rw [Utf8.scan, Utf8.push_partial_ascii hs (by decide), Utf8.scan,
        Utf8.push_partial_ascii hs hc]
      rfl

/-- A literal ends with its closing bracket. -/
theorem Closes.last_byte {depth : ℕ} {w : Str} (h : Closes depth w) :
    ∃ pre b, w = pre ++ [b] ∧ b < 0x80 := by
  induction h with
  | @last b hb => exact ⟨[], b, rfl, hb.lt⟩
  | @close c depth w hb rest ih =>
    obtain ⟨pre, b, rfl, hb⟩ := ih
    exact ⟨c :: pre, b, rfl, hb⟩
  | @«open» c depth w hb rest ih =>
    obtain ⟨pre, b, rfl, hb⟩ := ih
    exact ⟨c :: pre, b, rfl, hb⟩
  | @string depth s w hs rest ih =>
    obtain ⟨pre, b, rfl, hb⟩ := ih
    exact ⟨ch '\"' :: (s ++ pre), b, by simp, hb⟩
  | @plain c depth w hopen hclose hquote rest ih =>
    obtain ⟨pre, b, rfl, hb⟩ := ih
    exact ⟨c :: pre, b, rfl, hb⟩

namespace Token

variable {dec dec' : Str → Str} {tok : Token} {text rest : Str} {i : Input}

/-- A word and a flag end before an ASCII byte or at the end, the other tokens with one. -/
theorem valid_cut (h : tok.Spelled dec text) (hb : tok.Bounded (ahead Input.ofByte i rest))
    (hv : Utf8.Valid (text ++ rest)) : Utf8.Valid text ∧ Utf8.Valid rest := by
  have hends : Ends (ahead Input.ofByte i rest) → ∀ b ∈ rest.head?, b < 0x80 := by
    intro hends b hhead
    cases rest with
    | nil => cases hhead
    | cons c rest =>
      cases hhead
      exact isBoundaryByte_lt ((ends_ofByte b).mp hends)
  cases tok with
  | word w => exact Utf8.valid_before hv (hends hb)
  | flag name => exact Utf8.valid_before hv (hends hb)
  | quoted t =>
    obtain ⟨raw, ⟨w, rfl, -⟩, -⟩ := h
    have hquoted : Utf8.Valid ((ch '\"' :: w) ++ [ch '\"'] ++ rest) := hv
    exact Utf8.valid_after (by decide) hquoted
  | compound t =>
    obtain ⟨⟨c, closes, rfl, hopen, hcloses⟩, ht⟩ := h
    obtain ⟨pre, b, rfl, hlt⟩ := hcloses.last_byte
    have hcompound : Utf8.Valid ((c :: pre) ++ [b] ++ rest) := hv
    exact Utf8.valid_after hlt hcompound
  | punct b =>
    obtain ⟨rfl, hb⟩ := h
    have hpunct : Utf8.Valid ([] ++ [b.1] ++ rest) := hv
    exact Utf8.valid_after b.2 hpunct

/-- Decodings that agree on well-formed text spell the same tokens. -/
theorem spelled_congr (hdec : ∀ t, Utf8.Valid t → dec t = dec' t) (hv : Utf8.Valid text)
    (h : tok.Spelled dec text) : tok.Spelled dec' text := by
  cases tok with
  | word w =>
    obtain ⟨hw, rfl⟩ := h
    exact ⟨hw, hdec text hv⟩
  | flag name =>
    obtain ⟨n, rfl, hn, rfl⟩ := h
    have hdashes : ∀ b ∈ [dash.1, dash.1], b < 0x80 := by decide
    exact ⟨n, rfl, hn, hdec n ((Utf8.valid_behind_ascii hdashes).mp hv)⟩
  | quoted t =>
    obtain ⟨raw, ⟨w, rfl, hw⟩, rfl⟩ := h
    refine ⟨raw, ⟨w, rfl, hw⟩, hdec raw ?_⟩
    have hquote : ∀ b ∈ [ch '\"'], b < 0x80 := by decide
    have hclosed := (Utf8.valid_behind_ascii hquote).mp hv
    have hvalid := (Utf8.valid_split (b := ch '\"') (by decide)).mp hclosed
    exact (hw.scan none trivial).symm.trans hvalid.1
  | compound t =>
    obtain ⟨hw, rfl⟩ := h
    exact ⟨hw, hdec text hv⟩
  | punct b => exact h

end Token

/-- Tokens of well-formed text are the same under such decodings. -/
theorem Lexes.congr {dec dec' : Str → Str} (hdec : ∀ t, Utf8.Valid t → dec t = dec' t)
    {w : Str} {i : Input} {ts : List Token} (hv : Utf8.Valid w) (h : Lexes dec w i ts) :
    Lexes dec' w i ts := by
  induction h with
  | nil => exact .nil
  | @cons gap text rest i tok ts hgap hspelled hbounded hrest ih =>
    have hascii : ∀ b ∈ gap, b < 0x80 := fun b hb => isWs_lt (hgap b hb)
    have hrest := (Utf8.valid_behind_ascii hascii).mp hv
    have hcut := Token.valid_cut hspelled hbounded hrest
    exact .cons hgap (Token.spelled_congr hdec hcut.1 hspelled) hbounded (ih hcut.2)

theorem lexes_lossy_iff {w : Str} {i : Input} {ts : List Token} (hv : Utf8.Valid w) :
    Lexes Utf8.lossy w i ts ↔ Lexes id w i ts := by
  constructor
  · exact Lexes.congr (fun t ht => Utf8.lossy_of_valid ht) hv
  · exact Lexes.congr (fun t ht => (Utf8.lossy_of_valid ht).symm) hv

/-- What comes after the command: white space and perhaps a comment. -/
def Trails (t : Str) : Prop := ∃ gap comment, t = gap ++ comment ∧ (∀ b ∈ gap, isWs b = true) ∧
  (comment = [] ∨ comment.head? = some (ch '#'))

theorem run_comment {t : Str} {v : Unit} :
    (.alt [.pure (), Grammar.andThen (Grammar.litByte Grammar.hash) commentRest] : P Unit).run t .eof
      = some v ↔ t = [] ∨ t.head? = some (ch '#') := by
  have hbehind : (Grammar.andThen (Grammar.litByte Grammar.hash) commentRest : P Unit).run t .eof
      = some v ↔ t.head? = some (ch '#') := by
    refine run_behind_lit.trans ?_
    constructor
    · rintro ⟨r, rfl, -⟩
      rfl
    · intro h
      cases t with
      | nil => cases h
      | cons b r =>
        cases h
        exact ⟨r, rfl, run_commentRest.mpr rfl⟩
  have hpure : (.pure () : P Unit).run t .eof = some v ↔ t = [] := by
    rw [run_pure]
    constructor
    · intro h
      by_contra hne
      rw [if_neg hne] at h
      cases h
    · exact fun h => if_pos h
  rw [run_alt, Reader.choice_eq_some_iff fun _ _ _ _ _ _ _ _ => rfl, ← hpure, ← hbehind]
  simp

theorem run_trailing {t : Str} {v : Unit} :
    (Grammar.trailing : P Unit).run t .eof = some v ↔ Trails t := by
  rw [Grammar.trailing, Grammar.andThen, run_bind, Reader.seq_eq_some_iff fun _ _ _ _ => rfl]
  constructor
  · rintro ⟨gap, comment, a, rfl, hgap, hcomment⟩
    exact ⟨gap, comment, rfl, (run_ws.mp hgap).1, run_comment.mp hcomment⟩
  · rintro ⟨gap, comment, rfl, hgap, hcomment⟩
    refine ⟨gap, comment, (), rfl, run_ws.mpr ⟨hgap, ?_⟩, run_comment.mpr hcomment⟩
    cases comment with
    | nil => exact trivial
    | cons b r =>
      rcases hcomment with h | h
      · cases h
      · cases h
        exact (endsWs_ofByte _).mpr rfl

/-- No token begins with a hash sign. -/
theorem Token.head_ne_hash {dec : Str → Str} {tok : Token} {text : Str}
    (h : tok.Spelled dec text) : text.head? ≠ some (ch '#') := by
  intro hhead
  cases tok with
  | word w =>
    have hbound := h.1.run _ (List.mem_of_mem_head? hhead)
    cases hbound
  | flag name =>
    obtain ⟨n, rfl, -⟩ := h
    cases hhead
  | quoted t =>
    obtain ⟨raw, ⟨w, rfl, -⟩, -⟩ := h
    cases hhead
  | compound t =>
    obtain ⟨⟨b, rest, rfl, hopen, -⟩, -⟩ := h
    cases hhead
    rcases hopen with h | h <;> cases h
  | punct b =>
    obtain ⟨rfl, hb⟩ := h
    have hhash : b.1 = ch '#' := Option.some.inj hhead
    rw [hhash] at hb
    exact absurd hb (by decide)

/-- What comes after a command has no tokens. -/
theorem Trails.no_tokens {dec : Str → Str} {w t r : Str} {i : Input} {ts : List Token}
    (ht : Trails t) (heq : t = w ++ r) (h : Lexes dec w i ts) : ts = [] := by
  cases h with
  | nil => rfl
  | @cons gap text rest _ tok ts hgap hspelled hbounded hrest =>
    obtain ⟨gap', comment, rfl, hgap', hcomment⟩ := ht
    have hhash := Token.head_ne_hash hspelled
    obtain ⟨b, s, rfl, hb⟩ := Token.head_spelled hspelled
    exfalso
    cases comment with
    | nil =>
      rw [List.append_nil] at heq
      have hmem : b ∈ gap' := by simp [heq]
      rw [hgap' b hmem] at hb
      cases hb
    | cons c comment =>
      obtain rfl : c = ch '#' := by
        rcases hcomment with h | h
        · cases h
        · exact Option.some.inj h
      rw [List.append_assoc] at heq
      obtain ⟨-, hrest⟩ := eq_of_gaps hgap' hgap ⟨_, _, rfl, rfl⟩ ⟨b, _, rfl, hb⟩ heq
      obtain ⟨rfl, -⟩ := List.cons.inj hrest
      exact hhash rfl

def LineTokens (dec : Str → Str) (line : Str) (ts : List Token) : Prop :=
  ∃ text t, line = text ++ t ∧ Lexes dec text (ahead Input.ofByte .eof t) ts ∧ Trails t

theorem LineTokens.unique {dec : Str → Str} {line : Str} {ts ts' : List Token}
    (h : LineTokens dec line ts) (h' : LineTokens dec line ts') : ts = ts' := by
  have hshorter : ∀ {text text' t t' : Str} {ts ts' : List Token}, text ++ t = text' ++ t' →
      text.length ≤ text'.length → Lexes dec text (ahead Input.ofByte .eof t) ts →
      Lexes dec text' (ahead Input.ofByte .eof t') ts' → Trails t → ts = ts' := by
    intro text text' t t' ts ts' heq hle h h' ht
    obtain ⟨r, more, rfl, rfl, hmore⟩ := h.compare h' heq hle
    rw [List.append_assoc] at heq
    rw [ht.no_tokens (List.append_cancel_left heq) hmore, List.append_nil]
  obtain ⟨text, t, rfl, hts, ht⟩ := h
  obtain ⟨text', t', heq, hts', ht'⟩ := h'
  rcases Nat.le_total text.length text'.length with hle | hle
  · exact hshorter heq hle hts hts' ht
  · exact (hshorter heq.symm hle hts' hts ht').symm

theorem isLine_iff {C : Phrase Token Command} {line : Str} {c : Command} :
    IsLine C line c ↔ ∃ ts, LineTokens id line ts ∧ C ts c := by
  constructor
  · rintro ⟨htokens, h, hgap, hcomment⟩
    exact ⟨_, ⟨_, _, rfl, htokens, _, _, rfl, hgap, hcomment⟩, h⟩
  · rintro ⟨ts, ⟨text, -, rfl, htokens, gap, comment, rfl, hgap, hcomment⟩, h⟩
    exact .mk htokens h hgap hcomment

/-- The tokens of a well-formed line are a well-formed text. -/
theorem Trails.valid_text {text t : Str} (h : Trails t) (hv : Utf8.Valid (text ++ t)) :
    Utf8.Valid text := by
  obtain ⟨gap, comment, rfl, hgap, hcomment⟩ := h
  refine (Utf8.valid_before hv ?_).1
  intro b hb
  cases gap with
  | nil =>
    rcases hcomment with rfl | h
    · cases hb
    · obtain rfl := Option.mem_unique hb h
      decide
  | cons c gap =>
    cases hb
    exact isWs_lt (hgap b List.mem_cons_self)

theorem lineTokens_lossy_iff {line : Str} {ts : List Token} (hv : Utf8.Valid line) :
    LineTokens Utf8.lossy line ts ↔ LineTokens id line ts := by
  constructor
  · rintro ⟨text, t, rfl, h, ht⟩
    exact ⟨text, t, rfl, (lexes_lossy_iff (ht.valid_text hv)).mp h, ht⟩
  · rintro ⟨text, t, rfl, h, ht⟩
    exact ⟨text, t, rfl, (lexes_lossy_iff (ht.valid_text hv)).mpr h, ht⟩

/-- A parser that reads a phrase reads, with what a line ends with, the phrase of the
line's tokens. -/
theorem run_line {α : Type} {p : P α} {D : Phrase Token α}
    (hp : ∀ n, Reads n true p D fun _ => true) (line : Str) (v : α) :
    (keepLeft p Grammar.trailing).run line .eof = some v ↔
      ∃ ts, LineTokens Utf8.lossy line ts ∧ D ts v := by
  have hunique : ∀ {ts : List Token} {v v' : α}, D ts v → D ts v' → v = v' := by
    intro ts v v' h h'
    exact (hp (ts.length + 1)).delimited.value h h' (Nat.lt_succ_self _) nofun
  have hphrase : ∀ {u t : Str} {j : Input} {v : α}, line = u ++ t →
      (p.run u j = some v ↔ ∃ ts, Lexes Utf8.lossy u j ts ∧ D ts v) := by
    rintro u t j v rfl
    rw [(hp ((u ++ t).length + 1)).run u j v (by rw [List.length_append]; omega)]
    exact ⟨fun h => h.2, fun h => ⟨nofun, h⟩⟩
  have hvalue : ∀ {t : Str} {v v' : α},
      (.map Grammar.trailing fun _ => v' : P α).run t .eof = some v ↔ Trails t ∧ v' = v := by
    intro t v v'
    rw [run_map, Option.map_eq_some_iff]
    constructor
    · rintro ⟨a, ht, rfl⟩
      exact ⟨run_trailing.mp ht, rfl⟩
    · rintro ⟨ht, rfl⟩
      exact ⟨(), run_trailing.mpr ht, rfl⟩
  have hsplits : ∀ {v}, Reader.Splits Input.ofByte p.run
      (fun v => (.map Grammar.trailing fun _ => v : P α).run) line .eof v ↔
      ∃ ts, LineTokens Utf8.lossy line ts ∧ D ts v := by
    intro v
    constructor
    · rintro ⟨u, t, v', hline, hu, ht⟩
      obtain ⟨ts, hts, hv⟩ := (hphrase hline).mp hu
      obtain ⟨htrails, rfl⟩ := hvalue.mp ht
      exact ⟨ts, ⟨u, t, hline, hts, htrails⟩, hv⟩
    · rintro ⟨ts, ⟨u, t, hline, hts, ht⟩, hv⟩
      exact ⟨u, t, v, hline, (hphrase hline).mpr ⟨ts, hts, hv⟩, hvalue.mpr ⟨ht, rfl⟩⟩
  rw [keepLeft, run_bind, Reader.seq_eq_some_iff, hsplits]
  intro v v' h h'
  obtain ⟨ts, hts, hv⟩ := hsplits.mp h
  obtain ⟨ts', hts', hv'⟩ := hsplits.mp h'
  rw [← hts.unique hts'] at hv'
  exact hunique hv hv'

/-- The vocabulary has no part in what a line stands for. -/
theorem run_line_agree {α : Type} {p q : P α} (h : ∀ n, Agree n p q) (line : Str) :
    (keepLeft p Grammar.trailing).run line .eof = (keepLeft q Grammar.trailing).run line .eof :=
  ((h (line.length + 1)).keepLeft (.refl _)).run _ _ (Nat.lt_succ_self _)

theorem means_unique {ts : List Token} {c c' : Command} (h : Means ts c) (h' : Means ts c') :
    c = c' := by
  have hdelimited := (Grammar.reads_command (n := ts.length)).delimited
  exact hdelimited.value h h' (Nat.lt_succ_self _) nofun

/-- The whole-line parser reads the meaning of the line's tokens. -/
theorem run_commandLine [ApiDocs] (vocab : Vocab) (line : Str) (c : Command) :
    (commandLine vocab).run line .eof = some c ↔
      ∃ ts, LineTokens Utf8.lossy line ts ∧ Means ts c := by
  have hreads : ∀ n, Reads n true (Grammar.command Nt.bare) Means fun _ => true :=
    fun n => Grammar.reads_command.mono (Nat.le_succ n)
  rw [commandLine, run_line_agree (fun n => Grammar.agree_command n _), run_line hreads]

/-- The parser of an expression reads the expression of the line's tokens. -/
theorem run_exprLine [ApiDocs] (vocab : Vocab) (line : Str) (e : Expr) :
    (exprLine vocab).run line .eof = some e ↔
      ∃ ts, LineTokens Utf8.lossy line ts ∧ IsExpr ts e := by
  have hagree : ∀ n, Agree n (Grammar.expr (buildCx vocab) .normal) (Grammar.expr Nt.bare .normal) :=
    fun n => Grammar.agree_strip n (.expr (buildCx vocab) .normal)
  have hreads : ∀ n, Reads n true (Grammar.expr Nt.bare .normal) IsExpr fun _ => true := by
    intro n
    have hexpr : Reads n true (Grammar.expr Nt.bare .normal) (IsExprWith IsExpr .any) inExpr :=
      (Grammar.reads_expr (Grammar.reads_strip n) .normal).mono (Nat.le_succ n)
    refine (hexpr.widen fun _ _ => rfl).congr fun ts v => ?_
    constructor
    · exact IsExpr.mk
    · intro h
      cases h with
      | mk h => exact h
  rw [exprLine, run_line_agree hagree, run_line hreads]

/-- The meaning is one of the derivations. -/
theorem Bnf.Means.isCommand {ts : List Token} {c : Command} (h : Means ts c) : IsCommand ts c := by
  cases h with
  | detach h hprogram hpolicy _ => exact .detach h hprogram hpolicy
  | describe h _ => exact .describe h
  | other h _ _ => exact h

/-- Among the places where the program may end there is a last one. -/
theorem exists_longest {ts₁ ts₂ : List Token} {program policy : Expr}
    (h : Split ts₁ ts₂ program policy) (name : Str) :
    ∃ c, Longest name (ts₁ ++ Bnf.word "restart" :: ts₂) c := by
  classical
  let ends (k : ℕ) : Prop := ∃ ts₁' ts₂' program' policy', ts₁'.length = k ∧
    ts₁ ++ Bnf.word "restart" :: ts₂ = ts₁' ++ Bnf.word "restart" :: ts₂' ∧
      Split ts₁' ts₂' program' policy'
  have hbound : ∀ {ts₁' ts₂' : List Token},
      ts₁ ++ Bnf.word "restart" :: ts₂ = ts₁' ++ Bnf.word "restart" :: ts₂' →
      ts₁'.length ≤ (ts₁ ++ Bnf.word "restart" :: ts₂).length := by
    intro ts₁' ts₂' heq
    rw [heq, List.length_append]
    exact Nat.le_add_right _ _
  have hends : ends ts₁.length := ⟨ts₁, ts₂, program, policy, rfl, rfl, h⟩
  obtain ⟨ts₁', ts₂', program', policy', hlen, heq, hsplit⟩ :=
    Nat.findGreatest_spec (hbound rfl) hends
  refine ⟨_, ts₁', ts₂', program', policy', heq, hsplit, rfl, ?_⟩
  intro ts₁'' ts₂'' program'' policy'' heq' hsplit'
  rw [hlen]
  exact Nat.le_findGreatest (hbound heq') ⟨ts₁'', ts₂'', program'', policy'', rfl, heq', hsplit'⟩

/-- The command `detach` with its parts. -/
def DetachOf (ts : List Token) (c : Command) : Prop :=
  ∃ ts' ts₁ ts₂ name program policy,
    ts = Bnf.word "detach" :: (ts' ++ Bnf.equals :: (ts₁ ++ Bnf.word "restart" :: ts₂)) ∧
      IsName ts' name ∧ Split ts₁ ts₂ program policy ∧ c = .detach name program policy

/-- Only `detach` begins with its word. -/
theorem Bnf.IsCommand.detachOf {ts : List Token} {c : Command} (h : IsCommand ts c)
    (hhead : ts.head? = some (Bnf.word "detach")) : DetachOf ts c := by
  cases h with
  | detach h hprogram hpolicy => exact ⟨_, _, _, _, _, _, rfl, h, ⟨hprogram, hpolicy⟩, rfl⟩
  | run h =>
    obtain ⟨t, ht, hstart⟩ := startsWith_isExprWith _ _ h
    rw [Option.mem_unique ht hhead] at hstart
    exact absurd hstart (by decide)
  | empty => cases hhead
  | _ => exact absurd (Option.some.inj hhead) (by decide)

/-- Only `describe` describes an expression. -/
theorem Bnf.IsCommand.describeOf {ts : List Token} {c : Command} {e : Expr} (h : IsCommand ts c)
    (hc : c = .describe e) : ∃ ts', ts = Bnf.word "describe" :: ts' ∧ IsExpr ts' e := by
  cases h with
  | describe h =>
    cases hc
    exact ⟨_, rfl, h⟩
  | describeCard h => exact absurd hc (card_ne_describe e)
  | _ => cases hc

/-- A derivation is the meaning, a split of `detach`, or an expression where there is a
card. -/
inductive Reading (ts : List Token) (c : Command) : Prop where
  | means (hhead : ts.head? ≠ some (Bnf.word "detach")) (h : Means ts c)
  | detach (hhead : ts.head? = some (Bnf.word "detach")) (h : DetachOf ts c)
  | describe {w : Str} {e : Expr} (hts : ts = [Bnf.word "describe", .word w]) (hcard : Carded w)
      (h : IsExpr [.word w] e) (hc : c = .describe e)

theorem Bnf.IsCommand.reading {ts : List Token} {c : Command} (h : IsCommand ts c) :
    Reading ts c := by
  by_cases hhead : ts.head? = some (Bnf.word "detach")
  · exact .detach hhead (h.detachOf hhead)
  · by_cases hdescribe : ∃ e, c = .describe e
    · obtain ⟨e, rfl⟩ := hdescribe
      obtain ⟨ts', rfl, he⟩ := h.describeOf rfl
      by_cases hcard : ∃ w, ts' = [.word w] ∧ Carded w
      · obtain ⟨w, rfl, hw⟩ := hcard
        exact .describe rfl hw he rfl
      · exact .means hhead (.describe he fun w hts hw => hcard ⟨w, hts, hw⟩)
    · exact .means hhead (.other h hhead fun e hc => hdescribe ⟨e, hc⟩)

/-- A line of tokens that has a derivation has a meaning. -/
theorem exists_means {ts : List Token} {c : Command} (h : IsCommand ts c) : ∃ c', Means ts c' := by
  cases h.reading with
  | means hhead h => exact ⟨c, h⟩
  | detach hhead h =>
    obtain ⟨ts', ts₁, ts₂, name, program, policy, rfl, hname, hsplit, rfl⟩ := h
    obtain ⟨c', ts₁', ts₂', program', policy', heq, hsplit', rfl, hmax⟩ :=
      exists_longest hsplit name
    refine ⟨.detach name program' policy', ?_⟩
    rw [heq]
    exact .detach hname hsplit'.1 hsplit'.2 fun _ _ _ _ h hp hq =>
      hmax _ _ _ _ (heq.trans h) ⟨hp, hq⟩
  | describe hts hcard h hc =>
    subst hts
    exact ⟨_, .other (.describeCard hcard) (fun h => by cases h) card_ne_describe⟩

theorem isName_unique {ts ts' r r' : List Token} {name name' : Str} (h : IsName ts name)
    (h' : IsName ts' name') (heq : ts ++ r = ts' ++ r') : name = name' := by
  have hname : Reads ((ts ++ r).length + 1) true (Grammar.tPlainWord : P Str) IsName fun _ => false :=
    Grammar.reads_tPlainWord
  exact (hname.delimited ts ts' r r' name name' h h' heq (Nat.lt_succ_self _) (fun _ _ => rfl)
    fun _ _ => rfl).2

/-- Two derivations of one line of tokens are the same up to the documented ambiguities. -/
theorem derivation_unique {ts : List Token} {c c' : Command} (h : IsCommand ts c)
    (h' : IsCommand ts c') : c = c' ∨ Ambiguous c c' ∨ Ambiguous c' c := by
  have hcard : ∀ {w : Str} {c : Command}, Carded w →
      Means [Bnf.word "describe", .word w] c → c = card w := by
    intro w c hw h
    exact means_unique h (.other (.describeCard hw) (fun h => by cases h) card_ne_describe)
  cases h.reading with
  | means hhead h =>
    cases h'.reading with
    | means hhead' h' => exact Or.inl (means_unique h h')
    | detach hhead' h' => exact absurd hhead' hhead
    | describe hts hw he hc =>
      subst hts
      rw [hcard hw h, hc]
      exact Or.inr (Or.inl (.card hw))
  | detach hhead h =>
    cases h'.reading with
    | means hhead' h' => exact absurd hhead hhead'
    | detach hhead' h' =>
      obtain ⟨ts', ts₁, ts₂, name, program, policy, rfl, hname, hsplit, rfl⟩ := h
      obtain ⟨us', us₁, us₂, name', program', policy', heq, hname', hsplit', rfl⟩ := h'
      obtain rfl := isName_unique hname hname' (List.cons.inj heq).2
      exact Or.inr (Or.inl .detach)
    | describe hts hw he hc =>
      subst hts
      cases hhead
  | describe hts hw he hc =>
    subst hts
    cases h'.reading with
    | means hhead' h' =>
      rw [hcard hw h', hc]
      exact Or.inr (Or.inr (.card hw))
    | detach hhead' h' => cases hhead'
    | describe hts' hw' he' hc' =>
      obtain rfl := Token.word.inj (List.cons.inj (List.cons.inj hts').2).1
      rw [hc, hc', Grammar.isExpr_unique he he']
      exact Or.inl rfl

theorem Parse.run_eq_ok {α : Type} {p : P α} {line : Text} {v : α} :
    Parse.run p line = .ok (.ok v) ↔ p.run line.bytes .eof = some v := by
  rw [Parse.run, Parse.runFrom_eq_ok, Utf8.flatten_chars line.valid]

theorem parseCommand_iff [ApiDocs] {line : Text} {c : Command} :
    parseCommand line = .ok (.ok c) ↔ ∃ ts, LineTokens id line.bytes ts ∧ Means ts c := by
  rw [parseCommand, Parse.run_eq_ok, run_commandLine]
  simp only [lineTokens_lossy_iff line.valid]

theorem parseExpr_iff [ApiDocs] {line : Text} {e : Expr} :
    parseExpr line = .ok (.ok e) ↔ ∃ ts, LineTokens id line.bytes ts ∧ IsExpr ts e := by
  rw [parseExpr, Parse.run_eq_ok, run_exprLine]
  simp only [lineTokens_lossy_iff line.valid]

/-- Parsing a line gives the meaning of the line in the documented grammar: it succeeds
exactly on the lines that have a derivation, and of several derivations, which are the
documented ambiguities only, it takes the documented one. -/
theorem parseCommand_grammar [ApiDocs] (line : Text) :
    (∀ c, parseCommand line = .ok (.ok c) ↔ IsLine Means line.bytes c) ∧
    ((∃ c, parseCommand line = .ok (.ok c)) ↔ ∃ c, IsLine IsCommand line.bytes c) ∧
    ∀ c c', IsLine IsCommand line.bytes c → IsLine IsCommand line.bytes c' →
      c = c' ∨ Ambiguous c c' ∨ Ambiguous c' c := by
  have hparse : ∀ c, parseCommand line = .ok (.ok c) ↔ IsLine Means line.bytes c := by
    intro c
    rw [parseCommand_iff, isLine_iff]
  refine ⟨hparse, ?_, ?_⟩
  · simp only [hparse, isLine_iff]
    constructor
    · rintro ⟨c, ts, hts, hc⟩
      exact ⟨c, ts, hts, hc.isCommand⟩
    · rintro ⟨c, ts, hts, hc⟩
      obtain ⟨c', hc'⟩ := exists_means hc
      exact ⟨c', ts, hts, hc'⟩
  · intro c c' h h'
    obtain ⟨ts, hts, hc⟩ := isLine_iff.mp h
    obtain ⟨ts', hts', hc'⟩ := isLine_iff.mp h'
    rw [← hts.unique hts'] at hc'
    exact derivation_unique hc hc'

end Eo9.Eosh
