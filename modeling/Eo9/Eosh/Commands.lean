import Eo9.Eosh.Parse
import Eo9.Eosh.Parsing

/-!
# Command lines read their derivations

The alternatives of a command begin with different words, except that a word of
`describe` may be a card or an expression and that the program of `detach` may go
on past a `restart`. In the first case the order of the alternatives decides, in
the second the longest program. With its trailing comment the line is read as the
documented grammar has it.
-/

namespace Eo9.Eosh

open Eo9.Library Eo9.Eosh.Parser Eo9.Eosh.Bnf

namespace Bnf

theorem card_ne_describe {w : Str} (e : Expr) : card w ≠ .describe e := by
  rw [card]
  split_ifs <;> exact Command.noConfusion

/-- One token, which stands for `v`. -/
def exactly {α : Type} (tok : Token) (v : α) : Phrase Token α := fun ts a => ts = [tok] ∧ a = v

theorem startsWith_exactly {α : Type} (tok : Token) (v : α) :
    StartsWith (exactly tok v) fun t => t == tok := by
  rintro ts a ⟨rfl, -⟩
  exact starts_cons.mpr (beq_self_eq_true tok)

/-- Where the program of `detach` may end. -/
def Split (ts₁ ts₂ : List Token) (program policy : Expr) : Prop :=
  IsExpr ts₁ program ∧ IsExpr ts₂ policy

/-- What comes after the equals sign of `detach`: the longest program, and the policy. -/
def Longest (name : Str) : Phrase Token Command := fun ts c =>
  ∃ ts₁ ts₂ program policy, ts = ts₁ ++ word "restart" :: ts₂ ∧ Split ts₁ ts₂ program policy ∧
    c = .detach name program policy ∧ ∀ ts₁' ts₂' program' policy',
      ts = ts₁' ++ word "restart" :: ts₂' → Split ts₁' ts₂' program' policy' →
        ts₁'.length ≤ ts₁.length

end Bnf

namespace Grammar

open Nt (bare)

variable {n : ℕ}

/-- An expression inside a command. -/
theorem reads_inner : Reads n true (exprL bare .normal) IsExpr inExpr :=
  reads_exprL (reads_strip n)

theorem reads_inner_end : Reads n true (exprL bare .normal) IsExpr fun _ => true :=
  reads_inner.widen fun _ _ => rfl

/-- An expression has one tree. -/
theorem isExpr_unique {ts : List Token} {e e' : Expr} (h : IsExpr ts e) (h' : IsExpr ts e') :
    e = e' := by
  have hdelimited := (reads_inner_end (n := ts.length + 1)).delimited
  exact hdelimited.value h h' (Nat.lt_succ_self _) nofun

/-- What comes after the program of `detach`. -/
def restart (name : Str) (program : Expr) : P Command :=
  .map (keepRight (tKw "restart" .keyword) (exprL bare .normal)) fun policy =>
    .detach name program policy

theorem reads_restart (name : Str) (program : Expr) :
    Reads (n + 1) true (restart name program)
      ((after (Bnf.word "restart") IsExpr).map (Command.detach name program)) fun _ => true :=
  (reads_behindKw (by decide) reads_inner_end).map _

/-- The longest program before a policy. -/
theorem reads_longest (name : Str) :
    Reads (n + 1) true (.bind (exprL bare .normal) (restart name)) (Longest name)
      fun _ => true := by
  have hunique : ∀ ts v v', Longest name ts v → Longest name ts v' → v = v' := by
    rintro ts v v' ⟨ts₁, ts₂, program, policy, hts, hsplit, rfl, hmax⟩
      ⟨ts₁', ts₂', program', policy', hts', hsplit', rfl, hmax'⟩
    have hlen : ts₁.length = ts₁'.length :=
      Nat.le_antisymm (hmax' _ _ _ _ hts hsplit) (hmax _ _ _ _ hts' hsplit')
    rw [hts] at hts'
    obtain ⟨rfl, htail⟩ := List.append_inj hts' hlen
    obtain ⟨-, rfl⟩ := List.cons.inj htail
    rw [isExpr_unique hsplit.1 hsplit'.1, isExpr_unique hsplit.2 hsplit'.2]
  refine ⟨fun w i v hw => ?_, delimited_end fun ts v v' hv hv' _ => hunique ts v v' hv hv'⟩
  have hexpr : ∀ {u t : Str} {j : Input} {e : Expr}, w = u ++ t →
      ((exprL bare .normal).run u j = some e ↔ ∃ ts, Lexes Utf8.lossy u j ts ∧ IsExpr ts e) := by
    rintro u t j e rfl
    rw [List.length_append] at hw
    rw [(reads_inner (n := n + 1)).run u j e (by omega)]
    exact ⟨fun h => h.2, fun h => ⟨nofun, h⟩⟩
  have hrest : ∀ {u t : Str} {e : Expr} {v : Command}, w = u ++ t →
      ((restart name e).run t i = some v ↔
      ∃ ts policy, Lexes Utf8.lossy t i (Bnf.word "restart" :: ts) ∧ IsExpr ts policy ∧
        v = .detach name e policy) := by
    rintro u t e v rfl
    rw [List.length_append] at hw
    rw [(reads_restart (n := n) name e).run t i v (by omega)]
    constructor
    · rintro ⟨-, -, hts, policy, ⟨ts, rfl, hp⟩, rfl⟩
      exact ⟨ts, policy, hts, hp, rfl⟩
    · rintro ⟨ts, policy, hts, hp, rfl⟩
      exact ⟨nofun, _, hts, policy, ⟨ts, rfl, hp⟩, rfl⟩
  rw [run_bind]
  have hforth : ∀ {v : Command}, Reader.seq Input.ofByte (exprL bare .normal : P Expr).run
      (fun e => (restart name e).run) w i = some v →
      ∃ ts, Lexes Utf8.lossy w i ts ∧ Longest name ts v := by
    intro v hseq
    obtain ⟨u, t, e, hw, he, hv, hmax⟩ := Reader.seq_longest hseq
    obtain ⟨ts₁, hts₁, hprogram⟩ := (hexpr hw).mp he
    obtain ⟨ts₂, policy, hts₂, hpol, rfl⟩ := (hrest hw).mp hv
    refine ⟨_, hw ▸ hts₁.append hts₂, ts₁, ts₂, e, policy, rfl, ⟨hprogram, hpol⟩, rfl, ?_⟩
    intro ts₁' ts₂' program' policy' heq hsplit
    by_contra hlt
    have hall : Lexes Utf8.lossy w i (ts₁' ++ Bnf.word "restart" :: ts₂') := by
      rw [← heq, hw]
      exact hts₁.append hts₂
    obtain ⟨u', t', hw', hu', ht'⟩ := hall.split
    have hlonger : u.length < u'.length := by
      by_contra hle
      obtain ⟨-, more, -, rfl, -⟩ := hu'.compare hts₁ (hw'.symm.trans hw) (Nat.not_lt.mp hle)
      rw [List.length_append] at hlt
      omega
    have hnone := hmax u' t' program' hw' hlonger ((hexpr hw').mpr ⟨_, hu', hsplit.1⟩)
    rw [(hrest hw').mpr ⟨_, _, ht', hsplit.2, rfl⟩] at hnone
    cases hnone
  constructor
  · exact fun hseq => ⟨nofun, hforth hseq⟩
  · rintro ⟨-, ts, hts, hlongest⟩
    obtain ⟨ts₁, ts₂, e, policy, rfl, hsplit, rfl, -⟩ := id hlongest
    obtain ⟨u, t, hw', hu, ht⟩ := hts.split
    have hsplits : Reader.Splits Input.ofByte (exprL bare .normal : P Expr).run
        (fun e => (restart name e).run) w i _ :=
      ⟨u, t, e, hw', (hexpr hw').mpr ⟨_, hu, hsplit.1⟩,
        (hrest hw').mpr ⟨_, _, ht, hsplit.2, rfl⟩⟩
    obtain ⟨v, hv⟩ := Option.isSome_iff_exists.mp (Reader.seq_isSome_of_splits hsplits)
    obtain ⟨ts', hts', hlongest'⟩ := hforth hv
    rw [hts'.unique hts] at hlongest'
    rw [hv, hunique _ _ _ hlongest' hlongest]

/-- A word that stands for a command. -/
theorem reads_lone {word : String} {tag : Tag} {goes : Token → Bool} {α : Type} (v : α)
    (hword : BareWord (ascii word)) :
    Reads n true (.map (tKw word tag) fun _ => v) (exactly (Bnf.word word) v) goes := by
  apply ((reads_tKw hword).map fun _ => v).congr
  intro ts a
  constructor
  · rintro ⟨-, ⟨t, rfl, rfl⟩, rfl⟩
    exact ⟨rfl, rfl⟩
  · rintro ⟨rfl, rfl⟩
    exact ⟨(), ⟨_, rfl, rfl⟩, rfl⟩

/-- A punctuation byte, behind white space or not, that stands for a command. -/
theorem reads_punct {gap : Bool} {b : Ascii} {goes : Token → Bool} {α : Type} {p : P Unit} (v : α)
    (h : Reads n gap p (single fun t _ => t = .punct b) goes) :
    Reads n gap (.map p fun _ => v) (exactly (.punct b) v) goes := by
  apply (h.map fun _ => v).congr
  intro ts a
  constructor
  · rintro ⟨-, ⟨t, rfl, rfl⟩, rfl⟩
    exact ⟨rfl, rfl⟩
  · rintro ⟨rfl, rfl⟩
    exact ⟨(), ⟨_, rfl, rfl⟩, rfl⟩

/-- `let` and `save`. -/
theorem reads_nameEqExpr {word : String} (build : Str → Expr → Command)
    (hword : BareWord (ascii word)) :
    Reads (n + 1) true (nameEqExpr bare word build) (after (Bnf.word word)
      (IsName.seq fun name => (after Bnf.equals IsExpr).map (build name))) fun _ => true := by
  have hname : Reads (n + 1) true tPlainWord IsName fun _ => false := reads_tPlainWord
  have hexpr : Reads (n + 1) true (keepRight (tByte equals) (exprL bare .normal))
      (after Bnf.equals IsExpr) fun _ => true := reads_behind (by decide) reads_inner_end
  have hbody := hname.bind (fun name => hexpr.map (build name)) nofun fun _ => follows_closed _
  exact (reads_behindKw hword hbody).mono (Nat.le_succ _)

theorem reads_detach : Reads (n + 1) true (detach bare) (after (Bnf.word "detach")
    (IsName.seq fun name => after Bnf.equals (Longest name))) fun _ => true := by
  have hname : Reads (n + 1) true tPlainWord IsName fun _ => false := reads_tPlainWord
  have hrest : ∀ name, Reads (n + 1) true (keepRight (tByte equals)
      (.bind (exprL bare .normal) (restart name))) (after Bnf.equals (Longest name))
      fun _ => true := fun name =>
    (reads_behind (by decide) (reads_longest name)).mono (Nat.le_succ _)
  have hbody := hname.bind hrest nofun fun _ => follows_closed _
  exact (reads_behindKw (by decide) hbody).mono (Nat.le_succ _)

/-- The words of `svc` that take a name. -/
inductive SvcOf : Phrase Token Command where
  | log {ts : List Token} {name : Str} (h : IsName ts name) :
      SvcOf (Bnf.word "log" :: ts) (.svcLog name)
  | stop {ts : List Token} {name : Str} (h : IsName ts name) :
      SvcOf (Bnf.word "stop" :: ts) (.svcStop name)
  | clear {ts : List Token} {name : Str} (h : IsName ts name) :
      SvcOf (Bnf.word "clear" :: ts) (.svcClear name)

theorem reads_svcOf : Reads (n + 1) true (.bind (.alt [
      .map (tKw "log" .builtin) fun _ => (0 : UInt8),
      .map (tKw "stop" .builtin) fun _ => 1,
      .map (tKw "clear" .builtin) fun _ => 2]) fun which =>
        .map tPlainWord fun name =>
          if which = 0 then .svcLog name else if which = 1 then .svcStop name else .svcClear name)
    SvcOf fun _ => true := by
  have hall : ∀ x ∈ [
      ((.map (tKw "log" .builtin) fun _ => (0 : UInt8) : P UInt8), exactly (Bnf.word "log") 0,
        fun t => t == Bnf.word "log"),
      (.map (tKw "stop" .builtin) fun _ => 1, exactly (Bnf.word "stop") 1,
        fun t => t == Bnf.word "stop"),
      (.map (tKw "clear" .builtin) fun _ => 2, exactly (Bnf.word "clear") 2,
        fun t => t == Bnf.word "clear")],
      Reads (n + 1) true x.1 x.2.1 (fun _ => false) ∧ StartsWith x.2.1 x.2.2 := by
    simp only [List.forall_mem_cons, List.not_mem_nil, false_implies, implies_true, and_true]
    exact ⟨⟨reads_lone _ (by decide), startsWith_exactly _ _⟩,
      ⟨reads_lone _ (by decide), startsWith_exactly _ _⟩,
      ⟨reads_lone _ (by decide), startsWith_exactly _ _⟩⟩
  have halt := Reads.alt_starts _ hall (by
    simp only [List.map_cons, List.map_nil, List.pairwise_cons, List.mem_cons, List.not_mem_nil,
      or_false, forall_eq_or_imp, forall_eq, false_implies, implies_true, List.Pairwise.nil,
      and_true]
    exact ⟨⟨only_token rfl, only_token rfl⟩, only_token rfl⟩)
  have hname : Reads (n + 1) true tPlainWord IsName fun _ => true := reads_tPlainWord
  apply (halt.bind (fun which => hname.map _) nofun fun _ => follows_closed _).congr
  intro ts v
  constructor
  · rintro ⟨ts₁, ts₂, which, rfl, ⟨D, hD, h⟩, name, hname, rfl⟩
    simp only [List.map_cons, List.map_nil, List.mem_cons, List.not_mem_nil, or_false] at hD
    rcases hD with rfl | rfl | rfl <;> obtain ⟨rfl, rfl⟩ := h
    · exact .log hname
    · exact .stop hname
    · exact .clear hname
  · intro h
    cases h with
    | log h => exact ⟨[_], _, 0, rfl, ⟨_, .head _, rfl, rfl⟩, _, h, rfl⟩
    | stop h => exact ⟨[_], _, 1, rfl, ⟨_, .tail _ (.head _), rfl, rfl⟩, _, h, rfl⟩
    | clear h => exact ⟨[_], _, 2, rfl, ⟨_, .tail _ (.tail _ (.head _)), rfl, rfl⟩, _, h, rfl⟩

/-- What follows `svc`. -/
def svcForms : Phrase Token Command := fun ts c =>
  Phrase.empty .svcList ts c ∨ exactly (Bnf.word "list") .svcList ts c ∨ SvcOf ts c

/-- The first words of those forms. -/
def startsSvc (t : Token) : Bool :=
  t == Bnf.word "log" || t == Bnf.word "stop" || t == Bnf.word "clear"

theorem startsWith_svcOf : StartsWith SvcOf startsSvc := by
  intro ts v h
  cases h <;> exact starts_cons.mpr (by decide)

theorem reads_svc : Reads (n + 1) true svc (after (Bnf.word "svc") svcForms) fun _ => true := by
  have hall : ∀ x ∈ [
      ((.pure .svcList : P Command), Phrase.empty .svcList, fun r => r = []),
      (.map (tKw "list" .builtin) fun _ => .svcList, exactly (Bnf.word "list") .svcList,
        Starts fun t => t == Bnf.word "list"),
      (.bind (.alt [
        .map (tKw "log" .builtin) fun _ => (0 : UInt8),
        .map (tKw "stop" .builtin) fun _ => 1,
        .map (tKw "clear" .builtin) fun _ => 2]) fun which =>
          .map tPlainWord fun name =>
            if which = 0 then .svcLog name else if which = 1 then .svcStop name else .svcClear name,
        SvcOf, Starts startsSvc)],
      Reads (n + 1) true x.1 x.2.1 (fun _ => true) ∧
        x.2.1.Begins (Stops fun _ => true) x.2.2 := by
    simp only [List.forall_mem_cons, List.not_mem_nil, false_implies, implies_true, and_true]
    refine ⟨⟨.pure _, ?_⟩, ⟨reads_lone _ (by decide), (startsWith_exactly _ _).begins _⟩,
      reads_svcOf, startsWith_svcOf.begins _⟩
    rintro ts v r ⟨rfl, -⟩ hr
    exact stops_all.mp hr
  have halt := Reads.alt _ hall (by
    simp only [List.map_cons, List.map_nil, List.pairwise_cons, List.mem_cons, List.not_mem_nil, or_false, forall_eq_or_imp,
      forall_eq, false_implies, implies_true, List.Pairwise.nil, and_true]
    exact ⟨⟨not_starts_nil, not_starts_nil⟩, Starts.apart (only_token (by decide))⟩)
  have hbody : Reads (n + 2) true (keepRight (tKw "svc" .builtin) _) (after (Bnf.word "svc") _)
      fun _ => true := reads_behindKw (by decide) halt
  apply (hbody.mono (Nat.le_succ _)).congr
  intro ts v
  simp [after, svcForms, Phrase.anyOf]

/-- `env`, alone or of an expression. -/
theorem reads_env : Reads (n + 1) true
    (keepRight (tKw "env" .builtin) (.alt [.pure .env, .map (exprL bare .normal) .envOf]))
    (after (Bnf.word "env") fun ts c => (ts = [] ∧ c = .env) ∨ IsExpr.map Command.envOf ts c)
    fun _ => true := by
  have hexpr := (reads_inner_end (n := n)).map Command.envOf
  exact reads_behindKw (by decide) (hexpr.alt_pure (startsWith_isExpr.map _) fun _ _ => rfl)

def CardWord : Phrase Token Command := fun ts c => ∃ w, ts = [.word w] ∧ Carded w ∧ c = card w

theorem reads_cardRoute {goes : Token → Bool} (w : Str) :
    Reads n true (cardRoute w) (fun ts c => ts = [] ∧ Carded w ∧ c = card w) goes := by
  rw [cardRoute]
  split_ifs with hdoc hcolon
  · apply (Reads.pure _).congr
    intro ts c
    simp [Phrase.empty, Carded, card, hdoc]
  · apply (Reads.pure _).congr
    intro ts c
    have hmem := List.contains_iff_mem.mp hcolon
    simp [Phrase.empty, Carded, card, hdoc, hmem]
  · apply (Reads.none fun w i => ?_).congr
    · intro ts c
      constructor
      · exact False.elim
      · rintro ⟨-, hcard, -⟩
        rcases hcard with h | h
        · exact hdoc h
        · exact hcolon (List.contains_iff_mem.mpr h)
    · exact run_fail

theorem reads_cardWord {goes : Token → Bool} : Reads n true
    (keepRight ws (.alt [.bind (capBareWord []) cardRoute, overlayWords []])) CardWord goes := by
  have hword : Reads n false (.bind (capBareWord []) cardRoute) CardWord goes := by
    have hcap : Reads n false (capBareWord [] : P Str)
        (single fun t v => t = .word v ∧ v ∉ []) fun _ => false := .capBareWord allAscii_nil
    apply (hcap.bind reads_cardRoute (fun _ => nonempty_single) fun _ => follows_closed _).congr
    intro ts c
    constructor
    · rintro ⟨-, -, w, rfl, ⟨t, rfl, rfl, -⟩, rfl, hcard, rfl⟩
      exact ⟨w, rfl, hcard, rfl⟩
    · rintro ⟨w, rfl, hcard, rfl⟩
      exact ⟨_, [], w, rfl, ⟨_, rfl, rfl, List.not_mem_nil⟩, rfl, hcard, rfl⟩
  have hstarts : StartsWith CardWord isWord := by
    rintro ts c ⟨w, rfl, -⟩
    exact starts_cons.mpr rfl
  have hnone : Reads n false (overlayWords [] : P Command) (fun _ _ => False) goes :=
    .none fun _ _ => run_overlay
  have hnever : StartsWith (fun _ _ => False : Phrase Token Command) fun _ => false :=
    fun _ _ h => h.elim
  have halt := Reads.either ⟨hword, hstarts⟩ ⟨hnone, hnever⟩ fun _ _ => rfl
  refine Reads.ws (halt.congr fun ts c => ?_) hstarts.nonempty
  rw [or_false]

/-- What follows `describe`: a card comes before an expression. -/
inductive DescribeOf : Phrase Token Command where
  | dollar : DescribeOf [Bnf.dollar] (.describeBuiltin (ascii "$"))
  | ampersand : DescribeOf [Bnf.ampersand] (.describeBuiltin (ascii "&"))
  | card {w : Str} (h : Carded w) : DescribeOf [.word w] (card w)
  | expr {ts : List Token} {e : Expr} (h : IsExpr ts e) (hcard : ∀ w, ts = [.word w] → ¬ Carded w) :
      DescribeOf ts (.describe e)

theorem reads_describe : Reads (n + 1) true (describe bare)
    (after (Bnf.word "describe") DescribeOf) fun _ => true := by
  have hall : ∀ x ∈ [
      ((.map (tByte dollar) fun _ => .describeBuiltin (ascii "$") : P Command),
        exactly Bnf.dollar (.describeBuiltin (ascii "$"))),
      (.map (tByte ampersand) fun _ => .describeBuiltin (ascii "&"),
        exactly Bnf.ampersand (.describeBuiltin (ascii "&"))),
      (keepRight ws (.alt [.bind (capBareWord []) cardRoute, overlayWords []]), CardWord),
      (.map (exprL bare .normal) .describe, IsExpr.map Command.describe)],
      Reads n true x.1 x.2 fun _ => true := by
    simp only [List.forall_mem_cons, List.not_mem_nil, false_implies, implies_true, and_true]
    exact ⟨reads_punct _ (reads_tByte (by decide)), reads_punct _ (reads_tByte (by decide)),
      reads_cardWord, reads_inner_end.map _⟩
  have hbody : Reads (n + 1) true (describe bare) (after (Bnf.word "describe") _) fun _ => true :=
    reads_behindKw (by decide) (Reads.firstOf _ hall)
  apply hbody.congr
  intro ts c
  refine exists_congr fun ts' => and_congr Iff.rfl ?_
  simp only [Phrase.firstOf, List.map_cons, List.map_nil]
  constructor
  · rintro (⟨rfl, rfl⟩ | ⟨-, (⟨rfl, rfl⟩ | ⟨-, (⟨w, rfl, hcard, rfl⟩ |
      ⟨hcard, (⟨e, he, rfl⟩ | ⟨-, hfalse⟩)⟩)⟩)⟩)
    · exact .dollar
    · exact .ampersand
    · exact .card hcard
    · exact .expr he fun w hw h => hcard _ ⟨w, hw, h, rfl⟩
    · exact hfalse.elim
  · -- a dollar, an ampersand and a card are told apart by their tokens
    have hexpr : ∀ {tok e}, startsExpr .any tok = false → ¬ IsExpr [tok] e := by
      intro tok e htok h
      have hstart := starts_cons.mp (startsWith_isExpr _ _ h)
      rw [htok] at hstart
      cases hstart
    have hother : ∀ {t tok : Token} {c a : Command}, t ≠ tok → ¬ exactly tok c [t] a :=
      fun hne h => hne (List.cons.inj h.1).1
    intro h
    cases h with
    | dollar => exact Or.inl ⟨rfl, rfl⟩
    | ampersand => exact Or.inr ⟨fun a => hother (by decide), Or.inl ⟨rfl, rfl⟩⟩
    | card h =>
      exact Or.inr ⟨fun a => hother nofun, Or.inr ⟨fun a => hother nofun,
        Or.inl ⟨_, rfl, h, rfl⟩⟩⟩
    | expr h hcard =>
      refine Or.inr ⟨?_, Or.inr ⟨?_, Or.inr ⟨?_, Or.inl ⟨_, h, rfl⟩⟩⟩⟩
      · rintro a ⟨rfl, -⟩
        exact hexpr (by decide) h
      · rintro a ⟨rfl, -⟩
        exact hexpr (by decide) h
      · rintro a ⟨w, hw, hc, -⟩
        exact hcard w hw hc

/-- What follows `man`. -/
inductive ManOf : Phrase Token Command where
  | dollar : ManOf [Bnf.dollar] (.man (ascii "$"))
  | ampersand : ManOf [Bnf.ampersand] (.man (ascii "&"))
  | word {w : Str} : ManOf [.word w] (.man w)
  | compound {raw : Str} : ManOf [.compound raw] (.man raw)

theorem reads_man : Reads (n + 1) true (man bare) (after (Bnf.word "man") ManOf)
    fun _ => true := by
  have hword : Reads n false (capBareWord [] : P Str) (single fun t v => t = .word v)
      (fun _ => true) ∧ StartsWith (single fun t (v : Str) => t = .word v) isWord :=
    ⟨(Reads.capBareWord allAscii_nil).congr fun ts v => by simp [single],
      startsWith_single (by rintro t v rfl; rfl)⟩
  have hall : ∀ x ∈ [
      ((.map (litByte dollar) fun _ => .man (ascii "$") : P Command),
        exactly Bnf.dollar (.man (ascii "$")), fun t => t == Bnf.dollar),
      (.map (litByte ampersand) fun _ => .man (ascii "&"),
        exactly Bnf.ampersand (.man (ascii "&")), fun t => t == Bnf.ampersand),
      (.map (capBareWord []) .man,
        (single fun t v => t = .word v).map Command.man, isWord),
      (.map capCompound .man, (single fun t v => t = .compound v).map Command.man, isCompound),
      (overlayWords [], (fun _ _ => False), fun _ => false)],
      Reads n false x.1 x.2.1 (fun _ => true) ∧ StartsWith x.2.1 x.2.2 := by
    simp only [List.forall_mem_cons, List.not_mem_nil, false_implies, implies_true, and_true]
    exact ⟨⟨reads_punct _ (.litByte (by decide)), startsWith_exactly _ _⟩,
      ⟨reads_punct _ (.litByte (by decide)), startsWith_exactly _ _⟩, reads_map hword _,
      reads_map reads_compound _, .none fun _ _ => run_overlay, fun _ _ h => h.elim⟩
  have halt := Reads.alt_starts _ hall (by
    simp only [List.map_cons, List.map_nil, List.pairwise_cons, List.mem_cons, List.not_mem_nil,
      or_false, forall_eq_or_imp, forall_eq, false_implies, implies_true, List.Pairwise.nil,
      and_true]
    refine ⟨⟨only_token rfl, only_token rfl, only_token rfl⟩,
      ⟨only_token rfl, only_token rfl⟩, ?_⟩
    intro t ht
    cases t <;> first | rfl | cases ht)
  have hforms : Reads n false _ ManOf fun _ => true := halt.congr fun ts c => by
    constructor
    · rintro ⟨D, hD, h⟩
      simp only [List.map_cons, List.map_nil, List.mem_cons, List.not_mem_nil, or_false] at hD
      rcases hD with rfl | rfl | rfl | rfl | rfl
      · obtain ⟨rfl, rfl⟩ := h
        exact .dollar
      · obtain ⟨rfl, rfl⟩ := h
        exact .ampersand
      · obtain ⟨w, ⟨t, rfl, rfl⟩, rfl⟩ := h
        exact .word
      · obtain ⟨raw, ⟨t, rfl, rfl⟩, rfl⟩ := h
        exact .compound
      · exact h.elim
    · intro h
      cases h with
      | dollar => exact ⟨_, .head _, rfl, rfl⟩
      | ampersand => exact ⟨_, .tail _ (.head _), rfl, rfl⟩
      | word => exact ⟨_, .tail _ (.tail _ (.head _)), _, ⟨_, rfl, rfl⟩, rfl⟩
      | compound => exact ⟨_, .tail _ (.tail _ (.tail _ (.head _))), _, ⟨_, rfl, rfl⟩, rfl⟩
  have hne : ManOf.Nonempty := nofun
  exact reads_behindKw (by decide) (hforms.ws hne)

/-- The first words of commands. -/
def keywords : List String :=
  ["let", "save", "detach", "svc", "help", "history", "exit", "quit", "poweroff", "env",
    "describe", "man", "imports"]

/-- Commands are told apart by their first words, and an expression starts with none of
them. -/
theorem apart_commands : List.Pairwise (fun F F' : List Token → Prop => ∀ l, F l → ¬ F' l)
    (keywords.map (fun s => Starts fun t => t == Bnf.word s) ++
      [Starts (startsExpr .command), fun l => l = []]) := by
  have hwords : keywords.Pairwise fun s s' => Bnf.word s ≠ Bnf.word s' := by decide
  have hexprs : ∀ s ∈ keywords, startsExpr .command (Bnf.word s) = false := by decide
  have hempty : ∀ {k l}, Starts k l → l ≠ [] := by
    rintro k l h rfl
    exact not_starts_nil h
  refine List.pairwise_append.mpr ⟨List.pairwise_map.mpr (hwords.imp ?_), ?_, ?_⟩
  · intro s s' hne
    apply Starts.apart
    intro t ht
    rw [eq_of_beq ht]
    exact beq_false_of_ne hne
  · exact List.pairwise_pair.mpr fun l => hempty
  · intro F hF F' hF'
    obtain ⟨s, hs, rfl⟩ := List.mem_map.mp hF
    simp only [List.mem_cons, List.not_mem_nil, or_false] at hF'
    rcases hF' with rfl | rfl
    · exact Starts.apart (only_token (hexprs s hs))
    · exact fun l => hempty

/-- The alternatives of a command, with their phrases and what these begin with. -/
def commands : List (P Command × Phrase Token Command × (List Token → Prop)) := [
  (nameEqExpr bare "let" .let, after (Bnf.word "let")
    (IsName.seq fun name => (after Bnf.equals IsExpr).map (Command.let name)),
    Starts fun t => t == Bnf.word "let"),
  (nameEqExpr bare "save" .save, after (Bnf.word "save")
    (IsName.seq fun name => (after Bnf.equals IsExpr).map (Command.save name)),
    Starts fun t => t == Bnf.word "save"),
  (detach bare, after (Bnf.word "detach")
    (IsName.seq fun name => after Bnf.equals (Longest name)),
    Starts fun t => t == Bnf.word "detach"),
  (svc, after (Bnf.word "svc") svcForms, Starts fun t => t == Bnf.word "svc"),
  (.map (tKw "help" .builtin) fun _ => .help, exactly (Bnf.word "help") .help,
    Starts fun t => t == Bnf.word "help"),
  (.map (tKw "history" .builtin) fun _ => .history, exactly (Bnf.word "history") .history,
    Starts fun t => t == Bnf.word "history"),
  (.map (tKw "exit" .builtin) fun _ => .exit, exactly (Bnf.word "exit") .exit,
    Starts fun t => t == Bnf.word "exit"),
  (.map (tKw "quit" .builtin) fun _ => .exit, exactly (Bnf.word "quit") .exit,
    Starts fun t => t == Bnf.word "quit"),
  (.map (tKw "poweroff" .builtin) fun _ => .poweroff, exactly (Bnf.word "poweroff") .poweroff,
    Starts fun t => t == Bnf.word "poweroff"),
  (keepRight (tKw "env" .builtin) (.alt [.pure .env, .map (exprL bare .normal) .envOf]),
    after (Bnf.word "env") (fun ts c => (ts = [] ∧ c = .env) ∨ IsExpr.map Command.envOf ts c),
    Starts fun t => t == Bnf.word "env"),
  (describe bare, after (Bnf.word "describe") DescribeOf,
    Starts fun t => t == Bnf.word "describe"),
  (man bare, after (Bnf.word "man") ManOf, Starts fun t => t == Bnf.word "man"),
  (.map (keepRight (tKw "imports" .builtin) (exprL bare .normal)) .imports,
    (after (Bnf.word "imports") IsExpr).map Command.imports,
    Starts fun t => t == Bnf.word "imports"),
  (.map (expr bare .head) .run, (IsExprWith IsExpr .command).map Command.run,
    Starts (startsExpr .command)),
  (.pure .empty, Phrase.empty .empty, fun l => l = [])]

theorem reads_commands : ∀ x ∈ commands, Reads (n + 1) true x.1 x.2.1 (fun _ => true) ∧
    x.2.1.Begins (Stops fun _ => true) x.2.2 := by
  have hlone : ∀ {word : String} {c : Command}, BareWord (ascii word) →
      Reads (n + 1) true (.map (tKw word .builtin) fun _ => c) (exactly (Bnf.word word) c)
        (fun _ => true) ∧ (exactly (Bnf.word word) c).Begins (Stops fun _ => true)
        (Starts fun t => t == Bnf.word word) :=
    fun hword => ⟨reads_lone _ hword, (startsWith_exactly _ _).begins _⟩
  have himports : Reads (n + 1) true (keepRight (tKw "imports" .builtin) (exprL bare .normal))
      (after (Bnf.word "imports") IsExpr) fun _ => true :=
    reads_behindKw (by decide) reads_inner_end
  have hrun : Reads (n + 1) true (expr bare .head) (IsExprWith IsExpr .command) fun _ => true :=
    (reads_expr (reads_strip n) .head).widen fun _ _ => rfl
  simp only [commands, List.forall_mem_cons, List.not_mem_nil, false_implies, implies_true,
    and_true]
  refine ⟨⟨reads_nameEqExpr _ (by decide), (startsWith_after _ _).begins _⟩,
    ⟨reads_nameEqExpr _ (by decide), (startsWith_after _ _).begins _⟩,
    ⟨reads_detach, (startsWith_after _ _).begins _⟩,
    ⟨reads_svc, (startsWith_after _ _).begins _⟩,
    hlone (by decide), hlone (by decide), hlone (by decide), hlone (by decide), hlone (by decide),
    ⟨reads_env, (startsWith_after _ _).begins _⟩,
    ⟨reads_describe, (startsWith_after _ _).begins _⟩,
    ⟨reads_man, (startsWith_after _ _).begins _⟩,
    ⟨himports.map _, ((startsWith_after _ _).map _).begins _⟩,
    ⟨hrun.map _, (startsWith_isExprWith.map _).begins _⟩, .pure _, ?_⟩
  rintro ts v r ⟨rfl, -⟩ hr
  exact stops_all.mp hr

/-- The alternatives together have the meaning of a command. -/
theorem means_iff {ts : List Token} {c : Command} :
    Phrase.anyOf (commands.map (·.2.1)) ts c ↔ Means ts c := by
  have hother : ∀ {tok : Token} {ts : List Token} {c : Command}, IsCommand (tok :: ts) c →
      tok ≠ Bnf.word "detach" → (∀ e, c ≠ .describe e) → Means (tok :: ts) c := by
    intro tok ts c h hne hdescribe
    exact .other h (fun hhead => hne (Option.some.inj hhead)) hdescribe
  constructor
  · rintro ⟨D, hD, h⟩
    simp only [commands, List.map_cons, List.map_nil, List.mem_cons, List.not_mem_nil,
      or_false] at hD
    rcases hD with rfl | rfl | rfl | rfl | rfl | rfl | rfl | rfl | rfl | rfl | rfl | rfl | rfl |
      rfl | rfl
    · obtain ⟨-, rfl, ts₁, -, name, rfl, hname, e, ⟨ts₂, rfl, he⟩, rfl⟩ := h
      exact hother (.let hname he) (by decide) nofun
    · obtain ⟨-, rfl, ts₁, -, name, rfl, hname, e, ⟨ts₂, rfl, he⟩, rfl⟩ := h
      exact hother (.save hname he) (by decide) nofun
    · obtain ⟨-, rfl, ts, -, name, rfl, hname, -, rfl, ts₁, ts₂, program, policy, rfl, hsplit,
        rfl, hlongest⟩ := h
      exact .detach hname hsplit.1 hsplit.2 fun ts₁' ts₂' program' policy' heq hp hq =>
        hlongest ts₁' ts₂' program' policy' heq ⟨hp, hq⟩
    · obtain ⟨ts', rfl, (⟨rfl, rfl⟩ | ⟨rfl, rfl⟩ | h)⟩ := h
      · exact hother .svc (by decide) nofun
      · exact hother .svcList (by decide) nofun
      · cases h with
        | log h => exact hother (.svcLog h) (by decide) nofun
        | stop h => exact hother (.svcStop h) (by decide) nofun
        | clear h => exact hother (.svcClear h) (by decide) nofun
    · obtain ⟨rfl, rfl⟩ := h
      exact hother .help (by decide) nofun
    · obtain ⟨rfl, rfl⟩ := h
      exact hother .history (by decide) nofun
    · obtain ⟨rfl, rfl⟩ := h
      exact hother .exit (by decide) nofun
    · obtain ⟨rfl, rfl⟩ := h
      exact hother .quit (by decide) nofun
    · obtain ⟨rfl, rfl⟩ := h
      exact hother .poweroff (by decide) nofun
    · obtain ⟨ts', rfl, (⟨rfl, rfl⟩ | ⟨e, he, rfl⟩)⟩ := h
      · exact hother .env (by decide) nofun
      · exact hother (.envOf he) (by decide) nofun
    · obtain ⟨ts', rfl, h⟩ := h
      cases h with
      | dollar => exact hother .describeDollar (by decide) nofun
      | ampersand => exact hother .describeAmpersand (by decide) nofun
      | card h => exact hother (.describeCard h) (by decide) card_ne_describe
      | expr h hcard => exact .describe h hcard
    · obtain ⟨ts', rfl, h⟩ := h
      cases h with
      | dollar => exact hother .manDollar (by decide) nofun
      | ampersand => exact hother .manAmpersand (by decide) nofun
      | word => exact hother .manWord (by decide) nofun
      | compound => exact hother .manCompound (by decide) nofun
    · obtain ⟨e, ⟨ts, rfl, he⟩, rfl⟩ := h
      exact hother (.imports he) (by decide) nofun
    · obtain ⟨e, he, rfl⟩ := h
      refine .other (.run he) ?_ nofun
      intro hhead
      obtain ⟨t, ht, hstart⟩ := startsWith_isExprWith ts e he
      rw [Option.mem_unique ht hhead] at hstart
      exact absurd hstart (by decide)
    · obtain ⟨rfl, rfl⟩ := h
      exact .other .empty nofun nofun
  · have hat : ∀ k (hk : k < commands.length), (commands[k]).2.1 ts c →
        Phrase.anyOf (commands.map (·.2.1)) ts c :=
      fun k hk h => ⟨_, List.mem_map_of_mem (List.getElem_mem hk), h⟩
    intro h
    cases h with
    | detach h hprogram hpolicy longest =>
      exact hat 2 (by decide) ⟨_, rfl, _, _, _, rfl, h, _, rfl, _, _, _, _, rfl,
        ⟨hprogram, hpolicy⟩, rfl, fun _ _ _ _ heq hs => longest _ _ _ _ heq hs.1 hs.2⟩
    | describe h hcard => exact hat 10 (by decide) ⟨_, rfl, .expr h hcard⟩
    | other h hdetach hdescribe =>
      cases h with
      | empty => exact hat 14 (by decide) ⟨rfl, rfl⟩
      | «let» h he =>
        exact hat 0 (by decide) ⟨_, rfl, _, _, _, rfl, h, _, ⟨_, rfl, he⟩, rfl⟩
      | save h he =>
        exact hat 1 (by decide) ⟨_, rfl, _, _, _, rfl, h, _, ⟨_, rfl, he⟩, rfl⟩
      | detach h hprogram hpolicy => exact absurd rfl hdetach
      | svc => exact hat 3 (by decide) ⟨_, rfl, Or.inl ⟨rfl, rfl⟩⟩
      | svcList => exact hat 3 (by decide) ⟨_, rfl, Or.inr (Or.inl ⟨rfl, rfl⟩)⟩
      | svcLog h => exact hat 3 (by decide) ⟨_, rfl, Or.inr (Or.inr (.log h))⟩
      | svcStop h => exact hat 3 (by decide) ⟨_, rfl, Or.inr (Or.inr (.stop h))⟩
      | svcClear h => exact hat 3 (by decide) ⟨_, rfl, Or.inr (Or.inr (.clear h))⟩
      | help => exact hat 4 (by decide) ⟨rfl, rfl⟩
      | history => exact hat 5 (by decide) ⟨rfl, rfl⟩
      | exit => exact hat 6 (by decide) ⟨rfl, rfl⟩
      | quit => exact hat 7 (by decide) ⟨rfl, rfl⟩
      | poweroff => exact hat 8 (by decide) ⟨rfl, rfl⟩
      | env => exact hat 9 (by decide) ⟨_, rfl, Or.inl ⟨rfl, rfl⟩⟩
      | envOf h => exact hat 9 (by decide) ⟨_, rfl, Or.inr ⟨_, h, rfl⟩⟩
      | describeDollar => exact hat 10 (by decide) ⟨_, rfl, .dollar⟩
      | describeAmpersand => exact hat 10 (by decide) ⟨_, rfl, .ampersand⟩
      | describeCard h => exact hat 10 (by decide) ⟨_, rfl, .card h⟩
      | describe h => exact absurd rfl (hdescribe _)
      | manDollar => exact hat 11 (by decide) ⟨_, rfl, .dollar⟩
      | manAmpersand => exact hat 11 (by decide) ⟨_, rfl, .ampersand⟩
      | manWord => exact hat 11 (by decide) ⟨_, rfl, .word⟩
      | manCompound => exact hat 11 (by decide) ⟨_, rfl, .compound⟩
      | imports h => exact hat 12 (by decide) ⟨_, ⟨_, rfl, h⟩, rfl⟩
      | run h => exact hat 13 (by decide) ⟨_, h, rfl⟩

theorem reads_command : Reads (n + 1) true (command bare) Means fun _ => true :=
  (Reads.alt commands reads_commands apart_commands).congr fun _ _ => means_iff

end Grammar

end Eo9.Eosh
