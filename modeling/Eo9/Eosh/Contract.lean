import Eo9.Eosh.Grammar
import Eo9.Eosh.Lexical
import Eo9.Eosh.Tame

/-!
# The contract of the command parser

Every production of the shell's grammar is tame: almost all right sides start
alike whatever the left side read, and where they do not, behind the lone word of
`describe`, the word is the same whatever follows it. So in every state that a
line can lead to, `admissible` says exactly what a step will do.
-/

namespace Eo9.Eosh

open Eo9.Eosh.Parser

theorem Leaf.proper_of_consumes {α : Type} {l : Leaf α} (h : l.Consumes) : l.Proper := by
  cases l with
  | kw word pos tag => exact Nat.le_of_lt h
  | _ => exact trivial

namespace Grammar

theorem tame_tByte (b : Ascii) : (tByte b).Tame := tame_bind trivial (fun _ => trivial) fun _ _ => .refl _

theorem tame_tKw (word : String) (tag : Tag) : (tKw word tag).Tame :=
  tame_bind trivial (fun _ => Nat.zero_le _) fun _ _ => .refl _

theorem tame_alternatives {α : Type} {ps : List (P α)} {p : P α} (h : ∀ q ∈ p :: ps, q.Tame) :
    (Parser.alt (p :: ps)).Tame := (tame_alt (List.cons_ne_nil p ps)).mpr h

theorem tame_tPlainWord : tPlainWord.Tame :=
  tame_keepRight trivial (tame_alternatives (by simp [Tame, capBareWord, capCompound, Leaf.Proper]))

theorem tame_exprL (cx : Cx) (pos : Pos) : (exprL cx pos).Tame := trivial

theorem tame_parenExpr (cx : Cx) : (parenExpr cx).Tame :=
  tame_keepLeft (tame_keepRight trivial (tame_exprL cx .normal)) (tame_tByte closeParen)

/-- The alternatives behind optional white space. -/
theorem tame_ws_alt {α : Type} {ps : List (P α)} {p : P α} (h : ∀ q ∈ p :: ps, q.Tame) :
    (keepRight ws (.alt (p :: ps))).Tame := tame_keepRight trivial (tame_alternatives h)

theorem tame_capPrimary (cx : Cx) (pos : Pos) : (capPrimary cx pos).Tame := by
  cases pos <;>
    exact tame_ws_alt (by simp [Tame, capBareWord, overlayWords, capCompound, Leaf.Proper,
      tame_parenExpr])

theorem tame_valueHinted (cx : Cx) (hints : Option (List HintEntry)) :
    (valueHinted cx hints).Tame := by
  cases hints <;>
    exact tame_ws_alt (by simp [Tame, capBareWord, overlayWords, capCompound, capQuoted,
      Leaf.Proper, tame_parenExpr])

/-- The forms of an argument: a flag, then the positional ones. -/
theorem tame_args {cx : Cx} {p : P Arg} (h : p.Tame) :
    (keepRight ws (.alt (keepRight (lit [dash, dash]) p :: positionals cx))).Tame := by
  apply tame_ws_alt
  intro q hq
  rcases List.mem_cons.mp hq with rfl | hq
  · exact tame_keepRight trivial h
  · exact forall_positionals (fun l f h => Leaf.proper_of_consumes h) (tame_parenExpr cx) q hq

/-- A list that may go on with another item. -/
theorem tame_rest {α β : Type} {acc : β} {item : P α} {f : α → P β} (h : item.Tame)
    (hf : ∀ a, (f a).Tame) (halike : ∀ a a', (f a).Alike (f a')) :
    (Parser.alt [.pure acc, .bind item f] : P β).Tame :=
  tame_alternatives (by
    simp only [List.forall_mem_cons, List.not_mem_nil, false_implies, implies_true, and_true]
    exact ⟨trivial, tame_bind h hf halike⟩)

/-- Lists that may go on look alike when their items do. -/
theorem alike_rest {α β : Type} {acc acc' : β} {item item' : P α} {f f' : α → P β}
    (hc : item.Consumes) (hc' : item'.Consumes) (h : item.Alike item') :
    (Parser.alt [.pure acc, .bind item f] : P β).Alike (.alt [.pure acc', .bind item' f']) :=
  .alt (.cons (.pure acc acc') (.cons (.bind_consuming hc hc' h f f') .nil))

/-- Two forms of an argument look alike: a flag starts with its dashes. -/
theorem alike_args {cx : Cx} {p p' : P Arg} :
    (keepRight ws (.alt (keepRight (lit [dash, dash]) p :: positionals cx))).Alike
      (keepRight ws (.alt (keepRight (lit [dash, dash]) p' :: positionals cx))) := by
  have hdashes : (lit [dash, dash] : P Unit).Consumes := List.cons_ne_nil _ _
  exact .bind fun _ => .alt (.cons (.bind_consuming hdashes hdashes (.refl _) _ _)
    (List.forall₂_same.mpr fun q _ => .refl q))

theorem tame_arg (cx : Cx) : (arg cx).Tame :=
  tame_args (tame_bind trivial (fun _ => tame_valueHinted cx none) fun _ _ =>
    (Alike.refl _).map _ _)

theorem tame_argKnown (cx : Cx) (program : ProgramSlots) : (argKnown cx program).Tame := by
  apply tame_args
  refine ⟨?_, fun name => tame_valueHinted cx (program.values name), ?_⟩
  · exact tame_alternatives (by simp [Tame, capFlagName, overlayWords, Leaf.Proper])
  · -- the name is the word that was read, whatever follows it
    have hname : ∀ {w : Str} {i : Input} {name : Str},
        (.alt [capFlagName, overlayWords program.flags] : P Str).run w i = some name →
        name = Library.Utf8.lossy w := by
      intro w i name h
      rw [run_alt] at h
      obtain ⟨m, hm, hv⟩ := Library.Reader.choice_eq_some h
      simp only [List.map_cons, List.map_nil, List.mem_cons, List.not_mem_nil, or_false] at hm
      rcases hm with rfl | rfl
      · exact ((run_capWord allAscii_nil).mp hv).2.2.2.2
      · rw [run_overlay] at hv
        cases hv
    intro w i name name' h h'
    rw [hname h, hname h']
    exact .refl _

theorem tame_starArgsFrom (cx : Cx) (acc : List Arg) : (starArgsFrom cx acc).Tame :=
  tame_rest (tame_arg cx) (fun _ => trivial) fun _ _ =>
    .lazy (alike_rest consumes_args consumes_args (.refl _))

theorem tame_starArgsKnownFrom (cx : Cx) (program : ProgramSlots) (acc : List Arg) :
    (starArgsKnownFrom cx program acc).Tame :=
  tame_rest (tame_argKnown cx program) (fun _ => trivial) fun _ _ =>
    .lazy (alike_rest consumes_args consumes_args (.refl _))

theorem alike_starArgsFor (cx : Cx) (name name' : Option Str) :
    (match name with
      | some n => starArgsFor cx n
      | none => starArgs cx).Alike
    (match name' with
      | some n => starArgsFor cx n
      | none => starArgs cx) := by
  have hknown : ∀ name, (starArgsFor cx name).Alike (starArgs cx) := by
    intro name
    rw [starArgsFor]
    cases cx.programs name with
    | none => exact .refl _
    | some program => exact alike_rest consumes_args consumes_args alike_args
  have hsymm : ∀ {p q : P (List Arg)}, p.Alike q → q.Alike p :=
    fun h => ⟨fun i => (h.next i).symm, fun i => (h.value i).symm⟩
  have htrans : ∀ {p q r : P (List Arg)}, p.Alike q → q.Alike r → p.Alike r :=
    fun h h' => ⟨fun i => (h.next i).trans (h'.next i), fun i => (h.value i).trans (h'.value i)⟩
  cases name with
  | none =>
    cases name' with
    | none => exact .refl _
    | some n' => exact hsymm (hknown n')
  | some n =>
    cases name' with
    | none => exact hknown n
    | some n' => exact htrans (hknown n) (hsymm (hknown n'))

theorem tame_appFrom {head : P (Option Str × Expr)} (h : head.Tame) (cx : Cx) :
    (appFrom head cx).Tame := by
  apply tame_bind h
  · rintro ⟨name, callee⟩
    cases name with
    | none => exact tame_starArgsFrom cx []
    | some name =>
      change (starArgsFor cx name).Tame
      rw [starArgsFor]
      cases cx.programs name with
      | none => exact tame_starArgsFrom cx []
      | some program => exact tame_starArgsKnownFrom cx program []
  · rintro ⟨name, callee⟩ ⟨name', callee'⟩
    exact (alike_starArgsFor cx name name').map _ _

theorem tame_app (cx : Cx) (pos : Pos) : (app cx pos).Tame :=
  tame_appFrom (tame_capPrimary cx pos) cx

theorem consumes_bind {α β : Type} {p : P α} {f : α → P β} (h : p.Consumes) :
    (p.bind f).Consumes := Or.inl h

theorem consumes_behind {α : Type} (b : Ascii) (p : P α) : (keepRight (tByte b) p).Consumes :=
  Or.inl (consumes_tByte b)

theorem tame_ampRest (cx : Cx) (acc : Expr) : (ampRest cx acc).Tame :=
  tame_rest (tame_keepRight (tame_tByte _) (tame_app cx .normal)) (fun _ => trivial) fun _ _ =>
    .lazy (alike_rest (consumes_behind _ _) (consumes_behind _ _) (.refl _))

theorem tame_amp (cx : Cx) (pos : Pos) : (amp cx pos).Tame :=
  tame_bind (tame_app cx pos) (fun first => tame_ampRest cx first) fun _ _ =>
    alike_rest (consumes_behind _ _) (consumes_behind _ _) (.refl _)

theorem tame_gateBody (cx : Cx) : (gateBody cx).Tame := tame_keepRight (tame_tByte _) trivial

theorem tame_wordListRest (acc : List Str) : (wordListRest acc).Tame :=
  tame_rest (tame_keepRight (tame_tByte _) tame_tPlainWord) (fun _ => trivial) fun _ _ =>
    .lazy (alike_rest (consumes_behind _ _) (consumes_behind _ _) (.refl _))

theorem tame_wordList : wordList.Tame :=
  tame_bind tame_tPlainWord (fun first => tame_wordListRest [first]) fun _ _ =>
    alike_rest (consumes_behind _ _) (consumes_behind _ _) (.refl _)

theorem tame_moreExprsAcc (cx : Cx) (acc : List Expr) : (moreExprsAcc cx acc).Tame := by
  apply tame_bind (tame_keepRight (tame_tByte comma) (tame_exprL cx .normal))
  · intro extra
    exact tame_alternatives (by
      simp only [List.forall_mem_cons, List.not_mem_nil, false_implies, implies_true, and_true]
      exact ⟨tame_tByte closeParen, trivial⟩)
  · exact fun _ _ => .alt (.cons ((Alike.refl _).map _ _) (.cons
      (.lazy (.bind_consuming (consumes_behind _ _) (consumes_behind _ _) (.refl _) _ _)) .nil))

theorem tame_repVecFrom {α : Type} {item : P α} (h : item.Tame) (hc : item.Consumes) (n : ℕ)
    (acc : List α) : (repVecFrom item n acc).Tame := by
  induction n generalizing acc with
  | zero => exact trivial
  | succ n ih =>
    apply tame_bind h (fun value => ih (acc ++ [value]))
    intro value value'
    cases n with
    | zero => exact .pure _ _
    | succ n => exact .bind_consuming hc hc (.refl item) _ _

theorem tame_slotTuple (n : ℕ) : (slotTuple n).Tame := by
  have hopen : (andThen (tKw "as" .keyword) (tByte openParen)).Tame :=
    tame_bind (tame_tKw _ _) (fun _ => tame_tByte _) fun _ _ => .refl _
  have hitem : (keepRight (tByte comma) tPlainWord).Tame :=
    tame_keepRight (tame_tByte comma) tame_tPlainWord
  apply tame_keepLeft (tame_keepRight hopen ?_) (tame_tByte closeParen)
  apply tame_bind tame_tPlainWord
  · exact fun first => tame_repVecFrom hitem (consumes_behind _ _) _ _
  · exact fun first first' => (Alike.refl _).map _ _

/-- Slots start with their keyword, however many there are. -/
theorem alike_slotTuple (n n' : ℕ) : (slotTuple n).Alike (slotTuple n') := by
  have hc : (andThen (tKw "as" .keyword) (tByte openParen)).Consumes :=
    Or.inl (consumes_tKw (by decide))
  exact .bind_consuming (consumes_bind hc) (consumes_bind hc) (.bind_consuming hc hc (.refl _) _ _) _ _

theorem tame_providerNoParen (cx : Cx) : (providerNoParen cx).Tame := by
  apply tame_bind (tame_appFrom ?_ cx) (fun first => tame_ampRest cx first)
  · exact fun _ _ => alike_rest (consumes_behind _ _) (consumes_behind _ _) (.refl _)
  · exact tame_ws_alt (by simp [Tame, capBareWord, overlayWords, capCompound, Leaf.Proper])

theorem tame_withItem (cx : Cx) : (withItem cx).Tame := by
  have hslot : (keepRight (andThen (tByte closeParen) (tKw "as" .keyword)) tPlainWord).Tame :=
    tame_keepRight (tame_bind (tame_tByte _) (fun _ => tame_tKw _ _) fun _ _ => .refl _)
      tame_tPlainWord
  have hslot' : (keepRight (tKw "as" .keyword) tPlainWord).Tame :=
    tame_keepRight (tame_tKw _ _) tame_tPlainWord
  have htuple : ∀ first : Expr, (.bind (moreExprs cx) fun rest =>
      .map (slotTuple (first :: rest).length) fun slots =>
        List.zipWith .mk (first :: rest) slots : P (List WithBinding)).Tame := fun first =>
    tame_bind (tame_moreExprsAcc cx []) (fun rest => tame_slotTuple _) fun _ _ =>
      (alike_slotTuple _ _).map _ _
  have hparen : ∀ first : Expr, (.alt [.map
      (keepRight (andThen (tByte closeParen) (tKw "as" .keyword)) tPlainWord) fun slot =>
        [.mk first slot], .bind (moreExprs cx) fun rest =>
      .map (slotTuple (first :: rest).length) fun slots =>
        List.zipWith .mk (first :: rest) slots] : P (List WithBinding)).Tame := fun first =>
    tame_alternatives (by
      simp only [List.forall_mem_cons, List.not_mem_nil, false_implies, implies_true, and_true]
      exact ⟨hslot, htuple first⟩)
  apply tame_alternatives
  simp only [List.forall_mem_cons, List.not_mem_nil, false_implies, implies_true, and_true]
  constructor
  · apply tame_keepRight (tame_tByte openParen)
    apply tame_bind (tame_exprL cx .normal) hparen
    exact fun _ _ => .alt (.cons ((Alike.refl _).map _ _) (.cons
      (.bind_consuming (consumes_bind (consumes_behind _ _)) (consumes_bind (consumes_behind _ _))
        (.refl _) _ _)
      .nil))
  · exact tame_bind (tame_providerNoParen cx) (fun _ => hslot') fun _ _ => (Alike.refl _).map _ _

theorem tame_withItemsRest (cx : Cx) (acc : List WithBinding) : (withItemsRest cx acc).Tame :=
  tame_rest (tame_keepRight (tame_tByte _) (tame_withItem cx)) (fun _ => trivial) fun _ _ =>
    .lazy (alike_rest (consumes_behind _ _) (consumes_behind _ _) (.refl _))

theorem tame_expr (cx : Cx) (pos : Pos) : (expr cx pos).Tame := by
  have hbody : ∀ f : Expr → Expr, (Parser.map (gateBody cx) f).Tame := fun _ => tame_gateBody cx
  have honly : (gateOnly cx).Tame := tame_keepRight (tame_tKw _ _)
    (tame_bind tame_wordList (fun _ => hbody _) fun _ _ => (Alike.refl _).map _ _)
  have hrename : (gateRename cx).Tame := by
    apply tame_keepRight (tame_tKw _ _)
    apply tame_bind tame_tPlainWord
    · exact fun source => tame_bind tame_tPlainWord (fun _ => hbody _) fun _ _ =>
        (Alike.refl _).map _ _
    · exact fun _ _ => .bind fun _ => (Alike.refl _).map _ _
  have hwith : (gateWith cx).Tame := by
    apply tame_keepRight (tame_tKw _ _)
    apply tame_bind ?_ (fun _ => hbody _) fun _ _ => (Alike.refl _).map _ _
    exact tame_bind (tame_withItem cx) (fun first => tame_withItemsRest cx first) fun _ _ =>
      alike_rest (consumes_behind _ _) (consumes_behind _ _) (.refl _)
  have hplain : (.bind (amp cx pos) fun left => .alt [.pure left,
      .map (keepRight (tByte dollar) (exprL cx .normal)) fun consumer => .compose left consumer] :
      P Expr).Tame := by
    apply tame_bind (tame_amp cx pos)
    · exact fun left => tame_alternatives (by
        simp only [List.forall_mem_cons, List.not_mem_nil, false_implies, implies_true, and_true]
        exact ⟨trivial, tame_keepRight (tame_tByte _) trivial⟩)
    · exact fun _ _ => .alt (.cons (.pure _ _) (.cons ((Alike.refl _).map _ _) .nil))
  apply tame_alternatives
  simp only [List.forall_mem_cons, List.not_mem_nil, false_implies, implies_true, and_true]
  exact ⟨honly, hrename, hwith, hplain⟩

theorem tame_production {α : Type} (n : Nt α) : (production n).Tame := by
  cases n with
  | expr cx pos => exact tame_expr cx pos
  | starArgs cx acc => exact tame_starArgsFrom cx acc
  | starArgsKnown cx program acc => exact tame_starArgsKnownFrom cx program acc
  | ampRest cx acc => exact tame_ampRest cx acc
  | wordListRest acc => exact tame_wordListRest acc
  | withItemsRest cx acc => exact tame_withItemsRest cx acc
  | moreExprs cx acc => exact tame_moreExprsAcc cx acc

theorem tame_nameEqExpr (cx : Cx) (word : String) (build : Str → Expr → Command) :
    (nameEqExpr cx word build).Tame := by
  have hexpr : (keepRight (tByte equals) (exprL cx .normal)).Tame :=
    tame_keepRight (tame_tByte _) (tame_exprL cx .normal)
  exact tame_keepRight (tame_tKw _ _) (tame_bind tame_tPlainWord (fun _ => hexpr) fun _ _ =>
    (Alike.refl _).map _ _)

theorem tame_detach (cx : Cx) : (detach cx).Tame := by
  have hpolicy : (keepRight (tKw "restart" .keyword) (exprL cx .normal)).Tame :=
    tame_keepRight (tame_tKw _ _) (tame_exprL cx .normal)
  have hprogram : ∀ name, (.bind (exprL cx .normal) fun program =>
      .map (keepRight (tKw "restart" .keyword) (exprL cx .normal)) fun policy =>
        .detach name program policy : P Command).Tame := fun name =>
    tame_bind (tame_exprL cx .normal) (fun _ => hpolicy) fun _ _ => (Alike.refl _).map _ _
  apply tame_keepRight (tame_tKw _ _)
  apply tame_bind tame_tPlainWord
  · exact fun name => tame_keepRight (tame_tByte _) (hprogram name)
  · exact fun _ _ => .bind_consuming (consumes_tByte _) (consumes_tByte _) (.refl _) _ _

theorem tame_svc : svc.Tame := by
  have hword : ∀ (word : String) {α : Type} (f : Unit → α),
      (Parser.map (tKw word .builtin) f : P α).Tame := fun word _ _ => tame_tKw word _
  have hwhich : (.alt [
      .map (tKw "log" .builtin) fun _ => (0 : UInt8),
      .map (tKw "stop" .builtin) fun _ => 1,
      .map (tKw "clear" .builtin) fun _ => 2] : P UInt8).Tame :=
    tame_alternatives (by
      simp only [List.forall_mem_cons, List.not_mem_nil, false_implies, implies_true, and_true]
      exact ⟨hword _ _, hword _ _, hword _ _⟩)
  apply tame_keepRight (tame_tKw _ _)
  apply tame_alternatives
  simp only [List.forall_mem_cons, List.not_mem_nil, false_implies, implies_true, and_true]
  refine ⟨trivial, hword _ _, ?_⟩
  exact tame_bind hwhich (fun _ => tame_tPlainWord) fun _ _ => (Alike.refl _).map _ _

theorem tame_cardRoute (word : Str) : (cardRoute word).Tame := by
  unfold cardRoute
  split_ifs <;> exact trivial

/-- The route of a lone word depends on the word, which is the same whatever
follows it. -/
theorem tame_cards : (.bind (capBareWord []) cardRoute : P Command).Tame := by
  refine ⟨trivial, tame_cardRoute, ?_⟩
  intro w i word word' h h'
  rw [((run_capWord allAscii_nil).mp h).2.2.2.2, ((run_capWord allAscii_nil).mp h').2.2.2.2]
  exact .refl _

theorem tame_describe (cx : Cx) : (describe cx).Tame := by
  apply tame_keepRight (tame_tKw _ _)
  apply tame_alternatives
  simp only [List.forall_mem_cons, List.not_mem_nil, false_implies, implies_true, and_true]
  refine ⟨tame_tByte _, tame_tByte _, ?_, tame_exprL cx .normal⟩
  apply tame_ws_alt
  simp only [List.forall_mem_cons, List.not_mem_nil, false_implies, implies_true, and_true]
  exact ⟨tame_cards, trivial⟩

theorem tame_man (cx : Cx) : (man cx).Tame := by
  apply tame_keepRight (tame_tKw _ _)
  apply tame_ws_alt
  simp [Tame, litByte, lit, capBareWord, overlayWords, capCompound, Leaf.Proper]

theorem tame_command (cx : Cx) : (command cx).Tame := by
  have hword : ∀ (word : String) (f : Unit → Command),
      (Parser.map (tKw word .builtin) f).Tame := fun word _ => tame_tKw word _
  have henv : (.alt [.pure .env, .map (exprL cx .normal) .envOf] : P Command).Tame :=
    tame_alternatives (by
      simp only [List.forall_mem_cons, List.not_mem_nil, false_implies, implies_true, and_true]
      exact ⟨trivial, tame_exprL cx .normal⟩)
  apply tame_alternatives
  simp only [List.forall_mem_cons, List.not_mem_nil, false_implies, implies_true, and_true]
  exact ⟨tame_nameEqExpr _ _ _, tame_nameEqExpr _ _ _, tame_detach cx, tame_svc, hword _ _,
    hword _ _, hword _ _, hword _ _, hword _ _, tame_keepRight (tame_tKw _ _) henv,
    tame_describe cx, tame_man cx,
    tame_keepRight (tame_tKw _ _) (tame_exprL cx .normal), tame_expr cx .head, trivial⟩

theorem tame_trailing : trailing.Tame := by
  have hhash : (litByte hash).Tame := trivial
  have hcomment : (andThen (litByte hash) commentRest).Tame :=
    tame_bind hhash (fun _ => trivial) fun _ _ => .refl _
  have hws : (ws : P Unit).Tame := trivial
  apply tame_bind hws
  · exact fun _ => tame_alternatives (by
      simp only [List.forall_mem_cons, List.not_mem_nil, false_implies, implies_true, and_true]
      exact ⟨trivial, hcomment⟩)
  · exact fun _ _ => .refl _

end Grammar

theorem tame_commandLine [ApiDocs] (vocab : Vocab) : (commandLine vocab).Tame :=
  tame_keepLeft (Grammar.tame_command _) Grammar.tame_trailing

/-- The step takes its input: it goes on, or it finishes and does not hand the
input back. -/
def Step.Takes {α : Type} (r : Option (Step Nt α)) (i : Input) : Prop :=
  ∃ s, r = some s ∧
    (s.cont.isSome = true ∨ ∃ v rejected, s.finished = some (v, rejected) ∧ rejected ≠ i)

theorem Step.takes_step {α : Type} (p : P α) (i : Input) :
    Step.Takes (p.step i) i ↔ (p.nextAt i).isSome = true := by
  rw [nextAt]
  constructor
  · rintro ⟨s, hs, h | ⟨v, rej, h, hne⟩⟩
    · rwa [hs]
    · exact absurd (rejected_eq hs h) hne
  · intro h
    cases hs : p.step i with
    | none =>
      rw [hs] at h
      cases h
    | some s =>
      rw [hs] at h
      exact ⟨s, rfl, Or.inl h⟩

/-- In every state that a line can lead to: a byte is in the set exactly when a
step takes it, a further input is required exactly when the end of the line
fails, text bytes are fine exactly when a step takes them, and neither this nor
the completions stop at an inconsistency. -/
theorem admissible_agrees [ApiDocs] (vocab : Vocab) (line : Str) (q : P Command)
    (h : (commandLine vocab).feedBytes line = some q) :
    ∃ adm, q.admissible = .ok adm ∧
      (∀ b, adm.charset.contains b = true ↔ Step.Takes (q.step (.byte b)) (.byte b)) ∧
      (adm.hardRequired = true ↔ q.step .eof = none) ∧
      (∀ b, adm.nonAsciiOk = true ↔ Step.Takes (q.step (.text b)) (.text b)) ∧
      ∃ offered, q.completions = .ok offered := by
  have htame : q.Tame := (tame_commandLine vocab).feedBytes Grammar.tame_production h
  obtain ⟨adm, hadm, hexact⟩ := htame.exact Grammar.tame_production
  refine ⟨adm, hadm, ?_, ?_, ?_, htame.completions Grammar.tame_production⟩
  · intro b
    rw [Step.takes_step, hexact.charset]
  · have heof : q.nextAt .eof = none :=
      Option.isNone_iff_eq_none.mp (Option.isSome_eq_false_iff.mp hexact.eof)
    rw [hexact.hardRequired, step_eq, heof]
    cases q.valueAt .eof <;> simp [Step.ofParts]
  · intro b
    rw [Step.takes_step, hexact.nonAsciiOk b]

theorem admissible_agrees_letLine : ∃ q,
    (@commandLine ⟨[], []⟩ .default).feedBytes (ascii "let a = (b") = some q ∧
      ∃ adm, q.admissible = .ok adm ∧
        (∀ b, adm.charset.contains b = true ↔ Step.Takes (q.step (.byte b)) (.byte b)) ∧
        (adm.hardRequired = true ↔ q.step .eof = none) ∧
        (∀ b, adm.nonAsciiOk = true ↔ Step.Takes (q.step (.text b)) (.text b)) ∧
        ∃ offered, q.completions = .ok offered := by
  obtain ⟨q, hq⟩ : ∃ q, (@commandLine ⟨[], []⟩ .default).feedBytes (ascii "let a = (b") = some q :=
    Option.isSome_iff_exists.mp rfl
  exact ⟨q, hq, @admissible_agrees ⟨[], []⟩ .default _ q hq⟩

end Eo9.Eosh
