import Eo9.Eosh.Contract
import Eo9.Eosh.Room

/-!
# The forced walk of TAB

`forced_prefix` (`inc.rs`) collects the bytes that a state forces before a choice
opens. Every production of the grammar has room, so the walk ends after at most one
keyword; and whatever line the state accepts starts with what the walk collects,
since a state that takes text takes more than one letter.
-/

namespace Eo9.Eosh

open Eo9.Eosh.Parser

namespace Grammar

/-- The state takes white space. -/
def WsLed {α : Type} (p : P α) : Prop :=
  (p.nextAt (.byte spaceByte)).isSome = true ∧ (p.nextAt (.byte tabByte)).isSome = true

theorem WsLed.bind {α β : Type} {p : P α} (h : WsLed p) (f : α → P β) : WsLed (p.bind f) := by
  constructor
  · rw [isSome_nextAt_bind, h.1, Bool.true_or]
  · rw [isSome_nextAt_bind, h.2, Bool.true_or]

theorem WsLed.map {α β : Type} {p : P α} (h : WsLed p) (f : α → β) : WsLed (p.map f) := by
  constructor
  · rw [nextAt_map, Option.isSome_map, h.1]
  · rw [nextAt_map, Option.isSome_map, h.2]

theorem wsLed_ws : WsLed (ws : P Unit) := by
  constructor
  · rw [ws, nextAt_leaf]
    rfl
  · rw [ws, nextAt_leaf]
    rfl

theorem WsLed.spaced {α : Type} {p : P α} (h : WsLed p) : p.Spaced := .inr h

theorem isSome_nextAt_alt {α : Type} {ps : List (P α)} {p : P α} (hp : p ∈ ps) {i : Input}
    (h : (p.nextAt i).isSome = true) : ((Parser.alt ps).nextAt i).isSome = true := by
  obtain ⟨q, hq⟩ := Option.isSome_iff_exists.mp h
  rw [nextAt_alt, isSome_alive, Bool.not_eq_true', List.isEmpty_eq_false_iff]
  exact List.ne_nil_of_mem (List.mem_filterMap.mpr ⟨p, hp, hq⟩)

/-- One alternative takes white space. -/
theorem WsLed.alt {α : Type} {ps : List (P α)} {p : P α} (hp : p ∈ ps) (h : WsLed p) :
    WsLed (Parser.alt ps) := ⟨isSome_nextAt_alt hp h.1, isSome_nextAt_alt hp h.2⟩

theorem spaced_alt {α : Type} {ps : List (P α)} {p : P α} (hp : p ∈ ps) (h : p.Spaced) :
    (Parser.alt ps).Spaced := by
  rcases h with h | h
  · left
    rw [valueAt_alt, List.findSome?_isSome_iff]
    exact ⟨p, hp, h⟩
  · exact .inr (WsLed.alt hp h)

theorem spaced_map {α β : Type} {p : P α} (h : p.Spaced) (f : α → β) : (p.map f).Spaced := by
  rcases h with h | h
  · left
    rwa [valueAt_map, Option.isSome_map]
  · exact .inr (WsLed.map h f)

theorem roomy_ws {α : Type} {p : P α} (h : p.Roomy) : (keepRight ws p).Roomy :=
  ⟨trivial, fun _ => h, .inr ⟨.ws, rfl, .inl trivial⟩⟩

/-- A right side that white space sets apart. -/
theorem roomy_bind {α β : Type} {p : P α} {f : α → P β} (hp : p.Roomy) (hf : ∀ a, (f a).Roomy)
    (hspaced : ∀ a, (f a).Spaced) : (p.bind f).Roomy := ⟨hp, hf, .inl hspaced⟩

/-- A right side behind exact bytes. -/
theorem roomy_lit {α : Type} {bytes : List Ascii} {p : P α} (hlen : bytes.length ≤ 8)
    (hp : p.Roomy) (hwide : p.Wide) : (keepRight (lit bytes) p).Roomy :=
  ⟨hlen, fun _ => hp, .inr ⟨.lit bytes, rfl, .inr ⟨trivial, fun _ => hwide⟩⟩⟩

theorem roomyAll_of_roomy {α : Type} {ps : List (P α)} (h : ∀ p ∈ ps, p.Roomy) :
    RoomyAll ps where
  roomy p hp := .inl (h p hp)
  covered _ _ hmem := (h _ hmem).elim

theorem roomy_alternatives {α : Type} {ps : List (P α)} (h : ∀ p ∈ ps, p.Roomy) :
    (Parser.alt ps).Roomy := roomy_alt (roomyAll_of_roomy h)

/-- Vocabularies beside a word that starts where they do. -/
theorem roomy_overlay {α : Type} (excluded : List Str) (bare : Bool) {ps : List (P α)} {q : P α}
    (hq : q ∈ ps) (hcaptures : q.Captures (.start excluded bare))
    (h : ∀ p ∈ ps, p.Roomy ∨ ∃ vocab, p = overlayWords vocab) : (Parser.alt ps).Roomy := by
  apply roomy_alt
  constructor
  · intro p hp
    rcases h p hp with hp | ⟨vocab, rfl⟩
    · exact .inl hp
    · exact .inr ⟨wordEntries vocab, 0, rfl⟩
  · intro entries pos hmem
    rcases h _ hmem with hp | ⟨vocab, heq⟩
    · exact hp.elim
    · cases heq
      exact ⟨q, hq, _, hcaptures, Word.covers_start excluded bare _⟩

theorem wsLed_tByte (b : Ascii) : WsLed (tByte b) := wsLed_ws.bind _

theorem roomy_tByte (b : Ascii) : (tByte b).Roomy := roomy_ws (Nat.le_add_left 1 7)

theorem wsLed_tKw (word : String) (tag : Tag) : WsLed (tKw word tag) := wsLed_ws.bind _

theorem roomy_tKw {word : String} {tag : Tag} (h : (asciiChars word).length ≤ 8) :
    (tKw word tag).Roomy := roomy_ws h

theorem wsLed_tPlainWord : WsLed tPlainWord := wsLed_ws.bind _

theorem roomy_tPlainWord : tPlainWord.Roomy :=
  roomy_ws (roomy_alternatives (by
    simp [Parser.Roomy, capBareWord, capCompound, Leaf.Roomy]))

/-- A token and what follows it. -/
theorem roomy_behind {α : Type} {b : Ascii} {p : P α} (hp : p.Roomy) (h : p.Spaced) :
    (keepRight (tByte b) p).Roomy := roomy_bind (roomy_tByte b) (fun _ => hp) fun _ => h

theorem wsLed_behind {α : Type} (b : Ascii) (p : P α) : WsLed (keepRight (tByte b) p) :=
  (wsLed_tByte b).bind _

theorem roomy_keyword {α : Type} {word : String} {tag : Tag} {p : P α}
    (hlen : (asciiChars word).length ≤ 8) (hp : p.Roomy) (h : p.Spaced) :
    (keepRight (tKw word tag) p).Roomy := roomy_bind (roomy_tKw hlen) (fun _ => hp) fun _ => h

theorem wsLed_keyword {α : Type} (word : String) (tag : Tag) (p : P α) :
    WsLed (keepRight (tKw word tag) p) := (wsLed_tKw word tag).bind _

theorem wsLed_expr (cx : Cx) (pos : Pos) : WsLed (expr cx pos) :=
  WsLed.alt List.mem_cons_self (wsLed_keyword _ _ _)

theorem wsLed_exprL (cx : Cx) (pos : Pos) : WsLed (exprL cx pos) := by
  obtain ⟨hspace, htab⟩ := wsLed_expr cx pos
  exact ⟨(congrArg _ (nextAt_lazy _ _)).trans hspace, (congrArg _ (nextAt_lazy _ _)).trans htab⟩

theorem roomy_exprL (cx : Cx) (pos : Pos) : (exprL cx pos).Roomy := trivial

theorem roomy_parenExpr (cx : Cx) : (parenExpr cx).Roomy := by
  apply roomy_bind
  · exact roomy_lit (Nat.le_add_left 1 7) (roomy_exprL cx .normal) (wsLed_exprL cx .normal).spaced.wide
  · exact fun _ => roomy_tByte closeParen
  · exact fun _ => ((wsLed_tByte closeParen).map _).spaced

theorem wsLed_capPrimary (cx : Cx) (pos : Pos) : WsLed (capPrimary cx pos) := wsLed_ws.bind _

theorem roomy_capPrimary (cx : Cx) (pos : Pos) : (capPrimary cx pos).Roomy := by
  cases pos <;>
    exact roomy_ws (roomy_overlay _ true List.mem_cons_self rfl (by
      simp [Parser.Roomy, capBareWord, capCompound, Leaf.Roomy, roomy_parenExpr]))

theorem wsLed_valueHinted (cx : Cx) (hints : Option (List HintEntry)) :
    WsLed (valueHinted cx hints) := wsLed_ws.bind _

theorem roomy_valueHinted (cx : Cx) (hints : Option (List HintEntry)) :
    (valueHinted cx hints).Roomy := by
  cases hints with
  | none =>
    exact roomy_ws (roomy_alternatives (by
      simp [Parser.Roomy, capBareWord, capCompound, capQuoted, Leaf.Roomy, roomy_parenExpr]))
  | some hints =>
    exact roomy_ws (roomy_overlay reserved true List.mem_cons_self rfl (by
      simp [Parser.Roomy, capBareWord, capCompound, capQuoted, Leaf.Roomy, roomy_parenExpr]))

/-- The forms of an argument: a flag, then the positional ones. -/
theorem roomy_args {cx : Cx} {p : P Arg} (h : p.Roomy) (hwide : p.Wide) :
    (keepRight ws (.alt (keepRight (lit [dash, dash]) p :: positionals cx))).Roomy := by
  apply roomy_ws
  apply roomy_alternatives
  intro q hq
  rcases List.mem_cons.mp hq with rfl | hq
  · exact roomy_lit (Nat.le_add_left 2 6) h hwide
  · simp only [positionals, List.mem_cons, List.not_mem_nil, or_false] at hq
    rcases hq with rfl | rfl | rfl | rfl
    · exact trivial
    · exact trivial
    · exact trivial
    · exact roomy_parenExpr cx

theorem wide_bind {α β : Type} {p : P α} {f : α → P β} (h : ∃ b c : Ascii, b ≠ c ∧
    (p.nextAt (.byte b)).isSome = true ∧ (p.nextAt (.byte c)).isSome = true) : (p.bind f).Wide := by
  obtain ⟨b, c, hne, hb, hc⟩ := h
  refine .inr ⟨b, c, hne, ?_, ?_⟩
  · rw [isSome_nextAt_bind, hb, Bool.true_or]
  · rw [isSome_nextAt_bind, hc, Bool.true_or]

/-- A flag's name takes two letters. -/
theorem flagName_bytes : ∃ b c : Ascii, b ≠ c ∧
    ((capFlagName : P Str).nextAt (.byte b)).isSome = true ∧
      ((capFlagName : P Str).nextAt (.byte c)).isSome = true :=
  ⟨letterX, letterY, letterX_ne, rfl, rfl⟩

theorem roomy_arg (cx : Cx) : (arg cx).Roomy := by
  apply roomy_args
  · exact roomy_bind trivial (fun _ => roomy_valueHinted cx none)
      fun _ => ((wsLed_valueHinted cx none).map _).spaced
  · exact wide_bind flagName_bytes

theorem roomy_argKnown (cx : Cx) (program : ProgramSlots) : (argKnown cx program).Roomy := by
  apply roomy_args
  · apply roomy_bind
    · exact roomy_overlay [] false List.mem_cons_self rfl (by
        simp [Parser.Roomy, capFlagName, Leaf.Roomy])
    · exact fun name => roomy_valueHinted cx (program.values name)
    · exact fun name => ((wsLed_valueHinted cx (program.values name)).map _).spaced
  · apply wide_bind
    obtain ⟨b, c, hne, hb, hc⟩ := flagName_bytes
    exact ⟨b, c, hne, isSome_nextAt_alt List.mem_cons_self hb,
      isSome_nextAt_alt List.mem_cons_self hc⟩

/-- A list that may go on with another item. -/
theorem spaced_rest {α β : Type} {acc : β} {item : P α} {f : α → P β} :
    (Parser.alt [.pure acc, .bind item f] : P β).Spaced :=
  spaced_alt List.mem_cons_self (.inl rfl)

theorem roomy_rest {α β : Type} {acc : β} {item : P α} {f : α → P β} (h : item.Roomy)
    (hf : ∀ a, (f a).Roomy) (hspaced : ∀ a, (f a).Spaced) :
    (Parser.alt [.pure acc, .bind item f] : P β).Roomy :=
  roomy_alternatives (by
    simp only [List.forall_mem_cons, List.not_mem_nil, false_implies, implies_true, and_true]
    exact ⟨trivial, roomy_bind h hf hspaced⟩)

theorem spaced_lazy {α : Type} {n : Nt α} (h : (production n).Spaced) :
    (Parser.lazy n : P α).Spaced := by
  have hvalue : (Parser.lazy n : P α).valueAt .eof = (production n).valueAt .eof := valueAt_lazy n _
  have hnext : ∀ i, (Parser.lazy n : P α).nextAt i = (production n).nextAt i := nextAt_lazy n
  rw [Spaced, hvalue, hnext, hnext]
  exact h

theorem roomy_starArgsFrom (cx : Cx) (acc : List Arg) : (starArgsFrom cx acc).Roomy :=
  roomy_rest (roomy_arg cx) (fun _ => trivial) fun _ => spaced_lazy spaced_rest

theorem roomy_starArgsKnownFrom (cx : Cx) (program : ProgramSlots) (acc : List Arg) :
    (starArgsKnownFrom cx program acc).Roomy :=
  roomy_rest (roomy_argKnown cx program) (fun _ => trivial) fun _ => spaced_lazy spaced_rest

theorem spaced_starArgsFor (cx : Cx) (name : Str) : (starArgsFor cx name).Spaced := by
  rw [starArgsFor]
  cases cx.programs name with
  | none => exact spaced_rest
  | some program => exact spaced_rest

theorem roomy_appFrom {head : P (Option Str × Expr)} (h : head.Roomy) (cx : Cx) :
    (appFrom head cx).Roomy := by
  apply roomy_bind h
  · rintro ⟨name, callee⟩
    cases name with
    | none => exact roomy_starArgsFrom cx []
    | some name =>
      change (starArgsFor cx name).Roomy
      rw [starArgsFor]
      cases cx.programs name with
      | none => exact roomy_starArgsFrom cx []
      | some program => exact roomy_starArgsKnownFrom cx program []
  · rintro ⟨name, callee⟩
    cases name with
    | none => exact spaced_map spaced_rest _
    | some name => exact spaced_map (spaced_starArgsFor cx name) _

theorem roomy_app (cx : Cx) (pos : Pos) : (app cx pos).Roomy :=
  roomy_appFrom (roomy_capPrimary cx pos) cx

theorem wsLed_app (cx : Cx) (pos : Pos) : WsLed (app cx pos) := (wsLed_capPrimary cx pos).bind _

theorem roomy_ampRest (cx : Cx) (acc : Expr) : (ampRest cx acc).Roomy :=
  roomy_rest (roomy_behind (roomy_app cx .normal) (wsLed_app cx .normal).spaced)
    (fun _ => trivial) fun _ => spaced_lazy spaced_rest

theorem roomy_amp (cx : Cx) (pos : Pos) : (amp cx pos).Roomy :=
  roomy_bind (roomy_app cx pos) (roomy_ampRest cx) fun _ => spaced_rest

theorem roomy_gateBody (cx : Cx) : (gateBody cx).Roomy :=
  roomy_behind (roomy_exprL cx .normal) (wsLed_exprL cx .normal).spaced

theorem spaced_gateBody (cx : Cx) (f : Expr → Expr) : ((gateBody cx).map f).Spaced :=
  ((wsLed_behind dollar _).map f).spaced

theorem roomy_wordListRest (acc : List Str) : (wordListRest acc).Roomy :=
  roomy_rest (roomy_behind roomy_tPlainWord wsLed_tPlainWord.spaced) (fun _ => trivial)
    fun _ => spaced_lazy spaced_rest

theorem roomy_wordList : wordList.Roomy :=
  roomy_bind roomy_tPlainWord (fun first => roomy_wordListRest [first]) fun _ => spaced_rest

theorem wsLed_wordList : WsLed wordList := wsLed_tPlainWord.bind _

theorem roomy_moreExprsAcc (cx : Cx) (acc : List Expr) : (moreExprsAcc cx acc).Roomy := by
  apply roomy_bind (roomy_behind (roomy_exprL cx .normal) (wsLed_exprL cx .normal).spaced)
  · intro extra
    apply roomy_alternatives
    simp only [List.forall_mem_cons, List.not_mem_nil, false_implies, implies_true, and_true]
    exact ⟨roomy_tByte closeParen, trivial⟩
  · exact fun extra => (WsLed.alt List.mem_cons_self ((wsLed_tByte closeParen).map _)).spaced

theorem roomy_repVecFrom {α : Type} {item : P α} (h : item.Roomy) (hws : WsLed item) (n : ℕ)
    (acc : List α) : (repVecFrom item n acc).Roomy := by
  induction n generalizing acc with
  | zero => exact trivial
  | succ n ih =>
    apply roomy_bind h (fun value => ih (acc ++ [value]))
    intro value
    cases n with
    | zero => exact .inl rfl
    | succ n => exact (hws.bind _).spaced

theorem roomy_slotTuple (n : ℕ) : (slotTuple n).Roomy := by
  have hopen : (andThen (tKw "as" .keyword) (tByte openParen)).Roomy :=
    roomy_bind (roomy_tKw (by decide)) (fun _ => roomy_tByte openParen)
      fun _ => (wsLed_tByte openParen).spaced
  have hitem : (keepRight (tByte comma) tPlainWord).Roomy :=
    roomy_behind roomy_tPlainWord wsLed_tPlainWord.spaced
  have hrest : ∀ first : Str, ((repVec (n - 1) (keepRight (tByte comma) tPlainWord)).map
      fun rest => first :: rest).Spaced := by
    intro first
    apply spaced_map
    rw [repVec]
    cases n - 1 with
    | zero => exact .inl rfl
    | succ m => exact ((wsLed_behind comma _).bind _).spaced
  apply roomy_bind
  · apply roomy_bind hopen
    · exact fun _ => roomy_bind roomy_tPlainWord
        (fun first => roomy_repVecFrom hitem (wsLed_behind comma _) _ _) hrest
    · exact fun _ => (wsLed_tPlainWord.bind _).spaced
  · exact fun _ => roomy_tByte closeParen
  · exact fun _ => ((wsLed_tByte closeParen).map _).spaced

theorem wsLed_slotTuple (n : ℕ) : WsLed (slotTuple n) :=
  (((wsLed_tKw "as" .keyword).bind _).bind _).bind _

theorem roomy_providerNoParen (cx : Cx) : (providerNoParen cx).Roomy := by
  apply roomy_bind (roomy_appFrom ?_ cx) (roomy_ampRest cx)
  · exact fun _ => spaced_rest
  · exact roomy_ws (roomy_overlay reserved true List.mem_cons_self rfl (by
      simp [Parser.Roomy, capBareWord, capCompound, Leaf.Roomy]))

theorem wsLed_withItem (cx : Cx) : WsLed (withItem cx) :=
  WsLed.alt List.mem_cons_self (wsLed_behind _ _)

theorem roomy_withItem (cx : Cx) : (withItem cx).Roomy := by
  have has : (keepRight (tKw "as" .keyword) tPlainWord).Roomy :=
    roomy_keyword (by decide) roomy_tPlainWord wsLed_tPlainWord.spaced
  have hclose : (andThen (tByte closeParen) (tKw "as" .keyword)).Roomy :=
    roomy_bind (roomy_tByte closeParen) (fun _ => roomy_tKw (by decide))
      fun _ => (wsLed_tKw _ _).spaced
  have hslot : (keepRight (andThen (tByte closeParen) (tKw "as" .keyword)) tPlainWord).Roomy :=
    roomy_bind hclose (fun _ => roomy_tPlainWord) fun _ => wsLed_tPlainWord.spaced
  have htuple : ∀ first : Expr, (.bind (moreExprs cx) fun rest =>
      .map (slotTuple (first :: rest).length) fun slots =>
        List.zipWith .mk (first :: rest) slots : P (List WithBinding)).Roomy := fun first =>
    roomy_bind (roomy_moreExprsAcc cx []) (fun rest => roomy_slotTuple _)
      fun rest => ((wsLed_slotTuple _).map _).spaced
  apply roomy_alternatives
  simp only [List.forall_mem_cons, List.not_mem_nil, false_implies, implies_true, and_true]
  constructor
  · apply roomy_behind
    · apply roomy_bind (roomy_exprL cx .normal)
      · intro first
        apply roomy_alternatives
        simp only [List.forall_mem_cons, List.not_mem_nil, false_implies, implies_true, and_true]
        exact ⟨hslot, htuple first⟩
      · exact fun first => (WsLed.alt List.mem_cons_self
          ((((wsLed_tByte closeParen).bind _).bind _).map _)).spaced
    · exact ((wsLed_exprL cx .normal).bind _).spaced
  · exact roomy_bind (roomy_providerNoParen cx) (fun _ => has)
      fun _ => ((wsLed_keyword _ _ _).map _).spaced

theorem roomy_withItemsRest (cx : Cx) (acc : List WithBinding) : (withItemsRest cx acc).Roomy :=
  roomy_rest (roomy_behind (roomy_withItem cx) (wsLed_withItem cx).spaced) (fun _ => trivial)
    fun _ => spaced_lazy spaced_rest

theorem roomy_expr (cx : Cx) (pos : Pos) : (expr cx pos).Roomy := by
  have honly : (gateOnly cx).Roomy := by
    apply roomy_keyword (by decide)
    · exact roomy_bind roomy_wordList (fun _ => roomy_gateBody cx) fun _ => spaced_gateBody cx _
    · exact (wsLed_wordList.bind _).spaced
  have hrename : (gateRename cx).Roomy := by
    apply roomy_keyword (by decide)
    · apply roomy_bind roomy_tPlainWord
      · exact fun source => roomy_bind roomy_tPlainWord (fun _ => roomy_gateBody cx)
          fun _ => spaced_gateBody cx _
      · exact fun source => (wsLed_tPlainWord.bind _).spaced
    · exact (wsLed_tPlainWord.bind _).spaced
  have hwith : (gateWith cx).Roomy := by
    have hitems : (withItems cx).Roomy :=
      roomy_bind (roomy_withItem cx) (fun first => roomy_withItemsRest cx first)
        fun _ => spaced_rest
    apply roomy_keyword (by decide)
    · exact roomy_bind hitems (fun _ => roomy_gateBody cx) fun _ => spaced_gateBody cx _
    · exact (((wsLed_withItem cx).bind _).bind _).spaced
  have hplain : (.bind (amp cx pos) fun left => .alt [.pure left,
      .map (keepRight (tByte dollar) (exprL cx .normal)) fun consumer => .compose left consumer] :
      P Expr).Roomy := by
    apply roomy_bind (roomy_amp cx pos)
    · intro left
      apply roomy_alternatives
      simp only [List.forall_mem_cons, List.not_mem_nil, false_implies, implies_true, and_true]
      exact ⟨trivial, roomy_gateBody cx⟩
    · exact fun left => spaced_alt List.mem_cons_self (.inl rfl)
  apply roomy_alternatives
  simp only [List.forall_mem_cons, List.not_mem_nil, false_implies, implies_true, and_true]
  exact ⟨honly, hrename, hwith, hplain⟩

theorem roomy_production {α : Type} (n : Nt α) : (production n).Roomy := by
  cases n with
  | expr cx pos => exact roomy_expr cx pos
  | starArgs cx acc => exact roomy_starArgsFrom cx acc
  | starArgsKnown cx program acc => exact roomy_starArgsKnownFrom cx program acc
  | ampRest cx acc => exact roomy_ampRest cx acc
  | wordListRest acc => exact roomy_wordListRest acc
  | withItemsRest cx acc => exact roomy_withItemsRest cx acc
  | moreExprs cx acc => exact roomy_moreExprsAcc cx acc

theorem roomy_nameEqExpr (cx : Cx) {word : String} (build : Str → Expr → Command)
    (h : (asciiChars word).length ≤ 8) : (nameEqExpr cx word build).Roomy := by
  apply roomy_keyword h
  · exact roomy_bind roomy_tPlainWord
      (fun _ => roomy_behind (roomy_exprL cx .normal) (wsLed_exprL cx .normal).spaced)
      fun _ => ((wsLed_behind equals _).map _).spaced
  · exact (wsLed_tPlainWord.bind _).spaced

theorem roomy_detach (cx : Cx) : (detach cx).Roomy := by
  have hexpr := (wsLed_exprL cx .normal).spaced
  have hpolicy : (keepRight (tKw "restart" .keyword) (exprL cx .normal)).Roomy :=
    roomy_keyword (by decide) (roomy_exprL cx .normal) hexpr
  apply roomy_keyword (by decide)
  · apply roomy_bind roomy_tPlainWord
    · intro name
      apply roomy_behind
      · exact roomy_bind (roomy_exprL cx .normal) (fun _ => hpolicy)
          fun _ => ((wsLed_keyword _ _ _).map _).spaced
      · exact ((wsLed_exprL cx .normal).bind _).spaced
    · exact fun name => (wsLed_behind equals _).spaced
  · exact (wsLed_tPlainWord.bind _).spaced

theorem roomy_svc : svc.Roomy := by
  have hword : ∀ (word : String) {α : Type} (f : Unit → α), (asciiChars word).length ≤ 8 →
      (Parser.map (tKw word .builtin) f : P α).Roomy := fun _ _ _ h => roomy_tKw h
  have hwhich : (.alt [
      .map (tKw "log" .builtin) fun _ => (0 : UInt8),
      .map (tKw "stop" .builtin) fun _ => 1,
      .map (tKw "clear" .builtin) fun _ => 2] : P UInt8).Roomy := by
    apply roomy_alternatives
    simp only [List.forall_mem_cons, List.not_mem_nil, false_implies, implies_true, and_true]
    exact ⟨hword _ _ (by decide), hword _ _ (by decide), hword _ _ (by decide)⟩
  apply roomy_keyword (by decide)
  · apply roomy_alternatives
    simp only [List.forall_mem_cons, List.not_mem_nil, false_implies, implies_true, and_true]
    refine ⟨trivial, hword _ _ (by decide), ?_⟩
    exact roomy_bind hwhich (fun _ => roomy_tPlainWord) fun _ => (wsLed_tPlainWord.map _).spaced
  · exact spaced_alt List.mem_cons_self (.inl rfl)

theorem roomy_cardRoute (word : Str) : (cardRoute word).Roomy := by
  unfold cardRoute
  split_ifs <;> exact trivial

/-- The lone word chooses by itself, whatever it is routed to. -/
theorem roomy_cards : (.bind (capBareWord []) cardRoute : P Command).Roomy :=
  ⟨trivial, roomy_cardRoute, .inr ⟨_, rfl, .inl trivial⟩⟩

theorem roomy_describe (cx : Cx) : (describe cx).Roomy := by
  apply roomy_keyword (by decide)
  · apply roomy_alternatives
    simp only [List.forall_mem_cons, List.not_mem_nil, false_implies, implies_true, and_true]
    refine ⟨roomy_tByte _, roomy_tByte _, ?_, roomy_exprL cx .normal⟩
    exact roomy_ws (roomy_overlay [] true List.mem_cons_self rfl (by
      simp [roomy_cards]))
  · exact (WsLed.alt List.mem_cons_self ((wsLed_tByte dollar).map _)).spaced

theorem roomy_man (cx : Cx) : (man cx).Roomy := by
  have hcapture : (.map (capBareWord []) .man : P Command) ∈ ([
      .map (litByte dollar) fun _ => .man (ascii "$"),
      .map (litByte ampersand) fun _ => .man (ascii "&"),
      .map (capBareWord []) .man,
      .map capCompound .man,
      overlayWords cx.manVocab] : List (P Command)) :=
    List.mem_cons_of_mem _ (List.mem_cons_of_mem _ List.mem_cons_self)
  apply roomy_keyword (by decide)
  · exact roomy_ws (roomy_overlay [] true hcapture rfl (by
      simp [Parser.Roomy, litByte, lit, capBareWord, capCompound, Leaf.Roomy]))
  · exact (wsLed_ws.bind _).spaced

theorem roomy_command (cx : Cx) : (command cx).Roomy := by
  have hword : ∀ (word : String) (f : Unit → Command), (asciiChars word).length ≤ 8 →
      (Parser.map (tKw word .builtin) f).Roomy := fun _ _ h => roomy_tKw h
  have henv : (.alt [.pure .env, .map (exprL cx .normal) .envOf] : P Command).Roomy := by
    apply roomy_alternatives
    simp only [List.forall_mem_cons, List.not_mem_nil, false_implies, implies_true, and_true]
    exact ⟨trivial, roomy_exprL cx .normal⟩
  have henvSpaced : (.alt [.pure .env, .map (exprL cx .normal) .envOf] : P Command).Spaced :=
    spaced_alt List.mem_cons_self (.inl rfl)
  apply roomy_alternatives
  simp only [List.forall_mem_cons, List.not_mem_nil, false_implies, implies_true, and_true]
  exact ⟨roomy_nameEqExpr _ _ (by decide), roomy_nameEqExpr _ _ (by decide), roomy_detach cx,
    roomy_svc, hword _ _ (by decide), hword _ _ (by decide), hword _ _ (by decide),
    hword _ _ (by decide), hword _ _ (by decide), roomy_keyword (by decide) henv henvSpaced,
    roomy_describe cx, roomy_man cx,
    roomy_keyword (by decide) (roomy_exprL cx .normal) (wsLed_exprL cx .normal).spaced,
    roomy_expr cx .head, trivial⟩

theorem roomy_trailing : trailing.Roomy := by
  have hwide : (commentRest : P Unit).Wide := wide_leaf.mpr (.inl rfl)
  have hcommentRest : (commentRest : P Unit).Roomy := trivial
  have hcomment : (andThen (litByte hash) commentRest).Roomy :=
    roomy_lit (Nat.le_add_left 1 7) hcommentRest hwide
  apply roomy_ws
  apply roomy_alternatives
  simp only [List.forall_mem_cons, List.not_mem_nil, false_implies, implies_true, and_true]
  exact ⟨trivial, hcomment⟩

end Grammar

theorem roomy_commandLine [ApiDocs] (vocab : Vocab) : (commandLine vocab).Roomy :=
  Grammar.roomy_bind (Grammar.roomy_command _) (fun _ => Grammar.roomy_trailing)
    fun _ => ((Grammar.wsLed_ws.bind _).map _).spaced

namespace Parser

variable {Nt : Type → Type} {α : Type} [Productions Nt]

/-- The walk of at most `fuel` steps: while one byte is required, it is collected. -/
def forcedFrom : ℕ → Parser Nt α → Except Panic (List Ascii)
  | 0, _ => .ok []
  | fuel + 1, p => do
      let adm ← p.admissible
      if !adm.hardRequired then .ok []
      else
        match adm.charset.one with
        | none => .ok []
        | some b =>
          match (p.step (.byte b)).bind Step.cont with
          | none => .ok []
          | some next => do
              let rest ← forcedFrom fuel next
              .ok (b :: rest)

/-- The bytes that the state forces, by a walk of at most 4096 steps. -/
def forcedPrefix (p : Parser Nt α) : Except Panic (List Ascii) := p.forcedFrom 4096

/-- The state goes on with one byte only, to `q`, and may not end the line. -/
structure Forces (p : Parser Nt α) (b : Ascii) (q : Parser Nt α) : Prop where
  next : p.nextAt (.byte b) = some q
  only : ∀ c : Ascii, (p.nextAt (.byte c)).isSome = true → c = b
  text : ∀ c, p.nextAt (.text c) = none
  eof : p.valueAt .eof = none

theorem Forces.of_ofByte {p q r : Parser Nt α} {b : Ascii} (h : p.Forces b q) {c : UInt8}
    (hc : p.nextAt (.ofByte c) = some r) : c = b.1 ∧ r = q := by
  unfold Input.ofByte at hc
  split at hc
  · rename_i hlt
    obtain rfl := h.only ⟨c, hlt⟩ (by rw [hc]; rfl)
    exact ⟨rfl, Option.some.inj (hc.symm.trans h.next)⟩
  · rw [h.text] at hc
    cases hc

theorem opens_cons {p : Parser Nt α} {b : UInt8} {w : Str} :
    p.Opens (b :: w) ↔ ∃ q, p.nextAt (.ofByte b) = some q ∧ q.Opens w := by
  simp only [Opens, run_cons, List.cons_append, lives_cons]
  cases hq : p.nextAt (.ofByte b) with
  | none => simp
  | some q => simp

/-- A state that forces a byte offers no choice. -/
theorem Forces.not_wide {p q : Parser Nt α} {b : Ascii} (h : p.Forces b q) : ¬ p.Wide := by
  rintro (hvalue | ⟨c, d, hne, hc, hd⟩)
  · rw [h.eof] at hvalue
    cases hvalue
  · exact hne ((h.only c hc).trans (h.only d hd).symm)

section Productions

variable (htame : ∀ {α : Type} (n : Nt α), (Productions.build n).Tame)

include htame

/-- The walk stops at a tame state, or collects the byte that the state forces. -/
theorem Tame.forcedFrom {p : Parser Nt α} (h : p.Tame) :
    (∀ fuel, p.forcedFrom fuel = .ok []) ∨ ∃ b q, p.Forces b q ∧
      ∀ fuel, p.forcedFrom (fuel + 1) = (q.forcedFrom fuel).map fun rest => b :: rest := by
  obtain ⟨adm, hadm, hexact⟩ := h.exact htame
  have hstep : ∀ fuel, p.forcedFrom (fuel + 1) =
      if !adm.hardRequired then .ok []
      else
        match adm.charset.one with
        | none => .ok []
        | some b =>
          match p.nextAt (.byte b) with
          | none => .ok []
          | some next => (next.forcedFrom fuel).map fun rest => b :: rest := by
    intro fuel
    rw [Parser.forcedFrom, hadm]
    rfl
  cases hard : adm.hardRequired with
  | false =>
    left
    intro fuel
    cases fuel with
    | zero => rfl
    | succ fuel =>
      rw [hstep, hard]
      rfl
  | true =>
    cases hone : adm.charset.one with
    | none =>
      left
      intro fuel
      cases fuel with
      | zero => rfl
      | succ fuel =>
        rw [hstep, hard, hone]
        rfl
    | some b =>
      right
      have honly : ∀ c : Ascii, (p.nextAt (.byte c)).isSome = true ↔ c = b := by
        intro c
        rw [← hexact.charset]
        exact Charset.contains_of_one hone c
      obtain ⟨q, hq⟩ := Option.isSome_iff_exists.mp ((honly b).mpr rfl)
      refine ⟨b, q, ⟨hq, fun c => (honly c).mp, ?_, ?_⟩, ?_⟩
      · intro c
        apply Option.not_isSome_iff_eq_none.mp
        intro htext
        -- a state that takes text takes both letters
        have hx := (h.letter_of_text htame (.inl rfl) (c := c)).2 htext
        have hy := (h.letter_of_text htame (.inr rfl) (c := c)).2 htext
        exact letterX_ne (((honly _).mp hx).trans ((honly _).mp hy).symm)
      · rw [hexact.hardRequired, Bool.not_eq_true', Option.isSome_eq_false_iff] at hard
        exact Option.isNone_iff_eq_none.mp hard
      · intro fuel
        rw [hstep, hard, hone]
        simp only [hq]
        rfl

/-- What a tame state accepts starts with what the walk collects. -/
theorem Tame.forcedFrom_sound {p : Parser Nt α} (h : p.Tame) {fuel : ℕ} {out : List Ascii}
    (hout : p.forcedFrom fuel = .ok out) {s : Str} {v : α} (hs : p.run s .eof = some v) :
    out.map (·.1) <+: s := by
  induction fuel generalizing p out s with
  | zero =>
    cases hout
    exact List.nil_prefix
  | succ fuel ih =>
    rcases h.forcedFrom htame with hstop | ⟨b, q, hforces, hwalk⟩
    · rw [hstop] at hout
      cases hout
      exact List.nil_prefix
    · rw [hwalk] at hout
      cases hrest : q.forcedFrom fuel with
      | error e =>
        rw [hrest] at hout
        cases hout
      | ok rest =>
        rw [hrest] at hout
        cases hout
        cases s with
        | nil =>
          rw [run_nil, hforces.eof] at hs
          cases hs
        | cons c s =>
          rw [run_cons] at hs
          obtain ⟨r, hr, hrun⟩ := Option.bind_eq_some_iff.mp hs
          obtain ⟨rfl, rfl⟩ := hforces.of_ofByte hr
          exact List.cons_prefix_cons.mpr ⟨rfl, ih (h.nextAt htame hr) hrest hrun⟩

/-- The walk ends before a choice that is behind a word, whatever its cap. -/
theorem Tame.forcedFrom_ends {p : Parser Nt α} (h : p.Tame) {w : Str} (hw : p.Opens w) :
    ∃ out, out.length ≤ w.length ∧ ∀ fuel, w.length ≤ fuel → p.forcedFrom fuel = .ok out := by
  induction w generalizing p with
  | nil =>
    rcases h.forcedFrom htame with hstop | ⟨b, q, hforces, -⟩
    · exact ⟨[], Nat.le_refl 0, fun fuel _ => hstop fuel⟩
    · exact absurd ((opens_iff (feedBytes_nil p)).mp hw) hforces.not_wide
  | cons c w ih =>
    rcases h.forcedFrom htame with hstop | ⟨b, q, hforces, hwalk⟩
    · exact ⟨[], Nat.zero_le _, fun fuel _ => hstop fuel⟩
    · obtain ⟨r, hr, hopens⟩ := opens_cons.mp hw
      obtain ⟨-, rfl⟩ := hforces.of_ofByte hr
      obtain ⟨out, hlen, hout⟩ := ih (h.nextAt htame hr) hopens
      refine ⟨b :: out, Nat.succ_le_succ hlen, ?_⟩
      intro fuel hfuel
      cases fuel with
      | zero => cases hfuel
      | succ fuel =>
        rw [hwalk, hout fuel (Nat.le_of_succ_le_succ hfuel)]
        rfl

variable (hroomy : ∀ {α : Type} (n : Nt α), (Productions.build n).Roomy)

include hroomy

/-- The walk of a tame state with room collects at most one keyword, whatever its cap. -/
theorem Roomy.forcedFrom_ends {p : Parser Nt α} (h : p.Roomy) (ht : p.Tame) :
    ∃ out, out.length ≤ 8 ∧ ∀ fuel, 8 ≤ fuel → p.forcedFrom fuel = .ok out := by
  rcases ht.forcedFrom htame with hstop | ⟨b, q, hforces, -⟩
  · exact ⟨[], Nat.zero_le 8, fun fuel _ => hstop fuel⟩
  · obtain ⟨w, hw, hopens⟩ := h.near hroomy htame ht (.inr ⟨b, by rw [hforces.next]; rfl⟩)
    obtain ⟨out, hlen, hout⟩ := ht.forcedFrom_ends htame hopens
    exact ⟨out, hlen.trans hw, fun fuel hfuel => hout fuel (hw.trans hfuel)⟩

end Productions

end Parser

/-- In every state that a line can lead to, whatever the state accepts starts with
the forced bytes, and the walk that collects them stops after at most eight, well
before its cap. -/
theorem forcedPrefix_sound [ApiDocs] (vocab : Vocab) (line : Str) (q : P Command)
    (h : (commandLine vocab).feedBytes line = some q) :
    ∃ out, q.forcedPrefix = .ok out ∧
      (∀ s c, (q.feedBytes s).bind Parser.finish = some c → out.map (·.1) <+: s) ∧
      out.length ≤ 8 ∧ ∀ cap, 8 ≤ cap → q.forcedFrom cap = .ok out := by
  have htame : q.Tame := (tame_commandLine vocab).feedBytes Grammar.tame_production h
  have hroomy : q.Roomy := (roomy_commandLine vocab).feedBytes Grammar.roomy_production h
  obtain ⟨out, hlen, hout⟩ :=
    hroomy.forcedFrom_ends Grammar.tame_production Grammar.roomy_production htame
  have hcap : q.forcedPrefix = .ok out := hout 4096 (by decide)
  exact ⟨out, hcap, fun s c hs => htame.forcedFrom_sound Grammar.tame_production hcap hs, hlen, hout⟩

theorem forcedPrefix_sound_imports : ∃ q,
    (@commandLine ⟨[], []⟩ .default).feedBytes (ascii "im") = some q ∧
      ∃ out, q.forcedPrefix = .ok out ∧
        (∀ s c, (q.feedBytes s).bind Parser.finish = some c → out.map (·.1) <+: s) ∧
        out.length ≤ 8 ∧ ∀ cap, 8 ≤ cap → q.forcedFrom cap = .ok out := by
  obtain ⟨q, hq⟩ : ∃ q, (@commandLine ⟨[], []⟩ .default).feedBytes (ascii "im") = some q :=
    Option.isSome_iff_exists.mp rfl
  exact ⟨q, hq, @forcedPrefix_sound ⟨[], []⟩ .default _ q hq⟩

end Eo9.Eosh
