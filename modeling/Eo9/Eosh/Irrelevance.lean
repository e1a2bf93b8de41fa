import Eo9.Eosh.Grammar
import Eo9.Eosh.Lexical

/-!
# Parsers that cannot be told apart

Two parsers agree on the words shorter than a bound when such a word keeps both
alive or neither, and both read the same value from it. The bound is what an
induction through the productions counts down: behind a parser that takes an
input, agreement on shorter words is enough.
-/

namespace Eo9.Eosh

open Eo9.Library

variable {Nt : Type → Type} {α β : Type} [Productions Nt]

namespace Parser

/-- The two parsers treat every word shorter than `n` alike. -/
structure Agree (n : ℕ) (p q : Parser Nt α) : Prop where
  run : ∀ w i, w.length < n → p.run w i = q.run w i
  lives : ∀ w, w.length < n → (p.Lives w ↔ q.Lives w)

namespace Agree

variable {n : ℕ} {p q r : Parser Nt α}

theorem refl (p : Parser Nt α) : Agree n p p := ⟨fun _ _ _ => rfl, fun _ _ => Iff.rfl⟩

theorem symm (h : Agree n p q) : Agree n q p :=
  ⟨fun w i hw => (h.run w i hw).symm, fun w hw => (h.lives w hw).symm⟩

theorem trans (h : Agree n p q) (h' : Agree n q r) : Agree n p r :=
  ⟨fun w i hw => (h.run w i hw).trans (h'.run w i hw),
    fun w hw => (h.lives w hw).trans (h'.lives w hw)⟩

theorem zero : Agree 0 p q := ⟨fun _ _ h => absurd h (Nat.not_lt_zero _),
  fun _ h => absurd h (Nat.not_lt_zero _)⟩

theorem map (h : Agree n p q) (f : α → β) : Agree n (p.map f) (q.map f) := by
  constructor
  · intro w i hw
    rw [run_map, run_map, h.run w i hw]
  · intro w hw
    rw [lives_map, lives_map]
    exact h.lives w hw

theorem bind {f g : α → Parser Nt β} (h : Agree n p q) (hf : ∀ a, Agree n (f a) (g a)) :
    Agree n (p.bind f) (q.bind g) := by
  constructor
  · intro w i hw
    rw [run_bind, run_bind]
    apply Reader.seq_congr
    · rintro u t rfl
      exact h.run u _ (by rw [List.length_append] at hw; omega)
    · rintro u t a rfl -
      exact (hf a).run t i (by rw [List.length_append] at hw; omega)
  · intro w hw
    rw [lives_bind, lives_bind, h.lives w hw]
    apply or_congr Iff.rfl
    constructor
    · rintro ⟨u, b, t, a, rfl, ha, hl⟩
      rw [List.length_append] at hw
      rw [h.run u _ (by omega)] at ha
      exact ⟨u, b, t, a, rfl, ha, ((hf a).lives _ (by omega)).mp hl⟩
    · rintro ⟨u, b, t, a, rfl, ha, hl⟩
      rw [List.length_append] at hw
      rw [← h.run u _ (by omega)] at ha
      exact ⟨u, b, t, a, rfl, ha, ((hf a).lives _ (by omega)).mpr hl⟩

end Agree

namespace Agree

variable {n : ℕ} {p q : Parser Nt α}

/-- Behind a parser that takes an input, the right sides see shorter words. -/
theorem bind_consuming {f g : α → Parser Nt β} (h : Agree (n + 1) p q) (hc : p.Consumes)
    (hf : ∀ a, Agree n (f a) (g a)) : Agree (n + 1) (p.bind f) (q.bind g) := by
  have hnil : ∀ u i a, p.run u i = some a → 0 < u.length := by
    intro u i a ha
    cases u with
    | nil =>
      rw [run_nil_of_consumes hc] at ha
      cases ha
    | cons b u => exact Nat.succ_pos _
  constructor
  · intro w i hw
    rw [run_bind, run_bind]
    apply Reader.seq_congr
    · rintro u t rfl
      exact h.run u _ (by rw [List.length_append] at hw; omega)
    · rintro u t a rfl ha
      have hpos := hnil u _ a ha
      exact (hf a).run t i (by rw [List.length_append] at hw; omega)
  · intro w hw
    rw [lives_bind, lives_bind, h.lives w hw]
    apply or_congr Iff.rfl
    constructor
    · rintro ⟨u, b, t, a, rfl, ha, hl⟩
      have hpos := hnil u _ a ha
      rw [List.length_append] at hw
      rw [h.run u _ (by omega)] at ha
      exact ⟨u, b, t, a, rfl, ha, ((hf a).lives _ (by omega)).mp hl⟩
    · rintro ⟨u, b, t, a, rfl, ha, hl⟩
      rw [List.length_append] at hw
      rw [← h.run u _ (by omega)] at ha
      have hpos := hnil u _ a ha
      exact ⟨u, b, t, a, rfl, ha, ((hf a).lives _ (by omega)).mpr hl⟩

/-- Alternations with the same readings and the same lives. -/
theorem alt_of {ps qs : List (Parser Nt α)}
    (hrun : ∀ w i, w.length < n →
      (ps.findSome? fun p => p.run w i) = qs.findSome? fun q => q.run w i)
    (hlives : ∀ w, w.length < n → ((∃ p ∈ ps, p.Lives w) ↔ ∃ q ∈ qs, q.Lives w)) :
    Agree n (alt ps) (alt qs) := by
  constructor
  · intro w i hw
    rw [run_alt, run_alt, Reader.choice, Reader.choice, List.findSome?_map, List.findSome?_map]
    exact hrun w i hw
  · intro w hw
    cases w with
    | nil => exact iff_of_true (lives_nil _) (lives_nil _)
    | cons b w =>
      rw [lives_alt (List.cons_ne_nil b w), lives_alt (List.cons_ne_nil b w)]
      exact hlives _ hw

theorem alt {ps qs : List (Parser Nt α)} (h : List.Forall₂ (Agree n) ps qs) :
    Agree n (Parser.alt ps) (Parser.alt qs) := by
  apply alt_of
  · intro w i hw
    induction h with
    | nil => rfl
    | cons h _ ih => rw [List.findSome?_cons, List.findSome?_cons, h.run w i hw, ih]
  · intro w hw
    induction h with
    | nil => simp
    | cons h _ ih => simp only [List.exists_mem_cons_iff, h.lives w hw, ih]

/-- A branch that reads nothing and lives no longer than another may go. -/
theorem alt_drop {ps qs : List (Parser Nt α)} {o : Parser Nt α} (hrun : ∀ w i, o.run w i = none)
    (hlives : ∀ w, o.Lives w → ∃ p ∈ ps ++ qs, p.Lives w) :
    Agree n (Parser.alt (ps ++ o :: qs)) (Parser.alt (ps ++ qs)) := by
  apply alt_of
  · intro w i _
    rw [List.findSome?_append, List.findSome?_append, List.findSome?_cons, hrun]
  · intro w _
    constructor
    · rintro ⟨p, hp, hl⟩
      rcases List.mem_append.mp hp with hp | hp
      · exact ⟨p, List.mem_append_left _ hp, hl⟩
      · rcases List.mem_cons.mp hp with rfl | hp
        · exact hlives w hl
        · exact ⟨p, List.mem_append_right _ hp, hl⟩
    · rintro ⟨p, hp, hl⟩
      refine ⟨p, ?_, hl⟩
      simp only [List.mem_append, List.mem_cons] at hp ⊢
      tauto

theorem keepLeft {s t : Parser Nt Unit} (h : Agree n p q) (h' : Agree n s t) :
    Agree n (p.keepLeft s) (q.keepLeft t) := h.bind fun _ => h'.map _

theorem keepRight {s t : Parser Nt Unit} (h : Agree n s t) (h' : Agree n p q) :
    Agree n (s.keepRight p) (t.keepRight q) := h.bind fun _ => h'

/-- The right side of a sequence behind a token. -/
theorem keepRight_consuming {s : Parser Nt Unit} (hc : s.Consumes) (h : Agree n p q) :
    Agree (n + 1) (s.keepRight p) (s.keepRight q) := (refl s).bind_consuming hc fun _ => h

theorem lazy {m m' : Nt α} (h : Agree n (Productions.build m) (Productions.build m')) :
    Agree n (.lazy m) (.lazy m') := by
  constructor
  · intro w i hw
    rw [run_lazy, run_lazy]
    exact h.run w i hw
  · intro w hw
    rw [lives_lazy, lives_lazy]
    exact h.lives w hw

theorem mono {m : ℕ} (h : Agree n p q) (hm : m ≤ n) : Agree m p q :=
  ⟨fun w i hw => h.run w i (by omega), fun w hw => h.lives w (by omega)⟩

/-- What agrees on all words cannot be told apart. -/
theorem feedBytes (h : ∀ n, Agree n p q) (w : Str) :
    (p.feedBytes w).isSome = (q.feedBytes w).isSome :=
  Bool.eq_iff_iff.mpr ((h (w.length + 1)).lives w (Nat.lt_succ_self _))

end Agree

end Parser

end Eo9.Eosh

/-!
## The vocabulary does not matter

The vocabulary of a prompt only adds words to offer: the overlays read nothing,
and beside each of them a word parser lives on everything the overlay lives on.
So every production reads what it reads without a vocabulary, and lives as long.
-/

namespace Eo9.Eosh

open Eo9.Eosh.Parser

namespace Nt

/-- The context without a vocabulary. -/
def bare : Cx := ⟨[], [], fun _ => none, [], []⟩

/-- The production without a vocabulary. -/
def strip {α : Type} : Nt α → Nt α
  | .expr _ pos => .expr bare pos
  | .starArgs _ acc => .starArgs bare acc
  | .starArgsKnown _ _ acc => .starArgs bare acc
  | .ampRest _ acc => .ampRest bare acc
  | .wordListRest acc => .wordListRest acc
  | .withItemsRest _ acc => .withItemsRest bare acc
  | .moreExprs _ acc => .moreExprs bare acc

end Nt

namespace Grammar

open Nt (bare)

theorem allAscii_reserved : AllAscii reserved := by decide

theorem allAscii_cmdHeadExcluded : AllAscii cmdHeadExcluded := by decide

theorem consumes_litByte (b : Ascii) : (litByte b).Consumes := List.cons_ne_nil b []

/-- A branch that lives on every beginning of a word. -/
def LivesOnWords {α : Type} (p : P α) : Prop := ∀ w, WordPrefix true w → p.Lives w

theorem livesOnWords_capBareWord {excluded : List Str} (hex : AllAscii excluded) :
    LivesOnWords (capBareWord excluded) := fun _ h => (lives_capWord hex).mpr h

theorem livesOnWords_capFlagName : LivesOnWords capFlagName := fun _ h =>
  (lives_capWord allAscii_nil).mpr ⟨h.run, nofun, nofun⟩

theorem LivesOnWords.map {α β : Type} {p : P α} (h : LivesOnWords p) (f : α → β) :
    LivesOnWords (.map p f) := fun w hw => (lives_map p f w).mpr (h w hw)

theorem LivesOnWords.bind {α β : Type} {p : P α} (h : LivesOnWords p) (f : α → P β) :
    LivesOnWords (.bind p f) := fun w hw => (lives_bind p f w).mpr (Or.inl (h w hw))

/-- Beside a word parser an overlay makes no difference. -/
theorem agree_overlay {α : Type} {n : ℕ} (ps qs : List (P α)) (vocab : List HintEntry)
    (h : ∃ p ∈ ps ++ qs, LivesOnWords p) :
    Agree n (.alt (ps ++ overlayWords vocab :: qs)) (.alt (ps ++ qs)) := by
  obtain ⟨p, hp, hwords⟩ := h
  apply Agree.alt_drop
  · exact fun w i => run_overlay
  · intro w hl
    refine ⟨p, hp, hwords w ?_⟩
    rcases lives_overlay.mp hl with rfl | ⟨entry, -, hpre⟩
    · exact wordPrefix_nil true
    · exact entry.wordPrefix hpre

section Step

/-! ## One production

The references of a production agree with the stripped ones on the words shorter
than `n`; then so do the productions on the words shorter than `n + 1`. -/

variable {n : ℕ} (href : ∀ {α : Type} (m : Nt α), Agree n (.lazy m : P α) (.lazy m.strip))

include href

theorem agree_exprL (cx : Cx) (pos : Pos) : Agree n (exprL cx pos) (exprL bare pos) :=
  href (.expr cx pos)

theorem agree_parenExpr (cx : Cx) : Agree (n + 1) (parenExpr cx) (parenExpr bare) :=
  (Agree.keepRight_consuming (consumes_litByte openParen) (agree_exprL href cx .normal)).keepLeft
    (.refl _)

theorem agree_capPrimary (cx : Cx) (pos : Pos) :
    Agree (n + 1) (capPrimary cx pos) (capPrimary bare pos) := by
  have halt : ∀ (excluded : List Str) (vocab vocab' : List HintEntry), AllAscii excluded →
      Agree (n + 1)
        (.alt [.map (capBareWord excluded) fun word => (some word, .name word),
          overlayWords vocab, .map capCompound fun raw => (none, .name raw),
          .map (parenExpr cx) fun expr => (none, expr)] : P (Option Str × Expr))
        (.alt [.map (capBareWord excluded) fun word => (some word, .name word),
          overlayWords vocab', .map capCompound fun raw => (none, .name raw),
          .map (parenExpr bare) fun expr => (none, expr)]) := by
    intro excluded vocab vocab' hex
    have hdrop : ∀ cx vocab, Agree (n + 1)
        (.alt ([.map (capBareWord excluded) fun word => (some word, .name word)] ++
          overlayWords vocab :: [.map capCompound fun raw => (none, .name raw),
            .map (parenExpr cx) fun expr => (none, expr)]) : P (Option Str × Expr))
        (.alt [.map (capBareWord excluded) fun word => (some word, .name word),
          .map capCompound fun raw => (none, .name raw),
          .map (parenExpr cx) fun expr => (none, expr)]) := fun cx vocab =>
      agree_overlay [_] _ vocab ⟨_, List.mem_cons_self, (livesOnWords_capBareWord hex).map _⟩
    refine (hdrop cx vocab).trans (.trans (.alt ?_) (hdrop bare vocab').symm)
    exact .cons (.refl _) (.cons (.refl _) (.cons ((agree_parenExpr href cx).map _) .nil))
  cases pos with
  | head => exact .keepRight (.refl _) (halt _ _ _ allAscii_cmdHeadExcluded)
  | normal => exact .keepRight (.refl _) (halt _ _ _ allAscii_reserved)

theorem agree_valueHinted (cx : Cx) (hints : Option (List HintEntry)) :
    Agree (n + 1) (valueHinted cx hints) (value bare) := by
  have hforms : Agree (n + 1)
      (.alt [.map (capBareWord reserved) .word, .map capCompound .word, .map capQuoted .quoted,
        .map (parenExpr cx) .expr] : P ArgValue)
      (.alt [.map (capBareWord reserved) .word, .map capCompound .word, .map capQuoted .quoted,
        .map (parenExpr bare) .expr]) :=
    .alt (.cons (.refl _) (.cons (.refl _) (.cons (.refl _)
      (.cons ((agree_parenExpr href cx).map _) .nil))))
  apply Agree.keepRight (.refl _)
  cases hints with
  | none => exact hforms
  | some vocab =>
    refine .trans (agree_overlay _ [] vocab ?_) (.trans (.alt ?_) hforms)
    · exact ⟨_, List.mem_cons_self,
        (livesOnWords_capBareWord allAscii_reserved).map _⟩
    · simp only [List.append_nil]
      exact List.forall₂_same.mpr fun p _ => .refl p

theorem agree_positionals (cx : Cx) :
    List.Forall₂ (Agree (n + 1)) (positionals cx) (positionals bare) :=
  .cons (.refl _) (.cons (.refl _) (.cons (.refl _)
    (.cons ((agree_parenExpr href cx).map _) .nil)))

theorem agree_arg (cx : Cx) : Agree (n + 1) (arg cx) (arg bare) :=
  .keepRight (.refl _) (.alt (.cons
    (.keepRight (.refl _) (.bind (.refl _) fun _ =>
      (agree_valueHinted href cx none).map _))
    (agree_positionals href cx)))

theorem agree_argKnown (cx : Cx) (program : ProgramSlots) :
    Agree (n + 1) (argKnown cx program) (arg bare) := by
  have hflag : Agree (n + 1) (.alt [capFlagName, overlayWords program.flags]) capFlagName :=
    agree_overlay [capFlagName] [] program.flags
      ⟨_, List.mem_cons_self, livesOnWords_capFlagName⟩
  exact .keepRight (.refl _) (.alt (.cons
    (.keepRight (.refl _) (.bind hflag fun name =>
      (agree_valueHinted href cx (program.values name)).map _))
    (agree_positionals href cx)))

theorem agree_starArgs (cx : Cx) (acc : List Arg) :
    Agree (n + 1) (starArgsFrom cx acc) (starArgsFrom bare acc) :=
  .alt (.cons (.refl _) (.cons
    ((agree_arg href cx).bind_consuming consumes_args fun value =>
      href (.starArgs cx (acc ++ [value]))) .nil))

theorem agree_starArgsKnown (cx : Cx) (program : ProgramSlots) (acc : List Arg) :
    Agree (n + 1) (starArgsKnownFrom cx program acc) (starArgsFrom bare acc) :=
  .alt (.cons (.refl _) (.cons
    ((agree_argKnown href cx program).bind_consuming consumes_args fun value =>
      href (.starArgsKnown cx program (acc ++ [value]))) .nil))

theorem agree_starArgsFor (cx : Cx) (name : Str) :
    Agree (n + 1) (starArgsFor cx name) (starArgsFor bare name) := by
  rw [starArgsFor]
  cases cx.programs name with
  | none => exact agree_starArgs href cx []
  | some program => exact agree_starArgsKnown href cx program []

theorem agree_appFrom {p q : P (Option Str × Expr)} (h : Agree (n + 1) p q) (cx : Cx) :
    Agree (n + 1) (appFrom p cx) (appFrom q bare) := by
  apply h.bind
  rintro ⟨name, callee⟩
  cases name with
  | none => exact (agree_starArgs href cx []).map _
  | some name => exact (agree_starArgsFor href cx name).map _

theorem agree_app (cx : Cx) (pos : Pos) : Agree (n + 1) (app cx pos) (app bare pos) :=
  agree_appFrom href (agree_capPrimary href cx pos) cx

theorem agree_ampRest (cx : Cx) (acc : Expr) : Agree (n + 1) (ampRest cx acc) (ampRest bare acc) :=
  .alt (.cons (.refl _) (.cons
    (Agree.bind_consuming (.keepRight (.refl _) (agree_app href cx .normal))
      (Or.inl (consumes_tByte _)) fun layer => href (.ampRest cx (.extend acc layer))) .nil))

theorem agree_amp (cx : Cx) (pos : Pos) : Agree (n + 1) (amp cx pos) (amp bare pos) :=
  (agree_app href cx pos).bind fun first => agree_ampRest href cx first

theorem agree_gateBody (cx : Cx) : Agree (n + 1) (gateBody cx) (gateBody bare) :=
  .keepRight_consuming (consumes_tByte _) (agree_exprL href cx .normal)

theorem agree_providerNoParen (cx : Cx) :
    Agree (n + 1) (providerNoParen cx) (providerNoParen bare) := by
  have hhead : ∀ vocab, Agree (n + 1)
      (.alt [.map (capBareWord reserved) fun word => (some word, .name word),
        overlayWords vocab, .map capCompound fun raw => (none, .name raw)] :
        P (Option Str × Expr))
      (.alt [.map (capBareWord reserved) fun word => (some word, .name word),
        .map capCompound fun raw => (none, .name raw)]) :=
    fun vocab => agree_overlay [_] [_] vocab
      ⟨_, List.mem_cons_self, (livesOnWords_capBareWord allAscii_reserved).map _⟩
  exact .bind (agree_appFrom href (.keepRight (.refl _) ((hhead _).trans (hhead _).symm)) cx)
    fun first => agree_ampRest href cx first

theorem agree_moreExprs (cx : Cx) (acc : List Expr) :
    Agree (n + 1) (moreExprsAcc cx acc) (moreExprsAcc bare acc) :=
  Agree.bind_consuming (.keepRight_consuming (consumes_tByte _) (agree_exprL href cx .normal))
    (Or.inl (consumes_tByte _)) fun extra =>
      .alt (.cons (.refl _) (.cons (href (.moreExprs cx (acc ++ [extra]))) .nil))

theorem agree_withItem (cx : Cx) : Agree (n + 1) (withItem cx) (withItem bare) := by
  refine .alt (.cons (.keepRight_consuming (consumes_tByte _) (.bind (agree_exprL href cx .normal)
    fun first => .alt (.cons (.refl _) (.cons
      (.bind ?_ fun rest => .refl _) .nil)))) (.cons ?_ .nil))
  · exact (agree_moreExprs href cx []).mono (Nat.le_succ n)
  · exact (agree_providerNoParen href cx).bind fun provider => .refl _

theorem agree_withItemsRest (cx : Cx) (acc : List WithBinding) :
    Agree (n + 1) (withItemsRest cx acc) (withItemsRest bare acc) :=
  .alt (.cons (.refl _) (.cons
    (Agree.bind_consuming (.keepRight (.refl _) (agree_withItem href cx))
      (Or.inl (consumes_tByte _)) fun more => href (.withItemsRest cx (acc ++ more))) .nil))

theorem agree_expr (cx : Cx) (pos : Pos) : Agree (n + 1) (expr cx pos) (expr bare pos) := by
  have hbody := agree_gateBody href cx
  have honly : Agree (n + 1) (gateOnly cx) (gateOnly bare) :=
    .keepRight (.refl _) (.bind (.refl _) fun allow => hbody.map _)
  have hrename : Agree (n + 1) (gateRename cx) (gateRename bare) :=
    .keepRight (.refl _) (.bind (.refl _) fun source =>
      .bind (.refl _) fun target => hbody.map _)
  have hwith : Agree (n + 1) (gateWith cx) (gateWith bare) :=
    .keepRight (.refl _) (.bind ((agree_withItem href cx).bind fun first =>
      agree_withItemsRest href cx first) fun bindings => hbody.map _)
  refine .alt (.cons honly (.cons hrename (.cons hwith (.cons ?_ .nil))))
  exact (agree_amp href cx pos).bind fun left => .alt (.cons (.refl _) (.cons
    (.map (.keepRight_consuming (consumes_tByte _) (agree_exprL href cx .normal)) _) .nil))

theorem agree_production {α : Type} (m : Nt α) :
    Agree (n + 1) (production m) (production m.strip) := by
  cases m with
  | expr cx pos => exact agree_expr href cx pos
  | starArgs cx acc => exact agree_starArgs href cx acc
  | starArgsKnown cx program acc => exact agree_starArgsKnown href cx program acc
  | ampRest cx acc => exact agree_ampRest href cx acc
  | wordListRest acc => exact .refl _
  | withItemsRest cx acc => exact agree_withItemsRest href cx acc
  | moreExprs cx acc => exact agree_moreExprs href cx acc

end Step

/-- No production depends on the vocabulary. -/
theorem agree_strip (n : ℕ) : ∀ {α : Type} (m : Nt α),
    Agree n (production m) (production m.strip) := by
  induction n with
  | zero => exact fun m => .zero
  | succ n ih => exact fun m => agree_production (fun m => .lazy (ih m)) m

theorem agree_lazy (n : ℕ) {α : Type} (m : Nt α) : Agree n (.lazy m : P α) (.lazy m.strip) :=
  .lazy (agree_strip n m)

/-- Commands do not depend on the vocabulary. -/
theorem agree_command (n : ℕ) (cx : Cx) : Agree n (command cx) (command bare) := by
  have hexpr := agree_exprL (agree_lazy n) cx .normal
  have hname : ∀ (word : String) (build : Str → Expr → Command),
      Agree n (nameEqExpr cx word build) (nameEqExpr bare word build) := fun word build =>
    .keepRight (.refl _) (.bind (.refl _) fun name => .map (.keepRight (.refl _) hexpr) _)
  have hdetach : Agree n (detach cx) (detach bare) :=
    .keepRight (.refl _) (.bind (.refl _) fun name => .keepRight (.refl _)
      (.bind hexpr fun program => .map (.keepRight (.refl _) hexpr) _))
  have hcard : ∀ cards, Agree n
      (.alt [.bind (capBareWord []) cardRoute, overlayWords cards] : P Command)
      (.alt [.bind (capBareWord []) cardRoute]) := fun cards =>
    agree_overlay [_] [] cards
      ⟨_, List.mem_cons_self, (livesOnWords_capBareWord allAscii_nil).bind cardRoute⟩
  have hdescribe : Agree n (describe cx) (describe bare) :=
    .keepRight (.refl _) (.alt (.cons (.refl _) (.cons (.refl _) (.cons
      (.keepRight (.refl _) ((hcard _).trans (hcard _).symm)) (.cons (hexpr.map _) .nil)))))
  have hwords : ∀ vocab, Agree n
      (.alt ([.map (litByte dollar) fun _ => .man (ascii "$"),
        .map (litByte ampersand) fun _ => .man (ascii "&"),
        .map (capBareWord []) .man, .map capCompound .man] ++ [overlayWords vocab]) : P Command)
      (.alt ([.map (litByte dollar) fun _ => .man (ascii "$"),
        .map (litByte ampersand) fun _ => .man (ascii "&"),
        .map (capBareWord []) .man, .map capCompound .man] ++ [])) := fun vocab =>
    agree_overlay _ [] vocab ⟨_, by simp only [List.append_nil]; exact .tail _ (.tail _ (.head _)),
      (livesOnWords_capBareWord allAscii_nil).map _⟩
  have hman : Agree n (man cx) (man bare) :=
    .keepRight (.refl _) (.keepRight (.refl _) ((hwords _).trans (hwords _).symm))
  have hrun : Agree n (expr cx .head) (expr bare .head) :=
    agree_strip n (.expr cx .head)
  refine .alt (.cons (hname _ _) (.cons (hname _ _) (.cons hdetach (.cons (.refl _) (.cons
    (.refl _) (.cons (.refl _) (.cons (.refl _) (.cons (.refl _) (.cons (.refl _) (.cons ?_
    (.cons hdescribe (.cons hman (.cons ?_ (.cons ?_ (.cons (.refl _) .nil)))))))))))))))
  · exact .keepRight (.refl _) (.alt (.cons (.refl _) (.cons (hexpr.map _) .nil)))
  · exact .map (.keepRight (.refl _) hexpr) _
  · exact hrun.map _

end Grammar

/-- Whole lines do not depend on the vocabulary. -/
theorem agree_commandLine [ApiDocs] (n : ℕ) (v₁ v₂ : Vocab) :
    Agree n (commandLine v₁) (commandLine v₂) := by
  have hcommand := fun v => Grammar.agree_command n (buildCx v)
  exact .keepLeft ((hcommand v₁).trans (hcommand v₂).symm) (.refl _)

/-- For every line and any two vocabularies: each byte keeps both parsers alive or
neither, and at the end of the line, or of any part of it, both accept the same
command or neither accepts. -/
theorem vocabulary_irrelevant [ApiDocs] (v₁ v₂ : Vocab) (line : Str) (k : ℕ) :
    ((commandLine v₁).feedBytes (line.take k)).isSome =
        ((commandLine v₂).feedBytes (line.take k)).isSome ∧
      ((commandLine v₁).feedBytes (line.take k)).bind finish =
        ((commandLine v₂).feedBytes (line.take k)).bind finish := by
  constructor
  · exact Agree.feedBytes (fun n => agree_commandLine n v₁ v₂) _
  · exact (agree_commandLine _ v₁ v₂).run _ .eof (Nat.lt_succ_self _)

end Eo9.Eosh
