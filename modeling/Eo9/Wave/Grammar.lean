import Eo9.Wave.RoundTrip

/-!
# What is read is written in WAVE

The part of the WAVE grammar (`vendor/wasm-wave`) that the kernel reads, without comments,
multi-line strings and Unicode escapes, and the texts that the kernel reads only as it says.
-/

namespace Eo9.Wave

open Eo9.Library Eo9.Store

variable {F : Type} [Floats F] {ty : Ty} {t inner : Text}

/-- What the lexer skips. -/
def isBlank (c : Char) : Bool := c = ' ' || c = '\t' || c = '\n' || c = '\r'

/-- A token, or more of them, with blanks around. -/
def Padded (core t : Text) : Prop :=
  ∃ lead trail, t = lead ++ core ++ trail ∧ (∀ c ∈ lead, isBlank c = true) ∧
    ∀ c ∈ trail, isBlank c = true

def keywords : List Text :=
  [text "true", text "false", text "some", text "none", text "ok", text "err", text "inf", text "nan"]

/-- A number token and its value: digits without a zero in front, behind a dash or not. -/
def Numeral (t : Text) (n : Int) : Prop :=
  ∃ digits, digits ≠ [] ∧ (∀ c ∈ digits, c.isDigit = true) ∧
    (digits.head? = some '0' → digits = ['0']) ∧
      ((t = digits ∧ n = Nat.ofDigitChars 10 digits 0) ∨
        (t = '-' :: digits ∧ n = -(Nat.ofDigitChars 10 digits 0 : Int)))

/-- A type whose values may stand for `some(…)`. -/
def Ty.Flat : Ty → Prop
  | .option _ => False
  | _ => True

/-- The text denotes the value of the type. -/
def Denotes : (ty : Ty) → Text → ty.Val F → Prop
  | .bool, t, (b : Bool) => Padded (text (if b then "true" else "false")) t
  | .int _, t, n => ∃ core, Padded core t ∧ Numeral core n.1
  | .float _, _, _ => False
  | .char, t, (c : Char) => ∃ inner, Padded ('\'' :: inner ++ ['\'']) t ∧
      Spells (fun c => c ≠ '\'' ∧ c ≠ '\n') inner [c]
  | .string, t, (s : Text) => ∃ inner, Padded ('"' :: inner ++ ['"']) t ∧
      Spells (fun c => c ≠ '"' ∧ c ≠ '\n') inner s
  | .enum _, t, name => Padded name.1.1 t ∧ name.1.1 ∉ keywords
  | .option _, t, none => Padded (text "none") t
  | .option ty, t, some v =>
    (∃ inner, Padded (text "some(" ++ inner ++ [')']) t ∧ Denotes ty inner v) ∨
      (ty.Flat ∧ Denotes ty t v)
  | .list ty, t, (items : List (ty.Val F)) => ∃ inner, Padded ('[' :: inner ++ [']']) t ∧
      ((items = [] ∧ Padded [] inner) ∨ ∃ pieces, inner = [','].intercalate pieces ∧
        List.Forall₂ (fun t v => Denotes ty t v) pieces items)
  | .other _, _, _ => False

/-- `trim` takes off no more than the lexer skips. -/
def Neat.Blanks (t : Text) : Prop := trim isWhitespace t = trim isBlank t

/-- Behind the backslashes, no such quote and no line break. -/
def Neat.Quoted (quote : Char) : Text → Prop
  | [] => True
  | [c] => c = '\\' ∨ (c ≠ quote ∧ c ≠ '\n')
  | c :: d :: t =>
    if c = '\\' then Neat.Quoted quote t
    else c ≠ quote ∧ c ≠ '\n' ∧ Neat.Quoted quote (d :: t)

/-- A number without a plus sign and without a zero in front. -/
def Neat.Number (t : Text) : Prop :=
  t.head? ≠ some '+' ∧ ∀ digits, (t = digits ∨ t = '-' :: digits) →
    digits.head? = some '0' → digits = ['0']

/-- A text that says what it is: only blanks of the lexer around the tokens, no plus sign, no zero
in front of a number, characters in their quotes and quotes in a literal escaped, no keyword for a
case, and `some` spelled out around an option. -/
def Neat : Ty → Text → Prop
  | .bool, t => Neat.Blanks t
  | .int _, t => Neat.Blanks t ∧ Neat.Number (trim isWhitespace t)
  | .float _, _ => False
  | .char, t => Neat.Blanks t ∧ ∃ inner, trim isWhitespace t = '\'' :: inner ++ ['\''] ∧
      Neat.Quoted '\'' inner
  | .string, t => Neat.Blanks t ∧ ∀ inner, trim isWhitespace t = '"' :: inner ++ ['"'] →
      Neat.Quoted '"' inner
  | .enum _, t => Neat.Blanks t ∧ trim isWhitespace t ∉ keywords
  | .option ty, t => Neat.Blanks t ∧
      (trim isWhitespace t = text "none" ∨
        (∃ inner, trim isWhitespace t = text "some(" ++ inner ++ [')'] ∧ Neat ty inner) ∨
        (between (text "some(") ')' (trim isWhitespace t) = none ∧ ty.Flat ∧ Neat ty t))
  | .list ty, t => Neat.Blanks t ∧ ∀ inner, trim isWhitespace t = '[' :: inner ++ [']'] →
      (splitTopLevel inner = .ok [] → Neat.Blanks inner) ∧ ∀ raws, inner = [','].intercalate raws →
        splitTopLevel inner = .ok (raws.map (trim isWhitespace)) → ∀ raw ∈ raws, Neat ty raw
  | .other _, _ => False

theorem padded_trim (h : Neat.Blanks t) : Padded (trim isWhitespace t) t := by
  obtain ⟨lead, trail, ht, hlead, htrail, -⟩ := trim_spec isBlank t
  rw [h]
  exact ⟨lead, trail, ht, hlead, htrail⟩

theorem Spells.neat {quote : Char} {s : Text} (h : Spells (fun _ => True) t s)
    (hneat : Neat.Quoted quote t) : Spells (fun c => c ≠ quote ∧ c ≠ '\n') t s := by
  induction h with
  | nil => exact .nil
  | @plain c t s hc _ _ ih =>
    cases t with
    | nil =>
      obtain hback | hplain := hneat
      · exact absurd hback hc
      · exact .plain hc hplain (ih trivial)
    | cons d t =>
      rw [Neat.Quoted, if_neg hc] at hneat
      exact .plain hc ⟨hneat.1, hneat.2.1⟩ (ih hneat.2.2)
  | @escaped e d t s he _ ih =>
    rw [Neat.Quoted, if_pos rfl] at hneat
    exact .escaped he (ih hneat)

theorem numeral_of_int {k : IntTy} {n : k.Val} (h : int k t = .ok n) (hneat : Neat.Number t) :
    Numeral t n.1 := by
  obtain ⟨digits, hne, hdigits, ⟨rfl | rfl, hvalue⟩ | ⟨rfl, hvalue⟩⟩ := of_int h
  · exact ⟨t, hne, hdigits, hneat.2 t (.inl rfl), .inl ⟨rfl, hvalue⟩⟩
  · exact absurd rfl hneat.1
  · exact ⟨digits, hne, hdigits, hneat.2 digits (.inr rfl), .inr ⟨rfl, hvalue⟩⟩

theorem trim_trim (t : Text) : trim isWhitespace (trim isWhitespace t) = trim isWhitespace t := by
  obtain ⟨-, -, -, -, -, hbare⟩ := trim_spec isWhitespace t
  exact trim_eq_self_iff.mpr hbare

theorem parse_trim (t : Text) : parse (F := F) ty (trim isWhitespace t) = parse ty t := by
  cases ty with
  | other name => rfl
  | _ => rw [parse, parse, trim_trim]

theorem forall₂_parse_trim {raws : List Text} {items : List (ty.Val F)} :
    List.Forall₂ (fun t v => parse ty t = .ok v) (raws.map (trim isWhitespace)) items ↔
      List.Forall₂ (fun t v => parse ty t = .ok v) raws items := by
  simp only [List.forall₂_map_left_iff, parse_trim]

/-- The pieces are the text between the commas, trimmed. -/
theorem raws_of_splitLoop {s : Scan} {current : Text} {items pieces : List Text}
    (h : splitLoop s current items t = .ok pieces) :
    (items = [] ∧ pieces = [] ∧ trim isWhitespace (current ++ t) = []) ∨
      ∃ raws, raws ≠ [] ∧ current ++ t = [','].intercalate raws ∧
        pieces = items ++ raws.map (trim isWhitespace) := by
  induction t generalizing s current items with
  | nil =>
    rw [splitLoop] at h
    rw [List.append_nil]
    split_ifs at h with _ _ hlast hnil
    · cases h
      exact .inr ⟨[current], List.cons_ne_nil _ _, by rw [List.intercalate_singleton], rfl⟩
    · cases h
      exact .inl ⟨not_not.mp hnil, not_not.mp hnil, not_not.mp hlast⟩
  | cons c t ih =>
    rw [splitLoop] at h
    split at h
    · next hsep =>
      obtain rfl : c = ',' := by
        simp only [Scan.separates, Bool.and_eq_true, beq_iff_eq] at hsep
        exact hsep.1.1
      rcases ih h with ⟨hnil, -⟩ | ⟨raws, hne, htext, rfl⟩
      · exact absurd hnil (by simp)
      · refine .inr ⟨current :: raws, List.cons_ne_nil _ _, ?_, by simp⟩
        rw [List.intercalate_cons_of_ne_nil hne, ← htext]
        simp
    · split at h
      · cases h
      · have happend : current ++ [c] ++ t = current ++ c :: t := by simp
        rcases ih h with hblank | hraws
        · rw [happend] at hblank
          exact .inl hblank
        · rw [happend] at hraws
          exact .inr hraws

theorem denotes_items {raws : List Text} {items : List (ty.Val F)}
    (ih : ∀ {t : Text} {v : ty.Val F}, parse ty t = .ok v → Neat ty t → Denotes ty t v)
    (hread : List.Forall₂ (fun t v => parse ty t = .ok v) raws items)
    (hneat : ∀ raw ∈ raws, Neat ty raw) : List.Forall₂ (fun t v => Denotes ty t v) raws items := by
  induction hread with
  | nil => exact .nil
  | cons hv _ ihrest =>
    obtain ⟨hraw, hraws⟩ := List.forall_mem_cons.mp hneat
    exact .cons (ih hv hraw) (ihrest hraws)

/-- What is read from a neat text, the text denotes. -/
theorem denotes_of_parse {v : ty.Val F} (h : parse ty t = .ok v) (hneat : Neat ty t) :
    Denotes ty t v := by
  induction ty generalizing t with
  | bool =>
    rw [parse] at h
    split_ifs at h with htrue hfalse
    · cases h
      have hpadded := padded_trim hneat
      rwa [htrue] at hpadded
    · cases h
      have hpadded := padded_trim hneat
      rwa [hfalse] at hpadded
  | int k => exact ⟨_, padded_trim hneat.1, numeral_of_int h hneat.2⟩
  | float => exact hneat.elim
  | char =>
    obtain ⟨hblanks, inner, ht, hquoted⟩ := hneat
    have hspelled := of_parseChar h
    rw [between_eq_some_iff.mpr ht, Option.getD_some] at hspelled
    exact ⟨inner, ht ▸ padded_trim hblanks, (spells_of_unescape hspelled).neat hquoted⟩
  | string =>
    obtain ⟨inner, ht, hspelled⟩ := of_parseString h
    exact ⟨inner, ht ▸ padded_trim hneat.1, (spells_of_unescape hspelled).neat (hneat.2 inner ht)⟩
  | enum cases =>
    have hname := of_parseEnum h
    obtain ⟨hblanks, hword⟩ := hneat
    rw [hname] at hword
    exact ⟨hname ▸ padded_trim hblanks, hword⟩
  | option ty ih =>
    obtain ⟨hblanks, hneat⟩ := hneat
    rcases of_parse_option h with ⟨hnone, rfl⟩ | ⟨hsome, w, rfl, hw⟩
    · have hpadded := padded_trim hblanks
      rwa [hnone] at hpadded
    · rcases hw with ⟨inner, ht, hw⟩ | ⟨hbare, hw⟩
      · have hbetween := between_eq_some_iff.mpr ht
        rcases hneat with hnone | ⟨inner', ht', hinner⟩ | ⟨hbare, -⟩
        · exact absurd hnone hsome
        · obtain rfl := Option.some.inj (hbetween.symm.trans (between_eq_some_iff.mpr ht'))
          exact .inl ⟨inner, ht ▸ padded_trim hblanks, ih hw hinner⟩
        · rw [hbetween] at hbare
          cases hbare
      · rcases hneat with hnone | ⟨inner, ht, -⟩ | ⟨-, hflat, hneat⟩
        · exact absurd hnone hsome
        · rw [between_eq_some_iff.mpr ht] at hbare
          cases hbare
        · rw [parse_trim] at hw
          exact .inr ⟨hflat, ih hw hneat⟩
  | list ty ih =>
    obtain ⟨inner, pieces, ht, hsplit, hread⟩ := parse_list_eq_ok_iff.mp h
    obtain ⟨hinner, hraws⟩ := hneat.2 inner ht
    refine ⟨inner, ht ▸ padded_trim hneat.1, ?_⟩
    rcases raws_of_splitLoop hsplit with ⟨-, rfl, hblank⟩ | ⟨raws, -, htext, rfl⟩
    · left
      obtain rfl := List.forall₂_nil_left_iff.mp hread
      refine ⟨rfl, ?_⟩
      have hpadded := padded_trim (hinner hsplit)
      rw [List.nil_append] at hblank
      rwa [hblank] at hpadded
    · right
      replace hread := forall₂_parse_trim.mp hread
      exact ⟨raws, htext, denotes_items ih hread (hraws raws htext hsplit)⟩
  | other => exact v.elim

theorem isWhitespace_of_isBlank {c : Char} (h : isBlank c = true) : isWhitespace c = true := by
  simp only [isBlank, Bool.or_eq_true, decide_eq_true_eq] at h
  rcases h with ((rfl | rfl) | rfl) | rfl <;> rfl

theorem trim_of_padded {core : Text} (h : Padded core t) (hbare : Bare isWhitespace core) :
    trim isWhitespace t = core ∧ Neat.Blanks t := by
  obtain ⟨lead, trail, rfl, hlead, htrail⟩ := h
  have hblank : Bare isBlank core :=
    ⟨fun c hc hblank => hbare.1 c hc (isWhitespace_of_isBlank hblank),
      fun c hc hblank => hbare.2 c hc (isWhitespace_of_isBlank hblank)⟩
  have htrim := trim_append (fun c hc => isWhitespace_of_isBlank (hlead c hc))
    (fun c hc => isWhitespace_of_isBlank (htrail c hc)) hbare
  exact ⟨htrim, htrim.trans (trim_append hlead htrail hblank).symm⟩

theorem Padded.commas_eq {core : Text} (h : Padded core t) : commas t = commas core := by
  obtain ⟨lead, trail, rfl, hlead, htrail⟩ := h
  rw [commas_append, commas_append,
    commas_of_blank fun c hc => isWhitespace_of_isBlank (hlead c hc),
    commas_of_blank fun c hc => isWhitespace_of_isBlank (htrail c hc)]
  omega

theorem Numeral.labels {n : Int} (h : Numeral t n) : ∀ c ∈ t, c.isAlphanum = true ∨ c = '-' := by
  obtain ⟨digits, -, hdigits, -, ⟨rfl, -⟩ | ⟨rfl, -⟩⟩ := h
  · exact fun c hc => .inl (by rw [Char.isAlphanum, hdigits c hc, Bool.or_true])
  · refine List.forall_mem_cons.mpr ⟨.inr rfl, fun c hc => .inl ?_⟩
    rw [Char.isAlphanum, hdigits c hc, Bool.or_true]

theorem Numeral.neat {n : Int} (h : Numeral t n) : Neat.Number t := by
  obtain ⟨digits, -, hdigits, hzero, ⟨rfl, -⟩ | ⟨rfl, -⟩⟩ := h
  all_goals
    refine ⟨fun hplus => ?_, ?_⟩
  · cases hdigits '+' (List.mem_of_mem_head? hplus)
  · rintro digits' (rfl | rfl)
    · exact hzero
    · cases hdigits '-' List.mem_cons_self
  · cases hplus
  · rintro digits' (rfl | heq)
    · nofun
    · exact (List.cons.inj heq).2 ▸ hzero

theorem Spells.quoted {quote : Char} {s : Text} (h : Spells (fun c => c ≠ quote ∧ c ≠ '\n') t s) :
    Neat.Quoted quote t := by
  induction h with
  | nil => trivial
  | @plain c t s hc hp _ ih =>
    cases t with
    | nil => exact .inr hp
    | cons d t =>
      rw [Neat.Quoted, if_neg hc]
      exact ⟨hp.1, hp.2, ih⟩
  | escaped _ _ ih =>
    rw [Neat.Quoted, if_pos rfl]
    exact ih

theorem Neat.blanks (h : Neat ty t) : Neat.Blanks t := by
  cases ty with
  | bool => exact h
  | float => exact h.elim
  | other => exact h.elim
  | _ => exact h.1

/-- Pieces with so many commas each are joined to one text only. -/
theorem join_unique {ps rs : List Text} (h : [','].intercalate ps = [','].intercalate rs)
    (hcounts : ps.map commas = rs.map commas) : ps = rs := by
  induction ps generalizing rs with
  | nil => exact (List.map_eq_nil_iff.mp hcounts.symm).symm
  | cons p ps ih =>
    cases rs with
    | nil => cases hcounts
    | cons r rs =>
      obtain ⟨hhead, htail⟩ := List.cons_eq_cons.mp hcounts
      cases ps with
      | nil =>
        obtain rfl := List.map_eq_nil_iff.mp htail.symm
        rw [List.intercalate_singleton, List.intercalate_singleton] at h
        rw [h]
      | cons q ps =>
        cases rs with
        | nil => cases htail
        | cons s rs =>
          rw [List.intercalate_cons_cons, List.intercalate_cons_cons, List.append_assoc,
            List.append_assoc] at h
          obtain ⟨rfl, hrest⟩ := cut_unique h hhead
          rw [ih hrest htail]

/-- A text has the commas of the value it denotes. -/
theorem commas_denotes {v : ty.Val F} (h : Denotes ty t v) : commas t = commas (render ty v) := by
  induction ty generalizing t with
  | bool =>
    rw [Padded.commas_eq h]
    cases v <;> rfl
  | int k =>
    obtain ⟨core, hcore, hnumeral⟩ := h
    rw [hcore.commas_eq, commas_of_labels hnumeral.labels]
    exact (commas_of_labels fun c => label_intText).symm
  | float => exact h.elim
  | char =>
    obtain ⟨inner, hinner, hspells⟩ := h
    rw [hinner.commas_eq, commas_wrap (by decide) (by decide), hspells.commas_eq]
    exact ((commas_wrap (by decide) (by decide) _).trans (commas_escape (.inr rfl) v)).symm
  | string =>
    obtain ⟨inner, hinner, hspells⟩ := h
    rw [hinner.commas_eq, commas_wrap (by decide) (by decide), hspells.commas_eq]
    exact ((commas_wrap (by decide) (by decide) _).trans (commas_flatMap_escape v)).symm
  | enum cases => exact Padded.commas_eq h.1
  | option ty ih =>
    cases v with
    | none => exact Padded.commas_eq h
    | some v =>
      have hsome : commas (render (.option ty) (some v)) = commas (render ty v) := commas_some _
      rw [hsome]
      rcases h with ⟨inner, hinner, h⟩ | ⟨-, h⟩
      · rw [hinner.commas_eq, commas_some, ih h]
      · exact ih h
  | list ty ih =>
    obtain ⟨inner, hinner, hitems⟩ := h
    have hlist : commas (render (.list ty) v) = commas ((text ", ").intercalate (v.map (render ty))) :=
      commas_wrap (by decide) (by decide) _
    rw [hinner.commas_eq, commas_wrap (by decide) (by decide), hlist,
      commas_intercalate rfl]
    rcases hitems with ⟨rfl, hblank⟩ | ⟨pieces, rfl, hitems⟩
    · exact hblank.commas_eq
    · have hlength := hitems.length_eq.trans (List.length_map (render ty)).symm
      rw [commas_intercalate rfl, counts_of_forall₂ (fun _ _ hp => ih hp) hitems, hlength]
  | other => exact v.elim

/-- Without `some`, an option of another type does not look as if it were with it. -/
theorem Denotes.bare {v : ty.Val F} (h : Denotes ty t v) (hflat : ty.Flat) :
    trim isWhitespace t ≠ text "some(" ++ inner ++ [')'] := by
  have hparen : '(' ∈ text "some(" ++ inner ++ [')'] := by simp [text]
  have hlabels : ∀ t : Text, (∀ c ∈ t, c.isAlphanum = true ∨ c = '-') →
      t ≠ text "some(" ++ inner ++ [')'] := by
    rintro _ hlabels rfl
    rcases hlabels _ hparen with h | h <;> cases h
  cases ty with
  | bool =>
    cases v with
    | true =>
      rw [(trim_of_padded h (bare_of_labels (labels_of_all rfl))).1]
      nofun
    | false =>
      rw [(trim_of_padded h (bare_of_labels (labels_of_all rfl))).1]
      nofun
  | int k =>
    obtain ⟨core, hcore, hnumeral⟩ := h
    rw [(trim_of_padded hcore (bare_of_labels hnumeral.labels)).1]
    exact hlabels _ hnumeral.labels
  | float => exact h.elim
  | char =>
    obtain ⟨inner, hinner, -⟩ := h
    rw [(trim_of_padded hinner (bare_between (by decide) (by decide))).1]
    nofun
  | string =>
    obtain ⟨inner, hinner, -⟩ := h
    rw [(trim_of_padded hinner (bare_between (by decide) (by decide))).1]
    nofun
  | enum cases =>
    rw [(trim_of_padded h.1 (bare_of_labels v.1.2.2)).1]
    exact hlabels _ v.1.2.2
  | option => exact hflat.elim
  | list =>
    obtain ⟨inner, hinner, -⟩ := h
    rw [(trim_of_padded hinner (bare_between (by decide) (by decide))).1]
    nofun
  | other => exact v.elim

theorem neat_items {raws : List Text} {items : List (ty.Val F)}
    (ih : ∀ {t : Text} {v : ty.Val F}, parse ty t = .ok v → Denotes ty t v → Neat ty t)
    (hread : List.Forall₂ (fun t v => parse ty t = .ok v) raws items)
    (hitems : List.Forall₂ (fun t v => Denotes ty t v) raws items) : ∀ raw ∈ raws, Neat ty raw := by
  induction hread with
  | nil => simp
  | cons hv _ ihrest =>
    obtain ⟨hdenotes, hrest⟩ := List.forall₂_cons.mp hitems
    exact List.forall_mem_cons.mpr ⟨ih hv hdenotes, ihrest hrest⟩

/-- A text that denotes the value it is read as is neat. -/
theorem neat_of_denotes (hty : ty.Discrete) {v : ty.Val F} (h : parse ty t = .ok v)
    (hdenotes : Denotes ty t v) : Neat ty t := by
  induction ty generalizing t with
  | bool =>
    refine (trim_of_padded hdenotes (bare_of_labels (labels_of_all ?_))).2
    cases v <;> rfl
  | int k =>
    obtain ⟨core, hcore, hnumeral⟩ := hdenotes
    obtain ⟨htrim, hblanks⟩ := trim_of_padded hcore (bare_of_labels hnumeral.labels)
    exact ⟨hblanks, htrim ▸ hnumeral.neat⟩
  | float => exact hty.elim
  | char =>
    obtain ⟨inner, hinner, hspells⟩ := hdenotes
    obtain ⟨htrim, hblanks⟩ := trim_of_padded hinner (bare_between (by decide) (by decide))
    exact ⟨hblanks, inner, htrim, hspells.quoted⟩
  | string =>
    obtain ⟨inner, hinner, hspells⟩ := hdenotes
    obtain ⟨htrim, hblanks⟩ := trim_of_padded hinner (bare_between (by decide) (by decide))
    refine ⟨hblanks, fun inner' hinner' => ?_⟩
    obtain rfl := List.append_cancel_right (List.cons.inj (htrim.symm.trans hinner')).2
    exact hspells.quoted
  | enum cases =>
    obtain ⟨hname, hword⟩ := hdenotes
    obtain ⟨htrim, hblanks⟩ := trim_of_padded hname (bare_of_labels v.1.2.2)
    exact ⟨hblanks, htrim ▸ hword⟩
  | option ty ih =>
    cases v with
    | none =>
      obtain ⟨htrim, hblanks⟩ := trim_of_padded hdenotes (bare_of_labels (labels_of_all rfl))
      exact ⟨hblanks, .inl htrim⟩
    | some v =>
      rcases of_parse_option h with ⟨-, hv⟩ | ⟨-, w, hv, hw⟩
      · cases hv
      · cases hv
        rcases hdenotes with ⟨inner, hinner, hdenotes⟩ | ⟨hflat, hdenotes⟩
        · obtain ⟨htrim, hblanks⟩ := trim_of_padded hinner (bare_between (by decide) (by decide))
          have hbetween := between_eq_some_iff.mpr htrim
          refine ⟨hblanks, .inr (.inl ⟨inner, htrim, ?_⟩)⟩
          rcases hw with ⟨inner', htrim', hw⟩ | ⟨hbare, -⟩
          · obtain rfl := Option.some.inj (hbetween.symm.trans (between_eq_some_iff.mpr htrim'))
            exact ih hty hw hdenotes
          · rw [hbetween] at hbare
            cases hbare
        · rcases hw with ⟨inner, htrim, -⟩ | ⟨hbare, hw⟩
          · exact absurd htrim (hdenotes.bare hflat)
          · rw [parse_trim] at hw
            have hneat := ih hty hw hdenotes
            exact ⟨hneat.blanks, .inr (.inr ⟨hbare, hflat, hneat⟩)⟩
  | list ty ih =>
    obtain ⟨inner, hinner, hitems⟩ := hdenotes
    obtain ⟨htrim, hblanks⟩ := trim_of_padded hinner (bare_between (by decide) (by decide))
    obtain ⟨inner', texts, htrim', hsplit, hread⟩ := parse_list_eq_ok_iff.mp h
    obtain rfl := List.append_cancel_right (List.cons.inj (htrim.symm.trans htrim')).2
    refine ⟨hblanks, fun inner' hinner' => ?_⟩
    obtain rfl := List.append_cancel_right (List.cons.inj (htrim.symm.trans hinner')).2
    refine ⟨fun hnil => ?_, fun raws hraws hsplit' => ?_⟩
    · obtain rfl := Except.ok.inj (hsplit.symm.trans hnil)
      obtain rfl := List.forall₂_nil_left_iff.mp hread
      rcases hitems with ⟨-, hblank⟩ | ⟨pieces, rfl, hitems⟩
      · exact (trim_of_padded hblank (by simp [Bare])).2
      · rw [List.forall₂_nil_right_iff.mp hitems]
        rfl
    · obtain rfl := Except.ok.inj (hsplit.symm.trans hsplit')
      replace hread := forall₂_parse_trim.mp hread
      rcases hitems with ⟨rfl, -⟩ | ⟨pieces, rfl, hitems⟩
      · rw [List.forall₂_nil_right_iff.mp hread]
        simp
      · have hread' := counts_of_forall₂ (fun _ _ => @commas_parse _ _ ty _ hty _) hread
        have hitems' := counts_of_forall₂ (fun _ _ hp => commas_denotes hp) hitems
        obtain rfl := join_unique hraws (hitems'.trans hread'.symm)
        exact neat_items (fun h hdenotes => ih hty h hdenotes) hread hitems
  | other => exact v.elim

/-- A rendered value is read back exactly if its lists can be split, and what is read is what the
text denotes exactly if the text is neat. -/
theorem codec_faithful_iff (hty : ty.Discrete) :
    (∀ v : ty.Val F, parse ty (render ty v) = .ok v ↔ Splittable ty v) ∧
      (∀ v w : ty.Val F, Splittable ty v → Splittable ty w → render ty v = render ty w → v = w) ∧
        ∀ t (v : ty.Val F), parse ty t = .ok v → (Denotes ty t v ↔ Neat ty t) := by
  refine ⟨parse_render_iff hty, fun v w hv hw heq => ?_, fun t v h => ?_⟩
  · have hread := (parse_render_iff hty v).mpr hv
    rw [heq, (parse_render_iff hty w).mpr hw] at hread
    exact (Except.ok.inj hread).symm
  · exact ⟨neat_of_denotes hty h, denotes_of_parse h⟩

instance : Floats Empty where
  parse _ _ := .error "no floats"
  render := Empty.elim

theorem codec_faithful_iff_sample :
    parse (F := Empty) (.list .char) (render (F := Empty) (.list .char) ['a', '\'']) =
        .ok ['a', '\''] ∧
      ¬Denotes (F := Empty) .string (text "\"a\"\"") (text "a\"") := by
  obtain ⟨hrender, -, -⟩ := @codec_faithful_iff Empty _ (.list .char) trivial
  obtain ⟨-, -, hdenotes⟩ := @codec_faithful_iff Empty _ .string trivial
  refine ⟨(hrender ['a', '\'']).mpr ?_, fun h => ?_⟩
  · intro c hc
    refine ⟨?_, trivial⟩
    rcases List.mem_pair.mp hc with rfl | rfl
    · exact ⟨rfl, rfl, by decide, fun _ => by decide⟩
    · exact ⟨rfl, rfl, by decide, fun _ => by decide⟩
  · have hread : parse (F := Empty) .string (text "\"a\"\"") = .ok (text "a\"") := rfl
    have hneat := (hdenotes _ _ hread).mp h
    have hquote := hneat.2 (text "a\"") rfl
    have hlast : Neat.Quoted '"' ['"'] := hquote.2.2
    rcases hlast with h | h
    · cases h
    · exact h.1 rfl

/-- Two lone quotes are read in place of a comma. -/
theorem comma_misread :
    ¬∀ v : Ty.Val Empty (.list .char), parse (.list .char) (render (.list .char) v) = .ok v := by
  intro h
  have hcomma := h [',']
  have hquotes : parse (F := Empty) (.list .char) (text "[',']") = .ok ['\'', '\''] := rfl
  have hlists : ['\'', '\''] = [','] := Except.ok.inj (hquotes.symm.trans hcomma)
  exact absurd hlists (by decide)

end Eo9.Wave
