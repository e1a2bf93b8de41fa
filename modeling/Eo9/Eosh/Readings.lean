import Eo9.Eosh.Bnf

/-!
# Parsers that read phrases

A parser reads a phrase when the words it reads are exactly the texts of the
phrase's lists of tokens, with the phrase's values. Every combinator has a rule.
In a sequence the longest left side is tried first, and in an alternation the
first branch; where the phrases are delimited there is one way to read, and the
order does not matter.
-/

namespace Eo9.Eosh

open Eo9.Library

variable {Nt : Type → Type} {α β : Type} [Productions Nt]

open Productions (build)

/-- The next token is none that goes on with the phrase. -/
def Stops (goes : Token → Bool) (r : List Token) : Prop := ∀ t ∈ r.head?, goes t = false

/-- The next token is one of those. -/
def Starts (starts : Token → Bool) (r : List Token) : Prop := ∃ t ∈ r.head?, starts t = true

/-- Where every token would go on, nothing follows. -/
theorem stops_all {r : List Token} : Stops (fun _ => true) r ↔ r = [] := by
  constructor
  · intro hr
    cases r with
    | nil => rfl
    | cons t r => exact absurd (hr t rfl) Bool.noConfusion
  · rintro rfl
    exact nofun

/-- There, a phrase is delimited when it has one value. -/
theorem delimited_end {n : ℕ} {D : Phrase Token α}
    (h : ∀ ts v v', D ts v → D ts v' → ts.length < n → v = v') :
    D.Delimited n (Stops fun _ => true) := by
  intro ts ts' r r' v v' hv hv' heq hlt hr hr'
  rw [stops_all.mp hr, stops_all.mp hr', List.append_nil, List.append_nil] at heq
  rw [stops_all.mp hr, List.append_nil] at hlt
  subst heq
  exact ⟨rfl, h ts v v' hv hv' hlt⟩

/-- The text does not begin with white space. -/
def NoGap (w : Str) : Prop := ∀ b ∈ w.head?, isWs b = false

namespace Parser

/-- On words shorter than `n` the parser reads the phrase. A parser behind white
space, with `gap` false, leaves the white space to what comes before it. Among the
tokens, the phrase is delimited by the next token that does not go on with it. -/
structure Reads (n : ℕ) (gap : Bool) (p : Parser Nt α) (D : Phrase Token α)
    (goes : Token → Bool) : Prop where
  run : ∀ w i v, w.length < n → (p.run w i = some v ↔
    (gap = false → NoGap w) ∧ ∃ ts, Lexes Utf8.lossy w i ts ∧ D ts v)
  delimited : D.Delimited n (Stops goes)

namespace Reads

variable {n : ℕ} {gap : Bool} {p : Parser Nt α} {D : Phrase Token α} {goes goes' : Token → Bool}

theorem zero : Reads 0 gap p D goes := ⟨fun _ _ _ h => absurd h (Nat.not_lt_zero _), .zero⟩

theorem mono {m : ℕ} (h : Reads n gap p D goes) (hm : m ≤ n) : Reads m gap p D goes :=
  ⟨fun w i v hw => h.run w i v (by omega), h.delimited.mono hm fun _ hr => hr⟩

/-- A phrase with fewer followers. -/
theorem widen (h : Reads n gap p D goes) (hgoes : ∀ t, goes t = true → goes' t = true) :
    Reads n gap p D goes' := by
  refine ⟨h.run, h.delimited.mono (Nat.le_refl n) fun r hr t ht => ?_⟩
  have := hr t ht
  by_contra hne
  rw [hgoes t (Bool.eq_true_of_not_eq_false hne)] at this
  cases this

theorem congr {D' : Phrase Token α} (h : Reads n gap p D goes) (hD : ∀ ts v, D ts v ↔ D' ts v) :
    Reads n gap p D' goes := by
  refine ⟨fun w i v hw => ?_, h.delimited.congr fun ts v => (hD ts v).mpr⟩
  rw [h.run w i v hw]
  simp only [hD]

theorem of_run {q : Parser Nt α} (h : Reads n gap p D goes) (hq : q.run = p.run) :
    Reads n gap q D goes := by
  refine ⟨fun w i v hw => ?_, h.delimited⟩
  rw [hq]
  exact h.run w i v hw

theorem map (h : Reads n gap p D goes) (f : α → β) : Reads n gap (p.map f) (D.map f) goes := by
  refine ⟨fun w i v hw => ?_, h.delimited.map f⟩
  rw [run_map, Option.map_eq_some_iff]
  constructor
  · rintro ⟨a, ha, rfl⟩
    obtain ⟨hgap, ts, hts, hD⟩ := (h.run w i a hw).mp ha
    exact ⟨hgap, ts, hts, a, hD, rfl⟩
  · rintro ⟨hgap, ts, hts, a, hD, rfl⟩
    exact ⟨a, (h.run w i a hw).mpr ⟨hgap, ts, hts, hD⟩, rfl⟩

theorem pure (v : α) : Reads n gap (.pure v : Parser Nt α) (Phrase.empty v) goes := by
  refine ⟨fun w i a _ => ?_, .empty v⟩
  rw [run_pure]
  constructor
  · intro h
    split_ifs at h with hw
    cases h
    subst hw
    exact ⟨fun _ _ hb => (by cases hb), [], .nil, rfl, rfl⟩
  · rintro ⟨-, ts, hts, rfl, rfl⟩
    rw [Lexes.nil_iff.mp hts, if_pos rfl]

theorem lazy {m : Nt α} (h : Reads n gap (build m) D goes) : Reads n gap (.lazy m) D goes :=
  h.of_run (funext fun w => funext fun i => run_lazy m w i)

/-- The first part of a text without a gap has none. -/
theorem noGap_append {u t : Str} (hu : u ≠ []) : NoGap (u ++ t) ↔ NoGap u := by
  cases u with
  | nil => exact absurd rfl hu
  | cons b u => exact Iff.rfl

theorem ne_nil_of_lexes {w : Str} {i : Input} {ts : List Token}
    (h : Lexes Utf8.lossy w i ts) (hts : ts ≠ []) : w ≠ [] := by
  rintro rfl
  have hlen := h.length_le
  cases ts with
  | nil => exact hts rfl
  | cons t ts => simp at hlen

/-- What a bind reads, from what its sides read on each split. -/
theorem bind_run {f : α → Parser Nt β} {E : α → Phrase Token β}
    {w : Str} {i : Input} (hne : gap = false → D.Nonempty)
    (hp : ∀ u t a, w = u ++ t → (p.run u (ahead Input.ofByte i t) = some a ↔
      (gap = false → NoGap u) ∧ ∃ ts, Lexes Utf8.lossy u (ahead Input.ofByte i t) ts ∧ D ts a))
    (hf : ∀ u t ts a v, w = u ++ t → D ts a → Lexes Utf8.lossy u (ahead Input.ofByte i t) ts →
      ((f a).run t i = some v ↔ ∃ ts', Lexes Utf8.lossy t i ts' ∧ E a ts' v))
    (hunique : ∀ ts v v', D.seq E ts v → D.seq E ts v' → ts.length ≤ w.length → v = v') (v : β) :
    (p.bind f).run w i = some v ↔
      (gap = false → NoGap w) ∧ ∃ ts, Lexes Utf8.lossy w i ts ∧ D.seq E ts v := by
  have hforth : ∀ {v}, Reader.Splits Input.ofByte p.run (fun a => (f a).run) w i v →
      (gap = false → NoGap w) ∧ ∃ ts, Lexes Utf8.lossy w i ts ∧ D.seq E ts v := by
    rintro v ⟨u, t, a, rfl, ha, hv⟩
    obtain ⟨hgap, ts, hts, hD⟩ := (hp u t a rfl).mp ha
    obtain ⟨ts', hts', hE⟩ := (hf u t ts a v rfl hD hts).mp hv
    refine ⟨fun hg => ?_, ts ++ ts', hts.append hts', ts, ts', a, rfl, hD, hE⟩
    have hnil : ts ≠ [] := by
      rintro rfl
      exact hne hg a hD
    exact (noGap_append (ne_nil_of_lexes hts hnil)).mpr (hgap hg)
  rw [run_bind, Reader.seq_eq_some_iff]
  · constructor
    · exact hforth
    · rintro ⟨hgap, ts, hts, ts₁, ts₂, a, rfl, hD, hE⟩
      obtain ⟨u, t, rfl, hu, ht⟩ := hts.split
      refine ⟨u, t, a, rfl, (hp u t a rfl).mpr ⟨fun hg => ?_, ts₁, hu, hD⟩,
        (hf u t ts₁ a v rfl hD hu).mpr ⟨ts₂, ht, hE⟩⟩
      have hnil : ts₁ ≠ [] := by
        rintro rfl
        exact hne hg a hD
      exact (noGap_append (ne_nil_of_lexes hu hnil)).mp (hgap hg)
  · intro x y hx hy
    obtain ⟨-, ts, hts, hD⟩ := hforth hx
    obtain ⟨-, ts', hts', hD'⟩ := hforth hy
    rw [← hts.unique hts'] at hD'
    exact hunique ts x y hD hD' hts.length_le

theorem bind {f : α → Parser Nt β} {E : α → Phrase Token β} (h : Reads n gap p D goes)
    (hf : ∀ a, Reads n true (f a) (E a) goes') (hne : gap = false → D.Nonempty)
    (hfollow : ∀ a, (E a).Begins (Stops goes') (Stops goes)) :
    Reads n gap (p.bind f) (D.seq E) goes' := by
  have hdel := h.delimited.seq (fun a => (hf a).delimited) hfollow
  refine ⟨fun w i v hw => ?_, hdel⟩
  apply bind_run hne
  · rintro u t a rfl
    exact h.run u _ a (by rw [List.length_append] at hw; omega)
  · rintro u t ts a v rfl - -
    rw [(hf a).run t i v (by rw [List.length_append] at hw; omega)]
    exact ⟨fun h => h.2, fun h => ⟨nofun, h⟩⟩
  · intro ts v v' hv hv' hlen
    exact hdel.value hv hv' (by omega) fun t ht => by cases ht

/-- Behind a phrase with a token, the right sides read shorter words. -/
theorem bind_shorter {f : α → Parser Nt β} {E : α → Phrase Token β}
    (h : Reads (n + 1) gap p D goes) (hne : D.Nonempty)
    (hf : ∀ a, Reads n true (f a) (E a) goes')
    (hfollow : ∀ a, (E a).Begins (Stops goes') (Stops goes)) :
    Reads (n + 1) gap (p.bind f) (D.seq E) goes' := by
  have hdel := h.delimited.seq_nonempty hne (fun a => (hf a).delimited) hfollow
  refine ⟨fun w i v hw => ?_, hdel⟩
  apply bind_run fun _ => hne
  · rintro u t a rfl
    exact h.run u _ a (by rw [List.length_append] at hw; omega)
  · rintro u t ts a v rfl hD hts
    have hnil : ts ≠ [] := by
      rintro rfl
      exact hne a hD
    have hpos := List.length_pos_iff.mpr (ne_nil_of_lexes hts hnil)
    rw [(hf a).run t i v (by rw [List.length_append] at hw; omega)]
    exact ⟨fun h => h.2, fun h => ⟨nofun, h⟩⟩
  · intro ts v v' hv hv' hlen
    exact hdel.value hv hv' (by omega) fun t ht => by cases ht

/-- An alternation whose branches begin differently. -/
theorem alt (L : List (Parser Nt α × Phrase Token α × (List Token → Prop)))
    (h : ∀ x ∈ L, Reads n gap x.1 x.2.1 goes ∧ x.2.1.Begins (Stops goes) x.2.2)
    (apart : (L.map (·.2.2)).Pairwise fun F F' => ∀ l, F l → ¬ F' l) :
    Reads n gap (Parser.alt (L.map (·.1))) (Phrase.anyOf (L.map (·.2.1))) goes := by
  have hdel : (Phrase.anyOf (L.map (·.2.1))).Delimited n (Stops goes) := by
    apply Phrase.Delimited.anyOf (L.map (·.2.2))
    · rw [List.forall₂_map_left_iff, List.forall₂_map_right_iff, List.forall₂_same]
      exact fun x hx => ⟨(h x hx).1.delimited, (h x hx).2⟩
    · exact apart
  refine ⟨fun w i v hw => ?_, hdel⟩
  have hbranch : ∀ m ∈ (L.map (·.1)).map Parser.run, ∀ v, m w i = some v →
      (gap = false → NoGap w) ∧ ∃ ts, Lexes Utf8.lossy w i ts ∧
        Phrase.anyOf (L.map (·.2.1)) ts v := by
    intro m hm v hv
    simp only [List.map_map, List.mem_map, Function.comp] at hm
    obtain ⟨x, hx, rfl⟩ := hm
    obtain ⟨hgap, ts, hts, hD⟩ := ((h x hx).1.run w i v hw).mp hv
    exact ⟨hgap, ts, hts, x.2.1, List.mem_map_of_mem hx, hD⟩
  rw [run_alt, Reader.choice_eq_some_iff]
  · constructor
    · rintro ⟨m, hm, hv⟩
      exact hbranch m hm v hv
    · rintro ⟨hgap, ts, hts, E, hE, hv⟩
      obtain ⟨x, hx, rfl⟩ := List.mem_map.mp hE
      refine ⟨x.1.run, List.mem_map_of_mem (List.mem_map_of_mem hx), ?_⟩
      exact ((h x hx).1.run w i v hw).mpr ⟨hgap, ts, hts, hv⟩
  · intro m hm m' hm' x y hx hy
    obtain ⟨-, ts, hts, hD⟩ := hbranch m hm x hx
    obtain ⟨-, ts', hts', hD'⟩ := hbranch m' hm' y hy
    rw [← hts.unique hts'] at hD'
    exact hdel.value hD hD' (Nat.lt_of_le_of_lt hts.length_le hw) fun t ht => by cases ht

end Reads

end Parser

def single (P : Token → α → Prop) : Phrase Token α := fun ts v => ∃ t, ts = [t] ∧ P t v

theorem nonempty_single {P : Token → α → Prop} : (single P).Nonempty := by
  rintro v ⟨t, ht, -⟩
  cases ht

theorem delimited_single {P : Token → α → Prop} (hP : ∀ t v v', P t v → P t v' → v = v') (n : ℕ)
    (S : List Token → Prop) : (single P).Delimited n S := by
  rintro ts ts' r r' v v' ⟨t, rfl, hv⟩ ⟨t', rfl, hv'⟩ heq - - -
  obtain ⟨rfl, -⟩ := List.cons.inj heq
  exact ⟨rfl, hP t v v' hv hv'⟩

theorem Token.noGap_spelled {tok : Token} {w : Str} (h : tok.Spelled Utf8.lossy w) : NoGap w := by
  obtain ⟨b, rest, rfl, hb⟩ := Token.head_spelled h
  intro c hc
  cases hc
  exact hb

/-- The text of one token, without a gap. -/
theorem lexes_single {tok : Token} {w : Str} {i : Input} (hgap : NoGap w) :
    Lexes Utf8.lossy w i [tok] ↔ tok.Spelled Utf8.lossy w ∧ tok.Bounded i := by
  constructor
  · intro h
    cases h with
    | @cons gap text rest _ _ _ hws hspelled hbounded hrest =>
      obtain rfl := Lexes.nil_iff.mp hrest
      cases gap with
      | nil =>
        rw [List.nil_append, List.append_nil]
        exact ⟨hspelled, hbounded⟩
      | cons b gap =>
        have hb := hgap b rfl
        rw [hws b List.mem_cons_self] at hb
        cases hb
  · rintro ⟨hspelled, hbounded⟩
    have hrest : Lexes Utf8.lossy [] i [] := .nil
    have hend : tok.Bounded (ahead Input.ofByte i []) := hbounded
    have h := Lexes.cons_tight hspelled hend hrest
    rwa [List.append_nil] at h

/-- Excluded words are the same before and after decoding. -/
theorem lossy_mem {excluded : List Str} (hex : AllAscii excluded) {w : Str} :
    Utf8.lossy w ∈ excluded ↔ w ∈ excluded := by
  constructor
  · intro h
    rwa [Utf8.lossy_of_ascii (hex _ h)] at h
  · intro h
    have hvalid : Utf8.Valid w := Utf8.valid_of_ascii (hex w h)
    rwa [Utf8.lossy_of_valid hvalid]

instance (bare : Bool) (w : Str) : Decidable (WordPrefix bare w) :=
  decidable_of_iff ((∀ b ∈ w, isBoundaryByte b = false) ∧
      (bare = true → w.head? ≠ some openBracket.1 ∧ w.head? ≠ some openBrace.1) ∧
      (bare = true → ¬ [dash.1, dash.1] <+: w))
    ⟨fun h => ⟨h.1, h.2.1, h.2.2⟩, fun h => ⟨h.run, h.noOpener, h.noFlag⟩⟩

instance (w : Str) : Decidable (BareWord w) :=
  decidable_of_iff (WordPrefix true w ∧ w ≠ []) ⟨fun h => ⟨h.1, h.2⟩, fun h => ⟨h.1, h.2⟩⟩

namespace Parser

/-- Behind a literal, the parser reads what is left. -/
theorem run_behind_lit {bs : List Ascii} {q : Parser Nt α} {w : Str} {i : Input} {v : α} :
    (keepRight (lit bs) q).run w i = some v ↔
      ∃ t, w = bs.map (·.1) ++ t ∧ q.run t i = some v := by
  rw [run_keepRight, Reader.seq_eq_some_iff]
  · constructor
    · rintro ⟨u, t, a, rfl, hu, ht⟩
      rw [run_lit.mp hu]
      exact ⟨t, rfl, ht⟩
    · rintro ⟨t, rfl, ht⟩
      exact ⟨_, t, (), rfl, run_lit.mpr rfl, ht⟩
  · rintro x y ⟨u, t, a, hw, hu, ht⟩ ⟨u', t', a', hw', hu', ht'⟩
    rw [run_lit.mp hu] at hw
    rw [run_lit.mp hu', hw] at hw'
    obtain rfl := List.append_cancel_left hw'
    rw [ht] at ht'
    exact Option.some.inj ht'

/-- A literal before a bind may as well stand before its left side. -/
theorem run_lit_bind {bs : List Ascii} {p : Parser Nt α} {f : α → Parser Nt β} :
    (keepRight (lit bs) (p.bind f)).run = ((keepRight (lit bs) p).bind f).run := by
  have hnone : ∀ {γ : Type} (q : Parser Nt γ) u j, ¬ bs.map (·.1) <+: u →
      (keepRight (lit bs) q).run u j = Option.none := by
    intro γ q u j hpre
    apply Option.eq_none_iff_forall_ne_some.mpr
    intro v hv
    obtain ⟨t, rfl, -⟩ := run_behind_lit.mp hv
    exact hpre (List.prefix_append _ _)
  have hsome : ∀ {γ : Type} (q : Parser Nt γ) t j,
      (keepRight (lit bs) q).run (bs.map (·.1) ++ t) j = q.run t j := by
    intro γ q t j
    apply Option.ext
    intro v
    rw [run_behind_lit]
    constructor
    · rintro ⟨t', heq, hv⟩
      rwa [List.append_cancel_left heq]
    · exact fun hv => ⟨t, rfl, hv⟩
  funext w i
  by_cases hpre : bs.map (·.1) <+: w
  · obtain ⟨t, rfl⟩ := hpre
    rw [hsome, run_bind, run_bind]
    exact (Reader.seq_shift (hsome p) (hnone p)).symm
  · rw [hnone _ w i hpre, run_bind]
    refine (Reader.seq_eq_none_of_first ?_).symm
    rintro u t rfl
    exact hnone p u _ fun h => hpre (h.trans (List.prefix_append _ _))

namespace Reads

variable {n : ℕ} {gap : Bool} {p : Parser Nt α} {D : Phrase Token α} {goes : Token → Bool}

/-- A leaf that reads one token. -/
theorem token {P : Token → α → Prop} (hP : ∀ t v v', P t v → P t v' → v = v')
    (h : ∀ w i v, p.run w i = some v ↔
      ∃ tok : Token, tok.Spelled Utf8.lossy w ∧ tok.Bounded i ∧ P tok v) :
    Reads n false p (single P) goes := by
  refine ⟨fun w i v _ => ?_, delimited_single hP n _⟩
  rw [h]
  constructor
  · rintro ⟨tok, hspelled, hbounded, hv⟩
    have hgap := Token.noGap_spelled hspelled
    exact ⟨fun _ => hgap, [tok], (lexes_single hgap).mpr ⟨hspelled, hbounded⟩, tok, rfl, hv⟩
  · rintro ⟨hgap, ts, hts, tok, rfl, hv⟩
    obtain ⟨hspelled, hbounded⟩ := (lexes_single (hgap rfl)).mp hts
    exact ⟨tok, hspelled, hbounded, hv⟩

theorem litByte {b : Ascii} (hb : b.1 ∈ punctuation) :
    Reads n false (lit [b] : Parser Nt Unit) (single fun t _ => t = .punct b) goes := by
  apply token fun _ _ _ _ _ => rfl
  intro w i v
  rw [run_lit]
  constructor
  · rintro rfl
    exact ⟨.punct b, ⟨rfl, hb⟩, trivial, rfl⟩
  · rintro ⟨tok, hspelled, -, rfl⟩
    exact hspelled.1

theorem kw {word : List Ascii} {tag : Tag} (hword : BareWord (word.map (·.1))) :
    Reads n false (kw word tag : Parser Nt Unit)
      (single fun t _ => t = .word (word.map (·.1))) goes := by
  have hascii : ∀ b ∈ word.map (·.1), b < 0x80 := by
    intro b hb
    obtain ⟨c, -, rfl⟩ := List.mem_map.mp hb
    exact c.2
  apply token fun _ _ _ _ _ => rfl
  intro w i v
  rw [run_kw]
  constructor
  · rintro ⟨rfl, hi⟩
    exact ⟨.word _, ⟨hword, (Utf8.lossy_of_valid (Utf8.valid_of_ascii hascii)).symm⟩, hi, rfl⟩
  · rintro ⟨tok, hspelled, hi, rfl⟩
    obtain ⟨-, hw⟩ := hspelled
    rw [Utf8.lossy_of_ascii (hw ▸ hascii)] at hw
    exact ⟨hw.symm, hi⟩

theorem capBareWord {excluded : List Str} (hex : AllAscii excluded) :
    Reads n false (capBareWord excluded : Parser Nt Str)
      (single fun t v => t = .word v ∧ v ∉ excluded) goes := by
  apply token fun t v v' h h' => Token.word.inj (h.1.symm.trans h'.1)
  intro w i v
  rw [Parser.capBareWord, run_capWord hex]
  constructor
  · rintro ⟨hw, hne, hnot, hi, rfl⟩
    exact ⟨.word _, ⟨⟨hw, hne⟩, rfl⟩, hi, rfl, fun h => hnot ((lossy_mem hex).mp h)⟩
  · rintro ⟨tok, hspelled, hi, rfl, hnot⟩
    obtain ⟨hw, rfl⟩ := hspelled
    exact ⟨hw.toWordPrefix, hw.nonempty, fun h => hnot ((lossy_mem hex).mpr h), hi, rfl⟩

theorem capCompound : Reads n false (capCompound : Parser Nt Str)
    (single fun t v => t = .compound v) goes := by
  apply token fun t v v' h h' => Token.compound.inj (h.symm.trans h')
  intro w i v
  rw [run_capCompound]
  constructor
  · exact fun h => ⟨.compound v, h, trivial, rfl⟩
  · rintro ⟨tok, hspelled, -, rfl⟩
    exact hspelled

theorem capQuoted : Reads n false (capQuoted : Parser Nt Str)
    (single fun t v => t = .quoted v) goes := by
  apply token fun t v v' h h' => Token.quoted.inj (h.symm.trans h')
  intro w i v
  rw [run_capQuoted]
  constructor
  · exact fun h => ⟨.quoted v, h, trivial, rfl⟩
  · rintro ⟨tok, hspelled, -, rfl⟩
    exact hspelled

/-- A parser that reads nothing. -/
theorem none (h : ∀ w i, p.run w i = none) : Reads n gap p (fun _ _ => False) goes := by
  refine ⟨fun w i v _ => ?_, fun _ _ _ _ _ _ h => h.elim⟩
  rw [h]
  exact ⟨nofun, fun ⟨_, _, _, h⟩ => h.elim⟩

/-- A flag: its dashes and its name. -/
theorem flag : Reads n false (keepRight (lit [dash, dash]) capFlagName : Parser Nt Str)
    (single fun t v => t = .flag v) goes := by
  apply token fun t v v' h h' => Token.flag.inj (h.symm.trans h')
  intro w i v
  have hname : ∀ u j name, (capFlagName : Parser Nt Str).run u j = some name ↔
      FlagWord u ∧ Ends j ∧ name = Utf8.lossy u := by
    intro u j name
    rw [capFlagName, run_capWord allAscii_nil]
    constructor
    · rintro ⟨hw, hne, -, hj, hv⟩
      exact ⟨⟨hw, hne⟩, hj, hv⟩
    · rintro ⟨hw, hj, hv⟩
      exact ⟨hw.toWordPrefix, hw.nonempty, List.not_mem_nil, hj, hv⟩
  rw [run_behind_lit]
  constructor
  · rintro ⟨t, rfl, ht⟩
    obtain ⟨hw, hi, rfl⟩ := (hname t i v).mp ht
    exact ⟨.flag _, ⟨t, rfl, hw, rfl⟩, hi, rfl⟩
  · rintro ⟨tok, hspelled, hi, rfl⟩
    obtain ⟨t, rfl, hw, rfl⟩ := hspelled
    exact ⟨t, rfl, (hname t i _).mpr ⟨hw, hi, rfl⟩⟩

/-- Behind optional white space. -/
theorem ws (h : Reads n false p D goes) (hne : D.Nonempty) :
    Reads n true (keepRight ws p) D goes := by
  refine ⟨fun w i v hw => ?_, h.delimited⟩
  have hread : ∀ t j x, t.length < n → p.run t j = some x → NoGap t ∧ t ≠ [] ∧
      ∃ ts, Lexes Utf8.lossy t j ts ∧ D ts x := by
    intro t j x hlt ht
    obtain ⟨hgap, ts, hts, hD⟩ := (h.run t j x hlt).mp ht
    refine ⟨hgap rfl, ne_nil_of_lexes hts ?_, ts, hts, hD⟩
    rintro rfl
    exact hne x hD
  have hsplits : ∀ x, Reader.Splits Input.ofByte (Parser.ws : Parser Nt Unit).run
      (fun _ => p.run) w i x → ∃ g t, w = g ++ t ∧ (∀ b ∈ g, isWs b = true) ∧
        p.run t i = some x ∧ NoGap t ∧ t ≠ [] ∧ ∃ ts, Lexes Utf8.lossy t i ts ∧ D ts x := by
    rintro x ⟨g, t, a, rfl, hg, ht⟩
    have hlt : t.length < n := by rw [List.length_append] at hw; omega
    exact ⟨g, t, rfl, (run_ws.mp hg).1, ht, hread t i x hlt ht⟩
  rw [run_keepRight, Reader.seq_eq_some_iff]
  · constructor
    · intro hs
      obtain ⟨g, t, rfl, hg, -, -, hnil, ts, hts, hD⟩ := hsplits v hs
      refine ⟨nofun, ts, ?_, hD⟩
      cases hts with
      | nil => exact absurd rfl hnil
      | cons hgap hspelled hbounded hrest =>
        rw [← List.append_assoc]
        refine .cons ?_ hspelled hbounded hrest
        intro b hb
        rcases List.mem_append.mp hb with hb | hb
        · exact hg b hb
        · exact hgap b hb
    · rintro ⟨-, ts, hts, hD⟩
      cases hts with
      | nil => exact absurd hD (hne v)
      | @cons g text rest _ tok ts hgap hspelled hbounded hrest =>
        have hhead := Token.head_spelled hspelled
        have hno : NoGap (text ++ rest) := by
          obtain ⟨b, s, rfl, hb⟩ := hhead
          intro c hc
          cases hc
          exact hb
        have hlt : (text ++ rest).length < n := by
          rw [List.length_append] at hw
          omega
        have hlexes : Lexes Utf8.lossy (text ++ rest) i (tok :: ts) :=
          .cons_tight hspelled hbounded hrest
        refine ⟨g, text ++ rest, (), rfl, run_ws.mpr ⟨hgap, ?_⟩,
          (h.run _ i v hlt).mpr ⟨fun _ => hno, tok :: ts, hlexes, hD⟩⟩
        obtain ⟨b, s, rfl, hb⟩ := hhead
        exact (endsWs_ofByte b).mpr hb
  · intro x y hx hy
    obtain ⟨g, t, hgt, hg, ht, hno, hnil, -⟩ := hsplits x hx
    obtain ⟨g', t', hgt', hg', ht', hno', hnil', -⟩ := hsplits y hy
    have hhead : ∀ {t : Str}, NoGap t → t ≠ [] → ∃ b s, t = b :: s ∧ isWs b = false := by
      intro t hno hnil
      cases t with
      | nil => exact absurd rfl hnil
      | cons b s => exact ⟨b, s, rfl, hno b rfl⟩
    rw [hgt] at hgt'
    obtain ⟨-, rfl⟩ := eq_of_gaps hg hg' (hhead hno hnil) (hhead hno' hnil') hgt'
    rw [ht] at ht'
    exact Option.some.inj ht'

end Reads

end Parser

/-- Every list of the phrase starts with such a token. -/
def StartsWith (D : Phrase Token α) (k : Token → Bool) : Prop := ∀ ts v, D ts v → Starts k ts

/-- Every list of the phrase is empty or starts with such a token. -/
def MayStart (D : Phrase Token α) (k : Token → Bool) : Prop :=
  ∀ ts v, D ts v → ts = [] ∨ Starts k ts

section Starting

variable {D : Phrase Token α} {k goes goes' : Token → Bool}

theorem Starts.append {ts : List Token} (h : Starts k ts) (r : List Token) : Starts k (ts ++ r) := by
  obtain ⟨t, ht, hk⟩ := h
  cases ts with
  | nil => cases ht
  | cons t' ts => exact ⟨t, ht, hk⟩

theorem starts_cons {t : Token} {ts : List Token} : Starts k (t :: ts) ↔ k t = true := by
  simp [Starts]

theorem not_starts_nil : ¬ Starts k [] := by
  rintro ⟨t, ht, -⟩
  cases ht

/-- Tokens that tell two phrases apart. -/
theorem Starts.apart {k' : Token → Bool} (hk : ∀ t, k t = true → k' t = false) (l : List Token)
    (h : Starts k l) : ¬ Starts k' l := by
  obtain ⟨t, ht, hkt⟩ := h
  rintro ⟨t', ht', hkt'⟩
  rw [Option.mem_unique ht' ht, hk t hkt] at hkt'
  cases hkt'

theorem Starts.mono {k' : Token → Bool} (hk : ∀ t, k t = true → k' t = true) {l : List Token}
    (h : Starts k l) : Starts k' l := by
  obtain ⟨t, ht, hkt⟩ := h
  exact ⟨t, ht, hk t hkt⟩

theorem StartsWith.nonempty (h : StartsWith D k) : D.Nonempty := by
  intro v hv
  obtain ⟨t, ht, -⟩ := h [] v hv
  cases ht

theorem StartsWith.begins (h : StartsWith D k) (S : List Token → Prop) : D.Begins S (Starts k) :=
  fun ts v r hv _ => (h ts v hv).append r

theorem StartsWith.follows (h : StartsWith D k) (hk : ∀ t, k t = true → goes t = false)
    (S : List Token → Prop) : D.Begins S (Stops goes) := by
  intro ts v r hv _ t ht
  obtain ⟨t', ht', hk'⟩ := (h ts v hv).append r
  rw [Option.mem_unique ht ht']
  exact hk t' hk'

theorem MayStart.follows (h : MayStart D k) (hk : ∀ t, k t = true → goes t = false)
    (hgoes : ∀ t, goes t = true → goes' t = true) : D.Begins (Stops goes') (Stops goes) := by
  intro ts v r hv hr t ht
  rcases h ts v hv with rfl | hs
  · by_contra hne
    have hstop := hr t ht
    rw [hgoes t (Bool.eq_true_of_not_eq_false hne)] at hstop
    cases hstop
  · obtain ⟨t', ht', hk'⟩ := hs.append r
    rw [Option.mem_unique ht ht']
    exact hk t' hk'

/-- Nothing goes on with a phrase that ends by itself. -/
theorem follows_closed (S : List Token → Prop) : D.Begins S (Stops fun _ => false) :=
  fun _ _ _ _ _ _ _ => rfl

theorem StartsWith.map {β : Type} (h : StartsWith D k) (f : α → β) : StartsWith (D.map f) k := by
  rintro ts v ⟨a, ha, -⟩
  exact h ts a ha

theorem StartsWith.seq {β : Type} {E : α → Phrase Token β} (h : StartsWith D k) :
    StartsWith (D.seq E) k := by
  rintro ts v ⟨t₁, t₂, a, rfl, ha, -⟩
  exact (h t₁ a ha).append t₂

theorem StartsWith.or {E : Phrase Token α} {k' : Token → Bool} (h : StartsWith D k)
    (h' : StartsWith E k') : StartsWith (fun ts v => D ts v ∨ E ts v) fun t => k t || k' t := by
  rintro ts v (hv | hv)
  · obtain ⟨t, ht, hk⟩ := h ts v hv
    exact ⟨t, ht, Bool.or_eq_true_iff.mpr (Or.inl hk)⟩
  · obtain ⟨t, ht, hk⟩ := h' ts v hv
    exact ⟨t, ht, Bool.or_eq_true_iff.mpr (Or.inr hk)⟩

end Starting

/-- A phrase behind a token. -/
def after (tok : Token) (D : Phrase Token α) : Phrase Token α :=
  fun ts v => ∃ ts', ts = tok :: ts' ∧ D ts' v

/-- A phrase before a token. -/
def before (D : Phrase Token α) (tok : Token) : Phrase Token α :=
  fun ts v => ∃ ts', ts = ts' ++ [tok] ∧ D ts' v

theorem startsWith_after (tok : Token) (D : Phrase Token α) :
    StartsWith (after tok D) fun t => t == tok := by
  rintro ts v ⟨ts', rfl, -⟩
  exact starts_cons.mpr (beq_self_eq_true tok)

theorem startsWith_before {D : Phrase Token α} {k : Token → Bool} (h : StartsWith D k)
    (tok : Token) : StartsWith (before D tok) k := by
  rintro ts v ⟨ts', rfl, hv⟩
  exact (h ts' v hv).append _

namespace Parser

namespace Reads

variable {n : ℕ} {gap : Bool} {p : Parser Nt α} {D : Phrase Token α} {goes goes' : Token → Bool}

theorem after {first : Parser Nt Unit} {tok : Token}
    (hfirst : Reads (n + 1) gap first (single fun t _ => t = tok) fun _ => false)
    (h : Reads n true p D goes) : Reads (n + 1) gap (keepRight first p) (after tok D) goes := by
  have hseq := hfirst.bind_shorter nonempty_single (fun _ => h) fun _ => follows_closed _
  apply hseq.congr
  intro ts v
  constructor
  · rintro ⟨ts₁, ts₂, -, rfl, ⟨t, rfl, rfl⟩, hv⟩
    exact ⟨ts₂, rfl, hv⟩
  · rintro ⟨ts', rfl, hv⟩
    exact ⟨[tok], ts', (), rfl, ⟨tok, rfl, rfl⟩, hv⟩

/-- Before one token, which does not go on with the phrase. -/
theorem before {last : Parser Nt Unit} {tok : Token}
    (h : Reads n gap p D goes) (hlast : Reads n true last (single fun t _ => t = tok) goes')
    (hne : gap = false → D.Nonempty) (htok : goes tok = false) :
    Reads n gap (keepLeft p last) (before D tok) goes' := by
  have hseq := h.bind (fun a => hlast.map fun _ => a) hne fun a => by
    apply StartsWith.follows (k := fun t => t == tok)
    · rintro ts v ⟨-, ⟨t, rfl, rfl⟩, -⟩
      exact starts_cons.mpr (beq_self_eq_true _)
    · intro t ht
      rw [eq_of_beq ht, htok]
  apply hseq.congr
  intro ts v
  constructor
  · rintro ⟨ts₁, ts₂, a, rfl, ha, -, ⟨t, rfl, rfl⟩, rfl⟩
    exact ⟨ts₁, rfl, ha⟩
  · rintro ⟨ts', rfl, hv⟩
    exact ⟨ts', [tok], v, rfl, hv, (), ⟨tok, rfl, rfl⟩, rfl⟩

/-- Alternatives that are told apart by their first tokens. -/
theorem alt_starts (L : List (Parser Nt α × Phrase Token α × (Token → Bool)))
    (h : ∀ x ∈ L, Reads n gap x.1 x.2.1 goes ∧ StartsWith x.2.1 x.2.2)
    (apart : (L.map (·.2.2)).Pairwise fun k k' => ∀ t, k t = true → k' t = false) :
    Reads n gap (Parser.alt (L.map (·.1))) (Phrase.anyOf (L.map (·.2.1))) goes := by
  have hbranch : ∀ x ∈ L.map fun x => (x.1, x.2.1, Starts x.2.2),
      Reads n gap x.1 x.2.1 goes ∧ x.2.1.Begins (Stops goes) x.2.2 := by
    intro x hx
    obtain ⟨y, hy, rfl⟩ := List.mem_map.mp hx
    exact ⟨(h y hy).1, (h y hy).2.begins _⟩
  have hapart := (List.pairwise_map.mp apart).imp fun hk => Starts.apart hk
  have halt := alt _ hbranch (by
    rw [List.map_map]
    exact List.pairwise_map.mpr hapart)
  simpa [List.map_map, Function.comp_def] using halt

/-- Two alternatives. -/
theorem either {q : Parser Nt α} {E : Phrase Token α} {k k' : Token → Bool}
    (h : Reads n gap p D goes ∧ StartsWith D k) (h' : Reads n gap q E goes ∧ StartsWith E k')
    (apart : ∀ t, k t = true → k' t = false) :
    Reads n gap (Parser.alt [p, q]) (fun ts v => D ts v ∨ E ts v) goes := by
  have hall : ∀ x ∈ [(p, D, k), (q, E, k')],
      Reads n gap x.1 x.2.1 goes ∧ StartsWith x.2.1 x.2.2 :=
    List.forall_mem_cons.mpr ⟨h, List.forall_mem_singleton.mpr h'⟩
  apply (alt_starts _ hall (List.pairwise_pair.mpr apart)).congr
  intro ts v
  simp [Phrase.anyOf]

/-- A phrase or nothing. -/
theorem alt_pure {acc : α} {k : Token → Bool} (h : Reads n gap p D goes) (hk : StartsWith D k)
    (hgoes : ∀ t, k t = true → goes t = true) :
    Reads n gap (Parser.alt [.pure acc, p]) (fun ts v => (ts = [] ∧ v = acc) ∨ D ts v) goes := by
  refine congr (alt [(.pure acc, .empty acc, Stops k), (p, D, Starts k)] ?_ ?_) ?_
  · intro x hx
    simp only [List.mem_cons, List.not_mem_nil, or_false] at hx
    rcases hx with rfl | rfl
    · refine ⟨.pure acc, ?_⟩
      rintro ts v r ⟨rfl, -⟩ hr t ht
      by_contra hne
      have hstop := hr t ht
      rw [hgoes t (Bool.eq_true_of_not_eq_false hne)] at hstop
      cases hstop
    · exact ⟨h, hk.begins _⟩
  · refine List.pairwise_pair.mpr ?_
    rintro l hl ⟨t, ht, hkt⟩
    rw [hl t ht] at hkt
    cases hkt
  · intro ts v
    simp [Phrase.anyOf, Phrase.empty]

/-- The first alternative that reads the word, where nothing follows. -/
theorem firstOf (L : List (Parser Nt α × Phrase Token α))
    (h : ∀ x ∈ L, Reads n gap x.1 x.2 fun _ => true) :
    Reads n gap (Parser.alt (L.map (·.1))) (Phrase.firstOf (L.map (·.2))) fun _ => true := by
  have hrun : ∀ w i v, w.length < n →
      (Reader.choice ((L.map (·.1)).map Parser.run) w i = some v ↔ (gap = false → NoGap w) ∧
        ∃ ts, Lexes Utf8.lossy w i ts ∧ Phrase.firstOf (L.map (·.2)) ts v) := by
    intro w i v hw
    induction L with
    | nil =>
      constructor
      · rintro ⟨⟩
      · rintro ⟨-, -, -, ⟨⟩⟩
    | cons x L ih =>
      have hrest := ih fun y hy => h y (List.mem_cons_of_mem x hy)
      have hfirst := fun a => (h x List.mem_cons_self).run w i a hw
      have hchoice : Reader.choice (((x :: L).map (·.1)).map Parser.run) w i =
          (x.1.run w i).or (Reader.choice ((L.map (·.1)).map Parser.run) w i) := by
        simp only [Reader.choice, List.map_cons, List.findSome?_cons]
        cases x.1.run w i <;> rfl
      rw [hchoice, Option.or_eq_some_iff, hrest, hfirst]
      constructor
      · rintro (⟨hgap, ts, hts, hv⟩ | ⟨hnone, hgap, ts, hts, hv⟩)
        · exact ⟨hgap, ts, hts, Or.inl hv⟩
        · refine ⟨hgap, ts, hts, Or.inr ⟨fun a ha => ?_, hv⟩⟩
          have hsome := (hfirst a).mpr ⟨hgap, ts, hts, ha⟩
          rw [hnone] at hsome
          cases hsome
      · rintro ⟨hgap, ts, hts, (hv | ⟨hno, hv⟩)⟩
        · exact Or.inl ⟨hgap, ts, hts, hv⟩
        · refine Or.inr ⟨Option.eq_none_iff_forall_ne_some.mpr fun a ha => ?_, hgap, ts, hts, hv⟩
          obtain ⟨-, ts', hts', ha'⟩ := (hfirst a).mp ha
          rw [hts'.unique hts] at ha'
          exact hno a ha'
  refine ⟨fun w i v hw => ?_, delimited_end ?_⟩
  · rw [run_alt]
    exact hrun w i v hw
  · intro ts v v' hv hv' hlt
    refine Phrase.firstOf_value ?_ hv hv'
    intro D hD a a' ha ha'
    obtain ⟨x, hx, rfl⟩ := List.mem_map.mp hD
    exact (h x hx).delimited.value ha ha' hlt fun _ h => by cases h

/-- A list that ends or goes on with an item, after which it goes on. -/
theorem rest {acc : β} {f : α → Parser Nt β} {E : α → Phrase Token β} {D' : Phrase Token β}
    {k : Token → Bool} (h : Reads (n + 1) true p D goes) (hk : StartsWith D k)
    (hf : ∀ a, Reads n true (f a) (E a) goes')
    (hfollow : ∀ a, (E a).Begins (Stops goes') (Stops goes))
    (hgoes : ∀ t, k t = true → goes' t = true)
    (hD : ∀ ts v, D' ts v ↔ (ts = [] ∧ v = acc) ∨ D.seq E ts v) :
    Reads (n + 1) true (Parser.alt [.pure acc, p.bind f]) D' goes' := by
  have hitem := h.bind_shorter hk.nonempty hf hfollow
  apply (hitem.alt_pure hk.seq hgoes).congr
  exact fun ts v => (hD ts v).symm

end Reads

end Parser

end Eo9.Eosh
