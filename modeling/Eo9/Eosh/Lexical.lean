import Eo9.Eosh.Meaning

/-!
# What the leaves read

For words, exact bytes, white space, comments and vocabularies: the texts that
keep the leaf parser alive, and the texts it reads a value from. These are the
lexical rules of the shell, stated on whole texts.
-/

namespace Eo9.Eosh

open Eo9.Library

variable {Nt : Type → Type} {α : Type} [Productions Nt]

/-- The inputs that end a word. -/
def Ends : Input → Prop
  | .eof => True
  | .byte b => isBoundaryByte b.1 = true
  | .text _ => False

instance (i : Input) : Decidable (Ends i) := by
  cases i <;> unfold Ends <;> infer_instance

theorem isBoundaryByte_lt {b : UInt8} (h : isBoundaryByte b = true) : b < 0x80 := by
  simp only [isBoundaryByte, Bool.or_eq_true, Bool.and_eq_true, decide_eq_true_eq,
    beq_iff_eq] at h
  rcases h with ((((((((⟨-, h⟩ | rfl) | rfl) | rfl) | rfl) | rfl) | rfl) | rfl) | rfl) | rfl
  · exact UInt8.lt_of_le_of_lt h (by decide)
  all_goals decide

@[simp] theorem ends_ofByte (b : UInt8) : Ends (.ofByte b) ↔ isBoundaryByte b = true := by
  unfold Input.ofByte
  split
  · exact Iff.rfl
  · rename_i h
    exact ⟨False.elim, fun hb => absurd (isBoundaryByte_lt hb) h⟩

/-- A run of bytes none of which ends a word; in a name it starts neither a
literal nor a flag. -/
structure WordPrefix (bare : Bool) (w : Str) : Prop where
  run : ∀ b ∈ w, isBoundaryByte b = false
  noOpener : bare = true → w.head? ≠ some openBracket.1 ∧ w.head? ≠ some openBrace.1
  noFlag : bare = true → ¬ [dash.1, dash.1] <+: w

/-- A name or a value that is a bare word. -/
structure BareWord (w : Str) : Prop extends WordPrefix true w where
  nonempty : w ≠ []

structure FlagWord (w : Str) : Prop extends WordPrefix false w where
  nonempty : w ≠ []

namespace Leaf

/-- The leaf after a text. -/
def feed (l : Leaf α) : Str → Option (Leaf α)
  | [] => some l
  | b :: w => (l.nextAt (.ofByte b)).bind fun l => l.feed w

theorem feed_concat (l : Leaf α) (w : Str) (b : UInt8) :
    l.feed (w ++ [b]) = (l.feed w).bind fun l => l.nextAt (.ofByte b) := by
  induction w generalizing l with
  | nil =>
    change (l.nextAt (.ofByte b)).bind _ = l.nextAt (.ofByte b)
    cases l.nextAt (.ofByte b) <;> rfl
  | cons c w ih =>
    change (l.nextAt _).bind _ = ((l.nextAt _).bind _).bind _
    rw [Option.bind_assoc]
    exact congrArg _ (funext fun l => ih l)

end Leaf

namespace Parser

theorem feedBytes_leaf (l : Leaf α) (w : Str) :
    (leaf l : Parser Nt α).feedBytes w = (l.feed w).map leaf := by
  induction w generalizing l with
  | nil => rfl
  | cons b w ih =>
    rw [feedBytes_cons, nextAt_leaf, Leaf.feed, Option.bind_map, Option.map_bind]
    exact congrArg _ (funext fun l => ih l)

theorem run_leaf (l : Leaf α) (w : Str) (i : Input) :
    (leaf l : Parser Nt α).run w i = (l.feed w).bind fun l => l.valueAt i := by
  rw [run, feedBytes_leaf, Option.bind_map]
  exact congrArg _ (funext fun l => valueAt_leaf l i)

theorem lives_leaf (l : Leaf α) (w : Str) :
    (leaf l : Parser Nt α).Lives w ↔ (l.feed w).isSome = true := by
  rw [Lives, feedBytes_leaf, Option.isSome_map]

end Parser

namespace Word

/-- The state of a word after `w`. -/
def after (excluded : List Str) (bare : Bool) (w : Str) : Word :=
  ⟨excluded.filter fun e => w.isPrefixOf e, bare, w.length, bare && w == [dash.1]⟩

theorem finishable_after (excluded : List Str) (bare : Bool) (w : Str) :
    (after excluded bare w).finishable = true ↔ w ≠ [] ∧ w ∉ excluded := by
  rw [finishable, Bool.and_eq_true, decide_eq_true_iff]
  refine and_congr List.length_pos_iff ?_
  simp only [after, Bool.not_eq_true', List.any_eq_false, List.mem_filter,
    List.isPrefixOf_iff_prefix, beq_iff_eq, and_imp]
  constructor
  · intro h hw
    exact h w hw (List.prefix_refl w) rfl
  · intro h e he hpre hlen
    exact h (hpre.eq_of_length hlen.symm ▸ he)

end Word

theorem wordPrefix_nil (bare : Bool) : WordPrefix bare [] :=
  ⟨fun _ h => absurd h List.not_mem_nil, fun _ => ⟨nofun, nofun⟩, fun _ h => by
    cases List.prefix_nil.mp h⟩

/-- A word prefix is extended by a byte that is no boundary, unless the byte
opens a literal or a flag. -/
theorem wordPrefix_concat {bare : Bool} {w : Str} {b : UInt8} :
    WordPrefix bare (w ++ [b]) ↔
      WordPrefix bare w ∧ isBoundaryByte b = false ∧
        (bare = true → w = [] → b ≠ openBracket.1 ∧ b ≠ openBrace.1) ∧
        (bare = true → w = [dash.1] → b ≠ dash.1) := by
  constructor
  · rintro ⟨hrun, hop, hflag⟩
    refine ⟨⟨fun c hc => hrun c (List.mem_append_left _ hc), fun hb => ?_, fun hb h => ?_⟩,
      hrun b (by simp), fun hb hw => ?_, fun hb hw h => ?_⟩
    · cases w with
      | nil => exact ⟨nofun, nofun⟩
      | cons c w => exact hop hb
    · exact hflag hb (h.trans (List.prefix_append w [b]))
    · subst hw
      have := hop hb
      exact ⟨fun h => this.1 (by rw [h]; rfl), fun h => this.2 (by rw [h]; rfl)⟩
    · subst hw
      exact hflag hb (by rw [h]; exact List.prefix_refl _)
  · rintro ⟨⟨hrun, hop, hflag⟩, hb, hfirst, hsecond⟩
    refine ⟨fun c hc => ?_, fun hbare => ?_, fun hbare h => ?_⟩
    · rcases List.mem_append.mp hc with hc | hc
      · exact hrun c hc
      · rw [List.mem_singleton.mp hc]
        exact hb
    · cases w with
      | nil =>
        have := hfirst hbare rfl
        exact ⟨fun h => this.1 (Option.some.inj h), fun h => this.2 (Option.some.inj h)⟩
      | cons c w => exact hop hbare
    · match w with
      | [] => exact absurd h.length_le (by simp)
      | [c] =>
        obtain ⟨hc, h⟩ := List.cons_prefix_cons.mp h
        obtain ⟨hbd, -⟩ := List.cons_prefix_cons.mp h
        exact hsecond hbare (by rw [hc]) hbd.symm
      | c :: d :: w =>
        obtain ⟨hc, h⟩ := List.cons_prefix_cons.mp h
        obtain ⟨hd, -⟩ := List.cons_prefix_cons.mp h
        exact hflag hbare
          (List.cons_prefix_cons.mpr ⟨hc, List.cons_prefix_cons.mpr ⟨hd, List.nil_prefix⟩⟩)

/-- Excluded words are ASCII text. -/
def AllAscii (excluded : List Str) : Prop := ∀ e ∈ excluded, ∀ b ∈ e, b < 0x80

instance (excluded : List Str) : Decidable (AllAscii excluded) := by
  unfold AllAscii
  infer_instance

theorem allAscii_nil : AllAscii [] := fun _ h => absurd h List.not_mem_nil

namespace Word

theorem prefix_concat_iff {w e : Str} {b : UInt8} :
    w ++ [b] <+: e ↔ w <+: e ∧ e[w.length]? = some b := by
  constructor
  · rintro ⟨t, rfl⟩
    exact ⟨⟨[b] ++ t, by simp⟩, by simp⟩
  · rintro ⟨⟨t, rfl⟩, h⟩
    rw [List.getElem?_append_right (Nat.le_refl _), Nat.sub_self] at h
    cases t with
    | nil => cases h
    | cons c t =>
      cases h
      exact ⟨t, by simp⟩

/-- One more byte of a word. -/
theorem stepCore_after {excluded : List Str} (hex : AllAscii excluded) {bare : Bool} {w : Str}
    (hw : WordPrefix bare w) (b : UInt8) :
    (WordPrefix bare (w ++ [b]) ∧
        (after excluded bare w).stepCore (.ofByte b) = .advance (after excluded bare (w ++ [b]))) ∨
      (¬ WordPrefix bare (w ++ [b]) ∧
        ∀ next, (after excluded bare w).stepCore (.ofByte b) ≠ .advance next) := by
  rw [wordPrefix_concat]
  by_cases hb : b < 0x80
  · rw [Input.ofByte, dif_pos hb, stepCore]
    cases hbound : isBoundaryByte b with
    | true =>
      refine Or.inr ⟨fun h => Bool.noConfusion h.2.1, fun next => ?_⟩
      simp only [if_true]
      split <;> exact WordStep.noConfusion
    | false =>
      simp only [Bool.false_eq_true, if_false]
      by_cases hop : bare = true ∧ w = [] ∧ (b = openBracket.1 ∨ b = openBrace.1)
      · obtain ⟨rfl, rfl, hop⟩ := hop
        refine Or.inr ⟨?_, fun next => ?_⟩
        · rintro ⟨-, -, h, -⟩
          have := h rfl rfl
          exact hop.elim this.1 this.2
        · rw [if_pos]
          · exact WordStep.noConfusion
          · simpa [after, Subtype.ext_iff] using hop
      by_cases hflag : bare = true ∧ w = [dash.1] ∧ b = dash.1
      · obtain ⟨rfl, rfl, rfl⟩ := hflag
        refine Or.inr ⟨fun h => h.2.2.2 rfl rfl rfl, fun next => ?_⟩
        rw [if_neg (by simp [after]), if_pos (by simp [after])]
        exact WordStep.noConfusion
      · refine Or.inl ⟨⟨hw, trivial, fun h hn => ?_, fun h hn hd => hflag ⟨h, hn, hd⟩⟩, ?_⟩
        · exact ⟨fun h' => hop ⟨h, hn, Or.inl h'⟩, fun h' => hop ⟨h, hn, Or.inr h'⟩⟩
        · rw [if_neg, if_neg]
          · congr 1
            simp only [after, List.filter_filter, List.length_append, List.length_singleton,
              Word.mk.injEq, true_and]
            constructor
            · apply List.filter_congr
              intro e _
              rw [Bool.eq_iff_iff, Bool.and_eq_true, List.isPrefixOf_iff_prefix,
                List.isPrefixOf_iff_prefix, prefix_concat_iff, beq_iff_eq, and_comm]
            · rw [Bool.eq_iff_iff]
              cases w with
              | nil => simp
              | cons c w => simp
          · simpa [after, Subtype.ext_iff] using hflag
          · simpa [after, Subtype.ext_iff] using hop
  · rw [Input.ofByte, dif_neg hb, stepCore]
    have hbound : isBoundaryByte b = false := by
      cases h : isBoundaryByte b with
      | false => rfl
      | true => exact absurd (isBoundaryByte_lt h) hb
    have hne : ∀ c : Ascii, b ≠ c.1 := fun c h => hb (h ▸ c.2)
    refine Or.inl ⟨⟨hw, hbound, fun _ _ => ⟨hne _, hne _⟩, fun _ _ => hne _⟩, ?_⟩
    congr 1
    simp only [after, List.length_append, List.length_singleton, Word.mk.injEq, true_and]
    constructor
    · symm
      apply List.filter_eq_nil_iff.mpr
      intro e he hpre
      rw [List.isPrefixOf_iff_prefix] at hpre
      exact hb (hex e he b (hpre.subset (by simp)))
    · cases w <;> simp [hne dash]

theorem after_nil (excluded : List Str) (bare : Bool) :
    after excluded bare [] = start excluded bare := by
  simp [after, start]

theorem stepCore_eq_finish {word : Word} {i : Input} :
    word.stepCore i = .finish ↔ Ends i ∧ word.finishable = true := by
  cases i with
  | eof => simp [stepCore, Ends]
  | text b => simp [stepCore, Ends]
  | byte b =>
    simp only [stepCore, Ends]
    split_ifs <;> simp_all

end Word

theorem feed_capWord {excluded : List Str} (hex : AllAscii excluded) {bare : Bool} {w : Str}
    {l : Leaf Str} :
    (Leaf.capWord (.start excluded bare) []).feed w = some l ↔
      WordPrefix bare w ∧ l = .capWord (.after excluded bare w) w := by
  induction w using List.reverseRecOn generalizing l with
  | nil =>
    rw [Word.after_nil]
    change some _ = some l ↔ _
    rw [Option.some.injEq, eq_comm]
    exact ⟨fun h => ⟨wordPrefix_nil bare, h⟩, fun h => h.2⟩
  | append_singleton w b ih =>
    rw [Leaf.feed_concat]
    constructor
    · intro h
      obtain ⟨m, hm, h⟩ := Option.bind_eq_some_iff.mp h
      obtain ⟨hw, rfl⟩ := ih.mp hm
      rcases Word.stepCore_after hex hw b with ⟨hwb, hstep⟩ | ⟨-, hstep⟩
      · refine ⟨hwb, ?_⟩
        simp only [Leaf.nextAt, Leaf.step, CapWord.step, hstep, Input.bytes_ofByte,
          Option.some.injEq] at h
        exact h.symm
      · simp only [Leaf.nextAt, Leaf.step, CapWord.step] at h
        cases hs : (Word.after excluded bare w).stepCore (.ofByte b) with
        | advance next => exact absurd hs (hstep next)
        | finish => simp [hs] at h
        | fail => simp [hs] at h
    · rintro ⟨hwb, rfl⟩
      have hw := (wordPrefix_concat.mp hwb).1
      rw [ih.mpr ⟨hw, rfl⟩, Option.bind_some]
      rcases Word.stepCore_after hex hw b with ⟨-, hstep⟩ | ⟨hnot, -⟩
      · simp only [Leaf.nextAt, Leaf.step, CapWord.step, hstep, Input.bytes_ofByte]
      · exact absurd hwb hnot

theorem valueAt_capWord {word : Word} {bytes : Str} {i : Input} {v : Str} :
    (Leaf.capWord word bytes).valueAt i = some v ↔
      Ends i ∧ word.finishable = true ∧ v = Utf8.lossy bytes := by
  rw [← and_assoc, ← Word.stepCore_eq_finish]
  simp only [Leaf.valueAt, Leaf.step, CapWord.step]
  cases word.stepCore i <;> simp [eq_comm]

namespace Parser

/-- A captured word is read up to a boundary, unless it is an excluded word. -/
theorem run_capWord {excluded : List Str} (hex : AllAscii excluded) {bare : Bool} {w : Str}
    {i : Input} {v : Str} :
    (leaf (.capWord (.start excluded bare) []) : Parser Nt Str).run w i = some v ↔
      WordPrefix bare w ∧ w ≠ [] ∧ w ∉ excluded ∧ Ends i ∧ v = Utf8.lossy w := by
  rw [run_leaf, Option.bind_eq_some_iff]
  constructor
  · rintro ⟨l, hl, hv⟩
    obtain ⟨hw, rfl⟩ := (feed_capWord hex).mp hl
    obtain ⟨hi, hfin, rfl⟩ := valueAt_capWord.mp hv
    obtain ⟨hne, hnot⟩ := (Word.finishable_after excluded bare w).mp hfin
    exact ⟨hw, hne, hnot, hi, rfl⟩
  · rintro ⟨hw, hne, hnot, hi, rfl⟩
    exact ⟨_, (feed_capWord hex).mpr ⟨hw, rfl⟩, valueAt_capWord.mpr
      ⟨hi, (Word.finishable_after excluded bare w).mpr ⟨hne, hnot⟩, rfl⟩⟩

theorem lives_capWord {excluded : List Str} (hex : AllAscii excluded) {bare : Bool} {w : Str} :
    (leaf (.capWord (.start excluded bare) []) : Parser Nt Str).Lives w ↔ WordPrefix bare w := by
  rw [lives_leaf, Option.isSome_iff_exists]
  exact ⟨fun ⟨_, hl⟩ => ((feed_capWord hex).mp hl).1, fun hw => ⟨_, (feed_capWord hex).mpr ⟨hw, rfl⟩⟩⟩

end Parser

theorem map_val_inj {u v : List Ascii} : u.map (·.1) = v.map (·.1) ↔ u = v :=
  (List.map_injective_iff.mpr Subtype.val_injective).eq_iff

theorem feed_lit {rest : List Ascii} {w : Str} {l : Leaf Unit} :
    (Leaf.lit rest).feed w = some l ↔ ∃ r, rest.map (·.1) = w ++ r.map (·.1) ∧ l = .lit r := by
  induction w generalizing rest with
  | nil =>
    constructor
    · intro h
      exact ⟨rest, rfl, (Option.some.inj h).symm⟩
    · rintro ⟨r, hr, rfl⟩
      rw [map_val_inj.mp hr]
      rfl
  | cons b w ih =>
    rw [Leaf.feed]
    cases rest with
    | nil => simp [Leaf.nextAt, Leaf.step, Lit.step]
    | cons c rest =>
      by_cases hbc : c.1 = b
      · subst hbc
        rw [Input.ofByte_ascii]
        simp only [Leaf.nextAt, Leaf.step, Lit.step, if_true, Option.bind_some, ih,
          List.map_cons, List.cons_append, List.cons.injEq, true_and]
      · have hnone : (Leaf.lit (c :: rest)).nextAt (.ofByte b) = none := by
          unfold Input.ofByte
          split
          · rename_i hb
            have hne : (⟨b, hb⟩ : Ascii) ≠ c := fun h => hbc (congrArg Subtype.val h).symm
            simp [Leaf.nextAt, Leaf.step, Lit.step, hne]
          · rfl
        rw [hnone]
        simp [hbc]

theorem valueAt_lit {rest : List Ascii} {i : Input} :
    (Leaf.lit rest).valueAt i = some () ↔ rest = [] := by
  cases rest with
  | nil => simp [Leaf.valueAt, Leaf.step, Lit.step]
  | cons b rest =>
    cases i with
    | byte c =>
      simp only [Leaf.valueAt, Leaf.step, Lit.step]
      split_ifs <;> simp
    | _ => simp [Leaf.valueAt, Leaf.step, Lit.step]

theorem feed_kw {word : List Ascii} {pos : ℕ} {tag : Tag} {w : Str} {l : Leaf Unit} :
    (Leaf.kw word pos tag).feed w = some l ↔
      (w = [] ∨ w <+: (word.map (·.1)).drop pos) ∧ l = .kw word (pos + w.length) tag := by
  induction w generalizing pos with
  | nil =>
    change some _ = some l ↔ _
    rw [Option.some.injEq, eq_comm]
    simp
  | cons b w ih =>
    have hstep : ∀ m, (Leaf.kw word pos tag).nextAt (.ofByte b) = some m ↔
        (word.map (·.1))[pos]? = some b ∧ m = .kw word (pos + 1) tag := by
      intro m
      rw [List.getElem?_map]
      unfold Input.ofByte
      split
      · rename_i hb
        have hlt : ∀ c : Ascii, word[pos]? = some c → pos ≠ word.length := by
          intro c hc h
          rw [List.getElem?_eq_none (Nat.le_of_eq h.symm)] at hc
          cases hc
        simp only [Leaf.nextAt, Leaf.step, Kw.step]
        constructor
        · intro h
          by_cases hend : pos = word.length
          · rw [if_pos hend] at h
            split at h <;> simp_all
          · rw [if_neg hend] at h
            by_cases hc : word[pos]? = some ⟨b, hb⟩
            · rw [if_pos hc] at h
              exact ⟨by rw [hc]; rfl, (Option.some.inj h).symm⟩
            · rw [if_neg hc] at h
              cases h
        · rintro ⟨h, rfl⟩
          obtain ⟨c, hc, rfl⟩ := Option.map_eq_some_iff.mp h
          rw [if_neg (hlt c hc), if_pos hc]
      · rename_i hb
        simp only [Leaf.nextAt, Leaf.step, Kw.step]
        constructor
        · rintro ⟨⟩
        · rintro ⟨h, -⟩
          obtain ⟨c, -, rfl⟩ := Option.map_eq_some_iff.mp h
          exact absurd c.2 hb
    rw [Leaf.feed, Option.bind_eq_some_iff]
    have hdrop : b :: w <+: (word.map (·.1)).drop pos ↔
        (word.map (·.1))[pos]? = some b ∧ (w = [] ∨ w <+: (word.map (·.1)).drop (pos + 1)) := by
      have hhead : (word.map (·.1))[pos]? = ((word.map (·.1)).drop pos)[0]? := by
        rw [List.getElem?_drop, Nat.add_zero]
      rw [hhead, ← List.drop_drop]
      cases (word.map (·.1)).drop pos with
      | nil => simp
      | cons c t =>
        rw [List.cons_prefix_cons]
        simp only [List.getElem?_cons_zero, Option.some.injEq, List.drop_succ_cons,
          List.drop_zero]
        refine and_congr eq_comm ⟨Or.inr, ?_⟩
        rintro (rfl | h)
        · exact List.nil_prefix
        · exact h
    constructor
    · rintro ⟨m, hm, h⟩
      obtain ⟨hb, rfl⟩ := (hstep m).mp hm
      obtain ⟨hw, rfl⟩ := ih.mp h
      exact ⟨Or.inr (hdrop.mpr ⟨hb, hw⟩), by rw [List.length_cons]; congr 1; omega⟩
    · rintro ⟨h | h, rfl⟩
      · cases h
      · obtain ⟨hb, hw⟩ := hdrop.mp h
        refine ⟨_, (hstep _).mpr ⟨hb, rfl⟩, ih.mpr ⟨hw, ?_⟩⟩
        rw [List.length_cons]
        congr 1
        omega

theorem valueAt_kw {word : List Ascii} {pos : ℕ} {tag : Tag} {i : Input} :
    (Leaf.kw word pos tag).valueAt i = some () ↔ pos = word.length ∧ Ends i := by
  simp only [Leaf.valueAt, Leaf.step]
  cases i with
  | eof =>
    simp only [Kw.step, Ends, and_true]
    split_ifs <;> simp_all
  | text b => simp [Kw.step, Ends]
  | byte b =>
    simp only [Kw.step, Ends]
    split_ifs <;> simp_all

/-- The inputs that end white space. -/
def EndsWs : Input → Prop
  | .byte b => isWs b.1 = false
  | _ => True

theorem isWs_lt {b : UInt8} (h : isWs b = true) : b < 0x80 := by
  simp only [isWs, Bool.or_eq_true, Bool.and_eq_true, decide_eq_true_eq, beq_iff_eq] at h
  rcases h with ⟨-, h⟩ | rfl
  · exact UInt8.lt_of_le_of_lt h (by decide)
  · decide

@[simp] theorem endsWs_ofByte (b : UInt8) : EndsWs (.ofByte b) ↔ isWs b = false := by
  unfold Input.ofByte
  split
  · exact Iff.rfl
  · rename_i h
    constructor
    · intro _
      cases hb : isWs b with
      | false => rfl
      | true => exact absurd (isWs_lt hb) h
    · exact fun _ => trivial

theorem nextAt_ws (b : UInt8) :
    Leaf.ws.nextAt (.ofByte b) = if isWs b = true then some .ws else none := by
  unfold Input.ofByte
  split
  · simp only [Leaf.nextAt, Leaf.step, Ws.step]
    split_ifs <;> rfl
  · rename_i h
    rw [if_neg fun hb => h (isWs_lt hb)]
    rfl

theorem feed_ws {w : Str} {l : Leaf Unit} :
    Leaf.ws.feed w = some l ↔ (∀ b ∈ w, isWs b = true) ∧ l = .ws := by
  induction w with
  | nil =>
    change some _ = some l ↔ _
    rw [Option.some.injEq, eq_comm]
    simp
  | cons b w ih =>
    rw [Leaf.feed, nextAt_ws]
    by_cases hb : isWs b = true
    · rw [if_pos hb, Option.bind_some, ih]
      simp [hb]
    · rw [if_neg hb]
      simp [hb]

theorem valueAt_ws {i : Input} : Leaf.ws.valueAt i = some () ↔ EndsWs i := by
  cases i with
  | byte b =>
    simp only [Leaf.valueAt, Leaf.step, Ws.step, EndsWs]
    split_ifs <;> simp_all
  | _ => simp [Leaf.valueAt, Leaf.step, Ws.step, EndsWs]

theorem feed_commentRest (w : Str) : Leaf.commentRest.feed w = some .commentRest := by
  induction w with
  | nil => rfl
  | cons b w ih =>
    have hstep : Leaf.commentRest.nextAt (.ofByte b) = some .commentRest := by
      unfold Input.ofByte
      split <;> rfl
    rw [Leaf.feed, hstep, Option.bind_some, ih]

theorem valueAt_commentRest {i : Input} : Leaf.commentRest.valueAt i = some () ↔ i = .eof := by
  cases i <;> simp [Leaf.valueAt, Leaf.step, CommentRest.step]

namespace Parser

theorem run_lit {bytes : List Ascii} {w : Str} {i : Input} {v : Unit} :
    (lit bytes : Parser Nt Unit).run w i = some v ↔ w = bytes.map (·.1) := by
  rw [lit, run_leaf, Option.bind_eq_some_iff]
  constructor
  · rintro ⟨l, hl, hv⟩
    obtain ⟨r, hr, rfl⟩ := feed_lit.mp hl
    rw [valueAt_lit.mp hv] at hr
    simpa using hr.symm
  · rintro rfl
    exact ⟨.lit [], feed_lit.mpr ⟨[], by simp, rfl⟩, valueAt_lit.mpr rfl⟩

theorem run_kw {word : List Ascii} {tag : Tag} {w : Str} {i : Input} {v : Unit} :
    (kw word tag : Parser Nt Unit).run w i = some v ↔ w = word.map (·.1) ∧ Ends i := by
  rw [kw, run_leaf, Option.bind_eq_some_iff]
  constructor
  · rintro ⟨l, hl, hv⟩
    obtain ⟨hw, rfl⟩ := feed_kw.mp hl
    obtain ⟨hlen, hi⟩ := valueAt_kw.mp hv
    rw [Nat.zero_add] at hlen
    rcases hw with rfl | hw
    · exact ⟨by rw [List.length_eq_zero_iff.mp hlen.symm]; rfl, hi⟩
    · exact ⟨List.IsPrefix.eq_of_length hw (by simpa using hlen), hi⟩
  · rintro ⟨rfl, hi⟩
    exact ⟨_, feed_kw.mpr ⟨Or.inr (List.prefix_refl _), rfl⟩,
      valueAt_kw.mpr ⟨by simp, hi⟩⟩

theorem run_ws {w : Str} {i : Input} {v : Unit} :
    (ws : Parser Nt Unit).run w i = some v ↔ (∀ b ∈ w, isWs b = true) ∧ EndsWs i := by
  rw [ws, run_leaf, Option.bind_eq_some_iff]
  constructor
  · rintro ⟨l, hl, hv⟩
    obtain ⟨hw, rfl⟩ := feed_ws.mp hl
    exact ⟨hw, valueAt_ws.mp hv⟩
  · exact fun ⟨hw, hi⟩ => ⟨.ws, feed_ws.mpr ⟨hw, rfl⟩, valueAt_ws.mpr hi⟩

theorem run_commentRest {w : Str} {i : Input} {v : Unit} :
    (commentRest : Parser Nt Unit).run w i = some v ↔ i = .eof := by
  rw [commentRest, run_leaf, feed_commentRest, Option.bind_some]
  exact valueAt_commentRest

theorem run_fail {w : Str} {i : Input} : (fail : Parser Nt α).run w i = none := by
  cases w <;> rfl

end Parser

theorem WordEntry.byteAt_eq (entry : WordEntry) (pos : ℕ) (b : Ascii) :
    entry.byteAt pos = some b ↔ entry.word[pos]? = some b.1 := by
  unfold WordEntry.byteAt
  split
  · rename_i h
    rw [List.getElem?_eq_getElem h, Option.some.injEq, Option.some.injEq, Subtype.ext_iff]
  · rename_i h
    rw [List.getElem?_eq_none (Nat.le_of_not_lt h)]
    simp

/-- The entries that a text can still become. -/
def WordEntry.extending (alive : List WordEntry) (w : Str) : List WordEntry :=
  alive.filter fun entry => w.isPrefixOf entry.word

theorem WordEntry.extending_concat (alive : List WordEntry) (w : Str) (b : UInt8) :
    extending alive (w ++ [b]) =
      (extending alive w).filter fun entry => entry.word[w.length]? == some b := by
  rw [extending, extending, List.filter_filter]
  apply List.filter_congr
  intro entry _
  rw [Bool.eq_iff_iff, Bool.and_eq_true, List.isPrefixOf_iff_prefix, List.isPrefixOf_iff_prefix,
    Word.prefix_concat_iff, beq_iff_eq, and_comm]

/-- The bytes of an entry are word bytes. -/
theorem WordEntry.isWordByte_of_begins {entry : WordEntry} {w : Str} {b : UInt8}
    (h : w <+: entry.word) (hb : b ∈ w) : isWordByte b = true :=
  isWordByte_of_entry entry.isWord (h.subset hb)

theorem boundary_of_isWordByte {b : UInt8} (h : isWordByte b = true) :
    isBoundaryByte b = false := by
  simpa using (Bool.and_eq_true_iff.mp h).2

/-- What is the beginning of an entry is the beginning of a bare word. -/
theorem WordEntry.wordPrefix {entry : WordEntry} {w : Str} (h : w <+: entry.word) :
    WordPrefix true w := by
  have hent := entry.isWord
  simp only [entryIsWord, Bool.and_eq_true, Bool.not_eq_true', beq_eq_false_iff_ne] at hent
  refine ⟨fun b hb => boundary_of_isWordByte (isWordByte_of_begins h hb), fun _ => ?_, fun _ hd => ?_⟩
  · obtain ⟨t, ht⟩ := h
    cases w with
    | nil => exact ⟨by rintro ⟨⟩, by rintro ⟨⟩⟩
    | cons c w =>
      have hhead : entry.word.head? = some c := by rw [← ht]; rfl
      rw [hhead] at hent
      exact ⟨hent.1.1.2, hent.1.2⟩
  · have hflag := hent.2
    rw [← Bool.not_eq_true, List.isPrefixOf_iff_prefix] at hflag
    exact hflag (hd.trans h)

theorem nextAt_overlay {alive : List WordEntry} {w : Str} {b : UInt8} {l : Leaf α} :
    (Leaf.overlay (α := α) (WordEntry.extending alive w) w.length).nextAt (.ofByte b) = some l ↔
      WordEntry.extending alive (w ++ [b]) ≠ [] ∧
        l = .overlay (WordEntry.extending alive (w ++ [b])) (w.length + 1) := by
  have hword : WordEntry.extending alive (w ++ [b]) ≠ [] → isWordByte b = true := by
    intro h
    obtain ⟨entry, hentry⟩ := List.exists_mem_of_ne_nil _ h
    have hpre := (List.mem_filter.mp hentry).2
    rw [List.isPrefixOf_iff_prefix] at hpre
    exact WordEntry.isWordByte_of_begins hpre (by simp)
  unfold Input.ofByte
  split
  · rename_i hb
    have heq : ((WordEntry.extending alive w).filter fun entry =>
        entry.byteAt w.length == some ⟨b, hb⟩) = WordEntry.extending alive (w ++ [b]) := by
      rw [WordEntry.extending_concat]
      apply List.filter_congr
      intro entry _
      rw [Bool.eq_iff_iff, beq_iff_eq, beq_iff_eq, WordEntry.byteAt_eq]
    simp only [Leaf.nextAt, Leaf.step, Overlay.step, heq]
    cases hbound : isBoundaryByte b with
    | true =>
      constructor
      · rintro ⟨⟩
      · rintro ⟨h, -⟩
        rw [boundary_of_isWordByte (hword h)] at hbound
        cases hbound
    | false =>
      cases WordEntry.extending alive (w ++ [b]) with
      | nil => simp
      | cons e es => simp [eq_comm]
  · rename_i hb
    constructor
    · rintro ⟨⟩
    · rintro ⟨h, -⟩
      exact absurd (ascii_of_isWordByte (hword h)) hb

theorem feed_overlay {alive : List WordEntry} {w : Str} {l : Leaf α} :
    (Leaf.overlay (α := α) alive 0).feed w = some l ↔
      (w = [] ∨ WordEntry.extending alive w ≠ []) ∧
        l = .overlay (WordEntry.extending alive w) w.length := by
  induction w using List.reverseRecOn generalizing l with
  | nil =>
    have hall : WordEntry.extending alive [] = alive := by simp [WordEntry.extending]
    change some _ = some l ↔ _
    rw [Option.some.injEq, eq_comm, hall]
    simp
  | append_singleton w b ih =>
    rw [Leaf.feed_concat, Option.bind_eq_some_iff, List.length_append, List.length_singleton]
    constructor
    · rintro ⟨m, hm, h⟩
      obtain ⟨-, rfl⟩ := ih.mp hm
      obtain ⟨hne, rfl⟩ := nextAt_overlay.mp h
      exact ⟨Or.inr hne, rfl⟩
    · rintro ⟨h | h, rfl⟩
      · simp at h
      · refine ⟨_, ih.mpr ⟨?_, rfl⟩, nextAt_overlay.mpr ⟨h, rfl⟩⟩
        apply Or.inr
        intro hnil
        rw [WordEntry.extending_concat, hnil] at h
        exact h rfl

theorem valueAt_overlay {alive : List WordEntry} {pos : ℕ} {i : Input} :
    (Leaf.overlay (α := α) alive pos).valueAt i = none := by
  cases i with
  | byte b =>
    simp only [Leaf.valueAt, Leaf.step, Overlay.step]
    split_ifs
    · rfl
    · cases alive.filter fun entry => entry.byteAt pos == some b <;> rfl
  | _ => rfl

namespace Parser

/-- An overlay reads nothing. -/
theorem run_overlay {vocab : List HintEntry} {w : Str} {i : Input} :
    (overlayWords vocab : Parser Nt α).run w i = none := by
  rw [overlayWords, run_leaf]
  cases hl : (Leaf.overlay (α := α) (wordEntries vocab) 0).feed w with
  | none => rfl
  | some l =>
    obtain ⟨-, rfl⟩ := feed_overlay.mp hl
    exact valueAt_overlay

/-- An overlay lives on the beginnings of its entries. -/
theorem lives_overlay {vocab : List HintEntry} {w : Str} :
    (overlayWords vocab : Parser Nt α).Lives w ↔
      w = [] ∨ ∃ entry ∈ wordEntries vocab, w <+: entry.word := by
  rw [overlayWords, lives_leaf, Option.isSome_iff_exists]
  have hext : WordEntry.extending (wordEntries vocab) w ≠ [] ↔
      ∃ entry ∈ wordEntries vocab, w <+: entry.word := by
    simp [WordEntry.extending, List.filter_eq_nil_iff]
  rw [← hext]
  exact ⟨fun ⟨_, hl⟩ => (feed_overlay.mp hl).1, fun h => ⟨_, feed_overlay.mpr ⟨h, rfl⟩⟩⟩

end Parser

end Eo9.Eosh
