import Eo9.Eosh.Lexical

/-!
# Quoted strings and balanced literals

The texts that the two literal parsers read. A quoted string stands for the text
between its quotes, with the escapes decoded; a balanced literal stands for
itself, and ends where its brackets balance.
-/

namespace Eo9.Eosh

open Eo9.Library

variable {Nt : Type → Type} {α : Type} [Productions Nt]

/-- The inside of a quoted string, and the text it stands for. -/
inductive Unquotes : Str → Str → Prop where
  | nil : Unquotes [] []
  | plain {b : UInt8} {w t : Str} (hquote : b ≠ ch '\"') (hescape : b ≠ ch '\\')
      (rest : Unquotes w t) : Unquotes (b :: w) (b :: t)
  | escape {b c : UInt8} {w t : Str} (hb : unescape b = some c) (rest : Unquotes w t) :
      Unquotes (ch '\\' :: b :: w) (c :: t)

/-- A quoted string and the text it stands for. -/
def QuotedText (w t : Str) : Prop := ∃ raw, w = ch '\"' :: (raw ++ [ch '\"']) ∧ Unquotes raw t

theorem unescape_lt {b c : UInt8} (h : unescape b = some c) : b < 0x80 := by
  unfold unescape at h
  split_ifs at h with h₁ h₂ h₃ h₄ h₅
  · rw [h₁]; decide
  · rw [h₂]; decide
  · rw [h₃]; decide
  · rw [h₄]; decide
  · rw [h₅]; decide

theorem unescape_value_lt {b c : UInt8} (h : unescape b = some c) : c < 0x80 := by
  unfold unescape at h
  split_ifs at h <;> cases h <;> decide

theorem quote_val : quote.1 = ch '\"' := rfl

/-- One byte inside a quoted string. -/
theorem nextAt_body (text : Str) (b : UInt8) :
    (Leaf.capQuoted .body text).nextAt (.ofByte b) =
      if b = ch '\"' then some (.capQuoted .finished text)
      else if b = ch '\\' then some (.capQuoted .escape text)
      else some (.capQuoted .body (text ++ [b])) := by
  unfold Input.ofByte
  split
  · simp only [Leaf.nextAt, Leaf.step, CapQuoted.step, Subtype.ext_iff, quote_val]
    split_ifs <;> rfl
  · rename_i hb
    rw [if_neg (by rintro rfl; exact hb (by decide)), if_neg (by rintro rfl; exact hb (by decide))]
    rfl

theorem nextAt_escape (text : Str) (b : UInt8) :
    (Leaf.capQuoted .escape text).nextAt (.ofByte b) =
      (unescape b).map fun c => .capQuoted .body (text ++ [c]) := by
  unfold Input.ofByte
  split
  · simp only [Leaf.nextAt, Leaf.step, CapQuoted.step]
    cases unescape b <;> rfl
  · rename_i hb
    cases h : unescape b with
    | none => rfl
    | some c => exact absurd (unescape_lt h) hb

theorem nextAt_finished (text : Str) (b : UInt8) :
    (Leaf.capQuoted .finished text).nextAt (.ofByte b) = none := by
  unfold Input.ofByte
  split <;> rfl

/-- How the inside of a quoted string is finished, from its two states. -/
theorem feed_quoted (w acc text : Str) :
    ((Leaf.capQuoted .body acc).feed w = some (.capQuoted .finished text) ↔
        ∃ raw t, w = raw ++ [ch '\"'] ∧ Unquotes raw t ∧ text = acc ++ t) ∧
      ((Leaf.capQuoted .escape acc).feed w = some (.capQuoted .finished text) ↔
        ∃ b c raw t, w = b :: (raw ++ [ch '\"']) ∧ unescape b = some c ∧ Unquotes raw t ∧
          text = acc ++ c :: t) := by
  induction w generalizing acc with
  | nil =>
    refine ⟨⟨fun h => ?_, ?_⟩, ⟨fun h => ?_, ?_⟩⟩
    · cases Option.some.inj h
    · rintro ⟨raw, t, h, -⟩
      simp at h
    · cases Option.some.inj h
    · rintro ⟨b, c, raw, t, h, -⟩
      cases h
  | cons b w ih =>
    rw [Leaf.feed, Leaf.feed, nextAt_body, nextAt_escape]
    constructor
    · by_cases hq : b = ch '\"'
      · rw [if_pos hq, Option.bind_some]
        constructor
        · intro h
          cases w with
          | nil =>
            cases Option.some.inj h
            exact ⟨[], [], by rw [hq]; rfl, .nil, by simp⟩
          | cons c w =>
            rw [Leaf.feed, nextAt_finished] at h
            cases h
        · rintro ⟨raw, t, h, hraw, rfl⟩
          cases hraw with
          | nil =>
            obtain ⟨-, rfl⟩ := List.cons.inj h
            simp [Leaf.feed]
          | plain hb _ _ =>
            obtain ⟨rfl, -⟩ := List.cons.inj h
            exact absurd hq hb
          | escape _ _ =>
            obtain ⟨rfl, -⟩ := List.cons.inj h
            exact absurd hq (by decide)
      · rw [if_neg hq]
        by_cases he : b = ch '\\'
        · rw [if_pos he, Option.bind_some, (ih acc).2]
          constructor
          · rintro ⟨c, d, raw, t, rfl, hd, hraw, rfl⟩
            exact ⟨b :: c :: raw, d :: t, rfl, he ▸ .escape hd hraw, rfl⟩
          · rintro ⟨raw, t, h, hraw, rfl⟩
            cases hraw with
            | nil => exact absurd (List.cons.inj h).1 hq
            | plain _ hb _ =>
              obtain ⟨rfl, -⟩ := List.cons.inj h
              exact absurd he hb
            | escape hd hraw =>
              obtain ⟨-, rfl⟩ := List.cons.inj h
              exact ⟨_, _, _, _, rfl, hd, hraw, rfl⟩
        · rw [if_neg he, Option.bind_some, (ih (acc ++ [b])).1]
          constructor
          · rintro ⟨raw, t, rfl, hraw, rfl⟩
            exact ⟨b :: raw, b :: t, rfl, .plain hq he hraw, by simp⟩
          · rintro ⟨raw, t, h, hraw, rfl⟩
            cases hraw with
            | nil => exact absurd (List.cons.inj h).1 hq
            | plain _ _ hraw =>
              obtain ⟨rfl, rfl⟩ := List.cons.inj h
              exact ⟨_, _, rfl, hraw, by simp⟩
            | escape _ _ => exact absurd (List.cons.inj h).1 he
    · cases hu : unescape b with
      | none =>
        constructor
        · rintro ⟨⟩
        · rintro ⟨c, d, raw, t, h, hd, -⟩
          obtain ⟨rfl, -⟩ := List.cons.inj h
          rw [hu] at hd
          cases hd
      | some c =>
        rw [Option.map_some, Option.bind_some, (ih (acc ++ [c])).1]
        constructor
        · rintro ⟨raw, t, rfl, hraw, rfl⟩
          exact ⟨b, c, raw, t, rfl, hu, hraw, by simp⟩
        · rintro ⟨b', c', raw, t, h, hd, hraw, rfl⟩
          obtain ⟨rfl, rfl⟩ := List.cons.inj h
          rw [hu] at hd
          cases hd
          exact ⟨raw, t, rfl, hraw, by simp⟩

theorem valueAt_capQuoted {state : QuotedState} {text : Str} {i : Input} {v : Str} :
    (Leaf.capQuoted state text).valueAt i = some v ↔ state = .finished ∧ v = Utf8.lossy text := by
  cases i with
  | eof =>
    simp only [Leaf.valueAt, Leaf.step, CapQuoted.step]
    split_ifs with h <;> simp [h, eq_comm]
  | text b => cases state <;> simp [Leaf.valueAt, Leaf.step, CapQuoted.step, eq_comm]
  | byte b =>
    cases state with
    | opening =>
      simp only [Leaf.valueAt, Leaf.step, CapQuoted.step]
      split_ifs <;> simp
    | body =>
      simp only [Leaf.valueAt, Leaf.step, CapQuoted.step]
      split_ifs <;> simp
    | escape =>
      simp only [Leaf.valueAt, Leaf.step, CapQuoted.step]
      cases unescape b.1 <;> simp
    | finished => simp [Leaf.valueAt, Leaf.step, CapQuoted.step, eq_comm]

theorem nextAt_opening (text : Str) (b : UInt8) :
    (Leaf.capQuoted .opening text).nextAt (.ofByte b) =
      if b = ch '\"' then some (.capQuoted .body text) else none := by
  unfold Input.ofByte
  split
  · simp only [Leaf.nextAt, Leaf.step, CapQuoted.step, Subtype.ext_iff, quote_val]
    split_ifs <;> rfl
  · rename_i hb
    rw [if_neg (by rintro rfl; exact hb (by decide))]
    rfl

theorem feed_capQuoted_form {state : QuotedState} {text w : Str} {l : Leaf Str}
    (h : (Leaf.capQuoted state text).feed w = some l) :
    ∃ state' text', l = .capQuoted state' text' := by
  induction w generalizing state text with
  | nil => exact ⟨state, text, (Option.some.inj h).symm⟩
  | cons b w ih =>
    obtain ⟨m, hm, h⟩ := Option.bind_eq_some_iff.mp h
    cases state with
    | opening =>
      rw [nextAt_opening] at hm
      split_ifs at hm
      cases hm
      exact ih h
    | body =>
      rw [nextAt_body] at hm
      split_ifs at hm <;> cases hm <;> exact ih h
    | escape =>
      rw [nextAt_escape] at hm
      obtain ⟨c, -, rfl⟩ := Option.map_eq_some_iff.mp hm
      exact ih h
    | finished =>
      rw [nextAt_finished] at hm
      cases hm

namespace Parser

/-- A quoted string reads the text it stands for, whatever follows. -/
theorem run_capQuoted {w : Str} {i : Input} {v : Str} :
    (capQuoted : Parser Nt Str).run w i = some v ↔ ∃ t, QuotedText w t ∧ v = Utf8.lossy t := by
  rw [capQuoted, run_leaf, Option.bind_eq_some_iff]
  constructor
  · rintro ⟨l, hl, hv⟩
    obtain ⟨state, text, rfl⟩ := feed_capQuoted_form hl
    obtain ⟨rfl, rfl⟩ := valueAt_capQuoted.mp hv
    cases w with
    | nil => cases Option.some.inj hl
    | cons b w =>
      rw [Leaf.feed, nextAt_opening] at hl
      by_cases hb : b = ch '\"'
      · rw [if_pos hb, Option.bind_some] at hl
        obtain ⟨raw, t, rfl, hraw, rfl⟩ := (feed_quoted w [] text).1.mp hl
        exact ⟨_, ⟨raw, by rw [hb], hraw⟩, rfl⟩
      · rw [if_neg hb] at hl
        cases hl
  · rintro ⟨t, ⟨raw, rfl, hraw⟩, rfl⟩
    refine ⟨.capQuoted .finished t, ?_, valueAt_capQuoted.mpr ⟨rfl, rfl⟩⟩
    rw [Leaf.feed, nextAt_opening, if_pos rfl, Option.bind_some]
    exact (feed_quoted _ [] t).1.mpr ⟨raw, t, rfl, hraw, rfl⟩

end Parser

/-- The rest of a string inside a literal, up to its closing quote. -/
inductive InString : Str → Prop where
  | close : InString [ch '\"']
  | plain {b : UInt8} {w : Str} (hquote : b ≠ ch '\"') (hescape : b ≠ ch '\\')
      (rest : InString w) : InString (b :: w)
  | escape {b : UInt8} {w : Str} (rest : InString w) : InString (ch '\\' :: b :: w)

/-- The rest of a literal with `depth` open brackets, up to the last closing one. -/
inductive Closes : ℕ → Str → Prop where
  | last {b : UInt8} (hb : IsClose b) : Closes 1 [b]
  | close {b : UInt8} {depth : ℕ} {w : Str} (hb : IsClose b) (rest : Closes (depth + 1) w) :
      Closes (depth + 2) (b :: w)
  | «open» {b : UInt8} {depth : ℕ} {w : Str} (hb : IsOpen b) (rest : Closes (depth + 2) w) :
      Closes (depth + 1) (b :: w)
  | string {depth : ℕ} {s w : Str} (hs : InString s) (rest : Closes (depth + 1) w) :
      Closes (depth + 1) (ch '\"' :: (s ++ w))
  | plain {b : UInt8} {depth : ℕ} {w : Str} (hopen : ¬ IsOpen b) (hclose : ¬ IsClose b)
      (hquote : b ≠ ch '\"') (rest : Closes (depth + 1) w) : Closes (depth + 1) (b :: w)

/-- A balanced literal. -/
def CompoundText (w : Str) : Prop := ∃ b rest, w = b :: rest ∧ IsOpen b ∧ Closes 1 rest

theorem IsOpen.lt {b : UInt8} (h : IsOpen b) : b < 0x80 := by
  rcases h with rfl | rfl <;> decide

theorem IsClose.lt {b : UInt8} (h : IsClose b) : b < 0x80 := by
  rcases h with rfl | rfl <;> decide

theorem nextAt_capCompound (state : CompoundState) (text : Str) (b : UInt8) :
    (Leaf.capCompound state text).nextAt (.ofByte b) =
      (state.next b).map fun next => .capCompound next (text ++ [b]) := by
  by_cases hfin : state = .finished
  · subst hfin
    unfold Input.ofByte
    split <;> rfl
  unfold Input.ofByte
  split
  · simp only [Leaf.nextAt, Leaf.step, CapCompound.step, if_neg hfin]
    generalize state.next b = o
    cases o <;> rfl
  · rename_i hb
    have hne : ∀ c : UInt8, c < 0x80 → b ≠ c := fun c hc h => hb (h ▸ hc)
    have hopen : ¬ IsOpen b := fun h => hb h.lt
    have hclose : ¬ IsClose b := fun h => hb h.lt
    have htext : state.nextText = state.next b := by
      cases state <;>
        simp [CompoundState.nextText, CompoundState.next, hopen, hclose,
          hne (ch '\"') (by decide), hne (ch '\\') (by decide)]
    simp only [Leaf.nextAt, Leaf.step, CapCompound.step, if_neg hfin, htext]
    generalize state.next b = o
    cases o <;> rfl

/-- The rest of a literal inside a string. -/
def StringCloses (depth : ℕ) (w : Str) : Prop :=
  ∃ s t, w = s ++ t ∧ InString s ∧ Closes (depth + 1) t

theorem closes_cons {depth : ℕ} {b : UInt8} {w : Str} :
    Closes (depth + 1) (b :: w) ↔
      if IsOpen b then Closes (depth + 2) w
      else if IsClose b then if depth = 0 then w = [] else Closes depth w
      else if b = ch '\"' then StringCloses depth w
      else Closes (depth + 1) w := by
  constructor
  · intro h
    cases h with
    | last hb =>
      have hopen : ¬ IsOpen b := by rcases hb with rfl | rfl <;> decide
      rw [if_neg hopen, if_pos hb, if_pos rfl]
    | close hb rest =>
      have hopen : ¬ IsOpen b := by rcases hb with rfl | rfl <;> decide
      rw [if_neg hopen, if_pos hb, if_neg (Nat.succ_ne_zero _)]
      exact rest
    | «open» hb rest => rwa [if_pos hb]
    | string hs rest =>
      rw [if_neg (by decide), if_neg (by decide), if_pos rfl]
      exact ⟨_, _, rfl, hs, rest⟩
    | plain hopen hclose hquote rest => rwa [if_neg hopen, if_neg hclose, if_neg hquote]
  · intro h
    split_ifs at h with hopen hclose hdepth hquote
    · exact .open hopen h
    · subst hdepth
      rw [h]
      exact .last hclose
    · obtain ⟨d, rfl⟩ := Nat.exists_eq_succ_of_ne_zero hdepth
      exact .close hclose h
    · obtain ⟨s, t, rfl, hs, ht⟩ := h
      rw [hquote]
      exact .string hs ht
    · exact .plain hopen hclose hquote h

theorem stringCloses_cons {depth : ℕ} {b : UInt8} {w : Str} :
    StringCloses depth (b :: w) ↔
      if b = ch '\"' then Closes (depth + 1) w
      else if b = ch '\\' then ∃ c t, w = c :: t ∧ StringCloses depth t
      else StringCloses depth w := by
  constructor
  · rintro ⟨s, t, h, hs, ht⟩
    cases hs with
    | close =>
      obtain ⟨rfl, rfl⟩ := List.cons.inj h
      rwa [if_pos rfl]
    | plain hquote hescape rest =>
      obtain ⟨rfl, rfl⟩ := List.cons.inj h
      rw [if_neg hquote, if_neg hescape]
      exact ⟨_, t, rfl, rest, ht⟩
    | escape rest =>
      obtain ⟨rfl, rfl⟩ := List.cons.inj h
      rw [if_neg (by decide), if_pos rfl]
      exact ⟨_, _, rfl, _, t, rfl, rest, ht⟩
  · intro h
    split_ifs at h with hquote hescape
    · exact ⟨[ch '\"'], w, by rw [hquote]; rfl, .close, h⟩
    · obtain ⟨c, u, rfl, s, t, rfl, hs, ht⟩ := h
      exact ⟨_, t, by rw [hescape]; rfl, .escape hs, ht⟩
    · obtain ⟨s, t, rfl, hs, ht⟩ := h
      exact ⟨b :: s, t, rfl, .plain hquote hescape hs, ht⟩

/-- How a literal is finished, from each of its inner states. -/
theorem feed_compound (w acc text : Str) (depth : ℕ) :
    ((Leaf.capCompound (.plain (depth + 1)) acc).feed w = some (.capCompound .finished text) ↔
        Closes (depth + 1) w ∧ text = acc ++ w) ∧
      ((Leaf.capCompound (.str (depth + 1)) acc).feed w = some (.capCompound .finished text) ↔
        StringCloses depth w ∧ text = acc ++ w) ∧
      ((Leaf.capCompound (.strEscape (depth + 1)) acc).feed w =
          some (.capCompound .finished text) ↔
        (∃ b t, w = b :: t ∧ StringCloses depth t) ∧ text = acc ++ w) := by
  induction w generalizing acc depth with
  | nil =>
    refine ⟨⟨by rintro ⟨⟩, ?_⟩, ⟨by rintro ⟨⟩, ?_⟩, ⟨by rintro ⟨⟩, ?_⟩⟩
    · rintro ⟨h, -⟩
      cases h
    · rintro ⟨⟨s, t, h, hs, -⟩, -⟩
      obtain ⟨rfl, rfl⟩ := List.append_eq_nil_iff.mp h.symm
      cases hs
    · rintro ⟨⟨b, t, h, -⟩, -⟩
      cases h
  | cons b w ih =>
    have happ : acc ++ b :: w = acc ++ [b] ++ w := by simp
    rw [Leaf.feed, Leaf.feed, Leaf.feed, nextAt_capCompound, nextAt_capCompound,
      nextAt_capCompound, happ, closes_cons, stringCloses_cons]
    refine ⟨?_, ?_, ?_⟩
    · by_cases hopen : IsOpen b
      · have hnext : (CompoundState.plain (depth + 1)).next b = some (.plain (depth + 2)) :=
          if_pos hopen
        rw [hnext, if_pos hopen]
        exact (ih _ (depth + 1)).1
      by_cases hclose : IsClose b
      · rw [if_neg hopen, if_pos hclose]
        cases depth with
        | zero =>
          have hnext : (CompoundState.plain 1).next b = some .finished := by
            rw [CompoundState.next, if_neg hopen, if_pos hclose, if_pos rfl]
          rw [hnext, if_pos rfl, Option.map_some, Option.bind_some]
          cases w with
          | nil => simp [Leaf.feed, eq_comm]
          | cons c w =>
            rw [Leaf.feed, nextAt_capCompound]
            constructor
            · rintro ⟨⟩
            · rintro ⟨h, -⟩
              cases h
        | succ depth =>
          have hnext : (CompoundState.plain (depth + 2)).next b = some (.plain (depth + 1)) := by
            rw [CompoundState.next, if_neg hopen, if_pos hclose, if_neg (by omega)]
            rfl
          rw [hnext, if_neg (Nat.succ_ne_zero _)]
          exact (ih _ depth).1
      by_cases hquote : b = ch '\"'
      · have hnext : (CompoundState.plain (depth + 1)).next b = some (.str (depth + 1)) := by
          rw [CompoundState.next, if_neg hopen, if_neg hclose, if_pos hquote]
        rw [hnext, if_neg hopen, if_neg hclose, if_pos hquote]
        exact (ih _ depth).2.1
      · have hnext : (CompoundState.plain (depth + 1)).next b = some (.plain (depth + 1)) := by
          rw [CompoundState.next, if_neg hopen, if_neg hclose, if_neg hquote]
        rw [hnext, if_neg hopen, if_neg hclose, if_neg hquote]
        exact (ih _ depth).1
    · by_cases hquote : b = ch '\"'
      · have hnext : (CompoundState.str (depth + 1)).next b = some (.plain (depth + 1)) :=
          if_pos hquote
        rw [hnext, if_pos hquote]
        exact (ih _ depth).1
      by_cases hescape : b = ch '\\'
      · have hnext : (CompoundState.str (depth + 1)).next b = some (.strEscape (depth + 1)) := by
          rw [CompoundState.next, if_neg hquote, if_pos hescape]
        rw [hnext, if_neg hquote, if_pos hescape]
        exact (ih _ depth).2.2
      · have hnext : (CompoundState.str (depth + 1)).next b = some (.str (depth + 1)) := by
          rw [CompoundState.next, if_neg hquote, if_neg hescape]
        rw [hnext, if_neg hquote, if_neg hescape]
        exact (ih _ depth).2.1
    · have hcons : (∃ c t, b :: w = c :: t ∧ StringCloses depth t) ↔ StringCloses depth w := by
        simp
      rw [hcons]
      exact (ih _ depth).2.1

theorem feed_capCompound_form {state : CompoundState} {text w : Str} {l : Leaf Str}
    (h : (Leaf.capCompound state text).feed w = some l) :
    ∃ state' text', l = .capCompound state' text' := by
  induction w generalizing state text with
  | nil => exact ⟨state, text, (Option.some.inj h).symm⟩
  | cons b w ih =>
    obtain ⟨m, hm, h⟩ := Option.bind_eq_some_iff.mp h
    rw [nextAt_capCompound] at hm
    obtain ⟨next, -, rfl⟩ := Option.map_eq_some_iff.mp hm
    exact ih h

theorem valueAt_capCompound {state : CompoundState} {text : Str} {i : Input} {v : Str} :
    (Leaf.capCompound state text).valueAt i = some v ↔ state = .finished ∧ v = Utf8.lossy text := by
  by_cases hfin : state = .finished
  · subst hfin
    cases i <;> simp [Leaf.valueAt, Leaf.step, CapCompound.step, eq_comm]
  · have hnone : ∀ o : Option CompoundState, ∀ t : Str,
        o.map (fun next => LeafStep.advance (.capCompound next t)) ≠ some (.finish v) := by
      intro o t
      cases o <;> simp
    simp only [hfin, false_and, iff_false]
    intro h
    simp only [Leaf.valueAt, Leaf.step] at h
    cases i with
    | eof => simp [CapCompound.step, hfin] at h
    | text b =>
      simp only [CapCompound.step, if_neg hfin] at h
      cases hn : state.nextText <;> simp [hn] at h
    | byte b =>
      simp only [CapCompound.step, if_neg hfin] at h
      cases hn : state.next b.1 <;> simp [hn] at h

namespace Parser

/-- A balanced literal reads itself, whatever follows. -/
theorem run_capCompound {w : Str} {i : Input} {v : Str} :
    (capCompound : Parser Nt Str).run w i = some v ↔ CompoundText w ∧ v = Utf8.lossy w := by
  rw [capCompound, run_leaf, Option.bind_eq_some_iff]
  constructor
  · rintro ⟨l, hl, hv⟩
    obtain ⟨state, text, rfl⟩ := feed_capCompound_form hl
    obtain ⟨rfl, rfl⟩ := valueAt_capCompound.mp hv
    cases w with
    | nil => cases Option.some.inj hl
    | cons b w =>
      rw [Leaf.feed, nextAt_capCompound] at hl
      by_cases hopen : IsOpen b
      · have hnext : CompoundState.opening.next b = some (.plain 1) := if_pos hopen
        rw [hnext] at hl
        obtain ⟨hclose, rfl⟩ := (feed_compound w [b] text 0).1.mp hl
        exact ⟨⟨b, w, rfl, hopen, hclose⟩, rfl⟩
      · have hnext : CompoundState.opening.next b = none := if_neg hopen
        rw [hnext] at hl
        cases hl
  · rintro ⟨⟨b, rest, rfl, hopen, hclose⟩, rfl⟩
    refine ⟨.capCompound .finished (b :: rest), ?_, valueAt_capCompound.mpr ⟨rfl, rfl⟩⟩
    have hnext : CompoundState.opening.next b = some (.plain 1) := if_pos hopen
    rw [Leaf.feed, nextAt_capCompound, hnext]
    exact (feed_compound rest [b] _ 0).1.mpr ⟨hclose, rfl⟩

end Parser

end Eo9.Eosh
