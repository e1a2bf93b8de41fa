import Eo9.Eosh.Lexical
import Eo9.Eosh.Tame

/-!
# Room ahead

How far a state is from the next choice. Literals and keywords force their bytes;
behind each of them the grammar lets the line end, or takes white space or a word.
A state of this kind has room: if anything can follow it at all, then a choice is
at most the rest of one literal away. Stepping keeps the room.
-/

namespace Eo9.Eosh

open Eo9.Library

variable {Nt : Type → Type} {α β : Type} [Productions Nt]

open Productions (build)

def spaceByte : Ascii := ⟨ch ' ', by decide⟩

def tabByte : Ascii := ⟨ch '\t', by decide⟩

def letterX : Ascii := ⟨ch 'x', by decide⟩

def letterY : Ascii := ⟨ch 'y', by decide⟩

/-- A byte of a word that means nothing else. -/
def IsLetter (b : Ascii) : Prop := b = letterX ∨ b = letterY

theorem IsLetter.takes {b : Ascii} (h : IsLetter b) : isBoundaryByte b.1 = false ∧
    isWs b.1 = false ∧ b ≠ openBracket ∧ b ≠ openBrace ∧ b ≠ dash ∧ b ≠ quote ∧ b.1 ≠ ch '\\' ∧
      b.1 ≠ ch '\"' ∧ ¬ IsOpen b.1 ∧ ¬ IsClose b.1 := by
  rcases h with rfl | rfl
  · decide
  · decide

theorem letterX_ne : letterX ≠ letterY := by decide

theorem spaceByte_ne : spaceByte ≠ tabByte := by decide

theorem Word.takes_letter (word : Word) {b : Ascii} (hb : IsLetter b) : word.takes b = true := by
  obtain ⟨hboundary, -, hbracket, hbrace, hdash, -⟩ := hb.takes
  simp [Word.takes, hboundary, beq_false_of_ne hbracket, beq_false_of_ne hbrace,
    beq_false_of_ne hdash]

theorem CompoundState.next_letter {state : CompoundState} {b : Ascii} (hb : IsLetter b)
    (hopening : state ≠ .opening) (hfinished : state ≠ .finished) : (state.next b.1).isSome = true := by
  obtain ⟨-, -, -, -, -, -, hslash, hquote, hopen, hclose⟩ := hb.takes
  cases state with
  | opening => exact absurd rfl hopening
  | finished => exact absurd rfl hfinished
  | plain depth => simp [CompoundState.next, hopen, hclose, hquote]
  | str depth => simp [CompoundState.next, hquote, hslash]
  | strEscape depth => rfl

/-- A literal that is open and not finished takes a letter. -/
theorem Leaf.nextAt_capCompound_letter {state : CompoundState} (text : Str) {b : Ascii}
    (hb : IsLetter b) (hopening : state ≠ .opening) (hfinished : state ≠ .finished) :
    ((Leaf.capCompound state text).nextAt (.byte b)).isSome = true := by
  obtain ⟨next, hnext⟩ := Option.isSome_iff_exists.mp
    (CompoundState.next_letter hb hopening hfinished)
  simp [Leaf.nextAt, Leaf.step, CapCompound.step, hfinished, hnext]

theorem Leaf.nextAt_capQuoted_letter (text : Str) {b : Ascii} (hb : IsLetter b) :
    ((Leaf.capQuoted .body text).nextAt (.byte b)).isSome = true := by
  obtain ⟨-, -, -, -, -, hquote, hslash, -⟩ := hb.takes
  simp [Leaf.nextAt, Leaf.step, CapQuoted.step, hquote, hslash]

/-- A leaf that takes text takes a letter. -/
theorem Leaf.nextAt_letter_of_text (l : Leaf α) {b : Ascii} (hb : IsLetter b) {c : UInt8}
    (h : (l.nextAt (.text c)).isSome = true) : (l.nextAt (.byte b)).isSome = true := by
  cases l with
  | fail => cases h
  | lit rest => cases rest <;> cases h
  | kw word pos tag => cases h
  | overlay alive pos => cases h
  | capWord word bytes =>
    rw [Leaf.isSome_nextAt_capWord]
    exact word.takes_letter hb
  | capQuoted state text =>
    cases state with
    | body => exact Leaf.nextAt_capQuoted_letter text hb
    | _ => cases h
  | capCompound state text =>
    cases state with
    | opening => cases h
    | finished => cases h
    | plain depth =>
      exact Leaf.nextAt_capCompound_letter text hb CompoundState.noConfusion
        CompoundState.noConfusion
    | str depth =>
      exact Leaf.nextAt_capCompound_letter text hb CompoundState.noConfusion
        CompoundState.noConfusion
    | strEscape depth =>
      exact Leaf.nextAt_capCompound_letter text hb CompoundState.noConfusion
        CompoundState.noConfusion
  | ws => cases h
  | commentRest => rfl

/-- A leaf that finishes on text finishes on a letter. -/
theorem Leaf.valueAt_letter_of_text (l : Leaf α) {b : Ascii} (hb : IsLetter b) {c : UInt8}
    (h : (l.valueAt (.text c)).isSome = true) : (l.valueAt (.byte b)).isSome = true := by
  obtain ⟨-, hws, -⟩ := hb.takes
  cases l with
  | lit rest =>
    cases rest with
    | nil => rfl
    | cons d rest => cases h
  | capQuoted state text =>
    cases state with
    | finished => rfl
    | _ => cases h
  | capCompound state text =>
    cases state with
    | finished => rfl
    | _ => cases h
  | ws => simp [Leaf.valueAt, Leaf.step, Ws.step, hws]
  | _ => cases h

theorem isBoundaryByte_of_isWs {b : UInt8} (h : isWs b = true) : isBoundaryByte b = true := by
  simp only [isWs, Bool.or_eq_true] at h
  simp only [isBoundaryByte, Bool.or_eq_true]
  tauto

/-- A leaf that can end the line takes white space or finishes on it. -/
theorem Leaf.separated (l : Leaf α) (h : (l.valueAt .eof).isSome = true) {b : Ascii}
    (hb : isWs b.1 = true) :
    (l.valueAt (.byte b)).isSome = true ∨ (l.nextAt (.byte b)).isSome = true := by
  have hboundary := isBoundaryByte_of_isWs hb
  cases l with
  | fail => cases h
  | lit rest =>
    cases rest with
    | nil => exact .inl rfl
    | cons d rest => cases h
  | kw word pos tag =>
    left
    by_cases hpos : pos = word.length
    · simp [Leaf.valueAt, Leaf.step, Kw.step, hpos, hboundary]
    · simp [Leaf.valueAt, Leaf.step, Kw.step, hpos] at h
  | overlay alive pos => cases h
  | capWord word bytes =>
    left
    by_cases hfinish : word.finishable = true
    · simp [Leaf.valueAt, Leaf.step, CapWord.step, Word.stepCore, hboundary, hfinish]
    · simp [Leaf.valueAt, Leaf.step, CapWord.step, Word.stepCore, hfinish] at h
  | capQuoted state text =>
    cases state with
    | finished => exact .inl rfl
    | _ => cases h
  | capCompound state text =>
    cases state with
    | finished => exact .inl rfl
    | _ => cases h
  | ws =>
    right
    simp [Leaf.nextAt, Leaf.step, Ws.step, hb]
  | commentRest => exact .inr rfl

/-- The word takes every byte that the vocabulary still offers at `pos`: it has the
same length, and is past `-` only where every entry left starts with it. -/
structure Word.Covers (word : Word) (alive : List WordEntry) (pos : ℕ) : Prop where
  len : word.len = pos
  dash : word.dash1 = true → pos = 1 ∧ ∀ entry ∈ alive, entry.byteAt 0 = some dash

theorem WordEntry.byteAt_eq_some {entry : WordEntry} {pos : ℕ} {b : Ascii} :
    entry.byteAt pos = some b ↔ entry.word[pos]? = some b.1 := by
  rw [WordEntry.byteAt]
  split_ifs with h
  · rw [List.getElem?_eq_getElem h, Option.some.injEq, Option.some.injEq, Subtype.ext_iff]
  · rw [List.getElem?_eq_none_iff.mpr (Nat.not_lt.mp h)]
    simp

/-- An entry is no flag and opens no literal. -/
theorem WordEntry.takes (entry : WordEntry) :
    (∀ pos b, entry.byteAt pos = some b → isBoundaryByte b.1 = false) ∧
      entry.byteAt 0 ≠ some openBracket ∧ entry.byteAt 0 ≠ some openBrace ∧
      (entry.byteAt 0 = some Eosh.dash → entry.byteAt 1 ≠ some Eosh.dash) := by
  obtain ⟨⟨word, tag, desc, glue⟩, hword⟩ := entry
  simp only [WordEntry.byteAt_eq_some]
  have hparts := hword
  simp only [entryIsWord, Bool.and_eq_true, Bool.not_eq_true'] at hparts
  obtain ⟨⟨⟨-, hbracket⟩, hbrace⟩, hdash⟩ := hparts
  refine ⟨?_, ?_, ?_, ?_⟩
  · intro pos b hb
    have hbyte := isWordByte_of_entry hword (List.mem_of_getElem? hb)
    simp only [isWordByte, Bool.and_eq_true, Bool.not_eq_true'] at hbyte
    exact hbyte.2
  · intro h
    rw [List.head?_eq_getElem?, WordEntry.byteAt_eq_some.mp h, beq_self_eq_true] at hbracket
    cases hbracket
  · intro h
    rw [List.head?_eq_getElem?, WordEntry.byteAt_eq_some.mp h, beq_self_eq_true] at hbrace
    cases hbrace
  · intro h h'
    cases word with
    | nil => cases h
    | cons c word =>
      cases word with
      | nil => cases h'
      | cons d word =>
        cases h
        cases h'
        simp [ascii, asciiChars, List.isPrefixOf, Eosh.dash, ch] at hdash

/-- A covering word takes what the vocabulary takes. -/
theorem Word.Covers.takes {word : Word} {alive : List WordEntry} {pos : ℕ}
    (h : word.Covers alive pos) {entry : WordEntry} (hmem : entry ∈ alive) {b : Ascii}
    (hb : entry.byteAt pos = some b) : word.takes b = true := by
  obtain ⟨hword, hbracket, hbrace, hflag⟩ := entry.takes
  have hopen : (word.len == 0 && (b == openBracket || b == openBrace)) = false := by
    cases hlen : word.len == 0 with
    | false => rfl
    | true =>
      have hpos : pos = 0 := h.len ▸ eq_of_beq hlen
      subst hpos
      have hbracket' : b ≠ openBracket := by
        rintro rfl
        exact hbracket hb
      have hbrace' : b ≠ openBrace := by
        rintro rfl
        exact hbrace hb
      rw [beq_false_of_ne hbracket', beq_false_of_ne hbrace']
      rfl
  have hdash : (word.dash1 && b == Eosh.dash) = false := by
    cases hdash : word.dash1 with
    | false => rfl
    | true =>
      obtain ⟨rfl, hall⟩ := h.dash hdash
      have hne : b ≠ Eosh.dash := by
        rintro rfl
        exact hflag (hall entry hmem) hb
      rw [beq_false_of_ne hne]
      rfl
  rw [Word.takes, hword pos b hb, hopen, hdash]
  simp

/-- What a covering word becomes covers what is left of the vocabulary. -/
theorem Word.Covers.step {word : Word} {alive : List WordEntry} {pos : ℕ}
    (h : word.Covers alive pos) {b : Ascii} {next : Word}
    (hnext : word.stepCore (.byte b) = .advance next) :
    next.Covers (alive.filter fun entry => entry.byteAt pos == some b) (pos + 1) := by
  simp only [Word.stepCore] at hnext
  split_ifs at hnext
  cases hnext
  constructor
  · exact congrArg (· + 1) h.len
  · intro hdash
    simp only [Bool.and_eq_true, beq_iff_eq] at hdash
    obtain ⟨⟨-, hlen⟩, hb⟩ := hdash
    have hpos : pos = 0 := h.len ▸ hlen
    subst hpos
    refine ⟨rfl, ?_⟩
    intro entry hmem
    rw [← hb]
    exact eq_of_beq (List.mem_filter.mp hmem).2

theorem Word.covers_start (excluded : List Str) (bare : Bool) (alive : List WordEntry) :
    (Word.start excluded bare).Covers alive 0 where
  len := rfl
  dash h := by cases h

/-- Exact bytes. -/
def Leaf.IsLit : Leaf α → Prop
  | .lit _ => True
  | _ => False

/-- White space and words take more than one byte in each of their states. -/
def Leaf.Chooses : Leaf α → Prop
  | .ws => True
  | .capWord _ _ => True
  | _ => False

/-- Literals and keywords are short; a vocabulary has no room by itself. -/
def Leaf.Roomy : Leaf α → Prop
  | .lit rest => rest.length ≤ 8
  | .kw word _ _ => word.length ≤ 8
  | .overlay _ _ => False
  | _ => True

namespace Parser

/-- There is a choice: the line may end here, or two bytes are taken. -/
def Wide (p : Parser Nt α) : Prop :=
  (p.valueAt .eof).isSome = true ∨
    ∃ b c : Ascii, b ≠ c ∧ (p.nextAt (.byte b)).isSome = true ∧ (p.nextAt (.byte c)).isSome = true

/-- The line may end here, or go on with white space. -/
def Spaced (p : Parser Nt α) : Prop :=
  (p.valueAt .eof).isSome = true ∨
    (p.nextAt (.byte spaceByte)).isSome = true ∧ (p.nextAt (.byte tabByte)).isSome = true

theorem Spaced.wide {p : Parser Nt α} (h : p.Spaced) : p.Wide :=
  h.imp_right fun h => ⟨spaceByte, tabByte, spaceByte_ne, h.1, h.2⟩

/-- Behind the left side of a bind there is a choice: white space and words offer
it themselves, exact bytes are followed by one, and any other left side by the end
of the line or by white space. -/
def Leads (p : Parser Nt α) (f : α → Parser Nt β) : Prop :=
  (∀ a, (f a).Spaced) ∨
    ∃ l : Leaf α, p = .leaf l ∧ (l.Chooses ∨ l.IsLit ∧ ∀ a, (f a).Wide)

/-- The state starts with the captured word. -/
def Captures (word : Word) {α : Type} : Parser Nt α → Prop
  | .map p _ => p.Captures word
  | .bind p _ => p.Captures word
  | .leaf (.capWord word' _) => word' = word
  | _ => False

def IsOverlay (p : Parser Nt α) : Prop :=
  ∃ entries pos, p = .leaf (.overlay entries pos)

/-- One of the states reads the words of the vocabulary. -/
def Covered (all : List (Parser Nt α)) (entries : List WordEntry) (pos : ℕ) : Prop :=
  ∃ q ∈ all, ∃ word : Word, q.Captures word ∧ word.Covers entries pos

end Parser

mutual

/-- A state from which a choice is never far. -/
def Parser.Roomy {α : Type} : Parser Nt α → Prop
  | .pure _ => True
  | .map parser _ => parser.Roomy
  | .bind p1 f => p1.Roomy ∧ (∀ a, (f a).Roomy) ∧ p1.Leads f
  | .bound p2 => p2.Roomy
  | .oneOf branches => branches.Roomy ∧
      ∀ entries pos, .leaf (.overlay entries pos) ∈ branches.toList →
        Parser.Covered branches.toList entries pos
  | .lazy _ => True
  | .leaf l => l.Roomy

def Branches.Roomy {α : Type} : Branches Nt α → Prop
  | .nil => True
  | .cons p rest => (p.Roomy ∨ p.IsOverlay) ∧ rest.Roomy

end

theorem Branches.roomy_iff : ∀ bs : Branches Nt α,
    bs.Roomy ↔ ∀ p ∈ bs.toList, p.Roomy ∨ p.IsOverlay
  | .nil => by simp [Roomy, toList]
  | .cons p rest => by simp [Roomy, toList, roomy_iff rest]

namespace Parser

/-- The alternatives have room, and each vocabulary among them is covered. -/
structure RoomyAll (ps : List (Parser Nt α)) : Prop where
  roomy : ∀ p ∈ ps, p.Roomy ∨ p.IsOverlay
  covered : ∀ entries pos, .leaf (.overlay entries pos) ∈ ps → Covered ps entries pos

theorem roomy_oneOf {bs : Branches Nt α} : (oneOf bs).Roomy ↔ RoomyAll bs.toList := by
  rw [Roomy, Branches.roomy_iff]
  exact ⟨fun h => ⟨h.1, h.2⟩, fun h => ⟨h.roomy, h.covered⟩⟩

theorem roomy_alt {ps : List (Parser Nt α)} (h : RoomyAll ps) : (alt ps).Roomy := by
  unfold alt
  split
  · rename_i p
    rcases h.roomy p (List.mem_singleton_self p) with hp | ⟨entries, pos, rfl⟩
    · exact hp
    · obtain ⟨q, hq, word, hcaptures, -⟩ := h.covered entries pos (List.mem_singleton_self _)
      rw [List.mem_singleton.mp hq] at hcaptures
      exact absurd hcaptures id
  · apply roomy_oneOf.mpr
    rwa [Branches.toList_ofList]

theorem roomy_of_alive {ps : List (Parser Nt α)} {q : Parser Nt α} (h : RoomyAll ps)
    (hq : alive ps = some q) : q.Roomy := by
  cases ps with
  | nil => cases hq
  | cons p ps =>
    cases hq
    exact roomy_alt h

theorem Captures.nextAt {p : Parser Nt α} {word next : Word} (h : p.Captures word) {i : Input}
    (hi : word.stepCore i = .advance next) :
    p.valueAt i = none ∧ ∃ q, p.nextAt i = some q ∧ q.Captures next := by
  induction p using Parser.inductStep with
  | pure v => exact absurd h id
  | map p f ih =>
    obtain ⟨hvalue, q, hq, hcaptures⟩ := ih h
    rw [valueAt_map, nextAt_map, hvalue, hq]
    exact ⟨rfl, q.map f, rfl, hcaptures⟩
  | bind p f ihp ihf =>
    obtain ⟨hvalue, q, hq, hcaptures⟩ := ihp h
    rw [valueAt_bind, nextAt_bind, hvalue, hq]
    exact ⟨rfl, q.bind f, rfl, hcaptures⟩
  | bound p ih => exact absurd h id
  | oneOf bs ih => exact absurd h id
  | lazy n ih => exact absurd h id
  | leaf l =>
    cases l with
    | capWord word' bytes =>
      obtain rfl : word' = word := h
      rw [valueAt_leaf, nextAt_leaf]
      have hstep : (Leaf.capWord word' bytes).step i =
          some (.advance (.capWord next (bytes ++ i.bytes))) := by
        rw [Leaf.step, CapWord.step, hi]
      rw [Leaf.valueAt, Leaf.nextAt, hstep]
      exact ⟨rfl, _, rfl, rfl⟩
    | _ => exact absurd h id

theorem Word.stepCore_of_takes {word : Word} {b : Ascii} (h : word.takes b = true) :
    ∃ next, word.stepCore (.byte b) = .advance next := by
  simp only [Word.takes, Bool.and_eq_true, Bool.not_eq_true'] at h
  obtain ⟨⟨hboundary, hopen⟩, hdash⟩ := h
  rw [Word.stepCore, hboundary, hopen, hdash]
  exact ⟨_, rfl⟩

/-- A state that reads a word takes two letters. -/
theorem Captures.wide {p : Parser Nt α} {word : Word} (h : p.Captures word) : p.Wide := by
  have hletter : ∀ b : Ascii, IsLetter b → (p.nextAt (.byte b)).isSome = true := by
    intro b hb
    obtain ⟨next, hnext⟩ := Word.stepCore_of_takes (word.takes_letter hb)
    obtain ⟨-, q, hq, -⟩ := h.nextAt hnext
    rw [hq]
    rfl
  exact .inr ⟨letterX, letterY, letterX_ne, hletter _ (.inl rfl), hletter _ (.inr rfl)⟩

end Parser

theorem Leaf.roomy_of_kind {l : Leaf α} (h : l.kind ≠ .lit ∧ l.kind ≠ .kw ∧ l.kind ≠ .overlay) :
    l.Roomy := by
  obtain ⟨hlit, hkw, hoverlay⟩ := h
  cases l <;> first | exact trivial | contradiction

theorem Leaf.isLit_iff {l : Leaf α} : l.IsLit ↔ l.kind = .lit := by
  cases l <;> simp [Leaf.IsLit, Leaf.kind]

theorem Leaf.chooses_iff {l : Leaf α} : l.Chooses ↔ l.kind = .ws ∨ l.kind = .capWord := by
  cases l <;> simp [Leaf.Chooses, Leaf.kind]

theorem Leaf.Roomy.nextAt {l m : Leaf α} (h : l.Roomy) {i : Input} (hm : l.nextAt i = some m) :
    m.Roomy := by
  cases l with
  | lit rest =>
    have hadvance := Leaf.step_of_nextAt hm
    cases rest with
    | nil => cases hadvance
    | cons b rest =>
      cases i with
      | byte c =>
        simp only [Leaf.step, Lit.step] at hadvance
        split_ifs at hadvance
        cases hadvance
        exact Nat.le_of_succ_le h
      | _ => cases hadvance
  | kw word pos tag =>
    obtain ⟨rfl, -⟩ := Kw.pos_of_nextAt hm
    exact h
  | overlay alive pos => exact absurd h id
  | _ =>
    apply Leaf.roomy_of_kind
    rw [Leaf.kind_nextAt hm]
    simp [Leaf.kind]

theorem Leaf.IsLit.nextAt {l m : Leaf α} (h : l.IsLit) {i : Input} (hm : l.nextAt i = some m) :
    m.IsLit := by
  rw [Leaf.isLit_iff, Leaf.kind_nextAt hm]
  exact Leaf.isLit_iff.mp h

theorem Leaf.Chooses.nextAt {l m : Leaf α} (h : l.Chooses) {i : Input} (hm : l.nextAt i = some m) :
    m.Chooses := by
  rw [Leaf.chooses_iff, Leaf.kind_nextAt hm]
  exact Leaf.chooses_iff.mp h

namespace Parser

theorem Leads.nextAt {p q : Parser Nt α} {f : α → Parser Nt β} (h : p.Leads f) {i : Input}
    (hq : p.nextAt i = some q) : q.Leads f := by
  rcases h with h | ⟨l, rfl, h⟩
  · exact .inl h
  · rw [nextAt_leaf] at hq
    obtain ⟨m, hm, rfl⟩ := Option.map_eq_some_iff.mp hq
    refine .inr ⟨m, rfl, ?_⟩
    rcases h with h | ⟨h, hf⟩
    · exact .inl (h.nextAt hm)
    · exact .inr ⟨h.nextAt hm, hf⟩

/-- A vocabulary that takes a byte stays covered. -/
theorem Covered.nextAt {ps : List (Parser Nt α)} {entries entries' : List WordEntry} {pos pos' : ℕ}
    (h : Covered ps entries pos) {i : Input}
    (hi : (Leaf.overlay entries pos : Leaf α).nextAt i = some (.overlay entries' pos')) :
    Covered (ps.filterMap fun p => p.nextAt i) entries' pos' := by
  have hadvance := Leaf.step_of_nextAt hi
  cases i with
  | byte b =>
    simp only [Leaf.step, Overlay.step] at hadvance
    split_ifs at hadvance
    split at hadvance
    · cases hadvance
    · rename_i entry rest hfilter
      cases hadvance
      obtain ⟨q, hq, word, hcaptures, hcovers⟩ := h
      have hmem : entry ∈ entries.filter fun entry => entry.byteAt pos == some b := by
        rw [hfilter]
        exact List.mem_cons_self
      obtain ⟨hmem, hbyte⟩ := List.mem_filter.mp hmem
      obtain ⟨next, hnext⟩ := Word.stepCore_of_takes (hcovers.takes hmem (eq_of_beq hbyte))
      obtain ⟨-, q', hq', hcaptures'⟩ := hcaptures.nextAt hnext
      refine ⟨q', List.mem_filterMap.mpr ⟨q, hq, hq'⟩, next, hcaptures', ?_⟩
      rw [← hfilter]
      exact hcovers.step hnext
  | _ => cases hadvance

/-- The alternatives that are left have room together. -/
theorem RoomyAll.nextAt {ps : List (Parser Nt α)} (h : RoomyAll ps) {i : Input}
    (hroomy : ∀ p ∈ ps, p.Roomy → ∀ q, p.nextAt i = some q → q.Roomy) :
    RoomyAll (ps.filterMap fun p => p.nextAt i) := by
  have hcases : ∀ q ∈ ps.filterMap fun p => p.nextAt i,
      q.Roomy ∨ ∃ entries pos entries' pos', .leaf (.overlay entries pos) ∈ ps ∧
        (Leaf.overlay entries pos : Leaf α).nextAt i = some (.overlay entries' pos') ∧
        q = .leaf (.overlay entries' pos') := by
    intro q hq
    obtain ⟨p, hp, hq⟩ := List.mem_filterMap.mp hq
    rcases h.roomy p hp with hr | ⟨entries, pos, rfl⟩
    · exact .inl (hroomy p hp hr q hq)
    · rw [nextAt_leaf] at hq
      obtain ⟨m, hm, rfl⟩ := Option.map_eq_some_iff.mp hq
      have hkind := Leaf.kind_nextAt hm
      cases m with
      | overlay entries' pos' => exact .inr ⟨entries, pos, entries', pos', hp, hm, rfl⟩
      | _ => cases hkind
  constructor
  · intro q hq
    rcases hcases q hq with h' | ⟨entries, pos, entries', pos', -, -, rfl⟩
    · exact .inl h'
    · exact .inr ⟨entries', pos', rfl⟩
  · intro entries' pos' hmem
    rcases hcases _ hmem with h' | ⟨entries, pos, entries'', pos'', hp, hm, heq⟩
    · exact absurd h' id
    · cases heq
      exact (h.covered entries pos hp).nextAt hm

section Productions

variable (hroomy : ∀ {α : Type} (n : Nt α), (build n).Roomy)

include hroomy

/-- A state with room steps to states with room. -/
theorem Roomy.nextAt {p q : Parser Nt α} (h : p.Roomy) {i : Input} (hq : p.nextAt i = some q) :
    q.Roomy := by
  induction p using Parser.inductStep with
  | pure v => cases hq
  | map p f ih =>
    rw [nextAt_map] at hq
    obtain ⟨p', hp', rfl⟩ := Option.map_eq_some_iff.mp hq
    exact ih h hp'
  | bind p f ihp ihf =>
    obtain ⟨hp, hf, hleads⟩ := h
    rw [nextAt_bind] at hq
    have hall : ∀ r ∈ ((p.nextAt i).map fun q => q.bind f).toList ++
        (((p.valueAt i).bind fun a => (f a).nextAt i).map bound).toList, r.Roomy := by
      intro r hr
      rcases List.mem_append.mp hr with hr | hr
      · obtain ⟨p', hp', rfl⟩ := Option.map_eq_some_iff.mp (Option.mem_toList.mp hr)
        exact ⟨ihp hp hp', hf, hleads.nextAt hp'⟩
      · obtain ⟨r', hr', rfl⟩ := Option.map_eq_some_iff.mp (Option.mem_toList.mp hr)
        obtain ⟨a, ha, hnext⟩ := Option.bind_eq_some_iff.mp hr'
        have hroom := ihf i a ha (hf a) hnext
        exact hroom
    exact roomy_of_alive ⟨fun r hr => .inl (hall r hr), fun entries pos hmem => (hall _ hmem).elim⟩ hq
  | bound p ih =>
    rw [nextAt_bound] at hq
    obtain ⟨p', hp', rfl⟩ := Option.map_eq_some_iff.mp hq
    have hroom := ih h hp'
    exact hroom
  | oneOf bs ih =>
    rw [nextAt_oneOf] at hq
    exact roomy_of_alive ((roomy_oneOf.mp h).nextAt fun p hp hr r hnext => ih p hp hr hnext) hq
  | lazy n ih =>
    rw [nextAt_lazy] at hq
    exact ih (hroomy n) hq
  | leaf l =>
    rw [nextAt_leaf] at hq
    obtain ⟨m, hm, rfl⟩ := Option.map_eq_some_iff.mp hq
    exact Leaf.Roomy.nextAt h hm

/-- Every state that a state with room leads to has room. -/
theorem Roomy.feedBytes {p q : Parser Nt α} (h : p.Roomy) {w : Str}
    (hq : p.feedBytes w = some q) : q.Roomy := by
  induction w generalizing p with
  | nil =>
    cases hq
    exact h
  | cons b w ih =>
    rw [feedBytes_cons] at hq
    obtain ⟨p', hp', hq⟩ := Option.bind_eq_some_iff.mp hq
    exact ih (h.nextAt hroomy hp') hq

end Productions

section Tame

variable (htame : ∀ {α : Type} (n : Nt α), (build n).Tame)

include htame

theorem Tame.valueAt_eof {p : Parser Nt α} (h : p.Tame) {i : Input}
    (hi : (p.valueAt i).isSome = true) : ∃ a, p.valueAt .eof = some a := by
  obtain ⟨adm, -, hexact⟩ := h.exact htame
  exact Option.isSome_iff_exists.mp (hexact.early i hi)

/-- The right sides that a tame left side finishes into look alike. -/
theorem alike_of_valueAt {p : Parser Nt α} {f : α → Parser Nt β} (h : (p.bind f).Tame)
    {i j : Input} {a a' : α} (ha : p.valueAt i = some a) (ha' : p.valueAt j = some a') :
    (f a).Alike (f a') := by
  obtain ⟨hp, -, halike⟩ := h
  obtain ⟨e, he⟩ := hp.valueAt_eof htame (i := i) (by rw [ha]; rfl)
  have hleft := halike [] i a e ha he
  have hright := halike [] j a' e ha' he
  exact ⟨fun k => (hleft.next k).trans (hright.next k).symm,
    fun k => (hleft.value k).trans (hright.value k).symm⟩

/-- A tame state finishes on a letter when it finishes on text, and takes one when
it takes text. -/
theorem Tame.letter_of_text {p : Parser Nt α} (h : p.Tame) {b : Ascii} (hb : IsLetter b)
    {c : UInt8} :
    ((p.valueAt (.text c)).isSome = true → (p.valueAt (.byte b)).isSome = true) ∧
      ((p.nextAt (.text c)).isSome = true → (p.nextAt (.byte b)).isSome = true) := by
  induction p using Parser.inductStep with
  | pure v => exact ⟨fun _ => rfl, fun h => h⟩
  | map p f ih => simpa using ih h
  | bind p f ihp ihf =>
    have hp := ihp h.1
    have hright : ∀ a, p.valueAt (.text c) = some a → ∃ a', p.valueAt (.byte b) = some a' ∧
        (f a).Alike (f a') := by
      intro a ha
      obtain ⟨a', ha'⟩ := Option.isSome_iff_exists.mp (hp.1 (by rw [ha]; rfl))
      exact ⟨a', ha', alike_of_valueAt htame h ha ha'⟩
    constructor
    · intro hvalue
      rw [valueAt_bind] at hvalue ⊢
      obtain ⟨v, hv⟩ := Option.isSome_iff_exists.mp hvalue
      obtain ⟨a, ha, hv⟩ := Option.bind_eq_some_iff.mp hv
      obtain ⟨a', ha', halike⟩ := hright a ha
      rw [ha', Option.bind_some, ← halike.value]
      exact (ihf _ a ha (h.2.1 a)).1 (by rw [hv]; rfl)
    · intro hnext
      rw [isSome_nextAt_bind, Bool.or_eq_true] at hnext ⊢
      rcases hnext with hnext | hnext
      · exact .inl (hp.2 hnext)
      · right
        obtain ⟨v, hv⟩ := Option.isSome_iff_exists.mp hnext
        obtain ⟨a, ha, hv⟩ := Option.bind_eq_some_iff.mp hv
        obtain ⟨a', ha', halike⟩ := hright a ha
        rw [ha', Option.bind_some, ← halike.next]
        exact (ihf _ a ha (h.2.1 a)).2 (by rw [hv]; rfl)
  | bound p ih => simpa using ih h
  | oneOf bs ih =>
    have hbranch := (Branches.tame_iff bs).mp h.2
    rw [isSome_valueAt_oneOf, isSome_valueAt_oneOf, isSome_nextAt_oneOf, isSome_nextAt_oneOf]
    constructor
    · intro hvalue
      obtain ⟨p, hp, hv⟩ := List.any_eq_true.mp hvalue
      exact List.any_eq_true.mpr ⟨p, hp, (ih p hp (hbranch p hp)).1 hv⟩
    · intro hnext
      obtain ⟨p, hp, hv⟩ := List.any_eq_true.mp hnext
      exact List.any_eq_true.mpr ⟨p, hp, (ih p hp (hbranch p hp)).2 hv⟩
  | lazy n ih => simpa using ih (htame n)
  | leaf l => simpa using ⟨l.valueAt_letter_of_text hb, l.nextAt_letter_of_text hb⟩

/-- A tame state that can end the line takes white space or finishes on it. -/
theorem Tame.separated {p : Parser Nt α} (h : p.Tame) (heof : (p.valueAt .eof).isSome = true)
    {b : Ascii} (hb : isWs b.1 = true) :
    (p.valueAt (.byte b)).isSome = true ∨ (p.nextAt (.byte b)).isSome = true := by
  induction p using Parser.inductStep with
  | pure v => exact .inl rfl
  | map p f ih =>
    rw [valueAt_map, Option.isSome_map] at heof
    simpa using ih h heof
  | bind p f ihp ihf =>
    rw [valueAt_bind] at heof
    obtain ⟨v, hv⟩ := Option.isSome_iff_exists.mp heof
    obtain ⟨a, ha, hv⟩ := Option.bind_eq_some_iff.mp hv
    rw [valueAt_bind, isSome_nextAt_bind, Bool.or_eq_true]
    rcases ihp h.1 (by rw [ha]; rfl) with hvalue | hnext
    · obtain ⟨a', ha'⟩ := Option.isSome_iff_exists.mp hvalue
      have halike := alike_of_valueAt htame h ha ha'
      rw [ha', Option.bind_some, Option.bind_some, ← halike.value, ← halike.next]
      exact (ihf _ a ha (h.2.1 a) (by rw [hv]; rfl)).imp_right .inr
    · exact .inr (.inl hnext)
  | bound p ih =>
    rw [valueAt_bound] at heof
    simpa using ih h heof
  | oneOf bs ih =>
    rw [isSome_valueAt_oneOf] at heof
    obtain ⟨p, hp, hv⟩ := List.any_eq_true.mp heof
    rw [isSome_valueAt_oneOf, isSome_nextAt_oneOf]
    rcases ih p hp ((Branches.tame_iff bs).mp h.2 p hp) hv with hvalue | hnext
    · exact .inl (List.any_eq_true.mpr ⟨p, hp, hvalue⟩)
    · exact .inr (List.any_eq_true.mpr ⟨p, hp, hnext⟩)
  | lazy n ih =>
    rw [valueAt_lazy] at heof
    simpa using ih (htame n) heof
  | leaf l =>
    rw [valueAt_leaf] at heof
    simpa using l.separated heof hb

end Tame

/-- Something follows the state: the end of the line, or a byte. -/
def Viable (p : Parser Nt α) : Prop :=
  (p.valueAt .eof).isSome = true ∨ ∃ b : Ascii, (p.nextAt (.byte b)).isSome = true

/-- Behind the word there is a choice. -/
def Opens (p : Parser Nt α) (w : Str) : Prop :=
  (p.run w .eof).isSome = true ∨
    ∃ b c : Ascii, b ≠ c ∧ p.Lives (w ++ [b.1]) ∧ p.Lives (w ++ [c.1])

/-- A choice is at most one keyword away. -/
def Near (p : Parser Nt α) : Prop := ∃ w : Str, w.length ≤ 8 ∧ p.Opens w

theorem lives_singleton {p : Parser Nt α} {b : Ascii} :
    p.Lives [b.1] ↔ (p.nextAt (.byte b)).isSome = true := by
  rw [lives_cons, Input.ofByte_ascii, Option.isSome_iff_exists]
  simp [lives_nil]

theorem lives_concat {p q : Parser Nt α} {w : Str} (h : p.feedBytes w = some q) (b : Ascii) :
    p.Lives (w ++ [b.1]) ↔ (q.nextAt (.byte b)).isSome = true := by
  rw [← lives_singleton, Lives, feedBytes_append, h, Option.bind_some, Lives]

theorem opens_iff {p q : Parser Nt α} {w : Str} (h : p.feedBytes w = some q) :
    p.Opens w ↔ q.Wide := by
  simp only [Opens, Wide, lives_concat h, run, h, Option.bind_some]

theorem Wide.near {p : Parser Nt α} (h : p.Wide) : p.Near :=
  ⟨[], Nat.zero_le 8, (opens_iff (feedBytes_nil p)).mpr h⟩

theorem lives_oneOf {bs : Branches Nt α} {w : Str} {p : Parser Nt α} (hp : p ∈ bs.toList)
    (h : p.Lives w) : (oneOf bs).Lives w := by
  cases w with
  | nil => exact lives_nil _
  | cons b w =>
    obtain ⟨q, hq, hl⟩ := lives_cons.mp h
    rw [lives_cons, nextAt_oneOf]
    exact lives_alive.mpr ⟨q, List.mem_filterMap.mpr ⟨p, hp, hq⟩, hl⟩

/-- A choice of one alternative is a choice. -/
theorem Opens.oneOf {bs : Branches Nt α} {w : Str} {p : Parser Nt α} (hp : p ∈ bs.toList)
    (h : p.Opens w) : (Parser.oneOf bs).Opens w := by
  rcases h with h | ⟨b, c, hne, hb, hc⟩
  · left
    rw [run_oneOf, Reader.choice, List.findSome?_map, List.findSome?_isSome_iff]
    exact ⟨p, hp, h⟩
  · exact .inr ⟨b, c, hne, lives_oneOf hp hb, lives_oneOf hp hc⟩

/-- What keeps the left side of a bind alive keeps the bind alive. -/
theorem Lives.bind {p : Parser Nt α} {w : Str} (h : p.Lives w) (f : α → Parser Nt β) :
    (p.bind f).Lives w := (lives_bind p f w).mpr (.inl h)

theorem Opens.bind {p : Parser Nt α} {w : Str} {f : α → Parser Nt β}
    (h : ∃ b c : Ascii, b ≠ c ∧ p.Lives (w ++ [b.1]) ∧ p.Lives (w ++ [c.1])) :
    (p.bind f).Opens w := by
  obtain ⟨b, c, hne, hb, hc⟩ := h
  exact .inr ⟨b, c, hne, hb.bind f, hc.bind f⟩

end Parser

/-- A keyword is followed to its end. -/
theorem Leaf.feed_kw_rest {word : List Ascii} (tag : Tag) {pos : ℕ} (h : pos ≤ word.length) :
    (Leaf.kw word pos tag).feed ((word.drop pos).map (·.1)) = some (.kw word word.length tag) := by
  obtain ⟨n, hn⟩ := Nat.exists_eq_add_of_le h
  induction n generalizing pos with
  | zero =>
    obtain rfl : word.length = pos := hn
    rw [List.drop_length]
    rfl
  | succ n ih =>
    have hlt : pos < word.length := by omega
    have hstep : (Leaf.kw word pos tag).nextAt (.ofByte word[pos].1) =
        some (.kw word (pos + 1) tag) := by
      rw [Input.ofByte_ascii]
      simp only [Leaf.nextAt, Leaf.step, Kw.step]
      rw [if_neg (Nat.ne_of_lt hlt), if_pos (List.getElem?_eq_getElem hlt)]
    rw [List.drop_eq_getElem_cons hlt, List.map_cons, Leaf.feed, hstep, Option.bind_some]
    exact ih hlt (by omega)

namespace Parser

theorem wide_leaf {l : Leaf α} : (leaf l : Parser Nt α).Wide ↔ (l.valueAt .eof).isSome = true ∨
    ∃ b c : Ascii, b ≠ c ∧ (l.nextAt (.byte b)).isSome = true ∧
      (l.nextAt (.byte c)).isSome = true := by
  simp [Wide]

/-- A leaf that takes two letters. -/
theorem wide_of_letters {l : Leaf α}
    (h : ∀ b : Ascii, IsLetter b → (l.nextAt (.byte b)).isSome = true) :
    (leaf l : Parser Nt α).Wide :=
  wide_leaf.mpr (.inr ⟨letterX, letterY, letterX_ne, h _ (.inl rfl), h _ (.inr rfl)⟩)

theorem wide_ws : (leaf .ws : Parser Nt Unit).Wide :=
  wide_leaf.mpr (.inl rfl)

theorem near_lit {rest : List Ascii} (h : rest.length ≤ 8) :
    (leaf (.lit rest) : Parser Nt Unit).Near := by
  refine ⟨rest.map (·.1), by rwa [List.length_map], .inl ?_⟩
  have hrun : (lit rest : Parser Nt Unit).run (rest.map (·.1)) .eof = some () := run_lit.mpr rfl
  exact Option.isSome_iff_exists.mpr ⟨(), hrun⟩

theorem near_kw {word : List Ascii} {pos : ℕ} {tag : Tag} (h : word.length ≤ 8)
    (hpos : pos ≤ word.length) : (leaf (.kw word pos tag) : Parser Nt Unit).Near := by
  refine ⟨(word.drop pos).map (·.1), ?_, .inl ?_⟩
  · rw [List.length_map, List.length_drop]
    omega
  · rw [run_leaf, Leaf.feed_kw_rest tag hpos, Option.bind_some]
    simp [Leaf.valueAt, Leaf.step, Kw.step]

theorem near_leaf {l : Leaf α} (h : l.Roomy) (hp : l.Proper) (hv : (leaf l : Parser Nt α).Viable) :
    (leaf l : Parser Nt α).Near := by
  cases l with
  | fail =>
    rcases hv with hv | ⟨b, hv⟩
    · cases hv
    · cases hv
  | lit rest => exact near_lit h
  | kw word pos tag => exact near_kw h hp
  | overlay alive pos => exact absurd h id
  | capWord word bytes =>
    have hcaptures : (leaf (.capWord word bytes) : Parser Nt Str).Captures word := rfl
    exact hcaptures.wide.near
  | capQuoted state text =>
    cases state with
    | opening =>
      refine ⟨[quote.1], by decide, .inr ⟨letterX, letterY, letterX_ne, ?_, ?_⟩⟩
      · exact (lives_leaf _ _).mpr rfl
      · exact (lives_leaf _ _).mpr rfl
    | body => exact (wide_of_letters fun b hb => Leaf.nextAt_capQuoted_letter text hb).near
    | escape =>
      refine Wide.near (wide_leaf.mpr (.inr ⟨quote, ⟨ch 'n', by decide⟩, by decide, ?_, ?_⟩))
      · rfl
      · rfl
    | finished => exact Wide.near (wide_leaf.mpr (.inl rfl))
  | capCompound state text =>
    by_cases hopening : state = .opening
    · subst hopening
      exact Wide.near (wide_leaf.mpr (.inr ⟨openBracket, openBrace, by decide, rfl, rfl⟩))
    · by_cases hfinished : state = .finished
      · subst hfinished
        exact Wide.near (wide_leaf.mpr (.inl rfl))
      · exact (wide_of_letters fun b hb =>
          Leaf.nextAt_capCompound_letter text hb hopening hfinished).near
  | ws => exact wide_ws.near
  | commentRest => exact Wide.near (wide_leaf.mpr (.inl rfl))

theorem Leaf.Chooses.bytes {l : Leaf α} (h : l.Chooses) : ∃ b c : Ascii, b ≠ c ∧
    (l.nextAt (.byte b)).isSome = true ∧ (l.nextAt (.byte c)).isSome = true := by
  cases l with
  | ws => exact ⟨spaceByte, tabByte, spaceByte_ne, rfl, rfl⟩
  | capWord word bytes =>
    refine ⟨letterX, letterY, letterX_ne, ?_, ?_⟩
    · rw [Leaf.isSome_nextAt_capWord]
      exact word.takes_letter (.inl rfl)
    · rw [Leaf.isSome_nextAt_capWord]
      exact word.takes_letter (.inr rfl)
  | _ => exact absurd h id

/-- The right side is entered behind what the left side reads. -/
theorem run_bind_isSome {p : Parser Nt α} {f : α → Parser Nt β} {w : Str} {a : α}
    (ha : p.run w .eof = some a) (h : ((f a).valueAt .eof).isSome = true) :
    ((p.bind f).run w .eof).isSome = true := by
  obtain ⟨v, hv⟩ := Option.isSome_iff_exists.mp h
  rw [run_bind]
  exact Reader.seq_isSome_of_splits (v := v) ⟨w, [], a, (List.append_nil w).symm, ha, hv⟩

theorem lives_bind_right {p : Parser Nt α} {f : α → Parser Nt β} {w : Str} {b : Ascii} {a : α}
    (ha : p.run w (.byte b) = some a) (h : ((f a).nextAt (.byte b)).isSome = true) :
    (p.bind f).Lives (w ++ [b.1]) := by
  rw [← Input.ofByte_ascii] at ha
  exact (lives_bind p f _).mpr (.inr ⟨w, b.1, [], a, rfl, ha, lives_singleton.mpr h⟩)

theorem near_lit_bind {rest : List Ascii} {f : Unit → Parser Nt β} (h : rest.length ≤ 8)
    (hf : ∀ a, (f a).Wide) : ((leaf (.lit rest)).bind f).Near := by
  have hrun : ∀ i, (leaf (.lit rest) : Parser Nt Unit).run (rest.map (·.1)) i = some () :=
    fun i => run_lit.mpr rfl
  refine ⟨rest.map (·.1), by rwa [List.length_map], ?_⟩
  rcases hf () with hvalue | ⟨b, c, hne, hb, hc⟩
  · exact .inl (run_bind_isSome (hrun .eof) hvalue)
  · exact .inr ⟨b, c, hne, lives_bind_right (hrun _) hb, lives_bind_right (hrun _) hc⟩

section Productions

variable (hroomy : ∀ {α : Type} (n : Nt α), (build n).Roomy)
  (htame : ∀ {α : Type} (n : Nt α), (build n).Tame)

omit hroomy in
include htame in
/-- White space sets the right side apart, where the left side may end the line. -/
theorem opens_bind_spaced {p : Parser Nt α} {f : α → Parser Nt β} (h : (p.bind f).Tame)
    (hf : ∀ a, (f a).Spaced) {w : Str} (hw : (p.run w .eof).isSome = true) :
    (p.bind f).Opens w := by
  obtain ⟨hp, -, halike⟩ := h
  obtain ⟨a, ha⟩ := Option.isSome_iff_exists.mp hw
  rcases hf a with hvalue | ⟨hspace, htab⟩
  · exact .inl (run_bind_isSome ha hvalue)
  · obtain ⟨q, hq, hvalue⟩ := Option.bind_eq_some_iff.mp ha
    have hlives : ∀ b : Ascii, isWs b.1 = true → ((f a).nextAt (.byte b)).isSome = true →
        (p.bind f).Lives (w ++ [b.1]) := by
      intro b hb hnext
      have hsep := (hp.feedBytes htame hq).separated htame (b := b) (by rw [hvalue]; rfl) hb
      rcases hsep with hright | hleft
      · obtain ⟨a', ha'⟩ := Option.isSome_iff_exists.mp hright
        have hrun : p.run w (.byte b) = some a' := by
          rw [run, hq]
          exact ha'
        apply lives_bind_right hrun
        rwa [(halike w _ a' a hrun ha).next]
      · exact Lives.bind ((lives_concat hq b).mpr hleft) f
    exact .inr ⟨spaceByte, tabByte, spaceByte_ne, hlives _ rfl hspace, hlives _ rfl htab⟩

include htame in
omit hroomy in
/-- What follows a bind follows its left side. -/
theorem Viable.left {p : Parser Nt α} {f : α → Parser Nt β} (h : (p.bind f).Viable)
    (hp : p.Tame) : p.Viable := by
  have hvalue : ∀ i, (p.valueAt i).isSome = true → p.Viable := by
    intro i hi
    obtain ⟨a, ha⟩ := hp.valueAt_eof htame hi
    exact .inl (Option.isSome_iff_exists.mpr ⟨a, ha⟩)
  rcases h with h | ⟨b, h⟩
  · rw [valueAt_bind] at h
    apply hvalue .eof
    cases hv : p.valueAt .eof with
    | none =>
      rw [hv] at h
      cases h
    | some a => rfl
  · rw [isSome_nextAt_bind, Bool.or_eq_true] at h
    rcases h with h | h
    · exact .inr ⟨b, h⟩
    · apply hvalue (.byte b)
      cases hv : p.valueAt (.byte b) with
      | none =>
        rw [hv] at h
        cases h
      | some a => rfl

include hroomy htame

/-- Where a tame state with room can be followed at all, a choice is near. -/
theorem Roomy.near {p : Parser Nt α} (h : p.Roomy) (ht : p.Tame) (hv : p.Viable) : p.Near := by
  induction p using Parser.inductStep with
  | pure v => exact Wide.near (.inl rfl)
  | map p f ih =>
    obtain ⟨w, hw, hopens⟩ := ih h ht (by simpa [Viable] using hv)
    refine ⟨w, hw, ?_⟩
    simpa [Opens, run_map, lives_map] using hopens
  | bind p f ihp ihf =>
    obtain ⟨hp, hf, hleads⟩ := h
    rcases hleads with hspaced | ⟨l, rfl, hchooses | ⟨hlit, hwide⟩⟩
    · obtain ⟨w, hw, hopens⟩ := ihp hp ht.1 (hv.left htame ht.1)
      refine ⟨w, hw, ?_⟩
      rcases hopens with hrun | hbytes
      · exact opens_bind_spaced htame ht hspaced hrun
      · exact Opens.bind hbytes
    · obtain ⟨b, c, hne, hb, hc⟩ := Leaf.Chooses.bytes hchooses
      refine ⟨[], Nat.zero_le 8, Opens.bind ⟨b, c, hne, ?_, ?_⟩⟩
      · rw [List.nil_append, lives_singleton, nextAt_leaf, Option.isSome_map, hb]
      · rw [List.nil_append, lives_singleton, nextAt_leaf, Option.isSome_map, hc]
    · cases l with
      | lit rest => exact near_lit_bind hp hwide
      | _ => exact absurd hlit id
  | bound p ih =>
    obtain ⟨w, hw, hopens⟩ := ih h ht (by simpa [Viable] using hv)
    refine ⟨w, hw, ?_⟩
    simpa [Opens, run_bound, lives_bound] using hopens
  | oneOf bs ih =>
    have hall := roomy_oneOf.mp h
    obtain ⟨p, hp, hviable⟩ : ∃ p ∈ bs.toList, p.Viable := by
      rcases hv with hv | ⟨b, hv⟩
      · rw [isSome_valueAt_oneOf] at hv
        obtain ⟨p, hp, hvalue⟩ := List.any_eq_true.mp hv
        exact ⟨p, hp, .inl hvalue⟩
      · rw [isSome_nextAt_oneOf] at hv
        obtain ⟨p, hp, hnext⟩ := List.any_eq_true.mp hv
        exact ⟨p, hp, .inr ⟨b, hnext⟩⟩
    rcases hall.roomy p hp with hroom | ⟨entries, pos, rfl⟩
    · obtain ⟨w, hw, hopens⟩ := ih p hp hroom ((Branches.tame_iff bs).mp ht.2 p hp) hviable
      exact ⟨w, hw, hopens.oneOf hp⟩
    · obtain ⟨q, hq, word, hcaptures, -⟩ := hall.covered entries pos hp
      obtain ⟨w, hw, hopens⟩ := hcaptures.wide.near
      exact ⟨w, hw, hopens.oneOf hq⟩
  | lazy n ih =>
    obtain ⟨w, hw, hopens⟩ := ih (hroomy n) (htame n) (by simpa [Viable] using hv)
    refine ⟨w, hw, ?_⟩
    simpa [Opens, run_lazy, lives_lazy] using hopens
  | leaf l => exact near_leaf h ht hv

end Productions

end Parser

end Eo9.Eosh
