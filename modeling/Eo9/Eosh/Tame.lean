import Eo9.Eosh.Admission

/-!
# Tame states

A state is tame when each of its alternations has a branch, its leaves are in
states that reading can reach, and the right sides of its binds treat the next
input alike, whatever input follows the word that the left side read. Stepping
keeps a state tame, and a tame state admits exactly what it takes.
-/

namespace Eo9.Eosh

open Eo9.Library

variable {Nt : Type → Type} {α β : Type} [Productions Nt]

open Productions (build)

/-- The keyword has not been read past its end. -/
def Leaf.Proper : Leaf α → Prop
  | .kw word pos _ => pos ≤ word.length
  | _ => True

inductive LeafKind where
  | fail | lit | kw | overlay | capWord | capQuoted | capCompound | ws | commentRest

def Leaf.kind : Leaf α → LeafKind
  | .fail => .fail
  | .lit _ => .lit
  | .kw _ _ _ => .kw
  | .overlay _ _ => .overlay
  | .capWord _ _ => .capWord
  | .capQuoted _ _ => .capQuoted
  | .capCompound _ _ => .capCompound
  | .ws => .ws
  | .commentRest => .commentRest

theorem Leaf.step_of_nextAt {l m : Leaf α} {i : Input} (h : l.nextAt i = some m) :
    l.step i = some (.advance m) := by
  unfold Leaf.nextAt at h
  split at h
  · rename_i next hs
    cases h
    exact hs
  · cases h

/-- A leaf keeps its form. -/
theorem Leaf.kind_nextAt {l m : Leaf α} {i : Input} (h : l.nextAt i = some m) :
    m.kind = l.kind := by
  have hadvance := Leaf.step_of_nextAt h
  cases l with
  | fail => cases hadvance
  | lit rest =>
    cases rest with
    | nil => cases hadvance
    | cons b rest =>
      cases i with
      | byte c =>
        simp only [Leaf.step, Lit.step] at hadvance
        split_ifs at hadvance
        cases hadvance
        rfl
      | _ => cases hadvance
  | kw word pos tag => cases i <;> grind [Leaf.step, Kw.step, Leaf.kind]
  | overlay alive pos => cases i <;> grind [Leaf.step, Overlay.step, Leaf.kind]
  | capWord word bytes => grind [Leaf.step, CapWord.step, Leaf.kind]
  | capQuoted state text =>
    simp only [Leaf.step] at hadvance
    cases i with
    | eof =>
      simp only [CapQuoted.step] at hadvance
      split_ifs at hadvance
      cases hadvance
    | text b =>
      cases state <;> cases hadvance
      rfl
    | byte b =>
      cases state with
      | opening =>
        simp only [CapQuoted.step] at hadvance
        split_ifs at hadvance
        cases hadvance
        rfl
      | body =>
        simp only [CapQuoted.step] at hadvance
        split_ifs at hadvance <;> cases hadvance <;> rfl
      | escape =>
        obtain ⟨c, -, hc⟩ := Option.map_eq_some_iff.mp hadvance
        cases hc
        rfl
      | finished => cases hadvance
  | capCompound state text =>
    have hmap : ∀ (o : Option CompoundState) (t : Str),
        o.map (fun next => LeafStep.advance (.capCompound next t)) = some (.advance m) →
        m.kind = .capCompound := by
      intro o t ho
      obtain ⟨c, -, hc⟩ := Option.map_eq_some_iff.mp ho
      cases hc
      rfl
    simp only [Leaf.step] at hadvance
    cases i with
    | eof =>
      simp only [CapCompound.step] at hadvance
      split_ifs at hadvance
      cases hadvance
    | _ =>
      simp only [CapCompound.step] at hadvance
      split_ifs at hadvance
      · cases hadvance
      · exact hmap _ _ hadvance
  | ws => cases i <;> grind [Leaf.step, Ws.step, Leaf.kind]
  | commentRest => cases i <;> grind [Leaf.step, CommentRest.step, Leaf.kind]

theorem Kw.pos_of_nextAt {word : List Ascii} {pos : ℕ} {tag : Tag} {i : Input} {m : Leaf Unit}
    (h : (Leaf.kw word pos tag).nextAt i = some m) : m = .kw word (pos + 1) tag ∧ pos < word.length := by
  have hadvance := Leaf.step_of_nextAt h
  simp only [Leaf.step] at hadvance
  cases i with
  | byte b =>
    simp only [Kw.step] at hadvance
    split_ifs at hadvance with hend hbound hb
    · cases hadvance
    · cases hadvance
      exact ⟨rfl, (List.getElem?_eq_some_iff.mp hb).1⟩
  | eof =>
    simp only [Kw.step] at hadvance
    split_ifs at hadvance
    cases hadvance
  | text b => cases hadvance

theorem Leaf.proper_of_kind {l : Leaf α} (h : l.kind ≠ .kw) : l.Proper := by
  cases l <;> first | exact trivial | exact absurd rfl h

theorem Leaf.Proper.nextAt {l m : Leaf α} (h : l.Proper) {i : Input} (hm : l.nextAt i = some m) :
    m.Proper := by
  cases l with
  | kw word pos tag =>
    obtain ⟨rfl, hpos⟩ := Kw.pos_of_nextAt hm
    exact hpos
  | _ => exact Leaf.proper_of_kind (Leaf.kind_nextAt hm ▸ LeafKind.noConfusion)

/-- A leaf admits what it takes. -/
def Leaf.Exact (l : Leaf α) : Prop :=
  Parser.Describes l.admissible (fun i => (l.nextAt i).isSome) fun i => (l.valueAt i).isSome

theorem Leaf.exact_lit (rest : List Ascii) : (Leaf.lit rest).Exact := by
  cases rest with
  | nil =>
    constructor <;> intros <;> first | rfl | simp [Leaf.admissible, Lit.admissible,
      Admissible.timeToFinish, Leaf.nextAt, Leaf.step, Lit.step]
  | cons c rest =>
    have hnext : ∀ b, (Leaf.lit (c :: rest)).nextAt (.byte b) =
        if b = c then some (.lit rest) else none := by
      intro b
      simp only [Leaf.nextAt, Leaf.step, Lit.step]
      split_ifs <;> rfl
    have hvalue : ∀ i, (Leaf.lit (c :: rest)).valueAt i = none := by
      intro i
      cases i with
      | byte b =>
        simp only [Leaf.valueAt, Leaf.step, Lit.step]
        split_ifs <;> rfl
      | _ => rfl
    constructor
    · intro b
      rw [hnext]
      simp only [Leaf.admissible, Lit.admissible, Charset.contains_singleton]
      split_ifs with h <;> simp [h]
    · rw [hvalue]
      rfl
    · exact fun _ => rfl
    · rfl
    · intro i hi
      rw [hvalue] at hi
      cases hi
    · intro b b'
      rw [hvalue, hvalue]

theorem Leaf.exact_kw {word : List Ascii} {pos : ℕ} {tag : Tag} (h : pos ≤ word.length) :
    (Leaf.kw word pos tag).Exact := by
  have hend : word[pos]? = none ↔ pos = word.length := by
    rw [List.getElem?_eq_none_iff]
    omega
  have hadm : ∀ b, (Leaf.kw word pos tag).admissible.charset.contains b =
      decide (word[pos]? = some b) := by
    intro b
    simp only [Leaf.admissible, Kw.admissible]
    cases word[pos]? with
    | none => simp [Admissible.timeToFinish]
    | some c =>
      rw [Charset.contains_singleton, Bool.eq_iff_iff]
      simp [eq_comm]
  have hnext : ∀ b, ((Leaf.kw word pos tag).nextAt (.byte b)).isSome =
      decide (word[pos]? = some b) := by
    intro b
    simp only [Leaf.nextAt, Leaf.step, Kw.step]
    by_cases hpos : pos = word.length
    · rw [if_pos hpos, hend.mpr hpos]
      split_ifs <;> rfl
    · rw [if_neg hpos]
      split_ifs with hb <;> simp [hb]
  have heof : ((Leaf.kw word pos tag).valueAt .eof).isSome = decide (pos = word.length) := by
    simp only [Leaf.valueAt, Leaf.step, Kw.step]
    split_ifs with hpos <;> simp [hpos]
  constructor
  · intro b
    rw [hadm, hnext]
  · rw [heof]
    simp only [Leaf.admissible, Kw.admissible]
    cases hc : word[pos]? with
    | none => simp [Admissible.timeToFinish, hend.mp hc]
    | some c =>
      have hne : pos ≠ word.length := fun hpos => by
        rw [hend.mpr hpos] at hc
        cases hc
      simp [hne]
  · intro b
    simp only [Leaf.admissible, Kw.admissible]
    cases word[pos]? <;> rfl
  · simp only [Leaf.nextAt, Leaf.step, Kw.step]
    split_ifs <;> rfl
  · intro i hi
    rw [heof, decide_eq_true_iff]
    cases i with
    | eof => rwa [heof, decide_eq_true_iff] at hi
    | text b => cases hi
    | byte b =>
      by_contra hpos
      simp only [Leaf.valueAt, Leaf.step, Kw.step, if_neg hpos] at hi
      split_ifs at hi <;> cases hi
  · exact fun _ _ => rfl

theorem Leaf.exact_overlay (alive : List WordEntry) (pos : ℕ) :
    (Leaf.overlay alive pos : Leaf α).Exact := by
  have hvalue : ∀ i, (Leaf.overlay alive pos : Leaf α).valueAt i = none := by
    intro i
    cases i with
    | byte b =>
      simp only [Leaf.valueAt, Leaf.step, Overlay.step]
      split_ifs
      · rfl
      · cases alive.filter fun entry => entry.byteAt pos == some b <;> rfl
    | _ => rfl
  have hcharset : ∀ f : Charset → WordEntry → Charset,
      (∀ cs entry, f cs entry = (entry.byteAt pos).elim cs cs.add) → ∀ (cs : Charset) (b : Ascii),
      (alive.foldl f cs).contains b =
      (cs.contains b || alive.any fun entry => entry.byteAt pos == some b) := by
    intro f hf cs b
    clear hvalue
    induction alive generalizing cs with
    | nil => simp
    | cons entry alive ih =>
      rw [List.foldl_cons, ih, List.any_cons, ← Bool.or_assoc, hf]
      cases entry.byteAt pos with
      | none => simp
      | some c =>
        have hbeq : (some c == some b) = decide (b = c) := by
          rw [Bool.eq_iff_iff, beq_iff_eq, Option.some.injEq, decide_eq_true_iff]
          exact eq_comm
        rw [Option.elim_some, Charset.contains_add, hbeq]
  have hword : ∀ (entry : WordEntry) (b : Ascii), entry.byteAt pos = some b →
      isBoundaryByte b.1 = false := by
    intro entry b hb
    unfold WordEntry.byteAt at hb
    split_ifs at hb with hlt
    cases hb
    have hw := isWordByte_of_entry entry.isWord (List.getElem_mem hlt)
    simp only [isWordByte, Bool.and_eq_true, Bool.not_eq_true'] at hw
    exact hw.2
  constructor
  · intro b
    simp only [Leaf.nextAt, Leaf.step, Overlay.step]
    refine (hcharset _ ?_ .empty b).trans ?_
    · intro cs entry
      cases entry.byteAt pos <;> rfl
    rw [Charset.contains_empty, Bool.false_or]
    have hany : (alive.any fun entry => entry.byteAt pos == some b) =
        !(alive.filter fun entry => entry.byteAt pos == some b).isEmpty := by
      rw [Bool.eq_iff_iff]
      simp [List.filter_eq_nil_iff]
    rw [hany]
    cases hf : alive.filter fun entry => entry.byteAt pos == some b with
    | nil => split_ifs <;> rfl
    | cons entry rest =>
      have hmem : entry ∈ alive.filter fun entry => entry.byteAt pos == some b := by
        rw [hf]
        exact List.mem_cons_self
      have hb := hword entry b (eq_of_beq (List.mem_filter.mp hmem).2)
      rw [if_neg (by rw [hb]; exact Bool.noConfusion)]
      rfl
  · rw [hvalue]
    rfl
  · exact fun _ => rfl
  · rfl
  · intro i hi
    rw [hvalue] at hi
    cases hi
  · intro b c
    rw [hvalue, hvalue]

/-- Whether a word goes on with a byte. -/
def Word.takes (word : Word) (b : Ascii) : Bool :=
  !isBoundaryByte b.1 && !(word.bare && (word.len == 0 && (b == openBracket || b == openBrace))) &&
    !(word.bare && (word.dash1 && b == dash))

theorem Word.contains_admissibleCore (word : Word) (b : Ascii) :
    word.admissibleCore.charset.contains b = word.takes b := by
  have hword : wordCharset.contains b = !isBoundaryByte b.1 := by
    simp [wordCharset, isWordByte, b.2]
  have hbeq : ∀ c : Ascii, (b == c) = decide (b = c) := fun c => by
    rw [Bool.eq_iff_iff, beq_iff_eq, decide_eq_true_iff]
  rw [admissibleCore, takes, hbeq, hbeq, hbeq]
  generalize isBoundaryByte b.1 = boundary at hword
  cases word.bare with
  | false => simp [hword]
  | true =>
    cases word.len == 0 <;> cases word.dash1 <;> simp [hword, Charset.contains_remove,
      Bool.and_assoc]

theorem Leaf.isSome_nextAt_capWord (word : Word) (bytes : Str) (b : Ascii) :
    ((Leaf.capWord word bytes).nextAt (.byte b)).isSome = word.takes b := by
  simp only [Leaf.nextAt, Leaf.step, CapWord.step, Word.stepCore, Word.takes]
  cases isBoundaryByte b.1 with
  | true => cases word.finishable <;> rfl
  | false =>
    generalize (word.bare && (word.len == 0 && (b == openBracket || b == openBrace))) = opens
    generalize (word.bare && (word.dash1 && b == dash)) = flag
    cases opens <;> cases flag <;> rfl

theorem Leaf.isSome_valueAt_capWord (word : Word) (bytes : Str) (i : Input) :
    ((Leaf.capWord word bytes).valueAt i).isSome = true ↔ word.stepCore i = .finish := by
  simp only [Leaf.valueAt, Leaf.step, CapWord.step]
  cases word.stepCore i <;> simp

theorem Leaf.exact_capWord (word : Word) (bytes : Str) : (Leaf.capWord word bytes).Exact := by
  have heof : ((Leaf.capWord word bytes).valueAt .eof).isSome = word.finishable := by
    rw [Bool.eq_iff_iff, isSome_valueAt_capWord]
    simp only [Word.stepCore]
    cases word.finishable <;> simp
  constructor
  · intro b
    rw [isSome_nextAt_capWord]
    exact word.contains_admissibleCore b
  · rw [heof]
    rfl
  · exact fun _ => rfl
  · simp only [Leaf.nextAt, Leaf.step, CapWord.step, Word.stepCore]
    cases word.finishable <;> rfl
  · intro i hi
    rw [isSome_valueAt_capWord] at hi
    rw [heof]
    cases i with
    | eof =>
      simp only [Word.stepCore] at hi
      split_ifs at hi with h
      exact h
    | text b => cases hi
    | byte b =>
      simp only [Word.stepCore] at hi
      split_ifs at hi with hb h
      exact h
  · exact fun _ _ => rfl

theorem Leaf.exact_capQuoted (state : QuotedState) (text : Str) :
    (Leaf.capQuoted state text).Exact := by
  cases state with
  | opening =>
    constructor
    · intro b
      simp only [Leaf.admissible, CapQuoted.admissible, Charset.contains_singleton, Leaf.nextAt,
        Leaf.step, CapQuoted.step]
      split_ifs with h <;> simp [h]
    · rfl
    · exact fun _ => rfl
    · rfl
    · intro i hi
      cases i with
      | byte b =>
        simp only [Leaf.valueAt, Leaf.step, CapQuoted.step] at hi
        split_ifs at hi <;> cases hi
      | _ => cases hi
    · exact fun _ _ => rfl
  | body =>
    constructor
    · intro b
      simp only [Leaf.admissible, CapQuoted.admissible, Charset.contains_all, Leaf.nextAt,
        Leaf.step, CapQuoted.step]
      split_ifs <;> rfl
    · rfl
    · exact fun _ => rfl
    · rfl
    · intro i hi
      cases i with
      | byte b =>
        simp only [Leaf.valueAt, Leaf.step, CapQuoted.step] at hi
        split_ifs at hi <;> cases hi
      | _ => cases hi
    · exact fun _ _ => rfl
  | escape =>
    have hescape : ∀ b : Ascii, quoteEscapeCharset.contains b = (unescape b.1).isSome := by
      intro b
      simp only [quoteEscapeCharset, Charset.contains_add, Charset.contains_empty, unescape,
        Subtype.ext_iff, Bool.false_or]
      split_ifs <;> simp_all [quote]
    constructor
    · intro b
      simp only [Leaf.admissible, CapQuoted.admissible, hescape, Leaf.nextAt, Leaf.step,
        CapQuoted.step]
      cases unescape b.1 <;> rfl
    · rfl
    · exact fun _ => rfl
    · rfl
    · intro i hi
      cases i with
      | byte b =>
        simp only [Leaf.valueAt, Leaf.step, CapQuoted.step] at hi
        cases hb : unescape b.1 <;> rw [hb] at hi <;> cases hi
      | _ => cases hi
    · exact fun _ _ => rfl
  | finished =>
    constructor
    · intro b
      simp only [Leaf.admissible, CapQuoted.admissible, Admissible.timeToFinish,
        Charset.contains_empty]
      rfl
    · rfl
    · exact fun _ => rfl
    · rfl
    · exact fun _ _ => rfl
    · exact fun _ _ => rfl

/-- A literal that is not finished takes every byte once it is open. -/
theorem Leaf.exact_capCompound (state : CompoundState) (text : Str) :
    (Leaf.capCompound state text).Exact := by
  by_cases hfin : state = .finished
  · subst hfin
    constructor
    · intro b
      simp only [Leaf.admissible, CapCompound.admissible, Admissible.timeToFinish,
        Charset.contains_empty]
      rfl
    · rfl
    · exact fun _ => rfl
    · rfl
    · exact fun _ _ => rfl
    · exact fun _ _ => rfl
  have hvalue : ∀ i, (Leaf.capCompound state text).valueAt i = none := by
    intro i
    cases i with
    | eof => simp only [Leaf.valueAt, Leaf.step, CapCompound.step, if_neg hfin]
    | byte b =>
      simp only [Leaf.valueAt, Leaf.step, CapCompound.step, if_neg hfin]
      cases state.next b.1 <;> rfl
    | text b =>
      simp only [Leaf.valueAt, Leaf.step, CapCompound.step, if_neg hfin]
      cases state.nextText <;> rfl
  have hnext : ∀ b, ((Leaf.capCompound state text).nextAt (.byte b)).isSome =
      (state.next b.1).isSome := by
    intro b
    simp only [Leaf.nextAt, Leaf.step, CapCompound.step, if_neg hfin]
    cases state.next b.1 <;> rfl
  have hnextText : ∀ b, ((Leaf.capCompound state text).nextAt (.text b)).isSome =
      state.nextText.isSome := by
    intro b
    simp only [Leaf.nextAt, Leaf.step, CapCompound.step, if_neg hfin]
    cases state.nextText <;> rfl
  constructor
  · intro b
    rw [hnext]
    cases state with
    | opening =>
      simp only [Leaf.admissible, CapCompound.admissible, Charset.contains_add,
        Charset.contains_empty, Bool.false_or, CompoundState.next]
      have hopen : IsOpen b.1 ↔ b = openBracket ∨ b = openBrace := by
        simp only [IsOpen, Subtype.ext_iff]
        rfl
      by_cases ho : IsOpen b.1
      · rw [if_pos ho]
        simpa using hopen.mp ho
      · rw [if_neg ho]
        simpa using fun h => ho (hopen.mpr h)
    | finished => exact absurd rfl hfin
    | plain depth =>
      simp only [Leaf.admissible, CapCompound.admissible, Charset.contains_all,
        CompoundState.next]
      split_ifs <;> rfl
    | str depth =>
      simp only [Leaf.admissible, CapCompound.admissible, Charset.contains_all,
        CompoundState.next]
      split_ifs <;> rfl
    | strEscape depth =>
      simp only [Leaf.admissible, CapCompound.admissible, Charset.contains_all]
      rfl
  · rw [hvalue]
    cases state <;> first | rfl | exact absurd rfl hfin
  · intro b
    rw [hnextText]
    cases state <;> rfl
  · simp only [Leaf.nextAt, Leaf.step, CapCompound.step, if_neg hfin]
    rfl
  · intro i hi
    rw [hvalue] at hi
    cases hi
  · intro b c
    rw [hvalue, hvalue]

theorem Leaf.exact_ws : Leaf.ws.Exact := by
  constructor
  · intro b
    simp only [Leaf.admissible, wsCharset, Charset.contains_build, Leaf.nextAt, Leaf.step, Ws.step]
    cases isWs b.1 <;> rfl
  · rfl
  · exact fun _ => rfl
  · rfl
  · exact fun _ _ => rfl
  · exact fun _ _ => rfl

theorem Leaf.exact_commentRest : Leaf.commentRest.Exact := by
  constructor
  · intro b
    simp only [Leaf.admissible, Charset.contains_all]
    rfl
  · rfl
  · exact fun _ => rfl
  · rfl
  · exact fun _ _ => rfl
  · exact fun _ _ => rfl

/-- A leaf in a proper state admits what it takes. -/
theorem Leaf.Proper.exact {l : Leaf α} (h : l.Proper) : l.Exact := by
  cases l with
  | fail =>
    constructor
    · intro b
      rw [Leaf.admissible, Charset.contains_empty]
      rfl
    · rfl
    · exact fun _ => rfl
    · rfl
    · exact fun _ hi => by cases hi
    · exact fun _ _ => rfl
  | lit rest => exact Leaf.exact_lit rest
  | kw word pos tag => exact Leaf.exact_kw h
  | overlay alive pos => exact Leaf.exact_overlay alive pos
  | capWord word bytes => exact Leaf.exact_capWord word bytes
  | capQuoted state text => exact Leaf.exact_capQuoted state text
  | capCompound state text => exact Leaf.exact_capCompound state text
  | ws => exact Leaf.exact_ws
  | commentRest => exact Leaf.exact_commentRest

mutual

/-- A state whose parts are proper and whose binds do not look ahead. -/
def Parser.Tame {α : Type} : Parser Nt α → Prop
  | .pure _ => True
  | .map parser _ => parser.Tame
  | .bind p1 f =>
    p1.Tame ∧ (∀ a, (f a).Tame) ∧
      ∀ w i a a', p1.run w i = some a → p1.run w .eof = some a' → (f a).Alike (f a')
  | .bound p2 => p2.Tame
  | .oneOf branches => branches ≠ .nil ∧ branches.Tame
  | .lazy _ => True
  | .leaf l => l.Proper

def Branches.Tame {α : Type} : Branches Nt α → Prop
  | .nil => True
  | .cons p rest => p.Tame ∧ rest.Tame

end

theorem Branches.tame_iff : ∀ bs : Branches Nt α, bs.Tame ↔ ∀ p ∈ bs.toList, p.Tame
  | .nil => by simp [Tame, toList]
  | .cons p rest => by simp [Tame, toList, tame_iff rest]

namespace Parser

theorem tame_alt {ps : List (Parser Nt α)} (hne : ps ≠ []) :
    (alt ps).Tame ↔ ∀ p ∈ ps, p.Tame := by
  unfold alt
  split
  · exact List.forall_mem_singleton.symm
  · rw [Tame, Branches.tame_iff, Branches.toList_ofList]
    constructor
    · exact fun h => h.2
    · intro h
      refine ⟨?_, h⟩
      cases ps with
      | nil => exact absurd rfl hne
      | cons p ps =>
        rw [Branches.ofList]
        rintro ⟨⟩

theorem tame_of_alive {ps : List (Parser Nt α)} {q : Parser Nt α} (h : ∀ p ∈ ps, p.Tame)
    (hq : alive ps = some q) : q.Tame := by
  cases ps with
  | nil => cases hq
  | cons p ps =>
    cases hq
    exact (tame_alt (List.cons_ne_nil p ps)).mpr h

namespace Alike

variable {p q : Parser Nt α}

theorem refl (p : Parser Nt α) : p.Alike p := ⟨fun _ => rfl, fun _ => rfl⟩

theorem pure (v v' : α) : (Parser.pure v : Parser Nt α).Alike (Parser.pure v') :=
  ⟨fun _ => rfl, fun _ => rfl⟩

theorem map {p q : Parser Nt α} (h : p.Alike q) (f g : α → β) : (p.map f).Alike (q.map g) := by
  constructor
  · intro i
    rw [nextAt_map, nextAt_map, Option.isSome_map, Option.isSome_map, h.next i]
  · intro i
    rw [valueAt_map, valueAt_map, Option.isSome_map, Option.isSome_map, h.value i]

theorem alt {ps qs : List (Parser Nt α)} (h : List.Forall₂ Alike ps qs) :
    (Parser.alt ps).Alike (Parser.alt qs) := by
  constructor
  · intro i
    rw [nextAt_alt, nextAt_alt, isSome_alive, isSome_alive]
    congr 1
    induction h with
    | nil => rfl
    | @cons p q ps qs h _ ih =>
      have hpq := h.next i
      rw [List.filterMap_cons, List.filterMap_cons]
      cases hp : p.nextAt i with
      | none =>
        rw [hp] at hpq
        rw [Option.isSome_eq_false_iff.mp hpq.symm |> Option.isNone_iff_eq_none.mp]
        exact ih
      | some p' =>
        rw [hp] at hpq
        obtain ⟨q', hq⟩ := Option.isSome_iff_exists.mp hpq.symm
        rw [hq]
        rfl
  · intro i
    rw [valueAt_alt, valueAt_alt]
    induction h with
    | nil => rfl
    | @cons p q ps qs h _ ih =>
      have hpq := h.value i
      rw [List.findSome?_cons, List.findSome?_cons]
      cases hp : p.valueAt i with
      | none =>
        rw [hp] at hpq
        rw [Option.isSome_eq_false_iff.mp hpq.symm |> Option.isNone_iff_eq_none.mp]
        exact ih
      | some p' =>
        rw [hp] at hpq
        obtain ⟨q', hq⟩ := Option.isSome_iff_exists.mp hpq.symm
        rw [hq]
        rfl

theorem lazy {m m' : Nt α} (h : (build m).Alike (build m')) :
    (Parser.lazy m : Parser Nt α).Alike (Parser.lazy m') := by
  constructor
  · intro i
    rw [nextAt_lazy, nextAt_lazy, h.next i]
  · intro i
    rw [valueAt_lazy, valueAt_lazy, h.value i]

/-- Behind a parser that takes an input the right sides are not seen yet. -/
theorem bind_consuming (hc : p.Consumes) (hc' : q.Consumes) (h : p.Alike q)
    (f g : α → Parser Nt β) : (p.bind f).Alike (q.bind g) := by
  have hp : ∀ i, p.valueAt i = none := run_nil_of_consumes hc
  have hq : ∀ i, q.valueAt i = none := run_nil_of_consumes hc'
  constructor
  · intro i
    rw [isSome_nextAt_bind, isSome_nextAt_bind, hp, hq, h.next i]
    rfl
  · intro i
    rw [valueAt_bind, valueAt_bind, hp, hq]
    rfl

/-- Right sides that look alike behind one left side. -/
theorem bind {f g : α → Parser Nt β} (h : ∀ a, (f a).Alike (g a)) :
    (p.bind f).Alike (p.bind g) := by
  constructor
  · intro i
    rw [isSome_nextAt_bind, isSome_nextAt_bind]
    cases p.valueAt i with
    | none => rfl
    | some a => rw [Option.bind_some, Option.bind_some, (h a).next i]
  · intro i
    rw [valueAt_bind, valueAt_bind]
    cases p.valueAt i with
    | none => rfl
    | some a => exact (h a).value i

end Alike

/-- A bind whose right sides all look alike. -/
theorem tame_bind {p : Parser Nt α} {f : α → Parser Nt β} (hp : p.Tame) (hf : ∀ a, (f a).Tame)
    (halike : ∀ a a', (f a).Alike (f a')) : (p.bind f).Tame :=
  ⟨hp, hf, fun _ _ a a' _ _ => halike a a'⟩

theorem tame_keepRight {p : Parser Nt Unit} {q : Parser Nt α} (hp : p.Tame) (hq : q.Tame) :
    (p.keepRight q).Tame := tame_bind hp (fun _ => hq) fun _ _ => .refl q

theorem tame_keepLeft {p : Parser Nt α} {q : Parser Nt Unit} (hp : p.Tame) (hq : q.Tame) :
    (p.keepLeft q).Tame := tame_bind hp (fun _ => hq) fun _ _ => (Alike.refl q).map _ _

variable (hbuild : ∀ {α : Type} (n : Nt α), (build n).Tame)

include hbuild

/-- A tame state steps to tame states. -/
theorem Tame.nextAt {p q : Parser Nt α} (h : p.Tame) {b : UInt8}
    (hq : p.nextAt (.ofByte b) = some q) : q.Tame := by
  induction p using Parser.inductStep with
  | pure v => cases hq
  | map p f ih =>
    rw [nextAt_map] at hq
    obtain ⟨p', hp', rfl⟩ := Option.map_eq_some_iff.mp hq
    exact ih h hp'
  | bind p f ihp ihf =>
    obtain ⟨hp, hf, halike⟩ := h
    rw [nextAt_bind] at hq
    apply tame_of_alive ?_ hq
    intro r hr
    rcases List.mem_append.mp hr with hr | hr
    · obtain ⟨p', hp', rfl⟩ := Option.map_eq_some_iff.mp (Option.mem_toList.mp hr)
      refine ⟨ihp hp hp', hf, ?_⟩
      intro w i a a' ha ha'
      apply halike (b :: w) i a a'
      · rw [run_cons, hp']
        exact ha
      · rw [run_cons, hp']
        exact ha'
    · obtain ⟨r', hr', rfl⟩ := Option.map_eq_some_iff.mp (Option.mem_toList.mp hr)
      obtain ⟨a, ha, hnext⟩ := Option.bind_eq_some_iff.mp hr'
      have htame := ihf _ a ha (hf a) hnext
      exact htame
  | bound p ih =>
    rw [nextAt_bound] at hq
    obtain ⟨p', hp', rfl⟩ := Option.map_eq_some_iff.mp hq
    have htame := ih h hp'
    exact htame
  | oneOf bs ih =>
    rw [nextAt_oneOf] at hq
    apply tame_of_alive ?_ hq
    intro r hr
    obtain ⟨p, hp, hr⟩ := List.mem_filterMap.mp hr
    exact ih p hp ((Branches.tame_iff bs).mp h.2 p hp) hr
  | lazy n ih =>
    rw [nextAt_lazy] at hq
    exact ih (hbuild n) hq
  | leaf l =>
    rw [nextAt_leaf] at hq
    obtain ⟨m, hm, rfl⟩ := Option.map_eq_some_iff.mp hq
    exact Leaf.Proper.nextAt h hm

/-- Every state a tame state leads to is tame. -/
theorem Tame.feedBytes {p q : Parser Nt α} (h : p.Tame) {w : Str} (hq : p.feedBytes w = some q) :
    q.Tame := by
  induction w generalizing p with
  | nil =>
    cases hq
    exact h
  | cons b w ih =>
    rw [feedBytes_cons] at hq
    obtain ⟨p', hp', hq⟩ := Option.bind_eq_some_iff.mp hq
    exact ih (h.nextAt hbuild hp') hq

omit hbuild in
/-- The branches admit together what each of them takes. -/
theorem admissible_branches : ∀ (bs : Branches Nt α) (acc : Option Admissible)
    (next value : Input → Bool), (∀ p ∈ bs.toList, ∃ adm, p.admissible = .ok adm ∧ Exact p adm) →
    (∀ a ∈ acc, Describes a next value) →
    (acc = none → bs ≠ .nil ∧ next = (fun _ => false) ∧ value = fun _ => false) →
    ∃ adm, bs.admissibleWith callStep callAdmissible acc = .ok adm ∧
      Describes adm (fun i => next i || bs.toList.any fun p => (p.nextAt i).isSome)
        fun i => value i || bs.toList.any fun p => (p.valueAt i).isSome
  | .nil, none, _, _, _, _, hnone => absurd rfl (hnone rfl).1
  | .nil, some a, next, value, _, hacc, _ => by
    refine ⟨a, rfl, ?_⟩
    simpa [Branches.toList] using hacc a rfl
  | .cons p rest, acc, next, value, hall, hacc, hnone => by
    obtain ⟨adm, hadm, hexact⟩ := hall p List.mem_cons_self
    have hrest : ∀ joined, Describes joined (fun i => next i || (p.nextAt i).isSome)
        (fun i => value i || (p.valueAt i).isSome) →
        ∃ adm, rest.admissibleWith callStep callAdmissible (some joined) = .ok adm ∧
          Describes adm (fun i => next i || (Branches.cons p rest).toList.any fun p =>
            (p.nextAt i).isSome) fun i => value i || (Branches.cons p rest).toList.any fun p =>
              (p.valueAt i).isSome := by
      intro joined hjoined
      obtain ⟨total, htotal, hdesc⟩ := admissible_branches rest (some joined) _ _
        (fun q hq => hall q (List.mem_cons_of_mem p hq))
        (fun a ha => Option.some.inj ha ▸ hjoined) (fun h => by cases h)
      refine ⟨total, htotal, ?_⟩
      simpa [Branches.toList, Bool.or_assoc] using hdesc
    rw [Branches.admissibleWith, show p.admissibleWith callStep callAdmissible = .ok adm from hadm]
    cases acc with
    | none =>
      apply hrest adm
      obtain ⟨-, rfl, rfl⟩ := hnone rfl
      simpa using hexact
    | some a => exact hrest (a.either adm) ((hacc a rfl).either hexact)

omit hbuild in
theorem Exact.oneOf {bs : Branches Nt α} (hne : bs ≠ .nil)
    (hall : ∀ p ∈ bs.toList, ∃ adm, p.admissible = .ok adm ∧ Exact p adm) :
    ∃ adm, (Parser.oneOf bs).admissible = .ok adm ∧ Exact (Parser.oneOf bs) adm := by
  obtain ⟨adm, hadm, hdesc⟩ := admissible_branches bs none (fun _ => false) (fun _ => false) hall
    nofun fun _ => ⟨hne, rfl, rfl⟩
  refine ⟨adm, hadm, ?_⟩
  simp only [Exact, isSome_nextAt_oneOf, isSome_valueAt_oneOf]
  simpa using hdesc

omit hbuild in
theorem admissible_bind (p : Parser Nt α) (f : α → Parser Nt β) {p1e : Admissible}
    (hp : p.admissible = .ok p1e) (hexact : Exact p p1e) :
    (p.bind f).admissible =
      if p1e.hardRequired then .ok p1e
      else match p.valueAt .eof with
        | none => .error .lied
        | some a => ((f a).admissible).map fun p2e =>
          bindAdmissible p1e p2e fun i => finishes (p.stepWith callStep i) := by
  have hstep := step_eq p .eof
  have heof : p.nextAt .eof = none := by
    have h := hexact.eof
    cases hn : p.nextAt .eof with
    | none => rfl
    | some q =>
      rw [hn] at h
      cases h
  rw [heof, step] at hstep
  rw [admissible, admissibleWith, show p.admissibleWith callStep callAdmissible = .ok p1e from hp]
  change (if p1e.hardRequired = true then _ else _) = _
  split_ifs with hard
  · rfl
  · rw [hstep]
    cases p.valueAt .eof with
    | none => rfl
    | some a =>
      change (if Input.eof ≠ Input.eof then _ else _) = _
      rw [if_neg (fun h => h rfl)]
      change _ = Except.map _ ((f a).admissibleWith callStep callAdmissible)
      cases (f a).admissibleWith callStep callAdmissible <;> rfl

/-- A tame state admits exactly what it takes. -/
theorem Tame.exact {p : Parser Nt α} (h : p.Tame) :
    ∃ adm, p.admissible = .ok adm ∧ Exact p adm := by
  induction p using Parser.inductStep with
  | pure v =>
    refine ⟨.timeToFinish, rfl, ?_⟩
    constructor
    · intro b
      simp [Admissible.timeToFinish]
    · rfl
    · exact fun _ => rfl
    · rfl
    · exact fun _ _ => rfl
    · exact fun _ _ => rfl
  | map p f ih =>
    obtain ⟨adm, hadm, hexact⟩ := ih h
    refine ⟨adm, hadm, ?_⟩
    simpa [Exact] using hexact
  | bind p f ihp ihf =>
    obtain ⟨hp, hf, halike⟩ := h
    obtain ⟨p1e, hp1e, hexact⟩ := ihp hp
    rw [admissible_bind p f hp1e hexact]
    cases hard : p1e.hardRequired with
    | true => exact ⟨p1e, rfl, hexact.bind_hard hard⟩
    | false =>
      obtain ⟨a, ha⟩ := hexact.valueAt_eof.mp hard
      obtain ⟨p2e, hp2e, hexact'⟩ := ihf .eof a ha (hf a)
      refine ⟨_, ?_, hexact.bind_soft ha hexact' fun i a' ha' => halike [] i a' a ha' ha⟩
      rw [ha]
      change Except.map _ (f a).admissible = _
      rw [hp2e]
      rfl
  | bound p ih =>
    obtain ⟨adm, hadm, hexact⟩ := ih h
    refine ⟨adm, hadm, ?_⟩
    simpa [Exact] using hexact
  | oneOf bs ih =>
    exact Exact.oneOf h.1 fun p hp => ih p hp ((Branches.tame_iff bs).mp h.2 p hp)
  | lazy n ih =>
    obtain ⟨adm, hadm, hexact⟩ := ih (hbuild n)
    refine ⟨adm, (admissible_lazy n).trans hadm, ?_⟩
    simpa [Exact] using hexact
  | leaf l =>
    refine ⟨l.admissible, rfl, ?_⟩
    have hexact := Leaf.Proper.exact h
    simpa [Exact, Leaf.Exact] using hexact

omit hbuild in
theorem completions_branches : ∀ bs : Branches Nt α,
    (∀ p ∈ bs.toList, ∃ cs, p.completions = .ok cs) →
    ∃ cs, bs.completionsWith callStep callAdmissible callCompletions = .ok cs
  | .nil, _ => ⟨[], rfl⟩
  | .cons p rest, hall => by
    obtain ⟨first, hfirst⟩ := hall p List.mem_cons_self
    obtain ⟨others, hothers⟩ := completions_branches rest fun q hq =>
      hall q (List.mem_cons_of_mem p hq)
    refine ⟨first ++ others, ?_⟩
    rw [Branches.completionsWith, hothers,
      show p.completionsWith callStep callAdmissible callCompletions = .ok first from hfirst]
    rfl

/-- A tame state can be asked for its completions. -/
theorem Tame.completions {p : Parser Nt α} (h : p.Tame) : ∃ cs, p.completions = .ok cs := by
  induction p using Parser.inductStep with
  | pure v => exact ⟨[], rfl⟩
  | map p f ih => exact ih h
  | bind p f ihp ihf =>
    obtain ⟨hp, hf, -⟩ := h
    obtain ⟨left, hleft⟩ := ihp hp
    obtain ⟨p1e, hp1e, -⟩ := hp.exact hbuild
    have heq : (p.bind f).completions =
        if p1e.hardRequired then .ok left
        else match p.valueAt .eof with
          | none => .ok left
          | some a => ((f a).completions).map fun right => left ++ right := by
      rw [Parser.completions, completionsWith,
        show p.completionsWith callStep callAdmissible callCompletions = .ok left from hleft,
        show p.admissibleWith callStep callAdmissible = .ok p1e from hp1e]
      change (if p1e.hardRequired = true then _ else _) = _
      split_ifs with hard
      · rfl
      · rw [valueAt, step]
        cases (p.stepWith callStep .eof).bind Step.value with
        | none => rfl
        | some a =>
          change Except.bind ((f a).completionsWith callStep callAdmissible callCompletions) _ =
            Except.map _ ((f a).completionsWith callStep callAdmissible callCompletions)
          cases (f a).completionsWith callStep callAdmissible callCompletions <;> rfl
    rw [heq]
    split_ifs
    · exact ⟨left, rfl⟩
    · cases ha : p.valueAt .eof with
      | none => exact ⟨left, rfl⟩
      | some a =>
        obtain ⟨right, hright⟩ := ihf .eof a ha (hf a)
        refine ⟨left ++ right, ?_⟩
        change Except.map _ (f a).completions = _
        rw [hright]
        rfl
  | bound p ih => exact ih h
  | oneOf bs ih =>
    exact completions_branches bs fun p hp => ih p hp ((Branches.tame_iff bs).mp h.2 p hp)
  | lazy n ih =>
    obtain ⟨cs, hcs⟩ := ih (hbuild n)
    exact ⟨cs, (completions_lazy n).trans hcs⟩
  | leaf l => exact ⟨l.completions, rfl⟩

end Parser

end Eo9.Eosh
