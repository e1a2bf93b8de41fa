import Eo9.Store.Cache

/-!
# Metadata survives a rewrite

What `to_text` writes, `parse` reads back with the target and the compiler trimmed; so the
metadata survives any number of lookups when these two have no blanks at their ends.
-/

namespace Eo9.Store

open Eo9.Library

/-- A key of the format: a word that starts no comment. -/
structure IsKey (key : Text) : Prop where
  ne_nil : key ≠ []
  word : ∀ c ∈ key, ¬ isWhitespace c = true
  no_comment : key.head? ≠ some '#'

theorem IsKey.ofWord {key : Text} (hne : key ≠ [])
    (hword : key.all (fun c => !isWhitespace c) = true) (hcomment : key.head? ≠ some '#') :
    IsKey key where
  ne_nil := hne
  word c hc := by
    have hblank := List.all_eq_true.mp hword c hc
    rwa [Bool.not_eq_true', ← Bool.not_eq_true] at hblank
  no_comment := hcomment

section Lines

variable {key value : Text} {fields : Fields} {n : ℕ} {rest : List Text}

/-- A line with a key sets the field of that key to the trimmed value. -/
theorem parseLines_field (hkey : IsKey key) {fields' : Fields}
    (hset : fields.set n key (trim isWhitespace value) = .ok fields') :
    parseLines n ((key ++ ' ' :: value) :: rest) fields = parseLines (n + 1) rest fields' := by
  have hblank : isWhitespace ' ' = true := by decide
  have hparts := wordAndValue_append value hkey.ne_nil hkey.word hblank
  have hhead : (trim isWhitespace (key ++ ' ' :: value)).head? = key.head? := by
    obtain ⟨-, hline⟩ | ⟨lead, -, hline⟩ := trim_word value hkey.ne_nil hkey.word hblank
    · rw [hline]
    · rw [hline, List.head?_append_of_ne_nil _ hkey.ne_nil]
  have hnot : ¬ (trim isWhitespace (key ++ ' ' :: value) = [] ∨
      (trim isWhitespace (key ++ ' ' :: value)).head? = some '#') := by
    rw [hhead]
    rintro (hnil | hcomment)
    · rw [hnil] at hhead
      exact hkey.ne_nil (List.head?_eq_none_iff.mp hhead.symm)
    · exact hkey.no_comment hcomment
  rw [wordAndValue, Prod.mk.injEq] at hparts
  rw [parseLines]
  dsimp only at hparts ⊢
  rw [if_neg hnot, hparts.1, hparts.2, hset]

theorem trim_of_word (h : ∀ c ∈ value, ¬ isWhitespace c = true) :
    trim isWhitespace value = value :=
  trim_eq_self_iff.mpr ⟨fun c hc => h c (List.mem_of_mem_head? hc),
    fun c hc => h c (List.mem_of_mem_getLast? hc)⟩

theorem not_isWhitespace_of_isDigit {c : Char} (h : c.isDigit = true) :
    ¬ isWhitespace c = true := by
  simp only [Char.isDigit, Bool.and_eq_true, decide_eq_true_eq] at h
  have h0 : 48 ≤ c.toNat := h.1
  have h9 : c.toNat ≤ 57 := h.2
  simp only [isWhitespace, Bool.or_eq_true, Bool.and_eq_true, decide_eq_true_eq]
  omega

theorem trim_decimal (k : UInt64) : trim isWhitespace (decimal k) = decimal k :=
  trim_of_word fun _ hc => not_isWhitespace_of_isDigit (isDigit_of_mem_decimal hc)

theorem parseNumber_decimal (k : UInt64) : parseNumber n (decimal k) = .ok k := by
  rw [parseNumber, parseU64_decimal]

end Lines

/-- The metadata as it is read back. -/
def ImageMetadata.trimmed (m : ImageMetadata) : ImageMetadata :=
  { m with
    targetTriple := trim isWhitespace m.targetTriple
    compilerVersion := trim isWhitespace m.compilerVersion }

/-- No line break in the target or the compiler. -/
structure ImageMetadata.Writable (m : ImageMetadata) : Prop where
  target : '\n' ∉ m.targetTriple ∧ '\r' ∉ m.targetTriple
  compiler : '\n' ∉ m.compilerVersion ∧ '\r' ∉ m.compilerVersion

/-- The lines behind the header. -/
def ImageMetadata.fieldLines (m : ImageMetadata) : List Text :=
  (text "created" ++ ' ' :: decimal m.created) :: (text "last-used" ++ ' ' :: decimal m.lastUsed) ::
    (text "use-count" ++ ' ' :: decimal m.useCount) ::
    (text "image-size" ++ ' ' :: decimal m.imageSize) ::
    (text "target" ++ ' ' :: m.targetTriple) :: (text "compiler" ++ ' ' :: m.compilerVersion) ::
    (text "deterministic" ++ ' ' :: text (if m.compilerDeterministic then "true" else "false")) ::
    m.moduleHashes.map fun hash => text "module" ++ ' ' :: hash.toHex

section Whole

variable {m : ImageMetadata} {t : Text}

theorem writable_of_toText (h : m.toText = .ok t) : m.Writable := by
  unfold ImageMetadata.toText at h
  by_cases htarget : '\n' ∈ m.targetTriple ∨ '\r' ∈ m.targetTriple
  · rw [if_pos htarget] at h
    cases h
  by_cases hcompiler : '\n' ∈ m.compilerVersion ∨ '\r' ∈ m.compilerVersion
  · rw [if_neg htarget, if_pos hcompiler] at h
    cases h
  exact ⟨not_or.mp htarget, not_or.mp hcompiler⟩

theorem toText_of_writable (h : m.Writable) : ∃ t, m.toText = .ok t := by
  unfold ImageMetadata.toText
  rw [if_neg (not_or.mpr h.target), if_neg (not_or.mpr h.compiler)]
  exact ⟨_, rfl⟩

theorem lines_fieldLine {key : String} {value : Text} (rest : Text)
    (hkey : '\n' ∉ text key ∧ '\r' ∉ text key) (hvalue : '\n' ∉ value ∧ '\r' ∉ value) :
    lines (ImageMetadata.fieldLine key value ++ rest) =
      (text key ++ ' ' :: value) :: lines rest := by
  have hline : ∀ c : Char, c ∉ text key → c ∉ value → c ≠ ' ' → c ∉ text key ++ ' ' :: value := by
    intro c hk hv hblank hc
    rcases List.mem_append.mp hc with hc | hc
    · exact hk hc
    · rcases List.mem_cons.mp hc with hc | hc
      · exact hblank hc
      · exact hv hc
  have hsplit : ImageMetadata.fieldLine key value ++ rest =
      (text key ++ ' ' :: value) ++ '\n' :: rest := by
    simp [ImageMetadata.fieldLine]
  rw [hsplit]
  exact lines_append (hline '\n' hkey.1 hvalue.1 (by decide)) (hline '\r' hkey.2 hvalue.2 (by decide))
    rest

theorem unbroken_of_word {value : Text} (h : ∀ c ∈ value, ¬ isWhitespace c = true) :
    '\n' ∉ value ∧ '\r' ∉ value :=
  ⟨fun hc => h _ hc (by decide), fun hc => h _ hc (by decide)⟩

theorem unbroken_decimal (k : UInt64) : '\n' ∉ decimal k ∧ '\r' ∉ decimal k :=
  unbroken_of_word fun _ hc => not_isWhitespace_of_isDigit (isDigit_of_mem_decimal hc)

theorem lines_modules (hashes : List ObjectHash) :
    lines (hashes.flatMap fun hash => ImageMetadata.fieldLine "module" hash.toHex) =
      hashes.map fun hash => text "module" ++ ' ' :: hash.toHex := by
  induction hashes with
  | nil => rfl
  | cons hash hashes ih =>
    rw [List.flatMap_cons, lines_fieldLine _ (by decide)
      (unbroken_of_word fun c hc => not_isWhitespace_of_mem_toHex hc), ih]
    rfl

/-- What is written is the header and a line for each field. -/
theorem lines_toText (h : m.toText = .ok t) : lines t = META_HEADER :: m.fieldLines := by
  have hw := writable_of_toText h
  have hdet : '\n' ∉ text (if m.compilerDeterministic then "true" else "false") ∧
      '\r' ∉ text (if m.compilerDeterministic then "true" else "false") := by
    cases m.compilerDeterministic <;> decide
  unfold ImageMetadata.toText at h
  rw [if_neg (not_or.mpr hw.target), if_neg (not_or.mpr hw.compiler)] at h
  obtain rfl := Except.ok.inj h
  rw [lines_append (by decide) (by decide), lines_fieldLine _ (by decide) (unbroken_decimal _),
    lines_fieldLine _ (by decide) (unbroken_decimal _),
    lines_fieldLine _ (by decide) (unbroken_decimal _),
    lines_fieldLine _ (by decide) (unbroken_decimal _), lines_fieldLine _ (by decide) hw.target,
    lines_fieldLine _ (by decide) hw.compiler, lines_fieldLine _ (by decide) hdet, lines_modules]
  rfl

theorem parseLines_modules (hashes : List ObjectHash) (n : ℕ) (fields : Fields) :
    parseLines n (hashes.map fun hash => text "module" ++ ' ' :: hash.toHex) fields =
      .ok { fields with moduleHashes := fields.moduleHashes ++ hashes } := by
  induction hashes generalizing n fields with
  | nil => rw [List.map_nil, parseLines, List.append_nil]
  | cons hash hashes ih =>
    have hkey : IsKey (text "module") := .ofWord (by decide) (by decide) (by decide)
    have hset : fields.set n (text "module") (trim isWhitespace hash.toHex) =
        .ok { fields with moduleHashes := fields.moduleHashes ++ [hash] } := by
      rw [trim_of_word fun c hc => not_isWhitespace_of_mem_toHex hc, Fields.set,
        if_neg (by decide), if_neg (by decide), if_neg (by decide), if_neg (by decide),
        if_neg (by decide), if_neg (by decide), if_neg (by decide), if_pos rfl, fromHex_toHex]
    rw [List.map_cons, parseLines_field hkey hset, ih, List.append_assoc]
    rfl

/-- What is written is read back with the target and the compiler trimmed. -/
theorem parse_toText (h : m.toText = .ok t) : ImageMetadata.parse t = .ok m.trimmed := by
  have hheader : trim isWhitespace META_HEADER = META_HEADER := by decide +kernel
  have hflag : trim isWhitespace (text (if m.compilerDeterministic then "true" else "false")) =
      text (if m.compilerDeterministic then "true" else "false") := by
    cases m.compilerDeterministic <;> decide
  have hcreated : ∀ fields : Fields, fields.set 2 (text "created")
      (trim isWhitespace (decimal m.created)) = .ok { fields with created := some m.created } := by
    intro fields
    rw [trim_decimal, Fields.set, if_pos rfl, parseNumber_decimal]
    rfl
  have hlastUsed : ∀ fields : Fields, fields.set 3 (text "last-used")
      (trim isWhitespace (decimal m.lastUsed)) =
        .ok { fields with lastUsed := some m.lastUsed } := by
    intro fields
    rw [trim_decimal, Fields.set, if_neg (by decide), if_pos rfl, parseNumber_decimal]
    rfl
  have huseCount : ∀ fields : Fields, fields.set 4 (text "use-count")
      (trim isWhitespace (decimal m.useCount)) =
        .ok { fields with useCount := some m.useCount } := by
    intro fields
    rw [trim_decimal, Fields.set, if_neg (by decide), if_neg (by decide), if_pos rfl,
      parseNumber_decimal]
    rfl
  have himageSize : ∀ fields : Fields, fields.set 5 (text "image-size")
      (trim isWhitespace (decimal m.imageSize)) =
        .ok { fields with imageSize := some m.imageSize } := by
    intro fields
    rw [trim_decimal, Fields.set, if_neg (by decide), if_neg (by decide), if_neg (by decide),
      if_pos rfl, parseNumber_decimal]
    rfl
  have hflagSet : ∀ fields : Fields, fields.set 8 (text "deterministic")
      (trim isWhitespace (text (if m.compilerDeterministic then "true" else "false"))) =
        .ok { fields with compilerDeterministic := some m.compilerDeterministic } := by
    intro fields
    rw [hflag]
    cases m.compilerDeterministic <;> rfl
  have hkey : ∀ key ∈ ["created", "last-used", "use-count", "image-size", "target", "compiler",
      "deterministic"], IsKey (text key) := by
    intro key hkey
    simp only [List.mem_cons, List.not_mem_nil, or_false] at hkey
    obtain rfl | rfl | rfl | rfl | rfl | rfl | rfl := hkey <;>
      exact .ofWord (by decide) (by decide) (by decide)
  rw [ImageMetadata.parse, lines_toText h]
  dsimp only
  rw [if_pos hheader, ImageMetadata.fieldLines,
    parseLines_field (hkey _ (by decide)) (hcreated _),
    parseLines_field (hkey _ (by decide)) (hlastUsed _),
    parseLines_field (hkey _ (by decide)) (huseCount _),
    parseLines_field (hkey _ (by decide)) (himageSize _),
    parseLines_field (hkey _ (by decide)) rfl, parseLines_field (hkey _ (by decide)) rfl,
    parseLines_field (hkey _ (by decide)) (hflagSet _), parseLines_modules]
  rfl

end Whole

/-!
## Metadata over a run of lookups

A lookup rewrites what it has read. So the metadata that was written first is still there, but
for its use count and its last use, after any number of lookups, exactly when the target and the
compiler have no blanks at their ends.
-/

/-- Lookups of an entry, at the given times. -/
def lookups : List UInt64 → Entry → Except StoreError Entry
  | [], entry => .ok entry
  | now :: times, entry => do
      let (_, entry) ← lookupImage now entry
      lookups times entry

/-- Metadata whose target and compiler have no blanks at their ends. -/
structure ImageMetadata.Plain (m : ImageMetadata) : Prop where
  target : Bare isWhitespace m.targetTriple
  compiler : Bare isWhitespace m.compilerVersion

def ImageMetadata.withUse (m : ImageMetadata) (useCount lastUsed : UInt64) : ImageMetadata :=
  { m with useCount, lastUsed }

section Run

variable {m : ImageMetadata} {t : Text}

theorem trimmed_eq_iff : m.trimmed = m ↔ m.Plain := by
  constructor
  · intro h
    exact ⟨trim_eq_self_iff.mp (congrArg ImageMetadata.targetTriple h),
      trim_eq_self_iff.mp (congrArg ImageMetadata.compilerVersion h)⟩
  · intro h
    rw [ImageMetadata.trimmed, trim_eq_self_iff.mpr h.target, trim_eq_self_iff.mpr h.compiler]

/-- What is written is read back the same exactly when trimming leaves it alone. -/
theorem parse_toText_eq_iff (h : m.toText = .ok t) :
    ImageMetadata.parse t = .ok m ↔ m.Plain := by
  rw [parse_toText h, Except.ok.injEq, trimmed_eq_iff]

/-- A lookup finds the image, and rewrites metadata that differs in its use. -/
theorem lookupImage_of_plain (hplain : m.Plain) (h : m.toText = .ok t) (now : UInt64)
    (image : List UInt8) :
    ∃ uses t', (m.withUse uses now).toText = .ok t' ∧
      lookupImage now ⟨t, image⟩ = .ok ((image, m.withUse uses now), ⟨t', image⟩) := by
  have hparse := (parse_toText_eq_iff h).mpr hplain
  have hw := writable_of_toText h
  obtain ⟨t', ht'⟩ := toText_of_writable
    (m := m.withUse (if m.useCount = -1 then -1 else m.useCount + 1) now) ⟨hw.target, hw.compiler⟩
  refine ⟨_, t', ht', ?_⟩
  rw [lookupImage, hparse]
  change (do
    let metaText ← (m.withUse (if m.useCount = -1 then -1 else m.useCount + 1) now).toText
    Except.ok ((image, m.withUse (if m.useCount = -1 then -1 else m.useCount + 1) now),
      ({ metaText, image } : Entry))) = _
  rw [ht']
  rfl

/-- After any number of lookups the image is the same, and the metadata but for its use. -/
theorem lookups_of_plain (hplain : m.Plain) (h : m.toText = .ok t) (times : List UInt64)
    (image : List UInt8) :
    ∃ uses last t', (m.withUse uses last).toText = .ok t' ∧
      lookups times ⟨t, image⟩ = .ok ⟨t', image⟩ := by
  induction times generalizing m t with
  | nil => exact ⟨m.useCount, m.lastUsed, t, h, rfl⟩
  | cons now times ih =>
    obtain ⟨uses, t', ht', hlookup⟩ := lookupImage_of_plain hplain h now image
    have hplain' : (m.withUse uses now).Plain := ⟨hplain.target, hplain.compiler⟩
    obtain ⟨uses', last, t'', ht'', hrun⟩ := ih hplain' ht'
    refine ⟨uses', last, t'', ht'', ?_⟩
    rw [lookups, hlookup]
    exact hrun

end Run

/-- The text is read back as the metadata, now and after any number of lookups. -/
structure Survives (m : ImageMetadata) (t : Text) : Prop where
  parse_eq : ImageMetadata.parse t = .ok m
  lookups_eq : ∀ times image, ∃ uses last t', lookups times ⟨t, image⟩ = .ok ⟨t', image⟩ ∧
    ImageMetadata.parse t' = .ok (m.withUse uses last)

theorem survives_iff {m : ImageMetadata} {t : Text} (h : m.toText = .ok t) :
    Survives m t ↔ m.Plain := by
  constructor
  · intro hsurvives
    exact (parse_toText_eq_iff h).mp hsurvives.parse_eq
  · intro hplain
    constructor
    · exact (parse_toText_eq_iff h).mpr hplain
    · intro times image
      obtain ⟨uses, last, t', ht', hrun⟩ := lookups_of_plain hplain h times image
      have hplain' : (m.withUse uses last).Plain := ⟨hplain.target, hplain.compiler⟩
      exact ⟨uses, last, t', hrun, (parse_toText_eq_iff ht').mpr hplain'⟩

/-- Keys are faithful, and metadata survives its rewrites when nothing of it is trimmed away. -/
theorem cache_faithful (p q : CacheKeyParams) (m : ImageMetadata) (t : Text) :
    ((p.key = q.key → p.material = q.material) → (p.key = q.key ↔ p.Alike q)) ∧
      (m.toText = .ok t → (Survives m t ↔ m.Plain)) := by
  constructor
  · intro hcollision
    exact key_eq_iff hcollision
  · intro h
    exact survives_iff h

/-- A literal, when it is short enough. -/
def Str.short (s : String) : Str :=
  if h : (utf8 (text s)).length ≤ MAX_LEN then ⟨text s, h⟩ else ⟨[], by decide⟩

/-- Parameters with constants and no module. -/
def namedParams (constants : List (Str × Str)) (h : constants.length ≤ MAX_LEN)
    (compiler : Str) : CacheKeyParams where
  moduleHashes := ⟨[], by decide⟩
  configureConstants := ⟨constants, h⟩
  compileOpts := .short ""
  targetTriple := .short "x86_64-eo9"
  compilerVersion := compiler
  compilerDeterministic := true

/-- The names of constants may come in any order. -/
theorem alike_swap {a b : Str × Str} (hne : a.1 ≠ b.1) (compiler : Str) :
    (namedParams [a, b] (by simp [MAX_LEN]) compiler).Alike
      (namedParams [b, a] (by simp [MAX_LEN]) compiler) := by
  refine ⟨rfl, ?_, rfl, rfl, rfl, rfl⟩
  intro name
  by_cases ha : a.1 = name
  · have hb : ¬ b.1 = name := fun hb => hne (ha.trans hb.symm)
    simp [namedParams, ha, hb]
  · by_cases hb : b.1 = name <;> simp [namedParams, ha, hb]

theorem cache_faithful_reordered :
    (namedParams [(.short "a", .short "1"), (.short "b", .short "2")] (by decide) (.short "v1")).key =
        (namedParams [(.short "b", .short "2"), (.short "a", .short "1")] (by decide)
          (.short "v1")).key ∧
      ∃ t, (insertedMetadata (namedParams [] (by decide) (.short "v1")) [0] 7).toText = .ok t ∧
        Survives (insertedMetadata (namedParams [] (by decide) (.short "v1")) [0] 7) t := by
  constructor
  · have halike := alike_swap (a := (.short "a", .short "1")) (b := (.short "b", .short "2"))
      (by decide) (.short "v1")
    exact ((cache_faithful _ _ (insertedMetadata (namedParams [] (by decide) (.short "v1")) [0] 7)
      []).1 fun _ => (material_eq_iff _ _).mpr halike).mpr halike
  · obtain ⟨t, ht⟩ := toText_of_writable
      (m := insertedMetadata (namedParams [] (by decide) (.short "v1")) [0] 7)
      ⟨by decide, by decide⟩
    exact ⟨t, ht, ((cache_faithful (namedParams [] (by decide) (.short "v1"))
      (namedParams [] (by decide) (.short "v1")) _ t).2 ht).mpr
      ⟨trim_eq_self_iff.mp (by decide), trim_eq_self_iff.mp (by decide)⟩⟩

/-- A compiler version with a blank at its end is inserted, and read back without it. -/
theorem compiler_blank_lost :
    ∃ t, (insertedMetadata (namedParams [] (by decide) (.short "v1 ")) [0] 7).toText = .ok t ∧
      ¬ Survives (insertedMetadata (namedParams [] (by decide) (.short "v1 ")) [0] 7) t := by
  obtain ⟨t, ht⟩ := toText_of_writable
    (m := insertedMetadata (namedParams [] (by decide) (.short "v1 ")) [0] 7)
    ⟨by decide, by decide⟩
  refine ⟨t, ht, ?_⟩
  intro hsurvives
  have htrimmed := hsurvives.parse_eq
  rw [parse_toText ht, Except.ok.injEq, trimmed_eq_iff] at htrimmed
  exact htrimmed.compiler.2 ' ' (by decide) (by decide)

end Eo9.Store
