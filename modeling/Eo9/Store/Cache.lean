import Mathlib.Data.List.Lex
import Eo9.Library.Blake3
import Eo9.Library.StableSort
import Eo9.Store.Hash
import Eo9.Library.SelfDelimiting

/-!
# The compile cache

The keys of cached images and the metadata that is kept beside an image (`cache.rs`). A string
of the key's parameters is no longer than a string can be, and so are its lists; the path that
an error carries is left out.
-/

namespace Eo9.Store

open Eo9.Library

/-- `isize::MAX` -/
def MAX_LEN : ℕ := 2 ^ 63 - 1

/-- A string of the size that a string can have. -/
structure Str where
  chars : Text
  length_le : (utf8 chars).length ≤ MAX_LEN
  deriving DecidableEq

/-- A list of the size that a vector can have. -/
structure Vec (α : Type) where
  items : List α
  length_le : items.length ≤ MAX_LEN

structure CacheKeyParams where
  moduleHashes : Vec ObjectHash
  configureConstants : Vec (Str × Str)
  compileOpts : Str
  targetTriple : Str
  compilerVersion : Str
  compilerDeterministic : Bool

def KEY_CONTEXT : Text := text "eo9-store compile-cache key v1"

def hashU64 (value : ℕ) : List UInt8 := leBytes 8 value

def hashStr (value : Str) : List UInt8 := hashU64 (utf8 value.chars).length ++ utf8 value.chars

def hashConstant (constant : Str × Str) : List UInt8 := hashStr constant.1 ++ hashStr constant.2

/-- The bytes of a string, as strings are compared. -/
def Str.order (s : Str) : List ℕ := (utf8 s.chars).map UInt8.toNat

/-- What `key` feeds to the hasher. -/
def CacheKeyParams.material (p : CacheKeyParams) : List UInt8 :=
  hashU64 p.moduleHashes.items.length ++ (p.moduleHashes.items.flatMap ObjectHash.bytes ++
    (hashU64 p.configureConstants.items.length ++
      ((sortByKey (fun constant : Str × Str => constant.1.order)
        p.configureConstants.items).flatMap hashConstant ++
        (hashStr p.compileOpts ++ (hashStr p.targetTriple ++ (hashStr p.compilerVersion ++
          [if p.compilerDeterministic then 1 else 0]))))))

def CacheKeyParams.key (p : CacheKeyParams) : List UInt8 :=
  Blake3.deriveKey (utf8 KEY_CONTEXT) p.material

structure ImageMetadata where
  created : UInt64
  lastUsed : UInt64
  useCount : UInt64
  imageSize : UInt64
  targetTriple : Text
  compilerVersion : Text
  compilerDeterministic : Bool
  moduleHashes : List ObjectHash

/-- What is wrong with a line of metadata. -/
inductive Reason where
  | expectedHeader
  | expectedInteger (e : IntError)
  | expectedBool (found : Text)
  | invalidHash (e : HashError)
  | unknownField (key : Text)
  | missingField (key : Text)

inductive StoreError where
  | corrupt (line : ℕ) (reason : Reason)
  | invalidMetadata (field value : Text)

def META_HEADER : Text := text "eo9-image-meta 1"

/-- The fields that have been read. -/
structure Fields where
  created : Option UInt64
  lastUsed : Option UInt64
  useCount : Option UInt64
  imageSize : Option UInt64
  targetTriple : Option Text
  compilerVersion : Option Text
  compilerDeterministic : Option Bool
  moduleHashes : List ObjectHash

def Fields.none : Fields := ⟨.none, .none, .none, .none, .none, .none, .none, []⟩

def parseNumber (lineNumber : ℕ) (value : Text) : Except StoreError UInt64 :=
  match parseU64 value with
  | .ok n => .ok n
  | .error e => .error (.corrupt lineNumber (.expectedInteger e))

def Fields.set (fields : Fields) (lineNumber : ℕ) (key value : Text) : Except StoreError Fields :=
  if key = text "created" then do
    .ok { fields with created := some (← parseNumber lineNumber value) }
  else if key = text "last-used" then do
    .ok { fields with lastUsed := some (← parseNumber lineNumber value) }
  else if key = text "use-count" then do
    .ok { fields with useCount := some (← parseNumber lineNumber value) }
  else if key = text "image-size" then do
    .ok { fields with imageSize := some (← parseNumber lineNumber value) }
  else if key = text "target" then .ok { fields with targetTriple := some value }
  else if key = text "compiler" then .ok { fields with compilerVersion := some value }
  else if key = text "deterministic" then
    if value = text "true" then .ok { fields with compilerDeterministic := some true }
    else if value = text "false" then .ok { fields with compilerDeterministic := some false }
    else .error (.corrupt lineNumber (.expectedBool value))
  else if key = text "module" then
    match ObjectHash.fromHex value with
    | .ok hash => .ok { fields with moduleHashes := fields.moduleHashes ++ [hash] }
    | .error e => .error (.corrupt lineNumber (.invalidHash e))
  else .error (.corrupt lineNumber (.unknownField key))

/-- The loop over the lines behind the header. -/
def parseLines : ℕ → List Text → Fields → Except StoreError Fields
  | _, [], fields => .ok fields
  | lineNumber, line :: rest, fields =>
    let line := trim isWhitespace line
    if line = [] ∨ line.head? = some '#' then parseLines (lineNumber + 1) rest fields
    else
      let parts := (splitFirst isWhitespace line).getD (line, [])
      match fields.set lineNumber parts.1 (trim isWhitespace parts.2) with
      | .ok fields => parseLines (lineNumber + 1) rest fields
      | .error e => .error e

/-- A field that has to be there. -/
def required {α : Type} (key : String) : Option α → Except StoreError α
  | some a => .ok a
  | .none => .error (.corrupt 0 (.missingField (text key)))

/-- The metadata, when every field has been read. -/
def Fields.finish (fields : Fields) : Except StoreError ImageMetadata := do
  .ok {
    created := ← required "created" fields.created
    lastUsed := ← required "last-used" fields.lastUsed
    useCount := ← required "use-count" fields.useCount
    imageSize := ← required "image-size" fields.imageSize
    targetTriple := ← required "target" fields.targetTriple
    compilerVersion := ← required "compiler" fields.compilerVersion
    compilerDeterministic := ← required "deterministic" fields.compilerDeterministic
    moduleHashes := fields.moduleHashes }

namespace ImageMetadata

/-- `ImageMetadata::parse` -/
def parse (t : Text) : Except StoreError ImageMetadata :=
  match lines t with
  | [] => .error (.corrupt 1 .expectedHeader)
  | header :: rest =>
    if trim isWhitespace header = META_HEADER then
      match parseLines 2 rest .none with
      | .ok fields => fields.finish
      | .error e => .error e
    else .error (.corrupt 1 .expectedHeader)

def fieldLine (key : String) (value : Text) : Text := text key ++ ' ' :: (value ++ ['\n'])

def toText (m : ImageMetadata) : Except StoreError Text :=
  if '\n' ∈ m.targetTriple ∨ '\r' ∈ m.targetTriple then
    .error (.invalidMetadata (text "target") m.targetTriple)
  else if '\n' ∈ m.compilerVersion ∨ '\r' ∈ m.compilerVersion then
    .error (.invalidMetadata (text "compiler") m.compilerVersion)
  else
    .ok (META_HEADER ++ '\n' ::
      (fieldLine "created" (decimal m.created) ++ (fieldLine "last-used" (decimal m.lastUsed) ++
        (fieldLine "use-count" (decimal m.useCount) ++
          (fieldLine "image-size" (decimal m.imageSize) ++
            (fieldLine "target" m.targetTriple ++ (fieldLine "compiler" m.compilerVersion ++
              (fieldLine "deterministic"
                (text (if m.compilerDeterministic then "true" else "false")) ++
                m.moduleHashes.flatMap fun hash => fieldLine "module" hash.toHex))))))))

end ImageMetadata

/-- The files of a cache entry. -/
structure Entry where
  metaText : Text
  image : List UInt8

/-- `lookup_image`, at a time, on an entry that is there: the image with the updated metadata, and
the entry as it is rewritten. -/
def lookupImage (now : UInt64) (entry : Entry) :
    Except StoreError ((List UInt8 × ImageMetadata) × Entry) := do
  let metadata ← ImageMetadata.parse entry.metaText
  let metadata := { metadata with
    useCount := if metadata.useCount = -1 then -1 else metadata.useCount + 1
    lastUsed := now }
  let metaText ← metadata.toText
  .ok ((entry.image, metadata), { entry with metaText })

/-- The metadata that `insert_image` writes. -/
def insertedMetadata (p : CacheKeyParams) (image : List UInt8) (now : UInt64) : ImageMetadata where
  created := now
  lastUsed := now
  useCount := 1
  imageSize := UInt64.ofNat image.length
  targetTriple := p.targetTriple.chars
  compilerVersion := p.compilerVersion.chars
  compilerDeterministic := p.compilerDeterministic
  moduleHashes := p.moduleHashes.items

/-!
## Cache keys are faithful

Two parameter sets are hashed alike when they are equal field by field, up to the order of
constants with different names.
-/

theorem hashU64_inj {m n : ℕ} (hm : m ≤ MAX_LEN) (hn : n ≤ MAX_LEN) (h : hashU64 m = hashU64 n) :
    m = n := by
  have hmax : MAX_LEN < 256 ^ 8 := by decide
  rw [← leValue_leBytes 8 m (hm.trans_lt hmax), ← leValue_leBytes 8 n (hn.trans_lt hmax)]
  exact congrArg leValue h

/-- A count in front of anything. -/
theorem hashU64_append_inj {m n : ℕ} (hm : m ≤ MAX_LEN) (hn : n ≤ MAX_LEN) {s t : List UInt8}
    (h : hashU64 m ++ s = hashU64 n ++ t) : m = n ∧ s = t := by
  have hlen : (hashU64 m).length = (hashU64 n).length := by
    rw [hashU64, hashU64, length_leBytes, length_leBytes]
  obtain ⟨hfirst, hrest⟩ := List.append_inj h hlen
  exact ⟨hashU64_inj hm hn hfirst, hrest⟩

theorem Str.ext {s t : Str} (h : s.chars = t.chars) : s = t := by
  cases s
  cases t
  cases h
  rfl

theorem Str.order_injective : Function.Injective Str.order := by
  intro s t h
  apply Str.ext
  apply utf8_injective
  exact List.map_injective_iff.mpr (fun _ _ => UInt8.toNat_inj.mp) h

theorem hashStr_selfDelimiting : SelfDelimiting hashStr := by
  intro x y s t h
  simp only [hashStr, List.append_assoc] at h
  obtain ⟨hlen, hrest⟩ := hashU64_append_inj x.length_le y.length_le h
  obtain ⟨hbytes, hst⟩ := List.append_inj hrest hlen
  exact ⟨Str.ext (utf8_injective hbytes), hst⟩

theorem hashConstant_selfDelimiting : SelfDelimiting hashConstant :=
  hashStr_selfDelimiting.pair hashStr_selfDelimiting

theorem ObjectHash.bytes_selfDelimiting : SelfDelimiting ObjectHash.bytes := by
  intro x y s t h
  obtain ⟨hbytes, hst⟩ := List.append_inj h (x.length_eq.trans y.length_eq.symm)
  cases x
  cases y
  cases hbytes
  exact ⟨rfl, hst⟩

/-- Equal field by field, but for the order of constants with different names. -/
structure CacheKeyParams.Alike (p q : CacheKeyParams) : Prop where
  moduleHashes : p.moduleHashes = q.moduleHashes
  constants : ∀ name, p.configureConstants.items.filter (fun c => decide (c.1 = name)) =
    q.configureConstants.items.filter fun c => decide (c.1 = name)
  compileOpts : p.compileOpts = q.compileOpts
  targetTriple : p.targetTriple = q.targetTriple
  compilerVersion : p.compilerVersion = q.compilerVersion
  compilerDeterministic : p.compilerDeterministic = q.compilerDeterministic

/-- Constants sort alike when every name has the same values in the same order. -/
theorem sort_constants_eq_iff {xs ys : List (Str × Str)} :
    sortByKey (fun c : Str × Str => c.1.order) xs =
        sortByKey (fun c : Str × Str => c.1.order) ys ↔
      ∀ name, xs.filter (fun c => decide (c.1 = name)) =
        ys.filter fun c => decide (c.1 = name) := by
  have hname : ∀ (name : Str) (cs : List (Str × Str)),
      cs.filter (fun c => decide (c.1.order = name.order)) =
        cs.filter fun c => decide (c.1 = name) := by
    intro name cs
    apply List.filter_congr
    intro c _
    rw [decide_eq_decide]
    exact Str.order_injective.eq_iff
  rw [sortByKey_eq_iff]
  constructor
  · intro h name
    rw [← hname, ← hname]
    exact h name.order
  · intro h k
    by_cases hk : ∃ name : Str, name.order = k
    · obtain ⟨name, rfl⟩ := hk
      rw [hname, hname]
      exact h name
    · have hnil : ∀ cs : List (Str × Str), cs.filter (fun c => decide (c.1.order = k)) = [] := by
        intro cs
        apply List.filter_eq_nil_iff.mpr
        intro c _ hc
        exact hk ⟨c.1, of_decide_eq_true hc⟩
      rw [hnil, hnil]

theorem Vec.ext {α : Type} {xs ys : Vec α} (h : xs.items = ys.items) : xs = ys := by
  cases xs
  cases ys
  cases h
  rfl

/-- The material of a key shows every field. -/
theorem material_eq_iff (p q : CacheKeyParams) : p.material = q.material ↔ p.Alike q := by
  constructor
  · intro h
    unfold CacheKeyParams.material at h
    obtain ⟨hcount, h⟩ := hashU64_append_inj p.moduleHashes.length_le q.moduleHashes.length_le h
    obtain ⟨hmodules, h⟩ := ObjectHash.bytes_selfDelimiting.counted hcount h
    obtain ⟨hcount, h⟩ :=
      hashU64_append_inj p.configureConstants.length_le q.configureConstants.length_le h
    have hsorted := ((sortByKey_perm (fun c : Str × Str => c.1.order)
      p.configureConstants.items).length_eq.trans hcount).trans
        (sortByKey_perm (fun c : Str × Str => c.1.order) q.configureConstants.items).length_eq.symm
    obtain ⟨hconstants, h⟩ := hashConstant_selfDelimiting.counted hsorted h
    obtain ⟨hopts, h⟩ := hashStr_selfDelimiting _ _ _ _ h
    obtain ⟨htriple, h⟩ := hashStr_selfDelimiting _ _ _ _ h
    obtain ⟨hversion, h⟩ := hashStr_selfDelimiting _ _ _ _ h
    refine ⟨Vec.ext hmodules, sort_constants_eq_iff.mp hconstants, hopts, htriple, hversion, ?_⟩
    cases hp : p.compilerDeterministic <;> cases hq : q.compilerDeterministic <;>
      simp [hp, hq] at h ⊢
  · intro h
    have hsort := sort_constants_eq_iff.mpr h.constants
    have hcount : p.configureConstants.items.length = q.configureConstants.items.length := by
      rw [← (sortByKey_perm (fun c : Str × Str => c.1.order) p.configureConstants.items).length_eq,
        hsort, (sortByKey_perm (fun c : Str × Str => c.1.order) _).length_eq]
    unfold CacheKeyParams.material
    rw [h.moduleHashes, hcount, hsort, h.compileOpts, h.targetTriple, h.compilerVersion,
      h.compilerDeterministic]

/-- As long as the two materials do not collide, equal keys are keys of alike parameters. -/
theorem key_eq_iff {p q : CacheKeyParams}
    (hcollision : p.key = q.key → p.material = q.material) : p.key = q.key ↔ p.Alike q := by
  rw [← material_eq_iff]
  constructor
  · exact hcollision
  · intro h
    rw [CacheKeyParams.key, CacheKeyParams.key, h]

end Eo9.Store
