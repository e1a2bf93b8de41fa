import Eo9.Library.Outcome
import Eo9.Library.Trimming
import Eo9.Library.Utf8

/-!
# Chunked framing

`find` and `dechunk` of `eo9-curl-core`. Slicing outside the input and arithmetic that does not
fit are panics.
-/

namespace Eo9.Curl

open Eo9.Library

abbrev Bytes := List UInt8

/-- The largest chunk that is accepted. -/
def CHUNK_SIZE_LIMIT : ℕ := 16 * 1024 * 1024

inductive ChunkError where
  | badSizeLine (line : Bytes)
  | oversize (size : ℕ)
  | missingDataTerminator
  deriving DecidableEq

structure Dechunked where
  body : Bytes
  complete : Bool

/-- First position of `needle` in a haystack. -/
def find (needle : Bytes) : Bytes → Option ℕ
  | [] => none
  | b :: rest => if needle.isPrefixOf (b :: rest) then some 0 else (find needle rest).map (· + 1)

/-- `b"\r\n"` -/
def crlf : Bytes := [13, 10]

def semicolon : UInt8 := 59

/-- `u8::is_ascii_whitespace` -/
def isBlank (b : UInt8) : Bool := b = 32 || b = 9 || b = 10 || b = 12 || b = 13

def trimAscii (bs : Bytes) : Bytes := trim isBlank bs

/-- `raw[start..stop]` -/
def slice (raw : Bytes) (start stop : ℕ) : Outcome ChunkError Bytes :=
  if start ≤ stop ∧ stop ≤ raw.length then .ok ((raw.take stop).drop start)
  else Outcome.panic "range out of bounds"

/-- The value of a hexadecimal digit. -/
def hexDigit (b : UInt8) : Option ℕ :=
  if 48 ≤ b ∧ b ≤ 57 then some (b.toNat - 48)
  else if 97 ≤ b ∧ b ≤ 102 then some (b.toNat - 97 + 10)
  else if 65 ≤ b ∧ b ≤ 70 then some (b.toNat - 65 + 10)
  else none

/-- The loop over the digits of a size. -/
def sizeLoop (line : Bytes) : Bytes → ℕ → Outcome ChunkError ℕ
  | [], size => .ok size
  | b :: rest, size =>
    match hexDigit b with
    | none => Outcome.fail (.badSizeLine (Utf8.lossy line))
    | some digit =>
      if size * 16 + digit < 2 ^ 64 then
        if CHUNK_SIZE_LIMIT < size * 16 + digit then
          Outcome.fail (.oversize (size * 16 + digit))
        else sizeLoop line rest (size * 16 + digit)
      else Outcome.panic "attempt to add with overflow"

/-- The size of a chunk, from its line. -/
def chunkSize (line : Bytes) : Outcome ChunkError ℕ :=
  -- chunk extensions are ignored
  let sizeText := trimAscii (line.takeWhile (· ≠ semicolon))
  if sizeText = [] then Outcome.fail (.badSizeLine (Utf8.lossy line))
  else sizeLoop line sizeText 0

/-- The loop of `dechunk`, with the position in the input and the body so far. -/
def dechunkLoop (raw : Bytes) : (fuel : ℕ) → ℕ → Bytes → Outcome ChunkError Dechunked
  | 0, _, _ => .error .diverge
  | fuel + 1, pos, body => do
      match find crlf (← slice raw pos raw.length) with
      | none => .ok ⟨body, false⟩
      | some lineLen => do
          let size ← chunkSize (← slice raw pos (pos + lineLen))
          if size = 0 then .ok ⟨body, true⟩
          else do
            let dataStart := pos + lineLen + 2
            let available := raw.length - dataStart
            if available < size then do
              .ok ⟨body ++ (← slice raw (min dataStart raw.length) raw.length), false⟩
            else do
              let dataEnd := dataStart + size
              let body := body ++ (← slice raw dataStart dataEnd)
              if raw.length < dataEnd + 2 then .ok ⟨body, false⟩
              else do
                if (← slice raw dataEnd (dataEnd + 2)) ≠ crlf then
                  Outcome.fail .missingDataTerminator
                else dechunkLoop raw fuel (dataEnd + 2) body

/-- Decode chunked framing. Every round consumes something, so there are at most as many rounds
as bytes, and one more. -/
def dechunk (raw : Bytes) : Outcome ChunkError Dechunked := dechunkLoop raw (raw.length + 1) 0 []

/-!
## Chunked framing: what is accepted

`dechunk` undoes chunked framing, reports an input that is cut off as incomplete, and does not
look behind the line of the last chunk.
-/

section Find

variable {needle p q line rest bs : Bytes} {n : ℕ}

theorem find_length (h : find needle bs = some n) : n + needle.length ≤ bs.length := by
  induction bs generalizing n with
  | nil => cases h
  | cons b bs ih =>
    rw [find] at h
    split_ifs at h with hprefix
    · obtain rfl := Option.some.inj h
      rw [Nat.zero_add]
      exact (List.isPrefixOf_iff_prefix.mp hprefix).length_le
    · obtain ⟨m, hm, rfl⟩ := Option.map_eq_some_iff.mp h
      have hle := ih hm
      rw [List.length_cons]
      omega

/-- What is found in the beginning is found in the whole. -/
theorem find_append (h : find needle p = some n) (q : Bytes) : find needle (p ++ q) = some n := by
  induction p generalizing n with
  | nil => cases h
  | cons b p ih =>
    rw [find] at h
    rw [List.cons_append, find]
    by_cases hprefix : needle.isPrefixOf (b :: p) = true
    · rw [if_pos hprefix] at h
      have hwhole : needle.isPrefixOf (b :: (p ++ q)) = true :=
        List.isPrefixOf_iff_prefix.mpr
          ((List.isPrefixOf_iff_prefix.mp hprefix).trans (List.prefix_append (b :: p) q))
      rwa [if_pos hwhole]
    · rw [if_neg hprefix] at h
      obtain ⟨m, hm, rfl⟩ := Option.map_eq_some_iff.mp h
      have hnot : ¬ needle.isPrefixOf (b :: (p ++ q)) = true := by
        intro hwhole
        have hle := find_length hm
        apply hprefix
        apply List.isPrefixOf_iff_prefix.mpr
        apply List.prefix_of_prefix_length_le (List.isPrefixOf_iff_prefix.mp hwhole)
          (List.prefix_append (b :: p) q)
        rw [List.length_cons]
        omega
      rw [if_neg hnot, ih hm]
      rfl

/-- A line ends with the first line break. -/
theorem find_line (h : ¬ crlf <:+: line) (rest : Bytes) :
    find crlf (line ++ (crlf ++ rest)) = some line.length := by
  induction line with
  | nil => rfl
  | cons b line ih =>
    obtain ⟨hnot, htail⟩ := not_or.mp (mt List.infix_cons_iff.mpr h)
    have hprefix : ¬ crlf.isPrefixOf (b :: (line ++ (crlf ++ rest))) = true := by
      intro hwhole
      have hwhole := List.isPrefixOf_iff_prefix.mp hwhole
      cases line with
      | nil => simp [crlf] at hwhole
      | cons c line =>
        apply hnot
        apply List.prefix_of_prefix_length_le hwhole
          (List.prefix_append (b :: c :: line) (crlf ++ rest))
        simp [crlf]
    rw [List.cons_append, find, if_neg hprefix, ih htail]
    rfl

/-- A line is what stands before the first line break. -/
theorem line_of_find (h : find crlf bs = some n) :
    ∃ line rest, bs = line ++ (crlf ++ rest) ∧ line.length = n ∧ ¬ crlf <:+: line := by
  induction bs generalizing n with
  | nil => cases h
  | cons b bs ih =>
    rw [find] at h
    split_ifs at h with hprefix
    · obtain rfl := Option.some.inj h
      obtain ⟨rest, hrest⟩ := List.isPrefixOf_iff_prefix.mp hprefix
      exact ⟨[], rest, hrest.symm, rfl, by decide⟩
    · obtain ⟨m, hm, rfl⟩ := Option.map_eq_some_iff.mp h
      obtain ⟨line, rest, rfl, rfl, hline⟩ := ih hm
      refine ⟨b :: line, rest, rfl, rfl, ?_⟩
      rw [List.infix_cons_iff]
      rintro (hnow | hlater)
      · apply hprefix
        apply List.isPrefixOf_iff_prefix.mpr
        exact hnow.trans (List.prefix_append (b :: line) (crlf ++ rest))
      · exact hline hlater

/-- A line that is cut off before the end of its break has none. -/
theorem find_cut (h : ¬ crlf <:+: line) (hp : p <+: line ++ (crlf ++ rest))
    (hlen : p.length < line.length + 2) : find crlf p = none := by
  cases hfind : find crlf p with
  | none => rfl
  | some n =>
    obtain ⟨q, hq⟩ := hp
    have hwhole := find_append hfind q
    rw [hq, find_line h] at hwhole
    obtain rfl := Option.some.inj hwhole
    have hle : line.length + 2 ≤ p.length := find_length hfind
    omega

end Find

/-- The number that hexadecimal digits stand for, behind the digits of `size`. -/
def hexFold (size : ℕ) : Bytes → Option ℕ
  | [] => some size
  | b :: rest => (hexDigit b).bind fun digit => hexFold (size * 16 + digit) rest

/-- A size line: hexadecimal digits between blanks, and after a semicolon anything. -/
def Spells (line : Bytes) (n : ℕ) : Prop :=
  ∃ lead digits trail extension, line = lead ++ digits ++ trail ++ extension ∧
    (∀ b ∈ lead, isBlank b = true) ∧ (∀ b ∈ trail, isBlank b = true) ∧ digits ≠ [] ∧
    hexFold 0 digits = some n ∧ ∀ b ∈ extension.head?, b = semicolon

section Size

variable {line digits bs : Bytes} {size n : ℕ}

theorem le_of_hexFold (h : hexFold size digits = some n) : size ≤ n := by
  induction digits generalizing size with
  | nil => exact Nat.le_of_eq (Option.some.inj h)
  | cons b digits ih =>
    obtain ⟨digit, -, hrest⟩ := Option.bind_eq_some_iff.mp h
    have hle := ih hrest
    omega

theorem hexDigit_lt {b : UInt8} {digit : ℕ} (h : hexDigit b = some digit) : digit < 16 := by
  unfold hexDigit at h
  have hb := b.toNat_lt
  split_ifs at h with h₁ h₂ h₃
  all_goals
    obtain rfl := Option.some.inj h
    simp only [UInt8.le_iff_toNat_le] at *
    simp at *
    omega

theorem sizeLoop_eq_ok (hsize : size ≤ CHUNK_SIZE_LIMIT) :
    sizeLoop line digits size = .ok n ↔ hexFold size digits = some n ∧ n ≤ CHUNK_SIZE_LIMIT := by
  induction digits generalizing size with
  | nil =>
    rw [sizeLoop, hexFold, Except.ok.injEq, Option.some.injEq]
    constructor
    · rintro rfl
      exact ⟨rfl, hsize⟩
    · exact And.left
  | cons b digits ih =>
    rw [sizeLoop, hexFold]
    cases hdigit : hexDigit b with
    | none =>
      constructor
      · intro h
        cases h
      · rintro ⟨h, -⟩
        cases h
    | some digit =>
      have hlt := hexDigit_lt hdigit
      have hlimit : CHUNK_SIZE_LIMIT = 16777216 := rfl
      dsimp only
      rw [if_pos (show size * 16 + digit < 2 ^ 64 by omega), Option.bind_some]
      split_ifs with hover
      · constructor
        · intro h
          cases h
        · rintro ⟨h, hn⟩
          have hle := le_of_hexFold h
          omega
      · exact ih (Nat.not_lt.mp hover)

theorem clean_sizeLoop (hsize : size ≤ CHUNK_SIZE_LIMIT) :
    Outcome.Clean (sizeLoop line digits size) := by
  induction digits generalizing size with
  | nil => exact Outcome.clean_ok size
  | cons b digits ih =>
    rw [sizeLoop]
    cases hdigit : hexDigit b with
    | none => exact Outcome.clean_fail _
    | some digit =>
      have hlt := hexDigit_lt hdigit
      have hlimit : CHUNK_SIZE_LIMIT = 16777216 := rfl
      dsimp only
      rw [if_pos (show size * 16 + digit < 2 ^ 64 by omega)]
      split_ifs with hover
      · exact Outcome.clean_fail _
      · exact ih (Nat.not_lt.mp hover)

theorem isBlank_ne {b : UInt8} (h : isBlank b = true) : b ≠ semicolon ∧ hexDigit b = none := by
  simp only [isBlank, Bool.or_eq_true, decide_eq_true_eq] at h
  obtain ((((rfl | rfl) | rfl) | rfl) | rfl) := h <;> decide

theorem hexDigit_ne {b : UInt8} {digit : ℕ} (h : hexDigit b = some digit) : b ≠ semicolon := by
  rintro rfl
  cases h

theorem hexDigit_of_mem (h : hexFold size digits = some n) {b : UInt8} (hb : b ∈ digits) :
    ∃ digit, hexDigit b = some digit := by
  induction digits generalizing size with
  | nil => cases hb
  | cons c digits ih =>
    obtain ⟨digit, hdigit, hrest⟩ := Option.bind_eq_some_iff.mp h
    rcases List.mem_cons.mp hb with rfl | hb
    · exact ⟨digit, hdigit⟩
    · exact ih hrest hb

/-- What stands before the first semicolon. -/
theorem takeWhile_extension {text extension : Bytes} (htext : ∀ b ∈ text, b ≠ semicolon)
    (hextension : ∀ b ∈ extension.head?, b = semicolon) :
    (text ++ extension).takeWhile (· ≠ semicolon) = text := by
  have hpos : ∀ b ∈ text, decide (b ≠ semicolon) = true := fun b hb => decide_eq_true (htext b hb)
  rw [List.takeWhile_append_of_pos hpos]
  cases extension with
  | nil => exact List.append_nil text
  | cons b rest =>
    obtain rfl := hextension b rfl
    rw [List.takeWhile_cons_of_neg (by decide), List.append_nil]

theorem chunkSize_eq_ok : chunkSize line = .ok n ↔ Spells line n ∧ n ≤ CHUNK_SIZE_LIMIT := by
  constructor
  · intro h
    obtain ⟨lead, trail, hsplit, hlead, htrail, -⟩ :=
      trim_spec isBlank (line.takeWhile (· ≠ semicolon))
    rw [chunkSize] at h
    split_ifs at h with hempty
    · cases h
    obtain ⟨hvalue, hn⟩ := (sizeLoop_eq_ok (Nat.zero_le _)).mp h
    refine ⟨⟨lead, _, trail, line.dropWhile (· ≠ semicolon), ?_, hlead, htrail, hempty, hvalue, ?_⟩,
      hn⟩
    · rw [trimAscii, ← hsplit, List.takeWhile_append_dropWhile]
    · intro b hb
      have hnot := List.head?_dropWhile_not (fun b : UInt8 => decide (b ≠ semicolon)) line
      rw [Option.mem_def.mp hb] at hnot
      simpa using hnot
  · rintro ⟨⟨lead, digits, trail, extension, rfl, hlead, htrail, hdigits, hvalue, hextension⟩, hn⟩
    have hblank : ∀ b ∈ digits, ¬ isBlank b = true := by
      intro b hb hblank
      obtain ⟨digit, hdigit⟩ := hexDigit_of_mem hvalue hb
      rw [(isBlank_ne hblank).2] at hdigit
      cases hdigit
    have htext : ∀ b ∈ lead ++ digits ++ trail, b ≠ semicolon := by
      intro b hb
      rcases List.mem_append.mp hb with hb | hb
      · rcases List.mem_append.mp hb with hb | hb
        · exact (isBlank_ne (hlead b hb)).1
        · obtain ⟨digit, hdigit⟩ := hexDigit_of_mem hvalue hb
          exact hexDigit_ne hdigit
      · exact (isBlank_ne (htrail b hb)).1
    have hbare : Bare isBlank digits :=
      ⟨fun b hb => hblank b (List.mem_of_mem_head? hb),
        fun b hb => hblank b (List.mem_of_mem_getLast? hb)⟩
    rw [chunkSize, takeWhile_extension htext hextension, trimAscii, trim_append hlead htrail hbare,
      if_neg hdigits]
    exact (sizeLoop_eq_ok (Nat.zero_le _)).mpr ⟨hvalue, hn⟩

theorem clean_chunkSize : Outcome.Clean (chunkSize line) := by
  unfold chunkSize
  dsimp only
  split_ifs
  · exact Outcome.clean_fail _
  · exact clean_sizeLoop (Nat.zero_le _)

end Size

/-- The loop of `dechunk` on the bytes from the position on. -/
def unchunk : (fuel : ℕ) → Bytes → Bytes → Outcome ChunkError Dechunked
  | 0, _, _ => .error .diverge
  | fuel + 1, rest, body =>
    match find crlf rest with
    | none => .ok ⟨body, false⟩
    | some n => do
        let size ← chunkSize (rest.take n)
        let data := rest.drop (n + 2)
        if size = 0 then .ok ⟨body, true⟩
        else if data.length < size then .ok ⟨body ++ data, false⟩
        else if data.length < size + 2 then .ok ⟨body ++ data.take size, false⟩
        else if (data.drop size).take 2 ≠ crlf then Outcome.fail .missingDataTerminator
        else unchunk fuel (data.drop (size + 2)) (body ++ data.take size)

section Loop

variable {raw rest body line data : Bytes} {pos start stop fuel n : ℕ}

theorem slice_of_le (hle : start ≤ stop) (hlen : stop ≤ raw.length) :
    slice raw start stop = .ok ((raw.drop start).take (stop - start)) := by
  rw [slice, if_pos ⟨hle, hlen⟩, List.drop_take]

theorem dechunkLoop_eq (hpos : pos ≤ raw.length) :
    dechunkLoop raw fuel pos body = unchunk fuel (raw.drop pos) body := by
  induction fuel generalizing pos body with
  | zero => rfl
  | succ fuel ih =>
    have hall : slice raw pos raw.length = .ok (raw.drop pos) := by
      rw [slice_of_le hpos (Nat.le_refl _), List.take_of_length_le (by rw [List.length_drop])]
    rw [dechunkLoop, unchunk, hall, Outcome.ok_bind]
    cases hfind : find crlf (raw.drop pos) with
    | none => rfl
    | some n =>
      have hroom : n + 2 ≤ (raw.drop pos).length := find_length hfind
      rw [List.length_drop] at hroom
      have hline : slice raw pos (pos + n) = .ok ((raw.drop pos).take n) := by
        rw [slice_of_le (by omega) (by omega), Nat.add_sub_cancel_left]
      have hdata : (raw.drop pos).drop (n + 2) = raw.drop (pos + n + 2) := by
        rw [List.drop_drop, Nat.add_assoc]
      dsimp only
      rw [hline, Outcome.ok_bind, hdata, List.length_drop]
      cases chunkSize ((raw.drop pos).take n) with
      | error e => rfl
      | ok size =>
        rw [Outcome.ok_bind, Outcome.ok_bind]
        by_cases hzero : size = 0
        · rw [if_pos hzero, if_pos hzero]
        rw [if_neg hzero, if_neg hzero]
        by_cases hshort : raw.length - (pos + n + 2) < size
        · rw [if_pos hshort, if_pos hshort, Nat.min_eq_left (by omega),
            slice_of_le (by omega) (Nat.le_refl _), Outcome.ok_bind,
            List.take_of_length_le (by rw [List.length_drop])]
        rw [if_neg hshort, if_neg hshort, slice_of_le (by omega) (by omega),
          Nat.add_sub_cancel_left, Outcome.ok_bind]
        by_cases hcut : raw.length < pos + n + 2 + size + 2
        · rw [if_pos hcut, if_pos (by omega)]
        rw [if_neg hcut, if_neg (by omega), slice_of_le (by omega) (by omega),
          Nat.add_sub_cancel_left, Outcome.ok_bind, List.drop_drop, List.drop_drop,
          ih (by omega)]
        rfl

/-- A line with its break, and what follows. -/
theorem unchunk_line (hline : ¬ crlf <:+: line) :
    unchunk (fuel + 1) (line ++ (crlf ++ data)) body = (do
      let size ← chunkSize line
      if size = 0 then .ok ⟨body, true⟩
      else if data.length < size then .ok ⟨body ++ data, false⟩
      else if data.length < size + 2 then .ok ⟨body ++ data.take size, false⟩
      else if (data.drop size).take 2 ≠ crlf then Outcome.fail .missingDataTerminator
      else unchunk fuel (data.drop (size + 2)) (body ++ data.take size)) := by
  have hdrop : (line ++ (crlf ++ data)).drop (line.length + 2) = data := by
    rw [← List.append_assoc]
    exact List.drop_left' (by simp [crlf])
  rw [unchunk, find_line hline]
  dsimp only
  rw [List.take_left, hdrop]

/-- The line of the last chunk ends the body, whatever follows. -/
theorem unchunk_last (hline : ¬ crlf <:+: line) (hsize : Spells line 0) :
    unchunk (fuel + 1) (line ++ (crlf ++ rest)) body = .ok ⟨body, true⟩ := by
  rw [unchunk_line hline, chunkSize_eq_ok.mpr ⟨hsize, Nat.zero_le _⟩]
  rfl

/-- A chunk goes to the body. -/
theorem unchunk_chunk (hline : ¬ crlf <:+: line) (hsize : Spells line data.length)
    (hlimit : data.length ≤ CHUNK_SIZE_LIMIT) (hdata : data ≠ []) :
    unchunk (fuel + 1) (line ++ (crlf ++ (data ++ (crlf ++ rest)))) body =
      unchunk fuel rest (body ++ data) := by
  have hpos : data.length ≠ 0 := mt List.length_eq_zero_iff.mp hdata
  have hlen : (data ++ (crlf ++ rest)).length = data.length + 2 + rest.length := by
    simp [crlf]
    omega
  have hrest : (data ++ (crlf ++ rest)).drop (data.length + 2) = rest := by
    rw [← List.append_assoc]
    exact List.drop_left' (by simp [crlf])
  rw [unchunk_line hline, chunkSize_eq_ok.mpr ⟨hsize, hlimit⟩, Outcome.ok_bind, if_neg hpos,
    if_neg (by omega), if_neg (by omega), List.drop_left, List.take_left, hrest]
  exact if_neg (not_not.mpr rfl)

/-- A chunk that is cut off goes to the body as far as it goes. -/
theorem unchunk_cut (fuel : ℕ) (body : Bytes) (hline : ¬ crlf <:+: line) (hsize : Spells line data.length)
    (hlimit : data.length ≤ CHUNK_SIZE_LIMIT) (hdata : data ≠ []) {q : Bytes}
    (hq : q <+: data ++ (crlf ++ rest)) (hlen : q.length < data.length + 2) :
    ∃ part, unchunk (fuel + 1) (line ++ (crlf ++ q)) body = .ok ⟨body ++ part, false⟩ ∧
      part <+: data := by
  have hpos : data.length ≠ 0 := mt List.length_eq_zero_iff.mp hdata
  rw [unchunk_line hline, chunkSize_eq_ok.mpr ⟨hsize, hlimit⟩, Outcome.ok_bind, if_neg hpos]
  by_cases hshort : q.length < data.length
  · refine ⟨q, if_pos hshort, ?_⟩
    exact List.prefix_of_prefix_length_le hq (List.prefix_append _ _) (Nat.le_of_lt hshort)
  · refine ⟨q.take data.length, by rw [if_neg hshort, if_pos hlen], ?_⟩
    apply List.prefix_of_prefix_length_le ((List.take_prefix _ _).trans hq)
      (List.prefix_append _ _)
    rw [List.length_take]
    exact Nat.min_le_left _ _

theorem clean_unchunk (hfuel : rest.length < fuel) : Outcome.Clean (unchunk fuel rest body) := by
  induction fuel generalizing rest body with
  | zero => omega
  | succ fuel ih =>
    rw [unchunk]
    cases hfind : find crlf rest with
    | none => exact Outcome.clean_ok _
    | some n =>
      refine Outcome.clean_bind.mpr ⟨clean_chunkSize, ?_⟩
      intro size _
      dsimp only
      split_ifs
      · exact Outcome.clean_ok _
      · exact Outcome.clean_ok _
      · exact Outcome.clean_ok _
      · exact Outcome.clean_fail _
      · apply ih
        simp only [List.length_drop] at *
        omega

end Loop

/-- A chunk of a body: bytes, and the line that announces how many. -/
structure Chunk where
  line : Bytes
  data : Bytes
  unbroken : ¬ crlf <:+: line
  spells : Spells line data.length
  ne_nil : data ≠ []
  le_limit : data.length ≤ CHUNK_SIZE_LIMIT

/-- The line of the last chunk. -/
structure LastLine where
  line : Bytes
  unbroken : ¬ crlf <:+: line
  spells : Spells line 0

def Chunk.encode (chunk : Chunk) : Bytes := chunk.line ++ (crlf ++ (chunk.data ++ crlf))

def bodyOf (chunks : List Chunk) : Bytes := chunks.flatMap Chunk.data

/-- Chunks up to the end of the line of the last one. -/
def framing (chunks : List Chunk) (last : LastLine) : Bytes :=
  chunks.flatMap Chunk.encode ++ (last.line ++ crlf)

section Encodings

variable {raw rest body p : Bytes} {fuel : ℕ} {chunks : List Chunk} {last : LastLine}

theorem framing_cons (chunk : Chunk) : framing (chunk :: chunks) last ++ rest =
    chunk.line ++ (crlf ++ (chunk.data ++ (crlf ++ (framing chunks last ++ rest)))) := by
  simp only [framing, List.flatMap_cons, Chunk.encode, List.append_assoc]

/-- A framed body is read back, whatever follows its last line. -/
theorem unchunk_framing (rest : Bytes) (hfuel : chunks.length < fuel) :
    unchunk fuel (framing chunks last ++ rest) body = .ok ⟨body ++ bodyOf chunks, true⟩ := by
  induction chunks generalizing fuel body with
  | nil =>
    obtain ⟨fuel, rfl⟩ := Nat.exists_eq_succ_of_ne_zero (Nat.ne_zero_of_lt hfuel)
    have hnil : framing [] last ++ rest = last.line ++ (crlf ++ rest) := by
      simp only [framing, List.flatMap_nil, List.nil_append, List.append_assoc]
    rw [hnil, unchunk_last last.unbroken last.spells, bodyOf, List.flatMap_nil, List.append_nil]
  | cons chunk chunks ih =>
    obtain ⟨fuel, rfl⟩ := Nat.exists_eq_succ_of_ne_zero (Nat.ne_zero_of_lt hfuel)
    rw [framing_cons, unchunk_chunk chunk.unbroken chunk.spells chunk.le_limit chunk.ne_nil,
      ih (Nat.lt_of_succ_lt_succ hfuel), List.append_assoc]
    rfl

/-- A body that is complete was framed. -/
theorem framing_of_unchunk {b : Bytes} (h : unchunk fuel raw body = .ok ⟨b, true⟩) :
    ∃ chunks last rest, raw = framing chunks last ++ rest ∧ b = body ++ bodyOf chunks := by
  induction fuel generalizing raw body with
  | zero => cases h
  | succ fuel ih =>
    cases hfind : find crlf raw with
    | none =>
      rw [unchunk, hfind] at h
      cases h
    | some n =>
      obtain ⟨line, data, rfl, rfl, hline⟩ := line_of_find hfind
      rw [unchunk_line hline] at h
      obtain ⟨size, hsize, h⟩ := Outcome.bind_eq_ok.mp h
      obtain ⟨hspells, hlimit⟩ := chunkSize_eq_ok.mp hsize
      split_ifs at h with hzero hshort hcut hbreak
      · cases h
        subst hzero
        refine ⟨[], ⟨line, hline, hspells⟩, data, ?_, (List.append_nil b).symm⟩
        simp only [framing, List.flatMap_nil, List.nil_append, List.append_assoc]
      · cases h
      · cases h
      · cases h
      · obtain ⟨chunks, last, rest, hrest, rfl⟩ := ih h
        have hlen : (data.take size).length = size := by
          rw [List.length_take]
          omega
        have hdata : data = data.take size ++ (crlf ++ data.drop (size + 2)) := by
          rw [← not_not.mp hbreak, ← List.drop_drop, List.take_append_drop,
            List.take_append_drop]
        refine ⟨⟨line, data.take size, hline, by rwa [hlen], ?_, by rwa [hlen]⟩ :: chunks, last,
          rest, ?_, ?_⟩
        · intro hnil
          rw [hnil] at hlen
          exact hzero hlen.symm
        · rw [framing_cons, ← hrest, ← hdata]
        · rw [List.append_assoc]
          rfl

/-- A beginning that reaches past a line break. -/
theorem prefix_line {line : Bytes} (hp : p <+: line ++ (crlf ++ rest))
    (hlen : line.length + 2 ≤ p.length) : ∃ q, p = line ++ (crlf ++ q) ∧ q <+: rest := by
  rw [← List.append_assoc] at hp
  have hline : (line ++ crlf).length ≤ p.length := by
    rw [List.length_append]
    exact hlen
  obtain ⟨q, rfl⟩ := List.prefix_of_prefix_length_le (List.prefix_append _ rest) hp hline
  exact ⟨q, List.append_assoc _ _ _, (List.prefix_append_right_inj _).mp hp⟩

/-- A framed body that is cut off before the end of its last line is incomplete, and its bytes
are a beginning of the body. -/
theorem unchunk_prefix (hfuel : p.length < fuel) (hp : p <+: framing chunks last ++ rest)
    (hlen : p.length < (framing chunks last).length) :
    ∃ part, unchunk fuel p body = .ok ⟨body ++ part, false⟩ ∧ part <+: bodyOf chunks := by
  induction chunks generalizing fuel body p with
  | nil =>
    obtain ⟨fuel, rfl⟩ := Nat.exists_eq_succ_of_ne_zero (Nat.ne_zero_of_lt hfuel)
    have hnil : framing [] last ++ rest = last.line ++ (crlf ++ rest) := by
      simp only [framing, List.flatMap_nil, List.nil_append, List.append_assoc]
    have hshort : p.length < last.line.length + 2 := by
      simpa [framing, crlf] using hlen
    rw [hnil] at hp
    refine ⟨[], ?_, List.nil_prefix⟩
    rw [unchunk, find_cut last.unbroken hp hshort, List.append_nil]
  | cons chunk chunks ih =>
    obtain ⟨fuel, rfl⟩ := Nat.exists_eq_succ_of_ne_zero (Nat.ne_zero_of_lt hfuel)
    rw [framing_cons] at hp
    by_cases hline : p.length < chunk.line.length + 2
    · refine ⟨[], ?_, List.nil_prefix⟩
      rw [unchunk, find_cut chunk.unbroken hp hline, List.append_nil]
    -- the line has arrived, and some of what follows
    obtain ⟨q, rfl, hq⟩ := prefix_line hp (Nat.not_lt.mp hline)
    by_cases hdata : q.length < chunk.data.length + 2
    · obtain ⟨part, hpart, hprefix⟩ := unchunk_cut fuel body chunk.unbroken chunk.spells
        chunk.le_limit chunk.ne_nil hq hdata
      exact ⟨part, hpart, hprefix.trans (List.prefix_append _ _)⟩
    obtain ⟨r, rfl, hr⟩ := prefix_line hq (Nat.not_lt.mp hdata)
    have hshort : r.length < (framing chunks last).length := by
      simp only [framing, List.flatMap_cons, Chunk.encode, List.length_append] at hlen ⊢
      omega
    have hfewer : r.length < fuel := by
      have hgrown : r.length < (chunk.line ++ (crlf ++ (chunk.data ++ (crlf ++ r)))).length := by
        simp only [List.length_append, crlf, List.length_cons]
        omega
      omega
    obtain ⟨part, hpart, hprefix⟩ :=
      ih hfewer hr hshort
    refine ⟨chunk.data ++ part, ?_, (List.prefix_append_right_inj _).mpr hprefix⟩
    rw [unchunk_chunk chunk.unbroken chunk.spells chunk.le_limit chunk.ne_nil, hpart,
      List.append_assoc]

theorem length_chunks_le (chunks : List Chunk) (last : LastLine) :
    chunks.length ≤ (framing chunks last).length := by
  induction chunks with
  | nil => exact Nat.zero_le _
  | cons chunk chunks ih =>
    have hpos : 0 < chunk.encode.length := by
      simp only [Chunk.encode, List.length_append, crlf, List.length_cons, List.length_nil]
      omega
    simp only [framing, List.flatMap_cons, List.length_append, List.length_cons] at ih ⊢
    omega

theorem dechunk_eq (raw : Bytes) : dechunk raw = unchunk (raw.length + 1) raw [] := by
  rw [dechunk, dechunkLoop_eq (Nat.zero_le _), List.drop_zero]

end Encodings

/-- `dechunk` undoes chunked framing with any trailers, reports a framed body that is cut off
before the end of its last line as incomplete, ends cleanly on any bytes, and what it gives for a
complete body does not depend on what follows the last line. -/
theorem dechunk_framing :
    (∀ chunks last trailer, dechunk (framing chunks last ++ trailer) =
      .ok ⟨bodyOf chunks, true⟩) ∧
    (∀ chunks last trailer p, p <+: framing chunks last ++ trailer →
      p.length < (framing chunks last).length →
      ∃ body, dechunk p = .ok ⟨body, false⟩ ∧ body <+: bodyOf chunks) ∧
    (∀ raw, Outcome.Clean (dechunk raw)) ∧
    ∀ raw body, dechunk raw = .ok ⟨body, true⟩ →
      ∃ chunks last rest, raw = framing chunks last ++ rest ∧ body = bodyOf chunks ∧
        ∀ rest', dechunk (framing chunks last ++ rest') = .ok ⟨body, true⟩ := by
  have hframing : ∀ chunks last trailer, dechunk (framing chunks last ++ trailer) =
      .ok ⟨bodyOf chunks, true⟩ := by
    intro chunks last trailer
    have hle := length_chunks_le chunks last
    rw [dechunk_eq, unchunk_framing trailer (by rw [List.length_append]; omega), List.nil_append]
  refine ⟨hframing, ?_, ?_, ?_⟩
  · intro chunks last trailer p hp hlen
    rw [dechunk_eq]
    exact unchunk_prefix (Nat.lt_succ_self _) hp hlen
  · intro raw
    rw [dechunk_eq]
    exact clean_unchunk (Nat.lt_succ_self _)
  · intro raw body h
    rw [dechunk_eq] at h
    obtain ⟨chunks, last, rest, hraw, rfl⟩ := framing_of_unchunk h
    exact ⟨chunks, last, rest, hraw, rfl, fun rest' => hframing chunks last rest'⟩

/-- `3`, a break, `abc`, a break, `0` and a break -/
example : dechunk ([51] ++ crlf ++ [97, 98, 99] ++ crlf ++ [48] ++ crlf) =
    .ok ⟨[97, 98, 99], true⟩ := rfl

end Eo9.Curl
