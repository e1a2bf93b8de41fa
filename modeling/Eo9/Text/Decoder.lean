import Mathlib.Data.List.Induction
import Eo9.Text.Nvt

/-!
# What a stream from the peer means

The reference decoding of a stream: telnet commands and subnegotiations are taken out, an escaped
0xff is a byte like any other, and what is left is split into lines. The assembler does not treat an
escaped byte like any other, and decodes a stream as the reference does while that makes no
difference.
-/

namespace Eo9.Text

open Eo9.Library

/-- What has come since a carriage return: nothing, or only escaped bytes, or something else. -/
inductive Since where
  | other
  | cr
  | escaped
  deriving DecidableEq

structure Decoder where
  mode : Nvt
  line : Bytes
  since : Since
  lines : List Bytes
  /-- The answers to what the peer offers and asks for. -/
  answers : List Bytes

/-- The answer to a command, if there is one. -/
def refusal (verb option : UInt8) : List Bytes :=
  if verb = WILL then [[IAC, DONT, option]]
  else if verb = DO then [[IAC, WONT, option]]
  else []

namespace Decoder

def new : Decoder := ⟨.data, [], .other, [], []⟩

def endLine (d : Decoder) : Decoder := { d with line := [], lines := d.lines ++ [d.line] }

/-- A byte of a line, which ends at the cap. -/
def push (byte : UInt8) (d : Decoder) : Decoder :=
  let d := { d with line := d.line ++ [byte] }
  if LINE_CAP ≤ d.line.length then d.endLine else d

/-- A byte behind telnet, which is 0xff only where it was escaped. -/
def data (byte : UInt8) (d : Decoder) : Decoder :=
  if byte = CR then { d.endLine with since := .cr }
  else if (byte = LF ∨ byte = NUL) ∧ d.since = .cr then { d with since := .other }
  else if byte = LF then { d.endLine with since := .other }
  else
    { d.push byte with since := if byte = IAC ∧ d.since ≠ .other then .escaped else .other }

/-- A byte of the stream, or its end. -/
def event (e : Option UInt8) (d : Decoder) : Decoder :=
  match e with
  | none => if d.line = [] then d else d.endLine
  | some byte =>
    match d.mode with
    | .data => if byte = IAC then { d with mode := .iac } else d.data byte
    | .iac =>
      if byte = IAC then { d.data IAC with mode := .data }
      else if byte = WILL ∨ byte = WONT ∨ byte = DO ∨ byte = DONT then
        { d with mode := .verb byte }
      else if byte = SB then { d with mode := .sub }
      else { d with mode := .data }
    | .verb verb => { d with mode := .data, answers := d.answers ++ refusal verb byte }
    | .sub => if byte = IAC then { d with mode := .subIac } else d
    | .subIac => { d with mode := if byte = SE then .data else .sub }

/-- An escaped byte does not complete a line, and no line feed or NUL comes behind a carriage return
and escaped bytes alone. -/
def Harmless (d : Decoder) (e : Option UInt8) : Prop :=
  (d.mode = .iac → e = some IAC → d.line.length + 1 < LINE_CAP) ∧
    (d.mode = .data → d.since = .escaped → e ≠ some LF ∧ e ≠ some NUL)

end Decoder

def decode (stream : List (Option UInt8)) : Decoder :=
  stream.foldl (fun d e => d.event e) Decoder.new

/-- Every byte of a stream is harmless where it stands. -/
def Clean (stream : List (Option UInt8)) : Prop :=
  ∀ before e, before ++ [e] <+: stream → (decode before).Harmless e

theorem decode_snoc (stream : List (Option UInt8)) (e : Option UInt8) :
    decode (stream ++ [e]) = (decode stream).event e := by
  rw [decode, List.foldl_append]
  rfl

namespace Decoder

theorem push_line_lt (byte : UInt8) (d : Decoder) : (d.push byte).line.length < LINE_CAP := by
  unfold push
  dsimp only
  split
  · exact Nat.succ_pos _
  · next h => exact Nat.lt_of_not_le h

theorem data_line_lt (byte : UInt8) {d : Decoder} (h : d.line.length < LINE_CAP) :
    (d.data byte).line.length < LINE_CAP := by
  unfold data
  split
  · exact Nat.succ_pos _
  split
  · exact h
  split
  · exact Nat.succ_pos _
  · exact push_line_lt byte d

/-- A line under way is below the cap. -/
theorem event_line_lt (e : Option UInt8) {d : Decoder} (h : d.line.length < LINE_CAP) :
    (d.event e).line.length < LINE_CAP := by
  cases e with
  | none =>
    unfold event
    dsimp only
    split_ifs
    · exact h
    · exact Nat.succ_pos _
  | some byte =>
    unfold event
    dsimp only
    cases d.mode with
    | data =>
      dsimp only
      split_ifs
      · exact h
      · exact data_line_lt byte h
    | iac =>
      dsimp only
      split_ifs
      · exact data_line_lt IAC h
      · exact h
      · exact h
      · exact h
    | verb verb => exact h
    | sub =>
      dsimp only
      split_ifs <;> exact h
    | subIac => exact h

end Decoder

theorem decode_line_lt (stream : List (Option UInt8)) :
    (decode stream).line.length < LINE_CAP := by
  induction stream using List.reverseRecOn with
  | nil => exact Nat.succ_pos _
  | append_singleton stream e ih =>
    rw [decode_snoc]
    exact Decoder.event_line_lt e ih

variable {C : Type} {s : NetText C} {d : Decoder} {e : Option UInt8}

/-- A byte from the peer, or the end of the stream. -/
def NetText.event (e : Option UInt8) (s : NetText C) : NetText C :=
  match e with
  | none => s.endInput.2
  | some byte => s.feed byte

/-- All lines so far. -/
def NetText.allLines (s : NetText C) : List Bytes := s.history.taken ++ s.lines

/-- The lines are those of the reference, and so is the line under way, which is no longer than the
cap. -/
structure Decoded (s : NetText C) (d : Decoder) : Prop where
  lines : s.allLines = d.lines.map Utf8.lossy
  partialLine : s.partialLine = d.line
  capped : s.partialLine.length ≤ LINE_CAP

/-- The assembler is where the reference is. -/
structure Agrees (s : NetText C) (d : Decoder) : Prop where
  nvt : s.nvt = d.mode
  partialLine : s.partialLine = d.line
  swallow : s.swallowAfterCr = true ↔ d.since ≠ .other
  lines : s.allLines = d.lines.map Utf8.lossy

theorem NetText.endLine_allLines (s : NetText C) :
    s.endLine.allLines = s.allLines ++ [Utf8.lossy s.partialLine] :=
  (List.append_assoc _ _ _).symm

theorem Agrees.endLine (h : Agrees s d) : Agrees s.endLine d.endLine where
  nvt := h.nvt
  partialLine := rfl
  swallow := h.swallow
  lines := by
    rw [NetText.endLine_allLines, h.lines, h.partialLine, Decoder.endLine, List.map_append]
    rfl

theorem Agrees.popLine (h : Agrees s d) : Agrees s.popLine.2 d := by
  unfold NetText.popLine
  cases hlines : s.lines with
  | nil => exact h
  | cons line rest =>
    refine ⟨h.nvt, h.partialLine, h.swallow, ?_⟩
    rw [← h.lines, NetText.allLines, NetText.allLines, hlines]
    exact List.append_assoc _ [line] rest

theorem Agrees.push (h : Agrees s d) (byte : UInt8) {swallow : Bool} {since : Since}
    (hswallow : swallow = true ↔ since ≠ .other) :
    Agrees (if LINE_CAP ≤ (s.partialLine ++ [byte]).length then
        NetText.endLine { s with
          swallowAfterCr := swallow, partialLine := s.partialLine ++ [byte] }
      else { s with swallowAfterCr := swallow, partialLine := s.partialLine ++ [byte] })
      { d.push byte with since := since } := by
  have hpush : Agrees
      { s with swallowAfterCr := swallow, partialLine := s.partialLine ++ [byte] }
      { d with line := d.line ++ [byte], since := since } :=
    ⟨h.nvt, congrArg (· ++ [byte]) h.partialLine, hswallow, h.lines⟩
  unfold Decoder.push
  dsimp only
  rw [← h.partialLine]
  rw [← h.partialLine] at hpush
  split
  · exact hpush.endLine
  · exact hpush

theorem NetText.step_data (h : s.nvt = .data) (byte : UInt8) : s.step byte =
    if byte = IAC then { s with nvt := .iac }
    else if byte = CR then { s.endLine with swallowAfterCr := true }
    else if (byte = LF ∨ byte = NUL) ∧ s.swallowAfterCr = true then
      { s with swallowAfterCr := false }
    else if byte = LF then s.endLine
    else if LINE_CAP ≤ (s.partialLine ++ [byte]).length then
      NetText.endLine { s with swallowAfterCr := false, partialLine := s.partialLine ++ [byte] }
    else { s with swallowAfterCr := false, partialLine := s.partialLine ++ [byte] } := by
  unfold NetText.step
  rw [h]

/-- A byte that is no command. -/
theorem Agrees.data (h : Agrees s d) {byte : UInt8} (hbyte : byte ≠ IAC) (hmode : d.mode = .data)
    (hok : d.Harmless (some byte)) : Agrees (s.step byte) (d.data byte) := by
  have hother : byte = LF ∨ byte = NUL → s.swallowAfterCr = true → d.since = .cr := by
    intro hbreak hswallow
    have hsince := h.swallow.mp hswallow
    cases hcase : d.since with
    | other => exact absurd hcase hsince
    | cr => rfl
    | escaped =>
      obtain ⟨hlf, hnul⟩ := hok.2 hmode hcase
      obtain rfl | rfl := hbreak
      · exact absurd rfl hlf
      · exact absurd rfl hnul
  have hswallowed : ((byte = LF ∨ byte = NUL) ∧ s.swallowAfterCr = true) ↔
      (byte = LF ∨ byte = NUL) ∧ d.since = .cr := by
    refine and_congr_right fun hbreak => ⟨hother hbreak, fun hcase => h.swallow.mpr ?_⟩
    rw [hcase]
    exact nofun
  rw [NetText.step_data (h.nvt.trans hmode), if_neg hbyte, Decoder.data]
  by_cases hcr : byte = CR
  · rw [if_pos hcr, if_pos hcr]
    have hend := h.endLine
    exact ⟨hend.nvt, hend.partialLine, ⟨fun _ => nofun, fun _ => rfl⟩, hend.lines⟩
  rw [if_neg hcr, if_neg hcr]
  by_cases hbreak : (byte = LF ∨ byte = NUL) ∧ d.since = .cr
  · rw [if_pos hbreak, if_pos (hswallowed.mpr hbreak)]
    exact ⟨h.nvt, h.partialLine, ⟨nofun, fun hne => absurd rfl hne⟩, h.lines⟩
  rw [if_neg hbreak, if_neg (mt hswallowed.mp hbreak)]
  by_cases hlf : byte = LF
  · rw [if_pos hlf, if_pos hlf]
    have hend := h.endLine
    refine ⟨hend.nvt, hend.partialLine, ⟨fun hswallow => ?_, fun hne => absurd rfl hne⟩, hend.lines⟩
    exact absurd ⟨.inl hlf, hother (.inl hlf) hswallow⟩ hbreak
  rw [if_neg hlf, if_neg hlf, if_neg fun hiac : byte = IAC ∧ d.since ≠ .other => hbyte hiac.1]
  have hflag : false = true ↔ Since.other ≠ .other := ⟨nofun, fun hne => absurd rfl hne⟩
  exact h.push byte hflag

theorem NetText.step_escaped (h : s.nvt = .iac) :
    s.step IAC = { s with partialLine := s.partialLine ++ [IAC], nvt := .data } := by
  unfold NetText.step
  rw [h]
  rfl

theorem Decoder.data_escaped (d : Decoder) : d.data IAC =
    { d.push IAC with since := if d.since = .other then .other else .escaped } := by
  have hbreak : ¬ ((IAC = LF ∨ IAC = NUL) ∧ d.since = .cr) := fun h => absurd h.1 (by decide)
  unfold Decoder.data
  rw [if_neg (by decide), if_neg hbreak, if_neg (by decide)]
  by_cases hsince : d.since = .other
  · rw [if_pos hsince, if_neg fun h : IAC = IAC ∧ d.since ≠ .other => h.2 hsince]
  · rw [if_neg hsince, if_pos (⟨rfl, hsince⟩ : IAC = IAC ∧ d.since ≠ .other)]

theorem Agrees.escaped (h : Agrees s d) (hmode : d.mode = .iac)
    (hok : d.Harmless (some IAC)) : Agrees (s.step IAC) { d.data IAC with mode := .data } := by
  have hshort : ¬ LINE_CAP ≤ (d.line ++ [IAC]).length := by
    rw [List.length_append]
    exact Nat.not_le.mpr (hok.1 hmode rfl)
  rw [NetText.step_escaped (h.nvt.trans hmode), Decoder.data_escaped]
  unfold Decoder.push
  dsimp only
  rw [if_neg hshort]
  refine ⟨rfl, congrArg (· ++ [IAC]) h.partialLine, h.swallow.trans ?_, h.lines⟩
  dsimp only
  by_cases hsince : d.since = .other
  · rw [if_pos hsince, hsince]
  · rw [if_neg hsince]
    exact ⟨fun _ => nofun, fun _ => hsince⟩

/-- Output is nothing to the assembler. -/
theorem Agrees.queueOut (h : Agrees s d) (source : Source) (bytes : Bytes) :
    Agrees (s.queueOut source bytes) d := by
  unfold NetText.queueOut
  dsimp only
  split <;> exact ⟨h.nvt, h.partialLine, h.swallow, h.lines⟩

/-- The assembler follows the reference. -/
theorem Agrees.step (h : Agrees s d) {byte : UInt8} (hok : d.Harmless (some byte)) :
    Agrees (s.step byte) (d.event (some byte)) := by
  unfold Decoder.event
  dsimp only
  cases hmode : d.mode with
  | data =>
    dsimp only
    by_cases hiac : byte = IAC
    · rw [if_pos hiac, NetText.step_data (h.nvt.trans hmode), if_pos hiac]
      exact ⟨rfl, h.partialLine, h.swallow, h.lines⟩
    · rw [if_neg hiac]
      exact h.data hiac hmode hok
  | iac =>
    dsimp only
    by_cases hiac : byte = IAC
    · rw [if_pos hiac]
      subst hiac
      exact h.escaped hmode hok
    · unfold NetText.step
      rw [h.nvt, hmode, if_neg hiac]
      dsimp only
      rw [if_neg hiac]
      split_ifs
      all_goals exact ⟨rfl, h.partialLine, h.swallow, h.lines⟩
  | verb verb =>
    unfold NetText.step
    rw [h.nvt, hmode]
    dsimp only
    have hqueue : Agrees (if verb = WILL then s.queueOut .refusal [IAC, DONT, byte]
        else if verb = DO then s.queueOut .refusal [IAC, WONT, byte] else s) d := by
      split_ifs
      · exact h.queueOut _ _
      · exact h.queueOut _ _
      · exact h
    exact ⟨rfl, hqueue.partialLine, hqueue.swallow, hqueue.lines⟩
  | sub =>
    unfold NetText.step
    rw [h.nvt, hmode]
    dsimp only
    split_ifs
    · exact ⟨rfl, h.partialLine, h.swallow, h.lines⟩
    · exact h
  | subIac =>
    unfold NetText.step
    rw [h.nvt, hmode]
    exact ⟨rfl, h.partialLine, h.swallow, h.lines⟩

theorem Agrees.event (h : Agrees s d) (hok : d.Harmless e) : Agrees (s.event e) (d.event e) := by
  cases e with
  | some byte =>
    have hfed : Agrees (s.record (some byte)) d := ⟨h.nvt, h.partialLine, h.swallow, h.lines⟩
    exact hfed.step hok
  | none =>
    have hfed : Agrees (s.record none) d := ⟨h.nvt, h.partialLine, h.swallow, h.lines⟩
    unfold NetText.event NetText.endInput Decoder.event
    dsimp only
    rw [hfed.partialLine]
    split_ifs
    · exact hfed
    · exact hfed.endLine.popLine

/-- A byte that the assembler swallows behind escaped bytes. -/
theorem NetText.event_swallowed {byte : UInt8} (hnvt : s.nvt = .data)
    (hswallow : s.swallowAfterCr = true) (hbyte : byte = LF ∨ byte = NUL) :
    (s.event (some byte)).allLines = s.allLines ∧
      (s.event (some byte)).partialLine = s.partialLine := by
  have hiac : byte ≠ IAC := by
    obtain rfl | rfl := hbyte <;> decide
  have hcr : byte ≠ CR := by
    obtain rfl | rfl := hbyte <;> decide
  have hfed : (s.record (some byte)).nvt = .data := hnvt
  have hswallowed : (byte = LF ∨ byte = NUL) ∧ (s.record (some byte)).swallowAfterCr = true :=
    ⟨hbyte, hswallow⟩
  unfold NetText.event NetText.feed
  dsimp only
  rw [NetText.step_data hfed, if_neg hiac, if_neg hcr, if_pos hswallowed]
  exact ⟨rfl, rfl⟩

theorem Decoder.lines_push (byte : UInt8) (d : Decoder) :
    (d.push byte).lines = d.lines ∧ (d.push byte).line = d.line ++ [byte] ∨
      (d.push byte).lines = d.lines ++ [d.line ++ [byte]] := by
  unfold Decoder.push
  dsimp only
  split
  · exact .inr rfl
  · exact .inl ⟨rfl, rfl⟩

theorem map_lossy_ne (lines : List Bytes) (line : Bytes) :
    lines.map Utf8.lossy ≠ (lines ++ [line]).map Utf8.lossy := by
  intro h
  have hlength := congrArg List.length h
  rw [List.length_map, List.length_map, List.length_append, List.length_singleton] at hlength
  omega

/-- Where a byte is not harmless, the assembler does not decode what the reference does. -/
theorem Agrees.not_decoded (h : Agrees s d) (hok : ¬ d.Harmless e) :
    ¬ Decoded (s.event e) (d.event e) := by
  intro hdecoded
  obtain hfull | hbehind := not_and_or.mp hok
  · -- An escaped byte completes the line of the reference only.
    obtain ⟨hmode, rfl, hcap⟩ : d.mode = .iac ∧ e = some IAC ∧ ¬ d.line.length + 1 < LINE_CAP := by
      simpa only [Classical.not_imp] using hfull
    have hline := hdecoded.partialLine
    have hfed : (s.record (some IAC)).nvt = .iac := h.nvt.trans hmode
    unfold NetText.event NetText.feed Decoder.event at hline
    dsimp only at hline
    rw [NetText.step_escaped hfed, hmode] at hline
    dsimp only at hline
    rw [if_pos rfl, Decoder.data_escaped] at hline
    unfold Decoder.push at hline
    dsimp only at hline
    rw [if_pos (by rw [List.length_append]; exact Nat.le_of_not_lt hcap)] at hline
    exact absurd hline (List.append_ne_nil_of_right_ne_nil _ nofun)
  · -- A break is swallowed that the reference reads.
    obtain ⟨hmode, hsince, hbreak⟩ : d.mode = .data ∧ d.since = .escaped ∧
        ¬ (e ≠ some LF ∧ e ≠ some NUL) := by
      simpa only [Classical.not_imp] using hbehind
    have hswallow : s.swallowAfterCr = true := h.swallow.mpr (by
      rw [hsince]
      exact nofun)
    have hnvt := h.nvt.trans hmode
    have hcr : ∀ byte, ¬ ((byte = LF ∨ byte = NUL) ∧ d.since = .cr) := fun byte hcase => by
      rw [hsince] at hcase
      exact absurd hcase.2 nofun
    obtain rfl | rfl : e = some LF ∨ e = some NUL := by
      simpa only [not_and_or, not_not] using hbreak
    · obtain ⟨hlines, -⟩ := NetText.event_swallowed hnvt hswallow (.inl rfl)
      have hread := hdecoded.lines
      unfold Decoder.event at hread
      dsimp only at hread
      rw [hmode] at hread
      dsimp only at hread
      rw [if_neg (by decide), Decoder.data, if_neg (by decide), if_neg (hcr LF), if_pos rfl, hlines,
        h.lines] at hread
      exact map_lossy_ne _ _ hread
    · obtain ⟨hlines, hunder⟩ := NetText.event_swallowed hnvt hswallow (.inr rfl)
      have hread := hdecoded.lines
      have hline := hdecoded.partialLine
      unfold Decoder.event at hread hline
      dsimp only at hread hline
      rw [hmode] at hread hline
      dsimp only at hread hline
      rw [if_neg (by decide), Decoder.data, if_neg (by decide), if_neg (hcr NUL),
        if_neg (by decide)] at hread hline
      obtain ⟨-, hpush⟩ | hpush := Decoder.lines_push NUL d
      · rw [hunder, h.partialLine] at hline
        exact absurd (hline.trans hpush) (by simp)
      · rw [hlines, h.lines] at hread
        exact map_lossy_ne _ _ (hread.trans (congrArg (List.map Utf8.lossy) hpush))

/-- The assembler behind a stream, from a fresh session. -/
def replay (stream : List (Option UInt8)) : NetText Unit :=
  stream.foldl (fun s e => s.event e) .new

theorem replay_snoc (stream : List (Option UInt8)) (e : Option UInt8) :
    replay (stream ++ [e]) = (replay stream).event e := by
  rw [replay, List.foldl_append]
  rfl

theorem Clean.before {stream : List (Option UInt8)} (h : Clean (stream ++ [e])) : Clean stream :=
  fun before e' hpre => h before e' (hpre.trans (List.prefix_append _ _))

theorem agrees_replay {stream : List (Option UInt8)} (h : Clean stream) :
    Agrees (replay stream) (decode stream) := by
  induction stream using List.reverseRecOn with
  | nil => exact ⟨rfl, rfl, ⟨nofun, fun hne => absurd rfl hne⟩, rfl⟩
  | append_singleton stream e ih =>
    rw [replay_snoc, decode_snoc]
    exact (ih h.before).event (h stream e (List.prefix_refl _))

theorem Agrees.decoded (h : Agrees s d) (hline : d.line.length < LINE_CAP) : Decoded s d where
  lines := h.lines
  partialLine := h.partialLine
  capped := by
    rw [h.partialLine]
    exact hline.le

/-- A stream is decoded as the reference decodes it, at every byte, when all of its bytes are
harmless. -/
theorem decoded_iff_clean (stream : List (Option UInt8)) :
    (∀ before, before <+: stream → Decoded (replay before) (decode before)) ↔ Clean stream := by
  constructor
  · induction stream using List.reverseRecOn with
    | nil =>
      intro _ before e hpre
      exact absurd (List.prefix_nil.mp hpre) (List.append_ne_nil_of_right_ne_nil _ nofun)
    | append_singleton stream e ih =>
      intro hall before e' hpre
      have hclean : Clean stream := ih fun before hbefore =>
        hall before (hbefore.trans (List.prefix_append _ _))
      obtain hlast | hbefore := List.prefix_concat_iff.mp hpre
      · obtain ⟨rfl, he⟩ := List.append_inj' hlast rfl
        obtain rfl := List.singleton_inj.mp he
        by_contra hbad
        have hdecoded := hall _ (List.prefix_refl _)
        rw [replay_snoc, decode_snoc] at hdecoded
        exact (agrees_replay hclean).not_decoded hbad hdecoded
      · exact hclean before e' hbefore
  · intro hclean before hpre
    have hbefore : Clean before := fun p e hp => hclean p e (hp.trans hpre)
    exact (agrees_replay hbefore).decoded (decode_line_lt before)

end Eo9.Text
