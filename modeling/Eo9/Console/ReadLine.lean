import Eo9.Console.KeyDecoder
import Mathlib.Data.List.Induction

/-!
# The line discipline of the console

`ReadLine` of the kernel's `providers.rs`: one line is read from the input ring, echoed while it is
typed, with the lines entered before to recall. A line holds printable bytes only, and takes up one
cell for each.
-/

namespace Eo9.Console

open Eo9.Library

def Printable (b : UInt8) : Prop := 0x20 ≤ b ∧ b ≤ 0x7e

instance : DecidablePred Printable := fun _ => inferInstanceAs (Decidable (_ ∧ _))

abbrev Line := List { b : UInt8 // Printable b }

def Line.bytes (line : Line) : List UInt8 := line.map Subtype.val

def Line.push (line : Line) (b : UInt8) (h : Printable b) : Line := line ++ [⟨b, h⟩]

@[simp] theorem Line.bytes_nil : Line.bytes [] = [] := rfl

@[simp] theorem Line.bytes_append (line line' : Line) :
    Line.bytes (line ++ line') = line.bytes ++ line'.bytes := List.map_append

theorem Line.bytes_push (line : Line) (b : UInt8) (h : Printable b) :
    (line.push b h).bytes = line.bytes ++ [b] := List.map_append

def MAX_READ_LINE_BYTES : ℕ := 4096

def READ_HISTORY_CAP : ℕ := 32

structure ReadLine where
  line : Line
  decoder : EscState
  /-- The entry that is shown; `none` while a fresh line is typed. -/
  «recall» : Option ℕ
  /-- The fresh line from before the browsing. -/
  stash : Line

def ReadLine.default : ReadLine := ⟨[], .idle, none, []⟩

/-- One call of `read-line`, with the recall ring and what was echoed. -/
structure Session where
  read : ReadLine
  history : List Line
  echo : List UInt8

namespace Session

variable (s : Session)

def print (bytes : List UInt8) : Session := { s with echo := s.echo ++ bytes }

/-- Back over the last cell and over a blank put into it. -/
def ERASE : List UInt8 := [0x08, 0x20, 0x08]

/-- Erase the line and put another in its place. -/
def replaceLine (text : Line) : Session :=
  let erased := s.print (List.replicate s.read.line.length ERASE).flatten
  { erased with read.line := text }.print text.bytes

/-- Entry and index that a step through the recall ring leads to. -/
def recallTarget (back : Bool) : Option Line × Option ℕ :=
  if s.history = [] then (none, none)
  else
    match back, s.read.recall with
    | true, none =>
      let index := s.history.length - 1
      (s.history[index]?, some index)
    | true, some 0 => (none, s.read.recall)
    | true, some (index + 1) => (s.history[index]?, some index)
    | false, none => (none, none)
    | false, some index =>
      if s.history.length ≤ index + 1 then (none, none)
      else (s.history[index + 1]?, some (index + 1))

def recallStep (back : Bool) : Session :=
  let (entry, index) := s.recallTarget back
  match back, s.read.recall, index with
  | false, some _, none =>
    { s with read.stash := [], read.recall := none }.replaceLine s.read.stash
  | _, current, index =>
    match entry with
    | some text =>
      let stashed := if current.isNone then
        { s with read.stash := s.read.line, read.line := [] } else s
      { stashed with read.recall := index }.replaceLine text
    | none => s

/-- An edit makes the recalled line the fresh one. -/
def commitRecall : Session :=
  if s.read.recall.isSome then { s with read.recall := none, read.stash := [] } else s

/-- Push a submitted line into the recall ring. Of the printable bytes only the space is trimmed. -/
def pushReadHistory (line : Line) (history : List Line) : List Line :=
  let trimmed := ((line.dropWhile fun c => c.1 = 0x20).reverse.dropWhile fun c => c.1 = 0x20).reverse
  if trimmed = [] then history
  else if history.getLast? = some trimmed then history
  else (if READ_HISTORY_CAP ≤ history.length then history.drop 1 else history) ++ [trimmed]

set_option maxRecDepth 4000 in
/-- What a key does: the session after it, and what the call returns if it ends. -/
def act (event : KeyEvent) : Session × Option (Option Line) :=
  match event with
  | .up => (s.recallStep true, none)
  | .down => (s.recallStep false, none)
  | .enter =>
    let ended := s.print [0x0a]
    ({ ended with
      read.line := []
      history := pushReadHistory s.read.line s.history }, some (some s.read.line))
  | .ctrl b => if b = 0x04 ∧ s.read.line = [] then (s, some none) else (s, none)
  | .backspace =>
    if s.read.line = [] then (s, none)
    else ({ s with read.line := s.read.line.dropLast }.commitRecall.print ERASE, none)
  | .char b =>
    if h : Printable b then
      if s.read.line.length < MAX_READ_LINE_BYTES then
        ({ s.commitRecall with read.line := s.read.line.push b h }.print [b], none)
      else (s, none)
    else (s, none)
  | _ => (s, none)

/-- The call for one byte of the ring. -/
def feed (byte : UInt8) : Session × Option (Option Line) :=
  let pushed := KeyDecoder.push s.read.decoder byte
  let decoded := { s with read.decoder := pushed.1 }
  match pushed.2 with
  | some event => decoded.act event
  | none => (decoded, none)

/-- One poll of the call: it takes what is in the ring, until it returns or the ring is empty. -/
def poll : Session → List UInt8 → Session × Option (Option Line) × List UInt8
  | s, [] => (s, none, [])
  | s, byte :: ring =>
    match s.feed byte with
    | (s', some result) => (s', some result, ring)
    | (s', none) => poll s' ring

/-- Polls, with what came into the ring before each of them. -/
def polls : Session → List (List UInt8) → Session × Option (Option Line) × List UInt8
  | s, [] => (s, none, [])
  | s, ring :: rings =>
    match poll s ring with
    | (s', some result, rest) => (s', some result, rest ++ rings.flatten)
    | (s', none, _) => polls s' rings

def fresh (history : List Line) : Session := ⟨.default, history, []⟩

end Session

/-- A line that is typed, or an entry that is shown with the line that was typed before. -/
inductive Editor where
  | typing (text : Line)
  | browsing (index : ℕ) (stash : Line)

namespace Editor

variable (history : List Line)

def line : Editor → Line
  | typing text => text
  | browsing index _ => (history[index]?).getD []

/-- Towards the older entries. -/
def up : Editor → Editor
  | typing text => if history = [] then typing text else browsing (history.length - 1) text
  | browsing index stash => browsing (index - 1) stash

/-- Towards the newer entries, and past them to the line that was typed. -/
def down : Editor → Editor
  | typing text => typing text
  | browsing index stash =>
    if index + 1 < history.length then browsing (index + 1) stash else typing stash

/-- A key: the editor after it, or what it ends with. -/
def key (e : Editor) : KeyEvent → Editor × Option (Option Line)
  | .up => (e.up history, none)
  | .down => (e.down history, none)
  | .enter => (e, some (some (e.line history)))
  | .ctrl b => (e, if b = 0x04 ∧ e.line history = [] then some none else none)
  | .backspace =>
    (if e.line history = [] then e else typing (e.line history).dropLast, none)
  | .char b =>
    (if h : Printable b ∧ (e.line history).length < MAX_READ_LINE_BYTES then
      typing ((e.line history).push b h.1) else e, none)
  | _ => (e, none)

/-- The line that was typed when a key leads away from it. -/
def left : Editor → KeyEvent → Line
  | typing text, .up => if history = [] then [] else text
  | _, _ => []

/-- No key leads away from a typed line that is not empty. -/
def Keeps : Editor → List KeyEvent → Prop
  | _, [] => True
  | e, k :: keys =>
    e.left history k = [] ∧ ((e.key history k).2 = none → Keeps (e.key history k).1 keys)

/-- What the keys end with. -/
def result : Editor → List KeyEvent → Option (Option Line)
  | _, [] => none
  | e, k :: keys => (e.key history k).2.or (result (e.key history k).1 keys)

end Editor

/-- A line of unbounded width. -/
structure Screen where
  cells : List UInt8
  cursor : ℕ

namespace Screen

def put (s : Screen) (b : UInt8) : Screen :=
  if b = 0x08 then { s with cursor := s.cursor - 1 }
  else ⟨s.cells.take s.cursor ++ b :: s.cells.drop (s.cursor + 1), s.cursor + 1⟩

/-- The text stands before the cursor, with nothing but blanks behind it. -/
def Shows (s : Screen) (text : List UInt8) : Prop :=
  ∃ blanks, s = ⟨text ++ List.replicate blanks 0x20, text.length⟩

end Screen

/-- What the echo leaves on a terminal that showed the prompt. -/
def screen (prompt echo : List UInt8) : Screen := echo.foldl Screen.put ⟨prompt, prompt.length⟩

/-- The terminal shows the text and then the line, or did so before the newline. -/
def Shown (prompt text : List UInt8) (s : Session) : Option (Option Line) → Prop
  | some (some line) => ∃ echo, s.echo = echo ++ [0x0a] ∧
      (screen prompt echo).Shows (text ++ line.bytes)
  | some none | none => (screen prompt s.echo).Shows (text ++ s.read.line.bytes)

namespace Screen

variable {s : Screen} {text : List UInt8}

theorem Shows.cursor_eq (h : s.Shows text) : s.cursor = text.length := by
  obtain ⟨blanks, rfl⟩ := h
  rfl

/-- A byte is put over the first blank, or behind the text. -/
theorem Shows.put {b : UInt8} (h : s.Shows text) (hb : b ≠ 0x08) : (s.put b).Shows (text ++ [b]) := by
  obtain ⟨blanks, rfl⟩ := h
  refine ⟨blanks - 1, ?_⟩
  have htake : (text ++ List.replicate blanks 0x20).take text.length = text := List.take_left
  have hdrop : (text ++ List.replicate blanks 0x20).drop (text.length + 1) =
      List.replicate (blanks - 1) (0x20 : UInt8) := by
    rw [← List.drop_drop, List.drop_left, List.drop_replicate]
  rw [Screen.put, if_neg hb]
  dsimp only
  rw [htake, hdrop, List.append_assoc, List.length_append]
  rfl

theorem Shows.line {line : Line} (h : s.Shows text) :
    (line.bytes.foldl Screen.put s).Shows (text ++ line.bytes) := by
  induction line generalizing s text with
  | nil => simpa using h
  | cons b line ih =>
    have hb : b.1 ≠ 0x08 := fun heq => absurd (heq ▸ b.2.1) (by decide)
    have hrest := ih (h.put hb)
    rwa [List.append_assoc] at hrest

/-- The last cell becomes a blank behind the cursor. -/
theorem Shows.erase {b : UInt8} (h : s.Shows (text ++ [b])) :
    (Session.ERASE.foldl Screen.put s).Shows text := by
  obtain ⟨blanks, rfl⟩ := h
  have hback : (Screen.mk (text ++ [b] ++ List.replicate blanks 0x20) (text ++ [b]).length).put 0x08 =
      ⟨text ++ b :: List.replicate blanks 0x20, text.length⟩ := by
    rw [Screen.put, if_pos rfl, List.length_append, List.append_assoc]
    rfl
  have hblank : (Screen.mk (text ++ b :: List.replicate blanks 0x20) text.length).put 0x20 =
      ⟨text ++ 0x20 :: List.replicate blanks 0x20, text.length + 1⟩ := by
    rw [Screen.put, if_neg (by decide)]
    dsimp only
    rw [List.take_left, ← List.drop_drop, List.drop_left]
    rfl
  refine ⟨blanks + 1, ?_⟩
  rw [Session.ERASE, List.foldl_cons, hback, List.foldl_cons, hblank, List.replicate_succ]
  rfl

theorem Shows.eraseLine {line : Line} (h : s.Shows (text ++ line.bytes)) :
    ((List.replicate line.length Session.ERASE).flatten.foldl Screen.put s).Shows text := by
  induction line using List.reverseRecOn generalizing s with
  | nil => simpa using h
  | append_singleton line b ih =>
    rw [Line.bytes_append, ← List.append_assoc] at h
    rw [List.length_append, List.length_singleton, List.replicate_succ, List.flatten_cons,
      List.foldl_append]
    exact ih h.erase

end Screen

theorem screen_append (prompt echo more : List UInt8) :
    screen prompt (echo ++ more) = more.foldl Screen.put (screen prompt echo) := List.foldl_append

namespace Editor

def «recall» : Editor → Option ℕ
  | typing _ => none
  | browsing index _ => some index

def stash : Editor → Line
  | typing _ => []
  | browsing _ stash => stash

end Editor

/-- The call is where the editor is, and behind the text the terminal shows its line. -/
structure Follows (history : List Line) (prompt text : List UInt8) (s : Session) (e : Editor) :
    Prop where
  session_eq : s = ⟨⟨e.line history, s.read.decoder, e.recall, e.stash⟩, history, s.echo⟩
  within : ∀ index ∈ e.recall, index < history.length
  shows : (screen prompt s.echo).Shows (text ++ (e.line history).bytes)

/-- A key ends both with the same, or leaves the call where it leaves the editor. -/
structure Together (history : List Line) (prompt text : List UInt8)
    (acted : Session × Option (Option Line)) (edited : Editor × Option (Option Line)) : Prop where
  result_eq : acted.2 = edited.2
  shown : Shown prompt text acted.1 acted.2
  follows : acted.2 = none → Follows history prompt text acted.1 edited.1

section Keys

variable {history : List Line} {prompt text : List UInt8} {s : Session} {e : Editor}

/-- The line that is erased leaves the text, and the new line stands behind it. -/
theorem replaceLine_shows {line : Line}
    (h : (screen prompt s.echo).Shows (text ++ s.read.line.bytes)) :
    (screen prompt (s.replaceLine line).echo).Shows (text ++ line.bytes) := by
  rw [Session.replaceLine]
  dsimp only [Session.print]
  rw [screen_append, screen_append]
  exact h.eraseLine.line

/-- Another line takes the place of the one that is shown. -/
theorem follows_replaceLine {line : Line} {decoder : EscState} {echo : List UInt8}
    (hwithin : ∀ index ∈ e.recall, index < history.length)
    (hshows : (screen prompt echo).Shows (text ++ line.bytes)) :
    Follows history prompt text
      (Session.replaceLine ⟨⟨line, decoder, e.recall, e.stash⟩, history, echo⟩ (e.line history)) e :=
  ⟨rfl, hwithin, replaceLine_shows hshows⟩

/-- Towards the older entries. A typed line is put aside before it is erased. -/
theorem recallStep_up (h : Follows history prompt text s e) :
    Follows history prompt (text ++ (e.left history .up).bytes) (s.recallStep true)
      (e.up history) := by
  obtain ⟨hsession, hwithin, hshows⟩ := h
  cases e with
  | typing typed =>
    by_cases hempty : history = []
    · have hstay : s.recallStep true = s := by
        rw [hsession]
        simp [Session.recallStep, Session.recallTarget, hempty]
      rw [hstay, Editor.left, Editor.up, if_pos hempty, if_pos hempty]
      exact ⟨hsession, hwithin, by simpa using hshows⟩
    · have hindex : history.length - 1 < history.length :=
        Nat.sub_one_lt (mt List.length_eq_zero_iff.mp hempty)
      have hnewest : s.recallStep true =
          Session.replaceLine ⟨⟨[], s.read.decoder, some (history.length - 1), typed⟩, history, s.echo⟩
            ((history[history.length - 1]?).getD []) := by
        rw [hsession]
        simp [Session.recallStep, Session.recallTarget, Editor.recall, Editor.line, hempty, hindex]
      rw [hnewest, Editor.left, Editor.up, if_neg hempty, if_neg hempty]
      refine follows_replaceLine (e := .browsing (history.length - 1) typed) ?_ ?_
      · rintro _ ⟨⟩
        exact hindex
      · rw [Line.bytes_nil, List.append_nil]
        exact hshows
  | browsing index stash =>
    have hindex : index < history.length := hwithin index rfl
    have hempty : history ≠ [] := List.ne_nil_of_length_pos (Nat.zero_lt_of_lt hindex)
    have hleft : (Editor.browsing index stash).left history .up = [] := rfl
    rw [hleft, Line.bytes_nil, List.append_nil]
    cases index with
    | zero =>
      have hstay : s.recallStep true = s := by
        rw [hsession]
        simp [Session.recallStep, Session.recallTarget, Editor.recall, hempty]
      rw [hstay]
      exact ⟨hsession, hwithin, hshows⟩
    | succ index =>
      have hindex' : index < history.length := Nat.lt_of_succ_lt hindex
      have holder : s.recallStep true =
          Session.replaceLine ⟨⟨(history[index + 1]?).getD [], s.read.decoder, some index, stash⟩,
            history, s.echo⟩ ((history[index]?).getD []) := by
        rw [hsession]
        simp [Session.recallStep, Session.recallTarget, Editor.recall, Editor.line, Editor.stash,
          hempty, hindex']
      rw [holder]
      refine follows_replaceLine (e := .browsing index stash) ?_ ?_
      · rintro _ ⟨⟩
        exact hindex'
      · exact hshows

/-- Towards the newer entries, and past them back to the line that was put aside. -/
theorem recallStep_down (h : Follows history prompt text s e) :
    Follows history prompt text (s.recallStep false) (e.down history) := by
  obtain ⟨hsession, hwithin, hshows⟩ := h
  cases e with
  | typing typed =>
    have hstay : s.recallStep false = s := by
      rw [hsession]
      simp [Session.recallStep, Session.recallTarget, Editor.recall]
    rw [hstay]
    exact ⟨hsession, hwithin, hshows⟩
  | browsing index stash =>
    have hindex : index < history.length := hwithin index rfl
    have hempty : history ≠ [] := List.ne_nil_of_length_pos (Nat.zero_lt_of_lt hindex)
    by_cases hnewer : index + 1 < history.length
    · have hstep : s.recallStep false =
          Session.replaceLine ⟨⟨(history[index]?).getD [], s.read.decoder, some (index + 1), stash⟩,
            history, s.echo⟩ ((history[index + 1]?).getD []) := by
        rw [hsession]
        simp [Session.recallStep, Session.recallTarget, Editor.recall, Editor.line, Editor.stash,
          hempty, hnewer, Nat.not_le_of_lt hnewer]
      rw [hstep, Editor.down, if_pos hnewer]
      refine follows_replaceLine (e := .browsing (index + 1) stash) ?_ ?_
      · rintro _ ⟨⟩
        exact hnewer
      · exact hshows
    · have hpast : s.recallStep false =
          Session.replaceLine ⟨⟨(history[index]?).getD [], s.read.decoder, none, []⟩,
            history, s.echo⟩ stash := by
        rw [hsession]
        simp [Session.recallStep, Session.recallTarget, Editor.recall, Editor.line, Editor.stash,
          hempty, Nat.le_of_not_lt hnewer]
      rw [hpast, Editor.down, if_neg hnewer]
      exact follows_replaceLine (e := .typing stash) nofun hshows

/-- An edit leaves a typed line behind. -/
theorem commitRecall_eq (h : Follows history prompt text s e) (line : Line) :
    Session.commitRecall { s with read.line := line } =
      ⟨⟨line, s.read.decoder, none, []⟩, history, s.echo⟩ := by
  rw [h.session_eq]
  cases e <;> rfl

theorem Follows.typed {line : Line} {bytes : List UInt8} (decoder : EscState)
    (hshows : (screen prompt (s.echo ++ bytes)).Shows (text ++ line.bytes)) :
    Follows history prompt text
      (Session.print ⟨⟨line, decoder, none, []⟩, history, s.echo⟩ bytes) (.typing line) :=
  ⟨rfl, nofun, hshows⟩

theorem backspace_follows (h : Follows history prompt text s e) (hline : e.line history ≠ []) :
    Follows history prompt text
      (Session.print (Session.commitRecall { s with read.line := s.read.line.dropLast }) Session.ERASE)
      (.typing (e.line history).dropLast) := by
  have hlast : e.line history = (e.line history).dropLast ++ [(e.line history).getLast hline] :=
    (List.dropLast_concat_getLast hline).symm
  have hshows := h.shows
  rw [hlast, Line.bytes_append, ← List.append_assoc] at hshows
  rw [commitRecall_eq h, h.session_eq]
  apply Follows.typed
  rw [screen_append]
  exact hshows.erase

theorem char_follows (h : Follows history prompt text s e) {b : UInt8} (hb : Printable b) :
    Follows history prompt text
      (Session.print { s.commitRecall with read.line := s.read.line.push b hb } [b])
      (.typing ((e.line history).push b hb)) := by
  have hne : b ≠ 0x08 := fun heq => absurd (heq ▸ hb.1) (by decide)
  have hcommit := commitRecall_eq h s.read.line
  rw [show { s with read.line := s.read.line } = s from rfl] at hcommit
  rw [hcommit, h.session_eq]
  apply Follows.typed
  rw [screen_append, Line.bytes_push, ← List.append_assoc]
  exact h.shows.put hne

theorem Follows.shown (h : Follows history prompt text s e) :
    (screen prompt s.echo).Shows (text ++ s.read.line.bytes) := by
  have hline : s.read.line = e.line history := by rw [h.session_eq]
  rw [hline]
  exact h.shows

theorem Follows.together (h : Follows history prompt text s e) :
    Together history prompt text (s, none) (e, none) := ⟨rfl, h.shown, fun _ => h⟩

theorem left_of_ne {k : KeyEvent} (h : k ≠ .up) : e.left history k = [] := by
  cases e with
  | typing typed => exact Editor.left.eq_2 _ _ _ fun _ _ hk => h hk
  | browsing index stash => rfl

theorem act_together (h : Follows history prompt text s e) (k : KeyEvent) :
    Together history prompt (text ++ (e.left history k).bytes) (s.act k) (e.key history k) := by
  have hline : s.read.line = e.line history := by rw [h.session_eq]
  by_cases hup : k = .up
  · subst hup
    exact (recallStep_up h).together
  rw [left_of_ne hup, Line.bytes_nil, List.append_nil]
  cases k with
  | up => exact absurd rfl hup
  | down => exact (recallStep_down h).together
  | enter =>
    rw [Session.act, Editor.key, ← hline]
    exact ⟨rfl, ⟨s.echo, rfl, h.shown⟩, nofun⟩
  | ctrl b =>
    rw [Session.act, Editor.key, ← hline]
    split
    · exact ⟨rfl, h.shown, nofun⟩
    · exact h.together
  | backspace =>
    rw [Session.act, Editor.key, hline]
    by_cases hempty : e.line history = []
    · rw [if_pos hempty, if_pos hempty]
      exact h.together
    · rw [if_neg hempty, if_neg hempty]
      exact (hline ▸ backspace_follows h hempty).together
  | char b =>
    rw [Session.act, Editor.key]
    by_cases hb : Printable b
    · by_cases hlength : (e.line history).length < MAX_READ_LINE_BYTES
      · rw [dif_pos hb, if_pos (hline ▸ hlength), dif_pos ⟨hb, hlength⟩]
        exact (char_follows h hb).together
      · rw [dif_pos hb, if_neg (hline ▸ hlength), dif_neg fun hfits => hlength hfits.2]
        exact h.together
    · rw [dif_neg hb, dif_neg fun hfits => hb hfits.1]
      exact h.together
  | tab | left | right => exact h.together

/-- The byte stream is decoded on the way. -/
theorem Follows.decode (h : Follows history prompt text s e) (decoder : EscState) :
    Follows history prompt text { s with read.decoder := decoder } e :=
  ⟨by rw [h.session_eq], h.within, h.shows⟩

theorem recallStep_decoder (s : Session) (back : Bool) :
    (s.recallStep back).read.decoder = s.read.decoder := by
  rw [Session.recallStep]
  obtain ⟨entry, index⟩ := s.recallTarget back
  cases back <;> cases hrecall : s.read.recall <;> cases index <;> cases entry <;> rfl

theorem commitRecall_decoder (s : Session) : s.commitRecall.read.decoder = s.read.decoder := by
  rw [Session.commitRecall]
  split <;> rfl

/-- Only the decoder itself changes its state. -/
theorem act_decoder (s : Session) (k : KeyEvent) : (s.act k).1.read.decoder = s.read.decoder := by
  cases k with
  | up => exact recallStep_decoder s true
  | down => exact recallStep_decoder s false
  | ctrl b =>
    rw [Session.act]
    split <;> rfl
  | backspace =>
    rw [Session.act]
    split
    · rfl
    · exact commitRecall_decoder _
  | char b =>
    rw [Session.act]
    split
    · split
      · exact commitRecall_decoder _
      · rfl
    · rfl
  | enter | tab | left | right => rfl

end Keys

section Streams

variable {history : List Line} {prompt : List UInt8}

theorem poll_cons_none {s s' : Session} {b : UInt8} {bytes : List UInt8}
    (h : s.feed b = (s', none)) : s.poll (b :: bytes) = s'.poll bytes := by
  rw [Session.poll, h]

theorem poll_cons_some {s s' : Session} {b : UInt8} {bytes : List UInt8}
    {result : Option Line} (h : s.feed b = (s', some result)) :
    s.poll (b :: bytes) = (s', some result, bytes) := by
  rw [Session.poll, h]

/-- How a stream was cut into polls does not matter. -/
theorem polls_eq (s : Session) (rings : List (List UInt8)) : s.polls rings = s.poll rings.flatten := by
  induction rings generalizing s with
  | nil => rfl
  | cons ring rings ih =>
    rw [List.flatten_cons, Session.polls]
    induction ring generalizing s with
    | nil => exact ih s
    | cons b ring ihring =>
      rw [List.cons_append]
      rcases hfeed : s.feed b with ⟨s', - | result⟩
      · rw [poll_cons_none hfeed, poll_cons_none hfeed]
        exact ihring s'
      · rw [poll_cons_some hfeed, poll_cons_some hfeed]

section Bytes

variable {text : List UInt8} {s : Session} {e : Editor} {b : UInt8}

/-- A byte that is no key of its own. -/
theorem feed_silent (h : Follows history prompt text s e) {decoder : EscState}
    (hpush : KeyDecoder.push s.read.decoder b = (decoder, none)) :
    ∃ s', s.feed b = (s', none) ∧ s'.read.decoder = decoder ∧ Follows history prompt text s' e := by
  refine ⟨{ s with read.decoder := decoder }, ?_, rfl, h.decode decoder⟩
  rw [Session.feed, hpush]

/-- A byte that completes a key. -/
theorem feed_key (h : Follows history prompt text s e) {decoder : EscState} {k : KeyEvent}
    (hpush : KeyDecoder.push s.read.decoder b = (decoder, some k)) :
    (s.feed b).1.read.decoder = decoder ∧
      Together history prompt (text ++ (e.left history k).bytes) (s.feed b) (e.key history k) := by
  rw [Session.feed, hpush]
  exact ⟨act_decoder _ k, act_together (h.decode decoder) k⟩

/-- What the call returns is what the reference editor ends with. -/
theorem poll_result (bytes : List UInt8) (h : Follows history prompt text s e) :
    (s.poll bytes).2.1 = e.result history (outputs KeyDecoder.push s.read.decoder bytes) := by
  induction bytes generalizing s e text with
  | nil => rfl
  | cons b bytes ih =>
    rcases hpush : KeyDecoder.push s.read.decoder b with ⟨decoder, - | k⟩
    · obtain ⟨s', hfeed, rfl, hfollows⟩ := feed_silent h hpush
      rw [poll_cons_none hfeed, outputs_silent hpush]
      exact ih hfollows
    · obtain ⟨rfl, htogether⟩ := feed_key h hpush
      rw [outputs_symbol hpush, Editor.result, ← htogether.result_eq]
      rcases hfeed : s.feed b with ⟨s', - | result⟩
      · rw [hfeed] at htogether
        rw [poll_cons_none hfeed]
        exact ih (htogether.follows rfl)
      · rw [poll_cons_some hfeed]
        rfl

/-- What is behind the text is told by the cursor. -/
theorem Follows.left_eq {line : Line} (h : Follows history prompt (prompt ++ line.bytes) s e)
    (hshown : Shown prompt prompt s none) : line = [] := by
  have hlength := h.shown.cursor_eq.symm.trans (Screen.Shows.cursor_eq hshown)
  rw [List.append_assoc, List.length_append, List.length_append, List.length_append] at hlength
  have hbytes : line.bytes.length = line.length := List.length_map _
  exact List.length_eq_zero_iff.mp (by omega)

/-- The terminal shows the prompt and the line behind every byte exactly if no key leads away from
a typed line. -/
theorem poll_shown_iff (bytes : List UInt8) (h : Follows history prompt prompt s e) :
    (∀ n, Shown prompt prompt (s.poll (bytes.take n)).1 (s.poll (bytes.take n)).2.1) ↔
      e.Keeps history (outputs KeyDecoder.push s.read.decoder bytes) := by
  induction bytes generalizing s e with
  | nil =>
    refine ⟨fun _ => trivial, fun _ n => ?_⟩
    rw [List.take_nil]
    exact h.shown
  | cons b bytes ih =>
    have hsplit : (∀ n, Shown prompt prompt (s.poll ((b :: bytes).take n)).1
          (s.poll ((b :: bytes).take n)).2.1) ↔
        ∀ n, Shown prompt prompt (s.poll (b :: bytes.take n)).1
          (s.poll (b :: bytes.take n)).2.1 := by
      refine ⟨fun hall n => hall (n + 1), fun hall n => ?_⟩
      cases n with
      | zero => exact h.shown
      | succ n => exact hall n
    rw [hsplit]
    rcases hpush : KeyDecoder.push s.read.decoder b with ⟨decoder, - | k⟩
    · obtain ⟨s', hfeed, rfl, hfollows⟩ := feed_silent h hpush
      simp only [poll_cons_none hfeed]
      rw [outputs_silent hpush]
      exact ih hfollows
    · obtain ⟨rfl, htogether⟩ := feed_key h hpush
      rw [outputs_symbol hpush, Editor.Keeps, ← htogether.result_eq]
      rcases hfeed : s.feed b with ⟨s', - | result⟩
      · rw [hfeed] at htogether
        have hfollows := htogether.follows rfl
        simp only [poll_cons_none hfeed]
        by_cases hleft : e.left history k = []
        · rw [hleft, Line.bytes_nil, List.append_nil] at hfollows
          rw [ih hfollows]
          exact ⟨fun hkeeps => ⟨hleft, fun _ => hkeeps⟩, fun hkeeps => hkeeps.2 trivial⟩
        · refine ⟨fun hall => absurd (hfollows.left_eq (hall 0)) hleft, fun hkeeps => ?_⟩
          exact absurd hkeeps.1 hleft
      · rw [hfeed] at htogether
        have hup : k ≠ .up := by
          rintro rfl
          exact absurd htogether.result_eq nofun
        have hleft : e.left history k = [] := left_of_ne hup
        simp only [poll_cons_some hfeed]
        refine ⟨fun _ => ⟨hleft, nofun⟩, fun _ _ => ?_⟩
        have hshown := htogether.shown
        rwa [hleft, Line.bytes_nil, List.append_nil] at hshown

end Bytes

end Streams

theorem fresh_follows (history : List Line) (prompt : List UInt8) :
    Follows history prompt prompt (.fresh history) (.typing []) where
  session_eq := rfl
  within := nofun
  shows := ⟨0, by simp [screen, Session.fresh, Editor.line]⟩

/-- Behind every byte the terminal shows the prompt and the line, the reference editor's line is
returned, and the cuts do not matter, exactly if Up leads away from no typed line. -/
theorem readLine_shows_iff (history : List Line) (prompt : List UInt8) (rings : List (List UInt8)) :
    ((∀ n, Shown prompt prompt (Session.poll (.fresh history) (rings.flatten.take n)).1
        (Session.poll (.fresh history) (rings.flatten.take n)).2.1) ∧
      (Session.polls (.fresh history) rings).2.1 =
        Editor.result history (.typing []) (events rings.flatten) ∧
      Session.polls (.fresh history) rings = Session.poll (.fresh history) rings.flatten) ↔
    Editor.Keeps history (.typing []) (events rings.flatten) := by
  have hfresh := fresh_follows history prompt
  rw [polls_eq, poll_result _ hfresh, poll_shown_iff _ hfresh]
  exact and_iff_left ⟨rfl, rfl⟩

/-- The typed line stays in front of the entry that is recalled. -/
theorem recall_keeps_typed : ¬∀ n, Shown [0x24] [0x24]
    (Session.poll (.fresh [[⟨0x6c, by decide⟩]]) ([0x61, ESC, 0x5b, 0x41].take n)).1
    (Session.poll (.fresh [[⟨0x6c, by decide⟩]]) ([0x61, ESC, 0x5b, 0x41].take n)).2.1 := by
  intro hall
  exact absurd (Screen.Shows.cursor_eq (hall 4)) (by decide)

end Eo9.Console
