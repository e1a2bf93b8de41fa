import Eo9.Library.Transducer
import Mathlib.Data.List.TakeWhile
import Mathlib.Tactic.Common

/-!
# Key decoding

The two decoders of console bytes, `keydecoder.rs` of the kernel and `text.rs` of the usermode
provider, and the bytes that `hid.rs` sends for the keys of a USB keyboard.
-/

namespace Eo9.Console

open Eo9.Library

def ESC : UInt8 := 0x1b

inductive EscState where
  | idle
  /-- Saw ESC. -/
  | esc
  /-- Inside `ESC [` or `ESC O`. -/
  | csi
  deriving DecidableEq

inductive KeyEvent where
  | char (byte : UInt8)
  | enter
  | backspace
  | tab
  | up
  | down
  | left
  | right
  | ctrl (byte : UInt8)
  deriving DecidableEq

def KeyEvent.isChar : KeyEvent → Bool
  | char _ => true
  | _ => false

namespace KeyDecoder

def plain (byte : UInt8) : Option KeyEvent :=
  some <|
    if byte = 0x0d ∨ byte = 0x0a then .enter
    else if byte = 0x08 ∨ byte = 0x7f then .backspace
    else if byte = 0x09 then .tab
    else if byte ≤ 0x1f then .ctrl byte
    else .char byte

/-- The arrow that a final byte stands for; Home, End, Delete and others are ignored. -/
def final (byte : UInt8) : Option KeyEvent :=
  if byte = 0x41 then some .up
  else if byte = 0x42 then some .down
  else if byte = 0x43 then some .right
  else if byte = 0x44 then some .left
  else none

def push (state : EscState) (byte : UInt8) : EscState × Option KeyEvent :=
  match state with
  | .esc =>
    if byte = 0x5b ∨ byte = 0x4f then (.csi, none)
    else if byte = 0x1b then (.esc, none)
    else (.idle, plain byte)
  | .csi =>
    if 0x20 ≤ byte ∧ byte ≤ 0x3f then (.csi, none)
    else (.idle, final byte)
  | .idle =>
    if byte = 0x1b then (.esc, none)
    else (.idle, plain byte)

end KeyDecoder

/-- The decoder of the usermode text provider. -/
def UnixKeyDecoder.push (state : EscState) (byte : UInt8) : EscState × Option KeyEvent :=
  match state with
  | .esc =>
    if byte = 0x5b ∨ byte = 0x4f then (.csi, none)
    else if byte = 0x1b then (.esc, none)
    else (.idle, KeyDecoder.plain byte)
  | .csi =>
    if 0x20 ≤ byte ∧ byte ≤ 0x3f then (.csi, none)
    else (.idle, KeyDecoder.final byte)
  | .idle =>
    if byte = 0x1b then (.esc, none)
    else (.idle, KeyDecoder.plain byte)

/-- The events of a fresh kernel decoder. -/
def events (bytes : List UInt8) : List KeyEvent := outputs KeyDecoder.push .idle bytes

/-- The events of a fresh usermode decoder. -/
def unixEvents (bytes : List UInt8) : List KeyEvent := outputs UnixKeyDecoder.push .idle bytes

def PLAIN : List Char := ['1', '2', '3', '4', '5', '6', '7', '8', '9', '0']

def SHIFTED : List Char := ['!', '@', '#', '$', '%', '^', '&', '*', '(', ')']

def toAsciiUppercase (c : Char) : Char :=
  if 'a' ≤ c ∧ c ≤ 'z' then Char.ofNat (c.toNat - 32) else c

def keyAscii (usage : UInt8) (shift : Bool) : Option Char :=
  if 0x04 ≤ usage ∧ usage ≤ 0x1d then
    let letter := Char.ofNat (97 + (usage.toNat - 0x04))
    some (if shift then toAsciiUppercase letter else letter)
  else if 0x1e ≤ usage ∧ usage ≤ 0x27 then
    let index := usage.toNat - 0x1e
    if shift then SHIFTED[index]? else PLAIN[index]?
  else if usage = 0x28 then some '\n'
  else if usage = 0x2b then some '\t'
  else if usage = 0x2c then some ' '
  else if usage = 0x2d then some (if shift then '_' else '-')
  else if usage = 0x2e then some (if shift then '+' else '=')
  else if usage = 0x2f then some (if shift then '\x7b' else '[')
  else if usage = 0x30 then some (if shift then '\x7d' else ']')
  else if usage = 0x31 then some (if shift then '|' else '\\')
  else if usage = 0x33 then some (if shift then ':' else ';')
  else if usage = 0x34 then some (if shift then '"' else '\'')
  else if usage = 0x35 then some (if shift then '~' else '\x60')
  else if usage = 0x36 then some (if shift then '<' else ',')
  else if usage = 0x37 then some (if shift then '>' else '.')
  else if usage = 0x38 then some (if shift then '?' else '/')
  else none

/-- What a serial terminal would send for a key. -/
def keyConsoleBytes (usage : UInt8) (shift : Bool) : List UInt8 :=
  if usage = 0x2a then [0x7f]
  else if usage = 0x52 then [ESC, 0x5b, 0x41]
  else if usage = 0x51 then [ESC, 0x5b, 0x42]
  else if usage = 0x4f then [ESC, 0x5b, 0x43]
  else if usage = 0x50 then [ESC, 0x5b, 0x44]
  else if usage = 0x4a then [ESC, 0x5b, 0x48]
  else if usage = 0x4d then [ESC, 0x5b, 0x46]
  else if usage = 0x4c then [ESC, 0x5b, 0x33, 0x7e]
  else
    match keyAscii usage shift with
    | some ch => [UInt8.ofNat ch.toNat]
    | none => []

/-- The event that is documented for a key. -/
def keyEvent (usage : UInt8) (shift : Bool) : Option KeyEvent :=
  if usage = 0x2a then some .backspace
  else if usage = 0x52 then some .up
  else if usage = 0x51 then some .down
  else if usage = 0x4f then some .right
  else if usage = 0x50 then some .left
  else if usage = 0x4a ∨ usage = 0x4d ∨ usage = 0x4c then none
  else if usage = 0x28 then some .enter
  else if usage = 0x2b then some .tab
  else (keyAscii usage shift).map fun ch => .char (UInt8.ofNat ch.toNat)

/-- The byte that makes ESC the start of a sequence. -/
def Introducer (b : UInt8) : Prop := b = 0x5b ∨ b = 0x4f

/-- A parameter or intermediate byte. -/
def Parameter (b : UInt8) : Prop := 0x20 ≤ b ∧ b ≤ 0x3f

def Control (b : UInt8) : Prop := b ≤ 0x1f ∨ b = 0x7f

instance : DecidablePred Introducer := fun _ => inferInstanceAs (Decidable (_ ∨ _))

instance : DecidablePred Parameter := fun _ => inferInstanceAs (Decidable (_ ∧ _))

instance : DecidablePred Control := fun _ => inferInstanceAs (Decidable (_ ∨ _))

/-- A stream and the keys that were typed. A sequence is one key, or none; it ends with its final
byte, or where a control byte cuts it off, and that byte is read as usual. -/
inductive Reads : List UInt8 → List KeyEvent → Prop
  | nil : Reads [] []
  | plain {b bytes es} (hb : b ≠ ESC) (rest : Reads bytes es) :
      Reads (b :: bytes) ((KeyDecoder.plain b).toList ++ es)
  | lone {bytes es} (hnext : ∀ b ∈ bytes.head?, ¬Introducer b) (rest : Reads bytes es) :
      Reads (ESC :: bytes) es
  | sequence {intro parameters last bytes es} (hintro : Introducer intro)
      (hparameters : ∀ b ∈ parameters, Parameter b) (hlast : ¬Parameter last ∧ ¬Control last)
      (rest : Reads bytes es) :
      Reads (ESC :: intro :: (parameters ++ last :: bytes)) ((KeyDecoder.final last).toList ++ es)
  | unfinished {intro parameters bytes es} (hintro : Introducer intro)
      (hparameters : ∀ b ∈ parameters, Parameter b) (hnext : ∀ b ∈ bytes.head?, Control b)
      (rest : Reads bytes es) :
      Reads (ESC :: intro :: (parameters ++ bytes)) es

/-- No control byte but ESC arrives inside an unfinished sequence, and no ESC that does is followed
by a byte that makes it the start of a sequence. -/
def Tame : EscState → List UInt8 → Prop
  | _, [] => True
  | state, b :: bytes =>
    (state = .csi → Control b → b = ESC ∧ ∀ next ∈ bytes.head?, ¬Introducer next) ∧
      Tame (KeyDecoder.push state b).1 bytes

namespace Cutting

/-- The decoder, but a control byte inside a sequence is read as usual. -/
def push (state : EscState) (byte : UInt8) : EscState × Option KeyEvent :=
  if state = .csi ∧ Control byte then KeyDecoder.push .idle byte else KeyDecoder.push state byte

theorem push_of_ne {state : EscState} {byte : UInt8} (h : ¬(state = .csi ∧ Control byte)) :
    push state byte = KeyDecoder.push state byte := if_neg h

theorem push_idle (byte : UInt8) : push .idle byte = KeyDecoder.push .idle byte :=
  push_of_ne fun h => nomatch h.1

theorem push_esc (byte : UInt8) : push .esc byte = KeyDecoder.push .esc byte :=
  push_of_ne fun h => nomatch h.1

theorem push_control {byte : UInt8} (h : Control byte) :
    push .csi byte = KeyDecoder.push .idle byte := if_pos ⟨rfl, h⟩

theorem push_parameter {byte : UInt8} (h : Parameter byte) : push .csi byte = (.csi, none) := by
  have hcontrol : ¬Control byte := by
    rintro (hlow | hdel)
    · have hle : (0x20 : UInt8) ≤ 0x1f := UInt8.le_trans h.1 hlow
      exact absurd hle (by decide)
    · have hle : (0x7f : UInt8) ≤ 0x3f := hdel ▸ h.2
      exact absurd hle (by decide)
  rw [push_of_ne fun hcut => hcontrol hcut.2]
  exact if_pos h

theorem push_last {byte : UInt8} (h : ¬Parameter byte ∧ ¬Control byte) :
    push .csi byte = (.idle, KeyDecoder.final byte) := by
  rw [push_of_ne fun hcut => h.2 hcut.2]
  exact if_neg h.1

end Cutting

theorem push_introducer {b : UInt8} (h : Introducer b) : KeyDecoder.push .esc b = (.csi, none) :=
  if_pos h

/-- After an ESC that starts no sequence, a byte is read as if it had not been there. -/
theorem push_esc_eq {b : UInt8} (h : ¬Introducer b) :
    KeyDecoder.push .esc b = KeyDecoder.push .idle b := if_neg h

theorem push_plain {b : UInt8} (h : b ≠ ESC) :
    KeyDecoder.push .idle b = (.idle, KeyDecoder.plain b) := if_neg h

/-- A lone ESC is dropped. -/
theorem cutting_lone {bytes : List UInt8} (h : ∀ b ∈ bytes.head?, ¬Introducer b) :
    outputs Cutting.push .esc bytes = outputs Cutting.push .idle bytes := by
  cases bytes with
  | nil => rfl
  | cons b bytes =>
    have hb : ¬Introducer b := h b rfl
    rw [outputs, outputs, Cutting.push_esc, push_esc_eq hb, Cutting.push_idle]

/-- A sequence that is cut off leaves nothing behind. -/
theorem cutting_control {bytes : List UInt8} (h : ∀ b ∈ bytes.head?, Control b) :
    outputs Cutting.push .csi bytes = outputs Cutting.push .idle bytes := by
  cases bytes with
  | nil => rfl
  | cons b bytes =>
    have hb : Control b := h b rfl
    rw [outputs, outputs, Cutting.push_control hb, Cutting.push_idle]

theorem cutting_sequence {intro : UInt8} {parameters bytes : List UInt8} (hintro : Introducer intro)
    (hparameters : ∀ b ∈ parameters, Parameter b) :
    outputs Cutting.push .idle (ESC :: intro :: (parameters ++ bytes)) =
      outputs Cutting.push .csi bytes := by
  have hescape : Cutting.push .idle ESC = (.esc, none) := Cutting.push_idle ESC
  have hintro' : Cutting.push .esc intro = (.csi, none) := by
    rw [Cutting.push_esc, push_introducer hintro]
  rw [outputs_silent hescape, outputs_silent hintro']
  exact outputs_skip fun b hb => Cutting.push_parameter (hparameters b hb)

/-- A stream means one list of keys. -/
theorem Reads.eq_outputs {bytes : List UInt8} {es : List KeyEvent} (h : Reads bytes es) :
    es = outputs Cutting.push .idle bytes := by
  induction h with
  | nil => rfl
  | plain hb _ ih => rw [outputs, Cutting.push_idle, push_plain hb, ih]
  | lone hnext _ ih =>
    rw [outputs_silent (show Cutting.push .idle ESC = (.esc, none) from Cutting.push_idle ESC),
      cutting_lone hnext, ih]
  | sequence hintro hparameters hlast _ ih =>
    rw [cutting_sequence hintro hparameters, outputs, Cutting.push_last hlast, ih]
  | unfinished hintro hparameters hnext _ ih =>
    rw [cutting_sequence hintro hparameters, cutting_control hnext, ih]

/-- Every stream means something. -/
theorem exists_reads (bytes : List UInt8) : ∃ es, Reads bytes es := by
  induction hn : bytes.length using Nat.strongRecOn generalizing bytes with
  | ind n ih =>
    subst hn
    rcases bytes with - | ⟨b, rest⟩
    · exact ⟨[], .nil⟩
    by_cases hb : b = ESC
    · subst hb
      by_cases hnext : ∀ c ∈ rest.head?, ¬Introducer c
      · obtain ⟨es, hes⟩ := ih rest.length (Nat.lt_succ_self _) rest rfl
        exact ⟨es, .lone hnext hes⟩
      · rcases rest with - | ⟨intro, rest⟩
        · exact absurd (fun _ h => nomatch h) hnext
        have hintro : Introducer intro := by
          by_contra hno
          apply hnext
          intro c hc
          cases hc
          exact hno
        have hsplit := List.takeWhile_append_dropWhile (p := fun c => decide (Parameter c)) (l := rest)
        have hparameters : ∀ c ∈ rest.takeWhile fun c => decide (Parameter c), Parameter c := by
          intro c hc
          have htrue := List.mem_takeWhile_imp hc
          exact of_decide_eq_true htrue
        have htail : (rest.dropWhile fun c => decide (Parameter c)).length ≤ rest.length :=
          (List.dropWhile_sublist _).length_le
        rw [← hsplit]
        cases htailEq : rest.dropWhile fun c => decide (Parameter c) with
        | nil => exact ⟨[], .unfinished hintro hparameters nofun .nil⟩
        | cons last tail =>
          have hlast : ¬Parameter last := by
            have hhead := List.head?_dropWhile_not (fun c => decide (Parameter c)) rest
            rw [htailEq] at hhead
            exact of_decide_eq_false (by simpa using hhead)
          rw [htailEq, List.length_cons] at htail
          by_cases hcontrol : Control last
          · obtain ⟨es, hes⟩ := ih (last :: tail).length (by
              rw [List.length_cons, List.length_cons, List.length_cons]; omega)
              (last :: tail) rfl
            refine ⟨es, .unfinished hintro hparameters ?_ hes⟩
            intro c hc
            cases hc
            exact hcontrol
          · obtain ⟨es, hes⟩ := ih tail.length (by
              rw [List.length_cons, List.length_cons]; omega) tail rfl
            exact ⟨_, .sequence hintro hparameters ⟨hlast, hcontrol⟩ hes⟩
    · obtain ⟨es, hes⟩ := ih rest.length (Nat.lt_succ_self _) rest rfl
      exact ⟨_, .plain hb hes⟩

theorem reads_iff {bytes : List UInt8} {es : List KeyEvent} :
    Reads bytes es ↔ es = outputs Cutting.push .idle bytes := by
  refine ⟨Reads.eq_outputs, ?_⟩
  rintro rfl
  obtain ⟨es, hes⟩ := exists_reads bytes
  rwa [← hes.eq_outputs]

/-- The number of characters among events. -/
def chars (es : List KeyEvent) : ℕ := es.countP KeyEvent.isChar

/-- One list of events has more characters than another, or as many of them and fewer events. -/
def Gap (es es' : List KeyEvent) : Prop :=
  chars es' < chars es ∨ chars es = chars es' ∧ es.length < es'.length

theorem Gap.ne {es es' : List KeyEvent} (h : Gap es es') : es ≠ es' := by
  rintro rfl
  rcases h with h | ⟨-, h⟩
  · exact Nat.lt_irrefl _ h
  · exact Nat.lt_irrefl _ h

theorem chars_append (es es' : List KeyEvent) : chars (es ++ es') = chars es + chars es' :=
  List.countP_append

theorem Gap.append {es es' : List KeyEvent} (h : Gap es es') (front : List KeyEvent) :
    Gap (front ++ es) (front ++ es') := by
  rw [Gap, chars_append, chars_append, List.length_append, List.length_append]
  rcases h with h | ⟨hsame, h⟩
  · exact .inl (Nat.add_lt_add_left h _)
  · exact .inr ⟨congrArg _ hsame, Nat.add_lt_add_left h _⟩

/-- Events that agree up to a point, and then not. -/
def Agrees (p : Prop) (es es' : List KeyEvent) : Prop := (p → es = es') ∧ (¬p → Gap es es')

theorem Agrees.append {p : Prop} {es es' : List KeyEvent} (h : Agrees p es es')
    (front : List KeyEvent) : Agrees p (front ++ es) (front ++ es') :=
  ⟨fun hp => by rw [h.1 hp], fun hp => (h.2 hp).append front⟩

theorem Agrees.chars_le {p : Prop} {es es' : List KeyEvent} (h : Agrees p es es') :
    chars es' ≤ chars es := by
  by_cases hp : p
  · rw [h.1 hp]
  · rcases h.2 hp with hgap | ⟨hsame, -⟩
    · exact Nat.le_of_lt hgap
    · exact Nat.le_of_eq hsame.symm

theorem Agrees.congr {p q : Prop} {es es' : List KeyEvent} (h : Agrees p es es') (hpq : p ↔ q) :
    Agrees q es es' := (propext hpq) ▸ h

theorem plain_char {b : UInt8} (h : ¬Control b) : KeyDecoder.plain b = some (.char b) := by
  have hlow : ¬b ≤ 0x1f := fun hle => h (.inl hle)
  have hsmall : ∀ c : UInt8, c ≤ 0x1f → b ≠ c := fun c hc hb => hlow (hb ▸ hc)
  have hdel : b ≠ 0x7f := fun hb => h (.inr hb)
  rw [KeyDecoder.plain, if_neg, if_neg, if_neg, if_neg hlow]
  · exact hsmall _ (by decide)
  · exact not_or.mpr ⟨hsmall _ (by decide), hdel⟩
  · exact not_or.mpr ⟨hsmall _ (by decide), hsmall _ (by decide)⟩

/-- A control byte is no character. -/
theorem plain_control {b : UInt8} (h : Control b) :
    ∃ e, KeyDecoder.plain b = some e ∧ ∀ es, chars (e :: es) = chars es := by
  have hskip : ∀ {e : KeyEvent}, e.isChar = false → ∀ es, chars (e :: es) = chars es :=
    fun he _ => List.countP_cons_of_neg (by rw [he]; exact Bool.false_ne_true)
  refine ⟨_, rfl, hskip ?_⟩
  split
  · rfl
  · split
    · rfl
    · next hback =>
      split
      · rfl
      · split
        · rfl
        · next hlow => exact absurd h (not_or.mpr ⟨hlow, (not_or.mp hback).2⟩)

theorem chars_cons (b : UInt8) (es : List KeyEvent) : chars (.char b :: es) = chars es + 1 :=
  List.countP_cons_of_pos rfl

theorem chars_final (b : UInt8) (es : List KeyEvent) :
    chars ((KeyDecoder.final b).toList ++ es) = chars es := by
  rw [KeyDecoder.final]
  split
  · rfl
  · split
    · rfl
    · split
      · rfl
      · split <;> rfl

/-- Inside a sequence the decoders take a control byte for a final byte. -/
theorem push_swallow {b : UInt8} (h : Control b) : KeyDecoder.push .csi b = (.idle, none) := by
  have hparameter : ¬(0x20 ≤ b ∧ b ≤ 0x3f) := by
    rintro ⟨hlow, hhigh⟩
    rcases h with hle | rfl
    · exact absurd (UInt8.le_trans hlow hle) (by decide)
    · exact absurd hhigh (by decide)
  have hletter : ∀ c : UInt8, 0x1f < c → c ≠ 0x7f → b ≠ c := by
    rintro c hc hdel rfl
    rcases h with hle | hb
    · exact UInt8.lt_irrefl _ (UInt8.lt_of_lt_of_le hc hle)
    · exact hdel hb
  rw [KeyDecoder.push, if_neg hparameter, KeyDecoder.final,
    if_neg (hletter _ (by decide) (by decide)), if_neg (hletter _ (by decide) (by decide)),
    if_neg (hletter _ (by decide) (by decide)), if_neg (hletter _ (by decide) (by decide))]

theorem control_escape : Control ESC := by decide

/-- A byte that is no control byte is a character outside sequences. -/
theorem outputs_char {b : UInt8} (h : ¬Control b) (bytes : List UInt8) :
    outputs KeyDecoder.push .idle (b :: bytes) = .char b :: outputs KeyDecoder.push .idle bytes := by
  have hne : b ≠ ESC := fun hb => h (hb ▸ control_escape)
  apply outputs_symbol
  rw [push_plain hne, plain_char h]

/-- The decoder beside the one that control bytes cut off: in the same state, one character behind
it inside a sequence, and where the latter has seen the ESC that the former took for a final byte. -/
theorem decoders_compare (bytes : List UInt8) :
    (∀ state, Agrees (Tame state bytes) (outputs KeyDecoder.push state bytes)
      (outputs Cutting.push state bytes)) ∧
    chars (outputs Cutting.push .csi bytes) ≤ chars (outputs KeyDecoder.push .idle bytes) ∧
    Agrees ((∀ b ∈ bytes.head?, ¬Introducer b) ∧ Tame .idle bytes)
      (outputs KeyDecoder.push .idle bytes) (outputs Cutting.push .esc bytes) := by
  induction bytes with
  | nil =>
    refine ⟨fun _ => ⟨fun _ => rfl, fun h => absurd trivial h⟩, le_rfl, fun _ => rfl, fun h => ?_⟩
    exact absurd ⟨(fun _ h => by cases h), trivial⟩ h
  | cons b bytes ih =>
    obtain ⟨hsame, hbehind, hescaped⟩ := ih
    refine ⟨fun state => ?_, ?_, ?_⟩
    · by_cases hcut : state = .csi ∧ Control b
      · obtain ⟨rfl, hcontrol⟩ := hcut
        rw [outputs_silent (push_swallow hcontrol), outputs, Cutting.push_control hcontrol]
        by_cases hb : b = ESC
        · subst hb
          refine hescaped.congr ⟨fun h => ⟨fun _ _ => ⟨rfl, h.1⟩, h.2⟩, fun h => ?_⟩
          exact ⟨(h.1 rfl hcontrol).2, h.2⟩
        · obtain ⟨e, he, hchars⟩ := plain_control hcontrol
          rw [push_plain hb, he]
          dsimp only
          refine ⟨fun h => absurd (h.1 rfl hcontrol).1 hb, fun _ => ?_⟩
          rw [Gap, Option.toList_some, List.singleton_append, hchars, List.length_cons]
          rcases Nat.lt_or_eq_of_le (hsame .idle).chars_le with hlt | heq
          · exact .inl hlt
          · refine .inr ⟨heq.symm, ?_⟩
            by_cases htame : Tame .idle bytes
            · rw [(hsame .idle).1 htame]
              exact Nat.lt_succ_self _
            · rcases (hsame .idle).2 htame with hgap | ⟨-, hgap⟩
              · omega
              · omega
      · rw [outputs, outputs, Cutting.push_of_ne hcut]
        refine ((hsame _).append _).congr ⟨fun h => ⟨fun hs hb => absurd ⟨hs, hb⟩ hcut, h⟩, ?_⟩
        exact fun h => h.2
    · by_cases hcontrol : Control b
      · rw [outputs, outputs, Cutting.push_control hcontrol, chars_append, chars_append]
        exact Nat.add_le_add_left (hsame _).chars_le _
      · rw [outputs_char hcontrol, chars_cons]
        by_cases hparameter : Parameter b
        · rw [outputs_silent (Cutting.push_parameter hparameter)]
          exact Nat.le_succ_of_le hbehind
        · rw [outputs, Cutting.push_last ⟨hparameter, hcontrol⟩, chars_final]
          exact Nat.le_succ_of_le (hsame .idle).chars_le
    · by_cases hintro : Introducer b
      · have hcontrol : ¬Control b := by
          rcases hintro with rfl | rfl
          · decide
          · decide
        rw [outputs_char hcontrol]
        refine ⟨fun h => absurd hintro (h.1 b rfl), fun _ => .inl ?_⟩
        have hpush : Cutting.push .esc b = (.csi, none) := by
          rw [Cutting.push_esc, push_introducer hintro]
        rw [outputs_silent hpush, chars_cons]
        exact Nat.lt_succ_of_le hbehind
      · rw [outputs, outputs, Cutting.push_esc, push_esc_eq hintro]
        refine ((hsame _).append _).congr ⟨fun h => ⟨?_, (fun h => by cases h), h⟩, fun h => h.2.2⟩
        rintro c hc
        cases hc
        exact hintro

/-- The kernel's decoder reads a stream as what it means exactly if the stream is tame. -/
theorem events_reads_iff (bytes : List UInt8) : Reads bytes (events bytes) ↔ Tame .idle bytes := by
  have hagrees := (decoders_compare bytes).1 .idle
  rw [reads_iff, events]
  refine ⟨fun h => ?_, hagrees.1⟩
  by_contra hwild
  exact (hagrees.2 hwild).ne h

theorem unixEvents_eq (bytes : List UInt8) : unixEvents bytes = events bytes := by
  have hpush : UnixKeyDecoder.push = KeyDecoder.push := by
    funext state byte
    cases state <;> rfl
  rw [unixEvents, hpush, events]

/-- The bytes of a key are its event, and leave the decoder where it was. -/
theorem key_decoded (usage : UInt8) (shift : Bool) :
    after KeyDecoder.push .idle (keyConsoleBytes usage shift) = .idle ∧
      outputs KeyDecoder.push .idle (keyConsoleBytes usage shift) =
        (keyEvent usage shift).toList := by
  have hall : ∀ n < 256, ∀ shift,
      after KeyDecoder.push .idle (keyConsoleBytes (UInt8.ofNat n) shift) = .idle ∧
        outputs KeyDecoder.push .idle (keyConsoleBytes (UInt8.ofNat n) shift) =
          (keyEvent (UInt8.ofNat n) shift).toList := by decide +kernel
  have husage := hall usage.toNat usage.toNat_lt shift
  rwa [UInt8.ofNat_toNat] at husage

/-- Keys are decoded one by one. -/
theorem events_keys (keys : List (UInt8 × Bool)) :
    events (keys.flatMap fun k => keyConsoleBytes k.1 k.2) =
      keys.filterMap fun k => keyEvent k.1 k.2 := by
  rw [events]
  induction keys with
  | nil => rfl
  | cons k keys ih =>
    obtain ⟨hstate, hevents⟩ := key_decoded k.1 k.2
    rw [List.flatMap_cons, outputs_append, hstate, hevents, ih, List.filterMap_cons]
    cases keyEvent k.1 k.2 <;> rfl

/-- Keys are decoded to their events. The two decoders agree on every stream, and they read it as
what it means exactly if it is tame. -/
theorem decoders_read (keys : List (UInt8 × Bool)) (bytes : List UInt8) :
    events (keys.flatMap fun k => keyConsoleBytes k.1 k.2) =
        keys.filterMap (fun k => keyEvent k.1 k.2) ∧
      ((unixEvents bytes = events bytes ∧ Reads bytes (events bytes)) ↔ Tame .idle bytes) :=
  ⟨events_keys keys, (and_iff_right (unixEvents_eq bytes)).trans (events_reads_iff bytes)⟩

/-- A Ctrl-C inside an unfinished sequence is lost. -/
theorem swallowed_interrupt : ¬∀ bytes, unixEvents bytes = events bytes ∧
    Reads bytes (events bytes) := by
  intro h
  have hread := (h [ESC, 0x5b, 0x31, 0x03]).2
  rw [reads_iff] at hread
  exact absurd hread (by decide)

end Eo9.Console
