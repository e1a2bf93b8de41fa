import Mathlib.Data.List.Forall2
import Eo9.Wave.Codec

/-!
# What is rendered is read back

A rendered value is read back exactly if the lists in it are split where they were joined.
-/

namespace Eo9.Wave

open Eo9.Library Eo9.Store

variable {F : Type} [Floats F] {ty : Ty} {t inner : Text} {c q : Char}

/-- A type without floats. -/
def Ty.Discrete : Ty → Prop
  | .float _ => False
  | .option ty => ty.Discrete
  | .list ty => ty.Discrete
  | _ => True

theorem between_eq_some_iff {first : Text} {last : Char} :
    between first last t = some inner ↔ t = first ++ inner ++ [last] := by
  rw [between]
  constructor
  · intro h
    split at h
    · next hfirst =>
      obtain ⟨rest, rfl⟩ := List.isPrefixOf_iff_prefix.mp hfirst
      rw [List.drop_left] at h
      dsimp only at h
      split at h
      · next hlast =>
        cases h
        rw [List.append_assoc, List.dropLast_append_getLast? last hlast]
      · cases h
    · cases h
  · rintro rfl
    have hfirst : first.isPrefixOf (first ++ inner ++ [last]) = true := by
      rw [List.isPrefixOf_iff_prefix, List.append_assoc]
      exact List.prefix_append ..
    rw [if_pos hfirst, List.append_assoc, List.drop_left]
    simp

theorem unescape_cons (h : c ≠ '\\') (rest : Text) :
    unescape (c :: rest) = (unescape rest).map (c :: ·) := by
  cases rest <;> simp [unescape, h]

theorem unescape_escape (hq : q = '"' ∨ q = '\'') (c : Char) (rest : Text) :
    unescape (escape q c ++ rest) = (unescape rest).map (c :: ·) := by
  rcases hq with rfl | rfl <;>
  · rw [escape]
    split_ifs with h₁ h₂ h₃ h₄ h₅
    all_goals subst_vars
    all_goals first | rfl | exact unescape_cons h₂ rest

/-- A text between quotes and what it spells; a character that is not escaped satisfies `p`. -/
inductive Spells (p : Char → Prop) : Text → Text → Prop
  | nil : Spells p [] []
  | plain {c : Char} {t s : Text} (hc : c ≠ '\\') (hp : p c) (rest : Spells p t s) :
      Spells p (c :: t) (c :: s)
  | escaped {e d : Char} {t s : Text} (he : escapeOf e = some d) (rest : Spells p t s) :
      Spells p ('\\' :: e :: t) (d :: s)

theorem spells_of_unescape {s : Text} (h : unescape t = .ok s) : Spells (fun _ => True) t s := by
  induction t using unescape.induct generalizing s with
  | case1 =>
    cases h
    exact .nil
  | case2 c rest hc ih =>
    rw [unescape_cons hc] at h
    cases hrest : unescape rest with
    | error e =>
      rw [hrest] at h
      cases h
    | ok out =>
      rw [hrest] at h
      cases h
      exact .plain hc trivial (ih hrest)
  | case3 c hc =>
    rw [unescape.eq_def] at h
    simp [hc] at h
  | case4 c hc e rest d he ih =>
    obtain rfl := not_not.mp hc
    rw [unescape.eq_def] at h
    simp only [ne_eq, not_true_eq_false, if_false, he] at h
    cases hrest : unescape rest with
    | error e =>
      rw [hrest] at h
      cases h
    | ok out =>
      rw [hrest] at h
      cases h
      exact .escaped he (ih hrest)
  | case5 c hc e rest he =>
    rw [unescape.eq_def] at h
    simp [hc, he] at h

theorem unescape_flatMap_escape (t : Text) : unescape (t.flatMap (escape '"')) = .ok t := by
  induction t with
  | nil => rfl
  | cons c t ih =>
    rw [List.flatMap_cons, unescape_escape (.inl rfl), ih]
    rfl

theorem toNat_of_label (h : c.isAlphanum = true ∨ c = '-') :
    c.toNat = 45 ∨ (48 ≤ c.toNat ∧ c.toNat ≤ 57) ∨ (65 ≤ c.toNat ∧ c.toNat ≤ 90) ∨
      (97 ≤ c.toNat ∧ c.toNat ≤ 122) := by
  rcases h with h | rfl
  · have hupper : c.isUpper = decide ('A'.val ≤ c.val ∧ c.val ≤ 'Z'.val) := rfl
    change (c.isUpper || _ && _ || _ && _) = true at h
    simp only [hupper, Bool.or_eq_true, Bool.and_eq_true, decide_eq_true_eq, ge_iff_le,
      UInt32.le_iff_toNat_le] at h
    have hnat : c.val.toNat = c.toNat := rfl
    have hA : 'A'.val.toNat = 65 := rfl
    have hZ : 'Z'.val.toNat = 90 := rfl
    have ha : 'a'.val.toNat = 97 := rfl
    have hz : 'z'.val.toNat = 122 := rfl
    have h0 : '0'.val.toNat = 48 := rfl
    have h9 : '9'.val.toNat = 57 := rfl
    omega
  · exact .inl rfl

theorem not_isWhitespace_of_label (h : c.isAlphanum = true ∨ c = '-') :
    ¬isWhitespace c = true := by
  have hnat := toNat_of_label h
  simp only [isWhitespace, Bool.or_eq_true, Bool.and_eq_true, decide_eq_true_eq]
  omega

theorem label_intText {n : Int} (h : c ∈ intText n) : c.isAlphanum = true ∨ c = '-' := by
  have hdigit : ∀ c ∈ Nat.toDigits 10 n.natAbs, c.isAlphanum = true := by
    intro c hc
    rw [Char.isAlphanum, Nat.isDigit_of_mem_toDigits (by decide) (by decide) hc, Bool.or_true]
  rw [intText] at h
  split at h
  · rcases List.mem_cons.mp h with rfl | h
    · exact .inr rfl
    · exact .inl (hdigit c h)
  · exact .inl (hdigit c h)

theorem labels_of_all (h : (t.all fun c => c.isAlphanum || c == '-') = true) :
    ∀ c ∈ t, c.isAlphanum = true ∨ c = '-' := by
  simpa using h

theorem bare_of_labels (h : ∀ c ∈ t, c.isAlphanum = true ∨ c = '-') : Bare isWhitespace t :=
  ⟨fun c hc => not_isWhitespace_of_label (h c (List.mem_of_mem_head? hc)),
    fun c hc => not_isWhitespace_of_label (h c (List.mem_of_mem_getLast? hc))⟩

theorem bare_between {a b : Char} (ha : ¬isWhitespace a = true) (hb : ¬isWhitespace b = true) :
    Bare isWhitespace (a :: t ++ [b]) := by
  constructor
  · intro c hc
    cases hc
    exact ha
  · intro c hc
    rw [List.getLast?_concat] at hc
    cases hc
    exact hb

/-- A rendered value has no blanks at its ends. -/
theorem bare_render (hty : ty.Discrete) (v : ty.Val F) :
    Bare isWhitespace (render ty v) ∧ render ty v ≠ [] := by
  cases ty with
  | bool =>
    cases v with
    | true => exact ⟨bare_of_labels (t := text "true") (labels_of_all rfl), List.cons_ne_nil _ _⟩
    | false => exact ⟨bare_of_labels (t := text "false") (labels_of_all rfl), List.cons_ne_nil _ _⟩
  | int k =>
    refine ⟨bare_of_labels fun c => label_intText, ?_⟩
    rw [render, intText]
    split
    · exact List.cons_ne_nil _ _
    · exact Nat.toDigits_ne_nil
  | float => exact hty.elim
  | char => exact ⟨bare_between (by decide) (by decide), by simp [render]⟩
  | string => exact ⟨bare_between (by decide) (by decide), by simp [render, quote]⟩
  | enum cases => exact ⟨bare_of_labels v.1.2.2, v.1.2.1⟩
  | option ty =>
    cases v with
    | none => exact ⟨bare_of_labels (t := text "none") (labels_of_all rfl), List.cons_ne_nil _ _⟩
    | some v => exact ⟨bare_between (by decide) (by decide), by simp [render]⟩
  | list ty => exact ⟨bare_between (by decide) (by decide), by simp [render]⟩
  | other => exact v.elim

theorem trim_render (hty : ty.Discrete) (v : ty.Val F) :
    trim isWhitespace (render ty v) = render ty v :=
  trim_eq_self_iff.mpr (bare_render hty v).1

theorem magnitude_eq {limit : Nat} {overflow : String} {digits : Text} {n : { n // n ≤ limit }}
    (hdigits : ∀ c ∈ digits, c.isDigit = true) (hfits : Nat.ofDigitChars 10 digits n.1 ≤ limit) :
    magnitude limit overflow n digits = .ok ⟨Nat.ofDigitChars 10 digits n.1, hfits⟩ := by
  induction digits generalizing n with
  | nil => rfl
  | cons c digits ih =>
    have hc : digitValue c = some (c.toNat - '0'.toNat) :=
      if_pos (hdigits c List.mem_cons_self)
    have hle : n.1 * 10 + (c.toNat - '0'.toNat) ≤ limit := by
      calc n.1 * 10 + (c.toNat - '0'.toNat)
        _ ≤ Nat.ofDigitChars 10 digits (n.1 * 10 + (c.toNat - '0'.toNat)) :=
          le_ofDigitChars_of digits _
        _ = Nat.ofDigitChars 10 (c :: digits) n.1 := by
          rw [Nat.ofDigitChars_cons, Nat.mul_comm]
        _ ≤ limit := hfits
    rw [magnitude, hc]
    dsimp only
    rw [dif_pos hle, ih fun c hc => hdigits c (List.mem_cons_of_mem _ hc)]
    · simp only [Nat.ofDigitChars_cons, Nat.mul_comm]
    · simpa only [Nat.ofDigitChars_cons, Nat.mul_comm] using hfits

theorem int_intText (k : IntTy) (n : k.Val) : int k (intText n.1) = .ok n := by
  have hdigits : ∀ c ∈ Nat.toDigits 10 n.1.natAbs, c.isDigit = true :=
    fun c hc => Nat.isDigit_of_mem_toDigits (by decide) (by decide) hc
  have hvalue : Nat.ofDigitChars 10 (Nat.toDigits 10 n.1.natAbs) 0 = n.1.natAbs :=
    Nat.ofDigitChars_ten_toDigits
  obtain ⟨n, hleast, hmost⟩ := n
  dsimp only at hdigits hvalue ⊢
  rw [intText]
  split
  · next hneg =>
    have hsigned : k.signed = true := by
      by_contra hnot
      rw [IntTy.least, if_neg hnot] at hleast
      omega
    have hfits : n.natAbs ≤ k.least := by omega
    rw [int, if_neg (by simp [Nat.toDigits_ne_nil]), if_neg (by decide), if_pos ⟨rfl, hsigned⟩,
      negative, magnitude_eq hdigits (by rwa [hvalue])]
    refine congrArg Except.ok (Subtype.ext ?_)
    dsimp only
    rw [hvalue]
    omega
  · next hpos =>
    have hfits : n.natAbs ≤ k.most := by omega
    cases hlist : Nat.toDigits 10 n.natAbs with
    | nil => exact absurd hlist Nat.toDigits_ne_nil
    | cons c digits =>
      rw [hlist] at hdigits hvalue
      have hc := hdigits c List.mem_cons_self
      have hplus : c ≠ '+' := by
        rintro rfl
        cases hc
      have hminus : c ≠ '-' := by
        rintro rfl
        cases hc
      rw [int, if_neg (by simp [hplus, hminus]), if_neg hplus, if_neg fun h => hminus h.1,
        positive, magnitude_eq hdigits (by rwa [hvalue])]
      refine congrArg Except.ok (Subtype.ext ?_)
      dsimp only
      rw [hvalue]
      omega

/-! ## Commas

A text has as many commas as the rendering of the value it is read as.
-/

def commas (t : Text) : Nat := t.count ','

theorem commas_append (t u : Text) : commas (t ++ u) = commas t + commas u := List.count_append

theorem commas_eq_zero (h : ∀ c ∈ t, c ≠ ',') : commas t = 0 :=
  List.count_eq_zero.mpr fun hc => h _ hc rfl

theorem commas_of_labels (h : ∀ c ∈ t, c.isAlphanum = true ∨ c = '-') : commas t = 0 := by
  apply commas_eq_zero
  rintro c hc rfl
  rcases h _ hc with h | h <;> cases h

theorem commas_of_blank (h : ∀ c ∈ t, isWhitespace c = true) : commas t = 0 := by
  apply commas_eq_zero
  rintro c hc rfl
  cases h _ hc

theorem commas_trim (t : Text) : commas (trim isWhitespace t) = commas t := by
  obtain ⟨lead, trail, ht, hlead, htrail, -⟩ := trim_spec isWhitespace t
  conv_rhs => rw [ht]
  rw [commas_append, commas_append, commas_of_blank hlead, commas_of_blank htrail]
  omega

theorem commas_escape (hq : q = '"' ∨ q = '\'') (c : Char) :
    commas (escape q c) = commas [c] := by
  rcases hq with rfl | rfl <;>
  · rw [escape]
    split_ifs <;> subst_vars <;> rfl

theorem commas_flatMap_escape (t : Text) : commas (t.flatMap (escape '"')) = commas t := by
  induction t with
  | nil => rfl
  | cons c t ih =>
    rw [List.flatMap_cons, commas_append, ih, commas_escape (.inl rfl), ← commas_append,
      List.singleton_append]

theorem Spells.commas_eq {p : Char → Prop} {s : Text} (h : Spells p t s) :
    commas t = commas s := by
  induction h with
  | nil => rfl
  | @plain c t s _ _ _ ih => rw [← List.singleton_append, commas_append, ih, ← commas_append,
      List.singleton_append]
  | @escaped e d t s he _ ih =>
    have hnone : commas ['\\', e] = commas [d] := by
      rw [escapeOf] at he
      split_ifs at he with h₁ h₂ h₃ h₄ <;> cases he
      · rcases h₁ with rfl | rfl | rfl <;> rfl
      all_goals subst_vars <;> rfl
    calc commas ('\\' :: e :: t)
      _ = commas (['\\', e] ++ t) := rfl
      _ = commas ([d] ++ s) := by rw [commas_append, commas_append, hnone, ih]

theorem of_magnitude {limit : Nat} {overflow : String} {n m : { n // n ≤ limit }}
    (h : magnitude limit overflow n t = .ok m) :
    (∀ c ∈ t, c.isDigit = true) ∧ m.1 = Nat.ofDigitChars 10 t n.1 := by
  induction t generalizing n with
  | nil =>
    cases h
    exact ⟨by simp, rfl⟩
  | cons c t ih =>
    rw [magnitude, digitValue] at h
    split at h
    · cases h
    · next hdigit =>
      split at h
      · split_ifs at hdigit with hc
        cases hdigit
        obtain ⟨hdigits, hvalue⟩ := ih h
        refine ⟨List.forall_mem_cons.mpr ⟨hc, hdigits⟩, ?_⟩
        rw [Nat.ofDigitChars_cons, Nat.mul_comm]
        exact hvalue
      · cases h

theorem map_eq_ok {α β ε : Type} {f : α → β} {x : Except ε α} {b : β}
    (h : x.map f = .ok b) : ∃ a, x = .ok a ∧ b = f a := by
  cases x with
  | error e => cases h
  | ok a =>
    cases h
    exact ⟨a, rfl, rfl⟩

/-- A number is digits, behind a sign or not. -/
theorem of_int {k : IntTy} {n : k.Val} (h : int k t = .ok n) :
    ∃ digits, digits ≠ [] ∧ (∀ c ∈ digits, c.isDigit = true) ∧
      (((t = digits ∨ t = '+' :: digits) ∧ n.1 = Nat.ofDigitChars 10 digits 0) ∨
        (t = '-' :: digits ∧ n.1 = -(Nat.ofDigitChars 10 digits 0 : Int))) := by
  cases t with
  | nil => cases h
  | cons c digits =>
    rw [int] at h
    split_ifs at h with hsign hplus hminus
    all_goals obtain ⟨m, hm, rfl⟩ := map_eq_ok h
    all_goals obtain ⟨hdigits, hvalue⟩ := of_magnitude hm
    · exact ⟨digits, fun hnil => hsign ⟨hnil, .inl hplus⟩, hdigits,
        .inl ⟨.inr (hplus ▸ rfl), congrArg Nat.cast hvalue⟩⟩
    · exact ⟨digits, fun hnil => hsign ⟨hnil, .inr hminus.1⟩, hdigits,
        .inr ⟨hminus.1 ▸ rfl, congrArg (fun n : Nat => -(n : Int)) hvalue⟩⟩
    · exact ⟨c :: digits, List.cons_ne_nil _ _, hdigits, .inl ⟨.inl rfl, congrArg Nat.cast hvalue⟩⟩

theorem commas_of_digits (h : ∀ c ∈ t, c.isDigit = true) : commas t = 0 :=
  commas_of_labels fun c hc => .inl (by rw [Char.isAlphanum, h c hc, Bool.or_true])

theorem commas_int {k : IntTy} {n : k.Val} (h : int k t = .ok n) : commas t = 0 := by
  obtain ⟨digits, -, hdigits, ⟨rfl | rfl, -⟩ | ⟨rfl, -⟩⟩ := of_int h
  · exact commas_of_digits hdigits
  · exact (commas_append ['+'] digits).trans (congrArg _ (commas_of_digits hdigits))
  · exact (commas_append ['-'] digits).trans (congrArg _ (commas_of_digits hdigits))

theorem mapM_eq_ok_iff {α : Type} {f : Text → Except String α} {ts : List Text} {vs : List α} :
    ts.mapM f = .ok vs ↔ List.Forall₂ (fun t v => f t = .ok v) ts vs := by
  induction ts generalizing vs with
  | nil =>
    rw [List.mapM_nil, List.forall₂_nil_left_iff]
    exact ⟨fun h => (Except.ok.inj h).symm, fun h => h ▸ rfl⟩
  | cons t ts ih =>
    rw [List.mapM_cons, List.forall₂_cons_left_iff]
    constructor
    · intro h
      cases ht : f t with
      | error e =>
        rw [ht] at h
        cases h
      | ok v =>
        cases hts : ts.mapM f with
        | error e =>
          rw [ht, hts] at h
          cases h
        | ok rest =>
          rw [ht, hts] at h
          cases h
          exact ⟨v, rest, rfl, ih.mp hts, rfl⟩
    · rintro ⟨v, rest, hv, hrest, rfl⟩
      rw [hv, ih.mpr hrest]
      rfl

/-- Splitting takes a comma out between any two items. -/
theorem commas_splitLoop {s : Scan} {current : Text} {items pieces : List Text}
    (h : splitLoop s current items t = .ok pieces) :
    commas current + commas t + (items.map commas).sum + items.length =
      (pieces.map commas).sum + (pieces.length - 1) := by
  induction t generalizing s current items with
  | nil =>
    rw [splitLoop] at h
    split_ifs at h with _ _ hlast hnil
    · cases h
      rw [List.map_append, List.sum_append, List.length_append]
      simp only [List.map_cons, List.map_nil, List.sum_cons, List.sum_nil, commas_trim]
      have hempty : commas [] = 0 := rfl
      simp only [List.length_singleton]
      omega
    · cases h
      obtain rfl := not_not.mp hnil
      have hblank := commas_trim current
      rw [not_not.mp hlast] at hblank
      rw [← hblank]
      rfl
  | cons c t ih =>
    have hcons : commas (c :: t) = commas [c] + commas t := commas_append [c] t
    rw [splitLoop] at h
    split at h
    · next hsep =>
      have hrest := ih h
      rw [List.map_append, List.sum_append, List.length_append] at hrest
      simp only [List.map_cons, List.map_nil, List.sum_cons, List.sum_nil, commas_trim,
        List.length_singleton] at hrest
      have hcomma : c = ',' := by
        simp only [Scan.separates, Bool.and_eq_true, beq_iff_eq] at hsep
        exact hsep.1.1
      subst hcomma
      have hone : commas [','] = 1 := rfl
      have hempty : commas [] = 0 := rfl
      omega
    · split at h
      · cases h
      · have hrest := ih h
        rw [commas_append] at hrest
        omega

theorem commas_intercalate {sep : Text} (hone : commas sep = 1) (ts : List Text) :
    commas (sep.intercalate ts) = (ts.map commas).sum + (ts.length - 1) := by
  induction ts with
  | nil => rfl
  | cons t ts ih =>
    cases ts with
    | nil => rw [List.intercalate_singleton]; rfl
    | cons u us =>
      rw [List.intercalate_cons_cons, commas_append, commas_append, ih, hone]
      simp only [List.map_cons, List.sum_cons, List.length_cons]
      omega

/-- A text is cut in one way before a comma with so many commas in front of it. -/
theorem cut_unique {a b u v : Text} (h : a ++ ',' :: u = b ++ ',' :: v)
    (hcount : commas a = commas b) : a = b ∧ u = v := by
  have hcomma : ∀ m, commas (',' :: m) = commas m + 1 := fun m => by simp [commas]
  have hnil : ∀ m w w', ',' :: w = m ++ ',' :: w' → commas m = 0 → m = [] := by
    rintro (_ | ⟨c, m⟩) w w' htail hzero
    · rfl
    · obtain rfl : ',' = c := (List.cons.inj htail).1
      rw [hcomma] at hzero
      omega
  rcases List.append_eq_append_iff.mp h with ⟨m, rfl, htail⟩ | ⟨m, rfl, htail⟩
  all_goals
    rw [commas_append] at hcount
    obtain rfl := hnil m _ _ htail (by omega)
    rw [List.append_nil]
    simp_all

theorem of_parseChar (h : parseChar t = .ok c) :
    unescape ((between ['\''] '\'' t).getD t) = .ok [c] := by
  rw [parseChar] at h
  split at h
  · next hc =>
    cases h
    exact hc
  · cases h
  · cases h

theorem of_parseString {s : Text} (h : parseString t = .ok s) :
    ∃ inner, t = '"' :: inner ++ ['"'] ∧ unescape inner = .ok s := by
  rw [parseString] at h
  split at h
  · next inner hinner => exact ⟨inner, between_eq_some_iff.mp hinner, h⟩
  · cases h

theorem of_parseEnum {cases : List Label} {name : { name // name ∈ cases }}
    (h : parseEnum cases t = .ok name) : t = name.1.1 := by
  rw [parseEnum] at h
  split at h
  · next found hfound =>
    cases h
    have hname := List.find?_some hfound
    exact (of_decide_eq_true hname).symm
  · cases h

/-- An option is read from the word, from what is in `some(…)`, or from a bare value. -/
theorem of_parse_option {v : Option (ty.Val F)} (h : parse (.option ty) t = .ok v) :
    (trim isWhitespace t = text "none" ∧ v = none) ∨ trim isWhitespace t ≠ text "none" ∧
      ∃ w, v = some w ∧
        ((∃ inner, trim isWhitespace t = text "some(" ++ inner ++ [')'] ∧ parse ty inner = .ok w) ∨
          (between (text "some(") ')' (trim isWhitespace t) = none ∧
            parse ty (trim isWhitespace t) = .ok w)) := by
  rw [parse] at h
  split_ifs at h with hnone
  · cases h
    exact .inl ⟨hnone, rfl⟩
  · split at h
    · next inner hinner =>
      obtain ⟨w, hw, rfl⟩ := map_eq_ok h
      exact .inr ⟨hnone, w, rfl, .inl ⟨inner, between_eq_some_iff.mp hinner, hw⟩⟩
    · next hbare =>
      obtain ⟨w, hw, rfl⟩ := map_eq_ok h
      exact .inr ⟨hnone, w, rfl, .inr ⟨hbare, hw⟩⟩

theorem parse_list_eq_ok_iff {items : List (ty.Val F)} :
    parse (.list ty) t = .ok items ↔ ∃ inner pieces,
      trim isWhitespace t = '[' :: inner ++ [']'] ∧ splitTopLevel inner = .ok pieces ∧
        List.Forall₂ (fun t v => parse ty t = .ok v) pieces items := by
  rw [parse]
  constructor
  · intro h
    split at h
    · next inner hinner =>
      cases hsplit : splitTopLevel inner with
      | error e =>
        rw [hsplit] at h
        cases h
      | ok pieces =>
        rw [hsplit] at h
        exact ⟨inner, pieces, between_eq_some_iff.mp hinner, hsplit, mapM_eq_ok_iff.mp h⟩
    · cases h
  · rintro ⟨inner, pieces, ht, hsplit, hread⟩
    have hinner : between ['['] ']' (trim isWhitespace t) = some inner := between_eq_some_iff.mpr ht
    rw [hinner]
    dsimp only
    rw [hsplit]
    exact mapM_eq_ok_iff.mpr hread

theorem commas_wrap {a b : Char} (ha : a ≠ ',') (hb : b ≠ ',') (t : Text) :
    commas (a :: t ++ [b]) = commas t := by
  rw [← List.singleton_append, commas_append, commas_append,
    commas_eq_zero (t := [a]) (by simpa using ha), commas_eq_zero (t := [b]) (by simpa using hb)]
  omega

theorem commas_some (t : Text) : commas (text "some(" ++ t ++ [')']) = commas t := by
  rw [commas_append, commas_append]
  exact Nat.zero_add _

theorem counts_of_forall₂ {R : Text → ty.Val F → Prop}
    (hR : ∀ t v, R t v → commas t = commas (render ty v)) {ts : List Text}
    {items : List (ty.Val F)} (h : List.Forall₂ R ts items) :
    ts.map commas = (items.map (render ty)).map commas := by
  induction h with
  | nil => rfl
  | cons hp _ ih => rw [List.map_cons, List.map_cons, List.map_cons, hR _ _ hp, ih]

/-- What is read as a value has the commas of its rendering. -/
theorem commas_parse (hty : ty.Discrete) {v : ty.Val F} (h : parse ty t = .ok v) :
    commas t = commas (render ty v) := by
  rw [← commas_trim]
  induction ty generalizing t with
  | bool =>
    rw [parse] at h
    split_ifs at h with htrue hfalse
    · cases h
      rw [htrue]
      rfl
    · cases h
      rw [hfalse]
      rfl
  | int k =>
    rw [commas_int h]
    exact (commas_of_labels fun c => label_intText).symm
  | float => exact hty.elim
  | char =>
    have hcommas : ∀ c, commas (render (F := F) .char c) = commas [c] := fun c =>
      (commas_wrap (by decide) (by decide) _).trans (commas_escape (.inr rfl) c)
    have hspelled := (spells_of_unescape (of_parseChar h)).commas_eq
    rw [hcommas, ← hspelled]
    cases hinner : between ['\''] '\'' (trim isWhitespace t) with
    | none => rfl
    | some inner =>
      rw [between_eq_some_iff.mp hinner]
      exact commas_wrap (by decide) (by decide) _
  | string =>
    obtain ⟨inner, ht, hinner⟩ := of_parseString h
    have hcommas : ∀ s, commas (render (F := F) .string s) = commas s := fun s =>
      (commas_wrap (by decide) (by decide) _).trans (commas_flatMap_escape s)
    rw [ht, commas_wrap (by decide) (by decide), hcommas, (spells_of_unescape hinner).commas_eq]
  | enum cases =>
    rw [of_parseEnum h]
    rfl
  | option ty ih =>
    rcases of_parse_option h with ⟨hnone, rfl⟩ | ⟨-, w, rfl, ⟨inner, ht, hw⟩ | ⟨-, hw⟩⟩
    · rw [hnone]
      rfl
    · rw [ht, commas_some, ← commas_trim, ih hty hw]
      exact (commas_some _).symm
    · rw [← commas_trim, ih hty hw]
      exact (commas_some _).symm
  | list ty ih =>
    obtain ⟨inner, pieces, ht, hsplit, hread⟩ := parse_list_eq_ok_iff.mp h
    have hcount := commas_splitLoop hsplit
    have hlist : commas (render (.list ty) v) =
        ((List.map (render ty) v).map commas).sum + ((List.map (render ty) v).length - 1) :=
      (commas_wrap (by decide) (by decide) _).trans (commas_intercalate rfl _)
    have hmap : pieces.map commas = (List.map (render ty) v).map commas :=
      counts_of_forall₂ (fun t v hp => (commas_trim t).symm.trans (ih hty hp)) hread
    have hlength : pieces.length = (List.map (render ty) v).length :=
      hread.length_eq.trans (List.length_map (render ty)).symm
    have hempty : commas [] = 0 := rfl
    rw [ht, commas_wrap (by decide) (by decide), hlist, ← hmap, ← hlength]
    simp only [List.map_nil, List.sum_nil, List.length_nil] at hcount
    omega
  | other => exact v.elim

/-- The splitter behind a text that it does not split. -/
def Scan.run : Scan → Text → Option Scan
  | s, [] => some s
  | s, c :: t => if s.separates c then none else (s.next c).bind fun s => Scan.run s t

/-- A backslash counts in a string only. -/
def Scan.Tidy (s : Scan) : Prop := s.inString = false → s.escaped = false

theorem Scan.Tidy.next {s s' : Scan} (h : s.Tidy) (hs : s.next c = some s') : s'.Tidy := by
  rw [Scan.next] at hs
  split_ifs at hs <;> cases hs <;> simp_all [Scan.Tidy]

theorem splitLoop_run {s s' : Scan} {current : Text} {items : List Text} {rest : Text}
    (h : s.run t = some s') :
    splitLoop s current items (t ++ rest) = splitLoop s' (current ++ t) items rest := by
  induction t generalizing s current with
  | nil =>
    cases h
    rw [List.append_nil, List.nil_append]
  | cons c t ih =>
    rw [Scan.run] at h
    split_ifs at h with hsep
    obtain ⟨s₁, hs₁, hrun⟩ := Option.bind_eq_some_iff.mp h
    rw [List.cons_append, splitLoop, if_neg hsep, hs₁]
    dsimp only
    rw [ih hrun, List.append_assoc, List.singleton_append]

theorem splitLoop_items {s : Scan} {current : Text} {items pieces : List Text}
    (h : splitLoop s current items t = .ok pieces) : items <+: pieces := by
  induction t generalizing s current items with
  | nil =>
    rw [splitLoop] at h
    split_ifs at h <;> cases h
    · exact List.prefix_append ..
    · exact List.prefix_rfl
  | cons c t ih =>
    rw [splitLoop] at h
    split at h
    · exact (List.prefix_append ..).trans (ih h)
    · split at h
      · cases h
      · exact ih h

/-- The first piece ends where the text does, or before the first comma between items. -/
theorem splitLoop_cut {s : Scan} {current : Text} {items pieces : List Text} (hs : s.Tidy)
    (h : splitLoop s current items t = .ok pieces) (hlonger : items.length < pieces.length) :
    (s.run t = some {} ∧ pieces = items ++ [trim isWhitespace (current ++ t)]) ∨
      ∃ a b, t = a ++ ',' :: b ∧ s.run a = some {} ∧
        splitLoop {} [] (items ++ [trim isWhitespace (current ++ a)]) b = .ok pieces := by
  induction t generalizing s current with
  | nil =>
    rw [splitLoop] at h
    split_ifs at h with hstring hdepth hlast
    · cases h
      have hinitial : s = {} := by
        obtain ⟨depth, inString, escaped⟩ := s
        simp_all [Scan.Tidy]
      rw [List.append_nil, hinitial]
      exact .inl ⟨rfl, rfl⟩
    · cases h
      exact absurd hlonger (Nat.lt_irrefl _)
  | cons c t ih =>
    rw [splitLoop] at h
    split at h
    · next hsep =>
      right
      have hcomma : c = ',' ∧ s = {} := by
        obtain ⟨depth, inString, escaped⟩ := s
        simp_all [Scan.separates, Scan.Tidy]
      obtain ⟨rfl, rfl⟩ := hcomma
      refine ⟨[], t, rfl, rfl, ?_⟩
      rwa [List.append_nil]
    · next hsep =>
      split at h
      · cases h
      · next s₁ hs₁ =>
        have hrun : ∀ a, s.run (c :: a) = s₁.run a := fun a => by
          rw [Scan.run, if_neg hsep, hs₁]
          rfl
        have happend : ∀ a, current ++ [c] ++ a = current ++ c :: a := fun a => by simp
        rcases ih (hs.next hs₁) h with ⟨hlast, hpieces⟩ | ⟨a, b, rfl, ha, hb⟩
        · rw [happend] at hpieces
          exact .inl ⟨(hrun t).trans hlast, hpieces⟩
        · rw [happend] at hb
          exact .inr ⟨c :: a, b, rfl, (hrun a).trans ha, hb⟩

/-- Joined items are split again if the splitter is where it started behind each. -/
theorem splitLoop_intercalate (hty : ty.Discrete) {items : List (ty.Val F)} (hne : items ≠ [])
    (h : ∀ v ∈ items, Scan.run {} (render ty v) = some {}) {pad : Text} {pieces : List Text}
    (hpad : ∀ c ∈ pad, isWhitespace c = true) :
    splitLoop {} pad pieces ((text ", ").intercalate (items.map (render ty))) =
      .ok (pieces ++ items.map (render ty)) := by
  induction items generalizing pad pieces with
  | nil => exact absurd rfl hne
  | cons v items ih =>
    have hv := h v List.mem_cons_self
    obtain ⟨hbare, hfull⟩ := bare_render hty v
    have htrim : trim isWhitespace (pad ++ render ty v) = render ty v := by
      have htrim := trim_append hpad (by simp : ∀ c ∈ ([] : Text), isWhitespace c = true) hbare
      rwa [List.append_nil] at htrim
    cases items with
    | nil =>
      have hloop := @splitLoop_run _ _ _ pad pieces [] hv
      rw [List.append_nil] at hloop
      rw [List.map_singleton, List.intercalate_singleton, hloop, splitLoop, htrim]
      simp [hfull]
    | cons w items =>
      have hloop := @ih (List.cons_ne_nil _ _) (fun x hx => h x (List.mem_cons_of_mem _ hx))
        [' '] (pieces ++ [render ty v]) (by simp [isWhitespace])
      rw [List.map_cons, List.map_cons, List.intercalate_cons_cons, List.append_assoc,
        splitLoop_run hv, ← List.map_cons]
      calc splitLoop {} (pad ++ render ty v) pieces
            (text ", " ++ (text ", ").intercalate ((w :: items).map (render ty)))
        _ = splitLoop {} [' '] (pieces ++ [trim isWhitespace (pad ++ render ty v)])
            ((text ", ").intercalate ((w :: items).map (render ty))) := rfl
        _ = .ok (pieces ++ [render ty v] ++ (w :: items).map (render ty)) := by rw [htrim, hloop]
        _ = .ok (pieces ++ render ty v :: (w :: items).map (render ty)) := by
          rw [List.append_assoc, List.singleton_append]

theorem tidy_initial : Scan.Tidy {} := fun _ => rfl

/-- If the pieces are read as the items that were joined, the splitter was where it started behind
each item: a piece that ends too soon has fewer commas than its item, and a longer one more. -/
theorem run_of_splitLoop (hty : ty.Discrete) {items : List (ty.Val F)} {pad : Text}
    {before pieces : List Text} (hpad : ∀ c ∈ pad, isWhitespace c = true)
    (hsplit : splitLoop {} pad before ((text ", ").intercalate (items.map (render ty))) =
      .ok (before ++ pieces))
    (hread : List.Forall₂ (fun t v => parse ty t = .ok v) pieces items) :
    ∀ v ∈ items, Scan.run {} (render ty v) = some {} ∧ parse ty (render ty v) = .ok v := by
  induction hread generalizing pad before with
  | nil => simp
  | @cons p v pieces items hp hrest ih =>
    have htrim : trim isWhitespace (pad ++ render ty v) = render ty v := by
      have htrim := trim_append hpad (by simp : ∀ c ∈ ([] : Text), isWhitespace c = true)
        (bare_render hty v).1
      rwa [List.append_nil] at htrim
    rcases splitLoop_cut tidy_initial hsplit (by simp) with ⟨hrun, hlast⟩ | ⟨a, b, htext, hrun, hb⟩
    · obtain ⟨rfl, rfl⟩ := List.cons_eq_cons.mp (List.append_cancel_left hlast)
      obtain rfl := List.forall₂_nil_left_iff.mp hrest
      rw [List.map_singleton, List.intercalate_singleton] at hrun hp
      rw [htrim] at hp
      simpa using ⟨hrun, hp⟩
    · obtain ⟨more, hmore⟩ := splitLoop_items hb
      rw [List.append_assoc, List.singleton_append] at hmore
      obtain ⟨rfl, rfl⟩ := List.cons_eq_cons.mp (List.append_cancel_left hmore)
      have hcount : commas a = commas (render ty v) := by
        have hparse := commas_parse hty hp
        rwa [commas_trim, commas_append, commas_of_blank hpad, Nat.zero_add] at hparse
      have hcomma : ∀ m, commas (',' :: m) = commas m + 1 := fun m => by simp [commas]
      have hnext : a = render ty v ∧
          b = ' ' :: (text ", ").intercalate (items.map (render ty)) := by
        cases items with
        | nil =>
          rw [List.map_singleton, List.intercalate_singleton] at htext
          rw [htext, commas_append, hcomma] at hcount
          omega
        | cons w ws =>
          rw [List.map_cons, List.map_cons, List.intercalate_cons_cons, List.append_assoc] at htext
          exact cut_unique htext.symm hcount
      obtain ⟨rfl, rfl⟩ := hnext
      rw [htrim] at hp hb
      have htail := @ih [' '] (before ++ [render ty v]) (by simp [isWhitespace])
        (by rw [List.append_assoc, List.singleton_append]; exact hb)
      exact List.forall_mem_cons.mpr ⟨⟨hrun, hp⟩, htail⟩

/-- No character literal in the value is a mark for the splitter, which is that deep in brackets
where the value starts. -/
def Unmarked : (ty : Ty) → Nat → ty.Val F → Prop
  | .char, depth, (c : Char) =>
    isOpening c = false ∧ isClosing c = false ∧ c ≠ '"' ∧ (depth = 0 → c ≠ ',')
  | .option ty, depth, some v => Unmarked ty (depth + 1) v
  | .list ty, depth, (items : List (ty.Val F)) => ∀ v ∈ items, Unmarked ty (depth + 1) v
  | _, _, _ => True

/-- No character in a list is a bracket or a double quote, and none that is an item itself is a
comma. -/
def Splittable : (ty : Ty) → ty.Val F → Prop
  | .option ty, some v => Splittable ty v
  | .list ty, (items : List (ty.Val F)) => ∀ v ∈ items, Unmarked ty 0 v ∧ Splittable ty v
  | _, _ => True

theorem Scan.run_append {s : Scan} (t u : Text) : s.run (t ++ u) = (s.run t).bind (·.run u) := by
  induction t generalizing s with
  | nil => rfl
  | cons c t ih =>
    rw [List.cons_append, Scan.run, Scan.run]
    split
    · rfl
    · cases s.next c with
      | none => rfl
      | some s => exact ih

theorem run_labels {depth : Nat} (h : ∀ c ∈ t, c.isAlphanum = true ∨ c = '-') :
    Scan.run ⟨depth, false, false⟩ t = some ⟨depth, false, false⟩ := by
  induction t with
  | nil => rfl
  | cons c t ih =>
    obtain ⟨hc, ht⟩ := List.forall_mem_cons.mp h
    have hplain : ∀ mark : Char, ¬(mark.isAlphanum = true ∨ mark = '-') → c ≠ mark :=
      fun mark hmark hceq => hmark (hceq ▸ hc)
    have hcomma := hplain ',' (by decide)
    have hquote := hplain '"' (by decide)
    have hopening : isOpening c = false := by
      simp [isOpening, hplain '[' (by decide), hplain '(' (by decide), hplain '{' (by decide)]
    have hclosing : isClosing c = false := by
      simp [isClosing, hplain ']' (by decide), hplain ')' (by decide), hplain '}' (by decide)]
    rw [Scan.run]
    simp [Scan.separates, Scan.next, hcomma, hquote, hopening, hclosing, ih ht]

theorem run_escaped {depth : Nat} (t : Text) :
    Scan.run ⟨depth, true, false⟩ (t.flatMap (escape '"')) = some ⟨depth, true, false⟩ := by
  induction t with
  | nil => rfl
  | cons c t ih =>
    have hc : Scan.run ⟨depth, true, false⟩ (escape '"' c) = some ⟨depth, true, false⟩ := by
      rw [escape]
      split_ifs with h₁ h₂
      all_goals subst_vars
      all_goals first | rfl | simp [Scan.run, Scan.separates, Scan.next, h₁, h₂]
    rw [List.flatMap_cons, Scan.run_append, hc]
    exact ih

theorem run_char (depth : Nat) (c : Char) :
    Scan.run ⟨depth, false, false⟩ (render (F := F) .char c) = some ⟨depth, false, false⟩ ↔
      Unmarked (F := F) .char depth c := by
  have hrender : render (F := F) .char c = '\'' :: escapeChar c ++ ['\''] := rfl
  rw [hrender, Unmarked, escapeChar, escape]
  by_cases hquote : c = '"'
  · subst hquote
    simp [Scan.run, Scan.separates, Scan.next, isOpening, isClosing]
  cases hopening : isOpening c with
  | true =>
    have hc : c = '[' ∨ c = '(' ∨ c = '{' := by simpa [isOpening, or_assoc] using hopening
    rcases hc with rfl | rfl | rfl <;>
      simp [Scan.run, Scan.separates, Scan.next, isOpening, isClosing]
  | false =>
    cases hclosing : isClosing c with
    | true =>
      have hc : c = ']' ∨ c = ')' ∨ c = '}' := by simpa [isClosing, or_assoc] using hclosing
      rcases hc with rfl | rfl | rfl <;> cases depth <;>
        simp [Scan.run, Scan.separates, Scan.next, isOpening, isClosing]
    | false =>
      split_ifs with h₁ h₂ h₃ h₄ h₅
      all_goals subst_vars
      all_goals simp_all [Scan.run, Scan.separates, Scan.next, isOpening, isClosing]
      exact imp_not_comm

theorem run_some {depth : Nat} (t : Text) :
    Scan.run ⟨depth, false, false⟩ (text "some(" ++ t ++ [')']) = some ⟨depth, false, false⟩ ↔
      Scan.run ⟨depth + 1, false, false⟩ t = some ⟨depth + 1, false, false⟩ := by
  have hopen : Scan.run ⟨depth, false, false⟩ (text "some(") = some ⟨depth + 1, false, false⟩ := rfl
  rw [Scan.run_append, Scan.run_append, hopen, Option.bind_some]
  constructor
  · intro h
    obtain ⟨⟨depth', inString, escaped⟩, hs, hclose⟩ := Option.bind_eq_some_iff.mp h
    rw [hs]
    cases depth' <;> cases inString <;> cases escaped <;>
      simp [Scan.run, Scan.separates, Scan.next, isOpening, isClosing] at hclose ⊢
    all_goals omega
  · intro h
    rw [h]
    rfl

theorem Unmarked.deeper {depth depth' : Nat} (hle : depth ≤ depth') {v : ty.Val F}
    (h : Unmarked ty depth v) : Unmarked ty depth' v := by
  induction ty generalizing depth depth' with
  | char => exact ⟨h.1, h.2.1, h.2.2.1, fun hzero => h.2.2.2 (by omega)⟩
  | option ty ih =>
    cases v with
    | none => trivial
    | some v => exact ih (Nat.succ_le_succ hle) h
  | list ty ih => exact fun v hv => ih (Nat.succ_le_succ hle) (h v hv)
  | _ => trivial

theorem run_intercalate {depth : Nat} {ts : List Text}
    (h : ∀ t ∈ ts, Scan.run ⟨depth + 1, false, false⟩ t = some ⟨depth + 1, false, false⟩) :
    Scan.run ⟨depth + 1, false, false⟩ ((text ", ").intercalate ts) =
      some ⟨depth + 1, false, false⟩ := by
  induction ts with
  | nil => rfl
  | cons t ts ih =>
    obtain ⟨ht, hts⟩ := List.forall_mem_cons.mp h
    cases ts with
    | nil => rwa [List.intercalate_singleton]
    | cons u us =>
      rw [List.intercalate_cons_cons, List.append_assoc, Scan.run_append, ht, Option.bind_some,
        Scan.run_append]
      exact ih hts

/-- The splitter is where it started behind a value without marks, and behind no other. -/
theorem run_render (hty : ty.Discrete) {v : ty.Val F} {depth : Nat} (h : Splittable ty v) :
    Scan.run ⟨depth, false, false⟩ (render ty v) = some ⟨depth, false, false⟩ ↔
      Unmarked ty depth v := by
  induction ty generalizing depth with
  | bool =>
    refine iff_of_true ?_ trivial
    cases v with
    | true => exact run_labels (t := text "true") (labels_of_all rfl)
    | false => exact run_labels (t := text "false") (labels_of_all rfl)
  | int k => exact iff_of_true (run_labels fun c => label_intText) trivial
  | float => exact hty.elim
  | char => exact run_char depth v
  | string =>
    refine iff_of_true ?_ trivial
    have hrender : render (F := F) .string v = '"' :: v.flatMap (escape '"') ++ ['"'] := rfl
    rw [hrender, Scan.run_append]
    have hbody : Scan.run ⟨depth, false, false⟩ ('"' :: v.flatMap (escape '"')) =
        some ⟨depth, true, false⟩ := run_escaped v
    rw [hbody]
    rfl
  | enum cases => exact iff_of_true (run_labels v.1.2.2) trivial
  | option ty ih =>
    cases v with
    | none => exact iff_of_true (run_labels (t := text "none") (labels_of_all rfl)) trivial
    | some v => exact (run_some _).trans (ih hty h)
  | list ty ih =>
    constructor
    · exact fun _ v hv => (h v hv).1.deeper (Nat.zero_le _)
    · intro hmarks
      have hrender : render (.list ty) v =
          '[' :: (text ", ").intercalate (List.map (render ty) v) ++ [']'] := rfl
      have hopen : ∀ t, Scan.run ⟨depth, false, false⟩ ('[' :: t) =
          Scan.run ⟨depth + 1, false, false⟩ t := fun _ => rfl
      rw [hrender, Scan.run_append, hopen, run_intercalate]
      · rfl
      · intro t ht
        obtain ⟨x, hx, rfl⟩ := List.mem_map.mp ht
        exact (ih hty (h x hx).2).mpr (hmarks x hx)
  | other => exact v.elim

theorem parse_render_some_iff (hty : ty.Discrete) (v : ty.Val F) :
    parse (.option ty) (render (.option ty) (some v)) = .ok (some v) ↔
      parse ty (render ty v) = .ok v := by
  have hrender : render (.option ty) (some v) = text "some(" ++ render ty v ++ [')'] := rfl
  have hinner : between (text "some(") ')' (render (.option ty) (some v)) = some (render ty v) :=
    between_eq_some_iff.mpr hrender
  have hne : render (.option ty) (some v) ≠ text "none" := by
    rw [hrender]
    nofun
  have htrim := @trim_render _ _ (.option ty) hty (some v)
  rw [parse, htrim, if_neg hne, hinner]
  constructor
  · intro h
    obtain ⟨w, hw, heq⟩ := map_eq_ok h
    cases heq
    exact hw
  · intro h
    dsimp only
    rw [h]
    rfl

theorem parse_render_list_iff (hty : ty.Discrete) (items : List (ty.Val F)) :
    parse (.list ty) (render (.list ty) items) = .ok items ↔
      ∀ v ∈ items, Scan.run {} (render ty v) = some {} ∧ parse ty (render ty v) = .ok v := by
  have hrender : render (.list ty) items =
      '[' :: (text ", ").intercalate (items.map (render ty)) ++ [']'] := rfl
  have htrim := @trim_render _ _ (.list ty) hty items
  rw [parse_list_eq_ok_iff, htrim, hrender]
  constructor
  · rintro ⟨inner, pieces, htext, hsplit, hread⟩
    obtain rfl := List.append_cancel_right (List.cons.inj htext).2
    exact @run_of_splitLoop _ _ ty hty items [] [] pieces (by simp) hsplit hread
  · intro h
    refine ⟨_, items.map (render ty), rfl, ?_, ?_⟩
    · cases items with
      | nil => rfl
      | cons v items =>
        exact splitLoop_intercalate hty (List.cons_ne_nil v items) (fun x hx => (h x hx).1)
          (by simp)
    · rw [List.forall₂_map_left_iff, List.forall₂_same]
      exact fun v hv => (h v hv).2

/-- A rendered value is read back exactly if the lists in it can be split. -/
theorem parse_render_iff (hty : ty.Discrete) (v : ty.Val F) :
    parse ty (render ty v) = .ok v ↔ Splittable ty v := by
  have htrim := trim_render hty v
  induction ty with
  | bool =>
    refine iff_of_true ?_ trivial
    rw [parse, htrim]
    cases v <;> rfl
  | int k =>
    refine iff_of_true ?_ trivial
    rw [parse, htrim]
    exact int_intText k v
  | float => exact hty.elim
  | char =>
    refine iff_of_true ?_ trivial
    have hrender : render (F := F) .char v = '\'' :: escapeChar v ++ ['\''] := rfl
    have hinner : between ['\''] '\'' (render (F := F) .char v) = some (escapeChar v) :=
      between_eq_some_iff.mpr hrender
    have hspelled : unescape (escapeChar v) = .ok [v] := by
      have happend := unescape_escape (.inr rfl) v []
      rwa [List.append_nil] at happend
    rw [parse, htrim, parseChar, hinner, Option.getD_some, hspelled]
    rfl
  | string =>
    refine iff_of_true ?_ trivial
    have hinner : between ['"'] '"' (render (F := F) .string v) = some (v.flatMap (escape '"')) :=
      between_eq_some_iff.mpr rfl
    rw [parse, htrim, parseString, hinner]
    exact unescape_flatMap_escape v
  | enum cases =>
    refine iff_of_true ?_ trivial
    rw [parse, htrim, parseEnum]
    split
    · next found hfound =>
      have hname := List.find?_some hfound
      exact congrArg Except.ok (Subtype.ext (Subtype.ext (of_decide_eq_true hname)))
    · next hnone =>
      have hnot := List.find?_eq_none.mp hnone v.1 v.2
      exact absurd (decide_eq_true rfl) hnot
  | option ty ih =>
    cases v with
    | none =>
      refine iff_of_true ?_ trivial
      rw [parse, htrim]
      rfl
    | some v =>
      exact (@parse_render_some_iff _ _ ty hty v).trans (ih hty v (@trim_render _ _ ty hty v))
  | list ty ih =>
    refine (@parse_render_list_iff _ _ ty hty v).trans ⟨fun h x hx => ?_, fun h x hx => ?_⟩
    · have hsplittable := (ih hty x (@trim_render _ _ ty hty x)).mp (h x hx).2
      exact ⟨(@run_render _ _ ty hty x 0 hsplittable).mp (h x hx).1, hsplittable⟩
    · obtain ⟨hmarks, hsplittable⟩ := h x hx
      exact ⟨(@run_render _ _ ty hty x 0 hsplittable).mpr hmarks,
        (ih hty x (@trim_render _ _ ty hty x)).mpr hsplittable⟩
  | other => exact v.elim

end Eo9.Wave
