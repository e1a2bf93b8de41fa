import Eo9.Curl.Url

/-!
# Redirect chains

What the requests for a typed URL and for the targets of its redirects are made of. The host and
the path keep their form over every redirect; a fragment is dropped by `parse` and kept by a
redirect to a path on the same server.
-/

namespace Eo9.Curl

open Eo9.Library
open Eo9.Store (Text text utf8)

variable {t rest : Text} {u v : Url} {locations : List Text}

/-- The bytes of a character: its own code, or none that is a blank or a control byte. -/
theorem of_mem_utf8EncodeChar {c : Char} {b : UInt8} (hb : b ∈ String.utf8EncodeChar c) :
    b.toNat = c.toNat ∨ 128 ≤ b.toNat := by
  have hval : c.val.toNat = c.toNat := rfl
  rw [String.utf8EncodeChar, hval] at hb
  split_ifs at hb with h1 h2 h3
  · rw [List.mem_singleton] at hb
    left
    rw [hb, UInt8.toNat_ofNat']
    omega
  all_goals
    right
    simp only [List.mem_cons, List.not_mem_nil, or_false] at hb
  · obtain rfl | rfl := hb <;> rw [UInt8.toNat_ofNat'] <;> omega
  · obtain rfl | rfl | rfl := hb <;> rw [UInt8.toNat_ofNat'] <;> omega
  · obtain rfl | rfl | rfl | rfl := hb <;> rw [UInt8.toNat_ofNat'] <;> omega

theorem forbidden_eq_false {c : Char} : forbidden c = false ↔ 32 < c.toNat ∧ c.toNat ≠ 127 := by
  have hle : c ≤ ' ' ↔ c.toNat ≤ 32 := by
    rw [Char.le_def, UInt32.le_iff_toNat_le]
    exact Iff.rfl
  have heq : c = '\x7f' ↔ c.toNat = 127 := by
    rw [← Char.toNat_inj]
    exact Iff.rfl
  rw [forbidden, Bool.or_eq_false_iff, decide_eq_false_iff_not, decide_eq_false_iff_not, hle, heq]
  omega

/-- A text without refused characters has no blank or control byte. -/
theorem clean_of_any (h : t.any forbidden = false) : ∀ b ∈ utf8 t, 0x20 < b ∧ b ≠ 0x7f := by
  intro b hb
  obtain ⟨c, hc, hb⟩ := List.mem_flatMap.mp hb
  obtain ⟨hlt, hne⟩ := forbidden_eq_false.mp (by simpa using List.any_eq_false.mp h c hc)
  have hbyte : 0x20 < b.toNat ∧ b.toNat ≠ 0x7f := by
    obtain heq | hge := of_mem_utf8EncodeChar hb
    · rw [heq]
      exact ⟨hlt, hne⟩
    · omega
  constructor
  · exact UInt8.lt_iff_toNat_lt.mpr hbyte.1
  · intro heq
    exact hbyte.2 (congrArg UInt8.toNat heq)

/-- What every URL has: it can be sent as it is. -/
structure Formed (u : Url) : Prop where
  host_ne : u.host ≠ []
  host_free : ∀ c ∈ ['/', '#', '@', ':'], c ∉ u.host
  host_clean : u.host.any forbidden = false
  port_ne : u.port ≠ 0
  path_start : u.path.head? = some '/'
  path_clean : u.path.any forbidden = false

theorem rsplitColon_eq_none (h : ':' ∉ t) : rsplitColon t = none := by
  have hnone : splitFirst (fun c => decide (c = ':')) t.reverse = none := by
    apply splitFirst_eq_none
    intro c hc heq
    rw [decide_eq_true_iff] at heq
    exact h (heq ▸ List.mem_reverse.mp hc)
  rw [rsplitColon, hnone]
  rfl

theorem rsplitColon_append (h : ':' ∉ rest) : rsplitColon (t ++ ':' :: rest) = some (t, rest) := by
  have hsplit : splitFirst (fun c => decide (c = ':')) (rest.reverse ++ ':' :: t.reverse) =
      some (rest.reverse, t.reverse) := by
    apply splitFirst_append
    · intro c hc heq
      rw [decide_eq_true_iff] at heq
      exact h (heq ▸ List.mem_reverse.mp hc)
    · exact decide_eq_true rfl
  rw [rsplitColon, List.reverse_append, List.reverse_cons, List.append_assoc, List.singleton_append,
    hsplit]
  simp only [Option.map_some, List.reverse_reverse]

/-- What stands before the last colon, and what stands behind it. -/
theorem of_rsplitColon {front back : Text} (h : rsplitColon t = some (front, back)) :
    t = front ++ ':' :: back ∧ ':' ∉ back := by
  obtain ⟨⟨lead, trail⟩, hsplit, heq⟩ := Option.map_eq_some_iff.mp h
  cases heq
  obtain ⟨sep, hsep, hreverse, hlead⟩ := of_splitFirst hsplit
  obtain rfl : sep = ':' := of_decide_eq_true hsep
  constructor
  · rw [← List.reverse_reverse t, hreverse, List.reverse_append, List.reverse_cons,
      List.append_assoc, List.singleton_append]
  · intro hc
    exact hlead ':' (List.mem_reverse.mp hc) (decide_eq_true rfl)

theorem rsplitColon_none {t : Text} (h : rsplitColon t = none) : ':' ∉ t := by
  intro hc
  have hnone := of_splitFirst_eq_none (Option.map_eq_none_iff.mp h)
  exact hnone ':' (List.mem_reverse.mpr hc) (decide_eq_true rfl)

/-- The host is a part of the authority without colons; the port is not zero. -/
theorem of_hostAndPort {authority host : Text} {port : UInt16}
    (h : hostAndPort authority = .ok (host, port)) :
    ':' ∉ host ∧ host ⊆ authority ∧ port ≠ 0 := by
  rw [hostAndPort] at h
  cases hsplit : rsplitColon authority with
  | none =>
    rw [hsplit] at h
    cases h
    exact ⟨rsplitColon_none hsplit, List.Subset.refl _, by decide⟩
  | some parts =>
    obtain ⟨front, back⟩ := parts
    obtain ⟨rfl, -⟩ := of_rsplitColon hsplit
    rw [hsplit] at h
    dsimp only at h
    split_ifs at h with hcolon
    cases hport : (parseU16 back).filter (· ≠ 0) with
    | none =>
      rw [hport] at h
      cases h
    | some n =>
      rw [hport] at h
      cases h
      have hne := (Option.filter_eq_some_iff.mp hport).2
      exact ⟨hcolon, List.subset_append_left _ _, of_decide_eq_true hne⟩

/-- The path of a URL without a path is the root; any other starts at the first slash. -/
theorem path_of_rest (rest : Text) :
    ∃ tail, (if '/' ∈ rest then rest.dropWhile (· ≠ '/') else ['/']) = '/' :: tail ∧
      tail ⊆ rest := by
  by_cases hslash : '/' ∈ rest
  · rw [if_pos hslash]
    have hsubset : rest.dropWhile (· ≠ '/') ⊆ rest := (List.dropWhile_sublist _).subset
    cases hdrop : rest.dropWhile (· ≠ '/') with
    | nil =>
      have hall := List.dropWhile_eq_nil_iff.mp hdrop '/' hslash
      simp at hall
    | cons c tail =>
      have hnot := head?_dropWhile (fun c => decide (c ≠ '/')) rest c (by rw [hdrop]; rfl)
      obtain rfl : c = '/' := by simpa using hnot
      rw [hdrop] at hsubset
      exact ⟨tail, rfl, List.subset_of_cons_subset hsubset⟩
  · rw [if_neg hslash]
    exact ⟨[], rfl, List.nil_subset _⟩

/-- What `parse` makes of a rest without a fragment. -/
theorem formed_of_parseRest (hrest : '#' ∉ rest) (h : parseRest rest = .ok u) :
    Formed u ∧ '#' ∉ u.path := by
  obtain ⟨tail, hpath, htail⟩ := path_of_rest rest
  rw [parseRest] at h
  simp only [hpath, List.cons_ne_nil, if_false] at h
  split at h
  · cases h
  · next huser =>
    cases hparts : hostAndPort (rest.takeWhile (· ≠ '/')) with
    | error e =>
      rw [hparts] at h
      cases h
    | ok parts =>
      obtain ⟨host, port⟩ := parts
      obtain ⟨hcolon, hsubset, hport⟩ := of_hostAndPort hparts
      rw [hparts] at h
      dsimp only at h
      split_ifs at h with hhost hclean
      cases h
      rw [Bool.or_eq_true, not_or, Bool.not_eq_true, Bool.not_eq_true] at hclean
      have hinside : ∀ c ∈ host, c ∈ rest ∧ c ≠ '/' := by
        intro c hc
        have htake := hsubset hc
        have hslash := List.mem_takeWhile_imp htake
        exact ⟨(List.takeWhile_sublist _).subset htake, of_decide_eq_true hslash⟩
      refine ⟨⟨hhost, ?_, hclean.1, hport, rfl, hclean.2⟩, ?_⟩
      · intro c hc hmem
        obtain ⟨hmemRest, hslash⟩ := hinside c hmem
        simp only [List.mem_cons, List.not_mem_nil, or_false] at hc
        obtain rfl | rfl | rfl | rfl := hc
        · exact hslash rfl
        · exact hrest hmemRest
        · exact huser (hsubset hmem)
        · exact hcolon hmem
      · intro hmem
        obtain heq | hmem := List.mem_cons.mp hmem
        · cases heq
        · exact hrest (htail hmem)

/-- What `parse` accepts has the form of a URL and no fragment. -/
theorem formed_of_parse (h : parse t = .ok u) : Formed u ∧ '#' ∉ u.path := by
  rw [parse] at h
  split_ifs at h
  apply formed_of_parseRest _ h
  intro hmem
  have hne := List.mem_takeWhile_imp hmem
  simp at hne

theorem decimal_digits (n : UInt16) : ∀ c ∈ decimal n, c.isDigit = true :=
  fun _ hc => Nat.isDigit_of_mem_toDigits (by decide) (by decide) hc

theorem parseU16_decimal (n : UInt16) : parseU16 (decimal n) = some n := by
  rw [parseU16, decimal, readNumeral_toDigits n.toNat_lt, Option.map_some, UInt16.ofNat_toNat]

/-- No character of a port is one that ends a host. -/
theorem notMem_decimal {c : Char} (hc : c.isDigit = false) (n : UInt16) : c ∉ decimal n := by
  intro hmem
  rw [decimal_digits n c hmem] at hc
  cases hc

theorem notMem_hostHeader (hu : Formed u) {c : Char} (hc : c ∈ ['/', '#', '@']) :
    c ∉ u.hostHeader := by
  have hhost : c ∉ u.host := by
    apply hu.host_free
    simp only [List.mem_cons, List.not_mem_nil, or_false] at hc ⊢
    tauto
  rw [Url.hostHeader]
  split_ifs
  · exact hhost
  · rw [List.mem_append, not_or, List.mem_cons, not_or]
    simp only [List.mem_cons, List.not_mem_nil, or_false] at hc
    refine ⟨hhost, ?_, ?_⟩
    · rintro rfl
      simp at hc
    · apply notMem_decimal
      obtain rfl | rfl | rfl := hc <;> rfl

/-- The authority that is narrated names the host and the port. -/
theorem hostAndPort_hostHeader (hu : Formed u) :
    hostAndPort u.hostHeader = .ok (u.host, u.port) := by
  have hcolon : ':' ∉ u.host := hu.host_free ':' (by simp)
  rw [Url.hostHeader]
  split_ifs with hport
  · rw [hostAndPort, rsplitColon_eq_none hcolon, hport]
  · have hback : ':' ∉ decimal u.port := notMem_decimal rfl u.port
    have hread : (parseU16 (decimal u.port)).filter (· ≠ 0) = some u.port := by
      rw [parseU16_decimal, Option.filter_some_pos]
      exact decide_eq_true hu.port_ne
    rw [hostAndPort, rsplitColon_append hback]
    dsimp only
    rw [if_neg hcolon, hread]

theorem parseRest_append (hu : Formed u) : parseRest (u.hostHeader ++ u.path) = .ok u := by
  obtain ⟨tail, hpath⟩ : ∃ tail, u.path = '/' :: tail := by
    cases hpath : u.path with
    | nil =>
      have hstart := hu.path_start
      rw [hpath] at hstart
      cases hstart
    | cons c tail =>
      have hstart := hu.path_start
      rw [hpath] at hstart
      cases hstart
      exact ⟨tail, rfl⟩
  have hslash : ∀ c ∈ u.hostHeader, decide (c ≠ '/') = true := by
    intro c hc
    apply decide_eq_true
    rintro rfl
    exact notMem_hostHeader hu (by simp) hc
  have hauthority : (u.hostHeader ++ '/' :: tail).takeWhile (· ≠ '/') = u.hostHeader := by
    rw [List.takeWhile_append_of_pos hslash]
    simp
  have hrest : (u.hostHeader ++ '/' :: tail).dropWhile (· ≠ '/') = '/' :: tail := by
    rw [List.dropWhile_append_of_pos hslash]
    simp
  have huser : '@' ∉ u.hostHeader := notMem_hostHeader hu (by simp)
  have hclean : ¬ (u.host.any forbidden || ('/' :: tail).any forbidden) = true := by
    rw [← hpath, hu.host_clean, hu.path_clean]
    decide
  rw [parseRest, hpath]
  simp only [hauthority, hrest, List.mem_append, List.mem_cons_self, or_true, if_true]
  rw [if_neg huser, hostAndPort_hostHeader hu]
  dsimp only
  rw [if_neg hu.host_ne, if_neg (List.cons_ne_nil _ _), if_neg hclean, ← hpath]

/-- The text of a URL without a fragment is read as that URL. -/
theorem parse_display (hu : Formed u) (hfragment : '#' ∉ u.path) : parse u.display = .ok u := by
  have hbody : '#' ∉ u.hostHeader ++ u.path := by
    rw [List.mem_append, not_or]
    exact ⟨notMem_hostHeader hu (by simp), hfragment⟩
  have htake : (u.hostHeader ++ u.path).takeWhile (· ≠ '#') = u.hostHeader ++ u.path := by
    rw [List.takeWhile_eq_self_iff]
    intro c hc
    apply decide_eq_true
    rintro rfl
    exact hbody hc
  have hdisplay : u.display = text "http://" ++ (u.hostHeader ++ u.path) := by
    rw [Url.display, List.append_assoc]
  have hhttps : ¬ eqIgnoreAsciiCase ((text "http://" ++ (u.hostHeader ++ u.path)).take 8)
      (text "https://") = true := by
    simp [eqIgnoreAsciiCase, text]
  have hhttp : eqIgnoreAsciiCase ((text "http://" ++ (u.hostHeader ++ u.path)).take 7)
      (text "http://") = true := by
    simp [eqIgnoreAsciiCase, text]
  have hdrop : (text "http://" ++ (u.hostHeader ++ u.path)).drop 7 = u.hostHeader ++ u.path := rfl
  rw [parse, hdisplay, if_neg hhttps, if_pos hhttp, hdrop, htake]
  exact parseRest_append hu

/-- A location that names a path on the same server. -/
def ServerRelative (location : Text) : Prop := location.head? = some '/'

/-- One redirect: the form is kept, and a fragment is only in a path that the server gave. -/
theorem formed_of_redirectTarget {location : Text} (hu : Formed u)
    (h : redirectTarget u location = .ok v) :
    Formed v ∧ ('#' ∈ v.path ↔ ServerRelative location ∧ '#' ∈ location) := by
  rw [redirectTarget] at h
  split_ifs at h with hrelative hclean
  · cases h
    rw [Bool.not_eq_true] at hclean
    exact ⟨⟨hu.host_ne, hu.host_free, hu.host_clean, hu.port_ne, hrelative, hclean⟩,
      ⟨fun hmem => ⟨hrelative, hmem⟩, fun hmem => hmem.2⟩⟩
  · obtain ⟨hv, hfragment⟩ := formed_of_parse h
    exact ⟨hv, ⟨fun hmem => absurd hmem hfragment, fun hmem => absurd hmem.1 hrelative⟩⟩

/-- Any number of redirects. -/
theorem formed_of_follow (hu : Formed u) (h : follow u locations = .ok v) :
    Formed v ∧ ('#' ∈ v.path ↔ (locations = [] ∧ '#' ∈ u.path) ∨
      ∃ location ∈ locations.getLast?, ServerRelative location ∧ '#' ∈ location) := by
  induction locations generalizing u with
  | nil =>
    cases h
    refine ⟨hu, ⟨fun hmem => .inl ⟨rfl, hmem⟩, ?_⟩⟩
    rintro (⟨-, hmem⟩ | ⟨location, hlast, -⟩)
    · exact hmem
    · cases hlast
  | cons location locations ih =>
    rw [follow] at h
    cases htarget : redirectTarget u location with
    | error e =>
      rw [htarget] at h
      cases h
    | ok target =>
      rw [htarget] at h
      obtain ⟨hform, hfragment⟩ := formed_of_redirectTarget hu htarget
      obtain ⟨hv, hlast⟩ := ih hform h
      refine ⟨hv, hlast.trans ?_⟩
      cases locations with
      | nil => simp [hfragment]
      | cons next locations => simp

/-- Every URL that is obtained has the form of one; a fragment is in it exactly when the last
redirect was to a path with a fragment. -/
theorem formed_of_fetch {typed : Text} (h : fetch typed locations = .ok u) :
    Formed u ∧ ('#' ∈ u.path ↔
      ∃ location ∈ locations.getLast?, ServerRelative location ∧ '#' ∈ location) := by
  rw [fetch] at h
  cases htyped : parseWithDefaultScheme typed with
  | error e =>
    rw [htyped] at h
    cases h
  | ok url =>
    rw [htyped] at h
    have hurl : Formed url ∧ '#' ∉ url.path := by
      rw [parseWithDefaultScheme] at htyped
      split_ifs at htyped
      · exact formed_of_parse htyped
      · exact formed_of_parse htyped
    obtain ⟨hu, hfragment⟩ := formed_of_follow hurl.1 h
    refine ⟨hu, hfragment.trans ?_⟩
    simp [hurl.2]

/-- A URL that can be requested: nothing in it can end a field of the request, and what is
narrated is what is requested. -/
structure Requested (u : Url) : Prop where
  host_ne : u.host ≠ []
  host_free : ∀ c ∈ ['/', '#', '@', ':'], c ∉ u.host
  host_clean : ∀ b ∈ utf8 u.host, 0x20 < b ∧ b ≠ 0x7f
  path_start : u.path.head? = some '/'
  path_clean : ∀ b ∈ utf8 u.path, 0x20 < b ∧ b ≠ 0x7f
  path_fragment : '#' ∉ u.path
  parse_display : parse u.display = .ok u

theorem Formed.requested (hu : Formed u) (hfragment : '#' ∉ u.path) : Requested u where
  host_ne := hu.host_ne
  host_free := hu.host_free
  host_clean := clean_of_any hu.host_clean
  path_start := hu.path_start
  path_clean := clean_of_any hu.path_clean
  path_fragment := hfragment
  parse_display := Curl.parse_display hu hfragment

/-- Whatever is typed and whatever the servers answer, a URL that is obtained can be requested
exactly when the last redirect was not to a path with a fragment. -/
theorem requested_iff (typed : Text) (locations : List Text) (u : Url)
    (h : fetch typed locations = .ok u) :
    Requested u ↔
      ∀ location ∈ locations.getLast?, ServerRelative location → '#' ∉ location := by
  obtain ⟨hu, hfragment⟩ := formed_of_fetch h
  constructor
  · intro hreq location hlast hrelative hmem
    exact hreq.path_fragment (hfragment.mpr ⟨location, hlast, hrelative, hmem⟩)
  · intro hlast
    apply hu.requested
    rw [hfragment]
    rintro ⟨location, hmem, hrelative, hhash⟩
    exact hlast location hmem hrelative hhash

/-- A typed host and a redirect to a path. -/
theorem requested_iff_path :
    Requested ⟨text "a", 80, text "/b"⟩ ↔
      ∀ location ∈ [text "/b"].getLast?, ServerRelative location → '#' ∉ location :=
  requested_iff (text "a") [text "/b"] _ (by decide)

/-- A server that answers with a path and a fragment. -/
theorem fragment_kept :
    fetch (text "a") [text "/b#c"] = .ok ⟨text "a", 80, text "/b#c"⟩ ∧
      ¬ Requested ⟨text "a", 80, text "/b#c"⟩ := by
  constructor
  · decide
  · intro hreq
    exact hreq.path_fragment (by decide)

end Eo9.Curl
