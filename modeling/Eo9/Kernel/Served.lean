import Eo9.Kernel.Diskcache
import Eo9.Library.Blake3
import Eo9.Library.Runs

/-!
# What the store disk can make the kernel serve

The input of the tag determines the key and the payload, over all pairs that
the kernel forms: keys of the cache have one length and are no key of `/bin`, and
between two keys of `/bin` of different lengths the length field would have to
be part of a name. So a disk that cannot forge tags serves only what was stored.
-/

namespace Eo9.Kernel.Diskcache

open Eo9.Library
open Eo9.Eofs (FsError Digest)

/-- A name that `binNameOk` accepts. -/
structure BinName where
  text : Bytes
  ok : binNameOk text = true

/-- What an entry is stored under. -/
inductive EntryKey where
  | cache (key : CacheKey)
  | bin (name : BinName)

namespace EntryKey

/-- The key that is folded into the tag. -/
def tagKey : EntryKey → Bytes
  | cache key => key.text
  | bin name => binTagKey name.text

def maxPayload : EntryKey → Nat
  | cache _ => MAX_ARTIFACT_BYTES
  | bin _ => MAX_COMPONENT_BYTES

end EntryKey

theorem BinName.nameByte_of_mem (name : BinName) {b : UInt8} (h : b ∈ name.text) :
    nameByte b = true := by
  have hok := name.ok
  unfold binNameOk at hok
  rw [Bool.and_eq_true] at hok
  exact List.all_eq_true.mp hok.2 b h

/-- A character of a name is neither a control character nor zero. -/
theorem le_toNat_of_nameByte {b : UInt8} (h : nameByte b = true) : 0x2D ≤ b.toNat := by
  simp only [nameByte, isAlphanumeric, isDigit, Bool.or_eq_true, Bool.and_eq_true,
    decide_eq_true_eq, beq_iff_eq, UInt8.le_iff_toNat_le, ← UInt8.toNat_inj] at h
  simp only [UInt8.reduceToNat] at h
  omega

theorem macInput_of_same_length {k k' p p' : Bytes} (hlen : k.length = k'.length)
    (h : macInput k p = macInput k' p') : k = k' ∧ p = p' := by
  obtain ⟨hkey, hrest⟩ := List.append_inj h hlen
  obtain ⟨-, hpayload⟩ := List.append_inj hrest (by rw [length_leBytes, length_leBytes])
  exact ⟨hkey, hpayload⟩

/-- No name grows by a part of the length field. -/
theorem not_length_in_name {extra p p' : Bytes} (hbytes : ∀ b ∈ extra, 0x2D ≤ b.toNat)
    (hp : p.length ≤ 2 ^ 23) (hextra : extra ≠ []) :
    leBytes 8 p.length ++ p ≠ extra ++ (leBytes 8 p'.length ++ p') := by
  intro h
  have hlen : p.length = extra.length + p'.length := by
    have := congrArg List.length h
    simp only [List.length_append, length_leBytes] at this
    omega
  generalize hL : p.length = L at h hlen hp
  generalize hL' : p'.length = L' at h hlen
  have hhigh : L / 256 / 256 / 256 = 0 := by omega
  have hhigh' : L' / 256 / 256 / 256 = 0 := by omega
  -- The field's low byte is part of the name, so the payload is not tiny.
  rcases extra with _ | ⟨a, extra⟩
  · exact hextra rfl
  have hfirst := hbytes a List.mem_cons_self
  simp only [leBytes, List.cons_append, List.cons.injEq] at h
  rw [← h.1, UInt8.toNat_ofNat'] at hfirst
  rcases extra with _ | ⟨b, _ | ⟨c, _ | ⟨d, extra⟩⟩⟩
  case cons.cons.cons =>
    -- The field's fourth byte is zero, which no name contains.
    have hfourth := hbytes d (by simp)
    simp only [List.cons_append, List.cons.injEq] at h
    rw [← h.2.2.2.1, UInt8.toNat_ofNat'] at hfourth
    omega
  all_goals
    simp only [List.nil_append, List.cons_append, List.cons.injEq, ← UInt8.toNat_inj,
      UInt8.toNat_ofNat', hhigh, Nat.zero_div] at h
    simp only [List.length_cons, List.length_nil] at hlen
    omega

theorem EntryKey.cache_ne_bin {key : CacheKey} {name : BinName} {x y : Bytes} :
    key.text ++ x ≠ binTagKey name.text ++ y := by
  intro h
  have hsecond : (key.text ++ x)[1]? = some 0x69 := by
    rw [h]
    rfl
  rw [List.getElem?_append_left (by rw [key.length_eq]; omega)] at hsecond
  have hhex := List.all_eq_true.mp key.hex _ (List.mem_of_getElem? hsecond)
  exact absurd hhex (by decide)

theorem macInput_bin_of_le {name name' : BinName} {p p' : Bytes} (hp : p.length ≤ 2 ^ 23)
    (hle : name.text.length ≤ name'.text.length)
    (h : macInput (binTagKey name.text) p = macInput (binTagKey name'.text) p') :
    name = name' ∧ p = p' := by
  have hnames : name.text ++ (leBytes 8 p.length ++ p) =
      name'.text ++ (leBytes 8 p'.length ++ p') := by
    simp only [macInput, binTagKey, List.append_assoc] at h
    exact List.append_cancel_left h
  obtain ⟨extra, hextra⟩ : ∃ extra, name'.text = name.text ++ extra := by
    refine ⟨name'.text.drop name.text.length, ?_⟩
    have htake := congrArg (List.take name.text.length) hnames
    rw [List.take_left, List.take_append_of_le_length hle] at htake
    calc
      name'.text = name'.text.take name.text.length ++ name'.text.drop name.text.length :=
        (List.take_append_drop _ _).symm
      _ = name.text ++ name'.text.drop name.text.length := by rw [← htake]
  rw [hextra, List.append_assoc] at hnames
  have hrest := List.append_cancel_left hnames
  by_cases hnil : extra = []
  · rw [hnil, List.nil_append] at hrest
    rw [hnil, List.append_nil] at hextra
    obtain ⟨-, hpayload⟩ := List.append_inj hrest (by rw [length_leBytes, length_leBytes])
    obtain ⟨text, _⟩ := name
    obtain ⟨text', _⟩ := name'
    exact ⟨by subst hextra; rfl, hpayload⟩
  · refine absurd hrest (not_length_in_name ?_ hp hnil)
    intro b hb
    apply le_toNat_of_nameByte
    apply name'.nameByte_of_mem
    rw [hextra]
    exact List.mem_append_right _ hb

/-- The input of the tag determines the key and the payload. -/
theorem macInput_injective {k k' : EntryKey} {p p' : Bytes} (hp : p.length ≤ k.maxPayload)
    (hp' : p'.length ≤ k'.maxPayload) (h : macInput k.tagKey p = macInput k'.tagKey p') :
    k = k' ∧ p = p' := by
  have hbound : ∀ k : EntryKey, k.maxPayload ≤ 2 ^ 23 := by
    intro k
    cases k with
    | cache key => exact le_refl _
    | bin name => exact (by decide : MAX_COMPONENT_BYTES ≤ 2 ^ 23)
  cases k with
  | cache key =>
    cases k' with
    | cache key' =>
      obtain ⟨hkey, hpayload⟩ :=
        macInput_of_same_length (key.length_eq.trans key'.length_eq.symm) h
      obtain ⟨text, _, _⟩ := key
      obtain ⟨text', _, _⟩ := key'
      change text = text' at hkey
      subst hkey
      exact ⟨rfl, hpayload⟩
    | bin name => exact absurd h EntryKey.cache_ne_bin
  | bin name =>
    cases k' with
    | cache key => exact absurd h.symm EntryKey.cache_ne_bin
    | bin name' =>
      rcases Nat.le_total name.text.length name'.text.length with hle | hle
      · obtain ⟨hname, hpayload⟩ := macInput_bin_of_le (hp.trans (hbound _)) hle h
        exact ⟨congrArg EntryKey.bin hname, hpayload⟩
      · obtain ⟨hname, hpayload⟩ := macInput_bin_of_le (hp'.trans (hbound _)) hle h.symm
        exact ⟨congrArg EntryKey.bin hname.symm, hpayload.symm⟩

def EntryKey.path : EntryKey → Bytes
  | .cache key => cachePath key.text
  | .bin name => binPath name.text

/-- The kernel over all boots with one tag key: the mounted store disk and, as a
ghost, the inputs that were tagged for an entry. -/
structure Machine (F : Type) where
  slot : Option F
  tagged : List Bytes

/-- A call with its answer, or a change of the disk. -/
inductive Event where
  | lookup (key : CacheKey) (answer : Option Bytes)
  | store (key : CacheKey) (artifact : Bytes)
  | binRead (name : Bytes) (answer : Option Bytes)
  | binStore (name component : Bytes) (answer : Outcome BinError Unit)
  | binRemove (name : Bytes) (answer : Outcome BinError Unit)
  | disk

section Runs

variable [KeyedBlake3] {F : Type} [StoreFs F]

/-- The input that storing a payload tags: none without a disk or when the
payload is over the cap of its kind. -/
def tags (slot : Option F) (key : EntryKey) (payload : Bytes) : List Bytes :=
  if slot.isSome ∧ payload.length ≤ key.maxPayload then [macInput key.tagKey payload] else []

/-- What one call does; between two calls the disk may become any other. -/
inductive Step : Machine F → Event → Machine F → Prop
  | lookup (k : Machine F) (key : CacheKey) :
      Step k (.lookup key (lookup k.slot key)) k
  | store (k : Machine F) (key : CacheKey) (artifact : Bytes) :
      Step k (.store key artifact)
        ⟨store key artifact k.slot, tags k.slot (.cache key) artifact ++ k.tagged⟩
  | binRead (k : Machine F) (name : Bytes) :
      Step k (.binRead name (binRead k.slot name)) k
  | binStore (k : Machine F) (name : BinName) (component : Bytes) :
      Step k (.binStore name.text component (binStore name.text component k.slot).1)
        ⟨(binStore name.text component k.slot).2, tags k.slot (.bin name) component ++ k.tagged⟩
  | binStoreRefused (k : Machine F) (name component : Bytes) (h : binNameOk name = false) :
      Step k (.binStore name component (binStore name component k.slot).1)
        ⟨(binStore name component k.slot).2, k.tagged⟩
  | binRemove (k : Machine F) (name : Bytes) :
      Step k (.binRemove name (binRemove name k.slot).1) ⟨(binRemove name k.slot).2, k.tagged⟩
  | disk (k : Machine F) (slot : Option F) : Step k .disk ⟨slot, k.tagged⟩

/-- The tag that the disk shows for an entry is the tag of that entry. -/
def ShowsTag (slot : Option F) (key : EntryKey) (msg : Bytes) : Prop :=
  ∃ fs bytes, slot = some fs ∧ fetchEntry fs key.path key.maxPayload = some bytes ∧
    msg = macInput key.tagKey (bytes.drop ENTRY_HEADER_BYTES) ∧
    (bytes.drop 16).take 32 = (mac msg).val

def Event.Verifies : Event → EntryKey → Prop
  | .lookup key _, k => k = .cache key
  | .binRead name _, k => ∃ h, k = .bin ⟨name, h⟩
  | _, _ => False

/-- The disk has no tag of an input that the kernel did not tag, when it is asked
for one. -/
def Unforged (k : Machine F) (e : Event) : Prop :=
  ∀ key, e.Verifies key → ∀ msg, ShowsTag k.slot key msg → msg ∈ k.tagged

/-- Steps under an unforgeable tag. -/
def SafeStep (k : Machine F) (e : Event) (k' : Machine F) : Prop := Step k e k' ∧ Unforged k e

/-- The event passes a payload to be stored under a key. -/
def Event.Stores : Event → EntryKey → Bytes → Prop
  | .store key artifact, k, p => k = .cache key ∧ p = artifact
  | .binStore name component _, k, p => ∃ h, k = .bin ⟨name, h⟩ ∧ p = component
  | _, _, _ => False

/-- An input that comes from a payload that one of the events stored. -/
def Stored (events : List Event) (msg : Bytes) : Prop :=
  ∃ e ∈ events, ∃ key payload, e.Stores key payload ∧ payload.length ≤ key.maxPayload ∧
    msg = macInput key.tagKey payload

theorem Step.tagged {k k' : Machine F} {e : Event} (h : Step k e k') {msg : Bytes}
    (hmsg : msg ∈ k'.tagged) : msg ∈ k.tagged ∨ Stored [e] msg := by
  have hnew : ∀ (slot : Option F) key payload, e.Stores key payload →
      msg ∈ tags slot key payload ++ k.tagged → msg ∈ k.tagged ∨ Stored [e] msg := by
    intro slot key payload hstores hmem
    rcases List.mem_append.mp hmem with hmem | hmem
    · unfold tags at hmem
      split at hmem
      · rename_i hfits
        refine .inr ⟨e, List.mem_singleton_self e, key, payload, hstores, hfits.2, ?_⟩
        exact List.mem_singleton.mp hmem
      · exact absurd hmem List.not_mem_nil
    · exact .inl hmem
  cases h with
  | lookup key => exact .inl hmsg
  | store key artifact => exact hnew k.slot (.cache key) artifact ⟨rfl, rfl⟩ hmsg
  | binRead name => exact .inl hmsg
  | binStore name component => exact hnew k.slot (.bin name) component ⟨name.ok, rfl, rfl⟩ hmsg
  | binStoreRefused name component h => exact .inl hmsg
  | binRemove name => exact .inl hmsg
  | disk slot => exact .inl hmsg

/-- What is tagged after a run was tagged before it or stored in it. -/
theorem tagged_of_run {k k' : Machine F} {events : List Event} (run : Run SafeStep k events k')
    {msg : Bytes} (hmsg : msg ∈ k'.tagged) : msg ∈ k.tagged ∨ Stored events msg := by
  induction run with
  | nil s => exact .inl hmsg
  | cons head tail ih =>
    rcases ih hmsg with hmem | ⟨e, he, hrest⟩
    · rcases head.1.tagged hmem with hmem | ⟨e, he, hrest⟩
      · exact .inl hmem
      · refine .inr ⟨e, ?_, hrest⟩
        exact List.mem_singleton.mp he ▸ List.mem_cons_self
    · exact .inr ⟨e, List.mem_cons_of_mem _ he, hrest⟩

/-- A payload that is read back shows the tag of its entry. -/
theorem showsTag_of_readEntry {slot : Option F} {key : EntryKey} {p : Bytes}
    (h : (slot.bind fun fs => readEntry fs key.path key.tagKey key.maxPayload) = some p) :
    p.length ≤ key.maxPayload ∧ ShowsTag slot key (macInput key.tagKey p) := by
  obtain ⟨fs, hslot, hread⟩ := Option.bind_eq_some_iff.mp h
  obtain ⟨bytes, hfetch, hdecode⟩ := Option.bind_eq_some_iff.mp hread
  have hbytes := decodeEntry_eq_some hdecode
  have hlen := length_fetchEntry hfetch
  obtain ⟨h16, h48, hlength⟩ := encodeEntry_parts key.tagKey p
  refine ⟨?_, fs, bytes, hslot, hfetch, ?_, ?_⟩
  · rw [hbytes, hlength] at hlen
    omega
  · rw [hbytes, h48]
  · rw [hbytes, h16, List.take_left' (entryTag key.tagKey p).property]
    rfl

/-- A payload that the kernel serves after a run was stored in it, whole and
under the same key. -/
theorem stored_of_served {k k₁ : Machine F} {events : List Event} {e : Event} (key : EntryKey)
    {p : Bytes} (hk : k.tagged = []) (run : Run SafeStep k events k₁) (hsafe : Unforged k₁ e)
    (hverifies : e.Verifies key)
    (hread : (k₁.slot.bind fun fs => readEntry fs key.path key.tagKey key.maxPayload) = some p) :
    ∃ e' ∈ events, e'.Stores key p := by
  obtain ⟨hlen, hshows⟩ := showsTag_of_readEntry hread
  rcases tagged_of_run run (hsafe key hverifies _ hshows) with hmem | hstored
  · rw [hk] at hmem
    exact absurd hmem List.not_mem_nil
  · obtain ⟨e', he', key', payload, hstores, hfits, hmsg⟩ := hstored
    obtain ⟨rfl, rfl⟩ := macInput_injective hlen hfits hmsg
    exact ⟨e', he', hstores⟩

omit [KeyedBlake3] [StoreFs F] in
theorem stores_cache_iff {e : Event} {key : CacheKey} {p : Bytes} :
    e.Stores (.cache key) p ↔ e = .store key p := by
  cases e with
  | store key' artifact => simp [Event.Stores, eq_comm]
  | _ => simp [Event.Stores]

theorem answer_of_lookup {k k' : Machine F} {key : CacheKey} {answer : Option Bytes}
    (h : Step k (.lookup key answer) k') : answer = lookup k.slot key := by
  cases h
  rfl

theorem answer_of_binRead {k k' : Machine F} {name : Bytes} {answer : Option Bytes}
    (h : Step k (.binRead name answer) k') : answer = binRead k.slot name := by
  cases h
  rfl

/-- The disk cannot choose what the kernel runs: over every run, with the disk
changed at will between two calls, what `lookup` and `binRead` return was stored
before under exactly that key or name. The tag's input is injective over all
pairs that the kernel forms. -/
theorem served_only_as_stored {k k' : Machine F} {events : List Event} (hk : k.tagged = [])
    (run : Run SafeStep k events k') :
    (∀ before key p after, events = before ++ .lookup key (some p) :: after →
      Event.store key p ∈ before) ∧
    (∀ before name p after, events = before ++ .binRead name (some p) :: after →
      ∃ answer, Event.binStore name p answer ∈ before) ∧
    ∀ key key' : EntryKey, ∀ p p' : Bytes, p.length ≤ key.maxPayload →
      p'.length ≤ key'.maxPayload → macInput key.tagKey p = macInput key'.tagKey p' →
      key = key' ∧ p = p' := by
  refine ⟨?_, ?_, fun key key' p p' => macInput_injective⟩
  · rintro before key p after rfl
    obtain ⟨k₁, hbefore, hrest⟩ := run.split
    cases hrest with
    | cons head tail =>
    obtain ⟨e, he, hstores⟩ := stored_of_served (.cache key) hk hbefore head.2 rfl
      (answer_of_lookup head.1).symm
    rwa [stores_cache_iff.mp hstores] at he
  · rintro before name p after rfl
    obtain ⟨k₁, hbefore, hrest⟩ := run.split
    cases hrest with
    | cons head tail =>
    have hread := answer_of_binRead head.1
    unfold binRead at hread
    split at hread
    · exact absurd hread nofun
    · rename_i hok
      rw [Bool.not_eq_false] at hok
      obtain ⟨e, he, hstores⟩ := stored_of_served (.bin ⟨name, hok⟩) hk hbefore head.2
        ⟨hok, rfl⟩ hread.symm
      cases e with
      | binStore name' component answer =>
        obtain ⟨h, hname, rfl⟩ := hstores
        injection hname with hname
        injection hname with hname
        exact ⟨answer, hname ▸ he⟩
      | lookup key answer => exact hstores.elim
      | store key artifact => exact absurd hstores.1 nofun
      | binRead name answer => exact hstores.elim
      | binRemove name answer => exact hstores.elim
      | disk => exact hstores.elim

end Runs

section OneEntry

/-- The tag of the source under a key. -/
abbrev keyedBlake3 (macKey : Bytes) : KeyedBlake3 where
  mac bytes := Eofs.BlockPtr.digestOf (Blake3.keyedDigest macKey bytes)

/-- Files by path; a directory is an empty file. -/
abbrev Files := Bytes → Option Bytes

instance : StoreFs Files where
  stat fs path :=
    match fs path with
    | some bytes => .ok bytes.length
    | none => .error .notFound
  list _ _ := .error .notFound
  read fs path _ len :=
    match fs path with
    | some bytes => if h : bytes.length = len then .ok (len, ⟨bytes, h⟩) else .error .notFound
    | none => .error .notFound
  mkdir path fs := (.ok (), Function.update fs path (some []))
  remove path fs := (.ok (), Function.update fs path none)
  createFile path fs := (.ok (), Function.update fs path (some []))
  write path _ bytes fs := (.ok (), Function.update fs path (some bytes))
  commit fs := (.ok (), fs)

/-- What `writeEntry` leaves of no files. -/
theorem writeEntry_fresh {dir path entry : Bytes} (h : path ≠ dir) :
    writeEntry dir path entry (fun _ => none : Files) =
      (.ok (), Function.update (Function.update (Function.update (fun _ => none) dir (some []))
        path (some [])) path (some entry)) := by
  have hdir : found dir (fun _ => none : Files) = false := rfl
  have hpath : found path (Function.update (fun _ => none) dir (some []) : Files) = false := by
    simp [found, StoreFs.stat, h, Except.isOk, Except.toBool]
  simp [writeEntry, when, step, Action.bind_apply, hdir, hpath, StoreFs.mkdir, StoreFs.createFile,
    StoreFs.write, StoreFs.commit]

theorem fetchEntry_fresh [KeyedBlake3] (key : EntryKey) {fs : Files} {p : Bytes}
    (hfile : fs key.path = some (encodeEntry key.tagKey p)) (hp : p.length ≤ key.maxPayload) :
    fetchEntry fs key.path key.maxPayload = some (encodeEntry key.tagKey p) := by
  have hlen := (encodeEntry_parts key.tagKey p).2.2
  simp only [fetchEntry, StoreFs.stat, StoreFs.read, hfile, hlen]
  rw [if_neg (by omega)]
  simp

end OneEntry

def keyOfAs : CacheKey := ⟨List.replicate 64 0x61, rfl, rfl⟩

/-- The empty disk, after the artifact `[1, 2, 3]` was stored on it. -/
def filled [KeyedBlake3] : Files := (writeEntry CACHE_DIR (cachePath keyOfAs.text)
  (encodeEntry keyOfAs.text [1, 2, 3]) (fun _ => none : Files)).2

theorem fetchEntry_filled [KeyedBlake3] :
    fetchEntry filled (cachePath keyOfAs.text) MAX_ARTIFACT_BYTES =
      some (encodeEntry keyOfAs.text [1, 2, 3]) := by
  refine fetchEntry_fresh (.cache keyOfAs) ?_ (by decide)
  rw [filled, writeEntry_fresh (by decide)]
  simp only [EntryKey.path, EntryKey.tagKey, Function.update_self]

/-- What the kernel reads back was stored in the run. -/
theorem served_only_as_stored_cached :
    letI := keyedBlake3 (List.replicate 32 7)
    lookup (some (filled : Files)) keyOfAs = some [1, 2, 3] ∧
      Event.store keyOfAs [1, 2, 3] ∈ [Event.store keyOfAs [1, 2, 3]] := by
  let _ := keyedBlake3 (List.replicate 32 7)
  have hstore : Step (F := Files) ⟨some fun _ => none, []⟩ (.store keyOfAs [1, 2, 3])
      ⟨some filled, [macInput keyOfAs.text [1, 2, 3]]⟩ :=
    .store ⟨some fun _ => none, []⟩ keyOfAs [1, 2, 3]
  have hread : lookup (some (filled : Files)) keyOfAs = some [1, 2, 3] := by
    simp only [lookup, readEntry, Option.bind_some, fetchEntry_filled]
    exact decodeEntry_encodeEntry _ _ (by decide)
  have hlookup : Step (F := Files) ⟨some filled, [macInput keyOfAs.text [1, 2, 3]]⟩
      (.lookup keyOfAs (some [1, 2, 3])) ⟨some filled, [macInput keyOfAs.text [1, 2, 3]]⟩ :=
    hread ▸ .lookup ⟨some filled, [macInput keyOfAs.text [1, 2, 3]]⟩ keyOfAs
  have hsafe : Unforged (F := Files) ⟨some filled, [macInput keyOfAs.text [1, 2, 3]]⟩
      (.lookup keyOfAs (some [1, 2, 3])) := by
    rintro key rfl msg ⟨fs, bytes, hslot, hfetch, hmsg, -⟩
    obtain rfl := Option.some.inj hslot
    change fetchEntry filled (cachePath keyOfAs.text) MAX_ARTIFACT_BYTES = some bytes at hfetch
    rw [fetchEntry_filled] at hfetch
    obtain rfl := Option.some.inj hfetch
    rw [hmsg, (encodeEntry_parts _ _).2.1]
    exact List.mem_singleton_self _
  have run : Run (SafeStep (F := Files)) _ _ _ := .cons ⟨hstore, fun key h => h.elim⟩
    (.single ⟨hlookup, hsafe⟩)
  exact ⟨hread, (served_only_as_stored rfl run).1 [.store keyOfAs [1, 2, 3]] keyOfAs [1, 2, 3] [] rfl⟩

end Eo9.Kernel.Diskcache
