import Eo9.Eofs.Codec

/-!
# Directories and snapshot tables as byte strings

Both are sequences of entries of varying length. What holds of one entry
parser holds of the sequence: it ends, it panics nowhere, and it reads back
what was written.
-/

namespace Eo9.Eofs

open Eo9.Library Outcome

section Sequences

variable {α : Type} {parse : List UInt8 → Outcome FsError (α × List UInt8)}

/-- Every entry takes up at least `k` bytes. -/
def TakesUp (parse : List UInt8 → Outcome FsError (α × List UInt8)) (k : Nat) : Prop :=
  ∀ rest entry rest', parse rest = .ok (entry, rest') → rest'.length + k ≤ rest.length

theorem clean_parseEntries (hparse : ∀ rest, Clean (parse rest)) {k : Nat} (hk : 0 < k)
    (htakes : TakesUp parse k) {fuel : Nat} {rest : List UInt8} (hfuel : rest.length ≤ fuel) :
    Clean (parseEntries parse fuel rest) := by
  induction fuel generalizing rest with
  | zero =>
    obtain rfl := List.length_eq_zero_iff.mp (Nat.le_zero.mp hfuel)
    exact clean_ok _
  | succ fuel ih =>
    cases rest with
    | nil => exact clean_ok _
    | cons b rest =>
      refine clean_bind.mpr ⟨hparse _, fun step hstep => ?_⟩
      have hshrinks := htakes _ _ _ hstep
      refine clean_bind.mpr ⟨ih ?_, fun _ _ => clean_ok _⟩
      simp only [List.length_cons] at hfuel hshrinks
      omega

/-- What holds of every parsed entry, and how many entries there can be. -/
theorem parseEntries_ok {p : α → Prop} (hp : ∀ rest entry rest',
    parse rest = .ok (entry, rest') → p entry) {k : Nat} (htakes : TakesUp parse k)
    {fuel : Nat} {rest : List UInt8} {entries : List α}
    (h : parseEntries parse fuel rest = .ok entries) :
    (∀ entry ∈ entries, p entry) ∧ entries.length * k ≤ rest.length := by
  induction fuel generalizing rest entries with
  | zero =>
    cases rest with
    | nil =>
      obtain rfl := Except.ok.inj h
      simp
    | cons b rest => cases h
  | succ fuel ih =>
    cases rest with
    | nil =>
      obtain rfl := Except.ok.inj h
      simp
    | cons b rest =>
      obtain ⟨⟨entry, rest'⟩, hstep, h⟩ := bind_eq_ok.mp h
      obtain ⟨others, hothers, h⟩ := bind_eq_ok.mp h
      obtain rfl := Except.ok.inj h
      obtain ⟨hall, hcount⟩ := ih hothers
      have hshrinks := htakes _ _ _ hstep
      refine ⟨?_, ?_⟩
      · intro e he
        rcases List.mem_cons.mp he with rfl | he
        · exact hp _ _ _ hstep
        · exact hall e he
      · simp only [List.length_cons, Nat.add_mul, Nat.one_mul] at hshrinks ⊢
        omega

/-- Entries written one after the other are read back. -/
theorem parseEntries_flatMap {write : α → List UInt8} {p : α → Prop}
    (hparse : ∀ entry rest, p entry → parse (write entry ++ rest) = .ok (entry, rest))
    (hwrite : ∀ entry, write entry ≠ []) {entries : List α} (hp : ∀ entry ∈ entries, p entry)
    {fuel : Nat} (hfuel : (entries.flatMap write).length ≤ fuel) :
    parseEntries parse fuel (entries.flatMap write) = .ok entries := by
  induction entries generalizing fuel with
  | nil => cases fuel <;> rfl
  | cons entry entries ih =>
    have hpos := List.length_pos_of_ne_nil (hwrite entry)
    simp only [List.flatMap_cons, List.length_append] at hfuel ⊢
    cases hbytes : write entry ++ entries.flatMap write with
    | nil => exact absurd (List.append_eq_nil_iff.mp hbytes).1 (hwrite entry)
    | cons b bytes =>
      cases fuel with
      | zero => omega
      | succ fuel =>
        have htail : parseEntries parse fuel (entries.flatMap write) = .ok entries :=
          ih (fun e he => hp e (List.mem_cons_of_mem _ he)) (by omega)
        rw [parseEntries, ← hbytes, hparse entry _ (hp entry List.mem_cons_self), ok_bind]
        · simp only [htail, ok_bind]
        · simp

end Sequences

theorem nameOf_nameBytes (name : String) : nameOf (nameBytes name) = some name := by
  have h : (⟨name.toByteArray.data.toList.toArray⟩ : ByteArray) = name.toByteArray := by
    rw [Array.toArray_toList]
  rw [nameOf, nameBytes, h, String.fromUTF8?, dif_pos name.isValidUTF8]
  rfl

theorem nameBytes_of_nameOf {bytes : List UInt8} {name : String} (h : nameOf bytes = some name) :
    nameBytes name = bytes := by
  unfold nameOf String.fromUTF8? at h
  split at h
  · obtain rfl := Option.some.inj h
    rfl
  · cases h

theorem nameBytes_injective : Function.Injective nameBytes := by
  intro a b h
  have := nameOf_nameBytes a
  rw [h, nameOf_nameBytes] at this
  exact (Option.some.inj this).symm

theorem DirEntry.length_writeTo (entry : DirEntry) :
    entry.writeTo.length = DIR_ENTRY_FIXED + (nameBytes entry.name).length := by
  simp [DirEntry.writeTo, DIR_ENTRY_FIXED, OBJ_REF_SIZE]
  omega

theorem DirEntry.writeTo_ne_nil (entry : DirEntry) : entry.writeTo ≠ [] := by
  intro h
  have hlen := entry.length_writeTo
  have hfixed : DIR_ENTRY_FIXED = 76 := rfl
  rw [h, List.length_nil] at hlen
  omega

theorem parseDirEntry_ok {rest rest' : List UInt8} {entry : DirEntry}
    (h : parseDirEntry rest = .ok (entry, rest')) :
    entry.Fits ∧ rest'.length + DIR_ENTRY_FIXED ≤ rest.length := by
  unfold parseDirEntry at h
  by_cases hshort : rest.length < DIR_ENTRY_FIXED
  · simp [hshort, corrupt, Outcome.fail] at h
  · rw [if_neg hshort] at h
    obtain ⟨lenBytes, -, h⟩ := bind_eq_ok.mp h
    obtain ⟨tag, -, h⟩ := bind_eq_ok.mp h
    obtain ⟨kind, -, h⟩ := bind_eq_ok.mp h
    obtain ⟨_, -, h⟩ := bind_eq_ok.mp h
    obtain ⟨obj, hobj, h⟩ := bind_eq_ok.mp h
    by_cases hname : MAX_NAME_LEN < leValue lenBytes ∨
        rest.length - DIR_ENTRY_FIXED < leValue lenBytes
    · simp [hname, corrupt, Outcome.fail] at h
    · rw [if_neg hname] at h
      obtain ⟨bytes, hbytes, h⟩ := bind_eq_ok.mp h
      obtain ⟨hrange, rfl⟩ := rangeOf_eq_ok_iff.mp hbytes
      split at h
      · cases h
      · next name hof =>
        obtain ⟨rfl, rfl⟩ := Prod.mk.inj (Except.ok.inj h)
        refine ⟨⟨?_, ObjRef.fits_of_readFrom hobj⟩, ?_⟩
        · rw [nameBytes_of_nameOf hof, length_sub (by omega)]
          omega
        · rw [List.length_drop]
          omega

theorem clean_parseDirEntry (rest : List UInt8) : Clean (parseDirEntry rest) := by
  have hfixed : DIR_ENTRY_FIXED = 76 := rfl
  have href : OBJ_REF_SIZE = 72 := rfl
  unfold parseDirEntry
  split
  · exact clean_fail _
  · refine clean_bind.mpr ⟨clean_rangeOf.mpr (by omega), fun lenBytes _ => ?_⟩
    refine clean_bind.mpr ⟨clean_elemAt.mpr (by omega), fun tag _ => ?_⟩
    refine clean_bind.mpr ⟨NodeKind.clean_fromTag tag, fun kind _ => ?_⟩
    refine clean_bind.mpr ⟨clean_rangeOf.mpr (by omega), fun bytes hbytes => ?_⟩
    obtain ⟨-, rfl⟩ := rangeOf_eq_ok_iff.mp hbytes
    refine clean_bind.mpr ⟨ObjRef.clean_readFrom (length_sub (by omega)), fun obj _ => ?_⟩
    split
    · exact clean_fail _
    · refine clean_bind.mpr ⟨clean_rangeOf.mpr (by omega), fun bytes _ => ?_⟩
      split
      · exact clean_fail _
      · exact clean_ok _

theorem parseDirEntry_writeTo {entry : DirEntry} (h : entry.Fits) (rest : List UInt8) :
    parseDirEntry (entry.writeTo ++ rest) = .ok (entry, rest) := by
  have hnameLen : (nameBytes entry.name).length ≤ 255 := h.name
  have hfixed : DIR_ENTRY_FIXED = 76 := rfl
  have href : OBJ_REF_SIZE = 72 := rfl
  have hlen : (entry.writeTo ++ rest).length =
      DIR_ENTRY_FIXED + (nameBytes entry.name).length + rest.length := by
    rw [List.length_append, entry.length_writeTo]
  have hlenBytes : rangeOf (entry.writeTo ++ rest) 0 2 =
      (.ok (leBytes 2 (nameBytes entry.name).length) : Outcome FsError _) :=
    rangeOf_append (p := []) (by simp [DirEntry.writeTo]; rfl) rfl (by simp)
  have htag : elemAt (entry.writeTo ++ rest) 2 = (.ok entry.kind.toTag : Outcome FsError _) :=
    elemAt_append (p := leBytes 2 (nameBytes entry.name).length)
      (by simp [DirEntry.writeTo]; rfl) (by simp)
  have hobj : rangeOf (entry.writeTo ++ rest) 4 (4 + OBJ_REF_SIZE) =
      (.ok entry.obj.writeTo : Outcome FsError _) :=
    rangeOf_append (p := leBytes 2 (nameBytes entry.name).length ++ [entry.kind.toTag] ++ [0])
      (by simp [DirEntry.writeTo]; rfl) (by simp) (by simp)
  have hname : rangeOf (entry.writeTo ++ rest) DIR_ENTRY_FIXED
      (DIR_ENTRY_FIXED + (nameBytes entry.name).length) =
      (.ok (nameBytes entry.name) : Outcome FsError _) :=
    rangeOf_append (p := leBytes 2 (nameBytes entry.name).length ++ [entry.kind.toTag] ++ [0] ++
      entry.obj.writeTo) (q := rest) (by simp [DirEntry.writeTo])
      (by simp [hfixed, href]) (by simp [hfixed, href])
  have hvalue : leValue (leBytes 2 (nameBytes entry.name).length) =
      (nameBytes entry.name).length := leValue_leBytes 2 _ (by omega)
  have hmax : ¬ (MAX_NAME_LEN < (nameBytes entry.name).length ∨
      (entry.writeTo ++ rest).length - DIR_ENTRY_FIXED < (nameBytes entry.name).length) := by
    have : MAX_NAME_LEN = 255 := rfl
    omega
  have hdrop : (entry.writeTo ++ rest).drop
      (DIR_ENTRY_FIXED + (nameBytes entry.name).length) = rest := by
    rw [← entry.length_writeTo, List.drop_left]
  rw [parseDirEntry, if_neg (by omega)]
  simp only [hlenBytes, ok_bind, htag, NodeKind.fromTag_toTag, hobj,
    ObjRef.readFrom_writeTo h.obj, hvalue, if_neg hmax, hname, nameOf_nameBytes, hdrop]

theorem SnapEntry.length_writeTo (entry : SnapEntry) :
    entry.writeTo.length = SNAP_ENTRY_FIXED + (nameBytes entry.name).length := by
  simp [SnapEntry.writeTo, SNAP_ENTRY_FIXED, OBJ_REF_SIZE]
  omega

theorem SnapEntry.writeTo_ne_nil (entry : SnapEntry) : entry.writeTo ≠ [] := by
  intro h
  have hlen := entry.length_writeTo
  have hfixed : SNAP_ENTRY_FIXED = 88 := rfl
  rw [h, List.length_nil] at hlen
  omega

theorem parseSnapEntry_ok {rest rest' : List UInt8} {entry : SnapEntry}
    (h : parseSnapEntry rest = .ok (entry, rest')) :
    entry.Fits ∧ rest'.length + SNAP_ENTRY_FIXED ≤ rest.length := by
  unfold parseSnapEntry at h
  by_cases hshort : rest.length < SNAP_ENTRY_FIXED
  · simp [hshort, corrupt, Outcome.fail] at h
  · rw [if_neg hshort] at h
    obtain ⟨txgBytes, htxg, h⟩ := bind_eq_ok.mp h
    obtain ⟨lenBytes, -, h⟩ := bind_eq_ok.mp h
    obtain ⟨_, -, h⟩ := bind_eq_ok.mp h
    obtain ⟨root, hroot, h⟩ := bind_eq_ok.mp h
    by_cases hname : MAX_NAME_LEN < leValue lenBytes ∨
        rest.length - SNAP_ENTRY_FIXED < leValue lenBytes
    · simp [hname, corrupt, Outcome.fail] at h
    · rw [if_neg hname] at h
      obtain ⟨bytes, hbytes, h⟩ := bind_eq_ok.mp h
      obtain ⟨hrange, rfl⟩ := rangeOf_eq_ok_iff.mp hbytes
      split at h
      · cases h
      · next name hof =>
        obtain ⟨rfl, rfl⟩ := Prod.mk.inj (Except.ok.inj h)
        refine ⟨⟨leValue_lt_of_rangeOf htxg, ?_, ObjRef.fits_of_readFrom hroot⟩, ?_⟩
        · rw [nameBytes_of_nameOf hof, length_sub (by omega)]
          omega
        · rw [List.length_drop]
          omega

theorem clean_parseSnapEntry (rest : List UInt8) : Clean (parseSnapEntry rest) := by
  have hfixed : SNAP_ENTRY_FIXED = 88 := rfl
  have href : OBJ_REF_SIZE = 72 := rfl
  unfold parseSnapEntry
  split
  · exact clean_fail _
  · refine clean_bind.mpr ⟨clean_rangeOf.mpr (by omega), fun txgBytes _ => ?_⟩
    refine clean_bind.mpr ⟨clean_rangeOf.mpr (by omega), fun lenBytes _ => ?_⟩
    refine clean_bind.mpr ⟨clean_rangeOf.mpr (by omega), fun bytes hbytes => ?_⟩
    obtain ⟨-, rfl⟩ := rangeOf_eq_ok_iff.mp hbytes
    refine clean_bind.mpr ⟨ObjRef.clean_readFrom (length_sub (by omega)), fun root _ => ?_⟩
    split
    · exact clean_fail _
    · refine clean_bind.mpr ⟨clean_rangeOf.mpr (by omega), fun bytes _ => ?_⟩
      split
      · exact clean_fail _
      · exact clean_ok _

theorem parseSnapEntry_writeTo {entry : SnapEntry} (h : entry.Fits) (rest : List UInt8) :
    parseSnapEntry (entry.writeTo ++ rest) = .ok (entry, rest) := by
  have hnameLen : (nameBytes entry.name).length ≤ 255 := h.name
  have hfixed : SNAP_ENTRY_FIXED = 88 := rfl
  have href : OBJ_REF_SIZE = 72 := rfl
  have hlen : (entry.writeTo ++ rest).length =
      SNAP_ENTRY_FIXED + (nameBytes entry.name).length + rest.length := by
    rw [List.length_append, entry.length_writeTo]
  have htxg : rangeOf (entry.writeTo ++ rest) 0 8 =
      (.ok (leBytes 8 entry.txg) : Outcome FsError _) :=
    rangeOf_append (p := []) (by simp [SnapEntry.writeTo]; rfl) rfl (by simp)
  have hlenBytes : rangeOf (entry.writeTo ++ rest) 8 10 =
      (.ok (leBytes 2 (nameBytes entry.name).length) : Outcome FsError _) :=
    rangeOf_append (p := leBytes 8 entry.txg) (by simp [SnapEntry.writeTo]; rfl)
      (by simp) (by simp)
  have hroot : rangeOf (entry.writeTo ++ rest) 16 (16 + OBJ_REF_SIZE) =
      (.ok entry.root.writeTo : Outcome FsError _) :=
    rangeOf_append (p := leBytes 8 entry.txg ++ leBytes 2 (nameBytes entry.name).length ++
      List.replicate 6 0) (by simp [SnapEntry.writeTo]; rfl) (by simp) (by simp)
  have hname : rangeOf (entry.writeTo ++ rest) SNAP_ENTRY_FIXED
      (SNAP_ENTRY_FIXED + (nameBytes entry.name).length) =
      (.ok (nameBytes entry.name) : Outcome FsError _) :=
    rangeOf_append (p := leBytes 8 entry.txg ++ leBytes 2 (nameBytes entry.name).length ++
      List.replicate 6 0 ++ entry.root.writeTo) (q := rest) (by simp [SnapEntry.writeTo])
      (by simp [hfixed, href]) (by simp [hfixed, href])
  have hvalue : leValue (leBytes 2 (nameBytes entry.name).length) =
      (nameBytes entry.name).length := leValue_leBytes 2 _ (by omega)
  have hmax : ¬ (MAX_NAME_LEN < (nameBytes entry.name).length ∨
      (entry.writeTo ++ rest).length - SNAP_ENTRY_FIXED < (nameBytes entry.name).length) := by
    have : MAX_NAME_LEN = 255 := rfl
    omega
  have hdrop : (entry.writeTo ++ rest).drop
      (SNAP_ENTRY_FIXED + (nameBytes entry.name).length) = rest := by
    rw [← entry.length_writeTo, List.drop_left]
  rw [parseSnapEntry, if_neg (by omega)]
  simp only [htxg, hlenBytes, ok_bind, hroot, ObjRef.readFrom_writeTo h.root, hvalue, if_neg hmax,
    hname, nameOf_nameBytes, hdrop, leValue_leBytes 8 _ h.txg]

theorem clean_parseDir (bytes : List UInt8) : Clean (parseDir bytes) :=
  clean_parseEntries clean_parseDirEntry (by decide : 0 < DIR_ENTRY_FIXED)
    (fun _ _ _ h => (parseDirEntry_ok h).2) le_rfl

theorem clean_parseSnapshots (bytes : List UInt8) : Clean (parseSnapshots bytes) :=
  clean_parseEntries clean_parseSnapEntry (by decide : 0 < SNAP_ENTRY_FIXED)
    (fun _ _ _ h => (parseSnapEntry_ok h).2) le_rfl

theorem parseDir_ok {bytes : List UInt8} {entries : List DirEntry}
    (h : parseDir bytes = .ok entries) :
    (∀ entry ∈ entries, entry.Fits) ∧ entries.length * DIR_ENTRY_FIXED ≤ bytes.length :=
  parseEntries_ok (fun _ _ _ h => (parseDirEntry_ok h).1) (fun _ _ _ h => (parseDirEntry_ok h).2) h

theorem parseSnapshots_ok {bytes : List UInt8} {entries : List SnapEntry}
    (h : parseSnapshots bytes = .ok entries) :
    (∀ entry ∈ entries, entry.Fits) ∧ entries.length * SNAP_ENTRY_FIXED ≤ bytes.length :=
  parseEntries_ok (fun _ _ _ h => (parseSnapEntry_ok h).1)
    (fun _ _ _ h => (parseSnapEntry_ok h).2) h

/-- A directory is read back in the order it was sorted in. -/
theorem parseDir_serializeDir {entries : List DirEntry} (h : ∀ entry ∈ entries, entry.Fits) :
    parseDir (serializeDir entries) = .ok (sortEntries entries) := by
  refine parseEntries_flatMap (fun _ rest h => parseDirEntry_writeTo h rest)
    DirEntry.writeTo_ne_nil (fun entry hmem => h entry ?_) le_rfl
  exact (List.mem_insertionSort _).mp hmem

/-- A snapshot table is read back in creation order. -/
theorem parseSnapshots_serializeSnapshots {entries : List SnapEntry}
    (h : ∀ entry ∈ entries, entry.Fits) :
    parseSnapshots (serializeSnapshots entries) = .ok entries :=
  parseEntries_flatMap (fun _ rest h => parseSnapEntry_writeTo h rest)
    SnapEntry.writeTo_ne_nil h le_rfl

end Eo9.Eofs
