import Eo9.Kernel.Fdt
import Eo9.Library.Splice
import Mathlib.Data.List.TakeWhile

/-!
# The command line in a device tree

On bytes of any content the walk ends inside the tree and no arithmetic overflows. On the blob of
a well-formed tree it returns the `bootargs` of the child `chosen` of the root.
-/

namespace Eo9.Kernel.Fdt

open Eo9.Library

variable {fdt blob bytes : Bytes} {offset offDtStrings fuel depth n : ℕ} {inChosen board : Bool}

/-- A word is read inside the slice, or the walk ends. -/
theorem be32_spec (fdt : Bytes) (offset : ℕ) :
    be32 fdt offset = Outcome.fail () ∨
      ∃ v, be32 fdt offset = .ok v ∧ v < 2 ^ 32 ∧ offset + 4 ≤ fdt.length := by
  rw [be32, checkedAdd]
  split
  · rw [Outcome.ok_bind, get]
    split
    · next hin =>
      right
      rw [Nat.add_sub_cancel_left, Outcome.ok_bind]
      have hlt := bigEndianValue_lt (sub fdt offset 4)
      rw [length_sub hin.2] at hlt
      exact ⟨_, rfl, hlt, hin.2⟩
    · exact .inl rfl
  · exact .inl rfl

theorem cstr_spec (fdt : Bytes) (offset : ℕ) :
    cstr fdt offset = Outcome.fail () ∨
      ∃ name, cstr fdt offset = .ok name ∧ offset + name.length < fdt.length := by
  rw [cstr]
  split
  · next hin =>
    dsimp only
    split
    · next hzero =>
      right
      refine ⟨_, rfl, ?_⟩
      have hsplit := congrArg List.length
        (List.takeWhile_append_dropWhile (p := fun b => decide (b ≠ 0)) (l := fdt.drop offset))
      have hrest : ((fdt.drop offset).dropWhile fun b => decide (b ≠ 0)) ≠ [] := by
        intro hnil
        have hall := List.dropWhile_eq_nil_iff.mp hnil 0 hzero
        simp at hall
      have hpos := List.length_pos_iff.mpr hrest
      rw [List.length_append, List.length_drop] at hsplit
      omega
    · exact .inl rfl
  · exact .inl rfl

/-- The length of `n` bytes that are padded to words. -/
def padded (n : ℕ) : ℕ := divCeil n 4 * 4

theorem padded_spec (n : ℕ) : n ≤ padded n ∧ padded n < n + 4 := by
  rw [padded, divCeil]
  split
  · omega
  · omega

theorem align4_eq (h : n < 2 ^ 32) : align4 n = .ok (padded n) := by
  have hpadded := (padded_spec n).2
  rw [padded] at hpadded
  exact if_pos (by omega)

theorem add_of_lt {width a b : ℕ} (h : a + b < 2 ^ width) : add width a b = .ok (a + b) := if_pos h

/-- The depth is at most a quarter of the offset, so that it fits. -/
def Cursor.Fits (c : Cursor) : Prop := 4 * c.depth ≤ c.offset

/-- What a round comes to: it ends without a panic, and when it goes on it has read a token and
moved behind it. -/
def Advances (offset : ℕ) (r : Read Turn) : Prop :=
  r.Clean ∧ ∀ c, r = .ok (.next c) → offset ≤ c.offset ∧ c.Fits

theorem Advances.fail : Advances offset (Outcome.fail ()) :=
  ⟨Outcome.clean_fail (), fun c h => by cases h⟩

theorem Advances.next {c : Cursor} (hle : offset ≤ c.offset) (hfits : c.Fits) :
    Advances offset (pure (.next c)) := by
  refine ⟨Outcome.clean_ok _, ?_⟩
  rintro c' ⟨⟩
  exact ⟨hle, hfits⟩

theorem beginNode_advances {c : Cursor} (hlen : fdt.length < 2 ^ 31)
    (hdepth : 4 * c.depth + 4 ≤ c.offset) : Advances c.offset (beginNode fdt c) := by
  rw [beginNode]
  obtain hname | ⟨name, hname, hend⟩ := cstr_spec fdt c.offset
  · rw [hname]
    exact Advances.fail
  obtain ⟨hle, hlt⟩ := padded_spec (name.length + 1)
  rw [hname, Outcome.ok_bind, add_of_lt (by omega), Outcome.ok_bind, align4_eq (by omega),
    Outcome.ok_bind, add_of_lt (by omega), Outcome.ok_bind, add_of_lt (by omega), Outcome.ok_bind]
  apply Advances.next
  · dsimp only
    omega
  · rw [Cursor.Fits]
    dsimp only
    omega

theorem endNode_advances {c : Cursor} (hfits : c.Fits) :
    Advances c.offset (endNode c) := by
  rw [endNode]
  split
  · exact Advances.fail
  split
  · exact Advances.fail
  apply Advances.next (Nat.le_refl _)
  rw [Cursor.Fits] at hfits ⊢
  dsimp only
  omega

theorem property_advances {c : Cursor} (hlen : fdt.length < 2 ^ 31)
    (hstrings : offDtStrings < 2 ^ 32) (hfits : c.Fits) :
    Advances c.offset (property fdt offDtStrings c) := by
  rw [property]
  obtain hsize | ⟨len, hsize, hlt, hin⟩ := be32_spec fdt c.offset
  · rw [hsize]
    exact Advances.fail
  rw [hsize, Outcome.ok_bind, add_of_lt (by omega), Outcome.ok_bind]
  obtain hname | ⟨nameOff, hname, hltName, hinName⟩ := be32_spec fdt (c.offset + 4)
  · rw [hname]
    exact Advances.fail
  obtain ⟨hle, hltSize⟩ := padded_spec len
  rw [hname, Outcome.ok_bind, add_of_lt (by omega), Outcome.ok_bind, checkedAdd, if_pos (by omega),
    Outcome.ok_bind, get]
  split
  swap
  · exact Advances.fail
  rw [Outcome.ok_bind, align4_eq hlt, Outcome.ok_bind, add_of_lt (by omega), Outcome.ok_bind]
  have hnext : Advances c.offset
      (pure (.next { c with offset := c.offset + 8 + padded len })) := by
    apply Advances.next
    · dsimp only
      omega
    · rw [Cursor.Fits] at hfits ⊢
      dsimp only
      omega
  split
  swap
  · exact hnext
  rw [add_of_lt (by omega), Outcome.ok_bind]
  obtain hstring | ⟨name, hstring, -⟩ := cstr_spec fdt (offDtStrings + nameOff)
  · rw [hstring]
    exact Advances.fail
  rw [hstring, Outcome.ok_bind]
  split
  swap
  · exact hnext
  rw [text]
  split
  · refine ⟨Outcome.clean_ok _, ?_⟩
    rintro c' ⟨⟩
  · exact Advances.fail

/-- A round reads a token inside the slice or ends the walk. -/
theorem turn_spec {c : Cursor} (hlen : fdt.length < 2 ^ 31) (hstrings : offDtStrings < 2 ^ 32)
    (hfits : c.Fits) :
    turn fdt offDtStrings c = Outcome.fail () ∨
      c.offset + 4 ≤ fdt.length ∧ Advances (c.offset + 4) (turn fdt offDtStrings c) := by
  rw [turn]
  obtain htoken | ⟨token, htoken, -, hin⟩ := be32_spec fdt c.offset
  · rw [htoken]
    exact .inl rfl
  right
  refine ⟨hin, ?_⟩
  rw [htoken, Outcome.ok_bind, add_of_lt (by omega), Outcome.ok_bind]
  rw [Cursor.Fits] at hfits
  have hmoved : Cursor.Fits { c with offset := c.offset + 4 } := by
    rw [Cursor.Fits]
    dsimp only
    omega
  split
  · exact beginNode_advances hlen (by dsimp only; omega)
  split
  · exact endNode_advances hmoved
  split
  · exact property_advances hlen hstrings hmoved
  split
  · exact Advances.next (Nat.le_refl _) hmoved
  · exact Advances.fail

/-- The walk ends, and nothing in it overflows. -/
theorem clean_walk {c : Cursor} (hlen : fdt.length < 2 ^ 31) (hstrings : offDtStrings < 2 ^ 32)
    (hfits : c.Fits) (hfuel : fdt.length - c.offset < fuel) :
    (walk fdt offDtStrings fuel c).Clean := by
  induction fuel generalizing c with
  | zero => exact absurd hfuel (Nat.not_lt_zero _)
  | succ fuel ih =>
    rw [walk]
    obtain hturn | ⟨hin, hclean, hnext⟩ := turn_spec hlen hstrings hfits
    · rw [hturn]
      exact Outcome.clean_fail ()
    refine Outcome.clean_bind.mpr ⟨hclean, ?_⟩
    intro r hr
    cases r with
    | next c' =>
      obtain ⟨hle, hfits'⟩ := hnext c' hr
      exact ih hfits' (by omega)
    | found value => exact Outcome.clean_ok value

/-- Fuel for the bytes that are left is as good as any more. -/
theorem walk_fuel {c : Cursor} {fuel' : ℕ} (hlen : fdt.length < 2 ^ 31)
    (hstrings : offDtStrings < 2 ^ 32) (hfits : c.Fits) (hfuel : fdt.length - c.offset < fuel)
    (hfuel' : fdt.length - c.offset < fuel') :
    walk fdt offDtStrings fuel c = walk fdt offDtStrings fuel' c := by
  induction fuel generalizing fuel' c with
  | zero => exact absurd hfuel (Nat.not_lt_zero _)
  | succ fuel ih =>
    obtain ⟨fuel', rfl⟩ := Nat.exists_eq_succ_of_ne_zero (Nat.ne_zero_of_lt hfuel')
    rw [walk, walk]
    obtain hturn | ⟨hin, -, hnext⟩ := turn_spec hlen hstrings hfits
    · rw [hturn]
      rfl
    cases hturn : turn fdt offDtStrings c with
    | error e => rfl
    | ok r =>
      rw [Outcome.ok_bind, Outcome.ok_bind]
      cases r with
      | next c' =>
        obtain ⟨hle, hfits'⟩ := hnext c' hturn
        exact ih hfits' (by omega) (by omega)
      | found value => rfl

/-- A header with the magic and a believable total size. -/
structure Header (board : Bool) (blob : Bytes) (totalsize : ℕ) : Prop where
  magic : Placed blob 0 (bigEndian 4 FDT_MAGIC)
  placed : Placed blob 4 (bigEndian 4 totalsize)
  least : FDT_HEADER_LEN ≤ totalsize
  most : totalsize ≤ MAX_FDT_SIZE board

theorem lt_of_le_max (h : n ≤ MAX_FDT_SIZE board) : n < 2 ^ 31 := by
  rw [MAX_FDT_SIZE] at h
  split at h
  · omega
  · omega

theorem be32_placed (hplaced : Placed fdt offset (bigEndian 4 n)) (hn : n < 2 ^ 32)
    (hlen : fdt.length < 2 ^ 32) : be32 fdt offset = .ok n := by
  have hend := hplaced.le_length (by simp [← List.length_pos_iff])
  rw [length_bigEndian] at hend
  have hsub : sub fdt offset (offset + 4 - offset) = bigEndian 4 n :=
    hplaced.sub_eq (by rw [length_bigEndian]; omega)
  rw [be32, checkedAdd, if_pos (by omega), Outcome.ok_bind, get,
    if_pos ⟨by omega, hend⟩, Outcome.ok_bind, hsub, bigEndianValue_bigEndian hn]
  rfl

/-- A word that lies in the first part of a slice. -/
theorem be32_take (h : offset + 4 ≤ n) (hn : n ≤ blob.length) :
    be32 (blob.take n) offset = be32 blob offset := by
  have hsub : sub (blob.take n) offset 4 = sub blob offset 4 := by
    rw [sub, sub, List.drop_take, List.take_take, Nat.min_eq_left (by omega)]
  rw [be32, be32, checkedAdd]
  split
  · rw [Outcome.ok_bind, Outcome.ok_bind, get, get, Nat.add_sub_cancel_left, hsub,
      if_pos ⟨by omega, by rw [List.length_take]; omega⟩, if_pos ⟨by omega, by omega⟩]
  · rfl

/-- The reader on a blob, in front of whatever else the memory holds. -/
theorem bootargsAt_eq {dtb : ℕ} (hheader : Header board blob blob.length) (more : Bytes)
    (hdtb : ¬ (dtb = 0 ∨ dtb % 4 ≠ 0)) :
    bootargsAt board dtb (blob ++ more) = (do
      let offDtStruct ← be32 blob 8
      let offDtStrings ← be32 blob 12
      walk blob offDtStrings (blob.length + 1) ⟨offDtStruct, 0, false⟩) := by
  have hleast : 40 ≤ blob.length := hheader.least
  have hlt := lt_of_le_max hheader.most
  have hparts : ∀ n ≤ blob.length, rawParts (blob ++ more) n = .ok (blob.take n) := by
    intro n hn
    rw [rawParts, if_pos (by rw [List.length_append]; omega), List.take_append_of_le_length hn]
  rw [bootargsAt, if_neg hdtb, FDT_HEADER_LEN, hparts 40 hleast, Outcome.ok_bind,
    be32_take (by omega) hleast, be32_placed hheader.magic (by decide) (by omega), Outcome.ok_bind,
    if_neg (not_not_intro rfl), be32_take (by omega) hleast,
    be32_placed hheader.placed (by omega) (by omega), Outcome.ok_bind,
    if_neg (not_not_intro ⟨hleast, hheader.most⟩), be32_take (by omega) hleast,
    be32_take (by omega) hleast]
  simp only [hparts blob.length (Nat.le_refl _), Outcome.ok_bind, List.take_length]

/-- Whatever is behind the tree, the reader does not see it, and it ends without a panic. -/
theorem bootargsAt_clean (dtb : ℕ) (hheader : Header board blob blob.length) (more : Bytes) :
    (bootargsAt board dtb (blob ++ more)).Clean ∧
      bootargsAt board dtb (blob ++ more) = bootargsAt board dtb blob := by
  by_cases hdtb : dtb = 0 ∨ dtb % 4 ≠ 0
  · rw [bootargsAt, if_pos hdtb, bootargsAt, if_pos hdtb]
    exact ⟨Outcome.clean_fail (), rfl⟩
  have hblob := bootargsAt_eq hheader [] hdtb
  rw [List.append_nil] at hblob
  rw [bootargsAt_eq hheader more hdtb, hblob]
  refine ⟨?_, rfl⟩
  obtain hstruct | ⟨offDtStruct, hstruct, -, -⟩ := be32_spec blob 8
  · rw [hstruct]
    exact Outcome.clean_fail ()
  obtain hstrings | ⟨offDtStrings, hstrings, hlt, -⟩ := be32_spec blob 12
  · rw [hstruct, hstrings]
    exact Outcome.clean_fail ()
  rw [hstruct, hstrings, Outcome.ok_bind, Outcome.ok_bind]
  exact clean_walk (lt_of_le_max hheader.most) hlt (Nat.zero_le _) (by dsimp only; omega)

structure Property where
  /-- How many NOP tokens stand before it. -/
  nops : ℕ
  name : Bytes
  nameOff : ℕ
  value : Bytes

/-- The nodes under one node: the first one, what is under it, and the rest. -/
inductive Forest where
  | nil
  | node (nops : ℕ) (name : Bytes) (props : List Property) (children : Forest) (nopsBehind : ℕ)
      (rest : Forest)

/-- A device tree: its root, and the NOP tokens behind it. -/
structure Tree where
  nops : ℕ
  name : Bytes
  props : List Property
  children : Forest
  nopsBehind : ℕ
  ending : ℕ

def token (t : ℕ) : Bytes := bigEndian 4 t

def nopTokens (n : ℕ) : Bytes := (List.replicate n (token FDT_NOP)).flatten

def pad (bytes : Bytes) : Bytes := bytes ++ List.replicate (padded bytes.length - bytes.length) 0

def Property.encode (p : Property) : Bytes :=
  nopTokens p.nops ++ (token FDT_PROP ++
    (bigEndian 4 p.value.length ++ (bigEndian 4 p.nameOff ++ pad p.value)))

/-- What opens a node. -/
def opening (nops : ℕ) (name : Bytes) : Bytes :=
  nopTokens nops ++ (token FDT_BEGIN_NODE ++ pad (name ++ [0]))

/-- What closes a node. -/
def closing (nops : ℕ) : Bytes := nopTokens nops ++ token FDT_END_NODE

def Forest.encode : Forest → Bytes
  | nil => []
  | node nops name props children nopsBehind rest =>
    opening nops name ++ (props.flatMap Property.encode ++ (children.encode ++
      (closing nopsBehind ++ rest.encode)))

/-- The structure block of a tree. -/
def Tree.encode (tree : Tree) : Bytes :=
  (Forest.node tree.nops tree.name tree.props tree.children tree.nopsBehind .nil).encode ++
    (nopTokens tree.ending ++ token FDT_END)

def Forest.isNil : Forest → Bool
  | nil => true
  | node .. => false

/-- The nodes right under a node, with their properties. -/
def Forest.roots : Forest → List (Bytes × List Property)
  | nil => []
  | node _ name props _ _ rest => (name, props) :: rest.roots

/-- The names of the properties stand in the strings block, and differ. -/
structure WellNamed (fdt : Bytes) (offDtStrings : ℕ) (props : List Property) : Prop where
  placed : ∀ p ∈ props, Placed fdt (offDtStrings + p.nameOff) (p.name ++ [0])
  terminated : ∀ p ∈ props, 0 ∉ p.name
  distinct : (props.map Property.name).Nodup

/-- The names in a forest are strings, and the nodes under one node differ in them. -/
def Forest.WellFormed (fdt : Bytes) (offDtStrings : ℕ) : Forest → Prop
  | nil => True
  | node _ name props children _ rest =>
    0 ∉ name ∧ WellNamed fdt offDtStrings props ∧ name ∉ rest.roots.map Prod.fst ∧
      children.WellFormed fdt offDtStrings ∧ rest.WellFormed fdt offDtStrings

/-- The blob of a tree: its blocks are anywhere in it. -/
structure Layout (blob : Bytes) (tree : Tree) : Prop where
  offsets : ∃ offDtStruct offDtStrings, offDtStrings ≤ blob.length ∧
    Placed blob 8 (bigEndian 4 offDtStruct) ∧ Placed blob 12 (bigEndian 4 offDtStrings) ∧
    Placed blob offDtStruct tree.encode ∧ 0 ∉ tree.name ∧
    WellNamed blob offDtStrings tree.props ∧ tree.children.WellFormed blob offDtStrings

/-- A value without its terminator. -/
def Unterminated (value s : Bytes) : Prop :=
  value = s ++ [0] ∨ value = s ∧ s.getLast? ≠ some 0

/-- The command line of a tree: the `bootargs` of the child `chosen` of its root. -/
def Tree.Bootargs (tree : Tree) (s : Bytes) : Prop :=
  ∃ props, (chosen, props) ∈ tree.children.roots ∧
    ∃ p ∈ props, p.name = bootargs ∧ Unterminated p.value s ∧ Utf8.Valid s

/-- The walk with enough fuel for the whole slice. -/
abbrev walkFrom (fdt : Bytes) (offDtStrings offset depth : ℕ) (inChosen : Bool) : Read Bytes :=
  walk fdt offDtStrings (fdt.length + 1) ⟨offset, depth, inChosen⟩

theorem length_pad (bytes : Bytes) : (pad bytes).length = padded bytes.length := by
  have hle := (padded_spec bytes.length).1
  rw [pad, List.length_append, List.length_replicate]
  omega

/-- What a property takes up. -/
theorem Property.length_encode (p : Property) :
    p.encode.length = (nopTokens p.nops).length + 12 + padded p.value.length := by
  simp only [Property.encode, List.length_append, token, length_bigEndian, length_pad]
  omega

/-- The parts of a property stand one behind the other. -/
theorem placed_property {p : Property} : Placed fdt offset p.encode ↔
    Placed fdt offset (nopTokens p.nops) ∧
      Placed fdt (offset + (nopTokens p.nops).length) (token FDT_PROP) ∧
      Placed fdt (offset + (nopTokens p.nops).length + 4) (bigEndian 4 p.value.length) ∧
      Placed fdt (offset + (nopTokens p.nops).length + 8) (bigEndian 4 p.nameOff) ∧
      Placed fdt (offset + (nopTokens p.nops).length + 12) (pad p.value) := by
  simp only [Property.encode, placed_append, token, length_bigEndian, Nat.add_assoc]

theorem length_opening (nops : ℕ) (name : Bytes) :
    (opening nops name).length = (nopTokens nops).length + 4 + padded (name.length + 1) := by
  simp only [opening, List.length_append, token, length_bigEndian, length_pad,
    List.length_singleton]
  omega

theorem length_closing (nops : ℕ) : (closing nops).length = (nopTokens nops).length + 4 := by
  rw [closing, List.length_append, token, length_bigEndian]

theorem WellNamed.each {props : List Property} (h : WellNamed fdt offDtStrings props) :
    ∀ p ∈ props, Placed fdt (offDtStrings + p.nameOff) (p.name ++ [0]) ∧ 0 ∉ p.name :=
  fun p hp => ⟨h.placed p hp, h.terminated p hp⟩

section Tokens

variable (hlen : fdt.length < 2 ^ 31) (hstrings : offDtStrings ≤ fdt.length)
include hlen

theorem turn_token (offDtStrings depth : ℕ) (inChosen : Bool) {t : ℕ} (ht : t < 2 ^ 32) (hplaced : Placed fdt offset (token t)) :
    turn fdt offDtStrings ⟨offset, depth, inChosen⟩ =
      if t = FDT_BEGIN_NODE then beginNode fdt ⟨offset + 4, depth, inChosen⟩
      else if t = FDT_END_NODE then endNode ⟨offset + 4, depth, inChosen⟩
      else if t = FDT_PROP then property fdt offDtStrings ⟨offset + 4, depth, inChosen⟩
      else if t = FDT_NOP then pure (.next ⟨offset + 4, depth, inChosen⟩)
      else Outcome.fail () := by
  have hend := hplaced.le_length (by simp [token, ← List.length_pos_iff])
  rw [token, length_bigEndian] at hend
  rw [turn, be32_placed hplaced ht (by omega), Outcome.ok_bind, add_of_lt (by dsimp only; omega),
    Outcome.ok_bind]

theorem cstr_placed {name : Bytes} (hplaced : Placed fdt offset (name ++ [0])) (hname : 0 ∉ name) :
    cstr fdt offset = .ok name := by
  obtain ⟨rest, hrest⟩ := hplaced
  have hend : offset ≤ fdt.length := by
    by_contra hnot
    rw [List.drop_eq_nil_of_le (Nat.le_of_not_le hnot), List.append_assoc] at hrest
    exact absurd hrest (by simp)
  have htake : (fdt.drop offset).takeWhile (· ≠ 0) = name := by
    rw [← hrest, List.append_assoc, List.takeWhile_append_of_pos]
    · simp
    · intro b hb
      apply decide_eq_true
      rintro rfl
      exact hname hb
  have hzero : 0 ∈ fdt.drop offset := by
    rw [← hrest]
    simp
  rw [cstr, if_pos hend]
  dsimp only
  rw [if_pos hzero, htake]

/-- The token that opens a node. -/
theorem turn_begin (offDtStrings : ℕ) (inChosen : Bool) {name : Bytes} (hname : 0 ∉ name) (hfits : 4 * depth ≤ offset)
    (hplaced : Placed fdt offset (token FDT_BEGIN_NODE ++ pad (name ++ [0]))) :
    turn fdt offDtStrings ⟨offset, depth, inChosen⟩ =
      .ok (.next ⟨offset + 4 + padded (name.length + 1), depth + 1,
        depth + 1 = 2 && name = chosen⟩) := by
  have hend := hplaced.le_length (by simp [pad])
  rw [List.length_append, length_pad, token, length_bigEndian, List.length_append] at hend
  rw [placed_append, pad, placed_append] at hplaced
  obtain ⟨htoken, hstring, -⟩ := hplaced
  have hlt := (padded_spec (name.length + 1))
  rw [List.length_singleton] at hend
  rw [token, length_bigEndian] at hstring
  rw [turn_token hlen _ _ _ (by decide) htoken, if_pos rfl, beginNode, cstr_placed hlen hstring hname,
    Outcome.ok_bind, add_of_lt (by omega), Outcome.ok_bind, align4_eq (by omega), Outcome.ok_bind,
    add_of_lt (by dsimp only; omega), Outcome.ok_bind, add_of_lt (by dsimp only; omega),
    Outcome.ok_bind]
  rfl

theorem turn_end (offDtStrings depth : ℕ) (hplaced : Placed fdt offset (token FDT_END_NODE)) :
    turn fdt offDtStrings ⟨offset, depth + 1, false⟩ = .ok (.next ⟨offset + 4, depth, false⟩) := by
  rw [turn_token hlen _ _ _ (by decide) hplaced]
  rfl

/-- The token that closes `chosen`. -/
theorem turn_end_chosen (offDtStrings depth : ℕ) (hplaced : Placed fdt offset (token FDT_END_NODE)) :
    turn fdt offDtStrings ⟨offset, depth, true⟩ = Outcome.fail () := by
  rw [turn_token hlen _ _ _ (by decide) hplaced]
  rfl

include hstrings

/-- A round that goes on. -/
theorem walkFrom_next {c : Cursor} (hfits : 4 * depth ≤ offset)
    (hturn : turn fdt offDtStrings ⟨offset, depth, inChosen⟩ = .ok (.next c)) :
    walkFrom fdt offDtStrings offset depth inChosen =
      walkFrom fdt offDtStrings c.offset c.depth c.inChosen := by
  have hlt : offDtStrings < 2 ^ 32 := by omega
  have hfits : Cursor.Fits ⟨offset, depth, inChosen⟩ := hfits
  rw [walkFrom, walk, hturn, Outcome.ok_bind]
  obtain hfail | ⟨hin, -, hnext⟩ := turn_spec hlen hlt hfits
  · rw [hturn] at hfail
    cases hfail
  obtain ⟨hle, hfits'⟩ := hnext c hturn
  dsimp only at hin hle
  exact walk_fuel hlen hlt hfits' (by omega) (by omega)

theorem walkFrom_nops (hfits : 4 * depth ≤ offset) (hplaced : Placed fdt offset (nopTokens n)) :
    walkFrom fdt offDtStrings offset depth inChosen =
      walkFrom fdt offDtStrings (offset + (nopTokens n).length) depth inChosen := by
  induction n generalizing offset with
  | zero => rfl
  | succ n ih =>
    have hcons : nopTokens (n + 1) = token FDT_NOP ++ nopTokens n := by
      rw [nopTokens, nopTokens, List.replicate_succ, List.flatten_cons]
    rw [hcons, placed_append] at hplaced
    have hturn : turn fdt offDtStrings ⟨offset, depth, inChosen⟩ =
        .ok (.next ⟨offset + 4, depth, inChosen⟩) := by
      rw [turn_token hlen _ _ _ (by decide) hplaced.1]
      rfl
    have hlength : (token FDT_NOP).length = 4 := rfl
    rw [walkFrom_next hlen hstrings hfits hturn, hcons, List.length_append, ← Nat.add_assoc,
      hlength]
    exact ih (by dsimp only; omega) (by rw [← hlength]; exact hplaced.2)

/-- A property that stands behind its token. -/
theorem property_placed {p : Property} (hsize : Placed fdt offset (bigEndian 4 p.value.length))
    (hnameOff : Placed fdt (offset + 4) (bigEndian 4 p.nameOff))
    (hvalue : Placed fdt (offset + 8) (pad p.value)) (hend : offset + 8 + padded p.value.length ≤ fdt.length)
    (hname : Placed fdt (offDtStrings + p.nameOff) (p.name ++ [0])) (hzero : 0 ∉ p.name) :
    property fdt offDtStrings ⟨offset, depth, inChosen⟩ =
      if inChosen = true ∧ p.name = bootargs then do
        let value ← text p.value
        pure (.found value)
      else pure (.next ⟨offset + 8 + padded p.value.length, depth, inChosen⟩) := by
  have hnameEnd := hname.le_length (by simp)
  rw [List.length_append, List.length_singleton] at hnameEnd
  have hpadded := padded_spec p.value.length
  rw [pad, placed_append] at hvalue
  have hsub : sub fdt (offset + 8) (offset + 8 + p.value.length - (offset + 8)) = p.value :=
    hvalue.1.sub_eq (by omega)
  rw [property, be32_placed hsize (by omega) (by omega), Outcome.ok_bind,
    add_of_lt (by dsimp only; omega), Outcome.ok_bind, be32_placed hnameOff (by omega) (by omega),
    Outcome.ok_bind, add_of_lt (by dsimp only; omega), Outcome.ok_bind]
  dsimp only
  rw [checkedAdd, if_pos (by omega), Outcome.ok_bind, get, if_pos ⟨by omega, by omega⟩,
    Outcome.ok_bind, align4_eq (by omega), Outcome.ok_bind, add_of_lt (by omega), Outcome.ok_bind,
    add_of_lt (by omega), Outcome.ok_bind, cstr_placed hlen hname hzero, Outcome.ok_bind, hsub]
  cases inChosen with
  | false => rfl
  | true => simp

/-- A property: under `chosen` the one that is looked for ends the walk. -/
theorem walkFrom_property {p : Property} (hfits : 4 * depth ≤ offset)
    (hplaced : Placed fdt offset p.encode)
    (hname : Placed fdt (offDtStrings + p.nameOff) (p.name ++ [0])) (hzero : 0 ∉ p.name) :
    walkFrom fdt offDtStrings offset depth inChosen =
      if inChosen = true ∧ p.name = bootargs then text p.value
      else walkFrom fdt offDtStrings (offset + p.encode.length) depth inChosen := by
  have hend := hplaced.le_length (by
    apply List.ne_nil_of_length_pos
    rw [Property.length_encode]
    omega)
  rw [Property.length_encode] at hend
  obtain ⟨hnops, htoken, hsize, hnameOff, hvalue⟩ := placed_property.mp hplaced
  rw [walkFrom_nops hlen hstrings hfits hnops, Property.length_encode]
  generalize hstart : offset + (nopTokens p.nops).length = start at htoken hsize hnameOff hvalue ⊢
  have hturn := (turn_token hlen offDtStrings depth inChosen (by decide) htoken).trans
      (property_placed hlen hstrings hsize hnameOff hvalue (by omega) hname hzero)
  split
  · next hfound =>
    rw [if_pos hfound] at hturn
    rw [walkFrom, walk, hturn]
    cases text p.value with
    | ok value => rfl
    | error e => rfl
  · next hnot =>
    rw [if_neg hnot] at hturn
    have hoffset : start + 4 + 8 + padded p.value.length =
        offset + ((nopTokens p.nops).length + 12 + padded p.value.length) := by omega
    rw [walkFrom_next hlen hstrings (by omega) hturn, ← hoffset]

/-- The properties of a node that is not `chosen`, or has no command line, are passed. -/
theorem walkFrom_properties {props : List Property} (hfits : 4 * depth ≤ offset)
    (hplaced : Placed fdt offset (props.flatMap Property.encode))
    (hnamed : ∀ p ∈ props, Placed fdt (offDtStrings + p.nameOff) (p.name ++ [0]) ∧ 0 ∉ p.name)
    (hnone : inChosen = true → ∀ p ∈ props, p.name ≠ bootargs) :
    walkFrom fdt offDtStrings offset depth inChosen =
      walkFrom fdt offDtStrings (offset + (props.flatMap Property.encode).length) depth inChosen := by
  induction props generalizing offset with
  | nil => rfl
  | cons p props ih =>
    rw [List.flatMap_cons, placed_append] at hplaced
    obtain ⟨hfirst, hrest⟩ := List.forall_mem_cons.mp hnamed
    have hnot : ¬ (inChosen = true ∧ p.name = bootargs) :=
      fun h => hnone h.1 p List.mem_cons_self h.2
    rw [walkFrom_property hlen hstrings hfits hplaced.1 hfirst.1 hfirst.2, if_neg hnot,
      ih (by omega) hplaced.2 hrest fun h p hp => hnone h p (List.mem_cons_of_mem _ hp),
      List.flatMap_cons, List.length_append, ← Nat.add_assoc]

/-- The properties of `chosen`: the first command line ends the walk. -/
theorem walkFrom_bootargs {props : List Property} {p : Property} (hfits : 4 * depth ≤ offset)
    (hplaced : Placed fdt offset (props.flatMap Property.encode))
    (hnamed : ∀ p ∈ props, Placed fdt (offDtStrings + p.nameOff) (p.name ++ [0]) ∧ 0 ∉ p.name)
    (hdistinct : (props.map Property.name).Nodup) (hp : p ∈ props) (hname : p.name = bootargs) :
    walkFrom fdt offDtStrings offset depth true = text p.value := by
  induction props generalizing offset with
  | nil => cases hp
  | cons p' props ih =>
    rw [List.flatMap_cons, placed_append] at hplaced
    obtain ⟨hfirst, hrest⟩ := List.forall_mem_cons.mp hnamed
    rw [List.map_cons, List.nodup_cons] at hdistinct
    rw [walkFrom_property hlen hstrings hfits hplaced.1 hfirst.1 hfirst.2]
    obtain rfl | hp := List.mem_cons.mp hp
    · rw [if_pos ⟨rfl, hname⟩]
    · have hne : p'.name ≠ bootargs := by
        intro h
        apply hdistinct.1
        rw [h, ← hname]
        exact List.mem_map_of_mem hp
      rw [if_neg fun h => hne h.2]
      exact ih (by omega) hplaced.2 hrest hdistinct.2 hp

theorem walkFrom_opening {nops : ℕ} {name : Bytes} (hfits : 4 * depth ≤ offset) (hname : 0 ∉ name)
    (hplaced : Placed fdt offset (opening nops name)) :
    walkFrom fdt offDtStrings offset depth inChosen =
      walkFrom fdt offDtStrings (offset + (opening nops name).length) (depth + 1)
        (depth + 1 = 2 && name = chosen) := by
  rw [opening, placed_append] at hplaced
  have hturn := turn_begin hlen offDtStrings inChosen hname
    (Nat.le_trans hfits (Nat.le_add_right offset _)) hplaced.2
  rw [walkFrom_nops hlen hstrings hfits hplaced.1, walkFrom_next hlen hstrings (by omega) hturn,
    length_opening, Nat.add_assoc, Nat.add_assoc, ← Nat.add_assoc _ 4]

theorem walkFrom_closing {nops : ℕ} (hfits : 4 * (depth + 1) ≤ offset)
    (hplaced : Placed fdt offset (closing nops)) :
    walkFrom fdt offDtStrings offset (depth + 1) false =
      walkFrom fdt offDtStrings (offset + (closing nops).length) depth false := by
  rw [closing, placed_append] at hplaced
  have hturn := turn_end hlen offDtStrings depth hplaced.2
  rw [walkFrom_nops hlen hstrings hfits hplaced.1, walkFrom_next hlen hstrings (by omega) hturn,
    length_closing, Nat.add_assoc]

/-- Behind `chosen` the walk ends. -/
theorem walkFrom_closing_chosen {nops : ℕ} (hfits : 4 * depth ≤ offset)
    (hplaced : Placed fdt offset (closing nops)) :
    walkFrom fdt offDtStrings offset depth true = Outcome.fail () := by
  rw [closing, placed_append] at hplaced
  have hturn := turn_end_chosen hlen offDtStrings depth hplaced.2
  rw [walkFrom_nops hlen hstrings hfits hplaced.1, walkFrom, walk, hturn]
  rfl

/-- At the end of the structure block the walk ends. -/
theorem walkFrom_ending {nops : ℕ} (hfits : 4 * depth ≤ offset)
    (hnops : Placed fdt offset (nopTokens nops))
    (hplaced : Placed fdt (offset + (nopTokens nops).length) (token FDT_END)) :
    walkFrom fdt offDtStrings offset depth inChosen = Outcome.fail () := by
  have hturn := turn_token hlen offDtStrings depth inChosen (by decide) hplaced
  rw [walkFrom_nops hlen hstrings hfits hnops, walkFrom, walk, hturn]
  rfl

/-- A node whose children are passed, and which has no command line to stop at. -/
theorem walkFrom_node (inChosen : Bool) {nops nopsBehind : ℕ} {name : Bytes} {props : List Property}
    {children rest : Forest} (hfits : 4 * depth ≤ offset)
    (hplaced : Placed fdt offset (Forest.node nops name props children nopsBehind rest).encode)
    (hname : 0 ∉ name)
    (hnamed : ∀ p ∈ props, Placed fdt (offDtStrings + p.nameOff) (p.name ++ [0]) ∧ 0 ∉ p.name)
    (hnone : depth = 1 → name = chosen → ∀ p ∈ props, p.name ≠ bootargs)
    (hchildren : ∀ offset inChosen, 4 * (depth + 1) ≤ offset → Placed fdt offset children.encode →
      walkFrom fdt offDtStrings offset (depth + 1) inChosen =
        walkFrom fdt offDtStrings (offset + children.encode.length) (depth + 1)
          (inChosen && children.isNil)) :
    ∃ behind, 4 * depth ≤ behind ∧ Placed fdt behind rest.encode ∧
      behind + rest.encode.length =
        offset + (Forest.node nops name props children nopsBehind rest).encode.length ∧
      (walkFrom fdt offDtStrings offset depth inChosen = walkFrom fdt offDtStrings behind depth false ∨
        depth = 1 ∧ name = chosen ∧
          walkFrom fdt offDtStrings offset depth inChosen = Outcome.fail ()) := by
  simp only [Forest.encode, placed_append] at hplaced
  obtain ⟨hopening, hprops, hinner, hclosing, hrest⟩ := hplaced
  have hopened := length_opening nops name
  have hpadded := padded_spec (name.length + 1)
  have hclosed := length_closing nopsBehind
  refine ⟨_, ?_, hrest, ?_, ?_⟩
  · omega
  · simp only [Forest.encode, List.length_append]
    omega
  rw [walkFrom_opening hlen hstrings hfits hname hopening]
  rw [walkFrom_properties hlen hstrings (by omega) hprops hnamed ?_,
    hchildren _ _ (by omega) hinner]
  · generalize hb : ((depth + 1 = 2 && name = chosen : Bool) && children.isNil) = b
    cases b with
    | false =>
      left
      rw [walkFrom_closing hlen hstrings (by omega) hclosing]
    | true =>
      right
      simp only [Bool.and_eq_true, decide_eq_true_eq] at hb
      exact ⟨by omega, hb.1.2, walkFrom_closing_chosen hlen hstrings (by omega) hclosing⟩
  · intro hb
    simp only [Bool.and_eq_true, decide_eq_true_eq] at hb
    exact hnone (by omega) hb.2

/-- A forest under a node that is not the root is passed, and `chosen` is left by the first node
in it. -/
theorem walkFrom_deep {forest : Forest} (hdepth : 2 ≤ depth) (hfits : 4 * depth ≤ offset)
    (hplaced : Placed fdt offset forest.encode) (hwf : forest.WellFormed fdt offDtStrings) :
    walkFrom fdt offDtStrings offset depth inChosen =
      walkFrom fdt offDtStrings (offset + forest.encode.length) depth
        (inChosen && forest.isNil) := by
  induction forest generalizing offset depth inChosen with
  | nil => rw [Forest.isNil, Bool.and_true]; rfl
  | node nops name props children nopsBehind rest ihChildren ihRest =>
    obtain ⟨hname, hprops, -, hchildren, hrest⟩ := hwf
    obtain ⟨behind, hbehind, hplacedRest, hend, hwalk | ⟨hone, -⟩⟩ :=
      walkFrom_node hlen hstrings inChosen hfits hplaced hname hprops.each
        (fun hone => absurd hone (by omega))
        (fun offset inChosen hfits hplaced =>
          ihChildren (by omega) hfits hplaced hchildren)
    · rw [hwalk, ihRest hdepth hbehind hplacedRest hrest, hend, Bool.false_and, Forest.isNil,
        Bool.and_false]
    · omega

/-- The nodes under the root, up to a command line of `chosen`. -/
theorem walkFrom_children {forest : Forest} (hfits : 4 ≤ offset)
    (hplaced : Placed fdt offset forest.encode) (hwf : forest.WellFormed fdt offDtStrings) :
    (∀ props p, (chosen, props) ∈ forest.roots → p ∈ props → p.name = bootargs →
      walkFrom fdt offDtStrings offset 1 false = text p.value) ∧
    ((∀ props, (chosen, props) ∈ forest.roots → ∀ p ∈ props, p.name ≠ bootargs) →
      walkFrom fdt offDtStrings offset 1 false = Outcome.fail () ∨
        walkFrom fdt offDtStrings offset 1 false =
          walkFrom fdt offDtStrings (offset + forest.encode.length) 1 false) := by
  induction forest generalizing offset with
  | nil => exact ⟨fun props p hmem => (by cases hmem), fun _ => .inr rfl⟩
  | node nops name props children nopsBehind rest ihChildren ihRest =>
    obtain ⟨hname, hprops, hunique, hchildren, hrest⟩ := hwf
    have hnode := fun hnone =>
      walkFrom_node hlen hstrings false (show 4 * 1 ≤ offset from hfits) hplaced hname
        hprops.each hnone (fun offset inChosen hfits hplaced =>
          walkFrom_deep hlen hstrings (by decide) hfits hplaced hchildren)
    constructor
    · intro props' p hmem hp hpname
      rw [Forest.roots, List.mem_cons] at hmem
      obtain heq | hmem := hmem
      · -- the node is `chosen`
        cases heq
        simp only [Forest.encode, placed_append] at hplaced
        have hopened := length_opening nops chosen
        have hpadded := padded_spec (chosen.length + 1)
        rw [walkFrom_opening hlen hstrings hfits hname hplaced.1]
        exact walkFrom_bootargs hlen hstrings (by omega) hplaced.2.1 hprops.each hprops.distinct
          hp hpname
      · have hother : name ≠ chosen := by
          rintro rfl
          exact hunique (List.mem_map_of_mem (f := Prod.fst) hmem)
        obtain ⟨behind, hbehind, hplacedRest, -, hwalk | ⟨-, hchosen, -⟩⟩ :=
          hnode fun _ h => absurd h hother
        · rw [hwalk]
          exact (ihRest hbehind hplacedRest hrest).1 props' p hmem hp hpname
        · exact absurd hchosen hother
    · intro hnone
      obtain ⟨behind, hbehind, hplacedRest, hend, hwalk | ⟨-, -, hfail⟩⟩ :=
        hnode fun _ h p hp => hnone props (h ▸ List.mem_cons_self) p hp
      · rw [hwalk, ← hend]
        exact (ihRest hbehind hplacedRest hrest).2
          fun props hmem => hnone props (List.mem_cons_of_mem _ hmem)
      · exact .inl hfail

end Tokens

theorem unterminated_iff {value s : Bytes} : Unterminated value s ↔ stripNul value = s := by
  rw [stripNul]
  constructor
  · rintro (rfl | ⟨rfl, hlast⟩)
    · rw [List.getLast?_concat, if_pos rfl, List.dropLast_concat]
    · exact if_neg hlast
  · intro h
    split at h
    · next hlast =>
      left
      rw [← h]
      exact (List.dropLast_append_getLast? 0 hlast).symm
    · next hlast =>
      subst h
      exact .inr ⟨rfl, hlast⟩

theorem text_eq_ok {value s : Bytes} : text value = .ok s ↔ Unterminated value s ∧ Utf8.Valid s := by
  rw [unterminated_iff, text]
  split
  · next hvalid =>
    rw [Except.ok.injEq]
    constructor
    · rintro rfl
      exact ⟨rfl, hvalid⟩
    · exact fun h => h.1
  · next hvalid =>
    constructor
    · intro h
      cases h
    · rintro ⟨rfl, h⟩
      exact absurd h hvalid

/-- The walk from the structure block of a tree. -/
theorem walkFrom_tree {tree : Tree} (hlen : fdt.length < 2 ^ 31)
    (hstrings : offDtStrings ≤ fdt.length) (hplaced : Placed fdt offset tree.encode)
    (hname : 0 ∉ tree.name) (hprops : WellNamed fdt offDtStrings tree.props)
    (hchildren : tree.children.WellFormed fdt offDtStrings) (s : Bytes) :
    walkFrom fdt offDtStrings offset 0 false = .ok s ↔ tree.Bootargs s := by
  simp only [Tree.encode, Forest.encode, placed_append] at hplaced
  obtain ⟨⟨hopening, hplacedProps, hinner, hclosing, -⟩, hending⟩ := hplaced
  have hopened := length_opening tree.nops tree.name
  have hpadded := padded_spec (tree.name.length + 1)
  -- the root is no `chosen`
  have hopen : walkFrom fdt offDtStrings offset 0 false =
      walkFrom fdt offDtStrings (offset + (opening tree.nops tree.name).length) 1 false :=
    walkFrom_opening hlen hstrings (Nat.zero_le _) hname hopening
  rw [hopen, walkFrom_properties hlen hstrings (by omega) hplacedProps hprops.each (by simp)]
  obtain ⟨hfound, hpassed⟩ := walkFrom_children hlen hstrings (by omega) hinner hchildren
  by_cases hany : ∃ props p, (chosen, props) ∈ tree.children.roots ∧ p ∈ props ∧ p.name = bootargs
  · obtain ⟨props, p, hroot, hp, hpname⟩ := hany
    constructor
    · intro hwalk
      rw [hfound props p hroot hp hpname] at hwalk
      exact ⟨props, hroot, p, hp, hpname, text_eq_ok.mp hwalk⟩
    · rintro ⟨props, hroot, p, hp, hpname, htext⟩
      rw [hfound props p hroot hp hpname]
      exact text_eq_ok.mpr htext
  · constructor
    · intro hwalk
      exfalso
      obtain hfail | hrest := hpassed fun props hroot p hp hpname =>
        hany ⟨props, p, hroot, hp, hpname⟩
      · rw [hfail] at hwalk
        cases hwalk
      · have hclosed := length_closing tree.nopsBehind
        simp only [List.length_append, List.length_nil, Nat.add_zero] at hending
        simp only [← Nat.add_assoc] at hending
        rw [hrest, walkFrom_closing hlen hstrings (by omega) hclosing,
          walkFrom_ending hlen hstrings (Nat.zero_le _) hending.1 hending.2] at hwalk
        cases hwalk
    · rintro ⟨props, hroot, p, hp, hpname, -⟩
      exact absurd ⟨props, p, hroot, hp, hpname⟩ hany

/-- The reader on a header with a believable size: on bytes of any content it ends without a
panic and without a look behind the tree, and on the blob of a tree it returns the command line
of the tree. -/
theorem bootargsAt_exact (board : Bool) (dtb : ℕ) (blob : Bytes)
    (hheader : Header board blob blob.length) :
    (∀ more, (bootargsAt board dtb (blob ++ more)).Clean ∧
      bootargsAt board dtb (blob ++ more) = bootargsAt board dtb blob) ∧
    (dtb ≠ 0 → dtb % 4 = 0 → ∀ tree, Layout blob tree → ∀ s,
      bootargsAt board dtb blob = .ok s ↔ tree.Bootargs s) := by
  refine ⟨bootargsAt_clean dtb hheader, ?_⟩
  intro hnull haligned tree hlayout s
  obtain ⟨offDtStruct, offDtStrings, hle, hstruct, hstrings, hplaced, hname, hprops, hchildren⟩ :=
    hlayout.offsets
  have hlen := lt_of_le_max hheader.most
  have heq := bootargsAt_eq hheader [] (show ¬(dtb = 0 ∨ dtb % 4 ≠ 0) by tauto)
  have hend := hplaced.le_length (by
    rw [Tree.encode]
    simp [token, bigEndian, ← List.length_pos_iff])
  rw [List.append_nil, be32_placed hstruct (by omega) (by omega), Outcome.ok_bind,
    be32_placed hstrings (by omega) (by omega), Outcome.ok_bind] at heq
  rw [heq]
  exact walkFrom_tree hlen hle hplaced hname hprops hchildren s

/-- A tree with a command line, and a node further down that has the same name. -/
def sampleTree : Tree :=
  ⟨1, [], [], .node 0 [97] [] (.node 0 chosen [⟨0, bootargs, 0, [120, 0]⟩] .nil 0 .nil) 1
    (.node 0 chosen [⟨2, bootargs, 0, [113, 0]⟩] .nil 0 .nil), 0, 1⟩

def sampleBlob : Bytes :=
  bigEndian 4 FDT_MAGIC ++ bigEndian 4 (49 + sampleTree.encode.length) ++ bigEndian 4 40 ++
    bigEndian 4 (40 + sampleTree.encode.length) ++ List.replicate 24 0 ++ sampleTree.encode ++
      (bootargs ++ [0])

theorem bootargsAt_exact_sample : bootargsAt false 8 sampleBlob = .ok [113] := by
  have hheader : Header false sampleBlob sampleBlob.length :=
    ⟨by decide +kernel, by decide +kernel, by decide +kernel, by decide +kernel⟩
  have hstring : Placed sampleBlob (40 + sampleTree.encode.length) (bootargs ++ [0]) := by
    decide +kernel
  have hnamed : ∀ value nops, WellNamed sampleBlob (40 + sampleTree.encode.length)
      [⟨nops, bootargs, 0, value⟩] := by
    intro value nops
    refine ⟨?_, ?_, by simp⟩
    · intro p hp
      obtain rfl := List.mem_singleton.mp hp
      exact hstring
    · intro p hp
      obtain rfl := List.mem_singleton.mp hp
      simp [bootargs]
  have hempty : WellNamed sampleBlob (40 + sampleTree.encode.length) [] :=
    ⟨by simp, by simp, by simp⟩
  have hlayout : Layout sampleBlob sampleTree := by
    refine ⟨40, 40 + sampleTree.encode.length, by decide +kernel, by decide +kernel,
      by decide +kernel, by decide +kernel, by decide, hempty, ?_⟩
    exact ⟨by decide, hempty, by decide,
      ⟨by decide, hnamed _ _, by decide, trivial, trivial⟩,
      by decide, hnamed _ _, by decide, trivial, trivial⟩
  apply ((bootargsAt_exact false 8 sampleBlob hheader).2 (by decide) (by decide) sampleTree hlayout
    [113]).mpr
  exact ⟨_, .tail _ (.head _), _, .head _, rfl, .inl rfl, by decide⟩

end Eo9.Kernel.Fdt
