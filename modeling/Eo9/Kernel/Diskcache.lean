import Eo9.Eofs.Format

/-!
# The store disk

The entries of the kernel's store disk and the calls on them (`diskcache.rs`):
compile artifacts under `/cache`, saved programs under `/bin`. A string is the
list of its UTF-8 bytes. The filesystem is a parameter without laws, so a disk
may answer anything; console lines are left out.
-/

namespace Eo9.Kernel.Diskcache

open Eo9.Library
open Eo9.Eofs (FsError Digest)

abbrev Bytes := List UInt8

def ascii (s : String) : Bytes := s.toList.map fun c => UInt8.ofNat c.toNat

/-- Keyed BLAKE3 under the key that is baked into the kernel image. -/
class KeyedBlake3 where
  mac : Bytes → Digest

export KeyedBlake3 (mac)

/-- What the kernel calls of eofs. A read fills a buffer of the given length and
returns how much of it is valid. -/
class StoreFs (F : Type) where
  stat : F → Bytes → Except FsError Nat
  list : F → Bytes → Except FsError (List Bytes)
  read : F → Bytes → Nat → (len : Nat) → Except FsError (Nat × { b : Bytes // b.length = len })
  mkdir : Bytes → F → Except FsError Unit × F
  remove : Bytes → F → Except FsError Unit × F
  createFile : Bytes → F → Except FsError Unit × F
  write : Bytes → Nat → Bytes → F → Except FsError Unit × F
  commit : F → Except FsError Unit × F

def CACHE_DIR : Bytes := ascii "/cache"

def BIN_DIR : Bytes := ascii "/bin"

def MAX_ARTIFACT_BYTES : Nat := 8 * 1024 * 1024

def MAX_COMPONENT_BYTES : Nat := 4 * 1024 * 1024

def ENTRY_MAGIC : Bytes := ascii "EO9CACH1"

def ENTRY_HEADER_BYTES : Nat := 8 + 8 + 32

/-- What the tag of an entry is computed over. -/
def macInput (key payload : Bytes) : Bytes := key ++ (leBytes 8 payload.length ++ payload)

section Codec

variable [KeyedBlake3]

def entryTag (key payload : Bytes) : Digest := mac (macInput key payload)

def encodeEntry (tagKey payload : Bytes) : Bytes :=
  ENTRY_MAGIC ++ leBytes 8 payload.length ++ (entryTag tagKey payload).val ++ payload

def decodeEntry (tagKey bytes : Bytes) : Option Bytes :=
  if bytes.length < ENTRY_HEADER_BYTES ∨ bytes.take 8 ≠ ENTRY_MAGIC then none
  else if leValue ((bytes.drop 8).take 8) ≠ bytes.length - ENTRY_HEADER_BYTES then none
  else
    let payload := bytes.drop ENTRY_HEADER_BYTES
    if (bytes.drop 16).take 32 ≠ (entryTag tagKey payload).val then none else some payload

/-- An entry that decodes is the encoding of its payload. -/
theorem decodeEntry_eq_some {tagKey bytes payload : Bytes}
    (h : decodeEntry tagKey bytes = some payload) : bytes = encodeEntry tagKey payload := by
  unfold decodeEntry at h
  split at h
  · exact absurd h nofun
  rename_i hheader
  split at h
  · exact absurd h nofun
  rename_i hlength
  dsimp only at h
  split at h
  · exact absurd h nofun
  rename_i htag
  rw [not_or, not_lt, not_not] at hheader
  rw [not_not] at hlength htag
  obtain ⟨hlen, hmagic⟩ := hheader
  have hpayload : bytes.drop ENTRY_HEADER_BYTES = payload := Option.some.inj h
  have hpayloadLen : payload.length = bytes.length - ENTRY_HEADER_BYTES := by
    rw [← hpayload, List.length_drop]
  have hfield : (bytes.drop 8).take 8 = leBytes 8 payload.length := by
    have hwidth : ((bytes.drop 8).take 8).length = 8 := by
      rw [List.length_take, List.length_drop]
      unfold ENTRY_HEADER_BYTES at hlen
      omega
    have hbytes := leBytes_leValue ((bytes.drop 8).take 8)
    rw [hwidth, hlength, ← hpayloadLen] at hbytes
    exact hbytes.symm
  calc
    bytes = bytes.take 8 ++ ((bytes.drop 8).take 8 ++
        ((bytes.drop 16).take 32 ++ bytes.drop ENTRY_HEADER_BYTES)) := by
      have h48 : (bytes.drop 16).drop 32 = bytes.drop ENTRY_HEADER_BYTES := by
        rw [List.drop_drop]
        rfl
      have h16 : (bytes.drop 8).drop 8 = bytes.drop 16 := by
        rw [List.drop_drop]
      rw [← h48, List.take_append_drop, ← h16, List.take_append_drop, List.take_append_drop]
    _ = encodeEntry tagKey payload := by
      rw [hmagic, hfield, htag, hpayload]
      simp only [encodeEntry, List.append_assoc]

/-- Where the tag and the payload of an entry lie. -/
theorem encodeEntry_parts (tagKey payload : Bytes) :
    (encodeEntry tagKey payload).drop 16 = (entryTag tagKey payload).val ++ payload ∧
      (encodeEntry tagKey payload).drop ENTRY_HEADER_BYTES = payload ∧
      (encodeEntry tagKey payload).length = ENTRY_HEADER_BYTES + payload.length := by
  have hmagic : ENTRY_MAGIC.length = 8 := rfl
  have hfield : (leBytes 8 payload.length).length = 8 := length_leBytes 8 _
  have htag : (entryTag tagKey payload).val.length = 32 := (entryTag tagKey payload).property
  have hdrop16 : (encodeEntry tagKey payload).drop 16 =
      (entryTag tagKey payload).val ++ payload := by
    simp only [encodeEntry, List.append_assoc]
    rw [show 16 = 8 + 8 from rfl, ← List.drop_drop, List.drop_left' hmagic, List.drop_left' hfield]
  refine ⟨hdrop16, ?_, ?_⟩
  · rw [show ENTRY_HEADER_BYTES = 16 + 32 from rfl, ← List.drop_drop, hdrop16,
      List.drop_left' htag]
  · simp only [encodeEntry, List.length_append, hmagic, hfield, htag, ENTRY_HEADER_BYTES]

/-- The payload of an encoded entry is read back. -/
theorem decodeEntry_encodeEntry (tagKey payload : Bytes) (h : payload.length < 2 ^ 64) :
    decodeEntry tagKey (encodeEntry tagKey payload) = some payload := by
  obtain ⟨hdrop16, hdrop48, hlen⟩ := encodeEntry_parts tagKey payload
  have hmagic : (encodeEntry tagKey payload).take 8 = ENTRY_MAGIC := by
    simp only [encodeEntry, List.append_assoc]
    exact List.take_left' rfl
  have hfield : ((encodeEntry tagKey payload).drop 8).take 8 = leBytes 8 payload.length := by
    simp only [encodeEntry, List.append_assoc]
    rw [List.drop_left' (show ENTRY_MAGIC.length = 8 from rfl),
      List.take_left' (length_leBytes 8 _)]
  unfold decodeEntry
  rw [if_neg, if_neg]
  · simp only [hdrop48, hdrop16, List.take_left' (entryTag tagKey payload).property, ne_eq,
      not_true_eq_false, if_false]
  · rw [not_not, hfield, leValue_leBytes 8 _ (by omega), hlen]
    omega
  · rw [not_or, not_lt, not_not]
    exact ⟨by omega, hmagic⟩

end Codec

def isDigit (b : UInt8) : Bool := 0x30 ≤ b && b ≤ 0x39

def isAlphanumeric (b : UInt8) : Bool :=
  isDigit b || (0x41 ≤ b && b ≤ 0x5A) || (0x61 ≤ b && b ≤ 0x7A)

/-- A character of a saved program's name: alphanumeric, `-`, `.` or `_`. -/
def nameByte (b : UInt8) : Bool := isAlphanumeric b || b == 0x2D || b == 0x2E || b == 0x5F

def binNameOk (name : Bytes) : Bool :=
  !name.isEmpty && name.length ≤ 64 && name.head? != some 0x2E && name.getLast? != some 0x2E &&
    name.all nameByte

def binTagKey (name : Bytes) : Bytes := ascii "bin/" ++ name

def binPath (name : Bytes) : Bytes := BIN_DIR ++ ascii "/" ++ name ++ ascii ".wasm"

def cachePath (key : Bytes) : Bytes := CACHE_DIR ++ ascii "/" ++ key ++ ascii ".cwasm"

/-- A lower-case hexadecimal digit. -/
def hexDigit (n : Nat) : UInt8 := if n < 10 then UInt8.ofNat (0x30 + n) else UInt8.ofNat (0x57 + n)

def toHex (bytes : Bytes) : Bytes :=
  bytes.flatMap fun b => [hexDigit (b.toNat / 16), hexDigit (b.toNat % 16)]

def isHex (b : UInt8) : Bool := isDigit b || (0x61 ≤ b && b ≤ 0x66)

/-- The name of a cached artifact: 64 hexadecimal digits. -/
structure CacheKey where
  text : Bytes
  length_eq : text.length = 64
  hex : text.all isHex = true

/-- Why a saved program is refused; rendered to the guest as text. -/
inductive BinError where
  | unacceptableName (name : Bytes)
  | tooLarge (length : Nat)
  | noStoreDisk
  | fs (e : FsError)

section Calls

variable [KeyedBlake3] {F : Type} [StoreFs F]

/-- The part of `readEntry` that reads: the bytes of a file of plausible size. -/
def fetchEntry (fs : F) (path : Bytes) (maxPayload : Nat) : Option Bytes :=
  match StoreFs.stat fs path with
  | .error _ => none
  | .ok size =>
    if size < ENTRY_HEADER_BYTES ∨ maxPayload + ENTRY_HEADER_BYTES < size then none
    else
      match StoreFs.read fs path 0 size with
      | .error _ => none
      | .ok (read, bytes) => if read = size then some bytes.val else none

def readEntry (fs : F) (path tagKey : Bytes) (maxPayload : Nat) : Option Bytes :=
  (fetchEntry fs path maxPayload).bind (decodeEntry tagKey)

omit [KeyedBlake3] in
/-- An entry that is read is no longer than its kind allows. -/
theorem length_fetchEntry {fs : F} {path bytes : Bytes} {maxPayload : Nat}
    (h : fetchEntry fs path maxPayload = some bytes) :
    bytes.length ≤ maxPayload + ENTRY_HEADER_BYTES := by
  unfold fetchEntry at h
  split at h
  · exact absurd h nofun
  split at h
  · exact absurd h nofun
  rename_i hsize
  split at h
  · exact absurd h nofun
  split at h
  · rename_i buffer _ _
    rw [← Option.some.inj h, buffer.property]
    omega
  · exact absurd h nofun

/-- A step of eofs that can fail. -/
def step (m : F → Except FsError Unit × F) : Action F FsError Unit := fun fs =>
  match m fs with
  | (.ok (), fs') => (.ok (), fs')
  | (.error e, fs') => (.error (.err e), fs')

/-- Run a step where a path is (not) found. -/
def when (p : F → Bool) (m : Action F FsError Unit) : Action F FsError Unit := do
  if ← Action.gets p then m else pure ()

def found (path : Bytes) (fs : F) : Bool := (StoreFs.stat fs path).isOk

/-- Replaces an entry wholesale and commits. -/
def writeEntry (dir path entry : Bytes) : Action F FsError Unit := do
  when (fun fs => !found dir fs) (step (StoreFs.mkdir dir))
  when (found path) (step (StoreFs.remove path))
  step (StoreFs.createFile path)
  step (StoreFs.write path 0 entry)
  step StoreFs.commit

def lookup (slot : Option F) (key : CacheKey) : Option Bytes :=
  slot.bind fun fs => readEntry fs (cachePath key.text) key.text MAX_ARTIFACT_BYTES

def store (key : CacheKey) (artifact : Bytes) (slot : Option F) : Option F :=
  if MAX_ARTIFACT_BYTES < artifact.length then slot
  else
    slot.map fun fs =>
      (writeEntry CACHE_DIR (cachePath key.text) (encodeEntry key.text artifact) fs).2

def binRead (slot : Option F) (name : Bytes) : Option Bytes :=
  if binNameOk name = false then none
  else
    slot.bind fun fs => readEntry fs (binPath name) (binTagKey name) MAX_COMPONENT_BYTES

/-- The mounted filesystem under a call that answers the guest. -/
def onStore (m : Action F FsError Unit) : Action (Option F) BinError Unit
  | none => (.error (.err .noStoreDisk), none)
  | some fs => (Outcome.mapErr (fun e => Outcome.fail (.fs e)) (m fs).1, some (m fs).2)

def binStore (name component : Bytes) : Action (Option F) BinError Unit :=
  if binNameOk name = false then Action.fail (.unacceptableName name)
  else if MAX_COMPONENT_BYTES < component.length then Action.fail (.tooLarge component.length)
  else onStore (writeEntry BIN_DIR (binPath name) (encodeEntry (binTagKey name) component))

def binRemove (name : Bytes) : Action (Option F) BinError Unit :=
  if binNameOk name = false then Action.fail (.unacceptableName name)
  else
    onStore do
      step (StoreFs.remove (binPath name))
      step StoreFs.commit

def binHas (slot : Option F) (name : Bytes) : Bool :=
  binNameOk name && (slot.map (found (binPath name))).getD false

end Calls

end Eo9.Kernel.Diskcache
