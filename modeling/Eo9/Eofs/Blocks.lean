import Eo9.Eofs.Fs
import Mathlib.Data.Set.Function
import Eo9.Library.Blake3

/-!
# What reading a block says about it

A pointer that passes the checks, a stored payload that decodes to a block,
and a block read through a pointer, as conditions that later proofs use in
place of the functions.
-/

namespace Eo9.Eofs

open Eo9.Library Outcome

namespace AsyncEofs

variable {D : Type}

/-- A pointer that a mount is willing to read through. -/
structure PtrOk (fs : AsyncEofs D) (ptr : BlockPtr) : Prop where
  lsize_pos : 0 < ptr.lsize
  lsize_le : ptr.lsize ≤ fs.blockSize
  psize_pos : 0 < ptr.psize
  psize_le : ptr.psize ≤ fs.blockSize
  start_le : DATA_START ≤ ptr.addr
  dvd : ptr.addr % fs.allocUnit = 0
  lt_word : ptr.addr + ptr.psize < 2 ^ 64
  le_size : ptr.addr + ptr.psize ≤ fs.deviceSize

theorem checkPtr_eq_ok_iff {fs : AsyncEofs D} {ptr : BlockPtr} {u : Unit} :
    fs.checkPtr ptr = .ok u ↔ fs.PtrOk ptr := by
  have hstart : 0 < DATA_START := by decide
  unfold checkPtr corrupt Outcome.fail BlockPtr.isNull
  constructor
  · intro h
    constructor <;> grind
  · rintro ⟨h1, h2, h3, h4, h5, h6, h7, h8⟩
    grind

theorem clean_checkPtr (fs : AsyncEofs D) (ptr : BlockPtr) : Clean (fs.checkPtr ptr) := by
  unfold checkPtr corrupt
  split
  · exact clean_fail _
  · split
    · exact clean_fail _
    · split
      · exact clean_fail _
      · exact clean_ok _

/-- A payload that decodes to a block: the block itself, or its compressed
form. -/
theorem decodeBlock_eq_ok_iff [Primitives] {ptr : BlockPtr} {payload b : List UInt8} :
    decodeBlock ptr payload = .ok b ↔
      (ptr.codec = .raw ∧ ptr.psize = ptr.lsize ∧ payload = b) ∨
      (ptr.codec = .lz4 ∧ decompress payload ptr.lsize = some b ∧ b.length = ptr.lsize) := by
  unfold decodeBlock corrupt Outcome.fail
  cases ptr.codec with
  | raw =>
    by_cases h : ptr.psize = ptr.lsize <;> simp [h]
  | lz4 =>
    cases decompress payload ptr.lsize with
    | none => simp
    | some out =>
      by_cases h : out.length = ptr.lsize <;> simp [h] <;> grind

theorem clean_decodeBlock [Primitives] (ptr : BlockPtr) (payload : List UInt8) :
    Clean (decodeBlock ptr payload) := by
  unfold decodeBlock corrupt
  split
  · split
    · exact clean_fail _
    · exact clean_ok _
  · split
    · exact clean_fail _
    · split
      · exact clean_fail _
      · exact clean_ok _

theorem ofDevice_eq_ok_iff {α : Type} {r : Except DeviceError α} {a : α} :
    ofDevice r = .ok a ↔ r = .ok a := by
  cases r <;> simp [ofDevice, Outcome.fail]

@[simp] theorem clean_ofDevice {α : Type} (r : Except DeviceError α) : Clean (ofDevice r) := by
  cases r
  · exact clean_fail _
  · exact clean_ok _

variable [Primitives] [BlockDevice D]

/-- A block that is read: the pointer is in order, what the device holds there
decodes to the block, and the block has the hash its pointer asks for. -/
theorem readBlock_eq_ok_iff {fs : AsyncEofs D} {ptr : BlockPtr} {b : List UInt8} :
    fs.readBlock ptr = .ok b ↔ fs.PtrOk ptr ∧
      ∃ payload, BlockDevice.readAt fs.dev ptr.addr ptr.psize = .ok payload ∧
        decodeBlock ptr payload = .ok b ∧ hash b = ptr.hash := by
  unfold readBlock
  simp only [bind_eq_ok, checkPtr_eq_ok_iff, ofDevice_eq_ok_iff]
  constructor
  · rintro ⟨_, hptr, payload, hread, logical, hdecode, h⟩
    by_cases hne : hash logical ≠ ptr.hash
    · simp [hne, Outcome.fail] at h
    · rw [if_neg hne] at h
      obtain rfl := Except.ok.inj h
      exact ⟨hptr, payload, hread, hdecode, not_not.mp hne⟩
  · rintro ⟨hptr, payload, hread, hdecode, hhash⟩
    exact ⟨(), hptr, payload, hread, b, hdecode, if_neg (not_not.mpr hhash)⟩

theorem clean_readBlock (fs : AsyncEofs D) (ptr : BlockPtr) : Clean (fs.readBlock ptr) := by
  refine clean_bind.mpr ⟨clean_checkPtr fs ptr, fun _ _ => ?_⟩
  refine clean_bind.mpr ⟨clean_ofDevice _, fun payload _ => ?_⟩
  refine clean_bind.mpr ⟨clean_decodeBlock ptr payload, fun logical _ => ?_⟩
  split
  · exact clean_fail _
  · exact clean_ok _

end AsyncEofs

/-!
## Corruption is detected, never returned

Two devices with the same mounted geometry, compared call by call: where both
calls return, they return the same. Every byte that a call returns comes out
of `readBlock`, which compares a hash covered by the pointer it was given, so
the statement is one two-run lemma for `readBlock` carried through the
programs built from it.
-/

/-- The block hash of the source. Its compressor makes no block smaller, so a
filesystem over it stores every block as it is. -/
abbrev plainBlake3 : Primitives where
  hash bytes := BlockPtr.digestOf (Blake3.digest bytes)
  compress bytes := bytes
  decompress bytes _ := some bytes

namespace AsyncEofs

variable [Primitives] {D₁ D₂ : Type} [BlockDevice D₁] [BlockDevice D₂]

/-- Two mounts that check pointers and objects alike. -/
structure SameGeometry (fs₁ : AsyncEofs D₁) (fs₂ : AsyncEofs D₂) : Prop where
  blockSize : fs₁.blockSize = fs₂.blockSize
  allocUnit : fs₁.allocUnit = fs₂.allocUnit
  deviceSize : fs₁.deviceSize = fs₂.deviceSize

/-- The blocks that some pointer yields on one of two mounts. -/
def blocksOf (fs₁ : AsyncEofs D₁) (fs₂ : AsyncEofs D₂) : Set (List UInt8) :=
  {b | ∃ ptr, fs₁.readBlock ptr = .ok b ∨ fs₂.readBlock ptr = .ok b}

omit [Primitives] [BlockDevice D₁] [BlockDevice D₂] in
omit [Primitives] [BlockDevice D₁] [BlockDevice D₂] in
theorem SameGeometry.checkObject_eq {fs₁ : AsyncEofs D₁} {fs₂ : AsyncEofs D₂}
    (h : SameGeometry fs₁ fs₂) (obj : ObjRef) : fs₁.checkObject obj = fs₂.checkObject obj := by
  simp only [checkObject, fanout, h.blockSize, h.allocUnit, h.deviceSize]

section TwoRuns

variable {fs₁ : AsyncEofs D₁} {fs₂ : AsyncEofs D₂} (hsame : SameGeometry fs₁ fs₂)
  (hinj : Set.InjOn hash (blocksOf fs₁ fs₂))

include hinj

/-- The base of the two-run argument: equal hashes, equal blocks. -/
theorem agree_readBlock (ptr : BlockPtr) : Agree (fs₁.readBlock ptr) (fs₂.readBlock ptr) := by
  intro b b' hb hb'
  refine hinj ⟨ptr, .inl hb⟩ ⟨ptr, .inr hb'⟩ ?_
  obtain ⟨-, _, -, -, hhash⟩ := readBlock_eq_ok_iff.mp hb
  obtain ⟨-, _, -, -, hhash'⟩ := readBlock_eq_ok_iff.mp hb'
  rw [hhash, hhash']

theorem agree_collectLevel (leafCount level : Nat) (ptr : BlockPtr) (out : List BlockPtr) :
    Agree (fs₁.collectLevel leafCount level ptr out)
      (fs₂.collectLevel leafCount level ptr out) := by
  induction level generalizing ptr out with
  | zero => exact Agree.rfl
  | succ level ih =>
    refine agree_bind (agree_readBlock hinj ptr) fun block => ?_
    refine agree_ite (fun _ => Agree.rfl) fun _ => ?_
    refine agree_foldlM (fun out chunk => ?_) _ _
    exact agree_bind Agree.rfl fun child => ih child out

include hsame

theorem agree_collectLeaves (obj : ObjRef) :
    Agree (fs₁.collectLeaves obj) (fs₂.collectLeaves obj) := by
  unfold collectLeaves
  rw [hsame.checkObject_eq obj]
  refine agree_bind Agree.rfl fun leafCount => ?_
  refine agree_ite (fun _ => Agree.rfl) fun _ => ?_
  exact agree_bind (agree_collectLevel hinj leafCount _ _ _) fun _ => Agree.rfl

theorem agree_readLoop (leaves : List BlockPtr) (offset want fuel : Nat) (buf : List UInt8) :
    Agree (fs₁.readLoop leaves offset want fuel buf)
      (fs₂.readLoop leaves offset want fuel buf) := by
  induction fuel generalizing buf with
  | zero => exact Agree.rfl
  | succ fuel ih =>
    refine agree_ite (fun _ => ?_) fun _ => Agree.rfl
    rw [hsame.blockSize]
    refine agree_bind Agree.rfl fun pos => ?_
    refine agree_bind Agree.rfl fun leaf => ?_
    refine agree_bind (agree_readBlock hinj leaf) fun logical => ?_
    refine agree_bind Agree.rfl fun left => ?_
    exact agree_bind Agree.rfl fun piece => ih (buf ++ piece)

theorem agree_readObjectRange (obj : ObjRef) (offset len : Nat) :
    Agree (fs₁.readObjectRange obj offset len) (fs₂.readObjectRange obj offset len) := by
  refine agree_ite (fun _ => Agree.rfl) fun _ => ?_
  exact agree_bind (agree_collectLeaves hsame hinj obj) fun leaves =>
    agree_readLoop hsame hinj leaves _ _ _ _

theorem agree_readObject (obj : ObjRef) :
    Agree (fs₁.readObject obj) (fs₂.readObject obj) := by
  unfold readObject
  rw [hsame.checkObject_eq obj]
  refine agree_ite (fun _ => Agree.rfl) fun _ => ?_
  exact agree_bind Agree.rfl fun _ => agree_readObjectRange hsame hinj obj _ _

theorem agree_readDir (obj : ObjRef) : Agree (fs₁.readDir obj) (fs₂.readDir obj) :=
  agree_bind (agree_readObject hsame hinj obj) fun _ => Agree.rfl

theorem agree_readSnapshots (obj : ObjRef) :
    Agree (fs₁.readSnapshots obj) (fs₂.readSnapshots obj) :=
  agree_bind (agree_readObject hsame hinj obj) fun _ => Agree.rfl

theorem agree_walk (kind : NodeKind) (obj : ObjRef) (segments : List String) :
    Agree (fs₁.walk kind obj segments) (fs₂.walk kind obj segments) := by
  induction segments generalizing kind obj with
  | nil => exact Agree.rfl
  | cons segment rest ih =>
    refine agree_ite (fun _ => Agree.rfl) fun _ => ?_
    refine agree_bind (agree_readDir hsame hinj obj) fun entries => ?_
    cases entries.find? (·.name = segment) with
    | none => exact Agree.rfl
    | some entry => exact ih entry.kind entry.obj

theorem agree_listAtRoot (root : ObjRef) (path : String) :
    Agree (fs₁.listAtRoot root path) (fs₂.listAtRoot root path) := by
  refine agree_bind Agree.rfl fun segments => ?_
  refine agree_bind (agree_walk hsame hinj _ root segments) fun node => ?_
  refine agree_ite (fun _ => Agree.rfl) fun _ => ?_
  exact agree_bind (agree_readDir hsame hinj node.2) fun _ => Agree.rfl

theorem agree_statAtRoot (root : ObjRef) (path : String) :
    Agree (fs₁.statAtRoot root path) (fs₂.statAtRoot root path) := by
  refine agree_bind Agree.rfl fun segments => ?_
  exact agree_bind (agree_walk hsame hinj _ root segments) fun _ => Agree.rfl

theorem agree_readAtRoot (root : ObjRef) (path : String) (offset len : Nat) :
    Agree (fs₁.readAtRoot root path offset len) (fs₂.readAtRoot root path offset len) := by
  refine agree_bind Agree.rfl fun segments => ?_
  refine agree_bind (agree_walk hsame hinj _ root segments) fun node => ?_
  exact agree_ite (fun _ => Agree.rfl) fun _ => agree_readObjectRange hsame hinj node.2 _ _

end TwoRuns

/-- Whatever the data regions of two devices hold, `list`, `stat` and `read`
under one root, and reads of one object reference, return the same wherever
both return, as long as the hash tells the blocks involved apart. -/
theorem corruption_never_returned (fs₁ : AsyncEofs D₁) (fs₂ : AsyncEofs D₂)
    (hsame : SameGeometry fs₁ fs₂) (hinj : Set.InjOn hash (blocksOf fs₁ fs₂)) (root : ObjRef) :
    (∀ path, Agree (fs₁.listAtRoot root path) (fs₂.listAtRoot root path)) ∧
    (∀ path, Agree (fs₁.statAtRoot root path) (fs₂.statAtRoot root path)) ∧
    (∀ path offset len,
      Agree (fs₁.readAtRoot root path offset len) (fs₂.readAtRoot root path offset len)) ∧
    (∀ segments, Agree (fs₁.resolve root segments) (fs₂.resolve root segments)) ∧
    (∀ offset len,
      Agree (fs₁.readObjectRange root offset len) (fs₂.readObjectRange root offset len)) ∧
    Agree (fs₁.readDir root) (fs₂.readDir root) ∧
    Agree (fs₁.readSnapshots root) (fs₂.readSnapshots root) :=
  ⟨agree_listAtRoot hsame hinj root, agree_statAtRoot hsame hinj root,
    agree_readAtRoot hsame hinj root, agree_walk hsame hinj _ root,
    agree_readObjectRange hsame hinj root, agree_readDir hsame hinj root,
    agree_readSnapshots hsame hinj root⟩

section OneByte

/-- A mount of a device whose data region is the single byte `b`. -/
def oneByte (b : UInt8) : AsyncEofs MemDevice where
  dev := ⟨DATA_START + 1, fun i => if i = DATA_START then b else 0, by decide⟩
  blockSize := 512
  allocUnit := 64
  codec := .raw
  deviceSize := DATA_START + 1
  formatDeviceSize := DATA_START + 1
  committedTxg := 1
  committedLiveRoot := ObjRef.EMPTY
  committedSnapshots := ObjRef.EMPTY
  liveRoot := ObjRef.EMPTY
  snapshots := ObjRef.EMPTY
  alloc := Allocator.new 64 (DATA_START + 1) (DATA_START + 1)
  dirty := false

omit [Primitives] in
/-- The only block such a device can yield is its byte. -/
theorem readBlock_oneByte {b : UInt8} {ptr : BlockPtr} {block : List UInt8}
    (h : @readBlock _ plainBlake3 _ (oneByte b) ptr = .ok block) : block = [b] := by
  let _ := plainBlake3
  obtain ⟨hptr, payload, hread, hdecode, -⟩ := readBlock_eq_ok_iff.mp h
  have hplace : ptr.addr = DATA_START ∧ ptr.psize = 1 := by
    have hstart := hptr.start_le
    have hpos := hptr.psize_pos
    have hend : ptr.addr + ptr.psize ≤ DATA_START + 1 := hptr.le_size
    omega
  have hpayload : payload = [b] := by
    have hslice : BlockDevice.readAt (oneByte b).dev DATA_START 1 = .ok [b] := rfl
    rw [hplace.1, hplace.2, hslice] at hread
    exact (Except.ok.inj hread).symm
  rcases decodeBlock_eq_ok_iff.mp hdecode with ⟨-, -, hraw⟩ | ⟨-, hlz4, -⟩
  · rw [← hraw, hpayload]
  · rw [← Option.some.inj hlz4, hpayload]

end OneByte

omit [Primitives] in
/-- A reference to the byte `a` is never read as `b` on the device that holds
`b` in its place. -/
theorem corruption_never_returned_oneByte :
    letI := plainBlake3
    Agree
      ((oneByte 97).readObjectRange ⟨1, 0, ⟨DATA_START, 1, 1, .raw, hash [97]⟩⟩ 0 1)
      ((oneByte 98).readObjectRange ⟨1, 0, ⟨DATA_START, 1, 1, .raw, hash [97]⟩⟩ 0 1) := by
  let _ := plainBlake3
  have hinj : Set.InjOn hash (blocksOf (oneByte 97) (oneByte 98)) := by
    have hne : hash [(97 : UInt8)] ≠ hash [(98 : UInt8)] := by decide +kernel
    have hmem : ∀ b ∈ blocksOf (oneByte 97) (oneByte 98), b = [97] ∨ b = [98] := by
      rintro b ⟨ptr, h | h⟩
      · exact .inl (readBlock_oneByte h)
      · exact .inr (readBlock_oneByte h)
    intro b hb b' hb' heq
    rcases hmem b hb with rfl | rfl <;> rcases hmem b' hb' with rfl | rfl
    · rfl
    · exact absurd heq hne
    · exact absurd heq.symm hne
    · rfl
  exact (corruption_never_returned (oneByte 97) (oneByte 98) ⟨rfl, rfl, rfl⟩ hinj
    ⟨1, 0, ⟨DATA_START, 1, 1, .raw, hash [97]⟩⟩).2.2.2.2.1 0 1

end AsyncEofs

end Eo9.Eofs
