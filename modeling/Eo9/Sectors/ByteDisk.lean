import Eo9.Sectors.Rounds

/-!
# Ranges over the loops

The loops of a driver whose commands move the blocks of the content move exactly their range of
it. All their commands stay in the device, and they fit in a buffer exactly when the access suits
the block size.
-/

namespace Eo9.Sectors

open Eo9.Library

/-- The commands that an access issued stay in the device, and fit in a buffer exactly when the
access suits. -/
structure Issued (bs size offset len : ℕ) (cs : List Command) : Prop where
  inside : ∀ c ∈ cs, (c.block + c.count) * bs ≤ size
  buffer : (∀ c ∈ cs, c.count * bs ≤ DATA_CAP) ↔ Suits bs offset len

section Issued

variable {bs size cursor take len : ℕ} {c : Command} {cs first : List Command}

theorem issued_nil (hbs : 0 < bs) (hle : bs ≤ DATA_CAP) : Issued bs size cursor 0 [] where
  inside := by simp
  buffer := by
    have hmod := Nat.mod_lt cursor hbs
    have hpos : 1 ≤ DATA_CAP / bs := (Nat.le_div_iff_mul_le hbs).mpr (by omega)
    have hwhole : 1 * bs ≤ DATA_CAP / bs * bs := Nat.mul_le_mul_right bs hpos
    exact iff_of_true (by simp) ⟨fun _ => by decide, .inr (by omega)⟩

/-- A round in front of the others, whose command goes out once or twice. -/
theorem Round.issued (hround : Round bs size cursor take c) (hbs : 0 < bs) (hle : bs ≤ DATA_CAP)
    (hone : bs = 1 → len < DATA_CAP) (htake : take = min len (DATA_CAP - cursor % bs))
    (hfirst : ∀ c', c' ∈ first ↔ c' = c) (hrest : Issued bs size (cursor + take) (len - take) cs) :
    Issued bs size cursor len (first ++ cs) where
  inside c' hc' := by
    obtain hc' | hc' := List.mem_append.mp hc'
    · obtain rfl := (hfirst c').mp hc'
      exact hround.inside
    · exact hrest.inside c' hc'
  buffer := by
    have hall : (∀ c' ∈ first, c'.count * bs ≤ DATA_CAP) ↔ c.count * bs ≤ DATA_CAP := by
      simp only [hfirst, forall_eq]
    rw [List.forall_mem_append, hall, hround.buffer, hrest.buffer,
      ← suits_iff hbs hle hone htake]

end Issued

section Loops

variable {σ ε : Type} {io : Seam σ ε} {Ready : σ → Prop} {content : σ → Bytes}
  {log : σ → List Command} {s : σ} {fuel cursor : ℕ}

/-- One command for the first bytes of a range. -/
theorem Seam.Obeys.round (law : io.Obeys Ready content log)
    (hdvd : io.blockSize ∣ io.capacityBytes) {remaining : ℕ} (hpos : 0 < remaining)
    (hin : cursor + remaining ≤ io.capacityBytes)
    (hone : io.blockSize = 1 → remaining < DATA_CAP) :
    Round io.blockSize io.capacityBytes cursor
        (min remaining (DATA_CAP - cursor % io.blockSize))
        ⟨cursor / io.blockSize, divCeil (cursor % io.blockSize +
          min remaining (DATA_CAP - cursor % io.blockSize)) io.blockSize⟩ := by
  have hmod := Nat.mod_lt cursor law.pos
  have hle := law.le
  exact Sectors.round law.pos hdvd (by omega) (by omega) (by omega) fun h => by
    have hlt := hone h
    omega

/-- The read loop returns exactly the range. -/
theorem readLoop_spec (law : io.Obeys Ready content log)
    (hdvd : io.blockSize ∣ io.capacityBytes) {remaining : ℕ} (out : Bytes) (hready : Ready s)
    (hsize : (content s).length = io.capacityBytes) (hlt : io.capacityBytes < 2 ^ 64)
    (hin : cursor + remaining ≤ io.capacityBytes)
    (hone : io.blockSize = 1 → remaining < DATA_CAP) (hfuel : remaining < fuel) :
    ∃ s' cs, io.readLoop fuel cursor remaining out s =
        (.ok (out ++ sub (content s) cursor remaining), s') ∧
      Ready s' ∧ content s' = content s ∧ log s' = log s ++ cs ∧
      Issued io.blockSize io.capacityBytes cursor remaining cs := by
  induction fuel generalizing cursor remaining out s with
  | zero => omega
  | succ fuel ih =>
    obtain rfl | hpos := Nat.eq_zero_or_pos remaining
    · refine ⟨s, [], ?_, hready, rfl, (List.append_nil _).symm, issued_nil law.pos law.le⟩
      rw [Seam.readLoop, if_pos rfl, sub_empty, List.append_nil]
      rfl
    have hround := law.round hdvd hpos hin hone
    have hmod := Nat.mod_lt cursor law.pos
    have hle := law.le
    have hwithin : cursor - cursor / io.blockSize * io.blockSize = cursor % io.blockSize := by
      have hdiv := Nat.div_add_mod cursor io.blockSize
      rw [Nat.mul_comm] at hdiv
      omega
    have hblock : cursor / io.blockSize * io.blockSize + cursor % io.blockSize = cursor :=
      Nat.div_add_mod' cursor io.blockSize
    generalize htake : min remaining (DATA_CAP - cursor % io.blockSize) = take at hround
    generalize hcount : divCeil (cursor % io.blockSize + take) io.blockSize = count at hround
    obtain ⟨s₁, hread, hready₁, hcontent, hlog⟩ := law.read s false (cursor / io.blockSize) count
      hready hsize hround.pos hround.narrow hround.few (hsize ▸ hround.inside)
    have hcovers : cursor % io.blockSize + take ≤ count * io.blockSize := hround.covers
    have hlen : (sub (content s) (cursor / io.blockSize * io.blockSize)
        (count * io.blockSize)).length = count * io.blockSize := by
      have hinside : (cursor / io.blockSize + count) * io.blockSize ≤ io.capacityBytes :=
        hround.inside
      rw [Nat.add_mul] at hinside
      exact length_sub (by omega)
    obtain ⟨s', cs, hloop, hready', hcontent', hlog', hissued⟩ :=
      ih (out ++ sub (content s) cursor take) hready₁ (by rw [hcontent, hsize])
        (show cursor + take + (remaining - take) ≤ io.capacityBytes by omega)
        (fun h => by have := hone h; omega) (by omega)
    refine ⟨s', [⟨cursor / io.blockSize, count⟩] ++ cs, ?_, hready', hcontent'.trans hcontent, ?_,
      hround.issued law.pos law.le hone htake.symm (fun c => by simp) hissued⟩
    · rw [Seam.readLoop, if_neg (by omega)]
      dsimp only
      have hpiece : (rangeOf (sub (content s) (cursor / io.blockSize * io.blockSize)
          (count * io.blockSize)) (cursor % io.blockSize) (cursor % io.blockSize + take) :
          Outcome (DiskFail ε) Bytes) = .ok (sub (content s) cursor take) := by
        rw [rangeOf_ok (by omega) (by omega), Nat.add_sub_cancel_left, sub_of_sub hcovers, hblock]
      rw [hwithin, Action.ofOutcome_bind (checkedSub_ok (by omega)), htake, hcount,
        law.narrow count hround.narrow, Action.bind_of_ok hread, Action.ofOutcome_bind hpiece,
        Action.ofOutcome_bind (checkedAdd_ok (by omega)), hloop, hcontent, List.append_assoc,
        ← sub_split, Nat.add_sub_cancel' (by omega)]
    · rw [hlog', hlog, List.append_assoc]

/-- What a round of the write loop sends: the piece with the rest of its blocks as they are. -/
theorem chunk_spec (law : io.Obeys Ready content log) {take count : ℕ} {piece : Bytes}
    (hready : Ready s) (hsize : (content s).length = io.capacityBytes)
    (hpiece : piece.length = take)
    (hround : Round io.blockSize io.capacityBytes cursor take ⟨cursor / io.blockSize, count⟩) :
    ∃ s' chunk reads,
      io.chunk (cursor / io.blockSize) count (cursor % io.blockSize)
          (cursor % io.blockSize + take) piece s = (.ok chunk, s') ∧
      Ready s' ∧ content s' = content s ∧ log s' = log s ++ reads ∧
      (∀ c ∈ reads, c = ⟨cursor / io.blockSize, count⟩) ∧
      chunk.length = count * io.blockSize ∧
      copyInto (content s) (cursor / io.blockSize * io.blockSize) chunk =
        copyInto (content s) cursor piece := by
  have hblock : cursor / io.blockSize * io.blockSize + cursor % io.blockSize = cursor :=
    Nat.div_add_mod' cursor io.blockSize
  have hcovers : cursor % io.blockSize + take ≤ count * io.blockSize := hround.covers
  have hinside : (cursor / io.blockSize + count) * io.blockSize ≤ io.capacityBytes :=
    hround.inside
  rw [Nat.add_mul] at hinside
  by_cases haligned : cursor % io.blockSize = 0 ∧
    (cursor % io.blockSize + take) % io.blockSize = 0
  · have hcount : count = divCeil (cursor % io.blockSize + take) io.blockSize := hround.count
    have hlen : count * io.blockSize = take := by
      rw [hcount, divCeil, if_pos haligned.2, Nat.div_mul_cancel (Nat.dvd_of_mod_eq_zero haligned.2)]
      omega
    refine ⟨s, piece, [], ?_, hready, rfl, (List.append_nil _).symm, by simp, by omega, ?_⟩
    · rw [Seam.chunk, if_pos haligned]
      rfl
    · rw [haligned.1, Nat.add_zero] at hblock
      rw [hblock]
  · obtain ⟨s', hread, hready', hcontent, hlog⟩ := law.read s true (cursor / io.blockSize) count
      hready hsize hround.pos hround.narrow hround.few (hsize ▸ hround.inside)
    have hlen : (sub (content s) (cursor / io.blockSize * io.blockSize)
        (count * io.blockSize)).length = count * io.blockSize := length_sub (by omega)
    refine ⟨s', copyInto (sub (content s) (cursor / io.blockSize * io.blockSize)
      (count * io.blockSize)) (cursor % io.blockSize) piece, [⟨cursor / io.blockSize, count⟩], ?_,
      hready', hcontent, hlog, by simp, ?_, ?_⟩
    · rw [Seam.chunk, if_neg haligned, Action.bind_of_ok hread, if_neg (by omega),
        Action.ofOutcome_bind (rangeOf_ok (by omega) (by omega))]
      rfl
    · rw [length_copyInto (by omega), hlen]
    · rw [copyInto_copyInto_sub (by omega) (by omega), hblock]

/-- The write loop changes exactly the range. -/
theorem writeLoop_spec (law : io.Obeys Ready content log)
    (hdvd : io.blockSize ∣ io.capacityBytes) {bytes : Bytes} (written : ℕ) (hready : Ready s)
    (hsize : (content s).length = io.capacityBytes) (hlt : io.capacityBytes < 2 ^ 64)
    (hin : cursor + (bytes.length - written) ≤ io.capacityBytes)
    (hone : io.blockSize = 1 → bytes.length - written < DATA_CAP)
    (hfuel : bytes.length - written < fuel) :
    ∃ s' cs, io.writeLoop bytes fuel cursor written s = (.ok ⟨⟩, s') ∧ Ready s' ∧
      content s' = copyInto (content s) cursor (bytes.drop written) ∧ log s' = log s ++ cs ∧
      Issued io.blockSize io.capacityBytes cursor (bytes.length - written) cs := by
  induction fuel generalizing cursor written s with
  | zero => omega
  | succ fuel ih =>
    obtain hzero | hpos := Nat.eq_zero_or_pos (bytes.length - written)
    · refine ⟨s, [], ?_, hready, ?_, (List.append_nil _).symm,
        hzero ▸ issued_nil law.pos law.le⟩
      · rw [Seam.writeLoop, if_pos (by omega)]
        rfl
      · rw [List.drop_eq_nil_of_le (by omega), copyInto_nil]
    have hround := law.round hdvd hpos hin hone
    have hmod := Nat.mod_lt cursor law.pos
    have hle := law.le
    have hwithin : cursor - cursor / io.blockSize * io.blockSize = cursor % io.blockSize := by
      have hdiv := Nat.div_add_mod' cursor io.blockSize
      omega
    generalize htake : min (bytes.length - written) (DATA_CAP - cursor % io.blockSize) = take
      at hround
    generalize hcount : divCeil (cursor % io.blockSize + take) io.blockSize = count at hround
    have hpiece : (sub bytes written take).length = take := length_sub (by omega)
    obtain ⟨s₁, chunk, reads, hchunk, hready₁, hcontent₁, hlog₁, hreads, hlen, hcopy⟩ :=
      chunk_spec law hready hsize hpiece hround
    obtain ⟨s₂, hwrite, hready₂, hcontent₂, hlog₂⟩ :=
      law.write s₁ (cursor / io.blockSize) count chunk hready₁ (hcontent₁ ▸ hsize) hround.pos
        hround.narrow hround.few (hcontent₁ ▸ hsize ▸ hround.inside) hlen
    have hstored : content s₂ = copyInto (content s) cursor (sub bytes written take) := by
      rw [hcontent₂, hcontent₁, hcopy]
    have hsize₂ : (content s₂).length = io.capacityBytes := by
      rw [hstored, length_copyInto (by omega), hsize]
    obtain ⟨s', cs, hloop, hready', hcontent', hlog', hissued⟩ :=
      ih (written + take) hready₂ hsize₂
        (show cursor + take + (bytes.length - (written + take)) ≤ io.capacityBytes by omega)
        (fun h => by have := hone h; omega) (by omega)
    refine ⟨s', (reads ++ [⟨cursor / io.blockSize, count⟩]) ++ cs, ?_, hready', ?_, ?_,
      hround.issued law.pos law.le hone htake.symm (fun c => ?_) ?_⟩
    · rw [Seam.writeLoop, if_neg (by omega)]
      dsimp only
      rw [hwithin, Action.ofOutcome_bind (checkedSub_ok (by omega)), htake, hcount,
        law.narrow count hround.narrow,
        Action.ofOutcome_bind (rangeOf_ok (by omega) (by omega)), Nat.add_sub_cancel_left,
        Action.bind_of_ok hchunk, Action.bind_of_ok hwrite,
        Action.ofOutcome_bind (checkedAdd_ok (by omega)), hloop]
    · rw [hcontent', hstored]
      have hsplit : sub bytes written take ++ bytes.drop (written + take) =
          bytes.drop written := by
        rw [sub, ← List.drop_drop, List.take_append_drop]
      have hend : cursor + (sub bytes written take).length +
          (bytes.drop (written + take)).length ≤ (content s).length := by
        rw [hpiece, List.length_drop]
        omega
      rw [← hsplit, ← copyInto_append hend, hpiece]
    · rw [hlog', hlog₂, hlog₁, List.append_assoc, List.append_assoc, List.append_assoc]
    · rw [List.mem_append, List.mem_singleton]
      exact ⟨fun h => h.elim (hreads c) id, .inr⟩
    · rwa [Nat.sub_sub]

end Loops

/-!
## Byte disks

A driver is a byte disk when every access to it is one to a plain array of bytes, with commands
that stay in the device and in one buffer. Where the commands move blocks as they should, a
sequence of accesses makes it one exactly when each of them suits the block size, or ends outside
the device.
-/

inductive Access where
  | read (offset len : ℕ)
  | write (offset : ℕ) (bytes : Bytes)

namespace Access

def offset : Access → ℕ
  | .read offset _ => offset
  | .write offset _ => offset

def length : Access → ℕ
  | .read _ len => len
  | .write _ bytes => bytes.length

def plain {ε : Type} (content : Bytes) : Access → Outcome (DiskFail ε) Bytes × Bytes
  | .read offset len =>
    if offset + len ≤ content.length then (.ok (sub content offset len), content)
    else (Outcome.fail .outOfRange, content)
  | .write offset bytes =>
    if offset + bytes.length ≤ content.length then (.ok [], copyInto content offset bytes)
    else (Outcome.fail .outOfRange, content)

end Access

variable {σ ε : Type}

def Seam.access (io : Seam σ ε) : Access → Action σ (DiskFail ε) Bytes
  | .read offset len => io.readBytes offset len
  | .write offset bytes => do
      io.writeBytes offset bytes
      pure []

/-- A command inside the device and the buffer. -/
def Seam.Allowed (io : Seam σ ε) (c : Command) : Prop :=
  (c.block + c.count) * io.blockSize ≤ io.capacityBytes ∧ c.count * io.blockSize ≤ DATA_CAP

/-- Every access of the sequence is that to a plain array. -/
def Seam.ByteDisk (io : Seam σ ε) (content : σ → Bytes) (log : σ → List Command) :
    List Access → σ → Prop
  | [], _ => True
  | a :: rest, s =>
    (io.access a s).1 = (a.plain (content s)).1 ∧
    content (io.access a s).2 = (a.plain (ε := ε) (content s)).2 ∧
    (∀ c ∈ log (io.access a s).2, io.Allowed c) ∧
    io.ByteDisk content log rest (io.access a s).2

variable {io : Seam σ ε} {Ready : σ → Prop} {content : σ → Bytes} {log : σ → List Command} {s : σ}
  {a : Access}

/-- An access that does not end inside the device issues nothing. -/
theorem access_outside (hsize : (content s).length = io.capacityBytes)
    (hout : io.capacityBytes < a.offset + a.length) :
    io.access a s = ((a.plain (content s)).1, s) ∧ (a.plain (ε := ε) (content s)).2 = content s := by
  have hcheck : ∀ offset len, io.capacityBytes < offset + len →
      io.checkRange offset len s = (Outcome.fail .outOfRange, s) := by
    intro offset len hlt
    rw [Seam.checkRange]
    split
    · rfl
    · rfl
  cases a with
  | read offset len =>
    have hlt : io.capacityBytes < offset + len := hout
    rw [Seam.access, Seam.readBytes, Action.bind_of_error (hcheck offset len hlt), Access.plain,
      if_neg (by omega)]
    exact ⟨rfl, rfl⟩
  | write offset bytes =>
    have hlt : io.capacityBytes < offset + bytes.length := hout
    rw [Seam.access, Seam.writeBytes,
      Action.bind_of_error (Action.bind_of_error (hcheck offset bytes.length hlt)), Access.plain,
      if_neg (by omega)]
    exact ⟨rfl, rfl⟩

theorem checkRange_inside {offset len : ℕ} (hlt : io.capacityBytes < 2 ^ 64)
    (hin : offset + len ≤ io.capacityBytes) : io.checkRange offset len s = (.ok ⟨⟩, s) := by
  rw [Seam.checkRange, if_pos (by omega), if_neg (by omega)]
  rfl

/-- An access inside the device is that to a plain array, and issues its commands. -/
theorem access_inside (law : io.Obeys Ready content log)
    (hdvd : io.blockSize ∣ io.capacityBytes) (hlt : io.capacityBytes < 2 ^ 64) (hready : Ready s)
    (hsize : (content s).length = io.capacityBytes)
    (hin : a.offset + a.length ≤ io.capacityBytes)
    (hone : io.blockSize = 1 → a.length < DATA_CAP) :
    ∃ s' cs, io.access a s = ((a.plain (content s)).1, s') ∧ Ready s' ∧
      content s' = (a.plain (ε := ε) (content s)).2 ∧ log s' = log s ++ cs ∧
      Issued io.blockSize io.capacityBytes a.offset a.length cs := by
  cases a with
  | read offset len =>
    have hin : offset + len ≤ io.capacityBytes := hin
    obtain ⟨s', cs, hloop, hready', hcontent, hlog, hissued⟩ :=
      readLoop_spec law hdvd [] hready hsize hlt hin hone (Nat.lt_succ_self len)
    refine ⟨s', cs, ?_, hready', ?_, hlog, hissued⟩
    · rw [Seam.access, Seam.readBytes, Action.bind_of_ok (checkRange_inside hlt hin), hloop,
        Access.plain, if_pos (by omega), List.nil_append]
    · rw [hcontent, Access.plain, if_pos (by omega)]
  | write offset bytes =>
    have hin : offset + bytes.length ≤ io.capacityBytes := hin
    obtain ⟨s', cs, hloop, hready', hcontent, hlog, hissued⟩ :=
      writeLoop_spec law hdvd 0 hready hsize hlt hin hone (Nat.lt_succ_self bytes.length)
    refine ⟨s', cs, ?_, hready', ?_, hlog, hissued⟩
    · have hwrite : io.writeBytes offset bytes s = (.ok ⟨⟩, s') := by
        rw [Seam.writeBytes, Action.bind_of_ok (checkRange_inside hlt hin), hloop]
      rw [Seam.access, Action.bind_of_ok hwrite, Access.plain, if_pos (by omega)]
      rfl
    · rw [hcontent, Access.plain, if_pos (by omega), List.drop_zero]

theorem length_plain : ((a.plain (ε := ε) (content s)).2).length = (content s).length := by
  cases a with
  | read offset len =>
    rw [Access.plain]
    split <;> rfl
  | write offset bytes =>
    rw [Access.plain]
    split
    · next h => exact length_copyInto h
    · rfl

theorem Access.plain_inside (h : a.offset + a.length ≤ (content s).length) :
    ∃ bytes, (a.plain (ε := ε) (content s)).1 = .ok bytes := by
  cases a with
  | read offset len => exact ⟨_, congrArg Prod.fst (if_pos h)⟩
  | write offset bytes => exact ⟨_, congrArg Prod.fst (if_pos h)⟩

/-- The driver is a byte disk for a sequence exactly when each access of it ends outside or suits
the block size. -/
theorem byteDisk_iff (law : io.Obeys Ready content log)
    (hdvd : io.blockSize ∣ io.capacityBytes) (hlt : io.capacityBytes < 2 ^ 64)
    (hone : ∀ a s, Ready s → (content s).length = io.capacityBytes → io.blockSize = 1 →
      DATA_CAP ≤ a.length → a.offset + a.length ≤ io.capacityBytes →
      ∀ bytes, (io.access a s).1 ≠ .ok bytes)
    {accesses : List Access} (hready : Ready s)
    (hsize : (content s).length = io.capacityBytes) (hlog : ∀ c ∈ log s, io.Allowed c) :
    io.ByteDisk content log accesses s ↔
      ∀ a ∈ accesses, io.capacityBytes < a.offset + a.length ∨
        Suits io.blockSize a.offset a.length := by
  induction accesses generalizing s with
  | nil => exact iff_of_true trivial (by simp)
  | cons a accesses ih =>
    rw [Seam.ByteDisk, List.forall_mem_cons]
    by_cases hout : io.capacityBytes < a.offset + a.length
    · obtain ⟨haccess, hplain⟩ : io.access a s = ((a.plain (content s)).1, s) ∧
          (a.plain (ε := ε) (content s)).2 = content s := access_outside hsize hout
      rw [haccess, hplain, ih hready hsize hlog]
      exact ⟨fun h => ⟨.inl hout, h.2.2.2⟩, fun h => ⟨rfl, rfl, hlog, h.2⟩⟩
    have hin : a.offset + a.length ≤ io.capacityBytes := Nat.le_of_not_lt hout
    by_cases hbig : io.blockSize = 1 ∧ DATA_CAP ≤ a.length
    · apply iff_of_false
      · rintro ⟨hresult, -⟩
        obtain ⟨bytes, hbytes⟩ := Access.plain_inside (ε := ε) (hsize ▸ hin)
        exact hone a s hready hsize hbig.1 hbig.2 hin bytes (hresult.trans hbytes)
      · rintro ⟨hfirst, -⟩
        have hlen := (hfirst.resolve_left hout).1 hbig.1
        omega
    obtain ⟨s', cs, haccess, hready', hcontent, hlog', hissued⟩ :=
      access_inside law hdvd hlt hready hsize hin (by omega)
    have hsize' : (content s').length = io.capacityBytes := by
      rw [hcontent, length_plain, hsize]
    have hallowed : (∀ c ∈ log s', io.Allowed c) ↔ Suits io.blockSize a.offset a.length := by
      rw [← hissued.buffer, hlog', List.forall_mem_append]
      exact ⟨fun h c hc => (h.2 c hc).2, fun h => ⟨hlog, fun c hc => ⟨hissued.inside c hc, h c hc⟩⟩⟩
    rw [haccess, hallowed]
    constructor
    · rintro ⟨-, -, hsuits, hrest⟩
      exact ⟨.inr hsuits, (ih hready' hsize' (hallowed.mpr hsuits)).mp hrest⟩
    · rintro ⟨hfirst, hrest⟩
      have hsuits := hfirst.resolve_left hout
      exact ⟨rfl, hcontent, hsuits, (ih hready' hsize' (hallowed.mpr hsuits)).mpr hrest⟩

end Eo9.Sectors
