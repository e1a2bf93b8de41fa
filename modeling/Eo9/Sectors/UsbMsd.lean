import Eo9.Msd.Device
import Eo9.Sectors.ByteDisk

/-!
# `usb.msd`

The byte operations of `usb.msd`, over the command engine and a stick that answers every command
inside its medium. The data of a read comes in pieces of any size.
-/

namespace Eo9.Sectors.UsbMsd

open Eo9.Library

inductive Failure where
  | command (what : String) (e : Msd.MsdError)
  | shortRead (text : String)

/-- A stick: the size of its pieces, and what it answers to a command that leaves the medium. -/
structure Stick where
  grain : ℕ
  grain_pos : 0 < grain
  outside : List Msd.Answer

/-- The engine, the medium, and the commands that were issued. -/
structure State where
  bot : Msd.Bot
  medium : Bytes
  log : List Command

/-- The status wrapper of a command that passed. -/
def passed (tag : ℕ) : Bytes :=
  Msd.CSW_SIGNATURE ++ leBytes 4 tag ++ leBytes 4 0 ++ [Msd.CSW_PASSED]

/-- The answers to a command: to its wrapper, to its data stage, and its status. -/
def answers (bot : Msd.Bot) (stage : List Bytes) : List Msd.Answer :=
  .ok ⟨[], none⟩ :: (stage.map (fun bytes => .ok ⟨bytes, none⟩) ++
    [.ok ⟨passed ((bot.tag + 1) % 2 ^ 32), none⟩])

/-- `msd_failure`; an engine that no answer comes for waits for ever. -/
def failure {α : Type} (what : String) : Outcome (Ended Msd.MsdError) α → Outcome (DiskFail Failure) α :=
  Outcome.mapErr fun
    | .failed e => Outcome.fail (.io (.command what e))
    | .dropped => .error .diverge

variable (stick : Stick) (blockSize : ℕ)

def inside (s : State) (c : Command) : Bool :=
  decide ((c.block + c.count) * blockSize ≤ s.medium.length)

/-- READ(10). -/
def read (edges : Bool) (block count : ℕ) : Action State (DiskFail Failure) Bytes := fun s =>
  let lba := UInt32.ofNat block
  let blocks := UInt16.ofNat count
  let c : Command := ⟨lba.toNat, blocks.toNat⟩
  let data := sub s.medium (c.block * blockSize) (c.count * blockSize)
  let replies := if inside blockSize s c then answers s.bot (chunks stick.grain data)
    else stick.outside
  let r := Msd.read10 lba blocks (UInt32.ofNat blockSize) ⟨s.bot, replies, []⟩
  (failure (if edges then "READ(10) (RMW)" else "READ(10)") r.1, ⟨r.2.own, s.medium, s.log ++ [c]⟩)

/-- WRITE(10). -/
def write (block count : ℕ) (bytes : Bytes) : Action State (DiskFail Failure) PUnit := fun s =>
  let lba := UInt32.ofNat block
  let blocks := UInt16.ofNat count
  let c : Command := ⟨lba.toNat, blocks.toNat⟩
  let replies := if inside blockSize s c then answers s.bot [[]] else stick.outside
  let r := Msd.write10 lba blocks (UInt32.ofNat blockSize) bytes ⟨s.bot, replies, []⟩
  let medium := if inside blockSize s c && r.1.isOk then
      copyInto s.medium (c.block * blockSize) bytes
    else s.medium
  (failure "WRITE(10)" r.1, ⟨r.2.own, medium, s.log ++ [c]⟩)

/-- The block size that bring-up accepted, and the capacity. -/
structure Driver where
  blockSize : ℕ
  capacityBytes : ℕ
  pos : 0 < blockSize
  le : blockSize ≤ DATA_CAP

/-- The geometry check of `bring_up`. -/
def bringUp (capacity : Msd.Capacity) : Except String Driver :=
  if h : capacity.blockSize = 0 ∨ DATA_CAP < capacity.blockSize then
    .error ("usb.msd: READ CAPACITY(10) reports an unusable block size of " ++
      s!"{capacity.blockSize} byte(s)")
  else .ok ⟨capacity.blockSize, (capacity.lastLba + 1) * capacity.blockSize, by omega, by omega⟩

def Driver.seam (driver : Driver) : Seam State Failure where
  blockSize := driver.blockSize
  capacityBytes := driver.capacityBytes
  narrow n := n % 2 ^ 16
  read := read stick driver.blockSize
  write := write stick driver.blockSize
  shortRead := .shortRead "usb.msd: short read during read-modify-write"

section Exchange

open Msd

variable {bot : Bot} {wire : List (Call × Option Answer)} {pieces : List Bytes} {rest : List Answer}
  {tag : ℕ}

theorem decodeCsw_passed (htag : tag < 2 ^ 32) : decodeCsw (passed tag) tag = .ok ⟨tag, 0, 0⟩ := by
  have htagOf : tagOf (passed tag) = tag := by
    rw [tagOf, tagBytes, passed, List.append_assoc, List.append_assoc,
      List.drop_left' (show CSW_SIGNATURE.length = 4 from rfl),
      List.take_left' (length_leBytes 4 tag), leValue_leBytes 4 tag (by omega)]
  have hbehind : (passed tag).drop 8 = leBytes 4 0 ++ [CSW_PASSED] := by
    rw [passed, List.append_assoc]
    exact List.drop_left' (by rw [List.length_append, length_leBytes]; rfl)
  have hstatus : (passed tag).getD 12 0 = 0 := by
    rw [List.getD_eq_getElem?_getD, show 12 = 8 + 4 from rfl, ← List.getElem?_drop, hbehind]
    rfl
  have hlen : (passed tag).length = CSW_LEN := by
    simp [passed, CSW_SIGNATURE, CSW_LEN, CSW_PASSED]
  rw [decodeCsw, if_neg (by omega), if_neg, htagOf, if_neg (by omega), hstatus, if_neg (by decide),
    hbehind]
  · rfl
  · rw [passed, List.append_assoc, List.append_assoc,
      List.take_left' (show CSW_SIGNATURE.length = 4 from rfl)]
    exact not_not.mpr rfl

/-- The data stage of a read puts the pieces together. -/
theorem readData_pieces {expected fuel : ℕ} {data : Bytes} (hnonempty : ∀ c ∈ pieces, c ≠ [])
    (hlen : (data ++ pieces.flatten).length = expected) (hlt : expected < 2 ^ 32)
    (hfuel : pieces.length < fuel) :
    ∃ wire', readData expected fuel data
        ⟨bot, pieces.map (fun bytes => .ok ⟨bytes, none⟩) ++ rest, wire⟩ =
      (.ok (data ++ pieces.flatten), ⟨bot, rest, wire'⟩) := by
  induction pieces generalizing fuel data wire with
  | nil =>
    cases fuel with
    | zero => omega
    | succ fuel =>
      rw [List.flatten_nil, List.append_nil] at hlen
      refine ⟨wire, ?_⟩
      rw [readData, if_pos (by omega), List.flatten_nil, List.append_nil]
      rfl
  | cons c pieces ih =>
    cases fuel with
    | zero => omega
    | succ fuel =>
      obtain ⟨hc, hpieces⟩ := List.forall_mem_cons.mp hnonempty
      have hpos : 0 < c.length := List.length_pos_iff.mpr hc
      rw [List.flatten_cons, ← List.append_assoc] at hlen ⊢
      have hshort : data.length < expected := by
        rw [List.length_append, List.length_append] at hlen
        omega
      obtain ⟨wire', hrest⟩ : ∃ wire', readData expected fuel (data ++ c)
          ⟨bot, pieces.map (fun bytes => .ok ⟨bytes, none⟩) ++ rest,
            wire ++ [(.dataIn (expected - data.length % 2 ^ 32), some (.ok ⟨c, none⟩))]⟩ =
          (.ok (data ++ c ++ pieces.flatten), ⟨bot, rest, wire'⟩) :=
        ih hpieces hlen (Nat.lt_of_succ_lt_succ hfuel)
      refine ⟨wire', ?_⟩
      rw [readData, if_neg (by omega), List.map_cons, List.cons_append,
        Action.bind_of_ok (Dialogue.await_cons _ _ _)]
      dsimp only
      rw [if_neg (by rw [List.isEmpty_iff]; exact hc)]
      exact hrest

/-- The pieces of the data are its data stage. -/
theorem moveData_chunks {grain : ℕ} {data : Bytes} (hgrain : 0 < grain)
    (hlt : data.length < 2 ^ 32) :
    ∃ wire', moveData (.dataIn data.length)
        ⟨bot, (chunks grain data).map (fun bytes => .ok ⟨bytes, none⟩) ++ rest, wire⟩ =
      (.ok data, ⟨bot, rest, wire'⟩) := by
  have hflatten := flatten_chunks hgrain data
  have hnonempty : ∀ c ∈ chunks grain data, c ≠ [] :=
    fun c hc => List.length_pos_iff.mp (length_mem_chunks hgrain hc).1
  obtain ⟨wire', hread⟩ : ∃ wire', readData data.length
      (((chunks grain data).map (fun bytes => (.ok ⟨bytes, none⟩ : Answer)) ++ rest).length + 1) []
      ⟨bot, (chunks grain data).map (fun bytes => .ok ⟨bytes, none⟩) ++ rest, wire⟩ =
        (.ok ([] ++ (chunks grain data).flatten), ⟨bot, rest, wire'⟩) := by
    apply readData_pieces hnonempty (by rw [List.nil_append, hflatten]) hlt
    rw [List.length_append, List.length_map]
    omega
  refine ⟨wire', ?_⟩
  rw [moveData, Action.bind_of_ok (Action.gets_apply _ _), hread, List.nil_append, hflatten]

/-- A command that the stick answers, with the data of its stage. -/
theorem command_answered {cdb data : Bytes} {phase : DataPhase} {stage : List Bytes}
    (hmid : bot.midCommand = false) (hcdb : 1 ≤ cdb.length ∧ cdb.length ≤ MAX_CDB_LEN)
    (hstage : ∀ bot wire, ∃ wire',
      moveData phase ⟨bot, stage.map (fun bytes => .ok ⟨bytes, none⟩) ++ rest, wire⟩ =
        (.ok data, ⟨bot, rest, wire'⟩))
    (hrest : rest = [.ok ⟨passed ((bot.tag + 1) % 2 ^ 32), none⟩]) :
    ∃ io, command cdb phase ⟨bot, answers bot stage, []⟩ = (.ok (data, 0), io) ∧
      io.own.midCommand = false := by
  have hlt : (bot.tag + 1) % 2 ^ 32 < 2 ^ 32 := Nat.mod_lt _ (by decide)
  generalize htag : (bot.tag + 1) % 2 ^ 32 = tag at hlt hrest
  have hresync : resync ⟨bot, answers bot stage, []⟩ = (.ok ⟨⟩, ⟨bot, answers bot stage, []⟩) := by
    rw [resync, Action.bind_of_ok (Action.gets_apply _ _), hmid]
    rfl
  have htake : takeTag ⟨bot, answers bot stage, []⟩ =
      (.ok tag, ⟨⟨tag, bot.midCommand⟩, answers bot stage, []⟩) := by
    rw [takeTag, Action.update_apply, ← htag]
  obtain ⟨wire', hmove⟩ := hstage ⟨tag, true⟩ [(.cbw (cbwBytes tag phase.transferLength
    phase.direction 0 cdb), some (.ok ⟨[], none⟩))]
  have hset : setMidCommand true ⟨⟨tag, bot.midCommand⟩, answers bot stage, []⟩ =
      (.ok ⟨⟩, ⟨⟨tag, true⟩, answers bot stage, []⟩) := rfl
  have hsend : sendCbw (cbwBytes tag phase.transferLength phase.direction 0 cdb)
        ⟨⟨tag, true⟩, answers bot stage, []⟩ =
      (.ok ⟨⟩, ⟨⟨tag, true⟩, stage.map (fun bytes => .ok ⟨bytes, none⟩) ++ rest,
        [(.cbw (cbwBytes tag phase.transferLength phase.direction 0 cdb),
          some (.ok ⟨[], none⟩))]⟩) := by
    rw [sendCbw, answers, htag, hrest]
    rfl
  have hstatus : readCsw ⟨⟨tag, true⟩, rest, wire'⟩ =
      (.ok ⟨passed tag, none⟩,
        ⟨⟨tag, true⟩, [], wire' ++ [(.csw, some (.ok ⟨passed tag, none⟩))]⟩) := by
    rw [hrest]
    rfl
  have haccept (io : Io) : acceptCsw ⟨passed tag, none⟩ tag io = (.ok ⟨tag, 0, 0⟩, io) := by
    rw [acceptCsw, decodeCsw_passed hlt]
    rfl
  have hexecute : execute cdb phase ⟨bot, answers bot stage, []⟩ =
      (.ok (data, ⟨tag, 0, 0⟩),
        ⟨⟨tag, false⟩, [], wire' ++ [(.csw, some (.ok ⟨passed tag, none⟩))]⟩) := by
    rw [execute, Action.bind_of_ok hresync, Action.bind_of_ok htake,
      Action.ofOutcome_bind (encodeCbw_ok hcdb), Action.bind_of_ok hset, Action.bind_of_ok hsend,
      Action.bind_of_ok hmove, Action.bind_of_ok hstatus,
      Action.bind_of_ok (haccept _)]
    rfl
  refine ⟨⟨⟨tag, false⟩, [], wire' ++ [(.csw, some (.ok ⟨passed tag, none⟩))]⟩, ?_, rfl⟩
  rw [command, Action.bind_of_ok hexecute]
  rfl

/-- A read that the stick answers returns the data. -/
theorem read10_answered (lba : UInt32) (blocks : UInt16) (blockSize : UInt32) {grain : ℕ}
    {data : Bytes} (hmid : bot.midCommand = false) (hgrain : 0 < grain)
    (hlen : data.length = blocks.toNat * blockSize.toNat) (hlt : data.length < 2 ^ 32) :
    ∃ io, Msd.read10 lba blocks blockSize ⟨bot, answers bot (chunks grain data), []⟩ =
      (.ok data, io) ∧ io.own.midCommand = false := by
  have hcdb : (Scsi.read10 lba blocks).length = 10 := Scsi.length_rw10 _ _ _
  obtain ⟨io, hcommand, hmid'⟩ : ∃ io, command (Scsi.read10 lba blocks) (.dataIn data.length)
      ⟨bot, answers bot (chunks grain data), []⟩ = (.ok (data, 0), io) ∧
        io.own.midCommand = false :=
    command_answered hmid (by rw [hcdb]; decide) (fun _ _ => moveData_chunks hgrain hlt) rfl
  refine ⟨io, ?_, hmid'⟩
  rw [Msd.read10, Action.ofOutcome_bind (checkedMul_ok (by omega)), ← hlen,
    Action.bind_of_ok hcommand]
  dsimp only
  rw [if_neg (by omega)]
  rfl
/-- A write that the stick answers passes. -/
theorem write10_answered (lba : UInt32) (blocks : UInt16) (blockSize : UInt32) {data : Bytes}
    (hmid : bot.midCommand = false) (hlen : data.length = blocks.toNat * blockSize.toNat)
    (hlt : data.length < 2 ^ 32) :
    ∃ io, Msd.write10 lba blocks blockSize data ⟨bot, answers bot [[]], []⟩ = (.ok ⟨⟩, io) ∧
      io.own.midCommand = false := by
  have hcdb : (Scsi.write10 lba blocks).length = 10 := Scsi.length_rw10 _ _ _
  obtain ⟨io, hcommand, hmid'⟩ : ∃ io, command (Scsi.write10 lba blocks) (.dataOut data)
      ⟨bot, answers bot [[]], []⟩ = (.ok ([], 0), io) ∧ io.own.midCommand = false :=
    command_answered hmid (by rw [hcdb]; decide)
      (fun _ wire => ⟨wire ++ [(.dataOut data, some (.ok ⟨[], none⟩))], rfl⟩) rfl
  refine ⟨io, ?_, hmid'⟩
  rw [Msd.write10, Action.ofOutcome_bind (checkedMul_ok (by omega)), if_neg (by omega),
    Action.bind_of_ok hcommand]
  rfl

end Exchange

variable {stick : Stick} {driver : Driver} {lastLba : ℕ}

/-- The commands of the driver move the blocks of the medium. -/
theorem obeys (hlast : lastLba < 2 ^ 32)
    (hcapacity : driver.capacityBytes = (lastLba + 1) * driver.blockSize) :
    (driver.seam stick).Obeys (fun s => s.bot.midCommand = false) State.medium State.log := by
  have hbs : (UInt32.ofNat driver.blockSize).toNat = driver.blockSize :=
    UInt32.toNat_ofNat_of_lt' (Nat.lt_of_le_of_lt driver.le (by decide))
  have hcommand : ∀ (s : State) (block count : ℕ), s.medium.length = driver.capacityBytes →
      0 < count → count < 2 ^ 16 → (block + count) * driver.blockSize ≤ s.medium.length →
      (UInt32.ofNat block).toNat = block ∧ (UInt16.ofNat count).toNat = count ∧
        count * driver.blockSize < 2 ^ 32 ∧
        block * driver.blockSize + count * driver.blockSize ≤ s.medium.length := by
    intro s block count hsize hpos hcount hin
    have hblocks : block + count ≤ lastLba + 1 := by
      rw [hsize, hcapacity] at hin
      exact Nat.le_of_mul_le_mul_right hin driver.pos
    have hmul : count * driver.blockSize ≤ (2 ^ 16 - 1) * 2 ^ 16 :=
      Nat.mul_le_mul (by omega) driver.le
    rw [Nat.add_mul] at hin
    exact ⟨UInt32.toNat_ofNat_of_lt' (show block < 2 ^ 32 by omega), UInt16.toNat_ofNat_of_lt' hcount, by omega, hin⟩
  constructor
  · exact driver.pos
  · exact driver.le
  · exact fun n hn => Nat.mod_eq_of_lt hn
  · intro s edges block count hmid hsize hpos hcount _ hin
    obtain ⟨hlba, hblocks, hlt, hinside⟩ := hcommand s block count hsize hpos hcount hin
    have hserved : inside driver.blockSize s ⟨block, count⟩ = true := decide_eq_true hin
    have hlen := length_sub hinside
    obtain ⟨io, hread, hmid'⟩ := read10_answered (UInt32.ofNat block) (UInt16.ofNat count)
      (UInt32.ofNat driver.blockSize) hmid stick.grain_pos (by rw [hlen, hblocks, hbs]) (by omega)
    refine ⟨⟨io.own, s.medium, s.log ++ [⟨block, count⟩]⟩, ?_, hmid', rfl, rfl⟩
    change read stick driver.blockSize edges block count s = _
    rw [read]
    dsimp only
    rw [hlba, hblocks, hserved, if_pos rfl, hread]
    rfl
  · intro s block count data hmid hsize hpos hcount _ hin hdata
    obtain ⟨hlba, hblocks, hlt, hinside⟩ := hcommand s block count hsize hpos hcount hin
    have hserved : inside driver.blockSize s ⟨block, count⟩ = true := decide_eq_true hin
    obtain ⟨io, hwrite, hmid'⟩ := write10_answered (UInt32.ofNat block) (UInt16.ofNat count)
      (UInt32.ofNat driver.blockSize) hmid (by rw [hdata, hblocks, hbs]; rfl) (by rw [hdata]; exact hlt)
    refine ⟨⟨io.own, copyInto s.medium (block * driver.blockSize) data,
      s.log ++ [⟨block, count⟩]⟩, ?_, hmid', rfl, rfl⟩
    change write stick driver.blockSize block count data s = _
    rw [write]
    dsimp only
    rw [hlba, hblocks, hserved, if_pos rfl, hwrite]
    rfl

/-- Of blocks of one byte, 65536 are a count of none. -/
theorem narrow_cap : divCeil (0 + DATA_CAP) 1 % 2 ^ 16 = 0 := by decide

/-- With blocks of one byte, an access of the size of the buffer panics. -/
theorem access_overlong {a : Access} {s : State} (hmid : s.bot.midCommand = false)
    (hsize : s.medium.length = driver.capacityBytes) (hlt : driver.capacityBytes < 2 ^ 64)
    (hone : driver.blockSize = 1) (hlong : DATA_CAP ≤ a.length)
    (hin : a.offset + a.length ≤ driver.capacityBytes) :
    ∃ site, ((driver.seam stick).access a s).1 = .error (.panic site) := by
  have hbs : (driver.seam stick).blockSize = 1 := hone
  have hnone : (driver.seam stick).narrow (divCeil (0 + DATA_CAP) 1) = 0 := narrow_cap
  have hrange : rangeOf ([] : Bytes) 0 (0 + DATA_CAP) =
      (Outcome.panic "range out of bounds" : Outcome (DiskFail Failure) Bytes) :=
    if_neg (by decide)
  cases a with
  | read offset len =>
    have hin : offset + len ≤ (driver.seam stick).capacityBytes := hin
    have hlong : DATA_CAP ≤ len := hlong
    have hroom : min len (DATA_CAP - 0) = DATA_CAP := by omega
    have hcap : 0 < DATA_CAP := by decide
    have hserved : inside driver.blockSize s ⟨(UInt32.ofNat offset).toNat, 0⟩ = true := by
      apply decide_eq_true
      have hle : (UInt32.ofNat offset).toNat ≤ offset := by
        rw [UInt32.toNat_ofNat']
        exact Nat.mod_le _ _
      have hin : offset + len ≤ driver.capacityBytes := hin
      rw [hone]
      dsimp only
      omega
    obtain ⟨io, hread, -⟩ : ∃ io, Msd.read10 (UInt32.ofNat offset) (UInt16.ofNat 0)
        (UInt32.ofNat driver.blockSize) ⟨s.bot, answers s.bot (chunks stick.grain []), []⟩ =
          (.ok [], io) ∧ io.own.midCommand = false :=
      read10_answered _ _ _ hmid stick.grain_pos (by simp) (by decide)
    have hempty : (driver.seam stick).read false offset 0 s =
        (.ok [], ⟨io.own, s.medium, s.log ++ [⟨(UInt32.ofNat offset).toNat, 0⟩]⟩) := by
      change read stick driver.blockSize false offset 0 s = _
      rw [read]
      dsimp only
      rw [show (UInt16.ofNat 0).toNat = 0 from rfl, hserved, if_pos rfl, Nat.zero_mul, sub_empty,
        hread]
      rfl
    refine ⟨"range out of bounds", ?_⟩
    rw [Seam.access, Seam.readBytes, Action.bind_of_ok (checkRange_inside hlt hin),
      Seam.readLoop, if_neg (by omega)]
    dsimp only
    rw [hbs, Nat.div_one, Nat.mul_one, Nat.sub_self,
      Action.ofOutcome_bind (checkedSub_ok (by decide)), hroom, hnone, Action.bind_of_ok hempty,
      Action.ofOutcome_bind_error hrange]
  | write offset bytes =>
    have hin : offset + bytes.length ≤ (driver.seam stick).capacityBytes := hin
    have hlong : DATA_CAP ≤ bytes.length := hlong
    have hroom : min (bytes.length - 0) (DATA_CAP - 0) = DATA_CAP := by omega
    have hcap : 0 < DATA_CAP := by decide
    have hpiece : (sub bytes 0 DATA_CAP).length = DATA_CAP := length_sub (by omega)
    have hchunk : (driver.seam stick).chunk offset 0 0 (0 + DATA_CAP) (sub bytes 0 DATA_CAP) s =
        (.ok (sub bytes 0 DATA_CAP), s) := by
      rw [Seam.chunk, if_pos ⟨rfl, by rw [hbs, Nat.mod_one]⟩]
      rfl
    have hassert (io : Msd.Io) : Msd.write10 (UInt32.ofNat offset) (UInt16.ofNat 0)
        (UInt32.ofNat driver.blockSize) (sub bytes 0 DATA_CAP) io =
          (Outcome.panic "write10 payload size", io) := by
      have hne : (sub bytes 0 DATA_CAP).length % 2 ^ 32 ≠
          (UInt16.ofNat 0).toNat * (UInt32.ofNat driver.blockSize).toNat := by
        rw [hpiece, show (UInt16.ofNat 0).toNat = 0 from rfl, Nat.zero_mul]
        decide
      rw [Msd.write10, Action.ofOutcome_bind (checkedMul_ok (by simp)), if_pos hne]
      rfl
    obtain ⟨s', hwrite⟩ : ∃ s', (driver.seam stick).write offset 0 (sub bytes 0 DATA_CAP) s =
        (.error (.panic "write10 payload size"), s') := by
      refine ⟨((driver.seam stick).write offset 0 (sub bytes 0 DATA_CAP) s).2, Prod.ext ?_ rfl⟩
      change (write stick driver.blockSize offset 0 (sub bytes 0 DATA_CAP) s).1 = _
      rw [write]
      dsimp only
      rw [hassert]
      rfl
    refine ⟨"write10 payload size", ?_⟩
    have hloop : (driver.seam stick).writeBytes offset bytes s =
        (.error (.panic "write10 payload size"), s') := by
      rw [Seam.writeBytes, Action.bind_of_ok (checkRange_inside hlt hin), Seam.writeLoop,
        if_neg (by omega)]
      dsimp only
      rw [hbs, Nat.div_one, Nat.mul_one, Nat.sub_self,
        Action.ofOutcome_bind (checkedSub_ok (by decide)), hroom, hnone,
        Action.ofOutcome_bind (rangeOf_ok (by omega) (by omega)), Nat.add_sub_cancel_left,
        Action.bind_of_ok hchunk, Action.bind_of_error hwrite]
    rw [Seam.access, Action.bind_of_error hloop]

end Eo9.Sectors.UsbMsd
