import Eo9.Library.Runs
import Eo9.DiskPart.Table

/-!
# Partitions are isolated

On a lawful disk, whatever its content, a provider windowed on one partition reads
that partition and the sectors of the table, and writes that partition alone; so the
other partitions and the table itself stay as they are.
-/

namespace Eo9.DiskPart

open Eo9.Library Eo9.Library.Action
open Eo9.Partwalk

/-- A read of a sector of the table. -/
def TableRead (asked : List Nat) (a : Access) : Prop :=
  ∃ lba ∈ 0 :: asked, a = .read (lba * sectorSize) sectorSize

section Provider

variable {D : Type} [UnderlyingDisk D] [LawfulDisk D] {asked : List Nat} {s s' s'' : Session D}

/-- Between the two states, only sectors of the table were read. -/
structure Opening (asked : List Nat) (s s' : Session D) : Prop where
  byte_eq : byte s'.disk = byte s.disk
  size_eq : UnderlyingDisk.size s'.disk = UnderlyingDisk.size s.disk
  log : ∃ reads, s'.log = s.log ++ reads ∧ ∀ a ∈ reads, TableRead asked a

theorem Opening.refl (s : Session D) : Opening asked s s :=
  ⟨rfl, rfl, [], (List.append_nil _).symm, fun _ h => absurd h List.not_mem_nil⟩

theorem Opening.trans (h : Opening asked s s') (h' : Opening asked s' s'') :
    Opening asked s s'' := by
  obtain ⟨reads, hlog, hreads⟩ := h.log
  obtain ⟨reads', hlog', hreads'⟩ := h'.log
  refine ⟨h'.byte_eq.trans h.byte_eq, h'.size_eq.trans h.size_eq, reads ++ reads', ?_, ?_⟩
  · rw [hlog', hlog, List.append_assoc]
  · intro a ha
    rcases List.mem_append.mp ha with ha | ha
    · exact hreads a ha
    · exact hreads' a ha

/-- How the walk of the table stops: with a refusal. -/
def Refused (asked : List Nat) (s : Session D) (e : Stop Refusal) (s' : Session D) : Prop :=
  (∃ r, e = .err r) ∧ s'.state = s.state ∧ Opening asked s s'

theorem Refused.after {e : Stop Refusal} (hstate : s'.state = s.state)
    (hopening : Opening asked s s') (h : Refused asked s' e s'') : Refused asked s e s'' :=
  ⟨h.1, h.2.1.trans hstate, hopening.trans h.2.2⟩

theorem wp_readTableSector {lba : Nat} (hlba : lba ∈ 0 :: asked)
    (hfits : lba * sectorSize < 2 ^ 64) :
    wp (readTableSector lba) s
      (fun sector s' => sector = sectorAt (byte s.disk) lba ∧ s'.state = s.state ∧
        Opening asked s s') (Refused asked s) := by
  refine wp_bind_of_ok (congrArg (·, s) (checkedMul_ok hfits)) ?_
  refine wp_bind_of_ok (update_apply _ _) ?_
  have hopening : Opening asked s
      { s with
        disk := (UnderlyingDisk.read (lba * sectorSize) (List.replicate sectorSize 0) s.disk).2
        log := s.log ++ [.read (lba * sectorSize) (List.replicate sectorSize (0 : UInt8)).length] } := by
    refine ⟨LawfulDisk.read_byte _ _ _, LawfulDisk.read_size _ _ _, _, rfl, ?_⟩
    intro a ha
    rw [List.mem_singleton.mp ha, List.length_replicate]
    exact ⟨lba, hlba, rfl⟩
  have hbuffer := LawfulDisk.read_buffer (lba * sectorSize) (List.replicate sectorSize 0) s.disk
  rcases hread : UnderlyingDisk.read (lba * sectorSize) (List.replicate sectorSize 0) s.disk with
    ⟨⟨dst, e | bytesRead⟩, d⟩
  all_goals rw [hread] at hopening hbuffer
  · exact wp_fail ⟨⟨_, rfl⟩, rfl, hopening⟩
  · dsimp only at hbuffer ⊢
    split
    · exact wp_fail ⟨⟨_, rfl⟩, rfl, hopening⟩
    · rename_i hlong
      obtain ⟨hle, htake⟩ := hbuffer bytesRead rfl
      rw [List.length_replicate] at hle
      have hbytes : bytesRead = sectorSize := Nat.le_antisymm hle (Nat.not_lt.mp hlong)
      rw [hbytes] at htake
      exact wp_pure ⟨htake, rfl, hopening⟩

/-- A sector that the walker waits for has a 64-bit offset. -/
theorem waiting_fits {sector0 : Buffer} {deviceSectors lba : Nat} {before : List Nat}
    {w : Walker} (h : Walker.Waiting sector0 deviceSectors lba before w)
    (hdevice : deviceSectors * sectorSize < 2 ^ 64) : lba * sectorSize < 2 ^ 64 := by
  obtain ⟨c, hc, hcovers⟩ := h.valid.ebr_inside lba (by simp [h.asked_eq])
  have hfits := (h.valid.container c hc).1.2.2
  rw [h.device_eq] at hfits
  have hlt : lba < deviceSectors := hcovers.2.trans_le hfits
  exact (Nat.mul_le_mul_right sectorSize hlt.le).trans_lt hdevice

theorem wp_walkTable {sector0 : Buffer} {deviceSectors fuel : Nat} {before : List Nat}
    {o : Outcome TableError Step × Walker} {table : PartitionTable}
    (hsafe : Walker.StepSafe sector0 deviceSectors before o)
    (hdevice : deviceSectors * sectorSize < 2 ^ 64)
    (hwalk : contentWalk (byte s.disk) fuel before o = (asked, .ok table)) :
    wp (walkTable fuel o) s
      (fun table' s' => table' = table ∧ s'.state = s.state ∧ Opening asked s s')
      (Refused asked s) := by
  induction fuel generalizing s before o with
  | zero => exact absurd (Prod.mk.inj hwalk).2 nofun
  | succ fuel ih =>
    rcases o with ⟨_ | lba | table', walker⟩
    · exact absurd (Prod.mk.inj hwalk).2 nofun
    · have hwait : Walker.Waiting sector0 deviceSectors lba before walker := hsafe
      have hgrown : before ++ [lba] <+: asked := contentWalk_prefix hwalk
      have hlba : lba ∈ 0 :: asked := List.mem_cons_of_mem _
        (hgrown.subset (List.mem_append_right _ List.mem_cons_self))
      refine wp_bind_of_ok (a := .need lba) rfl ?_
      refine wp_bind (wp_readTableSector hlba (waiting_fits hwait hdevice)) ?_ fun _ _ => id
      rintro sector s₁ ⟨hsector, hstate, hopening⟩
      have hnext : contentWalk (byte s₁.disk) fuel (before ++ [lba])
          (Walker.feed sector walker) = (asked, .ok table) := by
        rw [hopening.byte_eq, hsector]
        exact hwalk
      refine wp_mono (ih (stepSafe_feed hwait _) hnext) ?_ ?_
      · rintro table' s₂ ⟨rfl, hstate', hopening'⟩
        exact ⟨rfl, hstate'.trans hstate, hopening.trans hopening'⟩
      · exact fun _ _ h => h.after hstate hopening
    · obtain rfl := Except.ok.inj (Prod.mk.inj hwalk).2
      refine wp_bind_of_ok (a := .done table') rfl ?_
      exact wp_pure ⟨rfl, rfl, .refl s⟩

variable {content : Nat → UInt8} {table : PartitionTable} {i : Nat} {p : Partition}
  {size : UInt64}

def windowOf (p : Partition) : Window := ⟨p.startLba * sectorSize, p.sectors * sectorSize⟩

/-- What holds of a provider in use: its device is the one of the start outside of the
selected partition, and a window that is up is the partition's. -/
structure Windowed (size : UInt64) (content : Nat → UInt8) (i : Nat) (p : Partition)
    (s : Session D) : Prop where
  selected : s.state.selected = i
  window : ∀ w, s.state.window = some w → w = windowOf p
  size_eq : UnderlyingDisk.size s.disk = size
  outside : ∀ k, ¬ InSpan p k → byte s.disk k = content k

theorem Windowed.opening (h : Windowed size content i p s) (hstate : s'.state = s.state)
    (hopening : Opening asked s s') : Windowed size content i p s' where
  selected := (congrArg State.selected hstate).trans h.selected
  window := hstate ▸ h.window
  size_eq := hopening.size_eq.trans h.size_eq
  outside := hopening.byte_eq ▸ h.outside

/-- On a device where the selection resolves, the window comes up as the partition's, or
the walk is refused; either way only the table was read, and nothing at all where the
window was up. -/
theorem wp_ensureWindow (hp : Resolves size content asked table i p)
    (h : Windowed size content i p s) :
    wp ensureWindow s
      (fun w s' => w = windowOf p ∧ Windowed size content i p s' ∧ Opening asked s s' ∧
        (s.state.window.isSome → s'.log = s.log))
      (fun e s' => s.state.window = none ∧ Refused asked s e s') := by
  cases hwindow : s.state.window with
  | some w =>
    refine wp_bind_of_ok (gets_apply _ _) ?_
    rw [hwindow]
    exact wp_pure ⟨h.window w hwindow, h, .refl s, fun _ => rfl⟩
  | none =>
    have hhere := hp.congr h.outside
    have hwalk := hhere.walk
    unfold tableOn at hwalk
    refine wp_bind_of_ok (gets_apply _ _) ?_
    rw [hwindow]
    refine wp_bind_of_ok (gets_apply _ _) ?_
    refine wp_bind (wp_readTableSector List.mem_cons_self (by omega)) ?_
      fun _ _ h => ⟨rfl, h⟩
    rintro sector0 s₁ ⟨hsector0, hstate₁, hopening₁⟩
    have hsize₁ : UnderlyingDisk.size s₁.disk = size := hopening₁.size_eq.trans h.size_eq
    refine wp_bind_of_ok (gets_apply _ _) ?_
    rw [hsize₁]
    have hdevice : size.toNat / sectorSize * sectorSize < 2 ^ 64 :=
      (Nat.div_mul_le_self _ _).trans_lt size.toNat_lt
    have hwalk₁ : contentWalk (byte s₁.disk) (maxEbrs + 2) []
        (Walker.start sector0 (Walker.new size)) = (asked, .ok table) := by
      rw [hopening₁.byte_eq, hsector0]
      exact hwalk
    refine wp_bind (wp_walkTable (stepSafe_start sector0 size) hdevice hwalk₁) ?_
      fun _ _ h => ⟨rfl, h.after hstate₁ hopening₁⟩
    rintro table' s₂ ⟨rfl, hstate₂, hopening₂⟩
    have hwindowed := h.opening (hstate₂.trans hstate₁) (hopening₁.trans hopening₂)
    have hfits := hp.fits
    have hstart : p.startLba * sectorSize < 2 ^ 64 :=
      (Nat.mul_le_mul_right _ (Nat.le_add_right _ _)).trans_lt hfits
    have hlen : p.sectors * sectorSize < 2 ^ 64 :=
      (Nat.mul_le_mul_right _ (Nat.le_add_left _ _)).trans_lt hfits
    rw [h.selected, hp.select]
    refine wp_bind_of_ok (congrArg (·, s₂) (checkedMul_ok hstart)) ?_
    refine wp_bind_of_ok (congrArg (·, s₂) (checkedMul_ok hlen)) ?_
    refine wp_bind_of_ok (modify_apply _ _) (wp_pure ⟨rfl, ?_, ?_, nofun⟩)
    · exact { hwindowed with window := fun w hw => (Option.some.inj hw).symm }
    · have hopening := hopening₁.trans hopening₂
      exact ⟨hopening.byte_eq, hopening.size_eq, hopening.log⟩

end Provider

/-- The access lies wholly inside of the partition. -/
def Op.Inside (p : Partition) : Op → Prop
  | .read offset dst => offset.toNat + dst.length ≤ p.sectors * sectorSize
  | .write offset src => offset.toNat + src.length ≤ p.sectors * sectorSize
  | .flush => True

instance (p : Partition) (op : Op) : Decidable (op.Inside p) :=
  match op with
  | .read _ _ => inferInstanceAs (Decidable (_ ≤ _))
  | .write _ _ => inferInstanceAs (Decidable (_ ≤ _))
  | .flush => inferInstanceAs (Decidable True)

/-- The call on the underlying device that the operation comes to. -/
def Op.forwarded (p : Partition) : Op → Access
  | .read offset dst => .read (p.startLba * sectorSize + offset.toNat) dst.length
  | .write offset src => .write (p.startLba * sectorSize + offset.toNat) src.length
  | .flush => .flush

def Op.outOfRange : Op → Answer
  | .read _ dst => .read dst (.error .outOfRange)
  | .write _ src => .write src (.error .outOfRange)
  | .flush => .flush (.error .outOfRange)

def Op.refused (r : Refusal) : Op → Answer
  | .read _ dst => .read dst (.error (.io (.refusal r)))
  | .write _ src => .write src (.error (.io (.refusal r)))
  | .flush => .flush (.error (.io (.refusal r)))

/-- An operation that ended, with the calls it made; `bound` says whether the window was
up before it. -/
structure Event where
  op : Op
  bound : Bool
  answer : Outcome Empty Answer
  calls : List Access

/-- How an operation is served behind the reads of the table that bring the window up. -/
inductive Event.Answered (p : Partition) (e : Event) (rest : List Access) : Prop
  | refused (r : Refusal) (hbound : e.bound = false) (hrest : rest = [])
      (hanswer : e.answer = .ok (e.op.refused r))
  | forwarded (answer : Answer) (hinside : e.op.Inside p) (hrest : rest = [e.op.forwarded p])
      (hanswer : e.answer = .ok answer)
  | outOfRange (houtside : ¬ e.op.Inside p) (hrest : rest = [])
      (hanswer : e.answer = .ok e.op.outOfRange)

def Event.Served (p : Partition) (asked : List Nat) (e : Event) : Prop :=
  ∃ opening rest, e.calls = opening ++ rest ∧ (∀ a ∈ opening, TableRead asked a) ∧
    (e.bound = true → opening = []) ∧ e.Answered p rest

/-- A call that the provider may make: it reads the table or the partition, writes the
partition, or flushes. -/
def Allowed (p : Partition) (asked : List Nat) : Access → Prop
  | .read offset len => TableRead asked (.read offset len) ∨
      ∀ k, offset ≤ k → k < offset + len → InSpan p k
  | .write offset len => ∀ k, offset ≤ k → k < offset + len → InSpan p k
  | .flush => True

section Runs

variable {D : Type} [UnderlyingDisk D]

inductive Step : Session D → Event → Session D → Prop
  | mk (s : Session D) (op : Op) :
      Step s ⟨op, s.state.window.isSome, (op.run s).1, (op.run s).2.log.drop s.log.length⟩
        (op.run s).2

variable [LawfulDisk D] {asked : List Nat} {s s' : Session D} {content : Nat → UInt8}
  {table : PartitionTable} {i j : Nat} {p q : Partition} {size : UInt64}

/-- The translation is exact and does not overflow. -/
theorem translate_eq (hp : Resolves size content asked table i p) (offset len : Nat) :
    (translate (windowOf p) offset len : Outcome Empty (Option Nat)) =
      .ok (if offset + len ≤ p.sectors * sectorSize then
        some (p.startLba * sectorSize + offset) else none) := by
  have hfits := hp.fits
  rw [Nat.add_mul] at hfits
  unfold translate windowOf
  dsimp only
  split
  · rw [if_neg (by omega)]
  · rw [checkedSub_ok (by omega), Outcome.ok_bind]
    split
    · rw [if_neg (by omega)]
    · rw [checkedAdd_ok (by omega), Outcome.ok_bind, if_pos (by omega)]

/-- An access that the partition contains stays inside of its span. -/
theorem inSpan_of_inside {offset len k : Nat} (h : offset + len ≤ p.sectors * sectorSize)
    (hle : p.startLba * sectorSize + offset ≤ k)
    (hlt : k < p.startLba * sectorSize + offset + len) : InSpan p k := by
  unfold InSpan
  rw [Nat.add_mul]
  omega

/-- What an operation leaves behind and what it did. -/
def Op.Done (size : UInt64) (content : Nat → UInt8) (p : Partition) (asked : List Nat) (i : Nat)
    (s : Session D) (op : Op) (answer : Answer) (s' : Session D) : Prop :=
  Windowed size content i p s' ∧ ∃ calls, s'.log = s.log ++ calls ∧
    Event.Served p asked ⟨op, s.state.window.isSome, .ok answer, calls⟩

theorem Op.done_of_refused (op : Op) {r : Refusal} (h : Windowed size content i p s)
    (hwindow : s.state.window = none) (hrefused : Refused asked s (.err r) s') :
    op.Done size content p asked i s (op.refused r) s' := by
  obtain ⟨-, hstate, hopening⟩ := hrefused
  obtain ⟨reads, hlog, hreads⟩ := hopening.log
  refine ⟨h.opening hstate hopening, reads, hlog, reads, [], (List.append_nil _).symm, hreads,
    ?_, .refused r ?_ rfl rfl⟩
  · rw [hwindow]
    exact nofun
  · rw [hwindow]
    rfl

theorem Op.done_of_outside (op : Op) (h : Windowed size content i p s')
    (hopening : Opening asked s s') (hbound : s.state.window.isSome → s'.log = s.log)
    (houtside : ¬ op.Inside p) : op.Done size content p asked i s op.outOfRange s' := by
  obtain ⟨reads, hlog, hreads⟩ := hopening.log
  refine ⟨h, reads, hlog, reads, [], (List.append_nil _).symm, hreads, ?_,
    .outOfRange houtside rfl rfl⟩
  intro hup
  have hsame := hlog.symm.trans (hbound hup)
  exact List.append_right_eq_self.mp hsame

theorem Op.done_of_inside (op : Op) {answer : Answer} {s'' : Session D}
    (h : Windowed size content i p s'') (hopening : Opening asked s s')
    (hbound : s.state.window.isSome → s'.log = s.log) (hinside : op.Inside p)
    (hlog' : s''.log = s'.log ++ [op.forwarded p]) :
    op.Done size content p asked i s answer s'' := by
  obtain ⟨reads, hlog, hreads⟩ := hopening.log
  refine ⟨h, reads ++ [op.forwarded p], ?_, reads, [op.forwarded p], rfl, hreads, ?_,
    .forwarded answer hinside rfl rfl⟩
  · rw [hlog', hlog, List.append_assoc]
  · intro hup
    have hsame := hlog.symm.trans (hbound hup)
    exact List.append_right_eq_self.mp hsame

/-- An operation goes on behind a refusal or behind a window that is up. -/
theorem wp_attemptWindow {α : Type} {k : Except Refusal Window → Action (Session D) Empty α}
    {post : α → Session D → Prop} {stop : Stop Empty → Session D → Prop}
    (hp : Resolves size content asked table i p) (h : Windowed size content i p s)
    (hrefused : ∀ r s', s.state.window = none → Refused asked s (.err r) s' →
      wp (k (.error r)) s' post stop)
    (hopen : ∀ s', Windowed size content i p s' → Opening asked s s' →
      (s.state.window.isSome → s'.log = s.log) → wp (k (.ok (windowOf p))) s' post stop) :
    wp (attempt ensureWindow >>= k) s post stop := by
  refine wp_bind (wp_attempt (q := fun result s' =>
    match result with
    | .ok w => w = windowOf p ∧ Windowed size content i p s' ∧ Opening asked s s' ∧
        (s.state.window.isSome → s'.log = s.log)
    | .error r => s.state.window = none ∧ Refused asked s (.err r) s')
    (wp_mono (wp_ensureWindow hp h) (fun _ _ => id) ?_)) ?_ fun _ _ => id
  · rintro e s' ⟨hwindow, hrefused⟩
    obtain ⟨r, rfl⟩ := hrefused.1
    exact ⟨r, rfl, hwindow, hrefused⟩
  · rintro (r | w) s' hs'
    · exact hrefused r s' hs'.1 hs'.2
    · obtain ⟨rfl, hwindowed, hopening, hbound⟩ := hs'
      exact hopen s' hwindowed hopening hbound

theorem wp_read (hp : Resolves size content asked table i p) (h : Windowed size content i p s)
    (offset : UInt64) (dst : Buffer) :
    wp (read offset dst) s
      (fun result => (Op.read offset dst).Done size content p asked i s
        (.read result.1 result.2)) fun _ _ => False := by
  refine wp_attemptWindow hp h (fun r s' hwindow hrefused => ?_)
    fun s' hwindowed hopening hbound => ?_
  · exact wp_pure (Op.done_of_refused (.read offset dst) h hwindow hrefused)
  dsimp only
  rw [translate_eq hp]
  refine wp_bind_of_ok rfl ?_
  by_cases hinside : offset.toNat + dst.length ≤ p.sectors * sectorSize
  · rw [if_pos hinside]
    refine wp_bind_of_ok (update_apply _ _) (wp_pure ?_)
    refine Op.done_of_inside _ ?_ hopening hbound hinside rfl
    exact
      { hwindowed with
        size_eq := (LawfulDisk.read_size _ _ _).trans hwindowed.size_eq
        outside := fun k hk =>
          (congrFun (LawfulDisk.read_byte _ _ _) k).trans (hwindowed.outside k hk) }
  · rw [if_neg hinside]
    exact wp_pure (Op.done_of_outside (.read offset dst) hwindowed hopening hbound hinside)

/-- A write inside of the partition changes no byte outside of it. -/
theorem wp_write (hp : Resolves size content asked table i p) (h : Windowed size content i p s)
    (offset : UInt64) (src : Buffer) :
    wp (write offset src) s
      (fun result => (Op.write offset src).Done size content p asked i s
        (.write result.1 result.2)) fun _ _ => False := by
  refine wp_attemptWindow hp h (fun r s' hwindow hrefused => ?_)
    fun s' hwindowed hopening hbound => ?_
  · exact wp_pure (Op.done_of_refused (.write offset src) h hwindow hrefused)
  dsimp only
  rw [translate_eq hp]
  refine wp_bind_of_ok rfl ?_
  by_cases hinside : offset.toNat + src.length ≤ p.sectors * sectorSize
  · rw [if_pos hinside]
    refine wp_bind_of_ok (update_apply _ _) (wp_pure ?_)
    refine Op.done_of_inside _ ?_ hopening hbound hinside rfl
    refine
      { hwindowed with
        size_eq := (LawfulDisk.write_size _ _ _).trans hwindowed.size_eq
        outside := fun k hk => ?_ }
    rw [← hwindowed.outside k hk]
    refine LawfulDisk.write_byte _ _ _ _ ?_
    by_contra hin
    exact hk (inSpan_of_inside hinside (by omega) (by omega))
  · rw [if_neg hinside]
    exact wp_pure (Op.done_of_outside (.write offset src) hwindowed hopening hbound hinside)

theorem wp_flush (hp : Resolves size content asked table i p) (h : Windowed size content i p s) :
    wp flush s
      (fun result => Op.flush.Done size content p asked i s (.flush result))
      fun _ _ => False := by
  refine wp_attemptWindow hp h (fun r s' hwindow hrefused => ?_)
    fun s' hwindowed hopening hbound => ?_
  · exact wp_pure (Op.done_of_refused .flush h hwindow hrefused)
  refine wp_bind_of_ok (update_apply _ _) (wp_pure ?_)
  refine Op.done_of_inside .flush ?_ hopening hbound trivial rfl
  exact
    { hwindowed with
      size_eq := (LawfulDisk.flush_size _).trans hwindowed.size_eq
      outside := fun k hk =>
        (congrFun (LawfulDisk.flush_byte _) k).trans (hwindowed.outside k hk) }

theorem wp_run (hp : Resolves size content asked table i p) (h : Windowed size content i p s)
    (op : Op) :
    wp op.run s (fun answer => op.Done size content p asked i s answer) fun _ _ => False := by
  cases op with
  | read offset dst => exact wp_bind (wp_read hp h offset dst) (fun _ _ h => h) fun _ _ => id
  | write offset src => exact wp_bind (wp_write hp h offset src) (fun _ _ h => h) fun _ _ => id
  | flush => exact wp_bind (wp_flush hp h) (fun _ _ h => h) fun _ _ => id

theorem Step.windowed {e : Event} (hp : Resolves size content asked table i p)
    (h : Windowed size content i p s) (hstep : Step s e s') :
    Windowed size content i p s' ∧ s'.log = s.log ++ e.calls ∧ e.Served p asked := by
  obtain ⟨op⟩ := hstep
  have hrun := wp_run hp h op
  unfold wp at hrun
  rcases hresult : op.run s with ⟨stop | answer, s'⟩
  · rw [hresult] at hrun
    exact hrun.elim
  · rw [hresult] at hrun
    obtain ⟨hwindowed, calls, hlog, hserved⟩ := hrun
    have hcalls : s'.log.drop s.log.length = calls := by rw [hlog, List.drop_left]
    dsimp only
    rw [hcalls]
    exact ⟨hwindowed, hlog, hserved⟩

theorem Event.Served.allowed {e : Event} (h : e.Served p asked) :
    ∀ a ∈ e.calls, Allowed p asked a := by
  obtain ⟨opening, rest, hcalls, hopening, -, hanswered⟩ := h
  intro a ha
  rw [hcalls] at ha
  rcases List.mem_append.mp ha with ha | ha
  · obtain ⟨lba, hlba, rfl⟩ := hopening a ha
    exact .inl ⟨lba, hlba, rfl⟩
  · cases hanswered with
    | refused r hbound hrest hanswer =>
      rw [hrest] at ha
      exact absurd ha List.not_mem_nil
    | outOfRange houtside hrest hanswer =>
      rw [hrest] at ha
      exact absurd ha List.not_mem_nil
    | forwarded answer hinside hrest hanswer =>
      rw [hrest, List.mem_singleton] at ha
      subst ha
      rcases hop : e.op with ⟨offset, dst⟩ | ⟨offset, src⟩ | _
      · rw [hop] at hinside
        exact .inr fun k hle hlt => inSpan_of_inside hinside hle hlt
      · rw [hop] at hinside
        exact fun k hle hlt => inSpan_of_inside hinside hle hlt
      · trivial

theorem windowed_of_run {events : List Event} (hp : Resolves size content asked table i p)
    (h : Windowed size content i p s) (run : Run Step s events s') :
    Windowed size content i p s' ∧ (∃ calls, s'.log = s.log ++ calls ∧
      ∀ a ∈ calls, Allowed p asked a) ∧ ∀ e ∈ events, e.Served p asked := by
  induction run with
  | nil s =>
    exact ⟨h, ⟨[], (List.append_nil _).symm, fun _ h => absurd h List.not_mem_nil⟩,
      fun _ h => absurd h List.not_mem_nil⟩
  | @cons s s₁ s' e events head tail ih =>
    obtain ⟨h₁, hlog₁, hserved₁⟩ := head.windowed hp h
    obtain ⟨h', ⟨calls, hlog, hcalls⟩, hserved⟩ := ih h₁
    refine ⟨h', ⟨e.calls ++ calls, ?_, ?_⟩, ?_⟩
    · rw [hlog, hlog₁, List.append_assoc]
    · intro a ha
      rcases List.mem_append.mp ha with ha | ha
      · exact hserved₁.allowed a ha
      · exact hcalls a ha
    · intro e' he'
      rcases List.mem_cons.mp he' with rfl | he'
      · exact hserved₁
      · exact hserved e' he'

end Runs

structure RamDisk where
  size : UInt64
  byte : Nat → UInt8

instance : UnderlyingDisk RamDisk where
  size := RamDisk.size
  read offset dst d :=
    if offset + dst.length ≤ d.size.toNat then
      ((slice d.byte offset dst.length, .ok dst.length), d)
    else ((dst, .error .outOfRange), d)
  write offset src d :=
    if offset + src.length ≤ d.size.toNat then
      ((src, .ok src.length), { d with byte := overwrite d.byte offset src })
    else ((src, .error .outOfRange), d)
  flush d := (.ok (), d)

instance : LawfulDisk RamDisk where
  byte := RamDisk.byte
  read_buffer offset dst d n h := by
    simp only [UnderlyingDisk.read] at h ⊢
    split at h
    · rename_i hfits
      obtain rfl := Except.ok.inj h
      rw [if_pos hfits]
      exact ⟨le_rfl, List.take_of_length_le (length_slice _ _ _).le⟩
    · exact absurd h nofun
  read_byte offset dst d := by
    simp only [UnderlyingDisk.read]
    split <;> rfl
  read_size offset dst d := by
    simp only [UnderlyingDisk.read]
    split <;> rfl
  write_byte offset src d k h := by
    simp only [UnderlyingDisk.write]
    split
    · exact overwrite_outside h
    · rfl
  write_size offset src d := by
    simp only [UnderlyingDisk.write]
    split <;> rfl
  flush_byte _ := rfl
  flush_size _ := rfl

/-- A disk of three sectors: the table, and two partitions of one sector each. -/
def twoPartitions : RamDisk where
  size := 1536
  byte
    | 450 => 0x83
    | 454 => 1
    | 458 => 1
    | 466 => 0x83
    | 470 => 2
    | 474 => 1
    | 510 => 0x55
    | 511 => 0xAA
    | _ => 0

theorem resolves_first : Resolves (UnderlyingDisk.size twoPartitions) (byte twoPartitions) []
    ⟨[⟨1, 1, 1⟩, ⟨2, 2, 1⟩], none⟩ 1 ⟨1, 1, 1⟩ :=
  ⟨by decide +kernel, rfl⟩

theorem resolves_second : Resolves (UnderlyingDisk.size twoPartitions) (byte twoPartitions) []
    ⟨[⟨1, 1, 1⟩, ⟨2, 2, 1⟩], none⟩ 2 ⟨2, 2, 1⟩ :=
  ⟨resolves_first.walk, rfl⟩

end Eo9.DiskPart
