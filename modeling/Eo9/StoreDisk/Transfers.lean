import Eo9.StoreDisk.Requests

/-!
# Transfers

What a request does that is published while no other is out: it moves its own data, or it fails.
It fails with the indices level when the device reported so, and with the request out when the
driver gave up on it.
-/

namespace Eo9.StoreDisk

open Eo9.Library

variable {w : World} {m : Bytes} {r : Request} {ε : Type}

/-- A device with nothing to do. -/
structure Idle (w : World) : Prop where
  fetched : w.fetched = []
  seen : w.seen = w.shared.availIdx

theorem Quiet.idle (h : Quiet w) : Idle w := ⟨h.fetched, h.seen.trans h.availIdx.symm⟩

theorem Idle.move (h : Idle w) (a : Move) : w.move a = w := by
  cases a with
  | fetch =>
    rw [World.move, World.fetch, if_neg]
    rw [h.seen]
    exact fun hne => hne.1 rfl
  | piece k i n => rw [World.move, h.fetched]; rfl
  | finish k status => rw [World.move, h.fetched]; rfl

/-- An idle device does nothing in its turn. -/
theorem Idle.turn (h : Idle w) :
    ∃ b script, (turn : Action World ε Bool) w = (.ok b, { w with script := script }) := by
  cases hscript : w.script with
  | nil =>
    refine ⟨false, w.script, ?_⟩
    rw [StoreDisk.turn, hscript]
    exact congrArg (fun script => (Except.ok false, { w with script := script })) hscript
  | cons t script =>
    refine ⟨t.refused, script, ?_⟩
    rw [StoreDisk.turn, hscript]
    have hidle : Idle { w with script := script } := ⟨h.fetched, h.seen⟩
    have hmoves : t.moves.foldl World.move { w with script := script } =
        { w with script := script } := by
      generalize ({ w with script := script } : World) = w' at hidle
      induction t.moves with
      | nil => rfl
      | cons a moves ih => rw [List.foldl_cons, hidle.move, ih]
    exact congrArg (Prod.mk _) hmoves

theorem Quiet.script (h : Quiet w) (script : List Turn) : Quiet { w with script := script } :=
  { h with honest := ⟨h.honest.taken, h.honest.stored⟩ }

theorem Busy.script (h : Busy m r w) (script : List Turn) :
    Busy m r { w with script := script } where
  toHeld := { h with honest := ⟨h.honest.taken, h.honest.stored⟩ }
  stage := by
    cases h.stage with
    | waiting h₁ h₂ h₃ h₄ h₅ => exact .waiting h₁ h₂ h₃ h₄ h₅
    | running h₁ h₂ h₃ h₄ h₅ => exact .running h₁ h₂ h₃ h₄ h₅
    | done h₁ h₂ h₃ h₄ h₅ h₆ => exact .done h₁ h₂ h₃ h₄ h₅ h₆

/-- A busy device works on its request in its turn. -/
theorem Busy.turn (h : Busy m r w) :
    ∃ b w', (turn : Action World ε Bool) w = (.ok b, w') ∧ Busy m r w' := by
  cases hscript : w.script with
  | nil =>
    refine ⟨false, w, ?_, h⟩
    rw [StoreDisk.turn, hscript]
  | cons t script =>
    refine ⟨t.refused, t.moves.foldl World.move { w with script := script }, ?_, ?_⟩
    · rw [StoreDisk.turn, hscript]
    · have hbusy := h.script script
      generalize ({ w with script := script } : World) = w' at hbusy
      induction t.moves generalizing w' with
      | nil => exact hbusy
      | cons a moves ih => exact ih (w'.move a) (hbusy.move a)

/-- A step of the driver on the memory, beside a device with nothing to do. -/
theorem store_spec {s : Shared} (hfetched : w.fetched = []) (hseen : w.seen = s.availIdx)
    (f : Shared → Shared) (script : List Turn) :
    ∃ script', store f { w with script := script, shared := s } =
      (.ok ⟨⟩, { w with script := script', shared := f s }) := by
  have hidle : Idle { w with script := script, shared := s } := ⟨hfetched, hseen⟩
  obtain ⟨b, script', hturn⟩ := hidle.turn (ε := String)
  refine ⟨script', ?_⟩
  rw [store, Action.bind_of_ok hturn]
  rfl

/-- The shared memory with a request in it. -/
def prepared (s : Shared) (write : Bool) (sector byteLen : ℕ) (payload : Option Bytes) : Shared :=
  { s with
    write := write
    sector := sector
    status := 0xff
    data := payload.elim s.data (copyInto s.data 0)
    byteLen := byteLen }

theorem prepare_spec (h : Idle w) (write : Bool) (sector byteLen : ℕ) {payload : Option Bytes}
    (hpayload : ∀ bytes ∈ payload, bytes.length ≤ DATA_BYTES) :
    ∃ script, prepare write sector byteLen payload w =
      (.ok ⟨⟩, { w with
        script := script
        shared := prepared w.shared write sector byteLen payload }) := by
  obtain ⟨s₁, h₁⟩ := store_spec h.fetched h.seen
    (fun s => { s with write := write, sector := sector }) w.script
  obtain ⟨s₂, h₂⟩ := store_spec h.fetched (s := { w.shared with write := write, sector := sector })
    h.seen (fun s => { s with status := 0xff }) s₁
  cases payload with
  | none =>
    obtain ⟨s₃, h₃⟩ := store_spec h.fetched
      (s := { w.shared with write := write, sector := sector, status := 0xff }) h.seen
      (fun s => { s with byteLen := byteLen }) s₂
    refine ⟨s₃, ?_⟩
    rw [prepare, Action.bind_of_ok h₁, Action.bind_of_ok h₂]
    exact h₃
  | some bytes =>
    obtain ⟨s₃, h₃⟩ := store_spec h.fetched
      (s := { w.shared with write := write, sector := sector, status := 0xff }) h.seen
      (fun s => { s with data := copyInto s.data 0 bytes }) s₂
    obtain ⟨s₄, h₄⟩ := store_spec h.fetched
      (s := { w.shared with
        write := write
        sector := sector
        status := 0xff
        data := copyInto w.shared.data 0 bytes }) h.seen (fun s => { s with byteLen := byteLen }) s₃
    have hfits : ¬DATA_BYTES < bytes.length := Nat.not_lt.mpr (hpayload bytes rfl)
    refine ⟨s₄, ?_⟩
    rw [prepare, Action.bind_of_ok h₁, Action.bind_of_ok h₂]
    dsimp only
    rw [if_neg hfits, Action.bind_of_ok h₃]
    exact h₄

theorem publish_spec (h : Idle w) (havail : w.shared.avail = List.replicate w.queueSize 0)
    (r : Request) :
    ∃ script, publish r w = (.ok ⟨⟩, { w with
      script := script
      availIndex := (w.availIndex + 1) % 2 ^ 16
      shared.availIdx := (w.availIndex + 1) % 2 ^ 16
      books.published := w.books.published ++ [r] }) := by
  have hset : w.shared.avail.set (w.availIndex % w.queueSize) 0 = w.shared.avail := by
    rw [havail, List.set_replicate_self]
  obtain ⟨s₁, h₁⟩ := store_spec h.fetched h.seen
    (fun s => { s with avail := s.avail.set (w.availIndex % w.queueSize) 0 }) w.script
  have hidle : Idle { w with
      script := s₁
      shared.avail := w.shared.avail.set (w.availIndex % w.queueSize) 0
      availIndex := (w.availIndex + 1) % 2 ^ 16 } := ⟨h.fetched, h.seen⟩
  obtain ⟨b, s₂, hturn⟩ := hidle.turn (ε := String)
  refine ⟨s₂, ?_⟩
  rw [publish, Action.bind_of_ok (Action.gets_apply _ _), Action.bind_of_ok h₁,
    Action.bind_of_ok (Action.modify_apply _ _), Action.bind_of_ok hturn, Action.modify_apply]
  dsimp only
  rw [hset]

/-- Once published, the request is the one that is out. -/
theorem Quiet.busy (h : Quiet w) (script : List Turn) {write : Bool} {sector byteLen : ℕ}
    {payload : Option Bytes} (hin : sector * SECTOR + byteLen ≤ w.medium.length)
    (hfits : byteLen ≤ DATA_BYTES)
    (hpayload : if write then ∃ bytes, payload = some bytes ∧ bytes.length = byteLen
      else payload = none) :
    Busy w.medium ⟨write, sector, byteLen, payload.getD []⟩ { w with
      script := script
      availIndex := (w.availIndex + 1) % 2 ^ 16
      shared := { prepared w.shared write sector byteLen payload with
        availIdx := (w.availIndex + 1) % 2 ^ 16 }
      books.published := w.books.published ++ [⟨write, sector, byteLen, payload.getD []⟩] } where
  data := by
    have hdata := h.data
    cases payload with
    | none => exact hdata
    | some bytes =>
      have hlen : bytes.length ≤ w.shared.data.length := by
        cases write with
        | false => cases hpayload
        | true =>
          obtain ⟨bytes', hbytes, hlen⟩ := hpayload
          cases hbytes
          omega
      exact (length_copyInto (by omega)).trans hdata
  medium := h.medium
  whole := h.whole
  bounded := h.bounded
  queue := h.queue
  avail := h.avail
  small := h.small
  honest := ⟨h.honest.taken, fun e he => by
    obtain ⟨r, i, n, hr, hrest⟩ := h.honest.stored e he
    refine ⟨r, i, n, ?_, hrest⟩
    rw [List.getElem?_append_left (List.getElem?_eq_some_iff.mp hr).1]
    exact hr⟩
  write := rfl
  sector := rfl
  byteLen := rfl
  payload htrue := by
    cases htrue
    obtain ⟨bytes, rfl, hlen⟩ := hpayload
    refine ⟨hlen, ?_⟩
    change sub (copyInto w.shared.data 0 bytes) 0 byteLen = bytes
    rw [← hlen, sub_copyInto (Nat.zero_le _)]
  inside := hin
  fits := hfits
  length := rfl
  untouched := by
    cases write with
    | false => rfl
    | true => rfl
  availIdx := rfl
  availIndex := by
    dsimp only
    rw [h.availIndex]
  published := ⟨w.books.published, rfl, h.published⟩
  stage := .waiting h.seen h.fetched h.usedIdx h.fetchedCount h.completed

/-- What a completed request leaves. -/
structure Settled (m : Bytes) (r : Request) (w : World) : Prop extends Quiet w where
  length : w.medium.length = m.length
  untouched : r.write = false → w.medium = m
  moved : w.shared.status = BLK_S_OK → Moved m r w

/-- The completion that the driver takes is that of its request. -/
theorem Busy.consume (h : Busy m r w) (hused : w.shared.usedIdx ≠ w.usedIndex) :
    Settled m r (consume w) := by
  obtain ⟨rs, hrs, hlen⟩ := h.published
  cases h.stage with
  | waiting _ _ usedIdx => exact absurd usedIdx hused
  | running _ _ usedIdx => exact absurd usedIdx hused
  | done seen fetched usedIdx fetchedCount completed moved =>
    obtain ⟨cs, hcs, hcslen⟩ := completed
    have hindex : (StoreDisk.consume w).usedIndex = w.availIndex := h.availIndex.symm
    have htaken : (StoreDisk.consume w).books.taken.length = w.books.taken.length + 1 :=
      List.length_append
    exact {
      data := h.data
      medium := h.medium
      whole := h.whole
      bounded := h.bounded
      queue := h.queue
      avail := h.avail
      small := Nat.mod_lt _ (by decide)
      honest := {
        taken := fun e he => by
          obtain he | he := List.mem_append.mp he
          · exact h.honest.taken e he
          · obtain rfl := List.mem_singleton.mp he
            dsimp only
            rw [hcs, hrs, ← hcslen, List.getElem?_concat_length, List.length_append,
              List.length_singleton, Nat.add_sub_cancel, hlen, hcslen]
        stored := h.honest.stored }
      fetched := fetched
      seen := seen.trans hindex.symm
      availIdx := h.availIdx.trans hindex.symm
      availIndex := hindex.symm
      usedIdx := usedIdx.trans hindex.symm
      published := by
        rw [htaken, ← hlen]
        exact (congrArg List.length hrs).trans List.length_append
      fetchedCount := fetchedCount.trans htaken.symm
      completed := by
        rw [htaken, ← hcslen]
        exact (congrArg List.length hcs).trans List.length_append
      length := h.length
      untouched := fun hread => by
        have huntouched := h.untouched
        rw [hread] at huntouched
        exact huntouched
      moved := moved }

/-- The driver gave up, with the request out. -/
def GaveUp (m : Bytes) (r : Request) (e : Stop String) (w : World) : Prop :=
  (∃ text, e = .err text) ∧ Busy m r w

open Action in
theorem wp_notifyQueue (h : Busy m r w) :
    wp notifyQueue w (fun _ => Busy m r) (GaveUp m r) := by
  obtain ⟨b, w', hturn, h'⟩ := h.turn (ε := String)
  apply wp_bind_of_ok hturn
  cases b with
  | true => exact wp_fail ⟨⟨_, rfl⟩, h'⟩
  | false => exact wp_pure h'

open Action in
theorem wp_poll {spins : ℕ} (h : Busy m r w) :
    wp (poll spins) w (fun _ => Settled m r) (GaveUp m r) := by
  induction spins generalizing w with
  | zero => exact wp_fail ⟨⟨_, rfl⟩, h⟩
  | succ spins ih =>
    obtain ⟨b, w', hturn, h'⟩ := h.turn (ε := String)
    apply wp_bind_of_ok hturn
    apply wp_bind_of_ok (gets_apply _ _)
    by_cases hused : w'.shared.usedIdx ≠ w'.usedIndex
    · rw [decide_eq_true hused, if_pos rfl]
      exact wp_modify (h'.consume hused)
    · rw [decide_eq_false hused, if_neg Bool.false_ne_true]
      exact ih h'

/-- The state that a call leaves, whatever it returns. -/
def Steady (w : World) : Prop := Quiet w ∨ ∃ m r, Busy m r w

/-- How a call ends that does not return. -/
def Ends (e : Stop String) (w : World) : Prop := (∃ text, e = .err text) ∧ Steady w

theorem GaveUp.ends {e : Stop String} (h : GaveUp m r e w) : Ends e w := ⟨h.1, .inr ⟨m, r, h.2⟩⟩

/-- What the caller gets of a request that went well. -/
def Request.brought (r : Request) (m : Bytes) : Option Bytes :=
  if r.write then none else some (sub m (r.sector * SECTOR) r.byteLen)

/-- The medium after a request that went well. -/
def Request.left (r : Request) (m : Bytes) : Bytes :=
  if r.write then copyInto m (r.sector * SECTOR) r.payload else m

open Action in
theorem wp_collect (h : Settled m r w) :
    wp (collect r.write r.byteLen) w
      (fun v w' => Quiet w' ∧ v = r.brought m ∧ w'.medium = r.left m) Ends := by
  obtain ⟨b, s₁, h₁⟩ := h.idle.turn (ε := String)
  have hquiet := h.toQuiet.script s₁
  apply wp_bind_of_ok h₁
  apply wp_bind_of_ok (gets_apply _ _)
  dsimp only
  by_cases hok : w.shared.status = BLK_S_OK
  swap
  · rw [if_pos hok]
    exact wp_fail ⟨⟨_, rfl⟩, .inl hquiet⟩
  rw [if_neg (not_not.mpr hok)]
  have hmoved := h.moved hok
  rw [Moved] at hmoved
  rw [Request.brought, Request.left]
  cases hwrite : r.write with
  | true =>
    rw [hwrite, if_pos rfl] at hmoved
    exact wp_pure ⟨hquiet, rfl, hmoved⟩
  | false =>
    rw [hwrite, if_neg Bool.false_ne_true] at hmoved
    rw [if_neg Bool.false_ne_true, if_neg Bool.false_ne_true, if_neg Bool.false_ne_true]
    obtain ⟨b', s₂, h₂⟩ := hquiet.idle.turn (ε := String)
    apply wp_bind_of_ok h₂
    apply wp_bind_of_ok (gets_apply _ _)
    exact wp_pure ⟨hquiet.script s₂, congrArg some hmoved, h.untouched hwrite⟩

open Action in
/-- A transfer behind which no request is out does what it should when it returns. -/
theorem wp_transfer (h : Quiet w) {write : Bool} {sector sectors : ℕ} {payload : Option Bytes}
    (hin : (sector + sectors) * SECTOR ≤ w.medium.length) (hfits : sectors * SECTOR ≤ DATA_BYTES)
    (hpayload : if write then ∃ bytes, payload = some bytes ∧ bytes.length = sectors * SECTOR
      else payload = none) :
    wp (transfer write sector sectors payload) w
      (fun v w' => Quiet w' ∧
        v = Request.brought ⟨write, sector, sectors * SECTOR, payload.getD []⟩ w.medium ∧
        w'.medium = Request.left ⟨write, sector, sectors * SECTOR, payload.getD []⟩ w.medium)
      Ends := by
  have hsize : ∀ bytes ∈ payload, bytes.length ≤ DATA_BYTES := by
    intro bytes hbytes
    cases write with
    | false =>
      cases hpayload
      cases hbytes
    | true =>
      obtain ⟨bytes', rfl, hlen⟩ := hpayload
      cases hbytes
      omega
  rw [Nat.add_mul] at hin
  obtain ⟨s₁, hprepare⟩ := prepare_spec h.idle write sector (sectors * SECTOR) hsize
  obtain ⟨s₂, hpublish⟩ := publish_spec (w := { w with
    script := s₁
    shared := prepared w.shared write sector (sectors * SECTOR) payload })
    ⟨h.fetched, h.seen.trans h.availIdx.symm⟩ h.avail
    ⟨write, sector, sectors * SECTOR, payload.getD []⟩
  have hbusy := h.busy s₂ hin hfits hpayload
  rw [transfer, if_neg (by omega)]
  apply wp_bind_of_ok hprepare
  apply wp_bind_of_ok hpublish
  apply wp_bind (wp_notifyQueue hbusy) ?_ fun e w' he => he.ends
  intro _ w₁ hbusy₁
  apply wp_bind (wp_poll hbusy₁) ?_ fun e w' he => he.ends
  exact fun _ w₂ hsettled => wp_collect hsettled

end Eo9.StoreDisk
