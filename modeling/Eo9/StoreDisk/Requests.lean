import Eo9.StoreDisk.Driver

/-!
# One request at a time

A request that is published while the indices of driver and device are level is the only one that
the device can be busy with. The memory holds it until it completes, so that the device moves its
data and no other, and the completion that the driver takes is its own.
-/

namespace Eo9.StoreDisk

open Eo9.Library

/-- Each completion that was taken is that of its request, and each request stored pieces of its
own payload at their places. -/
structure Honest (w : World) : Prop where
  taken : ∀ e ∈ w.books.taken, e.2 = some e.1
  stored : ∀ e ∈ w.books.stored, ∃ r i n, w.books.published[e.number]? = some r ∧
    r.write = true ∧ i + n ≤ r.byteLen ∧ e.position = r.sector * SECTOR + i ∧
    e.bytes = sub r.payload i n

/-- What holds whatever the device is at. -/
structure Sound (w : World) : Prop where
  data : w.shared.data.length = DATA_BYTES
  medium : w.medium.length = w.capacityBytes
  whole : SECTOR ∣ w.capacityBytes
  bounded : w.capacityBytes < 2 ^ 64
  queue : 0 < w.queueSize
  avail : w.shared.avail = List.replicate w.queueSize 0
  small : w.usedIndex < 2 ^ 16
  honest : Honest w

/-- No request is out, and all are accounted for. -/
structure Quiet (w : World) : Prop extends Sound w where
  fetched : w.fetched = []
  seen : w.seen = w.usedIndex
  availIdx : w.shared.availIdx = w.usedIndex
  availIndex : w.availIndex = w.usedIndex
  usedIdx : w.shared.usedIdx = w.usedIndex
  published : w.books.published.length = w.books.taken.length
  fetchedCount : w.books.fetched = w.books.taken.length
  completed : w.books.completed.length = w.books.taken.length

/-- The data of a request is where it should be, on a medium that was `m`. -/
def Moved (m : Bytes) (r : Request) (w : World) : Prop :=
  if r.write then w.medium = copyInto m (r.sector * SECTOR) r.payload
  else sub w.shared.data 0 r.byteLen = sub m (r.sector * SECTOR) r.byteLen

/-- How far the device is with the request. -/
inductive Stage (m : Bytes) (r : Request) (w : World) : Prop
  | waiting (seen : w.seen = w.usedIndex) (fetched : w.fetched = [])
      (usedIdx : w.shared.usedIdx = w.usedIndex)
      (fetchedCount : w.books.fetched = w.books.taken.length)
      (completed : w.books.completed.length = w.books.taken.length)
  | running (seen : w.seen = w.availIndex)
      (fetched : w.fetched = [⟨w.books.taken.length, r.write, r.sector, r.byteLen⟩])
      (usedIdx : w.shared.usedIdx = w.usedIndex)
      (fetchedCount : w.books.fetched = w.books.taken.length + 1)
      (completed : w.books.completed.length = w.books.taken.length)
  | done (seen : w.seen = w.availIndex) (fetched : w.fetched = [])
      (usedIdx : w.shared.usedIdx = w.availIndex)
      (fetchedCount : w.books.fetched = w.books.taken.length + 1)
      (completed : ∃ cs, w.books.completed = cs ++ [w.books.taken.length] ∧
        cs.length = w.books.taken.length)
      (moved : w.shared.status = BLK_S_OK → Moved m r w)

/-- The memory holds the request `r`, which was published on a medium that was `m`. -/
structure Held (m : Bytes) (r : Request) (w : World) : Prop extends Sound w where
  write : w.shared.write = r.write
  sector : w.shared.sector = r.sector
  byteLen : w.shared.byteLen = r.byteLen
  payload : r.write = true → r.payload.length = r.byteLen ∧ sub w.shared.data 0 r.byteLen = r.payload
  inside : r.sector * SECTOR + r.byteLen ≤ m.length
  fits : r.byteLen ≤ DATA_BYTES
  length : w.medium.length = m.length
  untouched : if r.write then copyInto w.medium (r.sector * SECTOR) r.payload =
    copyInto m (r.sector * SECTOR) r.payload else w.medium = m
  availIdx : w.shared.availIdx = w.availIndex
  availIndex : w.availIndex = (w.usedIndex + 1) % 2 ^ 16
  published : ∃ rs, w.books.published = rs ++ [r] ∧ rs.length = w.books.taken.length

structure Busy (m : Bytes) (r : Request) (w : World) : Prop extends Held m r w where
  stage : Stage m r w

variable {w : World} {m : Bytes} {r : Request} {i n : ℕ}

theorem Honest.stores (h : Honest w) {number position : ℕ} {bytes medium : Bytes}
    (hr : w.books.published[number]? = some r) (hwrite : r.write = true) (hin : i + n ≤ r.byteLen)
    (hposition : position = r.sector * SECTOR + i) (hbytes : bytes = sub r.payload i n) :
    Honest { w with
      medium := medium
      books.stored := w.books.stored ++ [⟨number, position, bytes⟩] } where
  taken := h.taken
  stored e he := by
    obtain he | he := List.mem_append.mp he
    · exact h.stored e he
    · obtain rfl := List.mem_singleton.mp he
      exact ⟨r, i, n, hr, hwrite, hin, hposition, hbytes⟩

/-- A later write of the whole covers a piece. -/
theorem copyInto_absorb {l xs : Bytes} {p : ℕ} (h : p + xs.length ≤ l.length)
    (hin : i + n ≤ xs.length) :
    copyInto (copyInto l (p + i) (sub xs i n)) p xs = copyInto l p xs := by
  have hpiece : (sub xs i n).length = n := length_sub hin
  have hlen : (copyInto l (p + i) (sub xs i n)).length = l.length := length_copyInto (by omega)
  apply List.ext_getElem?
  intro j
  rw [getElem?_copyInto (by omega), getElem?_copyInto h]
  split
  · rfl
  · rw [getElem?_copyInto (by omega), if_neg (by omega)]

theorem Held.published_last (h : Held m r w) :
    w.books.published[w.books.taken.length]? = some r := by
  obtain ⟨rs, hrs, hlen⟩ := h.published
  rw [hrs, ← hlen, List.getElem?_concat_length]

def ticket (w : World) (r : Request) : Ticket :=
  ⟨w.books.taken.length, r.write, r.sector, r.byteLen⟩

theorem Held.ticket_inside (h : Held m r w) : w.Inside (ticket w r) := by
  have hin := h.inside
  rw [← h.length] at hin
  exact hin

theorem Held.moved_write (h : Held m r w) (hin : i + n ≤ r.byteLen) (hwrite : r.write = true) :
    w.moved (ticket w r) i n = { w with
      medium := copyInto w.medium (r.sector * SECTOR + i) (sub w.shared.data i n)
      books.stored := w.books.stored ++ [⟨w.books.taken.length, r.sector * SECTOR + i,
        sub w.shared.data i n⟩] } := by
  rw [World.moved, if_pos ⟨hin, h.ticket_inside⟩]
  exact if_pos hwrite

theorem Held.moved_read (h : Held m r w) (hin : i + n ≤ r.byteLen) (hread : r.write = false) :
    w.moved (ticket w r) i n = { w with
      shared.data := copyInto w.shared.data i (sub w.medium (r.sector * SECTOR + i) n) } := by
  rw [World.moved, if_pos ⟨hin, h.ticket_inside⟩]
  exact if_neg (by rw [ticket, hread]; exact Bool.false_ne_true)

/-- A piece of the data of the request moves. -/
theorem Held.moved (h : Held m r w) : Held m r (w.moved (ticket w r) i n) := by
  by_cases hin : i + n ≤ r.byteLen
  swap
  · rw [World.moved, if_neg fun h => hin h.1]
    exact h
  have hinside := h.inside
  have hfits := h.fits
  have hdata := h.data
  have hlength := h.length
  cases hwrite : r.write with
  | true =>
    obtain ⟨hlen, hpayload⟩ := h.payload hwrite
    have hbytes : sub w.shared.data i n = sub r.payload i n := by
      rw [← hpayload, sub_of_sub hin, Nat.zero_add]
    have hpiece : (sub r.payload i n).length = n := length_sub (by omega)
    have huntouched := h.untouched
    rw [hwrite, if_pos rfl] at huntouched
    rw [h.moved_write hin hwrite]
    have hmedium : (copyInto w.medium (r.sector * SECTOR + i) (sub w.shared.data i n)).length =
        w.medium.length := length_copyInto (by rw [hbytes]; omega)
    exact { h with
      medium := hmedium.trans h.medium
      honest := h.honest.stores h.published_last hwrite hin rfl hbytes
      length := hmedium.trans h.length
      untouched := by
        rw [hwrite, if_pos rfl, ← huntouched, hbytes]
        exact copyInto_absorb (by omega) (by omega) }
  | false =>
    have huntouched := h.untouched
    rw [h.moved_read hin hwrite]
    have hpiece : (sub w.medium (r.sector * SECTOR + i) n).length = n := length_sub (by omega)
    exact { h with
      data := by
        rw [← h.data]
        exact length_copyInto (by omega)
      payload := fun htrue => absurd (hwrite.symm.trans htrue) nofun
      honest := ⟨h.honest.taken, h.honest.stored⟩ }

/-- All the data of the request is where it should be. -/
theorem Held.moved_all (h : Held m r w) : Moved m r (w.moved (ticket w r) 0 r.byteLen) := by
  have hin : 0 + r.byteLen ≤ r.byteLen := Nat.le_of_eq (Nat.zero_add _)
  have hinside := h.inside
  have hfits := h.fits
  have hdata := h.data
  have huntouched := h.untouched
  rw [Moved]
  cases hwrite : r.write with
  | true =>
    rw [hwrite, if_pos rfl] at huntouched
    rw [if_pos rfl, h.moved_write hin hwrite, (h.payload hwrite).2, Nat.add_zero]
    exact huntouched
  | false =>
    rw [hwrite, if_neg (by decide)] at huntouched
    have hlen : (sub m (r.sector * SECTOR) r.byteLen).length = r.byteLen := length_sub hinside
    have hsub : sub (copyInto w.shared.data 0 (sub m (r.sector * SECTOR) r.byteLen)) 0
        (sub m (r.sector * SECTOR) r.byteLen).length = sub m (r.sector * SECTOR) r.byteLen :=
      sub_copyInto (Nat.zero_le _)
    rw [hlen] at hsub
    rw [if_neg (by decide), h.moved_read hin hwrite, huntouched, Nat.add_zero]
    exact hsub

theorem moved_fields (t : Ticket) :
    (w.moved t i n).seen = w.seen ∧ (w.moved t i n).fetched = w.fetched ∧
      (w.moved t i n).availIndex = w.availIndex ∧ (w.moved t i n).usedIndex = w.usedIndex ∧
      (w.moved t i n).shared.usedIdx = w.shared.usedIdx ∧
      (w.moved t i n).books.fetched = w.books.fetched ∧
      (w.moved t i n).books.completed = w.books.completed ∧
      (w.moved t i n).books.taken = w.books.taken := by
  rw [World.moved]
  split_ifs <;> exact ⟨rfl, rfl, rfl, rfl, rfl, rfl, rfl, rfl⟩

/-- Completing the request leaves the memory as it is, and its number is the next. -/
theorem Held.completed (h : Held m r w) {status : UInt8} {k : ℕ} {t : Ticket} :
    Held m r (w.completed k t status) :=
  { h with honest := ⟨h.honest.taken, h.honest.stored⟩ }

/-- The request completes, with its data where it should be if all is well. -/
theorem Held.done (h : Held m r w) {status : UInt8} {t : Ticket}
    (hnumber : t.number = w.books.taken.length) (seen : w.seen = w.availIndex)
    (fetched : w.fetched = [t]) (usedIdx : w.shared.usedIdx = w.usedIndex)
    (fetchedCount : w.books.fetched = w.books.taken.length + 1)
    (completed : w.books.completed.length = w.books.taken.length)
    (moved : status = BLK_S_OK → Moved m r w) : Busy m r (w.completed 0 t status) :=
  ⟨h.completed, .done seen (by rw [World.completed, fetched]; rfl)
    (by rw [World.completed, usedIdx, h.availIndex]) fetchedCount
    ⟨w.books.completed, by rw [World.completed, hnumber], completed⟩ moved⟩

/-- The device keeps to the request that is out. -/
theorem Busy.move (h : Busy m r w) (a : Move) : Busy m r (w.move a) := by
  have hheld := h.toHeld
  have hindex : w.usedIndex ≠ w.availIndex := by
    have hsmall := h.small
    rw [h.availIndex]
    omega
  cases h.stage with
  | waiting seen fetched usedIdx fetchedCount completed =>
    cases a with
    | fetch =>
      have hslot : w.shared.avail[w.seen % w.queueSize]? = some 0 := by
        rw [h.avail]
        exact List.getElem?_replicate_of_lt (Nat.mod_lt _ h.queue)
      have hnew : w.seen ≠ w.shared.availIdx := by
        rw [seen, h.availIdx]
        exact hindex
      rw [World.move, World.fetch, if_pos ⟨hnew, hslot⟩]
      exact ⟨{ hheld with honest := ⟨h.honest.taken, h.honest.stored⟩ }, .running
        (by rw [seen, h.availIndex]) (by rw [fetched, h.write, h.sector, h.byteLen, fetchedCount]; rfl)
        usedIdx (congrArg (· + 1) fetchedCount) completed⟩
    | piece k i n =>
      rw [World.move, fetched]
      exact h
    | finish k status =>
      rw [World.move, fetched]
      exact h
  | running seen fetched usedIdx fetchedCount completed =>
    have hfetched : w.fetched = [ticket w r] := fetched
    cases a with
    | fetch =>
      rw [World.move, World.fetch, if_neg]
      · exact h
      · rw [seen, h.availIdx]
        exact fun hne => hne.1 rfl
    | piece k i n =>
      cases k with
      | succ k =>
        rw [World.move, hfetched]
        exact h
      | zero =>
        have hmove : w.move (.piece 0 i n) = w.moved (ticket w r) i n := by
          rw [World.move, hfetched]
          rfl
        obtain ⟨h₁, h₂, h₃, h₄, h₅, h₆, h₇, h₈⟩ := moved_fields (w := w) (i := i) (n := n)
          (ticket w r)
        rw [hmove]
        refine ⟨hheld.moved, .running (h₁.trans (seen.trans h₃.symm)) ?_
          (h₅.trans (usedIdx.trans h₄.symm)) ?_ ?_⟩
        · rw [h₂, h₈, fetched]
        · rw [h₆, h₈, fetchedCount]
        · rw [h₇, h₈, completed]
    | finish k status =>
      cases k with
      | succ k =>
        rw [World.move, hfetched]
        exact h
      | zero =>
        have hmove : w.move (.finish 0 status) = w.finished 0 (ticket w r) status := by
          rw [World.move, hfetched]
          rfl
        rw [hmove, World.finished, if_neg (not_not.mpr hheld.ticket_inside)]
        by_cases hok : status = BLK_S_OK
        · obtain ⟨h₁, h₂, h₃, h₄, h₅, h₆, h₇, h₈⟩ :=
            moved_fields (w := w) (i := 0) (n := r.byteLen) (ticket w r)
          rw [if_pos hok]
          apply hheld.moved.done (congrArg List.length h₈.symm) (h₁.trans (seen.trans h₃.symm))
            (h₂.trans hfetched) (h₅.trans (usedIdx.trans h₄.symm))
          · exact h₆.trans (fetchedCount.trans (by rw [h₈]))
          · exact (congrArg List.length h₇).trans (completed.trans (by rw [h₈]))
          · exact fun _ => hheld.moved_all
        · rw [if_neg hok]
          exact hheld.done rfl seen hfetched usedIdx fetchedCount completed
            fun h => absurd h hok
  | done seen fetched usedIdx fetchedCount completed moved =>
    cases a with
    | fetch =>
      rw [World.move, World.fetch, if_neg]
      · exact h
      · rw [seen, h.availIdx]
        exact fun hne => hne.1 rfl
    | piece k i n =>
      rw [World.move, fetched]
      exact h
    | finish k status =>
      rw [World.move, fetched]
      exact h

end Eo9.StoreDisk
