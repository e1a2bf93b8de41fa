import Eo9.NetVirtio.Driver
import Mathlib.Data.List.Perm.Basic

/-!
# The queues beside a conforming device

What holds of the receive queue and of the transmit queue whatever the device does in its turns,
and what of them a turn leaves alone. The receive queue circulates the eight slots; the transmit
queue has room for one packet, which stays in the bounce buffer until it is completed.
-/

namespace Eo9.NetVirtio

open Eo9.Library

/-- The receive queue, with `handed` slots handed back so far. -/
structure Receiving (handed : ℕ) (r : Rx) : Prop where
  kept : Kept RX_SLOTS r.ring
  slots_length : r.slots.length = RX_SLOTS
  slot_length : ∀ slot ∈ r.slots, slot.length = RX_SLOT_BYTES
  flight_length : r.flight.length + r.ring.completed.length = r.ring.fetched
  total : (r.ring.published ++ r.ring.staged).length = handed + RX_SLOTS
  inside : ∀ id ∈ r.ring.published ++ r.ring.staged, id < RX_SLOTS
  /-- Each slot is in the avail ring, with the device, or among the completions. -/
  placed : List.Perm ((r.ring.published ++ r.ring.staged).drop r.ring.fetched ++ r.flight ++
    (r.ring.completed.drop handed).map Prod.fst) (List.range RX_SLOTS)
  frames_length : r.frames.length = r.ring.completed.length
  /-- A slot keeps its frame until it is handed back. -/
  frames : ∀ i id len, handed ≤ i → r.ring.completed[i]? = some (id, len) →
    len ≤ RX_SLOT_BYTES ∧ r.frames[i]? = some (((r.slots[id]?).getD []).take len)

/-- What a turn of the device leaves of the receive queue. -/
structure Rx.Grows (r r' : Rx) : Prop where
  size : r'.ring.size = r.ring.size
  published : r'.ring.published = r.ring.published
  staged : r'.ring.staged = r.ring.staged
  consumed : r'.ring.consumed = r.ring.consumed
  completed : r.ring.completed <+: r'.ring.completed
  frames : r.frames <+: r'.frames

namespace Rx.Grows

variable {r r' r'' : Rx}

theorem refl (r : Rx) : r.Grows r := ⟨rfl, rfl, rfl, rfl, List.prefix_rfl, List.prefix_rfl⟩

theorem trans (h : r.Grows r') (h' : r'.Grows r'') : r.Grows r'' where
  size := h'.size.trans h.size
  published := h'.published.trans h.published
  staged := h'.staged.trans h.staged
  consumed := h'.consumed.trans h.consumed
  completed := h.completed.trans h'.completed
  frames := h.frames.trans h'.frames

theorem move (m : RxMove) : r.Grows (r.move m) := by
  cases m with
  | fetch =>
    rw [Rx.move, Rx.fetch]
    split
    · exact { refl r with }
    · exact refl r
  | fill k i bytes =>
    rw [Rx.move]
    split
    · rw [Rx.fill]
      split
      · exact { refl r with }
      · exact refl r
    · exact refl r
  | deliver k len =>
    rw [Rx.move]
    split
    · rw [Rx.deliver]
      split
      · exact { refl r with
          completed := List.prefix_append _ _
          frames := List.prefix_append _ _ }
      · exact refl r
    · exact refl r

end Rx.Grows

namespace Receiving

variable {handed : ℕ} {r : Rx}

theorem handed_le (h : Receiving handed r) : handed ≤ r.ring.consumed := by
  have hout := h.kept.out
  rw [h.total] at hout
  exact Nat.le_of_add_le_add_right hout

theorem handed_le_completed (h : Receiving handed r) : handed ≤ r.ring.completed.length :=
  Nat.le_trans h.handed_le h.kept.consumed_le

/-- A slot that the device fetched is not among the completions. -/
theorem fetched_ne_completed (h : Receiving handed r) {id i len : ℕ} {id' : ℕ}
    (hid : id ∈ r.flight) (hi : handed ≤ i) (hcompleted : r.ring.completed[i]? = some (id', len)) :
    id ≠ id' := by
  have hnodup := h.placed.nodup_iff.mpr List.nodup_range
  have hmem : id' ∈ (r.ring.completed.drop handed).map Prod.fst := by
    apply List.mem_map.mpr
    refine ⟨(id', len), ?_, rfl⟩
    apply List.mem_of_getElem? (i := i - handed)
    rw [List.getElem?_drop, Nat.add_sub_cancel' hi, hcompleted]
  have hdisjoint := (List.nodup_append.mp hnodup).2.2
  exact hdisjoint id (List.mem_append_right _ hid) id' hmem

theorem fetch (h : Receiving handed r) : Receiving handed r.fetch := by
  rw [Rx.fetch]
  split
  · next id hoffered =>
    have hnext := h.kept.offered_eq_some hoffered
    have hlt : r.ring.fetched < r.ring.published.length := by
      by_contra hge
      rw [List.getElem?_eq_none (Nat.not_lt.mp hge)] at hnext
      cases hnext
    have hdrop : (r.ring.published ++ r.ring.staged).drop r.ring.fetched =
        id :: (r.ring.published ++ r.ring.staged).drop (r.ring.fetched + 1) := by
      have hall : (r.ring.published ++ r.ring.staged)[r.ring.fetched]? = some id := by
        rw [List.getElem?_append_left hlt, hnext]
      obtain ⟨hin, hget⟩ := List.getElem?_eq_some_iff.mp hall
      rw [List.drop_eq_getElem_cons hin, hget]
    have hplaced := h.placed
    rw [hdrop] at hplaced
    exact { h with
      kept := h.kept.fetch hlt
      flight_length := by
        show (r.flight ++ [id]).length + r.ring.completed.length = r.ring.fetched + 1
        rw [List.length_append, List.length_singleton, ← h.flight_length]
        omega
      placed := by
        refine List.Perm.trans (List.Perm.append_right _ ?_) hplaced
        show List.Perm ((r.ring.published ++ r.ring.staged).drop (r.ring.fetched + 1) ++
          (r.flight ++ [id])) _
        rw [← List.append_assoc]
        exact List.perm_append_singleton _ _ }
  · exact h

theorem fill (h : Receiving handed r) {id i : ℕ} {bytes : Bytes} (hid : id ∈ r.flight) :
    Receiving handed (r.fill id i bytes) := by
  rw [Rx.fill]
  split
  · next hfits =>
    exact { h with
      slots_length := (List.length_modify ..).trans h.slots_length
      slot_length := by
        intro slot hslot
        obtain ⟨j, hj, rfl⟩ := List.getElem_of_mem hslot
        rw [List.getElem_modify]
        have hold := h.slot_length _ (List.getElem_mem (by
          rwa [List.length_modify] at hj))
        split
        · rw [length_copyInto (by rw [hold]; exact hfits)]
          exact hold
        · exact hold
      frames := by
        intro j id' len hj hcompleted
        have hne := h.fetched_ne_completed hid hj hcompleted
        show _ ∧ r.frames[j]? = some ((((r.slots.modify id _)[id']?).getD []).take len)
        rw [List.getElem?_modify_ne _ _ hne]
        exact h.frames j id' len hj hcompleted }
  · exact h

theorem deliver (h : Receiving handed r) {k id len : ℕ} (hid : r.flight[k]? = some id) :
    Receiving handed (r.deliver k id len) := by
  rw [Rx.deliver]
  split
  · next hlen =>
    obtain ⟨hk, hget⟩ := List.getElem?_eq_some_iff.mp hid
    have hflight := h.flight_length
    exact { h with
      kept := h.kept.complete (by omega)
      flight_length := by
        show (r.flight.eraseIdx k).length + (r.ring.completed ++ [(id, len)]).length = _
        rw [List.length_eraseIdx_of_lt hk, List.length_append, List.length_singleton]
        show _ = r.ring.fetched
        omega
      placed := by
        refine List.Perm.trans ?_ h.placed
        show List.Perm (_ ++ r.flight.eraseIdx k ++
          ((r.ring.completed ++ [(id, len)]).drop handed).map Prod.fst) _
        rw [List.drop_append_of_le_length h.handed_le_completed, List.map_append,
          List.append_assoc, List.append_assoc]
        apply List.Perm.append_left
        calc
          _ = (r.flight.eraseIdx k ++ (r.ring.completed.drop handed).map Prod.fst) ++ [id] :=
            (List.append_assoc _ _ _).symm
          List.Perm _ (id :: (r.flight.eraseIdx k ++
              (r.ring.completed.drop handed).map Prod.fst)) :=
            List.perm_append_singleton _ _
          List.Perm _ (r.flight ++ (r.ring.completed.drop handed).map Prod.fst) := by
            have herase : List.Perm (id :: r.flight.eraseIdx k) r.flight := by
              rw [← hget]
              exact List.getElem_cons_eraseIdx_perm hk
            exact herase.append_right _
      frames_length := by
        show (r.frames ++ [_]).length = (r.ring.completed ++ [(id, len)]).length
        rw [List.length_append, List.length_append, h.frames_length]
        rfl
      frames := by
        intro j id' len' hj hcompleted
        have hcompleted' : (r.ring.completed ++ [(id, len)])[j]? = some (id', len') := hcompleted
        show _ ∧ (r.frames ++ [((r.slots[id]?).getD []).take len])[j]? = _
        rcases Nat.lt_trichotomy j r.ring.completed.length with hlt | rfl | hgt
        · rw [List.getElem?_append_left hlt] at hcompleted'
          rw [List.getElem?_append_left (h.frames_length ▸ hlt)]
          exact h.frames j id' len' hj hcompleted'
        · rw [List.getElem?_concat_length] at hcompleted'
          cases hcompleted'
          rw [← h.frames_length, List.getElem?_concat_length]
          exact ⟨hlen, rfl⟩
        · rw [List.getElem?_eq_none (by
            rw [List.length_append, List.length_singleton]; omega)] at hcompleted'
          cases hcompleted' }
  · exact h

theorem move (h : Receiving handed r) (m : RxMove) : Receiving handed (r.move m) := by
  cases m with
  | fetch => exact h.fetch
  | fill k i bytes =>
    rw [Rx.move]
    split
    · next id hid => exact h.fill (List.mem_of_getElem? hid)
    · exact h
  | deliver k len =>
    rw [Rx.move]
    split
    · next id hid => exact h.deliver hid
    · exact h

/-- A turn of the device keeps the receive queue. -/
theorem moves (h : Receiving handed r) (ms : List RxMove) :
    Receiving handed (ms.foldl Rx.move r) ∧ r.Grows (ms.foldl Rx.move r) := by
  induction ms generalizing r with
  | nil => exact ⟨h, .refl r⟩
  | cons m ms ih =>
    obtain ⟨hkept, hgrows⟩ := ih (h.move m)
    exact ⟨hkept, (Rx.Grows.move m).trans hgrows⟩

theorem consume (h : Receiving handed r) (hlt : r.ring.consumed < r.ring.completed.length) :
    Receiving handed r.consume :=
  { h with kept := h.kept.consume hlt }

/-- The slot of the oldest completion goes back into the ring. -/
theorem stage (h : Receiving handed r) {id len : ℕ} (hlt : handed < r.ring.consumed)
    (hid : r.ring.completed[handed]? = some (id, len)) :
    Receiving (handed + 1) (r.stage id) := by
  have hlist : (r.stage id).ring.published ++ (r.stage id).ring.staged =
      (r.ring.published ++ r.ring.staged) ++ [id] := (List.append_assoc _ _ _).symm
  have htotal := h.total
  have hdrop : r.ring.completed.drop handed =
      (id, len) :: r.ring.completed.drop (handed + 1) := by
    obtain ⟨hin, hget⟩ := List.getElem?_eq_some_iff.mp hid
    rw [List.drop_eq_getElem_cons hin, hget]
  have hplaced := h.placed
  rw [hdrop, List.map_cons] at hplaced
  exact { h with
    kept := h.kept.stage (by omega)
    total := by
      rw [hlist, List.length_append, List.length_singleton]
      omega
    inside := by
      rw [hlist]
      have hid : id ∈ List.range RX_SLOTS :=
        hplaced.mem_iff.mp (List.mem_append_right _ List.mem_cons_self)
      exact List.forall_mem_append.mpr
        ⟨h.inside, List.forall_mem_singleton.mpr (List.mem_range.mp hid)⟩
    placed := by
      have hfetched := h.kept.fetched_le
      have hlength : (r.ring.published ++ r.ring.staged).length =
        r.ring.published.length + r.ring.staged.length := List.length_append
      rw [hlist]
      show List.Perm (List.drop r.ring.fetched _ ++ r.flight ++
        (r.ring.completed.drop (handed + 1)).map Prod.fst) _
      rw [List.drop_append_of_le_length (by omega)]
      refine List.Perm.trans ?_ hplaced
      rw [List.append_assoc, List.append_assoc, List.append_assoc]
      apply List.Perm.append_left
      show List.Perm (id :: (r.flight ++ _)) (r.flight ++ id :: _)
      exact List.perm_middle.symm
    frames := fun i id' len' hi => h.frames i id' len' (Nat.le_of_succ_le hi) }

theorem publish (h : Receiving handed r) : Receiving handed r.publish := by
  have hlist : r.publish.ring.published ++ r.publish.ring.staged =
      r.ring.published ++ r.ring.staged := List.append_nil _
  exact { h with
    kept := h.kept.publish
    total := hlist ▸ h.total
    inside := hlist ▸ h.inside
    placed := by
      rw [hlist]
      exact h.placed }

end Receiving

structure Transmitting (t : Tx) : Prop where
  kept : Kept 1 t.ring
  size_le : t.ring.size ≤ QUEUE_SIZE
  bounce_length : t.bounce.length = TX_DATA_BYTES
  lens_length : t.lens.length = QUEUE_SIZE
  flight_length : t.flight.length + t.ring.completed.length = t.ring.fetched
  inside : ∀ d ∈ t.ring.published ++ t.ring.staged, d < t.ring.size
  packets_length : t.packets.length = t.ring.published.length
  /-- A packet stays in the bounce buffer until its transmit is completed. -/
  loaded : ∀ n d packet, t.ring.completed.length ≤ n → t.ring.published[n]? = some d →
    t.packets[n]? = some packet →
    t.bounce.take packet.length = packet ∧ t.lens[d]? = some packet.length
  flight : ∀ ticket ∈ t.flight, ticket.number = t.ring.completed.length ∧
    ∃ packet, t.packets[ticket.number]? = some packet ∧ ticket.len = packet.length
  settled : t.settled = List.range t.ring.completed.length
  /-- What is completed was read as a whole. -/
  read : ∀ n ∈ t.settled, ∃ packet, t.packets[n]? = some packet ∧ ⟨n, 0, packet⟩ ∈ t.sent
  /-- The device reads nothing but what was published. -/
  honest : ∀ p ∈ t.sent, ∃ packet, t.packets[p.number]? = some packet ∧
    p.bytes = sub packet p.position p.bytes.length
  writes : ∀ n ∈ t.writes, n = 0

/-- What a turn of the device leaves of the transmit queue. -/
structure Tx.Grows (t t' : Tx) : Prop where
  size : t'.ring.size = t.ring.size
  published : t'.ring.published = t.ring.published
  staged : t'.ring.staged = t.ring.staged
  consumed : t'.ring.consumed = t.ring.consumed
  bounce : t'.bounce = t.bounce
  lens : t'.lens = t.lens
  packets : t'.packets = t.packets
  completed : t.ring.completed <+: t'.ring.completed
  settled : t.settled <+: t'.settled
  sent : t.sent <+: t'.sent

namespace Tx.Grows

variable {t t' t'' : Tx}

theorem refl (t : Tx) : t.Grows t where
  size := rfl
  published := rfl
  staged := rfl
  consumed := rfl
  bounce := rfl
  lens := rfl
  packets := rfl
  completed := List.prefix_rfl
  settled := List.prefix_rfl
  sent := List.prefix_rfl

theorem trans (h : t.Grows t') (h' : t'.Grows t'') : t.Grows t'' where
  size := h'.size.trans h.size
  published := h'.published.trans h.published
  staged := h'.staged.trans h.staged
  consumed := h'.consumed.trans h.consumed
  bounce := h'.bounce.trans h.bounce
  lens := h'.lens.trans h.lens
  packets := h'.packets.trans h.packets
  completed := h.completed.trans h'.completed
  settled := h.settled.trans h'.settled
  sent := h.sent.trans h'.sent

theorem move (m : TxMove) : t.Grows (t.move m) := by
  cases m with
  | fetch =>
    rw [Tx.move, Tx.fetch]
    split
    · exact { refl t with }
    · exact refl t
  | read k i n =>
    rw [Tx.move]
    split
    · rw [Tx.read]
      split
      · exact { refl t with sent := List.prefix_append _ _ }
      · exact refl t
    · exact refl t
  | finish k =>
    rw [Tx.move]
    split
    · exact { refl t with
        completed := List.prefix_append _ _
        settled := List.prefix_append _ _
        sent := List.prefix_append _ _ }
    · exact refl t

end Tx.Grows

/-- A part of a packet at the start of the buffer. -/
theorem sub_of_take {buffer packet : Bytes} {i n : ℕ}
    (h : buffer.take packet.length = packet) (hle : i + n ≤ packet.length) :
    sub buffer i n = sub packet i n := by
  calc
    sub buffer i n = ((buffer.drop i).take (packet.length - i)).take n := by
      rw [List.take_take, Nat.min_eq_left (by omega)]
      rfl
    _ = sub packet i n := by
      rw [← List.drop_take, h]
      rfl

namespace Transmitting

variable {t : Tx}

/-- At most one packet is out. -/
theorem published_le (h : Transmitting t) :
    t.ring.published.length ≤ t.ring.completed.length + 1 := by
  have hout := h.kept.out
  have hconsumed := h.kept.consumed_le
  rw [List.length_append] at hout
  omega

/-- A transmit that the device fetched is the one that is out. -/
theorem loaded_of_mem (h : Transmitting t) {ticket : Ticket} (hmem : ticket ∈ t.flight) :
    ∃ packet, t.packets[t.ring.completed.length]? = some packet ∧
      ticket.number = t.ring.completed.length ∧ ticket.len = packet.length ∧
      t.bounce.take packet.length = packet := by
  obtain ⟨hnumber, packet, hpacket, hlen⟩ := h.flight ticket hmem
  rw [hnumber] at hpacket
  obtain ⟨hlt, -⟩ := List.getElem?_eq_some_iff.mp hpacket
  rw [h.packets_length] at hlt
  have hloaded := h.loaded _ _ packet le_rfl (List.getElem?_eq_getElem hlt) hpacket
  exact ⟨packet, hpacket, hnumber, hlen, hloaded.1⟩

theorem fetch (h : Transmitting t) : Transmitting t.fetch := by
  rw [Tx.fetch]
  split
  · next d hoffered =>
    have hnext := h.kept.offered_eq_some hoffered
    obtain ⟨hlt, -⟩ := List.getElem?_eq_some_iff.mp hnext
    have hpublished := h.published_le
    have hcompleted := h.kept.completed_le
    have hfetched : t.ring.fetched = t.ring.completed.length := by omega
    have hflight := h.flight_length
    have hnil : t.flight = [] := List.eq_nil_of_length_eq_zero (by omega)
    have hpacket := List.getElem?_eq_getElem (h.packets_length ▸ hlt)
    have hloaded := h.loaded _ _ _ (Nat.le_of_eq hfetched.symm) hnext hpacket
    exact { h with
      kept := h.kept.fetch hlt
      flight_length := by
        show (t.flight ++ [_]).length + t.ring.completed.length = t.ring.fetched + 1
        rw [List.length_append, List.length_singleton]
        omega
      flight := by
        intro ticket hmem
        have hmem' : ticket ∈ t.flight ++ [_] := hmem
        rw [hnil, List.nil_append, List.mem_singleton] at hmem'
        subst hmem'
        refine ⟨hfetched, _, hpacket, ?_⟩
        rw [hloaded.2]
        rfl }
  · exact h

theorem readPiece (h : Transmitting t) {ticket : Ticket} {i n : ℕ} (hmem : ticket ∈ t.flight) :
    Transmitting (t.read ticket i n) := by
  rw [Tx.read]
  split
  · next hle =>
    obtain ⟨packet, hpacket, hnumber, hlen, hbounce⟩ := h.loaded_of_mem hmem
    exact { h with
      read := by
        intro m hm
        obtain ⟨packet', hpacket', hsent⟩ := h.read m hm
        exact ⟨packet', hpacket', List.mem_append_left _ hsent⟩
      honest := by
        intro p hp
        rcases List.mem_append.mp hp with hp | hp
        · exact h.honest p hp
        · obtain rfl := List.mem_singleton.mp hp
          refine ⟨packet, hnumber ▸ hpacket, ?_⟩
          show sub t.bounce i n = sub packet i (sub t.bounce i n).length
          rw [sub_of_take hbounce (hlen ▸ hle), length_sub (hlen ▸ hle)] }
  · exact h

theorem finish (h : Transmitting t) {k : ℕ} {ticket : Ticket} (hget : t.flight[k]? = some ticket) :
    Transmitting (t.finish k ticket) := by
  obtain ⟨hk, -⟩ := List.getElem?_eq_some_iff.mp hget
  obtain ⟨packet, hpacket, hnumber, hlen, hbounce⟩ := h.loaded_of_mem (List.mem_of_getElem? hget)
  have hpublished := h.published_le
  have hfetched := h.kept.fetched_le
  have hflight := h.flight_length
  have hlength : (t.ring.completed ++ [ticket.descriptor]).length =
      t.ring.completed.length + 1 := by
    rw [List.length_append, List.length_singleton]
  have herase : (t.flight.eraseIdx k).length = 0 := by
    rw [List.length_eraseIdx_of_lt hk]
    omega
  have hwhole : sub t.bounce 0 ticket.len = packet := by
    rw [hlen]
    exact hbounce
  exact { h with
    kept := h.kept.complete (by omega)
    flight_length := by
      show (t.flight.eraseIdx k).length + (t.ring.completed ++ [ticket.descriptor]).length =
        t.ring.fetched
      omega
    loaded := by
      intro n d p hn hd
      have hn' : (t.ring.completed ++ [ticket.descriptor]).length ≤ n := hn
      obtain ⟨hlt, -⟩ := List.getElem?_eq_some_iff.mp hd
      have hlt' : n < t.ring.published.length := hlt
      omega
    flight := by
      intro ticket' hmem
      have hmem' : ticket' ∈ t.flight.eraseIdx k := hmem
      rw [List.eq_nil_of_length_eq_zero herase] at hmem'
      exact absurd hmem' List.not_mem_nil
    settled := by
      show t.settled ++ [ticket.number] =
        List.range (t.ring.completed ++ [ticket.descriptor]).length
      rw [hlength, List.range_succ, h.settled, hnumber]
    read := by
      intro m hm
      show ∃ p, t.packets[m]? = some p ∧
        ⟨m, 0, p⟩ ∈ t.sent ++ [⟨ticket.number, 0, sub t.bounce 0 ticket.len⟩]
      rcases List.mem_append.mp hm with hm | hm
      · obtain ⟨p, hp, hsent⟩ := h.read m hm
        exact ⟨p, hp, List.mem_append_left _ hsent⟩
      · obtain rfl := List.mem_singleton.mp hm
        refine ⟨packet, hnumber ▸ hpacket, List.mem_append_right _ ?_⟩
        rw [hwhole]
        exact List.mem_singleton_self _
    honest := by
      intro p hp
      rcases List.mem_append.mp hp with hp | hp
      · exact h.honest p hp
      · obtain rfl := List.mem_singleton.mp hp
        refine ⟨packet, hnumber ▸ hpacket, ?_⟩
        show sub t.bounce 0 ticket.len = sub packet 0 (sub t.bounce 0 ticket.len).length
        rw [hwhole, sub_of_length rfl] }

theorem move (h : Transmitting t) (m : TxMove) : Transmitting (t.move m) := by
  cases m with
  | fetch => exact h.fetch
  | read k i n =>
    rw [Tx.move]
    split
    · next ticket hget => exact h.readPiece (List.mem_of_getElem? hget)
    · exact h
  | finish k =>
    rw [Tx.move]
    split
    · next ticket hget => exact h.finish hget
    · exact h

/-- A turn of the device keeps the transmit queue. -/
theorem moves (h : Transmitting t) (ms : List TxMove) :
    Transmitting (ms.foldl Tx.move t) ∧ t.Grows (ms.foldl Tx.move t) := by
  induction ms generalizing t with
  | nil => exact ⟨h, .refl t⟩
  | cons m ms ih =>
    obtain ⟨hkept, hgrows⟩ := ih (h.move m)
    exact ⟨hkept, (Tx.Grows.move m).trans hgrows⟩

theorem consume (h : Transmitting t) (hlt : t.ring.consumed < t.ring.completed.length) :
    Transmitting t.consume :=
  { h with kept := h.kept.consume hlt }

/-- A write while no packet is out. -/
theorem write (h : Transmitting t) (hlevel : t.ring.published.length = t.ring.consumed) :
    Transmitting { t with
      writes := t.writes ++ [t.ring.published.length - t.ring.completed.length] } := by
  have hconsumed := h.kept.consumed_le
  exact { h with
    writes := by
      have hzero : t.ring.published.length - t.ring.completed.length = 0 := by omega
      exact List.forall_mem_append.mpr ⟨h.writes, List.forall_mem_singleton.mpr hzero⟩ }

/-- While no packet is out, what is in the buffer and in the descriptors does not matter. -/
theorem load (h : Transmitting t) (hlevel : t.ring.published.length = t.ring.consumed)
    {packet : Bytes} (hfits : packet.length ≤ TX_DATA_BYTES) : Transmitting (t.load packet) := by
  have hconsumed := h.kept.consumed_le
  exact { h with
    bounce_length := by
      have hlength : (t.load packet).bounce.length = t.bounce.length :=
        length_copyInto (by rw [h.bounce_length]; omega)
      exact hlength.trans h.bounce_length
    loaded := by
      intro n d p hn hd
      obtain ⟨hlt, -⟩ := List.getElem?_eq_some_iff.mp hd
      have hn' : t.ring.completed.length ≤ n := hn
      have hlt' : n < t.ring.published.length := hlt
      omega }

theorem describe (h : Transmitting t) (hlevel : t.ring.published.length = t.ring.consumed)
    {d len : ℕ} : Transmitting (t.describe d len) := by
  have hconsumed := h.kept.consumed_le
  exact { h with
    lens_length := (List.length_set ..).trans h.lens_length
    loaded := by
      intro n d p hn hd
      obtain ⟨hlt, -⟩ := List.getElem?_eq_some_iff.mp hd
      have hn' : t.ring.completed.length ≤ n := hn
      have hlt' : n < t.ring.published.length := hlt
      omega }

theorem stage (h : Transmitting t) (hlevel : t.ring.published.length = t.ring.consumed)
    (hstaged : t.ring.staged = []) {d : ℕ} (hd : d < t.ring.size) :
    Transmitting (t.stage d) := by
  have hlist : (t.stage d).ring.published ++ (t.stage d).ring.staged =
      (t.ring.published ++ t.ring.staged) ++ [d] := (List.append_assoc _ _ _).symm
  have hlength : (t.ring.published ++ t.ring.staged).length = t.ring.published.length := by
    rw [hstaged, List.append_nil]
  exact { h with
    kept := h.kept.stage (by omega)
    inside := by
      rw [hlist]
      exact List.forall_mem_append.mpr ⟨h.inside, List.forall_mem_singleton.mpr hd⟩ }

/-- The packet that the buffer and the staged descriptor hold is shown to the device. -/
theorem publish (h : Transmitting t) (hlevel : t.ring.published.length = t.ring.consumed)
    {d : ℕ} (hstaged : t.ring.staged = [d]) {packet : Bytes}
    (hbounce : t.bounce.take packet.length = packet) (hlen : t.lens[d]? = some packet.length) :
    Transmitting (t.publish packet) := by
  have hlist : (t.publish packet).ring.published ++ (t.publish packet).ring.staged =
      t.ring.published ++ t.ring.staged := List.append_nil _
  have hold : ∀ {n : ℕ} {p : Bytes}, t.packets[n]? = some p →
      (t.packets ++ [packet])[n]? = some p := by
    intro n p hp
    obtain ⟨hlt, -⟩ := List.getElem?_eq_some_iff.mp hp
    rw [List.getElem?_append_left hlt, hp]
  have hconsumed := h.kept.consumed_le
  exact { h with
    kept := h.kept.publish
    inside := hlist ▸ h.inside
    packets_length := by
      show (t.packets ++ [packet]).length = (t.ring.published ++ t.ring.staged).length
      rw [List.length_append, List.length_append, h.packets_length, hstaged]
      rfl
    loaded := by
      intro n d' p hn hd hp
      have hn' : t.ring.completed.length ≤ n := hn
      have hd' : (t.ring.published ++ t.ring.staged)[n]? = some d' := hd
      have hp' : (t.packets ++ [packet])[n]? = some p := hp
      rw [hstaged] at hd'
      have hlength : (t.ring.published ++ [d]).length = t.ring.published.length + 1 := by
        rw [List.length_append, List.length_singleton]
      obtain ⟨hlt, -⟩ := List.getElem?_eq_some_iff.mp hd'
      obtain rfl : n = t.ring.published.length := by omega
      rw [List.getElem?_concat_length] at hd'
      rw [← h.packets_length, List.getElem?_concat_length] at hp'
      cases hd'
      cases hp'
      exact ⟨hbounce, hlen⟩
    flight := by
      intro ticket hmem
      obtain ⟨hnumber, p, hp, hlen⟩ := h.flight ticket hmem
      exact ⟨hnumber, p, hold hp, hlen⟩
    read := by
      intro n hn
      obtain ⟨p, hp, hsent⟩ := h.read n hn
      exact ⟨p, hold hp, hsent⟩
    honest := by
      intro piece hpiece
      obtain ⟨p, hp, hbytes⟩ := h.honest piece hpiece
      exact ⟨p, hold hp, hbytes⟩ }

end Transmitting

end Eo9.NetVirtio
