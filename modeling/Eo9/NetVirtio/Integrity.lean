import Eo9.NetVirtio.Frames

/-!
# The integrity of the rings

What holds in every state between operations, and of every operation, in every run of a device that
obeys virtio, from bring-up on. It needs a receive queue in whose rings the counters of the eight
slots select different cells. The queue size is what the device offers, up to sixteen, and the
driver posts eight slots whatever it is: a device that offers four gets eight in a ring of four.
-/

namespace Eo9.NetVirtio

open Eo9.Library

variable {w w' : World} {size : ℕ}

inductive Event where
  | send (frame : Bytes)
  | recv (maxLen : ℕ)
  | waitRx
  /-- The device has a turn between two operations. -/
  | pass

/-- The state behind an event, also of an operation that failed or was dropped. -/
def after (w : World) : Event → World
  | .send frame => (send frame w).2
  | .recv maxLen => (recv maxLen w).2
  | .waitRx => (waitRx w).2
  | .pass => (pass w).2

structure Sound (w : World) : Prop where
  /-- Each slot is posted once, or completed and not consumed. -/
  slots : List.Perm (w.rx.ring.pending ++ w.rx.flight.map some ++
    w.rx.ring.untaken.map (Option.map Prod.fst)) ((List.range RX_SLOTS).map some)
  rxRoom : w.rx.ring.pending.length + w.rx.flight.length + w.rx.ring.untaken.length ≤
    w.rx.ring.size
  txRoom : w.tx.ring.pending.length + w.tx.flight.length + w.tx.ring.untaken.length ≤
    w.tx.ring.size
  rxInside : ∀ id ∈ w.rx.ring.published, id < w.rx.ring.size
  txInside : ∀ d ∈ w.tx.ring.published, d < w.tx.ring.size
  /-- No transmit was out at a write to the bounce buffer or to a transmit descriptor. -/
  writes : ∀ n ∈ w.tx.writes, n = 0
  /-- The device reads nothing but what was published. -/
  honest : ∀ p ∈ w.tx.sent, ∃ packet, w.tx.packets[p.number]? = some packet ∧
    p.bytes = sub packet p.position p.bytes.length

/-- A receive consumes nothing and returns nothing, or it consumes the next completion and returns
nothing but its frame. -/
def Received (w : World) (maxLen : ℕ) : Prop :=
  let w' := (recv maxLen w).2
  (w'.rx.ring.consumed = w.rx.ring.consumed ∧ ∀ bytes, (recv maxLen w).1 = .ok bytes → bytes = []) ∨
  (w'.rx.ring.consumed = w.rx.ring.consumed + 1 ∧
    ∃ frame, w'.rx.frames[w.rx.ring.consumed]? = some frame ∧
      ∀ bytes, (recv maxLen w).1 = .ok bytes → bytes = cut maxLen frame)

/-- A send that returned has published its frame, and the device has read all of it and
completed it. -/
def Sent (w : World) (frame : Bytes) : Prop :=
  let w' := (send frame w).2
  ∀ len, (send frame w).1 = .ok len → len = frame.length ∧
    w'.tx.packets = w.tx.packets ++ [packetOf frame] ∧ w.tx.packets.length ∈ w'.tx.settled ∧
    ⟨w.tx.packets.length, 0, packetOf frame⟩ ∈ w'.tx.sent

/-- What an event has to do with the frames. -/
def Holds (w : World) : Event → Prop
  | .recv maxLen => Received w maxLen
  | .send frame => Sent w frame ∧ (send frame w).2.rx.ring.consumed = w.rx.ring.consumed
  | .waitRx => (waitRx w).2.rx.ring.consumed = w.rx.ring.consumed
  | .pass => (pass w).2.rx.ring.consumed = w.rx.ring.consumed

/-- Every state of the run is sound, and every event of it holds. -/
def Upholds : World → List Event → Prop
  | w, [] => Sound w
  | w, e :: events => Sound w ∧ Holds w e ∧ Upholds (after w e) events

namespace Steady

theorem slots (h : Steady w) :
    List.Perm (w.rx.ring.pending ++ w.rx.flight.map some ++
      w.rx.ring.untaken.map (Option.map Prod.fst)) ((List.range RX_SLOTS).map some) := by
  have hplaced := h.running.rx.placed.map some
  rw [h.rxStaged, List.append_nil, List.map_append, List.map_append] at hplaced
  rw [h.running.rx.kept.pending_eq h.rxStaged, h.running.rx.kept.untaken_eq, List.map_map]
  rwa [List.map_map] at hplaced

theorem sound (h : Steady w) : Sound w where
  slots := h.slots
  rxRoom := by
    have hlength := h.slots.length_eq
    rw [List.length_append, List.length_append, List.length_map, List.length_map, List.length_map,
      List.length_range] at hlength
    rw [hlength]
    exact h.running.rx.kept.spaced.le h.running.rx.kept.pos h.running.rx.kept.small
  txRoom := by
    have hkept := h.running.tx.kept
    have hout := hkept.out
    have hfetched := hkept.fetched_le
    have hconsumed := hkept.consumed_le
    have hflight := h.running.tx.flight_length
    have hpos := hkept.pos
    rw [h.txStaged, List.append_nil] at hout
    rw [hkept.pending_eq h.txStaged, hkept.untaken_eq, List.length_map, List.length_map,
      List.length_drop, List.length_drop]
    omega
  rxInside := by
    intro id hid
    have hwide := h.running.rx.kept.spaced.le h.running.rx.kept.pos h.running.rx.kept.small
    exact Nat.lt_of_lt_of_le (h.running.rx.inside id (List.mem_append_left _ hid)) hwide
  txInside := fun d hd => h.running.tx.inside d (List.mem_append_left _ hd)
  writes := h.running.tx.writes
  honest := h.running.tx.honest

theorem received (h : Steady w) (maxLen : ℕ) :
    Received w maxLen ∧ Steady (recv maxLen w).2 := by
  have hwp := @wp_recv _ maxLen h
  rw [Received]
  cases hresult : recv maxLen w with
  | mk result w' =>
    cases result with
    | ok bytes =>
      obtain ⟨hsteady, hsame | ⟨hnext, frame, hframe, hbytes⟩⟩ := hwp.returned hresult
      · refine ⟨.inl ⟨hsame.1, fun bytes' hok => ?_⟩, hsteady⟩
        cases hok
        exact hsame.2
      · refine ⟨.inr ⟨hnext, frame, hframe, fun bytes' hok => ?_⟩, hsteady⟩
        cases hok
        exact hbytes
    | error e =>
      obtain ⟨hsteady, hsame | ⟨hnext, frame, hframe⟩⟩ := hwp.stopped hresult
      · exact ⟨.inl ⟨hsame, nofun⟩, hsteady⟩
      · exact ⟨.inr ⟨hnext, frame, hframe, nofun⟩, hsteady⟩

theorem sent (h : Steady w) (frame : Bytes) :
    Holds w (.send frame) ∧ Steady (send frame w).2 := by
  have hsending : Sending w.rx.ring.consumed w.rx w.tx.packets w :=
    ⟨h.running, .refl w.rx, rfl, h.txStaged⟩
  have hwp := @wp_send _ _ _ _ frame hsending
  rw [Holds, Sent]
  cases hresult : send frame w with
  | mk result w' =>
    cases result with
    | ok len =>
      obtain ⟨hdone, hlen, hsettled, hread⟩ := hwp.returned hresult
      refine ⟨⟨fun len' hok => ?_, hdone.rx.consumed⟩, hdone.steady h.rxStaged⟩
      cases hok
      exact ⟨hlen, hdone.packets, hsettled, hread⟩
    | error e =>
      obtain ⟨packets, hdone⟩ := hwp.stopped hresult
      exact ⟨⟨nofun, hdone.rx.consumed⟩, hdone.steady h.rxStaged⟩

theorem event (h : Steady w) (e : Event) : Holds w e ∧ Steady (after w e) := by
  cases e with
  | send frame => exact h.sent frame
  | recv maxLen => exact h.received maxLen
  | waitRx =>
    obtain ⟨hrunning, hgrows⟩ := Passive.waitRx _ w h.running
    exact ⟨hgrows.rx.consumed, h.grows hrunning hgrows⟩
  | pass =>
    obtain ⟨hrunning, hgrows⟩ := Passive.pass _ w h.running
    exact ⟨hgrows.rx.consumed, h.grows hrunning hgrows⟩

theorem upholds (h : Steady w) (events : List Event) : Upholds w events := by
  induction events generalizing w with
  | nil => exact h.sound
  | cons e events ih =>
    obtain ⟨hholds, hafter⟩ := h.event e
    exact ⟨h.sound, hholds, ih hafter⟩

end Steady

/-- A device that was not shown anything yet. -/
structure Idle (w : World) : Prop where
  rx : w.rx.ring.seen = w.rx.ring.availIdx
  rxFlight : w.rx.flight = []
  tx : w.tx.ring.seen = w.tx.ring.availIdx
  txFlight : w.tx.flight = []

namespace Idle

theorem rx_move (h : Idle w) (m : RxMove) : w.rx.move m = w.rx := by
  cases m with
  | fetch => rw [Rx.move, Rx.fetch, SplitRing.offered, if_pos h.rx]
  | fill k i bytes => rw [Rx.move, h.rxFlight, List.getElem?_nil]
  | deliver k len => rw [Rx.move, h.rxFlight, List.getElem?_nil]

theorem tx_move (h : Idle w) (m : TxMove) : w.tx.move m = w.tx := by
  cases m with
  | fetch => rw [Tx.move, Tx.fetch, SplitRing.offered, if_pos h.tx]
  | read k i n => rw [Tx.move, h.txFlight, List.getElem?_nil]
  | finish k => rw [Tx.move, h.txFlight, List.getElem?_nil]

theorem pass (h : Idle w) : ∃ script, pass w = (.ok ⟨⟩, { w with script := script }) := by
  rw [NetVirtio.pass]
  cases hscript : w.script with
  | nil =>
    refine ⟨w.script, Action.bind_of_ok (a := Reply.ok) ?_⟩
    rw [turn, hscript]
    exact congrArg (fun script => (Except.ok Reply.ok, { w with script := script })) hscript
  | cons t script =>
    have hrx : t.rx.foldl Rx.move w.rx = w.rx := List.foldl_fixed' h.rx_move t.rx
    have htx : t.tx.foldl Tx.move w.tx = w.tx := List.foldl_fixed' h.tx_move t.tx
    refine ⟨script, Action.bind_of_ok (a := t.reply) ?_⟩
    rw [turn, hscript]
    dsimp only
    rw [hrx, htx]

/-- Slots go into the ring before it is shown to the device. -/
theorem stageRx (h : Idle w) (slots : List ℕ) :
    ∃ script, slots.forM stageRx w =
      (.ok ⟨⟩, { w with rx := slots.foldl (fun r slot => r.stage slot) w.rx, script := script }) := by
  induction slots generalizing w with
  | nil => exact ⟨w.script, rfl⟩
  | cons slot slots ih =>
    obtain ⟨script, hpass⟩ := h.pass
    have hstage : NetVirtio.stageRx slot w =
        (.ok ⟨⟩, { w with rx := w.rx.stage slot, script := script }) := by
      rw [NetVirtio.stageRx, Action.bind_of_ok hpass]
      rfl
    have hidle : Idle { w with rx := w.rx.stage slot, script := script } :=
      ⟨h.rx, h.rxFlight, h.tx, h.txFlight⟩
    obtain ⟨script', hrest⟩ := ih hidle
    refine ⟨script', ?_⟩
    exact (Action.bind_of_ok hstage).trans hrest

end Idle

/-- A fresh receive queue into which the first slots are staged. -/
structure Filled (n : ℕ) (r : Rx) : Prop where
  kept : Kept RX_SLOTS r.ring
  published : r.ring.published = []
  staged : r.ring.staged = List.range n
  completed : r.ring.completed = []
  fetched : r.ring.fetched = 0
  consumed : r.ring.consumed = 0
  slots : r.slots = List.replicate RX_SLOTS (List.replicate RX_SLOT_BYTES 0)
  flight : r.flight = []
  frames : r.frames = []

theorem filled_stage (hpos : 0 < size) (hspaced : Spaced size RX_SLOTS) {n : ℕ}
    (hn : n ≤ RX_SLOTS) :
    Filled n ((List.range n).foldl (fun r slot => r.stage slot) (Rx.fresh size)) := by
  induction n with
  | zero =>
    exact {
      kept := .empty hpos hspaced (by decide) List.length_replicate List.length_replicate
      published := rfl
      staged := rfl
      completed := rfl
      fetched := rfl
      consumed := rfl
      slots := rfl
      flight := rfl
      frames := rfl }
  | succ n ih =>
    have h := ih (Nat.le_of_succ_le hn)
    rw [List.range_succ, List.foldl_append, List.foldl_cons, List.foldl_nil]
    exact { h with
      kept := by
        apply h.kept.stage
        rw [h.published, h.staged, h.consumed, List.nil_append, List.length_range, Nat.zero_add]
        exact hn
      staged := by
        rw [List.range_succ]
        exact congrArg (fun l => l ++ [n]) h.staged }

/-- All slots are shown to the device. -/
theorem Filled.publish {r : Rx} (h : Filled RX_SLOTS r) : Receiving 0 r.publish where
  kept := h.kept.publish
  slots_length := by
    show r.slots.length = RX_SLOTS
    rw [h.slots, List.length_replicate]
  slot_length := by
    intro slot hslot
    have hslot' : slot ∈ r.slots := hslot
    rw [h.slots] at hslot'
    rw [List.eq_of_mem_replicate hslot', List.length_replicate]
  flight_length := by
    show r.flight.length + r.ring.completed.length = r.ring.fetched
    rw [h.flight, h.completed, h.fetched]
    rfl
  total := by
    show (r.ring.published ++ r.ring.staged ++ []).length = 0 + RX_SLOTS
    rw [h.published, h.staged]
    rfl
  inside := by
    intro id hid
    have hid' : id ∈ r.ring.published ++ r.ring.staged ++ [] := hid
    rw [h.published, h.staged, List.append_nil, List.nil_append] at hid'
    exact List.mem_range.mp hid'
  placed := by
    show List.Perm ((r.ring.published ++ r.ring.staged ++ []).drop r.ring.fetched ++ r.flight ++
      (r.ring.completed.drop 0).map Prod.fst) _
    rw [h.published, h.staged, h.completed, h.fetched, h.flight]
    exact .refl _
  frames_length := by
    show r.frames.length = r.ring.completed.length
    rw [h.frames, h.completed]
    rfl
  frames := by
    intro i id len _ hcompleted
    have hcompleted' : r.ring.completed[i]? = some (id, len) := hcompleted
    rw [h.completed] at hcompleted'
    cases hcompleted'

theorem transmitting_fresh (hpos : 0 < size) (hsize : size ≤ QUEUE_SIZE) :
    Transmitting (Tx.fresh size) where
  kept := .empty hpos (spaced_one size) (by decide) List.length_replicate List.length_replicate
  size_le := hsize
  bounce_length := List.length_replicate
  lens_length := List.length_replicate
  flight_length := rfl
  inside := nofun
  packets_length := rfl
  loaded := fun _ _ _ _ hd => by cases hd
  flight := nofun
  settled := rfl
  read := nofun
  honest := nofun
  writes := nofun

theorem setupQueue_ok {maxSize : ℕ} (h : setupQueue maxSize = .ok size) :
    0 < size ∧ size = min maxSize QUEUE_SIZE := by
  rw [setupQueue] at h
  split at h
  · cases h
  · next hne =>
    cases h
    exact ⟨Nat.lt_min.mpr ⟨Nat.pos_of_ne_zero hne, by decide⟩, rfl⟩

/-- What bring-up leaves, with a receive queue that keeps eight slots apart. -/
theorem steady_post {rxSize txSize : ℕ} {interrupt : Bool} {script : List Turn} {result : PUnit}
    (hrx : 0 < rxSize) (hspaced : Spaced rxSize RX_SLOTS) (htx : 0 < txSize)
    (htxSize : txSize ≤ QUEUE_SIZE)
    (h : postInitialReceiveBuffers ⟨.fresh rxSize, .fresh txSize, interrupt, script⟩ =
      (.ok result, w)) : Steady w := by
  have hidle : Idle ⟨.fresh rxSize, .fresh txSize, interrupt, script⟩ := ⟨rfl, rfl, rfl, rfl⟩
  obtain ⟨script₁, hstage⟩ := hidle.stageRx (List.range RX_SLOTS)
  rw [postInitialReceiveBuffers, Action.bind_of_ok hstage] at h
  have hfilled := filled_stage hrx hspaced le_rfl
  generalize (List.range RX_SLOTS).foldl (fun r slot => r.stage slot) (Rx.fresh rxSize) = r
    at h hfilled
  have hidle₁ : Idle ⟨r, .fresh txSize, interrupt, script₁⟩ :=
    { rx := by
        rw [hfilled.kept.seen, hfilled.kept.availIdx, hfilled.fetched, hfilled.published]
        rfl
      rxFlight := hfilled.flight
      tx := rfl
      txFlight := rfl }
  obtain ⟨script₂, hpass⟩ := hidle₁.pass
  have hpublish : publishRx ⟨r, .fresh txSize, interrupt, script₁⟩ =
      (.ok ⟨⟩, ⟨r.publish, .fresh txSize, interrupt, script₂⟩) := by
    rw [publishRx, Action.bind_of_ok hpass]
    rfl
  rw [Action.bind_of_ok hpublish] at h
  have hrunning : Running 0 ⟨r.publish, .fresh txSize, interrupt, script₂⟩ :=
    ⟨hfilled.publish, transmitting_fresh htx htxSize⟩
  obtain ⟨hafter, hgrows⟩ := Passive.pciCall "net.virtio: queue notify" 0 _ hrunning
  have hnotify : pciCall "net.virtio: queue notify"
      ⟨r.publish, .fresh txSize, interrupt, script₂⟩ = (.ok result, w) := h
  rw [hnotify] at hafter hgrows
  exact {
    running := by
      rw [hgrows.rx.consumed]
      show Running r.ring.consumed w
      rw [hfilled.consumed]
      exact hafter
    rxStaged := hgrows.rx.staged
    txStaged := hgrows.tx.staged }

/-- The rings keep their integrity in every run of a device whose receive queue keeps the eight
slots apart. -/
theorem upholds_of_spaced {maxRx maxTx : ℕ} {interrupt : Bool} {script : List Turn} {w : World}
    {events : List Event} (hspaced : Spaced (min maxRx QUEUE_SIZE) RX_SLOTS)
    (hstart : start maxRx maxTx interrupt script = .ok w) : Upholds w events := by
  rw [start] at hstart
  cases hrx : setupQueue maxRx with
  | error e =>
    rw [hrx] at hstart
    cases e <;> cases hstart
  | ok rxSize =>
    rw [hrx] at hstart
    cases htx : setupQueue maxTx with
    | error e =>
      rw [htx] at hstart
      cases e <;> cases hstart
    | ok txSize =>
      rw [htx] at hstart
      obtain ⟨hrxPos, rfl⟩ := setupQueue_ok hrx
      obtain ⟨htxPos, rfl⟩ := setupQueue_ok htx
      cases hpost : postInitialReceiveBuffers ⟨.fresh (min maxRx QUEUE_SIZE),
          .fresh (min maxTx QUEUE_SIZE), interrupt, script⟩ with
      | mk result w' =>
        dsimp only [bind, Except.bind, Outcome.mapErr] at hstart
        rw [hpost] at hstart
        cases result with
        | error e => cases hstart
        | ok v =>
          cases hstart
          exact (steady_post hrxPos hspaced htxPos (Nat.min_le_right _ _) hpost).upholds
            events

/-- A device delivers a frame while the driver sends one. -/
def busyScript : List Turn :=
  List.replicate 10 ⟨[], [], .ok⟩ ++
    [⟨[.fetch, .fill 0 12 [1, 2, 3], .deliver 0 15], [], .ok⟩] ++
    List.replicate 4 ⟨[], [], .ok⟩ ++ [⟨[], [.fetch, .finish 0], .ok⟩]

/-- A receive and a send on a device that offers 256 entries. -/
theorem upholds_of_spaced_sample :
    ∃ w, start 256 256 false busyScript = .ok w ∧
      Upholds w [.pass, .recv 100, .waitRx, .send [1, 2, 3]] := by
  have hspaced : Spaced (min 256 QUEUE_SIZE) RX_SLOTS := spaced_of_dvd (by decide) (by decide)
  have hstart : start 256 256 false busyScript = .ok _ := rfl
  exact ⟨_, hstart, upholds_of_spaced hspaced hstart⟩

/-- Of a device that offers four entries, eight slots are posted. -/
theorem narrow_ring : ¬∀ maxRx maxTx interrupt script w events, 0 < maxRx → 0 < maxTx →
    start maxRx maxTx interrupt script = .ok w → Upholds w events := by
  intro h
  have hsound : Sound _ := h 4 4 false [] _ [] (by decide) (by decide) rfl
  have hlt : 7 < 4 := hsound.rxInside 7 (by decide)
  omega

end Eo9.NetVirtio
