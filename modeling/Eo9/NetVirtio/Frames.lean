import Eo9.NetVirtio.Queues

/-!
# Frames under failures and cancellation

What each operation of the driver does with the two queues, when it returns and when it stops at an
await. From it follows what holds in every state of every run of a device that obeys virtio, if the
counters of the eight receive slots select different cells.
-/

namespace Eo9.NetVirtio

open Eo9.Library

variable {α β : Type} {handed : ℕ} {w w' w'' : World}

structure Running (handed : ℕ) (w : World) : Prop where
  rx : Receiving handed w.rx
  tx : Transmitting w.tx

structure World.Grows (w w' : World) : Prop where
  rx : w.rx.Grows w'.rx
  tx : w.tx.Grows w'.tx

theorem World.Grows.refl (w : World) : w.Grows w := ⟨.refl _, .refl _⟩

theorem World.Grows.trans (h : w.Grows w') (h' : w'.Grows w'') : w.Grows w'' :=
  ⟨h.rx.trans h'.rx, h.tx.trans h'.tx⟩

/-- A call during which only the device works on the queues. -/
def Passive (m : Call α) : Prop :=
  ∀ handed w, Running handed w → Running handed (m w).2 ∧ w.Grows (m w).2

namespace Passive

variable {m : Call α}

theorem of_same (h : ∀ w, (m w).2.rx = w.rx ∧ (m w).2.tx = w.tx) : Passive m := by
  intro handed w hw
  obtain ⟨hrx, htx⟩ := h w
  refine ⟨⟨?_, ?_⟩, ?_, ?_⟩
  · rw [hrx]
    exact hw.rx
  · rw [htx]
    exact hw.tx
  · rw [hrx]
    exact .refl _
  · rw [htx]
    exact .refl _

theorem pure {a : α} : Passive (Pure.pure a : Call α) := of_same fun _ => ⟨rfl, rfl⟩

theorem fail {e : Ended String} : Passive (Action.fail e : Call α) := of_same fun _ => ⟨rfl, rfl⟩

theorem gets {f : World → α} : Passive (Action.gets f : Call α) := of_same fun _ => ⟨rfl, rfl⟩

theorem bind {f : α → Call β} (h : Passive m) (hf : ∀ a, Passive (f a)) : Passive (m >>= f) := by
  intro handed w hw
  obtain ⟨hrunning, hgrows⟩ := h handed w hw
  cases hm : m w with
  | mk result w' =>
    rw [hm] at hrunning hgrows
    cases result with
    | error e =>
      rw [Action.bind_of_error hm]
      exact ⟨hrunning, hgrows⟩
    | ok a =>
      rw [Action.bind_of_ok hm]
      obtain ⟨hrest, hmore⟩ := hf a handed w' hrunning
      exact ⟨hrest, hgrows.trans hmore⟩

theorem turn : Passive turn := by
  intro handed w hw
  rw [NetVirtio.turn]
  cases w.script with
  | nil => exact ⟨hw, .refl w⟩
  | cons t script =>
    obtain ⟨hrx, hrxGrows⟩ := hw.rx.moves t.rx
    obtain ⟨htx, htxGrows⟩ := hw.tx.moves t.tx
    exact ⟨⟨hrx, htx⟩, hrxGrows, htxGrows⟩

theorem pass : Passive pass := turn.bind fun _ => pure

theorem pciCall (what : String) : Passive (pciCall what) := by
  apply turn.bind
  intro reply
  cases reply with
  | ok => exact pure
  | failed => exact fail
  | dropped => exact fail

theorem poll (moved : World → Bool) (spins : ℕ) : Passive (poll moved spins) := by
  induction spins with
  | zero => exact pure
  | succ spins ih =>
    apply pass.bind
    intro _
    apply gets.bind
    intro b
    cases b with
    | false => exact ih
    | true => exact pure

theorem acknowledgeIsr : Passive acknowledgeIsr := by
  apply turn.bind
  intro reply
  cases reply with
  | ok => exact pure
  | failed => exact pure
  | dropped => exact fail

theorem acknowledge : Passive acknowledge := by
  apply gets.bind
  intro b
  cases b with
  | false => exact pure
  | true => exact acknowledgeIsr

theorem waitRx : Passive waitRx := by
  have hset : ∀ b, Passive (Action.modify fun w => { w with interrupt := b } : Call PUnit) :=
    fun b => of_same fun _ => ⟨rfl, rfl⟩
  apply pass.bind
  intro _
  apply gets.bind
  intro moved
  cases moved with
  | true => exact pure
  | false =>
    apply gets.bind
    intro interrupt
    cases interrupt with
    | false => exact pure
    | true =>
      apply (hset false).bind
      intro _
      apply turn.bind
      intro reply
      cases reply with
      | ok => exact (hset true).bind fun _ => acknowledgeIsr
      | failed => exact hset true
      | dropped => exact fail

open Action in
theorem wp (h : Passive m) (hw : Running handed w) :
    wp m w (fun _ w' => Running handed w' ∧ w.Grows w')
      fun _ w' => Running handed w' ∧ w.Grows w' := by
  obtain hpost := h handed w hw
  apply wp_iff.mpr
  constructor
  · intro a w' hm
    rwa [hm] at hpost
  · intro e w' hm
    rwa [hm] at hpost

end Passive

/-- The turn of the device before an access does not stop the driver. -/
theorem pass_ok (w : World) : ∃ w', pass w = (.ok ⟨⟩, w') := by
  rw [pass]
  cases hscript : w.script with
  | nil => exact ⟨_, Action.bind_of_ok (a := Reply.ok) (by rw [turn, hscript])⟩
  | cons t script => exact ⟨_, Action.bind_of_ok (a := t.reply) (by rw [turn, hscript])⟩

open Action in
theorem wp_pass {stop : Stop (Ended String) → World → Prop} (h : Running handed w) :
    wp pass w (fun _ w' => Running handed w' ∧ w.Grows w') stop := by
  obtain ⟨w', hpass⟩ := pass_ok w
  obtain hpost := Passive.pass handed w h
  rw [hpass] at hpost
  exact wp_of_ok hpass hpost

/-- A poll that ends before its limit has seen the index move. -/
theorem poll_moved {moved : World → Bool} {spins n : ℕ}
    (h : poll moved spins w = (.ok (some n), w')) : moved w' = true := by
  induction spins generalizing w with
  | zero => cases h
  | succ spins ih =>
    obtain ⟨w₁, hpass⟩ := pass_ok w
    rw [poll, Action.bind_of_ok hpass, Action.bind_of_ok (Action.gets_apply moved w₁)] at h
    cases hmoved : moved w₁ with
    | false =>
      rw [hmoved] at h
      exact ih h
    | true =>
      rw [hmoved] at h
      cases h
      exact hmoved

open Action in
theorem wp_poll {moved : World → Bool} {spins : ℕ} (h : Running handed w) :
    wp (poll moved spins) w
      (fun v w' => Running handed w' ∧ w.Grows w' ∧ ∀ n, v = some n → moved w' = true)
      fun _ w' => Running handed w' ∧ w.Grows w' := by
  obtain hpost := Passive.poll moved spins handed w h
  apply wp_iff.mpr
  constructor
  · intro v w' hm
    rw [hm] at hpost
    refine ⟨hpost.1, hpost.2, fun n hn => ?_⟩
    rw [hn] at hm
    exact poll_moved hm
  · intro e w' hm
    rwa [hm] at hpost

/-- During a send, with these packets published so far. -/
structure Sending (handed : ℕ) (rx : Rx) (packets : List Bytes) (w : World) : Prop where
  running : Running handed w
  rx : rx.Grows w.rx
  packets : w.tx.packets = packets
  staged : w.tx.ring.staged = []

section Sends

variable {rx : Rx} {packets : List Bytes}

theorem Sending.grows (h : Sending handed rx packets w) (hrunning : Running handed w')
    (hgrows : w.Grows w') : Sending handed rx packets w' where
  running := hrunning
  rx := h.rx.trans hgrows.rx
  packets := hgrows.tx.packets.trans h.packets
  staged := hgrows.tx.staged.trans h.staged

theorem Tx.Grows.level {t t' : Tx} (h : t.Grows t')
    (hlevel : t.ring.published.length = t.ring.consumed) :
    t'.ring.published.length = t'.ring.consumed := by
  rw [h.published, h.consumed, hlevel]

/-- The driver sees whether a packet is out. -/
theorem Transmitting.level_iff {t : Tx} (h : Transmitting t) (hstaged : t.ring.staged = []) :
    t.ring.availIndex = t.ring.usedIndex ↔ t.ring.published.length = t.ring.consumed := by
  have hconsumed := h.kept.consumed_le
  have hcompleted := h.kept.completed_le
  have hfetched := h.kept.fetched_le
  have hout := h.kept.out
  have hindex := h.kept.availIndex
  rw [hstaged, List.append_nil] at hout hindex
  rw [hindex, h.kept.usedIndex, eq_comm, mod_eq_mod_iff (by omega) hout (by decide), eq_comm]

open Action in
theorem wp_drainTx {fuel spins : ℕ} (h : Sending handed rx packets w) :
    wp (drainTx fuel spins) w
      (fun _ w' => Sending handed rx packets w' ∧
        w'.tx.ring.published.length = w'.tx.ring.consumed)
      fun _ w' => Sending handed rx packets w' := by
  induction fuel generalizing w spins with
  | zero =>
    apply wp_ofOutcome
    · nofun
    · exact fun _ _ => h
  | succ fuel ih =>
    rw [drainTx]
    apply wp_bind_of_ok (gets_apply _ _)
    by_cases hlevel : w.tx.ring.availIndex = w.tx.ring.usedIndex
    · rw [if_pos (decide_eq_true hlevel)]
      exact wp_pure ⟨h, (h.running.tx.level_iff h.staged).mp hlevel⟩
    · rw [if_neg (by rwa [decide_eq_true_iff])]
      apply wp_bind ((Passive.pciCall _).wp h.running) ?_ fun _ _ hp => h.grows hp.1 hp.2
      rintro _ w₁ ⟨hrunning₁, hgrows₁⟩
      have h₁ := h.grows hrunning₁ hgrows₁
      apply wp_bind (wp_poll h₁.running) ?_ fun _ _ hp => h₁.grows hp.1 hp.2
      rintro v w₂ ⟨hrunning₂, hgrows₂, hmoved⟩
      have h₂ := h₁.grows hrunning₂ hgrows₂
      cases v with
      | none => exact wp_fail h₂
      | some spins =>
        have hused : w₂.tx.ring.usedIdx ≠ w₂.tx.ring.usedIndex :=
          of_decide_eq_true (hmoved spins rfl)
        have hlt := hrunning₂.tx.kept.usedIdx_ne_iff.mp hused
        apply wp_bind (wp_modify ?_) (fun _ _ hp => ih hp) fun _ _ => id
        exact {
          running := ⟨h₂.running.rx, h₂.running.tx.consume hlt⟩
          rx := h₂.rx
          packets := h₂.packets
          staged := h₂.staged }

open Action in
/-- A packet is published while no other is out. -/
theorem wp_submit {packet : Bytes} {stop : Stop (Ended String) → World → Prop}
    (h : Sending handed rx packets w) (hlevel : w.tx.ring.published.length = w.tx.ring.consumed)
    (hfits : packet.length ≤ TX_DATA_BYTES) :
    wp (submit packet) w
      (fun _ w' => Sending handed rx (packets ++ [packet]) w' ∧
        w'.tx.ring.consumed = packets.length) stop := by
  rw [submit, writeTx]
  apply wp_bind (wp_bind (wp_pass h.running) ?_ fun _ _ => id) ?_ fun _ _ => id
  · exact fun _ w₁ => Sending handed rx packets w₁ ∧
      w₁.tx.ring.published.length = w₁.tx.ring.consumed ∧
      w₁.tx.bounce.take packet.length = packet
  · rintro _ w₁ ⟨hrunning₁, hgrows₁⟩
    have h₁ := h.grows hrunning₁ hgrows₁
    have hlevel₁ := hgrows₁.tx.level hlevel
    apply wp_modify
    refine ⟨?_, hlevel₁, ?_⟩
    · exact {
        running := ⟨hrunning₁.rx, (hrunning₁.tx.write hlevel₁).load hlevel₁ hfits⟩
        rx := h₁.rx
        packets := h₁.packets
        staged := h₁.staged }
    · exact sub_copyInto (Nat.zero_le _)
  rintro _ w₁ ⟨h₁, hlevel₁, hbounce₁⟩
  apply wp_bind_of_ok (gets_apply _ _)
  generalize hd : w₁.tx.ring.availIndex % w₁.tx.ring.size = d
  rw [writeTx]
  apply wp_bind (wp_bind (wp_pass h₁.running) ?_ fun _ _ => id) ?_ fun _ _ => id
  · exact fun _ w₂ => Sending handed rx packets w₂ ∧
      w₂.tx.ring.published.length = w₂.tx.ring.consumed ∧ d < w₂.tx.ring.size ∧
      w₂.tx.bounce.take packet.length = packet ∧ w₂.tx.lens[d]? = some packet.length
  · rintro _ w₂ ⟨hrunning₂, hgrows₂⟩
    have h₂ := h₁.grows hrunning₂ hgrows₂
    have hlevel₂ := hgrows₂.tx.level hlevel₁
    have hsize : d < w₂.tx.ring.size := by
      rw [hgrows₂.tx.size, ← hd]
      exact Nat.mod_lt _ h₁.running.tx.kept.pos
    have hin : d < w₂.tx.lens.length := by
      rw [hrunning₂.tx.lens_length]
      exact Nat.lt_of_lt_of_le hsize hrunning₂.tx.size_le
    apply wp_modify
    refine ⟨?_, hlevel₂, hsize, ?_, ?_⟩
    · exact {
        running := ⟨hrunning₂.rx, (hrunning₂.tx.write hlevel₂).describe hlevel₂⟩
        rx := h₂.rx
        packets := h₂.packets
        staged := h₂.staged }
    · show w₂.tx.bounce.take packet.length = packet
      rw [hgrows₂.tx.bounce, hbounce₁]
    · exact List.getElem?_set_self hin
  rintro _ w₂ ⟨h₂, hlevel₂, hsize₂, hbounce₂, hlens₂⟩
  apply wp_bind (wp_pass h₂.running) ?_ fun _ _ => id
  rintro _ w₃ ⟨hrunning₃, hgrows₃⟩
  have h₃ := h₂.grows hrunning₃ hgrows₃
  have hlevel₃ := hgrows₃.tx.level hlevel₂
  apply wp_bind_of_ok (modify_apply _ _)
  have hstage : Running handed { w₃ with tx := w₃.tx.stage d } :=
    ⟨hrunning₃.rx, hrunning₃.tx.stage hlevel₃ h₃.staged (hgrows₃.tx.size ▸ hsize₂)⟩
  apply wp_bind (wp_pass hstage) ?_ fun _ _ => id
  rintro _ w₄ ⟨hrunning₄, hgrows₄⟩
  have hlevel₄ := hgrows₄.tx.level hlevel₃
  have hstaged₄ : w₄.tx.ring.staged = [d] := by
    rw [hgrows₄.tx.staged]
    show w₃.tx.ring.staged ++ [d] = [d]
    rw [h₃.staged, List.nil_append]
  have hbounce₄ : w₄.tx.bounce.take packet.length = packet := by
    rw [hgrows₄.tx.bounce]
    show w₃.tx.bounce.take packet.length = packet
    rw [hgrows₃.tx.bounce, hbounce₂]
  have hlens₄ : w₄.tx.lens[d]? = some packet.length := by
    rw [hgrows₄.tx.lens]
    show w₃.tx.lens[d]? = some packet.length
    rw [hgrows₃.tx.lens, hlens₂]
  have hpackets₄ : w₄.tx.packets = packets := hgrows₄.tx.packets.trans h₃.packets
  apply wp_modify
  refine ⟨?_, ?_⟩
  · exact {
      running := ⟨hrunning₄.rx, hrunning₄.tx.publish hlevel₄ hstaged₄ hbounce₄ hlens₄⟩
      rx := h₃.rx.trans hgrows₄.rx
      packets := congrArg (fun l => l ++ [packet]) hpackets₄
      staged := rfl }
  · show w₄.tx.ring.consumed = packets.length
    rw [← hlevel₄, ← hrunning₄.tx.packets_length, hpackets₄]

open Action in
/-- A frame that is sent was read as a whole by the device. -/
theorem wp_send {frame : Bytes} (h : Sending handed rx packets w) :
    wp (send frame) w
      (fun len w' => Sending handed rx (packets ++ [packetOf frame]) w' ∧ len = frame.length ∧
        packets.length ∈ w'.tx.settled ∧ ⟨packets.length, 0, packetOf frame⟩ ∈ w'.tx.sent)
      fun _ w' => ∃ packets', Sending handed rx packets' w' := by
  rw [send]
  split
  · exact wp_fail ⟨_, h⟩
  · next hsize =>
    have hfits : (packetOf frame).length ≤ TX_DATA_BYTES := by
      have hmax : MAX_FRAME = TX_DATA_BYTES - 12 := rfl
      have hheader : VNET_HEADER = 12 := rfl
      have hbytes : TX_DATA_BYTES = 2048 := rfl
      rw [packetOf, List.length_append, List.length_replicate]
      omega
    apply wp_bind (wp_drainTx h) ?_ fun _ _ hp => ⟨_, hp⟩
    rintro _ w₁ ⟨h₁, hlevel₁⟩
    apply wp_bind (wp_submit h₁ hlevel₁ hfits) ?_ fun _ _ => id
    rintro _ w₂ ⟨h₂, hconsumed₂⟩
    apply wp_bind ((Passive.pciCall _).wp h₂.running) ?_ fun _ _ hp => ⟨_, h₂.grows hp.1 hp.2⟩
    rintro _ w₃ ⟨hrunning₃, hgrows₃⟩
    have h₃ := h₂.grows hrunning₃ hgrows₃
    apply wp_bind (wp_poll h₃.running) ?_ fun _ _ hp => ⟨_, h₃.grows hp.1 hp.2⟩
    rintro v w₄ ⟨hrunning₄, hgrows₄, hmoved⟩
    have h₄ := h₃.grows hrunning₄ hgrows₄
    cases v with
    | none => exact wp_fail ⟨_, h₄⟩
    | some spins =>
      have hused : w₄.tx.ring.usedIdx ≠ w₄.tx.ring.usedIndex :=
        of_decide_eq_true (hmoved spins rfl)
      have hlt := hrunning₄.tx.kept.usedIdx_ne_iff.mp hused
      have hconsumed : w₄.tx.ring.consumed = packets.length := by
        rw [hgrows₄.tx.consumed, hgrows₃.tx.consumed, hconsumed₂]
      have hsettled : packets.length ∈ w₄.tx.settled := by
        rw [hrunning₄.tx.settled, List.mem_range, ← hconsumed]
        exact hlt
      obtain ⟨packet, hpacket, hsent⟩ := hrunning₄.tx.read _ hsettled
      rw [h₄.packets, List.getElem?_concat_length] at hpacket
      cases hpacket
      apply wp_bind_of_ok (modify_apply _ _)
      apply wp_pure
      refine ⟨?_, rfl, hsettled, hsent⟩
      exact {
        running := ⟨h₄.running.rx, h₄.running.tx.consume hlt⟩
        rx := h₄.rx
        packets := h₄.packets
        staged := h₄.staged }

end Sends

/-- What of a frame fits the caller's bound, without the header. -/
def cut (maxLen : ℕ) (frame : Bytes) : Bytes :=
  sub frame VNET_HEADER (min maxLen (frame.length - VNET_HEADER))

/-- The bytes that the driver takes from a slot are those of the frame in it. -/
theorem cut_take {slot : Bytes} {len maxLen : ℕ} (hslot : slot.length = RX_SLOT_BYTES)
    (hlen : len ≤ RX_SLOT_BYTES) (hheader : VNET_HEADER < len) :
    sub slot VNET_HEADER (min (min (len - VNET_HEADER) maxLen) (RX_SLOT_BYTES - VNET_HEADER)) =
      cut maxLen (slot.take len) := by
  have hlength : (slot.take len).length = len := List.length_take_of_le (by omega)
  have hmin : min (min (len - VNET_HEADER) maxLen) (RX_SLOT_BYTES - VNET_HEADER) =
      min maxLen (len - VNET_HEADER) := by omega
  rw [cut, hlength, hmin]
  apply sub_of_take
  · rw [hlength]
  · rw [hlength]
    omega

/-- During a receive, after the completion `c` is consumed. -/
structure Holding (handed c id len : ℕ) (tx : Tx) (frame : Bytes) (w : World) : Prop where
  running : Running handed w
  tx : tx.Grows w.tx
  consumed : w.rx.ring.consumed = c + 1
  completed : w.rx.ring.completed[c]? = some (id, len)
  frame : w.rx.frames[c]? = some frame

section Receives

variable {c id len maxLen : ℕ} {tx : Tx} {frame : Bytes}

theorem getElem?_of_prefix {γ : Type} {l l' : List γ} {i : ℕ} {a : γ} (h : l <+: l')
    (hget : l[i]? = some a) : l'[i]? = some a := by
  obtain ⟨rest, rfl⟩ := h
  obtain ⟨hlt, -⟩ := List.getElem?_eq_some_iff.mp hget
  rw [List.getElem?_append_left hlt, hget]

theorem Holding.grows (h : Holding handed c id len tx frame w) (hrunning : Running handed w')
    (hgrows : w.Grows w') : Holding handed c id len tx frame w' where
  running := hrunning
  tx := h.tx.trans hgrows.tx
  consumed := hgrows.rx.consumed.trans h.consumed
  completed := getElem?_of_prefix hgrows.rx.completed h.completed
  frame := getElem?_of_prefix hgrows.rx.frames h.frame

/-- The slot of a completion that was not handed back is one of the eight. -/
theorem Receiving.completed_lt {r : Rx} (h : Receiving handed r) {i : ℕ} (hi : handed ≤ i)
    (hcompleted : r.ring.completed[i]? = some (id, len)) : id < RX_SLOTS := by
  have hmem : id ∈ (r.ring.completed.drop handed).map Prod.fst := by
    apply List.mem_map.mpr
    refine ⟨(id, len), ?_, rfl⟩
    apply List.mem_of_getElem? (i := i - handed)
    rw [List.getElem?_drop, Nat.add_sub_cancel' hi, hcompleted]
  exact List.mem_range.mp (h.placed.mem_iff.mp (List.mem_append_right _ hmem))

open Action in
theorem wp_frameOf {stop : Stop (Ended String) → World → Prop}
    (h : Holding c c id len tx frame w) :
    wp (frameOf maxLen id len) w
      (fun bytes w' => Holding c c id len tx frame w' ∧ bytes = cut maxLen frame) stop := by
  have hid := h.running.rx.completed_lt le_rfl h.completed
  obtain ⟨hlen, hframe⟩ := h.running.rx.frames c id len le_rfl h.completed
  rw [frameOf]
  split
  · next hshort =>
    apply wp_pure
    refine ⟨h, ?_⟩
    rw [h.frame] at hframe
    cases hframe
    rw [cut, List.length_take]
    have hzero : min maxLen
        (min len ((w.rx.slots[id]?).getD []).length - VNET_HEADER) = 0 := by omega
    rw [hzero, sub, List.take_zero]
  · next hlong =>
    apply wp_bind (wp_pass h.running) ?_ fun _ _ hp => hp
    rintro _ w₁ ⟨hrunning₁, hgrows₁⟩
    have h₁ := h.grows hrunning₁ hgrows₁
    obtain ⟨-, hframe₁⟩ := hrunning₁.rx.frames c id len le_rfl h₁.completed
    have hin : id < w₁.rx.slots.length := by
      rw [hrunning₁.rx.slots_length]
      exact hid
    rw [h₁.frame, List.getElem?_eq_getElem hin, Option.getD_some] at hframe₁
    cases hframe₁
    apply wp_bind_of_ok (gets_apply _ _)
    apply wp_pure
    refine ⟨h₁, ?_⟩
    rw [List.getElem?_eq_getElem hin, Option.getD_some]
    exact cut_take (hrunning₁.rx.slot_length _ (List.getElem_mem hin)) hlen (by omega)

/-- A receive that is through with its completion. -/
structure Returned (c : ℕ) (tx : Tx) (frame : Bytes) (w : World) : Prop where
  running : Running (c + 1) w
  tx : tx.Grows w.tx
  consumed : w.rx.ring.consumed = c + 1
  staged : w.rx.ring.staged = []
  frame : w.rx.frames[c]? = some frame

theorem Returned.grows (h : Returned c tx frame w) (hrunning : Running (c + 1) w')
    (hgrows : w.Grows w') : Returned c tx frame w' where
  running := hrunning
  tx := h.tx.trans hgrows.tx
  consumed := hgrows.rx.consumed.trans h.consumed
  staged := hgrows.rx.staged.trans h.staged
  frame := getElem?_of_prefix hgrows.rx.frames h.frame

open Action in
/-- The slot is in the ring again at the only await. -/
theorem wp_handBack (h : Holding c c id len tx frame w) :
    wp (handBack id) w (fun _ w' => Returned c tx frame w') fun _ w' => Returned c tx frame w' := by
  rw [handBack, if_pos (h.running.rx.completed_lt le_rfl h.completed), stageRx]
  apply wp_bind (wp_bind (wp_pass h.running) ?_ fun _ _ hp => hp) ?_ fun _ _ hp => hp
  · exact fun _ w₁ => Holding (c + 1) c id len tx frame w₁
  · rintro _ w₁ ⟨hrunning₁, hgrows₁⟩
    have h₁ := h.grows hrunning₁ hgrows₁
    have hlt : c < w₁.rx.ring.consumed := by
      rw [h₁.consumed]
      exact Nat.lt_succ_self c
    apply wp_modify
    exact {
      running := ⟨hrunning₁.rx.stage hlt h₁.completed, hrunning₁.tx⟩
      tx := h₁.tx
      consumed := h₁.consumed
      completed := h₁.completed
      frame := h₁.frame }
  rintro _ w₁ h₁
  rw [publishRx]
  apply wp_bind (wp_bind (wp_pass h₁.running) ?_ fun _ _ hp => hp) ?_ fun _ _ hp => hp
  · exact fun _ w₂ => Returned c tx frame w₂
  · rintro _ w₂ ⟨hrunning₂, hgrows₂⟩
    have h₂ := h₁.grows hrunning₂ hgrows₂
    apply wp_modify
    exact {
      running := ⟨hrunning₂.rx.publish, hrunning₂.tx⟩
      tx := h₂.tx
      consumed := h₂.consumed
      staged := rfl
      frame := h₂.frame }
  rintro _ w₂ h₂
  exact wp_mono ((Passive.pciCall _).wp h₂.running) (fun _ _ hp => h₂.grows hp.1 hp.2)
    fun _ _ hp => h₂.grows hp.1 hp.2

end Receives

/-- What an operation finds. -/
structure Steady (w : World) : Prop where
  running : Running w.rx.ring.consumed w
  rxStaged : w.rx.ring.staged = []
  txStaged : w.tx.ring.staged = []

theorem Steady.grows (h : Steady w) (hrunning : Running w.rx.ring.consumed w')
    (hgrows : w.Grows w') : Steady w' where
  running := hgrows.rx.consumed.symm ▸ hrunning
  rxStaged := hgrows.rx.staged.trans h.rxStaged
  txStaged := hgrows.tx.staged.trans h.txStaged

theorem Returned.steady {c : ℕ} {frame : Bytes} (h : Returned c w.tx frame w')
    (hstaged : w.tx.ring.staged = []) : Steady w' where
  running := h.consumed.symm ▸ h.running
  rxStaged := h.staged
  txStaged := h.tx.staged.trans hstaged

theorem Sending.steady {packets : List Bytes} (h : Sending w.rx.ring.consumed w.rx packets w')
    (hstaged : w.rx.ring.staged = []) : Steady w' where
  running := h.rx.consumed.symm ▸ h.running
  rxStaged := h.rx.staged.trans hstaged
  txStaged := h.staged

open Action in
/-- A receive hands out the frame of the next completion, or it leaves the completions alone. -/
theorem wp_recv {maxLen : ℕ} (h : Steady w) :
    wp (recv maxLen) w
      (fun bytes w' => Steady w' ∧
        (w'.rx.ring.consumed = w.rx.ring.consumed ∧ bytes = [] ∨
          w'.rx.ring.consumed = w.rx.ring.consumed + 1 ∧
            ∃ frame, w'.rx.frames[w.rx.ring.consumed]? = some frame ∧ bytes = cut maxLen frame))
      fun _ w' => Steady w' ∧
        (w'.rx.ring.consumed = w.rx.ring.consumed ∨
          w'.rx.ring.consumed = w.rx.ring.consumed + 1 ∧
            ∃ frame, w'.rx.frames[w.rx.ring.consumed]? = some frame) := by
  rw [recv]
  apply wp_bind (wp_poll h.running) ?_ fun _ _ hp => ⟨h.grows hp.1 hp.2, .inl hp.2.rx.consumed⟩
  rintro v w₁ ⟨hrunning₁, hgrows₁, hmoved⟩
  cases v with
  | none => exact wp_pure ⟨h.grows hrunning₁ hgrows₁, .inl ⟨hgrows₁.rx.consumed, rfl⟩⟩
  | some spins =>
    have hused : w₁.rx.ring.usedIdx ≠ w₁.rx.ring.usedIndex :=
      of_decide_eq_true (hmoved spins rfl)
    have hlt₁ := hrunning₁.rx.kept.usedIdx_ne_iff.mp hused
    apply wp_bind (wp_pass hrunning₁) ?_ fun _ _ => id
    rintro _ w₂ ⟨hrunning₂, hgrows₂⟩
    have hgrows := hgrows₁.trans hgrows₂
    have hlt₂ : w₂.rx.ring.consumed < w₂.rx.ring.completed.length := by
      rw [hgrows₂.rx.consumed]
      exact Nat.lt_of_lt_of_le hlt₁ hgrows₂.rx.completed.length_le
    have hdelivered := hrunning₂.rx.kept.delivered_eq hlt₂
    rw [hgrows.rx.consumed] at hdelivered hlt₂
    obtain ⟨⟨id, len⟩, hcompleted⟩ : ∃ e, w₂.rx.ring.completed[w.rx.ring.consumed]? = some e :=
      ⟨_, List.getElem?_eq_getElem hlt₂⟩
    obtain ⟨frame, hframe⟩ : ∃ frame, w₂.rx.frames[w.rx.ring.consumed]? = some frame :=
      ⟨_, List.getElem?_eq_getElem (hrunning₂.rx.frames_length ▸ hlt₂)⟩
    apply wp_bind_of_ok (gets_apply _ _)
    rw [hdelivered, hcompleted, Option.getD_some]
    apply wp_bind_of_ok (modify_apply _ _)
    have hholding : Holding w.rx.ring.consumed w.rx.ring.consumed id len w.tx frame
        { w₂ with rx := w₂.rx.consume } :=
      { running := ⟨hrunning₂.rx.consume (hgrows.rx.consumed.symm ▸ hlt₂), hrunning₂.tx⟩
        tx := hgrows.tx
        consumed := congrArg (fun n => n + 1) hgrows.rx.consumed
        completed := hcompleted
        frame := hframe }
    have hdone : ∀ w', Returned w.rx.ring.consumed w.tx frame w' → Steady w' ∧
        (w'.rx.ring.consumed = w.rx.ring.consumed ∨
          w'.rx.ring.consumed = w.rx.ring.consumed + 1 ∧
            ∃ frame, w'.rx.frames[w.rx.ring.consumed]? = some frame) :=
      fun w' hp => ⟨hp.steady h.txStaged, .inr ⟨hp.consumed, frame, hp.frame⟩⟩
    apply wp_bind (wp_frameOf hholding) ?_ fun _ _ hp => hp
    rintro _ w₃ ⟨h₃, rfl⟩
    apply wp_bind (wp_handBack h₃) ?_ fun _ => hdone
    intro _ w₄ h₄
    apply wp_bind (Passive.acknowledge.wp h₄.running) ?_ fun _ w' hp =>
      hdone w' (h₄.grows hp.1 hp.2)
    rintro _ w₅ ⟨hrunning₅, hgrows₅⟩
    have h₅ := h₄.grows hrunning₅ hgrows₅
    exact wp_pure ⟨h₅.steady h.txStaged, .inr ⟨h₅.consumed, frame, h₅.frame, rfl⟩⟩

end Eo9.NetVirtio
