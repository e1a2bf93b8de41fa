import Eo9.Library.Waiting
import Eo9.Net.Stack

/-!
# How a wait ends

The loop of `wait_until` is a wait with a deadline. It runs in an arbitrary environment, which
answers the calls on the link and may move the stack on in the meantime.
-/

namespace Eo9.Net.L4

open Eo9.Library

variable {S H I χ : Type} {β γ : Type}

/-- A part of an operation never takes back a reading of the clock. -/
def ReadsOn (t : Part S H I β) : Prop := t.Through fun s s' => s.reads ≤ s'.reads

theorem ReadsOn.then {t : Part S H I β} {k : β → Part S H I γ} (h : ReadsOn t)
    (hk : ∀ b, ReadsOn (k b)) : ReadsOn (t >>= k) :=
  Routine.Through.bind h hk

theorem ReadsOn.bind {t : L4Routine S H I β} {k : β → L4Routine S H I γ} (h : ReadsOn t.run)
    (hk : ∀ b, ReadsOn (k b).run) : ReadsOn (t >>= k).run :=
  h.then fun result => by
    cases result with
    | error e => exact trivial
    | ok b => exact hk b

theorem readsOn_access {f : L4State S H I → Except Stop β × L4State S H I}
    (h : ∀ s, s.reads ≤ (f s).2.reads) : ReadsOn (access f).run :=
  Routine.Through.act h

theorem readsOn_onNet (f : NetState S H → β × NetState S H) :
    ReadsOn (onNet f : L4Routine S H I β).run :=
  readsOn_access fun s => by
    cases s.net <;> exact le_rfl

theorem readsOn_nowNs (env : Env) : ReadsOn (nowNs env : L4Routine S H I Nat).run :=
  readsOn_access fun s => Nat.le_succ s.reads

/-- The state after one more reading. -/
def L4State.read (s : L4State S H I) : L4State S H I := { s with reads := s.reads + 1 }

theorem readsOn_await {call : L2Call I} {k : L2Answer I call → L4Routine S H I β}
    (hk : ∀ a, ReadsOn (k a).run) : ReadsOn (await call >>= k).run := hk

theorem readsOn_sendFrames (iface : I) (frames : List Bytes) :
    ReadsOn (sendFrames iface frames : L4Routine S H I Unit).run := by
  induction frames with
  | nil => trivial
  | cons frame frames ih =>
    apply readsOn_await
    intro sent
    split
    · trivial
    · exact ih

theorem readsOn_flushTx (iface : I) : ReadsOn (flushTx iface : L4Routine S H I Bool).run :=
  (readsOn_onNet _).bind fun frames => (readsOn_sendFrames iface frames).bind fun _ => trivial

theorem readsOn_receiveFrames (iface : I) (n : Nat) (receivedAny : Bool) :
    ReadsOn (receiveFrames iface n receivedAny : L4Routine S H I Bool).run := by
  induction n generalizing receivedAny with
  | zero => trivial
  | succ n ih =>
    apply readsOn_await
    rintro ⟨buffer, received⟩
    cases received with
    | ok received =>
      dsimp only
      split
      · exact (readsOn_onNet _).bind fun _ => ih true
      · trivial
    | error e => cases e <;> trivial

theorem readsOn_look (check : Check S H I γ β) (c : γ) : ReadsOn (look check c) :=
  Routine.Through.act fun s => by
    cases s.net <;> exact le_rfl

section Stack

variable [Smoltcp S H] (env : Env) (iface : I)

theorem readsOn_pollStack : ReadsOn (pollStack env : L4Routine S H I Unit).run :=
  (readsOn_nowNs env).bind fun _ => readsOn_access fun s => by
    cases s.net <;> exact le_rfl

theorem readsOn_pump : ReadsOn (pump env iface : L4Routine S H I Bool).run := by
  refine (readsOn_pollStack env).bind fun _ => (readsOn_flushTx iface).bind fun sentAny =>
    (readsOn_receiveFrames iface _ _).bind fun receivedAny => ?_
  split
  · exact (readsOn_pollStack env).bind fun _ => (readsOn_flushTx iface).bind fun _ => trivial
  · trivial

theorem readsOn_parkOnLink (deadline start : Nat) :
    ReadsOn (parkOnLink env iface deadline start : L4Routine S H I Unit).run := by
  refine (readsOn_nowNs env).bind fun now => (readsOn_onNet _).bind fun due => ?_
  dsimp only
  split
  · apply readsOn_await
    intro waited
    split <;> trivial
  · trivial

variable (deadline start : Nat) (check : Check S H I γ β)
  (reply : (call : L2Call I) → L4State S H I × χ → L2Answer I call × (L4State S H I × χ))

/-- The wait of an operation. Its surroundings are the stack, the environment, and what the check
keeps. -/
def waiting : Waiting ((L4State S H I × χ) × γ) (Except Stop β) Stop where
  look p :=
    let r := (look check p.2).exec reply p.1
    (r.1.1, r.2, r.1.2)
  read p := (env.clock p.1.1.reads, (p.1.1.read, p.1.2), p.2)
  pump p :=
    let r := (pump env iface).run.exec reply p.1
    (r.1, r.2, p.2)
  park p :=
    let r := (parkOnLink env iface deadline start).run.exec reply p.1
    (r.1, r.2, p.2)

section

variable (p : (L4State S H I × χ) × γ)

theorem exec_nowNs (w : L4State S H I × χ) : (nowNs env : L4Routine S H I Nat).run.exec reply w =
    (.ok (env.clock w.1.reads), (w.1.read, w.2)) := rfl

theorem waiting_look : (waiting env iface deadline start check reply).look p =
    (((look check p.2).exec reply p.1).1.1, ((look check p.2).exec reply p.1).2,
      ((look check p.2).exec reply p.1).1.2) := rfl

theorem waiting_read : (waiting env iface deadline start check reply).read p =
    (env.clock p.1.1.reads, (p.1.1.read, p.1.2), p.2) := rfl

theorem waiting_pump : (waiting env iface deadline start check reply).pump p =
    (((pump env iface).run.exec reply p.1).1, ((pump env iface).run.exec reply p.1).2, p.2) := rfl

theorem waiting_park : (waiting env iface deadline start check reply).park p =
    (((parkOnLink env iface deadline start).run.exec reply p.1).1,
      ((parkOnLink env iface deadline start).run.exec reply p.1).2, p.2) := rfl

end

/-- What the operation is told. -/
def ended : Waiting.Ended (Except Stop β) Stop → Except Stop β
  | .result r => r
  | .failed e => .error e
  | .timedOut => .error (.error .timedOut)

section Simulation

variable {env iface deadline start check reply} {e : Waiting.Ended (Except Stop β) Stop}
  {readings rs : List ℕ} {p p' : (L4State S H I × χ) × γ}

theorem exec_giveUp
    (h : (waiting env iface deadline start check reply).giveUp readings p = .ended e rs p') :
    (giveUp env iface check p.2).exec reply p.1 = ((ended e, p'.2), p'.1) := by
  rw [giveUp, Routine.exec_bind]
  unfold Waiting.giveUp at h
  dsimp only [waiting] at h
  cases hpump : ((pump env iface).run.exec reply p.1).1 with
  | error failure =>
    rw [hpump] at h
    cases h
    rfl
  | ok moved =>
    rw [hpump] at h
    dsimp only at h ⊢
    rw [Routine.exec_bind]
    unfold Waiting.looking at h
    dsimp only at h
    generalize (look check p.2).exec reply ((pump env iface).run.exec reply p.1).2 = looked at h ⊢
    obtain ⟨⟨found, c⟩, w⟩ := looked
    cases found <;>
    · cases h
      rfl

theorem exec_waitRounds {fuel : ℕ} {r : Waiting.Round ((L4State S H I × χ) × γ)}
    (h : (waiting env iface deadline start check reply).rounds deadline FROZEN_CLOCK_ROUNDS start
      fuel r = some (e, rs, p')) :
    (waitRounds env iface deadline start check fuel r.lastNow r.frozen r.state.2).exec reply
      r.state.1 = ((ended e, p'.2), p'.1) := by
  induction fuel generalizing r with
  | zero => cases h
  | succ fuel ih =>
    rw [waitRounds, Routine.exec_bind]
    rw [Waiting.rounds] at h
    have hlook := waiting_look env iface deadline start check reply r.state
    generalize (look check r.state.2).exec reply r.state.1 = looked at hlook ⊢
    obtain ⟨⟨found, c⟩, w⟩ := looked
    cases found with
    | some found =>
      rw [Waiting.round_of_found hlook] at h
      cases h
      rfl
    | none =>
      dsimp only
      rw [Waiting.round_of_none hlook, waiting_read] at h
      rw [Routine.exec_bind, exec_nowNs]
      dsimp only at h ⊢
      generalize env.clock w.1.reads = now at h ⊢
      generalize (w.1.read, w.2) = w₁ at h ⊢
      by_cases hclosed : deadline ≤ now - start ∨
        FROZEN_CLOCK_ROUNDS ≤ (if now = r.lastNow then r.frozen + 1 else 0)
      · rw [if_pos hclosed] at h ⊢
        cases hgiveUp : (waiting env iface deadline start check reply).giveUp
            (now :: r.readings) (w₁, c) with
        | again r' => exact absurd hgiveUp Waiting.giveUp_ne_again
        | ended e' readings' p'' =>
          rw [hgiveUp] at h
          cases h
          exact exec_giveUp hgiveUp
      · rw [if_neg hclosed] at h ⊢
        rw [Routine.exec_bind]
        rw [Waiting.pumping] at h
        have hpump : (waiting env iface deadline start check reply).pump
            (r.after now (w₁, c)).state = _ :=
          waiting_pump env iface deadline start check reply (w₁, c)
        generalize (pump env iface).run.exec reply w₁ = pumped at hpump ⊢
        obtain ⟨moved, w₂⟩ := pumped
        rw [hpump] at h
        cases moved with
        | error failure =>
          cases h
          rfl
        | ok moved =>
          cases moved with
          | true => exact ih h
          | false =>
            dsimp only at h ⊢
            rw [Waiting.looking] at h
            rw [Routine.exec_bind]
            have hlook₂ := waiting_look env iface deadline start check reply (w₂, c)
            generalize (look check c).exec reply w₂ = looked at hlook₂ ⊢
            obtain ⟨⟨found, c₂⟩, w₃⟩ := looked
            rw [hlook₂] at h
            cases found with
            | some found =>
              cases h
              rfl
            | none =>
              dsimp only at h ⊢
              rw [Waiting.parking] at h
              rw [Routine.exec_bind]
              have hpark := waiting_park env iface deadline start check reply (w₃, c₂)
              generalize (parkOnLink env iface deadline start).run.exec reply w₃ = parked
                at hpark ⊢
              obtain ⟨waited, w₄⟩ := parked
              rw [hpark] at h
              cases waited with
              | error failure =>
                cases h
                rfl
              | ok => exact ih h

end Simulation

theorem ReadsOn.exec {t : Part S H I β} (h : ReadsOn t)
    (hreply : ∀ call w, w.1.reads ≤ (reply call w).2.1.reads) (w : L4State S H I × χ) :
    w.1.reads ≤ (t.exec reply w).2.1.reads :=
  Routine.Through.exec h (fun _ => le_rfl) (fun _ _ _ => le_trans) hreply w

variable {env iface deadline start check reply}

theorem waiting_steady (hclock : Monotone env.clock)
    (hreply : ∀ call w, w.1.reads ≤ (reply call w).2.1.reads) :
    (waiting env iface deadline start check reply).Steady fun p => env.clock p.1.1.reads where
  read_eq _ := rfl
  look_le p := hclock ((readsOn_look check p.2).exec reply hreply p.1)
  read_le p := hclock (Nat.le_succ p.1.1.reads)
  pump_le p := hclock ((readsOn_pump env iface).exec reply hreply p.1)
  park_le p := hclock ((readsOn_parkOnLink env iface deadline start).exec reply hreply p.1)

theorem waitRounds_bound (rounds fuel lastNow frozen : ℕ) (c : γ) :
    waitRounds { env with rounds := rounds } iface deadline start check fuel lastNow frozen c =
      waitRounds env iface deadline start check fuel lastNow frozen c := by
  induction fuel generalizing lastNow frozen c with
  | zero => rfl
  | succ fuel ih =>
    rw [waitRounds, waitRounds]
    simp only [ih]
    rfl

end Stack

/-- An engine that does nothing. -/
structure Idle where

instance : Smoltcp Idle Unit where
  new _ _ _ := ⟨⟩
  poll _ dev s := (dev, s)
  passes _ _ _ _ := []
  pollDelay _ _ := none
  setAddress _ s := s
  setRoute _ s := s
  addDhcp s := ((), s)
  pollDhcp _ s := (none, s)
  connect _ _ s := .ok ((), s)
  listen _ s := .ok ((), s)
  contains _ _ := true
  state _ _ := .closed
  remoteEndpoint _ _ := none
  maySend _ _ := false
  mayRecv _ _ := false
  canRecv _ _ := false
  sendSlice _ _ s := (.ok 0, s)
  recvSlice _ _ s := (.ok [], s)
  close _ s := s
  abort _ s := s
  remove _ s := s
  bindUdp _ s := .ok ((), s)
  udpPorts _ := []
  udpCanRecv _ _ := false
  udpSend _ _ _ s := (.ok (), s)
  udpQueued _ _ := 0
  udpRecv _ s := (.error .exhausted, s)
  udpClose _ s := s

/-- A stack that is up, at a reading of the clock. -/
def idle (reads : ℕ) (history : History Unit) : L4State Idle Unit Unit :=
  { (L4State.new : L4State Idle Unit Unit) with
    net := some ⟨⟨⟩, ⟨[], [], 1500⟩, 49152, [], 0, [], none, some ((10, 0, 2, 15), 24), []⟩
    reads := reads
    history := history }

/-- A link on which nothing moves. -/
def silent : (call : L2Call Unit) → L4State Idle Unit Unit × Unit →
    L2Answer Unit call × (L4State Idle Unit Unit × Unit)
  | .listInterfaces, w => (.ok [], w)
  | .openInterface _, w => (.ok (), w)
  | .sendFrame _ _, w => (.ok 0, w)
  | .recvFrame _ capacity, w => ((⟨List.replicate capacity 0, List.length_replicate⟩, .ok 0), w)
  | .waitRecv _ _, w => (.ok (), w)

/-- Nothing is ever decided. -/
def undecided : Check Idle Unit Unit Unit Unit := fun _ c n => (none, c, n)

section

variable {env : Env} {deadline reads frozen : ℕ} (history : History Unit) (readings : List ℕ)

abbrev idleWait (env : Env) (deadline : ℕ) :
    Waiting ((L4State Idle Unit Unit × Unit) × Unit) (Except Stop Unit) Stop :=
  waiting env () deadline 0 undecided silent

theorem idleWait_look : (idleWait env deadline).look ((idle reads history, ()), ()) =
    (none, (idle reads history, ()), ()) := rfl

theorem idleWait_read (h : env.clock reads = 0) :
    (idleWait env deadline).read ((idle reads history, ()), ()) =
      (0, (idle (reads + 1) history, ()), ()) := by
  rw [waiting_read]
  exact Prod.ext h rfl

theorem idleWait_pump : ∃ history', (idleWait env deadline).pump ((idle reads history, ()), ()) =
    (.ok false, (idle (reads + 1) history', ()), ()) :=
  ⟨_, rfl⟩

theorem idleWait_park : (idleWait env deadline).park ((idle reads history, ()), ()) =
    (.ok (), (idle (reads + 1) history, ()), ()) := by
  have hpark : (parkOnLink env () deadline 0).run.exec silent (idle reads history, ()) =
      (.ok (), idle (reads + 1) history, ()) := by
    change Routine.exec silent (if 0 < deadline - (env.clock reads - 0) then _ else _)
      (idle (reads + 1) history, ()) = _
    split <;> rfl
  rw [waiting_park, hpark]

/-- A round in which the clock stands still and nothing moves. -/
theorem round_idle (hclock : env.clock reads = 0) (hdeadline : 0 < deadline)
    (hfrozen : frozen + 1 < FROZEN_CLOCK_ROUNDS) :
    ∃ history', (idleWait env deadline).round deadline FROZEN_CLOCK_ROUNDS 0
      ⟨0, frozen, readings, (idle reads history, ()), ()⟩ =
      .again ⟨0, frozen + 1, 0 :: readings, (idle (reads + 3) history', ()), ()⟩ := by
  obtain ⟨history', hpump⟩ : ∃ history', (idleWait env deadline).pump
      ((idle (reads + 1) history, ()), ()) = (.ok false, (idle (reads + 2) history', ()), ()) :=
    idleWait_pump history
  refine ⟨history', ?_⟩
  have hopen : ¬ (deadline ≤ 0 - 0 ∨
      FROZEN_CLOCK_ROUNDS ≤ (if 0 = 0 then frozen + 1 else 0)) := by
    rw [if_pos rfl, not_or]
    exact ⟨Nat.not_le.mpr hdeadline, Nat.not_le.mpr hfrozen⟩
  rw [Waiting.round_of_none (idleWait_look history), idleWait_read history hclock, if_neg hopen]
  simp only [Waiting.Round.after, Waiting.pumping, hpump, Waiting.looking, idleWait_look,
    Waiting.parking, idleWait_park, if_pos]

/-- The last round: the clock has stood still for too long. -/
theorem round_idle_last (hclock : env.clock reads = 0) :
    ∃ history', (idleWait env deadline).round deadline FROZEN_CLOCK_ROUNDS 0
      ⟨0, FROZEN_CLOCK_ROUNDS - 1, readings, (idle reads history, ()), ()⟩ =
      .ended .timedOut (0 :: readings) ((idle (reads + 2) history', ()), ()) := by
  obtain ⟨history', hpump⟩ : ∃ history', (idleWait env deadline).pump
      ((idle (reads + 1) history, ()), ()) = (.ok false, (idle (reads + 2) history', ()), ()) :=
    idleWait_pump history
  refine ⟨history', ?_⟩
  have hclosed : deadline ≤ 0 - 0 ∨
      FROZEN_CLOCK_ROUNDS ≤ (if 0 = 0 then FROZEN_CLOCK_ROUNDS - 1 + 1 else 0) := by
    rw [if_pos rfl]
    exact .inr (by decide)
  rw [Waiting.round_of_none (idleWait_look history), idleWait_read history hclock,
    if_pos hclosed, Waiting.giveUp, hpump]
  rfl

/-- Rounds in which the clock stands still lead to a timeout. -/
theorem rounds_idle {m fuel : ℕ} (hdeadline : 0 < deadline)
    (hclock : ∀ i ≤ m, env.clock (reads + 3 * i) = 0)
    (hfrozen : frozen + m + 1 = FROZEN_CLOCK_ROUNDS) : ∃ history' readings',
    (idleWait env deadline).rounds deadline FROZEN_CLOCK_ROUNDS 0 (fuel + m + 1)
      ⟨0, frozen, readings, (idle reads history, ()), ()⟩ =
      some (.timedOut, readings', (idle (reads + 3 * m + 2) history', ()), ()) := by
  induction m generalizing frozen reads history readings with
  | zero =>
    have hfirst : env.clock reads = 0 := hclock 0 (Nat.le_refl 0)
    obtain ⟨history', hround⟩ : ∃ history', (idleWait env deadline).round deadline _ 0 _ = _ :=
      round_idle_last history readings hfirst
    obtain rfl : frozen = FROZEN_CLOCK_ROUNDS - 1 := by omega
    refine ⟨history', 0 :: readings, ?_⟩
    rw [Waiting.rounds, hround]
  | succ m ih =>
    have hfirst : env.clock reads = 0 := hclock 0 (Nat.zero_le _)
    obtain ⟨history₁, hround⟩ := round_idle history readings hfirst hdeadline
      (by omega : frozen + 1 < FROZEN_CLOCK_ROUNDS)
    have hnext : ∀ i ≤ m, env.clock (reads + 3 + 3 * i) = 0 := fun i hi => by
      have hshift : reads + 3 + 3 * i = reads + 3 * (i + 1) := by omega
      rw [hshift]
      exact hclock (i + 1) (by omega)
    obtain ⟨history', readings', hrounds⟩ := ih history₁ (0 :: readings) hnext
      (by omega : frozen + 1 + m + 1 = FROZEN_CLOCK_ROUNDS)
    refine ⟨history', readings', ?_⟩
    have hcount : reads + 3 + 3 * m + 2 = reads + 3 * (m + 1) + 2 := by omega
    rw [← Nat.add_assoc, Waiting.rounds, hround, ← hcount]
    exact hrounds

end

/-- A clock that moves on by a millisecond every 20000 readings. -/
def coarse : Env := ⟨none, fun k => k / 20000 * 1000000, 0, 0⟩

theorem coarse_clock (k : ℕ) : coarse.clock k = k / 20000 * 1000000 := rfl

theorem monotone_coarse : Monotone coarse.clock := fun _ _ h =>
  Nat.mul_le_mul_right _ (Nat.div_le_div_right h)

theorem coarse_clock_zero {k : ℕ} (h : k < 20000) : coarse.clock k = 0 := by
  rw [coarse_clock, Nat.div_eq_of_lt h, Nat.zero_mul]

end Eo9.Net.L4
