import Mathlib.Tactic.Common
import Mathlib.Algebra.Order.Group.Nat
import Mathlib.Data.List.Basic

/-!
# Waiting with a deadline

A wait looks for a result, reads a clock, moves things on and parks, round by round, until it
finds a result or its deadline passes. A clock that stands still for some rounds ends it too. The
surroundings are arbitrary, but for a clock that does not run backwards.
-/

namespace Eo9.Library

/-- What a wait does with its surroundings. Every act gives its result and the state behind it. -/
structure Waiting (σ ρ ε : Type*) where
  look : σ → Option ρ × σ
  read : σ → ℕ × σ
  /-- Move things on, and tell whether anything moved. -/
  pump : σ → Except ε Bool × σ
  park : σ → Except ε Unit × σ

namespace Waiting

variable {σ ρ ε : Type*}

inductive Ended (ρ ε : Type*) where
  | result (r : ρ)
  | failed (e : ε)
  | timedOut

/-- Where a wait is between two rounds: the last reading, for how many rounds it has been the same,
and all readings, the last one first. -/
structure Round (σ : Type*) where
  lastNow : ℕ
  frozen : ℕ
  readings : List ℕ
  state : σ

/-- What a round comes to. -/
inductive Next (σ ρ ε : Type*) where
  | again (r : Round σ)
  | ended (e : Ended ρ ε) (readings : List ℕ) (s : σ)

variable (w : Waiting σ ρ ε) (deadline limit start : ℕ)

/-- Look, and go on if there is nothing. -/
def looking (s : σ) (readings : List ℕ) (go : σ → Next σ ρ ε) : Next σ ρ ε :=
  match (w.look s).1 with
  | some r => .ended (.result r) readings (w.look s).2
  | none => go (w.look s).2

/-- Move things on and look for the last time. -/
def giveUp (readings : List ℕ) (s : σ) : Next σ ρ ε :=
  match (w.pump s).1 with
  | .error e => .ended (.failed e) readings (w.pump s).2
  | .ok _ => w.looking (w.pump s).2 readings fun s => .ended .timedOut readings s

def parking (r : Round σ) : Next σ ρ ε :=
  match (w.park r.state).1 with
  | .error e => .ended (.failed e) r.readings (w.park r.state).2
  | .ok _ => .again { r with state := (w.park r.state).2 }

/-- Move things on, and park if nothing moved and there is no result. -/
def pumping (r : Round σ) : Next σ ρ ε :=
  match (w.pump r.state).1 with
  | .error e => .ended (.failed e) r.readings (w.pump r.state).2
  | .ok true => .again { r with state := (w.pump r.state).2 }
  | .ok false => w.looking (w.pump r.state).2 r.readings fun s => w.parking { r with state := s }

/-- The round behind a reading of the clock. -/
def Round.after (r : Round σ) (now : ℕ) (s : σ) : Round σ where
  lastNow := now
  frozen := if now = r.lastNow then r.frozen + 1 else 0
  readings := now :: r.readings
  state := s

def round (r : Round σ) : Next σ ρ ε :=
  w.looking r.state r.readings fun s =>
    let r := r.after (w.read s).1 (w.read s).2
    if deadline ≤ r.lastNow - start ∨ limit ≤ r.frozen then w.giveUp r.readings r.state
    else w.pumping r

/-- The rounds of a wait, if they come to an end. -/
def rounds : ℕ → Round σ → Option (Ended ρ ε × List ℕ × σ)
  | 0, _ => none
  | fuel + 1, r =>
    match w.round deadline limit start r with
    | .again r => rounds fuel r
    | .ended e readings s => some (e, readings, s)

/-- A clock of the surroundings: it is what is read, and does not run backwards. -/
structure Steady (clock : σ → ℕ) : Prop where
  read_eq : ∀ s, (w.read s).1 = clock s
  look_le : ∀ s, clock s ≤ clock (w.look s).2
  read_le : ∀ s, clock s ≤ clock (w.read s).2
  pump_le : ∀ s, clock s ≤ clock (w.pump s).2
  park_le : ∀ s, clock s ≤ clock (w.park s).2

section Round

variable {w deadline limit start} {clock : σ → ℕ} {r r' : Round σ} {e : Ended ρ ε}
  {readings : List ℕ} {s : σ}

theorem round_of_found {found : ρ} (h : w.look r.state = (some found, s)) :
    w.round deadline limit start r = .ended (.result found) r.readings s := by
  rw [round, looking, h]

theorem round_of_none (h : w.look r.state = (none, s)) :
    w.round deadline limit start r =
      if deadline ≤ (w.read s).1 - start ∨
        limit ≤ (if (w.read s).1 = r.lastNow then r.frozen + 1 else 0) then
        w.giveUp ((w.read s).1 :: r.readings) (w.read s).2
      else w.pumping (r.after (w.read s).1 (w.read s).2) := by
  rw [round, looking, h]
  rfl

theorem looking_again {go : σ → Next σ ρ ε} (h : w.looking s readings go = .again r') :
    go (w.look s).2 = .again r' := by
  unfold looking at h
  cases hlook : (w.look s).1 with
  | some found =>
    rw [hlook] at h
    cases h
  | none =>
    rw [hlook] at h
    exact h

theorem giveUp_ne_again : w.giveUp readings s ≠ .again r' := by
  unfold giveUp
  cases (w.pump s).1 with
  | error e => exact nofun
  | ok moved =>
    intro h
    cases looking_again h

theorem pumping_again (hsteady : w.Steady clock) (h : w.pumping r = .again r') :
    ∃ s, r' = { r with state := s } ∧ clock r.state ≤ clock s := by
  have hpump := hsteady.pump_le r.state
  unfold pumping at h
  cases hmoved : (w.pump r.state).1 with
  | error e =>
    rw [hmoved] at h
    cases h
  | ok moved =>
    rw [hmoved] at h
    cases moved with
    | true =>
      cases h
      exact ⟨_, rfl, hpump⟩
    | false =>
      have hgo := looking_again h
      unfold parking at hgo
      have hlook := hsteady.look_le (w.pump r.state).2
      have hpark := hsteady.park_le (w.look (w.pump r.state).2).2
      dsimp only at hgo
      cases hparked : (w.park (w.look (w.pump r.state).2).2).1 with
      | error e =>
        rw [hparked] at hgo
        cases hgo
      | ok parked =>
        rw [hparked] at hgo
        cases hgo
        exact ⟨_, rfl, hpump.trans (hlook.trans hpark)⟩

/-- A round that does not end the wait has read the clock, which has moved, or stands still for
less than the limit, within the deadline. -/
theorem round_again (hsteady : w.Steady clock) (h : w.round deadline limit start r = .again r') :
    ∃ now s, r' = r.after now s ∧ clock r.state ≤ now ∧ now ≤ clock s ∧
      now - start < deadline ∧ r'.frozen < limit := by
  have hgo := looking_again h
  dsimp only at hgo
  split at hgo
  · exact absurd hgo giveUp_ne_again
  next hopen =>
  obtain ⟨hnow, hfrozen⟩ := not_or.mp hopen
  obtain ⟨s, rfl, hle⟩ := pumping_again hsteady hgo
  have hread := hsteady.read_eq (w.look r.state).2
  have hlook := hsteady.look_le r.state
  have hreadle := hsteady.read_le (w.look r.state).2
  refine ⟨(w.read (w.look r.state).2).1, s, rfl, ?_, ?_, Nat.lt_of_not_le hnow,
    Nat.lt_of_not_le hfrozen⟩
  · rw [hread]
    exact hlook
  · rw [hread]
    exact hreadle.trans hle

end Round

section Run

variable {w deadline limit start} {clock : σ → ℕ} {r r' : Round σ} {e : Ended ρ ε}
  {readings : List ℕ} {s : σ} {fuel : ℕ}

/-- The last reading has come exactly as often as is counted. -/
def Round.Counted (r : Round σ) : Prop :=
  ∃ rest, r.readings = List.replicate (r.frozen + 1) r.lastNow ++ rest ∧
    rest.head? ≠ some r.lastNow

theorem Round.Counted.after (h : r.Counted) (now : ℕ) (s : σ) : (r.after now s).Counted := by
  obtain ⟨rest, hrest, hhead⟩ := h
  unfold Round.Counted Round.after
  dsimp only
  by_cases hsame : now = r.lastNow
  · rw [if_pos hsame, hrest, hsame]
    exact ⟨rest, rfl, hhead⟩
  · rw [if_neg hsame]
    refine ⟨r.readings, rfl, ?_⟩
    rw [hrest, List.replicate_succ, List.cons_append, List.head?_cons]
    exact fun h => hsame (Option.some.inj h).symm

/-- The last readings are the same for as long as is counted, and no longer. -/
theorem Round.Counted.prefix_iff (h : r.Counted) {now k : ℕ} :
    List.replicate (k + 1) now <+: r.readings ↔ now = r.lastNow ∧ k ≤ r.frozen := by
  obtain ⟨rest, hrest, hhead⟩ := h
  rw [hrest]
  constructor
  · intro hpre
    have hcons := hpre
    rw [List.replicate_succ, List.replicate_succ, List.cons_append, List.cons_prefix_cons] at hcons
    obtain rfl := hcons.1
    refine ⟨rfl, Nat.le_of_not_lt fun hlt => ?_⟩
    obtain ⟨d, rfl⟩ := Nat.exists_eq_add_of_lt hlt
    have hsplit : r.frozen + d + 1 + 1 = r.frozen + 1 + (d + 1) := by omega
    rw [hsplit, List.replicate_add, List.prefix_append_right_inj] at hpre
    obtain ⟨after, rfl⟩ := hpre
    exact hhead rfl
  · rintro ⟨rfl, hle⟩
    obtain ⟨d, hd⟩ := Nat.exists_eq_add_of_le hle
    have hsplit : r.frozen + 1 = k + 1 + d := by omega
    refine ⟨List.replicate d r.lastNow ++ rest, ?_⟩
    rw [hsplit, ← List.append_assoc, ← List.replicate_add]

/-- What is known between two rounds. -/
structure Round.Ok (limit start : ℕ) (clock : σ → ℕ) (r : Round σ) : Prop where
  start_le : start ≤ r.lastNow
  le_clock : r.lastNow ≤ clock r.state
  counted : r.Counted
  /-- The clock has not stood still for as long as the limit. -/
  moving : ∀ now, ¬ List.replicate (limit + 1) now <:+: r.readings

theorem Round.Ok.first {s : σ} (hclock : start ≤ clock s) (hlimit : 0 < limit) :
    Round.Ok limit start clock ⟨start, 0, [start], s⟩ where
  start_le := le_rfl
  le_clock := hclock
  counted := ⟨[], rfl, nofun⟩
  moving now h := by
    have hlength := h.length_le
    rw [List.length_replicate, List.length_singleton] at hlength
    omega

/-- A window of equal readings behind one more reading is over the last readings. -/
theorem Round.Ok.window (hok : r.Ok limit start clock) {now t : ℕ} (s : σ)
    (h : List.replicate (limit + 1) t <:+: now :: r.readings) :
    t = now ∧ limit ≤ (r.after now s).frozen :=
  (List.infix_cons_iff.mp h).elim (hok.counted.after now s).prefix_iff.mp
    fun hold => absurd hold (hok.moving t)

theorem Round.Ok.again (hsteady : w.Steady clock) (hok : r.Ok limit start clock)
    (h : w.round deadline limit start r = .again r') : r'.Ok limit start clock := by
  obtain ⟨now, s, rfl, hnow, hclock, -, hfrozen⟩ := round_again hsteady h
  exact ⟨hok.start_le.trans (hok.le_clock.trans hnow), hclock, hok.counted.after now s,
    fun t ht => Nat.not_lt.mpr (hok.window s ht).2 hfrozen⟩

/-- How many rounds are left at most: every one moves the clock, or stands still once more. -/
def Round.left (deadline limit start : ℕ) (r : Round σ) : ℕ :=
  (deadline - (r.lastNow - start)) * (limit + 1) + (limit - r.frozen)

theorem left_lt (hsteady : w.Steady clock) (hok : r.Ok limit start clock)
    (h : w.round deadline limit start r = .again r') :
    r'.left deadline limit start < r.left deadline limit start := by
  obtain ⟨now, s, rfl, hnow, -, hwithin, hfrozen⟩ := round_again hsteady h
  have hstart := hok.start_le
  have hle := hok.le_clock.trans hnow
  unfold Round.left
  unfold Round.after at hfrozen ⊢
  dsimp only at hfrozen ⊢
  by_cases hsame : now = r.lastNow
  · rw [if_pos hsame] at hfrozen ⊢
    rw [hsame]
    omega
  · rw [if_neg hsame]
    have hless : deadline - (now - start) + 1 ≤ deadline - (r.lastNow - start) := by omega
    have hmul := Nat.mul_le_mul_right (limit + 1) hless
    rw [Nat.add_mul, Nat.one_mul] at hmul
    omega

/-- A wait ends, whatever happens around it. -/
theorem rounds_isSome (hsteady : w.Steady clock) (hok : r.Ok limit start clock)
    (hfuel : r.left deadline limit start < fuel) :
    ∃ ended, w.rounds deadline limit start fuel r = some ended := by
  induction fuel generalizing r with
  | zero => omega
  | succ fuel ih =>
    rw [rounds]
    cases h : w.round deadline limit start r with
    | ended e readings s => exact ⟨_, rfl⟩
    | again r' =>
      have hlt := left_lt hsteady hok h
      exact ih (hok.again hsteady h) (by omega)

/-- What an end says about the wait: what was found was found by the last look, a failure is one of
the surroundings, and a timeout comes when the look behind the last pump found nothing. The deadline
has passed then, unless the clock stood still before it for as long as the limit. -/
def Justified (w : Waiting σ ρ ε) (deadline limit start : ℕ) (readings : List ℕ) (s' : σ) :
    Ended ρ ε → Prop
  | .result found => ∃ s, w.look s = (some found, s')
  | .failed e => ∃ s, w.pump s = (.error e, s') ∨ w.park s = (.error e, s')
  | .timedOut =>
    (∃ s moved, (w.pump s).1 = .ok moved ∧ w.look (w.pump s).2 = (none, s')) ∧
      ∃ now ∈ readings.head?, (deadline ≤ now - start ↔
        ∀ t, List.replicate (limit + 1) t <:+: readings → deadline ≤ t - start)

theorem looking_ended {go : σ → Next σ ρ ε} {rs : List ℕ} {s' : σ}
    (h : w.looking s readings go = .ended e rs s') :
    (∃ found, w.look s = (some found, s') ∧ e = .result found) ∨
      ((w.look s).1 = none ∧ go (w.look s).2 = .ended e rs s') := by
  unfold looking at h
  cases hlook : (w.look s).1 with
  | some found =>
    rw [hlook] at h
    cases h
    exact .inl ⟨found, Prod.ext hlook rfl, rfl⟩
  | none =>
    rw [hlook] at h
    exact .inr ⟨rfl, h⟩

theorem pumping_ended {rs : List ℕ} {s' : σ} (h : w.pumping r = .ended e rs s') :
    Justified w deadline limit start rs s' e := by
  unfold pumping at h
  cases hmoved : (w.pump r.state).1 with
  | error failure =>
    rw [hmoved] at h
    cases h
    exact ⟨_, .inl (Prod.ext hmoved rfl)⟩
  | ok moved =>
    rw [hmoved] at h
    cases moved with
    | true => cases h
    | false =>
      rcases looking_ended h with ⟨found, hfound, rfl⟩ | ⟨-, hgo⟩
      · exact ⟨_, hfound⟩
      · unfold parking at hgo
        dsimp only at hgo
        cases hparked : (w.park (w.look (w.pump r.state).2).2).1 with
        | error failure =>
          rw [hparked] at hgo
          cases hgo
          exact ⟨_, .inr (Prod.ext hparked rfl)⟩
        | ok parked =>
          rw [hparked] at hgo
          cases hgo

theorem giveUp_ended {rs : List ℕ} {s' : σ} (h : w.giveUp readings s = .ended e rs s')
    (hreadings : ∃ now ∈ readings.head?, (deadline ≤ now - start ↔
      ∀ t, List.replicate (limit + 1) t <:+: readings → deadline ≤ t - start)) :
    Justified w deadline limit start rs s' e := by
  unfold giveUp at h
  cases hmoved : (w.pump s).1 with
  | error failure =>
    rw [hmoved] at h
    cases h
    exact ⟨_, .inl (Prod.ext hmoved rfl)⟩
  | ok moved =>
    rw [hmoved] at h
    rcases looking_ended h with ⟨found, hfound, rfl⟩ | ⟨hnone, hgo⟩
    · exact ⟨_, hfound⟩
    · cases hgo
      exact ⟨⟨s, moved, hmoved, Prod.ext hnone rfl⟩, hreadings⟩

theorem round_ended (hok : r.Ok limit start clock) {rs : List ℕ} {s' : σ}
    (h : w.round deadline limit start r = .ended e rs s') :
    Justified w deadline limit start rs s' e := by
  rcases looking_ended h with ⟨found, hfound, rfl⟩ | ⟨-, hgo⟩
  · exact ⟨_, hfound⟩
  dsimp only at hgo
  split at hgo
  · next hclosed =>
    apply giveUp_ended hgo
    refine ⟨(w.read (w.look r.state).2).1, rfl, fun hpassed t ht => ?_, fun hall => ?_⟩
    · rw [(hok.window (w.read (w.look r.state).2).2 ht).1]
      exact hpassed
    · apply hclosed.elim id
      intro hfrozen
      have hcounted := hok.counted.after (w.read (w.look r.state).2).1 (w.read (w.look r.state).2).2
      exact hall _ (hcounted.prefix_iff.mpr ⟨rfl, hfrozen⟩).isInfix
  · exact pumping_ended hgo

/-- How a wait ends is justified. -/
theorem rounds_justified (hsteady : w.Steady clock) (hok : r.Ok limit start clock)
    {rs : List ℕ} {s' : σ} (h : w.rounds deadline limit start fuel r = some (e, rs, s')) :
    Justified w deadline limit start rs s' e := by
  induction fuel generalizing r with
  | zero => cases h
  | succ fuel ih =>
    rw [rounds] at h
    cases hround : w.round deadline limit start r with
    | ended e' readings s =>
      rw [hround] at h
      cases h
      exact round_ended hok hround
    | again r' =>
      rw [hround] at h
      exact ih (hok.again hsteady hround) h

/-- A wait that has ended ends the same way with more rounds. -/
theorem rounds_mono {more : ℕ} {ended : Ended ρ ε × List ℕ × σ} (hle : fuel ≤ more)
    (h : w.rounds deadline limit start fuel r = some ended) :
    w.rounds deadline limit start more r = some ended := by
  induction fuel generalizing r more with
  | zero => cases h
  | succ fuel ih =>
    cases more with
    | zero => omega
    | succ more =>
      rw [rounds] at h ⊢
      cases hround : w.round deadline limit start r with
      | ended e' readings s =>
        rw [hround] at h
        exact h
      | again r' =>
        rw [hround] at h
        exact ih (by omega) h

end Run

end Waiting

end Eo9.Library
