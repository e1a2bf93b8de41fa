import Eo9.Net.Traffic

/-!
# The accounts of the switch's ports

Over every run of the switch: which frames came in for a port, what became of each, and
what the operations sent.
-/

namespace Eo9.Net.Switch

open Eo9.Library

variable {I : Type} {base : MacBase}

/-- A step of the switch, seen from outside. -/
abbrev PortLabel (I : Type) := Label (L2Answer I) PortOp PortResult

abbrev SwitchWorld (I : Type) := World (SwitchState I) (L2Answer I) PortOp PortResult

def SwitchWorld.new : SwitchWorld I := ⟨.new, []⟩

/-- The frame that a step brings in. -/
def frameIn : PortLabel I → Option Bytes
  | .ran _ cause _ => receivedFrame cause
  | .dropped _ _ => none

/-- The frames that the uplink supplied, in order. -/
def uplinkFrames (trace : List (PortLabel I)) : List Bytes := trace.filterMap frameIn

/-- Those of them that are for a port. -/
def arrivals (base : MacBase) (slot : Slot) (trace : List (PortLabel I)) : List Bytes :=
  (uplinkFrames trace).filter (addressed base slot)

def handedUpIn (slot : Slot) : PortLabel I → Option Bytes
  | .ran (.recvFrame slot' _) _ (.returned (.received (.ok bytes))) =>
    if slot' = slot ∧ bytes ≠ [] then some bytes else none
  | _ => none

/-- What a port was handed up, in order. -/
def handedUp (slot : Slot) (trace : List (PortLabel I)) : List Bytes :=
  trace.filterMap (handedUpIn slot)

/-- The bytes that a port saw of a frame that went into a buffer of some capacity. -/
def seenOf : Bytes × Mailbox.Fate Nat → Option Bytes
  | (frame, .taken capacity) =>
    if frame.take capacity = [] then none else some (frame.take capacity)
  | (_, .evicted _) => none

/-- Every frame for a port was handed up on it, pushed out of its full queue by newer
ones, or is in the queue. -/
def Accounted (base : MacBase) (slot : Slot) (trace : List (PortLabel I)) (queue : List Bytes) :
    Prop :=
  ∃ removed : List (Bytes × Mailbox.Fate Nat),
    Mailbox.Accounts RX_QUEUE_CAP (arrivals base slot trace) queue removed ∧
      handedUp slot trace = removed.filterMap seenOf

section Accounts

variable {slot : Slot} {trace : List (PortLabel I)} {l : PortLabel I} {w w' : SwitchWorld I}

theorem arrivals_snoc : arrivals base slot (trace ++ [l]) =
    arrivals base slot trace ++ (frameIn l).toList.filter (addressed base slot) := by
  simp only [arrivals, uplinkFrames, List.filterMap_append, List.filter_append]
  cases h : frameIn l <;> simp [h]

theorem handedUp_snoc : handedUp slot (trace ++ [l]) =
    handedUp slot trace ++ (handedUpIn slot l).toList := by
  simp only [handedUp, List.filterMap_append]
  cases h : handedUpIn slot l <;> simp [h]

theorem handedUpIn_called {op : PortOp} {cause : Routine.Cause (L2Answer I)} {call : L2Call I} :
    handedUpIn slot (.ran op cause (.called call) : PortLabel I) = none := by
  cases op <;> rfl

theorem filterMap_evicted {lost : List (Bytes × Mailbox.Fate Nat)}
    (h : ∀ p ∈ lost, ∃ n, p.2 = .evicted n) : lost.filterMap seenOf = [] := by
  refine List.filterMap_eq_nil_iff.mpr fun p hp => ?_
  obtain ⟨frame, fate⟩ := p
  obtain ⟨n, rfl⟩ := h _ hp
  rfl

/-- What a step brings in, on the way to what it hands up. -/
theorem Accounted.arrive {m : Routine.Moment (SwitchState I) (L2Answer I)}
    (op : PortOp) (seen : Seen (L2Call I) PortResult)
    (h : Accounted base slot trace (rxOf m.before slot)) :
    ∃ removed : List (Bytes × Mailbox.Fate Nat),
      Mailbox.Accounts RX_QUEUE_CAP (arrivals base slot (trace ++ [.ran op m.cause seen]))
        (afterArrival base m slot) removed ∧
      handedUp slot trace = removed.filterMap seenOf := by
  obtain ⟨removed, haccounts, hhanded⟩ := h
  rw [arrivals_snoc, afterArrival]
  change ∃ removed, Mailbox.Accounts _ (_ ++ (receivedFrame m.cause).toList.filter _) _ _ ∧ _
  cases receivedFrame m.cause with
  | none => exact ⟨removed, by simpa using haccounts, hhanded⟩
  | some frame =>
    by_cases haddressed : addressed base slot frame = true
    · obtain ⟨lost, hlost, haccounts'⟩ := haccounts.arrive (by decide) frame
      refine ⟨removed ++ lost, by simpa [haddressed] using haccounts', ?_⟩
      rw [List.filterMap_append, filterMap_evicted hlost, List.append_nil, hhanded]
    · exact ⟨removed, by simpa [haddressed] using haccounts, hhanded⟩

/-- The end of an operation keeps the accounts. -/
theorem Accounted.hand {m : Routine.Moment (SwitchState I) (L2Answer I)} {op : PortOp}
    {result : PortResult} {queues : Slot → List Bytes}
    (h : Accounted base slot trace (rxOf m.before slot))
    (hhanded : Handed op result (afterArrival base m) queues) :
    Accounted base slot (trace ++ [.ran op m.cause (.returned result)]) (queues slot) := by
  obtain ⟨removed, haccounts, hseen⟩ := h.arrive op (.returned result)
  cases hhanded with
  | nothing hresult hqueues =>
    subst hqueues
    refine ⟨removed, haccounts, ?_⟩
    have hnone : handedUpIn slot (.ran op m.cause (.returned result) : PortLabel I) = none := by
      unfold handedUpIn
      split
      · rename_i slot' capacity _ bytes heq
        cases heq
        rw [if_neg fun hne => hne.2 (hresult slot' capacity bytes rfl rfl)]
      · rfl
    rw [handedUp_snoc, hnone, hseen, Option.toList_none, List.append_nil]
  | @frame slot' capacity frame rest hop hresult hqueue hqueues =>
    subst hop hresult hqueues
    by_cases hslot : slot' = slot
    · subst hslot
      rw [hqueue] at haccounts
      refine ⟨removed ++ [(frame, .taken capacity)], ?_, ?_⟩
      · rw [Function.update_self]
        exact haccounts.take capacity
      · rw [handedUp_snoc, hseen, List.filterMap_append]
        by_cases hempty : frame.take capacity = []
        · simp [handedUpIn, seenOf, hempty]
        · simp [handedUpIn, seenOf, hempty]
    · refine ⟨removed, ?_, ?_⟩
      · rw [Function.update_of_ne (Ne.symm hslot)]
        exact haccounts
      · rw [handedUp_snoc, hseen]
        simp [handedUpIn, hslot]

variable (base) in
/-- What is known of the parked operations. -/
def TrafficKnown (w : SwitchWorld I) : Prop :=
  ∀ q ∈ w.parked, Routine.Awaits TrafficDrops (TrafficCalls base q.1) (fun _ _ => True)
    (TrafficPost base q.1) q.2 w.shared

/-- A step keeps the accounts of every port, and sends what its operation may. -/
theorem accounted_step (hknown : TrafficKnown base w) (hstep : World.Step (program base) w l w')
    (h : ∀ slot, Accounted base slot trace (rxOf w.shared slot)) :
    TrafficKnown base w' ∧ (∀ slot, Accounted base slot (trace ++ [l]) (rxOf w'.shared slot)) ∧
      ∀ op cause call, l = .ran op cause (.called call) → SentBy base op call := by
  obtain ⟨hlabel, others, hothers, -, hrest⟩ :=
    hstep.meets (fun op => program_traffic op w.shared) hknown
  refine ⟨fun q hq => ?_, ?_⟩
  · rcases hrest q hq with hother | hmoved
    · exact (hknown q (hothers q hother)).keep trivial
    · exact hmoved
  · match l, hlabel with
    | .ran op cause (.returned result), hlabel =>
      refine ⟨fun slot => Accounted.hand (m := ⟨cause, w.shared⟩) (h slot) hlabel, ?_⟩
      intro _ _ _ heq
      injection heq with _ _ hseen
      injection hseen
    | .ran op cause (.called call), hlabel =>
      refine ⟨fun slot => ?_, fun _ _ _ heq => ?_⟩
      · obtain ⟨removed, haccounts, hseen⟩ :=
          Accounted.arrive (m := ⟨cause, w.shared⟩) op (.called call) (h slot)
        rw [hlabel.1]
        refine ⟨removed, haccounts, ?_⟩
        rw [handedUp_snoc, handedUpIn_called, hseen, Option.toList_none, List.append_nil]
      · cases heq
        exact hlabel.2
    | .dropped op call, hlabel =>
      refine ⟨fun slot => ?_, fun _ _ _ heq => by injection heq⟩
      obtain ⟨removed, haccounts, hseen⟩ := h slot
      have hrx : rxOf w'.shared = rxOf w.shared := hlabel
      refine ⟨removed, ?_, ?_⟩
      · rw [arrivals_snoc, hrx]
        simpa [frameIn] using haccounts
      · have hnone : handedUpIn slot (.dropped op call : PortLabel I) = none := rfl
        rw [handedUp_snoc, hnone, hseen, Option.toList_none, List.append_nil]

/-- A run keeps the accounts of every port, and sends what its operations may. -/
theorem accounted_run (run : Run (World.Step (program base)) SwitchWorld.new trace w) :
    (∀ slot, Accounted base slot trace (rxOf w.shared slot)) ∧
      ∀ op cause call, Label.ran op cause (.called call) ∈ trace → SentBy base op call := by
  suffices hgen : ∀ (past : List (PortLabel I)) (w₀ : SwitchWorld I) (trace : List (PortLabel I)),
      Run (World.Step (program base)) w₀ trace w → TrafficKnown base w₀ →
      (∀ slot, Accounted base slot past (rxOf w₀.shared slot)) →
      (∀ slot, Accounted base slot (past ++ trace) (rxOf w.shared slot)) ∧
        ∀ op cause call, Label.ran op cause (.called call) ∈ trace → SentBy base op call from
    hgen [] _ trace run (fun q hq => absurd hq List.not_mem_nil) fun slot => ⟨[], .nil, rfl⟩
  intro past w₀ trace run
  clear * - run
  induction run generalizing past with
  | nil w =>
    intro _ h
    refine ⟨by simpa using h, fun op cause call hmem => ?_⟩
    exact absurd hmem List.not_mem_nil
  | @cons w₀ w₁ w₂ l ls head _ ih =>
    intro hknown h
    obtain ⟨hknown₁, h₁, hsent⟩ := accounted_step hknown head h
    obtain ⟨hlast, hsentRest⟩ := ih (past ++ [l]) hknown₁ h₁
    refine ⟨by simpa using hlast, fun op cause call hmem => ?_⟩
    rcases List.mem_cons.mp hmem with heq | hmem
    · exact hsent op cause call heq.symm
    · exact hsentRest op cause call hmem

end Accounts

end Eo9.Net.Switch
