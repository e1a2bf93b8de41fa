import Eo9.Kernel.Providers
import Eo9.Library.Runs
import Mathlib.Algebra.BigOperators.Group.Finset.Basic
import Mathlib.Data.Finset.Card
import Mathlib.Data.Fintype.Basic

/-!
# Waiting for legacy interrupts

The wait table of the INTx lines (`pci.rs`, `wasm/pci_provider.rs`): a mask bit and a count of
deliveries for each line of the host bridge, and the waits of all tasks on them. A poll is taken
apart where an interrupt can come in between; one poll, drop or call runs at a time. A count is
kept as the serial numbers of its deliveries, and what was returned or thrown away is kept with it.
-/

namespace Eo9.Kernel.Intx

open Eo9.Library Eo9.Kernel.Pci

abbrev Line := Fin INTX_LINES

instance : NeZero INTX_LINES := ⟨Nat.succ_ne_zero 3⟩

def source (line : Nat) : Line := Fin.ofNat INTX_LINES line

def INTX_WAIT_BOUND_NS : Nat := 2_000_000_000

/-- A wait on a line. The last two fields are for the observer: how many deliveries there had been
when it was armed, and which pending ones no armed wait was left for. -/
structure IntxWait where
  line : Nat
  deadline : Nat
  armed : Bool
  since : Nat := 0
  stale : List Nat := []
  deriving DecidableEq

/-- What is left of a poll once the line is armed. -/
inductive Stage where
  | taking
  | checking

/-- The interrupt controller, the counts, the tables of the tasks and their waits. -/
structure System where
  masked : Line → Bool := fun _ => true
  deliveries : Line → List Nat := fun _ => []
  uptime : Nat := 0
  tables : Nat → PciTables := fun _ => {}
  waits : Slots IntxWait := []
  polling : Option (Nat × Stage) := none
  recorded : Nat := 0
  returned : List Nat := []
  returnedStale : List Nat := []
  robbed : List Nat := []

inductive Event where
  | interrupt (line : Line)
  | tick (ns : Nat)
  | enableInterrupts (task : Nat) (address : FunctionAddress) (pin : Nat)
  | wait (task rep maxNs : Nat)
  | poll (w : Nat)
  | take
  | check
  | drop (w : Nat)
  | closeInterrupt (task rep : Nat)
  | quiesceAll (task : Nat)

namespace System

variable (s : System)

def Armed (w : Nat) (f : IntxWait) (line : Line) : Prop :=
  s.waits.get w = some f ∧ f.armed = true ∧ source f.line = line

def mask (line : Nat) : System := { s with masked := Function.update s.masked (source line) true }

def unmask (line : Nat) : System :=
  { s with masked := Function.update s.masked (source line) false }

/-- The handler of the fired line: it masks the line and records the delivery. -/
def intxRecord (line : Line) : System :=
  { s with
    masked := Function.update s.masked line true
    deliveries := Function.update s.deliveries line (s.recorded :: s.deliveries line)
    recorded := s.recorded + 1 }

/-- The count of a line is swapped for zero. -/
def intxTake (line : Nat) : System :=
  { s with deliveries := Function.update s.deliveries (source line) [] }

/-- The pending deliveries that were recorded for waits that are all over. -/
def leftOver (line : Line) : List Nat :=
  (s.deliveries line).filter fun d => s.waits.all fun slot =>
    slot.all fun f => !(f.armed && source f.line = line && f.since ≤ d)

/-- Another wait than this one is armed on the line. -/
def contested (w : Nat) (line : Line) : Bool :=
  ((s.waits.clear w).any fun slot => slot.any fun f => f.armed && source f.line = line)

def enableInterrupts (task : Nat) (address : FunctionAddress) (pin : Nat) : System :=
  let tables := s.tables task
  let slots := (tables.interrupts.insert ⟨intxLine address pin⟩).2
  { s with tables := Function.update s.tables task { tables with interrupts := slots } }

/-- The future of a `wait` call, not polled yet; an unknown handle is answered at once. -/
def wait (task rep maxNs : Nat) : System :=
  match (s.tables task).interrupts.get rep with
  | none => s
  | some vector =>
    let deadline := min (s.uptime + min maxNs INTX_WAIT_BOUND_NS) (2 ^ 64 - 1)
    { s with waits := (s.waits.insert ⟨vector.line, deadline, false, 0, []⟩).2 }

/-- The first part of a poll: the first one arms the line. -/
def poll (w : Nat) (f : IntxWait) : System :=
  if f.armed then { s with polling := some (w, .taking) }
  else
    { s.unmask f.line with
      waits := s.waits.update w fun f =>
        { f with armed := true, since := s.recorded, stale := s.leftOver (source f.line) }
      polling := some (w, .taking) }

/-- The second part of a poll: pending deliveries resolve the wait. -/
def take (w : Nat) (f : IntxWait) : System :=
  let pending := s.deliveries (source f.line)
  if pending = [] then { s with polling := some (w, .checking) }
  else
    { s.intxTake f.line with
      waits := s.waits.clear w
      polling := none
      returned := pending ++ s.returned
      returnedStale := pending.filter (· ∈ f.stale) ++ s.returnedStale }

/-- The last part of a poll: the wait has expired, or it is parked. -/
def check (w : Nat) (f : IntxWait) : System :=
  if f.deadline < s.uptime then { s.mask f.line with waits := s.waits.clear w, polling := none }
  else { s with polling := none }

def dropWait (w : Nat) (f : IntxWait) : System :=
  if f.armed then
    { (s.mask f.line).intxTake f.line with
      waits := s.waits.clear w
      robbed := (if s.contested w (source f.line) then s.deliveries (source f.line) else []) ++
        s.robbed }
  else { s with waits := s.waits.clear w }

def closeInterrupt (task rep : Nat) : System :=
  match (s.tables task).interrupts.get rep with
  | none => s
  | some vector =>
    let tables := s.tables task
    { s.mask vector.line with
      tables := Function.update s.tables task
        { tables with interrupts := tables.interrupts.clear rep } }

def vectored (task : Nat) (line : Line) : Bool :=
  (s.tables task).interrupts.any fun slot => slot.any fun vector => source vector.line = line

def quiesceAll (task : Nat) : System :=
  { s with masked := fun line => s.masked line || s.vectored task line }

/-- One step of the machine, if it can be taken: an interrupt comes in on a line that is not
masked, and whatever else the kernel does waits for the end of the poll that runs. -/
def step : Event → Option System
  | .interrupt line => if s.masked line then none else some (s.intxRecord line)
  | .tick ns => some { s with uptime := s.uptime + ns }
  | .take =>
    match s.polling with
    | some (w, .taking) => (s.waits.get w).map (s.take w)
    | _ => none
  | .check =>
    match s.polling with
    | some (w, .checking) => (s.waits.get w).map (s.check w)
    | _ => none
  | .enableInterrupts task address pin =>
    if s.polling = none ∧ 1 ≤ pin ∧ pin ≤ 4 then some (s.enableInterrupts task address pin)
    else none
  | .wait task rep maxNs => if s.polling = none then some (s.wait task rep maxNs) else none
  | .poll w => if s.polling = none then (s.waits.get w).map (s.poll w) else none
  | .drop w => if s.polling = none then (s.waits.get w).map (s.dropWait w) else none
  | .closeInterrupt task rep =>
    if s.polling = none then some (s.closeInterrupt task rep) else none
  | .quiesceAll task => if s.polling = none then some (s.quiesceAll task) else none

/-- What the waits of a system in this state have been and are being given. -/
structure Sound : Prop where
  once : s.returned.Nodup
  fresh : s.returnedStale = []
  kept : s.robbed = []
  heard : ∀ w f line, s.Armed w f line → s.masked line = false ∨ s.deliveries line ≠ []
  quiet : ∀ line, (∀ w f, ¬s.Armed w f line) → s.masked line = true

/-- Masking the line would leave a wait parked on it for nothing. -/
def Deafens (line : Line) : Prop := s.deliveries line = [] ∧ ∃ w f, s.Armed w f line

/-- The step does not take a shared line away from a wait: no wait resolves on a masked line, or is
dropped, while another is armed on the line; one expires with a delivery pending exactly if another
is left to take it; and no handle is closed or quiesced under an armed wait. -/
def Considerate : Event → Prop
  | .take => ∀ w f, s.polling = some (w, .taking) → s.waits.get w = some f →
      s.deliveries (source f.line) ≠ [] → s.masked (source f.line) = true →
        s.contested w (source f.line) = false
  | .check => ∀ w f, s.polling = some (w, .checking) → s.waits.get w = some f →
      f.deadline < s.uptime →
        (s.contested w (source f.line) = true ↔ s.deliveries (source f.line) ≠ [])
  | .drop w => ∀ f, s.waits.get w = some f → f.armed = true → s.contested w (source f.line) = false
  | .closeInterrupt task rep => ∀ vector, (s.tables task).interrupts.get rep = some vector →
      ¬s.Deafens (source vector.line)
  | .quiesceAll task => ∀ line, s.vectored task line = true → ¬s.Deafens line
  | _ => True

end System

def Step (s : System) (e : Event) (s' : System) : Prop := s.step e = some s'

/-- The steps that are considerate. -/
def Considerately (s : System) (e : Event) (s' : System) : Prop := Step s e s' ∧ s.Considerate e

namespace System

variable {s : System} {w v : Nat} {f g : IntxWait} {line line' : Line}

theorem contested_iff : s.contested w line = true ↔ ∃ v g, v ≠ w ∧ s.Armed v g line := by
  rw [contested, List.any_eq_true]
  constructor
  · rintro ⟨slot, hslot, hg⟩
    cases slot with
    | none => cases hg
    | some g =>
    obtain ⟨v, hv⟩ := Slots.mem_iff_get.mp hslot
    have hne : v ≠ w := by
      rintro rfl
      rw [Slots.get_clear_self] at hv
      cases hv
    rw [Slots.get_clear_of_ne hne] at hv
    rw [Option.any_some, Bool.and_eq_true, decide_eq_true_iff] at hg
    exact ⟨v, g, hne, hv, hg⟩
  · rintro ⟨v, g, hne, hv, harmed, hline⟩
    refine ⟨some g, Slots.mem_iff_get.mpr ⟨v, ?_⟩, ?_⟩
    · rwa [Slots.get_clear_of_ne hne]
    · simp [harmed, hline]

/-- Nothing is left over while each pending delivery has an armed wait that it was recorded for. -/
theorem leftOver_eq_nil
    (h : ∀ d ∈ s.deliveries line, ∃ w f, s.Armed w f line ∧ f.since ≤ d) :
    s.leftOver line = [] := by
  rw [leftOver, List.filter_eq_nil_iff]
  intro d hd hall
  obtain ⟨w, f, ⟨hget, harmed, hline⟩, hsince⟩ := h d hd
  have hslot := List.all_eq_true.mp hall _ (Slots.mem_iff_get.mpr ⟨w, hget⟩)
  simp [harmed, hline, hsince] at hslot

theorem Armed.unique (h : s.Armed w f line) (h' : s.Armed w g line') : f = g ∧ line = line' := by
  obtain rfl := Option.some.inj (h.1.symm.trans h'.1)
  exact ⟨rfl, h.2.2.symm.trans h'.2.2⟩

variable {s' : System}

theorem armed_clear (hwaits : s'.waits = s.waits.clear w) :
    s'.Armed v g line ↔ v ≠ w ∧ s.Armed v g line := by
  rw [Armed, hwaits]
  by_cases hv : v = w
  · subst hv
    simp
  · rw [Slots.get_clear_of_ne hv, Armed]
    exact (and_iff_right hv).symm

theorem armed_insert (hwaits : s'.waits = (s.waits.insert f).2) (hf : f.armed = false) :
    s'.Armed v g line ↔ s.Armed v g line := by
  rw [Armed, hwaits, Armed]
  by_cases hv : v = (s.waits.insert f).1
  · subst hv
    rw [Slots.get_insert_self, Slots.insert_fresh]
    constructor
    · rintro ⟨hg, harmed, -⟩
      rw [← Option.some.inj hg, hf] at harmed
      cases harmed
    · rintro ⟨hg, -⟩
      cases hg
  · rw [Slots.get_insert_of_ne hv]

/-- How often a serial number is on the books: returned, or pending on some line. -/
def entries (s : System) (d : Nat) : Nat :=
  s.returned.count d + ∑ line, (s.deliveries line).count d

/-- Each delivery is on the books at most once. -/
def Books (s : System) : Prop := ∀ d, s.entries d ≤ if d < s.recorded then 1 else 0

theorem sum_count_update (deliveries : Line → List Nat) (line : Line) (ds : List Nat) (d : Nat) :
    ∑ l, (Function.update deliveries line ds l).count d + (deliveries line).count d =
      ∑ l, (deliveries l).count d + ds.count d := by
  have hsum : ∀ g : Line → List Nat, ∑ l, (g l).count d =
      (g line).count d + ∑ l ∈ Finset.univ.erase line, (g l).count d := fun g =>
    (Finset.add_sum_erase _ _ (Finset.mem_univ line)).symm
  rw [hsum deliveries, hsum (Function.update deliveries line ds), Function.update_self]
  have hrest : ∑ l ∈ Finset.univ.erase line, (Function.update deliveries line ds l).count d =
      ∑ l ∈ Finset.univ.erase line, (deliveries l).count d := by
    apply Finset.sum_congr rfl
    intro l hl
    rw [Function.update_of_ne (Finset.ne_of_mem_erase hl)]
  omega

theorem Books.record (h : Books s) (line : Line) : Books (s.intxRecord line) := by
  intro d
  have hd := h d
  have hsum := sum_count_update s.deliveries line (s.recorded :: s.deliveries line) d
  rw [List.count_cons] at hsum
  rw [entries] at hd ⊢
  rw [intxRecord]
  dsimp only
  by_cases heq : s.recorded = d
  · subst heq
    rw [if_neg (Nat.lt_irrefl _)] at hd
    rw [if_pos (Nat.lt_succ_self _)]
    rw [beq_self_eq_true, if_pos rfl] at hsum
    omega
  · rw [beq_eq_false_iff_ne.mpr heq, if_neg Bool.false_ne_true] at hsum
    by_cases hlt : d < s.recorded
    · rw [if_pos hlt] at hd
      rw [if_pos (Nat.lt_succ_of_lt hlt)]
      omega
    · rw [if_neg hlt] at hd
      rw [if_neg (by omega)]
      omega

theorem Books.take (h : Books s) (w : Nat) (f : IntxWait) : Books (s.take w f) := by
  rw [System.take]
  dsimp only
  split
  · exact h
  · intro d
    have hsum := sum_count_update s.deliveries (source f.line) [] d
    have hd := h d
    rw [entries] at hd ⊢
    rw [intxTake]
    dsimp only
    rw [List.count_append]
    rw [List.count_nil] at hsum
    omega

theorem Books.drop (h : Books s) (w : Nat) (f : IntxWait) : Books (s.dropWait w f) := by
  rw [dropWait]
  split
  · intro d
    have hsum := sum_count_update s.deliveries (source f.line) [] d
    have hd := h d
    rw [entries] at hd ⊢
    rw [intxTake, mask]
    dsimp only
    rw [List.count_nil] at hsum
    omega
  · exact h

theorem Books.nodup (h : Books s) : s.returned.Nodup := by
  rw [List.nodup_iff_count_le_one]
  intro d
  have hd := h d
  rw [entries] at hd
  split at hd <;> omega

/-- What considerate steps keep. A delivery is pending only while a wait is armed on its line, and
every such wait that is not about to look for the first time was armed before it. A line with a
pending delivery is unmasked only by a wait that is about to take it, next to another one. -/
structure Inv (s : System) : Prop where
  books : s.Books
  fresh : s.returnedStale = []
  kept : s.robbed = []
  heard : ∀ w f line, s.Armed w f line → s.masked line = false ∨ s.deliveries line ≠ []
  quiet : ∀ line, (∀ w f, ¬s.Armed w f line) → s.masked line = true
  unspoilt : ∀ w f line, s.Armed w f line → f.stale = [] ∧ f.since ≤ s.recorded
  awaited : ∀ line, s.deliveries line ≠ [] → ∃ w f, s.Armed w f line
  seen : ∀ line, ∀ d ∈ s.deliveries line, ∀ w f, s.Armed w f line →
    s.polling ≠ some (w, .taking) → f.since ≤ d
  rearmed : ∀ line, s.masked line = false → s.deliveries line ≠ [] →
    ∃ w f, s.polling = some (w, .taking) ∧ s.Armed w f line ∧ s.contested w line = true
  polled : ∀ w stage, s.polling = some (w, stage) → ∃ f line, s.Armed w f line

theorem Inv.sound (h : Inv s) : s.Sound :=
  ⟨h.books.nodup, h.fresh, h.kept, h.heard, h.quiet⟩

theorem Inv.initial : Inv {} where
  books := fun d => Nat.zero_le _
  fresh := rfl
  kept := rfl
  heard := fun _ _ _ h => absurd h.1 nofun
  quiet := fun _ _ => rfl
  unspoilt := fun _ _ _ h => absurd h.1 nofun
  awaited := fun _ h => absurd rfl h
  seen := fun _ _ h => absurd h List.not_mem_nil
  rearmed := fun _ _ h => absurd rfl h
  polled := nofun

theorem Inv.record (h : Inv s) (hline : s.masked line = false) : Inv (s.intxRecord line) where
  books := h.books.record line
  fresh := h.fresh
  kept := h.kept
  heard := fun w f l harmed => by
    by_cases hl : l = line
    · right
      simp [intxRecord, hl]
    · simpa only [intxRecord, Function.update_of_ne hl] using h.heard w f l harmed
  quiet := fun l hnone => by
    by_cases hl : l = line
    · simp [intxRecord, hl]
    · simpa only [intxRecord, Function.update_of_ne hl] using h.quiet l hnone
  unspoilt := fun w f l harmed => (h.unspoilt w f l harmed).imp_right Nat.le_succ_of_le
  awaited := fun l hne => by
    by_cases hl : l = line
    · subst hl
      by_contra hnone
      rw [h.quiet l fun w f harmed => hnone ⟨w, f, harmed⟩] at hline
      cases hline
    · simp only [intxRecord, Function.update_of_ne hl] at hne
      exact h.awaited l hne
  seen := fun l d hd w f harmed hpolling => by
    by_cases hl : l = line
    · subst hl
      simp only [intxRecord, Function.update_self, List.mem_cons] at hd
      rcases hd with rfl | hd
      · exact (h.unspoilt w f l harmed).2
      · exact h.seen l d hd w f harmed hpolling
    · simp only [intxRecord, Function.update_of_ne hl] at hd
      exact h.seen l d hd w f harmed hpolling
  rearmed := fun l hmasked hne => by
    by_cases hl : l = line
    · simp [intxRecord, hl] at hmasked
    · simp only [intxRecord, Function.update_of_ne hl] at hmasked hne
      exact h.rearmed l hmasked hne
  polled := h.polled

/-- Lines may be masked that no wait is parked on for nothing then. -/
theorem Inv.masks (h : Inv s) {masked : Line → Bool} (tables : Nat → PciTables)
    (hkeep : ∀ l, s.masked l = true → masked l = true)
    (hmask : ∀ l, masked l = true → s.masked l = true ∨ ¬s.Deafens l) :
    Inv { s with masked := masked, tables := tables } where
  books := h.books
  fresh := h.fresh
  kept := h.kept
  heard := fun w f l harmed => by
    cases hl : masked l with
    | false => exact .inl hl
    | true =>
      right
      intro hnil
      rcases hmask l hl with hold | hdeaf
      · rcases h.heard w f l harmed with hfree | hne
        · rw [hold] at hfree
          cases hfree
        · exact hne hnil
      · exact hdeaf ⟨hnil, w, f, harmed⟩
  quiet := fun l hnone => hkeep l (h.quiet l hnone)
  unspoilt := h.unspoilt
  awaited := h.awaited
  seen := h.seen
  rearmed := fun l hmasked hne => by
    apply h.rearmed l ?_ hne
    by_contra hold
    have hfalse := hkeep l (Bool.eq_true_of_not_eq_false hold)
    exact Bool.false_ne_true (hmasked.symm.trans hfalse)
  polled := h.polled

theorem Inv.insert (h : Inv s) (hf : f.armed = false) :
    Inv { s with waits := (s.waits.insert f).2 } := by
  have hiff : ∀ {v g l}, System.Armed { s with waits := (s.waits.insert f).2 } v g l ↔
      s.Armed v g l := armed_insert rfl hf
  constructor
  · exact h.books
  · exact h.fresh
  · exact h.kept
  · exact fun w g l harmed => h.heard w g l (hiff.mp harmed)
  · exact fun l hnone => h.quiet l fun w g harmed => hnone w g (hiff.mpr harmed)
  · exact fun w g l harmed => h.unspoilt w g l (hiff.mp harmed)
  · intro l hne
    obtain ⟨w, g, harmed⟩ := h.awaited l hne
    exact ⟨w, g, hiff.mpr harmed⟩
  · exact fun l d hd w g harmed => h.seen l d hd w g (hiff.mp harmed)
  · intro l hmasked hne
    obtain ⟨w, g, hpolling, harmed, hcontested⟩ := h.rearmed l hmasked hne
    obtain ⟨v, g', hne', hother⟩ := contested_iff.mp hcontested
    exact ⟨w, g, hpolling, hiff.mpr harmed, contested_iff.mpr ⟨v, g', hne', hiff.mpr hother⟩⟩
  · intro w stage hpolling
    obtain ⟨g, l, harmed⟩ := h.polled w stage hpolling
    exact ⟨g, l, hiff.mpr harmed⟩

theorem Inv.poll (h : Inv s) (hidle : s.polling = none) (hget : s.waits.get w = some f) :
    Inv (s.poll w f) := by
  have hseen : ∀ l, ∀ d ∈ s.deliveries l, ∀ v g, s.Armed v g l → g.since ≤ d :=
    fun l d hd v g harmed => h.seen l d hd v g harmed (by rw [hidle]; exact nofun)
  have hnone : ∀ l, s.masked l = false → s.deliveries l = [] := by
    intro l hmasked
    by_contra hne
    obtain ⟨v, g, hpolling, -⟩ := h.rearmed l hmasked hne
    rw [hidle] at hpolling
    cases hpolling
  rw [System.poll]
  split
  · next harmed =>
    constructor
    · exact h.books
    · exact h.fresh
    · exact h.kept
    · exact h.heard
    · exact h.quiet
    · exact h.unspoilt
    · exact h.awaited
    · exact fun l d hd v g hv _ => hseen l d hd v g hv
    · exact fun l hmasked hne => absurd (hnone l hmasked) hne
    · rintro v stage ⟨⟩
      exact ⟨f, _, hget, harmed, rfl⟩
  · next hunarmed =>
    generalize hs' : System.mk _ _ _ _ _ _ _ _ _ _ = s'
    have hself : s'.waits.get w =
        some { f with
          armed := true, since := s.recorded, stale := s.leftOver (source f.line) } := by
      rw [← hs']
      dsimp only
      rw [Slots.get_update_self, hget, Option.map_some]
    have hother : ∀ {v}, v ≠ w → s'.waits.get v = s.waits.get v := fun hv => by
      rw [← hs']
      exact Slots.get_update_of_ne hv
    have hne : ∀ {v g l}, s.Armed v g l → v ≠ w := by
      rintro v g l ⟨hv, harmed, -⟩ rfl
      rw [hget] at hv
      obtain rfl := Option.some.inj hv
      exact hunarmed harmed
    have hkeep : ∀ {v g l}, s.Armed v g l → s'.Armed v g l := fun harmed =>
      ⟨(hother (hne harmed)).trans harmed.1, harmed.2⟩
    have hback : ∀ {v g l}, s'.Armed v g l → v ≠ w → s.Armed v g l := fun harmed hv =>
      ⟨(hother hv).symm.trans harmed.1, harmed.2⟩
    have hmine : s'.Armed w { f with
        armed := true, since := s.recorded, stale := s.leftOver (source f.line) }
          (source f.line) := ⟨hself, rfl, rfl⟩
    have hopen : ∀ {l}, l ≠ source f.line → s'.masked l = s.masked l := fun hl => by
      rw [← hs']
      exact Function.update_of_ne hl _ _
    have hline : s'.masked (source f.line) = false := by
      rw [← hs']
      exact Function.update_self ..
    have hdeliveries : s'.deliveries = s.deliveries := by
      rw [← hs']
      rfl
    have hpolling : s'.polling = some (w, .taking) := by
      rw [← hs']
    have hrecorded : s'.recorded = s.recorded := by
      rw [← hs']
      rfl
    constructor
    · rw [← hs']
      exact h.books
    · rw [← hs']
      exact h.fresh
    · rw [← hs']
      exact h.kept
    · intro v g l harmed
      by_cases hl : l = source f.line
      · left
        rw [hl, hline]
      · rw [hopen hl, hdeliveries]
        apply h.heard v g l (hback harmed _)
        rintro rfl
        exact hl (harmed.unique hmine).2
    · intro l hnobody
      have hl : l ≠ source f.line := by
        rintro rfl
        exact hnobody _ _ hmine
      rw [hopen hl]
      exact h.quiet l fun v g harmed => hnobody v g (hkeep harmed)
    · intro v g l harmed
      rw [hrecorded]
      by_cases hv : v = w
      · subst hv
        obtain ⟨rfl, -⟩ := harmed.unique hmine
        refine ⟨leftOver_eq_nil fun d hd => ?_, le_rfl⟩
        obtain ⟨u, g, hu⟩ := h.awaited _ (List.ne_nil_of_mem hd)
        exact ⟨u, g, hu, hseen _ d hd u g hu⟩
      · exact h.unspoilt v g l (hback harmed hv)
    · intro l hl
      rw [hdeliveries] at hl
      obtain ⟨v, g, harmed⟩ := h.awaited l hl
      exact ⟨v, g, hkeep harmed⟩
    · intro l d hd v g harmed hnot
      rw [hdeliveries] at hd
      have hv : v ≠ w := by
        rintro rfl
        exact hnot hpolling
      exact hseen l d hd v g (hback harmed hv)
    · intro l hmasked hl
      rw [hdeliveries] at hl
      by_cases hsource : l = source f.line
      · subst hsource
        obtain ⟨v, g, harmed⟩ := h.awaited _ hl
        exact ⟨w, _, hpolling, hmine, contested_iff.mpr ⟨v, g, hne harmed, hkeep harmed⟩⟩
      · rw [hopen hsource] at hmasked
        exact absurd (hnone l hmasked) hl
    · intro v stage hv
      rw [hpolling] at hv
      cases hv
      exact ⟨_, _, hmine⟩

/-- The end of an armed wait, when it leaves its line masked if and only if no other wait needs it,
and a delivery pending only for another wait. -/
theorem Inv.ended (h : Inv s) (hget : s.waits.get w = some f) (hbooks : s'.Books)
    (hfresh : s'.returnedStale = []) (hkept : s'.robbed = [])
    (hrecorded : s'.recorded = s.recorded) (hwaits : s'.waits = s.waits.clear w)
    (hpolling : s'.polling = none) (htaking : ∀ v, s.polling = some (v, .taking) → v = w)
    (hmasked : ∀ l, l ≠ source f.line → s'.masked l = s.masked l)
    (hdeliveries : ∀ l, l ≠ source f.line → s'.deliveries l = s.deliveries l)
    (hshared : s.contested w (source f.line) = true →
      s'.masked (source f.line) = false ∨ s'.deliveries (source f.line) ≠ [])
    (halone : s.contested w (source f.line) = false → s'.masked (source f.line) = true)
    (hleft : s'.deliveries (source f.line) ≠ [] → s'.masked (source f.line) = true ∧
      s.contested w (source f.line) = true ∧ (∀ v, s.polling ≠ some (v, .taking)) ∧
        s'.deliveries (source f.line) = s.deliveries (source f.line)) : Inv s' := by
  have hiff : ∀ {v g l}, s'.Armed v g l ↔ v ≠ w ∧ s.Armed v g l := armed_clear hwaits
  have hline : ∀ {g l}, s.Armed w g l → l = source f.line := by
    rintro g l ⟨hg, -, rfl⟩
    rw [Option.some.inj (hg.symm.trans hget)]
  have hstay : ∀ {v g l}, l ≠ source f.line → s.Armed v g l → s'.Armed v g l := by
    intro v g l hl harmed
    refine hiff.mpr ⟨?_, harmed⟩
    rintro rfl
    exact hl (hline harmed)
  constructor
  · exact hbooks
  · exact hfresh
  · exact hkept
  · intro v g l harmed
    obtain ⟨hv, hold⟩ := hiff.mp harmed
    by_cases hl : l = source f.line
    · subst hl
      exact hshared (contested_iff.mpr ⟨v, g, hv, hold⟩)
    · rw [hmasked l hl, hdeliveries l hl]
      exact h.heard v g l hold
  · intro l hnobody
    by_cases hl : l = source f.line
    · subst hl
      apply halone
      rw [← Bool.not_eq_true, contested_iff]
      rintro ⟨v, g, hv, hold⟩
      exact hnobody v g (hiff.mpr ⟨hv, hold⟩)
    · rw [hmasked l hl]
      exact h.quiet l fun v g hold => hnobody v g (hstay hl hold)
  · intro v g l harmed
    rw [hrecorded]
    exact h.unspoilt v g l (hiff.mp harmed).2
  · intro l hne
    by_cases hl : l = source f.line
    · subst hl
      obtain ⟨v, g, hv, hold⟩ := contested_iff.mp (hleft hne).2.1
      exact ⟨v, g, hiff.mpr ⟨hv, hold⟩⟩
    · rw [hdeliveries l hl] at hne
      obtain ⟨v, g, hold⟩ := h.awaited l hne
      exact ⟨v, g, hstay hl hold⟩
  · intro l d hd v g harmed _
    obtain ⟨hv, hold⟩ := hiff.mp harmed
    by_cases hl : l = source f.line
    · subst hl
      obtain ⟨-, -, hnot, hsame⟩ := hleft (List.ne_nil_of_mem hd)
      rw [hsame] at hd
      exact h.seen _ d hd v g hold (hnot v)
    · rw [hdeliveries l hl] at hd
      exact h.seen l d hd v g hold fun hp => hv (htaking v hp)
  · intro l hopen hne
    by_cases hl : l = source f.line
    · subst hl
      rw [(hleft hne).1] at hopen
      cases hopen
    · rw [hmasked l hl] at hopen
      rw [hdeliveries l hl] at hne
      obtain ⟨v, g, hp, hold, -⟩ := h.rearmed l hopen hne
      obtain rfl := htaking v hp
      exact absurd (hline hold) hl
  · intro v stage hp
    rw [hpolling] at hp
    cases hp

theorem Inv.take (h : Inv s) (hpolling : s.polling = some (w, .taking))
    (hget : s.waits.get w = some f) (hconsiderate : s.Considerate .take) : Inv (s.take w f) := by
  obtain ⟨g, line, hw⟩ := h.polled w _ hpolling
  obtain rfl := Option.some.inj (hw.1.symm.trans hget)
  have htaking : ∀ v, s.polling = some (v, .taking) → v = w := by
    intro v hv
    rw [hpolling] at hv
    cases hv
    rfl
  have hbooks := h.books.take w g
  rw [System.take] at hbooks ⊢
  dsimp only at hbooks ⊢
  split at hbooks
  · next hnil =>
    rw [if_pos hnil]
    constructor
    · exact hbooks
    · exact h.fresh
    · exact h.kept
    · exact h.heard
    · exact h.quiet
    · exact h.unspoilt
    · exact h.awaited
    · intro l d hd v g' hv _
      apply h.seen l d hd v g' hv
      intro hp
      obtain rfl := htaking v hp
      rw [(hv.unique hw).2, ← hw.2.2, hnil] at hd
      cases hd
    · intro l hmasked hne
      obtain ⟨v, g', hp, hv, -⟩ := h.rearmed l hmasked hne
      obtain rfl := htaking v hp
      rw [(hv.unique hw).2, ← hw.2.2] at hne
      exact absurd hnil hne
    · rintro v stage ⟨⟩
      exact ⟨g, line, hw⟩
  · next hne =>
    rw [if_neg hne]
    have hcontested : s.masked (source g.line) = true →
        s.contested w (source g.line) = false := hconsiderate w g hpolling hget hne
    refine h.ended hget hbooks ?_ h.kept rfl rfl rfl htaking (fun _ _ => rfl)
      (fun l hl => Function.update_of_ne hl _ _) ?_ ?_ ?_
    · rw [(h.unspoilt w g line hw).1, h.fresh]
      simp
    · intro hother
      left
      cases hm : s.masked (source g.line) with
      | false => exact hm
      | true => exact absurd (hother.symm.trans (hcontested hm)) Bool.true_eq_false.mp
    · intro halone
      cases hm : s.masked (source g.line) with
      | true => exact hm
      | false =>
        obtain ⟨v, g', hp, -, hother⟩ := h.rearmed _ hm hne
        obtain rfl := htaking v hp
        exact absurd (hother.symm.trans halone) Bool.true_eq_false.mp
    · intro hleft
      exact absurd (Function.update_self ..) hleft

theorem Inv.check (h : Inv s) (hpolling : s.polling = some (w, .checking))
    (hget : s.waits.get w = some f) (hconsiderate : s.Considerate .check) : Inv (s.check w f) := by
  have hnot : ∀ v, s.polling ≠ some (v, .taking) := by
    intro v hv
    rw [hpolling] at hv
    cases hv
  rw [System.check]
  split
  · next hlate =>
    have hiff := hconsiderate w f hpolling hget hlate
    refine h.ended hget h.books h.fresh h.kept rfl rfl rfl (fun v hv => absurd hv (hnot v))
      (fun l hl => Function.update_of_ne hl _ _) (fun _ _ => rfl) ?_ ?_ ?_
    · intro hother
      exact .inr (hiff.mp hother)
    · intro _
      exact Function.update_self ..
    · intro hleft
      exact ⟨Function.update_self .., hiff.mpr hleft, hnot, rfl⟩
  · constructor
    · exact h.books
    · exact h.fresh
    · exact h.kept
    · exact h.heard
    · exact h.quiet
    · exact h.unspoilt
    · exact h.awaited
    · exact fun l d hd v g hv _ => h.seen l d hd v g hv (hnot v)
    · intro l hmasked hne
      obtain ⟨v, g, hp, -⟩ := h.rearmed l hmasked hne
      exact absurd hp (hnot v)
    · exact fun _ _ => nofun

theorem Inv.drop (h : Inv s) (hidle : s.polling = none) (hget : s.waits.get w = some f)
    (hconsiderate : s.Considerate (.drop w)) : Inv (s.dropWait w f) := by
  have hbooks := h.books.drop w f
  rw [dropWait] at hbooks ⊢
  split at hbooks
  · next harmed =>
    rw [if_pos harmed]
    have halone := hconsiderate f hget harmed
    refine h.ended hget hbooks h.fresh ?_ rfl rfl hidle (fun v hv => ?_)
      (fun l hl => Function.update_of_ne hl _ _) (fun l hl => Function.update_of_ne hl _ _)
      ?_ ?_ ?_
    · rw [halone]
      exact h.kept
    · rw [hidle] at hv
      cases hv
    · intro hother
      exact absurd (hother.symm.trans halone) Bool.true_eq_false.mp
    · intro _
      exact Function.update_self ..
    · intro hleft
      exact absurd (Function.update_self ..) hleft
  · next hunarmed =>
    rw [if_neg hunarmed]
    have hiff : ∀ {v g l}, System.Armed { s with waits := s.waits.clear w } v g l ↔
        s.Armed v g l := by
      intro v g l
      rw [armed_clear rfl]
      refine and_iff_right_of_imp ?_
      rintro ⟨hv, harmed, -⟩ rfl
      rw [Option.some.inj (hv.symm.trans hget)] at harmed
      exact hunarmed harmed
    constructor
    · exact h.books
    · exact h.fresh
    · exact h.kept
    · exact fun v g l harmed => h.heard v g l (hiff.mp harmed)
    · exact fun l hnone => h.quiet l fun v g harmed => hnone v g (hiff.mpr harmed)
    · exact fun v g l harmed => h.unspoilt v g l (hiff.mp harmed)
    · intro l hne
      obtain ⟨v, g, harmed⟩ := h.awaited l hne
      exact ⟨v, g, hiff.mpr harmed⟩
    · exact fun l d hd v g harmed => h.seen l d hd v g (hiff.mp harmed)
    · intro l hmasked hne
      obtain ⟨v, g, hp, -⟩ := h.rearmed l hmasked hne
      rw [hidle] at hp
      cases hp
    · intro v stage hp
      rw [hidle] at hp
      cases hp

theorem Inv.step {e : Event} (h : Inv s) (hstep : Considerately s e s') : Inv s' := by
  obtain ⟨hs, hconsiderate⟩ := hstep
  rw [Step] at hs
  cases e with
  | interrupt line =>
    rw [System.step] at hs
    split at hs
    · cases hs
    · next hmasked =>
      cases hs
      exact h.record (Bool.eq_false_of_not_eq_true hmasked)
  | tick ns =>
    cases hs
    exact ⟨h.books, h.fresh, h.kept, h.heard, h.quiet, h.unspoilt, h.awaited, h.seen, h.rearmed,
      h.polled⟩
  | enableInterrupts task address pin =>
    rw [System.step] at hs
    split at hs
    · cases hs
      exact h.masks _ (fun _ hl => hl) fun _ hl => .inl hl
    · cases hs
  | wait task rep maxNs =>
    rw [System.step] at hs
    split at hs
    · cases hs
      rw [wait]
      split
      · exact h
      · exact h.insert rfl
    · cases hs
  | poll w =>
    rw [System.step] at hs
    split at hs
    · next hidle =>
      obtain ⟨f, hget, rfl⟩ := Option.map_eq_some_iff.mp hs
      exact h.poll hidle hget
    · cases hs
  | take =>
    rw [System.step] at hs
    split at hs
    · next w hpolling =>
      obtain ⟨f, hget, rfl⟩ := Option.map_eq_some_iff.mp hs
      exact h.take hpolling hget hconsiderate
    · cases hs
  | check =>
    rw [System.step] at hs
    split at hs
    · next w hpolling =>
      obtain ⟨f, hget, rfl⟩ := Option.map_eq_some_iff.mp hs
      exact h.check hpolling hget hconsiderate
    · cases hs
  | drop w =>
    rw [System.step] at hs
    split at hs
    · next hidle =>
      obtain ⟨f, hget, rfl⟩ := Option.map_eq_some_iff.mp hs
      exact h.drop hidle hget hconsiderate
    · cases hs
  | closeInterrupt task rep =>
    rw [System.step] at hs
    split at hs
    · cases hs
      rw [closeInterrupt]
      split
      · exact h
      · next vector hvector =>
        have hdeaf : ¬s.Deafens (source vector.line) := hconsiderate vector hvector
        apply h.masks
        · intro l hl
          by_cases hsource : l = source vector.line
          · rw [hsource]
            exact Function.update_self ..
          · exact (Function.update_of_ne hsource _ _).trans hl
        · intro l hl
          by_cases hsource : l = source vector.line
          · exact .inr (hsource ▸ hdeaf)
          · exact .inl ((Function.update_of_ne hsource _ _).symm.trans hl)
    · cases hs
  | quiesceAll task =>
    rw [System.step] at hs
    split at hs
    · cases hs
      apply h.masks
      · intro l hl
        rw [hl, Bool.true_or]
      · intro l hl
        exact ((Bool.or_eq_true _ _).mp hl).imp_right (hconsiderate l)
    · cases hs

end System

/-- The state after the steps, if all can be taken. -/
def exec : System → List Event → Option System
  | s, [] => some s
  | s, e :: es => (s.step e).bind fun s' => exec s' es

theorem run_of_exec {es : List Event} {s s' : System} (h : exec s es = some s') :
    Run Step s es s' := by
  induction es generalizing s with
  | nil =>
    obtain rfl := Option.some.inj h
    exact .nil _
  | cons e es ih =>
    obtain ⟨s₁, hstep, hrest⟩ := Option.bind_eq_some_iff.mp h
    exact .cons hstep (ih hrest)

/-- The polls among the events, which may unmask a line each. -/
def polls (es : List Event) : Nat := es.countP fun e => e matches .poll _

namespace System

variable {s s' : System} {e : Event} {es : List Event} {line : Line}

def unmasked (s : System) : Finset Line := {line | s.masked line = false}

theorem mem_unmasked : line ∈ s.unmasked ↔ s.masked line = false :=
  Finset.mem_filter_univ line

/-- The books are kept, and every interrupt that came in or can come in is let in by a poll of its
own. -/
def Tallied (es : List Event) (s : System) : Prop :=
  s.Books ∧ s.recorded + s.unmasked.card ≤ polls es

theorem Tallied.step (h : Tallied es s) (hstep : Step s e s') : Tallied (es ++ [e]) s' := by
  obtain ⟨hbooks, hle⟩ := h
  have hadd : polls (es ++ [e]) = polls es + polls [e] := List.countP_append
  have hkeep : ∀ {s' : System}, s'.Books → s'.recorded = s.recorded →
      (∀ l, s.masked l = true → s'.masked l = true) → Tallied (es ++ [e]) s' := by
    intro s' hbooks hrecorded hmasked
    have hcard : s'.unmasked.card ≤ s.unmasked.card := by
      apply Finset.card_le_card
      intro l hl
      rw [mem_unmasked] at hl ⊢
      exact Bool.eq_false_of_not_eq_true fun hold =>
        Bool.false_ne_true (hl.symm.trans (hmasked l hold))
    exact ⟨hbooks, by omega⟩
  have hmask : ∀ line l, s.masked l = true → (s.mask line).masked l = true := by
    intro line l hl
    exact (Function.update_apply ..).trans (by split <;> [rfl; exact hl])
  cases e with
  | interrupt line =>
    obtain ⟨hopen, hs⟩ := Option.ite_none_left_eq_some.mp hstep
    cases hs
    have hmem := mem_unmasked.mpr (Bool.eq_false_of_not_eq_true hopen)
    have herase : (s.intxRecord line).unmasked = s.unmasked.erase line := by
      ext l
      by_cases hl : l = line <;> simp [mem_unmasked, intxRecord, hl]
    have hcard := Finset.card_erase_add_one hmem
    refine ⟨hbooks.record line, ?_⟩
    rw [herase, intxRecord]
    dsimp only
    omega
  | poll w =>
    obtain ⟨f, -, rfl⟩ := Option.map_eq_some_iff.mp (Option.ite_none_right_eq_some.mp hstep).2
    rw [System.poll]
    split
    · exact hkeep hbooks rfl fun _ => id
    · have hsub : (s.unmask f.line).unmasked ⊆ insert (source f.line) s.unmasked := by
        intro l hl
        by_cases heq : l = source f.line <;> simp_all [mem_unmasked, unmask]
      have hcard := (Finset.card_le_card hsub).trans (Finset.card_insert_le _ _)
      have hone : polls [.poll w] = 1 := rfl
      exact ⟨hbooks, le_trans (Nat.add_le_add_left hcard s.recorded) (by omega)⟩
  | take =>
    rw [Step, System.step] at hstep
    split at hstep
    · next w _ =>
      obtain ⟨f, -, rfl⟩ := Option.map_eq_some_iff.mp hstep
      apply hkeep (hbooks.take w f) <;> rw [System.take] <;> dsimp only <;> split
      · rfl
      · rfl
      · exact fun _ => id
      · exact fun _ => id
    · cases hstep
  | check =>
    rw [Step, System.step] at hstep
    split at hstep
    · obtain ⟨f, -, rfl⟩ := Option.map_eq_some_iff.mp hstep
      rw [System.check]
      split
      · exact hkeep hbooks rfl (hmask _)
      · exact hkeep hbooks rfl fun _ => id
    · cases hstep
  | drop w =>
    obtain ⟨f, -, rfl⟩ := Option.map_eq_some_iff.mp (Option.ite_none_right_eq_some.mp hstep).2
    apply hkeep (hbooks.drop w f) <;> rw [dropWait] <;> split
    · rfl
    · rfl
    · exact hmask _
    · exact fun _ => id
  | closeInterrupt task rep =>
    obtain ⟨-, hs⟩ := Option.ite_none_right_eq_some.mp hstep
    cases hs
    rw [closeInterrupt]
    split
    · exact hkeep hbooks rfl fun _ => id
    · exact hkeep hbooks rfl (hmask _)
  | wait task rep maxNs =>
    obtain ⟨-, hs⟩ := Option.ite_none_right_eq_some.mp hstep
    cases hs
    rw [wait]
    split <;> exact hkeep hbooks rfl fun _ => id
  | quiesceAll task =>
    obtain ⟨-, hs⟩ := Option.ite_none_right_eq_some.mp hstep
    cases hs
    exact hkeep hbooks rfl fun l hl => (congrArg (· || s.vectored task l) hl).trans rfl
  | enableInterrupts task address pin =>
    obtain ⟨-, hs⟩ := Option.ite_none_right_eq_some.mp hstep
    cases hs
    exact hkeep hbooks rfl fun _ => id
  | tick ns =>
    cases hstep
    exact hkeep hbooks rfl fun _ => id

end System

end Eo9.Kernel.Intx
