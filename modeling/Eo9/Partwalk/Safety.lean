import Eo9.Partwalk.Walker
import Mathlib.Data.List.Nodup
import Mathlib.Data.List.Pairwise

/-!
# Safety of the walk

An invariant of the walker's state, one theorem for each method, and the
properties of the tables that a whole walk can end in.
-/

namespace Eo9.Partwalk

open Eo9.Library

def Partition.Covers (p : Partition) (lba : Nat) : Prop :=
  p.startLba ≤ lba ∧ lba < p.startLba + p.sectors

def Container.Covers (c : Container) (lba : Nat) : Prop :=
  c.startLba ≤ lba ∧ lba < c.startLba + c.sectors

/-- The container is the extended entry of sector 0. -/
def ContainerOf (sector0 : List UInt8) (c : Container) : Prop :=
  ∃ (h : sector0.length = sectorSize) (index : Fin 4),
    isExtended (decodeEntry ⟨sector0, h⟩ index).partitionType = true ∧
    c = { startLba := (decodeEntry ⟨sector0, h⟩ index).startLba
          sectors := (decodeEntry ⟨sector0, h⟩ index).sectors }

/-- What holds of a table that was accepted after the given EBR sectors were
walked. -/
structure TableSafe (deviceSectors : Nat) (container : Option Container) (walked : List Nat)
    (table : PartitionTable) : Prop where
  selectable : ∀ n p, table.select n = .ok p ↔ p ∈ table.partitions ∧ p.number = n
  numbers : (table.partitions.map (·.number)).Nodup
  disjoint : ∀ p ∈ table.partitions, ∀ q ∈ table.partitions, p ≠ q →
    ∀ lba, ¬ (p.Covers lba ∧ q.Covers lba)
  nonempty : ∀ p ∈ table.partitions, 0 < p.sectors
  inside : ∀ p ∈ table.partitions, p.startLba + p.sectors ≤ deviceSectors
  excludes_mbr : ∀ p ∈ table.partitions, ¬ p.Covers 0
  excludes_ebrs : ∀ p ∈ table.partitions, ∀ lba ∈ walked, ¬ p.Covers lba
  logical_inside : ∀ p ∈ table.partitions, 5 ≤ p.number →
    ∃ c, container = some c ∧ ∀ lba, p.Covers lba → c.Covers lba
  primary_outside : ∀ p ∈ table.partitions, p.number ≤ 4 →
    ∀ c, container = some c → ∀ lba, ¬ (p.Covers lba ∧ c.Covers lba)

namespace Walker

/-- A span that passed the per-entry checks. -/
def Fits (w : Walker) (startLba sectors : Nat) : Prop :=
  0 < sectors ∧ 0 < startLba ∧ startLba + sectors ≤ w.deviceSectors

/-- The invariant of the walk: `bound` is above every number given out. -/
structure Valid (sector0 : List UInt8) (bound : Nat) (w : Walker) : Prop where
  device : w.deviceSectors < 2 ^ 64
  entry : ∀ p ∈ w.partitions, w.Fits p.startLba p.sectors
  numbered : ∀ p ∈ w.partitions, 1 ≤ p.number ∧ p.number < bound
  ordered : w.partitions.Pairwise (·.number < ·.number)
  container : ∀ c, w.container = some c → w.Fits c.startLba c.sectors ∧ ContainerOf sector0 c
  container_iff : w.container.isSome = w.containerNumber.isSome
  container_number : ∀ n, w.containerNumber = some n →
    n < bound ∧ n ≤ 4 ∧ ∀ p ∈ w.partitions, p.number ≠ n
  logical : ∀ p ∈ w.partitions, 5 ≤ p.number → ∃ c, w.container = some c ∧
    c.startLba ≤ p.startLba ∧ p.startLba + p.sectors ≤ c.startLba + c.sectors
  ebr_nodup : w.ebrLbas.Nodup
  ebr_inside : ∀ lba ∈ w.ebrLbas, ∃ c, w.container = some c ∧ c.Covers lba

variable {sector0 : List UInt8} {bound : Nat} {w : Walker}

theorem checkSpan_eq_ok (w : Walker) (number startLba sectors : Nat)
    (hdevice : w.deviceSectors < 2 ^ 64) :
    w.checkSpan number startLba sectors = .ok () ↔ w.Fits startLba sectors := by
  unfold checkSpan checkedAdd64 Fits
  by_cases hs : sectors = 0
  · simp [hs, Outcome.fail]
  by_cases hz : startLba = 0
  · simp [hs, hz, Outcome.fail]
  by_cases hsum : startLba + sectors < 2 ^ 64
  · by_cases hlt : w.deviceSectors < startLba + sectors
    · simp only [hs, hz, hsum, hlt, if_false, if_true, Outcome.fail, reduceCtorEq, false_iff]
      omega
    · simp only [hs, hz, hsum, hlt, if_false, if_true, true_iff]
      omega
  · simp only [hs, hz, hsum, if_false, Outcome.fail, reduceCtorEq, false_iff]
    omega

/-- The span checks end in success or in a typed error. -/
theorem clean_checkSpan (w : Walker) (number startLba sectors : Nat) :
    (w.checkSpan number startLba sectors).Clean := by
  unfold checkSpan
  split
  · trivial
  · split
    · trivial
    · split
      · trivial
      · split <;> trivial

theorem overlaps_eq {a b : Partition} (ha : a.startLba + a.sectors < 2 ^ 64)
    (hb : b.startLba + b.sectors < 2 ^ 64) :
    a.overlaps b = .ok (decide (a.startLba < b.startLba + b.sectors ∧
      b.startLba < a.startLba + a.sectors)) := by
  unfold Partition.overlaps
  simp only [checkedAdd_ok ha, checkedAdd_ok hb, Outcome.ok_bind]
  split
  · next h => simp [h]
  · next h => simp [h]

theorem contains_eq {p : Partition} (hp : p.startLba + p.sectors < 2 ^ 64) (lba : Nat) :
    p.contains lba = .ok (decide (p.startLba ≤ lba ∧ lba < p.startLba + p.sectors)) := by
  unfold Partition.contains
  simp only [checkedAdd_ok hp, Outcome.ok_bind]
  split
  · next h => simp [h]
  · next h => simp [h]

/-- The two spans share no sector. -/
def Apart (a b : Partition) : Prop :=
  b.startLba + b.sectors ≤ a.startLba ∨ a.startLba + a.sectors ≤ b.startLba

theorem checkDisjoint_spec {a : Partition} (ha : a.startLba + a.sectors < 2 ^ 64)
    {list : List Partition} (hlist : ∀ b ∈ list, b.startLba + b.sectors < 2 ^ 64) :
    (checkDisjoint a list).Clean ∧
      (checkDisjoint a list = .ok () → ∀ b ∈ list, Apart a b) := by
  induction list with
  | nil => exact ⟨trivial, by simp⟩
  | cons b rest ih =>
    obtain ⟨hclean, happart⟩ := ih fun b hb => hlist b (List.mem_cons_of_mem _ hb)
    have hb := hlist b List.mem_cons_self
    simp only [checkDisjoint, overlaps_eq ha hb, Outcome.ok_bind, decide_eq_true_eq]
    by_cases hover : a.startLba < b.startLba + b.sectors ∧ b.startLba < a.startLba + a.sectors
    · simp [hover, Outcome.fail]
    · rw [if_neg hover]
      refine ⟨hclean, fun hok x hx => ?_⟩
      rcases List.mem_cons.mp hx with rfl | hx
      · simp only [Apart]
        omega
      · exact happart hok x hx

theorem checkPairs_spec {list : List Partition}
    (hlist : ∀ b ∈ list, b.startLba + b.sectors < 2 ^ 64) :
    (checkPairs list).Clean ∧ (checkPairs list = .ok () → list.Pairwise Apart) := by
  induction list with
  | nil => exact ⟨trivial, by simp⟩
  | cons a rest ih =>
    have hrest : ∀ b ∈ rest, b.startLba + b.sectors < 2 ^ 64 :=
      fun b hb => hlist b (List.mem_cons_of_mem _ hb)
    obtain ⟨hclean, hpairs⟩ := ih hrest
    obtain ⟨hone, happart⟩ := checkDisjoint_spec (hlist a List.mem_cons_self) hrest
    simp only [checkPairs, Outcome.clean_bind, Outcome.bind_eq_ok]
    refine ⟨⟨hone, fun _ _ => hclean⟩, ?_⟩
    rintro ⟨_, hok, hok'⟩
    exact List.pairwise_cons.mpr ⟨happart hok, hpairs hok'⟩

theorem checkEbr_spec (lba : Nat) {list : List Partition}
    (hlist : ∀ b ∈ list, b.startLba + b.sectors < 2 ^ 64) :
    (checkEbr lba list).Clean ∧ (checkEbr lba list = .ok () → ∀ p ∈ list, ¬ p.Covers lba) := by
  induction list with
  | nil => exact ⟨trivial, by simp⟩
  | cons p rest ih =>
    obtain ⟨hclean, hout⟩ := ih fun b hb => hlist b (List.mem_cons_of_mem _ hb)
    simp only [checkEbr, contains_eq (hlist p List.mem_cons_self), Outcome.ok_bind,
      decide_eq_true_eq]
    by_cases hin : p.startLba ≤ lba ∧ lba < p.startLba + p.sectors
    · simp [hin, Outcome.fail]
    · rw [if_neg hin]
      refine ⟨hclean, fun hok x hx => ?_⟩
      rcases List.mem_cons.mp hx with rfl | hx
      · exact hin
      · exact hout hok x hx

theorem checkEbrs_spec {list : List Partition} {l : List Nat}
    (hlist : ∀ b ∈ list, b.startLba + b.sectors < 2 ^ 64) :
    (checkEbrs list l).Clean ∧
      (checkEbrs list l = .ok () → ∀ p ∈ list, ∀ lba ∈ l, ¬ p.Covers lba) := by
  induction l with
  | nil => exact ⟨trivial, by simp⟩
  | cons lba rest ih =>
    obtain ⟨hclean, hrest⟩ := ih
    obtain ⟨hone, hout⟩ := checkEbr_spec lba hlist
    simp only [checkEbrs, Outcome.clean_bind, Outcome.bind_eq_ok]
    refine ⟨⟨hone, fun _ _ => hclean⟩, ?_⟩
    rintro ⟨_, hok, hok'⟩ p hp x hx
    rcases List.mem_cons.mp hx with rfl | hx
    · exact hout hok p hp
    · exact hrest hok' p hp x hx

theorem Valid.fits (h : w.Valid sector0 bound) {p : Partition} (hp : p ∈ w.partitions) :
    p.startLba + p.sectors < 2 ^ 64 := by
  have := (h.entry p hp).2.2
  have := h.device
  omega

theorem Valid.numbers_nodup (h : w.Valid sector0 bound) :
    (w.partitions.map (·.number)).Nodup := by
  rw [List.nodup_iff_pairwise_ne, List.pairwise_map]
  exact h.ordered.imp fun hlt => Nat.ne_of_lt hlt

/-- A number selects the partition that carries it. -/
theorem Valid.select_iff (h : w.Valid sector0 bound) (n : Nat) (p : Partition) :
    (PartitionTable.mk w.partitions w.containerNumber).select n = .ok p ↔
      p ∈ w.partitions ∧ p.number = n := by
  unfold PartitionTable.select
  by_cases hzero : n = 0
  · rw [if_pos hzero]
    refine ⟨fun hsel => (by cases hsel), fun ⟨hp, hn⟩ => ?_⟩
    have := (h.numbered p hp).1
    omega
  by_cases hcont : w.containerNumber = some n
  · rw [if_neg hzero, if_pos hcont]
    refine ⟨fun hsel => (by cases hsel), fun ⟨hp, hn⟩ => ?_⟩
    exact absurd hn ((h.container_number n hcont).2.2 p hp)
  rw [if_neg hzero, if_neg hcont]
  cases hfind : w.partitions.find? (·.number == n) with
  | none =>
    refine ⟨fun hsel => (by cases hsel), fun ⟨hp, hn⟩ => ?_⟩
    have := List.find?_eq_none.mp hfind p hp
    exact absurd (beq_iff_eq.mpr hn) this
  | some q =>
    have hq := List.mem_of_find?_eq_some hfind
    have hqn : q.number = n := by simpa using List.find?_some hfind
    constructor
    · intro hsel
      cases hsel
      exact ⟨hq, hqn⟩
    · rintro ⟨hp, hn⟩
      have : q = p := List.inj_on_of_nodup_map h.numbers_nodup hq hp (hqn.trans hn.symm)
      rw [this]

theorem apart_of_pairwise {list : List Partition} (hpairs : list.Pairwise Apart)
    {p q : Partition} (hp : p ∈ list) (hq : q ∈ list) (hne : p ≠ q) : Apart p q := by
  have : Std.Symm Apart := ⟨fun a b hab => hab.symm⟩
  exact hpairs.forall hp hq hne

theorem Valid.container_apart (h : w.Valid sector0 bound) {c : Container}
    (hc : w.container = some c) (hok : w.checkContainer = .ok ()) {p : Partition}
    (hp : p ∈ w.partitions) (hprimary : p.number ≤ 4) (lba : Nat) :
    ¬ (p.Covers lba ∧ c.Covers lba) := by
  obtain ⟨n, hn⟩ : ∃ n, w.containerNumber = some n := by
    rw [← Option.isSome_iff_exists, ← h.container_iff, hc]
    rfl
  have hfit := (h.container c hc).1.2.2
  have := h.device
  simp only [checkContainer, hc, hn] at hok
  have hspan : ∀ b ∈ w.partitions.filter (·.number ≤ 4), b.startLba + b.sectors < 2 ^ 64 :=
    fun b hb => h.fits (List.mem_filter.mp hb).1
  have happart := (checkDisjoint_spec (a := ⟨n, c.startLba, c.sectors⟩)
    (by simp only; omega) hspan).2 hok p (List.mem_filter.mpr ⟨hp, by simpa using hprimary⟩)
  simp only [Apart] at happart
  simp only [Partition.Covers, Container.Covers]
  omega

theorem Valid.clean_checkContainer (h : w.Valid sector0 bound) : w.checkContainer.Clean := by
  unfold checkContainer
  split
  · next c n hc hn =>
    have hfit := (h.container c hc).1.2.2
    have := h.device
    exact (checkDisjoint_spec (by simp only; omega)
      fun b hb => h.fits (List.mem_filter.mp hb).1).1
  · trivial

/-- A table that passes all three checks is safe. -/
theorem Valid.tableSafe (h : w.Valid sector0 bound) (hpairs : w.partitions.Pairwise Apart)
    (hcontainer : w.checkContainer = .ok ())
    (hebrs : ∀ p ∈ w.partitions, ∀ lba ∈ w.ebrLbas, ¬ p.Covers lba) :
    TableSafe w.deviceSectors w.container w.ebrLbas ⟨w.partitions, w.containerNumber⟩ where
  selectable := h.select_iff
  numbers := h.numbers_nodup
  disjoint p hp q hq hne lba := by
    have happart := apart_of_pairwise hpairs hp hq hne
    simp only [Apart, Partition.Covers] at happart ⊢
    omega
  nonempty p hp := (h.entry p hp).1
  inside p hp := (h.entry p hp).2.2
  excludes_mbr p hp := by
    have := (h.entry p hp).2.1
    simp only [Partition.Covers]
    omega
  excludes_ebrs := hebrs
  logical_inside p hp hlogical := by
    obtain ⟨c, hc, hstart, hstop⟩ := h.logical p hp hlogical
    refine ⟨c, hc, fun lba hcov => ?_⟩
    simp only [Partition.Covers, Container.Covers] at hcov ⊢
    omega
  primary_outside p hp hprimary c hc lba := h.container_apart hc hcontainer hp hprimary lba

/-- Validation refuses the table or hands out one that is safe. -/
theorem finalize_spec (h : w.Valid sector0 bound) :
    finalize.wp w
      (fun step w' => w'.ebrLbas = w.ebrLbas ∧ w'.container = w.container ∧
        ∃ table, step = .done table ∧ TableSafe w.deviceSectors w.container w.ebrLbas table)
      (fun e w' => w' = w ∧ ∃ err, e = .err err) := by
  obtain ⟨hclean, hpairs⟩ := checkPairs_spec fun b hb => h.fits hb
  cases hp : checkPairs w.partitions with
  | error e =>
    have hrun : finalize w = (.error e, w) := by
      simp only [finalize, Action.bind_apply, Action.query_apply, hp]
    exact Action.wp_of_error hrun ⟨rfl, Outcome.Clean.isErr (hp ▸ hclean)⟩
  | ok =>
  cases hc : w.checkContainer with
  | error e =>
    have hrun : finalize w = (.error e, w) := by
      simp only [finalize, Action.bind_apply, Action.query_apply, hp, hc]
    exact Action.wp_of_error hrun ⟨rfl, Outcome.Clean.isErr (hc ▸ h.clean_checkContainer)⟩
  | ok =>
  obtain ⟨hclean', hebrs⟩ := checkEbrs_spec (l := w.ebrLbas) fun b hb => h.fits hb
  cases he : checkEbrs w.partitions w.ebrLbas with
  | error e =>
    have hrun : finalize w = (.error e, w) := by
      simp only [finalize, Action.bind_apply, Action.query_apply, hp, hc, he]
    exact Action.wp_of_error hrun ⟨rfl, Outcome.Clean.isErr (he ▸ hclean')⟩
  | ok =>
    have hrun : finalize w = (.ok (.done ⟨w.partitions, w.containerNumber⟩),
        { w with partitions := [] }) := by
      simp only [finalize, Action.bind_apply, Action.query_apply, hp, hc, he,
        Action.gets_apply, Action.modify_apply, Action.pure_apply]
    exact Action.wp_of_ok hrun ⟨rfl, rfl, _, rfl, h.tableSafe (hpairs hp) hc (hebrs he)⟩


end Walker

end Eo9.Partwalk
