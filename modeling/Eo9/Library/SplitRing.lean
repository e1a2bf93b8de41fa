import Mathlib.Algebra.Group.Nat.Defs
import Mathlib.Tactic.Common

/-!
# Split rings

A driver publishes items in a ring of cells; a device fetches them in order and hands completions
back, in any order, in a second ring. All indices are free-running counters of 16 bits. As ghosts a
ring keeps what was published and completed since it was set up. While no more items are out than
the cells keep apart, the device fetches exactly what was published, and the driver takes exactly
the completions, one after the other and at every wrap of the indices.
-/

namespace Eo9.Library

variable {α β : Type}

/-- The cell that a counter selects. -/
def cell (size i : ℕ) : ℕ := i % 2 ^ 16 % size

/-- Counters that are less than `room` apart select different cells. -/
def Spaced (size room : ℕ) : Prop := ∀ i j, i < j → j < i + room → cell size i ≠ cell size j

/-- What the cells between two counters hold. -/
def window {γ : Type} (cells : List γ) (size lo hi : ℕ) : List (Option γ) :=
  (List.range ((hi + 2 ^ 16 - lo) % 2 ^ 16)).map fun i => cells[cell size (lo + i)]?

structure SplitRing (α β : Type) where
  size : ℕ
  avail : List α
  availIdx : ℕ
  used : List β
  usedIdx : ℕ
  /-- The driver's counters. -/
  availIndex : ℕ
  usedIndex : ℕ
  /-- The device's counter. -/
  seen : ℕ
  /-- The ghosts: what is in the cells but not yet published, and the history. -/
  staged : List α
  published : List α
  completed : List β
  fetched : ℕ
  consumed : ℕ

namespace SplitRing

variable (r : SplitRing α β)

def empty (size : ℕ) (avail : List α) (used : List β) : SplitRing α β :=
  ⟨size, avail, 0, used, 0, 0, 0, 0, [], [], [], 0, 0⟩

/-- The driver puts an item into the next cell. -/
def stage (a : α) : SplitRing α β :=
  { r with
    avail := r.avail.set (r.availIndex % r.size) a
    availIndex := (r.availIndex + 1) % 2 ^ 16
    staged := r.staged ++ [a] }

/-- The driver shows the device what it staged. -/
def publish : SplitRing α β :=
  { r with availIdx := r.availIndex, published := r.published ++ r.staged, staged := [] }

/-- The item that the device fetches next. -/
def offered : Option α := if r.seen = r.availIdx then none else r.avail[r.seen % r.size]?

def fetch : SplitRing α β := { r with seen := (r.seen + 1) % 2 ^ 16, fetched := r.fetched + 1 }

/-- The device hands a completion back. -/
def complete (b : β) : SplitRing α β :=
  { r with
    used := r.used.set (r.usedIdx % r.size) b
    usedIdx := (r.usedIdx + 1) % 2 ^ 16
    completed := r.completed ++ [b] }

/-- The completion that the driver takes next. -/
def delivered : Option β := r.used[r.usedIndex % r.size]?

def consume : SplitRing α β :=
  { r with usedIndex := (r.usedIndex + 1) % 2 ^ 16, consumed := r.consumed + 1 }

/-- The items in the ring that the device has not fetched. -/
def pending : List (Option α) := window r.avail r.size r.seen r.availIdx

/-- The completions in the ring that the driver has not taken. -/
def untaken : List (Option β) := window r.used r.size r.usedIndex r.usedIdx

end SplitRing

/-- The cells hold what was published and completed. -/
structure Kept (room : ℕ) (r : SplitRing α β) : Prop where
  pos : 0 < r.size
  spaced : Spaced r.size room
  small : room < 2 ^ 16
  avail_length : r.avail.length = r.size
  used_length : r.used.length = r.size
  availIndex : r.availIndex = (r.published ++ r.staged).length % 2 ^ 16
  availIdx : r.availIdx = r.published.length % 2 ^ 16
  usedIndex : r.usedIndex = r.consumed % 2 ^ 16
  usedIdx : r.usedIdx = r.completed.length % 2 ^ 16
  seen : r.seen = r.fetched % 2 ^ 16
  fetched_le : r.fetched ≤ r.published.length
  completed_le : r.completed.length ≤ r.fetched
  consumed_le : r.consumed ≤ r.completed.length
  out : (r.published ++ r.staged).length ≤ r.consumed + room
  avail_cells : ∀ i, r.fetched ≤ i → i < (r.published ++ r.staged).length →
    r.avail[cell r.size i]? = (r.published ++ r.staged)[i]?
  used_cells : ∀ i, r.consumed ≤ i → i < r.completed.length →
    r.used[cell r.size i]? = r.completed[i]?

theorem cell_lt {size : ℕ} (h : 0 < size) (i : ℕ) : cell size i < size := Nat.mod_lt _ h

theorem spaced_of_dvd {size room : ℕ} (hdvd : size ∣ 2 ^ 16) (hle : room ≤ size) :
    Spaced size room := by
  intro i j hij hj h
  rw [cell, cell, Nat.mod_mod_of_dvd _ hdvd, Nat.mod_mod_of_dvd _ hdvd] at h
  have hzero : (j - i) % size = 0 := Nat.sub_mod_eq_zero_of_mod_eq h.symm
  have hlt : j - i < size := by omega
  rw [Nat.mod_eq_of_lt hlt] at hzero
  omega

theorem spaced_one (size : ℕ) : Spaced size 1 := by
  intro i j hij hj
  omega

theorem Spaced.le {size room : ℕ} (h : Spaced size room) (hpos : 0 < size)
    (hsmall : room < 2 ^ 16) : room ≤ size := by
  by_contra hlt
  have hsize : size < 2 ^ 16 := by omega
  have hcell : cell size size = 0 := by
    rw [cell, Nat.mod_eq_of_lt hsize, Nat.mod_self]
  have hzero : cell size 0 = 0 := Nat.zero_mod size
  exact h 0 size hpos (by omega) (hzero.trans hcell.symm)

/-- Counters that are not too far apart show whether they differ. -/
theorem mod_eq_mod_iff {i j room : ℕ} (hij : i ≤ j) (hj : j ≤ i + room) (hroom : room < 2 ^ 16) :
    i % 2 ^ 16 = j % 2 ^ 16 ↔ i = j := by
  refine ⟨fun h => ?_, fun h => by rw [h]⟩
  have hzero : (j - i) % 2 ^ 16 = 0 := Nat.sub_mod_eq_zero_of_mod_eq h.symm
  rw [Nat.mod_eq_of_lt (by omega)] at hzero
  omega

/-- Cells that hold the items of a history from some point on. -/
theorem window_eq {γ : Type} {cells items : List γ} {size lo : ℕ} (hle : lo ≤ items.length)
    (hsmall : items.length < lo + 2 ^ 16)
    (hcells : ∀ i, lo ≤ i → i < items.length → cells[cell size i]? = items[i]?) :
    window cells size (lo % 2 ^ 16) (items.length % 2 ^ 16) = (items.drop lo).map some := by
  have hcount : (items.length % 2 ^ 16 + 2 ^ 16 - lo % 2 ^ 16) % 2 ^ 16 = items.length - lo := by
    omega
  rw [window, hcount]
  apply List.ext_getElem
  · rw [List.length_map, List.length_map, List.length_range, List.length_drop]
  · intro i hi hi'
    rw [List.length_map, List.length_range] at hi
    rw [List.getElem_map, List.getElem_map, List.getElem_range, List.getElem_drop, cell,
      Nat.mod_add_mod]
    exact (hcells (lo + i) (by omega) (by omega)).trans (List.getElem?_eq_getElem (by omega))

namespace Kept

variable {room : ℕ} {r : SplitRing α β} {a : α} {b : β}

theorem empty {size : ℕ} {avail : List α} {used : List β} (hpos : 0 < size)
    (hspaced : Spaced size room) (hsmall : room < 2 ^ 16) (havail : avail.length = size)
    (hused : used.length = size) : Kept room (SplitRing.empty size avail used) where
  pos := hpos
  spaced := hspaced
  small := hsmall
  avail_length := havail
  used_length := hused
  availIndex := rfl
  availIdx := rfl
  usedIndex := rfl
  usedIdx := rfl
  seen := rfl
  fetched_le := Nat.le_refl 0
  completed_le := Nat.le_refl 0
  consumed_le := Nat.le_refl 0
  out := Nat.zero_le _
  avail_cells := fun i _ h => absurd h (Nat.not_lt_zero i)
  used_cells := fun i _ h => absurd h (Nat.not_lt_zero i)

theorem stage (h : Kept room r) (hroom : (r.published ++ r.staged).length < r.consumed + room) :
    Kept room (r.stage a) := by
  have hlist : (r.stage a).published ++ (r.stage a).staged = (r.published ++ r.staged) ++ [a] :=
    (List.append_assoc _ _ _).symm
  have hlength : ((r.stage a).published ++ (r.stage a).staged).length =
      (r.published ++ r.staged).length + 1 := by
    rw [hlist, List.length_append, List.length_singleton]
  have hcell : r.availIndex % r.size = cell r.size (r.published ++ r.staged).length := by
    rw [cell, ← h.availIndex]
  exact {
    pos := h.pos
    spaced := h.spaced
    small := h.small
    avail_length := (List.length_set ..).trans h.avail_length
    used_length := h.used_length
    availIndex := by
      rw [hlength]
      show (r.availIndex + 1) % 2 ^ 16 = _
      rw [h.availIndex, Nat.mod_add_mod]
    availIdx := h.availIdx
    usedIndex := h.usedIndex
    usedIdx := h.usedIdx
    seen := h.seen
    fetched_le := h.fetched_le
    completed_le := h.completed_le
    consumed_le := h.consumed_le
    out := by
      rw [hlength]
      exact hroom
    avail_cells := by
      intro i hi hlt
      rw [hlength] at hlt
      rw [hlist]
      show (r.avail.set (r.availIndex % r.size) a)[cell r.size i]? = _
      rw [hcell]
      by_cases hlast : i = (r.published ++ r.staged).length
      · subst hlast
        rw [List.getElem?_set_self (by rw [h.avail_length]; exact cell_lt h.pos _),
          List.getElem?_concat_length]
      · have hcompleted := h.completed_le
        have hconsumed := h.consumed_le
        have hi' : r.fetched ≤ i := hi
        have hne := h.spaced i (r.published ++ r.staged).length (by omega) (by omega)
        rw [List.getElem?_set_ne hne.symm]
        exact (h.avail_cells i hi (by omega)).trans (List.getElem?_append_left (by omega)).symm
    used_cells := h.used_cells }

theorem publish (h : Kept room r) : Kept room r.publish := by
  have hlist : r.publish.published ++ r.publish.staged = r.published ++ r.staged :=
    List.append_nil _
  exact {
    pos := h.pos
    spaced := h.spaced
    small := h.small
    avail_length := h.avail_length
    used_length := h.used_length
    availIndex := by
      rw [hlist]
      exact h.availIndex
    availIdx := h.availIndex
    usedIndex := h.usedIndex
    usedIdx := h.usedIdx
    seen := h.seen
    fetched_le := by
      apply Nat.le_trans h.fetched_le
      show r.published.length ≤ (r.published ++ r.staged).length
      rw [List.length_append]
      exact Nat.le_add_right _ _
    completed_le := h.completed_le
    consumed_le := h.consumed_le
    out := by
      rw [hlist]
      exact h.out
    avail_cells := by
      rw [hlist]
      exact h.avail_cells
    used_cells := h.used_cells }

/-- What the device is offered is the next item that was published. -/
theorem offered_eq_some (h : Kept room r) (hoffered : r.offered = some a) :
    r.published[r.fetched]? = some a := by
  rw [SplitRing.offered] at hoffered
  split at hoffered
  · cases hoffered
  · next hne =>
    have hlt : r.fetched < r.published.length := by
      apply Nat.lt_of_le_of_ne h.fetched_le
      intro heq
      rw [h.seen, h.availIdx, heq] at hne
      exact hne rfl
    have hlength : (r.published ++ r.staged).length = r.published.length + r.staged.length :=
      List.length_append
    have hcells := h.avail_cells r.fetched Nat.le.refl (by omega)
    rw [List.getElem?_append_left hlt, cell, ← h.seen, hoffered] at hcells
    exact hcells.symm

theorem fetch (h : Kept room r) (hlt : r.fetched < r.published.length) : Kept room r.fetch where
  pos := h.pos
  spaced := h.spaced
  small := h.small
  avail_length := h.avail_length
  used_length := h.used_length
  availIndex := h.availIndex
  availIdx := h.availIdx
  usedIndex := h.usedIndex
  usedIdx := h.usedIdx
  seen := by
    show (r.seen + 1) % 2 ^ 16 = (r.fetched + 1) % 2 ^ 16
    rw [h.seen, Nat.mod_add_mod]
  fetched_le := hlt
  completed_le := Nat.le_trans h.completed_le (Nat.le_succ _)
  consumed_le := h.consumed_le
  out := h.out
  avail_cells := fun i hi => h.avail_cells i (Nat.le_trans (Nat.le_succ _) hi)
  used_cells := h.used_cells

theorem complete (h : Kept room r) (hlt : r.completed.length < r.fetched) :
    Kept room (r.complete b) := by
  have hlength : (r.complete b).completed.length = r.completed.length + 1 := by
    show (r.completed ++ [b]).length = _
    rw [List.length_append, List.length_singleton]
  have hcell : r.usedIdx % r.size = cell r.size r.completed.length := by
    rw [cell, ← h.usedIdx]
  exact {
    pos := h.pos
    spaced := h.spaced
    small := h.small
    avail_length := h.avail_length
    used_length := (List.length_set ..).trans h.used_length
    availIndex := h.availIndex
    availIdx := h.availIdx
    usedIndex := h.usedIndex
    usedIdx := by
      rw [hlength]
      show (r.usedIdx + 1) % 2 ^ 16 = _
      rw [h.usedIdx, Nat.mod_add_mod]
    seen := h.seen
    fetched_le := h.fetched_le
    completed_le := by
      rw [hlength]
      exact hlt
    consumed_le := by
      rw [hlength]
      exact Nat.le_trans h.consumed_le (Nat.le_succ _)
    out := h.out
    avail_cells := h.avail_cells
    used_cells := by
      intro i hi hi'
      rw [hlength] at hi'
      show (r.used.set (r.usedIdx % r.size) b)[cell r.size i]? = (r.completed ++ [b])[i]?
      rw [hcell]
      by_cases hlast : i = r.completed.length
      · subst hlast
        rw [List.getElem?_set_self (by rw [h.used_length]; exact cell_lt h.pos _),
          List.getElem?_concat_length]
      · have hfetched := h.fetched_le
        have hout := h.out
        have hlist : (r.published ++ r.staged).length = r.published.length + r.staged.length :=
          List.length_append
        have hi'' : r.consumed ≤ i := hi
        have hne := h.spaced i r.completed.length (by omega) (by omega)
        rw [List.getElem?_set_ne hne.symm]
        exact (h.used_cells i hi (by omega)).trans (List.getElem?_append_left (by omega)).symm }

/-- The driver sees whether there is a completion that it has not taken. -/
theorem usedIdx_ne_iff (h : Kept room r) :
    r.usedIdx ≠ r.usedIndex ↔ r.consumed < r.completed.length := by
  have hfetched := h.fetched_le
  have hcompleted := h.completed_le
  have hconsumed := h.consumed_le
  have hout := h.out
  have hlist : (r.published ++ r.staged).length = r.published.length + r.staged.length :=
    List.length_append
  have hsame := mod_eq_mod_iff hconsumed (by omega) h.small
  rw [h.usedIdx, h.usedIndex, ne_comm, ne_eq, hsame]
  omega

/-- The driver takes the completions in their order. -/
theorem delivered_eq (h : Kept room r) (hlt : r.consumed < r.completed.length) :
    r.delivered = r.completed[r.consumed]? := by
  rw [SplitRing.delivered, h.usedIndex]
  exact h.used_cells r.consumed Nat.le.refl hlt

/-- What the device has not fetched stands in the ring. -/
theorem pending_eq (h : Kept room r) (hstaged : r.staged = []) :
    r.pending = (r.published.drop r.fetched).map some := by
  have hout := h.out
  have hcells := h.avail_cells
  have hcompleted := h.completed_le
  have hconsumed := h.consumed_le
  have hsmall := h.small
  rw [hstaged, List.append_nil] at hout hcells
  rw [SplitRing.pending, h.seen, h.availIdx]
  exact window_eq h.fetched_le (by omega) hcells

/-- What the driver has not taken stands in the ring. -/
theorem untaken_eq (h : Kept room r) : r.untaken = (r.completed.drop r.consumed).map some := by
  have hout := h.out
  have hfetched := h.fetched_le
  have hcompleted := h.completed_le
  have hsmall := h.small
  have hlist : (r.published ++ r.staged).length = r.published.length + r.staged.length :=
    List.length_append
  rw [SplitRing.untaken, h.usedIndex, h.usedIdx]
  exact window_eq h.consumed_le (by omega) h.used_cells

theorem consume (h : Kept room r) (hlt : r.consumed < r.completed.length) :
    Kept room r.consume where
  pos := h.pos
  spaced := h.spaced
  small := h.small
  avail_length := h.avail_length
  used_length := h.used_length
  availIndex := h.availIndex
  availIdx := h.availIdx
  usedIndex := by
    show (r.usedIndex + 1) % 2 ^ 16 = (r.consumed + 1) % 2 ^ 16
    rw [h.usedIndex, Nat.mod_add_mod]
  usedIdx := h.usedIdx
  seen := h.seen
  fetched_le := h.fetched_le
  completed_le := h.completed_le
  consumed_le := hlt
  out := Nat.le_trans h.out (Nat.add_le_add_right (Nat.le_succ _) _)
  avail_cells := h.avail_cells
  used_cells := fun i hi => h.used_cells i (Nat.le_trans (Nat.le_succ _) hi)

end Kept

end Eo9.Library
