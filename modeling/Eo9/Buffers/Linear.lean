import Eo9.Buffers.Traffic

/-!
# Linear buffers

Under every interleaving the handles of a task's table are linear. Those of the kernel's table
are as long as nothing is put into the slot that an operation in flight left empty, no operation
is severed from bytes, and no bytes are in flight.
-/

namespace Eo9.Buffers

open Eo9.Library

variable {o : Option Bytes} {parties before after : List Party} {rep len : ℕ}

namespace Task

def size : Tenancy → ℕ
  | .held bytes => bytes.length
  | .inFlight reserved => reserved

def cell : Option BufferSlot → Cell
  | none => .absent
  | some none => .free
  | some (some (.held bytes)) => .held bytes
  | some (some (.inFlight reserved)) => .lent reserved

def view (t : BufferTable) (rep : ℕ) : Cell := cell t.slots[rep]?

/-- The total is that of the slots that are not free. -/
def Balanced (t : BufferTable) : Prop := t.totalBytes = Slots.total size t.slots

def inUse (w : World BufferTable) : ℕ := Slots.total size w.table.slots

theorem view_held {t : BufferTable} {bytes : Bytes} :
    view t rep = .held bytes ↔ t.slots[rep]? = some (some (.held bytes)) := by
  rw [view]
  constructor
  · intro h
    cases hslot : t.slots[rep]? with
    | none => rw [hslot] at h; cases h
    | some slot =>
      rw [hslot] at h
      cases slot with
      | none => cases h
      | some tenancy =>
        cases tenancy with
        | held bytes' => cases h; rfl
        | inFlight reserved => cases h
  · intro h
    rw [h]
    rfl

theorem view_lent {t : BufferTable} {reserved : ℕ} :
    view t rep = .lent reserved ↔ t.slots[rep]? = some (some (.inFlight reserved)) := by
  rw [view]
  constructor
  · intro h
    cases hslot : t.slots[rep]? with
    | none => rw [hslot] at h; cases h
    | some slot =>
      rw [hslot] at h
      cases slot with
      | none => cases h
      | some tenancy =>
        cases tenancy with
        | held bytes' => cases h
        | inFlight reserved' => cases h; rfl
  · intro h
    rw [h]
    rfl

/-- A slot that is set, with the total moved by the difference. -/
theorem changed_set {t : BufferTable} {slot slot' : BufferSlot} {total : ℕ}
    (h : t.slots[rep]? = some slot)
    (htotal : t.totalBytes = Slots.total size t.slots →
      total + Slots.extent size slot = t.totalBytes + Slots.extent size slot') :
    Changed view Balanced t ⟨t.slots.set rep slot', total⟩ rep (cell (some slot')) where
  here := by rw [view, Slots.getElem?_set_of_getElem? h]
  elsewhere j hj := by rw [view, view, List.getElem?_set_ne (Ne.symm hj)]
  balanced hbalanced := by
    have hset := Slots.total_set size slot' h
    have hmoved := htotal hbalanced
    rw [Balanced] at hbalanced ⊢
    dsimp only
    omega

theorem alloc_cases (t : BufferTable) (len : ℕ) :
    (∃ e, t.alloc len = (.error e, t)) ∨
      ∃ r t', t.alloc len = (r, t') ∧ (∀ rep, r = .ok rep → rep = Slots.firstFree t.slots) ∧
        Changed view Balanced t t' (Slots.firstFree t.slots) (.held (List.replicate len 0)) := by
  rw [BufferTable.alloc]
  split
  · exact .inl ⟨_, rfl⟩
  split
  · exact .inl ⟨_, rfl⟩
  right
  refine ⟨_, _, rfl, ?_, ?_⟩
  · intro rep h
    split at h
    · cases h
      exact Slots.insert_fst
    · cases h
  · constructor
    · rw [view_held]
      exact Slots.getElem?_insert_self
    · intro j hj
      rw [view, view]
      dsimp only
      rw [Slots.getElem?_insert_of_ne hj]
    · intro hbalanced
      rw [Balanced] at hbalanced ⊢
      dsimp only
      rw [Slots.total_insert, hbalanced, size, List.length_replicate]

theorem lawful : Lawful ops view .lent (fun t => Slots.firstFree t.slots) Balanced where
  bytes {t rep bs} h := by
    change t.bytes rep = _
    rw [BufferTable.bytes, BufferTable.slot, view_held.mp h]
  alloc := alloc_cases
  put {t rep old bs} h hlen := changed_set (view_held.mp h) fun _ => by
    simp only [Slots.extent, Option.map_some, Option.getD_some, size]
    omega
  take {t rep bs} h := by
    refine ⟨⟨t.slots.set rep (some (.inFlight bs.length)), t.totalBytes⟩, ?_, ?_⟩
    · change t.take rep = _
      rw [BufferTable.take, BufferTable.slot, view_held.mp h]
    · exact changed_set (view_held.mp h) fun _ => rfl
  restore {t rep n} bs h := by
    change Changed view Balanced t (t.restore rep bs) rep _
    rw [BufferTable.restore, view_lent.mp h]
    refine changed_set (view_lent.mp h) fun hbalanced => ?_
    have hset := Slots.total_set size none (view_lent.mp h)
    simp only [Slots.extent, Option.map_some, Option.getD_some, size, Option.map_none,
      Option.getD_none] at hset ⊢
    omega
  free {t rep bs} h := by
    change Changed view Balanced t (t.free rep) rep _
    rw [BufferTable.free, view_held.mp h]
    refine changed_set (view_held.mp h) fun hbalanced => ?_
    have hset := Slots.total_set size none (view_held.mp h)
    simp only [Slots.extent, Option.map_some, Option.getD_some, size, Option.map_none,
      Option.getD_none, BufferTable.released] at hset ⊢
    omega

/-- The first free slot is no handle's. -/
theorem fresh {w : World BufferTable} (h : Kept view .lent Balanced w) :
    Slots.firstFree w.table.slots ∉ w.parties.map Party.rep := by
  intro hmem
  obtain ⟨p, hp, hrep⟩ := List.mem_map.mp hmem
  have hcell := h.cell p hp
  rw [hrep, Party.cell] at hcell
  cases hmoved : p.moved with
  | none =>
    rw [hmoved] at hcell
    exact Slots.getElem?_firstFree (view_held.mp hcell)
  | some moved =>
    rw [hmoved] at hcell
    exact Slots.getElem?_firstFree (view_lent.mp hcell)

theorem kept_run {trace : List Label} {w : World BufferTable}
    (run : Run (Step ops) ⟨empty, []⟩ trace w) : Kept view .lent Balanced w :=
  run.invariant (fun _ _ _ h hstep => lawful.step h hstep fun _ _ => fresh h)
    ⟨by simp, by simp, by simp, rfl⟩

/-- What is kept makes the handles linear. -/
theorem linear_of_kept {w : World BufferTable} (h : Kept view .lent Balanced w) :
    Linear ops BufferTable.totalBytes inUse w where
  contents p hp hlive := by
    have hcell := h.cell p hp
    rw [Party.cell, hlive] at hcell
    exact lawful.bytes hcell
  distinct := h.distinct
  returned := h.returned
  total := h.balanced
  caps len rep t' halloc := by
    have hbalanced : w.table.totalBytes = inUse w := h.balanced
    have halloc : w.table.alloc len = (.ok rep, t') := halloc
    rw [BufferTable.alloc] at halloc
    split_ifs at halloc with hcap hbudget
    all_goals
      first
        | cases halloc
        | omega

end Task

namespace Kernel

def cell : Option (Option Bytes) → Cell
  | none => .absent
  | some none => .free
  | some (some bytes) => .held bytes

def view (t : BufferTable) (rep : ℕ) : Cell := cell t.slots[rep]?

/-- A slot whose bytes are taken is as good as free. -/
def lentAs (_ : ℕ) : Cell := .free

def Balanced (t : BufferTable) : Prop := t.totalBytes = Slots.total List.length t.slots

/-- The bytes that operations in flight have. -/
def lentBytes (parties : List Party) : ℕ :=
  (parties.map fun p => (p.moved.map List.length).getD 0).sum

def inUse (w : World BufferTable) : ℕ :=
  Slots.total List.length w.table.slots + lentBytes w.parties

theorem view_held {t : BufferTable} {bytes : Bytes} :
    view t rep = .held bytes ↔ t.slots[rep]? = some (some bytes) := by
  rw [view]
  constructor
  · intro h
    cases hslot : t.slots[rep]? with
    | none => rw [hslot] at h; cases h
    | some slot =>
      rw [hslot] at h
      cases slot with
      | none => cases h
      | some bytes' => cases h; rfl
  · intro h
    rw [h]
    rfl

theorem view_free {t : BufferTable} : view t rep = .free ↔ t.slots[rep]? = some none := by
  rw [view]
  constructor
  · intro h
    cases hslot : t.slots[rep]? with
    | none => rw [hslot] at h; cases h
    | some slot =>
      rw [hslot] at h
      cases slot with
      | none => rfl
      | some bytes => cases h
  · intro h
    rw [h]
    rfl

theorem changed_set {t : BufferTable} {slot slot' : Option Bytes} {total : ℕ}
    (h : t.slots[rep]? = some slot)
    (htotal : t.totalBytes = Slots.total List.length t.slots →
      total + Slots.extent List.length slot = t.totalBytes + Slots.extent List.length slot') :
    Changed view Balanced t ⟨t.slots.set rep slot', total⟩ rep (cell (some slot')) where
  here := by rw [view, Slots.getElem?_set_of_getElem? h]
  elsewhere j hj := by rw [view, view, List.getElem?_set_ne (Ne.symm hj)]
  balanced hbalanced := by
    have hset := Slots.total_set List.length slot' h
    have hmoved := htotal hbalanced
    rw [Balanced] at hbalanced ⊢
    dsimp only
    omega

/-- Bytes put into the first free slot. -/
theorem changed_insert {t : BufferTable} (bytes : Bytes) :
    Changed view Balanced t ⟨(Slots.insert bytes t.slots).2, t.totalBytes + bytes.length⟩
      (Slots.firstFree t.slots) (.held bytes) where
  here := view_held.mpr Slots.getElem?_insert_self
  elsewhere j hj := by
    rw [view, view]
    dsimp only
    rw [Slots.getElem?_insert_of_ne hj]
  balanced hbalanced := by
    rw [Balanced] at hbalanced ⊢
    dsimp only
    rw [Slots.total_insert, hbalanced]

theorem alloc_cases (t : BufferTable) (len : ℕ) :
    (∃ e, t.alloc len = (.error e, t)) ∨
      ∃ r t', t.alloc len = (r, t') ∧ (∀ rep, r = .ok rep → rep = Slots.firstFree t.slots) ∧
        Changed view Balanced t t' (Slots.firstFree t.slots) (.held (List.replicate len 0)) := by
  rw [BufferTable.alloc]
  split
  · exact .inl ⟨_, rfl⟩
  split
  · exact .inl ⟨_, rfl⟩
  right
  refine ⟨_, _, rfl, ?_, ?_⟩
  · intro rep h
    split at h
    · cases h
      exact Slots.insert_fst
    · cases h
  · have hc := changed_insert (t := t) (List.replicate len 0)
    rwa [List.length_replicate] at hc

/-- The bytes a handle names leave its slot. -/
theorem changed_clear {t : BufferTable} {bytes : Bytes} (h : view t rep = .held bytes) :
    Changed view Balanced t ⟨Slots.clear t.slots rep, t.totalBytes - bytes.length⟩ rep .free := by
  refine changed_set (view_held.mp h) fun hbalanced => ?_
  have hset := Slots.total_set List.length none (view_held.mp h)
  simp only [Slots.extent, Option.map_some, Option.getD_some, Option.map_none,
    Option.getD_none] at hset ⊢
  omega

theorem take_held {t : BufferTable} {bytes : Bytes} (h : view t rep = .held bytes) :
    t.take rep = .ok (bytes, ⟨Slots.clear t.slots rep, t.totalBytes - bytes.length⟩) := by
  rw [BufferTable.take, Slots.get_of_getElem? (view_held.mp h)]

theorem lawful : Lawful ops view lentAs (fun t => Slots.firstFree t.slots) Balanced where
  bytes {t rep bs} h := by
    change t.bytes rep = _
    rw [BufferTable.bytes, Slots.get_of_getElem? (view_held.mp h)]
  alloc := alloc_cases
  put {t rep old bs} h hlen := changed_set (view_held.mp h) fun _ => by
    simp only [Slots.extent, Option.map_some, Option.getD_some]
    omega
  take h := ⟨_, take_held h, changed_clear h⟩
  restore {t rep n} bs h := changed_set (view_free.mp h) fun _ => by
    simp only [Slots.extent, Option.map_some, Option.getD_some, Option.map_none, Option.getD_none]
    omega
  free {t rep bs} h := by
    change Changed view Balanced t (t.free rep) rep _
    rw [BufferTable.free, Slots.get_of_getElem? (view_held.mp h)]
    exact changed_clear h

inductive GateLabel where
  | table (l : Label)
  | sever (rep : ℕ)
  | mint (bytes : Bytes)
  | reclaim (rep : ℕ)

/-- A step of the kernel: one of the table, or one of the gate with the table. -/
inductive GateStep : World BufferTable → GateLabel → World BufferTable → Prop
  | table {w w' : World BufferTable} {l : Label} (h : Step ops w l w') : GateStep w (.table l) w'
  /-- The gate call of an operation is severed, and nothing comes back. -/
  | sever {t : BufferTable} {before after : List Party} {rep : ℕ} {bytes moved : Bytes} :
      GateStep ⟨t, before ++ ⟨rep, bytes, some moved⟩ :: after⟩ (.sever rep)
        ⟨t.restore rep [], before ++ ⟨rep, bytes, none⟩ :: after⟩
  /-- The bytes of a child's buffer arrive in the owner's table. -/
  | mint {t t' : BufferTable} {parties : List Party} {bytes : Bytes} {rep : ℕ}
      (h : t.insert bytes = (rep, t')) :
      GateStep ⟨t, parties⟩ (.mint bytes) ⟨t', ⟨rep, bytes, none⟩ :: parties⟩
  /-- The owner hands such a buffer back. -/
  | reclaim {t t' : BufferTable} {before after : List Party} {rep : ℕ} {bytes moved : Bytes}
      (h : t.take rep = .ok (moved, t')) :
      GateStep ⟨t, before ++ ⟨rep, bytes, none⟩ :: after⟩ (.reclaim rep) ⟨t', before ++ after⟩

/-- The slot that the next buffer goes to is that of a buffer in flight. -/
def Hole (w : World BufferTable) : Prop :=
  ∃ p ∈ w.parties, p.rep = Slots.firstFree w.table.slots ∧ p.moved.isSome

/-- The step goes where no operation in flight is to give something back. -/
def Sheltered (w : World BufferTable) : GateLabel → Prop
  | .table (.alloc len) => len ≤ MAX_BUFFER_BYTES →
      w.table.totalBytes + len ≤ MAX_TOTAL_BUFFER_BYTES → ¬Hole w
  | .table _ => True
  | .sever rep => ∀ p ∈ w.parties, p.rep = rep → ∀ moved ∈ p.moved, moved = []
  | .mint _ => ¬Hole w ∧ Slots.firstFree w.table.slots < 2 ^ 32
  | .reclaim _ => True

/-- Only a buffer in flight has a free slot. -/
theorem fresh {w : World BufferTable} (h : Kept view lentAs Balanced w) (hhole : ¬Hole w) :
    Slots.firstFree w.table.slots ∉ w.parties.map Party.rep := by
  intro hmem
  obtain ⟨p, hp, hrep⟩ := List.mem_map.mp hmem
  have hcell := h.cell p hp
  rw [hrep, Party.cell] at hcell
  cases hmoved : p.moved with
  | none =>
    rw [hmoved] at hcell
    exact Slots.getElem?_firstFree (view_held.mp hcell)
  | some moved => exact hhole ⟨p, hp, hrep, by rw [hmoved]; rfl⟩

/-- An allocation over a cap changes nothing. -/
theorem alloc_capped {t : BufferTable} (h : ¬(len ≤ MAX_BUFFER_BYTES ∧
    t.totalBytes + len ≤ MAX_TOTAL_BUFFER_BYTES)) : ∃ e, t.alloc len = (.error e, t) := by
  rw [BufferTable.alloc]
  split
  · exact ⟨_, rfl⟩
  split
  · exact ⟨_, rfl⟩
  · omega

theorem kept_alloc {w w' : World BufferTable} (h : Kept view lentAs Balanced w)
    (hstep : Step ops w (.alloc len) w') (hsheltered : Sheltered w (.table (.alloc len))) :
    Kept view lentAs Balanced w' := by
  by_cases hcaps : len ≤ MAX_BUFFER_BYTES ∧ w.table.totalBytes + len ≤ MAX_TOTAL_BUFFER_BYTES
  · exact lawful.step h hstep fun _ _ => fresh h (hsheltered hcaps.1 hcaps.2)
  · obtain ⟨e, herr⟩ := alloc_capped hcaps
    cases hstep with
    | alloc halloc =>
      cases herr.symm.trans halloc
    | refused halloc =>
      cases herr.symm.trans halloc
      exact h

theorem kept_step {w w' : World BufferTable} {l : GateLabel} (h : Kept view lentAs Balanced w)
    (hstep : GateStep w l w') (hsheltered : Sheltered w l) : Kept view lentAs Balanced w' := by
  cases hstep with
  | @table w w' l hstep =>
    cases l with
    | alloc len => exact kept_alloc h hstep hsheltered
    | _ => exact lawful.step h hstep nofun
  | @sever t before after rep bytes moved =>
    have hempty : moved = [] := hsheltered ⟨rep, bytes, some moved⟩ (by simp) rfl moved rfl
    obtain rfl : moved = bytes := h.middle.2 moved rfl
    subst hempty
    exact h.replace rfl (lawful.restore (n := 0) [] h.middle.1) (by simp)
  | @mint t t' parties bytes rep hinsert =>
    have hrep : Slots.firstFree t.slots % 2 ^ 32 = Slots.firstFree t.slots :=
      Nat.mod_eq_of_lt hsheltered.2
    rw [BufferTable.insert, Slots.insert_fst, hrep] at hinsert
    cases hinsert
    exact h.add (p := ⟨Slots.firstFree t.slots, bytes, none⟩) (changed_insert bytes)
      (fresh h hsheltered.1) (by simp)
  | reclaim htake =>
    obtain ⟨hrest, hnot⟩ := h.remove
    rw [take_held h.middle.1] at htake
    cases htake
    exact hrest.changed (changed_clear h.middle.1) hnot

theorem kept_run {trace : List GateLabel} {w : World BufferTable}
    (run : Run (fun w l w' => GateStep w l w' ∧ Sheltered w l) ⟨empty, []⟩ trace w) :
    Kept view lentAs Balanced w :=
  run.invariant (fun _ _ _ h hstep => kept_step h hstep.1 hstep.2) ⟨by simp, by simp, by simp, rfl⟩

theorem lentBytes_eq_zero :
    lentBytes parties = 0 ↔ ∀ p ∈ parties, ∀ moved ∈ p.moved, moved = [] := by
  induction parties with
  | nil => simp [lentBytes]
  | cons p parties ih =>
    have hcons : lentBytes (p :: parties) =
        (p.moved.map List.length).getD 0 + lentBytes parties := by
      rw [lentBytes, List.map_cons, List.sum_cons, lentBytes]
    rw [hcons, Nat.add_eq_zero_iff, ih, List.forall_mem_cons]
    apply and_congr_left'
    cases p.moved with
    | none => simp
    | some moved => simp

/-- With nothing in flight but empty buffers, what is kept makes the handles linear. -/
theorem linear_iff_of_kept {w : World BufferTable} (h : Kept view lentAs Balanced w) :
    Linear ops BufferTable.totalBytes inUse w ↔
      ∀ p ∈ w.parties, ∀ moved ∈ p.moved, moved = [] := by
  have hbalanced : w.table.totalBytes = Slots.total List.length w.table.slots := h.balanced
  rw [← lentBytes_eq_zero]
  constructor
  · intro hlinear
    have htotal : w.table.totalBytes =
      Slots.total List.length w.table.slots + lentBytes w.parties := hlinear.total
    omega
  · intro hlent
    refine ⟨fun p hp hlive => ?_, h.distinct, h.returned, ?_, fun len rep t' halloc => ?_⟩
    · have hcell := h.cell p hp
      rw [Party.cell, hlive] at hcell
      exact lawful.bytes hcell
    · rw [inUse, hlent, hbalanced, Nat.add_zero]
    · have halloc : w.table.alloc len = (.ok rep, t') := halloc
      rw [BufferTable.alloc] at halloc
      rw [inUse, hlent, ← hbalanced]
      split_ifs at halloc with hcap hbudget
      all_goals
        first
          | cases halloc
          | omega

end Kernel

/-- Under every interleaving the handles of a task's table are linear; in every run of the kernel
whose steps are sheltered, those of its table are, exactly when no bytes are in flight. -/
theorem linear_run (taskTrace) (taskWorld) (kernelTrace) (w) :
    (Run (Step Task.ops) ⟨Task.empty, []⟩ taskTrace taskWorld →
      Linear Task.ops Task.BufferTable.totalBytes Task.inUse taskWorld) ∧
    (Run (fun w l w' => Kernel.GateStep w l w' ∧ Kernel.Sheltered w l)
        ⟨Kernel.empty, []⟩ kernelTrace w →
      (Linear Kernel.ops Kernel.BufferTable.totalBytes Kernel.inUse w ↔
        ∀ p ∈ w.parties, ∀ moved ∈ p.moved, moved = [])) :=
  ⟨fun run => Task.linear_of_kept (Task.kept_run run),
    fun run => Kernel.linear_iff_of_kept (Kernel.kept_run run)⟩

/-- A buffer of a task is allocated while another is in flight; one of the kernel makes its round
trip. -/
theorem linear_run_sample :
    Linear Task.ops Task.BufferTable.totalBytes Task.inUse
      ⟨⟨[some (.inFlight 1), some (.held [0])], 2⟩, [⟨1, [0], none⟩, ⟨0, [0], some [0]⟩]⟩ ∧
    Linear Kernel.ops Kernel.BufferTable.totalBytes Kernel.inUse
      ⟨⟨[some [7, 7]], 2⟩, [⟨0, [7, 7], none⟩]⟩ := by
  have htask : Step Task.ops ⟨⟨[some (.held [0])], 1⟩, [] ++ [⟨0, [0], none⟩]⟩ (.start 0)
      ⟨⟨[some (.inFlight 1)], 1⟩, [] ++ [⟨0, [0], some [0]⟩]⟩ := .start rfl
  have hstart : Step Kernel.ops ⟨⟨[some [0]], 1⟩, [] ++ [⟨0, [0], none⟩]⟩ (.start 0)
      ⟨⟨[none], 0⟩, [] ++ [⟨0, [0], some [0]⟩]⟩ := .start rfl
  have hfinish : Step Kernel.ops ⟨⟨[none], 0⟩, [] ++ [⟨0, [0], some [0]⟩]⟩ (.finish 0 [7, 7])
      ⟨⟨[some [7, 7]], 2⟩, [] ++ [⟨0, [7, 7], none⟩]⟩ := .finish [7, 7]
  have hhole : ¬Kernel.Hole ⟨Kernel.empty, []⟩ := by
    rintro ⟨p, hp, -⟩
    cases hp
  constructor
  · apply (linear_run [.alloc 1, .start 0, .alloc 1] _ [] ⟨Kernel.empty, []⟩).1
    exact .cons (.alloc rfl) (.cons htask (.cons (.alloc rfl) (.nil _)))
  · refine ((linear_run [] ⟨Task.empty, []⟩
      [.table (.alloc 1), .table (.start 0), .table (.finish 0 [7, 7])] _).2 ?_).mpr (by simp)
    exact .cons ⟨.table (.alloc rfl), fun _ _ => hhole⟩ (.cons ⟨.table hstart, trivial⟩
      (.cons ⟨.table hfinish, trivial⟩ (.nil _)))

/-- A buffer of the kernel is allocated into the slot of one in flight, which comes back to it. -/
theorem slot_reissued : ¬∀ trace w, Run Kernel.GateStep ⟨Kernel.empty, []⟩ trace w →
    Linear Kernel.ops Kernel.BufferTable.totalBytes Kernel.inUse w := by
  intro h
  have hstart : Step Kernel.ops ⟨⟨[some [0]], 1⟩, [] ++ [⟨0, [0], none⟩]⟩ (.start 0)
      ⟨⟨[none], 0⟩, [] ++ [⟨0, [0], some [0]⟩]⟩ := .start rfl
  have hfail : Step Kernel.ops
      ⟨⟨[some [0]], 1⟩, [⟨0, [0], none⟩] ++ [⟨0, [0], some [0]⟩]⟩ (.fail 0)
      ⟨⟨[some [0]], 2⟩, [⟨0, [0], none⟩] ++ [⟨0, [0], none⟩]⟩ := .fail
  have hlinear := h [.table (.alloc 1), .table (.start 0), .table (.alloc 1), .table (.fail 0)] _
    (.cons (.table (.alloc rfl)) (.cons (.table hstart) (.cons (.table (.alloc rfl))
      (.cons (.table hfail) (.nil _)))))
  exact absurd hlinear.distinct (by decide)

end Eo9.Buffers
