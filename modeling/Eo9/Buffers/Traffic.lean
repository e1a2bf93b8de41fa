import Eo9.Buffers.Tables
import Eo9.Library.Runs

/-!
# Buffers in flight

Guests allocate, fill, hand over and drop buffers while operations have others of them in flight.
A handle is live, or an operation has the bytes that were moved out of the table for it. The
operations of a table are lawful when each of them changes one slot.
-/

namespace Eo9.Buffers

open Eo9.Library

/-- A handle, with the bytes its holder last put there; `moved` is what an operation in flight on
it was given. -/
structure Party where
  rep : ℕ
  bytes : Bytes
  moved : Option Bytes

/-- A table, and the handles that are live or in flight. -/
structure World (T : Type) where
  table : T
  parties : List Party

inductive Label where
  | alloc (len : ℕ)
  | write (rep offset : ℕ) (data : Bytes)
  | start (rep : ℕ)
  | finish (rep : ℕ) (given : Bytes)
  | fail (rep : ℕ)
  | drop (rep : ℕ)
  | free (rep : ℕ)

variable {T : Type}

/-- One step of the guests and the operations, in any order. -/
inductive Step (ops : Ops T) : World T → Label → World T → Prop
  | alloc {t t' : T} {parties : List Party} {len rep : ℕ} (h : ops.alloc t len = (.ok rep, t')) :
      Step ops ⟨t, parties⟩ (.alloc len) ⟨t', ⟨rep, List.replicate len 0, none⟩ :: parties⟩
  | refused {t t' : T} {parties : List Party} {len : ℕ} {e : TableError}
      (h : ops.alloc t len = (.error e, t')) :
      Step ops ⟨t, parties⟩ (.alloc len) ⟨t', parties⟩
  | write {t t' : T} {before after : List Party} {rep offset : ℕ} {bytes data : Bytes}
      (h : ops.write t rep offset data = .ok t') :
      Step ops ⟨t, before ++ ⟨rep, bytes, none⟩ :: after⟩ (.write rep offset data)
        ⟨t', before ++ ⟨rep, copyInto bytes offset data, none⟩ :: after⟩
  /-- The buffer is taken for an operation. -/
  | start {t t' : T} {before after : List Party} {rep : ℕ} {bytes moved : Bytes}
      (h : ops.take t rep = .ok (moved, t')) :
      Step ops ⟨t, before ++ ⟨rep, bytes, none⟩ :: after⟩ (.start rep)
        ⟨t', before ++ ⟨rep, bytes, some moved⟩ :: after⟩
  /-- The operation succeeds and gives bytes back. -/
  | finish {t : T} {before after : List Party} {rep : ℕ} {bytes moved : Bytes} (given : Bytes) :
      Step ops ⟨t, before ++ ⟨rep, bytes, some moved⟩ :: after⟩ (.finish rep given)
        ⟨ops.restore t rep given, before ++ ⟨rep, given, none⟩ :: after⟩
  /-- The operation fails, and gives back what it was given. -/
  | fail {t : T} {before after : List Party} {rep : ℕ} {bytes moved : Bytes} :
      Step ops ⟨t, before ++ ⟨rep, bytes, some moved⟩ :: after⟩ (.fail rep)
        ⟨ops.restore t rep moved, before ++ ⟨rep, bytes, none⟩ :: after⟩
  /-- The operation is dropped, with the bytes it has. -/
  | drop {t : T} {before after : List Party} {rep : ℕ} {bytes moved : Bytes} :
      Step ops ⟨t, before ++ ⟨rep, bytes, some moved⟩ :: after⟩ (.drop rep) ⟨t, before ++ after⟩
  | free {t : T} {before after : List Party} {rep : ℕ} {bytes : Bytes} :
      Step ops ⟨t, before ++ ⟨rep, bytes, none⟩ :: after⟩ (.free rep)
        ⟨ops.free t rep, before ++ after⟩

/-- The handles are linear: each live handle names the bytes its holder last put there, no two
handles share a slot, an operation has what its holder put there to give back, the total is that
of the buffers in use, and an allocation keeps within the caps. -/
structure Linear (ops : Ops T) (totalBytes : T → ℕ) (inUse : World T → ℕ) (w : World T) :
    Prop where
  contents : ∀ p ∈ w.parties, p.moved = none → ops.bytes w.table p.rep = .ok p.bytes
  distinct : (w.parties.map Party.rep).Nodup
  returned : ∀ p ∈ w.parties, ∀ moved ∈ p.moved, moved = p.bytes
  total : totalBytes w.table = inUse w
  caps : ∀ len rep t', ops.alloc w.table len = (.ok rep, t') →
    len ≤ MAX_BUFFER_BYTES ∧ inUse w + len ≤ MAX_TOTAL_BUFFER_BYTES

/-- What a slot is to the handles. -/
inductive Cell where
  | absent
  | free
  | held (bytes : Bytes)
  | lent (reserved : ℕ)

/-- What one operation does to a table: one slot changes, and the books stay balanced. -/
structure Changed (view : T → ℕ → Cell) (Balanced : T → Prop) (t t' : T) (rep : ℕ) (c : Cell) :
    Prop where
  here : view t' rep = c
  elsewhere : ∀ j, j ≠ rep → view t' j = view t j
  balanced : Balanced t → Balanced t'

/-- A table whose operations change one slot each; an allocation takes the slot `next`, and a slot
whose bytes are taken is `lentAs`. -/
structure Lawful (ops : Ops T) (view : T → ℕ → Cell) (lentAs : ℕ → Cell) (next : T → ℕ)
    (Balanced : T → Prop) : Prop where
  bytes : ∀ {t rep bs}, view t rep = .held bs → ops.bytes t rep = .ok bs
  alloc : ∀ t len, (∃ e, ops.alloc t len = (.error e, t)) ∨
    ∃ r t', ops.alloc t len = (r, t') ∧ (∀ rep, r = .ok rep → rep = next t) ∧
      Changed view Balanced t t' (next t) (.held (List.replicate len 0))
  put : ∀ {t rep old bs}, view t rep = .held old → bs.length = old.length →
    Changed view Balanced t (ops.put t rep bs) rep (.held bs)
  take : ∀ {t rep bs}, view t rep = .held bs →
    ∃ t', ops.take t rep = .ok (bs, t') ∧ Changed view Balanced t t' rep (lentAs bs.length)
  restore : ∀ {t rep n} (bs : Bytes), view t rep = lentAs n →
    Changed view Balanced t (ops.restore t rep bs) rep (.held bs)
  free : ∀ {t rep bs}, view t rep = .held bs → Changed view Balanced t (ops.free t rep) rep .free

def Party.cell (lentAs : ℕ → Cell) (p : Party) : Cell :=
  match p.moved with
  | none => .held p.bytes
  | some moved => lentAs moved.length

/-- The slots are those of the handles. -/
structure Kept (view : T → ℕ → Cell) (lentAs : ℕ → Cell) (Balanced : T → Prop) (w : World T) :
    Prop where
  cell : ∀ p ∈ w.parties, view w.table p.rep = p.cell lentAs
  returned : ∀ p ∈ w.parties, ∀ moved ∈ p.moved, moved = p.bytes
  distinct : (w.parties.map Party.rep).Nodup
  balanced : Balanced w.table

section Steps

variable {ops : Ops T} {view : T → ℕ → Cell} {lentAs : ℕ → Cell} {next : T → ℕ}
  {Balanced : T → Prop} {t t' : T} {parties before after : List Party} {p p' : Party} {c : Cell}
  {rep : ℕ}

/-- A slot that no handle names. -/
theorem Kept.changed (h : Kept view lentAs Balanced ⟨t, parties⟩)
    (hc : Changed view Balanced t t' rep c) (hrep : rep ∉ parties.map Party.rep) :
    Kept view lentAs Balanced ⟨t', parties⟩ where
  cell q hq := by
    have hne : q.rep ≠ rep := fun heq => hrep (heq ▸ List.mem_map_of_mem hq)
    rw [hc.elsewhere q.rep hne]
    exact h.cell q hq
  returned := h.returned
  distinct := h.distinct
  balanced := hc.balanced h.balanced

/-- A new handle. -/
theorem Kept.add (h : Kept view lentAs Balanced ⟨t, parties⟩)
    (hc : Changed view Balanced t t' p.rep (p.cell lentAs)) (hrep : p.rep ∉ parties.map Party.rep)
    (hmoved : ∀ moved ∈ p.moved, moved = p.bytes) :
    Kept view lentAs Balanced ⟨t', p :: parties⟩ where
  cell := List.forall_mem_cons.mpr ⟨hc.here, (h.changed hc hrep).cell⟩
  returned := List.forall_mem_cons.mpr ⟨hmoved, h.returned⟩
  distinct := List.nodup_cons.mpr ⟨hrep, h.distinct⟩
  balanced := hc.balanced h.balanced

/-- A handle that goes. -/
theorem Kept.remove (h : Kept view lentAs Balanced ⟨t, before ++ p :: after⟩) :
    Kept view lentAs Balanced ⟨t, before ++ after⟩ ∧
      p.rep ∉ (before ++ after).map Party.rep := by
  have hperm : (before ++ p :: after).Perm (p :: (before ++ after)) := List.perm_middle
  have hdistinct := (hperm.map Party.rep).nodup_iff.mp h.distinct
  rw [List.map_cons, List.nodup_cons] at hdistinct
  have hmem : ∀ q ∈ before ++ after, q ∈ before ++ p :: after :=
    fun q hq => hperm.mem_iff.mpr (List.mem_cons_of_mem p hq)
  exact ⟨⟨fun q hq => h.cell q (hmem q hq), fun q hq => h.returned q (hmem q hq), hdistinct.2,
    h.balanced⟩, hdistinct.1⟩

/-- A handle whose slot changes. -/
theorem Kept.replace (h : Kept view lentAs Balanced ⟨t, before ++ p :: after⟩)
    (hrep : p'.rep = p.rep) (hc : Changed view Balanced t t' p.rep (p'.cell lentAs))
    (hmoved : ∀ moved ∈ p'.moved, moved = p'.bytes) :
    Kept view lentAs Balanced ⟨t', before ++ p' :: after⟩ := by
  obtain ⟨hrest, hnot⟩ := h.remove
  have hadd : Kept view lentAs Balanced ⟨t', p' :: (before ++ after)⟩ :=
    hrest.add (hrep.symm ▸ hc) (hrep.symm ▸ hnot) hmoved
  have hperm : (before ++ p' :: after).Perm (p' :: (before ++ after)) := List.perm_middle
  exact ⟨fun q hq => hadd.cell q (hperm.mem_iff.mp hq),
    fun q hq => hadd.returned q (hperm.mem_iff.mp hq),
    (hperm.map Party.rep).nodup_iff.mpr hadd.distinct, hadd.balanced⟩

/-- What the handle in the middle is known by. -/
theorem Kept.middle (h : Kept view lentAs Balanced ⟨t, before ++ p :: after⟩) :
    view t p.rep = p.cell lentAs ∧ ∀ moved ∈ p.moved, moved = p.bytes :=
  ⟨h.cell p (by simp), h.returned p (by simp)⟩

/-- What a write through a live handle does. -/
theorem Lawful.write (law : Lawful ops view lentAs next Balanced) {bytes data : Bytes}
    {offset : ℕ} (hview : view t rep = .held bytes) (h : ops.write t rep offset data = .ok t') :
    Changed view Balanced t t' rep (.held (copyInto bytes offset data)) := by
  rw [Ops.write, law.bytes hview] at h
  dsimp only at h
  rw [byteRange] at h
  split_ifs at h with hrange
  cases h
  exact law.put hview (length_copyInto hrange)

/-- One step keeps the slots those of the handles, when an allocation takes no handle's slot. -/
theorem Lawful.step (law : Lawful ops view lentAs next Balanced) {w w' : World T} {l : Label}
    (h : Kept view lentAs Balanced w) (hstep : Step ops w l w')
    (hfresh : ∀ len, l = .alloc len → next w.table ∉ w.parties.map Party.rep) :
    Kept view lentAs Balanced w' := by
  cases hstep with
  | @alloc t t' parties len rep halloc =>
    obtain ⟨e, herr⟩ | ⟨r, t'', hok, hnext, hc⟩ := law.alloc t len
    · rw [halloc] at herr
      cases herr
    · rw [halloc] at hok
      cases hok
      obtain rfl := hnext rep rfl
      exact h.add (p := ⟨next t, List.replicate len 0, none⟩) hc (hfresh len rfl) (by simp)
  | @refused t t' parties len e halloc =>
    obtain ⟨e', herr⟩ | ⟨r, t'', hok, -, hc⟩ := law.alloc t len
    · rw [halloc] at herr
      cases herr
      exact h
    · rw [halloc] at hok
      cases hok
      exact h.changed hc (hfresh len rfl)
  | write hwrite => exact h.replace rfl (law.write h.middle.1 hwrite) (by simp)
  | start htake =>
    obtain ⟨t'', hok, hc⟩ := law.take h.middle.1
    rw [htake] at hok
    cases hok
    exact h.replace rfl hc (by simp)
  | finish given => exact h.replace rfl (law.restore given h.middle.1) (by simp)
  | @fail t before after rep bytes moved =>
    obtain rfl : moved = bytes := h.middle.2 moved rfl
    exact h.replace rfl (law.restore moved h.middle.1) (by simp)
  | drop => exact h.remove.1
  | free =>
    obtain ⟨hrest, hnot⟩ := h.remove
    exact hrest.changed (law.free h.middle.1) hnot

end Steps

end Eo9.Buffers
