import Eo9.Library.Action
import Mathlib.Data.List.Sort
import Std.Data.TreeMap.Lemmas

/-!
# Run-queue policies

A policy is an ordering decision over the runnable task ids. The two shipped
policies are the ordered set of `DeterministicPolicy` and the queue of
`FairPolicy`. `LawfulPolicy` states the contract of the `Policy` trait in
terms of the list of queued tasks, and both policies meet it.
-/

namespace Eo9.Sched

open Eo9.Library Std

structure TaskId where
  raw : Nat
  deriving DecidableEq

theorem TaskId.raw_injective : Function.Injective TaskId.raw := by
  rintro ⟨a⟩ ⟨b⟩ h
  exact congrArg TaskId.mk h

instance : Ord TaskId := ⟨compareOn TaskId.raw⟩

instance : TransOrd TaskId := inferInstanceAs (TransCmp (compareOn TaskId.raw))

instance : LawfulEqOrd TaskId where
  eq_of_compare {a b} h := by
    have hraw : compare a.raw b.raw = .eq := h
    exact TaskId.raw_injective (Std.compare_eq_iff_eq.mp hraw)

/-- The ordering decision of the scheduler and nothing else. -/
class Policy (P : Type) where
  empty : P
  enqueue : TaskId → {ε : Type} → Action P ε Unit
  dequeue : P → Option TaskId × P
  remove : TaskId → P → Bool × P
  len : P → Nat

/-- The contract of the `Policy` trait. -/
class LawfulPolicy (P : Type) [Policy P] where
  /-- The queued tasks. -/
  queued : P → List TaskId
  queued_empty : queued Policy.empty = []
  enqueue_fresh : ∀ (task : TaskId) (p : P), task ∉ queued p → ∃ p', ∀ ε : Type,
    (Policy.enqueue task p : Outcome ε Unit × P) = (.ok (), p') ∧
      (queued p').Perm (task :: queued p)
  dequeue_none : ∀ p p' : P, Policy.dequeue p = (none, p') → p' = p ∧ queued p = []
  dequeue_some : ∀ (task : TaskId) (p p' : P), Policy.dequeue p = (some task, p') →
    (queued p).Perm (task :: queued p')
  remove_mem : ∀ (task : TaskId) (p : P), task ∈ queued p → ∃ p',
    Policy.remove task p = (true, p') ∧ (queued p).Perm (task :: queued p')
  len_eq : ∀ p : P, Policy.len p = (queued p).length

/-- The panic of a policy asked to queue a task twice. -/
def alreadyQueuedSite : String := "task was already queued"

/-- Lowest task id first: the queued ids in increasing order. -/
structure DeterministicPolicy where
  queue : List TaskId
  sorted : queue.Pairwise fun a b => a.raw < b.raw

namespace DeterministicPolicy

/-- Insert into an increasing list, keeping a present element as it is. -/
def insert (task : TaskId) : List TaskId → List TaskId
  | [] => [task]
  | head :: rest =>
    if task.raw < head.raw then task :: head :: rest
    else if task = head then head :: rest
    else head :: insert task rest

theorem mem_insert {task x : TaskId} {queue : List TaskId} :
    x ∈ insert task queue ↔ x = task ∨ x ∈ queue := by
  induction queue with
  | nil => simp [insert]
  | cons head rest ih =>
    unfold insert
    split
    · simp
    · split
      · next h => subst h; simp
      · simp only [List.mem_cons, ih]
        tauto

theorem insert_perm {task : TaskId} {queue : List TaskId} (h : task ∉ queue) :
    (insert task queue).Perm (task :: queue) := by
  induction queue with
  | nil => exact .refl _
  | cons head rest ih =>
    have hne : task ≠ head := fun he => h (by simp [he])
    have hrest : task ∉ rest := fun hm => h (by simp [hm])
    simp only [insert, hne, if_false]
    split
    · exact .refl _
    · exact (List.Perm.cons head (ih hrest)).trans (List.Perm.swap task head rest)

theorem insert_sorted {task : TaskId} {queue : List TaskId}
    (h : queue.Pairwise fun a b => a.raw < b.raw) :
    (insert task queue).Pairwise fun a b => a.raw < b.raw := by
  induction queue with
  | nil => simp [insert]
  | cons head rest ih =>
    obtain ⟨hhead, hrest⟩ := List.pairwise_cons.mp h
    unfold insert
    split
    · next hlt =>
      refine List.pairwise_cons.mpr ⟨fun x hx => ?_, h⟩
      rcases List.mem_cons.mp hx with rfl | hx
      · exact hlt
      · exact hlt.trans (hhead x hx)
    · next hnlt =>
      split
      · exact h
      · next hne =>
        refine List.pairwise_cons.mpr ⟨fun x hx => ?_, ih hrest⟩
        rcases mem_insert.mp hx with rfl | hx
        · have : x.raw ≠ head.raw := fun he => hne (TaskId.raw_injective he)
          omega
        · exact hhead x hx

/-- Add a task; it must not be queued already. -/
def enqueue (task : TaskId) {ε : Type} : Action DeterministicPolicy ε Unit := fun p =>
  if task ∈ p.queue then (Outcome.panic alreadyQueuedSite, p)
  else (.ok (), ⟨insert task p.queue, insert_sorted p.sorted⟩)

/-- Take the first task out. -/
def dequeue (p : DeterministicPolicy) : Option TaskId × DeterministicPolicy :=
  match h : p.queue with
  | [] => (none, p)
  | task :: rest =>
    (some task, ⟨rest, (List.pairwise_cons.mp (h ▸ p.sorted)).2⟩)

/-- Take a given task out; tell whether it was there. -/
def remove (task : TaskId) (p : DeterministicPolicy) : Bool × DeterministicPolicy :=
  (decide (task ∈ p.queue), ⟨p.queue.erase task, p.sorted.sublist List.erase_sublist⟩)

instance : Policy DeterministicPolicy where
  empty := ⟨[], .nil⟩
  enqueue := enqueue
  dequeue := dequeue
  remove := remove
  len p := p.queue.length

instance : LawfulPolicy DeterministicPolicy where
  queued := queue
  queued_empty := rfl
  enqueue_fresh task p h :=
    ⟨⟨insert task p.queue, insert_sorted p.sorted⟩, fun ε =>
      ⟨by simp only [Policy.enqueue, enqueue, if_neg h], insert_perm h⟩⟩
  dequeue_none p p' h := by
    simp only [Policy.dequeue, dequeue] at h
    split at h
    · next hq => exact ⟨(Prod.ext_iff.mp h).2.symm, hq⟩
    · cases h
  dequeue_some task p p' h := by
    simp only [Policy.dequeue, dequeue] at h
    split at h
    · cases h
    · next first rest hq =>
      cases h
      exact .of_eq hq
  remove_mem task p h :=
    ⟨⟨p.queue.erase task, p.sorted.sublist List.erase_sublist⟩,
      by simp [Policy.remove, remove, h], List.perm_cons_erase h⟩
  len_eq _ := rfl

end DeterministicPolicy

/-- First-in-first-out round-robin. -/
structure FairPolicy where
  queue : List TaskId

namespace FairPolicy

/-- Add a task at the back; it must not be queued already. -/
def enqueue (task : TaskId) {ε : Type} : Action FairPolicy ε Unit := fun p =>
  if task ∈ p.queue then (Outcome.panic alreadyQueuedSite, p)
  else (.ok (), ⟨p.queue ++ [task]⟩)

/-- Take the front task out. -/
def dequeue (p : FairPolicy) : Option TaskId × FairPolicy :=
  match p.queue with
  | [] => (none, p)
  | task :: rest => (some task, ⟨rest⟩)

/-- Take the first occurrence of a given task out; tell whether it was there. -/
def remove (task : TaskId) (p : FairPolicy) : Bool × FairPolicy :=
  match p.queue.findIdx? (· == task) with
  | some index => (true, ⟨p.queue.eraseIdx index⟩)
  | none => (false, p)

theorem remove_of_mem {task : TaskId} {p : FairPolicy} (h : task ∈ p.queue) :
    remove task p = (true, ⟨p.queue.erase task⟩) := by
  have hidx : p.queue.findIdx? (· == task) = some (p.queue.idxOf task) := by
    rw [List.findIdx?_eq_some_iff_findIdx_eq]
    exact ⟨List.idxOf_lt_length_of_mem h, rfl⟩
  simp only [remove, hidx, List.erase_eq_eraseIdx_of_idxOf rfl]

instance : Policy FairPolicy where
  empty := ⟨[]⟩
  enqueue := enqueue
  dequeue := dequeue
  remove := remove
  len p := p.queue.length

instance : LawfulPolicy FairPolicy where
  queued := queue
  queued_empty := rfl
  enqueue_fresh task p h :=
    ⟨⟨p.queue ++ [task]⟩, fun ε =>
      ⟨by simp only [Policy.enqueue, enqueue, if_neg h], List.perm_append_singleton task _⟩⟩
  dequeue_none p p' h := by
    simp only [Policy.dequeue, dequeue] at h
    split at h
    · next hq => exact ⟨(Prod.ext_iff.mp h).2.symm, hq⟩
    · cases h
  dequeue_some task p p' h := by
    simp only [Policy.dequeue, dequeue] at h
    split at h
    · cases h
    · next first rest hq =>
      cases h
      exact .of_eq hq
  remove_mem task p h := ⟨_, remove_of_mem h, List.perm_cons_erase h⟩
  len_eq _ := rfl

end FairPolicy

end Eo9.Sched
