import Mathlib.Data.List.Basic
import Mathlib.Order.Basic

/-!
# Bounded queues that keep the newest

A queue of a fixed capacity, where an arrival pushes the oldest element out of a full
queue. All that ever arrived is what was taken or pushed out, and then the queue, in the
order of arrival; and an element is pushed out exactly by the arrival that comes as many
later as the queue holds.
-/

namespace Eo9.Library.Mailbox

variable {α δ : Type}

/-- The queue after an arrival. -/
def push (cap : Nat) (queue : List α) (a : α) : List α :=
  (if queue.length = cap then queue.drop 1 else queue) ++ [a]

/-- What became of an element that is not queued any more: it was taken, or pushed out
when so many had arrived before. -/
inductive Fate (δ : Type) where
  | taken (d : δ)
  | evicted (arrived : Nat)

structure Accounts (cap : Nat) (arrived queue : List α) (removed : List (α × Fate δ)) : Prop where
  arrived_eq : arrived = removed.map (·.1) ++ queue
  overflow : ∀ i a n, removed[i]? = some (a, .evicted n) → n = i + cap ∧ n < arrived.length
  bounded : queue.length ≤ cap

variable {cap : Nat} {arrived queue : List α} {removed : List (α × Fate δ)} {a : α}

theorem length_push (hcap : 0 < cap) (h : queue.length ≤ cap) : (push cap queue a).length ≤ cap := by
  unfold push
  split
  · rename_i hfull
    rw [List.length_append, List.length_drop, List.length_singleton]
    omega
  · rename_i hfull
    rw [List.length_append, List.length_singleton]
    omega

theorem Accounts.nil : Accounts cap ([] : List α) [] ([] : List (α × Fate δ)) :=
  ⟨rfl, nofun, Nat.zero_le _⟩

/-- An arrival, and what it pushed out. -/
theorem Accounts.arrive (hcap : 0 < cap) (h : Accounts cap arrived queue removed) (a : α) :
    ∃ lost : List (α × Fate δ), (∀ p ∈ lost, ∃ n, p.2 = .evicted n) ∧
      Accounts cap (arrived ++ [a]) (push cap queue a) (removed ++ lost) := by
  have hlonger : ∀ n < arrived.length, n < (arrived ++ [a]).length := by
    intro n hn
    rw [List.length_append]
    exact Nat.lt_add_right _ hn
  by_cases hfull : queue.length = cap
  · obtain ⟨oldest, rest, rfl⟩ := List.exists_cons_of_length_pos (hfull ▸ hcap)
    refine ⟨[(oldest, .evicted arrived.length)], by simp, ?_, ?_, length_push hcap h.bounded⟩
    · rw [push, if_pos hfull, h.arrived_eq]
      simp
    · intro i b n hget
      rcases Nat.lt_or_ge i removed.length with hlt | hge
      · rw [List.getElem?_append_left hlt] at hget
        obtain ⟨hcount, hn⟩ := h.overflow i b n hget
        exact ⟨hcount, hlonger n hn⟩
      · rw [List.getElem?_append_right hge] at hget
        have hlast : i - removed.length < 1 := by
          simpa using (List.getElem?_eq_some_iff.mp hget).1
        have hzero : i - removed.length = 0 := by omega
        rw [hzero, List.getElem?_cons_zero] at hget
        obtain rfl := Fate.evicted.inj (Prod.mk.inj (Option.some.inj hget)).2
        refine ⟨?_, by simp⟩
        rw [h.arrived_eq, List.length_append, List.length_map, hfull]
        omega
  · refine ⟨[], nofun, ?_, ?_, length_push hcap h.bounded⟩
    · rw [push, if_neg hfull, h.arrived_eq, List.append_nil, List.append_assoc]
    · intro i b n hget
      rw [List.append_nil] at hget
      obtain ⟨hcount, hn⟩ := h.overflow i b n hget
      exact ⟨hcount, hlonger n hn⟩

/-- The oldest element is taken. -/
theorem Accounts.take {rest : List α} (h : Accounts cap arrived (a :: rest) removed) (d : δ) :
    Accounts cap arrived rest (removed ++ [(a, .taken d)]) := by
  refine ⟨?_, ?_, ?_⟩
  · rw [h.arrived_eq]
    simp
  · intro i b n hget
    rcases Nat.lt_or_ge i removed.length with hlt | hge
    · rw [List.getElem?_append_left hlt] at hget
      exact h.overflow i b n hget
    · rw [List.getElem?_append_right hge] at hget
      have hlast := List.mem_of_getElem? hget
      exact nomatch (Prod.mk.inj (List.mem_singleton.mp hlast)).2
  · exact Nat.le_of_succ_le (by simpa using h.bounded)

end Eo9.Library.Mailbox
