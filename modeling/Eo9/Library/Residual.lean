import Mathlib.Order.Lattice
import Mathlib.Data.List.Nodup
import Mathlib.Logic.Function.Basic
import Mathlib.Order.Defs.LinearOrder
import Mathlib.Tactic.Common

/-!
# Residual imports

The imports that the parts of a linked program leave open are collected under
their names. Imports of one name are merged. Where names carry versions, names
whose versions lie on one track are merged too, under the newest of them.
-/

namespace Eo9.Library

variable {N K V Key : Type*}

/-- How names and kinds of imports merge: the track of a name with its place on
the track, which determine the name, and the kind that serves two importers. -/
structure Merging (N K Key V : Type*) where
  track : N → Option (Key × V)
  merge : K → K → Option K
  track_injective : ∀ n m t, track n = some t → track m = some t → n = m

/-- The imports collected so far, and the name that each name goes by. -/
structure Residual (N K : Type*) where
  items : List (N × K)
  canonical : N → N

namespace Residual

/-- Nothing is open. -/
def empty : Residual N K := ⟨[], id⟩

section Collecting

variable [DecidableEq N] [DecidableEq Key] [LinearOrder V] (M : Merging N K Key V)

omit [DecidableEq N] [DecidableEq Key] in
/-- `n` and `m` lie on one track, and `n` is newer. -/
def Newer (n m : N) : Prop :=
  ∃ key v w, M.track n = some (key, v) ∧ M.track m = some (key, w) ∧ w < v

instance (n m : N) : Decidable (Newer M n m) :=
  match hn : M.track n, hm : M.track m with
  | some (key, v), some (key', w) =>
    if h : key = key' ∧ w < v then .isTrue ⟨key, v, w, hn, h.1 ▸ hm, h.2⟩
    else .isFalse fun ⟨k, a, b, hna, hmb, hlt⟩ => h (by
      rw [hn] at hna
      rw [hm] at hmb
      injection hna with hna
      injection hmb with hmb
      injection hna with h₁ h₂
      injection hmb with h₃ h₄
      exact ⟨h₁.trans h₃.symm, by rwa [h₂, h₄]⟩)
  | none, _ => .isFalse fun ⟨_, _, _, hna, _, _⟩ => absurd (hn.symm.trans hna) nofun
  | some _, none => .isFalse fun ⟨_, _, _, _, hmb, _⟩ => absurd (hm.symm.trans hmb) nofun

omit [DecidableEq N] [LinearOrder V] in
/-- The first item on the track of `n`. -/
def compatible (s : Residual N K) (n : N) : Option (N × K) :=
  match M.track n with
  | none => none
  | some (key, _) => s.items.find? fun p => (M.track p.1).map Prod.fst == some key

/-- Give the item named `n` the kind `k`. -/
def put (n : N) (k : K) (items : List (N × K)) : List (N × K) :=
  items.map fun p => if p.1 = n then (n, k) else p

/-- Collect one more import. -/
def aggregate (s : Residual N K) (n : N) (k : K) : Option (Residual N K) :=
  match s.items.lookup n with
  | some old => (M.merge old k).map fun m => { s with items := put n m s.items }
  | none =>
    match s.compatible M n with
    | none => some { s with items := s.items ++ [(n, k)] }
    | some (old, kind) =>
      (M.merge kind k).map fun m =>
        if Newer M n old then
          { items := s.items.filter (fun p => p.1 ≠ old) ++ [(n, m)]
            canonical := fun x => if s.canonical x = old then n else s.canonical x }
        else
          { items := put old m s.items
            canonical := Function.update s.canonical n old }

def collect : Residual N K → List (N × K) → Option (Residual N K)
  | s, [] => some s
  | s, p :: ps =>
    match s.aggregate M p.1 p.2 with
    | none => none
    | some s' => collect s' ps

end Collecting

end Residual

end Eo9.Library
