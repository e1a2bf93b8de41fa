import Eo9.Library.Residual

/-!
# Linking

Objects have named imports and exports. A graph holds instances of objects, says
which export of another instance an import of an instance is given, and which
exports of instances are exported again. Encoding a graph makes one object of
it: what no instance is given is imported by the whole.

An object also says how it is wired inside: which export of which leaf instance
each import of a leaf instance is given. A leaf instance is named by the path to
it.
-/

namespace Eo9.Library

variable {N K V Key : Type*}

/-- Where an import of a leaf instance comes from. -/
inductive Source (N : Type*) where
  | outer (name : N)
  | inner (leaf : List ℕ) (name : N)

/-- What the leaf instances of an object are given, and whose exports the
exports of the object are. -/
structure Wires (N : Type*) where
  given : List ℕ → N → Source N
  exported : N → List ℕ × N

/-- A single instance: it is given what its surroundings are. -/
def Wires.leaf : Wires N := ⟨fun _ n => .outer n, fun n => ([], n)⟩

/-- Something that can be linked. -/
structure Object (N K : Type*) where
  imports : List (N × K)
  exports : List (N × K)
  wires : Wires N

/-- An import or an export of an instance of a graph. -/
structure Port (N : Type*) where
  instance_ : ℕ
  name : N
  deriving DecidableEq

/-- A composition graph. -/
structure CompositionGraph (N K : Type*) where
  instances : List (Object N K)
  arguments : List (Port N × Port N)
  exports : List (N × Port N)

/-- Why an argument is refused. -/
inductive ArgumentError (N : Type*) where
  | invalidName (name : N)
  | alreadyPassed (name : N)
  | typeMismatch (name : N)

namespace CompositionGraph

def new : CompositionGraph N K := ⟨[], [], []⟩

/-- Add an instance; its number is the number of instances before. -/
def instantiate (g : CompositionGraph N K) (o : Object N K) : CompositionGraph N K :=
  { g with instances := g.instances ++ [o] }

variable [DecidableEq N]

def importKind (g : CompositionGraph N K) (p : Port N) : Option K :=
  g.instances[p.instance_]?.bind fun o => o.imports.lookup p.name

def exportKind (g : CompositionGraph N K) (p : Port N) : Option K :=
  g.instances[p.instance_]?.bind fun o => o.exports.lookup p.name

/-- Give the import `dst` the export `src`. -/
def setArgument (subtype : K → K → Bool) (g : CompositionGraph N K) (dst src : Port N) :
    Except (ArgumentError N) (CompositionGraph N K) :=
  match g.importKind dst, g.exportKind src with
  | some expected, some kind =>
    match g.arguments.lookup dst with
    | some before => if before = src then .ok g else .error (.alreadyPassed dst.name)
    | none =>
      if subtype kind expected then
        .ok { g with arguments := g.arguments ++ [(dst, src)] }
      else .error (.typeMismatch dst.name)
  | _, _ => .error (.invalidName dst.name)

/-- Export `src` under a name that is not exported yet. -/
def export_ (g : CompositionGraph N K) (src : Port N) (name : N) : Option (CompositionGraph N K) :=
  if name ∈ g.exports.map Prod.fst then none
  else some { g with exports := g.exports ++ [(name, src)] }

/-- The imports of an instance that are given nothing. -/
def openImports (arguments : List (Port N × Port N)) (i : ℕ) (o : Object N K) : List (N × K) :=
  o.imports.filter fun p => (arguments.lookup ⟨i, p.1⟩).isNone

/-- All imports that are given nothing, instance by instance. -/
def unsatisfied (g : CompositionGraph N K) : List (N × K) :=
  g.instances.zipIdx.flatMap fun oi => openImports g.arguments oi.2 oi.1

/-- How the leaf instances of the graph are wired when open imports go by their
canonical names. -/
def wires (g : CompositionGraph N K) (canonical : N → N) : Wires N where
  given := fun
    | [], n => .outer n
    | i :: leaf, n =>
      match g.instances[i]? with
      | none => .outer n
      | some o =>
        match o.wires.given leaf n with
        | .inner leaf' e => .inner (i :: leaf') e
        | .outer m =>
          match g.arguments.lookup ⟨i, m⟩ with
          | none => .outer (canonical m)
          | some src =>
            match g.instances[src.instance_]? with
            | none => .outer (canonical m)
            | some o' =>
              .inner (src.instance_ :: (o'.wires.exported src.name).1)
                (o'.wires.exported src.name).2
  exported := fun n =>
    match g.exports.lookup n with
    | none => ([], n)
    | some src =>
      match g.instances[src.instance_]? with
      | none => ([], n)
      | some o =>
        (src.instance_ :: (o.wires.exported src.name).1, (o.wires.exported src.name).2)

/-- The exports with their kinds. -/
def exportItems (g : CompositionGraph N K) : List (N × K) :=
  g.exports.filterMap fun e => (g.exportKind e.2).map fun k => (e.1, k)

/-- An argument for an import that is given nothing yet. -/
theorem setArgument_eq_ok {subtype : K → K → Bool} {g g' : CompositionGraph N K} {dst src : Port N}
    (h : g.setArgument subtype dst src = .ok g') (hfree : g.arguments.lookup dst = none) :
    g' = { g with arguments := g.arguments ++ [(dst, src)] } := by
  unfold setArgument at h
  split at h
  · simp only [hfree] at h
    split at h
    · injection h with h
      exact h.symm
    · exact absurd h nofun
  · exact absurd h nofun

theorem export_eq_some {g g' : CompositionGraph N K} {src : Port N} {name : N}
    (h : g.export_ src name = some g') :
    g' = { g with exports := g.exports ++ [(name, src)] } := by
  unfold export_ at h
  split at h
  · exact absurd h nofun
  · injection h with h
    exact h.symm

/-- Setting an argument keeps the instances and the exports. -/
theorem setArgument_keeps {subtype : K → K → Bool} {g g' : CompositionGraph N K} {dst src : Port N}
    (h : g.setArgument subtype dst src = .ok g') :
    g'.instances = g.instances ∧ g'.exports = g.exports := by
  unfold setArgument at h
  split at h
  · split at h
    · split at h
      · injection h with h
        exact ⟨by rw [h], by rw [h]⟩
      · cases h
    · split at h
      · injection h with h
        exact ⟨by rw [← h], by rw [← h]⟩
      · cases h
  · cases h

/-- Setting an argument sets that argument. -/
theorem setArgument_isSome {subtype : K → K → Bool} {g g' : CompositionGraph N K} {dst src : Port N}
    (h : g.setArgument subtype dst src = .ok g') (p : Port N) :
    (g'.arguments.lookup p).isSome ↔ (g.arguments.lookup p).isSome ∨ p = dst := by
  cases hbefore : g.arguments.lookup dst with
  | none =>
    rw [setArgument_eq_ok h hbefore]
    change (List.lookup p (g.arguments ++ [(dst, src)])).isSome ↔ _
    rw [List.lookup_append, Option.isSome_or]
    by_cases hp : p = dst
    · simp [hp]
    · have hne : (p == dst) = false := beq_false_of_ne hp
      simp [List.lookup_cons, hne, hp]
  | some before =>
    have hsame : g' = g := by
      unfold setArgument at h
      split at h
      · rw [hbefore] at h
        simp only at h
        split at h
        · injection h with h
          exact h.symm
        · cases h
      · cases h
    rw [hsame]
    constructor
    · exact .inl
    · rintro (hsome | rfl)
      · exact hsome
      · rw [hbefore]
        rfl

/-- An export of the one list or else of the other. -/
theorem lookup_append_ports (l l' : List (N × Port N)) (n : N) :
    (l ++ l').lookup n = (l.lookup n).or (l'.lookup n) := List.lookup_append

theorem mem_of_lookup_ports {l : List (N × Port N)} {n : N} {src : Port N}
    (h : l.lookup n = some src) : (n, src) ∈ l := by
  obtain ⟨l₁, l₂, hsplit, -⟩ := List.lookup_eq_some_iff.mp h
  rw [hsplit]
  simp

/-- Exports of an instance under their own names. -/
theorem lookup_ports (exports : List (N × K)) (p : N → Bool) (inst : ℕ) (n : N) :
    ((exports.filter fun e => p e.1).map fun e => (e.1, (⟨inst, e.1⟩ : Port N))).lookup n =
      if n ∈ exports.map Prod.fst ∧ p n = true then some ⟨inst, n⟩ else none := by
  induction exports with
  | nil => simp
  | cons e exports ih =>
    obtain ⟨name, kind⟩ := e
    by_cases hp : p name = true
    · rw [List.filter_cons_of_pos (p := fun e : N × K => p e.1) hp, List.map_cons, List.lookup_cons, ih]
      by_cases hn : n = name
      · simp [hn, hp]
      · have hne : (n == name) = false := beq_false_of_ne hn
        rw [hne]
        exact if_congr (by rw [List.map_cons, List.mem_cons, or_iff_right hn]) rfl rfl
    · rw [List.filter_cons_of_neg (p := fun e : N × K => p e.1) hp, ih]
      by_cases hn : n = name
      · simp [hn, hp]
      · exact if_congr (by rw [List.map_cons, List.mem_cons, or_iff_right hn]) rfl rfl

/-- Of the graph's instances, the one whose export an export is. -/
theorem head_exported (g : CompositionGraph N K) (canonical : N → N) (n : N) :
    ((g.wires canonical).exported n).1.head? =
      (g.exports.lookup n).bind fun src => g.instances[src.instance_]?.map fun _ => src.instance_ := by
  unfold wires
  simp only
  cases g.exports.lookup n with
  | none => rfl
  | some src =>
    simp only [Option.bind_some]
    cases g.instances[src.instance_]? with
    | none => rfl
    | some o => rfl

/-- Arguments of the instance `dst` that are exports of `src`. -/
def links (dst src : ℕ) (given : N → Option N) (names : List N) : List (Port N × Port N) :=
  names.filterMap fun n => (given n).map fun e => (⟨dst, n⟩, ⟨src, e⟩)

variable [DecidableEq Key] [LinearOrder V]

def encode (M : Merging N K Key V) (g : CompositionGraph N K) : Option (Object N K) :=
  (Residual.empty.collect M g.unsatisfied).map fun s =>
    { imports := s.items, exports := g.exportItems, wires := g.wires s.canonical }

end CompositionGraph

end Eo9.Library
