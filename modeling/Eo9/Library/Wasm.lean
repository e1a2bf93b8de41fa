import Mathlib.Data.List.Basic
import Mathlib.Tactic.Common
import Eo9.Library.Bytes

/-!
# A part of core WebAssembly

Instructions over 32-bit integers, one linear memory and integer globals. A structured
instruction holds its body; the body of a loop is run again as long as there is fuel. What
is outside an instance is a state of its own that calls may change.
-/

namespace Eo9.Library.Wasm

/-- The core value types. -/
inductive ValType where
  | i32
  | i64
  | f32
  | f64

/-- A core value; a float is its bits. -/
inductive Value where
  | i32 (n : BitVec 32)
  | i64 (n : BitVec 64)
  | f32 (bits : BitVec 32)
  | f64 (bits : BitVec 64)

/-- A linear memory: its bytes and its size in pages. -/
structure Memory where
  bytes : ℕ → UInt8
  pages : ℕ

def pageSize : ℕ := 65536

def Memory.size (m : Memory) : ℕ := m.pages * pageSize

/-- Write bytes that lie inside the memory. -/
def Memory.write (m : Memory) (offset : ℕ) (data : List UInt8) : Memory :=
  { m with bytes := overwrite m.bytes offset data }

theorem Memory.write_byte (m : Memory) (p : ℕ) (b : UInt8) : (m.write p [b]).bytes p = b := by
  have h : 0 < [b].length := Nat.one_pos
  exact overwrite_inside h

/-- An instance with the state around it. -/
structure Machine (κ : Type) where
  memory : Memory
  globals : List (BitVec 32)
  outer : κ

/-- Why execution stopped: `stuck` is code that does not validate, and `host` is a trap
in a function from outside. -/
inductive Trap (τ : Type) where
  | unreachable
  | bounds
  | stuck
  | fuel
  | host (t : τ)

inductive Instr where
  | globalGet (index : ℕ)
  | globalSet (index : ℕ)
  | localGet (index : ℕ)
  | localSet (index : ℕ)
  | i32Const (n : BitVec 32)
  | i64Const (n : BitVec 64)
  | f32Const (bits : BitVec 32)
  | f64Const (bits : BitVec 64)
  | i32Add
  | i32Sub
  | i32Mul
  | i32And
  | i32LeU
  | i32Eq
  | i32Eqz
  | i32Load8U (offset : ℕ)
  | i32Store8 (offset : ℕ)
  | memorySize
  | memoryGrow
  | drop
  | unreachable
  | ret
  | call (function : ℕ)
  | br (depth : ℕ)
  | brIf (depth : ℕ)
  | block (body : List Instr)
  | loop (body : List Instr)
  | ite (body : List Instr)

/-- What an instance may rely on: how many pages its memory may have, how many
parameters each imported function takes, and what a call of it does. -/
structure Env (κ τ : Type) where
  limit : ℕ
  arity : ℕ → ℕ
  call : ℕ → List Value → Machine κ → Except (Trap τ) (List Value × Machine κ)

/-- A function being run: its instance, its locals and its operands, the top first. -/
structure Config (κ : Type) where
  machine : Machine κ
  locals : List Value
  stack : List Value

/-- Where control goes after an instruction. -/
inductive Flow where
  | next
  | branch (depth : ℕ)
  | ret

abbrev Result (κ τ : Type) := Except (Trap τ) (Flow × Config κ)

variable {κ τ : Type}

namespace Config

/-- Go on with these operands. -/
def push (c : Config κ) (stack : List Value) : Result κ τ := .ok (.next, { c with stack })

/-- Go on in this instance with these operands. -/
def move (c : Config κ) (machine : Machine κ) (stack : List Value) : Result κ τ :=
  .ok (.next, { c with machine, stack })

def truth (b : Bool) : Value := .i32 (if b then 1 else 0)

end Config

/-- What a structured instruction makes of the way its body ended; its operands are those
from before it. -/
def leave (stack : List Value) : Flow × Config κ → Flow × Config κ
  | (.next, c) => (.next, { c with stack })
  | (.branch 0, c) => (.next, { c with stack })
  | (.branch (depth + 1), c) => (.branch depth, c)
  | (.ret, c) => (.ret, c)

/-- Go on behind an instruction, unless it branches or stops. -/
def andThen (r : Result κ τ) (k : Config κ → Result κ τ) : Result κ τ :=
  match r with
  | .ok (.next, c) => k c
  | r => r

/-- Run the body of a loop until it ends or leaves the loop. -/
def again (body : Config κ → Result κ τ) : ℕ → Config κ → Result κ τ
  | 0, _ => .error .fuel
  | fuel + 1, c =>
    match body { c with stack := [] } with
    | .ok (.branch 0, c') => again body fuel c'
    | r => r

mutual

def step (env : Env κ τ) (fuel : ℕ) : Instr → Config κ → Result κ τ
  | .globalGet i, c =>
    match c.machine.globals[i]? with
    | some n => c.push (.i32 n :: c.stack)
    | none => .error .stuck
  | .globalSet i, c =>
    match c.stack with
    | .i32 n :: stack =>
      c.move { c.machine with globals := c.machine.globals.set i n } stack
    | _ => .error .stuck
  | .localGet i, c =>
    match c.locals[i]? with
    | some v => c.push (v :: c.stack)
    | none => .error .stuck
  | .localSet i, c =>
    match c.stack with
    | v :: stack => .ok (.next, { c with locals := c.locals.set i v, stack })
    | [] => .error .stuck
  | .i32Const n, c => c.push (.i32 n :: c.stack)
  | .i64Const n, c => c.push (.i64 n :: c.stack)
  | .f32Const bits, c => c.push (.f32 bits :: c.stack)
  | .f64Const bits, c => c.push (.f64 bits :: c.stack)
  | .i32Add, c =>
    match c.stack with
    | .i32 b :: .i32 a :: stack => c.push (.i32 (a + b) :: stack)
    | _ => .error .stuck
  | .i32Sub, c =>
    match c.stack with
    | .i32 b :: .i32 a :: stack => c.push (.i32 (a - b) :: stack)
    | _ => .error .stuck
  | .i32Mul, c =>
    match c.stack with
    | .i32 b :: .i32 a :: stack => c.push (.i32 (a * b) :: stack)
    | _ => .error .stuck
  | .i32And, c =>
    match c.stack with
    | .i32 b :: .i32 a :: stack => c.push (.i32 (a &&& b) :: stack)
    | _ => .error .stuck
  | .i32LeU, c =>
    match c.stack with
    | .i32 b :: .i32 a :: stack => c.push (Config.truth (decide (a ≤ b)) :: stack)
    | _ => .error .stuck
  | .i32Eq, c =>
    match c.stack with
    | .i32 b :: .i32 a :: stack => c.push (Config.truth (decide (a = b)) :: stack)
    | _ => .error .stuck
  | .i32Eqz, c =>
    match c.stack with
    | .i32 a :: stack => c.push (Config.truth (decide (a = 0)) :: stack)
    | _ => .error .stuck
  | .i32Load8U offset, c =>
    match c.stack with
    | .i32 a :: stack =>
      if a.toNat + offset < c.machine.memory.size then
        c.push (.i32 (BitVec.ofNat 32 (c.machine.memory.bytes (a.toNat + offset)).toNat) ::
          stack)
      else .error .bounds
    | _ => .error .stuck
  | .i32Store8 offset, c =>
    match c.stack with
    | .i32 n :: .i32 a :: stack =>
      if a.toNat + offset < c.machine.memory.size then
        c.move { c.machine with
          memory := c.machine.memory.write (a.toNat + offset) [UInt8.ofNat n.toNat] } stack
      else .error .bounds
    | _ => .error .stuck
  | .memorySize, c => c.push (.i32 (BitVec.ofNat 32 c.machine.memory.pages) :: c.stack)
  | .memoryGrow, c =>
    match c.stack with
    | .i32 n :: stack =>
      if c.machine.memory.pages + n.toNat ≤ env.limit then
        c.move { c.machine with
          memory := { c.machine.memory with pages := c.machine.memory.pages + n.toNat } }
          (.i32 (BitVec.ofNat 32 c.machine.memory.pages) :: stack)
      else c.push (.i32 (-1) :: stack)
    | _ => .error .stuck
  | .drop, c =>
    match c.stack with
    | _ :: stack => c.push stack
    | [] => .error .stuck
  | .unreachable, _ => .error .unreachable
  | .ret, c => .ok (.ret, c)
  | .call f, c =>
    if env.arity f ≤ c.stack.length then
      match env.call f (c.stack.take (env.arity f)).reverse c.machine with
      | .ok (results, machine) =>
        c.move machine (results.reverse ++ c.stack.drop (env.arity f))
      | .error t => .error t
    else .error .stuck
  | .br depth, c => .ok (.branch depth, c)
  | .brIf depth, c =>
    match c.stack with
    | .i32 n :: stack =>
      if n = 0 then c.push stack else .ok (.branch depth, { c with stack })
    | _ => .error .stuck
  | .block body, c => (run env fuel body { c with stack := [] }).map (leave c.stack)
  | .loop body, c => (again (run env fuel body) fuel c).map (leave c.stack)
  | .ite body, c =>
    match c.stack with
    | .i32 n :: stack =>
      if n = 0 then c.push stack
      else (run env fuel body { c with stack := [] }).map (leave stack)
    | _ => .error .stuck

/-- Instructions one after the other. -/
def run (env : Env κ τ) (fuel : ℕ) : List Instr → Config κ → Result κ τ
  | [], c => .ok (.next, c)
  | i :: is, c => andThen (step env fuel i c) (run env fuel is)

end

/-- A call of a function with this body, these locals and this many results. -/
def invoke (env : Env κ τ) (fuel : ℕ) (body : List Instr) (locals : List Value) (results : ℕ)
    (machine : Machine κ) : Except (Trap τ) (List Value × Machine κ) :=
  match run env fuel body ⟨machine, locals, []⟩ with
  | .ok (_, c) => .ok ((c.stack.take results).reverse, c.machine)
  | .error t => .error t

variable {env : Env κ τ} {fuel : ℕ}

attribute [local simp] step run

theorem run_nil (c : Config κ) : run env fuel [] c = .ok (.next, c) := rfl

@[simp] theorem andThen_next (c : Config κ) (k : Config κ → Result κ τ) :
    andThen (.ok (.next, c)) k = k c := rfl

@[simp] theorem andThen_branch (d : ℕ) (c : Config κ) (k : Config κ → Result κ τ) :
    andThen (.ok (.branch d, c)) k = .ok (.branch d, c) := rfl

@[simp] theorem andThen_ret (c : Config κ) (k : Config κ → Result κ τ) :
    andThen (.ok (.ret, c)) k = .ok (.ret, c) := rfl

@[simp] theorem andThen_error (t : Trap τ) (k : Config κ → Result κ τ) :
    andThen (.error t) k = .error t := rfl

theorem andThen_assoc (r : Result κ τ) (k k' : Config κ → Result κ τ) :
    andThen (andThen r k) k' = andThen r fun c => andThen (k c) k' := by
  cases r with
  | error t => rfl
  | ok r =>
    obtain ⟨flow, c⟩ := r
    cases flow <;> rfl

/-- Code runs in two parts. -/
theorem run_append (is js : List Instr) (c : Config κ) :
    run env fuel (is ++ js) c = andThen (run env fuel is c) (run env fuel js) := by
  induction is generalizing c with
  | nil => rfl
  | cons i is ih =>
    rw [List.cons_append, run, run, andThen_assoc]
    exact congrArg (andThen _) (funext ih)

/-- A byte that was loaded is zero in memory when it is zero on the stack. -/
theorem ofNat_toNat_eq_zero (b : UInt8) : BitVec.ofNat 32 b.toNat = 0 ↔ b = 0 := by
  constructor
  · intro h
    have hnat := congrArg BitVec.toNat h
    have hlt := b.toNat_lt
    rw [BitVec.toNat_ofNat, Nat.mod_eq_of_lt (by omega)] at hnat
    exact UInt8.toNat_inj.mp hnat
  · rintro rfl
    rfl

/-- Constants are pushed one after the other. -/
theorem run_consts {α : Type} (env : Env κ τ) (fuel : ℕ) {code : α → Instr} {value : α → Value}
    (as : List α) (hcode : ∀ a c, step env fuel (code a) c = c.push (value a :: c.stack)) (c : Config κ) :
    run env fuel (as.map code) c =
      .ok (.next, { c with stack := (as.map value).reverse ++ c.stack }) := by
  induction as generalizing c with
  | nil => rfl
  | cons a as ih =>
    rw [List.map_cons, run, hcode, Config.push, andThen_next, ih]
    simp

section Steps

variable {m : Machine κ} {locals stack : List Value}

variable {is : List Instr} {a b n : BitVec 32} {v : Value} {i offset p depth : ℕ}

theorem run_globalGet {g : BitVec 32} (h : m.globals[i]? = some g) :
    run env fuel (.globalGet i :: is) ⟨m, locals, stack⟩ =
      run env fuel is ⟨m, locals, .i32 g :: stack⟩ := by
  simp [h, Config.push]

theorem run_globalSet : run env fuel (.globalSet i :: is) ⟨m, locals, .i32 n :: stack⟩ =
    run env fuel is ⟨{ m with globals := m.globals.set i n }, locals, stack⟩ := rfl

theorem run_localGet (h : locals[i]? = some v) :
    run env fuel (.localGet i :: is) ⟨m, locals, stack⟩ =
      run env fuel is ⟨m, locals, v :: stack⟩ := by
  simp [h, Config.push]

theorem run_localSet : run env fuel (.localSet i :: is) ⟨m, locals, v :: stack⟩ =
    run env fuel is ⟨m, locals.set i v, stack⟩ := rfl

theorem run_i32Const : run env fuel (.i32Const n :: is) ⟨m, locals, stack⟩ =
    run env fuel is ⟨m, locals, .i32 n :: stack⟩ := rfl

theorem run_i32Add : run env fuel (.i32Add :: is) ⟨m, locals, .i32 b :: .i32 a :: stack⟩ =
    run env fuel is ⟨m, locals, .i32 (a + b) :: stack⟩ := rfl

theorem run_i32Sub : run env fuel (.i32Sub :: is) ⟨m, locals, .i32 b :: .i32 a :: stack⟩ =
    run env fuel is ⟨m, locals, .i32 (a - b) :: stack⟩ := rfl

theorem run_i32Mul : run env fuel (.i32Mul :: is) ⟨m, locals, .i32 b :: .i32 a :: stack⟩ =
    run env fuel is ⟨m, locals, .i32 (a * b) :: stack⟩ := rfl

theorem run_i32And : run env fuel (.i32And :: is) ⟨m, locals, .i32 b :: .i32 a :: stack⟩ =
    run env fuel is ⟨m, locals, .i32 (a &&& b) :: stack⟩ := rfl

theorem run_i32LeU : run env fuel (.i32LeU :: is) ⟨m, locals, .i32 b :: .i32 a :: stack⟩ =
    run env fuel is ⟨m, locals, Config.truth (decide (a ≤ b)) :: stack⟩ := rfl

theorem run_i32Eq : run env fuel (.i32Eq :: is) ⟨m, locals, .i32 b :: .i32 a :: stack⟩ =
    run env fuel is ⟨m, locals, Config.truth (decide (a = b)) :: stack⟩ := rfl

theorem run_i32Eqz : run env fuel (.i32Eqz :: is) ⟨m, locals, .i32 a :: stack⟩ =
    run env fuel is ⟨m, locals, Config.truth (decide (a = 0)) :: stack⟩ := rfl

theorem run_memorySize : run env fuel (.memorySize :: is) ⟨m, locals, stack⟩ =
    run env fuel is ⟨m, locals, .i32 (BitVec.ofNat 32 m.memory.pages) :: stack⟩ := rfl

theorem run_memoryGrow (h : m.memory.pages + n.toNat ≤ env.limit) :
    run env fuel (.memoryGrow :: is) ⟨m, locals, .i32 n :: stack⟩ =
      run env fuel is
        ⟨{ m with memory := { m.memory with pages := m.memory.pages + n.toNat } }, locals,
          .i32 (BitVec.ofNat 32 m.memory.pages) :: stack⟩ := by
  rw [run, step]
  dsimp only
  rw [if_pos h]
  rfl

theorem run_memoryGrow_refused (h : ¬ m.memory.pages + n.toNat ≤ env.limit) :
    run env fuel (.memoryGrow :: is) ⟨m, locals, .i32 n :: stack⟩ =
      run env fuel is ⟨m, locals, .i32 (-1) :: stack⟩ := by
  rw [run, step]
  dsimp only
  rw [if_neg h]
  rfl

theorem run_ret (c : Config κ) : run env fuel (.ret :: is) c = .ok (.ret, c) := rfl

theorem run_brIf : run env fuel (.brIf depth :: is) ⟨m, locals, Config.truth true :: stack⟩ =
    .ok (.branch depth, ⟨m, locals, stack⟩) := rfl

theorem run_brIf_not :
    run env fuel (.brIf depth :: is) ⟨m, locals, Config.truth false :: stack⟩ =
      run env fuel is ⟨m, locals, stack⟩ := rfl

/-- A branch that is taken runs its body on no operands. -/
theorem run_ite {body : List Instr} (hn : n ≠ 0) :
    run env fuel (.ite body :: is) ⟨m, locals, .i32 n :: stack⟩ =
      andThen ((run env fuel body ⟨m, locals, []⟩).map (leave stack)) (run env fuel is) := by
  rw [run, step]
  dsimp only
  rw [if_neg hn]

theorem run_ite_not {body : List Instr} :
    run env fuel (.ite body :: is) ⟨m, locals, .i32 0 :: stack⟩ =
      run env fuel is ⟨m, locals, stack⟩ := rfl

theorem run_block {body : List Instr} (c : Config κ) :
    run env fuel (.block body :: is) c =
      andThen ((run env fuel body { c with stack := [] }).map (leave c.stack))
        (run env fuel is) := rfl

theorem run_loop {body : List Instr} (c : Config κ) :
    run env fuel (.loop body :: is) c =
      andThen ((again (run env fuel body) fuel c).map (leave c.stack)) (run env fuel is) := rfl

/-- A call takes as many operands as it has parameters. -/
theorem run_call (env : Env κ τ) (fuel : ℕ) (m : Machine κ) (locals stack : List Value)
    (is : List Instr) {f : ℕ} {args : List Value} (harity : args.length = env.arity f) :
    run env fuel (.call f :: is) ⟨m, locals, args.reverse ++ stack⟩ =
      (env.call f args m).bind fun r => run env fuel is ⟨r.2, locals, r.1.reverse ++ stack⟩ := by
  have hlen : env.arity f ≤ (args.reverse ++ stack).length := by
    rw [List.length_append, List.length_reverse, harity]
    exact Nat.le_add_right _ _
  have htake : ((args.reverse ++ stack).take (env.arity f)).reverse = args := by
    rw [← harity, ← List.length_reverse, List.take_left, List.reverse_reverse]
  have hdrop : (args.reverse ++ stack).drop (env.arity f) = stack := by
    rw [← harity, ← List.length_reverse, List.drop_left]
  rw [run, step]
  dsimp only
  rw [if_pos hlen, htake, hdrop]
  cases env.call f args m with
  | ok r => rfl
  | error t => rfl

theorem run_i32Load8U (ha : a.toNat + offset = p) (h : p < m.memory.size) :
    run env fuel (.i32Load8U offset :: is) ⟨m, locals, .i32 a :: stack⟩ =
      run env fuel is
        ⟨m, locals, .i32 (BitVec.ofNat 32 (m.memory.bytes p).toNat) :: stack⟩ := by
  subst ha
  rw [run, step]
  dsimp only
  rw [if_pos h]
  rfl

theorem run_i32Store8 (ha : a.toNat + offset = p) (h : p < m.memory.size) :
    run env fuel (.i32Store8 offset :: is) ⟨m, locals, .i32 n :: .i32 a :: stack⟩ =
      run env fuel is
        ⟨{ m with memory := m.memory.write p [UInt8.ofNat n.toNat] }, locals, stack⟩ := by
  subst ha
  rw [run, step]
  dsimp only
  rw [if_pos h]
  rfl

end Steps

/-- As many drops as there are values. -/
theorem run_drops {α : Type} (env : Env κ τ) (fuel : ℕ) {as : List α} {vs : List Value}
    (stack : List Value) (h : vs.length = as.length) (machine : Machine κ)
    (locals : List Value) :
    run env fuel (as.map fun _ => .drop) ⟨machine, locals, vs ++ stack⟩ =
      .ok (.next, ⟨machine, locals, stack⟩) := by
  induction as generalizing vs with
  | nil =>
    obtain rfl := List.length_eq_zero_iff.mp h
    rfl
  | cons a as ih =>
    cases vs with
    | nil => cases h
    | cons v vs =>
      rw [List.map_cons, run]
      simp only [step, List.cons_append, Config.push, andThen_next]
      exact ih (Nat.succ.inj h)

end Eo9.Library.Wasm
