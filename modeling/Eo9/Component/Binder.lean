import Eo9.Library.Lowering
import Eo9.Component.Configure

/-!
# The binder's core module

The code that `configure.rs` and `synth.rs` generate: the allocator, `bind` and the merger of
two `bind`s, and how components call them. A call from a component to the provider puts the
provider's result where the canonical ABI says; a component that calls `bind` lifts its result
from the memory of the binder.
-/

namespace Eo9.Component

open Eo9.Library Eo9.Library.Canonical
open Eo9.Library.Wasm (Instr Env Machine Memory Trap)

/-- The loop of `realloc_body`: grow the memory by a page until the bump pointer is inside. -/
def growLoop : List Instr :=
  [.globalGet 0, .memorySize, .i32Const 65536, .i32Mul, .i32LeU, .brIf 1,
    .i32Const 1, .memoryGrow, .i32Const (-1), .i32Eq, .ite [.unreachable], .br 0]

/-- `realloc_body`, with locals 0 old_ptr, 1 old_size, 2 align, 3 new_size and 4 ptr -/
def reallocBody : List Instr :=
  -- ptr = (bump + align - 1) & -align
  [.globalGet 0, .localGet 2, .i32Add, .i32Const 1, .i32Sub, .i32Const 0, .localGet 2, .i32Sub,
    .i32And, .localSet 4,
    -- bump = ptr + new_size
    .localGet 4, .localGet 3, .i32Add, .globalSet 0,
    .block [.loop growLoop],
    .localGet 4]

/-- The arguments of `cabi_realloc` for new room, and its local. -/
def reallocLocals (alignment size : ℕ) (ptr : BitVec 32) : List Wasm.Value :=
  [.i32 0, .i32 0, .i32 (BitVec.ofNat 32 alignment), .i32 (BitVec.ofNat 32 size), .i32 ptr]

def constInstr (arenaBase : ℕ) : FlatConst → Instr
  | .i32 n => .i32Const n
  | .i64 n => .i64Const n
  | .f32 bits => .f32Const bits
  | .f64 bits => .f64Const bits
  | .arenaPtr offset => .i32Const (BitVec.ofNat 32 (arenaBase + offset))

def bindBody (plan : BinderPlan) (layout : Layout) : List Instr :=
  let scratch : BitVec 32 := BitVec.ofNat 32 layout.scratch
  -- already applied: report success
  [.globalGet 1, .ite [.i32Const scratch, .i32Const 0, .i32Store8 0, .i32Const scratch, .ret]] ++
  plan.constants.flats.map (constInstr layout.arenaBase) ++
  (if plan.configSig.retptr then [.i32Const scratch] else []) ++
  [.call 0] ++
  plan.configSig.results.map (fun _ => .drop) ++
  (if plan.configSig.retptr then
    -- the first byte of the result is its discriminant
    [.i32Const scratch, .i32Load8U 0, .i32Eqz, .ite [.i32Const 1, .globalSet 1]]
  else
    -- nothing to inspect: mark applied and report success
    [.i32Const 1, .globalSet 1, .i32Const scratch, .i32Const 0, .i32Store8 0]) ++
  [.i32Const scratch]

/-- The body of the merged `bind` of `bind_merger`. -/
def mergerBody : List Instr :=
  [.i32Const 16, .call 0, .i32Const 16, .i32Load8U 0, .ite [.i32Const 16, .ret],
    .i32Const 16, .call 1, .i32Const 16]

/-- A trap outside the code: the callee's own, a return area or room for a string outside the
memory, or a result that is none in the caller's eyes. -/
inductive Fault (τ : Type) where
  | callee (t : τ)
  | area
  | room
  | result

variable {ω κ τ : Type}

/-- Rounds enough for any loop over the pages of a memory. -/
def loopFuel : ℕ := 65538

/-- The instance as lowering uses it, with `cabi_realloc`. -/
def access (limit : ℕ) : Access (Machine ω) (Trap (Fault τ)) where
  memory m := m.memory
  write p data m := { m with memory := m.memory.write p data }
  realloc alignment size m :=
    if size < 2 ^ 32 then
      let env : Env ω (Fault τ) := ⟨limit, fun _ => 0, fun _ _ _ => .error .stuck⟩
      match Wasm.invoke env loopFuel reallocBody (reallocLocals alignment size 0) 1 m with
      | .ok ([.i32 q], m') => .ok (q.toNat, m')
      | .ok _ => .error .stuck
      | .error t => .error t
    else .error (.host .room)
  fault := .host .room

/-- A function of another component, given the core arguments and the memory they point into. -/
abbrev Callee (ω τ : Type) := List Wasm.Value → Memory → ω → Except τ (Option Val × ω)

/-- A call of another component's function: more than one core result goes through the return
pointer, which is the last argument. -/
def callLowered (limit : ℕ) (result : Option WitType) (callee : Callee ω τ)
    (args : List Wasm.Value) (m : Machine ω) :
    Except (Trap (Fault τ)) (List Wasm.Value × Machine ω) :=
  match callee args m.memory m.outer with
  | .error t => .error (.host (.callee t))
  | .ok (answer, outer) =>
    match result, answer with
    | some ty, some v =>
      if 1 < ty.despecialize.flatten.length then
        match args.getLast? with
        | some (.i32 p) =>
          if ty.despecialize.alignment ∣ p.toNat ∧
              p.toNat + ty.despecialize.size ≤ m.memory.size then
            match (access limit).store ty.despecialize v p.toNat { m with outer } with
            | .ok m' => .ok ([], m')
            | .error t => .error t
          else .error (.host .area)
        | _ => .error .stuck
      else .ok (lowerOne ty.despecialize v, { m with outer })
    | _, _ => .ok ([], { m with outer })

/-- What `bind` reports: success, or the bytes of an error string. -/
abbrev Report := Except (List UInt8) Unit

/-- `result<_, string>` -/
def bindResult : WitType := .result none (some .string)

/-- Lift the result of `bind` from the address it returns. -/
def liftReport (m : Memory) (p : ℕ) : Option Report :=
  if bindResult.despecialize.alignment ∣ p ∧ p + bindResult.despecialize.size ≤ m.size then
    match Canonical.load m bindResult.despecialize p with
    | some (.variant 0 _) => some (.ok ())
    | some (.variant 1 (.string bytes)) => some (.error bytes)
    | _ => none
  else none

/-- Call a core `bind` and lift its result. -/
def callBind (env : Env ω (Fault τ)) (body : List Instr) (m : Machine ω) :
    Except (Trap (Fault τ)) (Report × Machine ω) :=
  match Wasm.invoke env loopFuel body [] 1 m with
  | .ok ([.i32 p], m') =>
    match liftReport m'.memory p.toNat with
    | some report => .ok (report, m')
    | none => .error (.host .result)
  | .ok _ => .error .stuck
  | .error t => .error t

/-- A provider's `configure`, with the provider's state; its answers are values of its result
type. -/
structure Provider (κ τ : Type) (result : Option WitType) where
  configure : Callee κ τ
  typed : ∀ {args memory s answer s'}, configure args memory s = .ok (answer, s') →
    match result with
    | none => answer = none
    | some ty => ∃ v, answer = some v ∧ Typed ty.despecialize v

/-- What is outside a binder: the provider's state, and for the reader every answer that
`configure` has given so far. -/
structure Outside (κ : Type) where
  provider : κ
  answers : List (Option Val)

/-- `configure` as the binder's import. -/
def Provider.callee {result : Option WitType} (p : Provider κ τ result) : Callee (Outside κ) τ :=
  fun args memory outside =>
    match p.configure args memory outside.provider with
    | .ok (answer, s) => .ok (answer, ⟨s, outside.answers ++ [answer]⟩)
    | .error t => .error t

/-- The imports of the binder's module, when the memory may have `limit` pages. -/
def binderEnv (limit : ℕ) (function : Function) (p : Provider κ τ function.result) :
    Env (Outside κ) (Fault τ) where
  limit
  arity _ := function.wasmSignature.params.length
  call _ args m := callLowered limit function.result p.callee args m

/-- Instantiate the module of `synthesize_binder_module`: one page, the arena as an active data
segment, the bump pointer and the flag. A segment outside the memory is a trap. -/
def instantiate (plan : BinderPlan) (outer : ω) : Option (Machine ω) :=
  let layout := layout plan
  if layout.arena = [] ∨ layout.arenaBase + layout.arena.length ≤ Wasm.pageSize then
    some
      { memory := ⟨overwrite (fun _ => 0) layout.arenaBase layout.arena, 1⟩
        globals := [BitVec.ofNat 32 layout.heapBase, 0]
        outer }
  else none

/-- One call of the binder's `bind`. -/
def bind (limit : ℕ) (function : Function) (constants : LoweredArguments)
    (p : Provider κ τ function.result) (m : Machine (Outside κ)) :
    Except (Trap (Fault τ)) (Report × Machine (Outside κ)) :=
  let plan := binderPlan function constants
  callBind (binderEnv limit function p) (bindBody plan (layout plan)) m

/-- The `bind` of a component, with the state of the components behind it. Errors are strings. -/
structure Entrypoint (ω τ : Type) where
  run : ω → Except τ (Report × ω)
  valid : ∀ {s bytes s'}, run s = .ok (.error bytes, s') → Utf8.Valid bytes

/-- A report as a value of `result<_, string>`. -/
def Report.val : Report → Val
  | .ok () => .variant 0 (.record [])
  | .error bytes => .variant 1 (.string bytes)

/-- An entrypoint as an import of the merger. -/
def Entrypoint.callee (e : Entrypoint ω τ) : Callee ω τ :=
  fun _ _ s =>
    match e.run s with
    | .ok (report, s') => .ok (some report.val, s')
    | .error t => .error t

/-- The imports of the merger's module. -/
def mergerEnv (limit : ℕ) (first second : Entrypoint ω τ) : Env ω (Fault τ) where
  limit
  arity _ := 1
  call f args m :=
    callLowered limit (some bindResult) (if f = 0 then first.callee else second.callee) args m

def mergerInstance (outer : ω) : Machine ω := ⟨⟨fun _ => 0, 1⟩, [32], outer⟩

/-- One call of the merged `bind`. -/
def mergedBind (limit : ℕ) (first second : Entrypoint ω τ) (m : Machine ω) :
    Except (Trap (Fault τ)) (Report × Machine ω) :=
  callBind (mergerEnv limit first second) mergerBody m

end Eo9.Component

/-!
## The allocator of synthesized modules

What `cabi_realloc` gives out lies above everything given out before and above what the module
keeps for itself, inside the memory. So lowering a result into such a module changes the return
area and fresh bytes only.
-/

namespace Eo9.Component

open Eo9.Library Eo9.Library.Canonical
open Eo9.Library.Wasm (Instr Env Machine Memory Trap Config run step again leave)

variable {ω τ : Type}

/-- One round of the loop: leave it, grow the memory by a page, or trap. -/
theorem run_growLoop {env : Env ω τ} {fuel : ℕ} {m : Machine ω} {b : BitVec 32}
    {rest : List (BitVec 32)} {locals : List Wasm.Value} (hm : m.globals = b :: rest)
    (hpages : m.memory.pages ≤ 65536) :
    run env fuel growLoop ⟨m, locals, []⟩ =
      if BitVec.ofNat 32 m.memory.pages * 65536 < b then
        if m.memory.pages + 1 ≤ env.limit then
          .ok (.branch 0,
            ⟨{ m with memory := { m.memory with pages := m.memory.pages + 1 } }, locals, []⟩)
        else .error .unreachable
      else .ok (.branch 1, ⟨m, locals, []⟩) := by
  have hne : BitVec.ofNat 32 m.memory.pages ≠ -1 := by
    intro h
    have hnat := congrArg BitVec.toNat h
    have hone : (-1 : BitVec 32).toNat = 2 ^ 32 - 1 := by decide
    rw [BitVec.toNat_ofNat, hone] at hnat
    omega
  rw [growLoop, Wasm.run_globalGet (by rw [hm]; rfl), Wasm.run_memorySize, Wasm.run_i32Const,
    Wasm.run_i32Mul, Wasm.run_i32LeU]
  by_cases hb : BitVec.ofNat 32 m.memory.pages * 65536 < b
  · have hguard : decide (b ≤ BitVec.ofNat 32 m.memory.pages * 65536) = false :=
      decide_eq_false (BitVec.not_le.mpr hb)
    rw [if_pos hb, hguard, Wasm.run_brIf_not, Wasm.run_i32Const]
    by_cases hl : m.memory.pages + 1 ≤ env.limit
    · have hcmp : decide (BitVec.ofNat 32 m.memory.pages = -1) = false := decide_eq_false hne
      rw [if_pos hl, Wasm.run_memoryGrow (n := 1) hl, Wasm.run_i32Const, Wasm.run_i32Eq, hcmp]
      exact Wasm.run_ite_not
    · have hcmp : decide ((-1 : BitVec 32) = -1) = true := decide_eq_true rfl
      rw [if_neg hl, Wasm.run_memoryGrow_refused (n := 1) hl, Wasm.run_i32Const, Wasm.run_i32Eq, hcmp]
      exact Wasm.run_ite (n := 1) (by decide)
  · have hguard : decide (b ≤ BitVec.ofNat 32 m.memory.pages * 65536) = true :=
      decide_eq_true (BitVec.not_lt.mp hb)
    rw [if_neg hb, hguard, Wasm.run_brIf]

/-- The loop ends with the bump pointer inside the memory, or in the trap of a memory that may
not grow. -/
theorem again_growLoop {env : Env ω τ} (hlimit : env.limit ≤ 65536) (fuel : ℕ) {n : ℕ}
    {m : Machine ω} {b : BitVec 32} {rest : List (BitVec 32)} (locals stack : List Wasm.Value)
    (hm : m.globals = b :: rest) (hpages : m.memory.pages ≤ 65536)
    (hzero : b = 0 → m.memory.pages ≤ 65535) (hn : 65536 < m.memory.pages + n) :
    again (run env fuel growLoop) n ⟨m, locals, stack⟩ = .error .unreachable ∨
      ∃ pages, m.memory.pages ≤ pages ∧ pages ≤ 65535 ∧ b.toNat ≤ pages * 65536 ∧
        again (run env fuel growLoop) n ⟨m, locals, stack⟩ =
          .ok (.branch 1, ⟨{ m with memory := { m.memory with pages } }, locals, []⟩) := by
  induction n generalizing m stack with
  | zero => omega
  | succ n ih =>
    rw [again, run_growLoop hm hpages]
    by_cases hb : BitVec.ofNat 32 m.memory.pages * 65536 < b
    · rw [if_pos hb]
      by_cases hl : m.memory.pages + 1 ≤ env.limit
      · rw [if_pos hl]
        have hpos : b ≠ 0 := by
          rintro rfl
          exact BitVec.not_lt_zero hb
        obtain hbad | ⟨pages, hle, hlt, hin, hrun⟩ :=
          ih (m := { m with memory := { m.memory with pages := m.memory.pages + 1 } })
            [] hm (by dsimp only; omega) (fun h => absurd h hpos)
            (by dsimp only; omega)
        · exact .inl hbad
        · exact .inr ⟨pages, by dsimp only at hle; omega, hlt, hin, hrun⟩
      · rw [if_neg hl]
        exact .inl rfl
    · rw [if_neg hb]
      have hle : b.toNat ≤ m.memory.pages * 65536 % 2 ^ 32 := by
        have hpage : (65536 : BitVec 32).toNat = 65536 := by decide
        have hnat := BitVec.le_def.mp (BitVec.not_lt.mp hb)
        rwa [BitVec.toNat_mul, BitVec.toNat_ofNat, hpage, Nat.mod_mul_mod] at hnat
      have hlt : m.memory.pages ≤ 65535 := by
        by_contra hge
        have heq : m.memory.pages = 65536 := by omega
        have hb0 : b.toNat = 0 := by
          rw [heq] at hle
          exact Nat.le_zero.mp hle
        exact hge (hzero (BitVec.eq_of_toNat_eq hb0))
      refine .inr ⟨m.memory.pages, Nat.le_refl _, hlt, ?_, rfl⟩
      exact hle.trans (Nat.mod_le _ _)

/-- Masking off the low bits. -/
theorem and_shiftLeft_allOnes (x : BitVec 32) (k : ℕ) :
    x &&& (BitVec.allOnes 32 <<< k) = (x >>> k) <<< k := by
  ext i hi
  simp only [BitVec.getElem_and, BitVec.getElem_shiftLeft, BitVec.getElem_allOnes]
  by_cases h : i < k
  · simp [h]
  · have hadd : k + (i - k) = i := by omega
    simp [h, hadd]
    exact (BitVec.getLsbD_eq_getElem hi).symm

/-- Rounding up by masks. -/
theorem toNat_roundUp {b a : BitVec 32} (ha : IsAlignment a.toNat)
    (hb : b.toNat + a.toNat ≤ 2 ^ 32) :
    (b + a - 1 &&& 0 - a).toNat = alignTo b.toNat a.toNat := by
  obtain ⟨k, hk, hmask⟩ : ∃ k, a.toNat = 2 ^ k ∧
      (0 : BitVec 32) - a = BitVec.allOnes 32 <<< k := by
    have hcase : ∀ n, a.toNat = n → a = BitVec.ofNat 32 n := by
      rintro n rfl
      simp
    rcases ha with h | h | h | h
    · exact ⟨0, h, by rw [hcase 1 h]; decide⟩
    · exact ⟨1, h, by rw [hcase 2 h]; decide⟩
    · exact ⟨2, h, by rw [hcase 4 h]; decide⟩
    · exact ⟨3, h, by rw [hcase 8 h]; decide⟩
  have hsum : (b + a - 1).toNat = b.toNat + a.toNat - 1 := by
    have hpos := ha.pos
    have hlt := b.isLt
    have hone : (1 : BitVec 32).toNat = 1 := by decide
    rw [BitVec.toNat_sub, BitVec.toNat_add, hone]
    omega
  rw [hmask, and_shiftLeft_allOnes, BitVec.toNat_shiftLeft, BitVec.toNat_ushiftRight, hsum,
    Nat.shiftLeft_eq, Nat.shiftRight_eq_div_pow, ← hk]
  refine Nat.mod_eq_of_lt ((Nat.div_mul_le_self _ _).trans_lt ?_)
  have hpos := ha.pos
  omega

/-- The straight part of `cabi_realloc`: round the bump pointer up and move it. -/
theorem run_reallocBody {env : Env ω τ} {fuel : ℕ} {m : Machine ω} {b q : BitVec 32}
    {rest : List (BitVec 32)} {alignment size : ℕ} (hm : m.globals = b :: rest)
    (hq : b + BitVec.ofNat 32 alignment - 1 &&& 0 - BitVec.ofNat 32 alignment = q) :
    run env fuel reallocBody ⟨m, reallocLocals alignment size 0, []⟩ =
      run env fuel [.block [.loop growLoop], .localGet 4]
        ⟨{ m with globals := (q + BitVec.ofNat 32 size) :: rest },
          reallocLocals alignment size q, []⟩ := by
  rw [reallocBody, Wasm.run_globalGet (by rw [hm]; rfl), Wasm.run_localGet rfl, Wasm.run_i32Add,
    Wasm.run_i32Const, Wasm.run_i32Sub, Wasm.run_i32Const, Wasm.run_localGet rfl,
    Wasm.run_i32Sub, Wasm.run_i32And, Wasm.run_localSet, Wasm.run_localGet rfl,
    Wasm.run_localGet rfl, Wasm.run_i32Add, Wasm.run_globalSet, hm, hq]
  rfl

/-- What `cabi_realloc` does: the bump pointer is rounded up, that address is given out, and
the pointer moves behind it, unless the memory may not grow that far. -/
theorem invoke_realloc (env : Env ω τ) (hlimit : env.limit ≤ 65536) {fuel : ℕ}
    (hfuel : 65536 < fuel) {m : Machine ω} {b : BitVec 32} {rest : List (BitVec 32)}
    {alignment : ℕ} (size : ℕ) (hm : m.globals = b :: rest) (hpages : m.memory.pages ≤ 65535)
    (hb : b.toNat ≤ 65535 * 65536) (ha : IsAlignment alignment) :
    Wasm.invoke env fuel reallocBody (reallocLocals alignment size 0) 1 m =
        .error .unreachable ∨
      ∃ (q next : BitVec 32) (pages : ℕ), q.toNat = alignTo b.toNat alignment ∧
        next = q + BitVec.ofNat 32 size ∧ m.memory.pages ≤ pages ∧ pages ≤ 65535 ∧
        next.toNat ≤ pages * 65536 ∧
        Wasm.invoke env fuel reallocBody (reallocLocals alignment size 0) 1 m =
          .ok ([.i32 q], ⟨{ m.memory with pages }, next :: rest, m.outer⟩) := by
  have hround : (BitVec.ofNat 32 alignment).toNat = alignment := by
    rcases ha with rfl | rfl | rfl | rfl <;> rfl
  obtain ⟨q, hq⟩ : ∃ q, b + BitVec.ofNat 32 alignment - 1 &&&
      0 - BitVec.ofNat 32 alignment = q := ⟨_, rfl⟩
  have hqv : q.toNat = alignTo b.toNat alignment := by
    rw [← hq, toNat_roundUp (by rwa [hround])
      (by rw [hround]; unfold IsAlignment at ha; omega), hround]
  obtain hbad | ⟨pages, hle, hlt, hin, hrun⟩ := again_growLoop hlimit fuel (n := fuel)
    (m := { m with globals := (q + BitVec.ofNat 32 size) :: rest })
    (reallocLocals alignment size q) [] rfl (hpages.trans (by decide))
    (fun _ => hpages) (by dsimp only; omega)
  · left
    have hblock : run env fuel [.block [.loop growLoop], .localGet 4]
        ⟨{ m with globals := (q + BitVec.ofNat 32 size) :: rest },
          reallocLocals alignment size q, []⟩ = .error .unreachable := by
      rw [Wasm.run_block, Wasm.run_loop, hbad]
      rfl
    rw [Wasm.invoke, run_reallocBody hm hq, hblock]
  · right
    refine ⟨q, _, pages, hqv, rfl, hle, hlt, hin, ?_⟩
    have hblock : run env fuel [.block [.loop growLoop], .localGet 4]
        ⟨{ m with globals := (q + BitVec.ofNat 32 size) :: rest },
          reallocLocals alignment size q, []⟩ =
        .ok (.next, ⟨⟨{ m.memory with pages }, (q + BitVec.ofNat 32 size) :: rest, m.outer⟩,
          reallocLocals alignment size q, [.i32 q]⟩) := by
      rw [Wasm.run_block, Wasm.run_loop, hrun]
      rfl
    rw [Wasm.invoke, run_reallocBody hm hq, hblock]
    rfl

/-- The end of what has been given out. -/
def bump (m : Machine ω) : ℕ := (m.globals.headD 0).toNat

/-- An instance whose allocator works, with its other globals and what is around it. -/
structure Settled (rest : List (BitVec 32)) (o : ω) (m : Machine ω) : Prop where
  globals : ∃ b, m.globals = b :: rest
  bump_le : bump m ≤ 65535 * 65536
  pages_le : m.memory.pages ≤ 65535
  outer : m.outer = o

/-- The allocator only moves up. -/
theorem bumping_access {limit : ℕ} (hlimit : limit ≤ 65536) (rest : List (BitVec 32)) (o : ω) :
    Bumping (access limit : Access (Machine ω) (Trap (Fault τ))) (Settled rest o) bump where
  write_bytes _ _ _ := rfl
  write_size _ _ _ := rfl
  write_floor _ _ _ := rfl
  write_inv := by
    intro p data m h
    exact ⟨h.globals, h.bump_le, h.pages_le, h.outer⟩
  room := by
    intro alignment size m q m' ha hm h
    obtain ⟨b, hb⟩ := hm.globals
    have hbump : bump m = b.toNat := by simp [bump, hb]
    unfold Access.room at h
    split at h
    · next q' m₁ hreal =>
      split_ifs at h with hroom
      obtain ⟨rfl, rfl⟩ := Prod.mk.inj (Except.ok.inj h)
      simp only [access] at hreal hroom ⊢
      split_ifs at hreal with hsize
      obtain hbad | ⟨q, next, pages, hq, hnext, hle, hlt, hin, hrun⟩ :=
        invoke_realloc (⟨limit, fun _ => 0, fun _ _ _ => .error .stuck⟩ : Env ω (Fault τ))
          hlimit (show 65536 < loopFuel by decide) size hb hm.pages_le
          (by rw [← hbump]; exact hm.bump_le) ha
      · rw [hbad] at hreal
        cases hreal
      · rw [hrun] at hreal
        obtain ⟨rfl, rfl⟩ := Prod.mk.inj (Except.ok.inj hreal)
        have hmem : q.toNat + size ≤ pages * 65536 := hroom.2
        -- the room lies inside the memory, so the pointer has not wrapped
        have hnextv : next.toNat = q.toNat + size := by
          rw [hnext, BitVec.toNat_add, BitVec.toNat_ofNat]
          omega
        have hup := le_alignTo b.toNat ha.pos
        refine ⟨⟨⟨next, rfl⟩, ?_, hlt, hm.outer⟩, ?_, ?_, hmem, ?_, rfl⟩
        · exact hin.trans (Nat.mul_le_mul_right _ hlt)
        · rw [hbump, hq]
          exact hup
        · exact hnextv.ge
        · exact Nat.mul_le_mul_right _ hle
    · cases h

end Eo9.Component
