import Eo9.Component.Binder

/-!
# What `bind` reports

A call of the binder's `bind` returns what `configure` answered, and success from then on, as
long as the answers lie in memory the way `bind`'s own result does. The binder takes this for
granted and reads the first byte of any answer that is passed by pointer as a discriminant.
-/

namespace Eo9.Component

open Eo9.Library Eo9.Library.Canonical
open Eo9.Library.Wasm (Instr Env Machine Memory Trap Config run step again leave)

variable {ω κ τ : Type}

theorem despecialize_bindResult :
    bindResult.despecialize = .variant [WitType.unit, .string] := rfl

/-- A zero byte is success. -/
theorem liftReport_ok {m : Memory} {p : ℕ} (hp : 4 ∣ p) (hsize : p + 12 ≤ m.size)
    (hbyte : m.bytes p = 0) : liftReport m p = some (.ok ()) := by
  have hdisc : readNat m p 1 = 0 := by simp [readNat, slice, leValue, hbyte]
  have hload : Canonical.load m bindResult.despecialize p = some (.variant 0 (.record [])) := by
    rw [despecialize_bindResult]
    simp [Canonical.load, discriminantWidth, hdisc, loadCase, loadFields]
  have hplace : bindResult.despecialize.alignment ∣ p ∧
      p + bindResult.despecialize.size ≤ m.size := ⟨hp, hsize⟩
  rw [liftReport, if_pos hplace, hload]
  rfl

/-- A one, an address and a length are an error. -/
theorem liftReport_error {m : Memory} {p q : ℕ} {bytes : List UInt8} (hp : 4 ∣ p)
    (hsize : p + 12 ≤ m.size) (hbyte : m.bytes p = 1)
    (hq : slice m.bytes (p + 4) 4 = leBytes 4 q)
    (hlen : slice m.bytes (p + 8) 4 = leBytes 4 bytes.length)
    (hbytes : slice m.bytes q bytes.length = bytes) (hin : q + bytes.length ≤ m.size)
    (hlt : m.size < 2 ^ 32) (hvalid : Utf8.Valid bytes) :
    liftReport m p = some (.error bytes) := by
  have hdisc : readNat m p 1 = 1 := by simp [readNat, slice, leValue, hbyte]
  have hqn : readNat m (p + 4) 4 = q := readNat_of_slice hq (by omega)
  have hln : readNat m (p + 4 + 4) 4 = bytes.length := readNat_of_slice hlen (by omega)
  have hload : Canonical.load m bindResult.despecialize p = some (.variant 1 (.string bytes)) := by
    rw [despecialize_bindResult]
    have hoffset : Ty.payloadOffset [WitType.unit, .string] = 4 := by decide
    simp [Canonical.load, discriminantWidth, hdisc, loadCase, hoffset, hqn, hln,
      loadString_eq hbytes hin hvalid]
  have hplace : bindResult.despecialize.alignment ∣ p ∧
      p + bindResult.despecialize.size ≤ m.size := ⟨hp, hsize⟩
  rw [liftReport, if_pos hplace, hload]
  rfl

def FlatConst.value (arenaBase : ℕ) : FlatConst → Wasm.Value
  | .i32 n => .i32 n
  | .i64 n => .i64 n
  | .f32 bits => .f32 bits
  | .f64 bits => .f64 bits
  | .arenaPtr offset => .i32 (BitVec.ofNat 32 (arenaBase + offset))

/-- The core arguments of the call of `configure`. -/
def configureArgs (plan : BinderPlan) : List Wasm.Value :=
  plan.constants.flats.map (FlatConst.value (layout plan).arenaBase) ++
    if plan.configSig.retptr then [.i32 16] else []

section Code

variable {env : Env ω (Fault τ)} {fuel : ℕ} {plan : BinderPlan} {m : Machine ω} {b : BitVec 32}

/-- What follows the call of `configure`. -/
def bindTail (plan : BinderPlan) : List Instr :=
  (if plan.configSig.retptr then
    [.i32Const 16, .i32Load8U 0, .i32Eqz, .ite [.i32Const 1, .globalSet 1]]
  else
    [.i32Const 1, .globalSet 1, .i32Const 16, .i32Const 0, .i32Store8 0]) ++
  [.i32Const 16]

theorem bindBody_eq (plan : BinderPlan) : bindBody plan (layout plan) =
    [.globalGet 1, .ite [.i32Const 16, .i32Const 0, .i32Store8 0, .i32Const 16, .ret]] ++
      (plan.constants.flats.map (constInstr (layout plan).arenaBase) ++
        ((if plan.configSig.retptr then [.i32Const 16] else []) ++
          ([.call 0] ++ (plan.configSig.results.map (fun _ => .drop) ++ bindTail plan)))) := by
  simp [bindBody, bindTail, layout]

/-- What a component reads after a run that returns an address. -/
theorem callBind_of_run {body : List Instr} {m' : Machine ω} {flow : Wasm.Flow}
    {locals stack : List Wasm.Value} {q : BitVec 32} {p : ℕ} {report : Report} (hq : q.toNat = p)
    (hrun : run env loopFuel body ⟨m, [], []⟩ = .ok (flow, ⟨m', locals, .i32 q :: stack⟩))
    (hlift : liftReport m'.memory p = some report) :
    callBind env body m = .ok (report, m') := by
  subst hq
  rw [callBind, Wasm.invoke, hrun]
  simp only [List.take_succ_cons, List.take_zero, List.reverse_singleton, hlift]

/-- A trap of the code is a trap of the call. -/
theorem callBind_of_trap {body : List Instr} {t : Trap (Fault τ)}
    (hrun : run env loopFuel body ⟨m, [], []⟩ = .error t) : callBind env body m = .error t := by
  rw [callBind, Wasm.invoke, hrun]

/-- Once applied, `bind` writes a zero and reports success. -/
theorem callBind_applied (hm : m.globals = [b, 1]) (hpage : 1 ≤ m.memory.pages) :
    callBind env (bindBody plan (layout plan)) m =
      .ok (.ok (), { m with memory := m.memory.write 16 [0] }) := by
  have hsize : 28 ≤ m.memory.size := by
    unfold Wasm.Memory.size Wasm.pageSize
    omega
  have hlt : 16 < m.memory.size := by omega
  have hbranch : run env loopFuel [.i32Const 16, .i32Const 0, .i32Store8 0, .i32Const 16, .ret]
      ⟨m, [], []⟩ = .ok (.ret, ⟨{ m with memory := m.memory.write 16 [0] }, [], [.i32 16]⟩) := by
    rw [Wasm.run_i32Const, Wasm.run_i32Const, Wasm.run_i32Store8 (p := 16) (by decide) hlt,
      Wasm.run_i32Const, Wasm.run_ret]
    rfl
  have hguard : run env loopFuel
      [.globalGet 1, .ite [.i32Const 16, .i32Const 0, .i32Store8 0, .i32Const 16, .ret]]
      ⟨m, [], []⟩ = .ok (.ret, ⟨{ m with memory := m.memory.write 16 [0] }, [], [.i32 16]⟩) := by
    rw [Wasm.run_globalGet (by rw [hm]; rfl), Wasm.run_ite (by decide), hbranch]
    rfl
  have hlift : liftReport (m.memory.write 16 [0]) 16 = some (.ok ()) := by
    exact liftReport_ok (by decide) hsize (m.memory.write_byte 16 0)
  have hrun : run env loopFuel (bindBody plan (layout plan)) ⟨m, [], []⟩ =
      .ok (.ret, ⟨{ m with memory := m.memory.write 16 [0] }, [], [.i32 16]⟩) := by
    rw [bindBody_eq, Wasm.run_append, hguard, Wasm.andThen_ret]
  exact callBind_of_run (by decide) hrun hlift

/-- Before that the constants are passed to `configure`. -/
theorem run_bindBody (env : Env ω (Fault τ)) (fuel : ℕ) (hm : m.globals = [b, 0])
    (harity : (configureArgs plan).length = env.arity 0) :
    run env fuel (bindBody plan (layout plan)) ⟨m, [], []⟩ =
      (env.call 0 (configureArgs plan) m).bind fun r =>
        run env fuel (plan.configSig.results.map (fun _ => .drop) ++ bindTail plan)
          ⟨r.2, [], r.1.reverse⟩ := by
  have hguard : run env fuel
      [.globalGet 1, .ite [.i32Const 16, .i32Const 0, .i32Store8 0, .i32Const 16, .ret]]
      ⟨m, [], []⟩ = .ok (.next, ⟨m, [], []⟩) := by
    rw [Wasm.run_globalGet (by rw [hm]; rfl), Wasm.run_ite_not]
    rfl
  have hstep : ∀ (flat : FlatConst) (c : Config ω), Wasm.step env fuel
      (constInstr (layout plan).arenaBase flat) c =
        c.push (flat.value (layout plan).arenaBase :: c.stack) := by
    intro flat c
    cases flat <;> rfl
  have hconsts := Wasm.run_consts env fuel plan.constants.flats hstep ⟨m, [], []⟩
  have hptr : ∀ stack, run env fuel (if plan.configSig.retptr then [.i32Const 16] else [])
      ⟨m, [], stack⟩ =
      .ok (.next, ⟨m, [], (if plan.configSig.retptr then [.i32 16] else []) ++ stack⟩) := by
    intro stack
    cases plan.configSig.retptr <;> rfl
  have hstack : (if plan.configSig.retptr then [Wasm.Value.i32 16] else []) ++
      ((plan.constants.flats.map (FlatConst.value (layout plan).arenaBase)).reverse ++ []) =
      (configureArgs plan).reverse := by
    cases h : plan.configSig.retptr <;> simp [configureArgs, h]
  have hcall := Wasm.run_call env fuel m [] []
    (plan.configSig.results.map (fun _ => .drop) ++ bindTail plan) harity
  rw [bindBody_eq, Wasm.run_append, hguard, Wasm.andThen_next, Wasm.run_append, hconsts,
    Wasm.andThen_next, Wasm.run_append, hptr, Wasm.andThen_next, hstack, List.singleton_append,
    ← List.append_nil (configureArgs plan).reverse, hcall]
  cases env.call 0 (configureArgs plan) m with
  | error t => rfl
  | ok r => simp

/-- With a return pointer the first byte of the answer decides. -/
theorem run_bindTail_retptr (env : Env ω (Fault τ)) (fuel : ℕ) (plan : BinderPlan)
    (hsig : plan.configSig.retptr = true) (hm : m.globals = [b, 0])
    (hsize : 16 < m.memory.size) :
    run env fuel (bindTail plan) ⟨m, [], []⟩ =
      .ok (.next, ⟨{ m with globals := [b, if m.memory.bytes 16 = 0 then 1 else 0] }, [],
        [.i32 16]⟩) := by
  have hbyte := Wasm.ofNat_toNat_eq_zero (m.memory.bytes 16)
  rw [bindTail, if_pos hsig, List.cons_append, List.cons_append, List.cons_append,
    List.singleton_append, Wasm.run_i32Const, Wasm.run_i32Load8U (p := 16) (by decide) hsize,
    Wasm.run_i32Eqz]
  by_cases h : m.memory.bytes 16 = 0
  · rw [decide_eq_true (hbyte.mpr h), if_pos h]
    have hset : run env fuel [.i32Const 1, .globalSet 1] ⟨m, [], []⟩ =
        .ok (.next, ⟨{ m with globals := [b, 1] }, [], []⟩) := by
      rw [Wasm.run_i32Const, Wasm.run_globalSet, hm]
      rfl
    have htruth : Config.truth true = .i32 1 := rfl
    rw [htruth, Wasm.run_ite (by decide), hset]
    rfl
  · have htruth : Config.truth false = .i32 0 := rfl
    rw [decide_eq_false (mt hbyte.mp h), if_neg h, ← hm, htruth, Wasm.run_ite_not]
    rfl

/-- Without one nothing is inspected. -/
theorem run_bindTail_value (env : Env ω (Fault τ)) (fuel : ℕ) (plan : BinderPlan)
    (hsig : plan.configSig.retptr = false) (hm : m.globals = [b, 0])
    (hsize : 16 < m.memory.size) :
    run env fuel (bindTail plan) ⟨m, [], []⟩ =
      .ok (.next, ⟨{ m with globals := [b, 1], memory := m.memory.write 16 [0] }, [],
        [.i32 16]⟩) := by
  have hif : ¬ plan.configSig.retptr = true := by simp [hsig]
  have hstore : run env fuel [.i32Store8 0, .i32Const 16]
      ⟨{ m with globals := [b, 1] }, [], [.i32 0, .i32 16]⟩ =
      run env fuel [.i32Const 16]
        ⟨{ m with globals := [b, 1], memory := m.memory.write 16 [0] }, [], []⟩ :=
    Wasm.run_i32Store8 (m := { m with globals := [b, 1] }) (p := 16) (by decide) hsize
  have hset : m.globals.set 1 1 = [b, 1] := by
    rw [hm]
    rfl
  rw [bindTail, if_neg hif, List.cons_append, List.cons_append, List.cons_append,
    List.cons_append, List.singleton_append, Wasm.run_i32Const, Wasm.run_globalSet, hset,
    Wasm.run_i32Const, Wasm.run_i32Const, hstore, Wasm.run_i32Const]
  rfl

end Code

end Eo9.Component
