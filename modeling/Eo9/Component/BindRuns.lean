import Eo9.Component.Reports

/-!
# Runs of `bind`

What any number of calls of `bind` report on one instance of a binder, and that a merged `bind`
reports the first error of the two it calls.
-/

namespace Eo9.Component

open Eo9.Library Eo9.Library.Canonical
open Eo9.Library.Wasm (Machine Memory Trap)

variable {ω κ τ : Type}

/-- What one call of `bind` reports, and the answers `configure` gives during the call. -/
structure Call where
  report : Report
  answers : List (Option Val)

/-- A number of calls of `bind`, one after the other. -/
def binds (limit : ℕ) (function : Function) (constants : LoweredArguments)
    (p : Provider κ τ function.result) : ℕ → Machine (Outside κ) →
    Except (Trap (Fault τ)) (List Call × Machine (Outside κ))
  | 0, m => .ok ([], m)
  | n + 1, m =>
    match bind limit function constants p m with
    | .error t => .error t
    | .ok (report, m') =>
      let call : Call := ⟨report, m'.outer.answers.drop m.outer.answers.length⟩
      match binds limit function constants p n m' with
      | .error t => .error t
      | .ok (calls, m'') => .ok (call :: calls, m'')

/-- Whether `configure` has answered with something other than an error. -/
def Succeeded (result : Option WitType) (calls : List Call) : Prop :=
  ∃ call ∈ calls, ∃ answer ∈ call.answers, failure result answer = none

/-- A call that reports what `configure` said, after the calls `past`. -/
structure Faithful (result : Option WitType) (past : List Call) (call : Call) : Prop where
  ok_iff : call.report = .ok () ↔ Succeeded result (past ++ [call])
  error : ∀ answer ∈ call.answers, ∀ bytes,
    failure result answer = some (.string bytes) → call.report = .error bytes
  again : Succeeded result past → call.answers = []
  asked : ¬ Succeeded result past → ∃ answer, call.answers = [answer]

section Start

variable {function : Function} {constants : LoweredArguments} {fromStr : FromStr}
  {args : List (Text × Text)}

/-- The return pointer is on both sides, so the constants have to match the other parameters. -/
theorem aligned_iff : Aligned function constants ↔ constants.flats.length +
    (if function.wasmSignature.retptr = true then 1 else 0) =
      function.wasmSignature.params.length := by
  cases hretptr : function.wasmSignature.retptr <;>
    simp [Aligned, configureArgs, binderPlan, hretptr]

theorem Function.length_params (function : Function) : function.wasmSignature.params.length =
    (if function.wasmSignature.indirectParams = true then 1 else
      (Ty.flattenAll (WitType.despecializeFields function.params)).length) +
      if function.wasmSignature.retptr = true then 1 else 0 := by
  have hparams : function.wasmSignature.params =
      (if function.wasmSignature.indirectParams then [.i32] else
        Ty.flattenAll (WitType.despecializeFields function.params)) ++
        (if function.wasmSignature.retptr then [.i32] else []) := rfl
  rw [hparams, List.length_append]
  split_ifs <;> rfl

/-- What `bindArguments` accepts lines up with the core parameters. -/
theorem aligned_of_bindArguments (h : bindArguments fromStr function args = .ok constants) :
    Aligned function constants := by
  have hlength := function.length_params
  rw [aligned_iff]
  unfold bindArguments at h
  split at h
  · cases h
  next values _ =>
    rw [lowerArguments] at h
    by_cases hindirect : function.wasmSignature.indirectParams = true
    · rw [if_pos hindirect] at h hlength
      obtain ⟨r, -, h⟩ := Outcome.bind_eq_ok.mp h
      obtain ⟨l, -, h⟩ := Outcome.bind_eq_ok.mp h
      obtain rfl := Except.ok.inj h
      rw [hlength]
      rfl
    · rw [if_neg hindirect] at h hlength
      obtain ⟨r, -, h⟩ := Outcome.bind_eq_ok.mp h
      dsimp only at h
      by_cases hflats : r.1.length = function.wasmSignature.params.length -
          if function.wasmSignature.retptr = true then 1 else 0
      · rw [if_pos hflats] at h
        obtain rfl := Except.ok.inj h
        dsimp only
        omega
      · rw [if_neg hflats] at h
        cases h

/-- The scratch area holds a result, and room for a report. -/
theorem scratchSize_spec (function : Function) (constants : LoweredArguments) : 16 ≤ (binderPlan function constants).scratchSize ∧
    ∀ ty, function.result = some ty → 16 + ty.despecialize.size ≤ Wasm.pageSize →
      ty.despecialize.size ≤ (binderPlan function constants).scratchSize ∧
      16 + (binderPlan function constants).scratchSize ≤ Wasm.pageSize := by
  refine ⟨Nat.le_max_right _ _, ?_⟩
  intro ty hty hfit
  have hpage : Wasm.pageSize = 65536 := rfl
  have hu32 : asU32 ty.despecialize.size = ty.despecialize.size := by
    apply Nat.mod_eq_of_lt
    omega
  have hscratch : (binderPlan function constants).scratchSize =
      max (alignTo ty.despecialize.size 8) 16 := by
    simp only [binderPlan, hty, hu32]
  have hle := le_alignTo ty.despecialize.size (show 0 < 8 by decide)
  have hge : alignTo ty.despecialize.size 8 ≤ 65520 :=
    alignTo_le (by decide) (by omega) (by decide)
  rw [hscratch]
  omega

/-- Without constants in memory a binder can always be instantiated. -/
theorem instantiate_of_nil {plan : BinderPlan} (h : (layout plan).arena = []) (outer : ω) :
    ∃ m, instantiate plan outer = some m := by
  rw [instantiate]
  exact ⟨_, if_pos (.inl h)⟩

/-- A fresh instance has not been applied. -/
theorem ready_of_instantiate {outer : Outside κ} {m : Machine (Outside κ)}
    (h : instantiate (binderPlan function constants) outer = some m) :
    Ready function false m ∧ m.outer = outer := by
  obtain ⟨hscratch, hfit⟩ := scratchSize_spec function constants
  obtain ⟨plan, hplan⟩ : ∃ plan, plan = binderPlan function constants := ⟨_, rfl⟩
  rw [← hplan] at h hscratch hfit
  simp only [instantiate] at h
  split_ifs at h with hin
  obtain rfl := Option.some.inj h
  have hpage : Wasm.pageSize = 65536 := rfl
  have harena : (layout plan).arenaBase = 16 + plan.scratchSize := rfl
  have hheap : (layout plan).heapBase =
      alignTo ((layout plan).arenaBase + asU32 (layout plan).arena.length) 16 := rfl
  refine ⟨⟨⟨_, rfl⟩, Nat.le_refl 1, ?_, ?_⟩, rfl⟩
  · intro ty hty _ hsize
    obtain ⟨hholds, hend⟩ := hfit ty hty hsize
    have hlen : (layout plan).arenaBase + asU32 (layout plan).arena.length ≤ 65536 := by
      rcases hin with hnil | hle
      · rw [hnil, harena]
        exact hend
      · have hmod : asU32 (layout plan).arena.length ≤ (layout plan).arena.length :=
          Nat.mod_le _ _
        omega
    have hle : (layout plan).heapBase ≤ 65536 := by
      rw [hheap]
      exact alignTo_le (by decide) hlen (by decide)
    have hge := le_alignTo ((layout plan).arenaBase + asU32 (layout plan).arena.length)
      (show 0 < 16 by decide)
    have hbump : (BitVec.ofNat 32 (layout plan).heapBase).toNat = (layout plan).heapBase := by
      rw [BitVec.toNat_ofNat]
      apply Nat.mod_eq_of_lt
      omega
    simp only [bump, List.headD_cons, hbump]
    omega
  · intro _ _ i _ hi
    dsimp only
    rw [overwrite_outside (.inl (by omega))]

end Start

section Runs

variable {limit : ℕ} {function : Function} {constants : LoweredArguments}
  {p : Provider κ τ function.result} {m : Machine (Outside κ)}

theorem succeeded_append {result : Option WitType} {past : List Call} {call : Call} :
    Succeeded result (past ++ [call]) ↔ Succeeded result past ∨
      ∃ answer ∈ call.answers, failure result answer = none := by
  simp [Succeeded, or_and_right, exists_or]

/-- The call of an applied binder. -/
theorem faithful_done {result : Option WitType} {past : List Call} (h : Succeeded result past) :
    Faithful result past ⟨.ok (), []⟩ where
  ok_iff := ⟨fun _ => succeeded_append.mpr (.inl h), fun _ => rfl⟩
  error := by
    intro answer hanswer
    cases hanswer
  again := fun _ => rfl
  asked := fun hnot => absurd h hnot

/-- The call of a binder that has not been applied. -/
theorem faithful_fresh {result : Option WitType} {past : List Call} {answer : Option Val}
    {report : Report} (h : ¬ Succeeded result past) (hconveys : Conveys result answer report) :
    Faithful result past ⟨report, [answer]⟩ := by
  unfold Conveys at hconveys
  refine ⟨?_, ?_, fun hpast => absurd hpast h, fun _ => ⟨answer, rfl⟩⟩
  · rw [succeeded_append]
    split at hconveys
    · next hnone =>
      exact ⟨fun _ => .inr ⟨answer, List.mem_singleton_self _, hnone⟩, fun _ => hconveys⟩
    · next payload hsome =>
      obtain ⟨bytes, rfl, -⟩ := hconveys
      constructor
      · intro hok
        cases hok
      · rintro (hpast | ⟨answer', hmem, hnone⟩)
        · exact absurd hpast h
        · obtain rfl := List.mem_singleton.mp hmem
          rw [hsome] at hnone
          cases hnone
  · intro answer' hmem text hstring
    obtain rfl := List.mem_singleton.mp hmem
    rw [hstring] at hconveys
    obtain ⟨bytes, rfl, hbytes⟩ := hconveys
    rw [hbytes text rfl]

/-- One call: a trap that is not the binder's, or a faithful one. -/
theorem bind_faithful (hlimit : limit ≤ 65536) (halign : Aligned function constants)
    {past : List Call} {done : Bool} (hm : Ready function done m)
    (hdone : done = true ↔ Succeeded function.result past)
    (hlegible : ¬ Succeeded function.result past → LegibleNow function constants p m) :
    (∃ t, bind limit function constants p m = .error t ∧ External t) ∨
      ∃ report m' done', bind limit function constants p m = .ok (report, m') ∧
        Ready function done' m' ∧
        Faithful function.result past ⟨report, m'.outer.answers.drop m.outer.answers.length⟩ ∧
        (done' = true ↔ Succeeded function.result
          (past ++ [⟨report, m'.outer.answers.drop m.outer.answers.length⟩])) := by
  cases done with
  | true =>
    have hpast := hdone.mp rfl
    obtain ⟨m', hbind, hready, houter⟩ := bind_done hm
    refine .inr ⟨.ok (), m', true, hbind, hready, ?_, ?_⟩
    · rw [houter, List.drop_length]
      exact faithful_done hpast
    · exact ⟨fun _ => succeeded_append.mpr (.inl hpast), fun _ => rfl⟩
  | false =>
    have hpast : ¬ Succeeded function.result past := by
      intro h
      cases hdone.mpr h
    obtain htrap | ⟨answer, report, m', hbind, hanswers, hconveys, hready⟩ :=
      bind_fresh hlimit hm halign (hlegible hpast)
    · exact .inl htrap
    · refine .inr ⟨report, m', _, hbind, hready, ?_, ?_⟩
      · rw [hanswers, List.drop_left]
        exact faithful_fresh hpast hconveys
      · rw [hanswers, List.drop_left, succeeded_append]
        simp [hpast]

/-- Any number of calls after the calls `past`. -/
theorem binds_faithful (hlimit : limit ≤ 65536) (halign : Aligned function constants) (n : ℕ)
    {past : List Call} {done : Bool} (hm : Ready function done m)
    (hdone : done = true ↔ Succeeded function.result past)
    (hlegible : ∀ k calls m', binds limit function constants p k m = .ok (calls, m') →
      ¬ Succeeded function.result (past ++ calls) → LegibleNow function constants p m') :
    (∃ t, binds limit function constants p n m = .error t ∧ External t) ∨
      ∃ calls m', binds limit function constants p n m = .ok (calls, m') ∧ calls.length = n ∧
        ∀ before call after, calls = before ++ call :: after →
          Faithful function.result (past ++ before) call := by
  induction n generalizing past done m with
  | zero =>
    refine .inr ⟨[], m, rfl, rfl, ?_⟩
    intro before call after h
    cases before <;> cases h
  | succ n ih =>
    have hnow : ¬ Succeeded function.result past → LegibleNow function constants p m := by
      intro hnot
      refine hlegible 0 [] m rfl ?_
      rwa [List.append_nil]
    obtain ⟨t, hbind, ht⟩ | ⟨report, m', done', hbind, hready, hfaithful, hdone'⟩ :=
      bind_faithful hlimit halign hm hdone hnow
    · exact .inl ⟨t, by rw [binds, hbind], ht⟩
    obtain ⟨call, hcall⟩ : ∃ call : Call,
        call = ⟨report, m'.outer.answers.drop m.outer.answers.length⟩ := ⟨_, rfl⟩
    rw [← hcall] at hfaithful hdone'
    have hstep : ∀ k calls m'', binds limit function constants p k m' = .ok (calls, m'') →
        binds limit function constants p (k + 1) m = .ok (call :: calls, m'') := by
      intro k calls m'' h
      rw [binds, hbind]
      dsimp only
      rw [h, hcall]
    obtain ⟨t, hbinds, ht⟩ | ⟨calls, m'', hbinds, hlen, hrest⟩ := ih hready hdone' (by
      intro k calls m'' h hnot
      refine hlegible (k + 1) (call :: calls) m'' (hstep k calls m'' h) ?_
      rwa [List.append_assoc] at hnot)
    · refine .inl ⟨t, ?_, ht⟩
      rw [binds, hbind]
      dsimp only
      rw [hbinds]
    · refine .inr ⟨call :: calls, m'', hstep n calls m'' hbinds, by rw [List.length_cons, hlen], ?_⟩
      intro before call' after h
      cases before with
      | nil =>
        obtain ⟨rfl, -⟩ := List.cons.inj h
        rwa [List.append_nil]
      | cons first before =>
        obtain ⟨rfl, htail⟩ := List.cons.inj h
        have hfirst := hrest before call' after htail
        rwa [List.append_assoc] at hfirst

end Runs

section Merger

variable {limit : ℕ} {first second : Entrypoint ω τ} {m : Machine ω}

/-- A number of calls of the merged `bind`, one after the other. -/
def mergedBinds (limit : ℕ) (first second : Entrypoint ω τ) : ℕ → Machine ω →
    Except (Trap (Fault τ)) (List Report × Machine ω)
  | 0, m => .ok ([], m)
  | n + 1, m =>
    match mergedBind limit first second m with
    | .error t => .error t
    | .ok (report, m') =>
      match mergedBinds limit first second n m' with
      | .error t => .error t
      | .ok (reports, m'') => .ok (report :: reports, m'')

/-- Bind the first and, if it reports no error, the second. -/
def bindInOrder (first second : Entrypoint ω τ) (s : ω) : Except τ (Report × ω) :=
  match first.run s with
  | .ok (.ok (), s') => second.run s'
  | other => other

/-- A number of times in order. -/
def bindsInOrder (first second : Entrypoint ω τ) : ℕ → ω → Except τ (List Report × ω)
  | 0, s => .ok ([], s)
  | n + 1, s =>
    match bindInOrder first second s with
    | .error t => .error t
    | .ok (report, s') =>
      match bindsInOrder first second n s' with
      | .error t => .error t
      | .ok (reports, s'') => .ok (report :: reports, s'')

/-- The state of a merger between two calls. -/
structure Idle (m : Machine ω) : Prop where
  settled : Settled [] m.outer m
  page : 1 ≤ m.memory.pages
  room : 28 ≤ bump m

theorem idle_mergerInstance (s : ω) : Idle (mergerInstance s) := by
  have hbump : bump (mergerInstance s) = 32 := rfl
  have hpages : (mergerInstance s).memory.pages = 1 := rfl
  refine ⟨⟨⟨32, rfl⟩, ?_, ?_, rfl⟩, hpages.ge, ?_⟩ <;> omega

theorem conveys_val {report report' : Report}
    (h : Conveys (some bindResult) (some report.val) report') : report' = report := by
  cases report with
  | ok _ => exact h
  | error bytes =>
    obtain ⟨bytes', rfl, hbytes⟩ := h
    rw [hbytes bytes rfl]

theorem inPlace_val (report : Report) : InPlace bindResult report.val := by
  cases report with
  | ok _ => rfl
  | error bytes =>
    change Ty.payloadOffset [WitType.unit, .string] = 4
    decide

theorem call_entrypoint (hlimit : limit ≤ 65536) (hm : Idle m) {e : Entrypoint ω τ}
    {report : Report} {s : ω} (hrun : e.run m.outer = .ok (report, s)) :
    (∃ t, callLowered limit (some bindResult) e.callee [.i32 16] m = .error t ∧ External t) ∨
      ∃ m', callLowered limit (some bindResult) e.callee [.i32 16] m = .ok ([], m') ∧
        m'.outer = s ∧ Idle m' ∧ liftReport m'.memory 16 = some report ∧
        (m'.memory.bytes 16 = 0 ↔ report = .ok ()) := by
  have hflat : 1 < bindResult.despecialize.flatten.length := by decide
  have hwidth : bindResult.despecialize.size = 12 := by decide
  have hpage := hm.page
  have hsize : 28 ≤ m.memory.size := by
    unfold Wasm.Memory.size Wasm.pageSize
    omega
  have hs : Settled [] s { m with outer := s } :=
    ⟨hm.settled.globals, hm.settled.bump_le, hm.settled.pages_le, rfl⟩
  have hb : Bumping (access limit : Access (Machine ω) (Trap (Fault τ))) (Settled [] s) bump :=
    bumping_access hlimit [] s
  have hanswer : e.callee [.i32 16] m.memory m.outer = .ok (some report.val, s) := by
    simp only [Entrypoint.callee, hrun]
  have hcall : (callLowered limit (some bindResult) e.callee [.i32 16] m :
      Except (Trap (Fault τ)) _) =
        ((access limit).store bindResult.despecialize report.val 16 { m with outer := s }).map
          fun m' => ([], m') :=
    callLowered_pointer rfl hanswer hflat (by omega)
  have hvalid : Typed bindResult.despecialize report.val := by
    cases report with
    | ok _ => exact trivial
    | error bytes => exact e.valid hrun
  cases hstore : (access limit : Access (Machine ω) (Trap (Fault τ))).store
      bindResult.despecialize report.val 16 { m with outer := s } with
  | error t =>
    rw [hstore] at hcall
    exact .inl ⟨t, hcall, hb.store_error (fails_access hlimit [] s) _ _ _ _ _ hs hstore⟩
  | ok m' =>
    rw [hstore] at hcall
    have htouched := hb.touched_store _ _ _ _ _ hs hstore
    have hstring : (∀ ok, bindResult.despecialize ≠ .variant [ok, .string]) →
        ∀ i, 20 ≤ i → i < 28 → m.memory.bytes i = 0 := fun h => absurd rfl (h WitType.unit)
    obtain ⟨report', hlift, hconveys, hbyte, -⟩ :=
      reads_answer hlimit hs hm.room hsize hvalid (inPlace_val report) hstring hstore
    obtain rfl := conveys_val hconveys
    have houter : m'.outer = s := htouched.inv.outer
    have hgrown : m.memory.size ≤ m'.memory.size := htouched.size_le
    have hfloor : bump m ≤ bump m' := htouched.floor_le
    refine .inr ⟨m', hcall, houter, ⟨?_, ?_, hm.room.trans hfloor⟩, hlift, ?_⟩
    · rw [houter]
      exact htouched.inv
    · unfold Wasm.Memory.size Wasm.pageSize at hgrown
      omega
    · rw [hbyte]
      cases report' with
      | ok _ => exact ⟨fun _ => rfl, fun _ => rfl⟩
      | error bytes =>
        constructor
        · intro h
          cases h
        · intro h
          cases h

/-- The code calls an import with the address of the return area. -/
theorem run_entry (env : Wasm.Env ω (Fault τ)) {f : ℕ} (harity : env.arity f = 1)
    (is : List Wasm.Instr) (m : Machine ω) :
    Wasm.run env loopFuel (.i32Const 16 :: .call f :: is) ⟨m, [], []⟩ =
      (env.call f [.i32 16] m).bind fun r => Wasm.run env loopFuel is ⟨r.2, [], r.1.reverse⟩ := by
  have hlen : ([.i32 16] : List Wasm.Value).length = env.arity f := harity.symm
  have hcall := Wasm.run_call env loopFuel m [] [] is hlen
  simp only [List.append_nil, List.reverse_singleton] at hcall
  rw [Wasm.run_i32Const, hcall]

/-- The code leaves after an error and goes on after success. -/
theorem run_guard (env : Wasm.Env ω (Fault τ)) (is : List Wasm.Instr) {m : Machine ω}
    (hsize : 16 < m.memory.size) :
    Wasm.run env loopFuel (.i32Const 16 :: .i32Load8U 0 :: .ite [.i32Const 16, .ret] :: is)
        ⟨m, [], []⟩ =
      if m.memory.bytes 16 = 0 then Wasm.run env loopFuel is ⟨m, [], []⟩
      else .ok (.ret, ⟨m, [], [.i32 16]⟩) := by
  have hbyte := Wasm.ofNat_toNat_eq_zero (m.memory.bytes 16)
  rw [Wasm.run_i32Const, Wasm.run_i32Load8U (p := 16) (by decide) hsize]
  by_cases h : m.memory.bytes 16 = 0
  · rw [if_pos h, hbyte.mpr h, Wasm.run_ite_not]
  · rw [if_neg h, Wasm.run_ite (mt hbyte.mp h), Wasm.run_i32Const, Wasm.run_ret]
    rfl

/-- The merged `bind` binds in order. -/
theorem mergedBind_inOrder (hlimit : limit ≤ 65536) (hm : Idle m) :
    (∃ t, mergedBind limit first second m = .error t ∧ External t) ∨
      ∃ report m', mergedBind limit first second m = .ok (report, m') ∧ Idle m' ∧
        bindInOrder first second m.outer = .ok (report, m'.outer) := by
  have hentry := run_entry (mergerEnv limit first second) (f := 0) rfl
    [.i32Const 16, .i32Load8U 0, .ite [.i32Const 16, .ret], .i32Const 16, .call 1, .i32Const 16] m
  have hcall : (mergerEnv limit first second).call 0 [.i32 16] m =
      callLowered limit (some bindResult) first.callee [.i32 16] m := rfl
  have htrap : ∀ t, (mergerEnv limit first second).call 0 [.i32 16] m = .error t →
      mergedBind limit first second m = .error t := by
    intro t h
    rw [h, Except.bind] at hentry
    exact callBind_of_trap hentry
  cases hrun : first.run m.outer with
  | error t =>
    refine .inl ⟨.host (.callee t), htrap _ ?_, trivial⟩
    simp only [hcall, callLowered, Entrypoint.callee, hrun]
  | ok r =>
    obtain ⟨report, s⟩ := r
    obtain ⟨t, herror, ht⟩ | ⟨m', hok, houter, hidle, hlift, hbyte⟩ :=
      call_entrypoint hlimit hm hrun
    · exact .inl ⟨t, htrap t herror, ht⟩
    have hsize : 16 < m'.memory.size := by
      have hpage := hidle.page
      unfold Wasm.Memory.size Wasm.pageSize
      omega
    rw [hcall, hok, Except.bind, List.reverse_nil, run_guard _ _ hsize] at hentry
    cases report with
    | error bytes =>
      have hne : ¬ m'.memory.bytes 16 = 0 := by
        rw [hbyte]
        intro h
        cases h
      rw [if_neg hne] at hentry
      refine .inr ⟨.error bytes, m', callBind_of_run (by decide) hentry hlift, hidle, ?_⟩
      simp only [bindInOrder, hrun, houter]
    | ok _ =>
      have hsecond := run_entry (mergerEnv limit first second) (f := 1) rfl [.i32Const 16] m'
      rw [if_pos (hbyte.mpr rfl), hsecond] at hentry
      have hinOrder : bindInOrder first second m.outer = second.run m'.outer := by
        simp only [bindInOrder, hrun, houter]
      have htrap' : ∀ t, (mergerEnv limit first second).call 1 [.i32 16] m' = .error t →
          mergedBind limit first second m = .error t := by
        intro t h
        rw [h, Except.bind] at hentry
        exact callBind_of_trap hentry
      have hcall' : (mergerEnv limit first second).call 1 [.i32 16] m' =
          callLowered limit (some bindResult) second.callee [.i32 16] m' := rfl
      cases hrun' : second.run m'.outer with
      | error t =>
        refine .inl ⟨.host (.callee t), htrap' _ ?_, trivial⟩
        simp only [hcall', callLowered, Entrypoint.callee, hrun']
      | ok r =>
        obtain ⟨report, s'⟩ := r
        obtain ⟨t, herror, ht⟩ | ⟨m'', hok', houter', hidle', hlift', -⟩ :=
          call_entrypoint hlimit hidle hrun'
        · exact .inl ⟨t, htrap' t herror, ht⟩
        have hlast : Wasm.run (mergerEnv limit first second) loopFuel [.i32Const 16]
            ⟨m'', [], []⟩ = .ok (.next, ⟨m'', [], [.i32 16]⟩) := by
          rw [Wasm.run_i32Const, Wasm.run_nil]
        rw [hcall', hok', Except.bind, List.reverse_nil, hlast] at hentry
        refine .inr ⟨report, m'', callBind_of_run (by decide) hentry hlift', hidle', ?_⟩
        rw [hinOrder, hrun', houter']

/-- Any number of merged calls are as many calls in order. -/
theorem mergedBinds_inOrder (hlimit : limit ≤ 65536) (n : ℕ) (hm : Idle m) :
    (∃ t, mergedBinds limit first second n m = .error t ∧ External t) ∨
      ∃ reports m', mergedBinds limit first second n m = .ok (reports, m') ∧
        bindsInOrder first second n m.outer = .ok (reports, m'.outer) := by
  induction n generalizing m with
  | zero => exact .inr ⟨[], m, rfl, rfl⟩
  | succ n ih =>
    obtain ⟨t, hbind, ht⟩ | ⟨report, m', hbind, hidle, horder⟩ :=
      mergedBind_inOrder (m := m) hlimit hm
    · exact .inl ⟨t, by rw [mergedBinds, hbind], ht⟩
    obtain ⟨t, hbinds, ht⟩ | ⟨reports, m'', hbinds, horders⟩ := ih hidle
    · refine .inl ⟨t, ?_, ht⟩
      rw [mergedBinds, hbind]
      dsimp only
      rw [hbinds]
    · refine .inr ⟨report :: reports, m'', ?_, ?_⟩
      · rw [mergedBinds, hbind]
        dsimp only
        rw [hbinds]
      · rw [bindsInOrder, horder]
        dsimp only
        rw [horders]

end Merger

/-- A `configure` without parameters that returns a `result`, and its provider, which answers
`refusal` first and `acceptance` from then on. -/
def refusingOnce (result : WitType) (refusal acceptance : Val)
    (hrefusal : Typed result.despecialize refusal)
    (hacceptance : Typed result.despecialize acceptance) : Provider ℕ Empty (some result) where
  configure _ _ s := .ok (some (if s = 0 then refusal else acceptance), s + 1)
  typed := by
    intro args memory s answer s' h
    obtain ⟨rfl, -⟩ := Prod.mk.inj (Except.ok.inj h)
    refine ⟨_, rfl, ?_⟩
    split_ifs
    · exact hrefusal
    · exact hacceptance

/-- `configure: func() -> result<_, string>` that refuses once, saying `no` -/
def refusingAloud : Provider ℕ Empty (some bindResult) :=
  refusingOnce bindResult (Report.val (.error [110, 111])) (Report.val (.ok ()))
    (show Utf8.Valid [110, 111] by decide) trivial

/-- `configure: func() -> result` that refuses once -/
def refusingSilently : Provider ℕ Empty (some (.result none none)) :=
  refusingOnce (.result none none) (.variant 1 (.record [])) (.variant 0 (.record []))
    trivial trivial

end Eo9.Component
