import Eo9.Component.Bind

/-!
# Answers that are reported as they are

Which answers of `configure` a binder reports as they are, and that it does.
-/

namespace Eo9.Component

open Eo9.Library Eo9.Library.Canonical
open Eo9.Library.Wasm (Instr Env Machine Memory Trap Config run step again leave)

variable {ω κ τ : Type}

/-- The payload of an answer that is an error. -/
def failure (result : Option WitType) (answer : Option Val) : Option Val :=
  match result.map WitType.resolveAlias, answer with
  | some (.result _ _), some (.variant 1 payload) => some payload
  | _, _ => none

/-- Whether `bind`'s caller finds an error where it looks for it: a string with its address right
behind the discriminant's word, or an error that leaves that word and the next two alone. -/
def ErrorInPlace : Ty → Val → Prop
  | .variant [ok, .string], .string _ => Ty.payloadOffset [ok, .string] = 4
  | .variant [ok, err], _ => err ≠ .string ∧
      (err.size = 0 ∨ Ty.payloadOffset [ok, err] + err.size ≤ 4)
  | _, _ => False

/-- Whether the first byte of an answer tells an error from the rest, and the error is in place. -/
def InPlace (ty : WitType) (v : Val) : Prop :=
  match failure (some ty) (some v) with
  | some payload => ErrorInPlace ty.despecialize payload
  | none => LeadsWithZero ty.despecialize v

/-- The answers that a binder reports as they are. -/
def Legible (result : Option WitType) (answer : Option Val) : Prop :=
  match result, answer with
  | some ty, some v =>
    if 1 < ty.despecialize.flatten.length then
      16 + ty.despecialize.size ≤ Wasm.pageSize ∧ InPlace ty v
    else failure (some ty) (some v) = none
  | _, _ => True

/-- What a report says of an answer. -/
def Conveys (result : Option WitType) (answer : Option Val) (report : Report) : Prop :=
  match failure result answer with
  | none => report = .ok ()
  | some payload => ∃ bytes, report = .error bytes ∧ ∀ text, payload = .string text → bytes = text

/-- The traps that are not the binder's: the provider's own, and a memory that may not grow or
has no room left. -/
def External : Trap (Fault τ) → Prop
  | .unreachable => True
  | .host (.callee _) => True
  | .host .room => True
  | _ => False

/-- The state of a binder between two calls. -/
structure Ready (function : Function) (done : Bool) (m : Machine (Outside κ)) : Prop where
  globals : ∃ b, m.globals = [b, if done then 1 else 0]
  page : 1 ≤ m.memory.pages
  room : ∀ ty, function.result = some ty → 1 < ty.despecialize.flatten.length →
    16 + ty.despecialize.size ≤ Wasm.pageSize →
    m.memory.pages ≤ 65535 ∧ bump m ≤ 65535 * 65536 ∧ 16 + ty.despecialize.size ≤ bump m ∧
      28 ≤ bump m
  quiet : done = false → (∀ ty ok, function.result = some ty →
      ty.despecialize ≠ .variant [ok, .string]) →
    ∀ i, 20 ≤ i → i < 28 → m.memory.bytes i = 0

/-- Storing a value fails for want of memory alone. -/
theorem fails_access {limit : ℕ} (hlimit : limit ≤ 65536) (rest : List (BitVec 32)) (o : ω) :
    Bumping.Fails (access limit : Access (Machine ω) (Trap (Fault τ))) (Settled rest o)
      External where
  fault := trivial
  room := by
    intro alignment size m e ha hm h
    obtain ⟨b, hb⟩ := hm.globals
    have hbump : bump m = b.toNat := by simp [bump, hb]
    unfold Access.room at h
    split at h
    · split_ifs at h
      obtain rfl := Except.error.inj h
      trivial
    · next hreal =>
      obtain rfl := Except.error.inj h
      simp only [access] at hreal
      split_ifs at hreal
      · obtain hbad | ⟨q, next, pages, -, -, -, -, -, hrun⟩ :=
          invoke_realloc (⟨limit, fun _ => 0, fun _ _ _ => .error .stuck⟩ : Env ω (Fault τ))
            hlimit (show 65536 < loopFuel by decide) size hb hm.pages_le
            (by rw [← hbump]; exact hm.bump_le) ha
        · rw [hbad] at hreal
          obtain rfl := Except.error.inj hreal
          trivial
        · rw [hrun] at hreal
          cases hreal
      · obtain rfl := Except.error.inj hreal
        trivial

section Step

variable {limit : ℕ} {function : Function} {constants : LoweredArguments}
  {p : Provider κ τ function.result} {m : Machine (Outside κ)}

/-- An applied binder reports success and stays as it is. -/
theorem bind_done (hm : Ready function true m) :
    ∃ m', bind limit function constants p m = .ok (.ok (), m') ∧ Ready function true m' ∧
      m'.outer = m.outer := by
  obtain ⟨b, hb⟩ := hm.globals
  refine ⟨_, callBind_applied hb hm.page, ⟨⟨b, hb⟩, hm.page, hm.room, ?_⟩, rfl⟩
  intro h
  cases h

/-- The core arguments line up with the core parameters. -/
def Aligned (function : Function) (constants : LoweredArguments) : Prop :=
  (configureArgs (binderPlan function constants)).length = function.wasmSignature.params.length

/-- A trap in the call of `configure` is the trap of `bind`. -/
theorem bind_of_trap (hm : Ready function false m) (halign : Aligned function constants)
    {t : Trap (Fault τ)} (hcall : callLowered limit function.result p.callee
      (configureArgs (binderPlan function constants)) m = .error t) :
    bind limit function constants p m = .error t := by
  obtain ⟨b, hb⟩ := hm.globals
  have hrun := run_bindBody (binderEnv limit function p) loopFuel hb halign
  have herror : (binderEnv limit function p).call 0
      (configureArgs (binderPlan function constants)) m = .error t := hcall
  rw [herror, Except.bind] at hrun
  exact callBind_of_trap hrun

/-- A result that is passed by value is dropped, and `bind` reports success. -/
theorem bind_of_value (hm : Ready function false m) (halign : Aligned function constants)
    (hsig : function.wasmSignature.retptr = false) {results : List Wasm.Value}
    {o : Outside κ} (hlen : results.length = function.wasmSignature.results.length)
    (hcall : callLowered limit function.result p.callee
      (configureArgs (binderPlan function constants)) m = .ok (results, { m with outer := o })) :
    ∃ m', bind limit function constants p m = .ok (.ok (), m') ∧ m'.outer = o ∧
      Ready function true m' := by
  obtain ⟨b, hb⟩ := hm.globals
  have hrun := run_bindBody (binderEnv limit function p) loopFuel hb halign
  have hok : (binderEnv limit function p).call 0
      (configureArgs (binderPlan function constants)) m =
        .ok (results, { m with outer := o }) := hcall
  have hsize : 28 ≤ m.memory.size := by
    have hpage := hm.page
    unfold Wasm.Memory.size Wasm.pageSize
    omega
  have hdrops : run (binderEnv limit function p) loopFuel
      ((binderPlan function constants).configSig.results.map fun _ => .drop)
      ⟨{ m with outer := o }, [], results.reverse⟩ = .ok (.next, ⟨{ m with outer := o }, [], []⟩) := by
    have hrev : results.reverse.length =
        (binderPlan function constants).configSig.results.length := by
      rw [List.length_reverse]
      exact hlen
    have hdrop := Wasm.run_drops (binderEnv limit function p) loopFuel [] hrev
      { m with outer := o } []
    rwa [List.append_nil] at hdrop
  have hroom : 16 < ({ m with outer := o } : Machine (Outside κ)).memory.size := by
    dsimp only
    omega
  have htail := run_bindTail_value (binderEnv limit function p) loopFuel
    (binderPlan function constants) (m := { m with outer := o }) hsig hb hroom
  rw [hok, Except.bind] at hrun
  rw [Wasm.run_append, hdrops, Wasm.andThen_next, htail] at hrun
  have hlift : liftReport (m.memory.write 16 [0]) 16 = some (.ok ()) := by
    exact liftReport_ok (by decide) hsize (m.memory.write_byte 16 0)
  refine ⟨_, callBind_of_run (by decide) hrun hlift, rfl, ⟨b, rfl⟩, hm.page, ?_, ?_⟩
  · intro ty hty hflat _
    have hretptr : function.wasmSignature.retptr = decide (1 < ty.despecialize.flatten.length) := by
      simp only [Function.wasmSignature, hty, Option.map_some, Option.getD_some]
    rw [hsig, decide_eq_true hflat] at hretptr
    cases hretptr
  · intro h
    cases h

/-- A result that is passed by pointer is what `bind` reports. -/
theorem bind_of_pointer (hm : Ready function false m) (halign : Aligned function constants)
    (hsig : function.wasmSignature.retptr = true) {m₁ : Machine (Outside κ)} {b₁ : BitVec 32}
    {report : Report} (hm₁ : m₁.globals = [b₁, 0]) (hsize : 16 < m₁.memory.size)
    (hcall : callLowered limit function.result p.callee
      (configureArgs (binderPlan function constants)) m = .ok ([], m₁))
    (hlift : liftReport m₁.memory 16 = some report) :
    bind limit function constants p m =
      .ok (report, { m₁ with globals := [b₁, if m₁.memory.bytes 16 = 0 then 1 else 0] }) := by
  obtain ⟨b, hb⟩ := hm.globals
  have hrun := run_bindBody (binderEnv limit function p) loopFuel hb halign
  have hok : (binderEnv limit function p).call 0
      (configureArgs (binderPlan function constants)) m = .ok ([], m₁) := hcall
  have hresults : (binderPlan function constants).configSig.results = [] := by
    have h : function.wasmSignature.results = if function.wasmSignature.retptr then [] else
        function.wasmSignature.results := by
      simp only [Function.wasmSignature]
      split_ifs <;> rfl
    change function.wasmSignature.results = []
    rw [h, if_pos hsig]
  have htail := run_bindTail_retptr (binderEnv limit function p) loopFuel
    (binderPlan function constants) hsig hm₁ hsize
  rw [hok, hresults, Except.bind] at hrun
  rw [List.map_nil, List.nil_append, List.reverse_nil, htail] at hrun
  exact callBind_of_run (by decide) hrun hlift

/-- The instance during a call: its flag is clear, and the call is logged. -/
theorem settled_of_ready {ty : WitType} (hm : Ready function false m)
    (hty : function.result = some ty) (hflat : 1 < ty.despecialize.flatten.length)
    (hfit : 16 + ty.despecialize.size ≤ Wasm.pageSize) (o : Outside κ) :
    Settled [0] o { m with outer := o } := by
  obtain ⟨hpages, hbump, -, -⟩ := hm.room ty hty hflat hfit
  exact ⟨hm.globals, hbump, hpages, rfl⟩

/-- Storing an answer leaves the binder as it was, but for the return area and fresh bytes. -/
theorem ready_of_touched {ty : WitType} {o : Outside κ} {m₁ : Machine (Outside κ)} {flag : Bool}
    {f : BitVec 32} (hm : Ready function false m) (hty : function.result = some ty)
    (htouched : Touched (access limit : Access _ (Trap (Fault τ))) (Settled [0] o) bump 16
      ty.despecialize.size { m with outer := o } m₁)
    (hf : f = if flag then 1 else 0)
    (hquiet : flag = false → (∀ ok, ty.despecialize ≠ .variant [ok, .string]) →
      ∀ i, 20 ≤ i → i < 28 → m₁.memory.bytes i = 0) :
    ∀ b₁, m₁.globals = [b₁, 0] → Ready function flag { m₁ with globals := [b₁, f] } := by
  intro b₁ hb₁
  have hbump : bump { m₁ with globals := [b₁, f] } = bump m₁ := by
    rw [bump, bump, hb₁]
    rfl
  refine ⟨⟨b₁, by rw [hf]⟩, ?_, ?_, ?_⟩
  · have hsize := htouched.size_le
    have hpage := hm.page
    simp only [access, Wasm.Memory.size] at hsize
    have hpos : 0 < Wasm.pageSize := by decide
    exact hpage.trans (Nat.le_of_mul_le_mul_right hsize hpos)
  · intro ty' hty' hflat' hfit'
    obtain ⟨-, -, hle, hroom⟩ := hm.room ty' hty' hflat' hfit'
    have hfloor : bump m ≤ bump m₁ := htouched.floor_le
    rw [hbump]
    exact ⟨htouched.inv.pages_le, htouched.inv.bump_le, hle.trans hfloor, hroom.trans hfloor⟩
  · intro hflag hstring
    exact hquiet hflag (fun ok => hstring ty ok hty)

/-- The core arguments end with the return pointer. -/
theorem getLast?_configureArgs {plan : BinderPlan} (h : plan.configSig.retptr = true) :
    (configureArgs plan).getLast? = some (.i32 16) := by
  rw [configureArgs, if_pos h, List.getLast?_append_of_ne_nil _ (by simp)]
  rfl

/-- A call whose answer is passed by pointer stores it there. -/
theorem callLowered_pointer {callee : Callee ω τ} {ty : WitType} {args : List Wasm.Value}
    {m : Machine ω} {v : Val} {o : ω} (hlast : args.getLast? = some (.i32 16))
    (hanswer : callee args m.memory m.outer = .ok (some v, o))
    (hflat : 1 < ty.despecialize.flatten.length)
    (hfit : 16 + ty.despecialize.size ≤ m.memory.size) :
    callLowered limit (some ty) callee args m =
      ((access limit).store ty.despecialize v 16 { m with outer := o }).map fun m' => ([], m') := by
  have hplace : ty.despecialize.alignment ∣ (16 : BitVec 32).toNat ∧
      (16 : BitVec 32).toNat + ty.despecialize.size ≤ m.memory.size := by
    refine ⟨?_, hfit⟩
    exact ty.despecialize.isAlignment.dvd_eight.trans (by decide)
  rw [callLowered, hanswer]
  dsimp only
  rw [if_pos hflat, hlast]
  dsimp only
  rw [if_pos hplace]
  have hnat : (16 : BitVec 32).toNat = 16 := by decide
  rw [hnat]
  cases (access limit : Access (Machine ω) (Trap (Fault τ))).store ty.despecialize v 16
    { m with outer := o } <;> rfl

theorem callLowered_congr {callee : Callee ω τ} {result result' : Option WitType}
    {args : List Wasm.Value} {m : Machine ω} (h : result = result') :
    (callLowered limit result callee args m : Except (Trap (Fault τ)) _) =
      callLowered limit result' callee args m := by
  rw [h]

/-- A call whose answer is passed by value leaves the instance as it is. -/
theorem callLowered_value {callee : Callee ω τ} {ty : WitType} {args : List Wasm.Value}
    {m : Machine ω} {v : Val} {o : ω}
    (hanswer : callee args m.memory m.outer = .ok (some v, o))
    (hflat : ¬ 1 < ty.despecialize.flatten.length) :
    (callLowered limit (some ty) callee args m : Except (Trap (Fault τ)) _) =
      .ok (lowerOne ty.despecialize v, { m with outer := o }) := by
  rw [callLowered, hanswer]
  dsimp only
  rw [if_neg hflat]

/-- An error is the second case of its type. -/
theorem failure_eq_some {ty : WitType} {v payload : Val}
    (h : failure (some ty) (some v) = some payload) :
    ∃ ok err, ty.despecialize = .variant [ok, err] ∧ v = .variant 1 payload := by
  unfold failure at h
  split at h
  · next ok err payload' hty hv =>
    obtain rfl := Option.some.inj h
    obtain rfl := Option.some.inj hv
    refine ⟨WitType.despecializePayload ok, WitType.despecializePayload err, ?_, rfl⟩
    rw [← WitType.despecialize_resolveAlias, Option.some.inj hty]
    rfl
  · cases h

/-- An error starts with a one. -/
theorem error_first (hlimit : limit ≤ 65536) {ok err : Ty} {payload : Val} {o : ω}
    {rest : List (BitVec 32)} {s m₁ : Machine ω} (hs : Settled rest o s) (hroom : 28 ≤ bump s)
    (hstore : (access limit : Access (Machine ω) (Trap (Fault τ))).store (.variant [ok, err])
      (.variant 1 payload) 16 s = .ok m₁) :
    m₁.memory.bytes 16 = 1 :=
  (bumping_access hlimit rest o).store_variant_first hs (by omega) hstore

/-- An error string is reported byte by byte. -/
theorem liftReport_of_string (hlimit : limit ≤ 65536) {ok : Ty} {bytes : List UInt8} {o : ω}
    {rest : List (BitVec 32)} {s m₁ : Machine ω} (hs : Settled rest o s) (hroom : 28 ≤ bump s) (hsize : 28 ≤ s.memory.size)
    (hoffset : Ty.payloadOffset [ok, .string] = 4) (hvalid : Utf8.Valid bytes)
    (hstore : (access limit : Access (Machine ω) (Trap (Fault τ))).store (.variant [ok, .string])
      (.variant 1 (.string bytes)) 16 s = .ok m₁) :
    liftReport m₁.memory 16 = some (.error bytes) := by
  have hb : Bumping (access limit : Access (Machine ω) (Trap (Fault τ))) (Settled rest o) bump :=
    bumping_access hlimit rest o
  have hfirst := error_first hlimit hs hroom hstore
  have htouched := hb.touched_store _ _ _ _ _ hs hstore
  have hle : s.memory.size ≤ m₁.memory.size := htouched.size_le
  have hpages : m₁.memory.pages ≤ 65535 := htouched.inv.pages_le
  have hlt : m₁.memory.size < 2 ^ 32 := by
    unfold Wasm.Memory.size Wasm.pageSize
    omega
  have hwrite := hb.touched_write 16 (leBytes (discriminantWidth [ok, .string].length) 1) hs
  have hpayload : (access limit : Access (Machine ω) (Trap (Fault τ))).store .string
      (.string bytes) 20 ((access limit : Access (Machine ω) (Trap (Fault τ))).write 16
        (leBytes (discriminantWidth [ok, .string].length) 1) s) = .ok m₁ := by
    rw [Access.store, hoffset] at hstore
    exact hstore
  obtain ⟨q, -, hin, hq, hlen, hback⟩ :=
    hb.store_string hwrite.inv (hroom.trans hwrite.floor_le) hpayload
  exact liftReport_error (by decide) (hsize.trans hle) hfirst hq hlen hback hin hlt hvalid

/-- An error that leaves the words of the string alone is reported as an error. -/
theorem liftReport_of_quiet (hlimit : limit ≤ 65536) {ok err : Ty} {payload : Val} {o : ω}
    {rest : List (BitVec 32)} {s m₁ : Machine ω} (hs : Settled rest o s) (hroom : 28 ≤ bump s) (hsize : 28 ≤ s.memory.size)
    (hsmall : err.size = 0 ∨ Ty.payloadOffset [ok, err] + err.size ≤ 4)
    (hquiet : ∀ i, 20 ≤ i → i < 28 → s.memory.bytes i = 0)
    (hstore : (access limit : Access (Machine ω) (Trap (Fault τ))).store (.variant [ok, err])
      (.variant 1 payload) 16 s = .ok m₁) :
    liftReport m₁.memory 16 = some (.error []) ∧
      ∀ i, 20 ≤ i → i < 28 → m₁.memory.bytes i = 0 := by
  have hb : Bumping (access limit : Access (Machine ω) (Trap (Fault τ))) (Settled rest o) bump :=
    bumping_access hlimit rest o
  have hfirst := error_first hlimit hs hroom hstore
  have htouched := hb.touched_store _ _ _ _ _ hs hstore
  have hle : s.memory.size ≤ m₁.memory.size := htouched.size_le
  have hpages : m₁.memory.pages ≤ 65535 := htouched.inv.pages_le
  have hlt : m₁.memory.size < 2 ^ 32 := by
    unfold Wasm.Memory.size Wasm.pageSize
    omega
  have hwidth : discriminantWidth [ok, err].length = 1 := rfl
  have hwrite := hb.touched_write 16 (leBytes (discriminantWidth [ok, err].length) 1) hs
  have hcase := hb.touched_store err payload _ _ m₁ hwrite.inv hstore
  have hbytes : ∀ i, 20 ≤ i → i < 28 → m₁.memory.bytes i = 0 := by
    intro i hi hlt
    have hin : i < bump s := by omega
    have houtside : i < 16 + Ty.payloadOffset [ok, err] ∨
        16 + Ty.payloadOffset [ok, err] + err.size ≤ i := by omega
    calc m₁.memory.bytes i
        = ((access limit : Access (Machine ω) (Trap (Fault τ))).write 16
            (leBytes (discriminantWidth [ok, err].length) 1) s).memory.bytes i :=
          hcase.bytes i (hin.trans_le hwrite.floor_le) houtside
      _ = s.memory.bytes i :=
          hwrite.bytes i hin (.inr (by rw [length_leBytes, hwidth]; omega))
      _ = 0 := hquiet i hi hlt
  have hword : ∀ q, 20 ≤ q → q + 4 ≤ 28 → slice m₁.memory.bytes q 4 = leBytes 4 0 := by
    intro q hq hend
    have h : ∀ i, i < 4 → m₁.memory.bytes (q + i) = 0 :=
      fun i hi => hbytes (q + i) (by omega) (by omega)
    have hlist : slice m₁.memory.bytes q 4 = [m₁.memory.bytes (q + 0), m₁.memory.bytes (q + 1),
        m₁.memory.bytes (q + 2), m₁.memory.bytes (q + 3)] := rfl
    rw [hlist, h 0 (by decide), h 1 (by decide), h 2 (by decide), h 3 (by decide)]
    rfl
  refine ⟨?_, hbytes⟩
  exact liftReport_error (by decide) (hsize.trans hle) hfirst
    (hword 20 (by omega) (by omega)) (hword 24 (by omega) (by omega)) rfl (Nat.zero_le _) hlt
    Utf8.valid_nil

/-- Every answer that `configure` may give now is one that the binder reports as it is. -/
def LegibleNow (function : Function) (constants : LoweredArguments)
    (p : Provider κ τ function.result) (m : Machine (Outside κ)) : Prop :=
  ∀ answer s, p.configure (configureArgs (binderPlan function constants)) m.memory
    m.outer.provider = .ok (answer, s) → Legible function.result answer

/-- What comes of one call of `bind`: a trap that is not the binder's, or the answer of
`configure` as it is. -/
def Answered (limit : ℕ) (function : Function) (constants : LoweredArguments)
    (p : Provider κ τ function.result) (m : Machine (Outside κ)) : Prop :=
  (∃ t, bind limit function constants p m = .error t ∧ External t) ∨
    ∃ answer report m', bind limit function constants p m = .ok (report, m') ∧
      m'.outer.answers = m.outer.answers ++ [answer] ∧
      Conveys function.result answer report ∧
      Ready function (failure function.result answer).isNone m'

/-- An error in place is a string behind the first word, or has nothing there. -/
theorem errorInPlace_cases {ok err : Ty} {payload : Val}
    (h : ErrorInPlace (.variant [ok, err]) payload) :
    (err = .string ∧ ∃ text, payload = .string text ∧ Ty.payloadOffset [ok, .string] = 4) ∨
      (err ≠ .string ∧ (err.size = 0 ∨ Ty.payloadOffset [ok, err] + err.size ≤ 4)) := by
  by_cases hstring : err = .string
  · subst hstring
    cases payload with
    | string text => exact .inl ⟨rfl, text, rfl, h⟩
    | _ => exact absurd rfl h.1
  · cases err with
    | string => exact absurd rfl hstring
    | _ => exact .inr h

/-- What is read of an answer that lies in place. -/
theorem reads_answer (hlimit : limit ≤ 65536) {ty : WitType} {v : Val} {o : ω}
    {rest : List (BitVec 32)} {s m₁ : Machine ω} (hs : Settled rest o s) (hroom : 28 ≤ bump s) (hsize : 28 ≤ s.memory.size)
    (hv : Typed ty.despecialize v) (hplace : InPlace ty v)
    (hquiet : (∀ ok, ty.despecialize ≠ .variant [ok, .string]) →
      ∀ i, 20 ≤ i → i < 28 → s.memory.bytes i = 0)
    (hstore : (access limit : Access (Machine ω) (Trap (Fault τ))).store ty.despecialize v 16 s =
      .ok m₁) :
    ∃ report, liftReport m₁.memory 16 = some report ∧ Conveys (some ty) (some v) report ∧
      (m₁.memory.bytes 16 = 0 ↔ (failure (some ty) (some v)).isNone = true) ∧
      ((failure (some ty) (some v)).isNone = false →
        (∀ ok, ty.despecialize ≠ .variant [ok, .string]) →
        ∀ i, 20 ≤ i → i < 28 → m₁.memory.bytes i = 0) := by
  have hb : Bumping (access limit : Access (Machine ω) (Trap (Fault τ))) (Settled rest o) bump :=
    bumping_access hlimit rest o
  have hle : s.memory.size ≤ m₁.memory.size := (hb.touched_store _ _ _ _ _ hs hstore).size_le
  unfold InPlace at hplace
  cases hfailure : failure (some ty) (some v) with
  | none =>
    rw [hfailure] at hplace
    obtain ⟨hbyte, -⟩ := hb.store_leading hplace hs (by omega) hstore
    refine ⟨.ok (), liftReport_ok (by decide) (hsize.trans hle) hbyte, ?_, ?_, ?_⟩
    · rw [Conveys, hfailure]
    · exact ⟨fun _ => rfl, fun _ => hbyte⟩
    · intro h
      cases h
  | some payload =>
    rw [hfailure] at hplace
    obtain ⟨ok, err, hty, rfl⟩ := failure_eq_some hfailure
    dsimp only at hplace
    rw [hty] at hplace hstore hv hquiet ⊢
    have hfirst := error_first hlimit hs hroom hstore
    have hbyte : m₁.memory.bytes 16 = 0 ↔ (some payload).isNone = true := by
      rw [hfirst]
      simp
    obtain ⟨rfl, text, rfl, hoffset⟩ | ⟨hstring, hsmall⟩ := errorInPlace_cases hplace
    · refine ⟨.error text, liftReport_of_string hlimit hs hroom hsize hoffset hv hstore,
        ?_, hbyte, ?_⟩
      · rw [Conveys, hfailure]
        refine ⟨text, rfl, ?_⟩
        intro text' heq
        cases heq
        rfl
      · intro _ hstring
        exact absurd rfl (hstring ok)
    · have hother : ∀ ok', Ty.variant [ok, err] ≠ .variant [ok', .string] := by
        rintro ok' heq
        cases heq
        exact hstring rfl
      obtain ⟨hlift, hbytes⟩ :=
        liftReport_of_quiet hlimit hs hroom hsize hsmall (hquiet hother) hstore
      refine ⟨.error [], hlift, ?_, hbyte, fun _ _ => hbytes⟩
      rw [Conveys, hfailure]
      refine ⟨[], rfl, ?_⟩
      rintro text rfl
      cases err with
      | string => exact absurd rfl hstring
      | _ => exact hv.elim

theorem Function.retptr_of_some {function : Function} {ty : WitType}
    (hty : function.result = some ty) :
    function.wasmSignature.retptr = decide (1 < ty.despecialize.flatten.length) := by
  simp only [Function.wasmSignature, hty, Option.map_some, Option.getD_some]

/-- A call that answers nothing. -/
theorem answered_of_none (hm : Ready function false m) (halign : Aligned function constants)
    {s : κ} (hty : function.result = none)
    (hanswer : p.callee (configureArgs (binderPlan function constants)) m.memory m.outer =
      .ok (none, ⟨s, m.outer.answers ++ [none]⟩)) :
    Answered limit function constants p m := by
  have hsig : function.wasmSignature.retptr = false := by
    simp only [Function.wasmSignature, hty, Option.map_none, Option.getD_none, List.length_nil]
    rfl
  have hcall : (callLowered limit function.result p.callee
      (configureArgs (binderPlan function constants)) m : Except (Trap (Fault τ)) _) =
        .ok ([], { m with outer := ⟨s, m.outer.answers ++ [none]⟩ }) := by
    rw [callLowered_congr hty, callLowered, hanswer]
  have hlen : ([] : List Wasm.Value).length = function.wasmSignature.results.length := by
    simp only [Function.wasmSignature, hty, Option.map_none, Option.getD_none]
    rfl
  obtain ⟨m', hbind, houter, hready⟩ := bind_of_value hm halign hsig hlen hcall
  have hnone : failure function.result none = none := by
    rw [hty]
    rfl
  refine .inr ⟨none, .ok (), m', hbind, ?_, ?_, ?_⟩
  · rw [houter]
  · rw [Conveys, hnone]
  · rwa [hnone]

/-- An answer that is passed by value. -/
theorem answered_of_value (hm : Ready function false m) (halign : Aligned function constants)
    {ty : WitType} {v : Val} {s : κ} (hty : function.result = some ty)
    (hflat : ¬ 1 < ty.despecialize.flatten.length) (hv : Typed ty.despecialize v)
    (hlegible : failure function.result (some v) = none)
    (hanswer : p.callee (configureArgs (binderPlan function constants)) m.memory m.outer =
      .ok (some v, ⟨s, m.outer.answers ++ [some v]⟩)) :
    Answered limit function constants p m := by
  have hsig : function.wasmSignature.retptr = false := by
    rw [Function.retptr_of_some hty, decide_eq_false hflat]
  have hcall : (callLowered limit function.result p.callee
      (configureArgs (binderPlan function constants)) m : Except (Trap (Fault τ)) _) =
        .ok (lowerOne ty.despecialize v,
          { m with outer := ⟨s, m.outer.answers ++ [some v]⟩ }) := by
    rw [callLowered_congr hty]
    exact callLowered_value hanswer hflat
  have hlen : (lowerOne ty.despecialize v).length = function.wasmSignature.results.length := by
    have hresults : function.wasmSignature.results = ty.despecialize.flatten := by
      simp only [Function.wasmSignature, hty, Option.map_some, Option.getD_some, hflat,
        decide_false, Bool.false_eq_true, if_false]
    rw [hresults]
    exact length_lowerOne _ _ hv (Nat.not_lt.mp hflat)
  obtain ⟨m', hbind, houter, hready⟩ := bind_of_value hm halign hsig hlen hcall
  refine .inr ⟨some v, .ok (), m', hbind, ?_, ?_, ?_⟩
  · rw [houter]
  · rw [Conveys, hlegible]
  · rwa [hlegible]

/-- An answer that is passed by pointer. -/
theorem answered_of_pointer (hlimit : limit ≤ 65536) (hm : Ready function false m)
    (halign : Aligned function constants) {ty : WitType} {v : Val} {s : κ}
    (hty : function.result = some ty) (hflat : 1 < ty.despecialize.flatten.length)
    (hv : Typed ty.despecialize v) (hlegible : Legible function.result (some v))
    (hanswer : p.callee (configureArgs (binderPlan function constants)) m.memory m.outer =
      .ok (some v, ⟨s, m.outer.answers ++ [some v]⟩)) :
    Answered limit function constants p m := by
  have hsig : function.wasmSignature.retptr = true := by
    rw [Function.retptr_of_some hty, decide_eq_true hflat]
  rw [hty] at hlegible
  simp only [Legible, if_pos hflat] at hlegible
  obtain ⟨hfit, hplace⟩ := hlegible
  obtain ⟨hpages, hbump, hle, hroom⟩ := hm.room ty hty hflat hfit
  have hpage := hm.page
  have hmemory : Wasm.pageSize ≤ m.memory.size := by
    unfold Wasm.Memory.size
    exact Nat.le_mul_of_pos_left _ hpage
  have hsize : 28 ≤ m.memory.size := le_trans (by decide) hmemory
  have hquiet : (∀ ok, ty.despecialize ≠ .variant [ok, .string]) →
      ∀ i, 20 ≤ i → i < 28 → m.memory.bytes i = 0 := by
    intro hstring
    refine hm.quiet rfl ?_
    intro ty' ok hty'
    rw [hty] at hty'
    cases hty'
    exact hstring ok
  obtain ⟨o, ho⟩ : ∃ o : Outside κ, o = ⟨s, m.outer.answers ++ [some v]⟩ := ⟨_, rfl⟩
  rw [← ho] at hanswer
  have hs : Settled [0] o { m with outer := o } := settled_of_ready hm hty hflat hfit o
  have hcall : (callLowered limit function.result p.callee
      (configureArgs (binderPlan function constants)) m : Except (Trap (Fault τ)) _) =
        ((access limit).store ty.despecialize v 16 { m with outer := o }).map
          fun m' => ([], m') := by
    rw [callLowered_congr hty]
    exact callLowered_pointer (getLast?_configureArgs hsig) hanswer hflat (hfit.trans hmemory)
  cases hstore : (access limit : Access (Machine (Outside κ)) (Trap (Fault τ))).store
      ty.despecialize v 16 { m with outer := o } with
  | error t =>
    rw [hstore] at hcall
    refine .inl ⟨t, bind_of_trap hm halign hcall, ?_⟩
    exact (bumping_access hlimit [0] o).store_error (fails_access hlimit [0] o) _ _ _ _ _ hs hstore
  | ok m₁ =>
    rw [hstore] at hcall
    have htouched := (bumping_access hlimit [0] o).touched_store _ _ _ _ _ hs hstore
    obtain ⟨b₁, hb₁⟩ := htouched.inv.globals
    have houter : m₁.outer = o := htouched.inv.outer
    have hgrown : m.memory.size ≤ m₁.memory.size := htouched.size_le
    obtain ⟨report, hlift, hconveys, hbyte, hkept⟩ :=
      reads_answer hlimit hs hroom hsize hv hplace hquiet hstore
    rw [← hty] at hconveys hbyte hkept
    refine .inr ⟨some v, report, _, bind_of_pointer hm halign hsig hb₁ (by omega) hcall hlift,
      ?_, hconveys, ?_⟩
    · rw [houter, ho]
    · refine ready_of_touched hm hty htouched ?_ hkept b₁ hb₁
      simp only [hbyte]

theorem bind_fresh (hlimit : limit ≤ 65536) (hm : Ready function false m)
    (halign : Aligned function constants) (hlegible : LegibleNow function constants p m) :
    Answered limit function constants p m := by
  cases hanswer : p.configure (configureArgs (binderPlan function constants)) m.memory
      m.outer.provider with
  | error t =>
    have hcall : (callLowered limit function.result p.callee
        (configureArgs (binderPlan function constants)) m : Except (Trap (Fault τ)) _) =
          .error (.host (.callee t)) := by
      simp only [callLowered, Provider.callee, hanswer]
    exact .inl ⟨_, bind_of_trap hm halign hcall, trivial⟩
  | ok r =>
    obtain ⟨answer, s⟩ := r
    have hcallee : p.callee (configureArgs (binderPlan function constants)) m.memory m.outer =
        .ok (answer, ⟨s, m.outer.answers ++ [answer]⟩) := by
      simp only [Provider.callee, hanswer]
    have hleg := hlegible answer s hanswer
    cases hty : function.result with
    | none =>
      obtain rfl : answer = none := by
        have htyped := p.typed hanswer
        simpa only [hty] using htyped
      exact answered_of_none hm halign hty hcallee
    | some ty =>
      obtain ⟨v, rfl, hv⟩ : ∃ v, answer = some v ∧ Typed ty.despecialize v := by
        have htyped := p.typed hanswer
        simpa only [hty] using htyped
      by_cases hflat : 1 < ty.despecialize.flatten.length
      · exact answered_of_pointer hlimit hm halign hty hflat hv hleg hcallee
      · refine answered_of_value hm halign hty hflat hv ?_ hcallee
        rw [hty] at hleg ⊢
        simpa only [Legible, if_neg hflat] using hleg

end Step

end Eo9.Component
