import Eo9.Library.Slots
import Eo9.Library.Runs

/-!
# Gate calls and the share registry

The kernel call gate (`gate.rs`): a child's import of `eo9:net/l4` is routed to a service
that owns the network. Operations are queued on a share, the intake of the owner's run starts
them, and the parked caller is rung.

A cell is known by its number, a grant by the number of its mint, and a run of an owner by a
number of its own; the last two are not in the source, which has plain indices only. The
dynamic values that cross the owner's boundary are typed here.
-/

namespace Eo9.Gate

open Eo9.Library

inductive WitIpAddress where
  | v4 (octets : List Nat)
  | v6 (groups : List Nat)
  deriving DecidableEq

structure WitSocketAddress where
  address : WitIpAddress
  port : Nat
  deriving DecidableEq

inductive WitL4Error where
  | denied
  | unreachable
  | connectionRefused
  | connectionReset
  | timedOut
  | addressInUse
  | addressUnavailable
  | notConnected
  | messageTooLarge
  | io (text : String)

def severedText (reason : String) : String := "provider task ended: " ++ reason

/-- The owner-task-ended severance error. -/
def severedError (reason : String) : WitL4Error := .io (severedText reason)

/-- One typed gated operation. Handle fields are indices of the table of the call's own
grant. -/
inductive GateOp where
  | connect (remote : WitSocketAddress)
  | dnsServers
  | listen (local_ : WitSocketAddress)
  | accept (listener : Nat)
  | listenerAddress (listener : Nat)
  | peerAddress (conn : Nat)
  | send (conn : Nat) (bytes : List UInt8)
  | recv (conn : Nat) (bytes : List UInt8)
  | bindUdp (local_ : WitSocketAddress)
  | udpAddress (socket : Nat)
  | sendTo (socket : Nat) (remote : WitSocketAddress) (bytes : List UInt8)
  | recvFrom (socket : Nat) (bytes : List UInt8)
  deriving DecidableEq

/-- A completed gate call's payload. -/
inductive GateDone where
  | handle (result : Except WitL4Error Nat)
  | accepted (result : Except WitL4Error (Nat × WitSocketAddress))
  | addr (address : WitSocketAddress)
  | addresses (result : Except WitL4Error (List WitIpAddress))
  | io (bytes : List UInt8) (result : Except WitL4Error Nat)
  | ioFrom (bytes : List UInt8) (result : Except WitL4Error (Nat × WitSocketAddress))

inductive CallState where
  | enqueued
  | inFlight
  | done (payload : Option GateDone)
  | severed (reason : String)

/-- Whether the call still waits in the queue or inside the owner. -/
def CallState.unfinished : CallState → Bool
  | .enqueued | .inFlight => true
  | .done _ | .severed _ => false

/-- One gate call, with the mint of the grant that it was submitted under. -/
structure GateCall where
  share : Nat
  grant : Nat
  mint : Nat
  op : Option GateOp
  state : CallState
  waker : Bool

/-- A handle of the owner's store. The owner hands out each one once: it is known by the run
of the owner, the call that it was returned to, and whether the factory returned it. -/
structure ResourceAny where
  run : Nat
  call : Nat
  factory : Bool

/-- One grant. The table maps the child's indices to handles of the owner; index 0 is the
handler. -/
structure Grant where
  table : Slots ResourceAny
  task : Option Nat
  mint : Nat

/-- One declared share, wired to the current run of its owner. -/
structure Share where
  service : Option Nat := none
  severed : Bool := true
  queue : List Nat := []
  live : List Nat := []
  intakeWaker : Bool := false
  grants : Slots Grant := []

/-- A handle on one grant, owned by the grantee's store. -/
structure GrantHandle where
  share : Nat
  grant : Nat

/-- Where the future of a started call is. -/
inductive CallFut where
  /-- It needs the handler, and has not been polled. -/
  | root (op : GateOp)
  /-- Its handle is translated, and it has not been polled. -/
  | entry (op : GateOp) (handle : ResourceAny)
  /-- In the factory. -/
  | minting (op : GateOp)
  /-- In the function of the owner. -/
  | calling (op : GateOp) (handle : ResourceAny)

/-- The drive future of an owner: a run of its service with the calls in flight. -/
structure OwnerRun where
  number : Nat
  share : Nat
  dnsServers : Bool
  inFlight : List (Nat × CallFut)

/-- How a caller waits for its call: parked, or in the loop that pumps the owner, after some
polls. -/
inductive Caller where
  | parked
  | pumping (polls : Nat)
  deriving DecidableEq

/-- The clauses of the boot configuration: the names of the shares and the console's use. -/
structure Config where
  shares : List String
  consoleUse : Option (String × String)

/-- The gate, the runs of the services that own a share, the children with a grant, and the
callers. The last fields record what happened: the calls that entered an owner, what their
futures returned, the callers that were rung, what was given to them, the callers that were
dropped while their call was queued, and those that were waiting on a share whose owner's
store went. -/
structure Gate where
  shares : Nat → Share
  calls : Nat → GateCall
  submitted : Nat
  services : Nat → Option OwnerRun
  runs : Nat
  children : Nat → Option GrantHandle
  mints : Nat
  callers : Nat → Option Caller
  killed : List Nat
  entered : List Nat
  finished : List (Nat × Except String GateDone)
  rung : List Nat
  resolved : List (Nat × Except WitL4Error GateDone)
  withdrawn : List Nat
  orphaned : List Nat

/-- The gate after the configuration is parsed. -/
def Gate.boot : Gate where
  shares := fun _ => {}
  calls := fun _ => ⟨0, 0, 0, none, .enqueued, false⟩
  submitted := 0
  services := fun _ => none
  runs := 0
  children := fun _ => none
  mints := 0
  callers := fun _ => none
  killed := []
  entered := []
  finished := []
  rung := []
  resolved := []
  withdrawn := []
  orphaned := []

namespace Gate

variable (g : Gate)

def onShare (share : Nat) (f : Share → Share) : Gate :=
  { g with shares := Function.update g.shares share (f (g.shares share)) }

def onCall (call : Nat) (f : GateCall → GateCall) : Gate :=
  { g with calls := Function.update g.calls call (f (g.calls call)) }

def onRun (service : Nat) (f : OwnerRun → OwnerRun) : Gate :=
  { g with services := Function.update g.services service ((g.services service).map f) }

def grantAt (share grant : Nat) : Option Grant := (g.shares share).grants.get grant

/-- The waker that the cell holds is taken and rung. -/
def ring (call : Nat) : Gate :=
  { g.onCall call fun cell => { cell with waker := false } with
    rung := if (g.calls call).waker then call :: g.rung else g.rung }

def takeOp (call : Nat) : Option GateOp × Gate :=
  ((g.calls call).op,
    { g.onCall call fun cell => { cell with state := .inFlight, op := none } with
      entered := call :: g.entered })

def finish (call : Nat) (done : Except String GateDone) : Gate :=
  let g := { g with finished := (call, done) :: g.finished }
  let g := g.onCall call fun cell =>
    { cell with
      state := match done with
        | .ok done => .done (some done)
        | .error reason => .severed reason }
  g.ring call

def sever (reason : String) (call : Nat) : Gate :=
  match (g.calls call).state with
  | .done _ => g
  | _ => (g.onCall call fun cell => { cell with state := .severed reason }).ring call

/-- The call leaves the lists of its share. -/
def forget (share call : Nat) : Gate :=
  g.onShare share fun s =>
    { s with queue := s.queue.filter (· ≠ call), live := s.live.filter (· ≠ call) }

/-- The caller gets its answer. -/
def resolve (call : Nat) (result : Except WitL4Error GateDone) : Gate :=
  { g with
    callers := Function.update g.callers call none
    resolved := (call, result) :: g.resolved }

/-- The poll of a parked caller's future. -/
def pollCaller (call : Nat) : Gate :=
  match (g.calls call).state with
  | .done (some done) =>
    (g.onCall call fun cell => { cell with state := .done none }).resolve call (.ok done)
  | .done none => g.resolve call (.error (severedError "result already consumed"))
  | .severed reason => g.resolve call (.error (severedError reason))
  | .enqueued | .inFlight => g.onCall call fun cell => { cell with waker := true }

/-- A parked caller's future is dropped: a queued call is withdrawn. -/
def dropCaller (call : Nat) : Gate :=
  let dropped := { g with callers := Function.update g.callers call none }
  match (g.calls call).state with
  | .enqueued =>
    { dropped.forget (g.calls call).share call with withdrawn := call :: g.withdrawn }
  | _ => dropped

def MAX_POLLS : Nat := 100_000

def pumpExhausted : WitL4Error :=
  .io "the owner did not answer a synchronous getter within the pump bound"

/-- One round of the loop that pumps the owner, up to its poll. -/
def pump (call polls : Nat) : Gate :=
  if polls = MAX_POLLS then g.resolve call (.error pumpExhausted)
  else
    match (g.calls call).state with
    | .done (some done) =>
      (g.onCall call fun cell => { cell with state := .done none }).resolve call (.ok done)
    | .done none => g.resolve call (.error (severedError "result already consumed"))
    | .severed reason => g.resolve call (.error (severedError reason))
    | .enqueued | .inFlight =>
      match (g.shares (g.calls call).share).service with
      | none => g.resolve call (.error (severedError "the owner is gone"))
      | some service =>
        match g.services service with
        | none => g.resolve call (.error (severedError "the share owner is not running"))
        | some _ =>
          { g with callers := Function.update g.callers call (some (.pumping (polls + 1))) }

/-- Wire a share to the registry slot of its owner. -/
def wireOwner (share service : Nat) : Gate :=
  g.onShare share fun _ =>
    { service := some service
      severed := false
      queue := []
      live := []
      intakeWaker := false
      grants := [] }

/-- The share that a registry slot is wired to, among those of the configuration. -/
def wiredShare (config : Config) (service : Nat) : Option Nat :=
  (List.range config.shares.length).find? fun share => (g.shares share).service = some service

/-- The run of an owner ended: sever first, then kill the gated children. -/
def onOwnerRunEnded (config : Config) (service : Nat) (reason : String) : Gate :=
  match g.wiredShare config service with
  | none => g
  | some share =>
    let s := g.shares share
    let calls := s.queue ++ s.live
    let tasks := s.grants.filterMap fun slot => slot.bind Grant.task
    let g := g.onShare share fun s =>
      { s with
        severed := true
        service := none
        intakeWaker := false
        queue := []
        live := []
        grants := [] }
    let g := calls.foldl (fun g call => g.sever reason call) g
    { g with killed := tasks ++ g.killed }

def declaredShare (config : Config) (name : String) : Option Nat :=
  config.shares.findIdx? (· = name)

def consoleL4Share (config : Config) : Option Nat :=
  match config.consoleUse with
  | some ("l4", name) => declaredShare config name
  | _ => none

def shareName (config : Config) (share : Nat) : String := config.shares.getD share ""

/-- Whether a share takes grants and submissions. -/
def accepts (share : Nat) : Bool := !(g.shares share).severed && (g.shares share).service.isSome

/-- Mint a grant for a child that imports the network. -/
def mintConsoleGrant (config : Config) : Except String (Option GrantHandle × Gate) :=
  match consoleL4Share config with
  | none => .ok (none, g)
  | some share =>
    if ¬ g.accepts share then
      .error ("the shared network provider \x60" ++ shareName config share ++
        "\x60 is not running (the gate is severed); the spawn is refused until its supervisor " ++
        "restarts it")
    else
      let placed := (g.shares share).grants.insert ⟨[none], none, g.mints⟩
      let handle : GrantHandle := ⟨share, placed.1⟩
      let minted := g.onShare share fun s => { s with grants := placed.2 }
      .ok (some handle,
        { minted with
          children := Function.update g.children g.mints (some handle)
          mints := g.mints + 1 })

def bindGrantTask (share grant task : Nat) : Gate :=
  g.onShare share fun s =>
    { s with grants := s.grants.update grant fun granted => { granted with task := some task } }

/-- The store of a grantee goes, and its handle with it. -/
def dropGrantHandle (mint : Nat) (handle : GrantHandle) : Gate :=
  let released := g.onShare handle.share fun s =>
    { s with grants := s.grants.clear handle.grant }
  { released with children := Function.update g.children mint none }

/-- A child drops a handle. -/
def dropChildHandle (share grant rep : Nat) : Gate :=
  if rep = 0 then g
  else
    g.onShare share fun s =>
      { s with
        grants := s.grants.update grant fun granted =>
          { granted with table := granted.table.clear rep } }

/-- Queue a call on a share. -/
def submit (config : Config) (mint : Nat) (handle : GrantHandle) (op : GateOp) :
    Except String (Nat × Gate) :=
  if ¬ g.accepts handle.share then
    .error ("the shared provider \x60" ++ shareName config handle.share ++ "\x60 ended")
  else if (g.grantAt handle.share handle.grant).isNone then .error "the grant was released"
  else
    let call := g.submitted
    let created := g.onCall call fun _ =>
      { share := handle.share
        grant := handle.grant
        mint := mint
        op := some op
        state := .enqueued
        waker := false }
    let queued := created.onShare handle.share fun s =>
      { s with
        queue := s.queue ++ [call]
        live := s.live ++ [call]
        intakeWaker := false }
    .ok (call, { queued with submitted := g.submitted + 1 })

end Gate

/-!
## The intake of an owner, and the steps of the gate

The intake lives in the drive future of an owner's run. A poll of it takes the queue of the
share, starts each call, and polls the calls in flight. What the owner's functions return, and
when, comes with the step. Starting the queue and polling one call are steps of their own, so
that other things may happen between them.
-/

/-- What the factory returned, if it is done. -/
inductive Minted where
  | handler
  | failed (reason : String)

/-- What a function of the owner returned. -/
inductive Returned where
  | handle
  | accepted (peer : WitSocketAddress)
  | addr (address : WitSocketAddress)
  | addresses (servers : List WitIpAddress)
  | io (bytes : List UInt8) (result : Except WitL4Error Nat)
  | ioFrom (bytes : List UInt8) (result : Except WitL4Error (Nat × WitSocketAddress))
  | error (error : WitL4Error)
  | failed (reason : String)

/-- What the guest has ready at one poll of a call: in the factory, and in the function. -/
structure Ready where
  minted : Option Minted
  returned : Option Returned

namespace Gate

variable (g : Gate)

/-- The handle of the owner behind a child's index. -/
def tableEntry (share grant rep : Nat) : Except String ResourceAny :=
  match (g.grantAt share grant).bind fun granted => granted.table.get rep with
  | some handle => .ok handle
  | none => .error ("unknown handle " ++ toString rep ++ " (not in this grant's table)")

/-- Enter a handle of the owner in a table; the child's index comes back. -/
def tableEnter (share grant : Nat) (handle : ResourceAny) : Except String Nat × Gate :=
  match g.grantAt share grant with
  | none => (.error "the grant was released", g)
  | some granted =>
    (.ok (granted.table.insert handle).1,
      g.onShare share fun s =>
        { s with
          grants := s.grants.update grant fun granted =>
            { granted with table := (granted.table.insert handle).2 } })

def handlerEntry (share grant : Nat) : Option ResourceAny := (g.tableEntry share grant 0).toOption

def setHandlerEntry (share grant : Nat) (handle : ResourceAny) : Gate :=
  g.onShare share fun s =>
    { s with
      grants := s.grants.update grant fun granted =>
        { granted with table := granted.table.set 0 (some handle) } }

/-- The index that an operation names in the table of its grant; the others need the
handler. -/
def named : GateOp → Option Nat
  | .accept listener | .listenerAddress listener => some listener
  | .peerAddress conn | .send conn _ | .recv conn _ => some conn
  | .udpAddress socket | .sendTo socket _ _ | .recvFrom socket _ => some socket
  | .connect _ | .dnsServers | .listen _ | .bindUdp _ => none

/-- Build the future for one call that left the queue. -/
def buildCallFuture (run : OwnerRun) (call : Nat) : Except String CallFut × Gate :=
  let cell := g.calls call
  let taken := g.takeOp call
  match taken.1 with
  | none => (.error "the call has no operation", taken.2)
  | some op =>
    if op = .dnsServers ∧ run.dnsServers = false then
      (.error "the owner predates dns-servers (rebuild the serving composition)", taken.2)
    else
      match named op with
      | none => (.ok (.root op), taken.2)
      | some rep =>
        match taken.2.tableEntry cell.share cell.grant rep with
        | .error reason => (.error reason, taken.2)
        | .ok handle => (.ok (.entry op handle), taken.2)

/-- Parse what the function of the owner returned; a new handle goes into the table. -/
def parse (run : OwnerRun) (call : Nat) (op : GateOp) (returned : Returned) :
    Except String GateDone × Gate :=
  let cell := g.calls call
  let handle : ResourceAny := ⟨run.number, call, false⟩
  match op, returned with
  | _, .failed reason => (.error ("the gated call failed inside the owner: " ++ reason), g)
  | .connect _, .handle | .listen _, .handle | .bindUdp _, .handle =>
    let entered := g.tableEnter cell.share cell.grant handle
    (entered.1.map fun rep => .handle (.ok rep), entered.2)
  | .connect _, .error e | .listen _, .error e | .bindUdp _, .error e =>
    (.ok (.handle (.error e)), g)
  | .accept _, .accepted peer =>
    let entered := g.tableEnter cell.share cell.grant handle
    (entered.1.map fun rep => .accepted (.ok (rep, peer)), entered.2)
  | .accept _, .error e => (.ok (.accepted (.error e)), g)
  | .listenerAddress _, .addr address | .peerAddress _, .addr address
  | .udpAddress _, .addr address => (.ok (.addr address), g)
  | .dnsServers, .addresses servers => (.ok (.addresses (.ok servers)), g)
  | .dnsServers, .error e => (.ok (.addresses (.error e)), g)
  | .send _ _, .io bytes result | .recv _ _, .io bytes result
  | .sendTo _ _ _, .io bytes result => (.ok (.io bytes result), g)
  | .recvFrom _ _, .ioFrom bytes result => (.ok (.ioFrom bytes result), g)
  | _, _ => (.error "malformed result", g)

/-- The outcome of a poll: the future goes on, or its result is there. -/
abbrev Polled := Except CallFut (Except String GateDone)

/-- Call the function of the owner with its handle, or poll it again. -/
def callFunction (run : OwnerRun) (call : Nat) (op : GateOp) (handle : ResourceAny)
    (ready : Ready) : Polled × Gate :=
  match ready.returned with
  | none => (.error (.calling op handle), g)
  | some returned =>
    let parsed := g.parse run call op returned
    (.ok parsed.1, parsed.2)

/-- Wait for the factory, then call the function. -/
def mintHandler (run : OwnerRun) (call : Nat) (op : GateOp) (ready : Ready) : Polled × Gate :=
  match ready.minted with
  | none => (.error (.minting op), g)
  | some (.failed reason) => (.ok (.error reason), g)
  | some .handler =>
    let cell := g.calls call
    let handle : ResourceAny := ⟨run.number, call, true⟩
    (g.setHandlerEntry cell.share cell.grant handle).callFunction run call op handle ready

def pollCall (run : OwnerRun) (call : Nat) (ready : Ready) : CallFut → Polled × Gate
  | .root op =>
    let cell := g.calls call
    match g.handlerEntry cell.share cell.grant with
    | some handle => g.callFunction run call op handle ready
    | none => g.mintHandler run call op ready
  | .minting op => g.mintHandler run call op ready
  | .entry op handle | .calling op handle => g.callFunction run call op handle ready

/-- The result of a call is there: it leaves the live list, and its caller is rung. -/
def complete (share call : Nat) (result : Except String GateDone) : Gate :=
  (g.onShare share fun s => { s with live := s.live.filter (· ≠ call) }).finish call result

/-- Start one call that left the queue. -/
def start (service : Nat) (call : Nat) : Gate :=
  match g.services service with
  | none => g
  | some run =>
    let built := g.buildCallFuture run call
    match built.1 with
    | .ok future =>
      built.2.onRun service fun run => { run with inFlight := run.inFlight ++ [(call, future)] }
    | .error reason => built.2.complete run.share call (.error reason)

/-- Take the queue and start each call. -/
def drain (service : Nat) : Gate :=
  match g.services service with
  | none => g
  | some run =>
    let taken := g.onShare run.share fun s => { s with queue := [], intakeWaker := true }
    (g.shares run.share).queue.foldl (fun g call => g.start service call) taken

/-- Poll one call in flight. -/
def advance (service call : Nat) (ready : Ready) : Gate :=
  match g.services service with
  | none => g
  | some run =>
    match run.inFlight.lookup call with
    | none => g
    | some future =>
      let polled := g.pollCall run call ready future
      match polled.1 with
      | .error future =>
        polled.2.onRun service fun run =>
          { run with
            inFlight := run.inFlight.map fun entry =>
              if entry.1 = call then (call, future) else entry }
      | .ok result =>
        (polled.2.onRun service fun run =>
          { run with
            inFlight := run.inFlight.filter fun entry => entry.1 ≠ call }).complete
          run.share call result

/-- A service that owns a share starts a run, and the share is wired to it. -/
def openRun (share service : Nat) (dnsServers : Bool) : Gate :=
  { g with
    services := Function.update g.services service (some ⟨g.runs, share, dnsServers, []⟩)
    runs := g.runs + 1 }.wireOwner share service

def waitingOn (share : Nat) : List Nat :=
  (List.range g.submitted).filter fun call =>
    (g.callers call).isSome && (g.calls call).state.unfinished && (g.calls call).share == share

/-- A run of a service ends, by itself or stopped: its drive future goes, and the store in it,
and then the share is severed. -/
def endRun (config : Config) (service : Nat) (reason : String) : Gate :=
  let stranded := (g.wiredShare config service).elim [] g.waitingOn
  { g with
    services := Function.update g.services service none
    orphaned := stranded ++ g.orphaned }.onOwnerRunEnded config service reason

/-- A grantee goes, with the futures of its calls and its handle. -/
def dropChild (mint : Nat) (handle : GrantHandle) : Gate :=
  let calls := (List.range g.submitted).filter fun call =>
    g.callers call = some .parked ∧ (g.calls call).mint = mint
  (calls.foldl dropCaller g).dropGrantHandle mint handle

/-- Whether a grantee is in the loop that pumps the owner, where it holds no await. -/
def pumps (mint : Nat) : Bool :=
  (List.range g.submitted).any fun call =>
    (g.calls call).mint = mint ∧ g.callers call ≠ none ∧ g.callers call ≠ some .parked

end Gate

inductive Event where
  | openRun (share service : Nat) (dnsServers : Bool)
  | endRun (service : Nat) (reason : String)
  | mint
  | bind (mint task : Nat)
  | submit (mint : Nat) (op : GateOp) (parks : Bool)
  | pollCaller (call : Nat)
  | pump (call : Nat)
  | dropCaller (call : Nat)
  | dropChild (mint : Nat)
  | dropChildHandle (mint rep : Nat)
  | drain (service : Nat)
  | advance (service call : Nat) (ready : Ready)

/-- What one event does to the gate, if it can happen. -/
def Gate.next (config : Config) (g : Gate) : Event → Option Gate
  | .openRun share service dnsServers =>
    if share < config.shares.length ∧ g.services service = none then
      some (g.openRun share service dnsServers)
    else none
  | .endRun service reason =>
    if (g.services service).isSome then some (g.endRun config service reason) else none
  | .mint =>
    match g.mintConsoleGrant config with
    | .ok (_, g) => some g
    | .error _ => some g
  | .bind mint task =>
    (g.children mint).map fun handle => g.bindGrantTask handle.share handle.grant task
  | .submit mint op parks =>
    (g.children mint).map fun handle =>
      match g.submit config mint handle op with
      | .error _ => g
      | .ok (call, g) =>
        -- a future is polled at once; a pump starts with no poll made
        if parks then
          { g with callers := Function.update g.callers call (some .parked) }.pollCaller call
        else { g with callers := Function.update g.callers call (some (.pumping 0)) }
  | .pollCaller call => if g.callers call = some .parked then some (g.pollCaller call) else none
  | .pump call =>
    match g.callers call with
    | some (.pumping polls) => some (g.pump call polls)
    | _ => none
  | .dropCaller call => if g.callers call = some .parked then some (g.dropCaller call) else none
  | .dropChild mint =>
    if g.pumps mint then none else (g.children mint).map fun handle => g.dropChild mint handle
  | .dropChildHandle mint rep =>
    (g.children mint).map fun handle => g.dropChildHandle handle.share handle.grant rep
  | .drain service => if (g.services service).isSome then some (g.drain service) else none
  | .advance service call ready =>
    if (g.services service).isSome then some (g.advance service call ready) else none

/-- The steps of the gate. -/
def Step (config : Config) (g : Gate) (event : Event) (g' : Gate) : Prop :=
  g.next config event = some g'

end Eo9.Gate
