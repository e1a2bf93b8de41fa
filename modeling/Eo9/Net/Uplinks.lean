import Eo9.Net.Switch
import Eo9.Net.Sockets
import Eo9.Net.Wire

/-!
# One uplink, never wedged

The stack keeps the custody of its link as the switch and the bridge keep theirs. Whatever
their operations do, and wherever they are suspended or dropped, one interface at most is
ever open, one operation at most holds it, and it is never lost.
-/

namespace Eo9.Net.L4

open Eo9.Library

variable {S H I : Type} {β γ : Type}

section Acquire

variable {m : Routine.Moment (L4State S H I) (L2Answer I)} {s : L4State S H I}

abbrev KeepsLink (m : Routine.Moment (L4State S H I) (L2Answer I)) (t : Part S H I β)
    (s : L4State S H I) : Prop :=
  Custody.Keeps seatOf L2Call.iface L2Answer.iface m t s

/-- The start of an operation, before it takes the link. -/
def AtStart (m : Routine.Moment (L4State S H I) (L2Answer I)) (s : L4State S H I) : Prop :=
  m.cause = .start ∧ seatOf m.before = seatOf s

theorem takeLink_lawful : Custody.Lawful (seatOf (S := S) (H := H)) id takeLink
    (onSlot .release) fun link : I => onSlot (.putBack link) where
  take_vacant s h := LinkSlot.lawful.take_vacant s.slot h
  take_home s i h := LinkSlot.lawful.take_home s.slot i h
  take_away s h := by
    have htake := LinkSlot.lawful.take_away s.slot h
    rw [takeLink, onSlot, htake]
  release_away s h := LinkSlot.lawful.release_away s.slot h
  putBack_away link s h := LinkSlot.lawful.putBack_away link s.slot h

variable [Smoltcp S H] {env : Env}

theorem openLink_bringsUp : Custody.BringsUp (seatOf (S := S) (H := H)) L2Call.iface
    L2Answer.iface (id : I → I) (openLink env).run := by
  intro m s haway howed
  refine ⟨⟨haway, howed⟩, (seatOf · = .away), haway, fun _ _ h h' => h' h,
    fun s' hs' => ⟨rfl, hs'⟩, fun listed s' hs' => ?_⟩
  cases listed with
  | error e => exact ⟨hs', rfl⟩
  | ok interfaces =>
    cases interfaces with
    | nil => exact ⟨hs', rfl⟩
    | cons first rest =>
      refine ⟨⟨hs', rfl⟩, (seatOf · = .away), hs', fun _ _ h h' => h' h,
        fun s' hs' => ⟨rfl, hs'⟩, fun opened s' hs' => ?_⟩
      cases opened with
      | error e => exact ⟨hs', rfl⟩
      | ok iface =>
        obtain ⟨slot, net, rest⟩ := s'
        cases net <;> exact ⟨hs', rfl⟩

/-- An operation on the link keeps its custody, whatever it does in between. -/
theorem withLink_keeps {body : I → L4Routine S H I β}
    (hbody : ∀ link, UsesLink link (body link).run) (hm : AtStart m s) :
    KeepsLink m (withLink env body).run s := by
  have huses : ∀ link, UsesLink link
      (do
        ensureDhcpBound env link
        body link : L4Routine S H I β).run := fun link =>
    (usesLink_ensureDhcpBound env).bind fun _ => hbody link
  refine Routine.Meets.bind (takeLink_lawful.keeps openLink_bringsUp huses hm.1 hm.2) ?_
  intro m result s hresult
  match result with
  | .error e => exact hresult
  | .ok none => exact hresult
  | .ok (some b) => exact hresult

theorem withLink_away {body : I → L4Routine S H I β} (h : seatOf s = .away) :
    (withLink env body).run.settle s = (.returned (.error (.error (.io .inProgress))), s) := by
  have htake := takeLink_lawful.take_away s h
  unfold withLink
  refine Routine.settle_bind (b := Except.ok none) ?_
  unfold withResource
  rw [ExceptT.mk, Routine.act_bind, Routine.settle, htake]
  rfl

end Acquire

/-- What an operation that needs the link says when another one has it. -/
def inProgress : Except L4Error β := .error (.io .inProgress)

/-- An operation on a handle, which there has to be. -/
def onHandle (c : Option γ) (f : γ → L4Result) : L4Result := c.elim .trapped f

section Operations

variable [Smoltcp S H] [DecidableEq H] (env : Env)

/-- What an operation comes to when another one has the link. -/
def turnedAway : L4Op → L4State S H I → L4Result × L4State S H I
  | .connect remote, s =>
    (.connected (do
      let _ ← destinationV4 remote.address
      inProgress), s)
  | .listen localAddress, s =>
    (.listening (if bindable env s localAddress.address then inProgress
      else .error .addressUnavailable), s)
  | .accept id, s => (onHandle (s.listeners id) fun _ => .accepted inProgress, s)
  | .listenerAddress id, s => (onHandle (s.listeners id) fun l => .address l.localAddress, s)
  | .peerAddress id, s => (onHandle (s.conns id) fun c => .address c.peer, s)
  | .send id _, s => (onHandle (s.conns id) fun _ => .sent inProgress, s)
  | .recv id _, s => (onHandle (s.conns id) fun _ => .received inProgress, s)
  | .bindUdp localAddress, s =>
    (.bound (if bindable env s localAddress.address then inProgress
      else .error .addressUnavailable), s)
  | .udpAddress id, s => (onHandle (s.udps id) fun u => .address u.localAddress, s)
  | .sendTo id remote payload, s =>
    (onHandle (s.udps id) fun _ => .sent (do
      let _ ← destinationV4 remote.address
      if UDP_PACKET_BYTES < payload.length then .error .messageTooLarge else inProgress), s)
  | .recvFrom id _, s => (onHandle (s.udps id) fun _ => .receivedFrom inProgress, s)
  | .dnsServers, s =>
    (.servers (match env.mode, env.configured with
      | .static _, some _ => .ok []
      | .static _, none => .ok [.v4 USER_NET_DNS]
      | .dhcp, _ => inProgress), s)
  | .drop resource, s =>
    if s.lends resource ≠ 0 then (.trapped, s)
    else
      match destroy resource s with
      | none => (.trapped, s)
      | some s => (.dropped, s)

variable {env} {m : Routine.Moment (L4State S H I) (L2Answer I)} {s : L4State S H I}

omit [Smoltcp S H] [DecidableEq H] in
theorem AtStart.keeps_done (hm : AtStart m s) (b : β) : KeepsLink m (.done b : Part S H I β) s := by
  change seatOf s = Custody.owed seatOf _ _ m
  rw [Custody.owed, hm.1, hm.2]

omit [Smoltcp S H] [DecidableEq H] in
theorem finish_keeps {result : Except L4Error β → L4Result} {t : L4Routine S H I β}
    (h : KeepsLink m t.run s) : KeepsLink m (finish result t) s := by
  refine Routine.Meets.bind h fun m ended s hended => ?_
  match ended with
  | .ok b => exact hended
  | .error (.error e) => exact hended
  | .error .trap => exact hended

omit [Smoltcp S H] [DecidableEq H] in
theorem run_access_bind (f : L4State S H I → Except Stop γ × L4State S H I)
    (k : γ → L4Routine S H I β) :
    (access f >>= k).run = .step (fun s => (f s).2) fun s =>
      match (f s).1 with
      | .error e => .done (.error e)
      | .ok c => (k c).run := by
  change Routine.step _ _ = _
  congr
  funext s
  dsimp only
  cases (f s).1 <;> rfl

omit [Smoltcp S H] [DecidableEq H] in
/-- Part of an operation before it takes the link. -/
theorem AtStart.keeps_access {f : L4State S H I → Except Stop γ × L4State S H I}
    {k : γ → L4Routine S H I β} (hm : AtStart m s) (hf : (f s).2.slot = s.slot)
    (hk : ∀ c s, AtStart m s → KeepsLink m (k c).run s) :
    KeepsLink m (access f >>= k).run s := by
  have hm' : AtStart m (f s).2 := ⟨hm.1, hm.2.trans (congrArg LinkSlot.seat hf.symm)⟩
  rw [run_access_bind, KeepsLink, Custody.Keeps, Routine.Meets]
  cases (f s).1 with
  | error e => exact hm'.keeps_done _
  | ok c => exact hk c _ hm'

omit [Smoltcp S H] [DecidableEq H] in
theorem AtStart.keeps_lookup {f : L4State S H I → Option γ} {k : γ → L4Routine S H I β}
    (hm : AtStart m s) (hk : ∀ c s, AtStart m s → KeepsLink m (k c).run s) :
    KeepsLink m (lookup f >>= k).run s :=
  hm.keeps_access rfl hk

omit [Smoltcp S H] [DecidableEq H] in
theorem borrowing_keeps {resource : Resource} {f : L4State S H I → Option γ}
    {body : γ → L4Routine S H I β}
    (hbody : ∀ c s, AtStart m s → KeepsLink m (body c).run s) (hm : AtStart m s) :
    KeepsLink m (borrowing resource f body).run s :=
  hm.keeps_lookup fun c s hm =>
    Custody.Keeps.guarded (hbody c (lend resource s) hm) fun _ => rfl

section Bodies

variable {iface : I}

omit [Smoltcp S H] [DecidableEq H] in
theorem usesLink_newConn (conn : Conn H) :
    UsesLink iface (newConn conn : L4Routine S H I Nat).run :=
  usesLink_access fun _ => rfl

omit [DecidableEq H] in
theorem usesLink_awaitHandshake (handle : H) (remote : SocketAddress) :
    UsesLink iface (awaitHandshake env iface handle remote : L4Routine S H I Nat).run := by
  refine (usesLink_waitFor env _ _).then fun outcome => ?_
  cases outcome with
  | ok => exact usesLink_newConn _
  | error e => exact (usesLink_onNet _).bind fun _ => trivial

theorem usesLink_handOver (id : Nat) (endpoint : Option IpEndpoint) :
    UsesLink iface (handOver env id endpoint : L4Routine S H I (Nat × SocketAddress)).run :=
  (usesLink_access fun _ => rfl).bind fun _ => (usesLink_withNet _).bind fun _ =>
    (usesLink_remember _).bind fun _ => (usesLink_access fun _ => rfl).bind fun _ =>
      (usesLink_access fun _ => rfl).bind fun _ => (usesLink_newConn _).bind fun _ => trivial

omit [DecidableEq H] in
theorem usesLink_sendOn (handle : H) (bytes : Bytes) :
    UsesLink iface (sendOn env iface handle bytes : L4Routine S H I Nat).run := by
  refine (usesLink_waitUntil env _ _ _).then fun waited => ?_
  obtain ⟨outcome, queued⟩ := waited
  have hflush : UsesLink iface (flushQueued env iface outcome : Part S H I Unit) := by
    unfold flushQueued
    split
    · trivial
    · exact (usesLink_pump env).then fun _ => trivial
  refine hflush.then fun _ => ?_
  match outcome with
  | .ok () => trivial
  | .error (.error e) =>
    cases e with
    | timedOut =>
      dsimp only
      split <;> trivial
    | _ => trivial
  | .error .trap => trivial

omit [DecidableEq H] in
theorem usesLink_drainDatagram (handle : H) (rounds : Nat) :
    UsesLink iface (drainDatagram env iface handle rounds : L4Routine S H I Unit).run := by
  induction rounds with
  | zero => trivial
  | succ rounds ih =>
    refine UsesLink.bind ((usesLink_pump env).then fun _ => trivial) fun pumped => ?_
    split
    · trivial
    · refine (usesLink_onNet _).bind fun drained => ?_
      split
      · trivial
      · exact ih

end Bodies

omit [Smoltcp S H] [DecidableEq H] in
theorem listenerAddress_keeps (hm : AtStart m s) (id : Nat) :
    KeepsLink m (listenerAddress id).run s :=
  hm.keeps_lookup fun _ _ hm => hm.keeps_done _

omit [Smoltcp S H] [DecidableEq H] in
theorem peerAddress_keeps (hm : AtStart m s) (id : Nat) : KeepsLink m (peerAddress id).run s :=
  hm.keeps_lookup fun _ _ hm => hm.keeps_done _

omit [Smoltcp S H] [DecidableEq H] in
theorem udpAddress_keeps (hm : AtStart m s) (id : Nat) : KeepsLink m (udpAddress id).run s :=
  hm.keeps_lookup fun _ _ hm => hm.keeps_done _

/-- What the operations do before and beside the link leaves its slot alone. -/
theorem program_keeps (op : L4Op) (s : L4State S H I) :
    KeepsLink ⟨.start, s⟩ (program env op) s := by
  have hstart : AtStart ⟨.start, s⟩ s := ⟨rfl, rfl⟩
  cases op with
  | connect remote =>
    refine finish_keeps ?_
    unfold connect
    cases destinationV4 remote.address with
    | error e => exact hstart.keeps_done _
    | ok destination =>
      exact withLink_keeps (fun link => (usesLink_withNet _).bind fun handle =>
        (usesLink_remember _).bind fun _ =>
          (usesLink_awaitHandshake handle remote).guarded fun _ => rfl) hstart
  | listen localAddress =>
    refine finish_keeps (hstart.keeps_access rfl fun free s hm => ?_)
    split
    · exact withLink_keeps (fun link => (usesLink_withNet _).bind fun listener =>
        (usesLink_remember _).bind fun _ => usesLink_access fun _ => rfl) hm
    · exact hm.keeps_done _
  | accept id =>
    refine finish_keeps (borrowing_keeps (fun _ s hm => ?_) hstart)
    exact withLink_keeps (fun link => (usesLink_waitFor env _ _).bind fun endpoint =>
      usesLink_handOver id endpoint) hm
  | listenerAddress id => exact finish_keeps (listenerAddress_keeps hstart id)
  | peerAddress id => exact finish_keeps (peerAddress_keeps hstart id)
  | send id bytes =>
    refine finish_keeps (borrowing_keeps (fun connection s hm => ?_) hstart)
    exact withLink_keeps (fun link => usesLink_sendOn connection.handle bytes) hm
  | recv id capacity =>
    refine finish_keeps (borrowing_keeps (fun connection s hm => ?_) hstart)
    exact withLink_keeps (fun link => usesLink_waitFor env _ _) hm
  | bindUdp localAddress =>
    refine finish_keeps (hstart.keeps_access rfl fun free s hm => ?_)
    split
    · exact withLink_keeps (fun link => (usesLink_withNet _).bind fun udp =>
        usesLink_access fun _ => rfl) hm
    · exact hm.keeps_done _
  | udpAddress id => exact finish_keeps (udpAddress_keeps hstart id)
  | sendTo id remote payload =>
    refine finish_keeps (borrowing_keeps (fun socket s hm => ?_) hstart)
    cases destinationV4 remote.address with
    | error e => exact hm.keeps_done _
    | ok destination =>
      change KeepsLink _ (ExceptT.run (if _ then _ else _)) s
      split
      · exact hm.keeps_done _
      · exact withLink_keeps (fun link => (usesLink_withNet _).bind fun _ =>
          (usesLink_drainDatagram socket.handle 6).bind fun _ => trivial) hm
  | recvFrom id capacity =>
    refine finish_keeps (borrowing_keeps (fun socket s hm => ?_) hstart)
    exact withLink_keeps (fun link => (usesLink_waitFor env _ _).bind fun _ => trivial) hm
  | dnsServers =>
    refine finish_keeps ?_
    unfold dnsServers
    cases env.mode with
    | static addressing =>
      dsimp only
      split <;> exact hstart.keeps_done _
    | dhcp => exact withLink_keeps (fun link => usesLink_onNet _) hstart
  | drop resource =>
    change seatOf (if _ then _ else _ : L4Result × L4State S H I).2 = seatOf s
    split
    · rfl
    · cases resource with
      | connection id =>
        rw [destroy]
        cases s.conns id <;> rfl
      | listener id =>
        rw [destroy]
        cases s.listeners id <;> rfl
      | udp id =>
        rw [destroy]
        cases s.udps id <;> rfl

omit [Smoltcp S H] [DecidableEq H] in
theorem finish_settle {result : Except L4Error β → L4Result} {t : L4Routine S H I β}
    {r : Except L4Error β} {s' : L4State S H I}
    (h : t.run.settle s = (.returned (r.mapError .error), s')) :
    (finish result t).settle s = (.returned (result r), s') := by
  refine (Routine.settle_bind h).trans ?_
  cases r <;> rfl

omit [Smoltcp S H] [DecidableEq H] in
/-- An operation on a handle that comes to its end at once. -/
theorem lookup_settle {result : Except L4Error β → L4Result} {f : L4State S H I → Option γ}
    {k : γ → L4Routine S H I β} {r : γ → Except L4Error β}
    (h : ∀ c, (k c).run.settle s = (.returned ((r c).mapError .error), s)) :
    (finish result (lookup f >>= k)).settle s =
      (.returned (onHandle (f s) fun c => result (r c)), s) := by
  have hrun : (lookup f >>= k).run.settle s =
      (.returned ((f s).elim (.error .trap) fun c => (r c).mapError .error), s) := by
    rw [lookup, run_access_bind, Routine.settle]
    cases f s with
    | none => rfl
    | some c => exact h c
  refine (Routine.settle_bind hrun).trans ?_
  cases f s with
  | none => rfl
  | some c =>
    simp only [Option.elim_some]
    cases hr : r c <;> simp [onHandle, hr, Except.mapError] <;> rfl

omit [Smoltcp S H] [DecidableEq H] in
theorem giveBack_lend (resource : Resource) : giveBack resource (lend resource s) = s := by
  obtain ⟨⟩ := s
  simp [giveBack, lend]

omit [Smoltcp S H] [DecidableEq H] in
theorem borrowing_settle {result : Except L4Error β → L4Result} {resource : Resource}
    {f : L4State S H I → Option γ} {body : γ → L4Routine S H I β} {r : γ → Except L4Error β}
    (h : ∀ c, (body c).run.settle (lend resource s) =
      (.returned ((r c).mapError .error), lend resource s)) :
    (finish result (borrowing resource f body)).settle s =
      (.returned (onHandle (f s) fun c => result (r c)), s) := by
  refine lookup_settle fun c => ?_
  change (Routine.guarded _ _ _).settle (lend resource s) = _
  rw [Routine.settle_guarded (h c) rfl, giveBack_lend]

/-- An operation that finds the link taken returns without a call. -/
theorem program_away (op : L4Op) (s : L4State S H I) (h : seatOf s = .away) :
    (program env op).settle s = (.returned (turnedAway env op s).1, (turnedAway env op s).2) := by
  cases op with
  | connect remote =>
    refine finish_settle ?_
    unfold connect
    cases destinationV4 remote.address with
    | error e => rfl
    | ok destination => exact withLink_away h
  | listen localAddress =>
    refine finish_settle ?_
    unfold listen
    rw [run_access_bind, Routine.settle]
    dsimp only
    split
    · exact withLink_away h
    · rfl
  | accept id =>
    exact borrowing_settle (r := fun _ => inProgress) fun _ => withLink_away h
  | listenerAddress id =>
    refine lookup_settle (r := fun l => .ok (Listener.localAddress l)) fun _ => ?_
    rfl
  | peerAddress id =>
    refine lookup_settle (r := fun c => .ok (Conn.peer c)) fun _ => ?_
    rfl
  | send id bytes => exact borrowing_settle (r := fun _ => inProgress) fun _ => withLink_away h
  | recv id capacity => exact borrowing_settle (r := fun _ => inProgress) fun _ => withLink_away h
  | bindUdp localAddress =>
    refine finish_settle ?_
    unfold bindUdp
    rw [run_access_bind, Routine.settle]
    dsimp only
    split
    · exact withLink_away h
    · rfl
  | udpAddress id =>
    refine lookup_settle (r := fun u => .ok (Udp.localAddress u)) fun _ => ?_
    rfl
  | sendTo id remote payload =>
    refine borrowing_settle (r := fun _ => do
      let _ ← destinationV4 remote.address
      if UDP_PACKET_BYTES < payload.length then .error .messageTooLarge else inProgress)
      fun socket => ?_
    cases destinationV4 remote.address with
    | error e => rfl
    | ok destination =>
      change Routine.settle (ExceptT.run (if _ then _ else _)) _ = _
      by_cases hlength : UDP_PACKET_BYTES < payload.length
      · simp only [if_pos hlength]
        rfl
      · simp only [if_neg hlength]
        exact withLink_away h
  | recvFrom id capacity =>
    exact borrowing_settle (r := fun _ => inProgress) fun _ => withLink_away h
  | dnsServers =>
    refine finish_settle ?_
    unfold dnsServers
    cases env.mode with
    | static addressing =>
      dsimp only
      cases env.configured <;> rfl
    | dhcp => exact withLink_away h
  | drop resource => rfl

end Operations

end Eo9.Net.L4

namespace Eo9.Net

open Eo9.Library

variable {S H I : Type} [Smoltcp S H] [DecidableEq H]

/-- The switch, the bridge and the stack never wedge their uplink: whatever operations run,
and wherever they are suspended, fail or are dropped. -/
theorem uplinks_never_wedged (base : Switch.MacBase) (bridgeBase : Mac) (env : L4.Env) :
    (∀ trace (w : World (Switch.SwitchState I) (L2Answer I) PortOp PortResult),
      Run (World.Step (Switch.program base)) ⟨.new, []⟩ trace w →
        Custody.NeverWedged seatOf L2Call.iface L2Answer.iface (Switch.program base)
          (Switch.turnedAway base) trace w) ∧
    (∀ trace (w : World (Bridge.BridgeState I) (L2Answer I) PortOp PortResult),
      Run (World.Step (Bridge.program bridgeBase)) ⟨.new, []⟩ trace w →
        Custody.NeverWedged seatOf L2Call.iface L2Answer.iface (Bridge.program bridgeBase)
          (Bridge.turnedAway bridgeBase) trace w) ∧
    ∀ trace (w : World (L4.L4State S H I) (L2Answer I) L4.L4Op L4.L4Result),
      Run (World.Step (L4.program env)) ⟨.new, []⟩ trace w →
        Custody.NeverWedged L4.seatOf L2Call.iface L2Answer.iface (L4.program env)
          (L4.turnedAway env) trace w := by
  have hgives : ∀ (call : L2Call I) (a : L2Answer I call) i, L2Answer.iface call a = some i →
      call.iface = none := fun _ _ _ => L2Answer.iface_none
  refine ⟨fun trace w run => ?_, fun trace w run => ?_, fun trace w run => ?_⟩
  · exact Custody.neverWedged Switch.program_keeps hgives Switch.program_away rfl rfl run
  · exact Custody.neverWedged Bridge.program_keeps hgives Bridge.program_away rfl rfl run
  · exact Custody.neverWedged L4.program_keeps hgives L4.program_away rfl rfl run

/-- The stack brings its link up for a listener while a second operation is turned away, and
the link is back when the first is through. -/
theorem uplinks_never_wedged_listen :
    ∃ (trace : List (Label (L2Answer Unit) L4.L4Op L4.L4Result))
      (w : World (L4.L4State Wire.Engine Nat Unit) (L2Answer Unit) L4.L4Op L4.L4Result),
      w.parked.length = 0 ∧
      Custody.NeverWedged L4.seatOf L2Call.iface L2Answer.iface (L4.program Wire.env)
        (L4.turnedAway Wire.env) trace w := by
  have hplay : ∃ trace w, (⟨.new, []⟩ : World (L4.L4State Wire.Engine Nat Unit) (L2Answer Unit)
      L4.L4Op L4.L4Result).play (L4.program Wire.env)
      [.start (.listen ⟨.v4 (0, 0, 0, 0), 80⟩), .answer 0 (Wire.quiet []), .start (.accept 0),
        .answer 0 (Wire.quiet [])] = some (trace, w) ∧ w.parked.length = 0 := ⟨_, _, rfl, rfl⟩
  obtain ⟨trace, w, hplay, hparked⟩ := hplay
  exact ⟨trace, w, hparked,
    (uplinks_never_wedged Switch.DEFAULT_BASE BROADCAST Wire.env).2.2 trace w
      (World.run_of_play hplay)⟩

end Eo9.Net
