import Eo9.Msd.Link

/-!
# The ladder

Where the engine is at each of its awaits and at each of its ends: between exchanges
with `mid_command` down, or in a possibly torn one with `mid_command` up. One
rule for each function, from the single call up to the commands.
-/

namespace Eo9.Msd

open Eo9.Library Eo9.Library.Action Eo9.Library.Dialogue

/-- The engine behind its start `s₀`, with `n` wrappers sent and a link in a given
state. -/
structure At (s₀ : Io) (n : Nat) (link : Link) (midCommand : Bool) (s : Io) : Prop where
  guarded : Guarded s.wire
  numbered : Numbered s.wire
  grown : s₀.wire <+: s.wire
  sent : (cbws s.wire).length = n
  tag : s.own.tag = tagAfter n
  link : linkOf s.wire = link
  mid : s.own.midCommand = midCommand

/-- The last exchange may be torn. -/
def Live (s₀ : Io) (n : Nat) (s : Io) : Prop :=
  ∃ link, link ≠ .between ∧ At s₀ n link true s

/-- What a command leaves behind at each of its ends. -/
def Settled (s₀ : Io) (n : Nat) (s : Io) : Prop := At s₀ n .between false s ∨ Live s₀ n s

/-- A stop other than by a failed status. -/
def Plain : Stop (Ended MsdError) → Prop
  | .err (.failed (.commandFailed _)) => False
  | .diverge => False
  | _ => True

/-- How an exchange stops. -/
def Ends (s₀ : Io) (e : Stop (Ended MsdError)) (s : Io) : Prop :=
  Plain e ∧ ∃ n, Settled s₀ n s

section Specs

variable {s₀ s : Io} {n : Nat} {link : Link}

theorem Live.ends {e : Stop (Ended MsdError)} (h : Live s₀ n s) (he : Plain e) :
    Ends s₀ e s := ⟨he, n, .inr h⟩

/-- A call that sends no wrapper moves the link and nothing else. -/
theorem At.called {mid : Bool} {c : Call} {answer : Option Answer} {rest : List Answer}
    (h : At s₀ n link mid s) (hc : cbwOf (c, answer) = none) :
    At s₀ n (link.next (c, answer)) mid (s.called c answer rest) where
  guarded := guarded_snoc h.guarded fun hcbw => absurd hc hcbw
  numbered := by
    rw [called_wire, Numbered, cbws_snoc_of_none hc]
    exact h.numbered
  grown := h.grown.trans (List.prefix_append _ _)
  sent := by rw [called_wire, cbws_snoc_of_none hc, h.sent]
  tag := h.tag
  link := by rw [called_wire, linkOf_snoc, h.link]
  mid := h.mid

theorem At.live {tag : Nat} (h : At s₀ n (.exchange tag) true s) : Live s₀ n s :=
  ⟨.exchange tag, nofun, h⟩

/-- A call that leaves the exchange as it is. -/
theorem At.stays {tag : Nat} {c : Call} {answer : Option Answer} {rest : List Answer}
    (h : At s₀ n (.exchange tag) true s) (hc : cbwOf (c, answer) = none)
    (hnext : (Link.exchange tag).next (c, answer) = .exchange tag) :
    At s₀ n (.exchange tag) true (s.called c answer rest) :=
  hnext ▸ h.called hc

theorem At.setMidCommand {mid mid' : Bool} (h : At s₀ n link mid s) :
    At s₀ n link mid' { s with own := { s.own with midCommand := mid' } } :=
  { h with mid := rfl }

/-- A call inside of a torn exchange that cannot end it. -/
theorem wp_ask {c : Call} (h : At s₀ n link true s) (hlink : link ≠ .between)
    (hcbw : ∀ answer, cbwOf (c, answer) = none) (hcsw : c ≠ .csw) :
    wp (ask c) s (fun chunk s' => At s₀ n (link.next (c, some (.ok chunk))) true s')
      fun e s' => e ≠ .diverge ∧ Live s₀ n s' := by
  have hfailed : ∀ answer : Option Answer, (∀ chunk, answer ≠ some (.ok chunk)) →
      link.next (c, answer) ≠ .between := by
    intro answer hanswer
    refine Link.next_ne_between hlink ?_ ?_
    · intro chunk tag he
      exact absurd (Prod.mk.inj he).1 hcsw
    · intro chunk he
      exact absurd (Prod.mk.inj he).2 (hanswer chunk)
  refine wp_bind (wp_await (q := fun answer s' => At s₀ n (link.next (c, some answer)) true s')
    (t := fun e s' => e ≠ .diverge ∧ Live s₀ n s') ?_ ?_) ?_ fun _ _ => id
  · exact ⟨nofun, _, hfailed none nofun, h.called (hcbw none)⟩
  · intro answer rest _
    exact h.called (hcbw _)
  · intro answer s' h'
    cases answer with
    | ok chunk => exact wp_pure h'
    | error e => exact wp_fail ⟨nofun, _, hfailed (some (.error e)) nofun, h'⟩

/-- A reset recovery that succeeds ends between exchanges; one that does not leaves
the exchange torn. -/
theorem wp_resetRecovery (h : Live s₀ n s) :
    wp resetRecovery s (fun _ s' => At s₀ n .between true s')
      fun e s' => e ≠ .diverge ∧ Live s₀ n s' := by
  obtain ⟨link, hlink, h⟩ := h
  refine wp_bind (wp_ask h hlink (fun _ => rfl) nofun) (fun _ s₁ h₁ => ?_) fun _ _ => id
  have h₁ : At s₀ n .reset true s₁ := h₁
  refine wp_bind (wp_ask h₁ nofun (fun _ => rfl) nofun) (fun _ s₂ h₂ => ?_) fun _ _ => id
  have h₂ : At s₀ n .resetIn true s₂ := h₂
  exact wp_bind (wp_ask h₂ nofun (fun _ => rfl) nofun) (fun _ _ h₃ => wp_pure h₃) fun _ _ => id

theorem wp_orTransport {α : Type} {m : Engine TransportError α} {post : α → Io → Prop}
    (h : wp m s post fun e s' => e ≠ .diverge ∧ Live s₀ n s') :
    wp (orTransport m) s post (Ends s₀) :=
  wp_mapFailed h (fun _ _ h => h.2.ends trivial) (fun _ h => h.2.ends trivial)
    (fun _ _ h => h.2.ends trivial) fun _ h => absurd rfl h.1

theorem wp_setMidCommand {b mid : Bool} {stop : Stop (Ended MsdError) → Io → Prop}
    (h : At s₀ n link mid s) :
    wp (setMidCommand b) s (fun _ s' => At s₀ n link b s') stop := wp_modify h.setMidCommand

theorem wp_recover {α : Type} {e : ProtocolError} {post : α → Io → Prop} (h : Live s₀ n s) :
    wp (recover e) s post (Ends s₀) := by
  refine wp_bind (wp_orTransport (wp_resetRecovery h)) (fun _ s₁ h₁ => ?_) fun _ _ => id
  refine wp_bind (wp_setMidCommand h₁) (fun _ s₂ h₂ => ?_) fun _ _ => id
  exact wp_fail ⟨trivial, n, .inl h₂⟩

theorem wp_resync (h : Settled s₀ n s) :
    wp resync s (fun _ s' => At s₀ n .between false s') (Ends s₀) := by
  refine wp_bind (q := fun mid s' => s' = s ∧ mid = s.own.midCommand) (t := Ends s₀)
    (wp_gets ⟨rfl, rfl⟩) ?_ fun _ _ => id
  rintro mid s' ⟨rfl, rfl⟩
  rcases h with h | h
  · rw [h.mid]
    exact wp_pure h
  · have hmid : s'.own.midCommand = true := h.elim fun _ h => h.2.mid
    rw [hmid]
    refine wp_bind (wp_orTransport (wp_resetRecovery h)) (fun _ s₁ h₁ => ?_) fun _ _ => id
    exact wp_setMidCommand h₁

/-- Sending the wrapper under the tag that was taken for it. -/
theorem wp_sendCbw {cbw : Bytes} (hcbw : tagOf cbw = tagAfter (n + 1))
    (h : At s₀ n .between true { s with own := { s.own with tag := tagAfter n } })
    (htag : s.own.tag = tagAfter (n + 1)) :
    wp (sendCbw cbw) s (fun _ s' => At s₀ (n + 1) (.exchange (tagAfter (n + 1))) true s')
      (Ends s₀) := by
  have hsent : ∀ answer rest,
      At s₀ (n + 1) (.exchange (tagAfter (n + 1))) true (s.called (.cbw cbw) answer rest) := by
    intro answer rest
    have hcbws : cbws (s.wire ++ [(.cbw cbw, answer)]) = cbws s.wire ++ [cbw] := cbws_append _ _
    refine ⟨guarded_snoc h.guarded fun _ => h.link, ?_, h.grown.trans (List.prefix_append _ _), ?_,
      htag, ?_, h.mid⟩
    · intro m bytes hm
      rw [called_wire, hcbws] at hm
      rcases Nat.lt_or_ge m (cbws s.wire).length with hlt | hge
      · rw [List.getElem?_append_left hlt] at hm
        exact h.numbered m bytes hm
      · rw [List.getElem?_append_right hge, List.getElem?_singleton] at hm
        split at hm
        · rename_i hlast
          obtain rfl := Option.some.inj hm
          have hsent : (cbws s.wire).length = n := h.sent
          rw [hcbw]
          exact congrArg (fun m => tagAfter (m + 1)) (by omega)
        · exact absurd hm nofun
    · rw [called_wire, hcbws, List.length_append, h.sent, List.length_singleton]
    · rw [called_wire, linkOf_snoc]
      exact congrArg Link.exchange hcbw
  refine wp_bind (wp_await (q := fun _ s' => At s₀ (n + 1) (.exchange (tagAfter (n + 1))) true s')
    ?_ ?_) ?_ fun _ _ => id
  · exact (hsent none []).live.ends trivial
  · exact fun answer rest _ => hsent (some answer) rest
  · intro answer s' h'
    have hlive : Live s₀ (n + 1) s' := h'.live
    rcases answer with (_ | _ | _) | chunk
    · exact wp_recover hlive
    · exact wp_fail (hlive.ends trivial)
    · exact wp_fail (hlive.ends trivial)
    · exact wp_pure h'

section Data

variable {tag : Nat}

/-- A call of the data stage, or the first try of the status that stalls. -/
theorem wp_halt {c : Call} (h : At s₀ n (.exchange tag) true s)
    (hc : c = .clearHaltIn ∨ c = .clearHaltOut) :
    wp (orTransport (ask c)) s (fun _ s' => At s₀ n (.exchange tag) true s') (Ends s₀) := by
  have hask := wp_ask (c := c) h nofun (fun _ => by rcases hc with rfl | rfl <;> rfl)
    (by rcases hc with rfl | rfl <;> exact nofun)
  refine wp_orTransport (wp_mono hask (fun chunk s' h' => ?_) fun _ _ => id)
  rcases hc with rfl | rfl <;> exact h'

theorem wp_readData {expected fuel : Nat} {data : Bytes} (h : At s₀ n (.exchange tag) true s)
    (hfuel : s.answers.length < fuel) :
    wp (readData expected fuel data) s (fun _ s' => At s₀ n (.exchange tag) true s')
      (Ends s₀) := by
  induction fuel generalizing s data with
  | zero => exact absurd hfuel (Nat.not_lt_zero _)
  | succ fuel ih =>
    unfold readData
    split
    · exact wp_pure h
    · refine wp_bind (wp_await (q := fun answer s' => At s₀ n (.exchange tag) true s' ∧
        s'.answers.length < fuel) ?_ ?_) ?_ fun _ _ => id
      · exact (h.stays rfl rfl).live.ends trivial
      · intro answer rest hanswers
        rw [hanswers, List.length_cons] at hfuel
        exact ⟨h.stays rfl rfl, Nat.lt_of_succ_lt_succ hfuel⟩
      · rintro answer s' ⟨h', hfuel'⟩
        have hlive : Live s₀ n s' := h'.live
        rcases answer with (_ | _ | _) | chunk
        · exact wp_bind (wp_halt h' (.inl rfl)) (fun _ _ h => wp_pure h) fun _ _ => id
        · exact wp_fail (hlive.ends trivial)
        · exact wp_fail (hlive.ends trivial)
        · dsimp only
          split
          · exact wp_pure h'
          · exact ih h' hfuel'

theorem wp_moveData {phase : DataPhase} (h : At s₀ n (.exchange tag) true s) :
    wp (moveData phase) s (fun _ s' => At s₀ n (.exchange tag) true s') (Ends s₀) := by
  cases phase with
  | none => exact wp_pure h
  | dataIn expected =>
    refine wp_bind (q := fun fuel s' => s' = s ∧ fuel = s.answers.length) (t := Ends s₀)
      (wp_gets ⟨rfl, rfl⟩) ?_ fun _ _ => id
    rintro fuel s' ⟨rfl, rfl⟩
    exact wp_readData h (Nat.lt_succ_self _)
  | dataOut payload =>
    refine wp_bind (wp_await (q := fun _ s' => At s₀ n (.exchange tag) true s') ?_ ?_) ?_
      fun _ _ => id
    · exact (h.stays rfl rfl).live.ends trivial
    · exact fun answer rest _ => h.stays rfl rfl
    · intro answer s' h'
      have hlive : Live s₀ n s' := h'.live
      rcases answer with (_ | _ | _) | chunk
      · exact wp_bind (wp_halt h' (.inr rfl)) (fun _ _ h => wp_pure h) fun _ _ => id
      · exact wp_fail (hlive.ends trivial)
      · exact wp_fail (hlive.ends trivial)
      · exact wp_pure h'

/-- The last call got a chunk in the status stage of an exchange. -/
def ReadStatus (s₀ : Io) (n tag : Nat) (chunk : Chunk) (s : Io) : Prop :=
  ∃ before, s.wire = before ++ [(.csw, some (.ok chunk))] ∧ linkOf before = .exchange tag ∧
    (cbws before).length = n ∧ At s₀ n ((Link.exchange tag).next (.csw, some (.ok chunk))) true s

/-- What the last call left, by its answer. -/
def AfterTry (s₀ : Io) (n tag : Nat) : Except TransferError Chunk → Io → Prop
  | .ok chunk, s => ReadStatus s₀ n tag chunk s
  | .error _, s => At s₀ n (.exchange tag) true s

/-- One try of the status. -/
theorem wp_awaitCsw {k : Answer → Engine MsdError Chunk} (h : At s₀ n (.exchange tag) true s)
    (hk : ∀ e s', At s₀ n (.exchange tag) true s' →
      wp (k (.error e)) s' (fun chunk => ReadStatus s₀ n tag chunk) (Ends s₀))
    (hok : ∀ chunk, k (.ok chunk) = pure chunk) :
    wp (await .csw >>= k) s (fun chunk => ReadStatus s₀ n tag chunk) (Ends s₀) := by
  refine wp_bind (wp_await (q := AfterTry s₀ n tag) ?_ ?_) ?_ fun _ _ => id
  · exact (h.stays rfl rfl).live.ends trivial
  · intro answer rest _
    cases answer with
    | ok chunk => exact ⟨s.wire, rfl, h.link, h.sent, h.called rfl⟩
    | error e => exact h.stays rfl rfl
  · intro answer s' h'
    cases answer with
    | ok chunk =>
      rw [hok]
      exact wp_pure h'
    | error e => exact hk e s' h'

theorem wp_readCsw (h : At s₀ n (.exchange tag) true s) :
    wp readCsw s (fun chunk => ReadStatus s₀ n tag chunk) (Ends s₀) := by
  refine wp_awaitCsw h (fun e s₁ h₁ => ?_) fun _ => rfl
  have hlive₁ : Live s₀ n s₁ := h₁.live
  rcases e with _ | _ | text
  · refine wp_bind (wp_halt h₁ (.inl rfl)) (fun _ s₂ h₂ => ?_) fun _ _ => id
    refine wp_awaitCsw h₂ (fun e s₃ h₃ => ?_) fun _ => rfl
    have hlive₃ : Live s₀ n s₃ := h₃.live
    rcases e with _ | _ | text
    · exact wp_recover hlive₃
    · exact wp_fail (hlive₃.ends trivial)
    · exact wp_fail (hlive₃.ends trivial)
  · exact wp_fail (hlive₁.ends trivial)
  · exact wp_fail (hlive₁.ends trivial)

theorem wp_acceptCsw {chunk : Chunk} (h : ReadStatus s₀ n tag chunk s) :
    wp (acceptCsw chunk tag) s (fun csw s' => accepted tag chunk = some csw ∧ s' = s)
      (Ends s₀) := by
  obtain ⟨before, hwire, hlink, hsent, hat⟩ := h
  have hlive : accepted tag chunk = none → Live s₀ n s := by
    intro hnone
    refine @At.live _ _ _ tag ?_
    simpa only [Link.next, hnone, Option.isSome_none, Bool.false_eq_true, if_false] using hat
  unfold acceptCsw
  split
  · rename_i e he
    apply wp_recover
    apply hlive
    simp only [accepted, he]
  · rename_i csw hcsw
    split
    · rename_i hphase
      apply wp_recover
      apply hlive
      simp only [accepted, hcsw, hphase, if_true]
    · rename_i hphase
      refine wp_pure ⟨?_, rfl⟩
      simp only [accepted, hcsw, hphase, if_false]

end Data

/-- The status that ended the exchange of the `n`-th wrapper. -/
def Taken (n : Nat) (status : UInt8) (wire : Wire) : Prop :=
  ∃ before chunk after tag csw, wire = before ++ (.csw, some (.ok chunk)) :: after ∧
    (cbws before).length = n ∧ linkOf before = .exchange tag ∧
    accepted tag chunk = some csw ∧ csw.status = status

theorem Taken.mono {status : UInt8} {wire wire' : Wire} (h : Taken n status wire)
    (hgrown : wire <+: wire') : Taken n status wire' := by
  obtain ⟨before, chunk, after, tag, csw, rfl, hrest⟩ := h
  obtain ⟨rest, rfl⟩ := hgrown
  refine ⟨before, chunk, after ++ rest, tag, csw, ?_, hrest⟩
  rw [List.append_assoc, List.cons_append]

theorem accepted_status {tag : Nat} {chunk : Chunk} {csw : Csw}
    (h : accepted tag chunk = some csw) (hpassed : csw.status ≠ CSW_PASSED) :
    csw.status = CSW_FAILED := by
  unfold accepted at h
  split at h
  · rename_i csw' hcsw
    split at h
    · exact absurd h nofun
    · rename_i hphase
      obtain rfl := Option.some.inj h
      have hle := UInt8.le_iff_toNat_le.mp (decodeCsw_eq_ok hcsw).2
      simp only [CSW_PASSED, CSW_FAILED, CSW_PHASE_ERROR, ne_eq, ← UInt8.toNat_inj,
        UInt8.reduceToNat] at hpassed hphase hle ⊢
      omega
  · exact absurd h nofun

theorem takeTag_apply (htag : s.own.tag = tagAfter n) :
    takeTag s = (.ok (tagAfter (n + 1)), { s with own := ⟨tagAfter (n + 1), s.own.midCommand⟩ }) := by
  unfold takeTag
  rw [update_apply, htag, tagAfter_succ]

/-- An exchange that gives its data and its status is over. -/
theorem wp_execute (cdb : Bytes) (phase : DataPhase)
    (hcdb : 1 ≤ cdb.length ∧ cdb.length ≤ MAX_CDB_LEN) (h : Settled s₀ n s) :
    wp (execute cdb phase) s (fun result s' => At s₀ (n + 1) .between false s' ∧
      (result.2.status = CSW_PASSED ∨ result.2.status = CSW_FAILED) ∧
      Taken (n + 1) result.2.status s'.wire) (Ends s₀) := by
  refine wp_bind (wp_resync h) (fun _ s₁ h₁ => ?_) fun _ _ => id
  refine wp_bind_of_ok (takeTag_apply h₁.tag) ?_
  rw [encodeCbw_ok hcdb]
  refine wp_bind_of_ok rfl (wp_bind_of_ok rfl ?_)
  refine wp_bind (wp_sendCbw (n := n) (tagOf_cbwBytes (Nat.mod_lt _ (by decide))) ?_ rfl)
    (fun _ s₂ h₂ => ?_) fun _ _ => id
  · exact { h₁ with tag := rfl, mid := rfl }
  refine wp_bind (wp_moveData h₂) (fun data s₃ h₃ => ?_) fun _ _ => id
  refine wp_bind (wp_readCsw h₃) (fun chunk s₄ h₄ => ?_) fun _ _ => id
  refine wp_bind (wp_acceptCsw h₄) (fun csw s₅ h₅ => ?_) fun _ _ => id
  obtain ⟨hcsw, rfl⟩ := h₅
  obtain ⟨before, hwire, hlink, hsent, hat⟩ := h₄
  have hbetween : At s₀ (n + 1) .between true s₅ := by
    simpa only [Link.next, hcsw, Option.isSome_some, if_true] using hat
  refine wp_bind_of_ok rfl (wp_pure ⟨hbetween.setMidCommand, ?_, ?_⟩)
  · by_cases hpassed : csw.status = CSW_PASSED
    · exact .inl hpassed
    · exact .inr (accepted_status hcsw hpassed)
  · exact ⟨before, chunk, [], _, csw, hwire, hsent, hlink, hcsw, rfl⟩

/-- Sense data is fetched behind the state that the failed exchange left. -/
theorem wp_fetchSense (h : Settled s₀ n s) :
    wp fetchSense s (fun _ s' => ∃ m, Settled s₀ m s') (Ends s₀) := by
  have hexecute := wp_execute (Scsi.requestSense SENSE_LEN)
    (.dataIn SENSE_LEN.toNat) (by decide) h
  unfold wp fetchSense
  unfold wp at hexecute
  rcases hrun : execute (Scsi.requestSense SENSE_LEN) (.dataIn SENSE_LEN.toNat) s with
    ⟨((_ | _) | _ | _) | ⟨data, csw⟩, s'⟩
  · rw [hrun] at hexecute
    exact hexecute.2
  · rw [hrun] at hexecute
    exact hexecute
  · rw [hrun] at hexecute
    exact hexecute
  · rw [hrun] at hexecute
    exact hexecute
  · rw [hrun] at hexecute
    exact ⟨n + 1, .inl hexecute.1⟩

theorem At.rebase {mid : Bool} {s₁ : Io} (h : At s₁ n link mid s) (hgrown : s₀.wire <+: s₁.wire) :
    At s₀ n link mid s := { h with grown := hgrown.trans h.grown }

theorem Settled.rebase {s₁ : Io} (h : Settled s₁ n s) (hgrown : s₀.wire <+: s₁.wire) :
    Settled s₀ n s := by
  rcases h with h | ⟨link, hlink, h⟩
  · exact .inl (h.rebase hgrown)
  · exact .inr ⟨link, hlink, h.rebase hgrown⟩

theorem Settled.grown (h : Settled s₀ n s) : s₀.wire <+: s.wire := by
  rcases h with h | ⟨_, _, h⟩
  · exact h.grown
  · exact h.grown

/-- How a command stops that is about to send its wrapper as the `n + 1`-st. -/
def CommandEnds (s₀ : Io) (n : Nat) (e : Stop (Ended MsdError)) (s : Io) : Prop :=
  e ≠ .diverge ∧ (∃ m, Settled s₀ m s) ∧
    ∀ sense, e = .err (.failed (.commandFailed sense)) → Taken (n + 1) CSW_FAILED s.wire

theorem Ends.command {e : Stop (Ended MsdError)} (h : Ends s₀ e s) : CommandEnds s₀ n e s := by
  refine ⟨?_, h.2, ?_⟩
  · rintro rfl
    exact h.1
  · rintro sense rfl
    exact h.1.elim

/-- What a command that returns leaves behind. -/
def Returned (s₀ : Io) (n : Nat) (s : Io) : Prop :=
  (∃ m, Settled s₀ m s) ∧ Taken (n + 1) CSW_PASSED s.wire

theorem wp_command {cdb : Bytes} {phase : DataPhase}
    (hcdb : 1 ≤ cdb.length ∧ cdb.length ≤ MAX_CDB_LEN) (h : Settled s₀ n s) :
    wp (command cdb phase) s (fun _ => Returned s₀ n) (CommandEnds s₀ n) := by
  refine wp_bind (wp_execute _ _ hcdb h) (fun result s₁ h₁ => ?_) fun _ _ => Ends.command
  obtain ⟨hat, hstatus, htaken⟩ := h₁
  dsimp only
  split
  · rename_i hpassed
    rw [hpassed] at htaken
    exact wp_pure ⟨⟨n + 1, .inl hat⟩, htaken⟩
  · rename_i hpassed
    rw [hstatus.resolve_left hpassed] at htaken
    -- The failed status stays where it is while the sense data is fetched.
    have hsettled : Settled s₁ (n + 1) s₁ := .inl { hat with grown := List.prefix_refl _ }
    have hfetch := wp_fetchSense hsettled
    refine wp_bind hfetch (fun sense s₂ h₂ => ?_) fun e s₂ h₂ => ?_
    · obtain ⟨m, h₂⟩ := h₂
      exact wp_fail ⟨nofun, ⟨m, h₂.rebase hat.grown⟩, fun _ _ => htaken.mono h₂.grown⟩
    · obtain ⟨m, hsettled⟩ := h₂.2
      exact Ends.command ⟨h₂.1, m, hsettled.rebase hat.grown⟩

/-- What each command makes of the result of its exchange. -/
theorem wp_after_command {α : Type} {cdb : Bytes} {phase : DataPhase}
    {f : Bytes × Nat → Engine MsdError α}
    (hcdb : 1 ≤ cdb.length ∧ cdb.length ≤ MAX_CDB_LEN) (h : Settled s₀ n s)
    (hf : ∀ result s, (∃ a, f result s = (.ok a, s)) ∨
      ∃ expected got, f result s = (.error (.err (.failed (.shortData expected got))), s)) :
    wp (command cdb phase >>= f) s (fun _ => Returned s₀ n) (CommandEnds s₀ n) := by
  refine wp_bind (wp_command hcdb h) (fun result s₁ h₁ => ?_) fun _ _ => id
  rcases hf result s₁ with ⟨a, ha⟩ | ⟨expected, got, hfailed⟩
  · exact wp_of_ok ha h₁
  · exact wp_of_error hfailed ⟨nofun, h₁.1, nofun⟩

theorem wp_inquiry (h : Settled s₀ n s) :
    wp inquiry s (fun _ => Returned s₀ n) (CommandEnds s₀ n) := by
  refine wp_after_command (by decide) h fun result s => ?_
  dsimp only
  cases Inquiry.parse result.1 with
  | some inquiry => exact .inl ⟨_, rfl⟩
  | none => exact .inr ⟨_, _, rfl⟩

theorem wp_testUnitReady (h : Settled s₀ n s) :
    wp testUnitReady s (fun _ => Returned s₀ n) (CommandEnds s₀ n) :=
  wp_after_command (by decide) h fun _ _ => .inl ⟨_, rfl⟩

theorem wp_readCapacity (h : Settled s₀ n s) :
    wp readCapacity s (fun _ => Returned s₀ n) (CommandEnds s₀ n) := by
  refine wp_after_command (by decide) h fun result s => ?_
  dsimp only
  cases Capacity.parse result.1 with
  | some capacity => exact .inl ⟨_, rfl⟩
  | none => exact .inr ⟨_, _, rfl⟩

/-- A panic in front of the exchange leaves everything as it is. -/
theorem Settled.panicked {site : String} (h : Settled s₀ n s) :
    CommandEnds s₀ n (.panic site) s := ⟨nofun, ⟨n, h⟩, nofun⟩

theorem wp_checkedMul {a b : Nat} (h : Settled s₀ n s) :
    wp (ofOutcome (checkedMul 32 a b) : Engine MsdError Nat) s (fun _ s' => s' = s)
      (CommandEnds s₀ n) := by
  unfold checkedMul
  split
  · exact wp_ofOutcome (fun _ _ => rfl) nofun
  · exact wp_of_error rfl h.panicked

theorem wp_read10 {lba : UInt32} {blocks : UInt16} {blockSize : UInt32} (h : Settled s₀ n s) :
    wp (read10 lba blocks blockSize) s (fun _ => Returned s₀ n) (CommandEnds s₀ n) := by
  refine wp_bind (wp_checkedMul h) (fun expected s₁ h₁ => ?_) fun _ _ => id
  subst h₁
  refine wp_after_command (by simp [Scsi.read10, MAX_CDB_LEN]) h fun result s => ?_
  dsimp only
  split
  · exact .inr ⟨_, _, rfl⟩
  · exact .inl ⟨_, rfl⟩

theorem wp_write10 {lba : UInt32} {blocks : UInt16} {blockSize : UInt32} {data : Bytes}
    (h : Settled s₀ n s) :
    wp (write10 lba blocks blockSize data) s (fun _ => Returned s₀ n) (CommandEnds s₀ n) := by
  refine wp_bind (wp_checkedMul h) (fun expected s₁ h₁ => ?_) fun _ _ => id
  subst h₁
  split
  · exact wp_panic h.panicked
  · refine wp_after_command (by simp [Scsi.write10, MAX_CDB_LEN]) h fun result s => ?_
    dsimp only
    split
    · exact .inr ⟨_, _, rfl⟩
    · exact .inl ⟨_, rfl⟩

theorem wp_return {α : Type} {m : Engine MsdError α} {f : α → Reply}
    (h : wp m s (fun _ => Returned s₀ n) (CommandEnds s₀ n)) :
    wp (m >>= fun a => pure (f a)) s (fun _ => Returned s₀ n) (CommandEnds s₀ n) :=
  wp_bind h (fun _ _ h => wp_pure h) fun _ _ => id

theorem wp_run (c : Command) (h : Settled s₀ n s) :
    wp c.run s (fun _ => Returned s₀ n) (CommandEnds s₀ n) := by
  cases c with
  | inquiry => exact wp_return (wp_inquiry h)
  | testUnitReady => exact wp_return (wp_testUnitReady h)
  | readCapacity => exact wp_return (wp_readCapacity h)
  | read10 lba blocks blockSize => exact wp_return (wp_read10 h)
  | write10 lba blocks blockSize data => exact wp_return (wp_write10 h)

end Specs

end Eo9.Msd
