import Mathlib.Data.List.TakeDrop
import Eo9.Text.Decoder
import Eo9.Text.Session

/-!
# The lines of a session

Whatever the operations of a session do in between, the lines that they take are those of the bytes
that came in, the answers to telnet commands go into the output queue in order, and the queue stays
bounded.
-/

namespace Eo9.Text

open Eo9.Library

variable {L C : Type}

/-- A property that every access of the operations keeps. -/
structure Kept (p : NetText C → Prop) : Prop where
  queueOut : ∀ source bytes s, source ≠ .refusal → p s → p (s.queueOut source bytes)
  popLine : ∀ s, p s → p s.popLine.2
  takeChunk : ∀ s, p s → p s.takeChunk.2
  takeConn : ∀ s, p s → p s.takeConn.2
  putConn : ∀ conn s, p s → p (s.putConn conn)
  closeNow : ∀ s, p s → p s.closeNow
  sent : ∀ chunk n s, p s → p (s.sent chunk n)
  bringUp : ∀ conn s, p s → p (s.bringUp conn)
  feed : ∀ byte s, p s → p (s.feed byte)
  endInput : ∀ s, p s → p s.endInput.2
  accepted : ∀ bytes s, p s → p { s with history := { s.history with
    accepted := s.history.accepted ++ bytes } }

namespace Kept

variable {p : NetText C → Prop} {s : NetText C}

theorem closeTail (h : Kept p) (line : Option Bytes) (hs : p s) :
    p (closeTail line s : Stretch L C).2 := by
  have hclosed := h.closeNow s hs
  unfold Text.closeTail
  dsimp only
  split <;> exact hclosed

theorem flush (h : Kept p) (after : After) {go : Except TextError Unit → NetText C → Stretch L C}
    (hgo : ∀ r s, p s → p (go r s).2) (hs : p s) : p (flush after go s).2 := by
  have hchunk := h.takeChunk s hs
  unfold Text.flush
  dsimp only
  split
  · exact hgo _ _ hchunk
  · have hconn := h.takeConn _ hchunk
    split
    · next heq =>
      rw [heq] at hconn
      exact hgo _ _ hconn
    · next heq =>
      rw [heq] at hconn
      exact hconn

theorem closeSession (h : Kept p) (goodbye line : Option Bytes) (hs : p s) :
    p (closeSession goodbye line s : Stretch L C).2 := by
  unfold Text.closeSession closing
  cases goodbye with
  | some text =>
    exact h.flush _ (fun _ s hs => h.closeTail line hs) (h.queueOut _ _ _ nofun hs)
  | none => exact h.flush _ (fun _ s hs => h.closeTail line hs) hs

theorem flushed (h : Kept p) (r : Except TextError Unit) (hs : p s) :
    p (flushed r s : Stretch L C).2 := by
  have hpop := h.popLine s hs
  unfold Text.flushed
  split
  · exact hs
  · exact hs
  · split
    · next heq =>
      rw [heq] at hpop
      split
      · exact h.closeSession _ _ hpop
      · exact hpop
    · next heq =>
      rw [heq] at hpop
      have hconn := h.takeConn _ hpop
      split
      · next heq =>
        rw [heq] at hconn
        exact hconn
      · next heq =>
        rw [heq] at hconn
        exact hconn

theorem reading (h : Kept p) (hs : p s) : p (reading s : Stretch L C).2 :=
  h.flush _ (fun r _ hs => h.flushed r hs) hs

theorem go (h : Kept p) (after : After) (r : Except TextError Unit) (hs : p s) :
    p (after.go r s : Stretch L C).2 := by
  cases after with
  | reading => exact h.flushed r hs
  | closing line => exact h.closeTail line hs

theorem feeds (h : Kept p) (bytes : Bytes) (hs : p s) :
    p (bytes.foldl (fun s byte => s.feed byte) s) := by
  induction bytes generalizing s with
  | nil => exact hs
  | cons byte bytes ih => exact ih (h.feed byte s hs)

theorem start (h : Kept p) (op : Op) (hs : p s) : p (start op s : Stretch L C).2 := by
  unfold Text.start
  cases op with
  | write text =>
    dsimp only
    split
    · exact hs
    · exact h.queueOut _ _ _ nofun hs
  | readLine =>
    dsimp only
    split
    · exact hs
    · exact hs
    · exact h.reading hs

theorem resume (h : Kept p) (stage : Stage L C) (a : stage.Answer) (hs : p s) :
    p (resume stage a s).2 := by
  cases stage with
  | listen => cases a <;> exact hs
  | accept listener =>
    cases a with
    | ok conn => exact h.reading (h.bringUp conn s hs)
    | error err =>
      unfold Text.resume
      dsimp only
      split <;> exact hs
  | send after chunk conn =>
    have hput := h.putConn conn s hs
    unfold Text.resume resumeSend
    cases a with
    | ok n => exact h.flush _ (fun r _ hs => h.go after r hs) (h.sent chunk.val n _ hput)
    | error err =>
      dsimp only
      split
      · exact h.go after _ (h.closeNow _ hput)
      · exact h.go after _ hput
  | recv conn =>
    have hput := h.putConn conn s hs
    obtain ⟨buffer, a⟩ := a
    unfold Text.resume resumeRecv
    cases a with
    | ok received =>
      dsimp only
      split
      · exact h.closeSession _ _ (h.endInput _ hput)
      · exact h.reading (h.feeds _ hput)
    | error err =>
      dsimp only
      split_ifs
      · exact h.reading hput
      · exact h.closeNow _ hput
      · exact hput
  | closeListen line => cases a <;> exact hs
  | closeAccept line listener => exact hs

theorem drops (h : Kept p) {stage : Stage L C} {s' : NetText C} (hdrop : Drops stage s s')
    (hs : p s) : p s' := by
  cases stage with
  | send after chunk conn =>
    obtain ⟨n, rfl⟩ := hdrop
    exact h.accepted _ s hs
  | listen =>
    obtain rfl := hdrop
    exact hs
  | accept listener =>
    obtain rfl := hdrop
    exact hs
  | recv conn =>
    obtain rfl := hdrop
    exact hs
  | closeListen line =>
    obtain rfl := hdrop
    exact hs
  | closeAccept line listener =>
    obtain rfl := hdrop
    exact hs

end Kept

/-- The worlds of a session that has begun fresh. -/
def Reached (w : Staged.World (NetText C) (Stage L C)) : Prop :=
  Reachable (fun w => w = ⟨.new, []⟩) (Staged.Step (netText L C)) w

/-- What every access keeps holds in every state of a session. -/
theorem Kept.reached {p : NetText C → Prop} (h : Kept p) (hnew : p .new)
    {w : Staged.World (NetText C) (Stage L C)} (hw : Reached w) : p w.shared := by
  obtain ⟨w₀, trace, rfl, run⟩ := hw
  have hstart : ∀ op s, p s → p ((netText L C).start op s).2 := fun op s hs => h.start op hs
  have hresume : ∀ stage a s, p s → p ((netText L C).resume stage a s).2 :=
    fun stage a s hs => h.resume stage a hs
  have hdrop : ∀ stage s s', p s → (netText L C).Drops stage s s' → p s' :=
    fun stage s s' hs hdropped => h.drops hdropped hs
  exact Staged.run_shared hstart hresume hdrop run hnew

/-- The telnet commands that were queued as answers, as far as there was room. -/
def Item.refusal : Item → Option Bytes
  | .queued .refusal bytes room => some (bytes.take room)
  | .queued .text _ _ | .queued .goodbye _ _ | .marker => none

/-- There was room for the item. -/
def Item.Fits : Item → Prop
  | .queued _ bytes room => bytes.length ≤ room
  | .marker => True

def Item.offered : Item → Option Bytes
  | .queued .refusal bytes _ => some bytes
  | .queued .text _ _ | .queued .goodbye _ _ | .marker => none

/-- The assembler is where the bytes that came in take it. -/
structure Received (s : NetText C) : Prop where
  nvt : s.nvt = (decode s.history.fed).mode
  offered : s.history.items.filterMap Item.offered = (decode s.history.fed).answers
  agrees : Clean s.history.fed → Agrees s (decode s.history.fed)

section Received

variable {s s' : NetText C} {d : Decoder}

/-- What the assembler does not see. -/
theorem Received.unseen (h : Received s) (hnvt : s'.nvt = s.nvt)
    (hfed : s'.history.fed = s.history.fed)
    (hoffered : s'.history.items.filterMap Item.offered = s.history.items.filterMap Item.offered)
    (hagrees : ∀ d, Agrees s d → Agrees s' d) : Received s' where
  nvt := by rw [hnvt, hfed, h.nvt]
  offered := by rw [hoffered, hfed, h.offered]
  agrees hclean := by
    rw [hfed] at hclean ⊢
    exact hagrees _ (h.agrees hclean)

theorem queueOut_items (source : Source) (bytes : Bytes) (s : NetText C) :
    (s.queueOut source bytes).history.items =
      s.history.items ++ [.queued source bytes (OUT_CAP - s.out.length)] := by
  unfold NetText.queueOut
  dsimp only
  split <;> rfl

theorem queueOut_nvt (source : Source) (bytes : Bytes) (s : NetText C) :
    (s.queueOut source bytes).nvt = s.nvt ∧
      (s.queueOut source bytes).history.fed = s.history.fed := by
  unfold NetText.queueOut
  dsimp only
  split <;> exact ⟨rfl, rfl⟩

theorem step_fed (byte : UInt8) (s : NetText C) :
    (s.step byte).history.fed = s.history.fed := by
  unfold NetText.step
  cases s.nvt with
  | verb verb =>
    dsimp only
    split_ifs
    · exact (queueOut_nvt _ _ s).2
    · exact (queueOut_nvt _ _ s).2
    · rfl
  | data =>
    dsimp only
    split_ifs <;> rfl
  | iac =>
    dsimp only
    split_ifs <;> rfl
  | sub =>
    dsimp only
    split_ifs <;> rfl
  | subIac => rfl

theorem data_mode (byte : UInt8) (d : Decoder) :
    (d.data byte).mode = d.mode ∧ (d.data byte).answers = d.answers := by
  unfold Decoder.data Decoder.push
  dsimp only
  split_ifs <;> exact ⟨rfl, rfl⟩

/-- The negotiator goes where the reference goes. -/
theorem step_nvt (h : s.nvt = d.mode) (byte : UInt8) :
    (s.step byte).nvt = (d.event (some byte)).mode := by
  unfold Decoder.event
  dsimp only
  cases hmode : d.mode with
  | data =>
    have hdata := (data_mode byte d).1
    rw [NetText.step_data (h.trans hmode)]
    dsimp only
    split_ifs
    all_goals first | rfl | exact h.trans hdata.symm | exact (h.trans hdata.symm)
  | iac =>
    unfold NetText.step
    rw [h, hmode]
    dsimp only
    split_ifs <;> rfl
  | verb verb =>
    unfold NetText.step
    rw [h, hmode]
  | sub =>
    unfold NetText.step
    rw [h, hmode]
    dsimp only
    split_ifs
    · rfl
    · exact h
  | subIac =>
    unfold NetText.step
    rw [h, hmode]

/-- The negotiator queues the answers of the reference. -/
theorem step_offered (h : s.nvt = d.mode) (byte : UInt8)
    (hoffered : s.history.items.filterMap Item.offered = d.answers) :
    (s.step byte).history.items.filterMap Item.offered = (d.event (some byte)).answers := by
  unfold Decoder.event
  dsimp only
  cases hmode : d.mode with
  | data =>
    rw [NetText.step_data (h.trans hmode)]
    dsimp only
    split_ifs
    all_goals first | exact hoffered | exact hoffered.trans (data_mode byte d).2.symm
  | iac =>
    unfold NetText.step
    rw [h, hmode]
    dsimp only
    split_ifs
    all_goals first | exact hoffered | exact hoffered.trans (data_mode IAC d).2.symm
  | verb verb =>
    unfold NetText.step refusal
    rw [h, hmode]
    dsimp only
    split_ifs
    · rw [queueOut_items, List.filterMap_append, hoffered]
      rfl
    · rw [queueOut_items, List.filterMap_append, hoffered]
      rfl
    · rw [List.append_nil, hoffered]
  | sub =>
    unfold NetText.step
    rw [h, hmode]
    dsimp only
    split_ifs <;> exact hoffered
  | subIac =>
    unfold NetText.step
    rw [h, hmode]
    exact hoffered

theorem Received.feed (h : Received s) (byte : UInt8) : Received (s.feed byte) := by
  have hfed : (s.feed byte).history.fed = s.history.fed ++ [some byte] := step_fed byte _
  have hnvt : (s.record (some byte)).nvt = (decode s.history.fed).mode := h.nvt
  refine ⟨?_, ?_, fun hclean => ?_⟩
  · rw [hfed, decode_snoc]
    exact step_nvt hnvt byte
  · rw [hfed, decode_snoc]
    exact step_offered hnvt byte h.offered
  · rw [hfed] at hclean ⊢
    rw [decode_snoc]
    exact (h.agrees hclean.before).event (hclean _ _ (List.prefix_refl _))

theorem popLine_same (s : NetText C) : s.popLine.2.nvt = s.nvt ∧
    s.popLine.2.history.fed = s.history.fed ∧ s.popLine.2.history.items = s.history.items := by
  unfold NetText.popLine
  split <;> exact ⟨rfl, rfl, rfl⟩

theorem Received.popLine (h : Received s) : Received s.popLine.2 := by
  obtain ⟨hnvt, hfed, hitems⟩ := popLine_same s
  exact h.unseen hnvt hfed (by rw [hitems]) fun _ => Agrees.popLine

theorem Received.endInput (h : Received s) : Received s.endInput.2 := by
  have hsame : s.endInput.2.nvt = s.nvt ∧
      s.endInput.2.history.fed = s.history.fed ++ [none] ∧
      s.endInput.2.history.items = s.history.items := by
    unfold NetText.endInput
    dsimp only
    split
    · exact ⟨rfl, rfl, rfl⟩
    · exact popLine_same (s.record none).endLine
  obtain ⟨hnvt, hfed, hitems⟩ := hsame
  have hend : ∀ d : Decoder, (d.event none).mode = d.mode ∧ (d.event none).answers = d.answers := by
    intro d
    unfold Decoder.event
    dsimp only
    split <;> exact ⟨rfl, rfl⟩
  refine ⟨?_, ?_, fun hclean => ?_⟩
  · rw [hnvt, hfed, decode_snoc, (hend _).1, h.nvt]
  · rw [hitems, hfed, decode_snoc, (hend _).2, h.offered]
  · rw [hfed] at hclean ⊢
    rw [decode_snoc]
    exact (h.agrees hclean.before).event (hclean _ _ (List.prefix_refl _))

theorem Received.takeChunk (h : Received s) : Received s.takeChunk.2 := by
  unfold NetText.takeChunk
  dsimp only
  split
  · exact h
  split
  · refine h.unseen rfl rfl ?_ fun _ ha => ⟨ha.nvt, ha.partialLine, ha.swallow, ha.lines⟩
    exact (List.filterMap_append ..).trans (List.append_nil _)
  · exact h.unseen rfl rfl rfl fun _ ha => ⟨ha.nvt, ha.partialLine, ha.swallow, ha.lines⟩

theorem received_kept : Kept (Received (C := C)) where
  queueOut source bytes s hsource h := by
    obtain ⟨hnvt, hfed⟩ := queueOut_nvt source bytes s
    refine h.unseen hnvt hfed ?_ fun _ ha => ha.queueOut source bytes
    rw [queueOut_items, List.filterMap_append]
    cases source with
    | refusal => exact absurd rfl hsource
    | text => exact List.append_nil _
    | goodbye => exact List.append_nil _
  popLine _ h := h.popLine
  takeChunk _ h := h.takeChunk
  takeConn _ h := h.unseen rfl rfl rfl fun _ ha => ⟨ha.nvt, ha.partialLine, ha.swallow, ha.lines⟩
  putConn _ _ h := h.unseen rfl rfl rfl fun _ ha => ⟨ha.nvt, ha.partialLine, ha.swallow, ha.lines⟩
  closeNow _ h := h.unseen rfl rfl rfl fun _ ha => ⟨ha.nvt, ha.partialLine, ha.swallow, ha.lines⟩
  sent chunk n s h := by
    unfold NetText.sent
    dsimp only
    split <;>
      exact h.unseen rfl rfl rfl fun _ ha => ⟨ha.nvt, ha.partialLine, ha.swallow, ha.lines⟩
  bringUp _ _ h := h.unseen rfl rfl rfl fun _ ha => ⟨ha.nvt, ha.partialLine, ha.swallow, ha.lines⟩
  feed byte _ h := h.feed byte
  endInput _ h := h.endInput
  accepted _ _ h := h.unseen rfl rfl rfl fun _ ha => ⟨ha.nvt, ha.partialLine, ha.swallow, ha.lines⟩

end Received

/-- The stages that keep a connection, and those of them that keep a chunk. -/
def Stage.holds : Stage L C → Nat
  | .send _ _ _ | .recv _ => 1
  | .listen | .accept _ | .closeListen _ | .closeAccept _ _ => 0

def Stage.flies : Stage L C → Nat
  | .send _ _ _ => 1
  | .listen | .accept _ | .recv _ | .closeListen _ | .closeAccept _ _ => 0

/-- The queue is bounded while so many chunks and connections are away from the state. Every
connection allows for one more chunk than the cap. -/
structure Bounded (chunks conns : Nat) (s : NetText C) : Prop where
  chunks_le : chunks ≤ conns
  conns_le : conns + s.conn.toList.length ≤ s.history.connections
  out_le : s.out.length + SEND_CHUNK * chunks ≤ OUT_CAP + SEND_CHUNK * s.history.connections

/-- The queue is bounded at the end of a stretch. -/
def Ends (chunks conns : Nat) (t : Stretch L C) : Prop :=
  Bounded (chunks + ((Staged.kept t.1).map Stage.flies).sum)
    (conns + ((Staged.kept t.1).map Stage.holds).sum) t.2

section Bounded

variable {chunks conns : Nat} {s s' : NetText C}

theorem Bounded.grow (h : Bounded chunks conns s) (hconn : s'.conn = s.conn)
    (hconns : s'.history.connections = s.history.connections)
    (hout : s'.out.length ≤ max s.out.length OUT_CAP) : Bounded chunks conns s' where
  chunks_le := h.chunks_le
  conns_le := by
    rw [hconn, hconns]
    exact h.conns_le
  out_le := by
    have hle : SEND_CHUNK * chunks ≤ SEND_CHUNK * s.history.connections :=
      Nat.mul_le_mul_left _ (h.chunks_le.trans ((Nat.le_add_right _ _).trans h.conns_le))
    have hold := h.out_le
    rw [hconns]
    omega

theorem queueOut_conn (source : Source) (bytes : Bytes) (s : NetText C) :
    (s.queueOut source bytes).conn = s.conn ∧
      (s.queueOut source bytes).history.connections = s.history.connections ∧
      (s.queueOut source bytes).out.length ≤ max s.out.length OUT_CAP := by
  unfold NetText.queueOut
  dsimp only
  split
  · refine ⟨rfl, rfl, ?_⟩
    rw [List.length_append]
    omega
  · refine ⟨rfl, rfl, ?_⟩
    rw [List.length_append, List.length_take]
    omega

theorem Bounded.queueOut (h : Bounded chunks conns s) (source : Source) (bytes : Bytes) :
    Bounded chunks conns (s.queueOut source bytes) := by
  obtain ⟨hconn, hconns, hout⟩ := queueOut_conn source bytes s
  exact h.grow hconn hconns hout

theorem Bounded.same (h : Bounded chunks conns s) (hconn : s'.conn = s.conn)
    (hconns : s'.history.connections = s.history.connections) (hout : s'.out = s.out) :
    Bounded chunks conns s' :=
  h.grow hconn hconns (by
    rw [hout]
    exact le_max_left _ _)

theorem Bounded.step (h : Bounded chunks conns s) (byte : UInt8) :
    Bounded chunks conns (s.step byte) := by
  unfold NetText.step
  cases s.nvt with
  | verb verb =>
    dsimp only
    split_ifs
    · exact (h.queueOut _ _).same rfl rfl rfl
    · exact (h.queueOut _ _).same rfl rfl rfl
    · exact h.same rfl rfl rfl
  | data =>
    dsimp only
    split_ifs <;> exact h.same rfl rfl rfl
  | iac =>
    dsimp only
    split_ifs <;> exact h.same rfl rfl rfl
  | sub =>
    dsimp only
    split_ifs <;> exact h.same rfl rfl rfl
  | subIac => exact h.same rfl rfl rfl

theorem Bounded.feeds (h : Bounded chunks conns s) (bytes : Bytes) :
    Bounded chunks conns (bytes.foldl (fun s byte => s.feed byte) s) := by
  induction bytes generalizing s with
  | nil => exact h
  | cons byte bytes ih =>
    have hrecord : Bounded chunks conns (s.record (some byte)) := h.same rfl rfl rfl
    exact ih (hrecord.step byte)

theorem Bounded.popLine (h : Bounded chunks conns s) : Bounded chunks conns s.popLine.2 := by
  unfold NetText.popLine
  split <;> exact h.same rfl rfl rfl

theorem Bounded.endInput (h : Bounded chunks conns s) : Bounded chunks conns s.endInput.2 := by
  unfold NetText.endInput
  dsimp only
  split
  · exact h.same rfl rfl rfl
  · have hline : Bounded chunks conns (s.record none).endLine := h.same rfl rfl rfl
    exact hline.popLine

/-- The connection goes away. -/
theorem Bounded.close (h : Bounded chunks conns s) : Bounded chunks conns s.closeNow where
  chunks_le := h.chunks_le
  conns_le := (Nat.le_add_right _ _).trans h.conns_le
  out_le := h.out_le

theorem Bounded.closeTail (h : Bounded chunks conns s) (line : Option Bytes) :
    Ends chunks conns (closeTail line s : Stretch L C) := by
  unfold Text.closeTail
  dsimp only
  split <;> exact h.close

/-- A round of a flush takes a chunk at most. -/
theorem Bounded.flush (h : Bounded chunks conns s) (after : After)
    {go : Except TextError Unit → NetText C → Stretch L C}
    (hgo : ∀ r s, Bounded chunks conns s → Ends chunks conns (go r s)) :
    Ends chunks conns (flush after go s) := by
  have hchunk : s.takeChunk.2.conn = s.conn ∧
      s.takeChunk.2.history.connections = s.history.connections ∧
      s.takeChunk.2.out.length ≤ max (s.out.length - SEND_CHUNK) 0 := by
    unfold NetText.takeChunk
    dsimp only
    split_ifs with hnone hempty
    · refine ⟨rfl, rfl, ?_⟩
      rw [hnone.1]
      exact Nat.zero_le _
    · refine ⟨rfl, rfl, ?_⟩
      have hmarker : min DROPPED_MARKER.length SEND_CHUNK = DROPPED_MARKER.length := by decide
      dsimp only
      rw [hmarker, List.length_drop, Nat.sub_self]
      exact Nat.zero_le _
    · refine ⟨rfl, rfl, ?_⟩
      rw [List.length_drop]
      omega
  obtain ⟨hconn, hconns, hout⟩ := hchunk
  have hbounded : Bounded chunks conns s.takeChunk.2 := h.grow hconn hconns (by omega)
  unfold Text.flush
  dsimp only
  split
  · exact hgo _ _ hbounded
  · unfold NetText.takeConn
    cases hcase : s.takeChunk.2.conn with
    | none =>
      exact hgo _ _ (hbounded.same hcase.symm rfl rfl)
    | some conn =>
      have hle := hbounded.conns_le
      rw [hcase] at hle
      refine ⟨Nat.succ_le_succ h.chunks_le, hle, ?_⟩
      have hmul : SEND_CHUNK * (chunks + 1) ≤ SEND_CHUNK * s.history.connections := by
        rw [← hconns]
        exact Nat.mul_le_mul_left _ ((Nat.succ_le_succ h.chunks_le).trans hle)
      have hold := h.out_le
      rw [Nat.mul_add] at hmul
      change s.takeChunk.2.out.length + SEND_CHUNK * (chunks + 1) ≤
        OUT_CAP + SEND_CHUNK * s.takeChunk.2.history.connections
      rw [hconns, Nat.mul_add]
      omega

theorem Bounded.closing (h : Bounded chunks conns s) (line : Option Bytes) :
    Ends chunks conns (closing line s : Stretch L C) :=
  h.flush _ fun _ _ h => h.closeTail line

theorem Bounded.flushed (h : Bounded chunks conns s) (r : Except TextError Unit) :
    Ends chunks conns (flushed r s : Stretch L C) := by
  have hpop := h.popLine
  unfold Text.flushed
  split
  · exact h
  · exact h
  · split
    · next heq =>
      rw [heq] at hpop
      split
      · exact (hpop.queueOut _ _).closing _
      · exact hpop
    · next s heq =>
      rw [heq] at hpop
      unfold NetText.takeConn
      cases hcase : s.conn with
      | none => exact hpop.same hcase.symm rfl rfl
      | some conn =>
        have hle := hpop.conns_le
        rw [hcase] at hle
        exact ⟨hpop.chunks_le.trans (Nat.le_succ _), hle, hpop.out_le⟩

theorem Bounded.reading (h : Bounded chunks conns s) :
    Ends chunks conns (reading s : Stretch L C) :=
  h.flush _ fun r _ h => h.flushed r

theorem Bounded.go (h : Bounded chunks conns s) (after : After) (r : Except TextError Unit) :
    Ends chunks conns (after.go r s : Stretch L C) := by
  cases after with
  | reading => exact h.flushed r
  | closing line => exact h.closeTail line

theorem Bounded.start (h : Bounded chunks conns s) (op : Op) :
    Ends chunks conns (start op s : Stretch L C) := by
  unfold Text.start
  cases op with
  | write text =>
    dsimp only
    split
    · exact h
    · exact h.queueOut _ _
  | readLine =>
    dsimp only
    split
    · exact h
    · exact h
    · exact h.reading

/-- A connection comes back. -/
theorem Bounded.putConn (h : Bounded chunks (conns + 1) s) (hle : chunks ≤ conns) (conn : C) :
    Bounded chunks conns (s.putConn conn) where
  chunks_le := hle
  conns_le := (Nat.le_add_right _ _).trans h.conns_le
  out_le := h.out_le

/-- The tail of a chunk comes back. -/
theorem Bounded.sent (h : Bounded (chunks + 1) (conns + 1) s) (chunk : Chunk) (n : Nat)
    (conn : C) : Bounded chunks conns ((s.putConn conn).sent chunk.val n) := by
  have hchunk := chunk.property
  have hle := h.out_le
  rw [Nat.mul_add] at hle
  have hconns : conns + 1 ≤ s.history.connections := (Nat.le_add_right _ _).trans h.conns_le
  refine ⟨Nat.le_of_succ_le_succ h.chunks_le, ?_, ?_⟩
  · unfold NetText.sent
    dsimp only
    split <;> exact hconns
  · unfold NetText.sent
    dsimp only
    split
    · change (chunk.val.drop _ ++ s.out).length + _ ≤ OUT_CAP + SEND_CHUNK * s.history.connections
      rw [List.length_append, List.length_drop]
      omega
    · change s.out.length + _ ≤ OUT_CAP + SEND_CHUNK * s.history.connections
      omega

theorem Bounded.resume {stage : Stage L C}
    (h : Bounded (chunks + stage.flies) (conns + stage.holds) s) (hle : chunks ≤ conns)
    (a : stage.Answer) : Ends chunks conns (resume stage a s) := by
  cases stage with
  | listen => cases a <;> exact h
  | accept listener =>
    cases a with
    | ok conn =>
      have hup : Bounded chunks conns (s.bringUp conn) := by
        have hconns := h.conns_le
        have hout := h.out_le
        have hgreeting : GREETING.length ≤ SEND_CHUNK := by decide
        refine ⟨hle, ?_, ?_⟩
        · exact Nat.succ_le_succ ((Nat.le_add_right _ _).trans hconns)
        · change (GREETING ++ s.out).length + _ ≤
            OUT_CAP + SEND_CHUNK * (s.history.connections + 1)
          change _ + SEND_CHUNK * chunks ≤ _ at hout
          rw [List.length_append, Nat.mul_add]
          omega
      exact hup.reading
    | error err =>
      unfold Text.resume
      dsimp only
      split <;> exact h
  | send after chunk conn =>
    unfold Text.resume resumeSend
    cases a with
    | ok n => exact (h.sent chunk n conn).flush _ fun r _ h => h.go after r
    | error err =>
      have hput : Bounded chunks conns (s.putConn conn) := by
        have hout := h.out_le
        refine ⟨hle, (Nat.le_add_right _ _).trans h.conns_le, ?_⟩
        exact (Nat.add_le_add_left (Nat.mul_le_mul_left _ (Nat.le_succ _)) _).trans hout
      dsimp only
      split
      · exact hput.close.go after _
      · exact hput.go after _
  | recv conn =>
    have hput : Bounded chunks conns (s.putConn conn) := h.putConn hle conn
    obtain ⟨buffer, a⟩ := a
    unfold Text.resume resumeRecv
    cases a with
    | ok received =>
      dsimp only
      split
      · exact hput.endInput.closing _
      · exact (hput.feeds _).reading
    | error err =>
      dsimp only
      split_ifs
      · exact hput.reading
      · exact hput.close
      · exact hput
  | closeListen line => cases a <;> exact h
  | closeAccept line listener => exact h

theorem Bounded.drops {stage : Stage L C}
    (h : Bounded (chunks + stage.flies) (conns + stage.holds) s) (hle : chunks ≤ conns)
    (hdrop : Drops stage s s') : Bounded chunks conns s' := by
  have hold : Bounded chunks conns s := by
    refine ⟨hle, ?_, ?_⟩
    · have hconns := h.conns_le
      omega
    · have hout := h.out_le
      rw [Nat.mul_add] at hout
      omega
  cases stage with
  | send after chunk conn =>
    obtain ⟨n, rfl⟩ := hdrop
    exact hold.same rfl rfl rfl
  | listen =>
    obtain rfl := hdrop
    exact hold
  | accept listener =>
    obtain rfl := hdrop
    exact hold
  | recv conn =>
    obtain rfl := hdrop
    exact hold
  | closeListen line =>
    obtain rfl := hdrop
    exact hold
  | closeAccept line listener =>
    obtain rfl := hdrop
    exact hold

end Bounded

/-- The stages of a world allow for its queue. -/
def QueueBounded (w : Staged.World (NetText C) (Stage L C)) : Prop :=
  Bounded (w.waiting.map Stage.flies).sum (w.waiting.map Stage.holds).sum w.shared

theorem flies_le_holds (stages : List (Stage L C)) :
    (stages.map Stage.flies).sum ≤ (stages.map Stage.holds).sum := by
  induction stages with
  | nil => exact le_rfl
  | cons stage stages ih =>
    have hone : stage.flies ≤ stage.holds := by
      cases stage <;> first | exact le_rfl | exact Nat.zero_le _
    rw [List.map_cons, List.map_cons, List.sum_cons, List.sum_cons]
    exact Nat.add_le_add hone ih

theorem sum_between (f : Stage L C → Nat) (before between after : List (Stage L C)) :
    ((before ++ (between ++ after)).map f).sum =
      ((before ++ after).map f).sum + (between.map f).sum := by
  simp only [List.map_append, List.sum_append]
  omega

theorem queueBounded_step {w w' : Staged.World (NetText C) (Stage L C)} {l : (netText L C).Label}
    (h : QueueBounded w) (hstep : Staged.Step (netText L C) w l w') : QueueBounded w' := by
  unfold QueueBounded at *
  cases hstep with
  | start op hs =>
    have hend := h.start (L := L) op
    rw [show start op _ = _ from hs] at hend
    rw [List.map_append, List.map_append, List.sum_append, List.sum_append]
    exact hend
  | answer a hs =>
    rename_i s s' before after stage r
    have hone := sum_between Stage.flies before [stage] after
    have hheld := sum_between Stage.holds before [stage] after
    rw [List.map_singleton, List.sum_singleton] at hone hheld
    have hold : Bounded (((before ++ after).map Stage.flies).sum + stage.flies)
        (((before ++ after).map Stage.holds).sum + stage.holds) s := by
      rw [← hone, ← hheld]
      exact h
    have hend := hold.resume (flies_le_holds _) a
    rw [show resume stage a s = _ from hs] at hend
    rw [sum_between, sum_between]
    exact hend
  | drop hd =>
    rename_i s s' before after stage
    have hone := sum_between Stage.flies before [stage] after
    have hheld := sum_between Stage.holds before [stage] after
    rw [List.map_singleton, List.sum_singleton] at hone hheld
    have hold : Bounded (((before ++ after).map Stage.flies).sum + stage.flies)
        (((before ++ after).map Stage.holds).sum + stage.holds) s := by
      rw [← hone, ← hheld]
      exact h
    exact hold.drops (flies_le_holds _) hd

theorem queueBounded_reached {w : Staged.World (NetText C) (Stage L C)} (hw : Reached w) :
    QueueBounded w := by
  obtain ⟨w₀, trace, rfl, run⟩ := hw
  have hnew : QueueBounded (⟨.new, []⟩ : Staged.World (NetText C) (Stage L C)) :=
    ⟨le_rfl, le_rfl, Nat.zero_le _⟩
  exact run.invariant (fun _ _ _ h hstep => queueBounded_step h hstep) hnew

/-- Every answer met room for a whole command. -/
def History.Roomy (history : History) : Prop :=
  ∀ bytes room, Item.queued .refusal bytes room ∈ history.items → 3 ≤ room

theorem length_of_mem_answers (stream : List (Option UInt8)) :
    ∀ command ∈ (decode stream).answers, command.length = 3 := by
  have hrefusal : ∀ verb option, ∀ command ∈ refusal verb option, command.length = 3 := by
    intro verb option command h
    unfold refusal at h
    split_ifs at h
    · exact congrArg List.length (List.mem_singleton.mp h)
    · exact congrArg List.length (List.mem_singleton.mp h)
    · exact absurd h List.not_mem_nil
  induction stream using List.reverseRecOn with
  | nil => exact nofun
  | append_singleton stream e ih =>
    rw [decode_snoc]
    intro command hmem
    unfold Decoder.event at hmem
    cases e with
    | none =>
      dsimp only at hmem
      split at hmem <;> exact ih command hmem
    | some byte =>
      dsimp only at hmem
      cases hmode : (decode stream).mode with
      | data =>
        rw [hmode] at hmem
        dsimp only at hmem
        split_ifs at hmem
        · exact ih command hmem
        · rw [(data_mode byte _).2] at hmem
          exact ih command hmem
      | iac =>
        rw [hmode] at hmem
        dsimp only at hmem
        split_ifs at hmem
        · rw [(data_mode IAC _).2] at hmem
          exact ih command hmem
        · exact ih command hmem
        · exact ih command hmem
        · exact ih command hmem
      | verb verb =>
        rw [hmode] at hmem
        obtain hold | hnew := List.mem_append.mp hmem
        · exact ih command hold
        · exact hrefusal verb byte command hnew
      | sub =>
        rw [hmode] at hmem
        dsimp only at hmem
        split_ifs at hmem <;> exact ih command hmem
      | subIac =>
        rw [hmode] at hmem
        exact ih command hmem

/-- The answers are queued as whole commands when every one of them met room. -/
theorem refusals_eq_iff (items : List Item)
    (hlength : ∀ command ∈ items.filterMap Item.offered, command.length = 3) :
    items.filterMap Item.refusal = items.filterMap Item.offered ↔
      ∀ bytes room, Item.queued .refusal bytes room ∈ items → 3 ≤ room := by
  induction items with
  | nil => exact ⟨fun _ => nofun, fun _ => rfl⟩
  | cons item items ih =>
    have hothers : (∀ bytes room, item ≠ .queued .refusal bytes room) →
        ((∀ bytes room, Item.queued .refusal bytes room ∈ item :: items → 3 ≤ room) ↔
          ∀ bytes room, Item.queued .refusal bytes room ∈ items → 3 ≤ room) := by
      intro hne
      refine ⟨fun h bytes room hmem => h bytes room (List.mem_cons_of_mem _ hmem),
        fun h bytes room hmem => ?_⟩
      obtain heq | hmem := List.mem_cons.mp hmem
      · exact absurd heq.symm (hne bytes room)
      · exact h bytes room hmem
    cases item with
    | marker => exact (ih hlength).trans (hothers nofun).symm
    | queued source bytes room =>
      cases source with
      | text => exact (ih hlength).trans (hothers nofun).symm
      | goodbye => exact (ih hlength).trans (hothers nofun).symm
      | refusal =>
        have hthree : bytes.length = 3 := hlength bytes List.mem_cons_self
        have hrest := ih fun command hmem => hlength command (List.mem_cons_of_mem _ hmem)
        have htake : bytes.take room = bytes ↔ 3 ≤ room := by
          rw [List.take_eq_self_iff, hthree]
        have hcons : (Item.queued .refusal bytes room :: items).filterMap Item.refusal =
            (Item.queued .refusal bytes room :: items).filterMap Item.offered ↔
            3 ≤ room ∧ items.filterMap Item.refusal = items.filterMap Item.offered := by
          rw [← htake]
          exact List.cons_eq_cons
        rw [hcons, hrest]
        constructor
        · rintro ⟨hroom, h⟩ bytes' room' hmem
          obtain heq | hmem := List.mem_cons.mp hmem
          · cases heq
            exact hroom
          · exact h bytes' room' hmem
        · intro h
          exact ⟨h bytes room List.mem_cons_self, fun bytes' room' hmem =>
            h bytes' room' (List.mem_cons_of_mem _ hmem)⟩

/-- Escaped bytes alone make the line under way as long as the peer likes. -/
theorem replay_escaped (n : Nat) :
    (replay (List.replicate (2 * n) (some IAC))).partialLine = List.replicate n IAC ∧
      (replay (List.replicate (2 * n) (some IAC))).nvt = .data := by
  induction n with
  | zero => exact ⟨rfl, rfl⟩
  | succ n ih =>
    obtain ⟨hline, hnvt⟩ := ih
    have hdouble : List.replicate (2 * (n + 1)) (some IAC) =
        List.replicate (2 * n) (some IAC) ++ [some IAC] ++ [some IAC] := by
      rw [Nat.mul_add, List.replicate_add, List.append_assoc]
      rfl
    rw [hdouble, replay_snoc, replay_snoc]
    generalize replay (List.replicate (2 * n) (some IAC)) = s at hline hnvt
    have hcommand : s.event (some IAC) = { s.record (some IAC) with nvt := .iac } := by
      have hfed : (s.record (some IAC)).nvt = .data := hnvt
      unfold NetText.event NetText.feed
      dsimp only
      rw [NetText.step_data hfed, if_pos rfl]
    have hiac : ((s.event (some IAC)).record (some IAC)).nvt = .iac := by
      rw [hcommand]
      rfl
    unfold NetText.event NetText.feed at *
    dsimp only at *
    rw [NetText.step_escaped hiac]
    refine ⟨?_, rfl⟩
    rw [List.replicate_succ', ← hline, hcommand]
    rfl

end Eo9.Text
