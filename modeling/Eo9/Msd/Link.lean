import Mathlib.Data.List.Induction
import Eo9.Msd.Device

/-!
# The link to the device

What the calls on the transport say about the link, apart from what the engine
keeps of it: whether an exchange may be torn, which command wrappers were sent,
and with which tags.
-/

namespace Eo9.Msd

open Eo9.Library Eo9.Library.Action Eo9.Library.Dialogue

/-- The status that ends an exchange. -/
def accepted (tag : Nat) (chunk : Chunk) : Option Csw :=
  match decodeCsw chunk.bytes tag with
  | .ok csw => if csw.status = CSW_PHASE_ERROR then none else some csw
  | .error _ => none

/-- Where the device may be: between exchanges, inside of one, or inside of a reset
recovery that did the reset and possibly the first of the two halts. -/
inductive Link where
  | between
  | exchange (tag : Nat)
  | torn
  | reset
  | resetIn
  deriving DecidableEq

/-- A reset recovery that is not carried on. -/
def Link.abandoned : Link → Link
  | .reset => .torn
  | .resetIn => .torn
  | link => link

def Link.next (link : Link) : Call × Option Answer → Link
  | (.cbw bytes, _) => .exchange (tagOf bytes)
  | (.csw, some (.ok chunk)) =>
    match link with
    | .exchange tag => if (accepted tag chunk).isSome then .between else .exchange tag
    | _ => link.abandoned
  | (.massStorageReset, some (.ok _)) => .reset
  | (.clearHaltIn, some (.ok _)) => if link = .reset then .resetIn else link.abandoned
  | (.clearHaltOut, some (.ok _)) => if link = .resetIn then .between else link.abandoned
  | _ => link.abandoned

abbrev Wire := List (Call × Option Answer)

/-- The state of the link after some calls. -/
def linkOf (wire : Wire) : Link := wire.foldl Link.next .between

/-- The command wrapper of a call. -/
def cbwOf : Call × Option Answer → Option Bytes
  | (.cbw bytes, _) => some bytes
  | _ => none

/-- The command wrappers that were sent. -/
def cbws (wire : Wire) : List Bytes := wire.filterMap cbwOf

@[simp] theorem linkOf_snoc (wire : Wire) (e : Call × Option Answer) :
    linkOf (wire ++ [e]) = (linkOf wire).next e := by
  simp [linkOf, List.foldl_append]

@[simp] theorem cbws_append (wire rest : Wire) : cbws (wire ++ rest) = cbws wire ++ cbws rest :=
  List.filterMap_append

theorem cbws_snoc_of_none {wire : Wire} {e : Call × Option Answer} (h : cbwOf e = none) :
    cbws (wire ++ [e]) = cbws wire := by
  simp [cbws, h]

theorem Link.abandoned_ne_between {link : Link} (h : link ≠ .between) :
    link.abandoned ≠ .between := by
  cases link with
  | between => exact absurd rfl h
  | _ => exact nofun

/-- Only an accepted status and the end of a reset recovery lead between exchanges. -/
theorem Link.next_ne_between {link : Link} {e : Call × Option Answer} (h : link ≠ .between)
    (hcsw : ∀ chunk tag, e = (.csw, some (.ok chunk)) → link = .exchange tag →
      accepted tag chunk = none)
    (hout : ∀ chunk, e = (.clearHaltOut, some (.ok chunk)) → link ≠ .resetIn) :
    link.next e ≠ .between := by
  unfold Link.next
  split
  · exact nofun
  · rename_i chunk
    split
    · rename_i tag
      rw [hcsw chunk tag rfl rfl]
      exact nofun
    · exact abandoned_ne_between h
  · exact nofun
  · split
    · exact nofun
    · exact abandoned_ne_between h
  · rename_i chunk
    rw [if_neg (hout chunk rfl)]
    exact abandoned_ne_between h
  · exact abandoned_ne_between h

theorem Link.abandoned_eq_exchange {link : Link} {tag : Nat}
    (h : link.abandoned = .exchange tag) : link = .exchange tag := by
  cases link with
  | exchange => exact h
  | _ => exact absurd h nofun

/-- An exchange is begun by its wrapper, and every other call only leaves it as it is. -/
theorem Link.next_eq_exchange {link : Link} {e : Call × Option Answer} {tag : Nat}
    (h : link.next e = .exchange tag) :
    (∃ bytes answer, e = (.cbw bytes, answer) ∧ tagOf bytes = tag) ∨
      (cbwOf e = none ∧ link = .exchange tag) := by
  unfold Link.next at h
  split at h
  · rename_i bytes answer
    exact .inl ⟨bytes, answer, rfl, Link.exchange.inj h⟩
  · right
    refine ⟨rfl, ?_⟩
    split at h
    · split at h
      · exact absurd h nofun
      · exact h
    · exact abandoned_eq_exchange h
  · exact absurd h nofun
  · right
    split at h
    · exact absurd h nofun
    · exact ⟨rfl, abandoned_eq_exchange h⟩
  · right
    split at h
    · exact absurd h nofun
    · exact ⟨rfl, abandoned_eq_exchange h⟩
  · rename_i hcbw _ _ _ _
    right
    refine ⟨?_, abandoned_eq_exchange h⟩
    obtain ⟨c, answer⟩ := e
    cases c with
    | cbw bytes => exact absurd rfl (hcbw bytes answer)
    | _ => rfl

/-- Command wrappers are sent between exchanges only. -/
def Guarded (wire : Wire) : Prop :=
  ∀ before bytes answer after, wire = before ++ (.cbw bytes, answer) :: after →
    linkOf before = .between

theorem guarded_snoc {wire : Wire} {e : Call × Option Answer} (h : Guarded wire)
    (he : cbwOf e ≠ none → linkOf wire = .between) : Guarded (wire ++ [e]) := by
  intro before bytes answer after hsplit
  rcases List.eq_nil_or_concat after with rfl | ⟨after, last, rfl⟩
  · obtain ⟨rfl, hlast⟩ := List.append_inj' hsplit rfl
    obtain rfl := List.singleton_inj.mp hlast
    exact he nofun
  · rw [List.concat_eq_append, ← List.cons_append, ← List.append_assoc] at hsplit
    exact h before bytes answer after (List.append_inj' hsplit rfl).1

/-- The tag in use after a number of command wrappers. -/
def tagAfter (n : Nat) : Nat := (FIRST_TAG + n) % 2 ^ 32

/-- The tags of the command wrappers count up. -/
def Numbered (wire : Wire) : Prop :=
  ∀ n bytes, (cbws wire)[n]? = some bytes → tagOf bytes = tagAfter (n + 1)

theorem tagAfter_succ (n : Nat) : (tagAfter n + 1) % 2 ^ 32 = tagAfter (n + 1) := by
  unfold tagAfter
  omega

/-- Two tags agree only a multiple of `2 ^ 32` wrappers apart. -/
theorem tagAfter_eq_iff {m n : Nat} : tagAfter m = tagAfter n ↔ m % 2 ^ 32 = n % 2 ^ 32 := by
  unfold tagAfter
  omega

/-- In an exchange, the tag is the one of the last command wrapper. -/
theorem exchange_tag {wire : Wire} {tag : Nat} (h : linkOf wire = .exchange tag) :
    ∃ bytes, (cbws wire).getLast? = some bytes ∧ tagOf bytes = tag := by
  induction wire using List.reverseRecOn with
  | nil => exact absurd h nofun
  | append_singleton wire e ih =>
    rw [linkOf_snoc] at h
    rcases Link.next_eq_exchange h with ⟨bytes, answer, rfl, htag⟩ | ⟨hcbw, hlink⟩
    · refine ⟨bytes, ?_, htag⟩
      simp [cbws, cbwOf]
    · rw [cbws_snoc_of_none hcbw]
      exact ih hlink

theorem Numbered.exchange {wire : Wire} {tag : Nat} (h : Numbered wire)
    (hlink : linkOf wire = .exchange tag) : tag = tagAfter (cbws wire).length := by
  obtain ⟨bytes, hlast, rfl⟩ := exchange_tag hlink
  rw [List.getLast?_eq_getElem?] at hlast
  have hpos : 0 < (cbws wire).length := by
    rcases h : cbws wire with _ | ⟨b, rest⟩
    · rw [h] at hlast
      exact absurd hlast nofun
    · exact Nat.succ_pos _
  rw [h _ bytes hlast, Nat.sub_add_cancel hpos]

end Eo9.Msd
