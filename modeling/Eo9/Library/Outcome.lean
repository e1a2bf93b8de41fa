import Mathlib.Algebra.Group.Nat.Defs
import Mathlib.Logic.Basic

/-!
# Outcomes of a computation that can stop early

A call either returns a value, returns a typed error, panics, or runs forever.
The four cases are kept apart, so that "fails cleanly" and "cannot panic" are
statements about one value.
-/

namespace Eo9.Library

/-- Why a call gave no value: a typed error, a panic at a named site, or a
loop that never ends. -/
inductive Stop (ε : Type*) where
  | err (e : ε)
  | panic (site : String)
  | diverge
  deriving DecidableEq

/-- The result of a call whose typed errors are `ε`. -/
abbrev Outcome (ε α : Type*) := Except (Stop ε) α

universe u v w

namespace Outcome

variable {ε ε' : Type u} {α β : Type v}

def fail (e : ε) : Outcome ε α := .error (.err e)

def panic (site : String) : Outcome ε α := .error (.panic site)

/-- The call ended with a value or with a typed error. -/
def Clean : Outcome ε α → Prop
  | .ok _ => True
  | .error (.err _) => True
  | .error (.panic _) => False
  | .error .diverge => False

/-- Only the listed panics, and no endless loop, can stop the call. -/
def PanicsOnly (sites : List String) : Outcome ε α → Prop
  | .error (.panic site) => site ∈ sites
  | .error .diverge => False
  | _ => True

@[simp] theorem clean_ok (a : α) : Clean (.ok a : Outcome ε α) := trivial

@[simp] theorem clean_err (e : ε) : Clean (.error (.err e) : Outcome ε α) := trivial

@[simp] theorem clean_fail (e : ε) : Clean (fail e : Outcome ε α) := trivial

@[simp] theorem not_clean_panic (site : String) :
    ¬ Clean (.error (.panic site) : Outcome ε α) := id

@[simp] theorem not_clean_diverge : ¬ Clean (.error .diverge : Outcome ε α) := id

/-- Whether a stop is clean does not depend on the type of the missing value. -/
theorem clean_error_iff {e : Stop ε} :
    Clean (.error e : Outcome ε α) ↔ Clean (.error e : Outcome ε β) := by
  cases e <;> exact Iff.rfl

/-- A clean call that returned no value returned a typed error. -/
theorem Clean.isErr {e : Stop ε} (h : Clean (.error e : Outcome ε α)) : ∃ x, e = .err x := by
  cases e with
  | err x => exact ⟨x, rfl⟩
  | panic site => exact h.elim
  | diverge => exact h.elim

@[simp] theorem ok_bind (a : α) (f : α → Outcome ε β) :
    ((.ok a : Outcome ε α) >>= f) = f a := rfl

@[simp] theorem error_bind (e : Stop ε) (f : α → Outcome ε β) :
    ((.error e : Outcome ε α) >>= f) = .error e := rfl

/-- A sequence returns a value exactly when both halves do. -/
theorem bind_eq_ok {m : Outcome ε α} {f : α → Outcome ε β} {b : β} :
    (m >>= f) = .ok b ↔ ∃ a, m = .ok a ∧ f a = .ok b := by
  cases m with
  | ok a => simp
  | error e => simp

/-- A sequence is clean when its first half is, and its second half is
wherever the first one returns. -/
theorem clean_bind {m : Outcome ε α} {f : α → Outcome ε β} :
    Clean (m >>= f) ↔ Clean m ∧ ∀ a, m = .ok a → Clean (f a) := by
  cases m with
  | ok a => simp
  | error e =>
    cases e with
    | err e => simp
    | panic site => simp
    | diverge => simp

/-- A loop is clean when every round it comes to is. -/
theorem clean_foldlM {γ : Type v} {f : β → γ → Outcome ε β} {p : β → Prop} {cs : List γ} {b : β}
    (h : p b) (hclean : ∀ b c, p b → c ∈ cs → Clean (f b c))
    (hinv : ∀ b c b', p b → c ∈ cs → f b c = .ok b' → p b') : Clean (cs.foldlM f b) := by
  induction cs generalizing b with
  | nil => exact clean_ok b
  | cons c cs ih =>
    refine clean_bind.mpr ⟨hclean b c h List.mem_cons_self, fun b' hb' => ?_⟩
    refine ih (hinv b c b' h List.mem_cons_self hb') ?_ ?_
    · exact fun b c hb hc => hclean b c hb (List.mem_cons_of_mem _ hc)
    · exact fun b c b' hb hc => hinv b c b' hb (List.mem_cons_of_mem _ hc)

/-- What every round preserves, a loop that returns preserves. -/
theorem foldlM_invariant {γ : Type v} {f : β → γ → Outcome ε β} {p : β → Prop} {cs : List γ}
    {b b' : β} (h : p b) (hinv : ∀ b c b', p b → c ∈ cs → f b c = .ok b' → p b')
    (hrun : cs.foldlM f b = .ok b') : p b' := by
  induction cs generalizing b with
  | nil =>
    obtain rfl := Except.ok.inj hrun
    exact h
  | cons c cs ih =>
    obtain ⟨b₁, hb₁, hrun⟩ := bind_eq_ok.mp hrun
    exact ih (hinv b c b₁ h List.mem_cons_self hb₁)
      (fun b c b' hb hc => hinv b c b' hb (List.mem_cons_of_mem _ hc)) hrun

/-- A loop is clean exactly when each round is, at the state the rounds before
it lead to. -/
theorem clean_foldlM_iff {γ : Type v} {f : β → γ → Outcome ε β} {cs : List γ} {b : β} :
    Clean (cs.foldlM f b) ↔ ∀ done c rest b', cs = done ++ c :: rest →
      done.foldlM f b = .ok b' → Clean (f b' c) := by
  induction cs generalizing b with
  | nil => simp [pure, Except.pure]
  | cons c cs ih =>
    rw [List.foldlM_cons, clean_bind]
    constructor
    · rintro ⟨hhead, htail⟩ done c' rest b' hsplit hdone
      cases done with
      | nil =>
        obtain ⟨rfl, rfl⟩ := List.cons.inj hsplit
        obtain rfl := Except.ok.inj hdone
        exact hhead
      | cons d done =>
        obtain ⟨rfl, rfl⟩ := List.cons.inj hsplit
        obtain ⟨b₁, hb₁, hdone⟩ := bind_eq_ok.mp hdone
        exact ih.mp (htail b₁ hb₁) done c' rest b' rfl hdone
    · intro h
      refine ⟨h [] c cs b rfl rfl, fun b₁ hb₁ => ih.mpr ?_⟩
      intro done c' rest b' hsplit hdone
      refine h (c :: done) c' rest b' (by rw [hsplit]; rfl) ?_
      rw [List.foldlM_cons, hb₁, ok_bind, hdone]

/-- Translate the typed errors and leave panics and endless loops alone. -/
def mapErr (f : ε → Outcome ε' α) : Outcome ε α → Outcome ε' α
  | .ok a => .ok a
  | .error (.err e) => f e
  | .error (.panic site) => .error (.panic site)
  | .error .diverge => .error .diverge

@[simp] theorem mapErr_ok (f : ε → Outcome ε' α) (a : α) :
    mapErr f (.ok a) = .ok a := rfl

@[simp] theorem mapErr_err (f : ε → Outcome ε' α) (e : ε) :
    mapErr f (.error (.err e)) = f e := rfl

/-- Two calls that both return, return the same value. -/
def Agree (m m' : Outcome ε α) : Prop := ∀ a a', m = .ok a → m' = .ok a' → a = a'

theorem Agree.rfl {m : Outcome ε α} : Agree m m := by
  intro a a' h h'
  exact Except.ok.inj (h.symm.trans h')

/-- Agreement goes through a sequence: the second halves run on one value. -/
theorem agree_bind {m m' : Outcome ε α} {f f' : α → Outcome ε β} (h : Agree m m')
    (hf : ∀ a, Agree (f a) (f' a)) : Agree (m >>= f) (m' >>= f') := by
  intro b b' hb hb'
  obtain ⟨a, ha, hfa⟩ := bind_eq_ok.mp hb
  obtain ⟨a', ha', hfa'⟩ := bind_eq_ok.mp hb'
  obtain rfl := h a a' ha ha'
  exact hf a b b' hfa hfa'

theorem agree_ite {p : Prop} [Decidable p] {m m' n n' : Outcome ε α} (hm : p → Agree m m')
    (hn : ¬ p → Agree n n') :
    Agree (if p then m else n) (if p then m' else n') := by
  by_cases h : p
  · simpa only [if_pos h] using hm h
  · simpa only [if_neg h] using hn h

theorem agree_foldlM {γ : Type v} {f f' : β → γ → Outcome ε β} (h : ∀ b c, Agree (f b c) (f' b c))
    (cs : List γ) (b : β) : Agree (cs.foldlM f b) (cs.foldlM f' b) := by
  induction cs generalizing b with
  | nil => exact Agree.rfl
  | cons c cs ih => exact agree_bind (h b c) ih

end Outcome

/-- A loop whose rounds all return, returns all that they return. -/
theorem mapM_eq_pure {m : Type u → Type v} [Monad m] [LawfulMonad m] {α : Type w} {β : Type u}
    {f : α → m β} {g : α → β} {l : List α} (h : ∀ a ∈ l, f a = pure (g a)) :
    l.mapM f = pure (l.map g) := by
  induction l with
  | nil => rfl
  | cons a l ih =>
    rw [List.mapM_cons, h a List.mem_cons_self, ih fun a ha => h a (List.mem_cons_of_mem _ ha)]
    simp

section CheckedArithmetic

variable {ε : Type*}

/-- Addition of unsigned `bits`-bit integers with the overflow check on. -/
def checkedAdd (bits a b : Nat) : Outcome ε Nat :=
  if a + b < 2 ^ bits then .ok (a + b) else Outcome.panic "attempt to add with overflow"

/-- Subtraction of unsigned integers with the underflow check on. -/
def checkedSub (a b : Nat) : Outcome ε Nat :=
  if b ≤ a then .ok (a - b) else Outcome.panic "attempt to subtract with overflow"

/-- Multiplication of unsigned `bits`-bit integers with the overflow check on. -/
def checkedMul (bits a b : Nat) : Outcome ε Nat :=
  if a * b < 2 ^ bits then .ok (a * b) else Outcome.panic "attempt to multiply with overflow"

theorem checkedAdd_ok {bits a b : Nat} (h : a + b < 2 ^ bits) :
    (checkedAdd bits a b : Outcome ε Nat) = .ok (a + b) := if_pos h

theorem checkedSub_ok {a b : Nat} (h : b ≤ a) :
    (checkedSub a b : Outcome ε Nat) = .ok (a - b) := if_pos h

theorem checkedMul_ok {bits a b : Nat} (h : a * b < 2 ^ bits) :
    (checkedMul bits a b : Outcome ε Nat) = .ok (a * b) := if_pos h

theorem clean_checkedAdd {bits a b : Nat} :
    (checkedAdd bits a b : Outcome ε Nat).Clean ↔ a + b < 2 ^ bits := by
  unfold checkedAdd
  split <;> simp_all [Outcome.panic]

theorem clean_checkedSub {a b : Nat} :
    (checkedSub a b : Outcome ε Nat).Clean ↔ b ≤ a := by
  unfold checkedSub
  split <;> simp_all [Outcome.panic]

end CheckedArithmetic

end Eo9.Library
