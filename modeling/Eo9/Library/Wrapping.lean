import Eo9.Library.Bytes

/-!
# Machine words that wrap

What a build without overflow checks computes: a value, whether a sum or a product on the way to it
wrapped, and a trap where a slice lies outside its buffer. A computation that runs exactly is one
that a build with the checks would finish as well.
-/

namespace Eo9.Library

inductive Wrapping (α : Type) where
  | trap
  | done (value : α) (wrapped : Bool)

namespace Wrapping

variable {α β σ : Type}

def bind : Wrapping α → (α → Wrapping β) → Wrapping β
  | trap, _ => trap
  | done a wrapped, f =>
    match f a with
    | trap => trap
    | done b wrapped' => done b (wrapped || wrapped')

instance : Monad Wrapping where
  pure a := done a false
  bind := bind

/-- A value as a word of so many bits. -/
def word (bits value : ℕ) : Wrapping ℕ := done (value % 2 ^ bits) (decide (2 ^ bits ≤ value))

def add (bits a b : ℕ) : Wrapping ℕ := word bits (a + b)

def mul (bits a b : ℕ) : Wrapping ℕ := word bits (a * b)

/-- The elements from `start` to `stop`. -/
def slice (l : List α) (start stop : ℕ) : Wrapping (List α) :=
  if start ≤ stop ∧ stop ≤ l.length then pure (sub l start (stop - start)) else trap

/-- Elements put over the range from `start` to `stop`, of which there have to be as many. -/
def splice (l : List α) (start stop : ℕ) (xs : List α) : Wrapping (List α) :=
  if start ≤ stop ∧ stop ≤ l.length ∧ xs.length = stop - start then pure (copyInto l start xs)
  else trap

/-- The body for every row in order. -/
def rows : ℕ → (ℕ → σ → Wrapping σ) → σ → Wrapping σ
  | 0, _, s => pure s
  | n + 1, body, s => rows n body s >>= body n

/-- The computation comes to this value, and nothing wraps. -/
def Runs (x : Wrapping α) (a : α) : Prop := x = done a false

theorem Runs.pure (a : α) : Runs (pure a) a := rfl

theorem Runs.unique {x : Wrapping α} {a b : α} (ha : Runs x a) (hb : Runs x b) : a = b :=
  (done.inj (ha.symm.trans hb)).1

theorem runs_pure {a b : α} : Runs (Pure.pure a) b ↔ a = b := by
  constructor
  · rintro ⟨⟩
    rfl
  · rintro rfl
    exact Runs.pure a

theorem runs_bind {x : Wrapping α} {f : α → Wrapping β} {b : β} :
    Runs (x >>= f) b ↔ ∃ a, Runs x a ∧ Runs (f a) b := by
  constructor
  · intro h
    cases x with
    | trap => exact nomatch h
    | done a wrapped =>
      change bind (done a wrapped) f = done b false at h
      rw [bind] at h
      cases hf : f a with
      | trap =>
        rw [hf] at h
        exact nomatch h
      | done b' wrapped' =>
        rw [hf] at h
        obtain ⟨rfl, hwrapped⟩ := done.inj h
        obtain ⟨rfl, rfl⟩ := Bool.or_eq_false_iff.mp hwrapped
        exact ⟨a, rfl, hf⟩
  · rintro ⟨a, rfl, hf⟩
    change bind (done a false) f = done b false
    rw [bind, hf]
    rfl

theorem Runs.bind {x : Wrapping α} {f : α → Wrapping β} {a : α} {b : β} (hx : Runs x a)
    (hf : Runs (f a) b) : Runs (x >>= f) b := runs_bind.mpr ⟨a, hx, hf⟩

theorem runs_word {bits value n : ℕ} : Runs (word bits value) n ↔ value < 2 ^ bits ∧ n = value := by
  rw [Runs, word, done.injEq, decide_eq_false_iff_not, Nat.not_le]
  constructor
  · rintro ⟨rfl, hlt⟩
    exact ⟨hlt, Nat.mod_eq_of_lt hlt⟩
  · rintro ⟨hlt, rfl⟩
    exact ⟨Nat.mod_eq_of_lt hlt, hlt⟩

theorem Runs.add {bits a b : ℕ} (h : a + b < 2 ^ bits) : Runs (add bits a b) (a + b) :=
  runs_word.mpr ⟨h, rfl⟩

theorem Runs.mul {bits a b : ℕ} (h : a * b < 2 ^ bits) : Runs (mul bits a b) (a * b) :=
  runs_word.mpr ⟨h, rfl⟩

theorem Runs.slice {l : List α} {start n : ℕ} (h : start + n ≤ l.length) :
    Runs (slice l start (start + n)) (sub l start n) := by
  rw [Runs, Wrapping.slice, if_pos ⟨Nat.le_add_right _ _, h⟩, Nat.add_sub_cancel_left]
  rfl

theorem Runs.splice {l xs : List α} {start n : ℕ} (h : start + n ≤ l.length) (hxs : xs.length = n) :
    Runs (splice l start (start + n) xs) (copyInto l start xs) := by
  have hn : start + n - start = n := Nat.add_sub_cancel_left ..
  rw [Runs, Wrapping.splice, if_pos ⟨Nat.le_add_right _ _, h, hxs.trans hn.symm⟩]
  rfl

/-- A loop is what its rows do one after another. -/
theorem Runs.rows {n : ℕ} {body : ℕ → σ → Wrapping σ} {states : ℕ → σ}
    (h : ∀ row < n, Runs (body row (states row)) (states (row + 1))) :
    Runs (rows n body (states 0)) (states n) := by
  induction n with
  | zero => exact Runs.pure _
  | succ n ih =>
    have hfront := ih fun row hrow => h row (Nat.lt_succ_of_lt hrow)
    exact hfront.bind (h n (Nat.lt_succ_self n))

/-- A loop keeps what every row keeps. -/
theorem exists_runs_rows {n : ℕ} {body : ℕ → σ → Wrapping σ} {inv : ℕ → σ → Prop} {s : σ} (h : inv 0 s)
    (hstep : ∀ row < n, ∀ s, inv row s → ∃ s', Runs (body row s) s' ∧ inv (row + 1) s') :
    ∃ s', Runs (Wrapping.rows n body s) s' ∧ inv n s' := by
  induction n with
  | zero => exact ⟨s, .pure s, h⟩
  | succ n ih =>
    obtain ⟨s', hfront, hinv⟩ := ih fun row hrow => hstep row (Nat.lt_succ_of_lt hrow)
    obtain ⟨s'', hlast, hinv⟩ := hstep n (Nat.lt_succ_self n) s' hinv
    exact ⟨s'', hfront.bind hlast, hinv⟩

end Wrapping

end Eo9.Library
