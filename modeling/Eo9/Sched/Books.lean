import Eo9.Library.Action
import Eo9.Library.TreeSum

/-!
# Conserved fuel accounting

The ledger of `fuel.rs`: accounts whose balances change only by import,
transfer, burn and export. Balances are 64-bit and guarded by explicit
checks; the lifetime totals are 128-bit and use the checked addition.
-/

namespace Eo9.Sched

open Eo9.Library Std

/-- The largest quantity of fuel, which is a 64-bit unsigned integer. -/
def Fuel.max : Nat := 2 ^ 64 - 1

/-- Why a ledger operation failed. -/
inductive FuelError (A : Type) where
  | noSuchAccount (account : A)
  | accountExists (account : A)
  | insufficient (account : A) (requested available : Nat)
  | balanceOverflow (account : A)
  | nonEmptyClose (account : A) (balance : Nat)

/-- The panic of a lifetime total that no longer fits in 128 bits, or of a
task id that no longer fits in 64. -/
def overflowSite : String := "attempt to add with overflow"

/-- A set of fuel accounts and the lifetime totals. -/
structure FuelLedger (A : Type) [Ord A] where
  balances : TreeMap A Nat
  imported : Nat
  burned : Nat
  exported : Nat

namespace FuelLedger

variable {A : Type} [Ord A]

def new : FuelLedger A where
  balances := ∅
  imported := 0
  burned := 0
  exported := 0

/-- Total fuel currently held across all accounts. -/
def circulating (l : FuelLedger A) : Nat := total l.balances

/-- Everything imported was burned, exported, or is still held. -/
def isConserved (l : FuelLedger A) : Bool :=
  l.imported == l.burned + l.exported + l.circulating

def balance (l : FuelLedger A) (account : A) : Option Nat := l.balances[account]?

def isOpen (l : FuelLedger A) (account : A) : Bool := l.balances.contains account

/-- The balance of an account, or an error if it is not open. -/
def get (l : FuelLedger A) (account : A) : Outcome (FuelError A) Nat :=
  match l.balances[account]? with
  | some balance => .ok balance
  | none => Outcome.fail (.noSuchAccount account)

/-- What the balance would be after debiting `amount`. -/
def debited (l : FuelLedger A) (account : A) (amount : Nat) :
    Outcome (FuelError A) Nat := do
  let available ← l.get account
  if amount ≤ available then .ok (available - amount)
  else Outcome.fail (.insufficient account amount available)

/-- The balance after a checked 64-bit credit. -/
def credited (l : FuelLedger A) (account : A) (amount : Nat) :
    Outcome (FuelError A) Nat := do
  let balance ← l.get account
  if balance + amount ≤ Fuel.max then .ok (balance + amount)
  else Outcome.fail (.balanceOverflow account)

/-- Overwrite the balance of an account known to exist. -/
def set (account : A) (value : Nat) : Action (FuelLedger A) (FuelError A) Unit :=
  fun l =>
    if l.balances.contains account then
      (.ok (), { l with balances := l.balances.insert account value })
    else (Outcome.panic "account existence was checked before mutation", l)

/-- The debug assertion every mutating operation ends with. -/
def assertConserved : Action (FuelLedger A) (FuelError A) Unit :=
  Action.query fun l =>
    if l.isConserved then .ok () else Outcome.panic "assertion failed: self.is_conserved()"

/-- Open an account with a zero balance. -/
def openAccount (account : A) : Action (FuelLedger A) (FuelError A) Unit := do
  if ← Action.gets (·.balances.contains account) then
    Action.fail (.accountExists account)
  else
    Action.modify fun l => { l with balances := l.balances.insert account 0 }
    assertConserved

/-- Close an account, which must hold no fuel. -/
def closeAccount (account : A) : Action (FuelLedger A) (FuelError A) Unit := do
  match ← Action.gets (·.balances[account]?) with
  | none => Action.fail (.noSuchAccount account)
  | some balance =>
    if balance ≠ 0 then Action.fail (.nonEmptyClose account balance)
    else
      Action.modify fun l => { l with balances := l.balances.erase account }
      assertConserved

/-- Credit fuel from outside the ledger. -/
def importFuel (account : A) (amount : Nat) :
    Action (FuelLedger A) (FuelError A) Unit := do
  let value ← Action.query (·.credited account amount)
  set account value
  let imported ← Action.query fun l => checkedAdd 128 l.imported amount
  Action.modify fun l => { l with imported }
  assertConserved

/-- Debit fuel and hand it out of the ledger. -/
def exportFuel (account : A) (amount : Nat) :
    Action (FuelLedger A) (FuelError A) Unit := do
  let value ← Action.query (·.debited account amount)
  set account value
  let exported ← Action.query fun l => checkedAdd 128 l.exported amount
  Action.modify fun l => { l with exported }
  assertConserved

/-- Move fuel from one account to another. A transfer to itself moves
nothing, but the account must still hold the amount. -/
def transfer [DecidableEq A] (src dst : A) (amount : Nat) :
    Action (FuelLedger A) (FuelError A) Unit := do
  if src = dst then
    let _ ← Action.query (·.debited src amount)
    pure ()
  else
    let srcNew ← Action.query (·.debited src amount)
    let dstNew ← Action.query (·.credited dst amount)
    set src srcNew
    set dst dstNew
    assertConserved

/-- Consume fuel that was spent running code. -/
def burn (account : A) (amount : Nat) : Action (FuelLedger A) (FuelError A) Unit := do
  let value ← Action.query (·.debited account amount)
  set account value
  let burned ← Action.query fun l => checkedAdd 128 l.burned amount
  Action.modify fun l => { l with burned }
  assertConserved

end FuelLedger

/-!
## What each ledger operation does on open accounts

Every operation on open accounts of a conserved ledger is computed once: the
result, and the ledger it leaves. A refused operation leaves the ledger as it
was, and the debug assertion of the conservation law never fires.
-/

namespace FuelLedger

variable {A : Type} [Ord A]

def Conserved (l : FuelLedger A) : Prop :=
  l.imported = l.burned + l.exported + l.circulating

theorem isConserved_iff (l : FuelLedger A) : l.isConserved = true ↔ l.Conserved := by
  simp [isConserved, Conserved]

theorem assertConserved_of {l : FuelLedger A} (h : l.Conserved) :
    assertConserved l = (.ok (), l) := by
  simp only [assertConserved, Action.query_apply, (isConserved_iff l).mpr h, if_true]

theorem new_conserved : (new : FuelLedger A).Conserved := by
  have hnil : (∅ : TreeMap A Nat).toList = [] := by
    rw [← List.isEmpty_iff, TreeMap.isEmpty_toList]
    exact TreeMap.isEmpty_emptyc
  simp [Conserved, new, circulating, total, hnil]

variable [TransOrd A]

omit [TransOrd A] in
theorem get_of_open {l : FuelLedger A} {account : A} {a : Nat}
    (h : l.balances[account]? = some a) : l.get account = .ok a := by
  simp only [get, h]

omit [TransOrd A] in
theorem debited_of_open {l : FuelLedger A} {account : A} {a : Nat} (amount : Nat)
    (h : l.balances[account]? = some a) :
    l.debited account amount =
      if amount ≤ a then .ok (a - amount)
      else Outcome.fail (.insufficient account amount a) := by
  simp only [debited, get_of_open h, Outcome.ok_bind]

theorem set_of_open {l : FuelLedger A} {account : A} {a : Nat} (value : Nat)
    (h : l.balances[account]? = some a) :
    set account value l =
      (.ok (), { l with balances := l.balances.insert account value }) := by
  have hc : l.balances.contains account = true := by
    rw [TreeMap.contains_eq_isSome_getElem?, h]
    rfl
  simp only [set, hc, if_true]

variable [LawfulEqOrd A]

/-- The circulating total after one balance is overwritten. -/
theorem circulating_insert {l : FuelLedger A} {account : A} {a : Nat} (value : Nat)
    (h : l.balances[account]? = some a) :
    total (l.balances.insert account value) + a = l.circulating + value :=
  total_insert value h

theorem openAccount_of_closed {l : FuelLedger A} {account : A} (hc : l.Conserved)
    (h : l.balances[account]? = none) :
    openAccount account l =
      (.ok (), { l with balances := l.balances.insert account 0 }) := by
  have hclosed : l.balances.contains account = false := by
    rw [TreeMap.contains_eq_isSome_getElem?, h]
    rfl
  have hkept : ({ l with balances := l.balances.insert account 0 } :
      FuelLedger A).Conserved := by
    have := total_insert_new 0 h
    simp only [Conserved, circulating, this, Nat.zero_add] at hc ⊢
    exact hc
  simp only [openAccount, Action.bind_apply, Action.gets_apply, hclosed,
    Bool.false_eq_true, if_false, Action.modify_apply, assertConserved_of hkept]

theorem closeAccount_of_empty {l : FuelLedger A} {account : A} (hc : l.Conserved)
    (h : l.balances[account]? = some 0) :
    closeAccount account l =
      (.ok (), { l with balances := l.balances.erase account }) := by
  have hkept : ({ l with balances := l.balances.erase account } :
      FuelLedger A).Conserved := by
    have := total_erase h
    simp only [Conserved, circulating] at hc ⊢
    omega
  simp only [closeAccount, Action.bind_apply, Action.gets_apply, h, ne_eq,
    not_true_eq_false, if_false, Action.modify_apply, assertConserved_of hkept]

/-- Import is refused exactly when the balance would pass 64 bits. -/
theorem importFuel_of_open {l : FuelLedger A} {account : A} {a : Nat} (amount : Nat)
    (hc : l.Conserved) (h : l.balances[account]? = some a) (hfit : a + amount ≤ Fuel.max) :
    importFuel account amount l =
      if l.imported + amount < 2 ^ 128 then
        (.ok (), { l with
          balances := l.balances.insert account (a + amount)
          imported := l.imported + amount })
      else (Outcome.panic overflowSite,
        { l with balances := l.balances.insert account (a + amount) }) := by
  have hcredit : l.credited account amount = .ok (a + amount) := by
    simp only [credited, get_of_open h, Outcome.ok_bind, hfit, if_true]
  simp only [importFuel, Action.bind_apply, Action.query_apply, hcredit, set_of_open _ h,
    checkedAdd]
  by_cases hlife : l.imported + amount < 2 ^ 128
  · have hkept : ({ l with
        balances := l.balances.insert account (a + amount)
        imported := l.imported + amount } : FuelLedger A).Conserved := by
      have := circulating_insert (a + amount) h
      simp only [Conserved, circulating] at hc this ⊢
      omega
    simp only [hlife, if_true, Action.modify_apply, assertConserved_of hkept]
  · simp only [hlife, if_false, Outcome.panic, overflowSite]

theorem exportFuel_of_open {l : FuelLedger A} {account : A} {a : Nat} (amount : Nat)
    (hc : l.Conserved) (h : l.balances[account]? = some a) :
    exportFuel account amount l =
      if amount ≤ a then
        if l.exported + amount < 2 ^ 128 then
          (.ok (), { l with
            balances := l.balances.insert account (a - amount)
            exported := l.exported + amount })
        else (Outcome.panic overflowSite,
          { l with balances := l.balances.insert account (a - amount) })
      else (Outcome.fail (.insufficient account amount a), l) := by
  simp only [exportFuel, Action.bind_apply, Action.query_apply, debited_of_open amount h]
  by_cases hle : amount ≤ a
  · simp only [hle, if_true, set_of_open _ h, checkedAdd]
    by_cases hlife : l.exported + amount < 2 ^ 128
    · have hkept : ({ l with
          balances := l.balances.insert account (a - amount)
          exported := l.exported + amount } : FuelLedger A).Conserved := by
        have := circulating_insert (a - amount) h
        simp only [Conserved, circulating] at hc this ⊢
        omega
      simp only [hlife, if_true, Action.modify_apply, assertConserved_of hkept]
    · simp only [hlife, if_false, Outcome.panic, overflowSite]
  · simp only [hle, if_false, Outcome.fail]

theorem burn_of_open {l : FuelLedger A} {account : A} {a : Nat} (amount : Nat)
    (hc : l.Conserved) (h : l.balances[account]? = some a) :
    burn account amount l =
      if amount ≤ a then
        if l.burned + amount < 2 ^ 128 then
          (.ok (), { l with
            balances := l.balances.insert account (a - amount)
            burned := l.burned + amount })
        else (Outcome.panic overflowSite,
          { l with balances := l.balances.insert account (a - amount) })
      else (Outcome.fail (.insufficient account amount a), l) := by
  simp only [burn, Action.bind_apply, Action.query_apply, debited_of_open amount h]
  by_cases hle : amount ≤ a
  · simp only [hle, if_true, set_of_open _ h, checkedAdd]
    by_cases hlife : l.burned + amount < 2 ^ 128
    · have hkept : ({ l with
          balances := l.balances.insert account (a - amount)
          burned := l.burned + amount } : FuelLedger A).Conserved := by
        have := circulating_insert (a - amount) h
        simp only [Conserved, circulating] at hc this ⊢
        omega
      simp only [hlife, if_true, Action.modify_apply, assertConserved_of hkept]
    · simp only [hlife, if_false, Outcome.panic, overflowSite]
  · simp only [hle, if_false, Outcome.fail]

/-- A transfer between two accounts that hold at most the 64-bit maximum
together never overflows: it moves the amount, or is refused for want of it. -/
theorem transfer_of_open [DecidableEq A] {l : FuelLedger A} {src dst : A} {a b : Nat}
    (amount : Nat) (hc : l.Conserved) (hne : src ≠ dst) (ha : l.balances[src]? = some a)
    (hb : l.balances[dst]? = some b) (hsum : a + b ≤ Fuel.max) :
    transfer src dst amount l =
      if amount ≤ a then
        (.ok (), { l with
          balances := (l.balances.insert src (a - amount)).insert dst (b + amount) })
      else (Outcome.fail (.insufficient src amount a), l) := by
  simp only [transfer, hne, if_false, Action.bind_apply, Action.query_apply,
    debited_of_open amount ha]
  by_cases hle : amount ≤ a
  · have hcredit : l.credited dst amount = .ok (b + amount) := by
      have : b + amount ≤ Fuel.max := by omega
      simp only [credited, get_of_open hb, Outcome.ok_bind, this, if_true]
    have hb' : (l.balances.insert src (a - amount))[dst]? = some b := by
      rw [TreeMap.getElem?_insert]
      simpa [hne] using hb
    have hkept : ({ l with
        balances := (l.balances.insert src (a - amount)).insert dst (b + amount) } :
        FuelLedger A).Conserved := by
      have h₁ := total_insert (b + amount) hb'
      have h₂ := circulating_insert (a - amount) ha
      simp only [Conserved, circulating] at hc h₁ h₂ ⊢
      omega
    simp only [hle, if_true, hcredit, set_of_open _ ha,
      set_of_open (l := { l with balances := l.balances.insert src (a - amount) }) _ hb',
      assertConserved_of hkept]
  · simp only [hle, if_false, Outcome.fail]

/-- Moving fuel between two accounts keeps the circulating total. -/
theorem circulating_transfer {l : FuelLedger A} {src dst : A} {a b amount : Nat}
    (hne : src ≠ dst) (ha : l.balances[src]? = some a) (hb : l.balances[dst]? = some b)
    (hle : amount ≤ a) :
    total ((l.balances.insert src (a - amount)).insert dst (b + amount)) = l.circulating := by
  have hb' : (l.balances.insert src (a - amount))[dst]? = some b := by
    rw [TreeMap.getElem?_insert]
    simpa [hne] using hb
  have h₁ := total_insert (b + amount) hb'
  have h₂ := circulating_insert (a - amount) ha
  omega

/-- No transfer overflows while the circulating total fits in 64 bits, whatever
accounts it names. -/
theorem transfer_fits [DecidableEq A] {l : FuelLedger A} (hc : l.Conserved)
    (hb : l.circulating ≤ Fuel.max) (src dst : A) (amount : Nat) (account : A) :
    (transfer src dst amount l).1 ≠ Outcome.fail (.balanceOverflow account) := by
  cases hsrc : l.balances[src]? with
  | none =>
    have hdebit : l.debited src amount = Outcome.fail (.noSuchAccount src) := by
      simp only [debited, get, hsrc, Outcome.fail, Outcome.error_bind]
    by_cases heq : src = dst
    · simp [transfer, heq ▸ hdebit, heq, Action.bind_apply, Outcome.fail]
    · simp [transfer, hdebit, heq, Action.bind_apply, Outcome.fail]
  | some a =>
    have hdebit := debited_of_open amount hsrc
    by_cases heq : src = dst
    · subst heq
      by_cases hle : amount ≤ a
      · simp [transfer, hdebit, hle, Action.bind_apply, Outcome.fail]
      · simp [transfer, hdebit, hle, Action.bind_apply, Outcome.fail]
    · cases hdst : l.balances[dst]? with
      | none =>
        have hcredit : l.credited dst amount = Outcome.fail (.noSuchAccount dst) := by
          simp only [credited, get, hdst, Outcome.fail, Outcome.error_bind]
        by_cases hle : amount ≤ a
        · simp [transfer, hdebit, hcredit, hle, heq, Action.bind_apply, Outcome.fail]
        · simp [transfer, hdebit, hle, heq, Action.bind_apply, Outcome.fail]
      | some b =>
        have hsum : a + b ≤ Fuel.max :=
          Nat.le_trans (add_le_total heq hsrc hdst) hb
        rw [transfer_of_open amount hc heq hsrc hdst hsum]
        split
        · simp [Outcome.fail]
        · simp [Outcome.fail]

end FuelLedger

end Eo9.Sched
