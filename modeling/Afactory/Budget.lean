import Mathlib
import Afactory.OrdMap
import Afactory.Runs
import Afactory.Fencing

/-!
# The budget ledger

The `BudgetLedger` of `review-attempt/src/budget.rs`: reserve before spending,
and charge what was spent even when it was wasted. A reservation holds its
amount in every scope it names; an observation moves known spend from the held
amount to the committed one; settling or releasing returns what is left.

Every operation returns `none` where the source would panic: a `u128` sum or
difference out of range, or an account indexed that is not there. A refusal is
an `Except.error` beside the ledger it leaves, which is not always the one it
found: an unrepresentable observation closes admission.
-/

namespace Afactory

/-! ## Checked `u128` arithmetic -/

/-- A `u128` sum; `none` past the last value. -/
def addU128 (a b : ℕ) : Option ℕ := if a + b < u128Bound then some (a + b) else none

/-- A `u128` difference; `none` below zero. -/
def subU128 (a b : ℕ) : Option ℕ := if b ≤ a then some (a - b) else none

theorem addU128_eq_some {a b c : ℕ} : addU128 a b = some c ↔ a + b < u128Bound ∧ c = a + b := by
  unfold addU128
  split_ifs with h <;> simp [h, eq_comm]

theorem addU128_eq_none {a b : ℕ} : addU128 a b = none ↔ u128Bound ≤ a + b := by
  unfold addU128
  split_ifs with h <;> simp <;> omega

/-! ## Scopes, reservations and accounts -/

/-- Where a limit applies. -/
inductive BudgetScope where
  /-- a group of nodes sharing one limit -/
  | fanOut (id : String)
  | run
  deriving DecidableEq, Repr

namespace BudgetScope

/-- The place of a scope in the derived order: fan-outs by name, the run last. -/
def rank : BudgetScope → WithTop String
  | .fanOut id => (id : WithTop String)
  | .run => ⊤

theorem rank_injective : Function.Injective rank := by
  intro a b h
  cases a <;> cases b <;> simp_all [rank]

instance : LinearOrder BudgetScope := LinearOrder.lift' rank rank_injective

/-- The scope as error texts name it. -/
def display : BudgetScope → String
  | .fanOut id => "fan-out " ++ id
  | .run => "run"

end BudgetScope

/-- Why a reservation is refused. -/
inductive BudgetRefusal where
  | tokens
  | reservationIdentities
  | accountingOverflow
  deriving DecidableEq, Repr

/-- A refused reservation, with the scope whose limit refused. -/
structure BudgetError where
  reason : BudgetRefusal
  scope : BudgetScope
  limit : ℕ
  committed : ℕ
  reserved : ℕ
  requested : ℕ
  deriving DecidableEq, Repr

/-- The refusal as a text. -/
def BudgetError.message (e : BudgetError) : String :=
  match e.reason with
  | .reservationIdentities => "budget reservation identity space exhausted"
  | .accountingOverflow => "budget accounting overflow; admission is closed"
  | .tokens =>
    e.scope.display ++ " budget exhausted: limit " ++ toString e.limit ++
      ", already committed " ++ toString e.committed ++ ", reserved " ++ toString e.reserved ++
      ", requested " ++ toString e.requested

/-- A granted reservation. Holding one entitles a dispatch to happen. -/
structure Reservation where
  id : String
  amount : ℕ
  /-- distinct, in scope order -/
  scopes : List BudgetScope
  deriving DecidableEq, Repr

/-- One scope's limit and its two counters. -/
structure Account where
  limit : Option ℕ := none
  committed : ℕ := 0
  reserved : ℕ := 0
  deriving DecidableEq, Repr, Inhabited

/-- A reservation that is neither settled nor released. -/
structure Outstanding where
  reservation : Reservation
  /-- the highest charge observed so far -/
  observed : ℕ
  deriving DecidableEq, Repr

/-- What is left of the reserved amount once the observed charge is taken off. -/
def Outstanding.unspent (h : Outstanding) : ℕ := h.reservation.amount - h.observed

/-- The accounts of every scope and the reservations they hold. -/
structure BudgetLedger where
  accounts : OrdMap BudgetScope Account := .empty
  outstanding : OrdMap String Outstanding := .empty
  /-- the number of the last reservation -/
  next : ℕ := 0
  /-- an observation did not fit: admission is closed -/
  overflowed : Bool := false
  deriving DecidableEq

/-- The identity of the `n`-th reservation. -/
def reservationId (n : ℕ) : String := "reservation:" ++ toString n

namespace BudgetLedger

/-- The account of a scope, empty where none was opened. -/
def account (L : BudgetLedger) (scope : BudgetScope) : Account :=
  (L.accounts.get scope).getD {}

def committed (L : BudgetLedger) (scope : BudgetScope) : ℕ := (L.account scope).committed

def reserved (L : BudgetLedger) (scope : BudgetScope) : ℕ := (L.account scope).reserved

/-- What a limited scope may still reserve. -/
def remaining (L : BudgetLedger) (scope : BudgetScope) : Option ℕ :=
  (L.accounts.get scope).bind fun a => a.limit.map fun limit =>
    if L.overflowed then 0
    else match addU128 a.committed a.reserved with
      | some used => limit - used
      | none => 0

def withLimit (L : BudgetLedger) (scope : BudgetScope) (limit : ℕ) : BudgetLedger :=
  { L with accounts := L.accounts.insert scope { L.account scope with limit := some limit } }

def withExactCommitted (L : BudgetLedger) (scope : BudgetScope) (committed : ℕ) : BudgetLedger :=
  { L with accounts := L.accounts.insert scope { L.account scope with committed := committed } }

/-! ## Reserving -/

/-- The scopes as a sorted set. -/
def scopeSet (scopes : List BudgetScope) : List BudgetScope :=
  (OrdMap.ofList (scopes.map fun s => (s, ()))).keys

/-- Why a scope refuses the amount, if it does. -/
def refusal (L : BudgetLedger) (amount : ℕ) (scope : BudgetScope) : Option BudgetError :=
  let account := L.account scope
  match (addU128 account.committed account.reserved).bind fun used => addU128 used amount with
  | none =>
    some ⟨.accountingOverflow, scope, account.limit.getD (u64Bound - 1), account.committed,
      account.reserved, amount⟩
  | some total =>
    account.limit.bind fun limit =>
      if limit < total then
        some ⟨.tokens, scope, limit, account.committed, account.reserved, amount⟩
      else none

/-- Add an amount to the reserved counter, opening the account if needed. -/
def hold (amount : ℕ) (account : Option Account) : Option Account :=
  let a := account.getD {}
  (addU128 a.reserved amount).map fun reserved => { a with reserved := reserved }

/-- Reserve against every scope an Attempt belongs to, all or nothing. -/
def reserve (L : BudgetLedger) (scopes : List BudgetScope) (amount : ℕ) :
    Option (Except BudgetError Reservation × BudgetLedger) :=
  if L.overflowed then
    some (.error ⟨.accountingOverflow, .run, u64Bound - 1, L.committed .run, L.reserved .run,
      amount⟩, L)
  else if u64Bound ≤ L.next + 1 then
    some (.error ⟨.reservationIdentities, .run, u64Bound - 1, L.next, 0, 1⟩, L)
  else
    let scopes := scopeSet scopes
    match scopes.findSome? (L.refusal amount) with
    | some e => some (.error e, L)
    | none =>
      (L.accounts.updateEach (hold amount) scopes).map fun accounts =>
        let reservation : Reservation := ⟨reservationId (L.next + 1), amount, scopes⟩
        (.ok reservation, { L with
          accounts := accounts
          next := L.next + 1
          outstanding := L.outstanding.insert reservation.id ⟨reservation, 0⟩ })

/-! ## Observing, settling and releasing -/

/-- Whether every scope's committed counter can take the increase. The first
scope without an account panics, the first that overflows answers. -/
def fits (L : BudgetLedger) (delta : ℕ) : List BudgetScope → Option Bool
  | [] => some true
  | scope :: scopes =>
    match L.accounts.get scope with
    | none => none
    | some account =>
      if (addU128 account.committed delta).isNone then some false else L.fits delta scopes

/-- Move a charge from the reserved to the committed counter. -/
def commit (delta consumed : ℕ) (account : Option Account) : Option Account :=
  account.bind fun a =>
    (addU128 a.committed delta).bind fun committed =>
      (subU128 a.reserved consumed).map fun reserved =>
        { a with committed := committed, reserved := reserved }

/-- `observe_charge_exact`: move known spend out of an outstanding reservation
without ending its Attempt. Observations are cumulative floors. -/
def observeChargeExact (L : BudgetLedger) (reservation : Reservation) (actual : ℕ) :
    Option (Except String Unit × BudgetLedger) :=
  match L.outstanding.get reservation.id with
  | none => some (.error "Usage has no outstanding reservation", L)
  | some held =>
    if held.reservation ≠ reservation then
      some (.error "Usage differs from its reserved authority", L)
    else
      let delta := actual - held.observed
      let consumed := min delta held.unspent
      match L.fits delta held.reservation.scopes with
      | none => none
      | some false => some (.error "Observed budget total overflow", { L with overflowed := true })
      | some true =>
        (L.accounts.updateEach (commit delta consumed) held.reservation.scopes).map
          fun accounts =>
            (.ok (), { L with
              accounts := accounts
              outstanding :=
                L.outstanding.insert reservation.id { held with observed := max held.observed actual } })

/-- The highest charge observed for a reservation, 0 when it is not outstanding. -/
def observedChargeExact (L : BudgetLedger) (reservation : Reservation) : ℕ :=
  ((L.outstanding.get reservation.id).map Outstanding.observed).getD 0

/-- Take an amount off the reserved counter, opening the account if needed. -/
def unhold (amount : ℕ) (account : Option Account) : Option Account :=
  let a := account.getD {}
  (subU128 a.reserved amount).map fun reserved => { a with reserved := reserved }

/-- End a reservation: return what it still holds in every scope. -/
def close (L : BudgetLedger) (id : String) (held : Outstanding) : Option BudgetLedger :=
  (L.accounts.updateEach (unhold held.unspent) held.reservation.scopes).map fun accounts =>
    { L with accounts := accounts, outstanding := L.outstanding.erase id }

/-- `charge_exact`: settle a reservation with what was actually spent; an
overrun is committed rather than refused. -/
def chargeExact (L : BudgetLedger) (reservation : Reservation) (actual : ℕ) :
    Option (Except String Unit × BudgetLedger) :=
  if (L.outstanding.get reservation.id).isNone then some (.ok (), L)
  else
    (L.observeChargeExact reservation actual).bind fun
      | (.error e, L') => some (.error e, L')
      | (.ok (), L') =>
        match L'.outstanding.get reservation.id with
        | none => some (.ok (), L')
        | some held => (L'.close reservation.id held).map fun L'' => (.ok (), L'')

/-- `release`: return a reservation that was never spent. -/
def release (L : BudgetLedger) (reservation : Reservation) : Option BudgetLedger :=
  match L.outstanding.get reservation.id with
  | none => some L
  | some held => L.close reservation.id held

end BudgetLedger

end Afactory
