import Mathlib
import Afactory.Runs
import Afactory.Checks
import Afactory.BudgetLaws
import Afactory.TaskBudget
import Afactory.TaskBudgetCounters

/-!
# Capacity owed to verifiers

`protected_after` holds back, at every preparation, the verification reserve less
what verifiers have taken of it, and nothing once no verifier is owed an
Attempt. A verifier is never starved as long as the capacity that is left covers
what is held back. Releasing a prepared verifier Attempt makes it owed again;
when the surplus of the reserve was handed out while nothing was owed, a second
release leaves less than the code then asks for.

* `Guarded`: the capacity left covers what is owed, in the Task's tokens and
  Attempts, in every call and in every token scope;
* `protectedAfter_eq`, `occupiedAfter_eq`, `scopeVerificationAfter_eq`: what the
  checks of a preparation compute, as sums over the accounts it leaves;
* `Guarded.prepare`, `Guarded.begin`, `Guarded.release`, `Guarded.settle`: the four
  operations keep it, a release under its condition;
* `prepare_verifier_not_starved`: over every run that meets the condition.
-/

namespace Afactory

namespace NodeAccount

/-- Verification Attempts still owed to the node. -/
def owed (a : NodeAccount) : ℕ := a.allowance.verificationAttempts - a.used

/-- Verification Attempts the node has taken of its allocation. -/
def covered (a : NodeAccount) : ℕ := min a.used a.allowance.verificationAttempts

theorem covered_add_owed (a : NodeAccount) :
    a.covered + a.owed = a.allowance.verificationAttempts := by
  rw [covered, owed]
  omega

/-- The account with one more prepared Attempt. -/
def prepareOne (a : NodeAccount) : NodeAccount := { a with prepared := a.prepared + 1 }

@[simp] theorem prepareOne_used (a : NodeAccount) : a.prepareOne.used = a.used + 1 := rfl

@[simp] theorem prepareOne_allowance (a : NodeAccount) : a.prepareOne.allowance = a.allowance := rfl

end NodeAccount

namespace TaskBudget

open BudgetLedger (spent)

/-! ## What the accounts owe and hold -/

/-- The verification Attempts still owed. -/
def owed (nodes : OrdMap String NodeAccount) : ℕ := nodes.sum fun _ a => a.owed

/-- The verification Attempts taken of the allocations. -/
def covered (nodes : OrdMap String NodeAccount) : ℕ := nodes.sum fun _ a => a.covered

/-- The tokens of the verification Attempts still owed. -/
def owedTokens (nodes : OrdMap String NodeAccount) : ℕ :=
  nodes.sum fun _ a => a.allowance.tokensPerAttempt * a.owed

/-- The tokens of the verification Attempts taken. -/
def coveredTokens (nodes : OrdMap String NodeAccount) : ℕ :=
  nodes.sum fun _ a => a.allowance.tokensPerAttempt * a.covered

/-- The compiled allocation in Attempts. -/
def allocated (nodes : OrdMap String NodeAccount) : ℕ :=
  nodes.sum fun _ a => a.allowance.verificationAttempts

/-- The compiled allocation in tokens. -/
def allocatedTokens (nodes : OrdMap String NodeAccount) : ℕ :=
  nodes.sum fun _ a => a.allowance.tokensPerAttempt * a.allowance.verificationAttempts

/-- The Attempts a call uses or still owes. -/
def callReserved (nodes : OrdMap String NodeAccount) (scope : String) : ℕ :=
  nodes.sum fun node a =>
    if within node scope then max a.used a.allowance.verificationAttempts else 0

/-- The tokens a scope's members still owe. -/
@[grind =] def scopeOwed (nodes : OrdMap String NodeAccount) (scope : TaskTokenScope) : ℕ :=
  nodes.sum fun node a =>
    if scope.contains node then a.allowance.tokensPerAttempt * a.owed else 0

theorem covered_add_owed (nodes : OrdMap String NodeAccount) :
    covered nodes + owed nodes = allocated nodes := by
  rw [covered, owed, ← OrdMap.sum_add]
  exact OrdMap.sum_congr fun _ a _ => a.covered_add_owed

theorem coveredTokens_add_owedTokens (nodes : OrdMap String NodeAccount) :
    coveredTokens nodes + owedTokens nodes = allocatedTokens nodes := by
  rw [coveredTokens, owedTokens, ← OrdMap.sum_add]
  refine OrdMap.sum_congr fun _ a _ => ?_
  rw [← Nat.mul_add, a.covered_add_owed]

theorem owedTokens_eq_zero {nodes : OrdMap String NodeAccount} (h : owed nodes = 0) :
    owedTokens nodes = 0 := by
  refine OrdMap.sum_eq_zero fun node a ha => ?_
  have := OrdMap.le_sum ha fun _ a => a.owed
  rw [owed] at h
  rw [show a.owed = 0 by omega, Nat.mul_zero]

/-! ## One account changes -/

section Insert

variable {nodes : OrdMap String NodeAccount} {node : String} {a : NodeAccount}

theorem owed_insert (ha : nodes.get node = some a) (a' : NodeAccount) :
    owed (nodes.insert node a') + a.owed = owed nodes + a'.owed :=
  OrdMap.sum_insert_of_some ha a' fun _ a => a.owed

theorem covered_insert (ha : nodes.get node = some a) (a' : NodeAccount) :
    covered (nodes.insert node a') + a.covered = covered nodes + a'.covered :=
  OrdMap.sum_insert_of_some ha a' fun _ a => a.covered

theorem owedTokens_insert (ha : nodes.get node = some a) (a' : NodeAccount) :
    owedTokens (nodes.insert node a') + a.allowance.tokensPerAttempt * a.owed =
      owedTokens nodes + a'.allowance.tokensPerAttempt * a'.owed :=
  OrdMap.sum_insert_of_some ha a' fun _ a => a.allowance.tokensPerAttempt * a.owed

theorem coveredTokens_insert (ha : nodes.get node = some a) (a' : NodeAccount) :
    coveredTokens (nodes.insert node a') + a.allowance.tokensPerAttempt * a.covered =
      coveredTokens nodes + a'.allowance.tokensPerAttempt * a'.covered :=
  OrdMap.sum_insert_of_some ha a' fun _ a => a.allowance.tokensPerAttempt * a.covered

theorem allocated_insert (ha : nodes.get node = some a) (a' : NodeAccount)
    (heq : a'.allowance = a.allowance) :
    allocated (nodes.insert node a') = allocated nodes := by
  have := OrdMap.sum_insert_of_some ha a' fun _ a => a.allowance.verificationAttempts
  rw [heq] at this
  exact Nat.add_right_cancel this

theorem allocatedTokens_insert (ha : nodes.get node = some a) (a' : NodeAccount)
    (heq : a'.allowance = a.allowance) :
    allocatedTokens (nodes.insert node a') = allocatedTokens nodes := by
  have := OrdMap.sum_insert_of_some ha a' fun _ a =>
    a.allowance.tokensPerAttempt * a.allowance.verificationAttempts
  rw [heq] at this
  exact Nat.add_right_cancel this

theorem callReserved_insert (ha : nodes.get node = some a) (a' : NodeAccount) (scope : String) :
    callReserved (nodes.insert node a') scope +
        (if within node scope then max a.used a.allowance.verificationAttempts else 0) =
      callReserved nodes scope +
        if within node scope then max a'.used a'.allowance.verificationAttempts else 0 :=
  OrdMap.sum_insert_of_some ha a' fun node a =>
    if within node scope then max a.used a.allowance.verificationAttempts else 0

theorem scopeOwed_insert (ha : nodes.get node = some a) (a' : NodeAccount)
    (scope : TaskTokenScope) :
    scopeOwed (nodes.insert node a') scope +
        (if scope.contains node then a.allowance.tokensPerAttempt * a.owed else 0) =
      scopeOwed nodes scope +
        if scope.contains node then a'.allowance.tokensPerAttempt * a'.owed else 0 :=
  OrdMap.sum_insert_of_some ha a' fun node a =>
    if scope.contains node then a.allowance.tokensPerAttempt * a.owed else 0

/-- The sum over the accounts once the candidate is prepared, as the loops of the
source compute it: the candidate counted with one more Attempt. -/
theorem sum_prepareOne (ha : nodes.get node = some a) (f : String → NodeAccount → ℕ) :
    nodes.sum (fun n b => f n (if n = node then b.prepareOne else b)) =
      (nodes.insert node a.prepareOne).sum f := by
  have hinsert := OrdMap.sum_insert_of_some ha a.prepareOne f
  have hupdate := OrdMap.sum_update (f := f)
    (g := fun n b => f n (if n = node then b.prepareOne else b)) ha
    fun n b hn _ => by rw [if_neg hn]
  simp only [if_true] at hupdate
  omega

end Insert

/-! ## What the checks compute -/

variable {B B' : TaskBudget}

theorem consumeReserve_eq_ok {node : String} {acc acc' : VerificationReserve × ℕ}
    {entry : String × NodeAccount} (h : consumeReserve node acc entry = .ok acc') :
    let b := if entry.1 = node then entry.2.prepareOne else entry.2
    acc'.1.tokens = acc.1.tokens + b.allowance.tokensPerAttempt * b.covered ∧
      acc'.1.attempts = acc.1.attempts + b.covered ∧ acc'.2 = acc.2 + b.owed := by
  obtain ⟨name, account⟩ := entry
  obtain ⟨consumed, remaining⟩ := acc
  rw [consumeReserve] at h
  simp only [bind_eq_ok, checked_eq_ok, addResource_eq_ok] at h
  obtain ⟨used, ⟨-, rfl⟩, attempts, ⟨-, rfl⟩, product, ⟨-, rfl⟩, tokens, ⟨-, rfl⟩, wall,
    ⟨-, rfl⟩, wallMs, ⟨-, rfl⟩, owed', ⟨-, rfl⟩, h⟩ := h
  cases h
  simp only
  split_ifs with hname
  · refine ⟨rfl, rfl, ?_⟩
    rw [NodeAccount.owed, NodeAccount.prepareOne_used, NodeAccount.prepareOne_allowance]
    omega
  · refine ⟨rfl, rfl, ?_⟩
    rw [NodeAccount.owed]
    omega

/-- What a preparation holds back: nothing once no verifier is owed, else the
reserve less what the verifiers have taken. -/
theorem protectedAfter_eq {node : String} {a : NodeAccount} {reserve : VerificationReserve}
    (hdeferred : B.deferredVerification = false) (ha : B.nodes.get node = some a)
    (h : B.protectedAfter node = .ok reserve) :
    let nodes := B.nodes.insert node a.prepareOne
    (owed nodes = 0 ∧ reserve.tokens = 0 ∧ reserve.attempts = 0) ∨
      (owed nodes ≠ 0 ∧
        reserve.tokens = B.limits.verification.tokens - coveredTokens nodes ∧
        reserve.attempts = B.limits.verification.attempts - covered nodes) := by
  rw [protectedAfter, hdeferred] at h
  simp only [Bool.false_eq_true, if_false, bind_eq_ok] at h
  obtain ⟨⟨consumed, remaining⟩, hfold, h⟩ := h
  have htokens := foldlM_sum (r := fun acc => acc.1.tokens)
    (fun _ _ _ hstep => (consumeReserve_eq_ok hstep).1) hfold
  have hattempts := foldlM_sum (r := fun acc => acc.1.attempts)
    (fun _ _ _ hstep => (consumeReserve_eq_ok hstep).2.1) hfold
  have howed := foldlM_sum (r := fun acc => acc.2)
    (fun _ _ _ hstep => (consumeReserve_eq_ok hstep).2.2) hfold
  simp only [Nat.zero_add] at htokens hattempts howed
  have htokens : consumed.tokens = coveredTokens (B.nodes.insert node a.prepareOne) :=
    htokens.trans (sum_prepareOne ha fun _ b => b.allowance.tokensPerAttempt * b.covered)
  have hattempts : consumed.attempts = covered (B.nodes.insert node a.prepareOne) :=
    hattempts.trans (sum_prepareOne ha fun _ b => b.covered)
  have howed : remaining = owed (B.nodes.insert node a.prepareOne) :=
    howed.trans (sum_prepareOne ha fun _ b => b.owed)
  simp only at h ⊢
  rw [← htokens, ← hattempts, ← howed]
  split_ifs at h with hzero
  · cases h
    exact .inl ⟨hzero, rfl, rfl⟩
  · cases h
    exact .inr ⟨hzero, rfl, rfl⟩

/-- What a call of the candidate is checked for: what its members use or owe. -/
theorem occupiedAfter_eq {node scope : String} {a : NodeAccount}
    (ha : B.nodes.get node = some a) (hwithin : within node scope = true) :
    B.occupiedAfter scope node = callReserved (B.nodes.insert node a.prepareOne) scope := by
  have hsum := sum_prepareOne ha fun n b =>
    if within n scope then max b.used b.allowance.verificationAttempts else 0
  have hupdate := OrdMap.sum_update
    (f := fun n b => if within n scope then
      b.used + (b.allowance.verificationAttempts - (b.used + if n = node then 1 else 0)) else 0)
    (g := fun n b => if within n scope then max (if n = node then b.prepareOne else b).used
      (if n = node then b.prepareOne else b).allowance.verificationAttempts else 0) ha
    fun n b hn _ => by
      simp only [if_neg hn]
      split_ifs <;> omega
  simp only [hwithin, if_true, NodeAccount.prepareOne_used,
    NodeAccount.prepareOne_allowance] at hupdate
  rw [occupiedAfter, callReserved]
  rw [← hsum]
  omega

theorem addScopeOwed_eq_ok {scope : TaskTokenScope} {candidate : Option String}
    {required result : ℕ} {entry : String × NodeAccount}
    (h : addScopeOwed scope candidate required entry = .ok result) :
    result = required + if scope.contains entry.1 then entry.2.allowance.tokensPerAttempt *
      (entry.2.allowance.verificationAttempts -
        (entry.2.used + if candidate = some entry.1 then 1 else 0)) else 0 := by
  obtain ⟨n, b⟩ := entry
  rw [addScopeOwed] at h
  simp only at h ⊢
  by_cases hscope : scope.contains n = true
  · rw [if_pos hscope] at h ⊢
    simp only [bind_eq_ok, checked_eq_ok, addResource_eq_ok] at h
    obtain ⟨product, ⟨-, rfl⟩, -, rfl⟩ := h
    rfl
  · rw [if_neg hscope] at h ⊢
    cases h
    rfl

theorem scopeVerificationAfter_sum {scope : TaskTokenScope} {candidate : Option String}
    {required : ℕ} (h : B.scopeVerificationAfter scope candidate = .ok required) :
    required = B.nodes.sum fun n b => if scope.contains n then b.allowance.tokensPerAttempt *
      (b.allowance.verificationAttempts -
        (b.used + if candidate = some n then 1 else 0)) else 0 := by
  have hsum := foldlM_sum (r := fun n => n) (fun _ _ _ hstep => addScopeOwed_eq_ok hstep) h
  rw [Nat.zero_add] at hsum
  exact hsum

/-- What a token scope of the candidate holds back. -/
theorem scopeVerificationAfter_eq {node : String} {scope : TaskTokenScope} {a : NodeAccount}
    {required : ℕ} (ha : B.nodes.get node = some a)
    (h : B.scopeVerificationAfter scope (some node) = .ok required) :
    required = scopeOwed (B.nodes.insert node a.prepareOne) scope := by
  rw [scopeVerificationAfter_sum h, scopeOwed, ← sum_prepareOne ha]
  refine OrdMap.sum_congr fun n b _ => ?_
  by_cases hnode : n = node
  · simp [hnode, NodeAccount.owed]
  · simp [hnode, NodeAccount.owed, Ne.symm hnode]

/-- What a token scope holds back before any candidate. -/
theorem scopeVerificationAfter_none {scope : TaskTokenScope} {required : ℕ}
    (h : B.scopeVerificationAfter scope none = .ok required) :
    required = scopeOwed B.nodes scope := by
  rw [scopeVerificationAfter_sum h, scopeOwed]
  refine OrdMap.sum_congr fun n b _ => ?_
  simp [NodeAccount.owed]

/-! ## The invariant -/

/-- The scopes a node's reservations are held in. -/
def scopesHeld (B : TaskBudget) (node : String) : List BudgetScope :=
  BudgetLedger.scopeSet ((B.scopesOf node).map (fun e => .fanOut e.1) ++ [.run])

/-- A live reservation is outstanding, unspent, for its node's tokens and scopes. -/
structure HeldAs (B : TaskBudget) (id : String) (h : Held) : Prop where
  outstanding : B.tokens.outstanding.get id = some ⟨h.tokens, 0⟩
  id_eq : h.tokens.id = id
  amount : ∀ {a}, B.nodes.get h.given.node = some a →
    h.tokens.amount = a.allowance.tokensPerAttempt
  scopes : h.tokens.scopes = B.scopesHeld h.given.node

/-- A token scope is limited and covers what its members owe. -/
structure ScopeGuarded (B : TaskBudget) (name : String) (scope : TaskTokenScope) : Prop where
  limit : (B.tokens.account (.fanOut name)).limit = some scope.tokens
  bounded : scope.tokens < u128Bound
  room : spent B.tokens (.fanOut name) + scopeOwed B.nodes scope ≤ scope.tokens

/-- The capacity that is left covers what is owed to verifiers; while two or
more Attempts are owed it covers the whole reserve not yet taken. -/
structure Guarded (B : TaskBudget) : Prop where
  inv : B.Inv
  bounded : B.limits.tokens < u128Bound
  deferred : B.deferredVerification = true → ∀ {n a}, B.nodes.get n = some a →
    a.allowance.verificationAttempts = 0
  minTokens : allocatedTokens B.nodes ≤ B.limits.verification.tokens
  minAttempts : allocated B.nodes ≤ B.limits.verification.attempts
  tokens : spent B.tokens .run + owedTokens B.nodes ≤ B.limits.tokens
  attempts : B.usedAttempts + owed B.nodes ≤ B.limits.maxAttempts
  reserve : owed B.nodes ≤ 1 ∨
    (spent B.tokens .run + B.limits.verification.tokens ≤
      B.limits.tokens + coveredTokens B.nodes ∧
    B.usedAttempts + B.limits.verification.attempts ≤ B.limits.maxAttempts + covered B.nodes)
  calls : ∀ {scope limit}, B.callLimits.get scope = some limit →
    callReserved B.nodes scope ≤ limit
  scopes : ∀ {name scope}, B.tokenScopes.get name = some scope → ScopeGuarded B name scope
  held : ∀ {id h}, B.reservations.get id = some h → h.pending = true → HeldAs B id h

/-- The tokens a limited scope may still reserve, while admission is open. -/
theorem remaining_eq {L : BudgetLedger} {scope : BudgetScope} {limit : ℕ}
    (hopen : L.overflowed = false) (hlimit : (L.account scope).limit = some limit)
    (hle : spent L scope ≤ limit) (hbound : limit < u128Bound) :
    (L.remaining scope).getD 0 = limit - spent L scope := by
  cases hget : L.accounts.get scope with
  | none =>
    rw [BudgetLedger.account, hget] at hlimit
    cases hlimit
  | some account =>
    have haccount := BudgetLedger.account_eq hget
    rw [haccount] at hlimit
    have hspent : spent L scope = account.committed + account.reserved := by
      rw [spent, BudgetLedger.committed, BudgetLedger.reserved, haccount]
    rw [hspent] at hle ⊢
    have hadd : addU128 account.committed account.reserved =
        some (account.committed + account.reserved) :=
      addU128_eq_some.mpr ⟨lt_of_le_of_lt hle hbound, rfl⟩
    simp [BudgetLedger.remaining, hget, hlimit, hopen, hadd]

theorem Guarded.remainingTokens_eq (h : B.Guarded) (hopen : B.breached = false) :
    B.remainingTokens = B.limits.tokens - spent B.tokens .run := by
  have hover : B.tokens.overflowed = false := by
    cases hflag : B.tokens.overflowed with
    | false => rfl
    | true =>
      rw [h.inv.closed hflag] at hopen
      cases hopen
  exact remaining_eq hover h.inv.limited ((Nat.le_add_right _ _).trans h.tokens) h.bounded

theorem run_mem_scopesHeld (B : TaskBudget) (node : String) : .run ∈ B.scopesHeld node := by
  rw [scopesHeld, BudgetLedger.mem_scopeSet]
  simp

theorem fanOut_mem_scopesHeld {name : String} {scope : TaskTokenScope}
    (hscope : B.tokenScopes.get name = some scope) (node : String) :
    .fanOut name ∈ B.scopesHeld node ↔ scope.contains node = true := by
  rw [scopesHeld, BudgetLedger.mem_scopeSet, List.mem_append, scopesOf]
  constructor
  · rintro (hmem | hmem)
    · obtain ⟨e, he, heq⟩ := List.mem_map.mp hmem
      cases heq
      rw [List.mem_filter] at he
      have hget := OrdMap.mem_iff_get.mp he.1
      rw [hscope] at hget
      cases hget
      exact he.2
    · simp at hmem
  · intro hcontains
    refine .inl (List.mem_map.mpr ⟨(name, scope), List.mem_filter.mpr ⟨?_, hcontains⟩, rfl⟩)
    exact OrdMap.mem_iff_get.mpr hscope

/-! ## Preparing keeps the capacity -/

theorem checkTokens_eq_ok {tokens held : ℕ} (h : B.checkTokens tokens held = .ok ()) :
    tokens + held ≤ B.remainingTokens := by
  rw [checkTokens, bind_eq_ok] at h
  obtain ⟨needed, hneeded, h⟩ := h
  obtain ⟨-, rfl⟩ := addResource_eq_ok.mp hneeded
  split_ifs at h with hlt
  exact not_lt.mp hlt

theorem checkScope_eq_ok {node name : String} {scope : TaskTokenScope} {a : NodeAccount}
    {tokens : ℕ} (ha : B.nodes.get node = some a)
    (h : B.checkScope node tokens (name, scope) = .ok ()) :
    tokens + scopeOwed (B.nodes.insert node a.prepareOne) scope ≤
      (B.tokens.remaining (.fanOut name)).getD 0 := by
  rw [checkScope, bind_eq_ok] at h
  obtain ⟨owed', howed, h⟩ := h
  rw [bind_eq_ok] at h
  obtain ⟨needed, hneeded, h⟩ := h
  obtain ⟨-, rfl⟩ := addResource_eq_ok.mp hneeded
  rw [scopeVerificationAfter_eq ha howed] at h
  split_ifs at h with hlt
  exact not_lt.mp hlt

theorem mem_scopesOf {node name : String} {scope : TaskTokenScope}
    (hscope : B.tokenScopes.get name = some scope) (hcontains : scope.contains node = true) :
    (name, scope) ∈ B.scopesOf node :=
  List.mem_filter.mpr ⟨OrdMap.mem_iff_get.mpr hscope, hcontains⟩

theorem Guarded.overflowed (h : B.Guarded) (hopen : B.breached = false) :
    B.tokens.overflowed = false := by
  cases hflag : B.tokens.overflowed with
  | false => rfl
  | true =>
    rw [h.inv.closed hflag] at hopen
    cases hopen

/-- Before a graph that verifies is known, nothing is owed. -/
theorem owed_of_deferred {nodes : OrdMap String NodeAccount}
    (h : ∀ {n a}, nodes.get n = some a → a.allowance.verificationAttempts = 0) :
    owed nodes = 0 := by
  refine OrdMap.sum_eq_zero fun n a ha => ?_
  rw [NodeAccount.owed, h ha, Nat.zero_sub]

/-- The capacity left after a preparation covers what is then owed. -/
theorem Guarded.admits (h : B.Guarded) (hopen : B.breached = false) {node : String}
    {account : NodeAccount} {scopes : List BudgetScope} {reserve : VerificationReserve}
    (hadmits : Admits B node account scopes reserve) :
    let nodes := B.nodes.insert node account.prepareOne
    spent B.tokens .run + account.allowance.tokensPerAttempt + owedTokens nodes ≤
        B.limits.tokens ∧
      B.usedAttempts + 1 + owed nodes ≤ B.limits.maxAttempts ∧
      (owed nodes ≤ 1 ∨
        (spent B.tokens .run + account.allowance.tokensPerAttempt +
          B.limits.verification.tokens ≤ B.limits.tokens + coveredTokens nodes ∧
        B.usedAttempts + 1 + B.limits.verification.attempts ≤
          B.limits.maxAttempts + covered nodes)) := by
  have ha := hadmits.account_eq
  have htokens := checkTokens_eq_ok hadmits.tokens
  have hattempts := hadmits.attempts
  have hspent := h.tokens
  rw [h.remainingTokens_eq hopen] at htokens
  have hmin := h.minTokens
  have hminA := h.minAttempts
  rw [← allocatedTokens_insert ha account.prepareOne rfl,
    ← coveredTokens_add_owedTokens] at hmin
  rw [← allocated_insert ha account.prepareOne rfl, ← covered_add_owed] at hminA
  simp only
  cases hdeferred : B.deferredVerification with
  | true =>
    have hzero : owed (B.nodes.insert node account.prepareOne) = 0 := by
      refine owed_of_deferred fun {n a} hn => ?_
      rw [OrdMap.get_insert] at hn
      split_ifs at hn
      · cases hn
        have hnone := h.deferred hdeferred ha
        exact hnone
      · exact h.deferred hdeferred hn
    have hzeroT := owedTokens_eq_zero hzero
    omega
  | false =>
    rcases protectedAfter_eq hdeferred ha hadmits.reserve_eq with
      ⟨hzero, htok, hatt⟩ | ⟨hpos, htok, hatt⟩
    · have hzeroT := owedTokens_eq_zero hzero
      omega
    · omega

theorem Guarded.withReservation (h : B.Guarded) (hopen : B.breached = false) {node : String}
    {account : NodeAccount} {scopes : List BudgetScope} {reserve : VerificationReserve}
    (hadmits : Admits B node account scopes reserve) {r : Reservation} {tokens : BudgetLedger}
    (hr : BudgetLedger.Reserves B.tokens r tokens)
    (hamount : r.amount = account.allowance.tokensPerAttempt)
    (hscopes : r.scopes = BudgetLedger.scopeSet scopes) (deadline now : ℕ) :
    (B.withReservation account tokens r ⟨r.id, node, r.amount, deadline⟩ now).Guarded := by
  have ha := hadmits.account_eq
  obtain ⟨htok, hatt, hres⟩ := h.admits hopen hadmits
  obtain ⟨hlist, hchecks⟩ := reservationScopes_eq_ok hadmits.scopes_eq
  have hheld : r.scopes = B.scopesHeld node := by rw [hscopes, hlist, scopesHeld]
  have hrun : spent tokens .run =
      spent B.tokens .run + account.allowance.tokensPerAttempt := by
    rw [hr.spent, if_pos (by rw [hheld]; exact run_mem_scopesHeld B node), hamount]
  have hused : (B.withReservation account tokens r ⟨r.id, node, r.amount, deadline⟩
      now).usedAttempts = B.usedAttempts + 1 := by
    have := usedAttempts_insert (B.withReservation account tokens r
      ⟨r.id, node, r.amount, deadline⟩ now) ha rfl rfl
    have hone : ({ account with prepared := account.prepared + 1 } : NodeAccount).used =
      account.used + 1 := rfl
    omega
  have hallowance : ∀ {n b}, (B.nodes.insert node account.prepareOne).get n = some b →
      ∃ b', B.nodes.get n = some b' ∧ b.allowance = b'.allowance := by
    intro n b hb
    rw [OrdMap.get_insert] at hb
    split_ifs at hb with heq
    · cases hb
      exact ⟨account, heq ▸ ha, rfl⟩
    · exact ⟨b, hb, rfl⟩
  refine ⟨h.inv.withReservation hadmits hr deadline now, h.bounded, ?_, ?_, ?_, ?_, ?_, ?_, ?_, ?_,
    ?_⟩
  · intro hdeferred n b hb
    obtain ⟨b', hb', heq⟩ := hallowance hb
    rw [heq]
    exact h.deferred hdeferred hb'
  · exact (le_of_eq (allocatedTokens_insert ha account.prepareOne rfl)).trans h.minTokens
  · exact (le_of_eq (allocated_insert ha account.prepareOne rfl)).trans h.minAttempts
  · change spent tokens .run + _ ≤ B.limits.tokens
    rw [hrun]
    exact htok
  · rw [hused]
    exact hatt
  · rw [hused]
    change _ ∨ (spent tokens .run + _ ≤ _ ∧ _)
    rw [hrun]
    exact hres
  · intro scope limit hlimit
    change callReserved (B.nodes.insert node account.prepareOne) scope ≤ limit
    cases hwithin : within node scope with
    | true =>
      rw [← occupiedAfter_eq ha hwithin]
      exact checkCall_eq_ok (hadmits.calls _ (OrdMap.mem_iff_get.mpr hlimit)) hwithin
    | false =>
      have hsame := callReserved_insert ha account.prepareOne scope
      rw [hwithin] at hsame
      simp only [Bool.false_eq_true, if_false, Nat.add_zero] at hsame
      rw [hsame]
      exact h.calls hlimit
  · intro name scope hscope
    obtain ⟨hlimit, hbounded, hroom⟩ := h.scopes hscope
    refine ⟨(hr.accounts.limit (fun _ => rfl) _).trans hlimit, hbounded, ?_⟩
    change spent tokens (.fanOut name) + scopeOwed (B.nodes.insert node account.prepareOne) scope ≤
      scope.tokens
    have hspent := hr.spent (.fanOut name)
    cases hcontains : scope.contains node with
    | true =>
      have hcheck := checkScope_eq_ok ha (hchecks _ (mem_scopesOf hscope hcontains))
      rw [remaining_eq (h.overflowed hopen) hlimit (by omega) hbounded] at hcheck
      rw [if_pos (by rw [hheld]; exact (fanOut_mem_scopesHeld hscope node).mpr hcontains),
        hamount] at hspent
      omega
    | false =>
      have hnot : .fanOut name ∉ r.scopes := by
        rw [hheld]
        intro hmem
        rw [(fanOut_mem_scopesHeld hscope node).mp hmem] at hcontains
        cases hcontains
      have howed := scopeOwed_insert ha account.prepareOne scope
      rw [hcontains] at howed
      simp only [Bool.false_eq_true, if_false, Nat.add_zero] at howed
      rw [if_neg hnot] at hspent
      omega
  · intro id held hid hp
    have hfresh : ∀ {id held}, B.reservations.get id = some held → id ≠ r.id := by
      intro id held hid heq
      obtain ⟨n, hn, hid'⟩ := h.inv.known hid
      have := reservationId_injective (hr.id_eq.symm.trans (heq.symm.trans hid'))
      omega
    change (B.reservations.insert r.id _).get id = some held at hid
    rw [OrdMap.get_insert] at hid
    split_ifs at hid with heq
    · cases hid
      refine ⟨?_, heq.symm, ?_, hheld⟩
      · change tokens.outstanding.get id = _
        rw [hr.outstanding, heq, OrdMap.get_insert_self]
      · intro b hb
        obtain ⟨b', hb', hallow⟩ := hallowance hb
        rw [ha] at hb'
        cases hb'
        rw [hallow]
        exact hamount
    · obtain ⟨hout, hid', hamount', hscopes'⟩ := h.held hid hp
      refine ⟨?_, hid', ?_, hscopes'⟩
      · change tokens.outstanding.get id = _
        rw [hr.outstanding, OrdMap.get_insert_ne _ _ heq]
        exact hout
      · intro b hb
        obtain ⟨b', hb', hallow⟩ := hallowance hb
        rw [hallow]
        exact hamount' hb'

/-! ## Starting, releasing and settling keep the capacity -/

/-- What an operation on one reservation leaves as it was. -/
structure SameGraph (B B' : TaskBudget) : Prop where
  limits : B'.limits = B.limits
  calls : B'.callLimits = B.callLimits
  scopes : B'.tokenScopes = B.tokenScopes
  deferred : B'.deferredVerification = B.deferredVerification
  limit : ∀ s, (B'.tokens.account s).limit = (B.tokens.account s).limit

/-- A reservation other than the one an operation is about stays outstanding. -/
def KeepsOthers (B B' : TaskBudget) (id : String) : Prop :=
  ∀ {id' out}, id' ≠ id → B.tokens.outstanding.get id' = some out →
    B'.tokens.outstanding.get id' = some out

theorem HeldAs.of_sameGraph {id : String} {held : Held} (h : B.HeldAs id held)
    (hgraph : SameGraph B B')
    (hallow : ∀ {n b}, B'.nodes.get n = some b →
      ∃ b', B.nodes.get n = some b' ∧ b.allowance = b'.allowance)
    (hout : B'.tokens.outstanding.get id = some ⟨held.tokens, 0⟩) : B'.HeldAs id held := by
  refine ⟨hout, h.id_eq, ?_, ?_⟩
  · intro b hb
    obtain ⟨b', hb', heq⟩ := hallow hb
    rw [heq]
    exact h.amount hb'
  · rw [h.scopes, scopesHeld, scopesHeld, scopesOf, scopesOf, hgraph.scopes]

/-- One reservation gives back Attempts of its node; its scopes give back the
tokens of what is owed again. -/
theorem Guarded.giveBack (h : B.Guarded) (hinv : B'.Inv) (hgraph : SameGraph B B')
    {id node : String} {held held' : Held} {a a' : NodeAccount}
    (ha : B.nodes.get node = some a) (hnodes : B'.nodes = B.nodes.insert node a')
    (hretired : B'.retiredAttempts = B.retiredAttempts)
    (hallow : a'.allowance = a.allowance) (hless : a'.used ≤ a.used)
    (hspent : ∀ s, spent B'.tokens s + (if s ∈ B.scopesHeld node then
      a.allowance.tokensPerAttempt * (a'.owed - a.owed) else 0) ≤ spent B.tokens s)
    (hreserve : owed B'.nodes ≤ 1 ∨
      (spent B'.tokens .run + B.limits.verification.tokens ≤
        B.limits.tokens + coveredTokens B'.nodes ∧
      B'.usedAttempts + B.limits.verification.attempts ≤
        B.limits.maxAttempts + covered B'.nodes))
    (hid : B.reservations.get id = some held)
    (hres : B'.reservations = B.reservations.insert id held')
    (hothers : KeepsOthers B B' id)
    (hself : held'.pending = true → held.pending = true ∧ held'.given = held.given ∧
      held'.tokens = held.tokens ∧ B'.tokens.outstanding.get id = some ⟨held.tokens, 0⟩) :
    B'.Guarded := by
  have howedge : a.owed ≤ a'.owed := by
    rw [NodeAccount.owed, NodeAccount.owed, hallow]
    omega
  have hmul : a.allowance.tokensPerAttempt * a'.owed = a.allowance.tokensPerAttempt * a.owed +
      a.allowance.tokensPerAttempt * (a'.owed - a.owed) := by
    rw [← Nat.mul_add, Nat.add_sub_cancel' howedge]
  have hallowance : ∀ {n b}, B'.nodes.get n = some b →
      ∃ b', B.nodes.get n = some b' ∧ b.allowance = b'.allowance := by
    intro n b hb
    rw [hnodes, OrdMap.get_insert] at hb
    split_ifs at hb with heq
    · cases hb
      exact ⟨a, heq ▸ ha, hallow⟩
    · exact ⟨b, hb, rfl⟩
  refine ⟨hinv, ?_, ?_, ?_, ?_, ?_, ?_, ?_, ?_, ?_, ?_⟩
  · rw [hgraph.limits]
    exact h.bounded
  · intro hdeferred n b hb
    rw [hgraph.deferred] at hdeferred
    obtain ⟨b', hb', heq⟩ := hallowance hb
    rw [heq]
    exact h.deferred hdeferred hb'
  · rw [hgraph.limits, hnodes, allocatedTokens_insert ha a' hallow]
    exact h.minTokens
  · rw [hgraph.limits, hnodes, allocated_insert ha a' hallow]
    exact h.minAttempts
  · have howed := owedTokens_insert ha a'
    have hrun := hspent .run
    have htokens := h.tokens
    rw [if_pos (run_mem_scopesHeld B node)] at hrun
    rw [hallow, hmul] at howed
    rw [hgraph.limits, hnodes]
    omega
  · have hused := usedAttempts_insert B' ha hnodes hretired
    have howed := owed_insert ha a'
    have hattempts := h.attempts
    have hmax : a'.used + a'.owed ≤ a.used + a.owed := by
      rw [NodeAccount.owed, NodeAccount.owed, hallow]
      omega
    rw [hgraph.limits, hnodes]
    omega
  · rw [hgraph.limits]
    exact hreserve
  · intro scope limit hlimit
    rw [hgraph.calls] at hlimit
    have hcall := h.calls hlimit
    have hinsert := callReserved_insert ha a' scope
    rw [hallow] at hinsert
    rw [hnodes]
    split_ifs at hinsert <;> omega
  · intro name scope hscope
    rw [hgraph.scopes] at hscope
    obtain ⟨hlimit, hbounded, hroom⟩ := h.scopes hscope
    refine ⟨(hgraph.limit _).trans hlimit, hbounded, ?_⟩
    have howed := scopeOwed_insert ha a' scope
    have hscopeSpent := hspent (.fanOut name)
    rw [hallow, hmul] at howed
    rw [hnodes]
    cases hcontains : scope.contains node with
    | true =>
      rw [if_pos ((fanOut_mem_scopesHeld hscope node).mpr hcontains)] at hscopeSpent
      rw [hcontains] at howed
      simp only [if_true] at howed
      omega
    | false =>
      rw [hcontains] at howed
      simp only [Bool.false_eq_true, if_false] at howed
      omega
  · intro id' h' hid' hp
    rw [hres, OrdMap.get_insert] at hid'
    split_ifs at hid' with heq
    · cases hid'
      cases heq
      obtain ⟨hwas, hgiven, htokens, hout⟩ := hself hp
      have hheld := (h.held hid hwas).of_sameGraph hgraph hallowance hout
      refine ⟨?_, ?_, ?_, ?_⟩
      · rw [htokens]
        exact hout
      · rw [htokens]
        exact hheld.id_eq
      · intro b hb
        rw [hgiven] at hb
        rw [htokens]
        exact hheld.amount hb
      · rw [htokens, hgiven]
        exact hheld.scopes
    · have hheld := h.held hid' hp
      exact hheld.of_sameGraph hgraph hallowance (hothers heq hheld.outstanding)

theorem Guarded.begin (h : B.Guarded) {id : String} {held : Held} {a : NodeAccount}
    (hid : B.reservations.get id = some held) (hp : held.pending = true)
    (hbegun : held.begun = false) (ha : B.nodes.get held.given.node = some a)
    (hpos : 0 < a.prepared) (now : ℕ) :
    ({ B with
      nodes := B.nodes.insert held.given.node
        { a with prepared := a.prepared - 1, begun := a.begun + 1 }
      reservations := B.reservations.insert id { held with begun := true }
      lastTime := now } : TaskBudget).Guarded := by
  have hused : ({ a with prepared := a.prepared - 1, begun := a.begun + 1 } : NodeAccount).used =
      a.used := by
    have := h.inv.begun_ge ha
    simp only [NodeAccount.used, NodeAccount.chargeable]
    omega
  have howed : ({ a with prepared := a.prepared - 1, begun := a.begun + 1 } : NodeAccount).owed =
      a.owed := by
    rw [NodeAccount.owed, hused, NodeAccount.owed]
  have hcovered : ({ a with prepared := a.prepared - 1, begun := a.begun + 1 } :
      NodeAccount).covered = a.covered := by
    rw [NodeAccount.covered, hused, NodeAccount.covered]
  refine h.giveBack (h.inv.begin hid hp hbegun ha hpos now) ⟨rfl, rfl, rfl, rfl, fun _ => rfl⟩ ha rfl
    rfl rfl (le_of_eq hused) ?_ ?_ hid rfl (fun _ hout => hout) ?_
  · intro s
    rw [howed, Nat.sub_self, Nat.mul_zero, ite_self]
    exact le_rfl
  · have h₁ := owed_insert ha { a with prepared := a.prepared - 1, begun := a.begun + 1 }
    have h₂ := covered_insert ha { a with prepared := a.prepared - 1, begun := a.begun + 1 }
    have h₃ := coveredTokens_insert ha { a with prepared := a.prepared - 1, begun := a.begun + 1 }
    have h₄ := usedAttempts_insert { B with
      nodes := B.nodes.insert held.given.node
        { a with prepared := a.prepared - 1, begun := a.begun + 1 }
      reservations := B.reservations.insert id { held with begun := true }
      lastTime := now } ha rfl rfl
    rw [howed] at h₁
    rw [hcovered] at h₂ h₃
    rw [hused] at h₄
    rw [Nat.add_right_cancel h₁, Nat.add_right_cancel h₂, Nat.add_right_cancel h₃,
      Nat.add_right_cancel h₄]
    exact h.reserve
  · intro _
    exact ⟨hp, rfl, rfl, (h.held hid hp).outstanding⟩

/-- The whole reserve not yet taken still fits, in the Task's tokens and Attempts. -/
def ReserveFits (B : TaskBudget) : Prop :=
  spent B.tokens .run + B.limits.verification.tokens ≤
      B.limits.tokens + coveredTokens B.nodes ∧
    B.usedAttempts + B.limits.verification.attempts ≤ B.limits.maxAttempts + covered B.nodes

instance : Decidable B.ReserveFits := inferInstanceAs (Decidable (_ ∧ _))

/-- The release of an Attempt its node's allocation counts is made only while
nothing is owed to verifiers, or while the reserve not yet taken still fits. -/
def ReleaseKeeps (B : TaskBudget) (id : String) : Prop :=
  ∀ held a, B.reservations.get id = some held → held.pending = true → held.begun = false →
    B.nodes.get held.given.node = some a → a.used ≤ a.allowance.verificationAttempts →
    owed B.nodes = 0 ∨ B.ReserveFits

theorem closes_keepsOthers {id : String} {held : Outstanding} {tokens : BudgetLedger}
    (hc : BudgetLedger.Closes B.tokens id held tokens) (htokens : B'.tokens = tokens) :
    KeepsOthers B B' id := by
  intro id' out hne hout
  rw [htokens, hc.outstanding, OrdMap.get_erase, if_neg hne]
  exact hout

theorem Guarded.release (h : B.Guarded) {id : String} {held : Held} {a : NodeAccount}
    {tokens : BudgetLedger} (hid : B.reservations.get id = some held)
    (hp : held.pending = true) (hbegun : held.begun = false)
    (ha : B.nodes.get held.given.node = some a) (hpos : 0 < a.prepared)
    (htokens : B.tokens.release held.tokens = some tokens) (hkeeps : B.ReleaseKeeps id) :
    ({ B with
      tokens := tokens
      nodes := B.nodes.insert held.given.node { a with prepared := a.prepared - 1 }
      reservations := B.reservations.insert id { held with released := true } } :
        TaskBudget).Guarded := by
  have hheld := h.held hid hp
  have hout : B.tokens.outstanding.get held.tokens.id = some ⟨held.tokens, 0⟩ := by
    rw [hheld.id_eq]
    exact hheld.outstanding
  obtain ⟨out, hclose⟩ : ∃ out, out = (⟨held.tokens, 0⟩ : Outstanding) ∧
      BudgetLedger.Closes B.tokens id out tokens := by
    rcases h.inv.sound.release_cases held.tokens with ⟨hnone, -⟩ | ⟨out, L', hsome, hc, hok⟩
    · rw [hnone] at hout
      cases hout
    · obtain rfl := Option.some.inj (hok.symm.trans htokens)
      rw [hheld.id_eq] at hc
      exact ⟨out, Option.some.inj (hsome.symm.trans hout), hc⟩
  obtain ⟨rfl, hc⟩ := hclose
  have hspent := h.inv.sound.closes_spent hheld.outstanding hc
  simp only [Outstanding.unspent, Nat.sub_zero, hheld.amount ha, hheld.scopes] at hspent
  have hused : ({ a with prepared := a.prepared - 1 } : NodeAccount).used + 1 = a.used := by
    simp only [NodeAccount.used, NodeAccount.chargeable]
    omega
  have howed : ({ a with prepared := a.prepared - 1 } : NodeAccount).owed =
      a.owed + if a.used ≤ a.allowance.verificationAttempts then 1 else 0 := by
    simp only [NodeAccount.owed]
    split_ifs <;> omega
  have hcovered : ({ a with prepared := a.prepared - 1 } : NodeAccount).covered +
      (if a.used ≤ a.allowance.verificationAttempts then 1 else 0) = a.covered := by
    simp only [NodeAccount.covered]
    split_ifs <;> omega
  refine h.giveBack (h.inv.release hid hp hbegun ha hpos htokens)
    ⟨rfl, rfl, rfl, rfl, fun s => hc.accounts.limit (fun _ => rfl) s⟩ ha rfl rfl rfl
    (by omega) ?_ ?_ hid rfl (closes_keepsOthers hc rfl) ?_
  · intro s
    have hs := hspent s
    rw [howed, Nat.add_sub_cancel_left]
    change spent tokens s + _ ≤ _
    split_ifs at hs ⊢ with hmem hcounted
    · omega
    · omega
    · omega
  · have h₁ := owed_insert ha { a with prepared := a.prepared - 1 }
    have h₂ := covered_insert ha { a with prepared := a.prepared - 1 }
    have h₃ := coveredTokens_insert ha { a with prepared := a.prepared - 1 }
    have h₄ := usedAttempts_insert { B with
      tokens := tokens
      nodes := B.nodes.insert held.given.node { a with prepared := a.prepared - 1 }
      reservations := B.reservations.insert id { held with released := true } } ha rfl rfl
    have hrun := hspent .run
    rw [if_pos (run_mem_scopesHeld B _)] at hrun
    rw [← hcovered, Nat.mul_add] at h₃
    rw [howed] at h₁
    simp only at h₁ h₂ h₃ h₄ ⊢
    by_cases hcounted : a.used ≤ a.allowance.verificationAttempts
    · rw [if_pos hcounted] at h₁ h₃ hcovered
      rcases hkeeps held a hid hp hbegun ha hcounted with hzero | ⟨htok, hatt⟩
      · left
        omega
      · right
        constructor
        · omega
        · omega
    · rw [if_neg hcounted] at h₁ h₃ hcovered
      rcases h.reserve with hfew | ⟨htok, hatt⟩
      · left
        omega
      · right
        constructor
        · omega
        · omega
  · intro hpending
    simp [Held.pending] at hpending

/-- Tokens settle or admission closes: no account of the graph changes, and no
scope spends more. -/
theorem Guarded.spendLess (h : B.Guarded) (hinv : B'.Inv) (hgraph : SameGraph B B')
    (hnodes : B'.nodes = B.nodes) (hretired : B'.retiredAttempts = B.retiredAttempts)
    (hspent : ∀ s, spent B'.tokens s ≤ spent B.tokens s)
    (hheld : ∀ {id held}, B'.reservations.get id = some held → held.pending = true →
      B.reservations.get id = some held ∧
        B'.tokens.outstanding.get id = some ⟨held.tokens, 0⟩) : B'.Guarded := by
  have hused : B'.usedAttempts = B.usedAttempts := by
    rw [usedAttempts, usedAttempts, hnodes, hretired]
  have hrun := hspent .run
  refine ⟨hinv, ?_, ?_, ?_, ?_, ?_, ?_, ?_, ?_, ?_, ?_⟩
  · rw [hgraph.limits]
    exact h.bounded
  · rw [hgraph.deferred, hnodes]
    exact h.deferred
  · rw [hgraph.limits, hnodes]
    exact h.minTokens
  · rw [hgraph.limits, hnodes]
    exact h.minAttempts
  · have := h.tokens
    rw [hgraph.limits, hnodes]
    omega
  · rw [hgraph.limits, hnodes, hused]
    exact h.attempts
  · rw [hgraph.limits, hnodes, hused]
    rcases h.reserve with hfew | ⟨htok, hatt⟩
    · exact .inl hfew
    · exact .inr ⟨by omega, hatt⟩
  · rw [hgraph.calls, hnodes]
    exact h.calls
  · intro name scope hscope
    rw [hgraph.scopes] at hscope
    obtain ⟨hlimit, hbounded, hroom⟩ := h.scopes hscope
    refine ⟨(hgraph.limit _).trans hlimit, hbounded, ?_⟩
    have := hspent (.fanOut name)
    rw [hnodes]
    omega
  · intro id held hid hp
    obtain ⟨hwas, hout⟩ := hheld hid hp
    refine (h.held hwas hp).of_sameGraph hgraph (fun {n b} hb => ?_) hout
    rw [hnodes] at hb
    exact ⟨b, hb, rfl⟩

theorem Guarded.settle (h : B.Guarded) {id : String} {held : Held} {tokens : BudgetLedger}
    {actual : ℕ} (hid : B.reservations.get id = some held) (hp : held.pending = true)
    (hbegun : held.begun = true)
    (hcharge : B.tokens.chargeExact held.tokens actual = some (.ok (), tokens))
    (hcarries : BudgetLedger.Carries B.tokens tokens)
    (hover : tokens.overflowed = B.tokens.overflowed) (hwithin : actual ≤ held.tokens.amount)
    (overrun : Bool) :
    ({ B with
      tokens := tokens
      breached := B.breached || overrun
      reservations := B.reservations.insert id { held with settled := some actual } } :
        TaskBudget).Guarded := by
  have hheld := h.held hid hp
  have hout : B.tokens.outstanding.get held.tokens.id = some ⟨held.tokens, 0⟩ := by
    rw [hheld.id_eq]
    exact hheld.outstanding
  rcases h.inv.sound.chargeExact_cases held.tokens actual with
    ⟨hnone, -⟩ | ⟨e, he⟩ | ⟨e, he⟩ | ⟨out, L₁, L₂, hsome, heq, ho, hc, hok⟩
  · rw [hnone] at hout
    cases hout
  · rw [he] at hcharge
    cases hcharge
  · rw [he] at hcharge
    cases hcharge
  · rw [hok] at hcharge
    cases hcharge
    obtain rfl : out = ⟨held.tokens, 0⟩ := Option.some.inj (hsome.symm.trans hout)
    have hsound₁ := h.inv.sound.observes hsome ho
    have hid₁ : L₁.outstanding.get held.tokens.id =
        some { (⟨held.tokens, 0⟩ : Outstanding) with observed := max 0 actual } := by
      rw [ho.outstanding, OrdMap.get_insert_self]
    refine h.spendLess (h.inv.settle hid hp hbegun hcarries hover overrun _)
      ⟨rfl, rfl, rfl, rfl, fun s => ?_⟩ rfl rfl (fun s => ?_) fun {id' held'} hid' hp' => ?_
    · exact (hc.accounts.limit (fun _ => rfl) s).trans (ho.accounts.limit (fun _ => rfl) s)
    · have hsame := h.inv.sound.observes_spent hsome ho hwithin s
      have hclosed := hsound₁.closes_spent hid₁ hc s
      exact (Nat.le_add_right _ _).trans (le_of_eq (hclosed.trans hsame))
    · rw [OrdMap.get_insert] at hid'
      split_ifs at hid' with hsame
      · cases hid'
        simp [Held.pending] at hp'
      · have hne : id' ≠ held.tokens.id := by
          rw [hheld.id_eq]
          exact hsame
        refine ⟨hid', ?_⟩
        rw [hc.outstanding, OrdMap.get_erase, if_neg hne, ho.outstanding,
          OrdMap.get_insert_ne _ _ hne]
        exact (h.held hid' hp').outstanding

theorem Guarded.refusedCharge (h : B.Guarded) {tokens : BudgetLedger}
    (htokens : tokens = B.tokens ∨ tokens = { B.tokens with overflowed := true }) :
    ({ B with tokens := tokens, breached := true } : TaskBudget).Guarded := by
  have hsame : tokens.accounts = B.tokens.accounts ∧
      tokens.outstanding = B.tokens.outstanding := by
    rcases htokens with rfl | rfl
    · exact ⟨rfl, rfl⟩
    · exact ⟨rfl, rfl⟩
  have haccount : ∀ s, tokens.account s = B.tokens.account s := fun s => by
    rw [BudgetLedger.account, hsame.1, BudgetLedger.account]
  refine h.spendLess (h.inv.refusedCharge htokens)
    ⟨rfl, rfl, rfl, rfl, fun s => congrArg Account.limit (haccount s)⟩ rfl rfl (fun s => ?_)
    fun {id held} hid hp => ⟨hid, ?_⟩
  · change tokens.committed s + tokens.reserved s ≤ B.tokens.committed s + B.tokens.reserved s
    simp only [BudgetLedger.committed, BudgetLedger.reserved, haccount s, le_refl]
  · change tokens.outstanding.get id = _
    rw [hsame.2]
    exact (h.held hid hp).outstanding

/-! ## Why a preparation is refused -/

/-- A refusal that is only a text: no limit, call or scope was short. -/
def Plain (e : TaskBudgetError) : Prop := ∃ text, e = .refused text

theorem plain_of_checked {bound value : ℕ} {text : String} {e : TaskBudgetError}
    (h : checked bound text value = .error e) : Plain e := by
  rw [checked] at h
  split_ifs at h
  cases h
  exact ⟨_, rfl⟩

theorem plain_of_require {condition : Bool} {text : String} {e : TaskBudgetError}
    (h : require condition text = .error e) : Plain e := by
  rw [require] at h
  split_ifs at h
  cases h
  exact ⟨_, rfl⟩

theorem plain_of_checkNode {node : String} {now : ℕ} {e : TaskBudgetError}
    (h : B.checkNode node now = .error e) : Plain e := by
  rw [checkNode, bind_eq_error] at h
  rcases h with h | ⟨_, -, h⟩
  · exact plain_of_require h
  · cases hget : B.nodes.get node with
    | none =>
      rw [hget] at h
      cases h
      exact ⟨_, rfl⟩
    | some a =>
      rw [hget] at h
      simp only [bind_eq_error] at h
      rcases h with h | ⟨_, -, h | ⟨_, -, h⟩⟩
      · exact plain_of_require h
      · exact plain_of_require h
      · cases h

theorem plain_of_consumeReserve {node : String} {acc : VerificationReserve × ℕ}
    {entry : String × NodeAccount} {e : TaskBudgetError}
    (h : consumeReserve node acc entry = .error e) : Plain e := by
  rw [consumeReserve] at h
  simp only [bind_eq_error] at h
  rcases h with h | ⟨_, -, h | ⟨_, -, h | ⟨_, -, h | ⟨_, -, h | ⟨_, -, h | ⟨_, -, h |
    ⟨_, -, h⟩⟩⟩⟩⟩⟩⟩
  · exact plain_of_checked h
  · exact plain_of_checked h
  · exact plain_of_checked h
  · exact plain_of_checked h
  · exact plain_of_checked h
  · exact plain_of_checked h
  · exact plain_of_checked h
  · cases h

theorem plain_of_protectedAfter {node : String} {e : TaskBudgetError}
    (h : B.protectedAfter node = .error e) : Plain e := by
  rw [protectedAfter] at h
  split_ifs at h
  · cases h
  · rw [bind_eq_error] at h
    rcases h with h | ⟨⟨consumed, remaining⟩, -, h⟩
    · obtain ⟨acc, entry, -, hstep⟩ := foldlM_eq_error h
      exact plain_of_consumeReserve hstep
    · simp only at h
      split_ifs at h
      · cases h
      · cases h

theorem plain_of_checkDeadline {now wallMs wall : ℕ} {e : TaskBudgetError}
    (h : B.checkDeadline now wallMs wall = .error e) : Plain e := by
  rw [checkDeadline, bind_eq_error] at h
  rcases h with h | ⟨deadline, -, h⟩
  · exact plain_of_checked h
  · split_ifs at h
    · cases h
      exact ⟨_, rfl⟩
    · simp only [bind_eq_error] at h
      rcases h with h | ⟨_, -, h | ⟨_, -, h⟩⟩
      · exact plain_of_checked h
      · exact plain_of_require h
      · cases h

theorem checkCall_eq_error {node scope : String} {limit : ℕ} {e : TaskBudgetError}
    (h : B.checkCall node (scope, limit) = .error e) :
    Plain e ∨ within node scope = true ∧ limit < B.occupiedAfter scope node := by
  rw [checkCall] at h
  split_ifs at h with hwithin
  · rw [bind_eq_error] at h
    rcases h with h | ⟨occupied, hocc, h⟩
    · obtain ⟨t, entry, -, hstep⟩ := foldlM_eq_error h
      left
      rw [addOccupied] at hstep
      by_cases hmember : within entry.1 scope = true
      · simp only [hmember, if_true, bind_eq_error] at hstep
        rcases hstep with hstep | ⟨_, -, hstep⟩
        · exact plain_of_checked hstep
        · exact plain_of_checked hstep
      · simp only [hmember] at hstep
        cases hstep
    · rw [foldlM_addOccupied hocc] at h
      split_ifs at h with hlt
      · exact .inr ⟨hwithin, hlt⟩
      · cases h
  · cases h

theorem checkTokens_eq_error {tokens held : ℕ} {e : TaskBudgetError}
    (h : B.checkTokens tokens held = .error e) :
    Plain e ∨ B.remainingTokens < tokens + held := by
  rw [checkTokens, bind_eq_error] at h
  rcases h with h | ⟨needed, hneeded, h⟩
  · exact .inl (plain_of_checked h)
  · obtain ⟨-, rfl⟩ := addResource_eq_ok.mp hneeded
    split_ifs at h with hlt
    · exact .inr hlt
    · cases h

theorem checkScope_eq_error {node name : String} {scope : TaskTokenScope} {a : NodeAccount}
    {tokens : ℕ} {e : TaskBudgetError} (ha : B.nodes.get node = some a)
    (h : B.checkScope node tokens (name, scope) = .error e) :
    Plain e ∨ (B.tokens.remaining (.fanOut name)).getD 0 <
      tokens + scopeOwed (B.nodes.insert node a.prepareOne) scope := by
  rw [checkScope, bind_eq_error] at h
  rcases h with h | ⟨owed', howed, h⟩
  · obtain ⟨t, entry, -, hstep⟩ := foldlM_eq_error h
    left
    rw [addScopeOwed] at hstep
    by_cases hcontains : scope.contains entry.1 = true
    · simp only [hcontains, if_true, bind_eq_error] at hstep
      rcases hstep with hstep | ⟨_, -, hstep⟩
      · exact plain_of_checked hstep
      · exact plain_of_checked hstep
    · simp only [hcontains] at hstep
      cases hstep
  · rw [bind_eq_error] at h
    rcases h with h | ⟨needed, hneeded, h⟩
    · exact .inl (plain_of_checked h)
    · obtain ⟨-, rfl⟩ := addResource_eq_ok.mp hneeded
      rw [scopeVerificationAfter_eq ha howed] at h
      split_ifs at h with hlt
      · exact .inr hlt
      · cases h

/-- A refusal for want of capacity: the Task's Attempts or tokens, a call's
Attempts, or a token scope, whether a check or the token ledger itself refused. -/
def Starves (e : TaskBudgetError) : Prop :=
  e = .taskAttemptLimit ∨ (∃ scope, e = .callAttemptLimit scope) ∨
    (∃ reservation held remaining, e = .taskTokenLimit reservation held remaining) ∨
    (∃ name, e = .tokenScope name) ∨ ∃ b, e = .budget b ∧ b.reason = .tokens

theorem Plain.not_starves {e : TaskBudgetError} (h : Plain e) : ¬ Starves e := by
  obtain ⟨text, rfl⟩ := h
  rintro (h | ⟨_, h⟩ | ⟨_, _, _, h⟩ | ⟨_, h⟩ | ⟨_, h, -⟩)
  · cases h
  · cases h
  · cases h
  · cases h
  · cases h

/-- What a verifier still owed an Attempt asks for is covered, in every dimension. -/
theorem Guarded.verifier (h : B.Guarded) (hopen : B.breached = false) {node : String}
    {a : NodeAccount} (ha : B.nodes.get node = some a)
    (howed : a.used < a.allowance.verificationAttempts) {reserve : VerificationReserve}
    (hreserve : B.protectedAfter node = .ok reserve) :
    B.usedAttempts + 1 + reserve.attempts ≤ B.limits.maxAttempts ∧
      a.allowance.tokensPerAttempt + reserve.tokens ≤ B.remainingTokens ∧
      (∀ {scope limit}, B.callLimits.get scope = some limit → within node scope = true →
        B.occupiedAfter scope node ≤ limit) ∧
      ∀ {name scope}, B.tokenScopes.get name = some scope → scope.contains node = true →
        a.allowance.tokensPerAttempt + scopeOwed (B.nodes.insert node a.prepareOne) scope ≤
          (B.tokens.remaining (.fanOut name)).getD 0 := by
  have howedOne : a.prepareOne.owed + 1 = a.owed := by
    simp only [NodeAccount.owed, NodeAccount.prepareOne_used, NodeAccount.prepareOne_allowance]
    omega
  have hcoveredOne : a.prepareOne.covered = a.covered + 1 := by
    simp only [NodeAccount.covered, NodeAccount.prepareOne_used, NodeAccount.prepareOne_allowance]
    omega
  have h₁ := owed_insert ha a.prepareOne
  have h₂ := covered_insert ha a.prepareOne
  have h₃ := coveredTokens_insert ha a.prepareOne
  have h₄ := owedTokens_insert ha a.prepareOne
  rw [NodeAccount.prepareOne_allowance, hcoveredOne, Nat.mul_add, Nat.mul_one] at h₃
  rw [NodeAccount.prepareOne_allowance, ← howedOne, Nat.mul_add, Nat.mul_one] at h₄
  have hspent := h.tokens
  have hattempts := h.attempts
  have hminT := h.minTokens
  have hminA := h.minAttempts
  rw [← coveredTokens_add_owedTokens] at hminT
  rw [← covered_add_owed] at hminA
  refine ⟨?_, ?_, ?_, ?_⟩
  · cases hdeferred : B.deferredVerification with
    | true =>
      have := h.deferred hdeferred ha
      omega
    | false =>
      rcases protectedAfter_eq hdeferred ha hreserve with ⟨hzero, -, hatt⟩ | ⟨hpos, -, hatt⟩
      · omega
      · rcases h.reserve with hfew | ⟨-, hfits⟩ <;> omega
  · rw [h.remainingTokens_eq hopen]
    cases hdeferred : B.deferredVerification with
    | true =>
      have := h.deferred hdeferred ha
      omega
    | false =>
      rcases protectedAfter_eq hdeferred ha hreserve with ⟨hzero, htok, -⟩ | ⟨hpos, htok, -⟩
      · omega
      · rcases h.reserve with hfew | ⟨hfits, -⟩ <;> omega
  · intro scope limit hlimit hwithin
    have hcall := h.calls hlimit
    have hinsert := callReserved_insert ha a.prepareOne scope
    rw [hwithin, NodeAccount.prepareOne_used, NodeAccount.prepareOne_allowance] at hinsert
    simp only [if_true] at hinsert
    rw [occupiedAfter_eq ha hwithin]
    omega
  · intro name scope hscope hcontains
    obtain ⟨hlimit, hbounded, hroom⟩ := h.scopes hscope
    have hinsert := scopeOwed_insert ha a.prepareOne scope
    rw [hcontains, NodeAccount.prepareOne_allowance, ← howedOne, Nat.mul_add,
      Nat.mul_one] at hinsert
    simp only [if_true] at hinsert
    rw [remaining_eq (h.overflowed hopen) hlimit (by omega) hbounded]
    omega

/-- **A guarded verifier is not starved.** -/
theorem Guarded.prepare_not_starves (h : B.Guarded) {node : String} {a : NodeAccount}
    (ha : B.nodes.get node = some a) (howed : a.used < a.allowance.verificationAttempts)
    {now : ℕ} {e : TaskBudgetError} (hprepare : B.prepare node now = some (.error e, B')) :
    ¬ Starves e := by
  rw [prepare] at hprepare
  cases hadmission : B.admission node now with
  | error e' =>
    rw [hadmission] at hprepare
    cases hprepare
    rw [admission, bind_eq_error] at hadmission
    rcases hadmission with hadmission | ⟨account, hnode, hadmission⟩
    · exact (plain_of_checkNode hadmission).not_starves
    · obtain ⟨hget, hopen⟩ := checkNode_eq_ok hnode
      rw [ha] at hget
      cases hget
      rw [bind_eq_error] at hadmission
      rcases hadmission with hadmission | ⟨reserve, hreserve, hadmission⟩
      · exact (plain_of_protectedAfter hadmission).not_starves
      · obtain ⟨hattempts, htokens, hcalls, hscopes⟩ := h.verifier hopen ha howed hreserve
        rw [if_neg (not_lt.mpr hattempts)] at hadmission
        simp only [bind_eq_error] at hadmission
        rcases hadmission with hadmission | ⟨_, -, hadmission⟩
        · obtain ⟨⟨scope, limit⟩, hmem, hcall⟩ := forM_eq_error hadmission
          rcases checkCall_eq_error hcall with hplain | ⟨hwithin, hlt⟩
          · exact hplain.not_starves
          · have := hcalls (OrdMap.mem_iff_get.mp hmem) hwithin
            omega
        · rcases hadmission with hadmission | ⟨deadline, -, hadmission⟩
          · exact (plain_of_checkDeadline hadmission).not_starves
          · rcases hadmission with hadmission | ⟨_, -, hadmission⟩
            · rcases checkTokens_eq_error hadmission with hplain | hlt
              · exact hplain.not_starves
              · omega
            · rcases hadmission with hadmission | ⟨scopes, -, hadmission⟩
              · rw [reservationScopes, bind_eq_error] at hadmission
                rcases hadmission with hadmission | ⟨_, -, hadmission⟩
                · obtain ⟨⟨name, scope⟩, hmem, hscope⟩ := forM_eq_error hadmission
                  rw [scopesOf, List.mem_filter] at hmem
                  rcases checkScope_eq_error ha hscope with hplain | hlt
                  · exact hplain.not_starves
                  · have := hscopes (OrdMap.mem_iff_get.mp hmem.1) hmem.2
                    omega
                · cases hadmission
              · cases hadmission
  | ok result =>
    obtain ⟨account, deadline, scopes⟩ := result
    rw [hadmission] at hprepare
    obtain ⟨hopen, reserve, hadmits⟩ := admission_eq_ok hadmission
    obtain ⟨htok, -, -⟩ := h.admits hopen hadmits
    obtain ⟨hlist, hchecks⟩ := reservationScopes_eq_ok hadmits.scopes_eq
    obtain ⟨⟨answer, tokens⟩, hreserve, heq⟩ := Option.map_eq_some_iff.mp hprepare
    cases answer with
    | ok r => cases heq
    | error b =>
      cases heq
      rintro (h' | ⟨_, h'⟩ | ⟨_, _, _, h'⟩ | ⟨_, h'⟩ | ⟨b', h', htokens⟩)
      · cases h'
      · cases h'
      · cases h'
      · cases h'
      · cases h'
        -- every scope was checked to have room, so the ledger has no token to refuse
        obtain ⟨s, hs, limit, hlimit, hlt⟩ :=
          BudgetLedger.reserve_refused_tokens hreserve htokens
        rw [hlist, List.mem_append] at hs
        rcases hs with hs | hs
        · obtain ⟨⟨name, scope⟩, hmem, rfl⟩ := List.mem_map.mp hs
          have hcheck := checkScope_eq_ok hadmits.account_eq (hchecks _ hmem)
          rw [scopesOf, List.mem_filter] at hmem
          obtain ⟨hlimit', hbounded, hroom⟩ := h.scopes (OrdMap.mem_iff_get.mp hmem.1)
          rw [remaining_eq (h.overflowed hopen) hlimit' (by omega) hbounded] at hcheck
          rw [hlimit] at hlimit'
          cases hlimit'
          change _ < spent B.tokens (.fanOut name) + _ at hlt
          omega
        · rw [List.mem_singleton] at hs
          cases hs
          rw [h.inv.limited] at hlimit
          cases hlimit
          omega

/-! ## The budgets a graph starts with -/

/-- A graph was installed and nothing was prepared in it yet. -/
structure Ready (B : TaskBudget) : Prop where
  inv : B.Inv
  bounded : B.limits.tokens < u128Bound
  deferred : B.deferredVerification = true → ∀ {n a}, B.nodes.get n = some a →
    a.allowance.verificationAttempts = 0
  minTokens : allocatedTokens B.nodes ≤ B.limits.verification.tokens
  minAttempts : allocated B.nodes ≤ B.limits.verification.attempts
  unused : ∀ {n a}, B.nodes.get n = some a → a.used = 0
  settled : ∀ {id h}, B.reservations.get id = some h → h.pending = false
  tokens : spent B.tokens .run ≤ B.limits.tokens →
    spent B.tokens .run + B.limits.verification.tokens ≤ B.limits.tokens
  attempts : B.usedAttempts + B.limits.verification.attempts ≤ B.limits.maxAttempts
  calls : ∀ {scope limit}, B.callLimits.get scope = some limit →
    callReserved B.nodes scope ≤ limit

theorem Ready.guarded (h : B.Ready)
    (hscopes : ∀ {name scope}, B.tokenScopes.get name = some scope → ScopeGuarded B name scope)
    (hspent : spent B.tokens .run ≤ B.limits.tokens) : B.Guarded := by
  have hT := coveredTokens_add_owedTokens B.nodes
  have hA := covered_add_owed B.nodes
  have htokens := h.tokens hspent
  have hattempts := h.attempts
  have hminT := h.minTokens
  have hminA := h.minAttempts
  have hcovered : covered B.nodes = 0 := OrdMap.sum_eq_zero fun _ a ha => by
    rw [NodeAccount.covered, h.unused ha, Nat.zero_min]
  have hcoveredT : coveredTokens B.nodes = 0 := OrdMap.sum_eq_zero fun _ a ha => by
    rw [NodeAccount.covered, h.unused ha, Nat.zero_min, Nat.mul_zero]
  refine ⟨h.inv, h.bounded, h.deferred, hminT, hminA, by omega, by omega,
    .inr ⟨by omega, by omega⟩, h.calls, hscopes, fun {id held} hid hp => ?_⟩
  rw [h.settled hid] at hp
  cases hp

theorem addMinimum_eq_ok {limits : TaskLimits} {minimum minimum' : VerificationReserve}
    {entry : String × NodeAllowance} (h : addMinimum limits minimum entry = .ok minimum') :
    minimum'.tokens = minimum.tokens + entry.2.tokensPerAttempt * entry.2.verificationAttempts ∧
      minimum'.attempts = minimum.attempts + entry.2.verificationAttempts := by
  obtain ⟨name, allowance⟩ := entry
  rw [addMinimum] at h
  simp only [bind_eq_ok, checked_eq_ok, addResource_eq_ok] at h
  obtain ⟨_, -, product, ⟨-, rfl⟩, tokens, ⟨-, rfl⟩, wall, ⟨-, rfl⟩, wallMs, ⟨-, rfl⟩, attempts,
    ⟨-, rfl⟩, h⟩ := h
  cases h
  exact ⟨rfl, rfl⟩

/-- Admitted limits cover the compiled allocation. -/
theorem new_allocated {limits : TaskLimits} {allowances : OrdMap String NodeAllowance}
    (h : TaskBudget.new limits allowances = .ok B) :
    allocatedTokens B.nodes ≤ limits.verification.tokens ∧
      allocated B.nodes ≤ limits.verification.attempts := by
  obtain ⟨-, minimum, hfold, htokens, hattempts, rfl⟩ := new_eq_ok h
  have hstepT : ∀ s x s', addMinimum limits s x = .ok s' →
      s'.tokens = s.tokens + x.2.tokensPerAttempt * x.2.verificationAttempts :=
    fun _ _ _ hstep => (addMinimum_eq_ok hstep).1
  have hstepA : ∀ s x s', addMinimum limits s x = .ok s' →
      s'.attempts = s.attempts + x.2.verificationAttempts :=
    fun _ _ _ hstep => (addMinimum_eq_ok hstep).2
  have h₁ := foldlM_sum hstepT hfold
  have h₂ := foldlM_sum hstepA hfold
  rw [Nat.zero_add] at h₁ h₂
  refine ⟨?_, ?_⟩
  · rw [allocatedTokens, OrdMap.sum_mapVal]
    exact le_of_eq_of_le h₁.symm htokens
  · rw [allocated, OrdMap.sum_mapVal]
    exact le_of_eq_of_le h₂.symm hattempts

theorem validate_eq_ok {limits : TaskLimits} (h : limits.validate = .ok ()) :
    limits.tokens ≤ safeIntegerMax ∧ limits.verification.tokens ≤ limits.tokens ∧
      limits.verification.attempts ≤ limits.maxAttempts := by
  rw [TaskLimits.validate, require_eq_ok] at h
  simp only [Bool.and_eq_true, decide_eq_true_eq] at h
  exact ⟨h.1.1.1.1.1.1, h.1.2, h.2⟩

theorem lt_u128Bound_of_safe {n : ℕ} (h : n ≤ safeIntegerMax) : n < u128Bound :=
  lt_of_le_of_lt h (by decide)

theorem Ready.new {limits : TaskLimits} {allowances : OrdMap String NodeAllowance}
    (h : TaskBudget.new limits allowances = .ok B) : B.Ready := by
  have hunused : ∀ {n a}, B.nodes.get n = some a → a.used = 0 := fun ha => (new_fresh h ha).used
  obtain ⟨hminT, hminA⟩ := new_allocated h
  obtain ⟨hvalid, minimum, -, -, -, heq⟩ := new_eq_ok h
  obtain ⟨hsafe, hvT, hvA⟩ := validate_eq_ok hvalid
  have hlimits : B.limits = limits := by rw [heq]
  have hused : B.usedAttempts = 0 := by
    have hsum : B.nodes.sum (fun _ a => a.used) = 0 := OrdMap.sum_eq_zero fun _ _ ha => hunused ha
    rw [usedAttempts, hsum, heq]
  have hspent : spent B.tokens .run = 0 := by
    rw [heq]
    rfl
  refine ⟨Inv.new h, ?_, ?_, ?_, ?_, hunused, ?_, ?_, ?_, ?_⟩
  · rw [hlimits]
    exact lt_u128Bound_of_safe hsafe
  · intro hdeferred
    rw [heq] at hdeferred
    cases hdeferred
  · rw [hlimits]
    exact hminT
  · rw [hlimits]
    exact hminA
  · intro id held hid
    rw [heq] at hid
    cases hid
  · intro _
    rw [hspent, hlimits, Nat.zero_add]
    exact hvT
  · rw [hused, hlimits, Nat.zero_add]
    exact hvA
  · intro scope limit hlimit
    rw [heq] at hlimit
    cases hlimit

/-- Installing token scopes: every scope is limited and covers what it owes, and
nothing else changes. -/
theorem foldlM_installTokenScope {l : List (String × TaskTokenScope)}
    (hnodup : (l.map Prod.fst).Nodup) {tokens L : BudgetLedger}
    (h : l.foldlM B.installTokenScope tokens = .ok L) :
    (∀ s, spent L s = spent tokens s) ∧
      (∀ s, (∀ e ∈ l, s ≠ .fanOut e.1) → L.account s = tokens.account s) ∧
      ∀ e ∈ l, (L.account (.fanOut e.1)).limit = some e.2.tokens ∧
        e.2.tokens ≤ safeIntegerMax ∧
        spent tokens (.fanOut e.1) + scopeOwed B.nodes e.2 ≤ e.2.tokens := by
  induction l generalizing tokens with
  | nil =>
    cases h
    exact ⟨fun _ => rfl, fun _ _ => rfl, fun e he => absurd he List.not_mem_nil⟩
  | cons entry l ih =>
    rw [List.foldlM_cons, bind_eq_ok] at h
    obtain ⟨tokens₁, hstep, h⟩ := h
    rw [List.map_cons, List.nodup_cons] at hnodup
    obtain ⟨required, hrequired, hsafe, hroom, rfl⟩ := installTokenScope_eq_ok hstep
    obtain ⟨hspent, hother, hlimits⟩ := ih hnodup.2 h
    have hspent₁ : ∀ s, spent (tokens.withLimit (.fanOut entry.1) entry.2.tokens) s =
        spent tokens s := by
      intro s
      rw [spent, BudgetLedger.committed, BudgetLedger.reserved, BudgetLedger.withLimit_account]
      split_ifs with heq
      · rw [heq]
        rfl
      · rfl
    have hhead : ∀ e ∈ l, BudgetScope.fanOut entry.1 ≠ .fanOut e.1 := by
      intro e he heq
      exact hnodup.1 (List.mem_map.mpr ⟨e, he, (BudgetScope.fanOut.inj heq).symm⟩)
    refine ⟨fun s => (hspent s).trans (hspent₁ s), fun s hs => ?_, fun e he => ?_⟩
    · rw [hother s fun e he => hs e (List.mem_cons_of_mem _ he), BudgetLedger.withLimit_account,
        if_neg (hs entry List.mem_cons_self)]
    · rcases List.mem_cons.mp he with rfl | he
      · rw [hother _ hhead, BudgetLedger.withLimit_account, if_pos rfl,
          ← scopeVerificationAfter_none hrequired]
        exact ⟨rfl, hsafe, hroom⟩
      · obtain ⟨hlimit, hsafe', hroom'⟩ := hlimits e he
        rw [hspent₁] at hroom'
        exact ⟨hlimit, hsafe', hroom'⟩

theorem Ready.installTokenScopes (h : B.Ready) {scopes : OrdMap String TaskTokenScope}
    (hok : B.installTokenScopes scopes = .ok B') :
    B'.Ready ∧ ∀ {name scope}, B'.tokenScopes.get name = some scope →
      ScopeGuarded B' name scope := by
  have hinv := (h.inv.installTokenScopes hok).1
  obtain ⟨tokens, hfold, rfl⟩ := installTokenScopes_eq_ok hok
  obtain ⟨hspent, -, hlimits⟩ := foldlM_installTokenScope scopes.keys_nodup hfold
  refine ⟨⟨hinv, h.bounded, h.deferred, h.minTokens, h.minAttempts, h.unused, h.settled, ?_,
    h.attempts, h.calls⟩, fun {name scope} hscope => ?_⟩
  · have hrun : spent tokens .run = spent B.tokens .run := hspent .run
    change spent tokens .run ≤ B.limits.tokens → spent tokens .run + _ ≤ _
    rw [hrun]
    exact h.tokens
  · obtain ⟨hlimit, hsafe, hroom⟩ := hlimits (name, scope) (OrdMap.mem_iff_get.mpr hscope)
    refine ⟨hlimit, lt_u128Bound_of_safe hsafe, ?_⟩
    change spent tokens (.fanOut name) + _ ≤ _
    rw [hspent]
    exact hroom

theorem Ready.withCallLimits (h : B.Ready) {limits : OrdMap String ℕ}
    (hok : B.withCallLimits limits = .ok B') : B'.Ready := by
  have hinv := (h.inv.withCallLimits hok).1
  obtain ⟨-, hcalls, rfl⟩ := withCallLimits_eq_ok hok
  refine ⟨hinv, h.bounded, h.deferred, h.minTokens, h.minAttempts, h.unused, h.settled, h.tokens,
    h.attempts, fun {scope limit} hlimit => ?_⟩
  have hsame : callReserved B.nodes scope = B.callVerification scope := by
    refine OrdMap.sum_congr fun n a ha => ?_
    rw [h.unused ha, Nat.zero_max]
  exact le_of_eq_of_le hsame (hcalls hlimit)

theorem Ready.withOwnedTemplates (h : B.Ready) {templates : OrdMap String OwnedNodeAllowance}
    (hok : B.withOwnedTemplates templates = .ok B') : B'.Ready := by
  have hinv := (h.inv.withOwnedTemplates hok).1
  obtain ⟨-, rfl⟩ := withOwnedTemplates_eq_ok hok
  exact ⟨hinv, h.bounded, h.deferred, h.minTokens, h.minAttempts, h.unused, h.settled, h.tokens,
    h.attempts, h.calls⟩

theorem Ready.withDeferredVerification (h : B.Ready)
    (hok : B.withDeferredVerification = .ok B') : B'.Ready := by
  have hinv := (h.inv.withDeferredVerification hok).1
  obtain ⟨hnone, rfl⟩ := withDeferredVerification_eq_ok hok
  exact ⟨hinv, h.bounded, fun _ => hnone, h.minTokens, h.minAttempts, h.unused, h.settled,
    h.tokens, h.attempts, h.calls⟩

/-- An account changes neither its allowance nor what it uses. -/
theorem Ready.retune (h : B.Ready)
    (hscopes : ∀ {name scope}, B.tokenScopes.get name = some scope → ScopeGuarded B name scope)
    {node : String} {a : NodeAccount} (ha : B.nodes.get node = some a) (a' : NodeAccount)
    (hinv : ({ B with nodes := B.nodes.insert node a' } : TaskBudget).Inv)
    (hallow : a'.allowance = a.allowance) (hused : a'.used = a.used) :
    ({ B with nodes := B.nodes.insert node a' } : TaskBudget).Ready ∧
      ∀ {name scope}, B.tokenScopes.get name = some scope →
        ScopeGuarded { B with nodes := B.nodes.insert node a' } name scope := by
  have howed : a'.owed = a.owed := by rw [NodeAccount.owed, hallow, hused, NodeAccount.owed]
  refine ⟨⟨hinv, h.bounded, ?_, ?_, ?_, ?_, h.settled, h.tokens, ?_, ?_⟩, ?_⟩
  · intro hdeferred n b hb
    rw [OrdMap.get_insert] at hb
    split_ifs at hb with heq
    · cases hb
      rw [hallow]
      exact h.deferred hdeferred ha
    · exact h.deferred hdeferred hb
  · exact le_of_eq_of_le (allocatedTokens_insert ha a' hallow) h.minTokens
  · exact le_of_eq_of_le (allocated_insert ha a' hallow) h.minAttempts
  · intro n b hb
    rw [OrdMap.get_insert] at hb
    split_ifs at hb with heq
    · cases hb
      rw [hused]
      exact h.unused ha
    · exact h.unused hb
  · have hsum := usedAttempts_insert { B with nodes := B.nodes.insert node a' } ha rfl rfl
    rw [hused] at hsum
    rw [Nat.add_right_cancel hsum]
    exact h.attempts
  · intro scope limit hlimit
    have hsum := callReserved_insert ha a' scope
    rw [hused, hallow] at hsum
    exact le_of_eq_of_le (Nat.add_right_cancel hsum) (h.calls hlimit)
  · intro name scope hscope
    obtain ⟨hlimit, hbounded, hroom⟩ := hscopes hscope
    have hsum := scopeOwed_insert ha a' scope
    rw [hallow, howed] at hsum
    refine ⟨hlimit, hbounded, ?_⟩
    change spent B.tokens _ + scopeOwed (B.nodes.insert node a') scope ≤ _
    rw [Nat.add_right_cancel hsum]
    exact hroom

theorem Ready.installRecoveryAllowances {allowances : List (String × ℕ)} (h : B.Ready)
    (hscopes : ∀ {name scope}, B.tokenScopes.get name = some scope → ScopeGuarded B name scope)
    (hok : B.installRecoveryAllowances allowances = some (.ok (), B')) :
    B'.Ready ∧ ∀ {name scope}, B'.tokenScopes.get name = some scope →
      ScopeGuarded B' name scope := by
  induction allowances generalizing B with
  | nil =>
    cases hok
    exact ⟨h, hscopes⟩
  | cons entry rest ih =>
    obtain ⟨node, allowance⟩ := entry
    rw [TaskBudget.installRecoveryAllowances] at hok
    split_ifs at hok
    · cases hok
    · cases ha : B.nodes.get node with
      | none =>
        rw [ha] at hok
        cases hok
      | some a =>
        rw [ha] at hok
        obtain ⟨hready, hscopes'⟩ := h.retune hscopes ha
          { a with recoveryAllowance := allowance } (h.inv.retune ha rfl rfl rfl) rfl rfl
        exact ih hready hscopes' hok

/-- The graph an installation leaves, before its token scopes. -/
theorem Inv.ready_replaceGraph (h : B.Inv) (hvalid : B.limits.tokens ≤ safeIntegerMax)
    {graph : Graph} {now : ℕ} {preparation : Bool} {next : TaskBudget}
    (hidle : B.hasPending = false)
    (htokens : B.limits.verification.tokens ≤ B.remainingTokens)
    (hattempts : B.limits.verification.attempts ≤ B.limits.maxAttempts - B.chargeableAttempts)
    (hnext : B.compile graph preparation = .ok next) :
    (B.replaceGraph next now preparation).Ready := by
  obtain ⟨fresh, limited, hnew, hlimited, hnodes, hcalls, hprep⟩ := compile_eq_ok hnext
  have hfresh : ∀ {n a}, next.nodes.get n = some a → Fresh a := by
    intro n a ha
    rw [hnodes] at ha
    exact new_fresh hnew ha
  obtain ⟨hminT, hminA⟩ := new_allocated hnew
  have hlimit : ∀ {scope limit}, graph.callLimits.get scope = some limit →
      fresh.callVerification scope ≤ limit := (withCallLimits_eq_ok hlimited).2.1
  have hinv : (B.replaceGraph next now preparation).Inv :=
    h.replace hidle rfl (.refl h.sound) rfl rfl h.closed hfresh
  refine ⟨hinv, lt_u128Bound_of_safe hvalid, ?_, ?_, ?_, ?_, ?_, ?_, ?_, ?_⟩
  · intro hdeferred n a ha
    exact hprep hdeferred ha
  · change allocatedTokens next.nodes ≤ B.limits.verification.tokens
    rw [hnodes]
    exact hminT
  · change allocated next.nodes ≤ B.limits.verification.attempts
    rw [hnodes]
    exact hminA
  · intro n a ha
    exact (hfresh ha).used
  · intro id held hid
    exact not_pending_of_hasPending hidle hid
  · intro hspent
    change spent B.tokens .run + B.limits.verification.tokens ≤ B.limits.tokens
    change spent B.tokens .run ≤ B.limits.tokens at hspent
    -- whatever the flag, the remaining tokens are at most the difference
    have hremaining : B.remainingTokens ≤ B.limits.tokens - spent B.tokens .run := by
      cases hover : B.tokens.overflowed with
      | false =>
        exact le_of_eq (remaining_eq hover h.limited hspent (lt_u128Bound_of_safe hvalid))
      | true =>
        have hzero : B.remainingTokens = 0 := by
          rw [remainingTokens, BudgetLedger.remaining, hover]
          cases B.tokens.accounts.get .run with
          | none => rfl
          | some account =>
            cases hlimit : account.limit with
            | none => simp [hlimit]
            | some limit => simp [hlimit]
        omega
    omega
  · have hused : (B.replaceGraph next now preparation).usedAttempts = B.chargeableAttempts := by
      have hsum : next.nodes.sum (fun _ a => a.used) = 0 :=
        OrdMap.sum_eq_zero fun _ _ ha => (hfresh ha).used
      change B.chargeableAttempts + next.nodes.sum (fun _ a => a.used) = _
      rw [hsum, Nat.add_zero]
    have htask := hinv.task
    rw [hused] at htask ⊢
    change B.chargeableAttempts ≤ B.limits.maxAttempts at htask
    change B.chargeableAttempts + B.limits.verification.attempts ≤ B.limits.maxAttempts
    omega
  · intro scope limit hget
    change next.callLimits.get scope = some limit at hget
    rw [hcalls] at hget
    have hsame : callReserved next.nodes scope = fresh.callVerification scope := by
      rw [hnodes]
      refine OrdMap.sum_congr fun n a ha => ?_
      rw [← hnodes] at ha
      rw [(hfresh ha).used, Nat.zero_max]
    exact le_of_eq_of_le hsame (hlimit hget)

/-- The budgets a graph starts with: built from admitted limits, or installed in
the budget any sequence of operations left. -/
inductive Installed : TaskBudget → Prop
  | new {limits : TaskLimits} {allowances : OrdMap String NodeAllowance} {B : TaskBudget}
      (h : TaskBudget.new limits allowances = .ok B) : Installed B
  | withCallLimits {limits : OrdMap String ℕ} {B B' : TaskBudget} (h : Installed B)
      (hok : B.withCallLimits limits = .ok B') : Installed B'
  | withOwnedTemplates {templates : OrdMap String OwnedNodeAllowance} {B B' : TaskBudget}
      (h : Installed B) (hok : B.withOwnedTemplates templates = .ok B') : Installed B'
  | withTokenScopes {scopes : OrdMap String TaskTokenScope} {B B' : TaskBudget} (h : Installed B)
      (hok : B.withTokenScopes scopes = .ok B') : Installed B'
  | withDeferredVerification {B B' : TaskBudget} (h : Installed B)
      (hok : B.withDeferredVerification = .ok B') : Installed B'
  | withRecoveryAllowances {allowances : List (String × ℕ)} {B B' : TaskBudget}
      (h : Installed B) (hok : B.installRecoveryAllowances allowances = some (.ok (), B')) :
      Installed B'
  | installGraph {limits : TaskLimits} {allowances : OrdMap String NodeAllowance} {ops : List Op}
      {B₀ B B' : TaskBudget} {graph : Graph} {now : ℕ} {preparation : Bool}
      (hnew : TaskBudget.new limits allowances = .ok B₀)
      (hrun : run TaskBudget.step B₀ ops = some B)
      (hok : B.installed graph now preparation = .ok B') : Installed B'

theorem Installed.ready (h : Installed B) :
    B.Ready ∧ ∀ {name scope}, B.tokenScopes.get name = some scope →
      ScopeGuarded B name scope := by
  induction h with
  | new hnew =>
    refine ⟨Ready.new hnew, fun {name scope} hscope => ?_⟩
    obtain ⟨-, minimum, -, -, -, rfl⟩ := new_eq_ok hnew
    cases hscope
  | withCallLimits _ hok ih =>
    refine ⟨ih.1.withCallLimits hok, fun {name scope} hscope => ?_⟩
    obtain ⟨-, -, rfl⟩ := withCallLimits_eq_ok hok
    obtain ⟨hlimit, hbounded, hroom⟩ := ih.2 hscope
    exact ⟨hlimit, hbounded, hroom⟩
  | withOwnedTemplates _ hok ih =>
    refine ⟨ih.1.withOwnedTemplates hok, fun {name scope} hscope => ?_⟩
    obtain ⟨-, rfl⟩ := withOwnedTemplates_eq_ok hok
    obtain ⟨hlimit, hbounded, hroom⟩ := ih.2 hscope
    exact ⟨hlimit, hbounded, hroom⟩
  | withTokenScopes _ hok ih =>
    rw [TaskBudget.withTokenScopes, bind_eq_ok] at hok
    obtain ⟨_, -, hok⟩ := hok
    exact ih.1.installTokenScopes hok
  | withDeferredVerification _ hok ih =>
    refine ⟨ih.1.withDeferredVerification hok, fun {name scope} hscope => ?_⟩
    obtain ⟨-, rfl⟩ := withDeferredVerification_eq_ok hok
    obtain ⟨hlimit, hbounded, hroom⟩ := ih.2 hscope
    exact ⟨hlimit, hbounded, hroom⟩
  | withRecoveryAllowances _ hok ih => exact ih.1.installRecoveryAllowances ih.2 hok
  | @installGraph limits allowances ops B₀ B B' graph now preparation hnew hrun hok =>
    have hvalid := (validate_eq_ok (new_eq_ok hnew).1).1
    have hlimits₀ : B₀.limits = limits := by
      obtain ⟨-, minimum, -, -, -, rfl⟩ := new_eq_ok hnew
      rfl
    obtain ⟨B₁, hrun₁, hinv, hlimits⟩ := (Inv.new hnew).run ops
    obtain rfl := Option.some.inj (hrun₁.symm.trans hrun)
    rw [← hlimits₀, ← hlimits] at hvalid
    obtain ⟨hidle, -, htokens, hattempts, next, hnext, hscopes⟩ := installed_eq_ok hok
    exact (hinv.ready_replaceGraph hvalid hidle htokens hattempts hnext).installTokenScopes hscopes

/-! ## Runs -/

/-- The operations of one graph's work: preparing, starting, releasing, and
settling with a charge within the reservation. -/
def WorkOp (B : TaskBudget) : Op → Prop
  | .prepare _ _ => True
  | .begin _ _ => True
  | .release _ => True
  | .settleExact id actual => ∀ held, B.reservations.get id = some held →
      actual ≤ held.tokens.amount
  | _ => False

/-- Every release keeps the reserve that a verifier will be asked to leave. -/
def KeepsReserve (B : TaskBudget) : Op → Prop
  | .release id => B.ReleaseKeeps id
  | _ => True

/-- **One operation** of a graph's work keeps the capacity guarded. -/
theorem Guarded.step (h : B.Guarded) {op : Op} (hwork : B.WorkOp op) (hkeeps : B.KeepsReserve op)
    (hstep : B.step op = some B') : B'.Guarded := by
  cases op with
  | prepare node now =>
    rw [TaskBudget.step] at hstep
    rcases prepare_cases B node now with ⟨e, he⟩ |
      ⟨account, scopes, reserve, r, tokens, deadline, hopen, hadmits, hr, hamount, hscopes, hok⟩
    · rw [he] at hstep
      cases hstep
      exact h
    · rw [hok] at hstep
      cases hstep
      exact h.withReservation hopen hadmits hr hamount hscopes deadline now
  | begin id now =>
    rw [TaskBudget.step] at hstep
    rcases begin_cases h.inv id now with ⟨e, he⟩ | hok | ⟨held, a, hid, hp, hbegun, ha, hpos, hok⟩
    · rw [he] at hstep
      cases hstep
      exact h
    · -- a started reservation starts again: only the clock moves
      obtain ⟨B₁, hstep₁, hinv, -⟩ := h.inv.step (.begin id now)
      rw [TaskBudget.step] at hstep₁
      obtain rfl := Option.some.inj (hstep₁.symm.trans hstep)
      rw [hok] at hstep
      cases hstep
      exact h.spendLess hinv ⟨rfl, rfl, rfl, rfl, fun _ => rfl⟩ rfl rfl (fun _ => le_rfl)
        fun hid hp => ⟨hid, (h.held hid hp).outstanding⟩
    · rw [hok] at hstep
      cases hstep
      exact h.begin hid hp hbegun ha hpos now
  | release id =>
    rw [TaskBudget.step] at hstep
    rcases release_cases h.inv id with ⟨_, hok⟩ |
      ⟨held, a, tokens, hid, hp, hbegun, ha, hpos, htokens, hok⟩
    · rw [hok] at hstep
      cases hstep
      exact h
    · rw [hok] at hstep
      cases hstep
      exact h.release hid hp hbegun ha hpos htokens hkeeps
  | settleExact id actual =>
    rw [TaskBudget.step] at hstep
    rcases settleExact_cases h.inv id actual with ⟨e, hok⟩ | ⟨held, -, -, hok⟩ |
      ⟨e, tokens, htokens, -, hok⟩ | ⟨held, tokens, hid, hp, hbegun, hcarries, hover, hcharge, hok⟩
    · rw [hok] at hstep
      cases hstep
      exact h
    · rw [hok] at hstep
      cases hstep
      exact h
    · rw [hok] at hstep
      cases hstep
      exact h.refusedCharge htokens
    · rw [hok] at hstep
      cases hstep
      exact h.settle hid hp hbegun hcharge hcarries hover (hwork held hid) _
  | _ => exact hwork.elim

/-- **Verification capacity is protected.** Start from any installed graph whose
Task has spent no more than its token limit, and let any nodes prepare, start,
release and settle in any order. If every release of an Attempt that counts
towards its node's verification was made while nothing was owed to verifiers, or
while the reserve not yet taken still fitted the Task's tokens and Attempts, then
in every state reached a verifier still owed an Attempt is never refused for
capacity. -/
theorem prepare_verifier_not_starved (B₀ : TaskBudget) (hinstalled : Installed B₀)
    (hspent : B₀.tokens.committed .run + B₀.tokens.reserved .run ≤ B₀.limits.tokens)
    (ops : List Op)
    (hops : StepsMeet TaskBudget.step (fun B op => B.WorkOp op ∧ B.KeepsReserve op) B₀ ops)
    (B : TaskBudget) (hrun : run TaskBudget.step B₀ ops = some B) (node : String)
    (a : NodeAccount) (ha : B.nodes.get node = some a)
    (howed : a.chargeable + a.prepared < a.allowance.verificationAttempts) (now : ℕ)
    (e : TaskBudgetError) (B' : TaskBudget)
    (hprepare : B.prepare node now = some (.error e, B')) : ¬ Starves e := by
  obtain ⟨hready, hscopes⟩ := hinstalled.ready
  have hguarded : B.Guarded :=
    run_induction (P := Guarded) (fun _ _ _ h hC hstep => h.step hC.1 hC.2 hstep)
      (hready.guarded hscopes hspent) hops hrun
  exact hguarded.prepare_not_starves ha howed hprepare

/-- Two verifiers of 10 tokens each and a worker of 100; the reserve of 100 is
80 more than the verifiers take. -/
def surplusLimits : TaskLimits := ⟨120, 10, 10000, ⟨100, 4, 100⟩⟩

def surplusAllowances : OrdMap String NodeAllowance :=
  .ofList [("first", ⟨10, 10, 2, 1⟩), ("second", ⟨10, 10, 2, 1⟩), ("work", ⟨100, 10, 1, 0⟩)]

/-- The budget of a graph without calls or scopes. -/
def surplusBudget : TaskBudget where
  limits := surplusLimits
  tokens := BudgetLedger.withLimit {} .run 120
  nodes := surplusAllowances.mapVal fun _ allowance => { allowance := allowance }

theorem surplusBudget_new : TaskBudget.new surplusLimits surplusAllowances = .ok surplusBudget := by
  decide

/-- A verifier's Attempt is released and prepared again beside the other one. -/
theorem prepare_verifier_not_starved_surplus :
    ∃ B a, run TaskBudget.step surplusBudget [.prepare "first" 1, .release "reservation:1",
        .prepare "second" 2] = some B ∧ B.nodes.get "first" = some a ∧
      a.chargeable + a.prepared < a.allowance.verificationAttempts ∧
      ∀ e B', B.prepare "first" 3 = some (.error e, B') → ¬ Starves e := by
  have hfits : ∀ B, surplusBudget.step (.prepare "first" 1) = some B → B.ReserveFits := by
    intro B hstep
    have hall : (surplusBudget.step (.prepare "first" 1)).all
        (fun B => decide B.ReserveFits) = true := by decide
    rw [hstep] at hall
    exact of_decide_eq_true hall
  have hops : StepsMeet TaskBudget.step (fun B op => B.WorkOp op ∧ B.KeepsReserve op)
      surplusBudget [.prepare "first" 1, .release "reservation:1", .prepare "second" 2] :=
    ⟨⟨trivial, trivial⟩, fun B₁ h₁ => ⟨⟨trivial, fun _ _ _ _ _ _ _ => .inr (hfits B₁ h₁)⟩,
      fun _ _ => ⟨⟨trivial, trivial⟩, fun _ _ => trivial⟩⟩⟩
  obtain ⟨B, hrun, -⟩ := (Inv.new surplusBudget_new).run
    [.prepare "first" 1, .release "reservation:1", .prepare "second" 2]
  have hget : ((run TaskBudget.step surplusBudget [.prepare "first" 1, .release "reservation:1",
      .prepare "second" 2]).bind fun B => B.nodes.get "first") =
        some { allowance := ⟨10, 10, 2, 1⟩ } := by decide
  rw [hrun, Option.bind_some] at hget
  exact ⟨B, _, hrun, hget, by decide, prepare_verifier_not_starved surplusBudget
    (.new surplusBudget_new) (by decide) _ hops B hrun "first" _ hget (by decide) 3⟩

/-- **The surplus is handed out.** Both verifiers and then the worker are prepared:
nothing is owed any more, so the worker may take the 80 tokens the reserve still
has. When both verifiers are released, 20 tokens are left, and the first one is
refused for the 90 the reserve asks for beside its own 10. -/
theorem prepare_verifier_starved_by_release :
    Installed surplusBudget ∧
      surplusBudget.tokens.committed .run + surplusBudget.tokens.reserved .run ≤
        surplusBudget.limits.tokens ∧
      StepsMeet TaskBudget.step WorkOp surplusBudget [.prepare "first" 1, .prepare "second" 2,
        .prepare "work" 3, .release "reservation:1", .release "reservation:2"] ∧
      ∃ B a, run TaskBudget.step surplusBudget [.prepare "first" 1, .prepare "second" 2,
          .prepare "work" 3, .release "reservation:1", .release "reservation:2"] = some B ∧
        B.breached = false ∧ B.nodes.get "first" = some a ∧
        a.chargeable + a.prepared < a.allowance.verificationAttempts ∧
        ∃ e B', B.prepare "first" 4 = some (.error e, B') ∧ Starves e := by
  refine ⟨.new surplusBudget_new, by decide, ⟨trivial, fun _ _ => ⟨trivial, fun _ _ => ⟨trivial,
    fun _ _ => ⟨trivial, fun _ _ => ⟨trivial, fun _ _ => trivial⟩⟩⟩⟩⟩, ?_⟩
  obtain ⟨B, hrun, -⟩ := (Inv.new surplusBudget_new).run [.prepare "first" 1, .prepare "second" 2,
    .prepare "work" 3, .release "reservation:1", .release "reservation:2"]
  have hafter : ((run TaskBudget.step surplusBudget [.prepare "first" 1, .prepare "second" 2,
      .prepare "work" 3, .release "reservation:1", .release "reservation:2"]).map fun B =>
        (B.breached, B.nodes.get "first", (B.prepare "first" 4).map Prod.fst)) =
      some (false, some { allowance := ⟨10, 10, 2, 1⟩ },
        some (.error (.taskTokenLimit 10 90 20))) := by decide
  rw [hrun, Option.map_some, Option.some.injEq, Prod.mk.injEq, Prod.mk.injEq] at hafter
  obtain ⟨hopen, hget, hprepare⟩ := hafter
  obtain ⟨⟨reply, B'⟩, hreply, rfl⟩ := Option.map_eq_some_iff.mp hprepare
  exact ⟨B, _, hrun, hopen, hget, by decide, _, B', hreply, .inr (.inr (.inl ⟨_, _, _, rfl⟩))⟩

end TaskBudget

end Afactory
