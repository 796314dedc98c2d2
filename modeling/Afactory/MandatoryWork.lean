import Mathlib
import Afactory.CompiledTask
import Afactory.TaskBudgetReserve

/-!
# A compiled plan can pay for its mandatory work

`CompiledTask::budget` adds up, before anything runs, the verification reserve and one
Attempt of every node that no branch can drop. `TaskBudget::prepare` checks each
preparation against what is left. The two agree: work within the static sum is never
refused for capacity.

* `minimum_eq_ok`: what the static check adds up;
* `protectedAfter_total`, `checkCall_total`, `checkScope_total`: the sums of a preparation
  fit their machine words;
* `Affords`: the accounts stay within the static sum, and the tokens spent within what
  the accounts used;
* `budget_pays_mandatory_work`: in every run of mandatory work a preparation is granted,
  unless the clock or the deadline refuses it.

The static check knows the root call only. The compiler bounds the calls inside it, so
that part is a condition on the graph.
-/

namespace Afactory

namespace BudgetLedger

variable {L L' : BudgetLedger}

/-! ## What the token ledger grants -/

/-- A scope whose limit holds the amount does not refuse it. -/
theorem refusal_eq_none_of_room {amount limit : ℕ} {s : BudgetScope}
    (hlimit : (L.account s).limit = some limit) (hword : limit < u128Bound)
    (hroom : spent L s + amount ≤ limit) : L.refusal amount s = none := by
  rw [spent, committed, reserved] at hroom
  have hused : addU128 (L.account s).committed (L.account s).reserved =
      some ((L.account s).committed + (L.account s).reserved) :=
    addU128_eq_some.mpr ⟨by omega, rfl⟩
  have htotal : addU128 ((L.account s).committed + (L.account s).reserved) amount =
      some ((L.account s).committed + (L.account s).reserved + amount) :=
    addU128_eq_some.mpr ⟨by omega, rfl⟩
  simp only [refusal, hused, Option.bind_some, htotal, hlimit]
  rw [if_neg (not_lt.mpr hroom)]

/-- An open ledger grants what every scope has room for. -/
theorem reserve_total {scopes : List BudgetScope} {amount : ℕ} (hopen : L.overflowed = false)
    (hnext : L.next + 1 < u64Bound) (hroom : ∀ s ∈ scopes, ∃ limit,
      (L.account s).limit = some limit ∧ limit < u128Bound ∧ spent L s + amount ≤ limit) :
    ∃ r L', L.reserve scopes amount = some (.ok r, L') := by
  rcases reserve_cases L scopes amount with ⟨e, he⟩ | ⟨r, L', hok, -⟩
  · exfalso
    have hfind : (scopeSet scopes).findSome? (L.refusal amount) = none := by
      refine List.findSome?_eq_none_iff.mpr fun s hs => ?_
      obtain ⟨limit, hlimit, hword, hle⟩ := hroom s (mem_scopeSet.mp hs)
      exact refusal_eq_none_of_room hlimit hword hle
    simp only [reserve, hopen, Bool.false_eq_true, if_false, if_neg (not_le.mpr hnext), hfind] at he
    obtain ⟨_, -, he⟩ := Option.map_eq_some_iff.mp he
    cases he
  · exact ⟨r, L', hok⟩

theorem fits_of_room {delta : ℕ} {scopes : List BudgetScope}
    (hopened : ∀ s ∈ scopes, ∃ a, L.accounts.get s = some a)
    (hroom : ∀ s ∈ scopes, L.committed s + delta < u128Bound) :
    L.fits delta scopes = some true := by
  induction scopes with
  | nil => rfl
  | cons s scopes ih =>
    obtain ⟨a, ha⟩ := hopened s List.mem_cons_self
    have hs := hroom s List.mem_cons_self
    rw [committed, account_eq ha] at hs
    rw [fits, ha]
    simp only [addU128_eq_some.mpr ⟨hs, rfl⟩]
    exact ih (fun t ht => hopened t (List.mem_cons_of_mem _ ht))
      fun t ht => hroom t (List.mem_cons_of_mem _ ht)

/-- The charge of an unspent reservation goes through where the counters can take it. -/
theorem Sound.chargeExact_total (h : L.Sound) {r : Reservation} {actual : ℕ}
    (hout : L.outstanding.get r.id = some ⟨r, 0⟩)
    (hroom : ∀ s ∈ r.scopes, L.committed s + actual < u128Bound) {e : String}
    {L' : BudgetLedger} (hcharge : L.chargeExact r actual = some (.error e, L')) : False := by
  have hfits : L.fits (actual - 0) r.scopes = some true := fits_of_room (h.held hout).opened hroom
  simp only [chargeExact, hout, Option.isNone_some, Bool.false_eq_true, if_false] at hcharge
  obtain ⟨⟨answer, L₁⟩, hobserve, hclose⟩ := Option.bind_eq_some_iff.mp hcharge
  cases answer with
  | ok _ =>
    simp only at hclose
    split at hclose
    · cases hclose
    · obtain ⟨_, -, hclose⟩ := Option.map_eq_some_iff.mp hclose
      cases hclose
  | error e' =>
    simp only [observeChargeExact, hout, ne_eq, not_true, if_false, hfits] at hobserve
    obtain ⟨_, -, hobserve⟩ := Option.map_eq_some_iff.mp hobserve
    cases hobserve

/-- A charge within the reservation spends no more than the reservation did. -/
theorem Sound.chargeExact_spent (h : L.Sound) {r : Reservation} {actual : ℕ}
    (hout : L.outstanding.get r.id = some ⟨r, 0⟩) (hwithin : actual ≤ r.amount)
    (hcharge : L.chargeExact r actual = some (.ok (), L')) :
    L'.next = L.next ∧ (∀ s, spent L' s ≤ spent L s) ∧
      ∀ s, (L'.account s).limit = (L.account s).limit := by
  rcases h.chargeExact_cases r actual with
    ⟨hnone, -⟩ | ⟨e, he⟩ | ⟨e, he⟩ | ⟨out, L₁, L₂, hsome, heq, ho, hc, hok⟩
  · rw [hnone] at hout
    cases hout
  · rw [he] at hcharge
    cases hcharge
  · rw [he] at hcharge
    cases hcharge
  · rw [hok] at hcharge
    cases hcharge
    obtain rfl : out = ⟨r, 0⟩ := Option.some.inj (hsome.symm.trans hout)
    have hid₁ : L₁.outstanding.get r.id =
        some { (⟨r, 0⟩ : Outstanding) with observed := max 0 actual } := by
      rw [ho.outstanding, OrdMap.get_insert_self]
    refine ⟨hc.next.trans ho.next, fun s => ?_, fun s =>
      (hc.accounts.limit (fun _ => rfl) s).trans (ho.accounts.limit (fun _ => rfl) s)⟩
    have hsame := h.observes_spent hsome ho hwithin s
    have hclosed := (h.observes hsome ho).closes_spent hid₁ hc s
    exact (Nat.le_add_right _ _).trans (le_of_eq (hclosed.trans hsame))

end BudgetLedger

namespace TaskBudget

open BudgetLedger (spent)

variable {B B' : TaskBudget}

/-! ## The sums of a preparation fit -/

/-- The compiled allocation in wall time. -/
def allocatedWall (nodes : OrdMap String NodeAccount) : ℕ :=
  nodes.sum fun _ a => a.allowance.wallMsPerAttempt * a.allowance.verificationAttempts

theorem allocatedWall_insert {nodes : OrdMap String NodeAccount} {node : String} {a : NodeAccount}
    (ha : nodes.get node = some a) (a' : NodeAccount) (heq : a'.allowance = a.allowance) :
    allocatedWall (nodes.insert node a') = allocatedWall nodes := by
  have := OrdMap.sum_insert_of_some ha a' fun _ a =>
    a.allowance.wallMsPerAttempt * a.allowance.verificationAttempts
  rw [heq] at this
  exact Nat.add_right_cancel this

theorem consumeReserve_wall {node : String} {acc acc' : VerificationReserve × ℕ}
    {entry : String × NodeAccount} (h : consumeReserve node acc entry = .ok acc') :
    let b := if entry.1 = node then entry.2.prepareOne else entry.2
    acc'.1.wallMs = acc.1.wallMs + b.allowance.wallMsPerAttempt * b.covered := by
  obtain ⟨name, account⟩ := entry
  obtain ⟨consumed, remaining⟩ := acc
  rw [consumeReserve] at h
  simp only [bind_eq_ok, checked_eq_ok, addResource_eq_ok] at h
  obtain ⟨used, ⟨-, rfl⟩, attempts, -, product, -, tokens, -, wall, ⟨-, rfl⟩, wallMs, ⟨-, rfl⟩,
    owed', -, h⟩ := h
  cases h
  simp only
  split_ifs <;> rfl

/-- The account as the loops of a preparation read it. -/
def after (node : String) (entry : String × NodeAccount) : NodeAccount :=
  if entry.1 = node then entry.2.prepareOne else entry.2

theorem get_after {nodes : OrdMap String NodeAccount} {node : String} {a : NodeAccount}
    {entry : String × NodeAccount} (ha : nodes.get node = some a)
    (hentry : nodes.get entry.1 = some entry.2) :
    (nodes.insert node a.prepareOne).get entry.1 = some (after node entry) := by
  rw [OrdMap.get_insert, after]
  split_ifs with hn
  · rw [hn, ha] at hentry
    cases hentry
    rfl
  · exact hentry

/-- One account is taken off the reserve as long as the sums fit. -/
theorem consumeReserve_total {node : String} {consumed : VerificationReserve} {remaining : ℕ}
    {entry : String × NodeAccount} (hused : (after node entry).used < u32Bound)
    (hattempts : consumed.attempts + (after node entry).covered < u32Bound)
    (htokens : consumed.tokens +
      entry.2.allowance.tokensPerAttempt * (after node entry).covered < u64Bound)
    (hwall : consumed.wallMs +
      entry.2.allowance.wallMsPerAttempt * (after node entry).covered < u64Bound)
    (howed : remaining + (after node entry).owed < u32Bound) :
    ∃ acc, consumeReserve node (consumed, remaining) entry = .ok acc := by
  obtain ⟨name, b⟩ := entry
  have hread : (after node (name, b)).used = b.used + (if name = node then 1 else 0) ∧
      (after node (name, b)).allowance = b.allowance := by
    rw [after]
    split_ifs <;> exact ⟨rfl, rfl⟩
  rw [NodeAccount.covered, hread.1, hread.2] at hattempts htokens hwall
  rw [NodeAccount.owed, hread.1, hread.2] at howed
  rw [hread.1] at hused
  set used := b.used + if name = node then 1 else 0
  have howed : remaining + (b.allowance.verificationAttempts -
      min used b.allowance.verificationAttempts) < u32Bound := by omega
  refine ⟨(⟨consumed.tokens + b.allowance.tokensPerAttempt * min used
      b.allowance.verificationAttempts, consumed.attempts + min used
      b.allowance.verificationAttempts, consumed.wallMs + b.allowance.wallMsPerAttempt * min used
      b.allowance.verificationAttempts⟩, remaining + (b.allowance.verificationAttempts -
      min used b.allowance.verificationAttempts)), ?_⟩
  rw [consumeReserve]
  simp only [bind_eq_ok, checked_eq_ok, addResource_eq_ok]
  exact ⟨used, ⟨hused, rfl⟩, _, ⟨hattempts, rfl⟩, _,
    ⟨(Nat.le_add_left _ _).trans_lt htokens, rfl⟩, _, ⟨htokens, rfl⟩, _,
    ⟨(Nat.le_add_left _ _).trans_lt hwall, rfl⟩, _, ⟨hwall, rfl⟩, _, ⟨howed, rfl⟩, rfl⟩

theorem coveredTokens_le (nodes : OrdMap String NodeAccount) :
    coveredTokens nodes ≤ allocatedTokens nodes := by
  rw [← coveredTokens_add_owedTokens]
  exact Nat.le_add_right _ _

/-- The reserve a preparation holds back is always computed: its sums stay within the
compiled allocation. -/
theorem protectedAfter_total {node : String} {a : NodeAccount}
    (ha : B.nodes.get node = some a) (hattempts : allocated B.nodes < u32Bound)
    (htokens : allocatedTokens B.nodes < u64Bound) (hwall : allocatedWall B.nodes < u64Bound)
    (hused : ∀ {n b}, (B.nodes.insert node a.prepareOne).get n = some b → b.used < u32Bound) :
    ∃ reserve, B.protectedAfter node = .ok reserve := by
  cases hp : B.protectedAfter node with
  | ok reserve => exact ⟨reserve, rfl⟩
  | error e =>
    exfalso
    rw [protectedAfter] at hp
    split_ifs at hp
    · cases hp
    rcases bind_eq_error.mp hp with hp | ⟨⟨consumed, remaining⟩, -, hp⟩
    · obtain ⟨l₁, entry, l₂, ⟨consumed, remaining⟩, hl, hbefore, hrefused⟩ :=
        foldlM_error_split hp
      -- the sums up to the refused account are part of the sums over all accounts
      have hsumA := foldlM_refused_le (r := fun acc => acc.1.attempts)
        (fun _ _ _ hstep => (consumeReserve_eq_ok hstep).2.1) hl hbefore
      have hsumT := foldlM_refused_le (r := fun acc => acc.1.tokens)
        (fun _ _ _ hstep => (consumeReserve_eq_ok hstep).1) hl hbefore
      have hsumW := foldlM_refused_le (r := fun acc => acc.1.wallMs)
        (fun _ _ _ hstep => consumeReserve_wall hstep) hl hbefore
      have hsumO := foldlM_refused_le (r := fun acc => acc.2)
        (fun _ _ _ hstep => (consumeReserve_eq_ok hstep).2.2) hl hbefore
      simp only [Nat.zero_add] at hsumA hsumT hsumW hsumO
      have hallA := covered_add_owed (B.nodes.insert node a.prepareOne)
      rw [allocated_insert ha a.prepareOne rfl] at hallA
      have hallT := coveredTokens_le (B.nodes.insert node a.prepareOne)
      rw [allocatedTokens_insert ha a.prepareOne rfl] at hallT
      have hA := hsumA.trans (le_of_eq (sum_prepareOne ha fun _ b => b.covered))
      have hT := hsumT.trans (le_of_eq (sum_prepareOne ha fun _ b =>
        b.allowance.tokensPerAttempt * b.covered))
      have hO := hsumO.trans (le_of_eq (sum_prepareOne ha fun _ b => b.owed))
      have hW := hsumW.trans (le_of_eq (sum_prepareOne ha fun _ b =>
        b.allowance.wallMsPerAttempt * b.covered))
      have hallW : ((B.nodes.insert node a.prepareOne).sum fun _ b =>
          b.allowance.wallMsPerAttempt * b.covered) ≤ allocatedWall B.nodes := by
        rw [← allocatedWall_insert ha a.prepareOne rfl]
        refine OrdMap.sum_le_sum fun _ b _ => Nat.mul_le_mul_left _ ?_
        exact Nat.min_le_right _ _
      have hget : B.nodes.get entry.1 = some entry.2 := by
        refine OrdMap.mem_iff_get.mp ?_
        rw [hl]
        simp
      have hallow : (after node entry).allowance = entry.2.allowance := by
        rw [after]
        split_ifs <;> rfl
      obtain ⟨acc, hok⟩ : ∃ acc, consumeReserve node (consumed, remaining) entry = .ok acc := by
        refine consumeReserve_total (hused (get_after ha hget)) ?_ ?_ ?_ ?_
        · exact (hA.trans (by rw [← hallA]; exact Nat.le_add_right _ _)).trans_lt hattempts
        · rw [← hallow]
          exact (hT.trans hallT).trans_lt htokens
        · rw [← hallow]
          exact (hW.trans hallW).trans_lt hwall
        · exact (hO.trans (by rw [← hallA]; exact Nat.le_add_left _ _)).trans_lt hattempts
      rw [hok] at hrefused
      cases hrefused
    · simp only at hp
      split_ifs at hp
      · cases hp
      · cases hp

theorem addOccupied_sum {scope node : String} {occupied occupied' : ℕ}
    {entry : String × NodeAccount} (h : addOccupied scope node occupied entry = .ok occupied') :
    occupied' = occupied + if within entry.1 scope then entry.2.used +
      (entry.2.allowance.verificationAttempts -
        (entry.2.used + if entry.1 = node then 1 else 0)) else 0 := by
  obtain ⟨member, b⟩ := entry
  rw [addOccupied] at h
  by_cases hwithin : within member scope = true
  · simp only [hwithin, if_true, bind_eq_ok, addResource_eq_ok] at h ⊢
    obtain ⟨sum, ⟨-, rfl⟩, -, rfl⟩ := h
    omega
  · simp only [hwithin] at h ⊢
    cases h
    rfl

/-- A call with room for what its members use or owe accepts the candidate. -/
theorem checkCall_total {node scope : String} {limit : ℕ}
    (hroom : within node scope = true →
      B.occupiedAfter scope node ≤ limit ∧ B.occupiedAfter scope node < u64Bound) :
    B.checkCall node (scope, limit) = .ok () := by
  rw [checkCall]
  split_ifs with hwithin
  · obtain ⟨hle, hword⟩ := hroom hwithin
    cases hfold : B.nodes.entries.foldlM (addOccupied scope node) 1 with
    | ok occupied =>
      rw [bind_eq_ok]
      refine ⟨occupied, rfl, ?_⟩
      rw [foldlM_addOccupied hfold, if_neg (not_lt.mpr hle)]
      rfl
    | error e =>
      exfalso
      obtain ⟨l₁, entry, l₂, occupied, hl, hbefore, hrefused⟩ := foldlM_error_split hfold
      have hsum := foldlM_refused_le (r := fun n => n)
        (fun _ _ _ hstep => addOccupied_sum hstep) hl hbefore
      have htotal := hsum.trans_lt hword
      rw [addOccupied] at hrefused
      by_cases hmember : within entry.1 scope = true
      · simp only [hmember, if_true] at htotal hrefused
        rw [bind_eq_error] at hrefused
        -- either sum of the refused member is below the limit
        rcases hrefused with hrefused | ⟨sum, hfirst, hrefused⟩
        · rw [addResource, checked, if_pos (by omega)] at hrefused
          cases hrefused
        · obtain ⟨-, rfl⟩ := addResource_eq_ok.mp hfirst
          rw [addResource, checked, if_pos (by omega)] at hrefused
          cases hrefused
      · simp only [hmember] at hrefused
        cases hrefused
  · rfl

/-- What a scope holds back is computed as long as it fits. -/
theorem scopeVerificationAfter_total {node : String} {scope : TaskTokenScope} {a : NodeAccount}
    (ha : B.nodes.get node = some a)
    (hword : scopeOwed (B.nodes.insert node a.prepareOne) scope < u64Bound) :
    B.scopeVerificationAfter scope (some node) =
      .ok (scopeOwed (B.nodes.insert node a.prepareOne) scope) := by
  cases hfold : B.scopeVerificationAfter scope (some node) with
  | ok required => rw [scopeVerificationAfter_eq ha hfold]
  | error e =>
    exfalso
    rw [scopeVerificationAfter] at hfold
    obtain ⟨l₁, entry, l₂, required, hl, hbefore, hrefused⟩ := foldlM_error_split hfold
    have hsum := foldlM_refused_le (r := fun n => n)
      (fun _ _ _ hstep => addScopeOwed_eq_ok hstep) hl hbefore
    have hall : (B.nodes.sum fun n b => if scope.contains n then
        b.allowance.tokensPerAttempt * (b.allowance.verificationAttempts -
          (b.used + if some node = some n then 1 else 0)) else 0) =
        scopeOwed (B.nodes.insert node a.prepareOne) scope := by
      rw [scopeOwed, ← sum_prepareOne ha]
      refine OrdMap.sum_congr fun n b _ => ?_
      by_cases hnode : n = node
      · simp [hnode, NodeAccount.owed]
      · simp [hnode, NodeAccount.owed, Ne.symm hnode]
    have hsum := hsum.trans (le_of_eq ((Nat.zero_add _).trans hall))
    rw [addScopeOwed] at hrefused
    by_cases hmember : scope.contains entry.1 = true
    · simp only [hmember, if_true] at hsum hrefused
      rw [bind_eq_error] at hrefused
      rcases hrefused with hrefused | ⟨product, hproduct, hrefused⟩
      · rw [checked, if_pos (by omega)] at hrefused
        cases hrefused
      · obtain ⟨-, rfl⟩ := checked_eq_ok.mp hproduct
        rw [addResource, checked, if_pos (by omega)] at hrefused
        cases hrefused
    · simp only [hmember] at hrefused
      cases hrefused

/-- A scope with room for the candidate and what is then owed accepts it. -/
theorem checkScope_total {node name : String} {scope : TaskTokenScope} {a : NodeAccount}
    {tokens : ℕ} (ha : B.nodes.get node = some a)
    (hroom : tokens + scopeOwed (B.nodes.insert node a.prepareOne) scope ≤
      (B.tokens.remaining (.fanOut name)).getD 0)
    (hword : (B.tokens.remaining (.fanOut name)).getD 0 < u64Bound) :
    B.checkScope node tokens (name, scope) = .ok () := by
  rw [checkScope, scopeVerificationAfter_total ha (by omega), bind_eq_ok]
  refine ⟨_, rfl, ?_⟩
  rw [bind_eq_ok]
  refine ⟨_, addResource_eq_ok.mpr ⟨by omega, rfl⟩, ?_⟩
  rw [if_neg (not_lt.mpr hroom)]
  rfl

/-- The Task's tokens hold the candidate and the reserve. -/
theorem checkTokens_total {tokens held : ℕ} (hroom : tokens + held ≤ B.remainingTokens)
    (hword : B.remainingTokens < u64Bound) : B.checkTokens tokens held = .ok () := by
  rw [checkTokens, bind_eq_ok]
  refine ⟨_, addResource_eq_ok.mpr ⟨hroom.trans_lt hword, rfl⟩, ?_⟩
  rw [if_neg (not_lt.mpr hroom)]
  rfl

/-! ## Plans -/

/-- What a static check knows of a graph: the limits, the nodes' allowances, the calls and
scopes, and the Attempts a node may take besides its verification. -/
structure Plan where
  limits : TaskLimits
  allowances : OrdMap String NodeAllowance
  calls : OrdMap String ℕ
  scopes : OrdMap String TaskTokenScope
  once : String → NodeAllowance → ℕ

/-- The Attempts the plan has for a node. -/
def Plan.quota (P : Plan) (node : String) (allowance : NodeAllowance) : ℕ :=
  allowance.verificationAttempts + P.once node allowance

/-- The limits hold the verification reserve and the other planned Attempts, and every call
and scope holds the planned Attempts of its members. -/
structure Plan.Feasible (P : Plan) : Prop where
  attempts : P.limits.verification.attempts + P.allowances.sum P.once ≤
    P.limits.maxAttempts
  tokens : P.limits.verification.tokens +
    P.allowances.sum (fun n w => w.tokensPerAttempt * P.once n w) ≤ P.limits.tokens
  calls : ∀ {scope limit}, P.calls.get scope = some limit →
    P.allowances.sum (fun n w => if within n scope then P.quota n w else 0) ≤ limit
  scopes : ∀ {name scope}, P.scopes.get name = some scope →
    P.allowances.sum (fun n w =>
      if scope.contains n then w.tokensPerAttempt * P.quota n w else 0) ≤ scope.tokens
  node : ∀ {n w}, P.allowances.get n = some w → P.quota n w ≤ w.maxAttempts
  attemptWord : P.limits.maxAttempts < u32Bound
  tokenWord : P.limits.tokens ≤ safeIntegerMax
  scopeWord : ∀ {name scope}, P.scopes.get name = some scope → scope.tokens ≤ safeIntegerMax
  wallWord : P.allowances.sum (fun _ w => w.wallMsPerAttempt * w.verificationAttempts) < u64Bound

/-- Accounts of the plan's nodes that took no more than planned. -/
structure Plan.Within (P : Plan) (nodes : OrdMap String NodeAccount) : Prop where
  allowances : nodes.mapVal (fun _ a => a.allowance) = P.allowances
  used : ∀ {n a}, nodes.get n = some a → a.used ≤ P.quota n a.allowance

section Within

variable {P : Plan} {nodes : OrdMap String NodeAccount}

theorem Plan.Within.sum_eq (h : P.Within nodes) (f : String → NodeAllowance → ℕ) :
    nodes.sum (fun n a => f n a.allowance) = P.allowances.sum f := by
  rw [← h.allowances, OrdMap.sum_mapVal]

theorem Plan.Within.insert (h : P.Within nodes) {node : String} {a a' : NodeAccount}
    (ha : nodes.get node = some a) (hallow : a'.allowance = a.allowance)
    (hused : a'.used ≤ P.quota node a'.allowance) : P.Within (nodes.insert node a') := by
  refine ⟨?_, fun {n b} hb => ?_⟩
  · rw [← h.allowances]
    refine OrdMap.ext fun n => ?_
    rw [OrdMap.get_mapVal, OrdMap.get_mapVal, OrdMap.get_insert]
    split_ifs with hn
    · rw [hn, ha, Option.map_some, Option.map_some, hallow]
    · rfl
  · rw [OrdMap.get_insert] at hb
    split_ifs at hb with hn
    · cases hb
      rw [hn]
      exact hused
    · exact h.used hb

/-- An account within its quota took its verification and the other planned Attempts. -/
theorem Plan.Within.used_le (h : P.Within nodes) {n : String} {a : NodeAccount}
    (ha : nodes.get n = some a) : a.used ≤ a.covered + P.once n a.allowance := by
  have := h.used ha
  rw [Plan.quota] at this
  rw [NodeAccount.covered]
  omega

theorem Plan.Within.attempts_le (h : P.Within nodes) :
    nodes.sum (fun _ a => a.used) ≤ covered nodes + P.allowances.sum P.once := by
  rw [← h.sum_eq P.once, covered, ← OrdMap.sum_add]
  exact OrdMap.sum_le_sum fun n a ha => h.used_le ha

theorem Plan.Within.tokens_le (h : P.Within nodes) :
    nodes.sum (fun _ a => a.allowance.tokensPerAttempt * a.used) ≤
      coveredTokens nodes + P.allowances.sum fun n w => w.tokensPerAttempt * P.once n w := by
  rw [← h.sum_eq fun n w => w.tokensPerAttempt * P.once n w, coveredTokens, ← OrdMap.sum_add]
  refine OrdMap.sum_le_sum fun n a ha => ?_
  rw [← Nat.mul_add]
  exact Nat.mul_le_mul_left _ (h.used_le ha)

theorem Plan.Within.callReserved_le (h : P.Within nodes) (scope : String) :
    callReserved nodes scope ≤
      P.allowances.sum fun n w => if within n scope then P.quota n w else 0 := by
  rw [← h.sum_eq fun n w => if within n scope then P.quota n w else 0, callReserved]
  refine OrdMap.sum_le_sum fun n a ha => ?_
  split_ifs
  · exact max_le (h.used ha) (Nat.le_add_right _ _)
  · exact le_rfl

theorem Plan.Within.scope_le (h : P.Within nodes) (scope : TaskTokenScope) :
    nodes.sum (fun n a =>
        if scope.contains n then a.allowance.tokensPerAttempt * a.used else 0) +
      scopeOwed nodes scope ≤
      P.allowances.sum fun n w =>
        if scope.contains n then w.tokensPerAttempt * P.quota n w else 0 := by
  rw [← h.sum_eq fun n w => if scope.contains n then w.tokensPerAttempt * P.quota n w else 0,
    scopeOwed, ← OrdMap.sum_add]
  refine OrdMap.sum_le_sum fun n a ha => ?_
  split_ifs
  · rw [← Nat.mul_add]
    refine Nat.mul_le_mul_left _ ?_
    have := h.used ha
    rw [Plan.quota] at this ⊢
    rw [NodeAccount.owed]
    omega
  · exact le_rfl

end Within

/-- The budget of a feasible plan: within it, still open, and charged for no more than its
accounts used. -/
structure Affords (P : Plan) (B : TaskBudget) : Prop where
  guarded : B.Guarded
  planned : P.Within B.nodes
  opened : B.breached = false
  known : B.deferredVerification = false
  limits : B.limits = P.limits
  calls : B.callLimits = P.calls
  scopes : B.tokenScopes = P.scopes
  retired : B.retiredAttempts = 0
  recovered : ∀ {n a}, B.nodes.get n = some a → a.recovered = 0
  tokens : spent B.tokens .run ≤ B.nodes.sum fun _ a => a.allowance.tokensPerAttempt * a.used
  scopeTokens : ∀ {name scope}, B.tokenScopes.get name = some scope →
    spent B.tokens (.fanOut name) ≤ B.nodes.sum fun n a =>
      if scope.contains n then a.allowance.tokensPerAttempt * a.used else 0
  ids : B.tokens.next ≤ B.usedAttempts

section Grants

variable {P : Plan} {node : String} {a : NodeAccount}

theorem Affords.usedAttempts_eq (h : Affords P B) :
    B.usedAttempts = B.nodes.sum fun _ a => a.used := by
  rw [usedAttempts, h.retired, Nat.zero_add]

theorem Affords.sum_used (h : Affords P B) (ha : B.nodes.get node = some a) :
    (B.nodes.insert node a.prepareOne).sum (fun _ b => b.used) = B.usedAttempts + 1 := by
  have hsum := OrdMap.sum_insert_of_some ha a.prepareOne fun _ b => b.used
  rw [NodeAccount.prepareOne_used] at hsum
  rw [h.usedAttempts_eq]
  omega

theorem Affords.sum_tokens (ha : B.nodes.get node = some a) :
    (B.nodes.insert node a.prepareOne).sum (fun _ b => b.allowance.tokensPerAttempt * b.used) =
      (B.nodes.sum fun _ b => b.allowance.tokensPerAttempt * b.used) +
        a.allowance.tokensPerAttempt := by
  have hsum := OrdMap.sum_insert_of_some ha a.prepareOne fun _ b =>
    b.allowance.tokensPerAttempt * b.used
  rw [NodeAccount.prepareOne_used, NodeAccount.prepareOne_allowance, Nat.mul_add] at hsum
  omega

theorem Affords.sum_scope (ha : B.nodes.get node = some a) (scope : TaskTokenScope) :
    ((B.nodes.insert node a.prepareOne).sum fun n b =>
        if scope.contains n then b.allowance.tokensPerAttempt * b.used else 0) =
      (B.nodes.sum fun n b =>
        if scope.contains n then b.allowance.tokensPerAttempt * b.used else 0) +
        if scope.contains node then a.allowance.tokensPerAttempt else 0 := by
  have hsum := OrdMap.sum_insert_of_some ha a.prepareOne fun n b =>
    if scope.contains n then b.allowance.tokensPerAttempt * b.used else 0
  rw [NodeAccount.prepareOne_used, NodeAccount.prepareOne_allowance, Nat.mul_add] at hsum
  split_ifs at hsum ⊢ with hcontains
  · omega
  · omega

theorem Affords.within_prepared (h : Affords P B) (ha : B.nodes.get node = some a)
    (hleft : a.used < P.quota node a.allowance) :
    P.Within (B.nodes.insert node a.prepareOne) :=
  h.planned.insert ha rfl hleft

/-- The planned Attempts of all nodes fit the Task's limit. -/
theorem Affords.quota_le (h : Affords P B) (hP : P.Feasible) :
    P.allowances.sum (fun n w => P.quota n w) ≤ P.limits.maxAttempts := by
  have hsplit : P.allowances.sum (fun n w => P.quota n w) =
      allocated B.nodes + P.allowances.sum P.once := by
    rw [allocated, h.planned.sum_eq fun _ w => w.verificationAttempts, ← OrdMap.sum_add]
    rfl
  have hmin := h.guarded.minAttempts
  have hattempts := hP.attempts
  rw [h.limits] at hmin
  omega

/-- The node's own limits let it take a planned Attempt. -/
theorem Affords.checkNode (h : Affords P B) (hP : P.Feasible) (ha : B.nodes.get node = some a)
    (hleft : a.used < P.quota node a.allowance) {now : ℕ} (hclock : B.lastTime ≤ now) :
    B.checkNode node now = .ok a := by
  have hallow : P.allowances.get node = some a.allowance := by
    rw [← h.planned.allowances, OrdMap.get_mapVal, ha, Option.map_some]
  have hnode := hP.node hallow
  rw [TaskBudget.checkNode, bind_eq_ok]
  refine ⟨(), require_eq_ok.mpr (by simp [h.opened, hclock]), ?_⟩
  simp only [ha, bind_eq_ok]
  refine ⟨(), require_eq_ok.mpr ?_, (), require_eq_ok.mpr ?_, rfl⟩
  · simp [h.recovered ha]
  · exact decide_eq_true (hleft.trans_le hnode)

theorem Affords.protectedAfter (h : Affords P B) (hP : P.Feasible)
    (ha : B.nodes.get node = some a) (hleft : a.used < P.quota node a.allowance) :
    ∃ reserve, B.protectedAfter node = .ok reserve := by
  have hminA := h.guarded.minAttempts
  have hminT := h.guarded.minTokens
  have hattempts := hP.attempts
  have htokens := hP.tokens
  have hword := hP.attemptWord
  have htokenWord := hP.tokenWord
  have hsafe : safeIntegerMax < u64Bound := by decide
  rw [h.limits] at hminA hminT
  refine protectedAfter_total ha (by omega) (by omega) ?_ fun {n b} hb => ?_
  · rw [allocatedWall, h.planned.sum_eq fun _ w => w.wallMsPerAttempt * w.verificationAttempts]
    exact hP.wallWord
  · have hused := OrdMap.le_sum hb fun _ b => b.used
    have hsum := (h.within_prepared ha hleft).attempts_le
    have hcovered := covered_add_owed (B.nodes.insert node a.prepareOne)
    rw [allocated_insert ha a.prepareOne rfl] at hcovered
    omega

/-- **The static sum covers the dynamic checks**: a planned Attempt fits the Task's Attempts
and tokens beside the reserve, its calls and its scopes. -/
theorem Affords.room (h : Affords P B) (hP : P.Feasible) (ha : B.nodes.get node = some a)
    (hleft : a.used < P.quota node a.allowance) {reserve : VerificationReserve}
    (hreserve : B.protectedAfter node = .ok reserve) :
    B.usedAttempts + 1 + reserve.attempts ≤ B.limits.maxAttempts ∧
      spent B.tokens .run + a.allowance.tokensPerAttempt + reserve.tokens ≤ B.limits.tokens ∧
      (∀ {scope limit}, B.callLimits.get scope = some limit → within node scope = true →
        B.occupiedAfter scope node ≤ limit ∧ B.occupiedAfter scope node < u64Bound) ∧
      ∀ {name scope}, B.tokenScopes.get name = some scope → scope.contains node = true →
        spent B.tokens (.fanOut name) + a.allowance.tokensPerAttempt +
          scopeOwed (B.nodes.insert node a.prepareOne) scope ≤ scope.tokens := by
  have hwithin := h.within_prepared ha hleft
  have hattempts := hwithin.attempts_le
  have htokens := hwithin.tokens_le
  have hcovered := covered_add_owed (B.nodes.insert node a.prepareOne)
  have hcoveredT := coveredTokens_le (B.nodes.insert node a.prepareOne)
  have hminA := h.guarded.minAttempts
  have hminT := h.guarded.minTokens
  have hfeasibleA := hP.attempts
  have hfeasibleT := hP.tokens
  have hspent := h.tokens
  rw [allocated_insert ha a.prepareOne rfl] at hcovered
  rw [allocatedTokens_insert ha a.prepareOne rfl] at hcoveredT
  rw [h.sum_used ha] at hattempts
  rw [Affords.sum_tokens ha] at htokens
  rw [h.limits] at hminA hminT ⊢
  refine ⟨?_, ?_, ?_, ?_⟩
  · rcases protectedAfter_eq h.known ha hreserve with ⟨-, -, hzero⟩ | ⟨-, -, hrest⟩
    · omega
    · rw [h.limits] at hrest
      omega
  · rcases protectedAfter_eq h.known ha hreserve with ⟨-, hzero, -⟩ | ⟨-, hrest, -⟩
    · omega
    · rw [h.limits] at hrest
      omega
  · intro scope limit hlimit hmember
    have hcall := hwithin.callReserved_le scope
    have hlimit' := hP.calls (h.calls ▸ hlimit)
    have hall : (P.allowances.sum fun n w => if within n scope then P.quota n w else 0) ≤
        P.allowances.sum fun n w => P.quota n w := by
      refine OrdMap.sum_le_sum fun n w _ => ?_
      split_ifs
      · exact le_rfl
      · exact Nat.zero_le _
    have hword := hP.attemptWord
    have hquota := h.quota_le hP
    have hbound : u32Bound < u64Bound := by decide
    rw [occupiedAfter_eq ha hmember]
    omega
  · intro name scope hscope hmember
    have hsum := hwithin.scope_le scope
    have hlimit := hP.scopes (h.scopes ▸ hscope)
    have hscopeSpent := h.scopeTokens hscope
    rw [Affords.sum_scope ha scope, if_pos hmember] at hsum
    omega

theorem Affords.remaining_scope (h : Affords P B) {name : String} {scope : TaskTokenScope}
    (hscope : B.tokenScopes.get name = some scope) :
    (B.tokens.account (.fanOut name)).limit = some scope.tokens ∧ scope.tokens < u128Bound ∧
      (B.tokens.remaining (.fanOut name)).getD 0 =
        scope.tokens - spent B.tokens (.fanOut name) := by
  obtain ⟨hlimit, hbounded, hroom⟩ := h.guarded.scopes hscope
  exact ⟨hlimit, hbounded,
    remaining_eq (h.guarded.overflowed h.opened) hlimit (by omega) hbounded⟩

/-- Every check but the deadline's accepts a planned Attempt. -/
theorem Affords.admission (h : Affords P B) (hP : P.Feasible) (ha : B.nodes.get node = some a)
    (hleft : a.used < P.quota node a.allowance) {now : ℕ} (hclock : B.lastTime ≤ now)
    {reserve : VerificationReserve} (hreserve : B.protectedAfter node = .ok reserve)
    {deadline : ℕ}
    (hdeadline : B.checkDeadline now a.allowance.wallMsPerAttempt reserve.wallMs = .ok deadline) :
    B.admission node now =
      .ok (a, deadline, (B.scopesOf node).map (fun e => .fanOut e.1) ++ [.run]) := by
  obtain ⟨hattempts, htokens, hcalls, hscopes⟩ := h.room hP ha hleft hreserve
  have hsafe : safeIntegerMax < u64Bound := by decide
  have htokenWord := hP.tokenWord
  rw [← h.limits] at htokenWord
  rw [TaskBudget.admission, bind_eq_ok]
  refine ⟨a, h.checkNode hP ha hleft hclock, ?_⟩
  rw [bind_eq_ok]
  refine ⟨reserve, hreserve, ?_⟩
  rw [if_neg (not_lt.mpr hattempts)]
  simp only [bind_eq_ok]
  refine ⟨(), forM_eq_ok.mpr fun entry hentry => ?_, deadline, hdeadline, (), ?_, _, ?_, rfl⟩
  · exact checkCall_total fun hmember => hcalls (OrdMap.mem_iff_get.mp hentry) hmember
  · refine checkTokens_total ?_ ?_
    · rw [h.guarded.remainingTokens_eq h.opened]
      omega
    · rw [h.guarded.remainingTokens_eq h.opened]
      omega
  · rw [reservationScopes, bind_eq_ok]
    refine ⟨(), forM_eq_ok.mpr fun entry hentry => ?_, rfl⟩
    obtain ⟨name, scope⟩ := entry
    obtain ⟨hmem, hmember⟩ := List.mem_filter.mp hentry
    have hscope := OrdMap.mem_iff_get.mp hmem
    have hroom := hscopes hscope hmember
    have hword := hP.scopeWord (h.scopes ▸ hscope)
    obtain ⟨-, -, hremaining⟩ := h.remaining_scope hscope
    refine checkScope_total ha ?_ ?_
    · rw [hremaining]
      omega
    · rw [hremaining]
      omega

/-- **A planned Attempt is granted**, the clock and the deadline allowing. -/
theorem Affords.grants (h : Affords P B) (hP : P.Feasible) (ha : B.nodes.get node = some a)
    (hleft : a.used < P.quota node a.allowance) {now : ℕ} (hclock : B.lastTime ≤ now) :
    ∃ reserve, B.protectedAfter node = .ok reserve ∧
      ((∃ given B', B.prepare node now = some (.ok given, B')) ∨
        ∃ e, B.checkDeadline now a.allowance.wallMsPerAttempt reserve.wallMs = .error e) := by
  obtain ⟨reserve, hreserve⟩ := h.protectedAfter hP ha hleft
  refine ⟨reserve, hreserve, ?_⟩
  cases hdeadline : B.checkDeadline now a.allowance.wallMsPerAttempt reserve.wallMs with
  | error e => exact .inr ⟨e, rfl⟩
  | ok deadline =>
    left
    obtain ⟨hattempts, htokens, -, hscopes⟩ := h.room hP ha hleft hreserve
    have hids := h.ids
    have hword := hP.attemptWord
    have hbound : u32Bound < u64Bound := by decide
    rw [← h.limits] at hword
    obtain ⟨r, tokens, hr⟩ : ∃ r tokens, B.tokens.reserve
        ((B.scopesOf node).map (fun e => .fanOut e.1) ++ [.run]) a.allowance.tokensPerAttempt =
          some (.ok r, tokens) := by
      refine BudgetLedger.reserve_total (h.guarded.overflowed h.opened) (by omega) fun s hs => ?_
      rcases List.mem_append.mp hs with hs | hs
      · obtain ⟨⟨name, scope⟩, hentry, rfl⟩ := List.mem_map.mp hs
        obtain ⟨hmem, hmember⟩ := List.mem_filter.mp hentry
        have hscope := OrdMap.mem_iff_get.mp hmem
        have hroom := hscopes hscope hmember
        obtain ⟨hlimit, hbounded, -⟩ := h.remaining_scope hscope
        exact ⟨scope.tokens, hlimit, hbounded, by simp only; omega⟩
      · rw [List.mem_singleton] at hs
        cases hs
        exact ⟨B.limits.tokens, h.guarded.inv.limited, h.guarded.bounded, by omega⟩
    rw [prepare, h.admission hP ha hleft hclock hreserve hdeadline]
    simp only [hr, Option.map_some]
    exact ⟨_, _, rfl⟩

/-! ## Work within the plan keeps the budget within it -/

/-- A granted Attempt is charged to its account and to its scopes. -/
theorem Affords.withReservation (h : Affords P B) {scopes : List BudgetScope}
    {reserve : VerificationReserve} (hadmits : Admits B node a scopes reserve)
    (hleft : a.used < P.quota node a.allowance) {r : Reservation} {tokens : BudgetLedger}
    (hr : BudgetLedger.Reserves B.tokens r tokens)
    (hamount : r.amount = a.allowance.tokensPerAttempt)
    (hscopes : r.scopes = BudgetLedger.scopeSet scopes) (deadline now : ℕ) :
    Affords P (B.withReservation a tokens r ⟨r.id, node, r.amount, deadline⟩ now) := by
  have ha := hadmits.account_eq
  obtain ⟨hlist, -⟩ := reservationScopes_eq_ok hadmits.scopes_eq
  have hheld : r.scopes = B.scopesHeld node := by rw [hscopes, hlist, scopesHeld]
  refine ⟨h.guarded.withReservation h.opened hadmits hr hamount hscopes deadline now,
    h.within_prepared ha hleft, h.opened, h.known, h.limits, h.calls, h.scopes, h.retired,
    fun {n b} hb => ?_, ?_, fun {name scope} hscope => ?_, ?_⟩
  · change (B.nodes.insert node a.prepareOne).get n = some b at hb
    rw [OrdMap.get_insert] at hb
    split_ifs at hb
    · cases hb
      have hnone := h.recovered ha
      exact hnone
    · exact h.recovered hb
  · change spent tokens .run ≤ (B.nodes.insert node a.prepareOne).sum _
    rw [Affords.sum_tokens ha, hr.spent, if_pos (by rw [hheld]; exact run_mem_scopesHeld B node),
      hamount]
    exact Nat.add_le_add_right h.tokens _
  · change spent tokens (.fanOut name) ≤ (B.nodes.insert node a.prepareOne).sum _
    have hmem : BudgetScope.fanOut name ∈ r.scopes ↔ scope.contains node = true := by
      rw [hheld]
      exact fanOut_mem_scopesHeld hscope node
    rw [Affords.sum_scope ha scope, hr.spent, hamount]
    simp only [hmem]
    exact Nat.add_le_add_right (h.scopeTokens hscope) _
  · have hsum := h.sum_used ha
    have hids := h.ids
    change tokens.next ≤ B.retiredAttempts + (B.nodes.insert node a.prepareOne).sum _
    rw [hr.next, hsum, h.retired]
    omega

/-- What the plan reads of an account. -/
def bill (a : NodeAccount) : NodeAllowance × ℕ × ℕ := (a.allowance, a.used, a.recovered)

theorem sum_of_bill (hnodes : B'.nodes.mapVal (fun _ a => bill a) = B.nodes.mapVal fun _ a => bill a)
    (f : String → NodeAllowance → ℕ → ℕ) :
    B'.nodes.sum (fun n a => f n a.allowance a.used) =
      B.nodes.sum fun n a => f n a.allowance a.used := by
  have hsum := congrArg (fun m => m.sum fun n b => f n b.1 b.2.1) hnodes
  simp only [OrdMap.sum_mapVal] at hsum
  exact hsum

/-- Work that takes no further Attempt and spends no more stays within the plan. -/
theorem Affords.keep (h : Affords P B) (hguarded : B'.Guarded) (hgraph : SameGraph B B')
    (hopened : B'.breached = false) (hretired : B'.retiredAttempts = B.retiredAttempts)
    (hnodes : B'.nodes.mapVal (fun _ a => bill a) = B.nodes.mapVal fun _ a => bill a)
    (hspent : ∀ s, spent B'.tokens s ≤ spent B.tokens s) (hnext : B'.tokens.next = B.tokens.next) :
    Affords P B' := by
  have hget : ∀ {n b}, B'.nodes.get n = some b → ∃ c, B.nodes.get n = some c ∧ bill c = bill b := by
    intro n b hb
    have hmap := congrArg (fun m => m.get n) hnodes
    simp only [OrdMap.get_mapVal, hb, Option.map_some] at hmap
    obtain ⟨c, hc, heq⟩ := Option.map_eq_some_iff.mp hmap.symm
    exact ⟨c, hc, heq⟩
  have hallow : B'.nodes.mapVal (fun _ a => a.allowance) =
      B.nodes.mapVal fun _ a => a.allowance := by
    refine OrdMap.ext fun n => ?_
    have hmap := congrArg (fun m => (m.get n).map Prod.fst) hnodes
    simp only [OrdMap.get_mapVal, Option.map_map] at hmap ⊢
    exact hmap
  have hused : B'.usedAttempts = B.usedAttempts := by
    rw [usedAttempts, usedAttempts, hretired, sum_of_bill hnodes fun _ _ used => used]
  refine ⟨hguarded, ⟨hallow.trans h.planned.allowances, fun {n b} hb => ?_⟩, hopened,
    hgraph.deferred.trans h.known, hgraph.limits.trans h.limits, hgraph.calls.trans h.calls,
    hgraph.scopes.trans h.scopes, hretired.trans h.retired, fun {n b} hb => ?_, ?_,
    fun {name scope} hscope => ?_, ?_⟩
  · obtain ⟨c, hc, heq⟩ := hget hb
    simp only [bill, Prod.mk.injEq] at heq
    have := h.planned.used hc
    rw [heq.1, heq.2.1] at this
    exact this
  · obtain ⟨c, hc, heq⟩ := hget hb
    simp only [bill, Prod.mk.injEq] at heq
    rw [← heq.2.2]
    exact h.recovered hc
  · rw [sum_of_bill hnodes fun _ w used => w.tokensPerAttempt * used]
    exact (hspent .run).trans h.tokens
  · rw [hgraph.scopes] at hscope
    rw [sum_of_bill hnodes fun n w used => if scope.contains n then w.tokensPerAttempt * used else 0]
    exact (hspent _).trans (h.scopeTokens hscope)
  · rw [hnext, hused]
    exact h.ids

/-- Work on a plan: planned Attempts are prepared, started, and settled within their
reservations. -/
def PlannedOp (P : Plan) (B : TaskBudget) : Op → Prop
  | .prepare node _ => ∀ a, B.nodes.get node = some a →
      a.begun + a.prepared < P.quota node a.allowance
  | .begin _ _ => True
  | .settleExact id actual => ∀ held, B.reservations.get id = some held →
      actual ≤ held.tokens.amount
  | _ => False

theorem Affords.used_eq (h : Affords P B) (ha : B.nodes.get node = some a) :
    a.used = a.begun + a.prepared := by
  rw [NodeAccount.used, NodeAccount.chargeable, h.recovered ha, Nat.sub_zero]

/-- A settlement within its reservation never closes admission. -/
theorem Affords.settles (h : Affords P B) {id : String} {held : Held} {actual : ℕ}
    (hid : B.reservations.get id = some held) (hp : held.pending = true)
    (hwithin : actual ≤ held.tokens.amount) {e : String} {tokens : BudgetLedger}
    (hcharge : B.tokens.chargeExact held.tokens actual = some (.error e, tokens)) : False := by
  have hheld := h.guarded.held hid hp
  have hout : B.tokens.outstanding.get held.tokens.id = some ⟨held.tokens, 0⟩ := by
    rw [hheld.id_eq]
    exact hheld.outstanding
  refine h.guarded.inv.sound.chargeExact_total hout (fun s hs => ?_) hcharge
  -- what the reservation holds is part of what the scope spent, and that is limited
  have hunspent := h.guarded.inv.sound.unspent_le hout hs
  have hspent : spent B.tokens s < u128Bound := by
    rw [hheld.scopes, scopesHeld, BudgetLedger.mem_scopeSet] at hs
    rcases List.mem_append.mp hs with hs | hs
    · obtain ⟨⟨name, scope⟩, hentry, rfl⟩ := List.mem_map.mp hs
      obtain ⟨hlimit, hbounded, hroom⟩ :=
        h.guarded.scopes (OrdMap.mem_iff_get.mp (List.mem_filter.mp hentry).1)
      simp only
      omega
    · rw [List.mem_singleton] at hs
      cases hs
      have := h.guarded.tokens
      have := h.guarded.bounded
      omega
  rw [spent] at hspent
  simp only [Outstanding.unspent, Nat.sub_zero] at hunspent
  omega

/-- **One operation** on the plan keeps the budget within it. -/
theorem Affords.step (h : Affords P B) {op : Op} (hop : PlannedOp P B op)
    (hstep : B.step op = some B') : Affords P B' := by
  cases op with
  | prepare node now =>
    rw [TaskBudget.step] at hstep
    rcases prepare_cases B node now with ⟨e, he⟩ |
      ⟨account, scopes, reserve, r, tokens, deadline, -, hadmits, hr, hamount, hscopes, hok⟩
    · rw [he] at hstep
      cases hstep
      exact h
    · rw [hok] at hstep
      cases hstep
      refine h.withReservation hadmits ?_ hr hamount hscopes deadline now
      rw [h.used_eq hadmits.account_eq]
      exact hop account hadmits.account_eq
  | begin id now =>
    have hwork : B.WorkOp (.begin id now) := trivial
    have hguarded := h.guarded.step hwork trivial hstep
    rw [TaskBudget.step] at hstep
    rcases begin_cases h.guarded.inv id now with ⟨e, he⟩ | hok |
      ⟨held, b, hid, hp, hbegun, hb, hpos, hok⟩
    · rw [he] at hstep
      cases hstep
      exact h
    · rw [hok] at hstep
      cases hstep
      exact h.keep hguarded ⟨rfl, rfl, rfl, rfl, fun _ => rfl⟩ h.opened rfl rfl (fun _ => le_rfl) rfl
    · rw [hok] at hstep
      cases hstep
      refine h.keep hguarded ⟨rfl, rfl, rfl, rfl, fun _ => rfl⟩ h.opened rfl ?_ (fun _ => le_rfl) rfl
      -- the started Attempt moves from prepared to begun
      refine OrdMap.ext fun n => ?_
      simp only [OrdMap.get_mapVal, OrdMap.get_insert]
      split_ifs with hn
      · have hzero := h.recovered hb
        rw [hn, hb, Option.map_some, Option.map_some]
        simp only [bill, NodeAccount.used, NodeAccount.chargeable, Option.some.injEq, Prod.mk.injEq,
          true_and, and_true]
        omega
      · rfl
  | settleExact id actual =>
    have hwork : B.WorkOp (.settleExact id actual) := hop
    have hguarded := h.guarded.step hwork trivial hstep
    rw [TaskBudget.step] at hstep
    rcases settleExact_cases h.guarded.inv id actual with ⟨e, hok⟩ | ⟨held, -, -, hok⟩ |
      ⟨e, tokens, -, ⟨held, e', hid, hp, hcharge⟩, -⟩ |
      ⟨held, tokens, hid, hp, hbegun, -, -, hcharge, hok⟩
    · rw [hok] at hstep
      cases hstep
      exact h
    · rw [hok] at hstep
      cases hstep
      exact h
    · exact (h.settles hid hp (hop held hid) hcharge).elim
    · have hactual := hop held hid
      have hheld := h.guarded.held hid hp
      have hout : B.tokens.outstanding.get held.tokens.id = some ⟨held.tokens, 0⟩ := by
        rw [hheld.id_eq]
        exact hheld.outstanding
      obtain ⟨hnext, hspent, hlimit⟩ :=
        h.guarded.inv.sound.chargeExact_spent hout hactual hcharge
      rw [hok] at hstep
      cases hstep
      refine h.keep hguarded ⟨rfl, rfl, rfl, rfl, hlimit⟩ ?_ rfl rfl hspent hnext
      simp [h.opened, hactual]
  | _ => exact hop.elim

end Grants

end TaskBudget

namespace CompiledTask

variable {G : CompiledTask} {limits : TaskLimits}

/-! ## What the static check adds up -/

/-- One Attempt for a mandatory node. -/
def once (G : CompiledTask) (name : String) (allowance : NodeAllowance) : ℕ :=
  match G.nodes.get name with
  | some node => if G.mandatory node allowance then 1 else 0
  | none => 0

theorem once_eq_zero {name : String} {allowance : NodeAllowance}
    (h : 0 < allowance.verificationAttempts) : G.once name allowance = 0 := by
  rw [once]
  cases G.nodes.get name with
  | none => rfl
  | some node =>
    have : G.mandatory node allowance = false := by
      rw [mandatory, decide_eq_false h.ne', Bool.false_and]
    simp only [this, Bool.false_eq_true, if_false]

/-- What one node adds to a token scope. -/
def scopeShare (G : CompiledTask) (scope : TaskTokenScope) (entry : String × NodeAllowance) : ℕ :=
  if scope.contains entry.1 then
    entry.2.tokensPerAttempt * (entry.2.verificationAttempts + G.once entry.1 entry.2)
  else 0

theorem foldlM_raiseScope {name scope : String} {declared : TaskTokenScope} {amount : ℕ}
    {keys : List String} {scopes scopes' : OrdMap String ℕ} (hnodup : keys.Nodup)
    (hdeclared : G.tokenScopes.get scope = some declared)
    (h : keys.foldlM (G.raiseScope name amount) scopes = .ok scopes') :
    (scopes'.get scope).getD 0 = (scopes.get scope).getD 0 +
      if scope ∈ keys ∧ declared.contains name = true then amount else 0 := by
  induction keys generalizing scopes with
  | nil =>
    cases h
    simp
  | cons key keys ih =>
    rw [List.foldlM_cons, bind_eq_ok] at h
    obtain ⟨scopes₁, hstep, h⟩ := h
    rw [List.nodup_cons] at hnodup
    rw [ih hnodup.2 h]
    rw [raiseScope] at hstep
    by_cases hkey : scope = key
    · cases hkey
      rw [hdeclared, Option.map_some, Option.getD_some] at hstep
      by_cases hcontains : declared.contains name = true
      · rw [if_pos hcontains, bind_eq_ok] at hstep
        obtain ⟨total, htotal, hstep⟩ := hstep
        obtain ⟨-, rfl⟩ := checked_eq_ok.mp htotal
        cases hstep
        simp [hcontains, hnodup.1]
      · rw [if_neg hcontains] at hstep
        cases hstep
        simp [hcontains]
    · have hother : (scopes₁.get scope).getD 0 = (scopes.get scope).getD 0 := by
        split_ifs at hstep
        · rw [bind_eq_ok] at hstep
          obtain ⟨total, -, hstep⟩ := hstep
          cases hstep
          rw [OrdMap.get_insert_ne _ _ hkey]
        · cases hstep
          rfl
      simp [hother, hkey]

/-- One paid node: its verification in its scopes, and one Attempt if it is mandatory. -/
theorem addNode_eq_ok {m m' : Minimum} {entry : String × NodeAllowance}
    (h : G.addNode m entry = .ok m') :
    m'.tokens = m.tokens + entry.2.tokensPerAttempt * G.once entry.1 entry.2 ∧
      m'.attempts = m.attempts + G.once entry.1 entry.2 ∧
      m'.rootAttempts = m.rootAttempts + G.once entry.1 entry.2 ∧
      ∀ {scope declared}, G.tokenScopes.get scope = some declared →
        (m'.scopes.get scope).getD 0 = (m.scopes.get scope).getD 0 + G.scopeShare declared entry := by
  obtain ⟨name, w⟩ := entry
  rw [addNode] at h
  cases hnode : G.nodes.get name with
  | none =>
    rw [hnode] at h
    cases h
  | some node =>
    simp only [hnode, bind_eq_ok] at h
    obtain ⟨owed, howed, scopes₁, hscopes₁, h⟩ := h
    obtain ⟨-, rfl⟩ := checked_eq_ok.mp howed
    have hmem : ∀ {scope declared}, G.tokenScopes.get scope = some declared →
        scope ∈ G.tokenScopes.keys := fun hd => OrdMap.mem_keys_iff.mpr ⟨_, hd⟩
    have hone : G.once name w = if G.mandatory node w then 1 else 0 := by rw [once, hnode]
    simp only [scopeShare, hone]
    split_ifs at h ⊢ with hmandatory
    · rw [bind_eq_ok] at h
      obtain ⟨tokens, htokens, h⟩ := h
      obtain ⟨-, rfl⟩ := addResource_eq_ok.mp htokens
      rw [bind_eq_ok] at h
      obtain ⟨scopes₂, hscopes₂, h⟩ := h
      cases h
      refine ⟨by rw [Nat.mul_one], rfl, rfl, fun {scope declared} hd => ?_⟩
      have h₁ := foldlM_raiseScope G.tokenScopes.keys_nodup hd hscopes₁
      have h₂ := foldlM_raiseScope G.tokenScopes.keys_nodup hd hscopes₂
      simp only [hmem hd, true_and] at h₁ h₂
      simp only [h₂, h₁, Nat.mul_add, Nat.mul_one]
      split_ifs
      · omega
      · omega
    · cases h
      refine ⟨rfl, rfl, rfl, fun {scope declared} hd => ?_⟩
      have h₁ := foldlM_raiseScope G.tokenScopes.keys_nodup hd hscopes₁
      simp only [hmem hd, true_and] at h₁
      simp only [h₁, Nat.add_zero]

/-- The entries of the paid nodes and of the owners' templates sum to at least the paid nodes. -/
theorem allowances_sum_le (f : String × NodeAllowance → ℕ) :
    (G.allowances.sum fun n w => f (n, w)) ≤
      ((G.allowances.entries ++ G.ownedChildren.entries.map fun e => (e.1, e.2.allowance)).map
        f).sum := by
  rw [List.map_append, List.sum_append]
  exact Nat.le_add_right _ _

/-- **The minimum**: the verification reserve and one Attempt of every mandatory node, and in
every scope the verification and the mandatory Attempts of its members. -/
theorem minimum_eq_ok {m : Minimum} (h : G.minimum limits = .ok m) :
    limits.verification.tokens +
        (G.allowances.sum fun n w => w.tokensPerAttempt * G.once n w) ≤ m.tokens ∧
      limits.verification.attempts + G.allowances.sum G.once ≤ m.attempts ∧
      (G.allowances.sum fun n w => w.verificationAttempts + G.once n w) ≤ m.rootAttempts ∧
      ∀ {scope declared}, G.tokenScopes.get scope = some declared →
        (G.allowances.sum fun n w => G.scopeShare declared (n, w)) ≤ (m.scopes.get scope).getD 0 := by
  rw [minimum] at h
  have hstepT : ∀ m e m', G.addNode m e = .ok m' →
      m'.tokens = m.tokens + e.2.tokensPerAttempt * G.once e.1 e.2 :=
    fun _ _ _ hstep => (addNode_eq_ok hstep).1
  have hstepA : ∀ m e m', G.addNode m e = .ok m' → m'.attempts = m.attempts + G.once e.1 e.2 :=
    fun _ _ _ hstep => (addNode_eq_ok hstep).2.1
  have hstepR : ∀ m e m', G.addNode m e = .ok m' →
      m'.rootAttempts = m.rootAttempts + G.once e.1 e.2 :=
    fun _ _ _ hstep => (addNode_eq_ok hstep).2.2.1
  refine ⟨?_, ?_, ?_, fun {scope declared} hd => ?_⟩
  · rw [foldlM_sum hstepT h]
    exact Nat.add_le_add_left
      (allowances_sum_le fun e => e.2.tokensPerAttempt * G.once e.1 e.2) _
  · rw [foldlM_sum hstepA h]
    exact Nat.add_le_add_left (allowances_sum_le fun e => G.once e.1 e.2) _
  · rw [foldlM_sum hstepR h, OrdMap.sum_add]
    exact Nat.add_le_add_left (allowances_sum_le fun e => G.once e.1 e.2) _
  · have hstepS : ∀ m e m', G.addNode m e = .ok m' →
        (m'.scopes.get scope).getD 0 = (m.scopes.get scope).getD 0 + G.scopeShare declared e :=
      fun _ _ _ hstep => (addNode_eq_ok hstep).2.2.2 hd
    have hscope := foldlM_sum (r := fun m => (m.scopes.get scope).getD 0) hstepS h
    simp only [OrdMap.get_mapVal, hd, Option.map_some, Option.getD_some, Nat.zero_add] at hscope
    rw [hscope]
    exact allowances_sum_le (G.scopeShare declared)

/-- Limits the static check accepts. -/
theorem checkMinimum_eq_ok (h : G.checkMinimum limits = .ok ()) :
    limits.verification.tokens +
        (G.allowances.sum fun n w => w.tokensPerAttempt * G.once n w) ≤ limits.tokens ∧
      limits.verification.attempts + G.allowances.sum G.once ≤ limits.maxAttempts ∧
      (∀ {call}, G.calls.get "root" = some call →
        (G.allowances.sum fun n w => w.verificationAttempts + G.once n w) ≤ call.maxAttempts) ∧
      ∀ {scope declared}, G.tokenScopes.get scope = some declared →
        (G.allowances.sum fun n w => G.scopeShare declared (n, w)) ≤ declared.tokens := by
  rw [checkMinimum, bind_eq_ok] at h
  obtain ⟨m, hm, h⟩ := h
  obtain ⟨htokens, hattempts, hroot, hscopes⟩ := minimum_eq_ok hm
  rw [bind_eq_ok] at h
  obtain ⟨_, hchecks, h⟩ := h
  split_ifs at h with hshort
  · rw [bind_eq_ok] at h
    obtain ⟨_, -, h⟩ := h
    cases h
  simp only [Bool.or_eq_true, decide_eq_true_eq, not_or, not_lt] at hshort
  refine ⟨htokens.trans hshort.1, hattempts.trans hshort.2, fun {call} hcall => ?_,
    fun {scope declared} hd => ?_⟩
  · simp only [hcall] at h
    exact hroot.trans (by simpa using require_eq_ok.mp h)
  · have hcheck := forM_eq_ok.mp hchecks _ (OrdMap.mem_iff_get.mpr hd)
    rw [checkScopeMinimum, require_eq_ok] at hcheck
    exact (hscopes hd).trans (by simpa using hcheck)

/-! ## The budget of a graph affords its plan -/

/-- The dormant Integration node adds nothing to a sum over verification and mandatory work. -/
theorem sum_executionAllowances {allowances : OrdMap String NodeAllowance}
    (h : G.executionAllowances = .ok allowances) {f : String → NodeAllowance → ℕ}
    (hzero : ∀ n w, w.verificationAttempts = 0 → G.once n w = 0 → f n w = 0) :
    allowances.sum f = G.allowances.sum f := by
  rw [executionAllowances] at h
  cases hphase : G.reviewIntegration with
  | none =>
    rw [hphase] at h
    cases h
    rfl
  | some phase =>
    simp only [hphase, bind_eq_ok] at h
    obtain ⟨_, hvalid, _, hfresh, h⟩ := h
    cases h
    rw [CompiledReviewIntegration.validate, require_eq_ok] at hvalid
    simp only [Bool.not_eq_true', Bool.or_eq_false_iff, decide_eq_false_iff_not, not_not] at hvalid
    rw [require_eq_ok] at hfresh
    simp only [Bool.not_eq_true', Bool.or_eq_false_iff] at hfresh
    obtain ⟨⟨hnodes, -⟩, hallowances⟩ := hfresh
    have hnone : G.allowances.get phase.node = none := by
      rw [OrdMap.contains] at hallowances
      simpa using hallowances
    have honce : G.once phase.node phase.allowance = 0 := by
      have hmissing : G.nodes.get phase.node = none := by
        rw [OrdMap.contains] at hnodes
        simpa using hnodes
      rw [once, hmissing]
    rw [OrdMap.sum_insert_of_none hnone, hzero _ _ hvalid.1.2 honce, Nat.add_zero]

/-- The plan of a graph: its verification and one Attempt of each mandatory node. -/
def plan (G : CompiledTask) (limits : TaskLimits) (allowances : OrdMap String NodeAllowance) :
    TaskBudget.Plan :=
  ⟨limits, allowances, G.callLimits, G.tokenScopes, G.once⟩

/-- Every call inside the root call has Attempts for the verification and the mandatory nodes
within it, as `expand` requires of each Pipeline. -/
def CallsHold (G : CompiledTask) : Prop :=
  ∀ scope call, G.calls.get scope = some call → scope ≠ "root" →
    (G.allowances.sum fun n w =>
      if within n scope then w.verificationAttempts + G.once n w else 0) ≤ call.maxAttempts

instance (G : CompiledTask) : Decidable G.CallsHold :=
  decidable_of_iff (∀ e ∈ G.calls.entries, e.1 ≠ "root" →
    (G.allowances.sum fun n w =>
      if within n e.1 then w.verificationAttempts + G.once n w else 0) ≤ e.2.maxAttempts)
    ⟨fun h scope call hcall hne => h (scope, call) (OrdMap.mem_iff_get.mpr hcall) hne,
      fun h e he hne => h e.1 e.2 (OrdMap.mem_iff_get.mp he) hne⟩

theorem addMinimum_node {minimum minimum' : VerificationReserve}
    {entry : String × NodeAllowance}
    (h : TaskBudget.addMinimum limits minimum entry = .ok minimum') :
    0 < entry.2.maxAttempts ∧ entry.2.verificationAttempts ≤ entry.2.maxAttempts ∧
      minimum'.wallMs < u64Bound ∧ minimum'.wallMs =
        minimum.wallMs + entry.2.wallMsPerAttempt * entry.2.verificationAttempts := by
  obtain ⟨name, allowance⟩ := entry
  rw [TaskBudget.addMinimum] at h
  simp only [bind_eq_ok, checked_eq_ok, addResource_eq_ok] at h
  obtain ⟨_, hshape, product, -, tokens, -, wall, ⟨-, rfl⟩, wallMs, ⟨hword, rfl⟩, attempts, -, h⟩ := h
  cases h
  rw [require_eq_ok] at hshape
  simp only [Bool.not_eq_true', Bool.or_eq_false_iff, decide_eq_false_iff_not, not_lt] at hshape
  exact ⟨Nat.pos_of_ne_zero hshape.1.1.1.2, hshape.1.1.2, hword, rfl⟩

/-- What `new` checked of every node, and of the wall time of all. -/
theorem new_nodes {allowances : OrdMap String NodeAllowance} {B : TaskBudget}
    (h : TaskBudget.new limits allowances = .ok B) :
    (∀ {n w}, allowances.get n = some w →
      0 < w.maxAttempts ∧ w.verificationAttempts ≤ w.maxAttempts) ∧
      (allowances.sum fun _ w => w.wallMsPerAttempt * w.verificationAttempts) < u64Bound := by
  obtain ⟨-, minimum, hfold, -, -, -⟩ := TaskBudget.new_eq_ok h
  constructor
  · intro n w hw
    obtain ⟨m, m', hstep⟩ := foldlM_steps hfold (OrdMap.mem_iff_get.mpr hw)
    obtain ⟨hpos, hle, -⟩ := addMinimum_node hstep
    exact ⟨hpos, hle⟩
  · have hstepW : ∀ m e m', TaskBudget.addMinimum limits m e = .ok m' →
        m'.wallMs = m.wallMs + e.2.wallMsPerAttempt * e.2.verificationAttempts :=
      fun _ _ _ hstep => (addMinimum_node hstep).2.2.2
    have hword : minimum.wallMs < u64Bound :=
      foldlM_invariant (P := fun m => m.wallMs < u64Bound)
        (fun _ _ _ _ _ hstep => (addMinimum_node hstep).2.2.1) (by decide) hfold
    rw [foldlM_sum hstepW hfold, Nat.zero_add] at hword
    exact hword

/-- **An accepted budget has a feasible plan.** -/
theorem plan_feasible {allowances : OrdMap String NodeAllowance} {B : TaskBudget}
    (hminimum : G.checkMinimum limits = .ok ())
    (hallowances : G.executionAllowances = .ok allowances)
    (hnew : TaskBudget.new limits allowances = .ok B)
    (hscopes : ∀ {name scope}, G.tokenScopes.get name = some scope →
      scope.tokens ≤ safeIntegerMax)
    (hword : limits.maxAttempts < u32Bound) (hcalls : G.CallsHold) :
    (G.plan limits allowances).Feasible := by
  obtain ⟨htokens, hattempts, hroot, hscope⟩ := checkMinimum_eq_ok hminimum
  obtain ⟨hnodes, hwall⟩ := new_nodes hnew
  have hsafe := (TaskBudget.validate_eq_ok (TaskBudget.new_eq_ok hnew).1).1
  refine ⟨?_, ?_, fun {scope limit} hlimit => ?_, fun {name scope} hd => ?_, fun {n w} hw => ?_,
    hword, hsafe, hscopes, hwall⟩
  · change _ + allowances.sum G.once ≤ _
    rw [sum_executionAllowances hallowances fun _ _ _ honce => honce]
    exact hattempts
  · change _ + allowances.sum _ ≤ _
    rw [sum_executionAllowances hallowances fun _ _ _ honce => by
      change _ * G.once _ _ = 0
      rw [honce, Nat.mul_zero]]
    exact htokens
  · change allowances.sum _ ≤ _
    rw [sum_executionAllowances hallowances fun n w hw honce => by
      change (if within n scope then w.verificationAttempts + G.once n w else 0) = 0
      rw [hw, honce, ite_self]]
    change G.callLimits.get scope = some limit at hlimit
    rw [callLimits, OrdMap.get_mapVal] at hlimit
    obtain ⟨call, hcall, rfl⟩ := Option.map_eq_some_iff.mp hlimit
    -- the root call holds every node's Attempts; `expand` checked the others
    by_cases hname : scope = "root"
    · cases hname
      refine le_trans (OrdMap.sum_le_sum fun n w _ => ?_) (hroot hcall)
      split_ifs
      · exact le_rfl
      · exact Nat.zero_le _
    · exact hcalls scope call hcall hname
  · change allowances.sum _ ≤ _
    rw [sum_executionAllowances hallowances fun n w hw honce => by
      change (if scope.contains n then
        w.tokensPerAttempt * (w.verificationAttempts + G.once n w) else 0) = 0
      rw [hw, honce, Nat.mul_zero, ite_self]]
    exact hscope hd
  · obtain ⟨hpos, hle⟩ := hnodes hw
    change w.verificationAttempts + G.once n w ≤ w.maxAttempts
    rcases Nat.eq_zero_or_pos w.verificationAttempts with hzero | hverifier
    · have honce : G.once n w ≤ 1 := by
        rw [once]
        split
        · split_ifs
          · exact le_rfl
          · exact Nat.zero_le _
        · exact Nat.zero_le _
      omega
    · rw [once_eq_zero hverifier]
      exact hle

end CompiledTask

namespace TaskBudget

variable {B B' : TaskBudget}

theorem installRecoveryAllowances_bill {allowances : List (String × ℕ)} {reply}
    (hok : B.installRecoveryAllowances allowances = some (reply, B')) :
    SameGraph B B' ∧ B'.breached = B.breached ∧ B'.retiredAttempts = B.retiredAttempts ∧
      (B'.nodes.mapVal fun _ a => bill a) = (B.nodes.mapVal fun _ a => bill a) ∧
      B'.tokens = B.tokens := by
  induction allowances generalizing B with
  | nil =>
    cases hok
    exact ⟨⟨rfl, rfl, rfl, rfl, fun _ => rfl⟩, rfl, rfl, rfl, rfl⟩
  | cons entry rest ih =>
    obtain ⟨node, allowance⟩ := entry
    rw [installRecoveryAllowances] at hok
    split_ifs at hok
    · cases hok
      exact ⟨⟨rfl, rfl, rfl, rfl, fun _ => rfl⟩, rfl, rfl, rfl, rfl⟩
    · cases ha : B.nodes.get node with
      | none =>
        rw [ha] at hok
        cases hok
        exact ⟨⟨rfl, rfl, rfl, rfl, fun _ => rfl⟩, rfl, rfl, rfl, rfl⟩
      | some a =>
        rw [ha] at hok
        obtain ⟨⟨h₁, h₂, h₃, h₄, h₅⟩, hopened, hretired, hnodes, htokens⟩ := ih hok
        refine ⟨⟨h₁, h₂, h₃, h₄, h₅⟩, hopened, hretired, hnodes.trans ?_, htokens⟩
        refine OrdMap.ext fun n => ?_
        simp only [OrdMap.get_mapVal, OrdMap.get_insert]
        split_ifs with hn
        · rw [hn, ha]
          rfl
        · rfl

end TaskBudget

namespace CompiledTask

variable {G : CompiledTask} {limits : TaskLimits}

/-- **The budget of a graph affords its plan**, and the plan is feasible. -/
theorem budget_affords {B : TaskBudget} (h : G.budget limits = .ok B)
    (hword : limits.maxAttempts < u32Bound) (hcalls : G.CallsHold) :
    ∃ P : TaskBudget.Plan, P.Feasible ∧ P.once = G.once ∧ TaskBudget.Affords P B := by
  obtain ⟨_, -, h⟩ := bind_eq_ok.mp h
  obtain ⟨templates, -, h⟩ := bind_eq_ok.mp h
  obtain ⟨_, hminimum, h⟩ := bind_eq_ok.mp h
  obtain ⟨allowances, hallowances, h⟩ := bind_eq_ok.mp h
  obtain ⟨B₁, hnew, h⟩ := bind_eq_ok.mp h
  obtain ⟨B₂, hcallLimits, h⟩ := bind_eq_ok.mp h
  obtain ⟨B₃, howned, h⟩ := bind_eq_ok.mp h
  obtain ⟨B₄, hscopes, h⟩ := bind_eq_ok.mp h
  have hinstalled : TaskBudget.Installed B₄ :=
    (((TaskBudget.Installed.new hnew).withCallLimits hcallLimits).withOwnedTemplates
      howned).withTokenScopes hscopes
  obtain ⟨hready, hguards⟩ := hinstalled.ready
  have hnewB := (TaskBudget.new_eq_ok hnew).2
  obtain ⟨-, -, hB₂⟩ := TaskBudget.withCallLimits_eq_ok hcallLimits
  obtain ⟨-, hB₃⟩ := TaskBudget.withOwnedTemplates_eq_ok howned
  rw [TaskBudget.withTokenScopes, bind_eq_ok] at hscopes
  obtain ⟨_, -, hscopes⟩ := hscopes
  obtain ⟨tokens, hfold, hB₄⟩ := TaskBudget.installTokenScopes_eq_ok hscopes
  obtain ⟨hspent, -, hlimits⟩ :=
    TaskBudget.foldlM_installTokenScope G.tokenScopes.keys_nodup hfold
  obtain ⟨minimum, -, -, -, hB₁⟩ := hnewB
  have hzero : ∀ s, BudgetLedger.spent tokens s = 0 := by
    intro s
    rw [hspent, hB₃, hB₂, hB₁]
    simp only [BudgetLedger.spent, BudgetLedger.committed, BudgetLedger.reserved,
      BudgetLedger.withLimit_account]
    split_ifs
    · rfl
    · rfl
  have hnext : tokens.next = 0 := by
    refine foldlM_invariant (P := fun L => L.next = 0) (fun L e L' _ hL hstep => ?_) ?_ hfold
    · obtain ⟨_, -, -, -, rfl⟩ := TaskBudget.installTokenScope_eq_ok hstep
      exact hL
    · rw [hB₃, hB₂, hB₁]
      rfl
  have hfeasible : (G.plan limits allowances).Feasible := by
    refine plan_feasible hminimum hallowances hnew (fun {name scope} hd => ?_) hword hcalls
    exact (hlimits (name, scope) (OrdMap.mem_iff_get.mpr hd)).2.1
  have haffords : TaskBudget.Affords (G.plan limits allowances) B₄ := by
    have hnodes : B₄.nodes = allowances.mapVal fun _ allowance => { allowance := allowance } := by
      rw [hB₄, hB₃, hB₂, hB₁]
    have hfresh : ∀ {n a}, B₄.nodes.get n = some a → a.used = 0 ∧ a.recovered = 0 := by
      intro n a ha
      rw [hnodes, OrdMap.get_mapVal] at ha
      obtain ⟨allowance, -, rfl⟩ := Option.map_eq_some_iff.mp ha
      exact ⟨rfl, rfl⟩
    have hrun : BudgetLedger.spent B₄.tokens .run = 0 := by
      rw [hB₄]
      exact hzero .run
    refine ⟨hready.guarded hguards ?_, ⟨?_, ?_⟩, ?_, ?_, ?_, ?_, ?_, ?_, ?_, ?_, ?_, ?_⟩
    · rw [hrun]
      exact Nat.zero_le _
    · refine OrdMap.ext fun n => ?_
      rw [hnodes, OrdMap.get_mapVal, OrdMap.get_mapVal, Option.map_map]
      change Option.map id (allowances.get n) = _
      rw [Option.map_id]
      rfl
    · intro n a ha
      rw [(hfresh ha).1]
      exact Nat.zero_le _
    · rw [hB₄, hB₃, hB₂, hB₁]
    · rw [hB₄, hB₃, hB₂, hB₁]
    · rw [hB₄, hB₃, hB₂, hB₁]
      rfl
    · rw [hB₄, hB₃, hB₂, hB₁]
      rfl
    · rw [hB₄]
      rfl
    · rw [hB₄, hB₃, hB₂, hB₁]
    · intro n a ha
      exact (hfresh ha).2
    · rw [hrun]
      exact Nat.zero_le _
    · intro name scope _
      have hfan : BudgetLedger.spent B₄.tokens (.fanOut name) = 0 := by
        rw [hB₄]
        exact hzero _
      rw [hfan]
      exact Nat.zero_le _
    · have hids : B₄.tokens.next = 0 := by
        rw [hB₄]
        exact hnext
      rw [hids]
      exact Nat.zero_le _
  refine ⟨_, hfeasible, rfl, ?_⟩
  -- the recovery allowances change nothing the plan reads
  rw [TaskBudget.withRecoveryAllowances] at h
  obtain ⟨⟨reply, B₅⟩, hinstall⟩ : ∃ r, B₄.installRecoveryAllowances
      G.recoveryAllowances.entries = some r := by
    obtain ⟨reply, B₅, hok, -⟩ :=
      TaskBudget.installRecoveryAllowances_cases hready.inv G.recoveryAllowances.entries
    exact ⟨_, hok⟩
  rw [hinstall, Option.getD_some] at h
  rcases reply with e | ⟨⟨⟩⟩
  · cases h
  · cases h
    obtain ⟨hgraph, hopened, hretired, hnodes, htokens⟩ :=
      TaskBudget.installRecoveryAllowances_bill hinstall
    obtain ⟨hready', hguards'⟩ := (hinstalled.withRecoveryAllowances hinstall).ready
    refine haffords.keep (hready'.guarded hguards' ?_) hgraph (hopened.trans haffords.opened)
      hretired hnodes (fun s => ?_) ?_
    · rw [htokens, hB₄]
      exact (le_of_eq (hzero .run)).trans (Nat.zero_le _)
    · rw [htokens]
    · rw [htokens]

/-- The Attempts every Task run may need of a node: its verification, and one if it is
mandatory. -/
def mandatoryAttempts (G : CompiledTask) (name : String) (allowance : NodeAllowance) : ℕ :=
  allowance.verificationAttempts + G.once name allowance

/-- Mandatory work: a node is prepared as often as every Task run may need it, started, and
settled with a charge within its reservation. -/
def MandatoryWork (G : CompiledTask) (B : TaskBudget) : TaskBudget.Op → Prop
  | .prepare node _ => ∀ a, B.nodes.get node = some a →
      a.begun + a.prepared < G.mandatoryAttempts node a.allowance
  | .begin _ _ => True
  | .settleExact id actual => ∀ held, B.reservations.get id = some held →
      actual ≤ held.tokens.amount
  | _ => False

instance (G : CompiledTask) (B : TaskBudget) :
    (op : TaskBudget.Op) → Decidable (G.MandatoryWork B op)
  | .prepare node _ =>
    decidable_of_iff (∀ a ∈ B.nodes.get node,
      a.begun + a.prepared < G.mandatoryAttempts node a.allowance) Iff.rfl
  | .begin _ _ => isTrue trivial
  | .settleExact id actual =>
    decidable_of_iff (∀ held ∈ B.reservations.get id, actual ≤ held.tokens.amount) Iff.rfl
  | .withCallLimits _ => isFalse not_false
  | .withOwnedTemplates _ => isFalse not_false
  | .withTokenScopes _ => isFalse not_false
  | .withDeferredVerification => isFalse not_false
  | .installRecoveryAllowances _ => isFalse not_false
  | .release _ => isFalse not_false
  | .settleRecovered _ _ => isFalse not_false
  | .observeChargeExact _ _ => isFalse not_false
  | .allowRetry _ => isFalse not_false
  | .registerOwnedChildren _ _ => isFalse not_false
  | .registerExperimentalChildren _ _ _ => isFalse not_false
  | .invalidatePlan _ => isFalse not_false
  | .installGraph _ _ _ => isFalse not_false

/-- **A compiled plan can pay for its mandatory work.** Take any graph whose calls inside the
root call hold the verification and the mandatory nodes within them, and any budget
`CompiledTask::budget` accepts for it. In any order of mandatory work, whatever was prepared,
started and settled so far, a further mandatory Attempt is granted, unless the clock moved
backwards or the deadline leaves too little time. -/
theorem budget_pays_mandatory_work (G : CompiledTask) (limits : TaskLimits) (B₀ : TaskBudget)
    (hbudget : G.budget limits = .ok B₀) (hword : limits.maxAttempts < u32Bound)
    (hcalls : G.CallsHold) (ops : List TaskBudget.Op)
    (hops : StepsMeet TaskBudget.step G.MandatoryWork B₀ ops) (B : TaskBudget)
    (hrun : run TaskBudget.step B₀ ops = some B) (node : String) (a : NodeAccount)
    (ha : B.nodes.get node = some a)
    (hleft : a.begun + a.prepared < G.mandatoryAttempts node a.allowance) (now : ℕ) :
    (∃ given B', B.prepare node now = some (.ok given, B')) ∨ now < B.lastTime ∨
      ∃ reserve e, B.protectedAfter node = .ok reserve ∧
        B.checkDeadline now a.allowance.wallMsPerAttempt reserve.wallMs = .error e := by
  obtain ⟨P, hP, honce, haffords₀⟩ := budget_affords hbudget hword hcalls
  have hquota : ∀ n w, P.quota n w = G.mandatoryAttempts n w := fun n w => by
    rw [TaskBudget.Plan.quota, honce, mandatoryAttempts]
  have haffords : TaskBudget.Affords P B := by
    refine run_induction (P := TaskBudget.Affords P) (fun B₁ op B₂ h₁ hop hstep => ?_)
      haffords₀ hops hrun
    refine h₁.step ?_ hstep
    cases op with
    | prepare n t =>
      intro b hb
      rw [hquota]
      exact hop b hb
    | begin id t => trivial
    | settleExact id actual => exact hop
    | _ => exact hop.elim
  by_cases hclock : B.lastTime ≤ now
  · rw [← hquota, ← haffords.used_eq ha] at hleft
    obtain ⟨reserve, hreserve, hgranted | ⟨e, hdeadline⟩⟩ := haffords.grants hP ha hleft hclock
    · exact .inl hgranted
    · exact .inr (.inr ⟨reserve, e, hreserve, hdeadline⟩)
  · exact .inr (.inl (not_le.mp hclock))

/-- A verifier beside a Pipeline call with two workers; the call may make so many Attempts. -/
def calledWorkers (callAttempts : ℕ) : CompiledTask where
  schema := "af.compiled-task/1"
  nodes := .ofList [("root.nodes.check", { operator := .primitive (.verify "judge") "verify" }),
    ("root.nodes.sub.nodes.draft", { operator := .primitive (.worker "writer") "worker" }),
    ("root.nodes.sub.nodes.edit", { operator := .primitive (.worker "editor") "worker" })]
  order := ["root.nodes.sub.nodes.draft", "root.nodes.sub.nodes.edit", "root.nodes.check"]
  calls := .ofList [("root", ⟨10, 1⟩), ("root.nodes.sub", ⟨callAttempts, 1⟩)]
  allowances := .ofList [("root.nodes.check", ⟨10, 5, 1, 1⟩),
    ("root.nodes.sub.nodes.draft", ⟨20, 5, 1, 0⟩), ("root.nodes.sub.nodes.edit", ⟨20, 5, 1, 0⟩)]
  tokenScopes := .ofList [("sub", ⟨40, ["root.nodes.sub"]⟩)]

def calledLimits : TaskLimits := ⟨50, 3, 1000, ⟨10, 1, 5⟩⟩

/-- The first worker runs and is charged all it reserved. -/
def draftOps : List TaskBudget.Op :=
  [.prepare "root.nodes.sub.nodes.draft" 1, .begin "reservation:1" 2,
    .settleExact "reservation:1" 20]

/-- The second worker of a call of two Attempts is granted the last of the tokens. -/
theorem budget_pays_mandatory_work_called :
    ∃ B₀ B a, (calledWorkers 2).budget calledLimits = .ok B₀ ∧
      run TaskBudget.step B₀ draftOps = some B ∧
      B.nodes.get "root.nodes.sub.nodes.edit" = some a ∧
      ((∃ given B', B.prepare "root.nodes.sub.nodes.edit" 3 = some (.ok given, B')) ∨
        3 < B.lastTime ∨
        ∃ reserve e, B.protectedAfter "root.nodes.sub.nodes.edit" = .ok reserve ∧
          B.checkDeadline 3 a.allowance.wallMsPerAttempt reserve.wallMs = .error e) := by
  have hfacts : ∃ B₀ ∈ ((calledWorkers 2).budget calledLimits).toOption,
      StepsMeet TaskBudget.step (calledWorkers 2).MandatoryWork B₀ draftOps ∧
      ∃ B ∈ run TaskBudget.step B₀ draftOps,
        ∃ a ∈ B.nodes.get "root.nodes.sub.nodes.edit",
          a.begun + a.prepared <
            (calledWorkers 2).mandatoryAttempts "root.nodes.sub.nodes.edit" a.allowance := by
    decide
  obtain ⟨B₀, hbudget, hops, B, hrun, a, ha, hleft⟩ := hfacts
  have hbudget := toOption_eq_some.mp hbudget
  have hcalls : (calledWorkers 2).CallsHold := by decide
  exact ⟨B₀, B, a, hbudget, hrun, ha, budget_pays_mandatory_work _ _ B₀ hbudget (by decide) hcalls
    draftOps hops B hrun "root.nodes.sub.nodes.edit" a ha hleft 3⟩

/-- **The static check knows the root call only.** A graph whose inner call has one Attempt for
its two workers is accepted; once the first worker ran, the second is refused by the call. -/
theorem budget_inner_call_refuses_mandatory_work :
    ∃ B₀ B a, (calledWorkers 1).budget calledLimits = .ok B₀ ∧
      StepsMeet TaskBudget.step (calledWorkers 1).MandatoryWork B₀ draftOps ∧
      run TaskBudget.step B₀ draftOps = some B ∧
      B.nodes.get "root.nodes.sub.nodes.edit" = some a ∧
      a.begun + a.prepared <
        (calledWorkers 1).mandatoryAttempts "root.nodes.sub.nodes.edit" a.allowance ∧
      ∃ B', B.prepare "root.nodes.sub.nodes.edit" 3 =
        some (.error (.callAttemptLimit "root.nodes.sub"), B') := by
  have hfacts : ∃ B₀ ∈ ((calledWorkers 1).budget calledLimits).toOption,
      StepsMeet TaskBudget.step (calledWorkers 1).MandatoryWork B₀ draftOps ∧
      ∃ B ∈ run TaskBudget.step B₀ draftOps,
        ∃ a ∈ B.nodes.get "root.nodes.sub.nodes.edit",
          a.begun + a.prepared <
            (calledWorkers 1).mandatoryAttempts "root.nodes.sub.nodes.edit" a.allowance ∧
          ∃ reply ∈ B.prepare "root.nodes.sub.nodes.edit" 3,
            reply.1 = .error (.callAttemptLimit "root.nodes.sub") := by
    decide
  obtain ⟨B₀, hbudget, hops, B, hrun, a, ha, hleft, ⟨reply, B'⟩, hreply, rfl⟩ := hfacts
  exact ⟨B₀, B, a, toOption_eq_some.mp hbudget, hops, hrun, ha, hleft, B', hreply⟩

end CompiledTask

end Afactory
