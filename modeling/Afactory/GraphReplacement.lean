import Mathlib
import Afactory.TaskBudgetCharges

/-!
# Replacing the graph keeps the bill

A Task may throw its plan away and install another graph. The node accounts are folded
into the retired counts and built anew, while the token ledger and the reservations of
the old graph stay.

* `Replaces`: what an accepted replacement leaves of the bill;
* `Remembers`: what every operation leaves of the reservations: their scopes, their start
  and their charge;
* `run_replacement_keeps_bill`: from any reachable budget the replacement keeps the bill,
  and late usage of an old reservation is charged to the scopes it named, however long
  ago the graph was replaced.
-/

namespace Afactory

namespace TaskBudget

variable {B B' B'' : TaskBudget}

/-! ## The counts of a replaced graph -/

/-- The begun Attempts are the chargeable and the recovered ones. -/
theorem Inv.sum_begun (h : B.Inv) :
    (B.nodes.sum fun _ a => a.begun) =
      (B.nodes.sum fun _ a => a.chargeable) + B.nodes.sum fun _ a => a.recovered := by
  rw [← OrdMap.sum_add]
  refine OrdMap.sum_congr fun node a ha => ?_
  have hle := h.begun_ge ha
  rw [NodeAccount.chargeable]
  omega

/-- What a replacement of the graph leaves of the bill. -/
structure Replaces (B B' : TaskBudget) : Prop where
  committed : B'.committedTokens = B.committedTokens
  begun : B'.begunAttempts = B.begunAttempts
  chargeable : B'.chargeableAttempts = B.chargeableAttempts
  scopes : ∀ {name charge}, B.scopeCommittedTokens name = some charge →
    B'.scopeCommittedTokens name = some charge

theorem Replaces.refl (B : TaskBudget) : Replaces B B := ⟨rfl, rfl, rfl, fun h => h⟩

/-- Retired counts and fresh accounts add up to the old counts. -/
theorem Inv.replaces (h : B.Inv)
    (hretired : B'.retiredAttempts = B.chargeableAttempts)
    (hrecovered : B'.retiredRecovered = B.retiredRecovered + B.nodes.sum fun _ a => a.recovered)
    (hfresh : ∀ {n a}, B'.nodes.get n = some a → Fresh a)
    (hcommitted : ∀ s, B'.tokens.committed s = B.tokens.committed s)
    (hcaptured : ∀ name, B.capturedTokenScopes.contains name = true →
      B'.capturedTokenScopes.contains name = true) : Replaces B B' := by
  have hbegun : (B'.nodes.sum fun _ a => a.begun) = 0 :=
    OrdMap.sum_eq_zero fun _ _ ha => (hfresh ha).begun
  have hchargeable : (B'.nodes.sum fun _ a => a.chargeable) = 0 :=
    OrdMap.sum_eq_zero fun _ _ ha => by rw [NodeAccount.chargeable, (hfresh ha).begun, Nat.zero_sub]
  refine ⟨hcommitted .run, ?_, ?_, fun {name charge} hscope => ?_⟩
  · have hsum := h.sum_begun
    rw [begunAttempts, begunAttempts, hretired, hrecovered, hbegun, chargeableAttempts]
    omega
  · rw [chargeableAttempts, hretired, hchargeable, Nat.add_zero]
  · rw [scopeCommittedTokens] at hscope ⊢
    split_ifs at hscope with hcontains
    rw [if_pos (hcaptured name hcontains), hcommitted]
    exact hscope

theorem Inv.invalidatePlan_replaces (h : B.Inv) {now : ℕ} {reply}
    (hcall : B.invalidatePlan now = some (reply, B')) : Replaces B B' := by
  rw [invalidatePlan] at hcall
  split_ifs at hcall
  · cases hcall
    exact .refl B
  · cases hcall
    refine h.replaces rfl rfl (fun {n a} ha => ?_) (fun _ => rfl) fun _ hc => hc
    cases ha

theorem Inv.installGraph_replaces (h : B.Inv) {graph : Graph} {now : ℕ} {preparation : Bool}
    {reply} (hcall : B.installGraph graph now preparation = some (reply, B')) :
    Replaces B B' := by
  rw [installGraph] at hcall
  split at hcall
  case h_1 =>
    cases hcall
    exact .refl B
  case h_2 B₁ hinstalled =>
    cases hcall
    obtain ⟨-, -, -, -, next, hnext, hscopes⟩ := installed_eq_ok hinstalled
    obtain ⟨fresh, limited, hnew, -, hnodes, -⟩ := compile_eq_ok hnext
    obtain ⟨tokens, hfold, rfl⟩ := installTokenScopes_eq_ok hscopes
    refine h.replaces rfl rfl (fun {n a} ha => ?_) (foldlM_installTokenScope_committed hfold).2
      fun name hcontains => ?_
    · exact new_fresh hnew (n := n) (a := a) (hnodes ▸ ha)
    · exact OrdMap.contains_iff.mpr
        (OrdMap.exists_get_insertAll _ (OrdMap.contains_iff.mp hcontains))

/-! ## What a budget remembers of its reservations -/

/-- What an operation leaves of a reservation: the scopes it named, its start, and a
charge that never shrinks. -/
structure Recalls (held held' : Held) : Prop where
  tokens : held'.tokens = held.tokens
  begun : held.begun = true → held'.begun = true ∧ held'.released = held.released
  settled : ∀ {charge}, held.settled = some charge →
    ∃ charge', held'.settled = some charge' ∧ charge ≤ charge'

theorem Recalls.refl (held : Held) : Recalls held held :=
  ⟨rfl, fun h => ⟨h, rfl⟩, fun h => ⟨_, h, le_refl _⟩⟩

theorem Recalls.trans {held₁ held₂ held₃ : Held} (h₁ : Recalls held₁ held₂)
    (h₂ : Recalls held₂ held₃) : Recalls held₁ held₃ := by
  refine ⟨h₂.tokens.trans h₁.tokens, fun hb => ?_, fun hs => ?_⟩
  · obtain ⟨hb₂, hr₂⟩ := h₁.begun hb
    obtain ⟨hb₃, hr₃⟩ := h₂.begun hb₂
    exact ⟨hb₃, hr₃.trans hr₂⟩
  · obtain ⟨c₂, hc₂, hle₂⟩ := h₁.settled hs
    obtain ⟨c₃, hc₃, hle₃⟩ := h₂.settled hc₂
    exact ⟨c₃, hc₃, hle₂.trans hle₃⟩

/-- Every reservation is recalled, and a new one names the Task's own scope. -/
structure Remembers (B B' : TaskBudget) : Prop where
  recalls : ∀ {id held}, B.reservations.get id = some held →
    ∃ held', B'.reservations.get id = some held' ∧ Recalls held held'
  names : (∀ {id held}, B.reservations.get id = some held → .run ∈ held.tokens.scopes) →
    ∀ {id held}, B'.reservations.get id = some held → .run ∈ held.tokens.scopes

theorem Remembers.of_same (h : B'.reservations = B.reservations) : Remembers B B' := by
  refine ⟨fun {id held} hid => ⟨held, by rw [h, hid], .refl held⟩, fun hrun {id held} hid => ?_⟩
  rw [h] at hid
  exact hrun hid

theorem Remembers.trans (h₁ : Remembers B B') (h₂ : Remembers B' B'') : Remembers B B'' := by
  refine ⟨fun hid => ?_, fun hrun => h₂.names (h₁.names hrun)⟩
  obtain ⟨held', hid', hr₁⟩ := h₁.recalls hid
  obtain ⟨held'', hid'', hr₂⟩ := h₂.recalls hid'
  exact ⟨held'', hid'', hr₁.trans hr₂⟩

/-- One reservation's record moves. -/
theorem Remembers.update {id : String} {held held' : Held}
    (hid : B.reservations.get id = some held)
    (h : B'.reservations = B.reservations.insert id held') (hrecalls : Recalls held held') :
    Remembers B B' := by
  refine ⟨fun {i k} hk => ?_, fun hrun {i k} hk => ?_⟩
  · rw [h, OrdMap.get_insert]
    split_ifs with hi
    · rw [hi, hid] at hk
      cases hk
      exact ⟨held', rfl, hrecalls⟩
    · exact ⟨k, hk, .refl k⟩
  · rw [h, OrdMap.get_insert] at hk
    split_ifs at hk with hi
    · cases hk
      rw [hrecalls.tokens]
      exact hrun hid
    · exact hrun hk

/-- A reservation is opened under a fresh identity. -/
theorem Remembers.opens {id : String} {held : Held} (hid : B.reservations.get id = none)
    (hrun : .run ∈ held.tokens.scopes) (h : B'.reservations = B.reservations.insert id held) :
    Remembers B B' := by
  refine ⟨fun {i k} hk => ?_, fun hall {i k} hk => ?_⟩
  · have hi : i ≠ id := by
      rintro rfl
      rw [hid] at hk
      cases hk
    exact ⟨k, by rw [h, OrdMap.get_insert_ne _ _ hi, hk], .refl k⟩
  · rw [h, OrdMap.get_insert] at hk
    split_ifs at hk
    · cases hk
      exact hrun
    · exact hall hk

theorem Remembers.recover {id : String} {reply}
    (hcall : B.recover id = some (reply, B')) : Remembers B B' := by
  rw [TaskBudget.recover] at hcall
  cases hid : B.reservations.get id with
  | none =>
    simp only [hid] at hcall
    cases hcall
    exact .of_same rfl
  | some held =>
    simp only [hid] at hcall
    split_ifs at hcall
    · cases hcall
      exact .of_same rfl
    · cases hcall
      exact .of_same rfl
    · split at hcall
      · cases hcall
        exact .of_same rfl
      · cases hcall
        exact .update hid rfl ⟨rfl, fun hb => ⟨hb, rfl⟩, fun hs => ⟨_, hs, le_refl _⟩⟩

theorem Inv.settleExact_remembers (h : B.Inv) {id : String} {actual : ℕ} {reply}
    (hcall : B.settleExact id actual = some (reply, B')) : Remembers B B' := by
  rcases settleExact_cases h id actual with ⟨e, hok⟩ | ⟨held, -, -, hok⟩ |
    ⟨e, tokens, -, -, hok⟩ | ⟨held, tokens, hid, hp, hbegun, -, -, -, hok⟩ <;> rw [hok] at hcall <;>
    cases hcall
  · exact .of_same rfl
  · exact .of_same rfl
  · exact .of_same rfl
  · refine .update hid rfl ⟨rfl, fun hb => ⟨hb, rfl⟩, fun {charge} hs => ?_⟩
    -- a pending reservation was not settled before
    rw [Held.pending, hs] at hp
    simp at hp

theorem observeChargeExact_remembers {id : String} {actual : ℕ} {reply}
    (hcall : B.observeChargeExact id actual = some (reply, B')) : Remembers B B' := by
  rw [TaskBudget.observeChargeExact] at hcall
  cases hid : B.reservations.get id with
  | none =>
    simp only [hid] at hcall
    cases hcall
    exact .of_same rfl
  | some held =>
    simp only [hid] at hcall
    by_cases hstarted : (!held.begun || held.released) = true
    · rw [if_pos hstarted] at hcall
      cases hcall
      exact .of_same rfl
    rw [if_neg hstarted] at hcall
    cases hsettled : held.settled with
    | some previous =>
      simp only [hsettled] at hcall
      split_ifs at hcall with hmore
      · split at hcall
        · cases hcall
          exact .of_same rfl
        · cases hcall
          refine .update hid rfl ⟨rfl, fun hb => ⟨hb, rfl⟩, fun {charge} hs => ?_⟩
          rw [hsettled] at hs
          cases hs
          exact ⟨actual, rfl, hmore.le⟩
      · cases hcall
        exact .of_same rfl
    | none =>
      simp only [hsettled] at hcall
      obtain ⟨⟨_ | _, tokens⟩, -, heq⟩ := Option.map_eq_some_iff.mp hcall
      · cases heq
        exact .of_same rfl
      · cases heq
        exact .of_same rfl

/-- The step of a budget, read as an answer. -/
theorem step_reply {α : Type} {reply : BudgetReply α} (h : reply.map Prod.snd = some B') :
    ∃ answer, reply = some (answer, B') := by
  obtain ⟨⟨answer, B₁⟩, hreply, rfl⟩ := Option.map_eq_some_iff.mp h
  exact ⟨answer, hreply⟩

/-- A builder does not touch the reservations. -/
theorem build_reservations {result : Except TaskBudgetError TaskBudget}
    (hok : ∀ B₁, result = .ok B₁ → B₁.reservations = B.reservations)
    (h : B.build result = some B') : B'.reservations = B.reservations := by
  cases result with
  | error e =>
    cases h
    rfl
  | ok B₁ =>
    cases h
    exact hok _ rfl

/-- **One operation** remembers every reservation. -/
theorem Inv.step_remembers (h : B.Inv) {op : Op} (hstep : B.step op = some B') :
    Remembers B B' := by
  cases op with
  | withCallLimits limits =>
    refine .of_same (build_reservations (fun B₁ hok => ?_) hstep)
    obtain ⟨-, -, rfl⟩ := withCallLimits_eq_ok hok
    rfl
  | withOwnedTemplates templates =>
    refine .of_same (build_reservations (fun B₁ hok => ?_) hstep)
    obtain ⟨-, rfl⟩ := withOwnedTemplates_eq_ok hok
    rfl
  | withTokenScopes scopes =>
    refine .of_same (build_reservations (fun B₁ hok => ?_) hstep)
    obtain ⟨_, -, hok⟩ := bind_eq_ok.mp hok
    obtain ⟨tokens, -, rfl⟩ := installTokenScopes_eq_ok hok
    rfl
  | withDeferredVerification =>
    refine .of_same (build_reservations (fun B₁ hok => ?_) hstep)
    obtain ⟨-, rfl⟩ := withDeferredVerification_eq_ok hok
    rfl
  | installRecoveryAllowances allowances =>
    obtain ⟨answer, hcall⟩ := step_reply hstep
    exact .of_same (installRecoveryAllowances_frame hcall).2
  | prepare node now =>
    obtain ⟨answer, hcall⟩ := step_reply hstep
    rcases prepare_cases B node now with ⟨e, he⟩ |
      ⟨account, scopes, reserve, r, tokens, deadline, -, hadmits, hr, -, hscopes, hok⟩
    · rw [he] at hcall
      cases hcall
      exact .of_same rfl
    · rw [hok] at hcall
      cases hcall
      have hfresh := h.fresh_id hr
      refine .opens hfresh ?_ rfl
      change BudgetScope.run ∈ r.scopes
      rw [hscopes, BudgetLedger.mem_scopeSet, (reservationScopes_eq_ok hadmits.scopes_eq).1]
      simp
  | begin id now =>
    obtain ⟨answer, hcall⟩ := step_reply hstep
    rcases begin_cases h id now with ⟨e, he⟩ | hok | ⟨held, a, hid, hp, hbegun, ha, hpos, hok⟩
    · rw [he] at hcall
      cases hcall
      exact .of_same rfl
    · rw [hok] at hcall
      cases hcall
      exact .of_same rfl
    · rw [hok] at hcall
      cases hcall
      exact .update hid rfl ⟨rfl, fun _ => ⟨rfl, rfl⟩, fun hs => ⟨_, hs, le_refl _⟩⟩
  | release id =>
    obtain ⟨answer, hcall⟩ := step_reply hstep
    rcases release_cases h id with ⟨_, hok⟩ | ⟨held, a, tokens, hid, hp, hbegun, -, -, -, hok⟩
    · rw [hok] at hcall
      cases hcall
      exact .of_same rfl
    · rw [hok] at hcall
      cases hcall
      refine .update hid rfl ⟨rfl, fun hb => ?_, fun hs => ⟨_, hs, le_refl _⟩⟩
      rw [hbegun] at hb
      cases hb
  | settleExact id actual =>
    obtain ⟨answer, hcall⟩ := step_reply hstep
    exact h.settleExact_remembers hcall
  | settleRecovered id actual =>
    obtain ⟨answer, hcall⟩ := step_reply hstep
    rw [settleRecovered] at hcall
    split_ifs at hcall
    · cases hcall
      exact .of_same rfl
    · obtain ⟨⟨reply, B₁⟩, hsettle, hcall⟩ := Option.bind_eq_some_iff.mp hcall
      have hfirst := h.settleExact_remembers hsettle
      cases reply with
      | error e =>
        cases hcall
        exact hfirst
      | ok _ => exact hfirst.trans (.recover hcall)
  | observeChargeExact id actual =>
    obtain ⟨answer, hcall⟩ := step_reply hstep
    exact observeChargeExact_remembers hcall
  | allowRetry node =>
    obtain ⟨answer, hcall⟩ := step_reply hstep
    rw [TaskBudget.allowRetry] at hcall
    split at hcall
    · cases hcall
      exact .of_same rfl
    · split_ifs at hcall <;> cases hcall <;> exact .of_same rfl
  | registerOwnedChildren parent children =>
    obtain ⟨answer, hcall⟩ := step_reply hstep
    rw [TaskBudget.registerOwnedChildren] at hcall
    split at hcall
    · cases hcall
      exact .of_same rfl
    · split at hcall <;> split_ifs at hcall <;> cases hcall <;> exact .of_same rfl
  | registerExperimentalChildren parent children maxChildren =>
    obtain ⟨answer, hcall⟩ := step_reply hstep
    rw [TaskBudget.registerExperimentalChildren] at hcall
    split at hcall
    · split_ifs at hcall <;> cases hcall <;> exact .of_same rfl
    · split_ifs at hcall
      · cases hcall
        exact .of_same rfl
      · split at hcall
        · cases hcall
          exact .of_same rfl
        · split_ifs at hcall <;> cases hcall <;> exact .of_same rfl
  | invalidatePlan now =>
    obtain ⟨answer, hcall⟩ := step_reply hstep
    rw [TaskBudget.invalidatePlan] at hcall
    split_ifs at hcall <;> cases hcall <;> exact .of_same rfl
  | installGraph graph now preparation =>
    obtain ⟨answer, hcall⟩ := step_reply hstep
    rw [TaskBudget.installGraph] at hcall
    split at hcall
    · cases hcall
      exact .of_same rfl
    case h_2 B₁ hinstalled =>
      cases hcall
      obtain ⟨-, -, -, -, next, -, hscopes⟩ := installed_eq_ok hinstalled
      obtain ⟨tokens, -, rfl⟩ := installTokenScopes_eq_ok hscopes
      exact .of_same rfl

/-- **A whole run** remembers every reservation. -/
theorem Inv.run_remembers (h : B.Inv) {ops : List Op}
    (hrun : Afactory.run TaskBudget.step B ops = some B') : B'.Inv ∧ Remembers B B' := by
  refine run_invariant (P := fun C => C.Inv ∧ Remembers B C) (fun C op C' hC hstep => ?_)
    ⟨h, .of_same rfl⟩ hrun
  exact ⟨hC.1.of_step op hstep, hC.2.trans (hC.1.step_remembers hstep)⟩

/-! ## Late usage -/

/-- Raising fails only where a total does not fit. -/
theorem raiseCommitted_eq_none {base : BudgetLedger} {delta : ℕ} {scopes : List BudgetScope}
    {updated : BudgetLedger} (h : raiseCommitted base delta scopes updated = none) :
    ∃ s ∈ scopes, u128Bound ≤ base.committed s + delta := by
  induction scopes generalizing updated with
  | nil => cases h
  | cons scope scopes ih =>
    rw [raiseCommitted] at h
    by_cases hfits : base.committed scope + delta < u128Bound
    · rw [addU128_eq_some.mpr ⟨hfits, rfl⟩] at h
      obtain ⟨s, hs, hle⟩ := ih h
      exact ⟨s, List.mem_cons_of_mem _ hs, hle⟩
    · exact ⟨scope, List.mem_cons_self, not_lt.mp hfits⟩

/-- **Late usage** of a settled reservation is charged to every scope it named, by what it
exceeds the settled charge; it is refused only where a total would not fit, and then
nothing is charged. -/
theorem observeChargeExact_settled {id : String} {held : Held} {previous : ℕ}
    (hid : B.reservations.get id = some held) (hbegun : held.begun = true)
    (hreleased : held.released = false) (hsettled : held.settled = some previous) (actual : ℕ) :
    (∃ B', B.observeChargeExact id actual = some (.ok (), B') ∧
        (∀ s, B'.tokens.committed s = B.tokens.committed s +
          if s ∈ held.tokens.scopes then actual - previous else 0) ∧
        B'.chargeOf id = max previous actual) ∨
      ∃ e B', B.observeChargeExact id actual = some (.error e, B') ∧ B'.tokens = B.tokens ∧
        B'.reservations = B.reservations ∧
        ∃ s ∈ held.tokens.scopes, u128Bound ≤ B.tokens.committed s + (actual - previous) := by
  have hopen : ¬ (!held.begun || held.released) = true := by simp [hbegun, hreleased]
  rw [observeChargeExact, hid]
  simp only [if_neg hopen, hsettled]
  by_cases hmore : previous < actual
  · rw [if_pos hmore]
    cases hraise : raiseCommitted B.tokens (actual - previous) held.tokens.scopes B.tokens with
    | none => exact .inr ⟨_, _, rfl, rfl, rfl, raiseCommitted_eq_none hraise⟩
    | some tokens =>
      refine .inl ⟨_, rfl, fun s => ?_, ?_⟩
      · rw [(raiseCommitted_eq_some hraise).2]
        split_ifs <;> rfl
      · rw [chargeOf_eq (OrdMap.get_insert_self _ _ _), Option.getD_some, max_eq_right hmore.le]
  · rw [if_neg hmore]
    refine .inl ⟨_, rfl, fun s => ?_, ?_⟩
    · rw [Nat.sub_eq_zero_of_le (not_lt.mp hmore), ite_self, Nat.add_zero]
    · simp only [chargeOf, hid, hsettled, Option.getD_some, max_eq_left (not_lt.mp hmore)]

/-- An accepted replacement finds every reservation released or settled. -/
theorem hasPending_of_replaced
    (h : (∃ now, B.invalidatePlan now = some (.ok (), B')) ∨
      ∃ graph now preparation, B.installGraph graph now preparation = some (.ok (), B')) :
    B.hasPending = false := by
  rcases h with ⟨now, h⟩ | ⟨graph, now, preparation, h⟩
  · rw [invalidatePlan] at h
    split_ifs at h with hbusy
    · cases h
    · simp_all
  · rw [installGraph] at h
    split at h
    · cases h
    case h_2 hinstalled => exact (installed_eq_ok hinstalled).1

/-- **Graph replacement keeps the bill.** In every reachable budget, invalidating the plan
and installing a graph keep the Task's committed tokens, the begun and the chargeable
Attempts and what every captured token scope was charged; a refused installation changes
nothing at all. After an accepted replacement and any further operations, usage observed
for an old reservation is charged to the Task and to each scope it named by exactly what
it exceeds its highest charge so far, or is refused where a total does not fit 128 bits,
with nothing charged. -/
theorem run_replacement_keeps_bill (limits : TaskLimits)
    (allowances : OrdMap String NodeAllowance) (B₀ B : TaskBudget) (ops : List Op)
    (hnew : TaskBudget.new limits allowances = .ok B₀)
    (hrun : Afactory.run TaskBudget.step B₀ ops = some B) :
    (∀ now reply B', B.invalidatePlan now = some (reply, B') → Replaces B B') ∧
      (∀ graph now preparation reply B', B.installGraph graph now preparation = some (reply, B') →
        Replaces B B' ∧ ∀ e, reply = .error e → B' = B) ∧
      ∀ B₁ later B₂ id held actual,
        ((∃ now, B.invalidatePlan now = some (.ok (), B₁)) ∨
          ∃ graph now preparation, B.installGraph graph now preparation = some (.ok (), B₁)) →
        Afactory.run TaskBudget.step B₁ later = some B₂ →
        B.reservations.get id = some held → held.begun = true → held.released = false →
        B.chargeOf id ≤ B₂.chargeOf id ∧ .run ∈ held.tokens.scopes ∧
        ((∃ B₃, B₂.observeChargeExact id actual = some (.ok (), B₃) ∧
            (∀ s, B₃.tokens.committed s = B₂.tokens.committed s +
              if s ∈ held.tokens.scopes then actual - B₂.chargeOf id else 0) ∧
            B₃.chargeOf id = max (B₂.chargeOf id) actual) ∨
          ∃ e B₃, B₂.observeChargeExact id actual = some (.error e, B₃) ∧
            B₃.tokens = B₂.tokens ∧ B₃.reservations = B₂.reservations ∧
            ∃ s ∈ held.tokens.scopes,
              u128Bound ≤ B₂.tokens.committed s + (actual - B₂.chargeOf id)) := by
  obtain ⟨hinv, hremembers⟩ := (Inv.new hnew).run_remembers hrun
  refine ⟨fun now reply B' => hinv.invalidatePlan_replaces,
    fun graph now preparation reply B' hcall => ⟨hinv.installGraph_replaces hcall, ?_⟩, ?_⟩
  · rintro e rfl
    rw [installGraph] at hcall
    split at hcall
    · cases hcall
      rfl
    · cases hcall
  · intro B₁ later B₂ id held actual hreplaced hlater hid hbegun hreleased
    -- nothing was pending, so the reservation was settled
    have hended := not_pending_of_hasPending (hasPending_of_replaced hreplaced) hid
    obtain ⟨previous, hsettled⟩ : ∃ previous, held.settled = some previous := by
      rw [Held.pending, hreleased] at hended
      exact Option.ne_none_iff_exists'.mp fun hnone => by simp [hnone] at hended
    obtain ⟨op, hop⟩ : ∃ op, B.step op = some B₁ := by
      rcases hreplaced with ⟨now, h⟩ | ⟨graph, now, preparation, h⟩
      · exact ⟨.invalidatePlan now, by rw [step, h]; rfl⟩
      · exact ⟨.installGraph graph now preparation, by rw [step, h]; rfl⟩
    obtain ⟨-, hafter⟩ := hinv.run_remembers (run_cons_eq_some.mpr ⟨B₁, hop, hlater⟩)
    obtain ⟨held₂, hid₂, hrecalls⟩ := hafter.recalls hid
    obtain ⟨hbegun₂, hreleased₂⟩ := hrecalls.begun hbegun
    obtain ⟨charge, hcharge, hle⟩ := hrecalls.settled hsettled
    have hof : B.chargeOf id = previous := by rw [chargeOf_eq hid, hsettled, Option.getD_some]
    have hof₂ : B₂.chargeOf id = charge := by rw [chargeOf_eq hid₂, hcharge, Option.getD_some]
    have hunreserved : B₀.reservations = .empty := (Unspent.new hnew).empty
    rw [hof, hof₂, ← hrecalls.tokens]
    refine ⟨hle, ?_, observeChargeExact_settled hid₂ hbegun₂ (hreleased₂.trans hreleased) hcharge
      actual⟩
    rw [hrecalls.tokens]
    refine hremembers.names (fun {i k} hk => ?_) hid
    rw [hunreserved] at hk
    cases hk

/-- One paid Attempt of the worker, under a token scope of its own. -/
def scopedOps : List Op := [.withTokenScopes (.ofList [("round.one", ⟨60, ["work"]⟩)]),
  .prepare "work" 1, .begin "reservation:1" 2, .settleExact "reservation:1" 30]

/-- Usage that arrives after the plan was thrown away raises the Task's charge and the
old scope's. -/
theorem run_replacement_keeps_bill_late :
    ∃ B₀ B B₁ B₂, TaskBudget.new pairLimits pairAllowances = .ok B₀ ∧
      Afactory.run TaskBudget.step B₀ scopedOps = some B ∧
      B.invalidatePlan 3 = some (.ok (), B₁) ∧ Replaces B B₁ ∧
      B₁.observeChargeExact "reservation:1" 37 = some (.ok (), B₂) ∧
      B₂.tokens.committed .run = 37 ∧ B₂.tokens.committed (.fanOut "round.one") = 37 := by
  have hfacts : ∃ B ∈ (TaskBudget.new pairLimits pairAllowances).toOption.bind
      (fun B₀ => Afactory.run TaskBudget.step B₀ scopedOps),
      ∃ held ∈ B.reservations.get "reservation:1",
        (held.begun = true ∧ held.released = false ∧
          held.tokens.scopes = [.fanOut "round.one", .run]) ∧
        ∃ reply ∈ B.invalidatePlan 3, reply.1 = .ok () ∧
          reply.2.chargeOf "reservation:1" = 30 ∧ reply.2.tokens.committed .run = 30 ∧
          reply.2.tokens.committed (.fanOut "round.one") = 30 := by decide
  obtain ⟨B, hB, held, hid, ⟨hbegun, hreleased, hscopes⟩, ⟨reply, B₁⟩, hcall, rfl, hcharge, hrun₁,
    hscope₁⟩ := hfacts
  obtain ⟨B₀, hnew, hrun⟩ := Option.bind_eq_some_iff.mp hB
  have hnew := toOption_eq_some.mp hnew
  obtain ⟨hinvalidate, -, hlate⟩ := run_replacement_keeps_bill _ _ B₀ B scopedOps hnew hrun
  obtain ⟨-, -, hlate⟩ := hlate B₁ [] B₁ "reservation:1" held 37 (.inl ⟨3, hcall⟩) rfl hid hbegun
    hreleased
  rcases hlate with ⟨B₂, hobserve, hcommitted, -⟩ | ⟨e, B₂, -, -, -, s, hs, hover⟩
  · refine ⟨B₀, B, B₁, B₂, hnew, hrun, hcall, hinvalidate 3 _ B₁ hcall, hobserve, ?_, ?_⟩
    · rw [hcommitted, hrun₁, hscopes, hcharge, if_pos (by simp)]
    · rw [hcommitted, hscope₁, hscopes, hcharge, if_pos (by simp)]
  · -- no total is near the bound
    rw [hscopes] at hs
    rw [hcharge] at hover
    rcases List.mem_pair.mp hs with rfl | rfl
    · rw [hscope₁] at hover
      exact absurd hover (by decide)
    · rw [hrun₁] at hover
      exact absurd hover (by decide)

end TaskBudget

end Afactory
