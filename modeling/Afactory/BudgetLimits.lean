import Mathlib
import Afactory.BudgetLaws
import Afactory.Checks
import Afactory.CompiledTask
import Afactory.MandatoryWork
import Afactory.TaskBudgetCounters

/-!
# Which limits a graph's budget accepts

`CompiledTask::budget` of `review-graph/src/task.rs` reads the limits of a Task in few places: it
compares them with sums over the graph, and with the tokens of single Attempts. Everything else it
checks is about the graph alone.

* `Suffices`: the limits hold what the graph adds up to;
* `accepts_suffices`: accepted limits do;
* `accepts_of_suffices`: and with a graph that any limits were accepted for, those that do are
  accepted.
-/

namespace Afactory

/-- Limits at least others in every field. -/
instance : LE TaskLimits where
  le a b := a.tokens ≤ b.tokens ∧ a.maxAttempts ≤ b.maxAttempts ∧
    a.deadlineUnixMs ≤ b.deadlineUnixMs ∧ a.verification.tokens ≤ b.verification.tokens ∧
    a.verification.attempts ≤ b.verification.attempts ∧
    a.verification.wallMs ≤ b.verification.wallMs

theorem TaskLimits.le_iff {a b : TaskLimits} : a ≤ b ↔ a.tokens ≤ b.tokens ∧
    a.maxAttempts ≤ b.maxAttempts ∧ a.deadlineUnixMs ≤ b.deadlineUnixMs ∧
    a.verification.tokens ≤ b.verification.tokens ∧
    a.verification.attempts ≤ b.verification.attempts ∧
    a.verification.wallMs ≤ b.verification.wallMs := Iff.rfl

theorem TaskLimits.validate_iff {l : TaskLimits} : l.validate = .ok () ↔
    l.tokens ≤ safeIntegerMax ∧ 0 < l.maxAttempts ∧ 0 < l.deadlineUnixMs ∧
      l.deadlineUnixMs ≤ safeIntegerMax ∧ l.verification.wallMs ≤ safeIntegerMax ∧
      l.verification.tokens ≤ l.tokens ∧ l.verification.attempts ≤ l.maxAttempts := by
  rw [TaskLimits.validate, require_eq_ok]
  simp only [Bool.and_eq_true, decide_eq_true_eq, and_assoc]

namespace TaskBudget

variable {B B' : TaskBudget} {limits : TaskLimits} {tokens tokens' : BudgetLedger}

/-! ## Other limits -/

/-- The budget under other limits, before anything is spent. -/
def relimit (B : TaskBudget) (limits : TaskLimits) (tokens : BudgetLedger) : TaskBudget :=
  { B with limits := limits, tokens := tokens }

/-- The scopes of a ledger are as in another, its run account aside. -/
def SameScopes (tokens tokens' : BudgetLedger) : Prop :=
  ∀ name, tokens.account (.fanOut name) = tokens'.account (.fanOut name)

theorem SameScopes.withLimit (h : SameScopes tokens tokens') (name : String) (limit : ℕ) :
    SameScopes (tokens.withLimit (.fanOut name) limit)
      (tokens'.withLimit (.fanOut name) limit) := by
  intro other
  rw [BudgetLedger.withLimit_account, BudgetLedger.withLimit_account, h, h]

/-- A node enters under limits that hold one of its Attempts. -/
theorem addMinimum_tokens_le {minimum minimum' : VerificationReserve}
    {entry : String × NodeAllowance} (h : addMinimum limits minimum entry = .ok minimum') :
    entry.2.tokensPerAttempt ≤ limits.tokens := by
  obtain ⟨name, a⟩ := entry
  obtain ⟨_, hshape, -⟩ := bind_eq_ok.mp h
  have hshape := require_eq_ok.mp hshape
  simp only [Bool.not_eq_true', Bool.or_eq_false_iff, decide_eq_false_iff_not, not_lt] at hshape
  exact hshape.2

/-- And under all such limits. -/
theorem addMinimum_limits {limits' : TaskLimits} {minimum minimum' : VerificationReserve}
    {entry : String × NodeAllowance} (h : addMinimum limits' minimum entry = .ok minimum')
    (htokens : entry.2.tokensPerAttempt ≤ limits.tokens) :
    addMinimum limits minimum entry = .ok minimum' := by
  obtain ⟨name, a⟩ := entry
  obtain ⟨_, hshape, hrest⟩ := bind_eq_ok.mp h
  have hshape := require_eq_ok.mp hshape
  simp only [Bool.not_eq_true', Bool.or_eq_false_iff, decide_eq_false_iff_not, not_lt] at hshape
  refine bind_eq_ok.mpr ⟨(), require_eq_ok.mpr ?_, hrest⟩
  simp only [Bool.not_eq_true', Bool.or_eq_false_iff, decide_eq_false_iff_not, not_lt]
  exact ⟨hshape.1, htokens⟩

/-- The verification reserve the nodes add up to. -/
def reserveOf (allowances : OrdMap String NodeAllowance) : VerificationReserve where
  tokens := allowances.sum fun _ a => a.tokensPerAttempt * a.verificationAttempts
  attempts := allowances.sum fun _ a => a.verificationAttempts
  wallMs := allowances.sum fun _ a => a.wallMsPerAttempt * a.verificationAttempts

/-- The compiled minimum is that reserve. -/
theorem foldlM_addMinimum {allowances : OrdMap String NodeAllowance}
    {minimum : VerificationReserve}
    (h : allowances.entries.foldlM (addMinimum limits) ⟨0, 0, 0⟩ = .ok minimum) :
    minimum = reserveOf allowances := by
  have htokens : minimum.tokens = 0 + (allowances.entries.map fun e =>
      e.2.tokensPerAttempt * e.2.verificationAttempts).sum :=
    foldlM_sum (r := fun m => m.tokens) (fun _ _ _ hstep => (addMinimum_eq_ok hstep).1) h
  have hattempts : minimum.attempts = 0 + (allowances.entries.map fun e =>
      e.2.verificationAttempts).sum :=
    foldlM_sum (r := fun m => m.attempts) (fun _ _ _ hstep => (addMinimum_eq_ok hstep).2) h
  have hwall : minimum.wallMs = 0 + (allowances.entries.map fun e =>
      e.2.wallMsPerAttempt * e.2.verificationAttempts).sum :=
    foldlM_sum (r := fun m => m.wallMs)
      (fun _ _ _ hstep => (CompiledTask.addMinimum_node hstep).2.2.2) h
  obtain ⟨tokens, attempts, wallMs⟩ := minimum
  simp only [Nat.zero_add] at htokens hattempts hwall
  simp only [reserveOf, OrdMap.sum, htokens, hattempts, hwall]

/-- What a new budget compares its limits with. -/
theorem new_iff {allowances : OrdMap String NodeAllowance} :
    TaskBudget.new limits allowances = .ok B ↔ limits.validate = .ok () ∧
      (∃ minimum, allowances.entries.foldlM (addMinimum limits) ⟨0, 0, 0⟩ = .ok minimum) ∧
      (reserveOf allowances).tokens ≤ limits.verification.tokens ∧
      (reserveOf allowances).attempts ≤ limits.verification.attempts ∧
      (reserveOf allowances).wallMs ≤ limits.verification.wallMs ∧
      B = { limits := limits
            tokens := BudgetLedger.withLimit {} .run limits.tokens
            nodes := allowances.mapVal fun _ allowance => { allowance := allowance } } := by
  constructor
  · intro h
    obtain ⟨_, hvalid, h⟩ := bind_eq_ok.mp h
    obtain ⟨minimum, hminimum, h⟩ := bind_eq_ok.mp h
    split_ifs at h with hshort
    · cases h
    · cases h
      simp only [Bool.or_eq_true, decide_eq_true_eq, not_or, not_lt] at hshort
      rw [← foldlM_addMinimum hminimum]
      exact ⟨hvalid, ⟨minimum, hminimum⟩, hshort.1.1, hshort.1.2, hshort.2, rfl⟩
  · rintro ⟨hvalid, ⟨minimum, hminimum⟩, htokens, hattempts, hwall, rfl⟩
    refine bind_eq_ok.mpr ⟨(), hvalid, bind_eq_ok.mpr ⟨minimum, hminimum, ?_⟩⟩
    rw [← foldlM_addMinimum hminimum] at htokens hattempts hwall
    rw [if_neg (by simp [htokens, hattempts, hwall])]
    rfl

theorem withCallLimits_relimit (limits : TaskLimits) (tokens : BudgetLedger)
    {calls : OrdMap String ℕ} (h : B.withCallLimits calls = .ok B') :
    (B.relimit limits tokens).withCallLimits calls = .ok (B'.relimit limits tokens) := by
  obtain ⟨_, hready, h⟩ := bind_eq_ok.mp h
  obtain ⟨_, hchecks, h⟩ := bind_eq_ok.mp h
  cases h
  exact bind_eq_ok.mpr ⟨(), hready, bind_eq_ok.mpr ⟨(), hchecks, rfl⟩⟩

/-- Templates are checked against the tokens of the Task. -/
theorem withOwnedTemplates_tokens {templates : OrdMap String OwnedNodeAllowance}
    (h : B.withOwnedTemplates templates = .ok B') {name : String} {template : OwnedNodeAllowance}
    (htemplate : templates.get name = some template) :
    template.allowance.tokensPerAttempt ≤ B.limits.tokens := by
  obtain ⟨_, -, h⟩ := bind_eq_ok.mp h
  obtain ⟨_, hchecks, -⟩ := bind_eq_ok.mp h
  have hcheck := require_eq_ok.mp (forM_eq_ok.mp hchecks _ (OrdMap.mem_iff_get.mpr htemplate))
  simp only [Bool.not_eq_true', Bool.or_eq_false_iff, decide_eq_false_iff_not, not_lt] at hcheck
  exact hcheck.1.1.2

theorem withOwnedTemplates_relimit (tokens : BudgetLedger)
    {templates : OrdMap String OwnedNodeAllowance}
    (h : B.withOwnedTemplates templates = .ok B')
    (htokens : ∀ {name template}, templates.get name = some template →
      template.allowance.tokensPerAttempt ≤ limits.tokens) :
    (B.relimit limits tokens).withOwnedTemplates templates = .ok (B'.relimit limits tokens) := by
  obtain ⟨_, hready, h⟩ := bind_eq_ok.mp h
  obtain ⟨_, hchecks, h⟩ := bind_eq_ok.mp h
  cases h
  refine bind_eq_ok.mpr ⟨(), hready, bind_eq_ok.mpr ⟨(), forM_eq_ok.mpr fun entry hentry => ?_, rfl⟩⟩
  have hcheck := require_eq_ok.mp (forM_eq_ok.mp hchecks entry hentry)
  refine require_eq_ok.mpr ?_
  simp only [Bool.not_eq_true', Bool.or_eq_false_iff, decide_eq_false_iff_not, not_lt] at hcheck ⊢
  exact ⟨⟨⟨hcheck.1.1.1, htokens (OrdMap.mem_iff_get.mp hentry)⟩, hcheck.1.2⟩, hcheck.2⟩

/-- A token scope is checked against its own account. -/
theorem installTokenScope_relimit {ledger ledger' L : BudgetLedger}
    (hsame : SameScopes ledger ledger') {entry : String × TaskTokenScope}
    (h : B.installTokenScope ledger entry = .ok L) :
    ∃ L', (B.relimit limits tokens).installTokenScope ledger' entry = .ok L' ∧
      SameScopes L L' := by
  obtain ⟨name, scope⟩ := entry
  obtain ⟨_, hshape, h⟩ := bind_eq_ok.mp h
  obtain ⟨_, hcaptured, h⟩ := bind_eq_ok.mp h
  obtain ⟨required, hrequired, h⟩ := bind_eq_ok.mp h
  obtain ⟨_, htotal, h⟩ := bind_eq_ok.mp h
  cases h
  refine ⟨ledger'.withLimit (.fanOut name) scope.tokens, ?_, hsame.withLimit name scope.tokens⟩
  rw [BudgetLedger.committed, BudgetLedger.reserved, hsame name] at htotal
  exact bind_eq_ok.mpr ⟨(), hshape, bind_eq_ok.mpr ⟨(), hcaptured,
    bind_eq_ok.mpr ⟨required, hrequired, bind_eq_ok.mpr ⟨(), htotal, rfl⟩⟩⟩⟩

theorem withTokenScopes_relimit (limits : TaskLimits) {scopes : OrdMap String TaskTokenScope}
    (hsame : SameScopes B.tokens tokens) (h : B.withTokenScopes scopes = .ok B') :
    ∃ tokens', (B.relimit limits tokens).withTokenScopes scopes =
      .ok (B'.relimit limits tokens') := by
  obtain ⟨_, hready, h⟩ := bind_eq_ok.mp h
  obtain ⟨ledger, hfold, h⟩ := bind_eq_ok.mp h
  cases h
  obtain ⟨ledger', hfold', -⟩ := foldlM_simulates
    (g := (B.relimit limits tokens).installTokenScope) (R := SameScopes)
    (fun _ _ _ _ _ hR hstep => installTokenScope_relimit hR hstep) hsame hfold
  exact ⟨ledger', bind_eq_ok.mpr ⟨(), hready, bind_eq_ok.mpr ⟨ledger', hfold', rfl⟩⟩⟩

theorem installRecoveryAllowances_relimit (allowances : List (String × ℕ)) :
    (B.relimit limits tokens).installRecoveryAllowances allowances =
      (B.installRecoveryAllowances allowances).map fun reply =>
        (reply.1, reply.2.relimit limits tokens) := by
  induction allowances generalizing B with
  | nil => rfl
  | cons entry rest ih =>
    obtain ⟨node, allowance⟩ := entry
    rw [installRecoveryAllowances, installRecoveryAllowances]
    split_ifs
    · rfl
    · have hnodes : (B.relimit limits tokens).nodes.get node = B.nodes.get node := rfl
      rw [hnodes]
      cases B.nodes.get node with
      | none => rfl
      | some a => exact @ih { B with
          nodes := B.nodes.insert node { a with recoveryAllowance := allowance } }

theorem withRecoveryAllowances_relimit (limits : TaskLimits) (tokens : BudgetLedger)
    {allowances : OrdMap String ℕ} (h : B.withRecoveryAllowances allowances = .ok B') :
    ∃ B'', (B.relimit limits tokens).withRecoveryAllowances allowances = .ok B'' := by
  rw [withRecoveryAllowances, installRecoveryAllowances_relimit]
  rw [withRecoveryAllowances] at h
  cases hreply : B.installRecoveryAllowances allowances.entries with
  | none => exact ⟨_, rfl⟩
  | some reply =>
    obtain ⟨answer, next⟩ := reply
    rw [hreply] at h
    cases answer with
    | error e => cases h
    | ok _ => exact ⟨_, rfl⟩

end TaskBudget

namespace CompiledTask

open TaskBudget

variable {G : CompiledTask} {limits limits' : TaskLimits}

/-! ## What the graph adds up to -/

/-- The paid nodes and the owners' templates. -/
def paid (G : CompiledTask) : List (String × NodeAllowance) :=
  G.allowances.entries ++ G.ownedChildren.entries.map fun e => (e.1, e.2.allowance)

/-- One Attempt of every mandatory node, in tokens and in Attempts. -/
def mandatoryTokens (G : CompiledTask) : ℕ :=
  (G.paid.map fun e => e.2.tokensPerAttempt * G.once e.1 e.2).sum

def mandatoryCount (G : CompiledTask) : ℕ := (G.paid.map fun e => G.once e.1 e.2).sum

/-- The limits are valid and hold the declared verification, one Attempt of every mandatory node
beside it, and any single Attempt. -/
structure Suffices (G : CompiledTask) (limits : TaskLimits) : Prop where
  valid : limits.validate = .ok ()
  tokens : limits.verification.tokens + G.mandatoryTokens ≤ limits.tokens
  attempts : limits.verification.attempts + G.mandatoryCount ≤ limits.maxAttempts
  reserveTokens : (reserveOf G.allowances).tokens ≤ limits.verification.tokens
  reserveAttempts : (reserveOf G.allowances).attempts ≤ limits.verification.attempts
  reserveWall : (reserveOf G.allowances).wallMs ≤ limits.verification.wallMs
  each : ∀ e ∈ G.paid, e.2.tokensPerAttempt ≤ limits.tokens

/-- `budget` answers with a budget. -/
def Accepts (G : CompiledTask) (limits : TaskLimits) : Prop := ∃ B, G.budget limits = .ok B

theorem minimum_tokens {m : Minimum} (h : G.minimum limits = .ok m) :
    m.tokens = limits.verification.tokens + G.mandatoryTokens ∧
      m.attempts = limits.verification.attempts + G.mandatoryCount := by
  rw [minimum] at h
  exact ⟨foldlM_sum (r := fun m => m.tokens) (fun _ _ _ hstep => (addNode_eq_ok hstep).1) h,
    foldlM_sum (r := fun m => m.attempts) (fun _ _ _ hstep => (addNode_eq_ok hstep).2.1) h⟩

/-- The dormant Integration node has no tokens and no verification. -/
theorem executionAllowances_cases {allowances : OrdMap String NodeAllowance}
    (h : G.executionAllowances = .ok allowances) :
    reserveOf allowances = reserveOf G.allowances ∧
      (∀ e ∈ G.allowances.entries, e ∈ allowances.entries) ∧
      ∀ e ∈ allowances.entries, e ∈ G.allowances.entries ∨ e.2.tokensPerAttempt = 0 := by
  have hsum : ∀ f : NodeAllowance → ℕ, (∀ a, a.verificationAttempts = 0 → f a = 0) →
      (allowances.sum fun _ a => f a) = G.allowances.sum fun _ a => f a :=
    fun f hf => sum_executionAllowances h fun _ a hverifies _ => hf a hverifies
  refine ⟨?_, ?_⟩
  · simp only [reserveOf, VerificationReserve.mk.injEq]
    exact ⟨hsum _ (by simp +contextual), hsum _ (by simp), hsum _ (by simp +contextual)⟩
  rw [executionAllowances] at h
  cases hphase : G.reviewIntegration with
  | none =>
    rw [hphase] at h
    cases h
    exact ⟨fun _ he => he, fun _ he => .inl he⟩
  | some phase =>
    simp only [hphase, bind_eq_ok] at h
    obtain ⟨_, hvalid, _, hfresh, h⟩ := h
    cases h
    rw [CompiledReviewIntegration.validate, require_eq_ok] at hvalid
    simp only [Bool.not_eq_true', Bool.or_eq_false_iff, decide_eq_false_iff_not, not_not] at hvalid
    rw [require_eq_ok] at hfresh
    simp only [Bool.not_eq_true', Bool.or_eq_false_iff] at hfresh
    have hnone : G.allowances.get phase.node = none := by
      simpa [OrdMap.contains] using hfresh.2
    constructor
    · rintro ⟨name, a⟩ he
      have hget := OrdMap.mem_iff_get.mp he
      have hne : name ≠ phase.node := by
        rintro rfl
        rw [hnone] at hget
        cases hget
      exact OrdMap.mem_iff_get.mpr (by rw [OrdMap.get_insert_ne _ _ hne, hget])
    · rintro ⟨name, a⟩ he
      have hget := OrdMap.mem_iff_get.mp he
      rw [OrdMap.get_insert] at hget
      split_ifs at hget
      · cases hget
        exact .inr (by simpa using hvalid.1.1.1.2)
      · exact .inl (OrdMap.mem_iff_get.mpr hget)

theorem ownedTemplateAllowances_eq_ok {templates : OrdMap String OwnedNodeAllowance}
    (h : G.ownedTemplateAllowances = .ok templates) : templates = G.templates := by
  obtain ⟨_, -, h⟩ := bind_eq_ok.mp h
  cases h
  rfl

/-- **Accepted limits suffice.** -/
theorem accepts_suffices (h : G.Accepts limits) : G.Suffices limits := by
  obtain ⟨B, h⟩ := h
  obtain ⟨_, -, h⟩ := bind_eq_ok.mp h
  obtain ⟨templates, htemplates, h⟩ := bind_eq_ok.mp h
  obtain ⟨_, hminimum, h⟩ := bind_eq_ok.mp h
  obtain ⟨allowances, hallowances, h⟩ := bind_eq_ok.mp h
  obtain ⟨B₁, hnew, h⟩ := bind_eq_ok.mp h
  obtain ⟨B₂, hcalls, h⟩ := bind_eq_ok.mp h
  obtain ⟨B₃, howned, -⟩ := bind_eq_ok.mp h
  obtain ⟨hreserve, hall, -⟩ := executionAllowances_cases hallowances
  obtain ⟨hvalid, ⟨minimum, hfold⟩, htokens, hattempts, hwall, hB₁⟩ := new_iff.mp hnew
  rw [hreserve] at htokens hattempts hwall
  obtain ⟨-, -, hB₂⟩ := withCallLimits_eq_ok hcalls
  obtain ⟨m, hm, hminimum⟩ := bind_eq_ok.mp hminimum
  obtain ⟨_, -, hminimum⟩ := bind_eq_ok.mp hminimum
  obtain ⟨hmTokens, hmAttempts⟩ := minimum_tokens hm
  split_ifs at hminimum with hshort
  · obtain ⟨_, -, hminimum⟩ := bind_eq_ok.mp hminimum
    cases hminimum
  simp only [Bool.or_eq_true, decide_eq_true_eq, not_or, not_lt] at hshort
  refine ⟨hvalid, hmTokens ▸ hshort.1, hmAttempts ▸ hshort.2, htokens, hattempts, hwall,
    fun e he => ?_⟩
  rcases List.mem_append.mp he with he | he
  · obtain ⟨_, _, hstep⟩ := foldlM_steps hfold (hall e he)
    exact addMinimum_tokens_le hstep
  · obtain ⟨⟨name, template⟩, htemplate, rfl⟩ := List.mem_map.mp he
    have hget : templates.get name = some ⟨template.allowance, template.maxChildren⟩ := by
      rw [ownedTemplateAllowances_eq_ok htemplates, CompiledTask.templates, OrdMap.get_mapVal,
        OrdMap.mem_iff_get.mp htemplate]
      rfl
    have hle := withOwnedTemplates_tokens howned hget
    rw [hB₂, hB₁] at hle
    exact hle

/-- One node enters the minimum of other limits with room for it. -/
theorem addNode_shift {m₁ m₂ m' : Minimum} {entry : String × NodeAllowance}
    (h : G.addNode m₁ entry = .ok m') (hscopes : m₂.scopes = m₁.scopes)
    (hroot : m₂.rootAttempts = m₁.rootAttempts)
    (hroom : m₂.tokens + entry.2.tokensPerAttempt * G.once entry.1 entry.2 < u64Bound) :
    ∃ m'', G.addNode m₂ entry = .ok m'' ∧ m''.scopes = m'.scopes ∧
      m''.rootAttempts = m'.rootAttempts := by
  obtain ⟨name, a⟩ := entry
  rw [addNode] at h ⊢
  cases hnode : G.nodes.get name with
  | none =>
    rw [hnode] at h
    cases h
  | some node =>
    rw [hnode] at h
    dsimp only at h ⊢
    obtain ⟨owed, howed, h⟩ := bind_eq_ok.mp h
    obtain ⟨scopes, howedScopes, h⟩ := bind_eq_ok.mp h
    rw [howed, ok_bind, hscopes, howedScopes, ok_bind]
    have honce : G.once name a = if G.mandatory node a then 1 else 0 := by rw [once, hnode]
    rw [honce] at hroom
    split_ifs at h hroom ⊢ with hmandatory
    · obtain ⟨_, -, h⟩ := bind_eq_ok.mp h
      obtain ⟨raised, hraised, h⟩ := bind_eq_ok.mp h
      cases h
      rw [Nat.mul_one] at hroom
      rw [addResource_eq_ok.mpr ⟨hroom, rfl⟩, ok_bind, hraised, ok_bind, hroot]
      exact ⟨_, rfl, rfl, rfl⟩
    · cases h
      exact ⟨_, rfl, rfl, hroot⟩

/-- The minimum of limits with room for it has the same scopes and root Attempts. -/
theorem minimum_shift {m : Minimum} (h : G.minimum limits' = .ok m)
    (hroom : limits.verification.tokens + G.mandatoryTokens < u64Bound) :
    ∃ m', G.minimum limits = .ok m' ∧ m'.scopes = m.scopes ∧ m'.rootAttempts = m.rootAttempts := by
  have hfrom : ∀ (l : List (String × NodeAllowance)) (m₁ m₂ m : Minimum),
      m₂.scopes = m₁.scopes → m₂.rootAttempts = m₁.rootAttempts →
      m₂.tokens + (l.map fun e => e.2.tokensPerAttempt * G.once e.1 e.2).sum < u64Bound →
      l.foldlM G.addNode m₁ = .ok m → ∃ m', l.foldlM G.addNode m₂ = .ok m' ∧
        m'.scopes = m.scopes ∧ m'.rootAttempts = m.rootAttempts := by
    intro l
    induction l with
    | nil =>
      intro m₁ m₂ m hscopes hroot _ hfold
      cases hfold
      exact ⟨m₂, rfl, hscopes, hroot⟩
    | cons e l ih =>
      intro m₁ m₂ m hscopes hroot hroom hfold
      rw [List.map_cons, List.sum_cons] at hroom
      rw [List.foldlM_cons, bind_eq_ok] at hfold
      obtain ⟨next, hnext, hfold⟩ := hfold
      obtain ⟨next', hnext', hscopes', hroot'⟩ := addNode_shift hnext hscopes hroot (by omega)
      have hroom' : next'.tokens +
          (l.map fun e => e.2.tokensPerAttempt * G.once e.1 e.2).sum < u64Bound := by
        rw [(addNode_eq_ok hnext').1]
        omega
      obtain ⟨m', hfold', hkept⟩ := ih next next' m hscopes' hroot' hroom' hfold
      refine ⟨m', ?_, hkept⟩
      rw [List.foldlM_cons, hnext', ok_bind]
      exact hfold'
  rw [minimum] at h
  exact hfrom _ ⟨limits'.verification.tokens, limits'.verification.attempts, _, _⟩
    ⟨limits.verification.tokens, limits.verification.attempts, _, _⟩ m rfl rfl hroom h

/-- The static minimum lies within limits that suffice. -/
theorem checkMinimum_of_suffices (h : G.checkMinimum limits' = .ok ())
    (hsuffices : G.Suffices limits) : G.checkMinimum limits = .ok () := by
  obtain ⟨m, hm, hminimum⟩ := bind_eq_ok.mp h
  obtain ⟨_, hscopes, hminimum⟩ := bind_eq_ok.mp hminimum
  split_ifs at hminimum
  · obtain ⟨_, -, hminimum⟩ := bind_eq_ok.mp hminimum
    cases hminimum
  have hsafe : limits.tokens ≤ safeIntegerMax := (validate_eq_ok hsuffices.valid).1
  have hroom : limits.verification.tokens + G.mandatoryTokens < u64Bound :=
    (hsuffices.tokens.trans hsafe).trans_lt (by decide)
  obtain ⟨m', hm', hsame, hroot⟩ := minimum_shift hm hroom
  obtain ⟨hmTokens, hmAttempts⟩ := minimum_tokens hm'
  refine bind_eq_ok.mpr ⟨m', hm', bind_eq_ok.mpr ⟨(), forM_eq_ok.mpr fun e he => ?_, ?_⟩⟩
  · have hcheck := forM_eq_ok.mp hscopes e he
    rw [checkScopeMinimum] at hcheck ⊢
    rwa [hsame]
  · have htokens := hsuffices.tokens
    have hattempts := hsuffices.attempts
    rw [← hmTokens] at htokens
    rw [← hmAttempts] at hattempts
    rw [if_neg (by simp [htokens, hattempts]), hroot]
    exact hminimum

/-- The same nodes make a budget under limits that suffice. -/
theorem new_of_suffices {allowances : OrdMap String NodeAllowance} {B : TaskBudget}
    (hallowances : G.executionAllowances = .ok allowances)
    (h : TaskBudget.new limits' allowances = .ok B) (hsuffices : G.Suffices limits) :
    TaskBudget.new limits allowances =
      .ok (B.relimit limits (BudgetLedger.withLimit {} .run limits.tokens)) := by
  obtain ⟨hreserve, -, honly⟩ := executionAllowances_cases hallowances
  obtain ⟨-, ⟨minimum, hfold⟩, -, -, -, hB⟩ := new_iff.mp h
  have hsame : ∀ m e m' t, e ∈ allowances.entries → m = t → addMinimum limits' m e = .ok m' →
      ∃ t', addMinimum limits t e = .ok t' ∧ m' = t' := by
    rintro m e m' _ he rfl hstep
    refine ⟨m', addMinimum_limits hstep ?_, rfl⟩
    rcases honly e he with hpaid | hzero
    · exact hsuffices.each e (List.mem_append_left _ hpaid)
    · rw [hzero]
      exact Nat.zero_le _
  obtain ⟨minimum', hfold', -⟩ := foldlM_simulates hsame rfl hfold
  rw [new_iff, hreserve, hB]
  exact ⟨hsuffices.valid, ⟨minimum', hfold'⟩, hsuffices.reserveTokens, hsuffices.reserveAttempts,
    hsuffices.reserveWall, rfl⟩

/-- **Limits that suffice are accepted** for a graph whose budget accepts any. -/
theorem accepts_of_suffices (h : G.Accepts limits') (hsuffices : G.Suffices limits) :
    G.Accepts limits := by
  obtain ⟨B, h⟩ := h
  obtain ⟨_, hslots, h⟩ := bind_eq_ok.mp h
  obtain ⟨templates, htemplates, h⟩ := bind_eq_ok.mp h
  obtain ⟨_, hminimum, h⟩ := bind_eq_ok.mp h
  obtain ⟨allowances, hallowances, h⟩ := bind_eq_ok.mp h
  obtain ⟨B₁, hnew, h⟩ := bind_eq_ok.mp h
  obtain ⟨B₂, hcalls, h⟩ := bind_eq_ok.mp h
  obtain ⟨B₃, howned, h⟩ := bind_eq_ok.mp h
  obtain ⟨B₄, hscopes, h⟩ := bind_eq_ok.mp h
  have htokens : ∀ {name template}, templates.get name = some template →
      template.allowance.tokensPerAttempt ≤ limits.tokens := by
    intro name template hget
    rw [ownedTemplateAllowances_eq_ok htemplates, CompiledTask.templates, OrdMap.get_mapVal] at hget
    obtain ⟨declared, hdeclared, rfl⟩ := Option.map_eq_some_iff.mp hget
    exact hsuffices.each (name, declared.allowance) (List.mem_append_right _
      (List.mem_map.mpr ⟨(name, declared), OrdMap.mem_iff_get.mpr hdeclared, rfl⟩))
  have hsame : SameScopes B₃.tokens (BudgetLedger.withLimit {} .run limits.tokens) := by
    obtain ⟨-, -, -, -, -, hB₁⟩ := new_iff.mp hnew
    obtain ⟨-, -, hB₂⟩ := withCallLimits_eq_ok hcalls
    obtain ⟨-, hB₃⟩ := withOwnedTemplates_eq_ok howned
    intro name
    rw [hB₃, hB₂, hB₁]
    simp [BudgetLedger.withLimit_account]
  have hminimum' := checkMinimum_of_suffices hminimum hsuffices
  have hnew' := new_of_suffices hallowances hnew hsuffices
  have hcalls' := withCallLimits_relimit limits
    (BudgetLedger.withLimit {} .run limits.tokens) hcalls
  have howned' := withOwnedTemplates_relimit
    (BudgetLedger.withLimit {} .run limits.tokens) howned htokens
  obtain ⟨tokens, hscopes'⟩ := withTokenScopes_relimit limits hsame hscopes
  obtain ⟨B', h'⟩ := withRecoveryAllowances_relimit limits tokens h
  exact ⟨B', bind_eq_ok.mpr ⟨(), hslots, bind_eq_ok.mpr ⟨templates, htemplates,
    bind_eq_ok.mpr ⟨(), hminimum', bind_eq_ok.mpr ⟨allowances, hallowances,
    bind_eq_ok.mpr ⟨_, hnew', bind_eq_ok.mpr ⟨_, hcalls', bind_eq_ok.mpr ⟨_, howned',
    bind_eq_ok.mpr ⟨_, hscopes', h'⟩⟩⟩⟩⟩⟩⟩⟩⟩

end CompiledTask

end Afactory
