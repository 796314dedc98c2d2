import Mathlib
import Afactory.ExecutionRuns
import Afactory.TaskBudgetCharges

/-!
# What the execution records do

One specification per record: what an accepted record required and what it wrote.

* `Quiet`: the records of owned children, experiments and publications leave the
  Attempts, their ledger and every charge;
* `applyRecord_ledger`: every record drives the Attempt ledger through its own calls,
  so the ledger of a reachable execution is a run of its own machine (`ledger_kept`).
-/

namespace Afactory

/-- The reservation a budget gives is of the node that asked. -/
theorem TaskBudget.prepare_node {B B' : TaskBudget} {node : String} {now : ℕ} {r : TaskReservation}
    (h : budgetReply (B.prepare node now) = .ok (r, B')) : r.node = node := by
  rw [budgetReply_eq_ok] at h
  rcases prepare_cases B node now with ⟨e, he⟩ | ⟨_, _, _, _, _, _, -, -, -, -, -, hok⟩
  · rw [he] at h
    cases h
  · rw [hok] at h
    cases h
    rfl

theorem RecordedAttempt.pending_iff {a : RecordedAttempt} :
    a.pending = true ↔ a.released = false ∧ a.settlement.isSome = false := by
  simp [RecordedAttempt.pending]

/-- The records of owned children, experiments and publications. -/
def ExecutionRecord.quiet : ExecutionRecord → Bool
  | .published _ _ => true
  | .ownedChildrenRegistered _ | .ownedChildPublished _ _ _ | .ownedChildrenCompleted _ _ => true
  | .experimentPrepared _ | .experimentPlanDecided _ _ => true
  | .experimentChildrenRegistered _ _ _ => true
  | _ => false

namespace TaskExecutionProjection

/-! ## What each record does -/

section Records

variable {cas : Cas} {E E' : TaskExecutionProjection}

theorem applyInvocation_eq_ok {taskId invocationId : String} {planId : Option String}
    (h : applyInvocation cas taskId planId invocationId E = .ok E') :
    ∃ input, cas.invocation invocationId = .ok input ∧ planId = some input.planId ∧
      E.invocations.get input.node = none ∧
      E' = { E with invocations := E.invocations.insert input.node (invocationId, input) } := by
  obtain ⟨input, hinput, h⟩ := bind_eq_ok.mp h
  obtain ⟨_, hplan, h⟩ := bind_eq_ok.mp h
  obtain ⟨_, hfresh, h⟩ := bind_eq_ok.mp h
  obtain ⟨_, -, h⟩ := bind_eq_ok.mp h
  obtain ⟨_, -, h⟩ := bind_eq_ok.mp h
  cases h
  refine ⟨input, hinput, of_decide_eq_true (requireConflict_eq_ok.mp hplan), ?_, rfl⟩
  have hfresh := requireConflict_eq_ok.mp hfresh
  rw [Bool.not_eq_true'] at hfresh
  by_contra hne
  obtain ⟨v, hv⟩ := Option.ne_none_iff_exists'.mp hne
  rw [OrdMap.contains_iff.mpr ⟨v, hv⟩] at hfresh
  cases hfresh

/-- The Attempt a reservation records. -/
def reservedAttempt (r : ReservedRecord) (input : TaskInvocation) (reservation : TaskReservation)
    (epoch : ℕ) : RecordedAttempt where
  invocationId := r.invocationId
  planId := input.planId
  reservation := reservation
  preparedEpoch := epoch
  feedbackIds := r.feedbackIds

theorem applyReserved_eq_ok {epoch time : ℕ} {r : ReservedRecord}
    (h : applyReserved cas epoch time r E = .ok E') :
    ∃ input reservation budget ledger, cas.invocation r.invocationId = .ok input ∧
      (E.invocations.get input.node).map Prod.fst = some r.invocationId ∧
      E.reusableOutput input.node = none ∧
      (∀ id a, E.attempts.get id = some a → a.invocationId = r.invocationId → a.pending = false) ∧
      budgetReply (E.budget.prepare input.node time) = .ok (reservation, budget) ∧
      E.ledger.dispatch cas.sha256 input.node = some (r.attemptId, ledger) ∧
      E' = { E with
        budget := budget
        ledger := ledger
        attempts := E.attempts.insert r.attemptId (reservedAttempt r input reservation epoch) } := by
  obtain ⟨input, hinput, h⟩ := bind_eq_ok.mp h
  obtain ⟨_, -, h⟩ := bind_eq_ok.mp h
  obtain ⟨_, hcur, h⟩ := bind_eq_ok.mp h
  obtain ⟨_, hlive, h⟩ := bind_eq_ok.mp h
  obtain ⟨_, -, h⟩ := bind_eq_ok.mp h
  obtain ⟨⟨reservation, budget⟩, hb, h⟩ := bind_eq_ok.mp h
  obtain ⟨_, -, h⟩ := bind_eq_ok.mp h
  obtain ⟨⟨attemptId, ledger⟩, hl, h⟩ := bind_eq_ok.mp h
  obtain ⟨_, hid, h⟩ := bind_eq_ok.mp h
  cases h
  have hid := of_decide_eq_true (requireConflict_eq_ok.mp hid)
  subst hid
  have hcur := requireConflict_eq_ok.mp hcur
  simp only [Bool.and_eq_true, decide_eq_true_eq, Option.isNone_iff_eq_none] at hcur
  refine ⟨input, reservation, budget, ledger, hinput, hcur.1.1, hcur.2, fun id a ha hinv => ?_, hb,
    orPanic_eq_ok.mp hl, rfl⟩
  have hlive := requireConflict_eq_ok.mp hlive
  rw [Bool.not_eq_true', List.any_eq_false] at hlive
  simpa [hinv] using hlive a (OrdMap.mem_values_iff.mpr ⟨id, ha⟩)

theorem applyContextBound_eq_ok {epoch : ℕ} {planId : Option String} {id contextId : String}
    (h : applyContextBound epoch planId id contextId E = .ok E') :
    ∃ a, E.attempts.get id = some a ∧ a.pending = true ∧
      E' = E.setAttempt id { a with contextId := some contextId } := by
  obtain ⟨a, ha, h⟩ := bind_eq_ok.mp h
  obtain ⟨_, -, h⟩ := bind_eq_ok.mp h
  obtain ⟨_, hguard, h⟩ := bind_eq_ok.mp h
  cases h
  have hguard := requireConflict_eq_ok.mp hguard
  simp only [Bool.not_eq_true', Bool.or_eq_false_iff] at hguard
  obtain ⟨⟨⟨⟨⟨-, hreleased⟩, hsettled⟩, -⟩, -⟩, -⟩ := hguard
  exact ⟨a, orConflict_eq_ok.mp ha, RecordedAttempt.pending_iff.mpr ⟨hreleased, hsettled⟩, rfl⟩

theorem applyStarted_eq_ok {epoch time : ℕ} {id : AttemptId}
    (h : applyStarted epoch time id E = .ok E') :
    ∃ a budget, E.attempts.get id = some a ∧ a.pending = true ∧ a.started = false ∧
      a.preparedEpoch = epoch ∧ budgetReply (E.budget.begin a.reservation.id time) = .ok ((), budget) ∧
      E' = { E with
        budget := budget
        attempts := E.attempts.insert id { a with started := true, startedUnixMs := some time } } := by
  obtain ⟨a, ha, h⟩ := bind_eq_ok.mp h
  obtain ⟨_, -, h⟩ := bind_eq_ok.mp h
  obtain ⟨_, hguard, h⟩ := bind_eq_ok.mp h
  obtain ⟨⟨⟨⟩, budget⟩, hb, h⟩ := bind_eq_ok.mp h
  cases h
  have hguard := requireConflict_eq_ok.mp hguard
  simp only [Bool.not_eq_true', Bool.or_eq_false_iff, decide_eq_false_iff_not, not_not] at hguard
  obtain ⟨⟨⟨⟨-, hstarted⟩, hreleased⟩, hsettled⟩, hepoch⟩ := hguard
  exact ⟨a, budget, orConflict_eq_ok.mp ha,
    RecordedAttempt.pending_iff.mpr ⟨hreleased, hsettled⟩, hstarted, hepoch, hb, rfl⟩

theorem applyReleased_eq_ok {id : AttemptId} (h : applyReleased cas id E = .ok E') :
    ∃ a budget, E.attempts.get id = some a ∧
      budgetReply (E.budget.release a.reservation.id) = .ok ((), budget) ∧
      E' = { E with
        budget := budget
        ledger := E.ledger.fence cas.sha256 a.reservation.node
        attempts := E.attempts.insert id { a with released := true } } := by
  obtain ⟨a, ha, h⟩ := bind_eq_ok.mp h
  obtain ⟨⟨⟨⟩, budget⟩, hb, h⟩ := bind_eq_ok.mp h
  cases h
  exact ⟨a, budget, orConflict_eq_ok.mp ha, hb, rfl⟩

/-- A settlement fences its node, or it is a success under the epoch that prepared its
Attempt and selects it. -/
theorem concludeLedger_eq_ok {sha256 : List UInt8 → List UInt8} {epoch charge : ℕ}
    {a : RecordedAttempt} {s : TaskSettlement} {L L' : AttemptLedger}
    (h : concludeLedger sha256 epoch a s charge L = .ok L') :
    (¬ (s.result.isSucceeded ∧ a.preparedEpoch = epoch) ∧
        L' = L.fence sha256 a.reservation.node) ∨
      (s.result.isSucceeded ∧ a.preparedEpoch = epoch ∧
        L.admitExact ⟨s.attemptId, charge⟩ = .ok (.selected, L')) := by
  unfold concludeLedger at h
  split at h
  case isTrue hc =>
    cases h
    refine .inl ⟨?_, rfl⟩
    rintro ⟨hs, he⟩
    simp [hs, he] at hc
  case isFalse hc =>
    obtain ⟨⟨selection, L₁⟩, hadm, h⟩ := bind_eq_ok.mp h
    obtain ⟨_, hsel, h⟩ := bind_eq_ok.mp h
    cases h
    have hsel := of_decide_eq_true (requireConflict_eq_ok.mp hsel)
    simp only [Bool.or_eq_true, Bool.not_eq_true', decide_eq_true_eq, not_or, Bool.not_eq_false,
      not_not] at hc
    subst hsel
    exact .inr ⟨hc.1, hc.2, textConflict_eq_ok.mp hadm⟩

theorem recoverAbandoned_eq_ok {budget budget' : TaskBudget} {id : String} {abandoned : Bool}
    (h : recoverAbandoned budget id abandoned = .ok budget') :
    (abandoned = false ∧ budget' = budget) ∨
      (abandoned = true ∧ budgetReply (budget.recover id) = .ok ((), budget')) := by
  unfold recoverAbandoned at h
  split at h
  case isTrue hc =>
    obtain ⟨⟨⟨⟩, B⟩, hb, h⟩ := bind_eq_ok.mp h
    cases h
    exact .inr ⟨hc, hb⟩
  case isFalse hc =>
    cases h
    exact .inl ⟨by simpa using hc, rfl⟩

theorem applySettled_eq_ok {taskId : String} {epoch time previousWriterTime : ℕ}
    {s : TaskSettlement} (h : applySettled cas taskId epoch time previousWriterTime s E = .ok E') :
    ∃ a B budget L ledger, E.attempts.get s.attemptId = some a ∧ a.pending = true ∧
      a.started = true ∧
      budgetReply (E.budget.settleExact a.reservation.id
        (E.cumulativeCharge s.attemptId s.chargedTokens)) = .ok ((), B) ∧
      recoverAbandoned B a.reservation.id s.result.isAbandoned = .ok budget ∧
      E.ledger.chargeExact s.attemptId (E.cumulativeCharge s.attemptId s.chargedTokens) = .ok L ∧
      concludeLedger cas.sha256 epoch a s (E.cumulativeCharge s.attemptId s.chargedTokens) L =
        .ok ledger ∧
      E' = { E with
        budget := budget
        ledger := ledger
        attempts := E.attempts.insert s.attemptId
          (settledAttempt epoch time previousWriterTime a s) } := by
  obtain ⟨a, ha, h⟩ := bind_eq_ok.mp h
  obtain ⟨_, hcheck, h⟩ := bind_eq_ok.mp h
  obtain ⟨⟨⟨⟩, B⟩, hB, h⟩ := bind_eq_ok.mp h
  obtain ⟨L, hL, h⟩ := bind_eq_ok.mp h
  obtain ⟨budget, hb, h⟩ := bind_eq_ok.mp h
  obtain ⟨ledger, hl, h⟩ := bind_eq_ok.mp h
  cases h
  obtain ⟨_, hguard, -⟩ := bind_eq_ok.mp hcheck
  have hguard := requireConflict_eq_ok.mp hguard
  simp only [Bool.not_eq_true', Bool.or_eq_false_iff, Bool.not_eq_false'] at hguard
  obtain ⟨⟨hstarted, hreleased⟩, hsettled⟩ := hguard
  exact ⟨a, B, budget, L, ledger, orConflict_eq_ok.mp ha,
    RecordedAttempt.pending_iff.mpr ⟨hreleased, hsettled⟩, hstarted, hB, hb,
    textConflict_eq_ok.mp hL, hl, rfl⟩

theorem applyPublished_eq_ok {outputId : String} {attemptId : Option AttemptId}
    (h : applyPublished cas outputId attemptId E = .ok E') :
    ∃ out input, verifyOutput cas E out = .ok input ∧
      checkPublisher input.node outputId attemptId E = .ok () ∧
      E' = { E with outputs := E.outputs.insert input.node (outputId, out) } := by
  obtain ⟨out, -, h⟩ := bind_eq_ok.mp h
  obtain ⟨input, hinput, h⟩ := bind_eq_ok.mp h
  obtain ⟨_, -, h⟩ := bind_eq_ok.mp h
  obtain ⟨_, -, h⟩ := bind_eq_ok.mp h
  obtain ⟨_, -, h⟩ := bind_eq_ok.mp h
  obtain ⟨⟨⟩, hpub, h⟩ := bind_eq_ok.mp h
  cases h
  exact ⟨out, input, hinput, hpub, rfl⟩

/-! ## Records that touch no Attempt -/

/-- The record leaves the Attempts, their ledger, the invocations and every charge. -/
structure Quiet (E E' : TaskExecutionProjection) : Prop where
  attempts : E'.attempts = E.attempts
  ledger : E'.ledger = E.ledger
  invocations : E'.invocations = E.invocations
  retired : E'.retired = E.retired
  budget : E.budget.Tracked → E.budget.Keeps E'.budget

theorem registerOwned_quiet {childSetId : String}
    (h : registerOwned cas E childSetId = .ok E') : Quiet E E' := by
  obtain ⟨registered, -, h⟩ := bind_eq_ok.mp h
  obtain ⟨_, -, h⟩ := bind_eq_ok.mp h
  obtain ⟨⟨⟨⟩, budget⟩, hb, h⟩ := bind_eq_ok.mp h
  cases h
  exact ⟨rfl, rfl, rfl, rfl, fun ht => ht.registerOwnedChildren_keeps (budgetReply_eq_ok.mp hb)⟩

theorem registerExperiment_quiet {outerPlanId preparedId decisionId childPlanId : String} {now : ℕ}
    (h : registerExperiment cas E outerPlanId preparedId decisionId childPlanId now = .ok E') :
    Quiet E E' := by
  obtain ⟨recorded, -, h⟩ := bind_eq_ok.mp h
  obtain ⟨_, -, h⟩ := bind_eq_ok.mp h
  obtain ⟨⟨_, decision⟩, -, h⟩ := bind_eq_ok.mp h
  obtain ⟨_, -, h⟩ := bind_eq_ok.mp h
  obtain ⟨_, -, h⟩ := bind_eq_ok.mp h
  obtain ⟨_, -, h⟩ := bind_eq_ok.mp h
  obtain ⟨⟨⟨⟩, budget⟩, hb, h⟩ := bind_eq_ok.mp h
  cases h
  exact ⟨rfl, rfl, rfl, rfl,
    fun ht => ht.registerExperimentalChildren_keeps (budgetReply_eq_ok.mp hb)⟩

theorem quiet_refl_budget (ht : E.budget.Tracked) : E.budget.Keeps E.budget :=
  ht.keeps ht.inv rfl rfl rfl

/-- What an owned publication required. -/
theorem publishOwned_eq_ok {taskId childSetId outputId : String} {attemptId : AttemptId}
    (h : publishOwned cas E taskId childSetId outputId attemptId = .ok E') :
    ∃ node, E.reusableOutput node = some (outputId, attemptId) ∧ Quiet E E' := by
  obtain ⟨out, -, h⟩ := bind_eq_ok.mp h
  obtain ⟨input, -, h⟩ := bind_eq_ok.mp h
  obtain ⟨_, -, h⟩ := bind_eq_ok.mp h
  obtain ⟨_, -, h⟩ := bind_eq_ok.mp h
  obtain ⟨resolved, -, h⟩ := bind_eq_ok.mp h
  obtain ⟨_, hguard, h⟩ := bind_eq_ok.mp h
  obtain ⟨set, -, h⟩ := bind_eq_ok.mp h
  cases h
  have hguard := requireConflict_eq_ok.mp hguard
  simp only [Bool.and_eq_true, decide_eq_true_eq] at hguard
  exact ⟨input.node, hguard.2, rfl, rfl, rfl, rfl, quiet_refl_budget⟩

theorem completeOwned_quiet {childSetId outputId : String}
    (h : completeOwned cas E childSetId outputId = .ok E') : Quiet E E' := by
  obtain ⟨set, -, h⟩ := bind_eq_ok.mp h
  obtain ⟨_, -, h⟩ := bind_eq_ok.mp h
  obtain ⟨out, -, h⟩ := bind_eq_ok.mp h
  obtain ⟨_, -, h⟩ := bind_eq_ok.mp h
  obtain ⟨input, -, h⟩ := bind_eq_ok.mp h
  cases h
  exact ⟨rfl, rfl, rfl, rfl, quiet_refl_budget⟩

theorem prepareExperiment_quiet {revisionId outerPlanId preparedId : String}
    (h : prepareExperiment cas E revisionId outerPlanId preparedId = .ok E') : Quiet E E' := by
  obtain ⟨_, -, h⟩ := bind_eq_ok.mp h
  obtain ⟨prepared, -, h⟩ := bind_eq_ok.mp h
  obtain ⟨plan, -, h⟩ := bind_eq_ok.mp h
  obtain ⟨_, -, h⟩ := bind_eq_ok.mp h
  obtain ⟨slot, -, h⟩ := bind_eq_ok.mp h
  obtain ⟨_, -, h⟩ := bind_eq_ok.mp h
  cases h
  exact ⟨rfl, rfl, rfl, rfl, quiet_refl_budget⟩

theorem decideExperiment_quiet {preparedId decisionId : String} {now : ℕ}
    (h : decideExperiment cas E preparedId decisionId now = .ok E') : Quiet E E' := by
  obtain ⟨recorded, -, h⟩ := bind_eq_ok.mp h
  obtain ⟨_, -, h⟩ := bind_eq_ok.mp h
  obtain ⟨decision, -, h⟩ := bind_eq_ok.mp h
  obtain ⟨_, -, h⟩ := bind_eq_ok.mp h
  cases h
  exact ⟨rfl, rfl, rfl, rfl, quiet_refl_budget⟩

theorem applyRecord_quiet {c : RecordContext} {r : ExecutionRecord} (hr : r.quiet = true)
    (h : E.applyRecord cas c r = .ok E') : Quiet E E' := by
  cases r <;> try exact absurd hr Bool.false_ne_true
  case published outputId attemptId =>
    obtain ⟨out, input, -, -, rfl⟩ := applyPublished_eq_ok h
    exact ⟨rfl, rfl, rfl, rfl, quiet_refl_budget⟩
  case ownedChildrenRegistered childSetId => exact registerOwned_quiet h
  case ownedChildPublished childSetId outputId attemptId =>
    obtain ⟨-, -, hquiet⟩ := publishOwned_eq_ok h
    exact hquiet
  case ownedChildrenCompleted childSetId outputId => exact completeOwned_quiet h
  case experimentPrepared preparedId =>
    obtain ⟨_, -, h⟩ := bind_eq_ok.mp h
    exact prepareExperiment_quiet h
  case experimentPlanDecided preparedId decisionId =>
    obtain ⟨_, -, h⟩ := bind_eq_ok.mp h
    exact decideExperiment_quiet h
  case experimentChildrenRegistered preparedId decisionId childPlanId =>
    obtain ⟨_, -, h⟩ := bind_eq_ok.mp h
    exact registerExperiment_quiet h

/-! ## The ledger of an execution -/

/-- Every record drives the Attempt ledger through calls of its own. -/
theorem applyRecord_ledger {c : RecordContext} {r : ExecutionRecord}
    (h : E.applyRecord cas c r = .ok E') :
    ∃ ops, run (AttemptLedger.step cas.sha256) E.ledger ops = some E'.ledger := by
  by_cases hr : r.quiet = true
  · exact ⟨[], by rw [(applyRecord_quiet hr h).ledger, run_nil]⟩
  cases r <;> try exact absurd rfl hr
  case invocation invocationId =>
    obtain ⟨input, -, -, -, rfl⟩ := applyInvocation_eq_ok h
    exact ⟨[], rfl⟩
  case reserved r =>
    obtain ⟨input, reservation, budget, ledger, -, -, -, -, -, hdisp, rfl⟩ := applyReserved_eq_ok h
    refine ⟨[.dispatch input.node], run_cons_eq_some.mpr ⟨ledger, ?_, rfl⟩⟩
    rw [AttemptLedger.step, hdisp]
    rfl
  case contextBound attemptId contextId =>
    obtain ⟨a, -, -, rfl⟩ := applyContextBound_eq_ok h
    exact ⟨[], rfl⟩
  case started attemptId =>
    obtain ⟨a, budget, -, -, -, -, -, rfl⟩ := applyStarted_eq_ok h
    exact ⟨[], rfl⟩
  case released attemptId reason =>
    obtain ⟨a, budget, -, -, rfl⟩ := applyReleased_eq_ok h
    exact ⟨[.fence a.reservation.node], rfl⟩
  case usageObserved attemptId tokens usageId raw =>
    obtain ⟨a, budget, ledger, -, -, -, -, hl, rfl⟩ := applyUsageObserved_eq_ok h
    refine ⟨[.chargeExact attemptId (E.cumulativeCharge attemptId tokens)], run_cons_eq_some.mpr ⟨ledger, ?_, rfl⟩⟩
    rw [AttemptLedger.step, hl]
  case settled s =>
    obtain ⟨a, B, budget, L, ledger, -, -, -, -, -, hL, hconclude, rfl⟩ := applySettled_eq_ok h
    -- the charge, then the fence or the selection
    have hcharge : E.ledger.step cas.sha256
        (.chargeExact s.attemptId (E.cumulativeCharge s.attemptId s.chargedTokens)) = some L := by
      rw [AttemptLedger.step, hL]
    rcases concludeLedger_eq_ok hconclude with ⟨-, rfl⟩ | ⟨-, -, hreceipt⟩
    · exact ⟨[_, .fence a.reservation.node], run_cons_eq_some.mpr ⟨L, hcharge, rfl⟩⟩
    · refine ⟨[_, .admitExact ⟨s.attemptId, E.cumulativeCharge s.attemptId s.chargedTokens⟩],
        run_cons_eq_some.mpr ⟨L, hcharge, run_cons_eq_some.mpr ⟨ledger, ?_, rfl⟩⟩⟩
      rw [AttemptLedger.step, hreceipt]

/-- A property of the ledger alone survives everything between records. -/
theorem handoffs_of_ledger (Q : AttemptLedger → Prop) : Handoffs fun E => Q E.ledger where
  integrates _ _ hE := hE
  invalidates hE _ h := by
    obtain ⟨_, -, rfl⟩ := invalidatePlan_eq_ok h
    exact hE
  installs hE _ h := by
    obtain ⟨_, _, _, -, -, rfl⟩ := installGraph_eq_ok h
    exact hE
  clears hE _ := hE
  reopens _ hE _ := hE
  allows hE _ := hE

/-- The ledger was driven here from `L` by its own calls. -/
def LedgerRuns (cas : Cas) (L : AttemptLedger) (E : TaskExecutionProjection) : Prop :=
  ∃ ops, run (AttemptLedger.step cas.sha256) L ops = some E.ledger

theorem LedgerRuns.applyRecord {L : AttemptLedger} (hE : LedgerRuns cas L E) {c : RecordContext}
    {r : ExecutionRecord} (h : E.applyRecord cas c r = .ok E') : LedgerRuns cas L E' := by
  obtain ⟨before, hbefore⟩ := hE
  obtain ⟨after, hafter⟩ := applyRecord_ledger h
  exact ⟨before ++ after, run_append_eq_some.mpr ⟨_, hbefore, hafter⟩⟩

/-- **Refinement.** Whatever the records are, the ledger of an execution moves by the
calls of the ledger's own machine. -/
theorem ledger_kept (cas : Cas)
    (Meets : TaskExecutionProjection → RecordContext → ExecutionRecord → Prop)
    (L : AttemptLedger) : Kept cas Meets (LedgerRuns cas L) where
  toHandoffs := handoffs_of_ledger fun L' => ∃ ops,
    run (AttemptLedger.step cas.sha256) L ops = some L'
  records hE _ h := hE.applyRecord h

/-- The ledger is a run of its machine, and `P` holds as long as the identities it has
reached are distinct. -/
structure Distinctly (cas : Cas) (P : TaskExecutionProjection → Prop)
    (E : TaskExecutionProjection) : Prop where
  reached : ∃ space, LedgerRuns cas (AttemptLedger.scoped space .empty) E
  holds : E.ledger.IdsDistinct cas.sha256 → P E

theorem Distinctly.wf {P : TaskExecutionProjection → Prop} (h : Distinctly cas P E)
    (hd : E.ledger.IdsDistinct cas.sha256) : E.ledger.Wf cas.sha256 := by
  obtain ⟨space, ops, hrun⟩ := h.reached
  exact (AttemptLedger.wf_scoped space .empty).run hrun hd

/-- **Invariants under distinct identities.** The step lemma may assume a well-formed
ledger before the record and distinct identities after it. -/
theorem kept_distinctly {P : TaskExecutionProjection → Prop}
    {Meets : TaskExecutionProjection → RecordContext → ExecutionRecord → Prop} (hP : Handoffs P)
    (hrecords : ∀ {E E' c r}, E.ledger.Wf cas.sha256 → E'.ledger.IdsDistinct cas.sha256 → P E →
      Meets E c r → E.applyRecord cas c r = .ok E' → P E') :
    Kept cas Meets (Distinctly cas P) where
  integrates m a hE := ⟨hE.reached, fun hd => hP.integrates m a (hE.holds hd)⟩
  invalidates hE hq h := by
    have heq := h
    obtain ⟨_, -, rfl⟩ := invalidatePlan_eq_ok heq
    exact ⟨hE.reached, fun hd => hP.invalidates (hE.holds hd) hq h⟩
  installs hE hq h := by
    have heq := h
    obtain ⟨_, _, _, -, -, rfl⟩ := installGraph_eq_ok heq
    exact ⟨hE.reached, fun hd => hP.installs (hE.holds hd) hq h⟩
  clears hE hq := ⟨hE.reached, fun hd => hP.clears (hE.holds hd) hq⟩
  reopens node hE hq := ⟨hE.reached, fun hd => hP.reopens node (hE.holds hd) hq⟩
  allows hE h := ⟨hE.reached, fun hd => hP.allows (hE.holds hd) h⟩
  records hE hmeet h := by
    obtain ⟨space, hruns⟩ := hE.reached
    refine ⟨⟨space, hruns.applyRecord h⟩, fun hd => ?_⟩
    obtain ⟨ops, hops⟩ := applyRecord_ledger h
    have hd₀ := hd.of_run hops
    exact hrecords (hE.wf hd₀) hd (hE.holds hd₀) hmeet h

end Records

end TaskExecutionProjection

end Afactory
