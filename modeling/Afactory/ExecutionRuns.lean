import Mathlib
import Afactory.TaskLease

/-!
# Invariants of executions over whole logs

A Task's execution changes by execution records, by the Integration transitions, by the
handoffs that install another graph, and by a gate retry. `Kept` lists what an invariant
of executions must survive; `ofLog_holds` then carries it over every accepted log.

Handoffs and gate retries only meet a quiescent execution: they check it, or the Task is
finished and finishing checked it (`Holds.quiescent`).
-/

namespace Afactory

namespace TaskExecutionProjection

/-- No Attempt is pending. -/
def Quiescent (E : TaskExecutionProjection) : Prop :=
  ∀ id a, E.attempts.get id = some a → a.pending = false

theorem quiescent_iff {E : TaskExecutionProjection} :
    E.pendingAttempts.isEmpty = true ↔ E.Quiescent := by
  rw [pendingAttempts, List.isEmpty_iff, List.map_eq_nil_iff, List.filter_eq_nil_iff]
  constructor
  · intro h id a ha
    simpa using h (id, a) (OrdMap.mem_iff_get.mpr ha)
  · rintro h ⟨id, a⟩ hmem
    simpa using h id a (OrdMap.mem_iff_get.mp hmem)

/-- What an invariant must survive between records: the Integration transitions, and over
a quiescent execution the handoffs and the gate retry. -/
structure Handoffs (P : TaskExecutionProjection → Prop) : Prop where
  integrates : ∀ {E} m a, P E → P { E with reviewIntegrations := m, activeReviewIntegration := a }
  invalidates : ∀ {E E' time}, P E → E.Quiescent → E.invalidatePlan time = .ok E' → P E'
  installs : ∀ {E E' graph time preparation}, P E → E.Quiescent →
    E.installGraph graph time preparation = .ok E' → P E'
  clears : ∀ {E}, P E → E.Quiescent →
    P { E with invocations := .empty, outputs := .empty, experiments := .empty }
  reopens : ∀ {E} node, P E → E.Quiescent → P (E.reopenGate node)
  allows : ∀ {E node budget}, P E → budgetReply (E.budget.allowRetry node) = .ok ((), budget) →
    P { E with budget := budget }

/-- What an invariant of executions must survive. A record is only applied where it
`Meets` the condition of the run. -/
structure Kept (cas : Cas)
    (Meets : TaskExecutionProjection → RecordContext → ExecutionRecord → Prop)
    (P : TaskExecutionProjection → Prop) : Prop extends Handoffs P where
  records : ∀ {E E' c r}, P E → Meets E c r → E.applyRecord cas c r = .ok E' → P E'

/-- Closing the old plan's budget leaves the Attempts and their ledger. -/
theorem invalidatePlan_eq_ok {E E' : TaskExecutionProjection} {time : ℕ}
    (h : E.invalidatePlan time = .ok E') :
    ∃ budget, budgetReply (E.budget.invalidatePlan time) = .ok ((), budget) ∧
      E' = { E with
        budget := budget, activeReviewIntegration := none, invocations := .empty,
        outputs := .empty } := by
  obtain ⟨⟨⟨⟩, budget⟩, hb, h⟩ := bind_eq_ok.mp h
  cases h
  exact ⟨budget, hb, rfl⟩

/-- Installing another graph leaves the Attempts and their ledger. -/
theorem installGraph_eq_ok {E E' : TaskExecutionProjection} {graph : CompiledTask} {time : ℕ}
    {preparation : Bool} (h : E.installGraph graph time preparation = .ok E') :
    ∃ installation B budget,
      budgetReply (E.budget.installGraph installation time preparation) = .ok ((), B) ∧
      budgetReply (B.installRecoveryAllowances graph.recoveryAllowances.entries) =
        .ok ((), budget) ∧
      E' = { E with graph := graph, budget := budget } := by
  obtain ⟨_, -, h⟩ := bind_eq_ok.mp h
  obtain ⟨installation, -, h⟩ := bind_eq_ok.mp h
  obtain ⟨⟨⟨⟩, B⟩, hB, h⟩ := bind_eq_ok.mp h
  obtain ⟨⟨⟨⟩, budget⟩, hb, h⟩ := bind_eq_ok.mp h
  cases h
  exact ⟨installation, B, budget, hB, hb, rfl⟩

theorem Handoffs.and {P Q : TaskExecutionProjection → Prop} (hP : Handoffs P) (hQ : Handoffs Q) :
    Handoffs fun E => P E ∧ Q E where
  integrates m a h := ⟨hP.integrates m a h.1, hQ.integrates m a h.2⟩
  invalidates h hq happly := ⟨hP.invalidates h.1 hq happly, hQ.invalidates h.2 hq happly⟩
  installs h hq happly := ⟨hP.installs h.1 hq happly, hQ.installs h.2 hq happly⟩
  clears h hq := ⟨hP.clears h.1 hq, hQ.clears h.2 hq⟩
  reopens node h hq := ⟨hP.reopens node h.1 hq, hQ.reopens node h.2 hq⟩
  allows h hb := ⟨hP.allows h.1 hb, hQ.allows h.2 hb⟩

/-- What reads only the Attempts and their ledger survives everything between records. -/
theorem handoffs_of_attempts {P : TaskExecutionProjection → Prop}
    (hP : ∀ {E E'}, P E → E'.attempts = E.attempts → E'.ledger = E.ledger → P E') :
    Handoffs P where
  integrates _ _ h := hP h rfl rfl
  invalidates h _ happly := by
    obtain ⟨_, -, rfl⟩ := invalidatePlan_eq_ok happly
    exact hP h rfl rfl
  installs h _ happly := by
    obtain ⟨_, _, _, -, -, rfl⟩ := installGraph_eq_ok happly
    exact hP h rfl rfl
  clears h _ := hP h rfl rfl
  reopens _ h _ := hP h rfl rfl
  allows h _ := hP h rfl rfl

theorem Quiescent.invalidatePlan {E E' : TaskExecutionProjection} {time : ℕ} (hE : E.Quiescent)
    (h : E.invalidatePlan time = .ok E') : E'.Quiescent := by
  obtain ⟨_, -, rfl⟩ := invalidatePlan_eq_ok h
  exact hE

theorem Quiescent.installGraph {E E' : TaskExecutionProjection} {graph : CompiledTask} {time : ℕ}
    {preparation : Bool} (hE : E.Quiescent) (h : E.installGraph graph time preparation = .ok E') :
    E'.Quiescent := by
  obtain ⟨_, _, _, -, -, rfl⟩ := installGraph_eq_ok h
  exact hE

/-- What an accepted usage observation did. -/
theorem applyUsageObserved_eq_ok {cas : Cas} {taskId : String} {id : AttemptId} {tokens : ℕ}
    {raw : List String} {E E' : TaskExecutionProjection}
    (h : applyUsageObserved cas taskId id tokens raw E = .ok E') :
    ∃ a budget ledger, E.attempts.get id = some a ∧ a.started = true ∧ a.released = false ∧
      budgetReply (E.budget.observeChargeExact a.reservation.id tokens) = .ok ((), budget) ∧
      E.ledger.chargeExact id (E.cumulativeCharge id tokens) = .ok ledger ∧
      E' = { E with
        budget := budget
        ledger := ledger
        attempts := E.attempts.insert id { a with usageObserved := true } } := by
  obtain ⟨a, ha, h⟩ := bind_eq_ok.mp h
  obtain ⟨_, hstarted, h⟩ := bind_eq_ok.mp h
  obtain ⟨_, -, h⟩ := bind_eq_ok.mp h
  obtain ⟨⟨⟨⟩, budget⟩, hb, h⟩ := bind_eq_ok.mp h
  obtain ⟨ledger, hl, h⟩ := bind_eq_ok.mp h
  cases h
  have hstarted := requireConflict_eq_ok.mp hstarted
  simp only [Bool.and_eq_true, Bool.not_eq_true'] at hstarted
  exact ⟨a, budget, ledger, orConflict_eq_ok.mp ha, hstarted.1, hstarted.2, hb,
    textConflict_eq_ok.mp hl, rfl⟩

theorem Quiescent.applyUsageObserved {cas : Cas} {taskId : String} {id : AttemptId} {tokens : ℕ}
    {raw : List String} {E E' : TaskExecutionProjection} (hE : E.Quiescent)
    (h : applyUsageObserved cas taskId id tokens raw E = .ok E') : E'.Quiescent := by
  obtain ⟨a, _, _, ha, -, -, -, -, rfl⟩ := applyUsageObserved_eq_ok h
  intro id' b hb
  rw [OrdMap.get_insert] at hb
  split_ifs at hb with hid
  · cases hb
    exact hE id a ha
  · exact hE id' b hb

end TaskExecutionProjection

namespace TaskState

open TaskExecutionProjection

variable {cas : Cas} {Meets : TaskExecutionProjection → RecordContext → ExecutionRecord → Prop}
variable {P : TaskExecutionProjection → Prop}

/-- The invariant holds of the Task's execution, or of any the Task may begin; a finished
Task is quiescent, and no pause interrupted a finished Task. -/
structure Holds (cas : Cas) (P : TaskExecutionProjection → Prop) (S : TaskState) : Prop where
  execution : ∀ {E}, S.execution = some E → P E
  begins : S.execution = none → ∀ {T : TaskState} {E}, T.newExecution cas = .ok E → P E
  quiescent : S.phase.isFinished → ∀ {E}, S.execution = some E → E.Quiescent
  resume : ∀ {p}, S.resumePhase = some p → ¬ p.isFinished

/-- The condition of a run: every execution record meets `Meets` where it is applied. -/
def RecordsMeet (cas : Cas)
    (Meets : TaskExecutionProjection → RecordContext → ExecutionRecord → Prop)
    (S : TaskState) (e : RunEvent) : Prop :=
  ∀ t recordId record E, e.payload = .transition t → t.change = .executionRecorded recordId →
    cas.executionRecord recordId = .ok record → S.currentExecution cas = .ok E →
    Meets E (S.recordContext (S.writerTime t)) record

/-- The execution record of an event, with the execution and the context it is applied in. -/
def appliedRecord (cas : Cas) (S : TaskState) (e : RunEvent) :
    Option (TaskExecutionProjection × RecordContext × ExecutionRecord) :=
  match e.payload with
  | .transition t =>
    match t.change with
    | .executionRecorded recordId => do
      let record ← (cas.executionRecord recordId).toOption
      let E ← (S.currentExecution cas).toOption
      return (E, S.recordContext (S.writerTime t), record)
    | _ => none
  | _ => none

theorem recordsMeet_iff {S : TaskState} {e : RunEvent} :
    RecordsMeet cas Meets S e ↔ ∀ x ∈ S.appliedRecord cas e, Meets x.1 x.2.1 x.2.2 := by
  constructor
  · rintro h ⟨E, c, r⟩ hx
    unfold appliedRecord at hx
    split at hx
    case h_2 => cases hx
    case h_1 t hpay =>
      split at hx
      case h_2 => cases hx
      case h_1 recordId hchange =>
        obtain ⟨record, hrecord, hx⟩ := Option.bind_eq_some_iff.mp hx
        obtain ⟨E', hE, hx⟩ := Option.bind_eq_some_iff.mp hx
        cases hx
        exact h t recordId r E hpay hchange (toOption_eq_some.mp hrecord)
          (toOption_eq_some.mp hE)
  · intro h t recordId record E hpay hchange hrecord hE
    refine h (E, S.recordContext (S.writerTime t), record) ?_
    simp [appliedRecord, hpay, hchange, hrecord, hE, Except.toOption]

instance [∀ E c r, Decidable (Meets E c r)] (S : TaskState) (e : RunEvent) :
    Decidable (RecordsMeet cas Meets S e) :=
  decidable_of_iff _ recordsMeet_iff.symm

theorem quiescent_eq_true {S : TaskState} (h : S.quiescent = true) {E : TaskExecutionProjection}
    (hE : S.execution = some E) : E.Quiescent := by
  rw [TaskState.quiescent, hE] at h
  exact quiescent_iff.mp h

/-- A new execution has the budget of its plan's graph, and no Attempt. -/
theorem newExecution_eq_ok {S : TaskState} {E : TaskExecutionProjection}
    (h : S.newExecution cas = .ok E) :
    ∃ graph budget space preparation, plannedBudget graph S.limits preparation = .ok budget ∧
      E = { graph := graph, budget := budget, ledger := AttemptLedger.scoped space .empty } := by
  obtain ⟨_, -, h⟩ := bind_eq_ok.mp h
  obtain ⟨plan, -, h⟩ := bind_eq_ok.mp h
  obtain ⟨graph, -, h⟩ := bind_eq_ok.mp h
  obtain ⟨_, -, h⟩ := bind_eq_ok.mp h
  obtain ⟨_, -, h⟩ := bind_eq_ok.mp h
  obtain ⟨_, -, h⟩ := bind_eq_ok.mp h
  obtain ⟨budget, hbudget, h⟩ := bind_eq_ok.mp h
  obtain ⟨runId, -, h⟩ := bind_eq_ok.mp h
  cases h
  exact ⟨graph, budget, _, plan.preparation, mapConflict_eq_ok.mp hbudget, rfl⟩

theorem currentExecution_cases {S : TaskState} {E : TaskExecutionProjection}
    (h : S.currentExecution cas = .ok E) :
    S.execution = some E ∨ S.execution = none ∧ S.newExecution cas = .ok E := by
  unfold currentExecution at h
  split at h
  case h_1 E' hE' =>
    cases h
    exact .inl hE'
  case h_2 hnone => exact .inr ⟨hnone, h⟩

theorem Holds.current {S : TaskState} (hS : S.Holds cas P) {E : TaskExecutionProjection}
    (h : S.currentExecution cas = .ok E) : P E := by
  obtain hE | ⟨hnone, hnew⟩ := currentExecution_cases h
  · exact hS.execution hE
  · exact hS.begins hnone hnew

/-- The same execution in a Task that is finished only if it was. -/
theorem Holds.of_same {S S' : TaskState} (hS : S.Holds cas P) (hE : S'.execution = S.execution)
    (hphase : S'.phase.isFinished → S.phase.isFinished)
    (hresume : ∀ {p}, S'.resumePhase = some p → ¬ p.isFinished) : S'.Holds cas P :=
  ⟨fun h => hS.execution (hE ▸ h), fun h => hS.begins (hE ▸ h),
    fun hf _ h => hS.quiescent (hphase hf) (hE ▸ h), hresume⟩

/-- Another execution in a Task that is not finished. -/
theorem Holds.of_running {S S' : TaskState} (hS : S.Holds cas P)
    (hE : ∀ {E}, S'.execution = some E → P E)
    (hnone : S'.execution = none → S.execution = none) (hphase : ¬ S'.phase.isFinished)
    (hresume : S'.resumePhase = none ∨ S'.resumePhase = S.resumePhase) : S'.Holds cas P := by
  refine ⟨hE, fun h => hS.begins (hnone h), fun hf => absurd hf hphase, fun {p} hp => ?_⟩
  rcases hresume with h | h
  · rw [h] at hp
    cases hp
  · exact hS.resume (h ▸ hp)

theorem proposedPhase_isFinished (plan : ExecutionPlan) :
    (proposedPhase plan).isFinished = false := by
  unfold proposedPhase
  split <;> rfl

/-! ## The changes that touch the execution -/

/-- The phase after a record is finished only where the Task was. -/
theorem recordedPhase_isFinished {S : TaskState} {E : TaskExecutionProjection}
    {record : ExecutionRecord} (h : (S.recordedPhase E record).isFinished) :
    S.phase.isFinished := by
  unfold recordedPhase at h
  split at h
  · cases h
  · cases h
  · split at h
    · cases h
    · exact h
  · exact h

/-- A finished Task records nothing but usage. -/
theorem applyExecution_holds (hP : Kept cas Meets P) {S : TaskState} (hS : S.Holds cas P)
    {recordId : String} {time : ℕ}
    (hfin : S.phase.isFinished → ∀ record, cas.executionRecord recordId = .ok record →
      record.isUsageObserved)
    (hmeet : ∀ record E, cas.executionRecord recordId = .ok record →
      S.currentExecution cas = .ok E → Meets E (S.recordContext time) record) :
    Yields (Holds cas P) (S.applyExecution cas recordId time) := by
  intro S' h
  obtain ⟨record, hrecord, h⟩ := bind_eq_ok.mp h
  obtain ⟨_, -, h⟩ := bind_eq_ok.mp h
  obtain ⟨E, hE, h⟩ := bind_eq_ok.mp h
  obtain ⟨_, -, h⟩ := bind_eq_ok.mp h
  obtain ⟨E', hE', h⟩ := bind_eq_ok.mp h
  cases h
  refine ⟨?_, nofun, ?_, hS.resume⟩
  · rintro _ ⟨⟩
    exact hP.records (hS.current hE) (hmeet record E hrecord hE) hE'
  · rintro hf _ ⟨⟩
    have hfinished := recordedPhase_isFinished hf
    have hq : E.Quiescent := by
      obtain hE | ⟨-, hnew⟩ := currentExecution_cases hE
      · exact hS.quiescent hfinished hE
      · intro id a ha
        obtain ⟨_, _, _, _, -, rfl⟩ := newExecution_eq_ok hnew
        cases ha
    have hobserved := hfin hfinished record hrecord
    cases record <;> try cases hobserved
    exact hq.applyUsageObserved hE'

theorem selectIntegration_holds (hP : Kept cas Meets P) {S : TaskState} (hS : S.Holds cas P)
    (hrun : ¬ S.phase.isFinished) (phaseId : String) (time : ℕ) :
    Yields (Holds cas P) (S.selectIntegration cas phaseId time) := by
  intro S' h
  obtain ⟨⟨phase, compiled⟩, -, h⟩ := bind_eq_ok.mp h
  obtain ⟨_, -, h⟩ := bind_eq_ok.mp h
  obtain ⟨_, -, h⟩ := bind_eq_ok.mp h
  obtain ⟨E, hE, h⟩ := bind_eq_ok.mp h
  obtain ⟨_, -, h⟩ := bind_eq_ok.mp h
  cases h
  refine hS.of_running ?_ nofun hrun (.inr rfl)
  rintro _ ⟨⟩
  exact hP.integrates _ _ (hS.current hE)

theorem finishIntegration_holds (hP : Kept cas Meets P) {S : TaskState} (hS : S.Holds cas P)
    (hrun : ¬ S.phase.isFinished) (phaseId reportId : String) (committed : Option String)
    (time : ℕ) : Yields (Holds cas P) (S.finishIntegration cas phaseId reportId committed time) := by
  unfold finishIntegration
  refine Yields.bind fun _ _ => Yields.bind fun E hE => ?_
  have hlast : ∀ m, Holds cas P { S with execution := some { E with reviewIntegrations := m } } := by
    intro m
    refine hS.of_running ?_ nofun hrun (.inr rfl)
    rintro _ ⟨⟩
    exact hP.integrates m E.activeReviewIntegration (hS.current hE)
  repeat' first
    | refine Yields.bind fun _ _ => ?_
    | exact Yields.pure (hlast _)
    | split

theorem applyReviewHandoff_holds (hP : Kept cas Meets P) {S : TaskState} (hS : S.Holds cas P)
    (id : String) (time : ℕ) : Yields (Holds cas P) (S.applyReviewHandoff cas id time) := by
  intro S' h
  obtain ⟨handoff, -, h⟩ := bind_eq_ok.mp h
  obtain ⟨⟨previous, next, oldRound, newRound⟩, -, h⟩ := bind_eq_ok.mp h
  obtain ⟨_, -, h⟩ := bind_eq_ok.mp h
  obtain ⟨_, -, h⟩ := bind_eq_ok.mp h
  obtain ⟨_, -, h⟩ := bind_eq_ok.mp h
  obtain ⟨_, hquiet, h⟩ := bind_eq_ok.mp h
  obtain ⟨plan, -, h⟩ := bind_eq_ok.mp h
  obtain ⟨graph, -, h⟩ := bind_eq_ok.mp h
  obtain ⟨_, -, h⟩ := bind_eq_ok.mp h
  obtain ⟨_, -, h⟩ := bind_eq_ok.mp h
  obtain ⟨execution, hexec, h⟩ := bind_eq_ok.mp h
  cases h
  refine hS.of_running ?_ ?_ (by simp [proposedPhase_isFinished]) (.inl rfl)
  case refine_2 =>
    rintro rfl
    exact mapM_eq_none hexec
  rintro E' ⟨⟩
  obtain ⟨E, hE, hE'⟩ := mapM_eq_some hexec
  have hq := quiescent_eq_true (requireConflict_eq_ok.mp hquiet) hE
  obtain ⟨_, -, hE'⟩ := bind_eq_ok.mp hE'
  obtain ⟨E₁, hE₁, hE'⟩ := bind_eq_ok.mp hE'
  exact hP.installs (hP.invalidates (hS.execution hE) hq hE₁) (hq.invalidatePlan hE₁) hE'

theorem applySourceRefreshed_holds (hP : Kept cas Meets P) {S : TaskState} (hS : S.Holds cas P)
    (revisionId : String) (planId : Option String) (waiting : Option TaskWaitingReason)
    (time : ℕ) :
    Yields (Holds cas P) (S.applySourceRefreshed cas revisionId planId waiting time) := by
  intro S' h
  obtain ⟨next, -, h⟩ := bind_eq_ok.mp h
  obtain ⟨_, -, h⟩ := bind_eq_ok.mp h
  obtain ⟨target, -, h⟩ := bind_eq_ok.mp h
  obtain ⟨execution, hexec, h⟩ := bind_eq_ok.mp h
  -- the old plan is closed over a quiescent execution
  have hclosed : ∀ {E}, execution = some E → P E ∧ E.Quiescent := by
    rintro E₁ rfl
    obtain ⟨E, hE, hE₁⟩ := mapM_eq_some hexec
    obtain ⟨_, hquiet, hE₁⟩ := bind_eq_ok.mp hE₁
    have hq := quiescent_iff.mp (requireConflict_eq_ok.mp hquiet)
    exact ⟨hP.invalidates (hS.execution hE) hq hE₁, hq.invalidatePlan hE₁⟩
  have hopen : execution = none → S.execution = none := by
    rintro rfl
    exact mapM_eq_none hexec
  cases target with
  | inl id =>
    obtain ⟨plan, -, h⟩ := bind_eq_ok.mp h
    obtain ⟨graph, -, h⟩ := bind_eq_ok.mp h
    obtain ⟨_, -, h⟩ := bind_eq_ok.mp h
    obtain ⟨_, -, h⟩ := bind_eq_ok.mp h
    obtain ⟨installed, hinst, h⟩ := bind_eq_ok.mp h
    cases h
    refine hS.of_running ?_ ?_ (by simp [proposedPhase_isFinished]) (.inl rfl)
    case refine_2 =>
      rintro rfl
      exact hopen (mapM_eq_none hinst)
    rintro E' ⟨⟩
    obtain ⟨E₁, hE₁, hE'⟩ := mapM_eq_some hinst
    obtain ⟨hPE, hq⟩ := hclosed hE₁
    exact hP.installs hPE hq hE'
  | inr reason =>
    cases h
    exact hS.of_running (fun hE => (hclosed hE).1) hopen Bool.false_ne_true (.inl rfl)

theorem applyPlanningCompleted_holds (hP : Kept cas Meets P) {S : TaskState} (hS : S.Holds cas P)
    (bootstrapPlanId proposalId revisionId planId : String) (time : ℕ) :
    Yields (Holds cas P)
      (S.applyPlanningCompleted cas bootstrapPlanId proposalId revisionId planId time) := by
  intro S' h
  obtain ⟨_, -, h⟩ := bind_eq_ok.mp h
  obtain ⟨proof, -, h⟩ := bind_eq_ok.mp h
  obtain ⟨_, -, h⟩ := bind_eq_ok.mp h
  obtain ⟨next, -, h⟩ := bind_eq_ok.mp h
  obtain ⟨_, -, h⟩ := bind_eq_ok.mp h
  obtain ⟨plan, -, h⟩ := bind_eq_ok.mp h
  obtain ⟨_, -, h⟩ := bind_eq_ok.mp h
  obtain ⟨graph, -, h⟩ := bind_eq_ok.mp h
  obtain ⟨_, -, h⟩ := bind_eq_ok.mp h
  obtain ⟨_, -, h⟩ := bind_eq_ok.mp h
  obtain ⟨_, -, h⟩ := bind_eq_ok.mp h
  obtain ⟨E, hE, h⟩ := bind_eq_ok.mp h
  obtain ⟨E', hE', h⟩ := bind_eq_ok.mp h
  cases h
  refine hS.of_running ?_ nofun Bool.false_ne_true (.inl rfl)
  rintro _ ⟨⟩
  obtain ⟨_, hquiet, hE'⟩ := bind_eq_ok.mp hE'
  obtain ⟨E₁, hE₁, hE'⟩ := bind_eq_ok.mp hE'
  cases hE'
  have hq := quiescent_iff.mp (requireConflict_eq_ok.mp hquiet)
  exact hP.clears (hP.installs (hS.execution (orConflict_eq_ok.mp hE)) hq hE₁)
    (hq.installGraph hE₁)

theorem finish_holds {S : TaskState} (hS : S.Holds cas P) (resultId : String) :
    Yields (Holds cas P) (S.finish cas resultId) := by
  unfold finish
  refine Yields.bind fun _ hquiet => ?_
  have hlast : ({ S with phase := .finished resultId } : TaskState).Holds cas P :=
    ⟨hS.execution, hS.begins,
      fun _ _ hE => quiescent_eq_true (requireConflict_eq_ok.mp hquiet) hE, hS.resume⟩
  repeat' first
    | refine Yields.bind fun _ _ => ?_
    | exact Yields.pure hlast
    | split

/-! ## Every change, every event, every log -/

/-- **Changes.** An invariant that the operations keep survives every change. -/
theorem applyChange_holds (hP : Kept cas Meets P) {S : TaskState} (hS : S.Holds cas P)
    {event : RunEvent} {change : TaskChange} {time : ℕ} {accounting : Bool}
    (hacc : accountingAfterFinish cas change = .ok accounting)
    (hfin : S.phase.isFinished → accounting)
    (hmeet : ∀ recordId record E, change = .executionRecorded recordId →
      cas.executionRecord recordId = .ok record → S.currentExecution cas = .ok E →
      Meets E (S.recordContext time) record) :
    Yields (Holds cas P) (S.applyChange cas event change time) := by
  cases change
  case executionRecorded recordId =>
    refine applyExecution_holds hP hS (fun hf record hrecord => ?_) fun record E hr hE =>
      hmeet recordId record E rfl hr hE
    obtain ⟨record', hr', hacc⟩ := bind_eq_ok.mp hacc
    rw [hrecord] at hr'
    cases hr'
    cases hacc
    exact hfin hf
  case reviewIntegrationSelected phaseId =>
    cases hacc
    exact selectIntegration_holds hP hS (fun hf => Bool.false_ne_true (hfin hf)) phaseId time
  case reviewIntegrationFinished phaseId reportId committed =>
    cases hacc
    exact finishIntegration_holds hP hS (fun hf => Bool.false_ne_true (hfin hf)) phaseId reportId
      committed time
  case reviewContinued id => exact applyReviewHandoff_holds hP hS id time
  case sourceRefreshed revisionId planId waiting =>
    exact applySourceRefreshed_holds hP hS revisionId planId waiting time
  case planningCompleted bootstrapPlanId proposalId revisionId planId =>
    exact applyPlanningCompleted_holds hP hS bootstrapPlanId proposalId revisionId planId time
  case finished resultId => exact finish_holds hS resultId
  case waiting reason =>
    -- a pause remembers a phase that is not finished
    cases hacc
    refine Yields.bind fun _ _ => Yields.bind fun _ _ => Yields.pure ?_
    refine ⟨hS.execution, hS.begins, fun hf => absurd hf Bool.false_ne_true, ?_⟩
    rintro p ⟨⟩ hf
    exact Bool.false_ne_true (hfin hf)
  case resumed =>
    refine Yields.bind fun prior hprior => Yields.bind fun _ _ => Yields.pure ?_
    exact hS.of_running hS.execution id (hS.resume (orConflict_eq_ok.mp hprior)) (.inl rfl)
  -- the rest keeps the execution; its phase is the old one or not finished
  all_goals
    simp only [applyChange, resumeRecording, recordAdoption, proposePlan, decidePlan,
      revokeApproval, admitPlan, applyRunReport, applyDelivery, renewLease, releaseLease]
    repeat' first
      | exact Yields.error
      | exact Yields.throw
      | refine Yields.bind fun _ _ => ?_
      | exact Yields.pure (hS.of_same rfl id hS.resume)
      | exact Yields.pure (hS.of_running hS.execution id Bool.false_ne_true (.inl rfl))
      | exact Yields.pure (hS.of_running hS.execution id (by simp [proposedPhase_isFinished])
          (.inl rfl))
      | split

theorem apply_holds (hP : Kept cas Meets P) {S S' : TaskState} (hS : S.Holds cas P) {e : RunEvent}
    {t : TaskTransition} (hpay : e.payload = .transition t) (hmeet : RecordsMeet cas Meets S e)
    (h : S.apply cas e t = .ok S') : S'.Holds cas P := by
  obtain ⟨accounting, T, -, hacc, -, hfin, hT, rfl⟩ := apply_eq_ok h
  have hholds : T.Holds cas P := by
    obtain ⟨_, -, hT⟩ | ⟨-, -, hT⟩ := applyLeased_eq_ok hT
    · obtain ⟨_, -, hT⟩ := bind_eq_ok.mp hT
      cases hT
      exact hS.of_same rfl id hS.resume
    · exact applyChange_holds hP hS hacc hfin (fun recordId record E hchange hrecord hE =>
        hmeet t recordId record E hpay hchange hrecord hE) T hT
  exact hholds.of_same rfl id hholds.resume

/-- Reopening the gates of a quiescent execution keeps the invariant. -/
theorem reopenGates_keeps (hP : Kept cas Meets P) {E E' : TaskExecutionProjection}
    {gates : List RetriedGate} (hE : P E) (hq : E.Quiescent) (h : reopenGates E gates = .ok E') :
    P E' := by
  refine (foldlM_invariant (P := fun E => P E ∧ E.Quiescent) ?_ ⟨hE, hq⟩ h).1
  rintro E gate E' - ⟨hE, hq⟩ h
  obtain ⟨⟨⟨⟩, budget⟩, hb, h⟩ := bind_eq_ok.mp h
  cases h
  exact ⟨hP.allows (hP.reopens gate.node hE hq) hb, hq⟩

theorem applyGateRetried_holds (hP : Kept cas Meets P) {S S' : TaskState} (hS : S.Holds cas P)
    {e : RunEvent} {r : GateRetried} (h : S.applyGateRetried cas e r = .ok S') : S'.Holds cas P := by
  obtain ⟨_, -, h⟩ := bind_eq_ok.mp h
  obtain ⟨_, -, h⟩ := bind_eq_ok.mp h
  obtain ⟨_, -, h⟩ := bind_eq_ok.mp h
  obtain ⟨_, hcheck, h⟩ := bind_eq_ok.mp h
  obtain ⟨E, hE, h⟩ := bind_eq_ok.mp h
  obtain ⟨_, -, h⟩ := bind_eq_ok.mp h
  obtain ⟨E', hE', h⟩ := bind_eq_ok.mp h
  obtain ⟨_, -, h⟩ := bind_eq_ok.mp h
  cases h
  have hE := orConflict_eq_ok.mp hE
  -- the retried Task is finished, so nothing of it is pending
  obtain ⟨_, -, hcheck⟩ := bind_eq_ok.mp hcheck
  obtain ⟨_, hphase, -⟩ := bind_eq_ok.mp hcheck
  have hphase := of_decide_eq_true (requireConflict_eq_ok.mp hphase)
  have hq := hS.quiescent (by rw [hphase]; rfl) hE
  refine hS.of_running ?_ nofun Bool.false_ne_true (.inr rfl)
  rintro _ ⟨⟩
  exact reopenGates_keeps hP (hS.execution hE) hq hE'

/-- **One event.** An invariant that the operations keep survives every event whose
record meets the condition. -/
theorem step_holds (hP : Kept cas Meets P) {S S' : TaskState} {e : RunEvent} (hS : S.Holds cas P)
    (hmeet : RecordsMeet cas Meets S e) (h : S.step cas e = some S') : S'.Holds cas P := by
  have h := step_eq_some.mp h
  unfold applyEvent at h
  split at h
  case h_1 t hpay => exact apply_holds hP hS hpay hmeet h
  case h_2 m _ =>
    have : Yields (Holds cas P) (S.applyExecutionStarted e m) := by
      unfold applyExecutionStarted
      repeat' first
        | refine Yields.bind fun _ _ => ?_
        | exact Yields.pure (hS.of_same rfl id hS.resume)
    exact this S' h
  case h_3 r _ => exact applyGateRetried_holds hP hS h
  case h_4 v _ =>
    have : Yields (Holds cas P) (S.applyProviderEvent e v) := by
      unfold applyProviderEvent
      repeat' first
        | refine Yields.bind fun _ _ => ?_
        | exact Yields.pure (hS.of_same rfl id hS.resume)
    exact this S' h

theorem opening_holds {taskId : String} {e : RunEvent} {S : TaskState}
    (hbegin : ∀ {T : TaskState} {E}, T.newExecution cas = .ok E → P E)
    (h : opening cas taskId e = .ok S) : S.Holds cas P := by
  obtain ⟨t, _, _, -, -, -, -, _, -, rfl⟩ := opening_eq_ok h
  refine ⟨?_, fun _ => hbegin, fun hf => absurd hf Bool.false_ne_true, ?_⟩
  · rintro _ ⟨⟩
  · rintro _ ⟨⟩

/-- Every record of a log meets the condition where it is applied. -/
def LogMeets (cas : Cas)
    (Meets : TaskExecutionProjection → RecordContext → ExecutionRecord → Prop)
    (taskId : String) : List RunEvent → Prop
  | [] => True
  | first :: rest => ∀ S, opening cas taskId first = .ok S →
      StepsMeet (step cas) (RecordsMeet cas Meets) S rest

instance [∀ E c r, Decidable (Meets E c r)] (taskId : String) :
    ∀ log, Decidable (LogMeets cas Meets taskId log)
  | [] => isTrue trivial
  | first :: rest =>
    match h : opening cas taskId first with
    | .error _ => isTrue fun _ h' => nomatch h.symm.trans h'
    | .ok S => decidable_of_iff (StepsMeet (step cas) (RecordsMeet cas Meets) S rest)
        ⟨fun hmeet _ h' => Except.ok.inj (h.symm.trans h') ▸ hmeet, fun hall => hall S h⟩

/-- **Every run.** An invariant that the operations keep survives every run of events
whose records meet the condition. -/
theorem run_holds (hP : Kept cas Meets P) {S S' : TaskState} {events : List RunEvent}
    (hS : S.Holds cas P) (hmeet : StepsMeet (step cas) (RecordsMeet cas Meets) S events)
    (h : run (step cas) S events = some S') : S'.Holds cas P :=
  run_induction (fun _ _ _ hS hC hstep => step_holds hP hS hC hstep) hS hmeet h

/-- **Every log.** An invariant that new executions have and the operations keep holds of
the execution of every accepted log whose records meet the condition. -/
theorem ofLog_holds (hbegin : ∀ {T : TaskState} {E}, T.newExecution cas = .ok E → P E)
    (hP : Kept cas Meets P) {taskId : String} {log : List RunEvent} {S : TaskState}
    (hmeet : LogMeets cas Meets taskId log) (h : ofLog cas taskId log = some S) :
    S.Holds cas P := by
  cases log with
  | nil => cases h
  | cons first rest =>
    obtain ⟨S₀, hopen, hrun⟩ := ofLog_cons_eq_some.mp h
    exact run_holds hP (opening_holds hbegin hopen) (hmeet S₀ hopen) hrun

theorem logMeets_of_forall (h : ∀ E c r, Meets E c r) (taskId : String) (log : List RunEvent) :
    LogMeets cas Meets taskId log := by
  cases log with
  | nil => trivial
  | cons first rest =>
    exact fun S _ => stepsMeet_of_forall (fun _ _ _ _ _ _ _ _ _ _ => h _ _ _) S rest

/-- A log is a shorter one and the run of the events after it. -/
theorem ofLog_append_eq_some {taskId : String} {before after : List RunEvent} {S₀ S : TaskState}
    (h₀ : ofLog cas taskId before = some S₀) :
    ofLog cas taskId (before ++ after) = some S ↔ run (step cas) S₀ after = some S := by
  cases before with
  | nil => cases h₀
  | cons first rest =>
    obtain ⟨T, hopen, hrun⟩ := ofLog_cons_eq_some.mp h₀
    rw [List.cons_append, ofLog_cons_eq_some]
    constructor
    · rintro ⟨T', hopen', h⟩
      rw [hopen] at hopen'
      cases hopen'
      obtain ⟨S₁, hS₁, h⟩ := run_append_eq_some.mp h
      rw [hrun] at hS₁
      cases hS₁
      exact h
    · intro h
      exact ⟨T, hopen, run_append_eq_some.mpr ⟨S₀, hrun, h⟩⟩

/-- Finished and paused Tasks of an accepted log are as `Holds` says. -/
theorem ofLog_quiescent {taskId : String} {log : List RunEvent} {S : TaskState}
    (h : ofLog cas taskId log = some S) : S.Holds cas fun _ => True := by
  have htrue : Kept cas (fun _ _ _ => True) fun _ => True :=
    { integrates := fun _ _ _ => trivial
      invalidates := fun _ _ _ => trivial
      installs := fun _ _ _ => trivial
      clears := fun _ _ => trivial
      reopens := fun _ _ _ => trivial
      allows := fun _ _ => trivial
      records := fun _ _ _ => trivial }
  exact ofLog_holds (fun _ => trivial) htrue
    (logMeets_of_forall (fun _ _ _ => trivial) taskId log) h

/-- **From a state on.** An invariant of the execution a log has reached holds in every
state the log is continued to. -/
theorem ofLog_continues (hP : Kept cas Meets P) {taskId : String} {before after : List RunEvent}
    {S₀ S : TaskState} {E₀ : TaskExecutionProjection} (h₀ : ofLog cas taskId before = some S₀)
    (hE₀ : S₀.execution = some E₀) (hbegin : P E₀)
    (hmeet : StepsMeet (step cas) (RecordsMeet cas Meets) S₀ after)
    (h : run (step cas) S₀ after = some S) : S.Holds cas P := by
  have hS₀ := ofLog_quiescent h₀
  refine run_holds hP ⟨fun hE => ?_, fun hnone => ?_, hS₀.quiescent, hS₀.resume⟩ hmeet h
  · rw [hE₀] at hE
    cases hE
    exact hbegin
  · rw [hE₀] at hnone
    cases hnone

end TaskState

end Afactory
