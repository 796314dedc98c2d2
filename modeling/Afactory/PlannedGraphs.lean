import Mathlib
import Afactory.Downstream
import Afactory.ExecutionRuns

/-!
# The graph of an execution

Whatever graph an execution runs, its order was the scheduler's when it was installed: at the first
record, when planning completed, at a refresh or a handoff. No other event changes it.

* `Planned`: the order of the execution's graph is the scheduler's;
* `applyEvent_planned`: every event keeps it;
* `ofLog_ordered`: the graph of an accepted log is ordered.
-/

namespace Afactory

/-- The order the store reads a graph against is the one its planner computes. -/
def Cas.PlansOrder (cas : Cas) : Prop :=
  ∀ G order, cas.schedulerOrder G = .ok order → ∃ P, G.schedulerPlan = .ok P ∧ order = P.order

variable {cas : Cas}

namespace TaskExecutionProjection

/-- No record changes the graph. -/
theorem applyRecord_graph {E : TaskExecutionProjection} {c : RecordContext}
    {record : ExecutionRecord} :
    Yields (fun E' => E'.graph = E.graph) (E.applyRecord cas c record) := by
  cases record
  all_goals
    simp only [applyRecord]
    try simp only [registerOwned, publishOwned, completeOwned, prepareExperiment, decideExperiment,
      registerExperiment, applyUsageObserved, applyInvocation, applyReserved, applyContextBound,
      applyStarted, applyReleased, applySettled, applyPublished]
    repeat' first
      | exact Yields.error
      | exact Yields.throw
      | refine Yields.bind fun _ _ => ?_
      | exact Yields.pure rfl

/-- The order of the graph is the scheduler's. -/
def Planned (cas : Cas) (E : TaskExecutionProjection) : Prop :=
  cas.schedulerOrder E.graph = .ok E.graph.order

theorem installGraph_graph {E E' : TaskExecutionProjection} {graph : CompiledTask} {time : ℕ}
    {preparation : Bool} (h : E.installGraph graph time preparation = .ok E') :
    E'.graph = graph := by
  obtain ⟨_, _, _, -, -, rfl⟩ := installGraph_eq_ok h
  rfl

end TaskExecutionProjection

namespace TaskState

open TaskExecutionProjection

variable {S S' : TaskState}

/-- An execution that began runs a graph in the scheduler's order. -/
def Planned (cas : Cas) (S : TaskState) : Prop :=
  ∀ E, S.execution = some E → E.Planned cas

theorem newExecution_planned {E : TaskExecutionProjection} (h : S.newExecution cas = .ok E) :
    E.Planned cas := by
  obtain ⟨_, -, h⟩ := bind_eq_ok.mp h
  obtain ⟨plan, -, h⟩ := bind_eq_ok.mp h
  obtain ⟨graph, -, h⟩ := bind_eq_ok.mp h
  obtain ⟨_, -, h⟩ := bind_eq_ok.mp h
  obtain ⟨order, horder, h⟩ := bind_eq_ok.mp h
  obtain ⟨_, hsame, h⟩ := bind_eq_ok.mp h
  obtain ⟨_, -, h⟩ := bind_eq_ok.mp h
  obtain ⟨_, -, h⟩ := bind_eq_ok.mp h
  cases h
  have hsame : graph.order = order := of_decide_eq_true (requireConflict_eq_ok.mp hsame)
  exact horder.trans (by rw [hsame])

theorem Planned.current (h : S.Planned cas) {E : TaskExecutionProjection}
    (hE : S.currentExecution cas = .ok E) : E.Planned cas := by
  obtain hE | ⟨-, hnew⟩ := currentExecution_cases hE
  · exact h E hE
  · exact newExecution_planned hnew

theorem canonicalGraph_order {graph : CompiledTask} {inputs : OrdMap String ArtifactInput}
    {canonical : Bool} (h : canonicalGraph cas graph inputs = .ok canonical)
    (hyes : requireConflict canonical text = .ok ()) :
    cas.schedulerOrder graph = .ok graph.order := by
  rw [canonicalGraph] at h
  split_ifs at h
  · obtain ⟨order, horder, h⟩ := bind_eq_ok.mp h
    have hsame := (Except.ok.inj h).trans (requireConflict_eq_ok.mp hyes)
    rw [horder, of_decide_eq_true hsame]
  · rw [← Except.ok.inj h] at hyes
    exact absurd (requireConflict_eq_ok.mp hyes) Bool.false_ne_true

theorem applyExecution_planned (h : S.Planned cas) (recordId : String) (time : ℕ) :
    Yields (Planned cas) (S.applyExecution cas recordId time) := by
  intro S' happly
  obtain ⟨record, -, happly⟩ := bind_eq_ok.mp happly
  obtain ⟨_, -, happly⟩ := bind_eq_ok.mp happly
  obtain ⟨E, hE, happly⟩ := bind_eq_ok.mp happly
  obtain ⟨_, -, happly⟩ := bind_eq_ok.mp happly
  obtain ⟨E', hE', happly⟩ := bind_eq_ok.mp happly
  cases happly
  rintro _ ⟨⟩
  rw [TaskExecutionProjection.Planned, applyRecord_graph E' hE']
  exact h.current hE

theorem applyReviewHandoff_planned (id : String) (time : ℕ) :
    Yields (Planned cas) (S.applyReviewHandoff cas id time) := by
  intro S' h
  obtain ⟨handoff, -, h⟩ := bind_eq_ok.mp h
  obtain ⟨⟨previous, next, oldRound, newRound⟩, -, h⟩ := bind_eq_ok.mp h
  obtain ⟨_, -, h⟩ := bind_eq_ok.mp h
  obtain ⟨_, -, h⟩ := bind_eq_ok.mp h
  obtain ⟨_, -, h⟩ := bind_eq_ok.mp h
  obtain ⟨_, -, h⟩ := bind_eq_ok.mp h
  obtain ⟨plan, -, h⟩ := bind_eq_ok.mp h
  obtain ⟨graph, -, h⟩ := bind_eq_ok.mp h
  obtain ⟨canonical, hcanonical, h⟩ := bind_eq_ok.mp h
  obtain ⟨_, hyes, h⟩ := bind_eq_ok.mp h
  obtain ⟨execution, hexec, h⟩ := bind_eq_ok.mp h
  cases h
  rintro E' ⟨⟩
  obtain ⟨E, -, hE'⟩ := mapM_eq_some hexec
  obtain ⟨_, -, hE'⟩ := bind_eq_ok.mp hE'
  obtain ⟨E₁, -, hE'⟩ := bind_eq_ok.mp hE'
  rw [TaskExecutionProjection.Planned, installGraph_graph hE']
  exact canonicalGraph_order hcanonical hyes

theorem applySourceRefreshed_planned (h : S.Planned cas) (revisionId : String)
    (planId : Option String) (waiting : Option TaskWaitingReason) (time : ℕ) :
    Yields (Planned cas) (S.applySourceRefreshed cas revisionId planId waiting time) := by
  intro S' happly
  obtain ⟨next, -, happly⟩ := bind_eq_ok.mp happly
  obtain ⟨_, -, happly⟩ := bind_eq_ok.mp happly
  obtain ⟨target, -, happly⟩ := bind_eq_ok.mp happly
  obtain ⟨execution, hexec, happly⟩ := bind_eq_ok.mp happly
  cases target with
  | inl id =>
    obtain ⟨plan, -, happly⟩ := bind_eq_ok.mp happly
    obtain ⟨graph, -, happly⟩ := bind_eq_ok.mp happly
    obtain ⟨canonical, hcanonical, happly⟩ := bind_eq_ok.mp happly
    obtain ⟨_, hyes, happly⟩ := bind_eq_ok.mp happly
    obtain ⟨installed, hinst, happly⟩ := bind_eq_ok.mp happly
    cases happly
    rintro E' ⟨⟩
    obtain ⟨E₁, -, hE'⟩ := mapM_eq_some hinst
    rw [TaskExecutionProjection.Planned, installGraph_graph hE']
    exact canonicalGraph_order hcanonical hyes
  | inr reason =>
    cases happly
    rintro E₁ ⟨⟩
    obtain ⟨E, hE, hE₁⟩ := mapM_eq_some hexec
    obtain ⟨_, -, hE₁⟩ := bind_eq_ok.mp hE₁
    obtain ⟨_, -, rfl⟩ := invalidatePlan_eq_ok hE₁
    exact h E hE

theorem applyPlanningCompleted_planned (bootstrapPlanId proposalId revisionId planId : String)
    (time : ℕ) :
    Yields (Planned cas)
      (S.applyPlanningCompleted cas bootstrapPlanId proposalId revisionId planId time) := by
  intro S' h
  obtain ⟨_, -, h⟩ := bind_eq_ok.mp h
  obtain ⟨proof, -, h⟩ := bind_eq_ok.mp h
  obtain ⟨_, -, h⟩ := bind_eq_ok.mp h
  obtain ⟨next, -, h⟩ := bind_eq_ok.mp h
  obtain ⟨_, -, h⟩ := bind_eq_ok.mp h
  obtain ⟨plan, -, h⟩ := bind_eq_ok.mp h
  obtain ⟨_, -, h⟩ := bind_eq_ok.mp h
  obtain ⟨graph, -, h⟩ := bind_eq_ok.mp h
  obtain ⟨_, -, h⟩ := bind_eq_ok.mp h
  obtain ⟨order, horder, h⟩ := bind_eq_ok.mp h
  obtain ⟨_, hsame, h⟩ := bind_eq_ok.mp h
  obtain ⟨E, -, h⟩ := bind_eq_ok.mp h
  obtain ⟨E', hE', h⟩ := bind_eq_ok.mp h
  cases h
  rintro _ ⟨⟩
  obtain ⟨_, -, hE'⟩ := bind_eq_ok.mp hE'
  obtain ⟨E₁, hE₁, hE'⟩ := bind_eq_ok.mp hE'
  cases hE'
  have hsame : order = graph.order := of_decide_eq_true (requireConflict_eq_ok.mp hsame)
  rw [TaskExecutionProjection.Planned, installGraph_graph hE₁, horder, hsame]

theorem integration_planned (h : S.Planned cas) (phaseId reportId : String)
    (committed : Option String) (time : ℕ) :
    Yields (Planned cas) (S.selectIntegration cas phaseId time) ∧
      Yields (Planned cas) (S.finishIntegration cas phaseId reportId committed time) := by
  constructor
  · intro S' happly
    obtain ⟨⟨phase, compiled⟩, -, happly⟩ := bind_eq_ok.mp happly
    obtain ⟨_, -, happly⟩ := bind_eq_ok.mp happly
    obtain ⟨_, -, happly⟩ := bind_eq_ok.mp happly
    obtain ⟨E, hE, happly⟩ := bind_eq_ok.mp happly
    obtain ⟨_, -, happly⟩ := bind_eq_ok.mp happly
    cases happly
    rintro _ ⟨⟩
    exact (h.current hE :)
  · simp only [finishIntegration]
    refine Yields.bind fun _ _ => Yields.bind fun E hE => ?_
    have hlast : ∀ m, Planned cas
        { S with execution := some { E with reviewIntegrations := m } } := by
      rintro m _ ⟨⟩
      exact (h.current hE :)
    repeat' first
      | refine Yields.bind fun _ _ => ?_
      | exact Yields.pure (hlast _)
      | split

/-- **Every change** installs a graph in the scheduler's order, or keeps the one there is. -/
theorem applyChange_planned (h : S.Planned cas) (event : RunEvent) (change : TaskChange)
    (time : ℕ) : Yields (Planned cas) (S.applyChange cas event change time) := by
  cases change
  case executionRecorded recordId => exact applyExecution_planned h recordId time
  case reviewIntegrationSelected phaseId => exact (integration_planned h phaseId "" none time).1
  case reviewIntegrationFinished phaseId reportId committed =>
    exact (integration_planned h phaseId reportId committed time).2
  case reviewContinued id => exact applyReviewHandoff_planned id time
  case sourceRefreshed revisionId planId waiting =>
    exact applySourceRefreshed_planned h revisionId planId waiting time
  case planningCompleted bootstrapPlanId proposalId revisionId planId =>
    exact applyPlanningCompleted_planned bootstrapPlanId proposalId revisionId planId time
  -- the rest keeps the execution
  all_goals
    simp only [applyChange, resumeRecording, recordAdoption, proposePlan, decidePlan,
      revokeApproval, admitPlan, applyRunReport, applyDelivery, renewLease, releaseLease, finish,
      pause, resume]
    repeat' first
      | exact Yields.error
      | exact Yields.throw
      | refine Yields.bind fun _ _ => ?_
      | exact Yields.pure h
      | split

theorem reopenGates_graph {E E' : TaskExecutionProjection} {gates : List RetriedGate}
    (h : reopenGates E gates = .ok E') : E'.graph = E.graph := by
  refine foldlM_invariant (P := fun E₁ => E₁.graph = E.graph) ?_ rfl h
  rintro E₁ gate E₂ - hE₁ hstep
  obtain ⟨⟨⟨⟩, budget⟩, -, hstep⟩ := bind_eq_ok.mp hstep
  cases hstep
  exact hE₁

/-- **Every event** keeps the order of the graph the scheduler's. -/
theorem applyEvent_planned (h : S.Planned cas) (e : RunEvent) :
    Yields (Planned cas) (S.applyEvent cas e) := by
  intro S' happly
  unfold applyEvent at happly
  split at happly
  case h_1 t hpay =>
    obtain ⟨_, T, -, -, -, -, hT, rfl⟩ := apply_eq_ok happly
    have hplanned : T.Planned cas := by
      obtain ⟨_, -, hT⟩ | ⟨-, -, hT⟩ := applyLeased_eq_ok hT
      · obtain ⟨_, -, hT⟩ := bind_eq_ok.mp hT
        cases hT
        exact h
      · exact applyChange_planned h e t.change _ T hT
    exact hplanned
  case h_3 retry _ =>
    obtain ⟨_, -, happly⟩ := bind_eq_ok.mp happly
    obtain ⟨_, -, happly⟩ := bind_eq_ok.mp happly
    obtain ⟨_, -, happly⟩ := bind_eq_ok.mp happly
    obtain ⟨_, -, happly⟩ := bind_eq_ok.mp happly
    obtain ⟨E, hE, happly⟩ := bind_eq_ok.mp happly
    obtain ⟨_, -, happly⟩ := bind_eq_ok.mp happly
    obtain ⟨E', hE', happly⟩ := bind_eq_ok.mp happly
    obtain ⟨_, -, happly⟩ := bind_eq_ok.mp happly
    cases happly
    rintro _ ⟨⟩
    rw [TaskExecutionProjection.Planned, reopenGates_graph hE']
    exact h E (orConflict_eq_ok.mp hE)
  -- a marker and a Provider event keep the execution
  all_goals
    simp only [applyExecutionStarted, applyProviderEvent] at happly
    revert happly S'
    repeat' first
      | refine Yields.bind fun _ _ => ?_
      | exact Yields.pure h

/-- **Every log.** The graph an accepted log runs is in the scheduler's order. -/
theorem ofLog_ordered (hcas : cas.PlansOrder) {taskId : String} {log : List RunEvent}
    (h : ofLog cas taskId log = some S) {E : TaskExecutionProjection}
    (hE : S.execution = some E) : E.graph.Ordered := by
  have hplanned : S.Planned cas := by
    cases log with
    | nil => cases h
    | cons first rest =>
      obtain ⟨S₀, hopen, hrun⟩ := ofLog_cons_eq_some.mp h
      obtain ⟨_, _, _, -, -, -, -, _, -, rfl⟩ := opening_eq_ok hopen
      refine run_invariant (fun S e S' hS hstep => ?_) ?_ hrun
      · exact applyEvent_planned hS e S' (step_eq_some.mp hstep)
      · rintro _ ⟨⟩
  exact hcas E.graph E.graph.order (hplanned E hE)

end TaskState

end Afactory
