import Mathlib
import Afactory.TaskExecution

/-!
# The projection of a Task log

`TaskProjection` of `review-store/src/store/task.rs` and its submodules: how the next
event of a Task log changes the Task. A log is a genesis event and then transitions,
execution markers, gate retries and Provider events, of any writers with any clocks.

* `leaseTime`, `checkLeaseOf`: under which lease, and at which time, an event counts;
* `plan`, `checkPlanDecision`, `checkApproval`: the authority an effect needs;
* `applyChange`: one transition, change by change;
* `applyExecutionStarted`, `applyProviderEvent`, `applyGateRetried`: the other events;
* `TaskProjection.applyEvent`: the fold over a log.

The fields of a Task but its reference memo are a `TaskState`; only `applyGateRetried`
touches the memo.
-/

namespace Afactory

namespace TaskState

/-! ## Leases -/

/-- `lease_time`: the current writer is never before the last recorded event, which may
be its own renewal; another writer's time is its own. -/
def leaseTime (S : TaskState) (writer : String) (epoch nowUnixMs : ℕ) : ℕ :=
  if writer = S.writer ∧ epoch = S.epoch then max nowUnixMs S.lastTime else nowUnixMs

def writerTime (S : TaskState) (t : TaskTransition) : ℕ := S.leaseTime t.writer t.epoch t.nowUnixMs

/-- `check_lease_of`: the current writer and epoch, before the expiry. -/
def checkLeaseOf (S : TaskState) (writer : String) (epoch nowUnixMs : ℕ) :
    Except StoreError Unit := do
  requireConflict (writer = S.writer && epoch = S.epoch)
    ("Task writer lease is expired or fenced: writer " ++ writer ++ " epoch " ++ toString epoch ++
      " is not the current writer " ++ S.writer ++ " epoch " ++ toString S.epoch)
  let time := S.leaseTime writer epoch nowUnixMs
  requireConflict (time < S.leaseUntil)
    ("Task writer lease is expired or fenced: time " ++ toString time ++
      " is not before the lease's expiry " ++ toString S.leaseUntil ++ " (last recorded " ++
      toString S.lastTime ++ ")")

def checkLease (S : TaskState) (t : TaskTransition) : Except StoreError Unit :=
  S.checkLeaseOf t.writer t.epoch t.nowUnixMs

/-! ## Plans and deadlines -/

/-- How far the clock moved the deadlines: from genesis to the first admission. -/
def clockShiftMs (S : TaskState) : ℕ :=
  match S.clockStartedUnixMs with
  | none => 0
  | some started => started - S.openedUnixMs

/-- The deadline once the clock started; before it, the revision's own. -/
def deadlineUnixMs (S : TaskState) : ℕ :=
  saturatingAdd S.revision.limits.deadlineUnixMs S.clockShiftMs

/-- The deadline the Task has if its clock starts at `now`. -/
def deadlineAt (S : TaskState) (now : ℕ) : ℕ :=
  saturatingAdd S.revision.limits.deadlineUnixMs
    ((S.clockStartedUnixMs.getD now) - S.openedUnixMs)

/-- The revision's limits with the clock's deadline. -/
def limits (S : TaskState) : TaskLimits :=
  { S.revision.limits with deadlineUnixMs := S.deadlineUnixMs }

/-- A plan of the exact current revision. -/
def plan (cas : Cas) (id : String) (S : TaskState) : Except StoreError ExecutionPlan := do
  let plan ← cas.executionPlan id
  requireConflict (plan.taskRevisionId = S.revisionId && plan.authority = S.revision.authority &&
    plan.limits = S.revision.limits && plan.inputs = S.revision.inputs &&
    (plan.preparation || plan.acceptance.keys = S.revision.acceptance.keys))
    "Plan does not bind the exact Task revision, inputs, authority and limits"
  return plan

/-- `check_plan_decision`: the current plan's approval holds at this time. -/
def checkPlanDecision (cas : Cas) (S : TaskState) (time : ℕ) : Except StoreError ExecutionPlan := do
  let id ← orConflict "Task has no plan" S.planId
  let plan ← S.plan cas id
  match S.decisions.get id with
  | some decision =>
    requireConflict (decision.revocation.isNone && time < decision.validUntil &&
      decision.value.approves id plan)
      "Task plan approval is rejected, revoked, expired or stale"
  | none =>
    requireConflict (!plan.requiresDeveloperApproval) "Generated Task plan needs developer review"
  return plan

/-- `check_approval`: an approved plan before its deadline. -/
def checkApproval (cas : Cas) (S : TaskState) (time : ℕ) : Except StoreError Unit := do
  let _ ← S.checkPlanDecision cas time
  requireConflict (time < S.deadlineAt time) "Task plan deadline expired"

/-- The phase a proposed plan waits in. -/
def proposedPhase (plan : ExecutionPlan) : TaskPhase :=
  if plan.requiresDeveloperApproval then .waiting .needsPlanReview else .ready

/-- Whether a graph has the exact inputs and the canonical order. -/
def canonicalGraph (cas : Cas) (graph : CompiledTask) (inputs : OrdMap String ArtifactInput) :
    Except StoreError Bool :=
  -- the order is computed only for a graph of the exact inputs
  if graph.inputs = inputs then do
    let order ← cas.schedulerOrder graph
    return graph.order = order
  else return false

/-- No Attempt of the Task is pending. -/
def quiescent (S : TaskState) : Bool :=
  match S.execution with
  | some E => E.pendingAttempts.isEmpty
  | none => true

/-! ## Execution -/

/-- The budget of a plan's graph; a preparation defers its verification. -/
def plannedBudget (graph : CompiledTask) (limits : TaskLimits) (preparation : Bool) :
    Except TaskBudgetError TaskBudget := do
  let budget ← graph.budget limits
  if preparation then budget.withDeferredVerification else return budget

/-- `TaskExecutionProjection::new`: the exact compiled graph of the current plan and the
budget its limits give it. -/
def newExecution (cas : Cas) (S : TaskState) : Except StoreError TaskExecutionProjection := do
  let planId ← orConflict "Task has no plan" S.planId
  let plan ← S.plan cas planId
  let graph ← cas.compiledTask plan.compiledGraphId
  requireConflict (graph.validSchema && graph.inputs = S.revision.inputs)
    "Task execution requires its exact compiled graph"
  let order ← cas.schedulerOrder graph
  requireConflict (graph.order = order) "Compiled Task order is not canonical"
  let budget ← mapConflict (plannedBudget graph S.limits plan.preparation)
  let runId ← cas.taskRunId S.taskId
  return {
    graph := graph
    budget := budget
    ledger := AttemptLedger.scoped ("af/task-attempts/1:" ++ runId) .empty }

/-- The execution, begun at its first use. -/
def currentExecution (cas : Cas) (S : TaskState) : Except StoreError TaskExecutionProjection :=
  match S.execution with
  | some E => .ok E
  | none => S.newExecution cas

/-- The phase and the authority a record needs before its branch reads it. -/
def checkRecord (cas : Cas) (S : TaskState) (time : ℕ) (record : ExecutionRecord) :
    Except StoreError Unit := do
  if record.dispatching then
    requireConflict (S.admitted && S.phase = .running)
      "Task execution is not admitted and running"
    S.checkApproval cas time
  if record.isOwned then
    requireConflict (S.admitted && S.phase = .running)
      "Owned Task recording requires admitted running execution"
    let _ ← S.checkPlanDecision cas time
  match record with
  | .experimentPrepared _ =>
    requireConflict (S.admitted && S.phase = .running)
      "Experiment preparation requires admitted running execution"
    let _ ← S.checkPlanDecision cas time
    return
  | .experimentPlanDecided _ _ | .experimentChildrenRegistered _ _ _ =>
    requireConflict (S.admitted && S.phase = .waiting .needsPlanReview)
      "Experiment decision requires its preparation pause"
  | _ => return

/-- Whether the decision on a closure rejected it. -/
def experimentRejected (E : TaskExecutionProjection) (preparedId : String) : Bool :=
  match (E.experiments.get preparedId).bind RecordedExperiment.decision with
  | some (_, decision) => decision.decision = .rejected
  | none => false

/-- The phase after an execution record: only experiments pause and resume. -/
def recordedPhase (S : TaskState) (E : TaskExecutionProjection) : ExecutionRecord → TaskPhase
  | .experimentPrepared _ => .waiting .needsPlanReview
  | .experimentChildrenRegistered _ _ _ => .running
  | .experimentPlanDecided preparedId _ =>
    if experimentRejected E preparedId then .waiting .needsHuman else S.phase
  | _ => S.phase

/-- What the branches of a record read of the Task. -/
def recordContext (S : TaskState) (time : ℕ) : TaskExecutionProjection.RecordContext where
  taskId := S.taskId
  revisionId := S.revisionId
  planId := S.planId
  epoch := S.epoch
  previousWriterTime := S.previousWriter.1
  time := time

/-- `apply_execution`. -/
def applyExecution (cas : Cas) (S : TaskState) (recordId : String) (time : ℕ) :
    Except StoreError TaskState := do
  let record ← cas.executionRecord recordId
  S.checkRecord cas time record
  let E ← S.currentExecution cas
  E.checkIntegrationRecord cas record
  let E ← E.applyRecord cas (S.recordContext time) record
  return { S with execution := some E, phase := S.recordedPhase E record }

/-! ## Review Integrations and handoffs -/

/-- `captured`: the sequence a phase of the current plan activates. -/
def capturedIntegration (cas : Cas) (S : TaskState) (phase : ReviewIntegrationPhase) :
    Except StoreError CompiledReviewIntegration := do
  requireConflict (phase.taskId = S.taskId && phase.taskRevisionId = S.revisionId &&
    S.planId = some phase.planId) "Integration phase names another Task revision or plan"
  let plan ← S.plan cas phase.planId
  let graph ← cas.compiledTask plan.compiledGraphId
  let compiled ← orConflict "Task plan has no captured post-Round sequence" graph.reviewIntegration
  mapConflict compiled.validate
  cas.integrationSequence S phase compiled
  return compiled

/-- What both Integration transitions need, and the phase they name. -/
def integrationPhase (cas : Cas) (S : TaskState) (phaseId : String) (time : ℕ) :
    Except StoreError (ReviewIntegrationPhase × CompiledReviewIntegration) := do
  requireConflict (S.admitted && S.phase = .running)
    "Integration requires admitted running execution"
  let _ ← S.checkPlanDecision cas time
  let phase ← cas.reviewIntegration phaseId
  let compiled ← S.capturedIntegration cas phase
  return (phase, compiled)

/-- `ReviewIntegrationSelected`. -/
def selectIntegration (cas : Cas) (S : TaskState) (phaseId : String) (time : ℕ) :
    Except StoreError TaskState := do
  let (phase, compiled) ← S.integrationPhase cas phaseId time
  S.checkApproval cas time
  requireConflict (match S.execution with
    | some E => !E.budget.breached
    | none => true) "Integration activation follows Task resource breach"
  let E ← S.currentExecution cas
  requireConflict (E.activeReviewIntegration.isNone && E.pendingAttempts.isEmpty)
    "Integration selection is duplicated or has pending work"
  return { S with execution := some { E with
    reviewIntegrations := E.reviewIntegrations.insert phaseId
      { id := phaseId, phase := phase, compiled := compiled }
    activeReviewIntegration := some phaseId } }

/-- `selected_checks`: whether the reported checks of the phase passed; `none` where its
node did not complete. -/
def selectedChecks (cas : Cas) (registered : RegisteredReviewIntegration)
    (report : TaskRunReport) (entry : String × TaskNodeOutcome) :
    Except StoreError (Option Bool) := do
  requireConflict (report.phaseId = some registered.id &&
    report.planId = registered.phase.planId &&
    report.taskRevisionId = registered.phase.taskRevisionId && entry.1 = registered.node &&
    registered.requiresChecks) "Integration report changed its exact activated phase"
  match entry.2 with
  | .completed outputId =>
    let passed ← cas.integrationChecks registered outputId
    return some passed
  | _ => return none

/-- `resource_refusal`: the Task's budget or its deadline is gone. -/
def resourcesLost (E : TaskExecutionProjection) (deadline time : ℕ) : Bool :=
  E.budget.breached || deadline ≤ time

/-- A completed check is not relabelled as resource loss. -/
def checkResourceRecovery (E : TaskExecutionProjection) (node : String)
    (outcome : TaskNodeOutcome) (deadline time : ℕ) : Except StoreError Unit :=
  match outcome with
  | .failed _ .resources =>
    requireConflict (!E.outputs.contains node || resourcesLost E deadline time)
      ("Completed Integration checks cannot be relabeled as resource loss without original " ++
        "deadline or budget breach")
  | _ => .ok ()

/-- The output an Integration's report completed with is the published one. -/
def checkIntegrationOutput (E : TaskExecutionProjection) (node : String)
    (outcome : TaskNodeOutcome) : Except StoreError Unit :=
  match outcome with
  | .completed outputId =>
    requireConflict ((E.outputs.get node).map Prod.fst = some outputId)
      "Integration replay lost the selected common checks"
  | _ => .ok ()

/-- `ReviewIntegrationFinished`. -/
def finishIntegration (cas : Cas) (S : TaskState) (phaseId reportId : String)
    (committedEventId : Option String) (time : ℕ) : Except StoreError TaskState := do
  let _ ← S.integrationPhase cas phaseId time
  let E ← S.currentExecution cas
  requireConflict (E.activeReviewIntegration = some phaseId && E.pendingAttempts.isEmpty &&
    S.runReports.contains reportId)
    "Integration completion has no active quiescent reported phase"
  let active ← orConflict "Unknown Integration phase" (E.reviewIntegrations.get phaseId)
  requireConflict (!active.finished) "Integration phase is already sealed"
  let report ← cas.runReport reportId
  requireConflict report.phaseId.isSome "Expected an Integration phase Task run report"
  let entry ← orPanic report.nodes.head?
  let checks ← selectedChecks cas active report entry
  checkResourceRecovery E active.node entry.2 S.deadlineUnixMs time
  checkIntegrationOutput E active.node entry.2
  requireConflict (committedEventId.isSome = (checks = some true))
    "Integration replay commit disagrees with selected checks"
  if committedEventId.isSome then
    requireConflict (!E.budget.breached) "Integration promotion follows Task resource breach"
    S.checkApproval cas time
  return { S with execution := some { E with
    reviewIntegrations := E.reviewIntegrations.insert phaseId
      { active with reportId := some reportId, committedEventId := committedEventId } } }

/-- The sealed commit an integrated handoff rests on. -/
def checkHandoffEvidence (S : TaskState) : ReviewHandoffEvidence → Except StoreError Unit
  | .integratedRound _ phaseId committedEventId => do
    let active ← orConflict "Integrated handoff lacks its active phase"
      (S.execution.bind TaskExecutionProjection.activeIntegration)
    requireConflict (active.id = phaseId && active.committedEventId = some committedEventId &&
      active.finished) "Integrated handoff lacks its sealed exact commit"
  | _ => .ok ()

/-- The execution that continues under a successor plan. -/
def continueExecution (E : TaskExecutionProjection) (graph : CompiledTask) (time : ℕ)
    (sameRound preparation : Bool) : Except StoreError TaskExecutionProjection := do
  requireConflict (!sameRound || E.graph.tokenScopes = graph.tokenScopes)
    "Review input epoch changed its captured aggregate scopes"
  let E ← E.invalidatePlan time
  E.installGraph graph time preparation

/-- `apply_review_handoff`: the next Round's revision and plan take over. -/
def applyReviewHandoff (cas : Cas) (S : TaskState) (id : String) (time : ℕ) :
    Except StoreError TaskState := do
  let handoff ← cas.reviewHandoff id
  let (previous, next, oldRound, newRound) ← cas.reviewRevisions handoff
  requireConflict (S.taskId = handoff.taskId && S.revisionId = handoff.predecessorRevisionId &&
    S.revision = previous && S.planId = some handoff.predecessorPlanId && S.admitted &&
    S.phase = .running) "Review continuation is not its admitted running predecessor"
  let _ ← S.checkPlanDecision cas time
  S.checkHandoffEvidence handoff.evidence
  requireConflict S.quiescent "Review handoff has pending common Attempts"
  let candidate := { S with
    revisionId := handoff.successorRevisionId
    revision := next
    planId := some handoff.successorPlanId }
  let plan ← candidate.plan cas handoff.successorPlanId
  let graph ← cas.compiledTask plan.compiledGraphId
  let canonical ← canonicalGraph cas graph next.inputs
  requireConflict canonical "Review successor graph has stale inputs or noncanonical ordering"
  let execution ← candidate.execution.mapM fun E =>
    continueExecution E graph time (oldRound = newRound) plan.preparation
  return { candidate with
    execution := execution
    admitted := false
    resumePhase := none
    planning := none
    phase := proposedPhase plan
    reviewHandoffs := S.reviewHandoffs ++ [(id, handoff)] }

/-! ## Refreshes and planning -/

/-- The exact plan of a refreshed revision, or the reason there is none. -/
def refreshedTo (planId : Option String) (waiting : Option TaskWaitingReason) :
    Except StoreError (String ⊕ TaskWaitingReason) :=
  match planId, waiting with
  | some id, none => .ok (.inl id)
  | none, some reason =>
    if reason = .needsPlanReview then
      .error (.conflict "Refresh needs one exact plan or an explicit unresolved reason")
    else .ok (.inr reason)
  | _, _ => .error (.conflict "Refresh needs one exact plan or an explicit unresolved reason")

/-- What a refresh leaves of an execution: nothing of the old plan is current. -/
def refreshExecution (E : TaskExecutionProjection) (time : ℕ) :
    Except StoreError TaskExecutionProjection := do
  requireConflict E.pendingAttempts.isEmpty "Source refresh has pending Attempts"
  E.invalidatePlan time

/-- The refreshed plan's graph is installed and its phase proposed. -/
def adoptRefreshedPlan (cas : Cas) (S : TaskState) (id : String) (time : ℕ) :
    Except StoreError TaskState := do
  let plan ← S.plan cas id
  let graph ← cas.compiledTask plan.compiledGraphId
  let canonical ← canonicalGraph cas graph S.revision.inputs
  requireConflict canonical "Refreshed plan has a noncanonical graph or stale inputs"
  let execution ← S.execution.mapM fun E => E.installGraph graph time plan.preparation
  return { S with
    execution := execution
    planning := if plan.preparation then none else S.planning
    phase := proposedPhase plan }

/-- `apply_source_refreshed`. -/
def applySourceRefreshed (cas : Cas) (S : TaskState) (revisionId : String)
    (planId : Option String) (waiting : Option TaskWaitingReason) (time : ℕ) :
    Except StoreError TaskState := do
  let next ← cas.revision revisionId
  cas.sourceRevision S revisionId next
  let target ← refreshedTo planId waiting
  let execution ← S.execution.mapM fun E => refreshExecution E time
  let S := { S with
    execution := execution
    revisionId := revisionId
    revision := next
    planId := planId
    admitted := false
    resumePhase := none }
  match target with
  | .inl id => S.adoptRefreshedPlan cas id time
  | .inr reason => return { S with phase := .waiting reason }

/-- The Worker that proposes: the captured plan role. -/
def checkPlanner (graph : CompiledTask) (node : CompiledNode) : Except StoreError Unit :=
  match node.operator with
  | .primitive (.worker slot) _ =>
    requireConflict (match graph.slots.get slot with
      | some s => s.role = "plan"
      | none => false) "Proposal requires the captured plan-role Worker"
  | _ => .error (.conflict "Planner proposal was not produced by a Worker")

/-- The published, selected proposal of a bootstrap execution. -/
def publishedProposal (cas : Cas) (E : TaskExecutionProjection) : Except StoreError String := do
  let address ← orConflict "Planner has no public proposal port" (E.graph.outputs.get "proposal")
  let node ← orPanic (E.graph.nodes.get address.node)
  checkPlanner E.graph node
  let (wrapperId, output) ← orConflict "Planner proposal has not been published"
    (E.outputs.get address.node)
  let (selectedId, _) ← orConflict "Planner proposal has no selected Attempt"
    (E.reusableOutput address.node)
  requireConflict (wrapperId = selectedId) "Planner publication differs from its selected output"
  let port ← orConflict "Planner omitted its public proposal" (output.outputs.get address.port)
  match port.artifactIds with
  | [proposalId] =>
    requireConflict (port.artifactType = "af/PipelineProposal@1" && port.snapshotId.isNone)
      "Planner proposal has the wrong public contract"
    cas.pipelineProposal proposalId
    return proposalId
  | _ => throw (.conflict "Planner proposal has the wrong public contract")

/-- `planning_proof` of a Task that has not crossed its barrier. -/
def planningProof (cas : Cas) (S : TaskState) : Except StoreError TaskPlanningProof := do
  let planId ← orConflict "Task has no Planner plan" S.planId
  let plan ← S.plan cas planId
  requireConflict (plan.preparation && S.admitted && S.phase = .running)
    "Task is not running its fixed Planner bootstrap"
  let E ← orConflict "Planner has no execution" S.execution
  requireConflict E.pendingAttempts.isEmpty "Planner still has unsettled work"
  let proposalId ← publishedProposal cas E
  return ⟨S.revisionId, planId, proposalId⟩

/-- `apply_planning_completed`: the generated graph takes over the Planner's budget. -/
def applyPlanningCompleted (cas : Cas) (S : TaskState) (bootstrapPlanId proposalId : String)
    (revisionId planId : String) (time : ℕ) : Except StoreError TaskState := do
  requireConflict S.planning.isNone "Task has already crossed its planning barrier"
  let proof ← S.planningProof cas
  requireConflict (proof.bootstrapPlanId = bootstrapPlanId && proof.proposalId = proposalId)
    "Planning barrier names another proposal or bootstrap"
  let next ← cas.revision revisionId
  cas.planningRevision S revisionId next
  let plan ← { S with revision := next, revisionId := revisionId }.plan cas planId
  requireConflict (!plan.preparation && !plan.generatedOrigins.isEmpty &&
    plan.generatedOrigins.any (fun o => o.pipelineId = plan.pipelineId) &&
    plan.generatedOrigins.all fun o =>
      o.proposalId = proposalId && o.bootstrapPlanId = bootstrapPlanId)
    "Execution plan does not retain its exact generated proposal closure"
  let graph ← cas.compiledTask plan.compiledGraphId
  requireConflict (graph.inputs = next.inputs && graph.validSchema)
    "Generated execution graph is not canonical"
  let order ← cas.schedulerOrder graph
  requireConflict (order = graph.order) "Generated execution graph is not canonical"
  let E ← orConflict "Planner has no accounting" S.execution
  let E ← E.enterExecution graph time
  return { S with
    execution := some E
    revision := next
    revisionId := revisionId
    planId := some planId
    planning := some proof
    admitted := false
    phase := .waiting .needsPlanReview
    resumePhase := none }

/-! ## Reports, recording and deliveries -/

/-- Whether a report covers the graph in order, or exactly the active phase's node. -/
def reportCovers (E : TaskExecutionProjection) (report : TaskRunReport) : Bool :=
  match report.phaseId with
  | none => E.activeIntegration.isNone && report.nodes.map Prod.fst = E.graph.order
  | some phase =>
    match E.activeIntegration with
    | none => false
    | some p => p.id = phase && !p.finished && report.nodes.map Prod.fst = [p.node]

/-- A reported completion has its exact published output. -/
def checkReported (E : TaskExecutionProjection) (entry : String × TaskNodeOutcome) :
    Except StoreError Unit :=
  match entry.2 with
  | .completed outputId =>
    requireConflict ((E.outputs.get entry.1).map Prod.fst = some outputId)
      "Task report completion has no exact published output"
  | _ => .ok ()

/-- `apply_run_report`. -/
def applyRunReport (cas : Cas) (S : TaskState) (id : String) : Except StoreError TaskState := do
  let report ← cas.runReport id
  let E ← orConflict "Task report has no execution" S.execution
  requireConflict (report.taskRevisionId = S.revisionId && S.planId = some report.planId &&
    report.throughSequence = S.nextSequence && reportCovers E report)
    ("Task run report differs from its current revision, plan, sequence or complete node " ++
      "order")
  report.nodes.forM (checkReported E)
  return { S with
    recordingReport := if report.phaseId.isNone then
        some ⟨report.taskRevisionId, report.planId, id, E.outputs.mapVal fun _ o => o.1⟩
      else none
    runReports := S.runReports ++ [id] }

/-- Whether the failed report and the recovery name a published, selected output. -/
def recordedFailure (E : TaskExecutionProjection) (recorded : RecordingRecovery)
    (entry : String × TaskNodeOutcome) : Bool :=
  match entry.2 with
  | .failed _ .domainPublication =>
    match E.outputs.get entry.1 with
    | some (id, _) => recorded.outputs.get entry.1 = some id &&
        (E.reusableOutput entry.1).map Prod.fst = some id
    | none => false
  | _ => false

/-- `validate_recording_resume`: only the outputs published at the failed report. -/
def validateRecordingResume (cas : Cas) (S : TaskState) (revisionId planId reportId : String)
    (time : ℕ) : Except StoreError RecordingRecovery := do
  requireConflict (S.admitted && S.phase = .waiting .needsHuman && S.resumePhase = some .running &&
    S.deadlineUnixMs ≤ time && S.revisionId = revisionId && S.planId = some planId &&
    S.runReports.getLast? = some reportId)
    "Recording recovery requires the exact expired admitted publication pause"
  let report ← cas.runReport reportId
  let recorded ← orConflict "Recording recovery has no exact failed-report output prefix"
    (S.recordingReport.filter fun r =>
      r.revisionId = revisionId && r.planId = planId && r.reportId = reportId)
  let E ← orConflict "Recording recovery has no execution" S.execution
  requireConflict (report.phaseId.isNone && E.activeIntegration.isNone &&
    report.taskRevisionId = revisionId && report.planId = planId && E.pendingAttempts.isEmpty &&
    report.nodes.any (recordedFailure E recorded))
    "Recording recovery needs an already-published selected output at the failed report"
  return recorded

/-- `RecordingResumed`: an expired publication pause records its conclusion. -/
def resumeRecording (cas : Cas) (S : TaskState) (revisionId planId reportId : String)
    (time : ℕ) : Except StoreError TaskState := do
  let recovery ← S.validateRecordingResume cas revisionId planId reportId time
  let _ ← S.checkPlanDecision cas time
  return { S with
    recordingRecovery := some recovery
    resumePhase := none
    phase := .running }

/-- `has_recording_recovery`: of the current revision and plan. -/
def hasRecordingRecovery (S : TaskState) : Bool :=
  match S.recordingRecovery with
  | some r => r.revisionId = S.revisionId && some r.planId = S.planId
  | none => false

/-- The Snapshot of a singular source tree. -/
def sourceSnapshot (ports : OrdMap String ArtifactInput) (name : String) : Option String :=
  ((ports.get name).filter fun v =>
    v.artifactType = "af/SourceTree@1" && v.artifactIds.length = 1).bind ArtifactInput.snapshotId

/-- A delivery follows the last one of its result: prepared, then concluded. -/
def checkDeliveryOrder (cas : Cas) (S : TaskState) (value : DeliveryRecord) :
    Except StoreError Unit :=
  match S.deliveries.reverse.find? fun d => d.2.resultId = value.resultId, value.status with
  | none, .prepared => .ok ()
  | some (_, previous), .prepared =>
    requireConflict (previous.status = .failed)
      "Delivery transition has no matching prepared operation"
  | some (_, previous), _ =>
    if previous.status = .prepared && previous.targetId = value.targetId then do
      let same ← cas.sameDelivery value.receiptId previous.receiptId
      requireConflict same "Delivery terminal receipt changed prepared operation"
    else .error (.conflict "Delivery transition has no matching prepared operation")
  | none, _ => .error (.conflict "Delivery transition has no matching prepared operation")

/-- `apply_delivery`. -/
def applyDelivery (cas : Cas) (S : TaskState) (id : String) : Except StoreError TaskState := do
  let value ← cas.deliveryRecord id
  match S.phase with
  | .finished resultId =>
    let result ← cas.taskResult resultId
    cas.optimizationDelivery S result
    requireConflict (result.acceptance = .satisfied && value.taskId = S.taskId &&
      value.resultId = resultId &&
      sourceSnapshot S.revision.inputs "source" = some value.sourceSnapshotId &&
      sourceSnapshot result.outputs "snapshot" = some value.derivedSnapshotId)
      "Delivery differs from the exact verified Task result"
    cas.deliveryEvidence S id value
    S.checkDeliveryOrder cas value
    return { S with deliveries := S.deliveries ++ [(id, value)] }
  | _ => throw (.conflict "Delivery requires a finished Task")

/-- `AdoptionObservationRecorded`: never twice. -/
def recordAdoption (cas : Cas) (S : TaskState) (id : String) : Except StoreError TaskState := do
  let value ← cas.adoptionObservation id
  requireConflict (!S.adoptionObservations.any fun o => o.1 = id || o.2 = value)
    "Duplicate adoption observation"
  return { S with adoptionObservations := S.adoptionObservations ++ [(id, value)] }

/-! ## Plans -/

/-- `PlanProposed`. -/
def proposePlan (cas : Cas) (S : TaskState) (planId : String) : Except StoreError TaskState := do
  requireConflict (!S.admitted && S.execution.isNone) "Cannot replace an executing Task plan"
  let plan ← S.plan cas planId
  return { S with phase := proposedPhase plan, planId := some planId, resumePhase := none }

/-- `PlanDecided`: one decision for each plan. -/
def decidePlan (cas : Cas) (S : TaskState) (event : RunEvent) (decisionId : String)
    (validUntilUnixMs : ℕ) : Except StoreError TaskState := do
  let decision ← cas.planDecision decisionId
  requireConflict (!S.admitted && S.planId = some decision.planId &&
    decision.taskRevisionId = S.revisionId && decision.policyId = S.revision.authority.policyId &&
    !S.decisions.contains decision.planId) "Developer decision is stale, duplicated or mismatched"
  return { S with decisions := S.decisions.insert decision.planId {
    artifactId := decisionId
    value := decision
    validUntil := validUntilUnixMs
    event := event } }

/-- `ApprovalRevoked`: a revoked current plan is no longer admitted. -/
def revokeApproval (cas : Cas) (S : TaskState) (event : RunEvent)
    (decisionId reason revocationId : String) : Except StoreError TaskState := do
  let (key, decision) ← orConflict "Unknown Task approval"
    (S.decisions.entries.find? fun e => e.2.artifactId = decisionId)
  let revocation ← cas.planDecision revocationId
  requireConflict (revocation.decision = .rejected && revocation.taskRevisionId = S.revisionId &&
    revocation.planId = decision.value.planId &&
    revocation.policyId = S.revision.authority.policyId && revocation.reason = reason)
    "Revocation proof changed its exact plan, Task, authority or reason"
  let S := { S with decisions :=
    S.decisions.insert key { decision with revocation := some (revocation, event) } }
  return if S.planId = some decision.value.planId then
      { S with admitted := false, phase := .waiting .needsPlanReview, resumePhase := none }
    else S

/-- `PlanAdmitted`: the first admission starts the Task's clock. -/
def admitPlan (cas : Cas) (S : TaskState) (planId : String) (time : ℕ) :
    Except StoreError TaskState := do
  requireConflict (S.phase = .ready || S.phase = .waiting .needsPlanReview)
    "Task plan admission cannot bypass another pause or restart running work"
  requireConflict (S.planId = some planId) "Task plan admission is stale"
  S.checkApproval cas time
  return { S with
    admitted := true
    clockStartedUnixMs := some (S.clockStartedUnixMs.getD time)
    phase := .running
    resumePhase := none }

/-- `Waiting`: an ordinary pause remembers what it interrupted. -/
def pause (S : TaskState) (reason : TaskWaitingReason) : Except StoreError TaskState := do
  requireConflict S.resumePhase.isNone "Task is already waiting"
  requireConflict (reason ≠ .needsPlanReview) "Plan waiting is derived from a persisted proposal"
  return { S with resumePhase := some S.phase, phase := .waiting reason }

/-- An admitted plan's approval still holds. -/
def checkAdmitted (cas : Cas) (S : TaskState) (time : ℕ) : Except StoreError Unit :=
  if S.admitted then S.checkApproval cas time else .ok ()

/-- `Resumed`. -/
def resume (cas : Cas) (S : TaskState) (time : ℕ) : Except StoreError TaskState := do
  let prior ← orConflict "Task has no resumable pause" S.resumePhase
  S.checkAdmitted cas time
  return { S with resumePhase := none, phase := prior }

/-! ## Finishing -/

/-- The public outputs an execution published. -/
def publishedOutputs (E : TaskExecutionProjection) : OrdMap String ArtifactInput :=
  .ofList (E.graph.outputs.entries.filterMap fun (name, address) =>
    (E.publishedPort address).map fun value => (name, value))

/-- The evidence the graph's coverage published. -/
def coverageEvidence (E : TaskExecutionProjection) : Finset String :=
  ((E.graph.coverage.values.filterMap E.publishedPort).flatMap ArtifactInput.artifactIds).toFinset

/-- The evidence of a finished execution, with its Integration's. -/
def expectedEvidence (E : TaskExecutionProjection) (result : TaskResult) :
    Except StoreError (Finset String) :=
  match E.activeIntegration with
  | some integration => do
    requireConflict integration.finished
      "Task must seal its activated Integration before finishing"
    return coverageEvidence E ∪ {integration.id} ∪ integration.reportId.toFinset ∪
      ((E.outputs.get integration.node).map Prod.fst).toFinset
  | none => do
    requireConflict (!(E.graph.reviewIntegration.isSome && result.acceptance = .satisfied))
      "Task acceptance requires the captured Integration disposition"
    return coverageEvidence E

/-- A result retains what its execution published and what its budget lost. -/
def checkExecuted (cas : Cas) (S : TaskState) (result : TaskResult)
    (E : TaskExecutionProjection) : Except StoreError Unit := do
  requireConflict (!(E.budget.breached &&
    (result.execution ≠ .exhausted || result.acceptance = .satisfied)))
    "Task result predates its committed resource exhaustion"
  let evidence ← expectedEvidence E result
  let outputs := publishedOutputs E
  let refined ← if result.outputs = outputs then pure true
    else cas.exactOptimizationResult S.taskId outputs result.outputs
  requireConflict (refined && result.evidence = evidence)
    "Task result does not retain its exact admitted public outputs and evidence"

/-- One required output of a satisfied Task. -/
def checkRequired (result : TaskResult) (entry : String × RequiredOutput) :
    Except StoreError Unit := do
  let (name, required) := entry
  let output ← orConflict ("Task result is missing " ++ name) (result.outputs.get name)
  requireConflict (output.artifactType = required.artifactType &&
    output.cardinality = required.cardinality && !output.artifactIds.isEmpty)
    ("Task result has incompatible output " ++ name)

/-- What only a satisfied result must show. -/
def checkSatisfied (cas : Cas) (S : TaskState) (result : TaskResult) : Except StoreError Unit := do
  let planId ← orConflict "Task has no plan" S.planId
  let current ← S.plan cas planId
  requireConflict (!current.preparation) "Planning cannot satisfy business Task acceptance"
  requireConflict S.admitted "Unadmitted Task cannot satisfy acceptance"
  S.revision.requiredOutputs.entries.forM (checkRequired result)

/-- `Finished`: nothing is pending and the result is the execution's own. -/
def finish (cas : Cas) (S : TaskState) (resultId : String) : Except StoreError TaskState := do
  requireConflict S.quiescent
    "Task must settle or release every pending Attempt before finishing"
  let result ← cas.taskResult resultId
  requireConflict (!(result.acceptance = .satisfied && S.phase.isWaiting))
    "A waiting Task cannot claim satisfied acceptance"
  requireConflict (!(result.acceptance = .satisfied && S.hasRecordingRecovery))
    "A recording-only Task cannot claim satisfied acceptance"
  match S.execution with
  | some E => S.checkExecuted cas result E
  | none => pure ()
  requireConflict (result.taskRevisionId = S.revisionId) "Task result is stale"
  if result.acceptance = .satisfied then
    S.checkSatisfied cas result
  return { S with phase := .finished resultId }

/-! ## Transitions -/

/-- The changes a finished Task still accepts. -/
def accountingAfterFinish (cas : Cas) : TaskChange → Except StoreError Bool
  | .leaseTaken _ | .leaseRenewed _ | .leaseReleased | .deliveryRecorded _
  | .adoptionObservationRecorded _ | .gateCleanup _ | .storageSweep _
  | .sourceRefreshed _ _ _ => .ok true
  | .executionRecorded recordId => do
    let record ← cas.executionRecord recordId
    return record.isUsageObserved
  | _ => .ok false

/-- `LeaseTaken`: the next epoch, once the lease in force expired. -/
def takeLease (S : TaskState) (t : TaskTransition) (leaseUntilUnixMs : ℕ) :
    Except StoreError TaskState := do
  requireConflict (S.leaseUntil ≤ t.nowUnixMs && S.epoch + 1 < u64Bound && t.epoch = S.epoch + 1)
    "Task lease takeover is premature or has a stale epoch"
  return { S with
    previousWriter := (S.lastTime, S.leaseUntil)
    writer := t.writer
    epoch := t.epoch
    leaseUntil := leaseUntilUnixMs }

/-- `LeaseRenewed`. -/
def renewLease (S : TaskState) (leaseUntilUnixMs : ℕ) : Except StoreError TaskState := do
  requireConflict (S.leaseUntil < leaseUntilUnixMs) "Task lease renewal must advance expiry"
  return { S with leaseUntil := leaseUntilUnixMs }

/-- `LeaseReleased`: the lease ends now. -/
def releaseLease (S : TaskState) (time : ℕ) : Except StoreError TaskState := do
  requireConflict S.quiescent "Cannot release a Task lease with pending Attempts"
  return { S with leaseUntil := time }

/-- One change of the current writer. -/
def applyChange (cas : Cas) (S : TaskState) (event : RunEvent) (change : TaskChange)
    (time : ℕ) : Except StoreError TaskState :=
  match change with
  | .reviewIntegrationSelected phaseId => S.selectIntegration cas phaseId time
  | .reviewIntegrationFinished phaseId reportId committedEventId =>
    S.finishIntegration cas phaseId reportId committedEventId time
  | .reviewContinued handoffId => S.applyReviewHandoff cas handoffId time
  | .sourceRefreshed revisionId planId waiting =>
    S.applySourceRefreshed cas revisionId planId waiting time
  | .deliveryRecorded recordId => S.applyDelivery cas recordId
  | .adoptionObservationRecorded observationId => S.recordAdoption cas observationId
  | .executionRecorded recordId => S.applyExecution cas recordId time
  | .runReported reportId => S.applyRunReport cas reportId
  | .opened _ _ | .leaseTaken _ => .error (.conflict "Task already exists")
  | .gateCleanup cleanup => do
    cas.gateCleanup S.taskId cleanup
    return { S with gateCleanups := S.gateCleanups ++ [cleanup] }
  | .storageSweep sweep => do
    cas.storageSweep sweep
    return { S with storageSweeps := S.storageSweeps ++ [sweep] }
  | .taskCollected collected => .error (.collected collected.taskId collected.collectedUnixMs)
  | .leaseRenewed leaseUntilUnixMs => S.renewLease leaseUntilUnixMs
  | .leaseReleased => S.releaseLease time
  | .planProposed planId => S.proposePlan cas planId
  | .planningCompleted bootstrapPlanId proposalId revisionId planId =>
    S.applyPlanningCompleted cas bootstrapPlanId proposalId revisionId planId time
  | .planDecided decisionId validUntilUnixMs => S.decidePlan cas event decisionId validUntilUnixMs
  | .approvalRevoked decisionId reason revocationId =>
    S.revokeApproval cas event decisionId reason revocationId
  | .planAdmitted planId => S.admitPlan cas planId time
  | .waiting reason => S.pause reason
  | .resumed => S.resume cas time
  | .recordingResumed revisionId planId reportId =>
    S.resumeRecording cas revisionId planId reportId time
  | .finished resultId => S.finish cas resultId

/-- A takeover, or a change under the lease in force. -/
def applyLeased (cas : Cas) (S : TaskState) (event : RunEvent) (t : TaskTransition) :
    Except StoreError TaskState :=
  match t.change with
  | .leaseTaken leaseUntilUnixMs => S.takeLease t leaseUntilUnixMs
  | change => do
    S.checkLease t
    S.applyChange cas event change (S.writerTime t)

/-- The event counted: the time it is recorded at and the next sequence. -/
def recorded (S : TaskState) (event : RunEvent) (time : ℕ) : TaskState :=
  { S with lastTime := time, nextSequence := event.sequence + 1 }

/-- `TaskProjection::apply`. -/
def apply (cas : Cas) (S : TaskState) (event : RunEvent) (t : TaskTransition) :
    Except StoreError TaskState := do
  requireConflict (event.sequence = S.nextSequence) "Task event sequence has a gap or duplicate"
  let accounting ← accountingAfterFinish cas t.change
  requireConflict (!(S.writerTime t < S.lastTime || (S.phase.isFinished && !accounting)))
    "Task is finished or its policy clock moved backwards"
  let S' ← S.applyLeased cas event t
  return S'.recorded event (S.writerTime t)

/-! ## Markers, Provider events and gate retries -/

/-- `apply_execution_started`: a lease begins execution once. -/
def applyExecutionStarted (S : TaskState) (event : RunEvent) (marker : ExecutionStarted) :
    Except StoreError TaskState := do
  requireConflict (event.sequence = S.nextSequence) "Task event sequence has a gap or duplicate"
  requireConflict event.artifactRefs.isEmpty "An execution marker references no artifact"
  let time := S.leaseTime marker.writer marker.epoch marker.nowUnixMs
  requireConflict (S.lastTime ≤ time) "Task is finished or its policy clock moved backwards"
  requireConflict (!S.phase.isFinished)
    "A finished Task begins no execution: its execution marker is refused"
  S.checkLeaseOf marker.writer marker.epoch marker.nowUnixMs
  requireConflict (marker.epoch ∉ S.executionEpochs) "A lease begins its execution once"
  return { S with executionEpochs := insert marker.epoch S.executionEpochs }.recorded event time

/-- Whether the Attempt is started, unsettled and of the node. -/
def attemptRunning (S : TaskState) (attemptId : AttemptId) (node : String) : Bool :=
  match S.execution.bind fun E => E.attempts.get attemptId with
  | some a => a.started && a.settledUnixMs.isNone && !a.released && a.reservation.node = node
  | none => false

/-- `apply_provider_event`. -/
def applyProviderEvent (S : TaskState) (event : RunEvent) (value : ProviderEvent) :
    Except StoreError TaskState := do
  requireConflict (event.sequence = S.nextSequence) "Task event sequence has a gap or duplicate"
  requireConflict event.artifactRefs.isEmpty "A Provider event references no artifact"
  let time := S.leaseTime value.writer value.epoch value.nowUnixMs
  requireConflict (S.lastTime ≤ time && !S.phase.isFinished)
    "Task is finished or its policy clock moved backwards"
  S.checkLeaseOf value.writer value.epoch value.nowUnixMs
  requireConflict (S.attemptRunning value.attemptId value.node)
    "A Provider event names a started, unsettled Attempt of its node"
  return { S with providerEvents := S.providerEvents ++ [value] }.recorded event time

/-- The check nodes a gate retry runs again, or why there are none. -/
inductive GateRetry where
  | gates (nodes : List String)
  | refused (why : String)
  deriving DecidableEq, Repr

/-- Whether a check's published receipt did not pass. -/
def gateFailed (cas : Cas) (E : TaskExecutionProjection) (node : String) :
    Except StoreError Bool :=
  match E.graph.nodes.get node with
  | none => .ok false
  | some definition =>
    if definition.operator.isCheck then
      match (E.publishedPort ⟨node, "result"⟩).bind fun port => port.artifactIds.head? with
      | none => .ok false
      | some receipt => do
        let passed ← cas.checkPassed receipt
        return !passed
    else .ok false

/-- The failed checks, in graph order. -/
def failedChecks (cas : Cas) (E : TaskExecutionProjection) : Except StoreError (List String) :=
  E.graph.order.filterM fun node => gateFailed cas E node

/-- The paid nodes that neither feed nor follow a gate. -/
def besideGate (G : CompiledTask) (gate : String) : List String :=
  G.order.filter fun node => node ≠ gate && !(G.downstreamOf gate).contains node &&
    !(G.downstreamOf node).contains gate

/-- Why one gate cannot be retried, if it cannot. -/
def gateRefusal (E : TaskExecutionProjection) (gate : String) : Option String :=
  let after := E.graph.downstreamOf gate
  if E.attemptsOf after then
    some ("a reviewer or evaluator ran after its failed gate, so its last failure was not the " ++
      "gate's alone; --retry-gate runs only a failed check again")
  else if E.failedAttemptsOf (besideGate E.graph gate) then
    some ("a paid node ran beside its failed gate, so its last failure was not the gate's " ++
      "alone; --retry-gate runs only a failed check again")
  else if (after ++ [gate]).any (fun node => E.graph.ownedChildren.contains node ||
      E.graph.experimentalSlots.contains node || E.owned.contains node) ||
      E.activeIntegration.isSome then
    some ("its gate is followed by owned children, an experiment or an Integration, which " ++
      "--retry-gate does not reopen")
  else none

/-- One more Attempt for each gate. -/
def allowRetries (budget : TaskBudget) (gates : List String) : Except StoreError TaskBudget :=
  gates.foldlM (fun budget gate => do
    let (_, budget) ← budgetReply (budget.allowRetry gate)
    return budget) budget

/-- Prepare an Attempt of each gate on a copy of the budget; `refusal` says what a budget
that holds none answers. -/
def prepareRetries (refusal : String → TaskBudgetError → StoreError ⊕ String)
    (time : ℕ) : TaskBudget → List String → Except StoreError (Option String)
  | _, [] => .ok none
  | budget, gate :: gates =>
    match budget.prepare gate time with
    | none => .error .panicked
    | some (.ok _, budget) => prepareRetries refusal time budget gates
    | some (.error e, _) =>
      match refusal gate e with
      | .inl error => .error error
      | .inr why => .ok (some why)

/-- `retry_admission`: why a retry would not be admitted at this time. -/
def retryAdmission (cas : Cas) (S : TaskState) (E : TaskExecutionProjection)
    (gates : List String) (now : ℕ) : Except StoreError (Option String) := do
  if !S.admitted then
    return some "its plan is not admitted"
  let time := max now S.lastTime
  if (S.checkPlanDecision cas time).isOk then
    if S.deadlineAt time ≤ time then
      return some ("its deadline passed; plan it again with `af task plan --file TASK_FILE " ++
        "--fit`")
    let budget ← allowRetries E.budget gates
    prepareRetries (fun gate e => .inr ("the Task's limits leave no Attempt for " ++ gate ++
      " (" ++ e.message ++ "); plan it again with `af task plan --file TASK_FILE --fit`"))
      time budget gates
  else
    return some ("its plan approval expired or was revoked; plan it again with " ++
      "`af task plan --file TASK_FILE --fit`")

/-- The failed gates of an execution that only failed at its gates. -/
def executionGates (cas : Cas) (S : TaskState) (E : TaskExecutionProjection) (now : ℕ) :
    Except StoreError GateRetry := do
  let failed ← failedChecks cas E
  let gates := failed.filter fun node =>
    !failed.any fun other => (E.graph.downstreamOf other).contains node
  if gates.isEmpty then
    return .refused ("its checks passed, so its last failure was not a gate; --retry-gate runs " ++
      "only a failed check again")
  match gates.findSome? (gateRefusal E) with
  | some why => return .refused why
  | none =>
    if ← cas.capturesReviewRound S.revisionId S.revision then
      return .refused ("it runs a captured Campaign Review Round, which --retry-gate does not " ++
        "reopen")
    match ← S.retryAdmission cas E gates now with
    | some why => return .refused why
    | none => return .gates gates

/-- `failed_gates`. -/
def failedGates (cas : Cas) (S : TaskState) (now : ℕ) : Except StoreError GateRetry :=
  match S.phase with
  | .finished resultId => do
    let result ← cas.taskResult resultId
    if result.acceptance = .satisfied then
      return .refused "it was verified, so no gate failed"
    if !S.deliveries.isEmpty then
      return .refused "it was delivered"
    match S.execution with
    | none => return .refused "it never executed a gate"
    | some E => S.executionGates cas E now
  | _ => .ok (.refused "it has not finished; `af task run` continues it")

/-- Reopen the gates one after the other, each with one more Attempt. -/
def reopenGates (E : TaskExecutionProjection) (gates : List RetriedGate) :
    Except StoreError TaskExecutionProjection :=
  gates.foldlM (fun E gate => do
    let E := E.reopenGate gate.node
    let (_, budget) ← budgetReply (E.budget.allowRetry gate.node)
    return { E with budget := budget }) E

/-- The lease, the finished result and the failed gates a retry must name. -/
def checkGateRetry (cas : Cas) (S : TaskState) (retry : GateRetried) (time : ℕ) :
    Except StoreError Unit := do
  S.checkLeaseOf retry.writer retry.epoch retry.nowUnixMs
  requireConflict (S.phase = .finished retry.resultId)
    "A gate retry reopens exactly the finished result it names"
  requireConflict S.admitted "A gate retry needs an admitted plan"
  match ← S.failedGates cas time with
  | .gates gates =>
    requireConflict (gates = retry.gates.map RetriedGate.node)
      "A gate retry names other nodes than the Task's failed gates"
  | .refused why => throw (.conflict ("A gate retry is refused: " ++ why))
  S.checkApproval cas time

/-- The output a retry names is the gate's published one. -/
def checkRetriedOutput (E : TaskExecutionProjection) (gate : RetriedGate) :
    Except StoreError Unit :=
  requireConflict ((E.outputs.get gate.node).map Prod.fst = some gate.outputId)
    "A gate retry names another output than the gate's published one"

/-- `apply_gate_retried` but its reference memo. -/
def applyGateRetried (cas : Cas) (S : TaskState) (event : RunEvent) (retry : GateRetried) :
    Except StoreError TaskState := do
  requireConflict (event.sequence = S.nextSequence) "Task event sequence has a gap or duplicate"
  requireConflict (event.artifactRefs = retry.artifactRefs)
    "Task gate retry references disagree with its typed payload"
  let time := S.leaseTime retry.writer retry.epoch retry.nowUnixMs
  requireConflict (S.lastTime ≤ time) "Task is finished or its policy clock moved backwards"
  S.checkGateRetry cas retry time
  let E ← orConflict "A gate retry needs an execution" S.execution
  retry.gates.forM (checkRetriedOutput E)
  let E ← reopenGates E retry.gates
  -- a budget that no longer holds the checks refuses here, never a reopened Task
  let _ ← prepareRetries (fun gate e => .inl (.conflict
    ("the Task's limits leave no Attempt for " ++ gate ++ ": " ++ e.message)))
    time E.budget (retry.gates.map RetriedGate.node)
  return { S with
    execution := some E
    phase := .running
    gateRetries := S.gateRetries ++ [retry] }.recorded event time

/-! ## The log -/

/-- The genesis of a Task: its first revision under its first lease. -/
def genesis (taskId revisionId : String) (revision : TaskRevision) (t : TaskTransition)
    (leaseUntilUnixMs : ℕ) : TaskState where
  taskId := taskId
  revisionId := revisionId
  revision := revision
  nextSequence := 1
  writer := t.writer
  epoch := 1
  leaseUntil := leaseUntilUnixMs
  lastTime := t.nowUnixMs
  previousWriter := (t.nowUnixMs, leaseUntilUnixMs)
  openedUnixMs := t.nowUnixMs

/-- The next event of an opened Task. -/
def applyEvent (cas : Cas) (S : TaskState) (event : RunEvent) : Except StoreError TaskState :=
  match event.payload with
  | .transition t => S.apply cas event t
  | .executionStarted marker => S.applyExecutionStarted event marker
  | .gateRetried retry => S.applyGateRetried cas event retry
  | .providerEvent value => S.applyProviderEvent event value

/-- The first event of a log opens the Task. -/
def opening (cas : Cas) (taskId : String) (event : RunEvent) : Except StoreError TaskState :=
  match event.payload with
  | .transition t =>
    match t.change with
    | .opened revisionId leaseUntilUnixMs => do
      let revision ← cas.revision revisionId
      requireConflict (revision.taskId = taskId && revision.revision = 1 && event.sequence = 0 &&
        t.epoch = 1) "Invalid Task genesis"
      return genesis taskId revisionId revision t leaseUntilUnixMs
    | _ => .error (.conflict "Task transition precedes genesis")
  | .executionStarted _ => .error (.conflict "Task execution marker precedes genesis")
  | .gateRetried _ => .error (.conflict "Task gate retry precedes genesis")
  | .providerEvent _ => .error (.conflict "Task Provider event precedes genesis")

end TaskState

end Afactory
