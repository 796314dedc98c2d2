import Mathlib
import Afactory.Fencing
import Afactory.CompiledTask

/-!
# The records of a Task log

The data of `review-core/src/task/event.rs` and `execution.rs` and of the Store's
projection in `review-store/src/store/task.rs` and `task/execution.rs`: the
transitions and the other events of a Task log, the execution records, the
artifacts they name, and the state the log is folded into.

Artifacts are read through `Cas`: one lookup for each typed artifact, which stands
for reading the envelope, checking its type and validating its payload. A rule
that judges only the bytes of artifacts (ports, provenance, schemas) is a field of
`Cas` too; it accepts or refuses, and changes nothing. Each rule is given the
identities of what it judges, so that it may read any byte the source reads.
-/

namespace Afactory

/-- Why the Store refuses. -/
inductive StoreError where
  | conflict (message : String)
  | artifact (message : String)
  | danglingArtifact (digest : String)
  | collected (taskId : String) (collectedUnixMs : ℕ)
  /-- the call panicked: no answer and no state -/
  | panicked
  deriving DecidableEq, Repr

/-- Refuse with a conflict unless the condition holds. -/
def requireConflict (condition : Bool) (message : String) : Except StoreError Unit :=
  if condition then .ok () else .error (.conflict message)

theorem requireConflict_eq_ok {condition : Bool} {message : String} {u : Unit} :
    requireConflict condition message = .ok u ↔ condition = true := by
  unfold requireConflict
  by_cases h : condition
  · simp [h]
  · simp [h]

/-- The value, or a conflict. -/
def orConflict {α : Type} (message : String) : Option α → Except StoreError α
  | some a => .ok a
  | none => .error (.conflict message)

theorem orConflict_eq_ok {α : Type} {message : String} {o : Option α} {a : α} :
    orConflict message o = .ok a ↔ o = some a := by
  cases o <;> simp [orConflict]

/-- The value, or the stop of the whole call. -/
def orPanic {α : Type} : Option α → Except StoreError α
  | some a => .ok a
  | none => .error .panicked

theorem orPanic_eq_ok {α : Type} {o : Option α} {a : α} : orPanic o = .ok a ↔ o = some a := by
  cases o <;> simp [orPanic]

/-- `map_err(conflict)` of a text. -/
def textConflict {α : Type} : Except String α → Except StoreError α
  | .ok a => .ok a
  | .error message => .error (.conflict message)

theorem textConflict_eq_ok {α : Type} {x : Except String α} {a : α} :
    textConflict x = .ok a ↔ x = .ok a := by
  cases x <;> simp [textConflict]

/-- `map_err(conflict)` of a budget's own refusal. -/
def mapConflict {α : Type} : Except TaskBudgetError α → Except StoreError α
  | .ok a => .ok a
  | .error e => .error (.conflict e.message)

/-- `map_err(conflict)` of a budget operation: a refusal drops the budget it leaves
with the whole operation. -/
def budgetReply {α : Type} : BudgetReply α → Except StoreError (α × TaskBudget)
  | none => .error .panicked
  | some (.error e, _) => .error (.conflict e.message)
  | some (.ok a, B) => .ok (a, B)

theorem mapConflict_eq_ok {α : Type} {result : Except TaskBudgetError α} {a : α} :
    mapConflict result = .ok a ↔ result = .ok a := by
  cases result <;> simp [mapConflict]

theorem budgetReply_eq_ok {α : Type} {reply : BudgetReply α} {a : α} {B : TaskBudget} :
    budgetReply reply = .ok (a, B) ↔ reply = some (.ok a, B) := by
  rcases reply with _ | ⟨_ | _, _⟩ <;> simp [budgetReply]

/-- The members of a `BTreeSet`, in its order. -/
def sortedSet (values : List String) : List String :=
  (OrdMap.ofList (values.map fun v => (v, ()))).keys

/-! ## Revisions, plans, decisions and results -/

inductive TaskWaitingReason where
  | needsResources
  | needsInput
  | needsHuman
  | needsPlanReview
  deriving DecidableEq, Repr

inductive TaskPhase where
  | submitted
  | ready
  | running
  | waiting (reason : TaskWaitingReason)
  | finished (resultId : String)
  deriving DecidableEq, Repr

def TaskPhase.isFinished : TaskPhase → Bool
  | .finished _ => true
  | _ => false

def TaskPhase.isWaiting : TaskPhase → Bool
  | .waiting _ => true
  | _ => false

inductive TaskAcceptance where
  | satisfied
  | unsatisfied
  | inconclusive
  deriving DecidableEq, Repr

/-- `TaskExecutionV1`: how far a finished Task ran. -/
inductive TaskCompletion where
  | completed
  | incomplete
  | exhausted
  deriving DecidableEq, Repr

structure TaskAuthority where
  policyId : String
  allowedEffects : List String := []
  dataDestinations : List String := []
  deriving DecidableEq, Repr

structure RequiredOutput where
  artifactType : String
  cardinality : PortCardinality
  deriving DecidableEq, Repr

/-- The parts of `TaskRevisionV1` that the projection compares. -/
structure TaskRevision where
  taskId : String
  revision : ℕ
  previousRevisionId : Option String := none
  kind : String
  goal : String := ""
  inputs : OrdMap String ArtifactInput := .empty
  requiredOutputs : OrdMap String RequiredOutput := .empty
  /-- the evidence type of every obligation -/
  acceptance : OrdMap String String := .empty
  authority : TaskAuthority
  limits : TaskLimits
  deriving DecidableEq

structure GeneratedOrigin where
  pipelineId : String
  proposalId : String
  bootstrapPlanId : String
  deriving DecidableEq, Repr

/-- The parts of `ExecutionPlanV3` that the projection compares. -/
structure ExecutionPlan where
  preparation : Bool := false
  taskRevisionId : String
  pipelineId : String
  compiledGraphId : String
  authority : TaskAuthority
  limits : TaskLimits
  inputs : OrdMap String ArtifactInput := .empty
  generatedOrigins : List GeneratedOrigin := []
  /-- the evidence producers of every obligation -/
  acceptance : OrdMap String (List String) := .empty
  deriving DecidableEq

def ExecutionPlan.requiresDeveloperApproval (plan : ExecutionPlan) : Bool :=
  !plan.generatedOrigins.isEmpty

inductive PlanDecisionKind where
  | approved
  | rejected
  deriving DecidableEq, Repr

structure PlanDecision where
  taskRevisionId : String
  planId : String
  policyId : String
  developer : String
  authorizationId : String
  decision : PlanDecisionKind
  reason : String
  deriving DecidableEq, Repr

/-- `approves`: structural matching only. -/
def PlanDecision.approves (d : PlanDecision) (planId : String) (plan : ExecutionPlan) : Bool :=
  d.decision = .approved && d.planId = planId && d.taskRevisionId = plan.taskRevisionId &&
    d.policyId = plan.authority.policyId

structure TaskResult where
  taskRevisionId : String
  execution : TaskCompletion
  acceptance : TaskAcceptance
  outputs : OrdMap String ArtifactInput := .empty
  evidence : Finset String := ∅
  deriving DecidableEq

/-! ## Invocations, outputs and execution records -/

structure TaskInvocation where
  planId : String
  node : String
  inputs : OrdMap String ArtifactInput := .empty
  deriving DecidableEq

structure TaskOutput where
  invocationId : String
  outputs : OrdMap String ArtifactInput := .empty
  deriving DecidableEq

inductive TaskAttemptResult where
  | succeeded (outputId : String)
  | failed (diagnosticId : String) (feedbackId : Option String)
  | abandoned (diagnosticId : String)
  deriving DecidableEq, Repr

def TaskAttemptResult.isSucceeded : TaskAttemptResult → Bool
  | .succeeded _ => true
  | _ => false

def TaskAttemptResult.isAbandoned : TaskAttemptResult → Bool
  | .abandoned _ => true
  | _ => false

inductive UnknownUsageCause where
  | capacity
  | rateLimit
  | authentication
  | modelUnavailable
  | network
  | leaseExpired
  | interrupted
  | unreported
  deriving DecidableEq, Repr

/-- The fields of a `Settled` record. -/
structure TaskSettlement where
  attemptId : String
  chargedTokens : ℕ
  result : TaskAttemptResult
  rawArtifactIds : List String := []
  usageId : Option String := none
  unknownUsage : Option UnknownUsageCause := none
  deriving DecidableEq, Repr

/-- The fields of a `Reserved` record. -/
structure ReservedRecord where
  invocationId : String
  attemptId : String
  reservationId : String
  reservedTokens : ℕ
  deadlineUnixMs : ℕ
  feedbackIds : List String := []
  deriving DecidableEq, Repr

/-- `TaskExecutionRecordV1`. -/
inductive ExecutionRecord where
  | invocation (invocationId : String)
  | reserved (r : ReservedRecord)
  | contextBound (attemptId contextId : String)
  | started (attemptId : String)
  | released (attemptId reason : String)
  | settled (s : TaskSettlement)
  | published (outputId : String) (attemptId : Option String)
  | usageObserved (attemptId : String) (chargedTokens : ℕ) (usageId : String)
      (rawArtifactIds : List String)
  | ownedChildrenRegistered (childSetId : String)
  | ownedChildPublished (childSetId outputId attemptId : String)
  | ownedChildrenCompleted (childSetId outputId : String)
  | experimentPrepared (preparedId : String)
  | experimentPlanDecided (preparedId decisionId : String)
  | experimentChildrenRegistered (preparedId decisionId childPlanId : String)
  deriving DecidableEq, Repr

namespace ExecutionRecord

/-- The records that dispatch or publish ordinary work. -/
def dispatching : ExecutionRecord → Bool
  | .invocation _ | .reserved _ | .contextBound _ _ | .started _ | .published _ _ => true
  | _ => false

/-- `is_owned_record`. -/
def isOwned : ExecutionRecord → Bool
  | .ownedChildrenRegistered _ | .ownedChildPublished _ _ _ | .ownedChildrenCompleted _ _ => true
  | _ => false

def isUsageObserved : ExecutionRecord → Bool
  | .usageObserved _ _ _ _ => true
  | _ => false

end ExecutionRecord

/-- A native usage report, with the Attempt that produced it. -/
structure UsageObservation where
  runId : String
  node : String
  attemptId : String
  inputArtifacts : List String
  subjectSnapshotId : Option String := none
  /-- the chargeable tokens of the reported counters -/
  reportedUsage : Option ℕ
  chargeComplete : Bool
  deriving DecidableEq, Repr

/-! ## Owned children, experiments and Integrations -/

structure OwnedChild where
  node : String
  sourceItemId : String
  invocationId : String
  deriving DecidableEq, Repr

structure OwnedChildSet where
  planId : String
  parentInvocationId : String
  sourceArtifactId : String
  children : List OwnedChild
  deriving DecidableEq, Repr

/-- The envelope of a source item. -/
structure OwnedItem where
  artifactType : String
  inputArtifacts : List String
  subjectSnapshotId : Option String := none
  deriving DecidableEq, Repr

structure RecordedChildren where
  id : String
  set : OwnedChildSet
  parentNode : String
  invocations : OrdMap String TaskInvocation
  /-- the output and the Attempt of every published child -/
  published : OrdMap String (String × String) := .empty
  completed : Option String := none
  deriving DecidableEq

structure ExperimentPrepared where
  taskRevisionId : String
  outerPlanId : String
  slotId : String
  specificationId : String
  compiledChildPlanId : String
  policyId : String
  deriving DecidableEq, Repr

structure ExperimentPlanDecision where
  preparedId : String
  taskRevisionId : String
  outerPlanId : String
  slotId : String
  specificationId : String
  compiledChildPlanId : String
  policyId : String
  decision : PlanDecisionKind
  expiresUnixMs : ℕ
  deriving DecidableEq, Repr

structure ExperimentPlannedChild where
  definition : CompiledNode
  invocation : TaskInvocation
  allowance : NodeAllowance
  deriving DecidableEq

structure ExperimentExecutionPlan where
  parentNode : String
  children : OrdMap String ExperimentPlannedChild
  deriving DecidableEq

structure RecordedExperiment where
  prepared : ExperimentPrepared
  parentNode : String
  decision : Option (String × ExperimentPlanDecision) := none
  childPlan : Option ExperimentExecutionPlan := none
  deriving DecidableEq

inductive IntegrationSelection where
  | empty
  | conflict
  | prepared (integrationPlanId derivedSnapshotId : String)
  deriving DecidableEq, Repr

structure ReviewIntegrationPhase where
  taskId : String
  taskRevisionId : String
  planId : String
  roundId : String
  closingReportEventId : String
  selection : IntegrationSelection
  deriving DecidableEq, Repr

structure RegisteredReviewIntegration where
  id : String
  phase : ReviewIntegrationPhase
  compiled : CompiledReviewIntegration
  reportId : Option String := none
  committedEventId : Option String := none
  deriving DecidableEq, Repr

namespace RegisteredReviewIntegration

def node (r : RegisteredReviewIntegration) : String := r.compiled.node

def requiresChecks (r : RegisteredReviewIntegration) : Bool :=
  match r.phase.selection with
  | .prepared _ _ => true
  | _ => false

def finished (r : RegisteredReviewIntegration) : Bool := !r.requiresChecks || r.reportId.isSome

end RegisteredReviewIntegration

inductive ReviewHandoffEvidence where
  | integratedRound (reportEventId phaseId integrationCommittedEventId : String)
  | closedRound (reportEventId : String)
  | supersededInput (supersededEventId : String)
  deriving DecidableEq, Repr

structure ReviewHandoff where
  taskId : String
  predecessorRevisionId : String
  predecessorPlanId : String
  successorRevisionId : String
  successorPlanId : String
  predecessorRoundId : String
  successorRoundId : String
  evidence : ReviewHandoffEvidence
  deriving DecidableEq, Repr

/-! ## Reports, deliveries and observations -/

inductive TaskFailureClass where
  | execution
  | resources
  | domainPublication
  deriving DecidableEq, Repr

inductive TaskSuppression where
  | branchNotSelected
  | upstreamMissing
  deriving DecidableEq, Repr

inductive TaskNodeOutcome where
  | completed (outputId : String)
  | failed (diagnosticId : String) (cls : TaskFailureClass)
  | suppressed (reason : TaskSuppression)
  deriving DecidableEq, Repr

structure TaskRunReport where
  taskRevisionId : String
  planId : String
  throughSequence : ℕ
  phaseId : Option String := none
  nodes : List (String × TaskNodeOutcome)
  deriving DecidableEq, Repr

inductive DeliveryStatus where
  | prepared
  | delivered
  | failed
  deriving DecidableEq, Repr

structure DeliveryRecord where
  taskId : String
  resultId : String
  sourceSnapshotId : String
  derivedSnapshotId : String
  targetId : String
  receiptId : String
  status : DeliveryStatus
  deriving DecidableEq, Repr

structure AdoptionObservation where
  adoptionReceiptId : String
  commitSnapshotId : String
  workloadId : String
  modelId : String
  engineId : String
  environmentId : String
  deriving DecidableEq, Repr

/-- An attempt to remove a Task's gate pull requests; only its rule reads the payload. -/
structure TaskGateCleanup where
  payload : String
  deriving DecidableEq, Repr

/-- What a Storage Budget sweep removed; only its rule reads the payload. -/
structure TaskStorageSweep where
  payload : String
  deriving DecidableEq, Repr

structure TaskCollected where
  taskId : String
  collectedUnixMs : ℕ
  deriving DecidableEq, Repr

/-! ## The events of a Task log -/

/-- `TaskChangeV1`. -/
inductive TaskChange where
  | recordingResumed (taskRevisionId planId reportId : String)
  | reviewIntegrationSelected (phaseId : String)
  | reviewIntegrationFinished (phaseId reportId : String)
      (integrationCommittedEventId : Option String)
  | reviewContinued (handoffId : String)
  | adoptionObservationRecorded (observationId : String)
  | opened (revisionId : String) (leaseUntilUnixMs : ℕ)
  | leaseTaken (leaseUntilUnixMs : ℕ)
  | leaseRenewed (leaseUntilUnixMs : ℕ)
  | leaseReleased
  | sourceRefreshed (revisionId : String) (planId : Option String)
      (waiting : Option TaskWaitingReason)
  | planProposed (planId : String)
  | planningCompleted (bootstrapPlanId proposalId revisionId planId : String)
  | planDecided (decisionId : String) (validUntilUnixMs : ℕ)
  | approvalRevoked (decisionId reason revocationId : String)
  | planAdmitted (planId : String)
  | waiting (reason : TaskWaitingReason)
  | resumed
  | finished (resultId : String)
  | executionRecorded (recordId : String)
  | runReported (reportId : String)
  | deliveryRecorded (recordId : String)
  | taskCollected (collected : TaskCollected)
  | gateCleanup (cleanup : TaskGateCleanup)
  | storageSweep (sweep : TaskStorageSweep)
  deriving DecidableEq, Repr

/-- `TaskTransitionV1`: who writes, under which lease, when, and what changes. -/
structure TaskTransition where
  writer : String
  epoch : ℕ
  nowUnixMs : ℕ
  change : TaskChange
  deriving DecidableEq, Repr

/-- `TaskExecutionStartedV1`: a lease began kernel execution. -/
structure ExecutionStarted where
  writer : String
  epoch : ℕ
  nowUnixMs : ℕ
  deriving DecidableEq, Repr

structure RetriedGate where
  node : String
  outputId : String
  deriving DecidableEq, Repr

/-- `TaskGateRetriedV1`: a finished Task reopened at its failed gates. -/
structure GateRetried where
  writer : String
  epoch : ℕ
  nowUnixMs : ℕ
  resultId : String
  gates : List RetriedGate
  deriving DecidableEq, Repr

/-- The result a retry reopens and the superseded outputs of its gates. -/
def GateRetried.artifactRefs (retry : GateRetried) : List String :=
  sortedSet (retry.resultId :: retry.gates.map RetriedGate.outputId)

/-- `TaskProviderEventV1`: what a started Attempt did about its Provider. -/
structure ProviderEvent where
  writer : String
  epoch : ℕ
  nowUnixMs : ℕ
  attemptId : String
  node : String
  payload : String := ""
  deriving DecidableEq, Repr

/-- The four event kinds of a Task log. -/
inductive TaskPayload where
  | transition (t : TaskTransition)
  | executionStarted (marker : ExecutionStarted)
  | gateRetried (retry : GateRetried)
  | providerEvent (value : ProviderEvent)
  deriving DecidableEq, Repr

/-- `RunEvent`, as the Task log stores it: no Task event names a node, an Attempt, a
cause or a correlation. -/
structure RunEvent where
  runId : String
  eventId : String
  sequence : ℕ
  occurredAt : String
  artifactRefs : List String
  payload : TaskPayload
  deriving DecidableEq, Repr

/-! ## The state a log is folded into -/

/-- Why an Attempt was abandoned, read from the writer that settled it. -/
inductive TaskAbandonCause where
  | writerLost
  | hostCancelled
  deriving DecidableEq, Repr

/-- One Attempt of a Task, from its reservation on. -/
structure RecordedAttempt where
  invocationId : String
  planId : String
  reservation : TaskReservation
  preparedEpoch : ℕ
  contextId : Option String := none
  feedbackIds : List String := []
  started : Bool := false
  startedUnixMs : Option ℕ := none
  settledUnixMs : Option ℕ := none
  released : Bool := false
  settlement : Option TaskSettlement := none
  usageObserved : Bool := false
  abandoned : Option TaskAbandonCause := none
  abandonedUnixMs : Option ℕ := none
  deriving DecidableEq, Repr

namespace RecordedAttempt

/-- Neither released nor settled. -/
def pending (a : RecordedAttempt) : Bool := !a.released && a.settlement.isNone

/-- The output of a successful settlement. -/
def succeededOutput (a : RecordedAttempt) : Option String :=
  match a.settlement with
  | some { result := .succeeded outputId, .. } => some outputId
  | _ => none

/-- The retry feedback of a failed settlement. -/
def feedback (a : RecordedAttempt) : Option String :=
  match a.settlement with
  | some { result := .failed _ feedbackId, .. } => feedbackId
  | _ => none

end RecordedAttempt

/-- What one Task executed: its graph, its budget, the invocations and outputs of
the graph, and every Attempt with the ledger that fences them. -/
structure TaskExecutionProjection where
  graph : CompiledTask
  budget : TaskBudget
  invocations : OrdMap String (String × TaskInvocation) := .empty
  outputs : OrdMap String (String × TaskOutput) := .empty
  ledger : AttemptLedger
  attempts : OrdMap AttemptId RecordedAttempt := .empty
  owned : OrdMap String RecordedChildren := .empty
  experiments : OrdMap String RecordedExperiment := .empty
  reviewIntegrations : OrdMap String RegisteredReviewIntegration := .empty
  activeReviewIntegration : Option String := none
  /-- Attempts whose selected output a gate retry superseded -/
  retired : Finset AttemptId := ∅
  deriving DecidableEq

/-- A developer's decision on a plan, with the event that recorded it. -/
structure Decision where
  artifactId : String
  value : PlanDecision
  validUntil : ℕ
  revocation : Option (PlanDecision × RunEvent) := none
  event : RunEvent
  deriving DecidableEq

/-- The published outputs at a failed report. -/
structure RecordingRecovery where
  revisionId : String
  planId : String
  reportId : String
  outputs : OrdMap String String
  deriving DecidableEq

structure TaskPlanningProof where
  revisionId : String
  bootstrapPlanId : String
  proposalId : String
  deriving DecidableEq, Repr

/-- Every field of `TaskProjection` but its reference memo. -/
structure TaskState where
  taskId : String
  revisionId : String
  revision : TaskRevision
  planId : Option String := none
  phase : TaskPhase := .submitted
  admitted : Bool := false
  nextSequence : ℕ
  writer : String
  epoch : ℕ
  leaseUntil : ℕ
  lastTime : ℕ
  /-- the last time of the writer before the current lease, and the expiry of its lease -/
  previousWriter : ℕ × ℕ
  resumePhase : Option TaskPhase := none
  recordingRecovery : Option RecordingRecovery := none
  recordingReport : Option RecordingRecovery := none
  decisions : OrdMap String Decision := .empty
  execution : Option TaskExecutionProjection := none
  planning : Option TaskPlanningProof := none
  deliveries : List (String × DeliveryRecord) := []
  adoptionObservations : List (String × AdoptionObservation) := []
  runReports : List String := []
  reviewHandoffs : List (String × ReviewHandoff) := []
  gateCleanups : List TaskGateCleanup := []
  storageSweeps : List TaskStorageSweep := []
  /-- the epoch of every lease that began execution -/
  executionEpochs : Finset ℕ := ∅
  gateRetries : List GateRetried := []
  openedUnixMs : ℕ
  /-- when the wall clock started: the first plan admission -/
  clockStartedUnixMs : Option ℕ := none
  providerEvents : List ProviderEvent := []
  deriving DecidableEq

/-- `TaskProjection`: the state and the memo of the references already parsed. -/
structure TaskProjection extends TaskState where
  artifactRefs : Finset String := ∅
  deriving DecidableEq

/-! ## What the projection reads -/

/-- The content-addressed store as the projection reads it: one lookup for each
typed artifact, and the rules that judge artifact bytes alone. -/
structure Cas where
  sha256 : List UInt8 → List UInt8
  /-- the identity of a Task's log -/
  taskRunId : String → Except StoreError String
  revision : String → Except StoreError TaskRevision := fun id => .error (.artifact id)
  executionPlan : String → Except StoreError ExecutionPlan := fun id => .error (.artifact id)
  compiledTask : String → Except StoreError CompiledTask := fun id => .error (.artifact id)
  planDecision : String → Except StoreError PlanDecision := fun id => .error (.artifact id)
  taskResult : String → Except StoreError TaskResult := fun id => .error (.artifact id)
  executionRecord : String → Except StoreError ExecutionRecord := fun id => .error (.artifact id)
  invocation : String → Except StoreError TaskInvocation := fun id => .error (.artifact id)
  output : String → Except StoreError TaskOutput := fun id => .error (.artifact id)
  /-- a native usage report; `none` for an absent artifact and for any other type -/
  usageObservation : String → Except StoreError (Option UsageObservation) := fun _ => .ok none
  runReport : String → Except StoreError TaskRunReport := fun id => .error (.artifact id)
  reviewHandoff : String → Except StoreError ReviewHandoff := fun id => .error (.artifact id)
  reviewIntegration : String → Except StoreError ReviewIntegrationPhase :=
    fun id => .error (.artifact id)
  deliveryRecord : String → Except StoreError DeliveryRecord := fun id => .error (.artifact id)
  adoptionObservation : String → Except StoreError AdoptionObservation :=
    fun id => .error (.artifact id)
  ownedChildSet : String → Except StoreError OwnedChildSet := fun id => .error (.artifact id)
  experimentPrepared : String → Except StoreError ExperimentPrepared :=
    fun id => .error (.artifact id)
  experimentPlanDecision : String → Except StoreError ExperimentPlanDecision :=
    fun id => .error (.artifact id)
  experimentPlan : String → Except StoreError ExperimentExecutionPlan :=
    fun id => .error (.artifact id)
  /-- the outcome of a check receipt is `passed` -/
  checkPassed : String → Except StoreError Bool := fun id => .error (.artifact id)
  /-- `Cas::verify`: the object is there and its bytes have its identity -/
  verify : String → Except StoreError Unit := fun _ => .ok ()
  /-- the order `scheduler_plan` computes -/
  schedulerOrder : CompiledTask → Except StoreError (List String) := fun G => .ok G.order
  /-- the outcome a branch receipt carries -/
  receiptOutcome : String → Except String ReceiptOutcome := fun id => .error id
  /-- the outcome of a receipt of one artifact type -/
  typedOutcome : String → String → Except String ReceiptOutcome := fun _ id => .error id
  /-- the Warm Set of a development invocation: its producer, node and Snapshot -/
  warmSet : String → TaskInvocation → ArtifactInput → Except StoreError Unit := fun _ _ _ => .ok ()
  /-- `verify_knowledge`, of the Task, the invocation, its node and the selection -/
  knowledge : TaskExecutionProjection → String → TaskInvocation → CompiledNode → ArtifactInput →
      Except StoreError Unit := fun _ _ _ _ _ => .ok ()
  /-- `verify_diff_subject`, of the Task, the invocation, its node, its source and the subject -/
  diffSubject : String → TaskInvocation → CompiledNode → Option ArtifactInput → ArtifactInput →
      Except StoreError Unit := fun _ _ _ _ _ => .ok ()
  /-- `verify_attempt_producer`, of the Task, the node, the Attempt and the output -/
  attemptProducer : String → String → String → String → Except StoreError Unit :=
    fun _ _ _ _ => .ok ()
  /-- the envelope of an owned child's source item -/
  ownedItem : String → Except StoreError OwnedItem := fun id => .error (.artifact id)
  /-- the Slice Set an owned Review set must keep whole -/
  ownedSlices : OwnedChildTemplate → OwnedChildSet → Except StoreError Unit := fun _ _ => .ok ()
  /-- `validate_child_plan`, of the outer plan, the preparation and the child plan -/
  childPlan : String → ExperimentPrepared → ExperimentExecutionPlan → Except StoreError Unit :=
    fun _ _ _ => .ok ()
  /-- `validate_experiment_registration`, which answers the slot's `max_children` -/
  experimentRegistration : String → ExperimentPrepared → ExperimentPlanDecision → ℕ → TaskLimits →
      Except StoreError ℕ := fun _ _ _ _ _ => .ok 0
  /-- `captured`: the sequence policy of an Integration phase -/
  integrationSequence : TaskState → ReviewIntegrationPhase → CompiledReviewIntegration →
      Except StoreError Unit := fun _ _ _ => .ok ()
  /-- `selected_checks`: whether the checks of an Integration output passed -/
  integrationChecks : RegisteredReviewIntegration → String → Except StoreError Bool :=
    fun _ _ => .ok false
  /-- `validate_revisions`: both revisions of a handoff and the numbers of their Rounds -/
  reviewRevisions : ReviewHandoff → Except StoreError (TaskRevision × TaskRevision × ℕ × ℕ) :=
    fun _ => .error (.conflict "Review handoff lacks captured Round authority")
  /-- `validate_revision` of a source refresh -/
  sourceRevision : TaskState → String → TaskRevision → Except StoreError Unit :=
    fun _ _ _ => .ok ()
  /-- the business revision a planning barrier may introduce -/
  planningRevision : TaskState → String → TaskRevision → Except StoreError Unit :=
    fun _ _ _ => .ok ()
  /-- a `PipelineProposalV1` -/
  pipelineProposal : String → Except StoreError Unit := fun _ => .ok ()
  /-- `validate_optimization_delivery` of a finished result -/
  optimizationDelivery : TaskState → TaskResult → Except StoreError Unit := fun _ _ => .ok ()
  /-- the receipt, the target and the proofs of a delivery -/
  deliveryEvidence : TaskState → String → DeliveryRecord → Except StoreError Unit :=
    fun _ _ _ => .ok ()
  /-- `receipt["delivery_id"] == prepared["delivery_id"]` -/
  sameDelivery : String → String → Except StoreError Bool := fun _ _ => .ok true
  /-- `valid_exact_optimization_result_refinement` -/
  exactOptimizationResult : String → OrdMap String ArtifactInput → OrdMap String ArtifactInput →
      Except StoreError Bool := fun _ _ _ => .ok false
  /-- whether the revision captures a Campaign Review Round -/
  capturesReviewRound : String → TaskRevision → Except StoreError Bool := fun _ _ => .ok false
  gateCleanup : String → TaskGateCleanup → Except StoreError Unit := fun _ _ => .ok ()
  storageSweep : TaskStorageSweep → Except StoreError Unit := fun _ => .ok ()

end Afactory
