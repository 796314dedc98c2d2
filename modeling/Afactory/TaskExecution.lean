import Mathlib
import Afactory.TaskRecords

/-!
# The execution of a Task

`TaskExecutionProjection` of `review-store/src/store/task/execution.rs` and its
submodules: which node an invocation names, what an invocation and an output must
match, and what each execution record does to the attempts, the ledger that fences
them, the budget and the published outputs.

* `resolveNode`, `checkOwnedOpen`: where a node's definition and allowance come from;
* `verifyInvocation`, `verifyOutput`: the exact graph inputs and output ports;
* `reusableOutput`, `validateRetry`: what a settled success still answers for;
* `applyRecord`: one execution record, branch by branch;
* `enterExecution`, `reopenGate`: the graph handoff and the gate retry.

A refused record leaves no state: every operation answers a projection or an error.
-/

namespace Afactory

/-! ## Nodes -/

/-- Where a node's definition, allowance and fixed inputs come from. -/
structure ResolvedTaskNode where
  definition : CompiledNode
  allowance : Option NodeAllowance
  /-- the owned set the node is a child of -/
  owned : Option String := none
  expectedInputs : Option (OrdMap String ArtifactInput) := none
  deriving DecidableEq

namespace RegisteredReviewIntegration

/-- The only admissible input of an Integration: its own sealed phase. -/
def inputs (r : RegisteredReviewIntegration) : Except StoreError (OrdMap String ArtifactInput) :=
  match r.phase.selection with
  | .prepared _ derivedSnapshotId =>
    .ok (OrdMap.ofList [("phase", {
      artifactIds := [r.id]
      artifactType := "af/TaskReviewIntegrationPhase@1"
      snapshotId := some derivedSnapshotId })])
  | _ => .error (.conflict "Integration selection has no executable sequence")

def resolved (r : RegisteredReviewIntegration) : Except StoreError ResolvedTaskNode := do
  let inputs ← r.inputs
  return {
    definition := r.compiled.definition
    allowance := some r.compiled.allowance
    expectedInputs := some inputs }

end RegisteredReviewIntegration

def RecordedExperiment.registeredChild (x : RecordedExperiment) (node : String) :
    Option ExperimentPlannedChild :=
  x.childPlan.bind fun plan => plan.children.get node

def resolveChild (graph : CompiledTask) (set : RecordedChildren) (node : String)
    (input : TaskInvocation) : Except StoreError ResolvedTaskNode := do
  let template ← orConflict "Owned node lost its captured template"
    (graph.ownedChildren.get set.parentNode)
  let _ ← orConflict "Unknown child" (set.set.children.find? fun child => child.node = node)
  return {
    definition := { operator := template.operator, contract := template.contract }
    allowance := some template.allowance
    owned := some set.id
    expectedInputs := some input.inputs }

namespace TaskExecutionProjection

/-- `active_review_integration`: the registered phase of a closed Round. -/
def activeIntegration (E : TaskExecutionProjection) : Option RegisteredReviewIntegration :=
  E.activeReviewIntegration.bind E.reviewIntegrations.get

def checkIntegrationNode (E : TaskExecutionProjection) (node : String) :
    Except StoreError Unit :=
  match E.activeIntegration with
  | some active =>
    requireConflict (active.node = node && !active.finished)
      "Closed Review Round permits only its active unsealed Integration node"
  | none =>
    requireConflict (match E.graph.reviewIntegration with
      | some p => p.node ≠ node
      | none => true) "Dormant Integration node has not been activated"

/-- Whether the set's parent still runs the invocation that registered it. -/
def activeChildren (E : TaskExecutionProjection) (set : RecordedChildren) : Bool :=
  match E.invocations.get set.parentNode with
  | some (id, input) => id = set.set.parentInvocationId && input.planId = set.set.planId
  | none => false

def resolveNode (E : TaskExecutionProjection) (node : String) :
    Except StoreError ResolvedTaskNode :=
  match E.activeIntegration.filter fun p => p.node = node with
  | some phase => phase.resolved
  | none =>
    match E.graph.nodes.get node with
    | some definition => .ok { definition := definition, allowance := E.graph.allowances.get node }
    | none =>
      match E.experiments.values.findSome? fun x => x.registeredChild node with
      | some child => .ok {
          definition := child.definition
          allowance := some child.allowance
          expectedInputs := some child.invocation.inputs }
      | none =>
        match (E.owned.values.filter E.activeChildren).findSome? fun set =>
            (set.invocations.get node).map fun input => (set, input) with
        | some (set, input) => resolveChild E.graph set node input
        | none => .error (.conflict "Invocation names an unplanned or unregistered node")

/-- A node may run unless its Integration or its owned parent is sealed. -/
def checkOwnedOpen (E : TaskExecutionProjection) (node : String) : Except StoreError Unit := do
  E.checkIntegrationNode node
  let resolved ← E.resolveNode node
  match resolved.owned with
  | none => return
  | some childSetId =>
    let set ← orPanic (E.owned.get childSetId)
    requireConflict set.completed.isNone "Owned Task parent is sealed"

/-- An owned child runs only the invocation its set registered. -/
def verifyOwnedInvocationId (E : TaskExecutionProjection) (node id : String) :
    Except StoreError Unit := do
  let resolved ← E.resolveNode node
  match resolved.owned with
  | none => return
  | some childSetId =>
    let set ← orPanic (E.owned.get childSetId)
    requireConflict (set.set.children.any fun child => child.node = node && child.invocationId = id)
      "Owned child changed its registered invocation envelope"

/-! ## Attempts -/

/-- `pending_attempts`: neither released nor settled. -/
def pendingAttempts (E : TaskExecutionProjection) : List AttemptId :=
  (E.attempts.entries.filter fun e => e.2.pending).map Prod.fst

/-- The plan of the node's current invocation. -/
def currentPlan (E : TaskExecutionProjection) (node : String) : Option String :=
  (E.invocations.get node).map fun i => i.2.planId

/-- Whether the Attempt is the node's own, under its current plan, and its output was
selected and not superseded. -/
def reusable (E : TaskExecutionProjection) (node : String) (id : AttemptId)
    (a : RecordedAttempt) : Bool :=
  a.reservation.node = node && id ∉ E.retired && E.currentPlan node = some a.planId &&
    (E.ledger.attempt id).map Attempt.state = some .selected

/-- `reusable_output`: the selected output of a node a new writer may publish, with its
Attempt. -/
def reusableOutput (E : TaskExecutionProjection) (node : String) :
    Option (String × AttemptId) :=
  E.attempts.entries.findSome? fun (id, a) =>
    if E.reusable node id a then a.succeededOutput.map fun output => (output, id) else none

/-- `retry_feedback`: the feedback of the node's failed Attempts under its current plan. -/
def retryFeedback (E : TaskExecutionProjection) (node : String) : List String :=
  sortedSet ((E.attempts.values.filter fun a =>
    a.reservation.node = node && E.currentPlan node = some a.planId).filterMap
      RecordedAttempt.feedback)

/-- The feedback of an invocation's failed Attempts, which its next Attempt must name. -/
def admittedFeedback (E : TaskExecutionProjection) (invocationId : String) : List String :=
  sortedSet ((E.attempts.values.filter fun a => a.invocationId = invocationId).filterMap
    RecordedAttempt.feedback)

/-- One earlier Attempt of the invocation, as `validate_retry` reads it. -/
def retryBefore (previous : List (AttemptId × TaskAttemptResult))
    (entry : AttemptId × RecordedAttempt) :
    Except StoreError (List (AttemptId × TaskAttemptResult)) :=
  match entry.2.settlement with
  | some { result := .succeeded _, .. } =>
    .error (.conflict "Task invocation already selected an output; recover its publication")
  | some { result := result, .. } => .ok (previous ++ [(entry.1, result)])
  | none => .error (.conflict "Task invocation still has a pending Attempt")

/-- The Attempts of an invocation a retry answers for. -/
def retryScope (E : TaskExecutionProjection) (invocationId : String) :
    List (AttemptId × RecordedAttempt) :=
  E.attempts.entries.filter fun e =>
    e.2.invocationId = invocationId && !e.2.released && e.1 ∉ E.retired

/-- `validate_retry`: whether the node has failed Attempts; `authority` judges them. -/
def validateRetry (E : TaskExecutionProjection)
    (authority : TaskInvocation → List (AttemptId × TaskAttemptResult) → Except String Unit)
    (node : String) : Except StoreError Bool := do
  let (invocationId, input) ← orConflict "Unknown Task invocation" (E.invocations.get node)
  let previous ← (E.retryScope invocationId).foldlM retryBefore []
  if !previous.isEmpty then
    textConflict (authority input previous)
  return !previous.isEmpty

/-- Whether any of the nodes a plan pays for has an Attempt that was not released. -/
def attemptsOf (E : TaskExecutionProjection) (nodes : List String) : Bool :=
  E.attempts.values.any fun a =>
    nodes.contains a.reservation.node && E.graph.allowances.contains a.reservation.node &&
      !a.released

/-- Whether any of the nodes a plan pays for ran and published no output. -/
def failedAttemptsOf (E : TaskExecutionProjection) (nodes : List String) : Bool :=
  E.attempts.values.any fun a =>
    nodes.contains a.reservation.node && E.graph.allowances.contains a.reservation.node &&
      !a.released && !E.outputs.contains a.reservation.node

/-- The projection with one Attempt's record replaced. -/
def setAttempt (E : TaskExecutionProjection) (id : AttemptId) (a : RecordedAttempt) :
    TaskExecutionProjection :=
  { E with attempts := E.attempts.insert id a }

/-! ## Invocations and outputs -/

/-- The Warm Set of a development node has no graph producer: its port is declared,
its bytes are the kernel's own. -/
def takeWarm (cas : Cas) (taskId : String) (input : TaskInvocation) (node : CompiledNode)
    (inputs : OrdMap String ArtifactInput) : Except StoreError (OrdMap String ArtifactInput) :=
  match inputs.get "development_warm" with
  | none => .ok inputs
  | some warm => do
    requireConflict ((match node.contract.inputs.get "development_warm" with
        | some port => port.optional && port.artifactType = "review.kernel/WarmSet@3"
        | none => false) && warm.artifactIds.length = 1 &&
      warm.artifactType = "review.kernel/WarmSet@3") "Undeclared development Warm Set"
    cas.warmSet taskId input warm
    return inputs.erase "development_warm"

/-- The knowledge selection of a node that declares one. -/
def takeKnowledge (cas : Cas) (E : TaskExecutionProjection) (taskId : String)
    (input : TaskInvocation) (node : CompiledNode) (inputs : OrdMap String ArtifactInput) :
    Except StoreError (OrdMap String ArtifactInput) :=
  match node.contract.inputs.get "knowledge" with
  | none => .ok inputs
  | some port =>
    if port.artifactType = "af/KnowledgeContext@1" then do
      let value ← orConflict "Declared knowledge selection is missing" (inputs.get "knowledge")
      cas.knowledge E taskId input node value
      return inputs.erase "knowledge"
    else .ok inputs

/-- The published value of an output port. -/
def publishedPort (E : TaskExecutionProjection) (source : PortAddress) : Option ArtifactInput :=
  (E.outputs.get source.node).bind fun o => o.2.outputs.get source.port

/-- One wired input: what its producer published, or nothing for an optional port. -/
def expectInput (E : TaskExecutionProjection) (node : CompiledNode)
    (expected : OrdMap String ArtifactInput) (entry : String × PortAddress) :
    Except StoreError (OrdMap String ArtifactInput) :=
  match E.publishedPort entry.2 with
  | some value => .ok (expected.insert entry.1 value)
  | none => do
    requireConflict (match node.contract.inputs.get entry.1 with
      | some port => port.optional
      | none => true) "Required Task input has no admitted producer"
    return expected

/-- The Diff Subject of a judging Worker has no graph producer either. -/
def takeDiffSubject (cas : Cas) (taskId : String) (input : TaskInvocation) (node : CompiledNode)
    (source : Option ArtifactInput) (inputs : OrdMap String ArtifactInput) :
    Except StoreError (OrdMap String ArtifactInput) :=
  match inputs.get "diff_subject" with
  | none => .ok inputs
  | some subject => do
    cas.diffSubject taskId input node source subject
    return inputs.erase "diff_subject"

/-- The receipts of a node's conditions, beside its own inputs. -/
def branchInputs (E : TaskExecutionProjection) (input : TaskInvocation) (node : CompiledNode) :
    OrdMap String (List String) :=
  (input.inputs.mapVal fun _ port => port.artifactIds).insertAll
    (node.conditions.zipIdx.filterMap fun (condition, index) =>
      (E.publishedPort condition.source).map fun value =>
        (CompiledTask.conditionInput index, value.artifactIds))

/-- `verify_invocation`: the exact admitted inputs of a node on a branch that was taken. -/
def verifyInvocation (cas : Cas) (E : TaskExecutionProjection) (taskId : String)
    (input : TaskInvocation) : Except StoreError Unit := do
  E.checkOwnedOpen input.node
  let resolved ← E.resolveNode input.node
  let node := resolved.definition
  let graphInputs ← takeWarm cas taskId input node input.inputs
  let graphInputs ← takeKnowledge cas E taskId input node graphInputs
  match resolved.expectedInputs with
  | some expected =>
    requireConflict (graphInputs = expected) "Owned invocation changed its registered inputs"
  | none =>
    let expected ← node.inputs.entries.foldlM (E.expectInput node) .empty
    let graphInputs ← takeDiffSubject cas taskId input node (expected.get "source") graphInputs
    requireConflict (graphInputs = expected)
      "Invocation does not match the exact admitted graph inputs"
    let selected ← textConflict
      (E.graph.nodeSelected cas.receiptOutcome (E.branchInputs input node) input.node)
    requireConflict selected "Inactive Task branch cannot publish an invocation"

/-- One declared output port: its contract and its Snapshot affinity. -/
def checkPort (input : TaskInvocation) (outputs : OrdMap String ArtifactInput)
    (entry : String × PipelinePort) : Except StoreError Unit :=
  let (name, contract) := entry
  match outputs.get name with
  | none => requireConflict contract.optional ("Task output lacks " ++ name)
  | some value => do
    requireConflict (value.artifactType = contract.artifactType &&
      value.cardinality = contract.cardinality) "Task output changed its port contract"
    match contract.affinity with
    | .sameAs source =>
      requireConflict ((input.inputs.get source).map ArtifactInput.snapshotId =
        some value.snapshotId) "Task output changed its input Snapshot affinity"
    | .derivedFrom source =>
      let prior := (input.inputs.get source).bind ArtifactInput.snapshotId
      requireConflict (!(value.snapshotId.isNone || prior.isNone || value.snapshotId = prior))
        "Derived Task output did not produce a distinct Snapshot"
    | .unbound => return

/-- A Select publishes the arm its receipt names. -/
def checkSelect (cas : Cas) (E : TaskExecutionProjection) (input : TaskInvocation)
    (receipt : TaskOutput) : Except StoreError Unit := do
  let selected ← textConflict (E.graph.selectOutput
    (cas.typedOutcome ((input.inputs.get "condition").elim "" ArtifactInput.artifactType))
    (input.inputs.mapVal fun _ value => value.artifactIds) input.node)
  requireConflict ((receipt.outputs.mapVal fun _ value => value.artifactIds) = selected)
    "Select output differs from its admitted condition and arm"

/-- `verify_output`: the output of a current invocation, port by port. -/
def verifyOutput (cas : Cas) (E : TaskExecutionProjection) (receipt : TaskOutput) :
    Except StoreError TaskInvocation := do
  let input ← cas.invocation receipt.invocationId
  requireConflict ((E.invocations.get input.node).map Prod.fst = some receipt.invocationId)
    "Output has no admitted invocation"
  let resolved ← E.resolveNode input.node
  let node := resolved.definition
  requireConflict (!(node.operator = .rootInputs && receipt.outputs ≠ E.graph.inputs))
    "Root input receipt changed the Task's normalized inputs"
  if node.operator = .select then
    checkSelect cas E input receipt
  node.contract.outputs.entries.forM (checkPort input receipt.outputs)
  requireConflict (receipt.outputs.keys.all node.contract.outputs.contains)
    "Task output has an undeclared port"
  return input

/-! ## Usage -/

/-- What a record with a native usage observation charges, by what it settles. -/
inductive ObservedCharge where
  /-- the usage seen so far, never below the counters it reports -/
  | observation
  /-- the Attempt's own answer or failure: incomplete counters keep the reservation floor -/
  | settlement (unknownUsage : Bool)
  /-- abandoned work: charged what was observed, never its reservation -/
  | abandoned
  deriving DecidableEq, Repr

/-- Whether an incomplete observation keeps the reservation as its floor. -/
def ObservedCharge.floor (charge : ObservedCharge) (o : UsageObservation) : Bool :=
  match charge with
  | .settlement unknownUsage => !(unknownUsage && o.reportedUsage.isNone)
  | .observation | .abandoned => false

/-- One native observation against its Attempt and the charge it is recorded with. -/
def checkObservation (runId : String) (attemptId : AttemptId) (a : RecordedAttempt)
    (chargedTokens : ℕ) (charge : ObservedCharge) (o : UsageObservation) :
    Except StoreError Unit := do
  requireConflict (o.runId = runId && o.node = a.reservation.node && o.attemptId = attemptId &&
    o.inputArtifacts = a.contextId.toList && o.subjectSnapshotId.isNone)
    "Task usage observation differs from its admitted Attempt/context"
  requireConflict (!(chargedTokens < o.reportedUsage.getD 0 ||
    (!o.chargeComplete && charge.floor o && chargedTokens < a.reservation.tokens)))
    "Task charge is below its incomplete native observation floor"

/-- One raw artifact of a record; at most one is a native observation. -/
def checkRawArtifact (cas : Cas) (taskId : String) (attemptId : AttemptId) (a : RecordedAttempt)
    (chargedTokens : ℕ) (charge : ObservedCharge) (seen : Bool) (id : String) :
    Except StoreError Bool := do
  match ← cas.usageObservation id with
  | none => return seen
  | some o =>
    requireConflict (!seen) "Duplicate Task usage observations in one record"
    let runId ← cas.taskRunId taskId
    checkObservation runId attemptId a chargedTokens charge o
    return true

/-- `usage_observation::validate`. -/
def validateUsage (cas : Cas) (taskId : String) (attemptId : AttemptId) (a : RecordedAttempt)
    (chargedTokens : ℕ) (rawArtifactIds : List String) (charge : ObservedCharge) :
    Except StoreError Unit := do
  let _ ← rawArtifactIds.foldlM
    (checkRawArtifact cas taskId attemptId a chargedTokens charge) false
  return

/-! ## Owned children -/

/-- The inputs a child inherits from its parent. -/
def inheritInput (template : OwnedChildTemplate) (parent : TaskInvocation)
    (inputs : OrdMap String ArtifactInput) (entry : String × String) :
    Except StoreError (OrdMap String ArtifactInput) :=
  match parent.inputs.get entry.2 with
  | some value => .ok (inputs.insert entry.1 value)
  | none => do
    requireConflict (match template.contract.inputs.get entry.1 with
      | some port => port.optional
      | none => false) "Owned child lacks a required inherited input"
    return inputs

/-- The exact inputs of a child: its own item beside what it inherits. -/
def childInputs (template : OwnedChildTemplate) (parent : TaskInvocation) (child : OwnedChild)
    (item : OwnedItem) : Except StoreError (OrdMap String ArtifactInput) := do
  let inherited ← template.inheritedInputs.entries.foldlM (inheritInput template parent) .empty
  let inputs := inherited.insert template.itemInput {
    artifactIds := [child.sourceItemId]
    artifactType := item.artifactType
    snapshotId := item.subjectSnapshotId }
  requireConflict (inputs.entries.all (fun (name, value) =>
      match template.contract.inputs.get name with
      | some port => port.artifactType = value.artifactType && port.cardinality = value.cardinality
      | none => false) &&
    template.contract.inputs.entries.all fun (name, port) => port.optional || inputs.contains name)
    "Owned inputs differ from the captured child contract"
  return inputs

/-- One child of a registered set, in the canonical order of its source. -/
def deriveChild (cas : Cas) (E : TaskExecutionProjection) (set : OwnedChildSet)
    (parent : TaskInvocation) (template : OwnedChildTemplate) (source : ArtifactInput)
    (invocations : OrdMap String TaskInvocation) (entry : OwnedChild × ℕ) :
    Except StoreError (OrdMap String TaskInvocation) := do
  let (child, index) := entry
  requireConflict (child.node = parent.node ++ ".slice" ++ toString (index + 1) &&
    !E.graph.nodes.contains child.node)
    "Owned child address differs from its canonical source order"
  let item ← cas.ownedItem child.sourceItemId
  requireConflict (item.inputArtifacts = [set.sourceArtifactId] &&
    item.subjectSnapshotId = source.snapshotId) "Owned item changed its source or Snapshot"
  let inputs ← childInputs template parent child item
  let input ← cas.invocation child.invocationId
  requireConflict (input.planId = set.planId && input.node = child.node && input.inputs = inputs)
    "Owned invocation changed its exact inherited or item inputs"
  return invocations.insert child.node input

/-- Whether the children of a template review the Slices of its source. -/
def reviewsSlices (template : OwnedChildTemplate) : Bool :=
  match template.operator with
  | .reviewDomain _ (.reviewer _) => true
  | _ => false

/-- `derive_children`: the registration a captured set stands for. -/
def deriveChildren (cas : Cas) (E : TaskExecutionProjection) (id : String) :
    Except StoreError RecordedChildren := do
  let set ← cas.ownedChildSet id
  let parent ← cas.invocation set.parentInvocationId
  requireConflict (parent.planId = set.planId &&
    (E.invocations.get parent.node).map Prod.fst = some set.parentInvocationId &&
    !E.graph.allowances.contains parent.node)
    "Owned children require their admitted non-reservable parent invocation"
  let template ← orConflict "Parent has no captured child template"
    (E.graph.ownedChildren.get parent.node)
  let source ← orConflict "Owned parent has no captured source input"
    (parent.inputs.get template.sourceInput)
  requireConflict (source.artifactIds = [set.sourceArtifactId] && !set.children.isEmpty &&
    set.children.length ≤ template.maxChildren)
    "Owned child source or fan-out differs from its template"
  if reviewsSlices template then
    cas.ownedSlices template set
  let invocations ← set.children.zipIdx.foldlM (deriveChild cas E set parent template source) .empty
  return { id := id, set := set, parentNode := parent.node, invocations := invocations }

/-- `OwnedChildrenRegistered`. -/
def registerOwned (cas : Cas) (E : TaskExecutionProjection) (childSetId : String) :
    Except StoreError TaskExecutionProjection := do
  let registered ← deriveChildren cas E childSetId
  requireConflict (!(E.owned.values.any (fun old =>
      old.set.parentInvocationId = registered.set.parentInvocationId) ||
    E.outputs.contains registered.parentNode))
    "Owned Task parent already has a registry or output"
  let (_, budget) ← budgetReply (E.budget.registerOwnedChildren registered.parentNode
    (registered.set.children.map OwnedChild.node))
  return { E with budget := budget, owned := E.owned.insert childSetId registered }

/-- `OwnedChildPublished`: a child publishes exactly its selected output. -/
def publishOwned (cas : Cas) (E : TaskExecutionProjection) (taskId childSetId outputId : String)
    (attemptId : AttemptId) : Except StoreError TaskExecutionProjection := do
  let out ← cas.output outputId
  let input ← verifyOutput cas E out
  cas.attemptProducer taskId input.node attemptId outputId
  E.checkOwnedOpen input.node
  let resolved ← E.resolveNode input.node
  requireConflict (resolved.owned = some childSetId && !E.outputs.contains input.node &&
    E.reusableOutput input.node = some (outputId, attemptId))
    "Owned publication is not its exact selected child output"
  let set ← orPanic (E.owned.get childSetId)
  return { E with
    owned := E.owned.insert childSetId
      { set with published := set.published.insert input.node (outputId, attemptId) }
    outputs := E.outputs.insert input.node (outputId, out) }

/-- `OwnedChildrenCompleted`: the parent's own output seals its children. -/
def completeOwned (cas : Cas) (E : TaskExecutionProjection) (childSetId outputId : String) :
    Except StoreError TaskExecutionProjection := do
  let set ← orConflict "Unknown owned child set" (E.owned.get childSetId)
  requireConflict (E.activeChildren set && set.completed.isNone &&
    !E.outputs.contains set.parentNode && !E.attempts.values.any fun a =>
      set.set.children.any (fun child => child.invocationId = a.invocationId) && a.pending)
    "Owned completion has stale, sealed or pending child work"
  let out ← cas.output outputId
  requireConflict (out.invocationId = set.set.parentInvocationId)
    "Owned completion changed its parent invocation"
  let input ← verifyOutput cas E out
  return { E with
    outputs := E.outputs.insert input.node (outputId, out)
    owned := E.owned.insert childSetId { set with completed := some outputId } }

/-! ## Experiments -/

/-- `ExperimentPrepared`: a closure waits for its developer's decision. -/
def prepareExperiment (cas : Cas) (E : TaskExecutionProjection) (revisionId outerPlanId : String)
    (preparedId : String) : Except StoreError TaskExecutionProjection := do
  requireConflict E.experiments.entries.isEmpty "An experimental closure is already prepared"
  let prepared ← cas.experimentPrepared preparedId
  let plan ← cas.experimentPlan prepared.compiledChildPlanId
  cas.childPlan outerPlanId prepared plan
  let slot ← orConflict "Prepared experiment has no captured outer slot"
    (E.graph.experimentalSlots.get plan.parentNode)
  requireConflict (prepared.taskRevisionId = revisionId && prepared.outerPlanId = outerPlanId &&
    prepared.slotId = slot.slotId) "Prepared experiment belongs to another Task or slot"
  return { E with experiments :=
    E.experiments.insert preparedId { prepared := prepared, parentNode := plan.parentNode } }

/-- `ExperimentPlanDecided`. -/
def decideExperiment (cas : Cas) (E : TaskExecutionProjection) (preparedId decisionId : String)
    (now : ℕ) : Except StoreError TaskExecutionProjection := do
  let recorded ← orConflict "Experiment decision has no prepared closure"
    (E.experiments.get preparedId)
  requireConflict recorded.decision.isNone "Experiment already has a decision"
  let decision ← cas.experimentPlanDecision decisionId
  requireConflict (decision.preparedId = preparedId &&
    decision.taskRevisionId = recorded.prepared.taskRevisionId &&
    decision.outerPlanId = recorded.prepared.outerPlanId &&
    decision.slotId = recorded.prepared.slotId &&
    decision.specificationId = recorded.prepared.specificationId &&
    decision.compiledChildPlanId = recorded.prepared.compiledChildPlanId &&
    decision.policyId = recorded.prepared.policyId && now < decision.expiresUnixMs)
    "Experiment decision is expired, stale or belongs to another closure"
  return { E with experiments :=
    E.experiments.insert preparedId { recorded with decision := some (decisionId, decision) } }

/-- `ExperimentChildrenRegistered`: the approved closure opens its children. -/
def registerExperiment (cas : Cas) (E : TaskExecutionProjection) (outerPlanId : String)
    (preparedId decisionId childPlanId : String) (now : ℕ) :
    Except StoreError TaskExecutionProjection := do
  let recorded ← orConflict "Experiment registration has no preparation"
    (E.experiments.get preparedId)
  requireConflict (recorded.childPlan.isNone &&
    recorded.decision.map Prod.fst = some decisionId &&
    recorded.prepared.compiledChildPlanId = childPlanId)
    "Experiment registration changed its approved closure"
  let (_, decision) ← orPanic recorded.decision
  let maxChildren ← cas.experimentRegistration preparedId recorded.prepared decision now
    E.budget.remainingLimits
  let plan ← cas.experimentPlan childPlanId
  cas.childPlan outerPlanId recorded.prepared plan
  let (_, budget) ← budgetReply (E.budget.registerExperimentalChildren recorded.parentNode
    (plan.children.mapVal fun _ child => child.allowance) maxChildren)
  return { E with
    budget := budget
    experiments := E.experiments.insert preparedId { recorded with childPlan := some plan } }

/-! ## The execution records -/

/-- The highest charge recorded for an Attempt and a new one. -/
def cumulativeCharge (E : TaskExecutionProjection) (id : AttemptId) (chargedTokens : ℕ) : ℕ :=
  max (((E.ledger.attempt id).map Attempt.charged).getD 0) chargedTokens

/-- `UsageObserved`: known usage of started work, before or after its settlement. -/
def applyUsageObserved (cas : Cas) (taskId : String) (attemptId : AttemptId)
    (chargedTokens : ℕ) (rawArtifactIds : List String) (E : TaskExecutionProjection) :
    Except StoreError TaskExecutionProjection := do
  let a ← orConflict "Unknown Task Attempt" (E.attempts.get attemptId)
  requireConflict (a.started && !a.released) "Usage observation requires started Task work"
  validateUsage cas taskId attemptId a chargedTokens rawArtifactIds .observation
  let (_, budget) ← budgetReply (E.budget.observeChargeExact a.reservation.id chargedTokens)
  let ledger ← textConflict
    (E.ledger.chargeExact attemptId (E.cumulativeCharge attemptId chargedTokens))
  return { E with
    budget := budget
    ledger := ledger
    attempts := E.attempts.insert attemptId { a with usageObserved := true } }

/-- `Invocation`: a node of the current plan gets its inputs, once. -/
def applyInvocation (cas : Cas) (taskId : String) (planId : Option String)
    (invocationId : String) (E : TaskExecutionProjection) :
    Except StoreError TaskExecutionProjection := do
  let input ← cas.invocation invocationId
  requireConflict (planId = some input.planId) "Task invocation belongs to another plan"
  requireConflict (!E.invocations.contains input.node) "Task invocation is duplicated"
  verifyInvocation cas E taskId input
  E.verifyOwnedInvocationId input.node invocationId
  return { E with invocations := E.invocations.insert input.node (invocationId, input) }

/-- `Reserved`: a new Attempt of a pending invocation, with the identities the budget
and the ledger give it. -/
def applyReserved (cas : Cas) (epoch time : ℕ) (r : ReservedRecord)
    (E : TaskExecutionProjection) : Except StoreError TaskExecutionProjection := do
  let input ← cas.invocation r.invocationId
  E.checkOwnedOpen input.node
  requireConflict ((E.invocations.get input.node).map Prod.fst = some r.invocationId &&
    !E.outputs.contains input.node && (E.reusableOutput input.node).isNone)
    "Task Attempt has no pending invocation"
  requireConflict (!E.attempts.values.any fun a =>
    a.invocationId = r.invocationId && a.pending) "Task invocation already has a live Attempt"
  requireConflict (r.feedbackIds = E.admittedFeedback r.invocationId)
    "Retry input does not match admitted Task feedback"
  let (reservation, budget) ← budgetReply (E.budget.prepare input.node time)
  requireConflict (reservation.id = r.reservationId && reservation.tokens = r.reservedTokens &&
    reservation.deadlineUnixMs = r.deadlineUnixMs)
    "Task reservation differs from shared accounting"
  let (attemptId, ledger) ← orPanic (E.ledger.dispatch cas.sha256 input.node)
  requireConflict (attemptId = r.attemptId)
    "Task Attempt identity differs from its durable namespace"
  return { E with
    budget := budget
    ledger := ledger
    attempts := E.attempts.insert r.attemptId {
      invocationId := r.invocationId
      planId := input.planId
      reservation := reservation
      preparedEpoch := epoch
      feedbackIds := r.feedbackIds } }

/-- `ContextBound`: the exact context of an unstarted Attempt. -/
def applyContextBound (epoch : ℕ) (planId : Option String) (attemptId contextId : String)
    (E : TaskExecutionProjection) : Except StoreError TaskExecutionProjection := do
  let a ← orConflict "Unknown Task Attempt" (E.attempts.get attemptId)
  E.checkOwnedOpen a.reservation.node
  requireConflict (!(a.started || a.released || a.settlement.isSome || a.preparedEpoch ≠ epoch ||
    a.contextId.isSome || planId ≠ some a.planId)) "Task context cannot bind this reservation"
  return E.setAttempt attemptId { a with contextId := some contextId }

/-- `Started`: the Attempt begins under the writer epoch that prepared it. -/
def applyStarted (epoch time : ℕ) (attemptId : AttemptId) (E : TaskExecutionProjection) :
    Except StoreError TaskExecutionProjection := do
  let a ← orConflict "Unknown Task Attempt" (E.attempts.get attemptId)
  E.checkOwnedOpen a.reservation.node
  requireConflict (!(a.contextId.isNone || a.started || a.released || a.settlement.isSome ||
    a.preparedEpoch ≠ epoch)) "Task Attempt cannot start under this writer epoch"
  let (_, budget) ← budgetReply (E.budget.begin a.reservation.id time)
  return { E with
    budget := budget
    attempts := E.attempts.insert attemptId
      { a with started := true, startedUnixMs := some time } }

/-- `Released`: an Attempt that never started. The record is not asked whether the
Attempt was released before; the budget answers a second release as it did the first. -/
def applyReleased (cas : Cas) (attemptId : AttemptId) (E : TaskExecutionProjection) :
    Except StoreError TaskExecutionProjection := do
  let a ← orConflict "Unknown Task Attempt" (E.attempts.get attemptId)
  let (_, budget) ← budgetReply (E.budget.release a.reservation.id)
  return { E with
    budget := budget
    ledger := E.ledger.fence cas.sha256 a.reservation.node
    attempts := E.attempts.insert attemptId { a with released := true } }

/-- What a settlement charges, as its native observations are judged. -/
def TaskSettlement.observedCharge (s : TaskSettlement) : ObservedCharge :=
  if s.result.isAbandoned then .abandoned else .settlement s.unknownUsage.isSome

/-- A successful settlement names an output of its own Attempt and invocation. -/
def checkSucceeded (cas : Cas) (taskId : String) (a : RecordedAttempt) (s : TaskSettlement)
    (E : TaskExecutionProjection) : Except StoreError Unit :=
  match s.result with
  | .succeeded outputId => do
    let out ← cas.output outputId
    cas.attemptProducer taskId a.reservation.node s.attemptId outputId
    requireConflict (out.invocationId = a.invocationId)
      "Task Attempt returned another invocation's output"
    let _ ← verifyOutput cas E out
    return
  | _ => return

/-- Everything a settlement must show before it is charged. -/
def checkSettlement (cas : Cas) (taskId : String) (a : RecordedAttempt) (s : TaskSettlement)
    (E : TaskExecutionProjection) : Except StoreError Unit := do
  requireConflict (!(!a.started || a.released || a.settlement.isSome))
    "Task settlement has no unsettled started Attempt"
  requireConflict (!(s.unknownUsage.isSome && a.usageObserved))
    "A Task Attempt with observed usage cannot settle as unknown"
  validateUsage cas taskId s.attemptId a s.chargedTokens s.rawArtifactIds
    (TaskSettlement.observedCharge s)
  checkSucceeded cas taskId a s E
  requireConflict (!(s.result.isAbandoned && s.unknownUsage.isNone && s.usageId.isNone &&
    !a.usageObserved && s.chargedTokens < a.reservation.tokens))
    ("Abandoned Task work below its reservation needs a usage report or the " ++
      "unknown-usage marker")

/-- Why an abandoned Attempt was abandoned, by the epoch that settles it. -/
def abandonCause (epoch : ℕ) (a : RecordedAttempt) (s : TaskSettlement) :
    Option TaskAbandonCause :=
  if s.result.isAbandoned then
    some (if a.preparedEpoch = epoch then .hostCancelled else .writerLost)
  else none

/-- Abandoned work is no answer of its Attempt: it leaves the Attempt limits. -/
def recoverAbandoned (budget : TaskBudget) (id : String) (abandoned : Bool) :
    Except StoreError TaskBudget :=
  if abandoned then do
    let (_, budget) ← budgetReply (budget.recover id)
    return budget
  else return budget

/-- Fence the node of a settled Attempt or select its output: only a success under the
epoch that prepared the Attempt is selected. -/
def concludeLedger (sha256 : List UInt8 → List UInt8) (epoch : ℕ) (a : RecordedAttempt)
    (s : TaskSettlement) (charge : ℕ) (ledger : AttemptLedger) :
    Except StoreError AttemptLedger :=
  if !s.result.isSucceeded || a.preparedEpoch ≠ epoch then
    return ledger.fence sha256 a.reservation.node
  else do
    let (selection, ledger) ← textConflict (ledger.admitExact ⟨s.attemptId, charge⟩)
    requireConflict (selection = .selected) "Task settlement was quarantined"
    return ledger

/-- The settled record of an Attempt. -/
def settledAttempt (epoch time previousWriterTime : ℕ) (a : RecordedAttempt)
    (s : TaskSettlement) : RecordedAttempt :=
  { a with
    settlement := some s
    settledUnixMs := some time
    abandoned := abandonCause epoch a s
    abandonedUnixMs := (abandonCause epoch a s).map fun
      | .hostCancelled => time
      | .writerLost => previousWriterTime }

/-- `Settled`: started work concludes, is charged, and is selected or fenced. -/
def applySettled (cas : Cas) (taskId : String) (epoch time previousWriterTime : ℕ)
    (s : TaskSettlement) (E : TaskExecutionProjection) :
    Except StoreError TaskExecutionProjection := do
  let a ← orConflict "Unknown Task Attempt" (E.attempts.get s.attemptId)
  checkSettlement cas taskId a s E
  let charge := E.cumulativeCharge s.attemptId s.chargedTokens
  let (_, budget) ← budgetReply (E.budget.settleExact a.reservation.id charge)
  let ledger ← textConflict (E.ledger.chargeExact s.attemptId charge)
  let budget ← recoverAbandoned budget a.reservation.id s.result.isAbandoned
  let ledger ← concludeLedger cas.sha256 epoch a s charge ledger
  return { E with
    budget := budget
    ledger := ledger
    attempts := E.attempts.insert s.attemptId (settledAttempt epoch time previousWriterTime a s) }

/-- The Attempt a publication names, or the right to publish without one. -/
def checkPublisher (node outputId : String) (attemptId : Option AttemptId)
    (E : TaskExecutionProjection) : Except StoreError Unit :=
  match attemptId with
  | some id => do
    let a ← orConflict "Unknown output Attempt" (E.attempts.get id)
    let selected ← orConflict "Task output has no successful settlement" a.succeededOutput
    requireConflict (selected = outputId &&
      (E.ledger.attempt id).map Attempt.state = some .selected) "Task output is stale or fenced"
  | none => do
    let resolved ← E.resolveNode node
    requireConflict resolved.allowance.isNone "A paid Task node needs a settled selected Attempt"

/-- `Published`: the ports of a node's output become readable. -/
def applyPublished (cas : Cas) (outputId : String) (attemptId : Option AttemptId)
    (E : TaskExecutionProjection) : Except StoreError TaskExecutionProjection := do
  let out ← cas.output outputId
  let input ← verifyOutput cas E out
  let resolved ← E.resolveNode input.node
  requireConflict (resolved.owned.isNone && !E.graph.ownedChildren.contains input.node)
    "Owned child publication requires its registered ownership record"
  requireConflict (!E.outputs.contains input.node) "Task output has already been published"
  checkPublisher input.node outputId attemptId E
  return { E with outputs := E.outputs.insert input.node (outputId, out) }

/-- What a record's branch reads of the Task: its identity, its plan, its writer. -/
structure RecordContext where
  taskId : String
  revisionId : String
  planId : Option String
  epoch : ℕ
  previousWriterTime : ℕ
  time : ℕ
  deriving DecidableEq, Repr

/-- `check_review_integration_record`: after its Round closed, only the active
Integration node dispatches. -/
def checkIntegrationRecord (E : TaskExecutionProjection) (cas : Cas) :
    ExecutionRecord → Except StoreError Unit
  | .invocation invocationId => do
    let input ← cas.invocation invocationId
    E.checkIntegrationNode input.node
  | .reserved r => do
    let input ← cas.invocation r.invocationId
    E.checkIntegrationNode input.node
  | .contextBound attemptId _ | .started attemptId => do
    let a ← orConflict "Unknown Task Attempt" (E.attempts.get attemptId)
    E.checkIntegrationNode a.reservation.node
  | .published outputId _ => do
    let out ← cas.output outputId
    let input ← cas.invocation out.invocationId
    E.checkIntegrationNode input.node
  | .ownedChildrenRegistered _ | .ownedChildPublished _ _ _ | .ownedChildrenCompleted _ _ =>
    requireConflict E.activeReviewIntegration.isNone
      "Integration cannot dispatch or publish an old Round owned node"
  | _ => return

/-- The branches of `apply_execution` on the projection. -/
def applyRecord (E : TaskExecutionProjection) (cas : Cas) (c : RecordContext)
    (record : ExecutionRecord) : Except StoreError TaskExecutionProjection :=
  match record with
  | .experimentPrepared preparedId => do
    let planId ← orConflict "Task has no plan" c.planId
    prepareExperiment cas E c.revisionId planId preparedId
  | .experimentPlanDecided preparedId decisionId => do
    let _ ← orConflict "Task has no plan" c.planId
    decideExperiment cas E preparedId decisionId c.time
  | .experimentChildrenRegistered preparedId decisionId childPlanId => do
    let planId ← orConflict "Task has no plan" c.planId
    registerExperiment cas E planId preparedId decisionId childPlanId c.time
  | .ownedChildrenRegistered childSetId => registerOwned cas E childSetId
  | .ownedChildPublished childSetId outputId attemptId =>
    publishOwned cas E c.taskId childSetId outputId attemptId
  | .ownedChildrenCompleted childSetId outputId => completeOwned cas E childSetId outputId
  | .usageObserved attemptId chargedTokens _ rawArtifactIds =>
    applyUsageObserved cas c.taskId attemptId chargedTokens rawArtifactIds E
  | .invocation invocationId => applyInvocation cas c.taskId c.planId invocationId E
  | .reserved r => applyReserved cas c.epoch c.time r E
  | .contextBound attemptId contextId => applyContextBound c.epoch c.planId attemptId contextId E
  | .started attemptId => applyStarted c.epoch c.time attemptId E
  | .released attemptId _ => applyReleased cas attemptId E
  | .settled s => applySettled cas c.taskId c.epoch c.time c.previousWriterTime s E
  | .published outputId attemptId => applyPublished cas outputId attemptId E

/-! ## Handoff and gate retry -/

/-- Install another graph over the budget that is there: feasibility uses the remaining
capacity, while the ledger keeps every spent reservation and the original deadline. -/
def installGraph (E : TaskExecutionProjection) (graph : CompiledTask) (time : ℕ)
    (preparation : Bool) : Except StoreError TaskExecutionProjection := do
  let _ ← mapConflict (graph.budget E.budget.remainingLimits)
  let installation ← mapConflict graph.installation
  let (_, budget) ← budgetReply (E.budget.installGraph installation time preparation)
  let (_, budget) ← budgetReply
    (budget.installRecoveryAllowances graph.recoveryAllowances.entries)
  return { E with graph := graph, budget := budget }

/-- `enter_execution`: the planned graph takes over the budget and every Attempt. -/
def enterExecution (E : TaskExecutionProjection) (graph : CompiledTask) (time : ℕ) :
    Except StoreError TaskExecutionProjection := do
  requireConflict E.pendingAttempts.isEmpty "Planning handoff has pending Attempts"
  let E ← E.installGraph graph time false
  return { E with invocations := .empty, outputs := .empty, experiments := .empty }

/-- The old plan's budget is closed and nothing of its graph is current any more. -/
def invalidatePlan (E : TaskExecutionProjection) (time : ℕ) :
    Except StoreError TaskExecutionProjection := do
  let (_, budget) ← budgetReply (E.budget.invalidatePlan time)
  return { E with
    budget := budget
    activeReviewIntegration := none
    invocations := .empty
    outputs := .empty }

/-- `reopen_gate`: clear what a gate retry runs again. The gate's own invocation stays,
because its sealed candidate does not change. -/
def reopenGate (E : TaskExecutionProjection) (node : String) : TaskExecutionProjection :=
  let after := E.graph.downstreamOf node
  { E with
    outputs := after.foldl OrdMap.erase (E.outputs.erase node)
    invocations := after.foldl OrdMap.erase E.invocations
    retired := E.retired ∪ ((E.attempts.entries.filter fun e =>
      (e.2.reservation.node = node || after.contains e.2.reservation.node) &&
        e.2.succeededOutput.isSome).map Prod.fst).toFinset }

end TaskExecutionProjection

end Afactory
