import Mathlib
import Afactory.Checks
import Afactory.TaskBudget

/-!
# The compiled graph of a Task

The parts of `CompiledTask` of `review-graph/src/task.rs` that admission and
execution read: the nodes with their operators and contracts, the allowances of
the nodes a plan pays for, the templates of owned children, the slots of
experiments, the dormant Integration node and the token scopes.

* `downstreamOf`: what runs again after a node does;
* `executionAllowances`, `recoveryAllowances`: what the budget accounts for;
* `budget`: the budget of a graph under a Task's limits, once the limits hold the
  declared verification and one Attempt of every mandatory node.
-/

namespace Afactory

/-! ## Ports and operators -/

inductive PortCardinality where
  | one
  | many
  deriving DecidableEq, Repr

/-- `ArtifactInputV1`: the artifacts of one port. -/
structure ArtifactInput where
  artifactIds : List String
  artifactType : String
  cardinality : PortCardinality := .one
  snapshotId : Option String := none
  deriving DecidableEq, Repr

/-- `Address`: an output port of a node. -/
structure PortAddress where
  node : String
  port : String
  deriving DecidableEq, Repr

inductive PortAffinity where
  | unbound
  | sameAs (input : String)
  | derivedFrom (input : String)
  deriving DecidableEq, Repr

inductive RootDefault where
  | emptyReviewHistory
  | projectBrief
  deriving DecidableEq, Repr

/-- `PipelinePortV1`. -/
structure PipelinePort where
  artifactType : String
  cardinality : PortCardinality := .one
  optional : Bool := false
  affinity : PortAffinity := .unbound
  rootDefault : Option RootDefault := none
  brief : Option String := none
  covers : List String := []
  deriving DecidableEq, Repr

/-- `PipelineContractV1`. -/
structure PipelineContract where
  inputs : OrdMap String PipelinePort := .empty
  outputs : OrdMap String PipelinePort := .empty
  deriving DecidableEq

inductive ReceiptOutcome where
  | passed
  | failed
  | inconclusive
  deriving DecidableEq, Repr

/-- `TaskOperatorV1`. -/
inductive TaskOperator where
  | worker (slot : String)
  | planningContext
  | documentSeal
  | documentCheck
  | documentAccept
  | structuredAccept
  | reportSeal
  | reportCheck
  | reportAccept
  | optimizationProject
  | optimizationProfile
  | optimizationPrepare
  | optimizationFinalize
  | optimizationExperiment (baselineSlot candidateSlot : String)
  | seal
  | accept
  | check (checks remoteChecks : List String)
  | verify (slot : String)
  | call (pipeline : String) (bindings : List (String × String))
  | reviewBind
  | reviewReduce
  | reviewAccept
  | attestFixes
  | repairAccept
  | reviewContinue
  | fixVerify (slot : String)
  | select
  | measure (measures : List String)
  | compare (objective : String)
  deriving DecidableEq, Repr

inductive ReviewOperation where
  | generation
  | gate
  | reviewer (slot : String)
  | gather
  | ledger
  | slicer
  | scatter (slot : String)
  deriving DecidableEq, Repr

inductive CompiledOperator where
  | rootInputs
  | reviewIntegrationChecks (sequencePolicyId : String)
  | select
  | providerAdmission (bindings : List String)
  | reviewDomain (reviewNode : String) (operation : ReviewOperation)
  | primitive (operator : TaskOperator) (signature : String)
  deriving DecidableEq, Repr

namespace CompiledOperator

def isProviderAdmission : CompiledOperator → Bool
  | .providerAdmission _ => true
  | _ => false

/-- Whether the operator is a check of the candidate, a gate. -/
def isCheck : CompiledOperator → Bool
  | .primitive (.check _ _) _ => true
  | _ => false

/-- The slot whose declaration bounds the node's recoveries. -/
def recoverySlot : CompiledOperator → Option String
  | .primitive (.worker slot) _ => some slot
  | .primitive (.verify slot) _ => some slot
  | .primitive (.fixVerify slot) _ => some slot
  | _ => none

end CompiledOperator

/-! ## The graph -/

structure CompiledCondition where
  source : PortAddress
  outcome : ReceiptOutcome
  deriving DecidableEq, Repr

structure CompiledNode where
  operator : CompiledOperator
  contract : PipelineContract := {}
  inputs : OrdMap String PortAddress := .empty
  conditions : List CompiledCondition := []
  deriving DecidableEq

/-- The nodes whose outputs a node reads, by an input or by a condition. -/
def CompiledNode.producers (node : CompiledNode) : List String :=
  node.inputs.values.map PortAddress.node ++ node.conditions.map fun c => c.source.node

structure CompiledCall where
  maxAttempts : ℕ
  maxParallel : ℕ
  deriving DecidableEq, Repr

/-- `OwnedChildTemplateV1`: what registered children inherit from their owner. -/
structure OwnedChildTemplate where
  operator : CompiledOperator
  contract : PipelineContract := {}
  allowance : NodeAllowance
  maxChildren : ℕ
  sourceInput : String
  itemInput : String
  inheritedInputs : OrdMap String String := .empty
  deriving DecidableEq

/-- `ExperimentalSlotTemplateV1`. -/
structure ExperimentalSlot where
  slotId : String
  maxConcurrency : ℕ
  deriving DecidableEq, Repr

/-- `CompiledReviewIntegrationV1`: the dormant node after a Review Round. -/
structure CompiledReviewIntegration where
  node : String
  sequencePolicyId : String
  allowance : NodeAllowance
  deriving DecidableEq, Repr

/-- The declared parts of `WorkerSlotV1`. -/
structure WorkerSlot where
  worker : String
  role : String
  recoveryAttempts : Option ℕ := none
  deriving DecidableEq, Repr

structure CompiledTask where
  schema : String
  nodes : OrdMap String CompiledNode
  order : List String
  inputs : OrdMap String ArtifactInput := .empty
  outputs : OrdMap String PortAddress := .empty
  coverage : OrdMap String PortAddress := .empty
  calls : OrdMap String CompiledCall := .empty
  slots : OrdMap String WorkerSlot := .empty
  maxParallel : ℕ := 1
  allowances : OrdMap String NodeAllowance := .empty
  ownedChildren : OrdMap String OwnedChildTemplate := .empty
  experimentalSlots : OrdMap String ExperimentalSlot := .empty
  reviewIntegration : Option CompiledReviewIntegration := none
  tokenScopes : OrdMap String TaskTokenScope := .empty
  deriving DecidableEq

/-- `is_digest`: the text of a SHA-256 content identity. -/
def isDigest (value : String) : Bool :=
  "sha256:".toList.isPrefixOf value.toList && (value.toList.drop 7).length = 64 &&
    (value.toList.drop 7).all fun c => c.isDigit || ('a' ≤ c && c ≤ 'f')

/-- `CompiledReviewIntegrationV1::validate`. -/
def CompiledReviewIntegration.validate (phase : CompiledReviewIntegration) :
    Except TaskBudgetError Unit :=
  require (!(4096 < phase.node.utf8ByteSize || !qualified phase.node ||
    !isDigest phase.sequencePolicyId || phase.allowance.tokensPerAttempt ≠ 0 ||
    phase.allowance.maxAttempts ≠ 1 || phase.allowance.verificationAttempts ≠ 0 ||
    phase.allowance.wallMsPerAttempt = 0))
    "Integration sequence requires an exact node, policy and one zero-token bounded Attempt"

/-- The ports of the dormant node: the sealed phase in, its checks out. -/
def CompiledReviewIntegration.definition (phase : CompiledReviewIntegration) : CompiledNode where
  operator := .reviewIntegrationChecks phase.sequencePolicyId
  contract := {
    inputs := OrdMap.ofList [("phase", { artifactType := "af/TaskReviewIntegrationPhase@1" })]
    outputs := OrdMap.ofList [("checks", {
      artifactType := "review.kernel/IntegrationChecks@1", affinity := .sameAs "phase" })] }

namespace CompiledTask

/-! ## Branches -/

/-- `condition_input`: the guard of a condition among a node's inputs. -/
def conditionInput (index : ℕ) : String := "af_condition_" ++ toString index

section Branches

variable (readOutcome : String → Except String ReceiptOutcome)
variable (inputs : OrdMap String (List String))

/-- The loop of `node_selected`: the first false condition drops the node, the first
missing receipt is named once every condition was read. -/
def conditionsHold : ℕ → Option String → List CompiledCondition → Except String Bool
  | _, none, [] => .ok true
  | _, some source, [] =>
    .error ("Required branch receipt was not produced: " ++ source ++ " did not publish one")
  | index, unavailable, c :: rest =>
    match (inputs.get (conditionInput index)).getD [] with
    | [] => conditionsHold (index + 1) (unavailable.or (some c.source.node)) rest
    | [id] => do
      let outcome ← readOutcome id
      if outcome ≠ c.outcome then return false
      conditionsHold (index + 1) unavailable rest
    | _ => .error "Branch condition has more than one receipt"

/-- `node_selected`: whether the branch a node stands on was taken. -/
def nodeSelected (G : CompiledTask) (node : String) : Except String Bool :=
  match G.nodes.get node with
  | none => .error "Unknown Task node"
  | some definition => conditionsHold readOutcome inputs 0 none definition.conditions

def outcomeName : ReceiptOutcome → String
  | .passed => "passed"
  | .failed => "failed"
  | .inconclusive => "inconclusive"

/-- `select_output`: the arm the admitted receipt names. -/
def selectOutput (G : CompiledTask) (node : String) :
    Except String (OrdMap String (List String)) :=
  match (G.nodes.get node).map CompiledNode.operator with
  | some .select =>
    match (inputs.get "condition").getD [] with
    | [receipt] => do
      let outcome ← readOutcome receipt
      let arm := outcomeName outcome
      match inputs.get arm with
      | none => throw "Select arm is absent"
      | some [] => throw ("Selected " ++ arm ++ " branch did not produce its required value")
      | some values => return OrdMap.ofList [("output", values)]
    | _ => .error "Select requires exactly one admitted receipt"
  | _ => .error "Node is not a typed Select"

end Branches

/-! ## The shape of a graph -/

/-- The version a graph's shape has. -/
def expectedSchema (G : CompiledTask) : String :=
  if G.nodes.values.any fun n => match n.operator with
      | .primitive .structuredAccept _ => true
      | _ => false then "af.compiled-task/3"
  else if G.slots.values.any fun slot => slot.recoveryAttempts.isSome then "af.compiled-task/2"
  else "af.compiled-task/1"

/-- Whether the graph carries the label of its shape. -/
def validSchema (G : CompiledTask) : Bool := G.schema = G.expectedSchema

/-- The recovery allowances the paid nodes' slots declare. -/
def recoveryAllowances (G : CompiledTask) : OrdMap String ℕ :=
  .ofList (G.allowances.keys.filterMap fun name =>
    (G.nodes.get name).bind fun node =>
      node.operator.recoverySlot.bind fun slot =>
        (G.slots.get slot).bind fun s => s.recoveryAttempts.map fun n => (name, n))

/-- The nodes not yet found that read an output of `current`. -/
def consumers (G : CompiledTask) (node current : String) (found : List String) : List String :=
  (G.nodes.entries.filter fun e =>
    !found.contains e.1 && e.1 ≠ node && e.2.producers.contains current).map Prod.fst

/-- The loop of `downstream_of`. Every node is pushed at most once, so one round
more than there are nodes empties the worklist. -/
def downstreamLoop (G : CompiledTask) (node : String) :
    ℕ → List String → List String → List String
  | 0, _, found => found
  | _ + 1, [], found => found
  | fuel + 1, current :: pending, found =>
    let next := G.consumers node current found
    downstreamLoop G node fuel (next.reverse ++ pending) (found ++ next)

/-- Every node that consumes the node's outputs, directly or through others. -/
def downstreamOf (G : CompiledTask) (node : String) : List String :=
  G.downstreamLoop node (G.nodes.entries.length + 1) [node] []

/-- The paid nodes, the dormant Integration node among them. -/
def executionAllowances (G : CompiledTask) : Except TaskBudgetError (OrdMap String NodeAllowance) :=
  match G.reviewIntegration with
  | none => return G.allowances
  | some phase => do
    phase.validate
    require (!(G.nodes.contains phase.node || G.ownedChildren.contains phase.node ||
      G.allowances.contains phase.node)) "Dormant Integration node collides with the Round graph"
    return G.allowances.insert phase.node phase.allowance

/-- The Attempt limit of every call. -/
def callLimits (G : CompiledTask) : OrdMap String ℕ := G.calls.mapVal fun _ c => c.maxAttempts

/-- `templates`: the owned children a budget may open. -/
def templates (G : CompiledTask) : OrdMap String OwnedNodeAllowance :=
  G.ownedChildren.mapVal fun _ t => ⟨t.allowance, t.maxChildren⟩

def checkExperimentalSlot (G : CompiledTask) (entry : String × ExperimentalSlot) :
    Except TaskBudgetError Unit :=
  let (owner, slot) := entry
  require (!(!G.nodes.contains owner || G.allowances.contains owner ||
    G.ownedChildren.contains owner || !isDigest slot.slotId || slot.maxConcurrency = 0 ||
    max G.maxParallel 1 < slot.maxConcurrency))
    ("Experimental slot needs a static zero-Attempt owner, exact slot identity and bounded " ++
      "concurrency")

def validateExperimentalSlots (G : CompiledTask) : Except TaskBudgetError Unit :=
  G.experimentalSlots.entries.forM G.checkExperimentalSlot

def checkOwnedTemplate (G : CompiledTask) (entry : String × OwnedChildTemplate) :
    Except TaskBudgetError Unit :=
  let (owner, template) := entry
  match G.nodes.get owner with
  | none => .error (.refused "Owned template has no static owner")
  | some parent =>
    require (!(G.allowances.contains owner || template.maxChildren = 0 ||
      template.allowance.verificationAttempts ≠ 0 ||
      !parent.contract.inputs.contains template.sourceInput ||
      !template.contract.inputs.contains template.itemInput ||
      template.inheritedInputs.contains template.itemInput ||
      template.contract.inputs.entries.length ≠ template.inheritedInputs.entries.length + 1 ||
      template.inheritedInputs.entries.any fun (child, parentPort) =>
        template.contract.inputs.get child ≠ parent.contract.inputs.get parentPort ||
          !parent.contract.inputs.contains parentPort))
      "Owned template must inherit an exact bounded contract without a parent Attempt"

def ownedTemplateAllowances (G : CompiledTask) :
    Except TaskBudgetError (OrdMap String OwnedNodeAllowance) := do
  G.ownedChildren.entries.forM G.checkOwnedTemplate
  return G.templates

/-! ## The budget of a graph -/

/-- What a Task must hold before dispatch. -/
structure Minimum where
  tokens : ℕ
  attempts : ℕ
  rootAttempts : ℕ
  scopes : OrdMap String ℕ

/-- Whether every Task run needs the node: no condition but a Provider admission. -/
def mandatory (G : CompiledTask) (node : CompiledNode) (allowance : NodeAllowance) : Bool :=
  allowance.verificationAttempts = 0 && node.conditions.all fun c =>
    match G.nodes.get c.source.node with
    | some source => source.operator.isProviderAdmission
    | none => false

/-- Raise the minimum of one token scope, if the node is its member. -/
def raiseScope (G : CompiledTask) (name : String) (amount : ℕ) (scopes : OrdMap String ℕ)
    (scope : String) : Except TaskBudgetError (OrdMap String ℕ) :=
  if ((G.tokenScopes.get scope).map fun s => s.contains name).getD false then do
    let minimum ← checked u64Bound "Task scope token total overflow"
      ((scopes.get scope).getD 0 + amount)
    return scopes.insert scope minimum
  else return scopes

/-- Add one paid node, or the template of an owner, to the minimum. -/
def addNode (G : CompiledTask) (m : Minimum) (entry : String × NodeAllowance) :
    Except TaskBudgetError Minimum := do
  let (name, allowance) := entry
  match G.nodes.get name with
  | none => throw (.refused "Allowance has no compiled node")
  | some node =>
    let owed ← checked u64Bound "Task scope verifier token overflow"
      (allowance.tokensPerAttempt * allowance.verificationAttempts)
    let scopes ← G.tokenScopes.keys.foldlM (G.raiseScope name owed) m.scopes
    if G.mandatory node allowance then
      let tokens ← addResource m.tokens allowance.tokensPerAttempt
      let scopes ← G.tokenScopes.keys.foldlM (G.raiseScope name allowance.tokensPerAttempt) scopes
      return ⟨tokens, m.attempts + 1, m.rootAttempts + 1, scopes⟩
    else return { m with scopes := scopes }

/-- The declared verification and one Attempt of every mandatory node. -/
def minimum (G : CompiledTask) (limits : TaskLimits) : Except TaskBudgetError Minimum :=
  (G.allowances.entries ++ G.ownedChildren.entries.map fun e => (e.1, e.2.allowance)).foldlM
    G.addNode ⟨limits.verification.tokens, limits.verification.attempts,
      G.allowances.sum fun _ a => a.verificationAttempts, G.tokenScopes.mapVal fun _ _ => 0⟩

def checkScopeMinimum (m : Minimum) (entry : String × TaskTokenScope) :
    Except TaskBudgetError Unit :=
  let (scope, declared) := entry
  let needed := (m.scopes.get scope).getD 0
  require (needed ≤ declared.tokens)
    ("Task token scope " ++ scope ++ " cannot retain verification and mandatory work: it needs " ++
      toString needed ++ " tokens and the Pipeline gives it " ++ toString declared.tokens)

/-- The refusal of limits below the minimum, with every term of the rule. -/
def cannotRetain (m : Minimum) (limits : TaskLimits) (allowances : OrdMap String NodeAllowance) :
    TaskBudgetError :=
  let reserves := (allowances.entries.filter fun e => 0 < e.2.verificationAttempts).map
    fun (node, a) => node ++ " " ++ toString a.verificationAttempts ++ " x " ++
      toString a.tokensPerAttempt ++ " tokens"
  .refused ("Task cannot retain verification reserves and mandatory work within its token and " ++
    "Attempt allowance: it needs tokens >= " ++ toString m.tokens ++ " (verification reserve " ++
    toString limits.verification.tokens ++ " + " ++
    toString (m.tokens - limits.verification.tokens) ++
    " for one Attempt of each mandatory Worker) and max_attempts >= " ++ toString m.attempts ++
    " (" ++ toString limits.verification.attempts ++ " + " ++
    toString (m.attempts - limits.verification.attempts) ++ "); the Task supplies tokens " ++
    toString limits.tokens ++ ", max_attempts " ++ toString limits.maxAttempts ++
    ", a deficit of " ++ toString (m.tokens - limits.tokens) ++ " tokens and " ++
    toString (m.attempts - limits.maxAttempts) ++
    " Attempts; reserves per verification slot: [" ++ "; ".intercalate reserves ++ "]")

/-- Before dispatch: the scopes, the Task and the root call hold the minimum. -/
def checkMinimum (G : CompiledTask) (limits : TaskLimits) : Except TaskBudgetError Unit := do
  let m ← G.minimum limits
  G.tokenScopes.entries.forM (checkScopeMinimum m)
  if limits.tokens < m.tokens || limits.maxAttempts < m.attempts then
    let allowances ← G.executionAllowances
    throw (cannotRetain m limits allowances)
  match G.calls.get "root" with
  | none => return
  | some call =>
    require (m.rootAttempts ≤ call.maxAttempts)
      ("Root Pipeline cannot retain verification and mandatory Provider admission within its " ++
        "Attempt bound: it needs " ++ toString m.rootAttempts ++
        " Attempts and the Pipeline's max_attempts is " ++ toString call.maxAttempts)

end CompiledTask

/-- `with_recovery_allowances`. -/
def TaskBudget.withRecoveryAllowances (B : TaskBudget) (allowances : OrdMap String ℕ) :
    Except TaskBudgetError TaskBudget :=
  -- the installation answers on every input, so the default is never taken
  match (B.installRecoveryAllowances allowances.entries).getD (.ok (), B) with
  | (.error e, _) => .error e
  | (.ok (), B') => .ok B'

namespace CompiledTask

/-- `CompiledTask::budget`. -/
def budget (G : CompiledTask) (limits : TaskLimits) : Except TaskBudgetError TaskBudget := do
  G.validateExperimentalSlots
  let templates ← G.ownedTemplateAllowances
  G.checkMinimum limits
  let allowances ← G.executionAllowances
  let B ← TaskBudget.new limits allowances
  let B ← B.withCallLimits G.callLimits
  let B ← B.withOwnedTemplates templates
  let B ← B.withTokenScopes G.tokenScopes
  B.withRecoveryAllowances G.recoveryAllowances

/-- The graph as a later installation hands it to the budget. -/
def installation (G : CompiledTask) : Except TaskBudgetError TaskBudget.Graph := do
  let allowances ← G.executionAllowances
  return {
    allowances := allowances
    callLimits := G.callLimits
    tokenScopes := G.tokenScopes
    ownedTemplates := G.templates }

end CompiledTask

end Afactory
