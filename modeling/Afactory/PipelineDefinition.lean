import Mathlib
import Afactory.Checks
import Afactory.CompiledTask
import Afactory.PipelinePlan
import Afactory.RepoPath
import Afactory.TaskRecords

/-!
# Pipeline definitions

`review-core/src/task/pipeline.rs` and the Task revision of `review-core/src/task.rs`: what a
reusable Pipeline declares, what a Task asks of it, and the validation of both.

* `PipelineDefinition`: contract, Worker slots, static nodes and their public outputs;
* `PipelineDefinition.validate`: names, versions, bounds and references;
* `RevisionDocument`: a Task revision as it is submitted.
-/

namespace Afactory

/-! ## Names -/

/-- The parts of a text between its slashes. -/
def splitSlashes : List Char → List (List Char)
  | [] => [[]]
  | c :: cs =>
    if c = '/' then [] :: splitSlashes cs
    else match splitSlashes cs with
      | [] => [[c]]
      | part :: parts => (c :: part) :: parts

/-- `is_name` of a text. -/
def isNameText (value : String) : Bool := isName value.toList

/-- `is_package_name`: at most 256 bytes of names between slashes. -/
def isPackageName (value : String) : Bool :=
  value ≠ "" && value.utf8ByteSize ≤ 256 && (splitSlashes value.toList).all isName

/-! ## Ports and contracts -/

/-- `declares_brief`. -/
def PipelinePort.declaresBrief (port : PipelinePort) : Bool :=
  port.rootDefault = some .projectBrief || port.brief.isSome

/-- The input an affinity names. -/
def PortAffinity.input : PortAffinity → Option String
  | .unbound => none
  | .sameAs input => some input
  | .derivedFrom input => some input

/-- `PipelinePortV1::validate`. -/
def PipelinePort.validate (port : PipelinePort) : Except String Unit := do
  ensure (isArtifactType port.artifactType) "Pipeline port requires a versioned artifact type"
  ensure (port.affinity.input.all isNameText) "Invalid port affinity input"
  ensure (port.covers.all isNameText) "Invalid public coverage name"
  match port.rootDefault with
  | some .emptyReviewHistory =>
    ensure (port.artifactType = "af/ReviewHistory@1" && port.cardinality = .one)
      "Empty review history is only a default for a single ReviewHistory port"
  | some .projectBrief =>
    ensure (port.artifactType = "af/ProjectBrief@1" && port.cardinality = .one && port.optional &&
        port.affinity = .unbound && port.brief.any isNameText)
      ("A project_brief root default is one optional unbound af/ProjectBrief@1 port naming its " ++
        "variant in `brief`")
  | none => .ok ()
  ensure (port.brief.isNone || port.rootDefault = some .projectBrief)
    "A port names a `brief` variant only with root_default = \"project_brief\""

/-- One port of a contract, an input or an output. -/
def PipelineContract.checkPort (contract : PipelineContract) (isInput : Bool)
    (entry : String × PipelinePort) : Except String Unit := do
  let (name, port) := entry
  ensure (isNameText name) "Invalid Pipeline port name"
  port.validate
  ensure (port.affinity.input.all fun input =>
      contract.inputs.contains input && (!isInput || input ≠ name))
    "Port affinity must reference another declared public input"

/-- `PipelineContractV1::validate`. -/
def PipelineContract.validate (contract : PipelineContract) : Except String Unit := do
  ensure (!contract.outputs.entries.isEmpty) "Pipeline must declare public outputs"
  contract.inputs.entries.forM (contract.checkPort true)
  contract.outputs.entries.forM (contract.checkPort false)
  ensure (contract.outputs.values.all fun p => p.rootDefault.isNone)
    "Public outputs cannot have root defaults"
  ensure (contract.inputs.values.all fun p => p.covers.isEmpty)
    "Only public outputs declare coverage"

/-! ## Nodes and slots -/

/-- `ValueRefV1`. -/
inductive ValueRef where
  | input (port : String)
  | node (node port : String)
  deriving DecidableEq, Repr

def ValueRef.validate (reference : ValueRef) : Except String Unit :=
  ensure (match reference with
    | .input port => isNameText port
    | .node id port => isNameText id && isNameText port) "Invalid named Pipeline reference"

/-- `WorkerSlotV1` in full. -/
structure PipelineSlot extends WorkerSlot where
  inputType : String
  outputType : String
  minAttempts : ℕ
  maxAttempts : ℕ
  allowLocalReplacement : Bool := false
  independentFrom : Finset String := ∅
  deriving DecidableEq

namespace PipelineSlot

/-- `recovery_allowance`. -/
def recoveryAllowance (slot : PipelineSlot) : ℕ :=
  slot.recoveryAttempts.getD defaultRecoveryAttempts

def validate (slot : PipelineSlot) : Except String Unit := do
  ensure (isPackageName slot.worker && isNameText slot.role) "Invalid Worker slot identity"
  ensure (isArtifactType slot.inputType && isArtifactType slot.outputType)
    "Worker slot needs typed input/output contracts"
  ensure (0 < slot.maxAttempts && slot.minAttempts ≤ slot.maxAttempts)
    "Worker slot Attempt bounds are invalid"
  ensure (slot.recoveryAttempts.all fun count => count ≤ maxRecoveryAttempts)
    "A Worker slot's recovery_attempts is at most 8"
  ensure (∀ other ∈ slot.independentFrom, isNameText other) "Invalid independent slot reference"

end PipelineSlot

/-- `NodeConditionV1`. -/
structure NodeCondition where
  node : String
  outcome : ReceiptOutcome
  deriving DecidableEq, Repr

/-- `TaskNodeV1`; `condition` is its `when`. -/
structure TaskNode where
  id : String
  operator : TaskOperator
  inputs : OrdMap String ValueRef := .empty
  condition : Option NodeCondition := none
  deriving DecidableEq

/-- `TaskFactV1`. -/
inductive TaskFact where
  | boolean (value : Bool)
  | text (value : String)
  | integer (value : ℤ)
  deriving DecidableEq, Repr

def TaskFact.validate : TaskFact → Except String Unit
  | .boolean _ => .ok ()
  | .text value => ensure (value.length ≤ 4096) "Task fact text is too large"
  | .integer value =>
    ensure (-(safeIntegerMax : ℤ) ≤ value && value ≤ safeIntegerMax) "Unsafe Task fact integer"

/-! ## Definitions -/

/-- `PipelineSchema`. -/
inductive PipelineSchema where
  | v1
  | v2
  | v3
  | v4
  deriving DecidableEq, Repr

/-- `PipelineApplicabilityV1`. -/
structure PipelineApplicability where
  kinds : List String
  requiredFacts : OrdMap String TaskFact := .empty
  deriving DecidableEq

/-- `PipelineDefinitionV1`. -/
structure PipelineDefinition where
  schema : PipelineSchema
  name : String
  version : String
  contract : PipelineContract
  accepts : PipelineApplicability
  slots : OrdMap String PipelineSlot := .empty
  nodes : List TaskNode
  outputs : OrdMap String ValueRef := .empty
  coverage : OrdMap String ValueRef := .empty
  maxAttempts : ℕ
  maxParallel : ℕ
  deriving DecidableEq

namespace PipelineDefinition

def isStructured (node : TaskNode) : Bool := node.operator = .structuredAccept

def isWorkerOrStructured (node : TaskNode) : Bool :=
  match node.operator with
  | .worker _ => true
  | .structuredAccept => true
  | _ => false

/-- `validate_version`: each version is the shape of a Pipeline that declares what it adds. -/
def validateVersion (D : PipelineDefinition) : Except String Unit :=
  let structured := D.nodes.any isStructured
  if structured || D.schema = .v4 then
    ensure (structured && D.schema = .v4 && D.nodes.all isWorkerOrStructured)
      ("Structured acceptance requires af.pipeline/4; af.pipeline/4 requires structured " ++
        "acceptance")
  else
    let briefed := ((D.contract.inputs.entries ++ D.contract.outputs.entries).find? fun e =>
      e.2.declaresBrief).map Prod.fst
    let recovering := (D.slots.entries.find? fun e => e.2.recoveryAttempts.isSome).map Prod.fst
    match D.schema, briefed, recovering with
    | .v1, _, some slot => .error ("Pipeline " ++ D.name ++ " declares recovery_attempts on slot " ++
        slot ++ " under af.pipeline/1, which has no recovery allowance: a pipeline whose slot " ++
        "declares recovery_attempts declares schema = \"af.pipeline/3\"")
    | .v2, _, some slot => .error ("Pipeline " ++ D.name ++ " declares recovery_attempts on slot " ++
        slot ++ " under af.pipeline/2, which has no recovery allowance: a pipeline whose slot " ++
        "declares recovery_attempts declares schema = \"af.pipeline/3\"")
    | .v1, some port, none => .error ("Pipeline " ++ D.name ++ " declares the Project Brief port " ++
        port ++ " under af.pipeline/1, which has no Brief port: a pipeline with a " ++
        "`project_brief` port declares schema = \"af.pipeline/2\"")
    | .v2, none, none => .error ("Pipeline " ++ D.name ++ " is af.pipeline/2 but declares no " ++
        "`project_brief` port: af.pipeline/2 is the shape of a pipeline with a Project Brief " ++
        "port, and every other pipeline declares schema = \"af.pipeline/1\"")
    | .v3, _, none => .error ("Pipeline " ++ D.name ++ " is af.pipeline/3 but no slot declares " ++
        "recovery_attempts: af.pipeline/3 is the shape of a pipeline with a slot recovery " ++
        "allowance; declare schema = \"af.pipeline/2\" for a pipeline with only a Project Brief " ++
        "port and \"af.pipeline/1\" for every other")
    | _, _, _ => .ok ()

/-- The operator of one node. -/
def checkOperator (D : PipelineDefinition) (node : TaskNode) : Except String Unit :=
  match node.operator with
  | .worker slot | .verify slot | .fixVerify slot =>
    ensure (D.slots.contains slot) "Operator refers to an unknown Worker slot"
  | .optimizationExperiment baseline candidate =>
    ensure (baseline ≠ candidate && D.slots.contains baseline && D.slots.contains candidate)
      "Optimization experiment needs distinct captured baseline/candidate slots"
  | .check checks remoteChecks => do
    ensure ((checks ++ remoteChecks).all isNameText) "Check operator needs named trusted checks"
    ensure (!(checks.isEmpty && remoteChecks.isEmpty))
      ("Pipeline " ++ D.name ++ " node " ++ node.id ++ " names no check: list at least one check " ++
        "in `checks` or `remote_checks`")
    match checks.find? remoteChecks.contains with
    | some check => throw ("Pipeline " ++ D.name ++ " node " ++ node.id ++ " lists check " ++
        check ++ " in both `checks` and `remote_checks`; a check runs in one place, so keep it " ++
        "in one list")
    | none => return
  | .measure measures =>
    ensure (!measures.isEmpty && measures.length ≤ 16 && measures.all isNameText)
      "Measure operator needs one to 16 named measures"
  | .compare objective => ensure (isNameText objective) "Compare operator needs a named objective"
  | .call pipeline bindings => do
    ensure (isPackageName pipeline) "Invalid child Pipeline reference"
    ensure (bindings.all fun (child, parent) => isNameText child && D.slots.contains parent)
      "Invalid child Worker slot mapping"
  | _ => .ok ()

/-- One node, given the ids before it. -/
def checkNode (D : PipelineDefinition) (ids : List String) (node : TaskNode) :
    Except String (List String) := do
  ensure (isNameText node.id && !ids.contains node.id) "Duplicate or invalid Pipeline node ID"
  node.inputs.entries.forM fun (port, reference) => do
    ensure (isNameText port) "Invalid operator input name"
    reference.validate
  D.checkOperator node
  return ids ++ [node.id]

/-- One slot, with the Attempts reserved so far. -/
def checkSlot (D : PipelineDefinition) (reserved : ℕ) (entry : String × PipelineSlot) :
    Except String ℕ := do
  let (name, slot) := entry
  ensure (isNameText name) "Invalid Worker slot name"
  slot.validate
  ensure (∀ other ∈ slot.independentFrom, other ≠ name && D.slots.contains other)
    "Independence must reference another declared slot"
  ensure (reserved + slot.minAttempts < u32Bound) "Attempt reservation overflow"
  return reserved + slot.minAttempts

/-- A reference names a declared producer. -/
def checkReference (D : PipelineDefinition) (ids : List String) (reference : ValueRef) :
    Except String Unit := do
  reference.validate
  ensure (match reference with
    | .input port => D.contract.inputs.contains port
    | .node id _ => ids.contains id) "Pipeline reference has no declared producer"

/-- `PipelineDefinitionV1::validate`. -/
def validate (D : PipelineDefinition) : Except String Unit := do
  ensure (isPackageName D.name && !isBlank D.version) "Invalid Pipeline name/version"
  D.contract.validate
  D.validateVersion
  ensure (!D.nodes.isEmpty && D.nodes.length ≤ 64) "Pipeline must contain one to 64 static nodes"
  ensure (0 < D.maxAttempts && 1 ≤ D.maxParallel && D.maxParallel ≤ 16)
    "Invalid Pipeline execution bounds"
  ensure (!D.accepts.kinds.isEmpty && D.accepts.kinds.all isPackageName)
    "Invalid Pipeline root applicability"
  D.accepts.requiredFacts.entries.forM fun (name, fact) => do
    ensure (isNameText name) "Invalid applicability fact"
    fact.validate
  ensure (D.outputs.keys = D.contract.outputs.keys)
    "Every public output must have exactly one binding"
  let ids ← D.nodes.foldlM D.checkNode []
  let reserved ← D.slots.entries.foldlM D.checkSlot 0
  ensure (reserved ≤ D.maxAttempts) "Pipeline cannot hold its reserved Worker Attempts"
  D.nodes.forM fun node =>
    ensure (node.condition.all fun condition =>
        condition.node ≠ node.id && ids.contains condition.node)
      "Condition must refer to another declared receipt producer"
  ((D.nodes.map fun n => n.inputs.values).flatten ++ D.outputs.values ++ D.coverage.values).forM
    (D.checkReference ids)
  ensure (D.coverage.keys.all isNameText && D.contract.outputs.values.all fun p =>
      p.covers.all D.coverage.contains)
    "Public coverage must have an internal evidence binding"

end PipelineDefinition

/-! ## Task revisions -/

/-- `ArtifactInputV1::validate`. -/
def ArtifactInput.validate (input : ArtifactInput) : Except String Unit :=
  ensure (input.artifactIds.all isDigest && input.artifactIds.Nodup &&
      (input.cardinality = .many || input.artifactIds.length = 1) &&
      isArtifactType input.artifactType && input.snapshotId.all isDigest)
    "Task input requires an exact artifact ID, versioned type and valid Snapshot ID"

/-- One part of `owner/name`. -/
def isGithubPart (part : List Char) : Bool :=
  1 ≤ part.length && part.length ≤ 100 && part ≠ ['.'] && part ≠ ['.', '.'] &&
    part.all fun c => c.isAlphanum || c = '.' || c = '_' || c = '-'

/-- `is_github_name`. -/
def isGithubName (value : List Char) : Bool :=
  match splitOnce '/' value with
  | some (owner, name) => isGithubPart owner && isGithubPart name
  | none => false

/-- `github_of_destination`. -/
def githubOfDestination (destination : String) : Option String :=
  if "github:".toList.isPrefixOf destination.toList &&
      isGithubName (destination.toList.drop 7) then
    some (String.ofList (destination.toList.drop 7))
  else none

/-- `TaskAuthorityV1::validate`. -/
def TaskAuthority.validate (authority : TaskAuthority) : Except String Unit := do
  ensure (isDigest authority.policyId) "Task policy must be an exact artifact ID"
  ensure (authority.allowedEffects.all isNameText && authority.dataDestinations.all fun s =>
      isNameText s || (githubOfDestination s).isSome)
    "Task effects and destinations must name trusted policy entries"

/-- `AcceptanceObligationV1`. -/
structure AcceptanceObligation where
  evidenceType : String
  verifierPolicy : String
  deriving DecidableEq, Repr

def AcceptanceObligation.validate (obligation : AcceptanceObligation) : Except String Unit :=
  ensure (isArtifactType obligation.evidenceType && isDigest obligation.verifierPolicy)
    "Acceptance needs a versioned evidence type and exact trusted verifier policy"

/-- `TaskProvenanceV1`. -/
structure TaskProvenance where
  adapterId : String
  inputArtifactIds : List String := []
  deriving DecidableEq, Repr

/-- `TaskRevisionV1` in full; `pipeline` is the name of its Pipeline choice. -/
structure RevisionDocument where
  taskId : String
  revision : ℕ
  previousRevisionId : Option String := none
  kind : String
  goal : String
  inputs : OrdMap String ArtifactInput := .empty
  requiredOutputs : OrdMap String RequiredOutput := .empty
  acceptance : OrdMap String AcceptanceObligation := .empty
  provenance : TaskProvenance
  authority : TaskAuthority
  limits : TaskLimits
  strategy : String
  pipeline : Option String := none
  facts : OrdMap String TaskFact := .empty
  deriving DecidableEq

/-- `TaskRevisionV1::validate`. -/
def RevisionDocument.validate (task : RevisionDocument) : Except String Unit := do
  ensure (isNameText task.taskId && isPackageName task.kind) "Invalid Task identity or kind"
  ensure (0 < task.revision) "Task revision starts at one"
  ensure (if task.revision = 1 then task.previousRevisionId.isNone
      else task.previousRevisionId.any isDigest) "Task revision must retain its exact predecessor"
  ensure (!isBlank task.goal && task.goal.length ≤ 65536) "Task goal must be present and bounded"
  ensure (isNameText task.strategy) "Invalid Task strategy"
  ensure (!task.acceptance.entries.isEmpty) "Task must declare acceptance obligations"
  ensure (!task.requiredOutputs.entries.isEmpty && task.requiredOutputs.entries.all
      fun (name, output) => isNameText name && isArtifactType output.artifactType)
    "Task must declare typed required outputs"
  ensure (isDigest task.provenance.adapterId && task.provenance.inputArtifactIds.all isDigest &&
      task.provenance.inputArtifactIds.Nodup)
    "Task provenance requires an exact adapter and unique input identities"
  task.authority.validate
  task.limits.validate.mapError TaskBudgetError.message
  task.inputs.entries.forM fun (name, input) => do
    ensure (isNameText name) "Invalid Task input name"
    input.validate
  task.acceptance.entries.forM fun (name, obligation) => do
    ensure (isNameText name) "Invalid acceptance obligation name"
    obligation.validate
  ensure (task.pipeline.all isPackageName) "Invalid Pipeline choice"
  task.facts.entries.forM fun (name, value) => do
    ensure (isNameText name) "Invalid Task fact name"
    value.validate

end Afactory
