import Mathlib
import Afactory.Checks
import Afactory.Commands
import Afactory.CompiledTask
import Afactory.PipelineDefinition
import Afactory.SchedulerPlan

/-!
# Compiling a Pipeline

`compile_task` of `review-graph/src/task.rs`: the Pipeline a Task names is expanded, call by call,
into one graph of installed operators.

* `Compiler`: the graph so far, with what is known of every port it publishes;
* `Compiler.select`, `Compiler.primitive`: one node of a definition that is no call;
* `expand`: a Pipeline under its scope, its calls by `expand` itself;
* `compilation`, `compileTask`: from the root to an ordered graph within its Task's budget.

The recursion of `expand` and the rounds of its loop over the waiting nodes count down a fuel; a
run that has none left is `unfinished`, an outcome the code does not have.
-/

namespace Afactory

/-! ## What is installed -/

/-- `OperatorAttemptCost`. -/
structure AttemptCost where
  tokens : ℕ
  wallMs : ℕ
  deriving DecidableEq, Repr

/-- `OperatorSignature`: what the package resolver authenticated of an operator or a Worker. -/
structure OperatorSignature where
  contract : PipelineContract
  effects : Finset String := ∅
  /-- the verifier policies an output is evidence under -/
  evidence : OrdMap String (Finset String) := .empty
  /-- the inputs whose receipts an output retains -/
  retains : OrdMap String (Finset String) := .empty
  roles : Finset String := ∅
  workerInputType : Option String := none
  workerOutputType : Option String := none
  outcomePort : Option String := none
  unboundAllowed : Finset String := ∅
  attempt : Option AttemptCost := none
  deriving DecidableEq

/-- `CompileContext`. -/
structure CompileContext where
  pipelines : OrdMap String PipelineDefinition
  signatures : OrdMap String OperatorSignature
  slotWorkers : OrdMap String String := .empty
  acceptanceOutputs : OrdMap String String := .empty
  maxNodes : ℕ
  maxDepth : ℕ

/-! ## The compiler's state -/

/-- The place of an address in the order of addresses. -/
def PortAddress.rank (address : PortAddress) : String ×ₗ String :=
  toLex (address.node, address.port)

theorem PortAddress.rank_injective : Function.Injective PortAddress.rank := by
  rintro ⟨n, p⟩ ⟨n', p'⟩ h
  have hpair : (n, p) = (n', p') := toLex.injective h
  cases hpair
  rfl

instance : LinearOrder PortAddress := LinearOrder.lift' PortAddress.rank PortAddress.rank_injective

/-- `qualified`. -/
def PortAddress.qualified (address : PortAddress) : String := address.node ++ "." ++ address.port

/-- `Lineage`: the Snapshot a value belongs to; the arms of a choice are those of its receipt's
outcomes. -/
inductive Lineage where
  | root (snapshot : String)
  | derived (address : PortAddress) (parent : Lineage)
  | choice (condition : PortAddress) (passed failed inconclusive : Lineage)
  deriving DecidableEq

/-- `derived_from`. -/
def Lineage.derivedFrom : Lineage → Lineage → Bool
  | .root _, _ => false
  | .derived _ parent, source => parent = source || parent.derivedFrom source
  | .choice _ passed failed inconclusive, source =>
    passed.derivedFrom source && failed.derivedFrom source && inconclusive.derivedFrom source

/-- `CompiledCall` in full. -/
structure ExpandedCall extends CompiledCall where
  pipeline : String
  inputs : OrdMap String PortAddress
  outputs : OrdMap String PortAddress
  coverage : OrdMap String PortAddress
  deriving DecidableEq

/-- `Compiler`, with the parts of its graph. -/
structure Compiler where
  nodes : OrdMap String CompiledNode := .empty
  calls : OrdMap String ExpandedCall := .empty
  slots : OrdMap String PipelineSlot := .empty
  replacedWorkers : OrdMap String (Finset String) := .empty
  allowances : OrdMap String NodeAllowance := .empty
  stack : List String := []
  lineage : OrdMap PortAddress Lineage := .empty
  evidence : OrdMap PortAddress (Finset String) := .empty
  availability : OrdMap PortAddress (List CompiledCondition) := .empty
  outcomes : Finset PortAddress := ∅
  retained : OrdMap PortAddress (Finset PortAddress) := .empty
  resourceRefusals : List String := []
  /-- the largest stack so far, which the code does not record -/
  deepest : ℕ := 0

/-- The outputs of one node, or the inputs of one Pipeline. -/
abbrev Bound := OrdMap String PortAddress

/-- `Boundary`: the outputs of a Pipeline and the evidence under them. -/
abbrev Boundary := Bound × Bound

/-- Indexing a map; a key that is not there panics. -/
def entryAt {β : Type} (m : OrdMap String β) (key : String) : Except String β :=
  match m.get key with
  | some value => .ok value
  | none => .error "no entry found for key"

/-- `ok_or`. -/
def orRefuse {α : Type} (o : Option α) (text : String) : Except String α :=
  match o with
  | some a => .ok a
  | none => .error text

/-- The receipt of the release before this one. -/
def retiredReceipt : String := "af/TaskCheckReceipt@1"

/-- `refuse_retired_ports`. -/
def refuseRetiredPorts (contract : PipelineContract) : Except String Unit :=
  ensure ((contract.inputs.values ++ contract.outputs.values).all fun p =>
      p.artifactType ≠ retiredReceipt)
    ("af/TaskCheckReceipt@1 is the check receipt before ADR-0255, which this release neither " ++
      "writes nor reads; declare af/TaskCheckReceipt@2 instead and re-pin the package with " ++
      "`af catalog digest`")

def implementationTestEvidence : String := "af/ImplementationTestEvidence@1"

/-- A port of the current source's value. -/
def PipelinePort.current (p : PipelinePort) : Bool :=
  p.cardinality = .one && !p.optional && p.affinity = .sameAs "source"

/-- `validate_executable_review`. -/
def validateExecutableReview (s : OperatorSignature) : Except String Unit := do
  s.contract.outputs.entries.forM fun (name, p) =>
    ensure (p.artifactType ≠ implementationTestEvidence ||
        ("write-source" ∉ s.effects && "execute-checks" ∈ s.effects && p.current &&
          (s.retains.get name).any fun inputs => "source" ∈ inputs && "checks" ∈ inputs))
      ("Executable-review evidence requires immutable source, execute-checks and retained " ++
        "current source/checks")
  ensure (s.workerInputType ≠ some "af/ImplementationEvaluationInput@1" ||
      (s.contract.inputs.get "testing").any fun p =>
        p.artifactType = implementationTestEvidence && p.current)
    "ImplementationEvaluationInput requires one current testing port"
  s.contract.inputs.entries.forM fun (name, p) =>
    ensure (p.artifactType ≠ implementationTestEvidence ||
        (p.current && s.contract.outputs.entries.all fun (output, q) =>
          q.artifactType ≠ "af/TaskEvaluation@1" ||
            (s.retains.get output).any fun inputs => name ∈ inputs))
      "Executable-review evaluation requires current testing retained by evaluation"

namespace Compiler

variable (C : CompileContext) (S : Compiler)

/-! ## Lookups -/

/-- `require_node_capacity`. -/
def requireNodeCapacity : Except String Unit :=
  ensure (S.nodes.entries.length < C.maxNodes) "Expanded Task exceeds the node limit"

/-- `available`: whether every path that runs under the conditions produces the value. -/
def available (address : PortAddress) (conditions : List CompiledCondition) : Bool :=
  (S.availability.get address).all fun required => required.all conditions.contains

/-- `port`. -/
def port (address : PortAddress) : Except String PipelinePort :=
  orRefuse ((S.nodes.get address.node).bind fun n => n.contract.outputs.get address.port)
    ("Unknown producer " ++ address.qualified)

/-- `worker_slot`. -/
def workerSlot (node : String) : Option String :=
  match (S.nodes.get node).map CompiledNode.operator with
  | some (.primitive (.worker slot) _) => some slot
  | _ => none

/-- `compatible`. -/
def compatible (source : PortAddress) (target : PipelinePort) : Except String Unit := do
  let produced ← S.port source
  ensure (produced.artifactType = target.artifactType &&
      produced.cardinality = target.cardinality && (!produced.optional || target.optional))
    ("Incompatible producer " ++ source.qualified)

/-- `affinity`. -/
def affinity (address : PortAddress) (affinity : PortAffinity) (inputs : Bound) :
    Except String Unit :=
  match affinity.input with
  | none => .ok ()
  | some input => do
    let source ← orRefuse ((inputs.get input).bind S.lineage.get)
      ("Affinity input " ++ input ++ " is unavailable")
    let lineage ← orRefuse (S.lineage.get address) "Producer has no Snapshot lineage"
    ensure (match affinity with
      | .derivedFrom _ => lineage.derivedFrom source
      | _ => lineage = source)
      ("Producer " ++ address.qualified ++ " violates Snapshot lineage")

/-! ## Select -/

/-- What an arm of a Select carries: its lineage, its policies and its receipts. -/
abbrev SelectArm := PortAddress × Lineage × Finset String × Finset PortAddress

/-- One arm, on the path where its outcome was received. -/
def selectArm (bound : Bound) (conditions : List CompiledCondition) (output : PipelinePort)
    (condition : PortAddress) (outcome : ReceiptOutcome) : Except String SelectArm := do
  let arm := CompiledTask.outcomeName outcome
  let address ← entryAt bound arm
  ensure (S.available address (conditions ++ [⟨condition, outcome⟩]))
    ("Select " ++ arm ++ " value is unavailable on that path")
  S.compatible address output
  let lineage ← orRefuse (S.lineage.get address) "Missing Select lineage"
  return (address, lineage, (S.evidence.get address).getD ∅,
    (S.retained.get address).getD {address})

/-- `select`. -/
def select (qualified : String) (bound : Bound) (conditions : List CompiledCondition) :
    Except String (Bound × Compiler) := do
  ensure (bound.keys = ["condition", "failed", "inconclusive", "passed"])
    "Select requires condition, passed, failed and inconclusive inputs"
  let condition ← entryAt bound "condition"
  ensure (condition ∈ S.outcomes && S.available condition conditions)
    "Select condition is not an available trusted receipt"
  let passedPort ← S.port (← entryAt bound "passed")
  let output : PipelinePort := { passedPort with
    affinity := .unbound, optional := false, rootDefault := none, covers := [] }
  let conditionPort ← S.port condition
  let passed ← S.selectArm bound conditions output condition .passed
  let failed ← S.selectArm bound conditions output condition .failed
  let inconclusive ← S.selectArm bound conditions output condition .inconclusive
  S.requireNodeCapacity C
  -- two of the arms stay inactive, so each is optional as a physical port
  let arm : PipelinePort := { output with optional := true }
  let node : CompiledNode := {
    operator := .select
    contract := {
      inputs := .ofList [("condition", { conditionPort with affinity := .unbound }),
        ("passed", arm), ("failed", arm), ("inconclusive", arm)]
      outputs := .ofList [("output", output)] }
    inputs := bound
    conditions := conditions }
  let address : PortAddress := ⟨qualified, "output"⟩
  let (p, passedLineage, passedPolicies, passedReceipts) := passed
  let (f, failedLineage, failedPolicies, failedReceipts) := failed
  let (i, inconclusiveLineage, inconclusivePolicies, inconclusiveReceipts) := inconclusive
  let lineage :=
    if failedLineage = passedLineage ∧ inconclusiveLineage = passedLineage then passedLineage
    else .choice condition passedLineage failedLineage inconclusiveLineage
  let receipts := insert address (passedReceipts ∩ failedReceipts ∩ inconclusiveReceipts)
  return (.ofList [("output", address)], { S with
    nodes := S.nodes.insert qualified node
    lineage := S.lineage.insert address lineage
    availability := S.availability.insert address conditions
    evidence := S.evidence.insert address
      (passedPolicies ∩ failedPolicies ∩ inconclusivePolicies)
    retained := S.retained.insert address receipts
    outcomes :=
      if p ∈ S.outcomes ∧ f ∈ S.outcomes ∧ i ∈ S.outcomes then insert address S.outcomes
      else S.outcomes })

/-! ## Operators -/

/-- One measure of `measure_signature`: its ports, and its share of the budget. -/
def addMeasure (qualified : String) (base : OperatorSignature)
    (composed : OrdMap String PipelinePort × ℕ) (measure : String) :
    Except String (OrdMap String PipelinePort × ℕ) := do
  let (outputs, budget) := composed
  let declared ← orRefuse (C.signatures.get ("operator/measure/" ++ measure))
    (qualified ++ " names measure " ++ measure ++
      ", which the captured code policy does not declare")
  ensure (declared.contract.inputs = base.contract.inputs && declared.effects = base.effects &&
      declared.contract.outputs.keys = [measure])
    ("Measure " ++ measure ++ " changed its installed contract")
  let cost ← orRefuse declared.attempt
    ("Measure " ++ measure ++ " has no bounded repetition budget")
  ensure (budget + cost.wallMs < u64Bound) "Measure repetition budget overflow"
  return (outputs.insertAll declared.contract.outputs.entries, budget + cost.wallMs)

/-- `measure_signature`. -/
def measureSignature (qualified : String) (measures : List String) :
    Except String OperatorSignature := do
  let base ← orRefuse (C.signatures.get "operator/measure")
    "The captured code policy declares no measures"
  let allowance ← orRefuse base.attempt "operator/measure has no bounded Attempt cost"
  let (outputs, budget) ← measures.foldlM (addMeasure C qualified base) (.empty, 0)
  ensure (budget ≤ allowance.wallMs)
    (qualified ++ " needs " ++ toString budget ++ " ms for its repetitions (repetitions × " ++
      "wall_ms), more than the captured check_wall_ms of " ++ toString allowance.wallMs ++ " ms")
  return { base with
    contract := { base.contract with outputs := outputs }
    outcomePort := match measures with
      | [only] => some only
      | _ => none }

/-- The measure a side of a comparison reads. -/
def comparedMeasure (qualified : String) (bound : Bound) (side : String) :
    Except String String := do
  let address ← orRefuse (bound.get side) (qualified ++ " lacks " ++ side)
  let producer ← orRefuse (S.nodes.get address.node) ("Unknown producer " ++ address.qualified)
  match producer.operator with
  | .primitive (.measure _) _ => return address.port
  | _ => throw (qualified ++ " " ++ side ++ " must be a Measurement straight from a measure node")

/-- `require_comparable`. -/
def requireComparable (qualified objective : String) (signature : OperatorSignature)
    (bound : Bound) : Except String Unit := do
  ensure (C.signatures.get ("operator/compare/" ++ objective) = some signature)
    (qualified ++ " names objective " ++ objective ++
      ", which the captured code policy does not declare")
  let baseline ← S.comparedMeasure qualified bound "baseline"
  let candidate ← S.comparedMeasure qualified bound "candidate"
  ensure (baseline = candidate)
    (qualified ++ " compares Measurements of different measures: " ++ min baseline candidate ++
      " and " ++ max baseline candidate)
  ensure (C.signatures.contains ("operator/compare/" ++ objective ++ "/" ++ baseline))
    (qualified ++ ": objective " ++ objective ++ " does not compare measure " ++ baseline)

end Compiler

/-- `operator_name`. -/
def operatorName : TaskOperator → Except String String
  | .optimizationProject => .ok "optimization-project"
  | .optimizationProfile => .ok "optimization-profile"
  | .optimizationPrepare => .ok "optimization-prepare"
  | .optimizationFinalize => .ok "optimization-finalize"
  | .optimizationExperiment _ _ => .ok "optimization-experiment"
  | .planningContext => .ok "planning-context"
  | .documentSeal => .ok "document-seal"
  | .documentCheck => .ok "document-check"
  | .documentAccept => .ok "document-accept"
  | .structuredAccept => .ok "structured-accept"
  | .reportSeal => .ok "report-seal"
  | .reportCheck => .ok "report-check"
  | .reportAccept => .ok "report-accept"
  | .seal => .ok "seal"
  | .accept => .ok "accept"
  | .check _ _ => .ok "check"
  | .reviewBind => .ok "review-bind"
  | .reviewReduce => .ok "review-reduce"
  | .reviewAccept => .ok "review-accept"
  | .attestFixes => .ok "attest-fixes"
  | .repairAccept => .ok "repair-accept"
  | .reviewContinue => .ok "review-continue"
  | .measure _ => .ok "measure"
  | .compare _ => .ok "compare"
  | _ => .error "Operator requires package expansion"

namespace TaskOperator

/-- The slot of the Worker the operator runs. -/
def workerSlot : TaskOperator → Option String
  | .worker slot => some slot
  | .verify slot => some slot
  | .fixVerify slot => some slot
  | _ => none

def isWorker : TaskOperator → Bool
  | .worker _ => true
  | _ => false

/-- The operators that cannot run without an Attempt. -/
def paid : TaskOperator → Bool
  | .worker _ => true
  | .verify _ => true
  | .fixVerify _ => true
  | .check _ _ => true
  | .documentCheck => true
  | .reportCheck => true
  | .measure _ => true
  | _ => false

/-- The operators that verify whatever evidence they are installed with. -/
def verifies : TaskOperator → Bool
  | .verify _ => true
  | .fixVerify _ => true
  | .check _ _ => true
  | .documentCheck => true
  | .reportCheck => true
  | _ => false

end TaskOperator

def diffSubject : String := "af/DiffSubject@1"

def diffSubjectPortName : String := "diff_subject"

/-- One input of `diff_subject_port`. -/
def checkDiffInput (qualified : String) (operator : TaskOperator) (signature : OperatorSignature)
    (bound : Bound) (entry : String × PipelinePort) : Except String Unit := do
  let (name, port) := entry
  ensure (name ≠ diffSubjectPortName || port.artifactType = diffSubject)
    (qualified ++ " declares `diff_subject` as " ++ port.artifactType ++ "; that input name is " ++
      "the kernel's Diff Subject, so it takes only af/DiffSubject@1; rename the port")
  if port.artifactType = diffSubject then
    let judges := operator.workerSlot.isSome && "write-source" ∉ signature.effects &&
      signature.contract.inputs.contains "source"
    ensure (judges && name = diffSubjectPortName && port.optional && port.cardinality = .one &&
        port.affinity = .sameAs "source")
      (qualified ++ " declares af/DiffSubject@1 on `" ++ name ++ "`; only a Worker that reads " ++
        "its `source` without writing it takes the Diff Subject, on its optional " ++
        "`diff_subject` port of cardinality one and `same_as source` affinity")
    ensure (!bound.contains name)
      (qualified ++ " binds `" ++ name ++ "`, which the kernel supplies; remove the binding")

/-- `diff_subject_port`. -/
def diffSubjectPort (qualified : String) (operator : TaskOperator) (signature : OperatorSignature)
    (bound : Bound) : Except String Unit := do
  ensure (signature.contract.outputs.values.all fun p => p.artifactType ≠ diffSubject)
    (qualified ++ " returns a af/DiffSubject@1; only the kernel builds a Diff Subject")
  signature.contract.inputs.entries.forM (checkDiffInput qualified operator signature bound)

/-! ## Primitive nodes -/

/-- One node of a definition as it is compiled: the definition, the physical slot of each of its
slots, the node's physical name, what it reads, and the path it is on. -/
structure NodeSite where
  definition : PipelineDefinition
  slots : OrdMap String String
  node : TaskNode
  qualified : String
  bound : Bound
  conditions : List CompiledCondition

/-- A node with the operator it resolves to and the signature of that operator. -/
structure ResolvedNode extends NodeSite where
  signatureName : String
  operator : TaskOperator
  signature : OperatorSignature

/-- What a signature must satisfy whatever the node binds. -/
def checkSignature (task : RevisionDocument) (name : String) (signature : OperatorSignature) :
    Except String Unit := do
  signature.contract.validate
  validateExecutableReview signature
  (refuseRetiredPorts signature.contract).mapError fun error => name ++ ": " ++ error
  ensure (signature.contract.inputs.values.all fun p => !p.declaresBrief)
    (name ++ " declares a Project Brief root default; only an af.pipeline/2 root port names one")
  ensure (signature.retains.entries.all fun (output, inputs) =>
      signature.contract.outputs.contains output &&
        decide (∀ input ∈ inputs, signature.contract.inputs.contains input))
    "Operator retention signature names an undeclared port"
  ensure (signature.contract.inputs.keys.all fun input =>
      !"af_condition_".toList.isPrefixOf input.toList)
    "Operator input uses a reserved condition port"
  match signature.outcomePort with
  | none => .ok ()
  | some port => do
    let receipt ← orRefuse (signature.contract.outputs.get port) "Unknown outcome port"
    ensure (!receipt.optional && receipt.cardinality = .one)
      "A branch outcome must be one required receipt"
  ensure (∀ e ∈ signature.effects, e ∈ task.authority.allowedEffects)
    ("Task authority does not permit " ++ name)

def buildCache : String := "review.kernel/BuildCache@2"

def workerNotes : String := "af/WorkerNotes@1"

namespace Compiler

variable (C : CompileContext) (S : Compiler)

/-- The signature name of a slot's Worker, with the physical slot. -/
def slotSignature (slots : OrdMap String String) (slot : String) :
    Except String (String × String) := do
  let effective ← entryAt slots slot
  let declaration ← entryAt S.slots effective
  let key := "worker/" ++ declaration.worker
  let signature ← orRefuse (C.signatures.get key) "Worker has no trusted signature"
  ensure (declaration.role ∈ signature.roles &&
      signature.workerInputType = some declaration.inputType &&
      signature.workerOutputType = some declaration.outputType)
    ("Worker " ++ declaration.worker ++ " does not implement slot " ++ slot)
  return (key, effective)

/-- The operator a node resolves to, under the name of its signature. -/
def resolveOperator (slots : OrdMap String String) (operator : TaskOperator) :
    Except String (String × TaskOperator) :=
  match operator with
  | .worker slot => do
    let (key, effective) ← S.slotSignature C slots slot
    return (key, .worker effective)
  | .verify slot => do
    let (key, effective) ← S.slotSignature C slots slot
    return (key, .verify effective)
  | .fixVerify slot => do
    let (key, effective) ← S.slotSignature C slots slot
    return (key, .fixVerify effective)
  | .optimizationExperiment baseline candidate => do
    let baselineSlot ← entryAt slots baseline
    let candidateSlot ← entryAt slots candidate
    return ("operator/optimization-experiment",
      .optimizationExperiment baselineSlot candidateSlot)
  | other => do
    let name ← operatorName other
    return ("operator/" ++ name, other)

/-- The installed signature of an operator, which a measure node composes. -/
def signatureOf (qualified name : String) : TaskOperator → Except String OperatorSignature
  | .measure measures => measureSignature C qualified measures
  | _ => orRefuse (C.signatures.get name) ("Unsupported " ++ name)

/-- A node with its operator and its signature. -/
def resolveNode (site : NodeSite) : Except String ResolvedNode := do
  let (name, operator) ← S.resolveOperator C site.slots site.node.operator
  let signature ← signatureOf C site.qualified name operator
  return { site with signatureName := name, operator := operator, signature := signature }

/-- One declared input of a Pipeline or of an operator. -/
def checkInput (bound : Bound) (conditions : List CompiledCondition) (unavailable missing : String)
    (entry : String × PipelinePort) : Except String Unit := do
  let (name, port) := entry
  match bound.get name with
  | some source => do
    S.compatible source port
    S.affinity source port.affinity bound
    ensure (port.optional || S.available source conditions) unavailable
  | none => ensure port.optional (missing ++ name)

/-- An input of a type that stays on one Worker slot: the texts of its two refusals are for a node
that is no Worker, and for a producer on another slot. -/
def checkSameSlot (N : ResolvedNode) (artifactType noWorker crossed : String)
    (entry : String × PipelinePort) : Except String Unit :=
  match N.bound.get entry.1 with
  | none => .ok ()
  | some source => do
    if entry.2.artifactType = artifactType then
      match N.operator with
      | .worker slot => ensure (S.workerSlot source.node = some slot) crossed
      | _ => throw noWorker

/-- What a node of its operator must bind, and must not. -/
def checkBindings (N : ResolvedNode) : Except String Unit := do
  let inputs := N.signature.contract.inputs
  diffSubjectPort N.qualified N.operator N.signature N.bound
  inputs.entries.forM (S.checkInput N.bound N.conditions
    (N.qualified ++ " requires an unavailable branch output") (N.qualified ++ " lacks "))
  ensure (N.operator.isWorker || N.signature.contract.outputs.values.all fun p =>
      p.artifactType ≠ buildCache)
    "Development cache persistence requires a Worker node"
  ensure (!N.bound.contains "development_warm")
    "Development Warm Sets are selected by the kernel, never wired by a pipeline"
  inputs.entries.forM (S.checkSameSlot N buildCache
    "Only same-slot Workers consume development Build Caches"
    "Development cache continuation cannot cross Worker slots")
  ensure (!(N.bound.contains "knowledge" && (inputs.get "knowledge").any fun p =>
      p.artifactType = "af/KnowledgeContext@1"))
    "Knowledge contexts are selected by the kernel, never wired by a pipeline"
  inputs.entries.forM (S.checkSameSlot N workerNotes
    (N.qualified ++ " is not a Worker but consumes Worker Notes")
    (N.qualified ++ " consumes Worker Notes from another slot; Notes never cross slots"))
  ensure (N.bound.keys.all inputs.contains) (N.qualified ++ " binds an unknown operator input")
  ensure (!(N.operator = .repairAccept || N.operator = .reviewContinue) ||
      N.bound.contains "verification")
    "Repair acceptance must bind its reserved fix verifier"
  ensure (N.operator ≠ .reviewReduce || inputs.keys.all fun input =>
      N.bound.contains input || input ∈ N.signature.unboundAllowed)
    (N.qualified ++ " must bind every configured reviewer and check; missing runtime results " ++
      "remain typed incomplete evidence")
  ensure (N.operator ≠ .reviewAccept || S.calls.values.any fun call =>
      call.coverage.get "reviewed" = N.bound.get "review" &&
        call.outputs.values.any fun address => some address = N.bound.get "review")
    "Implementation requires a child Pipeline's public reviewed coverage"
  match N.operator with
  | .compare objective => S.requireComparable C N.qualified objective N.signature N.bound
  | _ => .ok ()

/-- The Attempts of a node: a cost where it is paid, and the checks it names installed. -/
def checkAttempts (N : ResolvedNode) : Except String Unit := do
  ensure (!N.operator.paid || N.signature.attempt.isSome)
    (N.signatureName ++ " has no bounded Attempt cost")
  match N.operator with
  | .check checks remoteChecks => do
    (checks ++ remoteChecks).forM fun check =>
      ensure (C.signatures.get ("operator/check/" ++ check) = some N.signature)
        ("Pipeline " ++ N.definition.name ++ " node " ++ N.node.id ++ ": check " ++ check ++
          " is not installed under the captured check policy")
    remoteChecks.forM fun check =>
      ensure (C.signatures.contains ("operator/check/remote/" ++ check))
        ("Pipeline " ++ N.definition.name ++ " node " ++ N.node.id ++ " lists check " ++ check ++
          " in `remote_checks`, but the captured code policy declares it without a `remote` " ++
          "table; declare [checks." ++ check ++ ".remote] or move it to `checks`")
  | _ => .ok ()

/-- The allowance of a node whose operator has a cost. -/
def allowanceOf (N : ResolvedNode) (cost : AttemptCost) : NodeAllowance :=
  let slot := N.operator.workerSlot.bind S.slots.get
  { tokensPerAttempt := cost.tokens
    wallMsPerAttempt := cost.wallMs
    maxAttempts := (slot.map PipelineSlot.maxAttempts).getD 1
    verificationAttempts :=
      if N.operator.verifies || N.signature.evidence.values.any fun policies => policies ≠ ∅ then
        (slot.map fun s => max s.minAttempts 1).getD 1
      else 0 }

/-- The lineage of the value a node binds to an input. -/
def boundLineage (bound : Bound) (input : String) : Except String Lineage := do
  let source ← orRefuse (bound.get input) "Missing lineage input"
  orRefuse (S.lineage.get source) "Missing lineage"

/-- The lineage of an output. -/
def publishedLineage (bound : Bound) (address : PortAddress) :
    PortAffinity → Except String Lineage
  | .unbound => .ok (.root address.qualified)
  | .sameAs input => S.boundLineage bound input
  | .derivedFrom input => (S.boundLineage bound input).map (.derived address)

/-- One output of a node, with what is known of it. -/
def publish (N : ResolvedNode) (published : Bound × Compiler) (entry : String × PipelinePort) :
    Except String (Bound × Compiler) := do
  let (outputs, S) := published
  let (name, port) := entry
  let address : PortAddress := ⟨N.qualified, name⟩
  let lineage ← S.publishedLineage N.bound address port.affinity
  let inputs := (N.signature.retains.get name).getD ∅
  let receipts := inputs.biUnion fun input => match N.bound.get input with
    | some source => insert source ((S.retained.get source).getD ∅)
    | none => ∅
  -- evidence passes through an operator only with its Snapshot
  let policies := inputs.biUnion fun input => match N.bound.get input with
    | some source =>
      if S.lineage.get source = some lineage then (S.evidence.get source).getD ∅ else ∅
    | none => ∅
  let isOutcome := N.signature.outcomePort = some name || match N.operator with
    | .measure _ => true
    | _ => false
  return (outputs.insert name address, { S with
    lineage := S.lineage.insert address lineage
    retained := S.retained.insert address (insert address receipts)
    availability := S.availability.insert address N.conditions
    outcomes := if isOutcome then insert address S.outcomes else S.outcomes
    evidence := S.evidence.insert address
      ((N.signature.evidence.get name).getD ∅ ∪ policies) })

/-- The node in the graph, with its allowance. -/
def install (N : ResolvedNode) : Compiler := { S with
  allowances := match N.signature.attempt with
    | some cost => S.allowances.insert N.qualified (S.allowanceOf N cost)
    | none => S.allowances
  nodes := S.nodes.insert N.qualified {
    operator := .primitive N.operator N.signatureName
    contract := N.signature.contract
    inputs := N.bound
    conditions := N.conditions } }

/-- A node that is neither a call nor a Select. -/
def primitive (task : RevisionDocument) (site : NodeSite) : Except String (Bound × Compiler) := do
  let N ← S.resolveNode C site
  checkSignature task N.signatureName N.signature
  S.checkBindings C N
  S.requireNodeCapacity C
  checkAttempts C N
  N.signature.contract.outputs.entries.foldlM (publish N) (.empty, S.install N)

end Compiler

/-! ## Opening a Pipeline -/

/-- The values a Pipeline's nodes have published, by node and port. -/
abbrev Values := OrdMap String Bound

/-- `resolve`. -/
def resolve (reference : ValueRef) (inputs : Bound) (values : Values) : Option PortAddress :=
  match reference with
  | .input port => inputs.get port
  | .node id port => (values.get id).bind fun outputs => outputs.get port

/-- One expansion of a Pipeline: its definition, its scope, what is bound to it, the physical slots
of its slots, and the path it is on. -/
structure Frame where
  name : String
  definition : PipelineDefinition
  scope : String
  inputs : Bound
  slots : OrdMap String String
  inherited : List CompiledCondition

namespace Compiler

variable (C : CompileContext) (S : Compiler)

/-- The guard of `expand`, and what a Pipeline must satisfy to be expanded anywhere. -/
def enter (name : String) : Except String PipelineDefinition := do
  ensure (S.stack.length < C.maxDepth && !S.stack.contains name)
    ("Recursive Pipeline or expansion depth exceeded at " ++ name)
  let definition ← orRefuse (C.pipelines.get name) ("Pipeline " ++ name ++ " is not installed")
  definition.validate
  ensure ((definition.contract.inputs.values ++ definition.contract.outputs.values).all fun p =>
      p.artifactType ≠ diffSubject)
    ("Pipeline " ++ name ++ " declares a af/DiffSubject@1 port; the kernel builds the Diff " ++
      "Subject for each judging Worker, so no Pipeline takes or returns one")
  (refuseRetiredPorts definition.contract).mapError fun error =>
    "Pipeline " ++ name ++ ": " ++ error
  return definition

def push (name : String) : Compiler := { S with
  stack := S.stack ++ [name]
  deepest := max S.deepest (S.stack.length + 1) }

def pop : Compiler := { S with stack := S.stack.dropLast }

/-- A slot of a definition: its parent's, or its own. -/
def resolveSlot (qualified localName : String) (slot : PipelineSlot) : Except String Compiler :=
  match S.slots.get qualified with
  | some parent => do
    ensure (parent.role = slot.role && parent.inputType = slot.inputType &&
        parent.outputType = slot.outputType && slot.minAttempts ≤ parent.minAttempts &&
        parent.maxAttempts ≤ slot.maxAttempts &&
        parent.recoveryAllowance ≤ slot.recoveryAllowance)
      ("Child slot " ++ localName ++ " has an incompatible parent binding")
    ensure (parent.worker = slot.worker || slot.allowLocalReplacement)
      ("Child slot " ++ localName ++ " forbids replacing its Worker package")
    return S
  | none => .ok { S with
    slots := S.slots.insert qualified { slot with
      worker := (C.slotWorkers.get qualified).getD slot.worker
      independentFrom := ∅ } }

/-- Whether a replacement keeps what the default promised. -/
def keepsPromise (original replacement : OrdMap String (Finset String)) : Bool :=
  original.entries.all fun (port, names) => decide (names ⊆ (replacement.get port).getD ∅)

/-- A Worker in the place of a slot's own. -/
def replaceWorker (qualified : String) (slot : PipelineSlot) : Except String Compiler := do
  let declaration ← entryAt S.slots qualified
  let effective := declaration.worker
  if effective = slot.worker then .ok S
  else do
    ensure slot.allowLocalReplacement ("Slot " ++ qualified ++ " forbids Worker replacement")
    let original ← orRefuse (C.signatures.get ("worker/" ++ slot.worker))
      "Default Worker signature is missing"
    let replacement ← orRefuse (C.signatures.get ("worker/" ++ effective))
      "Replacement Worker signature is missing"
    ensure (original.contract = replacement.contract &&
        original.workerInputType = replacement.workerInputType &&
        original.workerOutputType = replacement.workerOutputType &&
        original.outcomePort = replacement.outcomePort && slot.role ∈ replacement.roles &&
        replacement.effects ⊆ original.effects &&
        keepsPromise original.evidence replacement.evidence &&
        keepsPromise original.retains replacement.retains)
      ("Replacement Worker violates slot " ++ qualified ++ "'s public contract or authority")
    return { S with
      replacedWorkers := S.replacedWorkers.insert qualified
        (insert slot.worker ((S.replacedWorkers.get qualified).getD ∅)) }

/-- One slot of a definition under its scope. -/
def bindSlot (scope : String) (mapping : OrdMap String String)
    (bindings : OrdMap String String × Compiler) (entry : String × PipelineSlot) :
    Except String (OrdMap String String × Compiler) := do
  let (slots, S) := bindings
  let (localName, slot) := entry
  let qualified := (mapping.get localName).getD (scope ++ ".slots." ++ localName)
  let S ← S.resolveSlot C qualified localName slot
  let S ← S.replaceWorker C qualified slot
  return (slots.insert localName qualified, S)

/-- The slots a slot must be independent of, as physical slots. -/
def separateSlot (scope : String) (slots : OrdMap String String) (S : Compiler)
    (entry : String × PipelineSlot) : Except String Compiler := do
  let own ← entryAt slots entry.1
  let others := entry.2.independentFrom.biUnion fun other => (slots.get other).toFinset
  ensure (own ∉ others) (scope ++ " maps independent slots to the same Worker slot")
  let declaration ← entryAt S.slots own
  return { S with
    slots := S.slots.insert own { declaration with
      independentFrom := declaration.independentFrom ∪ others } }

/-- The Notes ports of a slot's Worker: the optional input and the output. -/
def notesPorts (slots : OrdMap String String) (slot : String) :
    Option (Option String × Option String) := do
  let effective ← slots.get slot
  let declaration ← S.slots.get effective
  let signature ← C.signatures.get ("worker/" ++ declaration.worker)
  let input := signature.contract.inputs.entries.find? fun (_, p) =>
    p.artifactType = workerNotes && p.optional
  let output := signature.contract.outputs.entries.find? fun (_, p) => p.artifactType = workerNotes
  return (input.map Prod.fst, output.map Prod.fst)

/-- The Notes of the earlier Worker nodes on a slot. -/
def notesSources (slots : OrdMap String String) (slot : String) (earlier : List TaskNode) :
    List ValueRef :=
  earlier.filterMap fun node => match node.operator with
    | .worker earlierSlot =>
      if slots.get earlierSlot = slots.get slot then
        (S.notesPorts C slots earlierSlot).bind fun ports => ports.2.map (.node node.id)
      else none
    | _ => none

/-- A Worker node that binds no Notes is given those of the one node before it on its slot. -/
def withNotes (scope : String) (slots : OrdMap String String) (earlier : List TaskNode)
    (node : TaskNode) : Except String TaskNode :=
  match node.operator with
  | .worker slot =>
    match (S.notesPorts C slots slot).bind Prod.fst with
    | none => .ok node
    | some port =>
      if node.inputs.contains port then .ok node
      else match S.notesSources C slots slot earlier with
        | [] => .ok node
        | [source] => .ok { node with inputs := node.inputs.insert port source }
        | _ => .error (scope ++ "." ++ node.id ++ " has more than one same-slot Notes source")
  | _ => .ok node

/-- What `expand` does before its loop: the inputs, the slots, and the nodes that wait. -/
def openFrame (name : String) (definition : PipelineDefinition) (scope : String) (inputs : Bound)
    (mapping : OrdMap String String) (inherited : List CompiledCondition) (S : Compiler) :
    Except String ((Frame × OrdMap String TaskNode) × Compiler) := do
  definition.contract.inputs.entries.forM (S.checkInput inputs inherited
    (scope ++ " requires a conditionally unavailable input")
    (scope ++ " lacks required input "))
  ensure (inputs.keys.all definition.contract.inputs.contains)
    (scope ++ " binds an undeclared child input")
  let (slots, S) ← definition.slots.entries.foldlM (bindSlot C scope mapping) (.empty, S)
  ensure (mapping.keys.all definition.slots.contains) (scope ++ " maps an undeclared child slot")
  let S ← definition.slots.entries.foldlM (separateSlot scope slots) S
  let nodes ← definition.nodes.zipIdx.mapM fun (node, index) =>
    S.withNotes C scope slots (definition.nodes.take index) node
  let frame : Frame := {
    name := name, definition := definition, scope := scope, inputs := inputs, slots := slots
    inherited := inherited }
  return ((frame, .ofList (nodes.map fun node => (node.id, node))), S)

/-! ## One node -/

/-- The only element of a list. -/
def theOnly {α : Type} (l : List α) (text : String) : Except String α :=
  match l with
  | [a] => .ok a
  | _ => .error text

/-- The path of a node: its Pipeline's, and its own condition. -/
def nodeConditions (F : Frame) (values : Values) (node : TaskNode) :
    Except String (List CompiledCondition) :=
  match node.condition with
  | none => .ok F.inherited
  | some condition => do
    let published := ((values.get condition.node).getD .empty).values
    let source ← theOnly (published.dedup.filter fun a => a ∈ S.outcomes)
      (F.scope ++ "." ++ node.id ++ " condition requires one trusted outcome port")
    ensure (S.available source F.inherited)
      "Branch condition is not available on every enclosing path"
    ensure (F.inherited.all fun old => old.source ≠ source || old.outcome = condition.outcome)
      "Branch condition contradicts its enclosing path"
    return if F.inherited.contains ⟨source, condition.outcome⟩ then F.inherited
      else F.inherited ++ [⟨source, condition.outcome⟩]

/-- One input of a node; an input that names an absent optional input of the Pipeline stays
unbound. -/
def bindInput (F : Frame) (values : Values) (node : TaskNode) (bound : Bound)
    (entry : String × ValueRef) : Except String Bound :=
  let (port, reference) := entry
  match resolve reference F.inputs values with
  | some address => .ok (bound.insert port address)
  | none =>
    let optional := match reference with
      | .input name => (F.definition.contract.inputs.get name).any PipelinePort.optional
      | .node _ _ => false
    if optional then .ok bound
    else .error (F.scope ++ "." ++ node.id ++ " has an unavailable input")

/-- A node where it stands. -/
def siteOf (F : Frame) (values : Values) (node : TaskNode) : Except String NodeSite := do
  let conditions ← S.nodeConditions F values node
  let bound ← node.inputs.entries.foldlM (bindInput F values node) .empty
  return {
    definition := F.definition, slots := F.slots, node := node
    qualified := F.scope ++ ".nodes." ++ node.id
    bound := bound, conditions := conditions }

/-- The slots a call hands down. -/
def mapSlots (slots : OrdMap String String) (bindings : List (String × String)) :
    Except String (OrdMap String String) := do
  let mapped ← bindings.mapM fun (child, parent) => do
    let physical ← orRefuse (slots.get parent) "Unknown parent slot"
    return (child, physical)
  return .ofList mapped

/-! ## Closing a Pipeline -/

/-- The Attempts one allowance asks of its Pipeline: its verification reserve, or one where the
node is on every path. -/
def mandatoryAttempts (inherited : List CompiledCondition) (entry : String × NodeAllowance) :
    Except String ℕ :=
  if 0 < entry.2.verificationAttempts then .ok entry.2.verificationAttempts
  else do
    let node ← entryAt S.nodes entry.1
    return if node.conditions = inherited then 1 else 0

def addMandatory (inherited : List CompiledCondition) (total : ℕ)
    (entry : String × NodeAllowance) : Except String ℕ := do
  let mandatory ← S.mandatoryAttempts inherited entry
  ensure (total + mandatory < u32Bound) "Pipeline minimum Attempt count overflow"
  return total + mandatory

/-- The Attempts a Pipeline's nodes need. -/
def requiredAttempts (F : Frame) : Except String ℕ :=
  (S.allowances.entries.filter fun e =>
    (F.scope ++ ".nodes.").toList.isPrefixOf e.1.toList).foldlM (S.addMandatory F.inherited) 0

/-- One obligation a public output covers. -/
def coverOne (F : Frame) (values : Values) (output : String) (address : PortAddress)
    (coverage : Bound) (obligation : String) : Except String Bound := do
  let reference ← entryAt F.definition.coverage obligation
  let producer ← orRefuse (resolve reference F.inputs values) "Unavailable evidence output"
  ensure (producer = address || (S.retained.get address).any fun receipts => producer ∈ receipts)
    ("Public output " ++ output ++ " does not retain coverage " ++ obligation)
  ensure ((S.evidence.get producer).any fun policies => policies ≠ ∅)
    ("Coverage " ++ obligation ++ " has no trusted producer")
  return coverage.insert obligation producer

/-- One public output, with its coverage. -/
def exportOne (F : Frame) (values : Values) (boundary : Boundary) (entry : String × ValueRef) :
    Except String Boundary := do
  let (output, reference) := entry
  let address ← orRefuse (resolve reference F.inputs values) "Unavailable public output"
  let contract ← entryAt F.definition.contract.outputs output
  S.compatible address contract
  S.affinity address contract.affinity F.inputs
  ensure (contract.optional || S.available address F.inherited)
    ("Required public output " ++ output ++ " is unavailable on some paths")
  let coverage ← contract.covers.foldlM (S.coverOne F values output address) boundary.2
  return (boundary.1.insert output address, coverage)

/-- What `expand` does after its loop: the Attempt count, the public outputs, and the call. -/
def closeFrame (F : Frame) (values : Values) (S : Compiler) :
    Except String (Boundary × Compiler) := do
  let required ← S.requiredAttempts F
  let refusals := if F.definition.maxAttempts < required then
      ["Pipeline " ++ F.name ++ " cannot retain its verification reserves and mandatory work " ++
        "within " ++ toString F.definition.maxAttempts ++ " Attempts"]
    else []
  let boundary ← F.definition.outputs.entries.foldlM (S.exportOne F values) (.empty, .empty)
  return (boundary, { S with
    resourceRefusals := S.resourceRefusals ++ refusals
    calls := S.calls.insert F.scope {
      pipeline := F.name
      inputs := F.inputs
      outputs := boundary.1
      coverage := boundary.2
      maxAttempts := F.definition.maxAttempts
      maxParallel := F.definition.maxParallel } })

end Compiler

/-! ## Expansion -/

/-- How a compilation ends without a graph. -/
inductive Halt where
  | refused (text : String)
  | unfinished
  deriving DecidableEq, Repr

/-- A part of a compilation. -/
abbrev Expansion (α : Type) := Command Halt Compiler α

namespace Expansion

/-- Read the compiler, and refuse or answer. -/
def consult {α : Type} (f : Compiler → Except String α) : Expansion α :=
  Command.check fun S => (f S).mapError .refused

/-- Refuse, or answer from a changed compiler. A refusal ends the compilation, so that what was
half written then is never read. -/
def step {α : Type} (f : Compiler → Except String (α × Compiler)) : Expansion α := do
  let (a, S) ← consult f
  Command.write fun _ => S
  return a

def unfinished {α : Type} : Expansion α := Command.check fun _ => .error .unfinished

end Expansion

open Expansion

/-- The expansion of one call: the Pipeline, its scope, its inputs, its slots and its path. -/
abbrev Child :=
  String → String → Bound → OrdMap String String → List CompiledCondition → Expansion Boundary

section Expand

variable (task : RevisionDocument) (C : CompileContext)

/-- One node of a Pipeline, a call by `child`. -/
def expandNode (child : Child) (F : Frame) (values : Values) (node : TaskNode) :
    Expansion Bound := do
  let site ← consult fun S => S.siteOf F values node
  match node.operator with
  | .call pipeline bindings => do
    let mapped ← consult fun _ => Compiler.mapSlots F.slots bindings
    let boundary ← child pipeline site.qualified site.bound mapped site.conditions
    return boundary.1
  | .select => step fun S => S.select C site.qualified site.bound site.conditions
  | _ => step fun S => S.primitive C task site

/-- The nodes that wait, and what the others have published. -/
structure Progress where
  pending : OrdMap String TaskNode
  values : Values := .empty
  progressed : Bool := false

/-- Whether a node reads one that still waits. -/
def Progress.blocks (P : Progress) (node : TaskNode) : Bool :=
  (node.condition.any fun condition => P.pending.contains condition.node) ||
    node.inputs.values.any fun reference => match reference with
      | .input _ => false
      | .node id _ => P.pending.contains id

/-- A node done. -/
def Progress.done (P : Progress) (id : String) (outputs : Bound) : Progress where
  pending := P.pending.erase id
  values := P.values.insert id outputs
  progressed := true

/-- One round over the nodes that waited at its start. -/
def sweep (child : Child) (F : Frame) : List String → Progress → Expansion Progress
  | [], P => pure P
  | id :: rest, P => do
    let node ← consult fun _ => entryAt P.pending id
    if P.blocks node then sweep child F rest P
    else do
      let outputs ← expandNode task C child F P.values node
      sweep child F rest (P.done id outputs)

/-- `while !pending.is_empty()`. -/
def rounds (child : Child) (F : Frame) : ℕ → OrdMap String TaskNode → Values → Expansion Values
  | 0, pending, values => if pending.entries = [] then pure values else unfinished
  | fuel + 1, pending, values =>
    if pending.entries = [] then pure values
    else do
      let P ← sweep task C child F pending.keys ⟨pending, values, false⟩
      consult fun _ => ensure P.progressed
        ("Pipeline " ++ F.name ++ " contains a dependency cycle")
      rounds child F fuel P.pending P.values

/-- The body of `expand`, once the Pipeline may be entered. -/
def expandBody (child : Child) (fuel : ℕ) (definition : PipelineDefinition) : Child :=
  fun name scope inputs mapping inherited => do
    let opened ← step (Compiler.openFrame C name definition scope inputs mapping inherited)
    let values ← rounds task C child opened.1 fuel opened.2 .empty
    step (Compiler.closeFrame opened.1 values)

/-- `expand`, a call deeper with each unit of its second fuel. -/
def expand (fuel : ℕ) : ℕ → Child
  | 0 => fun _ _ _ _ _ => unfinished
  | depth + 1 => fun name scope inputs mapping inherited => do
    let definition ← consult fun S => S.enter C name
    Command.write fun S => S.push name
    let boundary ←
      expandBody task C (expand fuel depth) fuel definition name scope inputs mapping inherited
    Command.write Compiler.pop
    return boundary

end Expand

/-! ## The root -/

namespace Compiler

variable (C : CompileContext) (S : Compiler)

/-- One input of the root Pipeline. -/
def bindRoot (task : RevisionDocument) (bindings : Bound × Compiler)
    (entry : String × PipelinePort) : Except String (Bound × Compiler) :=
  let (bound, S) := bindings
  let (name, port) := entry
  match task.inputs.get name with
  | none =>
    if port.optional then .ok (bound, S)
    else .error ("Missing normalized root input " ++ name ++
      "; apply an admitted constructor before compilation")
  | some input => do
    input.validate
    ensure (input.artifactType = port.artifactType && input.cardinality = port.cardinality)
      ("Root input " ++ name ++ " has an incompatible type or cardinality")
    let address : PortAddress := ⟨"root.inputs", name⟩
    return (bound.insert name address, { S with
      lineage := S.lineage.insert address
        (.root (input.snapshotId.getD address.qualified)) })

/-- What `compile_structure_mode` does before it expands the root. -/
def openRoot (task : RevisionDocument) (root : String) (S : Compiler) :
    Except String ((PipelineDefinition × Bound) × Compiler) := do
  task.validate
  ensure (C.maxNodes ≠ 0 && C.maxNodes ≤ 64 && C.maxDepth ≠ 0 && C.maxDepth ≤ 4)
    "Compilation requires bounded node and depth limits"
  let definition ← orRefuse (C.pipelines.get root) "Root Pipeline is not installed"
  definition.validate
  refuseRetiredPorts definition.contract
  ensure (definition.accepts.kinds.contains task.kind &&
      definition.accepts.requiredFacts.entries.all fun (name, fact) =>
        task.facts.get name = some fact)
    "Task kind or known facts do not fit the root Pipeline"
  let (bound, S) ← definition.contract.inputs.entries.foldlM (bindRoot task) (.empty, S)
  ensure (task.inputs.keys.all definition.contract.inputs.contains)
    "Task has inputs absent from the root Pipeline contract"
  S.requireNodeCapacity C
  let boundaryOutputs := definition.contract.inputs.mapVal fun _ port =>
    { port with rootDefault := none, brief := none }
  return ((definition, bound), { S with
    nodes := S.nodes.insert "root.inputs"
      { operator := .rootInputs, contract := { outputs := boundaryOutputs } } })

/-- A bootstrap exposes its proposal and nothing else. -/
def checkProposal (boundary : Boundary) : Except String Unit := do
  ensure (boundary.2.entries.isEmpty && boundary.1.entries.length = 1)
    "Planning bootstrap must expose only its proposal and no business coverage"
  let address ← orRefuse (boundary.1.get "proposal") "Planning bootstrap has no proposal output"
  let port ← S.port address
  ensure (!port.optional && S.available address [] && port.cardinality = .one &&
      port.artifactType = "af/PipelineProposal@1")
    "Planning bootstrap requires one guaranteed typed proposal"
  ensure (S.allowances.values.all fun a => a.verificationAttempts = 0)
    "Planner cannot consume business verifier credit"

/-- An output the Task requires. -/
def checkRequired (boundary : Boundary) (entry : String × RequiredOutput) : Except String Unit := do
  let (name, required) := entry
  let address ← orRefuse (boundary.1.get name) ("Pipeline lacks required output " ++ name)
  let produced ← S.port address
  ensure (!produced.optional && S.available address [] &&
      produced.artifactType = required.artifactType && produced.cardinality = required.cardinality)
    ("Pipeline output " ++ name ++ " cannot satisfy the Task contract")

/-- An obligation of the Task: evidence of its final output under its policy. -/
def checkObligation (task : RevisionDocument) (boundary : Boundary)
    (entry : String × AcceptanceObligation) : Except String Unit := do
  let (name, obligation) := entry
  let address ← orRefuse (boundary.2.get name) ("Pipeline lacks acceptance coverage " ++ name)
  let produced ← S.port address
  ensure (!produced.optional && S.available address [] &&
      produced.artifactType = obligation.evidenceType &&
      (S.evidence.get address).any fun ids => obligation.verifierPolicy ∈ ids)
    ("Coverage " ++ name ++ " lacks a trusted evidence producer")
  let targetName ← orRefuse (C.acceptanceOutputs.get name)
    ("Task-kind policy has no final output for " ++ name)
  let target ← orRefuse (boundary.1.get targetName)
    ("Task-kind acceptance target " ++ targetName ++ " is unavailable")
  ensure (task.requiredOutputs.contains targetName && S.lineage.get address = S.lineage.get target)
    ("Coverage " ++ name ++ " does not judge the required final output " ++ targetName)

/-- What the expanded root must offer its Task. -/
def checkRoot (task : RevisionDocument) (preparation : Bool) (boundary : Boundary) :
    Except String Unit := do
  ensure (C.slotWorkers.keys.all S.slots.contains)
    "Local Worker binding names an unknown physical slot"
  if preparation then S.checkProposal boundary
  else do
    task.requiredOutputs.entries.forM (S.checkRequired boundary)
    task.acceptance.entries.forM (S.checkObligation C task boundary)

/-- The graph before its order. -/
def graph (task : RevisionDocument) (definition : PipelineDefinition) (boundary : Boundary) :
    CompiledTask where
  schema := "af.compiled-task/1"
  nodes := S.nodes
  order := []
  inputs := task.inputs
  outputs := boundary.1
  coverage := boundary.2
  calls := S.calls.mapVal fun _ call => call.toCompiledCall
  slots := S.slots.mapVal fun _ slot => slot.toWorkerSlot
  maxParallel := definition.maxParallel
  allowances := S.allowances

end Compiler

def taskAcceptance : String := "af/TaskAcceptance@1"

/-- One input of `require_acceptance_evaluator`. -/
def requireEvaluator (G : CompiledTask) (root : String) (entry : String × ArtifactInput) :
    Except String Unit :=
  let (name, input) := entry
  let delivered := G.nodes.values.any fun node =>
    (match node.operator with
      | .primitive (.verify _) _ => true
      | _ => false) && node.inputs.values.any fun address => address = ⟨"root.inputs", name⟩
  ensure (input.artifactType ≠ taskAcceptance || delivered)
    ("acceptance: Pipeline " ++ root ++ " declares the `" ++ name ++ "` input but hands it to no " ++
      "`verify` evaluator node, so no evaluator could judge the items by their IDs; bind `" ++
      name ++ "` as an input of the Pipeline's `verify` node, or drop `acceptance` from the " ++
      "Task file and state it in the goal")

/-- `require_acceptance_evaluator`. -/
def requireAcceptanceEvaluator (G : CompiledTask) (root : String) : Except String Unit :=
  G.inputs.entries.forM (requireEvaluator G root)

/-- What `compile_structure_mode` does once the root is expanded: the graph in the scheduler's
order, and the resource refusals. -/
def Compiler.finish (C : CompileContext) (task : RevisionDocument) (root : String)
    (preparation : Bool) (definition : PipelineDefinition) (boundary : Boundary) (S : Compiler) :
    Except String (CompiledTask × List String) := do
  S.checkRoot C task preparation boundary
  let G := S.graph task definition boundary
  let planned ← G.schedulerPlan
  let ordered := { G with order := planned.order, schema := G.expectedSchema }
  requireAcceptanceEvaluator ordered root
  return (ordered, S.resourceRefusals)

/-- `compile_structure_mode`. -/
def compileStructure (fuel : ℕ) (task : RevisionDocument) (root : String) (C : CompileContext)
    (preparation : Bool) : Expansion (CompiledTask × List String) := do
  let opened ← step (Compiler.openRoot C task root)
  let boundary ← expand task C fuel fuel root "root" opened.2 .empty []
  consult (Compiler.finish C task root preparation opened.1 boundary)

/-- The refusals a structure was compiled with, and its budget. -/
def admitStructure (task : RevisionDocument) (compiled : CompiledTask × List String) :
    Except String CompiledTask := do
  ensure compiled.2.isEmpty ("; ".intercalate compiled.2)
  let _ ← (compiled.1.budget task.limits).mapError TaskBudgetError.message
  return compiled.1

/-- `compile_task`. -/
def compileTask (fuel : ℕ) (task : RevisionDocument) (root : String) (C : CompileContext) :
    Expansion CompiledTask := do
  let compiled ← compileStructure fuel task root C false
  consult fun _ => admitStructure task compiled

end Afactory
