import Mathlib
import Afactory.PipelinePlan

/-!
# The pipeline scheduler

`review-graph/src/schedule.rs`: a plan is run in waves. A scan of the order suppresses what is
doomed and starts what is ready; then every running node reports, in whatever order, and the
results are admitted in the order of the plan.

* `Dispatch`: what the caller does when it is asked;
* `readiness`, `visit`, `scan`: one scan of the order;
* `receive`, `admission`, `wave`: the completions of one wave;
* `loop`, `report`: scans and waves until nothing moves.

A callback that may answer differently later takes the number of the scan it is called in. What
happens is recorded as events beside the state; the state never reads them.
-/

namespace Afactory

/-- The artifacts of each named port. -/
abbrev ArtifactMap := OrdMap String (List String)

inductive NodeFailureClass where
  | runBudgetExhausted
  deriving DecidableEq, Repr

inductive SuppressionReason where
  | branchNotSelected
  | upstreamMissing
  deriving DecidableEq, Repr

inductive NodeOutcome where
  | completed (outputs : ArtifactMap)
  | failed (error : String) («class» : Option NodeFailureClass)
  | suppressed (reason : SuppressionReason)
  deriving DecidableEq

structure OwnedChildDispatch where
  node : Node
  inputs : ArtifactMap
  deriving DecidableEq

/-- `Dispatch`; a panic that the scheduler catches is an error text. -/
structure Dispatch where
  coordinatesOwnedChildren : Node → Bool := fun _ => false
  ownedChildParallelism : Node → Option ℕ := fun _ => none
  requiresSuccessfulPredecessors : Node → Bool := fun node => node.kind ≠ .task
  expandOwnedChildren : ℕ → Node → ArtifactMap → Except String (List OwnedChildDispatch) :=
    fun _ _ _ => .error "Owned-child expansion is not installed"
  completeOwnedChildren : ℕ → Node → ArtifactMap → List (String × NodeOutcome) →
    Except String ArtifactMap := fun _ _ _ _ => .error "Owned-child completion is not installed"
  taskNodeSelected : ℕ → Node → ArtifactMap → Except String Bool := fun _ _ _ => .ok true
  recordInvocation : ℕ → Node → ArtifactMap → Except String Unit := fun _ _ _ => .ok ()
  run : ℕ → Node → ArtifactMap → Except String ArtifactMap
  recordOutputs : ℕ → Node → ArtifactMap → Except String Unit := fun _ _ _ => .ok ()
  failureClass : ℕ → String → Option NodeFailureClass := fun _ _ => none

/-! ## Checks on ports -/

/-- A port whose values are missing, or more than it holds. -/
def PortContract.lacks (port : PortContract) (values : List String) : Bool :=
  (!port.optional && values.isEmpty) || (port.cardinality = .one && 1 < values.length)

/-- `validate_outputs`. -/
def validateOutputs (node : Node) (produced : ArtifactMap) : Except String Unit := do
  produced.keys.forM fun name => ensure (node.outputs.any fun port => port.name = name)
    ("node produced undeclared output port " ++ node.id ++ "." ++ name)
  node.outputs.forM fun port => do
    let count := ((produced.get port.name).getD []).length
    ensure (!(!port.optional && count = 0))
      ("node produced no artifacts for required output port " ++ node.id ++ "." ++ port.name)
    ensure (!(port.cardinality = .one && 1 < count))
      ("node produced " ++ toString count ++ " artifacts for single-valued output port " ++
        node.id ++ "." ++ port.name)

/-- Names and types of the ports of one direction, each name once. -/
def portsValid (ports : List PortContract) : Bool :=
  (ports.map PortContract.name).Nodup &&
    ports.all fun port => isName port.name.toList && isArtifactType port.artifactType

/-- `strip_prefix`. -/
def stripPrefix (lead : List Char) (l : List Char) : Option (List Char) :=
  if lead.isPrefixOf l then some (l.drop lead.length) else none

/-- Whether one registered child may be dispatched beside the nodes there are. -/
def childValid (parent : Node) (nodes : OrdMap String Node) (seen : List String)
    (child : OwnedChildDispatch) : Bool :=
  let node := child.node
  ((stripPrefix (parent.id.toList ++ ['.']) node.id.toList).any isName) &&
    !nodes.contains node.id && !seen.contains node.id && node.gatedBy.isNone &&
    (node.kind = .task || node.kind = .reviewer) &&
    child.inputs.entries.length = node.inputs.length &&
    (node.inputs.all fun port => (child.inputs.get port.name).any fun values =>
      !port.lacks values) &&
    portsValid node.inputs && portsValid node.outputs

/-- `validate_owned_expansion`, with the children seen before. -/
def validateChildren (parent : Node) (nodes : OrdMap String Node) :
    List String → List OwnedChildDispatch → Except String Unit
  | _, [] => .ok ()
  | seen, child :: rest =>
    if childValid parent nodes seen child then
      validateChildren parent nodes (child.node.id :: seen) rest
    else .error ("Invalid owned-child dispatch for " ++ parent.id)

/-! ## The scheduler and its state -/

structure Scheduler where
  plan : Planned
  maxParallel : ℕ
  scopeLimits : OrdMap String ℕ := .empty
  /-- input-free nodes that resolve before any other node starts -/
  first : Finset String := ∅

namespace Scheduler

def new (plan : Planned) (maxParallel : ℕ) : Scheduler :=
  { plan := plan, maxParallel := max maxParallel 1 }

def withScopeLimits (C : Scheduler) (limits : OrdMap String ℕ) : Except String Scheduler :=
  if limits.entries.any fun (scope, limit) => limit = 0 || !qualified scope then
    .error "Invalid Pipeline scope concurrency bound"
  else .ok { C with scopeLimits := limits }

def withFirst (C : Scheduler) (first : Finset String) : Except String Scheduler :=
  if ∃ id ∈ first, C.plan.nodes.contains id = false ∨ C.plan.dependenciesOf id ≠ [] then
    .error "A node that runs first must exist and depend on nothing"
  else .ok { C with first := first }

/-- The scheduler of a plan with its limits. -/
def configured (plan : Planned) (maxParallel : ℕ) (limits : OrdMap String ℕ)
    (first : Finset String) : Except String Scheduler := do
  let C ← (new plan maxParallel).withScopeLimits limits
  C.withFirst first

end Scheduler

/-- The state of a run. -/
structure SchedulerState where
  /-- what completed nodes produced, by node and port -/
  outputs : OrdMap String ArtifactMap := .empty
  outcomes : OrdMap String NodeOutcome := .empty
  unusable : Finset String := ∅
  /-- the running nodes with the inputs they were given -/
  inFlight : OrdMap String ArtifactMap := .empty
  nodes : OrdMap String Node
  order : List String
  childInputs : OrdMap String ArtifactMap := .empty
  owners : OrdMap String (ArtifactMap × List String) := .empty
  /-- the owner whose children a child is counted with, and how many may run -/
  childLimits : OrdMap String (String × ℕ) := .empty

inductive SchedulerEvent where
  /-- the branch decision of a Task node -/
  | asked (id : String) (answer : Except String Bool)
  | started (id : String) (inputs : ArtifactMap)
  | reported (id : String)
  | resolved (id : String) (outcome : NodeOutcome)

namespace SchedulerState

/-- Record what became of a node. -/
def resolve (S : SchedulerState) (id : String) (outcome : NodeOutcome) : SchedulerState :=
  match outcome with
  | .completed produced => { S with
      outputs := S.outputs.insert id produced
      outcomes := S.outcomes.insert id outcome }
  | _ => { S with
      unusable := insert id S.unusable
      outcomes := S.outcomes.insert id outcome }

def value (S : SchedulerState) (port : Port) : Option (List String) :=
  (S.outputs.get port.node).bind fun produced => produced.get port.name

/-- The inputs of a node before any edge delivered. -/
def emptyInputs (S : SchedulerState) (id : String) (node : Node) : ArtifactMap :=
  (S.childInputs.get id).getD (.ofList (node.inputs.map fun port => (port.name, [])))

/-- One edge delivers what its source produced. -/
def deliver (S : SchedulerState) (inputs : ArtifactMap) (e : Edge) : ArtifactMap :=
  match S.value e.source with
  | none => inputs
  | some artifacts => inputs.insert e.target.name ((inputs.get e.target.name).getD [] ++ artifacts)

/-- What the edges resolve to. -/
def delivered (S : SchedulerState) (id : String) (node : Node) (dependencies : List Edge) :
    ArtifactMap := dependencies.foldl S.deliver (S.emptyInputs id node)

/-- How many running nodes lie within a scope. -/
def runningWithin (S : SchedulerState) (scope : String) : ℕ :=
  (S.inFlight.keys.filter fun id => within id scope).length

def runningChildren (S : SchedulerState) (owner : String) : ℕ :=
  (S.inFlight.keys.filter fun id =>
    (S.childLimits.get id).any fun (other, _) => other = owner).length

end SchedulerState

namespace Scheduler

variable (D : Dispatch) (C : Scheduler)

/-- The state a run starts from: the first nodes lead the scan. -/
def start : SchedulerState where
  nodes := C.plan.nodes
  order := (C.plan.order.filter fun id => id ∈ C.first) ++
    C.plan.order.filter fun id => id ∉ C.first

def isChild (S : SchedulerState) (id : String) : Bool := S.childInputs.contains id

def coordinates (S : SchedulerState) (id : String) (node : Node) : Bool :=
  !isChild S id && D.coordinatesOwnedChildren node

def dependencies (S : SchedulerState) (id : String) : List Edge :=
  if isChild S id then [] else C.plan.dependenciesOf id

/-- Whether a limit keeps a node from starting now. -/
def atLimit (S : SchedulerState) (id : String) : Bool :=
  decide (C.maxParallel ≤ S.inFlight.entries.length) ||
    (C.scopeLimits.entries.any fun (scope, limit) =>
      within id scope && decide (limit ≤ S.runningWithin scope)) ||
    (S.childLimits.get id).any fun (owner, limit) => decide (limit ≤ S.runningChildren owner)

inductive Readiness where
  | waiting
  /-- every registered child of an owner is terminal -/
  | completing (inputs : ArtifactMap) (children : List String)
  | upstreamMissing
  | ready (inputs : ArtifactMap)

/-- What a scan finds at a node. -/
def readiness (S : SchedulerState) (id : String) (node : Node) : Readiness :=
  if S.outcomes.contains id || S.inFlight.contains id then .waiting
  else match S.owners.get id with
  | some (inputs, children) =>
    if children.all S.outcomes.contains then .completing inputs children else .waiting
  | none =>
    if id ∉ C.first ∧ ∃ f ∈ C.first, S.outcomes.contains f = false then .waiting
    else if id ∉ C.first ∧ ∃ f ∈ C.first, f ∈ S.unusable then .upstreamMissing
    else
      let dependencies := C.dependencies S id
      if D.requiresSuccessfulPredecessors node &&
          dependencies.any fun e => e.source.node ∈ S.unusable then .upstreamMissing
      else if !dependencies.all fun e => S.outcomes.contains e.source.node then .waiting
      else if !coordinates D S id node && C.atLimit S id then .waiting
      else .ready (S.delivered id node dependencies)

/-- Values are sorted, but a Task receives them as its edges deliver them. -/
def arrange (node : Node) (inputs : ArtifactMap) : ArtifactMap :=
  if node.kind = .task then inputs
  else inputs.mapVal fun _ artifacts => artifacts.insertionSort (· ≤ ·)

/-- A required input without a value, or a single-valued one with several. -/
def unfed (node : Node) (inputs : ArtifactMap) : Bool :=
  node.inputs.any fun port => port.lacks ((inputs.get port.name).getD [])

/-- What keeps a ready node from starting; `none` starts it. -/
def refusal (t : ℕ) (id : String) (node : Node) (inputs : ArtifactMap) : Option NodeOutcome :=
  let invocation := match D.recordInvocation t node inputs with
    | .error e => some (.failed e (D.failureClass t id))
    | .ok () => none
  if node.kind ≠ .task then invocation
  else match D.taskNodeSelected t node inputs with
    | .ok false => some (.suppressed .branchNotSelected)
    | .error e => some (.failed e (D.failureClass t id))
    | .ok true => if unfed node inputs then some (.suppressed .upstreamMissing) else invocation

/-- The events of asking a Task node for its branch. -/
def asks (t : ℕ) (id : String) (node : Node) (inputs : ArtifactMap) : List SchedulerEvent :=
  if node.kind ≠ .task then [] else [.asked id (D.taskNodeSelected t node inputs)]

/-! ## One scan -/

/-- `order.splice(index..index, ids)`, right after an owner. -/
def insertAfter (id : String) (ids order : List String) : List String :=
  order.take (order.idxOf id + 1) ++ ids ++ order.drop (order.idxOf id + 1)

/-- Register the children of an owner. -/
def register (S : SchedulerState) (id : String) (node : Node) (inputs : ArtifactMap)
    (children : List OwnedChildDispatch) : SchedulerState :=
  let ids := children.map fun child => child.node.id
  { S with
    order := insertAfter id ids S.order
    childLimits := match D.ownedChildParallelism node with
      | none => S.childLimits
      | some limit => S.childLimits.insertAll (ids.map fun child => (child, (id, max limit 1)))
    childInputs := S.childInputs.insertAll (children.map fun child => (child.node.id, child.inputs))
    nodes := S.nodes.insertAll (children.map fun child => (child.node.id, child.node))
    owners := S.owners.insert id (inputs, ids) }

/-- A scan so far: the results that wait to be admitted, what happened, and whether anything
did. -/
structure Scan where
  state : SchedulerState
  results : OrdMap String (Except String ArtifactMap) := .empty
  events : List SchedulerEvent := []
  progressed : Bool := false

namespace Scan

def settle (A : Scan) (id : String) (outcome : NodeOutcome) : Scan := { A with
  state := A.state.resolve id outcome
  events := A.events ++ [.resolved id outcome]
  progressed := true }

def coordinate (A : Scan) (id : String) (result : Except String ArtifactMap) : Scan := { A with
  results := A.results.insert id result
  progressed := true }

/-- The children of an owner, once registered and validated. -/
def expand (A : Scan) (t : ℕ) (id : String) (node : Node) (inputs : ArtifactMap) : Scan :=
  let expansion : Except String (List OwnedChildDispatch) := do
    let children ← D.expandOwnedChildren t node inputs
    validateChildren node A.state.nodes [] children
    return children
  match expansion with
  | .ok children => { A with
      state := register D A.state id node inputs children
      progressed := true }
  | .error e => A.coordinate id (.error e)

def launch (A : Scan) (id : String) (inputs : ArtifactMap) : Scan := { A with
  state := { A.state with inFlight := A.state.inFlight.insert id inputs }
  events := A.events ++ [.started id inputs]
  progressed := true }

/-- A ready node: its branch, its inputs and its invocation, then the node itself. -/
def begin (A : Scan) (t : ℕ) (id : String) (node : Node) (delivered : ArtifactMap) : Scan :=
  let inputs := arrange node delivered
  let A := { A with events := A.events ++ asks D t id node inputs }
  match refusal D t id node inputs with
  | some outcome => A.settle id outcome
  | none =>
    if coordinates D A.state id node then A.expand D t id node inputs else A.launch id inputs

/-- One node of the scan; every listed node is known. -/
def visit (t : ℕ) (A : Scan) (id : String) : Scan :=
  match A.state.nodes.get id with
  | none => A
  | some node =>
    match C.readiness D A.state id node with
    | .waiting => A
    | .completing inputs children => A.coordinate id (D.completeOwnedChildren t node inputs
        (children.filterMap fun child => (A.state.outcomes.get child).map fun o => (child, o)))
    | .upstreamMissing => A.settle id (.suppressed .upstreamMissing)
    | .ready inputs => A.begin D t id node inputs

end Scan

/-- Decide everything currently decidable; children registered meanwhile join the next scan. -/
def scan (t : ℕ) (S : SchedulerState) : Scan :=
  S.order.foldl (Scan.visit D C t) ⟨S, .empty, [], false⟩

/-! ## One wave -/

/-- One running node reports its result. -/
def receive (t : ℕ) (A : Scan) (id : String) : Scan :=
  match A.state.inFlight.get id, A.state.nodes.get id with
  | some inputs, some node => { A with
      state := { A.state with inFlight := A.state.inFlight.erase id }
      results := A.results.insert id (D.run t node inputs)
      events := A.events ++ [.reported id] }
  | _, _ => A

/-- What becomes of a node with its result. -/
def conclude (t : ℕ) (id : String) (node : Node) (result : Except String ArtifactMap) :
    NodeOutcome :=
  match result with
  | .error e => .failed e (D.failureClass t id)
  | .ok produced =>
    match validateOutputs node produced with
    | .error e => .failed e none
    | .ok () =>
      match D.recordOutputs t node produced with
      | .error e => .failed e none
      | .ok () => .completed produced

def admission (t : ℕ) (A : Scan) (id : String) : Scan :=
  match A.results.get id, A.state.nodes.get id with
  | some result, some node => { A with
      state := A.state.resolve id (conclude D t id node result)
      results := A.results.erase id
      events := A.events ++ [.resolved id (conclude D t id node result)] }
  | _, _ => A

/-- Every running node reports, in the order of arrival; then the whole wave is admitted in the
order of the plan. -/
def wave (t : ℕ) (arrivals : List String) (A : Scan) : Scan :=
  let received := arrivals.foldl (receive D t) A
  (received.state.order.filter received.results.contains).foldl (admission D t) received

/-! ## The run -/

/-- Scans and waves, at most so many; `arrive` orders the completions of each wave. -/
def loop (arrive : ℕ → List String → List String) :
    ℕ → ℕ → SchedulerState → List SchedulerEvent →
      Option (SchedulerState × List SchedulerEvent)
  | 0, _, _, _ => none
  | fuel + 1, t, S, events =>
    let A := C.scan D t S
    if A.state.inFlight.entries.isEmpty && A.results.entries.isEmpty then
      if A.progressed then loop arrive fuel (t + 1) A.state (events ++ A.events)
      else some (A.state, events ++ A.events)
    else
      let B := wave D t (arrive t A.state.inFlight.keys) A
      loop arrive fuel (t + 1) B.state (events ++ B.events)

/-- `RunReport`: every node in the order of the plan; the scheduler blocks no gate. -/
structure RunReport where
  outcomes : List (String × NodeOutcome)
  blockedGates : List String := []
  deriving DecidableEq

/-- The report; a node without an outcome is a panic. -/
def report (S : SchedulerState) : Option RunReport :=
  (C.plan.order.mapM fun id => (S.outcomes.get id).map fun outcome => (id, outcome)).map
    fun outcomes => { outcomes := outcomes }

end Scheduler

end Afactory
