import Mathlib
import Afactory.Checks
import Afactory.CompiledTask

/-!
# Planning a pipeline

`review-graph/src/plan.rs`: nodes with typed ports, edges between ports, and the validation that
fixes the order they run in.

* `Pipeline.plan`: everything that can be known before anything runs;
* `topologicalOrder`: dependency order, the lowest id first among the ready nodes;
* `Planned.Valid`: what a planned pipeline satisfies (`plan_valid`), with the induction along
  its order (`Planned.Valid.induction`).
-/

namespace Afactory

/-! ## Nodes and edges -/

structure Port where
  node : String
  name : String
  deriving DecidableEq, Repr

/-- `Edge`, from an output port to an input port. -/
structure Edge where
  source : Port
  target : Port
  deriving DecidableEq, Repr

inductive SnapshotAffinity where
  | sameSubject
  | unbound
  | any
  deriving DecidableEq, Repr

structure PortContract where
  name : String
  artifactType : String
  cardinality : PortCardinality := .one
  optional : Bool := false
  snapshotAffinity : SnapshotAffinity := .sameSubject
  deriving DecidableEq, Repr

inductive NodeKind where
  | task
  | generation
  | gate
  | reviewer
  | slicer
  | scatter
  | gather
  | ledger
  deriving DecidableEq, Repr

structure Node where
  id : String
  kind : NodeKind
  inputs : List PortContract := []
  outputs : List PortContract := []
  gatedBy : Option String := none
  deriving DecidableEq, Repr

structure Pipeline where
  nodes : List Node := []
  edges : List Edge := []
  deriving DecidableEq, Repr

/-- A validated pipeline with its nodes in dependency order. -/
structure Planned where
  nodes : OrdMap String Node
  edges : List Edge
  order : List String
  deriving DecidableEq

/-- `dependencies_of`. -/
def Planned.dependenciesOf (P : Planned) (node : String) : List Edge :=
  P.edges.filter fun e => e.target.node = node

/-! ## Names of artifact types -/

/-- `split_once`. -/
def splitOnce (c : Char) : List Char → Option (List Char × List Char)
  | [] => none
  | x :: rest =>
    if x = c then some ([], rest)
    else (splitOnce c rest).map fun parts => (x :: parts.1, parts.2)

/-- `rsplit_once`. -/
def rsplitOnce (c : Char) (l : List Char) : Option (List Char × List Char) :=
  (splitOnce c l.reverse).map fun parts => (parts.2.reverse, parts.1.reverse)

/-- `is_artifact_type`: a namespace, a name and a version. -/
def isArtifactType (value : String) : Bool :=
  match splitOnce '/' value.toList with
  | none => false
  | some (space, versioned) =>
    match rsplitOnce '@' versioned with
    | none => false
    | some (name, version) =>
      !space.isEmpty && !name.isEmpty && !version.isEmpty &&
        (space.zipIdx.all fun (c, i) => c.isLower || (0 < i && (c.isDigit || c = '.'))) &&
        (name.zipIdx.all fun (c, i) => c.isAlpha || (0 < i && c.isDigit)) &&
        (version.zipIdx.all fun (c, i) => c.isDigit && (0 < i || c ≠ '0'))

/-! ## Validation -/

inductive PlanError where
  | duplicateNode (id : String)
  | unknownNode (edge node : String)
  | unknownPort (edge : String) (port : Port)
  | duplicatePort (node port : String)
  | invalidArtifactType (port : Port) (artifactType : String)
  | typeMismatch (edge produced accepted : String)
  | cardinalityMismatch (edge : String) (produced accepted : PortCardinality)
  | snapshotAffinityMismatch (edge : String) (produced accepted : SnapshotAffinity)
  | optionalityMismatch (edge : String)
  | multipleWriters (port : Port)
  | unwiredInput (port : Port)
  | cycle (nodes : List String)
  | unknownGate (node gate : String)
  deriving DecidableEq, Repr

def PortCardinality.text : PortCardinality → String
  | .one => "One"
  | .many => "Many"

def SnapshotAffinity.text : SnapshotAffinity → String
  | .sameSubject => "SameSubject"
  | .unbound => "Unbound"
  | .any => "Any"

def Port.text (p : Port) : String := p.node ++ "." ++ p.name

/-- `Display` of a `PlanError`. -/
def PlanError.text : PlanError → String
  | .duplicateNode id => "duplicate node id: " ++ id
  | .unknownNode edge node => "edge " ++ edge ++ " names an unknown node: " ++ node
  | .unknownPort edge port =>
    "edge " ++ edge ++ " names port " ++ port.text ++ " which that node does not declare"
  | .duplicatePort node port => "node " ++ node ++ " declares port " ++ port ++ " more than once"
  | .invalidArtifactType port artifactType =>
    "port " ++ port.text ++ " has invalid versioned artifact type " ++ artifactType
  | .typeMismatch edge produced accepted =>
    "edge " ++ edge ++ " carries " ++ produced ++ ", but its input accepts " ++ accepted
  | .cardinalityMismatch edge produced accepted =>
    "edge " ++ edge ++ " has incompatible cardinality " ++ produced.text ++ " -> " ++ accepted.text
  | .snapshotAffinityMismatch edge produced accepted =>
    "edge " ++ edge ++ " has incompatible snapshot affinity " ++ produced.text ++ " -> " ++
      accepted.text
  | .optionalityMismatch edge =>
    "edge " ++ edge ++ " feeds a required input from an optional output"
  | .multipleWriters port =>
    "single-valued input " ++ port.text ++ " has more than one writer"
  | .unwiredInput port =>
    "input " ++ port.text ++ " has nothing wired to it; a node that silently receives nothing " ++
      "produces a confident review of an empty input"
  | .cycle nodes => "cycle: " ++ " -> ".intercalate nodes
  | .unknownGate node gate => "node " ++ node ++ " is gated by unknown gate " ++ gate

def Edge.label (e : Edge) : String := e.source.text ++ " -> " ++ e.target.text

def insertNode (nodes : OrdMap String Node) (node : Node) : Except PlanError (OrdMap String Node) :=
  if nodes.contains node.id then .error (.duplicateNode node.id)
  else .ok (nodes.insert node.id node)

/-- Ports of one direction have distinct names and valid types. -/
def checkContracts (node : String) : List String → List PortContract → Except PlanError Unit
  | _, [] => .ok ()
  | names, contract :: rest =>
    if names.contains contract.name then .error (.duplicatePort node contract.name)
    else if !isArtifactType contract.artifactType then
      .error (.invalidArtifactType ⟨node, contract.name⟩ contract.artifactType)
    else checkContracts node (contract.name :: names) rest

def checkPorts (node : Node) : Except PlanError Unit := do
  checkContracts node.id [] node.inputs
  checkContracts node.id [] node.outputs

/-- The contract an edge names at one of its ends. -/
def endpoint (nodes : OrdMap String Node) (label : String) (port : Port)
    (ports : Node → List PortContract) : Except PlanError PortContract :=
  match nodes.get port.node with
  | none => .error (.unknownNode label port.node)
  | some spec =>
    match (ports spec).find? fun contract => contract.name = port.name with
    | none => .error (.unknownPort label port)
    | some contract => .ok contract

/-- Refuse with an error unless the condition holds. -/
def ensure {ε : Type} (condition : Bool) (e : ε) : Except ε Unit :=
  if condition then .ok () else .error e

theorem ensure_eq_ok {ε : Type} {condition : Bool} {e : ε} :
    ensure condition e = .ok () ↔ condition = true := by
  cases condition <;> simp [ensure]

def checkEdge (nodes : OrdMap String Node) (e : Edge) : Except PlanError Unit := do
  let produced ← endpoint nodes e.label e.source Node.outputs
  let accepted ← endpoint nodes e.label e.target Node.inputs
  ensure (produced.artifactType = accepted.artifactType)
    (.typeMismatch e.label produced.artifactType accepted.artifactType)
  ensure (!(produced.cardinality = .many && accepted.cardinality = .one))
    (.cardinalityMismatch e.label produced.cardinality accepted.cardinality)
  ensure (accepted.snapshotAffinity = .any ||
      produced.snapshotAffinity = accepted.snapshotAffinity)
    (.snapshotAffinityMismatch e.label produced.snapshotAffinity accepted.snapshotAffinity)
  ensure (!(produced.optional && !accepted.optional)) (.optionalityMismatch e.label)

/-- Every required input is fed, and a single-valued one once. -/
def checkInput (edges : List Edge) (node : String) (input : PortContract) :
    Except PlanError Unit := do
  let writers := (edges.filter fun e => e.target.node = node && e.target.name = input.name).length
  ensure (!(writers = 0 && !input.optional)) (.unwiredInput ⟨node, input.name⟩)
  ensure (!(1 < writers && input.cardinality = .one)) (.multipleWriters ⟨node, input.name⟩)

def checkFed (nodes : OrdMap String Node) (edges : List Edge) (node : Node) :
    Except PlanError Unit := do
  node.inputs.forM (checkInput edges node.id)
  match node.gatedBy with
  | none => return ()
  | some gate => ensure (nodes.contains gate) (.unknownGate node.id gate)

/-! ## The order -/

/-- Who comes before whom: sources before targets, gates before what they gate. -/
def orderings (nodes : OrdMap String Node) (edges : List Edge) : List (String × String) :=
  (edges.map fun e => (e.target.node, e.source.node)) ++
    nodes.values.filterMap fun node => node.gatedBy.map fun gate => (node.id, gate)

/-- `entry(to).or_default().insert(from)`. -/
def addDependency (m : OrdMap String (Finset String)) (pair : String × String) :
    OrdMap String (Finset String) :=
  m.insert pair.1 (insert pair.2 ((m.get pair.1).getD ∅))

def incoming (nodes : OrdMap String Node) (edges : List Edge) : OrdMap String (Finset String) :=
  (orderings nodes edges).foldl addDependency (nodes.mapVal fun _ _ => ∅)

/-- One ready node after the other, each removed from what the others wait for; the first
argument counts the nodes left. -/
def kahn : ℕ → OrdMap String (Finset String) → List String → Except PlanError (List String)
  | 0, _, order => .ok order
  | n + 1, remaining, order =>
    if remaining.entries.isEmpty then .ok order
    else match remaining.entries.find? fun entry => entry.2 = ∅ with
      | none => .error (.cycle remaining.keys)
      | some (next, _) => kahn n ((remaining.erase next).mapVal fun _ deps => deps.erase next)
          (order ++ [next])

/-- `topological_order`. -/
def topologicalOrder (nodes : OrdMap String Node) (edges : List Edge) :
    Except PlanError (List String) :=
  let remaining := incoming nodes edges
  kahn remaining.entries.length remaining []

/-- `plan`. -/
def Pipeline.plan (p : Pipeline) : Except PlanError Planned := do
  let nodes ← p.nodes.foldlM insertNode .empty
  nodes.values.forM checkPorts
  p.edges.forM (checkEdge nodes)
  nodes.values.forM (checkFed nodes p.edges)
  let order ← topologicalOrder nodes p.edges
  return ⟨nodes, p.edges, order⟩

/-! ## Dependency order -/

theorem get_addDependency (m : OrdMap String (Finset String)) (pair : String × String)
    (id : String) : (addDependency m pair).get id =
      if id = pair.1 then some (insert pair.2 ((m.get pair.1).getD ∅)) else m.get id := by
  rw [addDependency, OrdMap.get_insert]

/-- What waits only grows. -/
theorem subset_foldl_addDependency (l : List (String × String))
    {m : OrdMap String (Finset String)} {id : String} {deps : Finset String}
    (h : m.get id = some deps) :
    ∃ deps', (l.foldl addDependency m).get id = some deps' ∧ deps ⊆ deps' := by
  induction l generalizing m deps with
  | nil => exact ⟨deps, h, subset_rfl⟩
  | cons pair l ih =>
    have hnext : ∃ next, (addDependency m pair).get id = some next ∧ deps ⊆ next := by
      rw [get_addDependency]
      split_ifs with hid
      · refine ⟨_, rfl, ?_⟩
        rw [← hid, h]
        exact Finset.subset_insert _ _
      · exact ⟨deps, h, subset_rfl⟩
    obtain ⟨next, hget, hsub⟩ := hnext
    obtain ⟨deps', hget', hsub'⟩ := ih hget
    exact ⟨deps', hget', hsub.trans hsub'⟩

theorem mem_foldl_addDependency {l : List (String × String)} {m : OrdMap String (Finset String)}
    {id before : String} (hpair : (id, before) ∈ l) :
    ∃ deps, (l.foldl addDependency m).get id = some deps ∧ before ∈ deps := by
  induction l generalizing m with
  | nil => cases hpair
  | cons pair l ih =>
    rcases List.mem_cons.mp hpair with rfl | hpair
    · have hget := get_addDependency m (id, before) id
      rw [if_pos rfl] at hget
      obtain ⟨deps, hdeps, hsub⟩ := subset_foldl_addDependency l hget
      exact ⟨deps, hdeps, hsub (Finset.mem_insert_self _ _)⟩
    · exact ih hpair

/-- Only nodes that are there, or that something waits for, are ordered. -/
theorem exists_of_foldl_addDependency {l : List (String × String)}
    {m : OrdMap String (Finset String)} {id : String} {deps : Finset String}
    (h : (l.foldl addDependency m).get id = some deps) :
    (∃ deps, m.get id = some deps) ∨ ∃ before, (id, before) ∈ l := by
  induction l generalizing m with
  | nil => exact .inl ⟨deps, h⟩
  | cons pair l ih =>
    rcases ih h with ⟨next, hnext⟩ | ⟨before, hbefore⟩
    · rw [get_addDependency] at hnext
      split_ifs at hnext with hid
      · exact .inr ⟨pair.2, by rw [hid]; exact List.mem_cons_self⟩
      · exact .inl ⟨next, hnext⟩
    · exact .inr ⟨before, List.mem_cons_of_mem _ hbefore⟩

/-- What Kahn's loop keeps: the order so far with what is left of `incoming`. -/
structure Ordered (deps₀ remaining : OrdMap String (Finset String)) (order : List String) :
    Prop where
  nodup : order.Nodup
  mem_order : ∀ id, id ∈ order ↔ (∃ deps, deps₀.get id = some deps) ∧ remaining.get id = none
  left : ∀ id deps, remaining.get id = some deps →
    ∃ all, deps₀.get id = some all ∧ ∀ x ∈ all, x ∈ deps ∨ x ∈ order
  before : ∀ front id back, order = front ++ id :: back →
    ∀ all, deps₀.get id = some all → ∀ x ∈ all, x ∈ front

theorem ordered_start (deps₀ : OrdMap String (Finset String)) : Ordered deps₀ deps₀ [] where
  nodup := List.nodup_nil
  mem_order := by
    intro id
    constructor
    · intro hmem
      cases hmem
    · rintro ⟨⟨deps, hdeps⟩, hnone⟩
      rw [hdeps] at hnone
      cases hnone
  left := fun id deps hget => ⟨deps, hget, fun x hx => .inl hx⟩
  before := by
    intro front id back hsplit
    simp at hsplit

theorem get_next (remaining : OrdMap String (Finset String)) (next id : String) :
    ((remaining.erase next).mapVal fun _ deps => deps.erase next).get id =
      if id = next then none else (remaining.get id).map fun deps => deps.erase next := by
  rw [OrdMap.get_mapVal, OrdMap.get_erase]
  split_ifs <;> rfl

/-- Taking a node that waits for nothing keeps the order. -/
theorem Ordered.next {deps₀ remaining : OrdMap String (Finset String)} {order : List String}
    (h : Ordered deps₀ remaining order) {next : String} (hnext : remaining.get next = some ∅) :
    Ordered deps₀ ((remaining.erase next).mapVal fun _ deps => deps.erase next)
      (order ++ [next]) := by
  obtain ⟨all, hall, hbefore⟩ := h.left next ∅ hnext
  have hnew : next ∉ order := by
    intro hmem
    have hnone := ((h.mem_order next).mp hmem).2
    rw [hnext] at hnone
    cases hnone
  refine ⟨?_, ?_, ?_, ?_⟩
  · rw [List.nodup_append]
    refine ⟨h.nodup, List.nodup_singleton _, ?_⟩
    rintro a ha b hb rfl
    rw [List.mem_singleton] at hb
    exact hnew (hb ▸ ha)
  · intro id
    rw [List.mem_append, List.mem_singleton, h.mem_order, get_next]
    by_cases hid : id = next
    · simp [hid, hall]
    · simp [hid]
  · intro id deps hget
    rw [get_next] at hget
    split_ifs at hget
    obtain ⟨old, hold, rfl⟩ := Option.map_eq_some_iff.mp hget
    obtain ⟨all', hall', hsplit⟩ := h.left id old hold
    refine ⟨all', hall', fun x hx => ?_⟩
    rw [Finset.mem_erase, List.mem_append, List.mem_singleton]
    rcases hsplit x hx with hx | hx
    · by_cases hxn : x = next
      · exact .inr (.inr hxn)
      · exact .inl ⟨hxn, hx⟩
    · exact .inr (.inl hx)
  · intro front id back hsplit all' hall' x hx
    rcases List.eq_nil_or_concat back with rfl | ⟨back', last, rfl⟩
    · -- the new node itself: all it waited for is in the order
      obtain ⟨rfl, hid⟩ := List.append_inj' hsplit rfl
      cases hid
      rw [hall] at hall'
      cases hall'
      rcases hbefore x hx with hx | hx
      · exact absurd hx (Finset.notMem_empty x)
      · exact hx
    · rw [List.concat_eq_append, ← List.cons_append, ← List.append_assoc] at hsplit
      obtain ⟨rfl, -⟩ := List.append_inj' hsplit rfl
      exact h.before front id back' rfl all' hall' x hx

theorem length_erase_lt {remaining : OrdMap String (Finset String)} {next : String}
    {deps : Finset String} (hnext : remaining.get next = some deps) :
    ((remaining.erase next).mapVal fun _ deps => deps.erase next).entries.length <
      remaining.entries.length := by
  have hmem : (next, deps) ∈ remaining.entries := OrdMap.mem_iff_get.mpr hnext
  rw [OrdMap.mapVal, List.length_map]
  exact List.length_filter_lt_length_iff_exists.mpr ⟨_, hmem, by simp⟩

/-- Kahn's loop ends with everything ordered. -/
theorem kahn_eq_ok {deps₀ : OrdMap String (Finset String)} {n : ℕ}
    {remaining : OrdMap String (Finset String)} {order result : List String}
    (hn : remaining.entries.length ≤ n) (h : Ordered deps₀ remaining order)
    (hresult : kahn n remaining order = .ok result) : Ordered deps₀ .empty result := by
  induction n generalizing remaining order with
  | zero =>
    cases hresult
    have hempty : remaining = .empty :=
      OrdMap.ext fun k => by rw [OrdMap.get, List.length_eq_zero_iff.mp (Nat.le_zero.mp hn)]; rfl
    rw [← hempty]
    exact h
  | succ n ih =>
    rw [kahn] at hresult
    split at hresult
    case isTrue hnil =>
      cases hresult
      have hempty : remaining = .empty :=
        OrdMap.ext fun k => by rw [OrdMap.get, List.isEmpty_iff.mp hnil]; rfl
      rw [← hempty]
      exact h
    case isFalse =>
      split at hresult
      case h_1 => cases hresult
      case h_2 next deps hfind =>
        have hdeps : deps = ∅ := by simpa using List.find?_some hfind
        have hget := OrdMap.mem_iff_get.mp (List.mem_of_find?_eq_some hfind)
        have hlt := length_erase_lt hget
        rw [hdeps] at hget
        exact ih (by omega) (h.next hget) hresult

/-! ## Valid plans -/

/-- What a plan satisfies: the order lists its nodes once, each after its sources, and edges
connect declared ports. -/
structure Planned.Valid (P : Planned) : Prop where
  nodup : P.order.Nodup
  mem_order : ∀ id, id ∈ P.order ↔ ∃ node, P.nodes.get id = some node
  source : ∀ e ∈ P.edges, ∃ node, P.nodes.get e.source.node = some node ∧
    e.source.name ∈ node.outputs.map PortContract.name
  target : ∀ e ∈ P.edges, ∃ node, P.nodes.get e.target.node = some node ∧
    e.target.name ∈ node.inputs.map PortContract.name
  sorted : ∀ front id back, P.order = front ++ id :: back →
    ∀ e ∈ P.dependenciesOf id, e.source.node ∈ front

namespace Planned

variable {P : Planned}

theorem mem_dependenciesOf {id : String} {e : Edge} :
    e ∈ P.dependenciesOf id ↔ e ∈ P.edges ∧ e.target.node = id := by
  rw [dependenciesOf, List.mem_filter, decide_eq_true_eq]

/-- **Induction along a plan**: what holds of a node whenever it holds of its sources holds of
every node. -/
theorem Valid.induction (h : P.Valid) {C : String → Prop}
    (hstep : ∀ id ∈ P.order, (∀ e ∈ P.dependenciesOf id, C e.source.node) → C id) :
    ∀ id ∈ P.order, C id := by
  have hfront : ∀ front back, P.order = front ++ back → ∀ id ∈ front, C id := by
    intro front
    induction front using List.reverseRecOn with
    | nil =>
      intro back hsplit id hid
      cases hid
    | append_singleton front last ih =>
      intro back hsplit id hid
      rw [List.append_assoc, List.singleton_append] at hsplit
      have hearlier := ih (last :: back) hsplit
      rcases List.mem_append.mp hid with hid | hid
      · exact hearlier id hid
      · rw [List.mem_singleton] at hid
        rw [hid]
        refine hstep last ?_ fun e he => hearlier _ (h.sorted front last back hsplit e he)
        rw [hsplit]
        simp
  exact hfront P.order [] (List.append_nil _).symm

/-- Nothing depends on a node that is not planned. -/
theorem Valid.dependenciesOf_eq_nil (h : P.Valid) {id : String} (hid : P.nodes.get id = none) :
    P.dependenciesOf id = [] := by
  rw [List.eq_nil_iff_forall_not_mem]
  intro e he
  obtain ⟨hedge, htarget⟩ := mem_dependenciesOf.mp he
  obtain ⟨node, hnode, -⟩ := h.target e hedge
  rw [htarget, hid] at hnode
  cases hnode

end Planned

theorem endpoint_eq_ok {nodes : OrdMap String Node} {label : String} {port : Port}
    {ports : Node → List PortContract} {contract : PortContract}
    (h : endpoint nodes label port ports = .ok contract) :
    ∃ node, nodes.get port.node = some node ∧ port.name ∈ (ports node).map PortContract.name := by
  rw [endpoint] at h
  split at h
  case h_1 => cases h
  case h_2 node hnode =>
    split at h
    case h_1 => cases h
    case h_2 found hfind =>
      have hname := List.find?_some hfind
      rw [decide_eq_true_eq] at hname
      exact ⟨node, hnode, List.mem_map.mpr ⟨found, List.mem_of_find?_eq_some hfind, hname⟩⟩

theorem insertNode_ids {l : List Node} {nodes : OrdMap String Node}
    (h : l.foldlM insertNode .empty = .ok nodes) :
    ∀ id node, nodes.get id = some node → node.id = id := by
  refine foldlM_invariant (P := fun m : OrdMap String Node =>
    ∀ id node, m.get id = some node → node.id = id) ?_ ?_ h
  · intro m node m' _ hm hinsert id node' hget
    rw [insertNode] at hinsert
    split_ifs at hinsert
    cases hinsert
    rw [OrdMap.get_insert] at hget
    split_ifs at hget with hid
    · cases hget
      exact hid.symm
    · exact hm id node' hget
  · intro id node hget
    cases hget

/-- Every node that is planned is ordered, and nothing else. -/
theorem incoming_get {nodes : OrdMap String Node} {edges : List Edge}
    (htargets : ∀ pair ∈ orderings nodes edges, ∃ node, nodes.get pair.1 = some node)
    (id : String) :
    (∃ deps, (incoming nodes edges).get id = some deps) ↔ ∃ node, nodes.get id = some node := by
  constructor
  · rintro ⟨deps, hdeps⟩
    rcases exists_of_foldl_addDependency hdeps with ⟨start, hstart⟩ | ⟨before, hbefore⟩
    · rw [OrdMap.get_mapVal, Option.map_eq_some_iff] at hstart
      obtain ⟨node, hnode, -⟩ := hstart
      exact ⟨node, hnode⟩
    · exact htargets _ hbefore
  · rintro ⟨node, hnode⟩
    have hstart : (nodes.mapVal fun _ _ => (∅ : Finset String)).get id = some ∅ := by
      rw [OrdMap.get_mapVal, hnode]
      rfl
    obtain ⟨deps, hdeps, -⟩ := subset_foldl_addDependency (orderings nodes edges) hstart
    exact ⟨deps, hdeps⟩

/-- **A planned pipeline is valid.** -/
theorem plan_valid {p : Pipeline} {P : Planned} (h : p.plan = .ok P) : P.Valid := by
  obtain ⟨nodes, hnodes, h⟩ := bind_eq_ok.mp h
  obtain ⟨_, -, h⟩ := bind_eq_ok.mp h
  obtain ⟨_, hedges, h⟩ := bind_eq_ok.mp h
  obtain ⟨_, -, h⟩ := bind_eq_ok.mp h
  obtain ⟨order, horder, h⟩ := bind_eq_ok.mp h
  cases h
  have hids := insertNode_ids hnodes
  have hedge : ∀ e ∈ p.edges, checkEdge nodes e = .ok () := forM_eq_ok.mp hedges
  have hsource : ∀ e ∈ p.edges, ∃ node, nodes.get e.source.node = some node ∧
      e.source.name ∈ node.outputs.map PortContract.name := by
    intro e he
    obtain ⟨produced, hproduced, -⟩ := bind_eq_ok.mp (hedge e he)
    exact endpoint_eq_ok hproduced
  have htarget : ∀ e ∈ p.edges, ∃ node, nodes.get e.target.node = some node ∧
      e.target.name ∈ node.inputs.map PortContract.name := by
    intro e he
    obtain ⟨produced, -, hrest⟩ := bind_eq_ok.mp (hedge e he)
    obtain ⟨accepted, haccepted, -⟩ := bind_eq_ok.mp hrest
    exact endpoint_eq_ok haccepted
  have hpairs : ∀ pair ∈ orderings nodes p.edges, ∃ node, nodes.get pair.1 = some node := by
    intro pair hpair
    rcases List.mem_append.mp hpair with hpair | hpair
    · obtain ⟨e, he, rfl⟩ := List.mem_map.mp hpair
      obtain ⟨node, hnode, -⟩ := htarget e he
      exact ⟨node, hnode⟩
    · obtain ⟨node, hnode, hgate⟩ := List.mem_filterMap.mp hpair
      obtain ⟨gate, -, rfl⟩ := Option.map_eq_some_iff.mp hgate
      obtain ⟨id, hget⟩ := OrdMap.mem_values_iff.mp hnode
      exact ⟨node, by rw [hids id node hget]; exact hget⟩
  have hordered := kahn_eq_ok le_rfl (ordered_start _) horder
  refine ⟨hordered.nodup, fun id => ?_, hsource, htarget, ?_⟩
  · rw [hordered.mem_order, incoming_get hpairs]
    simp
  · intro front id back hsplit e he
    obtain ⟨hmem, rfl⟩ := Planned.mem_dependenciesOf.mp he
    have hpair : (e.target.node, e.source.node) ∈ orderings nodes p.edges :=
      List.mem_append_left _ (List.mem_map_of_mem hmem)
    obtain ⟨deps, hdeps, hbefore⟩ :=
      mem_foldl_addDependency (m := nodes.mapVal fun _ _ => (∅ : Finset String)) hpair
    exact hordered.before front _ back hsplit deps hdeps _ hbefore

end Afactory
