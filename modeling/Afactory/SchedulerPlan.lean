import Mathlib
import Afactory.Checks
import Afactory.CompiledTask
import Afactory.PlanOrder

/-!
# The scheduler's order of a compiled graph

`scheduler_plan` of `review-graph/src/task.rs`: the nodes of a compiled graph as a pipeline of the
graph planner, with an edge for every input and for every condition.

* `CompiledTask.schedulerPlan`: the planned pipeline;
* `CompiledTask.DependsOn`: through an input, or through a condition;
* `CompiledTask.Ordered`: a graph whose order is the planner's, as compilation leaves it;
* `Ordered.topological`: each node once, after the producers of its inputs and conditions.
-/

namespace Afactory.CompiledTask

open GreedyOrder

/-! ## The pipeline of a graph -/

/-- `ports`: a contract's ports, of any Snapshot. -/
def schedulerPorts (ports : OrdMap String PipelinePort) : List PortContract :=
  ports.entries.map fun (name, p) => ⟨name, p.artifactType, p.cardinality, p.optional, .any⟩

/-- The guard port of a condition, with the edge that feeds it. Indexing a node or a port that is
not there panics. -/
def schedulerGuard (G : CompiledTask) (id : String) (condition : CompiledCondition × ℕ) :
    Except String (PortContract × Edge) :=
  let (c, index) := condition
  match (G.nodes.get c.source.node).bind fun source => source.contract.outputs.get c.source.port with
  | none => .error "no entry found for key"
  | some source => .ok
    (⟨conditionInput index, source.artifactType, source.cardinality, true, .any⟩,
      ⟨⟨c.source.node, c.source.port⟩, ⟨id, conditionInput index⟩⟩)

/-- One node, with the edges into it. -/
def schedulerNode (G : CompiledTask) (pipeline : Pipeline) (entry : String × CompiledNode) :
    Except String Pipeline := do
  let (id, node) := entry
  if node.contract.inputs.keys.any fun name => "af_condition_".toList.isPrefixOf name.toList then
    throw "Task input uses a reserved scheduler guard name"
  let guards ← node.conditions.zipIdx.mapM (G.schedulerGuard id)
  return {
    nodes := pipeline.nodes ++ [{
      id := id, kind := .task
      inputs := schedulerPorts node.contract.inputs ++ guards.map Prod.fst
      outputs := schedulerPorts node.contract.outputs }]
    edges := pipeline.edges ++ guards.map Prod.snd ++
      node.inputs.entries.map fun (name, source) =>
        ⟨⟨source.node, source.port⟩, ⟨id, name⟩⟩ }

/-- `scheduler_plan`. -/
def schedulerPlan (G : CompiledTask) : Except String Planned := do
  let pipeline ← G.nodes.entries.foldlM G.schedulerNode {}
  pipeline.plan.mapError PlanError.text

/-! ## What comes before what -/

/-- A node reads an output of another, by an input or by a condition. -/
def DependsOn (G : CompiledTask) (x y : String) : Prop :=
  ∃ node, G.nodes.get y = some node ∧ x ∈ node.producers

/-- The nodes of a graph. -/
def ids (G : CompiledTask) : Set String := {x | ∃ node, G.nodes.get x = some node}

/-- A graph in the planner's order, as every compilation ends. -/
def Ordered (G : CompiledTask) : Prop := ∃ P, G.schedulerPlan = .ok P ∧ G.order = P.order

variable {G : CompiledTask} {p p' : Pipeline} {x y : String}

theorem schedulerGuard_edge {id : String} {condition : CompiledCondition × ℕ}
    {guard : PortContract × Edge} (h : G.schedulerGuard id condition = .ok guard) :
    guard.2.source.node = condition.1.source.node ∧ guard.2.target.node = id := by
  obtain ⟨c, index⟩ := condition
  rw [schedulerGuard] at h
  split at h
  · cases h
  · cases h
    exact ⟨rfl, rfl⟩

/-- The edges of the guards come from the sources of the conditions. -/
theorem schedulerGuard_edges {id : String} {conditions : List CompiledCondition} {n : ℕ}
    {guards : List (PortContract × Edge)}
    (h : (conditions.zipIdx n).mapM (G.schedulerGuard id) = .ok guards) :
    (∃ e ∈ guards.map Prod.snd, e.source.node = x ∧ e.target.node = y) ↔
      y = id ∧ x ∈ conditions.map fun c => c.source.node := by
  have hguards := mapM_forall₂ h
  clear h
  induction conditions generalizing n guards with
  | nil =>
    cases hguards
    simp
  | cons c conditions ih =>
    rw [List.zipIdx_cons] at hguards
    obtain _ | ⟨hguard, hrest⟩ := hguards
    obtain ⟨hsource, htarget⟩ := schedulerGuard_edge hguard
    simp only [List.map_cons, List.mem_cons, exists_eq_or_imp, ih hrest, hsource, htarget]
    constructor
    · rintro (⟨rfl, rfl⟩ | ⟨rfl, hx⟩)
      · exact ⟨rfl, .inl rfl⟩
      · exact ⟨rfl, .inr hx⟩
    · rintro ⟨rfl, rfl | hx⟩
      · exact .inl ⟨rfl, rfl⟩
      · exact .inr ⟨rfl, hx⟩

/-- What one node adds: itself, gated by nothing, and an edge from each of its producers. -/
theorem schedulerNode_eq_ok {entry : String × CompiledNode}
    (h : G.schedulerNode p entry = .ok p') :
    (∃ node, p'.nodes = p.nodes ++ [node] ∧ node.id = entry.1 ∧ node.gatedBy = none) ∧
      ∃ edges, p'.edges = p.edges ++ edges ∧
        ∀ x y, (∃ e ∈ edges, e.source.node = x ∧ e.target.node = y) ↔
          y = entry.1 ∧ x ∈ entry.2.producers := by
  obtain ⟨id, node⟩ := entry
  rw [schedulerNode] at h
  split_ifs at h
  · cases h
  obtain ⟨guards, hguards, h⟩ := bind_eq_ok.mp h
  cases h
  refine ⟨⟨_, rfl, rfl, rfl⟩, _, by rw [List.append_assoc], fun x y => ?_⟩
  have hinputs : (∃ e ∈ node.inputs.entries.map (fun input => (⟨⟨input.2.node, input.2.port⟩,
      ⟨id, input.1⟩⟩ : Edge)), e.source.node = x ∧ e.target.node = y) ↔
      y = id ∧ x ∈ node.inputs.values.map PortAddress.node := by
    simp only [OrdMap.values, List.mem_map]
    constructor
    · rintro ⟨e, ⟨input, hmem, rfl⟩, rfl, rfl⟩
      exact ⟨rfl, input.2, ⟨input, hmem, rfl⟩, rfl⟩
    · rintro ⟨rfl, source, ⟨input, hmem, rfl⟩, rfl⟩
      exact ⟨_, ⟨input, hmem, rfl⟩, rfl, rfl⟩
  simp only [List.mem_append, or_and_right, exists_or, schedulerGuard_edges hguards, hinputs,
    CompiledNode.producers]
  tauto

/-- The pipeline of the listed nodes. -/
theorem foldlM_schedulerNode {l : List (String × CompiledNode)}
    (h : l.foldlM G.schedulerNode p = .ok p') :
    p'.nodes.map Node.id = p.nodes.map Node.id ++ l.map Prod.fst ∧
      (∀ node ∈ p'.nodes, node ∈ p.nodes ∨ node.gatedBy = none) ∧
      ∀ x y, (∃ e ∈ p'.edges, e.source.node = x ∧ e.target.node = y) ↔
        (∃ e ∈ p.edges, e.source.node = x ∧ e.target.node = y) ∨
          ∃ entry ∈ l, y = entry.1 ∧ x ∈ entry.2.producers := by
  induction l generalizing p with
  | nil =>
    cases h
    simp +contextual
  | cons entry l ih =>
    rw [List.foldlM_cons, bind_eq_ok] at h
    obtain ⟨next, hnext, h⟩ := h
    obtain ⟨⟨added, hnodes, hid, hgate⟩, edges, hedges, hadded⟩ := schedulerNode_eq_ok hnext
    obtain ⟨hids, hgates, hbefore⟩ := ih h
    refine ⟨by simp [hids, hnodes, hid], fun node hnode => ?_, fun x y => ?_⟩
    · rcases hgates node hnode with hmem | hnone
      · rw [hnodes, List.mem_append, List.mem_singleton] at hmem
        rcases hmem with hmem | rfl
        · exact .inl hmem
        · exact .inr hgate
      · exact .inr hnone
    · rw [hbefore, hedges]
      simp only [List.mem_append, or_and_right, exists_or, hadded, List.mem_cons, or_assoc,
        exists_eq_left]

/-- The pipeline a graph is planned as has its nodes and its dependencies. -/
theorem schedulerPlan_eq_ok {P : Planned} (h : G.schedulerPlan = .ok P) :
    ∃ p : Pipeline, p.plan = .ok P ∧ p.ids = G.ids ∧ p.Before = G.DependsOn := by
  obtain ⟨p, hp, h⟩ := bind_eq_ok.mp h
  obtain ⟨hids, hgates, hbefore⟩ := foldlM_schedulerNode hp
  refine ⟨p, mapError_eq_ok.mp h, ?_, ?_⟩
  · ext id
    rw [Pipeline.ids, Set.mem_ofPred_eq, hids, List.map_nil, List.nil_append]
    exact OrdMap.mem_keys_iff
  · funext x y
    rw [Pipeline.Before, hbefore, DependsOn]
    apply propext
    constructor
    · rintro ((⟨e, he, -⟩ | ⟨⟨id, node⟩, hentry, rfl, hx⟩) | ⟨node, hnode, -, hgate⟩)
      · cases he
      · exact ⟨node, OrdMap.mem_iff_get.mp hentry, hx⟩
      · rcases hgates node hnode with hmem | hnone
        · cases hmem
        · rw [hnone] at hgate
          cases hgate
    · rintro ⟨node, hnode, hx⟩
      exact .inl (.inr ⟨(y, node), OrdMap.mem_iff_get.mpr hnode, rfl, hx⟩)

/-- **The order of a graph** has each node once, after the producers of its inputs and
conditions. -/
theorem Ordered.topological (h : G.Ordered) : Topological G.ids G.DependsOn G.order := by
  obtain ⟨P, hP, horder⟩ := h
  obtain ⟨p, hplan, hids, hbefore⟩ := schedulerPlan_eq_ok hP
  obtain ⟨hchecked, -, htopological⟩ := Pipeline.plan_eq_ok.mp hplan
  rw [horder, ← hids, ← hbefore]
  exact (Pipeline.topologicalOrder_eq_ok hchecked htopological).1

/-- What a node depends on is a node. -/
theorem Ordered.mem_ids (h : G.Ordered) (hxy : G.DependsOn x y) : x ∈ G.ids := by
  have hy : y ∈ G.ids := by
    obtain ⟨node, hnode, -⟩ := hxy
    exact ⟨node, hnode⟩
  obtain ⟨front, back, hsplit⟩ := List.append_of_mem ((h.topological.mem_iff y).mpr hy)
  have hx := h.topological.ordered front y back hsplit x hxy
  exact (h.topological.mem_iff x).mp (by simp [hsplit, hx])

end Afactory.CompiledTask
