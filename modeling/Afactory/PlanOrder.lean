import Mathlib
import Afactory.Checks
import Afactory.GreedyOrder
import Afactory.PipelinePlan

/-!
# Which pipelines are ordered, and how

`review-graph/src/plan.rs`: `topological_order` takes the lowest id among the ready nodes until
none is left, or nothing is ready.

* `Pipeline.Before`: through an edge, or through a gate;
* `Taken`: what the loop has of the order so far, exactly;
* `kahn_greedy`, `kahn_stuck`: how it ends;
* `plan_orders`: planning orders the acyclic pipelines, each in its least order, however its
  nodes and edges are listed.
-/

namespace Afactory

open GreedyOrder

/-! ## Checked pipelines -/

/-- `plan`, up to the order of the nodes. -/
def Pipeline.checked (p : Pipeline) : Except PlanError (OrdMap String Node) := do
  let nodes ← p.nodes.foldlM insertNode .empty
  nodes.values.forM checkPorts
  p.edges.forM (checkEdge nodes)
  nodes.values.forM (checkFed nodes p.edges)
  return nodes

/-- A node comes before another: it feeds it, or is the gate it waits for. -/
def Pipeline.Before (p : Pipeline) (x y : String) : Prop :=
  (∃ e ∈ p.edges, e.source.node = x ∧ e.target.node = y) ∨
    ∃ node ∈ p.nodes, node.id = y ∧ node.gatedBy = some x

def Pipeline.ids (p : Pipeline) : Set String := {id | id ∈ p.nodes.map Node.id}

theorem Pipeline.checked_eq_ok {p : Pipeline} {nodes : OrdMap String Node} :
    p.checked = .ok nodes ↔ p.nodes.foldlM insertNode .empty = .ok nodes ∧
      (∀ node ∈ nodes.values, checkPorts node = .ok ()) ∧
      (∀ e ∈ p.edges, checkEdge nodes e = .ok ()) ∧
      ∀ node ∈ nodes.values, checkFed nodes p.edges node = .ok () := by
  constructor
  · intro h
    obtain ⟨nodes', hnodes, h⟩ := bind_eq_ok.mp h
    obtain ⟨_, hports, h⟩ := bind_eq_ok.mp h
    obtain ⟨_, hedges, h⟩ := bind_eq_ok.mp h
    obtain ⟨_, hfed, h⟩ := bind_eq_ok.mp h
    cases h
    exact ⟨hnodes, forM_eq_ok.mp hports, forM_eq_ok.mp hedges, forM_eq_ok.mp hfed⟩
  · rintro ⟨hnodes, hports, hedges, hfed⟩
    simp only [checked, hnodes, ok_bind]
    rw [forM_eq_ok.mpr hports, ok_bind, forM_eq_ok.mpr hedges, ok_bind, forM_eq_ok.mpr hfed]
    rfl

theorem Pipeline.plan_eq_ok {p : Pipeline} {P : Planned} :
    p.plan = .ok P ↔ p.checked = .ok P.nodes ∧ P.edges = p.edges ∧
      topologicalOrder P.nodes p.edges = .ok P.order := by
  constructor
  · intro h
    obtain ⟨nodes, hnodes, h⟩ := bind_eq_ok.mp h
    obtain ⟨_, hports, h⟩ := bind_eq_ok.mp h
    obtain ⟨_, hedges, h⟩ := bind_eq_ok.mp h
    obtain ⟨_, hfed, h⟩ := bind_eq_ok.mp h
    obtain ⟨order, horder, h⟩ := bind_eq_ok.mp h
    cases h
    exact ⟨checked_eq_ok.mpr
      ⟨hnodes, forM_eq_ok.mp hports, forM_eq_ok.mp hedges, forM_eq_ok.mp hfed⟩, rfl, horder⟩
  · rintro ⟨hchecked, hedges', horder⟩
    obtain ⟨hnodes, hports, hedges, hfed⟩ := checked_eq_ok.mp hchecked
    obtain ⟨nodes, edges, order⟩ := P
    subst hedges'
    simp only [plan, hnodes, ok_bind]
    rw [forM_eq_ok.mpr hports, ok_bind, forM_eq_ok.mpr hedges, ok_bind, forM_eq_ok.mpr hfed, ok_bind]
    simp only [horder, ok_bind]
    rfl

/-- Inserted nodes are the listed ones, under their ids. -/
theorem foldlM_insertNode {l : List Node} {m nodes : OrdMap String Node}
    (h : l.foldlM insertNode m = .ok nodes) (id : String) (node : Node) :
    nodes.get id = some node ↔ m.get id = some node ∨ (node ∈ l ∧ node.id = id) := by
  induction l generalizing m with
  | nil =>
    cases h
    simp
  | cons first l ih =>
    rw [List.foldlM_cons, bind_eq_ok] at h
    obtain ⟨next, hnext, h⟩ := h
    rw [insertNode] at hnext
    split_ifs at hnext with hnew
    cases hnext
    rw [ih h, OrdMap.get_insert]
    have hnone : m.get first.id = none := by
      simpa [OrdMap.contains] using hnew
    by_cases hid : id = first.id
    · subst hid
      simp only [if_pos, hnone, Option.some.injEq, List.mem_cons, reduceCtorEq, false_or]
      constructor
      · rintro (rfl | ⟨hmem, hid⟩)
        · exact ⟨.inl rfl, rfl⟩
        · exact ⟨.inr hmem, hid⟩
      · rintro ⟨rfl | hmem, hid⟩
        · exact .inl rfl
        · exact .inr ⟨hmem, hid⟩
    · rw [if_neg hid, List.mem_cons]
      constructor
      · rintro (hget | ⟨hmem, hid'⟩)
        · exact .inl hget
        · exact .inr ⟨.inr hmem, hid'⟩
      · rintro (hget | ⟨rfl | hmem, hid'⟩)
        · exact .inl hget
        · exact absurd hid'.symm hid
        · exact .inr ⟨hmem, hid'⟩

theorem insertNode_nodup {l : List Node} {m nodes : OrdMap String Node}
    (h : l.foldlM insertNode m = .ok nodes) :
    (l.map Node.id).Nodup ∧ ∀ node ∈ l, m.get node.id = none := by
  induction l generalizing m with
  | nil => simp
  | cons first l ih =>
    rw [List.foldlM_cons, bind_eq_ok] at h
    obtain ⟨next, hnext, h⟩ := h
    rw [insertNode] at hnext
    split_ifs at hnext with hnew
    cases hnext
    obtain ⟨hnodup, hnone⟩ := ih h
    have hfirst : m.get first.id = none := by
      simpa [OrdMap.contains] using hnew
    have hother : ∀ node ∈ l, node.id ≠ first.id ∧ m.get node.id = none := by
      intro node hnode
      have hget := hnone node hnode
      rw [OrdMap.get_insert] at hget
      split_ifs at hget with hid
      exact ⟨hid, hget⟩
    refine ⟨?_, ?_⟩
    · rw [List.map_cons, List.nodup_cons]
      refine ⟨fun hmem => ?_, hnodup⟩
      obtain ⟨node, hnode, hid⟩ := List.mem_map.mp hmem
      exact (hother node hnode).1 hid
    · intro node hnode
      rcases List.mem_cons.mp hnode with rfl | hnode
      · exact hfirst
      · exact (hother node hnode).2

/-- Distinct ids are all inserted. -/
theorem insertNode_ok {l : List Node} {m : OrdMap String Node} (hnodup : (l.map Node.id).Nodup)
    (hnone : ∀ node ∈ l, m.get node.id = none) : ∃ nodes, l.foldlM insertNode m = .ok nodes := by
  induction l generalizing m with
  | nil => exact ⟨m, rfl⟩
  | cons first l ih =>
    rw [List.map_cons, List.nodup_cons] at hnodup
    have hfirst : m.contains first.id = false := by
      simp [OrdMap.contains, hnone first List.mem_cons_self]
    have hnext : ∀ node ∈ l, (m.insert first.id first).get node.id = none := by
      intro node hnode
      have hid : node.id ≠ first.id := by
        rintro hid
        exact hnodup.1 (hid ▸ List.mem_map_of_mem hnode)
      rw [OrdMap.get_insert_ne m first hid]
      exact hnone node (List.mem_cons_of_mem _ hnode)
    obtain ⟨nodes, hnodes⟩ := ih hnodup.2 hnext
    refine ⟨nodes, ?_⟩
    rw [List.foldlM_cons, bind_eq_ok]
    refine ⟨m.insert first.id first, ?_, hnodes⟩
    rw [insertNode, hfirst]
    rfl

namespace Pipeline

variable {p p' : Pipeline} {nodes : OrdMap String Node}

theorem checked_get (h : p.checked = .ok nodes) (id : String) (node : Node) :
    nodes.get id = some node ↔ node ∈ p.nodes ∧ node.id = id := by
  rw [foldlM_insertNode (checked_eq_ok.mp h).1]
  simp

theorem checked_mem_values (h : p.checked = .ok nodes) (node : Node) :
    node ∈ nodes.values ↔ node ∈ p.nodes := by
  rw [OrdMap.mem_values_iff]
  constructor
  · rintro ⟨id, hget⟩
    exact ((checked_get h id node).mp hget).1
  · intro hmem
    exact ⟨node.id, (checked_get h _ node).mpr ⟨hmem, rfl⟩⟩

theorem checked_mem_ids (h : p.checked = .ok nodes) (id : String) :
    id ∈ p.ids ↔ ∃ node, nodes.get id = some node := by
  simp only [checked_get h, ids, Set.mem_ofPred_eq, List.mem_map]

theorem checked_nodup (h : p.checked = .ok nodes) : (p.nodes.map Node.id).Nodup :=
  (insertNode_nodup (checked_eq_ok.mp h).1).1

/-- What comes before or after something is a node. -/
theorem checked_before (h : p.checked = .ok nodes) {x y : String} (hxy : p.Before x y) :
    x ∈ p.ids ∧ y ∈ p.ids := by
  obtain ⟨-, -, hedges, hfed⟩ := checked_eq_ok.mp h
  rw [checked_mem_ids h, checked_mem_ids h]
  rcases hxy with ⟨e, he, rfl, rfl⟩ | ⟨node, hnode, rfl, hgate⟩
  · obtain ⟨produced, hproduced, hrest⟩ := bind_eq_ok.mp (hedges e he)
    obtain ⟨accepted, haccepted, -⟩ := bind_eq_ok.mp hrest
    obtain ⟨source, hsource, -⟩ := endpoint_eq_ok hproduced
    obtain ⟨target, htarget, -⟩ := endpoint_eq_ok haccepted
    exact ⟨⟨source, hsource⟩, ⟨target, htarget⟩⟩
  · have hfed := hfed node ((checked_mem_values h node).mpr hnode)
    obtain ⟨_, -, hfed⟩ := bind_eq_ok.mp hfed
    rw [hgate] at hfed
    exact ⟨OrdMap.contains_iff.mp (ensure_eq_ok.mp hfed),
      ⟨node, (checked_get h _ node).mpr ⟨hnode, rfl⟩⟩⟩

theorem finite_ids (p : Pipeline) : p.ids.Finite := (p.nodes.map Node.id).finite_toSet

/-- Who comes first does not depend on how nodes and edges are listed. -/
theorem before_congr (hnodes : p'.nodes.Perm p.nodes) (hedges : p'.edges.Perm p.edges) :
    p'.Before = p.Before := by
  funext x y
  simp only [Before, hnodes.mem_iff, hedges.mem_iff]

/-- Nor do the checks. -/
theorem checked_congr (h : p.checked = .ok nodes) (hnodes : p'.nodes.Perm p.nodes)
    (hedges : p'.edges.Perm p.edges) : p'.checked = .ok nodes := by
  obtain ⟨-, hports, hedge, hfed⟩ := checked_eq_ok.mp h
  have hnodup : (p'.nodes.map Node.id).Nodup := (hnodes.map Node.id).nodup_iff.mpr (checked_nodup h)
  obtain ⟨nodes', hnodes'⟩ := insertNode_ok (m := .empty) hnodup fun _ _ => rfl
  have hsame : nodes' = nodes := by
    refine OrdMap.ext fun id => Option.ext fun node => ?_
    rw [foldlM_insertNode hnodes', checked_get h, hnodes.mem_iff]
    simp
  subst hsame
  refine checked_eq_ok.mpr ⟨hnodes', hports, fun e he => hedge e (hedges.mem_iff.mp he), ?_⟩
  intro node hnode
  have hinput : checkInput p'.edges node.id = checkInput p.edges node.id := by
    funext input
    rw [checkInput, checkInput, (hedges.filter _).length_eq]
  have hfed := hfed node hnode
  rw [checkFed] at hfed ⊢
  rw [hinput]
  exact hfed

end Pipeline

/-! ## The dependencies -/

theorem mem_foldl_addDependency_iff {l : List (String × String)} {m : OrdMap String (Finset String)}
    {id x : String} {deps : Finset String} (h : (l.foldl addDependency m).get id = some deps) :
    x ∈ deps ↔ (∃ first, m.get id = some first ∧ x ∈ first) ∨ (id, x) ∈ l := by
  induction l generalizing m with
  | nil =>
    have hget : m.get id = some deps := h
    simp [hget]
  | cons pair l ih =>
    rw [ih h, get_addDependency, List.mem_cons]
    obtain ⟨target, source⟩ := pair
    by_cases hid : id = target
    · subst hid
      rw [if_pos rfl]
      simp only [Option.some.injEq, exists_eq_left', Finset.mem_insert, Prod.mk.injEq, true_and]
      cases hm : m.get id with
      | none => simp
      | some first =>
        simp only [Option.getD_some, Option.some.injEq, exists_eq_left']
        tauto
    · rw [if_neg hid]
      simp [hid]

/-- What a map of dependencies says comes first. -/
def Waits (deps₀ : OrdMap String (Finset String)) (x y : String) : Prop :=
  ∃ deps, deps₀.get y = some deps ∧ x ∈ deps

/-- `topological_order` starts with exactly what comes before what. -/
theorem Pipeline.waits_incoming {p : Pipeline} {nodes : OrdMap String Node}
    (h : p.checked = .ok nodes) : Waits (incoming nodes p.edges) = p.Before := by
  have hstart : ∀ (y x : String), ¬ ∃ first,
      (nodes.mapVal fun _ _ => (∅ : Finset String)).get y = some first ∧ x ∈ first := by
    rintro y x ⟨first, hfirst, hx⟩
    rw [OrdMap.get_mapVal, Option.map_eq_some_iff] at hfirst
    obtain ⟨node, -, rfl⟩ := hfirst
    exact absurd hx (Finset.notMem_empty x)
  have hpair : ∀ x y, (y, x) ∈ orderings nodes p.edges ↔ p.Before x y := by
    intro x y
    rw [orderings, List.mem_append, List.mem_map, List.mem_filterMap, Before]
    refine or_congr ?_ ?_
    · refine exists_congr fun e => and_congr_right fun _ => ?_
      rw [Prod.mk.injEq, and_comm]
    · refine exists_congr fun node => ?_
      rw [checked_mem_values h]
      refine and_congr_right fun _ => ?_
      simp only [Option.map_eq_some_iff, Prod.mk.injEq]
      constructor
      · rintro ⟨gate, hgate, hid, rfl⟩
        exact ⟨hid, hgate⟩
      · rintro ⟨hid, hgate⟩
        exact ⟨x, hgate, hid, rfl⟩
  funext x y
  refine propext ⟨?_, fun hxy => ?_⟩
  · rintro ⟨deps, hdeps, hx⟩
    exact (hpair x y).mp (((mem_foldl_addDependency_iff hdeps).mp hx).resolve_left (hstart y x))
  · obtain ⟨deps, hdeps, hx⟩ := mem_foldl_addDependency
      (m := nodes.mapVal fun _ _ => (∅ : Finset String)) ((hpair x y).mpr hxy)
    exact ⟨deps, hdeps, hx⟩

theorem Pipeline.incoming_ids {p : Pipeline} {nodes : OrdMap String Node}
    (h : p.checked = .ok nodes) :
    {id | ∃ deps, (incoming nodes p.edges).get id = some deps} = p.ids := by
  ext id
  rw [Set.mem_ofPred_eq, checked_mem_ids h]
  refine incoming_get ?_ id
  rintro ⟨y, x⟩ hpair
  have hxy : Waits (incoming nodes p.edges) x y :=
    mem_foldl_addDependency (m := nodes.mapVal fun _ _ => (∅ : Finset String)) hpair
  rw [waits_incoming h] at hxy
  exact (checked_mem_ids h y).mp (checked_before h hxy).2

/-! ## Kahn's loop -/

section Kahn

variable {deps₀ remaining : OrdMap String (Finset String)} {order result : List String} {n : ℕ}

/-- What the loop has of the order so far: of the nodes left, what they still wait for, and an
order of least ready nodes. -/
structure Taken (deps₀ remaining : OrdMap String (Finset String)) (order : List String) :
    Prop where
  get : ∀ id, remaining.get id =
    if id ∈ order then none else (deps₀.get id).map fun deps => deps.filter (· ∉ order)
  greedy : Greedy {id | ∃ deps, deps₀.get id = some deps} (Waits deps₀) order

theorem taken_start (deps₀ : OrdMap String (Finset String)) : Taken deps₀ deps₀ [] where
  get id := by simp
  greedy front y back hsplit := by simp at hsplit

/-- The ready nodes are those that wait for nothing. -/
theorem Taken.ready_iff (h : Taken deps₀ remaining order) (id : String) :
    GreedyOrder.Ready {id | ∃ deps, deps₀.get id = some deps} (Waits deps₀) order id ↔
      remaining.get id = some ∅ := by
  rw [h.get]
  constructor
  · rintro ⟨⟨deps, hdeps⟩, hleft, hwaits⟩
    rw [if_neg hleft, hdeps, Option.map_some, Option.some.injEq, Finset.filter_eq_empty_iff]
    exact fun x hx hnot => hnot (hwaits x ⟨deps, hdeps, hx⟩)
  · intro hget
    split_ifs at hget with hleft
    obtain ⟨deps, hdeps, hempty⟩ := Option.map_eq_some_iff.mp hget
    refine ⟨⟨deps, hdeps⟩, hleft, ?_⟩
    rintro x ⟨deps', hdeps', hx⟩
    rw [hdeps] at hdeps'
    cases hdeps'
    by_contra hnot
    exact (Finset.filter_eq_empty_iff.mp hempty) hx hnot

/-- The first node that waits for nothing is the least of them. -/
theorem find_least {entry : String × Finset String} {z : String}
    (h : remaining.entries.find? (fun entry => entry.2 = ∅) = some entry)
    (hz : remaining.get z = some ∅) : entry.1 ≤ z := by
  obtain ⟨-, front, back, hsplit, hfront⟩ := List.find?_eq_some_iff_append.mp h
  have hmem : (z, (∅ : Finset String)) ∈ remaining.entries := OrdMap.mem_iff_get.mpr hz
  have hsorted := remaining.sorted
  rw [hsplit] at hmem
  rw [Sorted, hsplit, List.pairwise_append, List.pairwise_cons] at hsorted
  rcases List.mem_append.mp hmem with hmem | hmem
  · simpa using hfront _ hmem
  · rcases List.mem_cons.mp hmem with rfl | hmem
    · exact le_rfl
    · exact (hsorted.2.1.1 _ hmem).le

/-- Taking the first node that waits for nothing. -/
theorem Taken.next (h : Taken deps₀ remaining order) {next : String}
    (hleast : ∀ z, remaining.get z = some ∅ → next ≤ z) :
    Taken deps₀ ((remaining.erase next).mapVal fun _ deps => deps.erase next)
      (order ++ [next]) := by
  refine ⟨fun id => ?_, ?_⟩
  · rw [get_next, h.get]
    by_cases hid : id = next
    · simp [hid]
    · rw [if_neg hid]
      by_cases hmem : id ∈ order
      · simp [hmem]
      · rw [if_neg hmem, if_neg (by simp [hid, hmem]), Option.map_map]
        congr 1
        funext deps
        ext x
        simp only [Function.comp_apply, Finset.mem_erase, Finset.mem_filter, List.mem_append,
          List.mem_singleton]
        tauto
  · intro front y back hsplit z hz
    rcases List.eq_nil_or_concat back with rfl | ⟨back', last, rfl⟩
    · obtain ⟨rfl, hy⟩ := List.append_inj' hsplit rfl
      cases hy
      exact hleast z ((h.ready_iff z).mp hz)
    · rw [List.concat_eq_append, ← List.cons_append, ← List.append_assoc] at hsplit
      obtain ⟨rfl, -⟩ := List.append_inj' hsplit rfl
      exact h.greedy front y back' rfl z hz

/-- **A finished loop** took the least ready node each time. -/
theorem kahn_greedy (hn : remaining.entries.length ≤ n) (h : Taken deps₀ remaining order)
    (hresult : kahn n remaining order = .ok result) :
    Greedy {id | ∃ deps, deps₀.get id = some deps} (Waits deps₀) result := by
  induction n generalizing remaining order with
  | zero =>
    cases hresult
    exact h.greedy
  | succ n ih =>
    rw [kahn] at hresult
    split at hresult
    case isTrue hnil =>
      cases hresult
      exact h.greedy
    case isFalse =>
      split at hresult
      case h_1 => cases hresult
      case h_2 next deps hfind =>
        have hget : remaining.get next = some deps :=
          OrdMap.mem_iff_get.mp (List.mem_of_find?_eq_some hfind)
        have hlt := length_erase_lt hget
        exact ih (Nat.le_of_lt_succ (hlt.trans_le hn)) (h.next fun z hz => find_least hfind hz) hresult

/-- **A stuck loop** has nodes left, and none is ready. -/
theorem kahn_stuck {e : PlanError} (h : Taken deps₀ remaining order)
    (hresult : kahn n remaining order = .error e) :
    ∃ front, (∃ id ∈ {id | ∃ deps, deps₀.get id = some deps}, id ∉ front) ∧
      ∀ y, ¬ GreedyOrder.Ready {id | ∃ deps, deps₀.get id = some deps} (Waits deps₀) front y := by
  induction n generalizing remaining order with
  | zero => cases hresult
  | succ n ih =>
    rw [kahn] at hresult
    split at hresult
    case isTrue => cases hresult
    case isFalse hleft =>
      split at hresult
      case h_1 hfind =>
        refine ⟨order, ?_, fun y hy => ?_⟩
        · obtain ⟨entry, hentry⟩ := List.exists_mem_of_ne_nil _ (by simpa using hleft)
          have hget := OrdMap.mem_iff_get.mp (show (entry.1, entry.2) ∈ remaining.entries from hentry)
          rw [h.get] at hget
          split_ifs at hget with hmem
          obtain ⟨deps, hdeps, -⟩ := Option.map_eq_some_iff.mp hget
          exact ⟨entry.1, ⟨deps, hdeps⟩, hmem⟩
        · have hentry := OrdMap.mem_iff_get.mpr ((h.ready_iff y).mp hy)
          simpa using List.find?_eq_none.mp hfind _ hentry
      case h_2 next deps hfind => exact ih (h.next fun z hz => find_least hfind hz) hresult

end Kahn

/-! ## Planning -/

namespace Pipeline

variable {p p' : Pipeline} {nodes : OrdMap String Node} {order : List String}

/-- The order of a plan is a greedy topological order of the pipeline. -/
theorem topologicalOrder_eq_ok (h : p.checked = .ok nodes)
    (horder : topologicalOrder nodes p.edges = .ok order) :
    Topological p.ids p.Before order ∧ Greedy p.ids p.Before order := by
  have hordered := kahn_eq_ok le_rfl (ordered_start _) horder
  have hgreedy := kahn_greedy le_rfl (taken_start _) horder
  rw [← incoming_ids h, ← waits_incoming h]
  refine ⟨⟨hordered.nodup, fun id => ?_, ?_⟩, hgreedy⟩
  · rw [hordered.mem_order]
    simp
  · rintro front y back hsplit x ⟨deps, hdeps, hx⟩
    exact hordered.before front y back hsplit deps hdeps x hx

/-- A pipeline without cycles is ordered. -/
theorem topologicalOrder_of_acyclic (h : p.checked = .ok nodes) (hacyclic : Acyclic p.Before) :
    ∃ order, topologicalOrder nodes p.edges = .ok order := by
  cases horder : topologicalOrder nodes p.edges with
  | ok order => exact ⟨order, rfl⟩
  | error e =>
    obtain ⟨front, hleft, hstuck⟩ := kahn_stuck (taken_start _) horder
    rw [incoming_ids h, waits_incoming h] at hstuck
    rw [incoming_ids h] at hleft
    obtain ⟨y, hy⟩ := exists_ready p.finite_ids hacyclic
      (fun x y hxy => (checked_before h hxy).1) hleft
    exact absurd hy (hstuck y)

/-- **Planning orders exactly the acyclic pipelines.** A pipeline that passes the checks of its
nodes, ports and names is planned if and only if nothing comes before itself, through edges and
gates. The order of the plan lists the nodes, each after all that come before it; it is
lexicographically the first that does; and it is the order of every pipeline that lists the same
nodes and edges in another way. -/
theorem plan_orders (p : Pipeline) (h : ∃ nodes, p.checked = .ok nodes) :
    ((∃ P, p.plan = .ok P) ↔ Acyclic p.Before) ∧
      ∀ P, p.plan = .ok P →
        P.order.Perm (p.nodes.map Node.id) ∧ Topological p.ids p.Before P.order ∧
        (∀ l, Topological p.ids p.Before l → P.order = l ∨ List.Lex (· < ·) P.order l) ∧
        ∀ p' : Pipeline, p'.nodes.Perm p.nodes → p'.edges.Perm p.edges →
          ∃ P', p'.plan = .ok P' ∧ P'.order = P.order := by
  obtain ⟨nodes, hchecked⟩ := h
  have hplanned : ∀ P, p.plan = .ok P →
      Topological p.ids p.Before P.order ∧ Greedy p.ids p.Before P.order := by
    intro P hP
    obtain ⟨hnodes, -, horder⟩ := plan_eq_ok.mp hP
    exact topologicalOrder_eq_ok hnodes horder
  refine ⟨⟨?_, fun hacyclic => ?_⟩, fun P hP => ?_⟩
  · rintro ⟨P, hP⟩
    exact (hplanned P hP).1.acyclic fun x y hxy => (checked_before hchecked hxy).2
  · obtain ⟨order, horder⟩ := topologicalOrder_of_acyclic hchecked hacyclic
    exact ⟨⟨nodes, p.edges, order⟩, plan_eq_ok.mpr ⟨hchecked, rfl, horder⟩⟩
  · obtain ⟨htopological, hgreedy⟩ := hplanned P hP
    refine ⟨?_, htopological, fun l hl => hgreedy.least htopological hl, fun p' hnodes hedges => ?_⟩
    · exact (List.perm_ext_iff_of_nodup htopological.nodup (checked_nodup hchecked)).mpr
        htopological.mem_iff
    · have hchecked' := checked_congr hchecked hnodes hedges
      have hbefore := before_congr hnodes hedges
      have hids : p'.ids = p.ids := by
        ext id
        simp only [ids, Set.mem_ofPred_eq, (hnodes.map Node.id).mem_iff]
      have hacyclic : Acyclic p'.Before := by
        rw [hbefore]
        exact htopological.acyclic fun x y hxy => (checked_before hchecked hxy).2
      obtain ⟨order, horder⟩ := topologicalOrder_of_acyclic hchecked' hacyclic
      obtain ⟨htopological', hgreedy'⟩ := topologicalOrder_eq_ok hchecked' horder
      rw [hids, hbefore] at htopological' hgreedy'
      exact ⟨⟨nodes, p'.edges, order⟩, plan_eq_ok.mpr ⟨hchecked', rfl, horder⟩,
        hgreedy'.unique htopological' hgreedy htopological⟩

/-- A worker fed by one node and gated by another. -/
def gatedPipeline : Pipeline where
  nodes := [
    { id := "worker", kind := .reviewer, inputs := [⟨"in", "review/Diff@1", .one, false, .any⟩],
      gatedBy := some "admission" },
    { id := "slice", kind := .slicer, outputs := [⟨"out", "review/Diff@1", .one, false, .any⟩] },
    { id := "admission", kind := .gate }]
  edges := [⟨⟨"slice", "out"⟩, ⟨"worker", "in"⟩⟩]

/-- The gated worker comes last, and no topological order comes before its plan's. -/
theorem plan_orders_gated :
    ∃ P, gatedPipeline.plan = .ok P ∧ P.order = ["admission", "slice", "worker"] ∧
      Acyclic gatedPipeline.Before ∧
      ∀ l, Topological gatedPipeline.ids gatedPipeline.Before l →
        P.order = l ∨ List.Lex (· < ·) P.order l := by
  have horders : (do let P ← gatedPipeline.plan; .ok P.order) =
      (.ok ["admission", "slice", "worker"] : Except PlanError (List String)) := by
    decide
  obtain ⟨P, hP, horder⟩ := bind_eq_ok.mp horders
  have horder : P.order = ["admission", "slice", "worker"] := Except.ok.inj horder
  have h := plan_orders gatedPipeline ⟨P.nodes, (plan_eq_ok.mp hP).1⟩
  exact ⟨P, hP, horder, h.1.mp ⟨P, hP⟩, (h.2 P hP).2.2.1⟩

end Pipeline

end Afactory
