import Mathlib
import Afactory.SchedulerMoves

/-!
# What every move of a scheduler keeps

* `Shape`: the order, the nodes, who owns whom, and what the derived sets say;
* `Shape.move`: every move keeps it;
* `Extends`: what is known of a node, once known, stays (`Move.extends`).
-/

namespace Afactory

namespace SchedulerState

/-- A node that completed. -/
def Completed (S : SchedulerState) (id : String) : Prop :=
  ∃ produced, S.outcomes.get id = some (.completed produced)

/-- A node that was resolved without completing. -/
def Lost (S : SchedulerState) (id : String) : Prop :=
  ∃ o, S.outcomes.get id = some o ∧ ∀ produced, o ≠ .completed produced

variable (S : SchedulerState) (id : String) (o : NodeOutcome)

@[simp] theorem resolve_outcomes : (S.resolve id o).outcomes = S.outcomes.insert id o := by
  cases o <;> rfl

@[simp] theorem resolve_nodes : (S.resolve id o).nodes = S.nodes := by cases o <;> rfl

@[simp] theorem resolve_order : (S.resolve id o).order = S.order := by cases o <;> rfl

@[simp] theorem resolve_inFlight : (S.resolve id o).inFlight = S.inFlight := by cases o <;> rfl

@[simp] theorem resolve_childInputs : (S.resolve id o).childInputs = S.childInputs := by
  cases o <;> rfl

@[simp] theorem resolve_owners : (S.resolve id o).owners = S.owners := by cases o <;> rfl

@[simp] theorem resolve_childLimits : (S.resolve id o).childLimits = S.childLimits := by
  cases o <;> rfl

theorem mem_resolve_unusable {k : String} : k ∈ (S.resolve id o).unusable ↔
    k ∈ S.unusable ∨ (k = id ∧ ∀ produced, o ≠ .completed produced) := by
  cases o with
  | completed outputs => simp [resolve]
  | failed error failureClass => simp [resolve, or_comm]
  | suppressed reason => simp [resolve, or_comm]

theorem get_resolve_outputs {k : String} : (S.resolve id o).outputs.get k =
    match o with
    | .completed produced => if k = id then some produced else S.outputs.get k
    | _ => S.outputs.get k := by
  cases o with
  | completed outputs => exact OrdMap.get_insert _ _ _ _
  | failed error failureClass => rfl
  | suppressed reason => rfl

end SchedulerState

namespace Scheduler

variable {D : Dispatch} {C : Scheduler} {A B : Scan}

/-! ## Registered children -/

theorem insertAfter_perm (id : String) (ids order : List String) :
    (insertAfter id ids order).Perm (ids ++ order) := by
  rw [insertAfter]
  have htake := List.take_append_drop (order.idxOf id + 1) order
  have hmove := List.Perm.append_right (order.drop (order.idxOf id + 1))
    (List.perm_append_comm : (order.take (order.idxOf id + 1) ++ ids).Perm _)
  rw [List.append_assoc ids, htake] at hmove
  exact hmove

/-- Validated children are new and distinct. -/
theorem validateChildren_new {parent : Node} {nodes : OrdMap String Node} {seen : List String}
    {children : List OwnedChildDispatch}
    (h : validateChildren parent nodes seen children = .ok ()) :
    (∀ child ∈ children, nodes.get child.node.id = none ∧ child.node.id ∉ seen) ∧
      (children.map fun child => child.node.id).Nodup := by
  induction children generalizing seen with
  | nil => exact ⟨fun child hchild => absurd hchild List.not_mem_nil, List.nodup_nil⟩
  | cons child rest ih =>
    rw [validateChildren] at h
    split_ifs at h with hvalid
    obtain ⟨hrest, hnodup⟩ := ih h
    simp only [childValid, Bool.and_eq_true, Bool.not_eq_true'] at hvalid
    obtain ⟨⟨⟨⟨⟨⟨⟨⟨-, hnew⟩, hseen⟩, -⟩, -⟩, -⟩, -⟩, -⟩, -⟩ := hvalid
    have hself : nodes.get child.node.id = none ∧ child.node.id ∉ seen := by
      constructor
      · rw [OrdMap.contains, Option.isSome_eq_false_iff, Option.isNone_iff_eq_none] at hnew
        exact hnew
      · intro hmem
        rw [List.contains_iff_mem.mpr hmem] at hseen
        cases hseen
    constructor
    · intro c hc
      rcases List.mem_cons.mp hc with rfl | hc
      · exact hself
      · exact ⟨(hrest c hc).1, fun hmem => (hrest c hc).2 (List.mem_cons_of_mem _ hmem)⟩
    · rw [List.map_cons, List.nodup_cons]
      refine ⟨fun hmem => ?_, hnodup⟩
      obtain ⟨c, hc, hid⟩ := List.mem_map.mp hmem
      exact (hrest c hc).2 (by rw [hid]; exact List.mem_cons_self)

/-! ## Shape -/

/-- The order lists the nodes once; planned nodes stay, all others are children with inputs of
their own; and the derived sets say what the outcomes say. -/
structure Shape (D : Dispatch) (C : Scheduler) (A : Scan) : Prop where
  nodup : A.state.order.Nodup
  mem_order : ∀ id, id ∈ A.state.order ↔ ∃ node, A.state.nodes.get id = some node
  planned : ∀ id node, C.plan.nodes.get id = some node →
    A.state.nodes.get id = some node ∧ A.state.childInputs.get id = none
  child : ∀ id node, A.state.nodes.get id = some node → C.plan.nodes.get id = none →
    ∃ inputs, A.state.childInputs.get id = some inputs
  owned : ∀ id inputs children, A.state.owners.get id = some (inputs, children) →
    (∃ node, C.plan.nodes.get id = some node ∧ D.coordinatesOwnedChildren node = true) ∧
      ∀ c ∈ children, (∃ node, A.state.nodes.get c = some node) ∧ C.plan.nodes.get c = none
  limits : ∀ id owner n, A.state.childLimits.get id = some (owner, n) → 0 < n
  resolved : ∀ id o, A.state.outcomes.get id = some o → ∃ node, A.state.nodes.get id = some node
  running : ∀ id inputs, A.state.inFlight.get id = some inputs →
    (∃ node, A.state.nodes.get id = some node) ∧ A.state.outcomes.get id = none ∧
      A.state.owners.get id = none ∧ A.results.get id = none
  heard : ∀ id r, A.results.get id = some r →
    (∃ node, A.state.nodes.get id = some node) ∧ A.state.outcomes.get id = none
  unusable : ∀ id, id ∈ A.state.unusable ↔ A.state.Lost id
  outputs : ∀ id produced, A.state.outputs.get id = some produced ↔
    A.state.outcomes.get id = some (.completed produced)

namespace Shape

theorem start (hplan : C.plan.Valid) : Shape D C ⟨C.start, .empty, [], false⟩ where
  nodup := by
    refine List.nodup_append.mpr ⟨hplan.nodup.filter _, hplan.nodup.filter _, ?_⟩
    rintro a ha b hb rfl
    simp only [List.mem_filter, decide_eq_true_eq] at ha hb
    exact hb.2 ha.2
  mem_order := by
    intro id
    refine Iff.trans ?_ (hplan.mem_order id)
    by_cases hfirst : id ∈ C.first <;> simp [Scheduler.start, hfirst]
  planned := fun id node hnode => ⟨hnode, rfl⟩
  child := by
    intro id node hnode hplanned
    cases hplanned.symm.trans hnode
  owned := nofun
  limits := nofun
  resolved := nofun
  running := nofun
  heard := nofun
  unusable := by
    intro id
    constructor
    · intro hmem
      exact absurd hmem (Finset.notMem_empty id)
    · rintro ⟨o, ho, -⟩
      cases ho
  outputs := by
    intro id produced
    constructor <;> nofun

/-- Recording an outcome keeps the shape. -/
theorem resolve (h : Shape D C A) {id : String} {node : Node} {o : NodeOutcome}
    (hknown : A.state.nodes.get id = some node) (hunresolved : A.state.outcomes.get id = none)
    (hresting : A.state.inFlight.get id = none) (hstate : B.state = A.state.resolve id o)
    (hresults : ∀ k r, B.results.get k = some r → k ≠ id ∧ A.results.get k = some r) :
    Shape D C B := by
  have hgone : A.state.outputs.get id = none := by
    cases hget : A.state.outputs.get id with
    | none => rfl
    | some produced =>
      rw [h.outputs, hunresolved] at hget
      cases hget
  refine ⟨?_, ?_, ?_, ?_, ?_, ?_, ?_, ?_, ?_, ?_, ?_⟩ <;> rw [hstate]
  · simpa using h.nodup
  · simpa using h.mem_order
  · simpa using h.planned
  · simpa using h.child
  · simpa using h.owned
  · simpa using h.limits
  · intro k o' hk
    rw [SchedulerState.resolve_outcomes, OrdMap.get_insert] at hk
    rw [SchedulerState.resolve_nodes]
    split_ifs at hk with hid
    · exact ⟨node, hid ▸ hknown⟩
    · exact h.resolved k o' hk
  · intro k inputs hk
    rw [SchedulerState.resolve_inFlight] at hk
    obtain ⟨hnode, hout, howner, hheard⟩ := h.running k inputs hk
    have hne : k ≠ id := by
      rintro rfl
      rw [hresting] at hk
      cases hk
    rw [SchedulerState.resolve_nodes, SchedulerState.resolve_outcomes,
      SchedulerState.resolve_owners, OrdMap.get_insert_ne _ _ hne]
    refine ⟨hnode, hout, howner, ?_⟩
    cases hget : B.results.get k with
    | none => rfl
    | some r =>
      rw [(hresults k r hget).2] at hheard
      cases hheard
  · intro k r hk
    obtain ⟨hne, hold⟩ := hresults k r hk
    rw [SchedulerState.resolve_nodes, SchedulerState.resolve_outcomes,
      OrdMap.get_insert_ne _ _ hne]
    exact h.heard k r hold
  · intro k
    rw [SchedulerState.mem_resolve_unusable, h.unusable, SchedulerState.Lost,
      SchedulerState.Lost, SchedulerState.resolve_outcomes, OrdMap.get_insert]
    by_cases hk : k = id
    · rw [if_pos hk, hk, hunresolved]
      simp
    · simp [hk]
  · intro k produced
    rw [SchedulerState.get_resolve_outputs, SchedulerState.resolve_outcomes, OrdMap.get_insert]
    by_cases hk : k = id
    · cases o <;> simp [hk, hgone]
    · cases o <;> simp [hk, h.outputs]

/-- A busy node keeps the shape: nothing but what runs and what waits changes. -/
theorem busy (h : Shape D C A) (hstate : B.state = { A.state with inFlight := B.state.inFlight })
    (hrunning : ∀ id inputs, B.state.inFlight.get id = some inputs →
      (∃ node, A.state.nodes.get id = some node) ∧ A.state.outcomes.get id = none ∧
        A.state.owners.get id = none ∧ B.results.get id = none)
    (hheard : ∀ id r, B.results.get id = some r →
      (∃ node, A.state.nodes.get id = some node) ∧ A.state.outcomes.get id = none) :
    Shape D C B := by
  refine ⟨?_, ?_, ?_, ?_, ?_, ?_, ?_, ?_, ?_, ?_, ?_⟩ <;> rw [hstate]
  · exact h.nodup
  · exact h.mem_order
  · exact h.planned
  · exact h.child
  · exact h.owned
  · exact h.limits
  · exact h.resolved
  · exact hrunning
  · exact hheard
  · exact h.unusable
  · exact h.outputs

end Shape

/-! ### Registering children -/

section Register

variable {id : String} {node : Node} {inputs : ArtifactMap} {children : List OwnedChildDispatch}

theorem register_nodes_of_known {S : SchedulerState}
    (hvalid : validateChildren node S.nodes [] children = .ok ()) {k : String} {known : Node}
    (hk : S.nodes.get k = some known) :
    (register D S id node inputs children).nodes.get k = some known ∧
      (register D S id node inputs children).childInputs.get k = S.childInputs.get k := by
  have hnew : ∀ child ∈ children, child.node.id ≠ k := by
    rintro child hchild rfl
    rw [((validateChildren_new hvalid).1 child hchild).1] at hk
    cases hk
  constructor
  · refine (OrdMap.get_insertAll_of_not_mem ?_).trans hk
    rw [List.map_map, List.mem_map]
    rintro ⟨child, hchild, hid⟩
    exact hnew child hchild hid
  · refine OrdMap.get_insertAll_of_not_mem ?_
    rw [List.map_map, List.mem_map]
    rintro ⟨child, hchild, hid⟩
    exact hnew child hchild hid

/-- A node after registration was there, or is a registered child with its inputs. -/
theorem register_nodes_cases {S : SchedulerState} {k : String} {known : Node}
    (hk : (register D S id node inputs children).nodes.get k = some known) :
    S.nodes.get k = some known ∨ ∃ child ∈ children, child.node.id = k := by
  rcases OrdMap.get_insertAll_cases hk with hmem | hold
  · obtain ⟨child, hchild, heq⟩ := List.mem_map.mp hmem
    exact .inr ⟨child, hchild, congrArg Prod.fst heq⟩
  · exact .inl hold

theorem register_child {S : SchedulerState} {child : OwnedChildDispatch} (hchild : child ∈ children) :
    (∃ known, (register D S id node inputs children).nodes.get child.node.id = some known) ∧
      ∃ given, (register D S id node inputs children).childInputs.get child.node.id = some given := by
  constructor
  · have hmem : child.node.id ∈
        (children.map fun child => (child.node.id, child.node)).map Prod.fst := by
      rw [List.map_map]
      exact List.mem_map_of_mem hchild
    obtain ⟨known, -, hget⟩ := OrdMap.get_insertAll_of_mem (m := S.nodes) hmem
    exact ⟨known, hget⟩
  · have hmem : child.node.id ∈
        (children.map fun child => (child.node.id, child.inputs)).map Prod.fst := by
      rw [List.map_map]
      exact List.mem_map_of_mem hchild
    obtain ⟨given, -, hget⟩ := OrdMap.get_insertAll_of_mem (m := S.childInputs) hmem
    exact ⟨given, hget⟩

/-- Registering new children keeps the shape. -/
theorem Shape.register (h : Shape D C A) (hidle : Idle A id node)
    (howner : coordinates D A.state id node = true)
    (hvalid : validateChildren node A.state.nodes [] children = .ok ())
    (hstate : B.state = Scheduler.register D A.state id node inputs children)
    (hresults : B.results = A.results) : Shape D C B := by
  obtain ⟨hnew, hdistinct⟩ := validateChildren_new hvalid
  have hperm := insertAfter_perm id (children.map fun child => child.node.id) A.state.order
  simp only [coordinates, isChild, Bool.and_eq_true, Bool.not_eq_true', OrdMap.contains,
    Option.isSome_eq_false_iff, Option.isNone_iff_eq_none] at howner
  have hknown : ∀ k, (∃ node, A.state.nodes.get k = some node) →
      ∃ node', (Scheduler.register D A.state id node inputs children).nodes.get k = some node' := by
    rintro k ⟨known, hk⟩
    exact ⟨known, (register_nodes_of_known hvalid hk).1⟩
  -- an owner is a planned node: a child is none
  have hplanned : C.plan.nodes.get id = some node := by
    cases hget : C.plan.nodes.get id with
    | none =>
      obtain ⟨given, hgiven⟩ := h.child id node hidle.known hget
      rw [howner.1] at hgiven
      cases hgiven
    | some node' =>
      have hsame := (h.planned id node' hget).1
      rw [hidle.known] at hsame
      exact hsame.symm
  refine ⟨?_, ?_, ?_, ?_, ?_, ?_, ?_, ?_, ?_, ?_, ?_⟩ <;> rw [hstate]
  · refine hperm.nodup_iff.mpr (List.nodup_append.mpr ⟨hdistinct, h.nodup, ?_⟩)
    rintro a ha b hb rfl
    obtain ⟨child, hchild, rfl⟩ := List.mem_map.mp ha
    obtain ⟨known, hk⟩ := (h.mem_order _).mp hb
    rw [(hnew child hchild).1] at hk
    cases hk
  · intro k
    refine hperm.mem_iff.trans ?_
    rw [List.mem_append, h.mem_order]
    constructor
    · rintro (hk | hk)
      · obtain ⟨child, hchild, rfl⟩ := List.mem_map.mp hk
        exact (register_child hchild).1
      · exact hknown k hk
    · rintro ⟨known, hk⟩
      rcases register_nodes_cases hk with hk | ⟨child, hchild, rfl⟩
      · exact .inr ⟨known, hk⟩
      · exact .inl (List.mem_map_of_mem (f := fun child : OwnedChildDispatch => child.node.id)
          hchild)
  · intro k known hk
    obtain ⟨hthere, hinputs⟩ := h.planned k known hk
    refine ⟨(register_nodes_of_known hvalid hthere).1, ?_⟩
    exact (register_nodes_of_known hvalid hthere).2.trans hinputs
  · intro k known hk hplan
    rcases register_nodes_cases hk with hk | ⟨child, hchild, rfl⟩
    · obtain ⟨given, hgiven⟩ := h.child k known hk hplan
      exact ⟨given, (register_nodes_of_known hvalid hk).2.trans hgiven⟩
    · exact (register_child hchild).2
  · intro k given ids hk
    rw [Scheduler.register, OrdMap.get_insert] at hk
    split_ifs at hk with hself
    · cases hk
      refine ⟨⟨node, hself ▸ hplanned, howner.2⟩, fun c hc => ?_⟩
      obtain ⟨child, hchild, rfl⟩ := List.mem_map.mp hc
      refine ⟨(register_child hchild).1, ?_⟩
      cases hget : C.plan.nodes.get child.node.id with
      | none => rfl
      | some known =>
        have hthere := (h.planned _ known hget).1
        rw [(hnew child hchild).1] at hthere
        cases hthere
    · obtain ⟨hplan, hchildren⟩ := h.owned k given ids hk
      exact ⟨hplan, fun c hc => ⟨hknown c (hchildren c hc).1, (hchildren c hc).2⟩⟩
  · intro k owner n hk
    rw [Scheduler.register] at hk
    simp only at hk
    split at hk
    · exact h.limits k owner n hk
    · rcases OrdMap.get_insertAll_cases hk with hmem | hold
      · obtain ⟨c, -, heq⟩ := List.mem_map.mp hmem
        cases heq
        omega
      · exact h.limits k owner n hold
  · exact fun k o hk => hknown k (h.resolved k o hk)
  · intro k given hk
    obtain ⟨hnode, hout, hown, hheard⟩ := h.running k given hk
    refine ⟨hknown k hnode, hout, ?_, hresults ▸ hheard⟩
    rw [Scheduler.register, OrdMap.get_insert_ne]
    · exact hown
    · rintro rfl
      cases hidle.resting.symm.trans hk
  · intro k r hk
    rw [hresults] at hk
    obtain ⟨hnode, hout⟩ := h.heard k r hk
    exact ⟨hknown k hnode, hout⟩
  · exact h.unusable
  · exact h.outputs

end Register

/-- **Every move keeps the shape.** -/
theorem Shape.move (h : Shape D C A) (hmove : Move D C A B) : Shape D C B := by
  cases hmove with
  | dooms id node hidle _ hstate hresults _ =>
    refine h.resolve hidle.known hidle.unresolved hidle.resting hstate fun k r hk => ?_
    rw [hresults] at hk
    refine ⟨?_, hk⟩
    rintro rfl
    rw [hidle.unheard] at hk
    cases hk
  | refuses t id node outcome hidle _ _ hstate hresults _ =>
    refine h.resolve hidle.known hidle.unresolved hidle.resting hstate fun k r hk => ?_
    rw [hresults] at hk
    refine ⟨?_, hk⟩
    rintro rfl
    rw [hidle.unheard] at hk
    cases hk
  | launches t id node hidle _ _ _ hstate hresults _ =>
    refine h.busy (by rw [hstate]) ?_ (by rw [hresults]; exact h.heard)
    intro k inputs hk
    rw [hstate, OrdMap.get_insert] at hk
    rw [hresults]
    split_ifs at hk with hid
    · rw [hid]
      exact ⟨⟨node, hidle.known⟩, hidle.unresolved, hidle.unowned, hidle.unheard⟩
    · exact h.running k inputs hk
  | registers t id node children hidle _ _ howner hvalid hstate hresults _ =>
    exact h.register hidle howner hvalid hstate hresults
  | spoils t id node error hidle _ _ _ hstate hresults _ =>
    refine h.busy (by rw [hstate]) ?_ ?_
    · intro k inputs hk
      rw [hstate] at hk
      obtain ⟨hnode, hout, howner, hheard⟩ := h.running k inputs hk
      refine ⟨hnode, hout, howner, ?_⟩
      rw [hresults, OrdMap.get_insert_ne]
      · exact hheard
      · rintro rfl
        rw [hidle.resting] at hk
        cases hk
    · intro k r hk
      rw [hresults, OrdMap.get_insert] at hk
      split_ifs at hk with hid
      · exact ⟨⟨node, hid ▸ hidle.known⟩, hid ▸ hidle.unresolved⟩
      · exact h.heard k r hk
  | folds id node result inputs children hknown hunresolved hresting _ _ _ hstate hresults _ =>
    refine h.busy (by rw [hstate]) ?_ ?_
    · intro k inputs' hk
      rw [hstate] at hk
      obtain ⟨hnode, hout, howner, hheard⟩ := h.running k inputs' hk
      refine ⟨hnode, hout, howner, ?_⟩
      rw [hresults, OrdMap.get_insert_ne]
      · exact hheard
      · rintro rfl
        rw [hresting] at hk
        cases hk
    · intro k r hk
      rw [hresults, OrdMap.get_insert] at hk
      split_ifs at hk with hid
      · exact ⟨⟨node, hid ▸ hknown⟩, hid ▸ hunresolved⟩
      · exact h.heard k r hk
  | reports t id node inputs hknown hrunning hstate hresults _ =>
    refine h.busy (by rw [hstate]) ?_ ?_
    · intro k inputs' hk
      rw [hstate, OrdMap.get_erase] at hk
      split_ifs at hk with hid
      obtain ⟨hnode, hout, howner, hheard⟩ := h.running k inputs' hk
      refine ⟨hnode, hout, howner, ?_⟩
      rw [hresults, OrdMap.get_insert_ne _ _ hid]
      exact hheard
    · intro k r hk
      rw [hresults, OrdMap.get_insert] at hk
      split_ifs at hk with hid
      · exact ⟨⟨node, hid ▸ hknown⟩, hid ▸ (h.running id inputs hrunning).2.1⟩
      · exact h.heard k r hk
  | publishes t id node result hknown hheard hstate hresults _ =>
    have hresting : A.state.inFlight.get id = none := by
      cases hget : A.state.inFlight.get id with
      | none => rfl
      | some inputs =>
        rw [(h.running id inputs hget).2.2.2] at hheard
        cases hheard
    refine h.resolve hknown (h.heard id result hheard).2 hresting hstate fun k r hk => ?_
    rw [hresults, OrdMap.get_erase] at hk
    split_ifs at hk with hid
    exact ⟨hid, hk⟩

/-! ## What stays -/

/-- What is known of a node stays, and so does what became of it. -/
structure Extends (S S' : SchedulerState) : Prop where
  nodes : ∀ id node, S.nodes.get id = some node →
    S'.nodes.get id = some node ∧ S'.childInputs.get id = S.childInputs.get id
  outcomes : ∀ id o, S.outcomes.get id = some o → S'.outcomes.get id = some o
  outputs : ∀ id o, S.outcomes.get id = some o → S'.outputs.get id = S.outputs.get id

theorem Extends.refl (S : SchedulerState) : Extends S S :=
  ⟨fun _ _ h => ⟨h, rfl⟩, fun _ _ h => h, fun _ _ _ => rfl⟩

theorem extends_resolve {S : SchedulerState} {id : String} {o : NodeOutcome}
    (hunresolved : S.outcomes.get id = none) : Extends S (S.resolve id o) where
  nodes := by
    intro k node hk
    rw [SchedulerState.resolve_nodes, SchedulerState.resolve_childInputs]
    exact ⟨hk, rfl⟩
  outcomes := by
    intro k o' hk
    rw [SchedulerState.resolve_outcomes, OrdMap.get_insert_ne]
    · exact hk
    · rintro rfl
      rw [hunresolved] at hk
      cases hk
  outputs := by
    intro k o' hk
    have hne : k ≠ id := by
      rintro rfl
      rw [hunresolved] at hk
      cases hk
    rw [SchedulerState.get_resolve_outputs]
    cases o <;> simp [hne]

theorem Move.extends (h : Shape D C A) (hmove : Move D C A B) : Extends A.state B.state := by
  cases hmove with
  | dooms id node hidle _ hstate _ _ =>
    rw [hstate]
    exact extends_resolve hidle.unresolved
  | refuses t id node outcome hidle _ _ hstate _ _ =>
    rw [hstate]
    exact extends_resolve hidle.unresolved
  | launches t id node _ _ _ _ hstate _ _ =>
    rw [hstate]
    exact ⟨fun _ _ h => ⟨h, rfl⟩, fun _ _ h => h, fun _ _ _ => rfl⟩
  | registers t id node children _ _ _ _ hvalid hstate _ _ =>
    rw [hstate]
    exact ⟨fun _ _ h => register_nodes_of_known hvalid h, fun _ _ h => h, fun _ _ _ => rfl⟩
  | spoils t id node error _ _ _ _ hstate _ _ =>
    rw [hstate]
    exact .refl _
  | folds id node result inputs children _ _ _ _ _ _ hstate _ _ =>
    rw [hstate]
    exact .refl _
  | reports t id node inputs _ _ hstate _ _ =>
    rw [hstate]
    exact ⟨fun _ _ h => ⟨h, rfl⟩, fun _ _ h => h, fun _ _ _ => rfl⟩
  | publishes t id node result _ hheard hstate _ _ =>
    rw [hstate]
    exact extends_resolve (h.heard id result hheard).2

end Scheduler

end Afactory
