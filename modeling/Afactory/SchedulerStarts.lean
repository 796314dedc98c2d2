import Mathlib
import Afactory.SchedulerStory

/-!
# What a scheduler starts

* `running`: the nodes that run after some events;
* `Allowed`, `Legal`: a start is the first of its node, comes after its sources were resolved,
  and leaves every limit kept (`Legal.running_le`); no node is resolved twice;
* `Launched`: starts are legal, given what the edges delivered, and run to the end
  (`Launched.move`).
-/

namespace Afactory

namespace Scheduler

variable {D : Dispatch} {C : Scheduler} {A B : Scan} {T : List SchedulerEvent}

/-! ## Legal starts -/

/-- The nodes that started and have not reported, by their first start. -/
def running : List SchedulerEvent → List String :=
  List.foldl (fun ids event => match event with
    | .started id _ => ids ++ [id]
    | .reported id => ids.erase id
    | _ => ids) []

@[simp] theorem running_started (id : String) (inputs : ArtifactMap) :
    running (T ++ [.started id inputs]) = running T ++ [id] := by
  rw [running, List.foldl_append]
  rfl

@[simp] theorem running_reported (id : String) :
    running (T ++ [.reported id]) = (running T).erase id := by
  rw [running, List.foldl_append]
  rfl

@[simp] theorem running_resolved (id : String) (o : NodeOutcome) :
    running (T ++ [.resolved id o]) = running T := by
  rw [running, List.foldl_append]
  rfl

@[simp] theorem running_asks (t : ℕ) (id : String) (node : Node) (inputs : ArtifactMap) :
    running (T ++ asks D t id node inputs) = running T := by
  rw [asks]
  split_ifs
  · rw [List.append_nil]
  · rw [running, List.foldl_append]
    rfl

/-- What must hold before an event. -/
def Allowed (C : Scheduler) (before : List SchedulerEvent) : SchedulerEvent → Prop
  | .started id _ => (∀ inputs, .started id inputs ∉ before) ∧
      (∀ e ∈ C.plan.dependenciesOf id, ∃ o, .resolved e.source.node o ∈ before) ∧
      (running before).length < C.maxParallel ∧
      ∀ scope limit, C.scopeLimits.get scope = some limit → within id scope = true →
        ((running before).filter fun id => within id scope).length < limit
  | .resolved id _ => ∀ o, .resolved id o ∉ before
  | _ => True

/-- Every event was allowed when it happened. -/
def Legal (C : Scheduler) (T : List SchedulerEvent) : Prop :=
  ∀ before event after, T = before ++ event :: after → Allowed C before event

theorem legal_nil : Legal C [] := by
  intro before event after hsplit
  simp at hsplit

theorem Legal.snoc (h : Legal C T) {event : SchedulerEvent} (hallowed : Allowed C T event) :
    Legal C (T ++ [event]) := by
  intro before event' after hsplit
  rcases List.eq_nil_or_concat after with rfl | ⟨after', last, rfl⟩
  · obtain ⟨rfl, hevent⟩ := List.append_inj' hsplit rfl
    cases hevent
    exact hallowed
  · rw [List.concat_eq_append, ← List.cons_append, ← List.append_assoc] at hsplit
    obtain ⟨rfl, -⟩ := List.append_inj' hsplit rfl
    exact h before event' after' rfl

theorem Legal.asks (h : Legal C T) (t : ℕ) (id : String) (node : Node) (inputs : ArtifactMap) :
    Legal C (T ++ asks D t id node inputs) := by
  rw [Scheduler.asks]
  split_ifs
  · rw [List.append_nil]
    exact h
  · exact h.snoc trivial

/-- At every moment of a legal run the limits are kept. -/
theorem Legal.running_le (h : Legal C T) {before after : List SchedulerEvent}
    (hsplit : T = before ++ after) : (running before).length ≤ C.maxParallel ∧
      ∀ scope limit, C.scopeLimits.get scope = some limit →
        ((running before).filter fun id => within id scope).length ≤ limit := by
  induction before using List.reverseRecOn generalizing after with
  | nil => exact ⟨Nat.zero_le _, fun _ _ _ => Nat.zero_le _⟩
  | append_singleton before event ih =>
    rw [List.append_assoc, List.singleton_append] at hsplit
    obtain ⟨hall, hscopes⟩ := ih hsplit
    have hallowed := h before event after hsplit
    cases event with
    | asked id answer =>
      have hsame : running (before ++ [.asked id answer]) = running before := by
        rw [running, List.foldl_append]
        rfl
      rw [hsame]
      exact ⟨hall, hscopes⟩
    | resolved id o =>
      rw [running_resolved]
      exact ⟨hall, hscopes⟩
    | reported id =>
      rw [running_reported]
      refine ⟨(List.length_erase_le).trans hall, fun scope limit hlimit => ?_⟩
      have hsub := ((List.erase_sublist (a := id) (l := running before)).filter
        fun id => within id scope).length_le
      exact hsub.trans (hscopes scope limit hlimit)
    | started id inputs =>
      obtain ⟨-, -, hroom, hscope⟩ := hallowed
      rw [running_started]
      refine ⟨by rw [List.length_append, List.length_singleton]; omega, ?_⟩
      intro scope limit hlimit
      rw [List.filter_append, List.length_append]
      by_cases hin : within id scope = true
      · have hlt := hscope scope limit hlimit hin
        have hone : ([id].filter fun id => within id scope).length ≤ 1 := List.length_filter_le _ _
        omega
      · have hnone : ([id].filter fun id => within id scope) = [] := by simp [hin]
        rw [hnone]
        exact hscopes scope limit hlimit

/-! ## Launched nodes -/

/-- A started node runs with its inputs, waits with their result, or was concluded from it. -/
def Ran (D : Dispatch) (A : Scan) (id : String) (node : Node) (inputs : ArtifactMap) : Prop :=
  A.state.inFlight.get id = some inputs ∨
    ∃ t, A.results.get id = some (D.run t node inputs) ∨
      ∃ t', A.state.outcomes.get id = some (conclude D t' id node (D.run t node inputs))

structure Launched (D : Dispatch) (C : Scheduler) (A : Scan) (T : List SchedulerEvent) :
    Prop where
  started : ∀ id inputs, .started id inputs ∈ T → ∃ node, A.state.nodes.get id = some node ∧
    A.state.owners.get id = none ∧ Receives C A.state id node inputs ∧ Ran D A id node inputs
  running : (running T).Perm A.state.inFlight.keys
  legal : Legal C T

namespace Launched

theorem not_started (h : Launched D C A T) {id : String} {node : Node} (hidle : Idle A id node) :
    ∀ inputs, .started id inputs ∉ T := by
  intro inputs hmem
  obtain ⟨_, -, -, -, hrunning | ⟨t, hheard | ⟨t', hout⟩⟩⟩ := h.started id inputs hmem
  · cases hidle.resting.symm.trans hrunning
  · cases hidle.unheard.symm.trans hheard
  · cases hidle.unresolved.symm.trans hout

/-- Started nodes are the same after a move of another node. -/
theorem started_of_ne (h : Launched D C A T) (hext : Extends A.state B.state) {id : String}
    (hrunning : ∀ k, k ≠ id → B.state.inFlight.get k = A.state.inFlight.get k)
    (howners : ∀ k, k ≠ id → B.state.owners.get k = A.state.owners.get k)
    (hresults : ∀ k, k ≠ id → B.results.get k = A.results.get k) {k : String} (hk : k ≠ id)
    {inputs : ArtifactMap} (hmem : .started k inputs ∈ T) : ∃ node,
      B.state.nodes.get k = some node ∧ B.state.owners.get k = none ∧
        Receives C B.state k node inputs ∧ Ran D B k node inputs := by
  obtain ⟨node, hknown, howner, hreceives, hran⟩ := h.started k inputs hmem
  refine ⟨node, (hext.nodes k node hknown).1, (howners k hk).trans howner,
    hreceives.mono hext hknown, ?_⟩
  rw [Ran, hrunning k hk, hresults k hk]
  rcases hran with hrun | ⟨t, hheard | ⟨t', hout⟩⟩
  · exact .inl hrun
  · exact .inr ⟨t, .inl hheard⟩
  · exact .inr ⟨t, .inr ⟨t', hext.outcomes k _ hout⟩⟩

end Launched

/-- Where no limit holds a node back, the running nodes leave room. -/
theorem room_of_not_atLimit {S : SchedulerState} {id : String} (h : C.atLimit S id = false) :
    S.inFlight.keys.length < C.maxParallel ∧
      ∀ scope limit, C.scopeLimits.get scope = some limit → within id scope = true →
        (S.inFlight.keys.filter fun id => within id scope).length < limit := by
  simp only [atLimit, Bool.or_eq_false_iff, decide_eq_false_iff_not, not_le] at h
  obtain ⟨⟨hall, hscopes⟩, -⟩ := h
  refine ⟨by rw [OrdMap.keys, List.length_map]; exact hall, fun scope limit hlimit hin => ?_⟩
  rw [List.any_eq_false] at hscopes
  have hscope := hscopes (scope, limit) (OrdMap.mem_iff_get.mpr hlimit)
  simp only [hin, Bool.true_and, decide_eq_true_eq, not_le] at hscope
  exact hscope

/-- A ready node that is no owner may start. -/
theorem Ready.allowed {id : String} {node : Node} (hready : Ready D C A.state id node) (hplan : C.plan.Valid)
    (hshape : Shape D C A) (htold : Told D C A T) (h : Launched D C A T)
    (hidle : Idle A id node) (hstatic : coordinates D A.state id node = false) {t : ℕ}
    (inputs : ArtifactMap) :
    Allowed C (T ++ asks D t id node (C.given A.state id node)) (.started id inputs) := by
  have hasks : ∀ inputs', .started id inputs' ∉ asks D t id node (C.given A.state id node) := by
    intro inputs'
    rw [asks]
    split_ifs <;> simp
  obtain ⟨hall, hscopes⟩ := room_of_not_atLimit (hready.room hstatic)
  refine ⟨?_, ?_, ?_, ?_⟩
  · intro inputs' hmem
    rcases List.mem_append.mp hmem with hmem | hmem
    · exact h.not_started hidle inputs' hmem
    · exact hasks inputs' hmem
  · intro e he
    -- a child has no edges in the plan
    have hchild : isChild A.state id = false := by
      cases hget : C.plan.nodes.get id with
      | none =>
        rw [hplan.dependenciesOf_eq_nil hget] at he
        cases he
      | some planned =>
        rw [isChild, OrdMap.contains, (hshape.planned id planned hget).2]
        rfl
    have hdeps : e ∈ C.dependencies A.state id := by
      rw [dependencies, hchild, if_neg Bool.false_ne_true]
      exact he
    obtain ⟨o, ho⟩ := OrdMap.contains_iff.mp (hready.resolved e hdeps)
    exact ⟨o, List.mem_append_left _ ((htold.resolved _ o).mpr ho)⟩
  · rw [running_asks, h.running.length_eq]
    exact hall
  · intro scope limit hlimit hin
    rw [running_asks, (h.running.filter _).length_eq]
    exact hscopes scope limit hlimit hin

/-! ## Every move starts nodes legally -/

/-- A move of one node: what started is looked at again for that node only. -/
theorem Launched.step (h : Launched D C A T) (hext : Extends A.state B.state) (id : String)
    {new : List SchedulerEvent}
    (hrunning : ∀ k, k ≠ id → B.state.inFlight.get k = A.state.inFlight.get k)
    (howners : ∀ k, k ≠ id → B.state.owners.get k = A.state.owners.get k)
    (hresults : ∀ k, k ≠ id → B.results.get k = A.results.get k)
    (hothers : ∀ k inputs, .started k inputs ∈ new → k = id)
    (hself : ∀ inputs, .started id inputs ∈ T ++ new → ∃ node, B.state.nodes.get id = some node ∧
      B.state.owners.get id = none ∧ Receives C B.state id node inputs ∧ Ran D B id node inputs)
    (hperm : (Scheduler.running (T ++ new)).Perm B.state.inFlight.keys)
    (hlegal : Legal C (T ++ new)) : Launched D C B (T ++ new) := by
  refine ⟨fun k inputs hmem => ?_, hperm, hlegal⟩
  by_cases hk : k = id
  · cases hk
    exact hself inputs hmem
  · rcases List.mem_append.mp hmem with hmem | hmem
    · exact h.started_of_ne hext hrunning howners hresults hk hmem
    · exact absurd (hothers k inputs hmem) hk

/-- A node without an outcome was not resolved. -/
theorem Told.allowed (h : Told D C A T) {id : String} (hunresolved : A.state.outcomes.get id = none)
    {asked : List SchedulerEvent} (hasks : Asks id asked) (o : NodeOutcome) :
    Allowed C (T ++ asked) (.resolved id o) := by
  intro o' hmem
  have hold : .resolved id o' ∈ T := by
    rcases hasks with rfl | ⟨answer, rfl⟩ <;> simpa using hmem
  cases hunresolved.symm.trans ((h.resolved id o').mp hold)

theorem not_started_asks {t : ℕ} {id k : String} {node : Node} {inputs inputs' : ArtifactMap} :
    .started k inputs' ∉ asks D t id node inputs := by
  rw [asks]
  split_ifs <;> simp

/-- **Every move starts nodes legally.** -/
theorem Launched.move (h : Launched D C A T) (hplan : C.plan.Valid) (hshape : Shape D C A)
    (htold : Told D C A T) (hmove : Move D C A B) {new : List SchedulerEvent}
    (hnew : B.events = A.events ++ new) : Launched D C B (T ++ new) := by
  have hext := Move.extends hshape hmove
  cases hmove with
  | dooms id node hidle _ hstate hresults hevents =>
    cases List.append_cancel_left (hnew.symm.trans hevents)
    have hallowed := htold.allowed hidle.unresolved (.inl rfl) (.suppressed .upstreamMissing)
    rw [List.append_nil] at hallowed
    refine h.step hext id (by simp [hstate]) (by simp [hstate]) (by simp [hresults])
      (by simp) (fun inputs hmem => ?_) ?_ (h.legal.snoc hallowed)
    · exact absurd (by simpa using hmem) (h.not_started hidle inputs)
    · rw [running_resolved, hstate, SchedulerState.resolve_inFlight]
      exact h.running
  | refuses t id node outcome hidle _ _ hstate hresults hevents =>
    rw [List.append_assoc] at hevents
    cases List.append_cancel_left (hnew.symm.trans hevents)
    refine h.step hext id (by simp [hstate]) (by simp [hstate]) (by simp [hresults])
      (by simp [not_started_asks]) (fun inputs hmem => ?_) ?_ ?_
    · exact absurd (by simpa [not_started_asks] using hmem) (h.not_started hidle inputs)
    · rw [← List.append_assoc, running_resolved, running_asks, hstate,
        SchedulerState.resolve_inFlight]
      exact h.running
    · rw [← List.append_assoc]
      exact (h.legal.asks t id node _).snoc (htold.allowed hidle.unresolved asks_spec outcome)
  | launches t id node hidle hready _ hstatic hstate hresults hevents =>
    rw [List.append_assoc] at hevents
    cases List.append_cancel_left (hnew.symm.trans hevents)
    refine h.step hext id (fun k hk => ?_) (by simp [hstate]) (by simp [hresults])
      (by simp [not_started_asks]) (fun inputs hmem => ?_) ?_ ?_
    · rw [hstate]
      exact OrdMap.get_insert_ne _ _ hk
    · have hgiven : inputs = C.given A.state id node := by
        simpa [not_started_asks, h.not_started hidle inputs] using hmem
      cases hgiven
      refine ⟨node, (hext.nodes id node hidle.known).1, ?_, hready.receives.mono hext hidle.known,
        .inl ?_⟩
      · rw [hstate]
        exact hidle.unowned
      · rw [hstate]
        exact OrdMap.get_insert_self _ _ _
    · rw [← List.append_assoc, running_started, running_asks, hstate]
      refine (List.perm_append_singleton id _).trans ?_
      exact (h.running.cons id).trans (OrdMap.keys_insert_perm hidle.resting _).symm
    · rw [← List.append_assoc]
      exact (h.legal.asks t id node _).snoc (hready.allowed hplan hshape htold h hidle hstatic _)
  | registers t id node children hidle hready _ howner hvalid hstate hresults hevents =>
    cases List.append_cancel_left (hnew.symm.trans hevents)
    refine h.step hext id (by simp [hstate, register]) (fun k hk => ?_)
      (by simp [hresults]) (by simp [not_started_asks]) (fun inputs hmem => ?_) ?_
      (h.legal.asks t id node _)
    · rw [hstate]
      exact OrdMap.get_insert_ne _ _ hk
    · exact absurd (by simpa [not_started_asks] using hmem) (h.not_started hidle inputs)
    · rw [running_asks, hstate]
      exact h.running
  | spoils t id node error hidle _ _ _ hstate hresults hevents =>
    cases List.append_cancel_left (hnew.symm.trans hevents)
    refine h.step hext id (by simp [hstate]) (by simp [hstate]) (fun k hk => ?_)
      (by simp [not_started_asks]) (fun inputs hmem => ?_) ?_ (h.legal.asks t id node _)
    · rw [hresults]
      exact OrdMap.get_insert_ne _ _ hk
    · exact absurd (by simpa [not_started_asks] using hmem) (h.not_started hidle inputs)
    · rw [running_asks, hstate]
      exact h.running
  | folds id node result inputs children _ _ _ howned _ _ hstate hresults hevents =>
    obtain rfl : new = [] := by
      rw [hevents] at hnew
      exact List.self_eq_append_right.mp hnew
    refine h.step hext id (by simp [hstate]) (by simp [hstate]) (fun k hk => ?_)
      (by simp) (fun inputs' hmem => ?_) ?_ ?_
    · rw [hresults]
      exact OrdMap.get_insert_ne _ _ hk
    · -- an owner was never started
      rw [List.append_nil] at hmem
      obtain ⟨_, -, hunowned, -⟩ := h.started id inputs' hmem
      cases hunowned.symm.trans howned
    · rw [List.append_nil, hstate]
      exact h.running
    · rw [List.append_nil]
      exact h.legal
  | reports t id node inputs hknown hrunning hstate hresults hevents =>
    cases List.append_cancel_left (hnew.symm.trans hevents)
    refine h.step hext id (fun k hk => ?_) (by simp [hstate]) (fun k hk => ?_)
      (by simp) (fun inputs' hmem => ?_) ?_ (h.legal.snoc trivial)
    · rw [hstate, OrdMap.get_erase, if_neg hk]
    · rw [hresults]
      exact OrdMap.get_insert_ne _ _ hk
    · -- what it runs with is what it was started with
      obtain ⟨_, hunresolved, _, hunheard⟩ := hshape.running id inputs hrunning
      obtain ⟨node', hknown', hunowned, hreceives, hran⟩ := h.started id inputs' (by simpa using hmem)
      cases hknown.symm.trans hknown'
      obtain rfl : inputs' = inputs := by
        rcases hran with hrun | ⟨t', hheard | ⟨t'', hout⟩⟩
        · exact Option.some.inj (hrun.symm.trans hrunning)
        · cases hunheard.symm.trans hheard
        · cases hunresolved.symm.trans hout
      refine ⟨node, (hext.nodes id node hknown).1, ?_, hreceives.mono hext hknown, .inr ⟨t, .inl ?_⟩⟩
      · rw [hstate]
        exact hunowned
      · rw [hresults]
        exact OrdMap.get_insert_self _ _ _
    · rw [running_reported, hstate]
      exact (h.running.erase id).trans (OrdMap.keys_erase_perm _ id).symm
  | publishes t id node result hknown hheard hstate hresults hevents =>
    cases List.append_cancel_left (hnew.symm.trans hevents)
    have hallowed := htold.allowed (hshape.heard id result hheard).2 (.inl rfl)
      (conclude D t id node result)
    rw [List.append_nil] at hallowed
    refine h.step hext id (by simp [hstate]) (by simp [hstate]) (fun k hk => ?_)
      (by simp) (fun inputs hmem => ?_) ?_ (h.legal.snoc hallowed)
    · rw [hresults, OrdMap.get_erase, if_neg hk]
    · obtain ⟨node', hknown', hunowned, hreceives, hran⟩ := h.started id inputs (by simpa using hmem)
      cases hknown.symm.trans hknown'
      refine ⟨node, (hext.nodes id node hknown).1, ?_, hreceives.mono hext hknown, .inr ?_⟩
      · rw [hstate, SchedulerState.resolve_owners]
        exact hunowned
      · -- the admitted result is the result of its run
        rcases hran with hrun | ⟨t', hheard' | ⟨t'', hout⟩⟩
        · cases (hshape.running id inputs hrun).2.2.2.symm.trans hheard
        · cases hheard.symm.trans hheard'
          refine ⟨t', .inr ⟨t, ?_⟩⟩
          rw [hstate, SchedulerState.resolve_outcomes]
          exact OrdMap.get_insert_self _ _ _
        · cases (hshape.heard id result hheard).2.symm.trans hout
    · rw [running_resolved, hstate, SchedulerState.resolve_inFlight]
      exact h.running

end Scheduler

end Afactory
