import Mathlib
import Afactory.SchedulerInvariant

/-!
# What the events of a run say

* `Begun`, `UpstreamMissing`: why a node ran, and why it was suppressed;
* `Told`: the events tell the outcomes, each Task node is asked once, and every outcome is
  explained (`Told.move`);
* `Branched`: the nodes whose branch was not selected are those that said so (`Branched.move`).
-/

namespace Afactory

namespace Scheduler

variable {D : Dispatch} {C : Scheduler} {A B : Scan} {T : List SchedulerEvent}

/-! ## Explanations -/

/-- The sources of a node are resolved, and these are the inputs they give. -/
def Receives (C : Scheduler) (S : SchedulerState) (id : String) (node : Node)
    (inputs : ArtifactMap) : Prop :=
  (∀ e ∈ C.dependencies S id, ∃ o, S.outcomes.get e.source.node = some o) ∧
    inputs = C.given S id node

/-- The first nodes completed, and so did the predecessors a node needs. -/
def Cleared (D : Dispatch) (C : Scheduler) (S : SchedulerState) (id : String) (node : Node) :
    Prop :=
  (id ∈ C.first ∨ ∀ f ∈ C.first, S.Completed f) ∧
    (D.requiresSuccessfulPredecessors node = true →
      ∀ e ∈ C.dependencies S id, S.Completed e.source.node)

/-- A node began: it was cleared, and its inputs were there if its branch was selected. -/
def Begun (D : Dispatch) (C : Scheduler) (S : SchedulerState) (T : List SchedulerEvent)
    (id : String) (node : Node) : Prop :=
  Cleared D C S id node ∧ ∃ inputs, Receives C S id node inputs ∧
    (node.kind = .task → ∃ answer, .asked id answer ∈ T ∧
      (answer = .ok true → unfed node inputs = false))

/-- A node's required upstream is missing: a first node did not complete, or a predecessor it
needs did not, or its branch was selected and an input is not fed. -/
def UpstreamMissing (D : Dispatch) (C : Scheduler) (S : SchedulerState) (T : List SchedulerEvent)
    (id : String) (node : Node) : Prop :=
  (id ∉ C.first ∧ ∃ f ∈ C.first, S.Lost f) ∨
    (D.requiresSuccessfulPredecessors node = true ∧
      ∃ e ∈ C.dependencies S id, S.Lost e.source.node) ∨
    (node.kind = .task ∧ .asked id (.ok true) ∈ T ∧
      ∃ inputs, Receives C S id node inputs ∧ unfed node inputs = true)

theorem not_lost_of_completed {S : SchedulerState} {id : String} (h : S.Completed id) :
    ¬ S.Lost id := by
  rintro ⟨o, ho, hne⟩
  obtain ⟨produced, hproduced⟩ := h
  rw [ho] at hproduced
  cases hproduced
  exact hne produced rfl

theorem Shape.completed (h : Shape D C A) {id : String}
    (hresolved : A.state.outcomes.contains id = true) (husable : id ∉ A.state.unusable) :
    A.state.Completed id := by
  obtain ⟨o, ho⟩ := OrdMap.contains_iff.mp hresolved
  rw [h.unusable] at husable
  by_contra hnot
  exact husable ⟨o, ho, fun produced heq => hnot ⟨produced, heq ▸ ho⟩⟩

theorem Ready.cleared' (hshape : Shape D C A) {id : String} {node : Node}
    (h : Ready D C A.state id node) : Cleared D C A.state id node := by
  constructor
  · rcases h.cleared with hfirst | ⟨hresolved, husable⟩
    · exact .inl hfirst
    · exact .inr fun f hf => hshape.completed (hresolved f hf) (husable f hf)
  · exact fun hneeds e he => hshape.completed (h.resolved e he) (h.fed hneeds e he)

theorem Ready.receives {S : SchedulerState} {id : String} {node : Node}
    (h : Ready D C S id node) : Receives C S id node (C.given S id node) :=
  ⟨fun e he => OrdMap.contains_iff.mp (h.resolved e he), rfl⟩

/-! ### Explanations stay -/

section Mono

variable {S S' : SchedulerState} {T' : List SchedulerEvent} {id : String} {node : Node}
  {inputs : ArtifactMap}

theorem Extends.completed (h : Extends S S') (hc : S.Completed id) : S'.Completed id := by
  obtain ⟨produced, hproduced⟩ := hc
  exact ⟨produced, h.outcomes id _ hproduced⟩

theorem Extends.lost (h : Extends S S') (hl : S.Lost id) : S'.Lost id := by
  obtain ⟨o, ho, hne⟩ := hl
  exact ⟨o, h.outcomes id o ho, hne⟩

theorem Extends.dependencies (h : Extends S S') (hknown : S.nodes.get id = some node) :
    C.dependencies S' id = C.dependencies S id := by
  rw [Scheduler.dependencies, Scheduler.dependencies, isChild, isChild, OrdMap.contains,
    OrdMap.contains, (h.nodes id node hknown).2]

theorem Receives.mono (hr : Receives C S id node inputs) (h : Extends S S')
    (hknown : S.nodes.get id = some node) : Receives C S' id node inputs := by
  obtain ⟨hresolved, rfl⟩ := hr
  rw [Receives, h.dependencies hknown]
  refine ⟨fun e he => ?_, ?_⟩
  · obtain ⟨o, ho⟩ := hresolved e he
    exact ⟨o, h.outcomes _ o ho⟩
  · -- resolved sources keep what they produced
    rw [given, given, h.dependencies hknown, SchedulerState.delivered, SchedulerState.delivered,
      SchedulerState.emptyInputs, SchedulerState.emptyInputs, (h.nodes id node hknown).2]
    congr 1
    refine List.foldl_ext _ _ _ fun m e he => ?_
    obtain ⟨o, ho⟩ := hresolved e he
    rw [SchedulerState.deliver, SchedulerState.deliver, SchedulerState.value, SchedulerState.value,
      h.outputs _ o ho]

theorem Cleared.mono (hc : Cleared D C S id node) (h : Extends S S')
    (hknown : S.nodes.get id = some node) : Cleared D C S' id node := by
  obtain ⟨hfirst, hneeds⟩ := hc
  rw [Cleared, h.dependencies hknown]
  refine ⟨?_, fun hn e he => h.completed (hneeds hn e he)⟩
  rcases hfirst with hfirst | hfirst
  · exact .inl hfirst
  · exact .inr fun f hf => h.completed (hfirst f hf)

theorem Begun.mono (hb : Begun D C S T id node) (h : Extends S S')
    (hknown : S.nodes.get id = some node) (hT : T ⊆ T') : Begun D C S' T' id node := by
  obtain ⟨hcleared, inputs, hreceives, hasked⟩ := hb
  refine ⟨hcleared.mono h hknown, inputs, hreceives.mono h hknown, fun hkind => ?_⟩
  obtain ⟨answer, hmem, hfed⟩ := hasked hkind
  exact ⟨answer, hT hmem, hfed⟩

theorem UpstreamMissing.mono (hm : UpstreamMissing D C S T id node) (h : Extends S S')
    (hknown : S.nodes.get id = some node) (hT : T ⊆ T') : UpstreamMissing D C S' T' id node := by
  rw [UpstreamMissing, h.dependencies hknown]
  rcases hm with ⟨hfirst, f, hf, hlost⟩ | ⟨hneeds, e, he, hlost⟩ |
    ⟨hkind, hmem, inputs, hreceives, hunfed⟩
  · exact .inl ⟨hfirst, f, hf, h.lost hlost⟩
  · exact .inr (.inl ⟨hneeds, e, he, h.lost hlost⟩)
  · exact .inr (.inr ⟨hkind, hT hmem, inputs, hreceives.mono h hknown, hunfed⟩)

end Mono

/-! ### What starting a node may meet -/

/-- What refuses a start: an error, a branch that was not selected, or a missing input. -/
theorem refusal_cases {t : ℕ} {id : String} {node : Node} {inputs : ArtifactMap}
    {o : NodeOutcome} (h : refusal D t id node inputs = some o) :
    ((∃ e, o = .failed e (D.failureClass t id)) ∧ (node.kind = .task →
      D.taskNodeSelected t node inputs = .ok true → unfed node inputs = false)) ∨
    (o = .suppressed .branchNotSelected ∧ node.kind = .task ∧
      D.taskNodeSelected t node inputs = .ok false) ∨
    (o = .suppressed .upstreamMissing ∧ node.kind = .task ∧
      D.taskNodeSelected t node inputs = .ok true ∧ unfed node inputs = true) := by
  rw [refusal] at h
  by_cases hkind : node.kind = .task
  · rw [if_neg (not_not.mpr hkind)] at h
    cases hselected : D.taskNodeSelected t node inputs with
    | error e =>
      rw [hselected] at h
      cases h
      exact .inl ⟨⟨e, rfl⟩, fun _ hok => by cases hok⟩
    | ok selected =>
      rw [hselected] at h
      cases selected with
      | false =>
        cases h
        exact .inr (.inl ⟨rfl, hkind, rfl⟩)
      | true =>
        dsimp only at h
        split_ifs at h with hunfed
        · cases h
          exact .inr (.inr ⟨rfl, hkind, rfl, hunfed⟩)
        · refine .inl ⟨?_, fun _ _ => Bool.not_eq_true _ ▸ hunfed⟩
          split at h
          · cases h
            exact ⟨_, rfl⟩
          · cases h
  · rw [if_pos hkind] at h
    refine .inl ⟨?_, fun htask => absurd htask hkind⟩
    split at h
    · cases h
      exact ⟨_, rfl⟩
    · cases h

theorem refusal_eq_some {t : ℕ} {id : String} {node : Node} {inputs : ArtifactMap}
    {o : NodeOutcome} (h : refusal D t id node inputs = some o) :
    (o = .suppressed .upstreamMissing ∧ node.kind = .task ∧
      D.taskNodeSelected t node inputs = .ok true ∧ unfed node inputs = true) ∨
    (o ≠ .suppressed .upstreamMissing ∧ (node.kind = .task →
      D.taskNodeSelected t node inputs = .ok true → unfed node inputs = false)) := by
  rcases refusal_cases h with ⟨⟨e, rfl⟩, hfed⟩ | ⟨rfl, -, hselected⟩ | hmissing
  · exact .inr ⟨by simp, hfed⟩
  · refine .inr ⟨by simp, fun _ htrue => ?_⟩
    rw [hselected] at htrue
    cases htrue
  · exact .inl hmissing

theorem refusal_eq_none {t : ℕ} {id : String} {node : Node} {inputs : ArtifactMap}
    (h : refusal D t id node inputs = none) (hkind : node.kind = .task) :
    D.taskNodeSelected t node inputs = .ok true ∧ unfed node inputs = false := by
  rw [refusal] at h
  simp only [hkind, ne_eq, not_true_eq_false, if_false] at h
  split at h
  · cases h
  · cases h
  · rename_i hselected
    split_ifs at h with hunfed
    exact ⟨hselected, Bool.not_eq_true _ ▸ hunfed⟩

theorem conclude_ne_suppressed {t : ℕ} {id : String} {node : Node}
    {result : Except String ArtifactMap} {reason : SuppressionReason} :
    conclude D t id node result ≠ .suppressed reason := by
  rw [conclude.eq_def]
  split
  · exact nofun
  · split
    · exact nofun
    · split <;> exact nofun

/-! ## The outcomes the events tell -/

/-- A node that runs, coordinates children, or waits to be admitted. -/
def Busy (A : Scan) (id : String) : Prop :=
  (∃ inputs, A.state.inFlight.get id = some inputs) ∨
    (∃ owned, A.state.owners.get id = some owned) ∨ ∃ r, A.results.get id = some r

theorem Shape.known_of_busy (h : Shape D C A) {id : String} (hbusy : Busy A id) :
    ∃ node, A.state.nodes.get id = some node := by
  rcases hbusy with ⟨inputs, hget⟩ | ⟨⟨inputs, children⟩, hget⟩ | ⟨r, hget⟩
  · exact (h.running id inputs hget).1
  · obtain ⟨⟨node, hplan, -⟩, -⟩ := h.owned id inputs children hget
    exact ⟨node, (h.planned id node hplan).1⟩
  · exact (h.heard id r hget).1

theorem Idle.not_busy {id : String} {node : Node} (h : Idle A id node) : ¬ Busy A id := by
  rintro (⟨inputs, hget⟩ | ⟨owned, hget⟩ | ⟨r, hget⟩)
  · cases h.resting.symm.trans hget
  · cases h.unowned.symm.trans hget
  · cases h.unheard.symm.trans hget

/-- The events tell the outcomes; a Task node is asked once, and has started or was resolved
then; and whatever has started or was resolved has an explanation. -/
structure Told (D : Dispatch) (C : Scheduler) (A : Scan) (T : List SchedulerEvent) : Prop where
  resolved : ∀ id o, .resolved id o ∈ T ↔ A.state.outcomes.get id = some o
  touched : ∀ id answer, .asked id answer ∈ T →
    (∃ o, A.state.outcomes.get id = some o) ∨ Busy A id
  once : ∀ id a b, .asked id a ∈ T → .asked id b ∈ T → a = b
  begun : ∀ id node, A.state.nodes.get id = some node → Busy A id → Begun D C A.state T id node
  explained : ∀ id node o, A.state.nodes.get id = some node → A.state.outcomes.get id = some o →
    (o = .suppressed .upstreamMissing ∧ UpstreamMissing D C A.state T id node) ∨
      (o ≠ .suppressed .upstreamMissing ∧ Begun D C A.state T id node)

/-- The events of asking one node, or none. -/
def Asks (id : String) (asked : List SchedulerEvent) : Prop :=
  asked = [] ∨ ∃ answer, asked = [.asked id answer]

theorem asks_spec {t : ℕ} {id : String} {node : Node} {inputs : ArtifactMap} :
    Asks id (asks D t id node inputs) := by
  rw [asks]
  split_ifs
  · exact .inl rfl
  · exact .inr ⟨_, rfl⟩

theorem mem_asks_of_task {t : ℕ} {id : String} {node : Node} {inputs : ArtifactMap}
    (hkind : node.kind = .task) :
    .asked id (D.taskNodeSelected t node inputs) ∈ asks D t id node inputs := by
  rw [asks, if_neg (by simpa using hkind)]
  exact List.mem_cons_self

namespace Told

theorem fresh (h : Told D C A T) {id : String} {node : Node} (hidle : Idle A id node) :
    ∀ answer, .asked id answer ∉ T := by
  intro answer hmem
  rcases h.touched id answer hmem with ⟨o, ho⟩ | hbusy
  · cases hidle.unresolved.symm.trans ho
  · exact hidle.not_busy hbusy

/-- A node asked for the first time, or not at all, is asked once. -/
theorem once_append (h : Told D C A T) {id : String} {asked rest : List SchedulerEvent}
    (hasks : Asks id asked) (hfresh : asked = [] ∨ ∀ answer, .asked id answer ∉ T)
    (hrest : ∀ k a, .asked k a ∉ rest) :
    ∀ k a b, .asked k a ∈ T ++ asked ++ rest → .asked k b ∈ T ++ asked ++ rest → a = b := by
  have hmem : ∀ k a, .asked k a ∈ T ++ asked ++ rest →
      .asked k a ∈ T ∨ (k = id ∧ asked = [.asked id a]) := by
    intro k a hmem
    rcases List.mem_append.mp hmem with hmem | hmem
    · rcases List.mem_append.mp hmem with hmem | hmem
      · exact .inl hmem
      · rcases hasks with rfl | ⟨answer, rfl⟩
        · cases hmem
        · rw [List.mem_singleton] at hmem
          cases hmem
          exact .inr ⟨rfl, rfl⟩
    · exact absurd hmem (hrest k a)
  have hclash : ∀ k a b, .asked k a ∈ T → k = id → asked = [.asked id b] → False := by
    rintro k a b hold rfl hasked
    rcases hfresh with hnil | hfresh
    · rw [hnil] at hasked
      cases hasked
    · exact hfresh a hold
  intro k a b ha hb
  rcases hmem k a ha with ha | ⟨hka, ha⟩ <;> rcases hmem k b hb with hb | ⟨hkb, hb⟩
  · exact h.once k a b ha hb
  · exact (hclash k a b ha hkb hb).elim
  · exact (hclash k b a hb hka ha).elim
  · rw [ha] at hb
    cases hb
    rfl

/-- Resolving a node that has an explanation. -/
theorem resolve (h : Told D C A T) {id : String} {node : Node}
    {o : NodeOutcome} (asked : List SchedulerEvent) (hknown : A.state.nodes.get id = some node)
    (hunresolved : A.state.outcomes.get id = none) (hstate : B.state = A.state.resolve id o)
    (hkept : ∀ k, Busy A k → k = id ∨ Busy B k) (hbusy : ∀ k, Busy B k → Busy A k)
    (hasks : Asks id asked) (hfresh : asked = [] ∨ ∀ answer, .asked id answer ∉ T)
    (hexplained : (o = .suppressed .upstreamMissing ∧
        UpstreamMissing D C A.state (T ++ asked ++ [.resolved id o]) id node) ∨
      (o ≠ .suppressed .upstreamMissing ∧
        Begun D C A.state (T ++ asked ++ [.resolved id o]) id node)) :
    Told D C B (T ++ asked ++ [.resolved id o]) := by
  have hext : Extends A.state B.state := hstate ▸ extends_resolve hunresolved
  have hsub : T ⊆ T ++ asked ++ [.resolved id o] :=
    fun _ hmem => List.mem_append_left _ (List.mem_append_left _ hmem)
  have houtcomes : ∀ k, B.state.outcomes.get k =
      if k = id then some o else A.state.outcomes.get k := by
    intro k
    rw [hstate, SchedulerState.resolve_outcomes, OrdMap.get_insert]
  refine ⟨?_, ?_, h.once_append hasks hfresh (by simp), ?_, ?_⟩
  · intro k o'
    have hasked : .resolved k o' ∉ asked := by
      rcases hasks with rfl | ⟨answer, rfl⟩ <;> simp
    rw [List.mem_append, List.mem_append, h.resolved, List.mem_singleton, houtcomes]
    by_cases hk : k = id
    · simp [hk, hunresolved, hk ▸ hasked, eq_comm]
    · simp [hk, hasked]
  · intro k answer hmem
    rw [houtcomes]
    by_cases hk : k = id
    · exact .inl ⟨o, if_pos hk⟩
    · have hold : .asked k answer ∈ T := by
        rcases hasks with rfl | ⟨a, rfl⟩
        · simpa using hmem
        · simpa [hk] using hmem
      rw [if_neg hk]
      rcases h.touched k answer hold with hout | hbusy'
      · exact .inl hout
      · exact .inr ((hkept k hbusy').resolve_left hk)
  · intro k node' hnode hk
    rw [hstate, SchedulerState.resolve_nodes] at hnode
    exact (h.begun k node' hnode (hbusy k hk)).mono hext hnode hsub
  · intro k node' o' hnode hout
    rw [hstate, SchedulerState.resolve_nodes] at hnode
    rw [houtcomes] at hout
    split_ifs at hout with hk
    · cases hout
      cases hk
      cases hknown.symm.trans hnode
      rcases hexplained with ⟨ho, hwhy⟩ | ⟨ho, hwhy⟩
      · exact .inl ⟨ho, hwhy.mono hext hknown fun _ hmem => hmem⟩
      · exact .inr ⟨ho, hwhy.mono hext hknown fun _ hmem => hmem⟩
    · rcases h.explained k node' o' hnode hout with ⟨ho, hwhy⟩ | ⟨ho, hwhy⟩
      · exact .inl ⟨ho, hwhy.mono hext hnode hsub⟩
      · exact .inr ⟨ho, hwhy.mono hext hnode hsub⟩

/-- A node that begins, or goes on, without an outcome. -/
theorem busy (h : Told D C A T) (hshape : Shape D C A) {id : String} {node : Node}
    (asked rest : List SchedulerEvent) (hknown : A.state.nodes.get id = some node)
    (hext : Extends A.state B.state) (houtcomes : B.state.outcomes = A.state.outcomes)
    (hbusy : ∀ k, Busy B k ↔ k = id ∨ Busy A k) (hasks : Asks id asked)
    (hfresh : asked = [] ∨ ∀ answer, .asked id answer ∉ T)
    (hrest : (∀ k a, .asked k a ∉ rest) ∧ ∀ k o, .resolved k o ∉ rest)
    (hbegun : Begun D C A.state (T ++ asked ++ rest) id node) :
    Told D C B (T ++ asked ++ rest) := by
  have hsub : T ⊆ T ++ asked ++ rest :=
    fun _ hmem => List.mem_append_left _ (List.mem_append_left _ hmem)
  have hsame : ∀ k known node', A.state.nodes.get k = some known →
      B.state.nodes.get k = some node' → node' = known := by
    intro k known node' hk hk'
    have hthere := (hext.nodes k known hk).1
    rw [hk'] at hthere
    exact Option.some.inj hthere
  refine ⟨?_, ?_, h.once_append hasks hfresh hrest.1, ?_, ?_⟩
  · intro k o'
    have hasked : .resolved k o' ∉ asked := by
      rcases hasks with rfl | ⟨answer, rfl⟩ <;> simp
    rw [List.mem_append, List.mem_append, h.resolved, houtcomes]
    simp [hasked, hrest.2 k o']
  · intro k answer hmem
    rw [houtcomes, hbusy]
    by_cases hk : k = id
    · exact .inr (.inl hk)
    · have hold : .asked k answer ∈ T := by
        rcases hasks with rfl | ⟨a, rfl⟩
        · simpa [hrest.1 k answer] using hmem
        · simpa [hk, hrest.1 k answer] using hmem
      rcases h.touched k answer hold with hout | hbusy'
      · exact .inl hout
      · exact .inr (.inr hbusy')
  · intro k node' hnode hk
    by_cases hid : k = id
    · cases hid
      cases hsame _ _ _ hknown hnode
      exact hbegun.mono hext hknown fun _ hmem => hmem
    · have hold := ((hbusy k).mp hk).resolve_left hid
      obtain ⟨known, hget⟩ := hshape.known_of_busy hold
      cases hsame k known node' hget hnode
      exact (h.begun k node' hget hold).mono hext hget hsub
  · intro k node' o' hnode hout
    rw [houtcomes] at hout
    obtain ⟨known, hget⟩ := hshape.resolved k o' hout
    cases hsame k known node' hget hnode
    rcases h.explained k node' o' hget hout with ⟨ho, hwhy⟩ | ⟨ho, hwhy⟩
    · exact .inl ⟨ho, hwhy.mono hext hget hsub⟩
    · exact .inr ⟨ho, hwhy.mono hext hget hsub⟩

end Told

/-! ### Every move is told -/

theorem Doomed.missing (hshape : Shape D C A) {id : String} {node : Node}
    (h : Doomed D C A.state id node) : UpstreamMissing D C A.state T id node := by
  rcases h with ⟨hfirst, -, f, hf, hlost⟩ | ⟨hneeds, e, he, hlost⟩
  · exact .inl ⟨hfirst, f, hf, (hshape.unusable f).mp hlost⟩
  · exact .inr (.inl ⟨hneeds, e, he, (hshape.unusable _).mp hlost⟩)

/-- A ready node that is not refused has begun. -/
theorem Ready.begun {t : ℕ} {id : String} {node : Node} {rest : List SchedulerEvent}
    (hready : Ready D C A.state id node) (hshape : Shape D C A)
    (hrefusal : refusal D t id node (C.given A.state id node) = none) :
    Begun D C A.state (T ++ asks D t id node (C.given A.state id node) ++ rest) id node := by
  refine ⟨hready.cleared' hshape, _, hready.receives, fun hkind => ?_⟩
  refine ⟨_, List.mem_append_left _ (List.mem_append_right _ (mem_asks_of_task hkind)), fun _ => ?_⟩
  exact (refusal_eq_none hrefusal hkind).2

theorem busy_congr {k : String} (hrunning : B.state.inFlight = A.state.inFlight)
    (howners : B.state.owners = A.state.owners) (hresults : B.results = A.results) :
    Busy B k ↔ Busy A k := by
  rw [Busy, Busy, hrunning, howners, hresults]

theorem exists_get_insert {V : Type} {m : OrdMap String V} {id k : String} {v : V} :
    (∃ w, (m.insert id v).get k = some w) ↔ k = id ∨ ∃ w, m.get k = some w := by
  rw [OrdMap.get_insert]
  by_cases hk : k = id <;> simp [hk]

theorem Told.move (h : Told D C A T) (hshape : Shape D C A) (hmove : Move D C A B) :
    ∃ new, B.events = A.events ++ new ∧ Told D C B (T ++ new) := by
  cases hmove with
  | dooms id node hidle hdoomed hstate hresults hevents =>
    have hsame : ∀ k, Busy B k ↔ Busy A k :=
      fun k => busy_congr (by rw [hstate]; simp) (by rw [hstate]; simp) hresults
    refine ⟨_, hevents, ?_⟩
    have htold := h.resolve [] hidle.known hidle.unresolved hstate
      (fun k hk => .inr ((hsame k).mpr hk)) (fun k => (hsame k).mp) (.inl rfl) (.inl rfl)
      (.inl ⟨rfl, hdoomed.missing hshape⟩)
    rwa [List.append_nil] at htold
  | refuses t id node outcome hidle hready hrefusal hstate hresults hevents =>
    have hsame : ∀ k, Busy B k ↔ Busy A k :=
      fun k => busy_congr (by rw [hstate]; simp) (by rw [hstate]; simp) hresults
    rw [List.append_assoc] at hevents
    refine ⟨_, hevents, ?_⟩
    rw [← List.append_assoc]
    refine h.resolve _ hidle.known hidle.unresolved hstate (fun k hk => .inr ((hsame k).mpr hk))
      (fun k => (hsame k).mp) asks_spec (.inr (h.fresh hidle)) ?_
    have hasked : ∀ hkind : node.kind = .task,
        .asked id (D.taskNodeSelected t node (C.given A.state id node)) ∈
          T ++ asks D t id node (C.given A.state id node) ++ [.resolved id outcome] :=
      fun hkind => List.mem_append_left _ (List.mem_append_right _ (mem_asks_of_task hkind))
    rcases refusal_eq_some hrefusal with ⟨ho, hkind, hselected, hunfed⟩ | ⟨ho, hfed⟩
    · exact .inl ⟨ho, .inr (.inr ⟨hkind, hselected ▸ hasked hkind, _, hready.receives, hunfed⟩)⟩
    · exact .inr ⟨ho, hready.cleared' hshape, _, hready.receives,
        fun hkind => ⟨_, hasked hkind, hfed hkind⟩⟩
  | launches t id node hidle hready hrefusal _ hstate hresults hevents =>
    rw [List.append_assoc] at hevents
    refine ⟨_, hevents, ?_⟩
    rw [← List.append_assoc]
    refine h.busy hshape _ _ hidle.known (Move.extends hshape (.launches t id node hidle hready hrefusal
      ‹_› hstate hresults (by rw [hevents, List.append_assoc]))) (by rw [hstate]) (fun k => ?_)
      asks_spec (.inr (h.fresh hidle)) (by simp) (hready.begun hshape hrefusal)
    rw [Busy, Busy, hstate, hresults, exists_get_insert, or_assoc]
  | registers t id node children hidle hready hrefusal howner hvalid hstate hresults hevents =>
    refine ⟨_, hevents, ?_⟩
    have htold := h.busy (B := B) hshape _ [] hidle.known (Move.extends hshape (.registers t
      id node children hidle hready hrefusal howner hvalid hstate hresults hevents))
      (by rw [hstate]; rfl) (fun k => ?_) asks_spec (.inr (h.fresh hidle)) (by simp)
      (hready.begun hshape hrefusal)
    · rwa [List.append_nil] at htold
    · have howners : (∃ owned, B.state.owners.get k = some owned) ↔
          k = id ∨ ∃ owned, A.state.owners.get k = some owned := by
        rw [hstate]
        exact exists_get_insert
      have hrunning : B.state.inFlight = A.state.inFlight := by
        rw [hstate]
        rfl
      rw [Busy, Busy, hrunning, hresults, howners]
      tauto
  | spoils t id node error hidle hready hrefusal howner hstate hresults hevents =>
    refine ⟨_, hevents, ?_⟩
    have htold := h.busy (B := B) hshape _ [] hidle.known (hstate ▸ .refl _)
      (by rw [hstate]) (fun k => ?_) asks_spec (.inr (h.fresh hidle)) (by simp)
      (hready.begun hshape hrefusal)
    · rwa [List.append_nil] at htold
    · rw [Busy, Busy, hstate, hresults, exists_get_insert]
      tauto
  | folds id node result inputs children hknown _ _ howned _ _ hstate hresults hevents =>
    have hbusy : Busy A id := .inr (.inl ⟨_, howned⟩)
    refine ⟨[], by rw [hevents, List.append_nil], ?_⟩
    have htold := h.busy (B := B) hshape [] [] hknown (hstate ▸ .refl _)
      (by rw [hstate]) (fun k => ?_) (.inl rfl) (.inl rfl) (by simp)
      ((h.begun id node hknown hbusy).mono (.refl _) hknown (by simp))
    · rwa [List.append_nil] at htold
    · rw [Busy, Busy, hstate, hresults, exists_get_insert]
      tauto
  | reports t id node inputs hknown hrunning hstate hresults hevents =>
    have hbusy : Busy A id := .inl ⟨_, hrunning⟩
    refine ⟨_, hevents, ?_⟩
    have htold := h.busy (B := B) hshape [] [.reported id] hknown
      (Move.extends hshape (.reports t id node inputs hknown hrunning hstate hresults hevents))
      (by rw [hstate]) (fun k => ?_) (.inl rfl) (.inl rfl) (by simp)
      ((h.begun id node hknown hbusy).mono (.refl _) hknown (by simp))
    · rwa [List.append_nil] at htold
    · rw [Busy, Busy, hstate, hresults, exists_get_insert, OrdMap.get_erase]
      by_cases hk : k = id
      · simp [hk]
      · simp [hk]
  | publishes t id node result hknown hheard hstate hresults hevents =>
    have hbusy : Busy A id := .inr (.inr ⟨_, hheard⟩)
    refine ⟨_, hevents, ?_⟩
    have htold := h.resolve (B := B) [] hknown (hshape.heard id result hheard).2 hstate
      (fun k hk => ?_) (fun k hk => ?_) (.inl rfl) (.inl rfl) (.inr ⟨conclude_ne_suppressed,
        (h.begun id node hknown hbusy).mono (.refl _) hknown (by simp)⟩)
    · rwa [List.append_nil] at htold
    · by_cases hid : k = id
      · exact .inl hid
      · refine .inr ?_
        rw [Busy, hstate, hresults, OrdMap.get_erase, if_neg hid]
        simpa [Busy] using hk
    · rw [Busy, hstate, hresults, OrdMap.get_erase] at hk
      rw [Busy]
      rcases hk with hk | hk | hk
      · exact .inl (by simpa using hk)
      · exact .inr (.inl (by simpa using hk))
      · split_ifs at hk
        · obtain ⟨r, hr⟩ := hk
          cases hr
        · exact .inr (.inr hk)

/-! ## Branches -/

/-- The nodes whose branch was not selected are those that answered so. -/
def Branched (A : Scan) (T : List SchedulerEvent) : Prop :=
  ∀ id, .asked id (.ok false) ∈ T ↔
    A.state.outcomes.get id = some (.suppressed .branchNotSelected)

theorem refusal_branch {t : ℕ} {id : String} {node : Node} {inputs : ArtifactMap} :
    .asked id (.ok false) ∈ asks D t id node inputs ↔
      refusal D t id node inputs = some (.suppressed .branchNotSelected) := by
  rw [asks]
  constructor
  · intro hasked
    by_cases hkind : node.kind = .task
    · rw [if_neg (not_not.mpr hkind), List.mem_singleton] at hasked
      have hselected : D.taskNodeSelected t node inputs = .ok false := by simpa [eq_comm] using hasked
      rw [refusal, if_neg (not_not.mpr hkind), hselected]
    · rw [if_pos hkind] at hasked
      cases hasked
  · intro hrefused
    rcases refusal_cases hrefused with ⟨⟨e, hfailed⟩, -⟩ | ⟨-, hkind, hselected⟩ | ⟨hmissing, -⟩
    · cases hfailed
    · rw [if_neg (not_not.mpr hkind), hselected]
      exact List.mem_singleton_self _
    · cases hmissing

theorem Branched.move (h : Branched A T) (hshape : Shape D C A) (htold : Told D C A T)
    (hmove : Move D C A B) {new : List SchedulerEvent} (hnew : B.events = A.events ++ new) :
    Branched B (T ++ new) := by
  -- an idle node was not asked before; what it answers now decides
  have hasked : ∀ {t id node inputs} k, Idle A id node →
      (.asked k (.ok false) ∈ T ++ asks D t id node inputs ↔
        if k = id then refusal D t id node inputs = some (.suppressed .branchNotSelected)
        else A.state.outcomes.get k = some (.suppressed .branchNotSelected)) := by
    intro t id node inputs k hidle
    rw [List.mem_append]
    split_ifs with hk
    · rw [hk, refusal_branch]
      exact or_iff_right (htold.fresh hidle _)
    · rw [h k]
      refine or_iff_left fun hmem => ?_
      have hspec : Asks id (asks D t id node inputs) := asks_spec
      rcases hspec with hnil | ⟨answer, hone⟩
      · rw [hnil] at hmem
        cases hmem
      · rw [hone, List.mem_singleton] at hmem
        cases hmem
        exact hk rfl
  -- a node that goes on has no outcome
  have hgoes : ∀ {t id node inputs} k, Idle A id node → refusal D t id node inputs = none →
      (.asked k (.ok false) ∈ T ++ asks D t id node inputs ↔
        A.state.outcomes.get k = some (.suppressed .branchNotSelected)) := by
    intro t id node inputs k hidle hrefusal
    rw [hasked k hidle, hrefusal]
    split_ifs with hk
    · rw [hk, hidle.unresolved]
      simp
    · rfl
  have hresolve : ∀ {id o} k, B.state = A.state.resolve id o → B.state.outcomes.get k =
      if k = id then some o else A.state.outcomes.get k := by
    intro id o k hstate
    rw [hstate, SchedulerState.resolve_outcomes, OrdMap.get_insert]
  intro k
  cases hmove with
  | dooms id node hidle _ hstate _ hevents =>
    cases List.append_cancel_left (hnew.symm.trans hevents)
    rw [hresolve k hstate, List.mem_append, h k]
    by_cases hk : k = id
    · simp [hk, hidle.unresolved]
    · simp [hk]
  | refuses t id node outcome hidle _ hrefusal hstate _ hevents =>
    rw [List.append_assoc] at hevents
    cases List.append_cancel_left (hnew.symm.trans hevents)
    rw [hresolve k hstate, ← List.append_assoc, List.mem_append, hasked k hidle, hrefusal]
    by_cases hk : k = id <;> simp [hk]
  | launches t id node hidle _ hrefusal _ hstate _ hevents =>
    rw [List.append_assoc] at hevents
    cases List.append_cancel_left (hnew.symm.trans hevents)
    rw [← List.append_assoc, List.mem_append, hgoes k hidle hrefusal, hstate]
    simp
  | registers t id node children hidle _ hrefusal _ _ hstate _ hevents =>
    cases List.append_cancel_left (hnew.symm.trans hevents)
    rw [hgoes k hidle hrefusal, hstate]
    rfl
  | spoils t id node error hidle _ hrefusal _ hstate _ hevents =>
    cases List.append_cancel_left (hnew.symm.trans hevents)
    rw [hgoes k hidle hrefusal, hstate]
  | folds id node result inputs children _ _ _ _ _ _ hstate _ hevents =>
    obtain rfl : new = [] := by
      rw [hevents] at hnew
      exact List.self_eq_append_right.mp hnew
    rw [List.append_nil, h k, hstate]
  | reports t id node inputs _ _ hstate _ hevents =>
    cases List.append_cancel_left (hnew.symm.trans hevents)
    rw [List.mem_append, h k, hstate]
    simp
  | publishes t id node result _ hheard hstate _ hevents =>
    cases List.append_cancel_left (hnew.symm.trans hevents)
    rw [hresolve k hstate, List.mem_append, h k]
    by_cases hk : k = id
    · simp [hk, (hshape.heard id result hheard).2, conclude_ne_suppressed]
    · simp [hk]

end Scheduler

end Afactory
