import Mathlib
import Afactory.SchedulerRuns

/-!
# The report of a scheduler

* `configured_spec`: what a configured scheduler was checked for;
* `resolved_of_waiting`: where every node waits and none runs, all are resolved;
* `loop_ends`: the loop ends in a state that no order of arrival changes;
* `given_get`: a planned node receives what its edges' sources produced;
* `ResolvesOnce`, `run_resolves_once`: the whole run.
-/

namespace Afactory

namespace Scheduler

variable {D : Dispatch} {C : Scheduler} {S : SchedulerState} {T : List SchedulerEvent}

/-! ## Configured schedulers -/

/-- What a scheduler was checked for. -/
structure Checked (C : Scheduler) : Prop where
  parallel : 0 < C.maxParallel
  limits : ∀ scope limit, C.scopeLimits.get scope = some limit → 0 < limit
  first : ∀ id ∈ C.first, (∃ node, C.plan.nodes.get id = some node) ∧ C.plan.dependenciesOf id = []

theorem configured_spec {plan : Planned} {n : ℕ} {limits : OrdMap String ℕ}
    {first : Finset String} (h : configured plan n limits first = .ok C) :
    C = ⟨plan, max n 1, limits, first⟩ ∧ Checked C := by
  obtain ⟨C', hlimits, hfirst⟩ := bind_eq_ok.mp h
  rw [withScopeLimits] at hlimits
  split_ifs at hlimits with hbad
  cases hlimits
  rw [withFirst] at hfirst
  split_ifs at hfirst with hnone
  cases hfirst
  refine ⟨rfl, by simp [new], fun scope limit hget => ?_, fun id hid => ?_⟩
  · rw [Bool.not_eq_true, List.any_eq_false] at hbad
    have hentry := hbad (scope, limit) (OrdMap.mem_iff_get.mpr hget)
    simp only [Bool.or_eq_true, decide_eq_true_eq, not_or] at hentry
    exact Nat.pos_of_ne_zero hentry.1
  · have hid' : ¬ (plan.nodes.contains id = false ∨ plan.dependenciesOf id ≠ []) :=
      fun hbad => hnone ⟨id, hid, hbad⟩
    rw [not_or, not_not, Bool.not_eq_false] at hid'
    exact ⟨OrdMap.contains_iff.mp hid'.1, hid'.2⟩

/-! ## Nothing waits forever -/

/-- With nothing running, no limit holds a node back. -/
theorem atLimit_of_quiet (hchecked : Checked C) (hquiet : S.inFlight = .empty)
    (hlimits : ∀ id owner n, S.childLimits.get id = some (owner, n) → 0 < n) (id : String) :
    C.atLimit S id = false := by
  have hwithin : ∀ scope, S.runningWithin scope = 0 := by
    intro scope
    rw [SchedulerState.runningWithin, hquiet]
    rfl
  have hchildren : ∀ owner, S.runningChildren owner = 0 := by
    intro owner
    rw [SchedulerState.runningChildren, hquiet]
    rfl
  simp only [atLimit, Bool.or_eq_false_iff, decide_eq_false_iff_not, not_le]
  refine ⟨⟨?_, ?_⟩, ?_⟩
  · rw [hquiet]
    exact hchecked.parallel
  · rw [List.any_eq_false]
    intro entry hentry
    have hpos := hchecked.limits entry.1 entry.2 (OrdMap.mem_iff_get.mp hentry)
    simp only [hwithin, Bool.and_eq_true, decide_eq_true_eq, not_and, not_le]
    exact fun _ => hpos
  · cases hget : S.childLimits.get id with
    | none => rfl
    | some entry =>
      have hpos := hlimits id entry.1 entry.2 hget
      simp only [Option.any_some, hchildren, decide_eq_false_iff_not, not_le]
      exact hpos

/-- An unresolved node that waits, while none runs, waits for something: a child of its own, a
first node, or a source. -/
theorem waits_for (hchecked : Checked C) (hquiet : S.inFlight = .empty)
    (hlimits : ∀ id owner n, S.childLimits.get id = some (owner, n) → 0 < n)
    {id : String} {node : Node} (hunresolved : S.outcomes.get id = none)
    (hwaiting : C.readiness D S id node = .waiting) :
    (∃ inputs children, S.owners.get id = some (inputs, children) ∧
      ∃ child ∈ children, S.outcomes.contains child = false) ∨
    (S.owners.get id = none ∧ ((id ∉ C.first ∧ ∃ f ∈ C.first, S.outcomes.contains f = false) ∨
      ∃ e ∈ C.dependencies S id, S.outcomes.contains e.source.node = false)) := by
  have hresting : S.inFlight.contains id = false := by
    rw [hquiet]
    rfl
  rw [readiness, contains_eq_false.mpr hunresolved, hresting, Bool.or_self,
    if_neg Bool.false_ne_true] at hwaiting
  cases howner : S.owners.get id with
  | some owned =>
    obtain ⟨inputs, children⟩ := owned
    rw [howner] at hwaiting
    simp only at hwaiting
    split_ifs at hwaiting with hall
    rw [Bool.not_eq_true, List.all_eq_false] at hall
    obtain ⟨child, hchild, hopen⟩ := hall
    exact .inl ⟨inputs, children, rfl, child, hchild, Bool.not_eq_true _ ▸ hopen⟩
  | none =>
    rw [howner] at hwaiting
    refine .inr ⟨rfl, ?_⟩
    simp only [atLimit_of_quiet hchecked hquiet hlimits, Bool.and_false, Bool.false_eq_true,
      if_false] at hwaiting
    split_ifs at hwaiting with hfirst _ _ hopen
    · exact .inl hfirst
    · rw [Bool.not_eq_true', List.all_eq_false] at hopen
      obtain ⟨e, he, hopen⟩ := hopen
      exact .inr ⟨e, he, Bool.not_eq_true _ ▸ hopen⟩

/-- **Where every node waits and none runs, all are resolved.** -/
theorem resolved_of_waiting (hplan : C.plan.Valid) (hchecked : Checked C)
    (hfirst : ∀ id ∈ C.first, ∀ node, C.plan.nodes.get id = some node →
      D.coordinatesOwnedChildren node = false)
    (hshape : Shape D C ⟨S, .empty, [], false⟩) (hquiet : S.inFlight = .empty)
    (hwaiting : ∀ id ∈ S.order, ∀ node, S.nodes.get id = some node →
      C.readiness D S id node = .waiting) :
    ∀ id node, S.nodes.get id = some node → S.outcomes.contains id = true := by
  have hwaits : ∀ {id node}, S.nodes.get id = some node → S.outcomes.contains id = false → _ :=
    fun {id node} hnode hopen => waits_for hchecked hquiet hshape.limits
      (contains_eq_false.mp hopen) (hwaiting id ((hshape.mem_order id).mpr ⟨node, hnode⟩) node hnode)
  -- the first nodes own no children and depend on nothing
  have hfirsts : ∀ f ∈ C.first, S.outcomes.contains f = true := by
    intro f hf
    obtain ⟨⟨node, hnode⟩, hfree⟩ := hchecked.first f hf
    obtain ⟨hknown, hinputs⟩ := hshape.planned f node hnode
    rw [← Bool.not_eq_false]
    intro hopen
    rcases hwaits hknown hopen with ⟨inputs, children, howned, -⟩ |
      ⟨-, ⟨hnot, -⟩ | ⟨e, he, -⟩⟩
    · obtain ⟨⟨node', hnode', hcoordinates⟩, -⟩ := hshape.owned f inputs children howned
      cases hnode.symm.trans hnode'
      rw [hfirst f hf node hnode] at hcoordinates
      cases hcoordinates
    · exact hnot hf
    · rw [dependencies, hfree, ite_self] at he
      cases he
  -- neither do children
  have hchildren : ∀ id node, S.nodes.get id = some node → C.plan.nodes.get id = none →
      S.outcomes.contains id = true := by
    intro id node hnode hunplanned
    rw [← Bool.not_eq_false]
    intro hopen
    rcases hwaits hnode hopen with ⟨inputs, children, howned, -⟩ |
      ⟨-, ⟨-, f, hf, hopen'⟩ | ⟨e, he, -⟩⟩
    · obtain ⟨⟨node', hnode', -⟩, -⟩ := hshape.owned id inputs children howned
      cases hunplanned.symm.trans hnode'
    · rw [hfirsts f hf] at hopen'
      cases hopen'
    · obtain ⟨inputs, hinputs⟩ := hshape.child id node hnode hunplanned
      have hchild : isChild S id = true := OrdMap.contains_iff.mpr ⟨inputs, hinputs⟩
      rw [dependencies, if_pos hchild] at he
      cases he
  -- planned nodes along their order
  have hplanned : ∀ id ∈ C.plan.order, S.outcomes.contains id = true := by
    refine hplan.induction fun id hid hsources => ?_
    obtain ⟨node, hnode⟩ := (hplan.mem_order id).mp hid
    rw [← Bool.not_eq_false]
    intro hopen
    rcases hwaits (hshape.planned id node hnode).1 hopen with
      ⟨inputs, children, howned, child, hchild, hopen'⟩ |
      ⟨-, ⟨-, f, hf, hopen'⟩ | ⟨e, he, hopen'⟩⟩
    · obtain ⟨⟨known, hknown⟩, hunplanned⟩ :=
        (hshape.owned id inputs children howned).2 child hchild
      rw [hchildren child known hknown hunplanned] at hopen'
      cases hopen'
    · rw [hfirsts f hf] at hopen'
      cases hopen'
    · rw [dependencies] at he
      split_ifs at he
      · cases he
      · rw [hsources e he] at hopen'
        cases hopen'
  intro id node hnode
  cases hget : C.plan.nodes.get id with
  | none => exact hchildren id node hnode hget
  | some planned => exact hplanned id ((hplan.mem_order id).mpr ⟨planned, hget⟩)

/-! ## The loop ends -/

theorem eq_empty_of_isEmpty {V : Type} {m : OrdMap String V} (h : m.entries.isEmpty = true) :
    m = .empty := by
  rw [List.isEmpty_iff] at h
  refine OrdMap.ext fun k => ?_
  rw [OrdMap.get, h]
  rfl

/-- One round of the loop: nothing is left to do, or the round moves on, to a state that does
not depend on the order of arrival. -/
theorem loop_round (hshape : Shape D C ⟨S, .empty, [], false⟩) (hquiet : S.inFlight = .empty)
    (t : ℕ) :
    ((∀ id ∈ S.order, ∀ node, S.nodes.get id = some node → C.readiness D S id node = .waiting) ∧
      ∀ arrive fuel events, C.loop D arrive (fuel + 1) t S events = some (S, events)) ∨
    ∃ S', S'.inFlight = .empty ∧ ∀ arrive : ℕ → List String → List String,
      (∀ t ids, (arrive t ids).Perm ids) → ∃ B : Scan, B.state = S' ∧ B.results = .empty ∧
        Relation.TransGen (Move D C) ⟨S, .empty, [], false⟩ B ∧
        ∀ fuel events, C.loop D arrive (fuel + 1) t S events =
          C.loop D arrive fuel (t + 1) S' (events ++ B.events) := by
  have hmoves := scan_moves (D := D) (C := C) (t := t) hshape.nodup
  cases hempty : (C.scan D t S).state.inFlight.entries.isEmpty &&
      (C.scan D t S).results.entries.isEmpty with
  | true =>
    obtain ⟨hflight, hresults⟩ := Bool.and_eq_true_iff.mp hempty
    cases hprogressed : (C.scan D t S).progressed with
    | false =>
      obtain ⟨hsame, hwaiting⟩ := visits_idle hprogressed
      refine .inl ⟨hwaiting, fun arrive fuel events => ?_⟩
      rw [loop]
      simp only [hempty, if_true, hprogressed, Bool.false_eq_true, if_false]
      rw [scan, hsame, List.append_nil]
    | true =>
      refine .inr ⟨(C.scan D t S).state, eq_empty_of_isEmpty hflight, fun arrive _ =>
        ⟨C.scan D t S, rfl, eq_empty_of_isEmpty hresults, ?_, fun fuel events => ?_⟩⟩
      · refine hmoves.resolve_left fun hsame => ?_
        rw [hsame] at hprogressed
        cases hprogressed
      · rw [loop]
        simp only [hempty, if_true, hprogressed]
  | false =>
    have hmoved : Relation.TransGen (Move D C) ⟨S, .empty, [], false⟩ (C.scan D t S) := by
      refine hmoves.resolve_left fun hsame => ?_
      rw [hsame, hquiet] at hempty
      cases hempty
    have hscanned := hshape.moves hmoved.to_reflTransGen
    have hall : ∀ k, k ∈ (C.scan D t S).state.inFlight.keys ↔
        k ∈ (C.scan D t S).state.inFlight.keys := fun _ => Iff.rfl
    refine .inr ⟨(wave D t (C.scan D t S).state.inFlight.keys (C.scan D t S)).state,
      (wave_clean hscanned hall).1, fun arrive harrive => ?_⟩
    have hall' : ∀ k, k ∈ arrive t (C.scan D t S).state.inFlight.keys ↔
        k ∈ (C.scan D t S).state.inFlight.keys := fun _ => (harrive t _).mem_iff
    have hstate := wave_congr (t := t) hscanned hall' hall
    refine ⟨wave D t (arrive t (C.scan D t S).state.inFlight.keys) (C.scan D t S), hstate,
      (wave_clean hscanned hall').2, hmoved.trans_left (wave_moves D C t _ _),
      fun fuel events => ?_⟩
    rw [loop]
    simp only [hempty, Bool.false_eq_true, if_false, hstate]

/-- **The loop ends**, after as many rounds and in the same state for every order of arrival. -/
theorem loop_ends (hplan : C.plan.Valid) (hshape : Shape D C ⟨S, .empty, [], false⟩)
    (hquiet : S.inFlight = .empty) (t : ℕ) : ∃ fuel S', S'.inFlight = .empty ∧
      (∀ id ∈ S'.order, ∀ node, S'.nodes.get id = some node →
        C.readiness D S' id node = .waiting) ∧
      ∀ arrive : ℕ → List String → List String, (∀ t ids, (arrive t ids).Perm ids) →
        ∀ T, Sound D C ⟨S, .empty, [], false⟩ T → ∃ T',
          C.loop D arrive fuel t S T = some (S', T') ∧ Sound D C ⟨S', .empty, [], false⟩ T' := by
  induction hleft : toDo C ⟨S, .empty, [], false⟩ using WellFoundedLT.induction
    generalizing S t with
  | ind left ih =>
    rcases loop_round hshape hquiet t with ⟨hwaiting, hdone⟩ | ⟨S', hquiet', hnext⟩
    · exact ⟨1, S, hquiet, hwaiting, fun arrive _ T hsound => ⟨T, hdone arrive 0 T, hsound⟩⟩
    · -- the state after the round is reached by moves, whatever the order of arrival
      obtain ⟨B, rfl, hresults, hmoves, -⟩ := hnext (fun _ ids => ids) fun _ _ => .rfl
      have hreached := hshape.moves hmoves.to_reflTransGen
      have hless : toDo C ⟨B.state, .empty, [], false⟩ < left := by
        have hsame : toDo C ⟨B.state, .empty, [], false⟩ = toDo C B := by
          rw [toDo, toDo]
          have hdistance : distance ⟨B.state, .empty, [], false⟩ = distance B :=
            funext fun k => distance_congr rfl (by rw [hresults]) rfl
          rw [hdistance]
        rw [hsame, ← hleft]
        exact less_of_moves hplan hshape hmoves
      have hclean : Shape D C ⟨B.state, .empty, [], false⟩ := hreached.congr rfl hresults.symm
      obtain ⟨fuel, S'', hquiet'', hwaiting, hends⟩ := ih _ hless hclean hquiet' (t + 1) rfl
      refine ⟨fuel + 1, S'', hquiet'', hwaiting, fun arrive harrive T hsound => ?_⟩
      obtain ⟨B', hstate, hresults', hmoves', hloop⟩ := hnext arrive harrive
      have hsound' : Sound D C B' (T ++ B'.events) := by
        refine Sound.moves hplan ?_ hmoves'.to_reflTransGen
        rw [List.append_nil]
        exact hsound
      obtain ⟨T', hrest, hsound''⟩ := hends arrive harrive (T ++ B'.events)
        (hsound'.congr hstate.symm hresults'.symm)
      exact ⟨T', (hloop fuel T).trans hrest, hsound''⟩

/-! ## What the edges deliver -/

/-- What a node produced at a port: nothing unless it completed. -/
def produced (S : SchedulerState) (port : Port) : List String :=
  match S.outcomes.get port.node with
  | some (.completed outputs) => (outputs.get port.name).getD []
  | _ => []

/-- What the edges into one input port carry, one edge after the other. -/
def edgeValues (C : Scheduler) (S : SchedulerState) (id name : String) : List String :=
  ((C.plan.dependenciesOf id).filter fun e => e.target.name = name).flatMap fun e =>
    produced S e.source

theorem value_eq_produced (hshape : Shape D C ⟨S, .empty, [], false⟩) (port : Port) :
    (S.value port).getD [] = produced S port := by
  rw [SchedulerState.value, produced]
  cases hget : S.outputs.get port.node with
  | some outputs =>
    rw [(hshape.outputs port.node outputs).mp hget]
    rfl
  | none =>
    split
    case h_1 outputs hout =>
      rw [(hshape.outputs port.node outputs).mpr hout] at hget
      cases hget
    case h_2 => rfl

/-- Edges into ports that are there add to them, in the order of the edges. -/
theorem get_foldl_deliver (S : SchedulerState) (edges : List Edge) (m : ArtifactMap)
    (hports : ∀ e ∈ edges, ∃ values, m.get e.target.name = some values) (name : String) :
    (edges.foldl S.deliver m).get name = (m.get name).map fun values =>
      values ++ (edges.filter fun e => e.target.name = name).flatMap fun e =>
        (S.value e.source).getD [] := by
  induction edges generalizing m with
  | nil => cases hget : m.get name <;> simp [hget]
  | cons e edges ih =>
    obtain ⟨values, hvalues⟩ := hports e List.mem_cons_self
    -- one delivery
    have hdeliver : ∀ k, (S.deliver m e).get k = if k = e.target.name then
        some (values ++ (S.value e.source).getD []) else m.get k := by
      intro k
      rw [SchedulerState.deliver.eq_def]
      cases S.value e.source with
      | none =>
        split_ifs with hk
        · rw [hk, hvalues]
          simp
        · rfl
      | some artifacts => simp [OrdMap.get_insert, hvalues]
    rw [List.foldl_cons, ih (S.deliver m e)]
    · rw [hdeliver]
      by_cases hk : name = e.target.name
      · rw [if_pos hk, hk, hvalues]
        simp
      · rw [if_neg hk]
        simp [Ne.symm hk]
    · intro e' he'
      rw [hdeliver]
      split_ifs
      · exact ⟨_, rfl⟩
      · exact hports e' (List.mem_cons_of_mem _ he')

/-- How a node receives the values of a port: a Task as its edges deliver them. -/
def arranged (node : Node) (values : List String) : List String :=
  if node.kind = .task then values else values.insertionSort (· ≤ ·)

/-- **A planned node receives what its edges' sources produced**, and nothing else. -/
theorem given_get (hplan : C.plan.Valid) (hshape : Shape D C ⟨S, .empty, [], false⟩)
    {id : String} {node : Node} (hnode : C.plan.nodes.get id = some node) (name : String) :
    (C.given S id node).get name = if name ∈ node.inputs.map PortContract.name then
      some (arranged node (edgeValues C S id name)) else none := by
  have hchild := (hshape.planned id node hnode).2
  have hdeps : C.dependencies S id = C.plan.dependenciesOf id := by
    have hnot : isChild S id = false := by
      rw [isChild, OrdMap.contains, hchild]
      rfl
    rw [dependencies, hnot, if_neg Bool.false_ne_true]
  have hempty : ∀ name, (S.emptyInputs id node).get name =
      if name ∈ node.inputs.map PortContract.name then some [] else none := by
    intro name
    have hconst := OrdMap.get_insertAll_const (.empty : ArtifactMap)
      (node.inputs.map PortContract.name) [] name
    rw [List.map_map] at hconst
    rw [SchedulerState.emptyInputs, hchild]
    exact hconst
  have hdelivered : (S.delivered id node (C.plan.dependenciesOf id)).get name =
      if name ∈ node.inputs.map PortContract.name then some (edgeValues C S id name) else none := by
    rw [SchedulerState.delivered, get_foldl_deliver, hempty]
    · split_ifs
      · simp only [Option.map_some, List.nil_append, edgeValues, value_eq_produced hshape]
      · rfl
    · intro e he
      obtain ⟨hedge, htarget⟩ := Planned.mem_dependenciesOf.mp he
      obtain ⟨node', hnode', hport⟩ := hplan.target e hedge
      rw [htarget, hnode] at hnode'
      cases hnode'
      rw [hempty, if_pos hport]
      exact ⟨[], rfl⟩
  rw [given, arrange, hdeps]
  by_cases hkind : node.kind = .task
  · rw [if_pos hkind, hdelivered, arranged, if_pos hkind]
  · rw [if_neg hkind, OrdMap.get_mapVal, hdelivered, arranged, if_neg hkind]
    split_ifs <;> rfl

/-! ## The whole run -/

/-- Resolved nodes are listed in their order. -/
theorem exists_outcomes {ids : List String}
    (h : ∀ id ∈ ids, S.outcomes.contains id = true) :
    ∃ outcomes, (ids.mapM fun id => (S.outcomes.get id).map fun o => (id, o)) = some outcomes ∧
      outcomes.map Prod.fst = ids ∧
      ∀ id o, (id, o) ∈ outcomes ↔ id ∈ ids ∧ S.outcomes.get id = some o := by
  induction ids with
  | nil => exact ⟨[], rfl, rfl, by simp⟩
  | cons id ids ih =>
    obtain ⟨o, ho⟩ := OrdMap.contains_iff.mp (h id List.mem_cons_self)
    obtain ⟨outcomes, hlisted, hids, hmem⟩ := ih fun id hid => h id (List.mem_cons_of_mem _ hid)
    refine ⟨(id, o) :: outcomes, ?_, by rw [List.map_cons, hids], fun k o' => ?_⟩
    · rw [List.mapM_cons, ho, hlisted]
      rfl
    · rw [List.mem_cons, hmem, List.mem_cons]
      constructor
      · rintro (heq | ⟨hk, hget⟩)
        · cases heq
          exact ⟨.inl rfl, ho⟩
        · exact ⟨.inr hk, hget⟩
      · rintro ⟨rfl | hk, hget⟩
        · cases ho.symm.trans hget
          exact .inl rfl
        · exact .inr ⟨hk, hget⟩

/-- A node that began misses nothing. -/
theorem Begun.not_missing {A : Scan} (htold : Told D C A T) {id : String} {node : Node}
    (hbegun : Begun D C A.state T id node) : ¬ UpstreamMissing D C A.state T id node := by
  obtain ⟨⟨hfirst, hneeds⟩, inputs, ⟨-, rfl⟩, hasked⟩ := hbegun
  rintro (⟨hnot, f, hf, hlost⟩ | ⟨hneed, e, he, hlost⟩ |
    ⟨hkind, htrue, inputs, ⟨-, rfl⟩, hunfed⟩)
  · exact not_lost_of_completed (hfirst.resolve_left hnot f hf) hlost
  · exact not_lost_of_completed (hneeds hneed e he) hlost
  · obtain ⟨answer, hanswer, hfed⟩ := hasked hkind
    rw [hfed (htold.once id _ _ hanswer htrue)] at hunfed
    cases hunfed

/-- A resolved node is suppressed where its required upstream is missing. -/
theorem Told.suppressed_iff {A : Scan} (htold : Told D C A T) {id : String} {node : Node}
    (hknown : A.state.nodes.get id = some node) (hresolved : A.state.outcomes.contains id = true) :
    A.state.outcomes.get id = some (.suppressed .upstreamMissing) ↔
      UpstreamMissing D C A.state T id node := by
  obtain ⟨o, ho⟩ := OrdMap.contains_iff.mp hresolved
  rcases htold.explained id node o hknown ho with ⟨rfl, hmissing⟩ | ⟨hne, hbegun⟩
  · exact ⟨fun _ => hmissing, fun _ => ho⟩
  · constructor
    · intro hsuppressed
      cases ho.symm.trans hsuppressed
      exact absurd rfl hne
    · exact fun hmissing => absurd hmissing (hbegun.not_missing htold)

/-- What a whole run satisfies: its final state, its events and its report. -/
structure ResolvesOnce (D : Dispatch) (C : Scheduler) (S : SchedulerState)
    (T : List SchedulerEvent) (report : RunReport) : Prop where
  /-- the report lists the planned nodes in their order, each with its outcome -/
  listed : report.outcomes.map Prod.fst = C.plan.order
  reported : ∀ id o, (id, o) ∈ report.outcomes → .resolved id o ∈ T
  /-- every node was resolved, children that were registered on the way too -/
  resolved : ∀ id node, S.nodes.get id = some node → ∃ o, .resolved id o ∈ T
  /-- no node is resolved or started twice, or started before its sources are resolved -/
  legal : Legal C T
  /-- at every moment no limit is exceeded -/
  limited : ∀ before after, T = before ++ after → (running before).length ≤ C.maxParallel ∧
    ∀ scope limit, C.scopeLimits.get scope = some limit →
      ((running before).filter fun id => within id scope).length ≤ limit
  /-- a planned node receives what its edges' sources produced -/
  fed : ∀ id node inputs, C.plan.nodes.get id = some node → .started id inputs ∈ T →
    ∀ name, inputs.get name = if name ∈ node.inputs.map PortContract.name then
      some (arranged node (edgeValues C S id name)) else none
  /-- its outcome is concluded from its run -/
  ran : ∀ id node inputs, C.plan.nodes.get id = some node → .started id inputs ∈ T →
    ∃ t t', (id, conclude D t' id node (D.run t node inputs)) ∈ report.outcomes
  /-- a planned node is suppressed where its required upstream is missing, and nowhere else -/
  suppressed : ∀ id node, C.plan.nodes.get id = some node →
    ((id, .suppressed .upstreamMissing) ∈ report.outcomes ↔ UpstreamMissing D C S T id node)
  /-- but for the nodes whose branch was not selected -/
  unselected : ∀ id, id ∈ C.plan.order →
    ((id, .suppressed .branchNotSelected) ∈ report.outcomes ↔ .asked id (.ok false) ∈ T)

/-- A sound state in which all nodes are resolved is the end of such a run. -/
theorem Sound.resolvesOnce (hplan : C.plan.Valid) (hsound : Sound D C ⟨S, .empty, [], false⟩ T)
    (hquiet : S.inFlight = .empty)
    (hresolved : ∀ id node, S.nodes.get id = some node → S.outcomes.contains id = true) :
    ∃ report, C.report S = some report ∧ ResolvesOnce D C S T report := by
  obtain ⟨hshape, htold, hbranched, hlaunched⟩ := hsound
  have hknown : ∀ {id}, id ∈ C.plan.order → ∃ node, S.nodes.get id = some node := by
    intro id hid
    obtain ⟨node, hnode⟩ := (hplan.mem_order id).mp hid
    exact ⟨node, (hshape.planned id node hnode).1⟩
  have hlisted : ∀ {id node}, C.plan.nodes.get id = some node → id ∈ C.plan.order :=
    fun hnode => (hplan.mem_order _).mpr ⟨_, hnode⟩
  have hplanned : ∀ id ∈ C.plan.order, S.outcomes.contains id = true := by
    intro id hid
    obtain ⟨node, hnode⟩ := hknown hid
    exact hresolved id node hnode
  obtain ⟨outcomes, houtcomes, hids, hmem⟩ := exists_outcomes hplanned
  refine ⟨⟨outcomes, []⟩, by rw [report, houtcomes]; rfl, hids, ?_, ?_, hlaunched.legal,
    fun before after => hlaunched.legal.running_le, ?_, ?_, ?_, ?_⟩
  · intro id o hreported
    exact (htold.resolved id o).mpr ((hmem id o).mp hreported).2
  · intro id node hnode
    obtain ⟨o, ho⟩ := OrdMap.contains_iff.mp (hresolved id node hnode)
    exact ⟨o, (htold.resolved id o).mpr ho⟩
  · intro id node inputs hnode hstarted
    obtain ⟨node', hnode', -, ⟨-, rfl⟩, -⟩ := hlaunched.started id inputs hstarted
    cases (hshape.planned id node hnode).1.symm.trans hnode'
    exact given_get hplan hshape hnode
  · intro id node inputs hnode hstarted
    obtain ⟨node', hnode', -, -, hran⟩ := hlaunched.started id inputs hstarted
    cases (hshape.planned id node hnode).1.symm.trans hnode'
    rcases hran with hrunning | ⟨t, hheard | ⟨t', hout⟩⟩
    · rw [hquiet] at hrunning
      cases hrunning
    · cases hheard
    · exact ⟨t, t', (hmem id _).mpr ⟨hlisted hnode, hout⟩⟩
  · intro id node hnode
    have hthere := (hshape.planned id node hnode).1
    rw [hmem, and_iff_right (hlisted hnode)]
    exact htold.suppressed_iff hthere (hresolved id node hthere)
  · intro id hid
    rw [hmem, and_iff_right hid]
    exact (hbranched id).symm

/-- **A scheduler resolves every node once**: for every plan and every limits, and for every
order in which running nodes complete, the run ends with a report of all planned nodes, legally,
and another order of completion gives the same report. -/
theorem run_resolves_once {p : Pipeline} {plan : Planned} {n : ℕ} {limits : OrdMap String ℕ}
    {first : Finset String} (hplan : p.plan = .ok plan)
    (hconfigured : configured plan n limits first = .ok C)
    (hfirst : ∀ id ∈ first, ∀ node, plan.nodes.get id = some node →
      D.coordinatesOwnedChildren node = false) :
    ∃ fuel S report, ∀ arrive : ℕ → List String → List String,
      (∀ t ids, (arrive t ids).Perm ids) → ∃ T, C.loop D arrive fuel 0 C.start [] = some (S, T) ∧
        C.report S = some report ∧ ResolvesOnce D C S T report := by
  obtain ⟨hC, hchecked⟩ := configured_spec hconfigured
  have hvalid : C.plan.Valid := by
    rw [hC]
    exact plan_valid hplan
  have hfirst' : ∀ id ∈ C.first, ∀ node, C.plan.nodes.get id = some node →
      D.coordinatesOwnedChildren node = false := by
    rw [hC]
    exact hfirst
  obtain ⟨fuel, S, hquiet, hwaiting, hends⟩ := loop_ends (D := D) hvalid (.start hvalid) rfl 0
  refine ⟨fuel, S, ?_⟩
  -- some order of arrival names the report, and every other one ends in the same state
  obtain ⟨T, -, hsound⟩ := hends (fun _ ids => ids) (fun _ _ => .rfl) [] (.start hvalid)
  have hresolved := resolved_of_waiting hvalid hchecked hfirst' hsound.shape hquiet hwaiting
  obtain ⟨report, hreport, -⟩ := hsound.resolvesOnce hvalid hquiet hresolved
  refine ⟨report, fun arrive harrive => ?_⟩
  obtain ⟨T', hloop, hsound'⟩ := hends arrive harrive [] (.start hvalid)
  obtain ⟨report', hreport', honce⟩ := hsound'.resolvesOnce hvalid hquiet hresolved
  cases hreport.symm.trans hreport'
  exact ⟨T', hloop, hreport, honce⟩

/-- An admission before a node that completes and one that fails, each with a consumer. -/
def forkedPipeline : Pipeline :=
  let output : PortContract := ⟨"out", "lab/Note@1", .one, false, .any⟩
  let input : PortContract := ⟨"in", "lab/Note@1", .one, false, .any⟩
  { nodes := [⟨"admission", .task, [], [], none⟩, ⟨"lab.good", .task, [], [output], none⟩,
      ⟨"lab.bad", .task, [], [output], none⟩, ⟨"reader", .task, [input], [], none⟩,
      ⟨"orphan", .task, [input], [], none⟩]
    edges := [⟨⟨"lab.good", "out"⟩, ⟨"reader", "in"⟩⟩, ⟨⟨"lab.bad", "out"⟩, ⟨"orphan", "in"⟩⟩] }

def forkedDispatch : Dispatch where
  run := fun _ node _ =>
    if node.id = "lab.bad" then .error "refused"
    else .ok (.ofList (node.outputs.map fun port => (port.name, [node.id])))

/-- A run of it ends, with the admission first and one node of the scope at a time. -/
theorem run_resolves_once_forked : ∃ plan C, forkedPipeline.plan = .ok plan ∧
    configured plan 2 (.ofList [("lab", 1)]) {"admission"} = .ok C ∧
    ∃ fuel S report, ∀ arrive : ℕ → List String → List String,
      (∀ t ids, (arrive t ids).Perm ids) →
        ∃ T, C.loop forkedDispatch arrive fuel 0 C.start [] = some (S, T) ∧
          C.report S = some report ∧ ResolvesOnce forkedDispatch C S T report := by
  have hsome : ∃ plan ∈ forkedPipeline.plan.toOption,
      (configured plan 2 (.ofList [("lab", 1)]) {"admission"}).toOption.isSome = true := by
    decide
  obtain ⟨plan, hplan, hconfigured⟩ := hsome
  obtain ⟨C, hC⟩ := Option.isSome_iff_exists.mp hconfigured
  have hplan := toOption_eq_some.mp hplan
  have hC := toOption_eq_some.mp hC
  exact ⟨plan, C, hplan, hC, run_resolves_once hplan hC fun _ _ _ _ => rfl⟩

end Scheduler

end Afactory
