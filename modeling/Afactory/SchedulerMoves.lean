import Mathlib
import Afactory.Scheduler

/-!
# The moves of a scheduler

Scans and waves are made of eight moves, each of which touches one node. Here is what each move
checks and changes, said once; whatever holds of a run is shown move by move.

* `Idle`, `Doomed`, `Ready`: what a scan has found out about a node;
* `Move`: the eight moves;
* `scan_moves`, `wave_moves`: scans and waves make nothing but moves, and a scan that moves
  nothing found every node waiting.
-/

namespace Afactory

namespace Scheduler

/-! ## What a scan finds -/

/-- A node nothing has happened to. -/
structure Idle (A : Scan) (id : String) (node : Node) : Prop where
  known : A.state.nodes.get id = some node
  unresolved : A.state.outcomes.get id = none
  resting : A.state.inFlight.get id = none
  unowned : A.state.owners.get id = none
  unheard : A.results.get id = none

/-- A node that can no longer run: a first node did not complete, or a predecessor it needs. -/
def Doomed (D : Dispatch) (C : Scheduler) (S : SchedulerState) (id : String) (node : Node) :
    Prop :=
  (id ∉ C.first ∧ (∀ f ∈ C.first, S.outcomes.contains f = true) ∧ ∃ f ∈ C.first, f ∈ S.unusable) ∨
    (D.requiresSuccessfulPredecessors node = true ∧
      ∃ e ∈ C.dependencies S id, e.source.node ∈ S.unusable)

/-- A node that may run now: nothing it needs is missing or outstanding. -/
structure Ready (D : Dispatch) (C : Scheduler) (S : SchedulerState) (id : String) (node : Node) :
    Prop where
  cleared : id ∈ C.first ∨
    ((∀ f ∈ C.first, S.outcomes.contains f = true) ∧ ∀ f ∈ C.first, f ∉ S.unusable)
  fed : D.requiresSuccessfulPredecessors node = true →
    ∀ e ∈ C.dependencies S id, e.source.node ∉ S.unusable
  resolved : ∀ e ∈ C.dependencies S id, S.outcomes.contains e.source.node = true
  room : coordinates D S id node = false → C.atLimit S id = false

variable {D : Dispatch} {C : Scheduler}

theorem contains_eq_false {m : OrdMap String NodeOutcome} {id : String} :
    m.contains id = false ↔ m.get id = none := by
  rw [OrdMap.contains, Option.isSome_eq_false_iff, Option.isNone_iff_eq_none]

/-- What each finding of a scan says. -/
theorem readiness_spec {S : SchedulerState} {id : String} (node : Node)
    (hunresolved : S.outcomes.contains id = false) (hresting : S.inFlight.contains id = false) :
    match C.readiness D S id node with
    | .waiting => True
    | .completing inputs children => S.owners.get id = some (inputs, children) ∧
        ∀ child ∈ children, S.outcomes.contains child = true
    | .upstreamMissing => S.owners.get id = none ∧ Doomed D C S id node
    | .ready inputs => S.owners.get id = none ∧ Ready D C S id node ∧
        inputs = S.delivered id node (C.dependencies S id) := by
  rw [readiness, hunresolved, hresting, Bool.or_self, if_neg Bool.false_ne_true]
  cases howner : S.owners.get id with
  | some owned =>
    obtain ⟨inputs, children⟩ := owned
    simp only
    by_cases hchildren : children.all S.outcomes.contains = true
    · rw [if_pos hchildren]
      exact ⟨rfl, List.all_eq_true.mp hchildren⟩
    · rw [if_neg hchildren]
      trivial
  | none =>
    simp only
    by_cases hwait : id ∉ C.first ∧ ∃ f ∈ C.first, S.outcomes.contains f = false
    · rw [if_pos hwait]
      trivial
    rw [if_neg hwait]
    have hfirst : id ∉ C.first → ∀ f ∈ C.first, S.outcomes.contains f = true := by
      intro hid f hf
      rw [← Bool.not_eq_false]
      exact fun h => hwait ⟨hid, f, hf, h⟩
    by_cases hblocked : id ∉ C.first ∧ ∃ f ∈ C.first, f ∈ S.unusable
    · rw [if_pos hblocked]
      exact ⟨trivial, .inl ⟨hblocked.1, hfirst hblocked.1, hblocked.2⟩⟩
    rw [if_neg hblocked]
    by_cases hneeds : (D.requiresSuccessfulPredecessors node &&
        (C.dependencies S id).any fun e => decide (e.source.node ∈ S.unusable)) = true
    · rw [if_pos hneeds]
      simp only [Bool.and_eq_true, List.any_eq_true, decide_eq_true_eq] at hneeds
      exact ⟨trivial, .inr hneeds⟩
    rw [if_neg hneeds]
    by_cases hresolved : (!(C.dependencies S id).all fun e =>
        S.outcomes.contains e.source.node) = true
    · rw [if_pos hresolved]
      trivial
    rw [if_neg hresolved]
    by_cases hlimit : (!coordinates D S id node && C.atLimit S id) = true
    · rw [if_pos hlimit]
      trivial
    rw [if_neg hlimit]
    simp only [Bool.and_eq_true, List.any_eq_true, decide_eq_true_eq, not_and, not_exists]
      at hneeds
    simp only [Bool.not_eq_true', Bool.not_eq_false, List.all_eq_true] at hresolved
    refine ⟨trivial, ⟨?_, hneeds, hresolved, ?_⟩, rfl⟩
    · by_cases hid : id ∈ C.first
      · exact .inl hid
      · exact .inr ⟨hfirst hid, fun f hf hunusable => hblocked ⟨hid, f, hf, hunusable⟩⟩
    · intro hcoordinates
      rw [← Bool.not_eq_true]
      intro hat
      exact hlimit (by rw [hcoordinates, hat]; rfl)

/-! ## Moves -/

/-- What is given to a ready node. -/
def given (C : Scheduler) (S : SchedulerState) (id : String) (node : Node) : ArtifactMap :=
  arrange node (S.delivered id node (C.dependencies S id))

variable (D C) in
/-- The eight moves, each of one node. -/
inductive Move (A B : Scan) : Prop
  /-- a doomed node is suppressed -/
  | dooms (id : String) (node : Node) (hidle : Idle A id node) (hdoomed : Doomed D C A.state id node)
    (hstate : B.state = A.state.resolve id (.suppressed .upstreamMissing))
    (hresults : B.results = A.results)
    (hevents : B.events = A.events ++ [.resolved id (.suppressed .upstreamMissing)])
  /-- a ready node is refused -/
  | refuses (t : ℕ) (id : String) (node : Node) (outcome : NodeOutcome) (hidle : Idle A id node)
    (hready : Ready D C A.state id node)
    (hrefusal : refusal D t id node (C.given A.state id node) = some outcome)
    (hstate : B.state = A.state.resolve id outcome) (hresults : B.results = A.results)
    (hevents : B.events = A.events ++ asks D t id node (C.given A.state id node) ++
      [.resolved id outcome])
  /-- a ready node starts -/
  | launches (t : ℕ) (id : String) (node : Node) (hidle : Idle A id node)
    (hready : Ready D C A.state id node)
    (hrefusal : refusal D t id node (C.given A.state id node) = none)
    (hstatic : coordinates D A.state id node = false)
    (hstate : B.state = { A.state with
      inFlight := A.state.inFlight.insert id (C.given A.state id node) })
    (hresults : B.results = A.results)
    (hevents : B.events = A.events ++ asks D t id node (C.given A.state id node) ++
      [.started id (C.given A.state id node)])
  /-- an owner registers its children -/
  | registers (t : ℕ) (id : String) (node : Node) (children : List OwnedChildDispatch)
    (hidle : Idle A id node) (hready : Ready D C A.state id node)
    (hrefusal : refusal D t id node (C.given A.state id node) = none)
    (howner : coordinates D A.state id node = true)
    (hvalid : validateChildren node A.state.nodes [] children = .ok ())
    (hstate : B.state = register D A.state id node (C.given A.state id node) children)
    (hresults : B.results = A.results)
    (hevents : B.events = A.events ++ asks D t id node (C.given A.state id node))
  /-- an owner's expansion fails -/
  | spoils (t : ℕ) (id : String) (node : Node) (error : String) (hidle : Idle A id node)
    (hready : Ready D C A.state id node)
    (hrefusal : refusal D t id node (C.given A.state id node) = none)
    (howner : coordinates D A.state id node = true) (hstate : B.state = A.state)
    (hresults : B.results = A.results.insert id (.error error))
    (hevents : B.events = A.events ++ asks D t id node (C.given A.state id node))
  /-- an owner folds its terminal children -/
  | folds (id : String) (node : Node) (result : Except String ArtifactMap)
    (inputs : ArtifactMap) (children : List String) (hknown : A.state.nodes.get id = some node)
    (hunresolved : A.state.outcomes.get id = none) (hresting : A.state.inFlight.get id = none)
    (howned : A.state.owners.get id = some (inputs, children))
    (hchildren : ∀ child ∈ children, A.state.outcomes.contains child = true)
    (hunheard : A.results.get id = none) (hstate : B.state = A.state)
    (hresults : B.results = A.results.insert id result) (hevents : B.events = A.events)
  /-- a running node reports -/
  | reports (t : ℕ) (id : String) (node : Node) (inputs : ArtifactMap)
    (hknown : A.state.nodes.get id = some node) (hrunning : A.state.inFlight.get id = some inputs)
    (hstate : B.state = { A.state with inFlight := A.state.inFlight.erase id })
    (hresults : B.results = A.results.insert id (D.run t node inputs))
    (hevents : B.events = A.events ++ [.reported id])
  /-- a result is admitted -/
  | publishes (t : ℕ) (id : String) (node : Node) (result : Except String ArtifactMap)
    (hknown : A.state.nodes.get id = some node) (hheard : A.results.get id = some result)
    (hstate : B.state = A.state.resolve id (conclude D t id node result))
    (hresults : B.results = A.results.erase id)
    (hevents : B.events = A.events ++ [.resolved id (conclude D t id node result)])

/-! ## Scans are moves -/

theorem begin_move {A : Scan} {t : ℕ} {id : String} {node : Node} (hidle : Idle A id node)
    (hready : Ready D C A.state id node) :
    Move D C A (A.begin D t id node (A.state.delivered id node (C.dependencies A.state id))) := by
  rw [Scan.begin]
  simp only
  cases hrefusal : refusal D t id node
      (arrange node (A.state.delivered id node (C.dependencies A.state id))) with
  | some outcome => exact .refuses t id node outcome hidle hready hrefusal rfl rfl rfl
  | none =>
    simp only
    cases hcoordinates : coordinates D A.state id node with
    | false =>
      rw [if_neg Bool.false_ne_true]
      exact .launches t id node hidle hready hrefusal hcoordinates rfl rfl rfl
    | true =>
      rw [if_pos rfl, Scan.expand]
      split
      case h_1 children hexpansion =>
        obtain ⟨children', -, hvalid⟩ := bind_eq_ok.mp hexpansion
        obtain ⟨_, hvalid, hchildren⟩ := bind_eq_ok.mp hvalid
        cases hchildren
        exact .registers t id node children hidle hready hrefusal hcoordinates hvalid rfl rfl rfl
      case h_2 e _ =>
        exact .spoils t id node e hidle hready hrefusal hcoordinates rfl rfl rfl

theorem visit_move {A : Scan} {t : ℕ} {id : String} (hunheard : A.results.get id = none) :
    A.visit D C t id = A ∨ Move D C A (A.visit D C t id) := by
  rw [Scan.visit]
  cases hknown : A.state.nodes.get id with
  | none => exact .inl rfl
  | some node =>
    simp only
    cases hunresolved : A.state.outcomes.get id with
    | some outcome =>
      have hcontains : A.state.outcomes.contains id = true :=
        OrdMap.contains_iff.mpr ⟨outcome, hunresolved⟩
      rw [readiness, hcontains, Bool.true_or, if_pos rfl]
      exact .inl rfl
    | none =>
      cases hresting : A.state.inFlight.get id with
      | some inputs =>
        have hcontains : A.state.inFlight.contains id = true :=
          OrdMap.contains_iff.mpr ⟨inputs, hresting⟩
        rw [readiness, hcontains, Bool.or_true, if_pos rfl]
        exact .inl rfl
      | none =>
        have hspec := readiness_spec (D := D) (C := C) node
          (contains_eq_false.mpr hunresolved) (by rw [OrdMap.contains, hresting]; rfl)
        cases hreadiness : C.readiness D A.state id node with
        | waiting => exact .inl rfl
        | completing inputs children =>
          rw [hreadiness] at hspec
          exact .inr (.folds id node _ inputs children hknown hunresolved hresting hspec.1 hspec.2
            hunheard rfl rfl rfl)
        | upstreamMissing =>
          rw [hreadiness] at hspec
          exact .inr (.dooms id node ⟨hknown, hunresolved, hresting, hspec.1, hunheard⟩ hspec.2
            rfl rfl rfl)
        | ready inputs =>
          rw [hreadiness] at hspec
          obtain ⟨hunowned, hready, rfl⟩ := hspec
          exact .inr (begin_move ⟨hknown, hunresolved, hresting, hunowned, hunheard⟩ hready)

theorem visit_results {A : Scan} {t : ℕ} {id other : String} (hne : other ≠ id) :
    (A.visit D C t id).results.get other = A.results.get other := by
  have hinsert : ∀ (m : OrdMap String (Except String ArtifactMap)) result,
      (m.insert id result).get other = m.get other := fun m result => OrdMap.get_insert_ne _ _ hne
  rw [Scan.visit]
  split
  · rfl
  · split
    · rfl
    · exact hinsert _ _
    · rfl
    · rw [Scan.begin]
      simp only
      split
      · rfl
      · split
        · rw [Scan.expand]
          split
          · rfl
          · exact hinsert _ _
        · rfl

/-- A visit without progress changed nothing and found the node waiting. -/
theorem visit_idle {A : Scan} {t : ℕ} {id : String}
    (hidle : (A.visit D C t id).progressed = false) : A.visit D C t id = A ∧
      ∀ node, A.state.nodes.get id = some node → C.readiness D A.state id node = .waiting := by
  rw [Scan.visit] at hidle ⊢
  cases hknown : A.state.nodes.get id with
  | none =>
    refine ⟨rfl, fun node hnode => ?_⟩
    cases hnode
  | some node =>
    rw [hknown] at hidle
    simp only at hidle ⊢
    cases hreadiness : C.readiness D A.state id node with
    | waiting =>
      refine ⟨rfl, fun node' hnode => ?_⟩
      cases hnode
      exact hreadiness
    | completing inputs children =>
      rw [hreadiness] at hidle
      cases hidle
    | upstreamMissing =>
      rw [hreadiness] at hidle
      cases hidle
    | ready inputs =>
      -- whatever a ready node meets is progress
      have hprogress : (A.begin D t id node inputs).progressed = true := by
        rw [Scan.begin]
        simp only
        split
        · rfl
        · split
          · rw [Scan.expand]
            split <;> rfl
          · rfl
      rw [hreadiness] at hidle
      exact absurd (hidle.symm.trans hprogress) Bool.false_ne_true

/-- A scan makes moves, or changes nothing. -/
theorem visits_moves {t : ℕ} {ids : List String} {A : Scan} (hnodup : ids.Nodup)
    (hunheard : ∀ id ∈ ids, A.results.get id = none) :
    ids.foldl (Scan.visit D C t) A = A ∨
      Relation.TransGen (Move D C) A (ids.foldl (Scan.visit D C t) A) := by
  induction ids generalizing A with
  | nil => exact .inl rfl
  | cons id ids ih =>
    obtain ⟨hnew, hnodup⟩ := List.nodup_cons.mp hnodup
    have hrest : ∀ other ∈ ids, (A.visit D C t id).results.get other = none := by
      intro other hother
      have hne : other ≠ id := by
        rintro rfl
        exact hnew hother
      rw [visit_results hne]
      exact hunheard other (List.mem_cons_of_mem _ hother)
    rw [List.foldl_cons]
    rcases visit_move (D := D) (C := C) (t := t) (hunheard id List.mem_cons_self) with hsame | hmove
    · rw [hsame] at hrest ⊢
      exact ih hnodup hrest
    · rcases ih hnodup hrest with hsame | hmoves
      · rw [hsame]
        exact .inr (.single hmove)
      · exact .inr (hmoves.head hmove)

theorem scan_moves {S : SchedulerState} {t : ℕ} (hnodup : S.order.Nodup) :
    C.scan D t S = ⟨S, .empty, [], false⟩ ∨
      Relation.TransGen (Move D C) ⟨S, .empty, [], false⟩ (C.scan D t S) :=
  visits_moves hnodup fun _ _ => rfl

/-- A scan without progress left the state and found every node waiting. -/
theorem visits_idle {t : ℕ} {ids : List String} {A : Scan}
    (hidle : (ids.foldl (Scan.visit D C t) A).progressed = false) :
    ids.foldl (Scan.visit D C t) A = A ∧ ∀ id ∈ ids, ∀ node, A.state.nodes.get id = some node →
      C.readiness D A.state id node = .waiting := by
  induction ids using List.reverseRecOn with
  | nil => exact ⟨rfl, fun id hid => absurd hid List.not_mem_nil⟩
  | append_singleton ids id ih =>
    rw [List.foldl_append, List.foldl_cons, List.foldl_nil] at hidle ⊢
    obtain ⟨hsame, hwaiting⟩ := visit_idle hidle
    rw [hsame] at hidle
    obtain ⟨hsame', hwaiting'⟩ := ih hidle
    rw [hsame] at *
    refine ⟨hsame', fun id' hid' => ?_⟩
    rcases List.mem_append.mp hid' with hid' | hid'
    · exact hwaiting' id' hid'
    · rw [List.mem_singleton] at hid'
      rw [hsame'] at hwaiting
      rw [hid']
      exact hwaiting

/-! ## Waves are moves -/

theorem receive_move {A : Scan} {t : ℕ} {id : String} :
    receive D t A id = A ∨ Move D C A (receive D t A id) := by
  rw [receive]
  split
  case h_1 inputs node hrunning hknown =>
    exact .inr (.reports t id node inputs hknown hrunning rfl rfl rfl)
  case h_2 => exact .inl rfl

theorem admission_move {A : Scan} {t : ℕ} {id : String} :
    admission D t A id = A ∨ Move D C A (admission D t A id) := by
  rw [admission]
  split
  case h_1 result node hheard hknown =>
    exact .inr (.publishes t id node result hknown hheard rfl rfl rfl)
  case h_2 => exact .inl rfl

/-- Steps that are moves or nothing, one after the other. -/
theorem foldl_moves {f : Scan → String → Scan} (hf : ∀ A id, f A id = A ∨ Move D C A (f A id))
    (ids : List String) (A : Scan) : Relation.ReflTransGen (Move D C) A (ids.foldl f A) := by
  induction ids generalizing A with
  | nil => exact .refl
  | cons id ids ih =>
    rw [List.foldl_cons]
    rcases hf A id with hsame | hmove
    · rw [hsame]
      exact ih A
    · exact (ih (f A id)).head hmove

theorem wave_moves (D : Dispatch) (C : Scheduler) (t : ℕ) (arrivals : List String) (A : Scan) :
    Relation.ReflTransGen (Move D C) A (wave D t arrivals A) :=
  (foldl_moves (fun _ _ => receive_move) arrivals A).trans
    (foldl_moves (fun _ _ => admission_move) _ _)

end Scheduler

end Afactory
