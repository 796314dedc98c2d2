import Mathlib
import Afactory.SchedulerStarts

/-!
# Runs of a scheduler

* `Sound`: everything a move keeps, and so does a chain of moves (`Sound.moves`);
* `wave_clean`, `wave_congr`: a wave ends with nothing running and nothing waiting, in the same
  state for every order of arrival;
* `measure_lt`: every move leaves less to do.
-/

namespace Afactory

namespace Scheduler

variable {D : Dispatch} {C : Scheduler} {A B : Scan} {T : List SchedulerEvent}

/-! ## Chains of moves -/

theorem Shape.moves (h : Shape D C A) (hmoves : Relation.ReflTransGen (Move D C) A B) :
    Shape D C B := by
  induction hmoves with
  | refl => exact h
  | tail _ hmove ih => exact ih.move hmove

/-- Only the state and the waiting results matter. -/
theorem Shape.congr (h : Shape D C A) (hstate : B.state = A.state)
    (hresults : B.results = A.results) : Shape D C B := by
  obtain ⟨S, results, events, progressed⟩ := A
  obtain ⟨S', results', events', progressed'⟩ := B
  cases hstate
  cases hresults
  exact ⟨h.nodup, h.mem_order, h.planned, h.child, h.owned, h.limits, h.resolved, h.running,
    h.heard, h.unusable, h.outputs⟩

/-- What every move keeps, of a scan and of the events up to it. -/
structure Sound (D : Dispatch) (C : Scheduler) (A : Scan) (T : List SchedulerEvent) : Prop where
  shape : Shape D C A
  told : Told D C A T
  branched : Branched A T
  launched : Launched D C A T

namespace Sound

theorem start (hplan : C.plan.Valid) : Sound D C ⟨C.start, .empty, [], false⟩ [] where
  shape := .start hplan
  told := by
    refine ⟨fun id o => ?_, nofun, nofun, fun id node _ hbusy => ?_, nofun⟩
    · constructor <;> nofun
    · rcases hbusy with ⟨_, h⟩ | ⟨_, h⟩ | ⟨_, h⟩ <;> cases h
  branched := by
    intro id
    constructor <;> nofun
  launched := ⟨nofun, .nil, legal_nil⟩

theorem moves (hplan : C.plan.Valid) (h : Sound D C A (T ++ A.events))
    (hmoves : Relation.ReflTransGen (Move D C) A B) : Sound D C B (T ++ B.events) := by
  induction hmoves with
  | refl => exact h
  | tail _ hmove ih =>
    obtain ⟨new, hnew, htold⟩ := ih.told.move ih.shape hmove
    rw [hnew, ← List.append_assoc]
    exact ⟨ih.shape.move hmove, htold, ih.branched.move ih.shape ih.told hmove hnew,
      ih.launched.move hplan ih.shape ih.told hmove hnew⟩

theorem congr (h : Sound D C A T) (hstate : B.state = A.state) (hresults : B.results = A.results) :
    Sound D C B T := by
  obtain ⟨hshape, ⟨hresolved, htouched, honce, hbegun, hexplained⟩, hbranched,
    ⟨hstarted, hrunning, hlegal⟩⟩ := h
  have hshape := hshape.congr hstate hresults
  obtain ⟨S, results, events, progressed⟩ := A
  obtain ⟨S', results', events', progressed'⟩ := B
  cases hstate
  cases hresults
  exact ⟨hshape, ⟨hresolved, htouched, honce, hbegun, hexplained⟩, hbranched,
    ⟨hstarted, hrunning, hlegal⟩⟩

end Sound

/-! ## Waves -/

/-- The result a running node reports. -/
def heard (D : Dispatch) (t : ℕ) (S : SchedulerState) (id : String) :
    Option (Except String ArtifactMap) :=
  (S.inFlight.get id).bind fun inputs => (S.nodes.get id).map fun node => D.run t node inputs

/-- What running nodes report, whatever the order. -/
theorem receives_spec (D : Dispatch) (t : ℕ) (ids : List String) (A : Scan)
    (hknown : ∀ id inputs, A.state.inFlight.get id = some inputs →
      ∃ node, A.state.nodes.get id = some node) :
    (∃ inFlight, (ids.foldl (receive D t) A).state = { A.state with inFlight := inFlight } ∧
      ∀ k, inFlight.get k = if k ∈ ids then none else A.state.inFlight.get k) ∧
      ∀ k, (ids.foldl (receive D t) A).results.get k =
        if k ∈ ids then (heard D t A.state k).or (A.results.get k) else A.results.get k := by
  induction ids generalizing A with
  | nil => exact ⟨⟨A.state.inFlight, rfl, by simp⟩, by simp⟩
  | cons id ids ih =>
    rw [List.foldl_cons, receive]
    cases hrunning : A.state.inFlight.get id with
    | none =>
      obtain ⟨⟨inFlight, hstate, hflight⟩, hresults⟩ := ih A hknown
      refine ⟨⟨inFlight, hstate, fun k => ?_⟩, fun k => ?_⟩
      · rw [hflight]
        by_cases hk : k = id <;> simp [hk, hrunning]
      · rw [hresults]
        by_cases hk : k = id <;> simp [hk, heard, hrunning]
    | some inputs =>
      obtain ⟨node, hnode⟩ := hknown id inputs hrunning
      rw [hnode]
      simp only
      obtain ⟨⟨inFlight, hstate, hflight⟩, hresults⟩ := ih { A with
        state := { A.state with inFlight := A.state.inFlight.erase id }
        results := A.results.insert id (D.run t node inputs)
        events := A.events ++ [.reported id] } (by
          intro k inputs' hk
          simp only [OrdMap.get_erase] at hk
          split_ifs at hk
          exact hknown k inputs' hk)
      refine ⟨⟨inFlight, hstate, fun k => ?_⟩, fun k => ?_⟩
      · rw [hflight]
        by_cases hk : k = id <;> simp [hk, OrdMap.get_erase]
      · rw [hresults]
        by_cases hk : k = id
        · simp [hk, heard, hrunning, hnode]
        · simp [hk, heard, OrdMap.get_erase, OrdMap.get_insert]

/-- Admitting nodes leaves none of their results waiting, and nothing else running. -/
theorem admissions_spec (D : Dispatch) (t : ℕ) (ids : List String) (A : Scan)
    (hknown : ∀ id r, A.results.get id = some r → ∃ node, A.state.nodes.get id = some node) :
    (ids.foldl (admission D t) A).state.inFlight = A.state.inFlight ∧
      ∀ k, (ids.foldl (admission D t) A).results.get k =
        if k ∈ ids then none else A.results.get k := by
  induction ids generalizing A with
  | nil => exact ⟨rfl, by simp⟩
  | cons id ids ih =>
    rw [List.foldl_cons, admission]
    cases hheard : A.results.get id with
    | none =>
      obtain ⟨hflight, hresults⟩ := ih A hknown
      refine ⟨hflight, fun k => ?_⟩
      rw [hresults]
      by_cases hk : k = id <;> simp [hk, hheard]
    | some r =>
      obtain ⟨node, hnode⟩ := hknown id r hheard
      rw [hnode]
      simp only
      obtain ⟨hflight, hresults⟩ := ih { A with
        state := A.state.resolve id (conclude D t id node r)
        results := A.results.erase id
        events := A.events ++ [.resolved id (conclude D t id node r)] } (by
          intro k r' hk
          simp only [OrdMap.get_erase] at hk
          split_ifs at hk
          simpa using hknown k r' hk)
      refine ⟨by rw [hflight, SchedulerState.resolve_inFlight], fun k => ?_⟩
      rw [hresults]
      by_cases hk : k = id <;> simp [hk, OrdMap.get_erase]

/-- What is admitted does not depend on the events before. -/
theorem admissions_congr {t : ℕ} {ids : List String} (hstate : A.state = B.state)
    (hresults : A.results = B.results) :
    (ids.foldl (admission D t) A).state = (ids.foldl (admission D t) B).state := by
  induction ids generalizing A B with
  | nil => exact hstate
  | cons id ids ih =>
    rw [List.foldl_cons, List.foldl_cons]
    apply ih
    · rw [admission, admission, hstate, hresults]
      split
      · rfl
      · exact hstate
    · rw [admission, admission, hstate, hresults]
      split
      · rfl
      · exact hresults

section Wave

variable {t : ℕ} {arrivals arrivals' : List String}

/-- Once all running nodes have reported, none runs, and what waits does not depend on the order
of arrival. -/
theorem received_spec (hshape : Shape D C A) (hall : ∀ k, k ∈ arrivals ↔ k ∈ A.state.inFlight.keys) :
    (arrivals.foldl (receive D t) A).state = { A.state with inFlight := .empty } ∧
      ∀ k, (arrivals.foldl (receive D t) A).results.get k =
        (heard D t A.state k).or (A.results.get k) := by
  obtain ⟨⟨inFlight, hstate, hflight⟩, hresults⟩ := receives_spec D t arrivals A
    fun id inputs hget => (hshape.running id inputs hget).1
  have hrest : ∀ k, k ∉ arrivals → A.state.inFlight.get k = none := by
    intro k hk
    rw [hall, OrdMap.mem_keys_iff] at hk
    cases hget : A.state.inFlight.get k with
    | none => rfl
    | some inputs => exact absurd ⟨inputs, hget⟩ hk
  constructor
  · have hempty : inFlight = .empty := by
      refine OrdMap.ext fun k => ?_
      rw [hflight]
      by_cases hk : k ∈ arrivals
      · rw [if_pos hk]
        rfl
      · rw [if_neg hk, hrest k hk]
        rfl
    rw [hstate, hempty]
  · intro k
    rw [hresults]
    by_cases hk : k ∈ arrivals
    · rw [if_pos hk]
    · rw [if_neg hk, heard, hrest k hk]
      rfl

/-- **A wave ends with nothing running and nothing waiting.** -/
theorem wave_clean (hshape : Shape D C A) (hall : ∀ k, k ∈ arrivals ↔ k ∈ A.state.inFlight.keys) :
    (wave D t arrivals A).state.inFlight = .empty ∧ (wave D t arrivals A).results = .empty := by
  obtain ⟨hstate, hresults⟩ := received_spec (t := t) hshape hall
  have hreceived : Shape D C (arrivals.foldl (receive D t) A) :=
    hshape.moves (foldl_moves (fun _ _ => receive_move) arrivals A)
  obtain ⟨hflight, hresults'⟩ := admissions_spec D t _ (arrivals.foldl (receive D t) A)
    fun id r hget => (hreceived.heard id r hget).1
  constructor
  · rw [wave]
    refine (hflight.trans ?_)
    rw [hstate]
  · rw [wave]
    refine OrdMap.ext fun k => (hresults' k).trans ?_
    split_ifs with hk
    · rfl
    · -- what is not in the order is not known, so it has no result
      cases hget : (arrivals.foldl (receive D t) A).results.get k with
      | none => rfl
      | some r =>
        refine absurd (List.mem_filter.mpr ⟨?_, OrdMap.contains_iff.mpr ⟨r, hget⟩⟩) hk
        exact (hreceived.mem_order k).mpr (hreceived.heard k r hget).1

/-- **A wave ends in the same state for every order of arrival.** -/
theorem wave_congr (hshape : Shape D C A)
    (hall : ∀ k, k ∈ arrivals ↔ k ∈ A.state.inFlight.keys)
    (hall' : ∀ k, k ∈ arrivals' ↔ k ∈ A.state.inFlight.keys) :
    (wave D t arrivals A).state = (wave D t arrivals' A).state := by
  obtain ⟨hstate, hresults⟩ := received_spec (t := t) hshape hall
  obtain ⟨hstate', hresults'⟩ := received_spec (t := t) hshape hall'
  have hsame : (arrivals.foldl (receive D t) A).state =
      (arrivals'.foldl (receive D t) A).state := hstate.trans hstate'.symm
  have hheard : (arrivals.foldl (receive D t) A).results =
      (arrivals'.foldl (receive D t) A).results :=
    OrdMap.ext fun k => (hresults k).trans (hresults' k).symm
  rw [wave, wave, hsame, hheard]
  exact admissions_congr hsame hheard

end Wave

/-! ## What is left to do -/

/-- Counts a node that was neither resolved nor has registered children. -/
def undecided (S : SchedulerState) (id : String) : ℕ :=
  if S.outcomes.contains id || S.owners.contains id then 0 else 1

/-- How far a node is from its outcome. -/
def distance (A : Scan) (id : String) : ℕ :=
  if A.state.outcomes.contains id then 0
  else if A.results.contains id then 1
  else if A.state.inFlight.contains id then 2
  else 3

/-- The undecided nodes, then how far all nodes are from their outcomes: registering children
adds nodes, but decides one. -/
def toDo (C : Scheduler) (A : Scan) : ℕ ×ₗ ℕ :=
  toLex ((C.plan.order.map (undecided A.state)).sum, (A.state.order.map (distance A)).sum)

theorem distance_congr {k : String} (houtcomes : B.state.outcomes.get k = A.state.outcomes.get k)
    (hresults : B.results.get k = A.results.get k)
    (hrunning : B.state.inFlight.get k = A.state.inFlight.get k) : distance B k = distance A k := by
  rw [distance, distance, OrdMap.contains, OrdMap.contains, OrdMap.contains, houtcomes, hresults,
    hrunning]
  rfl

/-- One node comes nearer to its outcome. -/
theorem less_of_distance {id : String} (hid : id ∈ A.state.order)
    (horder : B.state.order = A.state.order)
    (hundecided : ∀ k, undecided B.state k ≤ undecided A.state k)
    (hothers : ∀ k, k ≠ id → distance B k = distance A k)
    (hself : distance B id < distance A id) : toDo C B < toDo C A := by
  have hsum : (B.state.order.map (distance B)).sum < (A.state.order.map (distance A)).sum := by
    rw [horder]
    refine List.sum_lt_sum _ _ (fun k _ => ?_) ⟨id, hid, hself⟩
    by_cases hk : k = id
    · rw [hk]
      exact hself.le
    · exact (hothers k hk).le
  have hcount : (C.plan.order.map (undecided B.state)).sum ≤
      (C.plan.order.map (undecided A.state)).sum := List.sum_le_sum fun k _ => hundecided k
  rw [toDo, toDo, Prod.Lex.toLex_lt_toLex]
  rcases hcount.lt_or_eq with hlt | heq
  · exact .inl hlt
  · exact .inr ⟨heq, hsum⟩

/-- A resolved node is as near as can be. -/
theorem less_of_resolve {id : String} {o : NodeOutcome} (hid : id ∈ A.state.order)
    (hunresolved : A.state.outcomes.get id = none) (hstate : B.state = A.state.resolve id o)
    (hresults : ∀ k, k ≠ id → B.results.get k = A.results.get k) :
    toDo C B < toDo C A := by
  refine less_of_distance hid (by rw [hstate]; simp) (fun k => ?_) (fun k hk => ?_) ?_
  · by_cases hk : k = id
    · simp [undecided, hstate, OrdMap.contains, hk]
    · simp [undecided, hstate, OrdMap.contains, OrdMap.get_insert, hk]
  · refine distance_congr ?_ (hresults k hk) (by rw [hstate]; simp)
    rw [hstate, SchedulerState.resolve_outcomes]
    exact OrdMap.get_insert_ne _ _ hk
  · have hpos : 0 < distance A id := by
      rw [distance, OrdMap.contains, hunresolved]
      simp only [Option.isSome_none, Bool.false_eq_true, if_false]
      split_ifs <;> omega
    have hzero : distance B id = 0 := by
      rw [distance, hstate, SchedulerState.resolve_outcomes, OrdMap.contains, OrdMap.get_insert_self]
      rfl
    omega

/-- **Every move leaves less to do.** -/
theorem measure_lt (hplan : C.plan.Valid) (hshape : Shape D C A) (hmove : Move D C A B) :
    toDo C B < toDo C A := by
  have hlisted : ∀ {id node}, A.state.nodes.get id = some node → id ∈ A.state.order :=
    fun hknown => (hshape.mem_order _).mpr ⟨_, hknown⟩
  cases hmove with
  | dooms id node hidle _ hstate hresults _ =>
    exact less_of_resolve (hlisted hidle.known) hidle.unresolved hstate (by simp [hresults])
  | refuses t id node outcome hidle _ _ hstate hresults _ =>
    exact less_of_resolve (hlisted hidle.known) hidle.unresolved hstate (by simp [hresults])
  | launches t id node hidle _ _ _ hstate hresults _ =>
    refine less_of_distance (hlisted hidle.known) (by rw [hstate]) (by simp [hstate, undecided])
      (fun k hk => distance_congr (by rw [hstate]) (by rw [hresults]) ?_) ?_
    · rw [hstate]
      exact OrdMap.get_insert_ne _ _ hk
    · simp [distance, OrdMap.contains, hstate, hresults, hidle.unresolved, hidle.unheard,
        hidle.resting]
  | registers t id node children hidle _ _ howner hvalid hstate hresults _ =>
    -- an owner is a planned node, and no longer undecided
    have hplanned : id ∈ C.plan.order := by
      simp only [coordinates, isChild, Bool.and_eq_true, Bool.not_eq_true', OrdMap.contains,
        Option.isSome_eq_false_iff, Option.isNone_iff_eq_none] at howner
      rw [hplan.mem_order]
      cases hget : C.plan.nodes.get id with
      | some planned => exact ⟨planned, rfl⟩
      | none =>
        obtain ⟨given, hgiven⟩ := hshape.child id node hidle.known hget
        cases howner.1.symm.trans hgiven
    have howners : ∀ k, B.state.owners.contains k = (k == id || A.state.owners.contains k) := by
      intro k
      rw [hstate, register, OrdMap.contains, OrdMap.contains, OrdMap.get_insert]
      by_cases hk : k = id <;> simp [hk]
    have houtcomes : B.state.outcomes = A.state.outcomes := by
      rw [hstate]
      rfl
    rw [toDo, toDo, Prod.Lex.toLex_lt_toLex]
    refine .inl (List.sum_lt_sum _ _ (fun k _ => ?_) ⟨id, hplanned, ?_⟩)
    · rw [undecided, undecided, houtcomes, howners]
      by_cases hk : k = id <;> simp [hk]
    · rw [undecided, undecided, houtcomes, howners]
      simp [OrdMap.contains, hidle.unresolved, hidle.unowned]
  | spoils t id node error hidle _ _ _ hstate hresults _ =>
    refine less_of_distance (hlisted hidle.known) (by rw [hstate]) (by simp [hstate])
      (fun k hk => distance_congr (by rw [hstate]) ?_ (by rw [hstate])) ?_
    · rw [hresults]
      exact OrdMap.get_insert_ne _ _ hk
    · simp [distance, OrdMap.contains, hstate, hresults, hidle.unresolved, hidle.unheard,
        hidle.resting]
  | folds id node result inputs children hknown hunresolved hresting _ _ hunheard hstate
      hresults _ =>
    refine less_of_distance (hlisted hknown) (by rw [hstate]) (by simp [hstate])
      (fun k hk => distance_congr (by rw [hstate]) ?_ (by rw [hstate])) ?_
    · rw [hresults]
      exact OrdMap.get_insert_ne _ _ hk
    · simp [distance, OrdMap.contains, hstate, hresults, hunresolved, hunheard, hresting]
  | reports t id node inputs hknown hrunning hstate hresults _ =>
    obtain ⟨-, hunresolved, -, hunheard⟩ := hshape.running id inputs hrunning
    refine less_of_distance (hlisted hknown) (by rw [hstate]) (by simp [hstate, undecided])
      (fun k hk => distance_congr (by rw [hstate]) ?_ ?_) ?_
    · rw [hresults]
      exact OrdMap.get_insert_ne _ _ hk
    · rw [hstate, OrdMap.get_erase, if_neg hk]
    · simp [distance, OrdMap.contains, hstate, hresults, hunresolved, hunheard, hrunning]
  | publishes t id node result hknown hheard hstate hresults _ =>
    refine less_of_resolve (hlisted hknown) (hshape.heard id result hheard).2 hstate fun k hk => ?_
    rw [hresults, OrdMap.get_erase, if_neg hk]

theorem less_of_moves (hplan : C.plan.Valid) (hshape : Shape D C A)
    (hmoves : Relation.TransGen (Move D C) A B) : toDo C B < toDo C A := by
  induction hmoves with
  | single hmove => exact measure_lt hplan hshape hmove
  | tail hmoves hmove ih =>
    exact (measure_lt hplan (hshape.moves hmoves.to_reflTransGen) hmove).trans ih

end Scheduler

end Afactory
