import Mathlib
import Afactory.ChargeLedgers

/-!
# Who may dispatch

A Task dispatches under an admitted plan. About twenty transitions touch the plan, the phase, the
pause or the decisions; `PlanMove` says once what each may do to them.

* `Standing`: the plan, its admission and decisions, the phase and the pause;
* `PlanMove`, `applyEvent_moves`: what one accepted event does to the standing;
* `DecisionsBound`: each decision is the one its plan was given;
* `dispatch_authority`: every dispatching record has an approved, admitted plan before its
  deadline, and a revoked plan never dispatches again.
-/

namespace Afactory

namespace TaskState

variable {cas : Cas} {S S' : TaskState} {e : RunEvent}

/-- The fields of a Task that say whether it may dispatch. -/
structure Standing where
  planId : Option String
  phase : TaskPhase
  admitted : Bool
  resumePhase : Option TaskPhase
  decisions : OrdMap String Decision
  clockStartedUnixMs : Option ℕ

def standing (S : TaskState) : Standing :=
  ⟨S.planId, S.phase, S.admitted, S.resumePhase, S.decisions, S.clockStartedUnixMs⟩

/-- A plan that waits to be admitted: for its review, or for its admission alone. -/
def Proposed (phase : TaskPhase) : Prop := phase = .waiting .needsPlanReview ∨ phase = .ready

/-- The change an event records, if it is a transition. -/
def change (e : RunEvent) : Option TaskChange :=
  match e.payload with
  | .transition t => some t.change
  | _ => none

/-- The time an event is judged at. -/
def eventTime (S : TaskState) (e : RunEvent) : ℕ :=
  S.leaseTime e.payload.writer e.payload.epoch e.payload.nowUnixMs

/-- What an accepted event does to the standing. -/
inductive PlanMove (cas : Cas) (S : TaskState) (e : RunEvent) (S' : TaskState) : Prop where
  | keeps (h : S'.standing = S.standing)
    (hother : ∀ c, change e = some c → (∀ p, c ≠ .planAdmitted p) ∧
      (∀ id, c ≠ .executionRecorded id) ∧ (∀ a b d, c ≠ .approvalRevoked a b d) ∧
      ∀ a b d, c ≠ .sourceRefreshed a b d)
  | proposes (planId : String) (phase : TaskPhase) (hchange : change e = some (.planProposed planId))
    (hadmitted : S.admitted = false) (hphase : Proposed phase)
    (h : S'.standing = { S.standing with
      phase := phase, planId := some planId, resumePhase := none })
  | decides (decisionId : String) (validUntil : ℕ) (value : PlanDecision)
    (hchange : change e = some (.planDecided decisionId validUntil))
    (hread : cas.planDecision decisionId = .ok value)
    (hnew : S.decisions.contains value.planId = false)
    (h : S'.standing = { S.standing with
      decisions := S.decisions.insert value.planId ⟨decisionId, value, validUntil, none, e⟩ })
  | revokes (decisionId reason revocationId key : String) (d : Decision)
    (revocation : PlanDecision × RunEvent)
    (hchange : change e = some (.approvalRevoked decisionId reason revocationId))
    (hfound : S.decisions.get key = some d) (hid : d.artifactId = decisionId)
    (h : S'.standing = if S.planId = some d.value.planId then { S.standing with
        decisions := S.decisions.insert key { d with revocation := some revocation }
        admitted := false, phase := .waiting .needsPlanReview, resumePhase := none }
      else { S.standing with
        decisions := S.decisions.insert key { d with revocation := some revocation } })
  | admits (planId : String) (hchange : change e = some (.planAdmitted planId))
    (hphase : Proposed S.phase) (hplan : S.planId = some planId)
    (happroval : S.checkApproval cas (S.eventTime e) = .ok ())
    (h : S'.standing = { S.standing with
      admitted := true
      clockStartedUnixMs := some (S.clockStartedUnixMs.getD (S.eventTime e))
      phase := .running
      resumePhase := none })
  | pauses (reason : TaskWaitingReason) (hchange : change e = some (.waiting reason))
    (hnone : S.resumePhase = none) (hreason : reason ≠ .needsPlanReview)
    (h : S'.standing = { S.standing with
      resumePhase := some S.phase, phase := .waiting reason })
  | resumes (prior : TaskPhase) (hchange : change e = some .resumed)
    (hprior : S.resumePhase = some prior)
    (h : S'.standing = { S.standing with resumePhase := none, phase := prior })
  | resumesRecording (revisionId planId reportId : String)
    (hchange : change e = some (.recordingResumed revisionId planId reportId))
    (hadmitted : S.admitted = true) (hphase : S.phase = .waiting .needsHuman)
    (hprior : S.resumePhase = some .running)
    (h : S'.standing = { S.standing with resumePhase := none, phase := .running })
  | finishes (resultId : String) (hchange : change e = some (.finished resultId))
    (h : S'.standing = { S.standing with phase := .finished resultId })
  | records (recordId : String) (record : ExecutionRecord) (E : TaskExecutionProjection)
    (hchange : change e = some (.executionRecorded recordId))
    (hread : cas.executionRecord recordId = .ok record)
    (hcheck : S.checkRecord cas (S.eventTime e) record = .ok ())
    (hE : S'.execution = some E)
    (h : S'.standing = { S.standing with phase := S.recordedPhase E record })
  | handsOver (planId : String) (phase : TaskPhase)
    (hchange : (∃ id, change e = some (.reviewContinued id)) ∨
      ∃ a b c, change e = some (.planningCompleted a b c planId))
    (hadmitted : S.admitted = true) (hrunning : S.phase = .running) (hphase : Proposed phase)
    (h : S'.standing = { S.standing with
      planId := some planId, admitted := false, resumePhase := none, phase := phase })
  | refreshes (revisionId : String) (planId : Option String) (waiting : Option TaskWaitingReason)
    (phase : TaskPhase) (hchange : change e = some (.sourceRefreshed revisionId planId waiting))
    (h : S'.standing = { S.standing with
      planId := planId, admitted := false, resumePhase := none, phase := phase })
  | retriesGates (retry : GateRetried) (hpayload : e.payload = .gateRetried retry)
    (hfinished : S.phase = .finished retry.resultId) (hadmitted : S.admitted = true)
    (h : S'.standing = { S.standing with phase := .running })

/-! ## One event -/

theorem proposed_proposedPhase (plan : ExecutionPlan) : Proposed (proposedPhase plan) := by
  unfold proposedPhase
  split_ifs
  · exact .inl rfl
  · exact .inr rfl

/-- The changes that leave the standing alone. -/
def KeepsStanding : TaskChange → Prop
  | .reviewIntegrationSelected _ | .reviewIntegrationFinished _ _ _ | .deliveryRecorded _
  | .adoptionObservationRecorded _ | .runReported _ | .gateCleanup _ | .storageSweep _
  | .leaseRenewed _ | .leaseReleased => True
  | _ => False

theorem applyChange_keeps {change : TaskChange} {time : ℕ} (hkeep : KeepsStanding change) :
    Yields (fun T => T.standing = S.standing) (S.applyChange cas e change time) := by
  cases change <;> simp only [KeepsStanding] at hkeep <;> simp only [applyChange]
  all_goals
    try simp only [selectIntegration, finishIntegration, recordAdoption, applyRunReport,
      applyDelivery, renewLease, releaseLease]
    repeat' first
      | exact Yields.error
      | exact Yields.throw
      | refine Yields.bind fun _ _ => ?_
      | exact Yields.pure rfl
      | split

theorem finish_standing (resultId : String) :
    Yields (fun T => T.standing = { S.standing with phase := .finished resultId })
      (S.finish cas resultId) := by
  unfold finish
  repeat' first
    | exact Yields.error
    | exact Yields.throw
    | refine Yields.bind fun _ _ => ?_
    | exact Yields.pure rfl
    | split

/-- **One transition.** What a change of the current writer does to the standing. -/
theorem applyChange_moves {t : TaskTransition} (hpay : e.payload = .transition t) {T : TaskState}
    (h : S.applyChange cas e t.change (S.writerTime t) = .ok T)
    (hS' : S'.standing = T.standing) (hexec : S'.execution = T.execution) :
    PlanMove cas S e S' := by
  have hchange : change e = some t.change := by rw [change, hpay]
  have htime : S.eventTime e = S.writerTime t := by rw [eventTime, hpay]; rfl
  rw [← htime] at h
  obtain ⟨writer, epoch, now, c⟩ := t
  simp only at h hchange
  by_cases hkeep : KeepsStanding c
  · refine .keeps (hS'.trans (applyChange_keeps hkeep T h)) ?_
    rintro c' hc'
    rw [hchange] at hc'
    cases hc'
    refine ⟨?_, ?_, ?_, ?_⟩ <;> intros <;> rintro rfl <;> exact hkeep
  cases c with
  | reviewIntegrationSelected _ => exact absurd trivial hkeep
  | reviewIntegrationFinished _ _ _ => exact absurd trivial hkeep
  | deliveryRecorded _ => exact absurd trivial hkeep
  | adoptionObservationRecorded _ => exact absurd trivial hkeep
  | runReported _ => exact absurd trivial hkeep
  | gateCleanup _ => exact absurd trivial hkeep
  | storageSweep _ => exact absurd trivial hkeep
  | leaseRenewed _ => exact absurd trivial hkeep
  | leaseReleased => exact absurd trivial hkeep
  | opened _ _ => cases h
  | leaseTaken _ => cases h
  | taskCollected _ => cases h
  | recordingResumed revisionId planId reportId =>
    obtain ⟨recovery, hvalid, h⟩ := bind_eq_ok.mp h
    obtain ⟨_, -, h⟩ := bind_eq_ok.mp h
    cases h
    obtain ⟨_, hpause, -⟩ := bind_eq_ok.mp hvalid
    have hpause := requireConflict_eq_ok.mp hpause
    simp only [Bool.and_eq_true, decide_eq_true_eq] at hpause
    exact .resumesRecording revisionId planId reportId hchange hpause.1.1.1.1.1.1
      hpause.1.1.1.1.1.2 hpause.1.1.1.1.2 hS'
  | reviewContinued id =>
    obtain ⟨handoff, -, h⟩ := bind_eq_ok.mp h
    obtain ⟨⟨previous, next, oldRound, newRound⟩, -, h⟩ := bind_eq_ok.mp h
    obtain ⟨_, hguard, h⟩ := bind_eq_ok.mp h
    obtain ⟨_, -, h⟩ := bind_eq_ok.mp h
    obtain ⟨_, -, h⟩ := bind_eq_ok.mp h
    obtain ⟨_, -, h⟩ := bind_eq_ok.mp h
    obtain ⟨plan, -, h⟩ := bind_eq_ok.mp h
    obtain ⟨_, -, h⟩ := bind_eq_ok.mp h
    obtain ⟨_, -, h⟩ := bind_eq_ok.mp h
    obtain ⟨_, -, h⟩ := bind_eq_ok.mp h
    obtain ⟨execution, -, h⟩ := bind_eq_ok.mp h
    cases h
    have hguard := requireConflict_eq_ok.mp hguard
    simp only [Bool.and_eq_true, decide_eq_true_eq] at hguard
    exact .handsOver handoff.successorPlanId _ (.inl ⟨id, hchange⟩) hguard.1.2 hguard.2
      (proposed_proposedPhase plan) hS'
  | sourceRefreshed revisionId planId waiting =>
    obtain ⟨next, -, h⟩ := bind_eq_ok.mp h
    obtain ⟨_, -, h⟩ := bind_eq_ok.mp h
    obtain ⟨target, -, h⟩ := bind_eq_ok.mp h
    obtain ⟨execution, -, h⟩ := bind_eq_ok.mp h
    cases target with
    | inl id =>
      obtain ⟨plan, -, h⟩ := bind_eq_ok.mp h
      obtain ⟨_, -, h⟩ := bind_eq_ok.mp h
      obtain ⟨_, -, h⟩ := bind_eq_ok.mp h
      obtain ⟨_, -, h⟩ := bind_eq_ok.mp h
      obtain ⟨_, -, h⟩ := bind_eq_ok.mp h
      cases h
      exact .refreshes revisionId planId waiting _ hchange hS'
    | inr reason =>
      cases h
      exact .refreshes revisionId planId waiting _ hchange hS'
  | planProposed planId =>
    obtain ⟨_, hguard, h⟩ := bind_eq_ok.mp h
    obtain ⟨plan, -, h⟩ := bind_eq_ok.mp h
    cases h
    have hguard := requireConflict_eq_ok.mp hguard
    simp only [Bool.and_eq_true, Bool.not_eq_true'] at hguard
    exact .proposes planId _ hchange hguard.1 (proposed_proposedPhase plan) hS'
  | planningCompleted bootstrapPlanId proposalId revisionId planId =>
    obtain ⟨_, -, h⟩ := bind_eq_ok.mp h
    obtain ⟨proof, hproof, h⟩ := bind_eq_ok.mp h
    obtain ⟨_, -, h⟩ := bind_eq_ok.mp h
    obtain ⟨next, -, h⟩ := bind_eq_ok.mp h
    obtain ⟨_, -, h⟩ := bind_eq_ok.mp h
    obtain ⟨plan, -, h⟩ := bind_eq_ok.mp h
    obtain ⟨_, -, h⟩ := bind_eq_ok.mp h
    obtain ⟨graph, -, h⟩ := bind_eq_ok.mp h
    obtain ⟨_, -, h⟩ := bind_eq_ok.mp h
    obtain ⟨_, -, h⟩ := bind_eq_ok.mp h
    obtain ⟨_, -, h⟩ := bind_eq_ok.mp h
    obtain ⟨_, -, h⟩ := bind_eq_ok.mp h
    obtain ⟨_, -, h⟩ := bind_eq_ok.mp h
    cases h
    -- the Planner's barrier is crossed by an admitted, running bootstrap only
    obtain ⟨_, -, hproof⟩ := bind_eq_ok.mp hproof
    obtain ⟨_, -, hproof⟩ := bind_eq_ok.mp hproof
    obtain ⟨_, hguard, -⟩ := bind_eq_ok.mp hproof
    have hguard := requireConflict_eq_ok.mp hguard
    simp only [Bool.and_eq_true, decide_eq_true_eq] at hguard
    exact .handsOver planId _ (.inr ⟨_, _, _, hchange⟩) hguard.1.2 hguard.2 (.inl rfl) hS'
  | planDecided decisionId validUntil =>
    obtain ⟨value, hread, h⟩ := bind_eq_ok.mp h
    obtain ⟨_, hguard, h⟩ := bind_eq_ok.mp h
    cases h
    have hguard := requireConflict_eq_ok.mp hguard
    simp only [Bool.and_eq_true, decide_eq_true_eq, Bool.not_eq_true'] at hguard
    exact .decides decisionId validUntil value hchange hread hguard.2 hS'
  | approvalRevoked decisionId reason revocationId =>
    obtain ⟨⟨key, d⟩, hfound, h⟩ := bind_eq_ok.mp h
    obtain ⟨revocation, -, h⟩ := bind_eq_ok.mp h
    obtain ⟨_, -, h⟩ := bind_eq_ok.mp h
    cases h
    have hfound := orConflict_eq_ok.mp hfound
    have hmem := List.mem_of_find?_eq_some hfound
    have hid := List.find?_some hfound
    refine .revokes decisionId reason revocationId key d (revocation, e) hchange
      (OrdMap.mem_iff_get.mp hmem) (of_decide_eq_true hid) ?_
    rw [hS']
    split_ifs <;> rfl
  | planAdmitted planId =>
    obtain ⟨_, hphase, h⟩ := bind_eq_ok.mp h
    obtain ⟨_, hplan, h⟩ := bind_eq_ok.mp h
    obtain ⟨_, happroval, h⟩ := bind_eq_ok.mp h
    cases h
    have hphase := requireConflict_eq_ok.mp hphase
    have hplan := of_decide_eq_true (requireConflict_eq_ok.mp hplan)
    simp only [Bool.or_eq_true, decide_eq_true_eq] at hphase
    exact .admits planId hchange hphase.symm hplan happroval hS'
  | waiting reason =>
    obtain ⟨_, hnone, h⟩ := bind_eq_ok.mp h
    obtain ⟨_, hreason, h⟩ := bind_eq_ok.mp h
    cases h
    have hnone := requireConflict_eq_ok.mp hnone
    have hreason := of_decide_eq_true (requireConflict_eq_ok.mp hreason)
    exact .pauses reason hchange (Option.isNone_iff_eq_none.mp hnone) hreason hS'
  | resumed =>
    obtain ⟨prior, hprior, h⟩ := bind_eq_ok.mp h
    obtain ⟨_, -, h⟩ := bind_eq_ok.mp h
    cases h
    exact .resumes prior hchange (orConflict_eq_ok.mp hprior) hS'
  | finished resultId =>
    exact .finishes resultId hchange (hS'.trans (finish_standing resultId T h))
  | executionRecorded recordId =>
    obtain ⟨record, hread, h⟩ := bind_eq_ok.mp h
    obtain ⟨_, hcheck, h⟩ := bind_eq_ok.mp h
    obtain ⟨_, -, h⟩ := bind_eq_ok.mp h
    obtain ⟨_, -, h⟩ := bind_eq_ok.mp h
    obtain ⟨E, -, h⟩ := bind_eq_ok.mp h
    cases h
    exact .records recordId record E hchange hread hcheck hexec hS'

/-- **One event.** What an accepted event of any kind does to the standing. -/
theorem applyEvent_moves (h : S.applyEvent cas e = .ok S') : PlanMove cas S e S' := by
  unfold applyEvent at h
  split at h
  case h_1 t hpay =>
    obtain ⟨_, T, -, -, -, -, hT, rfl⟩ := apply_eq_ok h
    obtain ⟨leaseUntilUnixMs, hchange, hT⟩ | ⟨-, -, hT⟩ := applyLeased_eq_ok hT
    · obtain ⟨_, -, hT⟩ := bind_eq_ok.mp hT
      cases hT
      refine .keeps rfl ?_
      intro c hc
      rw [change, hpay, Option.some.injEq, hchange] at hc
      subst hc
      exact ⟨nofun, nofun, nofun, nofun⟩
    · exact applyChange_moves hpay hT rfl rfl
  case h_2 marker hpay =>
    obtain ⟨_, -, h⟩ := bind_eq_ok.mp h
    obtain ⟨_, -, h⟩ := bind_eq_ok.mp h
    obtain ⟨_, -, h⟩ := bind_eq_ok.mp h
    obtain ⟨_, -, h⟩ := bind_eq_ok.mp h
    obtain ⟨_, -, h⟩ := bind_eq_ok.mp h
    obtain ⟨_, -, h⟩ := bind_eq_ok.mp h
    cases h
    refine .keeps rfl ?_
    intro c hc
    rw [change, hpay] at hc
    cases hc
  case h_3 retry hpay =>
    obtain ⟨_, -, h⟩ := bind_eq_ok.mp h
    obtain ⟨_, -, h⟩ := bind_eq_ok.mp h
    obtain ⟨_, -, h⟩ := bind_eq_ok.mp h
    obtain ⟨_, hcheck, h⟩ := bind_eq_ok.mp h
    obtain ⟨_, -, h⟩ := bind_eq_ok.mp h
    obtain ⟨_, -, h⟩ := bind_eq_ok.mp h
    obtain ⟨_, -, h⟩ := bind_eq_ok.mp h
    obtain ⟨_, -, h⟩ := bind_eq_ok.mp h
    cases h
    obtain ⟨_, -, hcheck⟩ := bind_eq_ok.mp hcheck
    obtain ⟨_, hfinished, hcheck⟩ := bind_eq_ok.mp hcheck
    obtain ⟨_, hadmitted, -⟩ := bind_eq_ok.mp hcheck
    exact .retriesGates retry hpay (of_decide_eq_true (requireConflict_eq_ok.mp hfinished))
      (requireConflict_eq_ok.mp hadmitted) rfl
  case h_4 value hpay =>
    obtain ⟨_, -, h⟩ := bind_eq_ok.mp h
    obtain ⟨_, -, h⟩ := bind_eq_ok.mp h
    obtain ⟨_, -, h⟩ := bind_eq_ok.mp h
    obtain ⟨_, -, h⟩ := bind_eq_ok.mp h
    obtain ⟨_, -, h⟩ := bind_eq_ok.mp h
    cases h
    refine .keeps rfl ?_
    intro c hc
    rw [change, hpay] at hc
    cases hc

/-! ## Decisions -/

/-- Each decision stands under the plan it decides and is the artifact it names, and an admitted
plan has started the clock. -/
structure DecisionsBound (cas : Cas) (S : TaskState) : Prop where
  key : ∀ key d, S.decisions.get key = some d →
    d.value.planId = key ∧ cas.planDecision d.artifactId = .ok d.value
  clock : S.admitted = true → S.clockStartedUnixMs.isSome = true

theorem DecisionsBound.of_eq (h : S.DecisionsBound cas)
    (hdecisions : S'.decisions = S.decisions)
    (hclock : S'.admitted = true → S'.clockStartedUnixMs.isSome = true) :
    S'.DecisionsBound cas where
  key := by
    rw [hdecisions]
    exact h.key
  clock := hclock

/-- Only the admission and the clock it starts matter for the rest. -/
theorem DecisionsBound.of_standing (h : S.DecisionsBound cas) {s : Standing}
    (hs : S'.standing = s) (hdecisions : s.decisions = S.decisions)
    (hclock : s.clockStartedUnixMs = S.clockStartedUnixMs)
    (hadmitted : s.admitted = true → S.admitted = true) : S'.DecisionsBound cas := by
  subst hs
  refine h.of_eq hdecisions ?_
  intro ha
  show S'.standing.clockStartedUnixMs.isSome = true
  rw [hclock]
  exact h.clock (hadmitted ha)

theorem DecisionsBound.step (h : S.DecisionsBound cas) (hmove : PlanMove cas S e S') :
    S'.DecisionsBound cas := by
  cases hmove with
  | keeps hs _ => exact h.of_standing hs rfl rfl id
  | proposes _ _ _ _ _ hs => exact h.of_standing hs rfl rfl id
  | pauses _ _ _ _ hs => exact h.of_standing hs rfl rfl id
  | resumes _ _ _ hs => exact h.of_standing hs rfl rfl id
  | resumesRecording _ _ _ _ _ _ _ hs => exact h.of_standing hs rfl rfl id
  | finishes _ _ hs => exact h.of_standing hs rfl rfl id
  | records _ _ _ _ _ _ _ hs => exact h.of_standing hs rfl rfl id
  | handsOver _ _ _ _ _ _ hs => exact h.of_standing hs rfl rfl nofun
  | refreshes _ _ _ _ _ hs => exact h.of_standing hs rfl rfl nofun
  | retriesGates _ _ _ _ hs => exact h.of_standing hs rfl rfl id
  | admits planId _ _ _ _ hs =>
    refine h.of_eq (congrArg Standing.decisions hs) fun _ => ?_
    rw [show S'.clockStartedUnixMs = _ from congrArg Standing.clockStartedUnixMs hs]
    rfl
  | decides decisionId validUntil value _ hread _ hs =>
    have hdecisions : S'.decisions = _ := congrArg Standing.decisions hs
    have hadmitted : S'.admitted = S.admitted := congrArg Standing.admitted hs
    have hclock : S'.clockStartedUnixMs = S.clockStartedUnixMs :=
      congrArg Standing.clockStartedUnixMs hs
    refine ⟨?_, by rw [hadmitted, hclock]; exact h.clock⟩
    intro key d hd
    rw [hdecisions, OrdMap.get_insert] at hd
    split_ifs at hd with hkey
    · cases hd
      exact ⟨hkey.symm, hread⟩
    · exact h.key key d hd
  | revokes decisionId reason revocationId key d revocation _ hfound _ hs =>
    have hdecisions : S'.decisions =
        S.decisions.insert key { d with revocation := some revocation } := by
      have hsame := congrArg Standing.decisions hs
      split_ifs at hsame <;> exact hsame
    have hadmitted : S'.admitted = true → S.admitted = true := by
      intro ha
      have hsame := congrArg Standing.admitted hs
      split_ifs at hsame
      · exact absurd (ha.symm.trans hsame) Bool.noConfusion
      · exact hsame.symm.trans ha
    have hclock : S'.clockStartedUnixMs = S.clockStartedUnixMs := by
      have hsame := congrArg Standing.clockStartedUnixMs hs
      split_ifs at hsame <;> exact hsame
    refine ⟨?_, fun ha => by rw [hclock]; exact h.clock (hadmitted ha)⟩
    intro k d' hd'
    rw [hdecisions, OrdMap.get_insert] at hd'
    split_ifs at hd' with hk
    · cases hd'
      rw [hk]
      exact h.key key d hfound
    · exact h.key k d' hd'

theorem decisionsBound_genesis (taskId revisionId : String) (revision : TaskRevision)
    (t : TaskTransition) (leaseUntil : ℕ) :
    (genesis taskId revisionId revision t leaseUntil).DecisionsBound cas where
  key := by
    intro key d hd
    cases hd
  clock := nofun

theorem decisionsBound_run {events : List RunEvent} (h : S.DecisionsBound cas)
    (hrun : run (step cas) S events = some S') : S'.DecisionsBound cas := by
  refine run_invariant (P := DecisionsBound cas) ?_ h hrun
  intro S e S' h hstep
  exact h.step (applyEvent_moves (step_eq_some.mp hstep))

/-! ## Revoked plans -/

/-- The approval of a plan was revoked. -/
def Revoked (S : TaskState) (planId : String) : Prop :=
  ∃ d, S.decisions.get planId = some d ∧ d.revocation.isSome = true

/-- A revoked plan stays revoked. -/
theorem Revoked.step {planId : String} (h : S.Revoked planId) (hmove : PlanMove cas S e S') :
    S'.Revoked planId := by
  obtain ⟨d, hd, hrevoked⟩ := h
  have hkept : ∀ s : Standing, S'.standing = s → s.decisions = S.decisions →
      S'.Revoked planId := by
    rintro s rfl hs
    refine ⟨d, ?_, hrevoked⟩
    rw [show S'.decisions = S.decisions from hs]
    exact hd
  cases hmove with
  | keeps hs _ => exact hkept _ hs rfl
  | proposes _ _ _ _ _ hs => exact hkept _ hs rfl
  | pauses _ _ _ _ hs => exact hkept _ hs rfl
  | resumes _ _ _ hs => exact hkept _ hs rfl
  | resumesRecording _ _ _ _ _ _ _ hs => exact hkept _ hs rfl
  | finishes _ _ hs => exact hkept _ hs rfl
  | records _ _ _ _ _ _ _ hs => exact hkept _ hs rfl
  | handsOver _ _ _ _ _ _ hs => exact hkept _ hs rfl
  | refreshes _ _ _ _ _ hs => exact hkept _ hs rfl
  | retriesGates _ _ _ _ hs => exact hkept _ hs rfl
  | admits _ _ _ _ _ hs => exact hkept _ hs rfl
  | decides decisionId validUntil value _ _ hnew hs =>
    -- a second decision on a plan is refused
    refine ⟨d, ?_, hrevoked⟩
    rw [show S'.decisions = _ from congrArg Standing.decisions hs, OrdMap.get_insert, if_neg, hd]
    rintro rfl
    rw [OrdMap.contains, hd] at hnew
    cases hnew
  | revokes decisionId reason revocationId key d' revocation _ hfound _ hs =>
    have hdecisions : S'.decisions =
        S.decisions.insert key { d' with revocation := some revocation } := by
      have hsame := congrArg Standing.decisions hs
      split_ifs at hsame <;> exact hsame
    by_cases hkey : planId = key
    · refine ⟨{ d' with revocation := some revocation }, ?_, rfl⟩
      rw [hdecisions, hkey]
      exact OrdMap.get_insert_self _ _ _
    · refine ⟨d, ?_, hrevoked⟩
      rw [hdecisions, OrdMap.get_insert_ne _ _ hkey, hd]

/-- What the approval of the current plan says. -/
theorem checkPlanDecision_eq_ok {time : ℕ} {plan : ExecutionPlan}
    (h : S.checkPlanDecision cas time = .ok plan) : ∃ planId, S.planId = some planId ∧
      S.plan cas planId = .ok plan ∧
      (∀ d, S.decisions.get planId = some d → d.revocation = none ∧ time < d.validUntil ∧
        d.value.approves planId plan = true) ∧
      (plan.requiresDeveloperApproval = true → (S.decisions.get planId).isSome = true) := by
  obtain ⟨planId, hplanId, h⟩ := bind_eq_ok.mp h
  obtain ⟨plan', hplan, h⟩ := bind_eq_ok.mp h
  refine ⟨planId, orConflict_eq_ok.mp hplanId, ?_⟩
  split at h
  case h_1 d hd =>
    obtain ⟨_, hguard, h⟩ := bind_eq_ok.mp h
    cases h
    have hguard := requireConflict_eq_ok.mp hguard
    simp only [Bool.and_eq_true, decide_eq_true_eq, Option.isNone_iff_eq_none] at hguard
    refine ⟨hplan, ?_, fun _ => by rw [hd]; rfl⟩
    intro d' hd'
    rw [hd] at hd'
    cases hd'
    exact ⟨hguard.1.1, hguard.1.2, hguard.2⟩
  case h_2 hnone =>
    obtain ⟨_, hguard, h⟩ := bind_eq_ok.mp h
    cases h
    have hguard := requireConflict_eq_ok.mp hguard
    refine ⟨hplan, ?_, ?_⟩
    · intro d hd
      rw [hnone] at hd
      cases hd
    · intro hneeds
      rw [hneeds] at hguard
      cases hguard

/-- A revoked plan is not approved. -/
theorem Revoked.not_approved {planId : String} (h : S.Revoked planId)
    (hplan : S.planId = some planId) {time : ℕ} : S.checkApproval cas time ≠ .ok () := by
  intro happroval
  obtain ⟨plan, hdecision, -⟩ := bind_eq_ok.mp happroval
  obtain ⟨planId', hplan', -, hdecided, -⟩ := checkPlanDecision_eq_ok hdecision
  obtain ⟨d, hd, hrevoked⟩ := h
  rw [hplan] at hplan'
  cases hplan'
  rw [(hdecided d hd).1] at hrevoked
  cases hrevoked

/-- While no other plan is admitted, a Task whose plan was revoked is not admitted. -/
theorem Revoked.run_unadmitted {planId : String} {events : List RunEvent}
    (hrevoked : S.Revoked planId) (hadmitted : S.admitted = false)
    (hno : ∀ a ∈ events, ∀ q, change a = some (.planAdmitted q) → q = planId)
    (hrun : run (TaskState.step cas) S events = some S') : S'.admitted = false := by
  induction events generalizing S with
  | nil =>
    cases hrun
    exact hadmitted
  | cons a events ih =>
    obtain ⟨T, hT, hrun⟩ := run_cons_eq_some.mp hrun
    have hmove := applyEvent_moves (step_eq_some.mp hT)
    refine ih (hrevoked.step hmove) ?_ (fun b hb => hno b (List.mem_cons_of_mem _ hb)) hrun
    have hkept : ∀ s : Standing, T.standing = s → s.admitted = false → T.admitted = false := by
      rintro s rfl hs
      exact hs
    cases hmove with
    | keeps hs _ => exact hkept _ hs hadmitted
    | proposes _ _ _ _ _ hs => exact hkept _ hs hadmitted
    | decides _ _ _ _ _ _ hs => exact hkept _ hs hadmitted
    | pauses _ _ _ _ hs => exact hkept _ hs hadmitted
    | resumes _ _ _ hs => exact hkept _ hs hadmitted
    | resumesRecording _ _ _ _ _ _ _ hs => exact hkept _ hs hadmitted
    | finishes _ _ hs => exact hkept _ hs hadmitted
    | records _ _ _ _ _ _ _ hs => exact hkept _ hs hadmitted
    | handsOver _ _ _ _ _ _ hs => exact hkept _ hs rfl
    | refreshes _ _ _ _ _ hs => exact hkept _ hs rfl
    | retriesGates _ _ _ _ hs => exact hkept _ hs hadmitted
    | revokes _ _ _ _ _ _ _ _ _ hs =>
      refine hkept _ hs ?_
      split_ifs
      · rfl
      · exact hadmitted
    | admits q hchange _ hplan happroval _ =>
      -- only the revoked plan itself could be admitted, and it has no approval
      rw [hno a List.mem_cons_self q hchange] at hplan
      exact absurd happroval (hrevoked.not_approved hplan)

/-! ## Dispatch -/

/-- An event that records an execution record. -/
def RecordsExecution (cas : Cas) (e : RunEvent) (record : ExecutionRecord) : Prop :=
  ∃ recordId, change e = some (.executionRecorded recordId) ∧
    cas.executionRecord recordId = .ok record

/-- What a dispatching record needs of the Task it is accepted by. -/
structure DispatchAuthority (cas : Cas) (S : TaskState) (e : RunEvent) (record : ExecutionRecord) :
    Prop where
  admitted : S.admitted = true
  running : S.phase = .running
  /-- the decision on the plan, if it has or needs one, approves exactly it and is in force -/
  approved : ∃ planId plan, S.planId = some planId ∧ S.plan cas planId = .ok plan ∧
    (∀ d, S.decisions.get planId = some d → d.revocation = none ∧
      S.eventTime e < d.validUntil ∧ d.value.approves planId plan = true) ∧
    (plan.requiresDeveloperApproval = true → (S.decisions.get planId).isSome = true)
  deadline : S.eventTime e < S.deadlineUnixMs
  /-- an Attempt is bound and started by the writer epoch that prepared it -/
  epoch : ∀ attemptId, ((∃ contextId, record = .contextBound attemptId contextId) ∨
    record = .started attemptId) → ∃ E a, S.execution = some E ∧
      E.attempts.get attemptId = some a ∧ a.preparedEpoch = e.payload.epoch

/-- With a started clock the deadline is the Task's own. -/
theorem deadlineAt_started (h : S.clockStartedUnixMs.isSome = true) (time : ℕ) :
    S.deadlineAt time = S.deadlineUnixMs := by
  obtain ⟨started, hstarted⟩ := Option.isSome_iff_exists.mp h
  rw [deadlineAt, deadlineUnixMs, clockShiftMs, hstarted]
  rfl

/-- What the guard of a dispatching record accepted. -/
theorem checkRecord_dispatching {time : ℕ} {record : ExecutionRecord}
    (h : S.checkRecord cas time record = .ok ()) (hdispatching : record.dispatching = true) :
    S.admitted = true ∧ S.phase = .running ∧ S.checkApproval cas time = .ok () := by
  rw [checkRecord.eq_def, if_pos hdispatching] at h
  obtain ⟨_, hguard, h⟩ := bind_eq_ok.mp h
  obtain ⟨⟨⟩, happroval, -⟩ := bind_eq_ok.mp h
  have hguard := requireConflict_eq_ok.mp hguard
  simp only [Bool.and_eq_true, decide_eq_true_eq] at hguard
  exact ⟨hguard.1, hguard.2, happroval⟩

/-- An accepted execution record, taken apart. -/
theorem applyEvent_records (h : S.applyEvent cas e = .ok S') {record : ExecutionRecord}
    (hrecord : RecordsExecution cas e record) : e.payload.epoch = S.epoch ∧
      S.checkRecord cas (S.eventTime e) record = .ok () ∧
      ∃ E E', S.currentExecution cas = .ok E ∧
        E.applyRecord cas (S.recordContext (S.eventTime e)) record = .ok E' ∧
        S'.execution = some E' := by
  obtain ⟨recordId, hchange, hread⟩ := hrecord
  unfold applyEvent at h
  split at h
  case h_1 t hpay =>
    have htchange : t.change = .executionRecorded recordId := by
      rw [change, hpay] at hchange
      exact Option.some.inj hchange
    have htime : S.eventTime e = S.writerTime t := by rw [eventTime, hpay]; rfl
    obtain ⟨_, T, -, -, -, -, hT, rfl⟩ := apply_eq_ok h
    obtain ⟨leaseUntilUnixMs, hother, -⟩ | ⟨-, hlease, hT⟩ := applyLeased_eq_ok hT
    · rw [htchange] at hother
      cases hother
    · obtain ⟨-, hepoch, -⟩ := checkLeaseOf_eq_ok hlease
      rw [htchange, ← htime] at hT
      obtain ⟨record', hread', hT⟩ := bind_eq_ok.mp hT
      rw [hread] at hread'
      cases hread'
      obtain ⟨⟨⟩, hcheck, hT⟩ := bind_eq_ok.mp hT
      obtain ⟨E, hE, hT⟩ := bind_eq_ok.mp hT
      obtain ⟨_, -, hT⟩ := bind_eq_ok.mp hT
      obtain ⟨E', hE', hT⟩ := bind_eq_ok.mp hT
      cases hT
      refine ⟨?_, hcheck, E, E', hE, hE', rfl⟩
      rw [hpay]
      exact hepoch
  all_goals
    rename_i hpay
    rw [change, hpay] at hchange
    cases hchange

/-- An execution that begins has no Attempt. -/
theorem currentExecution_attempt {E : TaskExecutionProjection} {attemptId : AttemptId}
    {a : RecordedAttempt} (hE : S.currentExecution cas = .ok E)
    (ha : E.attempts.get attemptId = some a) : S.execution = some E := by
  unfold currentExecution at hE
  split at hE
  case h_1 E' hexec =>
    cases hE
    exact hexec
  case h_2 =>
    obtain ⟨_, -, hE⟩ := bind_eq_ok.mp hE
    obtain ⟨_, -, hE⟩ := bind_eq_ok.mp hE
    obtain ⟨_, -, hE⟩ := bind_eq_ok.mp hE
    obtain ⟨_, -, hE⟩ := bind_eq_ok.mp hE
    obtain ⟨_, -, hE⟩ := bind_eq_ok.mp hE
    obtain ⟨_, -, hE⟩ := bind_eq_ok.mp hE
    obtain ⟨_, -, hE⟩ := bind_eq_ok.mp hE
    obtain ⟨_, -, hE⟩ := bind_eq_ok.mp hE
    cases hE
    cases ha

/-- An Attempt is bound and started under the epoch that prepared it. -/
theorem applyRecord_epoch {E E' : TaskExecutionProjection}
    {c : TaskExecutionProjection.RecordContext} {record : ExecutionRecord} {attemptId : AttemptId}
    (h : E.applyRecord cas c record = .ok E')
    (hrecord : (∃ contextId, record = .contextBound attemptId contextId) ∨
      record = .started attemptId) :
    ∃ a, E.attempts.get attemptId = some a ∧ a.preparedEpoch = c.epoch := by
  rcases hrecord with ⟨contextId, rfl⟩ | rfl
  · obtain ⟨a, ha, h⟩ := bind_eq_ok.mp h
    obtain ⟨_, -, h⟩ := bind_eq_ok.mp h
    obtain ⟨_, hguard, -⟩ := bind_eq_ok.mp h
    have hguard := requireConflict_eq_ok.mp hguard
    simp only [Bool.not_eq_true', Bool.or_eq_false_iff, decide_eq_false_iff_not, not_not] at hguard
    exact ⟨a, orConflict_eq_ok.mp ha, hguard.1.1.2⟩
  · obtain ⟨a, ha, h⟩ := bind_eq_ok.mp h
    obtain ⟨_, -, h⟩ := bind_eq_ok.mp h
    obtain ⟨_, hguard, -⟩ := bind_eq_ok.mp h
    have hguard := requireConflict_eq_ok.mp hguard
    simp only [Bool.not_eq_true', Bool.or_eq_false_iff, decide_eq_false_iff_not, not_not] at hguard
    exact ⟨a, orConflict_eq_ok.mp ha, hguard.2⟩

/-- **One dispatching record.** -/
theorem applyEvent_dispatches (hbound : S.DecisionsBound cas) (h : S.applyEvent cas e = .ok S')
    {record : ExecutionRecord} (hrecord : RecordsExecution cas e record)
    (hdispatching : record.dispatching = true) : DispatchAuthority cas S e record := by
  obtain ⟨hepoch, hcheck, E, E', hE, hE', -⟩ := applyEvent_records h hrecord
  obtain ⟨hadmitted, hrunning, happroval⟩ := checkRecord_dispatching hcheck hdispatching
  obtain ⟨plan, hdecision, hdeadline⟩ := bind_eq_ok.mp happroval
  have hdeadline := of_decide_eq_true (requireConflict_eq_ok.mp hdeadline)
  rw [deadlineAt_started (hbound.clock hadmitted)] at hdeadline
  obtain ⟨planId, hplanId, hplan, hdecided, hneeded⟩ := checkPlanDecision_eq_ok hdecision
  refine ⟨hadmitted, hrunning, ⟨planId, plan, hplanId, hplan, hdecided, hneeded⟩, hdeadline, ?_⟩
  intro attemptId hattempt
  obtain ⟨a, ha, hprepared⟩ := applyRecord_epoch hE' hattempt
  exact ⟨E, a, currentExecution_attempt hE ha, ha, hprepared.trans hepoch.symm⟩

/-! ## Whole logs -/

/-- The Task before an event of an accepted log, and the event's step. -/
theorem ofLog_split {taskId : String} {before after : List RunEvent} {e : RunEvent}
    (h : ofLog cas taskId (before ++ e :: after) = some S)
    (hnew : ∀ t revisionId leaseUntil, e.payload = .transition t →
      t.change ≠ .opened revisionId leaseUntil) :
    ∃ T T', ofLog cas taskId before = some T ∧ T.DecisionsBound cas ∧
      T.applyEvent cas e = .ok T' ∧ run (step cas) T' after = some S := by
  cases before with
  | nil =>
    obtain ⟨S₀, hopen, -⟩ := ofLog_cons_eq_some.mp h
    obtain ⟨t, revisionId, leaseUntil, hpay, hchange, -⟩ := opening_eq_ok hopen
    exact absurd hchange (hnew t revisionId leaseUntil hpay)
  | cons first before =>
    obtain ⟨S₀, hopen, hrun⟩ := ofLog_cons_eq_some.mp h
    obtain ⟨T, T', hbefore, hstep, hafter⟩ := run_split hrun
    obtain ⟨t, revisionId, leaseUntil, -, -, -, -, revision, -, rfl⟩ := opening_eq_ok hopen
    exact ⟨T, T', ofLog_cons_eq_some.mpr ⟨_, hopen, hbefore⟩,
      decisionsBound_run (decisionsBound_genesis taskId revisionId revision t leaseUntil) hbefore,
      hstep, hafter⟩

theorem RecordsExecution.not_opened {record : ExecutionRecord}
    (h : RecordsExecution cas e record) (t : TaskTransition) (revisionId : String) (leaseUntil : ℕ)
    (hpay : e.payload = .transition t) : t.change ≠ .opened revisionId leaseUntil := by
  obtain ⟨recordId, hchange, -⟩ := h
  rw [change, hpay] at hchange
  rw [Option.some.inj hchange]
  exact nofun

/-- The revocation of the current plan's approval ends its admission. -/
theorem revocation_step {planId reason revocationId : String} {d : Decision}
    (hbound : S.DecisionsBound cas) (h : S.applyEvent cas e = .ok S')
    (hplan : S.planId = some planId) (hd : S.decisions.get planId = some d)
    (hchange : change e = some (.approvalRevoked d.artifactId reason revocationId)) :
    S'.Revoked planId ∧ S'.admitted = false := by
  have hmove := applyEvent_moves h
  cases hmove with
  | revokes decisionId reason' revocationId' key d' revocation hchange' hfound hid hs =>
    rw [hchange] at hchange'
    cases hchange'
    -- one artifact decides one plan
    obtain ⟨hkey, hread⟩ := hbound.key planId d hd
    obtain ⟨hkey', hread'⟩ := hbound.key key d' hfound
    rw [hid, hread] at hread'
    have hvalue : d.value = d'.value := Except.ok.inj hread'
    have hsame : key = planId := by rw [← hkey', ← hvalue, hkey]
    have hcurrent : S.planId = some d'.value.planId := by rw [hplan, ← hvalue, hkey]
    rw [if_pos hcurrent, hsame] at hs
    refine ⟨⟨{ d' with revocation := some revocation }, ?_, rfl⟩, congrArg Standing.admitted hs⟩
    rw [show S'.decisions = _ from congrArg Standing.decisions hs]
    exact OrdMap.get_insert_self _ _ _
  | keeps _ hother => exact absurd rfl ((hother _ hchange).2.2.1 _ _ _)
  | proposes _ _ hchange' _ _ _ => rw [hchange] at hchange'; cases hchange'
  | decides _ _ _ hchange' _ _ _ => rw [hchange] at hchange'; cases hchange'
  | admits _ hchange' _ _ _ _ => rw [hchange] at hchange'; cases hchange'
  | pauses _ hchange' _ _ _ => rw [hchange] at hchange'; cases hchange'
  | resumes _ hchange' _ _ => rw [hchange] at hchange'; cases hchange'
  | resumesRecording _ _ _ hchange' _ _ _ _ => rw [hchange] at hchange'; cases hchange'
  | finishes _ hchange' _ => rw [hchange] at hchange'; cases hchange'
  | records _ _ _ hchange' _ _ _ _ => rw [hchange] at hchange'; cases hchange'
  | handsOver _ _ hchange' _ _ _ _ =>
    rcases hchange' with ⟨_, hchange'⟩ | ⟨_, _, _, hchange'⟩ <;> rw [hchange] at hchange' <;>
      cases hchange'
  | refreshes _ _ _ _ hchange' _ => rw [hchange] at hchange'; cases hchange'
  | retriesGates _ hpay _ _ _ => rw [change, hpay] at hchange; cases hchange

/-- **Dispatch authority.** In every accepted log each dispatching record is accepted by an
admitted, running Task with an approved plan before its deadline, and binds and starts Attempts of
its own epoch. After the revocation of the current plan's approval none is accepted before another
plan is admitted. -/
theorem dispatch_authority {taskId : String} {log : List RunEvent}
    (h : ofLog cas taskId log = some S) :
    (∀ before e after record, log = before ++ e :: after → RecordsExecution cas e record →
      record.dispatching = true →
      ∃ T, ofLog cas taskId before = some T ∧ DispatchAuthority cas T e record) ∧
    (∀ before r mid e after record T planId d reason revocationId,
      log = before ++ r :: (mid ++ e :: after) → ofLog cas taskId before = some T →
      T.planId = some planId → T.decisions.get planId = some d →
      change r = some (.approvalRevoked d.artifactId reason revocationId) →
      RecordsExecution cas e record → record.dispatching = true →
      ∃ a ∈ mid, ∃ other, other ≠ planId ∧ change a = some (.planAdmitted other)) := by
  constructor
  · rintro before e after record rfl hrecord hdispatching
    obtain ⟨T, T', hT, hbound, hstep, -⟩ := ofLog_split h hrecord.not_opened
    exact ⟨T, hT, applyEvent_dispatches hbound hstep hrecord hdispatching⟩
  · rintro before r mid e after record T planId d reason revocationId rfl hT hplan hd hrevoke
      hrecord hdispatching
    have hnew : ∀ t revisionId leaseUntil, r.payload = .transition t →
        t.change ≠ .opened revisionId leaseUntil := by
      intro t revisionId leaseUntil hpay
      rw [change, hpay] at hrevoke
      rw [Option.some.inj hrevoke]
      exact nofun
    obtain ⟨T₀, T', hT₀, hbound, hstep, hrest⟩ := ofLog_split h hnew
    rw [hT] at hT₀
    cases hT₀
    obtain ⟨hrevoked, hadmitted⟩ := revocation_step hbound hstep hplan hd hrevoke
    obtain ⟨U, U', hmid, hdispatch, -⟩ := run_split hrest
    have hbound' := decisionsBound_run (hbound.step (applyEvent_moves hstep)) hmid
    have hauthority := applyEvent_dispatches hbound' hdispatch hrecord hdispatching
    by_contra hno
    have honly : ∀ a ∈ mid, ∀ q, change a = some (.planAdmitted q) → q = planId := by
      intro a ha q hq
      by_contra hne
      exact hno ⟨a, ha, q, hne, hq⟩
    have hunadmitted := hrevoked.run_unadmitted hadmitted honly hmid
    rw [hauthority.admitted] at hunadmitted
    cases hunadmitted

/-- The first Attempt of the node is started under an admitted plan. -/
theorem dispatch_authority_started :
    ∃ S T, ofLog (workCas startRecords) "task-1" (workLog startRecords) = some S ∧
      ofLog (workCas startRecords) "task-1" ((workLog startRecords).take 6) = some T ∧
      DispatchAuthority (workCas startRecords) T (workEvent 6 "first" 1 (.executionRecorded "3"))
        (.started firstAttempt) := by
  have hlog : (ofLog (workCas startRecords) "task-1" (workLog startRecords)).isSome = true := by
    set_option maxRecDepth 10000 in
    decide
  obtain ⟨S, hS⟩ := Option.isSome_iff_exists.mp hlog
  obtain ⟨T, hT, hauthority⟩ := (dispatch_authority hS).1 ((workLog startRecords).take 6)
    (workEvent 6 "first" 1 (.executionRecorded "3")) [] (.started firstAttempt) (by decide)
    ⟨"3", rfl, by rfl⟩ rfl
  exact ⟨S, T, hS, hT, hauthority⟩

end TaskState

end Afactory
