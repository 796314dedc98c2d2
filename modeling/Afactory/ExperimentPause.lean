import Mathlib
import Afactory.PlanAuthority

/-!
# The pause of a prepared experiment

A prepared experiment stops an admitted, running Task until its developer decides. The pause has
the phase of a plan that waits for its review, so the admission of the plan, which is admitted
already, is accepted in it.

* `pauseAfter`: whether the pause of an experiment is open, event by event;
* `PauseKept`: no admission and no gate retry in an open pause, no other pause under it;
* `Watched`, `Watched.step`: what the pause and the standing keep of each other;
* `admission_bypasses_no_pause`: in a log that keeps its pauses an admission finds an unadmitted
  plan, and nothing runs before the pause was ended;
* `admission_ends_pause`: a log that does not.
-/

namespace Afactory

namespace TaskState

variable {cas : Cas} {S S' : TaskState} {e : RunEvent}

/-! ## The pause -/

/-- Whether the pause of a prepared experiment is open after an event that led to `S'`. -/
def pauseAfter (cas : Cas) (opened : Bool) (e : RunEvent) (S' : TaskState) : Bool :=
  match change e with
  | some (.executionRecorded recordId) =>
    match cas.executionRecord recordId with
    | .ok (.experimentPrepared _) => true
    | .ok (.experimentChildrenRegistered _ _ _) => false
    | .ok (.experimentPlanDecided preparedId _) =>
      opened && !S'.execution.any fun E => experimentRejected E preparedId
    | _ => opened
  | some (.approvalRevoked _ _ _) => opened && S'.admitted
  | some (.sourceRefreshed _ _ _) => false
  | _ => opened

/-- A step of a log, with the pause. -/
def watch (cas : Cas) (W : TaskState × Bool) (e : RunEvent) : Option (TaskState × Bool) :=
  (W.1.step cas e).map fun S' => (S', pauseAfter cas W.2 e S')

/-- The condition on an event: an open pause sees no admission and no gate retry, and no
experiment is prepared while a pause is still marked to be resumed. -/
def PauseKept (cas : Cas) (W : TaskState × Bool) (e : RunEvent) : Prop :=
  (W.2 = true → (∀ planId, change e ≠ some (.planAdmitted planId)) ∧
    ∀ retry, e.payload ≠ .gateRetried retry) ∧
  ∀ preparedId, RecordsExecution cas e (.experimentPrepared preparedId) → W.1.resumePhase = none

/-- Every event of a log keeps the pauses. -/
def LogKeepsPauses (cas : Cas) (taskId : String) : List RunEvent → Prop
  | [] => True
  | first :: rest => ∀ S, opening cas taskId first = .ok S →
      StepsMeet (watch cas) (PauseKept cas) (S, false) rest

/-- What may end the pause of an experiment: its own decision, the registration of its children,
an approval revocation or a source refresh. -/
def EndsPause (cas : Cas) (preparedId : String) (e : RunEvent) : Prop :=
  (∃ decisionId, RecordsExecution cas e (.experimentPlanDecided preparedId decisionId)) ∨
  (∃ decisionId childPlanId, RecordsExecution cas e
    (.experimentChildrenRegistered preparedId decisionId childPlanId)) ∨
  (∃ decisionId reason revocationId,
    change e = some (.approvalRevoked decisionId reason revocationId)) ∨
  ∃ revisionId planId waiting, change e = some (.sourceRefreshed revisionId planId waiting)

/-- A Task stopped by its prepared experiment, by a pause over it, or for good. -/
inductive Paused (S : TaskState) : Prop where
  | prepared (hphase : S.phase = .waiting .needsPlanReview) (hnone : S.resumePhase = none)
  | interrupted (reason : TaskWaitingReason) (hreason : reason ≠ .needsPlanReview)
    (hphase : S.phase = .waiting reason)
    (hprior : S.resumePhase = some (.waiting .needsPlanReview))
  | finished (resultId : String) (hphase : S.phase = .finished resultId)

theorem Paused.not_running (h : S.Paused) : S.phase ≠ .running := by
  intro hrunning
  cases h with
  | prepared hphase _ => cases hphase.symm.trans hrunning
  | interrupted _ _ hphase _ => cases hphase.symm.trans hrunning
  | finished _ hphase => cases hphase.symm.trans hrunning

/-- What the pause says of the standing: an open one stops an admitted Task, and without one an
admitted Task waits for no plan. -/
structure Watched (S : TaskState) (opened : Bool) : Prop where
  paused : opened = true → S.admitted = true ∧ S.Paused
  admitted : opened = false → S.admitted = true → ¬ Proposed S.phase ∧
    ∀ prior, S.resumePhase = some prior → ¬ Proposed prior

theorem not_proposed_running : ¬ Proposed .running := by
  rintro (h | h) <;> cases h

theorem not_proposed_waiting {reason : TaskWaitingReason} (h : reason ≠ .needsPlanReview) :
    ¬ Proposed (.waiting reason) := by
  rintro (heq | heq)
  · cases heq
    exact h rfl
  · cases heq

theorem not_proposed_finished (resultId : String) : ¬ Proposed (.finished resultId) := by
  rintro (h | h) <;> cases h

/-- A finished Task takes no change but its accounting. -/
theorem not_finished_of_change (h : S.applyEvent cas e = .ok S') {c : TaskChange}
    (hchange : change e = some c) (haccounting : accountingAfterFinish cas c = .ok false) :
    ∀ resultId, S.phase ≠ .finished resultId := by
  intro resultId hphase
  unfold applyEvent at h
  split at h
  case h_1 t hpay =>
    rw [change, hpay] at hchange
    cases hchange
    obtain ⟨accounting, T, -, hacc, -, hfinished, -⟩ := apply_eq_ok h
    rw [haccounting] at hacc
    cases hacc
    rw [hphase] at hfinished
    exact absurd (hfinished rfl) Bool.false_ne_true
  all_goals
    rename_i hpay
    rw [change, hpay] at hchange
    cases hchange

/-- An event that is none of those that touch the pause leaves it. -/
theorem pauseAfter_of_change {opened : Bool} (hrecord : ∀ id, change e ≠ some (.executionRecorded id))
    (hrevoke : ∀ a b c, change e ≠ some (.approvalRevoked a b c))
    (hrefresh : ∀ a b c, change e ≠ some (.sourceRefreshed a b c)) :
    pauseAfter cas opened e S' = opened := by
  unfold pauseAfter
  split
  case h_1 id hchange => exact absurd hchange (hrecord id)
  case h_2 a b c hchange => exact absurd hchange (hrevoke a b c)
  case h_3 a b c hchange => exact absurd hchange (hrefresh a b c)
  case h_4 => rfl

/-- The pause under an execution record. -/
theorem pauseAfter_record {opened : Bool} {recordId : String} {record : ExecutionRecord}
    (hchange : change e = some (.executionRecorded recordId))
    (hread : cas.executionRecord recordId = .ok record) :
    pauseAfter cas opened e S' = match record with
      | .experimentPrepared _ => true
      | .experimentChildrenRegistered _ _ _ => false
      | .experimentPlanDecided preparedId _ =>
        opened && !S'.execution.any fun E => experimentRejected E preparedId
      | _ => opened := by
  simp only [pauseAfter, hchange, hread]
  cases record <;> rfl

/-- A state of the same admission, phase and pause is watched alike. -/
theorem Watched.of_standing {opened : Bool} (h : S.Watched opened)
    (hphase : S'.phase = S.phase) (hadmitted : S'.admitted = S.admitted)
    (hresume : S'.resumePhase = S.resumePhase) : S'.Watched opened where
  paused := by
    intro ho
    obtain ⟨ha, hp⟩ := h.paused ho
    refine ⟨hadmitted.trans ha, ?_⟩
    cases hp with
    | prepared hp hn => exact .prepared (hphase.trans hp) (hresume.trans hn)
    | interrupted r hr hp hn => exact .interrupted r hr (hphase.trans hp) (hresume.trans hn)
    | finished r hp => exact .finished r (hphase.trans hp)
  admitted := by
    intro ho ha
    rw [hphase, hresume]
    exact h.admitted ho (hadmitted.symm.trans ha)

/-- A Task that is not admitted and has no open pause. -/
theorem Watched.of_unadmitted (h : S.admitted = false) : S.Watched false where
  paused := nofun
  admitted := by
    intro _ ha
    rw [h] at ha
    cases ha

/-- An admitted Task that runs. -/
theorem Watched.of_running (hphase : S.phase = .running)
    (hresume : ∀ prior, S.resumePhase = some prior → ¬ Proposed prior) : S.Watched false where
  paused := nofun
  admitted := by
    intro _ _
    rw [hphase]
    exact ⟨not_proposed_running, hresume⟩

/-- What the guard of each kind of record says of the phase. -/
theorem checkRecord_phase {time : ℕ} {record : ExecutionRecord}
    (h : S.checkRecord cas time record = .ok ()) :
    match record with
    | .experimentPrepared _ => S.admitted = true ∧ S.phase = .running
    | .experimentPlanDecided _ _ | .experimentChildrenRegistered _ _ _ =>
      S.admitted = true ∧ S.phase = .waiting .needsPlanReview
    | _ => True := by
  cases record <;> try trivial
  case experimentPrepared id =>
    obtain ⟨_, hguard, -⟩ := bind_eq_ok.mp h
    have hguard := requireConflict_eq_ok.mp hguard
    simp only [Bool.and_eq_true, decide_eq_true_eq] at hguard
    exact hguard
  case experimentPlanDecided id d =>
    have hguard := requireConflict_eq_ok.mp h
    simp only [Bool.and_eq_true, decide_eq_true_eq] at hguard
    exact hguard
  case experimentChildrenRegistered id d c =>
    have hguard := requireConflict_eq_ok.mp h
    simp only [Bool.and_eq_true, decide_eq_true_eq] at hguard
    exact hguard

/-- In an open pause a plan-review phase is the experiment's own. -/
theorem Watched.prepared {opened : Bool} (h : S.Watched opened) (hadmitted : S.admitted = true)
    (hphase : S.phase = .waiting .needsPlanReview) :
    opened = true ∧ S.resumePhase = none := by
  cases opened with
  | false => exact absurd (.inl hphase) (h.admitted rfl hadmitted).1
  | true =>
    refine ⟨rfl, ?_⟩
    cases (h.paused rfl).2 with
    | prepared _ hnone => exact hnone
    | interrupted reason hreason hwaiting _ =>
      cases hphase.symm.trans hwaiting
      exact absurd rfl hreason
    | finished _ hfinished => cases hphase.symm.trans hfinished

/-- An execution record keeps the pause and the standing in step. -/
theorem Watched.records {opened : Bool} {recordId : String} {record : ExecutionRecord}
    {E : TaskExecutionProjection} (h : S.Watched opened) (hkept : PauseKept cas (S, opened) e)
    (hchange : change e = some (.executionRecorded recordId))
    (hread : cas.executionRecord recordId = .ok record)
    (hcheck : S.checkRecord cas (S.eventTime e) record = .ok ()) (hE : S'.execution = some E)
    (hs : S'.standing = { S.standing with phase := S.recordedPhase E record }) :
    S'.Watched (pauseAfter cas opened e S') := by
  have hphase : S'.phase = S.recordedPhase E record := congrArg Standing.phase hs
  have hadmitted : S'.admitted = S.admitted := congrArg Standing.admitted hs
  have hresume : S'.resumePhase = S.resumePhase := congrArg Standing.resumePhase hs
  have hguard := checkRecord_phase hcheck
  rw [pauseAfter_record hchange hread]
  cases record
  case experimentPrepared preparedId =>
    have hnone := hkept.2 preparedId ⟨recordId, hchange, hread⟩
    exact ⟨fun _ => ⟨hadmitted.trans hguard.1, .prepared hphase (hresume.trans hnone)⟩, nofun⟩
  case experimentChildrenRegistered preparedId decisionId childPlanId =>
    obtain ⟨-, hnone⟩ := h.prepared hguard.1 hguard.2
    refine .of_running hphase ?_
    intro prior hprior
    rw [hresume, hnone] at hprior
    cases hprior
  case experimentPlanDecided preparedId decisionId =>
    obtain ⟨rfl, hnone⟩ := h.prepared hguard.1 hguard.2
    have hany : (S'.execution.any fun E => experimentRejected E preparedId) =
        experimentRejected E preparedId := by
      rw [hE]
      rfl
    simp only [hany]
    simp only [recordedPhase] at hphase
    cases hrejected : experimentRejected E preparedId with
    | true =>
      rw [hrejected, if_pos rfl] at hphase
      refine ⟨nofun, fun _ _ => ⟨?_, ?_⟩⟩
      · rw [hphase]
        exact not_proposed_waiting (by decide)
      · intro prior hprior
        rw [hresume, hnone] at hprior
        cases hprior
    | false =>
      rw [hrejected, if_neg Bool.false_ne_true] at hphase
      exact h.of_standing hphase hadmitted hresume
  all_goals exact h.of_standing hphase hadmitted hresume

/-- **One event.** An event that keeps the pause keeps it in step with the standing. -/
theorem Watched.step {opened : Bool} (h : S.Watched opened) (hkept : PauseKept cas (S, opened) e)
    (hstep : S.applyEvent cas e = .ok S') : S'.Watched (pauseAfter cas opened e S') := by
  have hfinal := fun c => not_finished_of_change hstep (c := c)
  have hsame : ∀ c, change e = some c → (∀ id, c ≠ .executionRecorded id) →
      (∀ a b d, c ≠ .approvalRevoked a b d) → (∀ a b d, c ≠ .sourceRefreshed a b d) →
      pauseAfter cas opened e S' = opened := by
    intro c hc h₁ h₂ h₃
    refine pauseAfter_of_change ?_ ?_ ?_
    · intro id hid
      rw [hc] at hid
      exact h₁ id (Option.some.inj hid)
    · intro a b d hid
      rw [hc] at hid
      exact h₂ a b d (Option.some.inj hid)
    · intro a b d hid
      rw [hc] at hid
      exact h₃ a b d (Option.some.inj hid)
  cases applyEvent_moves hstep with
  | records recordId record E hchange hread hcheck hE hs =>
    exact h.records hkept hchange hread hcheck hE hs
  | keeps hs hother =>
    rw [pauseAfter_of_change (fun id hid => (hother _ hid).2.1 id rfl)
      (fun a b c hid => (hother _ hid).2.2.1 a b c rfl)
      (fun a b c hid => (hother _ hid).2.2.2 a b c rfl)]
    exact h.of_standing (congrArg Standing.phase hs) (congrArg Standing.admitted hs)
      (congrArg Standing.resumePhase hs)
  | proposes planId phase hchange hadmitted _ hs =>
    have hclosed : opened = false := by
      by_contra ho
      rw [(h.paused (by simpa using ho)).1] at hadmitted
      cases hadmitted
    rw [hsame _ hchange nofun nofun nofun, hclosed]
    exact .of_unadmitted ((congrArg Standing.admitted hs).trans hadmitted)
  | decides _ _ _ hchange _ _ hs =>
    rw [hsame _ hchange nofun nofun nofun]
    exact h.of_standing (congrArg Standing.phase hs) (congrArg Standing.admitted hs)
      (congrArg Standing.resumePhase hs)
  | revokes decisionId reason revocationId key d revocation hchange _ _ hs =>
    have hafter : pauseAfter cas opened e S' = (opened && S'.admitted) := by
      rw [pauseAfter, hchange]
    rw [hafter]
    split_ifs at hs
    · have hadmitted : S'.admitted = false := congrArg Standing.admitted hs
      rw [hadmitted, Bool.and_false]
      exact .of_unadmitted hadmitted
    · have hadmitted : S'.admitted = S.admitted := congrArg Standing.admitted hs
      have hopened : (opened && S'.admitted) = opened := by
        cases opened with
        | false => rfl
        | true => rw [hadmitted, (h.paused rfl).1]; rfl
      rw [hopened]
      exact h.of_standing (congrArg Standing.phase hs) hadmitted (congrArg Standing.resumePhase hs)
  | admits planId hchange _ _ _ hs =>
    have hclosed : opened = false := by
      by_contra ho
      exact (hkept.1 (by simpa using ho)).1 planId hchange
    rw [hsame _ hchange nofun nofun nofun, hclosed]
    refine .of_running (congrArg Standing.phase hs) ?_
    intro prior hprior
    rw [show S'.resumePhase = none from congrArg Standing.resumePhase hs] at hprior
    cases hprior
  | pauses reason hchange hnone hreason hs =>
    have hphase : S'.phase = .waiting reason := congrArg Standing.phase hs
    have hadmitted : S'.admitted = S.admitted := congrArg Standing.admitted hs
    have hresume : S'.resumePhase = some S.phase := congrArg Standing.resumePhase hs
    rw [hsame _ hchange nofun nofun nofun]
    constructor
    · intro ho
      obtain ⟨ha, hp⟩ := h.paused ho
      refine ⟨hadmitted.trans ha, ?_⟩
      cases hp with
      | prepared hp _ =>
        rw [hp] at hresume
        exact .interrupted reason hreason hphase hresume
      | interrupted _ _ _ hprior =>
        rw [hnone] at hprior
        cases hprior
      | finished resultId hp => exact absurd hp (hfinal _ hchange rfl resultId)
    · intro ho ha
      refine ⟨hphase ▸ not_proposed_waiting hreason, ?_⟩
      intro prior hprior
      rw [hresume] at hprior
      cases hprior
      exact (h.admitted ho (hadmitted.symm.trans ha)).1
  | resumes prior hchange hprior hs =>
    have hphase : S'.phase = prior := congrArg Standing.phase hs
    have hadmitted : S'.admitted = S.admitted := congrArg Standing.admitted hs
    have hresume : S'.resumePhase = none := congrArg Standing.resumePhase hs
    rw [hsame _ hchange nofun nofun nofun]
    constructor
    · intro ho
      obtain ⟨ha, hp⟩ := h.paused ho
      refine ⟨hadmitted.trans ha, ?_⟩
      cases hp with
      | prepared _ hnone =>
        rw [hprior] at hnone
        cases hnone
      | interrupted _ _ _ hwaiting =>
        rw [hprior] at hwaiting
        cases hwaiting
        exact .prepared hphase hresume
      | finished resultId hp => exact absurd hp (hfinal _ hchange rfl resultId)
    · intro ho ha
      refine ⟨hphase ▸ (h.admitted ho (hadmitted.symm.trans ha)).2 prior hprior, ?_⟩
      rw [hresume]
      exact nofun
  | resumesRecording _ _ _ hchange hadmitted hphase hprior hs =>
    have hclosed : opened = false := by
      by_contra ho
      cases (h.paused (by simpa using ho)).2 with
      | prepared hp _ => cases hphase.symm.trans hp
      | interrupted _ _ _ hwaiting => cases hprior.symm.trans hwaiting
      | finished _ hp => cases hphase.symm.trans hp
    rw [hsame _ hchange nofun nofun nofun, hclosed]
    refine .of_running (congrArg Standing.phase hs) ?_
    rw [show S'.resumePhase = none from congrArg Standing.resumePhase hs]
    exact nofun
  | finishes resultId hchange hs =>
    have hphase : S'.phase = .finished resultId := congrArg Standing.phase hs
    have hadmitted : S'.admitted = S.admitted := congrArg Standing.admitted hs
    have hresume : S'.resumePhase = S.resumePhase := congrArg Standing.resumePhase hs
    rw [hsame _ hchange nofun nofun nofun]
    constructor
    · intro ho
      exact ⟨hadmitted.trans (h.paused ho).1, .finished resultId hphase⟩
    · intro ho ha
      rw [hphase, hresume]
      exact ⟨not_proposed_finished resultId, (h.admitted ho (hadmitted.symm.trans ha)).2⟩
  | handsOver planId phase hchange hadmitted hrunning _ hs =>
    have hclosed : opened = false := by
      by_contra ho
      exact (h.paused (by simpa using ho)).2.not_running hrunning
    have hkeeps : pauseAfter cas opened e S' = opened := by
      rcases hchange with ⟨_, hchange⟩ | ⟨_, _, _, hchange⟩
      · exact hsame _ hchange nofun nofun nofun
      · exact hsame _ hchange nofun nofun nofun
    rw [hkeeps, hclosed]
    exact .of_unadmitted (congrArg Standing.admitted hs)
  | refreshes revisionId planId waiting phase hchange hs =>
    have hafter : pauseAfter cas opened e S' = false := by rw [pauseAfter, hchange]
    rw [hafter]
    exact .of_unadmitted (congrArg Standing.admitted hs)
  | retriesGates retry hpay hfinished hadmitted hs =>
    have hclosed : opened = false := by
      by_contra ho
      exact (hkept.1 (by simpa using ho)).2 retry hpay
    have hkeeps : pauseAfter cas opened e S' = opened := by rw [pauseAfter, change, hpay]
    subst hclosed
    rw [hkeeps]
    refine .of_running (congrArg Standing.phase hs) ?_
    rw [show S'.resumePhase = S.resumePhase from congrArg Standing.resumePhase hs]
    exact (h.admitted rfl hadmitted).2

/-! ## The experiment of a pause -/

/-- No experiment but this one is prepared. -/
def OnlyExperiment (preparedId : String) (E : TaskExecutionProjection) : Prop :=
  ∀ id recorded, E.experiments.get id = some recorded → id = preparedId

/-- A record that prepares no other experiment. -/
def PreparesOnly (preparedId : String) (_ : TaskExecutionProjection)
    (_ : TaskExecutionProjection.RecordContext) (record : ExecutionRecord) : Prop :=
  ∀ id, record = .experimentPrepared id → id = preparedId

/-- A record of anything but experiments leaves them. -/
theorem applyRecord_experiments {E : TaskExecutionProjection}
    {c : TaskExecutionProjection.RecordContext} {record : ExecutionRecord}
    (hprepared : ∀ id, record ≠ .experimentPrepared id)
    (hdecided : ∀ id d, record ≠ .experimentPlanDecided id d)
    (hregistered : ∀ id d p, record ≠ .experimentChildrenRegistered id d p) :
    Yields (fun E' => E'.experiments = E.experiments) (E.applyRecord cas c record) := by
  cases record
  case experimentPrepared id => exact absurd rfl (hprepared id)
  case experimentPlanDecided id d => exact absurd rfl (hdecided id d)
  case experimentChildrenRegistered id d p => exact absurd rfl (hregistered id d p)
  all_goals
    simp only [TaskExecutionProjection.applyRecord]
    try simp only [TaskExecutionProjection.registerOwned, TaskExecutionProjection.publishOwned,
      TaskExecutionProjection.completeOwned, TaskExecutionProjection.applyUsageObserved,
      TaskExecutionProjection.applyInvocation, TaskExecutionProjection.applyReserved,
      TaskExecutionProjection.applyContextBound, TaskExecutionProjection.applyStarted,
      TaskExecutionProjection.applyReleased, TaskExecutionProjection.applySettled,
      TaskExecutionProjection.applyPublished]
    repeat' first
      | exact Yields.error
      | exact Yields.throw
      | refine Yields.bind fun _ _ => ?_
      | exact Yields.pure rfl

/-- A new entry for a known experiment adds none. -/
theorem OnlyExperiment.insert {preparedId id : String} {E E' : TaskExecutionProjection}
    {recorded : RecordedExperiment} (h : OnlyExperiment preparedId E) (hid : id = preparedId)
    (hE' : E'.experiments = E.experiments.insert id recorded) : OnlyExperiment preparedId E' := by
  intro other r hr
  rw [hE', OrdMap.get_insert] at hr
  split_ifs at hr with hother
  · rw [hother, hid]
  · exact h other r hr

theorem onlyExperiment_kept (preparedId : String) :
    TaskExecutionProjection.Kept cas (PreparesOnly preparedId) (OnlyExperiment preparedId) where
  integrates _ _ h := h
  invalidates h _ happly := by
    obtain ⟨_, -, rfl⟩ := TaskExecutionProjection.invalidatePlan_eq_ok happly
    exact h
  installs h _ happly := by
    obtain ⟨_, _, _, -, -, rfl⟩ := TaskExecutionProjection.installGraph_eq_ok happly
    exact h
  clears _ _ := nofun
  reopens _ h _ := h
  allows h _ := h
  records := by
    intro E E' c record h hmeet happly
    cases record
    case experimentPrepared id =>
      obtain ⟨_, -, happly⟩ := bind_eq_ok.mp happly
      obtain ⟨_, -, happly⟩ := bind_eq_ok.mp happly
      obtain ⟨prepared, -, happly⟩ := bind_eq_ok.mp happly
      obtain ⟨plan, -, happly⟩ := bind_eq_ok.mp happly
      obtain ⟨_, -, happly⟩ := bind_eq_ok.mp happly
      obtain ⟨slot, -, happly⟩ := bind_eq_ok.mp happly
      obtain ⟨_, -, happly⟩ := bind_eq_ok.mp happly
      cases happly
      exact h.insert (hmeet id rfl) rfl
    case experimentPlanDecided id d =>
      obtain ⟨_, -, happly⟩ := bind_eq_ok.mp happly
      obtain ⟨recorded, hget, happly⟩ := bind_eq_ok.mp happly
      obtain ⟨_, -, happly⟩ := bind_eq_ok.mp happly
      obtain ⟨decision, -, happly⟩ := bind_eq_ok.mp happly
      obtain ⟨_, -, happly⟩ := bind_eq_ok.mp happly
      cases happly
      exact h.insert (h id recorded (orConflict_eq_ok.mp hget)) rfl
    case experimentChildrenRegistered id d childPlanId =>
      obtain ⟨_, -, happly⟩ := bind_eq_ok.mp happly
      obtain ⟨recorded, hget, happly⟩ := bind_eq_ok.mp happly
      obtain ⟨_, -, happly⟩ := bind_eq_ok.mp happly
      obtain ⟨⟨_, decision⟩, -, happly⟩ := bind_eq_ok.mp happly
      obtain ⟨maxChildren, -, happly⟩ := bind_eq_ok.mp happly
      obtain ⟨plan, -, happly⟩ := bind_eq_ok.mp happly
      obtain ⟨_, -, happly⟩ := bind_eq_ok.mp happly
      obtain ⟨_, -, happly⟩ := bind_eq_ok.mp happly
      cases happly
      exact h.insert (h id recorded (orConflict_eq_ok.mp hget)) rfl
    all_goals
      have hsame := applyRecord_experiments (by rintro _ ⟨⟩) (by rintro _ _ ⟨⟩)
        (by rintro _ _ _ ⟨⟩) E' happly
      intro id recorded hget
      rw [hsame] at hget
      exact h id recorded hget

/-- A decision and a registration name an experiment that is prepared. -/
theorem applyRecord_names {preparedId id : String} {E E' : TaskExecutionProjection}
    {c : TaskExecutionProjection.RecordContext} {record : ExecutionRecord}
    (h : OnlyExperiment preparedId E) (happly : E.applyRecord cas c record = .ok E')
    (hrecord : (∃ d, record = .experimentPlanDecided id d) ∨
      ∃ d childPlanId, record = .experimentChildrenRegistered id d childPlanId) :
    id = preparedId := by
  rcases hrecord with ⟨d, rfl⟩ | ⟨d, childPlanId, rfl⟩
  · obtain ⟨_, -, happly⟩ := bind_eq_ok.mp happly
    obtain ⟨recorded, hget, -⟩ := bind_eq_ok.mp happly
    exact h id recorded (orConflict_eq_ok.mp hget)
  · obtain ⟨_, -, happly⟩ := bind_eq_ok.mp happly
    obtain ⟨recorded, hget, -⟩ := bind_eq_ok.mp happly
    exact h id recorded (orConflict_eq_ok.mp hget)

/-- The preparation of an experiment is the first of its execution. -/
theorem applyEvent_prepares {preparedId : String} (h : S.applyEvent cas e = .ok S')
    (hrecord : RecordsExecution cas e (.experimentPrepared preparedId)) :
    ∃ E, S'.execution = some E ∧ OnlyExperiment preparedId E := by
  obtain ⟨-, -, E, E', -, happly, hE'⟩ := applyEvent_records h hrecord
  refine ⟨E', hE', ?_⟩
  obtain ⟨_, -, happly⟩ := bind_eq_ok.mp happly
  obtain ⟨_, hempty, happly⟩ := bind_eq_ok.mp happly
  obtain ⟨prepared, -, happly⟩ := bind_eq_ok.mp happly
  obtain ⟨plan, -, happly⟩ := bind_eq_ok.mp happly
  obtain ⟨_, -, happly⟩ := bind_eq_ok.mp happly
  obtain ⟨slot, -, happly⟩ := bind_eq_ok.mp happly
  obtain ⟨_, -, happly⟩ := bind_eq_ok.mp happly
  cases happly
  have hempty := List.isEmpty_iff.mp (requireConflict_eq_ok.mp hempty)
  have hnone : OnlyExperiment preparedId E := by
    intro id recorded hget
    have hmem := OrdMap.mem_iff_get.mpr hget
    rw [hempty] at hmem
    cases hmem
  exact hnone.insert rfl rfl

/-! ## Runs -/

theorem watch_eq_some {W W' : TaskState × Bool} :
    watch cas W e = some W' ↔
      W.1.step cas e = some W'.1 ∧ W'.2 = pauseAfter cas W.2 e W'.1 := by
  obtain ⟨S', b⟩ := W'
  simp only [watch, Option.map_eq_some_iff, Prod.mk.injEq]
  constructor
  · rintro ⟨T, hT, rfl, rfl⟩
    exact ⟨hT, rfl⟩
  · rintro ⟨hS', rfl⟩
    exact ⟨S', hS', rfl, rfl⟩

/-- The watched run of an accepted run. -/
theorem run_watch {events : List RunEvent} (opened : Bool)
    (h : run (step cas) S events = some S') :
    ∃ opened', run (watch cas) (S, opened) events = some (S', opened') := by
  induction events generalizing S opened with
  | nil =>
    cases h
    exact ⟨opened, rfl⟩
  | cons a events ih =>
    obtain ⟨T, hT, hrun⟩ := run_cons_eq_some.mp h
    obtain ⟨opened', hopened'⟩ := ih (pauseAfter cas opened a T) hrun
    refine ⟨opened', run_cons_eq_some.mpr ⟨(T, pauseAfter cas opened a T), ?_, hopened'⟩⟩
    exact watch_eq_some.mpr ⟨hT, rfl⟩

/-- The pause and the standing stay in step over a run that keeps the pauses. -/
theorem Watched.run {W W' : TaskState × Bool} {events : List RunEvent}
    (h : W.1.Watched W.2) (hkept : StepsMeet (watch cas) (PauseKept cas) W events)
    (hrun : Afactory.run (watch cas) W events = some W') : W'.1.Watched W'.2 := by
  refine run_induction (P := fun W : TaskState × Bool => W.1.Watched W.2) ?_ h hkept hrun
  intro U e U' hU hkept hstep
  obtain ⟨hstep, hopened⟩ := watch_eq_some.mp hstep
  rw [hopened]
  exact hU.step hkept (step_eq_some.mp hstep)

/-! ## A pause that is not ended -/

/-- The state of a Task inside the pause of an experiment. -/
structure InPause (cas : Cas) (preparedId : String) (W : TaskState × Bool) : Prop where
  opened : W.2 = true
  watched : W.1.Watched true
  holds : W.1.Holds cas (OnlyExperiment preparedId)

/-- An execution record in a pause names the experiment of the pause. -/
theorem InPause.names {preparedId id : String} {record : ExecutionRecord}
    {W : TaskState × Bool} (h : InPause cas preparedId W) (hstep : W.1.applyEvent cas e = .ok S')
    (hrecord : RecordsExecution cas e record)
    (hnames : (∃ d, record = .experimentPlanDecided id d) ∨
      ∃ d childPlanId, record = .experimentChildrenRegistered id d childPlanId) :
    id = preparedId := by
  obtain ⟨-, -, E, E', hE, happly, -⟩ := applyEvent_records hstep hrecord
  exact applyRecord_names (h.holds.current hE) happly hnames

/-- An event that does not end the pause leaves it open. -/
theorem InPause.pauseAfter {preparedId : String} {W : TaskState × Bool}
    (h : InPause cas preparedId W) (hstep : W.1.applyEvent cas e = .ok S')
    (hno : ¬ EndsPause cas preparedId e) : TaskState.pauseAfter cas W.2 e S' = true := by
  rw [h.opened]
  unfold TaskState.pauseAfter
  split
  case h_1 recordId hchange =>
    split
    case h_1 _ _ => rfl
    case h_2 id d childPlanId hread =>
      have hrecord : RecordsExecution cas e (.experimentChildrenRegistered id d childPlanId) :=
        ⟨recordId, hchange, hread⟩
      have hid := h.names hstep hrecord (.inr ⟨d, childPlanId, rfl⟩)
      subst hid
      exact absurd (.inr (.inl ⟨d, childPlanId, hrecord⟩)) hno
    case h_3 id d hread =>
      have hrecord : RecordsExecution cas e (.experimentPlanDecided id d) :=
        ⟨recordId, hchange, hread⟩
      have hid := h.names hstep hrecord (.inl ⟨d, rfl⟩)
      subst hid
      exact absurd (.inl ⟨d, hrecord⟩) hno
    case h_4 _ _ => rfl
  case h_2 a b c hchange => exact absurd (.inr (.inr (.inl ⟨a, b, c, hchange⟩))) hno
  case h_3 a b c hchange => exact absurd (.inr (.inr (.inr ⟨a, b, c, hchange⟩))) hno
  case h_4 _ => rfl

/-- A paused Task prepares no experiment. -/
theorem InPause.recordsMeet {preparedId : String} {W : TaskState × Bool}
    (h : InPause cas preparedId W) (hstep : W.1.applyEvent cas e = .ok S') :
    RecordsMeet cas (PreparesOnly preparedId) W.1 e := by
  intro t recordId record E hpay hchange hread _ id hrecord
  subst hrecord
  have hprepares : RecordsExecution cas e (.experimentPrepared id) :=
    ⟨recordId, by rw [change, hpay]; exact congrArg some hchange, hread⟩
  obtain ⟨-, hcheck, -⟩ := applyEvent_records hstep hprepares
  exact absurd (checkRecord_phase hcheck).2 (h.watched.paused rfl).2.not_running

/-- **One event in a pause.** -/
theorem InPause.step {preparedId : String} {W W' : TaskState × Bool}
    (h : InPause cas preparedId W) (hkept : PauseKept cas W e)
    (hno : ¬ EndsPause cas preparedId e) (hstep : watch cas W e = some W') :
    InPause cas preparedId W' := by
  obtain ⟨hstep, hopened⟩ := watch_eq_some.mp hstep
  have happly := step_eq_some.mp hstep
  have hafter := h.pauseAfter happly hno
  have hwatched : W.1.Watched W.2 := by
    rw [h.opened]
    exact h.watched
  refine ⟨hopened.trans hafter, ?_, ?_⟩
  · rw [← hafter]
    exact hwatched.step hkept happly
  · exact step_holds (onlyExperiment_kept preparedId) h.holds (h.recordsMeet happly) hstep

/-- **Every run in a pause.** -/
theorem InPause.run {preparedId : String} {W W' : TaskState × Bool} {events : List RunEvent}
    (h : InPause cas preparedId W) (hkept : StepsMeet (watch cas) (PauseKept cas) W events)
    (hno : ∀ a ∈ events, ¬ EndsPause cas preparedId a)
    (hrun : Afactory.run (watch cas) W events = some W') : InPause cas preparedId W' := by
  induction events generalizing W with
  | nil =>
    cases hrun
    exact h
  | cons a events ih =>
    obtain ⟨U, hU, hrun⟩ := run_cons_eq_some.mp hrun
    have hstep := h.step hkept.1 (hno a List.mem_cons_self) hU
    exact ih hstep (hkept.2 U hU) (fun b hb => hno b (List.mem_cons_of_mem _ hb)) hrun

/-- An accepted preparation pauses the Task. -/
theorem inPause_of_prepared {preparedId : String} {opened : Bool}
    (hwatched : S.Watched opened) (hkept : PauseKept cas (S, opened) e)
    (htrue : S'.Holds cas fun _ => True) (hstep : S.applyEvent cas e = .ok S')
    (hrecord : RecordsExecution cas e (.experimentPrepared preparedId)) :
    InPause cas preparedId (S', TaskState.pauseAfter cas opened e S') := by
  obtain ⟨recordId, hchange, hread⟩ := hrecord
  have hafter : TaskState.pauseAfter cas opened e S' = true := pauseAfter_record hchange hread
  refine ⟨hafter, ?_, ?_⟩
  · rw [← hafter]
    exact hwatched.step hkept hstep
  · obtain ⟨E, hE, honly⟩ := applyEvent_prepares hstep ⟨recordId, hchange, hread⟩
    refine ⟨?_, ?_, htrue.quiescent, htrue.resume⟩
    · intro E' hE'
      rw [hE] at hE'
      cases hE'
      exact honly
    · intro hnone
      rw [hE] at hnone
      cases hnone

/-! ## Whole logs -/

/-- A plan is admitted where it is proposed. -/
theorem applyEvent_admits {planId : String} (h : S.applyEvent cas e = .ok S')
    (hchange : change e = some (.planAdmitted planId)) : Proposed S.phase := by
  cases applyEvent_moves h with
  | admits _ _ hphase _ _ _ => exact hphase
  | keeps _ hother => exact absurd rfl ((hother _ hchange).1 planId)
  | proposes _ _ hother _ _ _ => rw [hchange] at hother; cases hother
  | decides _ _ _ hother _ _ _ => rw [hchange] at hother; cases hother
  | revokes _ _ _ _ _ _ hother _ _ _ => rw [hchange] at hother; cases hother
  | pauses _ hother _ _ _ => rw [hchange] at hother; cases hother
  | resumes _ hother _ _ => rw [hchange] at hother; cases hother
  | resumesRecording _ _ _ hother _ _ _ _ => rw [hchange] at hother; cases hother
  | finishes _ hother _ => rw [hchange] at hother; cases hother
  | records _ _ _ hother _ _ _ _ => rw [hchange] at hother; cases hother
  | handsOver _ _ hother _ _ _ _ =>
    rcases hother with ⟨_, hother⟩ | ⟨_, _, _, hother⟩ <;> rw [hchange] at hother <;> cases hother
  | refreshes _ _ _ _ hother _ => rw [hchange] at hother; cases hother
  | retriesGates _ hpay _ _ _ => rw [change, hpay] at hchange; cases hchange

/-- A log that keeps its pauses, up to one of its events. -/
theorem ofLog_watched {taskId : String} {before after : List RunEvent} {e : RunEvent}
    (h : ofLog cas taskId (before ++ e :: after) = some S)
    (hkept : LogKeepsPauses cas taskId (before ++ e :: after))
    (hnew : ∀ t revisionId leaseUntil, e.payload = .transition t →
      t.change ≠ .opened revisionId leaseUntil) :
    ∃ W T', ofLog cas taskId before = some W.1 ∧ W.1.Watched W.2 ∧ PauseKept cas W e ∧
      W.1.applyEvent cas e = .ok T' ∧
      StepsMeet (watch cas) (PauseKept cas) (T', pauseAfter cas W.2 e T') after ∧
      run (step cas) T' after = some S := by
  cases before with
  | nil =>
    obtain ⟨S₀, hopen, -⟩ := ofLog_cons_eq_some.mp h
    obtain ⟨t, revisionId, leaseUntil, hpay, hchange, -⟩ := opening_eq_ok hopen
    exact absurd hchange (hnew t revisionId leaseUntil hpay)
  | cons first before =>
    obtain ⟨S₀, hopen, hrun⟩ := ofLog_cons_eq_some.mp h
    obtain ⟨T, T', hbefore, hstep, hafter⟩ := run_split hrun
    obtain ⟨opened, hwatch⟩ := run_watch false hbefore
    obtain ⟨hmeet, hrest⟩ := stepsMeet_append (hkept S₀ hopen)
    obtain ⟨hnow, hlater⟩ := hrest _ hwatch
    have hbegins : S₀.Watched false := by
      obtain ⟨t, revisionId, leaseUntil, -, -, -, -, revision, -, rfl⟩ := opening_eq_ok hopen
      exact .of_unadmitted rfl
    refine ⟨(T, opened), T', ofLog_cons_eq_some.mpr ⟨_, hopen, hbefore⟩,
      hbegins.run hmeet hwatch, hnow, hstep, ?_, hafter⟩
    exact hlater _ (watch_eq_some.mpr ⟨step_eq_some.mpr hstep, rfl⟩)

/-- **No admission bypasses a pause.** In every accepted log that keeps its pauses a plan is
admitted only where none is admitted, and after the preparation of an experiment the Task does not
run, and dispatches nothing, before an event ended the pause. -/
theorem admission_bypasses_no_pause {taskId : String} {log : List RunEvent}
    (h : ofLog cas taskId log = some S) (hkept : LogKeepsPauses cas taskId log) :
    (∀ before e after planId, log = before ++ e :: after →
      change e = some (.planAdmitted planId) →
      ∃ T, ofLog cas taskId before = some T ∧ T.admitted = false) ∧
    (∀ before prep mid after preparedId, log = before ++ prep :: (mid ++ after) →
      RecordsExecution cas prep (.experimentPrepared preparedId) →
      (∀ a ∈ mid, ¬ EndsPause cas preparedId a) →
      ∃ T, ofLog cas taskId (before ++ prep :: mid) = some T ∧ T.phase ≠ .running ∧
        ∀ e ∈ after.head?, ∀ record, RecordsExecution cas e record →
          record.dispatching = false) := by
  constructor
  · rintro before e after planId rfl hchange
    have hnew : ∀ t revisionId leaseUntil, e.payload = .transition t →
        t.change ≠ .opened revisionId leaseUntil := by
      intro t revisionId leaseUntil hpay
      rw [change, hpay] at hchange
      rw [Option.some.inj hchange]
      simp
    obtain ⟨⟨T, opened⟩, T', hT, hwatched, hnow, hstep, -, -⟩ := ofLog_watched h hkept hnew
    refine ⟨T, hT, ?_⟩
    have hclosed : opened = false := by
      by_contra ho
      exact (hnow.1 (by simpa using ho)).1 planId hchange
    have hphase := applyEvent_admits hstep hchange
    by_contra hadmitted
    exact (hwatched.admitted hclosed (by simpa using hadmitted)).1 hphase
  · rintro before prep mid after preparedId rfl hrecord hno
    obtain ⟨⟨T, opened⟩, T', hT, hwatched, hnow, hstep, hmeet, hrest⟩ :=
      ofLog_watched h hkept hrecord.not_opened
    obtain ⟨U, hmid, hafter⟩ := run_append_eq_some.mp hrest
    have hlog : ofLog cas taskId (before ++ [prep]) = some T' :=
      (ofLog_append_eq_some hT).mpr (run_cons_eq_some.mpr ⟨T', step_eq_some.mpr hstep, rfl⟩)
    have hpause := inPause_of_prepared hwatched hnow (ofLog_quiescent hlog) hstep hrecord
    obtain ⟨opened', hwatch⟩ := run_watch (pauseAfter cas opened prep T') hmid
    have hpaused := hpause.run (stepsMeet_append hmeet).1 hno hwatch
    have hstopped : U.phase ≠ .running := (hpaused.watched.paused rfl).2.not_running
    refine ⟨U, ?_, hstopped, ?_⟩
    · rw [List.append_cons]
      exact (ofLog_append_eq_some hlog).mpr hmid
    · intro e he record hdispatch
      cases after with
      | nil => cases he
      | cons a after =>
        cases he
        obtain ⟨V, hV, -⟩ := run_cons_eq_some.mp hafter
        obtain ⟨-, hcheck, -⟩ := applyEvent_records (step_eq_some.mp hV) hdispatch
        by_contra hdispatching
        exact hstopped (checkRecord_dispatching hcheck (by simpa using hdispatching)).2.1

/-! ## Logs that keep their pauses and one that does not -/

def recordsAdmission (e : RunEvent) : Bool :=
  match change e with
  | some (.planAdmitted _) => true
  | _ => false

def recordsGateRetry (e : RunEvent) : Bool :=
  match e.payload with
  | .gateRetried _ => true
  | _ => false

def recordsPreparation (cas : Cas) (e : RunEvent) : Bool :=
  match change e with
  | some (.executionRecorded recordId) =>
    match cas.executionRecord recordId with
    | .ok (.experimentPrepared _) => true
    | _ => false
  | _ => false

theorem pauseKept_iff {W : TaskState × Bool} :
    PauseKept cas W e ↔
      (W.2 = true → recordsAdmission e = false ∧ recordsGateRetry e = false) ∧
      (recordsPreparation cas e = true → W.1.resumePhase.isNone = true) := by
  have hadmission : (∀ planId, change e ≠ some (.planAdmitted planId)) ↔
      recordsAdmission e = false := by
    unfold recordsAdmission
    split <;> simp_all
  have hretry : (∀ retry, e.payload ≠ .gateRetried retry) ↔ recordsGateRetry e = false := by
    unfold recordsGateRetry
    split <;> simp_all
  have hprepares : (∃ preparedId, RecordsExecution cas e (.experimentPrepared preparedId)) ↔
      recordsPreparation cas e = true := by
    unfold recordsPreparation RecordsExecution
    constructor
    · rintro ⟨preparedId, recordId, hchange, hread⟩
      simp only [hchange, hread]
    · intro h
      split at h
      case h_2 => cases h
      case h_1 recordId hchange =>
        split at h
        case h_1 preparedId hread => exact ⟨preparedId, recordId, hchange, hread⟩
        case h_2 => cases h
  rw [PauseKept, hadmission, hretry, ← hprepares, Option.isNone_iff_eq_none]
  exact and_congr_right fun _ => ⟨fun h ⟨id, hid⟩ => h id hid, fun h id hid => h ⟨id, hid⟩⟩

instance (W : TaskState × Bool) (e : RunEvent) : Decidable (PauseKept cas W e) :=
  decidable_of_iff _ pauseKept_iff.symm

instance (taskId : String) : ∀ log, Decidable (LogKeepsPauses cas taskId log)
  | [] => isTrue trivial
  | first :: rest =>
    match h : opening cas taskId first with
    | .error _ => isTrue fun _ h' => nomatch h.symm.trans h'
    | .ok S => decidable_of_iff (StepsMeet (watch cas) (PauseKept cas) (S, false) rest)
        ⟨fun hmeet _ h' => Except.ok.inj (h.symm.trans h') ▸ hmeet, fun hall => hall S h⟩

def experimentSlotId : String :=
  "sha256:97330084bc1235114ba3a1228c134a0482f5449189da21259dc3e4f15838009c"

/-- A node that experiments, before the paid one. -/
def experimentGraph : CompiledTask :=
  { workGraph with
    nodes := workGraph.nodes.insert "root.experiment"
      { operator := .primitive (.optimizationExperiment "author" "author") "experiment" }
    order := ["root.experiment", "root.work"]
    experimentalSlots := .ofList [("root.experiment", ⟨experimentSlotId, 1⟩)] }

def experimentPreparation : ExperimentPrepared :=
  ⟨"revision", "plan", experimentSlotId, "specification", "children", "policy"⟩

/-- The store of a Task with that graph, a prepared experiment and its approval. -/
def experimentCas (records : List ExecutionRecord) : Cas :=
  { workCas records with
    compiledTask := fun _ => .ok experimentGraph
    experimentPrepared := fun _ => .ok experimentPreparation
    experimentPlan := fun _ => .ok ⟨"root.experiment", .empty⟩
    childPlan := fun _ _ _ => .ok ()
    experimentPlanDecision := fun _ => .ok
      ⟨"prepared", "revision", "plan", experimentSlotId, "specification", "children", "policy",
        .approved, 50⟩
    experimentRegistration := fun _ _ _ _ _ => .ok 1 }

/-- An experiment is prepared, the Task waits for a human and resumes. -/
def pausedLog : List RunEvent := [
  workEvent 0 "first" 1 (.opened "revision" 100),
  workEvent 1 "first" 1 (.planProposed "plan"),
  workEvent 2 "first" 1 (.planAdmitted "plan"),
  workEvent 3 "first" 1 (.executionRecorded "0"),
  workEvent 4 "first" 1 (.waiting .needsHuman),
  workEvent 5 "first" 1 .resumed]

/-- An experiment is prepared, the plan is admitted again, and an invocation is recorded. -/
def bypassingLog : List RunEvent := [
  workEvent 0 "first" 1 (.opened "revision" 100),
  workEvent 1 "first" 1 (.planProposed "plan"),
  workEvent 2 "first" 1 (.planAdmitted "plan"),
  workEvent 3 "first" 1 (.executionRecorded "0"),
  workEvent 4 "first" 1 (.planAdmitted "plan"),
  workEvent 5 "first" 1 (.executionRecorded "1")]

theorem admission_bypasses_no_pause_resumed :
    ∃ S T, ofLog (experimentCas [.experimentPrepared "prepared"]) "task-1" pausedLog = some S ∧
      S.phase ≠ .running ∧
      ofLog (experimentCas [.experimentPrepared "prepared"]) "task-1" (pausedLog.take 2) = some T ∧
      T.admitted = false := by
  have hlog : (ofLog (experimentCas [.experimentPrepared "prepared"]) "task-1" pausedLog).isSome =
      true := by decide
  obtain ⟨S, hS⟩ := Option.isSome_iff_exists.mp hlog
  have hkept : LogKeepsPauses (experimentCas [.experimentPrepared "prepared"]) "task-1"
      pausedLog := by decide
  obtain ⟨hadmits, hpauses⟩ := admission_bypasses_no_pause hS hkept
  obtain ⟨T, hT, hadmitted⟩ := hadmits (pausedLog.take 2) (workEvent 2 "first" 1
    (.planAdmitted "plan")) (pausedLog.drop 3) "plan" rfl rfl
  have hno : ∀ a ∈ pausedLog.drop 4, ¬ EndsPause (experimentCas [.experimentPrepared "prepared"])
      "prepared" a := by
    intro a ha
    obtain rfl | rfl : a = workEvent 4 "first" 1 (.waiting .needsHuman) ∨
        a = workEvent 5 "first" 1 .resumed := by simpa [pausedLog] using ha
    all_goals
      rintro (⟨_, _, h, -⟩ | ⟨_, _, _, h, -⟩ | ⟨_, _, _, h⟩ | ⟨_, _, _, h⟩) <;> cases h
  obtain ⟨U, hU, hstopped, -⟩ := hpauses (pausedLog.take 3) (workEvent 3 "first" 1
    (.executionRecorded "0")) (pausedLog.drop 4) [] "prepared" rfl ⟨"0", rfl, by rfl⟩ hno
  rw [show pausedLog.take 3 ++ workEvent 3 "first" 1 (.executionRecorded "0") :: pausedLog.drop 4 =
    pausedLog from rfl, hS] at hU
  cases hU
  exact ⟨S, T, hS, hstopped, hT, hadmitted⟩

/-- **An admission that bypasses a pause.** The admitted plan of a Task that waits for the decision
on its experiment is admitted again, and the Task dispatches. -/
theorem admission_ends_pause :
    ∃ S T, ofLog (experimentCas [.experimentPrepared "prepared", .invocation "invocation"])
        "task-1" bypassingLog = some S ∧
      ofLog (experimentCas [.experimentPrepared "prepared", .invocation "invocation"])
        "task-1" (bypassingLog.take 4) = some T ∧
      T.admitted = true ∧ T.phase = .waiting .needsPlanReview ∧
      bypassingLog.drop 4 = [workEvent 4 "first" 1 (.planAdmitted "plan"),
        workEvent 5 "first" 1 (.executionRecorded "1")] ∧
      RecordsExecution (experimentCas [.experimentPrepared "prepared", .invocation "invocation"])
        (workEvent 5 "first" 1 (.executionRecorded "1")) (.invocation "invocation") ∧
      (ExecutionRecord.invocation "invocation").dispatching = true := by
  have hlog : (ofLog (experimentCas [.experimentPrepared "prepared", .invocation "invocation"])
      "task-1" bypassingLog).isSome = true := by decide
  have hpaused : (ofLog (experimentCas [.experimentPrepared "prepared", .invocation "invocation"])
      "task-1" (bypassingLog.take 4)).map (fun T => (T.admitted, T.phase)) =
      some (true, .waiting .needsPlanReview) := by decide
  obtain ⟨S, hS⟩ := Option.isSome_iff_exists.mp hlog
  obtain ⟨T, hT, hfields⟩ := Option.map_eq_some_iff.mp hpaused
  obtain ⟨hadmitted, hphase⟩ := Prod.mk.inj hfields
  exact ⟨S, T, hS, hT, hadmitted, hphase, rfl, ⟨"1", rfl, by rfl⟩, rfl⟩

end TaskState

end Afactory
