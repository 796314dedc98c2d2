import Mathlib
import Afactory.TaskProjection

/-!
# Writer fencing of a Task log

Every event of a Task log names a writer, an epoch and a clock reading. This module
says what one accepted event does to the lease (`Fenced`, `applyEvent_fenced`) and,
from that, what holds of a whole accepted log:

* `run_dense`, `run_epochs`: sequences have no gap and epochs only grow;
* `run_markers`: an epoch begins execution at most once;
* `ofLog_writer_fenced`: all of it, at every event of every accepted log.

The clocks of the writers are arbitrary: only the guards of the three apply functions
order the events.
-/

namespace Afactory

/-! ## What an event says of its writer -/

namespace TaskPayload

def writer : TaskPayload → String
  | .transition t => t.writer
  | .executionStarted m => m.writer
  | .gateRetried r => r.writer
  | .providerEvent v => v.writer

def epoch : TaskPayload → ℕ
  | .transition t => t.epoch
  | .executionStarted m => m.epoch
  | .gateRetried r => r.epoch
  | .providerEvent v => v.epoch

def nowUnixMs : TaskPayload → ℕ
  | .transition t => t.nowUnixMs
  | .executionStarted m => m.nowUnixMs
  | .gateRetried r => r.nowUnixMs
  | .providerEvent v => v.nowUnixMs

/-- The event takes the lease over. -/
def takesLease : TaskPayload → Bool
  | .transition ⟨_, _, _, .leaseTaken _⟩ => true
  | _ => false

/-- The event releases the lease. -/
def releasesLease : TaskPayload → Bool
  | .transition ⟨_, _, _, .leaseReleased⟩ => true
  | _ => false

/-- The event marks the beginning of execution. -/
def marksExecution : TaskPayload → Bool
  | .executionStarted _ => true
  | _ => false

end TaskPayload

namespace TaskState

/-- The fields of a Task that say who may write. -/
structure Lease where
  writer : String
  epoch : ℕ
  leaseUntil : ℕ
  lastTime : ℕ
  nextSequence : ℕ
  executionEpochs : Finset ℕ

def lease (S : TaskState) : Lease :=
  ⟨S.writer, S.epoch, S.leaseUntil, S.lastTime, S.nextSequence, S.executionEpochs⟩

/-! ## One event -/

/-- What one accepted event does to the lease. -/
structure Fenced (S : TaskState) (e : RunEvent) (S' : TaskState) : Prop where
  sequence : e.sequence = S.nextSequence
  next : S'.nextSequence = S.nextSequence + 1
  time : S'.lastTime = S.leaseTime e.payload.writer e.payload.epoch e.payload.nowUnixMs
  monotone : S.lastTime ≤ S'.lastTime
  /-- a takeover waits for the expiry in force and opens the next epoch -/
  taken : e.payload.takesLease → S.leaseUntil ≤ e.payload.nowUnixMs ∧
    S'.lastTime = e.payload.nowUnixMs ∧ e.payload.epoch = S.epoch + 1 ∧ S'.epoch = S.epoch + 1 ∧
    S'.writer = e.payload.writer
  /-- every other event is the current writer's, before the expiry in force -/
  held : ¬ e.payload.takesLease → e.payload.writer = S.writer ∧ e.payload.epoch = S.epoch ∧
    S'.lastTime < S.leaseUntil ∧ S'.epoch = S.epoch ∧ S'.writer = S.writer
  /-- within an epoch the expiry only grows, except at a release -/
  expiry : ¬ e.payload.takesLease → ¬ e.payload.releasesLease → S.leaseUntil ≤ S'.leaseUntil
  released : e.payload.releasesLease → S'.leaseUntil = S'.lastTime
  /-- only a marker begins the execution of its epoch, and only once -/
  marked : S'.executionEpochs =
    if e.payload.marksExecution then insert S.epoch S.executionEpochs else S.executionEpochs
  once : e.payload.marksExecution → S.epoch ∉ S.executionEpochs

/-- The lease check accepts the current writer and epoch before the expiry. -/
theorem checkLeaseOf_eq_ok {S : TaskState} {writer : String} {epoch nowUnixMs : ℕ} {u : Unit}
    (h : S.checkLeaseOf writer epoch nowUnixMs = .ok u) :
    writer = S.writer ∧ epoch = S.epoch ∧ S.leaseTime writer epoch nowUnixMs < S.leaseUntil := by
  obtain ⟨_, hwho, hwhen⟩ := bind_eq_ok.mp h
  have hwho := requireConflict_eq_ok.mp hwho
  have hwhen := requireConflict_eq_ok.mp hwhen
  simp only [Bool.and_eq_true, decide_eq_true_eq] at hwho hwhen
  exact ⟨hwho.1, hwho.2, hwhen⟩

/-- **Changes keep the lease.** No change of the current writer but a renewal and a
release touches the fields of the lease. -/
theorem applyChange_lease (cas : Cas) (S : TaskState) (event : RunEvent) (change : TaskChange)
    (time : ℕ) (hrenew : ∀ t, change ≠ .leaseRenewed t) (hrelease : change ≠ .leaseReleased) :
    Yields (fun S' => S'.lease = S.lease) (S.applyChange cas event change time) := by
  -- every branch is a chain of checks that ends in an update of other fields
  cases change <;> simp only [applyChange]
  case leaseRenewed t => exact absurd rfl (hrenew t)
  case leaseReleased => exact absurd rfl hrelease
  all_goals
    try simp only [resumeRecording, selectIntegration, finishIntegration, applyReviewHandoff,
      recordAdoption, applySourceRefreshed, adoptRefreshedPlan, proposePlan,
      applyPlanningCompleted, decidePlan, revokeApproval, admitPlan, pause, resume, finish,
      applyExecution, applyRunReport, applyDelivery]
    repeat' first
      | exact Yields.error
      | exact Yields.throw
      | refine Yields.bind fun _ _ => ?_
      | exact Yields.pure rfl
      | split

/-- The expiry after a change of the current writer. -/
def expiryAfter (leaseUntil time : ℕ) : TaskChange → ℕ
  | .leaseRenewed t => t
  | .leaseReleased => time
  | _ => leaseUntil

/-- A change leaves the lease but its expiry, which grows except at a release. -/
theorem applyChange_expiry {cas : Cas} {S S' : TaskState} {event : RunEvent}
    {change : TaskChange} {time : ℕ} (h : S.applyChange cas event change time = .ok S') :
    S'.lease = { S.lease with leaseUntil := expiryAfter S.leaseUntil time change } ∧
      (change ≠ .leaseReleased → S.leaseUntil ≤ S'.leaseUntil) := by
  by_cases hrenew : ∃ t, change = .leaseRenewed t
  · obtain ⟨t, rfl⟩ := hrenew
    obtain ⟨_, hlt, hS'⟩ := bind_eq_ok.mp h
    have hlt := of_decide_eq_true (requireConflict_eq_ok.mp hlt)
    cases hS'
    exact ⟨rfl, fun _ => hlt.le⟩
  by_cases hrelease : change = .leaseReleased
  · subst hrelease
    obtain ⟨_, -, hS'⟩ := bind_eq_ok.mp h
    cases hS'
    exact ⟨rfl, fun hne => absurd rfl hne⟩
  -- any other change keeps the whole lease
  have hkeep := applyChange_lease cas S event change time (fun t ht => hrenew ⟨t, ht⟩) hrelease S' h
  have hexpiry : expiryAfter S.leaseUntil time change = S.leaseUntil := by
    cases change
    case leaseRenewed t => exact absurd ⟨t, rfl⟩ hrenew
    case leaseReleased => exact absurd rfl hrelease
    all_goals rfl
  refine ⟨?_, fun _ => ?_⟩
  · rw [hkeep, hexpiry]
    rfl
  · exact (congrArg Lease.leaseUntil hkeep).ge

/-- The time of the current writer is not before the last recorded one. -/
theorem leaseTime_current {S : TaskState} {writer : String} {epoch nowUnixMs : ℕ}
    (hw : writer = S.writer) (he : epoch = S.epoch) :
    S.leaseTime writer epoch nowUnixMs = max nowUnixMs S.lastTime := by
  rw [leaseTime, if_pos ⟨hw, he⟩]

/-- An event of the current lease that keeps the lease but the clock and the marks. -/
theorem Fenced.of_current {S S' : TaskState} {e : RunEvent}
    {u : Unit} (hseq : e.sequence = S.nextSequence)
    (hlease : S.checkLeaseOf e.payload.writer e.payload.epoch e.payload.nowUnixMs = .ok u)
    (htake : e.payload.takesLease = false) (hnext : S'.nextSequence = e.sequence + 1)
    (htime : S'.lastTime = S.leaseTime e.payload.writer e.payload.epoch e.payload.nowUnixMs)
    (hwriter : S'.writer = S.writer) (hepoch : S'.epoch = S.epoch)
    (hexpiry : ¬ e.payload.releasesLease → S.leaseUntil ≤ S'.leaseUntil)
    (hreleased : e.payload.releasesLease → S'.leaseUntil = S'.lastTime)
    (hmarked : S'.executionEpochs =
      if e.payload.marksExecution then insert S.epoch S.executionEpochs else S.executionEpochs)
    (honce : e.payload.marksExecution → S.epoch ∉ S.executionEpochs) : S.Fenced e S' := by
  obtain ⟨hw, he, hlt⟩ := checkLeaseOf_eq_ok hlease
  refine ⟨hseq, by rw [hnext, hseq], htime, ?_, fun h => ?_, fun _ => ?_, fun _ => hexpiry,
    hreleased, hmarked, honce⟩
  · rw [htime, leaseTime_current hw he]
    exact le_max_right _ _
  · rw [htake] at h
    cases h
  · exact ⟨hw, he, htime ▸ hlt, hepoch, hwriter⟩

/-- A transition that is no takeover ran under the lease in force. -/
theorem applyLeased_eq_ok {cas : Cas} {S S' : TaskState} {event : RunEvent} {t : TaskTransition}
    (h : S.applyLeased cas event t = .ok S') :
    (∃ leaseUntilUnixMs, t.change = .leaseTaken leaseUntilUnixMs ∧
      S.takeLease t leaseUntilUnixMs = .ok S') ∨
    ((∀ leaseUntilUnixMs, t.change ≠ .leaseTaken leaseUntilUnixMs) ∧ S.checkLease t = .ok () ∧
      S.applyChange cas event t.change (S.writerTime t) = .ok S') := by
  unfold applyLeased at h
  split at h
  case h_1 leaseUntilUnixMs hchange => exact .inl ⟨leaseUntilUnixMs, hchange, h⟩
  case h_2 hchange =>
    obtain ⟨⟨⟩, hlease, h⟩ := bind_eq_ok.mp h
    exact .inr ⟨fun l hl => hchange l hl, hlease, h⟩

/-- What an accepted transition passed. -/
theorem apply_eq_ok {cas : Cas} {S S' : TaskState} {event : RunEvent} {t : TaskTransition}
    (h : S.apply cas event t = .ok S') :
    ∃ accounting T, event.sequence = S.nextSequence ∧
      accountingAfterFinish cas t.change = .ok accounting ∧ S.lastTime ≤ S.writerTime t ∧
      (S.phase.isFinished → accounting) ∧ S.applyLeased cas event t = .ok T ∧
      S' = T.recorded event (S.writerTime t) := by
  obtain ⟨_, hseq, h⟩ := bind_eq_ok.mp h
  obtain ⟨accounting, hacc, h⟩ := bind_eq_ok.mp h
  obtain ⟨_, hclock, h⟩ := bind_eq_ok.mp h
  obtain ⟨T, hT, h⟩ := bind_eq_ok.mp h
  cases h
  have hseq := requireConflict_eq_ok.mp hseq
  have hclock := requireConflict_eq_ok.mp hclock
  simp only [decide_eq_true_eq, Bool.not_eq_true', Bool.or_eq_false_iff, decide_eq_false_iff_not,
    not_lt] at hseq hclock
  refine ⟨accounting, T, hseq, hacc, hclock.1, fun hfin => ?_, hT, rfl⟩
  have := hclock.2
  rw [hfin] at this
  simpa using this

theorem apply_fenced {cas : Cas} {S S' : TaskState} {e : RunEvent} {t : TaskTransition}
    (hpay : e.payload = .transition t) (h : S.apply cas e t = .ok S') : S.Fenced e S' := by
  obtain ⟨_, T, hseq, -, htime, -, hT, rfl⟩ := apply_eq_ok h
  obtain ⟨leaseUntilUnixMs, hchange, hT⟩ | ⟨htaken, hlease, hT⟩ := applyLeased_eq_ok hT
  · -- a takeover: the time is the taker's own, since its epoch is not the current one
    obtain ⟨_, hguard, hT⟩ := bind_eq_ok.mp hT
    have hguard := requireConflict_eq_ok.mp hguard
    simp only [Bool.and_eq_true, decide_eq_true_eq] at hguard
    obtain ⟨⟨hexpired, -⟩, hepoch⟩ := hguard
    cases hT
    have hnow : S.writerTime t = t.nowUnixMs := by
      rw [writerTime, leaseTime, if_neg]
      rintro ⟨-, he⟩
      omega
    have htakes : e.payload.takesLease = true := by
      rw [hpay]
      cases t
      subst hchange
      rfl
    have hquiet : e.payload.releasesLease = false ∧ e.payload.marksExecution = false := by
      rw [hpay]
      cases t
      subst hchange
      exact ⟨rfl, rfl⟩
    refine ⟨hseq, by rw [← hseq]; rfl, by rw [hpay]; rfl, htime, fun _ => ?_,
      fun hn => absurd htakes hn, fun hn => absurd htakes hn, fun hr => ?_, ?_, fun hm => ?_⟩
    · rw [hpay]
      exact ⟨hexpired, hnow, hepoch, hepoch, rfl⟩
    · rw [hquiet.1] at hr
      cases hr
    · rw [hquiet.2]
      rfl
    · rw [hquiet.2] at hm
      cases hm
  · -- a change of the current writer
    obtain ⟨hT, hgrow⟩ := applyChange_expiry hT
    have htakes : e.payload.takesLease = false := by
      rw [hpay]
      obtain ⟨w, ep, now, change⟩ := t
      cases change
      case leaseTaken => exact absurd rfl (htaken _)
      all_goals rfl
    have hreleases : e.payload.releasesLease = true ↔ t.change = .leaseReleased := by
      rw [hpay]
      obtain ⟨w, ep, now, change⟩ := t
      cases change <;> simp [TaskPayload.releasesLease]
    have hmarks : e.payload.marksExecution = false := by
      rw [hpay]
      rfl
    refine Fenced.of_current (u := ()) hseq (by rw [hpay]; exact hlease) htakes rfl
      (by rw [hpay]; rfl) (congrArg Lease.writer hT) (congrArg Lease.epoch hT) (fun hn => ?_)
      (fun hr => ?_) ?_ fun hm => ?_
    · exact hgrow fun hc => hn (hreleases.mpr hc)
    · have := congrArg Lease.leaseUntil hT
      rw [hreleases.mp hr] at this
      exact this
    · rw [hmarks]
      exact congrArg Lease.executionEpochs hT
    · rw [hmarks] at hm
      cases hm

theorem applyExecutionStarted_fenced {S S' : TaskState} {e : RunEvent} {m : ExecutionStarted}
    (hpay : e.payload = .executionStarted m) (h : S.applyExecutionStarted e m = .ok S') :
    S.Fenced e S' := by
  obtain ⟨_, hseq, h⟩ := bind_eq_ok.mp h
  obtain ⟨_, -, h⟩ := bind_eq_ok.mp h
  obtain ⟨_, -, h⟩ := bind_eq_ok.mp h
  obtain ⟨_, -, h⟩ := bind_eq_ok.mp h
  obtain ⟨u, hlease, h⟩ := bind_eq_ok.mp h
  obtain ⟨_, honce, h⟩ := bind_eq_ok.mp h
  cases h
  have hseq := of_decide_eq_true (requireConflict_eq_ok.mp hseq)
  have honce := of_decide_eq_true (requireConflict_eq_ok.mp honce)
  obtain ⟨hw, he, -⟩ := checkLeaseOf_eq_ok hlease
  refine Fenced.of_current (u := u) hseq (by rw [hpay]; exact hlease) (by rw [hpay]; rfl) rfl
    (by rw [hpay]; rfl) rfl rfl (fun _ => le_refl _) (fun hr => ?_) ?_ fun _ => he ▸ honce
  · rw [hpay] at hr
    cases hr
  · rw [hpay, ← he]
    rfl

theorem applyProviderEvent_fenced {S S' : TaskState} {e : RunEvent} {v : ProviderEvent}
    (hpay : e.payload = .providerEvent v) (h : S.applyProviderEvent e v = .ok S') :
    S.Fenced e S' := by
  obtain ⟨_, hseq, h⟩ := bind_eq_ok.mp h
  obtain ⟨_, -, h⟩ := bind_eq_ok.mp h
  obtain ⟨_, -, h⟩ := bind_eq_ok.mp h
  obtain ⟨u, hlease, h⟩ := bind_eq_ok.mp h
  obtain ⟨_, -, h⟩ := bind_eq_ok.mp h
  cases h
  have hseq := of_decide_eq_true (requireConflict_eq_ok.mp hseq)
  refine Fenced.of_current (u := u) hseq (by rw [hpay]; exact hlease) (by rw [hpay]; rfl) rfl
    (by rw [hpay]; rfl) rfl rfl (fun _ => le_refl _) (fun hr => ?_) (by rw [hpay]; rfl) fun hm => ?_
  · rw [hpay] at hr
    cases hr
  · rw [hpay] at hm
    cases hm

theorem applyGateRetried_fenced {cas : Cas} {S S' : TaskState} {e : RunEvent} {r : GateRetried}
    (hpay : e.payload = .gateRetried r) (h : S.applyGateRetried cas e r = .ok S') :
    S.Fenced e S' := by
  obtain ⟨_, hseq, h⟩ := bind_eq_ok.mp h
  obtain ⟨_, -, h⟩ := bind_eq_ok.mp h
  obtain ⟨_, -, h⟩ := bind_eq_ok.mp h
  obtain ⟨_, hcheck, h⟩ := bind_eq_ok.mp h
  obtain ⟨u, hlease, -⟩ := bind_eq_ok.mp hcheck
  obtain ⟨_, -, h⟩ := bind_eq_ok.mp h
  obtain ⟨_, -, h⟩ := bind_eq_ok.mp h
  obtain ⟨_, -, h⟩ := bind_eq_ok.mp h
  obtain ⟨_, -, h⟩ := bind_eq_ok.mp h
  cases h
  have hseq := of_decide_eq_true (requireConflict_eq_ok.mp hseq)
  refine Fenced.of_current (u := u) hseq (by rw [hpay]; exact hlease) (by rw [hpay]; rfl) rfl
    (by rw [hpay]; rfl) rfl rfl (fun _ => le_refl _) (fun hr => ?_) (by rw [hpay]; rfl) fun hm => ?_
  · rw [hpay] at hr
    cases hr
  · rw [hpay] at hm
    cases hm

/-- **One event.** Every accepted event, of whichever of the four kinds, is fenced. -/
theorem applyEvent_fenced {cas : Cas} {S S' : TaskState} {e : RunEvent}
    (h : S.applyEvent cas e = .ok S') : S.Fenced e S' := by
  unfold applyEvent at h
  split at h
  case h_1 t hpay => exact apply_fenced hpay h
  case h_2 m hpay => exact applyExecutionStarted_fenced hpay h
  case h_3 r hpay => exact applyGateRetried_fenced hpay h
  case h_4 v hpay => exact applyProviderEvent_fenced hpay h

/-! ## Whole logs -/

/-- One event of an opened log; a refused event refuses the log. -/
def step (cas : Cas) (S : TaskState) (e : RunEvent) : Option TaskState :=
  (S.applyEvent cas e).toOption

theorem step_eq_some {cas : Cas} {S S' : TaskState} {e : RunEvent} :
    S.step cas e = some S' ↔ S.applyEvent cas e = .ok S' := by
  unfold step
  cases S.applyEvent cas e <;> simp [Except.toOption]

/-- The Task a log stands for, if the projection accepts it from its genesis event. -/
def ofLog (cas : Cas) (taskId : String) : List RunEvent → Option TaskState
  | [] => none
  | first :: rest => (opening cas taskId first).toOption.bind fun S => run (step cas) S rest

theorem ofLog_cons_eq_some {cas : Cas} {taskId : String} {first : RunEvent}
    {rest : List RunEvent} {S : TaskState} :
    ofLog cas taskId (first :: rest) = some S ↔
      ∃ S₀, opening cas taskId first = .ok S₀ ∧ run (step cas) S₀ rest = some S := by
  rw [ofLog, Option.bind_eq_some_iff]
  cases opening cas taskId first <;> simp [Except.toOption]

/-- The genesis of a log: the first event, the first epoch. -/
theorem opening_eq_ok {cas : Cas} {taskId : String} {e : RunEvent} {S : TaskState}
    (h : opening cas taskId e = .ok S) :
    ∃ t revisionId leaseUntilUnixMs, e.payload = .transition t ∧
      t.change = .opened revisionId leaseUntilUnixMs ∧ e.sequence = 0 ∧ t.epoch = 1 ∧
      ∃ revision, cas.revision revisionId = .ok revision ∧
        S = genesis taskId revisionId revision t leaseUntilUnixMs := by
  unfold opening at h
  split at h
  case h_1 t hpay =>
    split at h
    case h_1 revisionId leaseUntilUnixMs hchange =>
      obtain ⟨revision, hrev, h⟩ := bind_eq_ok.mp h
      obtain ⟨_, hguard, h⟩ := bind_eq_ok.mp h
      cases h
      have hguard := requireConflict_eq_ok.mp hguard
      simp only [Bool.and_eq_true, decide_eq_true_eq] at hguard
      exact ⟨t, revisionId, leaseUntilUnixMs, hpay, hchange, hguard.1.2, hguard.2, revision, hrev,
        rfl⟩
    case h_2 => cases h
  all_goals cases h

/-- The two states around one event of an accepted run. -/
theorem run_split {cas : Cas} {S S' : TaskState} {before after : List RunEvent} {e : RunEvent}
    (h : run (step cas) S (before ++ e :: after) = some S') :
    ∃ T T', run (step cas) S before = some T ∧ T.applyEvent cas e = .ok T' ∧
      run (step cas) T' after = some S' := by
  obtain ⟨T, hT, h⟩ := run_append_eq_some.mp h
  obtain ⟨T', hT', h⟩ := run_cons_eq_some.mp h
  exact ⟨T, T', hT, step_eq_some.mp hT', h⟩

/-- **Density.** The events of a run carry the sequences from the next one on. -/
theorem run_dense {cas : Cas} {events : List RunEvent} {S S' : TaskState}
    (h : run (step cas) S events = some S') :
    events.map RunEvent.sequence = List.range' S.nextSequence events.length ∧
      S'.nextSequence = S.nextSequence + events.length := by
  induction events generalizing S with
  | nil =>
    cases h
    exact ⟨rfl, rfl⟩
  | cons e events ih =>
    obtain ⟨T, hT, h⟩ := run_cons_eq_some.mp h
    have hf := applyEvent_fenced (step_eq_some.mp hT)
    obtain ⟨hseq, hnext⟩ := ih h
    rw [hf.next] at hseq hnext
    refine ⟨?_, ?_⟩
    · rw [List.map_cons, List.length_cons, List.range'_succ, hseq, hf.sequence]
    · rw [hnext, List.length_cons]
      omega

/-- An event's epoch is the epoch after it. -/
theorem Fenced.epoch_eq {S S' : TaskState} {e : RunEvent} (h : S.Fenced e S') :
    e.payload.epoch = S'.epoch := by
  by_cases ht : e.payload.takesLease
  · obtain ⟨-, -, he, he', -⟩ := h.taken ht
    rw [he, he']
  · obtain ⟨-, he, -, he', -⟩ := h.held ht
    rw [he, he']

/-- The epoch grows by one at a takeover and at nothing else. -/
theorem Fenced.epoch_succ {S S' : TaskState} {e : RunEvent} (h : S.Fenced e S') :
    S'.epoch = if e.payload.takesLease then S.epoch + 1 else S.epoch := by
  by_cases ht : e.payload.takesLease
  · rw [if_pos ht]
    exact (h.taken ht).2.2.2.1
  · rw [if_neg ht]
    exact (h.held ht).2.2.2.1

theorem Fenced.epoch_le {S S' : TaskState} {e : RunEvent} (h : S.Fenced e S') :
    S.epoch ≤ S'.epoch := by
  rw [h.epoch_succ]
  split <;> omega

/-- **Epochs.** No event of a run is of an epoch before the one it started in, nor of one
before an earlier event's. -/
theorem run_epochs {cas : Cas} {events : List RunEvent} {S S' : TaskState}
    (h : run (step cas) S events = some S') :
    (∀ e ∈ events, S.epoch ≤ e.payload.epoch) ∧
      events.Pairwise fun a b => a.payload.epoch ≤ b.payload.epoch := by
  induction events generalizing S with
  | nil => exact ⟨fun e he => absurd he List.not_mem_nil, .nil⟩
  | cons e events ih =>
    obtain ⟨T, hT, h⟩ := run_cons_eq_some.mp h
    have hf := applyEvent_fenced (step_eq_some.mp hT)
    obtain ⟨hall, hpair⟩ := ih h
    refine ⟨fun e' he' => ?_, List.pairwise_cons.mpr ⟨fun e' he' => ?_, hpair⟩⟩
    · rcases List.mem_cons.mp he' with rfl | he'
      · rw [hf.epoch_eq]
        exact hf.epoch_le
      · exact hf.epoch_le.trans (hall e' he')
    · rw [hf.epoch_eq]
      exact hall e' he'

/-- The epochs whose execution the events mark. -/
def markedEpochs (events : List RunEvent) : List ℕ :=
  (events.filter fun e => e.payload.marksExecution).map fun e => e.payload.epoch

theorem markedEpochs_cons (e : RunEvent) (events : List RunEvent) :
    markedEpochs (e :: events) = if e.payload.marksExecution then
      e.payload.epoch :: markedEpochs events else markedEpochs events := by
  unfold markedEpochs
  rw [List.filter_cons]
  split <;> rfl

/-- **Markers.** A run marks no epoch twice, and none that was marked before it. -/
theorem run_markers {cas : Cas} {events : List RunEvent} {S S' : TaskState}
    (h : run (step cas) S events = some S') :
    (markedEpochs events).Nodup ∧ ∀ epoch ∈ markedEpochs events, epoch ∉ S.executionEpochs := by
  induction events generalizing S with
  | nil => exact ⟨.nil, fun _ h => absurd h List.not_mem_nil⟩
  | cons e events ih =>
    obtain ⟨T, hT, h⟩ := run_cons_eq_some.mp h
    have hf := applyEvent_fenced (step_eq_some.mp hT)
    obtain ⟨hnodup, hfresh⟩ := ih h
    have hmarked := hf.marked
    by_cases hm : e.payload.marksExecution
    · -- a marker names the epoch it is in, which becomes marked
      have hcons : markedEpochs (e :: events) = S.epoch :: markedEpochs events := by
        have htake : ¬ e.payload.takesLease := by
          intro ht
          cases hp : e.payload <;> rw [hp] at hm ht <;> simp_all [TaskPayload.marksExecution,
            TaskPayload.takesLease]
        rw [markedEpochs_cons, if_pos hm, (hf.held htake).2.1]
      rw [if_pos hm] at hmarked
      rw [hcons]
      refine ⟨List.nodup_cons.mpr ⟨fun hmem => ?_, hnodup⟩, fun epoch hmem => ?_⟩
      · exact hfresh _ hmem (hmarked ▸ Finset.mem_insert_self _ _)
      · rcases List.mem_cons.mp hmem with rfl | hmem
        · exact hf.once hm
        · exact fun hold => hfresh _ hmem (hmarked ▸ Finset.mem_insert_of_mem hold)
    · rw [if_neg hm] at hmarked
      rw [markedEpochs_cons, if_neg hm]
      exact ⟨hnodup, fun epoch hmem => hmarked ▸ hfresh epoch hmem⟩

/-- **Writer fencing.** In every log the projection accepts, sequences are dense from
zero, epochs never fall, no epoch is marked twice, and every event after the genesis is
fenced by the state before it: a takeover waits for the expiry in force and opens the
next epoch, everything else is the current writer's before the expiry; after a takeover
no event of an older epoch is accepted. -/
theorem ofLog_writer_fenced {cas : Cas} {taskId : String} {log : List RunEvent} {S : TaskState}
    (h : ofLog cas taskId log = some S) :
    log.map RunEvent.sequence = List.range log.length ∧ S.nextSequence = log.length ∧
      (log.Pairwise fun a b => a.payload.epoch ≤ b.payload.epoch) ∧ (markedEpochs log).Nodup ∧
      ∀ before e after, log = before ++ e :: after → before ≠ [] →
        ∃ T T', ofLog cas taskId before = some T ∧ ofLog cas taskId (before ++ [e]) = some T' ∧
          T.Fenced e T' ∧ T'.epoch = (if e.payload.takesLease then T.epoch + 1 else T.epoch) ∧
          ∀ e' ∈ after, T'.epoch ≤ e'.payload.epoch := by
  cases log with
  | nil => cases h
  | cons first rest =>
    obtain ⟨S₀, hopen, hrun⟩ := ofLog_cons_eq_some.mp h
    obtain ⟨t, revisionId, leaseUntilUnixMs, hpay, hchange, hzero, hone, revision, -, hS₀⟩ :=
      opening_eq_ok hopen
    have hnext : S₀.nextSequence = 1 := by rw [hS₀]; rfl
    have hepoch : S₀.epoch = 1 := by rw [hS₀]; rfl
    obtain ⟨hdense, hlast⟩ := run_dense hrun
    obtain ⟨hlow, hpair⟩ := run_epochs hrun
    refine ⟨?_, ?_, List.pairwise_cons.mpr ⟨fun e he => ?_, hpair⟩, ?_, ?_⟩
    · rw [List.map_cons, hdense, hnext, hzero, List.length_cons, List.range_eq_range',
        List.range'_succ]
    · rw [hlast, hnext, List.length_cons]
      omega
    · rw [hpay]
      exact (hone.trans hepoch.symm).le.trans (hlow e he)
    · have hfirst : ¬ first.payload.marksExecution := by
        rw [hpay]
        exact Bool.false_ne_true
      rw [markedEpochs_cons, if_neg hfirst]
      exact (run_markers hrun).1
    · intro before e after hlog hbefore
      obtain ⟨b, before, rfl⟩ := List.exists_cons_of_ne_nil hbefore
      obtain ⟨rfl, rfl⟩ := List.cons.inj hlog
      obtain ⟨T, T', hT, hstep, hafter⟩ := run_split hrun
      have hf := applyEvent_fenced hstep
      have hT' : run (step cas) S₀ (before ++ [e]) = some T' :=
        run_append_eq_some.mpr ⟨T, hT, run_cons_eq_some.mpr ⟨T', step_eq_some.mpr hstep, rfl⟩⟩
      exact ⟨T, T', ofLog_cons_eq_some.mpr ⟨S₀, hopen, hT⟩,
        ofLog_cons_eq_some.mpr ⟨S₀, hopen, hT'⟩, hf, hf.epoch_succ, (run_epochs hafter).1⟩

/-- A store that holds one revision and nothing else. -/
def leaseCas : Cas where
  sha256 := id
  taskRunId taskId := .ok ("task:" ++ taskId)
  revision _ := .ok {
    taskId := "task-1"
    revision := 1
    kind := "implement"
    authority := { policyId := "policy" }
    limits := ⟨100, 4, 1000, ⟨0, 0, 0⟩⟩ }

/-- An event of the log of `leaseCas`. -/
def leaseEvent (sequence : ℕ) (payload : TaskPayload) : RunEvent where
  runId := "task:task-1"
  eventId := "event-" ++ toString sequence
  sequence := sequence
  occurredAt := "1970-01-01T00:00:00Z"
  artifactRefs := []
  payload := payload

/-- Two writers with skewed clocks: the first renews and releases, the second takes over. -/
def leaseLog : List RunEvent := [
  leaseEvent 0 (.transition ⟨"first", 1, 10, .opened "revision" 100⟩),
  leaseEvent 1 (.executionStarted ⟨"first", 1, 5⟩),
  leaseEvent 2 (.transition ⟨"first", 1, 7, .leaseRenewed 120⟩),
  leaseEvent 3 (.transition ⟨"first", 1, 20, .leaseReleased⟩),
  leaseEvent 4 (.transition ⟨"second", 2, 20, .leaseTaken 200⟩),
  leaseEvent 5 (.executionStarted ⟨"second", 2, 15⟩)]

theorem ofLog_writer_fenced_takeover : ∃ S, ofLog leaseCas "task-1" leaseLog = some S ∧
    S.epoch = 2 ∧ S.lastTime = 20 ∧ leaseLog.map RunEvent.sequence = List.range 6 ∧
    markedEpochs leaseLog = [1, 2] ∧ (markedEpochs leaseLog).Nodup := by
  obtain ⟨S, hS⟩ : ∃ S, ofLog leaseCas "task-1" leaseLog = some S :=
    Option.isSome_iff_exists.mp (by decide)
  obtain ⟨hdense, -, -, hmarks, -⟩ := ofLog_writer_fenced hS
  have hlast : (ofLog leaseCas "task-1" leaseLog).map (fun S => (S.epoch, S.lastTime)) =
      some (2, 20) := by decide
  rw [hS] at hlast
  obtain ⟨hepoch, htime⟩ := Prod.mk.inj (Option.some.inj hlast)
  exact ⟨S, hS, hepoch, htime, hdense, rfl, hmarks⟩

end TaskState

end Afactory
