import Mathlib
import Afactory.LedgerChanges

/-!
# What an input leaves alone in a Ledger

Demands and the policy time are written by their own events only.

* `Steady`: two Ledgers of the same Demands and the same policy time;
* `step_steady`: an accepted input of any other kind is steady;
* `step_demandOf`, `step_policyTime`: what the events of each do to the other, and what revising a
  Demand leaves of its content.
-/

namespace Afactory

/-- The events that write Demands. -/
def RecordKind.isDemandKind : RecordKind → Bool
  | .demandRecorded | .demandWaived | .evidenceAdded | .evidenceReuseAdmitted
  | .evidenceSatisfied => true
  | _ => false

/-- The kind of the artifact an input records. -/
def LedgerInput.recordKind : LedgerInput → Option RecordKind
  | .event _ (.recorded kind _) _ => some kind
  | _ => none

namespace Ledger

variable {viewId : Finding → Option String} {L L' L'' : Ledger} {input : LedgerInput}

/-- Demands and policy time stay. -/
structure Steady (L L' : Ledger) : Prop where
  demands : L'.demands = L.demands
  policyTime : L'.policyTime = L.policyTime

namespace Steady

theorem refl (L : Ledger) : Steady L L := ⟨rfl, rfl⟩

theorem trans (h : Steady L L') (h' : Steady L' L'') : Steady L L'' :=
  ⟨h'.demands.trans h.demands, h'.policyTime.trans h.policyTime⟩

theorem failure (L : Ledger) (f : ScopeAuthorityFailure) :
    Steady L (L.recordAuthorityFailure f) := by
  rw [recordAuthorityFailure]
  split_ifs
  · exact .refl L
  · exact ⟨rfl, rfl⟩

theorem setStatus (L : Ledger) (key : String) (status : FindingStatus) (t : Transition) :
    Steady L (L.setStatus key status t) := by
  rw [Ledger.setStatus]
  split
  · exact .refl L
  · exact ⟨rfl, rfl⟩

theorem setStatuses (L : Ledger) (keys : List String) (status : FindingStatus) (t : Transition) :
    Steady L (L.setStatuses keys status t) := by
  induction keys generalizing L with
  | nil => exact .refl L
  | cons key keys ih => exact (Steady.setStatus L key status t).trans (ih _)

/-! ## Reports and Rounds -/

theorem attachReport (L : Ledger) (key : String) (r : Reporting) :
    Steady L (L.attachReport key r) := by
  rw [Ledger.attachReport]
  split <;> exact ⟨rfl, rfl⟩

theorem prepareReport (L : Ledger) (cas : ContentStore) (key source : String) (round : ℕ)
    (reportId : String) : Steady L (L.prepareReport cas key source round reportId).2 := by
  have hproject : Steady L (L.projectReport cas round reportId).2 := by
    rw [projectReport]
    split
    · exact .refl L
    · exact .failure _ _
  have hbind : ∀ (L : Ledger) report, Steady L (L.bindSnapshot round reportId report).2 := by
    intro L report
    rw [bindSnapshot]
    split
    · split_ifs
      · exact .failure _ _
      · exact .refl L
    · exact .refl L
  have hscope : ∀ (L : Ledger) location, Steady L (L.reportScope round location).2 := by
    intro L location
    rw [reportScope]
    split
    · exact .refl L
    · split_ifs
      · exact .failure _ _
      · split
        · exact .refl L
        · exact .refl L
        · exact .refl L
        · exact .refl L
        · split <;> exact .refl L
  exact hproject.trans ((hbind _ _).trans (hscope _ _))

theorem applyReport {cas : ContentStore} {payload : FindingReported} {artifactRefs : List String}
    (h : L.applyReport cas payload artifactRefs = (.ok (), L')) : Steady L L' := by
  obtain ⟨key, source, round, reportId, -, -, -, -, rfl⟩ := applyReport_eq_ok h
  exact (prepareReport L cas key source round reportId).trans (.attachReport _ _ _)

theorem applyResolution {payload : FindingResolved}
    (h : L.applyResolution payload = (.ok (), L')) : Steady L L' := by
  rw [Ledger.applyResolution] at h
  split at h
  · cases h
  · cases h
    exact .setStatus _ _ _ _

theorem applyGrouping {cas : ContentStore} {action : GroupingAction} {payload : FindingsGrouped}
    {artifactRefs : List String} (h : L.applyGrouping cas action payload artifactRefs = (.ok (), L')) :
    Steady L L' := by
  rw [applyGrouping.eq_def] at h
  split at h
  · cases h
  · cases h
    cases action <;> exact ⟨rfl, rfl⟩

theorem applyCampaignOpened {cas : ContentStore} {manifestId : String}
    (h : L.applyCampaignOpened cas manifestId = (.ok (), L')) : Steady L L' := by
  rw [Ledger.applyCampaignOpened] at h
  split at h
  · cases h
    exact ⟨rfl, rfl⟩
  · cases h
    have hpolicy : Steady L { L with
        findingIdentityPolicy := ""
        findingIdentityPolicyUnavailable := true } := ⟨rfl, rfl⟩
    exact hpolicy.trans (.failure _ _)

theorem roundScope (L : Ledger) (cas : ContentStore) (subjectId : String) :
    Steady L (L.roundScope cas subjectId).2 := by
  rw [Ledger.roundScope]
  split
  · exact .refl L
  · split
    · exact .refl L
    · split
      · exact .refl L
      · exact ⟨rfl, rfl⟩

theorem applyRoundStarted {cas : ContentStore} {started : RoundStarted}
    (h : L.applyRoundStarted cas started = (.ok (), L')) : Steady L L' := by
  have hscope := roundScope L cas started.subjectId
  rw [Ledger.applyRoundStarted] at h
  simp only at h
  split at h
  · cases h
    exact hscope.trans ⟨rfl, rfl⟩
  · cases h
    exact hscope.trans ((failure _ _).trans ⟨rfl, rfl⟩)

/-! ## Recorded artifacts -/

theorem changeAttested {subject : String} {artifact : Artifact} {attestation : ChangeAttestation}
    (h : L.applyChangeAttested viewId subject artifact attestation = .ok L') : Steady L L' := by
  obtain ⟨_, -, h⟩ := bind_eq_ok.mp h
  obtain ⟨_, -, h⟩ := bind_eq_ok.mp h
  obtain ⟨keys, -, h⟩ := bind_eq_ok.mp h
  cases h
  exact (setStatuses _ _ _ _).trans ⟨rfl, rfl⟩

theorem fixVerified {subject : String} {artifact : Artifact} {verification : FixVerification}
    (h : L.applyFixVerified viewId subject artifact verification = .ok L') : Steady L L' := by
  obtain ⟨_, -, h⟩ := bind_eq_ok.mp h
  split at h
  · cases h
  · obtain ⟨_, -, h⟩ := bind_eq_ok.mp h
    cases h
    exact ⟨rfl, rfl⟩

theorem coverMembers (L : Ledger) (keys : List String) (id : RecordedId) (r : FindingResolution)
    (status : FindingStatus) : Steady L (L.coverMembers keys id r status) := by
  rw [Ledger.coverMembers]
  exact (setStatuses _ _ _ _).trans ⟨rfl, rfl⟩

theorem resolutionChallenged {subject : String} {id : RecordedId}
    {challenge : ResolutionChallenge}
    (h : L.applyResolutionChallenged subject id challenge = .ok L') : Steady L L' := by
  rw [applyResolutionChallenged] at h
  split at h
  · cases h
  · obtain ⟨_, -, h⟩ := bind_eq_ok.mp h
    obtain ⟨keys, -, h⟩ := bind_eq_ok.mp h
    cases h
    exact (setStatuses _ _ _ _).trans ⟨rfl, rfl⟩

/-- A resolution authority event is steady unless it advances the policy time. -/
theorem resolutionAuthorityEvent {kind : RecordKind} {subject : String} {id : RecordedId}
    {artifact : Artifact} (hkind : kind ≠ .policyTimeAdvanced)
    (h : L.resolutionAuthorityEvent viewId kind subject id artifact = .ok L') : Steady L L' := by
  rw [resolutionAuthorityEvent.eq_def] at h
  split at h
  · exact changeAttested h
  · cases h
  · exact fixVerified h
  · cases h
  · obtain ⟨keys, status, -, rfl⟩ := applyResolutionRecorded_covers h
    exact coverMembers _ _ _ _ _
  · cases h
  · exact resolutionChallenged h
  · cases h
  · exact absurd rfl hkind
  · cases h
  · cases h

theorem recordedEvent {cas : ContentStore} {kind : RecordKind} {artifactId : String}
    {artifactRefs : List String} (hdemand : kind.isDemandKind = false)
    (hkind : kind ≠ .policyTimeAdvanced)
    (h : L.recordedEvent viewId cas kind artifactId artifactRefs = .ok L') : Steady L L' := by
  obtain ⟨artifact, -, h⟩ := bind_eq_ok.mp h
  cases kind
  case demandRecorded | demandWaived | evidenceAdded | evidenceReuseAdmitted | evidenceSatisfied =>
    cases hdemand
  all_goals
    dsimp only at h
    split at h
    · cases h
    · exact resolutionAuthorityEvent hkind h

/-! ## What a Task does -/

theorem reopenFixed {subjectId : String} {round : ℕ} {fixed : List (String × String)}
    (h : reopenFixed subjectId round fixed L = (.ok (), L')) : Steady L L' := by
  induction fixed generalizing L with
  | nil =>
    cases h
    exact .refl _
  | cons entry fixed ih =>
    obtain ⟨key, fixedSubject⟩ := entry
    rw [Ledger.reopenFixed] at h
    split at h
    · exact ih h
    · split at h
      · cases h
      · have hrest := ih h
        split_ifs at hrest
        · exact (Steady.setStatus _ _ _ _).trans hrest
        · exact hrest

theorem bindTaskSubject {cas : ContentStore} {subjectId : String} {round : ℕ}
    (h : L.bindTaskSubject cas subjectId round = (.ok (), L')) : Steady L L' := by
  rw [Ledger.bindTaskSubject] at h
  split at h
  · cases h
  · split at h
    · cases h
    · split at h
      · cases h
      · rename_i hreopen
        split at h
        · cases h
        · cases h
          exact (reopenFixed hreopen).trans ⟨rfl, rfl⟩

theorem projectTaskFixes {cas : ContentStore} {assessment : RepairAssessment}
    (h : L.projectTaskFixes viewId cas assessment = (.ok (), L')) : Steady L L' := by
  have hfold : ∀ (changes : List (String × String)) (L : Ledger),
      Steady L (changes.foldl (fixByTask assessment.currentSubjectId) L) := by
    intro changes
    induction changes with
    | nil => exact fun L => .refl L
    | cons change changes ih =>
      intro L
      have hone : Steady L (fixByTask assessment.currentSubjectId L change) :=
        (Steady.setStatus _ _ _ _).trans ⟨rfl, rfl⟩
      exact hone.trans (ih _)
  rw [Ledger.projectTaskFixes] at h
  split at h
  · cases h
  · split at h
    · cases h
    · cases h
      exact hfold _ _

end Steady

/-- **An accepted input** that neither writes a Demand nor advances the policy time is steady. -/
theorem step_steady (h : L.step viewId input = some L')
    (hkind : ∀ kind, input.recordKind = some kind →
      kind.isDemandKind = false ∧ kind ≠ .policyTimeAdvanced) : Steady L L' := by
  rw [step] at h
  split at h
  case h_2 => cases h
  case h_1 M hreply =>
    cases h
    cases input with
    | event cas event artifactRefs =>
      cases event with
      | campaignOpened manifestId => exact .applyCampaignOpened hreply
      | roundStarted started => exact .applyRoundStarted hreply
      | generationAdvanced round =>
        have hround := commit_eq_ok hreply
        cases hrequired : requiredRound round "GenerationAdvanced@1" with
        | error e =>
          rw [hrequired] at hround
          cases hround
        | ok n =>
          rw [hrequired] at hround
          cases hround
          exact ⟨rfl, rfl⟩
      | findingReported payload => exact .applyReport hreply
      | findingResolved payload => exact .applyResolution hreply
      | findingsGrouped action payload => exact .applyGrouping hreply
      | recorded kind artifactId =>
        obtain ⟨hdemand, hne⟩ := hkind kind rfl
        exact .recordedEvent hdemand hne (commit_eq_ok hreply)
      | other =>
        cases hreply
        exact .refl _
    | bindTaskSubject cas subjectId round => exact .bindTaskSubject hreply
    | projectTaskFixes cas assessment => exact .projectTaskFixes hreply

/-! ## Demands -/

/-- What a recorded Demand says. -/
def demandOf (L : Ledger) (id : String) : Option Demand :=
  (L.demands.get id).map DemandRecord.demand

theorem Steady.demandOf (h : Steady L L') (id : String) : L'.demandOf id = L.demandOf id := by
  rw [Ledger.demandOf, Ledger.demandOf, h.demands]

/-- Revising a Demand changes what is recorded beside its content. -/
theorem reviseDemand_keeps {kind : RecordKind} {demandId unknown : String}
    {revise : DemandRecord → Except String DemandRecord}
    (hrevise : ∀ record record', revise record = .ok record' → record'.demand = record.demand)
    (h : L.reviseDemand kind demandId unknown revise = .ok L') :
    (∀ id, L'.demandOf id = L.demandOf id) ∧ L'.policyTime = L.policyTime := by
  rw [reviseDemand] at h
  split at h
  · cases h
  · rename_i record hget
    cases hnew : revise record with
    | error e =>
      rw [hnew] at h
      cases h
    | ok record' =>
      rw [hnew] at h
      cases h
      refine ⟨fun id => ?_, rfl⟩
      simp only [demandOf, OrdMap.get_insert]
      split_ifs with hid
      · rw [hid, hget, Option.map_some, Option.map_some, hrevise record record' hnew]
      · rfl

/-- A Demand is recorded where there is none. -/
theorem recordDemand_demandOf {id : RecordedId} {demand : Demand}
    (h : L.recordDemand id demand = .ok L') :
    (∀ i, L'.demandOf i = if i = demand.demandId then (L.demandOf i).or (some demand)
      else L.demandOf i) ∧ L'.policyTime = L.policyTime := by
  rw [recordDemand] at h
  split at h
  case h_1 existing hget =>
    split_ifs at h
    cases h
    refine ⟨fun i => ?_, rfl⟩
    simp only [demandOf, OrdMap.get_insert]
    split_ifs with hi
    · simp [hi, hget]
    · rfl
  case h_2 hget =>
    cases h
    refine ⟨fun i => ?_, rfl⟩
    simp only [demandOf, OrdMap.get_insert]
    split_ifs with hi
    · simp [hi, hget]
    · rfl

/-- The other events of a Demand keep its content. -/
theorem demandEvidence_keeps {kind : RecordKind} {id : RecordedId} {payload : ArtifactPayload}
    (hkind : kind ≠ .demandRecorded) (h : L.demandEvidence kind id payload = .ok L') :
    (∀ i, L'.demandOf i = L.demandOf i) ∧ L'.policyTime = L.policyTime := by
  rw [demandEvidence.eq_def] at h
  split at h
  · exact absurd rfl hkind
  · cases h
  · refine reviseDemand_keeps (fun record record' hrevise => ?_) h
    cases hrevise
    rfl
  · cases h
  · refine reviseDemand_keeps (fun record record' hrevise => ?_) h
    split_ifs at hrevise
    cases hrevise
    rfl
  · cases h
  · refine reviseDemand_keeps (fun record record' hrevise => ?_) h
    split_ifs at hrevise
    cases hrevise
    rfl
  · cases h
  · refine reviseDemand_keeps (fun record record' hrevise => ?_) h
    cases hrevise
    rfl
  · cases h
  · cases h

/-- An accepted input that records an artifact reads it, and follows its kind. -/
theorem step_recorded {cas : ContentStore} {kind : RecordKind} {artifactId : String}
    {artifactRefs : List String}
    (h : L.step viewId (.event cas (.recorded kind artifactId) artifactRefs) = some L') :
    L.recordedEvent viewId cas kind artifactId artifactRefs = .ok L' := by
  rw [step] at h
  split at h
  case h_2 => cases h
  case h_1 M hreply =>
    cases h
    exact commit_eq_ok hreply

/-- An accepted tick is later than the policy time, and becomes it. -/
theorem policyTimeAdvanced_eq_ok {subject : String} {id : RecordedId} {artifact : Artifact}
    (h : L.resolutionAuthorityEvent viewId .policyTimeAdvanced subject id artifact = .ok L') :
    ∃ tick, artifact.payload = .policyTime tick ∧ L.policyTime < tick ∧
      L' = { L with policyTime := tick, resolutionHistory := L.resolutionHistory ++ [id] } := by
  obtain ⟨artifactId, snapshot, payload⟩ := artifact
  cases payload
  case policyTime tick =>
    obtain ⟨⟨⟩, hlater, h⟩ := bind_eq_ok.mp h
    cases h
    rw [requireEvent] at hlater
    split_ifs at hlater with hlt
    exact ⟨tick, rfl, of_decide_eq_true hlt, rfl⟩
  all_goals cases h

/-- **Demands keep their content** under every accepted input that records none. -/
theorem step_demandOf (h : L.step viewId input = some L')
    (hkind : input.recordKind ≠ some .demandRecorded) (id : String) :
    L'.demandOf id = L.demandOf id := by
  by_cases hsteady : ∀ kind, input.recordKind = some kind →
      kind.isDemandKind = false ∧ kind ≠ .policyTimeAdvanced
  · exact (step_steady h hsteady).demandOf id
  · push Not at hsteady
    obtain ⟨kind, hrecorded, hwrites⟩ := hsteady
    match input, hrecorded with
    | .event cas (.recorded k artifactId) refs, rfl =>
      have hne : k ≠ .demandRecorded := fun heq => hkind (congrArg some heq)
      obtain ⟨artifact, -, h⟩ := bind_eq_ok.mp (step_recorded h)
      cases k
      case policyTimeAdvanced =>
        dsimp only at h
        split at h
        · cases h
        · obtain ⟨tick, -, -, rfl⟩ := policyTimeAdvanced_eq_ok h
          rfl
      case demandWaived | evidenceAdded | evidenceReuseAdmitted | evidenceSatisfied =>
        exact (demandEvidence_keeps hne h).1 id
      case demandRecorded => exact absurd rfl hne
      all_goals exact absurd (hwrites rfl) nofun

end Ledger

end Afactory
