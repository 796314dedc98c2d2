import Mathlib
import Afactory.Commands
import Afactory.LedgerResolutions

/-!
# The Ledger's events as commands

`Ledger::apply` changes a live projection in place: a refusal in the middle of an event would
leave it half changed. Here every event is a command over the Ledger, with its checks and its
writes in the order of the source, and `expect` is a refusal as well. Each command does what
`apply` says or nothing.

* `applyReport` … `applyResolutionAuthority`: the events;
* `transacts_apply`: on a well-formed Ledger an event is all or nothing;
* `LedgerProjection`: the projection of one run, which counts the events it folded;
* `refused_event_changes_nothing`: the same for whole runs and with the count.
-/

namespace Afactory

/-- A command over the Ledger, which refuses with a text. -/
abbrev LedgerCommand := Command String Ledger

namespace LedgerCommand

open Command

/-! ## Reports, Rounds and statuses -/

/-- Refuse an event with a text unless the condition holds. -/
def require (condition : Ledger → Bool) (event detail : String) : LedgerCommand Unit :=
  check fun L => requireEvent (condition L) event detail

def applyReport (cas : ContentStore) (payload : FindingReported) (artifactRefs : List String) :
    LedgerCommand Unit := do
  let key ← check fun _ => requiredString payload.key "FindingReported@1" "key"
  let source ← check fun _ => requiredString payload.source "FindingReported@1" "source"
  let round ← check fun _ => requiredRound payload.round "FindingReported@1"
  match artifactRefs with
  | [reportId] =>
    require (fun _ => payload.reportId = some reportId) "FindingReported@1"
      "payload `report_id` does not match its sole artifact reference"
    -- from here on failures of authority are recorded, not refused
    let report ← update fun L => L.projectReport cas round reportId
    let report ← update fun L => L.bindSnapshot round reportId report
    let (scope, selected) ← update fun L => L.reportScope round report.location
    let challenge ← update fun L => (if scope ≠ some .outside then
      L.resolutionChallengeForReport key report.severity else none, L)
    let located := report.selectLocation selected
    write fun L => L.attachReport key ⟨located, located.attach reportId source round scope,
      report.identityLocation, challenge⟩
  | _ => check fun _ =>
    .error (malformed "FindingReported@1" "expected exactly one report artifact")

def applyCampaignOpened (cas : ContentStore) (manifestId : String) : LedgerCommand Unit :=
  match cas.manifestPolicy manifestId with
  | .ok policy => do
    write fun L => { L with findingIdentityPolicy := policy }
    write fun L => { L with findingIdentityPolicyUnavailable := false }
  | .error reason => do
    write fun L => { L with findingIdentityPolicy := "" }
    write fun L => { L with findingIdentityPolicyUnavailable := true }
    write fun L => L.recordAuthorityFailure ⟨L.round, .subject, manifestId,
      "CampaignManifest authority unavailable: " ++ reason⟩

def applyRoundStarted (cas : ContentStore) (started : RoundStarted) : LedgerCommand Unit := do
  let resolved ← update fun L => L.roundScope cas started.subjectId
  let (scope, head) ← update fun L => match resolved with
    | .ok authority => (authority, L)
    | .error reason => ((.unavailable, ""),
        L.recordAuthorityFailure ⟨started.round, .subject, started.subjectId, reason⟩)
  write fun L => { L with activeScope := some ⟨started.round, started.subjectId, head, scope⟩ }

def applyGenerationAdvanced (round : Option ℕ) : LedgerCommand Unit := do
  let round ← check fun _ => requiredRound round "GenerationAdvanced@1"
  write fun L => { L with round := round }

/-- `apply_resolution`. -/
def applyResolution (payload : FindingResolved) : LedgerCommand Unit := do
  let key ← check fun _ => requiredString payload.key "FindingResolved@1" "key"
  let name ← check fun _ => requiredString payload.status "FindingResolved@1" "status"
  let status ← check fun _ => match FindingStatus.parse name with
    | none => .error (malformed "FindingResolved@1" ("invalid status `" ++ name ++ "`"))
    | some status => .ok status
  let round ← check fun _ => requiredRound payload.round "FindingResolved@1"
  let finding ← check fun L => match L.findings.get key with
    | none => .error (malformed "FindingResolved@1" ("unknown finding key `" ++ key ++ "`"))
    | some finding => .ok finding
  write fun L => { L with findings := L.findings.insert key { finding with
    status := status
    history := finding.history ++ [⟨round, .resolved status, payload.note⟩] } }

/-! ## Groupings and Demands -/

def applyGrouping (cas : ContentStore) (action : GroupingAction) (payload : FindingsGrouped)
    (artifactRefs : List String) : LedgerCommand Unit := do
  let event := Ledger.groupingName action
  require (fun _ => artifactRefs = [payload.groupingArtifactId]) event
    "grouping artifact ID disagrees with its sole reference"
  let artifact ← check fun _ => match cas.read payload.groupingArtifactId with
    | .error e => .error (malformed event e)
    | .ok artifact => .ok artifact
  let grouping ← check fun _ => match artifact.payload with
    | .grouping grouping => .ok grouping
    | _ => .error (malformed event "grouping artifact carries the wrong type")
  require (fun _ => grouping = ⟨payload.source, payload.into, action⟩) event
    "grouping event disagrees with its immutable artifact"
  check fun L => match action with
    | .group => L.validateGroup grouping.source grouping.into
    | .ungroup => L.validateUngroup grouping.source grouping.into
  write fun L => { L with groupingHistory := L.groupingHistory ++
    [⟨payload.groupingArtifactId, artifact.artifactId⟩] }
  match action with
  | .group => write fun L => { L with
      activeGroupings := L.activeGroupings.insert grouping.source grouping.into }
  | .ungroup => write fun L => { L with
      activeGroupings := L.activeGroupings.erase grouping.source }

/-- The artifact a recorded event names. -/
def recordedArtifact (cas : ContentStore) (kind : RecordKind) (artifactId : String)
    (artifactRefs : List String) : LedgerCommand Artifact := do
  require (fun _ => artifactRefs = [artifactId]) kind.name
    "recorded artifact disagrees with its sole reference"
  check fun _ => match cas.read artifactId with
    | .error e => .error (malformed kind.name e)
    | .ok artifact => .ok artifact

/-- `self.demands.get_mut`, refused with a text. -/
def knownDemand (kind : RecordKind) (demandId unknown : String) : LedgerCommand DemandRecord :=
  check fun L => match L.demands.get demandId with
    | none => .error (malformed kind.name unknown)
    | some record => .ok record

def storeDemand (demandId : String) (record : DemandRecord) : LedgerCommand Unit :=
  write fun L => { L with demands := L.demands.insert demandId record }

/-- The branch of `DemandRecorded@1`. -/
def recordDemand (id : RecordedId) (demand : Demand) : LedgerCommand Unit := do
  match ← update fun L => (L.demands.get demand.demandId, L) with
  | some existing => do
    require (fun _ => existing.demand.claim = demand.claim && existing.demand.why = demand.why &&
      existing.demand.suggestedMethod = demand.suggestedMethod &&
      existing.demand.source = demand.source &&
      existing.demand.requirement = demand.requirement) "DemandRecorded@1"
      "stable Demand identity changes immutable content"
    storeDemand demand.demandId { existing with records := existing.records ++ [id] }
  | none => do
    write fun L => { L with demandOrder := L.demandOrder ++ [demand.demandId] }
    storeDemand demand.demandId { demand := demand, records := [id] }

/-- `apply_demand_evidence` after its artifact was read. -/
def applyDemandEvidence (kind : RecordKind) (id : RecordedId) (payload : ArtifactPayload) :
    LedgerCommand Unit :=
  match kind, payload with
  | .demandRecorded, .demand demand => recordDemand id demand
  | .demandRecorded, _ => check fun _ => .error (malformed kind.name "artifact is not Demand@1")
  | .evidenceAdded, .evidence demandId => do
    let record ← knownDemand kind demandId "Evidence names an unknown Demand"
    storeDemand demandId { record with evidence := record.evidence ++ [id] }
  | .evidenceAdded, _ => check fun _ => .error (malformed kind.name "artifact is not Evidence@1")
  | .evidenceSatisfied, .evidenceSatisfaction demandId evidenceId subjectId => do
    let record ← knownDemand kind demandId "satisfaction names an unknown Demand"
    require (fun _ => record.evidence.any fun e => e.artifactId = evidenceId) kind.name
      "satisfaction names Evidence outside its Demand"
    storeDemand demandId { record with
      satisfactions := record.satisfactions ++ [⟨id, evidenceId, subjectId⟩] }
  | .evidenceSatisfied, _ => check fun _ =>
    .error (malformed kind.name "artifact is not EvidenceSatisfaction@1")
  | .evidenceReuseAdmitted, .evidenceReuseAdmission demandId satisfactionId subjectId => do
    let record ← knownDemand kind demandId "reuse names an unknown Demand"
    require (fun _ => record.satisfactions.any fun s =>
      s.id.artifactId = satisfactionId && s.subjectId = subjectId) kind.name
      "reuse does not name a satisfaction for its Demand and Subject"
    storeDemand demandId { record with
      reuseAdmissions := record.reuseAdmissions ++ [⟨id, satisfactionId, subjectId⟩] }
  | .evidenceReuseAdmitted, _ => check fun _ =>
    .error (malformed kind.name "artifact is not EvidenceReuseAdmission@1")
  | .demandWaived, .demandWaiver demandId => do
    let record ← knownDemand kind demandId "waiver names an unknown Demand"
    storeDemand demandId { record with waivers := record.waivers ++ [id] }
  | .demandWaived, _ => check fun _ =>
    .error (malformed kind.name "artifact is not DemandWaiver@1")
  -- the caller matches the demand events only
  | _, _ => check fun _ =>
    .error (malformed kind.name "demand evidence event was matched by caller")

/-! ## Resolution authority -/

/-- `self.findings.get_mut(&key).expect("member exists")`, with the two writes that follow. -/
def restateMember (status : FindingStatus) (kind : TransitionKind) (note : Option String)
    (key : String) : LedgerCommand Unit := do
  let finding ← check fun L => match L.findings.get key with
    | none => .error "member exists"
    | some finding => .ok finding
  write fun L => { L with findings := L.findings.insert key { finding with
    status := status
    history := finding.history ++ [⟨L.round, kind, note⟩] } }

section Authority

variable (viewId : Finding → Option String)

def applyChangeAttested (subject : String) (artifact : Artifact)
    (attestation : ChangeAttestation) : LedgerCommand Unit := do
  check fun L => L.validateExpectedFindingView viewId attestation.findingId
    attestation.expectedFindingViewId "ChangeAttested@1"
  require (fun L => attestation.subjectId = subject &&
    L.activeChangeSetId = attestation.changeSetId &&
    artifact.subjectSnapshotId = L.activeHeadSnapshotId) "ChangeAttested@1"
    "Attestation does not cover the active Subject and Change Set"
  let keys ← check fun L => L.findingMemberKeys attestation.findingId
  loop keys (restateMember .pendingVerification .attested (some attestation.reason))
  write fun L => { L with
    attestations := L.attestations.insert artifact.artifactId attestation }

def applyFixVerified (subject : String) (artifact : Artifact) (verification : FixVerification) :
    LedgerCommand Unit := do
  check fun L => L.validateExpectedFindingView viewId verification.findingId
    verification.expectedFindingViewId "FixVerified@1"
  let attestation ← check fun L => match L.attestations.get verification.attestationId with
    | none => .error (malformed "FixVerified@1" "verification names unknown Attestation")
    | some attestation => .ok attestation
  require (fun _ => verification.subjectId = subject &&
    attestation.findingId = verification.findingId &&
    attestation.subjectId = verification.subjectId) "FixVerified@1"
    "verification does not cover its Attestation and active Subject"
  write fun L => { L with
    verifications := L.verifications.insert artifact.artifactId verification }

/-- One round of the loop that records a Resolution for the members of a group. -/
def coverMember (status : FindingStatus) (r : FindingResolution) (key : String) :
    LedgerCommand Unit := do
  restateMember status (.resolved status) (some r.reason) key
  write fun L => { L with resolutionAuthority := L.resolutionAuthority.insert key r.findingId }

def applyResolutionRecorded (subject : String) (id : RecordedId) (r : FindingResolution) :
    LedgerCommand Unit := do
  check fun L => L.validateExpectedFindingView viewId r.findingId r.expectedFindingViewId
    "FindingResolutionRecorded@1"
  require (fun _ => r.subjectId = subject) "FindingResolutionRecorded@1"
    "Resolution does not cover the active Subject"
  require (fun L => (L.groupRoot r.findingId).isSome) "FindingResolutionRecorded@1"
    "Resolution names an unknown Finding"
  let status ← check fun L => L.resolvedStatus r
  let keys ← check fun L => L.findingMemberKeys r.findingId
  loop keys (coverMember status r)
  write fun L => { L with resolutionHistory := L.resolutionHistory ++ [id] }
  write fun L => { L with resolutions := L.resolutions.insert r.findingId ⟨id, r⟩ }

def applyResolutionChallenged (subject : String) (id : RecordedId)
    (challenge : ResolutionChallenge) : LedgerCommand Unit := do
  let recorded ← check fun L => match L.resolution challenge.findingId with
    | none => .error
      (malformed "FindingResolutionChallenged@1" "challenge names no active Resolution")
    | some recorded => .ok recorded
  require (fun _ => recorded.id.artifactId = challenge.resolutionId &&
    challenge.subjectId = subject) "FindingResolutionChallenged@1"
    "challenge does not name the active Resolution and Subject"
  let keys ← check fun L => L.findingMemberKeys challenge.findingId
  loop keys (restateMember .contested .challenged
    (some (challenge.kind.text ++ ": " ++ challenge.reason)))
  write fun L => { L with resolutionHistory := L.resolutionHistory ++ [id] }

def applyPolicyTime (id : RecordedId) (tick : ℕ) : LedgerCommand Unit := do
  require (fun L => L.policyTime < tick) "PolicyTimeAdvanced@1"
    "policy time must advance monotonically"
  write fun L => { L with policyTime := tick }
  write fun L => { L with resolutionHistory := L.resolutionHistory ++ [id] }

/-- The branches of `apply_resolution_authority`. -/
def resolutionAuthorityEvent (kind : RecordKind) (subject : String) (id : RecordedId)
    (artifact : Artifact) : LedgerCommand Unit :=
  match kind, artifact.payload with
  | .changeAttested, .changeAttestation attestation =>
    applyChangeAttested viewId subject artifact attestation
  | .changeAttested, _ => check fun _ =>
    .error (malformed kind.name "artifact is not ChangeAttestation@1")
  | .fixVerified, .fixVerification verification =>
    applyFixVerified viewId subject artifact verification
  | .fixVerified, _ => check fun _ =>
    .error (malformed kind.name "artifact is not FixVerification@1")
  | .findingResolutionRecorded, .findingResolution r => applyResolutionRecorded viewId subject id r
  | .findingResolutionRecorded, _ => check fun _ =>
    .error (malformed kind.name "artifact is not FindingResolution@1")
  | .findingResolutionChallenged, .resolutionChallenge challenge =>
    applyResolutionChallenged subject id challenge
  | .findingResolutionChallenged, _ => check fun _ =>
    .error (malformed kind.name "artifact is not ResolutionChallenge@1")
  | .policyTimeAdvanced, .policyTime tick => applyPolicyTime id tick
  | .policyTimeAdvanced, _ => check fun _ =>
    .error (malformed kind.name "artifact is not PolicyTime@1")
  -- the caller matches the resolution events only
  | _, _ => check fun _ =>
    .error (malformed kind.name "resolution authority event was matched by caller")

/-- `apply_resolution_authority` after its artifact was read: it needs an active Subject. -/
def applyResolutionAuthority (kind : RecordKind) (id : RecordedId) (artifact : Artifact) :
    LedgerCommand Unit := do
  let subject ← check fun L => match L.activeSubjectId with
    | none => .error (malformed kind.name "Campaign has no active Subject")
    | some subject => .ok subject
  resolutionAuthorityEvent viewId kind subject id artifact

/-- The events that name a recorded artifact. -/
def applyRecorded (cas : ContentStore) (kind : RecordKind) (artifactId : String)
    (artifactRefs : List String) : LedgerCommand Unit := do
  let artifact ← recordedArtifact cas kind artifactId artifactRefs
  let id : RecordedId := ⟨artifactId, artifact.artifactId⟩
  match kind with
  | .demandRecorded | .demandWaived | .evidenceAdded | .evidenceReuseAdmitted
  | .evidenceSatisfied => applyDemandEvidence kind id artifact.payload
  | _ => applyResolutionAuthority viewId kind id artifact

/-- `Ledger::apply`; a payload that its type does not decode is refused with the decoder's
text. -/
def apply (cas : ContentStore) (payload : Except String LedgerEvent)
    (artifactRefs : List String) : LedgerCommand Unit := do
  match ← check fun _ => payload with
  | .campaignOpened manifestId => applyCampaignOpened cas manifestId
  | .roundStarted started => applyRoundStarted cas started
  | .generationAdvanced round => applyGenerationAdvanced round
  | .findingReported payload => applyReport cas payload artifactRefs
  | .findingResolved payload => applyResolution payload
  | .findingsGrouped action payload => applyGrouping cas action payload artifactRefs
  | .recorded kind artifactId => applyRecorded viewId cas kind artifactId artifactRefs
  | .other => pure ()

end Authority

/-! ## Each command transacts -/

variable {L : Ledger}

theorem transacts_require {c : Ledger → Bool} {event detail : String}
    {k : Unit → LedgerCommand Unit} {g : Unit → Except String Ledger}
    (h : c L = true → Transacts (k ()) L (g ())) :
    Transacts (require c event detail >>= k) L (requireEvent (c L) event detail >>= g) := by
  apply Transacts.check
  intro a ha
  unfold requireEvent at ha
  split at ha
  · exact h ‹_›
  · cases ha

theorem require_bind (condition : Ledger → Bool) (event detail : String)
    (k : Unit → LedgerCommand Unit) :
    (require condition event detail >>= k).run L =
      if condition L then (k ()).run L else (.error (malformed event detail), L) := by
  cases h : condition L with
  | true => exact bind_of_ok (by rw [require, run_check, h]; rfl)
  | false => exact bind_of_error (by rw [require, run_check, h]; rfl)

theorem requireEvent_bind {α : Type} (condition : Bool) (event detail : String)
    (k : Unit → Except String α) :
    (requireEvent condition event detail >>= k) =
      if condition then k () else .error (malformed event detail) := by
  cases condition <;> rfl

theorem settle_eq_commit (r : Except String Ledger) : settle L r = L.commit r := by
  cases r <;> rfl

theorem commit_error {r : Except String Ledger} {e : String} {L' : Ledger}
    (h : L.commit r = (.error e, L')) : L' = L := by
  cases r with
  | error e' =>
    cases h
    rfl
  | ok M => cases h

theorem selectLocation_severity (report : ReportProjection) (selected : Option ℕ) :
    (report.selectLocation selected).severity = report.severity := by
  unfold ReportProjection.selectLocation
  split
  · split <;> rfl
  · rfl

/-- The checks of a report come first; what is left cannot refuse. -/
theorem run_applyReport (cas : ContentStore) (payload : FindingReported)
    (artifactRefs : List String) :
    (applyReport cas payload artifactRefs).run L = L.applyReport cas payload artifactRefs := by
  unfold applyReport Ledger.applyReport Ledger.checkReport
  cases requiredString payload.key "FindingReported@1" "key" with
  | error e => rfl
  | ok key =>
  cases requiredString payload.source "FindingReported@1" "source" with
  | error e => rfl
  | ok source =>
  cases requiredRound payload.round "FindingReported@1" with
  | error e => rfl
  | ok round =>
  match artifactRefs with
  | [] => rfl
  | _ :: _ :: _ => rfl
  | [reportId] =>
    by_cases h : payload.reportId = some reportId
    · simp only [h, decide_true, Ledger.prepareReport, selectLocation_severity]
      rfl
    · simp only [h, decide_false]
      rfl

theorem run_applyCampaignOpened (cas : ContentStore) (manifestId : String) :
    (applyCampaignOpened cas manifestId).run L = L.applyCampaignOpened cas manifestId := by
  unfold applyCampaignOpened Ledger.applyCampaignOpened
  cases cas.manifestPolicy manifestId <;> rfl

theorem run_applyRoundStarted (cas : ContentStore) (started : RoundStarted) :
    (applyRoundStarted cas started).run L = L.applyRoundStarted cas started := by
  unfold applyRoundStarted Ledger.applyRoundStarted
  rw [update_bind]
  obtain ⟨resolved, L'⟩ := L.roundScope cas started.subjectId
  cases resolved with
  | ok authority => rfl
  | error reason => rfl

theorem setStatus_of_get {key : String} {f : Finding} (h : L.findings.get key = some f)
    (status : FindingStatus) (t : Transition) :
    L.setStatus key status t = { L with findings := L.findings.insert key { f with
      status := status
      history := f.history ++ [t] } } := by
  simp only [Ledger.setStatus, h]

theorem run_applyResolution (payload : FindingResolved) :
    (applyResolution payload).run L = L.applyResolution payload := by
  unfold applyResolution Ledger.applyResolution Ledger.checkResolved
  cases requiredString payload.key "FindingResolved@1" "key" with
  | error e => rfl
  | ok key =>
  cases requiredString payload.status "FindingResolved@1" "status" with
  | error e => rfl
  | ok name =>
  cases hname : FindingStatus.parse name with
  | none =>
    simp only [check_ok_bind, ok_bind, hname, check_error_bind]
    rfl
  | some status =>
  simp only [check_ok_bind, ok_bind, hname]
  cases requiredRound payload.round "FindingResolved@1" with
  | error e => rfl
  | ok round =>
  cases hfinding : L.findings.get key with
  | none =>
    have hno : L.findings.contains key = false := by simp [OrdMap.contains, hfinding]
    simp only [check_ok_bind, ok_bind, hno]
    exact bind_of_error (by rw [run_check, hfinding])
  | some finding =>
    have hyes : L.findings.contains key = true := by simp [OrdMap.contains, hfinding]
    simp only [check_ok_bind, ok_bind, hyes]
    refine (bind_of_ok (by rw [run_check, hfinding])).trans ?_
    exact congrArg (Prod.mk _) (setStatus_of_get hfinding _ _).symm

/-! ### Groupings and Demands -/

theorem run_applyGrouping (cas : ContentStore) (action : GroupingAction)
    (payload : FindingsGrouped) (artifactRefs : List String) :
    (applyGrouping cas action payload artifactRefs).run L =
      L.applyGrouping cas action payload artifactRefs := by
  unfold applyGrouping Ledger.applyGrouping Ledger.checkGrouping
  simp only [require_bind, requireEvent_bind]
  by_cases hrefs : artifactRefs = [payload.groupingArtifactId]
  case neg => simp [hrefs]
  simp only [hrefs, decide_true, if_true]
  cases cas.read payload.groupingArtifactId with
  | error e => rfl
  | ok artifact =>
  obtain ⟨artifactId, snapshotId, artifactPayload⟩ := artifact
  cases artifactPayload
  case grouping grouping =>
    simp only [check_ok_bind, require_bind]
    by_cases hgrouping : grouping = ⟨payload.source, payload.into, action⟩
    case neg => simp [hgrouping]
    subst hgrouping
    simp only [decide_true, if_true]
    cases action with
    | group =>
      cases hvalid : L.validateGroup payload.source payload.into with
      | error e => exact bind_of_error (by rw [run_check, hvalid])
      | ok u => exact bind_of_ok (by rw [run_check, hvalid])
    | ungroup =>
      cases hvalid : L.validateUngroup payload.source payload.into with
      | error e => exact bind_of_error (by rw [run_check, hvalid])
      | ok u => exact bind_of_ok (by rw [run_check, hvalid])
  all_goals rfl

theorem transacts_recordDemand (id : RecordedId) (demand : Demand) :
    Transacts (recordDemand id demand) L (L.recordDemand id demand) := by
  unfold recordDemand Ledger.recordDemand
  rw [Transacts, update_bind]
  cases L.demands.get demand.demandId with
  | none => rfl
  | some existing =>
    simp only [require_bind, ne_eq, decide_not, ← Bool.not_and]
    generalize (decide (existing.demand.claim = demand.claim) && _ && _ && _ && _) = same
    cases same <;> rfl

theorem transacts_knownDemand {kind : RecordKind} {demandId unknown : String}
    {k : DemandRecord → LedgerCommand Unit} {revise : DemandRecord → Except String DemandRecord}
    (h : ∀ record, L.demands.get demandId = some record → Transacts (k record) L
      ((revise record).map fun record' =>
        { L with demands := L.demands.insert demandId record' })) :
    Transacts (knownDemand kind demandId unknown >>= k) L
      (L.reviseDemand kind demandId unknown revise) := by
  unfold Ledger.reviseDemand
  cases hrecord : L.demands.get demandId with
  | none =>
    apply bind_of_error
    rw [knownDemand, run_check, hrecord]
  | some record =>
    have hknown : (knownDemand kind demandId unknown).run L = (.ok record, L) := by
      rw [knownDemand, run_check, hrecord]
    rw [Transacts, bind_of_ok hknown]
    exact h record hrecord

/-- A Demand revised once a condition on its record holds. -/
theorem transacts_requireStore {condition : Bool} {event detail demandId : String}
    {record : DemandRecord} :
    Transacts (require (fun _ => condition) event detail >>= fun _ => storeDemand demandId record) L
      ((if condition then Except.ok record else .error (malformed event detail)).map fun record' =>
        { L with demands := L.demands.insert demandId record' }) := by
  cases condition <;> rfl

theorem transacts_demandEvidence (kind : RecordKind) (id : RecordedId)
    (payload : ArtifactPayload) :
    Transacts (applyDemandEvidence kind id payload) L (L.demandEvidence kind id payload) := by
  cases kind <;> cases payload <;> try exact Transacts.refuse _
  case demandRecorded.demand demand => exact transacts_recordDemand id demand
  case demandWaived.demandWaiver =>
    apply transacts_knownDemand
    intro record _
    rfl
  case evidenceAdded.evidence =>
    apply transacts_knownDemand
    intro record _
    rfl
  case evidenceReuseAdmitted.evidenceReuseAdmission =>
    apply transacts_knownDemand
    intro record _
    exact transacts_requireStore
  case evidenceSatisfied.evidenceSatisfaction =>
    apply transacts_knownDemand
    intro record _
    exact transacts_requireStore

/-! ### Resolution authority -/

/-- A member that exists is restated. -/
theorem run_restateMember {status : FindingStatus} {kind : TransitionKind} {note : Option String}
    {key : String} {f : Finding} (h : L.findings.get key = some f) :
    (restateMember status kind note key).run L =
      (.ok (), L.setStatus key status ⟨L.round, kind, note⟩) := by
  rw [setStatus_of_get h]
  refine bind_of_ok ?_
  rw [run_check, h]

/-- Findings stay when one is restated. -/
theorem setStatus_contains {k : String} (h : L.findings.contains k = true) (key : String)
    (status : FindingStatus) (t : Transition) :
    (L.setStatus key status t).findings.contains k = true := by
  obtain ⟨f, hf⟩ := OrdMap.contains_iff.mp h
  rw [OrdMap.contains_iff, Ledger.get_setStatus, hf]
  exact ⟨_, rfl⟩

theorem setStatus_round (key : String) (status : FindingStatus) (t : Transition) :
    (L.setStatus key status t).round = L.round := by
  rw [Ledger.setStatus]
  split <;> rfl

/-- The loop over the members of a group cannot stop. -/
theorem run_restateMembers {keys : List String} {status : FindingStatus} {kind : TransitionKind}
    {note : Option String} (h : ∀ key ∈ keys, L.findings.contains key = true) :
    (loop keys (restateMember status kind note)).run L =
      (.ok (), L.setStatuses keys status ⟨L.round, kind, note⟩) := by
  apply run_loop (P := fun M => M.round = L.round ∧ ∀ key ∈ keys, M.findings.contains key = true)
  · rintro M ⟨hround, hM⟩ key hkey
    obtain ⟨f, hf⟩ := OrdMap.contains_iff.mp (hM key hkey)
    rw [run_restateMember hf, hround]
    exact ⟨rfl, (setStatus_round _ _ _).trans hround,
      fun k hk => setStatus_contains (hM k hk) _ _ _⟩
  · exact ⟨rfl, h⟩

/-- What one round of a Resolution's loop writes. -/
def covered (status : FindingStatus) (r : FindingResolution) (round : ℕ) (M : Ledger)
    (key : String) : Ledger :=
  { M.setStatus key status ⟨round, .resolved status, some r.reason⟩ with
    resolutionAuthority := M.resolutionAuthority.insert key r.findingId }

theorem setStatus_withAuthority (a : OrdMap String String) (key : String)
    (status : FindingStatus) (t : Transition) :
    { L with resolutionAuthority := a }.setStatus key status t =
      { L.setStatus key status t with resolutionAuthority := a } := by
  unfold Ledger.setStatus
  cases L.findings.get key <;> rfl

theorem setStatuses_withAuthority (a : OrdMap String String) (keys : List String)
    (status : FindingStatus) (t : Transition) :
    { L with resolutionAuthority := a }.setStatuses keys status t =
      { L.setStatuses keys status t with resolutionAuthority := a } := by
  induction keys generalizing L with
  | nil => rfl
  | cons key keys ih =>
    have hrest := ih (L := L.setStatus key status t)
    rw [← setStatus_withAuthority] at hrest
    exact hrest

/-- The rounds of a Resolution's loop restate the members and give them its authority. -/
theorem foldl_covered (status : FindingStatus) (r : FindingResolution) (round : ℕ)
    (keys : List String) :
    keys.foldl (covered status r round) L =
      { L.setStatuses keys status ⟨round, .resolved status, some r.reason⟩ with
        resolutionAuthority := L.resolutionAuthority.insertAll
          (keys.map fun key => (key, r.findingId)) } := by
  induction keys generalizing L with
  | nil => rfl
  | cons key keys ih =>
    rw [List.foldl_cons, ih, covered, setStatuses_withAuthority]
    rfl

theorem setStatuses_authority (keys : List String) (status : FindingStatus) (t : Transition) :
    (L.setStatuses keys status t).resolutionAuthority = L.resolutionAuthority := by
  rw [Ledger.restate_setStatuses, Ledger.restate_authority]

theorem run_coverMembers {keys : List String} {status : FindingStatus} {r : FindingResolution}
    (h : ∀ key ∈ keys, L.findings.contains key = true) :
    (loop keys (coverMember status r)).run L =
      (.ok (), keys.foldl (covered status r L.round) L) := by
  apply run_loop (P := fun M => M.round = L.round ∧ ∀ key ∈ keys, M.findings.contains key = true)
  · rintro M ⟨hround, hM⟩ key hkey
    obtain ⟨f, hf⟩ := OrdMap.contains_iff.mp (hM key hkey)
    refine ⟨(bind_of_ok (run_restateMember hf)).trans ?_, (setStatus_round _ _ _).trans hround,
      fun k hk => setStatus_contains (hM k hk) _ _ _⟩
    rw [run_write, covered, hround, Ledger.setStatus_authority]
  · exact ⟨rfl, h⟩

section Authority

variable {viewId : Finding → Option String}

/-- On a well-formed Ledger the members of a group exist. -/
theorem members_contained (h : L.WellFormed) {findingId : String} {keys : List String}
    (hkeys : L.findingMemberKeys findingId = .ok keys) :
    ∀ key ∈ keys, L.findings.contains key = true := by
  intro key hkey
  obtain ⟨root, -, hmem⟩ := h.mem_findingMemberKeys hkeys
  exact OrdMap.contains_iff.mpr (Ledger.groupRoot_eq_some.mp ((hmem key).mp hkey)).1

theorem transacts_changeAttested (h : L.WellFormed) (subject : String) (artifact : Artifact)
    (attestation : ChangeAttestation) :
    Transacts (applyChangeAttested viewId subject artifact attestation) L
      (L.applyChangeAttested viewId subject artifact attestation) := by
  apply Transacts.check
  intro _ _
  apply transacts_require
  intro _
  apply Transacts.check
  intro keys hkeys
  exact Transacts.of_ok (run_restateMembers (members_contained h hkeys)) rfl

theorem transacts_fixVerified (subject : String) (artifact : Artifact)
    (verification : FixVerification) :
    Transacts (applyFixVerified viewId subject artifact verification) L
      (L.applyFixVerified viewId subject artifact verification) := by
  apply Transacts.check
  intro _ _
  cases hget : L.attestations.get verification.attestationId with
  | none => exact bind_of_error (by rw [run_check, hget])
  | some attestation =>
    refine (bind_of_ok (by rw [run_check, hget])).trans ?_
    apply transacts_require (c := fun _ => _)
    intro _
    rfl

theorem transacts_resolutionRecorded (h : L.WellFormed) (subject : String) (id : RecordedId)
    (r : FindingResolution) :
    Transacts (applyResolutionRecorded viewId subject id r) L
      (L.applyResolutionRecorded viewId subject id r) := by
  apply Transacts.check
  intro _ _
  apply transacts_require
  intro _
  apply transacts_require
  intro _
  apply Transacts.check
  intro status _
  apply Transacts.check
  intro keys hkeys
  refine Transacts.of_ok (run_coverMembers (members_contained h hkeys)) ?_
  rw [foldl_covered, ← setStatuses_authority keys status
    ⟨L.round, .resolved status, some r.reason⟩]
  rfl

theorem transacts_resolutionChallenged (h : L.WellFormed) (subject : String) (id : RecordedId)
    (challenge : ResolutionChallenge) :
    Transacts (applyResolutionChallenged subject id challenge) L
      (L.applyResolutionChallenged subject id challenge) := by
  unfold applyResolutionChallenged Ledger.applyResolutionChallenged
  cases hres : L.resolution challenge.findingId with
  | none => exact bind_of_error (by rw [run_check, hres])
  | some recorded =>
    refine (bind_of_ok (by rw [run_check, hres])).trans ?_
    apply transacts_require (c := fun _ => _)
    intro _
    apply Transacts.check
    intro keys hkeys
    exact Transacts.of_ok (run_restateMembers (members_contained h hkeys)) rfl

theorem transacts_policyTime (id : RecordedId) (tick : ℕ) :
    Transacts (applyPolicyTime id tick) L (L.applyPolicyTime id tick) := by
  refine transacts_require ?_
  intro _
  rfl

theorem transacts_authorityEvent (h : L.WellFormed) (kind : RecordKind) (subject : String)
    (id : RecordedId) (artifact : Artifact) :
    Transacts (resolutionAuthorityEvent viewId kind subject id artifact) L
      (L.resolutionAuthorityEvent viewId kind subject id artifact) := by
  obtain ⟨artifactId, snapshotId, payload⟩ := artifact
  cases kind <;> cases payload <;> try exact Transacts.refuse _
  case changeAttested.changeAttestation => exact transacts_changeAttested h _ _ _
  case fixVerified.fixVerification => exact transacts_fixVerified _ _ _
  case findingResolutionRecorded.findingResolution => exact transacts_resolutionRecorded h _ _ _
  case findingResolutionChallenged.resolutionChallenge =>
    exact transacts_resolutionChallenged h _ _ _
  case policyTimeAdvanced.policyTime => exact transacts_policyTime _ _

/-- Reading the artifact of a recorded event only checks. -/
theorem run_recordedArtifact (cas : ContentStore) (kind : RecordKind) (artifactId : String)
    (artifactRefs : List String) :
    (recordedArtifact cas kind artifactId artifactRefs).run L =
      (Ledger.readRecorded cas kind artifactId artifactRefs, L) := by
  unfold recordedArtifact Ledger.readRecorded
  by_cases hrefs : artifactRefs = [artifactId]
  · simp only [hrefs, decide_true]
    cases cas.read artifactId <;> rfl
  · simp only [hrefs, decide_false]
    rfl

theorem transacts_resolutionAuthority (viewId : Finding → Option String) (h : L.WellFormed)
    (kind : RecordKind) (id : RecordedId) (artifact : Artifact) :
    Transacts (applyResolutionAuthority viewId kind id artifact) L
      (match L.activeSubjectId with
        | none => throw (malformed kind.name "Campaign has no active Subject")
        | some subject => L.resolutionAuthorityEvent viewId kind subject id artifact) := by
  cases hsubject : L.activeSubjectId with
  | none => exact bind_of_error (by rw [run_check, hsubject])
  | some subject =>
    exact (bind_of_ok (by rw [run_check, hsubject])).trans
      (transacts_authorityEvent h kind subject id artifact)

theorem transacts_recorded (h : L.WellFormed) (cas : ContentStore) (kind : RecordKind)
    (artifactId : String) (artifactRefs : List String) :
    Transacts (applyRecorded viewId cas kind artifactId artifactRefs) L
      (L.recordedEvent viewId cas kind artifactId artifactRefs) := by
  have hread := run_recordedArtifact (L := L) cas kind artifactId artifactRefs
  unfold applyRecorded Ledger.recordedEvent
  cases hart : Ledger.readRecorded cas kind artifactId artifactRefs with
  | error e =>
    rw [hart] at hread
    exact bind_of_error hread
  | ok artifact =>
    rw [hart] at hread
    refine (bind_of_ok hread).trans ?_
    have hauthority := fun kind => transacts_resolutionAuthority viewId h kind
      ⟨artifactId, artifact.artifactId⟩ artifact
    cases kind
    case changeAttested => exact hauthority _
    case fixVerified => exact hauthority _
    case findingResolutionRecorded => exact hauthority _
    case findingResolutionChallenged => exact hauthority _
    case policyTimeAdvanced => exact hauthority _
    all_goals exact transacts_demandEvidence _ _ _

/-- **An event is all or nothing.** On a well-formed Ledger the command does what `apply` says,
and `apply` leaves the Ledger as it was when it refuses. -/
theorem run_apply (h : L.WellFormed) (cas : ContentStore) (event : LedgerEvent)
    (artifactRefs : List String) :
    (apply viewId cas (.ok event) artifactRefs).run L =
      L.apply viewId cas event artifactRefs := by
  cases event with
  | campaignOpened manifestId => exact run_applyCampaignOpened cas manifestId
  | roundStarted started => exact run_applyRoundStarted cas started
  | generationAdvanced round =>
    show (applyGenerationAdvanced round).run L = L.commit _
    unfold applyGenerationAdvanced
    cases requiredRound round "GenerationAdvanced@1" <;> rfl
  | findingReported payload => exact run_applyReport cas payload artifactRefs
  | findingResolved payload => exact run_applyResolution payload
  | findingsGrouped action payload => exact run_applyGrouping cas action payload artifactRefs
  | recorded kind artifactId =>
    exact (transacts_recorded h cas kind artifactId artifactRefs).trans (settle_eq_commit _)
  | other => rfl

/-- `apply` leaves the Ledger as it was when it refuses. -/
theorem apply_error {cas : ContentStore} {event : LedgerEvent} {artifactRefs : List String}
    {e : String} {L' : Ledger} (h : L.apply viewId cas event artifactRefs = (.error e, L')) :
    L' = L := by
  unfold Ledger.apply at h
  cases event with
  | campaignOpened manifestId =>
    simp only [Ledger.applyCampaignOpened] at h
    split at h <;> cases h
  | roundStarted started => cases h
  | generationAdvanced round => exact commit_error h
  | findingReported payload =>
    simp only [Ledger.applyReport] at h
    split at h <;> cases h
    rfl
  | findingResolved payload =>
    simp only [Ledger.applyResolution] at h
    split at h <;> cases h
    rfl
  | findingsGrouped action payload =>
    simp only [Ledger.applyGrouping] at h
    split at h <;> cases h
    rfl
  | recorded kind artifactId => exact commit_error h
  | other => cases h

/-- On a well-formed Ledger a refused event changes nothing. -/
theorem run_apply_error (h : L.WellFormed) {cas : ContentStore}
    {payload : Except String LedgerEvent} {artifactRefs : List String} {e : String} {L' : Ledger}
    (hrun : (apply viewId cas payload artifactRefs).run L = (.error e, L')) : L' = L := by
  cases payload with
  | error reason =>
    cases hrun
    rfl
  | ok event =>
    rw [run_apply h] at hrun
    exact apply_error hrun

end Authority

end LedgerCommand

/-! ## The projection of a run -/

/-- `CampaignEvent`: an event of a log, with its payload as its type decodes it. -/
structure CampaignEvent where
  runId : String
  sequence : ℕ
  payload : Except String LedgerEvent
  artifactRefs : List String

/-- The Ledger of one run, with the number of events folded into it. -/
structure LedgerProjection where
  runId : String
  eventCount : ℕ
  ledger : Ledger

namespace LedgerProjection

open Command

/-- What a projection is folded from: an event, and what the content store answers meanwhile. -/
abbrev Input := ContentStore × CampaignEvent

def start (runId : String) : LedgerProjection := ⟨runId, 0, Ledger.start "" 1⟩

/-- A command on the Ledger of a projection. -/
def onLedger (c : LedgerCommand Unit) : Command String LedgerProjection Unit := fun p =>
  ((c.run p.ledger).1, { p with ledger := (c.run p.ledger).2 })

variable (viewId : Finding → Option String)

/-- `LedgerProjection::apply_event`. -/
def applyEvent (cas : ContentStore) (event : CampaignEvent) :
    Command String LedgerProjection Unit := do
  check fun p => if event.runId = p.runId then .ok () else
    .error ("Ledger projection for `" ++ p.runId ++ "` cannot apply event from `" ++
      event.runId ++ "`")
  check fun p => if event.sequence = p.eventCount then .ok () else
    .error ("Ledger projection for `" ++ p.runId ++ "` expected sequence " ++
      toString p.eventCount ++ ", got " ++ toString event.sequence)
  onLedger (LedgerCommand.apply viewId cas event.payload event.artifactRefs)
  write fun p => { p with eventCount := p.eventCount + 1 }

/-- One accepted event. -/
def step (p : LedgerProjection) (input : Input) : Option LedgerProjection :=
  match (applyEvent viewId input.1 input.2).run p with
  | (.ok (), p') => some p'
  | (.error _, _) => none

/-- What an event leaves behind, accepted or refused. -/
def attempt (p : LedgerProjection) (input : Input) : LedgerProjection :=
  ((applyEvent viewId input.1 input.2).run p).2

variable {viewId} {p p' : LedgerProjection}

theorem run_onLedger (c : LedgerCommand Unit) (p : LedgerProjection) :
    (onLedger c).run p = ((c.run p.ledger).1, { p with ledger := (c.run p.ledger).2 }) := rfl

/-- What an event does: nothing, or it is folded into the Ledger and counted. -/
theorem applyEvent_cases (viewId : Finding → Option String) (h : p.ledger.WellFormed)
    (cas : ContentStore) (event : CampaignEvent) :
    (∃ e, (applyEvent viewId cas event).run p = (.error e, p)) ∨
    (∃ payload L', event.payload = .ok payload ∧
      p.ledger.apply viewId cas payload event.artifactRefs = (.ok (), L') ∧
      (applyEvent viewId cas event).run p = (.ok (), ⟨p.runId, p.eventCount + 1, L'⟩)) := by
  unfold applyEvent
  by_cases hrun : event.runId = p.runId
  case neg => exact .inl ⟨_, bind_of_error (by rw [run_check, if_neg hrun])⟩
  rw [bind_of_ok (s := p) (by rw [run_check, if_pos hrun])]
  by_cases hsequence : event.sequence = p.eventCount
  case neg => exact .inl ⟨_, bind_of_error (by rw [run_check, if_neg hsequence])⟩
  rw [bind_of_ok (s := p) (by rw [run_check, if_pos hsequence])]
  rcases hreply : (LedgerCommand.apply viewId cas event.payload event.artifactRefs).run
    p.ledger with ⟨reply, L'⟩
  cases reply with
  | error e =>
    refine .inl ⟨e, bind_of_error ?_⟩
    rw [run_onLedger, hreply, LedgerCommand.run_apply_error h hreply]
  | ok u =>
    cases hpayload : event.payload with
    | error reason =>
      rw [hpayload] at hreply
      cases hreply
    | ok payload =>
      rw [hpayload, LedgerCommand.run_apply h] at hreply
      have hledger : (onLedger (LedgerCommand.apply viewId cas (.ok payload)
          event.artifactRefs)).run p = (.ok (), { p with ledger := L' }) := by
        rw [run_onLedger, LedgerCommand.run_apply h, hreply]
      exact .inr ⟨payload, L', rfl, hreply, bind_of_ok hledger⟩

theorem step_eq_some (h : p.ledger.WellFormed) {input : Input}
    (hstep : step viewId p input = some p') : ∃ payload L', input.2.payload = .ok payload ∧
      p.ledger.step viewId (.event input.1 payload input.2.artifactRefs) = some L' ∧
      p' = ⟨p.runId, p.eventCount + 1, L'⟩ := by
  obtain ⟨e, hrun⟩ | ⟨payload, L', hpayload, happly, hrun⟩ :=
    applyEvent_cases viewId h input.1 input.2
  · rw [step, hrun] at hstep
    cases hstep
  · rw [step, hrun] at hstep
    cases hstep
    refine ⟨payload, L', hpayload, ?_, rfl⟩
    simp only [Ledger.step, Ledger.reply, happly]

/-- The Ledger of every projection of a log is well formed. -/
theorem wellFormed_run {runId : String} {inputs : List Input}
    (hrun : run (step viewId) (start runId) inputs = some p) : p.ledger.WellFormed := by
  refine run_invariant (P := fun p => p.ledger.WellFormed) ?_ (Ledger.wellFormed_start "" 1) hrun
  intro p input p' h hstep
  obtain ⟨payload, L', -, hledger, rfl⟩ := step_eq_some h hstep
  exact h.step hledger

/-- **A caller may continue.** Events tried one after another leave what the accepted ones alone
lead to. -/
theorem attempts_eq_accepted (h : p.ledger.WellFormed) (inputs : List Input) :
    ∃ accepted, accepted.Sublist inputs ∧
      run (step viewId) p accepted = some (inputs.foldl (attempt viewId) p) := by
  induction inputs generalizing p with
  | nil => exact ⟨[], .slnil, rfl⟩
  | cons input inputs ih =>
    obtain ⟨e, hrun⟩ | ⟨payload, L', hpayload, happly, hrun⟩ :=
      applyEvent_cases viewId h input.1 input.2
    · obtain ⟨accepted, hsub, hrest⟩ := ih h
      refine ⟨accepted, hsub.cons input, ?_⟩
      rw [List.foldl_cons, attempt, hrun]
      exact hrest
    · have hledger : p.ledger.step viewId (.event input.1 payload input.2.artifactRefs) =
          some L' := by simp only [Ledger.step, Ledger.reply, happly]
      have hL' : L'.WellFormed := h.step hledger
      obtain ⟨accepted, hsub, hrest⟩ := ih (p := ⟨p.runId, p.eventCount + 1, L'⟩) hL'
      refine ⟨input :: accepted, hsub.cons_cons input, ?_⟩
      rw [List.foldl_cons, attempt, hrun, run_cons_eq_some]
      exact ⟨_, by rw [step, hrun], hrest⟩

/-- **A refused event changes nothing.** This holds of every Ledger that is reached, whatever
Tasks did to it, and of every projection of a log with its count of events; a caller that goes on
after refusals ends where the accepted events alone lead. -/
theorem refused_event_changes_nothing (viewId : Finding → Option String) :
    (∀ (policy : String) (round : ℕ) (inputs : List LedgerInput) (L : Ledger),
      run (Ledger.step viewId) (Ledger.start policy round) inputs = some L →
      ∀ (cas : ContentStore) (payload : Except String LedgerEvent) (artifactRefs : List String)
        (e : String) (L' : Ledger),
        (LedgerCommand.apply viewId cas payload artifactRefs).run L = (.error e, L') → L' = L) ∧
    (∀ (runId : String) (inputs : List Input) (p : LedgerProjection),
      run (step viewId) (start runId) inputs = some p →
      (∀ (cas : ContentStore) (event : CampaignEvent) (e : String) (p' : LedgerProjection),
        (applyEvent viewId cas event).run p = (.error e, p') → p' = p) ∧
      ∀ more : List Input, ∃ accepted, accepted.Sublist more ∧
        run (step viewId) p accepted = some (more.foldl (attempt viewId) p)) := by
  constructor
  · intro policy round inputs L hrun cas payload artifactRefs e L' herr
    exact LedgerCommand.run_apply_error (Ledger.WellFormed.run hrun) herr
  · intro runId inputs p hrun
    have h := wellFormed_run hrun
    refine ⟨?_, attempts_eq_accepted h⟩
    intro cas event e p' herr
    obtain ⟨e', hrefused⟩ | ⟨payload, L', -, -, haccepted⟩ :=
      applyEvent_cases viewId h cas event
    · rw [hrefused] at herr
      cases herr
      rfl
    · rw [haccepted] at herr
      cases herr

/-- A Finding grouped once more is refused. -/
theorem refused_event_changes_nothing_grouped : ∃ L e,
    run (Ledger.step sampleViewId) (Ledger.start canonicalFindingIdentityPolicy 1) sampleGrouped =
      some L ∧
    (LedgerCommand.apply sampleViewId sampleStore
      (.ok (.findingsGrouped .group ⟨"key", "into", "group"⟩)) ["group"]).run L =
        (.error e, L) := by
  have hrun : ∃ L ∈ run (Ledger.step sampleViewId)
      (Ledger.start canonicalFindingIdentityPolicy 1) sampleGrouped,
      ((LedgerCommand.apply sampleViewId sampleStore
        (.ok (.findingsGrouped .group ⟨"key", "into", "group"⟩)) ["group"]).run L).1.toBool =
        false := by decide
  obtain ⟨L, hrun, hrefused⟩ := hrun
  rcases hreply : (LedgerCommand.apply sampleViewId sampleStore
    (.ok (.findingsGrouped .group ⟨"key", "into", "group"⟩)) ["group"]).run L with ⟨reply, L'⟩
  rw [hreply] at hrefused
  cases reply with
  | ok u => cases hrefused
  | error e =>
    have hsame := (refused_event_changes_nothing sampleViewId).1 _ _ _ _ hrun _ _ _ _ _ hreply
    exact ⟨L, e, hrun, hsame ▸ hreply⟩

end LedgerProjection

end Afactory
