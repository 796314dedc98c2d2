import Mathlib
import Afactory.Runs
import Afactory.FindingsLedger

/-!
# The events of the Findings Ledger

`Ledger::apply` and what it calls: every event the projection folds, with the checks it makes
and the texts it refuses with.

* `applyReport`: a report is attached to the Finding it names;
* `applyGrouping`, `recordedEvent`: groupings, Demands, attestations and Resolutions;
* `apply`: one event; a refused event is an error beside the Ledger it leaves;
* `bindTaskSubject`, `projectTaskFixes`: what a Task does to its own projection;
* `step`: one accepted input.

Payloads come parsed and validated. What the content store answers is part of each input, so
that it may differ from one event to the next. The identity of a view is the digest of its
text, a parameter here.
-/

namespace Afactory

/-! ## Events -/

/-- `FindingReported@1`; fields the payload lacks are `none`. -/
structure FindingReported where
  key : Option String
  source : Option String
  round : Option ℕ
  reportId : Option String
  deriving DecidableEq, Repr

/-- `FindingResolved@1`. -/
structure FindingResolved where
  key : Option String
  status : Option String
  round : Option ℕ
  note : Option String
  deriving DecidableEq, Repr

/-- `FindingGroupingEventPayloadV1`. -/
structure FindingsGrouped where
  source : String
  into : String
  groupingArtifactId : String
  deriving DecidableEq, Repr

/-- `RoundStartedPayloadV1`, as far as the Ledger reads it. -/
structure RoundStarted where
  round : ℕ
  subjectId : String
  deriving DecidableEq, Repr

inductive RecordKind where
  | demandRecorded
  | demandWaived
  | evidenceAdded
  | evidenceReuseAdmitted
  | evidenceSatisfied
  | changeAttested
  | fixVerified
  | findingResolutionRecorded
  | findingResolutionChallenged
  | policyTimeAdvanced
  deriving DecidableEq, Repr

/-- `EventType::as_str`. -/
def RecordKind.name : RecordKind → String
  | .demandRecorded => "DemandRecorded@1"
  | .demandWaived => "DemandWaived@1"
  | .evidenceAdded => "EvidenceAdded@1"
  | .evidenceReuseAdmitted => "EvidenceReuseAdmitted@1"
  | .evidenceSatisfied => "EvidenceSatisfied@1"
  | .changeAttested => "ChangeAttested@1"
  | .fixVerified => "FixVerified@1"
  | .findingResolutionRecorded => "FindingResolutionRecorded@1"
  | .findingResolutionChallenged => "FindingResolutionChallenged@1"
  | .policyTimeAdvanced => "PolicyTimeAdvanced@1"

inductive LedgerEvent where
  | campaignOpened (campaignManifestId : String)
  | roundStarted (started : RoundStarted)
  | generationAdvanced (round : Option ℕ)
  | findingReported (payload : FindingReported)
  | findingResolved (payload : FindingResolved)
  | findingsGrouped (action : GroupingAction) (payload : FindingsGrouped)
  | recorded (kind : RecordKind) (artifactId : String)
  /-- an event the Ledger does not project -/
  | other
  deriving DecidableEq, Repr

/-- What an operation answers, and the Ledger it leaves. -/
abbrev LedgerReply := Except String Unit × Ledger

def malformed (event detail : String) : String := "malformed " ++ event ++ ": " ++ detail

def requiredString (value : Option String) (event field : String) : Except String String :=
  match value.filter fun v => !isBlank v with
  | some v => .ok v
  | none => .error (malformed event ("missing non-empty string `" ++ field ++ "`"))

/-- A `u32` Round. -/
def requiredRound (value : Option ℕ) (event : String) : Except String ℕ :=
  match value with
  | none => .error (malformed event "missing integer `round`")
  | some round =>
    if round < u32Bound then .ok round else .error (malformed event "`round` exceeds u32")

/-- Refuse with the text of a malformed event unless the condition holds. -/
def requireEvent (condition : Bool) (event detail : String) : Except String Unit :=
  if condition then .ok () else .error (malformed event detail)

namespace Ledger

/-- `record_authority_failure`: once for each failure. -/
def recordAuthorityFailure (L : Ledger) (failure : ScopeAuthorityFailure) : Ledger :=
  if failure ∈ L.scopeAuthorityFailures then L
  else { L with scopeAuthorityFailures := L.scopeAuthorityFailures ++ [failure] }

/-- `report_scope`: the scope of a report, the location to present, and the Ledger with a failed
Round binding recorded. -/
def reportScope (L : Ledger) (round : ℕ) (location : ReportLocation) :
    (Option ReportScope × Option ℕ) × Ledger :=
  match L.activeScope with
  | none => ((none, location.firstIndex), L)
  | some active =>
    if active.round ≠ round then
      ((none, location.firstIndex), L.recordAuthorityFailure ⟨round, .roundBinding,
        active.subjectId, "Report round " ++ toString round ++
          " disagrees with active RoundStarted@1 round " ++ toString active.round⟩)
    else match active.subject, location with
      | .unavailable, _ => ((none, location.firstIndex), L)
      | _, .unrecorded => ((none, location.firstIndex), L)
      | .wholeTree, _ => ((some .inside, location.firstIndex), L)
      | .diff _, .changeWide => ((some .inside, location.firstIndex), L)
      | .diff changedPaths, .paths locations =>
        match locations.findIdx? fun l => containsReportPath changedPaths l.path with
        | some index => ((some .inside, some index), L)
        | none => ((some .outside, location.firstIndex), L)

/-- The report an event names, or its placeholder with the failure recorded. -/
def projectReport (L : Ledger) (cas : ContentStore) (round : ℕ) (reportId : String) :
    ReportProjection × Ledger :=
  let projected : Except String ReportProjection := match cas.read reportId with
    | .error e => .error ("FindingReported@1 references " ++ reportId ++ ": " ++ e)
    | .ok artifact => ReportProjection.fromArtifact reportId artifact
  match projected with
  | .ok report => (report, L)
  | .error reason => (.ofUnreadable reportId reason,
      L.recordAuthorityFailure ⟨round, .report, reportId, reason⟩)

/-- A report about another Snapshot than the active one loses its location. -/
def bindSnapshot (L : Ledger) (round : ℕ) (reportId : String) (report : ReportProjection) :
    ReportProjection × Ledger :=
  match L.activeScope, report.subjectSnapshotId with
  | some active, some snapshot =>
    if !active.headSnapshotId.isEmpty && snapshot ≠ active.headSnapshotId then
      ({ report with location := .unrecorded }, L.recordAuthorityFailure ⟨round, .roundBinding,
        reportId, "Report Subject Snapshot " ++ snapshot ++
          " disagrees with active Snapshot " ++ active.headSnapshotId⟩)
    else (report, L)
  | _, _ => (report, L)

/-- Everything worked out about a report before its Finding is touched. -/
def prepareReport (L : Ledger) (cas : ContentStore) (key source : String) (round : ℕ)
    (reportId : String) : Reporting × Ledger :=
  let (report, L) := L.projectReport cas round reportId
  let (report, L) := L.bindSnapshot round reportId report
  let identity := report.identityLocation
  let ((scope, selected), L) := L.reportScope round report.location
  let report := report.selectLocation selected
  let challenge := if scope ≠ some .outside then L.resolutionChallengeForReport key report.severity
    else none
  (⟨report, report.attach reportId source round scope, identity, challenge⟩, L)

/-- Attach a report to the Finding it names, opening it if needed. -/
def attachReport (L : Ledger) (key : String) (r : Reporting) : Ledger :=
  match L.findings.get key with
  | some finding => { L with findings := L.findings.insert key (r.revise finding) }
  | none => { L with
      order := L.order ++ [key]
      findings := L.findings.insert key (r.opened key) }

/-- What `apply_report` checks: the key, the source, the Round and the report. -/
def checkReport (payload : FindingReported) (artifactRefs : List String) :
    Except String (String × String × ℕ × String) := do
  let key ← requiredString payload.key "FindingReported@1" "key"
  let source ← requiredString payload.source "FindingReported@1" "source"
  let round ← requiredRound payload.round "FindingReported@1"
  match artifactRefs with
  | [reportId] =>
    requireEvent (payload.reportId = some reportId) "FindingReported@1"
      "payload `report_id` does not match its sole artifact reference"
    return (key, source, round, reportId)
  | _ => throw (malformed "FindingReported@1" "expected exactly one report artifact")

def applyReport (L : Ledger) (cas : ContentStore) (payload : FindingReported)
    (artifactRefs : List String) : LedgerReply :=
  match checkReport payload artifactRefs with
  | .error e => (.error e, L)
  | .ok (key, source, round, reportId) =>
    let (reporting, L) := L.prepareReport cas key source round reportId
    (.ok (), L.attachReport key reporting)

def applyCampaignOpened (L : Ledger) (cas : ContentStore) (manifestId : String) : LedgerReply :=
  match cas.manifestPolicy manifestId with
  | .ok policy => (.ok (), { L with
      findingIdentityPolicy := policy
      findingIdentityPolicyUnavailable := false })
  | .error reason => (.ok (), recordAuthorityFailure { L with
        findingIdentityPolicy := ""
        findingIdentityPolicyUnavailable := true }
      ⟨L.round, .subject, manifestId, "CampaignManifest authority unavailable: " ++ reason⟩)

/-- The scope of a starting Round; a parsed scope is reused, its artifacts verified again. -/
def roundScope (L : Ledger) (cas : ContentStore) (subjectId : String) :
    Except String (SubjectScope × String) × Ledger :=
  match cas.verify subjectId with
  | .error e => (.error e, L)
  | .ok () =>
    match L.subjectScopeCache.get subjectId with
    | some cached =>
      let verified : Except String Unit := match cached.changeSetId with
        | none => .ok ()
        | some id => cas.verify id
      (verified.map fun _ => (cached.scope, cached.headSnapshotId), L)
    | none =>
      match cas.resolveSubjectScope subjectId with
      | .error e => (.error e, L)
      | .ok resolved => (.ok (resolved.cached.scope, resolved.cached.headSnapshotId),
          { L with subjectScopeCache := L.subjectScopeCache.insert subjectId resolved.cached })

def applyRoundStarted (L : Ledger) (cas : ContentStore) (started : RoundStarted) : LedgerReply :=
  let (resolved, L) := L.roundScope cas started.subjectId
  let (scope, head, L) := match resolved with
    | .ok (scope, head) => (scope, head, L)
    | .error reason => (.unavailable, "",
        L.recordAuthorityFailure ⟨started.round, .subject, started.subjectId, reason⟩)
  (.ok (), { L with activeScope := some ⟨started.round, started.subjectId, head, scope⟩ })

/-- Set the status of a Finding with a transition. -/
def setStatus (L : Ledger) (key : String) (status : FindingStatus) (t : Transition) : Ledger :=
  match L.findings.get key with
  | none => L
  | some finding => { L with findings := L.findings.insert key { finding with
      status := status
      history := finding.history ++ [t] } }

def checkResolved (L : Ledger) (payload : FindingResolved) :
    Except String (String × FindingStatus × ℕ) := do
  let key ← requiredString payload.key "FindingResolved@1" "key"
  let name ← requiredString payload.status "FindingResolved@1" "status"
  match FindingStatus.parse name with
  | none => throw (malformed "FindingResolved@1" ("invalid status `" ++ name ++ "`"))
  | some status =>
    let round ← requiredRound payload.round "FindingResolved@1"
    requireEvent (L.findings.contains key) "FindingResolved@1"
      ("unknown finding key `" ++ key ++ "`")
    return (key, status, round)

/-- `apply_resolution`. -/
def applyResolution (L : Ledger) (payload : FindingResolved) : LedgerReply :=
  match L.checkResolved payload with
  | .error e => (.error e, L)
  | .ok (key, status, round) => (.ok (), L.setStatus key status ⟨round, .resolved status, payload.note⟩)

/-- `EventType::as_str` of a grouping event. -/
def groupingName : GroupingAction → String
  | .group => "FindingsGrouped@1"
  | .ungroup => "FindingsUngrouped@1"

/-- What a grouping event is checked for; the artifact it names. -/
def checkGrouping (L : Ledger) (cas : ContentStore) (action : GroupingAction)
    (payload : FindingsGrouped) (artifactRefs : List String) : Except String Artifact := do
  let event := groupingName action
  requireEvent (artifactRefs = [payload.groupingArtifactId]) event
    "grouping artifact ID disagrees with its sole reference"
  match cas.read payload.groupingArtifactId with
  | .error e => throw (malformed event e)
  | .ok artifact =>
    match artifact.payload with
    | .grouping grouping =>
      requireEvent (grouping = ⟨payload.source, payload.into, action⟩) event
        "grouping event disagrees with its immutable artifact"
      match action with
      | .group => L.validateGroup payload.source payload.into
      | .ungroup => L.validateUngroup payload.source payload.into
      return artifact
    | _ => throw (malformed event "grouping artifact carries the wrong type")

def applyGrouping (L : Ledger) (cas : ContentStore) (action : GroupingAction)
    (payload : FindingsGrouped) (artifactRefs : List String) : LedgerReply :=
  match L.checkGrouping cas action payload artifactRefs with
  | .error e => (.error e, L)
  | .ok artifact => (.ok (), { L with
      groupingHistory := L.groupingHistory ++ [⟨payload.groupingArtifactId, artifact.artifactId⟩]
      activeGroupings := match action with
        | .group => L.activeGroupings.insert payload.source payload.into
        | .ungroup => L.activeGroupings.erase payload.source })

/-- The artifact a recorded event names. -/
def readRecorded (cas : ContentStore) (kind : RecordKind) (artifactId : String)
    (artifactRefs : List String) : Except String Artifact := do
  requireEvent (artifactRefs = [artifactId]) kind.name
    "recorded artifact disagrees with its sole reference"
  match cas.read artifactId with
  | .error e => throw (malformed kind.name e)
  | .ok artifact => return artifact

/-! ## Demands -/

/-- Change the record of a known Demand. -/
def reviseDemand (L : Ledger) (kind : RecordKind) (demandId unknown : String)
    (revise : DemandRecord → Except String DemandRecord) : Except String Ledger :=
  match L.demands.get demandId with
  | none => .error (malformed kind.name unknown)
  | some record => (revise record).map fun record' =>
    { L with demands := L.demands.insert demandId record' }

/-- A Demand recorded first, or once more with the same content. -/
def recordDemand (L : Ledger) (id : RecordedId) (demand : Demand) : Except String Ledger :=
  match L.demands.get demand.demandId with
  | some existing =>
    if existing.demand.claim ≠ demand.claim || existing.demand.why ≠ demand.why ||
        existing.demand.suggestedMethod ≠ demand.suggestedMethod ||
        existing.demand.source ≠ demand.source ||
        existing.demand.requirement ≠ demand.requirement then
      .error (malformed "DemandRecorded@1" "stable Demand identity changes immutable content")
    else .ok { L with demands := L.demands.insert demand.demandId { existing with
      records := existing.records ++ [id] } }
  | none => .ok { L with
      demandOrder := L.demandOrder ++ [demand.demandId]
      demands := L.demands.insert demand.demandId { demand := demand, records := [id] } }

/-- The branches of `apply_demand_evidence`. -/
def demandEvidence (L : Ledger) (kind : RecordKind) (id : RecordedId) (payload : ArtifactPayload) :
    Except String Ledger :=
  match kind, payload with
  | .demandRecorded, .demand demand => L.recordDemand id demand
  | .demandRecorded, _ => .error (malformed kind.name "artifact is not Demand@1")
  | .evidenceAdded, .evidence demandId =>
    L.reviseDemand kind demandId "Evidence names an unknown Demand" fun record =>
      .ok { record with evidence := record.evidence ++ [id] }
  | .evidenceAdded, _ => .error (malformed kind.name "artifact is not Evidence@1")
  | .evidenceSatisfied, .evidenceSatisfaction demandId evidenceId subjectId =>
    L.reviseDemand kind demandId "satisfaction names an unknown Demand" fun record =>
      if record.evidence.any fun e => e.artifactId = evidenceId then
        .ok { record with satisfactions := record.satisfactions ++ [⟨id, evidenceId, subjectId⟩] }
      else .error (malformed kind.name "satisfaction names Evidence outside its Demand")
  | .evidenceSatisfied, _ => .error (malformed kind.name "artifact is not EvidenceSatisfaction@1")
  | .evidenceReuseAdmitted, .evidenceReuseAdmission demandId satisfactionId subjectId =>
    L.reviseDemand kind demandId "reuse names an unknown Demand" fun record =>
      if record.satisfactions.any fun s => s.id.artifactId = satisfactionId && s.subjectId = subjectId
      then .ok { record with
        reuseAdmissions := record.reuseAdmissions ++ [⟨id, satisfactionId, subjectId⟩] }
      else .error (malformed kind.name
        "reuse does not name a satisfaction for its Demand and Subject")
  | .evidenceReuseAdmitted, _ =>
    .error (malformed kind.name "artifact is not EvidenceReuseAdmission@1")
  | .demandWaived, .demandWaiver demandId =>
    L.reviseDemand kind demandId "waiver names an unknown Demand" fun record =>
      .ok { record with waivers := record.waivers ++ [id] }
  | .demandWaived, _ => .error (malformed kind.name "artifact is not DemandWaiver@1")
  -- the caller matches the demand events only
  | _, _ => .error (malformed kind.name "demand evidence event was matched by caller")

/-! ## Resolution authority -/

/-- Set the status of every named Finding. -/
def setStatuses (L : Ledger) (keys : List String) (status : FindingStatus) (t : Transition) :
    Ledger :=
  keys.foldl (fun L key => L.setStatus key status t) L

section Authority

variable (viewId : Finding → Option String)

/-- `finding_view_id`. -/
def findingViewId (L : Ledger) (key : String) : Option String := (L.findingView key).bind viewId

/-- `validate_expected_finding_view`. -/
def validateExpectedFindingView (L : Ledger) (findingId expected event : String) :
    Except String Unit :=
  match L.findingViewId viewId findingId with
  | none => .error (malformed event "artifact names an unknown Finding")
  | some actual =>
    if actual = expected then .ok () else .error (malformed event "expected Finding view is stale")

def applyChangeAttested (L : Ledger) (subject : String) (artifact : Artifact)
    (attestation : ChangeAttestation) : Except String Ledger := do
  L.validateExpectedFindingView viewId attestation.findingId attestation.expectedFindingViewId
    "ChangeAttested@1"
  requireEvent (attestation.subjectId = subject && L.activeChangeSetId = attestation.changeSetId &&
    artifact.subjectSnapshotId = L.activeHeadSnapshotId) "ChangeAttested@1"
    "Attestation does not cover the active Subject and Change Set"
  let keys ← L.findingMemberKeys attestation.findingId
  let L := L.setStatuses keys .pendingVerification ⟨L.round, .attested, some attestation.reason⟩
  return { L with attestations := L.attestations.insert artifact.artifactId attestation }

def applyFixVerified (L : Ledger) (subject : String) (artifact : Artifact)
    (verification : FixVerification) : Except String Ledger := do
  L.validateExpectedFindingView viewId verification.findingId verification.expectedFindingViewId
    "FixVerified@1"
  match L.attestations.get verification.attestationId with
  | none => throw (malformed "FixVerified@1" "verification names unknown Attestation")
  | some attestation =>
    requireEvent (verification.subjectId = subject &&
      attestation.findingId = verification.findingId &&
      attestation.subjectId = verification.subjectId) "FixVerified@1"
      "verification does not cover its Attestation and active Subject"
    return { L with verifications := L.verifications.insert artifact.artifactId verification }

/-- The status a Resolution gives its group, once its outcome is supported. -/
def resolvedStatus (L : Ledger) (r : FindingResolution) : Except String FindingStatus := do
  let event := "FindingResolutionRecorded@1"
  match r.outcome with
  | .fixed verificationId =>
    match L.verifications.get verificationId with
    | none => throw (malformed event "fixed Resolution names unknown FixVerification")
    | some v =>
      requireEvent (v.positive && v.findingId = r.findingId && v.subjectId = r.subjectId) event
        "fixed Resolution lacks positive current-Subject verification"
      return .fixed
  | .rejected => return .rejected
  | .wontfixTracked ceiling expiry =>
    requireEvent (!((L.findingView r.findingId).bind Finding.convergenceSeverity).any
      fun s => ceiling.rank < s.rank) event
      "tracked-wontfix severity ceiling is below the current Finding severity"
    requireEvent (L.policyTime < expiry) event
      "tracked-wontfix expiry is not later than current persisted policy time"
    return .wontfix

/-- Record a Resolution for the members of a group. -/
def coverMembers (L : Ledger) (keys : List String) (id : RecordedId) (r : FindingResolution)
    (status : FindingStatus) : Ledger :=
  let L := L.setStatuses keys status ⟨L.round, .resolved status, some r.reason⟩
  { L with
    resolutionAuthority := L.resolutionAuthority.insertAll (keys.map fun key => (key, r.findingId))
    resolutionHistory := L.resolutionHistory ++ [id]
    resolutions := L.resolutions.insert r.findingId ⟨id, r⟩ }

def applyResolutionRecorded (L : Ledger) (subject : String) (id : RecordedId)
    (r : FindingResolution) : Except String Ledger := do
  let event := "FindingResolutionRecorded@1"
  L.validateExpectedFindingView viewId r.findingId r.expectedFindingViewId event
  requireEvent (r.subjectId = subject) event "Resolution does not cover the active Subject"
  requireEvent (L.groupRoot r.findingId).isSome event "Resolution names an unknown Finding"
  let status ← L.resolvedStatus r
  let keys ← L.findingMemberKeys r.findingId
  return L.coverMembers keys id r status

def applyResolutionChallenged (L : Ledger) (subject : String) (id : RecordedId)
    (challenge : ResolutionChallenge) : Except String Ledger := do
  let event := "FindingResolutionChallenged@1"
  match L.resolution challenge.findingId with
  | none => throw (malformed event "challenge names no active Resolution")
  | some recorded =>
    requireEvent (recorded.id.artifactId = challenge.resolutionId && challenge.subjectId = subject)
      event "challenge does not name the active Resolution and Subject"
    let keys ← L.findingMemberKeys challenge.findingId
    let L := L.setStatuses keys .contested
      ⟨L.round, .challenged, some (challenge.kind.text ++ ": " ++ challenge.reason)⟩
    return { L with resolutionHistory := L.resolutionHistory ++ [id] }

def applyPolicyTime (L : Ledger) (id : RecordedId) (tick : ℕ) : Except String Ledger := do
  requireEvent (L.policyTime < tick) "PolicyTimeAdvanced@1" "policy time must advance monotonically"
  return { L with policyTime := tick, resolutionHistory := L.resolutionHistory ++ [id] }

/-- The branches of `apply_resolution_authority`. -/
def resolutionAuthorityEvent (L : Ledger) (kind : RecordKind) (subject : String) (id : RecordedId)
    (artifact : Artifact) : Except String Ledger :=
  match kind, artifact.payload with
  | .changeAttested, .changeAttestation attestation =>
    L.applyChangeAttested viewId subject artifact attestation
  | .changeAttested, _ => .error (malformed kind.name "artifact is not ChangeAttestation@1")
  | .fixVerified, .fixVerification verification =>
    L.applyFixVerified viewId subject artifact verification
  | .fixVerified, _ => .error (malformed kind.name "artifact is not FixVerification@1")
  | .findingResolutionRecorded, .findingResolution r =>
    L.applyResolutionRecorded viewId subject id r
  | .findingResolutionRecorded, _ =>
    .error (malformed kind.name "artifact is not FindingResolution@1")
  | .findingResolutionChallenged, .resolutionChallenge challenge =>
    L.applyResolutionChallenged subject id challenge
  | .findingResolutionChallenged, _ =>
    .error (malformed kind.name "artifact is not ResolutionChallenge@1")
  | .policyTimeAdvanced, .policyTime tick => L.applyPolicyTime id tick
  | .policyTimeAdvanced, _ => .error (malformed kind.name "artifact is not PolicyTime@1")
  -- the caller matches the resolution events only
  | _, _ => .error (malformed kind.name "resolution authority event was matched by caller")

/-- `apply_demand_evidence` and `apply_resolution_authority`; the latter needs a Subject. -/
def recordedEvent (L : Ledger) (cas : ContentStore) (kind : RecordKind) (artifactId : String)
    (artifactRefs : List String) : Except String Ledger := do
  let artifact ← readRecorded cas kind artifactId artifactRefs
  let id : RecordedId := ⟨artifactId, artifact.artifactId⟩
  match kind with
  | .demandRecorded | .demandWaived | .evidenceAdded | .evidenceReuseAdmitted
  | .evidenceSatisfied => L.demandEvidence kind id artifact.payload
  | _ =>
    match L.activeSubjectId with
    | none => throw (malformed kind.name "Campaign has no active Subject")
    | some subject => L.resolutionAuthorityEvent viewId kind subject id artifact

/-- An operation whose checks all come before it writes. -/
def commit (L : Ledger) (result : Except String Ledger) : LedgerReply :=
  match result with
  | .error e => (.error e, L)
  | .ok L' => (.ok (), L')

/-- `apply`: fold one event in. -/
def apply (L : Ledger) (cas : ContentStore) (event : LedgerEvent) (artifactRefs : List String) :
    LedgerReply :=
  match event with
  | .campaignOpened manifestId => L.applyCampaignOpened cas manifestId
  | .roundStarted started => L.applyRoundStarted cas started
  | .generationAdvanced round =>
    L.commit ((requiredRound round "GenerationAdvanced@1").map fun round => { L with round := round })
  | .findingReported payload => L.applyReport cas payload artifactRefs
  | .findingResolved payload => L.applyResolution payload
  | .findingsGrouped action payload => L.applyGrouping cas action payload artifactRefs
  | .recorded kind artifactId => L.commit (L.recordedEvent viewId cas kind artifactId artifactRefs)
  | .other => (.ok (), L)

end Authority

end Ledger

/-! ## What a Task does to its projection -/

def canonicalFindingIdentityPolicy : String := "report-derived@1"

/-- `ClaimVerificationV1`. -/
structure ClaimVerification where
  expectedViewId : String
  attestationId : String
  receiptId : String
  outcome : VerificationOutcome
  deriving DecidableEq, Repr

/-- `RepairAssessmentV1`. -/
structure RepairAssessment where
  continuationId : String
  currentSubjectId : String
  currentSnapshotId : String
  claims : OrdMap String ClaimVerification
  deriving DecidableEq

namespace Ledger

/-- `finding_identity_policy`. -/
def identityPolicy (L : Ledger) : Option String :=
  if !L.findingIdentityPolicyUnavailable && !L.findingIdentityPolicy.isEmpty then
    some L.findingIdentityPolicy
  else none

/-- Reopen what a Task fixed on another Subject. -/
def reopenFixed (subjectId : String) (round : ℕ) : List (String × String) → Ledger → LedgerReply
  | [], L => (.ok (), L)
  | (key, fixedSubject) :: rest, L =>
    if fixedSubject = subjectId then reopenFixed subjectId round rest L
    else match L.findings.get key with
      | none => (.error "Task fix projection lost its Finding", L)
      | some finding =>
        reopenFixed subjectId round rest (if finding.status = .fixed then
          L.setStatus key .opened ⟨round, .reopened,
            some "Task fix verification belongs to an earlier Subject"⟩ else L)

/-- Verify every object of a list. -/
def verifyAll (cas : ContentStore) (ids : List String) : Except String Unit := ids.forM cas.verify

/-- `bind_task_subject`: an admitted continuation changes the current Subject. -/
def bindTaskSubject (L : Ledger) (cas : ContentStore) (subjectId : String) (round : ℕ) :
    LedgerReply :=
  if round = 0 || round < L.round || L.identityPolicy ≠ some canonicalFindingIdentityPolicy then
    (.error "Task review Subject requires canonical identity and a nondecreasing positive Round", L)
  else match cas.resolveSubjectScope subjectId with
    | .error e => (.error e, L)
    | .ok resolved =>
      match reopenFixed subjectId round L.taskFixedSubjects.entries L with
      | (.error e, L) => (.error e, L)
      | (.ok (), L) =>
        match verifyAll cas (resolved.cached.headSnapshotId :: resolved.baseSnapshotId.toList) with
        | .error e => (.error e, L)
        | .ok () => (.ok (), { L with
            subjectScopeCache := L.subjectScopeCache.insert subjectId resolved.cached
            activeScope := some ⟨round, subjectId, resolved.cached.headSnapshotId,
              resolved.cached.scope⟩
            round := round })

section Views

variable (viewId : Finding → Option String)

/-- The Findings one verified claim fixes, with the receipt; the receipt must be about the
claim and the current view. -/
def checkTaskFix (L : Ledger) (cas : ContentStore) (assessment : RepairAssessment)
    (entry : String × ClaimVerification) : Except String (List (String × String)) := do
  let (findingId, claim) := entry
  let artifact ← cas.read claim.receiptId
  match artifact.payload with
  | .taskFixReceipt receipt =>
    if artifact.subjectSnapshotId ≠ some assessment.currentSnapshotId ||
        receipt ≠ ⟨findingId, assessment.continuationId, assessment.currentSubjectId,
          claim.expectedViewId, claim.attestationId, claim.outcome⟩ ||
        L.findingViewId viewId findingId ≠ some claim.expectedViewId then
      throw "Task fix receipt changed its original Finding or current view"
    if claim.outcome = .positive then
      let keys ← L.findingMemberKeys findingId
      return keys.map fun key => (key, claim.receiptId)
    else return []
  | _ => throw "Task fix receipt changed its original Finding or current view"

/-- Mark one Finding fixed on the current Subject. -/
def fixByTask (subjectId : String) (L : Ledger) (change : String × String) : Ledger :=
  let L := L.setStatus change.1 .fixed ⟨L.round, .resolved .fixed,
    some ("Verified on current Task Subject by " ++ change.2)⟩
  { L with taskFixedSubjects := L.taskFixedSubjects.insert change.1 subjectId }

/-- `project_task_fixes`. -/
def projectTaskFixes (L : Ledger) (cas : ContentStore) (assessment : RepairAssessment) :
    LedgerReply :=
  if L.activeSubjectId ≠ some assessment.currentSubjectId ||
      L.activeHeadSnapshotId ≠ some assessment.currentSnapshotId then
    (.error "Task fix assessment belongs to another active Subject", L)
  else match assessment.claims.entries.mapM (L.checkTaskFix viewId cas assessment) with
    | .error e => (.error e, L)
    | .ok changes => (.ok (), changes.flatten.foldl (fixByTask assessment.currentSubjectId) L)

end Views

end Ledger

/-! ## Runs -/

/-- What is done to a Ledger, with what the content store answers meanwhile. -/
inductive LedgerInput where
  | event (cas : ContentStore) (event : LedgerEvent) (artifactRefs : List String)
  | bindTaskSubject (cas : ContentStore) (subjectId : String) (round : ℕ)
  | projectTaskFixes (cas : ContentStore) (assessment : RepairAssessment)

namespace Ledger

/-- The Ledger a projection starts from. -/
def start (policy : String) (round : ℕ) : Ledger :=
  { findingIdentityPolicy := policy, round := round }

/-- What an input answers. -/
def reply (viewId : Finding → Option String) (L : Ledger) : LedgerInput → LedgerReply
  | .event cas event artifactRefs => L.apply viewId cas event artifactRefs
  | .bindTaskSubject cas subjectId round => L.bindTaskSubject cas subjectId round
  | .projectTaskFixes cas assessment => L.projectTaskFixes viewId cas assessment

/-- One accepted input. -/
def step (viewId : Finding → Option String) (L : Ledger) (input : LedgerInput) : Option Ledger :=
  match L.reply viewId input with
  | (.ok (), L') => some L'
  | (.error _, _) => none

end Ledger

end Afactory
