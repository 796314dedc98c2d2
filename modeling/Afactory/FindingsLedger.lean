import Mathlib
import Afactory.Checks
import Afactory.Forest
import Afactory.OrdMap
import Afactory.RepoPath
import Afactory.TaskBudget

/-!
# The Findings Ledger

The projection of `review-store/src/ledger.rs`: Findings with every report attached, the
groupings that join Findings into one view, the Demands, and the Resolutions with what they
cover. It is folded from the event log one event at a time.

* `groupRoot`, `groupMembers`, `findingViews`: Findings joined by active groupings;
* `validateGroup`, `validateUngroup`: which groupings may be added and removed;
* `resolution`: the Resolution that covers a Finding;
* `Reporting.revise`: what a report does to the Finding it names;
* `convergence`: the verdict of a Round.

Artifacts come parsed and validated, each under the constructor of its type.
-/

namespace Afactory

/-! ## Reports and Findings -/

inductive Severity where
  | minor
  | major
  | blocker
  deriving DecidableEq, Repr

def Severity.rank : Severity → ℕ
  | .minor => 1
  | .major => 2
  | .blocker => 3

/-- `severity_name`. -/
def Severity.name : Severity → String
  | .blocker => "blocker"
  | .major => "major"
  | .minor => "minor"

inductive ReportScope where
  | inside
  | outside
  deriving DecidableEq, Repr

/-- `Status` of a Finding. -/
inductive FindingStatus where
  | opened
  | pendingVerification
  | fixed
  | rejected
  | wontfix
  | contested
  deriving DecidableEq, Repr

namespace FindingStatus

def parse : String → Option FindingStatus
  | "open" => some .opened
  | "pending-verification" => some .pendingVerification
  | "fixed" => some .fixed
  | "rejected" => some .rejected
  | "wontfix" => some .wontfix
  | "contested" => some .contested
  | _ => none

/-- Blocks convergence while at or above the gate. -/
def isActive : FindingStatus → Bool
  | .opened | .pendingVerification | .contested => true
  | _ => false

/-- Never reopened by a report alone. -/
def isDeclined : FindingStatus → Bool
  | .rejected | .wontfix => true
  | _ => false

end FindingStatus

/-- `Relation`: the report corroborates a Finding. -/
structure Relation where
  target : String
  reason : Option String
  deriving DecidableEq, Repr

structure AttachedReport where
  reportId : String
  artifactId : Option String
  round : ℕ
  source : String
  severity : Severity
  ruleId : Option String
  occurrenceKey : Option String
  relations : List Relation
  file : String
  line : Option ℕ
  scope : Option ReportScope
  deriving DecidableEq, Repr

inductive TransitionKind where
  | reported
  | duplicate
  | escalated
  | reopened
  | adoptedWhileDeclined
  | authorityRecovered
  | attested
  | challenged
  | resolved (status : FindingStatus)
  deriving DecidableEq, Repr

structure Transition where
  round : ℕ
  kind : TransitionKind
  note : Option String
  deriving DecidableEq, Repr

structure Finding where
  key : String
  /-- the other members of a view; empty in the Ledger's own records -/
  aliases : List String := []
  status : FindingStatus
  severity : Severity
  lastSeenRound : ℕ
  source : String
  identityFile : String
  identityLine : Option ℕ
  file : String
  line : Option ℕ
  title : String
  body : String
  fix : String
  confidence : Option ℚ
  /-- the claim stands for a report that could not be read -/
  authorityDiagnostic : Bool
  unreadableReports : OrdMap String Unit
  convergenceScope : Option ReportScope
  /-- the highest severity of an active claim not out of scope -/
  convergenceSeverity : Option Severity
  scopedNewsRound : Option ℕ
  reports : List AttachedReport
  history : List Transition
  deriving DecidableEq

/-- `combine_scope`. -/
def combineScope : Option ReportScope → Option ReportScope → Option ReportScope
  | some .inside, _ => some .inside
  | _, some .inside => some .inside
  | some .outside, some .outside => some .outside
  | _, _ => none

/-! ## Artifacts -/

/-- A report location as the Ledger reads it. -/
structure ProjectedLocation where
  path : String
  line : Option ℕ
  deriving DecidableEq, Repr

/-- The parts of `FindingReport@1` the Ledger keeps. -/
structure FindingReport where
  title : String
  severity : Severity
  locations : List ProjectedLocation
  body : String
  fix : String
  confidence : ℚ
  ruleId : Option String
  occurrenceKey : Option String
  relations : List Relation
  deriving DecidableEq, Repr

inductive GroupingAction where
  | group
  | ungroup
  deriving DecidableEq, Repr

/-- `FindingGroupingV1`. -/
structure FindingGrouping where
  source : String
  into : String
  action : GroupingAction
  deriving DecidableEq, Repr

inductive DemandRequirement where
  | required
  | advisory
  deriving DecidableEq, Repr

/-- `DemandV1`. -/
structure Demand where
  demandId : String
  claim : String
  why : String
  suggestedMethod : String
  source : String
  requirement : DemandRequirement
  subjectId : String
  deriving DecidableEq, Repr

/-- `ChangeAttestationV1`. -/
structure ChangeAttestation where
  findingId : String
  expectedFindingViewId : String
  subjectId : String
  changeSetId : Option String
  reason : String
  deriving DecidableEq, Repr

/-- `FixVerificationV1`. -/
structure FixVerification where
  findingId : String
  attestationId : String
  expectedFindingViewId : String
  subjectId : String
  positive : Bool
  deriving DecidableEq, Repr

/-- `FindingResolutionOutcome` with the fields `validate` requires of it. -/
inductive ResolutionOutcome where
  | fixed (verificationId : String)
  | rejected
  | wontfixTracked (maxAcceptedSeverity : Severity) (expiresAtPolicyTime : ℕ)
  deriving DecidableEq, Repr

/-- `FindingResolutionV1`. -/
structure FindingResolution where
  findingId : String
  expectedFindingViewId : String
  subjectId : String
  outcome : ResolutionOutcome
  reason : String
  deriving DecidableEq, Repr

/-- The policy time a tracked acceptance ends at. -/
def FindingResolution.expiresAt (r : FindingResolution) : Option ℕ :=
  match r.outcome with
  | .wontfixTracked _ expiry => some expiry
  | _ => none

inductive ResolutionChallengeKind where
  | newEvidence
  | higherSeverity
  | outsideScope
  | expired
  deriving DecidableEq, Repr

/-- The `Debug` text of a challenge kind. -/
def ResolutionChallengeKind.text : ResolutionChallengeKind → String
  | .newEvidence => "NewEvidence"
  | .higherSeverity => "HigherSeverity"
  | .outsideScope => "OutsideScope"
  | .expired => "Expired"

/-- `ResolutionChallengeV1`. -/
structure ResolutionChallenge where
  findingId : String
  resolutionId : String
  subjectId : String
  kind : ResolutionChallengeKind
  reason : String
  deriving DecidableEq, Repr

inductive VerificationOutcome where
  | positive
  | negative
  | inconclusive
  deriving DecidableEq, Repr

/-- `TaskFixReceiptV1` with its decision. -/
structure TaskFixReceipt where
  findingId : String
  continuationId : String
  subjectId : String
  expectedViewId : String
  attestationId : String
  outcome : VerificationOutcome
  deriving DecidableEq, Repr

/-- A verified artifact's payload, by its type. -/
inductive ArtifactPayload where
  | findingReport (report : FindingReport)
  | grouping (grouping : FindingGrouping)
  | demand (demand : Demand)
  | evidence (demandId : String)
  | evidenceSatisfaction (demandId evidenceId subjectId : String)
  | evidenceReuseAdmission (demandId satisfactionId subjectId : String)
  | demandWaiver (demandId : String)
  | changeAttestation (attestation : ChangeAttestation)
  | fixVerification (verification : FixVerification)
  | findingResolution (resolution : FindingResolution)
  | resolutionChallenge (challenge : ResolutionChallenge)
  | policyTime (tick : ℕ)
  | taskFixReceipt (receipt : TaskFixReceipt)
  /-- an artifact of any other type -/
  | other (artifactType : String)
  deriving DecidableEq, Repr

/-- `artifact_type`. -/
def ArtifactPayload.artifactType : ArtifactPayload → String
  | .findingReport _ => "review.kernel/FindingReport@1"
  | .grouping _ => "review.kernel/FindingGrouping@1"
  | .demand _ => "review.kernel/Demand@1"
  | .evidence _ => "review.kernel/Evidence@1"
  | .evidenceSatisfaction _ _ _ => "review.kernel/EvidenceSatisfaction@1"
  | .evidenceReuseAdmission _ _ _ => "review.kernel/EvidenceReuseAdmission@1"
  | .demandWaiver _ => "review.kernel/DemandWaiver@1"
  | .changeAttestation _ => "review.kernel/ChangeAttestation@1"
  | .fixVerification _ => "review.kernel/FixVerification@1"
  | .findingResolution _ => "review.kernel/FindingResolution@1"
  | .resolutionChallenge _ => "review.kernel/ResolutionChallenge@1"
  | .policyTime _ => "review.kernel/PolicyTime@1"
  | .taskFixReceipt _ => "af/TaskFixReceipt@1"
  | .other artifactType => artifactType

/-- `ArtifactEnvelope`. -/
structure Artifact where
  artifactId : String
  subjectSnapshotId : Option String
  payload : ArtifactPayload
  deriving DecidableEq, Repr

inductive SubjectScope where
  | wholeTree
  | diff (changedPaths : List String)
  | unavailable
  deriving DecidableEq, Repr

structure CachedSubjectScope where
  scope : SubjectScope
  changeSetId : Option String
  headSnapshotId : String
  deriving DecidableEq, Repr

/-- `ResolvedSubjectScope`: a Subject read with its changed paths. -/
structure ResolvedSubject where
  cached : CachedSubjectScope
  baseSnapshotId : Option String
  deriving DecidableEq, Repr

/-- What the content store answers: a read artifact, whether an object is intact, the scope a
Subject resolves to, and a Campaign manifest's identity policy. -/
structure ContentStore where
  read : String → Except String Artifact
  verify : String → Except String Unit
  resolveSubjectScope : String → Except String ResolvedSubject
  manifestPolicy : String → Except String String

/-! ## The Ledger -/

inductive ScopeAuthorityKind where
  | subject
  | report
  | roundBinding
  deriving DecidableEq, Repr

structure ScopeAuthorityFailure where
  round : ℕ
  authority : ScopeAuthorityKind
  authorityId : String
  reason : String
  deriving DecidableEq, Repr

structure ActiveScope where
  round : ℕ
  subjectId : String
  headSnapshotId : String
  subject : SubjectScope
  deriving DecidableEq, Repr

/-- An admitted artifact: the record that named it and its own identity. -/
structure RecordedId where
  recordId : String
  artifactId : String
  deriving DecidableEq, Repr

structure RecordedSatisfaction where
  id : RecordedId
  evidenceId : String
  subjectId : String
  deriving DecidableEq, Repr

structure RecordedReuse where
  id : RecordedId
  satisfactionId : String
  subjectId : String
  deriving DecidableEq, Repr

structure DemandRecord where
  demand : Demand
  records : List RecordedId
  evidence : List RecordedId := []
  satisfactions : List RecordedSatisfaction := []
  reuseAdmissions : List RecordedReuse := []
  waivers : List RecordedId := []
  deriving DecidableEq, Repr

structure RecordedResolution where
  id : RecordedId
  resolution : FindingResolution
  deriving DecidableEq, Repr

structure Ledger where
  findings : OrdMap String Finding := .empty
  /-- the keys in first-reported order -/
  order : List String := []
  activeScope : Option ActiveScope := none
  scopeAuthorityFailures : List ScopeAuthorityFailure := []
  subjectScopeCache : OrdMap String CachedSubjectScope := .empty
  findingIdentityPolicy : String := ""
  findingIdentityPolicyUnavailable : Bool := false
  /-- each grouped Finding with the one it is grouped into -/
  activeGroupings : OrdMap String String := .empty
  groupingHistory : List RecordedId := []
  demands : OrdMap String DemandRecord := .empty
  demandOrder : List String := []
  attestations : OrdMap String ChangeAttestation := .empty
  verifications : OrdMap String FixVerification := .empty
  resolutions : OrdMap String RecordedResolution := .empty
  /-- which Finding's Resolution covers a Finding -/
  resolutionAuthority : OrdMap String String := .empty
  resolutionHistory : List RecordedId := []
  /-- the Subject a Finding was verified fixed on by a Task -/
  taskFixedSubjects : OrdMap String String := .empty
  policyTime : ℕ := 0
  round : ℕ := 0
  deriving DecidableEq

namespace Ledger

/-! ## Groups -/

/-- `group_root`: follow the active groupings, one lookup more than there are. -/
def groupRoot (L : Ledger) (key : String) : Option String :=
  if L.findings.contains key then
    Forest.follow L.activeGroupings (L.activeGroupings.entries.length + 1) key
  else none

/-- `group_members`: the Findings of a root, in first-reported order. -/
def groupMembers (L : Ledger) (root : String) : List Finding :=
  L.order.filterMap fun key => if L.groupRoot key = some root then L.findings.get key else none

/-- The status of a view: the most pressing of its members', else the root's. -/
def mergedStatus (members : List Finding) (root : Finding) : FindingStatus :=
  if members.any fun f => f.status = .contested then .contested
  else if members.any fun f => f.status = .opened then .opened
  else if members.any fun f => f.status = .pendingVerification then .pendingVerification
  else root.status

/-- `max_by_key(rank)`; severities of one rank are equal. -/
def maxSeverity : List Severity → Option Severity
  | [] => none
  | s :: rest =>
    match maxSeverity rest with
    | none => some s
    | some t => some (if t.rank < s.rank then s else t)

/-- `reduce(combine_scope)`. -/
def mergedScope : List (Option ReportScope) → Option ReportScope
  | [] => none
  | s :: rest => rest.foldl combineScope s

/-- The view of a root with aliases. -/
def mergedView (root : Finding) (members : List Finding) (aliases : List String) : Finding :=
  { root with
    aliases := aliases
    status := mergedStatus members root
    severity := (maxSeverity (members.map Finding.severity)).getD root.severity
    lastSeenRound := ((members.map Finding.lastSeenRound).max?).getD root.lastSeenRound
    scopedNewsRound := (members.filterMap Finding.scopedNewsRound).max?
    convergenceScope := mergedScope (members.map Finding.convergenceScope)
    convergenceSeverity := maxSeverity (members.filterMap Finding.convergenceSeverity)
    authorityDiagnostic := members.any Finding.authorityDiagnostic
    unreadableReports := .ofList (members.flatMap fun f => f.unreadableReports.entries)
    reports := members.flatMap Finding.reports
    history := (members.flatMap Finding.history).insertionSort fun t u => t.round ≤ u.round }

/-- `finding_view_for_root`. -/
def findingViewForRoot (L : Ledger) (root : String) : Option Finding :=
  let members := L.groupMembers root
  (L.findings.get root).map fun finding =>
    let aliases := (members.filter fun f => f.key ≠ root).map Finding.key
    if aliases.isEmpty then { finding with aliases := aliases }
    else mergedView finding members aliases

/-- `finding_views`: one view for each root, in the order the roots are met. -/
def findingViews (L : Ledger) : List Finding :=
  (L.order.filterMap L.groupRoot).eraseDups.filterMap L.findingViewForRoot

def findingView (L : Ledger) (key : String) : Option Finding :=
  (L.groupRoot key).bind L.findingViewForRoot

/-- `finding_member_keys`. -/
def findingMemberKeys (L : Ledger) (findingId : String) : Except String (List String) :=
  match L.groupRoot findingId with
  | none => .error ("unknown Finding `" ++ findingId ++ "`")
  | some root => .ok ((L.groupMembers root).map Finding.key)

/-! ## Resolutions -/

/-- `resolution`: the Resolution recorded under the authority of a Finding. -/
def resolution (L : Ledger) (findingId : String) : Option RecordedResolution :=
  (L.resolutionAuthority.get findingId).bind L.resolutions.get

def activeSubjectId (L : Ledger) : Option String := L.activeScope.map ActiveScope.subjectId

def activeHeadSnapshotId (L : Ledger) : Option String :=
  (L.activeScope.map ActiveScope.headSnapshotId).filter fun id => !id.isEmpty

def activeChangeSetId (L : Ledger) : Option String :=
  L.activeSubjectId.bind fun id =>
    (L.subjectScopeCache.get id).bind CachedSubjectScope.changeSetId

/-- Whether a member's tracked acceptance has not ended. -/
def groupHasUnexpiredTrackedResolution (L : Ledger) (findingId : String) : Bool :=
  match L.groupRoot findingId with
  | none => false
  | some root => (L.groupMembers root).any fun finding =>
    finding.status = .wontfix &&
      (L.resolution finding.key).any fun r =>
        r.resolution.expiresAt.any fun expiry => L.policyTime < expiry

/-- `validate_group`. -/
def validateGroup (L : Ledger) (source into : String) : Except String Unit :=
  if source = into || !L.findings.contains source || !L.findings.contains into then
    .error "grouping requires two distinct existing Findings"
  else if L.activeGroupings.contains source then
    .error ("Finding `" ++ source ++ "` is already grouped into another Finding")
  else if L.groupRoot into ≠ some into then
    .error ("group target `" ++ into ++ "` is an alias; name its visible root instead")
  else if L.groupHasUnexpiredTrackedResolution source ||
      L.groupHasUnexpiredTrackedResolution into then
    .error ("cannot group a Finding carrying an unexpired tracked-wontfix Resolution; " ++
      "challenge the Resolution first")
  else .ok ()

/-- `validate_ungroup`. -/
def validateUngroup (L : Ledger) (source into : String) : Except String Unit :=
  if L.activeGroupings.get source ≠ some into then
    .error ("Findings `" ++ source ++ "` and `" ++ into ++ "` do not have that active grouping")
  else match L.groupRoot source with
    | none => .error ("unknown Finding `" ++ source ++ "`")
    | some root =>
      if (L.resolution root).isSome && (L.findingView root).any fun f => !f.status.isActive then
        .error ("cannot ungroup a terminally resolved Finding group; " ++
          "challenge the Resolution first")
      else .ok ()

/-- `resolution_challenge_for_report`. -/
def resolutionChallengeForReport (L : Ledger) (findingId : String) (severity : Severity) :
    Option ResolutionChallengeKind :=
  (L.findingView findingId).bind fun finding =>
    if !finding.status.isDeclined then none
    else (L.resolution findingId).bind fun r =>
      if some r.resolution.subjectId ≠ L.activeSubjectId then some .outsideScope
      else match r.resolution.outcome with
        | .wontfixTracked ceiling _ =>
          if ceiling.rank < severity.rank then some .higherSeverity else none
        | .rejected => if finding.severity.rank < severity.rank then some .higherSeverity else none
        | .fixed _ => none

/-! ## Demands -/

end Ledger

inductive DemandStatus where
  | opened
  | satisfied
  | stale
  | waived
  deriving DecidableEq, Repr

/-- `DemandSetEntryV1`: a Demand as reducers and operators see it. -/
structure DemandSetEntry where
  demandId : String
  claim : String
  why : String
  suggestedMethod : String
  source : String
  requirement : DemandRequirement
  status : DemandStatus
  subjectId : String
  evidenceIds : List String
  satisfactionIds : List String
  waiverIds : List String
  deriving DecidableEq, Repr

/-- The satisfactions that hold on a Subject: made there, or admitted for reuse. -/
def DemandRecord.currentSatisfactions (record : DemandRecord) (subject : Option String) :
    List RecordedSatisfaction :=
  record.satisfactions.filter fun s =>
    some s.subjectId = subject ||
      record.reuseAdmissions.any fun a => a.satisfactionId = s.id.artifactId

def DemandRecord.status (record : DemandRecord) (subject : Option String) : DemandStatus :=
  if !record.waivers.isEmpty then .waived
  else if !(record.currentSatisfactions subject).isEmpty then .satisfied
  else if !record.satisfactions.isEmpty || !record.waivers.isEmpty then .stale
  else .opened

def DemandRecord.entry (record : DemandRecord) (subject : Option String) : DemandSetEntry where
  demandId := record.demand.demandId
  claim := record.demand.claim
  why := record.demand.why
  suggestedMethod := record.demand.suggestedMethod
  source := record.demand.source
  requirement := record.demand.requirement
  status := record.status subject
  subjectId := subject.getD record.demand.subjectId
  evidenceIds := record.evidence.map RecordedId.artifactId
  satisfactionIds := (record.currentSatisfactions subject).map (fun s => s.id.artifactId) ++
    record.reuseAdmissions.map fun a => a.id.artifactId
  waiverIds := record.waivers.map RecordedId.artifactId

/-- Whether a required Demand still waits for evidence. -/
def DemandSetEntry.blocks (entry : DemandSetEntry) : Bool :=
  entry.requirement = .required && (entry.status = .opened || entry.status = .stale)

/-! ## Convergence -/

inductive Verdict where
  | converged
  | notConverged
  /-- the Round cap was reached with work outstanding -/
  | exhausted
  deriving DecidableEq, Repr

structure ConvergencePolicy where
  cleanRounds : ℕ
  maxRounds : ℕ
  gate : Severity
  deriving DecidableEq, Repr

structure Convergence where
  round : ℕ
  openBlocking : ℕ
  newRecent : ℕ
  openRequiredDemands : ℕ
  authorityFailuresRecent : ℕ
  verdict : Verdict
  deriving DecidableEq, Repr

/-- Whether a claim that counts is at or above the gate. -/
def Finding.atGate (f : Finding) (gate : Severity) : Bool :=
  f.convergenceSeverity.any fun s => gate.rank ≤ s.rank

/-- An active claim at or above the gate. -/
def Finding.blocks (f : Finding) (gate : Severity) : Bool :=
  f.status.isActive && !f.authorityDiagnostic && f.atGate gate

/-- A claim at or above the gate that became news after a Round, whatever its status. -/
def Finding.isNews (f : Finding) (gate : Severity) (since : ℤ) : Bool :=
  !f.authorityDiagnostic && (f.scopedNewsRound.any fun round : ℕ => since < (round : ℤ)) &&
    f.atGate gate

namespace Ledger

/-- `demand_views`. -/
def demandViews (L : Ledger) : List DemandSetEntry :=
  (L.demandOrder.filterMap L.demands.get).map fun record => record.entry L.activeSubjectId

def requiredOpenDemands (L : Ledger) : ℕ := (L.demandViews.filter DemandSetEntry.blocks).length

/-- The first Round before the clean ones. -/
def since (L : Ledger) (policy : ConvergencePolicy) : ℤ := (L.round : ℤ) - policy.cleanRounds

def recentAuthorityFailures (L : Ledger) (policy : ConvergencePolicy) :
    List ScopeAuthorityFailure :=
  L.scopeAuthorityFailures.filter fun failure => L.since policy < (failure.round : ℤ)

/-- The unreadable reports no recent failure names. -/
def unresolvedUnrecentReports (L : Ledger) (policy : ConvergencePolicy) : List String :=
  let recent := (L.recentAuthorityFailures policy).map ScopeAuthorityFailure.authorityId
  ((L.findings.values.flatMap fun f => f.unreadableReports.keys).filter
    fun id => !recent.contains id).eraseDups

def authorityFailuresRecent (L : Ledger) (policy : ConvergencePolicy) : ℕ :=
  (L.recentAuthorityFailures policy).length + (L.unresolvedUnrecentReports policy).length +
    if L.findingIdentityPolicyUnavailable then 1 else 0

def convergence (L : Ledger) (policy : ConvergencePolicy) : Convergence :=
  let openBlocking := (L.findingViews.filter fun f => f.blocks policy.gate).length
  let newRecent := (L.findingViews.filter fun f => f.isNews policy.gate (L.since policy)).length
  let failures := L.authorityFailuresRecent policy
  let demands := L.requiredOpenDemands
  ⟨L.round, openBlocking, newRecent, demands, failures,
    if failures = 0 && openBlocking = 0 && newRecent = 0 && demands = 0 &&
        policy.cleanRounds ≤ L.round then .converged
    else if policy.maxRounds ≤ L.round then .exhausted
    else .notConverged⟩

end Ledger

/-! ## Reports -/

inductive ReportLocation where
  | changeWide
  | paths (locations : List ProjectedLocation)
  | unrecorded
  deriving DecidableEq, Repr

/-- `first_index`. -/
def ReportLocation.firstIndex : ReportLocation → Option ℕ
  | .paths (_ :: _) => some 0
  | _ => none

/-- A report as the Ledger projects it. -/
structure ReportProjection where
  artifactId : Option String
  subjectSnapshotId : Option String
  severity : Severity
  file : String
  location : ReportLocation
  line : Option ℕ
  title : String
  body : String
  fix : String
  confidence : Option ℚ
  ruleId : Option String
  occurrenceKey : Option String
  relations : List Relation
  unreadable : Bool
  deriving DecidableEq, Repr

def changeWideSentinel : String := "(change-wide)"

namespace ReportProjection

/-- `from_artifact`. -/
def fromArtifact (reportId : String) (artifact : Artifact) : Except String ReportProjection :=
  match artifact.payload with
  | .findingReport report =>
    let (file, line, location) := match report.locations with
      | [] => (changeWideSentinel, none, ReportLocation.changeWide)
      | first :: _ => (first.path, first.line, .paths report.locations)
    .ok {
      artifactId := some artifact.artifactId
      subjectSnapshotId := artifact.subjectSnapshotId
      severity := report.severity
      file := file
      location := location
      line := line
      title := report.title
      body := report.body
      fix := report.fix
      confidence := some report.confidence
      ruleId := report.ruleId
      occurrenceKey := report.occurrenceKey
      relations := report.relations
      unreadable := false }
  | payload => .error ("report " ++ reportId ++ " has type " ++ payload.artifactType ++
      ", expected review.kernel/FindingReport@1")

/-- The placeholder for a report that cannot be read. -/
def ofUnreadable (reportId reason : String) : ReportProjection where
  artifactId := none
  subjectSnapshotId := none
  severity := .blocker
  file := ""
  location := .unrecorded
  line := none
  title := "Unreadable Report artifact " ++ reportId
  body := reason
  fix := "Restore or migrate the exact content-addressed Report artifact"
  confidence := none
  ruleId := none
  occurrenceKey := none
  relations := []
  unreadable := true

/-- The first of the lowest paths, by their bytes. -/
def lowestLocation : List ProjectedLocation → Option ProjectedLocation
  | [] => none
  | l :: rest =>
    match lowestLocation rest with
    | none => some l
    | some m => some (if m.path < l.path then m else l)

/-- `identity_location`. -/
def identityLocation (report : ReportProjection) : String × Option ℕ :=
  match report.location with
  | .changeWide => (changeWideSentinel, none)
  | .paths locations =>
    match lowestLocation locations with
    | none => (report.file, report.line)
    | some l => (l.path, l.line)
  | .unrecorded => (report.file, report.line)

/-- `select_location`. -/
def selectLocation (report : ReportProjection) (selected : Option ℕ) : ReportProjection :=
  match selected, report.location with
  | some index, .paths locations =>
    match locations[index]? with
    | some l => { report with file := l.path, line := l.line }
    | none => report
  | _, _ => report

/-- The report as it is attached. -/
def attach (report : ReportProjection) (reportId source : String) (round : ℕ)
    (scope : Option ReportScope) : AttachedReport where
  reportId := reportId
  artifactId := report.artifactId
  round := round
  source := source
  severity := report.severity
  ruleId := report.ruleId
  occurrenceKey := report.occurrenceKey
  relations := report.relations
  file := report.file
  line := report.line
  scope := scope

end ReportProjection

/-- `adopt`: the report's claim becomes the Finding's. -/
def Finding.adopt (finding : Finding) (report : ReportProjection) (source : String) : Finding :=
  { finding with
    severity := report.severity
    source := source
    file := report.file
    line := report.line
    title := report.title
    body := report.body
    fix := report.fix
    confidence := report.confidence }

/-- One report about a Finding, with everything `apply_report` worked out about it. -/
structure Reporting where
  report : ReportProjection
  attached : AttachedReport
  identity : String × Option ℕ
  challenge : Option ResolutionChallengeKind
  deriving DecidableEq

namespace Reporting

variable (r : Reporting)

def round : ℕ := r.attached.round

def source : String := r.attached.source

def scope : Option ReportScope := r.attached.scope

/-- The severity that counts for convergence: none out of scope. -/
def scopedSeverity : Option Severity :=
  if r.scope ≠ some .outside then some r.report.severity else none

/-- The Finding a first report opens. -/
def opened (key : String) : Finding where
  key := key
  status := .opened
  severity := r.report.severity
  lastSeenRound := r.round
  source := r.source
  identityFile := r.identity.1
  identityLine := r.identity.2
  file := r.report.file
  line := r.report.line
  title := r.report.title
  body := r.report.body
  fix := r.report.fix
  confidence := r.report.confidence
  authorityDiagnostic := r.report.unreadable
  unreadableReports := if r.report.unreadable then .ofList [(r.attached.reportId, ())] else .empty
  convergenceScope := r.scope
  convergenceSeverity := r.scopedSeverity
  scopedNewsRound := r.scopedSeverity.map fun _ => r.round
  reports := [r.attached]
  history := [⟨r.round, .reported, none⟩]

/-- An unreadable report about a known Finding is only attached. -/
def attachUnreadable (f : Finding) : Finding :=
  { f with
    unreadableReports := f.unreadableReports.insert r.attached.reportId ()
    reports := f.reports ++ [r.attached] }

def recoveredNote (ids : List String) (tail : String) : String :=
  "authority recovered for Reports " ++ ", ".intercalate ids ++ ": readable Report supplied by " ++
    r.source ++ " in round " ++ toString r.round ++ tail

/-- A readable report replaces a placeholder. -/
def recover (f : Finding) : Finding :=
  let f' := { f with
    reports := f.reports ++ [r.attached]
    unreadableReports := .empty
    authorityDiagnostic := false
    lastSeenRound := r.round
    status := .opened
    identityFile := r.identity.1
    identityLine := r.identity.2 }.adopt r.report r.source
  { f' with
    convergenceScope := r.scope
    convergenceSeverity := r.scopedSeverity
    scopedNewsRound := r.scopedSeverity.map fun _ => r.round
    history := f.history ++ [⟨r.round, .authorityRecovered,
      some (r.recoveredNote f.unreadableReports.keys
        "; any prior resolution applied only to the authority placeholder")⟩] }

/-- What a repeated report does to the Finding. -/
def transitionKind (f : Finding) : TransitionKind :=
  let higher := f.severity.rank < r.report.severity.rank
  if r.challenge.isSome then (if higher then .escalated else .challenged)
  else if f.status.isDeclined then (if higher then .adoptedWhileDeclined else .duplicate)
  else if f.status = .fixed && f.lastSeenRound < r.round then .reopened
  else if f.status.isActive && higher then .escalated
  else .duplicate

def transitionNote (kind : TransitionKind) : Option String :=
  let by_ := " by " ++ r.source ++ " in round " ++ toString r.round
  match kind with
  | .reopened => some ("reopened: re-reported" ++ by_)
  | .escalated => some (match r.challenge with
    | some challenge => "resolution challenge " ++ challenge.text ++ ": re-reported as " ++
        r.report.severity.name ++ by_
    | none => "escalated: re-reported as " ++ r.report.severity.name ++ by_)
  | .challenged => r.challenge.map fun challenge =>
      "resolution challenge " ++ challenge.text ++ ": re-reported" ++ by_
  | _ => none

/-- The status and the claim after a repeated report. -/
def moved (f : Finding) : TransitionKind → Finding
  | .reopened => { f with status := .opened }.adopt r.report r.source
  | .escalated | .adoptedWhileDeclined =>
    let f' := f.adopt r.report r.source
    if r.challenge.isSome then { f' with status := .contested } else f'
  | .challenged => { f with status := .contested }
  | _ => f

/-- The severity that counts once a repeated report was moved. -/
def raisedSeverity (f : Finding) : Option Severity :=
  if r.scope ≠ some .outside && f.convergenceSeverity.all fun s => s.rank < r.report.severity.rank
  then some r.report.severity else f.convergenceSeverity

/-- A readable report about a Finding with a readable claim. -/
def repeated (f : Finding) : Finding :=
  let kind := r.transitionKind f
  let recovered := if f.unreadableReports.entries.isEmpty then []
    else [⟨r.round, .authorityRecovered, some (r.recoveredNote f.unreadableReports.keys "")⟩]
  let news := r.scope ≠ some .outside &&
    (f.convergenceSeverity.all (fun s => s.rank < r.report.severity.rank) || kind = .reopened)
  let f' := r.moved { f with lastSeenRound := r.round } kind
  { f' with
    reports := f.reports ++ [r.attached]
    unreadableReports := .empty
    convergenceScope := if kind = .reopened then r.scope
      else combineScope f.convergenceScope r.scope
    convergenceSeverity := if kind = .reopened then r.scopedSeverity else r.raisedSeverity f
    scopedNewsRound := if news then some r.round else f.scopedNewsRound
    history := f.history ++ recovered ++ [⟨r.round, kind, r.transitionNote kind⟩] }

/-- What a report does to a known Finding. -/
def revise (f : Finding) : Finding :=
  if r.report.unreadable then r.attachUnreadable f
  else if f.authorityDiagnostic then r.recover f
  else r.repeated f

end Reporting

end Afactory
