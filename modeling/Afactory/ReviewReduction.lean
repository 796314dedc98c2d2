import Mathlib
import Afactory.LedgerEvents
import Afactory.Linking
import Afactory.Materialize
import Afactory.TaskRecords

/-!
# Reducing reviewer results

`prepare_review_outputs` of `review-store/src/ingest/reduction.rs` and what it calls: the selected
results of a Round's reviewers become artifacts, keys of Findings and events, each folded into a
Ledger as it is made.

* `ReviewStore`, `put`: typed artifacts by id; a file that is there is compared, never replaced;
* `canonicalStageKeys`: the Finding every report of a stage is about;
* `stageReports`: a stage's reports, with one for each Finding it corroborates;
* `reduceStage`, `prepareReviewOutputs`: Demands, reports with the challenges they make, and
  dispositions, stage by stage.

Ids are digests, parameters here. What a writer refuses of an artifact (its size, its JSON, the
shape of its envelope) is one too.
-/

namespace Afactory

/-! ## Artifacts -/

/-- `Producer`. -/
inductive Producer where
  | attempt (runId nodeId attemptId : String)
  | kernelOperation (runId : String) (nodeId : Option String) (operationId : String)
  deriving DecidableEq, Repr

inductive DispositionPosition where
  | corroborate
  | notReproduced
  | dispute
  deriving DecidableEq, Repr

/-- `FindingDispositionV1`. -/
structure FindingDisposition where
  findingId : String
  source : String
  position : DispositionPosition
  reason : String
  round : ℕ
  subjectId : String
  deriving DecidableEq, Repr

/-- The payloads a reduction writes, with what the Ledger does not read of them. -/
inductive ReviewPayload where
  | findingReport (report : FindingReport)
  | demand (demand : Demand) (round : ℕ)
  | findingDisposition (disposition : FindingDisposition)
  | resolutionChallenge (challenge : ResolutionChallenge) (actor : String)
      (evidenceIds : List String)
  | other (payload : ArtifactPayload)
  deriving DecidableEq, Repr

/-- The payload as the Ledger reads it. -/
def ReviewPayload.projected : ReviewPayload → ArtifactPayload
  | .findingReport r => .findingReport r
  | .demand d _ => .demand d
  | .findingDisposition _ => .other "review.kernel/FindingDisposition@1"
  | .resolutionChallenge c _ _ => .resolutionChallenge c
  | .other p => p

/-- `ArtifactEnvelope` without its ids. -/
structure Envelope where
  producer : Producer
  inputArtifacts : List String
  subjectSnapshotId : Option String
  payload : ReviewPayload
  deriving DecidableEq, Repr

/-- `BenchmarkDemand`. -/
structure BenchmarkDemand where
  claim : String
  why : String
  suggestedMethod : String
  deriving DecidableEq, Repr

/-- The digests that name things, and what a writer admits. -/
structure ReviewIds where
  /-- `canonical::artifact_id` -/
  artifactId : Envelope → String
  /-- `canonical_finding_id`, of a report's id -/
  findingId : String → String
  /-- `canonical_demand_id` -/
  demandId : String → BenchmarkDemand → String
  /-- the checks of `put_artifact` -/
  admits : Envelope → Except CasError Unit

/-- What stands at an id that names no typed artifact. -/
inductive Unfiled where
  | absent
  | corrupt
  /-- a verified blob, and why it is no envelope -/
  | blob (reason : String)
  deriving DecidableEq, Repr

/-- The typed artifacts by id, and what the store answers besides. -/
structure ReviewStore (ids : ReviewIds) where
  filed : OrdMap String Envelope
  unfiled : String → Unfiled
  verify : String → Except String Unit
  resolveSubjectScope : String → Except String ResolvedSubject
  manifestPolicy : String → Except String String
  /-- reads verify: what is filed has its name -/
  named : ∀ id envelope, filed.get id = some envelope → ids.artifactId envelope = id

namespace ReviewStore

variable {ids : ReviewIds}

/-- Why an id is not read as an artifact. -/
def readError (store : ReviewStore ids) (id : String) : CasError :=
  if !isDigest id then .invalidDigest id
  else match store.unfiled id with
    | .absent => .notFound id
    | _ => .corrupt id

/-- The store as the Ledger asks it. -/
def contentStore (store : ReviewStore ids) : ContentStore where
  read id := match store.filed.get id with
    | some envelope => .ok ⟨id, envelope.subjectSnapshotId, envelope.payload.projected⟩
    | none => .error (store.readError id).message
  verify := store.verify
  resolveSubjectScope := store.resolveSubjectScope
  manifestPolicy := store.manifestPolicy

/-- File an artifact under its id. -/
def file (store : ReviewStore ids) (envelope : Envelope) : ReviewStore ids :=
  { store with
    filed := store.filed.insert (ids.artifactId envelope) envelope
    named := by
      intro id e h
      rw [OrdMap.get_insert] at h
      split_ifs at h with heq
      · cases h
        exact heq.symm
      · exact store.named id e h }

/-- `put_artifact`: the store with the artifact, and its id. -/
def put (store : ReviewStore ids) (envelope : Envelope) :
    Except CasError (ReviewStore ids × String) := do
  ids.admits envelope
  let id := ids.artifactId envelope
  match store.filed.get id with
  | some there => if there = envelope then return (store, id) else throw (.corrupt id)
  | none =>
    match store.unfiled id with
    | .absent => return (store.file envelope, id)
    -- a file that is there has other bytes
    | _ => throw (.corrupt id)

end ReviewStore

/-! ## Stages and what they make -/

/-- `ReviewerDisposition`. -/
structure ReviewerDisposition where
  findingId : String
  position : DispositionPosition
  reason : String
  deriving DecidableEq, Repr

structure ReportProvenance where
  producer : Producer
  inputArtifacts : List String
  subjectSnapshotId : String
  subjectId : String
  deriving DecidableEq, Repr

structure PreparedStage where
  source : String
  demandRequirement : DemandRequirement
  reports : List FindingReport
  demands : List BenchmarkDemand
  dispositions : List ReviewerDisposition
  provenance : ReportProvenance
  deriving DecidableEq, Repr

/-- The envelope of an artifact of the stage. -/
def ReportProvenance.envelope (p : ReportProvenance) (payload : ReviewPayload) : Envelope :=
  ⟨p.producer, p.inputArtifacts, some p.subjectSnapshotId, payload⟩

/-- `NewEvent`. -/
structure ReviewEvent where
  event : LedgerEvent
  nodeId : Option String := none
  correlationId : String
  artifactRefs : List String
  deriving DecidableEq, Repr

/-- Why a reduction stops: an event that the Ledger refuses, or another error. -/
inductive ReductionError where
  | refused (event : ReviewEvent) (message : String)
  | store (error : StoreError)
  deriving DecidableEq, Repr

/-- The error a caller sees. -/
def ReductionError.storeError : ReductionError → StoreError
  | .refused _ message => .conflict message
  | .store error => error

def ReductionError.conflict (message : String) : ReductionError := .store (.conflict message)

def ReductionError.artifact (message : String) : ReductionError := .store (.artifact message)

structure ReportIdentity where
  key : String
  source : String
  round : ℕ
  reportId : String
  deriving DecidableEq, Repr

structure CanonicalReduction where
  selectedReportIds : List String := []
  reportIdsBySource : OrdMap String (List String) := .empty
  relationIds : List String := []
  selectedDemandArtifactIds : List String := []
  inputArtifactIds : List String := []
  demandInputArtifactIds : List String := []
  deriving DecidableEq

/-- A pair of a rule and an occurrence it names. -/
abbrev Occurrence := String × String

def FindingReport.occurrence (report : FindingReport) : Option Occurrence :=
  match report.ruleId, report.occurrenceKey with
  | some rule, some key => some (rule, key)
  | _, _ => none

def AttachedReport.occurrence (report : AttachedReport) : Option Occurrence :=
  match report.ruleId, report.occurrenceKey with
  | some rule, some key => some (rule, key)
  | _, _ => none

/-- The locals of `prepare_review_outputs`. -/
structure Reduction (ids : ReviewIds) where
  store : ReviewStore ids
  projected : Ledger
  events : List ReviewEvent := []
  pendingReports : List ReportIdentity := []
  pendingDemands : List String := []
  /-- the latest first -/
  pendingOccurrences : List (Occurrence × String) := []
  reduction : CanonicalReduction := {}
  /-- the reports with the keys they were given, which the source does not keep -/
  assigned : List (FindingReport × String) := []

namespace Ledger

/-- `findings`, with the identities of their reports. -/
def reportIdentities (L : Ledger) : List ReportIdentity :=
  (L.order.filterMap L.findings.get).flatMap fun finding =>
    finding.reports.map fun r => ⟨finding.key, r.source, r.round, r.reportId⟩

/-- `finding_for_occurrence`: the one Finding that has a report of the occurrence. -/
def findingForOccurrence (L : Ledger) (o : Occurrence) : Option String :=
  match L.findings.values.filter fun f => f.reports.any fun r => r.occurrence = some o with
  | [finding] => some finding.key
  | _ => none

end Ledger

/-! ## Keys -/

/-- The Findings a report names: the one of its occurrence, and those it corroborates. -/
def reportCandidates (prior : Ledger) (pending : List (Occurrence × String))
    (report : FindingReport × String) : Except ReductionError (List String) := do
  let occurred := report.1.occurrence.bind fun o =>
    (pending.lookup o).or (prior.findingForOccurrence o)
  report.1.relations.forM fun relation =>
    if prior.findings.contains relation.target then .ok ()
    else .error (.conflict ("Report " ++ report.2 ++ " relates to Finding `" ++ relation.target ++
      "` outside its input Finding Set"))
  return occurred.toList ++ report.1.relations.map Relation.target

/-- Reports of one id and reports of one occurrence are about one Finding. -/
def stageLinks (reports : List (FindingReport × String)) : Links :=
  Links.linkFrom (reports.map fun r => r.1.occurrence) 0 []
    (Links.linkFrom (reports.map fun r => some r.2) 0 [] .discrete)

/-- The key of a class: the Finding its reports name, or a new one, named by its first report. -/
def classKey (ids : ReviewIds) (first : String) (candidates : List String) :
    Except ReductionError String :=
  match candidates.dedup with
  | [] => .ok (ids.findingId first)
  | [key] => .ok key
  | _ => .error (.conflict ("corroboration and occurrence authority disagree for Report " ++ first))

/-- `canonical_stage_keys`. A root is the first index of its class. -/
def canonicalStageKeys (ids : ReviewIds) (reports : List (FindingReport × String)) (prior : Ledger)
    (pending : List (Occurrence × String)) : Except ReductionError (List String) := do
  let links := stageLinks reports
  let candidates ← reports.mapM (reportCandidates prior pending)
  (List.range reports.length).mapM fun index =>
    let root := links.root index
    classKey ids ((reports[root]?.map Prod.snd).getD "")
      ((candidates.zipIdx.filter fun c => links.root c.2 = root).flatMap Prod.fst)

/-! ## Validation -/

def invalidDemand : String := "Demand@1 contains invalid identity, content, or Subject authority"

/-- `DemandV1::validate`. -/
def validateDemand (demand : Demand) (round : ℕ) : Except ReductionError Unit :=
  if !isDigest demand.demandId || isBlank demand.claim || isBlank demand.why ||
      isBlank demand.suggestedMethod || isBlank demand.source || round = 0 ||
      !isDigest demand.subjectId then
    .error (.conflict invalidDemand)
  else .ok ()

/-- `FindingDispositionV1::validate`. -/
def FindingDisposition.validate (d : FindingDisposition) : Except ReductionError Unit :=
  if isBlank d.findingId || isBlank d.source || isBlank d.reason || d.round = 0 ||
      !isDigest d.subjectId then
    .error (.conflict "FindingDisposition@1 contains invalid disposition evidence")
  else .ok ()

/-- `ResolutionChallengeV1::validate`. -/
def validateChallenge (challenge : ResolutionChallenge) (actor : String)
    (evidenceIds : List String) : Except ReductionError Unit :=
  if isBlank challenge.findingId || !isDigest challenge.resolutionId ||
      !isDigest challenge.subjectId || isBlank actor || isBlank challenge.reason ||
      evidenceIds.any fun id => !isDigest id then
    .error (.conflict "ResolutionChallenge@1 contains invalid authority or evidence")
  else .ok ()

/-! ## The reduction -/

section Reducing

variable (ids : ReviewIds) (viewId : Finding → Option String)

/-- `put_artifact` of a reduction. -/
def putArtifact {ids : ReviewIds} (store : ReviewStore ids) (envelope : Envelope) :
    Except ReductionError (ReviewStore ids × String) :=
  (store.put envelope).mapError fun e => .conflict e.message

/-- `apply_candidate`: an event is folded in before it is kept. -/
def Reduction.emit {ids : ReviewIds} (s : Reduction ids) (event : ReviewEvent) :
    Except ReductionError (Reduction ids) :=
  match s.projected.apply viewId s.store.contentStore event.event event.artifactRefs with
  | (.ok (), L) => .ok { s with projected := L, events := s.events ++ [event] }
  | (.error message, _) => .error (.refused event message)

/-- One Demand of a stage; a known one is left out. -/
def recordStageDemand {ids : ReviewIds} (prior : Ledger) (stage : PreparedStage)
    (s : Reduction ids) (demand : BenchmarkDemand) : Except ReductionError (Reduction ids) := do
  let demandId := ids.demandId stage.source demand
  if prior.demands.contains demandId || s.pendingDemands.contains demandId then return s
  else
    let payload : Demand := ⟨demandId, demand.claim, demand.why, demand.suggestedMethod,
      stage.source, stage.demandRequirement, stage.provenance.subjectId⟩
    validateDemand payload prior.round
    let (store, recordId) ← putArtifact s.store
      (stage.provenance.envelope (.demand payload prior.round))
    let s := { s with store := store, pendingDemands := demandId :: s.pendingDemands }
    let s ← s.emit viewId ⟨.recorded .demandRecorded recordId, none, demandId, [recordId]⟩
    return { s with reduction := { s.reduction with
      selectedDemandArtifactIds := s.reduction.selectedDemandArtifactIds ++ [recordId]
      demandInputArtifactIds := s.reduction.demandInputArtifactIds ++ [recordId] } }

/-- The first of these reports that the stage's own attempt wrote. -/
def findReplay {ids : ReviewIds} (store : ReviewStore ids) (p : ReportProvenance) :
    List AttachedReport → Except ReductionError (Option FindingReport)
  | [] => .ok none
  | existing :: rest =>
    match store.filed.get existing.reportId with
    | none =>
      .error (.artifact ("corroborating Report " ++ existing.reportId ++
        match store.unfiled existing.reportId with
        | .blob reason => " is not an ArtifactEnvelope: " ++ reason
        | _ => " is unreadable during replay: " ++ (store.readError existing.reportId).message))
    | some envelope =>
      match envelope.payload with
      | .findingReport report =>
        if envelope.producer ≠ p.producer || envelope.inputArtifacts ≠ p.inputArtifacts ||
            envelope.subjectSnapshotId ≠ some p.subjectSnapshotId then findReplay store p rest
        else .ok (some report)
      | payload => .error (.artifact ("corroborating Report " ++ existing.reportId ++ " has type " ++
          payload.projected.artifactType))

/-- Where a report that corroborates a Finding points; `none` where no report can. -/
def Finding.corroborationLocations (finding : Finding) : Option (List ProjectedLocation) :=
  if finding.identityFile = changeWideSentinel then some []
  else if isValidRepoPath finding.identityFile then
    match finding.identityLine with
    | none => some [⟨finding.identityFile, none⟩]
    | some line =>
      if line < u32Bound then some [⟨finding.identityFile, some line⟩] else none
  else none

/-- A Finding's claim as the report of a reviewer who corroborates it. -/
def Finding.corroboration (finding : Finding) (key reason : String) : Option FindingReport :=
  finding.confidence.bind fun confidence =>
    finding.corroborationLocations.map fun locations => {
      title := finding.title
      severity := finding.severity
      locations := locations
      body := finding.body
      fix := finding.fix
      confidence := confidence
      ruleId := none
      occurrenceKey := none
      relations := [⟨key, some reason⟩] }

/-- The reports of a Finding that a stage may have corroborated it with. -/
def Finding.corroborating (finding : Finding) (key source : String) (round : ℕ) :
    List AttachedReport :=
  finding.reports.filter fun r =>
    r.source = source && r.round = round && r.relations.any fun relation => relation.target = key

/-- The report of one disposition: none unless it corroborates; the report that says so already,
else a new one. -/
def corroboratingReport {ids : ReviewIds} (prior : Ledger) (stage : PreparedStage)
    (store : ReviewStore ids) (disposition : ReviewerDisposition) :
    Except ReductionError (Option FindingReport) :=
  if disposition.position ≠ .corroborate then .ok none
  else match prior.findings.get disposition.findingId with
    | none => .ok none
    | some finding => do
      let replayed ← findReplay store stage.provenance
        (finding.corroborating disposition.findingId stage.source prior.round)
      return replayed.or (finding.corroboration disposition.findingId disposition.reason)

/-- The reports of a stage, with those of its dispositions. -/
def stageReports {ids : ReviewIds} (prior : Ledger) (stage : PreparedStage)
    (store : ReviewStore ids) : Except ReductionError (List FindingReport) := do
  let corroborations ← stage.dispositions.mapM (corroboratingReport prior stage store)
  return stage.reports ++ corroborations.reduceOption

/-- Write the reports of a stage. -/
def publishReports {ids : ReviewIds} (p : ReportProvenance) :
    List FindingReport → ReviewStore ids →
      Except ReductionError (ReviewStore ids × List (FindingReport × String))
  | [], store => .ok (store, [])
  | report :: rest, store => do
    let (store, recordId) ← putArtifact store (p.envelope (.findingReport report))
    let (store, published) ← publishReports p rest store
    return (store, (report, recordId) :: published)

/-- The `Debug` text of an outcome. -/
def ResolutionOutcome.text : ResolutionOutcome → String
  | .fixed _ => "Fixed"
  | .rejected => "Rejected"
  | .wontfixTracked _ _ => "WontfixTracked"

/-- The challenge an in-scope report makes to the Resolution that covers its Finding. -/
def challengeResolution {ids : ReviewIds} (runId key reportId : String)
    (kind : ResolutionChallengeKind) (resolution : RecordedResolution) (s : Reduction ids) :
    Except ReductionError (Reduction ids) := do
  match s.projected.activeSubjectId with
  | none => throw (.conflict "Campaign has no active Subject")
  | some subjectId =>
    match s.projected.findingView key with
    | none => throw (.store .panicked)
    | some view =>
      let root := view.key
      let challenge : ResolutionChallenge := ⟨root, resolution.id.artifactId, subjectId, kind,
        "in-scope Report " ++ reportId ++ " challenged the scoped " ++
          resolution.resolution.outcome.text ++ " Resolution"⟩
      let actor := "review.kernel/resolution-policy@1"
      validateChallenge challenge actor [reportId]
      let (store, recordId) ← putArtifact s.store {
        producer := .kernelOperation runId none
          ("automatic-resolution-challenge:" ++ root ++ ":" ++ kind.text)
        inputArtifacts := [resolution.id.recordId, reportId]
        subjectSnapshotId := s.projected.activeHeadSnapshotId
        payload := .resolutionChallenge challenge actor [reportId] }
      Reduction.emit viewId { s with store := store }
        ⟨.recorded .findingResolutionChallenged recordId, none, root, [recordId]⟩

/-- Whether the last report of a Finding counts. -/
def Ledger.lastReportCounts (L : Ledger) (key : String) : Bool :=
  ((L.findings.get key).bind fun f => f.reports.getLast?).any fun r => r.scope ≠ some .outside

/-- What is kept of a report and its key, whether or not it is news. -/
def Reduction.select {ids : ReviewIds} (s : Reduction ids) (source : String)
    (report : FindingReport) (reportId key : String) : Reduction ids :=
  { s with
    pendingOccurrences := match report.occurrence with
      | some o => (o, key) :: s.pendingOccurrences
      | none => s.pendingOccurrences
    assigned := s.assigned ++ [(report, key)]
    reduction := { s.reduction with
      selectedReportIds := s.reduction.selectedReportIds ++ [reportId]
      reportIdsBySource := s.reduction.reportIdsBySource.insert source
        ((s.reduction.reportIdsBySource.get source).getD [] ++ [reportId])
      inputArtifactIds := s.reduction.inputArtifactIds ++ [reportId] } }

/-- One published report under its key: an event, if it is news, and the challenge it makes. -/
def reportUnder {ids : ReviewIds} (runId : String) (prior : Ledger) (stage : PreparedStage)
    (s : Reduction ids) (published : (FindingReport × String) × String) :
    Except ReductionError (Reduction ids) := do
  let ((report, reportId), key) := published
  let s := s.select stage.source report reportId key
  let identity : ReportIdentity := ⟨key, stage.source, prior.round, reportId⟩
  if prior.reportIdentities.contains identity || s.pendingReports.contains identity then return s
  else
    let pending := (s.projected.resolutionChallengeForReport key report.severity).bind fun kind =>
      (s.projected.resolution key).map fun resolution => (kind, resolution)
    let s := { s with pendingReports := identity :: s.pendingReports }
    let s ← s.emit viewId ⟨.findingReported ⟨some key, some stage.source, some prior.round,
      some reportId⟩, some stage.source, key, [reportId]⟩
    match pending with
    | some (kind, resolution) =>
      if s.projected.lastReportCounts key then
        challengeResolution viewId runId key reportId kind resolution s
      else return s
    | none => return s

/-- One disposition: an artifact, and an event where it contests a Finding. -/
def disposeOf {ids : ReviewIds} (prior : Ledger) (stage : PreparedStage) (s : Reduction ids)
    (disposition : ReviewerDisposition) : Except ReductionError (Reduction ids) := do
  let findingId := disposition.findingId
  if !prior.findings.contains findingId then
    throw (.conflict (stage.source ++ " disposition names Finding `" ++ findingId ++
      "` outside its assigned prior Finding Set"))
  else
    let payload : FindingDisposition := ⟨findingId, stage.source, disposition.position,
      disposition.reason, prior.round, stage.provenance.subjectId⟩
    payload.validate
    let (store, recordId) ← putArtifact s.store
      (stage.provenance.envelope (.findingDisposition payload))
    let s := { s with
      store := store
      reduction := { s.reduction with
        relationIds := s.reduction.relationIds ++ [recordId]
        inputArtifactIds := s.reduction.inputArtifactIds ++ [recordId] } }
    let contestable := ((s.projected.findings.get findingId).map Finding.status).any fun status =>
      status = .opened || status = .fixed
    if disposition.position ≠ .dispute || !contestable then return s
    else s.emit viewId ⟨.findingResolved ⟨some findingId, some "contested", some prior.round,
      some ("contested by " ++ stage.source ++ ": " ++ disposition.reason)⟩, none, findingId,
      [recordId]⟩

/-- One stage. -/
def reduceStage {ids : ReviewIds} (runId : String) (prior : Ledger) (s : Reduction ids)
    (stage : PreparedStage) : Except ReductionError (Reduction ids) := do
  let s ← stage.demands.foldlM (recordStageDemand viewId prior stage) s
  let reports ← stageReports prior stage s.store
  let (store, published) ← publishReports stage.provenance reports s.store
  let keys ← canonicalStageKeys ids published prior s.pendingOccurrences
  let s ← (published.zip keys).foldlM (reportUnder viewId runId prior stage)
    { s with store := store }
  stage.dispositions.foldlM (disposeOf viewId prior stage) s

/-- `prepare_review_outputs`; the store it leaves is part of the answer. -/
def prepareReviewOutputs {ids : ReviewIds} (store : ReviewStore ids) (runId : String)
    (ledger : Ledger) (stages : List PreparedStage) : Except ReductionError (Reduction ids) :=
  stages.foldlM (reduceStage viewId runId ledger) { store := store, projected := ledger }

end Reducing

end Afactory
