import Mathlib
import Afactory.LedgerEvents

/-!
# What an input changes in a Ledger

Groups, views, convergence and Resolutions are read off five fields of a Ledger: the Findings
and their order, the active groupings, and the Resolutions with what they cover. Every accepted
input changes these fields in one of six ways, said once here.

* `SameCore`: two Ledgers that agree on the five fields, and on listing their Demands;
* `Changes`: the six ways, each with what was checked before;
* `step_changes`: an accepted input is one of them.
-/

namespace Afactory

/-- Where an admitted report comes from. -/
structure ReportOrigin where
  reportId : String
  source : String
  round : ℕ
  deriving DecidableEq, Repr

def AttachedReport.origin (r : AttachedReport) : ReportOrigin := ⟨r.reportId, r.source, r.round⟩

namespace LedgerInput

/-- The report an input admits, with the Finding it names. -/
def reported : LedgerInput → Option (String × ReportOrigin)
  | .event _ (.findingReported payload) artifactRefs =>
    match payload.key, payload.source, payload.round, artifactRefs with
    | some key, some source, some round, [reportId] => some (key, ⟨reportId, source, round⟩)
    | _, _, _, _ => none
  | _ => none

/-- The Resolution an input admits. -/
def resolves : LedgerInput → Option RecordedResolution
  | .event cas (.recorded .findingResolutionRecorded recordId) _ =>
    match cas.read recordId with
    | .ok ⟨artifactId, _, .findingResolution r⟩ => some ⟨⟨recordId, artifactId⟩, r⟩
    | _ => none
  | _ => none

end LedgerInput

namespace Ledger

variable {viewId : Finding → Option String} {L L' L'' : Ledger} {input : LedgerInput}

/-- Every recorded Demand stands in the order they are shown in. -/
def DemandsListed (L : Ledger) : Prop :=
  ∀ demandId record, L.demands.get demandId = some record → demandId ∈ L.demandOrder

/-- Two Ledgers that agree on the five fields; the second lists its Demands if the first does. -/
structure SameCore (L L' : Ledger) : Prop where
  findings : L'.findings = L.findings
  order : L'.order = L.order
  groupings : L'.activeGroupings = L.activeGroupings
  resolutions : L'.resolutions = L.resolutions
  authority : L'.resolutionAuthority = L.resolutionAuthority
  demands : L.DemandsListed → L'.DemandsListed

theorem SameCore.refl (L : Ledger) : SameCore L L := ⟨rfl, rfl, rfl, rfl, rfl, fun d => d⟩

theorem SameCore.trans (h : SameCore L L') (h' : SameCore L' L'') : SameCore L L'' :=
  ⟨h'.findings.trans h.findings, h'.order.trans h.order, h'.groupings.trans h.groupings,
    h'.resolutions.trans h.resolutions, h'.authority.trans h.authority,
    fun listed => h'.demands (h.demands listed)⟩

/-- Set the statuses of Findings one after the other. -/
def restate (L : Ledger) (changes : List (String × FindingStatus × Transition)) : Ledger :=
  changes.foldl (fun L c => L.setStatus c.1 c.2.1 c.2.2) L

/-- The ways an accepted input changes the core. -/
inductive Changes (input : LedgerInput) (L L' : Ledger) : Prop
  | keeps (hreport : input.reported = none) (hresolve : input.resolves = none)
    (h : SameCore L L')
  | reports (key : String) (r : Reporting)
    (hreport : input.reported = some (key, r.attached.origin)) (hresolve : input.resolves = none)
    (h : SameCore (L.attachReport key r) L')
  | restates (changes : List (String × FindingStatus × Transition))
    (hreport : input.reported = none) (hresolve : input.resolves = none)
    (h : SameCore (L.restate changes) L')
  | groups (source into : String) (hreport : input.reported = none)
    (hresolve : input.resolves = none) (hvalid : L.validateGroup source into = .ok ())
    (h : SameCore { L with activeGroupings := L.activeGroupings.insert source into } L')
  | ungroups (source into : String) (hreport : input.reported = none)
    (hresolve : input.resolves = none) (hvalid : L.validateUngroup source into = .ok ())
    (h : SameCore { L with activeGroupings := L.activeGroupings.erase source } L')
  | covers (keys : List String) (id : RecordedId) (r : FindingResolution) (status : FindingStatus)
    (hreport : input.reported = none) (hresolve : input.resolves = some ⟨id, r⟩)
    (hkeys : L.findingMemberKeys r.findingId = .ok keys)
    (h : SameCore (L.coverMembers keys id r status) L')

/-! ## The core under each operation -/

theorem sameCore_recordAuthorityFailure (L : Ledger) (failure : ScopeAuthorityFailure) :
    SameCore L (L.recordAuthorityFailure failure) := by
  rw [recordAuthorityFailure]
  split_ifs
  · exact .refl L
  · exact ⟨rfl, rfl, rfl, rfl, rfl, fun d => d⟩

theorem SameCore.attachReport (h : SameCore L L') (key : String) (r : Reporting) :
    SameCore (L.attachReport key r) (L'.attachReport key r) := by
  rw [Ledger.attachReport, Ledger.attachReport, h.findings]
  cases L.findings.get key with
  | none =>
    refine ⟨?_, ?_, h.groupings, h.resolutions, h.authority, h.demands⟩
    · rfl
    · simp only [h.order]
  | some finding => exact ⟨rfl, h.order, h.groupings, h.resolutions, h.authority, h.demands⟩

theorem sameCore_setStatus (h : SameCore L L') (key : String) (status : FindingStatus)
    (t : Transition) : SameCore (L.setStatus key status t) (L'.setStatus key status t) := by
  rw [setStatus, setStatus, h.findings]
  cases L.findings.get key with
  | none => exact h
  | some finding => exact ⟨rfl, h.order, h.groupings, h.resolutions, h.authority, h.demands⟩

theorem sameCore_prepareReport (cas : ContentStore) (key source : String) (round : ℕ)
    (reportId : String) : SameCore L (L.prepareReport cas key source round reportId).2 := by
  have hproject : SameCore L (L.projectReport cas round reportId).2 := by
    rw [projectReport]
    split
    · exact .refl L
    · exact sameCore_recordAuthorityFailure _ _
  have hbind : ∀ (L : Ledger) report, SameCore L (L.bindSnapshot round reportId report).2 := by
    intro L report
    rw [bindSnapshot]
    split
    · split_ifs
      · exact sameCore_recordAuthorityFailure _ _
      · exact .refl L
    · exact .refl L
  have hscope : ∀ (L : Ledger) location, SameCore L (L.reportScope round location).2 := by
    intro L location
    rw [reportScope]
    split
    · exact .refl L
    · split_ifs
      · exact sameCore_recordAuthorityFailure _ _
      · split
        · exact .refl L
        · exact .refl L
        · exact .refl L
        · exact .refl L
        · split <;> exact .refl L
  exact hproject.trans ((hbind _ _).trans (hscope _ _))

theorem prepareReport_origin (cas : ContentStore) (key source : String) (round : ℕ)
    (reportId : String) : (L.prepareReport cas key source round reportId).1.attached.origin =
      ⟨reportId, source, round⟩ := rfl

theorem restate_setStatuses (keys : List String) (status : FindingStatus) (t : Transition) :
    L.setStatuses keys status t = L.restate (keys.map fun key => (key, status, t)) := by
  rw [setStatuses, restate, List.foldl_map]

/-- A list of statuses set in one Ledger sets them in any with the same core. -/
theorem sameCore_restate (h : SameCore L L')
    (changes : List (String × FindingStatus × Transition)) :
    SameCore (L.restate changes) (L'.restate changes) := by
  induction changes generalizing L L' with
  | nil => exact h
  | cons c changes ih =>
    rw [restate, restate, List.foldl_cons, List.foldl_cons]
    exact ih (sameCore_setStatus h _ _ _)

/-! ## Each input is one of the changes -/

theorem requiredString_eq_ok {value : Option String} {event field s : String}
    (h : requiredString value event field = .ok s) : value = some s := by
  rw [requiredString] at h
  split at h
  case h_1 v hv =>
    cases h
    exact (Option.filter_eq_some_iff.mp hv).1
  case h_2 => cases h

theorem requiredRound_eq_ok {value : Option ℕ} {event : String} {round : ℕ}
    (h : requiredRound value event = .ok round) : value = some round := by
  cases value with
  | none => cases h
  | some n =>
    rw [requiredRound] at h
    split_ifs at h
    cases h
    rfl

theorem checkReport_eq_ok {payload : FindingReported} {artifactRefs : List String}
    {key source reportId : String} {round : ℕ}
    (h : checkReport payload artifactRefs = .ok (key, source, round, reportId)) :
    payload.key = some key ∧ payload.source = some source ∧ payload.round = some round ∧
      artifactRefs = [reportId] := by
  obtain ⟨k, hk, h⟩ := bind_eq_ok.mp h
  obtain ⟨s, hs, h⟩ := bind_eq_ok.mp h
  obtain ⟨n, hn, h⟩ := bind_eq_ok.mp h
  split at h
  case h_1 id =>
    obtain ⟨_, -, h⟩ := bind_eq_ok.mp h
    cases h
    exact ⟨requiredString_eq_ok hk, requiredString_eq_ok hs, requiredRound_eq_ok hn, rfl⟩
  case h_2 => cases h

/-- An accepted report is worked out, then attached. -/
theorem applyReport_eq_ok {cas : ContentStore} {payload : FindingReported}
    {artifactRefs : List String} (h : L.applyReport cas payload artifactRefs = (.ok (), L')) :
    ∃ key source round reportId, payload.key = some key ∧ payload.source = some source ∧
      payload.round = some round ∧ artifactRefs = [reportId] ∧
      L' = (L.prepareReport cas key source round reportId).2.attachReport key
        (L.prepareReport cas key source round reportId).1 := by
  rw [applyReport] at h
  cases hcheck : checkReport payload artifactRefs with
  | error e =>
    rw [hcheck] at h
    cases h
  | ok checked =>
    obtain ⟨key, source, round, reportId⟩ := checked
    obtain ⟨hkey, hsource, hround, hrefs⟩ := checkReport_eq_ok hcheck
    rw [hcheck] at h
    exact ⟨key, source, round, reportId, hkey, hsource, hround, hrefs, (Prod.mk.inj h).2.symm⟩

theorem applyReport_changes {cas : ContentStore} {payload : FindingReported}
    {artifactRefs : List String}
    (h : L.applyReport cas payload artifactRefs = (.ok (), L')) :
    Changes (.event cas (.findingReported payload) artifactRefs) L L' := by
  obtain ⟨key, source, round, reportId, hkey, hsource, hround, hrefs, rfl⟩ := applyReport_eq_ok h
  refine .reports key (L.prepareReport cas key source round reportId).1 ?_ rfl
    ((sameCore_prepareReport cas key source round reportId).attachReport key _)
  rw [prepareReport_origin]
  simp only [LedgerInput.reported, hkey, hsource, hround, hrefs]

theorem applyGrouping_changes {cas : ContentStore} {action : GroupingAction}
    {payload : FindingsGrouped} {artifactRefs : List String}
    (h : L.applyGrouping cas action payload artifactRefs = (.ok (), L')) :
    Changes (.event cas (.findingsGrouped action payload) artifactRefs) L L' := by
  rw [applyGrouping.eq_def] at h
  cases hcheck : L.checkGrouping cas action payload artifactRefs with
  | error e =>
    rw [hcheck] at h
    cases h
  | ok artifact =>
    rw [hcheck] at h
    cases h
    obtain ⟨_, -, hcheck⟩ := bind_eq_ok.mp hcheck
    split at hcheck
    case h_1 => cases hcheck
    case h_2 artifact' hread =>
      split at hcheck
      case h_1 grouping _ =>
        obtain ⟨_, -, hcheck⟩ := bind_eq_ok.mp hcheck
        cases action with
        | group =>
          obtain ⟨_, hvalid, hcheck⟩ := bind_eq_ok.mp hcheck
          exact .groups payload.source payload.into rfl rfl hvalid
            ⟨rfl, rfl, rfl, rfl, rfl, fun d => d⟩
        | ungroup =>
          obtain ⟨_, hvalid, hcheck⟩ := bind_eq_ok.mp hcheck
          exact .ungroups payload.source payload.into rfl rfl hvalid
            ⟨rfl, rfl, rfl, rfl, rfl, fun d => d⟩
      case h_2 => cases hcheck

theorem applyResolution_changes (cas : ContentStore) {payload : FindingResolved}
    {artifactRefs : List String} (h : L.applyResolution payload = (.ok (), L')) :
    Changes (.event cas (.findingResolved payload) artifactRefs) L L' := by
  rw [applyResolution] at h
  split at h
  case h_1 => cases h
  case h_2 key status round _ =>
    cases h
    exact .restates [(key, status, ⟨round, .resolved status, payload.note⟩)] rfl rfl (.refl _)

theorem applyCampaignOpened_sameCore {cas : ContentStore} {manifestId : String}
    (h : L.applyCampaignOpened cas manifestId = (.ok (), L')) : SameCore L L' := by
  rw [applyCampaignOpened] at h
  split at h
  · cases h
    exact ⟨rfl, rfl, rfl, rfl, rfl, fun d => d⟩
  · cases h
    have hpolicy : SameCore L { L with
        findingIdentityPolicy := ""
        findingIdentityPolicyUnavailable := true } := ⟨rfl, rfl, rfl, rfl, rfl, fun d => d⟩
    exact hpolicy.trans (sameCore_recordAuthorityFailure _ _)

theorem roundScope_sameCore (cas : ContentStore) (subjectId : String) :
    SameCore L (L.roundScope cas subjectId).2 := by
  rw [roundScope]
  split
  · exact .refl L
  · split
    · exact .refl L
    · split
      · exact .refl L
      · exact ⟨rfl, rfl, rfl, rfl, rfl, fun d => d⟩

theorem applyRoundStarted_sameCore {cas : ContentStore} {started : RoundStarted}
    (h : L.applyRoundStarted cas started = (.ok (), L')) : SameCore L L' := by
  have hscope := roundScope_sameCore (L := L) cas started.subjectId
  rw [applyRoundStarted] at h
  simp only at h
  split at h
  · cases h
    exact hscope.trans ⟨rfl, rfl, rfl, rfl, rfl, fun d => d⟩
  · cases h
    exact hscope.trans ((sameCore_recordAuthorityFailure _ _).trans
      ⟨rfl, rfl, rfl, rfl, rfl, fun d => d⟩)

/-- A known Demand is listed already. -/
theorem DemandsListed.revise (listed : L.DemandsListed) {demandId : String} {record : DemandRecord}
    (hget : L.demands.get demandId = some record) (record' : DemandRecord) :
    DemandsListed { L with demands := L.demands.insert demandId record' } := by
  intro id r hr
  rw [OrdMap.get_insert] at hr
  split_ifs at hr with hid
  · rw [hid]
    exact listed demandId record hget
  · exact listed id r hr

theorem reviseDemand_sameCore {kind : RecordKind} {demandId unknown : String}
    {revise : DemandRecord → Except String DemandRecord}
    (h : L.reviseDemand kind demandId unknown revise = .ok L') : SameCore L L' := by
  rw [reviseDemand] at h
  split at h
  · cases h
  · rename_i record _
    cases hrevise : revise record with
    | error e =>
      rw [hrevise] at h
      cases h
    | ok record' =>
      rw [hrevise] at h
      cases h
      exact ⟨rfl, rfl, rfl, rfl, rfl, fun listed => listed.revise ‹_› _⟩

theorem recordDemand_sameCore {id : RecordedId} {demand : Demand}
    (h : L.recordDemand id demand = .ok L') : SameCore L L' := by
  rw [recordDemand] at h
  split at h
  · split_ifs at h
    cases h
    exact ⟨rfl, rfl, rfl, rfl, rfl, fun listed => listed.revise ‹_› _⟩
  · cases h
    refine ⟨rfl, rfl, rfl, rfl, rfl, fun listed demandId record hget => ?_⟩
    rw [OrdMap.get_insert] at hget
    rw [List.mem_append, List.mem_singleton]
    split_ifs at hget with hid
    · exact .inr hid
    · exact .inl (listed demandId record hget)

theorem demandEvidence_sameCore {kind : RecordKind} {id : RecordedId} {payload : ArtifactPayload}
    (h : L.demandEvidence kind id payload = .ok L') : SameCore L L' := by
  rw [demandEvidence.eq_def] at h
  split at h
  · exact recordDemand_sameCore h
  · cases h
  · exact reviseDemand_sameCore h
  · cases h
  · exact reviseDemand_sameCore h
  · cases h
  · exact reviseDemand_sameCore h
  · cases h
  · exact reviseDemand_sameCore h
  · cases h
  · cases h

theorem coverStatuses_sameCore {keys : List String} {status : FindingStatus} {t : Transition}
    (h : SameCore (L.setStatuses keys status t) L') :
    ∃ changes, SameCore (L.restate changes) L' := ⟨_, restate_setStatuses keys status t ▸ h⟩

theorem applyChangeAttested_restates {subject : String} {artifact : Artifact}
    {attestation : ChangeAttestation}
    (h : L.applyChangeAttested viewId subject artifact attestation = .ok L') :
    ∃ changes, SameCore (L.restate changes) L' := by
  obtain ⟨_, -, h⟩ := bind_eq_ok.mp h
  obtain ⟨_, -, h⟩ := bind_eq_ok.mp h
  obtain ⟨keys, -, h⟩ := bind_eq_ok.mp h
  cases h
  exact coverStatuses_sameCore ⟨rfl, rfl, rfl, rfl, rfl, fun d => d⟩

theorem applyFixVerified_sameCore {subject : String} {artifact : Artifact}
    {verification : FixVerification}
    (h : L.applyFixVerified viewId subject artifact verification = .ok L') : SameCore L L' := by
  obtain ⟨_, -, h⟩ := bind_eq_ok.mp h
  split at h
  · cases h
  · obtain ⟨_, -, h⟩ := bind_eq_ok.mp h
    cases h
    exact ⟨rfl, rfl, rfl, rfl, rfl, fun d => d⟩

theorem applyResolutionRecorded_covers {subject : String} {id : RecordedId} {r : FindingResolution}
    (h : L.applyResolutionRecorded viewId subject id r = .ok L') :
    ∃ keys status, L.findingMemberKeys r.findingId = .ok keys ∧
      L' = L.coverMembers keys id r status := by
  obtain ⟨_, -, h⟩ := bind_eq_ok.mp h
  obtain ⟨_, -, h⟩ := bind_eq_ok.mp h
  obtain ⟨_, -, h⟩ := bind_eq_ok.mp h
  obtain ⟨status, -, h⟩ := bind_eq_ok.mp h
  obtain ⟨keys, hkeys, h⟩ := bind_eq_ok.mp h
  cases h
  exact ⟨keys, status, hkeys, rfl⟩

theorem applyResolutionChallenged_restates {subject : String} {id : RecordedId}
    {challenge : ResolutionChallenge}
    (h : L.applyResolutionChallenged subject id challenge = .ok L') :
    ∃ changes, SameCore (L.restate changes) L' := by
  rw [applyResolutionChallenged] at h
  split at h
  · cases h
  · obtain ⟨_, -, h⟩ := bind_eq_ok.mp h
    obtain ⟨keys, -, h⟩ := bind_eq_ok.mp h
    cases h
    exact coverStatuses_sameCore ⟨rfl, rfl, rfl, rfl, rfl, fun d => d⟩

theorem applyPolicyTime_sameCore {id : RecordedId} {tick : ℕ}
    (h : L.applyPolicyTime id tick = .ok L') : SameCore L L' := by
  obtain ⟨_, -, h⟩ := bind_eq_ok.mp h
  cases h
  exact ⟨rfl, rfl, rfl, rfl, rfl, fun d => d⟩

theorem readRecorded_eq_ok {cas : ContentStore} {kind : RecordKind} {artifactId : String}
    {artifactRefs : List String} {artifact : Artifact}
    (h : readRecorded cas kind artifactId artifactRefs = .ok artifact) :
    cas.read artifactId = .ok artifact := by
  obtain ⟨_, -, h⟩ := bind_eq_ok.mp h
  split at h
  · cases h
  · rename_i hread
    cases h
    exact hread

/-- What a resolution authority event does, by its kind: only a recorded Resolution covers
anything. -/
theorem resolutionAuthorityEvent_cases {kind : RecordKind} {subject : String} {id : RecordedId}
    {artifact : Artifact}
    (h : L.resolutionAuthorityEvent viewId kind subject id artifact = .ok L') :
    (kind ≠ .findingResolutionRecorded ∧ ∃ changes, SameCore (L.restate changes) L') ∨
      (kind = .findingResolutionRecorded ∧ ∃ r keys status,
        artifact.payload = .findingResolution r ∧ L.findingMemberKeys r.findingId = .ok keys ∧
          L' = L.coverMembers keys id r status) := by
  rw [resolutionAuthorityEvent.eq_def] at h
  split at h
  · exact .inl ⟨nofun, applyChangeAttested_restates h⟩
  · cases h
  · exact .inl ⟨nofun, [], applyFixVerified_sameCore h⟩
  · cases h
  · rename_i r hpayload
    obtain ⟨keys, status, hkeys, hL'⟩ := applyResolutionRecorded_covers h
    exact .inr ⟨rfl, r, keys, status, hpayload, hkeys, hL'⟩
  · cases h
  · exact .inl ⟨nofun, applyResolutionChallenged_restates h⟩
  · cases h
  · exact .inl ⟨nofun, [], applyPolicyTime_sameCore h⟩
  · cases h
  · cases h

theorem resolves_recorded_of_ne {cas : ContentStore} {kind : RecordKind} {artifactId : String}
    {artifactRefs : List String} (h : kind ≠ .findingResolutionRecorded) :
    (LedgerInput.event cas (.recorded kind artifactId) artifactRefs).resolves = none := by
  cases kind
  case findingResolutionRecorded => exact absurd rfl h
  all_goals rfl

theorem authorityEvent_changes {cas : ContentStore} {kind : RecordKind} {artifactId : String}
    {artifactRefs : List String} {artifact : Artifact} {subject : String}
    (hread : cas.read artifactId = .ok artifact)
    (h : L.resolutionAuthorityEvent viewId kind subject ⟨artifactId, artifact.artifactId⟩
      artifact = .ok L') : Changes (.event cas (.recorded kind artifactId) artifactRefs) L L' := by
  rcases resolutionAuthorityEvent_cases h with ⟨hkind, changes, hsame⟩ |
    ⟨rfl, r, keys, status, hpayload, hkeys, rfl⟩
  · exact .restates changes rfl (resolves_recorded_of_ne hkind) hsame
  · refine .covers keys ⟨artifactId, artifact.artifactId⟩ r status rfl ?_ hkeys (.refl _)
    obtain ⟨id, snapshot, payload⟩ := artifact
    cases hpayload
    rw [LedgerInput.resolves, hread]

/-- A recorded artifact admits a Resolution, or moves statuses only. -/
theorem recordedEvent_changes {cas : ContentStore} {kind : RecordKind} {artifactId : String}
    {artifactRefs : List String}
    (h : L.recordedEvent viewId cas kind artifactId artifactRefs = .ok L') :
    Changes (.event cas (.recorded kind artifactId) artifactRefs) L L' := by
  obtain ⟨artifact, hartifact, h⟩ := bind_eq_ok.mp h
  have hread := readRecorded_eq_ok hartifact
  cases kind
  case demandRecorded => exact .keeps rfl rfl (demandEvidence_sameCore h)
  case demandWaived => exact .keeps rfl rfl (demandEvidence_sameCore h)
  case evidenceAdded => exact .keeps rfl rfl (demandEvidence_sameCore h)
  case evidenceReuseAdmitted => exact .keeps rfl rfl (demandEvidence_sameCore h)
  case evidenceSatisfied => exact .keeps rfl rfl (demandEvidence_sameCore h)
  all_goals
    dsimp only at h
    split at h
    · cases h
    · exact authorityEvent_changes hread h

/-! ## What a Task does -/

theorem reopenFixed_restates {subjectId : String} {round : ℕ} {fixed : List (String × String)}
    (h : reopenFixed subjectId round fixed L = (.ok (), L')) :
    ∃ changes, SameCore (L.restate changes) L' := by
  induction fixed generalizing L with
  | nil =>
    cases h
    exact ⟨[], .refl _⟩
  | cons entry fixed ih =>
    obtain ⟨key, fixedSubject⟩ := entry
    rw [reopenFixed] at h
    split at h
    · exact ih h
    · split at h
      · cases h
      · obtain ⟨changes, hsame⟩ := ih h
        split_ifs at hsame
        · exact ⟨(key, .opened, _) :: changes, hsame⟩
        · exact ⟨changes, hsame⟩

theorem bindTaskSubject_restates {cas : ContentStore} {subjectId : String} {round : ℕ}
    (h : L.bindTaskSubject cas subjectId round = (.ok (), L')) :
    ∃ changes, SameCore (L.restate changes) L' := by
  rw [bindTaskSubject] at h
  split at h
  · cases h
  · split at h
    · cases h
    · split at h
      · cases h
      · rename_i hreopen
        split at h
        · cases h
        · cases h
          obtain ⟨changes, hsame⟩ := reopenFixed_restates hreopen
          exact ⟨changes, hsame.trans ⟨rfl, rfl, rfl, rfl, rfl, fun d => d⟩⟩

theorem fixByTask_restates (subjectId : String) (changes : List (String × String)) :
    ∃ restated, SameCore (L.restate restated) (changes.foldl (fixByTask subjectId) L) := by
  induction changes generalizing L with
  | nil => exact ⟨[], .refl _⟩
  | cons change changes ih =>
    obtain ⟨restated, hsame⟩ := ih (L := fixByTask subjectId L change)
    refine ⟨(change.1, .fixed, ⟨L.round, .resolved .fixed,
      some ("Verified on current Task Subject by " ++ change.2)⟩) :: restated, ?_⟩
    refine SameCore.trans (sameCore_restate ?_ restated) hsame
    exact ⟨rfl, rfl, rfl, rfl, rfl, fun d => d⟩

theorem projectTaskFixes_restates {cas : ContentStore} {assessment : RepairAssessment}
    (h : L.projectTaskFixes viewId cas assessment = (.ok (), L')) :
    ∃ changes, SameCore (L.restate changes) L' := by
  rw [projectTaskFixes] at h
  split at h
  · cases h
  · split at h
    · cases h
    · cases h
      exact fixByTask_restates _ _

/-! ## One accepted input -/

theorem commit_eq_ok {result : Except String Ledger} (h : L.commit result = (.ok (), L')) :
    result = .ok L' := by
  cases result with
  | error e => cases h
  | ok M =>
    cases h
    rfl

theorem apply_changes {cas : ContentStore} {event : LedgerEvent} {artifactRefs : List String}
    (h : L.apply viewId cas event artifactRefs = (.ok (), L')) :
    Changes (.event cas event artifactRefs) L L' := by
  cases event with
  | campaignOpened manifestId => exact .keeps rfl rfl (applyCampaignOpened_sameCore h)
  | roundStarted started => exact .keeps rfl rfl (applyRoundStarted_sameCore h)
  | generationAdvanced round =>
    have hround := commit_eq_ok h
    cases hrequired : requiredRound round "GenerationAdvanced@1" with
    | error e =>
      rw [hrequired] at hround
      cases hround
    | ok n =>
      rw [hrequired] at hround
      cases hround
      exact .keeps rfl rfl ⟨rfl, rfl, rfl, rfl, rfl, fun d => d⟩
  | findingReported payload => exact applyReport_changes h
  | findingResolved payload => exact applyResolution_changes cas h
  | findingsGrouped action payload => exact applyGrouping_changes h
  | recorded kind artifactId => exact recordedEvent_changes (commit_eq_ok h)
  | other =>
    cases h
    exact .keeps rfl rfl (.refl _)

/-- **One accepted input** changes the core in one of six ways. -/
theorem step_changes (h : L.step viewId input = some L') : Changes input L L' := by
  rw [step] at h
  split at h
  case h_2 => cases h
  case h_1 M hreply =>
    cases h
    cases input with
    | event cas event artifactRefs => exact apply_changes hreply
    | bindTaskSubject cas subjectId round =>
      obtain ⟨changes, hsame⟩ := bindTaskSubject_restates hreply
      exact .restates changes rfl rfl hsame
    | projectTaskFixes cas assessment =>
      obtain ⟨changes, hsame⟩ := projectTaskFixes_restates hreply
      exact .restates changes rfl rfl hsame

end Ledger

end Afactory
