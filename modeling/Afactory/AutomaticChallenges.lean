import Mathlib
import Afactory.LedgerReports
import Afactory.ReductionReplay

/-!
# Automatic challenges

A report in scope of a declined Finding challenges the Resolution that declined it. The challenge
names the root of the Finding's group, but the Resolution recorded for the Finding itself.

* `Onward`: what a reduction leaves of the Ledger it starts from;
* `Onward.challenge`: no challenge becomes possible on the way;
* `ChallengedThrough`, `ChallengesResolve`: members and roots have one Resolution where it matters;
* `admits_prepareReviewOutputs`: then every automatic challenge is accepted.
-/

namespace Afactory

variable {ids : ReviewIds} {viewId : Finding → Option String}

/-! ## Views of declined groups -/

theorem Ledger.maxSeverity_mem {l : List Severity} {s : Severity} (h : maxSeverity l = some s) :
    s ∈ l := by
  induction l generalizing s with
  | nil => cases h
  | cons x l ih =>
    rw [maxSeverity] at h
    cases hrest : maxSeverity l with
    | none =>
      rw [hrest] at h
      cases h
      exact List.mem_cons_self
    | some t =>
      rw [hrest] at h
      dsimp only at h
      split_ifs at h with hlt
      · cases h
        exact List.mem_cons_self
      · cases h
        exact List.mem_cons_of_mem _ (ih hrest)

namespace Ledger

variable {L M N : Ledger} {key root : String} {f v : Finding}

namespace WellFormed

/-- A view is as severe as each member. -/
theorem severity_le_view (h : L.WellFormed) (hroot : L.groupRoot root = some root)
    (hview : L.findingViewForRoot root = some v) (hmem : f ∈ L.groupMembers root) :
    f.severity.rank ≤ v.severity.rank := by
  obtain ⟨g, aliases, hg, -, hv⟩ := findingViewForRoot_eq_some hview
  split_ifs at hv with hempty
  · have halone : v.aliases = [] := by
      rw [hv]
      exact List.isEmpty_iff.mp hempty
    rw [h.view_alone hroot hg hview halone, List.mem_singleton] at hmem
    rw [hmem, hv]
  · obtain ⟨t, ht, hle⟩ := rank_le_maxSeverity (List.mem_map_of_mem (f := Finding.severity) hmem)
    rw [hv]
    simpa only [mergedView, ht, Option.getD_some] using hle

/-- And no more severe than the most severe of them. -/
theorem exists_severity_view (h : L.WellFormed) (hroot : L.groupRoot root = some root)
    (hview : L.findingViewForRoot root = some v) :
    ∃ f ∈ L.groupMembers root, v.severity = f.severity := by
  obtain ⟨g, aliases, hg, -, hv⟩ := findingViewForRoot_eq_some hview
  have hkey := (h.kept root g hg).key_eq
  have hmem : g ∈ L.groupMembers root := h.mem_groupMembers.mpr ⟨hkey ▸ hroot, hkey ▸ hg⟩
  split_ifs at hv with hempty
  · exact ⟨g, hmem, by rw [hv]⟩
  · obtain ⟨t, ht, -⟩ := rank_le_maxSeverity (List.mem_map_of_mem (f := Finding.severity) hmem)
    obtain ⟨f, hf, hft⟩ := List.mem_map.mp (maxSeverity_mem ht)
    refine ⟨f, hf, ?_⟩
    rw [hv, hft]
    simp only [mergedView, ht, Option.getD_some]

/-- The view of a group without active members has the status of its root. -/
theorem view_status_inactive (hview : L.findingViewForRoot root = some v)
    (hinactive : ∀ f ∈ L.groupMembers root, f.status.isActive = false) :
    ∃ g, L.findings.get root = some g ∧ v.status = g.status := by
  obtain ⟨g, aliases, hg, -, hv⟩ := findingViewForRoot_eq_some hview
  refine ⟨g, hg, ?_⟩
  have hnone : ∀ status : FindingStatus, status.isActive = true →
      ((L.groupMembers root).any fun f => f.status = status) = false := by
    intro status hactive
    rw [List.any_eq_false]
    rintro f hf heq
    rw [← of_decide_eq_true heq, hinactive f hf] at hactive
    cases hactive
  split_ifs at hv with hempty
  · rw [hv]
  · rw [hv]
    simp only [mergedView, mergedStatus, hnone .contested rfl, hnone .opened rfl,
      hnone .pendingVerification rfl, Bool.false_eq_true, if_false]

end WellFormed

theorem isActive_eq_false_of_isDeclined {status : FindingStatus} (h : status.isDeclined = true) :
    status.isActive = false := by
  cases status <;> first | rfl | cases h

/-! ## Going on -/

/-- A Finding became active, or kept its status and is as severe as before. -/
def StaysDeclined (f f' : Finding) : Prop :=
  f'.status.isActive = true ∨ (f'.status = f.status ∧ f.severity.rank ≤ f'.severity.rank)

theorem StaysDeclined.trans {f f' f'' : Finding} (h : StaysDeclined f f')
    (h' : StaysDeclined f' f'') : StaysDeclined f f'' := by
  rcases h' with hactive | ⟨hstatus', hsevere'⟩
  · exact .inl hactive
  · rcases h with hactive | ⟨hstatus, hsevere⟩
    · exact .inl (hstatus' ▸ hactive)
    · exact .inr ⟨hstatus'.trans hstatus, hsevere.trans hsevere'⟩

/-- What a reduction leaves, as far as challenges go. -/
structure Onward (L M : Ledger) : Prop where
  resolutions : M.resolutions = L.resolutions
  authority : M.resolutionAuthority = L.resolutionAuthority
  groupings : M.activeGroupings = L.activeGroupings
  scope : M.activeScope = L.activeScope
  kept : ∀ key f, L.findings.get key = some f →
    ∃ f', M.findings.get key = some f' ∧ StaysDeclined f f'

theorem StaysDeclined.refl (f : Finding) : StaysDeclined f f := .inr ⟨rfl, le_rfl⟩

namespace Onward

theorem refl (L : Ledger) : Onward L L :=
  ⟨rfl, rfl, rfl, rfl, fun _ f hf => ⟨f, hf, .refl f⟩⟩

theorem trans (h : Onward L M) (h' : Onward M N) : Onward L N where
  resolutions := h'.resolutions.trans h.resolutions
  authority := h'.authority.trans h.authority
  groupings := h'.groupings.trans h.groupings
  scope := h'.scope.trans h.scope
  kept key f hf := by
    obtain ⟨f', hf', hstays⟩ := h.kept key f hf
    obtain ⟨f'', hf'', hstays'⟩ := h'.kept key f' hf'
    exact ⟨f'', hf'', hstays.trans hstays'⟩

theorem of_sameCore (hsame : SameCore L M) (hscope : M.activeScope = L.activeScope) :
    Onward L M :=
  ⟨hsame.resolutions, hsame.authority, hsame.groupings, hscope,
    fun key f hf => ⟨f, by rw [hsame.findings, hf], .refl f⟩⟩

theorem resolution (h : Onward L M) (key : String) : M.resolution key = L.resolution key := by
  rw [Ledger.resolution, Ledger.resolution, h.authority, h.resolutions]

theorem activeSubjectId (h : Onward L M) : M.activeSubjectId = L.activeSubjectId := by
  rw [Ledger.activeSubjectId, Ledger.activeSubjectId, h.scope]

theorem groupRoot (h : Onward L M) (hf : L.findings.get key = some f) :
    M.groupRoot key = L.groupRoot key := by
  obtain ⟨f', hf', -⟩ := h.kept key f hf
  rw [Ledger.groupRoot, Ledger.groupRoot, h.groupings, OrdMap.contains, OrdMap.contains, hf, hf']
  rfl

/-- No challenge becomes possible on the way: who is declined later was declined before, by the
same Resolution, and no more severe. -/
theorem challenge (h : Onward L M) (hL : L.WellFormed) (hM : M.WellFormed)
    (hf : L.findings.get key = some f) {severity : Severity} {kind : ResolutionChallengeKind}
    (hchallenge : M.resolutionChallengeForReport key severity = some kind) :
    L.resolutionChallengeForReport key severity = some kind := by
  rw [resolutionChallengeForReport, Option.bind_eq_some_iff] at hchallenge
  obtain ⟨v, hv, hchallenge⟩ := hchallenge
  obtain ⟨root, hroot, hview⟩ := Option.bind_eq_some_iff.mp hv
  have hdeclined : v.status.isDeclined = true := by
    by_contra hno
    rw [if_pos (by simpa using hno)] at hchallenge
    cases hchallenge
  rw [hdeclined, Bool.not_true, if_neg Bool.false_ne_true] at hchallenge
  have hMroot := (hM.groupRoot_root hroot).1
  have hLroot : L.groupRoot key = some root := by rw [← h.groupRoot hf, hroot]
  -- every member of before is still a member, so none is active
  have hmembers : ∀ g ∈ L.groupMembers root, ∃ g' ∈ M.groupMembers root,
      g'.status.isActive = false ∧ g'.status = g.status ∧ g.severity.rank ≤ g'.severity.rank := by
    intro g hg
    obtain ⟨hgroot, hget⟩ := hL.mem_groupMembers.mp hg
    obtain ⟨g', hget', hstays⟩ := h.kept g.key g hget
    have hkey := (hM.kept g.key g' hget').key_eq
    have hmem : g' ∈ M.groupMembers root := by
      refine hM.mem_groupMembers.mpr ⟨?_, hkey ▸ hget'⟩
      rw [hkey, h.groupRoot hget, hgroot]
    have hinactive : g'.status.isActive = false := by
      by_contra hactive
      have hvactive := (hM.view_covers hMroot hview hmem).active (by simpa using hactive)
      rw [isActive_eq_false_of_isDeclined hdeclined] at hvactive
      cases hvactive
    rcases hstays with hactive | ⟨hstatus, hsevere⟩
    · rw [hinactive] at hactive
      cases hactive
    · exact ⟨g', hmem, hinactive, hstatus, hsevere⟩
  obtain ⟨hself, g₀, hg₀⟩ := hL.groupRoot_root hLroot
  obtain ⟨w, hw⟩ : ∃ w, L.findingViewForRoot root = some w := by
    rw [findingViewForRoot, hg₀]
    exact ⟨_, rfl⟩
  obtain ⟨g, hg, hwstatus⟩ := WellFormed.view_status_inactive hw fun g hg => by
    obtain ⟨g', -, hinactive, hstatus, -⟩ := hmembers g hg
    rw [← hstatus, hinactive]
  have hwdeclined : w.status.isDeclined = true := by
    obtain ⟨r, hr, hrdeclined⟩ := view_declined hview hdeclined
    have hkey := (hL.kept root g hg).key_eq
    obtain ⟨g', hg', hinactive, hstatus, -⟩ :=
      hmembers g (hL.mem_groupMembers.mpr ⟨hkey ▸ hself, hkey ▸ hg⟩)
    obtain ⟨r', hr', hstays⟩ := h.kept root g hg
    rw [hr] at hr'
    cases hr'
    rcases hstays with hactive | ⟨hsame, -⟩
    · rw [isActive_eq_false_of_isDeclined hrdeclined] at hactive
      cases hactive
    · rw [hwstatus, ← hsame]
      exact hrdeclined
  have hsevere : w.severity.rank ≤ v.severity.rank := by
    obtain ⟨g, hg, hwsevere⟩ := hL.exists_severity_view hself hw
    obtain ⟨g', hg', -, -, hle⟩ := hmembers g hg
    rw [hwsevere]
    exact hle.trans (hM.severity_le_view hMroot hview hg')
  have hwview : L.findingView key = some w := by rw [findingView, hLroot, Option.bind_some, hw]
  rw [resolutionChallengeForReport, hwview, Option.bind_some, hwdeclined, Bool.not_true,
    if_neg Bool.false_ne_true, ← h.resolution key]
  obtain ⟨R, hR, hchallenge⟩ := Option.bind_eq_some_iff.mp hchallenge
  rw [hR, Option.bind_some, ← h.activeSubjectId]
  by_cases hsubject : some R.resolution.subjectId = M.activeSubjectId
  · rw [if_neg (not_not_intro hsubject)] at hchallenge ⊢
    cases houtcome : R.resolution.outcome with
    | fixed verificationId =>
      rw [houtcome] at hchallenge
      cases hchallenge
    | rejected =>
      rw [houtcome] at hchallenge
      dsimp only at hchallenge
      split_ifs at hchallenge with hhigher
      exact (if_pos (hsevere.trans_lt hhigher)).trans hchallenge
    | wontfixTracked ceiling expiry =>
      rw [houtcome] at hchallenge
      exact hchallenge
  · rw [if_pos hsubject] at hchallenge ⊢
    exact hchallenge

end Onward

end Ledger

/-- A report makes a Finding active, or leaves its status and does not lower its severity. -/
theorem Reporting.staysDeclined_revise (r : Reporting) (f : Finding) :
    Ledger.StaysDeclined f (r.revise f) := by
  rw [revise]
  split_ifs with hunreadable hdiagnostic
  · exact .refl f
  · exact .inl rfl
  -- a readable report about a readable claim: one case for each kind of transition
  show Ledger.StaysDeclined f (r.moved { f with lastSeenRound := r.round } (r.transitionKind f))
  rw [transitionKind]
  split_ifs with hchallenge hhigher hdeclined hhigher hfixed hactive
  · refine .inl ?_
    simp only [moved, hchallenge, if_true]
    rfl
  · exact .inl rfl
  · refine .inr ⟨?_, ?_⟩
    · simp only [moved, hchallenge]
      rfl
    · simp only [moved, hchallenge]
      exact hhigher.le
  · exact .inr ⟨rfl, le_rfl⟩
  · exact .inl rfl
  · refine .inr ⟨?_, ?_⟩
    · simp only [moved, hchallenge]
      rfl
    · simp only [moved, hchallenge]
      exact (of_decide_eq_true (Bool.and_eq_true_iff.mp hactive).2).le
  · exact .inr ⟨rfl, le_rfl⟩

namespace Ledger

variable {L M N : Ledger} {cas : ContentStore} {artifactRefs : List String}

theorem setStatus_activeScope (L : Ledger) (key : String) (status : FindingStatus)
    (t : Transition) : (L.setStatus key status t).activeScope = L.activeScope := by
  rw [setStatus]
  split <;> rfl

namespace Onward

theorem setStatus (L : Ledger) (key : String) {status : FindingStatus} (t : Transition)
    (hactive : status.isActive = true) : Onward L (L.setStatus key status t) where
  resolutions := setStatus_resolutions L key status t
  authority := setStatus_authority L key status t
  groupings := setStatus_groupings L key status t
  scope := setStatus_activeScope L key status t
  kept k f hf := by
    rw [get_setStatus, hf]
    refine ⟨_, rfl, ?_⟩
    split_ifs
    · exact .inl hactive
    · exact .refl f

theorem setStatuses (L : Ledger) (keys : List String) {status : FindingStatus} (t : Transition)
    (hactive : status.isActive = true) : Onward L (L.setStatuses keys status t) := by
  induction keys generalizing L with
  | nil => exact refl L
  | cons key keys ih => exact (setStatus L key t hactive).trans (ih _)

theorem attachReport (L : Ledger) (key : String) (r : Reporting) :
    Onward L (L.attachReport key r) where
  resolutions := by rw [Ledger.attachReport]; split <;> rfl
  authority := by rw [Ledger.attachReport]; split <;> rfl
  groupings := by rw [Ledger.attachReport]; split <;> rfl
  scope := by rw [Ledger.attachReport]; split <;> rfl
  kept k f hf := by
    by_cases hk : k = key
    · subst hk
      exact ⟨_, get_attachReport_known hf r, r.staysDeclined_revise f⟩
    · exact ⟨f, by rw [get_attachReport_ne hk, hf], .refl f⟩

theorem report {payload : FindingReported}
    (h : L.apply viewId cas (.findingReported payload) artifactRefs = (.ok (), M)) :
    Onward L M := by
  replace h : L.applyReport cas payload artifactRefs = (.ok (), M) := h
  obtain ⟨key, source, round, reportId, -, -, -, -, rfl⟩ := applyReport_eq_ok h
  exact (of_sameCore (sameCore_prepareReport cas key source round reportId)
    (prepareReport_activeScope cas key source round reportId)).trans (attachReport _ key _)

theorem demand {id : String}
    (h : L.apply viewId cas (.recorded .demandRecorded id) artifactRefs = (.ok (), M)) :
    Onward L M := by
  obtain ⟨artifact, demand, -, -, hrecord⟩ := apply_demandRecorded h
  refine of_sameCore (recordDemand_sameCore hrecord) ?_
  rw [recordDemand] at hrecord
  split at hrecord
  · split_ifs at hrecord
    cases hrecord
    rfl
  · cases hrecord
    rfl

theorem challenged {id : String} (h : L.apply viewId cas
      (.recorded .findingResolutionChallenged id) artifactRefs = (.ok (), M)) : Onward L M := by
  obtain ⟨keys, t, history, rfl⟩ := apply_challenged h
  have hset : Onward L (L.setStatuses keys .contested t) := setStatuses L keys t rfl
  exact ⟨hset.resolutions, hset.authority, hset.groupings, hset.scope, hset.kept⟩

theorem contested {key : String} {round : Option ℕ} {note : Option String}
    (h : L.apply viewId cas (.findingResolved ⟨some key, some "contested", round, note⟩)
      artifactRefs = (.ok (), M)) : Onward L M := by
  obtain ⟨-, t, rfl⟩ := apply_contested h
  exact setStatus L key t rfl

end Onward

/-! ## What challenges need -/

/-- A report of the severity would challenge through the Finding: the group is declined, the
Resolution recorded for the Finding is the one challenged, and the challenge has valid ids. -/
structure ChallengedThrough (L : Ledger) (key : String) (severity : Severity)
    (R : RecordedResolution) (root : String) : Prop where
  challenge : (L.resolutionChallengeForReport key severity).isSome = true
  resolution : L.resolution key = some R
  rooted : L.groupRoot key = some root
  named : isBlank key = false ∧ isBlank root = false
  resolutionId : isDigest R.id.artifactId = true
  subject : ∃ subject, L.activeSubjectId = some subject ∧ isDigest subject = true

/-- Where a report could challenge through a Finding, the root of its group has the same
Resolution recorded. -/
def ChallengesResolve (L : Ledger) : Prop :=
  ∀ key severity R root, L.ChallengedThrough key severity R root →
    ∃ R', L.resolution root = some R' ∧ R'.id.artifactId = R.id.artifactId

/-- Only Findings are under the authority of a Resolution. -/
def AuthorityKnown (L : Ledger) : Prop :=
  ∀ key findingId, L.resolutionAuthority.get key = some findingId →
    ∃ f, L.findings.get key = some f

end Ledger

/-! ## What a reduction is refused -/

/-- The event of a challenge. -/
def ReviewEvent.isChallenge (event : ReviewEvent) : Bool :=
  match event.event with
  | .recorded .findingResolutionChallenged _ => true
  | _ => false

/-- A challenge was refused by the Ledger it was made against. -/
def ReductionError.refusesChallenge : ReductionError → Bool
  | .refused event _ => event.isChallenge
  | .store _ => false

/-- No refusal of a challenge. -/
def Admits {α : Type*} (x : Except ReductionError α) : Prop :=
  Refuses (fun e => e.refusesChallenge = false) x

section Admitting

variable {prior : Ledger} {s s' : Reduction ids} {event : ReviewEvent}

theorem admits_emit (h : event.isChallenge = false) : Admits (s.emit viewId event) := by
  rw [Reduction.emit]
  split
  · exact Refuses.ok
  · exact Refuses.error h

theorem admits_putArtifact (store : ReviewStore ids) (envelope : Envelope) :
    Admits (putArtifact store envelope) := by
  intro e he
  rw [putArtifact] at he
  cases hput : store.put envelope with
  | ok p =>
    rw [hput] at he
    cases he
  | error _ =>
    rw [hput] at he
    cases he
    rfl

theorem admits_recordStageDemand (stage : PreparedStage) (s : Reduction ids)
    (demand : BenchmarkDemand) : Admits (recordStageDemand viewId prior stage s demand) := by
  rw [recordStageDemand]
  dsimp only
  refine Refuses.ite (fun _ => Refuses.pure) fun _ => ?_
  refine Refuses.bind ?_ fun _ _ => ?_
  · rw [validateDemand]
    exact Refuses.ite (fun _ => Refuses.error rfl) fun _ => Refuses.ok
  · refine (admits_putArtifact _ _).bind fun p _ => ?_
    exact (admits_emit rfl).bind fun _ _ => Refuses.pure

theorem admits_disposeOf (stage : PreparedStage) (s : Reduction ids) (d : ReviewerDisposition) :
    Admits (disposeOf viewId prior stage s d) := by
  rw [disposeOf]
  dsimp only
  refine Refuses.ite (fun _ => Refuses.throw rfl) fun _ => ?_
  refine Refuses.bind ?_ fun _ _ => ?_
  · rw [FindingDisposition.validate]
    exact Refuses.ite (fun _ => Refuses.error rfl) fun _ => Refuses.ok
  · refine (admits_putArtifact _ _).bind fun p _ => ?_
    exact Refuses.ite (fun _ => Refuses.pure) fun _ => admits_emit rfl

theorem admits_findReplay (store : ReviewStore ids) (p : ReportProvenance)
    (reports : List AttachedReport) : Admits (findReplay store p reports) := by
  induction reports with
  | nil => exact Refuses.ok
  | cons r rest ih =>
    rw [findReplay]
    split
    · exact Refuses.error rfl
    · split
      · exact Refuses.ite (fun _ => ih) fun _ => Refuses.ok
      · exact Refuses.error rfl

theorem admits_stageReports (stage : PreparedStage) (store : ReviewStore ids) :
    Admits (stageReports prior stage store) := by
  rw [stageReports]
  refine Refuses.bind (Refuses.mapM fun d _ => ?_) fun _ _ => Refuses.pure
  rw [corroboratingReport]
  refine Refuses.ite (fun _ => Refuses.ok) fun _ => ?_
  split
  · exact Refuses.ok
  · exact (admits_findReplay _ _ _).bind fun _ _ => Refuses.pure

theorem admits_publishReports (p : ReportProvenance) (reports : List FindingReport)
    (store : ReviewStore ids) : Admits (publishReports p reports store) := by
  induction reports generalizing store with
  | nil => exact Refuses.ok
  | cons report rest ih =>
    rw [publishReports]
    refine (admits_putArtifact _ _).bind fun p _ => ?_
    exact (ih _).bind fun _ _ => Refuses.pure

theorem admits_canonicalStageKeys (reports : List (FindingReport × String))
    (pending : List (Occurrence × String)) :
    Admits (canonicalStageKeys ids reports prior pending) := by
  rw [canonicalStageKeys]
  refine Refuses.bind (Refuses.mapM fun r _ => ?_) fun _ _ => Refuses.mapM fun index _ => ?_
  · rw [reportCandidates]
    refine Refuses.bind ?_ fun _ _ => Refuses.pure
    intro e he
    obtain ⟨relation, -, hone⟩ := forM_eq_error he
    split_ifs at hone
    cases hone
    rfl
  · dsimp only [classKey]
    split
    · exact Refuses.ok
    · exact Refuses.ok
    · exact Refuses.error rfl

/-- A challenge of the Resolution of its Finding is accepted. -/
theorem apply_challenge_ok {L : Ledger} {cas : ContentStore} {id : String}
    {snapshot : Option String} {challenge : ResolutionChallenge}
    (hread : cas.read id = .ok ⟨id, snapshot, .resolutionChallenge challenge⟩)
    (hsubject : L.activeSubjectId = some challenge.subjectId) {root : String}
    (hroot : L.groupRoot challenge.findingId = some root) {R : RecordedResolution}
    (hR : L.resolution challenge.findingId = some R)
    (hid : R.id.artifactId = challenge.resolutionId) :
    ∃ L', L.apply viewId cas (.recorded .findingResolutionChallenged id) [id] = (.ok (), L') := by
  have hrecorded : Ledger.readRecorded cas .findingResolutionChallenged id [id] =
      .ok ⟨id, snapshot, .resolutionChallenge challenge⟩ := by
    rw [Ledger.readRecorded, requireEvent, if_pos (decide_eq_true rfl), ok_bind, hread]
    rfl
  have hkeys : L.findingMemberKeys challenge.findingId =
      .ok ((L.groupMembers root).map Finding.key) := by
    rw [Ledger.findingMemberKeys, hroot]
  have happly : ∃ L', L.applyResolutionChallenged challenge.subjectId ⟨id, id⟩ challenge =
      .ok L' := by
    rw [Ledger.applyResolutionChallenged, hR]
    simp only [requireEvent, hid, decide_true, Bool.and_self, if_true, ok_bind, hkeys]
    exact ⟨_, rfl⟩
  obtain ⟨L', happly⟩ := happly
  refine ⟨L', ?_⟩
  rw [Ledger.apply, Ledger.recordedEvent, hrecorded, ok_bind]
  simp only [hsubject, Ledger.resolutionAuthorityEvent, happly]
  rfl

/-- What holds of the Ledger of a reduction on the way. -/
structure Underway (prior : Ledger) (s : Reduction ids) : Prop where
  onward : Ledger.Onward prior s.projected
  wellFormed : s.projected.WellFormed

theorem Underway.congr (h : Underway prior s) (hprojected : s'.projected = s.projected) :
    Underway prior s' := ⟨hprojected ▸ h.onward, hprojected ▸ h.wellFormed⟩

theorem Underway.emits (h : Underway prior s) (hemits : Emits viewId s s' event)
    (honward : Ledger.Onward s.projected s'.projected) : Underway prior s' :=
  ⟨h.onward.trans honward, h.wellFormed.step hemits.step⟩

theorem Underway.emit (h : Underway prior s) (hemit : s.emit viewId event = .ok s')
    (honward : ∀ L, s.projected.apply viewId s.store.contentStore event.event event.artifactRefs =
      (.ok (), L) → Ledger.Onward s.projected L) : Underway prior s' := by
  obtain ⟨L, happly, rfl⟩ := Reduction.emit_eq_ok hemit
  have hstep : s.projected.step viewId (.event s.store.contentStore event.event
      event.artifactRefs) = some L := by
    simp only [Ledger.step, Ledger.reply, happly]
  exact ⟨h.onward.trans (honward L happly), h.wellFormed.step hstep⟩

/-- The challenge through a Finding whose root has the same Resolution. -/
theorem Underway.admits_challenge (h : Underway prior s) {runId key reportId root : String}
    {kind : ResolutionChallengeKind} {R : RecordedResolution} {f : Finding}
    (hf : prior.findings.get key = some f) (hroot : prior.groupRoot key = some root)
    (hresolves : isBlank root = false → isDigest R.id.artifactId = true →
      (∃ subject, prior.activeSubjectId = some subject ∧ isDigest subject = true) →
      ∃ R', prior.resolution root = some R' ∧ R'.id.artifactId = R.id.artifactId) :
    Admits (challengeResolution viewId runId key reportId kind R s) := by
  rw [challengeResolution]
  split
  case h_1 => exact Refuses.throw rfl
  case h_2 subject hsubject =>
    split
    case h_1 => exact Refuses.throw rfl
    case h_2 view hview =>
      have hMroot : s.projected.groupRoot key = some root := by rw [h.onward.groupRoot hf, hroot]
      have hkey : view.key = root := by
        rw [Ledger.findingView, hMroot, Option.bind_some] at hview
        exact h.wellFormed.view_key hview
      rw [hkey]
      refine Refuses.bind ?_ fun _ hvalid => ?_
      · rw [validateChallenge]
        exact Refuses.ite (fun _ => Refuses.error rfl) fun _ => Refuses.ok
      · refine (admits_putArtifact _ _).bind ?_
        rintro ⟨store, recordId⟩ hput
        rw [validateChallenge] at hvalid
        split_ifs at hvalid with hrefused
        simp only [Bool.or_eq_true, not_or, Bool.not_eq_true, Bool.not_eq_false'] at hrefused
        obtain ⟨⟨⟨⟨⟨hblank, hdigest⟩, hsubjectId⟩, -⟩, -⟩, -⟩ := hrefused
        obtain ⟨R', hR', hid⟩ := hresolves hblank hdigest
          ⟨subject, by rw [← h.onward.activeSubjectId, hsubject], hsubjectId⟩
        obtain ⟨-, hfiled, -⟩ := putArtifact_eq_ok hput
        obtain ⟨L', happly⟩ := apply_challenge_ok (ReviewStore.read_contentStore hfiled) hsubject
          (h.wellFormed.groupRoot_root hMroot).1 (by rw [h.onward.resolution, hR']) hid
        dsimp only [Reduction.emit]
        rw [happly]
        exact Refuses.ok

/-- An accepted report names its Finding by a key that is not blank. -/
theorem named_of_report {L L' : Ledger} {cas : ContentStore} {payload : FindingReported}
    {artifactRefs : List String} {key : String}
    (h : L.apply viewId cas (.findingReported payload) artifactRefs = (.ok (), L'))
    (hkey : payload.key = some key) : isBlank key = false := by
  replace h : L.applyReport cas payload artifactRefs = (.ok (), L') := h
  rw [Ledger.applyReport] at h
  cases hcheck : Ledger.checkReport payload artifactRefs with
  | error e =>
    rw [hcheck] at h
    cases h
  | ok checked =>
    obtain ⟨k, hk, -⟩ := bind_eq_ok.mp hcheck
    rw [requiredString, hkey] at hk
    by_contra hblank
    rw [Option.filter_some, if_neg (by simpa using hblank)] at hk
    cases hk

theorem Underway.admits_reportUnder (h : Underway prior s) (hprior : prior.WellFormed)
    (hknown : prior.AuthorityKnown) (hresolve : prior.ChallengesResolve) (runId : String)
    (stage : PreparedStage) (p : (FindingReport × String) × String) :
    Admits (reportUnder viewId runId prior stage s p) := by
  obtain ⟨⟨report, reportId⟩, key⟩ := p
  rw [reportUnder]
  dsimp only
  refine Refuses.ite (fun _ => Refuses.pure) fun _ => ?_
  refine (admits_emit rfl).bind fun s₁ hemit => ?_
  split
  case h_2 => exact Refuses.pure
  case h_1 kind R hpending =>
    refine Refuses.ite (fun _ => ?_) fun _ => Refuses.pure
    obtain ⟨kind', hkind, hR⟩ := Option.bind_eq_some_iff.mp hpending
    obtain ⟨R', hR', heq⟩ := Option.map_eq_some_iff.mp hR
    cases heq
    replace hkind : s.projected.resolutionChallengeForReport key report.severity = some kind := hkind
    replace hR' : s.projected.resolution key = some R := hR'
    rw [h.onward.resolution] at hR'
    obtain ⟨findingId, hauthority, -⟩ := Option.bind_eq_some_iff.mp hR'
    obtain ⟨f, hf⟩ := hknown key findingId hauthority
    obtain ⟨root, g, hroot, -, -⟩ := hprior.exists_groupRoot hf
    have hchallenge := h.onward.challenge hprior h.wellFormed hf hkind
    have hbooked : Underway prior { s.select stage.source report reportId key with
        pendingReports := ⟨key, stage.source, prior.round, reportId⟩ :: s.pendingReports } :=
      h.congr rfl
    have h₁ : Underway prior s₁ := hbooked.emit hemit fun L happly => .report happly
    obtain ⟨L, happly, -⟩ := Reduction.emit_eq_ok hemit
    refine h₁.admits_challenge hf hroot fun hblank hdigest hsubject => ?_
    exact hresolve key report.severity R root ⟨by rw [hchallenge]; rfl, hR', hroot,
      ⟨named_of_report happly rfl, hblank⟩, hdigest, hsubject⟩

/-! ## A whole reduction -/

theorem Underway.demand (h : Underway prior s) {stage : PreparedStage} {demand : BenchmarkDemand}
    (hdone : recordStageDemand viewId prior stage s demand = .ok s') : Underway prior s' := by
  rcases recordStageDemand_cases hdone with rfl | ⟨recordId, hemits⟩
  · exact h
  · exact h.emits hemits (.demand hemits.applied)

theorem Underway.report (h : Underway prior s) {runId : String} {stage : PreparedStage}
    {p : (FindingReport × String) × String} (hfiled : ∃ e, s.store.filed.get p.1.2 = some e)
    (hdone : reportUnder viewId runId prior stage s p = .ok s') : Underway prior s' := by
  obtain ⟨⟨report, reportId⟩, key⟩ := p
  rcases reportUnder_cases hfiled hdone with rfl | ⟨s₁, hemits, hrest⟩
  · exact h.congr rfl
  · have hbooked : Underway prior { s.select stage.source report reportId key with
        pendingReports := ⟨key, stage.source, prior.round, reportId⟩ :: s.pendingReports } :=
      h.congr rfl
    have h₁ := hbooked.emits hemits (.report hemits.applied)
    rcases hrest with rfl | ⟨view, recordId, -, hchallenge⟩
    · exact h₁
    · exact h₁.emits hchallenge (.challenged hchallenge.applied)

theorem Underway.dispose (h : Underway prior s) {stage : PreparedStage} {d : ReviewerDisposition}
    (hdone : disposeOf viewId prior stage s d = .ok s') : Underway prior s' := by
  rcases disposeOf_cases hdone with hkeeps | ⟨recordId, note, hemits⟩
  · exact h.congr hkeeps.projected
  · exact h.emits hemits (.contested hemits.applied)

theorem Underway.reports (h : Underway prior s) {runId : String} {stage : PreparedStage}
    {l : List ((FindingReport × String) × String)}
    (hfiled : ∀ p ∈ l, ∃ e, s.store.filed.get p.1.2 = some e)
    (hdone : l.foldlM (reportUnder viewId runId prior stage) s = .ok s') : Underway prior s' :=
  reports_invariant (fun _ _ _ ht hp hone => ht.report hp hone) hfiled h hdone

/-- A stage goes on, and no challenge of it is refused. -/
theorem Underway.stage (h : Underway prior s) (hprior : prior.WellFormed)
    (hknown : prior.AuthorityKnown) (hresolve : prior.ChallengesResolve) (runId : String)
    (stage : PreparedStage) : Admits (reduceStage viewId runId prior s stage) ∧
      ∀ s', reduceStage viewId runId prior s stage = .ok s' → Underway prior s' := by
  have hdemands : ∀ s₁, stage.demands.foldlM (recordStageDemand viewId prior stage) s = .ok s₁ →
      Underway prior s₁ := fun s₁ hdone =>
    foldlM_invariant (fun _ _ _ _ ht hdemand => ht.demand hdemand) h hdone
  have hreports : ∀ {s₁ s₂ : Reduction ids} {store : ReviewStore ids} {reports : List FindingReport}
      {published : List (FindingReport × String)} {keys : List String}, Underway prior s₁ →
      publishReports stage.provenance reports s₁.store = .ok (store, published) →
      (published.zip keys).foldlM (reportUnder viewId runId prior stage)
        { s₁ with store := store } = .ok s₂ → Underway prior s₂ := by
    intro s₁ s₂ store reports published keys h₁ hpublished hdone
    have hstored : Underway prior { s₁ with store := store } := h₁.congr rfl
    refine hstored.reports (fun p hp => ?_) hdone
    exact ⟨_, (publishReports_eq_ok hpublished).2.2 p.1 (List.of_mem_zip hp).1⟩
  rw [reduceStage]
  constructor
  · refine Refuses.bind (Refuses.foldlM (I := fun _ => True) (fun _ _ _ _ _ _ => trivial)
      (fun t demand _ _ => admits_recordStageDemand stage t demand) trivial) fun s₁ h₁ => ?_
    refine (admits_stageReports stage s₁.store).bind fun reports _ => ?_
    refine (admits_publishReports _ _ _).bind ?_
    rintro ⟨store, published⟩ hpublished
    refine (admits_canonicalStageKeys _ _).bind fun keys _ => ?_
    refine Refuses.bind ?_ fun s₂ h₂ => ?_
    · intro e he
      obtain ⟨before, p, after, t, hsplit, hbefore, hlast⟩ := foldlM_error_split he
      have hstored : Underway prior { s₁ with store := store } := (hdemands s₁ h₁).congr rfl
      have ht : Underway prior t := by
        refine hstored.reports (fun q hq => ?_) hbefore
        have hmem : q ∈ published.zip keys := hsplit ▸ List.mem_append_left _ hq
        exact ⟨_, (publishReports_eq_ok hpublished).2.2 q.1 (List.of_mem_zip hmem).1⟩
      exact ht.admits_reportUnder hprior hknown hresolve runId stage p e hlast
    · exact Refuses.foldlM (I := fun _ => True) (fun _ _ _ _ _ _ => trivial)
        (fun t d _ _ => admits_disposeOf stage t d) trivial
  · intro s' hdone
    obtain ⟨s₁, h₁, hdone⟩ := bind_eq_ok.mp hdone
    obtain ⟨reports, -, hdone⟩ := bind_eq_ok.mp hdone
    obtain ⟨⟨store, published⟩, hpublished, hdone⟩ := bind_eq_ok.mp hdone
    obtain ⟨keys, -, hdone⟩ := bind_eq_ok.mp hdone
    obtain ⟨s₂, h₂, hdone⟩ := bind_eq_ok.mp hdone
    exact foldlM_invariant (fun _ _ _ _ ht hdispose => ht.dispose hdispose)
      (hreports (hdemands s₁ h₁) hpublished h₂) hdone

end Admitting

end Afactory
