import Mathlib
import Afactory.LedgerConvergence
import Afactory.LedgerResolutions

/-!
# Reports only reopen

What an accepted report does to a Ledger that was reached: it is attached once, nothing of the
past is lost, and a Finding's status can only move back to work.

* `Reporting.status_revise`, `Reporting.history_revise`: one Finding;
* `view_declined`: a declined view has a declined root;
* `Reopens`: the status changes there are;
* `reports_only_reopen`: a report keeps everything else.
-/

namespace Afactory

/-! ## One Finding -/

namespace Reporting

variable (r : Reporting) (f : Finding)

/-- A report leaves a status alone, reopens a placeholder or a fixed Finding, or contests. -/
theorem status_revise : (r.revise f).status = f.status ∨
    (f.authorityDiagnostic = true ∧ (r.revise f).status = .opened) ∨
    (f.status = .fixed ∧ f.lastSeenRound < r.round ∧ (r.revise f).status = .opened) ∨
    (r.challenge.isSome = true ∧ (r.revise f).status = .contested) := by
  rw [revise]
  split_ifs with hunreadable hdiag
  · exact .inl rfl
  · exact .inr (.inl ⟨hdiag, rfl⟩)
  -- a readable report about a readable claim: one case for each kind of transition
  show (r.moved { f with lastSeenRound := r.round } (r.transitionKind f)).status = f.status ∨
    (f.authorityDiagnostic = true ∧ _) ∨ (f.status = .fixed ∧ f.lastSeenRound < r.round ∧
      (r.moved { f with lastSeenRound := r.round } (r.transitionKind f)).status = .opened) ∨
    (r.challenge.isSome = true ∧
      (r.moved { f with lastSeenRound := r.round } (r.transitionKind f)).status = .contested)
  rw [transitionKind]
  split_ifs with hchallenge hhigher hdeclined hhigher hfixed hactive
  · refine .inr (.inr (.inr ⟨hchallenge, ?_⟩))
    simp only [moved, hchallenge, if_true]
  · exact .inr (.inr (.inr ⟨hchallenge, rfl⟩))
  · refine .inl ?_
    simp only [moved, hchallenge]
    rfl
  · exact .inl rfl
  · rw [Bool.and_eq_true, decide_eq_true_eq, decide_eq_true_eq] at hfixed
    exact .inr (.inr (.inl ⟨hfixed.1, hfixed.2, rfl⟩))
  · refine .inl ?_
    simp only [moved, hchallenge]
    rfl
  · exact .inl rfl

theorem history_revise : f.history <+: (r.revise f).history := by
  rw [revise]
  split_ifs with hunreadable hdiag
  · exact List.prefix_rfl
  · exact List.prefix_append _ _
  · show f.history <+: f.history ++ _ ++ _
    rw [List.append_assoc]
    exact List.prefix_append _ _

end Reporting

namespace Ledger

variable {viewId : Finding → Option String} {L L' : Ledger}

/-! ## Challenges -/

/-- A declined view has a declined root. -/
theorem view_declined {root : String} {v : Finding} (hview : L.findingViewForRoot root = some v)
    (hdeclined : v.status.isDeclined = true) :
    ∃ g, L.findings.get root = some g ∧ g.status.isDeclined = true := by
  obtain ⟨g, aliases, hg, -, hv⟩ := findingViewForRoot_eq_some hview
  refine ⟨g, hg, ?_⟩
  split_ifs at hv with hempty
  · rw [hv] at hdeclined
    exact hdeclined
  · rw [hv] at hdeclined
    simp only [mergedView, mergedStatus] at hdeclined
    split_ifs at hdeclined
    · cases hdeclined
    · cases hdeclined
    · cases hdeclined
    · exact hdeclined

theorem isDeclined_or_fixed {s : FindingStatus} (h : s.isActive = false) :
    s.isDeclined = true ∨ s = .fixed := by
  cases s
  case fixed => exact .inr rfl
  case rejected => exact .inl rfl
  case wontfix => exact .inl rfl
  all_goals cases h

/-- A report that challenges is about a declined Finding, or about a fixed one that is grouped
into a declined one. -/
theorem challenged_status (h : L.WellFormed) {key : String} {severity : Severity}
    {kind : ResolutionChallengeKind} {f : Finding}
    (hchallenge : L.resolutionChallengeForReport key severity = some kind)
    (hf : L.findings.get key = some f) :
    f.status.isDeclined = true ∨ (f.status = .fixed ∧ ∃ root g, L.groupRoot key = some root ∧
      root ≠ key ∧ L.findings.get root = some g ∧ g.status.isDeclined = true) := by
  rw [resolutionChallengeForReport, Option.bind_eq_some_iff] at hchallenge
  obtain ⟨v, hv, hchallenge⟩ := hchallenge
  obtain ⟨root, hroot, hview⟩ := Option.bind_eq_some_iff.mp hv
  have hdeclined : v.status.isDeclined = true := by
    by_contra hno
    rw [if_pos (by simpa using hno)] at hchallenge
    cases hchallenge
  obtain ⟨g, hg, hgdeclined⟩ := view_declined hview hdeclined
  -- an active member would make the view active
  have hkept := (h.kept key f hf).key_eq
  have hmember : f ∈ L.groupMembers root :=
    h.mem_groupMembers.mpr ⟨hkept ▸ hroot, hkept ▸ hf⟩
  have hcovers := h.view_covers (h.groupRoot_root hroot).1 hview hmember
  have hinactive : f.status.isActive = false := by
    by_contra hactive
    have hview := hcovers.active (by simpa using hactive)
    revert hview hdeclined
    cases v.status <;> simp [FindingStatus.isActive, FindingStatus.isDeclined]
  rcases isDeclined_or_fixed hinactive with hf' | hfixed
  · exact .inl hf'
  · refine .inr ⟨hfixed, root, g, hroot, ?_, hg, hgdeclined⟩
    rintro rfl
    rw [hf] at hg
    cases hg
    rw [hfixed] at hgdeclined
    cases hgdeclined

theorem recordAuthorityFailure_activeScope (failure : ScopeAuthorityFailure) :
    (L.recordAuthorityFailure failure).activeScope = L.activeScope := by
  rw [recordAuthorityFailure]
  split_ifs <;> rfl

theorem prepareReport_activeScope (cas : ContentStore) (key source : String) (round : ℕ)
    (reportId : String) :
    (L.prepareReport cas key source round reportId).2.activeScope = L.activeScope := by
  have hproject : (L.projectReport cas round reportId).2.activeScope = L.activeScope := by
    rw [projectReport]
    split
    · rfl
    · exact recordAuthorityFailure_activeScope _
  have hbind : ∀ (L : Ledger) report,
      (L.bindSnapshot round reportId report).2.activeScope = L.activeScope := by
    intro L report
    rw [bindSnapshot]
    split
    · split_ifs
      · exact recordAuthorityFailure_activeScope _
      · rfl
    · rfl
  have hscope : ∀ (L : Ledger) location,
      (L.reportScope round location).2.activeScope = L.activeScope := by
    intro L location
    rw [reportScope]
    split
    · rfl
    · split_ifs
      · exact recordAuthorityFailure_activeScope _
      · split
        · rfl
        · rfl
        · rfl
        · rfl
        · split <;> rfl
  exact (hscope _ _).trans ((hbind _ _).trans hproject)

/-- Whether a report challenges is decided by the core and the active Subject. -/
theorem challenge_congr (hsame : SameCore L L') (hscope : L'.activeScope = L.activeScope)
    (key : String) (severity : Severity) :
    L'.resolutionChallengeForReport key severity = L.resolutionChallengeForReport key severity := by
  have hroot : ∀ key, L'.groupRoot key = L.groupRoot key := by
    intro key
    rw [groupRoot, groupRoot, hsame.findings, hsame.groupings]
  have hforRoot : ∀ root, L'.findingViewForRoot root = L.findingViewForRoot root := by
    intro root
    have hmembers : L'.groupMembers root = L.groupMembers root := by
      rw [groupMembers, groupMembers, hsame.order, hsame.findings, funext hroot]
    rw [findingViewForRoot, findingViewForRoot, hmembers, hsame.findings]
  have hview : L'.findingView key = L.findingView key := by
    rw [findingView, findingView, hroot, funext hforRoot]
  have hresolution : L'.resolution key = L.resolution key := by
    rw [resolution, resolution, hsame.authority, hsame.resolutions]
  have hsubject : L'.activeSubjectId = L.activeSubjectId := by
    rw [activeSubjectId, activeSubjectId, hscope]
  rw [resolutionChallengeForReport, resolutionChallengeForReport, hview, hresolution, hsubject]

/-- The challenge a report carries, in terms of the Ledger it was made in. -/
theorem prepareReport_challenge {cas : ContentStore} {key source : String} {round : ℕ}
    {reportId : String} {kind : ResolutionChallengeKind}
    (h : (L.prepareReport cas key source round reportId).1.challenge = some kind) :
    (L.prepareReport cas key source round reportId).1.attached.scope ≠ some .outside ∧
      L.resolutionChallengeForReport key
        (L.prepareReport cas key source round reportId).1.attached.severity = some kind := by
  rw [← challenge_congr (sameCore_prepareReport cas key source round reportId)
    (prepareReport_activeScope cas key source round reportId)]
  have hcases : ∀ (scope : Option ReportScope) (M : Ledger) (severity : Severity),
      (if scope ≠ some .outside then M.resolutionChallengeForReport key severity else none) =
        some kind →
      scope ≠ some .outside ∧ M.resolutionChallengeForReport key severity = some kind := by
    intro scope M severity h
    split_ifs at h with hscope
    exact ⟨hscope, h⟩
  exact hcases _ _ _ h

/-! ## The Ledger -/

/-- The status changes an accepted report may make to the Finding it names. -/
inductive Reopens (L : Ledger) (key : String) (report : AttachedReport) (f f' : Finding) : Prop where
  /-- a fixed Finding is reported again in a later Round -/
  | fixed (hstatus : f.status = .fixed) (hlater : f.lastSeenRound < report.round)
    (hopened : f'.status = .opened)
  /-- a placeholder gets its first readable report -/
  | diagnostic (hdiagnostic : f.authorityDiagnostic = true) (hopened : f'.status = .opened)
  /-- an admissible challenge: the Finding is declined, or fixed and grouped into a declined one -/
  | challenged (kind : ResolutionChallengeKind)
    (hscope : report.scope ≠ some .outside)
    (hchallenge : L.resolutionChallengeForReport key report.severity = some kind)
    (hstatus : f.status.isDeclined = true ∨ (f.status = .fixed ∧ ∃ root g,
      L.groupRoot key = some root ∧ root ≠ key ∧ L.findings.get root = some g ∧
        g.status.isDeclined = true))
    (hcontested : f'.status = .contested)

/-- What is left after a report of all that was there before. -/
structure OnlyReopens (L L' : Ledger) (key : String) (report : AttachedReport) : Prop where
  /-- the report is attached to the Finding it names, after the reports before -/
  attached : ∃ f', L'.findings.get key = some f' ∧ f'.reports =
    ((L.findings.get key).elim [] Finding.reports) ++ [report]
  /-- no other Finding gets it, or changes at all -/
  others : ∀ k, k ≠ key → L'.findings.get k = L.findings.get k
  /-- nothing is lost, and only a status away from work changes -/
  kept : ∀ k f, L.findings.get k = some f → ∃ f', L'.findings.get k = some f' ∧
    f.history <+: f'.history ∧ f.reports <+: f'.reports ∧
    (f.status.isActive = true → f'.status.isActive = true) ∧
    (f'.status = f.status ∨ (k = key ∧ Reopens L key report f f'))

theorem get_attachReport_ne {key k : String} (hk : k ≠ key) (r : Reporting) :
    (L.attachReport key r).findings.get k = L.findings.get k := by
  rw [attachReport]
  split <;> exact OrdMap.get_insert_ne _ _ hk

theorem get_attachReport_known {key : String} {f : Finding} (hf : L.findings.get key = some f)
    (r : Reporting) : (L.attachReport key r).findings.get key = some (r.revise f) := by
  rw [attachReport, hf]
  exact OrdMap.get_insert_self _ _ _

theorem get_attachReport_new {key : String} (hf : L.findings.get key = none) (r : Reporting) :
    (L.attachReport key r).findings.get key = some (r.opened key) := by
  rw [attachReport, hf]
  exact OrdMap.get_insert_self _ _ _

/-- The status of the Finding a report names. -/
theorem reopens_revise (h : L.WellFormed) {key : String} {r : Reporting} {f : Finding}
    (hchallenge : ∀ kind, r.challenge = some kind → r.attached.scope ≠ some .outside ∧
      L.resolutionChallengeForReport key r.attached.severity = some kind)
    (hf : L.findings.get key = some f) :
    (r.revise f).status = f.status ∨ Reopens L key r.attached f (r.revise f) := by
  rcases r.status_revise f with hsame | ⟨hdiag, hopened⟩ | ⟨hfixed, hlater, hopened⟩ |
    ⟨hsome, hcontested⟩
  · exact .inl hsame
  · exact .inr (.diagnostic hdiag hopened)
  · exact .inr (.fixed hfixed hlater hopened)
  · obtain ⟨kind, hkind⟩ := Option.isSome_iff_exists.mp hsome
    obtain ⟨hscope, hadmissible⟩ := hchallenge kind hkind
    exact .inr (.challenged kind hscope hadmissible (challenged_status h hadmissible hf)
      hcontested)

theorem Reopens.active {key : String} {report : AttachedReport} {f f' : Finding}
    (h : Reopens L key report f f') : f'.status.isActive = true := by
  cases h with
  | fixed _ _ hopened => rw [hopened]; rfl
  | diagnostic _ hopened => rw [hopened]; rfl
  | challenged _ _ _ _ hcontested => rw [hcontested]; rfl

/-- Attaching a report keeps everything but what it reopens. -/
theorem onlyReopens_attach (h : L.WellFormed) {M : Ledger} (hsame : SameCore L M) {key : String}
    {r : Reporting}
    (hchallenge : ∀ kind, r.challenge = some kind → r.attached.scope ≠ some .outside ∧
      L.resolutionChallengeForReport key r.attached.severity = some kind) :
    OnlyReopens L (M.attachReport key r) key r.attached where
  attached := by
    cases hf : L.findings.get key with
    | none => exact ⟨_, get_attachReport_new (hsame.findings ▸ hf) r, rfl⟩
    | some f =>
      exact ⟨_, get_attachReport_known (hsame.findings ▸ hf) r, r.reports_revise f⟩
  others := by
    intro k hk
    rw [get_attachReport_ne hk, hsame.findings]
  kept := by
    intro k f hf
    by_cases hk : k = key
    · subst hk
      have hstatus := reopens_revise h hchallenge hf
      refine ⟨_, get_attachReport_known (hsame.findings ▸ hf) r, r.history_revise f, ?_, ?_, ?_⟩
      · rw [r.reports_revise]
        exact List.prefix_append _ _
      · intro hactive
        rcases hstatus with hsame | hreopens
        · rw [hsame]
          exact hactive
        · exact hreopens.active
      · exact hstatus.imp_right fun hreopens => ⟨rfl, hreopens⟩
    · refine ⟨f, ?_, List.prefix_rfl, List.prefix_rfl, id, .inl rfl⟩
      rw [get_attachReport_ne hk, hsame.findings, hf]

/-- **Reports only reopen.** An accepted report is attached once to the Finding it names, no
history and no report is lost, no active Finding leaves work, and a status changes only as
`Reopens` says. -/
theorem reports_only_reopen {policy : String} {round : ℕ} {inputs : List LedgerInput}
    (hrun : run (step viewId) (start policy round) inputs = some L) {cas : ContentStore}
    {payload : FindingReported} {artifactRefs : List String}
    (happly : L.apply viewId cas (.findingReported payload) artifactRefs = (.ok (), L')) :
    ∃ key report, payload.key = some key ∧ artifactRefs = [report.reportId] ∧
      payload.round = some report.round ∧ OnlyReopens L L' key report := by
  have h := WellFormed.run hrun
  replace happly : L.applyReport cas payload artifactRefs = (.ok (), L') := happly
  obtain ⟨key, source, round, reportId, hkey, -, hround, hrefs, rfl⟩ := applyReport_eq_ok happly
  exact ⟨key, (L.prepareReport cas key source round reportId).1.attached, hkey, hrefs, hround,
    onlyReopens_attach h (sameCore_prepareReport cas key source round reportId)
      fun kind hkind => prepareReport_challenge hkind⟩

end Ledger

/-! ## A fixed alias -/

/-- Two reports, a fix of one Finding with its verification and Resolution, a rejection of the
other, and a grouping of the first into the second. -/
def sampleFixStore : ContentStore where
  read
    | "report" => sampleStore.read "report"
    | "attestation" => .ok ⟨"attestation", some "head", .changeAttestation
        ⟨"key", "key+", "subject", none, "took the lock"⟩⟩
    | "verification" => .ok ⟨"verification", some "head", .fixVerification
        ⟨"key", "attestation", "key++", "subject", true⟩⟩
    | "fixed" => .ok ⟨"fixed", some "head", .findingResolution
        ⟨"key", "key++", "subject", .fixed "verification", "verified"⟩⟩
    | "rejected" => .ok ⟨"rejected", some "head", .findingResolution
        ⟨"into", "into+", "subject", .rejected, "by design"⟩⟩
    | "group" => .ok ⟨"group", none, .grouping ⟨"key", "into", .group⟩⟩
    | id => .error ("missing object " ++ id)
  verify _ := .ok ()
  resolveSubjectScope _ := .ok ⟨⟨.wholeTree, none, "head"⟩, none⟩
  manifestPolicy _ := .ok canonicalFindingIdentityPolicy

/-- A fixed Finding grouped into a rejected one, and a Round on another Subject. -/
def sampleFixedAlias : List LedgerInput := [
  .event sampleFixStore (.roundStarted ⟨1, "subject"⟩) [],
  sampleReported "into" "reviewer",
  sampleReported "key" "reviewer",
  .event sampleFixStore (.recorded .changeAttested "attestation") ["attestation"],
  .event sampleFixStore (.recorded .fixVerified "verification") ["verification"],
  .event sampleFixStore (.recorded .findingResolutionRecorded "fixed") ["fixed"],
  .event sampleFixStore (.recorded .findingResolutionRecorded "rejected") ["rejected"],
  .event sampleFixStore (.findingsGrouped .group ⟨"key", "into", "group"⟩) ["group"],
  .event sampleFixStore (.generationAdvanced (some 2)) [],
  .event sampleFixStore (.roundStarted ⟨2, "later"⟩) []]

/-- The report of the fixed alias in the later Round. -/
def sampleAliasReport : FindingReported := ⟨some "key", some "reviewer", some 2, some "report"⟩

namespace Ledger

variable {viewId : Finding → Option String} {L L' : Ledger}

theorem reply_of_step {input : LedgerInput} (h : L.step viewId input = some L') :
    L.reply viewId input = (.ok (), L') := by
  rw [step] at h
  split at h
  case h_1 M hreply =>
    cases h
    exact hreply
  case h_2 => cases h

/-- The challenge of a declined group contests a member that was fixed, not declined. -/
theorem fixed_alias_contested : ∃ L f L' f',
    run (step sampleViewId) (start canonicalFindingIdentityPolicy 1) sampleFixedAlias = some L ∧
      L.findings.get "key" = some f ∧ f.status = .fixed ∧ f.authorityDiagnostic = false ∧
      L.apply sampleViewId sampleFixStore (.findingReported sampleAliasReport) ["report"] =
        (.ok (), L') ∧
      L'.findings.get "key" = some f' ∧ f'.status = .contested := by
  have hrun : ∃ L ∈ run (step sampleViewId) (start canonicalFindingIdentityPolicy 1)
      sampleFixedAlias, ∃ f ∈ L.findings.get "key",
        f.status = .fixed ∧ f.authorityDiagnostic = false ∧
        ∃ L' ∈ L.step sampleViewId (.event sampleFixStore (.findingReported sampleAliasReport)
          ["report"]), ∃ f' ∈ L'.findings.get "key", f'.status = .contested := by decide
  obtain ⟨L, hrun, f, hf, hfixed, hreadable, L', hstep, f', hf', hcontested⟩ := hrun
  exact ⟨L, f, L', f', hrun, hf, hfixed, hreadable, reply_of_step hstep, hf', hcontested⟩

/-- The report of the alias attaches and contests as `Reopens` says. -/
theorem reports_only_reopen_alias : ∃ L L' report,
    run (step sampleViewId) (start canonicalFindingIdentityPolicy 1) sampleFixedAlias = some L ∧
      L.apply sampleViewId sampleFixStore (.findingReported sampleAliasReport) ["report"] =
        (.ok (), L') ∧ report.reportId = "report" ∧ OnlyReopens L L' "key" report := by
  have hrun : ∃ L ∈ run (step sampleViewId) (start canonicalFindingIdentityPolicy 1)
      sampleFixedAlias, (L.step sampleViewId (.event sampleFixStore
        (.findingReported sampleAliasReport) ["report"])).isSome = true := by decide
  obtain ⟨L, hrun, hsome⟩ := hrun
  obtain ⟨L', hstep⟩ := Option.isSome_iff_exists.mp hsome
  have happly : L.apply sampleViewId sampleFixStore (.findingReported sampleAliasReport)
      ["report"] = (.ok (), L') := reply_of_step hstep
  obtain ⟨key, report, hkey, hrefs, -, honly⟩ := reports_only_reopen hrun happly
  cases hkey
  exact ⟨L, L', report, hrun, happly, (List.singleton_inj.mp hrefs).symm, honly⟩

end Ledger

end Afactory
