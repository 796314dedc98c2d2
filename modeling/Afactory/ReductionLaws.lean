import Mathlib
import Afactory.LedgerGroups
import Afactory.ReviewReduction

/-!
# What a reduction does

Every operation of a reduction files artifacts, keeps books, or folds one event into its Ledger.

* `ReviewStore.Extends`: a store only grows while it is written to;
* `Emits`, `Keeps`: the two ways an operation goes on;
* `recordStageDemand_cases`, `reportUnder_cases`, `disposeOf_cases`: each operation;
* `canonicalStageKeys_eq_ok`, `keys_of_occurrence`: the keys of a stage.
-/

namespace Afactory

variable {ids : ReviewIds} {viewId : Finding → Option String}

/-! ## The store -/

namespace ReviewStore

variable {store store' store'' : ReviewStore ids}

/-- What is filed stays filed. -/
def Extends (store store' : ReviewStore ids) : Prop :=
  ∀ id envelope, store.filed.get id = some envelope → store'.filed.get id = some envelope

theorem Extends.refl (store : ReviewStore ids) : store.Extends store := fun _ _ h => h

theorem Extends.trans (h : store.Extends store') (h' : store'.Extends store'') :
    store.Extends store'' := fun id envelope hfiled => h' id envelope (h id envelope hfiled)

theorem extends_file {envelope : Envelope}
    (hnew : store.filed.get (ids.artifactId envelope) = none) :
    store.Extends (store.file envelope) := by
  intro id e h
  have hne : id ≠ ids.artifactId envelope := by
    rintro rfl
    rw [hnew] at h
    cases h
  exact (OrdMap.get_insert_ne _ _ hne).trans h

/-- A written artifact is there, and so is what was there before. -/
theorem put_eq_ok {envelope : Envelope} {id : String}
    (h : store.put envelope = .ok (store', id)) :
    id = ids.artifactId envelope ∧ store'.filed.get id = some envelope ∧
      store.Extends store' := by
  obtain ⟨-, -, h⟩ := bind_eq_ok.mp h
  dsimp only at h
  split at h
  case h_1 there hthere =>
    split_ifs at h with heq
    cases h
    exact ⟨rfl, heq ▸ hthere, .refl _⟩
  case h_2 hnone =>
    split at h
    · cases h
      exact ⟨rfl, OrdMap.get_insert_self _ _ _, extends_file hnone⟩
    · cases h

theorem read_contentStore {id : String} {envelope : Envelope}
    (h : store.filed.get id = some envelope) : store.contentStore.read id =
      .ok ⟨id, envelope.subjectSnapshotId, envelope.payload.projected⟩ := by
  simp only [contentStore, h]

end ReviewStore

theorem putArtifact_eq_ok {store store' : ReviewStore ids} {envelope : Envelope} {id : String}
    (h : putArtifact store envelope = .ok (store', id)) :
    id = ids.artifactId envelope ∧ store'.filed.get id = some envelope ∧
      store.Extends store' :=
  ReviewStore.put_eq_ok (mapError_eq_ok.mp h)

/-- Published reports are filed under their ids, as their stage wrote them. -/
theorem publishReports_eq_ok {p : ReportProvenance} {reports : List FindingReport}
    {store store' : ReviewStore ids} {published : List (FindingReport × String)}
    (h : publishReports p reports store = .ok (store', published)) :
    published.map Prod.fst = reports ∧ store.Extends store' ∧
      ∀ r ∈ published, store'.filed.get r.2 = some (p.envelope (.findingReport r.1)) := by
  induction reports generalizing store store' published with
  | nil =>
    cases h
    exact ⟨rfl, .refl _, nofun⟩
  | cons report rest ih =>
    obtain ⟨⟨store₁, id⟩, hput, h⟩ := bind_eq_ok.mp h
    obtain ⟨⟨store₂, others⟩, hrest, h⟩ := bind_eq_ok.mp h
    cases h
    obtain ⟨-, hfiled, hgrown⟩ := putArtifact_eq_ok hput
    obtain ⟨hreports, hgrown', hothers⟩ := ih hrest
    refine ⟨?_, hgrown.trans hgrown', List.forall_mem_cons.mpr ⟨?_, hothers⟩⟩
    · rw [List.map_cons, hreports]
    · exact hgrown' _ _ hfiled

/-! ## Events -/

namespace Ledger

variable {L L' : Ledger} {cas : ContentStore} {artifactRefs : List String}

/-- A recorded Demand is the one its artifact carries. -/
theorem apply_demandRecorded {id : String}
    (h : L.apply viewId cas (.recorded .demandRecorded id) artifactRefs = (.ok (), L')) :
    ∃ artifact demand, cas.read id = .ok artifact ∧ artifact.payload = .demand demand ∧
      L.recordDemand ⟨id, artifact.artifactId⟩ demand = .ok L' := by
  obtain ⟨artifact, hartifact, h⟩ := bind_eq_ok.mp (commit_eq_ok h)
  refine ⟨artifact, ?_⟩
  cases hpayload : artifact.payload with
  | demand demand =>
    rw [hpayload] at h
    exact ⟨demand, readRecorded_eq_ok hartifact, rfl, h⟩
  | _ =>
    rw [hpayload] at h
    cases h

/-- A contested Finding only gets the status. -/
theorem apply_contested {key : String} {round : Option ℕ} {note : Option String}
    (h : L.apply viewId cas (.findingResolved ⟨some key, some "contested", round, note⟩)
      artifactRefs = (.ok (), L')) :
    L.findings.contains key = true ∧ ∃ t, L' = L.setStatus key .contested t := by
  replace h : L.applyResolution ⟨some key, some "contested", round, note⟩ = (.ok (), L') := h
  rw [applyResolution] at h
  cases hcheck : L.checkResolved ⟨some key, some "contested", round, note⟩ with
  | error e =>
    rw [hcheck] at h
    cases h
  | ok checked =>
    rw [hcheck] at h
    obtain ⟨k, hk, hcheck⟩ := bind_eq_ok.mp hcheck
    obtain ⟨name, hname, hcheck⟩ := bind_eq_ok.mp hcheck
    cases requiredString_eq_ok hk
    cases requiredString_eq_ok hname
    obtain ⟨n, -, hcheck⟩ := bind_eq_ok.mp hcheck
    obtain ⟨⟨⟩, hknown, hcheck⟩ := bind_eq_ok.mp hcheck
    cases hcheck
    cases h
    rw [requireEvent] at hknown
    split_ifs at hknown with hcontains
    exact ⟨hcontains, _, rfl⟩

/-- A challenge contests every member of a group. -/
theorem apply_challenged {id : String}
    (h : L.apply viewId cas (.recorded .findingResolutionChallenged id) artifactRefs =
      (.ok (), L')) :
    ∃ keys t history, L' = { L.setStatuses keys .contested t with resolutionHistory := history } := by
  obtain ⟨⟨artifactId, snapshot, payload⟩, -, h⟩ := bind_eq_ok.mp (commit_eq_ok h)
  dsimp only at h
  split at h
  case h_1 => cases h
  case h_2 subject _ =>
    cases payload with
    | resolutionChallenge challenge =>
      replace h : L.applyResolutionChallenged subject ⟨id, artifactId⟩ challenge = .ok L' := h
      rw [applyResolutionChallenged] at h
      split at h
      · cases h
      · obtain ⟨_, -, h⟩ := bind_eq_ok.mp h
        obtain ⟨keys, -, h⟩ := bind_eq_ok.mp h
        cases h
        exact ⟨keys, _, _, rfl⟩
    | _ => cases h

end Ledger

/-! ## Operations -/

section Operations

variable {s s' s'' : Reduction ids} {event : ReviewEvent}

/-- Artifacts are filed; the Ledger stays. -/
structure Keeps (s s' : Reduction ids) : Prop where
  store : s.store.Extends s'.store
  projected : s'.projected = s.projected
  events : s'.events = s.events
  reports : s'.pendingReports = s.pendingReports
  occurrences : s'.pendingOccurrences = s.pendingOccurrences
  assigned : s'.assigned = s.assigned

/-- Artifacts are filed and one event about them is folded in. -/
structure Emits (viewId : Finding → Option String) (s s' : Reduction ids)
    (event : ReviewEvent) : Prop where
  store : s.store.Extends s'.store
  filed : ∀ id ∈ event.artifactRefs, ∃ e, s'.store.filed.get id = some e
  applied : s.projected.apply viewId s'.store.contentStore event.event event.artifactRefs =
    (.ok (), s'.projected)
  events : s'.events = s.events ++ [event]
  reports : s'.pendingReports = s.pendingReports
  occurrences : s'.pendingOccurrences = s.pendingOccurrences
  assigned : s'.assigned = s.assigned

theorem Keeps.refl (s : Reduction ids) : Keeps s s := ⟨.refl _, rfl, rfl, rfl, rfl, rfl⟩

/-- An event that is folded in is an accepted input. -/
theorem Emits.step (h : Emits viewId s s' event) : s.projected.step viewId
    (.event s'.store.contentStore event.event event.artifactRefs) = some s'.projected := by
  simp only [Ledger.step, Ledger.reply, h.applied]

theorem Reduction.emit_eq_ok (h : s.emit viewId event = .ok s') :
    ∃ L, s.projected.apply viewId s.store.contentStore event.event event.artifactRefs =
        (.ok (), L) ∧ s' = { s with projected := L, events := s.events ++ [event] } := by
  rw [emit] at h
  split at h
  case h_1 L hL =>
    cases h
    exact ⟨L, hL, rfl⟩
  case h_2 => cases h

/-- What is folded in after its artifact is written. -/
theorem emits_of_put {store : ReviewStore ids} {envelope : Envelope} {id : String}
    {L : Ledger} (hput : putArtifact s.store envelope = .ok (store, id))
    (hrefs : event.artifactRefs = [id])
    (happly : s.projected.apply viewId store.contentStore event.event event.artifactRefs =
      (.ok (), L)) (hprojected : s'.projected = L) (hstore : s'.store = store)
    (hevents : s'.events = s.events ++ [event]) (hreports : s'.pendingReports = s.pendingReports)
    (hoccurrences : s'.pendingOccurrences = s.pendingOccurrences)
    (hassigned : s'.assigned = s.assigned) : Emits viewId s s' event := by
  obtain ⟨-, hfiled, hgrown⟩ := putArtifact_eq_ok hput
  subst hprojected hstore
  refine ⟨hgrown, fun i hi => ?_, happly, hevents, hreports, hoccurrences, hassigned⟩
  rw [hrefs] at hi
  obtain rfl := List.mem_singleton.mp hi
  exact ⟨envelope, hfiled⟩

/-- A Demand is known, or recorded. -/
theorem recordStageDemand_cases {prior : Ledger} {stage : PreparedStage} {demand : BenchmarkDemand}
    (h : recordStageDemand viewId prior stage s demand = .ok s') :
    s' = s ∨ ∃ recordId, Emits viewId s s' ⟨.recorded .demandRecorded recordId, none,
      ids.demandId stage.source demand, [recordId]⟩ := by
  rw [recordStageDemand] at h
  dsimp only at h
  split_ifs at h with hknown
  · cases h
    exact .inl rfl
  · obtain ⟨-, -, h⟩ := bind_eq_ok.mp h
    obtain ⟨⟨store, recordId⟩, hput, h⟩ := bind_eq_ok.mp h
    obtain ⟨s₁, hemit, h⟩ := bind_eq_ok.mp h
    cases h
    obtain ⟨L, happly, rfl⟩ := Reduction.emit_eq_ok hemit
    exact .inr ⟨recordId, emits_of_put hput rfl happly rfl rfl rfl rfl rfl rfl⟩

/-- A challenge names the Resolution, the view of its Finding and the active Subject. -/
theorem challengeResolution_eq_ok {runId key reportId : String} {kind : ResolutionChallengeKind}
    {resolution : RecordedResolution}
    (h : challengeResolution viewId runId key reportId kind resolution s = .ok s') :
    ∃ view recordId, s.projected.findingView key = some view ∧
      Emits viewId s s' ⟨.recorded .findingResolutionChallenged recordId, none, view.key,
        [recordId]⟩ := by
  rw [challengeResolution] at h
  split at h
  case h_1 => cases h
  case h_2 subjectId hsubject =>
    split at h
    case h_1 => cases h
    case h_2 view hview =>
      obtain ⟨-, -, h⟩ := bind_eq_ok.mp h
      obtain ⟨⟨store, recordId⟩, hput, h⟩ := bind_eq_ok.mp h
      obtain ⟨L, happly, rfl⟩ := Reduction.emit_eq_ok h
      exact ⟨view, recordId, hview, emits_of_put hput rfl happly rfl rfl rfl rfl rfl rfl⟩

/-- The event of a report. -/
def reportEvent (prior : Ledger) (stage : PreparedStage) (key reportId : String) : ReviewEvent :=
  ⟨.findingReported ⟨some key, some stage.source, some prior.round, some reportId⟩,
    some stage.source, key, [reportId]⟩

/-- A report is kept with its key, and folded in where it is news. -/
theorem reportUnder_cases {runId : String} {prior : Ledger} {stage : PreparedStage}
    {report : FindingReport} {reportId key : String}
    (hfiled : ∃ e, s.store.filed.get reportId = some e)
    (h : reportUnder viewId runId prior stage s ((report, reportId), key) = .ok s') :
    s' = s.select stage.source report reportId key ∨
      ∃ s₁, Emits viewId { s.select stage.source report reportId key with
          pendingReports := ⟨key, stage.source, prior.round, reportId⟩ :: s.pendingReports } s₁
          (reportEvent prior stage key reportId) ∧
        (s' = s₁ ∨ ∃ view recordId, s₁.projected.findingView key = some view ∧
          Emits viewId s₁ s' ⟨.recorded .findingResolutionChallenged recordId, none, view.key,
            [recordId]⟩) := by
  rw [reportUnder] at h
  dsimp only at h
  split_ifs at h with hknown
  · cases h
    exact .inl rfl
  · obtain ⟨s₁, hemit, h⟩ := bind_eq_ok.mp h
    refine .inr ⟨s₁, ?_, ?_⟩
    · obtain ⟨L, happly, rfl⟩ := Reduction.emit_eq_ok hemit
      refine ⟨.refl _, fun id hid => ?_, happly, rfl, rfl, rfl, rfl⟩
      obtain rfl := List.mem_singleton.mp hid
      exact hfiled
    · split at h
      · split_ifs at h with hcounts
        · exact .inr (challengeResolution_eq_ok h)
        · cases h
          exact .inl rfl
      · cases h
        exact .inl rfl

/-- Every report is kept with its key, and the store only grows. -/
theorem books_of_report {runId : String} {prior : Ledger} {stage : PreparedStage} {report : FindingReport}
    {reportId key : String} (hfiled : ∃ e, s.store.filed.get reportId = some e)
    (hdone : reportUnder viewId runId prior stage s ((report, reportId), key) = .ok s') :
    s'.assigned = s.assigned ++ [(report, key)] ∧ s.store.Extends s'.store := by
  rcases reportUnder_cases hfiled hdone with rfl | ⟨s₁, hemits, rfl | ⟨view, recordId, -, hnext⟩⟩
  · exact ⟨rfl, .refl _⟩
  · exact ⟨hemits.assigned, hemits.store⟩
  · exact ⟨hnext.assigned.trans hemits.assigned, hemits.store.trans hnext.store⟩

/-- What every published report keeps, a stage's reports keep. -/
theorem reports_invariant {P : Reduction ids → Prop} {runId : String} {prior : Ledger}
    {stage : PreparedStage} {l : List ((FindingReport × String) × String)}
    (hstep : ∀ t p t', P t → (∃ e, t.store.filed.get p.1.2 = some e) →
      reportUnder viewId runId prior stage t p = .ok t' → P t')
    (hfiled : ∀ p ∈ l, ∃ e, s.store.filed.get p.1.2 = some e) (hs : P s)
    (hdone : l.foldlM (reportUnder viewId runId prior stage) s = .ok s') : P s' := by
  refine (foldlM_invariant (P := fun t => P t ∧ ∀ p ∈ l, ∃ e, t.store.filed.get p.1.2 = some e)
    ?_ ⟨hs, hfiled⟩ hdone).1
  rintro t ⟨⟨report, reportId⟩, key⟩ t' hp ⟨ht, htfiled⟩ hone
  refine ⟨hstep t _ t' ht (htfiled _ hp) hone, fun q hq => ?_⟩
  obtain ⟨e, he⟩ := htfiled q hq
  exact ⟨e, (books_of_report (htfiled _ hp) hone).2 _ _ he⟩

/-- A disposition is written, and folded in where it contests. -/
theorem disposeOf_cases {prior : Ledger} {stage : PreparedStage} {d : ReviewerDisposition}
    (h : disposeOf viewId prior stage s d = .ok s') :
    Keeps s s' ∨ ∃ recordId note, Emits viewId s s' ⟨.findingResolved ⟨some d.findingId,
      some "contested", some prior.round, some note⟩, none, d.findingId, [recordId]⟩ := by
  rw [disposeOf] at h
  dsimp only at h
  split at h
  · cases h
  · obtain ⟨-, -, h⟩ := bind_eq_ok.mp h
    obtain ⟨⟨store, recordId⟩, hput, h⟩ := bind_eq_ok.mp h
    split_ifs at h with hpassed
    · cases h
      exact .inl ⟨(putArtifact_eq_ok hput).2.2, rfl, rfl, rfl, rfl, rfl⟩
    · obtain ⟨L, happly, rfl⟩ := Reduction.emit_eq_ok h
      exact .inr ⟨recordId, _, emits_of_put hput rfl happly rfl rfl rfl rfl rfl rfl⟩

end Operations

/-! ## Keys -/

/-- A class has the key its reports name. -/
theorem classKey_eq_ok {first key : String} {candidates : List String}
    (h : classKey ids first candidates = .ok key) {c : String} (hc : c ∈ candidates) : c = key := by
  have hmem := List.mem_dedup.mpr hc
  rw [classKey] at h
  split at h
  case h_1 hnone =>
    rw [hnone] at hmem
    cases hmem
  case h_2 k hone =>
    cases h
    rw [hone] at hmem
    exact List.mem_singleton.mp hmem
  case h_3 => cases h

theorem reportCandidates_eq_ok {prior : Ledger} {pending : List (Occurrence × String)}
    {report : FindingReport × String} {candidates : List String}
    (h : reportCandidates prior pending report = .ok candidates) :
    candidates = (report.1.occurrence.bind fun o =>
      (pending.lookup o).or (prior.findingForOccurrence o)).toList ++
        report.1.relations.map Relation.target ∧
      ∀ relation ∈ report.1.relations, prior.findings.contains relation.target = true := by
  rw [reportCandidates] at h
  obtain ⟨⟨⟩, hall, h⟩ := bind_eq_ok.mp h
  cases h
  refine ⟨rfl, fun relation hrelation => ?_⟩
  have hone := forM_eq_ok.mp hall relation hrelation
  split_ifs at hone with hknown
  exact hknown

/-- The candidates of the class of an index. -/
def classCandidates (links : Links) (candidates : List (List String)) (index : ℕ) : List String :=
  (candidates.zipIdx.filter fun c => links.root c.2 = links.root index).flatMap Prod.fst

/-- The key of each index, from what its class names. -/
theorem canonicalStageKeys_eq_ok {reports : List (FindingReport × String)} {prior : Ledger}
    {pending : List (Occurrence × String)} {keys : List String}
    (h : canonicalStageKeys ids reports prior pending = .ok keys) :
    ∃ candidates, List.Forall₂ (fun r c => reportCandidates prior pending r = .ok c) reports
        candidates ∧ keys.length = reports.length ∧
      ∀ index key, keys[index]? = some key → classKey ids
        ((reports[(stageLinks reports).root index]?.map Prod.snd).getD "")
        (classCandidates (stageLinks reports) candidates index) = .ok key := by
  rw [canonicalStageKeys] at h
  obtain ⟨candidates, hcandidates, h⟩ := bind_eq_ok.mp h
  have hkeys := mapM_forall₂ h
  refine ⟨candidates, mapM_forall₂ hcandidates, ?_, fun index key hkey => ?_⟩
  · rw [← hkeys.length_eq, List.length_range]
  · obtain ⟨hlt, rfl⟩ := List.getElem?_eq_some_iff.mp hkey
    have hrange : index < (List.range reports.length).length := by
      rw [hkeys.length_eq]
      exact hlt
    have hone := hkeys.get hrange hlt
    simpa only [List.get_eq_getElem, List.getElem_range, classCandidates] using hone

theorem mem_classCandidates {links : Links} {candidates : List (List String)} {index : ℕ}
    {named : List String} {c : String} (hnamed : candidates[index]? = some named) (hc : c ∈ named) :
    c ∈ classCandidates links candidates index := by
  refine List.mem_flatMap.mpr ⟨(named, index), List.mem_filter.mpr ⟨?_, ?_⟩, hc⟩
  · exact List.mem_zipIdx_iff_getElem?.mpr hnamed
  · exact decide_eq_true rfl

section StageKeys

variable {reports : List (FindingReport × String)} {prior : Ledger}
  {pending : List (Occurrence × String)} {keys : List String}

/-- What a report names is its key. -/
theorem key_of_candidate (h : canonicalStageKeys ids reports prior pending = .ok keys) {index : ℕ}
    {r : FindingReport × String} {key : String} (hr : reports[index]? = some r)
    (hkey : keys[index]? = some key) {named : List String}
    (hnamed : reportCandidates prior pending r = .ok named) {c : String} (hc : c ∈ named) :
    c = key := by
  obtain ⟨candidates, hcandidates, -, hkeys⟩ := canonicalStageKeys_eq_ok h
  obtain ⟨hlt, rfl⟩ := List.getElem?_eq_some_iff.mp hr
  have hlt' : index < candidates.length := hcandidates.length_eq ▸ hlt
  have hone := hcandidates.get hlt hlt'
  simp only [List.get_eq_getElem] at hone
  rw [hnamed] at hone
  exact classKey_eq_ok (hkeys index key hkey)
    (mem_classCandidates (List.getElem?_eq_getElem hlt') (by rwa [← Except.ok.inj hone]))

/-- The Finding an occurrence is known to belong to is the key. -/
theorem key_of_known (h : canonicalStageKeys ids reports prior pending = .ok keys) {index : ℕ}
    {r : FindingReport × String} {key : String} (hr : reports[index]? = some r)
    (hkey : keys[index]? = some key) {o : Occurrence} (ho : r.1.occurrence = some o) {known : String}
    (hknown : (pending.lookup o).or (prior.findingForOccurrence o) = some known) :
    known = key := by
  obtain ⟨candidates, hcandidates, -, -⟩ := canonicalStageKeys_eq_ok h
  obtain ⟨hlt, rfl⟩ := List.getElem?_eq_some_iff.mp hr
  have hone := hcandidates.get hlt (hcandidates.length_eq ▸ hlt)
  refine key_of_candidate h hr hkey hone ?_
  rw [(reportCandidates_eq_ok hone).1, List.get_eq_getElem, ho, Option.bind_some, hknown]
  exact List.mem_cons_self

/-- **One occurrence, one key**, within a stage. -/
theorem keys_of_occurrence (h : canonicalStageKeys ids reports prior pending = .ok keys)
    {i j : ℕ} {r r' : FindingReport × String} {key key' : String} (hr : reports[i]? = some r)
    (hr' : reports[j]? = some r') (hkey : keys[i]? = some key) (hkey' : keys[j]? = some key')
    {o : Occurrence} (ho : r.1.occurrence = some o) (ho' : r'.1.occurrence = some o) :
    key = key' := by
  obtain ⟨candidates, -, -, hkeys⟩ := canonicalStageKeys_eq_ok h
  have hlabel : ∀ {n : ℕ} {r : FindingReport × String}, reports[n]? = some r →
      r.1.occurrence = some o → (reports.map fun r => r.1.occurrence)[n]? = some (some o) := by
    intro n r hr ho
    rw [List.getElem?_map, hr, Option.map_some, ho]
  have hroot : (stageLinks reports).root i = (stageLinks reports).root j := by
    have hlinked : (stageLinks reports).root (0 + i) = (stageLinks reports).root (0 + j) :=
      Links.root_linkFrom (hlabel hr ho) (hlabel hr' ho')
    rwa [Nat.zero_add, Nat.zero_add] at hlinked
  have hone := hkeys i key hkey
  rw [classCandidates, hroot] at hone
  exact Except.ok.inj (hone.symm.trans (hkeys j key' hkey'))

end StageKeys

end Afactory
