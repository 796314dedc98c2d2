import Mathlib
import Afactory.ReductionReplay

/-!
# One occurrence, one Finding

A rule names an occurrence of what it finds. Whatever reviewers report, reductions attach the
reports of one occurrence to one Finding.

* `Ledger.Occurs`: a Finding has a report of an occurrence;
* `Settled`: the books of a reduction, while it goes on;
* `Settled.reportUnder`: one report, under the key of its class;
* `one_finding`: every Ledger that reductions reach.
-/

namespace Afactory

variable {ids : ReviewIds} {viewId : Finding → Option String}

/-! ## Occurrences of a Ledger -/

namespace Ledger

variable {L L' : Ledger} {o : Occurrence} {key key' : String}

/-- The Finding has a report of the occurrence. -/
def Occurs (L : Ledger) (o : Occurrence) (key : String) : Prop :=
  ∃ r ∈ L.attachedTo key, r.occurrence = some o

theorem occurs_iff : L.Occurs o key ↔ ∃ f, L.findings.get key = some f ∧
    (f.reports.any fun r => r.occurrence = some o) = true := by
  rw [Occurs, attachedTo]
  cases hf : L.findings.get key with
  | none => simp
  | some f => simp

/-- No occurrence belongs to two Findings. -/
def OneFinding (L : Ledger) : Prop :=
  ∀ o key key', L.Occurs o key → L.Occurs o key' → key = key'

/-- The answer for an occurrence is exact where no occurrence belongs to two Findings. -/
theorem findingForOccurrence_eq_some (h : L.WellFormed) (hone : L.OneFinding) :
    L.findingForOccurrence o = some key ↔ L.Occurs o key := by
  have hnodup : L.findings.values.Nodup := by
    refine List.Nodup.of_map Finding.key ?_
    have hkeys : L.findings.values.map Finding.key = L.findings.keys := by
      rw [OrdMap.values, OrdMap.keys, List.map_map]
      refine List.map_congr_left fun p hp => ?_
      exact (h.kept p.1 p.2 (OrdMap.mem_iff_get.mp hp)).key_eq
    rw [hkeys]
    exact L.findings.keys_nodup
  have hmem : ∀ f, f ∈ L.findings.values.filter (fun f => f.reports.any fun r =>
      r.occurrence = some o) → L.findings.get f.key = some f ∧ L.Occurs o f.key := by
    intro f hf
    obtain ⟨hvalue, hany⟩ := List.mem_filter.mp hf
    obtain ⟨k, hk⟩ := OrdMap.mem_values_iff.mp hvalue
    rw [(h.kept k f hk).key_eq]
    exact ⟨hk, occurs_iff.mpr ⟨f, hk, hany⟩⟩
  rw [findingForOccurrence]
  constructor
  · intro hfound
    split at hfound
    case h_1 f hf =>
      cases hfound
      exact (hmem f (hf ▸ List.mem_singleton.mpr rfl)).2
    case h_2 => cases hfound
  · intro hoccurs
    obtain ⟨f, hf, hany⟩ := occurs_iff.mp hoccurs
    have hkey : f.key = key := (h.kept key f hf).key_eq
    have hsingle : (L.findings.values.filter fun f => f.reports.any fun r =>
        r.occurrence = some o) = [f] := by
      refine List.perm_singleton.mp ((List.perm_ext_iff_of_nodup (hnodup.filter _)
        (List.nodup_singleton f)).mpr fun g => ?_)
      rw [List.mem_singleton]
      constructor
      · intro hg
        obtain ⟨hget, hg⟩ := hmem g hg
        rw [hone o g.key key hg hoccurs, hf] at hget
        exact (Option.some.inj hget).symm
      · rintro rfl
        exact List.mem_filter.mpr ⟨OrdMap.mem_values_iff.mpr ⟨key, hf⟩, hany⟩
    simp only [hsingle, hkey]

/-- Only a report brings an occurrence. -/
theorem occurs_step {input : LedgerInput} (hstep : L.step viewId input = some L')
    (hreport : input.reported = none) : L'.Occurs o key ↔ L.Occurs o key := by
  rcases attachedTo_step hstep with ⟨-, hkept⟩ | ⟨k, report, hsome, -⟩
  · rw [Occurs, hkept, Occurs]
  · rw [hreport] at hsome
    cases hsome

/-- A readable report is attached with what it says of its rule and its occurrence. -/
theorem prepareReport_occurrence {cas : ContentStore} {source reportId : String} {round : ℕ}
    {snapshot : Option String} {report : FindingReport}
    (hread : cas.read reportId = .ok ⟨reportId, snapshot, .findingReport report⟩) :
    (L.prepareReport cas key source round reportId).1.attached.occurrence = report.occurrence := by
  have hproject : (L.projectReport cas round reportId).1.ruleId = report.ruleId ∧
      (L.projectReport cas round reportId).1.occurrenceKey = report.occurrenceKey := by
    simp only [projectReport, hread, ReportProjection.fromArtifact, and_self]
  have hbind : ∀ (L : Ledger) (r : ReportProjection),
      (L.bindSnapshot round reportId r).1.ruleId = r.ruleId ∧
        (L.bindSnapshot round reportId r).1.occurrenceKey = r.occurrenceKey := by
    intro L r
    rw [bindSnapshot]
    split
    · split_ifs <;> exact ⟨rfl, rfl⟩
    · exact ⟨rfl, rfl⟩
  have hselect : ∀ (r : ReportProjection) selected,
      (r.selectLocation selected).ruleId = r.ruleId ∧
        (r.selectLocation selected).occurrenceKey = r.occurrenceKey := by
    intro r selected
    unfold ReportProjection.selectLocation
    constructor
    · split
      · split <;> rfl
      · rfl
    · split
      · split <;> rfl
      · rfl
  have hrule : (L.prepareReport cas key source round reportId).1.attached.ruleId =
      report.ruleId := (hselect _ _).1.trans ((hbind _ _).1.trans hproject.1)
  have hkey : (L.prepareReport cas key source round reportId).1.attached.occurrenceKey =
      report.occurrenceKey := (hselect _ _).2.trans ((hbind _ _).2.trans hproject.2)
  rw [AttachedReport.occurrence, FindingReport.occurrence, hrule, hkey]

/-- An accepted readable report brings its own occurrence to the Finding it names. -/
theorem occurs_report {cas : ContentStore} {payload : FindingReported} {artifactRefs : List String}
    (happly : L.apply viewId cas (.findingReported payload) artifactRefs = (.ok (), L'))
    (hkey : payload.key = some key) {reportId : String} (hrefs : artifactRefs = [reportId])
    {snapshot : Option String} {report : FindingReport}
    (hread : cas.read reportId = .ok ⟨reportId, snapshot, .findingReport report⟩)
    (h : L'.Occurs o key') : L.Occurs o key' ∨ (key' = key ∧ report.occurrence = some o) := by
  replace happly : L.applyReport cas payload artifactRefs = (.ok (), L') := happly
  obtain ⟨k, source, round, id, hk, -, -, hid, rfl⟩ := applyReport_eq_ok happly
  obtain rfl : k = key := Option.some.inj (hk.symm.trans hkey)
  obtain rfl : id = reportId := List.singleton_inj.mp (hid.symm.trans hrefs)
  obtain ⟨r, hr, ho⟩ := h
  rw [attachedTo_attachReport, attachedTo_congr (sameCore_prepareReport ..).findings,
    List.mem_append] at hr
  rcases hr with hold | hnew
  · exact .inl ⟨r, hold, ho⟩
  · split_ifs at hnew with heq
    · obtain rfl := List.mem_singleton.mp hnew
      exact .inr ⟨heq, (prepareReport_occurrence hread).symm.trans ho⟩
    · cases hnew

end Ledger

/-! ## The books of a reduction -/

section Settling

variable {prior : Ledger} {s s' : Reduction ids} {event : ReviewEvent} {o : Occurrence}

/-- The Finding has the occurrence from before, or was given it by this reduction. -/
def Takes (prior : Ledger) (s : Reduction ids) (o : Occurrence) (key : String) : Prop :=
  prior.Occurs o key ∨ ∃ p ∈ s.assigned, p.1.occurrence = some o ∧ p.2 = key

/-- The pending occurrences are what the reports so far were given, and agree with what the
Ledger had before. -/
structure Settled (prior : Ledger) (s : Reduction ids) : Prop where
  occurs : ∀ o key, s.projected.Occurs o key → Takes prior s o key
  unique : ∀ o key key', Takes prior s o key → Takes prior s o key' → key = key'
  pending : ∀ o key, s.pendingOccurrences.lookup o = some key → Takes prior s o key
  kept : ∀ p ∈ s.assigned, ∀ o, p.1.occurrence = some o →
    ∃ key, s.pendingOccurrences.lookup o = some key

theorem takes_congr (hassigned : s'.assigned = s.assigned) {key : String} :
    Takes prior s' o key ↔ Takes prior s o key := by
  rw [Takes, Takes, hassigned]

namespace Settled

/-- What leaves the assignments alone, and brings the Ledger no occurrence of its own. -/
theorem congr (h : Settled prior s) (hassigned : s'.assigned = s.assigned)
    (hpending : s'.pendingOccurrences = s.pendingOccurrences)
    (hoccurs : ∀ o key, s'.projected.Occurs o key → Takes prior s o key) : Settled prior s' where
  occurs o key ho := (takes_congr hassigned).mpr (hoccurs o key ho)
  unique o key key' hk hk' :=
    h.unique o key key' ((takes_congr hassigned).mp hk) ((takes_congr hassigned).mp hk')
  pending o key hlookup := (takes_congr hassigned).mpr (h.pending o key (hpending ▸ hlookup))
  kept p hp o ho := hpending ▸ h.kept p (hassigned ▸ hp) o ho

theorem keeps (h : Settled prior s) (hkeeps : Keeps s s') : Settled prior s' :=
  h.congr hkeeps.assigned hkeeps.occurrences fun o key ho => h.occurs o key (hkeeps.projected ▸ ho)

/-- An event that is no report brings no occurrence. -/
theorem emits (h : Settled prior s) (hemits : Emits viewId s s' event)
    (hreport : ∀ cas refs, (LedgerInput.event cas event.event refs).reported = none) :
    Settled prior s' :=
  h.congr hemits.assigned hemits.occurrences fun o key ho =>
    h.occurs o key ((Ledger.occurs_step hemits.step (hreport _ _)).mp ho)

/-- A report under a key that fits what its occurrence belongs to. -/
theorem select (h : Settled prior s) {source reportId key : String} {report : FindingReport}
    (hfits : ∀ o, report.occurrence = some o → ∀ key', Takes prior s o key' → key' = key) :
    Settled prior (s.select source report reportId key) := by
  have htakes : ∀ o key', Takes prior (s.select source report reportId key) o key' →
      Takes prior s o key' ∨ (report.occurrence = some o ∧ key' = key) := by
    rintro o key' (hprior | ⟨p, hp, ho, hk⟩)
    · exact .inl (.inl hprior)
    · rcases List.mem_append.mp hp with hp | hp
      · exact .inl (.inr ⟨p, hp, ho, hk⟩)
      · obtain rfl := List.mem_singleton.mp hp
        exact .inr ⟨ho, hk.symm⟩
  have hmono : ∀ {o key'}, Takes prior s o key' →
      Takes prior (s.select source report reportId key) o key' := by
    rintro o key' (hprior | ⟨p, hp, ho⟩)
    · exact .inl hprior
    · exact .inr ⟨p, List.mem_append_left _ hp, ho⟩
  have hlookup : ∀ o, (s.select source report reportId key).pendingOccurrences.lookup o =
      if report.occurrence = some o then some key else s.pendingOccurrences.lookup o := by
    intro o
    cases hreport : report.occurrence with
    | none => simp [Reduction.select, hreport]
    | some o' =>
      by_cases heq : o = o'
      · simp [Reduction.select, hreport, heq]
      · simp [Reduction.select, hreport, List.lookup_cons, beq_eq_false_iff_ne.mpr heq,
          Ne.symm heq]
  refine ⟨fun o key' ho => hmono (h.occurs o key' ho), ?_, ?_, ?_⟩
  · intro o k k' hk hk'
    rcases htakes o k hk with hold | ⟨ho, rfl⟩
    · rcases htakes o k' hk' with hold' | ⟨ho, rfl⟩
      · exact h.unique o k k' hold hold'
      · exact hfits o ho k hold
    · rcases htakes o k' hk' with hold' | ⟨-, rfl⟩
      · exact (hfits o ho k' hold').symm
      · rfl
  · intro o k hk
    rw [hlookup] at hk
    split_ifs at hk with ho
    · cases hk
      exact .inr ⟨(report, key), List.mem_append_right _ (List.mem_singleton.mpr rfl), ho, rfl⟩
    · exact hmono (h.pending o k hk)
  · intro p hp o ho
    rw [hlookup]
    split_ifs with hnew
    · exact ⟨key, rfl⟩
    · rcases List.mem_append.mp hp with hp | hp
      · exact h.kept p hp o ho
      · obtain rfl := List.mem_singleton.mp hp
        exact absurd ho hnew

/-- The event of a report whose occurrence its key was given. -/
theorem reported (h : Settled prior s) {stage : PreparedStage} {round : Ledger}
    {key reportId : String} (hemits : Emits viewId s s' (reportEvent round stage key reportId))
    {report : FindingReport} {p : ReportProvenance}
    (hfiled : s'.store.filed.get reportId = some (p.envelope (.findingReport report)))
    (htakes : ∀ o, report.occurrence = some o → Takes prior s o key) : Settled prior s' := by
  refine h.congr hemits.assigned hemits.occurrences fun o key' ho => ?_
  rcases Ledger.occurs_report hemits.applied rfl rfl (ReviewStore.read_contentStore hfiled) ho with
    hold | ⟨rfl, hoccurrence⟩
  · exact h.occurs o key' hold
  · exact htakes o hoccurrence

/-- **One report** under a key that fits. -/
theorem reportUnder (h : Settled prior s) {runId : String} {stage : PreparedStage}
    {report : FindingReport} {reportId key : String}
    (hfiled : s.store.filed.get reportId = some (stage.provenance.envelope (.findingReport report)))
    (hfits : ∀ o, report.occurrence = some o → ∀ key', Takes prior s o key' → key' = key)
    (hdone : Afactory.reportUnder viewId runId prior stage s ((report, reportId), key) = .ok s') :
    Settled prior s' := by
  have hselected : Settled prior (s.select stage.source report reportId key) := h.select hfits
  rcases reportUnder_cases ⟨_, hfiled⟩ hdone with rfl | ⟨s₁, hemits, hrest⟩
  · exact hselected
  · have hbooked : Settled prior { s.select stage.source report reportId key with
        pendingReports := ⟨key, stage.source, prior.round, reportId⟩ :: s.pendingReports } :=
      hselected.congr rfl rfl hselected.occurs
    have hreported : Settled prior s₁ := by
      refine hbooked.reported hemits (hemits.store _ _ hfiled) fun o ho => ?_
      exact .inr ⟨(report, key), List.mem_append_right _ (List.mem_singleton.mpr rfl), ho, rfl⟩
    rcases hrest with rfl | ⟨view, recordId, -, hchallenge⟩
    · exact hreported
    · exact hreported.emits hchallenge fun _ _ => rfl

/-- The reports of a stage, whose keys fit before and agree with each other. -/
theorem reports (h : Settled prior s) {runId : String} {stage : PreparedStage}
    {l : List ((FindingReport × String) × String)}
    (hfiled : ∀ p ∈ l,
      s.store.filed.get p.1.2 = some (stage.provenance.envelope (.findingReport p.1.1)))
    (hfits : ∀ p ∈ l, ∀ o, p.1.1.occurrence = some o → ∀ key, Takes prior s o key → key = p.2)
    (hagree : ∀ p ∈ l, ∀ q ∈ l, ∀ o, p.1.1.occurrence = some o → q.1.1.occurrence = some o →
      p.2 = q.2)
    (hdone : l.foldlM (Afactory.reportUnder viewId runId prior stage) s = .ok s') :
    Settled prior s' := by
  induction l generalizing s with
  | nil =>
    cases hdone
    exact h
  | cons p l ih =>
    rw [List.foldlM_cons] at hdone
    obtain ⟨s₁, hone, hrest⟩ := bind_eq_ok.mp hdone
    obtain ⟨⟨report, reportId⟩, key⟩ := p
    have hhere := hfiled _ List.mem_cons_self
    obtain ⟨hassigned, hgrown⟩ := books_of_report ⟨_, hhere⟩ hone
    refine ih (h.reportUnder hhere (hfits _ List.mem_cons_self) hone) ?_ ?_ ?_ hrest
    · intro q hq
      exact hgrown _ _ (hfiled q (List.mem_cons_of_mem _ hq))
    · rintro q hq o ho k (hprior | ⟨a, ha, hao, hak⟩)
      · exact hfits q (List.mem_cons_of_mem _ hq) o ho k (.inl hprior)
      · rw [hassigned] at ha
        rcases List.mem_append.mp ha with ha | ha
        · exact hfits q (List.mem_cons_of_mem _ hq) o ho k (.inr ⟨a, ha, hao, hak⟩)
        · obtain rfl := List.mem_singleton.mp ha
          rw [← hak]
          exact hagree _ List.mem_cons_self q (List.mem_cons_of_mem _ hq) o hao ho
    · intro q hq q' hq'
      exact hagree q (List.mem_cons_of_mem _ hq) q' (List.mem_cons_of_mem _ hq')

/-- The keys of a stage fit what occurrences belong to. -/
theorem fits (h : Settled prior s) (hprior : prior.WellFormed)
    {published : List (FindingReport × String)} {keys : List String}
    (hkeys : canonicalStageKeys ids published prior s.pendingOccurrences = .ok keys) :
    ∀ p ∈ published.zip keys, ∀ o, p.1.1.occurrence = some o → ∀ key, Takes prior s o key →
      key = p.2 := by
  intro p hp o ho key htakes
  obtain ⟨i, hi⟩ := List.mem_iff_getElem?.mp hp
  obtain ⟨hr, hk⟩ := List.getElem?_zip_eq_some.mp hi
  cases hlookup : s.pendingOccurrences.lookup o with
  | some k =>
    rw [h.unique o key k htakes (h.pending o k hlookup)]
    exact key_of_known hkeys hr hk ho (by rw [hlookup, Option.some_or])
  | none =>
    rcases htakes with hoccurs | ⟨a, ha, hao, -⟩
    · have hone : prior.OneFinding := fun o k k' hk hk' => h.unique o k k' (.inl hk) (.inl hk')
      refine key_of_known hkeys hr hk ho ?_
      rw [hlookup, Option.none_or, Ledger.findingForOccurrence_eq_some hprior hone]
      exact hoccurs
    · obtain ⟨k, hk⟩ := h.kept a ha o hao
      rw [hlookup] at hk
      cases hk

/-- **One stage.** -/
theorem stage (h : Settled prior s) (hprior : prior.WellFormed) {runId : String}
    {stage : PreparedStage} (hdone : reduceStage viewId runId prior s stage = .ok s') :
    Settled prior s' := by
  rw [reduceStage] at hdone
  obtain ⟨s₁, hdemands, hdone⟩ := bind_eq_ok.mp hdone
  obtain ⟨reports, -, hdone⟩ := bind_eq_ok.mp hdone
  obtain ⟨⟨store, published⟩, hpublished, hdone⟩ := bind_eq_ok.mp hdone
  obtain ⟨keys, hkeys, hdone⟩ := bind_eq_ok.mp hdone
  obtain ⟨s₂, hreports, hdone⟩ := bind_eq_ok.mp hdone
  have h₁ : Settled prior s₁ := by
    refine foldlM_invariant (fun t demand t' _ ht hdemand => ?_) h hdemands
    rcases recordStageDemand_cases hdemand with rfl | ⟨recordId, hemits⟩
    · exact ht
    · exact ht.emits hemits fun _ _ => rfl
  have h₂ : Settled prior s₂ := by
    have hstored : Settled prior { s₁ with store := store } := h₁.congr rfl rfl h₁.occurs
    refine hstored.reports ?_ ?_ ?_ hreports
    · intro p hp
      exact (publishReports_eq_ok hpublished).2.2 p.1 (List.of_mem_zip hp).1
    · exact h₁.fits hprior hkeys
    · intro p hp q hq o ho ho'
      obtain ⟨i, hi⟩ := List.mem_iff_getElem?.mp hp
      obtain ⟨j, hj⟩ := List.mem_iff_getElem?.mp hq
      obtain ⟨hr, hk⟩ := List.getElem?_zip_eq_some.mp hi
      obtain ⟨hr', hk'⟩ := List.getElem?_zip_eq_some.mp hj
      exact keys_of_occurrence hkeys hr hr' hk hk' ho ho'
  refine foldlM_invariant (fun t d t' _ ht hdispose => ?_) h₂ hdone
  rcases disposeOf_cases hdispose with hkeeps | ⟨recordId, note, hemits⟩
  · exact ht.keeps hkeeps
  · exact ht.emits hemits fun _ _ => rfl

/-- A reduction starts with empty books. -/
theorem start (hone : prior.OneFinding) (store : ReviewStore ids) :
    Settled prior { store := store, projected := prior } where
  occurs _ _ ho := .inl ho
  unique := by
    rintro o k k' (hk | ⟨p, hp, -⟩) (hk' | ⟨p', hp', -⟩)
    · exact hone o k k' hk hk'
    · cases hp'
    · cases hp
    · cases hp
  pending _ _ h := by cases h
  kept _ hp := by cases hp

/-- **One reduction.** -/
theorem reduction (hone : prior.OneFinding) (hprior : prior.WellFormed) {store : ReviewStore ids}
    {runId : String} {stages : List PreparedStage}
    (hdone : prepareReviewOutputs viewId store runId prior stages = .ok s) : Settled prior s :=
  foldlM_invariant (fun _ _ _ _ h hstage => h.stage hprior hstage) (start hone store) hdone

end Settled

end Settling

/-! ## Sequences of reductions -/

/-- The Ledgers that reductions reach from an empty one, with any stores and stages. Between them
a log has whatever it has, but no report that did not come through a reduction. -/
inductive Reduced (ids : ReviewIds) (viewId : Finding → Option String) : Ledger → Prop
  | start (policy : String) (round : ℕ) : Reduced ids viewId (Ledger.start policy round)
  | step {L L' : Ledger} (input : LedgerInput) (h : Reduced ids viewId L)
    (hreport : input.reported = none) (hstep : L.step viewId input = some L') :
    Reduced ids viewId L'
  | reduce {L : Ledger} (store : ReviewStore ids) (runId : String) (stages : List PreparedStage)
    (s : Reduction ids) (h : Reduced ids viewId L)
    (hdone : prepareReviewOutputs viewId store runId L stages = .ok s) :
    Reduced ids viewId s.projected

namespace Reduced

variable {L : Ledger}

theorem wellFormed (h : Reduced ids viewId L) : L.WellFormed := by
  induction h with
  | start policy round => exact Ledger.wellFormed_start policy round
  | step input _ _ hstep ih => exact ih.step hstep
  | reduce store runId stages s _ hdone ih => exact ih.reduction hdone

theorem oneFinding (h : Reduced ids viewId L) : L.OneFinding := by
  induction h with
  | start policy round =>
    rintro o key key' ⟨r, hr, -⟩
    cases hr
  | step input _ hreport hstep ih =>
    intro o key key' hk hk'
    exact ih o key key' ((Ledger.occurs_step hstep hreport).mp hk)
      ((Ledger.occurs_step hstep hreport).mp hk')
  | reduce store runId stages s h hdone ih =>
    have hsettled := Settled.reduction ih h.wellFormed hdone
    intro o key key' hk hk'
    exact hsettled.unique o key key' (hsettled.occurs o key hk) (hsettled.occurs o key' hk')

end Reduced

/-- **One occurrence, one Finding.** In a Ledger that reductions reached, an occurrence belongs to
at most one Finding, which is the answer for it; and a reduction gives all reports of an
occurrence, in whatever stages, one key. -/
theorem one_finding {L : Ledger} (h : Reduced ids viewId L) :
    (∀ o key key', L.Occurs o key → L.Occurs o key' → key = key') ∧
      (∀ o key, L.findingForOccurrence o = some key ↔ L.Occurs o key) ∧
      ∀ (store : ReviewStore ids) (runId : String) (stages : List PreparedStage)
        (s : Reduction ids), prepareReviewOutputs viewId store runId L stages = .ok s →
        ∀ p ∈ s.assigned, ∀ q ∈ s.assigned, ∀ o, p.1.occurrence = some o →
          q.1.occurrence = some o → p.2 = q.2 := by
  refine ⟨h.oneFinding, fun o key => ?_, fun store runId stages s hdone => ?_⟩
  · exact Ledger.findingForOccurrence_eq_some h.wellFormed h.oneFinding
  · have hsettled := Settled.reduction h.oneFinding h.wellFormed hdone
    intro p hp q hq o ho ho'
    exact hsettled.unique o p.2 q.2 (.inr ⟨p, hp, ho, rfl⟩) (.inr ⟨q, hq, ho', rfl⟩)

/-! ## Two reviewers, one occurrence -/

/-- Ids that spell out what they name. -/
def sampleIds : ReviewIds where
  artifactId envelope := match envelope.producer, envelope.payload with
    | .attempt _ node _, .findingReport report => "report " ++ node ++ " " ++ report.title
    | .attempt _ node _, .findingDisposition d => "disposition " ++ node ++ " " ++ d.reason
    | .kernelOperation _ _ operation, _ => operation
    | _, payload => payload.projected.artifactType
  findingId reportId := "finding of " ++ reportId
  demandId source demand := source ++ " demands " ++ demand.claim
  admits _ := .ok ()

/-- Nothing is filed yet. -/
def sampleReviewStore : ReviewStore sampleIds where
  filed := .empty
  unfiled _ := .absent
  verify _ := .ok ()
  resolveSubjectScope _ := .ok ⟨⟨.wholeTree, none, "head"⟩, none⟩
  manifestPolicy _ := .ok canonicalFindingIdentityPolicy
  named _ _ h := by cases h

/-- A reviewer's report of an occurrence. -/
def sampleOccurrence (title : String) : FindingReport where
  title := title
  severity := .major
  locations := [⟨"src/lib.rs", some 3⟩]
  body := "unlocked"
  fix := "take the lock"
  confidence := 1
  ruleId := some "rule"
  occurrenceKey := some "src/lib.rs:3"
  relations := []

def sampleStage (source : String) (reports : List FindingReport)
    (dispositions : List ReviewerDisposition) : PreparedStage where
  source := source
  demandRequirement := .advisory
  reports := reports
  demands := []
  dispositions := dispositions
  provenance := ⟨.attempt "run" source "1", [], "head", "subject"⟩

/-- Two reviewers report one occurrence, each in a stage of its own. -/
def sampleOccurrenceStages : List PreparedStage := [
  sampleStage "first" [sampleOccurrence "race"] [],
  sampleStage "second" [sampleOccurrence "unlocked write"] []]

theorem one_finding_two_reviewers : ∃ s : Reduction sampleIds,
    prepareReviewOutputs sampleViewId sampleReviewStore "run" (Ledger.start "policy" 1)
      sampleOccurrenceStages = .ok s ∧
    ∃ p ∈ s.assigned, ∃ q ∈ s.assigned, p.1.title = "race" ∧ q.1.title = "unlocked write" ∧
      p.2 = q.2 := by
  have hrun : ∃ s ∈ (prepareReviewOutputs sampleViewId sampleReviewStore "run"
      (Ledger.start "policy" 1) sampleOccurrenceStages).toOption,
      ∃ p ∈ s.assigned, ∃ q ∈ s.assigned, p.1.title = "race" ∧ q.1.title = "unlocked write" ∧
        p.1.occurrence = some ("rule", "src/lib.rs:3") ∧
        q.1.occurrence = some ("rule", "src/lib.rs:3") := by decide
  obtain ⟨s, hs, p, hp, q, hq, hrace, hunlocked, ho, ho'⟩ := hrun
  have hdone := toOption_eq_some.mp hs
  exact ⟨s, hdone, p, hp, q, hq, hrace, hunlocked,
    (one_finding (Reduced.start "policy" 1)).2.2 _ _ _ s hdone p hp q hq _ ho ho'⟩

end Afactory
