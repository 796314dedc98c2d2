import Mathlib
import Afactory.ReductionLaws

/-!
# Replaying the events of a reduction

The Ledger that a reduction projects while it goes on is the one its events fold to, also when
they are read from a store that has grown since.

* `apply_congr`: an event that names artifacts reads no others;
* `Folds`: the events so far, over any later store;
* `run_events`: a whole reduction;
* `Ledger.WellFormed.reduction`: it keeps a Ledger well formed.
-/

namespace Afactory

variable {ids : ReviewIds} {viewId : Finding → Option String}

/-! ## What an event reads -/

/-- Events that read the artifacts they name, and nothing else of a store. -/
def LedgerEvent.readsNamed : LedgerEvent → Bool
  | .findingReported _ | .findingResolved _ | .recorded _ _ => true
  | _ => false

namespace Ledger

variable {L : Ledger} {cas cas' : ContentStore}

theorem applyReport_congr {payload : FindingReported} {artifactRefs : List String}
    (hread : ∀ id ∈ artifactRefs, cas'.read id = cas.read id) :
    L.applyReport cas' payload artifactRefs = L.applyReport cas payload artifactRefs := by
  rw [applyReport, applyReport]
  cases hcheck : checkReport payload artifactRefs with
  | error e => rfl
  | ok checked =>
    obtain ⟨key, source, round, reportId⟩ := checked
    obtain ⟨-, -, -, rfl⟩ := checkReport_eq_ok hcheck
    have hproject : L.projectReport cas' round reportId = L.projectReport cas round reportId := by
      rw [projectReport, projectReport, hread reportId List.mem_cons_self]
    have hprepare : L.prepareReport cas' key source round reportId =
        L.prepareReport cas key source round reportId := by
      rw [prepareReport, prepareReport, hproject]
    simp only [hprepare]

theorem readRecorded_congr {kind : RecordKind} {artifactId : String} {artifactRefs : List String}
    (hread : ∀ id ∈ artifactRefs, cas'.read id = cas.read id) :
    readRecorded cas' kind artifactId artifactRefs =
      readRecorded cas kind artifactId artifactRefs := by
  rw [readRecorded, readRecorded, requireEvent]
  split_ifs with hrefs
  · rw [ok_bind, ok_bind, hread artifactId]
    rw [of_decide_eq_true hrefs]
    exact List.mem_cons_self
  · rfl

/-- **Reads.** Two stores that agree on the artifacts an event names fold it alike. -/
theorem apply_congr {event : LedgerEvent} (hevent : event.readsNamed = true)
    {artifactRefs : List String} (hread : ∀ id ∈ artifactRefs, cas'.read id = cas.read id) :
    L.apply viewId cas' event artifactRefs = L.apply viewId cas event artifactRefs := by
  cases event with
  | findingReported payload => exact applyReport_congr hread
  | findingResolved payload => rfl
  | recorded kind artifactId =>
    rw [apply, apply, recordedEvent, recordedEvent, readRecorded_congr hread]
  | campaignOpened id => cases hevent
  | roundStarted started => cases hevent
  | generationAdvanced round => cases hevent
  | findingsGrouped action payload => cases hevent
  | other => cases hevent

end Ledger

/-! ## The fold -/

/-- An event as an input of the Ledger. -/
def ReviewEvent.input (store : ReviewStore ids) (event : ReviewEvent) : LedgerInput :=
  .event store.contentStore event.event event.artifactRefs

section Folding

variable {prior : Ledger} {s s' : Reduction ids} {event : ReviewEvent}

/-- The events so far give the Ledger so far, over any later store. -/
def Folds (viewId : Finding → Option String) (prior : Ledger) (s : Reduction ids) : Prop :=
  ∀ store : ReviewStore ids, s.store.Extends store →
    run (Ledger.step viewId) prior (s.events.map (ReviewEvent.input store)) = some s.projected

namespace Folds

theorem congr (h : Folds viewId prior s) (hstore : s.store.Extends s'.store)
    (hprojected : s'.projected = s.projected) (hevents : s'.events = s.events) :
    Folds viewId prior s' := by
  intro store hgrown
  rw [hprojected, hevents]
  exact h store (hstore.trans hgrown)

/-- One event more. -/
theorem emits (h : Folds viewId prior s) (hemits : Emits viewId s s' event)
    (hevent : event.event.readsNamed = true) : Folds viewId prior s' := by
  intro store hgrown
  have hread : ∀ id ∈ event.artifactRefs,
      store.contentStore.read id = s'.store.contentStore.read id := by
    intro id hid
    obtain ⟨envelope, hfiled⟩ := hemits.filed id hid
    rw [ReviewStore.read_contentStore hfiled, ReviewStore.read_contentStore (hgrown _ _ hfiled)]
  have hlast : s.projected.step viewId (event.input store) = some s'.projected := by
    rw [Ledger.step, ReviewEvent.input, Ledger.reply, Ledger.apply_congr hevent hread,
      hemits.applied]
  rw [hemits.events, List.map_append, run_append_eq_some]
  exact ⟨s.projected, h store (hemits.store.trans hgrown), run_cons_eq_some.mpr ⟨_, hlast, rfl⟩⟩

theorem reportUnder (h : Folds viewId prior s) {runId : String} {stage : PreparedStage}
    {p : (FindingReport × String) × String} (hfiled : ∃ e, s.store.filed.get p.1.2 = some e)
    (hdone : Afactory.reportUnder viewId runId prior stage s p = .ok s') :
    Folds viewId prior s' := by
  obtain ⟨⟨report, reportId⟩, key⟩ := p
  rcases reportUnder_cases hfiled hdone with rfl | ⟨s₁, hemits, hrest⟩
  · exact h.congr (.refl _) rfl rfl
  · have hbooked : Folds viewId prior { s.select stage.source report reportId key with
        pendingReports := ⟨key, stage.source, prior.round, reportId⟩ :: s.pendingReports } :=
      h.congr (.refl _) rfl rfl
    have h₁ : Folds viewId prior s₁ := hbooked.emits hemits rfl
    rcases hrest with rfl | ⟨view, recordId, -, hchallenge⟩
    · exact h₁
    · exact h₁.emits hchallenge rfl

theorem stage (h : Folds viewId prior s) {runId : String} {stage : PreparedStage}
    (hdone : reduceStage viewId runId prior s stage = .ok s') : Folds viewId prior s' := by
  rw [reduceStage] at hdone
  obtain ⟨s₁, hdemands, hdone⟩ := bind_eq_ok.mp hdone
  obtain ⟨reports, -, hdone⟩ := bind_eq_ok.mp hdone
  obtain ⟨⟨store, published⟩, hpublished, hdone⟩ := bind_eq_ok.mp hdone
  obtain ⟨keys, hkeys, hdone⟩ := bind_eq_ok.mp hdone
  obtain ⟨s₂, hreports, hdone⟩ := bind_eq_ok.mp hdone
  obtain ⟨-, hgrown, hfiled⟩ := publishReports_eq_ok hpublished
  have h₁ : Folds viewId prior s₁ := by
    refine foldlM_invariant (fun t demand t' _ ht hdemand => ?_) h hdemands
    rcases recordStageDemand_cases hdemand with rfl | ⟨recordId, hemits⟩
    · exact ht
    · exact ht.emits hemits rfl
  have hstored : Folds viewId prior { s₁ with store := store } := h₁.congr hgrown rfl rfl
  have h₂ : Folds viewId prior s₂ :=
    reports_invariant (fun t p t' ht hp hone => ht.reportUnder hp hone)
      (fun p hp => ⟨_, hfiled p.1 (List.of_mem_zip hp).1⟩) hstored hreports
  refine foldlM_invariant (fun t d t' _ ht hdispose => ?_) h₂ hdone
  rcases disposeOf_cases hdispose with hkeeps | ⟨recordId, note, hemits⟩
  · exact ht.congr hkeeps.store hkeeps.projected hkeeps.events
  · exact ht.emits hemits rfl

theorem reduction {store : ReviewStore ids} {runId : String} {stages : List PreparedStage}
    (hdone : prepareReviewOutputs viewId store runId prior stages = .ok s) :
    Folds viewId prior s :=
  foldlM_invariant (fun _ _ _ _ h hstage => h.stage hstage) (fun _ _ => rfl) hdone

end Folds

/-- **The projection is the fold.** -/
theorem run_events {store : ReviewStore ids} {runId : String} {stages : List PreparedStage}
    (hdone : prepareReviewOutputs viewId store runId prior stages = .ok s) :
    run (Ledger.step viewId) prior (s.events.map (ReviewEvent.input s.store)) =
      some s.projected := Folds.reduction hdone s.store (.refl _)

theorem Ledger.WellFormed.reduction (h : prior.WellFormed) {store : ReviewStore ids} {runId : String}
    {stages : List PreparedStage}
    (hdone : prepareReviewOutputs viewId store runId prior stages = .ok s) :
    s.projected.WellFormed :=
  run_invariant (fun _ _ _ h hstep => h.step hstep) h (run_events hdone)

end Folding

end Afactory
