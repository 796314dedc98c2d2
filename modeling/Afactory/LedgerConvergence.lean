import Mathlib
import Afactory.LedgerGroups

/-!
# Convergence

The verdict of a Round is read off the views, where the members of a group are merged. A view
is at least as pressing as each member, so a group never hides a Finding that would block on
its own.

* `Finding.Covers`: a Finding at least as pressing as another;
* `WellFormed.view_covers`: a view covers the members of its group;
* `convergence_eq_converged`: what a converged Round has counted;
* `converged_sound`: no Finding blocks a converged Round, and it converges ungrouped too.
-/

namespace Afactory

/-! ## Merging members -/

/-- A Finding at least as pressing as another: active, severe and new if the other is. -/
structure Finding.Covers (v f : Finding) : Prop where
  active : f.status.isActive = true → v.status.isActive = true
  severity : ∀ s, f.convergenceSeverity = some s →
    ∃ t, v.convergenceSeverity = some t ∧ s.rank ≤ t.rank
  news : ∀ n, f.scopedNewsRound = some n → ∃ m, v.scopedNewsRound = some m ∧ n ≤ m

namespace Finding.Covers

variable {v f : Finding}

theorem atGate (h : v.Covers f) {gate : Severity} (hf : f.atGate gate = true) :
    v.atGate gate = true := by
  rw [Finding.atGate, Option.any_eq_true] at hf ⊢
  obtain ⟨s, hs, hgate⟩ := hf
  obtain ⟨t, ht, hle⟩ := h.severity s hs
  refine ⟨t, ht, ?_⟩
  rw [decide_eq_true_eq] at hgate ⊢
  exact hgate.trans hle

theorem blocks (h : v.Covers f) (hreadable : v.authorityDiagnostic = false) {gate : Severity}
    (hactive : f.status.isActive = true) (hf : f.atGate gate = true) : v.blocks gate = true := by
  rw [Finding.blocks, h.active hactive, hreadable, h.atGate hf]
  rfl

theorem isNews (h : v.Covers f) (hreadable : v.authorityDiagnostic = false) {gate : Severity}
    {since : ℤ} (hf : f.isNews gate since = true) : v.isNews gate since = true := by
  simp only [Finding.isNews, Bool.and_eq_true, Option.any_eq_true, decide_eq_true_eq] at hf ⊢
  obtain ⟨⟨-, n, hn, hsince⟩, hgate⟩ := hf
  obtain ⟨m, hm, hle⟩ := h.news n hn
  refine ⟨⟨by simp [hreadable], m, hm, ?_⟩, h.atGate hgate⟩
  exact hsince.trans_le (by exact_mod_cast hle)

end Finding.Covers

namespace Ledger

variable {viewId : Finding → Option String} {L : Ledger}

theorem mergedStatus_active {members : List Finding} {f root : Finding} (hmem : f ∈ members)
    (hactive : f.status.isActive = true) : (mergedStatus members root).isActive = true := by
  rw [mergedStatus]
  split_ifs with hcontested hopened hpending
  · rfl
  · rfl
  · rfl
  · -- no member is active
    exfalso
    simp only [List.any_eq_true, decide_eq_true_eq, not_exists, not_and]
      at hcontested hopened hpending
    cases hstatus : f.status with
    | opened => exact hopened f hmem hstatus
    | pendingVerification => exact hpending f hmem hstatus
    | contested => exact hcontested f hmem hstatus
    | fixed =>
      rw [hstatus] at hactive
      cases hactive
    | rejected =>
      rw [hstatus] at hactive
      cases hactive
    | wontfix =>
      rw [hstatus] at hactive
      cases hactive

theorem rank_le_maxSeverity {l : List Severity} {s : Severity} (hmem : s ∈ l) :
    ∃ t, maxSeverity l = some t ∧ s.rank ≤ t.rank := by
  induction l with
  | nil => cases hmem
  | cons x l ih =>
    rw [maxSeverity]
    cases hrest : maxSeverity l with
    | none =>
      rcases List.mem_cons.mp hmem with rfl | hmem
      · exact ⟨s, rfl, le_rfl⟩
      · obtain ⟨t, ht, -⟩ := ih hmem
        rw [hrest] at ht
        cases ht
    | some t =>
      refine ⟨_, rfl, ?_⟩
      rcases List.mem_cons.mp hmem with rfl | hmem
      · split_ifs with hlt
        · exact le_rfl
        · exact not_lt.mp hlt
      · obtain ⟨t', ht', hle⟩ := ih hmem
        rw [hrest] at ht'
        cases ht'
        split_ifs with hlt
        · exact hle.trans hlt.le
        · exact hle

theorem mergedView_covers {members : List Finding} {f root : Finding} {aliases : List String}
    (hmem : f ∈ members) : (mergedView root members aliases).Covers f where
  active := mergedStatus_active hmem
  severity := by
    intro s hs
    exact rank_le_maxSeverity (List.mem_filterMap.mpr ⟨f, hmem, hs⟩)
  news := by
    intro n hn
    have hround : n ∈ members.filterMap Finding.scopedNewsRound :=
      List.mem_filterMap.mpr ⟨f, hmem, hn⟩
    obtain ⟨m, hm⟩ := Option.isSome_iff_exists.mp (List.isSome_max?_of_mem hround)
    exact ⟨m, hm, (List.max?_eq_some_iff.mp hm).2 n hround⟩

namespace WellFormed

variable {root : String} {v f : Finding}

/-- A view is at least as pressing as every member of its group. -/
theorem view_covers (h : L.WellFormed) (hroot : L.groupRoot root = some root)
    (hview : L.findingViewForRoot root = some v) (hmem : f ∈ L.groupMembers root) : v.Covers f := by
  obtain ⟨g, aliases, hg, -, hv⟩ := findingViewForRoot_eq_some hview
  split_ifs at hv with hempty
  · have halone : v.aliases = [] := by
      rw [hv]
      exact List.isEmpty_iff.mp hempty
    rw [h.view_alone hroot hg hview halone, List.mem_singleton] at hmem
    rw [hmem, hv]
    exact ⟨id, fun s hs => ⟨s, hs, le_rfl⟩, fun n hn => ⟨n, hn, le_rfl⟩⟩
  · rw [hv]
    exact mergedView_covers hmem

/-- A view is a placeholder only if a member is. -/
theorem view_readable (h : L.WellFormed) (hview : L.findingViewForRoot root = some v)
    (hreadable : ∀ key f, L.findings.get key = some f → f.authorityDiagnostic = false) :
    v.authorityDiagnostic = false := by
  obtain ⟨g, aliases, hg, -, hv⟩ := findingViewForRoot_eq_some hview
  split_ifs at hv with hempty
  · rw [hv]
    exact hreadable root g hg
  · have hmembers : (L.groupMembers root).any Finding.authorityDiagnostic = false := by
      rw [List.any_eq_false]
      intro f hf
      rw [hreadable f.key f (h.mem_groupMembers.mp hf).2]
      exact Bool.false_ne_true
    rw [hv]
    exact hmembers

theorem mem_findingViews (h : L.WellFormed) :
    v ∈ L.findingViews ↔ ∃ root, root ∈ L.roots ∧ L.groupRoot root = some root ∧
      L.findingViewForRoot root = some v := by
  rw [findingViews, List.mem_filterMap]
  constructor
  · rintro ⟨root, hroot, hview⟩
    exact ⟨root, hroot, (h.root_view hroot).1, hview⟩
  · rintro ⟨root, hroot, -, hview⟩
    exact ⟨root, hroot, hview⟩

/-- Every Finding has a view that covers it. -/
theorem exists_view (h : L.WellFormed) {key : String} (hf : L.findings.get key = some f) :
    ∃ root, ∃ v ∈ L.findingViews, L.findingViewForRoot root = some v ∧ v.Covers f := by
  obtain ⟨root, -, hkey, -⟩ := h.exists_groupRoot hf
  have hroot : root ∈ L.roots := mem_roots.mpr ⟨key, (h.mem_order key).mpr ⟨f, hf⟩, hkey⟩
  obtain ⟨hself, v, hview⟩ := h.root_view hroot
  refine ⟨root, v, h.mem_findingViews.mpr ⟨root, hroot, hself, hview⟩, hview,
    h.view_covers hself hview ?_⟩
  have hkept := (h.kept key f hf).key_eq
  exact h.mem_groupMembers.mpr ⟨hkept ▸ hkey, hkept ▸ hf⟩

/-! ## Without groupings -/

theorem ungrouped (h : L.WellFormed) : { L with activeGroupings := .empty }.WellFormed where
  nodup := h.nodup
  mem_order := h.mem_order
  kept := h.kept
  ends := by
    intro a b hab
    cases hab
  rooted := Forest.rooted_empty
  demands := h.demands

/-- Without groupings every view is a record. -/
theorem view_ungrouped (h : L.WellFormed)
    (hview : v ∈ findingViews { L with activeGroupings := .empty }) :
    ∃ f, L.findings.get f.key = some f ∧ v = { f with aliases := [] } := by
  obtain ⟨root, -, -, hview⟩ := h.ungrouped.mem_findingViews.mp hview
  have haliases : v.aliases = [] := by
    rw [findingViewForRoot_aliases hview, List.filter_eq_nil_iff, h.ungrouped.groupMembers_map_key]
    intro key hkey
    obtain ⟨-, n, hlead⟩ := groupRoot_eq_some.mp (h.ungrouped.mem_memberKeys.mp hkey)
    cases hlead with
    | root _ => simp
    | up hedge _ => cases hedge
  obtain ⟨f, aliases, hf, -, hv⟩ := findingViewForRoot_eq_some hview
  refine ⟨f, (h.kept root f hf).key_eq ▸ hf, ?_⟩
  split_ifs at hv with hempty
  · rw [hv, List.isEmpty_iff.mp hempty]
  · rw [hv] at haliases
    exact absurd (List.isEmpty_iff.mpr haliases) hempty

end WellFormed

/-! ## The verdict -/

/-- A Round converges when nothing it counts is left and enough Rounds were clean. -/
theorem convergence_eq_converged {policy : ConvergencePolicy} :
    (L.convergence policy).verdict = .converged ↔ L.authorityFailuresRecent policy = 0 ∧
      (∀ v ∈ L.findingViews, v.blocks policy.gate = false) ∧
      (∀ v ∈ L.findingViews, v.isNews policy.gate (L.since policy) = false) ∧
      (∀ entry ∈ L.demandViews, entry.blocks = false) ∧ policy.cleanRounds ≤ L.round := by
  have hcount : ∀ {α : Type} (p : α → Bool) (l : List α),
      (l.filter p).length = 0 ↔ ∀ x ∈ l, p x = false := by
    intro α p l
    rw [List.length_eq_zero_iff, List.filter_eq_nil_iff]
    simp only [Bool.not_eq_true]
  have hopen : L.requiredOpenDemands = 0 ↔ ∀ entry ∈ L.demandViews, entry.blocks = false :=
    hcount _ _
  rw [convergence]
  simp only
  constructor
  · intro hverdict
    split at hverdict
    case isTrue hclean =>
      simp only [Bool.and_eq_true, decide_eq_true_eq, hcount, hopen] at hclean
      obtain ⟨⟨⟨⟨hfailures, hblocking⟩, hnews⟩, hdemands⟩, hround⟩ := hclean
      exact ⟨hfailures, hblocking, hnews, hdemands, hround⟩
    case isFalse => split_ifs at hverdict
  · rintro ⟨hfailures, hblocking, hnews, hdemands, hround⟩
    refine if_pos ?_
    simp only [Bool.and_eq_true, decide_eq_true_eq, hcount, hopen]
    exact ⟨⟨⟨⟨hfailures, hblocking⟩, hnews⟩, hdemands⟩, hround⟩

/-- Without a recent failure no report waits to be read. -/
theorem unreadable_of_no_failures {policy : ConvergencePolicy}
    (hfailures : L.authorityFailuresRecent policy = 0) {key : String} {f : Finding}
    (hf : L.findings.get key = some f) : f.unreadableReports.entries = [] := by
  rw [authorityFailuresRecent, Nat.add_eq_zero_iff, Nat.add_eq_zero_iff, List.length_eq_zero_iff,
    List.length_eq_zero_iff] at hfailures
  obtain ⟨⟨hrecent, hunresolved⟩, -⟩ := hfailures
  rw [List.eq_nil_iff_forall_not_mem]
  rintro ⟨id, u⟩ hid
  have hmem : id ∈ L.unresolvedUnrecentReports policy := by
    rw [unresolvedUnrecentReports, hrecent, List.mem_eraseDups, List.mem_filter]
    refine ⟨List.mem_flatMap.mpr ⟨f, OrdMap.mem_values_iff.mpr ⟨key, hf⟩, ?_⟩, by simp⟩
    exact List.mem_map_of_mem (f := Prod.fst) hid
  rw [hunresolved] at hmem
  cases hmem

theorem DemandsListed.settled (h : L.DemandsListed)
    (hdemands : ∀ entry ∈ L.demandViews, entry.blocks = false) {demandId : String}
    {record : DemandRecord} (hget : L.demands.get demandId = some record)
    (hrequired : record.demand.requirement = .required) :
    record.status L.activeSubjectId = .satisfied ∨ record.status L.activeSubjectId = .waived := by
  have hentry : record.entry L.activeSubjectId ∈ L.demandViews :=
    List.mem_map_of_mem (List.mem_filterMap.mpr ⟨demandId, h demandId record hget, hget⟩)
  have hblocks := hdemands _ hentry
  rw [DemandSetEntry.blocks] at hblocks
  simp only [DemandRecord.entry, hrequired, decide_true, Bool.true_and, Bool.or_eq_false_iff,
    decide_eq_false_iff_not] at hblocks
  cases hstatus : record.status L.activeSubjectId with
  | opened => exact absurd hstatus hblocks.1
  | satisfied => exact .inl rfl
  | stale => exact absurd hstatus hblocks.2
  | waived => exact .inr rfl

/-- **A converged Round is clean, and grouping never makes it so.** After any run of accepted
inputs, if the verdict is converged then no Finding, grouped or not, is active with a
convergence severity at or above the gate; no report waits to be read; every required Demand is
satisfied or waived; and the same Ledger without any grouping converges too. -/
theorem converged_sound {policy : String} {round : ℕ} {inputs : List LedgerInput}
    (hrun : run (step viewId) (start policy round) inputs = some L) {rounds : ConvergencePolicy}
    (hconverged : (L.convergence rounds).verdict = .converged) :
    (∀ key f, L.findings.get key = some f →
      ¬ (f.status.isActive = true ∧ f.atGate rounds.gate = true)) ∧
    (∀ key f, L.findings.get key = some f → f.unreadableReports.entries = []) ∧
    (∀ demandId record, L.demands.get demandId = some record →
      record.demand.requirement = .required →
        record.status L.activeSubjectId = .satisfied ∨
          record.status L.activeSubjectId = .waived) ∧
    (convergence { L with activeGroupings := .empty } rounds).verdict = .converged := by
  have h := WellFormed.run hrun
  obtain ⟨hfailures, hblocking, hnews, hdemands, hround⟩ := convergence_eq_converged.mp hconverged
  have hread : ∀ key f, L.findings.get key = some f → f.unreadableReports.entries = [] :=
    fun key f hf => unreadable_of_no_failures hfailures hf
  -- a placeholder waits for its report, so none is left
  have hreadable : ∀ key f, L.findings.get key = some f → f.authorityDiagnostic = false := by
    intro key f hf
    rw [← Bool.not_eq_true]
    exact fun hdiag => (h.kept key f hf).diagnosed hdiag (hread key f hf)
  have hquiet : ∀ key f, L.findings.get key = some f →
      ¬ (f.status.isActive = true ∧ f.atGate rounds.gate = true) := by
    rintro key f hf ⟨hactive, hgate⟩
    obtain ⟨root, v, hv, hview, hcovers⟩ := h.exists_view hf
    have hblocks := hcovers.blocks (h.view_readable hview hreadable) hactive hgate
    rw [hblocking v hv] at hblocks
    cases hblocks
  have hold : ∀ key f, L.findings.get key = some f →
      f.isNews rounds.gate (L.since rounds) = false := by
    intro key f hf
    rw [← Bool.not_eq_true]
    intro hnew
    obtain ⟨root, v, hv, hview, hcovers⟩ := h.exists_view hf
    have hnew' := hcovers.isNews (h.view_readable hview hreadable) hnew
    rw [hnews v hv] at hnew'
    cases hnew'
  refine ⟨hquiet, hread, fun demandId record hget hrequired =>
    h.demands.settled hdemands hget hrequired,
    convergence_eq_converged.mpr ⟨hfailures, ?_, ?_, hdemands, hround⟩⟩
  · intro v hv
    obtain ⟨f, hf, rfl⟩ := h.view_ungrouped hv
    rw [← Bool.not_eq_true]
    intro hblocks
    simp only [Finding.blocks, Bool.and_eq_true] at hblocks
    exact hquiet f.key f hf ⟨hblocks.1.1, hblocks.2⟩
  · intro v hv
    obtain ⟨f, hf, rfl⟩ := h.view_ungrouped hv
    exact hold f.key f hf

/-- The group fixed, then two clean Rounds. -/
def sampleClean : List LedgerInput := sampleGrouped ++ [
  .event sampleStore (.findingResolved ⟨some "into", some "fixed", some 1, none⟩) [],
  .event sampleStore (.findingResolved ⟨some "key", some "rejected", some 1, none⟩) [],
  .event sampleStore (.generationAdvanced (some 3)) []]

theorem converged_sound_clean : ∃ L,
    run (step sampleViewId) (start canonicalFindingIdentityPolicy 1) sampleClean = some L ∧
      L.groupRoot "key" = some "into" ∧
      (L.convergence ⟨2, 5, .minor⟩).verdict = .converged ∧
      (convergence { L with activeGroupings := .empty } ⟨2, 5, .minor⟩).verdict = .converged := by
  have hrun : ∃ L ∈ run (step sampleViewId) (start canonicalFindingIdentityPolicy 1) sampleClean,
      L.groupRoot "key" = some "into" ∧
        (L.convergence ⟨2, 5, .minor⟩).verdict = .converged := by decide
  obtain ⟨L, hrun, hroot, hconverged⟩ := hrun
  exact ⟨L, hrun, hroot, hconverged, (converged_sound hrun hconverged).2.2.2⟩

end Ledger

end Afactory
