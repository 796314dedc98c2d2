import Mathlib
import Afactory.LedgerChanges

/-!
# Finding groups

Findings are joined by groupings that come and go. Over every run of accepted inputs they stay
a forest, each Finding stands in one view, and each admitted report too.

* `Finding.Kept`, `WellFormed`: what records, order and groupings keep;
* `WellFormed.step`: every accepted input keeps it;
* `reportsOf_run`: a record holds the reports admitted for its key, in their order;
* `groups_lose_nothing`: the groupings are acyclic and the views split what was reported.
-/

namespace Afactory

/-- What every record of the Ledger keeps: its own key, no aliases, and a report to wait for
while its claim is a placeholder. -/
structure Finding.Kept (key : String) (f : Finding) : Prop where
  key_eq : f.key = key
  aliases_eq : f.aliases = []
  diagnosed : f.authorityDiagnostic = true → f.unreadableReports.entries ≠ []

namespace Reporting

variable {key : String} (r : Reporting)

theorem mem_unreadable_insert (m : OrdMap String Unit) (id : String) :
    (m.insert id ()).entries ≠ [] := by
  intro hnil
  have hget := OrdMap.get_insert_self m id ()
  rw [OrdMap.get, hnil] at hget
  cases hget

theorem kept_opened : (r.opened key).Kept key := by
  refine ⟨rfl, rfl, fun hdiag => ?_⟩
  have hunreadable : r.report.unreadable = true := hdiag
  rw [opened, hunreadable]
  exact mem_unreadable_insert .empty _

theorem kept_moved {f : Finding} (h : f.Kept key) (kind : TransitionKind) :
    (r.moved f kind).key = key ∧ (r.moved f kind).aliases = [] ∧
      (r.moved f kind).authorityDiagnostic = f.authorityDiagnostic := by
  have hadopt : ∀ f : Finding, (f.adopt r.report r.source).key = f.key ∧
      (f.adopt r.report r.source).aliases = f.aliases ∧
      (f.adopt r.report r.source).authorityDiagnostic = f.authorityDiagnostic :=
    fun _ => ⟨rfl, rfl, rfl⟩
  rw [moved.eq_def]
  split
  · exact ⟨h.key_eq, h.aliases_eq, rfl⟩
  · split_ifs <;> exact ⟨h.key_eq, h.aliases_eq, rfl⟩
  · split_ifs <;> exact ⟨h.key_eq, h.aliases_eq, rfl⟩
  · exact ⟨h.key_eq, h.aliases_eq, rfl⟩
  · exact ⟨h.key_eq, h.aliases_eq, rfl⟩

theorem kept_revise {f : Finding} (h : f.Kept key) : (r.revise f).Kept key := by
  rw [revise]
  split_ifs with hunreadable hdiag
  · exact ⟨h.key_eq, h.aliases_eq, fun _ => mem_unreadable_insert _ _⟩
  · refine ⟨h.key_eq, h.aliases_eq, ?_⟩
    intro hdiag'
    cases hdiag'
  · -- a readable claim stays readable
    have hmoved := r.kept_moved (f := { f with lastSeenRound := r.round })
      ⟨h.key_eq, h.aliases_eq, h.diagnosed⟩ (r.transitionKind f)
    refine ⟨hmoved.1, hmoved.2.1, fun hdiag' => ?_⟩
    rw [← hmoved.2.2] at hdiag
    exact absurd hdiag' hdiag

/-- Every report is attached after the ones before. -/
theorem reports_revise (f : Finding) : (r.revise f).reports = f.reports ++ [r.attached] := by
  rw [revise]
  split_ifs <;> rfl

end Reporting

namespace Ledger

variable {viewId : Finding → Option String} {L L' : Ledger} {input : LedgerInput}

theorem get_setStatus (L : Ledger) (key : String) (status : FindingStatus) (t : Transition)
    (k : String) : (L.setStatus key status t).findings.get k = (L.findings.get k).map fun f =>
      if k = key then { f with status := status, history := f.history ++ [t] } else f := by
  rw [setStatus]
  cases hget : L.findings.get key with
  | none =>
    by_cases hk : k = key
    · rw [hk, hget, Option.map_none]
    · simp only [hk, if_false, Option.map_id']
  | some finding =>
    rw [OrdMap.get_insert]
    by_cases hk : k = key
    · rw [if_pos hk, hk, hget]
      simp only [Option.map_some, if_true]
    · simp only [hk, if_false, Option.map_id']

theorem setStatus_order (L : Ledger) (key : String) (status : FindingStatus) (t : Transition) :
    (L.setStatus key status t).order = L.order := by
  rw [setStatus]
  split <;> rfl

theorem setStatus_groupings (L : Ledger) (key : String) (status : FindingStatus) (t : Transition) :
    (L.setStatus key status t).activeGroupings = L.activeGroupings := by
  rw [setStatus]
  split <;> rfl

theorem setStatus_resolutions (L : Ledger) (key : String) (status : FindingStatus)
    (t : Transition) : (L.setStatus key status t).resolutions = L.resolutions := by
  rw [setStatus]
  split <;> rfl

theorem setStatus_demands (h : L.DemandsListed) (key : String) (status : FindingStatus)
    (t : Transition) : (L.setStatus key status t).DemandsListed := by
  rw [setStatus]
  split <;> exact h

theorem setStatus_authority (L : Ledger) (key : String) (status : FindingStatus) (t : Transition) :
    (L.setStatus key status t).resolutionAuthority = L.resolutionAuthority := by
  rw [setStatus]
  split <;> rfl

/-- The keys, the groupings and what is kept of each record fit together. -/
structure WellFormed (L : Ledger) : Prop where
  nodup : L.order.Nodup
  mem_order : ∀ key, key ∈ L.order ↔ ∃ f, L.findings.get key = some f
  kept : ∀ key f, L.findings.get key = some f → f.Kept key
  ends : ∀ a b, L.activeGroupings.get a = some b →
    (∃ f, L.findings.get a = some f) ∧ ∃ g, L.findings.get b = some g
  rooted : Forest.Rooted L.activeGroupings
  demands : L.DemandsListed

theorem wellFormed_start (policy : String) (round : ℕ) : (start policy round).WellFormed where
  nodup := List.nodup_nil
  mem_order := by
    intro key
    constructor
    · intro hmem
      cases hmem
    · rintro ⟨f, hf⟩
      cases hf
  kept := by
    intro key f hf
    cases hf
  ends := by
    intro a b hab
    cases hab
  rooted := Forest.rooted_empty
  demands := by
    intro id record hget
    cases hget

namespace WellFormed

theorem congr (h : L.WellFormed) (hsame : SameCore L L') : L'.WellFormed := by
  obtain ⟨hfindings, horder, hgroupings, -, -, hdemands⟩ := hsame
  refine ⟨?_, ?_, ?_, ?_, ?_, hdemands h.demands⟩
  · rw [horder]
    exact h.nodup
  · rw [horder, hfindings]
    exact h.mem_order
  · rw [hfindings]
    exact h.kept
  · rw [hfindings, hgroupings]
    exact h.ends
  · rw [hgroupings]
    exact h.rooted

theorem setStatus (h : L.WellFormed) (key : String) (status : FindingStatus) (t : Transition) :
    (L.setStatus key status t).WellFormed := by
  have hget : ∀ k, (∃ f, (L.setStatus key status t).findings.get k = some f) ↔
      ∃ f, L.findings.get k = some f := by
    intro k
    simp only [get_setStatus, Option.map_eq_some_iff]
    constructor
    · rintro ⟨_, f, hf, -⟩
      exact ⟨f, hf⟩
    · rintro ⟨f, hf⟩
      exact ⟨_, f, hf, rfl⟩
  refine ⟨?_, ?_, ?_, ?_, ?_, setStatus_demands h.demands key status t⟩
  · rw [setStatus_order]
    exact h.nodup
  · intro k
    rw [setStatus_order, hget, h.mem_order]
  · intro k f hf
    rw [get_setStatus, Option.map_eq_some_iff] at hf
    obtain ⟨f, hf, rfl⟩ := hf
    have hkept := h.kept k f hf
    split_ifs
    · exact ⟨hkept.key_eq, hkept.aliases_eq, hkept.diagnosed⟩
    · exact hkept
  · intro a b hab
    rw [setStatus_groupings] at hab
    rw [hget, hget]
    exact h.ends a b hab
  · rw [setStatus_groupings]
    exact h.rooted

theorem restate (h : L.WellFormed) (changes : List (String × FindingStatus × Transition)) :
    (L.restate changes).WellFormed := by
  induction changes generalizing L with
  | nil => exact h
  | cons c changes ih => exact ih (h.setStatus c.1 c.2.1 c.2.2)

theorem attachReport (h : L.WellFormed) (key : String) (r : Reporting) :
    (L.attachReport key r).WellFormed := by
  rw [Ledger.attachReport]
  cases hget : L.findings.get key with
  | none =>
    have hnew : key ∉ L.order := by
      intro hmem
      obtain ⟨f, hf⟩ := (h.mem_order key).mp hmem
      rw [hget] at hf
      cases hf
    refine ⟨?_, ?_, ?_, ?_, h.rooted, h.demands⟩
    · exact List.nodup_append.mpr ⟨h.nodup, List.nodup_singleton _, by
        rintro a ha b hb rfl
        rw [List.mem_singleton] at hb
        exact hnew (hb ▸ ha)⟩
    · intro k
      rw [List.mem_append, List.mem_singleton, h.mem_order, OrdMap.get_insert]
      by_cases hk : k = key <;> simp [hk]
    · intro k f hf
      rw [OrdMap.get_insert] at hf
      split_ifs at hf with hk
      · cases hf
        rw [hk]
        exact r.kept_opened
      · exact h.kept k f hf
    · intro a b hab
      obtain ⟨⟨f, hf⟩, ⟨g, hg⟩⟩ := h.ends a b hab
      rw [OrdMap.get_insert, OrdMap.get_insert]
      constructor <;> split_ifs <;> exact ⟨_, by first | rfl | assumption⟩
  | some finding =>
    refine ⟨h.nodup, ?_, ?_, ?_, h.rooted, h.demands⟩
    · intro k
      rw [h.mem_order, OrdMap.get_insert]
      by_cases hk : k = key <;> simp [hk, hget]
    · intro k f hf
      rw [OrdMap.get_insert] at hf
      split_ifs at hf with hk
      · cases hf
        rw [hk]
        exact r.kept_revise (h.kept key finding hget)
      · exact h.kept k f hf
    · intro a b hab
      obtain ⟨⟨f, hf⟩, ⟨g, hg⟩⟩ := h.ends a b hab
      rw [OrdMap.get_insert, OrdMap.get_insert]
      constructor <;> split_ifs <;> exact ⟨_, by first | rfl | assumption⟩

theorem groups (h : L.WellFormed) {source into : String}
    (hvalid : L.validateGroup source into = .ok ()) :
    { L with activeGroupings := L.activeGroupings.insert source into }.WellFormed := by
  rw [validateGroup] at hvalid
  split_ifs at hvalid with hends hgrouped hroot
  simp only [Bool.or_eq_true, decide_eq_true_eq, Bool.not_eq_true', not_or,
    Bool.not_eq_false] at hends
  obtain ⟨⟨hne, hsource⟩, hinto⟩ := hends
  rw [OrdMap.contains_iff] at hsource hinto
  have hfree : L.activeGroupings.get source = none := by
    by_contra hsome
    exact hgrouped (OrdMap.contains_iff.mpr (Option.ne_none_iff_exists'.mp hsome))
  -- the target is its own root, so it is not grouped
  have htarget : L.activeGroupings.get into = none := by
    rw [not_not, groupRoot] at hroot
    split_ifs at hroot
    obtain ⟨n, hn⟩ := Forest.leads_of_follow hroot
    exact hn.get_root
  refine ⟨h.nodup, h.mem_order, h.kept, ?_, h.rooted.insert hfree htarget hne, h.demands⟩
  intro a b hab
  rw [OrdMap.get_insert] at hab
  split_ifs at hab with ha
  · cases hab
    rw [ha]
    exact ⟨hsource, hinto⟩
  · exact h.ends a b hab

theorem ungroups (h : L.WellFormed) (source : String) :
    { L with activeGroupings := L.activeGroupings.erase source }.WellFormed := by
  refine ⟨h.nodup, h.mem_order, h.kept, ?_, h.rooted.erase source, h.demands⟩
  intro a b hab
  rw [OrdMap.get_erase] at hab
  split_ifs at hab
  exact h.ends a b hab

theorem setStatuses (h : L.WellFormed) (keys : List String) (status : FindingStatus)
    (t : Transition) : (L.setStatuses keys status t).WellFormed := by
  rw [restate_setStatuses]
  exact h.restate _

theorem coverMembers (h : L.WellFormed) (keys : List String) (id : RecordedId)
    (r : FindingResolution) (status : FindingStatus) :
    (L.coverMembers keys id r status).WellFormed := by
  have hset := h.setStatuses keys status ⟨L.round, .resolved status, some r.reason⟩
  exact ⟨hset.nodup, hset.mem_order, hset.kept, hset.ends, hset.rooted, hset.demands⟩

/-- Every accepted input keeps a Ledger well formed. -/
theorem step (h : L.WellFormed) (hstep : L.step viewId input = some L') : L'.WellFormed := by
  cases step_changes hstep with
  | keeps _ _ hsame => exact h.congr hsame
  | reports key r _ _ hsame => exact (h.attachReport key r).congr hsame
  | restates changes _ _ hsame => exact (h.restate changes).congr hsame
  | groups source into _ _ hvalid hsame => exact (h.groups hvalid).congr hsame
  | ungroups source into _ _ _ hsame => exact (h.ungroups source).congr hsame
  | covers keys id r status _ _ _ hsame => exact (h.coverMembers keys id r status).congr hsame

theorem run {policy : String} {round : ℕ} {inputs : List LedgerInput}
    (hrun : run (Ledger.step viewId) (start policy round) inputs = some L) : L.WellFormed :=
  run_invariant (fun _ _ _ h hstep => h.step hstep) (wellFormed_start policy round) hrun

end WellFormed

/-! ## Roots and members -/

theorem groupRoot_eq_some {key root : String} :
    L.groupRoot key = some root ↔
      (∃ f, L.findings.get key = some f) ∧ ∃ n, Forest.Leads L.activeGroupings n key root := by
  rw [groupRoot, ← OrdMap.contains_iff, ← Forest.follow_eq_some]
  split_ifs with hfinding
  · simp only [hfinding, true_and]
  · simp only [hfinding, reduceCtorEq, false_and]

namespace WellFormed

/-- Groupings lead from Findings to Findings. -/
theorem leads (h : L.WellFormed) {n : ℕ} {key root : String}
    (hlead : Forest.Leads L.activeGroupings n key root)
    (hkey : ∃ f, L.findings.get key = some f) : ∃ f, L.findings.get root = some f := by
  induction hlead with
  | root _ => exact hkey
  | up hedge _ ih => exact ih (h.ends _ _ hedge).2

theorem exists_groupRoot (h : L.WellFormed) {key : String} {f : Finding}
    (hkey : L.findings.get key = some f) :
    ∃ root g, L.groupRoot key = some root ∧ L.activeGroupings.get root = none ∧
      L.findings.get root = some g := by
  obtain ⟨n, root, hlead⟩ := h.rooted key
  obtain ⟨g, hg⟩ := h.leads hlead ⟨f, hkey⟩
  exact ⟨root, g, groupRoot_eq_some.mpr ⟨⟨f, hkey⟩, n, hlead⟩, hlead.get_root, hg⟩

/-- A root is a Finding and its own root. -/
theorem groupRoot_root (h : L.WellFormed) {key root : String} (hroot : L.groupRoot key = some root) :
    L.groupRoot root = some root ∧ ∃ g, L.findings.get root = some g := by
  obtain ⟨hkey, n, hlead⟩ := groupRoot_eq_some.mp hroot
  have hfinding := h.leads hlead hkey
  exact ⟨groupRoot_eq_some.mpr ⟨hfinding, 0, .root hlead.get_root⟩, hfinding⟩

end WellFormed

/-- The keys of a root's group. -/
def memberKeys (L : Ledger) (root : String) : List String :=
  L.order.filter fun key => L.groupRoot key = some root

theorem groupMembers_eq (L : Ledger) (root : String) :
    L.groupMembers root = (L.memberKeys root).filterMap L.findings.get := by
  rw [groupMembers, memberKeys, List.filterMap_filter]
  simp only [decide_eq_true_eq]

namespace WellFormed

theorem mem_memberKeys (h : L.WellFormed) {key root : String} :
    key ∈ L.memberKeys root ↔ L.groupRoot key = some root := by
  rw [memberKeys, List.mem_filter, decide_eq_true_eq, h.mem_order]
  constructor
  · exact And.right
  · intro hroot
    exact ⟨(groupRoot_eq_some.mp hroot).1, hroot⟩

theorem mem_groupMembers (h : L.WellFormed) {f : Finding} {root : String} :
    f ∈ L.groupMembers root ↔ L.groupRoot f.key = some root ∧ L.findings.get f.key = some f := by
  rw [groupMembers_eq, List.mem_filterMap]
  constructor
  · rintro ⟨key, hkey, hget⟩
    rw [(h.kept key f hget).key_eq]
    exact ⟨h.mem_memberKeys.mp hkey, hget⟩
  · rintro ⟨hroot, hget⟩
    exact ⟨f.key, h.mem_memberKeys.mpr hroot, hget⟩

/-- The records of known keys carry these keys. -/
theorem map_key (h : L.WellFormed) {keys : List String}
    (hkeys : ∀ key ∈ keys, ∃ f, L.findings.get key = some f) :
    (keys.filterMap L.findings.get).map Finding.key = keys := by
  induction keys with
  | nil => rfl
  | cons key keys ih =>
    obtain ⟨f, hf⟩ := hkeys key List.mem_cons_self
    rw [List.filterMap_cons_some hf, List.map_cons, (h.kept key f hf).key_eq,
      ih fun k hk => hkeys k (List.mem_cons_of_mem _ hk)]

theorem groupMembers_map_key (h : L.WellFormed) (root : String) :
    (L.groupMembers root).map Finding.key = L.memberKeys root := by
  rw [groupMembers_eq]
  exact h.map_key fun key hkey => (groupRoot_eq_some.mp (h.mem_memberKeys.mp hkey)).1

end WellFormed

/-! ## Views -/

theorem findingViewForRoot_eq_some {root : String} {v : Finding}
    (hview : L.findingViewForRoot root = some v) :
    ∃ f aliases, L.findings.get root = some f ∧
      aliases = ((L.groupMembers root).filter fun f => f.key ≠ root).map Finding.key ∧
      v = if aliases.isEmpty then { f with aliases := aliases }
        else mergedView f (L.groupMembers root) aliases := by
  rw [findingViewForRoot, Option.map_eq_some_iff] at hview
  obtain ⟨f, hf, rfl⟩ := hview
  exact ⟨f, _, hf, rfl, rfl⟩

theorem findingViewForRoot_aliases {root : String} {v : Finding}
    (hview : L.findingViewForRoot root = some v) :
    v.aliases = ((L.groupMembers root).map Finding.key).filter fun key => key ≠ root := by
  obtain ⟨f, aliases, -, haliases, rfl⟩ := findingViewForRoot_eq_some hview
  have hself : (if aliases.isEmpty then { f with aliases := aliases }
      else mergedView f (L.groupMembers root) aliases).aliases = aliases := by
    split_ifs <;> rfl
  rw [hself, haliases, List.filter_map]
  rfl

namespace WellFormed

variable {root : String} {v : Finding}

theorem view_key (h : L.WellFormed) (hview : L.findingViewForRoot root = some v) : v.key = root := by
  obtain ⟨f, aliases, hf, -, rfl⟩ := findingViewForRoot_eq_some hview
  have hkey := (h.kept root f hf).key_eq
  split_ifs <;> exact hkey

/-- A view stands for the members of its group. -/
theorem view_members (h : L.WellFormed) (hroot : L.groupRoot root = some root)
    (hview : L.findingViewForRoot root = some v) :
    (v.key :: v.aliases).Perm (L.memberKeys root) := by
  have hmem : root ∈ L.memberKeys root := h.mem_memberKeys.mpr hroot
  have hnodup : (L.memberKeys root).Nodup := h.nodup.filter _
  have herase : (L.memberKeys root).filter (fun key => key ≠ root) =
      (L.memberKeys root).erase root := by
    rw [hnodup.erase_eq_filter]
    exact List.filter_congr fun key _ => by simp [bne, beq_eq_decide]
  rw [h.view_key hview, findingViewForRoot_aliases hview, h.groupMembers_map_key, herase]
  exact (List.perm_cons_erase hmem).symm

/-- A view whose group is its root alone is the root's record. -/
theorem view_alone (h : L.WellFormed) (hroot : L.groupRoot root = some root) {f : Finding}
    (hf : L.findings.get root = some f) (hview : L.findingViewForRoot root = some v)
    (halone : v.aliases = []) : L.groupMembers root = [f] := by
  have hkeys : (L.memberKeys root).Perm [root] := by
    have hmembers := (h.view_members hroot hview).symm
    rw [halone, h.view_key hview] at hmembers
    exact hmembers
  rw [groupMembers_eq, List.perm_singleton.mp hkeys, List.filterMap_cons_some hf]
  rfl

theorem view_reports (h : L.WellFormed) (hroot : L.groupRoot root = some root)
    (hview : L.findingViewForRoot root = some v) :
    v.reports = (L.groupMembers root).flatMap Finding.reports := by
  obtain ⟨f, aliases, hf, -, hv⟩ := findingViewForRoot_eq_some hview
  split_ifs at hv with hempty
  · have halone : v.aliases = [] := by
      rw [hv]
      exact List.isEmpty_iff.mp hempty
    rw [h.view_alone hroot hf hview halone, hv]
    simp
  · rw [hv]
    rfl

end WellFormed

/-- The roots of the Findings, each once. -/
def roots (L : Ledger) : List String := (L.order.filterMap L.groupRoot).eraseDups

theorem nodup_roots (L : Ledger) : L.roots.Nodup := nodup_eraseDups _

theorem mem_roots {root : String} :
    root ∈ L.roots ↔ ∃ key ∈ L.order, L.groupRoot key = some root := by
  rw [roots, List.mem_eraseDups, List.mem_filterMap]

namespace WellFormed

theorem root_view (h : L.WellFormed) {root : String} (hroot : root ∈ L.roots) :
    L.groupRoot root = some root ∧ ∃ v, L.findingViewForRoot root = some v := by
  obtain ⟨key, -, hkey⟩ := mem_roots.mp hroot
  obtain ⟨hself, f, hf⟩ := h.groupRoot_root hkey
  refine ⟨hself, ?_⟩
  rw [findingViewForRoot, hf]
  exact ⟨_, rfl⟩

/-- What is read off a view depends on its group only, so the views together read what all
Findings have, each once. -/
theorem views_perm {β : Type} (h : L.WellFormed) {g : Finding → List β} {m : String → List β}
    (hview : ∀ root v, L.groupRoot root = some root → L.findingViewForRoot root = some v →
      (g v).Perm ((L.memberKeys root).flatMap m)) :
    (L.findingViews.flatMap g).Perm (L.order.flatMap m) := by
  have hroots : (L.findingViews.flatMap g).Perm
      (L.roots.flatMap fun root => (L.memberKeys root).flatMap m) := by
    rw [findingViews, List.filterMap_eq_flatMap_toList, List.flatMap_assoc]
    refine List.Perm.flatMap_left _ fun root hroot => ?_
    obtain ⟨hself, v, hv⟩ := h.root_view hroot
    rw [hv, Option.toList_some, List.flatMap_singleton]
    exact hview root v hself hv
  have hsplit : (L.roots.flatMap L.memberKeys).Perm L.order := by
    have hkeys : ∀ key ∈ L.order, L.groupRoot key ∈ L.roots.map some := by
      intro key hkey
      obtain ⟨f, hf⟩ := (h.mem_order key).mp hkey
      obtain ⟨root, -, hroot, -⟩ := h.exists_groupRoot hf
      rw [hroot]
      exact List.mem_map_of_mem (mem_roots.mpr ⟨key, hkey, hroot⟩)
    have hperm := perm_flatMap_filter (L.nodup_roots.map (Option.some_injective _)) hkeys
    rw [List.flatMap_map] at hperm
    exact hperm
  refine hroots.trans ?_
  rw [← List.flatMap_assoc]
  exact hsplit.flatMap_right m

/-- Each Finding stands in exactly one view. -/
theorem views_keys (h : L.WellFormed) :
    (L.findingViews.flatMap fun v => v.key :: v.aliases).Perm L.findings.keys := by
  have hviews := h.views_perm (g := fun v => v.key :: v.aliases) (m := fun key => [key]) (by
    intro root v hroot hview
    rw [List.flatMap_singleton']
    exact h.view_members hroot hview)
  rw [List.flatMap_singleton'] at hviews
  refine hviews.trans ((List.perm_ext_iff_of_nodup h.nodup L.findings.keys_nodup).mpr fun key => ?_)
  rw [h.mem_order, OrdMap.mem_keys_iff]

end WellFormed

/-! ## Reports -/

/-- The reports attached to a Finding's own record. -/
def attachedTo (L : Ledger) (key : String) : List AttachedReport :=
  ((L.findings.get key).map Finding.reports).getD []

/-- Where they come from. -/
def reportsOf (L : Ledger) (key : String) : List ReportOrigin :=
  ((L.findings.get key).map fun f => f.reports.map AttachedReport.origin).getD []

theorem reportsOf_eq (L : Ledger) (key : String) :
    L.reportsOf key = (L.attachedTo key).map AttachedReport.origin := by
  rw [reportsOf, attachedTo]
  cases L.findings.get key <;> rfl

theorem attachedTo_congr (hfindings : L'.findings = L.findings) (key : String) :
    L'.attachedTo key = L.attachedTo key := by
  rw [attachedTo, attachedTo, hfindings]

theorem attachedTo_setStatus (key : String) (status : FindingStatus) (t : Transition)
    (k : String) : (L.setStatus key status t).attachedTo k = L.attachedTo k := by
  rw [attachedTo, attachedTo, get_setStatus, Option.map_map]
  congr 2
  funext f
  simp only [Function.comp_apply]
  split_ifs <;> rfl

theorem attachedTo_restate (changes : List (String × FindingStatus × Transition)) (k : String) :
    (L.restate changes).attachedTo k = L.attachedTo k := by
  induction changes generalizing L with
  | nil => rfl
  | cons c changes ih =>
    have hrest : (L.restate (c :: changes)).attachedTo k =
        (L.setStatus c.1 c.2.1 c.2.2).attachedTo k := ih
    rw [hrest, attachedTo_setStatus]

theorem attachedTo_attachReport (key : String) (r : Reporting) (k : String) :
    (L.attachReport key r).attachedTo k =
      L.attachedTo k ++ if k = key then [r.attached] else [] := by
  rw [attachedTo, attachedTo, attachReport]
  cases hget : L.findings.get key with
  | none =>
    rw [OrdMap.get_insert]
    by_cases hk : k = key
    · rw [if_pos hk, if_pos hk, hk, hget]
      rfl
    · rw [if_neg hk, if_neg hk, List.append_nil]
  | some finding =>
    rw [OrdMap.get_insert]
    by_cases hk : k = key
    · rw [if_pos hk, if_pos hk, hk, hget]
      simp only [Option.map_some, Option.getD_some, Reporting.reports_revise]
    · rw [if_neg hk, if_neg hk, List.append_nil]

/-- One accepted input attaches the report it admits, and no other. -/
theorem attachedTo_step (hstep : L.step viewId input = some L') :
    (input.reported = none ∧ ∀ k, L'.attachedTo k = L.attachedTo k) ∨
      ∃ key report, input.reported = some (key, report.origin) ∧
        ∀ k, L'.attachedTo k = L.attachedTo k ++ if k = key then [report] else [] := by
  cases step_changes hstep with
  | keeps hreport _ hsame => exact .inl ⟨hreport, attachedTo_congr hsame.findings⟩
  | reports key r hreport _ hsame =>
    refine .inr ⟨key, r.attached, hreport, fun k => ?_⟩
    rw [attachedTo_congr hsame.findings, attachedTo_attachReport]
  | restates changes hreport _ hsame =>
    refine .inl ⟨hreport, fun k => ?_⟩
    rw [attachedTo_congr hsame.findings, attachedTo_restate]
  | groups source into hreport _ _ hsame => exact .inl ⟨hreport, attachedTo_congr hsame.findings⟩
  | ungroups source into hreport _ _ hsame => exact .inl ⟨hreport, attachedTo_congr hsame.findings⟩
  | covers keys id r status hreport _ _ hsame =>
    refine .inl ⟨hreport, fun k => ?_⟩
    have hset := attachedTo_restate (L := L) (keys.map fun key => (key, status,
      ⟨L.round, .resolved status, some r.reason⟩)) k
    rw [← restate_setStatuses] at hset
    exact (attachedTo_congr hsame.findings k).trans hset

theorem reportsOf_step (hstep : L.step viewId input = some L') (k : String) :
    L'.reportsOf k = L.reportsOf k ++
      (input.reported.toList.filter fun report => report.1 = k).map Prod.snd := by
  rw [reportsOf_eq, reportsOf_eq]
  rcases attachedTo_step hstep with ⟨hreport, hkept⟩ | ⟨key, report, hreport, hattached⟩
  · rw [hreport, hkept]
    simp
  · rw [hreport, hattached]
    by_cases hk : k = key
    · simp [hk]
    · simp [hk, Ne.symm hk]

/-- A record holds the reports admitted for its key. -/
theorem reportsOf_run {inputs : List LedgerInput} (hrun : run (step viewId) L inputs = some L')
    (k : String) : L'.reportsOf k = L.reportsOf k ++
      ((inputs.filterMap LedgerInput.reported).filter fun report => report.1 = k).map Prod.snd := by
  induction inputs generalizing L with
  | nil =>
    cases hrun
    simp
  | cons input inputs ih =>
    obtain ⟨M, hstep, hrun⟩ := run_cons_eq_some.mp hrun
    have hcons : (input :: inputs).filterMap LedgerInput.reported =
        input.reported.toList ++ inputs.filterMap LedgerInput.reported := by
      rw [List.filterMap_cons]
      cases input.reported <;> rfl
    rw [ih hrun, reportsOf_step hstep, List.append_assoc, ← List.map_append, ← List.filter_append,
      hcons]

namespace WellFormed

/-- Each attached report stands in exactly one view. -/
theorem views_reports (h : L.WellFormed) :
    (L.findingViews.flatMap fun v => v.reports.map AttachedReport.origin).Perm
      (L.order.flatMap L.reportsOf) := by
  refine h.views_perm fun root v hroot hview => ?_
  rw [h.view_reports hroot hview, List.map_flatMap, groupMembers_eq]
  have hmembers : ∀ keys : List String, (∀ key ∈ keys, ∃ f, L.findings.get key = some f) →
      ((keys.filterMap L.findings.get).flatMap fun f => f.reports.map AttachedReport.origin) =
        keys.flatMap L.reportsOf := by
    intro keys hkeys
    rw [List.filterMap_eq_flatMap_toList, List.flatMap_assoc]
    refine List.flatMap_congr fun key hkey => ?_
    obtain ⟨f, hf⟩ := hkeys key hkey
    rw [reportsOf, hf, Option.toList_some, List.flatMap_singleton]
    rfl
  rw [hmembers _ fun key hkey => (groupRoot_eq_some.mp (h.mem_memberKeys.mp hkey)).1]

end WellFormed

/-- **Finding groups lose nothing.** After any run of accepted inputs the active groupings have
no cycle; the walk from each Finding ends at a root, itself a Finding that is not grouped; each
Finding stands in exactly one view, as its root or an alias; and each report the run admitted
stands in exactly one view. -/
theorem groups_lose_nothing {policy : String} {round : ℕ} {inputs : List LedgerInput}
    (hrun : run (step viewId) (start policy round) inputs = some L) :
    Forest.Acyclic L.activeGroupings ∧
    (∀ key f, L.findings.get key = some f → ∃ root g, L.groupRoot key = some root ∧
      L.activeGroupings.get root = none ∧ L.findings.get root = some g) ∧
    (L.findingViews.flatMap fun v => v.key :: v.aliases).Perm L.findings.keys ∧
    (L.findingViews.flatMap fun v => v.reports.map AttachedReport.origin).Perm
      (inputs.filterMap fun input => input.reported.map Prod.snd) := by
  have h := WellFormed.run hrun
  refine ⟨h.rooted.acyclic, fun key f hf => h.exists_groupRoot hf, h.views_keys,
    h.views_reports.trans ?_⟩
  -- the records together hold what was reported, split by the key each report names
  have hrecords : ∀ key, L.reportsOf key =
      ((inputs.filterMap LedgerInput.reported).filter fun report => report.1 = key).map Prod.snd :=
    reportsOf_run hrun
  have hknown : ∀ report ∈ inputs.filterMap LedgerInput.reported, report.1 ∈ L.order := by
    intro report hreport
    have hmem : report.2 ∈ L.reportsOf report.1 := by
      rw [hrecords]
      exact List.mem_map_of_mem (List.mem_filter.mpr ⟨hreport, by simp⟩)
    rw [h.mem_order]
    cases hget : L.findings.get report.1 with
    | none =>
      rw [reportsOf, hget] at hmem
      cases hmem
    | some f => exact ⟨f, rfl⟩
  have hsplit := (perm_flatMap_filter h.nodup hknown).map Prod.snd
  rw [List.map_flatMap, List.map_filterMap] at hsplit
  rw [funext hrecords]
  exact hsplit

end Ledger

/-! ## A run -/

/-- A whole-tree Subject, a report, a grouping and its undoing, and two Resolutions with a challenge
between them. -/
def sampleStore : ContentStore where
  read
    | "report" => .ok ⟨"report", some "head", .findingReport ⟨"lost update", .major,
        [⟨"src/main.rs", some 7⟩], "the last writer wins", "take the lock", 9 / 10, none, none, []⟩⟩
    | "group" => .ok ⟨"group", none, .grouping ⟨"key", "into", .group⟩⟩
    | "ungroup" => .ok ⟨"ungroup", none, .grouping ⟨"key", "into", .ungroup⟩⟩
    | "resolution" => .ok ⟨"resolution", some "head", .findingResolution
        ⟨"into", "into/key+++", "subject", .rejected, "by design"⟩⟩
    | "challenge" => .ok ⟨"challenge", some "head", .resolutionChallenge
        ⟨"into", "resolution", "subject", .newEvidence, "a failing test"⟩⟩
    | "narrower" => .ok ⟨"narrower", some "head", .findingResolution
        ⟨"into", "into++++", "subject", .rejected, "by design, alone"⟩⟩
    | id => .error ("missing object " ++ id)
  verify _ := .ok ()
  resolveSubjectScope _ := .ok ⟨⟨.wholeTree, none, "head"⟩, none⟩
  manifestPolicy _ := .ok canonicalFindingIdentityPolicy

/-- A digest that tells apart views that differ in their group or their history. -/
def sampleViewId (f : Finding) : Option String :=
  some ("/".intercalate (f.key :: f.aliases) ++ String.ofList (f.history.map fun _ => '+'))

def sampleReported (key source : String) : LedgerInput :=
  .event sampleStore (.findingReported ⟨some key, some source, some 1, some "report"⟩) ["report"]

/-- Two Findings reported and grouped. -/
def sampleGrouped : List LedgerInput := [
  .event sampleStore (.roundStarted ⟨1, "subject"⟩) [],
  sampleReported "into" "reviewer",
  sampleReported "key" "reviewer",
  sampleReported "into" "auditor",
  .event sampleStore (.findingsGrouped .group ⟨"key", "into", "group"⟩) ["group"]]

namespace Ledger

theorem groups_lose_nothing_grouped : ∃ L,
    run (step sampleViewId) (start canonicalFindingIdentityPolicy 1) sampleGrouped = some L ∧
      L.groupRoot "key" = some "into" ∧ Forest.Acyclic L.activeGroupings ∧
      (L.findingViews.flatMap fun v => v.reports.map AttachedReport.origin).Perm
        [⟨"report", "reviewer", 1⟩, ⟨"report", "reviewer", 1⟩, ⟨"report", "auditor", 1⟩] := by
  have hrun : ∃ L ∈ run (step sampleViewId) (start canonicalFindingIdentityPolicy 1) sampleGrouped,
      L.groupRoot "key" = some "into" := by decide
  obtain ⟨L, hrun, hroot⟩ := hrun
  have hviews := groups_lose_nothing hrun
  exact ⟨L, hrun, hroot, hviews.1, hviews.2.2.2⟩

end Ledger

end Afactory
