import Mathlib
import Afactory.LedgerGroups

/-!
# What a Resolution covers

A Resolution is recorded under the Finding it names, and each member of its group under that
Finding's authority. Authority is never taken back, so a member that has left the group is
covered by the next Resolution of the same Finding.

* `CoversMember`: a Resolution covers a key that was in the group when it was last admitted;
* `CoveredPresent`: whoever is under the authority of a Finding is in its group when it is
  resolved;
* `resolutions_cover_present`: along a run each Resolution covers only who was there exactly
  when every admission meets that condition.
-/

namespace Afactory

namespace Ledger

variable {viewId : Finding → Option String} {L L' : Ledger} {input : LedgerInput}

/-- The Resolution was last admitted by this run while the key was in the group of the Finding
it names. -/
def CoversMember (viewId : Finding → Option String) (s : Ledger) (inputs : List LedgerInput)
    (key : String) (R : RecordedResolution) : Prop :=
  ∃ before input after M, inputs = before ++ input :: after ∧
    run (step viewId) s before = some M ∧ input.resolves = some R ∧
    (∃ root, M.groupRoot R.resolution.findingId = some root ∧ M.groupRoot key = some root) ∧
    ∀ later ∈ after, ∀ R' ∈ later.resolves, R'.resolution.findingId ≠ R.resolution.findingId

/-- In every state of the run, each Resolution found for a key covers it. -/
def ResolutionsCoverPresent (viewId : Finding → Option String) (s : Ledger)
    (inputs : List LedgerInput) : Prop :=
  ∀ before after L, inputs = before ++ after → run (step viewId) s before = some L →
    ∀ key R, L.resolution key = some R → CoversMember viewId s before key R

/-- Whoever is recorded under the authority of a Finding that is resolved is in its group. -/
def CoveredPresent (L : Ledger) (input : LedgerInput) : Prop :=
  ∀ R ∈ input.resolves, ∀ entry ∈ L.resolutionAuthority.entries,
    entry.2 = R.resolution.findingId → L.groupRoot entry.1 = L.groupRoot R.resolution.findingId

instance (L : Ledger) (input : LedgerInput) : Decidable (CoveredPresent L input) := by
  unfold CoveredPresent
  infer_instance

theorem CoveredPresent.groupRoot_eq (h : L.CoveredPresent input) {R : RecordedResolution}
    (hresolve : input.resolves = some R) {key : String}
    (hkey : L.resolutionAuthority.get key = some R.resolution.findingId) :
    L.groupRoot key = L.groupRoot R.resolution.findingId :=
  h R hresolve (key, R.resolution.findingId) (OrdMap.mem_iff_get.mpr hkey) rfl

/-! ## One input -/

theorem restate_resolutions (changes : List (String × FindingStatus × Transition)) :
    (L.restate changes).resolutions = L.resolutions := by
  induction changes generalizing L with
  | nil => rfl
  | cons c changes ih =>
    have hrest : (L.restate (c :: changes)).resolutions =
        (L.setStatus c.1 c.2.1 c.2.2).resolutions := ih
    rw [hrest, setStatus_resolutions]

theorem restate_authority (changes : List (String × FindingStatus × Transition)) :
    (L.restate changes).resolutionAuthority = L.resolutionAuthority := by
  induction changes generalizing L with
  | nil => rfl
  | cons c changes ih =>
    have hrest : (L.restate (c :: changes)).resolutionAuthority =
        (L.setStatus c.1 c.2.1 c.2.2).resolutionAuthority := ih
    rw [hrest, setStatus_authority]

/-- Only an admitted Resolution changes what is resolved and by which authority: it is recorded
under the Finding it names, and the members of the group under that Finding. -/
theorem resolutions_step (hstep : L.step viewId input = some L') :
    (input.resolves = none ∧ L'.resolutions = L.resolutions ∧
      L'.resolutionAuthority = L.resolutionAuthority) ∨
    ∃ R keys, input.resolves = some R ∧ L.findingMemberKeys R.resolution.findingId = .ok keys ∧
      L'.resolutions = L.resolutions.insert R.resolution.findingId R ∧
      L'.resolutionAuthority = L.resolutionAuthority.insertAll
        (keys.map fun key => (key, R.resolution.findingId)) := by
  cases step_changes hstep with
  | keeps _ hresolve hsame => exact .inl ⟨hresolve, hsame.resolutions, hsame.authority⟩
  | reports key r _ hresolve hsame =>
    have hkeep : (L.attachReport key r).resolutions = L.resolutions ∧
        (L.attachReport key r).resolutionAuthority = L.resolutionAuthority := by
      rw [attachReport]
      split <;> exact ⟨rfl, rfl⟩
    exact .inl ⟨hresolve, hsame.resolutions.trans hkeep.1, hsame.authority.trans hkeep.2⟩
  | restates changes _ hresolve hsame =>
    exact .inl ⟨hresolve, hsame.resolutions.trans (restate_resolutions changes),
      hsame.authority.trans (restate_authority changes)⟩
  | groups source into _ hresolve _ hsame =>
    exact .inl ⟨hresolve, hsame.resolutions, hsame.authority⟩
  | ungroups source into _ hresolve _ hsame =>
    exact .inl ⟨hresolve, hsame.resolutions, hsame.authority⟩
  | covers keys id r status _ hresolve hkeys hsame =>
    refine .inr ⟨⟨id, r⟩, keys, hresolve, hkeys, ?_, ?_⟩
    · rw [hsame.resolutions, coverMembers, restate_setStatuses]
      simp only [restate_resolutions]
    · rw [hsame.authority, coverMembers, restate_setStatuses]
      simp only [restate_authority]

/-- The members of a Finding's group are the keys with its root. -/
theorem WellFormed.mem_findingMemberKeys (h : L.WellFormed) {findingId : String}
    {keys : List String} (hkeys : L.findingMemberKeys findingId = .ok keys) :
    ∃ root, L.groupRoot findingId = some root ∧
      ∀ key, key ∈ keys ↔ L.groupRoot key = some root := by
  rw [findingMemberKeys] at hkeys
  split at hkeys
  case h_1 => cases hkeys
  case h_2 root hroot =>
    cases hkeys
    refine ⟨root, hroot, fun key => ?_⟩
    rw [h.groupMembers_map_key, h.mem_memberKeys]

/-- What a key resolves to after a Resolution was admitted. -/
theorem authority_insertAll {keys : List String} {R : RecordedResolution}
    (hauthority : L'.resolutionAuthority = L.resolutionAuthority.insertAll
      (keys.map fun key => (key, R.resolution.findingId))) {key findingId : String}
    (hkey : L'.resolutionAuthority.get key = some findingId) :
    (key ∈ keys ∧ findingId = R.resolution.findingId) ∨
      (key ∉ keys ∧ L.resolutionAuthority.get key = some findingId) := by
  rw [hauthority, OrdMap.get_insertAll_const] at hkey
  split_ifs at hkey with hmem
  · cases hkey
    exact .inl ⟨hmem, rfl⟩
  · exact .inr ⟨hmem, hkey⟩

/-! ## Along a run -/

/-- The last input of a run admits the Resolution. -/
theorem coversMember_last {s M : Ledger} {before : List LedgerInput} {key : String}
    {R : RecordedResolution} (hrun : run (step viewId) s before = some M)
    (hresolve : input.resolves = some R)
    (hmember : ∃ root, M.groupRoot R.resolution.findingId = some root ∧
      M.groupRoot key = some root) : CoversMember viewId s (before ++ [input]) key R :=
  ⟨before, input, [], M, rfl, hrun, hresolve, hmember, fun _ h => absurd h List.not_mem_nil⟩

/-- An input that resolves another Finding, or none, leaves what was covered. -/
theorem CoversMember.snoc {s : Ledger} {inputs : List LedgerInput} {key : String}
    {R : RecordedResolution} (h : CoversMember viewId s inputs key R)
    (hother : ∀ R' ∈ input.resolves, R'.resolution.findingId ≠ R.resolution.findingId) :
    CoversMember viewId s (inputs ++ [input]) key R := by
  obtain ⟨before, admitted, after, M, rfl, hrun, hresolve, hmember, hafter⟩ := h
  refine ⟨before, admitted, after ++ [input], M, by simp, hrun, hresolve, hmember, ?_⟩
  intro later hlater
  rcases List.mem_append.mp hlater with hlater | hlater
  · exact hafter later hlater
  · rw [List.mem_singleton] at hlater
    rw [hlater]
    exact hother

/-- A Resolution of the same Finding admitted last is the one that covers. -/
theorem CoversMember.of_last {s M : Ledger} {before : List LedgerInput} {key : String}
    {R R' : RecordedResolution} (h : CoversMember viewId s (before ++ [input]) key R)
    (hrun : run (step viewId) s before = some M) (hresolve : input.resolves = some R')
    (hsame : R'.resolution.findingId = R.resolution.findingId) :
    M.groupRoot key = M.groupRoot R.resolution.findingId := by
  obtain ⟨before', admitted, after, M', hsplit, hrun', -, ⟨root, hroot, hkey⟩, hafter⟩ := h
  rcases List.eq_nil_or_concat after with rfl | ⟨after', last, rfl⟩
  · obtain ⟨rfl, -⟩ := List.append_inj' hsplit rfl
    rw [hrun] at hrun'
    cases hrun'
    rw [hroot, hkey]
  · -- the last input would have to resolve another Finding
    rw [List.concat_eq_append, ← List.cons_append, ← List.append_assoc] at hsplit
    obtain ⟨-, hlast⟩ := List.append_inj' hsplit rfl
    cases hlast
    exact absurd hsame (hafter input (by simp) R' hresolve)

/-- What authority means after a run: the Finding has a Resolution of its own, and it covers
everyone recorded under the Finding. -/
def AuthorityCovers (viewId : Finding → Option String) (s : Ledger) (inputs : List LedgerInput)
    (L : Ledger) : Prop :=
  ∀ key findingId, L.resolutionAuthority.get key = some findingId →
    ∃ R, L.resolutions.get findingId = some R ∧ R.resolution.findingId = findingId ∧
      CoversMember viewId s inputs key R

theorem authorityCovers_run {policy : String} {round : ℕ} {inputs : List LedgerInput}
    (hrun : run (step viewId) (start policy round) inputs = some L)
    (hpresent : StepsMeet (step viewId) CoveredPresent (start policy round) inputs) :
    AuthorityCovers viewId (start policy round) inputs L := by
  -- over the inputs from the end: each admission covers its group, and the condition says that
  -- nobody else is under its authority
  induction inputs using List.reverseRecOn generalizing L with
  | nil =>
    cases hrun
    intro key findingId hkey
    cases hkey
  | append_singleton before input ih =>
    obtain ⟨M, hbefore, hlast⟩ := run_append_eq_some.mp hrun
    obtain ⟨hmeets, hmeet⟩ := stepsMeet_append hpresent
    obtain ⟨L', hstep, hL'⟩ := run_cons_eq_some.mp hlast
    cases hL'
    have hcover := ih hbefore hmeets
    have hM := WellFormed.run hbefore
    intro key findingId hkey
    rcases resolutions_step hstep with ⟨hnone, hresolutions, hauthority⟩ |
      ⟨R, keys, hresolve, hkeys, hresolutions, hauthority⟩
    · rw [hauthority] at hkey
      obtain ⟨R, hR, hfinding, hcovers⟩ := hcover key findingId hkey
      refine ⟨R, hresolutions ▸ hR, hfinding, hcovers.snoc ?_⟩
      rw [hnone]
      simp
    · obtain ⟨root, hroot, hmembers⟩ := hM.mem_findingMemberKeys hkeys
      rw [hresolutions, OrdMap.get_insert]
      rcases authority_insertAll hauthority hkey with ⟨hmem, rfl⟩ | ⟨-, hold⟩
      · refine ⟨R, if_pos rfl, rfl, coversMember_last hbefore hresolve ?_⟩
        exact ⟨root, hroot, (hmembers key).mp hmem⟩
      · by_cases hsame : findingId = R.resolution.findingId
        · cases hsame
          refine ⟨R, if_pos rfl, rfl, coversMember_last hbefore hresolve ⟨root, hroot, ?_⟩⟩
          rw [(hmeet M hbefore).1.groupRoot_eq hresolve hold, hroot]
        · obtain ⟨R', hR', hfinding, hcovers⟩ := hcover key findingId hold
          refine ⟨R', by rw [if_neg hsame]; exact hR', hfinding, hcovers.snoc ?_⟩
          rw [hresolve]
          rintro _ ⟨⟩ heq
          exact hsame (hfinding.symm.trans heq.symm)

/-- Whoever a Resolution wrongly covers is found at the admission that does it. -/
theorem coveredPresent_of_cover {policy : String} {round : ℕ} {before after : List LedgerInput}
    {M : Ledger} (hbefore : run (step viewId) (start policy round) before = some M)
    (hrun : run (step viewId) (start policy round) (before ++ input :: after) = some L)
    (hcover : ResolutionsCoverPresent viewId (start policy round) (before ++ input :: after)) :
    M.CoveredPresent input := by
  intro R hresolve entry hentry hfinding
  obtain ⟨key, findingId⟩ := entry
  cases hfinding
  have hold := OrdMap.mem_iff_get.mp hentry
  obtain ⟨M', hM', hrest⟩ := run_append_eq_some.mp hrun
  rw [hbefore] at hM'
  cases hM'
  obtain ⟨L', hstep, -⟩ := run_cons_eq_some.mp hrest
  have hM := WellFormed.run hbefore
  rcases resolutions_step hstep with ⟨hnone, -, -⟩ |
    ⟨R', keys, hresolve', hkeys, hresolutions, hauthority⟩
  · rw [Option.mem_def, hnone] at hresolve
    cases hresolve
  · rw [Option.mem_def, hresolve'] at hresolve
    cases hresolve
    obtain ⟨root, hroot, hmembers⟩ := hM.mem_findingMemberKeys hkeys
    by_cases hmem : key ∈ keys
    · exact ((hmembers key).mp hmem).trans hroot.symm
    · -- the key stays under the authority, so this Resolution is found for it
      have hresolution : L'.resolution key = some R := by
        rw [resolution, hauthority, OrdMap.get_insertAll_const, if_neg hmem, hold,
          Option.bind_some, hresolutions, OrdMap.get_insert_self]
      have hcovers := hcover (before ++ [input]) after L' (by simp)
        (run_append_eq_some.mpr ⟨M, hbefore, run_cons_eq_some.mpr ⟨L', hstep, rfl⟩⟩) key R
        hresolution
      exact hcovers.of_last hbefore hresolve' rfl

/-- **Resolutions cover who was there, as long as nobody stays behind.** Along a run of accepted
inputs, in every state each Resolution found for a key was last admitted while the key was in
the group of the Finding it names, exactly when at every admission everyone recorded under the
authority of the Finding it names is in its group. -/
theorem resolutions_cover_present {policy : String} {round : ℕ} {inputs : List LedgerInput}
    (hrun : run (step viewId) (start policy round) inputs = some L) :
    ResolutionsCoverPresent viewId (start policy round) inputs ↔
      StepsMeet (step viewId) CoveredPresent (start policy round) inputs := by
  constructor
  · intro hcover
    refine stepsMeet_of_splits fun before input after M hsplit hbefore => ?_
    subst hsplit
    exact coveredPresent_of_cover hbefore hrun hcover
  · intro hpresent before after M hsplit hbefore key R hresolution
    subst hsplit
    obtain ⟨findingId, hkey, hR⟩ := Option.bind_eq_some_iff.mp hresolution
    obtain ⟨R', hR', -, hcovers⟩ :=
      authorityCovers_run hbefore (stepsMeet_append hpresent).1 key findingId hkey
    rw [hR] at hR'
    cases hR'
    exact hcovers

/-- A group resolved. -/
def sampleResolved : List LedgerInput := sampleGrouped ++ [
  .event sampleStore (.recorded .findingResolutionRecorded "resolution") ["resolution"]]

theorem resolutions_cover_present_resolved : ∃ L,
    run (step sampleViewId) (start canonicalFindingIdentityPolicy 1) sampleResolved = some L ∧
      (L.resolution "key").isSome = true ∧ ResolutionsCoverPresent sampleViewId
        (start canonicalFindingIdentityPolicy 1) sampleResolved := by
  have hrun : ∃ L ∈ run (step sampleViewId) (start canonicalFindingIdentityPolicy 1) sampleResolved,
      (L.resolution "key").isSome = true := by decide
  have hpresent : StepsMeet (step sampleViewId) CoveredPresent
      (start canonicalFindingIdentityPolicy 1) sampleResolved := by decide
  obtain ⟨L, hrun, hresolution⟩ := hrun
  exact ⟨L, hrun, hresolution, (resolutions_cover_present hrun).mpr hpresent⟩

/-- The group resolved, challenged and parted, and its root resolved on its own. -/
def sampleParted : List LedgerInput := sampleResolved ++ [
  .event sampleStore (.recorded .findingResolutionChallenged "challenge") ["challenge"],
  .event sampleStore (.findingsGrouped .ungroup ⟨"key", "into", "ungroup"⟩) ["ungroup"],
  .event sampleStore (.recorded .findingResolutionRecorded "narrower") ["narrower"]]

/-- The second Resolution is found for the Finding that had left the group before. -/
theorem parted_finding_resolved : ∃ L,
    run (step sampleViewId) (start canonicalFindingIdentityPolicy 1) sampleParted = some L ∧
      (L.resolution "key").map (fun R => R.id.recordId) = some "narrower" ∧
      ¬ ResolutionsCoverPresent sampleViewId (start canonicalFindingIdentityPolicy 1)
        sampleParted := by
  have hrun : ∃ L ∈ run (step sampleViewId) (start canonicalFindingIdentityPolicy 1) sampleParted,
      (L.resolution "key").map (fun R => R.id.recordId) = some "narrower" := by decide
  have hbefore : ∃ M ∈ run (step sampleViewId) (start canonicalFindingIdentityPolicy 1)
      sampleParted.dropLast, ¬ M.CoveredPresent (.event sampleStore
        (.recorded .findingResolutionRecorded "narrower") ["narrower"]) := by decide
  obtain ⟨L, hrun, hresolution⟩ := hrun
  obtain ⟨M, hbefore, habsent⟩ := hbefore
  exact ⟨L, hrun, hresolution, fun hcover =>
    habsent (coveredPresent_of_cover hbefore hrun hcover)⟩

end Ledger

end Afactory
