import Mathlib
import Afactory.Commands
import Afactory.LedgerFrames
import Afactory.LedgerResolutions
import Afactory.RefusedChallenges
import Afactory.ReviewReduction

/-!
# Policy time and expired acceptances

`advance_policy_time` of `review-store/src/ingest.rs`: a tick is published, and then a challenge of
each tracked acceptance that ends by it, as `expiring_resolutions` finds them.

* `publishOperatorArtifact`, `challengeResolution`, `advancePolicyTime`: the operations, as commands
  over an `Ingest`;
* `Challenged`: what a list of challenges changes;
* `expired_acceptances_contested`: which Findings the challenges of a tick reach.

An acceptance is found through the Finding it names; who is challenged with it is whoever is in the
group of that Finding now.
-/

namespace Afactory

open Command

/-! ## The operations -/

/-- What an operator records, with what the Ledger does not read of it. -/
inductive OperatorPayload where
  | resolutionChallenge (challenge : ResolutionChallenge) (actor : String)
      (evidenceIds : List String)
  | policyTime (tick : ℕ) (actor reason : String)
  deriving DecidableEq, Repr

def OperatorPayload.projected : OperatorPayload → ArtifactPayload
  | .resolutionChallenge challenge _ _ => .resolutionChallenge challenge
  | .policyTime tick _ _ => .policyTime tick

/-- The type of the event that records it. -/
def OperatorPayload.kind : OperatorPayload → RecordKind
  | .resolutionChallenge _ _ _ => .findingResolutionChallenged
  | .policyTime _ _ _ => .policyTimeAdvanced

/-- What the stores answer: the ids of an artifact with its inputs and its Subject Snapshot, and
the sequence number of the next event, after so many, of a type, a correlation and an artifact. -/
structure OperatorStores where
  putArtifact : OperatorPayload → List String → String → Except StoreError RecordedId
  append : ℕ → RecordKind → String → String → Except StoreError ℕ

/-- The content store once an artifact is in it. -/
def ContentStore.put (cas : ContentStore) (recordId : String) (artifact : Artifact) :
    ContentStore :=
  { cas with read := fun id => if id = recordId then .ok artifact else cas.read id }

/-- `Ingest`: the projection of a run that its operations keep up with the log. -/
structure Ingest where
  runId : String
  cas : ContentStore
  eventCount : ℕ
  ledger : Ledger

/-- `PolicyTimeV1::validate`. -/
def validatePolicyTime (tick : ℕ) (actor reason : String) : Except StoreError Unit :=
  if tick = 0 || isBlank actor || isBlank reason then
    .error (.conflict "PolicyTime@1 contains invalid persisted policy time")
  else .ok ()

/-- `expiring_resolutions`: the acceptances that end by a tick and whose own Finding is closed by
one. -/
def Ledger.expiringResolutions (L : Ledger) (tick : ℕ) : List RecordedResolution :=
  L.resolutions.values.filter fun R =>
    (R.resolution.expiresAt.any fun expiry => expiry ≤ tick) &&
      (L.findings.get R.resolution.findingId).any fun f => f.status = .wontfix

namespace Ingest

/-- `validate_watermark`. -/
def validateWatermark (I : Ingest) (sequence : ℕ) : Except StoreError Unit :=
  if sequence = I.eventCount then .ok ()
  else .error (.conflict ("Ledger ingest for `" ++ I.runId ++ "` expected sequence " ++
    toString I.eventCount ++ ", got " ++ toString sequence ++ " for `" ++ I.runId ++ "`"))

section Operations

variable (viewId : Finding → Option String) (stores : OperatorStores)

/-- `ledger.apply_event` of an appended event. -/
def applyRecorded (kind : RecordKind) (recordId : String) : Command StoreError Ingest Unit :=
  fun I => match I.ledger.apply viewId I.cas (.recorded kind recordId) [recordId] with
    | (.ok (), L) => (.ok (), { I with ledger := L })
    | (.error message, L) => (.error (.conflict message), { I with ledger := L })

/-- `publish_operator_artifact`. -/
def publishOperatorArtifact (correlationId : String) (inputArtifacts : List String)
    (payload : OperatorPayload) : Command StoreError Ingest String := do
  let snapshot ← check fun I => match I.ledger.activeHeadSnapshotId with
    | none => .error (.conflict "Campaign has no readable Subject Snapshot")
    | some snapshot => .ok snapshot
  let id ← check fun _ => stores.putArtifact payload inputArtifacts snapshot
  write fun I => { I with
    cas := I.cas.put id.recordId ⟨id.artifactId, some snapshot, payload.projected⟩ }
  let sequence ← check fun I => stores.append I.eventCount payload.kind correlationId id.recordId
  check fun I => I.validateWatermark sequence
  applyRecorded viewId payload.kind id.recordId
  write fun I => { I with eventCount := I.eventCount + 1 }
  return id.artifactId

/-- `challenge_resolution`. -/
def challengeResolution (findingId : String) (kind : ResolutionChallengeKind)
    (actor reason : String) (evidenceIds : List String) : Command StoreError Ingest String := do
  let resolution ← check fun I => match I.ledger.resolution findingId with
    | none => .error (.conflict ("Finding `" ++ findingId ++ "` has no active Resolution"))
    | some resolution => .ok resolution
  let subjectId ← check fun I => match I.ledger.activeSubjectId with
    | none => .error (.conflict "Campaign has no active Subject")
    | some subjectId => .ok subjectId
  let challenge : ResolutionChallenge :=
    ⟨findingId, resolution.id.artifactId, subjectId, kind, reason⟩
  check fun _ => (validateChallenge challenge actor evidenceIds).mapError ReductionError.storeError
  publishOperatorArtifact viewId stores findingId [resolution.id.recordId]
    (.resolutionChallenge challenge actor evidenceIds)

/-- The challenges of a tick, one for each Finding. -/
def challengeExpired (actor : String) : List String → Command StoreError Ingest (List String)
  | [] => pure []
  | findingId :: rest => do
    let challenge ← challengeResolution viewId stores findingId .expired actor
      "tracked wontfix expired at persisted policy time" []
    let challenges ← challengeExpired actor rest
    return challenge :: challenges

/-- `advance_policy_time`: the tick, then the challenges. -/
def advancePolicyTime (tick : ℕ) (actor reason : String) :
    Command StoreError Ingest (String × List String) := do
  check fun I => if tick ≤ I.ledger.policyTime then
    .error (.conflict "policy time must advance monotonically") else .ok ()
  check fun _ => validatePolicyTime tick actor reason
  let timeId ← publishOperatorArtifact viewId stores "policy-time" []
    (.policyTime tick actor reason)
  let expired ← check fun I => .ok ((I.ledger.expiringResolutions tick).map fun R =>
    R.resolution.findingId)
  let challenges ← challengeExpired viewId stores actor expired
  return (timeId, challenges)

end Operations

end Ingest

/-! ## What a challenge changes -/

/-- The acceptance ended by a tick. -/
def RecordedResolution.ExpiredBy (R : RecordedResolution) (tick : ℕ) : Prop :=
  ∃ expiry, R.resolution.expiresAt = some expiry ∧ expiry ≤ tick

instance (R : RecordedResolution) (tick : ℕ) : Decidable (R.ExpiredBy tick) :=
  decidable_of_iff (∃ expiry ∈ R.resolution.expiresAt, expiry ≤ tick) Iff.rfl

namespace Ledger

variable {viewId : Finding → Option String} {L L' L'' : Ledger}

/-- The status of a Finding. -/
def statusOf (L : Ledger) (key : String) : Option FindingStatus :=
  (L.findings.get key).map Finding.status

/-- Findings were challenged: everyone in their groups is contested, and nothing else changed. -/
structure Challenged (L L' : Ledger) (ids : List String) : Prop where
  groupRoot : ∀ key, L'.groupRoot key = L.groupRoot key
  resolution : ∀ key, L'.resolution key = L.resolution key
  policyTime : L'.policyTime = L.policyTime
  contested : ∀ key, (∃ id ∈ ids, L.groupRoot key = L.groupRoot id) →
    L'.statusOf key = (L.statusOf key).map fun _ => .contested
  kept : ∀ key, (∀ id ∈ ids, L.groupRoot key ≠ L.groupRoot id) → L'.statusOf key = L.statusOf key

theorem Challenged.nil (L : Ledger) : Challenged L L [] :=
  ⟨fun _ => rfl, fun _ => rfl, rfl, fun _ ⟨_, hid, _⟩ => absurd hid List.not_mem_nil,
    fun _ _ => rfl⟩

theorem Challenged.cons {id : String} {ids : List String} (h : Challenged L L' [id])
    (h' : Challenged L' L'' ids) : Challenged L L'' (id :: ids) where
  groupRoot key := (h'.groupRoot key).trans (h.groupRoot key)
  resolution key := (h'.resolution key).trans (h.resolution key)
  policyTime := h'.policyTime.trans h.policyTime
  contested key hin := by
    -- who is contested by the first challenge stays so, or is contested again
    by_cases hlater : ∃ x ∈ ids, L'.groupRoot key = L'.groupRoot x
    · rw [h'.contested key hlater]
      by_cases hfirst : L.groupRoot key = L.groupRoot id
      · rw [h.contested key ⟨id, by simp, hfirst⟩, Option.map_map]
        rfl
      · rw [h.kept key (by simpa using hfirst)]
    · have hfirst : L.groupRoot key = L.groupRoot id := by
        obtain ⟨x, hx, hroot⟩ := hin
        rcases List.mem_cons.mp hx with rfl | hx
        · exact hroot
        · exact absurd ⟨x, hx, by rw [h.groupRoot, h.groupRoot, hroot]⟩ hlater
      rw [h'.kept key fun x hx heq => hlater ⟨x, hx, heq⟩]
      exact h.contested key ⟨id, by simp, hfirst⟩
  kept key hnot := by
    rw [h'.kept key fun x hx => by
      rw [h.groupRoot, h.groupRoot]
      exact hnot x (List.mem_cons_of_mem _ hx)]
    exact h.kept key (by simpa using hnot id List.mem_cons_self)

theorem statusOf_setStatus (L : Ledger) (key : String) (status : FindingStatus) (t : Transition)
    (k : String) : (L.setStatus key status t).statusOf k =
      if k = key then (L.statusOf k).map fun _ => status else L.statusOf k := by
  rw [statusOf, get_setStatus, statusOf]
  cases L.findings.get k with
  | none => simp
  | some f => by_cases hk : k = key <;> simp [hk]

theorem statusOf_setStatuses (L : Ledger) (keys : List String) (status : FindingStatus)
    (t : Transition) (k : String) : (L.setStatuses keys status t).statusOf k =
      if k ∈ keys then (L.statusOf k).map fun _ => status else L.statusOf k := by
  induction keys generalizing L with
  | nil => rfl
  | cons key keys ih =>
    have hrest : (L.setStatuses (key :: keys) status t).statusOf k =
        ((L.setStatus key status t).setStatuses keys status t).statusOf k := rfl
    rw [hrest, ih, statusOf_setStatus]
    by_cases hk : k = key
    · simp [hk, Function.comp_def]
    · simp [hk]

theorem statusOf_isSome (L : Ledger) (key : String) :
    (L.statusOf key).isSome = L.findings.contains key := by
  rw [statusOf, Option.isSome_map, OrdMap.contains]

/-- Roots depend on who is there and on the groupings. -/
theorem groupRoot_congr (hgroupings : L'.activeGroupings = L.activeGroupings) {key : String}
    (hstatus : (L'.statusOf key).isSome = (L.statusOf key).isSome) :
    L'.groupRoot key = L.groupRoot key := by
  rw [statusOf_isSome, statusOf_isSome] at hstatus
  rw [groupRoot, groupRoot, hgroupings, hstatus]

/-- **A challenge** contests the group of the Finding it names. -/
theorem challenged_of_step {cas : ContentStore} {recordId artifactId snapshot : String}
    {challenge : ResolutionChallenge} (h : L.WellFormed)
    (hread : cas.read recordId = .ok ⟨artifactId, some snapshot, .resolutionChallenge challenge⟩)
    (hstep : L.step viewId (.event cas (.recorded .findingResolutionChallenged recordId) [recordId])
      = some L') : Challenged L L' [challenge.findingId] := by
  obtain ⟨artifact, hartifact, hevent⟩ := bind_eq_ok.mp (step_recorded hstep)
  have hsame := (readRecorded_eq_ok hartifact).symm.trans hread
  cases hsame
  dsimp only at hevent
  split at hevent
  case h_1 => cases hevent
  case h_2 subject _ =>
    replace hevent : L.applyResolutionChallenged subject ⟨recordId, artifactId⟩ challenge =
      .ok L' := hevent
    rw [applyResolutionChallenged] at hevent
    split at hevent
    case h_1 => cases hevent
    case h_2 =>
      obtain ⟨_, -, hevent⟩ := bind_eq_ok.mp hevent
      obtain ⟨keys, hkeys, hevent⟩ := bind_eq_ok.mp hevent
      cases hevent
      obtain ⟨root, hroot, hmembers⟩ := h.mem_findingMemberKeys hkeys
      have hstatus : ∀ t key, (L.setStatuses keys .contested t).statusOf key =
          if L.groupRoot key = some root then (L.statusOf key).map fun _ => .contested
          else L.statusOf key := by
        intro t key
        rw [statusOf_setStatuses]
        simp only [hmembers]
      have honward : ∀ t, Onward L (L.setStatuses keys .contested t) :=
        fun t => Onward.setStatuses L keys t rfl
      refine ⟨fun key => ?_, fun key => (honward _).resolution key,
        (Steady.setStatuses L keys _ _).policyTime, fun key hin => ?_, fun key hnot => ?_⟩
      · refine groupRoot_congr (honward _).groupings ?_
        have hkey := hstatus ⟨L.round, .challenged,
          some (challenge.kind.text ++ ": " ++ challenge.reason)⟩ key
        split_ifs at hkey
        · exact (congrArg Option.isSome hkey).trans Option.isSome_map
        · exact congrArg Option.isSome hkey
      · obtain ⟨id, hid, hsame⟩ := hin
        rw [List.mem_singleton] at hid
        rw [hid, hroot] at hsame
        exact (hstatus _ key).trans (if_pos hsame)
      · have hother := hnot challenge.findingId (by simp)
        rw [hroot] at hother
        exact (hstatus _ key).trans (if_neg hother)

end Ledger

/-! ## What the operations do -/

namespace Ingest

variable {viewId : Finding → Option String} {stores : OperatorStores} {I I' : Ingest}

/-- A published artifact is one accepted input. -/
theorem publish_step {correlationId answer : String} {inputArtifacts : List String}
    {payload : OperatorPayload}
    (h : (publishOperatorArtifact viewId stores correlationId inputArtifacts payload).run I =
      (.ok answer, I')) :
    ∃ cas recordId artifactId snapshot,
      cas.read recordId = .ok ⟨artifactId, some snapshot, payload.projected⟩ ∧
      I.ledger.step viewId (.event cas (.recorded payload.kind recordId) [recordId]) =
        some I'.ledger := by
  obtain ⟨snapshot, -, h⟩ := check_bind_eq_ok.mp h
  obtain ⟨id, -, h⟩ := check_bind_eq_ok.mp h
  rw [write_bind] at h
  obtain ⟨sequence, -, h⟩ := check_bind_eq_ok.mp h
  obtain ⟨_, -, h⟩ := check_bind_eq_ok.mp h
  obtain ⟨_, I₁, happly, h⟩ := run_bind_eq_ok.mp h
  cases h
  refine ⟨I.cas.put id.recordId ⟨id.artifactId, some snapshot, payload.projected⟩, id.recordId,
    id.artifactId, snapshot, if_pos rfl, ?_⟩
  rw [Ledger.step, Ledger.reply]
  rw [Command.run, applyRecorded.eq_def] at happly
  split at happly
  case h_1 L hreply =>
    cases happly
    rw [hreply]
  case h_2 => cases happly

/-- A challenge of an operator contests the group of the Finding. -/
theorem challengeResolution_challenged {findingId actor reason answer : String}
    {kind : ResolutionChallengeKind} {evidenceIds : List String} (hwell : I.ledger.WellFormed)
    (h : (challengeResolution viewId stores findingId kind actor reason evidenceIds).run I =
      (.ok answer, I')) :
    I'.ledger.WellFormed ∧ Ledger.Challenged I.ledger I'.ledger [findingId] := by
  obtain ⟨resolution, -, h⟩ := check_bind_eq_ok.mp h
  obtain ⟨subjectId, -, h⟩ := check_bind_eq_ok.mp h
  obtain ⟨_, -, h⟩ := check_bind_eq_ok.mp h
  obtain ⟨cas, recordId, artifactId, snapshot, hread, hstep⟩ := publish_step h
  exact ⟨hwell.step hstep, Ledger.challenged_of_step hwell hread hstep⟩

/-- The challenges of a tick contest the groups of all its Findings. -/
theorem challengeExpired_challenged {actor : String} {ids answers : List String}
    (hwell : I.ledger.WellFormed)
    (h : (challengeExpired viewId stores actor ids).run I = (.ok answers, I')) :
    Ledger.Challenged I.ledger I'.ledger ids := by
  induction ids generalizing I answers with
  | nil =>
    cases h
    exact .nil _
  | cons id ids ih =>
    obtain ⟨answer, I₁, hone, h⟩ := run_bind_eq_ok.mp h
    obtain ⟨rest, I₂, hrest, h⟩ := run_bind_eq_ok.mp h
    cases h
    obtain ⟨hwell₁, hchallenged⟩ := challengeResolution_challenged hwell hone
    exact hchallenged.cons (ih hwell₁ hrest)

/-- A published tick becomes the policy time, and nothing else changes. -/
theorem publish_policyTime {correlationId actor reason answer : String} {tick : ℕ}
    (h : (publishOperatorArtifact viewId stores correlationId []
      (.policyTime tick actor reason)).run I = (.ok answer, I')) :
    ∃ history, I'.ledger =
      { I.ledger with policyTime := tick, resolutionHistory := history } := by
  obtain ⟨cas, recordId, artifactId, snapshot, hread, hstep⟩ := publish_step h
  obtain ⟨artifact, hartifact, hevent⟩ := bind_eq_ok.mp (Ledger.step_recorded hstep)
  have hsame := (Ledger.readRecorded_eq_ok hartifact).symm.trans hread
  cases hsame
  dsimp only [OperatorPayload.kind] at hevent
  split at hevent
  case h_1 => cases hevent
  case h_2 =>
    obtain ⟨t, hpayload, -, hL'⟩ := Ledger.policyTimeAdvanced_eq_ok hevent
    cases hpayload
    exact ⟨_, hL'⟩

/-- **An accepted tick** is later than the policy time and becomes it; then the groups of the
acceptances it finds are challenged. -/
theorem advancePolicyTime_eq_ok {tick : ℕ} {actor reason : String}
    {answer : String × List String} (hwell : I.ledger.WellFormed)
    (h : (advancePolicyTime viewId stores tick actor reason).run I = (.ok answer, I')) :
    I.ledger.policyTime < tick ∧ ∃ history, Ledger.Challenged
      { I.ledger with policyTime := tick, resolutionHistory := history } I'.ledger
      ((I.ledger.expiringResolutions tick).map fun R => R.resolution.findingId) := by
  obtain ⟨_, hlater, h⟩ := check_bind_eq_ok.mp h
  obtain ⟨_, -, h⟩ := check_bind_eq_ok.mp h
  obtain ⟨timeId, I₁, htick, h⟩ := run_bind_eq_ok.mp h
  obtain ⟨expired, hexpired, h⟩ := check_bind_eq_ok.mp h
  obtain ⟨challenges, I₂, hchallenges, h⟩ := run_bind_eq_ok.mp h
  cases h
  cases hexpired
  obtain ⟨history, hledger⟩ := publish_policyTime htick
  have hwell₁ : I₁.ledger.WellFormed := by
    rw [hledger]
    exact hwell.congr ⟨rfl, rfl, rfl, rfl, rfl, fun d => d⟩
  have hchallenged := challengeExpired_challenged hwell₁ hchallenges
  rw [hledger] at hchallenged
  refine ⟨?_, history, hchallenged⟩
  split_ifs at hlater with hle
  omega

end Ingest

/-! ## Who is reached -/

namespace Ledger

variable {viewId : Finding → Option String} {L L' : Ledger} {tick : ℕ}

/-- What advancing the policy time is for: the time is the later one, whoever was closed by an
acceptance that ends by it is contested, and nobody is closed by one any more. -/
structure ExpiryMet (L L' : Ledger) (tick : ℕ) : Prop where
  policyTime : L'.policyTime = max L.policyTime tick
  contested : ∀ key R, L.statusOf key = some .wontfix → L.resolution key = some R →
    R.ExpiredBy tick → L'.statusOf key = some .contested
  closed : ∀ key R, L'.statusOf key = some .wontfix → L'.resolution key = some R →
    ¬ R.ExpiredBy tick

/-- Whoever is closed by an acceptance that ends by the tick is in the group of a Finding that
names such an acceptance and is closed itself. -/
def ExpiryReaches (L : Ledger) (tick : ℕ) : Prop :=
  ∀ key R, L.statusOf key = some .wontfix → L.resolution key = some R → R.ExpiredBy tick →
    ∃ R' ∈ L.resolutions.values, R'.ExpiredBy tick ∧
      L.statusOf R'.resolution.findingId = some .wontfix ∧
      L.groupRoot key = L.groupRoot R'.resolution.findingId

/-- It is read off the Findings there are. -/
theorem expiryReaches_iff : L.ExpiryReaches tick ↔
    ∀ entry ∈ L.findings.entries, entry.2.status = .wontfix → ∀ R ∈ L.resolution entry.1,
      R.ExpiredBy tick → ∃ R' ∈ L.resolutions.values, R'.ExpiredBy tick ∧
        L.statusOf R'.resolution.findingId = some .wontfix ∧
        L.groupRoot entry.1 = L.groupRoot R'.resolution.findingId := by
  constructor
  · rintro h ⟨key, f⟩ hentry hstatus R hresolution hexpired
    refine h key R ?_ hresolution hexpired
    rw [statusOf, OrdMap.mem_iff_get.mp hentry, Option.map_some, hstatus]
  · intro h key R hstatus hresolution hexpired
    obtain ⟨f, hf, hclosed⟩ := Option.map_eq_some_iff.mp hstatus
    exact h (key, f) (OrdMap.mem_iff_get.mpr hf) hclosed R hresolution hexpired

instance : Decidable (L.ExpiryReaches tick) := decidable_of_iff _ expiryReaches_iff.symm

theorem mem_expiringResolutions {R : RecordedResolution} :
    R ∈ L.expiringResolutions tick ↔ R ∈ L.resolutions.values ∧ R.ExpiredBy tick ∧
      L.statusOf R.resolution.findingId = some .wontfix := by
  rw [expiringResolutions, List.mem_filter, Bool.and_eq_true, Option.any_eq_true, Option.any_eq_true,
    RecordedResolution.ExpiredBy, statusOf, Option.map_eq_some_iff]
  simp

/-- **A tick contests whom its acceptances reach.** In every state a run of accepted inputs leads
to, an accepted tick does what it is for exactly when everyone closed by an acceptance that ends
by it is in the group of a Finding that names such an acceptance and is closed itself. -/
theorem expired_acceptances_contested {stores : OperatorStores} {policy : String} {round : ℕ}
    {inputs : List LedgerInput} {I I' : Ingest} {actor reason : String}
    {answer : String × List String}
    (hrun : run (step viewId) (start policy round) inputs = some I.ledger)
    (hadvance : (Ingest.advancePolicyTime viewId stores tick actor reason).run I =
      (.ok answer, I')) :
    ExpiryMet I.ledger I'.ledger tick ↔ I.ledger.ExpiryReaches tick := by
  obtain ⟨hlater, history, hchallenged⟩ :=
    Ingest.advancePolicyTime_eq_ok (WellFormed.run hrun) hadvance
  constructor
  · intro hmet key R hstatus hresolution hexpired
    by_contra hnone
    have hkept : I'.ledger.statusOf key = I.ledger.statusOf key := by
      refine hchallenged.kept key fun id hid hroot => ?_
      obtain ⟨R', hR', rfl⟩ := List.mem_map.mp hid
      obtain ⟨hmem, hexpired', hclosed⟩ := mem_expiringResolutions.mp hR'
      exact hnone ⟨R', hmem, hexpired', hclosed, hroot⟩
    have hcontested := hmet.contested key R hstatus hresolution hexpired
    rw [hkept, hstatus] at hcontested
    cases hcontested
  · intro hreaches
    have hcontested : ∀ key R, I.ledger.statusOf key = some .wontfix →
        I.ledger.resolution key = some R → R.ExpiredBy tick →
        I'.ledger.statusOf key = some .contested := by
      intro key R hstatus hresolution hexpired
      obtain ⟨R', hmem, hexpired', hclosed, hroot⟩ := hreaches key R hstatus hresolution hexpired
      have hfound : R'.resolution.findingId ∈ (I.ledger.expiringResolutions tick).map fun R =>
          R.resolution.findingId :=
        List.mem_map.mpr ⟨R', mem_expiringResolutions.mpr ⟨hmem, hexpired', hclosed⟩, rfl⟩
      have hchange := hchallenged.contested key ⟨R'.resolution.findingId, hfound, hroot⟩
      rw [hchange]
      exact (congrArg _ hstatus).trans rfl
    refine ⟨?_, hcontested, fun key R hstatus hresolution hexpired => ?_⟩
    · exact hchallenged.policyTime.trans (max_eq_right hlater.le).symm
    · -- who is closed now was closed before, by the same acceptance
      have hold : I.ledger.statusOf key = some .wontfix := by
        by_cases hin : ∃ id ∈ (I.ledger.expiringResolutions tick).map fun R =>
            R.resolution.findingId, I.ledger.groupRoot key = I.ledger.groupRoot id
        · rw [hchallenged.contested key hin, Option.map_eq_some_iff] at hstatus
          obtain ⟨_, -, hcontested⟩ := hstatus
          cases hcontested
        · rw [← hstatus]
          exact (hchallenged.kept key fun id hid hroot => hin ⟨id, hid, hroot⟩).symm
      have hsame : I.ledger.resolution key = some R :=
        (hchallenged.resolution key).symm.trans hresolution
      rw [hcontested key R hold hsame hexpired] at hstatus
      cases hstatus

/-! ## An acceptance of a group -/

/-- The store of two Findings whose group is accepted until tick 5. -/
def sampleAcceptanceStore : ContentStore where
  read id :=
    if id = sampleDigest 'a' then .ok ⟨id, some "head", .findingResolution
      ⟨"into", "into/key++", sampleDigest 'c', .wontfixTracked .blocker 5, "next quarter"⟩⟩
    else sampleStore.read id
  verify _ := .ok ()
  resolveSubjectScope _ := .ok ⟨⟨.wholeTree, none, "head"⟩, none⟩
  manifestPolicy _ := .ok canonicalFindingIdentityPolicy

/-- The first report of the root cannot be read. -/
def sampleAccepted : List LedgerInput := [
  .event sampleAcceptanceStore (.roundStarted ⟨1, sampleDigest 'c'⟩) [],
  .event sampleAcceptanceStore (.findingReported ⟨some "into", some "reviewer", some 1,
    some "lost"⟩) ["lost"],
  sampleReported "key" "reviewer",
  .event sampleAcceptanceStore (.findingsGrouped .group ⟨"key", "into", "group"⟩) ["group"],
  .event sampleAcceptanceStore (.recorded .findingResolutionRecorded (sampleDigest 'a'))
    [sampleDigest 'a']]

def sampleStores : OperatorStores where
  putArtifact
    | .policyTime _ _ _, _, _ => .ok ⟨sampleDigest 'd', sampleDigest 'e'⟩
    | .resolutionChallenge _ _ _, _, _ => .ok ⟨sampleDigest 'f', sampleDigest '0'⟩
  append count _ _ _ := .ok count

/-- The Ledger of a run, ready for an operator. -/
def sampleIngest (inputs : List LedgerInput) (L : Ledger) : Ingest :=
  ⟨"run", sampleAcceptanceStore, inputs.length, L⟩

/-- The acceptance ends for the group as it is, and once its root was reported anew. -/
theorem sampleAccepted_expired :
    (∃ L ∈ run (step sampleViewId) (start canonicalFindingIdentityPolicy 1) sampleAccepted,
      L.ExpiryReaches 5 ∧ L.statusOf "key" = some .wontfix ∧
      (match (Ingest.advancePolicyTime sampleViewId sampleStores 5 "operator"
          "a quarter has passed").run (sampleIngest sampleAccepted L) with
        | (.ok _, I) => decide (I.ledger.statusOf "key" = some .contested)
        | (.error _, _) => false) = true) ∧
    ∃ L ∈ run (step sampleViewId) (start canonicalFindingIdentityPolicy 1)
      (sampleAccepted ++ [sampleReported "into" "auditor"]),
      (match (Ingest.advancePolicyTime sampleViewId sampleStores 5 "operator"
          "a quarter has passed").run
          (sampleIngest (sampleAccepted ++ [sampleReported "into" "auditor"]) L) with
        | (.ok _, I) => decide (I.ledger.statusOf "key" = some .wontfix ∧
            ∃ R ∈ I.ledger.resolution "key", R.ExpiredBy 5)
        | (.error _, _) => false) = true := by
  decide +kernel

/-- The group is accepted, and contested when its acceptance ends. -/
theorem expired_acceptances_contested_group : ∃ L answer I,
    run (step sampleViewId) (start canonicalFindingIdentityPolicy 1) sampleAccepted = some L ∧
      (Ingest.advancePolicyTime sampleViewId sampleStores 5 "operator" "a quarter has passed").run
        (sampleIngest sampleAccepted L) = (.ok answer, I) ∧
      L.statusOf "key" = some .wontfix ∧ I.ledger.statusOf "key" = some .contested ∧
      ExpiryMet L I.ledger 5 := by
  obtain ⟨L, hrun, hreaches, hbefore, hafter⟩ := sampleAccepted_expired.1
  split at hafter
  case h_1 answer I hadvance =>
    exact ⟨L, answer, I, hrun, hadvance, hbefore, of_decide_eq_true hafter,
      (expired_acceptances_contested hrun hadvance).mpr hreaches⟩
  case h_2 => cases hafter

/-- **A member stays accepted.** A readable report reopens the root alone, whose first one was
lost; the tick that ends the acceptance finds no closed Finding that names it, and leaves the
other member as it is. -/
theorem member_stays_accepted : ∃ L answer I R,
    run (step sampleViewId) (start canonicalFindingIdentityPolicy 1)
      (sampleAccepted ++ [sampleReported "into" "auditor"]) = some L ∧
      (Ingest.advancePolicyTime sampleViewId sampleStores 5 "operator" "a quarter has passed").run
        (sampleIngest (sampleAccepted ++ [sampleReported "into" "auditor"]) L) = (.ok answer, I) ∧
      I.ledger.statusOf "key" = some .wontfix ∧ I.ledger.resolution "key" = some R ∧
      R.ExpiredBy 5 ∧ ¬ ExpiryMet L I.ledger 5 := by
  obtain ⟨L, hrun, hafter⟩ := sampleAccepted_expired.2
  split at hafter
  case h_1 answer I hadvance =>
    obtain ⟨hstatus, R, hresolution, hexpired⟩ := of_decide_eq_true hafter
    exact ⟨L, answer, I, R, hrun, hadvance, hstatus, hresolution, hexpired,
      fun hmet => hmet.closed "key" R hstatus hresolution hexpired⟩
  case h_2 => cases hafter

end Ledger

end Afactory
