import Mathlib
import Afactory.Checks
import Afactory.CompiledTask
import Afactory.PipelinePlan
import Afactory.RepoPath

/-!
# Slices of a Subject and their shards

`review-core/src/slice.rs`: the paths of a Subject are divided among Slices that declare where they
overlap, and every Slice is answered by one shard.

* `SliceSet.validate`, `SliceSet.validateCoverage`: Slices of one identity each, overlaps declared;
* `ShardSet.validateAgainst`: the shards of a Slice Set;
* `Declared`: what a valid Slice Set says of its overlaps;
* `slice_coverage`: every path is covered, every overlap declared, and no Slice unanswered.
-/

namespace Afactory

/-! ## Slices -/

inductive SliceCoverage where
  | complete
  | explicitPartial
  deriving DecidableEq, Repr

inductive CloseoutPolicy where
  | required
  | waived (policyId reason : String)
  deriving DecidableEq, Repr

structure ReviewSlice where
  sliceId : String
  runtimeNodeId : String
  paths : List String
  overlaps : List String := []
  deriving DecidableEq, Repr

structure SliceSet where
  subjectId : String
  coverage : SliceCoverage
  maxFanout : ℕ
  allShardsRequired : Bool
  closeout : CloseoutPolicy
  slices : List ReviewSlice
  deriving DecidableEq, Repr

/-- `windows(2)`: some entry is not before the next. -/
def unordered : List String → Bool
  | a :: b :: rest => b ≤ a || unordered (b :: rest)
  | _ => false

namespace ReviewSlice

def validate (slice : ReviewSlice) : Except String Unit :=
  ensure (!(!isDigest slice.sliceId || isBlank slice.runtimeNodeId || slice.paths.isEmpty ||
      slice.paths.any (!isValidRepoPath ·) || unordered slice.paths ||
      slice.overlaps.any (!isDigest ·) || unordered slice.overlaps))
    "ReviewSlice@1 has invalid identity, paths, or overlaps"

/-- Whether two Slices have a path in common. -/
def shares (slice peer : ReviewSlice) : Bool := slice.paths.any fun path => peer.paths.contains path

theorem shares_iff {slice peer : ReviewSlice} :
    slice.shares peer = true ↔ ∃ path ∈ slice.paths, path ∈ peer.paths := by
  simp [shares]

theorem shares_comm (slice peer : ReviewSlice) : slice.shares peer = peer.shares slice := by
  rw [Bool.eq_iff_iff, shares_iff, shares_iff]
  exact ⟨fun ⟨path, h, h'⟩ => ⟨path, h', h⟩, fun ⟨path, h, h'⟩ => ⟨path, h', h⟩⟩

end ReviewSlice

/-- The identities seen so far, and the Slices by their own. -/
structure SlicesSeen where
  ids : Finset String := ∅
  runtimeIds : Finset String := ∅
  byId : OrdMap String ReviewSlice := .empty

/-- One round of the first loop: a Slice of new identities, its paths and its overlaps. -/
def SlicesSeen.admitSlice (seen : SlicesSeen) (slice : ReviewSlice) : Except String SlicesSeen := do
  ensure (slice.validate.isOk && slice.sliceId ∉ seen.ids && slice.runtimeNodeId ∉ seen.runtimeIds)
    "SliceSet@1 has duplicate or invalid Slice identity"
  ensure (!(slice.paths.any (!isValidRepoPath ·) || !slice.paths.Nodup || unordered slice.paths))
    "SliceSet@1 has invalid, repeated, or unsorted paths"
  ensure (!(slice.overlaps.any (fun overlap => overlap = slice.sliceId || !isDigest overlap) ||
      !slice.overlaps.Nodup || unordered slice.overlaps))
    "SliceSet@1 has invalid overlap declarations"
  return {
    ids := insert slice.sliceId seen.ids
    runtimeIds := insert slice.runtimeNodeId seen.runtimeIds
    byId := seen.byId.insert slice.sliceId slice }

/-- A declared overlap is declared by its peer and backed by a path. -/
def checkOverlap (byId : OrdMap String ReviewSlice) (slice : ReviewSlice) (overlap : String) :
    Except String Unit :=
  match byId.get overlap with
  | none => .error "SliceSet@1 overlap names an absent Slice"
  | some peer =>
    ensure (peer.overlaps.contains slice.sliceId && slice.shares peer)
      "SliceSet@1 overlaps are not symmetric and path-backed"

/-- A shared path is declared by the Slice that comes first. -/
def checkPeer (slice peer : ReviewSlice) : Except String Unit :=
  ensure (!(slice.sliceId < peer.sliceId && slice.shares peer &&
      !slice.overlaps.contains peer.sliceId))
    "SliceSet@1 has an undeclared path overlap"

/-- One round of the second loop. -/
def checkOverlaps (slices : List ReviewSlice) (byId : OrdMap String ReviewSlice)
    (slice : ReviewSlice) : Except String Unit := do
  slice.overlaps.forM (checkOverlap byId slice)
  slices.forM (checkPeer slice)

namespace SliceSet

variable (S : SliceSet)

/-- What the set says beside its Slices. -/
def validateHeader : Except String Unit := do
  ensure (!(!isDigest S.subjectId || S.slices.isEmpty || S.maxFanout = 0 ||
      S.maxFanout < S.slices.length)) "SliceSet@1 has invalid Subject or fan-out bounds"
  ensure (!(!S.allShardsRequired && S.coverage = .complete))
    "complete SliceSet@1 requires every shard by default"
  ensure (match S.closeout with
      | .required => true
      | .waived policyId reason => !(!isDigest policyId || isBlank reason))
    "SliceSet@1 has an invalid closeout waiver"

def validate : Except String Unit := do
  S.validateHeader
  let seen ← S.slices.foldlM SlicesSeen.admitSlice {}
  S.slices.forM (checkOverlaps S.slices seen.byId)

def validateCoverage (subjectPaths : List String) : Except String Unit := do
  S.validate
  let declared := (S.slices.flatMap ReviewSlice.paths).toFinset
  let expected := subjectPaths.toFinset
  ensure (declared ⊆ expected) "SliceSet@1 includes a path outside the Subject"
  ensure (!(S.coverage = .complete && declared ≠ expected))
    "complete SliceSet@1 does not cover the whole Subject path set"

end SliceSet

/-! ## Shards -/

inductive ShardOutcome where
  | completed (resultArtifactIds : List String)
  | failed (reason : String)
  | missing (reason : String)
  deriving DecidableEq, Repr

structure ShardReceipt where
  sliceId : String
  runtimeNodeId : String
  outcome : ShardOutcome
  deriving DecidableEq, Repr

structure ShardSet where
  subjectId : String
  sliceSetId : String
  allShardsRequired : Bool
  shards : List ShardReceipt
  deriving DecidableEq, Repr

/-- The identities a shard answers under. -/
def ShardReceipt.key (shard : ShardReceipt) : String × String := (shard.sliceId, shard.runtimeNodeId)

def ReviewSlice.key (slice : ReviewSlice) : String × String := (slice.sliceId, slice.runtimeNodeId)

def ShardOutcome.validate : ShardOutcome → Except String Unit
  | .completed ids => ensure (!(ids.isEmpty || ids.any (!isDigest ·)))
      "ShardSet@1 has invalid completed output IDs"
  | .failed reason | .missing reason => ensure (!isBlank reason)
      "ShardSet@1 has an empty failure reason"

/-- One round over the shards, with the identities observed so far. -/
def observeShard (observed : Finset (String × String)) (shard : ShardReceipt) :
    Except String (Finset (String × String)) := do
  ensure (!(!isDigest shard.sliceId || isBlank shard.runtimeNodeId || shard.key ∈ observed))
    "ShardSet@1 has duplicate or invalid shard identity"
  shard.outcome.validate
  return insert shard.key observed

namespace ShardSet

variable (T : ShardSet)

def validateShape : Except String Unit := do
  ensure (!(!isDigest T.subjectId || !isDigest T.sliceSetId || T.shards.isEmpty))
    "ShardSet@1 has invalid Subject or Slice Set identity"
  let _ ← T.shards.foldlM observeShard ∅
  return

def validateAgainst (S : SliceSet) : Except String Unit := do
  T.validateShape
  S.validate
  ensure (!(T.subjectId ≠ S.subjectId || !isDigest T.sliceSetId ||
      T.allShardsRequired ≠ S.allShardsRequired || T.shards.length ≠ S.slices.length))
    "ShardSet@1 contradicts its SliceSet@1 authority"
  T.shards.forM fun shard =>
    ensure (shard.key ∈ (S.slices.map ReviewSlice.key).toFinset)
      "ShardSet@1 has duplicate or unknown shard identity"

end ShardSet

/-! ## What is accepted -/

theorem SlicesSeen.admitSlice_eq_ok {seen seen' : SlicesSeen} {slice : ReviewSlice}
    (h : seen.admitSlice slice = .ok seen') :
    slice.sliceId ∉ seen.ids ∧ seen' = {
      ids := insert slice.sliceId seen.ids
      runtimeIds := insert slice.runtimeNodeId seen.runtimeIds
      byId := seen.byId.insert slice.sliceId slice } := by
  obtain ⟨_, hidentity, h⟩ := bind_eq_ok.mp h
  obtain ⟨_, -, h⟩ := bind_eq_ok.mp h
  obtain ⟨_, -, h⟩ := bind_eq_ok.mp h
  cases h
  have hidentity := ensure_eq_ok.mp hidentity
  simp only [Bool.and_eq_true, decide_eq_true_eq] at hidentity
  exact ⟨hidentity.1.2, rfl⟩

/-- The first loop sees every Slice under an identity of its own. -/
theorem SlicesSeen.admitted {slices : List ReviewSlice} {seen seen' : SlicesSeen}
    (h : slices.foldlM SlicesSeen.admitSlice seen = .ok seen') :
    (slices.map ReviewSlice.sliceId).Nodup ∧ (∀ slice ∈ slices, slice.sliceId ∉ seen.ids) ∧
      ∀ id peer, seen'.byId.get id = some peer →
        seen.byId.get id = some peer ∨ (peer ∈ slices ∧ peer.sliceId = id) := by
  induction slices generalizing seen with
  | nil =>
    cases h
    exact ⟨.nil, nofun, fun _ _ hget => .inl hget⟩
  | cons slice slices ih =>
    rw [List.foldlM_cons] at h
    obtain ⟨next, hadmit, h⟩ := bind_eq_ok.mp h
    obtain ⟨hnew, rfl⟩ := admitSlice_eq_ok hadmit
    obtain ⟨hnodup, hfresh, hback⟩ := ih h
    refine ⟨?_, ?_, ?_⟩
    · rw [List.map_cons, List.nodup_cons]
      refine ⟨fun hmem => ?_, hnodup⟩
      obtain ⟨other, hother, hsame⟩ := List.mem_map.mp hmem
      exact hfresh other hother (by rw [hsame]; exact Finset.mem_insert_self _ _)
    · rw [List.forall_mem_cons]
      exact ⟨hnew, fun other hother hmem => hfresh other hother (Finset.mem_insert_of_mem hmem)⟩
    · intro id peer hget
      rcases hback id peer hget with hget | ⟨hpeer, hid⟩
      · by_cases hid : id = slice.sliceId
        · subst hid
          rw [OrdMap.get_insert_self] at hget
          obtain rfl := Option.some.inj hget
          exact .inr ⟨List.mem_cons_self, rfl⟩
        · rw [OrdMap.get_insert_ne _ _ hid] at hget
          exact .inl hget
      · exact .inr ⟨List.mem_cons_of_mem _ hpeer, hid⟩

/-- What a valid Slice Set says of its overlaps: the identities differ, and of two Slices with a
path in common each names the other. -/
structure Declared (slices : List ReviewSlice) : Prop where
  distinct : (slices.map ReviewSlice.sliceId).Nodup
  overlaps : ∀ a ∈ slices, ∀ b ∈ slices, a.sliceId ≠ b.sliceId → a.shares b = true →
    b.sliceId ∈ a.overlaps

/-- Of two Slices with a path in common the first declares it, and its peer then does. -/
theorem declared_of_lt {slices : List ReviewSlice} {byId : OrdMap String ReviewSlice}
    (hdistinct : (slices.map ReviewSlice.sliceId).Nodup)
    (hback : ∀ id peer, byId.get id = some peer → peer ∈ slices ∧ peer.sliceId = id)
    (hchecked : ∀ slice ∈ slices, checkOverlaps slices byId slice = .ok ())
    {a b : ReviewSlice} (ha : a ∈ slices) (hb : b ∈ slices) (hlt : a.sliceId < b.sliceId)
    (hshares : a.shares b = true) : b.sliceId ∈ a.overlaps ∧ a.sliceId ∈ b.overlaps := by
  obtain ⟨_, hoverlaps, hpeers⟩ := bind_eq_ok.mp (hchecked a ha)
  have hdeclares : b.sliceId ∈ a.overlaps := by
    have hpeer := ensure_eq_ok.mp (forM_eq_ok.mp hpeers b hb)
    simpa [hlt, hshares] using hpeer
  refine ⟨hdeclares, ?_⟩
  have hoverlap := forM_eq_ok.mp hoverlaps b.sliceId hdeclares
  unfold checkOverlap at hoverlap
  split at hoverlap
  · cases hoverlap
  · rename_i peer hget
    obtain ⟨hpeer, hid⟩ := hback _ _ hget
    obtain rfl := List.inj_on_of_nodup_map hdistinct hpeer hb hid
    have hsymmetric := ensure_eq_ok.mp hoverlap
    simp only [Bool.and_eq_true, List.contains_iff_mem] at hsymmetric
    exact hsymmetric.1

theorem SliceSet.declared {S : SliceSet} (h : S.validate = .ok ()) : Declared S.slices := by
  obtain ⟨_, -, h⟩ := bind_eq_ok.mp h
  obtain ⟨seen, hseen, h⟩ := bind_eq_ok.mp h
  obtain ⟨hdistinct, -, hback⟩ := SlicesSeen.admitted hseen
  have hback : ∀ id peer, seen.byId.get id = some peer → peer ∈ S.slices ∧ peer.sliceId = id :=
    fun id peer hget => (hback id peer hget).resolve_left (by simp)
  have hchecked := forM_eq_ok.mp h
  refine ⟨hdistinct, fun a ha b hb hne hshares => ?_⟩
  rcases lt_or_gt_of_ne hne with hlt | hgt
  · exact (declared_of_lt hdistinct hback hchecked ha hb hlt hshares).1
  · rw [a.shares_comm] at hshares
    exact (declared_of_lt hdistinct hback hchecked hb ha hgt hshares).2

/-- The shards of a valid set answer under identities of their own. -/
theorem observed_nodup {shards : List ShardReceipt} {observed observed' : Finset (String × String)}
    (h : shards.foldlM observeShard observed = .ok observed') :
    (shards.map ShardReceipt.key).Nodup ∧ ∀ shard ∈ shards, shard.key ∉ observed := by
  induction shards generalizing observed with
  | nil => exact ⟨.nil, nofun⟩
  | cons shard shards ih =>
    rw [List.foldlM_cons] at h
    obtain ⟨next, hobserve, h⟩ := bind_eq_ok.mp h
    obtain ⟨_, hidentity, hobserve⟩ := bind_eq_ok.mp hobserve
    obtain ⟨_, -, hobserve⟩ := bind_eq_ok.mp hobserve
    cases hobserve
    have hidentity := ensure_eq_ok.mp hidentity
    simp only [Bool.not_eq_true', Bool.or_eq_false_iff, decide_eq_false_iff_not] at hidentity
    obtain ⟨hnodup, hfresh⟩ := ih h
    refine ⟨?_, ?_⟩
    · rw [List.map_cons, List.nodup_cons]
      refine ⟨fun hmem => ?_, hnodup⟩
      obtain ⟨other, hother, hsame⟩ := List.mem_map.mp hmem
      exact hfresh other hother (by rw [hsame]; exact Finset.mem_insert_self _ _)
    · rw [List.forall_mem_cons]
      exact ⟨hidentity.2, fun other hother hmem =>
        hfresh other hother (Finset.mem_insert_of_mem hmem)⟩

/-- **Coverage of Slices is exact.** An accepted complete set divides exactly the Subject's paths,
and two Slices with a path in common each declare the other. Accepted shards answer the Slices one
to one. -/
theorem slice_coverage :
    (∀ (S : SliceSet) (subjectPaths : List String), S.validateCoverage subjectPaths = .ok () →
      S.coverage = .complete →
      (∀ path, (∃ slice ∈ S.slices, path ∈ slice.paths) ↔ path ∈ subjectPaths) ∧
        S.slices.Pairwise fun a b => (∃ path ∈ a.paths, path ∈ b.paths) →
          b.sliceId ∈ a.overlaps ∧ a.sliceId ∈ b.overlaps) ∧
    ∀ (T : ShardSet) (S : SliceSet), T.validateAgainst S = .ok () →
      (S.slices.map ReviewSlice.key).Nodup ∧
        (T.shards.map ShardReceipt.key).Perm (S.slices.map ReviewSlice.key) ∧
        (∀ slice ∈ S.slices, ∃! shard, shard ∈ T.shards ∧ shard.key = slice.key) ∧
        ∀ shard ∈ T.shards, ∃! slice, slice ∈ S.slices ∧ slice.key = shard.key := by
  refine ⟨fun S subjectPaths h hcomplete => ?_, fun T S h => ?_⟩
  · obtain ⟨_, hvalid, h⟩ := bind_eq_ok.mp h
    obtain ⟨_, -, h⟩ := bind_eq_ok.mp h
    have hcovers := ensure_eq_ok.mp h
    simp only [hcomplete, decide_true, Bool.true_and, Bool.not_eq_true', decide_eq_false_iff_not,
      ne_eq, not_not] at hcovers
    have hdeclared := SliceSet.declared hvalid
    refine ⟨fun path => ?_, ?_⟩
    · have hmem := congrArg (path ∈ ·) hcovers
      simpa using hmem
    · have hne : S.slices.Pairwise fun a b => a.sliceId ≠ b.sliceId :=
        List.pairwise_map.mp hdeclared.distinct
      refine hne.imp_of_mem fun {a b} ha hb hne hpath => ?_
      have hshares := ReviewSlice.shares_iff.mpr hpath
      exact ⟨hdeclared.overlaps a ha b hb hne hshares,
        hdeclared.overlaps b hb a ha hne.symm (by rwa [b.shares_comm])⟩
  · obtain ⟨_, hshape, h⟩ := bind_eq_ok.mp h
    obtain ⟨_, hvalid, h⟩ := bind_eq_ok.mp h
    obtain ⟨_, hauthority, h⟩ := bind_eq_ok.mp h
    obtain ⟨_, -, hshape⟩ := bind_eq_ok.mp hshape
    obtain ⟨_, hobserved, -⟩ := bind_eq_ok.mp hshape
    have hauthority := ensure_eq_ok.mp hauthority
    simp only [Bool.not_eq_true', Bool.or_eq_false_iff, decide_eq_false_iff_not, ne_eq,
      not_not] at hauthority
    have hslices : (S.slices.map ReviewSlice.key).Nodup :=
      .of_map Prod.fst (by rw [List.map_map]; exact (SliceSet.declared hvalid).distinct)
    have hshards := (observed_nodup hobserved).1
    have hsubset : T.shards.map ShardReceipt.key ⊆ S.slices.map ReviewSlice.key := by
      intro key hkey
      obtain ⟨shard, hshard, rfl⟩ := List.mem_map.mp hkey
      have hknown := ensure_eq_ok.mp (forM_eq_ok.mp h shard hshard)
      simpa using hknown
    -- as many distinct identities as there are Slices
    have hperm : (T.shards.map ShardReceipt.key).Perm (S.slices.map ReviewSlice.key) :=
      (List.subperm_of_subset hshards hsubset).perm_of_length_le (by simp [hauthority.2])
    refine ⟨hslices, hperm, fun slice hslice => ?_, fun shard hshard => ?_⟩
    · obtain ⟨shard, hshard, hkey⟩ :=
        List.mem_map.mp (hperm.mem_iff.mpr (List.mem_map_of_mem hslice))
      exact ⟨shard, ⟨hshard, hkey⟩, fun other hother =>
        List.inj_on_of_nodup_map hshards hother.1 hshard (hother.2.trans hkey.symm)⟩
    · obtain ⟨slice, hslice, hkey⟩ :=
        List.mem_map.mp (hperm.mem_iff.mp (List.mem_map_of_mem hshard))
      exact ⟨slice, ⟨hslice, hkey⟩, fun other hother =>
        List.inj_on_of_nodup_map hslices hother.1 hslice (hother.2.trans hkey.symm)⟩

/-! ### Two Slices that overlap -/

def sliceDigest (digit : Char) : String := "sha256:" ++ String.ofList (List.replicate 64 digit)

def sampleSlices : SliceSet where
  subjectId := sliceDigest '0'
  coverage := .complete
  maxFanout := 2
  allShardsRequired := true
  closeout := .required
  slices := [
    { sliceId := sliceDigest '1', runtimeNodeId := "review.one", paths := ["a.rs", "b.rs"],
      overlaps := [sliceDigest '2'] },
    { sliceId := sliceDigest '2', runtimeNodeId := "review.two", paths := ["b.rs"],
      overlaps := [sliceDigest '1'] }]

def sampleShards : ShardSet where
  subjectId := sliceDigest '0'
  sliceSetId := sliceDigest '3'
  allShardsRequired := true
  shards := [⟨sliceDigest '2', "review.two", .missing "stopped"⟩,
    ⟨sliceDigest '1', "review.one", .completed [sliceDigest '4']⟩]

theorem isDigest_sliceDigest (digit : Char) (h : digit.isDigit = true) :
    isDigest (sliceDigest digit) = true := by
  have hmark : "sha256:".toList = ['s', 'h', 'a', '2', '5', '6', ':'] := by decide
  simp [isDigest, sliceDigest, hmark, h]

theorem sliceDigest_inj {a b : Char} : sliceDigest a = sliceDigest b ↔ a = b := by
  rw [← String.toList_inj, sliceDigest, sliceDigest, String.toList_append, String.toList_append,
    List.append_cancel_left_eq, String.toList_ofList, String.toList_ofList,
    List.replicate_inj]
  simp

theorem sampleSlices_valid : sampleSlices.validate = .ok () := by
  have hzero := isDigest_sliceDigest '0' rfl
  have hone := isDigest_sliceDigest '1' rfl
  have htwo := isDigest_sliceDigest '2' rfl
  have hblank : isBlank "review.one" = false ∧ isBlank "review.two" = false := by decide
  have hpaths : isValidRepoPath "a.rs" = true ∧ isValidRepoPath "b.rs" = true := by decide
  simp [SliceSet.validate, SliceSet.validateHeader, sampleSlices, hzero, hone, htwo, hblank, hpaths,
    ensure, ok_bind, SlicesSeen.admitSlice, ReviewSlice.validate, unordered, sliceDigest_inj,
    Except.isOk, Except.toBool, checkOverlaps, checkOverlap, checkPeer, OrdMap.get_insert,
    ReviewSlice.shares]

theorem sampleSlices_cover : sampleSlices.validateCoverage ["b.rs", "a.rs"] = .ok () := by
  rw [SliceSet.validateCoverage, sampleSlices_valid, ok_bind]
  decide

theorem sampleShards_valid : sampleShards.validateAgainst sampleSlices = .ok () := by
  have hzero := isDigest_sliceDigest '0' rfl
  have hone := isDigest_sliceDigest '1' rfl
  have htwo := isDigest_sliceDigest '2' rfl
  have hthree := isDigest_sliceDigest '3' rfl
  have hfour := isDigest_sliceDigest '4' rfl
  have hblank : isBlank "review.one" = false ∧ isBlank "review.two" = false ∧
      isBlank "stopped" = false := by decide
  rw [ShardSet.validateAgainst, sampleSlices_valid]
  simp [ShardSet.validateShape, sampleShards, sampleSlices, hzero, hone, htwo, hthree, hfour, hblank,
    ensure, ok_bind, observeShard, ShardReceipt.key, ReviewSlice.key, ShardOutcome.validate,
    sliceDigest_inj]

theorem slice_coverage_sample :
    ((∃ slice ∈ sampleSlices.slices, "b.rs" ∈ slice.paths) ↔ "b.rs" ∈ ["b.rs", "a.rs"]) ∧
      (sampleSlices.slices.map ReviewSlice.key).Nodup :=
  ⟨(slice_coverage.1 sampleSlices ["b.rs", "a.rs"] sampleSlices_cover rfl).1 "b.rs",
    (slice_coverage.2 sampleShards sampleSlices sampleShards_valid).1⟩

end Afactory
