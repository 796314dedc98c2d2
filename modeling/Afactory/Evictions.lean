import Mathlib
import Afactory.TelemetryDirectory

/-!
# Evicting several segments

`Directory::remove` and `Directory::entries` of `review-telemetry/src/budget.rs`, over any number of
removals: a blob that several segments name goes with the last of them, so each segment is worth
another sum after every removal, and all of them together are worth the same in any order.

* `Directory.entries`: one entry for each segment and one for what they share;
* `Directory.removeEach`: removals one after another;
* `Directory.Left`: the directory a set of removed segments leaves, whatever their order;
* `evictions_account`: what is freed, what is left, and what the entries add up to.
-/

namespace Afactory

namespace Storage

/-! ## Part of a map -/

/-- The sum over a map is that over what is left of it and that over what is not. -/
theorem sum_left {V : Type*} (m : OrdMap String V) {m' : OrdMap String V} (gone : String → Bool)
    (h : ∀ k, m'.get k = if gone k then none else m.get k) (f : String → V → ℕ) :
    m'.sum f + m.sum (fun k v => if gone k then f k v else 0) = m.sum f := by
  have hleft : m' = ⟨m.entries.filter fun p => !gone p.1, m.sorted.filter _⟩ := by
    refine OrdMap.ext fun k => Option.ext fun v => ?_
    rw [h, ← OrdMap.mem_iff_get, List.mem_filter, OrdMap.mem_iff_get]
    cases gone k <;> simp
  rw [hleft]
  simp only [OrdMap.sum]
  induction m.entries with
  | nil => rfl
  | cons p rest ih =>
    rw [List.map_cons, List.map_cons, List.sum_cons, List.sum_cons, ← ih]
    cases hp : gone p.1
    · rw [List.filter_cons_of_pos (by simp [hp]), List.map_cons, List.sum_cons]
      simp
      omega
    · rw [List.filter_cons_of_neg (by simp [hp])]
      simp
      omega

/-! ## Entries -/

/-- `State::as_str` -/
def SegmentState.text : SegmentState → String
  | live => "live"
  | unsealed => "unsealed"
  | sealed => "sealed"
  | corrupt => "corrupt"
  | unreadable => "unreadable"

/-- `SHARED` -/
def sharedReason : String :=
  "the index, locks and blobs several segments share, orphaned blobs and " ++
    "temporary files: reclaimed by every sweep, never evicted whole"

/-- `Entry` of the telemetry kind, without where the inventory found its files. -/
structure SegmentEntry where
  /-- absent for what the segments share -/
  segmentId : Option String
  state : String
  path : PathBuf
  bytes : ℕ
  lastUseUnixMs : ℕ
  inUse : Option String
  deriving DecidableEq, Repr

namespace Directory

/-- The entry of one segment. -/
def segmentEntry (D : Directory) (segment : Segment) : SegmentEntry where
  segmentId := some segment.id
  state := segment.state.text
  path := segment.path
  bytes := D.marginal segment.id
  lastUseUnixMs := segment.lastUseUnixMs
  inUse :=
    match segment.state with
    | .live => some "a writer holds its lock"
    | .unsealed => some "unsealed: an applied sweep recovers it before it may go"
    | .sealed | .corrupt | .unreadable => none

/-- `entries`: the segments with their marginal bytes, and the remainder. -/
def entries (D : Directory) : List SegmentEntry :=
  let entries := D.segments.values.map D.segmentEntry
  let owned := (entries.map SegmentEntry.bytes).sum
  entries ++ [{
    segmentId := none
    state := "shared"
    path := D.root
    bytes := D.total - owned
    lastUseUnixMs := (D.segments.values.map Segment.lastUseUnixMs).max?.getD 0
    inUse := some sharedReason }]

/-- Removals one after another: what they free together, and what they leave. -/
def removeEach (D : Directory) : List String → ℕ × Directory
  | [] => (0, D)
  | id :: ids =>
    let (freed, rest) := (D.remove id).2.removeEach ids
    ((D.remove id).1 + freed, rest)

/-! ## What is left -/

/-- Some of the removed segments names the digest, and no other segment does. -/
def namedOnlyBy (D : Directory) (removed : List String) (digest : String) : Bool :=
  (D.segments.entries.any fun p => decide (p.1 ∈ removed) && decide (digest ∈ p.2.refs)) &&
    !D.segments.entries.any fun p => decide (p.1 ∉ removed) && decide (digest ∈ p.2.refs)

/-- What the removed segments are worth together: their own bytes, and the blobs only they name. -/
def worth (D : Directory) (removed : List String) : ℕ :=
  (D.segments.sum fun id s => if id ∈ removed then s.ownBytes else 0) +
    D.blobs.sum fun digest bytes => if D.namedOnlyBy removed digest then bytes else 0

theorem namedOnlyBy_iff {D : Directory} {removed : List String} {digest : String} :
    D.namedOnlyBy removed digest = true ↔
      (∃ id s, D.segments.get id = some s ∧ id ∈ removed ∧ digest ∈ s.refs) ∧
        ∀ id s, D.segments.get id = some s → digest ∈ s.refs → id ∈ removed := by
  rw [namedOnlyBy, Bool.and_eq_true, Bool.not_eq_true', List.any_eq_true, List.any_eq_false]
  refine and_congr ?_ ?_
  · constructor
    · rintro ⟨⟨id, s⟩, hmem, h⟩
      exact ⟨id, s, OrdMap.mem_iff_get.mp hmem, by simpa using h⟩
    · rintro ⟨id, s, hget, h⟩
      exact ⟨(id, s), OrdMap.mem_iff_get.mpr hget, by simpa using h⟩
  · constructor
    · intro h id s hget hdigest
      by_contra hid
      exact h (id, s) (OrdMap.mem_iff_get.mpr hget) (by simp [hid, hdigest])
    · rintro h ⟨id, s⟩ hmem hboth
      simp only [Bool.and_eq_true, decide_eq_true_eq] at hboth
      exact hboth.1 (h id s (OrdMap.mem_iff_get.mp hmem) hboth.2)

/-- `D'` is what the removed segments leave of `D`. -/
structure Left (D : Directory) (removed : List String) (D' : Directory) : Prop where
  segments : ∀ id, D'.segments.get id = if id ∈ removed then none else D.segments.get id
  blobs : ∀ digest, D'.blobs.get digest =
    if D.namedOnlyBy removed digest then none else D.blobs.get digest

theorem Left.refl (D : Directory) : D.Left [] D where
  segments id := by simp
  blobs digest := by
    have hno : D.namedOnlyBy [] digest = false := by simp [namedOnlyBy]
    simp [hno]

/-- Only the names of the removed segments matter. -/
theorem namedOnlyBy_congr {D : Directory} {removed removed' : List String}
    (h : ∀ id s, D.segments.get id = some s → (id ∈ removed ↔ id ∈ removed')) (digest : String) :
    D.namedOnlyBy removed digest = D.namedOnlyBy removed' digest := by
  rw [Bool.eq_iff_iff, namedOnlyBy_iff, namedOnlyBy_iff]
  refine and_congr ⟨?_, ?_⟩ ⟨?_, ?_⟩
  · rintro ⟨id, s, hget, hid, hdigest⟩
    exact ⟨id, s, hget, (h id s hget).mp hid, hdigest⟩
  · rintro ⟨id, s, hget, hid, hdigest⟩
    exact ⟨id, s, hget, (h id s hget).mpr hid, hdigest⟩
  · exact fun hall id s hget hdigest => (h id s hget).mp (hall id s hget hdigest)
  · exact fun hall id s hget hdigest => (h id s hget).mpr (hall id s hget hdigest)

/-- The digests only the removed segments name, when one more is removed. -/
theorem Left.namedOnlyBy_cons {D D' : Directory} {removed : List String} (h : D.Left removed D')
    {id : String} {segment : Segment} (hseg : D'.segments.get id = some segment)
    (digest : String) :
    D.namedOnlyBy (id :: removed) digest = true ↔
      D.namedOnlyBy removed digest = true ∨ (digest ∈ segment.refs ∧
        ∀ k s, (D'.segments.erase id).get k = some s → digest ∉ s.refs) := by
  rw [h.segments] at hseg
  split_ifs at hseg with hid
  have hrest : ∀ k s, (D'.segments.erase id).get k = some s ↔
      k ∉ id :: removed ∧ D.segments.get k = some s := by
    intro k s
    rw [OrdMap.get_erase, h.segments]
    by_cases hk : k = id <;> by_cases hr : k ∈ removed <;> simp [hk, hr]
  rw [namedOnlyBy_iff, namedOnlyBy_iff]
  constructor
  · rintro ⟨⟨k, s, hget, hk, hdigest⟩, hall⟩
    by_cases hnames : digest ∈ segment.refs
    · exact .inr ⟨hnames, fun k s hks hd =>
        ((hrest k s).mp hks).1 (hall k s ((hrest k s).mp hks).2 hd)⟩
    · -- the segment does not name it, so it is among those removed before
      have hne : ∀ k s, D.segments.get k = some s → digest ∈ s.refs → k ≠ id := by
        rintro k s hget hd rfl
        rw [hseg] at hget
        cases hget
        exact hnames hd
      refine .inl ⟨⟨k, s, hget, ?_, hdigest⟩, fun k s hget hd => ?_⟩
      · exact (List.mem_cons.mp hk).resolve_left (hne k s hget hdigest)
      · exact (List.mem_cons.mp (hall k s hget hd)).resolve_left (hne k s hget hd)
  · rintro (⟨⟨k, s, hget, hk, hdigest⟩, hall⟩ | ⟨hnames, hnone⟩)
    · exact ⟨⟨k, s, hget, List.mem_cons_of_mem _ hk, hdigest⟩,
        fun k s hget hd => List.mem_cons_of_mem _ (hall k s hget hd)⟩
    · refine ⟨⟨id, segment, hseg, List.mem_cons_self, hnames⟩, fun k s hget hd => ?_⟩
      by_contra hk
      exact hnone k s ((hrest k s).mpr ⟨hk, hget⟩) hd

/-- One more removal. -/
theorem Left.remove {D D' : Directory} {removed : List String} (h : D.Left removed D')
    (id : String) : D.Left (id :: removed) (D'.remove id).2 := by
  cases hseg : D'.segments.get id with
  | none =>
    -- it is not there: never was, or is removed already
    have hsame : ∀ k s, D.segments.get k = some s → (k ∈ id :: removed ↔ k ∈ removed) := by
      rintro k s hget
      rw [List.mem_cons, or_iff_right_iff_imp]
      rintro rfl
      rw [h.segments] at hseg
      by_contra hk
      rw [if_neg hk, hget] at hseg
      cases hseg
    have hstay : (D'.remove id).2 = D' := by simp [Directory.remove, hseg]
    rw [hstay]
    refine ⟨fun k => ?_, fun digest => ?_⟩
    · rw [h.segments]
      cases hget : D.segments.get k with
      | none => simp
      | some s => simp only [hsame k s hget]
    · rw [h.blobs, namedOnlyBy_congr hsame]
  | some segment =>
    refine ⟨fun k => ?_, fun digest => ?_⟩
    · simp only [Directory.remove, hseg]
      rw [OrdMap.get_erase, h.segments]
      by_cases hk : k = id <;> simp [hk]
    · have hgone : (decide (digest ∈ segment.refs) && !((D'.segments.erase id).values.any
          fun other => decide (digest ∈ other.refs))) = true ↔
            digest ∈ segment.refs ∧
              ∀ k s, (D'.segments.erase id).get k = some s → digest ∉ s.refs := by
        simp only [Bool.and_eq_true, decide_eq_true_eq, Bool.not_eq_true', List.any_eq_false,
          OrdMap.mem_values_iff]
        refine and_congr_right fun _ => ⟨fun hall k s hks => hall s ⟨k, hks⟩, fun hall s => ?_⟩
        rintro ⟨k, hks⟩
        exact hall k s hks
      refine Option.ext fun bytes => ?_
      simp only [Directory.remove, hseg]
      rw [← OrdMap.mem_iff_get, List.mem_filter, OrdMap.mem_iff_get, h.blobs, Bool.not_eq_true',
        ← Bool.not_eq_true, hgone]
      have hcons := h.namedOnlyBy_cons hseg digest
      by_cases hbefore : D.namedOnlyBy removed digest = true
      · simp [hcons.mpr (.inl hbefore), hbefore]
      · rw [if_neg hbefore]
        by_cases hnow : digest ∈ segment.refs ∧
            ∀ k s, (D'.segments.erase id).get k = some s → digest ∉ s.refs
        · rw [if_pos (hcons.mpr (.inr hnow))]
          exact ⟨fun hkept => absurd hnow hkept.2, fun hnone => by cases hnone⟩
        · rw [if_neg fun hall => (hcons.mp hall).elim hbefore hnow]
          exact and_iff_left hnow

/-- **What removals leave** does not depend on their order. -/
theorem Left.removeEach {D D' : Directory} {removed : List String} (h : D.Left removed D')
    (ids : List String) : D.Left (ids.reverse ++ removed) (D'.removeEach ids).2 := by
  induction ids generalizing D' removed with
  | nil => exact h
  | cons id ids ih =>
    rw [List.reverse_cons, List.append_assoc, List.singleton_append]
    exact ih (h.remove id)

/-! ## What is freed -/

theorem Covers.remove_any {D : Directory} (h : D.Covers) (id : String) :
    (D.remove id).2.total + (D.remove id).1 = D.total ∧
      (D.remove id).2.evictable + (D.remove id).1 = D.evictable ∧ (D.remove id).2.Covers := by
  cases hseg : D.segments.get id with
  | none =>
    simp only [Directory.remove, hseg]
    exact ⟨rfl, rfl, h⟩
  | some segment =>
    exact ⟨(h.remove hseg).1, h.keyed.evictable_remove hseg, (h.remove hseg).2⟩

/-- The total and what can be freed lose exactly what the removals free. -/
theorem Covers.removeEach {D : Directory} (h : D.Covers) (ids : List String) :
    (D.removeEach ids).2.total + (D.removeEach ids).1 = D.total ∧
      (D.removeEach ids).2.evictable + (D.removeEach ids).1 = D.evictable ∧
        (D.removeEach ids).2.Covers := by
  induction ids generalizing D with
  | nil => exact ⟨rfl, rfl, h⟩
  | cons id ids ih =>
    obtain ⟨htotal, hfreed, hcovers⟩ := h.remove_any id
    obtain ⟨htotal', hfreed', hcovers'⟩ := ih hcovers
    simp only [Directory.removeEach]
    exact ⟨by omega, by omega, hcovers'⟩

/-- **What the removals free** is what the removed segments are worth together. -/
theorem Covers.freed {D : Directory} (h : D.Covers) (ids : List String) :
    (D.removeEach ids).1 = D.worth ids := by
  have hleft := (Left.refl D).removeEach ids
  have hmem : ∀ id, id ∈ ids.reverse ++ [] ↔ id ∈ ids := by simp
  have hown := sum_left D.segments (fun id => decide (id ∈ ids))
    (fun id => by rw [hleft.segments]; simp) fun _ s => s.ownBytes
  have hblobs := sum_left D.blobs (D.namedOnlyBy ids)
    (fun digest => by
      rw [hleft.blobs, namedOnlyBy_congr (fun id _ _ => hmem id)]) fun _ bytes => bytes
  have hfreed := (h.removeEach ids).2.1
  simp only [evictable, worth, decide_eq_true_eq] at *
  omega

theorem removeEach_root (D : Directory) (ids : List String) :
    (D.removeEach ids).2.root = D.root := by
  induction ids generalizing D with
  | nil => rfl
  | cons id ids ih =>
    simp only [removeEach, ih]
    cases hseg : D.segments.get id <;> simp [Directory.remove, hseg]

/-- **The order of removals** is of no account. -/
theorem Covers.removeEach_congr {D : Directory} (h : D.Covers) {ids ids' : List String}
    (hids : ∀ id, id ∈ ids ↔ id ∈ ids') : D.removeEach ids = D.removeEach ids' := by
  have hleft := (Left.refl D).removeEach ids
  have hleft' := (Left.refl D).removeEach ids'
  have hmem : ∀ id, id ∈ ids.reverse ++ [] ↔ id ∈ ids'.reverse ++ [] := by simpa using hids
  have hsegments : (D.removeEach ids).2.segments = (D.removeEach ids').2.segments :=
    OrdMap.ext fun id => by rw [hleft.segments, hleft'.segments]; simp only [hmem id]
  have hblobs : (D.removeEach ids).2.blobs = (D.removeEach ids').2.blobs :=
    OrdMap.ext fun digest => by
      rw [hleft.blobs, hleft'.blobs, namedOnlyBy_congr fun id _ _ => hmem id]
  have hfreed := (h.removeEach ids).2.1
  have hfreed' := (h.removeEach ids').2.1
  have htotal := (h.removeEach ids).1
  have htotal' := (h.removeEach ids').1
  simp only [evictable, hsegments, hblobs] at hfreed
  simp only [evictable] at hfreed'
  have hsame : (D.removeEach ids).1 = (D.removeEach ids').1 := by omega
  refine Prod.ext hsame ?_
  have hroot : (D.removeEach ids).2.root = (D.removeEach ids').2.root := by
    rw [removeEach_root, removeEach_root]
  have hleftTotal : (D.removeEach ids).2.total = (D.removeEach ids').2.total := by omega
  calc (D.removeEach ids).2
      = ⟨(D.removeEach ids).2.root, (D.removeEach ids).2.total, (D.removeEach ids).2.segments,
          (D.removeEach ids).2.blobs⟩ := rfl
    _ = (D.removeEach ids').2 := by rw [hroot, hleftTotal, hsegments, hblobs]

/-! ## The entries -/

/-- A segment is worth no less once another is gone. -/
theorem marginal_le_remove (D : Directory) {id other : String} (hne : id ≠ other) :
    D.marginal id ≤ (D.remove other).2.marginal id := by
  cases hother : D.segments.get other with
  | none => simp [Directory.remove, hother]
  | some gone =>
    have hget : (D.remove other).2.segments.get id = D.segments.get id := by
      simp only [Directory.remove, hother]
      rw [OrdMap.get_erase, if_neg hne]
    cases hseg : D.segments.get id with
    | none => simp [marginal, hseg]
    | some segment =>
      simp only [marginal, hget, hseg]
      -- a digest no other names is named by no other now, and its blob stays
      have hnamed : ∀ d, (D.remove other).2.namedByOther id d = true →
          D.namedByOther id d = true := by
        intro d
        simp only [namedByOther, List.any_eq_true, OrdMap.mem_values_iff]
        rintro ⟨s, ⟨k, hk⟩, hs⟩
        simp only [Directory.remove, hother] at hk
        rw [OrdMap.get_erase] at hk
        split_ifs at hk
        exact ⟨s, ⟨k, hk⟩, hs⟩
      have hsub : (segment.refs.filter fun d => !D.namedByOther id d) ⊆
          segment.refs.filter fun d => !(D.remove other).2.namedByOther id d := by
        intro d hd
        simp only [Finset.mem_filter, Bool.not_eq_true'] at hd ⊢
        exact ⟨hd.1, by
          by_contra h
          rw [Bool.not_eq_false] at h
          simp [hnamed d h] at hd⟩
      have hbytes : ∀ d ∈ segment.refs, D.blobBytes d = (D.remove other).2.blobBytes d := by
        intro d hd
        have hstays : (D.remove other).2.blobs.get d = D.blobs.get d := by
          refine Option.ext fun bytes => ?_
          simp only [Directory.remove, hother]
          rw [← OrdMap.mem_iff_get, List.mem_filter, OrdMap.mem_iff_get]
          refine and_iff_left ?_
          have hany : ((D.segments.erase other).values.any fun s => decide (d ∈ s.refs)) = true :=
            List.any_eq_true.mpr ⟨segment, OrdMap.mem_values_iff.mpr
              ⟨id, by rw [OrdMap.get_erase, if_neg hne, hseg]⟩, by simpa using hd⟩
          simp [hany]
        rw [blobBytes, blobBytes, hstays]
      refine Nat.add_le_add_left ?_ _
      calc (segment.refs.filter fun d => !D.namedByOther id d).sum D.blobBytes
          = (segment.refs.filter fun d => !D.namedByOther id d).sum (D.remove other).2.blobBytes :=
            Finset.sum_congr rfl fun d hd => hbytes d (Finset.mem_filter.mp hd).1
        _ ≤ _ := Finset.sum_le_sum_of_subset hsub

/-- The marginal bytes of some segments are no more than removing them all frees. -/
theorem sum_marginal_le (D : Directory) {ids : List String} (hids : ids.Nodup) :
    (ids.map D.marginal).sum ≤ (D.removeEach ids).1 := by
  induction ids generalizing D with
  | nil => exact le_rfl
  | cons id ids ih =>
    obtain ⟨hid, hids⟩ := List.nodup_cons.mp hids
    have hgrows : (ids.map D.marginal).sum ≤ (ids.map (D.remove id).2.marginal).sum :=
      List.sum_le_sum fun k hk => D.marginal_le_remove fun h => hid (h ▸ hk)
    have hrest := ih (D.remove id).2 hids
    have hfreed : (D.remove id).1 = D.marginal id := by
      cases hseg : D.segments.get id <;> simp [Directory.remove, marginal, hseg]
    rw [List.map_cons, List.sum_cons]
    simp only [removeEach]
    omega

/-- **The entries add up to the total.** -/
theorem Covers.entries_sum {D : Directory} (h : D.Covers) :
    (D.entries.map SegmentEntry.bytes).sum = D.total := by
  have hkeys : D.segments.values.map (fun s => D.marginal s.id) = D.segments.keys.map D.marginal := by
    rw [OrdMap.values, OrdMap.keys, List.map_map, List.map_map]
    refine List.map_congr_left fun p hp => ?_
    have hid := h.keyed p.1 p.2 (OrdMap.mem_iff_get.mp hp)
    simp [hid]
  have howned : ((D.segments.values.map D.segmentEntry).map SegmentEntry.bytes).sum ≤ D.total := by
    have hsum := D.sum_marginal_le D.segments.keys_nodup
    have hfreed := (h.removeEach D.segments.keys).1
    rw [List.map_map]
    calc (D.segments.values.map fun s => D.marginal s.id).sum
        = (D.segments.keys.map D.marginal).sum := by rw [hkeys]
      _ ≤ D.total := by omega
  simp only [entries, List.map_append, List.sum_append, List.map_cons, List.map_nil,
    List.sum_singleton]
  omega

end Directory

/-- **Evictions account for what they free**, in any order: removing segments one after another
frees their own bytes and those of the blobs that they and no remaining segment name; the total
loses exactly that; after every removal the entries add up to the total; and the same segments in
another order free the same and leave the same. -/
theorem evictions_account (D : Directory) (hD : D.Covers) (ids : List String) :
    (D.removeEach ids).1 = D.worth ids ∧
      (D.removeEach ids).2.total + (D.removeEach ids).1 = D.total ∧
        (∀ before, before <+: ids →
          ((D.removeEach before).2.entries.map SegmentEntry.bytes).sum =
            (D.removeEach before).2.total) ∧
          ∀ ids', ids.Perm ids' → D.removeEach ids' = D.removeEach ids :=
  ⟨hD.freed ids, (hD.removeEach ids).1, fun before _ => (hD.removeEach before).2.2.entries_sum,
    fun _ hperm => (hD.removeEach_congr fun _ => hperm.mem_iff).symm⟩

/-- Two segments that share a blob. -/
def sharedBlob : Directory where
  root := ["t"]
  total := 10 + 20 + 1000 + 7 + 3
  segments := OrdMap.ofList [
    ("a", ⟨"a", .sealed, ["a"], 10, 0, {"blob"}⟩),
    ("b", ⟨"b", .sealed, ["b"], 20, 0, {"blob", "own"}⟩)]
  blobs := OrdMap.ofList [("blob", 1000), ("own", 7)]

theorem sharedBlob_covers : sharedBlob.Covers where
  keyed id segment h := by
    have hmem := OrdMap.mem_iff_get.mpr h
    rw [show sharedBlob.segments.entries = [
      ("a", ⟨"a", .sealed, ["a"], 10, 0, {"blob"}⟩),
      ("b", ⟨"b", .sealed, ["b"], 20, 0, {"blob", "own"}⟩)] by decide] at hmem
    simp only [List.mem_cons, Prod.mk.injEq, List.not_mem_nil, or_false] at hmem
    rcases hmem with ⟨rfl, rfl⟩ | ⟨rfl, rfl⟩ <;> rfl
  counts := by decide

/-- The blob goes with the second. -/
theorem evictions_account_shared :
    (sharedBlob.removeEach ["a"]).1 = 10 ∧ (sharedBlob.removeEach ["a", "b"]).1 = 1037 ∧
      sharedBlob.removeEach ["b", "a"] = sharedBlob.removeEach ["a", "b"] :=
  ⟨by decide, by decide,
    (evictions_account sharedBlob sharedBlob_covers ["a", "b"]).2.2.2 _ (List.Perm.swap "b" "a" [])⟩

end Storage

end Afactory
