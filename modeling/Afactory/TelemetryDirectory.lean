import Mathlib
import Afactory.OrdMap

/-!
# Telemetry directories

`Directory` of `review-telemetry/src/budget.rs`: a telemetry directory as the budget
sees it, its segments and its blobs with their bytes.

* `Directory.marginal`: what evicting a segment frees now, its own files and the blobs
  no other segment names;
* `Directory.remove`: the segment gone, the blobs only it named gone with it;
* `Directory.Covers`: a total that counts every file of the directory at least once,
  which `remove` keeps while it takes exactly what it frees out of the total.
-/

namespace Afactory

namespace Storage

/-- A path by its components, from `/`. -/
abbrev PathBuf := List String

/-- `State`: what a segment is, for the budget. -/
inductive SegmentState where
  | live | unsealed | sealed | corrupt | unreadable
  deriving DecidableEq, Repr

/-- `Segment`: one segment, or another version's directory. -/
structure Segment where
  id : String
  state : SegmentState
  path : PathBuf
  /-- the bytes of the segment's own files -/
  ownBytes : ℕ
  lastUseUnixMs : ℕ
  /-- the blob digests it names -/
  refs : Finset String
  deriving DecidableEq

/-- `Directory`: one telemetry directory. -/
structure Directory where
  root : PathBuf
  total : ℕ
  segments : OrdMap String Segment
  /-- the bytes of every blob object, by digest -/
  blobs : OrdMap String ℕ
  deriving DecidableEq

namespace Directory

/-- Whether a segment stored under another id names the digest. -/
def namedByOther (D : Directory) (id digest : String) : Bool :=
  D.segments.values.any fun other => decide (other.id ≠ id) && decide (digest ∈ other.refs)

/-- The bytes of a blob, none when it is not there. -/
def blobBytes (D : Directory) (digest : String) : ℕ := (D.blobs.get digest).getD 0

/-- `marginal`: the bytes evicting `id` frees now. -/
def marginal (D : Directory) (id : String) : ℕ :=
  match D.segments.get id with
  | none => 0
  | some segment =>
    segment.ownBytes + (segment.refs.filter fun d => !D.namedByOther id d).sum D.blobBytes

/-- `remove`: take `id` out of the model; the bytes it frees. -/
def remove (D : Directory) (id : String) : ℕ × Directory :=
  let freed := D.marginal id
  match D.segments.get id with
  | none => (0, D)
  | some segment =>
    let segments := D.segments.erase id
    let remaining (digest : String) := segments.values.any fun other => digest ∈ other.refs
    let blobs : OrdMap String ℕ :=
      ⟨D.blobs.entries.filter fun p => !(decide (p.1 ∈ segment.refs) && !remaining p.1),
        D.blobs.sorted.filter _⟩
    (freed, { D with segments := segments, blobs := blobs, total := D.total - freed })

/-! ## What a removal frees -/

/-- Segments are stored under their own ids. -/
def Keyed (D : Directory) : Prop := ∀ id segment, D.segments.get id = some segment → segment.id = id

/-- What evictions can free: every segment's own files and every blob. -/
def evictable (D : Directory) : ℕ :=
  (D.segments.sum fun _ s => s.ownBytes) + D.blobs.sum fun _ b => b

/-- The directory's total counts every segment's own files and every blob. -/
structure Covers (D : Directory) : Prop where
  keyed : D.Keyed
  counts : D.evictable ≤ D.total

/-- The blobs only one segment names. -/
def ownBlobs (D : Directory) (id : String) (refs : Finset String) : Finset String :=
  refs.filter fun d => !D.namedByOther id d

/-- What is left of a sum once the keys of a set are gone. -/
theorem sum_filter_keys (l : List (String × ℕ)) (hl : Sorted l) (R : Finset String) :
    ((l.filter fun p => decide (p.1 ∉ R)).map fun p => p.2).sum +
      R.sum (fun k => (lookup k l).getD 0) = (l.map fun p => p.2).sum := by
  induction l with
  | nil => simp [lookup]
  | cons e t ih =>
    obtain ⟨he, ht⟩ := List.pairwise_cons.mp hl
    have hnone : lookup e.1 t = none := lookup_eq_none_of_lt fun p hp => he p hp
    have hrest : ∀ k ∈ R.erase e.1, (lookup k (e :: t)).getD 0 = (lookup k t).getD 0 := by
      intro k hk
      rw [lookup, if_neg (Ne.symm (Finset.ne_of_mem_erase hk))]
    by_cases hR : e.1 ∈ R
    · have hcons := Finset.add_sum_erase R (fun k => (lookup k (e :: t)).getD 0) hR
      have htail := Finset.add_sum_erase R (fun k => (lookup k t).getD 0) hR
      rw [Finset.sum_congr rfl hrest] at hcons
      simp only [lookup, if_true, Option.getD_some, hnone, Option.getD_none] at hcons htail
      rw [List.filter_cons_of_neg (by simpa using hR), List.map_cons, List.sum_cons, ← ih ht]
      simp only [lookup] at hcons ⊢
      omega
    · have hsame : R.sum (fun k => (lookup k (e :: t)).getD 0) =
          R.sum fun k => (lookup k t).getD 0 := by
        refine Finset.sum_congr rfl fun k hk => ?_
        rw [lookup, if_neg fun h : e.1 = k => hR (h ▸ hk)]
      rw [List.filter_cons_of_pos (by simpa using hR), List.map_cons, List.map_cons,
        List.sum_cons, List.sum_cons, hsame, ← ih ht]
      omega

theorem Keyed.remaining {D : Directory} (h : D.Keyed) (id digest : String) :
    ((D.segments.erase id).values.any fun other => decide (digest ∈ other.refs)) =
      D.namedByOther id digest := by
  rw [namedByOther, Bool.eq_iff_iff, List.any_eq_true, List.any_eq_true]
  constructor
  · rintro ⟨other, hother, hd⟩
    obtain ⟨k, hk⟩ := OrdMap.mem_values_iff.mp hother
    rw [OrdMap.get_erase] at hk
    split_ifs at hk with hne
    exact ⟨other, OrdMap.mem_values_iff.mpr ⟨k, hk⟩, by simp [h k other hk, hne, hd]⟩
  · rintro ⟨other, hother, hd⟩
    obtain ⟨k, hk⟩ := OrdMap.mem_values_iff.mp hother
    simp only [Bool.and_eq_true, decide_eq_true_eq] at hd
    refine ⟨other, OrdMap.mem_values_iff.mpr ⟨k, ?_⟩, by simpa using hd.2⟩
    rw [OrdMap.get_erase, if_neg (h k other hk ▸ hd.1), hk]

/-- **Evicting a segment** frees its part of what the directory can free. -/
theorem Keyed.evictable_remove {D : Directory} (h : D.Keyed) {id : String} {segment : Segment}
    (hseg : D.segments.get id = some segment) :
    (D.remove id).2.evictable + (D.remove id).1 = D.evictable := by
  have hremaining := h.remaining id
  have hown := OrdMap.sum_erase D.segments id fun _ s => s.ownBytes
  rw [hseg] at hown
  simp only [Option.elim] at hown
  have hblobs := sum_filter_keys D.blobs.entries D.blobs.sorted (D.ownBlobs id segment.refs)
  have hfilter : (D.blobs.entries.filter fun p => !(decide (p.1 ∈ segment.refs) &&
      !(D.segments.erase id).values.any fun other => decide (p.1 ∈ other.refs))) =
      D.blobs.entries.filter fun p => decide (p.1 ∉ D.ownBlobs id segment.refs) := by
    refine List.filter_congr fun p _ => ?_
    rw [hremaining]
    simp [ownBlobs]
  have hfreed : D.marginal id = segment.ownBytes +
      (D.ownBlobs id segment.refs).sum fun k => (lookup k D.blobs.entries).getD 0 := by
    simp only [marginal, hseg]
    rfl
  simp only [OrdMap.sum] at hown
  simp only [Directory.remove, hseg, evictable, OrdMap.sum, hfilter]
  omega

/-- A covered directory stays covered, and its total loses exactly what was freed. -/
theorem Covers.remove {D : Directory} (h : D.Covers) {id : String} {segment : Segment}
    (hseg : D.segments.get id = some segment) :
    (D.remove id).2.total + (D.remove id).1 = D.total ∧ (D.remove id).2.Covers := by
  have hfreed := h.keyed.evictable_remove hseg
  have hcounts := h.counts
  have htotal : (D.remove id).2.total = D.total - (D.remove id).1 := by
    simp only [Directory.remove, hseg]
  refine ⟨by omega, fun k s hk => ?_, by omega⟩
  simp only [Directory.remove, hseg] at hk
  rw [OrdMap.get_erase] at hk
  split_ifs at hk
  exact h.keyed k s hk

end Directory

end Storage

end Afactory
