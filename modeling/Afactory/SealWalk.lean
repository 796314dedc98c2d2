import Mathlib
import Afactory.FoldedNames
import Afactory.PathSpellings
import Afactory.SealScan

/-!
# The walk of a seal

* `baselinePosition_eq_some`: the search finds the entry of a path;
* `Walks`, `scanLevels_spec`: the walk finds every file and link once, at whatever level;
* `exists_scanLevels`: without special files it ends.
-/

namespace Afactory

namespace Seal

open Splitting

/-! ## The baseline -/

theorem comparePaths_eq {a b : String} : comparePaths a b = .eq ↔ a = b := by
  unfold comparePaths
  constructor
  · intro h
    split_ifs at h with hlt heq
    exact pathBytes_inj heq
  · rintro rfl
    rw [if_neg (List.lt_irrefl _), if_pos rfl]

theorem sought_baseline {baseline : Manifest} (h : baseline.validate = .ok ()) (relative : String) :
    Sought (fun index => (baseline.entries[index]?).elim .gt fun entry =>
      comparePaths entry.path relative) baseline.entries.length := by
  intro i j hij hj hi
  have hlt := List.pairwise_iff_getElem.mp (Manifest.validate_eq_ok.mp h).2 i j
    (hij.trans hj) hj hij
  simp only [List.getElem?_eq_getElem (hij.trans hj), Option.elim_some, comparePaths] at hi
  simp only [List.getElem?_eq_getElem hj, Option.elim_some, comparePaths]
  have hbelow : ¬ pathBytes (baseline.entries[i]).path < pathBytes relative := fun hlow =>
    hi (if_pos hlow)
  have habove := bytes_lt_of_not_lt hbelow hlt
  rw [if_neg (List.lt_asymm habove), if_neg fun heq => ?_]
  rw [heq] at habove
  exact List.lt_irrefl _ habove

/-- **The search finds the entry of a path**, if the baseline has one. -/
theorem baselinePosition_eq_some {baseline : Manifest} (h : baseline.validate = .ok ())
    {relative : String} {position : ℕ} :
    baselinePosition baseline relative = some position ↔
      ∃ entry, baseline.entries[position]? = some entry ∧ entry.path = relative := by
  rw [baselinePosition, binarySearch_eq_some (sought_baseline h relative)]
  constructor
  · rintro ⟨hlt, heq⟩
    rw [List.getElem?_eq_getElem hlt, Option.elim_some, comparePaths_eq] at heq
    exact ⟨_, List.getElem?_eq_getElem hlt, heq⟩
  · rintro ⟨entry, hentry, rfl⟩
    refine ⟨(List.getElem?_eq_some_iff.mp hentry).1, ?_⟩
    rw [hentry, Option.elim_some, comparePaths_eq]

/-! ## The files and links of a tree -/

/-- A file or link of the tree. -/
abbrev Found := TreePath × SourceLeaf

/-- Its path in a manifest. -/
def relative (found : Found) : String := encodeRawPath (joinPath found.1)

def sourceOf : TreePath × SealedLeaf → Option Found
  | (path, .source leaf) => some (path, leaf)
  | (_, .special _) => none

/-- The files and links below a directory. -/
def foundBelow (directory : Directory) : List Found :=
  (leavesBelow directory.1 directory.2).filterMap sourceOf

/-- Those the directory itself lists. -/
def foundIn (directory : Directory) : List Found :=
  directory.2.filterMap fun (name, node) =>
    match node with
    | .leaf leaf => sourceOf (directory.1 ++ [name], leaf)
    | .directory _ => none

theorem foundBelow_perm (directory : Directory) :
    (foundBelow directory).Perm
      (foundIn directory ++ (subdirectories directory).flatMap foundBelow) := by
  obtain ⟨path, children⟩ := directory
  rw [foundBelow, foundIn, subdirectories]
  induction children with
  | nil => exact .refl _
  | cons entry children ih =>
    obtain ⟨name, node⟩ := entry
    simp only [leavesBelow, List.filterMap_append] at ih ⊢
    cases node with
    | leaf leaf =>
      simp only [SealedNode.leaves, List.filterMap_cons, List.filterMap_nil]
      cases hleaf : sourceOf (path ++ [name], leaf) with
      | none => simpa using ih
      | some found => simpa using ih.cons found
    | directory below =>
      simp only [SealedNode.leaves, List.filterMap_cons, List.flatMap_cons, foundBelow]
      refine (ih.append_left _).trans ?_
      rw [← List.append_assoc, ← List.append_assoc]
      exact List.perm_append_comm.append_right _

theorem levels_perm (level : List Directory) :
    (level.flatMap foundBelow).Perm (level.flatMap foundIn ++
      (level.flatMap subdirectories).flatMap foundBelow) := by
  induction level with
  | nil => exact .refl _
  | cons directory level ih =>
    simp only [List.flatMap_cons, List.flatMap_append]
    refine ((foundBelow_perm directory).append ih).trans ?_
    rw [List.append_assoc, List.append_assoc]
    refine .append_left _ ?_
    rw [← List.append_assoc, ← List.append_assoc]
    exact List.perm_append_comm.append_right _

/-! ## The scan of a level -/

variable {digest : List UInt8 → String} {baseline : Manifest}

/-- What a file or link is classified as. -/
def classOf (baseline : Manifest) (found : Found) : ClassifiedEntry :=
  classifyLeaf baseline (relative found) found.2

/-- The entries of those the baseline has not. -/
def addedOf (baseline : Manifest) (found : List Found) : List Entry :=
  found.filterMap fun x => (classOf baseline x).added?

/-- The candidates for the entries the baseline has. -/
def candidatesOf (baseline : Manifest) (found : List Found) : List (ℕ × BaselineCandidate) :=
  found.filterMap fun x => (classOf baseline x).candidate?

theorem scanDirectory_spec {directory : Directory} {scan : DirectoryScan}
    (h : scanDirectory baseline directory = .ok scan) :
    scan.addedEntries = addedOf baseline (foundIn directory) ∧
      scan.addedPaths = (addedOf baseline (foundIn directory)).map Entry.path ∧
      scan.baselineCandidates = candidatesOf baseline (foundIn directory) := by
  obtain ⟨path, children⟩ := directory
  obtain ⟨classified, hall, rfl⟩ := exists_classified h
  clear h
  have hboth : classified.filterMap ClassifiedEntry.added? =
        addedOf baseline (foundIn (path, children)) ∧
      classified.filterMap ClassifiedEntry.candidate? =
        candidatesOf baseline (foundIn (path, children)) := by
    simp only [addedOf, candidatesOf, foundIn, List.filterMap_filterMap]
    induction hall with
    | nil => exact ⟨rfl, rfl⟩
    | @cons entry c _ _ hentry _ ih =>
      obtain ⟨name, node⟩ := entry
      cases node with
      | directory below =>
        obtain rfl := Except.ok.inj hentry
        simpa [List.filterMap_cons, ClassifiedEntry.added?, ClassifiedEntry.candidate?] using ih
      | leaf leaf =>
        cases leaf with
        | special kind => cases hentry
        | source leaf =>
          obtain rfl := Except.ok.inj hentry
          simp only [List.filterMap_cons, sourceOf, Option.bind_some, classOf, relative, ih.1, ih.2,
            and_self]
  exact ⟨hboth.1, by rw [hboth.1], hboth.2⟩

theorem mapM_scanDirectory_spec {level : List Directory} {scanned : List DirectoryScan}
    (h : level.mapM (scanDirectory baseline) = .ok scanned) :
    scanned.flatMap DirectoryScan.directories = level.flatMap subdirectories ∧
      scanned.flatMap DirectoryScan.addedEntries = addedOf baseline (level.flatMap foundIn) ∧
      scanned.flatMap DirectoryScan.addedPaths =
        (addedOf baseline (level.flatMap foundIn)).map Entry.path ∧
      scanned.flatMap DirectoryScan.baselineCandidates =
        candidatesOf baseline (level.flatMap foundIn) := by
  have hall := mapM_eq_ok_iff.mp h
  clear h
  induction hall with
  | nil => exact ⟨rfl, rfl, rfl, rfl⟩
  | cons hscan _ ih =>
    obtain ⟨hadded, hpaths, hcandidates⟩ := scanDirectory_spec hscan
    obtain ⟨ih₁, ih₂, ih₃, ih₄⟩ := ih
    simp only [List.flatMap_cons, directories_of_scan hscan, hadded, hpaths, hcandidates, ih₁, ih₂,
      ih₃, ih₄, addedOf, candidatesOf, List.filterMap_append, List.map_append, and_self]

/-! ## The walk -/

/-- The position of every candidate is marked. -/
def mark (matched : List Bool) (candidates : List (ℕ × BaselineCandidate)) : List Bool :=
  candidates.foldl (fun matched (position, _) => matched.set position true) matched

theorem mark_spec (matched : List Bool) (candidates : List (ℕ × BaselineCandidate)) :
    (mark matched candidates).length = matched.length ∧
      ∀ i < matched.length, (mark matched candidates)[i]? = some true ↔
        matched[i]? = some true ∨ ∃ c ∈ candidates, c.1 = i := by
  rw [mark]
  induction candidates generalizing matched with
  | nil => exact ⟨rfl, fun i _ => by simp⟩
  | cons c candidates ih =>
    obtain ⟨position, candidate⟩ := c
    obtain ⟨hlength, hmarked⟩ := ih (matched.set position true)
    rw [List.length_set] at hlength hmarked
    refine ⟨hlength, fun i hi => (hmarked i hi).trans ?_⟩
    simp only [List.mem_cons, exists_eq_or_imp]
    by_cases hip : position = i
    · subst hip
      simp [hi]
    · simp [hip]

theorem foldl_appendScan (scanned : List DirectoryScan) (walked : Walked) :
    scanned.foldl Walked.appendScan walked =
      { entries := walked.entries ++ scanned.flatMap DirectoryScan.addedEntries
        mutations :=
          { walked.mutations with
            added := walked.mutations.added ++ scanned.flatMap DirectoryScan.addedPaths }
        matched := mark walked.matched (scanned.flatMap DirectoryScan.baselineCandidates) } := by
  induction scanned generalizing walked with
  | nil => simp [mark]
  | cons scan scanned ih =>
    rw [List.foldl_cons, ih]
    simp [Walked.appendScan, mark]

/-- The candidates that were modified. -/
def modifiedOf (digest : List UInt8 → String) (candidates : List BaselineCandidate) : List String :=
  (candidates.filter fun c => (hashCandidate digest c).2).map BaselineCandidate.relative

def hashedOf (digest : List UInt8 → String) (candidates : List BaselineCandidate) : List Entry :=
  candidates.map fun c => (hashCandidate digest c).1

theorem hashCandidate_path (digest : List UInt8 → String) (c : BaselineCandidate) :
    (hashCandidate digest c).1.path = c.relative := rfl

theorem appendCandidates_eq (walked : Walked) (candidates : List BaselineCandidate) :
    walked.appendCandidates digest candidates =
      { walked with
        entries := walked.entries ++ hashedOf digest candidates
        mutations :=
          { walked.mutations with
            modified := walked.mutations.modified ++ modifiedOf digest candidates } } := by
  rw [Walked.appendCandidates, hashedOf, modifiedOf]
  induction candidates generalizing walked with
  | nil => simp
  | cons c candidates ih =>
    rw [List.map_cons, List.foldl_cons, ih, Walked.appendHashed]
    cases hmodified : (hashCandidate digest c).2 <;> simp [hmodified, hashCandidate_path]

/-- What a walk adds to what it has, once the pending candidates and all that was found below the
level are taken in. -/
structure Walks (digest : List UInt8 → String) (baseline : Manifest) (walked : Walked)
    (pending : List BaselineCandidate) (found : List Found) (walked' : Walked) : Prop where
  entries : (walked'.entries : Multiset Entry) = walked.entries + hashedOf digest pending +
    addedOf baseline found + hashedOf digest ((candidatesOf baseline found).map Prod.snd)
  added : (walked'.mutations.added : Multiset String) =
    walked.mutations.added + (addedOf baseline found).map Entry.path
  modified : (walked'.mutations.modified : Multiset String) = walked.mutations.modified +
    modifiedOf digest pending + modifiedOf digest ((candidatesOf baseline found).map Prod.snd)
  deleted : walked'.mutations.deleted = walked.mutations.deleted
  length : walked'.matched.length = walked.matched.length
  matched : ∀ i < walked.matched.length, walked'.matched[i]? = some true ↔
    walked.matched[i]? = some true ∨ ∃ c ∈ candidatesOf baseline found, c.1 = i

theorem Walks.of_perm {walked walked' : Walked} {pending : List BaselineCandidate}
    {found found' : List Found} (h : Walks digest baseline walked pending found walked')
    (hperm : found'.Perm found) : Walks digest baseline walked pending found' walked' where
  entries := by
    have hadded := Multiset.coe_eq_coe.mpr (hperm.filterMap fun x => (classOf baseline x).added?)
    have hhashed := Multiset.coe_eq_coe.mpr
      (((hperm.filterMap fun x => (classOf baseline x).candidate?).map Prod.snd).map
        fun c => (hashCandidate digest c).1)
    rw [h.entries]
    simp only [addedOf, hashedOf, candidatesOf, hadded, hhashed]
  added := by
    have hadded := Multiset.coe_eq_coe.mpr
      ((hperm.filterMap fun x => (classOf baseline x).added?).map Entry.path)
    rw [h.added]
    simp only [addedOf, hadded]
  modified := by
    have hmodified := Multiset.coe_eq_coe.mpr
      ((((hperm.filterMap fun x => (classOf baseline x).candidate?).map Prod.snd).filter
        fun c => (hashCandidate digest c).2).map BaselineCandidate.relative)
    rw [h.modified]
    simp only [modifiedOf, candidatesOf, hmodified]
  deleted := h.deleted
  length := h.length
  matched i hi := by
    rw [h.matched i hi]
    have hmem : ∀ c, c ∈ candidatesOf baseline found ↔ c ∈ candidatesOf baseline found' := fun c =>
      (hperm.filterMap _).mem_iff.symm
    simp only [hmem]

theorem scanLevels_cons {walked : Walked} {pending : List BaselineCandidate}
    {directory : Directory} {level : List Directory} {scanned : List DirectoryScan}
    (h : (directory :: level).mapM (scanDirectory baseline) = .ok scanned) :
    scanLevels digest baseline walked pending (directory :: level) =
      scanLevels digest baseline
        (scanned.foldl Walked.appendScan (walked.appendCandidates digest pending))
        (scanned.flatMap fun scan => scan.baselineCandidates.map Prod.snd)
        (scanned.flatMap DirectoryScan.directories) := by
  rw [scanLevels]
  split
  · rename_i hscan
    rw [h] at hscan
    cases hscan
  · rename_i hscan
    rw [Except.ok.inj (h.symm.trans hscan)]

/-- **The walk finds everything once**, whatever level it is on. -/
theorem scanLevels_spec {walked walked' : Walked} {pending : List BaselineCandidate}
    {level : List Directory} (h : scanLevels digest baseline walked pending level = .ok walked') :
    Walks digest baseline walked pending (level.flatMap foundBelow) walked' := by
  induction walked, pending, level using scanLevels.induct digest baseline with
  | case1 walked pending =>
    rw [scanLevels] at h
    obtain rfl := Except.ok.inj h
    rw [appendCandidates_eq]
    refine ⟨?_, ?_, ?_, rfl, rfl, fun i _ => ?_⟩ <;>
      simp [addedOf, candidatesOf, hashedOf, modifiedOf]
  | case2 walked pending directory level error hscan =>
    rw [scanLevels] at h
    split at h
    · cases h
    · rename_i hscan'
      rw [hscan] at hscan'
      cases hscan'
  | case3 walked pending directory level scanned hscan ih =>
    rw [scanLevels_cons hscan] at h
    obtain ⟨hnext, hadded, hpaths, hcandidates⟩ := mapM_scanDirectory_spec hscan
    have hrest := ih h
    rw [foldl_appendScan, appendCandidates_eq, hnext, hadded, hpaths, hcandidates] at hrest
    have hpending : (scanned.flatMap fun scan => scan.baselineCandidates.map Prod.snd) =
        (candidatesOf baseline ((directory :: level).flatMap foundIn)).map Prod.snd := by
      rw [← hcandidates, List.map_flatMap]
    rw [hpending] at hrest
    refine Walks.of_perm ?_ (levels_perm _)
    have happend : ∀ a b : List Found,
        addedOf baseline (a ++ b) = addedOf baseline a ++ addedOf baseline b ∧
        candidatesOf baseline (a ++ b) = candidatesOf baseline a ++ candidatesOf baseline b :=
      fun a b => ⟨List.filterMap_append, List.filterMap_append⟩
    obtain ⟨hlength, hmarked⟩ := mark_spec walked.matched
      (candidatesOf baseline ((directory :: level).flatMap foundIn))
    refine ⟨?_, ?_, ?_, hrest.deleted, hrest.length.trans hlength, fun i hi => ?_⟩
    · rw [hrest.entries, (happend _ _).1, (happend _ _).2]
      simp only [hashedOf, List.map_append, ← Multiset.coe_add]
      abel
    · rw [hrest.added, (happend _ _).1]
      simp only [List.map_append, ← Multiset.coe_add]
      abel
    · rw [hrest.modified, (happend _ _).2]
      simp only [modifiedOf, List.map_append, List.filter_append, ← Multiset.coe_add]
      abel
    · rw [hrest.matched i (by rw [hlength]; exact hi), hmarked i hi, (happend _ _).2]
      simp only [List.mem_append, or_and_right, exists_or, or_assoc]

/-! ## Trees without special files -/

/-- No leaf is a special file. -/
def Plain (leaves : List (TreePath × SealedLeaf)) : Prop := ∀ x ∈ leaves, (sourceOf x).isSome

theorem leaves_subset {path : TreePath} {children : List (FileName × SealedNode)} {name : FileName}
    {node : SealedNode} (h : (name, node) ∈ children) :
    node.leaves (path ++ [name]) ⊆ leavesBelow path children := by
  induction children with
  | nil => cases h
  | cons entry children ih =>
    obtain ⟨other, below⟩ := entry
    intro x hx
    rw [leavesBelow, List.mem_append]
    rcases List.mem_cons.mp h with heq | h
    · obtain ⟨rfl, rfl⟩ := Prod.mk.inj heq
      exact .inl hx
    · exact .inr (ih h hx)

theorem Plain.subdirectory {directory below : Directory}
    (h : Plain (leavesBelow directory.1 directory.2)) (hbelow : below ∈ subdirectories directory) :
    Plain (leavesBelow below.1 below.2) := by
  obtain ⟨⟨name, node⟩, hchild, hnode⟩ := List.mem_filterMap.mp hbelow
  cases node with
  | leaf leaf => cases hnode
  | directory children =>
    obtain rfl := Option.some.inj hnode
    intro x hx
    exact h x (leaves_subset hchild (by rwa [SealedNode.leaves]))

theorem exists_scanDirectory {directory : Directory}
    (h : Plain (leavesBelow directory.1 directory.2)) :
    ∃ scan, scanDirectory baseline directory = .ok scan := by
  have hentries : ∀ entry ∈ directory.2, ∃ c,
      (fun (name, node) => classifyDirectoryEntry baseline (directory.1 ++ [name]) node) entry =
        .ok c := by
    rintro ⟨name, node⟩ hentry
    cases node with
    | directory children => exact ⟨_, rfl⟩
    | leaf leaf =>
      cases leaf with
      | source leaf => exact ⟨_, rfl⟩
      | special kind =>
        have hmem : (directory.1 ++ [name], SealedLeaf.special kind) ∈
            leavesBelow directory.1 directory.2 :=
          leaves_subset hentry (by rw [SealedNode.leaves]; exact List.mem_cons_self)
        cases h _ hmem
  obtain ⟨classified, hclassified⟩ := exists_mapM_eq_ok hentries
  exact ⟨_, bind_eq_ok.mpr ⟨classified, hclassified, rfl⟩⟩

/-- A tree without special files is walked to its end. -/
theorem exists_scanLevels (walked : Walked) (pending : List BaselineCandidate)
    {level : List Directory}
    (h : ∀ directory ∈ level, Plain (leavesBelow directory.1 directory.2)) :
    ∃ walked', scanLevels digest baseline walked pending level = .ok walked' := by
  induction walked, pending, level using scanLevels.induct digest baseline with
  | case1 walked pending =>
    rw [scanLevels]
    exact ⟨_, rfl⟩
  | case2 walked pending directory level error hscan =>
    obtain ⟨scanned, hscanned⟩ :=
      exists_mapM_eq_ok fun d hd => @exists_scanDirectory baseline d (h d hd)
    rw [hscanned] at hscan
    cases hscan
  | case3 walked pending directory level scanned hscan ih =>
    rw [scanLevels_cons hscan]
    refine ih fun below hbelow => ?_
    rw [(mapM_scanDirectory_spec hscan).1] at hbelow
    obtain ⟨above, habove, hbelow⟩ := List.mem_flatMap.mp hbelow
    exact (h above habove).subdirectory hbelow

end Seal

end Afactory
