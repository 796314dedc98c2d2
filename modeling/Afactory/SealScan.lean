import Mathlib
import Afactory.BinarySearch
import Afactory.Rebase

/-!
# The scan of a sealed tree

`scan_and_diff` of `review-sandbox/src/seal.rs`: one walk over the tree, level by level, that hashes
only what the baseline has too, and what changed since.

* `SealedNode`: a tree as `read_dir` lists it, special files included;
* `classifyDirectoryEntry`, `scanDirectory`: one directory against the baseline;
* `scanLevels`: the walk; the candidates of one level are hashed while the next is scanned;
* `scanAndDiff`: the manifest of the tree and the mutations.
-/

namespace Afactory

namespace Seal

/-! ## Trees -/

/-- A file, a link, or a FIFO, socket or device. -/
inductive SealedLeaf where
  | source (leaf : SourceLeaf)
  | special (kind : String)
  deriving DecidableEq, Repr

/-- A directory has its entries in the order they are listed in. -/
inductive SealedNode where
  | leaf (leaf : SealedLeaf)
  | directory (children : List (FileName × SealedNode))

/-- A directory of the tree and its entries. -/
abbrev Directory := TreePath × List (FileName × SealedNode)

mutual

/-- The files and links of a node at a path, and the special files. -/
def SealedNode.leaves (path : TreePath) : SealedNode → List (TreePath × SealedLeaf)
  | .leaf leaf => [(path, leaf)]
  | .directory children => leavesBelow path children

def leavesBelow (path : TreePath) : List (FileName × SealedNode) → List (TreePath × SealedLeaf)
  | [] => []
  | (name, node) :: rest => node.leaves (path ++ [name]) ++ leavesBelow path rest

end

mutual

/-- The directories below a node. -/
def SealedNode.directories : SealedNode → ℕ
  | .leaf _ => 0
  | .directory children => directoriesBelow children + 1

def directoriesBelow : List (FileName × SealedNode) → ℕ
  | [] => 0
  | (_, node) :: rest => node.directories + directoriesBelow rest

end

/-! ## One entry -/

inductive SealError where
  | manifest (error : ManifestError)
  | special (kind relative : String)
  deriving DecidableEq, Repr

def SealError.message : SealError → String
  | .manifest error => error.message
  | .special kind relative =>
    "the sealed tree holds a " ++ kind ++ " at " ++ relative ++
      "; af never reads a special file, so the tree is not sealed: remove " ++ relative ++
        " and run the Attempt again"

def kindOf : SourceLeaf → EntryKind
  | .file _ executable => if executable then .executable else .file
  | .symlink _ => .symlink

/-- The bytes of a file, the target of a link. -/
def bytesOf : SourceLeaf → List UInt8
  | .file bytes _ => bytes
  | .symlink target => target

structure BaselineCandidate where
  relative : String
  leaf : SourceLeaf
  previous : Entry
  deriving DecidableEq, Repr

inductive ClassifiedEntry where
  | directory (directory : Directory)
  | added (entry : Entry)
  | baseline (position : ℕ) (candidate : BaselineCandidate)

/-- The order of paths is that of their bytes. -/
def comparePaths (a b : String) : Ordering :=
  if pathBytes a < pathBytes b then .lt else if pathBytes a = pathBytes b then .eq else .gt

/-- The position of a path in the baseline. -/
def baselinePosition (baseline : Manifest) (relative : String) : Option ℕ :=
  binarySearch
    (fun index => (baseline.entries[index]?).elim .gt fun entry => comparePaths entry.path relative)
    baseline.entries.length

/-- A file or link: added, or a candidate for a baseline entry. -/
def classifyLeaf (baseline : Manifest) (relative : String) (leaf : SourceLeaf) : ClassifiedEntry :=
  let found := (baselinePosition baseline relative).bind fun position =>
    (baseline.entries[position]?).map fun previous => (position, previous)
  match found with
  | none =>
    .added { path := relative, kind := kindOf leaf, content := "", size := (bytesOf leaf).length }
  | some (position, previous) => .baseline position { relative, leaf, previous }

def classifyDirectoryEntry (baseline : Manifest) (path : TreePath) :
    SealedNode → Except SealError ClassifiedEntry
  | .directory children => .ok (.directory (path, children))
  | .leaf (.special kind) => .error (.special kind (encodeRawPath (joinPath path)))
  | .leaf (.source leaf) => .ok (classifyLeaf baseline (encodeRawPath (joinPath path)) leaf)

/-! ## One directory -/

structure DirectoryScan where
  directories : List Directory
  addedEntries : List Entry
  addedPaths : List String
  baselineCandidates : List (ℕ × BaselineCandidate)

def DirectoryScan.add (scan : DirectoryScan) : ClassifiedEntry → DirectoryScan
  | .directory directory => { scan with directories := scan.directories ++ [directory] }
  | .added entry =>
    { scan with
      addedPaths := scan.addedPaths ++ [entry.path]
      addedEntries := scan.addedEntries ++ [entry] }
  | .baseline position candidate =>
    { scan with baselineCandidates := scan.baselineCandidates ++ [(position, candidate)] }

def scanDirectory (baseline : Manifest) (directory : Directory) :
    Except SealError DirectoryScan := do
  let classified ← directory.2.mapM fun (name, node) =>
    classifyDirectoryEntry baseline (directory.1 ++ [name]) node
  return classified.foldl DirectoryScan.add
    { directories := [], addedEntries := [], addedPaths := [], baselineCandidates := [] }

/-! ## The walk -/

structure MutationSet where
  added : List String
  modified : List String
  deleted : List String
  deriving DecidableEq, Repr

/-- What the walk has so far, without the candidates that are pending. -/
structure Walked where
  entries : List Entry
  mutations : MutationSet
  matched : List Bool
  deriving DecidableEq, Repr

/-! ## What a scan collects -/

def ClassifiedEntry.directory? : ClassifiedEntry → Option Directory
  | .directory found => some found
  | _ => none

def ClassifiedEntry.added? : ClassifiedEntry → Option Entry
  | .added entry => some entry
  | _ => none

def ClassifiedEntry.candidate? : ClassifiedEntry → Option (ℕ × BaselineCandidate)
  | .baseline position candidate => some (position, candidate)
  | _ => none

theorem foldl_add (classified : List ClassifiedEntry) (scan : DirectoryScan) :
    classified.foldl DirectoryScan.add scan =
      { directories := scan.directories ++ classified.filterMap ClassifiedEntry.directory?
        addedEntries := scan.addedEntries ++ classified.filterMap ClassifiedEntry.added?
        addedPaths := scan.addedPaths ++
          (classified.filterMap ClassifiedEntry.added?).map Entry.path
        baselineCandidates := scan.baselineCandidates ++
          classified.filterMap ClassifiedEntry.candidate? } := by
  induction classified generalizing scan with
  | nil => simp
  | cons c classified ih =>
    rw [List.foldl_cons, ih]
    cases c <;> simp [List.filterMap_cons, DirectoryScan.add, ClassifiedEntry.directory?,
      ClassifiedEntry.added?, ClassifiedEntry.candidate?]

/-- The directories listed in a directory. -/
def subdirectories (directory : Directory) : List Directory :=
  directory.2.filterMap fun (name, node) =>
    match node with
    | .directory children => some (directory.1 ++ [name], children)
    | .leaf _ => none

/-- A scan is what its entries are classified as, kind by kind. -/
theorem exists_classified {baseline : Manifest} {path : TreePath}
    {children : List (FileName × SealedNode)} {scan : DirectoryScan}
    (h : scanDirectory baseline (path, children) = .ok scan) :
    ∃ classified, List.Forall₂ (fun (entry : FileName × SealedNode) c =>
        classifyDirectoryEntry baseline (path ++ [entry.1]) entry.2 = .ok c) children classified ∧
      scan =
        { directories := classified.filterMap ClassifiedEntry.directory?
          addedEntries := classified.filterMap ClassifiedEntry.added?
          addedPaths := (classified.filterMap ClassifiedEntry.added?).map Entry.path
          baselineCandidates := classified.filterMap ClassifiedEntry.candidate? } := by
  obtain ⟨classified, hclassified, h⟩ := bind_eq_ok.mp h
  obtain rfl := Except.ok.inj h
  exact ⟨classified, mapM_eq_ok_iff.mp hclassified, foldl_add classified _⟩

theorem directory?_classifyLeaf (baseline : Manifest) (relative : String) (leaf : SourceLeaf) :
    (classifyLeaf baseline relative leaf).directory? = none := by
  simp only [classifyLeaf]
  split <;> rfl

theorem directories_of_scan {baseline : Manifest} {directory : Directory} {scan : DirectoryScan}
    (h : scanDirectory baseline directory = .ok scan) :
    scan.directories = subdirectories directory := by
  obtain ⟨path, children⟩ := directory
  obtain ⟨classified, hall, rfl⟩ := exists_classified h
  clear h
  rw [subdirectories]
  induction hall with
  | nil => rfl
  | @cons entry c _ _ hentry _ ih =>
    obtain ⟨name, node⟩ := entry
    cases node with
    | directory children =>
      obtain rfl := Except.ok.inj hentry
      simpa [ClassifiedEntry.directory?] using ih
    | leaf leaf =>
      cases leaf with
      | special kind => cases hentry
      | source leaf =>
        obtain rfl := Except.ok.inj hentry
        simpa [directory?_classifyLeaf] using ih

/-- The directories of a level and all below them. -/
def levelWeight (level : List Directory) : ℕ :=
  (level.map fun directory => directoriesBelow directory.2 + 1).sum

theorem levelWeight_cons (directory : Directory) (level : List Directory) :
    levelWeight (directory :: level) = directoriesBelow directory.2 + 1 + levelWeight level := rfl

theorem levelWeight_append (level level' : List Directory) :
    levelWeight (level ++ level') = levelWeight level + levelWeight level' := by
  simp [levelWeight]

theorem levelWeight_subdirectories (directory : Directory) :
    levelWeight (subdirectories directory) = directoriesBelow directory.2 := by
  obtain ⟨path, children⟩ := directory
  rw [levelWeight, subdirectories]
  induction children with
  | nil => rfl
  | cons entry children ih =>
    obtain ⟨name, node⟩ := entry
    cases node with
    | leaf leaf => simpa [directoriesBelow, SealedNode.directories] using ih
    | directory below => simpa [directoriesBelow, SealedNode.directories] using ih

theorem levelWeight_next {baseline : Manifest} {level : List Directory}
    {scanned : List DirectoryScan} (h : level.mapM (scanDirectory baseline) = .ok scanned) :
    levelWeight (scanned.flatMap DirectoryScan.directories) + level.length = levelWeight level := by
  have hall := mapM_eq_ok_iff.mp h
  clear h
  induction hall with
  | nil => rfl
  | cons hscan _ ih =>
    rw [List.flatMap_cons, directories_of_scan hscan, levelWeight_append,
      levelWeight_subdirectories, levelWeight_cons, ← ih, List.length_cons]
    omega

section Walk

variable (digest : List UInt8 → String) (baseline : Manifest)

/-- One candidate of `hash_baseline_candidates`: its entry, and whether it was modified. -/
def hashCandidate (candidate : BaselineCandidate) : Entry × Bool :=
  let kind := kindOf candidate.leaf
  let content := digest (bytesOf candidate.leaf)
  ({ path := candidate.relative, kind, content, size := (bytesOf candidate.leaf).length },
    candidate.previous.content ≠ content || candidate.previous.kind ≠ kind)

/-- One step of `append_hashed_candidates`. -/
def Walked.appendHashed (walked : Walked) (hashed : Entry × Bool) : Walked :=
  { walked with
    entries := walked.entries ++ [hashed.1]
    mutations :=
      if hashed.2 then
        { walked.mutations with modified := walked.mutations.modified ++ [hashed.1.path] }
      else walked.mutations }

def Walked.appendCandidates (walked : Walked) (candidates : List BaselineCandidate) : Walked :=
  (candidates.map (hashCandidate digest)).foldl Walked.appendHashed walked

/-- What one directory adds, its candidates marked as matched. -/
def Walked.appendScan (walked : Walked) (scan : DirectoryScan) : Walked where
  entries := walked.entries ++ scan.addedEntries
  mutations := { walked.mutations with added := walked.mutations.added ++ scan.addedPaths }
  matched := scan.baselineCandidates.foldl (fun matched (position, _) => matched.set position true)
    walked.matched

/-- The walk from one level to the next: its directories are scanned, the candidates of the level
before are hashed. -/
def scanLevels (walked : Walked) (pending : List BaselineCandidate) :
    List Directory → Except SealError Walked
  | [] => .ok (walked.appendCandidates digest pending)
  | directory :: level =>
    match _h : (directory :: level).mapM (scanDirectory baseline) with
    | .error error => .error error
    | .ok scanned =>
      scanLevels (scanned.foldl Walked.appendScan (walked.appendCandidates digest pending))
        (scanned.flatMap fun scan => scan.baselineCandidates.map Prod.snd)
        (scanned.flatMap DirectoryScan.directories)
  termination_by level => levelWeight level
  decreasing_by
    have hweight := levelWeight_next _h
    rw [List.length_cons] at hweight
    omega

/-- `Vec::sort`, of paths. -/
def sortPaths (paths : List String) : List String :=
  paths.mergeSort fun a b => pathBytes a ≤ pathBytes b

/-- `scan_and_diff`, of the tree below a root. -/
def scanAndDiff (root : List (FileName × SealedNode)) :
    Except SealError (Manifest × MutationSet) := do
  baseline.validate.mapError .manifest
  let walked ← scanLevels digest baseline
    { entries := []
      mutations := { added := [], modified := [], deleted := [] }
      matched := baseline.entries.map fun _ => false } [] [([], root)]
  let deleted := ((baseline.entries.zip walked.matched).filter fun (_, matched) => !matched).map
    fun (entry, _) => entry.path
  let manifest ← (Manifest.new walked.entries).mapError .manifest
  return (manifest, {
    added := sortPaths walked.mutations.added
    modified := sortPaths walked.mutations.modified
    deleted := sortPaths (walked.mutations.deleted ++ deleted) })

end Walk

end Seal

end Afactory
