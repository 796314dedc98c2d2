import Mathlib
import Afactory.MaterializeLaws

/-!
# Rebasing a tree

`review-source-git/src/rebase.rs`: a tree that holds one manifest is taken to another by removing
and rewriting what differs, and read back into a manifest.

* `manifestChanges`, `applyTreeDiff`, `scanTree`: the difference, its application, the scan;
* `HoldsExactly`: the tree of a manifest, without an empty directory;
* `manifestChanges_eq`, `touched_manifestChanges`: what differs, and how many paths;
* `pruned_noEmptyDirectory`: deepest first, every directory that the removals emptied goes;
* `scanTree_eq`: a tree is read back as its manifest, under the content ids of the bytes;
* `rebase_eq_materialize`: the rebased tree is the one a fresh materialization writes;
* `scan_of_envelope`: an artifact that a manifest names is not read back under its artifact id.
-/

namespace Afactory

/-! ## Changes -/

/-- The entries of the first manifest that went, and those of the second that changed or came. -/
structure ManifestChanges where
  deleted : List Entry
  modified : List Entry
  added : List Entry
  deriving DecidableEq, Repr

/-- `touched`: the distinct paths written or removed. -/
def ManifestChanges.touched (changes : ManifestChanges) : ℕ :=
  changes.deleted.length + changes.modified.length + changes.added.length

/-- One entry of the second manifest, against what is left of the first. -/
def compareEntry (state : OrdMap String Entry × ManifestChanges) (entry : Entry) :
    OrdMap String Entry × ManifestChanges :=
  let (previous, changes) := state
  match previous.get entry.path with
  | none => (previous, { changes with added := changes.added ++ [entry] })
  | some before =>
    if before.kind ≠ entry.kind ∨ before.content ≠ entry.content ∨ before.size ≠ entry.size then
      (previous.erase entry.path, { changes with modified := changes.modified ++ [entry] })
    else (previous.erase entry.path, changes)

/-- `manifest_changes`; what is left is put back in the order of the first manifest. -/
def manifestChanges (old new : Manifest) : ManifestChanges :=
  let previous := OrdMap.ofList (old.entries.map fun entry => (entry.path, entry))
  let (previous, changes) := new.entries.foldl compareEntry (previous, ⟨[], [], []⟩)
  { changes with deleted := old.entries.filter fun entry => previous.contains entry.path }

/-! ## Removals -/

def belowSymlink (encoded : String) : MaterializeError :=
  .manifest ("entry `" ++ encoded ++ "` lies below a symlink in the tree being re-based")

/-- `open_parent_no_follow`: every parent component is a real directory. -/
def openParentNoFollow (path : TreePath) (encoded : String) (T : SourceTree) :
    Except MaterializeError Unit :=
  (List.range path.dropLast.length).forM fun depth =>
    match T.lookup (path.dropLast.take (depth + 1)) with
    | some .directory => .ok ()
    | some (.leaf _) => .error (belowSymlink encoded)
    | none => .error (.io "no such file or directory")

/-- `remove_entry`. -/
def removeEntry (path : TreePath) (encoded : String) (T : SourceTree) :
    Except MaterializeError SourceTree := do
  openParentNoFollow path encoded T
  match T.lookup path with
  | some .directory => throw (.manifest ("entry `" ++ encoded ++
      "` is a directory in the tree being re-based"))
  | some (.leaf _) =>
    match T.remove path with
    | some T' => return T'
    | none => throw (.io "directory not empty")
  | none => return T

/-- `prune_directory`: best effort. -/
def pruneDirectory (T : SourceTree) (path : TreePath) : SourceTree :=
  match openParentNoFollow path "" T, T.lookup path with
  | .ok (), some .directory => (T.remove path).getD T
  | _, _ => T

/-- The directories above a path, the root left out. -/
def parentsOf (path : TreePath) : List TreePath := (ancestors path).filter fun p => p ≠ []

/-- A removal, with the directories above it. -/
def removeStep (state : SourceTree × OrdMap TreePath Unit) (entry : Entry) :
    Except MaterializeError (SourceTree × OrdMap TreePath Unit) := do
  let path ← checkedRelativePath entry.path entry.kind
  let T ← removeEntry path entry.path state.1
  return (T, state.2.insertAll ((parentsOf path).map fun p => (p, ())))

/-- What is asked of either manifest before the tree is touched. -/
def checkManifest (M : Manifest) : Except MaterializeError Unit := do
  M.validate.mapError fun e => .manifest e.message
  let decoded ← M.entries.mapM fun entry => checkedRelativePath entry.path entry.kind
  refuseSymlinkAncestors M decoded

/-- The entries that changed or came, materialized as a manifest of their own. -/
def writeSubset (store : ObjectStore) (volume : Volume) (written : List Entry) (T : SourceTree) :
    Except MaterializeError SourceTree :=
  if written.isEmpty then .ok T
  else do
    let subset ← (Manifest.new written).mapError fun e => .manifest e.message
    materialize store volume subset T

/-- `apply_tree_diff`, on a tree below a real directory; the answer has the tree with it. -/
def applyTreeDiff (store : ObjectStore) (volume : Volume) (old new : Manifest) (T : SourceTree) :
    Except MaterializeError (SourceTree × ℕ) := do
  [old, new].forM checkManifest
  let changes := manifestChanges old new
  let (T, parents) ← (changes.deleted ++ changes.modified).foldlM removeStep (T, .empty)
  -- deepest first: a directory goes after everything below it did
  let T := parents.keys.reverse.foldl pruneDirectory T
  let T ← writeSubset store volume (changes.modified ++ changes.added) T
  return (T, changes.touched)

/-! ## The scan -/

def joinPath (path : TreePath) : List UInt8 := [slash].intercalate path

/-- The entry a leaf of the tree is read back as. -/
def scanLeaf (store : ObjectStore) (leaf : TreePath × SourceLeaf) : Entry :=
  let path := encodeRawPath (joinPath leaf.1)
  match leaf.2 with
  | .file bytes executable =>
    ⟨path, if executable then .executable else .file, store.blobContentId bytes, bytes.length⟩
  | .symlink target => ⟨path, .symlink, store.blobContentId target, target.length⟩

/-- `scan_tree`. -/
def scanTree (store : ObjectStore) (T : SourceTree) : Except ManifestError Manifest :=
  Manifest.new (T.leaves.map (scanLeaf store))

/-! ## What differs -/

/-- The entry at a path. -/
def Manifest.entryAt (M : Manifest) (path : String) : Option Entry :=
  M.entries.find? fun entry => entry.path = path

/-- The paths at which two manifests differ. -/
def differing (old new : Manifest) : Finset String :=
  ((old.entries ++ new.entries).map Entry.path).toFinset.filter fun path =>
    old.entryAt path ≠ new.entryAt path

theorem entryAt_eq_some {M : Manifest} (hvalid : M.validate = .ok ()) {path : String}
    {e : Entry} : M.entryAt path = some e ↔ e ∈ M.entries ∧ e.path = path := by
  unfold Manifest.entryAt
  constructor
  · intro h
    exact ⟨List.mem_of_find?_eq_some h, by simpa using List.find?_some h⟩
  · rintro ⟨he, rfl⟩
    cases hfind : M.entries.find? fun entry => entry.path = e.path with
    | none =>
      have hno := List.find?_eq_none.mp hfind e he
      simp at hno
    | some e' =>
      have hpath : e'.path = e.path := by simpa using List.find?_some hfind
      rw [eq_of_path hvalid (List.mem_of_find?_eq_some hfind) he hpath]

/-- The entries of the second list that changed, against the entries of the first by path. -/
theorem foldl_compareEntry {entries : List Entry} (previous : OrdMap String Entry)
    (changes : ManifestChanges) (hnodup : (entries.map Entry.path).Nodup)
    (hprevious : ∀ path e, previous.get path = some e → e.path = path) :
    ∃ rest, entries.foldl compareEntry (previous, changes) =
        (rest, { changes with
          modified := changes.modified ++
            entries.filter fun e => (previous.get e.path).any fun before => before ≠ e
          added := changes.added ++ entries.filter fun e => (previous.get e.path).isNone }) ∧
      ∀ path, rest.get path = if path ∈ entries.map Entry.path then none else previous.get path := by
  induction entries generalizing previous changes with
  | nil =>
    refine ⟨previous, ?_, fun path => ?_⟩
    · simp
    · simp
  | cons e entries ih =>
    rw [List.map_cons, List.nodup_cons] at hnodup
    have herase : ∀ e' ∈ entries, (previous.erase e.path).get e'.path = previous.get e'.path := by
      intro e' he'
      rw [OrdMap.get_erase, if_neg]
      intro heq
      exact hnodup.1 (heq ▸ List.mem_map_of_mem he')
    have hkept : ∀ path e', (previous.erase e.path).get path = some e' → e'.path = path := by
      intro path e' h
      rw [OrdMap.get_erase] at h
      split_ifs at h
      exact hprevious path e' h
    have hmodified : (entries.filter fun e' =>
          ((previous.erase e.path).get e'.path).any fun before => before ≠ e') =
        entries.filter fun e' => (previous.get e'.path).any fun before => before ≠ e' :=
      List.filter_congr fun e' he' => by rw [herase e' he']
    have hadded : (entries.filter fun e' => ((previous.erase e.path).get e'.path).isNone) =
        entries.filter fun e' => (previous.get e'.path).isNone :=
      List.filter_congr fun e' he' => by rw [herase e' he']
    have hget : ∀ path, (if path ∈ entries.map Entry.path then none
          else (previous.erase e.path).get path) =
        if path ∈ (e :: entries).map Entry.path then none else previous.get path := by
      intro path
      rw [OrdMap.get_erase, List.map_cons]
      by_cases hpath : path = e.path <;> simp [hpath]
    rw [List.foldl_cons]
    cases hbefore : previous.get e.path with
    | none =>
      have hstep : compareEntry (previous, changes) e =
          (previous, { changes with added := changes.added ++ [e] }) := by
        simp only [compareEntry, hbefore]
      obtain ⟨rest, hrest, hpaths⟩ := ih previous { changes with added := changes.added ++ [e] }
        hnodup.2 hprevious
      refine ⟨rest, ?_, fun path => ?_⟩
      · rw [hstep, hrest]
        simp [hbefore]
      · rw [hpaths, List.map_cons]
        by_cases hpath : path = e.path
        · rw [hpath, hbefore]
          simp
        · simp [hpath]
    | some before =>
      have hpath : before.path = e.path := hprevious _ _ hbefore
      by_cases hsame : before = e
      · have hstep : compareEntry (previous, changes) e = (previous.erase e.path, changes) := by
          simp only [compareEntry, hbefore, hsame]
          simp
        obtain ⟨rest, hrest, hpaths⟩ := ih (previous.erase e.path) changes hnodup.2 hkept
        refine ⟨rest, ?_, fun path => (hpaths path).trans (hget path)⟩
        rw [hstep, hrest, hmodified, hadded]
        simp [hbefore, hsame]
      · have hdiffer : before.kind ≠ e.kind ∨ before.content ≠ e.content ∨
            before.size ≠ e.size := by
          by_contra hall
          simp only [not_or, not_not] at hall
          apply hsame
          cases before
          cases e
          simp_all
        have hstep : compareEntry (previous, changes) e =
            (previous.erase e.path, { changes with modified := changes.modified ++ [e] }) := by
          simp only [compareEntry, hbefore]
          rw [if_pos hdiffer]
        obtain ⟨rest, hrest, hpaths⟩ := ih (previous.erase e.path)
          { changes with modified := changes.modified ++ [e] } hnodup.2 hkept
        refine ⟨rest, ?_, fun path => (hpaths path).trans (hget path)⟩
        rw [hstep, hrest, hmodified, hadded]
        simp [hbefore, hsame]

/-- What the difference of two manifests is. -/
theorem manifestChanges_eq {old new : Manifest} (hold : old.validate = .ok ())
    (hnew : new.validate = .ok ()) :
    manifestChanges old new =
      ⟨old.entries.filter fun e => (new.entryAt e.path).isNone,
        new.entries.filter fun e => (old.entryAt e.path).any fun before => before ≠ e,
        new.entries.filter fun e => (old.entryAt e.path).isNone⟩ := by
  have hget : ∀ path, (OrdMap.ofList (old.entries.map fun e => (e.path, e))).get path =
      old.entryAt path := by
    intro path
    have hkeys : (old.entries.map fun e => (e.path, e)).map Prod.fst =
        old.entries.map Entry.path := by
      rw [List.map_map]
      rfl
    cases hentry : old.entryAt path with
    | some e =>
      obtain ⟨he, rfl⟩ := (entryAt_eq_some hold).mp hentry
      obtain ⟨e', hmem, hget⟩ := OrdMap.get_insertAll_of_mem (m := .empty)
        (show e.path ∈ (old.entries.map fun e => (e.path, e)).map Prod.fst by
          rw [hkeys]
          exact List.mem_map_of_mem he)
      obtain ⟨e'', he'', heq⟩ := List.mem_map.mp hmem
      obtain ⟨hpath, rfl⟩ := Prod.mk.inj heq
      rw [← eq_of_path hold he'' he hpath]
      rw [← hpath] at hget
      exact hget
    | none =>
      refine OrdMap.get_insertAll_of_not_mem ?_
      rw [hkeys]
      intro hmem
      obtain ⟨e, he, hpath⟩ := List.mem_map.mp hmem
      rw [(entryAt_eq_some hold).mpr ⟨he, hpath⟩] at hentry
      cases hentry
  obtain ⟨rest, hrest, hpaths⟩ := foldl_compareEntry
    (OrdMap.ofList (old.entries.map fun e => (e.path, e))) ⟨[], [], []⟩
    (Manifest.validate_eq_ok.mp hnew).2.nodup_paths
    (fun path e h => ((entryAt_eq_some hold).mp ((hget path).symm.trans h)).2)
  have hdeleted : ∀ e ∈ old.entries, rest.contains e.path = (new.entryAt e.path).isNone := by
    intro e he
    rw [OrdMap.contains, hpaths, hget, (entryAt_eq_some hold).mpr ⟨he, rfl⟩]
    cases hentry : new.entryAt e.path with
    | some e' =>
      obtain ⟨he', hpath⟩ := (entryAt_eq_some hnew).mp hentry
      rw [if_pos (hpath ▸ List.mem_map_of_mem he')]
      rfl
    | none =>
      rw [if_neg]
      · rfl
      · intro hmem
        obtain ⟨e', he', hpath⟩ := List.mem_map.mp hmem
        rw [(entryAt_eq_some hnew).mpr ⟨he', hpath⟩] at hentry
        cases hentry
  simp only [manifestChanges, hrest, hget, List.nil_append, List.filter_congr hdeleted]


/-- The entries that went, changed or came have distinct paths. -/
theorem nodup_manifestChanges {old new : Manifest} (hold : old.validate = .ok ())
    (hnew : new.validate = .ok ()) :
    (((manifestChanges old new).deleted ++
      ((manifestChanges old new).modified ++ (manifestChanges old new).added)).map
        Entry.path).Nodup := by
  have hnodup : ∀ {M : Manifest} (p : Entry → Bool), M.validate = .ok () →
      ((M.entries.filter p).map Entry.path).Nodup := fun p hM =>
    (List.filter_sublist.map Entry.path).nodup (Manifest.validate_eq_ok.mp hM).2.nodup_paths
  simp only [manifestChanges_eq hold hnew, List.map_append]
  rw [List.nodup_append, List.nodup_append]
  refine ⟨hnodup _ hold, ⟨hnodup _ hnew, hnodup _ hnew, ?_⟩, ?_⟩
  · -- modified and added: one has an entry before it
    intro path hmodified path' hadded heq
    obtain ⟨e, he, rfl⟩ := List.mem_map.mp hmodified
    obtain ⟨e', he', rfl⟩ := List.mem_map.mp hadded
    have hsome := (List.mem_filter.mp he).2
    have hnone := (List.mem_filter.mp he').2
    rw [← heq, Option.isNone_iff_eq_none] at hnone
    rw [hnone] at hsome
    cases hsome
  · -- deleted paths have no entry in the second manifest
    intro path hdeleted path' hwritten heq
    obtain ⟨e, he, rfl⟩ := List.mem_map.mp hdeleted
    have hnone := (List.mem_filter.mp he).2
    rw [Option.isNone_iff_eq_none] at hnone
    have hmem : path' ∈ new.entries.map Entry.path := by
      rcases List.mem_append.mp hwritten with h | h
      all_goals
        obtain ⟨e', he', rfl⟩ := List.mem_map.mp h
        exact List.mem_map_of_mem (List.mem_filter.mp he').1
    obtain ⟨e', he', rfl⟩ := List.mem_map.mp hmem
    rw [heq, (entryAt_eq_some hnew).mpr ⟨he', rfl⟩] at hnone
    cases hnone

/-- **What is counted.** The paths touched are those at which the manifests differ. -/
theorem touched_manifestChanges {old new : Manifest} (hold : old.validate = .ok ())
    (hnew : new.validate = .ok ()) :
    (manifestChanges old new).touched = (differing old new).card := by
  have hlength : (manifestChanges old new).touched = (((manifestChanges old new).deleted ++
      ((manifestChanges old new).modified ++ (manifestChanges old new).added)).map
        Entry.path).length := by
    simp only [ManifestChanges.touched, List.length_map, List.length_append]
    omega
  rw [hlength, ← List.toFinset_card_of_nodup (nodup_manifestChanges hold hnew)]
  congr 1
  ext path
  simp only [differing, manifestChanges_eq hold hnew, List.mem_toFinset, Finset.mem_filter,
    List.map_append, List.mem_append, List.mem_map, List.mem_filter]
  constructor
  · rintro (⟨e, ⟨he, hno⟩, rfl⟩ | ⟨e, ⟨he, hbefore⟩, rfl⟩ | ⟨e, ⟨he, hno⟩, rfl⟩)
    · rw [Option.isNone_iff_eq_none] at hno
      refine ⟨.inl ⟨e, he, rfl⟩, ?_⟩
      rw [hno, (entryAt_eq_some hold).mpr ⟨he, rfl⟩]
      exact nofun
    · refine ⟨.inr ⟨e, he, rfl⟩, fun heq => ?_⟩
      rw [heq, (entryAt_eq_some hnew).mpr ⟨he, rfl⟩] at hbefore
      simp at hbefore
    · rw [Option.isNone_iff_eq_none] at hno
      refine ⟨.inr ⟨e, he, rfl⟩, ?_⟩
      rw [hno, (entryAt_eq_some hnew).mpr ⟨he, rfl⟩]
      exact nofun
  · rintro ⟨hpath, hdiffer⟩
    cases hentry : new.entryAt path with
    | none =>
      rcases hpath with ⟨e, he, rfl⟩ | ⟨e, he, rfl⟩
      · exact .inl ⟨e, ⟨he, by rw [hentry]; rfl⟩, rfl⟩
      · rw [(entryAt_eq_some hnew).mpr ⟨he, rfl⟩] at hentry
        cases hentry
    | some e =>
      obtain ⟨he, rfl⟩ := (entryAt_eq_some hnew).mp hentry
      rw [hentry] at hdiffer
      cases hbefore : old.entryAt e.path with
      | none => exact .inr (.inr ⟨e, ⟨he, by rw [hbefore]; rfl⟩, rfl⟩)
      | some before =>
        refine .inr (.inl ⟨e, ⟨he, ?_⟩, rfl⟩)
        rw [hbefore] at hdiffer ⊢
        simpa using hdiffer

/-! ## What a tree holds -/

section Holding

variable {store : ObjectStore} {volume : Volume} {M old new : Manifest} {T T' : SourceTree}

/-- An entry of the manifest stands at a path as a leaf. -/
def Stands (store : ObjectStore) (M : Manifest) (path : TreePath) (leaf : SourceLeaf) : Prop :=
  ∃ e ∈ M.entries, pathOf e = path ∧ entryLeaf store e = leaf

/-- The tree has the entries of the manifest and what they need. -/
structure HoldsExactly (store : ObjectStore) (M : Manifest) (T : SourceTree) : Prop where
  leaf : ∀ path l, T.lookup path = some (.leaf l) ↔ Stands store M path l
  noEmpty : T.NoEmptyDirectory

/-- The leaves after a manifest was written. -/
theorem Written.leaf_iff (h : Written store M T T') (hfits : Fits M T) {path : TreePath}
    {l : SourceLeaf} :
    T'.lookup path = some (.leaf l) ↔ Stands store M path l ∨ T.lookup path = some (.leaf l) := by
  by_cases hbelow : ∃ e ∈ M.entries, path <+: pathOf e
  · obtain ⟨e, he, hstart⟩ := hbelow
    have hbefore : T.lookup path ≠ some (.leaf l) := (hfits e he).2 path l hstart
    have hstanding : (∃ e ∈ M.entries, pathOf e = path ∧ entryLeaf store e = l) →
        T'.lookup path = some (.leaf l) := by
      rintro ⟨e', he', rfl, rfl⟩
      exact h.leaf e' he'
    refine ⟨fun hleaf => ?_, fun hor => hstanding (hor.resolve_right hbefore)⟩
    have heq : path = pathOf e := by
      by_contra hne
      rw [FileTree.lookup_of_proper (h.leaf e he) hstart hne] at hleaf
      cases hleaf
    rw [heq, h.leaf e he] at hleaf
    cases hleaf
    exact .inl ⟨e, he, heq.symm, rfl⟩
  · rw [h.other path fun e he hstart => hbelow ⟨e, he, hstart⟩]
    refine ⟨.inr, fun hor => hor.resolve_left ?_⟩
    rintro ⟨e, he, rfl, -⟩
    exact hbelow ⟨e, he, List.prefix_refl _⟩

/-- Writing leaves no directory empty. -/
theorem Written.noEmptyDirectory (h : Written store M T T') (hT : T.NoEmptyDirectory) :
    T'.NoEmptyDirectory := by
  intro path hroot hdirectory
  by_cases hbelow : ∃ e ∈ M.entries, path <+: pathOf e
  · obtain ⟨e, he, hstart⟩ := hbelow
    obtain ⟨rest, hrest⟩ := hstart
    rcases rest with _ | ⟨name, rest⟩
    · rw [List.append_nil] at hrest
      rw [hrest, h.leaf e he] at hdirectory
      cases hdirectory
    · have hchild : path ++ [name] <+: pathOf e := ⟨rest, by rw [← hrest]; simp⟩
      refine ⟨name, ?_⟩
      by_cases heq : path ++ [name] = pathOf e
      · exact ⟨_, heq ▸ h.leaf e he⟩
      · exact ⟨_, FileTree.lookup_of_proper (h.leaf e he) hchild heq⟩
  · have hsame : ∀ p, path <+: p → T'.lookup p = T.lookup p := fun p hp =>
      h.other p fun e he hstart => hbelow ⟨e, he, hp.trans hstart⟩
    rw [hsame path (List.prefix_refl _)] at hdirectory
    obtain ⟨name, node, hnode⟩ := hT path hroot hdirectory
    exact ⟨name, node, (hsame _ (List.prefix_append _ _)).trans hnode⟩

theorem noEmptyDirectory_empty : (FileTree.empty : SourceTree).NoEmptyDirectory := by
  intro path hroot hdirectory
  rw [FileTree.lookup_empty hroot] at hdirectory
  cases hdirectory

/-- **A fresh tree.** What is written into an empty root is held exactly. -/
theorem holdsExactly_of_materialize (h : materialize store volume M FileTree.empty = .ok T) :
    Materializable store volume M ∧ HoldsExactly store M T := by
  have hM := materializable_of_materialize named_empty h
  obtain ⟨T', hT', hwritten⟩ := exists_materialize hM (fits_empty M)
  rw [h] at hT'
  cases hT'
  refine ⟨hM, fun path l => ?_, hwritten.noEmptyDirectory noEmptyDirectory_empty⟩
  rw [hwritten.leaf_iff (fits_empty M), or_iff_left]
  intro hleaf
  by_cases hroot : path = []
  · rw [hroot] at hleaf
    cases hleaf
  · rw [FileTree.lookup_empty hroot] at hleaf
    cases hleaf

theorem HoldsExactly.unique (h : HoldsExactly store M T) (h' : HoldsExactly store M T') : T = T' :=
  FileTree.eq_of_leaves h.noEmpty h'.noEmpty fun path l => (h.leaf path l).trans (h'.leaf path l).symm

/-! ## Removing -/

theorem openParentNoFollow_eq_ok {path : TreePath} {node : TreeNode SourceLeaf}
    (h : T.lookup path = some node) (encoded : String) :
    openParentNoFollow path encoded T = .ok () := by
  refine forM_eq_ok.mpr fun depth hdepth => ?_
  rw [List.mem_range] at hdepth
  have hstart : path.dropLast.take (depth + 1) <+: path.dropLast := List.take_prefix _ _
  have hparent := FileTree.lookup_dropLast h
  have hthere : T.lookup (path.dropLast.take (depth + 1)) = some .directory := by
    by_cases heq : path.dropLast.take (depth + 1) = path.dropLast
    · rw [heq, hparent]
    · exact FileTree.lookup_of_proper hparent hstart heq
  rw [hthere]

/-- A leaf is removed. -/
theorem exists_removeEntry {path : TreePath} {l : SourceLeaf} (h : T.lookup path = some (.leaf l))
    (encoded : String) : ∃ T', removeEntry path encoded T = .ok T' ∧ T'.lookup path = none ∧
      ∀ p, p ≠ path → T'.lookup p = T.lookup p := by
  have hroot : path ≠ [] := by
    rintro rfl
    cases h
  have hbelow : ∀ name, T.lookup (path ++ [name]) = none := by
    intro name
    by_contra hsome
    obtain ⟨node, hnode⟩ := Option.ne_none_iff_exists'.mp hsome
    have hparent := FileTree.lookup_dropLast hnode
    rw [List.dropLast_concat, h] at hparent
    cases hparent
  obtain ⟨T', hT'⟩ := FileTree.exists_remove hroot hbelow
  refine ⟨T', ?_, FileTree.remove_eq_some hT'⟩
  simp only [removeEntry, openParentNoFollow_eq_ok h, h, hT', ok_bind]
  rfl

theorem mem_parentsOf {p path : TreePath} :
    p ∈ parentsOf path ↔ p <+: path ∧ p ≠ path ∧ p ≠ [] := by
  rw [parentsOf, List.mem_filter, mem_ancestors]
  simp [and_assoc]

/-- **The removals.** Leaves at distinct paths all go, and the directories above them are known. -/
theorem exists_removals {entries : List Entry} (parents : OrdMap TreePath Unit)
    (hpaths : ∀ e ∈ entries, checkedRelativePath e.path e.kind = .ok (pathOf e))
    (hleaf : ∀ e ∈ entries, ∃ l, T.lookup (pathOf e) = some (.leaf l))
    (hnodup : (entries.map pathOf).Nodup) :
    ∃ T' parents', entries.foldlM removeStep (T, parents) = .ok (T', parents') ∧
      (∀ e ∈ entries, T'.lookup (pathOf e) = none) ∧
      (∀ p, p ∉ entries.map pathOf → T'.lookup p = T.lookup p) ∧
      ∀ p, p ∈ parents'.keys ↔ p ∈ parents.keys ∨ ∃ e ∈ entries, p ∈ parentsOf (pathOf e) := by
  induction entries generalizing T parents with
  | nil => exact ⟨T, parents, rfl, nofun, fun _ _ => rfl, by simp⟩
  | cons e entries ih =>
    rw [List.map_cons, List.nodup_cons] at hnodup
    rw [List.forall_mem_cons] at hpaths hleaf
    obtain ⟨l, hl⟩ := hleaf.1
    obtain ⟨T₁, hT₁, hgone, hother⟩ := exists_removeEntry hl e.path
    have hstep : removeStep (T, parents) e =
        .ok (T₁, parents.insertAll ((parentsOf (pathOf e)).map fun p => (p, ()))) := by
      simp only [removeStep, hpaths.1, hT₁, ok_bind]
      rfl
    obtain ⟨T', parents', hT', hnone, hsame, hkeys⟩ := ih (T := T₁)
      (parents.insertAll ((parentsOf (pathOf e)).map fun p => (p, ()))) hpaths.2
      (fun e' he' => by
        rw [hother]
        · exact hleaf.2 e' he'
        · exact fun heq => hnodup.1 (heq ▸ List.mem_map_of_mem he')) hnodup.2
    refine ⟨T', parents', ?_, ?_, fun p hp => ?_, fun p => ?_⟩
    · rw [List.foldlM_cons, hstep]
      exact hT'
    · rw [List.forall_mem_cons]
      exact ⟨(hsame _ hnodup.1).trans hgone, hnone⟩
    · rw [List.map_cons, List.mem_cons, not_or] at hp
      rw [hsame p hp.2, hother p hp.1]
    · rw [hkeys, OrdMap.mem_keys_iff, OrdMap.mem_keys_iff]
      simp only [OrdMap.get_insertAll_const, List.mem_cons, exists_eq_or_imp]
      by_cases hp : p ∈ parentsOf (pathOf e) <;> simp [hp]

/-- A directory that is pruned. -/
theorem pruneDirectory_eq (T : SourceTree) (path : TreePath) :
    pruneDirectory T path = T.prune path := by
  unfold pruneDirectory FileTree.prune
  cases hlookup : T.lookup path with
  | none =>
    rw [if_neg]
    · split <;> simp_all
    · rw [FileTree.isDirectory_iff, hlookup]
      exact nofun
  | some node =>
    rw [openParentNoFollow_eq_ok hlookup]
    cases node with
    | directory => rw [if_pos (FileTree.isDirectory_iff.mpr hlookup)]
    | leaf l =>
      rw [if_neg]
      rw [FileTree.isDirectory_iff, hlookup]
      exact nofun

/-- **Pruned.** Where leaves went from a tree without an empty directory, none is left once the
directories above them are pruned, deepest first. -/
theorem pruned_noEmptyDirectory {removed : List TreePath} {parents : OrdMap TreePath Unit}
    (hT : T.NoEmptyDirectory) (hsame : ∀ p, p ∉ removed → T'.lookup p = T.lookup p)
    (hgone : ∀ p ∈ removed, T'.lookup p = none)
    (hkeys : ∀ p, p ∈ parents.keys ↔ ∃ path ∈ removed, p ∈ parentsOf path) :
    (parents.keys.reverse.foldl pruneDirectory T').NoEmptyDirectory := by
  have hprune : pruneDirectory = FileTree.prune (N := FileName) (L := SourceLeaf) := by
    funext T path
    exact pruneDirectory_eq T path
  have hdescending : parents.keys.reverse.Pairwise fun p q => q < p := by
    rw [List.pairwise_reverse]
    exact List.pairwise_map.mpr parents.sorted
  rw [hprune]
  refine FileTree.noEmptyDirectory_foldl_prune
    (FileTree.deepestFirst_of_descending hdescending ?_ ?_) ?_
  · rw [List.mem_reverse, hkeys]
    rintro ⟨path, -, hmem⟩
    exact (mem_parentsOf.mp hmem).2.2 rfl
  · intro p hp hne
    rw [List.mem_reverse, hkeys] at hp ⊢
    obtain ⟨path, hpath, hmem⟩ := hp
    obtain ⟨hstart, hproper, hroot⟩ := mem_parentsOf.mp hmem
    refine ⟨path, hpath, mem_parentsOf.mpr ⟨(List.dropLast_prefix p).trans hstart, ?_, hne⟩⟩
    intro heq
    have hle := hstart.length_le
    have hpos := List.length_pos_of_ne_nil hroot
    rw [← heq, List.length_dropLast] at hle
    omega
  · intro path hroot hdirectory hempty
    rw [List.mem_reverse, hkeys]
    have hmem : path ∉ removed := by
      intro hmem
      rw [hgone path hmem] at hdirectory
      cases hdirectory
    rw [hsame path hmem] at hdirectory
    obtain ⟨name, node, hnode⟩ := hT path hroot hdirectory
    have hchild : path ++ [name] ∈ removed := by
      by_contra hno
      rw [← hsame _ hno, hempty name] at hnode
      cases hnode
    exact ⟨_, hchild, mem_parentsOf.mpr ⟨List.prefix_append _ _, by simp, hroot⟩⟩

/-! ## The subset that is written -/

/-- Some entries of a manifest that can be written can be written. -/
theorem Materializable.exists_subset {entries : List Entry} (hM : Materializable store volume M)
    (hsub : entries ⊆ M.entries) (hnodup : entries.Nodup) :
    ∃ M', Manifest.new entries = .ok M' ∧ Materializable store volume M' ∧
      M'.entries.Perm entries := by
  obtain ⟨hcanonical, -⟩ := Manifest.validate_eq_ok.mp hM.valid
  have hpaths : (entries.map Entry.path).Nodup :=
    hnodup.map_on fun a ha b hb heq => eq_of_path hM.valid (hsub ha) (hsub hb) heq
  obtain ⟨M', hnew, hvalid, hperm⟩ :=
    Manifest.exists_new (fun e he => hcanonical e (hsub he)) hpaths
  have hsub' : ∀ e ∈ M'.entries, e ∈ M.entries := fun e he => hsub (hperm.mem_iff.mp he)
  have haccepted := fun e he => hM.paths e (hsub' e he)
  refine ⟨M', hnew, ⟨hvalid, haccepted, ?_, fun e he => hM.loads e (hsub' e he),
    fun e he => hM.names e (hsub' e he),
    fun a ha b hb => hM.apart a (hsub' a ha) b (hsub' b hb)⟩, hperm⟩
  rw [refuseSymlinkAncestors_eq_ok hvalid (mapM_paths haccepted)]
  intro link entry hbelow
  refine (refuseSymlinkAncestors_eq_ok hM.valid (mapM_paths hM.paths)).mp hM.links link entry ?_
  exact ⟨hsub' link hbelow.1, hsub' entry hbelow.2.1, hbelow.2.2⟩

theorem Materializable.checkManifest (hM : Materializable store volume M) :
    checkManifest M = .ok () := by
  simp only [Afactory.checkManifest, hM.valid, mapM_paths hM.paths, ok_bind, Except.mapError]
  exact hM.links

/-- The last step: the subset is written where it fits. -/
theorem exists_writeSubset {entries : List Entry} (hM : Materializable store volume M)
    (hsub : entries ⊆ M.entries) (hnodup : entries.Nodup) (hT : T.NoEmptyDirectory)
    (hfits : Fits ⟨entries⟩ T) :
    ∃ T', writeSubset store volume entries T = .ok T' ∧ T'.NoEmptyDirectory ∧
      ∀ path l, T'.lookup path = some (.leaf l) ↔
        Stands store ⟨entries⟩ path l ∨ T.lookup path = some (.leaf l) := by
  unfold writeSubset
  split_ifs with hempty
  · refine ⟨T, rfl, hT, fun path l => ?_⟩
    rw [List.isEmpty_iff] at hempty
    simp [Stands, hempty]
  · obtain ⟨M', hnew, hM', hperm⟩ := hM.exists_subset hsub hnodup
    have hfits' : Fits M' T := fun e he => hfits e (hperm.mem_iff.mp he)
    obtain ⟨T', hT', hwritten⟩ := exists_materialize hM' hfits'
    refine ⟨T', ?_, hwritten.noEmptyDirectory hT, fun path l => ?_⟩
    · rw [hnew]
      exact hT'
    · rw [hwritten.leaf_iff hfits']
      simp [Stands, hperm.mem_iff]

/-- The removed paths of a change: those of the first manifest that the second does not keep. -/
theorem not_removed_iff (hold : old.validate = .ok ()) (hnew : new.validate = .ok ()) {e : Entry}
    (he : e ∈ old.entries) :
    pathOf e ∉ ((manifestChanges old new).deleted ++ (manifestChanges old new).modified).map pathOf ↔
      e ∈ new.entries := by
  obtain ⟨hcanonical, -⟩ := Manifest.validate_eq_ok.mp hold
  obtain ⟨hcanonical', -⟩ := Manifest.validate_eq_ok.mp hnew
  rw [manifestChanges_eq hold hnew]
  constructor
  · intro hkept
    by_contra hno
    refine hkept ?_
    cases hentry : new.entryAt e.path with
    | none =>
      refine List.mem_map_of_mem (List.mem_append_left _ (List.mem_filter.mpr ⟨he, ?_⟩))
      rw [hentry]
      rfl
    | some e' =>
      obtain ⟨he', hpath⟩ := (entryAt_eq_some hnew).mp hentry
      have hsame : pathOf e' = pathOf e := by rw [pathOf, pathOf, hpath]
      rw [← hsame]
      refine List.mem_map_of_mem (List.mem_append_right _ (List.mem_filter.mpr ⟨he', ?_⟩))
      rw [(entryAt_eq_some hold).mpr ⟨he, hpath.symm⟩]
      have hne : e ≠ e' := by
        rintro rfl
        exact hno he'
      simpa using hne
  · intro hmem hremoved
    obtain ⟨r, hr, hsame⟩ := List.mem_map.mp hremoved
    rcases List.mem_append.mp hr with hr | hr
    · obtain ⟨hrold, hnone⟩ := List.mem_filter.mp hr
      have hpath := path_eq_of_pathOf (hcanonical r hrold) (hcanonical e he) hsame
      rw [hpath, (entryAt_eq_some hnew).mpr ⟨hmem, rfl⟩] at hnone
      cases hnone
    · obtain ⟨hrnew, hbefore⟩ := List.mem_filter.mp hr
      have hpath := path_eq_of_pathOf (hcanonical' r hrnew) (hcanonical e he) hsame
      rw [eq_of_path hnew hrnew hmem hpath, (entryAt_eq_some hold).mpr ⟨he, rfl⟩] at hbefore
      simp at hbefore

/-- The written entries of a change: those of the second manifest that the first does not have. -/
theorem mem_written_iff (hold : old.validate = .ok ()) (hnew : new.validate = .ok ()) {e : Entry} :
    e ∈ (manifestChanges old new).modified ++ (manifestChanges old new).added ↔
      e ∈ new.entries ∧ e ∉ old.entries := by
  rw [manifestChanges_eq hold hnew, List.mem_append, List.mem_filter, List.mem_filter,
    ← and_or_left]
  refine and_congr_right fun _ => ?_
  cases hentry : old.entryAt e.path with
  | none =>
    simp only [Option.any_none, Bool.false_eq_true, Option.isNone_none, or_true, true_iff]
    intro he
    rw [(entryAt_eq_some hold).mpr ⟨he, rfl⟩] at hentry
    cases hentry
  | some before =>
    obtain ⟨hbefore, hpath⟩ := (entryAt_eq_some hold).mp hentry
    simp only [Option.any_some, ne_eq, decide_not, Bool.not_eq_true', decide_eq_false_iff_not,
      Option.isNone_some, Bool.false_eq_true, or_false]
    refine not_congr ⟨fun heq => heq ▸ hbefore, fun he => ?_⟩
    exact eq_of_path hold hbefore he hpath

/-- **The rebase.** A tree that holds the first manifest is taken to one that holds the second. -/
theorem exists_applyTreeDiff (hold : Materializable store volume old)
    (hnew : Materializable store volume new) (hT : HoldsExactly store old T) :
    ∃ T', applyTreeDiff store volume old new T = .ok (T', (differing old new).card) ∧
      HoldsExactly store new T' := by
  let changes := manifestChanges old new
  let removed := changes.deleted ++ changes.modified
  let written := changes.modified ++ changes.added
  have hvalid : old.validate = .ok () := hold.valid
  have hvalid' : new.validate = .ok () := hnew.valid
  have hchanges := manifestChanges_eq hvalid hvalid'
  -- what is removed are leaves of the tree, at distinct paths
  have hremoved : ∀ e ∈ removed, checkedRelativePath e.path e.kind = .ok (pathOf e) ∧
      isCanonicalPathEncoding e.path (decodePath e.path) = true ∧
      ∃ l, T.lookup (pathOf e) = some (.leaf l) := by
    intro e he
    simp only [removed, changes, hchanges] at he
    rcases List.mem_append.mp he with he | he
    · obtain ⟨he, -⟩ := List.mem_filter.mp he
      exact ⟨hold.paths e he, (Manifest.validate_eq_ok.mp hvalid).1 e he, _,
        (hT.leaf _ _).mpr ⟨e, he, rfl, rfl⟩⟩
    · obtain ⟨he, hbefore⟩ := List.mem_filter.mp he
      cases hentry : old.entryAt e.path with
      | none =>
        rw [hentry] at hbefore
        cases hbefore
      | some before =>
        obtain ⟨hmem, hpath⟩ := (entryAt_eq_some hvalid).mp hentry
        refine ⟨hnew.paths e he, (Manifest.validate_eq_ok.mp hvalid').1 e he, _,
          (hT.leaf _ _).mpr ⟨before, hmem, ?_, rfl⟩⟩
        rw [pathOf, pathOf, hpath]
  have hnodup : (removed.map pathOf).Nodup := by
    have hpaths : (removed.map Entry.path).Nodup := by
      refine (List.Sublist.map Entry.path ?_).nodup (nodup_manifestChanges hvalid hvalid')
      exact List.Sublist.append_left (List.sublist_append_left _ _) _
    refine (List.Nodup.of_map _ hpaths).map_on fun a ha b hb heq => ?_
    exact List.inj_on_of_nodup_map hpaths ha hb
      (path_eq_of_pathOf (hremoved a ha).2.1 (hremoved b hb).2.1 heq)
  obtain ⟨T₁, parents, hT₁, hgone, hsame, hkeys⟩ := exists_removals .empty
    (fun e he => (hremoved e he).1) (fun e he => (hremoved e he).2.2) hnodup
  -- the pruned tree holds what both manifests have
  let T₂ := parents.keys.reverse.foldl pruneDirectory T₁
  have hclean : T₂.NoEmptyDirectory := by
    refine pruned_noEmptyDirectory hT.noEmpty hsame ?_ fun p => ?_
    · intro p hp
      obtain ⟨e, he, rfl⟩ := List.mem_map.mp hp
      exact hgone e he
    · rw [hkeys]
      simp [OrdMap.keys, OrdMap.empty]
  have hkept : ∀ path l, T₂.lookup path = some (.leaf l) ↔
      ∃ e ∈ old.entries, e ∈ new.entries ∧ pathOf e = path ∧ entryLeaf store e = l := by
    intro path l
    have hprune : T₂.lookup path = some (.leaf l) ↔ T₁.lookup path = some (.leaf l) := by
      have hfold : pruneDirectory = FileTree.prune (N := FileName) (L := SourceLeaf) := by
        funext T path
        exact pruneDirectory_eq T path
      simp only [T₂, hfold]
      exact FileTree.lookup_leaf_foldl_prune
    rw [hprune]
    constructor
    · intro hleaf
      have hno : path ∉ removed.map pathOf := by
        intro hmem
        obtain ⟨e, he, rfl⟩ := List.mem_map.mp hmem
        rw [hgone e he] at hleaf
        cases hleaf
      rw [hsame path hno, hT.leaf] at hleaf
      obtain ⟨e, he, rfl, rfl⟩ := hleaf
      exact ⟨e, he, (not_removed_iff hvalid hvalid' he).mp hno, rfl, rfl⟩
    · rintro ⟨e, he, he', rfl, rfl⟩
      rw [hsame _ ((not_removed_iff hvalid hvalid' he).mpr he'), hT.leaf]
      exact ⟨e, he, rfl, rfl⟩
  have hwritten : ∀ e, e ∈ written ↔ e ∈ new.entries ∧ e ∉ old.entries :=
    fun e => mem_written_iff hvalid hvalid'
  -- no kept entry is where, above or below where one is written
  have hapart : ∀ e ∈ written, ∀ path l, T₂.lookup path = some (.leaf l) →
      ¬ path <+: pathOf e ∧ ¬ pathOf e <+: path := by
    intro e he path l hleaf
    obtain ⟨henew, heold⟩ := (hwritten e).mp he
    obtain ⟨k, hk, hknew, rfl, -⟩ := (hkept path l).mp hleaf
    constructor
    · intro hstart
      exact heold (hnew.apart k hknew e henew hstart ▸ hk)
    · intro hstart
      exact heold (hnew.apart e henew k hknew hstart ▸ hk)
  have hfits : Fits ⟨written⟩ T₂ := by
    intro e he
    refine ⟨?_, fun p l hstart hleaf => (hapart e he p l hleaf).1 hstart⟩
    cases hlookup : T₂.lookup (pathOf e) with
    | none => rfl
    | some node =>
      cases node with
      | leaf l => exact absurd (List.prefix_refl _) (hapart e he _ l hlookup).1
      | directory =>
        obtain ⟨rest, l, -, hleaf⟩ := FileTree.exists_leaf_below hclean (pathOf_ne_nil e) hlookup
        exact absurd (List.prefix_append _ _) (hapart e he _ l hleaf).2
  have hsub : written ⊆ new.entries := fun e he => ((hwritten e).mp he).1
  have hdistinct : written.Nodup := by
    refine List.Nodup.of_map Entry.path ?_
    have hall := nodup_manifestChanges hvalid hvalid'
    rw [List.map_append] at hall
    exact (List.nodup_append.mp hall).2.1
  obtain ⟨T', hT', hclean', hleaf⟩ := exists_writeSubset hnew hsub hdistinct hclean hfits
  refine ⟨T', ?_, fun path l => ?_, hclean'⟩
  · have hboth : [old, new].forM checkManifest = .ok () := by
      refine forM_eq_ok.mpr fun M hM => ?_
      simp only [List.mem_cons, List.not_mem_nil, or_false] at hM
      rcases hM with rfl | rfl
      · exact hold.checkManifest
      · exact hnew.checkManifest
    rw [applyTreeDiff, ← touched_manifestChanges hvalid hvalid']
    refine bind_eq_ok.mpr ⟨(), hboth, ?_⟩
    refine bind_eq_ok.mpr ⟨(T₁, parents), hT₁, ?_⟩
    exact bind_eq_ok.mpr ⟨T', hT', rfl⟩
  · rw [hleaf, hkept]
    constructor
    · rintro (⟨e, he, hpath⟩ | ⟨e, -, he, hpath⟩)
      · exact ⟨e, hsub he, hpath⟩
      · exact ⟨e, he, hpath⟩
    · rintro ⟨e, he, hpath⟩
      by_cases hbefore : e ∈ old.entries
      · exact .inr ⟨e, hbefore, he, hpath⟩
      · exact .inl ⟨e, (hwritten e).mpr ⟨he, hbefore⟩, hpath⟩

/-! ## Scanning -/

/-- The entry with the content id of the bytes that are filed for it. -/
def rehash (store : ObjectStore) (entry : Entry) : Entry :=
  { entry with content := store.blobContentId ((store.filed entry.content).getD []) }

/-- What stands for an entry is read back as the entry, under the content id of its bytes. -/
theorem scanLeaf_entry {e : Entry}
    (hcanonical : isCanonicalPathEncoding e.path (decodePath e.path) = true)
    (hloads : Loads store volume e) :
    scanLeaf store (pathOf e, entryLeaf store e) = rehash store e := by
  obtain ⟨bytes, hheld, hsize, -⟩ := hloads
  have hpath : encodeRawPath (joinPath (pathOf e)) = e.path := by
    rw [joinPath, pathOf, components, List.intercalate_splitOn]
    exact encodeRawPath_decodePath hcanonical
  have hfiled := hheld.2.1
  obtain ⟨path, kind, content, size⟩ := e
  cases kind <;> simp_all [scanLeaf, entryLeaf, rehash]

/-- **The scan.** A tree that holds a manifest is read back as it, under the content ids of the
bytes. -/
theorem scanTree_eq (hM : Materializable store volume M) (hT : HoldsExactly store M T) :
    scanTree store T = .ok ⟨M.entries.map (rehash store)⟩ := by
  obtain ⟨hcanonical, hordered⟩ := Manifest.validate_eq_ok.mp hM.valid
  have hpaths : (M.entries.map (rehash store)).map Entry.path = M.entries.map Entry.path := by
    rw [List.map_map]
    rfl
  have hleaves : T.leaves.Perm (M.entries.map fun e => (pathOf e, entryLeaf store e)) := by
    refine (List.perm_ext_iff_of_nodup (.of_map _ T.nodup_leaves_fst) ?_).mpr ?_
    · refine (List.Nodup.of_map _ hordered.nodup_paths).map_on fun a ha b hb heq => ?_
      exact hM.apart a ha b hb (by rw [(Prod.mk.inj heq).1])
    · rintro ⟨path, l⟩
      rw [FileTree.mem_leaves, hT.leaf, List.mem_map]
      simp [Stands]
  have hscanned : (T.leaves.map (scanLeaf store)).Perm (M.entries.map (rehash store)) := by
    refine (hleaves.map (scanLeaf store)).trans (.of_eq ?_)
    rw [List.map_map]
    exact List.map_congr_left fun e he => scanLeaf_entry (hcanonical e he) (hM.loads e he)
  have hcanonical' : ∀ e ∈ T.leaves.map (scanLeaf store),
      isCanonicalPathEncoding e.path (decodePath e.path) = true := by
    intro e he
    obtain ⟨e', he', rfl⟩ := List.mem_map.mp (hscanned.mem_iff.mp he)
    exact hcanonical e' he'
  have hnodup : ((T.leaves.map (scanLeaf store)).map Entry.path).Nodup := by
    rw [(hscanned.map Entry.path).nodup_iff, hpaths]
    exact hordered.nodup_paths
  obtain ⟨M', hnew, hvalid, hperm⟩ := Manifest.exists_new hcanonical' hnodup
  have hordered' : EntriesOrdered (M.entries.map (rehash store)) := List.pairwise_map.mpr hordered
  have hentries := (Manifest.validate_eq_ok.mp hvalid).2.eq_of_perm hordered'
    (hperm.trans hscanned)
  rw [scanTree, hnew, ← hentries]

/-- **Rebase and fresh materialization.** A tree that holds the first manifest, taken to the second,
is the tree that writing the second into an empty root gives: it has its files, kinds and targets
and no empty directory. The paths at which the manifests differ are counted. The scan gives the
second manifest back exactly when each of its contents is the content id of the bytes it names. -/
theorem rebase_eq_materialize {T₁ T₂ : SourceTree}
    (hold : materialize store volume old FileTree.empty = .ok T₁)
    (hnew : materialize store volume new FileTree.empty = .ok T₂) (hT : HoldsExactly store old T) :
    applyTreeDiff store volume old new T = .ok (T₂, (differing old new).card) ∧
      HoldsExactly store new T₂ ∧
      (scanTree store T₂ = .ok new ↔
        ∀ e ∈ new.entries, (store.filed e.content).map store.blobContentId = some e.content) := by
  obtain ⟨hM, -⟩ := holdsExactly_of_materialize hold
  obtain ⟨hM', hfresh⟩ := holdsExactly_of_materialize hnew
  obtain ⟨T', hT', hrebased⟩ := exists_applyTreeDiff hM hM' hT
  refine ⟨hrebased.unique hfresh ▸ hT', hfresh, ?_⟩
  have hcontent : ∀ e ∈ new.entries,
      ((store.filed e.content).map store.blobContentId = some e.content ↔ rehash store e = e) := by
    intro e he
    obtain ⟨bytes, hheld, -⟩ := hM'.loads e he
    obtain ⟨path, kind, content, size⟩ := e
    simp [rehash, hheld.2.1]
  rw [scanTree_eq hM' hfresh]
  constructor
  · intro hsame e he
    have hmap : new.entries.map (rehash store) = new.entries.map id := by
      rw [List.map_id]
      exact congrArg Manifest.entries (Except.ok.inj hsame)
    exact (hcontent e he).mpr (List.map_inj_left.mp hmap e he)
  · intro hall
    have hmap : new.entries.map (rehash store) = new.entries.map id :=
      List.map_congr_left fun e he => (hcontent e he).mp (hall e he)
    rw [hmap, List.map_id]

end Holding

/-! ## Samples -/

def oneId : String := "sha256:3112c2de02f9d92acd939011dc72cf8aecd298969e9a7828f178bad06f7a2000"
def twoId : String := "sha256:820187a5bb2f4ed3870e63a43d00443d0bbbd34db39285530b18c0fa5b8d9707"

/-- The artifact id of an envelope, and the content id of its bytes. -/
def envelopeId : String := "sha256:9a74d72dc0057c80af0d9098be80b760aa3b1ea3a8363f7e7ca58dd9bc46a057"
def envelopeContent : String :=
  "sha256:fcfe0fc53b4b542668d98660f7abd2caf03257bccd2516bcfad9e87618a3b12d"

/-- A canonical envelope: it names its artifact id. -/
def envelopeBytes : List UInt8 := pathBytes
  ("\x7b\"artifact_id\":\"" ++ envelopeId ++
    "\",\"content_id\":\"sha256:2b2ce0eed9db81d721d5ec29582470602219c64ef49af9b98f684f4278276fee\"" ++
    ",\"input_artifacts\":[],\"payload\":\x7b\x7d,\"producer\":\x7b\"kind\":\"kernel_operation\"" ++
    ",\"operation_id\":\"o\",\"run_id\":\"r\"\x7d,\"type\":\"a/B@1\"\x7d")

/-- Two files and an artifact. -/
def rebaseStore : ObjectStore where
  filed digest :=
    if digest = oneId then some (pathBytes "one\n")
    else if digest = twoId then some (pathBytes "two\n")
    else if digest = envelopeId then some envelopeBytes
    else none
  blobContentId bytes :=
    if bytes = pathBytes "one\n" then oneId
    else if bytes = pathBytes "two\n" then twoId
    else envelopeContent
  isEnvelope digest bytes := digest = envelopeId && bytes = envelopeBytes

/-- A volume that takes every name without a zero byte. -/
def rebaseVolume : Volume :=
  ⟨fun name => !name.isEmpty && !name.contains 0, fun target => !target.contains 0⟩

def fileManifest : Manifest := ⟨[⟨"a", .file, oneId, 4⟩, ⟨"b/c/d", .executable, twoId, 4⟩]⟩
def nestedManifest : Manifest := ⟨[⟨"a/b", .file, twoId, 4⟩, ⟨"b", .symlink, oneId, 4⟩]⟩
def envelopeManifest : Manifest := ⟨[⟨"a", .file, envelopeId, 296⟩]⟩

/-- A file becomes a directory, and a chain of directories a symlink. -/
theorem rebase_nested : ∃ T T₂ : SourceTree,
    materialize rebaseStore rebaseVolume fileManifest FileTree.empty = .ok T ∧
      materialize rebaseStore rebaseVolume nestedManifest FileTree.empty = .ok T₂ ∧
      applyTreeDiff rebaseStore rebaseVolume fileManifest nestedManifest T = .ok (T₂, 4) ∧
      scanTree rebaseStore T₂ = .ok nestedManifest := by
  have hold : (materialize rebaseStore rebaseVolume fileManifest FileTree.empty).toOption.isSome =
      true := by decide
  have hnew : (materialize rebaseStore rebaseVolume nestedManifest FileTree.empty).toOption.isSome =
      true := by decide
  obtain ⟨T, hT⟩ := Option.isSome_iff_exists.mp hold
  obtain ⟨T₂, hT₂⟩ := Option.isSome_iff_exists.mp hnew
  rw [toOption_eq_some] at hT hT₂
  obtain ⟨hdiff, -, hscan⟩ := rebase_eq_materialize hT hT₂ (holdsExactly_of_materialize hT).2
  have hcard : (differing fileManifest nestedManifest).card = 4 := by decide
  rw [hcard] at hdiff
  exact ⟨T, T₂, hT, hT₂, hdiff, hscan.mpr (by decide)⟩

/-- **An artifact as a file.** The manifest names an envelope by its artifact id; it is written and
read back under the content id of its bytes. -/
theorem scan_of_envelope : ∃ T₂ : SourceTree,
    materialize rebaseStore rebaseVolume ⟨[]⟩ FileTree.empty = .ok FileTree.empty ∧
      HoldsExactly rebaseStore ⟨[]⟩ FileTree.empty ∧
      materialize rebaseStore rebaseVolume envelopeManifest FileTree.empty = .ok T₂ ∧
      applyTreeDiff rebaseStore rebaseVolume ⟨[]⟩ envelopeManifest FileTree.empty = .ok (T₂, 1) ∧
      scanTree rebaseStore T₂ ≠ .ok envelopeManifest := by
  have hold : materialize rebaseStore rebaseVolume ⟨[]⟩ FileTree.empty = .ok FileTree.empty := rfl
  have hnew : (materialize rebaseStore rebaseVolume envelopeManifest
      FileTree.empty).toOption.isSome = true := by decide +kernel
  obtain ⟨T₂, hT₂⟩ := Option.isSome_iff_exists.mp hnew
  rw [toOption_eq_some] at hT₂
  obtain ⟨hM, hT⟩ := holdsExactly_of_materialize hold
  obtain ⟨hM₂, hT₂'⟩ := holdsExactly_of_materialize hT₂
  obtain ⟨T', hT', hrebased⟩ := exists_applyTreeDiff hM hM₂ hT
  have hcard : (differing ⟨[]⟩ envelopeManifest).card = 1 := by decide
  rw [hcard, hrebased.unique hT₂'] at hT'
  refine ⟨T₂, hold, hT, hT₂, hT', ?_⟩
  rw [scanTree_eq hM₂ hT₂']
  intro hsame
  have hentries := congrArg Manifest.entries (Except.ok.inj hsame)
  revert hentries
  decide

end Afactory
