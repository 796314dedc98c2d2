import Mathlib
import Afactory.CompiledTask
import Afactory.FileTree
import Afactory.SymlinkAncestors

/-!
# Writing a manifest into a tree

`review-source-git/src/materialize.rs`: the entries of a manifest are written below a root from the
objects of a content store, on a volume that folds no names.

* `ObjectStore`, `Volume`: the stored objects, and the names and link targets a volume takes;
* `materialize`: directories first, then the first regular file and the symlinks of every content,
  then the other files as copies of the first;
* `Grouped`: the groups of a list of entries;
* `exists_prepareDirectories`: where no leaf stands above an entry, every parent is prepared.
-/

namespace Afactory

/-- The order of bytes, with the comparisons they have. -/
instance byteOrder : LinearOrder UInt8 where
  le_refl a := UInt8.le_refl a
  le_trans _ _ _ := UInt8.le_trans
  le_antisymm _ _ := UInt8.le_antisymm
  le_total := UInt8.le_total
  lt_iff_le_not_ge _ _ := Std.LawfulOrderLT.lt_iff _ _
  toDecidableLE := inferInstance

/-! ## The content store -/

inductive CasError where
  | io (message : String)
  | invalidDigest (digest : String)
  | corrupt (digest : String)
  | notFound (digest : String)
  deriving DecidableEq, Repr

def CasError.message : CasError → String
  | .io message => "cas io: " ++ message
  | .invalidDigest digest => "invalid content digest `" ++ digest ++ "`"
  | .corrupt digest => "cas object does not match its digest: " ++ digest
  | .notFound digest => "cas object not found: " ++ digest

def maxArtifactEnvelopeBytes : ℕ := 8 * 1024 * 1024

def maxSymlinkTargetBytes : ℕ := 16 * 1024

/-- The objects by the digest they are filed under, the content id of bytes, and which bytes are
the canonical envelope of an artifact id. -/
structure ObjectStore where
  filed : String → Option (List UInt8)
  blobContentId : List UInt8 → String
  isEnvelope : String → List UInt8 → Bool

namespace ObjectStore

variable (store : ObjectStore)

/-- `verify_object_bytes`: an object has the content id of its bytes, or is an envelope. -/
def verifyObjectBytes (digest : String) (bytes : List UInt8) : Except CasError Unit :=
  if store.blobContentId bytes = digest then .ok ()
  else if bytes.length ≤ maxArtifactEnvelopeBytes ∧ store.isEnvelope digest bytes = true then .ok ()
  else .error (.corrupt digest)

/-- The verified read of `materialize_verified`. -/
def readVerified (digest : String) : Except CasError (List UInt8) := do
  if !isDigest digest then throw (.invalidDigest digest)
  match store.filed digest with
  | none => throw (.notFound digest)
  | some bytes => do
    store.verifyObjectBytes digest bytes
    return bytes

/-- `Cas::get_bounded`. -/
def getBounded (digest : String) (maxBytes : ℕ) : Except CasError (List UInt8) := do
  if !isDigest digest then throw (.invalidDigest digest)
  match store.filed digest with
  | none => throw (.notFound digest)
  | some bytes => do
    if maxBytes < bytes.length then
      throw (.io ("CAS object " ++ digest ++ " is " ++ toString bytes.length ++
        " bytes; limit is " ++ toString maxBytes))
    store.verifyObjectBytes digest bytes
    return bytes

/-- The object a digest names is filed, and its bytes verify. -/
def Holds (digest : String) (bytes : List UInt8) : Prop :=
  isDigest digest = true ∧ store.filed digest = some bytes ∧
    store.verifyObjectBytes digest bytes = .ok ()

variable {store}

theorem readVerified_eq_ok {digest : String} {bytes : List UInt8} :
    store.readVerified digest = .ok bytes ↔ store.Holds digest bytes := by
  unfold readVerified Holds
  cases hdigest : isDigest digest with
  | false => simp [bind, Except.bind, throw, throwThe, MonadExceptOf.throw]
  | true =>
    cases hfiled : store.filed digest with
    | none => simp [throw, throwThe, MonadExceptOf.throw]
    | some object =>
      cases hverify : store.verifyObjectBytes digest object <;>
        simp [bind, Except.bind, pure, Except.pure, hverify] <;> grind

theorem getBounded_eq_ok {digest : String} {maxBytes : ℕ} {bytes : List UInt8} :
    store.getBounded digest maxBytes = .ok bytes ↔
      store.Holds digest bytes ∧ bytes.length ≤ maxBytes := by
  unfold getBounded Holds
  cases hdigest : isDigest digest with
  | false => simp [bind, Except.bind, throw, throwThe, MonadExceptOf.throw]
  | true =>
    cases hfiled : store.filed digest with
    | none => simp [throw, throwThe, MonadExceptOf.throw]
    | some object =>
      by_cases hsize : maxBytes < object.length
      · simp [bind, Except.bind, throw, throwThe, MonadExceptOf.throw, hsize]
        grind
      · cases hverify : store.verifyObjectBytes digest object <;>
          simp [bind, Except.bind, pure, Except.pure, hverify, hsize] <;> grind

end ObjectStore

/-! ## The tree -/

/-- What a volume takes as the name of a file and as the target of a symlink. -/
structure Volume where
  acceptsName : FileName → Bool
  acceptsTarget : List UInt8 → Bool

inductive SourceLeaf where
  | file (bytes : List UInt8) (executable : Bool)
  | symlink (target : List UInt8)
  deriving DecidableEq, Repr

/-- A tree below a real directory. -/
abbrev SourceTree := FileTree FileName SourceLeaf

/-- An entry with the components of its path. -/
abbrev Placed := Entry × TreePath

section Writing

variable (store : ObjectStore) (volume : Volume)

/-- Place a node whose own name the volume takes. -/
def placeNode (path : TreePath) (node : TreeNode SourceLeaf) (T : SourceTree) :
    Except MaterializeError SourceTree :=
  if !(path.getLast?).any volume.acceptsName then .error (.io "invalid input parameter")
  else
    match T.place path node with
    | some T' => .ok T'
    | none => .error (.io "not a directory, or is a directory")

/-- `ensure_directory`. -/
def ensureDirectory (path : TreePath) (encoded : String) (T : SourceTree) :
    Except MaterializeError SourceTree :=
  match T.lookup path with
  | some .directory => .ok T
  | some (.leaf _) => .error (.escape encoded)
  | none => placeNode volume path .directory T

/-- How many leading components two paths share. -/
def commonDepth (a b : TreePath) : ℕ := ((a.zip b).takeWhile fun p => p.1 = p.2).length

/-- `prepare_directories`, with the parent of the entry before: only the components beyond what the
two parents share are looked at. -/
def prepareDirectories : List Placed → TreePath → SourceTree → Except MaterializeError SourceTree
  | [], _, T => .ok T
  | (entry, path) :: rest, previous, T => do
    let parent := path.dropLast
    let depths := (List.range parent.length).drop (commonDepth previous parent)
    let T ← depths.foldlM
      (fun T depth => ensureDirectory volume (parent.take (depth + 1)) entry.path T) T
    prepareDirectories rest parent T

/-- The entries of one content, in the order of the manifest. -/
structure ContentGroup where
  content : String
  members : List Placed

/-- The first member that is no symlink. -/
def ContentGroup.regularSource (group : ContentGroup) : Option Placed :=
  group.members.find? fun member => member.1.kind ≠ .symlink

def ContentGroup.symlinks (group : ContentGroup) : List Placed :=
  group.members.filter fun member => member.1.kind = .symlink

/-- The other files of a group; an entry stands once in a manifest. -/
def ContentGroup.duplicates (group : ContentGroup) : List Placed :=
  group.members.filter fun member =>
    member.1.kind ≠ .symlink && group.regularSource ≠ some member

def addToGroups (groups : List ContentGroup) (member : Placed) : List ContentGroup :=
  if groups.any fun group => group.content = member.1.content then
    groups.map fun group =>
      if group.content = member.1.content then { group with members := group.members ++ [member] }
      else group
  else groups ++ [⟨member.1.content, [member]⟩]

/-- The groups in the order of their first member. -/
def contentGroups (members : List Placed) : List ContentGroup := members.foldl addToGroups []

/-- Rename a verified file over its target and set its mode. -/
def publish (member : Placed) (bytes : List UInt8) (T : SourceTree) :
    Except MaterializeError SourceTree :=
  placeNode volume member.2 (.leaf (.file bytes (member.1.kind = .executable))) T

/-- `symlink(2)`, which replaces nothing. -/
def symlinkAt (member : Placed) (target : List UInt8) (T : SourceTree) :
    Except MaterializeError SourceTree :=
  if (T.lookup member.2).isSome then .error (.io "file exists")
  else if !volume.acceptsTarget target then .error (.io "invalid input parameter")
  else placeNode volume member.2 (.leaf (.symlink target)) T

/-- The copy of a file of the tree, with the mode of its entry. -/
def copyFile (source : TreePath) (member : Placed) (T : SourceTree) :
    Except MaterializeError SourceTree :=
  match T.lookup source, T.lookup member.2 with
  -- a copy would write through a symlink, where the pass before left one
  | _, some (.leaf (.symlink _)) => .error (.io "too many levels of symbolic links")
  | some (.leaf (.file bytes _)), _ => publish volume member bytes T
  | _, _ => .error (.io "not a regular file")

def sizeError (entry : Entry) (actualSize : ℕ) : MaterializeError :=
  .manifest ("entry `" ++ entry.path ++ "` declares " ++ toString entry.size ++
    " bytes but CAS object " ++ entry.content ++ " has " ++ toString actualSize)

def casError (e : CasError) : MaterializeError := .cas e.message

/-- `materialize_group_source`: the first file and the symlinks of one content. -/
def materializeGroupSource (T : SourceTree) (group : ContentGroup) :
    Except MaterializeError SourceTree := do
  let (T, actualSize) ← match group.regularSource with
    | some source => do
      let bytes ← (store.readVerified group.content).mapError casError
      let T ← publish volume source bytes T
      pure (T, bytes.length)
    | none => do
      let bytes ← (store.getBounded group.content maxSymlinkTargetBytes).mapError casError
      pure (T, bytes.length)
  group.members.forM fun member =>
    if member.1.size = actualSize then .ok () else .error (sizeError member.1 actualSize)
  group.symlinks.foldlM (fun T member => do
    let target ← (store.getBounded group.content maxSymlinkTargetBytes).mapError casError
    symlinkAt volume member target T) T

/-- The copies of the second phase: every other file of a group, from its first. -/
def copies (groups : List ContentGroup) : List (Placed × TreePath) :=
  groups.flatMap fun group =>
    match group.regularSource with
    | some source => group.duplicates.map fun member => (member, source.2)
    | none => []

/-- `materialize_tree`, below a root directory that is there. -/
def materialize (M : Manifest) (T : SourceTree) : Except MaterializeError SourceTree := do
  M.validate.mapError fun e => .manifest e.message
  let decodedPaths ← M.entries.mapM fun entry => checkedRelativePath entry.path entry.kind
  refuseSymlinkAncestors M decodedPaths
  let members := M.entries.zip decodedPaths
  let T ← prepareDirectories volume members [] T
  let groups := contentGroups members
  let T ← groups.foldlM (materializeGroupSource store volume) T
  (copies groups).foldlM (fun T copy => copyFile volume copy.2 copy.1 T) T

end Writing

/-! ## Groups -/

/-- The groups of a list of members: each member in one, with those of its content. -/
structure Grouped (groups : List ContentGroup) (members : List Placed) : Prop where
  perm : (groups.flatMap ContentGroup.members).Perm members
  contents : (groups.map ContentGroup.content).Nodup
  content : ∀ group ∈ groups, ∀ member ∈ group.members, member.1.content = group.content
  inhabited : ∀ group ∈ groups, group.members ≠ []

/-- A member joins the one group of its content. -/
theorem perm_join {groups : List ContentGroup} {member : Placed}
    (hcontents : (groups.map ContentGroup.content).Nodup)
    (hany : ∃ group ∈ groups, group.content = member.1.content) :
    ((groups.map fun group =>
      if group.content = member.1.content then { group with members := group.members ++ [member] }
      else group).flatMap ContentGroup.members).Perm
        (groups.flatMap ContentGroup.members ++ [member]) := by
  induction groups with
  | nil =>
    obtain ⟨_, hmem, -⟩ := hany
    cases hmem
  | cons group groups ih =>
    rw [List.map_cons, List.nodup_cons] at hcontents
    rw [List.map_cons, List.flatMap_cons, List.flatMap_cons]
    split_ifs with heq
    · have hsame : (groups.map fun group =>
          if group.content = member.1.content then
            { group with members := group.members ++ [member] }
          else group) = groups := by
        refine (List.map_congr_left fun other hother => ?_).trans (List.map_id groups)
        refine if_neg fun hcontent => hcontents.1 ?_
        exact List.mem_map.mpr ⟨other, hother, hcontent.trans heq.symm⟩
      rw [hsame]
      simp only [List.append_assoc]
      exact List.Perm.append_left _ List.perm_append_comm
    · obtain ⟨other, hmem, hother⟩ := hany
      have hany : ∃ group ∈ groups, group.content = member.1.content := by
        rcases List.mem_cons.mp hmem with rfl | hmem
        · exact absurd hother heq
        · exact ⟨other, hmem, hother⟩
      rw [List.append_assoc]
      exact List.Perm.append_left _ (ih hcontents.2 hany)

theorem Grouped.add {groups : List ContentGroup} {members : List Placed} (h : Grouped groups members)
    (member : Placed) : Grouped (addToGroups groups member) (members ++ [member]) := by
  unfold addToGroups
  split_ifs with hany
  · have hany : ∃ group ∈ groups, group.content = member.1.content := by simpa using hany
    refine ⟨(perm_join h.contents hany).trans (h.perm.append_right _), ?_, ?_, ?_⟩
    · have hsame : (groups.map fun group =>
          if group.content = member.1.content then
            { group with members := group.members ++ [member] }
          else group).map ContentGroup.content = groups.map ContentGroup.content := by
        rw [List.map_map]
        refine List.map_congr_left fun group _ => ?_
        simp only [Function.comp_apply]
        split_ifs <;> rfl
      rw [hsame]
      exact h.contents
    · intro group hgroup
      obtain ⟨before, hbefore, rfl⟩ := List.mem_map.mp hgroup
      split_ifs with heq
      · intro m hm
        rcases List.mem_append.mp hm with hm | hm
        · exact h.content before hbefore m hm
        · rw [List.mem_singleton.mp hm]
          exact heq.symm
      · exact h.content before hbefore
    · intro group hgroup
      obtain ⟨before, hbefore, rfl⟩ := List.mem_map.mp hgroup
      split_ifs
      · exact List.concat_ne_nil _ _
      · exact h.inhabited before hbefore
  · have hnone : ∀ group ∈ groups, group.content ≠ member.1.content := by simpa using hany
    refine ⟨?_, ?_, ?_, ?_⟩
    · rw [List.flatMap_append]
      simpa using h.perm.append_right [member]
    · rw [List.map_append, List.nodup_append]
      refine ⟨h.contents, by simp, ?_⟩
      rintro content hcontent other hother rfl
      obtain ⟨group, hgroup, rfl⟩ := List.mem_map.mp hcontent
      exact hnone group hgroup (by simpa using hother)
    · intro group hgroup
      rcases List.mem_append.mp hgroup with hgroup | hgroup
      · exact h.content group hgroup
      · rw [List.mem_singleton.mp hgroup]
        simp
    · intro group hgroup
      rcases List.mem_append.mp hgroup with hgroup | hgroup
      · exact h.inhabited group hgroup
      · rw [List.mem_singleton.mp hgroup]
        simp

theorem grouped_foldl {groups : List ContentGroup} {before members : List Placed}
    (h : Grouped groups before) :
    Grouped (members.foldl addToGroups groups) (before ++ members) := by
  induction members generalizing groups before with
  | nil =>
    rw [List.append_nil]
    exact h
  | cons member members ih =>
    rw [List.append_cons]
    exact ih (h.add member)

/-- **The groups.** -/
theorem grouped_contentGroups (members : List Placed) :
    Grouped (contentGroups members) members := by
  have hnil : Grouped [] [] :=
    ⟨List.Perm.refl _, List.nodup_nil, fun _ h => absurd h List.not_mem_nil,
      fun _ h => absurd h List.not_mem_nil⟩
  exact grouped_foldl hnil

/-! ## Directories -/

section Directories

variable {volume : Volume} {T T' : SourceTree} {path : TreePath} {node : TreeNode SourceLeaf}

/-- A node that was placed. -/
theorem placeNode_eq_ok (h : placeNode volume path node T = .ok T') :
    path ≠ [] ∧ (path.getLast?).any volume.acceptsName = true ∧
      T.lookup path.dropLast = some .directory ∧ T.lookup path ≠ some .directory ∧
      T'.lookup path = some node ∧ ∀ p, p ≠ path → T'.lookup p = T.lookup p := by
  unfold placeNode at h
  split_ifs at h with hname
  split at h
  case h_1 T₁ hplace =>
    cases h
    obtain ⟨hpath, hparent, hfree, hnode, hother⟩ := FileTree.place_eq_some hplace
    exact ⟨hpath, by simpa using hname, hparent, hfree, hnode, hother⟩
  case h_2 => cases h

theorem exists_placeNode (hpath : path ≠ []) (hname : (path.getLast?).any volume.acceptsName = true)
    (hparent : T.lookup path.dropLast = some .directory) (hfree : T.lookup path ≠ some .directory)
    (node : TreeNode SourceLeaf) : ∃ T', placeNode volume path node T = .ok T' := by
  obtain ⟨T', hT'⟩ := FileTree.exists_place hpath hparent hfree node
  exact ⟨T', by simp [placeNode, hname, hT']⟩

/-- What preparing directories does: they are added, and nothing else changes. -/
structure Prepares (wanted : TreePath → Prop) (T T' : SourceTree) : Prop where
  keeps : ∀ p, T.lookup p = some .directory → T'.lookup p = some .directory
  leaves : ∀ p l, T'.lookup p = some (.leaf l) → T.lookup p = some (.leaf l)
  other : ∀ p, ¬ wanted p → T'.lookup p = T.lookup p

theorem Prepares.refl (wanted : TreePath → Prop) (T : SourceTree) : Prepares wanted T T :=
  ⟨fun _ h => h, fun _ _ h => h, fun _ _ => rfl⟩

theorem Prepares.trans {wanted : TreePath → Prop} {T₁ T₂ T₃ : SourceTree}
    (h : Prepares wanted T₁ T₂) (h' : Prepares wanted T₂ T₃) : Prepares wanted T₁ T₃ :=
  ⟨fun p hp => h'.keeps p (h.keeps p hp), fun p l hp => h.leaves p l (h'.leaves p l hp),
    fun p hp => (h'.other p hp).trans (h.other p hp)⟩

theorem Prepares.mono {wanted wanted' : TreePath → Prop} (h : Prepares wanted T T')
    (hsub : ∀ p, wanted p → wanted' p) : Prepares wanted' T T' :=
  ⟨h.keeps, h.leaves, fun p hp => h.other p fun hw => hp (hsub p hw)⟩

theorem exists_ensureDirectory (hpath : path ≠ [])
    (hname : (path.getLast?).any volume.acceptsName = true)
    (hparent : T.lookup path.dropLast = some .directory)
    (hleaf : ∀ l, T.lookup path ≠ some (.leaf l)) (encoded : String) :
    ∃ T', ensureDirectory volume path encoded T = .ok T' ∧ T'.lookup path = some .directory ∧
      Prepares (· = path) T T' := by
  unfold ensureDirectory
  cases hlookup : T.lookup path with
  | some node =>
    cases node with
    | directory => exact ⟨T, rfl, hlookup, .refl _ T⟩
    | leaf l => exact absurd hlookup (hleaf l)
  | none =>
    have hfree : T.lookup path ≠ some .directory := by
      rw [hlookup]
      exact nofun
    obtain ⟨T', hT'⟩ := exists_placeNode hpath hname hparent hfree .directory
    obtain ⟨-, -, -, -, hmade, hother⟩ := placeNode_eq_ok hT'
    refine ⟨T', hT', hmade, fun p hp => ?_, fun p l hp => ?_, hother⟩
    · rw [hother p (by rintro rfl; exact hfree hp), hp]
    · rw [← hother p, hp]
      rintro rfl
      rw [hmade] at hp
      cases hp

/-- The directories of one parent, below those that are there. -/
theorem exists_ensureDirectories {parent : TreePath} (encoded : String)
    (hnames : ∀ name ∈ parent, volume.acceptsName name = true)
    (hleaf : ∀ p l, p <+: parent → T.lookup p ≠ some (.leaf l)) {depth : ℕ}
    (hdepth : depth ≤ parent.length) (hthere : T.lookup (parent.take depth) = some .directory) :
    ∃ T', ((List.range parent.length).drop depth).foldlM
        (fun T depth => ensureDirectory volume (parent.take (depth + 1)) encoded T) T = .ok T' ∧
      T'.lookup parent = some .directory ∧ Prepares (· <+: parent) T T' := by
  induction hmore : parent.length - depth generalizing depth T with
  | zero =>
    obtain rfl : depth = parent.length := by omega
    rw [List.drop_eq_nil_of_le (by simp)]
    rw [List.take_length] at hthere
    exact ⟨T, rfl, hthere, .refl _ T⟩
  | succ more ih =>
    have hlt : depth < parent.length := by omega
    have hdrop : (List.range parent.length).drop depth =
        depth :: (List.range parent.length).drop (depth + 1) := by
      rw [List.drop_eq_getElem_cons (by simpa using hlt), List.getElem_range]
    have htake : parent.take (depth + 1) = parent.take depth ++ [parent[depth]] :=
      (List.take_concat_get' parent depth hlt).symm
    have hstart : parent.take (depth + 1) <+: parent := List.take_prefix _ _
    have hroot : parent.take (depth + 1) ≠ [] := by
      rw [htake]
      exact List.concat_ne_nil _ _
    have hname : ((parent.take (depth + 1)).getLast?).any volume.acceptsName = true := by
      rw [htake, List.getLast?_concat]
      exact hnames _ (List.getElem_mem hlt)
    have hbefore : T.lookup (parent.take (depth + 1)).dropLast = some .directory := by
      rw [htake, List.dropLast_concat]
      exact hthere
    obtain ⟨T₁, hT₁, hmade, hone⟩ := exists_ensureDirectory hroot hname hbefore
      (fun l => hleaf _ l hstart) encoded
    have hone : Prepares (· <+: parent) T T₁ := by
      refine hone.mono ?_
      rintro p rfl
      exact hstart
    obtain ⟨T', hT', hparent, hrest⟩ := ih
      (fun p l hp hl => hleaf p l hp (hone.leaves p l hl)) hlt hmade (by omega)
    refine ⟨T', ?_, hparent, hone.trans hrest⟩
    rw [hdrop, List.foldlM_cons]
    exact bind_eq_ok.mpr ⟨T₁, hT₁, hT'⟩

/-- What two parents share begins both. -/
theorem take_commonDepth (a b : TreePath) :
    commonDepth a b ≤ b.length ∧ b.take (commonDepth a b) <+: a := by
  unfold commonDepth
  induction a generalizing b with
  | nil => simp
  | cons x a ih =>
    rcases b with _ | ⟨y, b⟩
    · simp
    · rw [List.zip_cons_cons, List.takeWhile_cons]
      split_ifs with heq
      · have heq : x = y := by simpa using heq
        obtain ⟨hle, hstart⟩ := ih b
        rw [List.length_cons, List.length_cons, List.take_succ_cons, heq]
        exact ⟨Nat.succ_le_succ hle, List.cons_prefix_cons.mpr ⟨rfl, hstart⟩⟩
      · simp

/-- **The directories.** Where no leaf stands above an entry, every parent is prepared. -/
theorem exists_prepareDirectories {members : List Placed} {previous : TreePath}
    (hnames : ∀ m ∈ members, ∀ name ∈ m.2.dropLast, volume.acceptsName name = true)
    (hleaf : ∀ m ∈ members, ∀ p l, p <+: m.2.dropLast → T.lookup p ≠ some (.leaf l))
    (hprevious : T.lookup previous = some .directory) :
    ∃ T', prepareDirectories volume members previous T = .ok T' ∧
      (∀ m ∈ members, T'.lookup m.2.dropLast = some .directory) ∧
      Prepares (fun p => ∃ m ∈ members, p <+: m.2.dropLast) T T' := by
  induction members generalizing previous T with
  | nil => exact ⟨T, rfl, nofun, .refl _ T⟩
  | cons m members ih =>
    obtain ⟨entry, path⟩ := m
    obtain ⟨hle, hstart⟩ := take_commonDepth previous path.dropLast
    have hthere : T.lookup (path.dropLast.take (commonDepth previous path.dropLast)) =
        some .directory := by
      by_cases heq : path.dropLast.take (commonDepth previous path.dropLast) = previous
      · rw [heq]
        exact hprevious
      · exact FileTree.lookup_of_proper hprevious hstart heq
    obtain ⟨T₁, hT₁, hparent, hone⟩ := exists_ensureDirectories entry.path
      (hnames _ List.mem_cons_self) (hleaf _ List.mem_cons_self) hle hthere
    obtain ⟨T', hT', hall, hrest⟩ := ih
      (fun m hm => hnames m (List.mem_cons_of_mem _ hm))
      (fun m hm p l hp hl => hleaf m (List.mem_cons_of_mem _ hm) p l hp (hone.leaves p l hl))
      hparent
    refine ⟨T', bind_eq_ok.mpr ⟨T₁, hT₁, hT'⟩, ?_, ?_⟩
    · rw [List.forall_mem_cons]
      exact ⟨hrest.keeps _ hparent, hall⟩
    · refine (hone.mono ?_).trans (hrest.mono ?_)
      · exact fun p hp => ⟨_, List.mem_cons_self, hp⟩
      · rintro p ⟨m, hm, hp⟩
        exact ⟨m, List.mem_cons_of_mem _ hm, hp⟩

end Directories

end Afactory
