import Mathlib
import Afactory.Materialize

/-!
# What a materialization writes

* `Adds`, `Ready`: writes of entries at free paths below prepared directories, and how they
  compose;
* `Materializable`: what is asked of a manifest: valid, with accepted paths, loaded contents and
  no entry above another;
* `exists_materialize`: such a manifest is written wherever it fits, and `Written` says what the
  tree then holds;
* `materializable_of_materialize`: a manifest that is written into an empty tree is such a one.
-/

namespace Afactory

/-- The raw path of an entry, in components. -/
def pathOf (entry : Entry) : TreePath := components (decodePath entry.path)

/-- The leaf an entry stands for. -/
def entryLeaf (store : ObjectStore) (entry : Entry) : SourceLeaf :=
  let bytes := (store.filed entry.content).getD []
  match entry.kind with
  | .file => .file bytes false
  | .executable => .file bytes true
  | .symlink => .symlink bytes

/-- The content of an entry is filed and verifies, with the size it declares; a symlink's target is
bounded, and the volume takes it. -/
def Loads (store : ObjectStore) (volume : Volume) (entry : Entry) : Prop :=
  ∃ bytes, store.Holds entry.content bytes ∧ entry.size = bytes.length ∧
    (entry.kind = .symlink →
      bytes.length ≤ maxSymlinkTargetBytes ∧ volume.acceptsTarget bytes = true)

section Writes

variable {store : ObjectStore} {volume : Volume} {T T' T₁ T₂ T₃ : SourceTree}
variable {writes writes' : List Placed}

/-! ## Writes -/

/-- The entries are written, and nothing else changes. -/
structure Adds (store : ObjectStore) (writes : List Placed) (T T' : SourceTree) : Prop where
  leaf : ∀ w ∈ writes, T'.lookup w.2 = some (.leaf (entryLeaf store w.1))
  other : ∀ p, (∀ w ∈ writes, w.2 ≠ p) → T'.lookup p = T.lookup p

/-- The entries can be written: their paths are free, below directories. -/
def Ready (volume : Volume) (writes : List Placed) (T : SourceTree) : Prop :=
  ∀ w ∈ writes, w.2 ≠ [] ∧ (w.2.getLast?).any volume.acceptsName = true ∧
    T.lookup w.2.dropLast = some .directory ∧ T.lookup w.2 = none

/-- Two lists of writes touch different paths. -/
def Apart (writes writes' : List Placed) : Prop := ∀ w ∈ writes, ∀ w' ∈ writes', w'.2 ≠ w.2

theorem Adds.refl (T : SourceTree) : Adds store [] T T := ⟨nofun, fun _ _ => rfl⟩

theorem Adds.append (h : Adds store writes T₁ T₂) (h' : Adds store writes' T₂ T₃)
    (hapart : Apart writes writes') : Adds store (writes ++ writes') T₁ T₃ where
  leaf := by
    intro w hw
    rcases List.mem_append.mp hw with hw | hw
    · rw [h'.other w.2 (fun w' hw' => hapart w hw w' hw')]
      exact h.leaf w hw
    · exact h'.leaf w hw
  other := by
    intro p hp
    rw [h'.other p fun w hw => hp w (List.mem_append_right _ hw)]
    exact h.other p fun w hw => hp w (List.mem_append_left _ hw)

/-- What is written elsewhere leaves the rest ready. -/
theorem Ready.after (h : Ready volume (writes ++ writes') T) (hadds : Adds store writes T T')
    (hapart : Apart writes writes') : Ready volume writes' T' := by
  intro w hw
  obtain ⟨hroot, hname, hparent, hfree⟩ := h w (List.mem_append_right _ hw)
  refine ⟨hroot, hname, ?_, ?_⟩
  · rw [hadds.other _ fun w' hw' heq => ?_]
    · exact hparent
    · have hnone := (h w' (List.mem_append_left _ hw')).2.2.2
      rw [heq, hparent] at hnone
      cases hnone
  · rw [hadds.other _ fun w' hw' heq => hapart w' hw' w hw heq.symm]
    exact hfree

/-- **Writing one by one.** Steps that each write their own entries, at paths that are ready, write
them all. -/
theorem exists_foldlM_adds {X : Type} (f : SourceTree → X → Except MaterializeError SourceTree)
    (own : X → List Placed) (P : SourceTree → Prop) {xs : List X}
    (hstep : ∀ x ∈ xs, ∀ T, P T → Ready volume (own x) T →
      ∃ T', f T x = .ok T' ∧ Adds store (own x) T T')
    (hP : ∀ x ∈ xs, ∀ T T', P T → Adds store (own x) T T' → P T')
    (hnodup : ((xs.flatMap own).map Prod.snd).Nodup) (hT : P T)
    (hready : Ready volume (xs.flatMap own) T) :
    ∃ T', xs.foldlM f T = .ok T' ∧ Adds store (xs.flatMap own) T T' ∧ P T' := by
  induction xs generalizing T with
  | nil => exact ⟨T, rfl, .refl T, hT⟩
  | cons x xs ih =>
    rw [List.flatMap_cons] at hnodup hready ⊢
    rw [List.map_append, List.nodup_append] at hnodup
    have hapart : Apart (own x) (xs.flatMap own) := by
      intro w hw w' hw' heq
      exact hnodup.2.2 w.2 (List.mem_map_of_mem hw) w'.2 (List.mem_map_of_mem hw') heq.symm
    obtain ⟨T₁, hT₁, hadds⟩ := hstep x List.mem_cons_self T hT
      fun w hw => hready w (List.mem_append_left _ hw)
    obtain ⟨T', hT', hrest, hP'⟩ := ih (fun y hy => hstep y (List.mem_cons_of_mem _ hy))
      (fun y hy => hP y (List.mem_cons_of_mem _ hy)) hnodup.2.1
      (hP x List.mem_cons_self T T₁ hT hadds) (hready.after hadds hapart)
    refine ⟨T', ?_, hadds.append hrest hapart, hP'⟩
    rw [List.foldlM_cons]
    exact bind_eq_ok.mpr ⟨T₁, hT₁, hT'⟩

/-- A node placed at a ready path is the entry written. -/
theorem exists_placeNode_adds (store : ObjectStore) {w : Placed} (hready : Ready volume [w] T) :
    ∃ T', placeNode volume w.2 (.leaf (entryLeaf store w.1)) T = .ok T' ∧ Adds store [w] T T' := by
  obtain ⟨hroot, hname, hparent, hfree⟩ := hready w List.mem_cons_self
  obtain ⟨T', hT'⟩ := exists_placeNode hroot hname hparent (by rw [hfree]; exact nofun)
    (.leaf (entryLeaf store w.1))
  obtain ⟨-, -, -, -, hnode, hother⟩ := placeNode_eq_ok hT'
  refine ⟨T', hT', ?_, fun p hp => hother p (hp w List.mem_cons_self).symm⟩
  intro w' hw'
  rw [List.mem_singleton.mp hw']
  exact hnode

theorem entryLeaf_file {entry : Entry} {bytes : List UInt8} (hfiled : store.Holds entry.content bytes)
    (hkind : entry.kind ≠ .symlink) :
    entryLeaf store entry = .file bytes (entry.kind = .executable) := by
  unfold entryLeaf
  rw [hfiled.2.1]
  cases h : entry.kind <;> simp_all

theorem entryLeaf_symlink {entry : Entry} {bytes : List UInt8}
    (hfiled : store.Holds entry.content bytes) (hkind : entry.kind = .symlink) :
    entryLeaf store entry = .symlink bytes := by
  unfold entryLeaf
  rw [hfiled.2.1, hkind]
  rfl

theorem exists_publish {w : Placed} {bytes : List UInt8} (hready : Ready volume [w] T)
    (hfiled : store.Holds w.1.content bytes) (hkind : w.1.kind ≠ .symlink) :
    ∃ T', publish volume w bytes T = .ok T' ∧ Adds store [w] T T' := by
  obtain ⟨T', hT', hadds⟩ := exists_placeNode_adds store hready
  rw [entryLeaf_file hfiled hkind] at hT'
  exact ⟨T', hT', hadds⟩

theorem exists_symlinkAt {w : Placed} {bytes : List UInt8} (hready : Ready volume [w] T)
    (hfiled : store.Holds w.1.content bytes) (hkind : w.1.kind = .symlink)
    (htarget : volume.acceptsTarget bytes = true) :
    ∃ T', symlinkAt volume w bytes T = .ok T' ∧ Adds store [w] T T' := by
  obtain ⟨T', hT', hadds⟩ := exists_placeNode_adds store hready
  rw [entryLeaf_symlink hfiled hkind] at hT'
  refine ⟨T', ?_, hadds⟩
  have hfree := (hready w List.mem_cons_self).2.2.2
  simp [symlinkAt, hfree, htarget, hT']

/-! ## Groups -/

/-- The entries of a group that the first phase writes. -/
def ContentGroup.firsts (group : ContentGroup) : List Placed :=
  group.regularSource.toList ++ group.symlinks

/-- The first phase and the copies write every member once. -/
theorem ContentGroup.perm_firsts {group : ContentGroup} (hnodup : group.members.Nodup) :
    (group.firsts ++ group.duplicates).Perm group.members := by
  have hsplit := List.filter_append_perm (fun m : Placed => decide (m.1.kind = .symlink))
    group.members
  have hregular : (group.regularSource.toList ++ group.duplicates).Perm
      (group.members.filter fun m => !decide (m.1.kind = .symlink)) := by
    cases hsource : group.regularSource with
    | none =>
      have hall : ∀ m ∈ group.members, m.1.kind = .symlink := by
        intro m hm
        simpa using List.find?_eq_none.mp hsource m hm
      have hnone : ∀ m ∈ group.members, ¬ ((!decide (m.1.kind = .symlink)) = true) := by
        intro m hm
        simp [hall m hm]
      have hdup : group.duplicates = [] := by
        rw [duplicates, List.filter_eq_nil_iff]
        intro m hm
        simp [hall m hm]
      rw [hdup, List.filter_eq_nil_iff.mpr hnone]
      exact List.Perm.refl _
    | some source =>
      have hmem : source ∈ group.members.filter fun m => !decide (m.1.kind = .symlink) := by
        refine List.mem_filter.mpr ⟨List.mem_of_find?_eq_some hsource, ?_⟩
        simpa using List.find?_some hsource
      have hdup : group.duplicates =
          (group.members.filter fun m => !decide (m.1.kind = .symlink)).erase source := by
        rw [(hnodup.filter _).erase_eq_filter, List.filter_filter, duplicates]
        refine List.filter_congr fun m _ => ?_
        rw [hsource]
        by_cases hm : m = source
        · simp [hm]
        · have hm' : source ≠ m := Ne.symm hm
          simp [hm, hm']
      rw [hdup]
      exact (List.perm_cons_erase hmem).symm
  rw [firsts, List.append_assoc]
  refine (List.Perm.append_left _ List.perm_append_comm).trans ?_
  rw [← List.append_assoc]
  refine (hregular.append_right _).trans ?_
  exact List.perm_append_comm.trans hsplit

/-- What a group needs to be written. -/
structure GroupLoads (store : ObjectStore) (volume : Volume) (group : ContentGroup) : Prop where
  content : ∀ m ∈ group.members, m.1.content = group.content
  inhabited : group.members ≠ []
  loads : ∀ m ∈ group.members, Loads store volume m.1
  nodup : (group.members.map Prod.snd).Nodup

theorem forM_sizes_eq_ok {group : ContentGroup} {size : ℕ}
    (h : ∀ m ∈ group.members, m.1.size = size) :
    (group.members.forM fun m =>
      if m.1.size = size then (.ok () : Except MaterializeError Unit)
      else .error (sizeError m.1 size)) = .ok () :=
  forM_eq_ok.mpr fun m hm => if_pos (h m hm)

/-- **One group.** The first phase writes its first file and its symlinks. -/
theorem exists_materializeGroupSource {group : ContentGroup} (hgroup : GroupLoads store volume group)
    (hready : Ready volume group.firsts T) :
    ∃ T', materializeGroupSource store volume T group = .ok T' ∧
      Adds store group.firsts T T' := by
  obtain ⟨first, hfirst⟩ := List.exists_mem_of_ne_nil _ hgroup.inhabited
  obtain ⟨bytes, hfiled, -, -⟩ := hgroup.loads first hfirst
  rw [hgroup.content first hfirst] at hfiled
  have hbytes : ∀ m ∈ group.members, store.Holds m.1.content bytes ∧ m.1.size = bytes.length ∧
      (m.1.kind = .symlink →
        bytes.length ≤ maxSymlinkTargetBytes ∧ volume.acceptsTarget bytes = true) := by
    intro m hm
    obtain ⟨own, hown, hsize, hlink⟩ := hgroup.loads m hm
    have hsame : own = bytes := by
      have h := hown.2.1
      rw [hgroup.content m hm, hfiled.2.1] at h
      exact (Option.some.inj h).symm
    rw [← hsame]
    exact ⟨hown, hsize, hlink⟩
  have hsizes := forM_sizes_eq_ok fun m hm => (hbytes m hm).2.1
  -- the symlinks, from the tree after the first file
  have hlinks : ∀ T₁, Ready volume group.symlinks T₁ → ∃ T',
      group.symlinks.foldlM (fun T member => do
        let target ← (store.getBounded group.content maxSymlinkTargetBytes).mapError casError
        symlinkAt volume member target T) T₁ = .ok T' ∧ Adds store group.symlinks T₁ T' := by
    intro T₁ hready₁
    have hown : group.symlinks.flatMap (fun m => [m]) = group.symlinks := by simp
    have hnodup : ((group.symlinks.flatMap fun m => [m]).map Prod.snd).Nodup := by
      rw [hown]
      exact (List.filter_sublist.map Prod.snd).nodup hgroup.nodup
    have hstep : ∀ m ∈ group.symlinks, ∀ T, True → Ready volume [m] T → ∃ T',
        (do
          let target ← (store.getBounded group.content maxSymlinkTargetBytes).mapError casError
          symlinkAt volume m target T) = .ok T' ∧ Adds store [m] T T' := by
      intro m hm T _ hready
      obtain ⟨hmem, hkind⟩ := List.mem_filter.mp hm
      have hkind : m.1.kind = .symlink := by simpa using hkind
      obtain ⟨hheld, -, hlink⟩ := hbytes m hmem
      obtain ⟨hbound, htarget⟩ := hlink hkind
      obtain ⟨T', hT', hadds⟩ := exists_symlinkAt hready hheld hkind htarget
      refine ⟨T', bind_eq_ok.mpr ⟨bytes, ?_, hT'⟩, hadds⟩
      rw [ObjectStore.getBounded_eq_ok.mpr ⟨hfiled, hbound⟩]
      rfl
    obtain ⟨T', hT', hadds, -⟩ := exists_foldlM_adds _ (fun m : Placed => [m]) (fun _ => True)
      hstep (fun _ _ _ _ _ _ => trivial) hnodup trivial (by rw [hown]; exact hready₁)
    rw [hown] at hadds
    exact ⟨T', hT', hadds⟩
  cases hsource : group.regularSource with
  | some source =>
    have hmem := List.mem_of_find?_eq_some hsource
    have hkind : source.1.kind ≠ .symlink := by simpa using List.find?_some hsource
    have hfirsts : group.firsts = [source] ++ group.symlinks := by
      rw [ContentGroup.firsts, hsource]
      rfl
    have hapart : Apart [source] group.symlinks := by
      intro w hw w' hw' heq
      rw [List.mem_singleton.mp hw] at heq
      obtain ⟨hmem', hkind'⟩ := List.mem_filter.mp hw'
      have hsame : w' = source :=
        List.inj_on_of_nodup_map hgroup.nodup hmem' hmem heq
      rw [hsame] at hkind'
      exact hkind (by simpa using hkind')
    rw [hfirsts] at hready ⊢
    obtain ⟨T₁, hT₁, hadds₁⟩ := exists_publish (fun w hw => hready w (List.mem_append_left _ hw))
      (hbytes source hmem).1 hkind
    obtain ⟨T', hT', hadds⟩ := hlinks T₁ (hready.after hadds₁ hapart)
    refine ⟨T', ?_, hadds₁.append hadds hapart⟩
    have hread : (store.readVerified group.content).mapError casError = .ok bytes := by
      rw [ObjectStore.readVerified_eq_ok.mpr hfiled]
      rfl
    simp only [materializeGroupSource, hsource, hread, ok_bind, hT₁, pure_bind, hsizes]
    exact hT'
  | none =>
    have hkind : first.1.kind = .symlink := by
      simpa using List.find?_eq_none.mp hsource first hfirst
    have hfirsts : group.firsts = group.symlinks := by
      rw [ContentGroup.firsts, hsource]
      rfl
    rw [hfirsts] at hready ⊢
    obtain ⟨T', hT', hadds⟩ := hlinks T hready
    refine ⟨T', ?_, hadds⟩
    have hread : (store.getBounded group.content maxSymlinkTargetBytes).mapError casError =
        .ok bytes := by
      rw [ObjectStore.getBounded_eq_ok.mpr ⟨hfiled, ((hbytes first hfirst).2.2 hkind).1⟩]
      rfl
    simp only [materializeGroupSource, hsource, hread, ok_bind, pure_bind, hsizes]
    rw [hread] at hT'
    exact hT'

/-! ## Copies -/

/-- The copies are the members that the first phase leaves. -/
theorem map_fst_copies (groups : List ContentGroup) :
    (copies groups).map Prod.fst = groups.flatMap ContentGroup.duplicates := by
  unfold copies
  rw [List.map_flatMap]
  refine List.flatMap_congr fun group _ => ?_
  cases hsource : group.regularSource with
  | some source =>
    rw [List.map_map]
    exact List.map_id _
  | none =>
    have hall : ∀ m ∈ group.members, m.1.kind = .symlink := by
      intro m hm
      simpa using List.find?_eq_none.mp hsource m hm
    refine (List.filter_eq_nil_iff.mpr fun m hm => ?_).symm
    simp [hall m hm]

/-- The first files of the groups stand in the tree. -/
def SourcesStand (store : ObjectStore) (groups : List ContentGroup) (T : SourceTree) : Prop :=
  ∀ group ∈ groups, ∀ source, group.regularSource = some source →
    T.lookup source.2 = some (.leaf (entryLeaf store source.1))

theorem exists_copyFile {groups : List ContentGroup}
    (hgroups : ∀ group ∈ groups, GroupLoads store volume group)
    {copy : Placed × TreePath} (hcopy : copy ∈ copies groups) (hstand : SourcesStand store groups T)
    (hready : Ready volume [copy.1] T) :
    ∃ T', copyFile volume copy.2 copy.1 T = .ok T' ∧ Adds store [copy.1] T T' := by
  obtain ⟨group, hgroup, hmem⟩ := List.mem_flatMap.mp hcopy
  split at hmem
  case h_2 => cases hmem
  case h_1 source hsource =>
    obtain ⟨member, hmember, rfl⟩ := List.mem_map.mp hmem
    obtain ⟨hmember, hkind⟩ := List.mem_filter.mp hmember
    have hkind : member.1.kind ≠ .symlink := by
      simp only [Bool.and_eq_true, decide_eq_true_eq] at hkind
      exact hkind.1
    have hloads := hgroups group hgroup
    obtain ⟨bytes, hfiled, -, -⟩ := hloads.loads member hmember
    have hsourceFiled : store.Holds source.1.content bytes := by
      rw [hloads.content source (List.mem_of_find?_eq_some hsource),
        ← hloads.content member hmember]
      exact hfiled
    have hsourceKind : source.1.kind ≠ .symlink := by simpa using List.find?_some hsource
    have hstands := hstand group hgroup source hsource
    rw [entryLeaf_file hsourceFiled hsourceKind] at hstands
    obtain ⟨T', hT', hadds⟩ := exists_publish hready hfiled hkind
    have hfree := (hready member List.mem_cons_self).2.2.2
    refine ⟨T', ?_, hadds⟩
    simp only [copyFile, hstands, hfree]
    exact hT'

/-- The first phase and the copies, of every group. -/
theorem perm_writes {groups : List ContentGroup} {members : List Placed}
    (hgroups : Grouped groups members) (hnodup : members.Nodup) :
    (groups.flatMap ContentGroup.firsts ++ (copies groups).map Prod.fst).Perm members := by
  rw [map_fst_copies]
  refine (List.flatMap_append_perm _ _ _).trans (.trans ?_ hgroups.perm)
  refine List.Perm.flatMap_left _ fun group hgroup => ContentGroup.perm_firsts ?_
  have hall : (groups.flatMap ContentGroup.members).Nodup := hgroups.perm.nodup_iff.mpr hnodup
  exact (List.nodup_flatMap.mp hall).1 group hgroup

/-- **The two phases.** Members that load, at ready paths, are all written. -/
theorem exists_writes {members : List Placed} (hloads : ∀ m ∈ members, Loads store volume m.1)
    (hnodup : (members.map Prod.snd).Nodup) (hready : Ready volume members T) :
    ∃ T₁ T', (contentGroups members).foldlM (materializeGroupSource store volume) T = .ok T₁ ∧
      (copies (contentGroups members)).foldlM
        (fun T copy => copyFile volume copy.2 copy.1 T) T₁ = .ok T' ∧
      Adds store members T T' := by
  have hgrouped := grouped_contentGroups members
  have hperm := perm_writes hgrouped (List.Nodup.of_map _ hnodup)
  have hpaths := (hperm.map Prod.snd).nodup_iff.mpr hnodup
  rw [List.map_append, List.nodup_append] at hpaths
  have hsub : ∀ group ∈ contentGroups members, ∀ m ∈ group.members, m ∈ members :=
    fun group hgroup m hm => hgrouped.perm.mem_iff.mp (List.mem_flatMap.mpr ⟨group, hgroup, hm⟩)
  have hgroups : ∀ group ∈ contentGroups members, GroupLoads store volume group := by
    intro group hgroup
    refine ⟨hgrouped.content group hgroup, hgrouped.inhabited group hgroup,
      fun m hm => hloads m (hsub group hgroup m hm), ?_⟩
    have hall : ((contentGroups members).flatMap ContentGroup.members |>.map Prod.snd).Nodup :=
      (hgrouped.perm.map Prod.snd).nodup_iff.mpr hnodup
    rw [List.map_flatMap] at hall
    exact (List.nodup_flatMap.mp hall).1 group hgroup
  have hready : Ready volume
      ((contentGroups members).flatMap ContentGroup.firsts ++
        (copies (contentGroups members)).map Prod.fst) T :=
    fun w hw => hready w (hperm.mem_iff.mp hw)
  have hapart : Apart ((contentGroups members).flatMap ContentGroup.firsts)
      ((copies (contentGroups members)).map Prod.fst) := by
    intro w hw w' hw' heq
    exact hpaths.2.2 w.2 (List.mem_map_of_mem hw) w'.2 (List.mem_map_of_mem hw') heq.symm
  obtain ⟨T₁, hT₁, hfirsts, -⟩ := exists_foldlM_adds (materializeGroupSource store volume)
    ContentGroup.firsts (fun _ => True)
    (fun group hgroup T _ hready => exists_materializeGroupSource (hgroups group hgroup) hready)
    (fun _ _ _ _ _ _ => trivial) hpaths.1 trivial (fun w hw => hready w (List.mem_append_left _ hw))
  have hown : (copies (contentGroups members)).flatMap (fun copy => [copy.1]) =
      (copies (contentGroups members)).map Prod.fst := by
    induction copies (contentGroups members) with
    | nil => rfl
    | cons c cs ih => rw [List.flatMap_cons, ih]; rfl
  have hstand : SourcesStand store (contentGroups members) T₁ := by
    intro group hgroup source hsource
    refine hfirsts.leaf source (List.mem_flatMap.mpr ⟨group, hgroup, ?_⟩)
    rw [ContentGroup.firsts, hsource]
    exact List.mem_append_left _ (List.mem_singleton.mpr rfl)
  obtain ⟨T', hT', hcopies, -⟩ := exists_foldlM_adds
    (fun T (copy : Placed × TreePath) => copyFile volume copy.2 copy.1 T)
    (fun copy => [copy.1]) (SourcesStand store (contentGroups members))
    (fun copy hcopy T hstand hready => exists_copyFile hgroups hcopy hstand hready)
    (fun copy hcopy T T' hstand hadds group hgroup source hsource => by
      rw [hadds.other, hstand group hgroup source hsource]
      intro w hw heq
      rw [List.mem_singleton.mp hw] at heq
      refine hapart source (List.mem_flatMap.mpr ⟨group, hgroup, ?_⟩) copy.1
        (List.mem_map_of_mem hcopy) heq
      rw [ContentGroup.firsts, hsource]
      exact List.mem_append_left _ (List.mem_singleton.mpr rfl))
    (by rw [hown]; exact hpaths.2.1) hstand (by rw [hown]; exact hready.after hfirsts hapart)
  rw [hown] at hcopies
  refine ⟨T₁, T', hT₁, hT', ?_⟩
  have hadds := hfirsts.append hcopies hapart
  exact ⟨fun w hw => hadds.leaf w (hperm.mem_iff.mpr hw),
    fun p hp => hadds.other p fun w hw => hp w (hperm.mem_iff.mp hw)⟩

/-! ## Whole manifests -/

/-- What is asked of a manifest that is to be written. -/
structure Materializable (store : ObjectStore) (volume : Volume) (M : Manifest) : Prop where
  valid : M.validate = .ok ()
  paths : ∀ e ∈ M.entries, checkedRelativePath e.path e.kind = .ok (pathOf e)
  links : refuseSymlinkAncestors M (M.entries.map pathOf) = .ok ()
  loads : ∀ e ∈ M.entries, Loads store volume e
  names : ∀ e ∈ M.entries, ∀ name ∈ pathOf e, volume.acceptsName name = true
  /-- no entry is another, or an ancestor of another -/
  apart : ∀ a ∈ M.entries, ∀ b ∈ M.entries, pathOf a <+: pathOf b → a = b

/-- The paths of the manifest are free, and no leaf stands above one. -/
def Fits (M : Manifest) (T : SourceTree) : Prop :=
  ∀ e ∈ M.entries, T.lookup (pathOf e) = none ∧
    ∀ p l, p <+: pathOf e → T.lookup p ≠ some (.leaf l)

/-- The manifest stands in the tree, with the rest of the tree before it. -/
structure Written (store : ObjectStore) (M : Manifest) (T T' : SourceTree) : Prop where
  leaf : ∀ e ∈ M.entries, T'.lookup (pathOf e) = some (.leaf (entryLeaf store e))
  other : ∀ p, (∀ e ∈ M.entries, ¬ p <+: pathOf e) → T'.lookup p = T.lookup p

theorem pathOf_ne_nil (e : Entry) : pathOf e ≠ [] := List.splitOn_ne_nil _ _

theorem mapM_paths {entries : List Entry}
    (h : ∀ e ∈ entries, checkedRelativePath e.path e.kind = .ok (pathOf e)) :
    entries.mapM (fun e => checkedRelativePath e.path e.kind) = .ok (entries.map pathOf) := by
  induction entries with
  | nil => rfl
  | cons e entries ih =>
    rw [List.forall_mem_cons] at h
    rw [List.mapM_cons, h.1, ih h.2]
    rfl

theorem placed_eq (entries : List Entry) :
    entries.zip (entries.map pathOf) = entries.map fun e => (e, pathOf e) :=
  List.map_prod_left_eq_zip.symm

/-- **Writing a manifest.** Where it fits it is written. -/
theorem exists_materialize {M : Manifest} (hM : Materializable store volume M) (hfits : Fits M T) :
    ∃ T', materialize store volume M T = .ok T' ∧ Written store M T T' := by
  have hmembers : ∀ m ∈ M.entries.map (fun e => (e, pathOf e)),
      ∃ e ∈ M.entries, m = (e, pathOf e) := by
    intro m hm
    obtain ⟨e, he, rfl⟩ := List.mem_map.mp hm
    exact ⟨e, he, rfl⟩
  have hordered := (Manifest.validate_eq_ok.mp hM.valid).2
  have hnodup : ((M.entries.map fun e => (e, pathOf e)).map Prod.snd).Nodup := by
    rw [List.map_map]
    refine List.Nodup.map_on (fun a ha b hb heq => hM.apart a ha b hb ?_) ?_
    · rw [show pathOf a = pathOf b from heq]
    · refine hordered.imp ?_
      rintro a b hlt rfl
      exact List.lt_irrefl _ hlt
  have hnames : ∀ m ∈ M.entries.map (fun e => (e, pathOf e)), ∀ name ∈ m.2.dropLast,
      volume.acceptsName name = true := by
    intro m hm name hname
    obtain ⟨e, he, rfl⟩ := hmembers m hm
    exact hM.names e he name (List.mem_of_mem_dropLast hname)
  have hleaf : ∀ m ∈ M.entries.map (fun e => (e, pathOf e)), ∀ p l, p <+: m.2.dropLast →
      T.lookup p ≠ some (.leaf l) := by
    intro m hm p l hp
    obtain ⟨e, he, rfl⟩ := hmembers m hm
    exact (hfits e he).2 p l (hp.trans (List.dropLast_prefix _))
  obtain ⟨T₀, hT₀, hparents, hprepares⟩ :=
    exists_prepareDirectories hnames hleaf (FileTree.lookup_root T)
  have hready : Ready volume (M.entries.map fun e => (e, pathOf e)) T₀ := by
    intro w hw
    have hparent := hparents w hw
    obtain ⟨e, he, rfl⟩ := hmembers w hw
    refine ⟨pathOf_ne_nil e, ?_, hparent, ?_⟩
    · rw [List.getLast?_eq_some_getLast (pathOf_ne_nil e)]
      exact hM.names e he _ (List.getLast_mem _)
    · rw [hprepares.other]
      · exact (hfits e he).1
      · rintro ⟨m, hm, hstart⟩
        obtain ⟨e', he', rfl⟩ := hmembers m hm
        have hsame := hM.apart e he e' he' (hstart.trans (List.dropLast_prefix _))
        subst hsame
        have hle : (pathOf e).length ≤ (pathOf e).length - 1 := by simpa using hstart.length_le
        have hpos := List.length_pos_of_ne_nil (pathOf_ne_nil e)
        omega
  obtain ⟨T₁, T', hT₁, hT', hadds⟩ := exists_writes (fun m hm => by
    obtain ⟨e, he, rfl⟩ := hmembers m hm
    exact hM.loads e he) hnodup hready
  refine ⟨T', ?_, ?_, ?_⟩
  · simp only [materialize, hM.valid, mapM_paths hM.paths, hM.links, placed_eq, hT₀, hT₁, ok_bind,
      Except.mapError]
    exact hT'
  · intro e he
    exact hadds.leaf (e, pathOf e) (List.mem_map_of_mem he)
  · intro p hp
    rw [hadds.other, hprepares.other]
    · rintro ⟨m, hm, hstart⟩
      obtain ⟨e, he, rfl⟩ := hmembers m hm
      exact hp e he (hstart.trans (List.dropLast_prefix _))
    · intro w hw heq
      obtain ⟨e, he, rfl⟩ := hmembers w hw
      rw [← heq] at hp
      exact hp e he (List.prefix_refl _)

/-! ## A manifest that was written -/

/-- The volume took every name in the tree. -/
def Named (volume : Volume) (T : SourceTree) : Prop :=
  ∀ p node, T.lookup p = some node → ∀ name ∈ p, volume.acceptsName name = true

/-- What is a leaf stays one. -/
def KeepsLeaves (T T' : SourceTree) : Prop :=
  ∀ p l, T.lookup p = some (.leaf l) → ∃ l', T'.lookup p = some (.leaf l')

theorem KeepsLeaves.trans (h : KeepsLeaves T₁ T₂) (h' : KeepsLeaves T₂ T₃) :
    KeepsLeaves T₁ T₃ := by
  intro p l hp
  obtain ⟨l', hl'⟩ := h p l hp
  exact h' p l' hl'

theorem Named.placeNode {path : TreePath} {node : TreeNode SourceLeaf} (hT : Named volume T)
    (h : placeNode volume path node T = .ok T') : Named volume T' := by
  obtain ⟨hroot, hname, hparent, -, -, hother⟩ := placeNode_eq_ok h
  intro p n hp name hmem
  by_cases heq : p = path
  · subst heq
    rw [← List.dropLast_append_getLast hroot, List.mem_append, List.mem_singleton] at hmem
    rcases hmem with hmem | rfl
    · exact hT _ _ hparent name hmem
    · rw [List.getLast?_eq_some_getLast hroot] at hname
      exact hname
  · rw [hother p heq] at hp
    exact hT p n hp name hmem

theorem keepsLeaves_placeNode {path : TreePath} {l : SourceLeaf}
    (h : placeNode volume path (.leaf l) T = .ok T') :
    KeepsLeaves T T' ∧ T'.lookup path = some (.leaf l) := by
  obtain ⟨-, -, -, -, hnode, hother⟩ := placeNode_eq_ok h
  refine ⟨fun p l' hp => ?_, hnode⟩
  by_cases heq : p = path
  · exact ⟨l, heq ▸ hnode⟩
  · exact ⟨l', (hother p heq).trans hp⟩

theorem Named.prepareDirectories {members : List Placed} {previous : TreePath}
    (hT : Named volume T) (h : prepareDirectories volume members previous T = .ok T') :
    Named volume T' := by
  induction members generalizing previous T with
  | nil =>
    cases h
    exact hT
  | cons m members ih =>
    obtain ⟨T₁, hT₁, h⟩ := bind_eq_ok.mp h
    refine ih (foldlM_invariant (fun T depth T' _ hT hstep => ?_) hT hT₁) h
    unfold ensureDirectory at hstep
    split at hstep
    case h_1 =>
      cases hstep
      exact hT
    case h_2 => cases hstep
    case h_3 => exact hT.placeNode hstep

/-- What one write did. -/
structure Wrote (volume : Volume) (w : Placed) (T T' : SourceTree) : Prop where
  named : Named volume T → Named volume T'
  keeps : KeepsLeaves T T'
  leaf : ∃ l, T'.lookup w.2 = some (.leaf l)

theorem wrote_publish {w : Placed} {bytes : List UInt8} (h : publish volume w bytes T = .ok T') :
    Wrote volume w T T' := by
  obtain ⟨hkeeps, hleaf⟩ := keepsLeaves_placeNode h
  exact ⟨fun hT => hT.placeNode h, hkeeps, _, hleaf⟩

theorem wrote_symlinkAt {w : Placed} {target : List UInt8}
    (h : symlinkAt volume w target T = .ok T') :
    Wrote volume w T T' ∧ volume.acceptsTarget target = true := by
  unfold symlinkAt at h
  split_ifs at h with hthere htarget
  obtain ⟨hkeeps, hleaf⟩ := keepsLeaves_placeNode h
  exact ⟨⟨fun hT => hT.placeNode h, hkeeps, _, hleaf⟩, by simpa using htarget⟩

theorem wrote_copyFile {w : Placed} {source : TreePath}
    (h : copyFile volume source w T = .ok T') : Wrote volume w T T' := by
  unfold copyFile at h
  split at h
  · cases h
  · exact wrote_publish h
  · cases h

/-- What the first phase of one group did. -/
structure WroteGroup (store : ObjectStore) (volume : Volume) (group : ContentGroup)
    (T T' : SourceTree) : Prop where
  named : Named volume T → Named volume T'
  keeps : KeepsLeaves T T'
  leaf : ∀ w ∈ group.firsts, ∃ l, T'.lookup w.2 = some (.leaf l)
  loads : (∀ m ∈ group.members, m.1.content = group.content) →
    ∀ m ∈ group.members, Loads store volume m.1

/-- The symlinks of a group, one by one. -/
theorem wrote_symlinks {content : String} {links : List Placed}
    (h : links.foldlM (fun T member => do
      let target ← (store.getBounded content maxSymlinkTargetBytes).mapError casError
      symlinkAt volume member target T) T = .ok T') :
    (Named volume T → Named volume T') ∧ KeepsLeaves T T' ∧
      (∀ w ∈ links, ∃ l, T'.lookup w.2 = some (.leaf l)) ∧
      ∀ w ∈ links, ∃ target, store.Holds content target ∧
        target.length ≤ maxSymlinkTargetBytes ∧ volume.acceptsTarget target = true := by
  have hstep : ∀ (T : SourceTree) (w : Placed) T', (do
      let target ← (store.getBounded content maxSymlinkTargetBytes).mapError casError
      symlinkAt volume w target T) = .ok T' →
      Wrote volume w T T' ∧ ∃ target, store.Holds content target ∧
        target.length ≤ maxSymlinkTargetBytes ∧ volume.acceptsTarget target = true := by
    intro T w T' h
    obtain ⟨target, hread, h⟩ := bind_eq_ok.mp h
    obtain ⟨hheld, hbound⟩ := ObjectStore.getBounded_eq_ok.mp (mapError_eq_ok.mp hread)
    obtain ⟨hwrote, htarget⟩ := wrote_symlinkAt h
    exact ⟨hwrote, target, hheld, hbound, htarget⟩
  refine ⟨fun hT => ?_, ?_, ?_, fun w hw => ?_⟩
  · exact foldlM_invariant (fun T w T' _ hT h => (hstep T w T' h).1.named hT) hT h
  · refine foldlM_invariant (P := fun U => KeepsLeaves T U) (fun U w U' _ hU h => ?_)
      (fun p l hp => ⟨l, hp⟩) h
    exact hU.trans (hstep U w U' h).1.keeps
  · exact foldlM_each (fun T w T' h => (hstep T w T' h).1.leaf)
      (fun w T x T' ⟨l, hl⟩ h => (hstep T x T' h).1.keeps w.2 l hl) h
  · obtain ⟨U, U', hU⟩ := foldlM_steps h hw
    exact (hstep U w U' hU).2

theorem wrote_materializeGroupSource {group : ContentGroup}
    (h : materializeGroupSource store volume T group = .ok T') :
    WroteGroup store volume group T T' := by
  -- the first file or the first read, and the size both are checked against
  have hread : ∃ T₁ bytes, store.Holds group.content bytes ∧ (Named volume T → Named volume T₁) ∧
      KeepsLeaves T T₁ ∧ (∀ w ∈ group.regularSource.toList, ∃ l, T₁.lookup w.2 = some (.leaf l)) ∧
      (∀ m ∈ group.members, m.1.size = bytes.length) ∧
      group.symlinks.foldlM (fun T member => do
        let target ← (store.getBounded group.content maxSymlinkTargetBytes).mapError casError
        symlinkAt volume member target T) T₁ = .ok T' := by
    have hsizes : ∀ {size : ℕ}, (group.members.forM fun m =>
        if m.1.size = size then (.ok () : Except MaterializeError Unit)
        else .error (sizeError m.1 size)) = .ok () → ∀ m ∈ group.members, m.1.size = size := by
      intro size hsizes m hm
      have hone := forM_eq_ok.mp hsizes m hm
      split_ifs at hone with hsize
      exact hsize
    cases hsource : group.regularSource with
    | some source =>
      simp only [materializeGroupSource, hsource] at h
      obtain ⟨bytes, hbytes, h⟩ := bind_eq_ok.mp h
      obtain ⟨T₁, hT₁, h⟩ := bind_eq_ok.mp h
      obtain ⟨_, hpair, h⟩ := bind_eq_ok.mp h
      cases hpair
      obtain ⟨⟨⟩, hchecked, h⟩ := bind_eq_ok.mp h
      have hwrote := wrote_publish hT₁
      refine ⟨T₁, bytes, ObjectStore.readVerified_eq_ok.mp (mapError_eq_ok.mp hbytes),
        hwrote.named, hwrote.keeps, ?_, hsizes hchecked, h⟩
      simpa using hwrote.leaf
    | none =>
      simp only [materializeGroupSource, hsource] at h
      obtain ⟨bytes, hbytes, h⟩ := bind_eq_ok.mp h
      obtain ⟨_, hpair, h⟩ := bind_eq_ok.mp h
      cases hpair
      obtain ⟨⟨⟩, hchecked, h⟩ := bind_eq_ok.mp h
      exact ⟨T, bytes, (ObjectStore.getBounded_eq_ok.mp (mapError_eq_ok.mp hbytes)).1, id,
        fun p l hp => ⟨l, hp⟩, nofun, hsizes hchecked, h⟩
  obtain ⟨T₁, bytes, hheld, hnamed, hkeeps, hsource, hsizes, hlinks⟩ := hread
  obtain ⟨hnamed', hkeeps', hleaves, htargets⟩ := wrote_symlinks hlinks
  refine ⟨fun hT => hnamed' (hnamed hT), hkeeps.trans hkeeps', ?_, ?_⟩
  · intro w hw
    rcases List.mem_append.mp hw with hw | hw
    · obtain ⟨l, hl⟩ := hsource w hw
      exact hkeeps' w.2 l hl
    · exact hleaves w hw
  · intro hcontent m hm
    refine ⟨bytes, by rw [hcontent m hm]; exact hheld, hsizes m hm, fun hkind => ?_⟩
    obtain ⟨target, htarget, hbound, haccepts⟩ :=
      htargets m (List.mem_filter.mpr ⟨hm, by simpa using hkind⟩)
    have hsame : target = bytes := by
      have h := htarget.2.1
      rw [hheld.2.1] at h
      exact (Option.some.inj h).symm
    rw [← hsame]
    exact ⟨hbound, haccepts⟩

/-- Canonical paths of the same components are one. -/
theorem path_eq_of_pathOf {a b : Entry}
    (ha : isCanonicalPathEncoding a.path (decodePath a.path) = true)
    (hb : isCanonicalPathEncoding b.path (decodePath b.path) = true) (h : pathOf a = pathOf b) :
    a.path = b.path := by
  have hjoin := congrArg [slash].intercalate h
  rw [pathOf, pathOf, components, components, List.intercalate_splitOn,
    List.intercalate_splitOn] at hjoin
  apply pathBytes_inj
  rw [pathBytes_canonical ha, pathBytes_canonical hb, hjoin]

/-- Entries of one path in a valid manifest are one. -/
theorem eq_of_path {M : Manifest} (hvalid : M.validate = .ok ()) {a b : Entry}
    (ha : a ∈ M.entries) (hb : b ∈ M.entries) (h : a.path = b.path) : a = b :=
  List.inj_on_of_nodup_map (Manifest.validate_eq_ok.mp hvalid).2.nodup_paths ha hb h

/-- **A written manifest.** What is written into a tree of accepted names is materializable. -/
theorem materializable_of_materialize {M : Manifest} (hT : Named volume T)
    (h : materialize store volume M T = .ok T') : Materializable store volume M := by
  obtain ⟨⟨⟩, hvalid, h⟩ := bind_eq_ok.mp h
  obtain ⟨paths, hpaths, h⟩ := bind_eq_ok.mp h
  obtain ⟨⟨⟩, hlinks, h⟩ := bind_eq_ok.mp h
  obtain ⟨T₀, hT₀, h⟩ := bind_eq_ok.mp h
  obtain ⟨T₁, hT₁, hcopies⟩ := bind_eq_ok.mp h
  have hvalid := mapError_eq_ok.mp hvalid
  obtain ⟨rfl, haccepted⟩ := mapM_eq_ok_map (g := pathOf) checkedRelativePath_eq_ok hpaths
  rw [placed_eq] at hT₁ hcopies
  have hgrouped := grouped_contentGroups (M.entries.map fun e => (e, pathOf e))
  have hnodup : M.entries.Nodup := by
    refine (Manifest.validate_eq_ok.mp hvalid).2.imp ?_
    rintro a b hlt rfl
    exact List.lt_irrefl _ hlt
  have hnodup : (M.entries.map fun e => (e, pathOf e)).Nodup :=
    hnodup.map fun a b heq => (Prod.mk.inj heq).1
  have hperm := perm_writes hgrouped hnodup
  -- the names and the leaves of the two phases
  have hnamed : Named volume T' := by
    have hnamed₁ : Named volume T₁ := foldlM_invariant
      (fun T g T' _ hT h => (wrote_materializeGroupSource h).named hT)
      (hT.prepareDirectories hT₀) hT₁
    exact foldlM_invariant (fun T c T' _ hT h => (wrote_copyFile h).named hT) hnamed₁ hcopies
  have hkept : KeepsLeaves T₁ T' := by
    refine foldlM_invariant (P := fun U => KeepsLeaves T₁ U) (fun U c U' _ hU h => ?_)
      (fun p l hp => ⟨l, hp⟩) hcopies
    exact hU.trans (wrote_copyFile h).keeps
  have hfirsts : ∀ g ∈ contentGroups (M.entries.map fun e => (e, pathOf e)), ∀ w ∈ g.firsts,
      ∃ l, T₁.lookup w.2 = some (.leaf l) := by
    refine foldlM_each (P := fun g T => ∀ w ∈ ContentGroup.firsts g, ∃ l,
      FileTree.lookup T w.2 = some (.leaf l)) ?_ ?_ hT₁
    · exact fun T g T' h => (wrote_materializeGroupSource h).leaf
    · intro g T x T' hg h w hw
      obtain ⟨l, hl⟩ := hg w hw
      exact (wrote_materializeGroupSource h).keeps w.2 l hl
  have hothers : ∀ c ∈ copies (contentGroups (M.entries.map fun e => (e, pathOf e))),
      ∃ l, T'.lookup c.1.2 = some (.leaf l) := by
    refine foldlM_each (P := fun c T => ∃ l, FileTree.lookup T c.1.2 = some (.leaf l)) ?_ ?_ hcopies
    · exact fun T c T' h => (wrote_copyFile h).leaf
    · rintro c T x T' ⟨l, hl⟩ h
      exact (wrote_copyFile h).keeps c.1.2 l hl
  have hleaf : ∀ e ∈ M.entries, ∃ l, T'.lookup (pathOf e) = some (.leaf l) := by
    intro e he
    have hmem := hperm.mem_iff.mpr (List.mem_map_of_mem (f := fun e => (e, pathOf e)) he)
    rcases List.mem_append.mp hmem with hmem | hmem
    · obtain ⟨g, hg, hw⟩ := List.mem_flatMap.mp hmem
      obtain ⟨l, hl⟩ := hfirsts g hg _ hw
      exact hkept _ l hl
    · obtain ⟨c, hc, heq⟩ := List.mem_map.mp hmem
      have hleaf := hothers c hc
      rw [heq] at hleaf
      exact hleaf
  refine ⟨hvalid, haccepted, hlinks, ?_, ?_, ?_⟩
  · intro e he
    have hmem := hgrouped.perm.mem_iff.mpr (List.mem_map_of_mem (f := fun e => (e, pathOf e)) he)
    obtain ⟨g, hg, hm⟩ := List.mem_flatMap.mp hmem
    obtain ⟨U, U', hU⟩ := foldlM_steps hT₁ hg
    exact (wrote_materializeGroupSource hU).loads (hgrouped.content g hg) _ hm
  · intro e he name hname
    obtain ⟨l, hl⟩ := hleaf e he
    exact hnamed _ _ hl name hname
  · intro a ha b hb hstart
    by_cases heq : pathOf a = pathOf b
    · have hcanonical := (Manifest.validate_eq_ok.mp hvalid).1
      exact eq_of_path hvalid ha hb (path_eq_of_pathOf (hcanonical a ha) (hcanonical b hb) heq)
    · obtain ⟨l, hl⟩ := hleaf a ha
      obtain ⟨l', hl'⟩ := hleaf b hb
      rw [FileTree.lookup_of_proper hl' hstart heq] at hl
      cases hl

/-- Nothing is in the way in an empty tree. -/
theorem named_empty : Named volume FileTree.empty := by
  intro p node hp name hname
  rw [FileTree.lookup_empty (List.ne_nil_of_mem hname)] at hp
  cases hp

theorem fits_empty (M : Manifest) : Fits M FileTree.empty := by
  intro e he
  refine ⟨FileTree.lookup_empty (pathOf_ne_nil e), fun p l _ hp => ?_⟩
  by_cases hroot : p = []
  · rw [hroot] at hp
    cases hp
  · rw [FileTree.lookup_empty hroot] at hp
    cases hp

end Writes

end Afactory
