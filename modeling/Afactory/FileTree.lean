import Mathlib
import Afactory.OrdMap

/-!
# Trees of named leaves

A tree below a root directory: leaves of any kind and the directories above them, by path. A path
is the list of its names from the root.

* `FileTree`: the tree, with every parent of a present path a directory;
* `place`, `remove`, with `place_eq_some` and `remove_eq_some`;
* `lookup_of_proper`: every proper beginning of a present path is a directory;
* `NoEmptyDirectory`, `exists_leaf_below`: where no directory is empty each has a leaf below it;
* `eq_of_leaves`: a tree without an empty directory is determined by its leaves;
* `noEmptyDirectory_foldl_prune`: pruned deepest first, no listed directory is left empty.
-/

namespace Afactory

universe u v

/-- What stands at a path. -/
inductive TreeNode (L : Type v) where
  | directory
  | leaf (leaf : L)
  deriving DecidableEq, Repr

/-- The node at a path; the root is a directory. -/
def nodeAt {N : Type u} {L : Type v} [LinearOrder N] (nodes : OrdMap (List N) (TreeNode L))
    (path : List N) : Option (TreeNode L) :=
  if path = [] then some .directory else nodes.get path

structure FileTree (N : Type u) (L : Type v) [LinearOrder N] where
  nodes : OrdMap (List N) (TreeNode L)
  rooted : nodes.get [] = none
  parents : ∀ path node, nodes.get path = some node → nodeAt nodes path.dropLast = some .directory

namespace FileTree

variable {N : Type u} {L : Type v} [LinearOrder N]

instance [DecidableEq L] : DecidableEq (FileTree N L) := fun T T' =>
  decidable_of_iff (T.nodes = T'.nodes)
    ⟨fun h => by cases T; cases T'; simp_all, fun h => h ▸ rfl⟩

/-- The root alone. -/
def empty : FileTree N L := ⟨.empty, rfl, nofun⟩

def lookup (T : FileTree N L) (path : List N) : Option (TreeNode L) := nodeAt T.nodes path

variable {T T' : FileTree N L} {path other : List N} {node : TreeNode L}

@[simp] theorem lookup_root (T : FileTree N L) : T.lookup [] = some .directory := rfl

theorem lookup_of_ne (h : path ≠ []) : T.lookup path = T.nodes.get path := if_neg h

theorem lookup_empty (h : path ≠ []) : (empty : FileTree N L).lookup path = none :=
  lookup_of_ne h

/-- Two trees with the same lookups are one. -/
theorem ext (h : ∀ path, T.lookup path = T'.lookup path) : T = T' := by
  have hnodes : T.nodes = T'.nodes := by
    refine OrdMap.ext fun path => ?_
    by_cases hroot : path = []
    · rw [hroot, T.rooted, T'.rooted]
    · rw [← lookup_of_ne hroot, h path, lookup_of_ne hroot]
  cases T
  cases T'
  simp_all

/-- The parent of a present path is a directory. -/
theorem lookup_dropLast (h : T.lookup path = some node) :
    T.lookup path.dropLast = some .directory := by
  by_cases hroot : path = []
  · rw [hroot]
    rfl
  · rw [lookup_of_ne hroot] at h
    exact T.parents path node h

/-- Every proper beginning of a present path is a directory. -/
theorem lookup_of_proper (h : T.lookup path = some node) (hstart : other <+: path)
    (hne : other ≠ path) : T.lookup other = some .directory := by
  obtain ⟨rest, rfl⟩ := hstart
  induction rest using List.reverseRecOn generalizing node with
  | nil => exact absurd (List.append_nil other).symm hne
  | append_singleton rest name ih =>
    have hparent := lookup_dropLast h
    rw [← List.append_assoc, List.dropLast_concat] at hparent
    by_cases hrest : rest = []
    · rw [hrest, List.append_nil] at hparent
      exact hparent
    · refine ih hparent fun heq => hrest ?_
      exact List.append_right_eq_self.mp heq.symm

/-- Whether a directory stands at a path. -/
def isDirectory (T : FileTree N L) (path : List N) : Bool :=
  match T.lookup path with
  | some .directory => true
  | _ => false

theorem isDirectory_iff : T.isDirectory path = true ↔ T.lookup path = some .directory := by
  unfold isDirectory
  split <;> simp_all

/-! ## Changes -/

/-- Place a node: its parent is a directory and no directory stands in its place. -/
def place (T : FileTree N L) (path : List N) (node : TreeNode L) : Option (FileTree N L) :=
  if h : path ≠ [] ∧ T.isDirectory path.dropLast = true ∧ T.isDirectory path = false then
    some {
      nodes := T.nodes.insert path node
      rooted := by rw [OrdMap.get_insert, if_neg h.1.symm, T.rooted]
      parents := by
        obtain ⟨hroot, hparent, hplace⟩ := h
        rw [isDirectory_iff] at hparent
        have hplace : T.lookup path ≠ some .directory := by
          rw [← Bool.not_eq_true, isDirectory_iff] at hplace
          exact hplace
        have hkeep : ∀ p, T.lookup p = some .directory →
            nodeAt (T.nodes.insert path node) p = some .directory := by
          intro p hp
          by_cases hp' : p = []
          · rw [nodeAt, if_pos hp']
          · rw [nodeAt, if_neg hp', OrdMap.get_insert, if_neg]
            · rw [← lookup_of_ne hp', hp]
            · rintro rfl
              exact hplace hp
        intro p n hp
        rw [OrdMap.get_insert] at hp
        split_ifs at hp with heq
        · rw [heq]
          exact hkeep _ hparent
        · exact hkeep _ (T.parents p n hp) }
  else none

/-- Remove a node without children. -/
def remove (T : FileTree N L) (path : List N) : Option (FileTree N L) :=
  if h : path ≠ [] ∧ ∀ child ∈ T.nodes.keys, child.dropLast ≠ path then
    some {
      nodes := T.nodes.erase path
      rooted := by rw [OrdMap.get_erase, if_neg h.1.symm, T.rooted]
      parents := by
        obtain ⟨hroot, hchildren⟩ := h
        intro p n hp
        rw [OrdMap.get_erase] at hp
        split_ifs at hp with heq
        have hmem : p ∈ T.nodes.keys := OrdMap.mem_keys_iff.mpr ⟨n, hp⟩
        have hparent := T.parents p n hp
        unfold nodeAt at hparent ⊢
        split_ifs with hp'
        · rfl
        · rw [if_neg hp'] at hparent
          rw [OrdMap.get_erase, if_neg (hchildren p hmem), hparent] }
  else none

theorem place_eq_some (h : T.place path node = some T') :
    path ≠ [] ∧ T.lookup path.dropLast = some .directory ∧ T.lookup path ≠ some .directory ∧
      T'.lookup path = some node ∧ ∀ p, p ≠ path → T'.lookup p = T.lookup p := by
  unfold place at h
  split_ifs at h with hfit
  cases h
  rw [isDirectory_iff, ← Bool.not_eq_true, isDirectory_iff] at hfit
  refine ⟨hfit.1, hfit.2.1, hfit.2.2, ?_, fun p hp => ?_⟩
  · rw [lookup_of_ne hfit.1]
    exact OrdMap.get_insert_self _ _ _
  · by_cases hroot : p = []
    · rw [hroot]
      rfl
    · rw [lookup_of_ne hroot, lookup_of_ne hroot]
      exact OrdMap.get_insert_ne _ _ hp

/-- A node is placed where its parent is a directory and no directory stands. -/
theorem exists_place (hpath : path ≠ []) (hparent : T.lookup path.dropLast = some .directory)
    (hplace : T.lookup path ≠ some .directory) (node : TreeNode L) :
    ∃ T', T.place path node = some T' := by
  have hfit : path ≠ [] ∧ T.isDirectory path.dropLast = true ∧ T.isDirectory path = false := by
    rw [isDirectory_iff, ← Bool.not_eq_true, isDirectory_iff]
    exact ⟨hpath, hparent, hplace⟩
  unfold place
  rw [dif_pos hfit]
  exact ⟨_, rfl⟩

theorem remove_eq_some (h : T.remove path = some T') :
    T'.lookup path = none ∧ ∀ p, p ≠ path → T'.lookup p = T.lookup p := by
  unfold remove at h
  split_ifs at h with hfit
  cases h
  refine ⟨?_, fun p hp => ?_⟩
  · rw [lookup_of_ne hfit.1]
    exact OrdMap.get_erase_self _ _
  · by_cases hroot : p = []
    · rw [hroot]
      rfl
    · rw [lookup_of_ne hroot, lookup_of_ne hroot, OrdMap.get_erase, if_neg hp]

/-- A node without children is removed. -/
theorem exists_remove (hpath : path ≠ []) (hleaf : ∀ name, T.lookup (path ++ [name]) = none) :
    ∃ T', T.remove path = some T' := by
  unfold remove
  rw [dif_pos]
  · exact ⟨_, rfl⟩
  refine ⟨hpath, fun child hchild hparent => ?_⟩
  obtain ⟨n, hn⟩ := OrdMap.mem_keys_iff.mp hchild
  have hroot : child ≠ [] := by
    rintro rfl
    rw [T.rooted] at hn
    cases hn
  have hsplit : child = path ++ [child.getLast hroot] := by
    rw [← hparent]
    exact (List.dropLast_append_getLast hroot).symm
  have hnone := hleaf (child.getLast hroot)
  rw [← hsplit, lookup_of_ne hroot, hn] at hnone
  cases hnone

/-! ## Leaves -/

/-- The leaves with their paths, in the order of the paths. -/
def leaves (T : FileTree N L) : List (List N × L) :=
  T.nodes.entries.filterMap fun (path, node) =>
    match node with
    | .directory => none
    | .leaf l => some (path, l)

theorem mem_leaves {l : L} : (path, l) ∈ T.leaves ↔ T.lookup path = some (.leaf l) := by
  unfold leaves
  rw [List.mem_filterMap]
  constructor
  · rintro ⟨⟨p, n⟩, hmem, h⟩
    cases n with
    | directory => cases h
    | leaf l' =>
      cases h
      have hget := OrdMap.mem_iff_get.mp hmem
      rw [lookup_of_ne, hget]
      rintro rfl
      rw [T.rooted] at hget
      cases hget
  · intro h
    have hroot : path ≠ [] := by
      rintro rfl
      cases h
    rw [lookup_of_ne hroot] at h
    exact ⟨(path, .leaf l), OrdMap.mem_iff_get.mpr h, rfl⟩

theorem nodup_leaves_fst (T : FileTree N L) : (T.leaves.map Prod.fst).Nodup := by
  have hsub : (T.leaves.map Prod.fst).Sublist T.nodes.keys := by
    unfold leaves OrdMap.keys
    induction T.nodes.entries with
    | nil => exact .slnil
    | cons x entries ih =>
      obtain ⟨p, n⟩ := x
      cases n with
      | directory => exact ih.cons p
      | leaf l => exact ih.cons_cons p
  exact hsub.nodup (OrdMap.keys_nodup _)

/-- Every directory but the root has something in it. -/
def NoEmptyDirectory (T : FileTree N L) : Prop :=
  ∀ path, path ≠ [] → T.lookup path = some .directory →
    ∃ name node, T.lookup (path ++ [name]) = some node

/-- Where no directory is empty, each has a leaf below it. -/
theorem exists_leaf_below (hT : T.NoEmptyDirectory) (hpath : path ≠ [])
    (h : T.lookup path = some .directory) :
    ∃ rest l, rest ≠ [] ∧ T.lookup (path ++ rest) = some (.leaf l) := by
  -- the paths of the tree are bounded, so the descent ends
  obtain ⟨bound, hbound⟩ : ∃ bound, ∀ p ∈ T.nodes.keys, p.length ≤ bound :=
    ⟨(T.nodes.keys.map List.length).sum, fun p hp =>
      List.single_le_sum (fun _ _ => Nat.zero_le _) _ (List.mem_map_of_mem hp)⟩
  induction hfuel : bound + 1 - path.length generalizing path with
  | zero =>
    rw [lookup_of_ne hpath] at h
    have := hbound path (OrdMap.mem_keys_iff.mpr ⟨_, h⟩)
    omega
  | succ fuel ih =>
    obtain ⟨name, node, hchild⟩ := hT path hpath h
    cases node with
    | leaf l => exact ⟨[name], l, by simp, hchild⟩
    | directory =>
      obtain ⟨rest, l, -, hleaf⟩ := ih (by simp) hchild (by
        rw [List.length_append, List.length_singleton]
        omega)
      refine ⟨name :: rest, l, by simp, ?_⟩
      rw [List.append_assoc] at hleaf
      exact hleaf

/-- **Determined by its leaves.** Two trees without an empty directory and with the same leaves
are one. -/
theorem eq_of_leaves (hT : T.NoEmptyDirectory) (hT' : T'.NoEmptyDirectory)
    (h : ∀ path l, T.lookup path = some (.leaf l) ↔ T'.lookup path = some (.leaf l)) : T = T' := by
  have hdirectory : ∀ {T T' : FileTree N L}, T.NoEmptyDirectory →
      (∀ path l, T.lookup path = some (.leaf l) → T'.lookup path = some (.leaf l)) →
      ∀ path, T.lookup path = some .directory → T'.lookup path = some .directory := by
    intro T T' hT h path hpath
    by_cases hroot : path = []
    · rw [hroot]
      rfl
    · obtain ⟨rest, l, hrest, hleaf⟩ := exists_leaf_below hT hroot hpath
      refine lookup_of_proper (h _ l hleaf) (List.prefix_append path rest) fun heq => hrest ?_
      exact List.append_right_eq_self.mp heq.symm
  have hone := hdirectory hT fun path l hl => (h path l).mp hl
  have htwo := hdirectory hT' fun path l hl => (h path l).mpr hl
  refine ext fun path => ?_
  cases hlookup : T.lookup path with
  | some node =>
    cases node with
    | directory => exact (hone path hlookup).symm
    | leaf l => exact ((h path l).mp hlookup).symm
  | none =>
    cases hlookup' : T'.lookup path with
    | none => rfl
    | some node =>
      cases node with
      | directory =>
        rw [htwo path hlookup'] at hlookup
        cases hlookup
      | leaf l =>
        rw [(h path l).mpr hlookup'] at hlookup
        cases hlookup

/-! ## Pruning -/

/-- Remove a directory, if it is one and is empty. -/
def prune (T : FileTree N L) (path : List N) : FileTree N L :=
  if T.isDirectory path then (T.remove path).getD T else T

/-- Paths before their parents: after each of them its parent comes, if that is not the root. -/
def DeepestFirst : List (List N) → Prop
  | [] => True
  | path :: rest => path ≠ [] ∧ (path.dropLast ≠ [] → path.dropLast ∈ rest) ∧ DeepestFirst rest

/-- Every empty directory but the root is one of these. -/
def EmptyWithin (T : FileTree N L) (dirs : List (List N)) : Prop :=
  ∀ path, path ≠ [] → T.lookup path = some .directory →
    (∀ name, T.lookup (path ++ [name]) = none) → path ∈ dirs

theorem lookup_prune_cases (T : FileTree N L) (path : List N) :
    T.prune path = T ∨ (T.lookup path = some .directory ∧ (T.prune path).lookup path = none ∧
      ∀ p, p ≠ path → (T.prune path).lookup p = T.lookup p) := by
  unfold prune
  split_ifs with hdirectory
  · cases hremove : T.remove path with
    | none => exact .inl rfl
    | some T' => exact .inr ⟨isDirectory_iff.mp hdirectory, remove_eq_some hremove⟩
  · exact .inl rfl

theorem lookup_leaf_prune {l : L} (T : FileTree N L) (path : List N) :
    (T.prune path).lookup other = some (.leaf l) ↔ T.lookup other = some (.leaf l) := by
  rcases lookup_prune_cases T path with hsame | ⟨hdirectory, hgone, hother⟩
  · rw [hsame]
  · by_cases heq : other = path
    · rw [heq, hgone, hdirectory]
      simp
    · rw [hother other heq]

theorem lookup_leaf_foldl_prune {dirs : List (List N)} {l : L} :
    (dirs.foldl prune T).lookup other = some (.leaf l) ↔ T.lookup other = some (.leaf l) := by
  induction dirs generalizing T with
  | nil => rfl
  | cons path dirs ih => rw [List.foldl_cons, ih, lookup_leaf_prune]

/-- One directory is pruned: what is empty after it is among the rest. -/
theorem EmptyWithin.prune {dirs : List (List N)} (hdeepest : DeepestFirst (path :: dirs))
    (h : T.EmptyWithin (path :: dirs)) : (T.prune path).EmptyWithin dirs := by
  obtain ⟨hroot, hparent, -⟩ := hdeepest
  intro dir hdir hdirectory hempty
  rcases lookup_prune_cases T path with hsame | ⟨-, hgone, hother⟩
  · rw [hsame] at hdirectory hempty
    rcases List.mem_cons.mp (h dir hdir hdirectory hempty) with rfl | hmem
    · -- an empty directory would have gone
      obtain ⟨T', hT'⟩ := exists_remove hdir hempty
      have hprune : T.prune dir = T' := by
        rw [FileTree.prune, if_pos (isDirectory_iff.mpr hdirectory), hT']
        rfl
      have hnone := (remove_eq_some hT').1
      rw [← hprune, hsame, hdirectory] at hnone
      cases hnone
    · exact hmem
  · have hne : dir ≠ path := by
      rintro rfl
      rw [hgone] at hdirectory
      cases hdirectory
    rw [hother dir hne] at hdirectory
    by_cases hchild : dir = path.dropLast
    · rw [hchild]
      exact hparent (hchild ▸ hdir)
    · have hbefore : ∀ name, T.lookup (dir ++ [name]) = none := by
        intro name
        rw [← hother _ fun heq => hchild (by rw [← heq, List.dropLast_concat])]
        exact hempty name
      exact (List.mem_cons.mp (h dir hdir hdirectory hbefore)).resolve_left hne

/-- **Pruned deepest first.** Where every empty directory is listed, none is left. -/
theorem noEmptyDirectory_foldl_prune {dirs : List (List N)} (hdeepest : DeepestFirst dirs)
    (h : T.EmptyWithin dirs) : (dirs.foldl FileTree.prune T).NoEmptyDirectory := by
  induction dirs generalizing T with
  | nil =>
    intro path hroot hdirectory
    by_contra hnone
    refine List.not_mem_nil (h path hroot hdirectory fun name => ?_)
    by_contra hsome
    obtain ⟨node, hnode⟩ := Option.ne_none_iff_exists'.mp hsome
    exact hnone ⟨name, node, hnode⟩
  | cons path dirs ih => exact ih hdeepest.2.2 (h.prune hdeepest)

/-- A descending list of paths that has the parents of its members. -/
theorem deepestFirst_of_descending {dirs : List (List N)} (hsorted : dirs.Pairwise fun p q => q < p)
    (hroot : [] ∉ dirs) (hparent : ∀ p ∈ dirs, p.dropLast ≠ [] → p.dropLast ∈ dirs) :
    DeepestFirst dirs := by
  have hlt : ∀ p : List N, p ≠ [] → p.dropLast < p := by
    intro p hp
    calc p.dropLast = p.dropLast ++ [] := (List.append_nil _).symm
      _ < p.dropLast ++ [p.getLast hp] := List.append_left_lt (List.nil_lt_cons _ _)
      _ = p := List.dropLast_append_getLast hp
  induction dirs with
  | nil => trivial
  | cons path dirs ih =>
    obtain ⟨hfirst, hrest⟩ := List.pairwise_cons.mp hsorted
    rw [List.mem_cons, not_or] at hroot
    refine ⟨Ne.symm hroot.1, fun hne => ?_, ih hrest hroot.2 fun p hp hne => ?_⟩
    · refine (List.mem_cons.mp (hparent path List.mem_cons_self hne)).resolve_left ?_
      exact (hlt path (Ne.symm hroot.1)).ne
    · refine (List.mem_cons.mp (hparent p (List.mem_cons_of_mem _ hp) hne)).resolve_left ?_
      have hp' : p ≠ [] := fun heq => hroot.2 (heq ▸ hp)
      exact ((hlt p hp').trans (hfirst p hp)).ne

end FileTree

end Afactory
