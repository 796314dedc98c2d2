import Mathlib
import Afactory.SealWalk

/-!
# A seal reports what changed

* `SealedTree`: a tree whose names a directory can list;
* `canonical_encode`: the spelling of a tree path is canonical;
* `Reports`: what the manifest and the mutations of a tree are;
* `seal_reports`: that they are, and what they say of the tree.
-/

namespace Afactory

namespace Seal

open Splitting

variable {digest : List UInt8 → String} {baseline : Manifest}

/-! ## Names -/

/-- What a directory may list. -/
def ValidName (name : FileName) : Prop :=
  name ≠ [] ∧ slash ∉ name ∧ name ≠ [dot] ∧ name ≠ [dot, dot]

mutual

/-- Every directory lists valid names, each once. -/
def SealedNode.Named : SealedNode → Prop
  | .leaf _ => True
  | .directory children => NamedBelow children

def NamedBelow : List (FileName × SealedNode) → Prop
  | [] => True
  | (name, node) :: rest =>
    ValidName name ∧ node.Named ∧ name ∉ rest.map Prod.fst ∧ NamedBelow rest

end

/-- The tree below a root. -/
structure SealedTree where
  root : List (FileName × SealedNode)
  named : NamedBelow root

def SealedTree.leaves (tree : SealedTree) : List (TreePath × SealedLeaf) := leavesBelow [] tree.root

/-- The files and links of the tree. -/
def SealedTree.found (tree : SealedTree) : List Found := foundBelow ([], tree.root)

/-- Their paths. -/
def SealedTree.paths (tree : SealedTree) : List String := tree.found.map relative

mutual

theorem SealedNode.leaves_below (path : TreePath) : ∀ (node : SealedNode), node.Named →
    ((node.leaves path).map Prod.fst).Nodup ∧
      ∀ x ∈ node.leaves path, ∃ rest, x.1 = path ++ rest ∧ ∀ name ∈ rest, ValidName name
  | .leaf leaf, _ => by
    rw [SealedNode.leaves]
    refine ⟨List.nodup_singleton _, fun x hx => ⟨[], ?_, nofun⟩⟩
    rw [List.mem_singleton.mp hx, List.append_nil]
  | .directory children, h => by
    rw [SealedNode.leaves]
    obtain ⟨hnodup, hbelow⟩ := leavesBelow_below path children (by rwa [SealedNode.Named] at h)
    refine ⟨hnodup, fun x hx => ?_⟩
    obtain ⟨name, rest, -, hx, hvalid⟩ := hbelow x hx
    exact ⟨name :: rest, hx, hvalid⟩

theorem leavesBelow_below (path : TreePath) : ∀ (children : List (FileName × SealedNode)),
    NamedBelow children → ((leavesBelow path children).map Prod.fst).Nodup ∧
      ∀ x ∈ leavesBelow path children, ∃ name rest, name ∈ children.map Prod.fst ∧
        x.1 = path ++ name :: rest ∧ ∀ n ∈ name :: rest, ValidName n
  | [], _ => by
    rw [leavesBelow]
    exact ⟨List.nodup_nil, nofun⟩
  | (name, node) :: children, h => by
    rw [NamedBelow] at h
    obtain ⟨hvalid, hnode, hnew, hrest⟩ := h
    obtain ⟨hnodup, hbelow⟩ := node.leaves_below (path ++ [name]) hnode
    obtain ⟨hnodup', hbelow'⟩ := leavesBelow_below path children hrest
    rw [leavesBelow, List.map_append]
    refine ⟨List.nodup_append.mpr ⟨hnodup, hnodup', ?_⟩, fun x hx => ?_⟩
    · intro p hp q hq heq
      obtain ⟨x, hx, rfl⟩ := List.mem_map.mp hp
      obtain ⟨y, hy, rfl⟩ := List.mem_map.mp hq
      obtain ⟨rest, hx, -⟩ := hbelow x hx
      obtain ⟨other, rest', hother, hy, -⟩ := hbelow' y hy
      rw [hx, hy, List.append_assoc, List.singleton_append] at heq
      obtain ⟨rfl, -⟩ := List.cons.inj (List.append_cancel_left heq)
      exact hnew hother
    · rcases List.mem_append.mp hx with hx | hx
      · obtain ⟨rest, hx, hnames⟩ := hbelow x hx
        refine ⟨name, rest, List.mem_cons_self, by rw [hx]; simp, fun n hn => ?_⟩
        rcases List.mem_cons.mp hn with rfl | hn
        · exact hvalid
        · exact hnames n hn
      · obtain ⟨other, rest, hother, hx, hnames⟩ := hbelow' x hx
        exact ⟨other, rest, List.mem_cons_of_mem _ hother, hx, hnames⟩

end

/-! ## Spellings -/

set_option maxRecDepth 10000 in
-- one case per byte: deeper than the default
theorem plainByte_char : ∀ b : UInt8, plainByte b = true → b < 128 ∧ b ≠ percent ∧ b ≠ 0 ∧
    isWhiteSpace (Char.ofNat b.toNat) = false := by decide

set_option maxRecDepth 10000 in
theorem encodeByte_percent : ∀ b : UInt8, '%' ∈ encodeByte b ↔ ¬ plainByte b = true := by
  decide

theorem splitOn_joinPath {path : TreePath} (hpath : path ≠ [])
    (hnames : ∀ name ∈ path, ValidName name) : (joinPath path).splitOn slash = path :=
  List.splitOn_intercalate slash (fun name hname => (hnames name hname).2.1) hpath

/-- Bytes that are written as they are are text. -/
theorem textBytes_plain {bytes : List UInt8} (h : ∀ b ∈ bytes, plainByte b = true) :
    bytes = textBytes (bytes.map fun b => Char.ofNat b.toNat) := by
  induction bytes with
  | nil => rfl
  | cons b bytes ih =>
    have hb := (asciiLower_char b (plainByte_char b (h b List.mem_cons_self)).1).2.1
    have hrest := ih fun c hc => h c (List.mem_cons_of_mem b hc)
    rw [List.map_cons, textBytes, List.flatMap_cons, hb, ← textBytes, ← hrest]
    rfl

set_option maxRecDepth 10000 in
/-- A tree path that is written as it is is a repository path. -/
theorem validLiteral_plain {path : TreePath} (hpath : path ≠ [])
    (hnames : ∀ name ∈ path, ValidName name)
    (hplain : ∀ b ∈ joinPath path, plainByte b = true) : validLiteral (joinPath path) = true := by
  have htext := textBytes_plain hplain
  have hsplit := splitOn_joinPath hpath hnames
  have hparts : ∀ part ∈ ((joinPath path).map fun b => Char.ofNat b.toNat).splitOn '/',
      textBytes part ∈ path := fun part hpart => by
    have hmem := List.mem_map_of_mem (f := textBytes) hpart
    rwa [← splitOn_textBytes, ← htext, hsplit] at hmem
  have hchars : ∀ c ∈ (joinPath path).map fun b => Char.ofNat b.toNat,
      isWhiteSpace c = false ∧ c ≠ '\x00' := by
    intro c hc
    obtain ⟨b, hb, rfl⟩ := List.mem_map.mp hc
    obtain ⟨hlow, -, hzero, hspace⟩ := plainByte_char b (hplain b hb)
    refine ⟨hspace, fun hnul => hzero ?_⟩
    have hnone : ∀ b : UInt8, b < 128 → Char.ofNat b.toNat = '\x00' → b = 0 := by decide
    exact hnone b hlow hnul
  rw [validLiteral, htext, readUtf8_textBytes]
  generalize (joinPath path).map (fun b => Char.ofNat b.toNat) = cs at hparts hchars
  have hempty : cs ≠ [] := by
    rintro rfl
    exact (hnames _ (hparts [] (by simp))).1 rfl
  have hroot : cs.head? ≠ some '/' := by
    intro hhead
    obtain ⟨rest, rfl⟩ := List.head?_eq_some_iff.mp hhead
    exact (hnames _ (hparts [] (by simp [splitOn_cons_self]))).1 rfl
  have hall : ∀ part ∈ cs.splitOn '/', part ≠ [] ∧ part ≠ ['.'] ∧ part ≠ ['.', '.'] := by
    intro part hpart
    obtain ⟨hne, -, hdot, hdots⟩ := hnames _ (hparts part hpart)
    refine ⟨?_, ?_, ?_⟩ <;> rintro rfl
    · exact hne rfl
    · exact hdot (by decide)
    · exact hdots (by decide)
  have htrim : trimmed (String.ofList cs) = true := by
    rw [trimmed, String.toList_ofList]
    cases hlast : cs.getLast? with
    | none => exact absurd (List.getLast?_eq_none_iff.mp hlast) hempty
    | some last =>
      cases hhead : cs.head? with
      | none => exact absurd (List.head?_eq_none_iff.mp hhead) hempty
      | some head =>
        simp [(hchars head (List.mem_of_head? hhead)).1,
          (hchars last (List.mem_of_getLast? hlast)).1]
  have hnul : '\x00' ∉ cs := fun hmem => (hchars _ hmem).2 rfl
  simp only [isValidRepoPath, htrim, String.toList_ofList, Bool.and_eq_true, Bool.not_eq_true',
    decide_eq_true_eq, List.all_eq_true, Bool.or_eq_false_iff, decide_eq_false_iff_not]
  refine ⟨⟨⟨⟨?_, trivial⟩, hroot⟩, by simpa using hnul⟩, fun part hpart => ?_⟩
  · simpa using hempty
  · obtain ⟨hne, hdot, hdots⟩ := hall part hpart
    exact ⟨⟨hne, hdot⟩, hdots⟩

/-- **The spelling of a tree path is canonical.** -/
theorem canonical_encode {path : TreePath} (hpath : path ≠ [])
    (hnames : ∀ name ∈ path, ValidName name) :
    isCanonicalPathEncoding (encodeRawPath (joinPath path))
      (decodePath (encodeRawPath (joinPath path))) = true := by
  rw [isCanonicalPathEncoding_iff, decodePath_encodeRawPath]
  refine ⟨rfl, ?_⟩
  by_cases hplain : ∀ b ∈ joinPath path, plainByte b = true
  · exact .inr (validLiteral_plain hpath hnames hplain)
  · push Not at hplain
    obtain ⟨b, hb, hno⟩ := hplain
    have hescaped : '%' ∈ (String.ofList ((joinPath path).flatMap encodeByte)).toList := by
      rw [String.toList_ofList, List.mem_flatMap]
      exact ⟨b, hb, (encodeByte_percent b).mpr hno⟩
    rw [encodeRawPath, validLiteral]
    cases hread : readUtf8 (joinPath path) with
    | none => exact .inl hescaped
    | some text =>
      simp only
      split_ifs with hliteral
      · exact .inr (Bool.and_eq_true_iff.mp hliteral).2
      · exact .inl hescaped

theorem joinPath_inj {path path' : TreePath} (hpath : path ≠ []) (hpath' : path' ≠ [])
    (hnames : ∀ name ∈ path, ValidName name) (hnames' : ∀ name ∈ path', ValidName name)
    (h : joinPath path = joinPath path') : path = path' := by
  rw [← splitOn_joinPath hpath hnames, h, splitOn_joinPath hpath' hnames']

/-! ## Every file and link -/

theorem mem_found {tree : SealedTree} {x : Found} (h : x ∈ tree.found) :
    (x.1, SealedLeaf.source x.2) ∈ tree.leaves := by
  obtain ⟨⟨path, leaf⟩, hleaf, hsource⟩ := List.mem_filterMap.mp h
  cases leaf with
  | special kind => cases hsource
  | source leaf =>
    obtain rfl := Option.some.inj hsource
    exact hleaf

theorem SealedTree.path_spec {tree : SealedTree} {x : Found} (h : x ∈ tree.found) :
    x.1 ≠ [] ∧ ∀ name ∈ x.1, ValidName name := by
  obtain ⟨name, rest, -, hpath, hvalid⟩ :=
    (leavesBelow_below [] tree.root tree.named).2 _ (mem_found h)
  rw [List.nil_append] at hpath
  simp only at hpath
  rw [hpath]
  exact ⟨List.cons_ne_nil _ _, hvalid⟩

/-- Every path of a tree is spelled canonically, and once. -/
theorem SealedTree.paths_spec (tree : SealedTree) :
    tree.paths.Nodup ∧ ∀ x ∈ tree.found,
      isCanonicalPathEncoding (relative x) (decodePath (relative x)) = true := by
  refine ⟨?_, fun x hx => canonical_encode (tree.path_spec hx).1 (tree.path_spec hx).2⟩
  have hnodup : (tree.found.map Prod.fst).Nodup := by
    have hleaves := (leavesBelow_below [] tree.root tree.named).1
    refine hleaves.sublist ?_
    rw [SealedTree.found, foundBelow]
    induction leavesBelow [] tree.root with
    | nil => exact .slnil
    | cons x leaves ih =>
      obtain ⟨path, leaf⟩ := x
      cases leaf with
      | special kind => exact ih.cons _
      | source leaf => exact ih.cons_cons _
  rw [SealedTree.paths]
  refine List.Nodup.map_on (fun x hx y hy hxy => ?_) (List.Nodup.of_map _ hnodup)
  obtain ⟨hx₁, hx₂⟩ := tree.path_spec hx
  obtain ⟨hy₁, hy₂⟩ := tree.path_spec hy
  exact List.inj_on_of_nodup_map hnodup hx hy
    (joinPath_inj hx₁ hy₁ hx₂ hy₂ (encodeRawPath_injective hxy))

/-! ## What is found against the baseline -/

/-- The paths of the baseline. -/
def pathsOf (baseline : Manifest) : List String := baseline.entries.map Entry.path

/-- The entry of a file or link: its content is read only where the baseline has the path. -/
def entryOf (digest : List UInt8 → String) (baseline : Manifest) (x : Found) : Entry where
  path := relative x
  kind := kindOf x.2
  content := if relative x ∈ pathsOf baseline then digest (bytesOf x.2) else ""
  size := (bytesOf x.2).length

theorem classOf_cases (digest : List UInt8 → String) (h : baseline.validate = .ok ()) (x : Found) :
    (relative x ∉ pathsOf baseline ∧ classOf baseline x = .added (entryOf digest baseline x)) ∨
    ∃ position previous, relative x ∈ pathsOf baseline ∧
      baseline.entries[position]? = some previous ∧ previous.path = relative x ∧
        classOf baseline x = .baseline position ⟨relative x, x.2, previous⟩ := by
  rw [classOf, classifyLeaf]
  cases hposition : baselinePosition baseline (relative x) with
  | none =>
    have hnew : relative x ∉ pathsOf baseline := fun hmem => by
      obtain ⟨entry, hentry, hpath⟩ := List.mem_map.mp hmem
      obtain ⟨position, hget⟩ := List.mem_iff_getElem?.mp hentry
      rw [(baselinePosition_eq_some h).mpr ⟨entry, hget, hpath⟩] at hposition
      cases hposition
    exact .inl ⟨hnew, by simp [entryOf, hnew]⟩
  | some position =>
    obtain ⟨previous, hget, hpath⟩ := (baselinePosition_eq_some h).mp hposition
    refine .inr ⟨position, previous, ?_, hget, hpath, by simp [hget]⟩
    exact List.mem_map.mpr ⟨previous, List.mem_of_getElem? hget, hpath⟩

/-- Every file and link has one entry. -/
theorem entries_found (h : baseline.validate = .ok ()) (found : List Found) :
    (addedOf baseline found : Multiset Entry) +
        hashedOf digest ((candidatesOf baseline found).map Prod.snd) =
      found.map (entryOf digest baseline) := by
  induction found with
  | nil => rfl
  | cons x found ih =>
    simp only [addedOf, candidatesOf, List.filterMap_cons] at ih ⊢
    rw [List.map_cons, ← Multiset.cons_coe, ← ih]
    rcases classOf_cases digest h x with ⟨hnew, hclass⟩ | ⟨position, previous, hold, -, -, hclass⟩
    · simp only [hclass, ClassifiedEntry.added?, ClassifiedEntry.candidate?, ← Multiset.cons_coe,
        Multiset.cons_add]
    · have hentry : (hashCandidate digest ⟨relative x, x.2, previous⟩).1 =
          entryOf digest baseline x := by
        simp [hashCandidate, entryOf, hold]
      simp only [hclass, ClassifiedEntry.added?, ClassifiedEntry.candidate?, hashedOf,
        List.map_cons, ← Multiset.cons_coe, Multiset.add_cons, hentry]

theorem addedOf_paths (h : baseline.validate = .ok ()) (found : List Found) :
    (addedOf baseline found).map Entry.path =
      (found.map relative).filter (· ∉ pathsOf baseline) := by
  induction found with
  | nil => rfl
  | cons x found ih =>
    simp only [addedOf, List.filterMap_cons] at ih ⊢
    rcases classOf_cases (fun _ => "") h x with
      ⟨hnew, hclass⟩ | ⟨position, previous, hold, -, -, hclass⟩
    · have hadded : (classOf baseline x).added? = some (entryOf (fun _ => "") baseline x) := by
        rw [hclass]
        rfl
      rw [hadded, List.map_cons, List.map_cons, ih, List.filter_cons_of_pos (by simpa using hnew)]
      rfl
    · have hadded : (classOf baseline x).added? = none := by
        rw [hclass]
        rfl
      rw [hadded, ih, List.map_cons, List.filter_cons_of_neg (by simpa using hold)]

/-- What was modified: the baseline has the path with another kind or content. -/
def Modified (digest : List UInt8 → String) (baseline : Manifest) (x : Found) : Prop :=
  ∃ previous ∈ baseline.entries, previous.path = relative x ∧
    (previous.content ≠ digest (bytesOf x.2) ∨ previous.kind ≠ kindOf x.2)

theorem modifiedOf_spec (digest : List UInt8 → String) (h : baseline.validate = .ok ())
    (found : List Found) :
    (modifiedOf digest ((candidatesOf baseline found).map Prod.snd)).Sublist (found.map relative) ∧
      ∀ path, path ∈ modifiedOf digest ((candidatesOf baseline found).map Prod.snd) ↔
        ∃ x ∈ found, relative x = path ∧ Modified digest baseline x := by
  induction found with
  | nil => exact ⟨.slnil, fun path => by simp [modifiedOf, candidatesOf]⟩
  | cons x found ih =>
    obtain ⟨hsub, hmem⟩ := ih
    simp only [candidatesOf, modifiedOf, List.filterMap_cons] at hsub hmem ⊢
    rcases classOf_cases digest h x with
      ⟨hnew, hclass⟩ | ⟨position, previous, hold, hget, hpath, hclass⟩
    · have hno : ¬ Modified digest baseline x := by
        rintro ⟨previous, hprevious, hpath, -⟩
        exact hnew (List.mem_map.mpr ⟨previous, hprevious, hpath⟩)
      have hnone : (classOf baseline x).candidate? = none := by
        rw [hclass]
        rfl
      rw [hnone]
      refine ⟨hsub.cons _, fun path => (hmem path).trans ?_⟩
      simp [hno]
    · let candidate : BaselineCandidate := { relative := relative x, leaf := x.2, previous }
      have hiff : (hashCandidate digest candidate).2 = true ↔ Modified digest baseline x := by
        simp only [hashCandidate, candidate, Bool.or_eq_true, decide_eq_true_eq]
        refine ⟨fun hdiffers => ⟨previous, List.mem_of_getElem? hget, hpath, hdiffers⟩, ?_⟩
        rintro ⟨other, hother, hpath', hdiffers⟩
        rwa [eq_of_path h (List.mem_of_getElem? hget) hother (hpath.trans hpath'.symm)]
      have hsome : (classOf baseline x).candidate? = some (position, candidate) := by
        rw [hclass]
        rfl
      rw [hsome]
      by_cases hmodified : (hashCandidate digest candidate).2 = true
      · simp only [List.map_cons, List.filter_cons, hmodified, if_true]
        refine ⟨hsub.cons_cons _, fun path => ?_⟩
        rw [List.mem_cons, hmem]
        simp [hiff.mp hmodified, candidate, eq_comm]
      · simp only [List.map_cons, List.filter_cons, hmodified, Bool.false_eq_true, if_false]
        refine ⟨hsub.cons _, fun path => ?_⟩
        rw [hmem]
        simp [show ¬ Modified digest baseline x from fun hyes => hmodified (hiff.mpr hyes)]

theorem candidate_position (h : baseline.validate = .ok ()) {found : List Found} {i : ℕ}
    {entry : Entry} (hi : baseline.entries[i]? = some entry) :
    (∃ c ∈ candidatesOf baseline found, c.1 = i) ↔ ∃ x ∈ found, relative x = entry.path := by
  simp only [candidatesOf, List.mem_filterMap]
  constructor
  · rintro ⟨c, ⟨x, hx, hclass⟩, rfl⟩
    rcases classOf_cases (fun _ => "") h x with
      ⟨-, hadded⟩ | ⟨position, previous, -, hget, hpath, hbaseline⟩
    · rw [hadded] at hclass
      cases hclass
    · rw [hbaseline] at hclass
      obtain rfl := Option.some.inj hclass
      rw [hget] at hi
      obtain rfl := Option.some.inj hi
      exact ⟨x, hx, hpath.symm⟩
  · rintro ⟨x, hx, hpath⟩
    rcases classOf_cases (fun _ => "") h x with
      ⟨hnew, -⟩ | ⟨position, previous, -, hget, hpath', hbaseline⟩
    · exact absurd (List.mem_map.mpr ⟨entry, List.mem_of_getElem? hi, hpath.symm⟩) hnew
    · refine ⟨_, ⟨x, hx, by rw [hbaseline]; rfl⟩, ?_⟩
      have hposition := (baselinePosition_eq_some h).mpr ⟨previous, hget, hpath'⟩
      rw [(baselinePosition_eq_some h).mpr ⟨entry, hi, hpath.symm⟩] at hposition
      exact (Option.some.inj hposition).symm

/-! ## The report -/

/-- Paths in increasing order, each once. -/
def Increasing (paths : List String) : Prop :=
  paths.Pairwise fun a b => pathBytes a < pathBytes b

theorem increasing_sortPaths {paths : List String} (h : paths.Nodup) :
    Increasing (sortPaths paths) ∧ (sortPaths paths).Perm paths := by
  have hperm : (sortPaths paths).Perm paths := List.mergeSort_perm _ _
  refine ⟨?_, hperm⟩
  have hle : (sortPaths paths).Pairwise fun a b => decide (pathBytes a ≤ pathBytes b) = true :=
    List.pairwise_mergeSort (by simpa using fun a b c => le_trans)
      (by simpa using fun a b => le_total _ _) paths
  refine (hle.and (hperm.nodup_iff.mpr h)).imp ?_
  rintro a b ⟨hab, hne⟩
  exact lt_of_le_of_ne (of_decide_eq_true hab) fun heq => hne (pathBytes_inj heq)

/-- The paths of a tree, its entries and its mutations against a baseline. -/
structure Reports (digest : List UInt8 → String) (baseline : Manifest) (tree : SealedTree)
    (manifest : Manifest) (mutations : MutationSet) : Prop where
  added_sorted : Increasing mutations.added
  modified_sorted : Increasing mutations.modified
  deleted_sorted : Increasing mutations.deleted
  added_modified : mutations.added.Disjoint mutations.modified
  added_deleted : mutations.added.Disjoint mutations.deleted
  modified_deleted : mutations.modified.Disjoint mutations.deleted
  added : ∀ path, path ∈ mutations.added ↔ path ∈ tree.paths ∧ path ∉ pathsOf baseline
  modified : ∀ path, path ∈ mutations.modified ↔
    ∃ x ∈ tree.found, relative x = path ∧ Modified digest baseline x
  deleted : ∀ path, path ∈ mutations.deleted ↔ path ∈ pathsOf baseline ∧ path ∉ tree.paths
  valid : manifest.validate = .ok ()
  entries : manifest.entries.Perm (tree.found.map (entryOf digest baseline))
  once : tree.paths.Nodup

/-- The paths of the entries that are not marked. -/
def unmatched (baseline : Manifest) (matched : List Bool) : List String :=
  ((baseline.entries.zip matched).filter fun (_, m) => !m).map fun (entry, _) => entry.path

theorem mem_unmatched {matched : List Bool} {path : String}
    (hlength : matched.length = baseline.entries.length) :
    path ∈ unmatched baseline matched ↔
      ∃ (i : ℕ) (entry : Entry), baseline.entries[i]? = some entry ∧ entry.path = path ∧
        ¬ matched[i]? = some true := by
  rw [unmatched, List.mem_map]
  constructor
  · rintro ⟨⟨entry, m⟩, hmem, rfl⟩
    obtain ⟨hzip, hm⟩ := List.mem_filter.mp hmem
    obtain ⟨i, hi⟩ := List.mem_iff_getElem?.mp hzip
    obtain ⟨hentry, hmatched⟩ := List.getElem?_zip_eq_some.mp hi
    refine ⟨i, entry, hentry, rfl, ?_⟩
    rw [hmatched]
    simpa using hm
  · rintro ⟨i, entry, hentry, rfl, hno⟩
    have hi : i < matched.length := hlength ▸ (List.getElem?_eq_some_iff.mp hentry).1
    rw [List.getElem?_eq_getElem hi] at hno
    refine ⟨(entry, matched[i]), List.mem_filter.mpr ⟨?_, by simpa using hno⟩, rfl⟩
    exact List.mem_of_getElem? (List.getElem?_zip_eq_some.mpr ⟨hentry, List.getElem?_eq_getElem hi⟩)

theorem unmatched_sublist {matched : List Bool}
    (hlength : matched.length = baseline.entries.length) :
    (unmatched baseline matched).Sublist (pathsOf baseline) := by
  have hfst : (baseline.entries.zip matched).map Prod.fst = baseline.entries :=
    List.map_fst_zip hlength.ge
  rw [pathsOf, ← hfst, List.map_map]
  exact List.filter_sublist.map _

/-- The seal of a tree without special files reports it. -/
theorem exists_scanAndDiff (digest : List UInt8 → String) (h : baseline.validate = .ok ())
    {tree : SealedTree} (hplain : Plain tree.leaves) :
    ∃ manifest mutations, scanAndDiff digest baseline tree.root = .ok (manifest, mutations) ∧
      Reports digest baseline tree manifest mutations := by
  let start : Walked :=
    { entries := []
      mutations := { added := [], modified := [], deleted := [] }
      matched := baseline.entries.map fun _ => false }
  obtain ⟨walked, hwalked⟩ : ∃ walked, scanLevels digest baseline start [] [([], tree.root)] =
      .ok walked := by
    refine exists_scanLevels start [] fun directory hdirectory => ?_
    rw [List.mem_singleton.mp hdirectory]
    exact hplain
  have hwalks := scanLevels_spec hwalked
  rw [List.flatMap_singleton] at hwalks
  obtain ⟨hnodup, hcanonical⟩ := tree.paths_spec
  have hadded : walked.mutations.added.Perm (tree.paths.filter (· ∉ pathsOf baseline)) := by
    refine Multiset.coe_eq_coe.mp (hwalks.added.trans ?_)
    rw [addedOf_paths h]
    simp [start, SealedTree.paths, SealedTree.found]
  obtain ⟨hsub, hmodified⟩ := modifiedOf_spec digest h tree.found
  have hmodifiedPerm : walked.mutations.modified.Perm
      (modifiedOf digest ((candidatesOf baseline tree.found).map Prod.snd)) := by
    refine Multiset.coe_eq_coe.mp (hwalks.modified.trans ?_)
    simp [start, modifiedOf, SealedTree.found]
  have hentries : walked.entries.Perm (tree.found.map (entryOf digest baseline)) := by
    refine Multiset.coe_eq_coe.mp (hwalks.entries.trans ?_)
    rw [← entries_found h]
    simp [start, hashedOf, SealedTree.found]
  have hpaths : (tree.found.map (entryOf digest baseline)).map Entry.path = tree.paths := by
    rw [List.map_map]
    rfl
  have hlength : walked.matched.length = baseline.entries.length := by
    rw [hwalks.length]
    exact List.length_map _
  have hdeleted : ∀ path, path ∈ unmatched baseline walked.matched ↔
      path ∈ pathsOf baseline ∧ path ∉ tree.paths := by
    intro path
    rw [mem_unmatched hlength]
    have hmatched : ∀ {i : ℕ} {entry : Entry}, baseline.entries[i]? = some entry →
        (walked.matched[i]? = some true ↔ entry.path ∈ tree.paths) := fun {i entry} hi => by
      have hlt : i < start.matched.length := by
        rw [List.length_map]
        exact (List.getElem?_eq_some_iff.mp hi).1
      have hstart : ¬ start.matched[i]? = some true := by simp [start, List.getElem?_replicate]
      rw [hwalks.matched i hlt, candidate_position h hi, SealedTree.paths, List.mem_map]
      exact or_iff_right hstart
    constructor
    · rintro ⟨i, entry, hi, rfl, hno⟩
      have hpath : entry.path ∈ pathsOf baseline := List.mem_map_of_mem (List.mem_of_getElem? hi)
      exact ⟨hpath, fun hmem => hno ((hmatched hi).mpr hmem)⟩
    · rintro ⟨hpath, hno⟩
      obtain ⟨entry, hentry, rfl⟩ := List.mem_map.mp hpath
      obtain ⟨i, hi⟩ := List.mem_iff_getElem?.mp hentry
      exact ⟨i, entry, hi, rfl, fun hmarked => hno ((hmatched hi).mp hmarked)⟩
  have hcanonicalEntries : ∀ entry ∈ walked.entries,
      isCanonicalPathEncoding entry.path (decodePath entry.path) = true := fun entry hentry => by
    obtain ⟨x, hx, rfl⟩ := List.mem_map.mp (hentries.mem_iff.mp hentry)
    exact hcanonical x hx
  have hdistinct : (walked.entries.map Entry.path).Nodup := by
    rw [(hentries.map Entry.path).nodup_iff, hpaths]
    exact hnodup
  obtain ⟨manifest, hnew, hvalid, hperm⟩ := Manifest.exists_new hcanonicalEntries hdistinct
  obtain ⟨haddedSorted, haddedPerm⟩ :=
    increasing_sortPaths (hadded.nodup_iff.mpr (hnodup.filter _))
  obtain ⟨hmodifiedSorted, hmodifiedPerm'⟩ :=
    increasing_sortPaths (hmodifiedPerm.nodup_iff.mpr (hnodup.sublist hsub))
  obtain ⟨hdeletedSorted, hdeletedPerm⟩ := increasing_sortPaths
    ((Manifest.validate_eq_ok.mp h).2.nodup_paths.sublist (unmatched_sublist hlength))
  have haddedMem : ∀ path, path ∈ sortPaths walked.mutations.added ↔
      path ∈ tree.paths ∧ path ∉ pathsOf baseline := fun path => by
    rw [haddedPerm.mem_iff, hadded.mem_iff, List.mem_filter, decide_eq_true_eq]
  have hmodifiedMem : ∀ path, path ∈ sortPaths walked.mutations.modified ↔
      ∃ x ∈ tree.found, relative x = path ∧ Modified digest baseline x := fun path => by
    rw [hmodifiedPerm'.mem_iff, hmodifiedPerm.mem_iff, hmodified]
  have hdeletedMem : ∀ path, path ∈ sortPaths (unmatched baseline walked.matched) ↔
      path ∈ pathsOf baseline ∧ path ∉ tree.paths := fun path => by
    rw [hdeletedPerm.mem_iff, hdeleted]
  have hmodifiedIn : ∀ {path}, path ∈ sortPaths walked.mutations.modified →
      path ∈ tree.paths ∧ path ∈ pathsOf baseline := fun {path} hpath => by
    obtain ⟨x, hx, rfl, previous, hprevious, hsame, -⟩ := (hmodifiedMem path).mp hpath
    exact ⟨List.mem_map_of_mem hx, hsame ▸ List.mem_map_of_mem hprevious⟩
  refine ⟨manifest, {
    added := sortPaths walked.mutations.added
    modified := sortPaths walked.mutations.modified
    deleted := sortPaths (unmatched baseline walked.matched) }, ?_, {
    added_sorted := haddedSorted
    modified_sorted := hmodifiedSorted
    deleted_sorted := hdeletedSorted
    added_modified := fun path hadd hmod => ((haddedMem path).mp hadd).2 (hmodifiedIn hmod).2
    added_deleted := fun path hadd hdel =>
      ((haddedMem path).mp hadd).2 ((hdeletedMem path).mp hdel).1
    modified_deleted := fun path hmod hdel => ((hdeletedMem path).mp hdel).2 (hmodifiedIn hmod).1
    added := haddedMem
    modified := hmodifiedMem
    deleted := hdeletedMem
    valid := hvalid
    entries := hperm.trans hentries
    once := hnodup }⟩
  rw [scanAndDiff, h]
  refine bind_eq_ok.mpr ⟨(), rfl, bind_eq_ok.mpr ⟨walked, hwalked, ?_⟩⟩
  refine bind_eq_ok.mpr ⟨manifest, by rw [hnew]; rfl, ?_⟩
  rw [hwalks.deleted]
  rfl

theorem Increasing.eq_of_mem {paths paths' : List String} (h : Increasing paths)
    (h' : Increasing paths') (hmem : ∀ path, path ∈ paths ↔ path ∈ paths') : paths = paths' := by
  have hnodup : ∀ {paths : List String}, Increasing paths → paths.Nodup := fun hpaths => by
    refine List.Pairwise.imp ?_ hpaths
    rintro a b hlt rfl
    exact lt_irrefl _ hlt
  have hperm := (List.perm_ext_iff_of_nodup (hnodup h) (hnodup h')).mpr hmem
  exact hperm.eq_of_pairwise (fun a b _ _ hab hba => absurd hba (lt_asymm hab)) h h'

namespace Reports

variable {tree tree' : SealedTree} {manifest manifest' : Manifest}
  {mutations mutations' : MutationSet}

/-- The lists and the baseline give the paths of the tree. -/
theorem mem_paths (h : Reports digest baseline tree manifest mutations) (path : String) :
    path ∈ tree.paths ↔
      path ∈ mutations.added ∨ path ∈ pathsOf baseline ∧ path ∉ mutations.deleted := by
  rw [h.added, h.deleted]
  by_cases hpath : path ∈ pathsOf baseline <;> simp [hpath]

/-- The paths of the tree and what was modified give the lists. -/
theorem mutations_eq (h : Reports digest baseline tree manifest mutations)
    (h' : Reports digest baseline tree' manifest' mutations')
    (hpaths : ∀ path, path ∈ tree.paths ↔ path ∈ tree'.paths)
    (hmodified : ∀ path, (∃ x ∈ tree.found, relative x = path ∧ Modified digest baseline x) ↔
      ∃ x ∈ tree'.found, relative x = path ∧ Modified digest baseline x) :
    mutations = mutations' := by
  have hadded := h.added_sorted.eq_of_mem h'.added_sorted fun path => by
    rw [h.added, h'.added, hpaths]
  have hchanged := h.modified_sorted.eq_of_mem h'.modified_sorted fun path => by
    rw [h.modified, h'.modified, hmodified]
  have hdeleted := h.deleted_sorted.eq_of_mem h'.deleted_sorted fun path => by
    rw [h.deleted, h'.deleted, hpaths]
  obtain ⟨added, modified, deleted⟩ := mutations
  obtain ⟨added', modified', deleted'⟩ := mutations'
  simp only [MutationSet.mk.injEq]
  exact ⟨hadded, hchanged, hdeleted⟩

/-- What is common and not modified is as the baseline has it. -/
theorem unmodified (h : Reports digest baseline tree manifest mutations) {x : Found}
    (hx : x ∈ tree.found) (hmodified : relative x ∉ mutations.modified) {previous : Entry}
    (hprevious : previous ∈ baseline.entries) (hpath : previous.path = relative x) :
    kindOf x.2 = previous.kind ∧ digest (bytesOf x.2) = previous.content := by
  by_contra hdiffers
  refine hmodified ((h.modified _).mpr ⟨x, hx, rfl, previous, hprevious, hpath, ?_⟩)
  by_contra hsame
  push Not at hsame
  exact hdiffers ⟨hsame.2.symm, hsame.1.symm⟩

/-- The manifest has the entry of everything found. -/
theorem entry_eq (h : Reports digest baseline tree manifest mutations)
    (h' : Reports digest baseline tree' manifest mutations') {x x' : Found} (hx : x ∈ tree.found)
    (hx' : x' ∈ tree'.found) (hpath : relative x' = relative x) :
    entryOf digest baseline x' = entryOf digest baseline x :=
  eq_of_path h.valid (h'.entries.mem_iff.mpr (List.mem_map_of_mem hx'))
    (h.entries.mem_iff.mpr (List.mem_map_of_mem hx)) hpath

end Reports

/-- What two trees with the same mutations have in common. -/
structure Determines (digest : List UInt8 → String) (baseline : Manifest) (mutations : MutationSet)
    (tree tree' : SealedTree) (manifest manifest' : Manifest) : Prop where
  paths : ∀ path, path ∈ tree'.paths ↔ path ∈ tree.paths
  unmodified : ∀ x ∈ tree.found, ∀ x' ∈ tree'.found, relative x' = relative x →
    relative x ∈ pathsOf baseline → relative x ∉ mutations.modified →
      kindOf x'.2 = kindOf x.2 ∧ digest (bytesOf x'.2) = digest (bytesOf x.2)
  kinds : manifest' = manifest → ∀ x ∈ tree.found, ∀ x' ∈ tree'.found, relative x' = relative x →
    kindOf x'.2 = kindOf x.2
  contents : manifest' = manifest → ∀ x ∈ tree.found, ∀ x' ∈ tree'.found, relative x' = relative x →
    relative x ∈ pathsOf baseline → digest (bytesOf x'.2) = digest (bytesOf x.2)

/-- **A seal reports exactly what changed.** The lists are what was added, modified and deleted,
sorted and without a common path, and the manifest has one entry for every file and link. Baseline
and lists give the paths of the tree, and the kind and content of what is common and not modified;
the manifest gives every kind, and the content of what is common. -/
theorem seal_reports (digest : List UInt8 → String) {baseline : Manifest}
    (h : baseline.validate = .ok ()) (tree : SealedTree) (hplain : Plain tree.leaves) :
    ∃ manifest mutations, scanAndDiff digest baseline tree.root = .ok (manifest, mutations) ∧
      Reports digest baseline tree manifest mutations ∧
      ∀ (tree' : SealedTree) (manifest' : Manifest), Plain tree'.leaves →
        scanAndDiff digest baseline tree'.root = .ok (manifest', mutations) →
          Determines digest baseline mutations tree tree' manifest manifest' := by
  obtain ⟨manifest, mutations, hseal, hreports⟩ := exists_scanAndDiff digest h hplain
  refine ⟨manifest, mutations, hseal, hreports, fun tree' manifest' hplain' hseal' => ?_⟩
  obtain ⟨_, _, hsealed, hreports'⟩ := exists_scanAndDiff digest h hplain'
  obtain ⟨rfl, rfl⟩ := Prod.mk.inj (Except.ok.inj (hseal'.symm.trans hsealed))
  refine ⟨fun path => ?_, fun x hx x' hx' hpath hold hmodified => ?_,
    fun hsame x hx x' hx' hpath => ?_, fun hsame x hx x' hx' hpath hold => ?_⟩
  · rw [hreports.mem_paths, hreports'.mem_paths]
  · obtain ⟨previous, hprevious, hprevpath⟩ := List.mem_map.mp hold
    have hone := hreports.unmodified hx hmodified hprevious hprevpath
    have hother := hreports'.unmodified hx' (hpath ▸ hmodified) hprevious
      (hprevpath.trans hpath.symm)
    exact ⟨hother.1.trans hone.1.symm, hother.2.trans hone.2.symm⟩
  · subst hsame
    exact congrArg Entry.kind (hreports.entry_eq hreports' hx hx' hpath)
  · subst hsame
    have hcontent := congrArg Entry.content (hreports.entry_eq hreports' hx hx' hpath)
    simpa only [entryOf, hpath, hold, if_true] using hcontent

/-- The file `a` is gone, and a byte is written to `b/c`. -/
def sampleBaseline : Manifest := ⟨[⟨"a", .file, "empty", 0⟩, ⟨"b/c", .file, "empty", 0⟩]⟩

def sampleDigest (bytes : List UInt8) : String := if bytes = [] then "empty" else "bytes"

def sampleTree : SealedTree where
  root := [([98], .directory [([99], .leaf (.source (.file [1] false)))])]
  named := by
    simp only [NamedBelow, SealedNode.Named, ValidName]
    decide

theorem seal_reports_sample :
    ∃ manifest mutations,
      scanAndDiff sampleDigest sampleBaseline sampleTree.root = .ok (manifest, mutations) ∧
        Reports sampleDigest sampleBaseline sampleTree manifest mutations := by
  obtain ⟨manifest, mutations, hseal, hreports, -⟩ := seal_reports sampleDigest
    (show sampleBaseline.validate = .ok () by decide) sampleTree (by
      simp [Plain, SealedTree.leaves, sampleTree, leavesBelow, SealedNode.leaves, sourceOf])
  exact ⟨manifest, mutations, hseal, hreports⟩

/-- A tree with the one entry `a`. -/
def treeOfA (leaf : SourceLeaf) : SealedTree where
  root := [([97], .leaf (.source leaf))]
  named := by
    simp only [NamedBelow, SealedNode.Named, ValidName]
    decide

theorem found_treeOfA (leaf : SourceLeaf) : (treeOfA leaf).found = [([[97]], leaf)] := by
  simp [SealedTree.found, foundBelow, treeOfA, leavesBelow, SealedNode.leaves, sourceOf]

/-- The lists do not say whether what was added is a file or a link. -/
theorem mutations_blind :
    ¬ ∀ (digest : List UInt8 → String) (baseline : Manifest), baseline.validate = .ok () →
      ∀ (tree tree' : SealedTree), Plain tree.leaves → Plain tree'.leaves →
        ∀ (manifest manifest' : Manifest) (mutations : MutationSet),
          scanAndDiff digest baseline tree.root = .ok (manifest, mutations) →
          scanAndDiff digest baseline tree'.root = .ok (manifest', mutations) →
            ∀ x ∈ tree.found, ∀ x' ∈ tree'.found, relative x' = relative x →
              kindOf x'.2 = kindOf x.2 := by
  intro hclaim
  have hvalid : (⟨[]⟩ : Manifest).validate = .ok () := rfl
  have hplain : ∀ leaf, Plain (treeOfA leaf).leaves := fun leaf => by
    simp [Plain, SealedTree.leaves, treeOfA, leavesBelow, SealedNode.leaves, sourceOf]
  obtain ⟨manifest, mutations, hseal, hreports⟩ :=
    exists_scanAndDiff (fun _ => "") hvalid (hplain (.file [] false))
  obtain ⟨manifest', mutations', hseal', hreports'⟩ :=
    exists_scanAndDiff (fun _ => "") hvalid (hplain (.symlink []))
  have hsame : mutations = mutations' := hreports.mutations_eq hreports'
    (fun path => by simp [SealedTree.paths, found_treeOfA, relative])
    (fun path => by simp [found_treeOfA, Modified])
  subst hsame
  have hkind := hclaim (fun _ => "") ⟨[]⟩ hvalid (treeOfA (.file [] false)) (treeOfA (.symlink []))
    (hplain _) (hplain _) manifest manifest' mutations hseal hseal' ([[97]], .file [] false)
    (by simp [found_treeOfA]) ([[97]], .symlink []) (by simp [found_treeOfA]) rfl
  exact absurd hkind (by decide)

end Seal

end Afactory
