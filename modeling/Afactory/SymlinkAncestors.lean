import Mathlib
import Afactory.SourceManifest

/-!
# Entries below a symlink

`refuse_symlink_ancestors` passes once over a manifest and compares each path with the symlinks it
has seen. The entries stand in the order of their spellings, and a path may be escaped as a whole
where its ancestor is not, or the other way round.

* `refuseSymlinkAncestors`: the pass;
* `SpelledFirst`, `spelling_lt_iff`: which of a path and a path below it is spelled first;
* `refuses_below_symlink`: a manifest with an entry below a symlink is refused exactly when one
  such symlink is spelled first;
* `symlink_spelled_late`: a manifest where it is not.
-/

namespace Afactory

/-- `path.ancestors().skip(1)`: the proper prefixes, the empty path among them. -/
def ancestors (path : TreePath) : List TreePath :=
  (List.range path.length).reverse.map path.take

/-- The pass of `refuse_symlink_ancestors`, with the symlinks already seen. -/
def refuseBelow : List (Entry × TreePath) → List TreePath → Except MaterializeError Unit
  | [], _ => .ok ()
  | (entry, path) :: rest, symlinks =>
    if (ancestors path).any symlinks.contains then .error (.escape entry.path)
    else refuseBelow rest (if entry.kind = .symlink then path :: symlinks else symlinks)

/-- `refuse_symlink_ancestors`. -/
def refuseSymlinkAncestors (M : Manifest) (decodedPaths : List TreePath) :
    Except MaterializeError Unit :=
  if M.entries.any fun entry => entry.kind = .symlink then
    refuseBelow (M.entries.zip decodedPaths) []
  else .ok ()

/-! ## The pass -/

theorem mem_ancestors {p path : TreePath} : p ∈ ancestors path ↔ p <+: path ∧ p ≠ path := by
  simp only [ancestors, List.mem_map, List.mem_reverse, List.mem_range]
  constructor
  · rintro ⟨n, hn, rfl⟩
    refine ⟨List.take_prefix n path, fun heq => ?_⟩
    have hlength := congrArg List.length heq
    rw [List.length_take] at hlength
    omega
  · rintro ⟨hstart, hne⟩
    refine ⟨p.length, ?_, (List.prefix_iff_eq_take.mp hstart).symm⟩
    exact lt_of_le_of_ne hstart.length_le fun heq => hne (hstart.eq_of_length heq)

/-- What the pass accepts: no path below a symlink seen before it. -/
theorem refuseBelow_eq_ok {entries : List (Entry × TreePath)} {symlinks : List TreePath} :
    refuseBelow entries symlinks = .ok () ↔
      (∀ x ∈ entries, ∀ link ∈ symlinks, link ∉ ancestors x.2) ∧
        entries.Pairwise fun x y => x.1.kind = .symlink → x.2 ∉ ancestors y.2 := by
  induction entries generalizing symlinks with
  | nil => simp [refuseBelow]
  | cons x entries ih =>
    obtain ⟨entry, path⟩ := x
    rw [refuseBelow]
    split_ifs with hbelow hlink
    · obtain ⟨p, hp, hseen⟩ := List.any_eq_true.mp hbelow
      refine ⟨nofun, fun h => ?_⟩
      exact absurd hp (h.1 _ List.mem_cons_self p (List.contains_iff_mem.mp hseen))
    all_goals
      have hnone : ∀ link ∈ symlinks, link ∉ ancestors path := by
        intro link hlink hmem
        exact hbelow (List.any_eq_true.mpr ⟨link, hmem, List.contains_iff_mem.mpr hlink⟩)
      rw [ih, List.forall_mem_cons, List.pairwise_cons]
    · constructor
      · rintro ⟨hseen, hrest⟩
        refine ⟨⟨hnone, fun y hy link hl => hseen y hy link (List.mem_cons_of_mem _ hl)⟩, ?_, hrest⟩
        exact fun y hy _ => hseen y hy path List.mem_cons_self
      · rintro ⟨⟨-, hseen⟩, hfirst, hrest⟩
        refine ⟨fun y hy link hl => ?_, hrest⟩
        rcases List.mem_cons.mp hl with rfl | hl
        · exact hfirst y hy hlink
        · exact hseen y hy link hl
    · constructor
      · rintro ⟨hseen, hrest⟩
        exact ⟨⟨hnone, hseen⟩, fun y hy hlink' => absurd hlink' hlink, hrest⟩
      · rintro ⟨⟨-, hseen⟩, -, hrest⟩
        exact ⟨hseen, hrest⟩

/-- A relation along a strictly ordered list is one between every two of its members. -/
theorem EntriesOrdered.pairwise_iff {entries : List Entry} (h : EntriesOrdered entries)
    {R : Entry → Entry → Prop} :
    entries.Pairwise R ↔ ∀ a ∈ entries, ∀ b ∈ entries, pathBytes a.path < pathBytes b.path →
      R a b := by
  induction entries with
  | nil => simp
  | cons x entries ih =>
    obtain ⟨hfirst, hrest⟩ := List.pairwise_cons.mp h
    rw [List.pairwise_cons, ih hrest]
    constructor
    · rintro ⟨hx, hall⟩ a ha b hb hlt
      rcases List.mem_cons.mp ha with rfl | ha'
      · rcases List.mem_cons.mp hb with rfl | hb'
        · exact absurd hlt (List.lt_irrefl _)
        · exact hx b hb'
      · rcases List.mem_cons.mp hb with rfl | hb'
        · exact absurd hlt (List.lt_asymm (hfirst a ha'))
        · exact hall a ha' b hb' hlt
    · intro hall
      refine ⟨fun b hb => ?_, fun a ha b hb => ?_⟩
      · exact hall x List.mem_cons_self b (List.mem_cons_of_mem _ hb) (hfirst b hb)
      · exact hall a (List.mem_cons_of_mem _ ha) b (List.mem_cons_of_mem _ hb)

/-- An accepted path is its components. -/
theorem checkedRelativePath_eq_ok {encoded : String} {kind : EntryKind} {path : TreePath}
    (h : checkedRelativePath encoded kind = .ok path) : path = components (decodePath encoded) := by
  simp only [checkedRelativePath] at h
  split_ifs at h
  exact (Except.ok.inj h).symm

/-! ## Which is spelled first -/

/-- Whether a path is spelled before the paths below it: decided by the first byte of it that an
escape replaces, where one of the two is escaped and the other is not. -/
def SpelledFirst (link below : List UInt8) : Bool :=
  match link.find? fun b => !plainByte b with
  | none => true
  | some b =>
    if isLiteral link then isLiteral below || b < percent else !isLiteral below || percent < b

theorem append_lt_append_iff {p x y : List UInt8} : p ++ x < p ++ y ↔ x < y := by
  induction p with
  | nil => rfl
  | cons b p ih =>
    rw [List.cons_append, List.cons_append, List.cons_lt_cons_iff, ih]
    simp

theorem lt_append_slash (path rest : List UInt8) : path < path ++ slash :: rest := by
  have h : path ++ [] < path ++ slash :: rest := append_lt_append_iff.mpr (List.nil_lt_cons _ _)
  rwa [List.append_nil] at h

/-- A path of plain bytes is its own escape. -/
theorem flatMap_escapeByte_of_plain {bytes : List UInt8} (h : ∀ b ∈ bytes, plainByte b = true) :
    bytes.flatMap escapeByte = bytes := by
  induction bytes with
  | nil => rfl
  | cons b bytes ih =>
    rw [List.forall_mem_cons] at h
    rw [List.flatMap_cons, ih h.2, escapeByte, if_pos h.1]
    rfl

/-- The first byte that is escaped, with the escape of the path around it. -/
theorem escape_split {bytes : List UInt8} {b : UInt8}
    (h : bytes.find? (fun b => !plainByte b) = some b) :
    ∃ front back tail, bytes = front ++ b :: back ∧
      bytes.flatMap escapeByte = front ++ percent :: tail := by
  obtain ⟨hescaped, front, back, hsplit, hfront⟩ := List.find?_eq_some_iff_append.mp h
  have hplain : ∀ c ∈ front, plainByte c = true := by
    intro c hc
    simpa using hfront c hc
  have hescape : escapeByte b = percent :: (escapeByte b).tail := by
    simp only [Bool.not_eq_true'] at hescaped
    simp [escapeByte, hescaped]
  refine ⟨front, back, (escapeByte b).tail ++ back.flatMap escapeByte, hsplit, ?_⟩
  rw [hsplit, List.flatMap_append, flatMap_escapeByte_of_plain hplain, List.flatMap_cons, hescape]
  rfl

theorem flatMap_escapeByte_below (path rest : List UInt8) :
    (path ++ slash :: rest).flatMap escapeByte =
      path.flatMap escapeByte ++ slash :: rest.flatMap escapeByte := by
  rw [List.flatMap_append, List.flatMap_cons]
  rfl

theorem not_mem_of_isLiteral {bytes : List UInt8} (h : isLiteral bytes = true) :
    percent ∉ bytes := by
  simp only [isLiteral, Bool.and_eq_true, Bool.not_eq_true'] at h
  simpa using h.2

/-- **The order of spellings.** A path is spelled before a path below it exactly when the first
byte of it that an escape replaces allows it. -/
theorem spelling_lt_iff (link rest : List UInt8) :
    spelling link < spelling (link ++ slash :: rest) ↔
      SpelledFirst link (link ++ slash :: rest) = true := by
  unfold SpelledFirst
  cases hlink : isLiteral link with
  | true =>
    cases hbelow : isLiteral (link ++ slash :: rest) with
    | true =>
      have hlt := lt_append_slash link rest
      rw [spelling, spelling, if_pos hlink, if_pos hbelow]
      split <;> simp [hlt]
    | false =>
      rw [spelling, spelling, if_pos hlink, if_neg (by simp [hbelow]), flatMap_escapeByte_below]
      split
      case h_1 hnone =>
        have hplain : ∀ b ∈ link, plainByte b = true := by simpa using hnone
        rw [flatMap_escapeByte_of_plain hplain]
        simp [lt_append_slash]
      case h_2 b hfound =>
        obtain ⟨front, back, tail, hsplit, hescape⟩ := escape_split hfound
        have hb : b ≠ percent := by
          rintro rfl
          exact not_mem_of_isLiteral hlink (hsplit ▸ by simp)
        rw [hescape, hsplit, List.append_assoc, append_lt_append_iff, List.cons_append,
          List.cons_lt_cons_iff]
        simp [hb]
  | false =>
    cases hbelow : isLiteral (link ++ slash :: rest) with
    | true =>
      rw [spelling, spelling, if_neg (by simp [hlink]), if_pos hbelow]
      split
      case h_1 hnone =>
        have hplain : ∀ b ∈ link, plainByte b = true := by simpa using hnone
        rw [flatMap_escapeByte_of_plain hplain]
        simp [lt_append_slash]
      case h_2 b hfound =>
        obtain ⟨front, back, tail, hsplit, hescape⟩ := escape_split hfound
        have hb : percent ≠ b := by
          rintro rfl
          refine not_mem_of_isLiteral hbelow ?_
          rw [hsplit]
          simp
        rw [hescape, hsplit, List.append_assoc, append_lt_append_iff, List.cons_append,
          List.cons_lt_cons_iff]
        simp [hb]
    | false =>
      rw [spelling, spelling, if_neg (by simp [hlink]), if_neg (by simp [hbelow]),
        flatMap_escapeByte_below]
      have hlt := lt_append_slash (link.flatMap escapeByte) (rest.flatMap escapeByte)
      split <;> simp [hlt]

/-! ## Manifests -/

theorem intercalate_append {front back : TreePath} (hfront : front ≠ []) (hback : back ≠ []) :
    [slash].intercalate (front ++ back) =
      [slash].intercalate front ++ slash :: [slash].intercalate back := by
  induction front with
  | nil => exact absurd rfl hfront
  | cons name front ih =>
    rcases front with _ | ⟨next, front⟩
    · rw [List.singleton_append, List.intercalate_cons_of_ne_nil hback, List.intercalate_singleton]
      simp
    · rw [List.cons_append, List.cons_append, List.intercalate_cons_cons, ← List.cons_append,
        ih (by simp), List.intercalate_cons_cons]
      simp

/-- A path below another continues its bytes after a slash. -/
theorem below_eq {link below : List UInt8} (hstart : components link <+: components below)
    (hne : components link ≠ components below) : ∃ rest, below = link ++ slash :: rest := by
  obtain ⟨back, hback⟩ := hstart
  have hsome : back ≠ [] := by
    rintro rfl
    rw [List.append_nil] at hback
    exact hne hback
  refine ⟨[slash].intercalate back, ?_⟩
  have hlink : components link ≠ [] := List.splitOn_ne_nil _ _
  calc below = [slash].intercalate (components below) := (List.intercalate_splitOn slash).symm
    _ = [slash].intercalate (components link ++ back) := by rw [hback]
    _ = link ++ slash :: [slash].intercalate back := by
      rw [intercalate_append hlink hsome]
      exact congrArg (· ++ _) (List.intercalate_splitOn slash)

/-- The raw path of a symlink of the manifest is a proper ancestor of the raw path of an entry. -/
def Manifest.BelowSymlink (M : Manifest) (link entry : Entry) : Prop :=
  link ∈ M.entries ∧ entry ∈ M.entries ∧ link.kind = .symlink ∧
    components (decodePath link.path) <+: components (decodePath entry.path) ∧
    components (decodePath link.path) ≠ components (decodePath entry.path)

/-- **The pass.** A manifest with accepted paths is refused exactly when a symlink is spelled
before an entry below it. -/
theorem refuseSymlinkAncestors_eq_ok {M : Manifest} {paths : List TreePath}
    (hvalid : M.validate = .ok ())
    (hpaths : M.entries.mapM (fun entry => checkedRelativePath entry.path entry.kind) = .ok paths) :
    refuseSymlinkAncestors M paths = .ok () ↔
      ∀ link entry, M.BelowSymlink link entry →
        SpelledFirst (decodePath link.path) (decodePath entry.path) = false := by
  obtain ⟨hcanonical, hordered⟩ := Manifest.validate_eq_ok.mp hvalid
  obtain ⟨rfl, -⟩ := mapM_eq_ok_map
    (g := fun entry : Entry => components (decodePath entry.path)) checkedRelativePath_eq_ok hpaths
  -- an entry below a symlink stands after it exactly when the symlink is spelled first
  have horder : ∀ link entry, M.BelowSymlink link entry →
      (pathBytes link.path < pathBytes entry.path ↔
        SpelledFirst (decodePath link.path) (decodePath entry.path) = true) := by
    rintro link entry ⟨hlink, hentry, -, hstart, hne⟩
    obtain ⟨rest, hrest⟩ := below_eq hstart hne
    rw [pathBytes_canonical (hcanonical link hlink), pathBytes_canonical (hcanonical entry hentry),
      hrest]
    exact spelling_lt_iff _ _
  unfold refuseSymlinkAncestors
  split_ifs with hany
  · rw [← List.map_prod_left_eq_zip, refuseBelow_eq_ok, List.pairwise_map, hordered.pairwise_iff]
    constructor
    · rintro ⟨-, hpass⟩ link entry hbelow
      have hmem : components (decodePath link.path) ∈
          ancestors (components (decodePath entry.path)) := mem_ancestors.mpr hbelow.2.2.2
      by_contra hfirst
      refine hpass link hbelow.1 entry hbelow.2.1 ?_ hbelow.2.2.1 hmem
      exact (horder link entry hbelow).mpr (by simpa using hfirst)
    · intro hlate
      refine ⟨by simp, fun link hlink entry hentry hlt hkind hmem => ?_⟩
      have hbelow : M.BelowSymlink link entry :=
        ⟨hlink, hentry, hkind, mem_ancestors.mp hmem⟩
      have hfirst := (horder link entry hbelow).mp hlt
      rw [hlate link entry hbelow] at hfirst
      cases hfirst
  · refine ⟨fun _ link entry hbelow => ?_, fun _ => rfl⟩
    exact absurd (List.any_eq_true.mpr ⟨link, hbelow.1, by simp [hbelow.2.2.1]⟩) hany

/-- **Below a symlink.** Of every valid manifest with accepted paths: it is refused where an entry
lies below a symlink exactly when, if there is such an entry, there is one whose symlink is spelled
first. -/
theorem refuses_below_symlink {M : Manifest} {paths : List TreePath}
    (hvalid : M.validate = .ok ())
    (hpaths : M.entries.mapM (fun entry => checkedRelativePath entry.path entry.kind) = .ok paths) :
    ((∃ link entry, M.BelowSymlink link entry) →
        ∃ error, refuseSymlinkAncestors M paths = .error error) ↔
      ((∃ link entry, M.BelowSymlink link entry) → ∃ link entry, M.BelowSymlink link entry ∧
        SpelledFirst (decodePath link.path) (decodePath entry.path) = true) := by
  have hpass := refuseSymlinkAncestors_eq_ok hvalid hpaths
  refine imp_congr_right fun _ => ?_
  cases hrefuse : refuseSymlinkAncestors M paths with
  | ok u =>
    have hlate := hpass.mp hrefuse
    constructor
    · rintro ⟨error, h⟩
      cases h
    · rintro ⟨link, entry, hbelow, hfirst⟩
      rw [hlate link entry hbelow] at hfirst
      cases hfirst
  | error error =>
    refine ⟨fun _ => ?_, fun _ => ⟨error, rfl⟩⟩
    by_contra hnone
    have hok : refuseSymlinkAncestors M paths = .ok () := by
      refine hpass.mpr fun link entry hbelow => ?_
      by_contra hfirst
      exact hnone ⟨link, entry, hbelow, by simpa using hfirst⟩
    rw [hrefuse] at hok
    cases hok

/-- A symlink whose name is escaped below it only: the `~` of `a~b` stands after the `%` of
`a%7Eb`. -/
def lateSymlink : Manifest :=
  ⟨[⟨"a%7Eb/50%25", .file, "content", 7⟩, ⟨"a~b", .symlink, "target", 10⟩]⟩

/-- A symlink that is seen in time. -/
def earlySymlink : Manifest :=
  ⟨[⟨"link", .symlink, "target", 10⟩, ⟨"link/escape", .file, "content", 7⟩]⟩

theorem refuses_below_symlink_early :
    ∃ error, refuseSymlinkAncestors earlySymlink
      [components (pathBytes "link"), components (pathBytes "link/escape")] = .error error := by
  have hvalid : earlySymlink.validate = .ok () := by decide
  have hpaths : earlySymlink.entries.mapM (fun entry => checkedRelativePath entry.path entry.kind) =
      .ok [components (pathBytes "link"), components (pathBytes "link/escape")] := by
    decide
  have hbelow : earlySymlink.BelowSymlink ⟨"link", .symlink, "target", 10⟩
      ⟨"link/escape", .file, "content", 7⟩ := by
    refine ⟨by decide, by decide, rfl, ?_, ?_⟩ <;> decide
  exact (refuses_below_symlink hvalid hpaths).mpr (fun _ => ⟨_, _, hbelow, by decide⟩)
    ⟨_, _, hbelow⟩

/-- **A symlink that is seen late.** The manifest is valid, its paths are accepted, a file lies
below its symlink, and it is not refused. -/
theorem symlink_spelled_late :
    lateSymlink.validate = .ok () ∧
      lateSymlink.entries.mapM (fun entry => checkedRelativePath entry.path entry.kind) =
        .ok [components (pathBytes "a~b/50%"), components (pathBytes "a~b")] ∧
      lateSymlink.BelowSymlink ⟨"a~b", .symlink, "target", 10⟩
        ⟨"a%7Eb/50%25", .file, "content", 7⟩ ∧
      refuseSymlinkAncestors lateSymlink
        [components (pathBytes "a~b/50%"), components (pathBytes "a~b")] = .ok () := by
  refine ⟨by decide, by decide, ⟨by decide, by decide, rfl, ?_, ?_⟩, ?_⟩
  all_goals decide

end Afactory
