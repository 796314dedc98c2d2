import Mathlib
import Afactory.SourceManifest
import Afactory.TextSearch
import Afactory.Wildcards

/-!
# What a seal leaves out

The ignore rules of `review-sandbox/src/seal_ignore.rs`: how a line becomes a rule, how a rule is
matched against the segments of a path, which rule decides, and the files of a tree the rules are
read from.

* `ruleOf`, `IgnoreRules`: the rules of lines;
* `globAt`, `segmentsMatch`: one segment, and the segments of an anchored rule;
* `ignores`: the last matching rule of a path and of the directories above it;
* `ofTree`: the rules of a sealed tree.
-/

namespace Afactory

namespace SealIgnore

/-- One segment of a path or of a pattern. -/
abbrev Segment := List Char

/-- `DEFAULT_SEAL_IGNORE` -/
def defaultSealIgnore : List String := ["__pycache__/", "*.pyc", "/target/", "node_modules/"]

/-- `SEAL_IGNORE_FILE` -/
def sealIgnoreFile : String := ".af/seal-ignore"

/-- `MAX_IGNORE_FILE_BYTES` -/
def maxIgnoreFileBytes : ℕ := 1024 * 1024

/-- `Rule`, with the segment that an unanchored rule is matched by. -/
structure Rule where
  base : List Char
  segments : List Segment
  anchored : Bool
  directoryOnly : Bool
  negated : Bool
  segments_ne : segments ≠ []

/-- `IgnoreRules` -/
abbrev IgnoreRules := List Rule

/-! ## Lines -/

/-- The mark of a rule that takes back, and the line behind the mark. -/
def stripMark : List Char → Bool × List Char
  | '!' :: rest => (true, rest)
  | '\\' :: rest => (false, rest)
  | line => (false, line)

/-- `push`, where the line holds a rule. -/
def ruleOf (base line : List Char) : Option Rule :=
  let line := line.rdropWhile fun c => c = '\r' || c = ' '
  if line = [] || line.head? = some '#' then none
  else
    let (negated, line) := stripMark line
    let (directoryOnly, line) :=
      if line.getLast? = some '/' then (true, line.dropLast) else (false, line)
    let anchored := decide ('/' ∈ line)
    let line := if line.head? = some '/' then line.tail else line
    if line = [] then none
    else some {
      base
      segments := line.splitOn '/'
      anchored
      directoryOnly
      negated
      segments_ne := List.splitOn_ne_nil '/' line }

/-- The rules of lines, in order. -/
def rulesIn (base : List Char) (lines : List (List Char)) : IgnoreRules :=
  lines.filterMap (ruleOf base)

/-- `from_lines` -/
def fromLines (lines : List (List Char)) : IgnoreRules := rulesIn [] lines

/-! ## One segment -/

/-- What is between a `[` and the `]` that closes it, and what is behind. -/
def closeOf (rest : List Char) : Option (List Char × List Char) :=
  ((rest.drop 1).idxOf? ']').map fun i => (rest.take (i + 1), rest.drop (i + 2))

/-- The characters and the ranges of a class. -/
def classHas : List Char → Char → Bool
  | low :: '-' :: high :: rest, c => (low ≤ c && c ≤ high) || classHas rest c
  | single :: rest, c => single = c || classHas rest c
  | [], _ => false

/-- A class, negated or not. -/
def classAccepts (cls : List Char) (c : Char) : Bool :=
  if cls.head? = some '!' || cls.head? = some '^' then !classHas cls.tail c else classHas cls c

theorem length_closeOf {rest cls behind : List Char} (h : closeOf rest = some (cls, behind)) :
    behind.length ≤ rest.length := by
  obtain ⟨i, -, hparts⟩ := Option.map_eq_some_iff.mp h
  cases hparts
  rw [List.length_drop]
  exact Nat.sub_le _ _

/-- `glob_at` -/
def globAt (pattern text : List Char) : Bool :=
  match pattern with
  | [] => text.isEmpty
  | '*' :: rest => (List.range (text.length + 1)).any fun skip => globAt rest (text.drop skip)
  | '?' :: rest => !text.isEmpty && globAt rest text.tail
  | '[' :: rest =>
    match h : closeOf rest with
    | none => text.head? = some '[' && globAt rest text.tail
    | some (cls, behind) =>
      have := length_closeOf h
      match text with
      | [] => false
      | first :: others => classAccepts cls first && globAt behind others
  | '\\' :: escaped :: rest => text.head? = some escaped && globAt rest text.tail
  | c :: rest => text.head? = some c && globAt rest text.tail
termination_by pattern.length

/-! ## Rules -/

/-- The segment `**`. -/
def anyDirectories : Segment := ['*', '*']

/-- `segments_match` -/
def segmentsMatch : List Segment → List Segment → Bool
  | [], parts => parts.isEmpty
  | first :: rest, parts =>
    if first = anyDirectories then
      (List.range (parts.length + 1)).any fun skip => segmentsMatch rest (parts.drop skip)
    else
      match parts with
      | [] => false
      | part :: others => globAt first part && segmentsMatch rest others

namespace Rule

/-- The segments of the directory a rule came from. -/
def directory (r : Rule) : List Segment := if r.base = [] then [] else r.base.splitOn '/'

/-- `Rule::matches` -/
def matchesPath (r : Rule) (parts : List Segment) (directory : Bool) : Bool :=
  if r.directoryOnly && !directory then false
  else if r.directory <+: parts then
    let relative := parts.drop r.directory.length
    match relative.getLast? with
    | none => false
    | some last =>
      if r.anchored then segmentsMatch r.segments relative
      else globAt (r.segments.head r.segments_ne) last
  else false

end Rule

/-! ## Decisions -/

/-- `decides` -/
def decides (rules : IgnoreRules) (parts : List Segment) (directory : Bool) : Bool :=
  (rules.reverse.find? fun rule => rule.matchesPath parts directory).any fun rule => !rule.negated

/-- `ignores` -/
def ignores (rules : IgnoreRules) (path : List Char) : Bool :=
  let parts := path.splitOn '/'
  ((List.range parts.length).any fun depth => depth ≠ 0 && decides rules (parts.take depth) true) ||
    decides rules parts false

/-! ## The rules of a tree -/

/-- A regular file. -/
def isRegular (entry : Entry) : Bool := entry.kind = .file || entry.kind = .executable

/-- `.gitignore`, at the root or below. -/
def isGitignore (path : String) : Bool := path = ".gitignore" || path.endsWith "/.gitignore"

/-- How the ignore files are sorted: by depth, then by path. -/
def fileKey (path : String) : ℕ ×ₗ String := toLex (path.toList.count '/', path)

/-- The ignore files of a manifest, in the order they are read. -/
def ignoreFiles (manifest : Manifest) : List String :=
  (((manifest.entries.filter isRegular).map Entry.path).filter isGitignore).mergeSort
      (fun a b => fileKey a ≤ fileKey b) ++
    if (manifest.entries.find? fun entry => entry.path = sealIgnoreFile).any isRegular then
      [sealIgnoreFile]
    else []

/-- The directory that the rules of a file are for. -/
def baseOf (file : String) : List Char :=
  if file = sealIgnoreFile then []
  else ((TextSearch.splitOnceBack '/' file.toList).map Prod.fst).getD []

/-- `str::lines` -/
def lines (text : List Char) : List (List Char) :=
  let parts := text.splitOn '\n'
  let parts := if parts.getLast? = some [] then parts.dropLast else parts
  parts.map fun line => if line.getLast? = some '\r' then line.dropLast else line

/-- The rules of one ignore file; a file that is not read holds none. -/
def rulesOfFile (file : String) (text : Option (List Char)) : IgnoreRules :=
  rulesIn (baseOf file) ((text.map lines).getD [])

/-- The rules every seal starts from. -/
def defaultRules : IgnoreRules := fromLines (defaultSealIgnore.map String.toList)

/-- `of_tree`, over what reading an ignore file gives: `none` for what is no regular file or is
longer than `maxIgnoreFileBytes`. -/
def ofTree {ε : Type} (read : String → Except ε (Option (List Char))) (manifest : Manifest) :
    Except ε IgnoreRules := do
  let rules ← (ignoreFiles manifest).mapM fun file => rulesOfFile file <$> read file
  return defaultRules ++ rules.flatten

end SealIgnore

end Afactory
