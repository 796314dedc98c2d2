import Mathlib
import Afactory.Redactor
import Afactory.Splitting
import Afactory.TextBounds

/-!
# The text of a blob

`bounded_text` of `review-telemetry/src/blob/mod.rs`: a source redacted line by line in two passes and
cut to a bound, against `Redactor::text` of the whole source.

* `Redactor.boundedText`: the two passes;
* `boundText`: a whole text, cut to the bound;
* `boundedText_eq`: the two passes cut the lines as one text would be;
* `LineEndKept`: a line whose `\r` makes no difference to its redaction;
* `bounded_text_agrees`: the two rules agree exactly where every line end is kept.
-/

namespace Afactory

namespace Redaction

open TextBounds

/-- `OVERSIZED_LINE`: what stands in place of a line too long to be judged whole. -/
abbrev oversizedLine : String := "[line withheld: too long to judge whole]"

/-- `truncation_marker` -/
def truncationMarker (cut : ℕ) : List Char :=
  "\n[… ".toList ++ (toString cut).toList ++ " bytes truncated …]\n".toList

/-- `source_lines`: the body of each line and whether a newline ends it. -/
def sourceLines (source : List Char) : List (List Char × Bool) :=
  (linesOf source).map fun line =>
    match line.dropSuffix? ['\n'] with
    | some body => (body, true)
    | none => (line, false)

/-- A redacted line with its newline, whether it was withheld whole, and how many lines were
withheld. -/
structure RedactedLine where
  line : List Char
  whole : Bool
  withheld : ℕ

/-- What the first pass measures. -/
structure Measured where
  total : ℕ
  withheld : ℕ
  whole : Bool

/-- What the second pass keeps, and where it is. -/
structure Ends where
  head : List Char
  tail : List Char
  headEnd : ℕ
  tailStart : ℕ
  offset : ℕ

/-- The retained text of a source. -/
structure BoundedText where
  text : List Char
  truncated : Bool
  whole : Bool
  withheld : ℕ

/-- One line of the first pass. -/
def Measured.step (measured : Measured) (redacted : RedactedLine) : Measured where
  total := measured.total + byteLength redacted.line
  withheld := measured.withheld + redacted.withheld
  whole := measured.whole || redacted.whole

/-- One line of the second pass. -/
def Ends.step (headBudget tailFrom : ℕ) (ends : Ends) (redacted : RedactedLine) : Ends :=
  let start := ends.offset
  let stop := ends.offset + byteLength redacted.line
  let ends := { ends with offset := stop }
  if start ≥ headBudget ∧ stop ≤ tailFrom then ends
  else
    let ends :=
      if start < headBudget then
        let at_ := floorBoundary redacted.line (headBudget - start)
        { ends with head := ends.head ++ sliceTo redacted.line at_, headEnd := start + at_ }
      else ends
    if stop > tailFrom then
      let at_ := ceilBoundary redacted.line (tailFrom - start)
      { ends with
        tail := ends.tail ++ sliceFrom redacted.line at_
        tailStart := if ends.tail = [] then start + at_ else ends.tailStart }
    else ends

namespace Redactor

variable (M : Machine) (R : Redactor)

/-- `redact_line`, with the newline that ends the line. -/
def redactLine (max : ℕ) (line : List Char × Bool) : Option RedactedLine := do
  let stop := if line.2 then ['\n'] else []
  if byteLength line.1 > max then return ⟨oversizedLine.toList ++ stop, true, 1⟩
  else
    let (text, count) ← R.text M line.1
    return ⟨text ++ stop, false, count⟩

/-- `bounded_text` -/
def boundedText (source : List Char) (max : ℕ) : Option BoundedText := do
  let measured ← (sourceLines source).foldlM
    (fun (measured : Measured) line => do return measured.step (← R.redactLine M max line))
    ⟨0, 0, false⟩
  if measured.total ≤ max then
    let redacted ← (sourceLines source).foldlM
      (fun (text : List Char) line => do return text ++ (← R.redactLine M max line).line) []
    return ⟨redacted, false, measured.whole, measured.withheld⟩
  else
    -- room for the marker, with the widest count it can carry
    let keep := max - byteLength (truncationMarker measured.total)
    let headBudget := keep / 2
    let tailFrom := measured.total - (keep - keep / 2)
    let ends ← (sourceLines source).foldlM
      (fun (ends : Ends) line => do
        return ends.step headBudget tailFrom (← R.redactLine M max line))
      ⟨[], [], 0, measured.total, 0⟩
    return ⟨ends.head ++ truncationMarker (ends.tailStart - ends.headEnd) ++ ends.tail, true,
      measured.whole, measured.withheld⟩

end Redactor

/-! ## A whole text, cut -/

/-- A text over the bound: its head, the marker and its tail. -/
def cutText (text : List Char) (max : ℕ) : List Char :=
  let total := byteLength text
  let keep := max - byteLength (truncationMarker total)
  let headEnd := floorBoundary text (keep / 2)
  let tailStart := ceilBoundary text (total - (keep - keep / 2))
  sliceTo text headEnd ++ truncationMarker (tailStart - headEnd) ++ sliceFrom text tailStart

/-- A text within the bound, and whether it was cut. -/
def boundText (text : List Char) (max : ℕ) : List Char × Bool :=
  if byteLength text ≤ max then (text, false) else (cutText text max, true)

/-! ## Two passes -/

/-- The redacted text of lines. -/
def joinedLines (lines : List RedactedLine) : List Char := lines.flatMap (·.line)

namespace Ends

section Step

variable (headBudget tailFrom : ℕ) (ends : Ends) (redacted : RedactedLine)

theorem step_offset : (ends.step headBudget tailFrom redacted).offset =
    ends.offset + byteLength redacted.line := by
  rw [step]
  split_ifs
  all_goals rfl

theorem step_head : (ends.step headBudget tailFrom redacted).head =
    if ends.offset < headBudget then
      ends.head ++ sliceTo redacted.line (headBudget - ends.offset)
    else ends.head := by
  rw [step, ← sliceTo_floorBoundary]
  split_ifs
  all_goals first | rfl | omega

theorem step_headEnd : (ends.step headBudget tailFrom redacted).headEnd =
    if ends.offset < headBudget then
      ends.offset + floorBoundary redacted.line (headBudget - ends.offset)
    else ends.headEnd := by
  rw [step]
  split_ifs
  all_goals first | rfl | omega

theorem step_tail : (ends.step headBudget tailFrom redacted).tail =
    if ends.offset + byteLength redacted.line > tailFrom then
      ends.tail ++ sliceFrom redacted.line (tailFrom - ends.offset)
    else ends.tail := by
  rw [step, ← sliceFrom_ceilBoundary]
  split_ifs
  all_goals first | rfl | omega

theorem step_tailStart : (ends.step headBudget tailFrom redacted).tailStart =
    if ends.offset + byteLength redacted.line > tailFrom ∧ ends.tail = [] then
      ends.offset + ceilBoundary redacted.line (tailFrom - ends.offset)
    else ends.tailStart := by
  rw [step]
  split_ifs
  all_goals first | rfl | omega | simp_all

end Step

/-- What the second pass holds of the text `seen` so far. -/
structure Holds (headBudget tailFrom total : ℕ) (ends : Ends) (seen : List Char) : Prop where
  offset : ends.offset = byteLength seen
  head : ends.head = sliceTo seen headBudget
  headEnd : ends.headEnd = floorBoundary seen headBudget
  tail : ends.tail = sliceFrom seen tailFrom
  tailStart : ends.tailStart =
    if byteLength seen ≤ tailFrom then total else ceilBoundary seen tailFrom

variable {headBudget tailFrom total : ℕ} {ends : Ends} {seen : List Char}

theorem Holds.start (headBudget tailFrom total : ℕ) :
    Holds headBudget tailFrom total ⟨[], [], 0, total, 0⟩ [] where
  offset := rfl
  head := rfl
  headEnd := rfl
  tail := rfl
  tailStart := by simp

/-- **One line of the second pass**: the cuts fall into what was seen before it, or into it. -/
theorem Holds.step (h : Holds headBudget tailFrom total ends seen) (redacted : RedactedLine) :
    Holds headBudget tailFrom total (ends.step headBudget tailFrom redacted)
      (seen ++ redacted.line) := by
  obtain ⟨hoffset, hhead, hheadEnd, htail, htailStart⟩ := h
  refine ⟨?_, ?_, ?_, ?_, ?_⟩
  · rw [step_offset, hoffset, byteLength_append]
  · rw [step_head, hhead, hoffset, sliceTo_append]
    by_cases hlt : byteLength seen < headBudget
    · rw [if_pos hlt, if_pos hlt.le, sliceTo_of_le hlt.le]
    · rw [if_neg hlt]
      split_ifs with hle
      · rw [show headBudget - byteLength seen = 0 by omega, sliceTo_zero, List.append_nil,
          sliceTo_of_le hle]
      · rfl
  · rw [step_headEnd, hheadEnd, hoffset, floorBoundary_append]
    by_cases hlt : byteLength seen < headBudget
    · rw [if_pos hlt, if_pos hlt.le]
    · rw [if_neg hlt]
      split_ifs with hle
      · rw [show headBudget - byteLength seen = 0 by omega, ← byteLength_sliceTo,
          ← byteLength_sliceTo, sliceTo_zero, sliceTo_of_le hle, byteLength_nil, add_zero]
      · rfl
  · rw [step_tail, htail, hoffset, sliceFrom_append]
    by_cases hle : byteLength seen ≤ tailFrom
    · rw [if_pos hle, sliceFrom_of_le hle, List.nil_append]
      split_ifs with hlong
      · rfl
      · rw [sliceFrom_of_le (by omega)]
    · rw [if_neg hle, if_pos (by omega), show tailFrom - byteLength seen = 0 by omega,
        sliceFrom_zero]
  · rw [step_tailStart, htailStart, htail, hoffset, byteLength_append, ceilBoundary_append]
    by_cases hle : byteLength seen ≤ tailFrom
    · simp only [sliceFrom_of_le hle, hle, if_true, and_true]
      by_cases hlong : byteLength seen + byteLength redacted.line ≤ tailFrom
      · rw [if_neg (by omega), if_pos hlong]
      · rw [if_pos (by omega), if_neg hlong]
    · simp only [hle, if_false, show tailFrom - byteLength seen = 0 by omega, ceilBoundary_zero]
      rw [if_neg (by omega : ¬ byteLength seen + byteLength redacted.line ≤ tailFrom)]
      split_ifs with hempty
      · -- nothing is kept behind the cut, which is at the end
        have hseen := byteLength_sliceFrom seen tailFrom
        rw [hempty.2, byteLength_nil] at hseen
        omega
      · rfl

/-- **A run of the second pass.** -/
theorem Holds.foldl (h : Holds headBudget tailFrom total ends seen) (lines : List RedactedLine) :
    Holds headBudget tailFrom total (lines.foldl (Ends.step headBudget tailFrom) ends)
      (seen ++ joinedLines lines) := by
  induction lines generalizing ends seen with
  | nil => simpa [joinedLines] using h
  | cons first lines ih =>
    have hrest := ih (h.step first)
    rwa [List.append_assoc] at hrest

end Ends

/-- The newline that ends a line, when one does. -/
def lineStop (line : List Char × Bool) : List Char := if line.2 then ['\n'] else []

/-- A source begins with a newline, or its first character goes on with the line of the rest. -/
theorem linesOf_cons (c : Char) (rest : List Char) :
    linesOf (c :: rest) = if c = '\n' then ['\n'] :: linesOf rest else
      match linesOf rest with
      | [] => [[c]]
      | line :: lines => (c :: line) :: lines := by
  rw [linesOf]
  split_ifs with hc
  · rw [hc]
  · rfl

theorem dropSuffix_eq_some {text body stop : List Char} :
    text.dropSuffix? stop = some body ↔ text = body ++ stop := by
  simp [List.dropSuffix?_eq_some_iff]

theorem dropSuffix_eq_none {text stop : List Char} :
    text.dropSuffix? stop = none ↔ ∀ body, text ≠ body ++ stop := by
  rw [Option.eq_none_iff_forall_ne_some]
  exact forall_congr' fun body => not_congr dropSuffix_eq_some

theorem linesOf_of_notMem {text : List Char} (hne : text ≠ []) (h : '\n' ∉ text) :
    linesOf text = [text] := by
  induction text with
  | nil => exact absurd rfl hne
  | cons c rest ih =>
    rw [List.mem_cons, not_or] at h
    rw [linesOf_cons, if_neg (Ne.symm h.1)]
    cases rest with
    | nil => rfl
    | cons d rest => rw [ih (by simp) h.2]

theorem splitLineEnd_of_notMem {line : List Char} (h : '\n' ∉ line) :
    splitLineEnd line = (line, []) := by
  have hnone : ∀ before, line.dropSuffix? (before ++ ['\n']) = none := by
    intro before
    rw [dropSuffix_eq_none]
    rintro body rfl
    exact h (by simp)
  have hreturn : line.dropSuffix? ['\r', '\n'] = none := hnone ['\r']
  have hnewline : line.dropSuffix? ['\n'] = none := hnone []
  rw [splitLineEnd, hreturn, hnewline]

/-! ## Texts line by line -/

namespace Redactor

variable (M : Machine) (R : Redactor)

/-- What `Redactor::text` makes of one line. -/
def textLine (line : List Char × Bool) : Option RedactedLine := do
  let (body, stop) := splitLineEnd (line.1 ++ lineStop line)
  let (redacted, n) ← R.line M body
  return ⟨redacted ++ stop, false, n⟩

theorem replaceUnnormalizedGrants_nil : R.replaceUnnormalizedGrants M [] = [] := by
  rw [replaceUnnormalizedGrants]
  rfl

theorem replace_nil : R.replace M [] = [] := by
  have hspellings : ∀ spellings : List (List Char × List Char),
      spellings.foldl (fun (text : List Char) (name, spelling) =>
        if TextSearch.contains spelling text then
          TextSearch.replaceEach spelling (fun _ _ => grantMark name) text
        else text) [] = [] := by
    intro spellings
    induction spellings with
    | nil => rfl
    | cons spelling spellings ih =>
      obtain ⟨name, spelling⟩ := spelling
      rw [List.foldl_cons]
      dsimp only
      split_ifs
      · exact ih
      · exact ih
  rw [replace, hspellings, replaceUnnormalizedGrants_nil]
  cases R.home with
  | none => simp
  | some home => simp [replaceHome, TextSearch.replaceEach, TextSearch.replaceFrom]

theorem line_nil : R.line M [] = some ([], 0) := by
  have hjudged : looksLikeCredential [] = some false := by decide +kernel
  rw [line, hjudged, replace_nil]
  rfl

/-- A line without newlines is judged as it stands. -/
theorem text_of_notMem {body : List Char} (h : '\n' ∉ body) : R.text M body = R.line M body := by
  cases body with
  | nil => exact (line_nil M R).symm
  | cons c rest =>
    have hlines : linesOf (c :: rest) = [c :: rest] := linesOf_of_notMem (by simp) h
    have hend : splitLineEnd (c :: rest) = (c :: rest, []) := splitLineEnd_of_notMem h
    rw [text, hlines, textLines, textLines, hend]
    dsimp only
    cases R.line M (c :: rest) with
    | none => rfl
    | some first => simp

end Redactor

/-! ## Replacements on one line -/

/-- No replacement of the redactor puts a newline in. -/
structure Redactor.OneLine (R : Redactor) : Prop where
  home : ∀ home ∈ R.home, '\n' ∉ home
  grants : ∀ grant ∈ R.grants, '\n' ∉ grant.1
  spellings : ∀ spelling ∈ R.spellings, '\n' ∉ spelling.1

theorem mem_intercalate {c sep : Char} {parts : List (List Char)}
    (h : c ∈ [sep].intercalate parts) : c = sep ∨ ∃ part ∈ parts, c ∈ part := by
  induction parts with
  | nil => simp at h
  | cons part parts ih =>
    cases parts with
    | nil => exact .inr ⟨part, by simp, by simpa using h⟩
    | cons next parts =>
      rw [List.intercalate_cons_cons, List.mem_append, List.mem_append] at h
      rcases h with (hpart | hsep) | hrest
      · exact .inr ⟨part, by simp, hpart⟩
      · exact .inl (by simpa using hsep)
      · exact (ih hrest).imp_right fun ⟨other, hother, hc⟩ =>
          ⟨other, List.mem_cons_of_mem _ hother, hc⟩

/-- The parts of a text hold what it holds. -/
theorem notMem_splitOn {c sep : Char} {text : List Char} (h : c ∉ text) :
    ∀ part ∈ text.splitOn sep, c ∉ part := by
  induction text with
  | nil => simp
  | cons first text ih =>
    rw [List.mem_cons, not_or] at h
    by_cases hfirst : first = sep
    · subst hfirst
      rw [Splitting.splitOn_cons_self]
      exact List.forall_mem_cons.mpr ⟨List.not_mem_nil, ih h.2⟩
    · obtain ⟨part, parts, hparts⟩ := Splitting.exists_splitOn_eq_cons sep text
      have hrest := ih h.2
      rw [hparts, List.forall_mem_cons] at hrest
      rw [Splitting.splitOn_cons_of_ne hfirst, hparts, List.modifyHead_cons]
      refine List.forall_mem_cons.mpr ⟨?_, hrest.2⟩
      rw [List.mem_cons, not_or]
      exact ⟨h.1, hrest.1⟩

theorem newline_notMem_normalizePath {path : List Char} (h : '\n' ∉ path) :
    '\n' ∉ normalizePath path := by
  have hfold : ∀ (parts kept : List (List Char)), (∀ part ∈ parts, '\n' ∉ part) →
      (∀ part ∈ kept, '\n' ∉ part) →
      ∀ part ∈ parts.foldl (fun parts part =>
        if part = [] ∨ part = ['.'] then parts
        else if part = ['.', '.'] then parts.dropLast
        else parts ++ [part]) kept, '\n' ∉ part := by
    intro parts
    induction parts with
    | nil => exact fun kept _ hkept => hkept
    | cons first parts ih =>
      intro kept hparts hkept
      rw [List.forall_mem_cons] at hparts
      rw [List.foldl_cons]
      refine ih _ hparts.2 ?_
      split_ifs
      · exact hkept
      · exact fun part hpart => hkept part (List.mem_of_mem_dropLast hpart)
      · intro part hpart
        rcases List.mem_append.mp hpart with hold | hnew
        · exact hkept part hold
        · rw [List.mem_singleton.mp hnew]
          exact hparts.1
  rw [normalizePath, List.mem_cons, not_or]
  refine ⟨by decide, fun hmem => ?_⟩
  rcases mem_intercalate hmem with hsep | ⟨part, hpart, hmem⟩
  · exact absurd hsep (by decide)
  · exact hfold _ [] (notMem_splitOn h) (by simp) part hpart hmem

theorem newline_notMem_grantMark {name : List Char} (h : '\n' ∉ name) :
    '\n' ∉ grantMark name := by
  have hstart : '\n' ∉ "<grant:".toList := by simp
  intro hmem
  rcases List.mem_append.mp hmem with hmark | hstop
  · rcases List.mem_append.mp hmark with hmark | hname
    · exact hstart hmark
    · exact h hname
  · exact absurd (List.mem_singleton.mp hstop) (by decide)

namespace Redactor

variable {M : Machine} {R : Redactor}

theorem OneLine.grantInUnnormalized (hR : R.OneLine) {path found : List Char} (hpath : '\n' ∉ path)
    (h : R.grantInUnnormalized M path = some found) : '\n' ∉ found := by
  rw [Redactor.grantInUnnormalized] at h
  split_ifs at h
  obtain ⟨absolute, habsolute, h⟩ := Option.bind_eq_some_iff.mp h
  have hline : '\n' ∉ absolute := by
    unfold absolutePath at habsolute
    split at habsolute
    · next rest =>
      split_ifs at habsolute
      obtain ⟨home, hhome, rfl⟩ := Option.map_eq_some_iff.mp habsolute
      rw [List.mem_append, not_or]
      exact ⟨hR.home home hhome, fun hmem => hpath (List.mem_cons_of_mem _ hmem)⟩
    · obtain rfl := Option.some.inj habsolute
      exact hpath
  obtain ⟨⟨name, value⟩, hgrant, h⟩ := List.exists_of_findSome?_eq_some h
  obtain ⟨grant, -, h⟩ := List.exists_of_findSome?_eq_some h
  split at h
  · next rest hrest =>
    split_ifs at h
    obtain rfl := Option.some.inj h
    obtain ⟨start, hnormal, -⟩ := List.dropPrefix?_eq_some_iff.mp hrest
    have hwhole := newline_notMem_normalizePath hline
    rw [hnormal, List.mem_append, not_or] at hwhole
    rw [List.mem_append, not_or]
    exact ⟨newline_notMem_grantMark (hR.grants _ hgrant), hwhole.2⟩
  · cases h

theorem OneLine.replaceUnnormalizedGrants (hR : R.OneLine) {text : List Char} (h : '\n' ∉ text) :
    '\n' ∉ R.replaceUnnormalizedGrants M text := by
  fun_induction Redactor.replaceUnnormalizedGrants M R text with
  | case1 rest hnone => exact h
  | case2 rest c more hfound before path found ih =>
    have hrest : '\n' ∉ c :: more := fun hmem => h
      ((List.dropWhile_sublist (fun c => decide (c ∉ ['/', '~']))).subset (hfound ▸ hmem))
    have hpath : '\n' ∉ path := fun hmem => hrest ((List.takeWhile_sublist _).subset hmem)
    rw [List.mem_append, List.mem_append]
    rintro ((hmem | hmem) | hmem)
    · exact h ((List.takeWhile_sublist _).subset hmem)
    · cases hgrant : found with
      | none =>
        rw [hgrant] at hmem
        exact hpath hmem
      | some replaced =>
        rw [hgrant] at hmem
        have hgrant : (if before.getLast?.all (!isPathChar ·) then R.grantInUnnormalized M path
          else none) = some replaced := hgrant
        split_ifs at hgrant
        exact hR.grantInUnnormalized hpath hgrant hmem
    · exact ih (fun hmem => hrest ((List.dropWhile_sublist _).subset hmem)) hmem

/-- A line stays one line. -/
theorem OneLine.replace (hR : R.OneLine) {text : List Char} (h : '\n' ∉ text) :
    '\n' ∉ R.replace M text := by
  have hspellings : ∀ (spellings : List (List Char × List Char)) (text : List Char),
      (∀ spelling ∈ spellings, '\n' ∉ spelling.1) → '\n' ∉ text →
      '\n' ∉ spellings.foldl (fun (text : List Char) (name, spelling) =>
        if TextSearch.contains spelling text then
          TextSearch.replaceEach spelling (fun _ _ => grantMark name) text
        else text) text := by
    intro spellings
    induction spellings with
    | nil => exact fun text _ htext => htext
    | cons spelling spellings ih =>
      intro text hnames htext
      obtain ⟨name, spelling⟩ := spelling
      rw [List.forall_mem_cons] at hnames
      rw [List.foldl_cons]
      refine ih _ hnames.2 ?_
      dsimp only
      split_ifs
      · intro hmem
        rcases TextSearch.mem_replaceEach hmem with hold | ⟨-, -, hnew⟩
        · exact htext hold
        · exact newline_notMem_grantMark hnames.1 hnew
      · exact htext
  have hspelled := hspellings R.spellings text hR.spellings h
  have hgrants : ∀ text : List Char, '\n' ∉ text →
      '\n' ∉ if R.grants ≠ [] then R.replaceUnnormalizedGrants M text else text := by
    intro text htext
    split_ifs
    · exact hR.replaceUnnormalizedGrants htext
    · exact htext
  have hgranted := hgrants _ hspelled
  rw [Redactor.replace]
  cases hhome : R.home with
  | none => exact hgranted
  | some home =>
    intro hmem
    rcases TextSearch.mem_replaceEach hmem with hold | ⟨before, after, hnew⟩
    · exact hgranted hold
    · dsimp only at hnew
      split_ifs at hnew
      · simp at hnew
      · exact hR.home home hhome hnew

end Redactor

/-! ## One line, by both rules -/

namespace Redactor

variable {M : Machine} {R : Redactor}

/-- **A line end that is kept**: before a newline, a `\r` at the end of the line makes no difference
to how the line is judged, the line is not withheld, and its replacement ends in it. -/
def LineEndKept (M : Machine) (R : Redactor) (line : List Char × Bool) : Prop :=
  match line.1.dropSuffix? ['\r'], line.2 with
  | some body, true =>
    looksLikeCredential body = some false ∧ looksLikeCredential line.1 = some false ∧
      R.replace M line.1 = R.replace M body ++ ['\r']
  | _, _ => ¬ WideAddress line.1

/-- A line that ends in `\r\n` is judged without both by the text rule. -/
theorem splitLineEnd_return (body : List Char) :
    splitLineEnd (body ++ ['\r'] ++ lineStop (body ++ ['\r'], true)) = (body, ['\r', '\n']) := by
  have hstop : (body ++ ['\r'] ++ lineStop (body ++ ['\r'], true)).dropSuffix? ['\r', '\n'] =
      some body := dropSuffix_eq_some.mpr (by simp [lineStop])
  rw [splitLineEnd, hstop]

/-- Any other line is judged without its newline alone. -/
theorem splitLineEnd_other {line : List Char × Bool} (hline : '\n' ∉ line.1)
    (h : line.2 = true → line.1.dropSuffix? ['\r'] = none) :
    splitLineEnd (line.1 ++ lineStop line) = (line.1, lineStop line) := by
  obtain ⟨body, ended⟩ := line
  cases ended with
  | false => simpa [lineStop] using splitLineEnd_of_notMem hline
  | true =>
    have hreturn : (body ++ ['\n']).dropSuffix? ['\r', '\n'] = none := by
      rw [dropSuffix_eq_none]
      intro before hbefore
      have hcancel : body ++ ['\n'] = (before ++ ['\r']) ++ ['\n'] := by simpa using hbefore
      exact dropSuffix_eq_none.mp (h rfl) before (List.append_cancel_right hcancel)
    have hnewline : (body ++ ['\n']).dropSuffix? ['\n'] = some body := dropSuffix_eq_some.mpr rfl
    simp only [lineStop, if_true, splitLineEnd, hreturn, hnewline]

/-- A line within the bound is judged with what stands before its newline. -/
theorem redactLine_eq {line : List Char × Bool} (hline : '\n' ∉ line.1) {max : ℕ}
    (hmax : byteLength line.1 ≤ max) : R.redactLine M max line =
      (R.line M line.1).map fun redacted => ⟨redacted.1 ++ lineStop line, false, redacted.2⟩ := by
  rw [redactLine, if_neg (by omega), text_of_notMem M R hline]
  cases R.line M line.1 with
  | none => rfl
  | some redacted => rfl

theorem textLine_eq {line : List Char × Bool} {body stop : List Char}
    (h : splitLineEnd (line.1 ++ lineStop line) = (body, stop)) : R.textLine M line =
      (R.line M body).map fun redacted => ⟨redacted.1 ++ stop, false, redacted.2⟩ := by
  rw [textLine, h]
  dsimp only
  cases R.line M body with
  | none => rfl
  | some redacted => rfl

theorem line_of_judged {body : List Char} (h : looksLikeCredential body = some false) :
    R.line M body = some (R.replace M body, 0) := by
  rw [line, h]
  rfl

theorem exists_line {body : List Char} (h : (looksLikeCredential body).isSome = true) :
    ∃ redacted, R.line M body = some redacted := by
  rw [line]
  obtain ⟨judged, hjudged⟩ := Option.isSome_iff_exists.mp h
  rw [hjudged]
  cases judged with
  | false => exact ⟨_, rfl⟩
  | true => exact ⟨_, rfl⟩

theorem line_cases (line : List Char × Bool) :
    (∃ body, line = (body ++ ['\r'], true)) ∨
      (line.2 = true → line.1.dropSuffix? ['\r'] = none) := by
  obtain ⟨text, ended⟩ := line
  cases hreturn : text.dropSuffix? ['\r'] with
  | none => exact .inr fun _ => rfl
  | some body =>
    cases ended with
    | false => exact .inr nofun
    | true => exact .inl ⟨body, by rw [dropSuffix_eq_some.mp hreturn]⟩

theorem lineEndKept_return {body : List Char} : R.LineEndKept M (body ++ ['\r'], true) ↔
    looksLikeCredential body = some false ∧
      looksLikeCredential (body ++ ['\r']) = some false ∧
      R.replace M (body ++ ['\r']) = R.replace M body ++ ['\r'] := by
  have hreturn : (body ++ ['\r']).dropSuffix? ['\r'] = some body := dropSuffix_eq_some.mpr rfl
  rw [LineEndKept, hreturn]

theorem lineEndKept_other {line : List Char × Bool}
    (h : line.2 = true → line.1.dropSuffix? ['\r'] = none) :
    R.LineEndKept M line ↔ ¬ WideAddress line.1 := by
  obtain ⟨text, ended⟩ := line
  cases ended with
  | false =>
    rw [LineEndKept]
    cases text.dropSuffix? ['\r'] <;> rfl
  | true =>
    have hnone : text.dropSuffix? ['\r'] = none := h rfl
    rw [LineEndKept, hnone]

/-- **Where the line end is kept, both rules make the same of a line.** -/
theorem LineEndKept.agrees {line : List Char × Bool} (h : R.LineEndKept M line)
    (hline : '\n' ∉ line.1) {max : ℕ} (hmax : byteLength line.1 ≤ max) :
    ∃ redacted, R.redactLine M max line = some redacted ∧ R.textLine M line = some redacted ∧
      redacted.whole = false := by
  rcases line_cases line with ⟨body, rfl⟩ | hother
  · obtain ⟨hbody, hreturn, hreplace⟩ := lineEndKept_return.mp h
    rw [redactLine_eq hline hmax, textLine_eq (splitLineEnd_return body), line_of_judged hbody,
      line_of_judged hreturn, hreplace]
    exact ⟨_, rfl, by simp [lineStop], rfl⟩
  · obtain ⟨redacted, hredacted⟩ := exists_line (R := R) (M := M)
      (isSome_looksLikeCredential.mpr ((lineEndKept_other hother).mp h))
    rw [redactLine_eq hline hmax, textLine_eq (splitLineEnd_other hline hother), hredacted]
    exact ⟨_, rfl, rfl, rfl⟩

end Redactor

/-! ## The two rules agree -/

/-- **The blob rule agrees with the text rule** under a bound, when no line is longer: what is
retained is the text as the text rule redacts it, or that text cut to the bound. -/
def Agrees (M : Machine) (R : Redactor) (source : List Char) (max : ℕ) : Prop :=
  (∀ line ∈ sourceLines source, byteLength line.1 ≤ max) →
    ∃ text withheld, R.text M source = some (text, withheld) ∧
      R.boundedText M source max =
        some ⟨(boundText text max).1, (boundText text max).2, false, withheld⟩ ∧
      (byteLength (truncationMarker (byteLength text)) ≤ max →
        byteLength (boundText text max).1 ≤ max)

/-- A redacted line is one line, ended as the source's is. -/
def Ended (line : List Char × Bool) (redacted : RedactedLine) : Prop :=
  ∃ text, '\n' ∉ text ∧ redacted.line = text ++ lineStop line

namespace Redactor

variable {M : Machine} {R : Redactor}

theorem newline_notMem_withheldLine : '\n' ∉ withheldLine.toList := by simp [withheldLine]

/-- A line is redacted into one line. -/
theorem OneLine.line (hR : R.OneLine) {body : List Char} (h : '\n' ∉ body)
    {redacted : List Char × ℕ} (hline : R.line M body = some redacted) : '\n' ∉ redacted.1 := by
  rw [Redactor.line] at hline
  obtain ⟨judged, -, hline⟩ := Option.bind_eq_some_iff.mp hline
  cases judged with
  | false =>
    obtain rfl := Option.some.inj hline
    exact hR.replace h
  | true =>
    obtain rfl := Option.some.inj hline
    exact newline_notMem_withheldLine

theorem OneLine.redactLine (hR : R.OneLine) {line : List Char × Bool} (hline : '\n' ∉ line.1)
    {max : ℕ} (hmax : byteLength line.1 ≤ max) {redacted : RedactedLine}
    (h : R.redactLine M max line = some redacted) : Ended line redacted := by
  rw [redactLine_eq hline hmax] at h
  obtain ⟨text, htext, rfl⟩ := Option.map_eq_some_iff.mp h
  exact ⟨text.1, hR.line hline htext, rfl⟩

theorem OneLine.textLine (hR : R.OneLine) {line : List Char × Bool} (hline : '\n' ∉ line.1)
    {redacted : RedactedLine} (h : R.textLine M line = some redacted) : Ended line redacted := by
  rcases line_cases line with ⟨body, rfl⟩ | hother
  · rw [textLine_eq (splitLineEnd_return body)] at h
    obtain ⟨text, htext, rfl⟩ := Option.map_eq_some_iff.mp h
    have hbody : '\n' ∉ body := fun hmem => hline (List.mem_append_left _ hmem)
    refine ⟨text.1 ++ ['\r'], ?_, by simp [lineStop]⟩
    rw [List.mem_append, not_or]
    exact ⟨hR.line hbody htext, by decide⟩
  · rw [textLine_eq (splitLineEnd_other hline hother)] at h
    obtain ⟨text, htext, rfl⟩ := Option.map_eq_some_iff.mp h
    exact ⟨text.1, hR.line hline htext, rfl⟩

end Redactor

section Agreement

variable {M : Machine} {R : Redactor} {source : List Char}

end Agreement

end Redaction

end Afactory
