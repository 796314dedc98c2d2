import Mathlib
import Afactory.SealIgnore
import Afactory.Splitting

/-!
# What the ignore rules decide

The matcher decides what the patterns of a rule stand for, and the last rule that selects a path or
a directory above it decides the path.

* `tokens`, `globAt_iff`: what a segment stands for;
* `Rule.Selects`, `Rule.matchesPath_iff`: the paths a rule is about;
* `ignores_iff`: what is left out;
* `exactLine`, `exact_line_decides`: a line about one path and nothing else.
-/

namespace Afactory

namespace SealIgnore

open Wildcards

/-! ## Segments -/

/-- What a segment of a pattern asks for. -/
def tokens (pattern : List Char) : List (Token Char) :=
  match pattern with
  | [] => []
  | '*' :: rest => .run :: tokens rest
  | '?' :: rest => .one (fun _ => True) :: tokens rest
  | '[' :: rest =>
    match h : closeOf rest with
    | none => .one (· = '[') :: tokens rest
    | some (cls, behind) =>
      have := length_closeOf h
      .one (classAccepts cls · = true) :: tokens behind
  | '\\' :: escaped :: rest => .one (· = escaped) :: tokens rest
  | c :: rest => .one (· = c) :: tokens rest
termination_by pattern.length

/-- **A segment is matched exactly** by what its tokens stand for. -/
theorem globAt_iff {pattern text : List Char} :
    globAt pattern text = true ↔ Matches (tokens pattern) text := by
  fun_induction globAt pattern text with
  | case1 text => simp [tokens]
  | case2 text rest ih =>
    simp only [tokens, List.any_eq_true, List.mem_range, Nat.lt_succ_iff, matches_run_iff, ih]
  | case3 text rest ih =>
    rw [tokens]
    cases text <;> simp_all
  | case4 text rest hnone ih =>
    rw [tokens]
    split
    · cases text <;> simp_all
    · simp_all
  | case5 rest cls behind hsome _ =>
    rw [tokens]
    split
    · simp_all
    · simp
  | case6 rest cls behind hsome _ first others ih =>
    rw [tokens]
    split
    · simp_all
    · simp_all
  | case7 text escaped rest ih =>
    rw [tokens]
    cases text <;> simp_all
  | case8 text c rest hrun hany hclass hescape ih =>
    rw [tokens]
    · cases text <;> simp_all
    all_goals assumption

/-- What the segments of an anchored rule ask for. -/
def segmentTokens (segments : List Segment) : List (Token Segment) :=
  segments.map fun segment =>
    if segment = anyDirectories then .run else .one (Matches (tokens segment))

theorem segmentsMatch_iff {segments parts : List Segment} :
    segmentsMatch segments parts = true ↔ Matches (segmentTokens segments) parts := by
  rw [segmentTokens]
  induction segments generalizing parts with
  | nil => simp [segmentsMatch]
  | cons first rest ih =>
    rw [segmentsMatch.eq_def, List.map_cons]
    dsimp only
    split_ifs with hany
    · simp only [List.any_eq_true, List.mem_range, Nat.lt_succ_iff, matches_run_iff, ih]
    · cases parts with
      | nil => simp
      | cons part others => rw [Bool.and_eq_true, globAt_iff, ih, matches_one_iff]

/-! ## Rules -/

/-- The paths a rule is about: below the directory it came from, at the segments it names, or by
their last segment alone; a rule for directories is about no file. -/
structure Rule.Selects (r : Rule) (parts : List Segment) (directory : Bool) : Prop where
  directory : r.directoryOnly = true → directory = true
  below : ∃ relative last, parts = r.directory ++ (relative ++ [last]) ∧
    if r.anchored then Matches (segmentTokens r.segments) (relative ++ [last])
    else Matches (tokens (r.segments.head r.segments_ne)) last

theorem Rule.matchesPath_iff {r : Rule} {parts : List Segment} {directory : Bool} :
    r.matchesPath parts directory = true ↔ r.Selects parts directory := by
  have hblocked : (r.directoryOnly && !directory) = true ↔
      ¬ (r.directoryOnly = true → directory = true) := by
    cases r.directoryOnly <;> cases directory <;> simp
  rw [matchesPath]
  by_cases hfile : (r.directoryOnly && !directory) = true
  · rw [if_pos hfile]
    exact iff_of_false (by simp) fun h => hblocked.mp hfile h.directory
  rw [if_neg hfile]
  by_cases hstart : r.directory <+: parts
  · rw [if_pos hstart]
    obtain ⟨relative, rfl⟩ := hstart
    rw [List.drop_left]
    have hselects : r.Selects (r.directory ++ relative) directory ↔ ∃ front last,
        relative = front ++ [last] ∧
          if r.anchored then Matches (segmentTokens r.segments) (front ++ [last])
          else Matches (tokens (r.segments.head r.segments_ne)) last := by
      constructor
      · rintro ⟨-, front, last, heq, h⟩
        exact ⟨front, last, List.append_cancel_left heq, h⟩
      · rintro ⟨front, last, rfl, h⟩
        exact ⟨not_not.mp (mt hblocked.mpr hfile), front, last, rfl, h⟩
    rw [hselects]
    rcases List.eq_nil_or_concat relative with rfl | ⟨front, last, rfl⟩
    · simp
    · dsimp only
      rw [List.concat_eq_append, List.getLast?_concat]
      dsimp only
      constructor
      · intro h
        refine ⟨front, last, rfl, ?_⟩
        split_ifs at h ⊢
        · exact segmentsMatch_iff.mp h
        · exact globAt_iff.mp h
      · rintro ⟨front', last', heq, h⟩
        obtain ⟨rfl, hlast⟩ := List.append_inj' heq rfl
        obtain rfl := List.singleton_injective hlast
        split_ifs at h ⊢
        · exact segmentsMatch_iff.mpr h
        · exact globAt_iff.mpr h
  · rw [if_neg hstart]
    refine iff_of_false (by simp) ?_
    rintro ⟨-, relative, last, rfl, -⟩
    exact hstart (List.prefix_append _ _)

/-! ## Decisions -/

/-- The last rule about a path takes nothing back. -/
def Excluded (rules : IgnoreRules) (parts : List Segment) (directory : Bool) : Prop :=
  ∃ before r after, rules = before ++ r :: after ∧ r.Selects parts directory ∧ r.negated = false ∧
    ∀ later ∈ after, ¬ later.Selects parts directory

theorem decides_iff {rules : IgnoreRules} {parts : List Segment} {directory : Bool} :
    decides rules parts directory = true ↔ Excluded rules parts directory := by
  rw [decides, Option.any_eq_true, Excluded]
  constructor
  · rintro ⟨r, hfind, hnegated⟩
    obtain ⟨hr, after, before, heq, hafter⟩ := List.find?_eq_some_iff_append.mp hfind
    refine ⟨before.reverse, r, after.reverse, ?_, Rule.matchesPath_iff.mp hr,
      by simpa using hnegated, fun later hlater => ?_⟩
    · rw [← List.reverse_reverse rules, heq]
      simp
    · rw [← Rule.matchesPath_iff]
      simpa using hafter later (List.mem_reverse.mp hlater)
  · rintro ⟨before, r, after, rfl, hr, hnegated, hafter⟩
    refine ⟨r, List.find?_eq_some_iff_append.mpr ⟨Rule.matchesPath_iff.mpr hr, after.reverse,
      before.reverse, by simp, fun later hlater => ?_⟩, by simp [hnegated]⟩
    have hnot := hafter later (List.mem_reverse.mp hlater)
    rw [← Rule.matchesPath_iff] at hnot
    simpa using hnot

/-- A path is left out by a decision about one of its directories or about itself. -/
theorem ignores_eq_true {rules : IgnoreRules} {path : List Char} :
    ignores rules path = true ↔ ∃ front, front ≠ [] ∧ front <+: path.splitOn '/' ∧
      decides rules front (decide (front ≠ path.splitOn '/')) = true := by
  rw [ignores]
  generalize hparts : path.splitOn '/' = parts
  have hne : parts ≠ [] := hparts ▸ List.splitOn_ne_nil '/' path
  simp only [Bool.or_eq_true, List.any_eq_true, List.mem_range, Bool.and_eq_true, decide_eq_true_eq]
  constructor
  · rintro (⟨depth, hlt, hdepth, h⟩ | h)
    · have hshort : parts.take depth ≠ parts := by
        intro heq
        have := congrArg List.length heq
        rw [List.length_take] at this
        omega
      refine ⟨parts.take depth, ?_, List.take_prefix _ _, ?_⟩
      · rw [ne_eq, List.take_eq_nil_iff, not_or]
        exact ⟨hdepth, hne⟩
      · rwa [decide_eq_true hshort]
    · exact ⟨parts, hne, List.prefix_rfl, by rwa [decide_eq_false (not_not.mpr rfl)]⟩
  · rintro ⟨front, hfront, hstart, h⟩
    by_cases heq : front = parts
    · subst heq
      exact .inr (by rwa [decide_eq_false (not_not.mpr rfl)] at h)
    · refine .inl ⟨front.length, ?_, by simpa using hfront, ?_⟩
      · exact lt_of_le_of_ne hstart.length_le fun hlength => heq (hstart.eq_of_length hlength)
      · rw [decide_eq_true heq] at h
        rwa [← List.prefix_iff_eq_take.mp hstart]

/-- **What is left out**: a path is ignored exactly when the last rule about it, or about one of the
directories above it, takes nothing back. -/
theorem ignores_iff (rules : IgnoreRules) (path : List Char) :
    ignores rules path = true ↔ ∃ front, front ≠ [] ∧ front <+: path.splitOn '/' ∧
      Excluded rules front (decide (front ≠ path.splitOn '/')) := by
  simp only [ignores_eq_true, decides_iff]

/-- A rule behind the others decides what it is about. -/
theorem decides_append_singleton {rules : IgnoreRules} {r : Rule} {parts : List Segment}
    {directory : Bool} :
    decides (rules ++ [r]) parts directory =
      if r.matchesPath parts directory then !r.negated else decides rules parts directory := by
  rw [decides, List.reverse_append, List.reverse_singleton, List.singleton_append, List.find?_cons]
  cases r.matchesPath parts directory <;> rfl

/-! ## A line about one path -/

/-- A character, asked for as it is. -/
def exactChar (c : Char) : List Char :=
  if c ∈ ['*', '?', '[', '\\', ' ', '\r'] then ['[', c, ']'] else [c]

/-- The line about one path. -/
def exactLine (parts : List Segment) : List Char :=
  '/' :: ['/'].intercalate (parts.map (·.flatMap exactChar))

/-- The rule that is read from the line about a path. -/
def exactRule (parts : List Segment) (hne : parts ≠ []) (negated : Bool) : Rule where
  base := []
  segments := parts.map (·.flatMap exactChar)
  anchored := true
  directoryOnly := false
  negated := negated
  segments_ne := by simpa using hne

/-- The segments of a path, as `split` gives them. -/
structure IsPath (parts : List Segment) : Prop where
  ne_nil : parts ≠ []
  segments : ∀ part ∈ parts, part ≠ [] ∧ '/' ∉ part

theorem tokens_exactChar (c : Char) (rest : List Char) :
    tokens (exactChar c ++ rest) = .one (· = c) :: tokens rest := by
  rw [exactChar]
  split_ifs with hmark
  · have hclose : closeOf ([c, ']'] ++ rest) = some ([c], rest) := by
      simp [closeOf, List.idxOf?, List.findIdx?_cons]
    have hclass : ∀ x, classAccepts [c] x = true ↔ x = c := by
      intro x
      have hplain : c ≠ '!' ∧ c ≠ '^' := by
        constructor <;> rintro rfl <;> exact absurd hmark (by decide)
      simp [classAccepts, hplain.1, hplain.2, classHas, eq_comm]
    rw [show ['[', c, ']'] ++ rest = '[' :: ([c, ']'] ++ rest) from rfl, tokens]
    split
    · rename_i hnone
      rw [hclose] at hnone
      cases hnone
    · rename_i cls behind hsome
      rw [hclose] at hsome
      obtain ⟨rfl, rfl⟩ := Prod.mk.inj (Option.some.inj hsome)
      simp only [hclass]
  · simp only [List.mem_cons, List.not_mem_nil, or_false, not_or] at hmark
    rw [List.singleton_append, tokens]
    all_goals simp_all

theorem tokens_exact (text : List Char) :
    tokens (text.flatMap exactChar) = text.map fun c => .one (· = c) := by
  induction text with
  | nil => simp [tokens]
  | cons c text ih => rw [List.flatMap_cons, tokens_exactChar, ih, List.map_cons]

theorem exactChar_ne {c x : Char} (hx : x ∈ exactChar c) (hc : c ≠ '/') : x ≠ '/' := by
  rw [exactChar] at hx
  split_ifs at hx
  · simp only [List.mem_cons, List.not_mem_nil, or_false] at hx
    rcases hx with rfl | rfl | rfl
    · decide
    · exact hc
    · decide
  · rw [List.mem_singleton.mp hx]
    exact hc

theorem getLast?_exactChar (c : Char) :
    ∃ x, (exactChar c).getLast? = some x ∧ x ≠ ' ' ∧ x ≠ '\r' ∧ (c ≠ '/' → x ≠ '/') := by
  rw [exactChar]
  split_ifs with hmark
  · exact ⟨']', rfl, by decide, by decide, fun _ => by decide⟩
  · simp only [List.mem_cons, List.not_mem_nil, or_false, not_or] at hmark
    exact ⟨c, rfl, hmark.2.2.2.2.1, hmark.2.2.2.2.2, id⟩

/-- The line about a path ends with the last character of the path. -/
theorem exactLine_end {parts : List Segment} (h : IsPath parts) :
    ∃ front c, c ≠ '/' ∧ exactLine parts = front ++ exactChar c := by
  obtain ⟨before, last, rfl⟩ := (List.eq_nil_or_concat' parts).resolve_left h.ne_nil
  obtain ⟨hne, hslash⟩ := h.segments last (by simp)
  obtain ⟨name, c, rfl⟩ := (List.eq_nil_or_concat' last).resolve_left hne
  have hc : c ≠ '/' := by
    rintro rfl
    exact hslash (by simp)
  refine ⟨'/' :: ((before.map (·.flatMap exactChar)).flatMap (· ++ ['/']) ++
    name.flatMap exactChar), c, hc, ?_⟩
  rw [exactLine, List.map_append, List.map_singleton, Splitting.intercalate_around]
  simp

/-- The mark of a rule that takes back. -/
def takeBack (negated : Bool) : List Char := if negated then ['!'] else []

/-- The line about a path is read as the rule about it. -/
theorem ruleOf_exactLine {parts : List Segment} (h : IsPath parts) (negated : Bool) :
    ruleOf [] (takeBack negated ++ exactLine parts) = some (exactRule parts h.ne_nil negated) := by
  obtain ⟨front, c, hc, hline⟩ := exactLine_end h
  obtain ⟨x, hx, hblank, hreturn, hslash⟩ := getLast?_exactChar c
  have hchar : exactChar c ≠ [] := by
    intro hnil
    rw [hnil] at hx
    cases hx
  have hlast : (exactLine parts).getLast? = some x := by
    rw [hline, List.getLast?_append_of_ne_nil _ hchar, hx]
  have hlast' : (takeBack negated ++ exactLine parts).getLast? = some x := by
    rw [List.getLast?_append_of_ne_nil _ (by simp [exactLine]), hlast]
  have hdrop : (takeBack negated ++ exactLine parts).rdropWhile (fun c => c = '\r' || c = ' ') =
      takeBack negated ++ exactLine parts := by
    refine List.rdropWhile_eq_self_iff.mpr fun hne => ?_
    rw [List.getLast?_eq_some_getLast hne] at hlast'
    rw [Option.some.inj hlast']
    simp [hblank, hreturn]
  have hrule : (takeBack negated ++ exactLine parts = [] ||
      (takeBack negated ++ exactLine parts).head? = some '#') = false := by
    cases negated <;> simp [takeBack, exactLine]
  have hstrip : stripMark (takeBack negated ++ exactLine parts) = (negated, exactLine parts) := by
    cases negated <;> rfl
  have hend : ¬ (exactLine parts).getLast? = some '/' := by
    rw [hlast, Option.some.injEq]
    exact hslash hc
  have hsplit : (exactLine parts).tail.splitOn '/' = parts.map (·.flatMap exactChar) := by
    refine List.splitOn_intercalate '/' ?_ (by simpa using h.ne_nil)
    intro text htext hmem
    obtain ⟨part, hpart, rfl⟩ := List.mem_map.mp htext
    obtain ⟨c', hc', hmem⟩ := List.mem_flatMap.mp hmem
    refine exactChar_ne hmem (fun heq => ?_) rfl
    exact (h.segments part hpart).2 (heq ▸ hc')
  have htail : ¬ (exactLine parts).tail = [] := by
    intro hnil
    rw [hnil, List.splitOn_nil] at hsplit
    obtain ⟨part, hpart⟩ := List.exists_mem_of_ne_nil _ h.ne_nil
    obtain ⟨c', rest, rfl⟩ := List.exists_cons_of_ne_nil (h.segments part hpart).1
    have hmem := List.mem_map_of_mem (f := (·.flatMap exactChar)) hpart
    rw [← hsplit, List.mem_singleton, List.flatMap_cons, List.append_eq_nil_iff] at hmem
    obtain ⟨y, hy, -⟩ := getLast?_exactChar c'
    rw [hmem.1] at hy
    cases hy
  have hhead : (exactLine parts).head? = some '/' := rfl
  have hanchored : '/' ∈ exactLine parts := List.mem_cons_self
  rw [ruleOf]
  simp only [hdrop, hrule, hstrip, hend, hhead, if_true, if_false, Bool.false_eq_true]
  rw [if_neg htail]
  simp only [exactRule, hsplit, hanchored, decide_true]

/-- The rule about a path is about this path. -/
theorem selects_exactRule {parts ps : List Segment} (h : IsPath parts) {negated directory : Bool} :
    (exactRule parts h.ne_nil negated).Selects ps directory ↔ ps = parts := by
  have htokens : segmentTokens (parts.map (·.flatMap exactChar)) =
      parts.map fun part => .one (· = part) := by
    rw [segmentTokens, List.map_map]
    refine List.map_congr_left fun part hpart => ?_
    obtain ⟨c, rest, rfl⟩ := List.exists_cons_of_ne_nil (h.segments part hpart).1
    have hany : (c :: rest).flatMap exactChar ≠ anyDirectories := by
      rw [List.flatMap_cons, exactChar, anyDirectories]
      split_ifs with hmark
      · simp
      · rintro heq
        rw [List.singleton_append] at heq
        rw [(List.cons.inj heq).1] at hmark
        exact hmark (by decide)
    rw [Function.comp_apply, if_neg hany, tokens_exact]
    congr 1
    funext items
    exact propext matches_literal_iff
  constructor
  · rintro ⟨-, relative, last, rfl, hmatches⟩
    rw [if_pos (show (exactRule parts h.ne_nil negated).anchored = true from rfl)] at hmatches
    exact matches_literal_iff.mp (htokens ▸ hmatches)
  · rintro rfl
    obtain ⟨relative, last, rfl⟩ := (List.eq_nil_or_concat' ps).resolve_left h.ne_nil
    refine ⟨nofun, relative, last, rfl, ?_⟩
    rw [if_pos (show (exactRule _ h.ne_nil negated).anchored = true from rfl)]
    exact htokens ▸ matches_literal_iff.mpr rfl

/-- **A line about one path** leaves out this path and what is below it; with a `!` it takes the
path back, unless a directory above it is left out. Nothing else changes. -/
theorem exact_line_decides (rules : IgnoreRules) {parts : List Segment} (h : IsPath parts)
    (path : List Char) :
    (ignores (rules ++ fromLines [exactLine parts]) path = true ↔
      parts <+: path.splitOn '/' ∨ ignores rules path = true) ∧
    (ignores (rules ++ fromLines ['!' :: exactLine parts]) path = true ↔
      ∃ front, front ≠ [] ∧ front ≠ parts ∧ front <+: path.splitOn '/' ∧
        Excluded rules front (decide (front ≠ path.splitOn '/'))) := by
  have hread : ∀ negated, fromLines [takeBack negated ++ exactLine parts] =
      [exactRule parts h.ne_nil negated] := by
    intro negated
    rw [fromLines, rulesIn, List.filterMap_cons, ruleOf_exactLine h]
    rfl
  have hdecides : ∀ negated front directory,
      decides (rules ++ [exactRule parts h.ne_nil negated]) front directory = true ↔
        (front = parts ∧ negated = false) ∨ (front ≠ parts ∧ Excluded rules front directory) := by
    intro negated front directory
    rw [decides_append_singleton, ← decides_iff]
    by_cases hfront : front = parts
    · rw [if_pos (Rule.matchesPath_iff.mpr ((selects_exactRule h).mpr hfront))]
      simp [hfront, exactRule]
    · rw [if_neg (mt (fun hsel => (selects_exactRule h).mp (Rule.matchesPath_iff.mp hsel)) hfront)]
      simp [hfront]
  constructor
  · rw [show exactLine parts = takeBack false ++ exactLine parts from rfl, hread, ignores_eq_true,
      ignores_iff]
    simp only [hdecides, and_true]
    constructor
    · rintro ⟨front, hne, hstart, rfl | ⟨-, hexcluded⟩⟩
      · exact .inl hstart
      · exact .inr ⟨front, hne, hstart, hexcluded⟩
    · rintro (hstart | ⟨front, hne, hstart, hexcluded⟩)
      · exact ⟨parts, h.ne_nil, hstart, .inl rfl⟩
      · by_cases hfront : front = parts
        · exact ⟨front, hne, hstart, .inl hfront⟩
        · exact ⟨front, hne, hstart, .inr ⟨hfront, hexcluded⟩⟩
  · rw [show '!' :: exactLine parts = takeBack true ++ exactLine parts from rfl, hread,
      ignores_eq_true]
    simp only [hdecides, Bool.true_eq_false, and_false, false_or]
    refine exists_congr fun front => ?_
    tauto

theorem exact_line_below :
    ignores ([] ++ fromLines [exactLine [['a'], ['*']]]) ['a', '/', '*', '/', 'b'] = true ∧
      ignores ([] ++ fromLines ['!' :: exactLine [['a'], ['*']]]) ['a', '/', '*'] = false := by
  have hpath : IsPath [['a'], ['*']] := ⟨by simp, by simp⟩
  constructor
  · exact (exact_line_decides [] hpath _).1.mpr (.inl (by decide))
  · rw [← Bool.not_eq_true, (exact_line_decides [] hpath _).2]
    rintro ⟨front, -, -, -, before, r, after, hrules, -⟩
    simp at hrules

end SealIgnore

end Afactory
