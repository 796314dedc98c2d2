import Mathlib
import Afactory.Redactor
import Afactory.TextSearch

/-!
# Home paths

What `Redactor::replace` of `review-telemetry/src/redact.rs` makes of a home prefix.

* `HomeReplaced`: the home prefix replaced where it stands as a path in the text;
* `Crowded`: a prefix right behind another, where the loop sees no character before it;
* `replace_home_iff`: the home prefix is replaced where it stands as a path, exactly where none is
  crowded.
-/

namespace Afactory

namespace Redaction

open TextSearch

/-- A letter, a digit, `_`, `-` or `.`. -/
def isWordChar (c : Char) : Bool := c.isAlphanum || c ∈ ['_', '-', '.']

/-- A path goes on here: the text ends, or a `/` follows. -/
def goesOn (after : List Char) : Bool := after = [] || startsWith (· = '/') after

/-- An occurrence stands as a path: it goes on as one, and no word runs into it. -/
def standsAsPath (before after : List Char) : Bool :=
  goesOn after && before.getLast?.all fun c => !isWordChar c

/-- What stands in place of an occurrence. -/
def homeMark (home before after : List Char) : List Char :=
  if standsAsPath before after then ['~'] else home

/-- **The home prefix is replaced where it stands as a path**: of the occurrences from the left,
without overlap, each is replaced by what stands before it in the text and behind it. -/
inductive HomeReplaced (home : List Char) : List Char → List Char → List Char → Prop
  | done {before rest : List Char} (hnone : ¬ home <:+: rest) : HomeReplaced home before rest rest
  | next {before gap after out : List Char} (hfirst : FirstAt home gap after)
      (hrest : HomeReplaced home (before ++ gap ++ home) after out) :
      HomeReplaced home before (gap ++ home ++ after)
        (gap ++ (homeMark home (before ++ gap) after ++ out))

/-- The home prefix ends in a character of a word. -/
def EndsWord (home : List Char) : Prop := ∃ c ∈ home.getLast?, isWordChar c = true

/-- An occurrence that goes on as a path stands right behind another, whose last character is one of
a word. -/
def Crowded (home text : List Char) : Prop :=
  EndsWord home ∧ ∃ before after, (before, home ++ after) ∈ occurrences home text ∧
    goesOn after = true

/-! ## One reading -/

/-- **There is one way to replace it.** -/
theorem HomeReplaced.unique {home before rest out out' : List Char}
    (h : HomeReplaced home before rest out) (h' : HomeReplaced home before rest out') :
    out = out' := by
  induction h generalizing out' with
  | done hnone =>
    cases h' with
    | done _ => rfl
    | next _ _ => exact absurd (List.infix_append _ _ _) hnone
  | @next before gap after out hfirst hrest ih =>
    generalize htext : gap ++ home ++ after = text at h'
    cases h' with
    | done hnone => exact absurd (htext ▸ List.infix_append _ _ _) hnone
    | next hfirst' hrest' =>
      obtain ⟨rfl, rfl⟩ := firstAt_unique hfirst hfirst' htext
      rw [ih hrest']

/-! ## The loop -/

/-- What the loop puts in place of an occurrence, by what stands before it in the slice. -/
theorem replaceHome_eq (home text : List Char) :
    Redactor.replaceHome home text = replaceFrom home (homeMark home) 0 [] text := rfl

/-- Behind an occurrence, the next is crowded or a later one is. -/
def CrowdedFrom (home before rest : List Char) : Prop :=
  EndsWord home ∧ ((before ≠ [] ∧ ∃ after, rest = home ++ after ∧ goesOn after = true) ∨
    ∃ before' after, (before', home ++ after) ∈ occurrencesFrom home 0 before rest ∧
      goesOn after = true)

/-- Where the characters before agree, so do the marks. -/
theorem homeMark_append {home before gap : List Char} (after : List Char) (hgap : gap ≠ []) :
    homeMark home (before ++ gap) after = homeMark home gap after := by
  rw [homeMark, homeMark, standsAsPath, standsAsPath, List.getLast?_append_of_ne_nil _ hgap]

/-- What the loop sees before an occurrence makes the mark it has in the text, unless it is
crowded. -/
theorem mark_behind {home before : List Char} (hne : home ≠ [])
    (hbefore : before = [] ∨ ∃ earlier, before = earlier ++ home) (gap after : List Char) :
    homeMark home gap after = homeMark home (before ++ gap) after ∧
        ¬ (EndsWord home ∧ gap = [] ∧ before ≠ [] ∧ goesOn after = true) ∨
      (EndsWord home ∧ gap = [] ∧ before ≠ [] ∧ goesOn after = true) ∧
        homeMark home gap after = ['~'] ∧ homeMark home (before ++ gap) after = home := by
  by_cases hgap : gap = []
  · subst hgap
    rcases hbefore with rfl | ⟨earlier, rfl⟩
    · exact .inl ⟨by rw [List.nil_append], fun h => h.2.2.1 rfl⟩
    · have hlast := List.getLast?_eq_some_getLast hne
      rw [List.append_nil, homeMark_append after hne]
      by_cases hon : goesOn after = true
      · by_cases hword : isWordChar (home.getLast hne) = true
        · refine .inr ⟨⟨⟨_, hlast, hword⟩, rfl, by simp [hne], hon⟩, ?_, ?_⟩
          · simp [homeMark, standsAsPath, hon]
          · simp [homeMark, standsAsPath, hlast, hword]
        · refine .inl ⟨by simp [homeMark, standsAsPath, hlast, hword], fun h => ?_⟩
          obtain ⟨w, hw, hwchar⟩ := h.1
          rw [hlast, Option.mem_some_iff] at hw
          exact hword (hw ▸ hwchar)
      · exact .inl ⟨by simp [homeMark, standsAsPath, hon], fun h => hon h.2.2.2⟩
  · exact .inl ⟨(homeMark_append after hgap).symm, fun h => hgap h.2.1⟩

theorem crowdedFrom_next {home before gap after : List Char} (hne : home ≠ [])
    (hfirst : FirstAt home gap after) :
    CrowdedFrom home before (gap ++ home ++ after) ↔
      CrowdedFrom home (before ++ gap ++ home) after ∨
        EndsWord home ∧ gap = [] ∧ before ≠ [] ∧ goesOn after = true := by
  have hbehind : before ++ gap ++ home ≠ [] := by simp [hne]
  have hhere : (∃ after', gap ++ home ++ after = home ++ after' ∧ goesOn after' = true) ↔
      gap = [] ∧ goesOn after = true := by
    constructor
    · rintro ⟨after', htext, hon⟩
      have hstart : FirstAt home [] after' := trivial
      obtain ⟨rfl, rfl⟩ := firstAt_unique hfirst hstart htext
      exact ⟨rfl, hon⟩
    · rintro ⟨rfl, hon⟩
      exact ⟨after, rfl, hon⟩
  have hhead : (∃ before' after', (before', home ++ after') ∈
      occurrencesFrom home 0 before (gap ++ home ++ after) ∧ goesOn after' = true) ↔
      (∃ after', after = home ++ after' ∧ goesOn after' = true) ∨
        ∃ before' after', (before', home ++ after') ∈
          occurrencesFrom home 0 (before ++ gap ++ home) after ∧ goesOn after' = true := by
    rw [occurrencesFrom_first hne hfirst]
    simp only [List.mem_cons, Prod.mk.injEq]
    constructor
    · rintro ⟨before', after', ⟨-, hafter⟩ | hmem, hon⟩
      · exact .inl ⟨after', hafter.symm, hon⟩
      · exact .inr ⟨before', after', hmem, hon⟩
    · rintro (⟨after', rfl, hon⟩ | ⟨before', after', hmem, hon⟩)
      · exact ⟨_, after', .inl ⟨rfl, rfl⟩, hon⟩
      · exact ⟨before', after', .inr hmem, hon⟩
  rw [CrowdedFrom, CrowdedFrom, hhere, hhead]
  constructor
  · rintro ⟨hword, ⟨hbefore, hgap, hon⟩ | hlater | hlater⟩
    · exact .inr ⟨hword, hgap, hbefore, hon⟩
    · exact .inl ⟨hword, .inl ⟨hbehind, hlater⟩⟩
    · exact .inl ⟨hword, .inr hlater⟩
  · rintro (⟨hword, ⟨-, hlater⟩ | hlater⟩ | ⟨hword, hgap, hbefore, hon⟩)
    · exact ⟨hword, .inr (.inl hlater)⟩
    · exact ⟨hword, .inr (.inr hlater)⟩
    · exact ⟨hword, .inl ⟨hbefore, hgap, hon⟩⟩

/-- A home prefix that ends in a word is at least as long as the mark, and never the mark itself. -/
theorem mark_ne_home {home : List Char} (hword : EndsWord home) {out out' : List Char}
    (hlength : out'.length ≤ out.length) : ['~'] ++ out' ≠ home ++ out := by
  obtain ⟨w, hlast, hw⟩ := hword
  obtain ⟨start, rfl⟩ := List.getLast?_eq_some_iff.mp hlast
  intro heq
  cases start with
  | nil =>
    obtain rfl : '~' = w := (List.cons.inj heq).1
    exact absurd hw (by decide)
  | cons c start =>
    have hlengths := congrArg List.length heq
    simp only [List.length_append, List.length_cons, List.length_nil] at hlengths
    omega

/-- **One run of the loop**: the text it gives is no longer than the one with the paths replaced,
and just this when no occurrence is crowded. -/
theorem replaceFrom_run {home : List Char} (hne : home ≠ []) (rest before : List Char)
    (hbefore : before = [] ∨ ∃ earlier, before = earlier ++ home) :
    ∃ out, HomeReplaced home before rest out ∧
      (replaceFrom home (homeMark home) 0 [] rest).length ≤ out.length ∧
      (replaceFrom home (homeMark home) 0 [] rest = out ↔ ¬ CrowdedFrom home before rest) := by
  induction rest using first_induction hne generalizing before with
  | none rest hnone =>
    refine ⟨rest, .done hnone, (replaceFrom_none _ hnone []).symm ▸ le_rfl, ?_⟩
    rw [replaceFrom_none _ hnone, CrowdedFrom, occurrencesFrom_none hnone]
    refine iff_of_true rfl ?_
    rintro ⟨-, ⟨-, after, rfl, -⟩ | ⟨_, _, hmem, -⟩⟩
    · exact hnone (List.prefix_append home after).isInfix
    · exact absurd hmem List.not_mem_nil
  | next gap after hfirst ih =>
    obtain ⟨out, hout, hlength, hsame⟩ := ih (before ++ gap ++ home) (.inr ⟨_, rfl⟩)
    refine ⟨_, .next hfirst hout, ?_⟩
    rw [replaceFrom_first hne _ hfirst, List.nil_append, crowdedFrom_next hne hfirst, not_or,
      ← hsame, List.append_cancel_left_eq]
    rcases mark_behind hne hbefore gap after with ⟨hmark, hnot⟩ | ⟨hcrowded, hmark, hmark'⟩
    · rw [hmark, List.append_cancel_left_eq]
      refine ⟨?_, (and_iff_left hnot).symm⟩
      simp only [List.length_append]
      omega
    · rw [hmark, hmark']
      refine ⟨?_, iff_of_false (mark_ne_home hcrowded.1 hlength) fun h => h.2 hcrowded⟩
      have hhome := List.length_pos_iff.mpr hne
      simp only [List.length_append, List.length_singleton]
      omega

theorem crowdedFrom_start {home text : List Char} :
    CrowdedFrom home [] text ↔ Crowded home text := by
  simp [CrowdedFrom, Crowded, occurrences]

/-! ## The redactor -/

/-- **The home prefix is replaced where it stands as a path, exactly where none is crowded.** -/
theorem replace_home_iff (M : Machine) (R : Redactor) (home text : List Char)
    (hhome : R.home = some home) (hgrants : R.grants = []) (hspellings : R.spellings = []) :
    HomeReplaced home [] text (R.replace M text) ↔ ¬ Crowded home text := by
  have hreplace : R.replace M text = replaceFrom home (homeMark home) 0 [] text := by
    rw [Redactor.replace, hhome, hgrants, hspellings]
    exact replaceHome_eq home text
  obtain ⟨out, hout, -, hsame⟩ := replaceFrom_run (R.home_ne_nil home hhome) text [] (.inl rfl)
  rw [crowdedFrom_start] at hsame
  rw [hreplace, ← hsame]
  constructor
  · exact fun h => h.unique hout
  · exact fun h => h ▸ hout

/-- The redactor of a home prefix, without grants. -/
def homeRedactor (home : List Char) (hne : home ≠ []) : Redactor where
  home := some home
  grants := []
  spellings := []
  home_ne_nil := by simpa using hne
  spelling_ne_nil := by simp

theorem replace_home_once :
    HomeReplaced "/h".toList [] "/h/x".toList
        ((homeRedactor "/h".toList (by decide)).replace plainMachine "/h/x".toList) ↔
      ¬ Crowded "/h".toList "/h/x".toList :=
  replace_home_iff plainMachine (homeRedactor "/h".toList (by decide)) "/h".toList "/h/x".toList
    rfl rfl rfl

/-- A home prefix right behind another: the second occurrence follows a letter of the first, and the
loop gives `~~`. -/
theorem home_behind_home_replaced :
    ¬ HomeReplaced "/h".toList [] "/h/h".toList
      ((homeRedactor "/h".toList (by decide)).replace plainMachine "/h/h".toList) := by
  have hreplace : (homeRedactor "/h".toList (by decide)).replace plainMachine "/h/h".toList =
      "~~".toList := by decide
  have hsecond : HomeReplaced "/h".toList "/h".toList "/h".toList "/h".toList :=
    @HomeReplaced.next "/h".toList "/h".toList [] [] [] trivial (.done (by decide))
  have hpaths : HomeReplaced "/h".toList [] "/h/h".toList "~/h".toList :=
    @HomeReplaced.next "/h".toList [] [] "/h".toList "/h".toList trivial hsecond
  rw [hreplace]
  exact fun h => absurd (h.unique hpaths) (by decide)

end Redaction

end Afactory
