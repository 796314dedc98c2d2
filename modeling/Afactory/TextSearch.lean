import Mathlib

/-!
# Searching a text

The searches of a string library over lists: whether a pattern stands in a text, where it stands,
and the text with something else in its place. Occurrences do not overlap; patterns are not empty.

* `contains`, `occurrences`, `replaceEach`;
* `splitOnce`, `splitOnceBack`, `trimStart`, `stripAny`;
* `first_induction`: a text read occurrence by occurrence;
* `replaceFrom_first`, `occurrencesFrom_first`: what is done with the first occurrence;
* `mem_replaceEach`: what a text holds after a replacement.
-/

namespace Afactory

namespace TextSearch

variable {α : Type*} [DecidableEq α]

/-- Whether the pattern stands somewhere in the text. -/
def contains (pattern text : List α) : Bool := text.tails.any pattern.isPrefixOf

/-- What stands before and behind each occurrence of the pattern, from the left; `skip` more items
belong to the last one. -/
@[grind =] def occurrencesFrom (pattern : List α) : ℕ → List α → List α → List (List α × List α)
  | _, _, [] => []
  | skip + 1, before, c :: rest => occurrencesFrom pattern skip (before ++ [c]) rest
  | 0, before, c :: rest =>
    match (c :: rest).dropPrefix? pattern with
    | some after =>
      (before, after) :: occurrencesFrom pattern (pattern.length - 1) (before ++ [c]) rest
    | none => occurrencesFrom pattern 0 (before ++ [c]) rest

/-- What stands before and behind each occurrence of the pattern. -/
def occurrences (pattern text : List α) : List (List α × List α) :=
  occurrencesFrom pattern 0 [] text

/-- The text with `new` for each occurrence of the pattern, by what stands before it, up to the last
occurrence, and behind it. -/
@[grind =] def replaceFrom (pattern : List α) (new : List α → List α → List α) :
    ℕ → List α → List α → List α
  | _, _, [] => []
  | skip + 1, _, _ :: rest => replaceFrom pattern new skip [] rest
  | 0, before, c :: rest =>
    match (c :: rest).dropPrefix? pattern with
    | some after => new before after ++ replaceFrom pattern new (pattern.length - 1) [] rest
    | none => c :: replaceFrom pattern new 0 (before ++ [c]) rest

def replaceEach (pattern : List α) (new : List α → List α → List α) (text : List α) : List α :=
  replaceFrom pattern new 0 [] text

/-- What stands around the first `sep`. -/
def splitOnce (sep : α) (text : List α) : Option (List α × List α) :=
  match text.dropWhile (· ≠ sep) with
  | [] => none
  | _ :: after => some (text.takeWhile (· ≠ sep), after)

/-- What stands around the last `sep`. -/
def splitOnceBack (sep : α) (text : List α) : Option (List α × List α) :=
  (splitOnce sep text.reverse).map fun (after, before) => (before.reverse, after.reverse)

/-- The text without what it begins with. -/
def trimStart (p : α → Bool) (text : List α) : List α := text.dropWhile p

/-- The text without what it begins and ends with. -/
def trim (p : α → Bool) (text : List α) : List α := (text.dropWhile p).rdropWhile p

/-- The text without one item it may begin with. -/
def stripAny (items text : List α) : List α :=
  match text with
  | c :: rest => if c ∈ items then rest else text
  | [] => []

/-! ## What stands around a separator -/

section First

variable {pattern : List α}

theorem dropPrefix?_append (pattern after : List α) :
    (pattern ++ after).dropPrefix? pattern = some after :=
  List.dropPrefix?_eq_some_iff.mpr ⟨pattern, rfl, beq_self_eq_true pattern⟩

theorem dropPrefix?_eq_none_of {text : List α} (h : ¬ pattern <+: text) :
    text.dropPrefix? pattern = none := by
  rw [Option.eq_none_iff_forall_ne_some]
  intro after hafter
  obtain ⟨start, rfl, hstart⟩ := List.dropPrefix?_eq_some_iff.mp hafter
  exact h ⟨after, by rw [eq_of_beq hstart]⟩

/-- The pattern stands behind `gap`, and nowhere before: not at the start of what is left of `gap`. -/
def FirstAt (pattern : List α) : List α → List α → Prop
  | [], _ => True
  | c :: gap, after => ¬ pattern <+: c :: gap ++ pattern ++ after ∧ FirstAt pattern gap after

theorem firstAt_unique {gap after gap' after' : List α} (h : FirstAt pattern gap after)
    (h' : FirstAt pattern gap' after') (heq : gap ++ pattern ++ after = gap' ++ pattern ++ after') :
    gap = gap' ∧ after = after' := by
  induction gap generalizing gap' with
  | nil =>
    cases gap' with
    | nil => exact ⟨rfl, List.append_cancel_left heq⟩
    | cons c gap' => exact absurd (heq ▸ List.prefix_append pattern after) h'.1
  | cons c gap ih =>
    cases gap' with
    | nil => exact absurd (heq.symm ▸ List.prefix_append pattern after') h.1
    | cons d gap' =>
      simp only [List.cons_append, List.cons.injEq] at heq
      obtain ⟨hgap, hafter⟩ := ih h.2 h'.2 heq.2
      exact ⟨by rw [heq.1, hgap], hafter⟩

/-- The pattern stands nowhere in the text, or first behind some gap. -/
theorem first_or_none (hne : pattern ≠ []) (text : List α) :
    ¬ pattern <:+: text ∨ ∃ gap after, text = gap ++ pattern ++ after ∧ FirstAt pattern gap after := by
  induction text with
  | nil => exact .inl fun h => hne (List.infix_nil.mp h)
  | cons c text ih =>
    by_cases hhere : pattern <+: c :: text
    · obtain ⟨after, hafter⟩ := hhere
      exact .inr ⟨[], after, hafter.symm, trivial⟩
    · rcases ih with hnone | ⟨gap, after, rfl, hfirst⟩
      · refine .inl fun h => ?_
        exact (List.infix_cons_iff.mp h).elim hhere hnone
      · exact .inr ⟨c :: gap, after, rfl, hhere, hfirst⟩

/-- **A text is read occurrence by occurrence**, from the left and without overlap. -/
theorem first_induction (hne : pattern ≠ []) {motive : List α → Prop}
    (none : ∀ text, ¬ pattern <:+: text → motive text)
    (next : ∀ gap after, FirstAt pattern gap after → motive after → motive (gap ++ pattern ++ after))
    (text : List α) : motive text := by
  induction hlength : text.length using Nat.strong_induction_on generalizing text with
  | _ n ih =>
    rcases first_or_none hne text with hnone | ⟨gap, after, rfl, hfirst⟩
    · exact none text hnone
    · refine next gap after hfirst (ih after.length ?_ after rfl)
      have hpattern := List.length_pos_iff.mpr hne
      simp only [List.length_append] at hlength
      omega

theorem replaceFrom_skip (new : List α → List α → List α) (skipped rest : List α) :
    replaceFrom pattern new skipped.length [] (skipped ++ rest) = replaceFrom pattern new 0 [] rest := by
  induction skipped with
  | nil => rfl
  | cons c skipped ih => exact ih

/-- **The text up to the first occurrence is kept.** -/
theorem replaceFrom_first (hne : pattern ≠ []) (new : List α → List α → List α) {gap after : List α}
    (h : FirstAt pattern gap after) (before : List α) :
    replaceFrom pattern new 0 before (gap ++ pattern ++ after) =
      gap ++ (new (before ++ gap) after ++ replaceFrom pattern new 0 [] after) := by
  induction gap generalizing before with
  | nil =>
    obtain ⟨c, rest, rfl⟩ := List.exists_cons_of_ne_nil hne
    have hfound := dropPrefix?_append (c :: rest) after
    rw [List.nil_append, List.nil_append, List.append_nil]
    rw [List.cons_append] at hfound ⊢
    rw [replaceFrom, hfound]
    exact congrArg (new before after ++ ·) (replaceFrom_skip new rest after)
  | cons c gap ih =>
    rw [List.cons_append, List.cons_append, replaceFrom,
      dropPrefix?_eq_none_of (by simpa using h.1)]
    dsimp only
    rw [ih h.2, List.append_assoc before]
    rfl

theorem replaceFrom_none (new : List α → List α → List α) {text : List α} (h : ¬ pattern <:+: text)
    (before : List α) : replaceFrom pattern new 0 before text = text := by
  induction text generalizing before with
  | nil => rfl
  | cons c text ih =>
    rw [List.infix_cons_iff, not_or] at h
    rw [replaceFrom, dropPrefix?_eq_none_of h.1]
    dsimp only
    rw [ih h.2]

theorem occurrencesFrom_skip (skipped rest before : List α) :
    occurrencesFrom pattern skipped.length before (skipped ++ rest) =
      occurrencesFrom pattern 0 (before ++ skipped) rest := by
  induction skipped generalizing before with
  | nil => rw [List.append_nil]; rfl
  | cons c skipped ih =>
    rw [List.cons_append, List.length_cons, occurrencesFrom, ih, List.append_assoc]
    rfl

/-- **The first occurrence is found**, and the search goes on behind it. -/
theorem occurrencesFrom_first (hne : pattern ≠ []) {gap after : List α} (h : FirstAt pattern gap after)
    (before : List α) :
    occurrencesFrom pattern 0 before (gap ++ pattern ++ after) =
      (before ++ gap, after) :: occurrencesFrom pattern 0 (before ++ gap ++ pattern) after := by
  induction gap generalizing before with
  | nil =>
    obtain ⟨c, rest, rfl⟩ := List.exists_cons_of_ne_nil hne
    have hfound := dropPrefix?_append (c :: rest) after
    rw [List.nil_append, List.append_nil]
    rw [List.cons_append] at hfound ⊢
    rw [occurrencesFrom, hfound]
    refine congrArg ((before, after) :: ·) ((occurrencesFrom_skip rest after (before ++ [c])).trans ?_)
    rw [List.append_assoc]
    rfl
  | cons c gap ih =>
    rw [List.cons_append, List.cons_append, occurrencesFrom,
      dropPrefix?_eq_none_of (by simpa using h.1)]
    dsimp only
    rw [ih h.2, List.append_assoc before]
    rfl

theorem occurrencesFrom_none {text : List α} (h : ¬ pattern <:+: text) (before : List α) :
    occurrencesFrom pattern 0 before text = [] := by
  induction text generalizing before with
  | nil => rfl
  | cons c text ih =>
    rw [List.infix_cons_iff, not_or] at h
    rw [occurrencesFrom, dropPrefix?_eq_none_of h.1]
    exact ih h.2 _

end First

/-! ## What a replacement holds -/

theorem mem_replaceFrom {pattern : List α} {new : List α → List α → List α} {skip : ℕ}
    {before text : List α} {c : α} (h : c ∈ replaceFrom pattern new skip before text) :
    c ∈ text ∨ ∃ before after, c ∈ new before after := by
  induction text generalizing skip before with
  | nil =>
    rw [replaceFrom] at h
    cases h
  | cons first rest ih =>
    cases skip with
    | succ skip =>
      rw [replaceFrom] at h
      exact (ih h).imp_left (List.mem_cons_of_mem _)
    | zero =>
      rw [replaceFrom] at h
      split at h
      · next after _ =>
        rcases List.mem_append.mp h with hnew | hrest
        · exact .inr ⟨before, after, hnew⟩
        · exact (ih hrest).imp_left (List.mem_cons_of_mem _)
      · rcases List.mem_cons.mp h with rfl | hrest
        · exact .inl List.mem_cons_self
        · exact (ih hrest).imp_left (List.mem_cons_of_mem _)

/-- A text after a replacement holds what it held, and what was put in. -/
theorem mem_replaceEach {pattern : List α} {new : List α → List α → List α} {text : List α} {c : α}
    (h : c ∈ replaceEach pattern new text) : c ∈ text ∨ ∃ before after, c ∈ new before after :=
  mem_replaceFrom h

end TextSearch

end Afactory
