import Mathlib

/-!
# Patterns with runs

A pattern is a list of tokens: one item that passes a test, or a run of any items. A matcher that
tries every length of a run decides what a pattern stands for.

* `Matches`: what a pattern stands for;
* `matches_run_iff`, `matches_one_iff`: by the first token, as a matcher goes;
* `matches_literal_iff`: a pattern without runs of items that are each asked for.
-/

namespace Afactory

namespace Wildcards

universe u

variable {α : Type u}

/-- One part of a pattern: any items, or one item that passes a test. -/
inductive Token (α : Type u) where
  | run
  | one (accepts : α → Prop)

/-- What a pattern stands for. -/
inductive Matches : List (Token α) → List α → Prop
  | nil : Matches [] []
  | run (skipped : List α) {pattern : List (Token α)} {items : List α} (h : Matches pattern items) :
    Matches (.run :: pattern) (skipped ++ items)
  | one {accepts : α → Prop} {item : α} {pattern : List (Token α)} {items : List α}
    (hitem : accepts item) (h : Matches pattern items) :
    Matches (.one accepts :: pattern) (item :: items)

variable {accepts : α → Prop} {pattern : List (Token α)} {item : α} {items : List α}

@[simp] theorem matches_nil_iff : Matches [] items ↔ items = [] := by
  constructor
  · rintro ⟨⟩
    rfl
  · rintro rfl
    exact .nil

/-- A run is tried at every length. -/
theorem matches_run_iff :
    Matches (.run :: pattern) items ↔ ∃ n ≤ items.length, Matches pattern (items.drop n) := by
  constructor
  · intro h
    cases h with
    | run skipped h =>
      refine ⟨skipped.length, by simp, ?_⟩
      rwa [List.drop_left]
  · rintro ⟨n, -, h⟩
    have := Matches.run (items.take n) h
    rwa [List.take_append_drop] at this

@[simp] theorem not_matches_one_nil : ¬ Matches (.one accepts :: pattern) [] := by
  rintro ⟨⟩

@[simp] theorem matches_one_iff :
    Matches (.one accepts :: pattern) (item :: items) ↔ accepts item ∧ Matches pattern items := by
  constructor
  · intro h
    cases h with
    | one hitem h => exact ⟨hitem, h⟩
  · rintro ⟨hitem, h⟩
    exact .one hitem h

/-- A pattern that asks for each item stands for these items. -/
theorem matches_literal_iff {asked : List α} :
    Matches (asked.map fun a => .one (· = a)) items ↔ items = asked := by
  induction asked generalizing items with
  | nil => exact matches_nil_iff
  | cons a asked ih =>
    cases items with
    | nil => simp
    | cons item items => rw [List.map_cons, matches_one_iff, ih, List.cons.injEq]

end Wildcards

end Afactory
