import Mathlib.Data.List.Basic

/-!
# Runs of a partial step function

A state machine is a function `step : S → I → Option S` that refuses some
inputs; a run feeds it a list of inputs and stops at the first refusal.

* `run` and how it composes (`run_append`);
* `StepsMeet`, a condition on every input together with the state before it;
* `run_induction`, the invariant rule: a property that holds at the start and
  survives every step that meets the condition holds at the end of the run.
-/

namespace Afactory

universe u v

variable {S : Type u} {I : Type v}

/-- Feed the inputs in order; a refused input refuses the run. -/
@[grind =] def run (step : S → I → Option S) : S → List I → Option S
  | s, [] => some s
  | s, i :: is => (step s i).bind fun s' => run step s' is

/-- Every input of the run meets `C` in the state it is fed to. -/
@[grind =] def StepsMeet (step : S → I → Option S) (C : S → I → Prop) : S → List I → Prop
  | _, [] => True
  | s, i :: is => C s i ∧ ∀ s', step s i = some s' → StepsMeet step C s' is

variable {step : S → I → Option S} {C : S → I → Prop} {P : S → Prop}

@[simp] theorem run_nil (s : S) : run step s [] = some s := rfl

theorem run_cons_eq_some {s s' : S} {i : I} {is : List I} :
    run step s (i :: is) = some s' ↔ ∃ t, step s i = some t ∧ run step t is = some s' := by
  rw [run, Option.bind_eq_some_iff]

theorem run_append {s : S} (is js : List I) :
    run step s (is ++ js) = (run step s is).bind fun t => run step t js := by
  induction is generalizing s with
  | nil => rfl
  | cons i is ih =>
    rw [List.cons_append, run, run]
    rcases step s i with _ | t
    · rfl
    · exact ih

theorem run_append_eq_some {s s' : S} {is js : List I} :
    run step s (is ++ js) = some s' ↔
      ∃ t, run step s is = some t ∧ run step t js = some s' := by
  rw [run_append, Option.bind_eq_some_iff]

/-- A condition that every input meets. -/
theorem stepsMeet_of_forall (h : ∀ s i, C s i) (s : S) (is : List I) : StepsMeet step C s is := by
  induction is generalizing s with
  | nil => trivial
  | cons i is ih => exact ⟨h s i, fun t _ => ih t⟩

theorem stepsMeet_append {s : S} {is js : List I} (h : StepsMeet step C s (is ++ js)) :
    StepsMeet step C s is ∧ ∀ t, run step s is = some t → StepsMeet step C t js := by
  induction is generalizing s with
  | nil => exact ⟨trivial, fun t ht => by obtain rfl := Option.some.inj ht; exact h⟩
  | cons i is ih =>
    obtain ⟨hi, htail⟩ := h
    refine ⟨⟨hi, fun t ht => (ih (htail t ht)).1⟩, fun t ht => ?_⟩
    obtain ⟨t₁, ht₁, ht₂⟩ := run_cons_eq_some.mp ht
    exact (ih (htail t₁ ht₁)).2 t ht₂

/-- A condition on every input with the state a run reaches before it. -/
theorem stepsMeet_of_splits {is : List I} {s : S}
    (h : ∀ before i after t, is = before ++ i :: after → run step s before = some t → C t i) :
    StepsMeet step C s is := by
  induction is generalizing s with
  | nil => trivial
  | cons i is ih =>
    refine ⟨h [] i is s rfl rfl, fun t ht => ih fun before j after u hsplit hrun => ?_⟩
    exact h (i :: before) j after u (by rw [hsplit, List.cons_append])
      (run_cons_eq_some.mpr ⟨t, ht, hrun⟩)

theorem stepsMeet_and {C' : S → I → Prop} {is : List I} {s : S} (h : StepsMeet step C s is)
    (h' : StepsMeet step C' s is) : StepsMeet step (fun s i => C s i ∧ C' s i) s is := by
  induction is generalizing s with
  | nil => trivial
  | cons i is ih => exact ⟨⟨h.1, h'.1⟩, fun t ht => ih (h.2 t ht) (h'.2 t ht)⟩

/-- A decidable condition is checked along the run it is about. -/
instance decidableStepsMeet [∀ s i, Decidable (C s i)] :
    ∀ (s : S) (is : List I), Decidable (StepsMeet step C s is)
  | _, [] => isTrue trivial
  | s, i :: is =>
    have : Decidable (∀ s', step s i = some s' → StepsMeet step C s' is) :=
      match h : step s i with
      | none => isTrue fun _ h' => nomatch h'
      | some t =>
        have := decidableStepsMeet t is
        decidable_of_iff (StepsMeet step C t is)
          ⟨fun ht _ h' => Option.some.inj h' ▸ ht, fun hall => hall t rfl⟩
    inferInstanceAs (Decidable (_ ∧ _))

/-- **The invariant rule.** The step lemma `hstep` carries `P` over one input
that meets `C`; the induction carries it over the run. -/
theorem run_induction
    (hstep : ∀ s i s', P s → C s i → step s i = some s' → P s') :
    ∀ {is : List I} {s s' : S}, P s → StepsMeet step C s is →
      run step s is = some s' → P s' := by
  intro is
  induction is with
  | nil =>
    intro s s' hP _ hr
    obtain rfl := Option.some.inj hr
    exact hP
  | cons i is ih =>
    intro s s' hP hC hr
    obtain ⟨t, ht, hr⟩ := run_cons_eq_some.mp hr
    exact ih (hstep s i t hP hC.1 ht) (hC.2 t ht) hr

/-- The invariant rule without a condition on the inputs. -/
theorem run_invariant (hstep : ∀ s i s', P s → step s i = some s' → P s') :
    ∀ {is : List I} {s s' : S}, P s → run step s is = some s' → P s' := by
  intro is
  induction is with
  | nil =>
    intro s s' hP hr
    obtain rfl := Option.some.inj hr
    exact hP
  | cons i is ih =>
    intro s s' hP hr
    obtain ⟨t, ht, hr⟩ := run_cons_eq_some.mp hr
    exact ih (hstep s i t hP ht) hr

end Afactory
