import Mathlib
import Afactory.PipelineSelection

/-!
# Lazy selection

Pipeline selection asks for admission rank by rank, and stops after the first rank with an admitted
candidate. It decides what admitting every fitting candidate first would decide.

* `Inputs`: what a selection is given;
* `Inputs.select_eq`: the run, with the candidates it reaches;
* `Inputs.mem_asked_iff`: of whom admission is asked;
* `select_lazy_eq_eager`: the decision.
-/

namespace Afactory

namespace Selection

open Staged

/-! ## Inputs -/

/-- Admission by name, with the names it was asked for. -/
def recording (answer : String → CandidateState) (asked : List String) (name : String) :
    CandidateState × List String :=
  (answer name, asked ++ [name])

/-- What a selection is given: a valid Task and request, captured valid Pipelines with their
priorities, and what admission answers to a name. -/
structure Inputs where
  task : RevisionDocument
  requested : Option PipelineChoice
  pipelines : OrdMap String PipelineDefinition
  priorities : OrdMap String ℕ
  noMatch : NoMatchPolicy
  answer : String → CandidateState
  task_valid : task.validate = .ok ()
  requested_valid : requested.all (fun choice => isPackageName choice.name) = true
  pipelines_le : pipelines.entries.length ≤ 128
  priorities_le : priorities.entries.length ≤ 128
  priorities_captured : priorities.keys.all pipelines.contains = true
  pipelines_valid : ∀ name pipeline, pipelines.get name = some pipeline → pipeline.validate = .ok ()
  answer_valid : ∀ name, (answer name).isAnswer = true

namespace Inputs

variable (I : Inputs)

/-- The selection, with the names admission was asked for. -/
def select : Except String (PipelineSelection × List String) :=
  selectWithPolicy I.task I.requested I.pipelines I.priorities I.noMatch (recording I.answer) []

/-- The decision when every fitting candidate is admitted first. -/
def eager : SelectionDecision :=
  selectEagerly I.task I.requested I.pipelines I.priorities I.noMatch I.answer

def fallback : PipelineFallback := effectiveFallback I.requested I.noMatch

def names : Finset String := candidateNames I.requested I.pipelines I.noMatch

/-- The contract of a captured candidate contradicts the Task. -/
def NoFit (name : String) : Prop :=
  ∃ pipeline, I.pipelines.get name = some pipeline ∧ Contradicts I.task pipeline

/-- A candidate fits semantically: no contradiction, and no fact is missing. -/
def Fits (name : String) : Prop :=
  name ∈ I.names ∧ ∃ pipeline, I.pipelines.get name = some pipeline ∧
    ¬ Contradicts I.task pipeline ∧ Knows I.task pipeline

/-- A candidate fits semantically, and is admitted. -/
def Admitted (name : String) : Prop := I.Fits name ∧ I.answer name = .fit

/-- The requested Pipeline first, then by trusted priority. -/
def rank (name : String) : Bool ×ₗ ℕ :=
  toLex (!I.requested.any (name = ·.name), (I.priorities.get name).getD (2 ^ 32 - 1))

/-- An admitted candidate of the least rank. -/
def IsBest (name : String) : Prop :=
  I.Admitted name ∧ ∀ other, I.Admitted other → I.rank name ≤ I.rank other

/-- A candidate before admission. -/
def assessed (name : String) : CandidateAssessment :=
  assess I.task I.requested I.pipelines I.priorities name

/-- The candidates, with what admission answers to some of them. -/
def answered (asked : String → Bool) : List CandidateAssessment :=
  (inOrder I.names).map fun name =>
    if asked name then (I.assessed name).admitted I.answer else I.assessed name

/-- The candidates before admission, in order. -/
def allAssessed : List CandidateAssessment := (inOrder I.names).map I.assessed

/-- The ranks that admission is asked in. -/
def ranks : List (Bool ×ₗ ℕ) :=
  reachedKeys CandidateAssessment.group (fun c => I.answer c.pipeline = .fit) I.allAssessed

/-- Admission is asked for this candidate. -/
def reaches (name : String) : Bool := (I.assessed name).group.any (· ∈ I.ranks)

/-- The names that admission is asked for, in order. -/
def asked : List String :=
  I.ranks.flatMap fun k => (I.allAssessed.filter fun c => c.group = some k).map (·.pipeline)

variable {I}

theorem fits_iff {name : String} :
    I.Fits name ↔ name ∈ I.names ∧ (I.assessed name).state = .compatible :=
  and_congr_right fun _ => judge_compatible_iff.symm

theorem rank_assessed (name : String) : (I.assessed name).rank = I.rank name := rfl

theorem eager_eq :
    I.eager =
      decision I.fallback (I.answered fun name => (I.assessed name).state = .compatible) := by
  rw [eager, selectEagerly, List.map_map]
  refine congrArg (decision _) (List.map_congr_left fun name _ => ?_)
  simp only [Function.comp_apply, decide_eq_true_eq]
  rfl

/-! ### What is answered -/

section Answered

variable {asked : String → Bool}

theorem mem_answered {c : CandidateAssessment} :
    c ∈ I.answered asked ↔ ∃ name ∈ I.names,
      (if asked name then (I.assessed name).admitted I.answer else I.assessed name) = c := by
  simp only [answered, inOrder, List.mem_map, Finset.mem_sort]

/-- A candidate fits when it was asked for and admitted. -/
theorem mem_answered_fit {c : CandidateAssessment} :
    c ∈ I.answered asked ∧ c.state = .fit ↔ ∃ name ∈ I.names, asked name = true ∧
      I.answer name = .fit ∧ (I.assessed name).admitted I.answer = c := by
  rw [mem_answered]
  constructor
  · rintro ⟨⟨name, hname, rfl⟩, hfit⟩
    split_ifs at hfit ⊢ with hasked
    · exact ⟨name, hname, hasked, hfit, rfl⟩
    · exact absurd hfit (judge_ne_fit _)
  · rintro ⟨name, hname, hasked, hfit, rfl⟩
    exact ⟨⟨name, hname, if_pos hasked⟩, hfit⟩

theorem best_answered_iff {name : String} :
    Best (I.answered asked) name ↔
      (name ∈ I.names ∧ asked name = true ∧ I.answer name = .fit) ∧
        ∀ other ∈ I.names, asked other = true → I.answer other = .fit →
          I.rank name ≤ I.rank other := by
  constructor
  · rintro ⟨c, hc, hname, hfit, hleast⟩
    obtain ⟨name', hname', hasked, hanswer, rfl⟩ := mem_answered_fit.mp ⟨hc, hfit⟩
    obtain rfl : name' = name := hname
    refine ⟨⟨hname', hasked, hanswer⟩, fun other hother hasked' hanswer' => ?_⟩
    obtain ⟨hmem, hstate⟩ := mem_answered_fit.mpr ⟨other, hother, hasked', hanswer', rfl⟩
    exact hleast _ hmem hstate
  · rintro ⟨⟨hname, hasked, hanswer⟩, hleast⟩
    obtain ⟨hmem, hstate⟩ := mem_answered_fit.mpr ⟨name, hname, hasked, hanswer, rfl⟩
    refine ⟨_, hmem, rfl, hstate, fun c' hc' hfit' => ?_⟩
    obtain ⟨other, hother, hasked', hanswer', rfl⟩ := mem_answered_fit.mp ⟨hc', hfit'⟩
    exact hleast other hother hasked' hanswer'

end Answered

/-! ### What is asked -/

theorem group_eq_some {name : String} {k : Bool ×ₗ ℕ} :
    (I.assessed name).group = some k ↔ (I.assessed name).state = .compatible ∧ k = I.rank name := by
  rw [CandidateAssessment.group, rank_assessed]
  split_ifs with h
  · simp [h, eq_comm]
  · simp [h]

theorem mem_allAssessed {c : CandidateAssessment} :
    c ∈ I.allAssessed ↔ ∃ name ∈ I.names, I.assessed name = c := by
  simp only [allAssessed, inOrder, List.mem_map, Finset.mem_sort]

/-- **Admission is asked for a fitting candidate when no admitted one has a smaller rank.** -/
theorem reaches_iff {name : String} (hname : name ∈ I.names) :
    I.reaches name = true ↔
      I.Fits name ∧ ∀ other, I.Admitted other → I.rank name ≤ I.rank other := by
  rw [reaches, Option.any_eq_true, fits_iff]
  have hreached : ∀ k, k ∈ I.ranks ↔ _ := fun k => mem_reachedKeys_iff
  simp only [group_eq_some, decide_eq_true_eq]
  simp only [hreached, mem_allAssessed, decide_eq_true_eq]
  constructor
  · rintro ⟨_, ⟨hstate, rfl⟩, -, hleast⟩
    refine ⟨⟨hname, hstate⟩, fun other hother => ?_⟩
    obtain ⟨hmem, hfits⟩ := fits_iff.mp hother.1
    exact hleast _ ⟨other, hmem, rfl⟩ hother.2 _ (group_eq_some.mpr ⟨hfits, rfl⟩)
  · rintro ⟨⟨-, hstate⟩, hleast⟩
    refine ⟨_, ⟨hstate, rfl⟩, ⟨_, ⟨name, hname, rfl⟩, group_eq_some.mpr ⟨hstate, rfl⟩⟩, ?_⟩
    rintro _ ⟨other, hother, rfl⟩ hanswer k' hk'
    obtain ⟨hstate', rfl⟩ := group_eq_some.mp hk'
    exact hleast other ⟨fits_iff.mpr ⟨hother, hstate'⟩, hanswer⟩

theorem mem_asked_iff {name : String} :
    name ∈ I.asked ↔ I.Fits name ∧ ∀ other, I.Admitted other → I.rank name ≤ I.rank other := by
  have hreaches : name ∈ I.asked ↔ name ∈ I.names ∧ I.reaches name = true := by
    simp only [asked, List.mem_flatMap, List.mem_map, List.mem_filter, mem_allAssessed,
      decide_eq_true_eq, reaches, Option.any_eq_true]
    constructor
    · rintro ⟨k, hk, _, ⟨⟨name', hname', rfl⟩, hgroup⟩, rfl⟩
      exact ⟨hname', k, hgroup, hk⟩
    · rintro ⟨hname, k, hgroup, hk⟩
      exact ⟨k, hk, _, ⟨⟨name, hname, rfl⟩, hgroup⟩, rfl⟩
  rw [hreaches]
  constructor
  · rintro ⟨hname, h⟩
    exact (reaches_iff hname).mp h
  · exact fun h => ⟨h.1.1, (reaches_iff h.1.1).mpr h⟩

/-- **Rank by rank**, the least first. -/
theorem asked_sorted : (I.asked.map I.rank).Pairwise (· ≤ ·) := by
  have hrank : ∀ {k : Bool ×ₗ ℕ} {name : String},
      name ∈ (I.allAssessed.filter fun c => c.group = some k).map (·.pipeline) →
        I.rank name = k := by
    intro k name hname
    obtain ⟨c, hc, rfl⟩ := List.mem_map.mp hname
    obtain ⟨hc, hgroup⟩ := List.mem_filter.mp hc
    obtain ⟨name', -, rfl⟩ := mem_allAssessed.mp hc
    exact (group_eq_some.mp (of_decide_eq_true hgroup)).2.symm
  rw [List.pairwise_map, asked, List.pairwise_flatMap]
  constructor
  · intro k _
    refine List.pairwise_of_forall_mem_list fun name hname other hother => ?_
    rw [hrank hname, hrank hother]
  · refine reachedKeys_sorted.imp fun hlt name hname other hother => ?_
    rw [hrank hname, hrank hother]
    exact hlt.le

/-! ### The run -/

theorem admitCandidate_recording (asked : List String) (c : CandidateAssessment) :
    admitCandidate (recording I.answer) asked c =
      .ok (c.admitted I.answer, I.answer c.pipeline = .fit, asked ++ [c.pipeline]) := by
  have hvalid := I.answer_valid c.pipeline
  rw [admitCandidate, recording, CandidateAssessment.admitted]
  cases hanswer : I.answer c.pipeline with
  | fit => rfl
  | unavailable reason => rfl
  | infeasible reason => rfl
  | invalid reason => rfl
  | _ =>
    rw [hanswer] at hvalid
    cases hvalid

theorem candidates_eq :
    I.names.sort.mapM (candidate I.task I.requested I.pipelines I.priorities) =
      .ok I.allAssessed := by
  refine mapM_eq_ok_iff.mpr (List.forall₂_map_right_iff.mpr ?_)
  refine List.forall₂_same.mpr fun name _ => ?_
  have hvalid : validatePipeline (I.pipelines.get name) = .ok () := by
    cases hget : I.pipelines.get name with
    | none => rfl
    | some pipeline => exact I.pipelines_valid name pipeline hget
  rw [candidate, hvalid]
  rfl

/-- **The selection answers**, with the candidates it reaches admitted. -/
theorem select_eq :
    I.select = .ok (⟨"af.pipeline-selection/1", I.requested, I.noMatch, I.answered I.reaches,
      decision I.fallback (I.answered I.reaches)⟩, I.asked) := by
  have hrun : updateGroups (admitCandidate (recording I.answer))
      (groups CandidateAssessment.group I.allAssessed).values I.allAssessed [] =
      .ok (updated CandidateAssessment.group (·.admitted I.answer) I.allAssessed I.ranks, _) :=
    updateGroups_eq admitCandidate_recording []
  have hasked : (I.ranks.flatMap fun k => I.allAssessed.filter fun c => c.group = some k).foldl
      (fun asked c => asked ++ [c.pipeline]) [] = I.asked := by
    rw [asked, ← List.map_flatMap, List.foldl_append_eq_append, List.nil_append]
    exact List.flatMap_pure_eq_map _ _
  have hanswered : updated CandidateAssessment.group (·.admitted I.answer) I.allAssessed I.ranks =
      I.answered I.reaches := by
    rw [updated, allAssessed, List.map_map]
    refine List.map_congr_left fun name _ => if_congr ?_ rfl rfl
    simp only [reaches, Option.any_eq_true, decide_eq_true_eq]
  rw [hanswered] at hrun
  have hbounded : (decide (I.pipelines.entries.length ≤ 128) &&
      decide (I.priorities.entries.length ≤ 128) && I.priorities.keys.all I.pipelines.contains) =
      true := by
    rw [I.priorities_captured, decide_eq_true I.pipelines_le, decide_eq_true I.priorities_le]
    rfl
  have hcandidates := I.candidates_eq
  rw [names] at hcandidates
  rw [select, selectWithPolicy, I.task_valid, I.requested_valid, hbounded, ok_bind]
  rw [ensure, if_pos rfl, ok_bind, ensure, if_pos rfl, ok_bind, hcandidates, ok_bind, hrun, ok_bind]
  exact congrArg (fun asked => Except.ok (_, asked)) hasked

/-! ### The decision -/

theorem exists_best (h : ∃ name, I.Admitted name) : ∃ name, I.IsBest name := by
  classical
  obtain ⟨name, hname⟩ := h
  obtain ⟨best, hbest, hleast⟩ := Finset.exists_min_image (I.names.filter I.Admitted) I.rank
    ⟨name, Finset.mem_filter.mpr ⟨hname.1.1, hname⟩⟩
  refine ⟨best, (Finset.mem_filter.mp hbest).2, fun other hother => ?_⟩
  exact hleast other (Finset.mem_filter.mpr ⟨hother.1.1, hother⟩)

/-- **Where a candidate is admitted, the decision is between the best**, whoever else is asked. -/
theorem decision_answered {asked : String → Bool}
    (hasked : ∀ name ∈ I.names, asked name = true → I.Fits name)
    (hbest : ∀ name, I.IsBest name → asked name = true) (h : ∃ name, I.Admitted name) :
    ∃ best : Finset String, best.Nonempty ∧ (∀ name, name ∈ best ↔ I.IsBest name) ∧
      decision I.fallback (I.answered asked) = decideWinners best := by
  obtain ⟨b, hb⟩ := exists_best h
  have hsame : ∀ name, Best (I.answered asked) name ↔ I.IsBest name := by
    intro name
    rw [best_answered_iff]
    constructor
    · rintro ⟨⟨hname, hnamed, hanswer⟩, hleast⟩
      refine ⟨⟨hasked name hname hnamed, hanswer⟩, fun other hother => ?_⟩
      exact (hleast b hb.1.1.1 (hbest b hb) hb.1.2).trans (hb.2 other hother)
    · rintro hname
      refine ⟨⟨hname.1.1.1, hbest name hname, hname.1.2⟩, fun other hother hnamed hanswer => ?_⟩
      exact hname.2 other ⟨hasked other hother hnamed, hanswer⟩
  obtain ⟨c, hc, -, hfit, -⟩ := (hsame b).mpr hb
  obtain ⟨best, hne, hmem, hdecision⟩ := decision_of_fit ⟨c, hc, hfit⟩
  exact ⟨best, hne, fun name => (hmem name).trans (hsame name), hdecision⟩

/-- **Where none is admitted, every fitting candidate is asked.** -/
theorem answered_reaches (h : ¬ ∃ name, I.Admitted name) :
    I.answered I.reaches = I.answered fun name => (I.assessed name).state = .compatible := by
  refine List.map_congr_left fun name hname => if_congr ?_ rfl rfl
  have hmem : name ∈ I.names := (Finset.mem_sort _).mp hname
  rw [reaches_iff hmem, decide_eq_true_eq, fits_iff]
  constructor
  · exact fun hreached => hreached.1.2
  · exact fun hstate => ⟨⟨hmem, hstate⟩, fun other hother => absurd ⟨other, hother⟩ h⟩

theorem reaches_of_best {name : String} (h : I.IsBest name) : I.reaches name = true :=
  (reaches_iff h.1.1.1).mpr ⟨h.1.1, h.2⟩

theorem fits_of_reaches {name : String} (hname : name ∈ I.names) (h : I.reaches name = true) :
    I.Fits name :=
  ((reaches_iff hname).mp h).1

/-- **The lazy decision is the eager one.** -/
theorem decision_reaches : decision I.fallback (I.answered I.reaches) = I.eager := by
  rw [eager_eq]
  by_cases h : ∃ name, I.Admitted name
  · obtain ⟨best, -, hmem, hlazy⟩ :=
      decision_answered (fun _ => fits_of_reaches) (fun _ => reaches_of_best) h
    obtain ⟨best', -, hmem', heager⟩ :=
      @decision_answered I (fun name => (I.assessed name).state = .compatible)
        (fun name hname hstate => fits_iff.mpr ⟨hname, of_decide_eq_true hstate⟩)
        (fun name hname => decide_eq_true (fits_iff.mp hname.1.1).2) h
    have hsame : best = best' := Finset.ext fun name => (hmem name).trans (hmem' name).symm
    rw [hlazy, heager, hsame]
  · rw [answered_reaches h]

/-- A candidate of no fit is left as it was judged. -/
theorem isNoFit_answered {asked : String → Bool}
    (hasked : ∀ name ∈ I.names, asked name = true → I.Fits name) {name : String}
    (hname : name ∈ I.names) :
    (if asked name then (I.assessed name).admitted I.answer
      else I.assessed name).state.isNoFit = true ↔ I.NoFit name := by
  have hjudged : (I.assessed name).state.isNoFit = true ↔ I.NoFit name := judge_noFit_iff
  split_ifs with h
  · obtain ⟨pipeline, hget, hfits, -⟩ := (hasked name hname h).2
    refine iff_of_false ?_ ?_
    · have hvalid := I.answer_valid name
      show ¬ (I.answer name).isNoFit = true
      cases hanswer : I.answer name with
      | noFit reasons =>
        rw [hanswer] at hvalid
        cases hvalid
      | _ => exact Bool.false_ne_true
    · rintro ⟨pipeline', hget', hcontradicts⟩
      rw [hget] at hget'
      exact hfits (Option.some.inj hget' ▸ hcontradicts)
  · exact hjudged

/-- **What is decided**, by the best of the admitted candidates. -/
theorem decision_iff :
    (∀ name, I.eager = .selected name ↔ I.IsBest name ∧ ∀ other, I.IsBest other → other = name) ∧
      (∀ names, I.eager = .ambiguous names ↔
        (∀ name, name ∈ names ↔ I.IsBest name) ∧ 2 ≤ names.card) ∧
      (I.eager = .needsGeneration ↔ I.fallback = .generate ∧ ∀ name ∈ I.names, I.NoFit name) := by
  rw [← decision_reaches]
  by_cases h : ∃ name, I.Admitted name
  · obtain ⟨best, hne, hmem, hdecision⟩ :=
      decision_answered (fun _ => fits_of_reaches) (fun _ => reaches_of_best) h
    rw [hdecision]
    refine ⟨fun name => ?_, fun names => ?_, ?_⟩
    · rw [decideWinners_eq_selected, Finset.eq_singleton_iff_unique_mem]
      simp only [hmem]
    · rw [decideWinners_eq_ambiguous hne]
      constructor
      · rintro ⟨rfl, htwo⟩
        exact ⟨hmem, htwo⟩
      · rintro ⟨hnames, htwo⟩
        obtain rfl : best = names := Finset.ext fun name => (hmem name).trans (hnames name).symm
        exact ⟨rfl, htwo⟩
    · refine iff_of_false decideWinners_ne fun hall => ?_
      obtain ⟨name, hadmitted⟩ := h
      obtain ⟨pipeline, hget, hfits, -⟩ := hadmitted.1.2
      obtain ⟨pipeline', hget', hcontradicts⟩ := hall.2 name hadmitted.1.1
      rw [hget] at hget'
      exact hfits (Option.some.inj hget' ▸ hcontradicts)
  · have hnone : ∀ c ∈ I.answered I.reaches, c.state ≠ .fit := fun c hc hfit => by
      obtain ⟨name, hname, hasked, hanswer, -⟩ := mem_answered_fit.mp ⟨hc, hfit⟩
      exact h ⟨name, fits_of_reaches hname hasked, hanswer⟩
    obtain ⟨hselected, hambiguous, hgeneration⟩ := decision_of_none hnone
    refine ⟨fun name => ?_, fun names => ?_, ?_⟩
    · exact iff_of_false (hselected name) fun hbest => h ⟨name, hbest.1.1⟩
    · refine iff_of_false (hambiguous names) fun hbest => ?_
      obtain ⟨name, hname⟩ := Finset.card_pos.mp (Nat.zero_lt_two.trans_le hbest.2)
      exact h ⟨name, ((hbest.1 name).mp hname).1⟩
    · rw [hgeneration]
      refine and_congr_right fun _ => ?_
      constructor
      · exact fun hall name hname => (isNoFit_answered (fun _ => fits_of_reaches) hname).mp
          (hall _ (mem_answered.mpr ⟨name, hname, rfl⟩))
      · rintro hall c hc
        obtain ⟨name, hname, rfl⟩ := mem_answered.mp hc
        exact (isNoFit_answered (fun _ => fits_of_reaches) hname).mpr (hall name hname)

end Inputs

/-- **Lazy selection is eager selection.** It decides what admitting every fitting candidate would;
it selects the only best candidate, finds several ambiguous, and asks for generation where every
candidate contradicts the Task; it asks admission of fitting candidates only, rank by rank, up to
the first rank with an admitted one. -/
theorem select_lazy_eq_eager (I : Inputs) : ∃ selection asked,
    I.select = .ok (selection, asked) ∧ selection.decision = I.eager ∧
    (∀ name, selection.decision = .selected name ↔
      I.IsBest name ∧ ∀ other, I.IsBest other → other = name) ∧
    (∀ names, selection.decision = .ambiguous names ↔
      (∀ name, name ∈ names ↔ I.IsBest name) ∧ 2 ≤ names.card) ∧
    (selection.decision = .needsGeneration ↔
      I.fallback = .generate ∧ ∀ name ∈ I.names, I.NoFit name) ∧
    (∀ name, I.NoFit name → name ∉ asked ∧ selection.decision ≠ .selected name ∧
      ∀ c ∈ selection.candidates, c.pipeline = name → c.state.isNoFit = true) ∧
    (∀ name, name ∈ asked ↔
      I.Fits name ∧ ∀ other, I.Admitted other → I.rank name ≤ I.rank other) ∧
    (asked.map I.rank).Pairwise (· ≤ ·) := by
  obtain ⟨hselected, hambiguous, hgeneration⟩ := @Inputs.decision_iff I
  have hnoFit : ∀ name, I.NoFit name → ¬ I.Fits name := by
    rintro name ⟨pipeline, hget, hcontradicts⟩ ⟨-, pipeline', hget', hfits, -⟩
    rw [hget] at hget'
    exact hfits (Option.some.inj hget' ▸ hcontradicts)
  refine ⟨_, _, Inputs.select_eq, Inputs.decision_reaches, ?_, ?_, ?_, ?_,
    fun name => Inputs.mem_asked_iff, Inputs.asked_sorted⟩
  · simpa only [Inputs.decision_reaches] using hselected
  · simpa only [Inputs.decision_reaches] using hambiguous
  · simpa only [Inputs.decision_reaches] using hgeneration
  · intro name hno
    refine ⟨fun hasked => hnoFit name hno (Inputs.mem_asked_iff.mp hasked).1, fun hsel => ?_, ?_⟩
    · rw [Inputs.decision_reaches] at hsel
      exact hnoFit name hno ((hselected name).mp hsel).1.1.1
    · rintro c hc rfl
      obtain ⟨name, hname, rfl⟩ := Inputs.mem_answered.mp hc
      refine (Inputs.isNoFit_answered (fun _ => Inputs.fits_of_reaches) hname).mpr ?_
      split_ifs at hno with hasked
      · exact hno
      · exact hno

/-- An exact artifact ID. -/
def quickDigest : String :=
  "sha256:0000000000000000000000000000000000000000000000000000000000000000"

/-- A Task that asks for one covered report. -/
def quickTask : RevisionDocument where
  taskId := "t"
  revision := 1
  kind := "quick"
  goal := "g"
  requiredOutputs := .ofList [("out", ⟨"af/Report@1", .one⟩)]
  acceptance := .ofList [("done", ⟨"af/Report@1", quickDigest⟩)]
  provenance := { adapterId := quickDigest }
  authority := { policyId := quickDigest, allowedEffects := [], dataDestinations := [] }
  limits := ⟨10, 10, 4, ⟨1, 1, 1⟩⟩
  strategy := "s"

/-- A Pipeline that gives it. -/
def quickPipeline : PipelineDefinition where
  schema := .v1
  name := "quick"
  version := "1"
  contract :=
    { outputs := .ofList [("out", { artifactType := "af/Report@1", covers := ["done"] })] }
  accepts := ⟨["quick"], .empty⟩
  nodes := [{ id := "draft", operator := .call "child" [] }]
  outputs := .ofList [("out", .node "draft" "out")]
  coverage := .ofList [("done", .node "draft" "out")]
  maxAttempts := 1
  maxParallel := 1

/-- One captured Pipeline, admitted. -/
def quickInputs : Inputs where
  task := quickTask
  requested := none
  pipelines := .ofList [("quick", quickPipeline)]
  priorities := .empty
  noMatch := .refuse
  answer := fun _ => .fit
  task_valid := by decide
  requested_valid := rfl
  pipelines_le := by decide
  priorities_le := by decide
  priorities_captured := rfl
  pipelines_valid := by
    intro name pipeline h
    have h : (OrdMap.insert .empty "quick" quickPipeline).get name = some pipeline := h
    rw [OrdMap.get_insert] at h
    split_ifs at h
    · obtain rfl := Option.some.inj h
      decide
    · cases h
  answer_valid := fun _ => rfl

/-- The only candidate fits, and is selected. -/
example : quickInputs.eager = .selected "quick" := by
  have hnames : ∀ {name}, name ∈ quickInputs.names → name = "quick" := fun {name} h =>
    Finset.mem_singleton.mp (show name ∈ ({"quick"} : Finset String) from h)
  have hfits : quickInputs.Fits "quick" := Inputs.fits_iff.mpr ⟨by decide, by decide⟩
  refine (Inputs.decision_iff.1 "quick").mpr ⟨⟨⟨hfits, rfl⟩, fun other hother => ?_⟩, ?_⟩
  · rw [hnames hother.1.1]
  · exact fun other hother => hnames hother.1.1.1

end Selection

end Afactory
