import Mathlib
import Afactory.PipelineDefinition
import Afactory.StagedUpdate

/-!
# Pipeline selection

`review-config/src/task/selection.rs`: which captured Pipeline runs a Task. A candidate is judged by
its public contract, then admitted by the host, best rank first.

* `semanticFit`: what of a Task a Pipeline's contract contradicts, or does not know;
* `decision`: the decision over the assessed candidates;
* `selectWithPolicy`: the selection, which asks for admission rank by rank;
* `selectEagerly`: the selection that has every fitting candidate admitted first.
-/

namespace Afactory

namespace Selection

open Staged

/-- `NoMatchPolicy` -/
inductive NoMatchPolicy where
  | refuse
  | generate
  deriving DecidableEq, Repr

/-- `PipelineFallbackV1` -/
inductive PipelineFallback where
  | refuse
  | select
  | generate
  deriving DecidableEq, Repr

/-- `PipelineChoiceV1` -/
structure PipelineChoice where
  name : String
  fallback : PipelineFallback
  deriving DecidableEq, Repr

/-- `CandidateState` -/
inductive CandidateState where
  | fit
  | compatible
  | noFit (reasons : List String)
  | unknownFacts (facts : Finset String)
  | unavailable (reason : String)
  | infeasible (reason : String)
  | invalid (reason : String)
  deriving DecidableEq

/-- `CandidateAssessment` -/
structure CandidateAssessment where
  pipeline : String
  preferred : Bool
  priority : ℕ
  state : CandidateState
  deriving DecidableEq

/-- `SelectionDecision` -/
inductive SelectionDecision where
  | selected (pipeline : String)
  | ambiguous (pipelines : Finset String)
  | needsFacts (facts : Finset String)
  | unavailable
  | infeasible
  | invalid
  | refused
  | needsGeneration
  deriving DecidableEq

/-- `PipelineSelection` -/
structure PipelineSelection where
  schema : String
  requested : Option PipelineChoice
  noMatch : NoMatchPolicy
  candidates : List CandidateAssessment
  decision : SelectionDecision
  deriving DecidableEq

/-! ## Semantic fit -/

section Fit

variable (task : RevisionDocument) (pipeline : PipelineDefinition)

/-- A required fact the Task knows otherwise. -/
def contradictsFact (fact : String × TaskFact) : Bool :=
  (task.facts.get fact.1).any (· ≠ fact.2)

/-- A Task input that no public port takes. -/
def lacksPort (input : String × ArtifactInput) : Bool :=
  (pipeline.contract.inputs.get input.1).all fun p =>
    p.artifactType ≠ input.2.artifactType || p.cardinality ≠ input.2.cardinality

/-- A required input the Task does not give, and nothing constructs. -/
def lacksInput (port : String × PipelinePort) : Bool :=
  !port.2.optional && port.2.rootDefault.isNone && !task.inputs.contains port.1

/-- A required output that no public output guarantees. -/
def lacksGuarantee (output : String × RequiredOutput) : Bool :=
  (pipeline.contract.outputs.get output.1).all fun p =>
    p.optional || p.artifactType ≠ output.2.artifactType || p.cardinality ≠ output.2.cardinality

/-- An acceptance obligation that no public output covers. -/
def lacksCoverage (obligation : String × AcceptanceObligation) : Bool :=
  !pipeline.contract.outputs.values.any fun p =>
    !p.optional && p.covers.contains obligation.1 && p.artifactType = obligation.2.evidenceType

/-- The `reasons` of `semantic_fit`. -/
def reasons : List String :=
  (if pipeline.accepts.kinds.contains task.kind then []
    else ["Task kind is outside the root Pipeline's declared applicability"]) ++
  (pipeline.accepts.requiredFacts.entries.filter (contradictsFact task)).map (fun e =>
    "Known fact " ++ e.1 ++ " contradicts applicability") ++
  (task.inputs.entries.filter (lacksPort pipeline)).map (fun e =>
    "Input " ++ e.1 ++ " has no compatible public port") ++
  (pipeline.contract.inputs.entries.filter (lacksInput task)).map (fun e =>
    "Required input " ++ e.1 ++ " is absent and has no admitted constructor") ++
  (task.requiredOutputs.entries.filter (lacksGuarantee pipeline)).map (fun e =>
    "Required output " ++ e.1 ++ " has no compatible public guarantee") ++
  (task.acceptance.entries.filter (lacksCoverage pipeline)).map (fun e =>
    "Acceptance obligation " ++ e.1 ++ " has no compatible public coverage")

/-- The `unknown` facts of `semantic_fit`. -/
def unknownFacts : Finset String :=
  ((pipeline.accepts.requiredFacts.entries.filter fun e => !task.facts.contains e.1).map
    Prod.fst).toFinset

/-- `semantic_fit` -/
def semanticFit : CandidateState :=
  if reasons task pipeline ≠ [] then .noFit (reasons task pipeline)
  else if unknownFacts task pipeline ≠ ∅ then .unknownFacts (unknownFacts task pipeline)
  else .fit

end Fit

/-! ## Candidates -/

/-- `effective_fallback` -/
def effectiveFallback (requested : Option PipelineChoice) (noMatch : NoMatchPolicy) :
    PipelineFallback :=
  (requested.map (·.fallback)).getD
    (match noMatch with
    | .refuse => .select
    | .generate => .generate)

/-- `candidate_names` -/
def candidateNames (requested : Option PipelineChoice)
    (pipelines : OrdMap String PipelineDefinition) (noMatch : NoMatchPolicy) : Finset String :=
  (if effectiveFallback requested noMatch = .refuse then ∅ else pipelines.keys.toFinset) ∪
    (requested.map (·.name)).toFinset

/-- A captured Pipeline has to be valid. -/
def validatePipeline : Option PipelineDefinition → Except String Unit
  | some pipeline => pipeline.validate
  | none => .ok ()

section Assess

variable (task : RevisionDocument) (requested : Option PipelineChoice)
  (pipelines : OrdMap String PipelineDefinition) (priorities : OrdMap String ℕ)

/-- What the contract of a candidate says of the Task. -/
@[grind =] def judge : Option PipelineDefinition → CandidateState
  | none => .unavailable "Requested Pipeline package is not captured"
  | some pipeline =>
    match semanticFit task pipeline with
    | .fit => .compatible
    | state => state

/-- A candidate before admission. -/
def assess (name : String) : CandidateAssessment where
  pipeline := name
  preferred := requested.any (name = ·.name)
  priority := (priorities.get name).getD (2 ^ 32 - 1)
  state := judge task (pipelines.get name)

/-- A candidate before admission, when its Pipeline is valid. -/
def candidate (name : String) : Except String CandidateAssessment := do
  validatePipeline (pipelines.get name)
  return assess task requested pipelines priorities name

end Assess

/-- The preferred candidate first, then by priority. -/
def CandidateAssessment.rank (c : CandidateAssessment) : Bool ×ₗ ℕ :=
  toLex (!c.preferred, c.priority)

/-- The group a candidate is admitted in. -/
def CandidateAssessment.group (c : CandidateAssessment) : Option (Bool ×ₗ ℕ) :=
  if c.state = .compatible then some c.rank else none

/-! ## The decision -/

namespace CandidateState

def isInvalid : CandidateState → Bool
  | .invalid _ => true
  | _ => false

def isUnavailable : CandidateState → Bool
  | .unavailable _ => true
  | _ => false

def isInfeasible : CandidateState → Bool
  | .infeasible _ => true
  | _ => false

def isNoFit : CandidateState → Bool
  | .noFit _ => true
  | _ => false

/-- What admission may answer. -/
def isAnswer : CandidateState → Bool
  | .fit => true
  | .unavailable _ => true
  | .infeasible _ => true
  | .invalid _ => true
  | _ => false

/-- The facts that a candidate waits for. -/
def facts : CandidateState → Option (Finset String)
  | .unknownFacts facts => some facts
  | _ => none

end CandidateState

/-- One winner is selected. -/
def decideWinners (winners : Finset String) : SelectionDecision :=
  match winners.sort with
  | [pipeline] => .selected pipeline
  | _ => .ambiguous winners

/-- `BTreeSet::iter`, of names. -/
def inOrder (names : Finset String) : List String := names.sort

/-- The candidates that fit, with the least rank. -/
def winners (candidates : List CandidateAssessment) (best : Bool ×ₗ ℕ) : Finset String :=
  ((candidates.filter fun c => c.state = .fit && c.rank = best).map (·.pipeline)).toFinset

/-- The decision over the candidates. -/
def decision (fallback : PipelineFallback) (candidates : List CandidateAssessment) :
    SelectionDecision :=
  match ((candidates.filter fun c => c.state = .fit).map (·.rank)).min? with
  | some best => decideWinners (winners candidates best)
  | none =>
    if candidates.any (·.state.isInvalid) then .invalid
    else if candidates.any (·.state.facts.isSome) then
      .needsFacts ((candidates.filterMap (·.state.facts)).foldr (· ∪ ·) ∅)
    else if candidates.any (·.state.isUnavailable) then .unavailable
    else if candidates.any (·.state.isInfeasible) then .infeasible
    else if fallback = .generate && candidates.all (·.state.isNoFit) then .needsGeneration
    else .refused

/-! ## Admission -/

/-- One candidate admitted, or not, by what the host answers. -/
def admitCandidate {σ : Type} (answer : σ → String → CandidateState × σ) (s : σ)
    (c : CandidateAssessment) : Except String (CandidateAssessment × Bool × σ) :=
  match answer s c.pipeline with
  | (.fit, s) => .ok ({ c with state := .fit }, true, s)
  | (.unavailable reason, s) => .ok ({ c with state := .unavailable reason }, false, s)
  | (.infeasible reason, s) => .ok ({ c with state := .infeasible reason }, false, s)
  | (.invalid reason, s) => .ok ({ c with state := .invalid reason }, false, s)
  | _ => .error "Capability admission cannot rewrite semantic applicability"

/-- `select_with_policy`; `answer` keeps a state of its own. -/
def selectWithPolicy {σ : Type} (task : RevisionDocument) (requested : Option PipelineChoice)
    (pipelines : OrdMap String PipelineDefinition) (priorities : OrdMap String ℕ)
    (noMatch : NoMatchPolicy) (answer : σ → String → CandidateState × σ) (s : σ) :
    Except String (PipelineSelection × σ) := do
  task.validate
  ensure (requested.all fun choice => isPackageName choice.name) "Invalid requested Pipeline name"
  ensure (pipelines.entries.length ≤ 128 && priorities.entries.length ≤ 128 &&
      priorities.keys.all pipelines.contains)
    "Selection requires bounded captured Pipelines and valid trusted priorities"
  let candidates ← (candidateNames requested pipelines noMatch).sort.mapM
    (candidate task requested pipelines priorities)
  let (candidates, s) ← updateGroups (admitCandidate answer)
    (groups CandidateAssessment.group candidates).values candidates s
  return ({ schema := "af.pipeline-selection/1", requested, noMatch, candidates,
            decision := decision (effectiveFallback requested noMatch) candidates }, s)

/-! ## The eager selection -/

/-- A candidate that fits, with what admission says of it. -/
def CandidateAssessment.admitted (answer : String → CandidateState) (c : CandidateAssessment) :
    CandidateAssessment :=
  { c with state := answer c.pipeline }

/-- The selection that has every fitting candidate admitted, and then judges them all. -/
def selectEagerly (task : RevisionDocument) (requested : Option PipelineChoice)
    (pipelines : OrdMap String PipelineDefinition) (priorities : OrdMap String ℕ)
    (noMatch : NoMatchPolicy) (answer : String → CandidateState) : SelectionDecision :=
  decision (effectiveFallback requested noMatch)
    (((candidateNames requested pipelines noMatch).sort.map
      (assess task requested pipelines priorities)).map fun c =>
        if c.state = .compatible then c.admitted answer else c)

/-! ## What a contract says -/

/-- **A Pipeline's contract contradicts the Task**: its kind, a known fact, an input, a required
input or output, or an acceptance obligation. -/
inductive Contradicts (task : RevisionDocument) (pipeline : PipelineDefinition) : Prop
  | kind (h : task.kind ∉ pipeline.accepts.kinds)
  | fact {name : String} {expected actual : TaskFact}
      (hrequired : pipeline.accepts.requiredFacts.get name = some expected)
      (hknown : task.facts.get name = some actual) (hne : actual ≠ expected)
  | input {name : String} {input : ArtifactInput} (hinput : task.inputs.get name = some input)
      (hport : ∀ p, pipeline.contract.inputs.get name = some p →
        ¬ (p.artifactType = input.artifactType ∧ p.cardinality = input.cardinality))
  | requiredInput {name : String} {p : PipelinePort}
      (hport : pipeline.contract.inputs.get name = some p) (hrequired : p.optional = false)
      (hdefault : p.rootDefault = none) (habsent : task.inputs.get name = none)
  | requiredOutput {name : String} {output : RequiredOutput}
      (houtput : task.requiredOutputs.get name = some output)
      (hport : ∀ p, pipeline.contract.outputs.get name = some p →
        ¬ (p.optional = false ∧ p.artifactType = output.artifactType ∧
          p.cardinality = output.cardinality))
  | acceptance {name : String} {obligation : AcceptanceObligation}
      (hobligation : task.acceptance.get name = some obligation)
      (hport : ∀ port p, pipeline.contract.outputs.get port = some p →
        ¬ (p.optional = false ∧ name ∈ p.covers ∧ p.artifactType = obligation.evidenceType))

/-- The Task knows every fact the Pipeline asks for. -/
def Knows (task : RevisionDocument) (pipeline : PipelineDefinition) : Prop :=
  ∀ name expected, pipeline.accepts.requiredFacts.get name = some expected →
    ∃ actual, task.facts.get name = some actual

section Judge

variable {task : RevisionDocument} {pipeline : PipelineDefinition}

theorem contradictsFact_iff {fact : String × TaskFact} :
    contradictsFact task fact = true ↔
      ∃ actual, task.facts.get fact.1 = some actual ∧ actual ≠ fact.2 := by
  simp [contradictsFact, Option.any_eq_true]

theorem lacksPort_iff {input : String × ArtifactInput} :
    lacksPort pipeline input = true ↔ ∀ p, pipeline.contract.inputs.get input.1 = some p →
      ¬ (p.artifactType = input.2.artifactType ∧ p.cardinality = input.2.cardinality) := by
  simp [lacksPort, Option.all_eq_true, imp_iff_not_or]

theorem lacksInput_iff {port : String × PipelinePort} :
    lacksInput task port = true ↔
      port.2.optional = false ∧ port.2.rootDefault = none ∧ task.inputs.get port.1 = none := by
  simp [lacksInput, OrdMap.contains, and_assoc]

theorem lacksGuarantee_iff {output : String × RequiredOutput} :
    lacksGuarantee pipeline output = true ↔
      ∀ p, pipeline.contract.outputs.get output.1 = some p →
        ¬ (p.optional = false ∧ p.artifactType = output.2.artifactType ∧
          p.cardinality = output.2.cardinality) := by
  simp [lacksGuarantee, Option.all_eq_true, imp_iff_not_or, or_assoc]

theorem lacksCoverage_iff {obligation : String × AcceptanceObligation} :
    lacksCoverage pipeline obligation = true ↔
      ∀ port p, pipeline.contract.outputs.get port = some p →
        ¬ (p.optional = false ∧ obligation.1 ∈ p.covers ∧
          p.artifactType = obligation.2.evidenceType) := by
  simp only [lacksCoverage, Bool.not_eq_true', List.any_eq_false, OrdMap.mem_values_iff]
  constructor
  · intro h port p hport hcovers
    exact h p ⟨port, hport⟩ (by simpa [and_assoc] using hcovers)
  · rintro h p ⟨port, hport⟩ hcovers
    exact h port p hport (by simpa [and_assoc] using hcovers)

/-- A reason is given for some entry. -/
theorem reasonsOf_ne_nil_iff {V : Type} {m : OrdMap String V} {p : String × V → Bool}
    {text : String × V → String} :
    (m.entries.filter p).map text ≠ [] ↔ ∃ name v, m.get name = some v ∧ p (name, v) = true := by
  rw [ne_eq, List.map_eq_nil_iff, List.filter_eq_nil_iff]
  push Not
  simp only [Prod.exists, OrdMap.mem_iff_get]

/-- **A reason is given exactly where the contract contradicts the Task.** -/
theorem reasons_ne_nil_iff : reasons task pipeline ≠ [] ↔ Contradicts task pipeline := by
  have hkind : (if pipeline.accepts.kinds.contains task.kind then []
      else ["Task kind is outside the root Pipeline's declared applicability"]) ≠ [] ↔
      task.kind ∉ pipeline.accepts.kinds := by
    simp
  have happend : ∀ l l' : List String, l ++ l' ≠ [] ↔ l ≠ [] ∨ l' ≠ [] := fun l l' => by
    rw [ne_eq, List.append_eq_nil_iff, not_and_or]
  simp only [reasons, happend, hkind, reasonsOf_ne_nil_iff, contradictsFact_iff,
    lacksPort_iff, lacksInput_iff, lacksGuarantee_iff, lacksCoverage_iff]
  constructor
  · rintro (((((h | ⟨name, expected, hrequired, actual, hknown, hne⟩) |
      ⟨name, input, hinput, hport⟩) | ⟨name, p, hport, hrequired, hdefault, habsent⟩) | ⟨name, output, houtput, hport⟩) |
      ⟨name, obligation, hobligation, hport⟩)
    · exact .kind h
    · exact .fact hrequired hknown hne
    · exact .input hinput hport
    · exact .requiredInput hport hrequired hdefault habsent
    · exact .requiredOutput houtput hport
    · exact .acceptance hobligation hport
  · intro h
    cases h with
    | kind h => exact .inl (.inl (.inl (.inl (.inl h))))
    | fact hrequired hknown hne =>
      exact .inl (.inl (.inl (.inl (.inr ⟨_, _, hrequired, _, hknown, hne⟩))))
    | input hinput hport => exact .inl (.inl (.inl (.inr ⟨_, _, hinput, hport⟩)))
    | requiredInput hport hrequired hdefault habsent =>
      exact .inl (.inl (.inr ⟨_, _, hport, hrequired, hdefault, habsent⟩))
    | requiredOutput houtput hport => exact .inl (.inr ⟨_, _, houtput, hport⟩)
    | acceptance hobligation hport => exact .inr ⟨_, _, hobligation, hport⟩

theorem unknownFacts_eq_empty_iff : unknownFacts task pipeline = ∅ ↔ Knows task pipeline := by
  rw [unknownFacts, List.toFinset_eq_empty_iff, List.map_eq_nil_iff, List.filter_eq_nil_iff]
  simp only [Prod.forall, OrdMap.mem_iff_get, Bool.not_eq_true', Bool.not_eq_false,
    OrdMap.contains_iff]
  rfl

/-- **What a candidate's contract says of the Task.** -/
theorem judge_noFit_iff {captured : Option PipelineDefinition} :
    (judge task captured).isNoFit = true ↔
      ∃ pipeline, captured = some pipeline ∧ Contradicts task pipeline := by
  cases captured with
  | none => simp [judge, CandidateState.isNoFit]
  | some pipeline =>
    simp only [Option.some.injEq, exists_eq_left', ← reasons_ne_nil_iff, judge, semanticFit]
    split_ifs with hreasons hunknown
    · exact iff_of_true rfl hreasons
    · exact iff_of_false Bool.false_ne_true hreasons
    · exact iff_of_false Bool.false_ne_true hreasons

theorem judge_compatible_iff {captured : Option PipelineDefinition} :
    judge task captured = .compatible ↔
      ∃ pipeline, captured = some pipeline ∧ ¬ Contradicts task pipeline ∧ Knows task pipeline := by
  cases captured with
  | none => simp [judge]
  | some pipeline =>
    simp only [Option.some.injEq, exists_eq_left', ← reasons_ne_nil_iff,
      ← unknownFacts_eq_empty_iff, judge, semanticFit]
    split_ifs with hreasons hunknown
    · exact iff_of_false nofun fun h => h.1 hreasons
    · exact iff_of_false nofun fun h => hunknown h.2
    · exact iff_of_true rfl ⟨hreasons, not_not.mp hunknown⟩

theorem judge_ne_fit (captured : Option PipelineDefinition) : judge task captured ≠ .fit := by
  cases captured with
  | none => nofun
  | some pipeline =>
    rw [judge, semanticFit]
    split_ifs
    · nofun
    · nofun
    · nofun

end Judge

/-! ## What is decided -/

section Decision

variable {candidates : List CandidateAssessment}

/-- A candidate that fits with the least rank. -/
def Best (candidates : List CandidateAssessment) (name : String) : Prop :=
  ∃ c ∈ candidates, c.pipeline = name ∧ c.state = .fit ∧
    ∀ c' ∈ candidates, c'.state = .fit → c.rank ≤ c'.rank

theorem mem_winners {best : Bool ×ₗ ℕ}
    (hbest : ((candidates.filter fun c => c.state = .fit).map (·.rank)).min? = some best)
    {name : String} : name ∈ winners candidates best ↔ Best candidates name := by
  obtain ⟨hmem, hleast⟩ := List.min?_eq_some_iff.mp hbest
  have hle : ∀ c' ∈ candidates, c'.state = .fit → best ≤ c'.rank := fun c' hc' hfit =>
    hleast _ (List.mem_map_of_mem (List.mem_filter.mpr ⟨hc', by simpa using hfit⟩))
  obtain ⟨c₀, hc₀, rfl⟩ := List.mem_map.mp hmem
  obtain ⟨hc₀, hfit₀⟩ := List.mem_filter.mp hc₀
  simp only [winners, List.mem_toFinset, List.mem_map, List.mem_filter, Bool.and_eq_true,
    decide_eq_true_eq]
  constructor
  · rintro ⟨c, ⟨hc, hfit, hrank⟩, rfl⟩
    exact ⟨c, hc, rfl, hfit, hrank ▸ hle⟩
  · rintro ⟨c, hc, rfl, hfit, hc_least⟩
    exact ⟨c, ⟨hc, hfit, le_antisymm (hc_least c₀ hc₀ (by simpa using hfit₀)) (hle c hc hfit)⟩, rfl⟩

/-- **Where a candidate fits, the best are the winners.** -/
theorem decision_of_fit {fallback : PipelineFallback} (h : ∃ c ∈ candidates, c.state = .fit) :
    ∃ best : Finset String, best.Nonempty ∧ (∀ name, name ∈ best ↔ Best candidates name) ∧
      decision fallback candidates = decideWinners best := by
  obtain ⟨c, hc, hfit⟩ := h
  cases hmin : ((candidates.filter fun c => c.state = .fit).map (·.rank)).min? with
  | none =>
    rw [List.min?_eq_none_iff, List.map_eq_nil_iff, List.filter_eq_nil_iff] at hmin
    exact absurd (by simpa using hfit) (hmin c hc)
  | some best =>
    refine ⟨winners candidates best, ?_, fun name => mem_winners hmin, ?_⟩
    · obtain ⟨c', hc', hrank⟩ := List.mem_map.mp (List.min?_mem hmin)
      obtain ⟨hc', hfit'⟩ := List.mem_filter.mp hc'
      refine ⟨c'.pipeline, (mem_winners hmin).mpr ⟨c', hc', rfl, by simpa using hfit', ?_⟩⟩
      exact fun c'' hc'' hfit'' => hrank ▸ (List.min?_eq_some_iff.mp hmin).2 _
        (List.mem_map_of_mem (List.mem_filter.mpr ⟨hc'', by simpa using hfit''⟩))
    · rw [decision, hmin]

/-- **One winner is selected, more are ambiguous.** -/
theorem decideWinners_eq_selected {best : Finset String} {name : String} :
    decideWinners best = .selected name ↔ best = {name} := by
  rw [decideWinners]
  constructor
  · intro h
    split at h
    · next pipeline hsort =>
      obtain rfl := SelectionDecision.selected.inj h
      rw [← Finset.sort_toFinset best (· ≤ ·), hsort]
      rfl
    · cases h
  · rintro rfl
    rw [Finset.sort_singleton]

theorem decideWinners_eq_ambiguous {best names : Finset String} (hne : best.Nonempty) :
    decideWinners best = .ambiguous names ↔ best = names ∧ 2 ≤ best.card := by
  have hlength : best.sort.length = best.card := Finset.length_sort _
  have hcard : 0 < best.card := hne.card_pos
  rw [decideWinners]
  cases hsort : best.sort with
  | nil =>
    rw [hsort] at hlength
    exact absurd hlength.symm hcard.ne'
  | cons first rest =>
    rw [hsort] at hlength
    cases rest with
    | nil =>
      refine iff_of_false nofun fun h => ?_
      rw [← hlength] at h
      exact absurd h.2 (show ¬ 2 ≤ 1 by decide)
    | cons second rest =>
      have htwo : 2 ≤ best.card := hlength ▸ by simp
      simp [htwo]

theorem decideWinners_ne {best : Finset String} : decideWinners best ≠ .needsGeneration := by
  rw [decideWinners]
  split
  · nofun
  · nofun

/-- Where no candidate fits, none is selected. -/
theorem decision_of_none {fallback : PipelineFallback} (h : ∀ c ∈ candidates, c.state ≠ .fit) :
    (∀ name, decision fallback candidates ≠ .selected name) ∧
      (∀ names, decision fallback candidates ≠ .ambiguous names) ∧
      (decision fallback candidates = .needsGeneration ↔
        fallback = .generate ∧ ∀ c ∈ candidates, c.state.isNoFit = true) := by
  have hnone : ((candidates.filter fun c => c.state = .fit).map (·.rank)).min? = none := by
    rw [List.min?_eq_none_iff, List.map_eq_nil_iff, List.filter_eq_nil_iff]
    exact fun c hc => by simpa using h c hc
  rw [decision, hnone]
  dsimp only
  -- Any other state among the candidates is not a contradiction.
  have hother : ∀ p : CandidateState → Bool, (∀ reasons, p (.noFit reasons) = false) →
      candidates.any (fun c => p c.state) = true → ¬ ∀ c ∈ candidates, c.state.isNoFit = true := by
    intro p hp hany hall
    obtain ⟨c, hc, hstate⟩ := List.any_eq_true.mp hany
    have hnoFit := hall c hc
    cases hc' : c.state with
    | noFit reasons =>
      rw [hc', hp] at hstate
      cases hstate
    | _ =>
      rw [hc'] at hnoFit
      cases hnoFit
  split_ifs with hinvalid hfacts hunavailable hinfeasible hgenerate
  all_goals refine ⟨nofun, nofun, ?_⟩
  · exact iff_of_false nofun fun h => hother CandidateState.isInvalid (fun _ => rfl) hinvalid h.2
  · exact iff_of_false nofun fun h =>
      hother (fun state => state.facts.isSome) (fun _ => rfl) hfacts h.2
  · exact iff_of_false nofun fun h =>
      hother CandidateState.isUnavailable (fun _ => rfl) hunavailable h.2
  · exact iff_of_false nofun fun h =>
      hother CandidateState.isInfeasible (fun _ => rfl) hinfeasible h.2
  · exact iff_of_true rfl (by simpa using hgenerate)
  · exact iff_of_false nofun fun h => hgenerate (by simpa using h)

end Decision

end Selection

end Afactory
