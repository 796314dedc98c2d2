import Mathlib
import Afactory.Json
import Afactory.MeasureDecimals
import Afactory.PipelineDefinition

/-!
# Measurements and their comparison

The records of `review-core/src/task/measurement.rs`, how runs are summarized and how two
measurements are compared.

* `Measurement`, `summarize`: the runs of a measure, and what they are folded to;
* `compareMeasurements`: two measurements under an objective.
-/

namespace Afactory

namespace Measurement

/-! ## Limits and names -/

/-- `ELAPSED_MS`: the metric the kernel observes itself. -/
abbrev elapsedMs : String := "elapsed_ms"

/-- `MAX_REPETITIONS` -/
abbrev maxRepetitions : UInt32 := 16

/-- `MAX_REPETITION_WALL_MS` -/
abbrev maxRepetitionWallMs : UInt64 := 3600000

/-- `MAX_DECLARED_METRICS` -/
abbrev maxDeclaredMetrics : ℕ := 32

/-- `MAX_SIGNIFICANT_DIGITS` -/
abbrev maxSignificantDigits : ℕ := 38

/-- `safe_number` -/
def safeNumber (value : UInt64) : Bool := value.toNat ≤ safeIntegerMax

/-! ## Records -/

/-- `MetricUnitV1` -/
inductive MetricUnit where
  | ms | bytes | count | ratio
  deriving DecidableEq, Repr

/-- `ObjectiveDirectionV1` -/
inductive ObjectiveDirection where
  | lower | higher
  deriving DecidableEq, Repr

/-- `MeasureObjectiveV1` -/
structure MeasureObjective where
  measure : String
  metric : String
  direction : ObjectiveDirection
  minImprovementRatio : MeasureDecimal
  minRepetitions : UInt32
  deriving DecidableEq

/-- `MetricValueV1` -/
structure MetricValue where
  value : MeasureDecimal
  unit : MetricUnit
  deriving DecidableEq

/-- `MeasurementFailureReasonV1` -/
inductive FailureReason where
  | exit | timeout | deadline | malformedReport | unitMismatch | sourceMutated | insufficientDisk
  deriving DecidableEq, Repr

/-- `MeasurementFailureV1` -/
structure MeasurementFailure where
  repetition : UInt32
  reason : FailureReason
  detail : String
  deriving DecidableEq

/-- `MeasurementCacheV1` -/
structure MeasurementCache where
  warm : Bool
  bytes : UInt64
  reason : Option String
  deriving DecidableEq

/-- `MeasurementRunV1` -/
structure MeasurementRun where
  startedUnixMs : UInt64
  elapsedMs : UInt64
  exitCode : Option Int32
  stdoutId : Option String
  stderrId : Option String
  cache : Option MeasurementCache
  metrics : OrdMap String MetricValue
  deriving DecidableEq

/-- `MetricSummaryV1` -/
structure MetricSummary where
  unit : MetricUnit
  median : MeasureDecimal
  min : MeasureDecimal
  max : MeasureDecimal
  n : UInt32
  deriving DecidableEq

/-- `MeasurementV1` -/
structure MeasurementRecord where
  planId : String
  policyId : String
  snapshotId : String
  measure : String
  commandId : String
  toolchainId : Option String
  warm : Bool
  repetitions : UInt32
  wallMs : UInt64
  metrics : OrdMap String MetricUnit
  outcome : ReceiptOutcome
  failure : Option MeasurementFailure
  runs : List MeasurementRun
  summary : OrdMap String MetricSummary
  deriving DecidableEq

/-! ## Summaries -/

/-- `median` of a sorted sample. -/
def median (sorted : List MeasureDecimal) : Except String MeasureDecimal :=
  if hnone : sorted.length = 0 then .error "The median of nothing is undefined"
  else if sorted.length % 2 = 1 then .ok (sorted.get ⟨sorted.length / 2, by omega⟩)
  else
    ((sorted.get ⟨sorted.length / 2 - 1, by omega⟩).exact.add
      (sorted.get ⟨sorted.length / 2, by omega⟩).exact).half.unsigned

/-- The value of a metric in one run. -/
def runValue (key : String) (run : MeasurementRun) : Except String MeasureDecimal :=
  if key = elapsedMs then .ok (.fromU64 run.elapsedMs)
  else
    match run.metrics.get key with
    | some value => .ok value.value
    | none => .error ("A repetition lacks metric " ++ key)

/-- `sort` -/
def sortValues (values : List MeasureDecimal) : List MeasureDecimal :=
  values.mergeSort fun a b => a.cmp b ≠ .gt

/-- One metric of `summarize`. -/
def summarizeMetric (runs : List MeasurementRun) (key : String) (unit : MetricUnit) :
    Except String MetricSummary := do
  let values ← runs.mapM (runValue key)
  match sortValues values with
  | [] => throw "A summary needs at least one repetition"
  | first :: rest =>
    let median ← median (first :: rest)
    if (first :: rest).length < 2 ^ 32 then
      return { unit, median, min := first, max := (first :: rest).getLast (by simp),
               n := .ofNat (first :: rest).length }
    else throw "Too many repetitions"

/-- The declared metrics and the built-in one. -/
def withElapsed (declared : OrdMap String MetricUnit) : OrdMap String MetricUnit :=
  declared.insert elapsedMs .ms

/-- A value made of each entry, in the order of the keys, until one fails. -/
def mapEntries {V W : Type} (f : String → V → Except String W) (m : OrdMap String V) :
    Except String (OrdMap String W) :=
  m.entries.foldlM (fun made (key, value) => do return made.insert key (← f key value)) .empty

/-- `summarize` -/
def summarize (declared : OrdMap String MetricUnit) (runs : List MeasurementRun) :
    Except String (OrdMap String MetricSummary) :=
  mapEntries (summarizeMetric runs) (withElapsed declared)

/-! ## Validation -/

namespace MeasurementRecord

variable (M : MeasurementRecord)

/-- `complete` -/
def complete (run : MeasurementRun) : Except String Unit := do
  ensure (run.exitCode = some 0 && run.stdoutId.isSome && run.stderrId.isSome)
    "A completed repetition exited zero with retained output"
  ensure (run.metrics.entries.length = M.metrics.entries.length &&
      run.metrics.entries.all fun (key, value) =>
        M.metrics.get key = some value.unit &&
          value.value.significantDigits ≤ maxSignificantDigits)
    "A completed repetition reports exactly the declared metrics and units"

/-- What is checked of every run. -/
def checkRun (run : MeasurementRun) : Except String Unit := do
  ensure ((run.stdoutId.toList ++ run.stderrId.toList).all isDigest)
    "Measurement output is not a digest"
  ensure (safeNumber run.startedUnixMs && safeNumber run.elapsedMs &&
      run.cache.all fun cache => safeNumber cache.bytes)
    "Measurement run numbers exceed the canonical JSON bound"
  ensure (run.cache.all fun cache => cache.warm != cache.reason.any fun reason => reason ≠ "")
    "Measurement run cache names a reason exactly when it ran cold"

/-- What a passed measurement is checked for. -/
def checkPassed : Except String Unit := do
  ensure (M.runs.length = M.repetitions.toNat)
    "A passed measurement records every declared repetition"
  M.runs.forM M.complete
  let summary ← summarize M.metrics M.runs
  ensure (M.summary = summary) "Measurement summary differs from its repetitions"

/-- What a failed measurement is checked for. -/
def checkFailed (failure : MeasurementFailure) : Except String Unit := do
  ensure (1 ≤ failure.repetition && failure.repetition ≤ M.repetitions &&
      M.runs.length = failure.repetition.toNat)
    "A failed measurement ends at the repetition that failed"
  M.runs.dropLast.forM M.complete
  ensure (M.runs.getLast?.all fun last => last.metrics.entries = [])
    "A failed repetition carries no metrics"
  ensure (M.summary.entries = []) "A failed measurement carries no summary"

/-- `MeasurementV1::validate` -/
def validate : Except String Unit := do
  ensure (([M.planId, M.policyId, M.snapshotId, M.commandId] ++ M.toolchainId.toList).all isDigest)
    "Measurement identity is not a digest"
  ensure (isNameText M.measure) "Measurement names an invalid measure"
  ensure (1 ≤ M.repetitions && M.repetitions ≤ maxRepetitions && 1 ≤ M.wallMs &&
      M.wallMs ≤ maxRepetitionWallMs)
    "Measurement repetitions or wall are out of bounds"
  ensure (M.metrics.entries.length ≤ maxDeclaredMetrics &&
      M.metrics.keys.all fun key => isNameText key && key ≠ elapsedMs)
    "Measurement declares invalid metrics"
  M.runs.forM checkRun
  match M.outcome, M.failure with
  | .passed, none => M.checkPassed
  | .failed, some failure => M.checkFailed failure
  | _, _ => throw "A measurement is passed without a failure or failed with one"

end MeasurementRecord

/-! ## Comparisons -/

/-- `ComparisonConclusionV1` -/
inductive Conclusion where
  | improved | belowThreshold | unchanged | regressed | inconclusive
  deriving DecidableEq, Repr

/-- `outcome` -/
def Conclusion.outcome : Conclusion → ReceiptOutcome
  | improved => .passed
  | belowThreshold | unchanged | regressed => .failed
  | inconclusive => .inconclusive

/-- `MetricComparisonV1` -/
structure MetricComparison where
  unit : MetricUnit
  baselineMedian : Option MeasureDecimal
  candidateMedian : Option MeasureDecimal
  improvement : Option MeasureSignedDecimal
  ratio : Option MeasureRatio
  baselineN : UInt32
  candidateN : UInt32
  conclusion : Conclusion
  deriving DecidableEq

/-- `MeasurementComparisonV1` -/
structure MeasurementComparison where
  planId : String
  policyId : String
  baselineId : String
  candidateId : String
  objective : String
  measure : String
  metric : String
  direction : ObjectiveDirection
  minImprovementRatio : MeasureDecimal
  minRepetitions : UInt32
  metrics : OrdMap String MetricComparison
  outcome : ReceiptOutcome
  deriving DecidableEq

/-- `MeasurementComparisonV1::validate` -/
def MeasurementComparison.validate (C : MeasurementComparison) : Except String Unit := do
  ensure ([C.planId, C.policyId, C.baselineId, C.candidateId].all isDigest)
    "Comparison identity is not a digest"
  ensure (isNameText C.objective && isNameText C.measure && isNameText C.metric)
    "Comparison names are invalid"
  ensure (C.minImprovementRatio.cmp (.fromU64 1) ≠ .gt && 1 ≤ C.minRepetitions &&
      C.minRepetitions ≤ maxRepetitions)
    "Comparison objective bounds are invalid"
  match C.metrics.get C.metric with
  | none => throw "Comparison lacks its objective's metric"
  | some objective =>
    ensure (C.metrics.contains elapsedMs && C.metrics.entries.length ≤ maxDeclaredMetrics + 1 &&
        C.metrics.keys.all isNameText)
      "Comparison metrics are invalid"
    ensure (C.outcome = objective.conclusion.outcome)
      "Comparison outcome differs from its objective metric's conclusion"

/-- One side of a comparison: the median and how many runs it is of. -/
def MeasurementRecord.side (M : MeasurementRecord) (key : String) :
    Option (MeasureDecimal × UInt32) :=
  (M.summary.get key).map fun summary => (summary.median, summary.n)

section Comparing

variable (direction : ObjectiveDirection) (threshold : MeasureDecimal) (minRepetitions : UInt32)

/-- `baseline − candidate` for `lower`, `candidate − baseline` for `higher`. -/
def improvementOf (base cand : MeasureDecimal) : Exact :=
  match direction with
  | .lower => base.exact.sub cand.exact
  | .higher => cand.exact.sub base.exact

/-- The conclusion of one metric. -/
def conclusionOf (base cand : Option (MeasureDecimal × UInt32))
    (improvement : Option MeasureSignedDecimal) (ratio : Option MeasureRatio) : Conclusion :=
  match base, cand, improvement with
  | some (base, baselineN), some (cand, candidateN), some improvement =>
    if baselineN ≥ minRepetitions ∧ candidateN ≥ minRepetitions then
      if base.isZero && !cand.isZero then .inconclusive
      else
        match improvement.signum with
        | .eq => .unchanged
        | .lt => .regressed
        | .gt => if ratio.any (·.atLeast threshold) then .improved else .belowThreshold
    else .inconclusive
  | _, _, _ => .inconclusive

/-- One metric of `compare_measurements`. -/
def compareMetric (base cand : Option (MeasureDecimal × UInt32)) (unit : MetricUnit) :
    Except String MetricComparison := do
  let exact := match base, cand with
    | some (base, _), some (cand, _) => some (improvementOf direction base cand)
    | _, _ => none
  let ratio := match exact, base with
    | some improvement, some (base, _) => MeasureRatio.of improvement base.exact
    | _, _ => none
  let improvement ← match exact with
    | some improvement => some <$> improvement.signed
    | none => .ok none
  return {
    unit
    baselineMedian := base.map Prod.fst
    candidateMedian := cand.map Prod.fst
    improvement
    ratio
    baselineN := (base.map Prod.snd).getD 0
    candidateN := (cand.map Prod.snd).getD 0
    conclusion := conclusionOf threshold minRepetitions base cand improvement ratio }

end Comparing

/-- `compare_measurements` -/
def compareMeasurements (planId policyId baselineId : String) (baseline : MeasurementRecord)
    (candidateId : String) (candidate : MeasurementRecord) (name : String)
    (objective : MeasureObjective) : Except String MeasurementComparison := do
  baseline.validate
  candidate.validate
  ensure (baseline.measure = objective.measure && candidate.measure = objective.measure)
    ("Objective " ++ name ++ " compares measure " ++ objective.measure ++ ", not " ++
      baseline.measure ++ " and " ++ candidate.measure)
  ensure (baseline.metrics = candidate.metrics) "The two measurements declare different metrics"
  let units := withElapsed baseline.metrics
  ensure (units.contains objective.metric)
    ("Objective " ++ name ++ " names metric " ++ objective.metric ++
      ", which the measurements do not record")
  let metrics ← mapEntries (fun key unit => compareMetric objective.direction
    objective.minImprovementRatio objective.minRepetitions (baseline.side key)
    (candidate.side key) unit) units
  let comparison : MeasurementComparison := {
    planId, policyId, baselineId, candidateId
    objective := name
    measure := objective.measure
    metric := objective.metric
    direction := objective.direction
    minImprovementRatio := objective.minImprovementRatio
    minRepetitions := objective.minRepetitions
    metrics
    -- the objective's metric is among the units
    outcome := ((metrics.get objective.metric).map fun m => m.conclusion.outcome).getD .inconclusive }
  comparison.validate
  return comparison

end Measurement

end Afactory
