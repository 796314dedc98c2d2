import Mathlib
import Afactory.Measurements

/-!
# Measurement folds over exact numbers

What `summarize` and `compare_measurements` compute of the numbers that were reported, and when
they compute it: a derived number needs a text within the bound of decimals.

* `ExactSummary`, `summarize_exact_iff`: minimum, maximum and median of the runs;
* `ExactComparison`, `compareMetric_exact_iff`: the conclusions over exact numbers.
-/

namespace Afactory

namespace Measurement

open ScaledDecimals (scaled scaled_inj)

/-! ## Maps made entry by entry -/

section Entries

variable {V W : Type} {f : String → V → Except String W}

/-- A run over entries with keys of their own: each has its value, the rest is left alone. -/
theorem foldlM_entries {l : List (String × V)} (hkeys : (l.map Prod.fst).Nodup)
    {made out : OrdMap String W}
    (h : l.foldlM (fun made (key, value) => do return made.insert key (← f key value)) made =
      .ok out) (key : String) :
    match lookup key l with
    | some value => ∃ w, f key value = .ok w ∧ out.get key = some w
    | none => out.get key = made.get key := by
  induction l generalizing made with
  | nil =>
    cases h
    rfl
  | cons e l ih =>
    obtain ⟨name, value⟩ := e
    rw [List.map_cons, List.nodup_cons] at hkeys
    rw [List.foldlM_cons] at h
    obtain ⟨next, hnext, hrest⟩ := bind_eq_ok.mp h
    obtain ⟨w, hw, hnext⟩ := bind_eq_ok.mp hnext
    cases hnext
    have ih := ih hkeys.2 hrest
    rw [lookup]
    by_cases hkey : name = key
    · subst hkey
      have hnone : lookup name l = none := by
        cases hlookup : lookup name l with
        | none => rfl
        | some v => exact absurd (List.mem_map_of_mem (OrdMap.lookup_mem hlookup)) hkeys.1
      rw [if_pos rfl]
      rw [hnone] at ih
      exact ⟨w, hw, ih.trans (OrdMap.get_insert_self ..)⟩
    · rw [if_neg hkey]
      cases hlookup : lookup key l with
      | some v =>
        rw [hlookup] at ih
        exact ih
      | none =>
        rw [hlookup] at ih
        exact ih.trans (OrdMap.get_insert_ne _ _ (Ne.symm hkey))

theorem get_mapEntries {m : OrdMap String V} {out : OrdMap String W}
    (h : mapEntries f m = .ok out) (key : String) :
    match m.get key with
    | some value => ∃ w, f key value = .ok w ∧ out.get key = some w
    | none => out.get key = none := foldlM_entries m.keys_nodup h key

/-- A map is made exactly when each of its entries is. -/
theorem mapEntries_isOk_iff {m : OrdMap String V} :
    (∃ out, mapEntries f m = .ok out) ↔
      ∀ key value, m.get key = some value → ∃ w, f key value = .ok w := by
  constructor
  · rintro ⟨out, hout⟩ key value hget
    have hmade := get_mapEntries hout key
    rw [hget] at hmade
    obtain ⟨w, hw, -⟩ := hmade
    exact ⟨w, hw⟩
  · intro h
    have hrun : ∀ l : List (String × V), (∀ e ∈ l, ∃ w, f e.1 e.2 = .ok w) →
        ∀ made : OrdMap String W, ∃ out, l.foldlM
          (fun made (key, value) => do return made.insert key (← f key value)) made = .ok out := by
      intro l hl
      induction l with
      | nil => exact fun made => ⟨made, rfl⟩
      | cons e l ih =>
        intro made
        rw [List.forall_mem_cons] at hl
        obtain ⟨w, hw⟩ := hl.1
        obtain ⟨out, hout⟩ := ih hl.2 (made.insert e.1 w)
        refine ⟨out, ?_⟩
        rw [List.foldlM_cons]
        change ((f e.1 e.2 >>= fun w => pure (made.insert e.1 w)) >>= _) = _
        rw [hw]
        exact hout
    exact hrun m.entries (fun e he => h e.1 e.2 (OrdMap.mem_iff_get.mp he)) .empty

end Entries

/-! ## Summaries -/

/-- The number a run reports for a metric. -/
def reading (key : String) (run : MeasurementRun) : Option ℚ :=
  if key = elapsedMs then some run.elapsedMs.toNat
  else (run.metrics.get key).map fun m => m.value.toRat

/-- The numbers the runs report for a metric. -/
def readings (key : String) (runs : List MeasurementRun) : List ℚ := runs.filterMap (reading key)

/-- The middle number, or the mean of the two middle ones where the count is even. -/
def middle (sorted : List ℚ) : ℚ :=
  if sorted.length % 2 = 1 then sorted.getD (sorted.length / 2) 0
  else (sorted.getD (sorted.length / 2 - 1) 0 + sorted.getD (sorted.length / 2) 0) / 2

def exactMedian (values : List ℚ) : ℚ := middle (values.mergeSort fun a b => a ≤ b)

/-- A summary is what the numbers are folded to. -/
structure ExactSummary (values : List ℚ) (unit : MetricUnit) (s : MetricSummary) : Prop where
  unit_eq : s.unit = unit
  least : IsLeast {q | q ∈ values} s.min.toRat
  greatest : IsGreatest {q | q ∈ values} s.max.toRat
  median : s.median.toRat = exactMedian values
  count : s.n.toNat = values.length

/-- A run reports the declared metrics. -/
def Reports (declared : OrdMap String MetricUnit) (run : MeasurementRun) : Prop :=
  ∀ key, declared.contains key = true → run.metrics.contains key = true

/-- The runs are summarized, each metric exactly. -/
def SummarizedExactly (declared : OrdMap String MetricUnit) (runs : List MeasurementRun) : Prop :=
  ∃ summary, summarize declared runs = .ok summary ∧
    ∀ key unit, (withElapsed declared).get key = some unit →
      ∃ s, summary.get key = some s ∧ ExactSummary (readings key runs) unit s

section Summaries

variable {declared : OrdMap String MetricUnit} {key : String} {runs : List MeasurementRun}

theorem toRat_fromU64 (value : UInt64) : (MeasureDecimal.fromU64 value).toRat = value.toNat := by
  simp [MeasureDecimal.toRat, MeasureDecimal.fromU64]

/-- Every run that reports the declared metrics has a value for each. -/
theorem exists_runValue {run : MeasurementRun} (hrun : Reports declared run)
    (hkey : (withElapsed declared).contains key = true) :
    ∃ value, runValue key run = .ok value ∧ reading key run = some value.toRat := by
  rw [runValue, reading]
  by_cases helapsed : key = elapsedMs
  · rw [if_pos helapsed, if_pos helapsed]
    exact ⟨_, rfl, by rw [toRat_fromU64]⟩
  · rw [if_neg helapsed, if_neg helapsed]
    rw [withElapsed, OrdMap.contains, OrdMap.get_insert_ne _ _ helapsed] at hkey
    obtain ⟨value, hvalue⟩ := OrdMap.contains_iff.mp (hrun key hkey)
    rw [hvalue]
    exact ⟨value.value, rfl, rfl⟩

theorem exists_values (hruns : ∀ run ∈ runs, Reports declared run)
    (hkey : (withElapsed declared).contains key = true) :
    ∃ values, runs.mapM (runValue key) = .ok values ∧
      values.map MeasureDecimal.toRat = readings key runs := by
  induction runs with
  | nil => exact ⟨[], rfl, rfl⟩
  | cons run runs ih =>
    rw [List.forall_mem_cons] at hruns
    obtain ⟨value, hvalue, hreading⟩ := exists_runValue hruns.1 hkey
    obtain ⟨values, hvalues, hreadings⟩ := ih hruns.2
    refine ⟨value :: values, ?_, ?_⟩
    · rw [List.mapM_cons, hvalue, ok_bind, hvalues]
      rfl
    · rw [List.map_cons, hreadings, readings, readings, List.filterMap_cons, hreading]

/-- Sorting decimals sorts the numbers they are. -/
theorem map_sortValues (values : List MeasureDecimal) :
    (sortValues values).map MeasureDecimal.toRat =
      (values.map MeasureDecimal.toRat).mergeSort fun a b => a ≤ b := by
  rw [sortValues]
  refine List.map_mergeSort fun a _ b _ => decide_eq_decide.mpr ?_
  rw [MeasureDecimal.cmp_eq, ne_eq, compare_gt_iff_gt, not_lt]

theorem getD_map {sorted : List MeasureDecimal} {i : ℕ} (h : i < sorted.length) :
    (sorted.map MeasureDecimal.toRat).getD i 0 = (sorted.get ⟨i, h⟩).toRat := by
  rw [List.getD_eq_getElem _ _ (by rwa [List.length_map]), List.getElem_map]
  rfl

/-- **The median** is the middle of the numbers, where that has a text within the bound. -/
theorem median_eq_ok {sorted : List MeasureDecimal} (hne : sorted ≠ []) {d : MeasureDecimal} :
    median sorted = .ok d ↔ d.toRat = middle (sorted.map MeasureDecimal.toRat) := by
  have hpos : sorted.length ≠ 0 := fun h => hne (List.length_eq_zero_iff.mp h)
  rw [median, dif_neg hpos, middle, List.length_map]
  split_ifs with hodd
  · rw [getD_map (by omega), Except.ok.injEq, MeasureDecimal.toRat_inj, eq_comm]
  · rw [getD_map (by omega), getD_map (by omega), Exact.unsigned_eq_ok, Exact.toRat_half,
      Exact.toRat_add, Exact.toRat_exact, Exact.toRat_exact]

theorem median_isOk_iff {sorted : List MeasureDecimal} (hne : sorted ≠ []) :
    (∃ d, median sorted = .ok d) ↔ Fits (middle (sorted.map MeasureDecimal.toRat)) := by
  have hpos : sorted.length ≠ 0 := fun h => hne (List.length_eq_zero_iff.mp h)
  rw [exists_congr fun d => median_eq_ok hne, fits_iff]
  constructor
  · rintro ⟨d, hd⟩
    exact ⟨⟨false, d, nofun⟩, hd⟩
  · rintro ⟨d, hd⟩
    have hnonneg : 0 ≤ middle (sorted.map MeasureDecimal.toRat) := by
      have hall : ∀ i, 0 ≤ (sorted.map MeasureDecimal.toRat).getD i 0 := by
        intro i
        by_cases hi : i < sorted.length
        · rw [getD_map hi]
          exact MeasureDecimal.toRat_nonneg _
        · rw [List.getD_eq_default _ _ (by rw [List.length_map]; omega)]
      rw [middle]
      split_ifs
      · exact hall _
      · have := hall ((sorted.map MeasureDecimal.toRat).length / 2 - 1)
        have := hall ((sorted.map MeasureDecimal.toRat).length / 2)
        positivity
    have hsign : d.negative = false := by
      rw [← Bool.not_eq_true, MeasureSignedDecimal.negative_iff, hd]
      exact not_lt.mpr hnonneg
    refine ⟨d.magnitude, ?_⟩
    rwa [MeasureSignedDecimal.toRat, if_neg (by simp [hsign])] at hd

/-- The first of sorted values is the least, the last is the greatest. -/
theorem ends_sortValues {values : List MeasureDecimal} {first : MeasureDecimal}
    {rest : List MeasureDecimal} (h : sortValues values = first :: rest) :
    IsLeast {q | q ∈ values.map MeasureDecimal.toRat} first.toRat ∧
      IsGreatest {q | q ∈ values.map MeasureDecimal.toRat}
        ((first :: rest).getLast (by simp)).toRat := by
  have hperm : (values.map MeasureDecimal.toRat).Perm
      ((first :: rest).map MeasureDecimal.toRat) := by
    rw [← h]
    exact ((List.mergeSort_perm values _).symm.map _)
  have hsorted : ((first :: rest).map MeasureDecimal.toRat).Pairwise (· ≤ ·) := by
    rw [← h, map_sortValues]
    exact List.pairwise_mergeSort' _ _
  have hmem : ∀ q, q ∈ values.map MeasureDecimal.toRat ↔
      q ∈ (first :: rest).map MeasureDecimal.toRat := fun q => hperm.mem_iff
  refine ⟨⟨(hmem _).mpr List.mem_cons_self, fun q hq => ?_⟩,
    ⟨(hmem _).mpr (List.mem_map_of_mem (List.getLast_mem _)), fun q hq => ?_⟩⟩
  · rw [Set.mem_ofPred_eq, hmem, List.map_cons, List.mem_cons] at hq
    rcases hq with rfl | hq
    · exact le_rfl
    · exact List.rel_of_pairwise_cons hsorted hq
  · rw [Set.mem_ofPred_eq, hmem] at hq
    have hlast := hsorted.rel_getLast hq
    rwa [List.getLast_map] at hlast

/-- **One metric is summarized exactly**, where its median has a text within the bound. -/
theorem summarizeMetric_spec {values : List MeasureDecimal} {unit : MetricUnit}
    (hvalues : runs.mapM (runValue key) = .ok values) (hne : values ≠ []) :
    (∀ s, summarizeMetric runs key unit = .ok s →
        ExactSummary (values.map MeasureDecimal.toRat) unit s) ∧
      ((∃ s, summarizeMetric runs key unit = .ok s) ↔
        values.length < 2 ^ 32 ∧ Fits (exactMedian (values.map MeasureDecimal.toRat))) := by
  have hlength : (sortValues values).length = values.length := List.length_mergeSort _
  rcases hsorted : sortValues values with _ | ⟨first, rest⟩
  · rw [hsorted, List.length_nil, eq_comm, List.length_eq_zero_iff] at hlength
    exact absurd hlength hne
  rw [hsorted] at hlength
  have hmiddle : middle ((first :: rest).map MeasureDecimal.toRat) =
      exactMedian (values.map MeasureDecimal.toRat) := by
    rw [exactMedian, ← map_sortValues, hsorted]
  have hmedian := median_isOk_iff (List.cons_ne_nil first rest)
  rw [hmiddle] at hmedian
  obtain ⟨hleast, hgreatest⟩ := ends_sortValues hsorted
  rw [← hmedian]
  have hrun : summarizeMetric runs key unit = (median (first :: rest) >>= fun middle =>
      if (first :: rest).length < 2 ^ 32 then
        .ok { unit, median := middle, min := first, max := (first :: rest).getLast (by simp),
              n := .ofNat (first :: rest).length }
      else .error "Too many repetitions") := by
    rw [summarizeMetric, hvalues, ok_bind, hsorted]
    rfl
  rw [hrun]
  constructor
  · intro s h
    obtain ⟨d, hd, h⟩ := bind_eq_ok.mp h
    split_ifs at h with hfew
    cases h
    refine ⟨rfl, hleast, hgreatest, (median_eq_ok (by simp)).mp hd |>.trans hmiddle, ?_⟩
    rw [UInt32.toNat_ofNat', Nat.mod_eq_of_lt hfew, hlength, List.length_map]
  · constructor
    · rintro ⟨s, h⟩
      obtain ⟨d, hd, h⟩ := bind_eq_ok.mp h
      split_ifs at h with hfew
      exact ⟨hlength ▸ hfew, d, hd⟩
    · rintro ⟨hfew, d, hd⟩
      rw [hd, ok_bind, if_pos (hlength ▸ hfew)]
      exact ⟨_, rfl⟩

/-- **Runs are summarized exactly** when there are fewer than 2 ^ 32 and every median has a text
within the bound. -/
theorem summarize_exact_iff (hne : runs ≠ []) (hruns : ∀ run ∈ runs, Reports declared run) :
    SummarizedExactly declared runs ↔ runs.length < 2 ^ 32 ∧
      ∀ key, (withElapsed declared).contains key = true →
        Fits (exactMedian (readings key runs)) := by
  have hspec : ∀ key unit, (withElapsed declared).get key = some unit →
      (∀ s, summarizeMetric runs key unit = .ok s → ExactSummary (readings key runs) unit s) ∧
        ((∃ s, summarizeMetric runs key unit = .ok s) ↔
          runs.length < 2 ^ 32 ∧ Fits (exactMedian (readings key runs))) := by
    intro key unit hget
    obtain ⟨values, hvalues, hreadings⟩ :=
      exists_values hruns (OrdMap.contains_iff.mpr ⟨unit, hget⟩)
    have hlength : runs.length = values.length := (mapM_forall₂ hvalues).length_eq
    have hvaluesNe : values ≠ [] := by
      rintro rfl
      exact hne (List.length_eq_zero_iff.mp hlength)
    rw [← hreadings, hlength]
    exact summarizeMetric_spec hvalues hvaluesNe
  constructor
  · rintro ⟨summary, hsummary, -⟩
    have hall := mapEntries_isOk_iff.mp ⟨summary, hsummary⟩
    obtain ⟨elapsed, helapsed⟩ : ∃ unit, (withElapsed declared).get elapsedMs = some unit :=
      ⟨_, OrdMap.get_insert_self ..⟩
    refine ⟨((hspec _ _ helapsed).2.mp (hall _ _ helapsed)).1, fun key hkey => ?_⟩
    obtain ⟨unit, hunit⟩ := OrdMap.contains_iff.mp hkey
    exact ((hspec key unit hunit).2.mp (hall key unit hunit)).2
  · rintro ⟨hfew, hfits⟩
    obtain ⟨summary, hsummary⟩ : ∃ summary, summarize declared runs = .ok summary :=
      mapEntries_isOk_iff.mpr fun key unit hget =>
        (hspec key unit hget).2.mpr ⟨hfew, hfits key (OrdMap.contains_iff.mpr ⟨unit, hget⟩)⟩
    refine ⟨summary, hsummary, fun key unit hget => ?_⟩
    have hmade := get_mapEntries hsummary key
    rw [hget] at hmade
    obtain ⟨s, hs, hout⟩ := hmade
    exact ⟨s, hout, (hspec key unit hget).1 s hs⟩

end Summaries

/-! ## Comparisons -/

/-- The improvement of a candidate on a baseline. -/
def exactImprovement (direction : ObjectiveDirection) (base cand : ℚ) : ℚ :=
  match direction with
  | .lower => base - cand
  | .higher => cand - base

/-- The conclusion of one metric, over exact numbers. -/
def exactConclusion (direction : ObjectiveDirection) (threshold : ℚ) (minRepetitions : UInt32)
    (base cand : Option (ℚ × UInt32)) : Conclusion :=
  match base, cand with
  | some (b, baselineN), some (c, candidateN) =>
    if baselineN < minRepetitions ∨ candidateN < minRepetitions then .inconclusive
    else if b = 0 ∧ c ≠ 0 then .inconclusive
    else if exactImprovement direction b c = 0 then .unchanged
    else if exactImprovement direction b c < 0 then .regressed
    else if threshold ≤ exactImprovement direction b c / b then .improved
    else .belowThreshold
  | _, _ => .inconclusive

/-- The numbers of one side, where it has any. -/
def exactSide (side : Option (MeasureDecimal × UInt32)) : Option (ℚ × UInt32) :=
  side.map fun side => (side.1.toRat, side.2)

/-- One metric is compared exactly. -/
structure ExactComparison (direction : ObjectiveDirection) (threshold : ℚ)
    (minRepetitions : UInt32) (base cand : Option (ℚ × UInt32)) (unit : MetricUnit)
    (m : MetricComparison) : Prop where
  unit_eq : m.unit = unit
  baseline : m.baselineMedian.map MeasureDecimal.toRat = base.map Prod.fst
  candidate : m.candidateMedian.map MeasureDecimal.toRat = cand.map Prod.fst
  improvement : m.improvement.map MeasureSignedDecimal.toRat =
    base.bind fun b => cand.map fun c => exactImprovement direction b.1 c.1
  ratio : m.ratio.map MeasureRatio.toRat = base.bind fun b => cand.bind fun c =>
    if b.1 = 0 then none else some (exactImprovement direction b.1 c.1 / b.1)
  conclusion : m.conclusion = exactConclusion direction threshold minRepetitions base cand

section Comparing

variable {direction : ObjectiveDirection} {threshold : MeasureDecimal} {minRepetitions : UInt32}
  {unit : MetricUnit} {m : MetricComparison}

theorem toRat_improvementOf (base cand : MeasureDecimal) :
    (improvementOf direction base cand).toRat =
      exactImprovement direction base.toRat cand.toRat := by
  cases direction with
  | lower => exact Exact.toRat_sub ..
  | higher => exact Exact.toRat_sub ..

/-- **The conclusion is the exact one.** -/
theorem conclusionOf_eq {base cand : MeasureDecimal} {baselineN candidateN : UInt32}
    {improvement : MeasureSignedDecimal}
    (himprovement : improvement.toRat = exactImprovement direction base.toRat cand.toRat) :
    conclusionOf threshold minRepetitions (some (base, baselineN)) (some (cand, candidateN))
        (some improvement) (MeasureRatio.of (improvementOf direction base cand) base.exact) =
      exactConclusion direction threshold.toRat minRepetitions (some (base.toRat, baselineN))
        (some (cand.toRat, candidateN)) := by
  have hzero : (base.isZero && !cand.isZero) = true ↔ base.toRat = 0 ∧ cand.toRat ≠ 0 := by
    rw [Bool.and_eq_true, Bool.not_eq_true', ← Bool.not_eq_true, MeasureDecimal.isZero_iff,
      MeasureDecimal.isZero_iff]
  have hfew : (baselineN ≥ minRepetitions ∧ candidateN ≥ minRepetitions) ↔
      ¬ (baselineN < minRepetitions ∨ candidateN < minRepetitions) := by
    rw [not_or, UInt32.not_lt, UInt32.not_lt]
  rw [conclusionOf, exactConclusion]
  by_cases hcount : baselineN < minRepetitions ∨ candidateN < minRepetitions
  · rw [if_neg (fun h => hfew.mp h hcount), if_pos hcount]
  rw [if_pos (hfew.mpr hcount), if_neg hcount]
  by_cases hbase : base.toRat = 0 ∧ cand.toRat ≠ 0
  · rw [if_pos (hzero.mpr hbase), if_pos hbase]
  rw [if_neg (fun h => hbase (hzero.mp h)), if_neg hbase, MeasureSignedDecimal.signum_eq,
    himprovement]
  rcases lt_trichotomy (exactImprovement direction base.toRat cand.toRat) 0 with hlt | heq | hgt
  · rw [compare_lt_iff_lt.mpr hlt, if_neg hlt.ne, if_pos hlt]
  · rw [compare_eq_iff_eq.mpr heq, if_pos heq]
  · rw [compare_gt_iff_gt.mpr hgt, if_neg hgt.ne', if_neg hgt.not_gt]
    -- a positive improvement is never on a baseline of zero
    have hne : base.toRat ≠ 0 := by
      intro hbase0
      have hcand : cand.toRat = 0 := by
        by_contra hcand
        exact hbase ⟨hbase0, hcand⟩
      cases direction <;> simp [exactImprovement, hbase0, hcand] at hgt
    obtain ⟨r, hr⟩ : ∃ r,
        MeasureRatio.of (improvementOf direction base cand) base.exact = some r := by
      rw [← Option.ne_none_iff_exists', ne_eq, MeasureRatio.of_eq_none]
      exact hne
    have hratio := (MeasureRatio.of_eq_some.mp hr).2
    rw [toRat_improvementOf, Exact.toRat_exact] at hratio
    rw [hr, Option.any_some, ← hratio]
    simp only [MeasureRatio.atLeast_iff]

/-- The ratio is the quotient, on a baseline that is not zero. -/
theorem ratio_eq (direction : ObjectiveDirection) (base cand : MeasureDecimal) :
    (MeasureRatio.of (improvementOf direction base cand) base.exact).map MeasureRatio.toRat =
      if base.toRat = 0 then none
      else some (exactImprovement direction base.toRat cand.toRat / base.toRat) := by
  cases hratio : MeasureRatio.of (improvementOf direction base cand) base.exact with
  | none =>
    rw [MeasureRatio.of_eq_none, Exact.toRat_exact] at hratio
    rw [if_pos hratio, Option.map_none]
  | some r =>
    obtain ⟨hne, hr⟩ := MeasureRatio.of_eq_some.mp hratio
    rw [Exact.toRat_exact, toRat_improvementOf] at *
    rw [if_neg hne, Option.map_some, hr]

/-- **One metric is compared exactly** when the improvement, if there is one, has a text within the
bound. -/
theorem compareMetric_exact_iff (direction : ObjectiveDirection) (threshold : MeasureDecimal)
    (minRepetitions : UInt32) (unit : MetricUnit) (base cand : Option (MeasureDecimal × UInt32)) :
    (∃ m, compareMetric direction threshold minRepetitions base cand unit = .ok m ∧
      ExactComparison direction threshold.toRat minRepetitions (exactSide base) (exactSide cand)
        unit m) ↔
      ∀ b ∈ base, ∀ c ∈ cand, Fits (exactImprovement direction b.1.toRat c.1.toRat) := by
  rcases base with _ | ⟨b, baselineN⟩
  · refine ⟨fun _ _ hb => (by cases hb), fun _ => ⟨_, rfl, ?_⟩⟩
    constructor <;> cases cand <;> rfl
  rcases cand with _ | ⟨c, candidateN⟩
  · exact ⟨fun _ _ _ _ hc => (by cases hc), fun _ => ⟨_, rfl, ⟨rfl, rfl, rfl, rfl, rfl, rfl⟩⟩⟩
  simp only [Option.mem_some_iff, forall_eq']
  rw [← toRat_improvementOf, ← Exact.signed_isOk_iff]
  constructor
  · rintro ⟨m, h, -⟩
    obtain ⟨improvement, himprovement, -⟩ := bind_eq_ok.mp h
    cases hd : (improvementOf direction b c).signed with
    | error e =>
      rw [hd] at himprovement
      cases himprovement
    | ok d => exact ⟨d, rfl⟩
  · rintro ⟨d, hd⟩
    have hrat := (Exact.signed_eq_ok.mp hd).trans (toRat_improvementOf b c)
    rw [compareMetric]
    dsimp only
    rw [hd]
    exact ⟨_, rfl, rfl, rfl, rfl, congrArg some hrat, ratio_eq direction b c, conclusionOf_eq hrat⟩

end Comparing

/-! ## One run -/

/-- A run that took ten milliseconds and reported no metrics. -/
def sampleRun : MeasurementRun where
  startedUnixMs := 1
  elapsedMs := 10
  exitCode := some 0
  stdoutId := none
  stderrId := none
  cache := none
  metrics := .empty

theorem summarize_sample_exact : SummarizedExactly .empty [sampleRun] := by
  refine (summarize_exact_iff (by simp) ?_).mpr ⟨by simp, fun key hkey => ?_⟩
  · rintro run - key hkey
    cases hkey
  · have helapsed : key = elapsedMs := by
      by_contra hne
      rw [withElapsed, OrdMap.contains, OrdMap.get_insert_ne _ _ hne] at hkey
      cases hkey
    have hmedian : exactMedian (readings key [sampleRun]) = (MeasureDecimal.fromU64 10).toRat := by
      simp [readings, reading, helapsed, exactMedian, middle, sampleRun, toRat_fromU64]
    rw [hmedian]
    exact MeasureDecimal.fits _

end Measurement

end Afactory
