import Mathlib
import Afactory.DecimalDigits
import Afactory.ScaledDecimals

/-!
# Decimals and ratios of measurements

The exact numbers of `review-core/src/task/measurement.rs`.

* `MeasureDecimal`, `MeasureSignedDecimal`, `MeasureRatio`: values that are canonical by construction;
* `Exact`: the form that is worked with, `Exact.toRat`: the number it stands for;
* `Exact.signed_eq_ok`: a derived value is a decimal when its text is within the bound;
* `MeasureRatio.of_eq_some`: a ratio is the quotient.
-/

namespace Afactory

namespace Measurement

open ScaledDecimals

/-- `MAX_DECIMAL_TEXT` -/
abbrev maxDecimalText : ℕ := 4096

/-! ## Texts -/

/-- `render` -/
def render (mantissa scale : ℕ) : List Char :=
  let digits := Nat.toDigits 10 mantissa
  if scale = 0 then digits
  else
    let padded := digits.leftpad (scale + 1) '0'
    let whole := padded.length - scale
    padded.take whole ++ '.' :: padded.drop whole

/-! ## Decimals -/

/-- `MeasureDecimal`: `mantissa / 10 ^ scale`, with no decimal that could be left out and a text
within the bound. -/
structure MeasureDecimal where
  mantissa : ℕ
  scale : ℕ
  normal : Normal mantissa scale
  short : (render mantissa scale).length ≤ maxDecimalText
  deriving DecidableEq

namespace MeasureDecimal

/-- `MeasureDecimal::from_u64` -/
def fromU64 (value : UInt64) : MeasureDecimal where
  mantissa := value.toNat
  scale := 0
  normal := .inl rfl
  short := by
    have hlength := (Nat.length_toDigits_le_iff (b := 10) (by decide) (by decide : 0 < 20)).mpr
      (value.toNat_lt.trans (by decide))
    exact hlength.trans (by decide)

/-- `MeasureDecimal::is_zero` -/
def isZero (d : MeasureDecimal) : Bool := d.mantissa = 0

/-- `MeasureDecimal::significant_digits` -/
def significantDigits (d : MeasureDecimal) : ℕ :=
  if d.isZero then 1 else (Nat.toDigits 10 d.mantissa).length

/-- The number a decimal is. -/
def toRat (d : MeasureDecimal) : ℚ := scaled d.mantissa d.scale

theorem ext_parts {a b : MeasureDecimal} (hmantissa : a.mantissa = b.mantissa)
    (hscale : a.scale = b.scale) : a = b := by
  cases a
  cases b
  subst hmantissa hscale
  rfl

/-- **A decimal is the number it is**: no two are one number. -/
theorem toRat_inj {a b : MeasureDecimal} : a.toRat = b.toRat ↔ a = b := by
  constructor
  · intro h
    obtain ⟨hmantissa, hscale⟩ := scaled_inj a.normal b.normal h
    exact ext_parts (by exact_mod_cast hmantissa) hscale
  · rintro rfl
    rfl

theorem toRat_nonneg (d : MeasureDecimal) : 0 ≤ d.toRat :=
  div_nonneg (by positivity) (pow_ten_pos _).le

theorem isZero_iff {d : MeasureDecimal} : d.isZero = true ↔ d.toRat = 0 := by
  rw [isZero, decide_eq_true_eq, toRat, scaled_eq_zero, Int.natCast_eq_zero]

end MeasureDecimal

/-! ## Signed decimals -/

/-- `MeasureSignedDecimal`: zero has no sign. -/
structure MeasureSignedDecimal where
  negative : Bool
  magnitude : MeasureDecimal
  signed : negative = true → magnitude.isZero = false
  deriving DecidableEq

namespace MeasureSignedDecimal

/-- `MeasureSignedDecimal::signum` -/
def signum (d : MeasureSignedDecimal) : Ordering :=
  if d.magnitude.isZero then .eq else if d.negative then .lt else .gt

/-- The number a signed decimal is. -/
def toRat (d : MeasureSignedDecimal) : ℚ := if d.negative then -d.magnitude.toRat else d.magnitude.toRat

theorem ext_parts {a b : MeasureSignedDecimal} (hnegative : a.negative = b.negative)
    (hmagnitude : a.magnitude = b.magnitude) : a = b := by
  cases a
  cases b
  subst hnegative hmagnitude
  rfl

/-- A number with a sign is below zero. -/
theorem negative_iff {d : MeasureSignedDecimal} : d.negative = true ↔ d.toRat < 0 := by
  have hnonneg := d.magnitude.toRat_nonneg
  rw [toRat]
  cases hsign : d.negative with
  | false => simpa using hnonneg
  | true =>
    have hzero := d.signed hsign
    have hne : d.magnitude.toRat ≠ 0 := fun h => by
      rw [MeasureDecimal.isZero_iff.mpr h] at hzero
      cases hzero
    simpa using lt_of_le_of_ne hnonneg hne.symm

theorem toRat_inj {a b : MeasureSignedDecimal} : a.toRat = b.toRat ↔ a = b := by
  constructor
  · intro h
    have hsign : a.negative = b.negative := by
      rw [Bool.eq_iff_iff, negative_iff, negative_iff, h]
    refine ext_parts hsign (MeasureDecimal.toRat_inj.mp ?_)
    rw [toRat, toRat, hsign] at h
    split_ifs at h
    · exact neg_inj.mp h
    · exact h
  · rintro rfl
    rfl

/-- The sign is that of the number. -/
theorem signum_eq (d : MeasureSignedDecimal) : d.signum = compare d.toRat 0 := by
  rw [signum]
  by_cases hzero : d.magnitude.isZero = true
  · have hrat : d.toRat = 0 := by
      rw [toRat, MeasureDecimal.isZero_iff.mp hzero, neg_zero, ite_self]
    rw [if_pos hzero, hrat, compare_eq_iff_eq.mpr rfl]
  · rw [if_neg hzero]
    split_ifs with hnegative
    · rw [compare_lt_iff_lt.mpr (negative_iff.mp hnegative)]
    · have hne : d.magnitude.toRat ≠ 0 := fun h => hzero (MeasureDecimal.isZero_iff.mpr h)
      have hpos := lt_of_le_of_ne d.magnitude.toRat_nonneg hne.symm
      rw [toRat, if_neg hnegative, compare_gt_iff_gt.mpr hpos]

end MeasureSignedDecimal

/-! ## The form that is worked with -/

/-- `Exact`: `value / 10 ^ scale`. -/
structure Exact where
  value : ℤ
  scale : ℕ
  deriving DecidableEq

/-- `MeasureDecimal::exact` -/
def MeasureDecimal.exact (d : MeasureDecimal) : Exact := ⟨d.mantissa, d.scale⟩

namespace Exact

/-- `aligned` -/
def aligned (a b : Exact) : ℤ × ℤ × ℕ :=
  let scale := max a.scale b.scale
  (a.value * 10 ^ (scale - a.scale), b.value * 10 ^ (scale - b.scale), scale)

/-- `cmp_exact` -/
def cmpExact (a b : Exact) : Ordering :=
  let (left, right, _) := a.aligned b
  compare left right

/-- `add` -/
def add (a b : Exact) : Exact :=
  let (left, right, scale) := a.aligned b
  ⟨left + right, scale⟩

/-- `sub` -/
def sub (a b : Exact) : Exact :=
  let (left, right, scale) := a.aligned b
  ⟨left - right, scale⟩

/-- `half` -/
def half (a : Exact) : Exact := ⟨a.value * 5, a.scale + 1⟩

/-- The loop of `normalized`. -/
def dropZeros : ℤ → ℕ → Exact
  | value, 0 => ⟨value, 0⟩
  | value, scale + 1 =>
    if value % 10 = 0 then dropZeros (value / 10) scale else ⟨value, scale + 1⟩

/-- `normalized` -/
def normalized (a : Exact) : Exact :=
  if a.value = 0 then ⟨a.value, 0⟩ else dropZeros a.value a.scale

/-- The number that is worked with. -/
def toRat (a : Exact) : ℚ := scaled a.value a.scale

theorem dropZeros_spec (value : ℤ) (scale : ℕ) :
    Normal (dropZeros value scale).value (dropZeros value scale).scale ∧
      (dropZeros value scale).toRat = scaled value scale := by
  induction scale generalizing value with
  | zero => exact ⟨.inl rfl, rfl⟩
  | succ scale ih =>
    rw [dropZeros]
    split_ifs with hzero
    · obtain ⟨hnormal, hsame⟩ := ih (value / 10)
      refine ⟨hnormal, hsame.trans ?_⟩
      have hten := scaled_mul_pow (value / 10) scale 1
      rwa [pow_one, Int.ediv_mul_cancel (Int.dvd_of_emod_eq_zero hzero), eq_comm] at hten
    · exact ⟨.inr fun hdvd => hzero (Int.emod_eq_zero_of_dvd hdvd), rfl⟩

theorem normal_normalized (a : Exact) : Normal a.normalized.value a.normalized.scale := by
  rw [normalized]
  split_ifs
  · exact .inl rfl
  · exact (dropZeros_spec _ _).1

@[simp]
theorem toRat_normalized (a : Exact) : a.normalized.toRat = a.toRat := by
  rw [normalized]
  split_ifs with hzero
  · rw [toRat, toRat, hzero, zero_scaled, zero_scaled]
  · exact (dropZeros_spec _ _).2

/-- What a derived value is refused with. -/
def exceeds : String := "Derived decimal exceeds its text bound"

/-- The normal form of a value has its sign. -/
theorem normal_magnitude {a : Exact} (h : Normal a.value a.scale) :
    Normal (a.value.natAbs : ℕ) a.scale := by
  rcases h with hscale | hdvd
  · exact .inl hscale
  · exact .inr (by rwa [Int.dvd_natAbs])

/-- `signed` -/
def signed (a : Exact) : Except String MeasureSignedDecimal :=
  let n := a.normalized
  if hshort : (render n.value.natAbs n.scale).length ≤ maxDecimalText then
    .ok ⟨decide (n.value < 0),
      ⟨n.value.natAbs, n.scale, normal_magnitude a.normal_normalized, hshort⟩, fun hnegative => by
        rw [decide_eq_true_eq] at hnegative
        simpa [MeasureDecimal.isZero] using hnegative.ne⟩
  else .error exceeds

/-- `unsigned` -/
def unsigned (a : Exact) : Except String MeasureDecimal := do
  let signed ← a.signed
  if signed.negative then throw "Derived decimal is negative"
  return signed.magnitude

/-! ### What is computed -/

theorem aligned_left (a b : Exact) : scaled (a.aligned b).1 (a.aligned b).2.2 = a.toRat :=
  scaled_align (le_max_left _ _)

theorem aligned_right (a b : Exact) : scaled (a.aligned b).2.1 (a.aligned b).2.2 = b.toRat :=
  scaled_align (le_max_right _ _)

theorem toRat_add (a b : Exact) : (a.add b).toRat = a.toRat + b.toRat := by
  rw [← aligned_left a b, ← aligned_right a b, ← scaled_add]
  rfl

theorem toRat_sub (a b : Exact) : (a.sub b).toRat = a.toRat - b.toRat := by
  rw [← aligned_left a b, ← aligned_right a b, ← scaled_sub]
  rfl

theorem toRat_half (a : Exact) : a.half.toRat = a.toRat / 2 := scaled_half _ _

/-- Values are compared as the numbers they are. -/
theorem cmpExact_eq (a b : Exact) : a.cmpExact b = compare a.toRat b.toRat := by
  rw [← aligned_left a b, ← aligned_right a b, compare_scaled]
  rfl

@[simp]
theorem toRat_exact (d : MeasureDecimal) : d.exact.toRat = d.toRat := rfl

/-- The magnitude of a value with its sign is the value. -/
theorem signed_magnitude (value : ℤ) (scale : ℕ) :
    (if value < 0 then -scaled (value.natAbs : ℤ) scale else scaled (value.natAbs : ℤ) scale) =
      scaled value scale := by
  split_ifs with hneg
  · rw [Int.ofNat_natAbs_of_nonpos hneg.le, scaled_neg, neg_neg]
  · rw [Int.natAbs_of_nonneg (not_lt.mp hneg)]

/-- A decimal that is a normal value is written like it. -/
theorem parts_of_normal {d : MeasureSignedDecimal} {value : ℤ} {scale : ℕ} (h : Normal value scale)
    (hrat : d.toRat = scaled value scale) :
    value.natAbs = d.magnitude.mantissa ∧ scale = d.magnitude.scale := by
  have hvalue : scaled (if d.negative then -(d.magnitude.mantissa : ℤ) else d.magnitude.mantissa)
      d.magnitude.scale = scaled value scale := by
    rw [← hrat, MeasureSignedDecimal.toRat]
    split_ifs
    · exact scaled_neg _ _
    · rfl
  have hwritten : Normal (if d.negative then -(d.magnitude.mantissa : ℤ) else d.magnitude.mantissa)
      d.magnitude.scale := by
    rcases d.magnitude.normal with hscale | hdvd
    · exact .inl hscale
    · refine .inr ?_
      split_ifs
      · rwa [dvd_neg]
      · exact hdvd
  obtain ⟨hmantissa, hscale⟩ := scaled_inj hwritten h hvalue
  refine ⟨?_, hscale.symm⟩
  rw [← hmantissa]
  split_ifs <;> simp

/-- **A derived value is a signed decimal exactly when that decimal is the number**, that is when
the number has a text within the bound. -/
theorem signed_eq_ok {a : Exact} {d : MeasureSignedDecimal} :
    a.signed = .ok d ↔ d.toRat = a.toRat := by
  constructor
  · intro h
    simp only [signed] at h
    split at h
    · obtain rfl := Except.ok.inj h
      rw [← toRat_normalized a, MeasureSignedDecimal.toRat]
      simp only [decide_eq_true_eq]
      exact signed_magnitude _ _
    · cases h
  · intro h
    obtain ⟨hmantissa, hscale⟩ := parts_of_normal a.normal_normalized
      (h.trans (toRat_normalized a).symm)
    have hshort : (render a.normalized.value.natAbs a.normalized.scale).length ≤ maxDecimalText := by
      rw [hmantissa, hscale]
      exact d.magnitude.short
    unfold signed
    rw [dif_pos hshort]
    refine congrArg Except.ok (MeasureSignedDecimal.toRat_inj.mp ?_)
    rw [h, ← toRat_normalized a, MeasureSignedDecimal.toRat]
    simp only [decide_eq_true_eq]
    exact signed_magnitude _ _

/-- **A derived value is a decimal exactly when that decimal is the number.** -/
theorem unsigned_eq_ok {a : Exact} {d : MeasureDecimal} : a.unsigned = .ok d ↔ d.toRat = a.toRat := by
  rw [unsigned]
  constructor
  · intro h
    cases hsigned : a.signed with
    | error e => simp [hsigned, bind, Except.bind] at h
    | ok s =>
      have hrat := signed_eq_ok.mp hsigned
      simp only [hsigned, bind, Except.bind] at h
      cases hneg : s.negative with
      | true =>
        rw [hneg, if_pos rfl] at h
        cases h
      | false =>
        rw [hneg, if_neg Bool.false_ne_true] at h
        obtain rfl := Except.ok.inj h
        rwa [MeasureSignedDecimal.toRat, if_neg (by simp [hneg])] at hrat
  · intro h
    have hsigned : a.signed = .ok ⟨false, d, by simp⟩ := signed_eq_ok.mpr h
    rw [hsigned]
    rfl

end Exact

/-- The number has a canonical text within the bound, its sign apart. -/
def Fits (q : ℚ) : Prop :=
  ∃ value scale, scaled value scale = q ∧ Normal value scale ∧
    (render value.natAbs scale).length ≤ maxDecimalText

/-- What fits is a decimal. -/
theorem fits_iff {q : ℚ} : Fits q ↔ ∃ d : MeasureSignedDecimal, d.toRat = q := by
  constructor
  · rintro ⟨value, scale, rfl, hnormal, hshort⟩
    have hsigned : ∃ d, (Exact.mk value scale).signed = .ok d := by
      obtain ⟨hvalue, hscale⟩ := scaled_inj (Exact.normal_normalized ⟨value, scale⟩) hnormal
        (Exact.toRat_normalized ⟨value, scale⟩)
      unfold Exact.signed
      exact ⟨_, dif_pos (by rwa [hvalue, hscale])⟩
    obtain ⟨d, hd⟩ := hsigned
    exact ⟨d, Exact.signed_eq_ok.mp hd⟩
  · rintro ⟨d, rfl⟩
    obtain ⟨value, hvalue, hnormal, habs⟩ : ∃ value, scaled value d.magnitude.scale = d.toRat ∧
        Normal value d.magnitude.scale ∧ value.natAbs = d.magnitude.mantissa := by
      rw [MeasureSignedDecimal.toRat]
      split_ifs
      · refine ⟨-d.magnitude.mantissa, scaled_neg _ _, ?_, by simp⟩
        exact d.magnitude.normal.imp_right fun hdvd => by rwa [dvd_neg]
      · exact ⟨d.magnitude.mantissa, rfl, d.magnitude.normal, by simp⟩
    exact ⟨value, d.magnitude.scale, hvalue, hnormal, habs ▸ d.magnitude.short⟩

theorem MeasureDecimal.fits (d : MeasureDecimal) : Fits d.toRat :=
  ⟨d.mantissa, d.scale, rfl, d.normal, d.short⟩

theorem Exact.signed_isOk_iff {a : Exact} : (∃ d, a.signed = .ok d) ↔ Fits a.toRat := by
  rw [fits_iff]
  exact exists_congr fun _ => signed_eq_ok

namespace MeasureDecimal

/-- `Ord::cmp` -/
def cmp (a b : MeasureDecimal) : Ordering := a.exact.cmpExact b.exact

/-- **Decimals are ordered as the numbers they are.** -/
theorem cmp_eq (a b : MeasureDecimal) : a.cmp b = compare a.toRat b.toRat := Exact.cmpExact_eq _ _

end MeasureDecimal

/-! ## Ratios -/

/-- `MeasureRatio`: a fraction in lowest terms, the sign on the numerator. -/
structure MeasureRatio where
  numerator : ℤ
  denominator : ℕ
  positive : 0 < denominator
  reduced : numerator.natAbs.Coprime denominator
  deriving DecidableEq

namespace MeasureRatio

/-- A fraction reduced by its greatest common divisor. -/
def reduce (top bottom : ℤ) (hbottom : 0 < bottom) : MeasureRatio where
  numerator := top.tdiv (top.gcd bottom)
  denominator := (bottom.tdiv (top.gcd bottom)).toNat
  positive := by
    rw [Int.tdiv_eq_ediv_of_dvd (Int.gcd_dvd_right top bottom), Int.lt_toNat]
    exact Int.ediv_pos_of_pos_of_dvd hbottom (by positivity) (Int.gcd_dvd_right top bottom)
  reduced := by
    have hdivisor : 0 < top.gcd bottom := Int.gcd_pos_of_ne_zero_right _ hbottom.ne'
    have hpos := Int.ediv_pos_of_pos_of_dvd hbottom (by positivity) (Int.gcd_dvd_right top bottom)
    have hcoprime := Int.gcd_div_gcd_div_gcd hdivisor
    rw [Int.tdiv_eq_ediv_of_dvd (Int.gcd_dvd_left top bottom),
      Int.tdiv_eq_ediv_of_dvd (Int.gcd_dvd_right top bottom)]
    rw [Int.gcd_eq_natAbs] at hcoprime
    rwa [Nat.Coprime, ← Int.natAbs_of_nonneg hpos.le, Int.toNat_natCast]

/-- `MeasureRatio::of` -/
def of (numerator denominator : Exact) : Option MeasureRatio :=
  if hzero : denominator.value = 0 then none
  else
    -- n / 10^a divided by d / 10^b is (n * 10^b) / (d * 10^a)
    let top := numerator.value * 10 ^ denominator.scale
    let bottom := denominator.value * 10 ^ numerator.scale
    if hneg : bottom < 0 then some (reduce (-top) (-bottom) (neg_pos.mpr hneg))
    else some (reduce top bottom
      (lt_of_le_of_ne (not_lt.mp hneg) (mul_ne_zero hzero (by positivity)).symm))

/-- `at_least` -/
def atLeast (r : MeasureRatio) (threshold : MeasureDecimal) : Bool :=
  -- p/q >= m/10^s  <=>  p * 10^s >= m * q, with q > 0
  decide (r.numerator * 10 ^ threshold.exact.scale ≥ threshold.exact.value * r.denominator)

/-- The number a ratio is. -/
def toRat (r : MeasureRatio) : ℚ := r.numerator / r.denominator

theorem ext_parts {a b : MeasureRatio} (hnumerator : a.numerator = b.numerator)
    (hdenominator : a.denominator = b.denominator) : a = b := by
  cases a
  cases b
  subst hnumerator hdenominator
  rfl

theorem num_toRat (r : MeasureRatio) : r.toRat.num = r.numerator :=
  Rat.num_div_eq_of_coprime (by exact_mod_cast r.positive) r.reduced

theorem den_toRat (r : MeasureRatio) : r.toRat.den = r.denominator := by
  have hden := Rat.den_div_eq_of_coprime (a := r.numerator) (b := r.denominator)
    (by exact_mod_cast r.positive) r.reduced
  rw [Int.cast_natCast] at hden
  exact Int.natCast_inj.mp hden

/-- **A ratio is the number it is.** -/
theorem toRat_inj {a b : MeasureRatio} : a.toRat = b.toRat ↔ a = b := by
  constructor
  · intro h
    exact ext_parts (by rw [← num_toRat, ← num_toRat, h]) (by rw [← den_toRat, ← den_toRat, h])
  · rintro rfl
    rfl

theorem toRat_reduce (top bottom : ℤ) (h : 0 < bottom) : (reduce top bottom h).toRat = top / bottom := by
  have hdivisor : 0 < top.gcd bottom := Int.gcd_pos_of_ne_zero_right _ h.ne'
  have hne : ((top.gcd bottom : ℤ) : ℚ) ≠ 0 := by exact_mod_cast hdivisor.ne'
  have hbottom := Int.gcd_dvd_right top bottom
  have hpos := Int.ediv_pos_of_pos_of_dvd h (by positivity) hbottom
  have hnumerator : (reduce top bottom h).numerator = top / (top.gcd bottom : ℤ) :=
    Int.tdiv_eq_ediv_of_dvd (Int.gcd_dvd_left top bottom)
  have hdenominator : (reduce top bottom h).denominator = (bottom / (top.gcd bottom : ℤ)).toNat :=
    congrArg Int.toNat (Int.tdiv_eq_ediv_of_dvd hbottom)
  have hcast : ((bottom / (top.gcd bottom : ℤ)).toNat : ℚ) = (bottom / (top.gcd bottom : ℤ) : ℤ) := by
    exact_mod_cast Int.toNat_of_nonneg hpos.le
  rw [toRat, hnumerator, hdenominator, hcast, Int.cast_div (Int.gcd_dvd_left top bottom) hne,
    Int.cast_div hbottom hne, div_div_div_cancel_right₀ hne]

/-- **The ratio of two values** is there when the second is not zero, and is the quotient. -/
theorem of_eq_some {a b : Exact} {r : MeasureRatio} :
    of a b = some r ↔ b.toRat ≠ 0 ∧ r.toRat = a.toRat / b.toRat := by
  have hquotient : ((a.value * 10 ^ b.scale : ℤ) : ℚ) / (b.value * 10 ^ a.scale : ℤ) =
      a.toRat / b.toRat := by
    rw [Exact.toRat, Exact.toRat, scaled, scaled]
    push_cast
    field_simp
  rw [of]
  by_cases hzero : b.value = 0
  · have hnone : b.toRat = 0 := by rw [Exact.toRat, hzero, zero_scaled]
    simp [hzero, hnone]
  · have hne : b.toRat ≠ 0 := fun h => hzero (scaled_eq_zero.mp h)
    have hsome : ∃ q : MeasureRatio, (if hneg : b.value * 10 ^ a.scale < 0 then
        some (reduce (-(a.value * 10 ^ b.scale)) (-(b.value * 10 ^ a.scale)) (neg_pos.mpr hneg))
      else some (reduce (a.value * 10 ^ b.scale) (b.value * 10 ^ a.scale)
        (lt_of_le_of_ne (not_lt.mp hneg) (mul_ne_zero hzero (by positivity)).symm))) = some q ∧
        q.toRat = a.toRat / b.toRat := by
      by_cases hneg : b.value * 10 ^ a.scale < 0
      · refine ⟨_, dif_pos hneg, ?_⟩
        rw [toRat_reduce, Int.cast_neg, Int.cast_neg, neg_div_neg_eq, hquotient]
      · refine ⟨_, dif_neg hneg, ?_⟩
        rw [toRat_reduce, hquotient]
    obtain ⟨q, hq, hrat⟩ := hsome
    rw [dif_neg hzero]
    dsimp only
    rw [hq, Option.some_inj]
    constructor
    · rintro rfl
      exact ⟨hne, hrat⟩
    · rintro ⟨-, hr⟩
      exact toRat_inj.mp (hrat.trans hr.symm)

theorem of_eq_none {a b : Exact} : of a b = none ↔ b.toRat = 0 := by
  constructor
  · intro h
    by_contra hne
    have hzero : ¬ b.value = 0 := fun hvalue => hne (by rw [Exact.toRat, hvalue, zero_scaled])
    rw [of, dif_neg hzero] at h
    dsimp only at h
    split at h <;> cases h
  · intro h
    rw [of, dif_pos (scaled_eq_zero.mp h)]

/-- **A ratio is compared with a threshold as the number it is.** -/
theorem atLeast_iff {r : MeasureRatio} {threshold : MeasureDecimal} :
    r.atLeast threshold = true ↔ threshold.toRat ≤ r.toRat := by
  have hden : (0 : ℚ) < r.denominator := by exact_mod_cast r.positive
  rw [atLeast, decide_eq_true_eq, ge_iff_le, toRat, MeasureDecimal.toRat, scaled,
    div_le_div_iff₀ (pow_ten_pos _) hden]
  exact_mod_cast Iff.rfl

end MeasureRatio

end Measurement

end Afactory
