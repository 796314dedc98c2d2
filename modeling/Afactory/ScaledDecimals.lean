import Mathlib

/-!
# Decimals

Numbers written as an integer and how many of its digits stand behind the point.

* `scaled`: the number that is written, and what arithmetic makes of it;
* `Normal`, `scaled_inj`: written with as few decimals as can be, a number is written in one way.
-/

namespace Afactory

namespace ScaledDecimals

/-- `value / 10 ^ scale`. -/
def scaled (value : ℤ) (scale : ℕ) : ℚ := value / 10 ^ scale

/-- No decimal could be left out. -/
def Normal (value : ℤ) (scale : ℕ) : Prop := scale = 0 ∨ ¬ 10 ∣ value

theorem pow_ten_pos (scale : ℕ) : (0 : ℚ) < 10 ^ scale := by positivity

@[simp]
theorem scaled_zero (value : ℤ) : scaled value 0 = value := by simp [scaled]

@[simp]
theorem zero_scaled (scale : ℕ) : scaled 0 scale = 0 := by simp [scaled]

/-! ## Aligning -/

/-- Zeros behind the last decimal change nothing. -/
theorem scaled_mul_pow (value : ℤ) (scale more : ℕ) :
    scaled (value * 10 ^ more) (scale + more) = scaled value scale := by
  rw [scaled, scaled, pow_add, Int.cast_mul, Int.cast_pow]
  exact mul_div_mul_right _ _ (pow_ten_pos more).ne'

/-- A number, written with more decimals. -/
theorem scaled_align {value : ℤ} {scale longer : ℕ} (h : scale ≤ longer) :
    scaled (value * 10 ^ (longer - scale)) longer = scaled value scale := by
  have hmore := scaled_mul_pow value scale (longer - scale)
  rwa [Nat.add_sub_cancel' h] at hmore

theorem scaled_add (a b : ℤ) (scale : ℕ) : scaled (a + b) scale = scaled a scale + scaled b scale := by
  rw [scaled, Int.cast_add, add_div, scaled, scaled]

theorem scaled_neg (a : ℤ) (scale : ℕ) : scaled (-a) scale = -scaled a scale := by
  rw [scaled, Int.cast_neg, neg_div, scaled]

theorem scaled_sub (a b : ℤ) (scale : ℕ) : scaled (a - b) scale = scaled a scale - scaled b scale := by
  rw [scaled, Int.cast_sub, sub_div, scaled, scaled]

/-- A half has one decimal more. -/
theorem scaled_half (a : ℤ) (scale : ℕ) : scaled (a * 5) (scale + 1) = scaled a scale / 2 := by
  rw [scaled, scaled, pow_succ]
  push_cast
  field_simp
  ring

theorem scaled_lt {a b : ℤ} {scale : ℕ} : scaled a scale < scaled b scale ↔ a < b := by
  rw [scaled, scaled, div_lt_div_iff_of_pos_right (pow_ten_pos scale), Int.cast_lt]

theorem scaled_inj_value {a b : ℤ} {scale : ℕ} : scaled a scale = scaled b scale ↔ a = b := by
  rw [scaled, scaled, div_left_inj' (pow_ten_pos scale).ne', Int.cast_inj]

theorem scaled_eq_zero {a : ℤ} {scale : ℕ} : scaled a scale = 0 ↔ a = 0 := by
  rw [← zero_scaled scale, scaled_inj_value]

/-- The order of integers is that of the numbers they write. -/
theorem compare_scaled (a b : ℤ) (scale : ℕ) :
    compare (scaled a scale) (scaled b scale) = compare a b := by
  rcases lt_trichotomy a b with hlt | rfl | hgt
  · rw [compare_lt_iff_lt.mpr hlt, compare_lt_iff_lt.mpr (scaled_lt.mpr hlt)]
  · rw [compare_eq_iff_eq.mpr rfl, compare_eq_iff_eq.mpr rfl]
  · rw [compare_gt_iff_gt.mpr hgt, compare_gt_iff_gt.mpr (scaled_lt.mpr hgt)]

/-! ## Normal forms -/

/-- A longer writing of a number ends in a zero. -/
theorem dvd_of_scaled_eq {a b : ℤ} {s t : ℕ} (hlt : s < t) (h : scaled a s = scaled b t) : 10 ∣ b := by
  rw [← scaled_align hlt.le, scaled_inj_value] at h
  rw [← h]
  exact (dvd_pow_self 10 (Nat.sub_pos_of_lt hlt).ne').mul_left a

/-- **A number has one normal writing.** -/
theorem scaled_inj {a b : ℤ} {s t : ℕ} (ha : Normal a s) (hb : Normal b t)
    (h : scaled a s = scaled b t) : a = b ∧ s = t := by
  rcases lt_trichotomy s t with hlt | rfl | hgt
  · rcases hb with rfl | hb
    · exact absurd hlt (Nat.not_lt_zero s)
    · exact absurd (dvd_of_scaled_eq hlt h) hb
  · exact ⟨scaled_inj_value.mp h, rfl⟩
  · rcases ha with rfl | ha
    · exact absurd hgt (Nat.not_lt_zero t)
    · exact absurd (dvd_of_scaled_eq hgt h.symm) ha

end ScaledDecimals

end Afactory
