import Mathlib

/-!
# Texts cut at a byte

A text is a list of characters of one to four bytes each. A cut at a byte inside a character moves to
the boundary before it or to the one behind it.

* `byteLength`: the bytes of a text;
* `floorBoundary`, `ceilBoundary`: the boundaries around a byte;
* `sliceTo`, `sliceFrom`: the text before and behind a byte, whole characters only;
* `sliceTo_append`, `sliceFrom_append`: the cut of a text in two parts falls into one of them.
-/

namespace Afactory

namespace TextBounds

/-- `str::len`: the bytes of a text. -/
def byteLength (text : List Char) : ℕ := (text.map Char.utf8Size).sum

/-- The greatest boundary at `at_` or before it. -/
@[grind =] def floorBoundary : List Char → ℕ → ℕ
  | [], _ => 0
  | c :: rest, at_ => if c.utf8Size ≤ at_ then c.utf8Size + floorBoundary rest (at_ - c.utf8Size) else 0

/-- The least boundary at `at_` or behind it, the end when there is none. -/
@[grind =] def ceilBoundary : List Char → ℕ → ℕ
  | [], _ => 0
  | c :: rest, at_ => if at_ = 0 then 0 else c.utf8Size + ceilBoundary rest (at_ - c.utf8Size)

/-- The characters that end at `at_` or before it. -/
@[grind =] def sliceTo : List Char → ℕ → List Char
  | [], _ => []
  | c :: rest, at_ => if c.utf8Size ≤ at_ then c :: sliceTo rest (at_ - c.utf8Size) else []

/-- The characters that begin at `at_` or behind it. -/
@[grind =] def sliceFrom : List Char → ℕ → List Char
  | [], _ => []
  | c :: rest, at_ => if at_ = 0 then c :: rest else sliceFrom rest (at_ - c.utf8Size)

@[simp]
theorem byteLength_nil : byteLength [] = 0 := rfl

@[simp]
theorem byteLength_cons (c : Char) (text : List Char) :
    byteLength (c :: text) = c.utf8Size + byteLength text := rfl

@[simp]
theorem byteLength_append (a b : List Char) : byteLength (a ++ b) = byteLength a + byteLength b := by
  simp [byteLength]

theorem byteLength_eq_zero {text : List Char} : byteLength text = 0 ↔ text = [] := by
  cases text with
  | nil => simp
  | cons c text =>
    have hc := c.utf8Size_pos
    simp only [byteLength_cons, reduceCtorEq, iff_false]
    omega

@[simp]
theorem byteLength_sliceTo (text : List Char) (at_ : ℕ) :
    byteLength (sliceTo text at_) = floorBoundary text at_ := by
  induction text generalizing at_ with
  | nil => rfl
  | cons c text ih =>
    rw [sliceTo, floorBoundary]
    split_ifs
    · rw [byteLength_cons, ih]
    · rfl

theorem byteLength_sliceFrom (text : List Char) (at_ : ℕ) :
    ceilBoundary text at_ + byteLength (sliceFrom text at_) = byteLength text := by
  induction text generalizing at_ with
  | nil => rfl
  | cons c text ih =>
    rw [sliceFrom, ceilBoundary]
    split_ifs
    · simp
    · rw [byteLength_cons, add_assoc, ih]

/-- A slice at a byte is the slice at the boundary of the byte. -/
theorem sliceTo_floorBoundary (text : List Char) (at_ : ℕ) :
    sliceTo text (floorBoundary text at_) = sliceTo text at_ := by
  induction text generalizing at_ with
  | nil => rfl
  | cons c text ih =>
    have hpos := c.utf8Size_pos
    by_cases hc : c.utf8Size ≤ at_
    · rw [floorBoundary, if_pos hc, sliceTo, if_pos (by omega), Nat.add_sub_cancel_left, ih, sliceTo,
        if_pos hc]
    · rw [floorBoundary, if_neg hc, sliceTo, if_neg (by omega), sliceTo, if_neg hc]

theorem sliceFrom_ceilBoundary (text : List Char) (at_ : ℕ) :
    sliceFrom text (ceilBoundary text at_) = sliceFrom text at_ := by
  induction text generalizing at_ with
  | nil => rfl
  | cons c text ih =>
    have hpos := c.utf8Size_pos
    by_cases hat : at_ = 0
    · rw [ceilBoundary, if_pos hat, hat]
    · rw [ceilBoundary, if_neg hat, sliceFrom, if_neg (by omega), Nat.add_sub_cancel_left, ih,
        sliceFrom, if_neg hat]

/-- A text that ends before the cut stays whole. -/
theorem sliceTo_of_le {text : List Char} {at_ : ℕ} (h : byteLength text ≤ at_) :
    sliceTo text at_ = text := by
  induction text generalizing at_ with
  | nil => rfl
  | cons c text ih =>
    rw [byteLength_cons] at h
    rw [sliceTo, if_pos (by omega), ih (by omega)]

theorem sliceFrom_of_le {text : List Char} {at_ : ℕ} (h : byteLength text ≤ at_) :
    sliceFrom text at_ = [] := by
  induction text generalizing at_ with
  | nil => rfl
  | cons c text ih =>
    have hc := c.utf8Size_pos
    rw [byteLength_cons] at h
    rw [sliceFrom, if_neg (by omega), ih (by omega)]

@[simp]
theorem sliceFrom_zero (text : List Char) : sliceFrom text 0 = text := by
  cases text with
  | nil => rfl
  | cons c text => rw [sliceFrom, if_pos rfl]

@[simp]
theorem sliceTo_zero (text : List Char) : sliceTo text 0 = [] := by
  cases text with
  | nil => rfl
  | cons c text =>
    have hc := c.utf8Size_pos
    rw [sliceTo, if_neg (by omega)]

@[simp]
theorem ceilBoundary_zero (text : List Char) : ceilBoundary text 0 = 0 := by
  cases text with
  | nil => rfl
  | cons c text => rw [ceilBoundary, if_pos rfl]

/-- A cut falls into the first part of a text, or into the second. -/
theorem sliceTo_append (a b : List Char) (at_ : ℕ) :
    sliceTo (a ++ b) at_ =
      if byteLength a ≤ at_ then a ++ sliceTo b (at_ - byteLength a) else sliceTo a at_ := by
  induction a generalizing at_ with
  | nil => simp
  | cons c a ih =>
    rw [List.cons_append, sliceTo, sliceTo, byteLength_cons]
    by_cases hc : c.utf8Size ≤ at_
    · rw [if_pos hc, if_pos hc, ih]
      by_cases ha : byteLength a ≤ at_ - c.utf8Size
      · rw [if_pos ha, if_pos (by omega), Nat.sub_sub, List.cons_append]
      · rw [if_neg ha, if_neg (by omega)]
    · rw [if_neg hc, if_neg hc, if_neg (by omega)]

theorem sliceFrom_append (a b : List Char) (at_ : ℕ) :
    sliceFrom (a ++ b) at_ =
      if byteLength a ≤ at_ then sliceFrom b (at_ - byteLength a) else sliceFrom a at_ ++ b := by
  induction a generalizing at_ with
  | nil => simp
  | cons c a ih =>
    have hpos := c.utf8Size_pos
    rw [List.cons_append, sliceFrom, sliceFrom, byteLength_cons]
    by_cases hat : at_ = 0
    · rw [if_pos hat, if_pos hat, if_neg (by omega), List.cons_append]
    · rw [if_neg hat, if_neg hat, ih]
      by_cases ha : byteLength a ≤ at_ - c.utf8Size
      · rw [if_pos ha]
        by_cases hle : c.utf8Size + byteLength a ≤ at_
        · rw [if_pos hle, Nat.sub_sub]
        · -- the cut is inside the character, and nothing follows it
          have hzero : at_ - c.utf8Size = 0 := by omega
          have hnil : a = [] := byteLength_eq_zero.mp (by omega)
          subst hnil
          rw [if_neg hle, hzero]
          simp [sliceFrom]
      · rw [if_neg ha, if_neg (by omega)]

theorem floorBoundary_append (a b : List Char) (at_ : ℕ) :
    floorBoundary (a ++ b) at_ =
      if byteLength a ≤ at_ then byteLength a + floorBoundary b (at_ - byteLength a)
      else floorBoundary a at_ := by
  rw [← byteLength_sliceTo, sliceTo_append]
  split_ifs
  · rw [byteLength_append, byteLength_sliceTo]
  · rw [byteLength_sliceTo]

theorem ceilBoundary_append (a b : List Char) (at_ : ℕ) :
    ceilBoundary (a ++ b) at_ =
      if byteLength a ≤ at_ then byteLength a + ceilBoundary b (at_ - byteLength a)
      else ceilBoundary a at_ := by
  have hwhole := byteLength_sliceFrom (a ++ b) at_
  have ha := byteLength_sliceFrom a at_
  have hb := byteLength_sliceFrom b (at_ - byteLength a)
  rw [sliceFrom_append, byteLength_append] at hwhole
  split_ifs at hwhole ⊢
  · omega
  · rw [byteLength_append] at hwhole
    omega

end TextBounds

end Afactory
