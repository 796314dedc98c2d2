import Mathlib

/-!
# Binary search

A search that halves the range by one comparison each time, and compares for equality at the end.
The comparison tells of each index where it stands against the one that is looked for.

* `searchLoop`, `binarySearch`: the search;
* `Sought`: from an index that is not below on, all are above;
* `binarySearch_eq_some`: the search finds the index that compares equal, if there is one.
-/

namespace Afactory

/-- The base of the range that is left when it has one index. -/
@[grind =] def searchLoop (cmp : ℕ → Ordering) (base size : ℕ) : ℕ :=
  if size ≤ 1 then base
  else if cmp (base + size / 2) = .gt then searchLoop cmp base (size - size / 2)
  else searchLoop cmp (base + size / 2) (size - size / 2)
  termination_by size

/-- `slice::binary_search_by`, of the indexes below `n`. -/
def binarySearch (cmp : ℕ → Ordering) (n : ℕ) : Option ℕ :=
  if n = 0 then none
  else if cmp (searchLoop cmp 0 n) = .eq then some (searchLoop cmp 0 n)
  else none

/-- The indexes stand in order: above an index that is not below what is looked for, all are. -/
def Sought (cmp : ℕ → Ordering) (n : ℕ) : Prop :=
  ∀ i j, i < j → j < n → cmp i ≠ .lt → cmp j = .gt

variable {cmp : ℕ → Ordering} {n : ℕ}

theorem Sought.unique (h : Sought cmp n) {i j : ℕ} (hi : i < n) (hj : j < n) (hi' : cmp i = .eq)
    (hj' : cmp j = .eq) : i = j := by
  rcases lt_trichotomy i j with hlt | heq | hgt
  · rw [h i j hlt hj (by rw [hi']; decide)] at hj'
    cases hj'
  · exact heq
  · rw [h j i hgt hi (by rw [hj']; decide)] at hi'
    cases hi'

/-- The index that compares equal stays in the range. -/
theorem searchLoop_eq (h : Sought cmp n) {t : ℕ} (ht : cmp t = .eq) {base size : ℕ}
    (hbase : base ≤ t) (hsize : t < base + size) (hn : base + size ≤ n) :
    searchLoop cmp base size = t := by
  induction base, size using searchLoop.induct cmp with
  | case1 base size hone =>
    rw [searchLoop, if_pos hone]
    omega
  | case2 base size hone hmid ih =>
    have hlt : t < base + size / 2 := by
      by_contra hge
      rcases Nat.lt_or_eq_of_le (not_lt.mp hge) with hgt | heq
      · rw [h _ t hgt (by omega) (by rw [hmid]; decide)] at ht
        cases ht
      · rw [heq, ht] at hmid
        cases hmid
    rw [searchLoop, if_neg hone, if_pos hmid]
    exact ih hbase (by omega) (by omega)
  | case3 base size hone hmid ih =>
    have hge : base + size / 2 ≤ t := by
      by_contra hlt
      exact hmid (h t _ (by omega) (by omega) (by rw [ht]; decide))
    rw [searchLoop, if_neg hone, if_neg hmid]
    exact ih hge (by omega) (by omega)

theorem searchLoop_lt {base size : ℕ} (hsize : 0 < size) :
    base ≤ searchLoop cmp base size ∧ searchLoop cmp base size < base + size := by
  induction base, size using searchLoop.induct cmp with
  | case1 base size hone =>
    rw [searchLoop, if_pos hone]
    omega
  | case2 base size hone hmid ih =>
    rw [searchLoop, if_neg hone, if_pos hmid]
    have hrange := ih (by omega)
    omega
  | case3 base size hone hmid ih =>
    rw [searchLoop, if_neg hone, if_neg hmid]
    have hrange := ih (by omega)
    omega

/-- **The search is exact.** -/
theorem binarySearch_eq_some (h : Sought cmp n) {i : ℕ} :
    binarySearch cmp n = some i ↔ i < n ∧ cmp i = .eq := by
  unfold binarySearch
  split_ifs with hn hcmp
  · subst hn
    simp
  · have hlt := (@searchLoop_lt cmp 0 n (Nat.pos_of_ne_zero hn)).2
    rw [zero_add] at hlt
    rw [Option.some.injEq]
    constructor
    · rintro rfl
      exact ⟨hlt, hcmp⟩
    · rintro ⟨hi, heq⟩
      exact h.unique hlt hi hcmp heq
  · refine iff_of_false nofun fun ⟨hi, heq⟩ => hcmp ?_
    rwa [searchLoop_eq h heq (Nat.zero_le i) (by rwa [zero_add]) (by rw [zero_add])]

end Afactory
