import Mathlib

/-!
# Classes of indices

Indices are joined into classes, each with its least member as its root. Every parent is at or
below its child, so a root is reached in as many steps as the index counts.

* `Links`, `root`, `union`: the classes, with `root_union`;
* `find`: the root, found by halving the path to it, which leaves every root as it was;
* `linkFrom`: every index is joined to the one before it of the same label;
* `root_linkFrom`: afterwards indices of one label have one root;
* `constant_linkFrom`: and a property that joined indices share is shared by whole classes.
-/

namespace Afactory

universe u v

/-- Parents of indices. -/
structure Links where
  parent : ℕ → ℕ
  le : ∀ i, parent i ≤ i

namespace Links

/-- Every index alone. -/
def discrete : Links := ⟨id, fun _ => le_rfl⟩

/-- The least member of the class of an index. -/
def root (P : Links) (i : ℕ) : ℕ := P.parent^[i] i

variable {P : Links} {i j x : ℕ}

theorem iterate_le (n : ℕ) : P.parent^[n] i ≤ i := by
  induction n with
  | zero => exact le_rfl
  | succ n ih =>
    rw [Function.iterate_succ_apply']
    exact (P.le _).trans ih

theorem root_le (P : Links) (i : ℕ) : P.root i ≤ i := iterate_le i

/-- A chain either has ended or has gone down one for each step. -/
theorem ended_or_le (n : ℕ) :
    P.parent (P.parent^[n] i) = P.parent^[n] i ∨ P.parent^[n] i + n ≤ i := by
  induction n with
  | zero => exact .inr le_rfl
  | succ n ih =>
    rw [Function.iterate_succ_apply']
    by_cases hend : P.parent (P.parent^[n] i) = P.parent^[n] i
    · left
      rw [hend, hend]
    · have hle := ih.resolve_left hend
      have hlt := lt_of_le_of_ne (P.le (P.parent^[n] i)) hend
      right
      omega

/-- A root is its own parent. -/
theorem parent_root (P : Links) (i : ℕ) : P.parent (P.root i) = P.root i := by
  rcases ended_or_le (P := P) (i := i) i with hend | hle
  · exact hend
  · have hzero : P.root i = 0 := by
      unfold root
      omega
    rw [hzero]
    exact Nat.le_zero.mp (P.le 0)

theorem iterate_of_parent (h : P.parent i = i) (n : ℕ) : P.parent^[n] i = i :=
  Function.iterate_fixed h n

theorem root_of_parent (h : P.parent i = i) : P.root i = i := iterate_of_parent h i

@[simp] theorem root_root (P : Links) (i : ℕ) : P.root (P.root i) = P.root i :=
  root_of_parent (P.parent_root i)

/-- One step up the chain reaches the same root. -/
theorem root_parent (P : Links) (i : ℕ) : P.root (P.parent i) = P.root i := by
  by_cases hend : P.parent i = i
  · rw [hend]
  · have hlt := lt_of_le_of_ne (P.le i) hend
    obtain ⟨more, hmore⟩ : ∃ more, i = more + P.parent i + 1 := ⟨i - P.parent i - 1, by omega⟩
    calc P.root (P.parent i) = P.parent^[more] (P.root (P.parent i)) :=
          (iterate_of_parent (P.parent_root _) more).symm
      _ = P.parent^[more + P.parent i] (P.parent i) := (Function.iterate_add_apply _ _ _ _).symm
      _ = P.parent^[more + P.parent i + 1] i := (Function.iterate_succ_apply _ _ _).symm
      _ = P.root i := by rw [← hmore]; rfl

/-- A function that is constant along parents is constant on classes. -/
theorem eq_of_root {γ : Type v} {c : ℕ → γ} (hc : ∀ i, c (P.parent i) = c i)
    (h : P.root i = P.root j) : c i = c j := by
  have hroot : ∀ n i, c (P.parent^[n] i) = c i := by
    intro n
    induction n with
    | zero => exact fun _ => rfl
    | succ n ih =>
      intro i
      rw [Function.iterate_succ_apply, ih, hc]
  calc c i = c (P.root i) := (hroot i i).symm
    _ = c (P.root j) := by rw [h]
    _ = c j := hroot j j

/-- Join the classes of two indices: the greater root goes below the lesser. -/
def union (P : Links) (i j : ℕ) : Links where
  parent x := if x = max (P.root i) (P.root j) then min (P.root i) (P.root j) else P.parent x
  le x := by
    split_ifs with hx
    · omega
    · exact P.le x

/-- The classes after a union. -/
theorem root_union (P : Links) (i j x : ℕ) :
    (P.union i j).root x =
      if P.root x = max (P.root i) (P.root j) then min (P.root i) (P.root j) else P.root x := by
  have hleast : P.parent (min (P.root i) (P.root j)) = min (P.root i) (P.root j) := by
    rcases min_choice (P.root i) (P.root j) with h | h
    · rw [h, P.parent_root]
    · rw [h, P.parent_root]
  have hfixed : (P.union i j).parent (min (P.root i) (P.root j)) =
      min (P.root i) (P.root j) := by
    simp only [union]
    split_ifs
    · rfl
    · exact hleast
  induction x using Nat.strong_induction_on with
  | _ x ih =>
    by_cases htop : x = max (P.root i) (P.root j)
    · have hroot : P.root x = x := by
        apply root_of_parent
        rcases max_choice (P.root i) (P.root j) with h | h
        · rw [htop, h, P.parent_root]
        · rw [htop, h, P.parent_root]
      rw [hroot, if_pos htop, ← root_parent]
      have hstep : (P.union i j).parent x = min (P.root i) (P.root j) := if_pos htop
      rw [hstep]
      exact root_of_parent hfixed
    · have hstep : (P.union i j).parent x = P.parent x := if_neg htop
      by_cases hend : P.parent x = x
      · rw [root_of_parent (hstep.trans hend), root_of_parent hend, if_neg htop]
      · have hlt := lt_of_le_of_ne (P.le x) hend
        rw [← root_parent, hstep, ih _ hlt, root_parent]

theorem union_self (P : Links) (i j : ℕ) : (P.union i j).root i = (P.union i j).root j := by
  rw [root_union, root_union]
  split_ifs <;> omega

theorem union_mono (h : P.root x = P.root i) (j k : ℕ) :
    (P.union j k).root x = (P.union j k).root i := by
  rw [root_union, root_union, h]

/-- What both indices share stays constant. -/
theorem constant_union {γ : Type v} {c : ℕ → γ} (hc : ∀ x, c (P.parent x) = c x)
    (h : c i = c j) (x : ℕ) : c ((P.union i j).parent x) = c x := by
  have hi : c (P.root i) = c i := eq_of_root hc (P.root_root i)
  have hj : c (P.root j) = c j := eq_of_root hc (P.root_root j)
  simp only [union]
  split_ifs with hx
  · rw [hx]
    rcases le_total (P.root i) (P.root j) with hle | hle
    · rw [min_eq_left hle, max_eq_right hle, hi, hj, h]
    · rw [min_eq_right hle, max_eq_left hle, hi, hj, h]
  · exact hc x

/-! ## Halving paths -/

/-- Put an index below the parent of its parent. -/
def halve (P : Links) (i : ℕ) : Links where
  parent x := if x = i then P.parent (P.parent i) else P.parent x
  le x := by
    split_ifs with hx
    · rw [hx]
      exact (P.le _).trans (P.le i)
    · exact P.le x

/-- Halving a path leaves every root as it was. -/
theorem root_halve (P : Links) (i x : ℕ) : (P.halve i).root x = P.root x := by
  induction x using Nat.strong_induction_on with
  | _ x ih =>
    by_cases hend : (P.halve i).parent x = x
    · rw [root_of_parent hend]
      have hstep := hend
      simp only [halve] at hstep
      split_ifs at hstep with hx
      · subst hx
        -- a parent of a parent is at or below the parent, so the chain has ended
        have hparent : P.parent x = x :=
          le_antisymm (P.le x) (hstep.symm.le.trans (P.le (P.parent x)))
        rw [root_of_parent hparent]
      · rw [root_of_parent hstep]
    · have hlt := lt_of_le_of_ne ((P.halve i).le x) hend
      rw [← root_parent, ih _ hlt]
      simp only [halve]
      split_ifs with hx
      · rw [hx, root_parent, root_parent]
      · rw [root_parent]

/-- The root of an index, every second step of the path to it put two steps up. -/
def find (P : Links) (i : ℕ) : Links × ℕ :=
  if P.parent i = i then (P, i) else (P.halve i).find (P.parent (P.parent i))
termination_by i
decreasing_by
  exact lt_of_le_of_lt (P.le _) (lt_of_le_of_ne (P.le i) ‹_›)

/-- **Finding** answers the root and leaves every root as it was. -/
theorem find_spec (P : Links) (i : ℕ) :
    (P.find i).2 = P.root i ∧ ∀ x, (P.find i).1.root x = P.root x := by
  induction i using Nat.strong_induction_on generalizing P with
  | _ i ih =>
    rw [find]
    split_ifs with hend
    · exact ⟨(root_of_parent hend).symm, fun _ => rfl⟩
    · have hlt := lt_of_le_of_lt (P.le (P.parent i)) (lt_of_le_of_ne (P.le i) hend)
      obtain ⟨hroot, hkept⟩ := ih _ hlt (P.halve i)
      refine ⟨?_, fun x => (hkept x).trans (root_halve P i x)⟩
      rw [hroot, root_halve, root_parent, root_parent]

/-! ## Labels -/

variable {κ : Type u} [DecidableEq κ]

/-- Join every index to the last one of its label; `seen` has the last index of each label, the
latest first. -/
def linkFrom : List (Option κ) → ℕ → List (κ × ℕ) → Links → Links
  | [], _, _, P => P
  | none :: rest, index, seen, P => linkFrom rest (index + 1) seen P
  | some label :: rest, index, seen, P =>
    linkFrom rest (index + 1) ((label, index) :: seen) (match seen.lookup label with
      | some previous => P.union previous index
      | none => P)

variable {labels : List (Option κ)} {index : ℕ} {seen : List (κ × ℕ)}

/-- Joined indices stay joined. -/
theorem linkFrom_mono (h : P.root x = P.root i) :
    (linkFrom labels index seen P).root x = (linkFrom labels index seen P).root i := by
  induction labels generalizing index seen P with
  | nil => exact h
  | cons label rest ih =>
    cases label with
    | none => exact ih h
    | some label =>
      refine ih ?_
      split
      · exact union_mono h _ _
      · exact h

/-- Every label seen leads to the indices that carry it. -/
theorem root_linkFrom_seen {k : κ} {previous n : ℕ} (hseen : seen.lookup k = some previous)
    (h : labels[n]? = some (some k)) :
    (linkFrom labels index seen P).root previous =
      (linkFrom labels index seen P).root (index + n) := by
  induction labels generalizing index seen P previous n with
  | nil => cases h
  | cons label rest ih =>
    cases n with
    | zero =>
      obtain rfl : label = some k := by simpa using h
      simp only [linkFrom, hseen, Nat.add_zero]
      exact linkFrom_mono (union_self P previous index)
    | succ n =>
      have hrest : rest[n]? = some (some k) := by simpa using h
      have hindex : index + (n + 1) = index + 1 + n := by omega
      rw [hindex]
      cases label with
      | none => exact ih hseen hrest
      | some label =>
        by_cases heq : k = label
        · subst heq
          have hjoined : (linkFrom rest (index + 1) ((k, index) :: seen)
              (P.union previous index)).root previous =
                (linkFrom rest (index + 1) ((k, index) :: seen) (P.union previous index)).root
                  index := linkFrom_mono (union_self P previous index)
          simp only [linkFrom, hseen]
          rw [hjoined]
          exact ih (by simp) hrest
        · refine ih ?_ hrest
          rw [List.lookup_cons, beq_eq_false_iff_ne.mpr heq]
          exact hseen

/-- **One label, one root.** -/
theorem root_linkFrom {k : κ} {m n : ℕ} (hm : labels[m]? = some (some k))
    (hn : labels[n]? = some (some k)) :
    (linkFrom labels index seen P).root (index + m) =
      (linkFrom labels index seen P).root (index + n) := by
  induction labels generalizing index seen P m n with
  | nil => cases hm
  | cons label rest ih =>
    cases m with
    | zero =>
      obtain rfl : label = some k := by simpa using hm
      cases n with
      | zero => rfl
      | succ n =>
        have hrest : rest[n]? = some (some k) := by simpa using hn
        have hindex : index + (n + 1) = index + 1 + n := by omega
        rw [Nat.add_zero, hindex]
        exact root_linkFrom_seen (by simp) hrest
    | succ m =>
      have hrest : rest[m]? = some (some k) := by simpa using hm
      have hindex : index + (m + 1) = index + 1 + m := by omega
      cases n with
      | zero =>
        obtain rfl : label = some k := by simpa using hn
        rw [Nat.add_zero, hindex]
        exact (root_linkFrom_seen (by simp) hrest).symm
      | succ n =>
        have hrest' : rest[n]? = some (some k) := by simpa using hn
        have hindex' : index + (n + 1) = index + 1 + n := by omega
        rw [hindex, hindex']
        cases label with
        | none => exact ih hrest hrest'
        | some label => exact ih hrest hrest'

/-- **Shared by classes.** What indices of one label share stays constant on classes. -/
theorem constant_linkFrom {γ : Type v} {c : ℕ → γ} (hc : ∀ x, c (P.parent x) = c x)
    (hseen : ∀ k m n, seen.lookup k = some m → labels[n]? = some (some k) → c m = c (index + n))
    (hlabels : ∀ k m n, labels[m]? = some (some k) → labels[n]? = some (some k) →
      c (index + m) = c (index + n)) (x : ℕ) :
    c ((linkFrom labels index seen P).parent x) = c x := by
  induction labels generalizing index seen P with
  | nil => exact hc x
  | cons label rest ih =>
    have hlater : ∀ k m n, rest[m]? = some (some k) → rest[n]? = some (some k) →
        c (index + 1 + m) = c (index + 1 + n) := by
      intro k m n hm hn
      have h := hlabels k (m + 1) (n + 1) (by simpa using hm) (by simpa using hn)
      rwa [show index + (m + 1) = index + 1 + m by omega,
        show index + (n + 1) = index + 1 + n by omega] at h
    have hkept : ∀ k m n, seen.lookup k = some m → rest[n]? = some (some k) →
        c m = c (index + 1 + n) := by
      intro k m n hm hn
      have h := hseen k m (n + 1) hm (by simpa using hn)
      rwa [show index + (n + 1) = index + 1 + n by omega] at h
    cases label with
    | none => exact ih hc hkept hlater
    | some label =>
      refine ih ?_ ?_ hlater
      · split
        case h_1 previous hprevious =>
          exact constant_union hc (hseen label previous 0 hprevious (by simp))
        case h_2 => exact hc
      · intro k m n hm hn
        rw [List.lookup_cons] at hm
        by_cases heq : k = label
        · subst heq
          simp only [beq_self_eq_true, Option.some.injEq] at hm
          subst hm
          have h := hlabels k 0 (n + 1) (by simp) (by simpa using hn)
          rwa [Nat.add_zero, show index + (n + 1) = index + 1 + n by omega] at h
        · rw [beq_eq_false_iff_ne.mpr heq] at hm
          exact hkept k m n hm hn

end Links

end Afactory
