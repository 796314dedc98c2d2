import Mathlib.Data.List.Basic
import Mathlib.Tactic.SplitIfs

/-!
# Fields behind one terminator

Texts are joined by writing each with a terminator behind it. Nothing keeps the terminator out of
the texts, so that other fields may read the same; fields that are not blank may be asked for.

* `terminated`: the joined text;
* `Tight`: no text of the fields could stand in the field before it, or behind it;
* `terminated_unique_iff`: fields that are not blank are the only ones that read so exactly when
  they are tight.
-/

namespace Afactory.Terminated

variable {α : Type*} {z : α} {blank : α → Bool} {f g a b s t p : List α} {xs ys : List (List α)}

/-- Each field, with the terminator behind it. -/
def terminated (z : α) (fields : List (List α)) : List α := fields.flatMap fun f => f ++ [z]

/-- Every item of the text is blank. -/
def Blank (blank : α → Bool) (f : List α) : Prop := ∀ c ∈ f, blank c = true

/-- Nothing but blank text stands before a terminator inside the field. -/
def BlankBefore (z : α) (blank : α → Bool) (f : List α) : Prop :=
  ∀ a b, f = a ++ z :: b → Blank blank a

/-- Nothing but blank text stands behind a terminator inside the field. -/
def BlankBehind (z : α) (blank : α → Bool) (f : List α) : Prop :=
  ∀ a b, f = a ++ z :: b → Blank blank b

/-- Fields that follow another one: what stands behind a terminator could not be a field of its
own, nor could what stands before one, save in the last field. -/
def TightBehind (z : α) (blank : α → Bool) : List (List α) → Prop
  | [] => True
  | [f] => BlankBehind z blank f
  | f :: g :: rest =>
    BlankBefore z blank f ∧ BlankBehind z blank f ∧ TightBehind z blank (g :: rest)

/-- **Tight fields**: blank before every terminator, save in the last field, and blank behind
every terminator, save in the first. -/
def Tight (z : α) (blank : α → Bool) : List (List α) → Prop
  | f :: g :: rest => BlankBefore z blank f ∧ TightBehind z blank (g :: rest)
  | _ => True

@[simp] theorem terminated_nil : terminated z [] = [] := rfl

@[simp] theorem terminated_cons :
    terminated z (f :: xs) = f ++ z :: terminated z xs := by
  simp [terminated]

theorem Blank.notMem (hz : blank z = false) (h : Blank blank f) : z ∉ f := fun hmem => by
  rw [h z hmem] at hz
  cases hz

/-- The first terminator of a text is the first of any other way to cut it. -/
theorem split_first (ha : z ∉ a) (h : a ++ z :: s = p ++ z :: t) :
    (p = a ∧ s = t) ∨ ∃ p', p = a ++ z :: p' ∧ s = p' ++ z :: t := by
  rcases List.append_eq_append_iff.mp h with ⟨c, rfl, hc⟩ | ⟨c, rfl, hc⟩
  · cases c with
    | nil => exact .inl ⟨by simp, by simpa using hc⟩
    | cons x c =>
      obtain ⟨rfl, rfl⟩ := List.cons_eq_cons.mp hc
      exact .inr ⟨c, rfl, rfl⟩
  · cases c with
    | nil => exact .inl ⟨by simp, by simpa using hc.symm⟩
    | cons x c =>
      obtain ⟨rfl, -⟩ := List.cons_eq_cons.mp hc
      exact absurd (by simp) ha

/-- A field that is blank before its terminators has none, or one behind blank text. -/
theorem BlankBefore.cases (hz : blank z = false) (h : BlankBefore z blank f) :
    z ∉ f ∨ ∃ a b, f = a ++ z :: b ∧ Blank blank a ∧ z ∉ b := by
  by_cases hmem : z ∈ f
  · obtain ⟨a, b, rfl⟩ := List.append_of_mem hmem
    refine .inr ⟨a, b, rfl, h a b rfl, fun hb => ?_⟩
    obtain ⟨c, d, rfl⟩ := List.append_of_mem hb
    exact (h (a ++ z :: c) d (by simp)).notMem hz (by simp)
  · exact .inl hmem

/-! ## Tight fields read one way -/

/-- Fields that are not blank cannot start inside tight ones: they would never catch up. -/
theorem TightBehind.not_ahead (hz : blank z = false) (h : TightBehind z blank xs)
    (hys : ∀ f ∈ ys, ¬ Blank blank f) (hlength : ys.length = xs.length) :
    terminated z xs ≠ p ++ z :: terminated z ys := by
  induction xs generalizing ys p with
  | nil => simp
  | cons f xs ih =>
    cases ys with
    | nil => cases hlength
    | cons g ys =>
      intro heq
      obtain ⟨hg, hys⟩ := List.forall_mem_cons.mp hys
      rw [List.length_cons, List.length_cons, Nat.succ_inj] at hlength
      rw [terminated_cons, terminated_cons] at heq
      cases xs with
      | nil =>
        obtain rfl := List.length_eq_zero_iff.mp hlength
        -- the last field ends where the text does
        have hf : f = p ++ z :: g := by
          have hend : f ++ [z] = (p ++ z :: g) ++ [z] := by simpa using heq
          exact List.append_cancel_right hend
        exact hg (h p g hf)
      | cons f' xs =>
        obtain ⟨hbefore, hbehind, hrest⟩ := h
        have hnext : ∀ q, terminated z (f' :: xs) ≠ q ++ z :: terminated z ys :=
          fun q => ih hrest hys hlength
        rcases hbefore.cases hz with hf | ⟨a, b, rfl, ha, hb⟩
        · rcases split_first hf heq with ⟨-, heq⟩ | ⟨p', -, heq⟩
          · exact hnext g heq
          · exact hnext (p' ++ z :: g) (by simpa using heq)
        · rw [List.append_assoc, List.cons_append] at heq
          rcases split_first (ha.notMem hz) heq with ⟨-, heq⟩ | ⟨p', -, heq⟩
          · rcases split_first hb heq with ⟨rfl, -⟩ | ⟨q, -, heq⟩
            · exact hg (hbehind a g rfl)
            · exact hnext q heq
          · rcases split_first hb heq with ⟨-, heq⟩ | ⟨q, -, heq⟩
            · exact hnext g heq
            · exact hnext (q ++ z :: g) (by simpa using heq)

/-- The first field of tight ones reads one way. -/
theorem head_unique (hz : blank z = false) (hf : BlankBefore z blank f)
    (hxs : TightBehind z blank xs) (hg : ¬ Blank blank g) (hys : ∀ f ∈ ys, ¬ Blank blank f)
    (hlength : ys.length = xs.length)
    (heq : terminated z (f :: xs) = terminated z (g :: ys)) :
    f = g ∧ terminated z xs = terminated z ys := by
  have hahead : ∀ q, terminated z xs ≠ q ++ z :: terminated z ys :=
    fun q => hxs.not_ahead hz hys hlength
  rw [terminated_cons, terminated_cons] at heq
  rcases hf.cases hz with hf | ⟨a, b, rfl, ha, hb⟩
  · rcases split_first hf heq with ⟨hfield, htail⟩ | ⟨q, -, htail⟩
    · exact ⟨hfield.symm, htail⟩
    · exact absurd htail (hahead q)
  · rw [List.append_assoc, List.cons_append] at heq
    rcases split_first (ha.notMem hz) heq with ⟨rfl, -⟩ | ⟨g', rfl, hrest⟩
    · exact absurd ha hg
    · rcases split_first hb hrest with ⟨hfield, htail⟩ | ⟨q, -, htail⟩
      · exact ⟨by rw [hfield], htail⟩
      · exact absurd htail (hahead q)

theorem TightBehind.unique (hz : blank z = false) (h : TightBehind z blank xs)
    (hys : ∀ f ∈ ys, ¬ Blank blank f) (hlength : ys.length = xs.length)
    (heq : terminated z xs = terminated z ys) : xs = ys := by
  induction xs generalizing ys with
  | nil => exact (List.length_eq_zero_iff.mp hlength).symm
  | cons f xs ih =>
    cases ys with
    | nil => cases hlength
    | cons g ys =>
      obtain ⟨hg, hothers⟩ := List.forall_mem_cons.mp hys
      rw [List.length_cons, List.length_cons, Nat.succ_inj] at hlength
      cases xs with
      | nil =>
        obtain rfl := List.length_eq_zero_iff.mp hlength
        simpa using heq
      | cons f' xs =>
        obtain ⟨hbefore, -, hrest⟩ := h
        obtain ⟨rfl, htail⟩ := head_unique hz hbefore hrest hg hothers hlength heq
        rw [ih hrest hothers hlength htail]

/-! ## Fields that are not tight read another way -/

/-- Another list of fields that are not blank, as many, which reads the same. -/
def Twin (z : α) (blank : α → Bool) (xs ys : List (List α)) : Prop :=
  ys.length = xs.length ∧ (∀ f ∈ ys, ¬ Blank blank f) ∧ terminated z ys = terminated z xs ∧ ys ≠ xs

theorem Twin.cons (hf : ¬ Blank blank f) (h : Twin z blank xs ys) :
    Twin z blank (f :: xs) (f :: ys) := by
  obtain ⟨hlength, hys, heq, hne⟩ := h
  refine ⟨by simp [hlength], List.forall_mem_cons.mpr ⟨hf, hys⟩, by simp [heq], fun h => ?_⟩
  exact hne (List.cons_eq_cons.mp h).2

/-- The text behind a terminator moves into the next field. -/
theorem twin_behind (hz : blank z = false) (ha : ¬ Blank blank a)
    (hxs : ∀ f ∈ xs, ¬ Blank blank f) :
    Twin z blank ((a ++ z :: b) :: g :: xs) (a :: (b ++ z :: g) :: xs) := by
  refine ⟨rfl, ?_, by simp, fun h => ?_⟩
  · refine List.forall_mem_cons.mpr ⟨ha, List.forall_mem_cons.mpr ⟨fun h => ?_, hxs⟩⟩
    exact h.notMem hz (by simp)
  · have hlength := congrArg List.length (List.cons_eq_cons.mp h).1
    simp at hlength

/-- The text before a terminator moves into the field before. -/
theorem twin_before (hz : blank z = false) (hb : ¬ Blank blank b)
    (hxs : ∀ f ∈ xs, ¬ Blank blank f) :
    Twin z blank (f :: (a ++ z :: b) :: xs) ((f ++ z :: a) :: b :: xs) := by
  refine ⟨rfl, ?_, by simp, fun h => ?_⟩
  · refine List.forall_mem_cons.mpr ⟨fun h => ?_, List.forall_mem_cons.mpr ⟨hb, hxs⟩⟩
    exact h.notMem hz (by simp)
  · have hlength := congrArg List.length (List.cons_eq_cons.mp h).1
    simp at hlength

theorem exists_twin_of_not_before (hz : blank z = false) (hxs : ∀ f ∈ xs, ¬ Blank blank f)
    (h : ¬ BlankBefore z blank f) : ∃ ys, Twin z blank (f :: g :: xs) ys := by
  obtain ⟨a, h⟩ := not_forall.mp h
  obtain ⟨b, h⟩ := not_forall.mp h
  obtain ⟨rfl, ha⟩ := Classical.not_imp.mp h
  exact ⟨_, twin_behind hz ha hxs⟩

theorem exists_twin_of_not_behind (hz : blank z = false) (hxs : ∀ f ∈ xs, ¬ Blank blank f)
    (h : ¬ BlankBehind z blank g) : ∃ ys, Twin z blank (f :: g :: xs) ys := by
  obtain ⟨a, h⟩ := not_forall.mp h
  obtain ⟨b, h⟩ := not_forall.mp h
  obtain ⟨rfl, hb⟩ := Classical.not_imp.mp h
  exact ⟨_, twin_before hz hb hxs⟩

theorem exists_twin_behind (hz : blank z = false) (hf : ¬ Blank blank f)
    (hxs : ∀ f ∈ xs, ¬ Blank blank f) (h : ¬ TightBehind z blank xs) :
    ∃ ys, Twin z blank (f :: xs) ys := by
  induction xs generalizing f with
  | nil => exact absurd trivial h
  | cons g xs ih =>
    obtain ⟨hg, hrest⟩ := List.forall_mem_cons.mp hxs
    by_cases hbehind : BlankBehind z blank g
    · cases xs with
      | nil => exact absurd hbehind h
      | cons g' xs =>
        by_cases hbefore : BlankBefore z blank g
        · obtain ⟨ys, hys⟩ := ih hg hrest fun htight => h ⟨hbefore, hbehind, htight⟩
          exact ⟨f :: ys, hys.cons hf⟩
        · obtain ⟨ys, hys⟩ := exists_twin_of_not_before hz
            (List.forall_mem_cons.mp hrest).2 hbefore
          exact ⟨f :: ys, hys.cons hf⟩
    · exact exists_twin_of_not_behind hz hrest hbehind

/-- **What reads one way.** Fields that are not blank are the only ones, of their number, that read
as they do exactly when they are tight. -/
theorem terminated_unique_iff (hz : blank z = false) (hxs : ∀ f ∈ xs, ¬ Blank blank f) :
    (∀ ys, ys.length = xs.length → (∀ f ∈ ys, ¬ Blank blank f) →
      terminated z ys = terminated z xs → ys = xs) ↔ Tight z blank xs := by
  constructor
  · intro hunique
    by_contra htight
    have htwin : ∃ ys, Twin z blank xs ys := by
      match xs, hxs, htight with
      | f :: g :: rest, hxs, htight =>
        obtain ⟨hf, hrest⟩ := List.forall_mem_cons.mp hxs
        by_cases hbefore : BlankBefore z blank f
        · exact exists_twin_behind hz hf hrest fun h => htight ⟨hbefore, h⟩
        · exact exists_twin_of_not_before hz (List.forall_mem_cons.mp hrest).2 hbefore
      | [], _, htight => exact absurd trivial htight
      | [_], _, htight => exact absurd trivial htight
    obtain ⟨ys, hlength, hys, heq, hne⟩ := htwin
    exact hne (hunique ys hlength hys heq)
  · intro htight ys hlength hys heq
    match xs, ys, hlength with
    | [], [], _ => rfl
    | [f], [g], _ => simpa using heq
    | f :: f' :: xs, g :: g' :: ys, hlength =>
      obtain ⟨hf, hrest⟩ := htight
      obtain ⟨hg, hothers⟩ := List.forall_mem_cons.mp hys
      have hlength' : (g' :: ys).length = (f' :: xs).length := by simpa using hlength
      obtain ⟨rfl, htail⟩ := head_unique hz hf hrest hg hothers hlength' heq.symm
      rw [hrest.unique hz hothers hlength' htail]

end Afactory.Terminated
