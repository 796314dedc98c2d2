import Mathlib.Data.List.Basic

/-!
# Codes that show where they end

A code *delimits* its values when no two of its texts, whatever is written behind them, read alike:
the value and the rest are both recovered.

* `Delimits.fixed`: codes of one width;
* `Delimits.framed`: a field behind its length;
* `Delimits.pair`: one code behind another;
* `Delimits.each`, `Delimits.counted`: the items of a list, behind their number.
-/

namespace Afactory

namespace Framing

variable {α β γ : Type*} {P : α → Prop} {Q : β → Prop} {code : α → List γ} {code' : β → List γ}

/-- The value and what stands behind it are read back from a text of the code. -/
def Delimits (P : α → Prop) (code : α → List γ) : Prop :=
  ∀ ⦃a⦄, P a → ∀ ⦃b⦄, P b → ∀ s t, code a ++ s = code b ++ t → a = b ∧ s = t

namespace Delimits

theorem inj (h : Delimits P code) {a b : α} (ha : P a) (hb : P b) (hab : code a = code b) :
    a = b :=
  (h ha hb [] [] (by rw [hab])).1

/-- Texts of one width end where the width ends. -/
theorem fixed {width : ℕ} (hwidth : ∀ a, (code a).length = width)
    (hinj : ∀ a, P a → ∀ b, P b → code a = code b → a = b) : Delimits P code := by
  intro a ha b hb s t h
  obtain ⟨hab, hst⟩ := List.append_inj h (by rw [hwidth, hwidth])
  exact ⟨hinj a ha b hb hab, hst⟩

/-- A value may be coded by the parts it is determined by. -/
theorem comap (h : Delimits Q code') {f : α → β} (hP : ∀ a, P a → Q (f a))
    (hf : Function.Injective f) : Delimits P fun a => code' (f a) := by
  intro a ha b hb s t hst
  obtain ⟨hab, hrest⟩ := h (hP a ha) (hP b hb) s t hst
  exact ⟨hf hab, hrest⟩

/-- A field behind its length. -/
theorem framed {bound : ℕ} {number : ℕ → List γ} (h : Delimits (· < bound) number) :
    Delimits (fun field : List γ => field.length < bound)
      fun field => number field.length ++ field := by
  intro a ha b hb s t hst
  rw [List.append_assoc, List.append_assoc] at hst
  obtain ⟨hlength, hrest⟩ := h ha hb _ _ hst
  exact List.append_inj hrest hlength

theorem pair (h : Delimits P code) (h' : Delimits Q code') :
    Delimits (fun p : α × β => P p.1 ∧ Q p.2) fun p => code p.1 ++ code' p.2 := by
  rintro ⟨a, b⟩ ⟨ha, hb⟩ ⟨a', b'⟩ ⟨ha', hb'⟩ s t hst
  rw [List.append_assoc, List.append_assoc] at hst
  obtain ⟨rfl, hrest⟩ := h ha ha' _ _ hst
  obtain ⟨rfl, hend⟩ := h' hb hb' s t hrest
  exact ⟨rfl, hend⟩

/-- As many items are read back one by one. -/
theorem each (h : Delimits P code) :
    ∀ {l l' : List α}, (∀ a ∈ l, P a) → (∀ a ∈ l', P a) → l.length = l'.length →
      ∀ s t, l.flatMap code ++ s = l'.flatMap code ++ t → l = l' ∧ s = t
  | [], [], _, _, _, s, t, hst => ⟨rfl, by simpa using hst⟩
  | a :: l, b :: l', hl, hl', hlength, s, t, hst => by
    rw [List.flatMap_cons, List.flatMap_cons, List.append_assoc, List.append_assoc] at hst
    rw [List.forall_mem_cons] at hl hl'
    obtain ⟨rfl, hrest⟩ := h hl.1 hl'.1 _ _ hst
    obtain ⟨rfl, hend⟩ := h.each hl.2 hl'.2 (by simpa using hlength) s t hrest
    exact ⟨rfl, hend⟩

/-- The items of a list behind their number. -/
theorem counted (h : Delimits P code) {bound : ℕ} {number : ℕ → List γ}
    (hnumber : Delimits (· < bound) number) :
    Delimits (fun l : List α => l.length < bound ∧ ∀ a ∈ l, P a)
      fun l => number l.length ++ l.flatMap code := by
  rintro l ⟨hl, hP⟩ l' ⟨hl', hP'⟩ s t hst
  rw [List.append_assoc, List.append_assoc] at hst
  obtain ⟨hlength, hrest⟩ := hnumber hl hl' _ _ hst
  exact h.each hP hP' hlength s t hrest

end Delimits

end Framing

end Afactory
