import Mathlib

/-!
# Lists split at a separator

How the parts of `List.splitOn` change with the list: a piece without separators stays within one
part, and what keeps separators changes each part on its own.

* `exists_hole`: the part something is inserted in;
* `splitOn_flatMap`, `splitOn_map`: the parts of what is spelled otherwise;
* `exists_cut`: a separator of what is spelled was spelled from one;
* `join_part`: the list around one of its parts;
* `first_difference`: where two lists that look alike first differ.
-/

namespace Afactory

namespace Splitting

variable {α β : Type*} [DecidableEq α] [DecidableEq β] {sep : α}

theorem splitOn_cons_self (l : List α) : (sep :: l).splitOn sep = [] :: l.splitOn sep := by
  simp [List.splitOn_cons_eq_if_modifyHead]

theorem splitOn_cons_of_ne {a : α} (h : a ≠ sep) (l : List α) :
    (a :: l).splitOn sep = (l.splitOn sep).modifyHead (a :: ·) := by
  simp [List.splitOn_cons_eq_if_modifyHead, h]

theorem exists_splitOn_eq_cons (sep : α) (l : List α) : ∃ part parts, l.splitOn sep = part :: parts :=
  List.exists_cons_of_ne_nil (List.splitOn_ne_nil sep l)

/-- The first part of a list begins as the list does, unless it is empty. -/
theorem head_part {part : List α} {l : List α} {parts : List (List α)}
    (h : l.splitOn sep = part :: parts) : part = [] ∨ part.head? = l.head? := by
  cases l with
  | nil =>
    rw [List.splitOn_nil] at h
    cases h
    exact .inl rfl
  | cons a l =>
    by_cases ha : a = sep
    · subst ha
      rw [splitOn_cons_self] at h
      cases h
      exact .inl rfl
    · obtain ⟨first, rest, hl⟩ := exists_splitOn_eq_cons sep l
      rw [splitOn_cons_of_ne ha, hl] at h
      cases h
      exact .inr rfl

/-- A list that ends or goes on with a separator has an empty first part. -/
theorem head_part_of_end {l : List α} (h : l = [] ∨ l.head? = some sep) {part : List α}
    {parts : List (List α)} (hl : l.splitOn sep = part :: parts) : part = [] := by
  rcases head_part hl with hpart | hpart
  · exact hpart
  · rcases h with rfl | h
    · exact List.head?_eq_none_iff.mp hpart
    · obtain ⟨rest, rfl⟩ : ∃ rest, l = sep :: rest := by
        cases l with
        | nil => cases h
        | cons a rest =>
          obtain rfl := Option.some.inj h
          exact ⟨rest, rfl⟩
      rw [splitOn_cons_self] at hl
      cases hl
      rfl

/-- What has no separator stands before the first part. -/
theorem splitOn_append_of_notMem {x : List α} (hx : sep ∉ x) {l part : List α}
    {parts : List (List α)} (hl : l.splitOn sep = part :: parts) :
    (x ++ l).splitOn sep = (x ++ part) :: parts := by
  induction x with
  | nil => exact hl
  | cons a x ih =>
    rw [List.mem_cons, not_or] at hx
    rw [List.cons_append, splitOn_cons_of_ne (Ne.symm hx.1), ih hx.2]
    rfl

/-- **The hole.** Whatever without a separator stands between two lists stands within one part,
between the last part of the one and the first of the other. -/
theorem exists_hole (sep : α) (p q : List α) :
    ∃ before a b after, (∀ x, sep ∉ x → (p ++ x ++ q).splitOn sep = before ++ (a ++ x ++ b) :: after) ∧
      q.splitOn sep = b :: after := by
  obtain ⟨b, after, hq⟩ := exists_splitOn_eq_cons sep q
  induction p with
  | nil =>
    exact ⟨[], [], b, after, fun x hx => splitOn_append_of_notMem hx hq, hq⟩
  | cons c p ih =>
    obtain ⟨before, a, b, after, hparts, hq⟩ := ih
    by_cases hc : c = sep
    · subst hc
      refine ⟨[] :: before, a, b, after, fun x hx => ?_, hq⟩
      rw [List.cons_append, List.cons_append, splitOn_cons_self, hparts x hx]
      rfl
    · cases before with
      | nil =>
        refine ⟨[], c :: a, b, after, fun x hx => ?_, hq⟩
        rw [List.cons_append, List.cons_append, splitOn_cons_of_ne hc, hparts x hx]
        rfl
      | cons first before =>
        refine ⟨(c :: first) :: before, a, b, after, fun x hx => ?_, hq⟩
        rw [List.cons_append, List.cons_append, splitOn_cons_of_ne hc, hparts x hx]
        rfl

section Spelled

variable {f : α → List β} {sep' : β}

/-- What spells the separator as one, and nothing else with one, spells each part. -/
theorem splitOn_flatMap (hsep : f sep = [sep']) (hf : ∀ a, a ≠ sep → sep' ∉ f a) (l : List α) :
    (l.flatMap f).splitOn sep' = (l.splitOn sep).map (List.flatMap f) := by
  induction l with
  | nil => rfl
  | cons a l ih =>
    rw [List.flatMap_cons]
    by_cases ha : a = sep
    · subst ha
      rw [hsep, List.singleton_append, splitOn_cons_self, splitOn_cons_self, ih]
      rfl
    · obtain ⟨part, parts, hl⟩ := exists_splitOn_eq_cons sep l
      rw [hl] at ih
      rw [splitOn_append_of_notMem (hf a ha) ih, splitOn_cons_of_ne ha, hl]
      rfl

/-- A map that sends to the separator what is one maps the parts. -/
theorem splitOn_map {f : α → β} (hf : ∀ a, f a = sep' ↔ a = sep) (l : List α) :
    (l.map f).splitOn sep' = (l.splitOn sep).map (List.map f) := by
  have hflat : (fun l => List.map f l) = List.flatMap fun a => [f a] := by
    funext l
    rw [List.map_eq_flatMap]
  have hmem : ∀ a, a ≠ sep → sep' ∉ [f a] := fun a ha h =>
    ha ((hf a).mp (List.mem_singleton.mp h).symm)
  have hparts := splitOn_flatMap (f := fun a => [f a]) (by rw [(hf sep).mpr rfl]) hmem l
  rw [← List.map_eq_flatMap] at hparts
  rw [hparts, ← hflat]

omit [DecidableEq β] in
/-- A separator in what is spelled stands for a separator, and cuts what is spelled in two. -/
theorem exists_cut (hsep : f sep = [sep']) (hf : ∀ a, a ≠ sep → sep' ∉ f a) {l : List α}
    {p q : List β} (h : l.flatMap f = p ++ sep' :: q) :
    ∃ l₁ l₂, l = l₁ ++ sep :: l₂ ∧ p = l₁.flatMap f ∧ q = l₂.flatMap f := by
  induction l generalizing p with
  | nil => simp at h
  | cons a l ih =>
    rw [List.flatMap_cons] at h
    by_cases ha : a = sep
    · subst ha
      rw [hsep, List.singleton_append] at h
      cases p with
      | nil =>
        rw [List.nil_append, List.cons.injEq] at h
        exact ⟨[], l, rfl, rfl, h.2.symm⟩
      | cons b p =>
        rw [List.cons_append, List.cons.injEq] at h
        obtain ⟨l₁, l₂, rfl, rfl, rfl⟩ := ih h.2
        exact ⟨a :: l₁, l₂, rfl, by rw [List.flatMap_cons, hsep, ← h.1]; rfl, rfl⟩
    · rcases List.append_eq_append_iff.mp h with ⟨rest, rfl, hrest⟩ | ⟨rest, hrest, -⟩
      · obtain ⟨l₁, l₂, rfl, rfl, rfl⟩ := ih hrest
        exact ⟨a :: l₁, l₂, rfl, rfl, rfl⟩
      · cases rest with
        | nil =>
          rw [List.append_nil] at hrest
          rw [hrest] at h
          obtain ⟨l₁, l₂, rfl, hnil, rfl⟩ := @ih [] (List.append_cancel_left h)
          exact ⟨a :: l₁, l₂, rfl, by rw [List.flatMap_cons, ← hnil, List.append_nil, hrest], rfl⟩
        | cons b rest =>
          rw [hrest, List.append_assoc, List.cons_append] at h
          obtain ⟨rfl, -⟩ := List.cons.inj (List.append_cancel_left h)
          exact absurd (hrest ▸ List.mem_append_right p List.mem_cons_self) (hf a ha)

end Spelled

/-! ## Parts of a list -/

theorem notMem_of_mem_splitOn {l part : List α} (h : part ∈ l.splitOn sep) : sep ∉ part := by
  induction l generalizing part with
  | nil =>
    rw [List.splitOn_nil, List.mem_singleton] at h
    simp [h]
  | cons a l ih =>
    by_cases ha : a = sep
    · subst ha
      rw [splitOn_cons_self, List.mem_cons] at h
      rcases h with rfl | h
      · simp
      · exact ih h
    · obtain ⟨first, rest, hl⟩ := exists_splitOn_eq_cons sep l
      rw [splitOn_cons_of_ne ha, hl, List.modifyHead_cons, List.mem_cons] at h
      rw [hl] at ih
      rcases h with rfl | h
      · rw [List.mem_cons, not_or]
        exact ⟨Ne.symm ha, ih List.mem_cons_self⟩
      · exact ih (List.mem_cons_of_mem _ h)

omit [DecidableEq α] in
theorem intercalate_around (before : List (List α)) (part : List α) (after : List (List α)) :
    [sep].intercalate (before ++ part :: after) =
      before.flatMap (· ++ [sep]) ++ part ++ after.flatMap (sep :: ·) := by
  induction before with
  | nil =>
    induction after generalizing part with
    | nil => simp
    | cons first after ih =>
      rw [List.nil_append, List.intercalate_cons_cons, ← List.nil_append (first :: after), ih]
      simp
  | cons first before ih =>
    rw [List.cons_append, List.intercalate_cons_of_ne_nil (by simp), ih]
    simp

/-- What stands around one of the parts. -/
theorem join_part {l part : List α} {before after : List (List α)}
    (h : l.splitOn sep = before ++ part :: after) :
    l = before.flatMap (· ++ [sep]) ++ part ++ after.flatMap (sep :: ·) ∧ sep ∉ part := by
  refine ⟨?_, notMem_of_mem_splitOn (l := l) (by simp [h])⟩
  rw [← intercalate_around, ← h, List.intercalate_splitOn]

/-- The first difference of two lists an image tells nothing apart of. -/
theorem first_difference {γ δ : Type*} {f : γ → δ} {l l' : List γ} (h : l.map f = l'.map f)
    (hne : l ≠ l') : ∃ before a a' after after', l = before ++ a :: after ∧
      l' = before ++ a' :: after' ∧ a ≠ a' ∧ f a = f a' := by
  induction l generalizing l' with
  | nil => exact absurd (List.map_eq_nil_iff.mp h.symm).symm hne
  | cons a l ih =>
    obtain ⟨a', l', rfl, ha, hl⟩ := List.map_eq_cons_iff.mp h.symm
    by_cases haa : a = a'
    · subst haa
      obtain ⟨before, b, b', after, after', rfl, rfl, hb, hf⟩ :=
        ih hl.symm fun h => hne (by rw [h])
      exact ⟨a :: before, b, b', after, after', rfl, rfl, hb, hf⟩
    · exact ⟨[], a, a', l, l', rfl, rfl, haa, ha.symm⟩

end Splitting

end Afactory
