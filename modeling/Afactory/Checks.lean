import Mathlib

/-!
# Chains of checks

A validation is a chain in `Except ε`: it stops at the first refusal. These are
the rules that take an accepted chain apart: what each check accepted
(`bind_eq_ok`, `forM_eq_ok`) and what an accumulating loop of checks computed
(`foldlM_invariant`, `foldlM_sum`).
-/

namespace Afactory

universe u v w

variable {ε : Type u} {α β σ : Type v}

/-- An accepted chain: its first check answered and the rest accepted that answer. -/
theorem bind_eq_ok {x : Except ε α} {f : α → Except ε β} {b : β} :
    (x >>= f) = .ok b ↔ ∃ a, x = .ok a ∧ f a = .ok b := by
  cases x with
  | error e =>
    constructor
    · intro h
      cases h
    · rintro ⟨a, h, -⟩
      cases h
  | ok a =>
    constructor
    · intro h
      exact ⟨a, rfl, h⟩
    · rintro ⟨a', h, hf⟩
      cases h
      exact hf

theorem ok_bind (a : α) (f : α → Except ε β) : (Except.ok a >>= f) = f a := rfl

theorem error_bind (e : ε) (f : α → Except ε β) : (Except.error e >>= f) = .error e := rfl

theorem toOption_eq_some {x : Except ε α} {a : α} : x.toOption = some a ↔ x = .ok a := by
  cases x <;> simp [Except.toOption]

/-- A refused chain: its first check refused, or the rest did. -/
theorem bind_eq_error {x : Except ε α} {f : α → Except ε β} {e : ε} :
    (x >>= f) = .error e ↔ x = .error e ∨ ∃ a, x = .ok a ∧ f a = .error e := by
  cases x with
  | error e' =>
    constructor
    · intro h
      cases h
      exact .inl rfl
    · rintro (h | ⟨a, h, -⟩)
      · cases h
        rfl
      · cases h
  | ok a =>
    constructor
    · intro h
      exact .inr ⟨a, rfl, h⟩
    · rintro (h | ⟨a', h, hf⟩)
      · cases h
      · cases h
        exact hf

theorem forM_cons {γ : Type w} (f : γ → Except ε PUnit.{v + 1}) (x : γ) (l : List γ) :
    (x :: l).forM f = f x >>= fun _ => l.forM f := rfl

theorem forM_eq_ok {γ : Type w} {f : γ → Except ε PUnit.{v + 1}} {l : List γ} :
    l.forM f = .ok ⟨⟩ ↔ ∀ x ∈ l, f x = .ok ⟨⟩ := by
  induction l with
  | nil => exact ⟨fun _ x hx => absurd hx List.not_mem_nil, fun _ => rfl⟩
  | cons x l ih =>
    rw [forM_cons, bind_eq_ok, List.forall_mem_cons, ← ih]
    constructor
    · rintro ⟨a, h₁, h₂⟩
      exact ⟨h₁, h₂⟩
    · rintro ⟨h₁, h₂⟩
      exact ⟨⟨⟩, h₁, h₂⟩

/-- A refused loop of checks: one of them refused. -/
theorem forM_eq_error {γ : Type w} {f : γ → Except ε PUnit.{v + 1}} {l : List γ} {e : ε}
    (h : l.forM f = .error e) : ∃ x ∈ l, f x = .error e := by
  induction l with
  | nil => cases h
  | cons x l ih =>
    rw [forM_cons, bind_eq_error] at h
    rcases h with h | ⟨_, -, h⟩
    · exact ⟨x, List.mem_cons_self, h⟩
    · obtain ⟨y, hy, hf⟩ := ih h
      exact ⟨y, List.mem_cons_of_mem _ hy, hf⟩

/-- **The loop rule.** A property of the accumulator that every accepted step keeps. -/
theorem foldlM_invariant {γ : Type w} {f : σ → γ → Except ε σ} {P : σ → Prop} {l : List γ}
    (hstep : ∀ s x s', x ∈ l → P s → f s x = .ok s' → P s') {s s' : σ} (hs : P s)
    (h : l.foldlM f s = .ok s') : P s' := by
  induction l generalizing s with
  | nil =>
    cases h
    exact hs
  | cons x l ih =>
    rw [List.foldlM_cons, bind_eq_ok] at h
    obtain ⟨t, ht, h⟩ := h
    exact ih (fun s x s' hx => hstep s x s' (List.mem_cons_of_mem _ hx))
      (hstep s x t List.mem_cons_self hs ht) h

/-- An accepted loop of checked sums computes the sum. -/
theorem foldlM_sum {γ : Type w} {f : σ → γ → Except ε σ} {r : σ → ℕ} {g : γ → ℕ} {l : List γ}
    (hstep : ∀ s x s', f s x = .ok s' → r s' = r s + g x) {s s' : σ}
    (h : l.foldlM f s = .ok s') : r s' = r s + (l.map g).sum := by
  induction l generalizing s with
  | nil =>
    cases h
    rfl
  | cons x l ih =>
    rw [List.foldlM_cons, bind_eq_ok] at h
    obtain ⟨t, ht, h⟩ := h
    rw [ih h, hstep s x t ht, List.map_cons, List.sum_cons, Nat.add_assoc]

/-- A refused loop of checks: one of its steps refused. -/
theorem foldlM_eq_error {γ : Type w} {f : σ → γ → Except ε σ} {l : List γ} {s : σ} {e : ε}
    (h : l.foldlM f s = .error e) : ∃ t, ∃ x ∈ l, f t x = .error e := by
  induction l generalizing s with
  | nil => cases h
  | cons x l ih =>
    rw [List.foldlM_cons, bind_eq_error] at h
    rcases h with h | ⟨t, -, h⟩
    · exact ⟨s, x, List.mem_cons_self, h⟩
    · obtain ⟨t', y, hy, hf⟩ := ih h
      exact ⟨t', y, List.mem_cons_of_mem _ hy, hf⟩

/-- The step a loop refuses at, and the steps it accepted before. -/
theorem foldlM_error_split {γ : Type w} {f : σ → γ → Except ε σ} {l : List γ} {s : σ} {e : ε}
    (h : l.foldlM f s = .error e) :
    ∃ l₁ x l₂ t, l = l₁ ++ x :: l₂ ∧ l₁.foldlM f s = .ok t ∧ f t x = .error e := by
  induction l generalizing s with
  | nil => cases h
  | cons x l ih =>
    rw [List.foldlM_cons, bind_eq_error] at h
    rcases h with h | ⟨t, ht, h⟩
    · exact ⟨[], x, l, s, rfl, rfl, h⟩
    · obtain ⟨l₁, y, l₂, t', rfl, hbefore, hf⟩ := ih h
      refine ⟨x :: l₁, y, l₂, t', rfl, ?_, hf⟩
      rw [List.foldlM_cons, bind_eq_ok]
      exact ⟨t, ht, hbefore⟩

/-- Every step of an accepted loop was accepted. -/
theorem foldlM_steps {γ : Type w} {f : σ → γ → Except ε σ} {l : List γ} {s s' : σ}
    (h : l.foldlM f s = .ok s') {x : γ} (hx : x ∈ l) : ∃ t t', f t x = .ok t' := by
  induction l generalizing s with
  | nil => cases hx
  | cons y l ih =>
    rw [List.foldlM_cons, bind_eq_ok] at h
    obtain ⟨t, ht, h⟩ := h
    rcases List.mem_cons.mp hx with rfl | hx
    · exact ⟨s, t, ht⟩
    · exact ih h hx

/-- Two loops over the same entries: what one accepts the other accepts, related states staying
related. -/
theorem foldlM_simulates {γ : Type w} {τ : Type*} {f : σ → γ → Except ε σ} {g : τ → γ → Except ε τ}
    {R : σ → τ → Prop} {l : List γ}
    (hstep : ∀ s x s' t, x ∈ l → R s t → f s x = .ok s' → ∃ t', g t x = .ok t' ∧ R s' t')
    {s s' : σ} {t : τ} (hR : R s t) (h : l.foldlM f s = .ok s') :
    ∃ t', l.foldlM g t = .ok t' ∧ R s' t' := by
  induction l generalizing s t with
  | nil =>
    cases h
    exact ⟨t, rfl, hR⟩
  | cons x l ih =>
    rw [List.foldlM_cons, bind_eq_ok] at h
    obtain ⟨next, hnext, h⟩ := h
    obtain ⟨next', hnext', hR'⟩ := hstep s x next t List.mem_cons_self hR hnext
    obtain ⟨t', ht', hfinal⟩ :=
      ih (fun s x s' t hx => hstep s x s' t (List.mem_cons_of_mem _ hx)) hR' h
    refine ⟨t', ?_, hfinal⟩
    rw [List.foldlM_cons, hnext', ok_bind]
    exact ht'

/-- What each step achieves and later steps keep holds at the end. -/
theorem foldlM_each {γ : Type w} {f : σ → γ → Except ε σ} {P : γ → σ → Prop} {l : List γ} {s s' : σ}
    (hstep : ∀ s x s', f s x = .ok s' → P x s') (hkeep : ∀ y s x s', P y s → f s x = .ok s' → P y s')
    (h : l.foldlM f s = .ok s') : ∀ x ∈ l, P x s' := by
  induction l generalizing s with
  | nil => exact nofun
  | cons x l ih =>
    rw [List.foldlM_cons, bind_eq_ok] at h
    obtain ⟨t, ht, h⟩ := h
    rw [List.forall_mem_cons]
    refine ⟨?_, ih h⟩
    exact foldlM_invariant (fun s y s' _ hs hy => hkeep x s y s' hs hy) (hstep s x t ht) h

/-- Where an accumulating loop refuses, the sum so far and the entry it refuses are part of
the sum over all entries. -/
theorem foldlM_refused_le {γ : Type w} {f : σ → γ → Except ε σ} {r : σ → ℕ} {g : γ → ℕ}
    {l l₁ l₂ : List γ} {x : γ} (hstep : ∀ s x s', f s x = .ok s' → r s' = r s + g x) {s t : σ}
    (hl : l = l₁ ++ x :: l₂) (h : l₁.foldlM f s = .ok t) : r t + g x ≤ r s + (l.map g).sum := by
  rw [foldlM_sum hstep h, hl, List.map_append, List.sum_append, List.map_cons, List.sum_cons]
  omega

/-- A chain on an optional value: the answer is there when the value was. -/
theorem mapM_eq_some {f : α → Except ε β} {o : Option α} {b : β}
    (h : o.mapM f = .ok (some b)) : ∃ a, o = some a ∧ f a = .ok b := by
  cases o with
  | none => cases h
  | some a =>
    refine ⟨a, rfl, ?_⟩
    cases hf : f a with
    | error e => simp [Option.mapM, hf, Functor.map, Except.map] at h
    | ok b' =>
      simp [Option.mapM, hf, Functor.map, Except.map] at h
      rw [h]

theorem mapM_eq_none {f : α → Except ε β} {o : Option α} (h : o.mapM f = .ok none) : o = none := by
  cases o with
  | none => rfl
  | some a => cases hf : f a <;> simp [Option.mapM, hf, Functor.map, Except.map] at h

theorem mapError_eq_ok {ε' : Type*} {f : ε → ε'} {x : Except ε α} {a : α} :
    x.mapError f = .ok a ↔ x = .ok a := by
  cases x <;> simp [Except.mapError]

/-- A list of accepted answers, where each is a function of what it answers. -/
theorem mapM_eq_ok_map {f : α → Except ε β} {g : α → β} (hg : ∀ {a b}, f a = .ok b → b = g a)
    {xs : List α} {ys : List β} (h : xs.mapM f = .ok ys) :
    ys = xs.map g ∧ ∀ x ∈ xs, f x = .ok (g x) := by
  induction xs generalizing ys with
  | nil =>
    cases h
    exact ⟨rfl, nofun⟩
  | cons x xs ih =>
    rw [List.mapM_cons] at h
    obtain ⟨y, hy, h⟩ := bind_eq_ok.mp h
    obtain ⟨rest, hrest, h⟩ := bind_eq_ok.mp h
    cases h
    obtain ⟨rfl, hall⟩ := ih hrest
    obtain rfl := hg hy
    exact ⟨rfl, List.forall_mem_cons.mpr ⟨hy, hall⟩⟩

/-- The accepted answers of a list, one by one. -/
theorem mapM_forall₂ {f : α → Except ε β} {xs : List α} {ys : List β} (h : xs.mapM f = .ok ys) :
    List.Forall₂ (fun x y => f x = .ok y) xs ys := by
  induction xs generalizing ys with
  | nil =>
    cases h
    exact .nil
  | cons x xs ih =>
    rw [List.mapM_cons] at h
    obtain ⟨y, hy, h⟩ := bind_eq_ok.mp h
    obtain ⟨rest, hrest, h⟩ := bind_eq_ok.mp h
    cases h
    exact .cons hy (ih hrest)

theorem mapM_eq_ok_iff {f : α → Except ε β} {xs : List α} {ys : List β} :
    xs.mapM f = .ok ys ↔ List.Forall₂ (fun x y => f x = .ok y) xs ys := by
  refine ⟨mapM_forall₂, fun h => ?_⟩
  induction h with
  | nil => rfl
  | cons hx _ ih => rw [List.mapM_cons, hx, ok_bind, ih, ok_bind]; rfl

/-- A list whose members are all accepted is. -/
theorem exists_mapM_eq_ok {f : α → Except ε β} {xs : List α} (h : ∀ x ∈ xs, ∃ y, f x = .ok y) :
    ∃ ys, xs.mapM f = .ok ys := by
  induction xs with
  | nil => exact ⟨[], rfl⟩
  | cons x xs ih =>
    obtain ⟨y, hy⟩ := h x List.mem_cons_self
    obtain ⟨ys, hys⟩ := ih fun x' hx' => h x' (List.mem_cons_of_mem _ hx')
    exact ⟨y :: ys, by rw [List.mapM_cons, hy, ok_bind, hys, ok_bind]; rfl⟩

/-! ## What every accepted answer satisfies -/

/-- Every answer the chain accepts satisfies `P`. -/
def Yields (P : α → Prop) (x : Except ε α) : Prop := ∀ a, x = .ok a → P a

theorem Yields.bind {P : β → Prop} {x : Except ε α} {f : α → Except ε β}
    (h : ∀ a, x = .ok a → Yields P (f a)) : Yields P (x >>= f) := by
  intro b hb
  obtain ⟨a, ha, hf⟩ := bind_eq_ok.mp hb
  exact h a ha b hf

theorem Yields.pure {P : α → Prop} {a : α} (h : P a) : Yields P (pure a : Except ε α) := by
  rintro b ⟨⟩
  exact h

theorem Yields.ok {P : α → Prop} {a : α} (h : P a) : Yields P (Except.ok a : Except ε α) := by
  rintro b ⟨⟩
  exact h

theorem Yields.error {P : α → Prop} {e : ε} : Yields P (Except.error e) := by
  rintro b ⟨⟩

theorem Yields.throw {P : α → Prop} {e : ε} : Yields P (throw e : Except ε α) := by
  rintro b ⟨⟩

/-! ## What every refusal satisfies -/

/-- Every error the chain refuses with satisfies `P`. -/
def Refuses (P : ε → Prop) (x : Except ε α) : Prop := ∀ e, x = .error e → P e

theorem Refuses.bind {P : ε → Prop} {x : Except ε α} {f : α → Except ε β} (hx : Refuses P x)
    (h : ∀ a, x = .ok a → Refuses P (f a)) : Refuses P (x >>= f) := by
  intro e he
  rcases bind_eq_error.mp he with he | ⟨a, ha, he⟩
  · exact hx e he
  · exact h a ha e he

theorem Refuses.ok {P : ε → Prop} {a : α} : Refuses P (Except.ok a : Except ε α) := by
  rintro e ⟨⟩

theorem Refuses.pure {P : ε → Prop} {a : α} : Refuses P (pure a : Except ε α) := by
  rintro e ⟨⟩

theorem Refuses.error {P : ε → Prop} {e : ε} (h : P e) : Refuses P (Except.error e : Except ε α) := by
  rintro _ ⟨⟩
  exact h

theorem Refuses.throw {P : ε → Prop} {e : ε} (h : P e) : Refuses P (throw e : Except ε α) := by
  rintro _ ⟨⟩
  exact h

theorem Refuses.ite {P : ε → Prop} {c : Prop} [Decidable c] {x y : Except ε α}
    (hx : c → Refuses P x) (hy : ¬c → Refuses P y) : Refuses P (if c then x else y) := by
  split_ifs with hc
  · exact hx hc
  · exact hy hc

theorem Refuses.mapM {P : ε → Prop} {f : α → Except ε β} {l : List α}
    (h : ∀ a ∈ l, Refuses P (f a)) : Refuses P (l.mapM f) := by
  induction l with
  | nil => exact Refuses.pure
  | cons a l ih =>
    rw [List.mapM_cons]
    refine (h a List.mem_cons_self).bind fun b _ => ?_
    exact (ih fun a' ha' => h a' (List.mem_cons_of_mem _ ha')).bind fun bs _ => Refuses.pure

/-- A loop whose steps refuse as `P` says where the invariant holds. -/
theorem Refuses.foldlM {γ : Type w} {P : ε → Prop} {I : σ → Prop} {f : σ → γ → Except ε σ}
    {l : List γ} (hstep : ∀ s x s', x ∈ l → I s → f s x = .ok s' → I s')
    (hrefuse : ∀ s x, x ∈ l → I s → Refuses P (f s x)) {s : σ} (hs : I s) :
    Refuses P (l.foldlM f s) := by
  intro e he
  obtain ⟨l₁, x, l₂, t, rfl, hbefore, hlast⟩ := foldlM_error_split he
  have ht : I t := foldlM_invariant (fun s y s' hy hI h =>
    hstep s y s' (List.mem_append_left _ hy) hI h) hs hbefore
  exact hrefuse t x (List.mem_append_right _ List.mem_cons_self) ht e hlast

theorem mapError_eq_error {ε ε' α : Type*} {f : ε → ε'} {x : Except ε α} {e : ε'} :
    x.mapError f = .error e ↔ ∃ e', x = .error e' ∧ f e' = e := by
  cases x <;> simp [Except.mapError]

end Afactory
