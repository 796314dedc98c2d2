import Mathlib.Data.List.Basic
import Mathlib.Tactic.Common

/-!
# Commands that may stop half way

A command reads and writes a state and ends with an answer or with an error. Unlike a chain in
`Except`, an error keeps what was written before it: this is code with a mutable `self` that
returns early.

* `check` reads and may refuse, `update` and `write` change the state and cannot;
* `Transacts c s r`: run from `s`, the command does all of `r` or nothing;
* `Transacts.check`, `Transacts.of_update`, `Transacts.loop`: a command transacts when its
  refusals come before its writes;
* `Triple P c Q E`: from `P` the command answers as `Q` says or refuses as `E` says;
* `Approximates stuck c d`: `d` does what `c` does unless `c` is stuck, as with more fuel.
-/

namespace Afactory

universe u

variable {ε σ α β γ : Type u}

/-- A command over the state `σ`: its answer, and the state it leaves. -/
def Command (ε σ α : Type u) : Type u := σ → Except ε α × σ

namespace Command

/-- What a command answers from a state, and the state it leaves. -/
protected def run (c : Command ε σ α) (s : σ) : Except ε α × σ := c s

protected def pure (a : α) : Command ε σ α := fun s => (.ok a, s)

/-- An error stops the rest and leaves the state as it is then. -/
@[grind =] protected def bind (c : Command ε σ α) (f : α → Command ε σ β) : Command ε σ β := fun s =>
  match c s with
  | (.ok a, s') => f a s'
  | (.error e, s') => (.error e, s')

instance : Monad (Command ε σ) where
  pure := Command.pure
  bind := Command.bind

/-- Read the state, and refuse or answer. -/
def check (f : σ → Except ε α) : Command ε σ α := fun s => (f s, s)

/-- Change the state with an answer. -/
def update (f : σ → α × σ) : Command ε σ α := fun s => (.ok (f s).1, (f s).2)

def write (f : σ → σ) : Command ε σ PUnit := update fun s => (⟨⟩, f s)

/-- `for x in l`. -/
def loop : List γ → (γ → Command ε σ PUnit) → Command ε σ PUnit
  | [], _ => pure ⟨⟩
  | x :: l, body => do
    body x
    loop l body

@[simp] theorem run_pure (a : α) (s : σ) : (pure a : Command ε σ α).run s = (.ok a, s) := rfl

@[simp] theorem run_check (f : σ → Except ε α) (s : σ) : (check f).run s = (f s, s) := rfl

@[simp] theorem run_write (f : σ → σ) (s : σ) :
    (write f : Command ε σ PUnit).run s = (.ok ⟨⟩, f s) := rfl

/-- After a command that answered, the rest runs in the state it left. -/
theorem bind_of_ok {c : Command ε σ α} {k : α → Command ε σ β} {s s' : σ} {a : α}
    (h : c.run s = (.ok a, s')) : (c >>= k).run s = (k a).run s' := by
  show Command.bind c k s = k a s'
  rw [Command.run] at h
  simp [Command.bind, h]

theorem bind_of_error {c : Command ε σ α} {k : α → Command ε σ β} {s s' : σ} {e : ε}
    (h : c.run s = (.error e, s')) : (c >>= k).run s = (.error e, s') := by
  show Command.bind c k s = _
  rw [Command.run] at h
  simp [Command.bind, h]

/-- An answer at the end: the command answered, and so did the rest from the state it left. -/
theorem run_bind_eq_ok {c : Command ε σ α} {k : α → Command ε σ β} {s t : σ} {b : β} :
    (c >>= k).run s = (.ok b, t) ↔
      ∃ a s', c.run s = (.ok a, s') ∧ (k a).run s' = (.ok b, t) := by
  rcases hc : c.run s with ⟨reply, s'⟩
  cases reply with
  | error e =>
    rw [bind_of_error hc]
    simp
  | ok a =>
    rw [bind_of_ok hc]
    simp

theorem check_bind_eq_ok {f : σ → Except ε α} {k : α → Command ε σ β} {s t : σ} {b : β} :
    (check f >>= k).run s = (.ok b, t) ↔ ∃ a, f s = .ok a ∧ (k a).run s = (.ok b, t) := by
  rw [run_bind_eq_ok]
  constructor
  · rintro ⟨a, s', hcheck, hrest⟩
    obtain ⟨hf, rfl⟩ := Prod.mk.inj hcheck
    exact ⟨a, hf, hrest⟩
  · rintro ⟨a, hf, hrest⟩
    exact ⟨a, s, by rw [run_check, hf], hrest⟩

theorem check_ok_bind (a : α) (k : α → Command ε σ β) (s : σ) :
    ((check fun _ => .ok a) >>= k).run s = (k a).run s := rfl

theorem check_error_bind (e : ε) (k : α → Command ε σ β) (s : σ) :
    ((check fun _ => .error e) >>= k).run s = (.error e, s) := rfl

@[simp] theorem update_bind (f : σ → α × σ) (k : α → Command ε σ β) (s : σ) :
    (update f >>= k).run s = (k (f s).1).run (f s).2 := rfl

@[simp] theorem write_bind (f : σ → σ) (k : PUnit → Command ε σ β) (s : σ) :
    (write f >>= k).run s = (k ⟨⟩).run (f s) := rfl

/-! ## All or nothing -/

/-- The reply of a change that is made whole or refused whole. -/
def settle (s : σ) : Except ε σ → Except ε PUnit × σ
  | .ok s' => (.ok ⟨⟩, s')
  | .error e => (.error e, s)

/-- Run from `s` the command does all of `r`, or nothing. -/
def Transacts (c : Command ε σ PUnit) (s : σ) (r : Except ε σ) : Prop := c.run s = settle s r

namespace Transacts

variable {c : Command ε σ PUnit} {s : σ}

/-- A check comes first; what follows transacts from the same state. -/
theorem check {f : σ → Except ε α} {k : α → Command ε σ PUnit} {g : α → Except ε σ}
    (h : ∀ a, f s = .ok a → Transacts (k a) s (g a)) :
    Transacts (check f >>= k) s (f s >>= g) := by
  cases hf : f s with
  | error e =>
    apply bind_of_error
    rw [run_check, hf]
  | ok a =>
    have hrun : (Command.check f).run s = (.ok a, s) := by rw [run_check, hf]
    rw [Transacts, bind_of_ok hrun]
    exact h a hf

/-- The last command is a check that refuses. -/
theorem refuse (e : ε) : Transacts (Command.check fun _ => .error e) s (.error e) := rfl

theorem write (f : σ → σ) : Transacts (Command.write f) s (.ok (f s) : Except ε σ) := rfl

/-- After a command that answered, the rest must answer. -/
theorem of_ok {k : α → Command ε σ PUnit} {c : Command ε σ α} {s' t : σ} {a : α}
    (h : c.run s = (.ok a, s')) (hk : (k a).run s' = (.ok ⟨⟩, t)) :
    Transacts (c >>= k) s (.ok t) := by
  rw [Transacts, bind_of_ok h]
  exact hk

end Transacts

/-- **The loop rule.** A loop whose every round succeeds where the invariant holds ends with the
fold of what the rounds write. -/
theorem run_loop {P : σ → Prop} {write : σ → γ → σ} {body : γ → Command ε σ PUnit}
    {l : List γ}
    (hbody : ∀ s, P s → ∀ x ∈ l, (body x).run s = (.ok ⟨⟩, write s x) ∧ P (write s x))
    {s : σ} (hs : P s) : (loop l body).run s = (.ok ⟨⟩, l.foldl write s) := by
  induction l generalizing s with
  | nil => rfl
  | cons x l ih =>
    obtain ⟨hx, hP⟩ := hbody s hs x List.mem_cons_self
    have hrest := ih (fun s hs y hy => hbody s hs y (List.mem_cons_of_mem _ hy)) hP
    rw [List.foldl_cons, ← hrest]
    exact bind_of_ok hx

/-! ## Preconditions and postconditions -/

/-- From a state where `P` holds, the command answers as `Q` says or refuses as `E` says. -/
def Triple (P : σ → Prop) (c : Command ε σ α) (Q : α → σ → Prop) (E : ε → σ → Prop) : Prop :=
  ∀ s, P s → match c.run s with
    | (.ok a, s') => Q a s'
    | (.error e, s') => E e s'

namespace Triple

variable {P P' : σ → Prop} {Q Q' : α → σ → Prop} {E : ε → σ → Prop} {c : Command ε σ α}

theorem of_ok (h : Triple P c Q E) {s s' : σ} {a : α} (hs : P s) (hrun : c.run s = (.ok a, s')) :
    Q a s' := by
  have hpost := h s hs
  rw [hrun] at hpost
  exact hpost

theorem of_error (h : Triple P c Q E) {s s' : σ} {e : ε} (hs : P s)
    (hrun : c.run s = (.error e, s')) : E e s' := by
  have hpost := h s hs
  rw [hrun] at hpost
  exact hpost

theorem pure {a : α} (h : ∀ s, P s → Q a s) : Triple P (Pure.pure a : Command ε σ α) Q E :=
  fun s hs => h s hs

theorem check {f : σ → Except ε α} (hok : ∀ s a, P s → f s = .ok a → Q a s)
    (herror : ∀ s e, P s → f s = .error e → E e s) : Triple P (Command.check f) Q E := by
  intro s hs
  rw [run_check]
  cases hf : f s with
  | ok a => exact hok s a hs hf
  | error e => exact herror s e hs hf

theorem write {f : σ → σ} {Q : PUnit → σ → Prop} (h : ∀ s, P s → Q ⟨⟩ (f s)) :
    Triple P (Command.write f) Q E := fun s hs => h s hs

/-- **Sequence.** What the first command ensures is where the second starts. -/
theorem bind {R : α → σ → Prop} {k : α → Command ε σ β} {Q : β → σ → Prop}
    (hc : Triple P c R E) (hk : ∀ a, Triple (R a) (k a) Q E) : Triple P (c >>= k) Q E := by
  intro s hs
  rcases hrun : c.run s with ⟨reply, s'⟩
  cases reply with
  | ok a =>
    rw [bind_of_ok hrun]
    exact hk a s' (hc.of_ok hs hrun)
  | error e =>
    rw [bind_of_error hrun]
    exact hc.of_error hs hrun

/-- A fact that is no matter of the state. -/
theorem of_fact {p : Prop} (h : p → Triple P c Q E) : Triple (fun s => p ∧ P s) c Q E :=
  fun s hs => h hs.1 s hs.2

end Triple

/-! ## Running out of fuel -/

/-- The second command does what the first does, unless the first is stuck. -/
def Approximates (stuck : ε) (c d : Command ε σ α) : Prop :=
  ∀ s, (c.run s).1 = .error stuck ∨ d.run s = c.run s

namespace Approximates

variable {stuck : ε} {c d e : Command ε σ α}

theorem refl (c : Command ε σ α) : Approximates stuck c c := fun _ => .inr rfl

theorem of_stuck : Approximates stuck (Command.check fun _ => .error stuck) d := fun _ => .inl rfl

theorem trans (hcd : Approximates stuck c d) (hde : Approximates stuck d e) :
    Approximates stuck c e := by
  intro s
  rcases hcd s with hstuck | hsame
  · exact .inl hstuck
  rcases hde s with hstuck | hsame'
  · exact .inl (hsame ▸ hstuck)
  · exact .inr (hsame'.trans hsame)

theorem bind {k l : α → Command ε σ β} (hc : Approximates stuck c d)
    (hk : ∀ a, Approximates stuck (k a) (l a)) : Approximates stuck (c >>= k) (d >>= l) := by
  intro s
  rcases hrun : c.run s with ⟨reply, s'⟩
  rcases hc s with hstuck | hsame
  · rw [hrun] at hstuck
    obtain rfl : reply = .error stuck := hstuck
    left
    rw [bind_of_error hrun]
  cases reply with
  | ok a =>
    rw [bind_of_ok hrun, bind_of_ok (hsame.trans hrun)]
    exact hk a s'
  | error err =>
    right
    rw [bind_of_error hrun, bind_of_error (hsame.trans hrun)]

/-- **More fuel.** Where one more unit approximates, any more does. -/
theorem of_le {c : ℕ → Command ε σ α} (h : ∀ n, Approximates stuck (c n) (c (n + 1))) {m n : ℕ}
    (hle : m ≤ n) : Approximates stuck (c m) (c n) := by
  obtain ⟨extra, rfl⟩ := Nat.exists_eq_add_of_le hle
  clear hle
  induction extra with
  | zero => exact refl _
  | succ extra ih => exact ih.trans (h (m + extra))

/-- A run that is not stuck is the run of the second command. -/
theorem run_eq (h : Approximates stuck c d) {s : σ} (hrun : (c.run s).1 ≠ .error stuck) :
    d.run s = c.run s := (h s).resolve_left hrun

end Approximates

end Command

end Afactory
