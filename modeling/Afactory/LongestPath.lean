import Mathlib
import Afactory.GreedyOrder

/-!
# Longest chains of a topological order

Nodes with weights, each of which may come after others. A table that gives each node the weight
of the heaviest chain ending there, and the node before it on such a chain, is filled in
topological order and read backwards.

* `total`: the weight of a chain;
* `Longest`: what the table says of the nodes it has;
* `Longest.extend`: the table grows by one node after all that come before it;
* `Longest.total_le`: no chain is heavier than the table says of its last node;
* `Longest.walk_chain`: walking back from a node ends, and gives a chain of that weight.
-/

namespace Afactory.LongestPath

open GreedyOrder

variable {α : Type*} {nodes : Set α} {before : α → α → Prop} {weight best best' : α → ℕ}
  {previous previous' : α → Option α} {x y : α} {l c : List α}

/-- The weight of a list of nodes. -/
def total (weight : α → ℕ) (c : List α) : ℕ := (c.map weight).sum

@[simp] theorem total_nil : total weight [] = 0 := rfl

@[simp] theorem total_append (c c' : List α) :
    total weight (c ++ c') = total weight c + total weight c' := by
  simp [total]

@[simp] theorem total_singleton (x : α) : total weight [x] = weight x := by
  simp [total]

/-- Every node has the weight of the heaviest chain ending there: its own, if nothing comes
before it, or else with the heaviest of those that do. -/
structure Longest (nodes : Set α) (before : α → α → Prop) (weight best : α → ℕ)
    (previous : α → Option α) : Prop where
  first : ∀ x ∈ nodes, previous x = none → (∀ y, ¬ before y x) ∧ best x = weight x
  next : ∀ x ∈ nodes, ∀ y, previous x = some y →
    before y x ∧ best x = best y + weight x ∧ ∀ z, before z x → best z ≤ best y

theorem longest_empty : Longest ∅ before weight best previous :=
  ⟨fun _ hx => hx.elim, fun _ hx => hx.elim⟩

/-- **The table grows** by one node, the rest of it unchanged. -/
theorem Longest.extend (h : Longest nodes before weight best previous)
    (hclosed : ∀ y ∈ insert x nodes, ∀ z, before z y → z ∈ nodes)
    (hsame : ∀ y ∈ nodes, best' y = best y ∧ previous' y = previous y)
    (hfirst : previous' x = none → (∀ y, ¬ before y x) ∧ best' x = weight x)
    (hnext : ∀ y, previous' x = some y →
      before y x ∧ best' x = best y + weight x ∧ ∀ z, before z x → best z ≤ best y) :
    Longest (insert x nodes) before weight best' previous' := by
  have hbest : ∀ y ∈ insert x nodes, ∀ z, before z y → best' z = best z :=
    fun y hy z hz => (hsame z (hclosed y hy z hz)).1
  constructor
  · rintro y (rfl | hy) hprevious
    · exact hfirst hprevious
    · rw [(hsame y hy).2] at hprevious
      rw [(hsame y hy).1]
      exact h.first y hy hprevious
  · rintro y hmem w hprevious
    have hrow : before w y ∧ best' y = best w + weight y ∧ ∀ z, before z y → best z ≤ best w := by
      rcases hmem with rfl | hy
      · exact hnext w hprevious
      · rw [(hsame y hy).2] at hprevious
        rw [(hsame y hy).1]
        exact h.next y hy w hprevious
    obtain ⟨hbefore, hsum, hlargest⟩ := hrow
    rw [hbest y hmem w hbefore]
    refine ⟨hbefore, hsum, fun z hz => ?_⟩
    rw [hbest y hmem z hz]
    exact hlargest z hz

/-- **No chain is heavier** than the table says of its last node. -/
theorem Longest.total_le (h : Longest nodes before weight best previous)
    (hnodes : ∀ y ∈ c ++ [x], y ∈ nodes) (hchain : (c ++ [x]).IsChain before) :
    total weight (c ++ [x]) ≤ best x := by
  induction c using List.reverseRecOn generalizing x with
  | nil =>
    have hx : x ∈ nodes := hnodes x (by simp)
    cases hprevious : previous x with
    | none => simp [(h.first x hx hprevious).2]
    | some y =>
      obtain ⟨-, hsum, -⟩ := h.next x hx y hprevious
      simp [hsum]
  | append_singleton c w ih =>
    have hx : x ∈ nodes := hnodes x (by simp)
    obtain ⟨hfront, -, hlast⟩ := List.isChain_append.mp hchain
    have hbefore : before w x := hlast w (by simp) x (by simp)
    have hle : total weight (c ++ [w]) ≤ best w :=
      ih (fun y hy => hnodes y (List.mem_append_left _ hy)) hfront
    cases hprevious : previous x with
    | none => exact absurd hbefore ((h.first x hx hprevious).1 w)
    | some y =>
      obtain ⟨-, hsum, hlargest⟩ := h.next x hx y hprevious
      rw [total_append, total_singleton, hsum]
      exact Nat.add_le_add_right (hle.trans (hlargest w hbefore)) _

/-- The nodes met walking back from a node, that node first. -/
def walk (previous : α → Option α) : ℕ → Option α → Option (List α)
  | _, none => some []
  | 0, some _ => none
  | n + 1, some x => (walk previous n (previous x)).map (x :: ·)

/-- **Walking back ends**, after no more rounds than there are nodes up to the one it starts
from, with a chain of the weight the table says. -/
theorem Longest.walk_chain (h : Longest nodes before weight best previous)
    (hl : Topological nodes before l) (front back : List α) (hsplit : l = front ++ x :: back) :
    ∃ c, (c ++ [x]).IsChain before ∧ (∀ y ∈ c ++ [x], y ∈ nodes) ∧
      total weight (c ++ [x]) = best x ∧
      ∀ n, front.length < n → walk previous n (some x) = some (c ++ [x]).reverse := by
  induction hn : front.length using Nat.strongRecOn generalizing x front back with
  | _ n ih =>
    have hx : x ∈ nodes := (hl.mem_iff x).mp (by simp [hsplit])
    cases hprevious : previous x with
    | none =>
      refine ⟨[], by simp, by simpa using hx, by simp [(h.first x hx hprevious).2], ?_⟩
      rintro (_ | m) hm
      · omega
      · simp [walk, hprevious]
    | some y =>
      obtain ⟨hbefore, hsum, -⟩ := h.next x hx y hprevious
      -- the node before stands earlier in the order
      obtain ⟨front', back', rfl⟩ :=
        List.append_of_mem (hl.ordered front x back hsplit y hbefore)
      obtain ⟨c, hchain, hnodes, htotal, hwalk⟩ :=
        ih front'.length (by subst hn; simp) front' (back' ++ x :: back)
          (by simpa using hsplit) rfl
      refine ⟨c ++ [y], ?_, ?_, ?_, ?_⟩
      · exact List.isChain_append.mpr ⟨hchain, by simp, by simpa using hbefore⟩
      · intro z hz
        rcases List.mem_append.mp hz with hz | hz
        · exact hnodes z hz
        · rwa [List.mem_singleton.mp hz]
      · rw [total_append, htotal, total_singleton, hsum]
      · rintro (_ | m) hm
        · omega
        · have hlt : front'.length < m := by
            subst hn
            simp at hm
            omega
          simp [walk, hprevious, hwalk m hlt]

end Afactory.LongestPath
