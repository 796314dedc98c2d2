import Mathlib.Data.List.Lex
import Mathlib.Data.Finite.Defs
import Mathlib.Data.Fintype.EquivFin
import Mathlib.Data.Set.Finite.Basic
import Mathlib.Logic.Relation
import Mathlib.Order.WellFounded
import Mathlib.Order.Defs.LinearOrder

/-!
# Greedy topological orders

Nodes of a finite set, some of which must come before others. An order that takes the least ready
node again and again is the least of all topological orders.

* `Topological`: each node once, after those that must come before it;
* `Ready`: what may come next;
* `Greedy`: an order of least ready nodes;
* `Greedy.least`, `Greedy.unique`: it comes lexicographically first, and is the only one;
* `exists_ready`: without cycles something is ready while nodes are left.
-/

namespace Afactory.GreedyOrder

variable {α : Type*} {nodes : Set α} {before : α → α → Prop} {l l' front back : List α} {x y : α}

/-- Every node stands once in the list, after those before it. -/
structure Topological (nodes : Set α) (before : α → α → Prop) (l : List α) : Prop where
  nodup : l.Nodup
  mem_iff : ∀ x, x ∈ l ↔ x ∈ nodes
  ordered : ∀ front y back, l = front ++ y :: back → ∀ x, before x y → x ∈ front

/-- A node not taken yet, all of whose predecessors are. -/
structure Ready (nodes : Set α) (before : α → α → Prop) (front : List α) (y : α) : Prop where
  mem : y ∈ nodes
  left : y ∉ front
  waits : ∀ x, before x y → x ∈ front

/-- No node comes before itself, directly or not. -/
def Acyclic (before : α → α → Prop) : Prop := ∀ x, ¬ Relation.TransGen before x x

/-- In a topological order, what comes after a beginning is ready at its turn. -/
theorem Topological.ready (h : Topological nodes before (front ++ y :: back)) :
    Ready nodes before front y where
  mem := (h.mem_iff y).mp (by simp)
  left hmem := (List.disjoint_of_nodup_append h.nodup) hmem List.mem_cons_self
  waits x hx := h.ordered front y back rfl x hx

/-- A beginning is a topological order of its own nodes. -/
theorem Topological.beginning (h : Topological nodes before (front ++ back)) :
    Topological {x | x ∈ front} before front where
  nodup := (List.nodup_append.mp h.nodup).1
  mem_iff _ := Iff.rfl
  ordered front' y back' hsplit x hx :=
    h.ordered front' y (back' ++ back) (by simp [hsplit]) x hx

/-- Whatever may be ordered has no cycle. -/
theorem Topological.acyclic (h : Topological nodes before l)
    (hnodes : ∀ x y, before x y → y ∈ nodes) : Acyclic before := by
  intro x hcycle
  -- along the relation, every beginning that holds the later node holds the earlier one
  have hfront : ∀ a b, Relation.TransGen before a b → ∀ front back, l = front ++ b :: back →
      a ∈ front := by
    intro a b hab
    induction hab with
    | single hone => exact fun front back hl => h.ordered front _ back hl _ hone
    | tail _ hone ih =>
      intro front back hl
      have hmem := h.ordered front _ back hl _ hone
      obtain ⟨front', back', rfl⟩ := List.append_of_mem hmem
      exact List.mem_append_left _ (ih front' (back' ++ _ :: back) (by simpa using hl))
  have hmem : x ∈ nodes := by
    obtain ⟨w, -, hw⟩ := (Relation.TransGen.tail'_iff).mp hcycle
    exact hnodes w x hw
  obtain ⟨front, back, hl⟩ := List.append_of_mem ((h.mem_iff x).mpr hmem)
  have hin := hfront x x hcycle front back hl
  have hnodup := h.nodup
  rw [hl] at hnodup
  exact (List.disjoint_of_nodup_append hnodup) hin List.mem_cons_self

/-- **Something is ready** while nodes are left, if none comes before itself. -/
theorem exists_ready (hfinite : nodes.Finite) (hacyclic : Acyclic before)
    (hnodes : ∀ x y, before x y → x ∈ nodes) (hleft : ∃ x ∈ nodes, x ∉ front) :
    ∃ y, Ready nodes before front y := by
  let rest : Set α := {x | x ∈ nodes ∧ x ∉ front}
  have hrest : Finite rest := (hfinite.subset fun x hx => hx.1).to_subtype
  let earlier : rest → rest → Prop := fun a b => Relation.TransGen before a.1 b.1
  have htrans : IsTrans rest earlier := ⟨fun a b c hab hbc => hab.trans hbc⟩
  have hirrefl : Std.Irrefl earlier := ⟨fun a h => hacyclic a.1 h⟩
  have hwf : WellFounded earlier := Finite.wellFounded_of_trans_of_irrefl earlier
  obtain ⟨x, hx, hfront⟩ := hleft
  obtain ⟨y, -, hleast⟩ := hwf.has_min Set.univ ⟨⟨x, hx, hfront⟩, trivial⟩
  refine ⟨y.1, y.2.1, y.2.2, fun w hw => ?_⟩
  by_contra hnot
  exact hleast ⟨w, hnodes w y.1 hw, hnot⟩ trivial (.single hw)

section Least

variable [LinearOrder α]

/-- At every place stands the least node that is ready there. -/
def Greedy (nodes : Set α) (before : α → α → Prop) (l : List α) : Prop :=
  ∀ front y back, l = front ++ y :: back → ∀ z, Ready nodes before front z → y ≤ z

/-- **The greedy order comes first** of all topological orders. -/
theorem Greedy.least (h : Greedy nodes before l) (hl : Topological nodes before l)
    (hl' : Topological nodes before l') : l = l' ∨ List.Lex (· < ·) l l' := by
  have hfrom : ∀ front back back', l = front ++ back → l' = front ++ back' →
      back = back' ∨ List.Lex (· < ·) back back' := by
    intro front back
    induction back generalizing front with
    | nil =>
      intro back' hfront hfront'
      cases back' with
      | nil => exact .inl rfl
      | cons y back' =>
        -- the first order is complete, so that nothing is left for the second
        rw [List.append_nil] at hfront
        subst hfront hfront'
        have hready := hl'.ready
        exact absurd ((hl.mem_iff y).mpr hready.mem) hready.left
    | cons x back ih =>
      intro back' hfront hfront'
      cases back' with
      | nil =>
        rw [List.append_nil] at hfront'
        subst hfront hfront'
        have hready := hl.ready
        exact absurd ((hl'.mem_iff x).mpr hready.mem) hready.left
      | cons y back' =>
        subst hfront'
        rcases (h front x back hfront y hl'.ready).lt_or_eq with hlt | rfl
        · exact .inr (.rel hlt)
        · rcases ih (front ++ [x]) back' (by simpa using hfront) (by simp) with rfl | hlex
          · exact .inl rfl
          · exact .inr (.cons hlex)
  exact hfrom [] l l' rfl rfl

/-- There is one greedy topological order. -/
theorem Greedy.unique (h : Greedy nodes before l) (hl : Topological nodes before l)
    (h' : Greedy nodes before l') (hl' : Topological nodes before l') : l = l' := by
  rcases h.least hl hl' with heq | hlt
  · exact heq
  · rcases h'.least hl' hl with heq | hgt
    · exact heq.symm
    · exact absurd hgt (Std.Asymm.asymm _ _ hlt)

end Least

end Afactory.GreedyOrder
