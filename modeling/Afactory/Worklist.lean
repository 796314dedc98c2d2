import Mathlib

/-!
# Reachability by a worklist

A search keeps the nodes it has visited and a list of the nodes it has still to look at. It may
leave out nodes it has visited; when the list is empty, it has visited what the roots reach.

* `Reachable`: a walk from a root leads to a node;
* `Frontier`: what holds between two steps of a search;
* `Frontier.start`, `Frontier.skip`, `Frontier.visit`: the steps keep it;
* `Frontier.done`: a finished search;
* `Reachable.keep`: dropping what is not reached drops no walk.
-/

namespace Afactory

namespace Worklist

variable {V : Type*} {next : V → V → Prop} {root : V → Prop}

/-- A walk from a root leads to the node. -/
def Reachable (next : V → V → Prop) (root : V → Prop) (v : V) : Prop :=
  ∃ r, root r ∧ Relation.ReflTransGen next r v

theorem Reachable.of_root {r : V} (h : root r) : Reachable next root r :=
  ⟨r, h, Relation.ReflTransGen.refl⟩

theorem Reachable.step {v w : V} (h : Reachable next root v) (hnext : next v w) :
    Reachable next root w := by
  obtain ⟨r, hr, hwalk⟩ := h
  exact ⟨r, hr, hwalk.tail hnext⟩

/-- What holds of the roots and is kept along every edge holds of what is reached. -/
theorem Reachable.rule {v : V} (h : Reachable next root v) (P : V → Prop)
    (hroot : ∀ r, root r → P r)
    (hnext : ∀ v w, Reachable next root v → P v → next v w → P w) : P v := by
  obtain ⟨r, hr, hwalk⟩ := h
  induction hwalk with
  | refl => exact hroot r hr
  | tail hwalk hedge ih => exact hnext _ _ ⟨r, hr, hwalk⟩ ih hedge

/-- The nodes visited, none twice, and those still to be looked at. -/
structure Frontier (next : V → V → Prop) (root : V → Prop) (visited stack : List V) : Prop where
  nodup : visited.Nodup
  sound : ∀ v, v ∈ visited ∨ v ∈ stack → Reachable next root v
  roots : ∀ r, root r → r ∈ visited ∨ r ∈ stack
  closed : ∀ v ∈ visited, ∀ w, next v w → w ∈ visited ∨ w ∈ stack

theorem Frontier.start {stack : List V} (h : ∀ r, r ∈ stack ↔ root r) :
    Frontier next root [] stack where
  nodup := List.nodup_nil
  sound v hv := by
    rcases hv with hv | hv
    · cases hv
    · exact .of_root ((h v).mp hv)
  roots r hr := .inr ((h r).mpr hr)
  closed v hv := by cases hv

/-- A node that was visited is dropped. -/
theorem Frontier.skip {visited stack : List V} {v : V}
    (h : Frontier next root visited (v :: stack)) (hv : v ∈ visited) :
    Frontier next root visited stack where
  nodup := h.nodup
  sound w hw := h.sound w (hw.imp_right (List.mem_cons_of_mem v))
  roots r hr := by
    rcases h.roots r hr with hr | hr
    · exact .inl hr
    · rcases List.mem_cons.mp hr with rfl | hr
      · exact .inl hv
      · exact .inr hr
  closed u hu w hw := by
    rcases h.closed u hu w hw with hw | hw
    · exact .inl hw
    · rcases List.mem_cons.mp hw with rfl | hw
      · exact .inl hv
      · exact .inr hw

/-- A node that was not visited is, and its neighbours are looked at unless they were visited. -/
theorem Frontier.visit {visited stack pushed : List V} {v : V}
    (h : Frontier next root visited (v :: stack)) (hv : v ∉ visited)
    (hpushed : ∀ w ∈ pushed, next v w)
    (hall : ∀ w, next v w → w ∈ visited ++ [v] ∨ w ∈ pushed ++ stack) :
    Frontier next root (visited ++ [v]) (pushed ++ stack) where
  nodup := List.nodup_append.mpr ⟨h.nodup, List.nodup_singleton v, fun a ha b hb => by
    obtain rfl := List.mem_singleton.mp hb
    exact fun heq => hv (heq ▸ ha)⟩
  sound w hw := by
    have hreach : Reachable next root v := h.sound v (.inr List.mem_cons_self)
    rcases hw with hw | hw
    · rcases List.mem_append.mp hw with hw | hw
      · exact h.sound w (.inl hw)
      · rwa [List.mem_singleton.mp hw]
    · rcases List.mem_append.mp hw with hw | hw
      · exact hreach.step (hpushed w hw)
      · exact h.sound w (.inr (List.mem_cons_of_mem v hw))
  roots r hr := by
    rcases h.roots r hr with hr | hr
    · exact .inl (List.mem_append_left _ hr)
    · rcases List.mem_cons.mp hr with rfl | hr
      · exact .inl (by simp)
      · exact .inr (List.mem_append_right _ hr)
  closed u hu w hw := by
    rcases List.mem_append.mp hu with hu | hu
    · rcases h.closed u hu w hw with hw | hw
      · exact .inl (List.mem_append_left _ hw)
      · rcases List.mem_cons.mp hw with rfl | hw
        · exact .inl (by simp)
        · exact .inr (List.mem_append_right _ hw)
    · obtain rfl := List.mem_singleton.mp hu
      exact hall w hw

/-- **A finished search** has visited what the roots reach. -/
theorem Frontier.done {visited : List V} (h : Frontier next root visited []) (v : V) :
    v ∈ visited ↔ Reachable next root v := by
  refine ⟨fun hv => h.sound v (.inl hv), fun hv => ?_⟩
  refine hv.rule (· ∈ visited) (fun r hr => ?_) fun u w _ hu hw => ?_
  · exact (h.roots r hr).resolve_right List.not_mem_nil
  · exact (h.closed u hu w hw).resolve_right List.not_mem_nil

/-- **What a sweep keeps**: when whatever is reached stays, it is reached as before. -/
theorem Reachable.keep {kept : V → Prop} (h : ∀ v, Reachable next root v → kept v) {v : V} :
    Reachable (fun a b => next a b ∧ kept b) (fun r => root r ∧ kept r) v ↔
      Reachable next root v := by
  constructor
  · exact fun hv => hv.rule _ (fun r hr => .of_root hr.1) fun _ _ _ hu hw => hu.step hw.1
  · exact fun hv => hv.rule _ (fun r hr => .of_root ⟨hr, h r (.of_root hr)⟩) fun _ w hu hkeep hw =>
      hkeep.step ⟨hw, h w (hu.step hw)⟩

end Worklist

end Afactory
