import Mathlib
import Afactory.SchedulerPlan
import Afactory.Worklist

/-!
# What runs again after a node

`downstream_of` of `review-graph/src/task.rs`, as a search of the compiled graph.

* `Later`: a node depends on another, directly or through others;
* `mem_downstreamOf`: the search finds exactly the later nodes;
* `Ordered.not_later_self`: in a graph the planner has ordered no node reads what depends on it.
-/

namespace Afactory.CompiledTask

open GreedyOrder Worklist

variable {G : CompiledTask} {node x y : String}

/-- The second node depends on the first, or is the first. -/
def Later (G : CompiledTask) : String → String → Prop := Relation.ReflTransGen G.DependsOn

theorem mem_consumers {current : String} {found : List String} :
    y ∈ G.consumers node current found ↔ G.DependsOn current y ∧ y ∉ found ∧ y ≠ node := by
  rw [consumers, List.mem_map]
  constructor
  · rintro ⟨⟨id, definition⟩, hmem, rfl⟩
    obtain ⟨hentry, hnew⟩ := List.mem_filter.mp hmem
    simp only [Bool.and_eq_true, Bool.not_eq_true', decide_eq_true_eq, List.contains_eq_mem,
      decide_eq_false_iff_not] at hnew
    exact ⟨⟨definition, OrdMap.mem_iff_get.mp hentry, hnew.2⟩, hnew.1⟩
  · rintro ⟨⟨definition, hget, hreads⟩, hfound, hne⟩
    refine ⟨(y, definition), List.mem_filter.mpr ⟨OrdMap.mem_iff_get.mpr hget, ?_⟩, rfl⟩
    simp [hfound, hne, hreads]

/-- What was found is what was visited and what is pending, but for the node itself. -/
structure Searching (G : CompiledTask) (node : String) (visited pending found : List String) :
    Prop where
  frontier : Frontier G.DependsOn (· = node) visited pending
  fresh : ∀ z ∈ pending, z ∉ visited
  once : pending.Nodup
  apart : node ∉ found
  listed : ∀ z ∈ found, z ∈ G.nodes.keys
  same : ∀ z, z ∈ node :: found ↔ z ∈ visited ∨ z ∈ pending

theorem Searching.start (G : CompiledTask) (node : String) : G.Searching node [] [node] [] where
  frontier := .start fun r => List.mem_singleton
  fresh := fun _ _ => List.not_mem_nil
  once := List.nodup_singleton node
  apart := List.not_mem_nil
  listed := nofun
  same := fun z => by simp

theorem Searching.step {visited pending found : List String} {current : String}
    (h : G.Searching node visited (current :: pending) found) :
    G.Searching node (visited ++ [current])
      ((G.consumers node current found).reverse ++ pending)
      (found ++ G.consumers node current found) := by
  have hcurrent : current ∉ visited := h.fresh current List.mem_cons_self
  obtain ⟨hnotin, honce⟩ := List.nodup_cons.mp h.once
  -- a consumer that is not new was found before
  have hseen : ∀ {z}, z ∈ node :: found → z ∈ visited ++ [current] ∨ z ∈ pending := fun hz => by
    rcases (h.same _).mp hz with hz | hz
    · exact .inl (List.mem_append_left _ hz)
    · rcases List.mem_cons.mp hz with rfl | hz
      · exact .inl (by simp)
      · exact .inr hz
  have hnew : ∀ {z}, z ∈ G.consumers node current found → z ∉ visited ++ [current] ∧ z ∉ pending :=
    fun {z} hz => by
      obtain ⟨-, hfound, hne⟩ := mem_consumers.mp hz
      have hnone : z ∉ node :: found := by simp [hfound, hne]
      refine ⟨fun hmem => hnone ((h.same z).mpr ?_), fun hmem => hnone ((h.same z).mpr ?_)⟩
      · rcases List.mem_append.mp hmem with hmem | hmem
        · exact .inl hmem
        · exact .inr (by simp [List.mem_singleton.mp hmem])
      · exact .inr (List.mem_cons_of_mem current hmem)
  have hkeys : (G.consumers node current found).Nodup :=
    (OrdMap.keys_nodup G.nodes).sublist (List.filter_sublist.map Prod.fst)
  refine ⟨h.frontier.visit hcurrent (fun z hz => ?_) fun z hz => ?_, fun z hz => ?_, ?_,
    ?_, fun z hz => ?_, fun z => ?_⟩
  · exact (mem_consumers.mp (List.mem_reverse.mp hz)).1
  · rw [List.mem_append (t := pending), List.mem_reverse]
    by_cases hfound : z ∈ node :: found
    · exact (hseen hfound).imp_right .inr
    · rw [List.mem_cons, not_or] at hfound
      exact .inr (.inl (mem_consumers.mpr ⟨hz, hfound.2, hfound.1⟩))
  · rcases List.mem_append.mp hz with hz | hz
    · exact (hnew (List.mem_reverse.mp hz)).1
    · intro hmem
      rcases List.mem_append.mp hmem with hmem | hmem
      · exact h.fresh z (List.mem_cons_of_mem current hz) hmem
      · exact hnotin (List.mem_singleton.mp hmem ▸ hz)
  · refine List.nodup_append.mpr ⟨List.nodup_reverse.mpr hkeys, honce, fun a ha b hb heq => ?_⟩
    exact (hnew (List.mem_reverse.mp ha)).2 (heq ▸ hb)
  · rw [List.mem_append, not_or]
    exact ⟨h.apart, fun hmem => (mem_consumers.mp hmem).2.2 rfl⟩
  · rcases List.mem_append.mp hz with hz | hz
    · exact h.listed z hz
    · obtain ⟨⟨definition, hget, -⟩, -, -⟩ := mem_consumers.mp hz
      exact OrdMap.mem_keys_iff.mpr ⟨definition, hget⟩
  · rw [← List.cons_append, List.mem_append, h.same]
    simp only [List.mem_append, List.mem_reverse, List.mem_cons, List.not_mem_nil, or_false]
    tauto

/-- With a round left for every node that was not visited, the search ends. -/
theorem Searching.run {visited pending found : List String} {fuel : ℕ}
    (h : G.Searching node visited pending found)
    (hfuel : G.nodes.entries.length + 1 ≤ visited.length + fuel) :
    ∃ visited', G.Searching node visited' [] (G.downstreamLoop node fuel pending found) := by
  induction fuel generalizing visited pending found with
  | zero =>
    rw [downstreamLoop]
    cases pending with
    | nil => exact ⟨visited, h⟩
    | cons current pending =>
      -- every node was visited already
      have hnodup : (current :: visited).Nodup :=
        List.nodup_cons.mpr ⟨h.fresh current List.mem_cons_self, h.frontier.nodup⟩
      have hsub : current :: visited ⊆ node :: G.nodes.keys := fun z hz => by
        have hz' : z ∈ node :: found := (h.same z).mpr (by
          rcases List.mem_cons.mp hz with rfl | hz
          · exact .inr List.mem_cons_self
          · exact .inl hz)
        rcases List.mem_cons.mp hz' with rfl | hz'
        · exact List.mem_cons_self
        · exact List.mem_cons_of_mem _ (h.listed z hz')
      have hlength := (hnodup.subperm hsub).length_le
      simp only [List.length_cons, OrdMap.keys, List.length_map] at hlength
      omega
  | succ fuel ih =>
    cases pending with
    | nil =>
      rw [downstreamLoop]
      exact ⟨visited, h⟩
    | cons current pending =>
      rw [downstreamLoop]
      refine ih h.step ?_
      rw [List.length_append, List.length_singleton]
      omega

/-- **What runs again after a node**: what depends on it, but for the node itself. -/
theorem mem_downstreamOf : y ∈ G.downstreamOf x ↔ y ≠ x ∧ G.Later x y := by
  obtain ⟨visited, h⟩ := (Searching.start G x).run
    (show G.nodes.entries.length + 1 ≤ [].length + (G.nodes.entries.length + 1) by simp)
  have hreach : y ∈ visited ↔ G.Later x y := by
    rw [h.frontier.done]
    constructor
    · rintro ⟨_, rfl, hwalk⟩
      exact hwalk
    · exact fun hwalk => ⟨x, rfl, hwalk⟩
  have hfound := h.same y
  rw [hreach, List.mem_cons] at hfound
  constructor
  · intro hmem
    have hne : y ≠ x := fun heq => h.apart (heq ▸ hmem)
    exact ⟨hne, (hfound.mp (.inr hmem)).resolve_right List.not_mem_nil⟩
  · rintro ⟨hne, hlater⟩
    exact (hfound.mpr (.inl hlater)).resolve_left hne

theorem later_iff : G.Later x y ↔ y = x ∨ y ∈ G.downstreamOf x := by
  rw [mem_downstreamOf]
  constructor
  · intro h
    by_cases heq : y = x
    · exact .inl heq
    · exact .inr ⟨heq, h⟩
  · rintro (rfl | ⟨-, h⟩)
    · exact .refl
    · exact h

/-- An ordered graph has no node that reads what depends on it. -/
theorem Ordered.not_later_self (h : G.Ordered) (hreads : G.DependsOn y x) : ¬ G.Later x y := by
  intro hlater
  have hids : ∀ a b, G.DependsOn a b → b ∈ G.ids := fun a b ⟨definition, hget, _⟩ =>
    ⟨definition, hget⟩
  exact h.topological.acyclic hids x (Relation.TransGen.tail' hlater hreads)

end Afactory.CompiledTask
