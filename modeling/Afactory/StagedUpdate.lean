import Mathlib
import Afactory.OrdMap

/-!
# Staged updates

A list whose items are updated in groups, one group for each key and the least key first, until a
group holds a hit. The update of an item may fail, and keeps a state.

* `groups`: the positions of the items of each key;
* `updateGroups`: the update, group by group;
* `updateGroups_eq`: the items it reaches, and the state it leaves;
* `mem_reached_iff`: an item is reached when no hit has a smaller key.
-/

namespace Afactory

namespace Staged

universe u v w

variable {α : Type u} {κ : Type v} {σ : Type w} {ε : Type*} [LinearOrder κ]

/-! ## Groups -/

/-- The positions of the items of one key. -/
def positions (key : α → Option κ) (xs : List α) (k : κ) : List ℕ :=
  (xs.zipIdx.filter fun p => key p.1 = some k).map Prod.snd

/-- The positions of the items of each key, in the order of the list. -/
def groups (key : α → Option κ) (xs : List α) : OrdMap κ (List ℕ) :=
  xs.zipIdx.foldl (fun groups (x, i) =>
    match key x with
    | some k => groups.insert k ((groups.get k).getD [] ++ [i])
    | none => groups) .empty

theorem positions_append_singleton (key : α → Option κ) (xs : List α) (x : α) (k : κ) :
    positions key (xs ++ [x]) k =
      positions key xs k ++ if key x = some k then [xs.length] else [] := by
  rw [positions, positions, List.zipIdx_append, List.filter_append, List.map_append]
  by_cases hk : key x = some k <;> simp [hk]

theorem groups_append_singleton (key : α → Option κ) (xs : List α) (x : α) :
    groups key (xs ++ [x]) = match key x with
      | some k => (groups key xs).insert k (((groups key xs).get k).getD [] ++ [xs.length])
      | none => groups key xs := by
  rw [groups, List.zipIdx_append, List.foldl_append, ← groups, Nat.zero_add]
  rfl

/-- **Each group holds the positions of the items of its key.** -/
theorem get_groups (key : α → Option κ) (xs : List α) (k : κ) :
    (groups key xs).get k =
      if positions key xs k = [] then none else some (positions key xs k) := by
  induction xs using List.reverseRecOn with
  | nil => rfl
  | append_singleton xs x ih =>
    rw [groups_append_singleton, positions_append_singleton]
    cases hx : key x with
    | none =>
      rw [if_neg (Option.some_ne_none k).symm, List.append_nil]
      exact ih
    | some k' =>
      dsimp only
      rw [OrdMap.get_insert]
      by_cases hk : k = k'
      · subst hk
        rw [if_pos rfl, if_pos rfl, if_neg (by simp), ih]
        split_ifs with hempty
        · rw [hempty]
          rfl
        · rfl
      · have hother : some k' ≠ some k := fun h => hk (Option.some.inj h).symm
        rw [if_neg hk, if_neg hother, List.append_nil]
        exact ih

theorem mem_keys_groups {key : α → Option κ} {xs : List α} {k : κ} :
    k ∈ (groups key xs).keys ↔ ∃ x ∈ xs, key x = some k := by
  rw [OrdMap.mem_keys_iff, get_groups]
  have hempty : positions key xs k = [] ↔ ¬ ∃ x ∈ xs, key x = some k := by
    simp only [positions, List.map_eq_nil_iff, List.filter_eq_nil_iff, decide_eq_true_eq]
    constructor
    · rintro h ⟨x, hx, hk⟩
      obtain ⟨i, hi, rfl⟩ := List.mem_iff_getElem.mp hx
      exact h (xs[i], i) (by simp [List.mem_zipIdx_iff_getElem?]) hk
    · exact fun h p hp hk => h ⟨p.1, List.fst_mem_of_mem_zipIdx hp, hk⟩
  rw [← not_iff_not, ← hempty]
  split_ifs with h <;> simp [h]

theorem values_groups (key : α → Option κ) (xs : List α) :
    (groups key xs).values = (groups key xs).keys.map (positions key xs) := by
  rw [OrdMap.values, OrdMap.keys, List.map_map]
  refine List.map_congr_left fun e he => ?_
  have hget : (groups key xs).get e.1 = some e.2 := OrdMap.mem_iff_get.mp he
  rw [get_groups] at hget
  split_ifs at hget
  exact (Option.some.inj hget).symm

theorem nodup_positions (key : α → Option κ) (xs : List α) (k : κ) :
    (positions key xs k).Nodup := by
  have hall : (xs.zipIdx.map Prod.snd).Nodup := by
    rw [List.zipIdx_map_snd]
    exact List.nodup_range'
  exact hall.sublist (List.filter_sublist.map Prod.snd)

theorem mem_positions {key : α → Option κ} {xs : List α} {k : κ} {i : ℕ} :
    i ∈ positions key xs k ↔ ∃ x, xs[i]? = some x ∧ key x = some k := by
  simp only [positions, List.mem_map, List.mem_filter, decide_eq_true_eq, Prod.exists,
    exists_eq_right, List.mem_zipIdx_iff_getElem?]

/-- The items of one key, in the order of the list. -/
theorem items_positions (key : α → Option κ) (xs : List α) (k : κ) :
    (positions key xs k).filterMap (xs[·]?) = xs.filter fun x => key x = some k := by
  rw [positions, List.filterMap_map]
  have hitem : ∀ p ∈ xs.zipIdx.filter (fun p => decide (key p.1 = some k)),
      ((xs[·]?) ∘ Prod.snd) p = some p.1 := fun p hp =>
    List.mem_zipIdx_iff_getElem?.mp (List.mem_of_mem_filter hp)
  rw [List.filterMap_congr hitem, List.filterMap_eq_map']
  conv_rhs => rw [← List.zipIdx_map_fst 0 xs, List.filter_map]
  rfl

/-! ## Updates -/

/-- The items at the positions of one group updated, in order, and whether one was a hit. -/
def updateGroup (ask : σ → α → Except ε (α × Bool × σ)) :
    List ℕ → List α → σ → Except ε (List α × Bool × σ)
  | [], xs, s => .ok (xs, false, s)
  | i :: group, xs, s =>
    match xs[i]? with
    | none => updateGroup ask group xs s
    | some x => do
      let (x, hit, s) ← ask s x
      let (xs, found, s) ← updateGroup ask group (xs.set i x) s
      return (xs, hit || found, s)

/-- The groups updated, up to and with the first that holds a hit. -/
def updateGroups (ask : σ → α → Except ε (α × Bool × σ)) :
    List (List ℕ) → List α → σ → Except ε (List α × σ)
  | [], xs, s => .ok (xs, s)
  | group :: groups, xs, s => do
    let (xs, found, s) ← updateGroup ask group xs s
    if found then return (xs, s) else updateGroups ask groups xs s

section Reach

variable {ask : σ → α → Except ε (α × Bool × σ)} {new : α → α} {hit : α → Bool} {note : σ → α → σ}
  (hask : ∀ s x, ask s x = .ok (new x, hit x, note s x))

include hask

theorem updateGroup_eq {group : List ℕ} (hgroup : group.Nodup) (xs : List α) (s : σ) :
    updateGroup ask group xs s =
      .ok (xs.mapIdx fun i x => if i ∈ group then new x else x,
        (group.filterMap (xs[·]?)).any hit, (group.filterMap (xs[·]?)).foldl note s) := by
  induction group generalizing xs s with
  | nil => simp [updateGroup, List.mapIdx_eq_zipIdx_map]
  | cons i group ih =>
    obtain ⟨hi, hrest⟩ := List.nodup_cons.mp hgroup
    rw [updateGroup]
    cases hx : xs[i]? with
    | none =>
      dsimp only
      rw [ih hrest, List.filterMap_cons_none hx]
      have hlength : xs.length ≤ i := List.getElem?_eq_none_iff.mp hx
      have hsame : (xs.mapIdx fun j x => if j ∈ group then new x else x) =
          xs.mapIdx fun j x => if j ∈ i :: group then new x else x := by
        refine List.ext_getElem (by simp) fun j hj _ => ?_
        rw [List.length_mapIdx] at hj
        have hne : j ≠ i := by omega
        simp [hne]
      rw [hsame]
    | some x =>
      dsimp only
      rw [hask]
      have hothers : group.filterMap ((xs.set i (new x))[·]?) = group.filterMap (xs[·]?) := by
        refine List.filterMap_congr fun j hj => ?_
        have hne : i ≠ j := fun h => hi (h ▸ hj)
        exact List.getElem?_set_ne hne
      have hitems : ((xs.set i (new x)).mapIdx fun j x => if j ∈ group then new x else x) =
          xs.mapIdx fun j x => if j ∈ i :: group then new x else x := by
        refine List.ext_getElem (by simp) fun j hj _ => ?_
        rw [List.length_mapIdx, List.length_set] at hj
        by_cases hji : j = i
        · subst hji
          obtain ⟨_, hget⟩ := List.getElem?_eq_some_iff.mp hx
          simp [hi, hget]
        · simp [List.getElem_set_ne (Ne.symm hji), hji]
      show (updateGroup ask group (xs.set i (new x)) (note s x) >>= _) = _
      rw [ih hrest, hothers, hitems, List.filterMap_cons_some hx]
      rfl

end Reach

/-! ## Reach -/

section Asked

variable (key : α → Option κ) (hit : α → Bool) (xs : List α)

/-- An item of the key is a hit. -/
def hitAt (k : κ) : Bool := (xs.filter fun x => key x = some k).any hit

/-- The keys up to and with the first that has a hit. -/
@[grind =] def upToHit : List κ → List κ
  | [] => []
  | k :: ks => if hitAt key hit xs k then [k] else k :: upToHit ks

/-- The keys whose items are updated. -/
def reachedKeys : List κ := upToHit key hit xs (groups key xs).keys

variable {key hit xs}

theorem mem_upToHit {ks : List κ} (hsorted : ks.Pairwise (· < ·)) {k : κ} :
    k ∈ upToHit key hit xs ks ↔ k ∈ ks ∧ ∀ k' ∈ ks, hitAt key hit xs k' = true → k ≤ k' := by
  induction ks with
  | nil => simp [upToHit]
  | cons k₀ ks ih =>
    obtain ⟨hfirst, hrest⟩ := List.pairwise_cons.mp hsorted
    rw [upToHit]
    split_ifs with hhit
    · constructor
      · intro hk
        obtain rfl := List.mem_singleton.mp hk
        refine ⟨List.mem_cons_self, fun k' hk' _ => ?_⟩
        rcases List.mem_cons.mp hk' with rfl | hk'
        · exact le_rfl
        · exact (hfirst k' hk').le
      · rintro ⟨hk, hleast⟩
        rcases List.mem_cons.mp hk with rfl | hk
        · exact List.mem_singleton_self _
        · exact absurd (hleast k₀ List.mem_cons_self hhit) (not_le_of_gt (hfirst k hk))
    · rw [List.mem_cons, ih hrest]
      constructor
      · rintro (rfl | ⟨hk, hleast⟩)
        · refine ⟨List.mem_cons_self, fun k' hk' _ => ?_⟩
          rcases List.mem_cons.mp hk' with rfl | hk'
          · exact le_rfl
          · exact (hfirst k' hk').le
        · refine ⟨List.mem_cons_of_mem _ hk, fun k' hk' hhit' => ?_⟩
          rcases List.mem_cons.mp hk' with rfl | hk'
          · exact absurd hhit' hhit
          · exact hleast k' hk' hhit'
      · rintro ⟨hk, hleast⟩
        rcases List.mem_cons.mp hk with rfl | hk
        · exact .inl rfl
        · exact .inr ⟨hk, fun k' hk' => hleast k' (List.mem_cons_of_mem _ hk')⟩

theorem upToHit_sublist (ks : List κ) : (upToHit key hit xs ks).Sublist ks := by
  induction ks with
  | nil => exact List.Sublist.refl _
  | cons k ks ih =>
    rw [upToHit]
    split_ifs
    · exact (List.nil_sublist ks).cons_cons k
    · exact ih.cons_cons k

/-- The least key first. -/
theorem reachedKeys_sorted : (reachedKeys key hit xs).Pairwise (· < ·) :=
  (List.pairwise_map.mpr (groups key xs).sorted).sublist (upToHit_sublist _)

/-- **A key is reached when no hit has a smaller one.** -/
theorem mem_reachedKeys_iff {k : κ} :
    k ∈ reachedKeys key hit xs ↔ (∃ x ∈ xs, key x = some k) ∧
      ∀ y ∈ xs, hit y = true → ∀ k' ∈ key y, k ≤ k' := by
  have hsorted : (groups key xs).keys.Pairwise (· < ·) :=
    List.pairwise_map.mpr (groups key xs).sorted
  rw [reachedKeys, mem_upToHit hsorted, mem_keys_groups]
  refine and_congr_right fun _ => ?_
  simp only [mem_keys_groups, hitAt, List.any_eq_true, List.mem_filter, decide_eq_true_eq]
  constructor
  · exact fun h y hy hhit k' hk' => h k' ⟨y, hy, hk'⟩ ⟨y, ⟨hy, hk'⟩, hhit⟩
  · rintro h k' - ⟨y, ⟨hy, hk'⟩, hhit⟩
    exact h y hy hhit k' hk'

end Asked

section Run

variable {key : α → Option κ} {xs : List α}
variable {ask : σ → α → Except ε (α × Bool × σ)} {new : α → α} {hit : α → Bool} {note : σ → α → σ}
  (hask : ∀ s x, ask s x = .ok (new x, hit x, note s x))

/-- The list with the items of some keys updated. -/
def updated (key : α → Option κ) (new : α → α) (xs : List α) (done : List κ) : List α :=
  xs.map fun x => if (key x).any (· ∈ done) then new x else x

include hask

/-- **One group**: the items of its key are updated, in the order of the list. -/
theorem updateGroup_positions {done : List κ} {k : κ} (hk : k ∉ done) (s : σ) :
    updateGroup ask (positions key xs k) (updated key new xs done) s =
      .ok (updated key new xs (k :: done), hitAt key hit xs k,
        (xs.filter fun x => key x = some k).foldl note s) := by
  have hitems : (positions key xs k).filterMap ((updated key new xs done)[·]?) =
      xs.filter fun x => key x = some k := by
    rw [← items_positions]
    refine List.filterMap_congr fun i hi => ?_
    obtain ⟨x, hx, hkey⟩ := mem_positions.mp hi
    simp [updated, hx, hkey, hk]
  have hupdated : ((updated key new xs done).mapIdx fun i x =>
      if i ∈ positions key xs k then new x else x) = updated key new xs (k :: done) := by
    refine List.ext_getElem (by simp [updated]) fun i hi _ => ?_
    have hlength : i < xs.length := by simpa [updated] using hi
    simp only [updated, List.getElem_mapIdx, List.getElem_map, mem_positions,
      List.getElem?_eq_getElem hlength, Option.some.injEq, exists_eq_left']
    cases hkey : key xs[i] with
    | none => simp
    | some k' =>
      by_cases hsame : k' = k
      · subst hsame
        simp [hk]
      · simp [hsame]
  rw [updateGroup_eq hask (nodup_positions key xs k), hitems, hupdated, hitAt]

/-- **The run of the groups**: by induction on the keys that are left. -/
theorem updateGroups_run (ks done : List κ) (hdone : ∀ k ∈ ks, k ∉ done) (hks : ks.Nodup) (s : σ) :
    updateGroups ask (ks.map (positions key xs)) (updated key new xs done) s =
      .ok (updated key new xs ((upToHit key hit xs ks).reverse ++ done),
        ((upToHit key hit xs ks).flatMap fun k =>
          xs.filter fun x => key x = some k).foldl note s) := by
  induction ks generalizing done s with
  | nil => rfl
  | cons k ks ih =>
    obtain ⟨hk, hrest⟩ := List.nodup_cons.mp hks
    rw [List.map_cons, updateGroups, updateGroup_positions hask (hdone k List.mem_cons_self),
      upToHit]
    show (if hitAt key hit xs k = true then _ else _) = _
    split_ifs with hhit
    · simp
      rfl
    · refine (ih (k :: done) (fun k' hk' => ?_) hrest _).trans ?_
      · rw [List.mem_cons, not_or]
        exact ⟨fun h => hk (h ▸ hk'), hdone k' (List.mem_cons_of_mem _ hk')⟩
      · simp [List.flatMap_cons, List.foldl_append]

/-- **The update reaches the items whose keys are reached**, group by group. -/
theorem updateGroups_eq (s : σ) :
    updateGroups ask (groups key xs).values xs s =
      .ok (updated key new xs (reachedKeys key hit xs),
        ((reachedKeys key hit xs).flatMap fun k =>
          xs.filter fun x => key x = some k).foldl note s) := by
  have hstart : updated key new xs [] = xs := by
    simp [updated]
  have hrun : updateGroups ask ((groups key xs).keys.map (positions key xs))
      (updated key new xs []) s = _ :=
    updateGroups_run hask _ _ (by simp) (OrdMap.keys_nodup _) s
  rw [hstart, ← values_groups] at hrun
  rw [hrun, ← reachedKeys, List.append_nil]
  simp [updated]

end Run

end Staged

end Afactory
