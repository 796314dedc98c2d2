import Mathlib
import Afactory.OrdMap

/-!
# Parent maps and their roots

A finite map from children to parents. Following parents from a key leads to a root, a key
without a parent, as long as no chain of parents returns to where it was.

* `Leads`: the root a key leads to, with the number of parents on the way;
* `Rooted`: every key leads to a root; then there is no cycle (`Rooted.acyclic`);
* `Rooted.insert`, `Rooted.erase`: joining two roots and cutting an edge keep every key
  rooted;
* `follow_eq_some`: a walk of one step more than there are edges finds the root;
* `perm_flatMap_filter`: the keys of all roots together are the keys.
-/

namespace Afactory

namespace Forest

universe u

variable {K : Type u} [LinearOrder K] {parent : OrdMap K K}

/-- Follow parents for at most so many lookups. -/
def follow (parent : OrdMap K K) : ℕ → K → Option K
  | 0, _ => none
  | n + 1, k =>
    match parent.get k with
    | none => some k
    | some p => follow parent n p

/-- A key leads over so many parents to a root. -/
inductive Leads (parent : OrdMap K K) : ℕ → K → K → Prop
  | root {k : K} (h : parent.get k = none) : Leads parent 0 k k
  | up {n : ℕ} {k p r : K} (h : parent.get k = some p) (hp : Leads parent n p r) :
    Leads parent (n + 1) k r

/-- Every key leads to a root. -/
def Rooted (parent : OrdMap K K) : Prop := ∀ k, ∃ n r, Leads parent n k r

/-- No chain of parents returns to its start. -/
def Acyclic (parent : OrdMap K K) : Prop :=
  ∀ k, ¬ Relation.TransGen (fun a b => parent.get a = some b) k k

theorem Leads.get_root {n : ℕ} {k r : K} (h : Leads parent n k r) : parent.get r = none := by
  induction h with
  | root h => exact h
  | up _ _ ih => exact ih

theorem Leads.unique {n m : ℕ} {k r s : K} (h : Leads parent n k r) (h' : Leads parent m k s) :
    n = m ∧ r = s := by
  induction h generalizing m with
  | root hk =>
    cases h' with
    | root _ => exact ⟨rfl, rfl⟩
    | up hk' _ =>
      rw [hk] at hk'
      cases hk'
  | up hk _ ih =>
    cases h' with
    | root hk' =>
      rw [hk] at hk'
      cases hk'
    | up hk' hp' =>
      rw [hk] at hk'
      cases hk'
      obtain ⟨rfl, rfl⟩ := ih hp'
      exact ⟨rfl, rfl⟩

theorem rooted_empty : Rooted (OrdMap.empty : OrdMap K K) := fun k => ⟨0, k, .root rfl⟩

/-- A proper ancestor leads to the same root over fewer parents. -/
theorem Leads.of_transGen {n : ℕ} {k a r : K} (h : Leads parent n k r)
    (ha : Relation.TransGen (fun a b => parent.get a = some b) k a) :
    ∃ m < n, Leads parent m a r := by
  induction ha with
  | single hedge =>
    cases h with
    | root hk =>
      rw [hk] at hedge
      cases hedge
    | up hk hp =>
      rw [hk] at hedge
      cases hedge
      exact ⟨_, Nat.lt_succ_self _, hp⟩
  | tail _ hedge ih =>
    obtain ⟨m, hm, hb⟩ := ih
    cases hb with
    | root hk =>
      rw [hk] at hedge
      cases hedge
    | up hk hp =>
      rw [hk] at hedge
      cases hedge
      exact ⟨_, (Nat.lt_succ_self _).trans hm, hp⟩

theorem Rooted.acyclic (h : Rooted parent) : Acyclic parent := by
  intro k hcycle
  obtain ⟨n, r, hk⟩ := h k
  obtain ⟨m, hm, hk'⟩ := hk.of_transGen hcycle
  exact absurd (hk.unique hk').1 hm.ne'

/-! ## Adding and cutting edges -/

/-- Joining one root to another moves what led to the first. -/
theorem Leads.insert {n : ℕ} {k r a b : K} (h : Leads parent n k r) (ha : parent.get a = none)
    (hb : parent.get b = none) (hne : a ≠ b) :
    ∃ m, Leads (parent.insert a b) m k (if r = a then b else r) := by
  have hroot : Leads (parent.insert a b) 0 b b := by
    refine .root ?_
    rw [OrdMap.get_insert_ne _ _ hne.symm]
    exact hb
  induction h with
  | @root k hk =>
    by_cases hka : k = a
    · cases hka
      rw [if_pos rfl]
      exact ⟨1, .up (OrdMap.get_insert_self _ _ _) hroot⟩
    · rw [if_neg hka]
      refine ⟨0, .root ?_⟩
      rw [OrdMap.get_insert_ne _ _ hka]
      exact hk
  | @up n k p r hk _ ih =>
    obtain ⟨m, hm⟩ := ih
    refine ⟨m + 1, .up ?_ hm⟩
    rw [OrdMap.get_insert_ne _ _ fun hka => ?_]
    · exact hk
    · rw [hka, ha] at hk
      cases hk

theorem Rooted.insert (h : Rooted parent) {a b : K} (ha : parent.get a = none)
    (hb : parent.get b = none) (hne : a ≠ b) : Rooted (parent.insert a b) := by
  intro k
  obtain ⟨n, r, hk⟩ := h k
  obtain ⟨m, hm⟩ := hk.insert ha hb hne
  exact ⟨m, _, hm⟩

/-- Cutting an edge makes its child a root and leaves every other chain. -/
theorem Rooted.erase (h : Rooted parent) (a : K) : Rooted (parent.erase a) := by
  intro k
  obtain ⟨n, r, hk⟩ := h k
  induction hk with
  | @root k hk =>
    refine ⟨0, k, .root ?_⟩
    rw [OrdMap.get_erase]
    split_ifs
    · rfl
    · exact hk
  | @up n k p r hk _ ih =>
    by_cases hka : k = a
    · refine ⟨0, k, .root ?_⟩
      rw [hka, OrdMap.get_erase_self]
    · obtain ⟨m, s, hm⟩ := ih
      refine ⟨m + 1, s, .up ?_ hm⟩
      rw [OrdMap.get_erase, if_neg hka]
      exact hk

/-! ## Bounded walks -/

/-- The keys a walk passes before its root are distinct children. -/
theorem Leads.exists_path {n : ℕ} {k r : K} (h : Leads parent n k r) :
    ∃ path : List K, path.length = n ∧ path.Nodup ∧
      ∀ x ∈ path, x ∈ parent.keys ∧ ∃ m ≤ n, 0 < m ∧ Leads parent m x r := by
  induction h with
  | root _ => exact ⟨[], rfl, List.nodup_nil, fun x hx => absurd hx List.not_mem_nil⟩
  | @up n k p r hk hp ih =>
    obtain ⟨path, hlength, hnodup, hpath⟩ := ih
    have hself : Leads parent (n + 1) k r := .up hk hp
    refine ⟨k :: path, by rw [List.length_cons, hlength], List.nodup_cons.mpr ⟨fun hmem => ?_, hnodup⟩,
      fun x hx => ?_⟩
    · -- a key further up leads to the root over fewer parents
      obtain ⟨-, m, hm, -, hlead⟩ := hpath k hmem
      have := (hself.unique hlead).1
      omega
    · rcases List.mem_cons.mp hx with rfl | hx
      · exact ⟨OrdMap.mem_keys_iff.mpr ⟨p, hk⟩, n + 1, le_rfl, Nat.succ_pos n, hself⟩
      · obtain ⟨hkey, m, hm, hpos, hlead⟩ := hpath x hx
        exact ⟨hkey, m, hm.trans (Nat.le_succ n), hpos, hlead⟩

theorem Leads.length_le {n : ℕ} {k r : K} (h : Leads parent n k r) :
    n ≤ parent.entries.length := by
  obtain ⟨path, rfl, hnodup, hpath⟩ := h.exists_path
  have hsub : path ⊆ parent.keys := fun x hx => (hpath x hx).1
  have hle := (hnodup.subperm hsub).length_le
  rw [OrdMap.keys, List.length_map] at hle
  exact hle

theorem Leads.follow {n m : ℕ} {k r : K} (h : Leads parent n k r) (hm : n < m) :
    follow parent m k = some r := by
  induction h generalizing m with
  | root hk =>
    obtain ⟨m, rfl⟩ := Nat.exists_eq_add_one_of_ne_zero hm.ne'
    rw [Forest.follow, hk]
  | up hk _ ih =>
    obtain ⟨m, rfl⟩ := Nat.exists_eq_add_one_of_ne_zero (Nat.ne_zero_of_lt hm)
    rw [Forest.follow, hk]
    exact ih (Nat.lt_of_succ_lt_succ hm)

/-- A walk ends only at a root it leads to. -/
theorem leads_of_follow {m : ℕ} {k r : K} (h : follow parent m k = some r) :
    ∃ n, Leads parent n k r := by
  induction m generalizing k with
  | zero => cases h
  | succ m ih =>
    rw [follow] at h
    cases hk : parent.get k with
    | none =>
      rw [hk] at h
      cases h
      exact ⟨0, .root hk⟩
    | some p =>
      rw [hk] at h
      obtain ⟨n, hn⟩ := ih h
      exact ⟨n + 1, .up hk hn⟩

/-- **Bounded walks find the root**: one lookup more than there are edges is enough. -/
theorem follow_eq_some {k r : K} :
    follow parent (parent.entries.length + 1) k = some r ↔ ∃ n, Leads parent n k r :=
  ⟨leads_of_follow, fun ⟨_, h⟩ => h.follow (Nat.lt_succ_of_le h.length_le)⟩

end Forest

/-! ## Lists split by a key -/

section Split

universe u v

variable {α : Type u} {β : Type v} [DecidableEq β]

theorem nodup_eraseDups (l : List β) : l.eraseDups.Nodup := by
  induction hn : l.length using Nat.strong_induction_on generalizing l with
  | _ n ih =>
    cases l with
    | nil => simp
    | cons b l =>
      rw [List.eraseDups_cons, List.nodup_cons]
      constructor
      · simp
      · have hle := List.length_filter_le (fun c => !c == b) l
        rw [List.length_cons] at hn
        exact ih _ (by omega) _ rfl

/-- Splitting a list by a key and joining the parts, one for each key, loses and repeats
nothing. -/
theorem perm_flatMap_filter {keys : List β} {l : List α} {f : α → β} (hnodup : keys.Nodup)
    (hkeys : ∀ x ∈ l, f x ∈ keys) :
    (keys.flatMap fun key => l.filter fun x => f x = key).Perm l := by
  induction l with
  | nil => simp
  | cons x l ih =>
    have hx := hkeys x List.mem_cons_self
    obtain ⟨before, after, rfl⟩ := List.append_of_mem hx
    have hrest := ih fun y hy => hkeys y (List.mem_cons_of_mem _ hy)
    rw [List.nodup_append, List.nodup_cons] at hnodup
    have hbefore : ∀ key ∈ before, f x ≠ key := fun key hkey heq =>
      hnodup.2.2 key hkey (f x) List.mem_cons_self heq.symm
    have hafter : ∀ key ∈ after, f x ≠ key := fun key hkey heq => hnodup.2.1.1 (heq ▸ hkey)
    have hskip : ∀ keys : List β, (∀ key ∈ keys, f x ≠ key) →
        (keys.flatMap fun key => (x :: l).filter fun y => f y = key) =
          keys.flatMap fun key => l.filter fun y => f y = key := by
      intro keys hne
      refine List.flatMap_congr fun key hkey => ?_
      rw [List.filter_cons_of_neg (by simpa using hne key hkey)]
    rw [List.flatMap_append, List.flatMap_cons] at hrest ⊢
    rw [hskip before hbefore, hskip after hafter, List.filter_cons_of_pos (by simp)]
    rw [List.cons_append]
    exact List.perm_middle.trans (hrest.cons x)

end Split

end Afactory
