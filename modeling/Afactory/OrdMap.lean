import Mathlib.Data.List.Basic
import Mathlib.Data.List.Nodup
import Mathlib.Data.List.Induction
import Mathlib.Order.Basic
import Mathlib.Algebra.BigOperators.Group.List.Basic
import Mathlib.Algebra.Order.BigOperators.Group.List
import Mathlib.Algebra.Order.Ring.Nat

/-!
# Ordered finite maps

The finite maps the kernel keeps its state in: an association list in strictly
increasing key order, with the order carried as a field, so two maps with the
same lookups are equal and every iteration visits the keys in order.

* `get`, `insert`, `erase` with the two lookup equations and extensionality;
* `sum`, the sum of a weight over the entries, with its two update equations:
  every conservation law about a map of accounts is an instance of these;
* `mem_iff_get`, which turns statements about iteration into statements about
  lookups.
-/

namespace Afactory

universe u v w

/-! ## Lookup and sorted insertion on entry lists -/

section Entries

variable {K : Type u} {V : Type v} [LinearOrder K]

/-- The value the first entry of key `k` holds. -/
@[grind =] def lookup (k : K) : List (K × V) → Option V
  | [] => none
  | e :: t => if e.1 = k then some e.2 else lookup k t

/-- Insertion in key order; an entry of the same key is replaced. -/
@[grind =] def insertEntry (k : K) (v : V) : List (K × V) → List (K × V)
  | [] => [(k, v)]
  | e :: t =>
    if k < e.1 then (k, v) :: e :: t
    else if k = e.1 then (k, v) :: t
    else e :: insertEntry k v t

/-- Strictly increasing keys. -/
def Sorted (l : List (K × V)) : Prop := l.Pairwise fun p q => p.1 < q.1

theorem mem_insertEntry {k : K} {v : V} {p : K × V} {l : List (K × V)}
    (h : p ∈ insertEntry k v l) : p = (k, v) ∨ p ∈ l := by
  induction l with
  | nil => simpa [insertEntry] using h
  | cons e t ih =>
    rw [insertEntry] at h
    split_ifs at h with h₁ h₂
    · simpa using h
    · rcases List.mem_cons.mp h with h | h
      · exact .inl h
      · exact .inr (List.mem_cons_of_mem _ h)
    · rcases List.mem_cons.mp h with h | h
      · exact .inr (by rw [h]; exact List.mem_cons_self)
      · rcases ih h with h | h
        · exact .inl h
        · exact .inr (List.mem_cons_of_mem _ h)

theorem Sorted.insertEntry {l : List (K × V)} (h : Sorted l) (k : K) (v : V) :
    Sorted (insertEntry k v l) := by
  induction l with
  | nil => exact List.pairwise_singleton _ _
  | cons e t ih =>
    obtain ⟨he, ht⟩ := List.pairwise_cons.mp h
    rw [Afactory.insertEntry]
    split_ifs with h₁ h₂
    · refine List.pairwise_cons.mpr ⟨fun p hp => ?_, h⟩
      rcases List.mem_cons.mp hp with rfl | hp
      · exact h₁
      · exact h₁.trans (he p hp)
    · exact List.pairwise_cons.mpr ⟨fun p hp => h₂ ▸ he p hp, ht⟩
    · refine List.pairwise_cons.mpr ⟨fun p hp => ?_, ih ht⟩
      rcases mem_insertEntry hp with rfl | hp
      · exact lt_of_le_of_ne (not_lt.mp h₁) (Ne.symm h₂)
      · exact he p hp

theorem lookup_insertEntry (k k' : K) (v : V) (l : List (K × V)) :
    lookup k' (insertEntry k v l) = if k' = k then some v else lookup k' l := by
  induction l with
  | nil => simp [insertEntry, lookup, eq_comm]
  | cons e t ih =>
    rw [insertEntry]
    by_cases hk : k' = k
    · rw [if_pos hk]
      split_ifs with h₁ h₂
      · simp [lookup, hk]
      · simp [lookup, hk]
      · rw [lookup, if_neg (hk ▸ Ne.symm h₂), ih, if_pos hk]
    · rw [if_neg hk]
      split_ifs with h₁ h₂
      · rw [lookup, if_neg (Ne.symm hk)]
      · rw [lookup, if_neg (Ne.symm hk), lookup, if_neg (h₂ ▸ Ne.symm hk)]
      · rw [lookup, lookup, ih, if_neg hk]

theorem lookup_eq_none_of_lt {k : K} {l : List (K × V)} (h : ∀ p ∈ l, k < p.1) :
    lookup k l = none := by
  induction l with
  | nil => rfl
  | cons e t ih =>
    have he : e.1 ≠ k := ne_of_gt (h e List.mem_cons_self)
    rw [lookup, if_neg he]
    exact ih fun p hp => h p (List.mem_cons_of_mem _ hp)

theorem Sorted.mem_iff {l : List (K × V)} (h : Sorted l) {k : K} {v : V} :
    (k, v) ∈ l ↔ lookup k l = some v := by
  induction l with
  | nil => simp [lookup]
  | cons e t ih =>
    obtain ⟨he, ht⟩ := List.pairwise_cons.mp h
    rw [lookup]
    split_ifs with hk
    · constructor
      · intro hm
        rcases List.mem_cons.mp hm with rfl | hm
        · rfl
        · exact absurd (he _ hm) (by simp [hk])
      · intro hv
        obtain rfl := Option.some.inj hv
        exact List.mem_cons.mpr (.inl (by rw [← hk]))
    · rw [← ih ht, List.mem_cons]
      exact or_iff_right fun heq => hk (by rw [← heq])

theorem lookup_filter_ne (k k' : K) (l : List (K × V)) :
    lookup k' (l.filter fun p => p.1 ≠ k) = if k' = k then none else lookup k' l := by
  induction l with
  | nil => simp [lookup]
  | cons e t ih =>
    by_cases he : e.1 = k
    · rw [List.filter_cons_of_neg (by simp [he]), ih, lookup]
      split_ifs with h₁ h₂
      · rfl
      · exact absurd (h₂ ▸ he) h₁
      · rfl
    · rw [List.filter_cons_of_pos (by simp [he]), lookup, lookup, ih]
      split_ifs with h₁ h₂
      · exact absurd (h₁.trans h₂) he
      · rfl
      · rfl
      · rfl

theorem Sorted.ext {l l' : List (K × V)} (h : Sorted l) (h' : Sorted l')
    (heq : ∀ k, lookup k l = lookup k l') : l = l' := by
  induction l generalizing l' with
  | nil =>
    cases l' with
    | nil => rfl
    | cons e t => simpa [lookup] using heq e.1
  | cons e t ih =>
    cases l' with
    | nil => simpa [lookup] using heq e.1
    | cons e' t' =>
      obtain ⟨he, ht⟩ := List.pairwise_cons.mp h
      obtain ⟨he', ht'⟩ := List.pairwise_cons.mp h'
      -- The heads agree: the smaller one would be missing from the other list.
      have hk : e.1 = e'.1 := by
        rcases lt_trichotomy e.1 e'.1 with hlt | heq' | hgt
        · have := heq e.1
          rw [lookup_eq_none_of_lt (l := e' :: t')] at this
          · simp [lookup] at this
          · intro p hp
            rcases List.mem_cons.mp hp with rfl | hp
            · exact hlt
            · exact hlt.trans (he' p hp)
        · exact heq'
        · have := heq e'.1
          rw [lookup_eq_none_of_lt (l := e :: t)] at this
          · simp [lookup] at this
          · intro p hp
            rcases List.mem_cons.mp hp with rfl | hp
            · exact hgt
            · exact hgt.trans (he p hp)
      have hv : e.2 = e'.2 := by
        have := heq e.1
        rw [lookup, if_pos rfl, lookup, if_pos hk.symm] at this
        exact Option.some.inj this
      have hhead : e = e' := Prod.ext hk hv
      subst hhead
      refine congrArg (e :: ·) (ih ht ht' fun k => ?_)
      have := heq k
      rw [lookup, lookup] at this
      by_cases hek : e.1 = k
      · rw [lookup_eq_none_of_lt fun p hp => hek ▸ he p hp,
          lookup_eq_none_of_lt fun p hp => hek ▸ he' p hp]
      · simpa only [if_neg hek] using this

end Entries

/-! ## The map -/

/-- A finite map from `K` to `V`, its entries in strictly increasing key order. -/
structure OrdMap (K : Type u) (V : Type v) [LinearOrder K] where
  /-- the entries, in key order -/
  entries : List (K × V)
  /-- the keys strictly increase -/
  sorted : Sorted entries

namespace OrdMap

variable {K : Type u} {V : Type v} [LinearOrder K]

instance [DecidableEq V] : DecidableEq (OrdMap K V) := fun m m' =>
  decidable_of_iff (m.entries = m'.entries)
    ⟨fun h => by cases m; cases m'; simp_all, fun h => h ▸ rfl⟩

/-- The map without entries. -/
def empty : OrdMap K V := ⟨[], List.Pairwise.nil⟩

instance : Inhabited (OrdMap K V) := ⟨empty⟩

/-- The value at a key. -/
def get (m : OrdMap K V) (k : K) : Option V := lookup k m.entries

/-- Whether the map has an entry at a key. -/
def contains (m : OrdMap K V) (k : K) : Bool := (m.get k).isSome

/-- Write the value at a key. -/
def insert (m : OrdMap K V) (k : K) (v : V) : OrdMap K V :=
  ⟨insertEntry k v m.entries, m.sorted.insertEntry k v⟩

/-- Remove the entry at a key. -/
def erase (m : OrdMap K V) (k : K) : OrdMap K V :=
  ⟨m.entries.filter fun p => p.1 ≠ k, m.sorted.filter _⟩

/-- Write a list of entries, later ones last. -/
def insertAll (m : OrdMap K V) (l : List (K × V)) : OrdMap K V :=
  l.foldl (fun m p => m.insert p.1 p.2) m

/-- The map of a list of entries; a later entry replaces an earlier one. -/
def ofList (l : List (K × V)) : OrdMap K V := empty.insertAll l

/-- The keys, in order. -/
def keys (m : OrdMap K V) : List K := m.entries.map Prod.fst

/-- The values, in key order. -/
def values (m : OrdMap K V) : List V := m.entries.map Prod.snd

/-- Replace every value, keeping the keys. -/
def mapVal {W : Type w} (f : K → V → W) (m : OrdMap K V) : OrdMap K W :=
  ⟨m.entries.map fun p => (p.1, f p.1 p.2),
    by rw [Sorted, List.pairwise_map]; exact m.sorted⟩

/-- The sum of a weight over the entries. -/
def sum (m : OrdMap K V) (f : K → V → ℕ) : ℕ := (m.entries.map fun p => f p.1 p.2).sum

theorem ext {m m' : OrdMap K V} (h : ∀ k, m.get k = m'.get k) : m = m' := by
  obtain ⟨l, hl⟩ := m
  obtain ⟨l', hl'⟩ := m'
  obtain rfl : l = l' := hl.ext hl' h
  rfl

@[simp] theorem get_empty (k : K) : (empty : OrdMap K V).get k = none := rfl

theorem get_insert (m : OrdMap K V) (k k' : K) (v : V) :
    (m.insert k v).get k' = if k' = k then some v else m.get k' :=
  lookup_insertEntry k k' v m.entries

@[simp] theorem get_insert_self (m : OrdMap K V) (k : K) (v : V) :
    (m.insert k v).get k = some v := by
  rw [get_insert, if_pos rfl]

theorem get_insert_ne (m : OrdMap K V) {k k' : K} (v : V) (h : k' ≠ k) :
    (m.insert k v).get k' = m.get k' := by
  rw [get_insert, if_neg h]

theorem insert_insert (m : OrdMap K V) (k : K) (v v' : V) :
    (m.insert k v).insert k v' = m.insert k v' := by
  refine ext fun k' => ?_
  rw [get_insert, get_insert, get_insert]
  split_ifs <;> rfl

theorem get_erase (m : OrdMap K V) (k k' : K) :
    (m.erase k).get k' = if k' = k then none else m.get k' :=
  lookup_filter_ne k k' m.entries

@[simp] theorem get_erase_self (m : OrdMap K V) (k : K) : (m.erase k).get k = none := by
  rw [get_erase, if_pos rfl]

/-- What is left after erasing keys was there before. -/
theorem get_of_get_foldl_erase {ks : List K} {m : OrdMap K V} {k : K} {v : V}
    (h : (ks.foldl erase m).get k = some v) : m.get k = some v := by
  induction ks generalizing m with
  | nil => exact h
  | cons k' ks ih =>
    have h := ih h
    rw [get_erase] at h
    split_ifs at h
    exact h

theorem mem_iff_get {m : OrdMap K V} {k : K} {v : V} :
    (k, v) ∈ m.entries ↔ m.get k = some v :=
  m.sorted.mem_iff

theorem contains_iff {m : OrdMap K V} {k : K} : m.contains k = true ↔ ∃ v, m.get k = some v := by
  rw [contains, Option.isSome_iff_exists]

theorem mem_values_iff {m : OrdMap K V} {v : V} : v ∈ m.values ↔ ∃ k, m.get k = some v := by
  constructor
  · intro h
    obtain ⟨p, hp, rfl⟩ := List.mem_map.mp h
    exact ⟨p.1, mem_iff_get.mp hp⟩
  · rintro ⟨k, hk⟩
    exact List.mem_map.mpr ⟨(k, v), mem_iff_get.mpr hk, rfl⟩

theorem mem_keys_iff {m : OrdMap K V} {k : K} : k ∈ m.keys ↔ ∃ v, m.get k = some v := by
  constructor
  · intro h
    obtain ⟨p, hp, rfl⟩ := List.mem_map.mp h
    exact ⟨p.2, mem_iff_get.mp hp⟩
  · rintro ⟨v, hv⟩
    exact List.mem_map.mpr ⟨(k, v), mem_iff_get.mpr hv, rfl⟩

theorem keys_nodup (m : OrdMap K V) : m.keys.Nodup :=
  List.pairwise_map.mpr (m.sorted.imp ne_of_lt)

theorem keys_insert_perm {m : OrdMap K V} {k : K} (h : m.get k = none) (v : V) :
    (m.insert k v).keys.Perm (k :: m.keys) := by
  have hnew : k ∉ m.keys := by
    rw [mem_keys_iff, h]
    simp
  refine (List.perm_ext_iff_of_nodup (keys_nodup _)
    (List.nodup_cons.mpr ⟨hnew, keys_nodup m⟩)).mpr fun j => ?_
  rw [List.mem_cons, mem_keys_iff, mem_keys_iff, get_insert]
  by_cases hj : j = k <;> simp [hj]

theorem keys_erase_perm (m : OrdMap K V) (k : K) : (m.erase k).keys.Perm (m.keys.erase k) := by
  refine (List.perm_ext_iff_of_nodup (keys_nodup _) ((keys_nodup m).erase k)).mpr fun j => ?_
  rw [(keys_nodup m).mem_erase_iff, mem_keys_iff, mem_keys_iff, get_erase]
  by_cases hj : j = k <;> simp [hj]

theorem get_insertAll (m : OrdMap K V) (l : List (K × V)) (k : K) :
    (m.insertAll l).get k = ((lookup k l.reverse).or (m.get k)) := by
  induction l using List.reverseRecOn with
  | nil => rfl
  | append_singleton l e ih =>
    rw [insertAll, List.foldl_append, List.foldl_cons, List.foldl_nil, List.reverse_append,
      List.reverse_singleton, List.singleton_append, lookup, get_insert]
    by_cases hk : k = e.1
    · rw [if_pos hk, if_pos hk.symm]
      rfl
    · rw [if_neg hk, if_neg (Ne.symm hk)]
      exact ih

theorem get_insertAll_of_not_mem {m : OrdMap K V} {l : List (K × V)} {k : K}
    (h : k ∉ l.map Prod.fst) : (m.insertAll l).get k = m.get k := by
  induction l generalizing m with
  | nil => rfl
  | cons e l ih =>
    rw [List.map_cons, List.mem_cons, not_or] at h
    rw [insertAll, List.foldl_cons]
    exact (ih h.2).trans (get_insert_ne _ _ h.1)

/-- Every key of a list that was written has a value of the list. -/
theorem get_insertAll_of_mem {m : OrdMap K V} {l : List (K × V)} {k : K}
    (h : k ∈ l.map Prod.fst) : ∃ v, (k, v) ∈ l ∧ (m.insertAll l).get k = some v := by
  induction l generalizing m with
  | nil => cases h
  | cons e l ih =>
    rw [insertAll, List.foldl_cons]
    by_cases hk : k ∈ l.map Prod.fst
    · obtain ⟨v, hv, hget⟩ := ih (m := m.insert e.1 e.2) hk
      exact ⟨v, List.mem_cons_of_mem _ hv, hget⟩
    · rw [List.map_cons, List.mem_cons] at h
      obtain rfl := h.resolve_right hk
      refine ⟨e.2, List.mem_cons_self, ?_⟩
      exact (get_insertAll_of_not_mem hk).trans (get_insert_self _ _ _)

/-- One value written at every key of a list. -/
theorem get_insertAll_const (m : OrdMap K V) (ks : List K) (v : V) (k : K) :
    (m.insertAll (ks.map fun key => (key, v))).get k = if k ∈ ks then some v else m.get k := by
  induction ks generalizing m with
  | nil => rfl
  | cons key ks ih =>
    rw [List.map_cons, insertAll, List.foldl_cons]
    refine (ih (m.insert key v)).trans ?_
    rw [get_insert]
    by_cases hk : k = key <;> simp [hk]

theorem lookup_mem {k : K} {v : V} {l : List (K × V)} (h : lookup k l = some v) :
    (k, v) ∈ l := by
  induction l with
  | nil => cases h
  | cons e t ih =>
    rw [lookup] at h
    split_ifs at h with hk
    · cases h
      cases hk
      exact List.mem_cons_self
    · exact List.mem_cons_of_mem _ (ih h)

/-- An entry of a map after a list was written is of the list or was there. -/
theorem get_insertAll_cases {m : OrdMap K V} {l : List (K × V)} {k : K} {v : V}
    (h : (m.insertAll l).get k = some v) : (k, v) ∈ l ∨ m.get k = some v := by
  rw [get_insertAll] at h
  cases hl : lookup k l.reverse with
  | none =>
    rw [hl, Option.none_or] at h
    exact .inr h
  | some w =>
    rw [hl, Option.some_or] at h
    cases h
    exact .inl (List.mem_reverse.mp (lookup_mem hl))

theorem exists_get_insertAll {m : OrdMap K V} (l : List (K × V)) {k : K}
    (h : ∃ v, m.get k = some v) : ∃ v, (m.insertAll l).get k = some v := by
  obtain ⟨v, hv⟩ := h
  rw [get_insertAll, hv]
  cases lookup k l.reverse with
  | none => exact ⟨v, rfl⟩
  | some w => exact ⟨w, rfl⟩

theorem get_mapVal {W : Type w} (f : K → V → W) (m : OrdMap K V) (k : K) :
    (m.mapVal f).get k = (m.get k).map (f k) := by
  obtain ⟨l, hl⟩ := m
  simp only [get, mapVal]
  clear hl
  induction l with
  | nil => rfl
  | cons e t ih =>
    rw [List.map_cons, lookup, lookup]
    split_ifs with hk
    · cases hk
      rfl
    · exact ih

/-! ## Updating several keys -/

/-- Rewrite the entry at each key in turn; `f` sees the value that is there, if
any, and stops the whole update where it has no answer. -/
@[grind =] def updateEach (f : Option V → Option V) : List K → OrdMap K V → Option (OrdMap K V)
  | [], m => some m
  | k :: ks, m => (f (m.get k)).bind fun v => updateEach f ks (m.insert k v)

/-- The update of distinct keys, where `f` has an answer at each of them. -/
theorem updateEach_eq_some {f : Option V → Option V} {g : Option V → V} {ks : List K}
    {m : OrdMap K V} (hks : ks.Nodup) (hf : ∀ k ∈ ks, f (m.get k) = some (g (m.get k))) :
    ∃ m', updateEach f ks m = some m' ∧ (∀ k ∈ ks, m'.get k = some (g (m.get k))) ∧
      ∀ k, k ∉ ks → m'.get k = m.get k := by
  induction ks generalizing m with
  | nil => exact ⟨m, rfl, fun k hk => absurd hk List.not_mem_nil, fun k _ => rfl⟩
  | cons k ks ih =>
    obtain ⟨hk, hks⟩ := List.nodup_cons.mp hks
    have hhead := hf k List.mem_cons_self
    obtain ⟨m', hm', hin, hout⟩ := ih (m := m.insert k (g (m.get k))) hks fun k' hk' => by
      have hne : k' ≠ k := fun h => hk (h ▸ hk')
      rw [get_insert_ne _ _ hne]
      exact hf k' (List.mem_cons_of_mem _ hk')
    refine ⟨m', by rw [updateEach, hhead]; exact hm', fun k' hk' => ?_, fun k' hk' => ?_⟩
    · by_cases hkk : k' = k
      · subst hkk
        rw [hout k' hk, get_insert_self]
      · have hmem : k' ∈ ks := (List.mem_cons.mp hk').resolve_left hkk
        rw [hin k' hmem, get_insert_ne _ _ hkk]
    · obtain ⟨hne, hnot⟩ := not_or.mp (mt List.mem_cons.mpr hk')
      rw [hout k' hnot, get_insert_ne _ _ hne]

/-! ## Sums over the entries -/

@[simp] theorem sum_empty (f : K → V → ℕ) : (empty : OrdMap K V).sum f = 0 := rfl

theorem sum_congr {m : OrdMap K V} {f g : K → V → ℕ}
    (h : ∀ k v, m.get k = some v → f k v = g k v) : m.sum f = m.sum g := by
  refine congrArg List.sum (List.map_congr_left fun p hp => ?_)
  exact h p.1 p.2 (mem_iff_get.mp hp)

theorem sum_le_sum {m : OrdMap K V} {f g : K → V → ℕ}
    (h : ∀ k v, m.get k = some v → f k v ≤ g k v) : m.sum f ≤ m.sum g :=
  List.sum_le_sum fun p hp => h p.1 p.2 (mem_iff_get.mp hp)

theorem sum_add (m : OrdMap K V) (f g : K → V → ℕ) :
    (m.sum fun k v => f k v + g k v) = m.sum f + m.sum g :=
  List.sum_map_add

theorem sum_eq_zero {m : OrdMap K V} {f : K → V → ℕ}
    (h : ∀ k v, m.get k = some v → f k v = 0) : m.sum f = 0 := by
  rw [sum_congr h]
  simp [sum]

/-- **Erasing** an entry takes its weight off the sum. -/
theorem sum_erase (m : OrdMap K V) (k : K) (f : K → V → ℕ) :
    (m.erase k).sum f + (m.get k).elim 0 (f k) = m.sum f := by
  obtain ⟨l, hl⟩ := m
  simp only [sum, erase, get]
  induction l with
  | nil => rfl
  | cons e t ih =>
    obtain ⟨he, ht⟩ := List.pairwise_cons.mp hl
    by_cases hk : e.1 = k
    · have hnone : lookup k t = none := lookup_eq_none_of_lt fun p hp => hk ▸ he p hp
      have := ih ht
      rw [hnone] at this
      rw [List.filter_cons_of_neg (by simp [hk]), lookup, if_pos hk, List.map_cons,
        List.sum_cons, ← this]
      subst hk
      simp only [Option.elim]
      omega
    · rw [List.filter_cons_of_pos (by simp [hk]), lookup, if_neg hk, List.map_cons, List.map_cons,
        List.sum_cons, List.sum_cons, ← ih ht, Nat.add_assoc]

/-- **Inserting** an entry adds its weight and takes off the replaced one's. -/
theorem sum_insert (m : OrdMap K V) (k : K) (v : V) (f : K → V → ℕ) :
    (m.insert k v).sum f + (m.get k).elim 0 (f k) = m.sum f + f k v := by
  have herase : (m.insert k v).erase k = m.erase k := by
    refine ext fun k' => ?_
    rw [get_erase, get_erase, get_insert]
    split_ifs <;> rfl
  have h₁ := sum_erase (m.insert k v) k f
  have h₂ := sum_erase m k f
  rw [herase, get_insert_self] at h₁
  simp only [Option.elim] at h₁
  omega

theorem sum_insert_of_none {m : OrdMap K V} {k : K} (h : m.get k = none) (v : V)
    (f : K → V → ℕ) : (m.insert k v).sum f = m.sum f + f k v := by
  have := sum_insert m k v f
  rw [h] at this
  simpa using this

theorem sum_insert_of_some {m : OrdMap K V} {k : K} {v' : V} (h : m.get k = some v') (v : V)
    (f : K → V → ℕ) : (m.insert k v).sum f + f k v' = m.sum f + f k v := by
  have := sum_insert m k v f
  rw [h] at this
  simpa using this

/-- Two weights that differ at one key. -/
theorem sum_update {m : OrdMap K V} {k : K} {v : V} {f g : K → V → ℕ} (h : m.get k = some v)
    (hfg : ∀ k' v', k' ≠ k → m.get k' = some v' → g k' v' = f k' v') :
    m.sum g + f k v = m.sum f + g k v := by
  have hg := sum_erase m k g
  have hf := sum_erase m k f
  have hrest : (m.erase k).sum g = (m.erase k).sum f := by
    refine sum_congr fun k' v' hget => ?_
    rw [get_erase] at hget
    split_ifs at hget with hk
    exact hfg k' v' hk hget
  rw [h] at hg hf
  simp only [Option.elim] at hg hf
  omega

/-- Writing entries of weight zero over others of weight zero. -/
theorem sum_insertAll_of_zero {l : List (K × V)} {m : OrdMap K V} {f : K → V → ℕ}
    (hl : ∀ p ∈ l, f p.1 p.2 = 0) (hm : ∀ p ∈ l, (m.get p.1).elim 0 (f p.1) = 0) :
    (m.insertAll l).sum f = m.sum f := by
  induction l generalizing m with
  | nil => rfl
  | cons e l ih =>
    have hhead := sum_insert m e.1 e.2 f
    rw [hm e List.mem_cons_self, hl e List.mem_cons_self] at hhead
    refine Eq.trans (ih (m := m.insert e.1 e.2) (fun p hp => hl p (List.mem_cons_of_mem _ hp))
      fun p hp => ?_) hhead
    rw [get_insert]
    split_ifs with hk
    · have := hl e List.mem_cons_self
      rw [← hk] at this
      exact this
    · exact hm p (List.mem_cons_of_mem _ hp)

theorem sum_mapVal {W : Type w} (g : K → V → W) (m : OrdMap K V) (f : K → W → ℕ) :
    (m.mapVal g).sum f = m.sum fun k v => f k (g k v) := by
  rw [sum, sum, mapVal, List.map_map]
  rfl

/-- One entry's weight is at most the sum. -/
theorem le_sum {m : OrdMap K V} {k : K} {v : V} (h : m.get k = some v) (f : K → V → ℕ) :
    f k v ≤ m.sum f := by
  have := sum_erase m k f
  rw [h] at this
  simp only [Option.elim] at this
  omega

/-! ### Sizes -/

theorem length_insertEntry_le (k : K) (v : V) (l : List (K × V)) :
    (insertEntry k v l).length ≤ l.length + 1 := by
  induction l with
  | nil => simp [insertEntry]
  | cons e t ih =>
    rw [insertEntry]
    split_ifs
    · simp
    · simp
    · simpa using ih

theorem length_insert_le (m : OrdMap K V) (k : K) (v : V) :
    (m.insert k v).entries.length ≤ m.entries.length + 1 := length_insertEntry_le k v m.entries

theorem length_insertAll_le (m : OrdMap K V) (l : List (K × V)) :
    (m.insertAll l).entries.length ≤ m.entries.length + l.length := by
  induction l generalizing m with
  | nil => simp [insertAll]
  | cons e l ih =>
    have hinsert := m.length_insert_le e.1 e.2
    have hrest := ih (m.insert e.1 e.2)
    rw [List.length_cons]
    exact hrest.trans (by omega)

theorem length_ofList_le (l : List (K × V)) : (ofList l).entries.length ≤ l.length :=
  (length_insertAll_le empty l).trans_eq (Nat.zero_add _)

theorem length_erase_lt {m : OrdMap K V} {k : K} {v : V} (h : m.get k = some v) :
    (m.erase k).entries.length < m.entries.length :=
  List.length_filter_lt_length_iff_exists.mpr ⟨_, mem_iff_get.mpr h, by simp⟩

end OrdMap

end Afactory
