import Mathlib
import Afactory.StoreReach
import Afactory.Worklist

/-!
# The reachability of a Store is exact

* `mem_spelledDigests`: chunks spell what the whole file spells;
* `Walk.Searching`: what holds during the walk of a record, over shared edges and stamps;
* `walkRecords_spec`: every record's closure, and the number of records that reach an object;
* `retained_spec`: counting collected runs down never underflows;
* `sweep_spec`: what the sweep removes and what is reached afterwards;
* `reach_exact`: all of it.
-/

namespace Afactory

namespace Collection

open Json (Bytes)
open Worklist

/-! ## Spelled digests -/

theorem mem_textSet {texts : List String} {text : String} : text ∈ textSet texts ↔ text ∈ texts := by
  rw [textSet, List.mem_dedup, List.mem_mergeSort]

theorem nodup_textSet (texts : List String) : (textSet texts).Nodup := List.nodup_dedup _

/-- The bytes of a spelled digest. -/
def Spelling (word : Bytes) : Prop :=
  word.length = spelledDigestLen ∧ Json.utf8 "sha256:" <+: word ∧ (word.drop 7).all lowerHex = true

theorem spells_iff {bytes : Bytes} :
    spells bytes = true ↔ Spelling (bytes.take spelledDigestLen) ∧
      spelledDigestLen ≤ bytes.length := by
  have hseven : (Json.utf8 "sha256:").length = 7 := by decide
  simp only [spells, Bool.and_eq_true, decide_eq_true_eq, Spelling, List.length_take]
  constructor
  · rintro ⟨⟨hstart, hlen⟩, hhex⟩
    refine ⟨⟨min_eq_left hlen, ?_, hhex⟩, hlen⟩
    exact List.prefix_take_iff.mpr ⟨hstart, by rw [hseven]; decide⟩
  · rintro ⟨⟨-, hstart, hhex⟩, hlen⟩
    exact ⟨⟨hstart.trans (List.take_prefix _ _), hlen⟩, hhex⟩

/-- **The scan** finds every spelled digest that stands somewhere. -/
theorem mem_scanDigests {bytes : Bytes} {digest : String} :
    digest ∈ scanDigests bytes ↔ ∃ word, Spelling word ∧ word <:+: bytes ∧ asciiText word = digest := by
  induction bytes with
  | nil =>
    refine iff_of_false (List.not_mem_nil) ?_
    rintro ⟨word, ⟨hlen, -⟩, hword, -⟩
    rw [List.infix_nil.mp hword] at hlen
    cases hlen
  | cons byte rest ih =>
    have hword : ∀ word : Bytes, Spelling word → (word <+: byte :: rest ↔
        spells (byte :: rest) = true ∧ word = (byte :: rest).take spelledDigestLen) := by
      intro word hspelling
      rw [List.prefix_iff_eq_take, hspelling.1]
      refine ⟨fun h => ⟨spells_iff.mpr ⟨h ▸ hspelling, ?_⟩, h⟩, fun h => h.2⟩
      have hlen := congrArg List.length h
      rw [hspelling.1, List.length_take] at hlen
      exact min_eq_left_iff.mp hlen.symm
    rw [scanDigests]
    split_ifs with h
    · rw [List.mem_cons, ih]
      constructor
      · rintro (rfl | ⟨word, hspelling, hpart, rfl⟩)
        · exact ⟨_, (spells_iff.mp h).1, (List.take_prefix _ _).isInfix, rfl⟩
        · exact ⟨word, hspelling, List.infix_cons hpart, rfl⟩
      · rintro ⟨word, hspelling, hpart, rfl⟩
        rcases List.infix_cons_iff.mp hpart with hstart | hpart
        · exact .inl (congrArg asciiText ((hword word hspelling).mp hstart).2)
        · exact .inr ⟨word, hspelling, hpart, rfl⟩
    · rw [ih]
      constructor
      · rintro ⟨word, hspelling, hpart, rfl⟩
        exact ⟨word, hspelling, List.infix_cons hpart, rfl⟩
      · rintro ⟨word, hspelling, hpart, rfl⟩
        rcases List.infix_cons_iff.mp hpart with hstart | hpart
        · exact absurd ((hword word hspelling).mp hstart).1 h
        · exact ⟨word, hspelling, hpart, rfl⟩

/-- A word that ends beyond what was read begins in the window, if that holds one byte less than
the word or all that was read. -/
theorem infix_window {word before window chunk : Bytes}
    (h : before = [] ∨ window.length + 1 = word.length) :
    word <:+: before ++ window ++ chunk ↔ word <:+: before ++ window ∨ word <:+: window ++ chunk := by
  constructor
  · rintro ⟨s, t, hst⟩
    rw [List.append_assoc, List.append_assoc, List.append_eq_append_iff] at hst
    rcases hst with ⟨rest, hbefore, hrest⟩ | ⟨rest, hs, hrest⟩
    · rcases h with rfl | h
      · obtain ⟨-, rfl⟩ := List.append_eq_nil_iff.mp hbefore.symm
        exact .inr ⟨[], t, hrest⟩
      · cases rest with
        | nil => exact .inr ⟨[], t, by simpa using hrest⟩
        | cons first rest =>
          -- the word ends within the window
          refine .inl ?_
          have hlen := congrArg List.length hrest
          rw [← List.append_assoc, List.append_eq_append_iff] at hrest
          rcases hrest with ⟨tail, hword, -⟩ | ⟨tail, hword, -⟩
          · refine ⟨s, tail, ?_⟩
            rw [hbefore, List.append_assoc, List.append_assoc, hword]
          · have := congrArg List.length hword
            simp only [List.length_append, List.length_cons] at this
            have htail : tail = [] := List.length_eq_zero_iff.mp (by omega)
            refine ⟨s, [], ?_⟩
            rw [hbefore, hword, htail]
            simp
    · refine .inr ⟨rest, t, ?_⟩
      rw [hrest, List.append_assoc]
  · rintro (h | h)
    · exact h.trans (List.infix_append' [] _ chunk)
    · rw [List.append_assoc]
      exact h.trans (List.suffix_append before _).isInfix

/-- Between two chunks: what was read ends in the window, and its digests are found. -/
structure Scanned (read window : Bytes) (found : List String) : Prop where
  window : ∃ before, read = before ++ window ∧
    (before = [] ∨ window.length + 1 = spelledDigestLen)
  found : ∀ digest, digest ∈ found ↔ digest ∈ scanDigests read

theorem Scanned.chunk {read window : Bytes} {found : List String} (h : Scanned read window found)
    (chunk : Bytes) :
    Scanned (read ++ chunk)
      ((window ++ chunk).drop
        ((window ++ chunk).length - min (window ++ chunk).length (spelledDigestLen - 1)))
      (found ++ scanDigests (window ++ chunk)) where
  window := by
    obtain ⟨before, rfl, hbefore⟩ := h.window
    refine ⟨before ++ (window ++ chunk).take
        ((window ++ chunk).length - min (window ++ chunk).length (spelledDigestLen - 1)), ?_, ?_⟩
    · rw [List.append_assoc, List.append_assoc, List.take_append_drop]
    · rw [List.append_eq_nil_iff, List.length_drop]
      rcases Nat.lt_or_ge (window ++ chunk).length (spelledDigestLen - 1) with hshort | hlong
      · rw [min_eq_left hshort.le, Nat.sub_self, List.take_zero]
        rcases hbefore with hbefore | hbefore
        · exact .inl ⟨hbefore, rfl⟩
        · rw [List.length_append] at hshort
          omega
      · rw [min_eq_right hlong]
        exact .inr (by have : spelledDigestLen = 71 := rfl; omega)
  found digest := by
    obtain ⟨before, rfl, hbefore⟩ := h.window
    rw [List.mem_append, h.found, mem_scanDigests, mem_scanDigests, mem_scanDigests,
      ← exists_or]
    refine exists_congr fun word => ?_
    rw [← and_or_left]
    refine and_congr_right fun hspelling => ?_
    rw [← or_and_right]
    refine and_congr_left fun _ => ?_
    exact (infix_window (by rwa [hspelling.1])).symm

theorem scanChunks_spec {read window : Bytes} {found : List String} (h : Scanned read window found)
    (chunks : List Bytes) (digest : String) :
    digest ∈ scanChunks window found chunks ↔ digest ∈ scanDigests (read ++ chunks.flatten) := by
  induction chunks generalizing read window found with
  | nil =>
    rw [scanChunks, List.flatten_nil, List.append_nil]
    exact h.found digest
  | cons chunk chunks ih =>
    rw [scanChunks, ih (h.chunk chunk), List.flatten_cons, List.append_assoc]

/-- **No reference is missed between two chunks.** -/
theorem mem_spelledDigests {chunks : List Bytes} {digest : String} :
    digest ∈ spelledDigests chunks ↔ digest ∈ scanDigests chunks.flatten := by
  rw [spelledDigests, mem_textSet]
  exact scanChunks_spec ⟨⟨[], rfl, .inl rfl⟩, fun _ => Iff.rfl⟩ chunks digest

/-! ## What a record reaches -/

namespace Store

variable (store : Store)

/-- The records a collection has not tombstoned. -/
def uncollected : List RunRecord := store.records.filter fun record => !record.tombstoned

/-- An object spells the digest of another. -/
def Next (a b : FiledObject) : Prop := b ∈ store.objects ∧ b.digest ∈ scanDigests a.chunks.flatten

/-- A record spells the digest of an object. -/
def Root (record : RunRecord) (object : FiledObject) : Prop :=
  object ∈ store.objects ∧ object.digest ∈ record.roots

/-- A record reaches an object over any number of others. -/
def Reaches (record : RunRecord) (object : FiledObject) : Prop :=
  Reachable store.Next (store.Root record) object

variable {store}

theorem Reaches.mem {record : RunRecord} {object : FiledObject} (h : store.Reaches record object) :
    object ∈ store.objects :=
  h.rule (· ∈ store.objects) (fun _ hr => hr.1) fun _ _ _ _ hnext => hnext.1

theorem get_inj {p q : store.Position}
    (h : (store.objects.get p).digest = (store.objects.get q).digest) : p = q := by
  have hobject := List.inj_on_of_nodup_map store.objects_nodup (List.get_mem _ p) (List.get_mem _ q) h
  exact List.nodup_iff_injective_get.mp (List.Nodup.of_map _ store.objects_nodup) hobject

theorem index_eq_some {digest : String} {p : store.Position} :
    store.index digest = some p ↔ (store.objects.get p).digest = digest := by
  rw [index]
  constructor
  · intro h
    simpa using List.find?_some h
  · intro h
    cases hfind : (List.finRange store.objects.length).find? fun position =>
        decide ((store.objects.get position).digest = digest) with
    | none => exact absurd (List.find?_eq_none.mp hfind p (List.mem_finRange p)) (by simpa using h)
    | some q =>
      have hq : (store.objects.get q).digest = digest := by simpa using List.find?_some hfind
      rw [get_inj (hq.trans h.symm)]

theorem mem_edgesOf {p q : store.Position} :
    q ∈ store.edgesOf p ↔ store.Next (store.objects.get p) (store.objects.get q) := by
  rw [edgesOf, List.mem_filterMap, Next]
  constructor
  · rintro ⟨digest, hdigest, hindex⟩
    rw [index_eq_some.mp hindex]
    exact ⟨List.get_mem _ q, mem_spelledDigests.mp hdigest⟩
  · rintro ⟨-, hdigest⟩
    exact ⟨_, mem_spelledDigests.mpr hdigest, index_eq_some.mpr rfl⟩

theorem mem_rootPositions {record : RunRecord} {p : store.Position} :
    p ∈ (record.roots.filterMap store.index).reverse ↔ store.Root record (store.objects.get p) := by
  rw [List.mem_reverse, List.mem_filterMap, Root]
  constructor
  · rintro ⟨digest, hdigest, hindex⟩
    rw [index_eq_some.mp hindex]
    exact ⟨List.get_mem _ p, hdigest⟩
  · rintro ⟨-, hdigest⟩
    exact ⟨_, hdigest, index_eq_some.mpr rfl⟩

/-- What the positions reach is what the objects reach. -/
theorem reachable_get {record : RunRecord} {p : store.Position} :
    Reachable (fun p q => q ∈ store.edgesOf p)
        (· ∈ (record.roots.filterMap store.index).reverse) p ↔
      store.Reaches record (store.objects.get p) := by
  constructor
  · intro h
    refine h.rule (fun q => store.Reaches record (store.objects.get q)) (fun r hr => ?_)
      fun v w _ hv hw => hv.step (mem_edgesOf.mp hw)
    exact .of_root (mem_rootPositions.mp hr)
  · intro h
    refine h.rule (fun object => ∀ q, store.objects.get q = object →
      Reachable (fun p q => q ∈ store.edgesOf p)
        (· ∈ (record.roots.filterMap store.index).reverse) q) ?_ ?_ p rfl
    · rintro r hr q rfl
      exact .of_root (mem_rootPositions.mpr hr)
    · rintro v w hv hwalk hw q rfl
      obtain ⟨p, rfl⟩ := List.get_of_mem (Reaches.mem hv)
      exact (hwalk p rfl).step (mem_edgesOf.mpr hw)

/-! ## The walk of a record -/

/-- What the walks share: the edges that were read are those of the objects. -/
def Walk.Memo (walk : store.Walk) : Prop :=
  ∀ p edges, walk.edges p = some edges → edges = store.edgesOf p

/-- During the walk of a stamp: the stamped objects are those of the closure, and they were
counted once. -/
structure Walk.Searching (walk : store.Walk) (stamp : ℕ) (base : store.Position → ℕ)
    (root : store.Position → Prop) (stack : List store.Position) : Prop where
  memo : walk.Memo
  stamped : ∀ p, walk.seen p = stamp ↔ p ∈ walk.closure
  stale : ∀ p, walk.seen p ≤ stamp
  counted : ∀ p, walk.count p = base p + if p ∈ walk.closure then 1 else 0
  frontier : Frontier (fun p q => q ∈ store.edgesOf p) root walk.closure stack

theorem Walk.Memo.visit {walk : store.Walk} (h : walk.Memo) (stamp : ℕ) (p : store.Position) :
    (walk.visit stamp p).Memo ∧ (walk.visit stamp p).edges p = some (store.edgesOf p) := by
  have hedges : (walk.edges p).getD (store.edgesOf p) = store.edgesOf p := by
    cases hp : walk.edges p with
    | none => rfl
    | some edges => exact h p edges hp
  simp only [Memo, Walk.visit, hedges]
  refine ⟨fun q edges hq => ?_, Function.update_self ..⟩
  by_cases hpq : q = p
  · subst hpq
    rw [Function.update_self] at hq
    exact (Option.some.inj hq).symm
  · rw [Function.update_of_ne hpq] at hq
    exact h q edges hq

theorem Walk.Searching.visit {walk : store.Walk} {stamp : ℕ} {base : store.Position → ℕ}
    {root : store.Position → Prop} {stack : List store.Position} {p : store.Position}
    (h : walk.Searching stamp base root (p :: stack)) (hp : walk.seen p ≠ stamp) :
    (walk.visit stamp p).Searching stamp base root
      (((walk.visit stamp p).unseen stamp p).reverse ++ stack) := by
  have hnew : p ∉ walk.closure := fun hmem => hp ((h.stamped p).mpr hmem)
  have hstamped : ∀ q, (walk.visit stamp p).seen q = stamp ↔ q ∈ walk.closure ++ [p] := by
    intro q
    rw [List.mem_append, List.mem_singleton, ← h.stamped]
    by_cases hq : q = p
    · subst hq
      simp [Walk.visit]
    · simp [Walk.visit, hq]
  obtain ⟨hmemo, hedges⟩ := h.memo.visit stamp p
  refine ⟨hmemo, hstamped, fun q => ?_, fun q => ?_, h.frontier.visit hnew ?_ ?_⟩
  · by_cases hq : q = p
    · subst hq
      simp [Walk.visit]
    · simpa [Walk.visit, Function.update_of_ne hq] using h.stale q
  · by_cases hq : q = p
    · subst hq
      simp [Walk.visit, h.counted, hnew]
    · simp [Walk.visit, h.counted, hq]
  · intro q hq
    rw [List.mem_reverse, Walk.unseen, List.mem_filter, hedges] at hq
    exact hq.1
  · intro q hq
    rw [← hstamped, List.mem_append, List.mem_reverse, Walk.unseen, List.mem_filter, hedges]
    by_cases hseen : (walk.visit stamp p).seen q = stamp
    · exact .inl hseen
    · exact .inr (.inl ⟨hq, by simpa using hseen⟩)

theorem Walk.Searching.skip {walk : store.Walk} {stamp : ℕ} {base : store.Position → ℕ}
    {root : store.Position → Prop} {stack : List store.Position} {p : store.Position}
    (h : walk.Searching stamp base root (p :: stack)) (hp : walk.seen p = stamp) :
    walk.Searching stamp base root stack :=
  { h with frontier := h.frontier.skip ((h.stamped p).mp hp) }

/-- The walk goes on until the stack is empty. -/
theorem Walk.Searching.run {walk : store.Walk} {stamp : ℕ} {base : store.Position → ℕ}
    {root : store.Position → Prop} {stack : List store.Position}
    (h : walk.Searching stamp base root stack) :
    (walk.run stamp stack).Searching stamp base root [] := by
  induction walk, stack using Walk.run.induct stamp with
  | case1 walk =>
    rw [Walk.run]
    exact h
  | case2 walk p stack hp ih =>
    rw [Walk.run, if_pos hp]
    exact ih (h.skip hp)
  | case3 walk p stack hp walk' ih =>
    rw [Walk.run, if_neg hp]
    exact ih (h.visit hp)

/-- Between two walks: nothing is stamped with a stamp still to come. -/
structure Walk.Resting (walk : store.Walk) (stamp : ℕ) : Prop where
  memo : walk.Memo
  stale : ∀ p, walk.seen p ≤ stamp

theorem Walk.resting_empty : (Walk.empty store).Resting 0 where
  memo p edges h := by cases h
  stale p := le_refl 0

/-- **The walk of a record** visits what the record reaches, and counts it once. -/
theorem walkRecord_spec {walk : store.Walk} {stamp : ℕ} (h : walk.Resting stamp)
    (record : RunRecord) :
    let walk' := store.walkRecord (stamp + 1) walk record
    walk'.Resting (stamp + 1) ∧ walk'.closure.Nodup ∧
      (∀ p, p ∈ walk'.closure ↔ store.Reaches record (store.objects.get p)) ∧
      ∀ p, walk'.count p = walk.count p + if p ∈ walk'.closure then 1 else 0 := by
  have hstart : Walk.Searching { walk with closure := [] } (stamp + 1) walk.count
      (· ∈ (record.roots.filterMap store.index).reverse)
      (record.roots.filterMap store.index).reverse := by
    refine ⟨h.memo, fun p => ?_, fun p => ?_, fun p => by simp, .start fun _ => Iff.rfl⟩
    · have hold := h.stale p
      simp only [List.not_mem_nil, iff_false]
      omega
    · exact (h.stale p).trans (Nat.le_succ stamp)
  have hdone := hstart.run
  exact ⟨⟨hdone.memo, hdone.stale⟩, hdone.frontier.nodup, fun p =>
    (hdone.frontier.done p).trans reachable_get, hdone.counted⟩

open Classical in
/-- How many of the records are of a kind. -/
noncomputable def howMany (records : List RunRecord) (P : RunRecord → Prop) : ℕ :=
  (records.filter P).length

theorem howMany_cons (record : RunRecord) (records : List RunRecord) (P : RunRecord → Prop) :
    (P record → howMany (record :: records) P = howMany records P + 1) ∧
      (¬ P record → howMany (record :: records) P = howMany records P) := by
  constructor <;> intro h <;> simp [howMany, h]

/-- How many of the records reach an object. -/
noncomputable def reachers (store : Store) (records : List RunRecord) (object : FiledObject) : ℕ :=
  howMany records fun record => store.Reaches record object

/-- **All the walks.** -/
theorem walkRecords_spec {walk : store.Walk} {stamp : ℕ} (h : walk.Resting stamp)
    (records : List RunRecord) :
    List.Forall₂ (fun record run => run.1 = record.runId ∧ run.2.Nodup ∧
        ∀ p, p ∈ run.2 ↔ store.Reaches record (store.objects.get p))
      (records.filter fun record => !record.tombstoned)
      (store.walkRecords stamp walk records).1 ∧
    ∀ p, (store.walkRecords stamp walk records).2 p = walk.count p +
      store.reachers (records.filter fun record => !record.tombstoned) (store.objects.get p) := by
  induction records generalizing walk stamp with
  | nil => exact ⟨.nil, fun p => by simp [walkRecords, reachers, howMany]⟩
  | cons record records ih =>
    rw [walkRecords]
    split_ifs with htomb
    · simpa [htomb] using ih h
    · obtain ⟨hrest, hnodup, hmem, hcount⟩ := walkRecord_spec h record
      obtain ⟨hruns, hcounts⟩ := ih hrest
      have hfilter : (record :: records).filter (fun record => !record.tombstoned) =
          record :: records.filter fun record => !record.tombstoned := by simp [htomb]
      rw [hfilter]
      refine ⟨.cons ⟨rfl, hnodup, hmem⟩ hruns, fun p => ?_⟩
      obtain ⟨hyes, hno⟩ := howMany_cons record
        (records.filter fun record => !record.tombstoned)
        fun record => store.Reaches record (store.objects.get p)
      rw [hcounts, hcount, reachers, reachers]
      by_cases hp : store.Reaches record (store.objects.get p)
      · rw [if_pos ((hmem p).mpr hp), hyes hp]
        omega
      · rw [if_neg fun hp' => hp ((hmem p).mp hp'), hno hp, add_zero]

theorem uncollected_nodup (store : Store) : (store.uncollected.map RunRecord.runId).Nodup :=
  store.records_nodup.sublist (List.filter_sublist.map _)

/-- The closure of a record by its ID. -/
theorem lookup_spec {records : List RunRecord} (hnodup : (records.map RunRecord.runId).Nodup)
    {runs : List (String × List store.Position)} {P : RunRecord → List store.Position → Prop}
    (h : List.Forall₂ (fun record run => run.1 = record.runId ∧ P record run.2) records runs)
    (runId : String) :
    (∀ record ∈ records, record.runId = runId →
      ∃ closure, runs.lookup runId = some closure ∧ P record closure) ∧
    ((∀ record ∈ records, record.runId ≠ runId) → runs.lookup runId = none) := by
  induction h with
  | nil => exact ⟨nofun, fun _ => rfl⟩
  | @cons record run records runs hrun _ ih =>
    obtain ⟨id, closure⟩ := run
    obtain ⟨rfl, hclosure⟩ := hrun
    rw [List.map_cons, List.nodup_cons] at hnodup
    obtain ⟨hsome, hnone⟩ := ih hnodup.2
    constructor
    · intro other hother hid
      rcases List.mem_cons.mp hother with rfl | hother
      · exact ⟨closure, by rw [List.lookup_cons, hid, beq_self_eq_true], hclosure⟩
      · have hne : (runId == record.runId) = false := beq_eq_false_iff_ne.mpr fun heq =>
          hnodup.1 (heq ▸ hid ▸ List.mem_map_of_mem hother)
        rw [List.lookup_cons, hne]
        exact hsome other hother hid
    · intro hall
      have hne : (runId == record.runId) = false :=
        beq_eq_false_iff_ne.mpr (hall record List.mem_cons_self).symm
      rw [List.lookup_cons, hne]
      exact hnone fun other hother => hall other (List.mem_cons_of_mem _ hother)

theorem reach_lookup (store : Store) (runId : String) :
    (∀ record ∈ store.uncollected, record.runId = runId →
      ∃ closure, store.reach.runs.lookup runId = some closure ∧ closure.Nodup ∧
        ∀ p, p ∈ closure ↔ store.Reaches record (store.reach.objects.get p)) ∧
    ((∀ record ∈ store.uncollected, record.runId ≠ runId) →
      store.reach.runs.lookup runId = none) :=
  lookup_spec (P := fun record closure => closure.Nodup ∧
    ∀ p, p ∈ closure ↔ store.Reaches record (store.objects.get p)) store.uncollected_nodup
    (walkRecords_spec Walk.resting_empty store.records).1 runId

theorem reach_count (store : Store) (p : Fin store.reach.objects.length) :
    store.reach.count p = store.reachers store.uncollected (store.reach.objects.get p) :=
  ((walkRecords_spec Walk.resting_empty store.records).2 p).trans (zero_add _)

/-- A run reaches an object when an uncollected record of this ID does. -/
def RunReaches (store : Store) (runId : String) (object : FiledObject) : Prop :=
  ∃ record ∈ store.uncollected, record.runId = runId ∧ store.Reaches record object

theorem reach_closure (store : Store) (runId : String) :
    (store.reach.closure runId).Nodup ∧
      ∀ p, p ∈ store.reach.closure runId ↔ store.RunReaches runId (store.reach.objects.get p) := by
  obtain ⟨hsome, hnone⟩ := store.reach_lookup runId
  rw [Reach.closure]
  by_cases hrun : ∃ record ∈ store.uncollected, record.runId = runId
  · obtain ⟨record, hrecord, hid⟩ := hrun
    obtain ⟨closure, hlookup, hnodup, hmem⟩ := hsome record hrecord hid
    rw [hlookup]
    refine ⟨hnodup, fun p => (hmem p).trans ⟨fun h => ⟨record, hrecord, hid, h⟩, ?_⟩⟩
    rintro ⟨other, hother, hid', h⟩
    rwa [List.inj_on_of_nodup_map store.uncollected_nodup hrecord hother (hid.trans hid'.symm)]
  · rw [hnone fun record hrecord hid => hrun ⟨record, hrecord, hid⟩]
    refine ⟨List.nodup_nil, fun p => iff_of_false List.not_mem_nil ?_⟩
    rintro ⟨record, hrecord, hid, -⟩
    exact hrun ⟨record, hrecord, hid⟩

/-! ## Counting down -/

theorem howMany_eq_zero {records : List RunRecord} {P : RunRecord → Prop} :
    howMany records P = 0 ↔ ∀ record ∈ records, ¬ P record := by
  simp [howMany, List.filter_eq_nil_iff]

/-- Without the record of one ID there is one less of a kind, if that one was. -/
theorem howMany_without {records : List RunRecord} (hnodup : (records.map RunRecord.runId).Nodup)
    (runId : String) (P : RunRecord → Prop) :
    ((∃ record ∈ records, record.runId = runId ∧ P record) →
      howMany records P = howMany (records.filter fun record => record.runId ≠ runId) P + 1) ∧
    ((¬ ∃ record ∈ records, record.runId = runId ∧ P record) →
      howMany records P = howMany (records.filter fun record => record.runId ≠ runId) P) := by
  induction records with
  | nil => exact ⟨nofun, fun _ => rfl⟩
  | cons record records ih =>
    rw [List.map_cons, List.nodup_cons] at hnodup
    obtain ⟨hsome, hnone⟩ := ih hnodup.2
    obtain ⟨hyes, hno⟩ := howMany_cons record records P
    by_cases hid : record.runId = runId
    · have hrest : records.filter (fun other => other.runId ≠ runId) = records := by
        refine List.filter_eq_self.mpr fun other hother => decide_eq_true fun heq => hnodup.1 ?_
        exact hid.trans heq.symm ▸ List.mem_map_of_mem hother
      rw [List.filter_cons_of_neg (by simpa using hid), hrest]
      refine ⟨fun ⟨other, hother, hother', hP⟩ => hyes ?_, fun hall => hno fun hP =>
        hall ⟨record, List.mem_cons_self, hid, hP⟩⟩
      rcases List.mem_cons.mp hother with rfl | hother
      · exact hP
      · exact absurd (hid.trans hother'.symm ▸ List.mem_map_of_mem hother) hnodup.1
    · have hiff : (∃ other ∈ record :: records, other.runId = runId ∧ P other) ↔
          ∃ other ∈ records, other.runId = runId ∧ P other := by
        simp [hid]
      obtain ⟨hyes', hno'⟩ :=
        howMany_cons record (records.filter fun other => other.runId ≠ runId) P
      rw [List.filter_cons_of_pos (by simpa using hid), hiff]
      by_cases hP : P record
      · rw [hyes hP, hyes' hP]
        exact ⟨fun h => by rw [hsome h], fun h => by rw [hnone h]⟩
      · rw [hno hP, hno' hP]
        exact ⟨hsome, hnone⟩

theorem foldlM_decrement (reach : Reach) {positions : List (Fin reach.objects.length)}
    (hnodup : positions.Nodup) {count : Fin reach.objects.length → ℕ}
    (hpos : ∀ p ∈ positions, 0 < count p) :
    positions.foldlM reach.decrement count =
      some fun p => count p - if p ∈ positions then 1 else 0 := by
  induction positions generalizing count with
  | nil => simp
  | cons q positions ih =>
    rw [List.nodup_cons] at hnodup
    have hq : count q ≠ 0 := (hpos q List.mem_cons_self).ne'
    rw [List.foldlM_cons, Reach.decrement, if_neg hq]
    refine (ih hnodup.2 fun p hp => ?_).trans (congrArg some (funext fun p => ?_))
    · have hne : p ≠ q := fun h => hnodup.1 (h ▸ hp)
      rw [Function.update_of_ne hne]
      exact hpos p (List.mem_cons_of_mem q hp)
    · by_cases hne : p = q
      · subst hne
        simp [hnodup.1]
      · simp [hne]

/-- The runs are counted down one after the other. -/
theorem foldlM_retained (reach : Reach) (R : RunRecord → Fin reach.objects.length → Prop)
    {collected : List String} (hnodup : collected.Nodup)
    (hclosures : ∀ run ∈ collected, (reach.closure run).Nodup) {records : List RunRecord}
    (hrecords : (records.map RunRecord.runId).Nodup)
    (hclosure : ∀ run ∈ collected, ∀ p, p ∈ reach.closure run ↔
      ∃ record ∈ records, record.runId = run ∧ R record p)
    {count : Fin reach.objects.length → ℕ}
    (hcount : ∀ p, count p = howMany records fun record => R record p) :
    ∃ retained, collected.foldlM
        (fun count run => (reach.closure run).foldlM reach.decrement count) count = some retained ∧
      ∀ p, retained p = howMany (records.filter fun record => record.runId ∉ collected)
        fun record => R record p := by
  induction collected generalizing records count with
  | nil => exact ⟨count, rfl, fun p => by simpa using hcount p⟩
  | cons run collected ih =>
    rw [List.nodup_cons] at hnodup
    have hrun := hclosure run List.mem_cons_self
    have hpos : ∀ p ∈ reach.closure run, 0 < count p := fun p hp => by
      rw [hcount, (howMany_without hrecords run _).1 ((hrun p).mp hp)]
      exact Nat.succ_pos _
    have hrest : ∀ other ∈ collected, ∀ p, p ∈ reach.closure other ↔
        ∃ record ∈ records.filter fun record => record.runId ≠ run,
          record.runId = other ∧ R record p := fun other hother p => by
      rw [hclosure other (List.mem_cons_of_mem run hother)]
      refine exists_congr fun record => ?_
      rw [List.mem_filter]
      refine ⟨fun h => ⟨⟨h.1, decide_eq_true fun heq => ?_⟩, h.2⟩, fun h => ⟨h.1.1, h.2⟩⟩
      exact hnodup.1 (heq ▸ h.2.1 ▸ hother)
    have hdown : ∀ p, (count p - if p ∈ reach.closure run then 1 else 0) =
        howMany (records.filter fun record => record.runId ≠ run) fun record => R record p := by
      intro p
      obtain ⟨hyes, hno⟩ := howMany_without hrecords run fun record => R record p
      rw [hcount]
      split_ifs with hp
      · rw [hyes ((hrun p).mp hp), Nat.add_sub_cancel]
      · rw [hno fun h => hp ((hrun p).mpr h), Nat.sub_zero]
    rw [List.foldlM_cons, foldlM_decrement reach (hclosures run List.mem_cons_self) hpos]
    obtain ⟨retained, hretained, hspec⟩ := ih hnodup.2
      (fun other hother => hclosures other (List.mem_cons_of_mem run hother))
      (hrecords.sublist (List.filter_sublist.map _)) hrest hdown
    refine ⟨retained, hretained, fun p => ?_⟩
    rw [hspec, List.filter_filter]
    refine congrArg (howMany · _) (List.filter_congr fun record _ => ?_)
    simp [not_or, Bool.and_comm]

/-- **Counting the collected runs down never underflows**, and leaves the number of the other
records that reach an object. -/
theorem retained_spec (store : Store) {collected : List String} (hnodup : collected.Nodup) :
    ∃ retained, store.reach.retained collected = some retained ∧
      ∀ p, retained p = store.reachers
        (store.uncollected.filter fun record => record.runId ∉ collected)
          (store.reach.objects.get p) :=
  foldlM_retained store.reach (fun record p => store.Reaches record (store.reach.objects.get p))
    hnodup
    (fun run _ => (store.reach_closure run).1) store.uncollected_nodup
    (fun run _ p => (store.reach_closure run).2 p) store.reach_count

/-! ## Sums -/

open Classical in
/-- The objects of a kind. -/
noncomputable def objectsWhere (store : Store) (P : FiledObject → Prop) : List FiledObject :=
  store.objects.filter P

theorem mem_objectsWhere {P : FiledObject → Prop} {object : FiledObject} :
    object ∈ store.objectsWhere P ↔ object ∈ store.objects ∧ P object := by
  simp [objectsWhere]

noncomputable def numberWhere (store : Store) (P : FiledObject → Prop) : ℕ :=
  (store.objectsWhere P).length

noncomputable def bytesWhere (store : Store) (P : FiledObject → Prop) : ℕ :=
  ((store.objectsWhere P).map FiledObject.len).sum

theorem objectsWhere_congr {P Q : FiledObject → Prop} (h : ∀ o ∈ store.objects, P o ↔ Q o) :
    store.objectsWhere P = store.objectsWhere Q :=
  List.filter_congr fun o ho => by simp [h o ho]

/-- Positions that are those of a kind count and weigh what the kind does. -/
theorem positions_where {positions : List (Fin store.reach.objects.length)}
    (hnodup : positions.Nodup) {P : FiledObject → Prop}
    (h : ∀ p, p ∈ positions ↔ P (store.reach.objects.get p)) :
    positions.length = store.numberWhere P ∧ store.reach.bytes positions = store.bytesWhere P := by
  have hget : Function.Injective store.reach.objects.get := fun p q hpq =>
    @get_inj store _ _ (congrArg FiledObject.digest hpq)
  have hperm : (positions.map store.reach.objects.get).Perm (store.objectsWhere P) := by
    refine (List.perm_ext_iff_of_nodup (hnodup.map hget)
      ((List.Nodup.of_map _ store.objects_nodup).filter _)).mpr fun o => ?_
    refine (List.mem_map.trans ?_).trans mem_objectsWhere.symm
    constructor
    · rintro ⟨p, hp, rfl⟩
      exact ⟨List.get_mem _ p, (h p).mp hp⟩
    · rintro ⟨ho, hP⟩
      obtain ⟨p, rfl⟩ := List.get_of_mem ho
      exact ⟨p, (h p).mpr hP, rfl⟩
  constructor
  · rw [numberWhere, ← hperm.length_eq, List.length_map]
  · rw [bytesWhere, ← (hperm.map FiledObject.len).sum_eq, List.map_map]
    rfl

/-- An object some uncollected record other than those of the named runs reaches. -/
def Kept (store : Store) (collected : List String) (object : FiledObject) : Prop :=
  ∃ record ∈ store.uncollected, record.runId ∉ collected ∧ store.Reaches record object

theorem reachers_kept {collected : List String} {object : FiledObject} :
    store.reachers (store.uncollected.filter fun record => record.runId ∉ collected) object = 0 ↔
      ¬ store.Kept collected object := by
  rw [reachers, howMany_eq_zero, Kept]
  simp only [List.mem_filter, decide_eq_true_eq, not_exists, not_and, and_imp]

theorem footprint_eq (reach : Reach) (runId : String) :
    reach.footprint runId =
      { exclusiveObjects := ((reach.closure runId).filter (reach.count · = 1)).length
        exclusiveBytes := reach.bytes ((reach.closure runId).filter (reach.count · = 1))
        sharedObjects := ((reach.closure runId).filter (reach.count · ≠ 1)).length
        sharedBytes := reach.bytes ((reach.closure runId).filter (reach.count · ≠ 1)) } := by
  have hgo : ∀ (positions : List (Fin reach.objects.length)) (start : TaskFootprint),
      positions.foldl (fun footprint index =>
        let len := (reach.objects.get index).len
        if reach.count index = 1 then
          { footprint with
            exclusiveObjects := footprint.exclusiveObjects + 1
            exclusiveBytes := footprint.exclusiveBytes + len }
        else
          { footprint with
            sharedObjects := footprint.sharedObjects + 1
            sharedBytes := footprint.sharedBytes + len }) start =
      { exclusiveObjects := start.exclusiveObjects + (positions.filter (reach.count · = 1)).length
        exclusiveBytes := start.exclusiveBytes +
          reach.bytes (positions.filter (reach.count · = 1))
        sharedObjects := start.sharedObjects + (positions.filter (reach.count · ≠ 1)).length
        sharedBytes := start.sharedBytes +
          reach.bytes (positions.filter (reach.count · ≠ 1)) } := by
    intro positions
    induction positions with
    | nil => intro start; rfl
    | cons p positions ih =>
      intro start
      rw [List.foldl_cons, ih]
      by_cases hp : reach.count p = 1
      · simp [hp, Reach.bytes, add_assoc, add_comm 1]
      · simp [hp, Reach.bytes, add_assoc, add_comm 1]
  rw [Reach.footprint, hgo]
  simp

/-! ## Footprints and plans -/

/-- A record's footprint: what it reaches alone, and what another record reaches too. -/
theorem footprint_spec (store : Store) {record : RunRecord} (h : record ∈ store.uncollected) :
    let exclusive := fun o => store.Reaches record o ∧
      ∀ other ∈ store.uncollected, store.Reaches other o → other = record
    let shared := fun o => store.Reaches record o ∧
      ∃ other ∈ store.uncollected, other ≠ record ∧ store.Reaches other o
    store.reach.footprint record.runId =
      { exclusiveObjects := store.numberWhere exclusive
        exclusiveBytes := store.bytesWhere exclusive
        sharedObjects := store.numberWhere shared
        sharedBytes := store.bytesWhere shared } := by
  intro exclusive shared
  obtain ⟨hnodup, hmem⟩ := store.reach_closure record.runId
  have honly : ∀ other ∈ store.uncollected, other.runId = record.runId → other = record :=
    fun other hother hid => List.inj_on_of_nodup_map store.uncollected_nodup hother h hid
  have hreaches : ∀ p, p ∈ store.reach.closure record.runId ↔
      store.Reaches record (store.reach.objects.get p) := fun p => by
    rw [hmem]
    refine ⟨fun ⟨other, hother, hid, hreach⟩ => ?_, fun hreach => ⟨record, h, rfl, hreach⟩⟩
    rwa [← honly other hother hid]
  have hcount : ∀ p, store.Reaches record (store.reach.objects.get p) → (store.reach.count p = 1 ↔
      ∀ other ∈ store.uncollected, store.Reaches other (store.reach.objects.get p) →
        other = record) := by
    intro p hp
    have hone := (howMany_without store.uncollected_nodup record.runId
      fun other => store.Reaches other (store.reach.objects.get p)).1 ⟨record, h, rfl, hp⟩
    rw [reach_count, reachers, hone, Nat.add_eq_right, howMany_eq_zero]
    simp only [List.mem_filter, decide_eq_true_eq, and_imp]
    refine forall₂_congr fun other hother => ⟨fun hno hreach => ?_, fun hsame hid hreach => ?_⟩
    · by_contra hne
      exact hno (fun hid => hne (honly other hother hid)) hreach
    · exact hid (congrArg RunRecord.runId (hsame hreach))
  obtain ⟨hnumber, hbytes⟩ := positions_where (P := exclusive)
    (hnodup.filter (store.reach.count · = 1)) fun p => by
      rw [List.mem_filter, hreaches, decide_eq_true_eq]
      exact and_congr_right (hcount p)
  obtain ⟨hnumber', hbytes'⟩ := positions_where (P := shared)
    (hnodup.filter (store.reach.count · ≠ 1)) fun p => by
      rw [List.mem_filter, hreaches, decide_eq_true_eq]
      refine and_congr_right fun hp => (not_congr (hcount p hp)).trans ?_
      push Not
      exact exists_congr fun other => and_congr_right fun _ => and_comm
  rw [footprint_eq, hnumber, hbytes, hnumber', hbytes']

/-- The two kinds of a footprint are the closure. -/
theorem footprint_partition (store : Store) {record : RunRecord} (h : record ∈ store.uncollected) :
    let footprint := store.reach.footprint record.runId
    footprint.exclusiveObjects + footprint.sharedObjects = store.numberWhere (store.Reaches record) ∧
      footprint.exclusiveBytes + footprint.sharedBytes = store.bytesWhere (store.Reaches record) := by
  intro footprint
  obtain ⟨hnodup, hmem⟩ := store.reach_closure record.runId
  have hsplit : ((store.reach.closure record.runId).filter (store.reach.count · = 1) ++
      (store.reach.closure record.runId).filter (store.reach.count · ≠ 1)).Perm
        (store.reach.closure record.runId) := by
    simpa using List.filter_append_perm (fun p => decide (store.reach.count p = 1))
      (store.reach.closure record.runId)
  obtain ⟨hnumber, hbytes⟩ := positions_where (P := store.Reaches record) hnodup fun p => by
    rw [hmem]
    refine ⟨fun ⟨other, hother, hid, hreach⟩ => ?_, fun hreach => ⟨record, h, rfl, hreach⟩⟩
    rwa [← List.inj_on_of_nodup_map store.uncollected_nodup hother h hid]
  have hsum := (hsplit.map fun p => (store.reach.objects.get p).len).sum_eq
  rw [List.map_append, List.sum_append] at hsum
  have hlength := hsplit.length_eq
  rw [List.length_append] at hlength
  simp only [footprint, footprint_eq]
  exact ⟨hlength.trans hnumber, hsum.trans hbytes⟩

/-- The runs a plan would collect. -/
def gone (store : Store) (seen : List SeenTask) (olderThan keep now : ℕ)
    (only : Option (List String)) : List String :=
  collecting only (candidates store.reach seen olderThan keep now)

/-- **The sums of a plan**: what no record reaches once the collected runs are gone. -/
theorem planAt_spec (store : Store) (seen : List SeenTask) (olderThan keep now : ℕ)
    (only : Option (List String)) :
    let kept := store.Kept (store.gone seen olderThan keep now only)
    ∃ plan, planAt store seen olderThan keep now only = some plan ∧
      plan.tasks = (candidates store.reach seen olderThan keep now).map (fun task =>
        if collects only task then
          { task with collectedBytes :=
              store.bytesWhere fun o => store.RunReaches task.runId o ∧ ¬ kept o }
        else task) ∧
      plan.totals = store.reach.totals ∧ plan.liveWriters = liveWriters seen now ∧
      plan.reclaimableObjects = store.numberWhere (fun o => ¬ kept o) ∧
      plan.reclaimableBytes = store.bytesWhere fun o => ¬ kept o := by
  intro kept
  obtain ⟨retained, hretained, hcount⟩ :=
    store.retained_spec (nodup_textSet (((candidates store.reach seen olderThan keep now).filter
      (collects only)).map CollectionCandidate.runId))
  have hzero : ∀ p, retained p = 0 ↔ ¬ kept (store.reach.objects.get p) := fun p => by
    rw [hcount]
    exact reachers_kept
  obtain ⟨hnumber, hbytes⟩ := positions_where (P := fun o => ¬ kept o)
    ((List.nodup_finRange store.reach.objects.length).filter (retained · = 0)) fun p => by
      rw [List.mem_filter, decide_eq_true_eq, hzero]
      simp
  have hcollected : ∀ runId, store.reach.bytes ((store.reach.closure runId).filter
      (retained · = 0)) = store.bytesWhere fun o => store.RunReaches runId o ∧ ¬ kept o := by
    intro runId
    obtain ⟨hnodup, hmem⟩ := store.reach_closure runId
    refine (positions_where (P := fun o => store.RunReaches runId o ∧ ¬ kept o)
      (hnodup.filter _) fun p => ?_).2
    rw [List.mem_filter, hmem, decide_eq_true_eq, hzero]
  refine ⟨_, by rw [planAt, collecting, hretained]; rfl, ?_, rfl, rfl, hnumber, hbytes⟩
  exact List.map_congr_left fun task _ => by rw [hcollected]

/-! ## The sweep -/

/-- What a sweep removes: what no record reaches, if it was filed before the lease. -/
def Gone (store : Store) (leased : ℕ) (object : FiledObject) : Prop :=
  ¬ store.Kept [] object ∧ object.modified < leased

theorem removes_iff {leased : ℕ} {p : store.Position} :
    store.removes leased p = true ↔ store.Gone leased (store.objects.get p) := by
  have hall : (store.uncollected.filter fun record => record.runId ∉ ([] : List String)) =
      store.uncollected := by simp
  have hcount : store.reach.count p = 0 ↔ ¬ store.Kept [] (store.objects.get p) := by
    rw [← reachers_kept, hall]
    exact Iff.of_eq (congrArg (· = 0) (store.reach_count p))
  simp only [removes, Gone, Bool.and_eq_true, decide_eq_true_eq, Bool.not_eq_true',
    decide_eq_false_iff_not, not_le, hcount]

theorem mem_swept {leased : ℕ} {object : FiledObject} :
    object ∈ (store.swept leased).objects ↔ object ∈ store.objects ∧ ¬ store.Gone leased object := by
  simp only [swept, List.mem_map, List.mem_filter, List.mem_finRange, true_and,
    Bool.not_eq_true', ← Bool.not_eq_true, removes_iff]
  constructor
  · rintro ⟨p, hp, rfl⟩
    exact ⟨List.get_mem _ p, hp⟩
  · rintro ⟨hobject, hgone⟩
    obtain ⟨p, rfl⟩ := List.get_of_mem hobject
    exact ⟨p, hgone, rfl⟩

/-- A sweep cuts no walk from a record. -/
theorem reaches_swept {leased : ℕ} {record : RunRecord} (h : record ∈ store.uncollected)
    {object : FiledObject} :
    (store.swept leased).Reaches record object ↔ store.Reaches record object := by
  have hkept : ∀ o, store.Reaches record o → o ∈ (store.swept leased).objects := fun o ho =>
    mem_swept.mpr ⟨ho.mem, fun hgone => hgone.1 ⟨record, h, List.not_mem_nil, ho⟩⟩
  have hnext : (store.swept leased).Next = fun a b => store.Next a b ∧ b ∈ (store.swept leased).objects := by
    funext a b
    refine propext ⟨fun hab => ⟨⟨(mem_swept.mp hab.1).1, hab.2⟩, hab.1⟩, fun hab => ⟨hab.2, hab.1.2⟩⟩
  have hroot : (store.swept leased).Root record = fun r => store.Root record r ∧ r ∈ (store.swept leased).objects := by
    funext r
    refine propext ⟨fun hr => ⟨⟨(mem_swept.mp hr.1).1, hr.2⟩, hr.1⟩, fun hr => ⟨hr.2, hr.1.2⟩⟩
  rw [Reaches, hnext, hroot]
  exact Reachable.keep hkept

theorem kept_swept {leased : ℕ} {object : FiledObject} :
    (store.swept leased).Kept [] object ↔ store.Kept [] object :=
  exists_congr fun record => and_congr_right fun h => and_congr_right fun _ =>
    @reaches_swept store leased record h object

/-- **What a sweep does** when no writer is live. -/
theorem sweep_spec (store : Store) {seen : List SeenTask} {now : ℕ} (leased : ℕ)
    (h : liveWriters seen now = []) :
    store.sweep seen now leased = .ok (store.swept leased,
      store.numberWhere (store.Gone leased), store.bytesWhere (store.Gone leased)) := by
  obtain ⟨hnumber, hbytes⟩ := positions_where (P := store.Gone leased)
    ((List.nodup_finRange store.objects.length).filter (store.removes leased)) fun p =>
      List.mem_filter.trans ⟨fun hp => removes_iff.mp hp.2, fun hp =>
        ⟨List.mem_finRange p, removes_iff.mpr hp⟩⟩
  rw [sweep, h, ← hnumber, ← hbytes]
  rfl

theorem kept_tombstone {runs : List String} {object : FiledObject} :
    (store.tombstone runs).Kept [] object ↔ store.Kept runs object := by
  simp only [Kept, uncollected, tombstone, List.mem_filter, List.mem_map, List.not_mem_nil,
    not_false_eq_true, true_and]
  constructor
  · rintro ⟨_, ⟨⟨record, hrecord, rfl⟩, hlive⟩, hreach⟩
    split_ifs at hlive hreach with hrun
    · cases hlive
    · exact ⟨record, ⟨hrecord, hlive⟩, hrun, hreach⟩
  · rintro ⟨record, ⟨hrecord, hlive⟩, hrun, hreach⟩
    exact ⟨record, ⟨⟨record, hrecord, if_neg hrun⟩, hlive⟩, hreach⟩

theorem where_eq_zero {P : FiledObject → Prop} (h : ∀ o ∈ store.objects, ¬ P o) :
    store.numberWhere P = 0 ∧ store.bytesWhere P = 0 := by
  have hnone : store.objectsWhere P = [] := by
    simpa [objectsWhere, List.filter_eq_nil_iff] using h
  rw [numberWhere, bytesWhere, hnone]
  exact ⟨rfl, rfl⟩

end Store

/-! ## Everything together -/

/-- **Reachability and its sums are exact.** Every uncollected record's closure is what it reaches,
and an object is counted once for each record that reaches it; a footprint splits the closure by
who else reaches it; counting collected runs down never underflows; a plan's bytes are those no
retained record reaches; and a sweep after the plan's tombstones, with no younger object, removes
exactly these and leaves nothing to a second one. -/
theorem reach_exact (store : Store) :
    (∀ record ∈ store.uncollected,
      ∃ closure, store.reach.runs.lookup record.runId = some closure ∧ closure.Nodup ∧
        ∀ p, p ∈ closure ↔ store.Reaches record (store.reach.objects.get p)) ∧
    (∀ p, store.reach.count p = store.reachers store.uncollected (store.reach.objects.get p) ∧
      store.reach.count p ≤ store.uncollected.length) ∧
    (∀ record ∈ store.uncollected,
      let exclusive := fun o => store.Reaches record o ∧
        ∀ other ∈ store.uncollected, store.Reaches other o → other = record
      let shared := fun o => store.Reaches record o ∧
        ∃ other ∈ store.uncollected, other ≠ record ∧ store.Reaches other o
      store.reach.footprint record.runId =
          { exclusiveObjects := store.numberWhere exclusive
            exclusiveBytes := store.bytesWhere exclusive
            sharedObjects := store.numberWhere shared
            sharedBytes := store.bytesWhere shared } ∧
        store.numberWhere exclusive + store.numberWhere shared =
          store.numberWhere (store.Reaches record) ∧
        store.bytesWhere exclusive + store.bytesWhere shared =
          store.bytesWhere (store.Reaches record)) ∧
    (∀ collected : List String, collected.Nodup →
      ∃ retained, store.reach.retained collected = some retained ∧
        ∀ p, retained p = store.reachers
          (store.uncollected.filter fun record => record.runId ∉ collected)
            (store.reach.objects.get p)) ∧
    ∀ seen olderThan keep now only,
      let gone := store.gone seen olderThan keep now only
      ∃ plan, planAt store seen olderThan keep now only = some plan ∧
        plan.tasks = (candidates store.reach seen olderThan keep now).map (fun task =>
          if collects only task then
            { task with collectedBytes :=
                store.bytesWhere fun o => store.RunReaches task.runId o ∧ ¬ store.Kept gone o }
          else task) ∧
        plan.reclaimableObjects = store.numberWhere (fun o => ¬ store.Kept gone o) ∧
        plan.reclaimableBytes = store.bytesWhere (fun o => ¬ store.Kept gone o) ∧
        ∀ seen' now' leased, liveWriters seen' now' = [] →
          (∀ o ∈ store.objects, o.modified < leased) →
          ∃ after, (store.tombstone gone).sweep seen' now' leased =
              .ok (after, plan.reclaimableObjects, plan.reclaimableBytes) ∧
            (∀ o, o ∈ after.objects ↔ o ∈ store.objects ∧ store.Kept gone o) ∧
            ∀ seen'' now'' leased', liveWriters seen'' now'' = [] →
              ∃ again, after.sweep seen'' now'' leased' = .ok (again, 0, 0) ∧
                ∀ o, o ∈ again.objects ↔ o ∈ after.objects := by
  refine ⟨fun record h => (store.reach_lookup record.runId).1 record h rfl, fun p => ?_,
    fun record h => ?_, fun collected hnodup => store.retained_spec hnodup,
    fun seen olderThan keep now only => ?_⟩
  · rw [store.reach_count]
    exact ⟨rfl, List.length_filter_le _ _⟩
  · have hsum := store.footprint_partition h
    have hspec := store.footprint_spec h
    simp only [hspec] at hsum
    exact ⟨hspec, hsum⟩
  · intro gone
    obtain ⟨plan, hplan, htasks, -, -, hnumber, hbytes⟩ :=
      store.planAt_spec seen olderThan keep now only
    refine ⟨plan, hplan, htasks, hnumber, hbytes, fun seen' now' leased hlive holder => ?_⟩
    have hgone : ∀ o ∈ store.objects,
        (store.tombstone gone).Gone leased o ↔ ¬ store.Kept gone o := fun o ho => by
      rw [Store.Gone, Store.kept_tombstone]
      exact and_iff_left (holder o ho)
    have hobjects : (store.tombstone gone).objectsWhere ((store.tombstone gone).Gone leased) =
        store.objectsWhere fun o => ¬ store.Kept gone o := Store.objectsWhere_congr hgone
    have hmem : ∀ o, o ∈ ((store.tombstone gone).swept leased).objects ↔
        o ∈ store.objects ∧ store.Kept gone o := fun o => by
      rw [Store.mem_swept]
      exact and_congr_right fun ho => (not_congr (hgone o ho)).trans not_not
    refine ⟨(store.tombstone gone).swept leased, ?_, hmem, fun seen'' now'' leased' hlive' => ?_⟩
    · rw [Store.sweep_spec _ leased hlive, hnumber, hbytes, Store.numberWhere, Store.bytesWhere,
        hobjects]
      rfl
    · have hnone : ∀ o ∈ ((store.tombstone gone).swept leased).objects,
          ¬ ((store.tombstone gone).swept leased).Gone leased' o := fun o ho hno => by
        rw [Store.Gone, Store.kept_swept, Store.kept_tombstone] at hno
        exact hno.1 ((hmem o).mp ho).2
      obtain ⟨hzero, hzero'⟩ := Store.where_eq_zero hnone
      refine ⟨_, by rw [Store.sweep_spec _ leased' hlive', hzero, hzero'], fun o => ?_⟩
      rw [Store.mem_swept]
      exact and_iff_left_of_imp (hnone o)

def sampleDigest (c : Char) : String := "sha256:" ++ String.ofList (List.replicate 64 c)

/-- Two objects that spell each other, one of them a root, and one that only a collected Task
spells. -/
def cyclicStore : Store where
  records :=
    [{ runId := "campaign", tombstoned := false, events := [("", sampleDigest 'a')], walls := [],
       wallEnds := [] },
     { runId := "task", tombstoned := false,
       events := [(sampleDigest 'b', sampleDigest 'c')], walls := [], wallEnds := [] }]
  objects :=
    [{ digest := sampleDigest 'a', modified := 1, chunks := [Json.utf8 (sampleDigest 'b')] },
     { digest := sampleDigest 'b', modified := 1, chunks := [Json.utf8 (sampleDigest 'a')] },
     { digest := sampleDigest 'c', modified := 1, chunks := [Json.utf8 "log"] }]
  records_nodup := by decide
  objects_nodup := by decide

/-- The Task is collected, and the sweep removes what the plan says. -/
theorem reach_exact_cyclic :
    let task : SeenTask :=
      { taskId := "t", runId := "task", phase := .finished, lastTime := 5, leaseUntil := 5,
        bindings := [] }
    ∃ plan after, planAt cyclicStore [task] 1 0 100 none = some plan ∧
      (cyclicStore.tombstone (cyclicStore.gone [task] 1 0 100 none)).sweep [] 0 2 =
        .ok (after, plan.reclaimableObjects, plan.reclaimableBytes) := by
  intro task
  obtain ⟨-, -, -, -, hplans⟩ := reach_exact cyclicStore
  obtain ⟨plan, hplan, -, -, -, hsweep⟩ := hplans [task] 1 0 100 none
  obtain ⟨after, hafter, -⟩ := hsweep [] 0 2 rfl (by decide)
  exact ⟨plan, after, hplan, hafter⟩

end Collection

end Afactory
