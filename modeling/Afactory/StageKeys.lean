import Mathlib
import Afactory.OneFinding

/-!
# The keys of a stage

`canonical_stage_keys` of `review-store/src/ingest.rs`, with its parents halved as it looks roots
up, against the components its reports make.

* `canonicalStageKeysHalving`: the three loops of the source over one array of parents;
* `canonicalStageKeysHalving_eq`: they answer what the roots alone give;
* `Linked`, `Named`: the components of the reports and what each names;
* `root_eq_iff`: two reports have one root exactly when they are linked;
* `stage_keys`: when there are keys, which are the same, and what of them depends on the order.
-/

namespace Afactory

/-! ## The loops of the source -/

/-- `first_report`: the first index found under each root. -/
def firstReports : Links → List ℕ → OrdMap ℕ ℕ → Links × OrdMap ℕ ℕ
  | P, [], firsts => (P, firsts)
  | P, index :: rest, firsts =>
    let found := P.find index
    firstReports found.1 rest
      (if firsts.contains found.2 then firsts else firsts.insert found.2 index)

/-- `candidates`: what the reports under each root name. -/
def gatherCandidates (prior : Ledger) (pending : List (Occurrence × String)) :
    Links → List ((FindingReport × String) × ℕ) → OrdMap ℕ (List String) →
      Except ReductionError (Links × OrdMap ℕ (List String))
  | P, [], groups => .ok (P, groups)
  | P, (report, index) :: rest, groups => do
    let found := P.find index
    let named ← reportCandidates prior pending report
    gatherCandidates prior pending found.1 rest
      (if named.isEmpty then groups
        else groups.insert found.2 ((groups.get found.2).getD [] ++ named))

/-- `keys`: one for each index, from its root's first report and candidates. -/
def stageKeysFrom (ids : ReviewIds) (reports : List (FindingReport × String))
    (firsts : OrdMap ℕ ℕ) (groups : OrdMap ℕ (List String)) :
    Links → List ℕ → Except ReductionError (List String)
  | _, [] => .ok []
  | P, index :: rest => do
    let found := P.find index
    let first := (((firsts.get found.2).bind fun i => reports[i]?).map Prod.snd).getD ""
    let key ← classKey ids first ((groups.get found.2).getD [])
    let keys ← stageKeysFrom ids reports firsts groups found.1 rest
    return key :: keys

/-- `canonical_stage_keys`, parent by parent. -/
def canonicalStageKeysHalving (ids : ReviewIds) (reports : List (FindingReport × String))
    (prior : Ledger) (pending : List (Occurrence × String)) :
    Except ReductionError (List String) := do
  let first := firstReports (stageLinks reports) (List.range reports.length) .empty
  let gathered ← gatherCandidates prior pending first.1 reports.zipIdx .empty
  stageKeysFrom ids reports first.2 gathered.2 gathered.1 (List.range reports.length)

section Halving

variable {prior : Ledger} {pending : List (Occurrence × String)} {P P₀ : Links}

/-- **The first report of a root** is the root itself. -/
theorem firstReports_spec (hP : ∀ x, P.root x = P₀.root x) (n start : ℕ) {firsts : OrdMap ℕ ℕ}
    (hfirsts : ∀ i < start, firsts.get (P₀.root i) = some (P₀.root i))
    (hnone : ∀ r, firsts.get r ≠ none → ∃ i < start, r = P₀.root i) :
    (∀ x, (firstReports P (List.range' start n) firsts).1.root x = P₀.root x) ∧
      ∀ i < start + n,
        (firstReports P (List.range' start n) firsts).2.get (P₀.root i) = some (P₀.root i) := by
  induction n generalizing P start firsts with
  | zero => exact ⟨hP, hfirsts⟩
  | succ n ih =>
    obtain ⟨hroot, hkept⟩ := P.find_spec start
    rw [hP] at hroot
    rw [List.range'_succ, firstReports]
    simp only [hroot]
    have hstart : start + (n + 1) = start + 1 + n := by omega
    rw [hstart]
    refine ih (fun x => (hkept x).trans (hP x)) (start + 1) ?_ ?_
    · intro i hi
      split_ifs with hthere
      · rcases Nat.lt_succ_iff_lt_or_eq.mp hi with hlt | rfl
        · exact hfirsts i hlt
        · obtain ⟨v, hv⟩ := OrdMap.contains_iff.mp hthere
          obtain ⟨j, hj, hsame⟩ := hnone _ (by rw [hv]; simp)
          rw [hsame]
          exact hfirsts j hj
      · rw [OrdMap.get_insert]
        rcases Nat.lt_succ_iff_lt_or_eq.mp hi with hlt | rfl
        · split_ifs with hsame
          · exact absurd (OrdMap.contains_iff.mpr ⟨_, hsame ▸ hfirsts i hlt⟩) hthere
          · exact hfirsts i hlt
        · rw [if_pos rfl]
          -- a root not seen before is its own first index
          rcases Nat.lt_or_ge (P₀.root i) i with hlt | hge
          · have hseen := hfirsts _ hlt
            rw [Links.root_root] at hseen
            exact absurd (OrdMap.contains_iff.mpr ⟨_, hseen⟩) hthere
          · rw [le_antisymm (P₀.root_le i) hge]
    · intro r hr
      split_ifs at hr with hthere
      · obtain ⟨i, hi, rfl⟩ := hnone r hr
        exact ⟨i, by omega, rfl⟩
      · rw [OrdMap.get_insert] at hr
        split_ifs at hr with hsame
        · exact ⟨start, by omega, hsame⟩
        · obtain ⟨i, hi, rfl⟩ := hnone r hr
          exact ⟨i, by omega, rfl⟩

/-- What the reports of a root name, among some indexed lists. -/
def namedUnder (P : Links) (candidates : List (List String × ℕ)) (root : ℕ) : List String :=
  (candidates.filter fun c => P.root c.2 = root).flatMap Prod.fst

/-- **The candidates of a root** are those of its reports, in order. -/
theorem gatherCandidates_spec (hP : ∀ x, P.root x = P₀.root x)
    (reports : List ((FindingReport × String) × ℕ)) (groups : OrdMap ℕ (List String)) :
    match reports.mapM fun r => reportCandidates prior pending r.1 with
    | .error e => gatherCandidates prior pending P reports groups = .error e
    | .ok candidates => ∃ P' groups', gatherCandidates prior pending P reports groups =
          .ok (P', groups') ∧ (∀ x, P'.root x = P₀.root x) ∧
        ∀ root, (groups'.get root).getD [] = (groups.get root).getD [] ++
          namedUnder P₀ (candidates.zip (reports.map Prod.snd)) root := by
  induction reports generalizing P groups with
  | nil => exact ⟨P, groups, rfl, hP, fun _ => by simp [namedUnder]⟩
  | cons head rest ih =>
    obtain ⟨report, index⟩ := head
    obtain ⟨hroot, hkept⟩ := P.find_spec index
    rw [hP] at hroot
    rw [List.mapM_cons]
    cases hnamed : reportCandidates prior pending report with
    | error e => simp [gatherCandidates, hnamed, error_bind]
    | ok named =>
      have hrest := ih (fun x => (hkept x).trans (hP x))
        (if named.isEmpty then groups
          else groups.insert (P₀.root index) ((groups.get (P₀.root index)).getD [] ++ named))
      simp only [ok_bind]
      cases hall : rest.mapM fun r => reportCandidates prior pending r.1 with
      | error e =>
        rw [hall] at hrest
        simp only [error_bind, gatherCandidates, hnamed, ok_bind, hroot]
        exact hrest
      | ok candidates =>
        rw [hall] at hrest
        obtain ⟨P', groups', hgather, hroots, hget⟩ := hrest
        simp only [ok_bind]
        refine ⟨P', groups', ?_, hroots, fun root => ?_⟩
        · simp only [gatherCandidates, hnamed, ok_bind, hroot]
          exact hgather
        · rw [hget root]
          have hcons : namedUnder P₀ ((named :: candidates).zip
              (((report, index) :: rest).map Prod.snd)) root =
                (if P₀.root index = root then named else []) ++
                  namedUnder P₀ (candidates.zip (rest.map Prod.snd)) root := by
            simp only [namedUnder, List.map_cons, List.zip_cons_cons, List.filter_cons]
            split_ifs <;> simp_all
          rw [hcons]
          cases named with
          | nil => simp
          | cons c named =>
            simp only [List.isEmpty_cons, Bool.false_eq_true, if_false, OrdMap.get_insert]
            by_cases hsame : root = P₀.root index
            · simp [hsame]
            · simp [hsame, Ne.symm hsame]

theorem stageKeysFrom_eq (hP : ∀ x, P.root x = P₀.root x) (ids : ReviewIds)
    (reports : List (FindingReport × String)) {firsts : OrdMap ℕ ℕ}
    (groups : OrdMap ℕ (List String)) (indices : List ℕ)
    (hfirsts : ∀ i ∈ indices, firsts.get (P₀.root i) = some (P₀.root i)) :
    stageKeysFrom ids reports firsts groups P indices = indices.mapM fun index =>
      classKey ids ((reports[P₀.root index]?.map Prod.snd).getD "")
        ((groups.get (P₀.root index)).getD []) := by
  induction indices generalizing P with
  | nil => rfl
  | cons index rest ih =>
    obtain ⟨hroot, hkept⟩ := P.find_spec index
    rw [hP] at hroot
    rw [stageKeysFrom, List.mapM_cons]
    simp only [hroot, hfirsts index List.mem_cons_self, Option.bind_some]
    rw [ih (fun x => (hkept x).trans (hP x)) fun i hi => hfirsts i (List.mem_cons_of_mem _ hi)]

end Halving

/-- **Halving the paths changes no key**: the loops answer what the roots give. -/
theorem canonicalStageKeysHalving_eq (ids : ReviewIds) (reports : List (FindingReport × String))
    (prior : Ledger) (pending : List (Occurrence × String)) :
    canonicalStageKeysHalving ids reports prior pending =
      canonicalStageKeys ids reports prior pending := by
  obtain ⟨hroots, hfirsts⟩ := @firstReports_spec (stageLinks reports) (stageLinks reports)
    (fun _ => rfl) reports.length 0 .empty (fun i hi => absurd hi (Nat.not_lt_zero i)) (by simp)
  rw [← List.range_eq_range'] at hroots hfirsts
  have hgather := @gatherCandidates_spec prior pending _ _ hroots reports.zipIdx .empty
  have hmapM : (reports.zipIdx.mapM fun r => reportCandidates prior pending r.1) =
      reports.mapM (reportCandidates prior pending) := by
    have hfst : reports.zipIdx.map Prod.fst = reports := List.zipIdx_map_fst 0 reports
    conv_rhs => rw [← hfst, List.mapM_map]
    rfl
  rw [hmapM] at hgather
  unfold canonicalStageKeysHalving canonicalStageKeys
  cases hcandidates : reports.mapM (reportCandidates prior pending) with
  | error e =>
    rw [hcandidates] at hgather
    simp only [hgather, error_bind]
  | ok candidates =>
    rw [hcandidates] at hgather
    obtain ⟨P', groups, hfound, hkept, hget⟩ := hgather
    have hzip : candidates.zip (reports.zipIdx.map Prod.snd) = candidates.zipIdx := by
      rw [List.zipIdx_map_snd, List.zipIdx_eq_zip_range', (mapM_forall₂ hcandidates).length_eq]
    simp only [hfound, ok_bind]
    rw [stageKeysFrom_eq hkept ids reports groups _ fun i hi => hfirsts i (by simpa using hi)]
    congr 1
    funext index
    rw [hget, hzip]
    simp [namedUnder]

/-! ## Components -/

/-- Two reports of the list are of one artifact, or of one occurrence. -/
def SharesLink (reports : List (FindingReport × String)) (a b : FindingReport × String) : Prop :=
  a ∈ reports ∧ b ∈ reports ∧
    (a.2 = b.2 ∨ ∃ o, a.1.occurrence = some o ∧ b.1.occurrence = some o)

/-- **The component of a report**: what links lead to. -/
def Linked (reports : List (FindingReport × String)) :
    FindingReport × String → FindingReport × String → Prop :=
  Relation.ReflTransGen (SharesLink reports)

/-- A report names a Finding: the one its occurrence is known to belong to, or one it
corroborates. -/
def Names (prior : Ledger) (pending : List (Occurrence × String)) (r : FindingReport × String)
    (c : String) : Prop :=
  (r.1.occurrence.bind fun o => (pending.lookup o).or (prior.findingForOccurrence o)) = some c ∨
    ∃ relation ∈ r.1.relations, relation.target = c

/-- A candidate of the component of a report. -/
def Candidate (prior : Ledger) (pending : List (Occurrence × String))
    (reports : List (FindingReport × String)) (a : FindingReport × String) (c : String) : Prop :=
  ∃ b ∈ reports, Linked reports a b ∧ Names prior pending b c

/-- The artifact of the first report of a component. -/
def FirstOf (reports : List (FindingReport × String)) (a : FindingReport × String)
    (id : String) : Prop :=
  ∃ (j : ℕ) (b : FindingReport × String), reports[j]? = some b ∧ Linked reports a b ∧ b.2 = id ∧
    ∀ i < j, ∀ x, reports[i]? = some x → ¬ Linked reports a x

section Components

variable {reports reports' : List (FindingReport × String)} {a b x : FindingReport × String}
  {prior : Ledger} {pending : List (Occurrence × String)} {i j : ℕ} {c : String}

theorem SharesLink.symm (h : SharesLink reports a b) : SharesLink reports b a := by
  obtain ⟨ha, hb, hsame | ⟨o, hao, hbo⟩⟩ := h
  · exact ⟨hb, ha, .inl hsame.symm⟩
  · exact ⟨hb, ha, .inr ⟨o, hbo, hao⟩⟩

theorem Linked.symm (h : Linked reports a b) : Linked reports b a := by
  induction h with
  | refl => exact .refl
  | tail _ hshare ih => exact .head hshare.symm ih

theorem linked_congr (h : Linked reports a b) : Linked reports a x ↔ Linked reports b x :=
  ⟨fun hx => h.symm.trans hx, fun hx => h.trans hx⟩

/-- A link joins two roots. -/
theorem root_of_shares (hi : reports[i]? = some a) (hj : reports[j]? = some b)
    (h : SharesLink reports a b) : (stageLinks reports).root i = (stageLinks reports).root j := by
  obtain ⟨-, -, hsame | ⟨o, hao, hbo⟩⟩ := h
  · refine Links.linkFrom_mono ?_
    have hjoined := @Links.root_linkFrom .discrete _ _ (reports.map fun r => some r.2) 0 [] a.2 i j
      (by simp [hi]) (by simp [hj, hsame])
    simpa using hjoined
  · have hjoined := @Links.root_linkFrom
      (Links.linkFrom (reports.map fun r => some r.2) 0 [] .discrete) _ _
      (reports.map fun r => r.1.occurrence) 0 [] o i j (by simp [hi, hao]) (by simp [hj, hbo])
    rwa [Nat.zero_add, Nat.zero_add] at hjoined

/-- **One root, one component.** -/
theorem root_eq_iff (hi : reports[i]? = some a) (hj : reports[j]? = some b) :
    (stageLinks reports).root i = (stageLinks reports).root j ↔ Linked reports a b := by
  constructor
  · -- what an index leads to is constant along the links of both passes
    let reaches : ℕ → Set (FindingReport × String) := fun k =>
      {x | ∃ y, reports[k]? = some y ∧ Linked reports y x}
    have hclass : ∀ {m n y z}, reports[m]? = some y → reports[n]? = some z →
        SharesLink reports y z → reaches m = reaches n := by
      intro m n y z hm hn hshare
      have hlinked : Linked reports y z := .single hshare
      ext x
      simp only [reaches, Set.mem_ofPred_eq, hm, hn, Option.some.injEq, exists_eq_left']
      exact linked_congr hlinked
    have hids : ∀ x, reaches ((Links.linkFrom (reports.map fun r => some r.2) 0 [] .discrete).parent
        x) = reaches x := by
      refine Links.constant_linkFrom (fun _ => rfl) (fun k m n hseen => by simp at hseen) ?_
      intro k m n hm hn
      simp only [List.getElem?_map, Option.map_eq_some_iff, Option.some.injEq] at hm hn
      obtain ⟨y, hy, rfl⟩ := hm
      obtain ⟨z, hz, hsame⟩ := hn
      simpa using hclass hy hz
        ⟨List.mem_of_getElem? hy, List.mem_of_getElem? hz, .inl hsame.symm⟩
    have hboth : ∀ x, reaches ((stageLinks reports).parent x) = reaches x := by
      refine Links.constant_linkFrom hids (fun k m n hseen => by simp at hseen) ?_
      intro k m n hm hn
      simp only [List.getElem?_map, Option.map_eq_some_iff] at hm hn
      obtain ⟨y, hy, hyo⟩ := hm
      obtain ⟨z, hz, hzo⟩ := hn
      simpa using hclass hy hz
        ⟨List.mem_of_getElem? hy, List.mem_of_getElem? hz, .inr ⟨k, hyo, hzo⟩⟩
    intro hroot
    have hsame : reaches i = reaches j := Links.eq_of_root hboth hroot
    have hself : b ∈ reaches j := ⟨b, hj, .refl⟩
    rw [← hsame] at hself
    obtain ⟨y, hy, hlinked⟩ := hself
    obtain rfl := Option.some.inj (hi.symm.trans hy)
    exact hlinked
  · intro hlinked
    induction hlinked generalizing j with
    | refl =>
      have hmem := List.mem_of_getElem? hi
      exact root_of_shares hi hj ⟨hmem, hmem, .inl rfl⟩
    | tail _ hshare ih =>
      obtain ⟨m, hm⟩ := List.mem_iff_getElem?.mp hshare.1
      exact (ih hm).trans (root_of_shares hm hj hshare)

theorem root_lt (hi : i < reports.length) : (stageLinks reports).root i < reports.length :=
  lt_of_le_of_lt ((stageLinks reports).root_le i) hi

/-- The root of an index is where the first report of its component stands. -/
theorem firstOf_root (hi : reports[i]? = some a) :
    FirstOf reports a ((reports[(stageLinks reports).root i]?.map Prod.snd).getD "") := by
  obtain ⟨hlt, -⟩ := List.getElem?_eq_some_iff.mp hi
  have hb := List.getElem?_eq_getElem (root_lt hlt)
  refine ⟨_, _, hb, ?_, by rw [hb]; rfl, fun k hk x hx hlinked => ?_⟩
  · rw [← root_eq_iff hi hb, Links.root_root]
  · have hroot := (root_eq_iff hi hx).mpr hlinked
    have hle := (stageLinks reports).root_le k
    omega

/-- A component has one first report. -/
theorem FirstOf.unique {id id' : String} (h : FirstOf reports a id) (h' : FirstOf reports a id') :
    id = id' := by
  obtain ⟨j, b, hj, hb, rfl, hfirst⟩ := h
  obtain ⟨j', b', hj', hb', rfl, hfirst'⟩ := h'
  rcases lt_trichotomy j j' with hlt | rfl | hlt
  · exact absurd hb (hfirst' j hlt b hj)
  · rw [Option.some.inj (hj.symm.trans hj')]
  · exact absurd hb' (hfirst j' hlt b' hj')

theorem FirstOf.congr {id : String} (h : Linked reports a b) (hid : FirstOf reports a id) :
    FirstOf reports b id := by
  obtain ⟨j, x, hj, hx, hsame, hfirst⟩ := hid
  exact ⟨j, x, hj, (linked_congr h).mp hx, hsame, fun i hi y hy hlinked =>
    hfirst i hi y hy ((linked_congr h).mpr hlinked)⟩

theorem candidate_congr (h : Linked reports a b) :
    Candidate prior pending reports a c ↔ Candidate prior pending reports b c := by
  simp only [Candidate, linked_congr h]

/-! ## Components in another order -/

theorem linked_perm (hperm : reports.Perm reports') :
    Linked reports a b ↔ Linked reports' a b := by
  have hshares : SharesLink reports = SharesLink reports' := by
    funext a b
    simp only [SharesLink, hperm.mem_iff]
  rw [Linked, hshares, Linked]

theorem candidate_perm (hperm : reports.Perm reports') :
    Candidate prior pending reports a c ↔ Candidate prior pending reports' a c := by
  simp only [Candidate, hperm.mem_iff, linked_perm hperm]

/-! ## What a class names -/

theorem mem_reportCandidates {named : List String}
    (h : reportCandidates prior pending a = .ok named) :
    c ∈ named ↔ Names prior pending a c := by
  rw [(reportCandidates_eq_ok h).1, List.mem_append, List.mem_map, Option.mem_toList, Names]

/-- **The candidates of an index** are those of the component of its report. -/
theorem mem_classCandidates_iff {candidates : List (List String)}
    (hcandidates : List.Forall₂ (fun r c => reportCandidates prior pending r = .ok c) reports
      candidates) (hi : reports[i]? = some a) :
    c ∈ classCandidates (stageLinks reports) candidates i ↔
      Candidate prior pending reports a c := by
  simp only [classCandidates, List.mem_flatMap, List.mem_filter, decide_eq_true_eq]
  constructor
  · rintro ⟨⟨named, j⟩, ⟨hmem, hroot⟩, hc⟩
    have hnamed : candidates[j]? = some named := List.mem_zipIdx_iff_getElem?.mp hmem
    obtain ⟨hlt, rfl⟩ := List.getElem?_eq_some_iff.mp hnamed
    have hlt' : j < reports.length := hcandidates.length_eq ▸ hlt
    have hj := List.getElem?_eq_getElem hlt'
    have hone := hcandidates.get hlt' hlt
    simp only [List.get_eq_getElem] at hone
    exact ⟨_, List.getElem_mem hlt', (root_eq_iff hi hj).mp hroot.symm,
      (mem_reportCandidates hone).mp hc⟩
  · rintro ⟨b, hb, hlinked, hnames⟩
    obtain ⟨j, hj⟩ := List.mem_iff_getElem?.mp hb
    obtain ⟨hlt, rfl⟩ := List.getElem?_eq_some_iff.mp hj
    have hlt' : j < candidates.length := hcandidates.length_eq ▸ hlt
    have hone := hcandidates.get hlt hlt'
    simp only [List.get_eq_getElem] at hone
    refine ⟨(candidates[j], j), ⟨?_, ((root_eq_iff hi hj).mpr hlinked).symm⟩,
      (mem_reportCandidates hone).mpr hnames⟩
    exact List.mem_zipIdx_iff_getElem?.mpr (List.getElem?_eq_getElem hlt')

/-- **When a class has a key**: it names one Finding, or none. -/
theorem classKey_eq_ok_iff {ids : ReviewIds} {first key : String} {candidates : List String} :
    classKey ids first candidates = .ok key ↔
      (∀ c ∈ candidates, c = key) ∧ (candidates = [] → key = ids.findingId first) := by
  constructor
  · intro h
    refine ⟨fun c hc => classKey_eq_ok h hc, ?_⟩
    rintro rfl
    exact (Except.ok.inj h).symm
  · rintro ⟨hall, hnone⟩
    cases candidates with
    | nil => rw [hnone rfl]; rfl
    | cons c rest =>
      have hone : (c :: rest).dedup = [key] := by
        have hrep : c :: rest = List.replicate (rest.length + 1) key :=
          List.eq_replicate_iff.mpr ⟨rfl, hall⟩
        rw [hrep]
        exact List.replicate_dedup (Nat.succ_ne_zero _)
      rw [classKey, hone]

/-- The key of the component of a report: its one candidate, or a name after its first report. -/
def KeyOf (ids : ReviewIds) (prior : Ledger) (pending : List (Occurrence × String))
    (reports : List (FindingReport × String)) (a : FindingReport × String) (key : String) : Prop :=
  (∀ c, Candidate prior pending reports a c → c = key) ∧
    ((∀ c, ¬ Candidate prior pending reports a c) →
      ∃ id, FirstOf reports a id ∧ key = ids.findingId id)

theorem classKey_iff_keyOf {ids : ReviewIds} {candidates : List (List String)} {key : String}
    (hcandidates : List.Forall₂ (fun r c => reportCandidates prior pending r = .ok c) reports
      candidates) (hi : reports[i]? = some a) :
    classKey ids ((reports[(stageLinks reports).root i]?.map Prod.snd).getD "")
        (classCandidates (stageLinks reports) candidates i) = .ok key ↔
      KeyOf ids prior pending reports a key := by
  have hnone : classCandidates (stageLinks reports) candidates i = [] ↔
      ∀ c, ¬ Candidate prior pending reports a c := by
    simp only [List.eq_nil_iff_forall_not_mem, mem_classCandidates_iff hcandidates hi]
  simp only [classKey_eq_ok_iff, mem_classCandidates_iff hcandidates hi, hnone, KeyOf]
  refine and_congr_right fun _ => imp_congr_right fun _ => ?_
  constructor
  · intro hkey
    exact ⟨_, firstOf_root hi, hkey⟩
  · rintro ⟨id, hid, hkey⟩
    rw [hkey, hid.unique (firstOf_root hi)]

/-- **The keys are those of the components**, and there are keys when every report has its
relations in the input and every component has a key. -/
theorem canonicalStageKeys_eq_ok_iff {ids : ReviewIds} {keys : List String} :
    canonicalStageKeys ids reports prior pending = .ok keys ↔
      (∀ r ∈ reports, ∀ relation ∈ r.1.relations,
        prior.findings.contains relation.target = true) ∧
      List.Forall₂ (KeyOf ids prior pending reports) reports keys := by
  have hclasses : ∀ {candidates : List (List String)}, List.Forall₂
      (fun r c => reportCandidates prior pending r = .ok c) reports candidates →
      ((List.range reports.length).mapM (fun index => classKey ids
          ((reports[(stageLinks reports).root index]?.map Prod.snd).getD "")
          (classCandidates (stageLinks reports) candidates index)) = .ok keys ↔
        List.Forall₂ (KeyOf ids prior pending reports) reports keys) := by
    intro candidates hcandidates
    rw [mapM_eq_ok_iff, List.forall₂_iff_get, List.forall₂_iff_get]
    simp only [List.length_range, List.get_eq_getElem, List.getElem_range]
    refine and_congr_right fun hlen => ?_
    constructor
    · intro h i hi hi'
      exact (classKey_iff_keyOf hcandidates (List.getElem?_eq_getElem hi)).mp (h i hi hi')
    · intro h i hi hi'
      exact (classKey_iff_keyOf hcandidates (List.getElem?_eq_getElem hi)).mpr (h i hi hi')
  rw [canonicalStageKeys]
  constructor
  · intro h
    obtain ⟨candidates, hcandidates, h⟩ := bind_eq_ok.mp h
    have hall := mapM_forall₂ hcandidates
    refine ⟨fun r hr => ?_, (hclasses hall).mp h⟩
    obtain ⟨j, hj⟩ := List.mem_iff_getElem?.mp hr
    obtain ⟨hlt, rfl⟩ := List.getElem?_eq_some_iff.mp hj
    have hone := hall.get hlt (hall.length_eq ▸ hlt)
    exact (reportCandidates_eq_ok hone).2
  · rintro ⟨hrelations, hkeys⟩
    obtain ⟨candidates, hcandidates⟩ : ∃ candidates,
        reports.mapM (reportCandidates prior pending) = .ok candidates := by
      refine exists_mapM_eq_ok fun r hr => ?_
      have hall : r.1.relations.forM (fun relation =>
          if prior.findings.contains relation.target then (.ok () : Except ReductionError Unit)
          else .error (.conflict ("Report " ++ r.2 ++ " relates to Finding `" ++
            relation.target ++ "` outside its input Finding Set"))) = .ok () := by
        refine forM_eq_ok.mpr fun relation hrelation => ?_
        rw [if_pos (hrelations r hr relation hrelation)]
      rw [reportCandidates]
      simp only [hall, ok_bind]
      exact ⟨_, rfl⟩
    exact bind_eq_ok.mpr ⟨candidates, hcandidates, (hclasses (mapM_forall₂ hcandidates)).mpr hkeys⟩

/-- The component of a report has no candidate, and would be named after its first report by the
very identity another component has for its candidate. -/
def NamedAlike (ids : ReviewIds) (prior : Ledger) (pending : List (Occurrence × String))
    (reports : List (FindingReport × String)) (a b : FindingReport × String) : Prop :=
  (∀ c, ¬ Candidate prior pending reports a c) ∧
    ∃ id, FirstOf reports a id ∧ Candidate prior pending reports b (ids.findingId id)

theorem KeyOf.unique {ids : ReviewIds} {key key' : String}
    (h : KeyOf ids prior pending reports a key) (h' : KeyOf ids prior pending reports a key') :
    key = key' := by
  by_cases hcandidate : ∃ c, Candidate prior pending reports a c
  · obtain ⟨c, hc⟩ := hcandidate
    exact (h.1 c hc).symm.trans (h'.1 c hc)
  · have hnone := not_exists.mp hcandidate
    obtain ⟨id, hid, rfl⟩ := h.2 hnone
    obtain ⟨id', hid', rfl⟩ := h'.2 hnone
    rw [hid.unique hid']

theorem KeyOf.congr {ids : ReviewIds} {key : String} (h : Linked reports a b)
    (hkey : KeyOf ids prior pending reports a key) : KeyOf ids prior pending reports b key := by
  refine ⟨fun c hc => hkey.1 c ((candidate_congr h).mpr hc), fun hnone => ?_⟩
  obtain ⟨id, hid, hsame⟩ := hkey.2 fun c hc => hnone c ((candidate_congr h).mp hc)
  exact ⟨id, hid.congr h, hsame⟩

/-- **Two reports have one key** when they are in one component, their components have one
candidate, or the one's new name is the other's candidate. -/
theorem key_eq_iff {ids : ReviewIds} {key key' : String}
    (hinj : ∀ x ∈ reports, ∀ y ∈ reports, ids.findingId x.2 = ids.findingId y.2 → x.2 = y.2)
    (ha : KeyOf ids prior pending reports a key) (hb : KeyOf ids prior pending reports b key') :
    key = key' ↔ Linked reports a b ∨
      (∃ c, Candidate prior pending reports a c ∧ Candidate prior pending reports b c) ∨
      NamedAlike ids prior pending reports a b ∨ NamedAlike ids prior pending reports b a := by
  constructor
  · rintro rfl
    by_cases hca : ∃ c, Candidate prior pending reports a c
    · obtain ⟨c, hc⟩ := hca
      obtain rfl := ha.1 c hc
      by_cases hcb : ∃ c, Candidate prior pending reports b c
      · obtain ⟨c', hc'⟩ := hcb
        exact .inr (.inl ⟨c, hc, hb.1 c' hc' ▸ hc'⟩)
      · have hnone := not_exists.mp hcb
        obtain ⟨id, hid, rfl⟩ := hb.2 hnone
        exact .inr (.inr (.inr ⟨hnone, id, hid, hc⟩))
    · have hnone := not_exists.mp hca
      obtain ⟨id, hid, rfl⟩ := ha.2 hnone
      by_cases hcb : ∃ c, Candidate prior pending reports b c
      · obtain ⟨c', hc'⟩ := hcb
        exact .inr (.inr (.inl ⟨hnone, id, hid, hb.1 c' hc' ▸ hc'⟩))
      · -- two new names are one only for one artifact
        obtain ⟨id', hid', hsame⟩ := hb.2 (not_exists.mp hcb)
        obtain ⟨j, x, hj, hx, rfl, -⟩ := hid
        obtain ⟨j', y, hj', hy, rfl, -⟩ := hid'
        have hmem := List.mem_of_getElem? hj
        have hmem' := List.mem_of_getElem? hj'
        have hlink : Linked reports x y :=
          .single ⟨hmem, hmem', .inl (hinj x hmem y hmem' hsame)⟩
        exact .inl ((hx.trans hlink).trans hy.symm)
  · rintro (hlinked | ⟨c, hc, hc'⟩ | ⟨hnone, id, hid, hc⟩ | ⟨hnone, id, hid, hc⟩)
    · exact (ha.congr hlinked).unique hb
    · exact (ha.1 c hc).symm.trans (hb.1 c hc')
    · obtain ⟨id', hid', rfl⟩ := ha.2 hnone
      rw [hid'.unique hid, hb.1 _ hc]
    · obtain ⟨id', hid', rfl⟩ := hb.2 hnone
      rw [hid'.unique hid, ha.1 _ hc]

/-- Reports have keys when their components have at most one candidate each. -/
theorem exists_keys_iff {ids : ReviewIds} :
    (∃ keys, canonicalStageKeys ids reports prior pending = .ok keys) ↔
      (∀ r ∈ reports, ∀ relation ∈ r.1.relations,
        prior.findings.contains relation.target = true) ∧
      ∀ r ∈ reports, ∀ c c', Candidate prior pending reports r c →
        Candidate prior pending reports r c' → c = c' := by
  simp only [canonicalStageKeys_eq_ok_iff, exists_and_left]
  refine and_congr_right fun _ => ?_
  constructor
  · rintro ⟨keys, hkeys⟩ r hr c c' hc hc'
    obtain ⟨j, hj⟩ := List.mem_iff_getElem?.mp hr
    obtain ⟨hlt, rfl⟩ := List.getElem?_eq_some_iff.mp hj
    have hone := hkeys.get hlt (hkeys.length_eq ▸ hlt)
    exact (hone.1 c hc).trans (hone.1 c' hc').symm
  · intro hone
    have hkey : ∀ r ∈ reports, ∃ key, KeyOf ids prior pending reports r key := by
      intro r hr
      by_cases hcandidate : ∃ c, Candidate prior pending reports r c
      · obtain ⟨c, hc⟩ := hcandidate
        exact ⟨c, fun c' hc' => hone r hr c' c hc' hc, fun hnone => absurd hc (hnone c)⟩
      · obtain ⟨j, hj⟩ := List.mem_iff_getElem?.mp hr
        exact ⟨_, fun c hc => absurd ⟨c, hc⟩ hcandidate, fun _ => ⟨_, firstOf_root hj, rfl⟩⟩
    choose! key hkey using hkey
    exact ⟨reports.map key, List.forall₂_map_right_iff.mpr (List.forall₂_same.mpr hkey)⟩

theorem keyOf_of_mem_zip {ids : ReviewIds} {keys : List String} {key : String}
    (h : List.Forall₂ (KeyOf ids prior pending reports) reports keys)
    (hmem : (a, key) ∈ reports.zip keys) : KeyOf ids prior pending reports a key :=
  List.forall₂_zip h hmem

end Components

/-- **The keys of a stage.** The loops of the source answer when every relation names a Finding of
the input and no component has two candidates. Two reports then have one key exactly when they are
in one component, their components have one candidate, or the new name of the one is the candidate
of the other. In another order of the reports there are keys as well, and a report has the same
one, unless its component has no candidate: then it is named after the first report of that
order. -/
theorem stage_keys (ids : ReviewIds) (reports : List (FindingReport × String)) (prior : Ledger)
    (pending : List (Occurrence × String))
    (hinj : ∀ x ∈ reports, ∀ y ∈ reports, ids.findingId x.2 = ids.findingId y.2 → x.2 = y.2) :
    ((∃ keys, canonicalStageKeysHalving ids reports prior pending = .ok keys) ↔
      (∀ r ∈ reports, ∀ relation ∈ r.1.relations,
        prior.findings.contains relation.target = true) ∧
      ∀ r ∈ reports, ∀ c c', Candidate prior pending reports r c →
        Candidate prior pending reports r c' → c = c') ∧
    ∀ keys, canonicalStageKeysHalving ids reports prior pending = .ok keys →
      keys.length = reports.length ∧
      (∀ a key b key', (a, key) ∈ reports.zip keys → (b, key') ∈ reports.zip keys →
        (key = key' ↔ Linked reports a b ∨
          (∃ c, Candidate prior pending reports a c ∧ Candidate prior pending reports b c) ∨
          NamedAlike ids prior pending reports a b ∨ NamedAlike ids prior pending reports b a)) ∧
      ∀ reports', reports.Perm reports' →
        ∃ keys', canonicalStageKeysHalving ids reports' prior pending = .ok keys' ∧
          ∀ a key key', (a, key) ∈ reports.zip keys → (a, key') ∈ reports'.zip keys' →
            key = key' ∨ ((∀ c, ¬ Candidate prior pending reports a c) ∧
              ∃ id id', FirstOf reports a id ∧ key = ids.findingId id ∧
                FirstOf reports' a id' ∧ key' = ids.findingId id') := by
  simp only [canonicalStageKeysHalving_eq]
  refine ⟨exists_keys_iff, fun keys hkeys => ?_⟩
  obtain ⟨-, hall⟩ := canonicalStageKeys_eq_ok_iff.mp hkeys
  refine ⟨hall.length_eq.symm, fun a key b key' ha hb => ?_, fun reports' hperm => ?_⟩
  · exact key_eq_iff hinj (keyOf_of_mem_zip hall ha) (keyOf_of_mem_zip hall hb)
  · obtain ⟨hrelations, hone⟩ := exists_keys_iff.mp ⟨keys, hkeys⟩
    obtain ⟨keys', hkeys'⟩ := (@exists_keys_iff reports' prior pending ids).mpr
      ⟨fun r hr => hrelations r (hperm.mem_iff.mpr hr), fun r hr c c' hc hc' =>
        hone r (hperm.mem_iff.mpr hr) c c' ((candidate_perm hperm).mpr hc)
          ((candidate_perm hperm).mpr hc')⟩
    obtain ⟨-, hall'⟩ := canonicalStageKeys_eq_ok_iff.mp hkeys'
    refine ⟨keys', hkeys', fun a key key' ha ha' => ?_⟩
    have hkey := keyOf_of_mem_zip hall ha
    have hkey' := keyOf_of_mem_zip hall' ha'
    by_cases hcandidate : ∃ c, Candidate prior pending reports a c
    · obtain ⟨c, hc⟩ := hcandidate
      exact .inl ((hkey.1 c hc).symm.trans (hkey'.1 c ((candidate_perm hperm).mp hc)))
    · have hnone := not_exists.mp hcandidate
      obtain ⟨id, hid, hsame⟩ := hkey.2 hnone
      obtain ⟨id', hid', hsame'⟩ :=
        hkey'.2 fun c hc => hnone c ((candidate_perm hperm).mpr hc)
      exact .inr ⟨hnone, id, id', hid, hsame, hid', hsame'⟩

/-- Two reviewers hand in one occurrence, as two artifacts. -/
def sampleTwins : List (FindingReport × String) :=
  [(sampleOccurrence "race", "a"), (sampleOccurrence "race", "b")]

/-- A report with no occurrence of its own. -/
def sampleRemark (relations : List Relation) : FindingReport :=
  { sampleOccurrence "race" with ruleId := none, occurrenceKey := none, relations := relations }

/-- A report that corroborates a Finding, and the very artifact the Finding was made of. -/
def sampleRestated : List (FindingReport × String) :=
  [(sampleRemark [⟨"finding of report", none⟩], "a"), (sampleRemark [], "report")]

/-- The keys of the samples. -/
theorem sample_keys :
    ((canonicalStageKeysHalving sampleIds sampleTwins (Ledger.start "policy" 1) []).toOption =
        some ["finding of a", "finding of a"] ∧
      (canonicalStageKeysHalving sampleIds sampleTwins.reverse
        (Ledger.start "policy" 1) []).toOption = some ["finding of b", "finding of b"]) ∧
    ∃ L ∈ run (Ledger.step sampleViewId) (Ledger.start canonicalFindingIdentityPolicy 1)
        [sampleReported "finding of report" "reviewer"],
      (canonicalStageKeysHalving sampleIds sampleRestated L []).toOption =
        some ["finding of report", "finding of report"] := by
  decide +kernel

theorem stage_keys_twins : ∃ keys, canonicalStageKeysHalving sampleIds sampleTwins
    (Ledger.start "policy" 1) [] = .ok keys ∧ keys.length = 2 ∧
      ∃ keys', canonicalStageKeysHalving sampleIds sampleTwins.reverse
        (Ledger.start "policy" 1) [] = .ok keys' := by
  have hkeys := toOption_eq_some.mp sample_keys.1.1
  obtain ⟨-, hall⟩ := stage_keys sampleIds sampleTwins (Ledger.start "policy" 1) [] (by decide)
  obtain ⟨hlength, -, hperm⟩ := hall _ hkeys
  obtain ⟨keys', hkeys', -⟩ := hperm sampleTwins.reverse (List.reverse_perm _).symm
  exact ⟨_, hkeys, hlength, keys', hkeys'⟩

theorem sampleRestated_apart {a b : FindingReport × String} (h : Linked sampleRestated a b) :
    a = b := by
  induction h with
  | refl => rfl
  | tail _ hshare ih =>
    obtain ⟨ha, hb, hshare⟩ := hshare
    simp only [sampleRestated, List.mem_cons, List.not_mem_nil, or_false] at ha hb
    rcases ha with rfl | rfl <;> rcases hb with rfl | rfl <;>
      simp_all [sampleRemark, FindingReport.occurrence]

/-- Keys follow the order of the reports, and a report outside a component may have its key. -/
theorem keys_follow_the_order :
    (canonicalStageKeysHalving sampleIds sampleTwins (Ledger.start "policy" 1) [] =
        .ok ["finding of a", "finding of a"] ∧
      canonicalStageKeysHalving sampleIds sampleTwins.reverse (Ledger.start "policy" 1) [] =
        .ok ["finding of b", "finding of b"]) ∧
    ∃ L, run (Ledger.step sampleViewId) (Ledger.start canonicalFindingIdentityPolicy 1)
        [sampleReported "finding of report" "reviewer"] = some L ∧
      canonicalStageKeysHalving sampleIds sampleRestated L [] =
        .ok ["finding of report", "finding of report"] ∧
      ∃ a b, sampleRestated = [a, b] ∧ ¬ Linked sampleRestated a b ∧
        ∀ c, ¬ Candidate L [] sampleRestated b c := by
  obtain ⟨⟨htwins, hreversed⟩, L, hL, hkeys⟩ := sample_keys
  refine ⟨⟨toOption_eq_some.mp htwins, toOption_eq_some.mp hreversed⟩, ?_⟩
  refine ⟨L, hL, toOption_eq_some.mp hkeys, _, _, rfl, fun h => ?_, ?_⟩
  · exact absurd (congrArg Prod.snd (sampleRestated_apart h)) (by decide)
  · rintro c ⟨b, -, hlinked, hnames⟩
    obtain rfl := sampleRestated_apart hlinked
    simp [Names, sampleRemark, FindingReport.occurrence] at hnames

end Afactory
