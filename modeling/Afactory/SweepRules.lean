import Mathlib
import Afactory.StorageSweep

/-!
# What a sweep plan takes

A plan removes each entry at most once, and only what its rules allow.

* `Inputs.Listed`: what an inventory's snapshot is, each thing listed once;
* `Sweep.Took`: what a part of the plan adds, the steps' keys out of the candidates' and
  gone from the model after them;
* `Planned.Rightful`: what every step keeps clear of;
* `make_allowed`: the plan as a whole, with the order the budget takes its entries in.
-/

namespace Afactory

namespace Storage

/-! ## Keys -/

/-- The key of the entry a step removes. -/
def Planned.key (st : Planned) : Key :=
  (st.removal.kind, st.removal.path, st.removal.taskId)

/-- An entry without its bytes, which removals inside it change. -/
def Entry.bare (e : Entry) : Entry := { e with bytes := 0 }

@[simp] theorem Entry.key_bare (e : Entry) : e.bare.key = e.key := rfl

@[simp] theorem Entry.bare_resized (e : Entry) (b : ℕ) : { e with bytes := b }.bare = e.bare := rfl

/-- The keys of the model's entries. -/
def Model.keys (M : Model) : List Key := M.entries.map Entry.key

/-- The model's entries without their bytes. -/
def Model.bare (M : Model) : List Entry := M.entries.map Entry.bare

theorem Model.keys_eq (M : Model) : M.keys = M.bare.map Entry.key := by
  simp [Model.keys, Model.bare, Function.comp_def]

/-- The kind and object of a pending deletion's step. -/
def Pending.target (pending : Pending) : Kind × PathBuf :=
  (Sweep.pendingKind pending, pending.object)

/-- The pending deletions of the Stores whose lock is free, each with its Store. -/
def Inputs.pendings (inputs : Inputs) : List (PathBuf × Pending) :=
  inputs.projects.flatMap fun p =>
    if p.2.held.isSome then [] else p.2.recovery.map fun r => (p.1, r)

/-- The uncollected Surveys, each with its Store. -/
def Inputs.live (inputs : Inputs) : List (PathBuf × Live) :=
  inputs.projects.flatMap fun p => p.2.live.map fun l => (p.1, l)

/-- Everything the snapshot measured. -/
def Inputs.all (inputs : Inputs) : List Entry := inputs.entries ++ inputs.claims

/-- What an inventory lists: each entry, claim, Task pick, pending deletion and Survey
once, Task ids on Tasks only, a pending deletion in the Store whose look found it and
counted by its Survey's entry or by the Store's, and every Survey of a Store whose lock is
held in use. -/
structure Inputs.Listed (inputs : Inputs) : Prop where
  keys : (inputs.all.map Entry.key).Nodup
  claims : ∀ claim ∈ inputs.claims, claim.kind = .claim ∧ claim.taskId = none
  taskIds : ∀ e ∈ inputs.entries, e.taskId.isSome → e.kind = .task
  picks : (inputs.tasks.map fun p => (p.state, p.taskId)).Nodup
  stores : (inputs.projects.map Prod.fst).Nodup
  targets : (inputs.pendings.map fun r => r.2.target).Nodup
  objects : (inputs.live.map fun l => objectPath l.1 l.2.surveyId).Nodup
  apart : ∀ r ∈ inputs.pendings, ∀ l ∈ inputs.live,
    r.2.target ≠ (.survey, objectPath l.1 l.2.surveyId)
  within : ∀ r ∈ inputs.pendings, r.2.counted = .store →
    (r.2.target.1, r.2.target.2, none) ∉ inputs.all.map Entry.key
  records : ∀ r ∈ inputs.pendings, r.2.counted = .survey → r.2.target.1 = .survey
  jobs : ∀ r ∈ inputs.pendings, r.2.job.store = r.1
  held : ∀ p ∈ inputs.projects, p.2.held.isSome → ∀ e ∈ inputs.entries, e.kind = .survey →
    (surveyOfObject e.path).map Prod.fst = some p.1 → e.inUse.isSome

/-- The model lists entries of the snapshot, their bytes apart. -/
def Inputs.Tracks (inputs : Inputs) (M : Model) : Prop :=
  M.bare.Sublist (inputs.counted.map Entry.bare)

theorem Inputs.counted_sublist (inputs : Inputs) : inputs.counted.Sublist inputs.all :=
  (List.Sublist.refl _).append List.filter_sublist

theorem Inputs.Listed.tracked_nodup {inputs : Inputs} (h : inputs.Listed) {M : Model}
    (hM : inputs.Tracks M) : M.keys.Nodup := by
  have hsub : M.keys.Sublist (inputs.counted.map Entry.key) := by
    rw [M.keys_eq]
    simpa [Function.comp_def] using hM.map Entry.key
  exact (h.keys.sublist (inputs.counted_sublist.map _)).sublist hsub

theorem Inputs.Tracks.keys_subset {inputs : Inputs} {M : Model} (hM : inputs.Tracks M) :
    M.keys ⊆ inputs.counted.map Entry.key := by
  rw [M.keys_eq]
  simpa [Function.comp_def] using (hM.map Entry.key).subset

/-- An entry of the model and one of the snapshot of the same key differ in bytes only. -/
theorem Inputs.Listed.same {inputs : Inputs} (h : inputs.Listed) {M : Model}
    (hM : inputs.Tracks M) {x e : Entry} (hx : x ∈ M.entries) (he : e ∈ inputs.all)
    (hkey : e.key = x.key) : e.bare = x.bare := by
  obtain ⟨e', he', hbare⟩ := List.mem_map.mp (hM.subset (List.mem_map_of_mem hx))
  have hkey' : e.key = e'.key := by rw [hkey, ← x.key_bare, ← hbare, e'.key_bare]
  rw [List.inj_on_of_nodup_map h.keys he (inputs.counted_sublist.subset he') hkey', hbare]

/-! ## What a take leaves -/

theorem map_bare_changeFirst (p : Entry → Bool) (n : ℕ) (l : List Entry) :
    (changeFirst p (fun e => { e with bytes := e.bytes - n }) l).map Entry.bare =
      l.map Entry.bare := by
  induction l with
  | nil => rfl
  | cons e rest ih =>
    rw [changeFirst]
    split
    · rfl
    · rw [List.map_cons, ih, List.map_cons]

theorem Model.bare_takeWithin (M : Model) (inside : Option (Kind × PathBuf)) (bytes : ℕ) :
    (M.takeWithin inside bytes).bare = M.bare := by
  cases inside with
  | none => rfl
  | some p =>
    simp only [takeWithin]
    split
    · rfl
    · exact map_bare_changeFirst _ _ _

theorem Model.bare_take (M : Model) (key : Option Key) (inside : Option (Kind × PathBuf))
    (bytes : ℕ) : (M.take key inside bytes).bare.Sublist M.bare := by
  rw [take]
  split
  · exact List.eraseP_sublist.map _
  · rw [bare_takeWithin]

/-- The entry a take names is gone after it. -/
theorem Model.take_gone {M : Model} (hM : M.keys.Nodup) (k : Key)
    (inside : Option (Kind × PathBuf)) (bytes : ℕ) :
    k ∉ (M.take (some k) inside bytes).keys := by
  rw [take, Option.bind_some]
  cases hf : M.entries.find? (·.key = k) with
  | none =>
    rw [keys_eq, bare_takeWithin, ← keys_eq]
    intro hk
    obtain ⟨e, he, hek⟩ := List.mem_map.mp hk
    exact List.find?_eq_none.mp hf e he (by simpa using hek)
  | some entry =>
    obtain rfl : entry.key = k := by simpa using List.find?_some hf
    obtain ⟨pre, post, hsplit, hpre⟩ := List.find?_eq_some_iff_append.mp hf |>.2
    have herase : M.entries.eraseP (·.key = entry.key) = pre ++ post := by
      rw [hsplit, List.eraseP_append_right _ (fun e he => by simpa using hpre e he)]
      simp
    simp only [keys, herase]
    rw [keys, hsplit, List.map_append, List.map_cons] at hM
    have := (List.nodup_middle.mp hM)
    rw [List.nodup_cons, ← List.map_append] at this
    exact this.1

theorem Model.bare_takeTelemetry (M : Model) (path : PathBuf) (freed : ℕ) :
    (M.takeTelemetry path freed).bare.Sublist M.bare :=
  List.filter_sublist.map _

/-! ## What a part of the plan adds -/

/-- The total after a run of steps, from what it was before them. -/
def runningTotal (before : ℕ) (steps : List Planned) : Option ℕ :=
  match steps.getLast? with
  | none => some before
  | some st => st.removal.totalAfter

namespace Sweep

/-- The total the last step of the plan leaves. -/
def lastTotal (S : Sweep) : Option ℕ := runningTotal S.plan.totalBefore S.plan.steps

/-- What a part of the plan adds: steps whose keys are, in order, among the candidates',
each one as `Q` says and its entry gone from the model after the part. -/
structure Took (keys : List Key) (Q : Planned → Prop) (S S' : Sweep) : Prop where
  steps : ∃ new, S'.plan.steps = S.plan.steps ++ new ∧ (new.map Planned.key).Sublist keys ∧
    ∀ st ∈ new, Q st ∧ st.key ∉ S'.model.keys
  model : S'.model.bare.Sublist S.model.bare
  only : S'.telemetry.only = S.telemetry.only
  before : S'.plan.totalBefore = S.plan.totalBefore
  last : S.lastTotal = some S.model.total → S'.lastTotal = some S'.model.total

variable {keys keys' : List Key} {Q : Planned → Prop} {S S₁ S' : Sweep}

/-- A part that plans nothing. -/
theorem Took.of_eq (hsteps : S'.plan.steps = S.plan.steps) (hmodel : S'.model = S.model)
    (htel : S'.telemetry.only = S.telemetry.only)
    (hbefore : S'.plan.totalBefore = S.plan.totalBefore) : Took keys Q S S' where
  steps := by
    refine ⟨[], by rw [hsteps, List.append_nil], List.nil_sublist _, fun st hst => ?_⟩
    exact absurd hst List.not_mem_nil
  model := by rw [hmodel]
  only := htel
  before := hbefore
  last h := by
    have hlast : S'.lastTotal = S.lastTotal := by simp only [lastTotal, hsteps, hbefore]
    rw [hlast, h, hmodel]

theorem Took.refl : Took keys Q S S := .of_eq rfl rfl rfl rfl

/-- Two parts one after the other. -/
theorem Took.trans (h : Took keys Q S S₁) (h' : Took keys' Q S₁ S') :
    Took (keys ++ keys') Q S S' where
  steps := by
    obtain ⟨new, hnew, hsub, hq⟩ := h.steps
    obtain ⟨new', hnew', hsub', hq'⟩ := h'.steps
    refine ⟨new ++ new', by rw [hnew', hnew, List.append_assoc], ?_, fun st hst => ?_⟩
    · rw [List.map_append]
      exact hsub.append hsub'
    · rcases List.mem_append.mp hst with hst | hst
      · refine ⟨(hq st hst).1, fun hk => (hq st hst).2 ?_⟩
        rw [Model.keys_eq] at hk ⊢
        exact (h'.model.map _).subset hk
      · exact hq' st hst
  model := h'.model.trans h.model
  only := h'.only.trans h.only
  before := h'.before.trans h.before
  last hl := h'.last (h.last hl)

theorem Took.imp {Q' : Planned → Prop} (h : Took keys Q S S') (hQ : ∀ st, Q st → Q' st) :
    Took keys Q' S S' where
  steps := by
    obtain ⟨new, hnew, hkeys, hq⟩ := h.steps
    exact ⟨new, hnew, hkeys, fun st hst => ⟨hQ st (hq st hst).1, (hq st hst).2⟩⟩
  model := h.model
  only := h.only
  before := h.before
  last := h.last

theorem Took.tracks {inputs : Inputs} (h : Took keys Q S S') (hS : inputs.Tracks S.model) :
    inputs.Tracks S'.model :=
  List.Sublist.trans h.model hS

/-- A loop over candidates, each of which plans at most steps of its own. -/
theorem Took.foldl {α : Type} {f : Sweep → α → Sweep} {keys : α → List Key} {inputs : Inputs}
    {l : List α}
    (hf : ∀ x ∈ l, ∀ S, inputs.Tracks S.model → Took (keys x) Q S (f S x))
    (hS : inputs.Tracks S.model) : Took (l.flatMap keys) Q S (l.foldl f S) := by
  induction l generalizing S with
  | nil => exact .refl
  | cons x rest ih =>
    have hx := hf x List.mem_cons_self S hS
    exact hx.trans (ih (fun y hy => hf y (List.mem_cons_of_mem _ hy)) (hx.tracks hS))

/-- A loop over candidates, each of which plans at most its own step. -/
theorem Took.each {α : Type} {f : Sweep → α → Sweep} {key : α → Key} {inputs : Inputs}
    {l : List α}
    (hf : ∀ x ∈ l, ∀ S, inputs.Tracks S.model → Took [key x] Q S (f S x))
    (hS : inputs.Tracks S.model) : Took (l.map key) Q S (l.foldl f S) := by
  rw [List.map_eq_flatMap]
  exact .foldl hf hS

theorem lastTotal_planStep (M : Model) (r : Removal) (job : Job) :
    (S.planStep M r job).lastTotal = some M.total := by
  simp [lastTotal, runningTotal, planStep]

/-- One step planned, its entry not in the model after it. -/
theorem Took.planStep {M : Model} {r : Removal} {job : Job} (hM : M.bare.Sublist S.model.bare)
    (hgone : (r.kind, r.path, r.taskId) ∉ M.keys)
    (hQ : Q ⟨{ r with totalAfter := some M.total }, job⟩) :
    Took [(r.kind, r.path, r.taskId)] Q S (S.planStep M r job) where
  steps := ⟨_, rfl, List.Sublist.refl _, fun st hst => by
    obtain rfl := List.mem_singleton.mp hst
    exact ⟨hQ, hgone⟩⟩
  model := hM
  only := rfl
  before := rfl
  last _ := lastTotal_planStep M r job

/-- A push whose key is its step's own, or that takes from within another entry. -/
theorem Took.push {inputs : Inputs} (hin : inputs.Listed) (hS : inputs.Tracks S.model)
    {r : Removal} {job : Job} {key : Option Key} {inside : Option (Kind × PathBuf)} {k : Key}
    (hr : (r.kind, r.path, r.taskId) = k)
    (hkey : key = some k ∨ key = none ∧ k ∉ inputs.counted.map Entry.key)
    (hQ : ∀ total, Q ⟨{ r with totalAfter := some total }, job⟩) :
    Took [k] Q S (S.push r job key inside) := by
  subst hr
  have hbare := S.model.bare_take key inside r.bytes
  refine .planStep hbare ?_ (hQ _)
  rcases hkey with rfl | ⟨rfl, hnot⟩
  · exact Model.take_gone (hin.tracked_nodup hS) _ _ _
  · exact fun hk => hnot (Inputs.Tracks.keys_subset (hbare.trans hS) hk)

/-- A telemetry entry's eviction, planned or not. -/
theorem Took.pushTelemetry {e : Entry} {rule : Rule} (hkind : e.kind = .telemetry)
    (hQ : ∀ freed total, Q ⟨{ removalOf e freed rule with totalAfter := some total },
      .telemetry e⟩) :
    Took [e.key] Q S (S.pushTelemetry e rule).2 := by
  rw [Sweep.pushTelemetry]
  cases evictTelemetry S.telemetry.models e with
  | error error => exact .of_eq rfl rfl rfl rfl
  | ok evicted =>
    have htook : Took [e.key] Q S (S.planStep (S.model.takeTelemetry e.path evicted.1)
        (removalOf e evicted.1 rule) (.telemetry e)) := by
      refine .planStep (Model.bare_takeTelemetry _ _ _) (fun hk => ?_) (hQ _ _)
      obtain ⟨x, hx, hxe⟩ := List.mem_map.mp hk
      have hx := (List.mem_filter.mp hx).2
      simp only [Entry.key, removalOf, removal, Prod.mk.injEq] at hxe
      simp [hxe.1, hxe.2.1, hkind] at hx
    exact ⟨htook.steps, htook.model, htook.only, htook.before, htook.last⟩

end Sweep

/-! ## What every step keeps clear of -/

/-- What every step keeps clear of: the Stores themselves, what is in use (recovery, the
Surveys the judge gave to `keepSurveys` and the Tasks the Stores' rules took aside), claims
it could not take whole, Stores whose lock is held, what the budget and telemetry leave for
an hour, and Tasks too young for the budget. -/
structure Planned.Rightful (inputs : Inputs) (st : Planned) : Prop where
  stores : st.removal.kind ≠ .taskStore ∧ st.removal.kind ≠ .projectStore
  unused : ∀ e ∈ inputs.all, e.key = st.key → e.inUse.isSome → st.removal.rule = .recovery ∨
    st.removal.rule = .keepSurveys ∨ st.removal.rule = .collection ∧ st.removal.kind = .task
  measured : ∀ claim ∈ inputs.claims, claim.key = st.key →
    claim.tooDeep = false ∧ claim.unmeasurable = none
  deletion : st.removal.kind = .survey → ∃ job, st.job = .survey job
  unlocked : ∀ job, st.job = .survey job → ∀ p ∈ inputs.projects, p.2.held.isSome →
    job.store ≠ p.1
  rested : st.removal.rule = .budget ∨ st.removal.kind = .telemetry →
    ∀ e ∈ inputs.all, e.key = st.key → saturatingAdd e.lastUseUnixMs hourMs ≤ inputs.now
  grown : st.removal.rule = .budget → ∀ e ∈ inputs.all, e.key = st.key → e.kind = .task →
    saturatingAdd e.lastUseUnixMs inputs.idleMs ≤ inputs.now

/-- A step planned before the budget. -/
def Planned.Early (inputs : Inputs) (st : Planned) : Prop :=
  st.Rightful inputs ∧ st.removal.rule ≠ .budget

namespace Inputs

variable {inputs : Inputs}

theorem Listed.claim_key (h : inputs.Listed) {claim : Entry} (hc : claim ∈ inputs.claims) :
    claim.key = (.claim, claim.path, none) := by
  obtain ⟨hkind, htask⟩ := h.claims claim hc
  rw [Entry.key, hkind, htask]

theorem Listed.eq_of_key (h : inputs.Listed) {e e' : Entry} (he : e ∈ inputs.all)
    (he' : e' ∈ inputs.all) (hkey : e.key = e'.key) : e = e' :=
  List.inj_on_of_nodup_map h.keys he he' hkey

/-- A claim an entry counts is no entry of the model. -/
theorem Listed.held_not_counted (h : inputs.Listed) {claim : Entry} (hc : claim ∈ inputs.claims)
    (hheld : (inputs.heldBy claim).isSome) : claim.key ∉ inputs.counted.map Entry.key := by
  intro hk
  obtain ⟨e, he, hek⟩ := List.mem_map.mp hk
  obtain rfl := h.eq_of_key (inputs.counted_sublist.subset he) (List.mem_append_right _ hc) hek
  rcases List.mem_append.mp he with he | he
  · have hdisjoint := (List.nodup_append.mp h.keys.of_map).2.2
    exact hdisjoint e he e hc rfl
  · have hnone := (List.mem_filter.mp he).2
    rw [Option.isNone_iff_eq_none] at hnone
    rw [hnone] at hheld
    cases hheld

/-- A step of a claim's own kind, or of a Survey's, clears what the budget and telemetry
leave. -/
theorem Listed.other_kind (h : inputs.Listed) {st : Planned} (hkind : st.removal.kind ≠ .claim) :
    ∀ claim ∈ inputs.claims, claim.key = st.key →
      claim.tooDeep = false ∧ claim.unmeasurable = none := by
  intro claim hc hkey
  rw [h.claim_key hc] at hkey
  exact absurd (congrArg Prod.fst hkey).symm hkind

end Inputs

namespace Sweep

variable {inputs : Inputs} {S : Sweep}

/-! ## Recovery -/

theorem claimStep_took (h : inputs.Listed) {claim : Entry} (hc : claim ∈ inputs.claims)
    (hS : inputs.Tracks S.model) :
    Took [claim.key] (Planned.Early inputs) S (S.claimStep claim (inputs.heldBy claim)) := by
  unfold claimStep
  split
  · exact .of_eq rfl rfl rfl rfl
  next hdeep =>
    split
    · exact .of_eq rfl rfl rfl rfl
    next hmeasured =>
      rw [h.claim_key hc]
      refine .push h hS rfl ?_ fun total => ?_
      · cases hheld : inputs.heldBy claim with
        | none => exact .inl rfl
        | some held =>
          refine .inr ⟨rfl, ?_⟩
          have := h.held_not_counted hc (by rw [hheld]; rfl)
          rwa [h.claim_key hc] at this
      · refine ⟨⟨⟨nofun, nofun⟩, fun _ _ _ _ => .inl rfl, fun c hc' hkey => ?_, nofun, nofun,
          nofun, nofun⟩, nofun⟩
        obtain rfl := h.eq_of_key (List.mem_append_right _ hc') (List.mem_append_right _ hc)
          (hkey.trans (h.claim_key hc).symm)
        exact ⟨by simpa using hdeep, hmeasured⟩

theorem pendingStep_took (h : inputs.Listed) {p : PathBuf × Look} (hp : p ∈ inputs.projects)
    (hfree : p.2.held = none) {pending : Pending} (hr : pending ∈ p.2.recovery)
    (hS : inputs.Tracks S.model) :
    Took [(pending.target.1, pending.target.2, none)] (Planned.Early inputs) S
      (pendingStep p.1 p.2 S pending) := by
  have hmem : (p.1, pending) ∈ inputs.pendings := by
    refine List.mem_flatMap.mpr ⟨p, hp, ?_⟩
    rw [hfree]
    exact List.mem_map_of_mem hr
  unfold pendingStep
  rw [hfree]
  dsimp only
  refine .push h hS rfl ?_ fun total => ?_
  · cases hcounted : pending.counted with
    | survey =>
      have hkind : pendingKind pending = .survey := h.records _ hmem hcounted
      exact .inl (congrArg some (Prod.ext hkind.symm rfl))
    | store =>
      refine .inr ⟨rfl, fun hk => h.within _ hmem hcounted ?_⟩
      exact (inputs.counted_sublist.map _).subset hk
  · have hkind : pendingKind pending = .claim ∨ pendingKind pending = .survey := by
      unfold pendingKind
      split
      · exact .inl rfl
      · exact .inr rfl
    have hnot : ∀ claim ∈ inputs.claims, claim.key ≠ (pendingKind pending, pending.object, none) := by
      intro claim hc hkey
      rw [h.claim_key hc] at hkey
      cases hcounted : pending.counted with
      | survey =>
        have hsurvey : pendingKind pending = .survey := h.records _ hmem hcounted
        rw [hsurvey] at hkey
        exact nomatch congrArg Prod.fst hkey
      | store =>
        refine h.within _ hmem hcounted ?_
        refine List.mem_map.mpr ⟨claim, List.mem_append_right _ hc, ?_⟩
        rw [h.claim_key hc]
        exact hkey
    refine ⟨?_, nofun⟩
    constructor
    · rcases hkind with hk | hk <;> simp [removal, hk]
    · exact fun _ _ _ _ => .inl rfl
    · exact fun claim hc hkey => absurd hkey (hnot claim hc)
    · exact fun _ => ⟨_, rfl⟩
    · intro job hjob q hq hheld heq
      obtain rfl : pending.job = job := by simpa using hjob
      rw [h.jobs _ hmem] at heq
      obtain rfl := List.inj_on_of_nodup_map h.stores hp hq heq
      rw [hfree] at hheld
      cases hheld
    · rintro (hrule | htel)
      · cases hrule
      · rcases hkind with hk | hk <;> simp [removal, hk] at htel
    · exact nofun

/-- The keys of the pending deletions of a Store whose lock is free. -/
def pendingKeys (p : PathBuf × Look) : List Key :=
  if p.2.held.isSome then [] else p.2.recovery.map fun r => (r.target.1, r.target.2, none)

theorem projectStep_took (h : inputs.Listed) {p : PathBuf × Look} (hp : p ∈ inputs.projects)
    (hS : inputs.Tracks S.model) :
    Took (pendingKeys p) (Planned.Early inputs) S (S.projectStep p) := by
  unfold projectStep
  extract_lets _ said
  have hsaid : Took [] (Planned.Early inputs) S said := .of_eq rfl rfl rfl rfl
  suffices hfold : Took (pendingKeys p) (Planned.Early inputs) said
      (p.2.recovery.foldl (pendingStep p.1 p.2) said) from hsaid.trans hfold
  have hS : inputs.Tracks said.model := hS
  cases hheld : p.2.held with
  | none =>
    have hkeys : pendingKeys p = p.2.recovery.map fun r => (r.target.1, r.target.2, none) := by
      rw [pendingKeys, hheld]
      rfl
    rw [hkeys]
    exact .each (fun r hr S hS => pendingStep_took h hp hheld hr hS) hS
  | some reason =>
    have hkeys : pendingKeys p = p.2.recovery.flatMap fun _ => [] := by
      rw [pendingKeys, hheld]
      simp
    rw [hkeys]
    refine .foldl (fun r _ S (_ : inputs.Tracks S.model) => ?_) hS
    unfold pendingStep
    rw [hheld]
    dsimp only
    split <;> exact .of_eq rfl rfl rfl rfl

/-! ## Collection -/

theorem pickStep_took (h : inputs.Listed) (pick : TaskPick) (hS : inputs.Tracks S.model) :
    Took [(.task, pick.state, some pick.taskId)] (Planned.Early inputs) S (S.pickStep pick) := by
  refine .push h hS rfl (.inl rfl) fun total => ⟨⟨⟨nofun, nofun⟩, fun _ _ _ _ => ?_, ?_, nofun,
    nofun, ?_, nofun⟩, nofun⟩
  · exact .inr (.inr ⟨rfl, rfl⟩)
  · exact h.other_kind nofun
  · rintro (hrule | hkind)
    · cases hrule
    · cases hkind

/-- An entry of the model that is no Task has no Task id. -/
theorem taskId_eq_none (h : inputs.Listed) {M : Model} (hM : inputs.Tracks M) {x : Entry}
    (hx : x ∈ M.entries) (hkind : x.kind ≠ .task) : x.taskId = none := by
  obtain ⟨e, he, hbare⟩ := List.mem_map.mp (hM.subset (List.mem_map_of_mem hx))
  have htask : e.bare.taskId = x.bare.taskId := congrArg Entry.taskId hbare
  have hk : e.bare.kind = x.bare.kind := congrArg Entry.kind hbare
  change e.taskId = x.taskId at htask
  change e.kind = x.kind at hk
  rw [← htask]
  rcases List.mem_append.mp (inputs.counted_sublist.subset he) with he | he
  · cases hid : e.taskId with
    | none => rfl
    | some id => exact absurd (h.taskIds e he (by rw [hid]; rfl)) (hk ▸ hkind)
  · exact (h.claims e he).2

/-- An entry collection takes for its age. -/
theorem mem_idleEntries {M : Model} {x : Entry} (hx : x ∈ idleEntries inputs M) :
    x ∈ M.entries ∧ (x.kind = .campaign ∨ x.kind = .unreadableStore) ∧ x.inUse = none := by
  unfold idleEntries at hx
  obtain ⟨hx, huse⟩ := List.mem_filter.mp hx
  have huse : x.inUse = none := by
    simp only [Bool.and_eq_true, Option.isNone_iff_eq_none] at huse
    exact huse.1
  rcases List.mem_append.mp hx with hx | hx
  · have hx := (List.perm_insertionSort _ _).subset (List.mem_of_mem_drop hx)
    obtain ⟨hx, hkind⟩ := List.mem_filter.mp hx
    exact ⟨hx, .inl (by simpa using hkind), huse⟩
  · obtain ⟨hx, hkind⟩ := List.mem_filter.mp hx
    exact ⟨hx, .inr (by simpa using hkind), huse⟩

/-- The keys of what collection takes for its age are distinct. -/
theorem idleKeys_nodup (h : inputs.Listed) {M : Model} (hM : inputs.Tracks M) :
    ((idleEntries inputs M).map Entry.key).Nodup := by
  have hkeys := h.tracked_nodup hM
  have hpart : ∀ k : Kind, ((M.entries.filter fun e => e.kind = k).map Entry.key).Nodup :=
    fun k => hkeys.sublist (List.filter_sublist.map _)
  unfold idleEntries
  extract_lets campaigns unreadable
  refine List.Nodup.sublist (List.filter_sublist.map _) ?_
  rw [List.map_append]
  refine List.nodup_append.mpr ⟨?_, hpart .unreadableStore, fun a ha b hb heq => ?_⟩
  · refine List.Nodup.sublist ((List.drop_sublist _ _).map _) ?_
    exact ((List.perm_insertionSort _ _).map Entry.key).nodup_iff.mpr (hpart .campaign)
  · obtain ⟨x, hx, rfl⟩ := List.mem_map.mp ha
    obtain ⟨y, hy, rfl⟩ := List.mem_map.mp hb
    have hx := (List.perm_insertionSort _ _).subset (List.mem_of_mem_drop hx)
    have hxk : x.kind = .campaign := by simpa using (List.mem_filter.mp hx).2
    have hyk : y.kind = .unreadableStore := by simpa using (List.mem_filter.mp hy).2
    have := congrArg Prod.fst heq
    simp only [Entry.key, hxk, hyk] at this
    cases this

theorem idleStep_took (h : inputs.Listed) {M : Model} (hM : inputs.Tracks M) {x : Entry}
    (hx : x ∈ idleEntries inputs M) (hS : inputs.Tracks S.model) :
    Took [x.key] (Planned.Early inputs) S (S.idleStep x) := by
  obtain ⟨hmem, hkind, huse⟩ := mem_idleEntries hx
  have hcases : ∀ k : Kind, k = .campaign ∨ k = .unreadableStore →
      k ≠ .taskStore ∧ k ≠ .projectStore ∧ k ≠ .claim ∧ k ≠ .survey ∧ k ≠ .telemetry ∧
        k ≠ .task := by
    rintro k (rfl | rfl) <;> decide
  obtain ⟨hts, hps, hcl, hsv, htel, htask⟩ := hcases _ hkind
  have hid := taskId_eq_none h hM hmem htask
  have hkey : x.key = (x.kind, x.path, none) := by rw [Entry.key, hid]
  rw [hkey]
  refine .push h hS rfl (.inl rfl) fun total => ⟨⟨⟨hts, hps⟩, fun e he hek hin => ?_,
    h.other_kind hcl, fun hk => absurd hk hsv, nofun, ?_, nofun⟩, nofun⟩
  · have hbare : e.bare.inUse = x.bare.inUse :=
      congrArg Entry.inUse (h.same hM hmem he (hek.trans hkey.symm))
    change e.inUse = x.inUse at hbare
    rw [hbare, huse] at hin
    cases hin
  · rintro (hrule | hk)
    · cases hrule
    · exact absurd hk htel

theorem keepStep_took (h : inputs.Listed) (judge : Judge) {p : PathBuf × Look}
    (hp : p ∈ inputs.projects) (live : Live) (hS : inputs.Tracks S.model) :
    Took [(.survey, objectPath p.1 live.surveyId, none)] (Planned.Early inputs) S
      (keepStep judge p.1 p.2 S live) := by
  unfold keepStep
  extract_lets object found
  cases hheld : p.2.held with
  | some reason => exact .of_eq rfl rfl rfl rfl
  | none =>
    dsimp only
    split
    · have hask : Took [] (Planned.Early inputs) S S.ask := .of_eq rfl rfl rfl rfl
      have hS : inputs.Tracks S.ask.model := hS
      refine hask.trans (.push h hS rfl (.inl rfl) fun total => ?_)
      refine ⟨⟨⟨nofun, nofun⟩, ?_, h.other_kind nofun, fun _ => ⟨_, rfl⟩, ?_, ?_, nofun⟩, nofun⟩
      · exact fun _ _ _ _ => .inr (.inl rfl)
      · intro job hjob q hq hq' heq
        obtain rfl : _ = job := by simpa using hjob
        obtain rfl := List.inj_on_of_nodup_map h.stores hp hq heq
        rw [hheld] at hq'
        cases hq'
      · rintro (hrule | hkind)
        · cases hrule
        · cases hkind
    · exact .of_eq rfl rfl rfl rfl
    · exact .of_eq rfl rfl rfl rfl

/-- An entry of the snapshot under the key of one of the model's agrees with it, bytes
apart. -/
theorem agrees (h : inputs.Listed) {M : Model} (hM : inputs.Tracks M) {x e : Entry}
    (hx : x ∈ M.entries) (he : e ∈ inputs.all) (hkey : e.key = x.key) :
    e.kind = x.kind ∧ e.inUse = x.inUse ∧ e.lastUseUnixMs = x.lastUseUnixMs := by
  have hbare := h.same hM hx he hkey
  have hkind : e.bare.kind = x.bare.kind := by rw [hbare]
  have huse : e.bare.inUse = x.bare.inUse := by rw [hbare]
  have hlast : e.bare.lastUseUnixMs = x.bare.lastUseUnixMs := by rw [hbare]
  exact ⟨hkind, huse, hlast⟩

/-- A step that takes an entry of the model nothing uses, unused for an hour and, a Task
under the budget, old enough. -/
theorem rightful_of_resting (h : inputs.Listed) {M : Model} (hM : inputs.Tracks M) {x : Entry}
    (hx : x ∈ M.entries) (huse : x.inUse = none)
    (hrest : saturatingAdd x.lastUseUnixMs hourMs ≤ inputs.now) {st : Planned}
    (hkey : st.key = x.key)
    (hkind : x.kind ≠ .taskStore ∧ x.kind ≠ .projectStore ∧ x.kind ≠ .claim)
    (hgrown : st.removal.rule = .budget → x.kind = .task →
      saturatingAdd x.lastUseUnixMs inputs.idleMs ≤ inputs.now)
    (hdel : st.removal.kind = .survey → ∃ job, st.job = .survey job)
    (hlock : ∀ job, st.job = .survey job → ∀ p ∈ inputs.projects, p.2.held.isSome →
      job.store ≠ p.1) : st.Rightful inputs := by
  have hst : st.removal.kind = x.kind := congrArg Prod.fst hkey
  constructor
  · rw [hst]
    exact ⟨hkind.1, hkind.2.1⟩
  · intro e he hek hin
    rw [(agrees h hM hx he (hek.trans hkey)).2.1, huse] at hin
    cases hin
  · exact h.other_kind (hst ▸ hkind.2.2)
  · exact hdel
  · exact hlock
  · intro _ e he hek
    rw [(agrees h hM hx he (hek.trans hkey)).2.2]
    exact hrest
  · intro hrule e he hek htask
    obtain ⟨hk, _, hlast⟩ := agrees h hM hx he (hek.trans hkey)
    rw [hlast]
    exact hgrown hrule (hk ▸ htask)

theorem restingTelemetry_iff {x : Entry} : restingTelemetry inputs x = true ↔
    x.kind = .telemetry ∧ x.inUse = none ∧
      saturatingAdd x.lastUseUnixMs hourMs ≤ inputs.now := by
  simp [restingTelemetry, and_assoc]

/-- A telemetry entry at rest, evicted by any rule. -/
theorem pushTelemetry_took (h : inputs.Listed) {M : Model} (hM : inputs.Tracks M) {x : Entry}
    (hx : x ∈ M.entries) (hrest : restingTelemetry inputs x = true) (rule : Rule) :
    Took [x.key] (fun st => st.Rightful inputs ∧ st.removal.rule = rule ∧
      st.removal.kind = .telemetry) S (S.pushTelemetry x rule).2 := by
  obtain ⟨hkind, huse, hlast⟩ := restingTelemetry_iff.mp hrest
  refine .pushTelemetry hkind fun freed total => ⟨?_, rfl, hkind⟩
  refine rightful_of_resting h hM hx huse hlast rfl (by rw [hkind]; decide)
    (fun _ ht => ?_) (fun hk => ?_) nofun
  · rw [hkind] at ht
    cases ht
  · have hk : x.kind = .survey := hk
    rw [hkind] at hk
    cases hk

theorem mem_sortBy {cmp : Entry → Entry → Ordering} {l : List Entry} {x : Entry} :
    x ∈ sortBy cmp l ↔ x ∈ l :=
  (List.perm_insertionSort _ l).mem_iff

instance : Std.TransCmp leastRecentlyUsed := by
  unfold leastRecentlyUsed
  infer_instance

instance : Std.TransCmp evictionOrder := by
  unfold evictionOrder
  infer_instance

theorem pairwise_sortBy (cmp : Entry → Entry → Ordering) [Std.TransCmp cmp] (l : List Entry) :
    (sortBy cmp l).Pairwise fun a b => (cmp a b).isLE := by
  have : Std.Total fun a b : Entry => ((cmp a b).isLE : Prop) := ⟨fun a b => by
    cases h : cmp a b with
    | lt => simp
    | eq => simp
    | gt =>
      rw [Std.OrientedCmp.gt_iff_lt] at h
      simp [h]⟩
  have : IsTrans Entry fun a b => ((cmp a b).isLE : Prop) :=
    ⟨fun a b c => Std.TransCmp.isLE_trans⟩
  exact List.pairwise_insertionSort _ l

/-- The keys of a selection of the model's entries, in any order, are distinct. -/
theorem keys_sortBy_nodup (h : inputs.Listed) {M : Model} (hM : inputs.Tracks M)
    (cmp : Entry → Entry → Ordering) (p : Entry → Bool) :
    ((sortBy cmp (M.entries.filter p)).map Entry.key).Nodup := by
  refine ((List.perm_insertionSort _ _).map Entry.key).nodup_iff.mpr ?_
  exact (h.tracked_nodup hM).sublist (List.filter_sublist.map _)

/-! ## The budget -/

/-- What the budget may take. -/
theorem candidate_iff {only : Bool} {x : Entry} (hx : candidate inputs only x = true) :
    (x.kind ≠ .taskStore ∧ x.kind ≠ .projectStore ∧ x.kind ≠ .claim) ∧ x.inUse = none ∧
      saturatingAdd x.lastUseUnixMs hourMs ≤ inputs.now ∧
      (x.kind = .task → saturatingAdd x.lastUseUnixMs inputs.idleMs ≤ inputs.now) := by
  simp only [candidate, ne_eq, decide_not, Bool.and_eq_true, Bool.not_eq_true',
    decide_eq_false_iff_not, Option.isNone_iff_eq_none, decide_eq_true_eq, Bool.and_eq_false_iff,
    not_lt] at hx
  obtain ⟨⟨⟨⟨⟨⟨hts, hps⟩, hcl⟩, _⟩, huse⟩, hlast⟩, hyoung⟩ := hx
  exact ⟨⟨hts, hps, hcl⟩, huse, hlast, fun ht => hyoung.resolve_left fun hne => hne ht⟩

theorem budgetSurvey_took (h : inputs.Listed) (judge : Judge) {M : Model} (hM : inputs.Tracks M)
    {x : Entry} (hx : x ∈ M.entries) {only : Bool} (hcand : candidate inputs only x = true)
    (hkind : x.kind = .survey) (hS : inputs.Tracks S.model) :
    Took [x.key] (fun st => st.Rightful inputs ∧ st.removal.rule = .budget) S
      (budgetSurvey inputs judge S x) := by
  obtain ⟨hkinds, huse, hlast, _⟩ := candidate_iff hcand
  have hid := taskId_eq_none h hM hx (by rw [hkind]; decide)
  have hkey : (Kind.survey, x.path, none) = x.key := by rw [Entry.key, hkind, hid]
  unfold budgetSurvey
  split
  · exact .of_eq rfl rfl rfl rfl
  next store surveyId hobject =>
    split
    · exact .of_eq rfl rfl rfl rfl
    next live hlive =>
      split
      · have hask : Took [] (fun st => st.Rightful inputs ∧ st.removal.rule = .budget) S S.ask :=
          .of_eq rfl rfl rfl rfl
        have hS : inputs.Tracks S.ask.model := hS
        refine hask.trans (.push h hS hkey (.inl rfl) fun total => ⟨?_, rfl⟩)
        refine rightful_of_resting h hM hx huse hlast hkey hkinds
          (fun _ ht => ?_) (fun _ => ⟨_, rfl⟩) fun job hjob p hp hheld heq => ?_
        · rw [hkind] at ht
          cases ht
        · obtain rfl : _ = job := by simpa using hjob
          -- The Survey's entry would be in use, as every one of a held Store is.
          obtain ⟨e, he, hbare⟩ := List.mem_map.mp (hM.subset (List.mem_map_of_mem hx))
          have hek : e.key = x.key := by rw [← e.key_bare, hbare, x.key_bare]
          have hall := inputs.counted_sublist.subset he
          obtain ⟨hk, hin, _⟩ := agrees h hM hx hall hek
          have hpath : e.path = x.path := congrArg (fun k => k.2.1) hek
          rcases List.mem_append.mp hall with he | he
          · have := h.held p hp hheld e he (hk.trans hkind)
              (by rw [hpath, hobject]; exact congrArg some heq)
            rw [hin, huse] at this
            cases this
          · rw [(h.claims e he).1] at hk
            rw [← hk] at hkind
            cases hkind
      · exact .of_eq rfl rfl rfl rfl
      · exact .of_eq rfl rfl rfl rfl

theorem budgetStep_took (h : inputs.Listed) (judge : Judge) {M : Model} (hM : inputs.Tracks M)
    {x : Entry} (hx : x ∈ M.entries) {only : Bool} (hcand : candidate inputs only x = true)
    (hS : inputs.Tracks S.model) :
    Took [x.key] (fun st => st.Rightful inputs ∧ st.removal.rule = .budget) S
      (budgetStep inputs judge S x) := by
  obtain ⟨hkinds, huse, hlast, hgrown⟩ := candidate_iff hcand
  unfold budgetStep
  split
  next htel =>
    have hrest := restingTelemetry_iff.mpr ⟨htel, huse, hlast⟩
    exact (pushTelemetry_took h hM hx hrest .budget).imp fun st hst => ⟨hst.1, hst.2.1⟩
  · split
    next hsurvey => exact budgetSurvey_took h judge hM hx hcand hsurvey hS
    next hsurvey =>
      refine .push h hS rfl (.inl rfl) fun total => ⟨?_, rfl⟩
      exact rightful_of_resting h hM hx huse hlast rfl hkinds (fun _ ht => hgrown ht)
        (fun hk => absurd hk hsurvey) nofun

theorem budgetLoop_took (h : inputs.Listed) (judge : Judge) {M : Model} (hM : inputs.Tracks M)
    {only : Bool} {cands : List Entry}
    (hc : ∀ x ∈ cands, x ∈ M.entries ∧ candidate inputs only x = true)
    (hS : inputs.Tracks S.model) :
    Took (cands.map Entry.key) (fun st => st.Rightful inputs ∧ st.removal.rule = .budget) S
      (budgetLoop inputs judge cands S) := by
  induction cands generalizing S with
  | nil => exact .refl
  | cons x rest ih =>
    rw [budgetLoop]
    split
    · exact .refl
    · have hx := hc x List.mem_cons_self
      have htook := budgetStep_took h judge hM hx.1 hx.2 hS
      exact htook.trans (ih (fun y hy => hc y (List.mem_cons_of_mem _ hy)) (htook.tracks hS))

/-- **The budget loop** takes a candidate only while the model holds more than
`maxBytes`. -/
theorem budgetLoop_over (h : inputs.Listed) (judge : Judge) {M : Model} (hM : inputs.Tracks M)
    {only : Bool} {cands : List Entry}
    (hc : ∀ x ∈ cands, x ∈ M.entries ∧ candidate inputs only x = true)
    (hS : inputs.Tracks S.model) (hlast : S.lastTotal = some S.model.total) {new : List Planned}
    (hnew : (budgetLoop inputs judge cands S).plan.steps = S.plan.steps ++ new)
    {pre post : List Planned} {st : Planned} (hsplit : new = pre ++ st :: post) :
    ∃ t, runningTotal S.plan.totalBefore (S.plan.steps ++ pre) = some t ∧ inputs.maxBytes < t := by
  induction cands generalizing S new pre with
  | nil =>
    rw [budgetLoop, List.self_eq_append_right] at hnew
    rw [hnew] at hsplit
    simp at hsplit
  | cons x rest ih =>
    rw [budgetLoop] at hnew
    split at hnew
    · rw [List.self_eq_append_right] at hnew
      rw [hnew] at hsplit
      simp at hsplit
    next hover =>
      have hx := hc x List.mem_cons_self
      have htook := budgetStep_took h judge hM hx.1 hx.2 hS
      obtain ⟨new₁, hnew₁, hkeys₁, -⟩ := htook.steps
      have hrest := budgetLoop_took h judge hM
        (fun y hy => hc y (List.mem_cons_of_mem _ hy)) (htook.tracks hS)
      obtain ⟨new₂, hnew₂, -, -⟩ := hrest.steps
      have hall : new = new₁ ++ new₂ := by
        rw [hnew₂, hnew₁, List.append_assoc] at hnew
        exact (List.append_cancel_left hnew).symm
      cases pre with
      | nil => exact ⟨S.model.total, by rw [List.append_nil]; exact hlast, not_le.mp hover⟩
      | cons first pre' =>
        cases new₁ with
        | nil =>
          have := ih (fun y hy => hc y (List.mem_cons_of_mem _ hy)) (htook.tracks hS)
            (htook.last hlast) hnew₂ (hall.symm.trans hsplit)
          rwa [hnew₁, List.append_nil, htook.before] at this
        | cons st₁ more =>
          obtain rfl : more = [] := by
            have := hkeys₁.length_le
            simpa using this
          simp only [List.cons_append, List.nil_append] at hall
          rw [hall, List.cons_append, List.cons.injEq] at hsplit
          obtain ⟨rfl, hsplit⟩ := hsplit
          have := ih (fun y hy => hc y (List.mem_cons_of_mem _ hy)) (htook.tracks hS)
            (htook.last hlast) hnew₂ hsplit
          rwa [hnew₁, htook.before, List.append_assoc, List.singleton_append] at this

/-! ## Telemetry's cap -/

theorem capLoop_took (h : inputs.Listed) {M : Model} (hM : inputs.Tracks M) {cap held : ℕ}
    {cands : List Entry} (hc : ∀ x ∈ cands, x ∈ M.entries ∧ restingTelemetry inputs x = true) :
    Took (cands.map Entry.key) (fun st => st.Rightful inputs ∧ st.removal.rule = .budget ∧
      st.removal.kind = .telemetry) S (capLoop cap cands held S).2 := by
  induction cands generalizing S held with
  | nil =>
    unfold capLoop
    split <;> exact .of_eq rfl rfl rfl rfl
  | cons x rest ih =>
    unfold capLoop
    split
    · have hx := hc x List.mem_cons_self
      exact (pushTelemetry_took h hM hx.1 hx.2 .budget).trans
        (ih fun y hy => hc y (List.mem_cons_of_mem _ hy))
    · exact .refl

/-! ## Distinct steps -/

/-- No two steps name one entry, and none one the model still has. -/
def Distinct (S : Sweep) : Prop :=
  (S.plan.steps.map Planned.key).Nodup ∧ ∀ st ∈ S.plan.steps, st.key ∉ S.model.keys

variable {keys : List Key} {Q : Planned → Prop} {S' : Sweep}

theorem Took.distinct (h : Took keys Q S S') (hS : S.Distinct) (hkeys : keys.Nodup)
    (hnew : ∀ k ∈ keys, k ∉ S.plan.steps.map Planned.key) : S'.Distinct := by
  obtain ⟨new, hsteps, hsub, hq⟩ := h.steps
  constructor
  · rw [hsteps, List.map_append]
    refine List.nodup_append.mpr ⟨hS.1, hkeys.sublist hsub, fun k hk k' hk' heq => ?_⟩
    exact hnew k' (hsub.subset hk') (heq ▸ hk)
  · intro st hst hk
    rw [hsteps] at hst
    rcases List.mem_append.mp hst with hst | hst
    · refine hS.2 st hst ?_
      rw [Model.keys_eq] at hk ⊢
      exact (h.model.map _).subset hk
    · exact (hq st hst).2 hk

/-- Candidates out of the model were in no step yet. -/
theorem Took.distinct_of_model (h : Took keys Q S S') (hS : S.Distinct) (hkeys : keys.Nodup)
    (hsub : keys ⊆ S.model.keys) : S'.Distinct := by
  refine h.distinct hS hkeys fun k hk hold => ?_
  obtain ⟨st, hst, rfl⟩ := List.mem_map.mp hold
  exact hS.2 st hst (hsub hk)

theorem start_steps (inputs : Inputs) : inputs.start.plan.steps = [] := rfl

theorem start_distinct (inputs : Inputs) : inputs.start.Distinct := by
  rw [Distinct, start_steps]
  exact ⟨List.nodup_nil, fun st hst => absurd hst List.not_mem_nil⟩

theorem start_tracks (inputs : Inputs) : inputs.Tracks inputs.start.model :=
  List.Sublist.refl _

/-- The steps since the start have keys of the candidates. -/
theorem Took.keys_of_start (h : Took keys Q inputs.start S) :
    S.plan.steps.map Planned.key ⊆ keys := by
  obtain ⟨new, hsteps, hsub, -⟩ := h.steps
  rw [hsteps, start_steps, List.nil_append]
  exact hsub.subset

theorem mem_pendingKeys {k : Key} (hk : k ∈ inputs.projects.flatMap pendingKeys) :
    ∃ r ∈ inputs.pendings, k = (r.2.target.1, r.2.target.2, none) := by
  obtain ⟨p, hp, hk⟩ := List.mem_flatMap.mp hk
  unfold pendingKeys at hk
  split at hk
  · cases hk
  next hheld =>
    obtain ⟨r, hr, rfl⟩ := List.mem_map.mp hk
    refine ⟨(p.1, r), List.mem_flatMap.mpr ⟨p, hp, ?_⟩, rfl⟩
    rw [if_neg hheld]
    exact List.mem_map_of_mem hr

theorem pendingKeys_eq (inputs : Inputs) : inputs.projects.flatMap pendingKeys =
    (inputs.pendings.map fun r => r.2.target).map fun t => (t.1, t.2, none) := by
  unfold Inputs.pendings
  rw [List.map_map, List.map_flatMap]
  congr 1
  funext p
  unfold pendingKeys
  split
  · rfl
  · rw [List.map_map]
    rfl

/-- The keys of the Surveys `keepSurveys` picks. -/
def keepKeys (inputs : Inputs) (p : PathBuf × Look) : List Key :=
  (chooseBeyond p.2.live inputs.keepSurveys inputs.idleMs inputs.now).map fun l =>
    (.survey, objectPath p.1 l.surveyId, none)

theorem keepKeys_sublist (inputs : Inputs) : (inputs.projects.flatMap (keepKeys inputs)).Sublist
    ((inputs.live.map fun l => objectPath l.1 l.2.surveyId).map fun o => (.survey, o, none)) := by
  unfold Inputs.live
  rw [List.map_map, List.map_flatMap]
  generalize inputs.projects = projects
  induction projects with
  | nil => exact .slnil
  | cons p rest ih =>
    rw [List.flatMap_cons, List.flatMap_cons, List.map_map]
    refine List.Sublist.append ?_ ih
    exact (List.filter_sublist.trans (List.take_sublist _ _)).map _

/-- The keys of the Task picks. -/
def pickKeys (inputs : Inputs) : List Key :=
  (inputs.tasks.map fun p => (p.state, p.taskId)).map fun t => (.task, t.1, some t.2)

/-- The keys of the claims and of the records recovery takes. -/
def recoveryKeys (inputs : Inputs) : List Key :=
  inputs.claims.map Entry.key ++ inputs.projects.flatMap pendingKeys

theorem recoveryKeys_kind (h : inputs.Listed) {k : Key} (hk : k ∈ recoveryKeys inputs) :
    k.1 = .claim ∨ ∃ r ∈ inputs.pendings, k = (r.2.target.1, r.2.target.2, none) := by
  rcases List.mem_append.mp hk with hk | hk
  · obtain ⟨claim, hc, rfl⟩ := List.mem_map.mp hk
    exact .inl (h.claims claim hc).1
  · exact .inr (mem_pendingKeys hk)

/-- What recovery and the Stores' rules name, they name once. -/
theorem namedKeys_nodup (h : inputs.Listed) :
    (recoveryKeys inputs ++ pickKeys inputs).Nodup := by
  have hall := List.nodup_append.mp (List.map_append ▸ h.keys)
  refine List.nodup_append.mpr ⟨List.nodup_append.mpr ⟨hall.2.1, ?_, ?_⟩, ?_, ?_⟩
  · rw [pendingKeys_eq]
    refine h.targets.map fun t t' heq => ?_
    simp only [Prod.mk.injEq, and_true] at heq
    exact Prod.ext heq.1 heq.2
  · intro k hk k' hk' heq
    obtain ⟨claim, hc, hkey⟩ := List.mem_map.mp hk
    obtain ⟨r, hr, rfl⟩ := mem_pendingKeys hk'
    cases hcounted : r.2.counted with
    | survey =>
      rw [← hkey, h.claim_key hc, h.records r hr hcounted] at heq
      exact nomatch congrArg Prod.fst heq
    | store =>
      refine h.within r hr hcounted (List.mem_map.mpr ⟨claim, List.mem_append_right _ hc, ?_⟩)
      rw [hkey, heq]
  · refine h.picks.map fun t t' heq => ?_
    simp only [Prod.mk.injEq, Option.some.injEq, true_and] at heq
    exact Prod.ext heq.1 heq.2
  · intro k hk k' hk' heq
    obtain ⟨t, -, rfl⟩ := List.mem_map.mp hk'
    rcases recoveryKeys_kind h hk with hkind | ⟨r, -, hr⟩
    · rw [heq] at hkind
      cases hkind
    · rw [heq] at hr
      exact nomatch congrArg (fun k => k.2.2) hr

/-- **Recovery**: what interruptions left. -/
theorem recovered_took (h : inputs.Listed) :
    Took (recoveryKeys inputs) (Planned.Early inputs) inputs.start inputs.recovered := by
  have hclaims := Took.each (fun claim hc S hS => claimStep_took h hc hS) (start_tracks inputs)
  have hS := hclaims.tracks (start_tracks inputs)
  exact hclaims.trans (Took.foldl (fun p hp S hS => projectStep_took h hp hS) hS)

/-- A part from the start, its candidates distinct. -/
theorem Took.distinct_of_start (h : Took keys Q inputs.start S) (hkeys : keys.Nodup) :
    S.Distinct := by
  refine h.distinct (start_distinct inputs) hkeys fun k _ => ?_
  rw [start_steps]
  exact List.not_mem_nil

/-- **Collection** of everything but telemetry, after recovery. -/
theorem collectInto_took (h : inputs.Listed) (judge : Judge) :
    ∃ keys, Took keys (Planned.Early inputs) inputs.start
      (collectInto inputs judge inputs.recovered) ∧
      (collectInto inputs judge inputs.recovered).Distinct := by
  have hrec := recovered_took h
  have hR := hrec.tracks (start_tracks inputs)
  obtain ⟨picked, hpicked⟩ : ∃ S, S = inputs.tasks.foldl pickStep inputs.recovered := ⟨_, rfl⟩
  have hpick : Took (pickKeys inputs) (Planned.Early inputs) inputs.recovered picked := by
    rw [hpicked, pickKeys, List.map_map]
    exact .each (fun pick _ S hS => pickStep_took h pick hS) hR
  have hpickd : picked.Distinct := (hrec.trans hpick).distinct_of_start (namedKeys_nodup h)
  have hP := hpick.tracks hR
  -- The campaigns and the unreadable Stores: entries of the model.
  obtain ⟨idled, hidled⟩ : ∃ S, S = (idleEntries inputs picked.model).foldl idleStep picked :=
    ⟨_, rfl⟩
  have hidle : Took ((idleEntries inputs picked.model).map Entry.key) (Planned.Early inputs)
      picked idled := by
    rw [hidled]
    exact .each (fun x hx S hS => idleStep_took h hP hx hS) hP
  have hidled' : idled.Distinct := by
    refine hidle.distinct_of_model hpickd ?_ fun k hk => ?_
    · exact idleKeys_nodup h hP
    · obtain ⟨x, hx, rfl⟩ := List.mem_map.mp hk
      exact List.mem_map_of_mem (mem_idleEntries hx).1
  have hI := hidle.tracks hP
  -- The Surveys: of other kinds than what collection took, and no record recovery deleted.
  have hkeep : Took (inputs.projects.flatMap (keepKeys inputs)) (Planned.Early inputs) idled
      (inputs.projects.foldl (keepSurveysStep inputs judge) idled) := by
    refine .foldl (fun p hp S hS => ?_) hI
    exact .each (fun live _ S hS => keepStep_took h judge hp live hS) hS
  have hfull := (hrec.trans hpick).trans hidle
  have hcollect : collectInto inputs judge inputs.recovered =
      inputs.projects.foldl (keepSurveysStep inputs judge) idled := by
    rw [hidled, hpicked]
    rfl
  rw [hcollect]
  refine ⟨_, hfull.trans hkeep, hkeep.distinct hidled' ?_ fun k hk hold => ?_⟩
  · refine List.Nodup.sublist (keepKeys_sublist inputs) (h.objects.map fun o o' heq => ?_)
    simpa using heq
  · have hk := (keepKeys_sublist inputs).subset hk
    obtain ⟨o, ho, rfl⟩ := List.mem_map.mp hk
    obtain ⟨l, hl, rfl⟩ := List.mem_map.mp ho
    rcases List.mem_append.mp (hfull.keys_of_start hold) with hold | hold
    · rcases List.mem_append.mp hold with hold | hold
      · rcases recoveryKeys_kind h hold with hkind | ⟨r, hr, heq⟩
        · cases hkind
        · simp only [Prod.mk.injEq, and_true] at heq
          exact h.apart r hr l hl (Prod.ext heq.1.symm heq.2.symm)
      · obtain ⟨t, -, heq⟩ := List.mem_map.mp hold
        exact nomatch congrArg Prod.fst heq
    · obtain ⟨x, hx, heq⟩ := List.mem_map.mp hold
      have hkind : x.kind = .survey := congrArg Prod.fst heq
      rcases (mem_idleEntries hx).2.1 with hx | hx
      · rw [hx] at hkind
        cases hkind
      · rw [hx] at hkind
        cases hkind

/-- **Collection**, telemetry's included. -/
theorem collected_took (h : inputs.Listed) (judge : Judge) :
    ∃ keys, Took keys (Planned.Early inputs) inputs.start (inputs.collected judge) ∧
      (inputs.collected judge).Distinct := by
  have hgc : ∀ S : Sweep, (∃ keys, Took keys (Planned.Early inputs) inputs.start S ∧ S.Distinct) →
      ∃ keys, Took keys (Planned.Early inputs) inputs.start (collectTelemetry inputs S) ∧
        (collectTelemetry inputs S).Distinct := by
    rintro S ⟨keys, htook, hd⟩
    have hS := htook.tracks (start_tracks inputs)
    obtain ⟨idle, hidle⟩ : ∃ l, l = sortBy leastRecentlyUsed (S.model.entries.filter fun e =>
        restingTelemetry inputs e &&
          decide (saturatingAdd e.lastUseUnixMs inputs.idleMs ≤ inputs.now)) := ⟨_, rfl⟩
    have hmem : ∀ x ∈ idle, x ∈ S.model.entries ∧ restingTelemetry inputs x = true := by
      intro x hx
      rw [hidle, mem_sortBy] at hx
      obtain ⟨hx, hrest⟩ := List.mem_filter.mp hx
      exact ⟨hx, (Bool.and_eq_true_iff.mp hrest).1⟩
    have hgc : Took (idle.map Entry.key) (Planned.Early inputs) S (collectTelemetry inputs S) := by
      rw [collectTelemetry, ← hidle]
      refine .each (fun x hx S' hS' => ?_) hS
      refine (pushTelemetry_took h hS (hmem x hx).1 (hmem x hx).2 .collection).imp fun st hst => ?_
      exact ⟨hst.1, by rw [hst.2.1]; nofun⟩
    refine ⟨_, htook.trans hgc, hgc.distinct_of_model hd ?_ fun k hk => ?_⟩
    · rw [hidle]
      exact keys_sortBy_nodup h hS _ _
    · obtain ⟨x, hx, rfl⟩ := List.mem_map.mp hk
      exact List.mem_map_of_mem (hmem x hx).1
  have hrecovered : ∃ keys, Took keys (Planned.Early inputs) inputs.start inputs.recovered ∧
      inputs.recovered.Distinct :=
    ⟨_, recovered_took h,
      (recovered_took h).distinct_of_start (List.nodup_append.mp (namedKeys_nodup h)).1⟩
  unfold Inputs.collected
  split
  · refine hgc _ ?_
    split
    · exact hrecovered
    · exact collectInto_took h judge
  · exact hrecovered

end Sweep

/-! ## The plan -/

/-- Caches before telemetry before records, and least recently used first within each. -/
def Entry.Before (a b : Entry) : Prop :=
  a.kind.class < b.kind.class ∨
    a.kind.class = b.kind.class ∧ a.lastUseUnixMs ≤ b.lastUseUnixMs

theorem Entry.before_of_isLE {a b : Entry} (h : (evictionOrder a b).isLE = true) : a.Before b := by
  simp only [evictionOrder, leastRecentlyUsed, compareLex, compareOn, Ordering.isLE_then_iff_or,
    Nat.compare_eq_lt, Nat.compare_eq_eq] at h
  unfold Before
  omega

/-- What a plan may take: each entry once, nothing a step must keep clear of; under the
budget in its order and only while the total exceeds `maxBytes`; and it fits exactly when
what is left does. Telemetry's own cap comes last. -/
structure Plan.Allowed (inputs : Inputs) (plan : Plan) : Prop where
  once : (plan.steps.map Planned.key).Nodup
  rightful : ∀ st ∈ plan.steps, st.Rightful inputs
  budgeted : ∃ earlier budget cap, plan.steps = earlier ++ budget ++ cap ∧
    (∀ st ∈ earlier, st.removal.rule ≠ .budget) ∧ (∀ st ∈ budget, st.removal.rule = .budget) ∧
    (∀ st ∈ cap, st.removal.rule = .budget ∧ st.removal.kind = .telemetry) ∧
    (budget.Pairwise fun st st' => ∀ e ∈ inputs.all, ∀ e' ∈ inputs.all, e.key = st.key →
      e'.key = st'.key → e.Before e') ∧
    ∀ pre st post, budget = pre ++ st :: post →
      ∃ t, runningTotal plan.totalBefore (earlier ++ pre) = some t ∧ inputs.maxBytes < t
  fits : plan.stop = .fits ↔ plan.totalAfter ≤ inputs.maxBytes

namespace Sweep

variable {inputs : Inputs} {S : Sweep}

/-- What the budget plans, in its order and while the model holds too much. -/
theorem budget_took (h : inputs.Listed) (judge : Judge) (hS : inputs.Tracks S.model)
    (hlast : S.lastTotal = some S.model.total) (hd : S.Distinct) :
    (budget inputs judge S).Distinct ∧ inputs.Tracks (budget inputs judge S).model ∧
      (budget inputs judge S).plan.totalBefore = S.plan.totalBefore ∧
      ∃ new, (budget inputs judge S).plan.steps = S.plan.steps ++ new ∧
        (∀ st ∈ new, st.Rightful inputs ∧ st.removal.rule = .budget) ∧
        (new.Pairwise fun st st' => ∀ e ∈ inputs.all, ∀ e' ∈ inputs.all, e.key = st.key →
          e'.key = st'.key → e.Before e') ∧
        ∀ pre st post, new = pre ++ st :: post →
          ∃ t, runningTotal S.plan.totalBefore (S.plan.steps ++ pre) = some t ∧
            inputs.maxBytes < t := by
  unfold budget
  split
  · obtain ⟨cands, hcands⟩ : ∃ l, l = sortBy evictionOrder
        (S.model.entries.filter (candidate inputs S.telemetry.only)) := ⟨_, rfl⟩
    have hmem : ∀ x ∈ cands, x ∈ S.model.entries ∧
        candidate inputs S.telemetry.only x = true := by
      intro x hx
      rw [hcands, mem_sortBy] at hx
      exact List.mem_filter.mp hx
    rw [← hcands]
    have htook := budgetLoop_took h judge hS hmem hS
    obtain ⟨new, hnew, hkeys, hq⟩ := htook.steps
    have hdistinct := htook.distinct_of_model hd
      (by rw [hcands]; exact keys_sortBy_nodup h hS _ _) fun k hk => by
        obtain ⟨x, hx, rfl⟩ := List.mem_map.mp hk
        exact List.mem_map_of_mem (hmem x hx).1
    refine ⟨hdistinct, htook.tracks hS, htook.before, new, hnew, fun st hst => (hq st hst).1, ?_,
      fun pre st post hsplit => budgetLoop_over h judge hS hmem hS hlast hnew hsplit⟩
    -- The candidates stand in the eviction order, and the steps are some of them.
    obtain ⟨taken, htaken, heq⟩ := List.sublist_map_iff.mp hkeys
    have hsorted : taken.Pairwise fun a b => (evictionOrder a b).isLE := by
      refine List.Pairwise.sublist htaken ?_
      rw [hcands]
      exact pairwise_sortBy _ _
    have hpair : (taken.map Entry.key).Pairwise fun k k' => ∀ e ∈ inputs.all,
        ∀ e' ∈ inputs.all, e.key = k → e'.key = k' → e.Before e' := by
      refine List.pairwise_map.mpr (hsorted.imp_of_mem fun {a b} ha hb hle e he e' he' hk hk' => ?_)
      obtain ⟨hkind, -, huse⟩ := agrees h hS (hmem a (htaken.subset ha)).1 he hk
      obtain ⟨hkind', -, huse'⟩ := agrees h hS (hmem b (htaken.subset hb)).1 he' hk'
      have := Entry.before_of_isLE hle
      unfold Entry.Before at this ⊢
      rw [hkind, hkind', huse, huse']
      exact this
    rw [← heq] at hpair
    exact List.pairwise_map.mp hpair
  · refine ⟨hd, hS, rfl, [], (List.append_nil _).symm, ?_, List.Pairwise.nil, ?_⟩
    · exact fun st hst => absurd hst List.not_mem_nil
    · intro pre st post hsplit
      simp at hsplit

/-- What telemetry's cap plans. -/
theorem capTelemetry_took (h : inputs.Listed) (hS : inputs.Tracks S.model) (hd : S.Distinct) :
    (capTelemetry inputs S).2.Distinct ∧
      ∃ keys, Took keys (fun st => st.Rightful inputs ∧ st.removal.rule = .budget ∧
        st.removal.kind = .telemetry) S (capTelemetry inputs S).2 := by
  unfold capTelemetry
  extract_lets held
  split
  · exact ⟨hd, [], .refl⟩
  next cap hcap =>
    have hmem : ∀ x ∈ sortBy leastRecentlyUsed
        (S.model.entries.filter (restingTelemetry inputs)),
        x ∈ S.model.entries ∧ restingTelemetry inputs x = true := fun x hx =>
      List.mem_filter.mp (mem_sortBy.mp hx)
    have htook : Took _ _ S (capLoop cap _ held S).2 := capLoop_took h hS hmem
    refine ⟨htook.distinct_of_model hd (keys_sortBy_nodup h hS _ _) fun k hk => ?_, _, htook⟩
    obtain ⟨x, hx, rfl⟩ := List.mem_map.mp hk
    exact List.mem_map_of_mem (hmem x hx).1

end Sweep

theorem stopOf_eq_fits {total maxBytes : ℕ} : stopOf total maxBytes = .fits ↔ total ≤ maxBytes := by
  unfold stopOf
  split <;> simp_all

/-- **A sweep plan takes only what its rules allow**, for every snapshot that lists each
thing once, every limits and every judge. -/
theorem make_allowed (inputs : Inputs) (judge : Judge) (h : inputs.Listed) :
    (make inputs judge).Allowed inputs := by
  obtain ⟨keys, hcollected, hd⟩ := Sweep.collected_took h judge
  have hS := hcollected.tracks (Sweep.start_tracks inputs)
  have hlast := hcollected.last rfl
  obtain ⟨hbd, hbS, hbefore, budget, hbudget, hbq, horder, hover⟩ :=
    Sweep.budget_took h judge hS hlast hd
  obtain ⟨hcd, keys', hcap⟩ := Sweep.capTelemetry_took h hbS hbd
  obtain ⟨cap, hcapsteps, -, hcq⟩ := hcap.steps
  obtain ⟨early, hearly, -, heq⟩ := hcollected.steps
  rw [Sweep.start_steps, List.nil_append] at hearly
  have hsteps : (make inputs judge).steps = early ++ budget ++ cap :=
    hcapsteps.trans (by rw [hbudget, hearly])
  have hbeforeAll : (make inputs judge).totalBefore = (inputs.collected judge).plan.totalBefore :=
    hcap.before.trans hbefore
  constructor
  · exact hcd.1
  · intro st hst
    rw [hsteps] at hst
    rcases List.mem_append.mp hst with hst | hst
    · rcases List.mem_append.mp hst with hst | hst
      · exact (heq st hst).1.1
      · exact (hbq st hst).1
    · exact (hcq st hst).1.1
  · refine ⟨early, budget, cap, hsteps, fun st hst => (heq st hst).1.2,
      fun st hst => (hbq st hst).2, fun st hst => (hcq st hst).1.2, horder, ?_⟩
    rw [hbeforeAll, ← hearly]
    exact hover
  · exact stopOf_eq_fits

/-! ## A Survey in use -/

/-- A Project Store. -/
def sampleStore : PathBuf := ["state", "af", "project", "aa"]

/-- A Survey of it. -/
def sampleSurvey : String :=
  "sha256:0123456789abcdef0123456789abcdef0123456789abcdef0123456789abcdef"

/-- An entry of that many bytes, long unused. -/
def sampleEntry (kind : Kind) (path : PathBuf) (bytes : ℕ) (inUse : Option String) : Entry where
  kind := kind
  path := path
  taskId := none
  bytes := bytes
  lastUseUnixMs := 0
  inUse := inUse
  directory := none
  segmentId := none
  state := none
  identity := none
  tooDeep := false
  unmeasurable := none

/-- A snapshot of the Store, with its Survey listed in use, and a warm key. -/
def sampleInputs : Inputs where
  entries := [sampleEntry .projectStore sampleStore 10 (some "kept"),
    sampleEntry .survey (objectPath sampleStore sampleSurvey) 40 (some "its record is left"),
    sampleEntry .warmKey ["cache", "warm"] 20 none]
  claims := []
  projects := [(sampleStore,
    { held := none
      live := [⟨sampleSurvey, 0, false, none, .refused "its record is left"⟩]
      recovery := []
      left := []
      refused := [] })]
  tasks := []
  registrations := []
  collection := true
  maxBytes := 85
  keepCampaigns := 10
  keepSurveys := 0
  idleMs := 0
  now := hourMs
  telemetry := ⟨.empty, none, false⟩

/-- A judge that takes every Survey it is asked about. -/
def takeAll : Judge := fun _ _ _ identity => .take none identity

theorem sampleInputs_listed : sampleInputs.Listed where
  keys := by decide
  claims := by decide
  taskIds := by decide
  picks := by decide
  stores := by decide
  targets := by decide
  objects := by decide
  apart := by decide
  within := by decide
  records := by decide
  jobs := by decide
  held := by decide

theorem make_allowed_sample : (make sampleInputs takeAll).Allowed sampleInputs :=
  make_allowed sampleInputs takeAll sampleInputs_listed

/-- `keepSurveys` takes an entry in use when the judge lets it: it asks the look and the
judge about a Survey, never its entry. -/
theorem keepSurveys_takes_in_use : ∃ st ∈ (make sampleInputs takeAll).steps,
    ∃ e ∈ sampleInputs.entries, e.key = st.key ∧ e.inUse.isSome ∧
      st.removal.rule = .keepSurveys := by
  decide

end Storage

end Afactory
