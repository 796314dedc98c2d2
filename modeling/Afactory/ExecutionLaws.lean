import Mathlib
import Afactory.ChargeLedgers

/-!
# Task execution never pays twice

Three structures follow every Attempt: its record, the ledger that fences it and the
invocation of its node. `Coherent` says how they agree in every reachable execution;
`Live` says that a pending Attempt is the current running one of its node.

* `Coherent.update`: one Attempt's record and the ledger move together;
* `coherent_kept`: every operation keeps the agreement, whatever the records;
* `paysOnce_kept`: a pending Attempt stays current as long as no record releases an
  Attempt a second time under a pending one of its node;
* `selects_kept`: a selected success stays selected.

The identities of the reached Attempts are assumed distinct, as the ledger's own are.
-/

namespace Afactory

namespace AttemptLedger

variable {sha256 : List UInt8 → List UInt8}

/-- Fencing a node leaves the Attempts of the others. -/
theorem Wf.fence_get_ne {L : AttemptLedger} (hw : L.Wf sha256) (hd : L.IdsDistinct sha256)
    {node : String} {id : AttemptId} {l : Attempt} (hl : L.attempts.get id = some l)
    (hne : l.node ≠ node) : (L.fence sha256 node).attempts.get id = some l := by
  rcases fence_get sha256 node hl with h | ⟨-, ⟨e, he, hid⟩, -⟩
  · exact h
  · -- the fenced identity is of the fenced node
    have heq := (hw.id_eq hl).symm.trans hid
    exact absurd (hd.inj (hw.reach hl) (mem_reached.mpr ⟨e, he, le_refl e⟩) heq).1 hne

/-- The ledger after an operation on one Attempt: the same Attempts, every selection
kept, and at most the one newly selected. -/
structure Follows (id : AttemptId) (L L' : AttemptLedger) : Prop where
  kept : ∀ {i l}, L.attempts.get i = some l → ∃ l', L'.attempts.get i = some l' ∧
    l'.node = l.node ∧ l'.epoch = l.epoch ∧ (l.state = .selected → l'.state = .selected) ∧
    (l'.state = .selected → l.state = .selected ∨ i = id)
  back : ∀ {i}, L.attempts.get i = none → L'.attempts.get i = none
  current : L'.current = L.current
  space : L'.space = L.space

theorem Follows.refl (id : AttemptId) (L : AttemptLedger) : L.Follows id L :=
  ⟨fun h => ⟨_, h, rfl, rfl, fun hs => hs, .inl⟩, fun h => h, rfl, rfl⟩

theorem Follows.trans {id : AttemptId} {L₁ L₂ L₃ : AttemptLedger} (h₁ : L₁.Follows id L₂)
    (h₂ : L₂.Follows id L₃) : L₁.Follows id L₃ := by
  refine ⟨fun hl => ?_, fun hn => h₂.back (h₁.back hn), h₂.current.trans h₁.current,
    h₂.space.trans h₁.space⟩
  obtain ⟨l₂, hl₂, hn₂, he₂, hk₂, hs₂⟩ := h₁.kept hl
  obtain ⟨l₃, hl₃, hn₃, he₃, hk₃, hs₃⟩ := h₂.kept hl₂
  exact ⟨l₃, hl₃, hn₃.trans hn₂, he₃.trans he₂, fun hs => hk₃ (hk₂ hs),
    fun hs => (hs₃ hs).elim hs₂ .inr⟩

theorem Follows.fence (id : AttemptId) (L : AttemptLedger) (node : String) :
    L.Follows id (L.fence sha256 node) := by
  refine ⟨fun {i l} hl => ?_, fence_get_none sha256 node, fence_current L node, fence_space L node⟩
  rcases fence_get sha256 node hl with h | ⟨hrun, -, h⟩
  · exact ⟨l, h, rfl, rfl, fun hs => hs, .inl⟩
  · refine ⟨_, h, rfl, rfl, fun hs => ?_, fun hs => ?_⟩
    · rw [hrun] at hs
      cases hs
    · cases hs

theorem chargeExact_get_none {L L' : AttemptLedger} {id i : AttemptId} {amount : ℕ}
    (h : L.chargeExact id amount = .ok L') (hn : L.attempts.get i = none) :
    L'.attempts.get i = none := by
  rcases chargeExact_eq_ok h with ⟨-, rfl⟩ | ⟨a, ha, -, rfl⟩
  · exact hn
  · rw [setAttempt_get, if_neg]
    · exact hn
    · rintro rfl
      rw [hn] at ha
      cases ha

theorem Follows.chargeExact {L L' : AttemptLedger} {id : AttemptId} {amount : ℕ}
    (h : L.chargeExact id amount = .ok L') : L.Follows id L' := by
  refine ⟨fun {i l} hl => ?_, chargeExact_get_none h, (chargeExact_current h).1,
    (chargeExact_current h).2⟩
  have hget := chargeExact_get h hl
  split_ifs at hget with hid
  · exact ⟨_, hget, rfl, rfl, fun hs => hs, .inl⟩
  · exact ⟨_, hget, rfl, rfl, fun hs => hs, .inl⟩

theorem Follows.admitExact {L L' : AttemptLedger} {r : ExactReceipt}
    (h : L.admitExact r = .ok (.selected, L')) : L.Follows r.attempt L' := by
  obtain ⟨L₁, hc, hs⟩ := admitExact_eq_ok h
  refine ⟨fun {i l} hl => ?_, fun {i} hn => ?_, (admitExact_current h).1, (admitExact_current h).2⟩
  · by_cases hi : i = r.attempt
    · subst hi
      rcases admitExact_get_self h hl with ⟨-, -, -, hget⟩ | ⟨-, hsel, -⟩
      · exact ⟨_, hget, rfl, rfl, fun _ => rfl, fun _ => .inr rfl⟩
      · cases hsel
    · exact ⟨l, admitExact_get_ne h hl hi, rfl, rfl, fun hs => hs, .inl⟩
  · have hn₁ := chargeExact_get_none hc hn
    rcases hr : L₁.attempts.get r.attempt with _ | b
    · rw [selectReceipt_none hr] at hs
      cases hs
    · have hne : i ≠ r.attempt := by
        rintro rfl
        rw [hr] at hn₁
        cases hn₁
      rcases selectReceipt_get hr with ⟨-, -, hsel⟩ | ⟨-, hsel⟩
      · rw [hsel] at hs
        cases hs
        rw [setAttempt_get, if_neg hne]
        exact hn₁
      · rw [hsel] at hs
        cases hs

/-- A fence selects nothing. -/
theorem fence_selected {L : AttemptLedger} {node : String} {i : AttemptId} {l' : Attempt}
    (hl' : (L.fence sha256 node).attempts.get i = some l') (hs : l'.state = .selected) :
    ∃ l, L.attempts.get i = some l ∧ l.state = .selected := by
  cases hl : L.attempts.get i with
  | none =>
    rw [fence_get_none sha256 node hl] at hl'
    cases hl'
  | some l =>
    rcases fence_get sha256 node hl with h | ⟨-, -, h⟩
    · rw [h] at hl'
      cases hl'
      exact ⟨_, rfl, hs⟩
    · rw [h] at hl'
      cases hl'
      cases hs

/-- Neither does a charge. -/
theorem chargeExact_selected {L L' : AttemptLedger} {id i : AttemptId} {amount : ℕ} {l' : Attempt}
    (h : L.chargeExact id amount = .ok L') (hl' : L'.attempts.get i = some l')
    (hs : l'.state = .selected) : ∃ l, L.attempts.get i = some l ∧ l.state = .selected := by
  cases hl : L.attempts.get i with
  | none =>
    rw [chargeExact_get_none h hl] at hl'
    cases hl'
  | some l =>
    rw [chargeExact_get h hl] at hl'
    obtain rfl := Option.some.inj hl'
    refine ⟨l, rfl, ?_⟩
    split_ifs at hs
    · exact hs
    · exact hs

/-- Distinct identities stay distinct while no Attempt is dispatched. -/
theorem IdsDistinct.of_follows {id : AttemptId} {L L' : AttemptLedger}
    (hd : L.IdsDistinct sha256) (h : L.Follows id L') : L'.IdsDistinct sha256 := by
  unfold IdsDistinct reached AttemptLedger.id at hd ⊢
  rwa [h.current, h.space]

/-- The Attempt runs at the current epoch of its node. -/
def Runs (L : AttemptLedger) (id : AttemptId) (node : String) : Prop :=
  ∃ l, L.attempts.get id = some l ∧ l.node = node ∧ l.state = .running ∧
    L.current.get node = some l.epoch

theorem Runs.fence {L : AttemptLedger} {id : AttemptId} {node fenced : String}
    (h : L.Runs id node) (hw : L.Wf sha256) (hd : L.IdsDistinct sha256) (hne : node ≠ fenced) :
    (L.fence sha256 fenced).Runs id node := by
  obtain ⟨l, hl, rfl, hst, hcur⟩ := h
  exact ⟨l, hw.fence_get_ne hd hl hne, rfl, hst, by rw [fence_current, hcur]⟩

theorem Runs.chargeExact {L L' : AttemptLedger} {id charged : AttemptId} {node : String}
    {amount : ℕ} (h : L.Runs id node) (hc : L.chargeExact charged amount = .ok L') :
    L'.Runs id node := by
  obtain ⟨l, hl, hnode, hst, hcur⟩ := h
  refine ⟨_, chargeExact_get hc hl, ?_, ?_, ?_⟩
  · split_ifs
    · exact hnode
    · exact hnode
  · split_ifs
    · exact hst
    · exact hst
  · rw [(chargeExact_current hc).1]
    split_ifs
    · exact hcur
    · exact hcur

theorem Runs.admitExact {L L' : AttemptLedger} {id : AttemptId} {node : String} {r : ExactReceipt}
    {sel : Selection} (h : L.Runs id node) (hreceipt : L.admitExact r = .ok (sel, L'))
    (hne : id ≠ r.attempt) : L'.Runs id node := by
  obtain ⟨l, hl, hnode, hst, hcur⟩ := h
  exact ⟨l, admitExact_get_ne hreceipt hl hne, hnode, hst, by rw [(admitExact_current hreceipt).1, hcur]⟩

theorem Runs.dispatch {L L' : AttemptLedger} {id new : AttemptId} {node dispatched : String}
    (h : L.Runs id node) (hw : L.Wf sha256) (hd : L.IdsDistinct sha256)
    (hd' : L'.IdsDistinct sha256) (hdis : L.dispatch sha256 dispatched = some (new, L'))
    (hne : node ≠ dispatched) : L'.Runs id node := by
  have hfresh := hw.dispatch_fresh hdis hd'
  obtain ⟨l, hl, hnode, hst, hcur⟩ := h.fence hw hd hne
  obtain ⟨epoch, -, -, rfl⟩ := dispatch_eq_some hdis
  have hid : id ≠ new := by
    rintro rfl
    rw [fence_get_none sha256 dispatched hfresh] at hl
    cases hl
  refine ⟨l, by rw [OrdMap.get_insert_ne _ _ hid, hl], hnode, hst, ?_⟩
  rw [OrdMap.get_insert_ne _ _ hne]
  rw [fence_current] at hcur
  exact hcur

theorem runs_dispatch {L L' : AttemptLedger} {new : AttemptId} {node : String}
    (hdis : L.dispatch sha256 node = some (new, L')) : L'.Runs new node := by
  obtain ⟨epoch, -, -, rfl⟩ := dispatch_eq_some hdis
  exact ⟨_, OrdMap.get_insert_self _ _ _, rfl, rfl, OrdMap.get_insert_self _ _ _⟩

/-- Fencing the node of the running Attempt changes no other Attempt. -/
theorem Runs.fence_others {L : AttemptLedger} {id i : AttemptId} {node : String} {l : Attempt}
    (h : L.Runs id node) (hw : L.Wf sha256) (hne : i ≠ id) (hl : L.attempts.get i = some l) :
    (L.fence sha256 node).attempts.get i = some l := by
  obtain ⟨k, hk, rfl, -, hcur⟩ := h
  rcases fence_get sha256 k.node hl with hget | ⟨-, ⟨e, he, hi⟩, -⟩
  · exact hget
  · rw [hcur] at he
    cases he
    exact absurd (hi.trans (hw.id_eq hk).symm) hne

end AttemptLedger

/-- The record publishes the output with the Attempt, of a node or of an owned child. -/
def ExecutionRecord.Publishes (r : ExecutionRecord) (output : String) (id : AttemptId) : Prop :=
  r = .published output (some id) ∨ ∃ childSetId, r = .ownedChildPublished childSetId output id

namespace TaskExecutionProjection

/-! ## How the attempts, the ledger and the invocations agree -/

/-- The ledger's state of an Attempt. -/
def state (E : TaskExecutionProjection) (id : AttemptId) : Option AttemptState :=
  (E.ledger.attempt id).map Attempt.state

theorem state_eq_some {E : TaskExecutionProjection} {id : AttemptId} {st : AttemptState} :
    E.state id = some st ↔ ∃ l, E.ledger.attempts.get id = some l ∧ l.state = st := by
  rw [state, AttemptLedger.attempt, Option.map_eq_some_iff]

/-- Two Attempts of one node under one plan. -/
def SameWork (a b : RecordedAttempt) : Prop :=
  a.reservation.node = b.reservation.node ∧ a.planId = b.planId

/-- How the attempts, the ledger and the invocations of an execution agree. -/
structure Coherent (cas : Cas) (E : TaskExecutionProjection) : Prop where
  /-- the ledger knows every Attempt, by its node -/
  known : ∀ {id a}, E.attempts.get id = some a →
    ∃ l, E.ledger.attempts.get id = some l ∧ l.node = a.reservation.node
  /-- and no other -/
  unknown : ∀ {id}, E.attempts.get id = none → E.ledger.attempts.get id = none
  /-- an Attempt has the node and the plan of its invocation -/
  invoked : ∀ {id a}, E.attempts.get id = some a → ∃ input,
    cas.invocation a.invocationId = .ok input ∧ input.node = a.reservation.node ∧
      input.planId = a.planId
  current : ∀ {node id input}, E.invocations.get node = some (id, input) →
    cas.invocation id = .ok input ∧ input.node = node
  /-- a pending Attempt is of the current invocation of its node -/
  answers : ∀ {id a}, E.attempts.get id = some a → a.pending = true →
    (E.invocations.get a.reservation.node).map Prod.fst = some a.invocationId
  single : ∀ {id a id' b}, E.attempts.get id = some a → a.pending = true →
    E.attempts.get id' = some b → b.pending = true →
    a.reservation.node = b.reservation.node → id = id'
  /-- only a success is selected -/
  succeeded : ∀ {id}, E.state id = some .selected →
    ∃ a output, E.attempts.get id = some a ∧ a.succeededOutput = some output
  /-- a node and a plan have one unretired selection at most -/
  once : ∀ {id a id' b}, E.attempts.get id = some a → E.attempts.get id' = some b →
    id ∉ E.retired → id' ∉ E.retired → SameWork a b → E.state id = some .selected →
    E.state id' = some .selected → id = id'
  /-- and none while an Attempt is pending -/
  unanswered : ∀ {id a id' b}, E.attempts.get id = some a → a.pending = true →
    E.attempts.get id' = some b → id' ∉ E.retired → SameWork a b →
    E.state id' ≠ some .selected

theorem not_pending_of_succeeded {a : RecordedAttempt} {output : String}
    (h : a.succeededOutput = some output) : a.pending = false := by
  cases hs : a.settlement with
  | none => simp [RecordedAttempt.succeededOutput, hs] at h
  | some s => simp [RecordedAttempt.pending, hs]

/-- The agreement reads nothing but the attempts, the ledger, the invocations and the
retired Attempts. -/
theorem Coherent.of_same {cas : Cas} {E E' : TaskExecutionProjection} (h : E.Coherent cas)
    (ha : E'.attempts = E.attempts) (hl : E'.ledger = E.ledger)
    (hi : E'.invocations = E.invocations) (hr : E'.retired = E.retired) : E'.Coherent cas := by
  obtain ⟨graph, budget, invocations, outputs, ledger, attempts, owned, experiments, integrations,
    active, retired⟩ := E'
  cases ha
  cases hl
  cases hi
  cases hr
  exact ⟨h.known, h.unknown, h.invoked, h.current, h.answers, h.single, h.succeeded, h.once,
    h.unanswered⟩

/-- An execution without Attempts and invocations. -/
theorem Coherent.of_empty {cas : Cas} {E : TaskExecutionProjection} {space : String}
    (ha : E.attempts = .empty) (hl : E.ledger = AttemptLedger.scoped space .empty)
    (hi : E.invocations = .empty) : E.Coherent cas := by
  have hnone : ∀ {id a}, E.attempts.get id = some a → False := by
    intro id a h
    rw [ha] at h
    cases h
  have hstate : ∀ {id st}, E.state id = some st → False := by
    intro id st h
    obtain ⟨l, hget, -⟩ := state_eq_some.mp h
    rw [hl] at hget
    cases hget
  refine ⟨fun h => (hnone h).elim, fun _ => ?_,
    fun h => (hnone h).elim, fun h => ?_, fun h => (hnone h).elim, fun h => (hnone h).elim,
    fun h => (hstate h).elim, fun h => (hnone h).elim, fun h => (hnone h).elim⟩
  · rw [hl]
    rfl
  · rw [hi] at h
    cases h

/-- A quiescent execution stays coherent when invocations are dropped and Attempts
retired. -/
theorem Coherent.of_quiescent {cas : Cas} {E E' : TaskExecutionProjection} (h : E.Coherent cas)
    (hq : E.Quiescent) (ha : E'.attempts = E.attempts) (hl : E'.ledger = E.ledger)
    (hi : ∀ {node v}, E'.invocations.get node = some v → E.invocations.get node = some v)
    (hr : E.retired ⊆ E'.retired) : E'.Coherent cas := by
  have hidle : ∀ {id a}, E'.attempts.get id = some a → a.pending = true → False := by
    intro id a hget hp
    rw [ha] at hget
    rw [hq id a hget] at hp
    cases hp
  have hstate : ∀ id, E'.state id = E.state id := fun id => by rw [state, state, hl]
  refine ⟨fun hget => ?_, fun hget => ?_, fun hget => h.invoked (ha ▸ hget),
    fun hget => h.current (hi hget), fun hget hp => (hidle hget hp).elim,
    fun hget hp => (hidle hget hp).elim, fun hs => ?_, fun h₁ h₂ hr₁ hr₂ hsame hs₁ hs₂ => ?_,
    fun hget hp => (hidle hget hp).elim⟩
  · rw [hl]
    exact h.known (ha ▸ hget)
  · rw [hl]
    exact h.unknown (ha ▸ hget)
  · rw [ha]
    exact h.succeeded (hstate _ ▸ hs)
  · exact h.once (ha ▸ h₁) (ha ▸ h₂) (fun hm => hr₁ (hr hm)) (fun hm => hr₂ (hr hm)) hsame
      (hstate _ ▸ hs₁) (hstate _ ▸ hs₂)

/-- The record of an Attempt after a record that names it: its identity is kept, it does
not become pending again and a success is never lost. -/
structure Advances (a a' : RecordedAttempt) : Prop where
  reservation : a'.reservation = a.reservation
  invocationId : a'.invocationId = a.invocationId
  planId : a'.planId = a.planId
  pending : a'.pending = true → a.pending = true
  succeeded : ∀ {output}, a.succeededOutput = some output → a'.succeededOutput = some output

/-- What a record of one Attempt does: its record advances and the ledger follows; if the
ledger newly selects it, it was pending and now has a successful settlement. -/
structure Updates (E : TaskExecutionProjection) (id : AttemptId) (a a' : RecordedAttempt)
    (E' : TaskExecutionProjection) : Prop where
  was : E.attempts.get id = some a
  attempts : E'.attempts = E.attempts.insert id a'
  advances : Advances a a'
  follows : E.ledger.Follows id E'.ledger
  invocations : E'.invocations = E.invocations
  retired : E'.retired = E.retired
  selects : E'.state id = some .selected → E.state id = some .selected ∨
    (a.pending = true ∧ a'.pending = false ∧ ∃ output, a'.succeededOutput = some output)

/-- **One Attempt moves.** -/
theorem Coherent.update {cas : Cas} {E E' : TaskExecutionProjection} (h : E.Coherent cas)
    {id : AttemptId} {a a' : RecordedAttempt} (hupdate : Updates E id a a' E') :
    E'.Coherent cas := by
  obtain ⟨ha, hattempts, hadv, hfollow, hi, hr, hselect⟩ := hupdate
  -- every Attempt after the record is one before it that advanced
  have hback : ∀ {i b}, E'.attempts.get i = some b →
      ∃ b₀, E.attempts.get i = some b₀ ∧ Advances b₀ b ∧ (i ≠ id → b = b₀) ∧
        (i = id → b₀ = a ∧ b = a') := by
    intro i b hb
    rw [hattempts, OrdMap.get_insert] at hb
    split_ifs at hb with hid
    · cases hb
      subst hid
      exact ⟨a, ha, hadv, fun hne => absurd rfl hne, fun _ => ⟨rfl, rfl⟩⟩
    · exact ⟨b, hb, ⟨rfl, rfl, rfl, fun h => h, fun h => h⟩, fun _ => rfl,
        fun heq => absurd heq hid⟩
  have hstate : ∀ {i}, E'.state i = some .selected → E.state i = some .selected ∨
      (i = id ∧ a.pending = true ∧ a'.pending = false ∧
        ∃ output, a'.succeededOutput = some output) := by
    intro i hs
    by_cases hid : i = id
    · subst hid
      exact (hselect hs).imp_right fun hnew => ⟨rfl, hnew⟩
    · obtain ⟨l', hl', hst⟩ := state_eq_some.mp hs
      cases hl : E.ledger.attempts.get i with
      | none =>
        rw [hfollow.back hl] at hl'
        cases hl'
      | some l =>
        obtain ⟨l'', hl'', -, -, -, hsel⟩ := hfollow.kept hl
        rw [hl'] at hl''
        cases hl''
        exact .inl (state_eq_some.mpr ⟨l, hl, (hsel hst).resolve_right hid⟩)
  have hsame : ∀ {b₀ b c₀ c}, Advances b₀ b → Advances c₀ c → SameWork b c → SameWork b₀ c₀ := by
    intro b₀ b c₀ c hb hc hbc
    rw [SameWork, hb.reservation, hc.reservation, hb.planId, hc.planId] at hbc
    exact hbc
  refine ⟨fun {i b} hb => ?_, fun {i} hn => ?_, fun {i b} hb => ?_, fun {n i v} hv => ?_,
    fun {i b} hb hp => ?_, fun {i b j c} hb hbp hc hcp hnode => ?_, fun {i} hs => ?_,
    fun {i b j c} hb hc hri hrj hwork hsi hsj => ?_,
    fun {i b j c} hb hp hc hrj hwork hsj => ?_⟩
  · obtain ⟨b₀, hb₀, hab, -, -⟩ := hback hb
    obtain ⟨l, hl, hn⟩ := h.known hb₀
    obtain ⟨l', hl', hn', -, -, -⟩ := hfollow.kept hl
    exact ⟨l', hl', by rw [hn', hn, hab.reservation]⟩
  · rw [hattempts, OrdMap.get_insert] at hn
    split_ifs at hn with hid
    exact hfollow.back (h.unknown hn)
  · obtain ⟨b₀, hb₀, hab, -, -⟩ := hback hb
    rw [hab.invocationId, hab.reservation, hab.planId]
    exact h.invoked hb₀
  · exact h.current (hi ▸ hv)
  · obtain ⟨b₀, hb₀, hab, -, -⟩ := hback hb
    rw [hi, hab.invocationId, hab.reservation]
    exact h.answers hb₀ (hab.pending hp)
  · obtain ⟨b₀, hb₀, hab, -, -⟩ := hback hb
    obtain ⟨c₀, hc₀, hac, -, -⟩ := hback hc
    exact h.single hb₀ (hab.pending hbp) hc₀ (hac.pending hcp)
      (by rw [← hab.reservation, ← hac.reservation]; exact hnode)
  · rcases hstate hs with hs | ⟨rfl, -, -, output, ho⟩
    · obtain ⟨b₀, output, hb₀, ho⟩ := h.succeeded hs
      by_cases hid : i = id
      · subst hid
        rw [ha] at hb₀
        cases hb₀
        exact ⟨a', output, by rw [hattempts, OrdMap.get_insert_self], hadv.succeeded ho⟩
      · exact ⟨b₀, output, by rw [hattempts, OrdMap.get_insert_ne _ _ hid, hb₀], ho⟩
    · exact ⟨a', output, by rw [hattempts, OrdMap.get_insert_self], ho⟩
  · -- a new selection meets no old one, since its Attempt was pending
    obtain ⟨b₀, hb₀, hab, -, hbid⟩ := hback hb
    obtain ⟨c₀, hc₀, hac, -, hcid⟩ := hback hc
    have hwork₀ := hsame hab hac hwork
    rcases hstate hsi with hsi | ⟨rfl, hp, -, -⟩
    · rcases hstate hsj with hsj | ⟨rfl, hp, -, -⟩
      · exact h.once hb₀ hc₀ (hr ▸ hri) (hr ▸ hrj) hwork₀ hsi hsj
      · obtain ⟨rfl, -⟩ := hcid rfl
        exact absurd hsi (h.unanswered hc₀ hp hb₀ (hr ▸ hri) ⟨hwork₀.1.symm, hwork₀.2.symm⟩)
    · rcases hstate hsj with hsj | ⟨rfl, -, -, -⟩
      · obtain ⟨rfl, -⟩ := hbid rfl
        exact absurd hsj (h.unanswered hb₀ hp hc₀ (hr ▸ hrj) hwork₀)
      · rfl
  · obtain ⟨b₀, hb₀, hab, -, hbid⟩ := hback hb
    obtain ⟨c₀, hc₀, hac, -, hcid⟩ := hback hc
    have hwork₀ := hsame hab hac hwork
    rcases hstate hsj with hsj | ⟨rfl, hpa, hpa', -⟩
    · exact h.unanswered hb₀ (hab.pending hp) hc₀ (hr ▸ hrj) hwork₀ hsj
    · -- the newly selected Attempt was the node's only pending one
      obtain ⟨rfl, -⟩ := hcid rfl
      obtain rfl := h.single hb₀ (hab.pending hp) hc₀ hpa hwork₀.1
      obtain ⟨-, rfl⟩ := hbid rfl
      rw [hpa'] at hp
      cases hp

/-! ## Every record keeps the agreement -/

section Agreement

variable {cas : Cas} {E E' : TaskExecutionProjection}

theorem Coherent.invocation (h : E.Coherent cas) {taskId invocationId : String}
    {planId : Option String} (happly : applyInvocation cas taskId planId invocationId E = .ok E') :
    E'.Coherent cas := by
  obtain ⟨input, hinput, -, hfresh, rfl⟩ := applyInvocation_eq_ok happly
  refine ⟨h.known, h.unknown, h.invoked, fun {n i v} hv => ?_, fun {id a} ha hp => ?_,
    h.single, h.succeeded, h.once, h.unanswered⟩
  · rw [OrdMap.get_insert] at hv
    split_ifs at hv with hn
    · cases hv
      exact ⟨hinput, hn.symm⟩
    · exact h.current hv
  · -- a node with a pending Attempt has its invocation already
    have hans := h.answers ha hp
    have hne : a.reservation.node ≠ input.node := by
      intro heq
      rw [heq, hfresh] at hans
      cases hans
    rw [OrdMap.get_insert_ne _ _ hne]
    exact hans

/-- The state of an Attempt other than the dispatched one changes only by being fenced. -/
theorem dispatch_state {L L' : AttemptLedger} {node : String} {id i : AttemptId}
    (hw : L.Wf cas.sha256) (h : L.dispatch cas.sha256 node = some (id, L'))
    (hd : L'.IdsDistinct cas.sha256) {l : Attempt} (hl : L.attempts.get i = some l) :
    ∃ l', L'.attempts.get i = some l' ∧ l'.node = l.node ∧ l'.epoch = l.epoch ∧
      (l'.state = l.state ∨ l.state = .running ∧ l'.state = .fenced) := by
  rcases hw.dispatch_get h hd hl with hget | ⟨hrun, -, hget⟩
  · exact ⟨l, hget, rfl, rfl, .inl rfl⟩
  · exact ⟨_, hget, rfl, rfl, .inr ⟨hrun, rfl⟩⟩

/-- What a dispatch leaves of the selections. -/
theorem dispatch_selected {L L' : AttemptLedger} {node : String} {id i : AttemptId}
    (hw : L.Wf cas.sha256) (h : L.dispatch cas.sha256 node = some (id, L'))
    (hd : L'.IdsDistinct cas.sha256) :
    (∃ l', L'.attempts.get i = some l' ∧ l'.state = .selected) ↔
      ∃ l, L.attempts.get i = some l ∧ l.state = .selected := by
  have hfresh := hw.dispatch_fresh h hd
  constructor
  · rintro ⟨l', hl', hs⟩
    cases hl : L.attempts.get i with
    | some l =>
      obtain ⟨l'', hl'', -, -, hst⟩ := dispatch_state hw h hd hl
      rw [hl'] at hl''
      cases hl''
      rcases hst with hst | ⟨-, hst⟩
      · exact ⟨l, rfl, hst ▸ hs⟩
      · rw [hst] at hs
        cases hs
    | none =>
      -- only the dispatched Attempt is new, and it runs
      obtain ⟨epoch, -, -, rfl⟩ := AttemptLedger.dispatch_eq_some h
      rw [OrdMap.get_insert] at hl'
      split_ifs at hl' with hi
      · cases hl'
        cases hs
      · rw [AttemptLedger.fence_get_none cas.sha256 node hl] at hl'
        cases hl'
  · rintro ⟨l, hl, hs⟩
    obtain ⟨l', hl', -, -, hst⟩ := dispatch_state hw h hd hl
    rcases hst with hst | ⟨hrun, -⟩
    · exact ⟨l', hl', hst ▸ hs⟩
    · rw [hrun] at hs
      cases hs

/-- Nothing unretired of a node is selected under its current plan, where nothing is
reusable. -/
theorem Coherent.unselected (h : E.Coherent cas) {node : String} {input : TaskInvocation}
    {invocationId : String} (hcur : E.invocations.get node = some (invocationId, input))
    (hnone : E.reusableOutput node = none) {id : AttemptId} {a : RecordedAttempt}
    (ha : E.attempts.get id = some a) (hnode : a.reservation.node = node)
    (hplan : a.planId = input.planId) (hr : id ∉ E.retired) : E.state id ≠ some .selected := by
  intro hs
  obtain ⟨b, output, hb, ho⟩ := h.succeeded hs
  rw [ha] at hb
  cases hb
  have hreusable : E.reusable node id a = true := by
    simp only [reusable, Bool.and_eq_true, decide_eq_true_eq]
    refine ⟨⟨⟨hnode, hr⟩, ?_⟩, hs⟩
    rw [currentPlan, hcur, hplan]
    rfl
  rw [reusableOutput, List.findSome?_eq_none_iff] at hnone
  have := hnone (id, a) (OrdMap.mem_iff_get.mpr ha)
  simp [hreusable, ho] at this

theorem Coherent.reserved (h : E.Coherent cas) {epoch time : ℕ} {r : ReservedRecord}
    (happly : applyReserved cas epoch time r E = .ok E') (hwf : E.ledger.Wf cas.sha256)
    (hd : E'.ledger.IdsDistinct cas.sha256) : E'.Coherent cas := by
  obtain ⟨input, reservation, budget, ledger, hinput, hcur, hnone, hidle, hprep, hdisp, rfl⟩ :=
    applyReserved_eq_ok happly
  have hfresh := hwf.dispatch_fresh hdisp hd
  have hnode : reservation.node = input.node := TaskBudget.prepare_node hprep
  obtain ⟨⟨invocationId, current⟩, hget, hfst⟩ := Option.map_eq_some_iff.mp hcur
  cases hfst
  obtain ⟨hread, -⟩ := h.current hget
  rw [hinput] at hread
  cases hread
  -- no Attempt has the new identity, and none of the node is pending
  have hnew : E.attempts.get r.attemptId = none := by
    cases hold : E.attempts.get r.attemptId with
    | none => rfl
    | some a =>
      obtain ⟨l, hl, -⟩ := h.known hold
      rw [hfresh] at hl
      cases hl
  have hquiet : ∀ {id a}, E.attempts.get id = some a → a.reservation.node = input.node →
      a.pending = false := by
    intro id a ha hn
    cases hp : a.pending with
    | false => rfl
    | true =>
      have hans := h.answers ha hp
      rw [hn, hget] at hans
      rw [hidle id a ha (Option.some.inj hans).symm] at hp
      cases hp
  have hstate : ∀ {i}, (ledger.attempt i).map Attempt.state = some .selected →
      E.state i = some .selected := by
    intro i hs
    rw [AttemptLedger.attempt, Option.map_eq_some_iff] at hs
    exact state_eq_some.mpr ((dispatch_selected hwf hdisp hd).mp hs)
  have hback : ∀ {i b}, (E.attempts.insert r.attemptId
      (reservedAttempt r input reservation epoch)).get i = some b →
      (i = r.attemptId ∧ b = reservedAttempt r input reservation epoch) ∨
        (i ≠ r.attemptId ∧ E.attempts.get i = some b) := by
    intro i b hb
    rw [OrdMap.get_insert] at hb
    split_ifs at hb with hid
    · cases hb
      exact .inl ⟨hid, rfl⟩
    · exact .inr ⟨hid, hb⟩
  have hopen : E.state r.attemptId ≠ some .selected := by
    intro hs
    obtain ⟨l, hl, -⟩ := state_eq_some.mp hs
    rw [hfresh] at hl
    cases hl
  refine ⟨fun {i b} hb => ?_, fun {i} hn => ?_, fun {i b} hb => ?_,
    h.current, fun {i b} hb hp => ?_, fun {i b j c} hb hbp hc hcp hn => ?_, fun {i} hs => ?_,
    fun {i b j c} hb hc hri hrj hwork hsi hsj => ?_,
    fun {i b j c} hb hp hc hrj hwork hsj => ?_⟩
  · rcases hback hb with ⟨rfl, rfl⟩ | ⟨hne, hb⟩
    · obtain ⟨e, -, -, rfl⟩ := AttemptLedger.dispatch_eq_some hdisp
      exact ⟨_, OrdMap.get_insert_self _ _ _, hnode.symm⟩
    · obtain ⟨l, hl, hn⟩ := h.known hb
      obtain ⟨l', hl', hn', -, -⟩ := dispatch_state hwf hdisp hd hl
      exact ⟨l', hl', hn'.trans hn⟩
  · rw [OrdMap.get_insert] at hn
    split_ifs at hn with hid
    obtain ⟨e, -, -, rfl⟩ := AttemptLedger.dispatch_eq_some hdisp
    rw [OrdMap.get_insert_ne _ _ hid]
    exact AttemptLedger.fence_get_none cas.sha256 _ (h.unknown hn)
  · rcases hback hb with ⟨-, rfl⟩ | ⟨-, hb⟩
    · exact ⟨input, hinput, hnode.symm, rfl⟩
    · exact h.invoked hb
  · rcases hback hb with ⟨-, rfl⟩ | ⟨-, hb⟩
    · change (E.invocations.get reservation.node).map Prod.fst = some r.invocationId
      rw [hnode, hget]
      rfl
    · exact h.answers hb hp
  · rcases hback hb with ⟨rfl, rfl⟩ | ⟨-, hb⟩
    · rcases hback hc with ⟨rfl, -⟩ | ⟨-, hc⟩
      · rfl
      · have := hquiet hc (hn.symm.trans hnode)
        rw [hcp] at this
        cases this
    · rcases hback hc with ⟨rfl, rfl⟩ | ⟨-, hc⟩
      · have := hquiet hb (hn.trans hnode)
        rw [hbp] at this
        cases this
      · exact h.single hb hbp hc hcp hn
  · obtain ⟨a, output, ha, ho⟩ := h.succeeded (hstate hs)
    have hne : i ≠ r.attemptId := by
      rintro rfl
      rw [hnew] at ha
      cases ha
    exact ⟨a, output, by rw [OrdMap.get_insert_ne _ _ hne, ha], ho⟩
  · have hsi := hstate hsi
    have hsj := hstate hsj
    rcases hback hb with ⟨rfl, -⟩ | ⟨-, hb⟩
    · exact absurd hsi hopen
    · rcases hback hc with ⟨rfl, -⟩ | ⟨-, hc⟩
      · exact absurd hsj hopen
      · exact h.once hb hc hri hrj hwork hsi hsj
  · have hsj := hstate hsj
    rcases hback hc with ⟨rfl, -⟩ | ⟨-, hc⟩
    · exact absurd hsj hopen
    · rcases hback hb with ⟨rfl, rfl⟩ | ⟨-, hb⟩
      · -- the reservation was refused while a selected output was reusable
        exact h.unselected hget hnone hc (hwork.1.symm.trans hnode) hwork.2.symm hrj hsj
      · exact h.unanswered hb hp hc hrj hwork hsj

/-! ### The records of one Attempt -/

theorem applyContextBound_updates {epoch : ℕ} {planId : Option String} {id contextId : String}
    (happly : applyContextBound epoch planId id contextId E = .ok E') :
    ∃ a a', Updates E id a a' E' ∧ a'.settlement = a.settlement := by
  obtain ⟨a, ha, -, rfl⟩ := applyContextBound_eq_ok happly
  exact ⟨a, _, ⟨ha, rfl, ⟨rfl, rfl, rfl, fun hp => hp, fun ho => ho⟩, .refl _ _, rfl, rfl, .inl⟩, rfl⟩

theorem applyStarted_updates {epoch time : ℕ} {id : AttemptId}
    (happly : applyStarted epoch time id E = .ok E') :
    ∃ a a', Updates E id a a' E' ∧ a'.settlement = a.settlement := by
  obtain ⟨a, budget, ha, -, -, -, -, rfl⟩ := applyStarted_eq_ok happly
  exact ⟨a, _, ⟨ha, rfl, ⟨rfl, rfl, rfl, fun hp => hp, fun ho => ho⟩, .refl _ _, rfl, rfl, .inl⟩, rfl⟩

theorem applyUsageObserved_updates {taskId : String} {id : AttemptId} {tokens : ℕ}
    {raw : List String} (happly : applyUsageObserved cas taskId id tokens raw E = .ok E') :
    ∃ a a', Updates E id a a' E' ∧ a'.settlement = a.settlement := by
  obtain ⟨a, budget, ledger, ha, -, -, -, hl, rfl⟩ := applyUsageObserved_eq_ok happly
  refine ⟨a, _, ⟨ha, rfl, ⟨rfl, rfl, rfl, fun hp => hp, fun ho => ho⟩, .chargeExact hl, rfl, rfl,
    fun hs => .inl ?_⟩, rfl⟩
  obtain ⟨l', hl', hst⟩ := state_eq_some.mp hs
  exact state_eq_some.mpr (AttemptLedger.chargeExact_selected hl hl' hst)

theorem applyReleased_updates {id : AttemptId} (happly : applyReleased cas id E = .ok E') :
    ∃ a a', Updates E id a a' E' ∧ a'.settlement = a.settlement := by
  obtain ⟨a, budget, ha, -, rfl⟩ := applyReleased_eq_ok happly
  refine ⟨a, _, ⟨ha, rfl, ⟨rfl, rfl, rfl, fun hp => ?_, fun ho => ho⟩, .fence _ _ _, rfl, rfl,
    fun hs => .inl ?_⟩, rfl⟩
  · cases (RecordedAttempt.pending_iff.mp hp).1
  · obtain ⟨l', hl', hst⟩ := state_eq_some.mp hs
    exact state_eq_some.mpr (AttemptLedger.fence_selected hl' hst)

theorem settledAttempt_pending (epoch time previousWriterTime : ℕ) (a : RecordedAttempt)
    (s : TaskSettlement) : (settledAttempt epoch time previousWriterTime a s).pending = false := by
  cases hp : (settledAttempt epoch time previousWriterTime a s).pending with
  | false => rfl
  | true => cases (RecordedAttempt.pending_iff.mp hp).2

theorem settledAttempt_succeededOutput (epoch time previousWriterTime : ℕ) (a : RecordedAttempt)
    {s : TaskSettlement} (hs : s.result.isSucceeded = true) :
    ∃ output, (settledAttempt epoch time previousWriterTime a s).succeededOutput = some output := by
  obtain ⟨attemptId, charged, result, raw, usage, unknown⟩ := s
  cases result with
  | succeeded output => exact ⟨output, rfl⟩
  | failed _ _ => cases hs
  | abandoned _ => cases hs

theorem applySettled_updates {taskId : String} {epoch time previousWriterTime : ℕ}
    {s : TaskSettlement}
    (happly : applySettled cas taskId epoch time previousWriterTime s E = .ok E') :
    ∃ a a', Updates E s.attemptId a a' E' := by
  obtain ⟨a, B, budget, L, ledger, ha, hp, -, -, -, hL, hconclude, rfl⟩ :=
    applySettled_eq_ok happly
  have hadv : Advances a (settledAttempt epoch time previousWriterTime a s) := by
    refine ⟨rfl, rfl, rfl, fun _ => hp, fun ho => ?_⟩
    rw [not_pending_of_succeeded ho] at hp
    cases hp
  have hpending := settledAttempt_pending epoch time previousWriterTime a s
  rcases concludeLedger_eq_ok hconclude with ⟨-, rfl⟩ | ⟨hs, -, hreceipt⟩
  · refine ⟨a, _, ha, rfl, hadv, (AttemptLedger.Follows.chargeExact hL).trans (.fence _ _ _), rfl,
      rfl, fun hst => .inl ?_⟩
    obtain ⟨l', hl', hst⟩ := state_eq_some.mp hst
    obtain ⟨l₁, hl₁, hst⟩ := AttemptLedger.fence_selected hl' hst
    exact state_eq_some.mpr (AttemptLedger.chargeExact_selected hL hl₁ hst)
  · exact ⟨a, _, ha, rfl, hadv,
      (AttemptLedger.Follows.chargeExact hL).trans (.admitExact hreceipt), rfl, rfl,
      fun _ => .inr ⟨hp, hpending, settledAttempt_succeededOutput _ _ _ a hs⟩⟩

/-- **Every record keeps the agreement.** -/
theorem Coherent.applyRecord (h : E.Coherent cas) {c : RecordContext} {r : ExecutionRecord}
    (hw : E.ledger.Wf cas.sha256) (hd : E'.ledger.IdsDistinct cas.sha256)
    (happly : E.applyRecord cas c r = .ok E') : E'.Coherent cas := by
  by_cases hr : r.quiet = true
  · have hquiet := applyRecord_quiet hr happly
    exact h.of_same hquiet.attempts hquiet.ledger hquiet.invocations hquiet.retired
  cases r <;> try exact absurd rfl hr
  case invocation invocationId => exact h.invocation happly
  case reserved r => exact h.reserved happly hw hd
  case contextBound attemptId contextId =>
    obtain ⟨a, a', hupdate, -⟩ := applyContextBound_updates happly
    exact h.update hupdate
  case started attemptId =>
    obtain ⟨a, a', hupdate, -⟩ := applyStarted_updates happly
    exact h.update hupdate
  case released attemptId reason =>
    obtain ⟨a, a', hupdate, -⟩ := applyReleased_updates happly
    exact h.update hupdate
  case usageObserved attemptId tokens usageId raw =>
    obtain ⟨a, a', hupdate, -⟩ := applyUsageObserved_updates happly
    exact h.update hupdate
  case settled s =>
    obtain ⟨a, a', hupdate⟩ := applySettled_updates happly
    exact h.update hupdate

theorem coherent_handoffs (cas : Cas) : Handoffs (Coherent cas) where
  integrates _ _ h := h.of_same rfl rfl rfl rfl
  invalidates h hq happly := by
    obtain ⟨_, -, rfl⟩ := invalidatePlan_eq_ok happly
    exact h.of_quiescent hq rfl rfl nofun (Finset.Subset.refl _)
  installs h _ happly := by
    obtain ⟨_, _, _, -, -, rfl⟩ := installGraph_eq_ok happly
    exact h.of_same rfl rfl rfl rfl
  clears h hq := h.of_quiescent hq rfl rfl nofun (Finset.Subset.refl _)
  reopens node h hq := by
    refine h.of_quiescent hq rfl rfl (fun {n v} hv => ?_) Finset.subset_union_left
    exact OrdMap.get_of_get_foldl_erase hv
  allows h _ := h.of_same rfl rfl rfl rfl

/-- **Every operation keeps the agreement**, whatever the records. -/
theorem coherent_kept (cas : Cas)
    (Meets : TaskExecutionProjection → RecordContext → ExecutionRecord → Prop) :
    Kept cas Meets (Distinctly cas (Coherent cas)) :=
  kept_distinctly (coherent_handoffs cas) fun hw hd h _ happly => h.applyRecord hw hd happly

/-! ## A pending Attempt runs -/

/-- Every pending Attempt is the running Attempt of its node's current epoch. -/
structure Live (E : TaskExecutionProjection) : Prop where
  runs : ∀ {id a}, E.attempts.get id = some a → a.pending = true →
    E.ledger.Runs id a.reservation.node

/-- The condition on a record: it does not release an Attempt a second time while another
Attempt of the node is pending. -/
def ReleasesOnce (E : TaskExecutionProjection) (_ : RecordContext) (r : ExecutionRecord) : Prop :=
  ∀ id reason a, r = .released id reason → E.attempts.get id = some a → a.released = true →
    ∀ id' b, E.attempts.get id' = some b → b.pending = true →
      b.reservation.node ≠ a.reservation.node

/-- The Attempt a record releases. -/
def releasedBy : ExecutionRecord → Option AttemptId
  | .released id _ => some id
  | _ => none

instance (E : TaskExecutionProjection) (c : RecordContext) (r : ExecutionRecord) :
    Decidable (ReleasesOnce E c r) :=
  decidable_of_iff (∀ id ∈ releasedBy r, ∀ a ∈ E.attempts.get id, a.released = true →
    ∀ p ∈ E.attempts.entries, p.2.pending = true → p.2.reservation.node ≠ a.reservation.node) <| by
  constructor
  · rintro h id _ a rfl ha hr id' b hb
    exact h id rfl a ha hr (id', b) (OrdMap.mem_iff_get.mpr hb)
  · rintro h id hid a ha hr ⟨id', b⟩ hb
    cases r <;> cases hid
    exact h id _ a rfl ha hr id' b (OrdMap.mem_iff_get.mp hb)

theorem Live.of_same (h : E.Live) (ha : E'.attempts = E.attempts) (hl : E'.ledger = E.ledger) :
    E'.Live := by
  refine ⟨fun hget hp => ?_⟩
  rw [hl]
  exact h.runs (ha ▸ hget) hp

/-- One Attempt's record changes; the Attempts that stay pending still run. -/
theorem Live.update (h : E.Live) {id : AttemptId} {a a' : RecordedAttempt}
    (ha : E.attempts.get id = some a) (hattempts : E'.attempts = E.attempts.insert id a')
    (hres : a'.reservation = a.reservation) (hpending : a'.pending = true → a.pending = true)
    (hruns : ∀ {i b}, E.attempts.get i = some b → b.pending = true →
      (i = id → a'.pending = true) → E.ledger.Runs i b.reservation.node →
      E'.ledger.Runs i b.reservation.node) : E'.Live := by
  refine ⟨fun {i b} hb hp => ?_⟩
  rw [hattempts, OrdMap.get_insert] at hb
  split_ifs at hb with hi
  · cases hb
    subst hi
    rw [hres]
    exact hruns ha (hpending hp) (fun _ => hp) (h.runs ha (hpending hp))
  · exact hruns hb hp (fun heq => absurd heq hi) (h.runs hb hp)

theorem Live.released (h : E.Live) (hlinked : E.Linked) (hcoherent : E.Coherent cas)
    (hw : E.ledger.Wf cas.sha256) (hd : E.ledger.IdsDistinct cas.sha256) {c : RecordContext}
    {id : AttemptId} {reason : String} (hmeet : ReleasesOnce E c (.released id reason))
    (happly : applyReleased cas id E = .ok E') : E'.Live := by
  obtain ⟨a, budget, ha, hrelease, rfl⟩ := applyReleased_eq_ok happly
  refine h.update ha rfl rfl (fun hp => ?_) fun {i b} hb hp hself hruns => ?_
  · cases (RecordedAttempt.pending_iff.mp hp).1
  · refine hruns.fence hw hd fun hnode => ?_
    -- another pending Attempt of the node: the released one was pending, released or settled
    by_cases hpa : a.pending = true
    · obtain rfl := hcoherent.single hb hp ha hpa hnode
      cases (RecordedAttempt.pending_iff.mp (hself rfl)).1
    · by_cases hra : a.released = true
      · exact hmeet id reason a rfl ha hra i b hb hp hnode
      · have hsettled : a.settlement.isSome = true := by
          by_contra hs
          exact hpa (RecordedAttempt.pending_iff.mpr ⟨by simpa using hra, by simpa using hs⟩)
        obtain ⟨held, hunbegun, hmoves⟩ := hlinked.tracked.releases (budgetReply_eq_ok.mp hrelease)
        obtain ⟨held', hid, -, -, hs⟩ := hlinked.held ha
        rw [hmoves.was] at hid
        cases hid
        rw [hlinked.tracked.unbegun hmoves.was hunbegun, hsettled] at hs
        cases hs

theorem Live.settled (h : E.Live) (hcoherent : E.Coherent cas) (hw : E.ledger.Wf cas.sha256)
    (hd : E.ledger.IdsDistinct cas.sha256) {taskId : String} {epoch time previousWriterTime : ℕ}
    {s : TaskSettlement}
    (happly : applySettled cas taskId epoch time previousWriterTime s E = .ok E') : E'.Live := by
  obtain ⟨a, B, budget, L, ledger, ha, hpa, -, -, -, hL, hconclude, rfl⟩ :=
    applySettled_eq_ok happly
  have hsettled := settledAttempt_pending epoch time previousWriterTime a s
  refine h.update ha rfl rfl (fun _ => hpa) fun {i b} hb hp hself hruns => ?_
  have hi : i ≠ s.attemptId := by
    intro heq
    rw [hself heq] at hsettled
    cases hsettled
  have hcharged := hruns.chargeExact hL
  rcases concludeLedger_eq_ok hconclude with ⟨-, rfl⟩ | ⟨-, -, hreceipt⟩
  · refine hcharged.fence (hw.chargeExact hL) ?_ fun hnode => ?_
    · exact hd.of_follows (.chargeExact hL)
    · exact hi (hcoherent.single hb hp ha hpa hnode)
  · exact hcharged.admitExact hreceipt hi

theorem Live.reserved (h : E.Live) (hcoherent : E.Coherent cas) (hw : E.ledger.Wf cas.sha256)
    (hd : E.ledger.IdsDistinct cas.sha256) {epoch time : ℕ} {r : ReservedRecord}
    (happly : applyReserved cas epoch time r E = .ok E')
    (hd' : E'.ledger.IdsDistinct cas.sha256) : E'.Live := by
  obtain ⟨input, reservation, budget, ledger, hinput, hcur, -, hidle, hprep, hdisp, rfl⟩ :=
    applyReserved_eq_ok happly
  have hnode := TaskBudget.prepare_node hprep
  refine ⟨fun {i b} hb hp => ?_⟩
  rw [OrdMap.get_insert] at hb
  split_ifs at hb with hi
  · cases hb
    subst hi
    change ledger.Runs r.attemptId reservation.node
    rw [hnode]
    exact AttemptLedger.runs_dispatch hdisp
  · -- no Attempt of the node was pending
    refine (h.runs hb hp).dispatch hw hd hd' hdisp fun heq => ?_
    have hans := hcoherent.answers hb hp
    rw [heq, hcur] at hans
    rw [hidle i b hb (Option.some.inj hans).symm] at hp
    cases hp

theorem Live.applyRecord (h : E.Live) (hlinked : E.Linked) (hcoherent : E.Coherent cas)
    (hw : E.ledger.Wf cas.sha256) (hd' : E'.ledger.IdsDistinct cas.sha256) {c : RecordContext}
    {r : ExecutionRecord} (hmeet : ReleasesOnce E c r)
    (happly : E.applyRecord cas c r = .ok E') : E'.Live := by
  obtain ⟨ops, hops⟩ := applyRecord_ledger happly
  have hd := hd'.of_run hops
  by_cases hr : r.quiet = true
  · have hquiet := applyRecord_quiet hr happly
    exact h.of_same hquiet.attempts hquiet.ledger
  cases r <;> try exact absurd rfl hr
  case invocation invocationId =>
    obtain ⟨input, -, -, -, rfl⟩ := applyInvocation_eq_ok happly
    exact h.of_same rfl rfl
  case reserved r => exact h.reserved hcoherent hw hd happly hd'
  case contextBound attemptId contextId =>
    obtain ⟨a, ha, -, rfl⟩ := applyContextBound_eq_ok happly
    exact h.update ha rfl rfl (fun hp => hp) fun _ _ _ hruns => hruns
  case started attemptId =>
    obtain ⟨a, budget, ha, -, -, -, -, rfl⟩ := applyStarted_eq_ok happly
    exact h.update ha rfl rfl (fun hp => hp) fun _ _ _ hruns => hruns
  case released attemptId reason => exact h.released hlinked hcoherent hw hd hmeet happly
  case usageObserved attemptId tokens usageId raw =>
    obtain ⟨a, budget, ledger, ha, -, -, -, hl, rfl⟩ := applyUsageObserved_eq_ok happly
    exact h.update ha rfl rfl (fun hp => hp) fun _ _ _ hruns => hruns.chargeExact hl
  case settled s => exact h.settled hcoherent hw hd happly

/-- What holds of every execution whose records release at most once. -/
structure PaysOnce (cas : Cas) (E : TaskExecutionProjection) : Prop where
  linked : E.Linked
  coherent : E.Coherent cas
  live : E.Live

theorem paysOnce_iff : E.PaysOnce cas ↔ E.Linked ∧ E.Coherent cas ∧ E.Live :=
  ⟨fun h => ⟨h.linked, h.coherent, h.live⟩, fun ⟨hl, hc, hr⟩ => ⟨hl, hc, hr⟩⟩

theorem paysOnce_handoffs (cas : Cas) : Handoffs (PaysOnce cas) := by
  have hand := linked_handoffs.and ((coherent_handoffs cas).and (handoffs_of_attempts Live.of_same))
  rwa [← funext fun E => propext (paysOnce_iff (E := E))] at hand

/-- Every operation keeps the three under the condition. -/
theorem paysOnce_kept (cas : Cas) : Kept cas ReleasesOnce (Distinctly cas (PaysOnce cas)) := by
  refine kept_distinctly (paysOnce_handoffs cas) fun hw hd h hmeet happly => ?_
  exact ⟨h.linked.applyRecord hw hd happly, h.coherent.applyRecord hw hd happly,
    h.live.applyRecord h.linked h.coherent hw hd hmeet happly⟩

/-! ## A published output stays selected -/

/-- The Attempt has a successful settlement with this output, and the ledger selected it. -/
def Selects (E : TaskExecutionProjection) (id : AttemptId) (output : String) : Prop :=
  ∃ a, E.attempts.get id = some a ∧ a.succeededOutput = some output ∧
    E.state id = some .selected

theorem Selects.of_same {id : AttemptId} {output : String} (h : E.Selects id output)
    (ha : E'.attempts = E.attempts) (hl : E'.ledger = E.ledger) : E'.Selects id output := by
  obtain ⟨a, hget, ho, hs⟩ := h
  exact ⟨a, by rw [ha, hget], ho, by rw [state, hl]; exact hs⟩

/-- One Attempt moves; a selection is never lost. -/
theorem Selects.update {id i : AttemptId} {output : String} {a a' : RecordedAttempt}
    (h : E.Selects i output) (hupdate : Updates E id a a' E') : E'.Selects i output := by
  obtain ⟨b, hget, ho, hs⟩ := h
  obtain ⟨l, hl, hst⟩ := state_eq_some.mp hs
  obtain ⟨l', hl', -, -, hkeep, -⟩ := hupdate.follows.kept hl
  have hs' : E'.state i = some .selected := state_eq_some.mpr ⟨l', hl', hkeep hst⟩
  by_cases hi : i = id
  · subst hi
    rw [hupdate.was] at hget
    cases hget
    exact ⟨a', by rw [hupdate.attempts, OrdMap.get_insert_self], hupdate.advances.succeeded ho, hs'⟩
  · exact ⟨b, by rw [hupdate.attempts, OrdMap.get_insert_ne _ _ hi, hget], ho, hs'⟩

theorem Selects.reserved {i : AttemptId} {output : String} (h : E.Selects i output)
    (hcoherent : E.Coherent cas) (hw : E.ledger.Wf cas.sha256) {epoch time : ℕ}
    {r : ReservedRecord} (happly : applyReserved cas epoch time r E = .ok E')
    (hd : E'.ledger.IdsDistinct cas.sha256) : E'.Selects i output := by
  obtain ⟨a, hget, ho, hs⟩ := h
  obtain ⟨input, reservation, budget, ledger, -, -, -, -, -, hdisp, rfl⟩ :=
    applyReserved_eq_ok happly
  have hne : i ≠ r.attemptId := by
    rintro rfl
    obtain ⟨l, hl, -⟩ := hcoherent.known hget
    rw [hw.dispatch_fresh hdisp hd] at hl
    cases hl
  exact ⟨a, by rw [OrdMap.get_insert_ne _ _ hne, hget], ho,
    state_eq_some.mpr ((dispatch_selected hw hdisp hd).mpr (state_eq_some.mp hs))⟩

theorem Selects.applyRecord {i : AttemptId} {output : String} (h : E.Selects i output)
    (hcoherent : E.Coherent cas) (hw : E.ledger.Wf cas.sha256)
    (hd : E'.ledger.IdsDistinct cas.sha256) {c : RecordContext} {r : ExecutionRecord}
    (happly : E.applyRecord cas c r = .ok E') : E'.Selects i output := by
  by_cases hr : r.quiet = true
  · have hquiet := applyRecord_quiet hr happly
    exact h.of_same hquiet.attempts hquiet.ledger
  cases r <;> try exact absurd rfl hr
  case invocation invocationId =>
    obtain ⟨input, -, -, -, rfl⟩ := applyInvocation_eq_ok happly
    exact h.of_same rfl rfl
  case reserved r => exact h.reserved hcoherent hw happly hd
  case contextBound attemptId contextId =>
    obtain ⟨a, a', hupdate, -⟩ := applyContextBound_updates happly
    exact h.update hupdate
  case started attemptId =>
    obtain ⟨a, a', hupdate, -⟩ := applyStarted_updates happly
    exact h.update hupdate
  case released attemptId reason =>
    obtain ⟨a, a', hupdate, -⟩ := applyReleased_updates happly
    exact h.update hupdate
  case usageObserved attemptId tokens usageId raw =>
    obtain ⟨a, a', hupdate, -⟩ := applyUsageObserved_updates happly
    exact h.update hupdate
  case settled s =>
    obtain ⟨a, a', hupdate⟩ := applySettled_updates happly
    exact h.update hupdate

/-- Whatever the records, a coherent execution keeps its selections. -/
theorem selects_kept (cas : Cas)
    (Meets : TaskExecutionProjection → RecordContext → ExecutionRecord → Prop) (id : AttemptId)
    (output : String) :
    Kept cas Meets (Distinctly cas fun E => E.Coherent cas ∧ E.Selects id output) := by
  have hselects : Handoffs fun E => E.Selects id output := handoffs_of_attempts Selects.of_same
  refine kept_distinctly ((coherent_handoffs cas).and hselects) fun hw hd h _ happly => ?_
  exact ⟨h.1.applyRecord hw hd happly, h.2.applyRecord h.1 hw hd happly⟩

/-- The Attempt a reusable output belongs to. -/
theorem reusableOutput_eq_some {node output : String} {id : AttemptId}
    (h : E.reusableOutput node = some (output, id)) :
    ∃ a, E.attempts.get id = some a ∧ E.reusable node id a = true ∧
      a.succeededOutput = some output := by
  obtain ⟨⟨i, a⟩, hmem, hfound⟩ := List.exists_of_findSome?_eq_some h
  simp only at hfound
  split_ifs at hfound with hreusable
  obtain ⟨o, ho, heq⟩ := Option.map_eq_some_iff.mp hfound
  cases heq
  exact ⟨a, OrdMap.mem_iff_get.mp hmem, hreusable, ho⟩

theorem state_of_reusable {node : String} {id : AttemptId} {a : RecordedAttempt}
    (h : E.reusable node id a = true) : E.state id = some .selected := by
  simp only [reusable, Bool.and_eq_true, decide_eq_true_eq] at h
  exact h.2

/-- An accepted publication names a selected success. -/
theorem Selects.of_publishes {c : RecordContext} {r : ExecutionRecord} {id : AttemptId}
    {output : String} (hr : r.Publishes output id) (happly : E.applyRecord cas c r = .ok E') :
    E'.Selects id output := by
  rcases hr with rfl | ⟨childSetId, rfl⟩
  · obtain ⟨out, input, -, hpub, rfl⟩ := applyPublished_eq_ok happly
    obtain ⟨a, ha, hpub⟩ := bind_eq_ok.mp hpub
    obtain ⟨selected, hselected, hpub⟩ := bind_eq_ok.mp hpub
    have hpub := requireConflict_eq_ok.mp hpub
    simp only [Bool.and_eq_true, decide_eq_true_eq] at hpub
    obtain ⟨rfl, hstate⟩ := hpub
    exact ⟨a, orConflict_eq_ok.mp ha, orConflict_eq_ok.mp hselected, hstate⟩
  · obtain ⟨node, hreusable, hquiet⟩ := publishOwned_eq_ok happly
    obtain ⟨a, ha, hr, ho⟩ := reusableOutput_eq_some hreusable
    exact Selects.of_same ⟨a, ha, ho, state_of_reusable hr⟩ hquiet.attempts hquiet.ledger

/-! ## Every success is selected -/

/-- Every Attempt that was settled as a success is selected in the ledger. -/
structure Answered (E : TaskExecutionProjection) : Prop where
  selected : ∀ {id a output}, E.attempts.get id = some a → a.succeededOutput = some output →
    E.state id = some .selected

/-- The condition on a record: a success is settled under the epoch that prepared its
Attempt. -/
def SettlesAsPrepared (E : TaskExecutionProjection) (c : RecordContext) (r : ExecutionRecord) :
    Prop :=
  ∀ s a, r = .settled s → s.result.isSucceeded = true → E.attempts.get s.attemptId = some a →
    a.preparedEpoch = c.epoch

/-- The settlement a record holds. -/
def settledBy : ExecutionRecord → Option TaskSettlement
  | .settled s => some s
  | _ => none

instance (E : TaskExecutionProjection) (c : RecordContext) (r : ExecutionRecord) :
    Decidable (SettlesAsPrepared E c r) :=
  decidable_of_iff (∀ s ∈ settledBy r, s.result.isSucceeded = true →
    ∀ a ∈ E.attempts.get s.attemptId, a.preparedEpoch = c.epoch) <| by
  constructor
  · rintro h s a rfl hs ha
    exact h s rfl hs a ha
  · intro h s hr hs a ha
    cases r <;> cases hr
    exact h s a rfl hs ha

theorem Answered.of_same (h : E.Answered) (ha : E'.attempts = E.attempts)
    (hl : E'.ledger = E.ledger) : E'.Answered := by
  refine ⟨fun hget ho => ?_⟩
  rw [state, hl]
  exact h.selected (ha ▸ hget) ho

/-- One Attempt moves; if it is a success now, it must be selected now. -/
theorem Answered.update (h : E.Answered) {id : AttemptId} {a a' : RecordedAttempt}
    (hupdate : Updates E id a a' E')
    (hself : ∀ {output}, a'.succeededOutput = some output → E'.state id = some .selected) :
    E'.Answered := by
  refine ⟨fun {i b output} hb ho => ?_⟩
  rw [hupdate.attempts, OrdMap.get_insert] at hb
  split_ifs at hb with hi
  · cases hb
    subst hi
    exact hself ho
  · obtain ⟨l, hl, hst⟩ := state_eq_some.mp (h.selected hb ho)
    obtain ⟨l', hl', -, -, hkeep, -⟩ := hupdate.follows.kept hl
    exact state_eq_some.mpr ⟨l', hl', hkeep hst⟩

/-- A record that does not settle the Attempt leaves its success as it was. -/
theorem Answered.unsettled (h : E.Answered) {id : AttemptId} {a a' : RecordedAttempt}
    (hupdate : Updates E id a a' E') (hsame : a'.settlement = a.settlement) : E'.Answered := by
  refine h.update hupdate fun {output} ho => ?_
  have ho : a.succeededOutput = some output := by
    rw [RecordedAttempt.succeededOutput, ← hsame]
    exact ho
  obtain ⟨l, hl, hst⟩ := state_eq_some.mp (h.selected hupdate.was ho)
  obtain ⟨l', hl', -, -, hkeep, -⟩ := hupdate.follows.kept hl
  exact state_eq_some.mpr ⟨l', hl', hkeep hst⟩

theorem Answered.settled (h : E.Answered) (hcoherent : E.Coherent cas) {c : RecordContext}
    {s : TaskSettlement} (hmeet : SettlesAsPrepared E c (.settled s))
    (happly : applySettled cas c.taskId c.epoch c.time c.previousWriterTime s E = .ok E') :
    E'.Answered := by
  obtain ⟨a, a', hupdate⟩ := applySettled_updates happly
  refine h.update hupdate fun {output} ho => ?_
  obtain ⟨b, B, budget, L, ledger, hb, -, -, -, -, hL, hconclude, rfl⟩ := applySettled_eq_ok happly
  have hsettled : E.attempts.insert s.attemptId
      (settledAttempt c.epoch c.time c.previousWriterTime b s) =
      E.attempts.insert s.attemptId a' := hupdate.attempts
  have hget := congrArg (OrdMap.get · s.attemptId) hsettled
  simp only [OrdMap.get_insert_self, Option.some.injEq] at hget
  subst hget
  have hs : s.result.isSucceeded = true := by
    obtain ⟨attemptId, charged, result, raw, usage, unknown⟩ := s
    cases result with
    | succeeded _ => rfl
    | failed _ _ => cases ho
    | abandoned _ => cases ho
  -- a success under its own epoch was admitted, and the admission selected it
  rcases concludeLedger_eq_ok hconclude with ⟨hnot, -⟩ | ⟨-, -, hreceipt⟩
  · exact absurd ⟨hs, hmeet s b rfl hs hb⟩ hnot
  · obtain ⟨l, hl, -⟩ := hcoherent.known hb
    rcases AttemptLedger.admitExact_get_self hreceipt (AttemptLedger.chargeExact_get hL hl) with
      ⟨-, -, -, hget⟩ | ⟨-, hsel, -⟩
    · exact state_eq_some.mpr ⟨_, hget, rfl⟩
    · cases hsel

theorem Answered.reserved (h : E.Answered) (hw : E.ledger.Wf cas.sha256) {epoch time : ℕ}
    {r : ReservedRecord} (happly : applyReserved cas epoch time r E = .ok E')
    (hd : E'.ledger.IdsDistinct cas.sha256) : E'.Answered := by
  obtain ⟨input, reservation, budget, ledger, -, -, -, -, -, hdisp, rfl⟩ :=
    applyReserved_eq_ok happly
  refine ⟨fun {i b output} hb ho => ?_⟩
  rw [OrdMap.get_insert] at hb
  split_ifs at hb with hi
  · cases hb
    cases ho
  · exact state_eq_some.mpr ((dispatch_selected hw hdisp hd).mpr
      (state_eq_some.mp (h.selected hb ho)))

theorem Answered.applyRecord (h : E.Answered) (hcoherent : E.Coherent cas)
    (hw : E.ledger.Wf cas.sha256) (hd : E'.ledger.IdsDistinct cas.sha256) {c : RecordContext}
    {r : ExecutionRecord} (hmeet : SettlesAsPrepared E c r)
    (happly : E.applyRecord cas c r = .ok E') : E'.Answered := by
  by_cases hr : r.quiet = true
  · have hquiet := applyRecord_quiet hr happly
    exact h.of_same hquiet.attempts hquiet.ledger
  cases r <;> try exact absurd rfl hr
  case invocation invocationId =>
    obtain ⟨input, -, -, -, rfl⟩ := applyInvocation_eq_ok happly
    exact h.of_same rfl rfl
  case reserved r => exact h.reserved hw happly hd
  case settled s => exact h.settled hcoherent hmeet happly
  case contextBound attemptId contextId =>
    obtain ⟨a, a', hupdate, hsame⟩ := applyContextBound_updates happly
    exact h.unsettled hupdate hsame
  case started attemptId =>
    obtain ⟨a, a', hupdate, hsame⟩ := applyStarted_updates happly
    exact h.unsettled hupdate hsame
  case released attemptId reason =>
    obtain ⟨a, a', hupdate, hsame⟩ := applyReleased_updates happly
    exact h.unsettled hupdate hsame
  case usageObserved attemptId tokens usageId raw =>
    obtain ⟨a, a', hupdate, hsame⟩ := applyUsageObserved_updates happly
    exact h.unsettled hupdate hsame

/-- Every operation keeps the selections of successes under the condition. -/
theorem answered_kept (cas : Cas) :
    Kept cas SettlesAsPrepared (Distinctly cas fun E => E.Coherent cas ∧ E.Answered) := by
  refine kept_distinctly ((coherent_handoffs cas).and (handoffs_of_attempts Answered.of_same))
    fun hw hd h hmeet happly => ?_
  exact ⟨h.1.applyRecord hw hd happly, h.2.applyRecord h.1 hw hd hmeet happly⟩

end Agreement

end TaskExecutionProjection

end Afactory
