import Mathlib
import Afactory.ExecutionRecords

/-!
# The two charge ledgers agree

An Attempt is charged twice: in the Attempt ledger under its own identity, and in the
Task budget under its reservation. `Linked` ties the two together.

* `Recharges`: a call on the Attempt ledger that changes one charge;
* `Linked.update`, `Linked.reserved`: the two ways a record moves a charge;
* `linked_kept`: every operation keeps the ledgers linked;
* `ofLog_charges_agree`: in every accepted log the charges and the totals agree, and no
  charge ever decreases.
-/

namespace Afactory

namespace AttemptLedger

variable {sha256 : List UInt8 → List UInt8} {L L' : AttemptLedger}

/-- One Attempt's charge goes from `c` to `c'`, and the total moves with it. -/
structure Recharges (id : AttemptId) (c c' : ℕ) (L L' : AttemptLedger) : Prop where
  get : ∀ {i l}, L.attempts.get i = some l →
    ∃ l', L'.attempts.get i = some l' ∧ l'.charged = if i = id then c' else l.charged
  total : L'.chargedTotal + c = L.chargedTotal + c'

theorem Recharges.refl {id : AttemptId} {l : Attempt} (hl : L.attempts.get id = some l) :
    L.Recharges id l.charged l.charged L := by
  refine ⟨fun {i k} hk => ⟨k, hk, ?_⟩, rfl⟩
  split_ifs with hi
  · rw [hi, hl] at hk
    cases hk
    rfl
  · rfl

theorem Recharges.trans {id : AttemptId} {c c' c'' : ℕ} {L'' : AttemptLedger}
    (h : L.Recharges id c c' L') (h' : L'.Recharges id c' c'' L'') : L.Recharges id c c'' L'' := by
  refine ⟨fun {i l} hl => ?_, ?_⟩
  · obtain ⟨l', hl', hc'⟩ := h.get hl
    obtain ⟨l'', hl'', hc''⟩ := h'.get hl'
    refine ⟨l'', hl'', ?_⟩
    rw [hc'', hc']
    split_ifs <;> rfl
  · have := h.total
    have := h'.total
    omega

theorem Recharges.fence (sha256 : List UInt8 → List UInt8) {id : AttemptId} {l : Attempt}
    (hl : L.attempts.get id = some l) (node : String) :
    L.Recharges id l.charged l.charged (L.fence sha256 node) := by
  refine ⟨fun {i k} hk => ?_, by rw [fence_chargedTotal]⟩
  obtain ⟨_, hget, hsame⟩ := (Recharges.refl hl).get hk
  rw [hk] at hget
  cases hget
  rcases fence_get sha256 node hk with h | ⟨-, -, h⟩
  · exact ⟨k, h, hsame⟩
  · exact ⟨_, h, hsame⟩

theorem Recharges.chargeExact {id : AttemptId} {l : Attempt} {amount : ℕ}
    (hl : L.attempts.get id = some l) (h : L.chargeExact id amount = .ok L') :
    L.Recharges id l.charged (max amount l.charged) L' := by
  refine ⟨fun {i k} hk => ⟨_, chargeExact_get h hk, ?_⟩, ?_⟩
  · split_ifs with hi
    · rw [hi, hl] at hk
      cases hk
      rfl
    · rfl
  · rcases chargeExact_eq_ok h with ⟨hnone, -⟩ | ⟨a, ha, hle, rfl⟩
    · rw [hl] at hnone
      cases hnone
    · rw [hl] at ha
      cases ha
      change L.chargedTotal - l.charged + max amount l.charged + l.charged = _
      omega

/-- Selecting a receipt that was already charged moves no charge. -/
theorem Recharges.admitExact {id : AttemptId} {l : Attempt} {cost : ℕ} {sel : Selection}
    (hl : L.attempts.get id = some l) (hcost : cost ≤ l.charged)
    (h : L.admitExact ⟨id, cost⟩ = .ok (sel, L')) : L.Recharges id l.charged l.charged L' := by
  obtain ⟨L₁, hc, hs⟩ := admitExact_eq_ok h
  have hfirst := Recharges.chargeExact hl hc
  rw [max_eq_right hcost] at hfirst
  refine hfirst.trans ⟨fun {i k} hk => ?_, ?_⟩
  · obtain ⟨l₁, hl₁, hcharged⟩ := hfirst.get hl
    rw [if_pos rfl] at hcharged
    have hkeep : ∀ st, L' = L₁.setAttempt id { l₁ with state := st } →
        ∃ k', L'.attempts.get i = some k' ∧ k'.charged = if i = id then l.charged else k.charged := by
      rintro st rfl
      by_cases hi : i = id
      · exact ⟨_, by rw [setAttempt_get, if_pos hi], by rw [if_pos hi, ← hcharged]⟩
      · exact ⟨k, by rw [setAttempt_get, if_neg hi, hk], by rw [if_neg hi]⟩
    rcases selectReceipt_get hl₁ with ⟨-, -, hsel⟩ | ⟨-, hsel⟩
    · rw [hsel] at hs
      cases hs
      exact hkeep _ rfl
    · rw [hsel] at hs
      cases hs
      exact hkeep _ rfl
  · obtain ⟨l₁, hl₁, -⟩ := hfirst.get hl
    rcases selectReceipt_get hl₁ with ⟨-, -, hsel⟩ | ⟨-, hsel⟩
    · rw [hsel] at hs
      cases hs
      rfl
    · rw [hsel] at hs
      cases hs
      rfl

/-- A charge never decreases: not by one call, and so not over a history of them. -/
theorem step_charged_le {op : Op} (hw : L.Wf sha256) (hd : L'.IdsDistinct sha256)
    (h : L.step sha256 op = some L') {id : AttemptId} {l : Attempt}
    (hl : L.attempts.get id = some l) :
    ∃ l', L'.attempts.get id = some l' ∧ l.charged ≤ l'.charged := by
  rcases step_cases h with ⟨node, new, -, hdis⟩ | ⟨node, -, rfl⟩ | ⟨i, amount, -, hc⟩ |
    ⟨r, sel, -, hreceipt⟩ | rfl
  · rcases hw.dispatch_get hdis hd hl with hget | ⟨-, -, hget⟩
    · exact ⟨l, hget, le_rfl⟩
    · exact ⟨_, hget, le_rfl⟩
  · rcases fence_get sha256 node hl with hget | ⟨-, -, hget⟩
    · exact ⟨l, hget, le_rfl⟩
    · exact ⟨_, hget, le_rfl⟩
  · refine ⟨_, chargeExact_get hc hl, ?_⟩
    split_ifs
    · exact le_max_right _ _
    · exact le_rfl
  · by_cases hi : id = r.attempt
    · subst hi
      rcases admitExact_get_self hreceipt hl with ⟨-, -, -, hget⟩ | ⟨-, -, hget⟩
      · exact ⟨_, hget, le_max_right _ _⟩
      · exact ⟨_, hget, le_max_right _ _⟩
    · exact ⟨l, admitExact_get_ne hreceipt hl hi, le_rfl⟩
  · exact ⟨l, hl, le_rfl⟩

theorem run_charged_le {ops : List Op} (hw : L.Wf sha256)
    (h : run (AttemptLedger.step sha256) L ops = some L') (hd : L'.IdsDistinct sha256)
    {id : AttemptId} {l : Attempt} (hl : L.attempts.get id = some l) :
    ∃ l', L'.attempts.get id = some l' ∧ l.charged ≤ l'.charged := by
  induction ops generalizing L l with
  | nil =>
    cases h
    exact ⟨l, hl, le_rfl⟩
  | cons op ops ih =>
    obtain ⟨L₁, h₁, h₂⟩ := run_cons_eq_some.mp h
    have hd₁ := hd.of_run h₂
    obtain ⟨l₁, hl₁, hle₁⟩ := step_charged_le hw hd₁ h₁ hl
    obtain ⟨l₂, hl₂, hle₂⟩ := ih (hw.step h₁ hd₁) h₂ hl₁
    exact ⟨l₂, hl₂, hle₁.trans hle₂⟩

end AttemptLedger

namespace TaskExecutionProjection

variable {cas : Cas} {E E' : TaskExecutionProjection}

/-! ## The link between the two ledgers -/

/-- Every Attempt has a reservation of its own, in the same state, and its charge in the
Attempt ledger is the charge of that reservation. -/
structure Linked (E : TaskExecutionProjection) : Prop where
  tracked : E.budget.Tracked
  held : ∀ {id a}, E.attempts.get id = some a →
    ∃ held, E.budget.reservations.get a.reservation.id = some held ∧ held.begun = a.started ∧
      held.released = a.released ∧ held.settled.isSome = a.settlement.isSome
  distinct : ∀ {id a id' b}, E.attempts.get id = some a → E.attempts.get id' = some b →
    a.reservation.id = b.reservation.id → id = id'
  charged : ∀ {id a}, E.attempts.get id = some a →
    ∃ l, E.ledger.attempts.get id = some l ∧ l.charged = E.budget.chargeOf a.reservation.id
  total : E.ledger.chargedTotal = E.budget.tokens.committed .run

/-- Work that did not start, and released work, has no charge. -/
theorem Linked.charge_eq_zero (h : E.Linked) {id : AttemptId} {a : RecordedAttempt}
    (ha : E.attempts.get id = some a) (hfree : a.started = false ∨ a.released = true) :
    E.budget.chargeOf a.reservation.id = 0 := by
  obtain ⟨held, hid, hbegun, hreleased, -⟩ := h.held ha
  refine h.tracked.chargeOf_unbegun hid ?_
  rcases hfree with hs | hr
  · rw [hbegun, hs]
  · exact h.tracked.released hid (hreleased.trans hr)

/-- The same Attempts over a budget that kept every reservation. -/
theorem Linked.keeps (h : E.Linked) (ha : E'.attempts = E.attempts) (hl : E'.ledger = E.ledger)
    (hb : E.budget.Keeps E'.budget) : E'.Linked := by
  refine ⟨hb.tracked, fun hget => ?_, fun h₁ h₂ => h.distinct (ha ▸ h₁) (ha ▸ h₂),
    fun hget => ?_, ?_⟩
  · rw [hb.get]
    exact h.held (ha ▸ hget)
  · rw [hl, hb.charges]
    exact h.charged (ha ▸ hget)
  · rw [hl, hb.committed]
    exact h.total

/-- **One Attempt moves.** Its record and its reservation change alike, and both ledgers
move its charge to the same value. -/
theorem Linked.update (h : E.Linked) {id : AttemptId} {a a' : RecordedAttempt}
    {held held' : Held} {charge : ℕ} (ha : E.attempts.get id = some a)
    (hattempts : E'.attempts = E.attempts.insert id a') (hres : a'.reservation = a.reservation)
    (hmoves : E.budget.Moves a.reservation.id held held' charge E'.budget)
    (hbegun : held'.begun = a'.started) (hreleased : held'.released = a'.released)
    (hsettled : held'.settled.isSome = a'.settlement.isSome)
    (hrecharge : E.ledger.Recharges id (E.budget.chargeOf a.reservation.id) charge E'.ledger) :
    E'.Linked := by
  have hback : ∀ {i b}, E'.attempts.get i = some b →
      (i = id ∧ b = a') ∨ (i ≠ id ∧ E.attempts.get i = some b) := by
    intro i b hb
    rw [hattempts, OrdMap.get_insert] at hb
    split_ifs at hb with hi
    · exact .inl ⟨hi, (Option.some.inj hb).symm⟩
    · exact .inr ⟨hi, hb⟩
  -- another Attempt has another reservation
  have hother : ∀ {i b}, i ≠ id → E.attempts.get i = some b →
      b.reservation.id ≠ a.reservation.id := fun hi hb heq => hi (h.distinct hb ha heq)
  refine ⟨hmoves.tracked, fun {i b} hb => ?_, fun {i b j c} hb hc heq => ?_, fun {i b} hb => ?_, ?_⟩
  · rcases hback hb with ⟨rfl, rfl⟩ | ⟨hi, hb⟩
    · rw [hres, hmoves.get, if_pos rfl]
      exact ⟨held', rfl, hbegun, hreleased, hsettled⟩
    · rw [hmoves.get, if_neg (hother hi hb)]
      exact h.held hb
  · rcases hback hb with ⟨rfl, rfl⟩ | ⟨hi, hb⟩
    · rcases hback hc with ⟨rfl, rfl⟩ | ⟨hj, hc⟩
      · rfl
      · rw [hres] at heq
        exact absurd heq.symm (hother hj hc)
    · rcases hback hc with ⟨rfl, rfl⟩ | ⟨hj, hc⟩
      · rw [hres] at heq
        exact absurd heq (hother hi hb)
      · exact h.distinct hb hc heq
  · rcases hback hb with ⟨rfl, rfl⟩ | ⟨hi, hb⟩
    · obtain ⟨l, hl, -⟩ := h.charged ha
      obtain ⟨l', hl', hcharged⟩ := hrecharge.get hl
      rw [if_pos rfl] at hcharged
      exact ⟨l', hl', by rw [hres, hmoves.charges, if_pos rfl, hcharged]⟩
    · obtain ⟨l, hl, hcharged⟩ := h.charged hb
      obtain ⟨l', hl', hsame⟩ := hrecharge.get hl
      rw [if_neg hi] at hsame
      exact ⟨l', hl', by rw [hmoves.charges, if_neg (hother hi hb), hsame, hcharged]⟩
  · have hledger := hrecharge.total
    have hbudget := hmoves.committed
    have htotal := h.total
    omega

/-! ## Every record keeps the link -/

theorem Linked.contextBound (h : E.Linked) {epoch : ℕ} {planId : Option String}
    {id contextId : String} (happly : applyContextBound epoch planId id contextId E = .ok E') :
    E'.Linked := by
  obtain ⟨a, ha, -, rfl⟩ := applyContextBound_eq_ok happly
  obtain ⟨held, hid, hbegun, hreleased, hsettled⟩ := h.held ha
  obtain ⟨l, hl, hcharged⟩ := h.charged ha
  have hmoves := h.tracked.marks h.tracked.inv hid (TaskBudget.get_eq_of_same hid) rfl rfl rfl rfl
    (fun hb => hb) (h.tracked.released hid)
  have hrecharge := AttemptLedger.Recharges.refl hl
  rw [hcharged] at hrecharge
  exact h.update ha rfl rfl hmoves hbegun hreleased
    hsettled hrecharge

theorem Linked.started (h : E.Linked) {epoch time : ℕ} {id : AttemptId}
    (happly : applyStarted epoch time id E = .ok E') : E'.Linked := by
  obtain ⟨a, budget, ha, -, -, -, hbegin, rfl⟩ := applyStarted_eq_ok happly
  obtain ⟨held, hid, -, hreleased, hsettled⟩ := h.held ha
  obtain ⟨l, hl, hcharged⟩ := h.charged ha
  obtain ⟨held', -, hmoves⟩ := h.tracked.begins (budgetReply_eq_ok.mp hbegin)
  rw [hmoves.was] at hid
  cases hid
  have hrecharge := AttemptLedger.Recharges.refl hl
  rw [hcharged] at hrecharge
  exact h.update ha rfl rfl hmoves rfl hreleased hsettled hrecharge

theorem Linked.released (h : E.Linked) {id : AttemptId}
    (happly : applyReleased cas id E = .ok E') : E'.Linked := by
  obtain ⟨a, budget, ha, hrelease, rfl⟩ := applyReleased_eq_ok happly
  obtain ⟨held, hid, hbegun, -, hsettled⟩ := h.held ha
  obtain ⟨l, hl, hcharged⟩ := h.charged ha
  obtain ⟨held', hunbegun, hmoves⟩ := h.tracked.releases (budgetReply_eq_ok.mp hrelease)
  have hzero := h.tracked.chargeOf_unbegun hmoves.was hunbegun
  rw [hmoves.was] at hid
  cases hid
  -- nothing was charged, before or after
  have hrecharge := AttemptLedger.Recharges.fence cas.sha256 hl a.reservation.node
  rw [hcharged, hzero] at hrecharge
  refine h.update ha rfl rfl hmoves hbegun rfl hsettled ?_
  rw [hzero]
  exact hrecharge

/-- The charge an Attempt is settled or observed with, in terms of its reservation. -/
theorem Linked.cumulativeCharge_eq (h : E.Linked) {id : AttemptId} {a : RecordedAttempt}
    (ha : E.attempts.get id = some a) (tokens : ℕ) :
    E.cumulativeCharge id tokens = max (E.budget.chargeOf a.reservation.id) tokens := by
  obtain ⟨l, hl, hcharged⟩ := h.charged ha
  rw [cumulativeCharge, AttemptLedger.attempt, hl, Option.map_some, Option.getD_some, hcharged]

theorem Linked.usageObserved (h : E.Linked) {taskId : String} {id : AttemptId} {tokens : ℕ}
    {raw : List String} (happly : applyUsageObserved cas taskId id tokens raw E = .ok E') :
    E'.Linked := by
  obtain ⟨a, budget, ledger, ha, -, -, hobserve, hcharge, rfl⟩ := applyUsageObserved_eq_ok happly
  obtain ⟨held, hid, hbegun, hreleased, hsettled⟩ := h.held ha
  obtain ⟨l, hl, hcharged⟩ := h.charged ha
  obtain ⟨held₁, held₂, -, -, hb, hr, hs, hmoves⟩ :=
    h.tracked.observes (budgetReply_eq_ok.mp hobserve)
  rw [hmoves.was] at hid
  cases hid
  have hrecharge := AttemptLedger.Recharges.chargeExact hl hcharge
  rw [h.cumulativeCharge_eq ha, hcharged, max_eq_left (le_max_left _ _)] at hrecharge
  exact h.update ha rfl rfl hmoves (hb.trans hbegun) (hr.trans hreleased) (hs.trans hsettled)
    hrecharge

theorem Linked.settled (h : E.Linked) {taskId : String} {epoch time previousWriterTime : ℕ}
    {s : TaskSettlement}
    (happly : applySettled cas taskId epoch time previousWriterTime s E = .ok E') : E'.Linked := by
  obtain ⟨a, B, budget, L, ledger, ha, hp, hstarted, hsettle, hrecover, hcharge, hconclude, rfl⟩ :=
    applySettled_eq_ok happly
  obtain ⟨hunreleased, hunsettled⟩ := RecordedAttempt.pending_iff.mp hp
  obtain ⟨held, hid, hbegun, hreleased, hsettled⟩ := h.held ha
  obtain ⟨l, hl, hcharged⟩ := h.charged ha
  have hsum := h.cumulativeCharge_eq ha s.chargedTokens
  generalize E.cumulativeCharge s.attemptId s.chargedTokens = charge at *
  -- the budget: settled, and recovered if the work was abandoned
  have hmoves : ∃ held', held'.begun = held.begun ∧ held'.released = held.released ∧
      held'.settled.isSome = true ∧ E.budget.Moves a.reservation.id held held' charge budget := by
    have hsettle := budgetReply_eq_ok.mp hsettle
    rcases recoverAbandoned_eq_ok hrecover with ⟨-, rfl⟩ | ⟨-, hrecover⟩
    · obtain ⟨held₁, -, -, -, hmoves⟩ := h.tracked.settles hsettle
      rw [hmoves.was] at hid
      cases hid
      exact ⟨{ held with settled := some charge }, rfl, rfl, rfl, hmoves⟩
    · have hopen : ∀ {k}, E.budget.reservations.get a.reservation.id = some k →
          k.settled = none := by
        intro k hk
        rw [hid] at hk
        cases hk
        rw [hunsettled] at hsettled
        simpa using hsettled
      obtain ⟨held₁, hmoves⟩ := h.tracked.settleRecovers hopen hsettle
        (budgetReply_eq_ok.mp hrecover)
      rw [hmoves.was] at hid
      cases hid
      exact ⟨{ held with settled := some charge, recovered := true }, rfl, rfl, rfl, hmoves⟩
  obtain ⟨held', hb, hr, hs, hmoves⟩ := hmoves
  -- the ledger: charged, then fenced or selected at that charge
  have hfirst := AttemptLedger.Recharges.chargeExact hl hcharge
  have hle : l.charged ≤ charge := by
    rw [hcharged, hsum]
    exact le_max_left _ _
  rw [max_eq_left hle] at hfirst
  obtain ⟨l₁, hl₁, hcharged₁⟩ := hfirst.get hl
  rw [if_pos rfl] at hcharged₁
  have hsecond : L.Recharges s.attemptId charge charge ledger := by
    rw [← hcharged₁]
    rcases concludeLedger_eq_ok hconclude with ⟨-, rfl⟩ | ⟨-, -, hreceipt⟩
    · exact .fence cas.sha256 hl₁ _
    · exact .admitExact hl₁ hcharged₁.ge hreceipt
  have hrecharge := hfirst.trans hsecond
  rw [hcharged] at hrecharge
  exact h.update ha rfl rfl hmoves (hb.trans hbegun) (hr.trans hreleased) hs hrecharge

theorem Linked.reserved (h : E.Linked) {epoch time : ℕ} {r : ReservedRecord}
    (happly : applyReserved cas epoch time r E = .ok E') (hw : E.ledger.Wf cas.sha256)
    (hd : E'.ledger.IdsDistinct cas.sha256) : E'.Linked := by
  obtain ⟨input, given, budget, ledger, -, -, -, -, hprepare, hdisp, rfl⟩ :=
    applyReserved_eq_ok happly
  obtain ⟨-, hopens⟩ := h.tracked.opens (budgetReply_eq_ok.mp hprepare)
  obtain ⟨tokens, hget⟩ := hopens.get
  have hfresh := hw.dispatch_fresh hdisp hd
  have hback : ∀ {i b}, (E.attempts.insert r.attemptId (reservedAttempt r input given epoch)).get i =
      some b → (i = r.attemptId ∧ b = reservedAttempt r input given epoch) ∨
        E.attempts.get i = some b := by
    intro i b hb
    rw [OrdMap.get_insert] at hb
    split_ifs at hb with hi
    · exact .inl ⟨hi, (Option.some.inj hb).symm⟩
    · exact .inr hb
  -- no Attempt had the new reservation
  have hnew : ∀ {i b}, E.attempts.get i = some b → b.reservation.id ≠ given.id := by
    intro i b hb heq
    obtain ⟨held, hheld, -⟩ := h.held hb
    rw [heq, hopens.fresh] at hheld
    cases hheld
  refine ⟨hopens.tracked, fun {i b} hb => ?_, fun {i b j c} hb hc heq => ?_, fun {i b} hb => ?_, ?_⟩
  · rcases hback hb with ⟨-, rfl⟩ | hb
    · exact ⟨_, by rw [hget]; exact if_pos rfl, rfl, rfl, rfl⟩
    · rw [hget, if_neg (hnew hb)]
      exact h.held hb
  · rcases hback hb with ⟨rfl, rfl⟩ | hb
    · rcases hback hc with ⟨rfl, -⟩ | hc
      · rfl
      · exact absurd heq.symm (hnew hc)
    · rcases hback hc with ⟨rfl, rfl⟩ | hc
      · exact absurd heq (hnew hb)
      · exact h.distinct hb hc heq
  · rcases hback hb with ⟨rfl, rfl⟩ | hb
    · obtain ⟨e, -, -, rfl⟩ := AttemptLedger.dispatch_eq_some hdisp
      refine ⟨_, OrdMap.get_insert_self _ _ _, ?_⟩
      rw [hopens.charges]
      exact (if_pos rfl).symm
    · obtain ⟨l, hl, hcharged⟩ := h.charged hb
      rw [hopens.charges, if_neg (hnew hb), ← hcharged]
      rcases hw.dispatch_get hdisp hd hl with hkept | ⟨-, -, hkept⟩
      · exact ⟨l, hkept, rfl⟩
      · exact ⟨_, hkept, rfl⟩
  · obtain ⟨e, -, -, rfl⟩ := AttemptLedger.dispatch_eq_some hdisp
    change (E.ledger.fence cas.sha256 input.node).chargedTotal = budget.tokens.committed .run
    rw [AttemptLedger.fence_chargedTotal, hopens.committed, h.total]

/-- Every record keeps the ledgers linked. -/
theorem Linked.applyRecord (h : E.Linked) {c : RecordContext} {r : ExecutionRecord}
    (hw : E.ledger.Wf cas.sha256) (hd : E'.ledger.IdsDistinct cas.sha256)
    (happly : E.applyRecord cas c r = .ok E') : E'.Linked := by
  by_cases hr : r.quiet = true
  · have hquiet := applyRecord_quiet hr happly
    exact h.keeps hquiet.attempts hquiet.ledger (hquiet.budget h.tracked)
  cases r <;> try exact absurd rfl hr
  case invocation invocationId =>
    obtain ⟨input, -, -, -, rfl⟩ := applyInvocation_eq_ok happly
    exact ⟨h.tracked, h.held, h.distinct, h.charged, h.total⟩
  case reserved r => exact h.reserved happly hw hd
  case contextBound attemptId contextId => exact h.contextBound happly
  case started attemptId => exact h.started happly
  case released attemptId reason => exact h.released happly
  case usageObserved attemptId tokens usageId raw => exact h.usageObserved happly
  case settled s => exact h.settled happly

theorem linked_handoffs : Handoffs Linked where
  integrates _ _ h := ⟨h.tracked, h.held, h.distinct, h.charged, h.total⟩
  invalidates h _ happly := by
    obtain ⟨_, hb, rfl⟩ := invalidatePlan_eq_ok happly
    exact h.keeps rfl rfl (h.tracked.invalidatePlan_keeps (budgetReply_eq_ok.mp hb))
  installs h _ happly := by
    obtain ⟨_, _, _, hb, hrecovery, rfl⟩ := installGraph_eq_ok happly
    have hfirst := h.tracked.installGraph_keeps (budgetReply_eq_ok.mp hb)
    exact h.keeps rfl rfl (hfirst.trans
      (hfirst.tracked.installRecoveryAllowances_keeps (budgetReply_eq_ok.mp hrecovery)))
  clears h _ := ⟨h.tracked, h.held, h.distinct, h.charged, h.total⟩
  reopens _ h _ := ⟨h.tracked, h.held, h.distinct, h.charged, h.total⟩
  allows h hb := h.keeps rfl rfl (h.tracked.allowRetry_keeps (budgetReply_eq_ok.mp hb))

/-- **Every operation keeps the two ledgers linked**, whatever the records. -/
theorem linked_kept (cas : Cas)
    (Meets : TaskExecutionProjection → RecordContext → ExecutionRecord → Prop) :
    Kept cas Meets (Distinctly cas TaskExecutionProjection.Linked) :=
  kept_distinctly linked_handoffs fun hw hd h _ happly => h.applyRecord hw hd happly

end TaskExecutionProjection

namespace TaskState

open TaskExecutionProjection

variable {cas : Cas}

theorem plannedBudget_unspent {graph : CompiledTask} {limits : TaskLimits} {preparation : Bool}
    {B : TaskBudget} (h : plannedBudget graph limits preparation = .ok B) : B.Unspent := by
  obtain ⟨B₁, hbudget, h⟩ := bind_eq_ok.mp h
  have hfirst := CompiledTask.budget_unspent hbudget
  split_ifs at h
  · exact hfirst.withDeferredVerification h
  · cases h
    exact hfirst

/-- A new execution's ledger is the empty one. -/
theorem newExecution_distinctly {S : TaskState} {E : TaskExecutionProjection}
    {P : TaskExecutionProjection → Prop} (h : S.newExecution cas = .ok E) (hP : P E) :
    Distinctly cas P E := by
  obtain ⟨graph, budget, space, preparation, -, rfl⟩ := newExecution_eq_ok h
  exact ⟨⟨space, [], rfl⟩, fun _ => hP⟩

theorem newExecution_linked {S : TaskState} {E : TaskExecutionProjection}
    (h : S.newExecution cas = .ok E) : E.Linked := by
  obtain ⟨graph, budget, space, preparation, hbudget, rfl⟩ := newExecution_eq_ok h
  have hunspent := plannedBudget_unspent hbudget
  exact ⟨.of_empty hunspent.inv hunspent.empty, nofun, nofun, nofun, hunspent.committed.symm⟩

/-- In every accepted log the two charge ledgers are linked. -/
theorem ofLog_linked {taskId : String} {log : List RunEvent} {S : TaskState}
    (h : ofLog cas taskId log = some S) {E : TaskExecutionProjection} (hE : S.execution = some E) :
    Distinctly cas TaskExecutionProjection.Linked E := by
  have hbegin : ∀ {T : TaskState} {E}, T.newExecution cas = .ok E →
      Distinctly cas TaskExecutionProjection.Linked E :=
    fun hnew => newExecution_distinctly hnew (newExecution_linked hnew)
  have hmeet : LogMeets cas (fun _ _ _ => True) taskId log :=
    logMeets_of_forall (fun _ _ _ => trivial) taskId log
  exact (ofLog_holds hbegin (linked_kept cas fun _ _ _ => True) hmeet h).execution hE

/-- **The charge ledgers agree.** In the execution of every accepted log, every Attempt
is charged in the Attempt ledger exactly what the budget observed for its reservation,
nothing where it did not start or was released, and both totals are equal. From any
earlier state of the log on, no Attempt's charge has decreased. -/
theorem ofLog_charges_agree {taskId : String} {log : List RunEvent} {S : TaskState}
    {E : TaskExecutionProjection} (h : ofLog cas taskId log = some S) (hE : S.execution = some E)
    (hd : E.ledger.IdsDistinct cas.sha256) :
    (∀ id a, E.attempts.get id = some a → ∃ l, E.ledger.attempt id = some l ∧
        l.charged = E.budget.chargeOf a.reservation.id ∧
        (a.started = false ∨ a.released = true → l.charged = 0)) ∧
      E.ledger.chargedTotal = E.budget.tokens.committed .run ∧
      ∀ before after S₀ E₀, log = before ++ after → ofLog cas taskId before = some S₀ →
        S₀.execution = some E₀ → ∀ id l, E₀.ledger.attempt id = some l →
          ∃ l', E.ledger.attempt id = some l' ∧ l.charged ≤ l'.charged := by
  have hlinked := (ofLog_linked h hE).holds hd
  refine ⟨fun id a ha => ?_, hlinked.total, ?_⟩
  · obtain ⟨l, hl, hcharged⟩ := hlinked.charged ha
    exact ⟨l, hl, hcharged, fun hfree => hcharged.trans (hlinked.charge_eq_zero ha hfree)⟩
  · rintro before after S₀ E₀ rfl h₀ hE₀ id l hl
    -- the ledger between the two states is a run of its own machine
    have hrun := (ofLog_append_eq_some h₀).mp h
    obtain ⟨ops, hops⟩ := (ofLog_continues (ledger_kept cas (fun _ _ _ => True) E₀.ledger) h₀ hE₀
      ⟨[], rfl⟩ (stepsMeet_of_forall (fun _ _ _ _ _ _ _ _ _ _ => trivial) S₀ after)
      hrun).execution hE
    exact AttemptLedger.run_charged_le ((ofLog_linked h₀ hE₀).wf (hd.of_run hops)) hops hd hl

/-! ### A Task of one Worker -/

/-- SHA-256 at the messages of the first two Attempts of `root.work` of `task-1`. -/
def workDigest (message : List UInt8) : List UInt8 :=
  let space := "af/task-attempts/1:task:sha256:" ++
    "97330084bc1235114ba3a1228c134a0482f5449189da21259dc3e4f15838009c"
  if message = scopedMessage space "root.work" 0 then
    [0xa1, 0xd1, 0x37, 0x70, 0x86, 0x89, 0x40, 0x48, 0x74, 0xdc, 0x5f, 0x5d, 0x1c, 0x38,
      0x4e, 0x82, 0x03, 0xab, 0x96, 0xb1, 0x65, 0x8d, 0x31, 0x47, 0xc8, 0x1f, 0x2a, 0x4c,
      0x96, 0x44, 0x22, 0xd7]
  else if message = scopedMessage space "root.work" 1 then
    [0x5a, 0x29, 0xed, 0xb3, 0xc6, 0x19, 0xea, 0x10, 0x40, 0xe8, 0xf3, 0x3f, 0x77, 0x8e,
      0xd9, 0x7c, 0x67, 0x80, 0xb5, 0xa1, 0x22, 0xdb, 0x3b, 0x41, 0x72, 0xb9, 0x3f, 0xf4,
      0xcf, 0xd9, 0xda, 0x6c]
  else []

def firstAttempt : AttemptId := "a1d137708689404874dc5f5d1c"

def secondAttempt : AttemptId := "5a29edb3c619ea1040e8f33f77"

def workLimits : TaskLimits := ⟨100, 4, 1000, ⟨0, 0, 0⟩⟩

/-- One paid node without ports. -/
def workGraph : CompiledTask where
  schema := "af.compiled-task/1"
  nodes := .ofList [("root.work", { operator := .primitive (.worker "author") "worker" })]
  order := ["root.work"]
  slots := .ofList [("author", { worker := "author", role := "implement" })]
  allowances := .ofList [("root.work", ⟨10, 50, 3, 0⟩)]

/-- The store of a Task with that graph and the given execution records, by number. -/
def workCas (records : List ExecutionRecord) : Cas where
  sha256 := workDigest
  taskRunId _ := .ok ("task:sha256:" ++
    "97330084bc1235114ba3a1228c134a0482f5449189da21259dc3e4f15838009c")
  revision _ := .ok {
    taskId := "task-1"
    revision := 1
    kind := "implement"
    authority := { policyId := "policy" }
    limits := workLimits }
  executionPlan _ := .ok {
    taskRevisionId := "revision"
    pipelineId := "pipeline"
    compiledGraphId := "graph"
    authority := { policyId := "policy" }
    limits := workLimits }
  compiledTask _ := .ok workGraph
  invocation _ := .ok { planId := "plan", node := "root.work" }
  output _ := .ok { invocationId := "invocation" }
  executionRecord id :=
    match lookup id (records.zipIdx.map fun (record, index) => (toString index, record)) with
    | some record => .ok record
    | none => .error (.artifact id)

/-- An event of its log, written at the time of its sequence. -/
def workEvent (sequence : ℕ) (writer : String) (epoch : ℕ) (change : TaskChange) : RunEvent where
  runId := "task:sha256:97330084bc1235114ba3a1228c134a0482f5449189da21259dc3e4f15838009c"
  eventId := "event-" ++ toString sequence
  sequence := sequence
  occurredAt := "1970-01-01T00:00:00Z"
  artifactRefs := []
  payload := .transition ⟨writer, epoch, sequence, change⟩

/-- The Task is opened and planned, and its first writer records everything. -/
def workLog (records : List ExecutionRecord) : List RunEvent :=
  [workEvent 0 "first" 1 (.opened "revision" 100),
    workEvent 1 "first" 1 (.planProposed "plan"),
    workEvent 2 "first" 1 (.planAdmitted "plan")] ++
  records.zipIdx.map fun (_, index) =>
    workEvent (3 + index) "first" 1 (.executionRecorded (toString index))

/-- The first Attempt of the node from its reservation to its start. -/
def startRecords : List ExecutionRecord := [
  .invocation "invocation",
  .reserved ⟨"invocation", firstAttempt, "reservation:1", 10, 54, []⟩,
  .contextBound firstAttempt "context",
  .started firstAttempt]

/-- Usage before the settlement, the settlement, and more usage after it. -/
def lateUsage : List ExecutionRecord := startRecords ++ [
  .usageObserved firstAttempt 4 "usage" [],
  .settled { attemptId := firstAttempt, chargedTokens := 7, result := .succeeded "output" },
  .usageObserved firstAttempt 12 "usage" [],
  .published "output" (some firstAttempt)]

theorem ofLog_charges_agree_late_usage :
    ∃ S E l, ofLog (workCas lateUsage) "task-1" (workLog lateUsage) = some S ∧
      S.execution = some E ∧ E.ledger.attempt firstAttempt = some l ∧
      l.charged = E.budget.chargeOf "reservation:1" ∧ l.charged = 12 ∧
      E.ledger.chargedTotal = E.budget.tokens.committed .run := by
  have hfacts : ((ofLog (workCas lateUsage) "task-1" (workLog lateUsage)).bind
      TaskState.execution).map (fun E => (decide (E.ledger.IdsDistinct workDigest),
        (E.attempts.get firstAttempt).map fun a => a.reservation.id,
        (E.ledger.attempt firstAttempt).map Attempt.charged)) =
      some (true, some "reservation:1", some 12) := by decide +kernel
  obtain ⟨E, hexec, hfacts⟩ := Option.map_eq_some_iff.mp hfacts
  obtain ⟨S, hS, hE⟩ := Option.bind_eq_some_iff.mp hexec
  obtain ⟨hids, hrest⟩ := Prod.mk.inj hfacts
  obtain ⟨hid, hcharge⟩ := Prod.mk.inj hrest
  obtain ⟨a, ha, hres⟩ := Option.map_eq_some_iff.mp hid
  obtain ⟨hcharges, htotal, -⟩ := ofLog_charges_agree hS hE (of_decide_eq_true hids)
  obtain ⟨l, hl, hcharged, -⟩ := hcharges firstAttempt a ha
  rw [hl] at hcharge
  exact ⟨S, E, l, hS, hE, hl, hres ▸ hcharged, Option.some.inj hcharge, htotal⟩

end TaskState

end Afactory
