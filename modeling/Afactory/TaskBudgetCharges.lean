import Mathlib
import Afactory.CompiledTask
import Afactory.TaskBudgetCounters

/-!
# What a Task budget has observed

The budget keeps a charge in two places: the token ledger observes a running
reservation, and a settled one carries its charge in its own record. `chargeOf`
reads the charge wherever it is; `Tracked` says that every reservation is in exactly
one of the two places.

* `Moves`: an operation on one reservation, with the charge it leaves;
* `Opens`: a new reservation;
* `Keeps`: an operation on the graph alone.

Each accepted operation of the Store is one of the three, and the Task's committed
tokens move by what the charge does.
-/

namespace Afactory

namespace BudgetLedger

theorem Observes.committed_run {L L' : BudgetLedger} {held : Outstanding} {actual : ℕ}
    (h : Observes L held actual L') (hrun : .run ∈ held.reservation.scopes) :
    L'.committed .run + held.observed = L.committed .run + max held.observed actual := by
  rw [committed, h.accounts.account, if_pos hrun]
  change (L.account .run).committed + (actual - held.observed) + held.observed =
    (L.account .run).committed + max held.observed actual
  omega

theorem Closes.committed {L L' : BudgetLedger} {id : String} {held : Outstanding}
    (h : Closes L id held L') (s : BudgetScope) : L'.committed s = L.committed s := by
  rw [BudgetLedger.committed, h.accounts.account, BudgetLedger.committed]
  split_ifs <;> rfl

theorem Reserves.committed {L L' : BudgetLedger} {r : Reservation} (h : Reserves L r L')
    (s : BudgetScope) : L'.committed s = L.committed s := by
  rw [BudgetLedger.committed, h.accounts.account, BudgetLedger.committed]
  split_ifs <;> rfl

end BudgetLedger

namespace TaskBudget

variable {B B' : TaskBudget}

/-- The highest charge observed for a reservation. -/
def chargeOf (B : TaskBudget) (id : String) : ℕ :=
  match B.reservations.get id with
  | none => 0
  | some held => held.settled.getD (B.tokens.observedChargeExact held.tokens)

/-- Every reservation sits under its own identity in the Task's scope. While it is
pending the token ledger holds it; once it is not, the ledger has let it go. -/
structure Tracked (B : TaskBudget) : Prop where
  inv : B.Inv
  own : ∀ {id held}, B.reservations.get id = some held → held.tokens.id = id
  run : ∀ {id held}, B.reservations.get id = some held → .run ∈ held.tokens.scopes
  live : ∀ {id held}, B.reservations.get id = some held → held.pending = true →
    ∃ out, B.tokens.outstanding.get id = some out ∧ out.reservation = held.tokens ∧
      (held.begun = false → out.observed = 0)
  ended : ∀ {id held}, B.reservations.get id = some held → held.pending = false →
    B.tokens.outstanding.get id = none
  unbegun : ∀ {id held}, B.reservations.get id = some held → held.begun = false →
    held.settled = none
  released : ∀ {id held}, B.reservations.get id = some held → held.released = true →
    held.begun = false

theorem chargeOf_eq {id : String} {held : Held} (h : B.reservations.get id = some held) :
    B.chargeOf id = held.settled.getD (B.tokens.observedChargeExact held.tokens) := by
  simp only [chargeOf, h]

/-- The charge of a pending reservation is what the token ledger observed. -/
theorem Tracked.chargeOf_pending (h : B.Tracked) {id : String} {held : Held} {out : Outstanding}
    (hid : B.reservations.get id = some held) (hp : held.pending = true)
    (hout : B.tokens.outstanding.get id = some out) : B.chargeOf id = out.observed := by
  have hsettled : held.settled = none := by
    cases hs : held.settled with
    | none => rfl
    | some c => simp [Held.pending, hs] at hp
  rw [chargeOf_eq hid, hsettled, Option.getD_none, BudgetLedger.observedChargeExact, h.own hid,
    hout]
  rfl

/-- What did not start was not charged. -/
theorem Tracked.chargeOf_unbegun (h : B.Tracked) {id : String} {held : Held}
    (hid : B.reservations.get id = some held) (hbegun : held.begun = false) :
    B.chargeOf id = 0 := by
  cases hp : held.pending with
  | true =>
    obtain ⟨out, hout, -, hzero⟩ := h.live hid hp
    rw [h.chargeOf_pending hid hp hout, hzero hbegun]
  | false =>
    rw [chargeOf_eq hid, h.unbegun hid hbegun, Option.getD_none,
      BudgetLedger.observedChargeExact, h.own hid, h.ended hid hp]
    rfl

/-- What an operation on one reservation does: the reservation's record changes, its
charge becomes `charge`, and the Task's committed tokens move with it. -/
structure Moves (B : TaskBudget) (id : String) (held held' : Held) (charge : ℕ)
    (B' : TaskBudget) : Prop where
  tracked : B'.Tracked
  was : B.reservations.get id = some held
  get : ∀ i, B'.reservations.get i = if i = id then some held' else B.reservations.get i
  charges : ∀ i, B'.chargeOf i = if i = id then charge else B.chargeOf i
  committed : B'.tokens.committed .run + B.chargeOf id = B.tokens.committed .run + charge

/-- What an operation on the graph does to the reservations: nothing. -/
structure Keeps (B B' : TaskBudget) : Prop where
  tracked : B'.Tracked
  get : B'.reservations = B.reservations
  charges : ∀ i, B'.chargeOf i = B.chargeOf i
  committed : B'.tokens.committed .run = B.tokens.committed .run

theorem Keeps.trans {B₁ B₂ B₃ : TaskBudget} (h₁ : B₁.Keeps B₂) (h₂ : B₂.Keeps B₃) :
    B₁.Keeps B₃ :=
  ⟨h₂.tracked, h₂.get.trans h₁.get, fun i => (h₂.charges i).trans (h₁.charges i),
    h₂.committed.trans h₁.committed⟩

/-- Two operations on the same reservation. -/
theorem Moves.trans {B₁ B₂ B₃ : TaskBudget} {id : String} {held₁ held₂ held₂' held₃ : Held}
    {c c' : ℕ} (h₁ : B₁.Moves id held₁ held₂ c B₂) (h₂ : B₂.Moves id held₂' held₃ c' B₃) :
    B₁.Moves id held₁ held₃ c' B₃ := by
  refine ⟨h₂.tracked, h₁.was, fun i => ?_, fun i => ?_, ?_⟩
  · rw [h₂.get, h₁.get]
    split_ifs <;> rfl
  · rw [h₂.charges, h₁.charges]
    split_ifs <;> rfl
  · have hfirst := h₁.committed
    have hsecond := h₂.committed
    rw [h₁.charges, if_pos rfl] at hsecond
    omega

/-- A budget with the same reservations, outstanding alike. -/
theorem Tracked.keeps (h : B.Tracked) (hinv : B'.Inv) (hres : B'.reservations = B.reservations)
    (hout : B'.tokens.outstanding = B.tokens.outstanding)
    (hrun : B'.tokens.committed .run = B.tokens.committed .run) : B.Keeps B' where
  tracked := by
    refine ⟨hinv, fun hid => h.own (hres ▸ hid), fun hid => h.run (hres ▸ hid), fun hid hp => ?_,
      fun hid hp => ?_, fun hid => h.unbegun (hres ▸ hid), fun hid => h.released (hres ▸ hid)⟩
    · rw [hout]
      exact h.live (hres ▸ hid) hp
    · rw [hout]
      exact h.ended (hres ▸ hid) hp
  get := hres
  charges i := by
    simp only [chargeOf, hres, BudgetLedger.observedChargeExact, hout]
  committed := hrun

/-- One reservation's record changes while the outstanding ones of the others stay. -/
theorem Tracked.moves (h : B.Tracked) {id : String} {held held' : Held} (hinv : B'.Inv)
    (hid : B.reservations.get id = some held)
    (hget : ∀ i, B'.reservations.get i = if i = id then some held' else B.reservations.get i)
    (htokens : held'.tokens = held.tokens)
    (hother : ∀ i, i ≠ id → B'.tokens.outstanding.get i = B.tokens.outstanding.get i)
    (hlive : held'.pending = true → ∃ out, B'.tokens.outstanding.get id = some out ∧
      out.reservation = held.tokens ∧ (held'.begun = false → out.observed = 0))
    (hended : held'.pending = false → B'.tokens.outstanding.get id = none)
    (hunbegun : held'.begun = false → held'.settled = none)
    (hreleased : held'.released = true → held'.begun = false)
    (hcommitted : B'.tokens.committed .run + B.chargeOf id =
      B.tokens.committed .run + B'.chargeOf id) :
    B.Moves id held held' (B'.chargeOf id) B' where
  tracked := by
    -- every field holds of the changed reservation by assumption, of the others as before
    have hcases : ∀ {i k}, B'.reservations.get i = some k →
        (i = id ∧ k = held') ∨ (i ≠ id ∧ B.reservations.get i = some k) := by
      intro i k hk
      rw [hget] at hk
      split_ifs at hk with hi
      · exact .inl ⟨hi, (Option.some.inj hk).symm⟩
      · exact .inr ⟨hi, hk⟩
    refine ⟨hinv, fun {i k} hk => ?_, fun {i k} hk => ?_, fun {i k} hk hp => ?_,
      fun {i k} hk hp => ?_, fun {i k} hk hb => ?_, fun {i k} hk hr => ?_⟩
    · rcases hcases hk with ⟨rfl, rfl⟩ | ⟨-, hk⟩
      · rw [htokens]
        exact h.own hid
      · exact h.own hk
    · rcases hcases hk with ⟨rfl, rfl⟩ | ⟨-, hk⟩
      · rw [htokens]
        exact h.run hid
      · exact h.run hk
    · rcases hcases hk with ⟨rfl, rfl⟩ | ⟨hi, hk⟩
      · rw [htokens]
        exact hlive hp
      · rw [hother i hi]
        exact h.live hk hp
    · rcases hcases hk with ⟨rfl, rfl⟩ | ⟨hi, hk⟩
      · exact hended hp
      · rw [hother i hi]
        exact h.ended hk hp
    · rcases hcases hk with ⟨rfl, rfl⟩ | ⟨-, hk⟩
      · exact hunbegun hb
      · exact h.unbegun hk hb
    · rcases hcases hk with ⟨rfl, rfl⟩ | ⟨-, hk⟩
      · exact hreleased hr
      · exact h.released hk hr
  was := hid
  get := hget
  charges i := by
    split_ifs with hi
    · rw [hi]
    · simp only [chargeOf, hget, if_neg hi]
      split
      · rfl
      case h_2 k hk =>
        rw [BudgetLedger.observedChargeExact, BudgetLedger.observedChargeExact, h.own hk,
          hother i hi]
  committed := hcommitted

/-- The invariant of the counters after an operation of the Store. -/
theorem Inv.of_step (h : B.Inv) (op : Op) (hop : B.step op = some B') : B'.Inv := by
  obtain ⟨B₁, hB₁, hinv, -⟩ := h.step op
  rw [hop] at hB₁
  cases hB₁
  exact hinv

/-! ## The operations on one reservation -/

/-- Rewriting a record with itself. -/
theorem get_eq_of_same {m : OrdMap String Held} {id : String} {held : Held}
    (h : m.get id = some held) (i : String) : m.get i = if i = id then some held else m.get i := by
  split_ifs with hi
  · rw [hi, h]
  · rfl

/-- Only the record changes: the token ledger stays, and so does every charge. -/
theorem Tracked.marks (h : B.Tracked) {id : String} {held held' : Held} (hinv : B'.Inv)
    (hid : B.reservations.get id = some held)
    (hget : ∀ i, B'.reservations.get i = if i = id then some held' else B.reservations.get i)
    (htokens : B'.tokens = B.tokens) (hkeep : held'.tokens = held.tokens)
    (hsettled : held'.settled = held.settled) (hreleased : held'.released = held.released)
    (hbegun : held'.begun = false → held.begun = false)
    (hfalse : held'.released = true → held'.begun = false) :
    B.Moves id held held' (B.chargeOf id) B' := by
  have hcharge : B'.chargeOf id = B.chargeOf id := by
    have hid' : B'.reservations.get id = some held' := by rw [hget, if_pos rfl]
    rw [chargeOf_eq hid', chargeOf_eq hid, htokens, hkeep, hsettled]
  have hpending : held'.pending = held.pending := by
    rw [Held.pending, Held.pending, hsettled, hreleased]
  rw [← hcharge]
  refine h.moves hinv hid hget hkeep (fun i _ => by rw [htokens]) (fun hp => ?_) (fun hp => ?_)
    (fun hb => ?_) hfalse (by rw [htokens, hcharge])
  · obtain ⟨out, hout, hres, hzero⟩ := h.live hid (hpending ▸ hp)
    rw [htokens]
    exact ⟨out, hout, hres, fun hb => hzero (hbegun hb)⟩
  · rw [htokens]
    exact h.ended hid (hpending ▸ hp)
  · rw [hsettled]
    exact h.unbegun hid (hbegun hb)

theorem Tracked.begins (h : B.Tracked) {id : String} {now : ℕ}
    (hok : B.begin id now = some (.ok (), B')) :
    ∃ held, held.released = false ∧
      B.Moves id held { held with begun := true } (B.chargeOf id) B' := by
  have hinv : B'.Inv := h.inv.of_step (.begin id now) (by rw [step, hok]; rfl)
  rw [begin] at hok
  cases hid : B.reservations.get id with
  | none =>
    simp only [hid] at hok
    cases hok
  | some held =>
    simp only [hid] at hok
    split at hok
    case h_1 => cases hok
    case h_2 hrefusal =>
      have hp := pending_of_beginRefusal hrefusal
      have hreleased : held.released = false := by
        rw [Held.pending, Bool.and_eq_true, Bool.not_eq_true'] at hp
        exact hp.1
      refine ⟨held, hreleased, ?_⟩
      split_ifs at hok with hbegun
      · -- a second start of a running reservation
        cases hok
        have hsame : ({ held with begun := true } : Held) = held := by rw [← hbegun]
        rw [hsame]
        exact h.marks hinv hid (get_eq_of_same hid) rfl rfl rfl rfl (fun hb => hb)
          (h.released hid)
      · obtain ⟨account, -, heq⟩ := Option.map_eq_some_iff.mp hok
        cases heq
        refine h.marks hinv hid (fun i => OrdMap.get_insert _ _ _ _) rfl rfl rfl rfl (by simp) ?_
        intro htrue
        rw [hreleased] at htrue
        cases htrue

theorem Tracked.releases (h : B.Tracked) {id : String} (hok : B.release id = some (.ok (), B')) :
    ∃ held, held.begun = false ∧ B.Moves id held { held with released := true } 0 B' := by
  have hinv : B'.Inv := h.inv.of_step (.release id) (by rw [step, hok]; rfl)
  rw [release] at hok
  cases hid : B.reservations.get id with
  | none =>
    simp only [hid] at hok
    cases hok
  | some held =>
    simp only [hid] at hok
    split_ifs at hok with hstarted hreleased
    · cases hok
    · -- a second release
      cases hok
      simp only [Bool.or_eq_true, not_or, Bool.not_eq_true] at hstarted
      have hsame : ({ held with released := true } : Held) = held := by rw [← hreleased]
      refine ⟨held, hstarted.1, ?_⟩
      rw [← h.chargeOf_unbegun hid hstarted.1, hsame]
      exact h.marks hinv hid (get_eq_of_same hid) rfl rfl rfl rfl (fun hb => hb) (h.released hid)
    · obtain ⟨tokens, htokens, hok⟩ := Option.bind_eq_some_iff.mp hok
      obtain ⟨account, -, heq⟩ := Option.map_eq_some_iff.mp hok
      cases heq
      simp only [Bool.or_eq_true, not_or, Bool.not_eq_true] at hstarted hreleased
      have hp : held.pending = true := by
        rw [Held.pending, hreleased]
        simpa using hstarted.2
      obtain ⟨out, hout, hres, hzero⟩ := h.live hid hp
      have hown := h.own hid
      -- the ledger returns what the reservation held
      rcases h.inv.sound.release_cases held.tokens with ⟨hnone, -⟩ | ⟨out', L, hout', hc, hrel⟩
      · rw [hown, hout] at hnone
        cases hnone
      · rw [htokens] at hrel
        cases hrel
        have hget : ∀ i, (B.reservations.insert id { held with released := true }).get i =
            if i = id then some { held with released := true } else B.reservations.get i :=
          fun i => OrdMap.get_insert _ _ _ _
        have hgone : tokens.outstanding.get id = none := by
          rw [hc.outstanding, hown, OrdMap.get_erase, if_pos rfl]
        have hsettled := h.unbegun hid hstarted.1
        refine ⟨held, hstarted.1, ?_⟩
        have hcharge : TaskBudget.chargeOf { B with
            tokens := tokens
            nodes := B.nodes.insert held.given.node account
            reservations := B.reservations.insert id { held with released := true } } id = 0 := by
          simp only [chargeOf, OrdMap.get_insert_self]
          rw [hsettled, Option.getD_none, BudgetLedger.observedChargeExact, hown, hgone]
          rfl
        rw [← hcharge]
        refine h.moves hinv hid hget rfl (fun i hi => ?_) (fun hp => ?_) (fun _ => hgone)
          (fun _ => hsettled) (fun _ => hstarted.1) ?_
        · rw [hc.outstanding, hown, OrdMap.get_erase, if_neg hi]
        · simp [Held.pending] at hp
        · rw [hcharge, h.chargeOf_unbegun hid hstarted.1]
          exact congrArg (· + 0) (hc.committed .run)

/-- A settlement charges exactly `actual`, which is no less than was observed. -/
theorem Tracked.settles (h : B.Tracked) {id : String} {actual : ℕ}
    (hok : B.settleExact id actual = some (.ok (), B')) :
    ∃ held, held.begun = true ∧ held.released = false ∧ B.chargeOf id ≤ actual ∧
      B.Moves id held { held with settled := some actual } actual B' := by
  have hinv : B'.Inv := h.inv.of_step (.settleExact id actual) (by rw [step, hok]; rfl)
  rw [settleExact] at hok
  cases hid : B.reservations.get id with
  | none =>
    simp only [hid] at hok
    cases hok
  | some held =>
    simp only [hid] at hok
    by_cases hstarted : (!held.begun || held.released) = true
    · rw [if_pos hstarted] at hok
      cases hok
    · rw [if_neg hstarted] at hok
      simp only [Bool.or_eq_true, Bool.not_eq_true', not_or, Bool.not_eq_true,
        Bool.not_eq_false] at hstarted
      obtain ⟨hbegun, hreleased⟩ := hstarted
      refine ⟨held, hbegun, hreleased, ?_⟩
      cases hsettled : held.settled with
      | some old =>
        -- the same settlement again
        simp only [hsettled] at hok
        split_ifs at hok with heq
        · cases hok
          subst heq
          have hcharge : B.chargeOf id = old := by
            rw [chargeOf_eq hid, hsettled, Option.getD_some]
          have hsame : ({ held with settled := some old } : Held) = held := by rw [← hsettled]
          refine ⟨hcharge.le, ?_⟩
          have hmoves := h.marks hinv hid (get_eq_of_same hid) rfl rfl rfl rfl (fun hb => hb)
            (h.released hid)
          rw [hcharge] at hmoves
          rw [hsame]
          exact hmoves
        · cases hok
      | none =>
        simp only [hsettled] at hok
        split_ifs at hok with hrefund
        · cases hok
        · obtain ⟨⟨reply, tokens⟩, hcharge, heq⟩ := Option.map_eq_some_iff.mp hok
          have hp : held.pending = true := by rw [Held.pending, hreleased, hsettled]; rfl
          obtain ⟨out, hout, hres, -⟩ := h.live hid hp
          have hown := h.own hid
          have hold := h.chargeOf_pending hid hp hout
          have hle : B.chargeOf id ≤ actual := by
            rw [chargeOf_eq hid, hsettled, Option.getD_none]
            exact not_lt.mp hrefund
          refine ⟨hle, ?_⟩
          rcases h.inv.sound.chargeExact_cases held.tokens actual with
            ⟨hnone, -⟩ | ⟨e, he⟩ | ⟨e, he⟩ | ⟨out', L₁, L₂, hout', -, ho, hc, hdone⟩
          · rw [hown, hout] at hnone
            cases hnone
          · rw [he] at hcharge
            cases hcharge
            cases heq
          · rw [he] at hcharge
            cases hcharge
            cases heq
          · rw [hdone] at hcharge
            cases hcharge
            cases heq
            rw [hown, hout] at hout'
            cases hout'
            have hrun : .run ∈ out.reservation.scopes := hres ▸ h.run hid
            have hcommitted := ho.committed_run hrun
            have hgone : tokens.outstanding.get id = none := by
              rw [hc.outstanding, hown, OrdMap.get_erase, if_pos rfl]
            have hself : TaskBudget.chargeOf { B with
                tokens := tokens
                breached := B.breached || decide (held.tokens.amount < actual)
                reservations :=
                  B.reservations.insert id { held with settled := some actual } } id = actual := by
              simp only [chargeOf, OrdMap.get_insert_self, Option.getD_some]
            have hget : ∀ i, (B.reservations.insert id { held with settled := some actual }).get i =
                if i = id then some { held with settled := some actual }
                else B.reservations.get i := fun i => OrdMap.get_insert _ _ _ _
            have hmoves := h.moves hinv hid hget rfl (fun i hi => ?_) (fun hp => ?_)
              (fun _ => hgone) (fun hb => ?_) (fun hr => ?_) ?_
            · rw [hself] at hmoves
              exact hmoves
            · rw [hc.outstanding, hown, OrdMap.get_erase, if_neg hi, ho.outstanding, hres, hown,
                OrdMap.get_insert_ne _ _ hi]
            · simp [Held.pending] at hp
            · rw [hbegun] at hb
              cases hb
            · rw [hreleased] at hr
              cases hr
            · rw [hself, hold]
              change tokens.committed .run + _ = _
              rw [hc.committed]
              omega

/-- Recovering leaves the charge of the abandoned Attempt. -/
theorem Tracked.recovers (h : B.Tracked) {id : String} (hinv : B'.Inv)
    (hok : B.recover id = some (.ok (), B')) :
    ∃ held, B.Moves id held { held with recovered := true } (B.chargeOf id) B' := by
  rw [recover] at hok
  cases hid : B.reservations.get id with
  | none =>
    simp only [hid] at hok
    cases hok
  | some held =>
    refine ⟨held, ?_⟩
    simp only [hid] at hok
    split_ifs at hok with hstate hrecovered
    · cases hok
    · cases hok
      have hsame : ({ held with recovered := true } : Held) = held := by rw [← hrecovered]
      rw [hsame]
      exact h.marks hinv hid (get_eq_of_same hid) rfl rfl rfl rfl (fun hb => hb) (h.released hid)
    · split at hok
      · cases hok
      · cases hok
        have hunbegun := h.released hid
        exact h.marks hinv hid (fun i => OrdMap.get_insert _ _ _ _) rfl rfl rfl rfl (fun hb => hb)
          hunbegun

/-- Work that settles and is abandoned at once. -/
theorem Tracked.settleRecovers (h : B.Tracked) {id : String} {actual : ℕ} {B₁ : TaskBudget}
    (hopen : ∀ {held}, B.reservations.get id = some held → held.settled = none)
    (hsettle : B.settleExact id actual = some (.ok (), B₁))
    (hrecover : B₁.recover id = some (.ok (), B')) :
    ∃ held, B.Moves id held { held with settled := some actual, recovered := true } actual B' := by
  obtain ⟨held, -, -, -, hfirst⟩ := h.settles hsettle
  have hinv : B'.Inv := by
    refine h.inv.of_step (.settleRecovered id actual) ?_
    rw [step, settleRecovered, hfirst.was, Option.any_some, hopen hfirst.was, hsettle]
    exact congrArg (Option.map Prod.snd) hrecover
  obtain ⟨held', hsecond⟩ := hfirst.tracked.recovers hinv hrecover
  have hwas := hsecond.was
  rw [hfirst.get, if_pos rfl] at hwas
  cases hwas
  rw [hfirst.charges, if_pos rfl] at hsecond
  exact ⟨held, hfirst.trans hsecond⟩

/-- Raising the committed totals of some scopes, all read before any is written. -/
theorem raiseCommitted_eq_some {base : BudgetLedger} {delta : ℕ} {scopes : List BudgetScope}
    {updated L : BudgetLedger} (h : raiseCommitted base delta scopes updated = some L) :
    L.outstanding = updated.outstanding ∧ ∀ s, L.committed s =
      if s ∈ scopes then base.committed s + delta else updated.committed s := by
  induction scopes generalizing updated with
  | nil =>
    cases h
    exact ⟨rfl, fun s => rfl⟩
  | cons scope scopes ih =>
    rw [raiseCommitted, Option.bind_eq_some_iff] at h
    obtain ⟨total, htotal, h⟩ := h
    obtain ⟨-, rfl⟩ := addU128_eq_some.mp htotal
    obtain ⟨hout, hrest⟩ := ih h
    refine ⟨hout, fun s => ?_⟩
    rw [hrest]
    by_cases hmem : s ∈ scopes
    · rw [if_pos hmem, if_pos (List.mem_cons_of_mem _ hmem)]
    · have hwrite : (updated.withExactCommitted scope (base.committed scope + delta)).committed s =
          if s = scope then base.committed scope + delta else updated.committed s := by
        rw [BudgetLedger.committed, BudgetLedger.withExactCommitted_account]
        split_ifs <;> rfl
      rw [if_neg hmem, hwrite]
      by_cases hscope : s = scope
      · rw [if_pos hscope, hscope, if_pos List.mem_cons_self]
      · rw [if_neg hscope, if_neg (by simp [hscope, hmem])]

/-- An observation raises the charge to `actual` where that is more. -/
theorem Tracked.observes (h : B.Tracked) {id : String} {actual : ℕ}
    (hok : B.observeChargeExact id actual = some (.ok (), B')) :
    ∃ held held', held.begun = true ∧ held.released = false ∧ held'.begun = held.begun ∧
      held'.released = held.released ∧ held'.settled.isSome = held.settled.isSome ∧
      B.Moves id held held' (max (B.chargeOf id) actual) B' := by
  have hinv : B'.Inv := h.inv.of_step (.observeChargeExact id actual) (by rw [step, hok]; rfl)
  rw [observeChargeExact] at hok
  cases hid : B.reservations.get id with
  | none =>
    simp only [hid] at hok
    cases hok
  | some held =>
    simp only [hid] at hok
    by_cases hstarted : (!held.begun || held.released) = true
    · rw [if_pos hstarted] at hok
      cases hok
    · rw [if_neg hstarted] at hok
      simp only [Bool.or_eq_true, Bool.not_eq_true', not_or, Bool.not_eq_true,
        Bool.not_eq_false] at hstarted
      obtain ⟨hbegun, hreleased⟩ := hstarted
      have hnot : held.begun = false → False := by
        intro hb
        rw [hbegun] at hb
        cases hb
      cases hsettled : held.settled with
      | some previous =>
        simp only [hsettled] at hok
        have hold : B.chargeOf id = previous := by
          rw [chargeOf_eq hid, hsettled, Option.getD_some]
        have hp : held.pending = false := by simp [Held.pending, hsettled]
        split_ifs at hok with hmore
        · -- late usage raises the settled charge and every committed total
          split at hok
          · cases hok
          case h_2 tokens hraise =>
            cases hok
            obtain ⟨hout, hraised⟩ := raiseCommitted_eq_some hraise
            have hrun := hraised .run
            rw [if_pos (h.run hid)] at hrun
            refine ⟨held, { held with settled := some actual }, hbegun, hreleased, rfl, rfl,
              by rw [hsettled]; rfl, ?_⟩
            have hself : TaskBudget.chargeOf { B with
                tokens := tokens
                breached := B.breached || decide (held.tokens.amount < actual)
                reservations :=
                  B.reservations.insert id { held with settled := some actual } } id = actual := by
              simp only [chargeOf, OrdMap.get_insert_self, Option.getD_some]
            have hget : ∀ i, (B.reservations.insert id { held with settled := some actual }).get i =
                if i = id then some { held with settled := some actual }
                else B.reservations.get i := fun i => OrdMap.get_insert _ _ _ _
            have hmoves := h.moves hinv hid hget rfl (fun i _ => by rw [hout]) (fun hp => ?_)
              (fun _ => ?_) (fun hb => (hnot hb).elim) (fun hr => ?_) ?_
            · rw [hself] at hmoves
              rw [hold, max_eq_right hmore.le]
              exact hmoves
            · simp [Held.pending] at hp
            · rw [hout]
              exact h.ended hid hp
            · rw [hreleased] at hr
              cases hr
            · rw [hself, hold]
              change tokens.committed .run + _ = _
              omega
        · cases hok
          refine ⟨held, held, hbegun, hreleased, rfl, rfl, rfl, ?_⟩
          rw [hold, max_eq_left (not_lt.mp hmore), ← hold]
          exact h.marks hinv hid (get_eq_of_same hid) rfl rfl rfl rfl (fun hb => hb)
            (h.released hid)
      | none =>
        simp only [hsettled] at hok
        obtain ⟨⟨reply, tokens⟩, hcharge, heq⟩ := Option.map_eq_some_iff.mp hok
        have hp : held.pending = true := by rw [Held.pending, hreleased, hsettled]; rfl
        obtain ⟨out, hout, hres, -⟩ := h.live hid hp
        have hown := h.own hid
        have hold := h.chargeOf_pending hid hp hout
        rcases h.inv.sound.observeChargeExact_cases held.tokens actual with
          ⟨e, he⟩ | ⟨e, he⟩ | ⟨out', L, hout', -, hdone, ho⟩
        · rw [he] at hcharge
          cases hcharge
          cases heq
        · rw [he] at hcharge
          cases hcharge
          cases heq
        · rw [hdone] at hcharge
          cases hcharge
          cases heq
          rw [hown, hout] at hout'
          cases hout'
          have hrun : .run ∈ out.reservation.scopes := hres ▸ h.run hid
          have hcommitted := ho.committed_run hrun
          have hnew : tokens.outstanding.get id =
              some { out with observed := max out.observed actual } := by
            rw [ho.outstanding, hres, hown, OrdMap.get_insert_self]
          have hself : TaskBudget.chargeOf { B with
              tokens := tokens
              breached := B.breached || decide (held.tokens.amount < actual) } id =
                max (B.chargeOf id) actual := by
            simp only [chargeOf, hid, hsettled, Option.getD_none,
              BudgetLedger.observedChargeExact, hown, hnew, hout, Option.map_some,
              Option.getD_some]
          refine ⟨held, held, hbegun, hreleased, rfl, rfl, rfl, ?_⟩
          have hmoves := h.moves hinv hid (get_eq_of_same hid) rfl
            (fun i hi => ?_) (fun _ => ⟨_, hnew, hres, fun hb => (hnot hb).elim⟩) (fun hq => ?_)
            (h.unbegun hid) (h.released hid) ?_
          · rw [hself] at hmoves
            exact hmoves
          · rw [ho.outstanding, hres, hown, OrdMap.get_insert_ne _ _ hi]
          · rw [hp] at hq
            cases hq
          · rw [hself, hold]
            exact hcommitted

/-! ## A new reservation -/

/-- The ledger's next identity names no reservation yet. -/
theorem Inv.fresh_id (h : B.Inv) {r : Reservation} {tokens : BudgetLedger}
    (hr : B.tokens.Reserves r tokens) : B.reservations.get r.id = none := by
  rw [Option.eq_none_iff_forall_ne_some]
  intro held hid
  obtain ⟨n, hn, heq⟩ := h.known hid
  have := reservationId_injective (hr.id_eq.symm.trans heq)
  omega

/-- What a granted preparation does: a new reservation that was not charged. -/
structure Opens (B : TaskBudget) (given : TaskReservation) (B' : TaskBudget) : Prop where
  tracked : B'.Tracked
  fresh : B.reservations.get given.id = none
  get : ∃ tokens, ∀ i, B'.reservations.get i =
    if i = given.id then some { given := given, tokens := tokens } else B.reservations.get i
  charges : ∀ i, B'.chargeOf i = if i = given.id then 0 else B.chargeOf i
  committed : B'.tokens.committed .run = B.tokens.committed .run

theorem Tracked.opens (h : B.Tracked) {node : String} {now : ℕ} {given : TaskReservation}
    (hok : B.prepare node now = some (.ok given, B')) :
    given.node = node ∧ B.Opens given B' := by
  have hinv : B'.Inv := h.inv.of_step (.prepare node now) (by rw [step, hok]; rfl)
  rcases prepare_cases B node now with
    ⟨e, he⟩ | ⟨account, scopes, reserve, r, tokens, deadline, -, hadmits, hr, -, hscopes, hdone⟩
  · rw [he] at hok
    cases hok
  · rw [hdone] at hok
    cases hok
    have hfresh := h.inv.fresh_id hr
    have hrun : .run ∈ r.scopes := by
      rw [hscopes, BudgetLedger.mem_scopeSet, (reservationScopes_eq_ok hadmits.scopes_eq).1]
      simp
    have hget : ∀ i, (B.reservations.insert r.id
        { given := ⟨r.id, node, r.amount, deadline⟩, tokens := r }).get i =
        if i = r.id then some { given := ⟨r.id, node, r.amount, deadline⟩, tokens := r }
        else B.reservations.get i := fun i => OrdMap.get_insert _ _ _ _
    have hother : ∀ i, i ≠ r.id → tokens.outstanding.get i = B.tokens.outstanding.get i := by
      intro i hi
      rw [hr.outstanding, OrdMap.get_insert_ne _ _ hi]
    have hself : tokens.outstanding.get r.id = some ⟨r, 0⟩ := by
      rw [hr.outstanding, OrdMap.get_insert_self]
    refine ⟨rfl, ⟨hinv, fun {i k} hk => ?_, fun {i k} hk => ?_, fun {i k} hk hp => ?_,
      fun {i k} hk hp => ?_, fun {i k} hk hb => ?_, fun {i k} hk hrel => ?_⟩, hfresh, ⟨r, hget⟩,
      fun i => ?_, hr.committed .run⟩
    · rw [withReservation, hget] at hk
      split_ifs at hk with hi
      · cases hk
        exact hi.symm
      · exact h.own hk
    · rw [withReservation, hget] at hk
      split_ifs at hk with hi
      · cases hk
        exact hrun
      · exact h.run hk
    · rw [withReservation, hget] at hk
      split_ifs at hk with hi
      · cases hk
        subst hi
        exact ⟨_, hself, rfl, fun _ => rfl⟩
      · obtain ⟨out, hout, hrest⟩ := h.live hk hp
        exact ⟨out, (hother i hi).trans hout, hrest⟩
    · rw [withReservation, hget] at hk
      split_ifs at hk with hi
      · cases hk
        cases hp
      · exact (hother i hi).trans (h.ended hk hp)
    · rw [withReservation, hget] at hk
      split_ifs at hk with hi
      · cases hk
        rfl
      · exact h.unbegun hk hb
    · rw [withReservation, hget] at hk
      split_ifs at hk with hi
      · cases hk
        rfl
      · exact h.released hk hrel
    · change TaskBudget.chargeOf (B.withReservation account tokens r
        ⟨r.id, node, r.amount, deadline⟩ now) i = if i = r.id then 0 else B.chargeOf i
      simp only [chargeOf, withReservation, hget]
      split_ifs with hi
      · simp only [Option.getD_none, BudgetLedger.observedChargeExact, hself]
        rfl
      · split
        · rfl
        case h_2 k hk =>
          rw [BudgetLedger.observedChargeExact, BudgetLedger.observedChargeExact, h.own hk,
            hother i hi]

/-! ## The operations on the graph -/

theorem installRecoveryAllowances_frame {allowances : List (String × ℕ)} {reply}
    (h : B.installRecoveryAllowances allowances = some (reply, B')) :
    B'.tokens = B.tokens ∧ B'.reservations = B.reservations := by
  induction allowances generalizing B with
  | nil =>
    cases h
    exact ⟨rfl, rfl⟩
  | cons entry rest ih =>
    obtain ⟨node, allowance⟩ := entry
    rw [installRecoveryAllowances] at h
    split_ifs at h
    · cases h
      exact ⟨rfl, rfl⟩
    · split at h
      · cases h
        exact ⟨rfl, rfl⟩
      · obtain ⟨htokens, hres⟩ := ih h
        exact ⟨htokens, hres⟩

theorem Tracked.installRecoveryAllowances_keeps (h : B.Tracked) {allowances : OrdMap String ℕ}
    {reply} (hok : B.installRecoveryAllowances allowances.entries = some (reply, B')) :
    B.Keeps B' := by
  have hinv : B'.Inv :=
    h.inv.of_step (.installRecoveryAllowances allowances) (by rw [step, hok]; rfl)
  obtain ⟨htokens, hres⟩ := installRecoveryAllowances_frame hok
  exact h.keeps hinv hres (by rw [htokens]) (by rw [htokens])

theorem Tracked.allowRetry_keeps (h : B.Tracked) {node : String}
    (hok : B.allowRetry node = some (.ok (), B')) : B.Keeps B' := by
  have hinv : B'.Inv := h.inv.of_step (.allowRetry node) (by rw [step, hok]; rfl)
  rw [allowRetry] at hok
  split at hok
  · cases hok
  · split_ifs at hok
    · cases hok
      exact h.keeps hinv rfl rfl rfl
    · cases hok

theorem Tracked.registerOwnedChildren_keeps (h : B.Tracked) {parent : String}
    {children : List String} (hok : B.registerOwnedChildren parent children = some (.ok (), B')) :
    B.Keeps B' := by
  have hinv : B'.Inv :=
    h.inv.of_step (.registerOwnedChildren parent children) (by rw [step, hok]; rfl)
  rw [registerOwnedChildren] at hok
  split at hok
  · cases hok
  · split at hok
    · split_ifs at hok
      · cases hok
        exact h.keeps hinv rfl rfl rfl
      · cases hok
    · split_ifs at hok
      · cases hok
      · cases hok
        exact h.keeps hinv rfl rfl rfl

theorem Tracked.registerExperimentalChildren_keeps (h : B.Tracked) {parent : String}
    {children : OrdMap String NodeAllowance} {maxChildren : ℕ}
    (hok : B.registerExperimentalChildren parent children maxChildren = some (.ok (), B')) :
    B.Keeps B' := by
  have hinv : B'.Inv := h.inv.of_step (.registerExperimentalChildren parent children maxChildren)
    (by rw [step, hok]; rfl)
  rw [registerExperimentalChildren] at hok
  split at hok
  · split_ifs at hok
    · cases hok
      exact h.keeps hinv rfl rfl rfl
    · cases hok
  · split_ifs at hok
    · cases hok
    · split at hok
      · cases hok
      · split_ifs at hok
        · cases hok
        · cases hok
          exact h.keeps hinv rfl rfl rfl

theorem Tracked.invalidatePlan_keeps (h : B.Tracked) {now : ℕ}
    (hok : B.invalidatePlan now = some (.ok (), B')) : B.Keeps B' := by
  have hinv : B'.Inv := h.inv.of_step (.invalidatePlan now) (by rw [step, hok]; rfl)
  rw [invalidatePlan] at hok
  split_ifs at hok
  · cases hok
  · cases hok
    exact h.keeps hinv rfl rfl rfl

/-- Limiting token scopes opens accounts; no reservation and no commitment moves. -/
theorem foldlM_installTokenScope_committed {scopes : List (String × TaskTokenScope)}
    {tokens L : BudgetLedger} (h : scopes.foldlM B.installTokenScope tokens = .ok L) :
    L.outstanding = tokens.outstanding ∧ ∀ s, L.committed s = tokens.committed s := by
  refine foldlM_invariant
    (P := fun L => L.outstanding = tokens.outstanding ∧ ∀ s, L.committed s = tokens.committed s)
    (fun L₁ entry L₂ _ hL₁ hstep => ?_) ⟨rfl, fun _ => rfl⟩ h
  obtain ⟨required, -, -, -, rfl⟩ := installTokenScope_eq_ok hstep
  refine ⟨hL₁.1, fun s => ?_⟩
  rw [← hL₁.2, BudgetLedger.committed, BudgetLedger.committed, BudgetLedger.withLimit_account]
  split_ifs with hs
  · rw [hs]
  · rfl

theorem Tracked.installGraph_keeps (h : B.Tracked) {graph : Graph} {now : ℕ} {preparation : Bool}
    (hok : B.installGraph graph now preparation = some (.ok (), B')) : B.Keeps B' := by
  have hinv : B'.Inv := h.inv.of_step (.installGraph graph now preparation) (by rw [step, hok]; rfl)
  rw [installGraph] at hok
  split at hok
  · cases hok
  case h_2 B₁ hinstalled =>
    cases hok
    obtain ⟨-, -, -, -, next, -, hscopes⟩ := installed_eq_ok hinstalled
    obtain ⟨tokens, hfold, rfl⟩ := installTokenScopes_eq_ok hscopes
    obtain ⟨hout, hcommitted⟩ := foldlM_installTokenScope_committed hfold
    exact h.keeps hinv rfl hout (hcommitted .run)

/-- A budget without reservations. -/
theorem Tracked.of_empty (hinv : B.Inv) (hempty : B.reservations = .empty) : B.Tracked := by
  have hnone : ∀ {id held}, B.reservations.get id = some held → False := by
    intro id held hid
    rw [hempty] at hid
    cases hid
  exact ⟨hinv, fun hid => (hnone hid).elim, fun hid => (hnone hid).elim,
    fun hid => (hnone hid).elim, fun hid => (hnone hid).elim, fun hid => (hnone hid).elim,
    fun hid => (hnone hid).elim⟩

/-- A budget that has reserved and committed nothing yet. -/
structure Unspent (B : TaskBudget) : Prop where
  inv : B.Inv
  empty : B.reservations = .empty
  committed : B.tokens.committed .run = 0

theorem Unspent.new {limits : TaskLimits} {allowances : OrdMap String NodeAllowance}
    (h : TaskBudget.new limits allowances = .ok B) : B.Unspent := by
  have hinv := Inv.new h
  obtain ⟨-, minimum, -, -, -, rfl⟩ := new_eq_ok h
  exact ⟨hinv, rfl, rfl⟩

theorem Unspent.withCallLimits (h : B.Unspent) {limits : OrdMap String ℕ}
    (hok : B.withCallLimits limits = .ok B') : B'.Unspent := by
  have hinv := (h.inv.withCallLimits hok).1
  obtain ⟨-, -, rfl⟩ := withCallLimits_eq_ok hok
  exact ⟨hinv, h.empty, h.committed⟩

theorem Unspent.withOwnedTemplates (h : B.Unspent) {templates : OrdMap String OwnedNodeAllowance}
    (hok : B.withOwnedTemplates templates = .ok B') : B'.Unspent := by
  have hinv := (h.inv.withOwnedTemplates hok).1
  obtain ⟨-, rfl⟩ := withOwnedTemplates_eq_ok hok
  exact ⟨hinv, h.empty, h.committed⟩

theorem Unspent.withTokenScopes (h : B.Unspent) {scopes : OrdMap String TaskTokenScope}
    (hok : B.withTokenScopes scopes = .ok B') : B'.Unspent := by
  have hinv := (h.inv.withTokenScopes hok).1
  rw [TaskBudget.withTokenScopes, bind_eq_ok] at hok
  obtain ⟨_, -, hok⟩ := hok
  obtain ⟨tokens, hfold, rfl⟩ := installTokenScopes_eq_ok hok
  exact ⟨hinv, h.empty, ((foldlM_installTokenScope_committed hfold).2 .run).trans h.committed⟩

theorem Unspent.withDeferredVerification (h : B.Unspent)
    (hok : B.withDeferredVerification = .ok B') : B'.Unspent := by
  have hinv := (h.inv.withDeferredVerification hok).1
  obtain ⟨-, rfl⟩ := withDeferredVerification_eq_ok hok
  exact ⟨hinv, h.empty, h.committed⟩

theorem Unspent.withRecoveryAllowances (h : B.Unspent) {allowances : OrdMap String ℕ}
    (hok : B.withRecoveryAllowances allowances = .ok B') : B'.Unspent := by
  rw [TaskBudget.withRecoveryAllowances] at hok
  obtain ⟨reply, B₁, hinstall, hinv, -⟩ :=
    installRecoveryAllowances_cases h.inv allowances.entries
  rw [hinstall, Option.getD_some] at hok
  obtain ⟨htokens, hres⟩ := installRecoveryAllowances_frame hinstall
  rcases reply with e | ⟨⟨⟩⟩
  · cases hok
  · cases hok
    exact ⟨hinv, hres.trans h.empty, by rw [htokens]; exact h.committed⟩

end TaskBudget

/-- The budget of a compiled graph begins unspent. -/
theorem CompiledTask.budget_unspent {G : CompiledTask} {limits : TaskLimits} {B : TaskBudget}
    (h : G.budget limits = .ok B) : B.Unspent := by
  obtain ⟨_, -, h⟩ := bind_eq_ok.mp h
  obtain ⟨templates, -, h⟩ := bind_eq_ok.mp h
  obtain ⟨_, -, h⟩ := bind_eq_ok.mp h
  obtain ⟨allowances, -, h⟩ := bind_eq_ok.mp h
  obtain ⟨B₁, hnew, h⟩ := bind_eq_ok.mp h
  obtain ⟨B₂, hcalls, h⟩ := bind_eq_ok.mp h
  obtain ⟨B₃, howned, h⟩ := bind_eq_ok.mp h
  obtain ⟨B₄, hscopes, h⟩ := bind_eq_ok.mp h
  exact ((((TaskBudget.Unspent.new hnew).withCallLimits hcalls).withOwnedTemplates
    howned).withTokenScopes hscopes).withRecoveryAllowances h

end Afactory
