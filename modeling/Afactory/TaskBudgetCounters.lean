import Mathlib
import Afactory.Runs
import Afactory.Checks
import Afactory.BudgetLaws
import Afactory.TaskBudget

/-!
# The counters of a Task budget

Counters live per node, per call and in the retired totals, while reservations
outlive the graph that made them. What holds them together is `Inv`: a node's
prepared counter counts its waiting reservations, its begun counter covers the
abandoned Attempts and the running ones, a pending reservation's node is in the
graph, and the Attempt limits bound what is used.

* `Inv.move`, `Inv.note`, `Inv.retune`, `Inv.widen`, `Inv.replace`: the five ways
  an operation changes the counters;
* `Inv.step`: no operation panics, and each keeps the invariant;
* `run_counters`: the counters of every run.
-/

namespace Afactory

namespace TaskBudget

/-! ## The invariant -/

/-- 1 for a live reservation of the node that did not start. -/
def waiting (node : String) (h : Held) : ℕ :=
  if h.given.node = node ∧ h.pending = true ∧ h.begun = false then 1 else 0

/-- 1 for a live reservation of the node that started. -/
def running (node : String) (h : Held) : ℕ :=
  if h.given.node = node ∧ h.pending = true ∧ h.begun = true then 1 else 0

/-- The live unbegun reservations of a node. -/
def waitingCount (B : TaskBudget) (node : String) : ℕ :=
  B.reservations.sum fun _ h => waiting node h

/-- The live begun reservations of a node. -/
def runningCount (B : TaskBudget) (node : String) : ℕ :=
  B.reservations.sum fun _ h => running node h

/-- The Attempts that occupy a call's limit. -/
def callAttempts (B : TaskBudget) (scope : String) : ℕ :=
  B.nodes.sum fun node a => if within node scope then a.used else 0

/-- What every operation keeps. -/
structure Inv (B : TaskBudget) : Prop where
  sound : B.tokens.Sound
  limited : (B.tokens.account .run).limit = some B.limits.tokens
  known : ∀ {id h}, B.reservations.get id = some h → ∃ n ≤ B.tokens.next, id = reservationId n
  prepared_eq : ∀ {n a}, B.nodes.get n = some a → a.prepared = B.waitingCount n
  begun_ge : ∀ {n a}, B.nodes.get n = some a → a.recovered + B.runningCount n ≤ a.begun
  present : ∀ {id h}, B.reservations.get id = some h → h.pending = true →
    ∃ a, B.nodes.get h.given.node = some a
  idle : B.reservations = .empty → ∀ {n a}, B.nodes.get n = some a → a.begun = 0
  task : B.usedAttempts ≤ B.limits.maxAttempts
  calls : ∀ {scope limit}, B.callLimits.get scope = some limit → B.callAttempts scope ≤ limit
  closed : B.tokens.overflowed = true → B.breached = true

variable {B B' : TaskBudget}

/-! ## The ways an operation changes the counters -/

/-- Two budgets with the same limits and the same retired Attempts. -/
structure SameFrame (B B' : TaskBudget) : Prop where
  limits : B'.limits = B.limits
  calls : B'.callLimits = B.callLimits
  retired : B'.retiredAttempts = B.retiredAttempts

theorem reservations_ne_empty {id : String} {held : Held} :
    B.reservations.insert id held ≠ .empty := by
  intro hempty
  have := B.reservations.get_insert_self id held
  rw [hempty, OrdMap.get_empty] at this
  cases this

theorem usedAttempts_insert (B' : TaskBudget) {node : String} {a a' : NodeAccount}
    (ha : B.nodes.get node = some a) (hnodes : B'.nodes = B.nodes.insert node a')
    (hretired : B'.retiredAttempts = B.retiredAttempts) :
    B'.usedAttempts + a.used = B.usedAttempts + a'.used := by
  have := OrdMap.sum_insert_of_some ha a' fun _ a => a.used
  rw [usedAttempts, usedAttempts, hnodes, hretired]
  omega

theorem callAttempts_insert (B' : TaskBudget) {node : String} {a a' : NodeAccount} (scope : String)
    (ha : B.nodes.get node = some a) (hnodes : B'.nodes = B.nodes.insert node a') :
    B'.callAttempts scope + (if within node scope then a.used else 0) =
      B.callAttempts scope + if within node scope then a'.used else 0 := by
  rw [callAttempts, callAttempts, hnodes]
  exact OrdMap.sum_insert_of_some ha a' fun node a => if within node scope then a.used else 0

theorem waitingCount_insert {id : String} {held held' : Held} (n : String)
    (hheld : B.reservations.get id = some held)
    (hres : B'.reservations = B.reservations.insert id held') :
    B'.waitingCount n + waiting n held = B.waitingCount n + waiting n held' := by
  rw [waitingCount, waitingCount, hres]
  exact OrdMap.sum_insert_of_some hheld held' fun _ h => waiting n h

theorem runningCount_insert {id : String} {held held' : Held} (n : String)
    (hheld : B.reservations.get id = some held)
    (hres : B'.reservations = B.reservations.insert id held') :
    B'.runningCount n + running n held = B.runningCount n + running n held' := by
  rw [runningCount, runningCount, hres]
  exact OrdMap.sum_insert_of_some hheld held' fun _ h => running n h

/-- A reservation and its node's account change together. -/
theorem Inv.move {id node : String} {held held' : Held} {a a' : NodeAccount} (h : B.Inv)
    (hframe : SameFrame B B') (hcarries : BudgetLedger.Carries B.tokens B'.tokens)
    (hheld : B.reservations.get id = some held)
    (hres : B'.reservations = B.reservations.insert id held')
    (ha : B.nodes.get node = some a) (hnodes : B'.nodes = B.nodes.insert node a')
    (hnode : held.given.node = node) (hgiven : held'.given = held.given)
    (hpending : held'.pending = true → held.pending = true)
    (hprepared : a'.prepared + waiting node held = a.prepared + waiting node held')
    (hbegun : a'.recovered + running node held' + a.begun ≤
      a'.begun + a.recovered + running node held)
    (hused : a'.used ≤ a.used) (hclosed : B'.tokens.overflowed = true → B'.breached = true) :
    B'.Inv := by
  have hother : ∀ n, n ≠ node → waiting n held = 0 ∧ waiting n held' = 0 ∧
      running n held = 0 ∧ running n held' = 0 := by
    intro n hn
    have h₁ : ¬ held.given.node = n := fun heq => hn (heq ▸ hnode)
    have h₂ : ¬ held'.given.node = n := by rw [hgiven]; exact h₁
    simp [waiting, running, h₁, h₂]
  refine ⟨hcarries.sound, ?_, ?_, ?_, ?_, ?_, ?_, ?_, ?_, hclosed⟩
  · rw [hcarries.runLimit, hframe.limits, h.limited]
  · intro id' h' hid'
    rw [hcarries.next]
    rw [hres, OrdMap.get_insert] at hid'
    split_ifs at hid' with heq
    · exact heq ▸ h.known hheld
    · exact h.known hid'
  · intro n b hb
    have hcount := waitingCount_insert n hheld hres
    rw [hnodes, OrdMap.get_insert] at hb
    split_ifs at hb with heq
    · cases hb
      cases heq
      have := h.prepared_eq ha
      omega
    · obtain ⟨h₁, h₂, -, -⟩ := hother n heq
      have := h.prepared_eq hb
      omega
  · intro n b hb
    have hcount := runningCount_insert n hheld hres
    rw [hnodes, OrdMap.get_insert] at hb
    split_ifs at hb with heq
    · cases hb
      cases heq
      have := h.begun_ge ha
      omega
    · obtain ⟨-, -, h₁, h₂⟩ := hother n heq
      have := h.begun_ge hb
      omega
  · intro id' h' hid' hp
    have hkeep : ∀ {n}, (∃ b, B.nodes.get n = some b) → ∃ b, B'.nodes.get n = some b := by
      intro n hn
      rw [hnodes, OrdMap.get_insert]
      split_ifs
      · exact ⟨a', rfl⟩
      · exact hn
    rw [hres, OrdMap.get_insert] at hid'
    split_ifs at hid' with heq
    · cases hid'
      rw [hgiven]
      exact hkeep (h.present hheld (hpending hp))
    · exact hkeep (h.present hid' hp)
  · intro hempty
    rw [hres] at hempty
    exact absurd hempty reservations_ne_empty
  · have := usedAttempts_insert B' ha hnodes hframe.retired
    have := h.task
    rw [hframe.limits]
    omega
  · intro scope limit hlimit
    rw [hframe.calls] at hlimit
    have hcall := h.calls hlimit
    have := callAttempts_insert B' scope ha hnodes
    split_ifs at this <;> omega

/-- A reservation is settled or noted; no account changes. -/
theorem Inv.note {id : String} {held held' : Held} (h : B.Inv) (hframe : SameFrame B B')
    (hcarries : BudgetLedger.Carries B.tokens B'.tokens)
    (hheld : B.reservations.get id = some held)
    (hres : B'.reservations = B.reservations.insert id held') (hnodes : B'.nodes = B.nodes)
    (hgiven : held'.given = held.given) (hpending : held'.pending = true → held.pending = true)
    (hwaiting : ∀ n, waiting n held' = waiting n held)
    (hrunning : ∀ n, running n held' ≤ running n held)
    (hclosed : B'.tokens.overflowed = true → B'.breached = true) : B'.Inv := by
  refine ⟨hcarries.sound, ?_, ?_, ?_, ?_, ?_, ?_, ?_, ?_, hclosed⟩
  · rw [hcarries.runLimit, hframe.limits, h.limited]
  · intro id' h' hid'
    rw [hcarries.next]
    rw [hres, OrdMap.get_insert] at hid'
    split_ifs at hid' with heq
    · exact heq ▸ h.known hheld
    · exact h.known hid'
  · intro n b hb
    rw [hnodes] at hb
    have := waitingCount_insert n hheld hres
    have := hwaiting n
    have := h.prepared_eq hb
    omega
  · intro n b hb
    rw [hnodes] at hb
    have := runningCount_insert n hheld hres
    have := hrunning n
    have := h.begun_ge hb
    omega
  · intro id' h' hid' hp
    rw [hnodes]
    rw [hres, OrdMap.get_insert] at hid'
    split_ifs at hid' with heq
    · cases hid'
      rw [hgiven]
      exact h.present hheld (hpending hp)
    · exact h.present hid' hp
  · intro hempty
    rw [hres] at hempty
    exact absurd hempty reservations_ne_empty
  · rw [usedAttempts, hnodes, hframe.retired, hframe.limits]
    exact h.task
  · intro scope limit hlimit
    rw [hframe.calls] at hlimit
    rw [callAttempts, hnodes]
    exact h.calls hlimit

/-- An allowance changes; no counter does. -/
theorem Inv.retune {node : String} {a a' : NodeAccount} (h : B.Inv)
    (ha : B.nodes.get node = some a) (hbegun : a'.begun = a.begun)
    (hprepared : a'.prepared = a.prepared) (hrecovered : a'.recovered = a.recovered) :
    ({ B with nodes := B.nodes.insert node a' } : TaskBudget).Inv := by
  have hused : a'.used = a.used := by
    rw [NodeAccount.used, NodeAccount.chargeable, hbegun, hprepared, hrecovered]
    rfl
  refine ⟨h.sound, h.limited, h.known, ?_, ?_, ?_, ?_, ?_, ?_, h.closed⟩
  · intro n b hb
    rw [OrdMap.get_insert] at hb
    split_ifs at hb with heq
    · cases hb
      cases heq
      exact hprepared.trans (h.prepared_eq ha)
    · exact h.prepared_eq hb
  · intro n b hb
    rw [OrdMap.get_insert] at hb
    split_ifs at hb with heq
    · cases hb
      cases heq
      rw [hbegun, hrecovered]
      exact h.begun_ge ha
    · exact h.begun_ge hb
  · intro id held hid hp
    rw [OrdMap.get_insert]
    split_ifs
    · exact ⟨a', rfl⟩
    · exact h.present hid hp
  · intro hempty n b hb
    rw [OrdMap.get_insert] at hb
    split_ifs at hb with heq
    · cases hb
      exact hbegun.trans (h.idle hempty ha)
    · exact h.idle hempty hb
  · have := usedAttempts_insert ({ B with nodes := B.nodes.insert node a' }) ha rfl rfl
    have := h.task
    change _ ≤ B.limits.maxAttempts
    omega
  · intro scope limit hlimit
    have := callAttempts_insert ({ B with nodes := B.nodes.insert node a' }) scope ha rfl
    have := h.calls hlimit
    rw [hused] at *
    omega

/-- An account no Attempt was counted in. -/
structure Fresh (a : NodeAccount) : Prop where
  begun : a.begun = 0
  prepared : a.prepared = 0
  recovered : a.recovered = 0

theorem Fresh.used {a : NodeAccount} (h : Fresh a) : a.used = 0 := by
  rw [NodeAccount.used, NodeAccount.chargeable, h.begun, h.prepared]
  omega

theorem waitingCount_eq_zero {n : String}
    (h : ∀ {id held}, B.reservations.get id = some held → held.pending = true →
      held.given.node ≠ n) : B.waitingCount n = 0 := by
  refine OrdMap.sum_eq_zero fun id held hid => ?_
  rw [waiting, if_neg]
  rintro ⟨hn, hp, -⟩
  exact h hid hp hn

theorem runningCount_eq_zero {n : String}
    (h : ∀ {id held}, B.reservations.get id = some held → held.pending = true →
      held.given.node ≠ n) : B.runningCount n = 0 := by
  refine OrdMap.sum_eq_zero fun id held hid => ?_
  rw [running, if_neg]
  rintro ⟨hn, hp, -⟩
  exact h hid hp hn

/-- No live reservation is of a node outside the graph. -/
theorem Inv.not_pending_of_absent (h : B.Inv) {n : String} (hn : B.nodes.get n = none)
    {id : String} {held : Held} (hid : B.reservations.get id = some held)
    (hp : held.pending = true) : held.given.node ≠ n := by
  intro heq
  obtain ⟨a, ha⟩ := h.present hid hp
  rw [heq, hn] at ha
  cases ha

/-- New nodes join the graph. -/
theorem Inv.widen (h : B.Inv) {children : List (String × NodeAllowance)}
    {owned : OrdMap String (List String)} (hnew : ∀ p ∈ children, B.nodes.get p.1 = none) :
    ({ B with nodes := B.addNodes children, ownedChildren := owned } : TaskBudget).Inv := by
  have hcases : ∀ {n a}, (B.addNodes children).get n = some a →
      B.nodes.get n = some a ∨ Fresh a ∧ B.nodes.get n = none := by
    intro n a ha
    rcases OrdMap.get_insertAll_cases ha with hmem | hold
    · obtain ⟨p, hp, heq⟩ := List.mem_map.mp hmem
      cases heq
      exact .inr ⟨⟨rfl, rfl, rfl⟩, hnew p hp⟩
    · exact .inl hold
  have hsum : ∀ f : String → NodeAccount → ℕ, (∀ n a, Fresh a → f n a = 0) →
      (B.addNodes children).sum f = B.nodes.sum f := by
    intro f hf
    refine OrdMap.sum_insertAll_of_zero (fun p hp => ?_) fun p hp => ?_
    · obtain ⟨q, -, rfl⟩ := List.mem_map.mp hp
      exact hf _ _ ⟨rfl, rfl, rfl⟩
    · obtain ⟨q, hq, rfl⟩ := List.mem_map.mp hp
      rw [hnew q hq]
      rfl
  refine ⟨h.sound, h.limited, h.known, ?_, ?_, ?_, ?_, ?_, ?_, h.closed⟩
  · intro n a ha
    rcases hcases ha with hold | ⟨hfresh, habsent⟩
    · exact h.prepared_eq hold
    · exact hfresh.prepared.trans (waitingCount_eq_zero (h.not_pending_of_absent habsent)).symm
  · intro n a ha
    rcases hcases ha with hold | ⟨hfresh, habsent⟩
    · exact h.begun_ge hold
    · have hzero : B.runningCount n = 0 := runningCount_eq_zero (h.not_pending_of_absent habsent)
      rw [hfresh.recovered, hfresh.begun, Nat.zero_add]
      exact le_of_eq hzero
  · intro id held hid hp
    exact OrdMap.exists_get_insertAll _ (h.present hid hp)
  · intro hempty n a ha
    rcases hcases ha with hold | ⟨hfresh, -⟩
    · exact h.idle hempty hold
    · exact hfresh.begun
  · have hused : (B.addNodes children).sum (fun _ a => a.used) = B.nodes.sum fun _ a => a.used :=
      hsum _ fun _ _ hfresh => hfresh.used
    simp only [usedAttempts, hused]
    exact h.task
  · intro scope limit hlimit
    have hcall := hsum (fun node a => if within node scope then a.used else 0)
      fun _ _ hfresh => by rw [hfresh.used, ite_self]
    simp only [callAttempts, hcall]
    exact h.calls hlimit

theorem not_pending_of_hasPending (h : B.hasPending = false) {id : String} {held : Held}
    (hid : B.reservations.get id = some held) : held.pending = false := by
  rw [hasPending, List.any_eq_false] at h
  have := h held (OrdMap.mem_values_iff.mpr ⟨id, hid⟩)
  simpa using this

/-- A fresh graph takes the place of one without live reservations. -/
theorem Inv.replace (h : B.Inv) (hidle : B.hasPending = false)
    (hres : B'.reservations = B.reservations) (hcarries : BudgetLedger.Carries B.tokens B'.tokens)
    (hlimits : B'.limits = B.limits)
    (hretired : B'.retiredAttempts = B.chargeableAttempts)
    (hclosed : B'.tokens.overflowed = true → B'.breached = true)
    (hfresh : ∀ {n a}, B'.nodes.get n = some a → Fresh a) : B'.Inv := by
  have hnone : ∀ {id held}, B'.reservations.get id = some held → held.pending = true → False := by
    intro id held hid hp
    rw [hres] at hid
    rw [not_pending_of_hasPending hidle hid] at hp
    cases hp
  have hused : B'.nodes.sum (fun _ a => a.used) = 0 :=
    OrdMap.sum_eq_zero fun _ _ ha => (hfresh ha).used
  refine ⟨hcarries.sound, ?_, ?_, ?_, ?_, ?_, ?_, ?_, ?_, hclosed⟩
  · rw [hcarries.runLimit, hlimits, h.limited]
  · intro id held hid
    rw [hcarries.next]
    exact h.known (hres ▸ hid)
  · intro n a ha
    rw [(hfresh ha).prepared, waitingCount_eq_zero]
    intro id held hid hp
    exact (hnone hid hp).elim
  · intro n a ha
    rw [(hfresh ha).recovered, runningCount_eq_zero]
    · exact Nat.zero_le _
    · intro id held hid hp
      exact (hnone hid hp).elim
  · intro id held hid hp
    exact (hnone hid hp).elim
  · intro _ n a ha
    exact (hfresh ha).begun
  · have hle : B.chargeableAttempts ≤ B.usedAttempts := by
      refine Nat.add_le_add_left (OrdMap.sum_le_sum fun _ a _ => ?_) _
      exact Nat.le_add_right _ _
    rw [usedAttempts, hused, hretired, hlimits]
    exact hle.trans h.task
  · intro scope limit _
    have : B'.callAttempts scope = 0 := OrdMap.sum_eq_zero fun _ _ ha => by
      rw [(hfresh ha).used, ite_self]
    omega

/-! ## What the checks accept -/

/-- An accepted preparation. -/
structure Admits (B : TaskBudget) (node : String) (account : NodeAccount)
    (scopes : List BudgetScope) (reserve : VerificationReserve) : Prop where
  account_eq : B.nodes.get node = some account
  reserve_eq : B.protectedAfter node = .ok reserve
  attempts : B.usedAttempts + 1 + reserve.attempts ≤ B.limits.maxAttempts
  calls : ∀ e ∈ B.callLimits.entries, B.checkCall node e = .ok ()
  tokens : B.checkTokens account.allowance.tokensPerAttempt reserve.tokens = .ok ()
  scopes_eq : B.reservationScopes node account.allowance.tokensPerAttempt = .ok scopes

theorem checkNode_eq_ok {node : String} {now : ℕ} {account : NodeAccount}
    (h : B.checkNode node now = .ok account) :
    B.nodes.get node = some account ∧ B.breached = false := by
  rw [checkNode, bind_eq_ok] at h
  obtain ⟨_, hopen, h⟩ := h
  rw [require_eq_ok] at hopen
  cases hget : B.nodes.get node with
  | none =>
    rw [hget] at h
    cases h
  | some a =>
    simp only [hget, bind_eq_ok] at h
    obtain ⟨_, -, _, -, h⟩ := h
    cases h
    exact ⟨rfl, by simp_all⟩

theorem admission_eq_ok {node : String} {now deadline : ℕ} {account : NodeAccount}
    {scopes : List BudgetScope} (h : B.admission node now = .ok (account, deadline, scopes)) :
    B.breached = false ∧ ∃ reserve, Admits B node account scopes reserve := by
  rw [admission, bind_eq_ok] at h
  obtain ⟨a, haccount, h⟩ := h
  rw [bind_eq_ok] at h
  obtain ⟨reserve, hreserve, h⟩ := h
  split_ifs at h with hattempts
  · cases h
  · rw [bind_eq_ok] at h
    obtain ⟨_, hcalls, h⟩ := h
    rw [bind_eq_ok] at h
    obtain ⟨d, -, h⟩ := h
    rw [bind_eq_ok] at h
    obtain ⟨_, htokens, h⟩ := h
    rw [bind_eq_ok] at h
    obtain ⟨s, hscopes, h⟩ := h
    cases h
    obtain ⟨hget, hbreached⟩ := checkNode_eq_ok haccount
    exact ⟨hbreached, reserve, hget, hreserve, not_lt.mp hattempts, forM_eq_ok.mp hcalls,
      htokens, hscopes⟩

theorem reservationScopes_eq_ok {node : String} {tokens : ℕ} {scopes : List BudgetScope}
    (h : B.reservationScopes node tokens = .ok scopes) :
    scopes = (B.scopesOf node).map (fun e => .fanOut e.1) ++ [.run] ∧
      ∀ e ∈ B.scopesOf node, B.checkScope node tokens e = .ok () := by
  rw [reservationScopes, bind_eq_ok] at h
  obtain ⟨_, hchecks, h⟩ := h
  cases h
  exact ⟨rfl, forM_eq_ok.mp hchecks⟩

/-- What a call's members occupy once the candidate is prepared. -/
def occupiedAfter (B : TaskBudget) (scope node : String) : ℕ :=
  1 + B.nodes.sum fun member a => if within member scope then
    a.used + (a.allowance.verificationAttempts - (a.used + if member = node then 1 else 0)) else 0

theorem foldlM_addOccupied {scope node : String} {occupied : ℕ}
    (h : B.nodes.entries.foldlM (addOccupied scope node) 1 = .ok occupied) :
    occupied = B.occupiedAfter scope node := by
  refine foldlM_sum (r := fun n => n) (fun s entry s' hstep => ?_) h
  obtain ⟨member, a⟩ := entry
  rw [addOccupied] at hstep
  simp only at hstep ⊢
  split_ifs at hstep ⊢ with hwithin
  · rw [bind_eq_ok] at hstep
    obtain ⟨t, ht, hstep⟩ := hstep
    obtain ⟨-, rfl⟩ := addResource_eq_ok.mp ht
    obtain ⟨-, rfl⟩ := addResource_eq_ok.mp hstep
    omega
  · rw [bind_eq_ok] at hstep
    obtain ⟨t, ht, hstep⟩ := hstep
    obtain ⟨-, rfl⟩ := addResource_eq_ok.mp ht
    obtain ⟨-, rfl⟩ := addResource_eq_ok.mp hstep
    omega
  · cases hstep
    rfl

theorem checkCall_eq_ok {node scope : String} {limit : ℕ}
    (h : B.checkCall node (scope, limit) = .ok ()) (hwithin : within node scope = true) :
    B.occupiedAfter scope node ≤ limit := by
  rw [checkCall] at h
  simp only [hwithin, if_true] at h
  rw [bind_eq_ok] at h
  obtain ⟨occupied, hocc, h⟩ := h
  rw [← foldlM_addOccupied hocc]
  split_ifs at h with hlt
  exact not_lt.mp hlt

theorem callAttempts_lt_occupiedAfter (scope node : String) :
    B.callAttempts scope + 1 ≤ B.occupiedAfter scope node := by
  have : B.callAttempts scope ≤ B.nodes.sum fun member a => if within member scope then
      a.used + (a.allowance.verificationAttempts -
        (a.used + if member = node then 1 else 0)) else 0 := by
    refine OrdMap.sum_le_sum fun member a _ => ?_
    split_ifs <;> omega
  rw [occupiedAfter]
  omega

/-- Preparing never panics: it refuses and leaves the budget, or it reserves. -/
theorem prepare_cases (B : TaskBudget) (node : String) (now : ℕ) :
    (∃ e, B.prepare node now = some (.error e, B)) ∨
      ∃ account scopes reserve r tokens deadline, B.breached = false ∧
        Admits B node account scopes reserve ∧ BudgetLedger.Reserves B.tokens r tokens ∧
        r.amount = account.allowance.tokensPerAttempt ∧
        r.scopes = BudgetLedger.scopeSet scopes ∧
        B.prepare node now = some (.ok ⟨r.id, node, r.amount, deadline⟩,
          B.withReservation account tokens r ⟨r.id, node, r.amount, deadline⟩ now) := by
  rw [prepare]
  cases hadmission : B.admission node now with
  | error e => exact .inl ⟨e, rfl⟩
  | ok result =>
    obtain ⟨account, deadline, scopes⟩ := result
    obtain ⟨hbreached, reserve, hadmits⟩ := admission_eq_ok hadmission
    rcases BudgetLedger.reserve_cases B.tokens scopes account.allowance.tokensPerAttempt with
      ⟨e, he⟩ | ⟨r, tokens, hok, hamount, hscopes, hr⟩
    · exact .inl ⟨.budget e, by simp only [he, Option.map_some]⟩
    · refine .inr ⟨account, scopes, reserve, r, tokens, deadline, hbreached, hadmits, hr, hamount,
        hscopes, ?_⟩
      simp only [hok, Option.map_some]

theorem Inv.withReservation (h : B.Inv) {node : String} {account : NodeAccount}
    {scopes : List BudgetScope} {reserve : VerificationReserve} {r : Reservation}
    {tokens : BudgetLedger} (hadmits : Admits B node account scopes reserve)
    (hr : BudgetLedger.Reserves B.tokens r tokens) (deadline now : ℕ) :
    (B.withReservation account tokens r ⟨r.id, node, r.amount, deadline⟩ now).Inv := by
  have hfresh : B.reservations.get r.id = none := by
    rw [Option.eq_none_iff_forall_ne_some]
    intro held hid
    obtain ⟨n, hn, heq⟩ := h.known hid
    have := reservationId_injective (hr.id_eq.symm.trans heq)
    omega
  have ha := hadmits.account_eq
  refine ⟨h.sound.reserves hr, (hr.accounts.limit (fun _ => rfl) .run).trans h.limited, ?_, ?_, ?_,
    ?_, ?_, ?_, ?_, fun hover => h.closed (hr.overflowed.symm.trans hover)⟩
  · intro id held hid
    simp only [TaskBudget.withReservation, OrdMap.get_insert] at hid ⊢
    rw [hr.next]
    split_ifs at hid with heq
    · exact ⟨_, le_rfl, heq.trans hr.id_eq⟩
    · obtain ⟨n, hn, hid⟩ := h.known hid
      exact ⟨n, by omega, hid⟩
  · intro n a hn
    simp only [TaskBudget.withReservation, OrdMap.get_insert] at hn
    simp only [waitingCount, TaskBudget.withReservation, OrdMap.sum_insert_of_none hfresh]
    split_ifs at hn with heq
    · cases hn
      cases heq
      have := h.prepared_eq ha
      rw [waitingCount] at this
      simp [waiting, Held.pending, this]
    · have := h.prepared_eq hn
      rw [waitingCount] at this
      simp [waiting, this, Ne.symm heq]
  · intro n a hn
    simp only [TaskBudget.withReservation, OrdMap.get_insert] at hn
    simp only [runningCount, TaskBudget.withReservation, OrdMap.sum_insert_of_none hfresh]
    split_ifs at hn with heq
    · cases hn
      cases heq
      have := h.begun_ge ha
      rw [runningCount] at this
      simpa [running] using this
    · have := h.begun_ge hn
      rw [runningCount] at this
      simpa [running] using this
  · intro id held hid hp
    simp only [TaskBudget.withReservation, OrdMap.get_insert] at hid ⊢
    split_ifs at hid with heq
    · cases hid
      exact ⟨_, if_pos rfl⟩
    · split_ifs
      · exact ⟨_, rfl⟩
      · exact h.present hid hp
  · intro hempty
    exact absurd hempty reservations_ne_empty
  · have hused := usedAttempts_insert (B.withReservation account tokens r
      ⟨r.id, node, r.amount, deadline⟩ now) ha rfl rfl
    have := hadmits.attempts
    have hone : ({ account with prepared := account.prepared + 1 } : NodeAccount).used =
      account.used + 1 := rfl
    change _ ≤ B.limits.maxAttempts
    omega
  · intro scope limit hlimit
    have hcall := callAttempts_insert (B.withReservation account tokens r
      ⟨r.id, node, r.amount, deadline⟩ now) scope ha rfl
    have hone : ({ account with prepared := account.prepared + 1 } : NodeAccount).used =
      account.used + 1 := rfl
    split_ifs at hcall with hwithin
    · have := checkCall_eq_ok (hadmits.calls _ (OrdMap.mem_iff_get.mpr hlimit)) hwithin
      have := callAttempts_lt_occupiedAfter (B := B) scope node
      omega
    · have := h.calls hlimit
      omega

/-- The account of a waiting reservation's node has it prepared. -/
theorem Inv.takePrepared (h : B.Inv) {id : String} {held : Held}
    (hid : B.reservations.get id = some held) (hp : held.pending = true)
    (hbegun : held.begun = false) :
    ∃ a, B.nodes.get held.given.node = some a ∧ 0 < a.prepared ∧
      (B.nodes.get held.given.node).bind NodeAccount.takePrepared =
        some { a with prepared := a.prepared - 1 } := by
  obtain ⟨a, ha⟩ := h.present hid hp
  have hpos : 0 < a.prepared := by
    rw [h.prepared_eq ha, waitingCount]
    have hone : waiting held.given.node held = 1 := if_pos ⟨rfl, hp, hbegun⟩
    have := OrdMap.le_sum hid fun _ h' => waiting held.given.node h'
    omega
  exact ⟨a, ha, hpos, by rw [ha, Option.bind_some, NodeAccount.takePrepared, if_pos hpos]⟩

theorem pending_of_beginRefusal {held : Held} {now : ℕ}
    (h : B.beginRefusal held now = none) : held.pending = true := by
  rw [beginRefusal] at h
  cases hreleased : held.released with
  | true =>
    rw [hreleased] at h
    cases h
  | false =>
    cases hsettled : held.settled with
    | some charged =>
      rw [hreleased, hsettled] at h
      cases h
    | none => rw [Held.pending, hreleased, hsettled]; rfl

/-- Starting never panics. -/
theorem begin_cases (h : B.Inv) (id : String) (now : ℕ) :
    (∃ e, B.begin id now = some (.error e, B)) ∨
      B.begin id now = some (.ok (), { B with lastTime := now }) ∨
      ∃ held a, B.reservations.get id = some held ∧ held.pending = true ∧ held.begun = false ∧
        B.nodes.get held.given.node = some a ∧ 0 < a.prepared ∧
        B.begin id now = some (.ok (), { B with
          nodes := B.nodes.insert held.given.node
            { a with prepared := a.prepared - 1, begun := a.begun + 1 }
          reservations := B.reservations.insert id { held with begun := true }
          lastTime := now }) := by
  rw [begin]
  cases hid : B.reservations.get id with
  | none => exact .inl ⟨_, rfl⟩
  | some held =>
    simp only
    cases hrefusal : B.beginRefusal held now with
    | some reason => exact .inl ⟨_, rfl⟩
    | none =>
      have hp := pending_of_beginRefusal hrefusal
      cases hbegun : held.begun with
      | true => exact .inr (.inl rfl)
      | false =>
        obtain ⟨a, ha, hpos, htake⟩ := h.takePrepared hid hp hbegun
        refine .inr (.inr ⟨held, a, rfl, hp, hbegun, ha, hpos, ?_⟩)
        rw [htake]
        rfl

theorem Inv.begin (h : B.Inv) {id : String} {held : Held} {a : NodeAccount}
    (hid : B.reservations.get id = some held) (hp : held.pending = true)
    (hbegun : held.begun = false) (ha : B.nodes.get held.given.node = some a)
    (hpos : 0 < a.prepared) (now : ℕ) :
    ({ B with
      nodes := B.nodes.insert held.given.node
        { a with prepared := a.prepared - 1, begun := a.begun + 1 }
      reservations := B.reservations.insert id { held with begun := true }
      lastTime := now } : TaskBudget).Inv := by
  have hge := h.begun_ge ha
  refine h.move ⟨rfl, rfl, rfl⟩ (.refl h.sound) hid rfl ha rfl rfl rfl (fun _ => hp) ?_ ?_ ?_
    h.closed
  · simp [waiting, hp, hbegun]
    omega
  · have hp' : ({ held with begun := true } : Held).pending = true := hp
    simp [running, hp', hbegun]
    omega
  · simp only [NodeAccount.used, NodeAccount.chargeable]
    omega

/-- Releasing never panics. -/
theorem release_cases (h : B.Inv) (id : String) :
    (∃ reply, B.release id = some (reply, B)) ∨
      ∃ held a tokens, B.reservations.get id = some held ∧ held.pending = true ∧
        held.begun = false ∧ B.nodes.get held.given.node = some a ∧ 0 < a.prepared ∧
        B.tokens.release held.tokens = some tokens ∧
        B.release id = some (.ok (), { B with
          tokens := tokens
          nodes := B.nodes.insert held.given.node { a with prepared := a.prepared - 1 }
          reservations := B.reservations.insert id { held with released := true } }) := by
  rw [release]
  cases hid : B.reservations.get id with
  | none => exact .inl ⟨_, rfl⟩
  | some held =>
    simp only
    split_ifs with hstarted hreleased
    · exact .inl ⟨_, rfl⟩
    · exact .inl ⟨_, rfl⟩
    · have hbegun : held.begun = false := by simp_all
      have hp : held.pending = true := by
        rw [Held.pending]
        simp_all
      obtain ⟨a, ha, hpos, htake⟩ := h.takePrepared hid hp hbegun
      obtain ⟨tokens, htokens⟩ : ∃ tokens, B.tokens.release held.tokens = some tokens := by
        rcases h.sound.release_cases held.tokens with ⟨-, hok⟩ | ⟨_, tokens, -, -, hok⟩
        · exact ⟨_, hok⟩
        · exact ⟨tokens, hok⟩
      refine .inr ⟨held, a, tokens, rfl, hp, hbegun, ha, hpos, htokens, ?_⟩
      rw [htokens, Option.bind_some, htake]
      rfl

/-- What releasing keeps of the ledger. -/
theorem carries_release {L L' : BudgetLedger} (h : L.Sound) {r : Reservation}
    (hr : L.release r = some L') :
    BudgetLedger.Carries L L' ∧ L'.overflowed = L.overflowed := by
  rcases h.release_cases r with ⟨-, hok⟩ | ⟨held, L₁, hid, hc, hok⟩
  · obtain rfl := Option.some.inj (hok.symm.trans hr)
    exact ⟨.refl h, rfl⟩
  · obtain rfl := Option.some.inj (hok.symm.trans hr)
    exact ⟨.closes h hid hc, hc.overflowed⟩

theorem Inv.release (h : B.Inv) {id : String} {held : Held} {a : NodeAccount}
    {tokens : BudgetLedger} (hid : B.reservations.get id = some held)
    (hp : held.pending = true) (hbegun : held.begun = false)
    (ha : B.nodes.get held.given.node = some a) (hpos : 0 < a.prepared)
    (htokens : B.tokens.release held.tokens = some tokens) :
    ({ B with
      tokens := tokens
      nodes := B.nodes.insert held.given.node { a with prepared := a.prepared - 1 }
      reservations := B.reservations.insert id { held with released := true } } :
        TaskBudget).Inv := by
  obtain ⟨hcarries, hover⟩ := carries_release h.sound htokens
  refine h.move ⟨rfl, rfl, rfl⟩ hcarries hid rfl ha rfl rfl rfl (fun _ => hp) ?_ ?_ ?_
    fun hclosed => h.closed (hover.symm.trans hclosed)
  · have hone : waiting held.given.node held = 1 := if_pos ⟨rfl, hp, hbegun⟩
    have hzero : waiting held.given.node { held with released := true } = 0 :=
      if_neg fun hw => by simp [Held.pending] at hw
    rw [hone, hzero]
    exact Nat.sub_add_cancel hpos
  · have hzero : running held.given.node { held with released := true } = 0 :=
      if_neg fun hw => by simp [Held.pending] at hw
    rw [hzero]
    change a.recovered + 0 + a.begun ≤ a.begun + a.recovered + _
    omega
  · simp only [NodeAccount.used, NodeAccount.chargeable]
    omega

/-- Settling never panics: it refuses, closing admission at most, or it charges
a running reservation. -/
theorem settleExact_cases (h : B.Inv) (id : String) (actual : ℕ) :
    (∃ e, B.settleExact id actual = some (.error e, B)) ∨
      (∃ held, B.reservations.get id = some held ∧ held.settled = some actual ∧
        B.settleExact id actual = some (.ok (), B)) ∨
      (∃ e tokens, (tokens = B.tokens ∨ tokens = { B.tokens with overflowed := true }) ∧
        (∃ held e, B.reservations.get id = some held ∧ held.pending = true ∧
          B.tokens.chargeExact held.tokens actual = some (.error e, tokens)) ∧
        B.settleExact id actual = some (.error e, { B with tokens := tokens, breached := true })) ∨
      ∃ held tokens, B.reservations.get id = some held ∧ held.pending = true ∧
        held.begun = true ∧ BudgetLedger.Carries B.tokens tokens ∧
        tokens.overflowed = B.tokens.overflowed ∧ B.tokens.chargeExact held.tokens actual = some (.ok (), tokens) ∧
        B.settleExact id actual = some (.ok (), { B with
          tokens := tokens
          breached := B.breached || decide (held.tokens.amount < actual)
          reservations := B.reservations.insert id { held with settled := some actual } }) := by
  rw [settleExact]
  cases hid : B.reservations.get id with
  | none => exact .inl ⟨_, rfl⟩
  | some held =>
    simp only
    by_cases hstarted : (!held.begun || held.released) = true
    · rw [if_pos hstarted]
      exact .inl ⟨_, rfl⟩
    · rw [if_neg hstarted]
      cases hsettled : held.settled with
      | some old =>
        simp only
        split_ifs with heq
        · cases heq
          exact .inr (.inl ⟨held, rfl, hsettled, rfl⟩)
        · exact .inl ⟨_, rfl⟩
      | none =>
        simp only
        split_ifs with hrefund
        · exact .inl ⟨_, rfl⟩
        · have hbegun : held.begun = true := by simp_all
          have hp : held.pending = true := by
            rw [Held.pending]
            simp_all
          rcases h.sound.chargeExact_cases held.tokens actual with
            ⟨-, hok⟩ | ⟨e, he⟩ | ⟨e, he⟩ | ⟨out, L₁, L₂, hout, heq, ho, hc, hok⟩
          · exact .inr (.inr (.inr ⟨held, _, rfl, hp, hbegun, .refl h.sound, rfl, hok,
              by rw [hok]; rfl⟩))
          · exact .inr (.inr (.inl ⟨_, _, .inl rfl, ⟨held, e, rfl, hp, he⟩, by rw [he]; rfl⟩))
          · exact .inr (.inr (.inl ⟨_, _, .inr rfl, ⟨held, e, rfl, hp, he⟩, by rw [he]; rfl⟩))
          · have hcarries : BudgetLedger.Carries B.tokens L₁ :=
              .observes h.sound (by rw [heq]; exact hout) ho
            refine .inr (.inr (.inr ⟨held, L₂, rfl, hp, hbegun,
              hcarries.trans (.closes hcarries.sound ?_ hc), hc.overflowed.trans ho.overflowed, hok, by rw [hok]; rfl⟩))
            rw [ho.outstanding, heq, OrdMap.get_insert_self]

theorem Inv.settle (h : B.Inv) {id : String} {held : Held} {tokens : BudgetLedger}
    (hid : B.reservations.get id = some held) (hp : held.pending = true)
    (hbegun : held.begun = true) (hcarries : BudgetLedger.Carries B.tokens tokens)
    (hover : tokens.overflowed = B.tokens.overflowed) (overrun : Bool) (actual : ℕ) :
    ({ B with
      tokens := tokens
      breached := B.breached || overrun
      reservations := B.reservations.insert id { held with settled := some actual } } :
        TaskBudget).Inv := by
  have hnot : ({ held with settled := some actual } : Held).pending = false := by
    simp [Held.pending]
  refine h.note ⟨rfl, rfl, rfl⟩ hcarries hid rfl rfl rfl (fun _ => hp) ?_ ?_ ?_
  · intro n
    simp [waiting, hbegun]
  · intro n
    simp [running, hnot]
  · intro hclosed
    rw [h.closed (hover.symm.trans hclosed), Bool.true_or]

/-- A running reservation that settles and is abandoned at once. -/
theorem Inv.settleRecover (h : B.Inv) {id : String} {held : Held} {a : NodeAccount}
    {tokens : BudgetLedger} (hid : B.reservations.get id = some held)
    (hp : held.pending = true) (hbegun : held.begun = true)
    (ha : B.nodes.get held.given.node = some a)
    (hcarries : BudgetLedger.Carries B.tokens tokens)
    (hover : tokens.overflowed = B.tokens.overflowed) (overrun : Bool) (actual : ℕ) :
    ({ B with
      tokens := tokens
      breached := B.breached || overrun
      nodes := B.nodes.insert held.given.node { a with recovered := a.recovered + 1 }
      reservations := B.reservations.insert id
        { held with settled := some actual, recovered := true } } : TaskBudget).Inv := by
  have hnot : ({ held with settled := some actual, recovered := true } : Held).pending = false := by
    simp [Held.pending]
  have hone : running held.given.node held = 1 := if_pos ⟨rfl, hp, hbegun⟩
  refine h.move ⟨rfl, rfl, rfl⟩ hcarries hid rfl ha rfl rfl rfl (fun _ => hp) ?_ ?_ ?_
    fun hclosed => by rw [h.closed (hover.symm.trans hclosed), Bool.true_or]
  · simp [waiting, hbegun]
  · have hzero : running held.given.node
        { held with settled := some actual, recovered := true } = 0 :=
      if_neg fun hr => by simp [hnot] at hr
    rw [hone, hzero]
    change a.recovered + 1 + 0 + a.begun ≤ a.begun + a.recovered + 1
    omega
  · simp only [NodeAccount.used, NodeAccount.chargeable]
    omega

/-! ## The operations as the Store issues them -/

/-- The settlement of abandoned work: the Store refuses an Attempt that has a
settlement, and recovers the reservation right after settling it. -/
def settleRecovered (B : TaskBudget) (id : String) (actual : ℕ) : BudgetReply Unit :=
  if (B.reservations.get id).any fun held => held.settled.isSome then
    some (.error (.refused "Task settlement has no unsettled started Attempt"), B)
  else
    (B.settleExact id actual).bind fun
      | (.error e, B') => some (.error e, B')
      | (.ok (), B') => B'.recover id

/-- A refused charge changes at most the ledger and the breach flag. -/
theorem Inv.retoken (h : B.Inv) {tokens : BudgetLedger}
    (hcarries : BudgetLedger.Carries B.tokens tokens) {breached : Bool}
    (hclosed : tokens.overflowed = true → breached = true) :
    ({ B with tokens := tokens, breached := breached } : TaskBudget).Inv where
  sound := hcarries.sound
  limited := hcarries.runLimit.trans h.limited
  known hid := by
    obtain ⟨n, hn, heq⟩ := h.known hid
    exact ⟨n, hn.trans (le_of_eq hcarries.next.symm), heq⟩
  prepared_eq := h.prepared_eq
  begun_ge := h.begun_ge
  present := h.present
  idle := h.idle
  task := h.task
  calls := h.calls
  closed := hclosed

theorem Inv.refusedCharge (h : B.Inv) {tokens : BudgetLedger}
    (htokens : tokens = B.tokens ∨ tokens = { B.tokens with overflowed := true }) :
    ({ B with tokens := tokens, breached := true } : TaskBudget).Inv := by
  rcases htokens with rfl | rfl
  · exact h.retoken (.refl h.sound) fun _ => rfl
  · exact h.retoken (.overflow h.sound) fun _ => rfl

theorem settleRecovered_cases (h : B.Inv) (id : String) (actual : ℕ) :
    ∃ reply B', B.settleRecovered id actual = some (reply, B') ∧ B'.Inv ∧
      B'.limits = B.limits := by
  rw [settleRecovered]
  split_ifs with hsettled
  · exact ⟨_, B, rfl, h, rfl⟩
  · rcases settleExact_cases h id actual with ⟨e, hok⟩ | ⟨held, hid, hrepeat, -⟩ |
      ⟨e, tokens, htokens, -, hok⟩ | ⟨held, tokens, hid, hp, hbegun, hcarries, hover, -, hok⟩
    · exact ⟨_, B, by rw [hok]; rfl, h, rfl⟩
    · rw [hid, Option.any_some, hrepeat] at hsettled
      exact absurd rfl hsettled
    · rw [hok]
      exact ⟨_, _, rfl, h.refusedCharge htokens, rfl⟩
    · obtain ⟨a, ha⟩ := h.present hid hp
      have hreleased : held.released = false := by
        rw [Held.pending, Bool.and_eq_true] at hp
        simpa using hp.1
      rw [hok, Option.bind_some]
      simp only [recover, OrdMap.get_insert_self, hbegun, hreleased, ha, OrdMap.insert_insert,
        Bool.not_true, Bool.or_false, Option.isNone_some, Bool.false_eq_true, if_false]
      cases hrec : held.recovered with
      | true =>
        have := h.settle hid hp hbegun hcarries hover
          (decide (held.tokens.amount < actual)) actual
        rw [hbegun, hreleased, hrec] at this
        exact ⟨_, _, rfl, this, rfl⟩
      | false =>
        have := h.settleRecover hid hp hbegun ha hcarries hover
          (decide (held.tokens.amount < actual)) actual
        rw [hbegun, hreleased] at this
        exact ⟨_, _, rfl, this, rfl⟩

theorem carries_raiseCommitted {base : BudgetLedger} {delta : ℕ} {scopes : List BudgetScope}
    {updated L : BudgetLedger} (h : updated.Sound)
    (hraise : raiseCommitted base delta scopes updated = some L) :
    BudgetLedger.Carries updated L ∧ L.overflowed = updated.overflowed := by
  induction scopes generalizing updated with
  | nil =>
    cases hraise
    exact ⟨.refl h, rfl⟩
  | cons scope scopes ih =>
    rw [raiseCommitted, Option.bind_eq_some_iff] at hraise
    obtain ⟨total, -, hraise⟩ := hraise
    have hfirst := BudgetLedger.Carries.withExactCommitted h scope total
    obtain ⟨hrest, hover⟩ := ih hfirst.sound hraise
    exact ⟨hfirst.trans hrest, hover⟩

/-- Observing never panics. -/
theorem observeChargeExact_cases (h : B.Inv) (id : String) (actual : ℕ) :
    ∃ reply B', B.observeChargeExact id actual = some (reply, B') ∧ B'.Inv ∧
      B'.limits = B.limits := by
  rw [observeChargeExact]
  cases hid : B.reservations.get id with
  | none => exact ⟨_, B, rfl, h, rfl⟩
  | some held =>
    simp only
    by_cases hstarted : (!held.begun || held.released) = true
    · rw [if_pos hstarted]
      exact ⟨_, B, rfl, h, rfl⟩
    · rw [if_neg hstarted]
      cases hsettled : held.settled with
      | some previous =>
        simp only
        split_ifs
        · cases hraise : raiseCommitted B.tokens (actual - previous) held.tokens.scopes B.tokens with
          | none => exact ⟨_, _, rfl, h.retoken (.refl h.sound) fun _ => rfl, rfl⟩
          | some tokens =>
            obtain ⟨hcarries, hover⟩ := carries_raiseCommitted h.sound hraise
            -- a settled reservation is not live before or after
            have hnot : ∀ charge, ({ held with settled := some charge } : Held).pending = false :=
              fun charge => by simp [Held.pending]
            have hwas : held.pending = false := by simp [Held.pending, hsettled]
            refine ⟨_, _, rfl, h.note ⟨rfl, rfl, rfl⟩ hcarries hid rfl rfl rfl ?_ ?_ ?_ ?_, rfl⟩
            · intro hp
              rw [hnot] at hp
              cases hp
            · intro n
              simp [waiting, hnot, hwas]
            · intro n
              simp [running, hnot]
            · intro hclosed
              rw [h.closed (hover.symm.trans hclosed), Bool.true_or]
        · exact ⟨_, _, rfl, h.retoken (.refl h.sound) fun hclosed => by
            rw [h.closed hclosed, Bool.true_or], rfl⟩
      | none =>
        simp only
        rcases h.sound.observeChargeExact_cases held.tokens actual with
          ⟨e, he⟩ | ⟨e, he⟩ | ⟨out, tokens, hout, heq, hok, ho⟩
        · rw [he]
          exact ⟨_, _, rfl, h.retoken (.refl h.sound) fun _ => rfl, rfl⟩
        · rw [he]
          exact ⟨_, _, rfl, h.retoken (.overflow h.sound) fun _ => rfl, rfl⟩
        · rw [hok]
          exact ⟨_, _, rfl, h.retoken (.observes h.sound (by rw [heq]; exact hout) ho)
            fun hclosed => by rw [h.closed (ho.overflowed.symm.trans hclosed), Bool.true_or], rfl⟩

theorem installRecoveryAllowances_cases (h : B.Inv) (allowances : List (String × ℕ)) :
    ∃ reply B', B.installRecoveryAllowances allowances = some (reply, B') ∧ B'.Inv ∧
      B'.limits = B.limits := by
  induction allowances generalizing B with
  | nil => exact ⟨_, B, rfl, h, rfl⟩
  | cons entry rest ih =>
    obtain ⟨node, allowance⟩ := entry
    rw [installRecoveryAllowances]
    split_ifs
    · exact ⟨_, B, rfl, h, rfl⟩
    · cases ha : B.nodes.get node with
      | none => exact ⟨_, B, rfl, h, rfl⟩
      | some a => exact ih (h.retune ha rfl rfl rfl)

theorem allowRetry_cases (h : B.Inv) (node : String) :
    ∃ reply B', B.allowRetry node = some (reply, B') ∧ B'.Inv ∧
      B'.limits = B.limits := by
  rw [allowRetry]
  cases ha : B.nodes.get node with
  | none => exact ⟨_, B, rfl, h, rfl⟩
  | some a =>
    simp only
    split_ifs
    · exact ⟨_, _, rfl, h.retune ha rfl rfl rfl, rfl⟩
    · exact ⟨_, B, rfl, h, rfl⟩

theorem get_eq_none_of_contains {m : OrdMap String NodeAccount} {k : String}
    (h : ¬ m.contains k = true) : m.get k = none := by
  rw [OrdMap.contains, Option.isSome_iff_ne_none] at h
  exact not_not.mp h

theorem registerOwnedChildren_cases (h : B.Inv) (parent : String) (children : List String) :
    ∃ reply B', B.registerOwnedChildren parent children = some (reply, B') ∧ B'.Inv ∧
      B'.limits = B.limits := by
  rw [registerOwnedChildren]
  cases B.ownedTemplates.get parent with
  | none => exact ⟨_, B, rfl, h, rfl⟩
  | some template =>
    cases B.ownedChildren.get parent with
    | some previous =>
      simp only
      split_ifs
      · exact ⟨_, B, rfl, h, rfl⟩
      · exact ⟨_, B, rfl, h, rfl⟩
    | none =>
      simp only
      split_ifs with hbad
      · exact ⟨_, B, rfl, h, rfl⟩
      · refine ⟨_, _, rfl, h.widen fun p hp => ?_, rfl⟩
        obtain ⟨child, hchild, rfl⟩ := List.mem_map.mp hp
        refine get_eq_none_of_contains fun hcontains => hbad ?_
        have hany : (children.any fun child => !within child parent ||
            (splitDots child.toList).length ≠ (splitDots parent.toList).length + 1 ||
            !qualified child || B.nodes.contains child || B.ownedTemplates.contains child) = true :=
          List.any_eq_true.mpr ⟨child, hchild, by simp [hcontains]⟩
        rw [hany, Bool.or_true]

theorem registerExperimentalChildren_cases (h : B.Inv) (parent : String)
    (children : OrdMap String NodeAllowance) (maxChildren : ℕ) :
    ∃ reply B', B.registerExperimentalChildren parent children maxChildren = some (reply, B') ∧
      B'.Inv ∧ B'.limits = B.limits := by
  rw [registerExperimentalChildren]
  cases B.ownedChildren.get parent with
  | some previous =>
    simp only
    split_ifs
    · exact ⟨_, B, rfl, h, rfl⟩
    · exact ⟨_, B, rfl, h, rfl⟩
  | none =>
    simp only
    split_ifs with hbad
    · exact ⟨_, B, rfl, h, rfl⟩
    · split
      · exact ⟨_, B, rfl, h, rfl⟩
      · split_ifs
        · exact ⟨_, B, rfl, h, rfl⟩
        · refine ⟨_, _, rfl, h.widen fun p hp => ?_, rfl⟩
          refine get_eq_none_of_contains fun hcontains => hbad ?_
          rw [Bool.or_eq_true]
          exact .inr (List.any_eq_true.mpr ⟨p, hp, by simp [hcontains]⟩)

theorem invalidatePlan_cases (h : B.Inv) (now : ℕ) :
    ∃ reply B', B.invalidatePlan now = some (reply, B') ∧ B'.Inv ∧
      B'.limits = B.limits := by
  rw [invalidatePlan]
  split_ifs with hbusy
  · exact ⟨_, B, rfl, h, rfl⟩
  · have hidle : B.hasPending = false := by simp_all
    refine ⟨_, _, rfl, h.replace hidle rfl (.refl h.sound) rfl rfl h.closed ?_, rfl⟩
    intro n a ha
    cases ha

/-! ## Building and installing -/

theorem new_eq_ok {limits : TaskLimits} {allowances : OrdMap String NodeAllowance}
    (h : new limits allowances = .ok B) :
    limits.validate = .ok () ∧ ∃ minimum,
      allowances.entries.foldlM (addMinimum limits) ⟨0, 0, 0⟩ = .ok minimum ∧
      minimum.tokens ≤ limits.verification.tokens ∧
      minimum.attempts ≤ limits.verification.attempts ∧
      B = { limits := limits
            tokens := BudgetLedger.withLimit {} .run limits.tokens
            nodes := allowances.mapVal fun _ allowance => { allowance := allowance } } := by
  rw [new, bind_eq_ok] at h
  obtain ⟨_, hvalid, h⟩ := h
  rw [bind_eq_ok] at h
  obtain ⟨minimum, hminimum, h⟩ := h
  split_ifs at h with hexceeds
  · cases h
  · cases h
    simp only [Bool.or_eq_true, decide_eq_true_eq, not_or, not_lt] at hexceeds
    exact ⟨hvalid, minimum, hminimum, hexceeds.1.1, hexceeds.1.2, rfl⟩

theorem withDeferredVerification_eq_ok (h : B.withDeferredVerification = .ok B') :
    (∀ {n a}, B.nodes.get n = some a → a.allowance.verificationAttempts = 0) ∧
      B' = { B with deferredVerification := true } := by
  rw [withDeferredVerification, bind_eq_ok] at h
  obtain ⟨_, hrequire, h⟩ := h
  rw [require_eq_ok] at hrequire
  cases h
  refine ⟨fun {n a} ha => ?_, rfl⟩
  simp only [Bool.and_eq_true, List.all_eq_true, decide_eq_true_eq] at hrequire
  exact hrequire.2 a (OrdMap.mem_values_iff.mpr ⟨n, ha⟩)

theorem eq_empty_of_isEmpty {V : Type} {m : OrdMap String V} (h : m.entries.isEmpty = true) :
    m = .empty := by
  obtain ⟨l, hl⟩ := m
  cases l with
  | nil => rfl
  | cons e t => cases h

theorem withCallLimits_eq_ok {limits : OrdMap String ℕ} (h : B.withCallLimits limits = .ok B') :
    B.reservations = .empty ∧
      (∀ {scope limit}, limits.get scope = some limit → B.callVerification scope ≤ limit) ∧
      B' = { B with callLimits := limits } := by
  rw [withCallLimits, bind_eq_ok] at h
  obtain ⟨_, hrequire, h⟩ := h
  rw [bind_eq_ok] at h
  obtain ⟨_, hchecks, h⟩ := h
  cases h
  refine ⟨eq_empty_of_isEmpty (require_eq_ok.mp hrequire), fun {scope limit} hlimit => ?_, rfl⟩
  have hcheck := forM_eq_ok.mp hchecks _ (OrdMap.mem_iff_get.mpr hlimit)
  rw [checkCallLimit, bind_eq_ok] at hcheck
  obtain ⟨_, -, hcheck⟩ := hcheck
  simpa using require_eq_ok.mp hcheck

theorem withOwnedTemplates_eq_ok {templates : OrdMap String OwnedNodeAllowance}
    (h : B.withOwnedTemplates templates = .ok B') :
    B.reservations = .empty ∧ B' = { B with ownedTemplates := templates } := by
  rw [withOwnedTemplates, bind_eq_ok] at h
  obtain ⟨_, hrequire, h⟩ := h
  rw [bind_eq_ok] at h
  obtain ⟨_, -, h⟩ := h
  cases h
  have hempty := require_eq_ok.mp hrequire
  rw [Bool.and_eq_true] at hempty
  exact ⟨eq_empty_of_isEmpty hempty.1, rfl⟩

/-- Installing token scopes limits accounts and replaces the scopes. -/
theorem installTokenScopes_eq_ok {scopes : OrdMap String TaskTokenScope}
    (h : B.installTokenScopes scopes = .ok B') :
    ∃ tokens, scopes.entries.foldlM B.installTokenScope B.tokens = .ok tokens ∧
      B' = { B with
        tokens := tokens
        capturedTokenScopes := B.capturedTokenScopes.insertAll scopes.entries
        tokenScopes := scopes } := by
  rw [installTokenScopes, bind_eq_ok] at h
  obtain ⟨tokens, hfold, h⟩ := h
  cases h
  exact ⟨tokens, hfold, rfl⟩

/-- One scope was checked against the tokens it holds, then limited. -/
theorem installTokenScope_eq_ok {tokens L : BudgetLedger} {entry : String × TaskTokenScope}
    (h : B.installTokenScope tokens entry = .ok L) :
    ∃ required, B.scopeVerificationAfter entry.2 none = .ok required ∧
      entry.2.tokens ≤ safeIntegerMax ∧ tokens.committed (.fanOut entry.1) + tokens.reserved (.fanOut entry.1) + required ≤
        entry.2.tokens ∧ L = tokens.withLimit (.fanOut entry.1) entry.2.tokens := by
  rw [installTokenScope, bind_eq_ok] at h
  obtain ⟨_, hshape, h⟩ := h
  rw [require_eq_ok] at hshape
  simp only [Bool.not_eq_true', Bool.or_eq_false_iff, decide_eq_false_iff_not, not_lt] at hshape
  rw [bind_eq_ok] at h
  obtain ⟨_, -, h⟩ := h
  rw [bind_eq_ok] at h
  obtain ⟨required, hrequired, h⟩ := h
  rw [bind_eq_ok] at h
  obtain ⟨_, htotal, h⟩ := h
  cases h
  refine ⟨required, hrequired, hshape.1.1.2, ?_, rfl⟩
  rw [require_eq_ok] at htotal
  split at htotal
  · rename_i total heq
    obtain ⟨used, hused, heq⟩ := Option.bind_eq_some_iff.mp heq
    obtain ⟨-, rfl⟩ := addU128_eq_some.mp hused
    obtain ⟨-, rfl⟩ := addU128_eq_some.mp heq
    simpa using htotal
  · cases htotal

theorem carries_installTokenScopes {scopes : List (String × TaskTokenScope)}
    {tokens L : BudgetLedger} (hsound : tokens.Sound)
    (h : scopes.foldlM B.installTokenScope tokens = .ok L) :
    BudgetLedger.Carries tokens L ∧ L.overflowed = tokens.overflowed := by
  refine foldlM_invariant
    (P := fun L => BudgetLedger.Carries tokens L ∧ L.overflowed = tokens.overflowed)
    (fun L₁ entry L₂ _ hL₁ hstep => ?_) ⟨.refl hsound, rfl⟩ h
  obtain ⟨required, -, -, -, rfl⟩ := installTokenScope_eq_ok hstep
  exact ⟨hL₁.1.trans (.withLimit hL₁.1.sound _ _), hL₁.2⟩

theorem new_fresh {limits : TaskLimits} {allowances : OrdMap String NodeAllowance}
    (h : new limits allowances = .ok B) {n : String} {a : NodeAccount}
    (ha : B.nodes.get n = some a) : Fresh a := by
  obtain ⟨-, minimum, -, -, -, rfl⟩ := new_eq_ok h
  simp only [OrdMap.get_mapVal, Option.map_eq_some_iff] at ha
  obtain ⟨allowance, -, rfl⟩ := ha
  exact ⟨rfl, rfl, rfl⟩

theorem Inv.new {limits : TaskLimits} {allowances : OrdMap String NodeAllowance}
    (h : TaskBudget.new limits allowances = .ok B) : B.Inv := by
  have hfresh : ∀ {n a}, B.nodes.get n = some a → Fresh a := fun ha => new_fresh h ha
  obtain ⟨-, minimum, -, -, -, heq⟩ := new_eq_ok h
  have hres : B.reservations = .empty := by rw [heq]
  have hnone : ∀ {n id held}, B.reservations.get id = some held → held.pending = true →
      held.given.node ≠ n := by
    intro n id held hid
    rw [hres] at hid
    cases hid
  refine ⟨?_, ?_, ?_, ?_, ?_, ?_, ?_, ?_, ?_, ?_⟩
  · rw [heq]
    exact BudgetLedger.sound_empty.withLimit .run limits.tokens
  · rw [heq]
    rfl
  · intro id held hid
    rw [hres] at hid
    cases hid
  · intro n a ha
    rw [(hfresh ha).prepared, waitingCount_eq_zero hnone]
  · intro n a ha
    rw [(hfresh ha).recovered, runningCount_eq_zero hnone]
    exact Nat.zero_le _
  · intro id held hid
    rw [hres] at hid
    cases hid
  · intro _ n a ha
    exact (hfresh ha).begun
  · have hused : B.nodes.sum (fun _ a => a.used) = 0 :=
      OrdMap.sum_eq_zero fun _ _ ha => (hfresh ha).used
    have hretired : B.retiredAttempts = 0 := by rw [heq]
    rw [usedAttempts, hused, hretired]
    exact Nat.zero_le _
  · intro scope limit hlimit
    rw [heq] at hlimit
    cases hlimit
  · intro hover
    rw [heq] at hover
    cases hover

/-- Before the first reservation no Attempt is counted. -/
theorem Inv.used_of_empty (h : B.Inv) (hempty : B.reservations = .empty) {n : String}
    {a : NodeAccount} (ha : B.nodes.get n = some a) : a.used = 0 := by
  have hprepared : a.prepared = 0 := by
    rw [h.prepared_eq ha, waitingCount, hempty, OrdMap.sum_empty]
  rw [NodeAccount.used, NodeAccount.chargeable, h.idle hempty ha, hprepared]
  omega

theorem Inv.withCallLimits (h : B.Inv) {limits : OrdMap String ℕ}
    (hok : B.withCallLimits limits = .ok B') : B'.Inv ∧ B'.limits = B.limits := by
  obtain ⟨hempty, -, rfl⟩ := withCallLimits_eq_ok hok
  refine ⟨⟨h.sound, h.limited, h.known, h.prepared_eq, h.begun_ge, h.present, h.idle, h.task, ?_,
    h.closed⟩, rfl⟩
  intro scope limit _
  have hzero : B.callAttempts scope = 0 := OrdMap.sum_eq_zero fun _ _ ha => by
    rw [h.used_of_empty hempty ha, ite_self]
  exact le_of_eq_of_le hzero (Nat.zero_le _)

theorem Inv.withOwnedTemplates (h : B.Inv) {templates : OrdMap String OwnedNodeAllowance}
    (hok : B.withOwnedTemplates templates = .ok B') : B'.Inv ∧ B'.limits = B.limits := by
  obtain ⟨-, rfl⟩ := withOwnedTemplates_eq_ok hok
  exact ⟨⟨h.sound, h.limited, h.known, h.prepared_eq, h.begun_ge, h.present, h.idle, h.task, h.calls,
    h.closed⟩, rfl⟩

theorem Inv.withDeferredVerification (h : B.Inv)
    (hok : B.withDeferredVerification = .ok B') : B'.Inv ∧ B'.limits = B.limits := by
  obtain ⟨-, rfl⟩ := withDeferredVerification_eq_ok hok
  exact ⟨⟨h.sound, h.limited, h.known, h.prepared_eq, h.begun_ge, h.present, h.idle, h.task, h.calls,
    h.closed⟩, rfl⟩

theorem Inv.installTokenScopes (h : B.Inv) {scopes : OrdMap String TaskTokenScope}
    (hok : B.installTokenScopes scopes = .ok B') : B'.Inv ∧ B'.limits = B.limits := by
  obtain ⟨tokens, hfold, rfl⟩ := installTokenScopes_eq_ok hok
  obtain ⟨hcarries, hover⟩ := carries_installTokenScopes h.sound hfold
  refine ⟨⟨hcarries.sound, hcarries.runLimit.trans h.limited, fun hid => ?_, h.prepared_eq, h.begun_ge, h.present, h.idle, h.task, h.calls,
    fun hclosed => h.closed (hover.symm.trans hclosed)⟩, rfl⟩
  obtain ⟨n, hn, heq⟩ := h.known hid
  exact ⟨n, hn.trans (le_of_eq hcarries.next.symm), heq⟩

theorem Inv.withTokenScopes (h : B.Inv) {scopes : OrdMap String TaskTokenScope}
    (hok : B.withTokenScopes scopes = .ok B') : B'.Inv ∧ B'.limits = B.limits := by
  rw [TaskBudget.withTokenScopes, bind_eq_ok] at hok
  obtain ⟨_, -, hok⟩ := hok
  exact h.installTokenScopes hok

/-- A compiled graph has the accounts of its allowances, all fresh. -/
theorem compile_eq_ok {graph : Graph} {preparation : Bool} {next : TaskBudget}
    (h : B.compile graph preparation = .ok next) :
    ∃ fresh limited, TaskBudget.new B.remainingLimits graph.allowances = .ok fresh ∧
      fresh.withCallLimits graph.callLimits = .ok limited ∧
      next.nodes = fresh.nodes ∧ next.callLimits = graph.callLimits ∧
      (preparation = true → ∀ {n a}, next.nodes.get n = some a →
        a.allowance.verificationAttempts = 0) := by
  rw [compile, bind_eq_ok] at h
  obtain ⟨fresh, hnew, h⟩ := h
  rw [bind_eq_ok] at h
  obtain ⟨limited, hcalls, h⟩ := h
  rw [bind_eq_ok] at h
  obtain ⟨owned, howned, h⟩ := h
  refine ⟨fresh, limited, hnew, hcalls, ?_⟩
  obtain ⟨-, -, rfl⟩ := withCallLimits_eq_ok hcalls
  obtain ⟨-, rfl⟩ := withOwnedTemplates_eq_ok howned
  cases preparation with
  | false =>
    cases h
    exact ⟨rfl, rfl, fun hfalse => by cases hfalse⟩
  | true =>
    obtain ⟨hnone, rfl⟩ := withDeferredVerification_eq_ok h
    exact ⟨rfl, rfl, fun _ => hnone⟩

/-- An accepted installation. -/
theorem installed_eq_ok {graph : Graph} {now : ℕ} {preparation : Bool}
    (h : B.installed graph now preparation = .ok B') :
    B.hasPending = false ∧ B.breached = false ∧
      B.limits.verification.tokens ≤ B.remainingTokens ∧
      B.limits.verification.attempts ≤ B.limits.maxAttempts - B.chargeableAttempts ∧
      ∃ next, B.compile graph preparation = .ok next ∧
        (B.replaceGraph next now preparation).installTokenScopes graph.tokenScopes = .ok B' := by
  rw [installed, bind_eq_ok] at h
  obtain ⟨_, hopen, h⟩ := h
  rw [require_eq_ok] at hopen
  rw [bind_eq_ok] at h
  obtain ⟨_, hroom, h⟩ := h
  rw [require_eq_ok] at hroom
  rw [bind_eq_ok] at h
  obtain ⟨next, hnext, h⟩ := h
  simp only [Bool.not_eq_true', Bool.or_eq_false_iff] at hopen
  simp only [Bool.not_eq_true', Bool.or_eq_false_iff, decide_eq_false_iff_not, not_lt] at hroom
  exact ⟨hopen.2, hopen.1.1.1.2, hroom.1.1, hroom.1.2, next, hnext, h⟩

theorem Inv.installed (h : B.Inv) {graph : Graph} {now : ℕ} {preparation : Bool}
    (hok : B.installed graph now preparation = .ok B') : B'.Inv ∧ B'.limits = B.limits := by
  obtain ⟨hidle, -, -, -, next, hnext, hscopes⟩ := installed_eq_ok hok
  obtain ⟨fresh, limited, hnew, -, hnodes, -⟩ := compile_eq_ok hnext
  have hreplaced : (B.replaceGraph next now preparation).Inv := by
    refine h.replace hidle rfl (.refl h.sound) rfl rfl h.closed fun {n a} ha => ?_
    refine new_fresh hnew (n := n) (a := a) ?_
    rw [← hnodes]
    exact ha
  exact hreplaced.installTokenScopes hscopes

/-- One operation of the Store on its Task's budget, with any values. -/
inductive Op where
  | withCallLimits (limits : OrdMap String ℕ)
  | withOwnedTemplates (templates : OrdMap String OwnedNodeAllowance)
  | withTokenScopes (scopes : OrdMap String TaskTokenScope)
  | withDeferredVerification
  | installRecoveryAllowances (allowances : OrdMap String ℕ)
  | prepare (node : String) (now : ℕ)
  | begin (id : String) (now : ℕ)
  | release (id : String)
  | settleExact (id : String) (actual : ℕ)
  /-- `settle_exact` and right after it `recover` -/
  | settleRecovered (id : String) (actual : ℕ)
  | observeChargeExact (id : String) (actual : ℕ)
  | allowRetry (node : String)
  | registerOwnedChildren (parent : String) (children : List String)
  | registerExperimentalChildren (parent : String) (children : OrdMap String NodeAllowance)
      (maxChildren : ℕ)
  | invalidatePlan (now : ℕ)
  | installGraph (graph : Graph) (now : ℕ) (preparation : Bool)

/-- A builder that refuses leaves the budget it was given. -/
def build (B : TaskBudget) (result : Except TaskBudgetError TaskBudget) : Option TaskBudget :=
  match result with
  | .error _ => some B
  | .ok B' => some B'

/-- The budget an operation leaves, accepted or refused; `none` is a panic. -/
@[grind =] def step (B : TaskBudget) : Op → Option TaskBudget
  | .withCallLimits limits => B.build (B.withCallLimits limits)
  | .withOwnedTemplates templates => B.build (B.withOwnedTemplates templates)
  | .withTokenScopes scopes => B.build (B.withTokenScopes scopes)
  | .withDeferredVerification => B.build B.withDeferredVerification
  | .installRecoveryAllowances allowances =>
    (B.installRecoveryAllowances allowances.entries).map Prod.snd
  | .prepare node now => (B.prepare node now).map Prod.snd
  | .begin id now => (B.begin id now).map Prod.snd
  | .release id => (B.release id).map Prod.snd
  | .settleExact id actual => (B.settleExact id actual).map Prod.snd
  | .settleRecovered id actual => (B.settleRecovered id actual).map Prod.snd
  | .observeChargeExact id actual => (B.observeChargeExact id actual).map Prod.snd
  | .allowRetry node => (B.allowRetry node).map Prod.snd
  | .registerOwnedChildren parent children =>
    (B.registerOwnedChildren parent children).map Prod.snd
  | .registerExperimentalChildren parent children maxChildren =>
    (B.registerExperimentalChildren parent children maxChildren).map Prod.snd
  | .invalidatePlan now => (B.invalidatePlan now).map Prod.snd
  | .installGraph graph now preparation => (B.installGraph graph now preparation).map Prod.snd

/-- A builder keeps the invariant if what it accepts does. -/
theorem Inv.build (h : B.Inv) {result : Except TaskBudgetError TaskBudget}
    (hok : ∀ B', result = .ok B' → B'.Inv ∧ B'.limits = B.limits) :
    ∃ B', B.build result = some B' ∧ B'.Inv ∧ B'.limits = B.limits := by
  cases result with
  | error e => exact ⟨B, rfl, h, rfl⟩
  | ok B' => exact ⟨B', rfl, hok B' rfl⟩

/-- An operation's answer, as the budget it leaves. -/
theorem exists_map_snd {α : Type} {reply : BudgetReply α}
    (h : ∃ answer B', reply = some (answer, B') ∧ B'.Inv ∧ B'.limits = B.limits) :
    ∃ B', reply.map Prod.snd = some B' ∧ B'.Inv ∧ B'.limits = B.limits := by
  obtain ⟨answer, B', hreply, hB'⟩ := h
  exact ⟨B', by rw [hreply]; rfl, hB'⟩

/-- **One operation.** No operation panics, and each keeps the invariant. -/
theorem Inv.step (h : B.Inv) (op : Op) :
    ∃ B', B.step op = some B' ∧ B'.Inv ∧ B'.limits = B.limits := by
  cases op with
  | withCallLimits limits => exact h.build fun _ hok => h.withCallLimits hok
  | withOwnedTemplates templates => exact h.build fun _ hok => h.withOwnedTemplates hok
  | withTokenScopes scopes => exact h.build fun _ hok => h.withTokenScopes hok
  | withDeferredVerification => exact h.build fun _ hok => h.withDeferredVerification hok
  | installRecoveryAllowances allowances =>
    exact exists_map_snd (installRecoveryAllowances_cases h allowances.entries)
  | prepare node now =>
    apply exists_map_snd
    rcases prepare_cases B node now with ⟨e, he⟩ |
      ⟨account, scopes, reserve, r, tokens, deadline, -, hadmits, hr, -, -, hok⟩
    · exact ⟨_, B, he, h, rfl⟩
    · exact ⟨_, _, hok, h.withReservation hadmits hr deadline now, rfl⟩
  | begin id now =>
    apply exists_map_snd
    rcases begin_cases h id now with ⟨e, he⟩ | hok | ⟨held, a, hid, hp, hbegun, ha, hpos, hok⟩
    · exact ⟨_, B, he, h, rfl⟩
    · exact ⟨_, _, hok, ⟨h.sound, h.limited, h.known, h.prepared_eq, h.begun_ge, h.present, h.idle, h.task,
        h.calls, h.closed⟩, rfl⟩
    · exact ⟨_, _, hok, h.begin hid hp hbegun ha hpos now, rfl⟩
  | release id =>
    apply exists_map_snd
    rcases release_cases h id with ⟨_, hok⟩ |
      ⟨held, a, tokens, hid, hp, hbegun, ha, hpos, htokens, hok⟩
    · exact ⟨_, B, hok, h, rfl⟩
    · exact ⟨_, _, hok, h.release hid hp hbegun ha hpos htokens, rfl⟩
  | settleExact id actual =>
    apply exists_map_snd
    rcases settleExact_cases h id actual with ⟨e, hok⟩ | ⟨held, -, -, hok⟩ |
      ⟨e, tokens, htokens, -, hok⟩ | ⟨held, tokens, hid, hp, hbegun, hcarries, hover, -, hok⟩
    · exact ⟨_, B, hok, h, rfl⟩
    · exact ⟨_, B, hok, h, rfl⟩
    · exact ⟨_, _, hok, h.refusedCharge htokens, rfl⟩
    · exact ⟨_, _, hok, h.settle hid hp hbegun hcarries hover _ _, rfl⟩
  | settleRecovered id actual => exact exists_map_snd (settleRecovered_cases h id actual)
  | observeChargeExact id actual => exact exists_map_snd (observeChargeExact_cases h id actual)
  | allowRetry node => exact exists_map_snd (allowRetry_cases h node)
  | registerOwnedChildren parent children =>
    exact exists_map_snd (registerOwnedChildren_cases h parent children)
  | registerExperimentalChildren parent children maxChildren =>
    exact exists_map_snd (registerExperimentalChildren_cases h parent children maxChildren)
  | invalidatePlan now => exact exists_map_snd (invalidatePlan_cases h now)
  | installGraph graph now preparation =>
    apply exists_map_snd
    rw [installGraph]
    cases hinstalled : B.installed graph now preparation with
    | error e => exact ⟨_, B, rfl, h, rfl⟩
    | ok B' => exact ⟨_, B', rfl, h.installed hinstalled⟩

/-- **Every sequence of operations** runs to its end, and the invariant holds there. -/
theorem Inv.run (h : B.Inv) (ops : List Op) :
    ∃ B', run TaskBudget.step B ops = some B' ∧ B'.Inv ∧ B'.limits = B.limits := by
  induction ops generalizing B with
  | nil => exact ⟨B, rfl, h, rfl⟩
  | cons op ops ih =>
    obtain ⟨B₁, hstep, h₁, hlimits₁⟩ := h.step op
    obtain ⟨B₂, hrun, h₂, hlimits₂⟩ := ih h₁
    exact ⟨B₂, run_cons_eq_some.mpr ⟨B₁, hstep, hrun⟩, h₂, hlimits₂.trans hlimits₁⟩

/-- **The counters.** From any admitted limits and allowances every sequence of
operations completes without a panic. In the budget it reaches, each node's
prepared counter is the number of its live unbegun reservations, no node has
recovered more Attempts than began, the Attempts of the current and the retired
nodes stay within the Task's limit and those of a call within the call's, and
the node of every live reservation is in the graph. -/
theorem run_counters (limits : TaskLimits) (allowances : OrdMap String NodeAllowance)
    (B₀ : TaskBudget) (hnew : TaskBudget.new limits allowances = .ok B₀) (ops : List Op) :
    ∃ B, Afactory.run TaskBudget.step B₀ ops = some B ∧
      (∀ node a, B.nodes.get node = some a →
        a.prepared = (B.reservations.sum fun _ h =>
          if h.given.node = node ∧ h.pending = true ∧ h.begun = false then 1 else 0) ∧
        a.recovered ≤ a.begun) ∧
      B.retiredAttempts + B.nodes.sum (fun _ a => a.chargeable + a.prepared) ≤
        limits.maxAttempts ∧
      (∀ scope limit, B.callLimits.get scope = some limit →
        (B.nodes.sum fun node a => if within node scope then a.chargeable + a.prepared else 0) ≤
          limit) ∧
      ∀ id held, B.reservations.get id = some held → held.pending = true →
        ∃ a, B.nodes.get held.given.node = some a := by
  have hlimits₀ : B₀.limits = limits := by
    obtain ⟨-, minimum, -, -, -, rfl⟩ := new_eq_ok hnew
    rfl
  obtain ⟨B, hrun, h, hlimits⟩ := (Inv.new hnew).run ops
  refine ⟨B, hrun, fun node a ha => ⟨h.prepared_eq ha, ?_⟩, ?_, fun scope limit => h.calls,
    fun id held => h.present⟩
  · exact (Nat.le_add_right _ _).trans (h.begun_ge ha)
  · rw [← hlimits₀, ← hlimits]
    exact h.task

/-- One verifier beside one worker. -/
def pairLimits : TaskLimits := ⟨100, 4, 1000, ⟨10, 1, 50⟩⟩

def pairAllowances : OrdMap String NodeAllowance :=
  .ofList [("work", ⟨40, 20, 2, 0⟩), ("check", ⟨10, 20, 2, 1⟩)]

/-- A started, abandoned and recovered Attempt across a replaced graph. -/
theorem run_counters_pair :
    ∃ B₀, TaskBudget.new pairLimits pairAllowances = .ok B₀ ∧
      ∃ B, Afactory.run TaskBudget.step B₀ [.prepare "work" 1, .begin "reservation:1" 2,
        .settleRecovered "reservation:1" 30, .prepare "check" 3, .release "reservation:2",
        .invalidatePlan 4, .installGraph { allowances := pairAllowances } 5 false] = some B ∧
      B.retiredAttempts + B.nodes.sum (fun _ a => a.chargeable + a.prepared) ≤ 4 := by
  obtain ⟨B₀, hB₀⟩ : ∃ B₀, TaskBudget.new pairLimits pairAllowances = .ok B₀ := ⟨_, rfl⟩
  obtain ⟨B, hrun, -, htask, -⟩ := run_counters pairLimits pairAllowances B₀ hB₀ _
  exact ⟨B₀, hB₀, B, hrun, htask⟩

end TaskBudget

end Afactory
