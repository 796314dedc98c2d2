import Mathlib
import Afactory.BudgetLimits
import Afactory.Checks
import Afactory.CompiledTask
import Afactory.MandatoryPath

/-!
# The limits a compiled plan fits

`limits_fit` of `review-graph/src/task.rs`: the supplied limits raised as far as the budget and the
deadline of a compiled graph need, or the reason no Task limit can change.

* `CompiledTask.limitsFit`: the fit;
* `limitsFit_eq_ok`: what it adds up, in the sums the budget reads;
* `Repairs`: the fit gives the least limits the budget accepts, or there are none;
* `limits_fit_repairs`: it does, unless the plan needs no Attempt at all and none was supplied.
-/

namespace Afactory

/-! ## The document -/

/-- `TaskFitLimitsV1`: the limits of a Task file, with the wall the Task has once it runs. -/
structure FitLimits where
  tokens : ℕ
  maxAttempts : ℕ
  wallMs : ℕ
  verification : VerificationReserve
  deriving DecidableEq, Repr

/-- `TaskVerificationSlotReserveV1`. -/
structure SlotReserve where
  node : String
  attempts : ℕ
  tokensPerAttempt : ℕ
  wallMsPerAttempt : ℕ
  deriving DecidableEq, Repr

/-- `TaskMandatoryWorkV1`: one Attempt of every unconditional Worker that is no verifier. -/
structure FitMandatory where
  tokens : ℕ
  attempts : ℕ
  wallMs : ℕ
  deriving DecidableEq, Repr

/-- `TaskLimitsFitV1`. -/
structure LimitsFit where
  supplied : FitLimits
  required : FitLimits
  reserves : List SlotReserve
  mandatory : FitMandatory
  /-- refusals no Task limit can fix -/
  unfixable : List String
  deriving DecidableEq, Repr

/-- `TaskLimitsFitV1::validate`. -/
def LimitsFit.validate (fit : LimitsFit) : Except TaskBudgetError Unit :=
  let s := fit.supplied
  let r := fit.required
  require (s.tokens ≤ r.tokens && s.maxAttempts ≤ r.maxAttempts && s.wallMs ≤ r.wallMs &&
    s.verification.tokens ≤ r.verification.tokens &&
    s.verification.attempts ≤ r.verification.attempts &&
    s.verification.wallMs ≤ r.verification.wallMs && r.verification.tokens ≤ r.tokens &&
    r.verification.attempts ≤ r.maxAttempts)
    "Fitted limits only raise what was supplied and keep the reserve inside the allowance"

/-- What a raised wall has beyond the need: the clock starts before the first reservation. -/
def fitWallStartMs : ℕ := 5000

namespace CompiledTask

open TaskBudget

/-! ## Fitting -/

/-- `verification_reserves`. -/
def verificationReserves (G : CompiledTask) : Except TaskBudgetError (List SlotReserve) := do
  let allowances ← G.executionAllowances
  return (allowances.entries.filter fun e => 0 < e.2.verificationAttempts).map fun (node, a) =>
    ⟨node, a.verificationAttempts, a.tokensPerAttempt, a.wallMsPerAttempt⟩

/-- Add the reserve of one slot. -/
def addReserve (reserve : VerificationReserve) (slot : SlotReserve) :
    Except TaskBudgetError VerificationReserve := do
  let product ← checked u64Bound "Task verifier token reservation overflow"
    (slot.tokensPerAttempt * slot.attempts)
  let tokens ← addResource reserve.tokens product
  let wall ← checked u64Bound "Task verifier wall reservation overflow"
    (slot.wallMsPerAttempt * slot.attempts)
  let wallMs ← addResource reserve.wallMs wall
  let attempts ← checked u32Bound "Task verifier Attempt reservation overflow"
    (reserve.attempts + slot.attempts)
  return ⟨tokens, attempts, wallMs⟩

/-- Add one paid node to the tokens and Attempts of the mandatory work, and to the largest
Attempt. -/
def addMandatory (G : CompiledTask) (acc : (ℕ × ℕ) × ℕ) (entry : String × NodeAllowance) :
    Except TaskBudgetError ((ℕ × ℕ) × ℕ) :=
  let ((tokens, attempts), largest) := acc
  let (name, allowance) := entry
  match G.nodes.get name with
  | none => .error (.refused "Allowance has no compiled node")
  | some node =>
    if G.mandatory node allowance then do
      let tokens ← addResource tokens allowance.tokensPerAttempt
      return ((tokens, attempts + 1), max largest allowance.tokensPerAttempt)
    else return ((tokens, attempts), max largest allowance.tokensPerAttempt)

/-- `mandatory_path_wall_ms`, which answers within as many rounds as there are nodes. -/
def mandatoryWallMs (G : CompiledTask) : Except TaskBudgetError ℕ :=
  ((G.mandatoryPathWallMs G.order.length).getD (.error "no answer")).mapError .refused

/-- The wall with room for the need, and for the start if it is raised. -/
def fitWall (wallMs needed : ℕ) : Except TaskBudgetError ℕ :=
  if wallMs < needed then addResource needed fitWallStartMs else .ok wallMs

/-- `limits_fit`. -/
def limitsFit (G : CompiledTask) (limits : TaskLimits) (wallMs : ℕ) :
    Except TaskBudgetError LimitsFit := do
  let reserves ← G.verificationReserves
  let reserve ← reserves.foldlM addReserve ⟨0, 0, 0⟩
  let verification : VerificationReserve := {
    tokens := max reserve.tokens limits.verification.tokens
    attempts := max reserve.attempts limits.verification.attempts
    wallMs := max reserve.wallMs limits.verification.wallMs }
  let pathWall ← G.mandatoryWallMs
  let acc ← G.paid.foldlM G.addMandatory ((0, 0), 0)
  let mandatory : FitMandatory := ⟨acc.1.1, acc.1.2, pathWall⟩
  let total ← addResource verification.tokens mandatory.tokens
  let tokens := max (max total acc.2) limits.tokens
  let attempts ← checked u32Bound "Task Attempt total overflow"
    (verification.attempts + mandatory.attempts)
  let maxAttempts := max attempts limits.maxAttempts
  let needed ← addResource mandatory.wallMs verification.wallMs
  let wall ← fitWall wallMs needed
  let unfixable := match G.budget ⟨tokens, maxAttempts, max limits.deadlineUnixMs 1, verification⟩ with
    | .error reason => [reason.message]
    | .ok _ => []
  let fit : LimitsFit := {
    supplied := ⟨limits.tokens, limits.maxAttempts, wallMs, limits.verification⟩
    required := ⟨tokens, maxAttempts, wall, verification⟩
    reserves := reserves
    mandatory := mandatory
    unfixable := unfixable }
  fit.validate
  return fit

end CompiledTask

/-- The limits of a fit, under the deadline they are checked with. -/
def LimitsFit.limits (fit : LimitsFit) (supplied : TaskLimits) : TaskLimits :=
  ⟨fit.required.tokens, fit.required.maxAttempts, max supplied.deadlineUnixMs 1,
    fit.required.verification⟩

namespace CompiledTask

open TaskBudget

variable {G : CompiledTask} {limits : TaskLimits} {wallMs : ℕ} {fit : LimitsFit}

/-! ## What the fit adds up -/

/-- The tokens of the largest single Attempt. -/
def largestAttempt (G : CompiledTask) : ℕ :=
  (G.paid.map fun e => e.2.tokensPerAttempt).foldr max ⊥

theorem le_largestAttempt {e : String × NodeAllowance} (he : e ∈ G.paid) :
    e.2.tokensPerAttempt ≤ G.largestAttempt :=
  List.le_max_of_le (List.mem_map_of_mem (f := fun e : String × NodeAllowance =>
    e.2.tokensPerAttempt) he) le_rfl

theorem largestAttempt_le {bound : ℕ} (h : ∀ e ∈ G.paid, e.2.tokensPerAttempt ≤ bound) :
    G.largestAttempt ≤ bound := by
  refine List.max_le_of_forall_le _ _ fun x hx => ?_
  obtain ⟨e, he, rfl⟩ := List.mem_map.mp hx
  exact h e he

theorem addReserve_eq_ok {reserve reserve' : VerificationReserve} {slot : SlotReserve}
    (h : addReserve reserve slot = .ok reserve') :
    reserve'.tokens = reserve.tokens + slot.tokensPerAttempt * slot.attempts ∧
      reserve'.attempts = reserve.attempts + slot.attempts ∧
      reserve'.wallMs = reserve.wallMs + slot.wallMsPerAttempt * slot.attempts := by
  simp only [addReserve, bind_eq_ok, checked_eq_ok, addResource_eq_ok] at h
  obtain ⟨_, ⟨-, rfl⟩, _, ⟨-, rfl⟩, _, ⟨-, rfl⟩, _, ⟨-, rfl⟩, _, ⟨-, rfl⟩, h⟩ := h
  cases h
  exact ⟨rfl, rfl, rfl⟩

/-- Entries that add nothing may be left out of a sum. -/
theorem sum_filter_eq {α : Type*} (p : α → Bool) (f : α → ℕ) (l : List α)
    (h : ∀ x ∈ l, p x = false → f x = 0) : ((l.filter p).map f).sum = (l.map f).sum := by
  induction l with
  | nil => rfl
  | cons x l ih =>
    have hrest := ih fun y hy => h y (List.mem_cons_of_mem _ hy)
    cases hp : p x with
    | true => simp [hp, hrest]
    | false => simp [hp, hrest, h x List.mem_cons_self hp]

/-- The reserves of the slots add up to the compiled minimum. -/
theorem foldlM_addReserve {reserves : List SlotReserve} {reserve : VerificationReserve}
    (hreserves : G.verificationReserves = .ok reserves)
    (h : reserves.foldlM addReserve ⟨0, 0, 0⟩ = .ok reserve) : reserve = reserveOf G.allowances := by
  obtain ⟨allowances, hallowances, hreserves⟩ := bind_eq_ok.mp hreserves
  cases hreserves
  obtain ⟨hreserve, -, -⟩ := executionAllowances_cases hallowances
  rw [← hreserve]
  have htokens : reserve.tokens = _ :=
    foldlM_sum (r := fun m => m.tokens) (g := fun slot => slot.tokensPerAttempt * slot.attempts)
      (fun _ _ _ hstep => (addReserve_eq_ok hstep).1) h
  have hattempts : reserve.attempts = _ :=
    foldlM_sum (r := fun m => m.attempts) (g := SlotReserve.attempts)
      (fun _ _ _ hstep => (addReserve_eq_ok hstep).2.1) h
  have hwall : reserve.wallMs = _ :=
    foldlM_sum (r := fun m => m.wallMs) (g := fun slot => slot.wallMsPerAttempt * slot.attempts)
      (fun _ _ _ hstep => (addReserve_eq_ok hstep).2.2) h
  rw [List.map_map, sum_filter_eq _ _ _ (by simp +contextual), Nat.zero_add]
    at htokens hattempts hwall
  obtain ⟨tokens, attempts, wall⟩ := reserve
  dsimp only at htokens hattempts hwall
  rw [htokens, hattempts, hwall]
  rfl

theorem addMandatory_eq_ok {acc acc' : (ℕ × ℕ) × ℕ} {e : String × NodeAllowance}
    (h : G.addMandatory acc e = .ok acc') :
    acc'.1.1 = acc.1.1 + e.2.tokensPerAttempt * G.once e.1 e.2 ∧
      acc'.1.2 = acc.1.2 + G.once e.1 e.2 ∧ acc'.2 = max acc.2 e.2.tokensPerAttempt := by
  obtain ⟨⟨tokens, attempts⟩, largest⟩ := acc
  obtain ⟨name, a⟩ := e
  rw [addMandatory] at h
  cases hnode : G.nodes.get name with
  | none =>
    rw [hnode] at h
    cases h
  | some node =>
    rw [hnode] at h
    have honce : G.once name a = if G.mandatory node a then 1 else 0 := by rw [once, hnode]
    dsimp only at h ⊢
    rw [honce]
    split_ifs at h ⊢
    · obtain ⟨_, hsum, h⟩ := bind_eq_ok.mp h
      obtain ⟨-, rfl⟩ := addResource_eq_ok.mp hsum
      cases h
      exact ⟨by rw [Nat.mul_one], rfl, rfl⟩
    · cases h
      exact ⟨rfl, rfl, rfl⟩

/-- The mandatory work is what the budget's minimum counts. -/
theorem foldlM_addMandatory {acc : (ℕ × ℕ) × ℕ}
    (h : G.paid.foldlM G.addMandatory ((0, 0), 0) = .ok acc) :
    acc = ((G.mandatoryTokens, G.mandatoryCount), G.largestAttempt) := by
  have htokens : acc.1.1 = _ :=
    foldlM_sum (r := fun acc => acc.1.1) (g := fun e => e.2.tokensPerAttempt * G.once e.1 e.2)
      (fun _ _ _ hstep => (addMandatory_eq_ok hstep).1) h
  have hattempts : acc.1.2 = _ :=
    foldlM_sum (r := fun acc => acc.1.2) (g := fun e => G.once e.1 e.2)
      (fun _ _ _ hstep => (addMandatory_eq_ok hstep).2.1) h
  have hlargest : acc.2 = G.largestAttempt := by
    refine le_antisymm ?_ ?_
    · exact foldlM_invariant (P := fun acc : (ℕ × ℕ) × ℕ => acc.2 ≤ G.largestAttempt)
        (fun _ e _ he hle hstep => by
          rw [(addMandatory_eq_ok hstep).2.2]
          exact max_le hle (le_largestAttempt he)) (Nat.zero_le _) h
    · refine largestAttempt_le (foldlM_each (P := fun e (acc : (ℕ × ℕ) × ℕ) =>
        e.2.tokensPerAttempt ≤ acc.2) (fun _ _ _ hstep => ?_) (fun _ _ _ _ hle hstep => ?_) h)
      · rw [(addMandatory_eq_ok hstep).2.2]
        exact le_max_right _ _
      · rw [(addMandatory_eq_ok hstep).2.2]
        exact hle.trans (le_max_left _ _)
  obtain ⟨⟨tokens, attempts⟩, largest⟩ := acc
  simp only [Nat.zero_add] at htokens hattempts hlargest
  rw [htokens, hattempts, hlargest]
  rfl

/-- The verification reserve a fit requires. -/
def fitVerification (G : CompiledTask) (limits : TaskLimits) : VerificationReserve where
  tokens := max (reserveOf G.allowances).tokens limits.verification.tokens
  attempts := max (reserveOf G.allowances).attempts limits.verification.attempts
  wallMs := max (reserveOf G.allowances).wallMs limits.verification.wallMs

/-- The limits a fit requires. -/
def fitLimits (G : CompiledTask) (limits : TaskLimits) : TaskLimits where
  tokens := max (max ((G.fitVerification limits).tokens + G.mandatoryTokens) G.largestAttempt)
    limits.tokens
  maxAttempts := max ((G.fitVerification limits).attempts + G.mandatoryCount) limits.maxAttempts
  deadlineUnixMs := max limits.deadlineUnixMs 1
  verification := G.fitVerification limits

/-- **What a fit says.** -/
theorem limitsFit_eq_ok (h : G.limitsFit limits wallMs = .ok fit) :
    fit.limits limits = G.fitLimits limits ∧
      (fit.unfixable = [] ↔ G.Accepts (G.fitLimits limits)) := by
  rw [limitsFit] at h
  obtain ⟨reserves, hreserves, h⟩ := bind_eq_ok.mp h
  obtain ⟨reserve, hreserve, h⟩ := bind_eq_ok.mp h
  obtain ⟨pathWall, -, h⟩ := bind_eq_ok.mp h
  obtain ⟨acc, hacc, h⟩ := bind_eq_ok.mp h
  obtain ⟨total, htotal, h⟩ := bind_eq_ok.mp h
  obtain ⟨attempts, hattempts, h⟩ := bind_eq_ok.mp h
  obtain ⟨needed, -, h⟩ := bind_eq_ok.mp h
  obtain ⟨wall, -, h⟩ := bind_eq_ok.mp h
  obtain ⟨_, -, h⟩ := bind_eq_ok.mp h
  cases h
  cases foldlM_addReserve hreserves hreserve
  cases foldlM_addMandatory hacc
  obtain ⟨-, rfl⟩ := addResource_eq_ok.mp htotal
  obtain ⟨-, rfl⟩ := checked_eq_ok.mp hattempts
  refine ⟨rfl, ?_⟩
  change (match G.budget (G.fitLimits limits) with
    | .error reason => [reason.message]
    | .ok _ => []) = [] ↔ _
  rw [Accepts]
  cases G.budget (G.fitLimits limits) with
  | error reason => simp
  | ok B => simp

/-! ## The least repair -/

/-- Limits above the supplied ones that the budget accepts. -/
def repairs (G : CompiledTask) (limits : TaskLimits) : Set TaskLimits :=
  {l | limits ≤ l ∧ G.Accepts l}

/-- A fit without reasons gives the least limits that repair the supplied ones, and one with
reasons means that none do. -/
def FitRepairs (G : CompiledTask) (limits : TaskLimits) (wallMs : ℕ) : Prop :=
  ∀ fit, G.limitsFit limits wallMs = .ok fit →
    (fit.unfixable = [] → IsLeast (G.repairs limits) (fit.limits limits)) ∧
      (fit.unfixable ≠ [] → G.repairs limits = ∅)

/-- Neither the plan nor the supplied limits ask for an Attempt. -/
structure AsksNoAttempt (G : CompiledTask) (limits : TaskLimits) : Prop where
  supplied : limits.maxAttempts = 0
  reserved : limits.verification.attempts = 0
  verification : (reserveOf G.allowances).attempts = 0
  mandatory : G.mandatoryCount = 0

/-- The supplied limits with one Attempt, the tokens raised to the largest one. -/
def oneAttempt (G : CompiledTask) (limits : TaskLimits) : TaskLimits where
  tokens := max (max limits.verification.tokens G.largestAttempt) limits.tokens
  maxAttempts := 1
  deadlineUnixMs := max limits.deadlineUnixMs 1
  verification := limits.verification

theorem le_fitLimits (G : CompiledTask) (limits : TaskLimits) : limits ≤ G.fitLimits limits := by
  refine ⟨le_max_right _ _, le_max_right _ _, le_max_left _ _, le_max_right _ _, le_max_right _ _,
    le_max_right _ _⟩

/-- Every repair is at least the fit. -/
theorem fitLimits_le {l : TaskLimits} (h : l ∈ G.repairs limits) : G.fitLimits limits ≤ l := by
  obtain ⟨hle, haccepts⟩ := h
  have hsuffices := accepts_suffices haccepts
  obtain ⟨htokens, hattempts, hdeadline, hvTokens, hvAttempts, hvWall⟩ := hle
  have htokens' : (G.fitVerification limits).tokens ≤ l.verification.tokens :=
    max_le hsuffices.reserveTokens hvTokens
  have hattempts' : (G.fitVerification limits).attempts ≤ l.verification.attempts :=
    max_le hsuffices.reserveAttempts hvAttempts
  refine ⟨max_le (max_le ?_ (largestAttempt_le hsuffices.each)) htokens, max_le ?_ hattempts,
    max_le hdeadline (TaskLimits.validate_iff.mp hsuffices.valid).2.2.1, htokens', hattempts',
    max_le hsuffices.reserveWall hvWall⟩
  · exact (Nat.add_le_add_right htokens' _).trans hsuffices.tokens
  · exact (Nat.add_le_add_right hattempts' _).trans hsuffices.attempts

/-- The limits of a fit suffice, if any repair does and an Attempt is asked for. -/
theorem suffices_fitLimits {l : TaskLimits} (h : l ∈ G.repairs limits)
    (hpos : 0 < (G.fitLimits limits).maxAttempts) : G.Suffices (G.fitLimits limits) := by
  have hsuffices := accepts_suffices h.2
  obtain ⟨hsafe, -, -, hdeadline, hwall, -, -⟩ := TaskLimits.validate_iff.mp hsuffices.valid
  obtain ⟨htokens, -, hdeadline', -, -, hwall'⟩ := fitLimits_le h
  have hreserve : (G.fitVerification limits).tokens + G.mandatoryTokens ≤
      (G.fitLimits limits).tokens := (le_max_left _ _).trans (le_max_left _ _)
  have hattempts : (G.fitVerification limits).attempts + G.mandatoryCount ≤
      (G.fitLimits limits).maxAttempts := le_max_left _ _
  refine ⟨TaskLimits.validate_iff.mpr ⟨htokens.trans hsafe, hpos, ?_, hdeadline'.trans hdeadline,
    hwall'.trans hwall, (Nat.le_add_right _ _).trans hreserve,
    (Nat.le_add_right _ _).trans hattempts⟩, hreserve, hattempts, le_max_left _ _, le_max_left _ _,
    le_max_left _ _, fun e he => ?_⟩
  · exact Nat.lt_of_lt_of_le Nat.one_pos (le_max_right _ _)
  · exact (le_largestAttempt he).trans ((le_max_right _ _).trans (le_max_left _ _))

/-- Without an Attempt to ask for, the fit asks for none. -/
theorem fitLimits_maxAttempts : (G.fitLimits limits).maxAttempts = 0 ↔ G.AsksNoAttempt limits := by
  have hmax : (G.fitLimits limits).maxAttempts =
      max (max (reserveOf G.allowances).attempts limits.verification.attempts + G.mandatoryCount)
        limits.maxAttempts := rfl
  rw [hmax]
  constructor
  · intro h
    exact ⟨by omega, by omega, by omega, by omega⟩
  · rintro ⟨h₁, h₂, h₃, h₄⟩
    omega

namespace AsksNoAttempt

variable (h : G.AsksNoAttempt limits)

include h

theorem verifies {e : String × NodeAllowance} (he : e ∈ G.allowances.entries) :
    e.2.verificationAttempts = 0 :=
  List.sum_eq_zero_iff.mp h.verification _ (List.mem_map_of_mem
    (f := fun p : String × NodeAllowance => p.2.verificationAttempts) he)

theorem reserve : reserveOf G.allowances = ⟨0, 0, 0⟩ := by
  have hzero : ∀ {name a}, G.allowances.get name = some a → a.verificationAttempts = 0 :=
    fun ha => h.verifies (OrdMap.mem_iff_get.mpr ha)
  simp only [reserveOf, VerificationReserve.mk.injEq]
  refine ⟨OrdMap.sum_eq_zero fun _ _ ha => ?_, h.verification, OrdMap.sum_eq_zero fun _ _ ha => ?_⟩
  · rw [hzero ha, Nat.mul_zero]
  · rw [hzero ha, Nat.mul_zero]

theorem once {e : String × NodeAllowance} (he : e ∈ G.paid) : G.once e.1 e.2 = 0 :=
  List.sum_eq_zero_iff.mp h.mandatory _
    (List.mem_map_of_mem (f := fun p : String × NodeAllowance => G.once p.1 p.2) he)

theorem mandatoryTokens : G.mandatoryTokens = 0 := by
  refine List.sum_eq_zero_iff.mpr fun x hx => ?_
  obtain ⟨e, he, rfl⟩ := List.mem_map.mp hx
  rw [h.once he, Nat.mul_zero]

/-- No node holds mandatory wall time. -/
theorem mandatoryWall (name : String) : G.mandatoryWall name = 0 := by
  rw [CompiledTask.mandatoryWall]
  cases hnode : G.nodes.get name with
  | none => rfl
  | some node =>
    cases hallowance : G.allowances.get name with
    | none => rfl
    | some a =>
      have honce := h.once (List.mem_append_left _ (OrdMap.mem_iff_get.mpr hallowance))
      rw [CompiledTask.once, hnode] at honce
      dsimp only at honce ⊢
      split_ifs at honce ⊢
      rfl

theorem mandatoryWallMs (hG : G.Ordered) : G.mandatoryWallMs = .ok 0 := by
  have hchain : ∀ c, G.chainWall c = 0 := by
    intro c
    refine List.sum_eq_zero_iff.mpr fun x hx => ?_
    obtain ⟨name, -, rfl⟩ := List.mem_map.mp hx
    exact h.mandatoryWall name
  rcases mandatoryPath_cases hG with ⟨-, c, -, hc⟩ | ⟨c, -, hbound, -, hpath⟩
  · rw [hchain] at hc
    exact absurd hc (by decide)
  · rw [CompiledTask.mandatoryWallMs, mandatoryPathWallMs_eq (hpath _ le_rfl) hbound, hchain]
    rfl

/-- One Attempt repairs such limits, if anything does. -/
theorem oneAttempt_accepts {l : TaskLimits} (hl : l ∈ G.repairs limits) :
    G.Accepts (G.oneAttempt limits) := by
  have hsuffices := accepts_suffices hl.2
  obtain ⟨htokens, -, hdeadline, hvTokens, -, hvWall⟩ := hl.1
  obtain ⟨hsafe, -, hdeadlinePos, hdeadlineSafe, hwall, hvLe, -⟩ :=
    TaskLimits.validate_iff.mp hsuffices.valid
  have hle : (G.oneAttempt limits).tokens ≤ l.tokens :=
    max_le (max_le (hvTokens.trans hvLe) (largestAttempt_le hsuffices.each)) htokens
  have hvLe' : limits.verification.tokens ≤ (G.oneAttempt limits).tokens :=
    (le_max_left _ _).trans (le_max_left _ _)
  have hreserved := h.reserved
  refine accepts_of_suffices hl.2 ⟨TaskLimits.validate_iff.mpr ⟨hle.trans hsafe, Nat.one_pos,
    Nat.lt_of_lt_of_le Nat.one_pos (le_max_right _ _),
    (max_le hdeadline hdeadlinePos).trans hdeadlineSafe, hvWall.trans hwall, hvLe', ?_⟩,
    ?_, ?_, ?_, ?_, ?_, fun e he => ?_⟩
  · exact hreserved.trans_le (Nat.zero_le _)
  · rw [h.mandatoryTokens]
    exact hvLe'
  · rw [h.mandatory]
    exact hreserved.trans_le (Nat.zero_le _)
  · rw [h.reserve]
    exact Nat.zero_le _
  · rw [h.reserve]
    exact Nat.zero_le _
  · rw [h.reserve]
    exact Nat.zero_le _
  · exact (le_largestAttempt he).trans ((le_max_right _ _).trans (le_max_left _ _))

theorem oneAttempt_mem (haccepts : G.Accepts (G.oneAttempt limits)) :
    G.oneAttempt limits ∈ G.repairs limits := by
  refine ⟨⟨le_max_right _ _, ?_, le_max_left _ _, le_rfl, le_rfl, le_rfl⟩, haccepts⟩
  rw [h.supplied]
  exact Nat.zero_le _

/-- The fit of such limits is computed, and gives a reason. -/
theorem limitsFit (hG : G.Ordered) (haccepts : G.Accepts (G.oneAttempt limits)) (wallMs : ℕ) :
    ∃ fit, G.limitsFit limits wallMs = .ok fit ∧ fit.unfixable ≠ [] := by
  have hsuffices := accepts_suffices haccepts
  obtain ⟨hsafe, -, -, -, hwall, hvLe, -⟩ := TaskLimits.validate_iff.mp hsuffices.valid
  have hsafeBound : safeIntegerMax + fitWallStartMs < u64Bound := by decide
  have hreserves : G.verificationReserves = .ok [] := by
    obtain ⟨B, hB⟩ := haccepts
    obtain ⟨_, -, hB⟩ := bind_eq_ok.mp hB
    obtain ⟨_, -, hB⟩ := bind_eq_ok.mp hB
    obtain ⟨_, -, hB⟩ := bind_eq_ok.mp hB
    obtain ⟨allowances, hallowances, -⟩ := bind_eq_ok.mp hB
    obtain ⟨hreserve, -, -⟩ := executionAllowances_cases hallowances
    rw [h.reserve] at hreserve
    have hzero := congrArg VerificationReserve.attempts hreserve
    have hnone : (allowances.entries.filter fun e => 0 < e.2.verificationAttempts) = [] := by
      refine List.filter_eq_nil_iff.mpr fun e he => ?_
      have := List.sum_eq_zero_iff.mp hzero _ (List.mem_map_of_mem
        (f := fun p : String × NodeAllowance => p.2.verificationAttempts) he)
      simp [this]
    rw [verificationReserves, hallowances, ok_bind, hnone]
    rfl
  have hmandatory : ∃ acc, G.paid.foldlM G.addMandatory ((0, 0), 0) = .ok acc := by
    obtain ⟨B, hB⟩ := haccepts
    obtain ⟨_, -, hB⟩ := bind_eq_ok.mp hB
    obtain ⟨_, -, hB⟩ := bind_eq_ok.mp hB
    obtain ⟨_, hminimum, -⟩ := bind_eq_ok.mp hB
    obtain ⟨m, hm, -⟩ := bind_eq_ok.mp hminimum
    have hstep : ∀ m e m' (acc : (ℕ × ℕ) × ℕ), e ∈ G.paid → True → G.addNode m e = .ok m' →
        ∃ acc', G.addMandatory acc e = .ok acc' ∧ True := by
      rintro m ⟨name, a⟩ m' ⟨⟨tokens, attempts⟩, largest⟩ he - hstep
      have honce := h.once he
      rw [CompiledTask.once] at honce
      rw [addNode] at hstep
      rw [addMandatory]
      cases hnode : G.nodes.get name with
      | none =>
        rw [hnode] at hstep
        cases hstep
      | some node =>
        rw [hnode] at honce
        dsimp only at honce ⊢
        split_ifs at honce ⊢
        exact ⟨_, rfl, trivial⟩
    rw [minimum] at hm
    obtain ⟨acc, hacc, -⟩ := foldlM_simulates (R := fun _ _ => True) hstep trivial hm
    exact ⟨acc, hacc⟩
  obtain ⟨acc, hacc⟩ := hmandatory
  cases foldlM_addMandatory hacc
  have hvTokens : limits.verification.tokens ≤ safeIntegerMax := hvLe.trans hsafe
  have hvWall : limits.verification.wallMs ≤ safeIntegerMax := hwall
  have htotal : addResource (max 0 limits.verification.tokens) G.mandatoryTokens =
      .ok limits.verification.tokens :=
    addResource_eq_ok.mpr ⟨by rw [h.mandatoryTokens]; omega, by rw [h.mandatoryTokens]; omega⟩
  have hattempts : checked u32Bound "Task Attempt total overflow"
      (max 0 limits.verification.attempts + G.mandatoryCount) = .ok 0 := by
    rw [h.reserved, h.mandatory]
    rfl
  have hneeded : addResource 0 (max 0 limits.verification.wallMs) =
      .ok limits.verification.wallMs :=
    addResource_eq_ok.mpr ⟨by omega, by omega⟩
  obtain ⟨wall, hfit, hwallLe⟩ : ∃ wall, fitWall wallMs limits.verification.wallMs = .ok wall ∧
      wallMs ≤ wall := by
    rw [fitWall]
    split_ifs with hlt
    · exact ⟨_, addResource_eq_ok.mpr ⟨by omega, rfl⟩, by omega⟩
    · exact ⟨wallMs, rfl, le_rfl⟩
  obtain ⟨fit, hok⟩ : ∃ fit, G.limitsFit limits wallMs = .ok fit := by
    rw [CompiledTask.limitsFit]
    refine ⟨_, bind_eq_ok.mpr ⟨_, hreserves, bind_eq_ok.mpr ⟨_, rfl,
      bind_eq_ok.mpr ⟨_, h.mandatoryWallMs hG, bind_eq_ok.mpr ⟨_, hacc,
      bind_eq_ok.mpr ⟨_, htotal, bind_eq_ok.mpr ⟨_, hattempts, bind_eq_ok.mpr ⟨_, hneeded,
      bind_eq_ok.mpr ⟨_, hfit, bind_eq_ok.mpr ⟨(), require_eq_ok.mpr ?_, rfl⟩⟩⟩⟩⟩⟩⟩⟩⟩⟩
    simp [hwallLe, h.reserved]
  refine ⟨fit, hok, fun hnone => ?_⟩
  have hvalid := (accepts_suffices ((limitsFit_eq_ok hok).2.mp hnone)).valid
  have hpos := (TaskLimits.validate_iff.mp hvalid).2.1
  rw [fitLimits_maxAttempts.mpr h] at hpos
  exact absurd hpos (lt_irrefl 0)

end AsksNoAttempt

/-- **The fit is the least repair**, exactly unless the plan and the supplied limits ask for no
Attempt at all, while one Attempt would do: the deadline is raised to one and the Attempts are not,
so that the fit is refused and the refusal reported as one no limits can fix. -/
theorem limits_fit_repairs (G : CompiledTask) (hG : G.Ordered) (limits : TaskLimits)
    (wallMs : ℕ) : G.FitRepairs limits wallMs ↔
      ¬ (G.AsksNoAttempt limits ∧ G.Accepts (G.oneAttempt limits)) := by
  constructor
  · rintro hrepairs ⟨hasks, haccepts⟩
    obtain ⟨fit, hfit, hreasons⟩ := hasks.limitsFit hG haccepts wallMs
    have hempty := (hrepairs fit hfit).2 hreasons
    have hmem := hasks.oneAttempt_mem haccepts
    rw [hempty] at hmem
    exact hmem
  · intro hexcept fit hfit
    obtain ⟨hlimits, hreasons⟩ := limitsFit_eq_ok hfit
    rw [hlimits]
    constructor
    · intro hnone
      exact ⟨⟨le_fitLimits G limits, hreasons.mp hnone⟩, fun l hl => fitLimits_le hl⟩
    · intro hsome
      refine Set.eq_empty_iff_forall_notMem.mpr fun l hl => ?_
      rcases Nat.eq_zero_or_pos (G.fitLimits limits).maxAttempts with hzero | hpos
      · have hasks := fitLimits_maxAttempts.mp hzero
        exact hexcept ⟨hasks, hasks.oneAttempt_accepts hl⟩
      · exact hsome (hreasons.mpr (accepts_of_suffices hl.2 (suffices_fitLimits hl hpos)))

/-- A plan that only seals its input: no node of it is paid. -/
def sealOnly : CompiledTask where
  schema := "af.compiled-task/1"
  nodes := .ofList [
    ("root.inputs", {
      operator := .rootInputs
      contract := { outputs := .ofList [("draft", { artifactType := "af/Draft@1" })] } }),
    ("root.nodes.seal", {
      operator := .primitive .documentSeal "seal"
      contract := {
        inputs := .ofList [("draft", { artifactType := "af/Draft@1" })]
        outputs := .ofList [("document", { artifactType := "af/Document@1" })] }
      inputs := .ofList [("draft", ⟨"root.inputs", "draft"⟩)] })]
  order := ["root.inputs", "root.nodes.seal"]
  calls := .ofList [("root", ⟨1, 1⟩)]

theorem sealOnly_ordered : sealOnly.Ordered := by
  have hplan : (do let P ← sealOnly.schedulerPlan; .ok P.order) =
      (.ok sealOnly.order : Except String (List String)) := by
    decide
  obtain ⟨P, hP, horder⟩ := bind_eq_ok.mp hplan
  exact ⟨P, hP, (Except.ok.inj horder).symm⟩

/-- With an Attempt left the fit repairs the limits; with none it does not. -/
theorem limits_fit_repairs_seal :
    sealOnly.FitRepairs ⟨10, 1, 0, ⟨0, 0, 0⟩⟩ 1000 ∧
      ¬ sealOnly.FitRepairs ⟨10, 0, 1, ⟨0, 0, 0⟩⟩ 1000 := by
  have haccepts : sealOnly.Accepts (sealOnly.oneAttempt ⟨10, 0, 1, ⟨0, 0, 0⟩⟩) := by
    have hbudget : (sealOnly.budget (sealOnly.oneAttempt ⟨10, 0, 1, ⟨0, 0, 0⟩⟩)).toOption.isSome =
        true := by
      decide
    obtain ⟨B, hB⟩ := Option.isSome_iff_exists.mp hbudget
    exact ⟨B, toOption_eq_some.mp hB⟩
  constructor
  · rw [limits_fit_repairs sealOnly sealOnly_ordered]
    rintro ⟨⟨hsupplied, -, -, -⟩, -⟩
    exact absurd hsupplied (by decide)
  · rw [limits_fit_repairs sealOnly sealOnly_ordered, not_not]
    exact ⟨⟨rfl, rfl, by decide, by decide⟩, haccepts⟩

/-- The Attempts of a Task are spent, and its plan needs none. The fit names a refusal no limits
fix, but the budget accepts the limits with one Attempt more. -/
theorem spent_limits_not_repaired :
    (∃ fit, sealOnly.limitsFit ⟨10, 0, 1, ⟨0, 0, 0⟩⟩ 1000 = .ok fit ∧
      fit.unfixable =
        ["Task limits must be safe integers and include the protected verification reserve"]) ∧
    (⟨10, 0, 1, ⟨0, 0, 0⟩⟩ : TaskLimits) ≤ ⟨10, 1, 1, ⟨0, 0, 0⟩⟩ ∧
    ∃ B, sealOnly.budget ⟨10, 1, 1, ⟨0, 0, 0⟩⟩ = .ok B := by
  refine ⟨?_, by simp [TaskLimits.le_iff], ?_⟩
  · have hfit : (do let fit ← sealOnly.limitsFit ⟨10, 0, 1, ⟨0, 0, 0⟩⟩ 1000; .ok fit.unfixable) =
        (.ok ["Task limits must be safe integers and include the protected verification reserve"] :
          Except TaskBudgetError (List String)) := by
      decide
    obtain ⟨fit, hfit, hreasons⟩ := bind_eq_ok.mp hfit
    exact ⟨fit, hfit, Except.ok.inj hreasons⟩
  · have hbudget : (sealOnly.budget ⟨10, 1, 1, ⟨0, 0, 0⟩⟩).toOption.isSome = true := by
      decide
    obtain ⟨B, hB⟩ := Option.isSome_iff_exists.mp hbudget
    exact ⟨B, toOption_eq_some.mp hB⟩

end CompiledTask

end Afactory
