import Mathlib
import Afactory.ChargeLedgers
import Afactory.PlannedGraphs

/-!
# A gate retry reopens only the gate

`failed_gates` and `apply_gate_retried` of `review-store/src/store/task/gate_retry.rs`.

* `Cleared`: the gates and what depends on them;
* `Reopened`: what reopening the gates one after the other does;
* `Grants`: a budget admits an Attempt of every gate, one after the other;
* `gate_retry_reopens_only_the_gates`: an accepted retry of an accepted log.
-/

namespace Afactory

variable {cas : Cas}

namespace OrdMap

/-- Erasing keys leaves the rest as it was. -/
theorem get_foldl_erase {K V : Type*} [LinearOrder K] (ks : List K) (m : OrdMap K V) (k : K) :
    (ks.foldl erase m).get k = if k ∈ ks then none else m.get k := by
  induction ks generalizing m with
  | nil => simp
  | cons k' ks ih =>
    rw [List.foldl_cons, ih, get_erase]
    by_cases hk : k ∈ ks
    · simp [hk]
    · by_cases heq : k = k' <;> simp [hk, heq]

end OrdMap

namespace TaskExecutionProjection

/-! ## What a retry clears -/

/-- The gates, and what depends on one of them. -/
def Cleared (G : CompiledTask) (gates : List String) (node : String) : Prop :=
  ∃ gate ∈ gates, G.Later gate node

/-- What depends on one of the gates, but for the gate itself. -/
def After (G : CompiledTask) (gates : List String) (node : String) : Prop :=
  ∃ gate ∈ gates, node ≠ gate ∧ G.Later gate node

/-- What reads something cleared is cleared. -/
theorem Cleared.reads {G : CompiledTask} {gates : List String} {x y : String}
    (h : Cleared G gates x) (hreads : G.DependsOn x y) : Cleared G gates y := by
  obtain ⟨gate, hgate, hlater⟩ := h
  exact ⟨gate, hgate, hlater.tail hreads⟩

/-- The account of a node that is allowed more Attempts. -/
def widened (attempts : ℕ) (a : NodeAccount) : NodeAccount :=
  { a with allowance := { a.allowance with maxAttempts := a.allowance.maxAttempts + attempts } }

theorem widened_zero : widened 0 = id := rfl

theorem widened_add (m n : ℕ) : widened n ∘ widened m = widened (m + n) := by
  funext a
  simp [widened, Nat.add_assoc]

/-- What reopening gates clears, and what it keeps. -/
structure Reopened (E E' : TaskExecutionProjection) (gates : List String) : Prop where
  cleared : ∀ node, Cleared E.graph gates node → E'.outputs.get node = none
  outputs : ∀ node, ¬ Cleared E.graph gates node → E'.outputs.get node = E.outputs.get node
  uninvoked : ∀ node, After E.graph gates node → E'.invocations.get node = none
  invocations : ∀ node, ¬ After E.graph gates node →
    E'.invocations.get node = E.invocations.get node
  retired : ∀ id, id ∈ E'.retired ↔ id ∈ E.retired ∨ ∃ a, E.attempts.get id = some a ∧
    Cleared E.graph gates a.reservation.node ∧ a.succeededOutput.isSome
  -- the Attempts and their ledger, the owned children and the graph stay
  rest : E' = { E with
    outputs := E'.outputs, invocations := E'.invocations, retired := E'.retired
    budget := E'.budget }
  -- so do the reservations and the ledger of the tokens
  budget : E'.budget = { E.budget with nodes := E'.budget.nodes }
  accounts : ∀ node, E'.budget.nodes.get node =
    (E.budget.nodes.get node).map (widened (gates.count node))

theorem Reopened.refl (E : TaskExecutionProjection) : Reopened E E [] where
  cleared := fun _ ⟨_, hgate, _⟩ => absurd hgate List.not_mem_nil
  outputs := fun _ _ => rfl
  uninvoked := fun _ ⟨_, hgate, _⟩ => absurd hgate List.not_mem_nil
  invocations := fun _ _ => rfl
  retired := fun id => by simp [Cleared]
  rest := rfl
  budget := rfl
  accounts := fun node => by simp [widened_zero]

theorem allowRetry_eq_ok {B B' : TaskBudget} {gate : String}
    (h : B.allowRetry gate = some (.ok (), B')) :
    ∃ a, B.nodes.get gate = some a ∧
      B' = { B with nodes := B.nodes.insert gate (widened 1 a) } := by
  rw [TaskBudget.allowRetry] at h
  split at h
  · cases h
  · rename_i a ha
    split_ifs at h
    · cases h
      exact ⟨a, ha, rfl⟩
    · cases h

/-- One gate. -/
theorem reopenGate_reopened {E : TaskExecutionProjection} {budget : TaskBudget} {gate : String}
    (h : E.budget.allowRetry gate = some (.ok (), budget)) :
    Reopened E { E.reopenGate gate with budget := budget } [gate] := by
  obtain ⟨a, ha, rfl⟩ := allowRetry_eq_ok h
  have hcleared : ∀ node, Cleared E.graph [gate] node ↔
      node = gate ∨ node ∈ E.graph.downstreamOf gate := fun node => by
    simp only [Cleared, List.mem_singleton, exists_eq_left]
    exact CompiledTask.later_iff
  have hafter : ∀ node, After E.graph [gate] node ↔ node ∈ E.graph.downstreamOf gate :=
    fun node => by
      simp only [After, List.mem_singleton, exists_eq_left]
      exact CompiledTask.mem_downstreamOf.symm
  have houtputs : ∀ node, (E.reopenGate gate).outputs.get node =
      if node ∈ E.graph.downstreamOf gate then none
      else if node = gate then none else E.outputs.get node := fun node => by
    exact (OrdMap.get_foldl_erase (E.graph.downstreamOf gate) _ node).trans
      (by rw [OrdMap.get_erase])
  have hinvocations : ∀ node, (E.reopenGate gate).invocations.get node =
      if node ∈ E.graph.downstreamOf gate then none else E.invocations.get node := fun node => by
    exact OrdMap.get_foldl_erase (E.graph.downstreamOf gate) E.invocations node
  refine ⟨fun node hnode => ?_, fun node hnode => ?_, fun node hnode => ?_, fun node hnode => ?_,
    fun id => ?_, rfl, rfl, fun node => ?_⟩
  · rw [houtputs]
    rcases (hcleared node).mp hnode with rfl | hmem
    · simp
    · rw [if_pos hmem]
  · rw [hcleared, not_or] at hnode
    rw [houtputs, if_neg hnode.2, if_neg hnode.1]
  · rw [hinvocations, if_pos ((hafter node).mp hnode)]
  · rw [hinvocations, if_neg fun hmem => hnode ((hafter node).mpr hmem)]
  · simp only [reopenGate, Finset.mem_union, List.mem_toFinset, List.mem_map, List.mem_filter,
      hcleared, Bool.and_eq_true, Bool.or_eq_true, decide_eq_true_eq, List.contains_eq_mem,
      Prod.exists, OrdMap.mem_iff_get]
    refine or_congr_right ⟨?_, ?_⟩
    · rintro ⟨_, b, ⟨hb, hnode, hsome⟩, rfl⟩
      exact ⟨b, hb, hnode, hsome⟩
    · rintro ⟨b, hb, hnode, hsome⟩
      exact ⟨id, b, ⟨hb, hnode, hsome⟩, rfl⟩
  · rw [OrdMap.get_insert]
    by_cases hnode : node = gate
    · subst hnode
      simp [ha]
    · simp [hnode, Ne.symm hnode, widened_zero]

/-- One gate after the others. -/
theorem Reopened.trans {E₁ E₂ E₃ : TaskExecutionProjection} {front back : List String}
    (h : Reopened E₁ E₂ front) (h' : Reopened E₂ E₃ back) : Reopened E₁ E₃ (front ++ back) := by
  have hgraph : E₂.graph = E₁.graph := by rw [h.rest]
  have hattempts : E₂.attempts = E₁.attempts := by rw [h.rest]
  have hcleared : ∀ node, Cleared E₁.graph (front ++ back) node ↔
      Cleared E₁.graph front node ∨ Cleared E₂.graph back node := fun node => by
    simp only [Cleared, hgraph, List.mem_append, or_and_right, exists_or]
  have hafter : ∀ node, After E₁.graph (front ++ back) node ↔
      After E₁.graph front node ∨ After E₂.graph back node := fun node => by
    simp only [After, hgraph, List.mem_append, or_and_right, exists_or]
  refine ⟨fun node hnode => ?_, fun node hnode => ?_, fun node hnode => ?_, fun node hnode => ?_,
    fun id => ?_, ?_, ?_, fun node => ?_⟩
  · by_cases hback : Cleared E₂.graph back node
    · exact h'.cleared node hback
    · rw [h'.outputs node hback]
      exact h.cleared node (((hcleared node).mp hnode).resolve_right hback)
  · rw [hcleared, not_or] at hnode
    rw [h'.outputs node hnode.2, h.outputs node hnode.1]
  · by_cases hback : After E₂.graph back node
    · exact h'.uninvoked node hback
    · rw [h'.invocations node hback]
      exact h.uninvoked node (((hafter node).mp hnode).resolve_right hback)
  · rw [hafter, not_or] at hnode
    rw [h'.invocations node hnode.2, h.invocations node hnode.1]
  · simp only [h'.retired, h.retired, hattempts, hcleared, or_and_right, and_or_left, exists_or,
      or_assoc]
  · rw [h'.rest, h.rest]
  · rw [h'.budget, h.budget]
  · rw [h'.accounts, h.accounts, Option.map_map, widened_add, List.count_append]

end TaskExecutionProjection

namespace TaskState

open TaskExecutionProjection

theorem reopenGates_reopened {E E' : TaskExecutionProjection} {gates : List RetriedGate}
    (h : reopenGates E gates = .ok E') : Reopened E E' (gates.map RetriedGate.node) := by
  induction gates generalizing E with
  | nil =>
    obtain rfl := Except.ok.inj h
    exact .refl E
  | cons gate gates ih =>
    rw [reopenGates, List.foldlM_cons] at h
    obtain ⟨E₁, hgate, h⟩ := bind_eq_ok.mp h
    obtain ⟨⟨⟨⟩, budget⟩, hbudget, hgate⟩ := bind_eq_ok.mp hgate
    cases hgate
    exact (@reopenGate_reopened E budget gate.node (budgetReply_eq_ok.mp hbudget)).trans (ih h)

/-! ## The Attempts of the gates -/

/-- The budget admits an Attempt of every gate, one after the other. -/
def Grants (time : ℕ) : TaskBudget → List String → Prop
  | _, [] => True
  | B, gate :: gates => ∃ given B', B.prepare gate time = some (.ok given, B') ∧
      given.node = gate ∧ Grants time B' gates

theorem prepare_node {B B' : TaskBudget} {node : String} {time : ℕ} {given : TaskReservation}
    (h : B.prepare node time = some (.ok given, B')) : given.node = node := by
  rw [TaskBudget.prepare] at h
  split at h
  · cases h
  · obtain ⟨⟨reply, tokens⟩, -, h⟩ := Option.map_eq_some_iff.mp h
    cases reply with
    | error e => cases h
    | ok r =>
      cases h
      rfl

/-- A budget that refuses no gate grants them. -/
theorem prepareRetries_grants {refusal : String → TaskBudgetError → StoreError} {time : ℕ}
    {B : TaskBudget} {gates : List String} {reply : Option String}
    (h : prepareRetries (fun gate e => .inl (refusal gate e)) time B gates = .ok reply) :
    Grants time B gates := by
  induction gates generalizing B with
  | nil => trivial
  | cons gate gates ih =>
    rw [prepareRetries] at h
    split at h
    · cases h
    · rename_i given B' hprepare
      exact ⟨given, B', hprepare, prepare_node hprepare, ih h⟩
    · cases h

/-! ## The failed gates -/

theorem filterAuxM_sublist {α ε : Type} {f : α → Except ε Bool} {l acc kept : List α}
    (h : l.filterAuxM f acc = .ok kept) :
    ∃ new : List α, kept = new.reverse ++ acc ∧ new.Sublist l := by
  induction l generalizing acc with
  | nil =>
    cases h
    exact ⟨[], rfl, .slnil⟩
  | cons x l ih =>
    rw [List.filterAuxM] at h
    obtain ⟨b, -, h⟩ := bind_eq_ok.mp h
    obtain ⟨new, rfl, hsub⟩ := ih h
    cases b with
    | true => exact ⟨x :: new, by simp, hsub.cons_cons x⟩
    | false => exact ⟨new, by simp, hsub.cons x⟩

/-- The failed checks stand in the order of the graph. -/
theorem failedChecks_sublist {E : TaskExecutionProjection} {failed : List String}
    (h : failedChecks cas E = .ok failed) : failed.Sublist E.graph.order := by
  obtain ⟨kept, hkept, h⟩ := bind_eq_ok.mp h
  obtain ⟨new, rfl, hsub⟩ := filterAuxM_sublist hkept
  cases h
  simpa using hsub

/-- The gates of a retry are failed checks, and none depends on another. -/
structure Gates (E : TaskExecutionProjection) (gates : List String) : Prop where
  sublist : gates.Sublist E.graph.order
  apart : ∀ gate ∈ gates, ∀ other ∈ gates, other ≠ gate → ¬ E.graph.Later gate other

theorem executionGates_gates {S : TaskState} {E : TaskExecutionProjection} {now : ℕ}
    {gates : List String} (h : S.executionGates cas E now = .ok (.gates gates)) :
    Gates E gates := by
  obtain ⟨failed, hfailed, h⟩ := bind_eq_ok.mp h
  dsimp only at h
  split at h
  · cases h
  split at h
  · cases h
  obtain ⟨captured, -, h⟩ := bind_eq_ok.mp h
  split at h
  · cases h
  obtain ⟨refusal, -, h⟩ := bind_eq_ok.mp h
  cases refusal with
  | some why => cases h
  | none =>
    cases h
    refine ⟨List.filter_sublist.trans (failedChecks_sublist hfailed), ?_⟩
    intro gate hgate other hother hne hlater
    have hfirst := (List.mem_filter.mp hother).2
    simp only [Bool.not_eq_true', List.any_eq_false, List.contains_eq_mem, decide_eq_true_eq]
      at hfirst
    exact hfirst gate (List.mem_filter.mp hgate).1
      (CompiledTask.mem_downstreamOf.mpr ⟨hne, hlater⟩)

theorem failedGates_gates {S : TaskState} {now : ℕ} {gates : List String}
    (h : S.failedGates cas now = .ok (.gates gates)) :
    ∃ E, S.execution = some E ∧ Gates E gates := by
  rw [failedGates] at h
  split at h
  · obtain ⟨result, -, h⟩ := bind_eq_ok.mp h
    split at h
    · cases h
    split at h
    · cases h
    split at h
    · cases h
    · rename_i E hE
      exact ⟨E, hE, executionGates_gates h⟩
  · cases h

/-- In an ordered graph no gate reads what the retry clears, its own branch included. -/
theorem Gates.not_reads {E : TaskExecutionProjection} {gates : List String} (h : Gates E gates)
    (hordered : E.graph.Ordered) {x gate : String} (hx : Cleared E.graph gates x)
    (hgate : gate ∈ gates) : ¬ E.graph.DependsOn x gate := by
  intro hreads
  obtain ⟨other, hother, hlater⟩ := hx
  by_cases heq : other = gate
  · subst heq
    exact hordered.not_later_self hreads hlater
  · exact h.apart other hother gate hgate (Ne.symm heq) (hlater.tail hreads)

theorem Gates.not_after {E : TaskExecutionProjection} {gates : List String} (h : Gates E gates)
    {gate : String} (hgate : gate ∈ gates) : ¬ After E.graph gates gate := by
  rintro ⟨other, hother, hne, hlater⟩
  exact h.apart other hother gate hgate hne hlater

/-- **A gate retry reopens only the gates.** An accepted retry of an accepted log clears the outputs
of the failed gates and of what depends on them, and the invocations of the latter; whatever reads
something cleared is cleared. Every Attempt, charge and reservation stays, the budget allows one
more Attempt of each gate, and at the time of the retry it grants them all. -/
theorem gate_retry_reopens_only_the_gates (hcas : cas.PlansOrder) {taskId : String}
    {log : List RunEvent} {S S' : TaskState} (hS : ofLog cas taskId log = some S)
    {event : RunEvent} {retry : GateRetried} (h : S.applyGateRetried cas event retry = .ok S') :
    ∃ (E E' : TaskExecutionProjection) (gates : List String) (time : ℕ),
      time = S.leaseTime retry.writer retry.epoch retry.nowUnixMs ∧
      S.execution = some E ∧ S.phase = .finished retry.resultId ∧
      S.failedGates cas time = .ok (.gates gates) ∧ gates = retry.gates.map RetriedGate.node ∧
      gates.Nodup ∧
      S' = { S with
        execution := some E'
        phase := .running
        gateRetries := S.gateRetries ++ [retry] }.recorded event time ∧
      Reopened E E' gates ∧
      (E'.attempts = E.attempts ∧ E'.ledger = E.ledger ∧ E'.budget.tokens = E.budget.tokens ∧
        E'.budget.reservations = E.budget.reservations) ∧
      (∀ x y, Cleared E.graph gates x → E.graph.DependsOn x y →
        E'.outputs.get y = none ∧ E'.invocations.get y = none) ∧
      (∀ gate ∈ gates, E'.invocations.get gate = E.invocations.get gate) ∧
      Grants time E'.budget gates := by
  obtain ⟨_, -, h⟩ := bind_eq_ok.mp h
  obtain ⟨_, -, h⟩ := bind_eq_ok.mp h
  obtain ⟨_, -, h⟩ := bind_eq_ok.mp h
  obtain ⟨_, hcheck, h⟩ := bind_eq_ok.mp h
  obtain ⟨E, hE, h⟩ := bind_eq_ok.mp h
  obtain ⟨_, -, h⟩ := bind_eq_ok.mp h
  obtain ⟨E', hE', h⟩ := bind_eq_ok.mp h
  obtain ⟨_, hgrants, h⟩ := bind_eq_ok.mp h
  cases h
  have hE := orConflict_eq_ok.mp hE
  obtain ⟨_, -, hcheck⟩ := bind_eq_ok.mp hcheck
  obtain ⟨_, hphase, hcheck⟩ := bind_eq_ok.mp hcheck
  obtain ⟨_, -, hcheck⟩ := bind_eq_ok.mp hcheck
  obtain ⟨reply, hfailed, hcheck⟩ := bind_eq_ok.mp hcheck
  cases reply with
  | refused why => cases hcheck
  | gates gates =>
    obtain ⟨_, hnamed, -⟩ := bind_eq_ok.mp hcheck
    have hnamed : gates = retry.gates.map RetriedGate.node :=
      of_decide_eq_true (requireConflict_eq_ok.mp hnamed)
    obtain ⟨E₁, hE₁, hgates⟩ := failedGates_gates hfailed
    obtain rfl := Option.some.inj (hE.symm.trans hE₁)
    have hordered := ofLog_ordered hcas hS hE
    have hreopened := reopenGates_reopened hE'
    have hgranted := prepareRetries_grants hgrants
    rw [← hnamed] at hreopened hgranted
    refine ⟨E, E', gates, _, rfl, hE, of_decide_eq_true (requireConflict_eq_ok.mp hphase), hfailed,
      hnamed, hordered.topological.nodup.sublist hgates.sublist, rfl, hreopened, ⟨?_, ?_, ?_, ?_⟩,
      fun x y hx hreads => ?_, fun gate hgate => ?_, hgranted⟩
    · rw [hreopened.rest]
    · rw [hreopened.rest]
    · rw [hreopened.budget]
    · rw [hreopened.budget]
    · have hy := hx.reads hreads
      refine ⟨hreopened.cleared y hy, hreopened.uninvoked y ?_⟩
      obtain ⟨gate, hgate, hlater⟩ := hy
      refine ⟨gate, hgate, fun heq => ?_, hlater⟩
      exact hgates.not_reads hordered hx (heq ▸ hgate) hreads
    · exact hreopened.invocations gate (hgates.not_after hgate)

/-! ### A failed check -/

def receiptPort : PipelinePort := { artifactType := "af/TaskCheckReceipt@2" }

/-- A check with one Attempt, and a node that reads its receipt. -/
def gateGraph : CompiledTask where
  schema := "af.compiled-task/1"
  nodes := .ofList [
    ("root.accept", {
      operator := .primitive .accept "accept"
      contract := { inputs := .ofList [("check", receiptPort)] }
      inputs := .ofList [("check", ⟨"root.work", "result"⟩)] }),
    ("root.work", {
      operator := .primitive (.check ["test"] []) "check"
      contract := { outputs := .ofList [("result", receiptPort)] } })]
  order := ["root.work", "root.accept"]
  allowances := .ofList [("root.work", ⟨10, 50, 1, 0⟩)]

def gateReceipt : ArtifactInput where
  artifactIds := ["receipt"]
  artifactType := "af/TaskCheckReceipt@2"

def gateRecords : List ExecutionRecord := startRecords ++ [
  .settled { attemptId := firstAttempt, chargedTokens := 7, result := .succeeded "output" },
  .published "output" (some firstAttempt),
  .invocation "accept",
  .published "accepted" none]

/-- The store of its Task, whose planner is the graph's. -/
def gateCas : Cas :=
  { workCas gateRecords with
    compiledTask := fun _ => .ok gateGraph
    schedulerOrder := fun G => (G.schedulerPlan.map Planned.order).mapError .conflict
    invocation := fun id => .ok (if id = "accept" then
        { planId := "plan", node := "root.accept", inputs := .ofList [("check", gateReceipt)] }
      else { planId := "plan", node := "root.work" })
    output := fun id => .ok (if id = "accepted" then { invocationId := "accept" }
      else { invocationId := "invocation", outputs := .ofList [("result", gateReceipt)] })
    taskResult := fun _ => .ok {
      taskRevisionId := "revision", execution := .completed, acceptance := .unsatisfied }
    checkPassed := fun _ => .ok false }

theorem gateCas_plansOrder : gateCas.PlansOrder := by
  intro G order h
  obtain ⟨P, hP, rfl⟩ : ∃ P, G.schedulerPlan = .ok P ∧ P.order = order := by
    have h := mapError_eq_ok.mp h
    cases hplan : G.schedulerPlan with
    | error e =>
      rw [hplan] at h
      cases h
    | ok P =>
      rw [hplan] at h
      exact ⟨P, rfl, Except.ok.inj h⟩
  exact ⟨P, hP, rfl⟩

/-- The check fails, what reads its receipt is published too, and the Task finishes. -/
def gateLog : List RunEvent :=
  workLog gateRecords ++ [workEvent 11 "first" 1 (.finished "result")]

def gateRetry : GateRetried where
  writer := "first"
  epoch := 1
  nowUnixMs := 12
  resultId := "result"
  gates := [⟨"root.work", "output"⟩]

def gateEvent : RunEvent :=
  { workEvent 12 "first" 1 .resumed with
    artifactRefs := gateRetry.artifactRefs
    payload := .gateRetried gateRetry }

theorem gate_retry_reopens_only_the_gates_check :
    ∃ S S' E E', ofLog gateCas "task-1" gateLog = some S ∧
      S.applyGateRetried gateCas gateEvent gateRetry = .ok S' ∧ S.execution = some E ∧
      Reopened E E' ["root.work"] ∧ Grants 12 E'.budget ["root.work"] := by
  have hfacts : (ofLog gateCas "task-1" gateLog).map (fun S =>
      decide (S.leaseTime gateRetry.writer gateRetry.epoch gateRetry.nowUnixMs = 12) &&
        (S.applyGateRetried gateCas gateEvent gateRetry).toOption.isSome) = some true := by
    decide +kernel
  obtain ⟨S, hS, hfacts⟩ := Option.map_eq_some_iff.mp hfacts
  obtain ⟨htime, haccepted⟩ := Bool.and_eq_true_iff.mp hfacts
  obtain ⟨S', hS'⟩ := Option.isSome_iff_exists.mp haccepted
  have hS' := toOption_eq_some.mp hS'
  obtain ⟨E, E', gates, time, rfl, hE, -, -, rfl, -, -, hreopened, -, -, -, hgrants⟩ :=
    gate_retry_reopens_only_the_gates gateCas_plansOrder hS hS'
  rw [of_decide_eq_true htime] at hgrants
  exact ⟨S, S', E, E', hS, hS', hE, hreopened, hgrants⟩

end TaskState

end Afactory
