import Mathlib
import Afactory.ExecutionLaws

/-!
# Nothing is paid twice and no success is stranded

The invariants of an execution, read off the log it was replayed from.

* `step_record`: what an execution record in a log did to the execution;
* `ofLog_never_pays_twice`: one pending Attempt a node, one selection a node and plan,
  and every published output is a selected success;
* `ofLog_no_success_stranded`: a settled success is reusable, as long as every success
  is settled under the epoch that prepared it.
-/

namespace Afactory

namespace TaskState

open TaskExecutionProjection

variable {cas : Cas}

/-- An accepted execution record was applied to the current execution. -/
theorem step_record {S S' : TaskState} {e : RunEvent} {t : TaskTransition} {recordId : String}
    {r : ExecutionRecord} (hpay : e.payload = .transition t)
    (hchange : t.change = .executionRecorded recordId)
    (hrecord : cas.executionRecord recordId = .ok r) (h : S.step cas e = some S') :
    ∃ E E', S.currentExecution cas = .ok E ∧
      E.applyRecord cas (S.recordContext (S.writerTime t)) r = .ok E' ∧
      S'.execution = some E' := by
  have h := step_eq_some.mp h
  rw [applyEvent, hpay] at h
  obtain ⟨accounting, T, -, -, -, -, hT, rfl⟩ := apply_eq_ok h
  obtain ⟨_, htaken, -⟩ | ⟨-, -, hT⟩ := applyLeased_eq_ok hT
  · rw [hchange] at htaken
    cases htaken
  · rw [hchange] at hT
    obtain ⟨r', hr', hT⟩ := bind_eq_ok.mp hT
    rw [hrecord] at hr'
    cases hr'
    obtain ⟨_, -, hT⟩ := bind_eq_ok.mp hT
    obtain ⟨E, hE, hT⟩ := bind_eq_ok.mp hT
    obtain ⟨_, -, hT⟩ := bind_eq_ok.mp hT
    obtain ⟨E', hE', hT⟩ := bind_eq_ok.mp hT
    cases hT
    exact ⟨E, E', hE, hE', rfl⟩

/-- The states around an execution record of an accepted log. -/
theorem ofLog_split_record {taskId : String} {before after : List RunEvent} {e : RunEvent}
    {S : TaskState} {t : TaskTransition} {recordId : String} (hpay : e.payload = .transition t)
    (hchange : t.change = .executionRecorded recordId)
    (h : ofLog cas taskId (before ++ e :: after) = some S) :
    ∃ T T', ofLog cas taskId before = some T ∧ T.step cas e = some T' ∧
      ofLog cas taskId (before ++ [e]) = some T' ∧ run (step cas) T' after = some S := by
  cases before with
  | nil =>
    -- a log does not open with a record
    obtain ⟨S₀, hopen, -⟩ := ofLog_cons_eq_some.mp h
    obtain ⟨t', revisionId, leaseUntilUnixMs, hpay', hopened, -⟩ := opening_eq_ok hopen
    rw [hpay] at hpay'
    cases hpay'
    rw [hchange] at hopened
    cases hopened
  | cons first rest =>
    obtain ⟨S₀, hopen, hrun⟩ := ofLog_cons_eq_some.mp h
    obtain ⟨T, T', hT, hstep, hafter⟩ := run_split hrun
    have hbefore : ofLog cas taskId (first :: rest) = some T :=
      ofLog_cons_eq_some.mpr ⟨S₀, hopen, hT⟩
    have hstep := step_eq_some.mpr hstep
    refine ⟨T, T', hbefore, hstep, (ofLog_append_eq_some hbefore).mpr ?_, hafter⟩
    exact run_cons_eq_some.mpr ⟨T', hstep, rfl⟩

/-- In every accepted log the attempts, the ledger and the invocations agree. -/
theorem ofLog_coherent {taskId : String} {log : List RunEvent} {S : TaskState}
    (h : ofLog cas taskId log = some S) : S.Holds cas (Distinctly cas (Coherent cas)) := by
  refine ofLog_holds (fun hnew => newExecution_distinctly hnew ?_)
    (coherent_kept cas fun _ _ _ => True) (logMeets_of_forall (fun _ _ _ => trivial) taskId log) h
  obtain ⟨graph, budget, space, preparation, -, rfl⟩ := newExecution_eq_ok hnew
  exact .of_empty rfl rfl rfl

/-- An output that a log published with an Attempt is a selected success of it ever after. -/
theorem ofLog_selects {taskId : String} {before after : List RunEvent} {e : RunEvent}
    {S : TaskState} {E : TaskExecutionProjection} {t : TaskTransition} {recordId output : String}
    {r : ExecutionRecord} {id : AttemptId}
    (h : ofLog cas taskId (before ++ e :: after) = some S) (hE : S.execution = some E)
    (hd : E.ledger.IdsDistinct cas.sha256) (hpay : e.payload = .transition t)
    (hchange : t.change = .executionRecorded recordId)
    (hrecord : cas.executionRecord recordId = .ok r) (hpub : r.Publishes output id) :
    E.Selects id output := by
  obtain ⟨T, T', -, hstep, hT', hafter⟩ := ofLog_split_record hpay hchange h
  obtain ⟨E₀, E₁, -, happly, hE₁⟩ := step_record hpay hchange hrecord hstep
  have hcoherent := (ofLog_coherent hT').execution hE₁
  have hkeeps := ofLog_continues (selects_kept cas (fun _ _ _ => True) id output) hT' hE₁
    ⟨hcoherent.reached, fun hd₁ => ⟨hcoherent.holds hd₁, Selects.of_publishes hpub happly⟩⟩
    (stepsMeet_of_forall (fun _ _ _ _ _ _ _ _ _ _ => trivial) T' after) hafter
  exact ((hkeeps.execution hE).holds hd).2

/-- A new execution has no Attempts to pay. -/
theorem newExecution_paysOnce {S : TaskState} {E : TaskExecutionProjection}
    (h : S.newExecution cas = .ok E) : E.PaysOnce cas := by
  have hlinked := newExecution_linked h
  obtain ⟨graph, budget, space, preparation, -, rfl⟩ := newExecution_eq_ok h
  exact ⟨hlinked, .of_empty rfl rfl rfl, ⟨nofun⟩⟩

/-- **Task execution never pays twice.** In every accepted log whose records release at
most once under a pending Attempt: a pending Attempt is the only one of its node and the
ledger's running one, so that fencing the node hits no other; a node and a plan have one
unretired selection at most; and every output published with an Attempt is the output of
its successful settlement, which the ledger selected. -/
theorem ofLog_never_pays_twice {taskId : String} {log : List RunEvent} {S : TaskState}
    {E : TaskExecutionProjection} (h : ofLog cas taskId log = some S) (hE : S.execution = some E)
    (hd : E.ledger.IdsDistinct cas.sha256) (hmeet : LogMeets cas ReleasesOnce taskId log) :
    (∀ id a, E.attempts.get id = some a → a.pending = true →
        E.ledger.Runs id a.reservation.node ∧
        (∀ id' b, E.attempts.get id' = some b → b.pending = true →
          b.reservation.node = a.reservation.node → id' = id) ∧
        ∀ i l, i ≠ id → E.ledger.attempt i = some l →
          (E.ledger.fence cas.sha256 a.reservation.node).attempt i = some l) ∧
      (∀ id a id' b, E.attempts.get id = some a → E.attempts.get id' = some b →
        id ∉ E.retired → id' ∉ E.retired → SameWork a b → E.state id = some .selected →
        E.state id' = some .selected → id = id') ∧
      ∀ before e after t recordId r output id, log = before ++ e :: after →
        e.payload = .transition t → t.change = .executionRecorded recordId →
        cas.executionRecord recordId = .ok r → r.Publishes output id → E.Selects id output := by
  have hholds := ofLog_holds (P := Distinctly cas (PaysOnce cas))
    (fun hnew => newExecution_distinctly hnew (newExecution_paysOnce hnew)) (paysOnce_kept cas)
    hmeet h
  have hdistinct := hholds.execution hE
  have hpays := hdistinct.holds hd
  refine ⟨fun id a ha hp => ⟨hpays.live.runs ha hp, fun id' b hb hbp hnode => ?_,
    fun i l hne hl => ?_⟩, fun id a id' b => hpays.coherent.once, ?_⟩
  · exact hpays.coherent.single hb hbp ha hp hnode
  · exact (hpays.live.runs ha hp).fence_others (hdistinct.wf hd) hne hl
  · rintro before e after t recordId r output id rfl hpay hchange hrecord hpub
    exact ofLog_selects h hE hd hpay hchange hrecord hpub

/-- The first Attempt is released before it starts, and the second one succeeds. -/
def releasedOnce : List ExecutionRecord := [
  .invocation "invocation",
  .reserved ⟨"invocation", firstAttempt, "reservation:1", 10, 54, []⟩,
  .released firstAttempt "cancelled",
  .reserved ⟨"invocation", secondAttempt, "reservation:2", 10, 56, []⟩,
  .contextBound secondAttempt "context",
  .started secondAttempt,
  .settled { attemptId := secondAttempt, chargedTokens := 7, result := .succeeded "output" },
  .published "output" (some secondAttempt)]

theorem ofLog_never_pays_twice_released_once :
    ∃ S E, ofLog (workCas releasedOnce) "task-1" (workLog releasedOnce) = some S ∧
      S.execution = some E ∧ E.Selects secondAttempt "output" := by
  have hfacts : ((ofLog (workCas releasedOnce) "task-1" (workLog releasedOnce)).bind
      TaskState.execution).map (fun E => decide (E.ledger.IdsDistinct workDigest)) = some true := by
    decide +kernel
  have hmeet : LogMeets (workCas releasedOnce) ReleasesOnce "task-1" (workLog releasedOnce) := by
    decide +kernel
  obtain ⟨E, hexec, hids⟩ := Option.map_eq_some_iff.mp hfacts
  obtain ⟨S, hS, hE⟩ := Option.bind_eq_some_iff.mp hexec
  obtain ⟨-, -, hpublished⟩ :=
    ofLog_never_pays_twice hS hE (of_decide_eq_true hids) hmeet
  exact ⟨S, E, hS, hE, hpublished ((workLog releasedOnce).take 10) _ [] _ "7" _ "output"
    secondAttempt rfl rfl rfl rfl (.inl rfl)⟩

/-- The first Attempt is released again, while the second one is pending. -/
def releasedTwice : List ExecutionRecord := releasedOnce.take 4 ++ [
  .released firstAttempt "cancelled"]

/-- The second release fences the pending Attempt of the node. -/
theorem ofLog_pending_fenced_by_second_release :
    ∃ S E a, ofLog (workCas releasedTwice) "task-1" (workLog releasedTwice) = some S ∧
      S.execution = some E ∧ E.ledger.IdsDistinct workDigest ∧
      E.attempts.get secondAttempt = some a ∧ a.pending = true ∧
      E.state secondAttempt = some .fenced ∧ ¬ E.ledger.Runs secondAttempt a.reservation.node := by
  have hfacts : ((ofLog (workCas releasedTwice) "task-1" (workLog releasedTwice)).bind
      TaskState.execution).map (fun E => (decide (E.ledger.IdsDistinct workDigest),
        (E.attempts.get secondAttempt).map RecordedAttempt.pending,
        E.state secondAttempt)) = some (true, some true, some .fenced) := by decide +kernel
  obtain ⟨E, hexec, hfacts⟩ := Option.map_eq_some_iff.mp hfacts
  obtain ⟨S, hS, hE⟩ := Option.bind_eq_some_iff.mp hexec
  obtain ⟨hids, hrest⟩ := Prod.mk.inj hfacts
  obtain ⟨hpending, hstate⟩ := Prod.mk.inj hrest
  obtain ⟨a, ha, hp⟩ := Option.map_eq_some_iff.mp hpending
  refine ⟨S, E, a, hS, hE, of_decide_eq_true hids, ha, hp, hstate, ?_⟩
  rintro ⟨l, hl, -, hrunning, -⟩
  rw [state_eq_some.mpr ⟨l, hl, hrunning⟩] at hstate
  cases hstate

/-! ## No success is stranded -/

/-- The reusable output of a node is the one of its only unretired selected Attempt. -/
theorem reusableOutput_of_selected {E : TaskExecutionProjection} (hE : E.Coherent cas)
    {node invocationId output : String} {input : TaskInvocation} {id : AttemptId}
    {a : RecordedAttempt} (hinv : E.invocations.get node = some (invocationId, input))
    (ha : E.attempts.get id = some a) (hid : a.invocationId = invocationId)
    (hretired : id ∉ E.retired) (hs : E.state id = some .selected)
    (ho : a.succeededOutput = some output) : E.reusableOutput node = some (output, id) := by
  -- the Attempt has the node and the plan of the current invocation
  obtain ⟨input', hinput', hnode', hplan'⟩ := hE.invoked ha
  obtain ⟨hinput, hnode⟩ := hE.current hinv
  rw [hid, hinput] at hinput'
  cases hinput'
  have hplan : E.currentPlan node = some input.planId := by
    rw [currentPlan, hinv]
    rfl
  have hreusable : E.reusable node id a = true := by
    simp only [reusable, Bool.and_eq_true, decide_eq_true_eq]
    exact ⟨⟨⟨hnode'.symm.trans hnode, hretired⟩, hplan.trans (congrArg some hplan')⟩, hs⟩
  cases hfound : E.reusableOutput node with
  | none =>
    have hnone := List.findSome?_eq_none_iff.mp hfound (id, a) (OrdMap.mem_iff_get.mpr ha)
    simp [hreusable, ho] at hnone
  | some found =>
    obtain ⟨output', id'⟩ := found
    obtain ⟨b, hb, hr, ho'⟩ := reusableOutput_eq_some hfound
    have hs' := state_of_reusable hr
    simp only [reusable, Bool.and_eq_true, decide_eq_true_eq] at hr
    obtain ⟨⟨⟨hbnode, hbretired⟩, hbplan⟩, -⟩ := hr
    have hsame : SameWork b a := by
      refine ⟨hbnode.trans (hnode.symm.trans hnode'), ?_⟩
      rw [hplan] at hbplan
      exact (Option.some.inj hbplan).symm.trans hplan'
    obtain rfl := hE.once hb ha hbretired hretired hsame hs' hs
    rw [ha] at hb
    cases hb
    rw [ho] at ho'
    cases ho'
    rfl

theorem retryBefore_selected {previous : List (AttemptId × TaskAttemptResult)}
    {entry : AttemptId × RecordedAttempt}
    (h : retryBefore previous entry = .error (.conflict
      "Task invocation already selected an output; recover its publication")) :
    ∃ output, entry.2.succeededOutput = some output := by
  unfold retryBefore at h
  split at h
  case h_1 hsettled =>
    rw [RecordedAttempt.succeededOutput, hsettled]
    exact ⟨_, rfl⟩
  case h_2 => cases h
  case h_3 => simp at h

/-- What `validate_retry` reads when it answers that an output was selected. -/
theorem validateRetry_selected {E : TaskExecutionProjection}
    {authority : TaskInvocation → List (AttemptId × TaskAttemptResult) → Except String Unit}
    {node : String}
    (hauthority : ∀ input previous, authority input previous ≠
      .error "Task invocation already selected an output; recover its publication")
    (h : E.validateRetry authority node = .error (.conflict
      "Task invocation already selected an output; recover its publication")) :
    ∃ invocationId input id a output, E.invocations.get node = some (invocationId, input) ∧
      E.attempts.get id = some a ∧ a.invocationId = invocationId ∧ id ∉ E.retired ∧
      a.released = false ∧ a.succeededOutput = some output := by
  rcases bind_eq_error.mp h with h | ⟨⟨invocationId, input⟩, hinv, h⟩
  · cases hinv : E.invocations.get node <;> simp [hinv, orConflict] at h
  have hinv := orConflict_eq_ok.mp hinv
  rcases bind_eq_error.mp h with h | ⟨previous, -, h⟩
  · -- the first Attempt the loop refuses is a settled success
    obtain ⟨before, ⟨id, a⟩, hmem, hrefused⟩ := foldlM_eq_error h
    simp only [retryScope, List.mem_filter, Bool.and_eq_true, decide_eq_true_eq,
      Bool.not_eq_true'] at hmem
    obtain ⟨hentry, ⟨hinvocation, hreleased⟩, hretired⟩ := hmem
    obtain ⟨output, ho⟩ := retryBefore_selected hrefused
    exact ⟨invocationId, input, id, a, output, hinv, OrdMap.mem_iff_get.mp hentry, hinvocation,
      hretired, hreleased, ho⟩
  · -- the authority's own refusals say something else
    split_ifs at h
    · rcases bind_eq_error.mp h with h | ⟨_, -, h⟩
      · cases hreply : authority input previous with
        | ok _ =>
          rw [hreply] at h
          cases h
        | error message =>
          rw [hreply] at h
          cases h
          exact absurd hreply (hauthority input previous)
      · cases h
    · cases h

/-- **No settled success is stranded.** In every accepted log whose successes are settled
under the epoch that prepared their Attempts: an unretired, unreleased Attempt of the
current invocation of a node that was settled as a success is selected and is the reusable
output of the node. So a retry is never refused for a selected output while there is
nothing to recover. -/
theorem ofLog_no_success_stranded {taskId : String} {log : List RunEvent} {S : TaskState}
    {E : TaskExecutionProjection} (h : ofLog cas taskId log = some S) (hE : S.execution = some E)
    (hd : E.ledger.IdsDistinct cas.sha256) (hmeet : LogMeets cas SettlesAsPrepared taskId log) :
    (∀ node invocationId input id a output,
        E.invocations.get node = some (invocationId, input) → E.attempts.get id = some a →
        a.invocationId = invocationId → id ∉ E.retired → a.released = false →
        a.succeededOutput = some output →
        E.state id = some .selected ∧ E.reusableOutput node = some (output, id)) ∧
      ∀ authority node, E.reusableOutput node = none →
        (∀ input previous, authority input previous ≠
          .error "Task invocation already selected an output; recover its publication") →
        E.validateRetry authority node ≠ .error (.conflict
          "Task invocation already selected an output; recover its publication") := by
  have hholds := ofLog_holds (P := Distinctly cas fun E => E.Coherent cas ∧ E.Answered)
    (fun hnew => newExecution_distinctly hnew ⟨(newExecution_paysOnce hnew).coherent, ?_⟩)
    (answered_kept cas) hmeet h
  · obtain ⟨hcoherent, hanswered⟩ := (hholds.execution hE).holds hd
    have hreusable : ∀ node invocationId input id a output,
        E.invocations.get node = some (invocationId, input) → E.attempts.get id = some a →
        a.invocationId = invocationId → id ∉ E.retired → a.released = false →
        a.succeededOutput = some output →
        E.state id = some .selected ∧ E.reusableOutput node = some (output, id) := by
      intro node invocationId input id a output hinv ha hid hretired _ ho
      have hs := hanswered.selected ha ho
      exact ⟨hs, reusableOutput_of_selected hcoherent hinv ha hid hretired hs ho⟩
    refine ⟨hreusable, fun authority node hnone hauthority hrefused => ?_⟩
    obtain ⟨invocationId, input, id, a, output, hinv, ha, hid, hretired, hreleased, ho⟩ :=
      validateRetry_selected hauthority hrefused
    have hsome := (hreusable node invocationId input id a output hinv ha hid hretired hreleased ho).2
    rw [hnone] at hsome
    cases hsome
  · obtain ⟨graph, budget, space, preparation, -, rfl⟩ := newExecution_eq_ok hnew
    exact ⟨nofun⟩

/-- The writer that started the Attempt settles it. -/
def settledByWriter : List ExecutionRecord := startRecords ++ [
  .settled { attemptId := firstAttempt, chargedTokens := 7, result := .succeeded "output" }]

theorem ofLog_no_success_stranded_settled :
    ∃ S E, ofLog (workCas settledByWriter) "task-1" (workLog settledByWriter) = some S ∧
      S.execution = some E ∧ E.reusableOutput "root.work" = some ("output", firstAttempt) := by
  have hfacts : ((ofLog (workCas settledByWriter) "task-1" (workLog settledByWriter)).bind
      TaskState.execution).map (fun E => decide (E.ledger.IdsDistinct workDigest ∧
        (E.invocations.get "root.work").map Prod.fst = some "invocation" ∧
        (E.attempts.get firstAttempt).map (fun a => (a.invocationId, a.released,
          a.succeededOutput)) = some ("invocation", false, some "output") ∧
        firstAttempt ∉ E.retired)) = some true := by
    decide +kernel
  have hmeet : LogMeets (workCas settledByWriter) SettlesAsPrepared "task-1"
      (workLog settledByWriter) := by decide +kernel
  obtain ⟨E, hexec, hfacts⟩ := Option.map_eq_some_iff.mp hfacts
  obtain ⟨S, hS, hE⟩ := Option.bind_eq_some_iff.mp hexec
  obtain ⟨hids, hinvoked, hattempt, hretired⟩ := of_decide_eq_true hfacts
  obtain ⟨⟨invocationId, input⟩, hinv, rfl⟩ := Option.map_eq_some_iff.mp hinvoked
  obtain ⟨a, ha, hattempt⟩ := Option.map_eq_some_iff.mp hattempt
  simp only [Prod.mk.injEq] at hattempt
  obtain ⟨hid, hreleased, ho⟩ := hattempt
  obtain ⟨hreusable, -⟩ := ofLog_no_success_stranded hS hE hids hmeet
  exact ⟨S, E, hS, hE, (hreusable "root.work" _ input firstAttempt a "output" hinv ha hid hretired
    hreleased ho).2⟩

/-- The first writer starts the Attempt and its lease expires; its successor settles it. -/
def settledBySuccessor : List RunEvent := workLog startRecords ++ [
  { workEvent 7 "second" 2 (.leaseTaken 200) with
    payload := .transition ⟨"second", 2, 100, .leaseTaken 200⟩ },
  { workEvent 8 "second" 2 (.executionRecorded "4") with
    payload := .transition ⟨"second", 2, 101, .executionRecorded "4"⟩ }]

/-- The success is fenced: there is no reusable output, and every retry is refused for a
selected one. -/
theorem ofLog_success_stranded_by_takeover :
    ∃ S E, ofLog (workCas settledByWriter) "task-1" settledBySuccessor = some S ∧
      S.execution = some E ∧ E.ledger.IdsDistinct workDigest ∧
      (E.attempts.get firstAttempt).map (fun a => (a.released, a.succeededOutput)) =
        some (false, some "output") ∧ firstAttempt ∉ E.retired ∧
      E.state firstAttempt = some .fenced ∧ E.reusableOutput "root.work" = none ∧
      E.validateRetry (fun _ _ => .ok ()) "root.work" = .error (.conflict
        "Task invocation already selected an output; recover its publication") := by
  have hfacts : ((ofLog (workCas settledByWriter) "task-1" settledBySuccessor).bind
      TaskState.execution).map (fun E => decide (E.ledger.IdsDistinct workDigest ∧
        (E.attempts.get firstAttempt).map (fun a => (a.released, a.succeededOutput)) =
          some (false, some "output") ∧ firstAttempt ∉ E.retired ∧
        E.state firstAttempt = some .fenced ∧ E.reusableOutput "root.work" = none ∧
        E.validateRetry (fun _ _ => .ok ()) "root.work" = .error (.conflict
          "Task invocation already selected an output; recover its publication"))) =
      some true := by
    decide +kernel
  obtain ⟨E, hexec, hfacts⟩ := Option.map_eq_some_iff.mp hfacts
  obtain ⟨S, hS, hE⟩ := Option.bind_eq_some_iff.mp hexec
  exact ⟨S, E, hS, hE, of_decide_eq_true hfacts⟩

end TaskState

end Afactory
