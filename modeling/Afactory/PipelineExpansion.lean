import Mathlib
import Afactory.PipelineCompiler

/-!
# Pipeline expansion ends within its bounds

Whatever the installed Pipelines call, each other or themselves, a compilation ends: the guard of
`expand` keeps the stack within `max_depth`, every node goes through the node capacity, and each
round of a Pipeline's loop either places a node or refuses.

* `Compiler.Keeps`: what a step that is no call keeps;
* `Runs`: a part of a compilation that stays within the bounds and leaves the stack as it was;
* `expand_runs`, `compileTask_runs`: all of them do, with enough fuel;
* `compileTask_approximates`: more fuel changes nothing but an unfinished run.
-/

namespace Afactory

theorem entryAt_eq_ok {β : Type} {m : OrdMap String β} {key : String} {value : β} :
    entryAt m key = .ok value ↔ m.get key = some value := by
  rw [entryAt]
  cases m.get key <;> simp

/-- A valid definition has 64 nodes at most. -/
theorem PipelineDefinition.nodes_length_le {D : PipelineDefinition} (h : D.validate = .ok ()) :
    D.nodes.length ≤ 64 := by
  rw [PipelineDefinition.validate] at h
  obtain ⟨-, -, h⟩ := bind_eq_ok.mp h
  obtain ⟨-, -, h⟩ := bind_eq_ok.mp h
  obtain ⟨-, -, h⟩ := bind_eq_ok.mp h
  obtain ⟨_, hnodes, -⟩ := bind_eq_ok.mp h
  have hnodes := ensure_eq_ok.mp hnodes
  simp only [Bool.and_eq_true, decide_eq_true_eq] at hnodes
  exact hnodes.2

/-! ## What a step keeps -/

namespace Compiler

variable {C : CompileContext} {S S' S'' : Compiler}

/-- What a step that is no call keeps: the stack, and the bound of the nodes. -/
structure Keeps (C : CompileContext) (S S' : Compiler) : Prop where
  stack : S'.stack = S.stack
  deepest : S'.deepest = S.deepest
  nodes : S.nodes.entries.length ≤ C.maxNodes → S'.nodes.entries.length ≤ C.maxNodes

theorem Keeps.of_eq (hstack : S'.stack = S.stack) (hdeepest : S'.deepest = S.deepest)
    (hnodes : S'.nodes = S.nodes) : Keeps C S S' :=
  ⟨hstack, hdeepest, fun h => hnodes ▸ h⟩

theorem Keeps.refl (S : Compiler) : Keeps C S S := .of_eq rfl rfl rfl

theorem Keeps.trans (h : Keeps C S S') (h' : Keeps C S' S'') : Keeps C S S'' :=
  ⟨h'.stack.trans h.stack, h'.deepest.trans h.deepest, fun hS => h'.nodes (h.nodes hS)⟩

/-- A node is added where there was room for it. -/
theorem Keeps.of_insert (hstack : S'.stack = S.stack) (hdeepest : S'.deepest = S.deepest)
    {id : String} {node : CompiledNode} (hnodes : S'.nodes = S.nodes.insert id node)
    (hroom : S.requireNodeCapacity C = .ok ()) : Keeps C S S' := by
  refine ⟨hstack, hdeepest, fun _ => ?_⟩
  have hlt : S.nodes.entries.length < C.maxNodes := by simpa using ensure_eq_ok.mp hroom
  rw [hnodes]
  exact (S.nodes.length_insert_le id node).trans hlt

theorem select_keeps {qualified : String} {bound : Bound} {conditions : List CompiledCondition}
    {r : Bound × Compiler} (h : S.select C qualified bound conditions = .ok r) :
    Keeps C S r.2 := by
  rw [select] at h
  obtain ⟨-, -, h⟩ := bind_eq_ok.mp h
  obtain ⟨condition, -, h⟩ := bind_eq_ok.mp h
  obtain ⟨-, -, h⟩ := bind_eq_ok.mp h
  obtain ⟨passedAddress, -, h⟩ := bind_eq_ok.mp h
  obtain ⟨passedPort, -, h⟩ := bind_eq_ok.mp h
  obtain ⟨conditionPort, -, h⟩ := bind_eq_ok.mp h
  obtain ⟨passed, -, h⟩ := bind_eq_ok.mp h
  obtain ⟨failed, -, h⟩ := bind_eq_ok.mp h
  obtain ⟨inconclusive, -, h⟩ := bind_eq_ok.mp h
  obtain ⟨_, hroom, h⟩ := bind_eq_ok.mp h
  cases h
  exact .of_insert rfl rfl rfl hroom

theorem publish_keeps {N : ResolvedNode} {published r : Bound × Compiler}
    {entry : String × PipelinePort} (h : publish N published entry = .ok r) :
    Keeps C published.2 r.2 := by
  rw [publish] at h
  obtain ⟨lineage, -, h⟩ := bind_eq_ok.mp h
  cases h
  exact .of_eq rfl rfl rfl

theorem primitive_keeps {task : RevisionDocument} {site : NodeSite} {r : Bound × Compiler}
    (h : S.primitive C task site = .ok r) : Keeps C S r.2 := by
  rw [primitive] at h
  obtain ⟨N, -, h⟩ := bind_eq_ok.mp h
  obtain ⟨-, -, h⟩ := bind_eq_ok.mp h
  obtain ⟨-, -, h⟩ := bind_eq_ok.mp h
  obtain ⟨_, hroom, h⟩ := bind_eq_ok.mp h
  obtain ⟨-, -, h⟩ := bind_eq_ok.mp h
  have hinstalled : Keeps C S (S.install N) := .of_insert rfl rfl rfl hroom
  exact foldlM_invariant (P := fun p : Bound × Compiler => Keeps C S p.2)
    (fun _ _ _ _ hp hstep => hp.trans (publish_keeps hstep)) hinstalled h

theorem resolveSlot_keeps {qualified localName : String} {slot : PipelineSlot}
    (h : S.resolveSlot C qualified localName slot = .ok S') : Keeps C S S' := by
  rw [resolveSlot] at h
  split at h
  · obtain ⟨-, -, h⟩ := bind_eq_ok.mp h
    obtain ⟨-, -, h⟩ := bind_eq_ok.mp h
    cases h
    exact .refl S
  · cases h
    exact .of_eq rfl rfl rfl

theorem replaceWorker_keeps {qualified : String} {slot : PipelineSlot}
    (h : S.replaceWorker C qualified slot = .ok S') : Keeps C S S' := by
  rw [replaceWorker] at h
  obtain ⟨declaration, -, h⟩ := bind_eq_ok.mp h
  dsimp only at h
  split_ifs at h
  · cases h
    exact .refl S
  · obtain ⟨-, -, h⟩ := bind_eq_ok.mp h
    obtain ⟨original, -, h⟩ := bind_eq_ok.mp h
    obtain ⟨replacement, -, h⟩ := bind_eq_ok.mp h
    obtain ⟨-, -, h⟩ := bind_eq_ok.mp h
    cases h
    exact .of_eq rfl rfl rfl

theorem bindSlot_keeps {scope : String} {mapping : OrdMap String String}
    {bindings r : OrdMap String String × Compiler} {entry : String × PipelineSlot}
    (h : bindSlot C scope mapping bindings entry = .ok r) : Keeps C bindings.2 r.2 := by
  rw [bindSlot] at h
  obtain ⟨resolved, hresolved, h⟩ := bind_eq_ok.mp h
  obtain ⟨replaced, hreplaced, h⟩ := bind_eq_ok.mp h
  cases h
  exact (resolveSlot_keeps hresolved).trans (replaceWorker_keeps hreplaced)

theorem separateSlot_keeps {scope : String} {slots : OrdMap String String}
    {entry : String × PipelineSlot} (h : separateSlot scope slots S entry = .ok S') :
    Keeps C S S' := by
  rw [separateSlot] at h
  obtain ⟨own, -, h⟩ := bind_eq_ok.mp h
  obtain ⟨-, -, h⟩ := bind_eq_ok.mp h
  obtain ⟨declaration, -, h⟩ := bind_eq_ok.mp h
  cases h
  exact .of_eq rfl rfl rfl

/-- Opening a Pipeline leaves no more nodes to wait than its definition has. -/
theorem openFrame_keeps {name scope : String} {definition : PipelineDefinition} {inputs : Bound}
    {mapping : OrdMap String String} {inherited : List CompiledCondition}
    {r : (Frame × OrdMap String TaskNode) × Compiler}
    (h : openFrame C name definition scope inputs mapping inherited S = .ok r) :
    Keeps C S r.2 ∧ r.1.2.entries.length ≤ definition.nodes.length := by
  rw [openFrame] at h
  obtain ⟨-, -, h⟩ := bind_eq_ok.mp h
  obtain ⟨-, -, h⟩ := bind_eq_ok.mp h
  obtain ⟨bindings, hbindings, h⟩ := bind_eq_ok.mp h
  obtain ⟨-, -, h⟩ := bind_eq_ok.mp h
  obtain ⟨separated, hseparated, h⟩ := bind_eq_ok.mp h
  obtain ⟨nodes, hnodes, h⟩ := bind_eq_ok.mp h
  cases h
  have hbound : Keeps C S bindings.2 :=
    foldlM_invariant (P := fun p : OrdMap String String × Compiler => Keeps C S p.2)
      (fun _ _ _ _ hp hstep => hp.trans (bindSlot_keeps hstep)) (.refl S) hbindings
  have hslots : Keeps C S separated :=
    foldlM_invariant (P := fun T : Compiler => Keeps C S T)
      (fun _ _ _ _ hp hstep => hp.trans (separateSlot_keeps hstep)) hbound hseparated
  refine ⟨hslots, (OrdMap.length_ofList_le _).trans ?_⟩
  have hlength := (mapM_forall₂ hnodes).length_eq
  rw [List.length_zipIdx] at hlength
  rw [List.length_map, hlength]

theorem closeFrame_keeps {F : Frame} {values : Values} {r : Boundary × Compiler}
    (h : closeFrame F values S = .ok r) : Keeps C S r.2 := by
  rw [closeFrame] at h
  obtain ⟨required, -, h⟩ := bind_eq_ok.mp h
  obtain ⟨boundary, -, h⟩ := bind_eq_ok.mp h
  cases h
  exact .of_eq rfl rfl rfl

theorem bindRoot_keeps {task : RevisionDocument} {bindings r : Bound × Compiler}
    {entry : String × PipelinePort} (h : bindRoot task bindings entry = .ok r) :
    Keeps C bindings.2 r.2 := by
  obtain ⟨bound, S⟩ := bindings
  rw [bindRoot] at h
  split at h
  · split_ifs at h
    cases h
    exact .refl S
  · obtain ⟨-, -, h⟩ := bind_eq_ok.mp h
    obtain ⟨-, -, h⟩ := bind_eq_ok.mp h
    cases h
    exact .of_eq rfl rfl rfl

/-- The root is opened under a depth limit of at most four. -/
theorem openRoot_keeps {task : RevisionDocument} {root : String}
    {r : (PipelineDefinition × Bound) × Compiler} (h : openRoot C task root S = .ok r) :
    Keeps C S r.2 ∧ C.maxDepth ≤ 4 := by
  rw [openRoot] at h
  obtain ⟨-, -, h⟩ := bind_eq_ok.mp h
  obtain ⟨_, hlimits, h⟩ := bind_eq_ok.mp h
  obtain ⟨definition, -, h⟩ := bind_eq_ok.mp h
  obtain ⟨-, -, h⟩ := bind_eq_ok.mp h
  obtain ⟨-, -, h⟩ := bind_eq_ok.mp h
  obtain ⟨-, -, h⟩ := bind_eq_ok.mp h
  obtain ⟨bindings, hbindings, h⟩ := bind_eq_ok.mp h
  obtain ⟨-, -, h⟩ := bind_eq_ok.mp h
  obtain ⟨_, hroom, h⟩ := bind_eq_ok.mp h
  cases h
  have hbound : Keeps C S bindings.2 :=
    foldlM_invariant (P := fun p : Bound × Compiler => Keeps C S p.2)
      (fun _ _ _ _ hp hstep => hp.trans (bindRoot_keeps hstep)) (.refl S) hbindings
  refine ⟨hbound.trans (.of_insert rfl rfl rfl hroom), ?_⟩
  have hlimits := ensure_eq_ok.mp hlimits
  simp only [Bool.and_eq_true, decide_eq_true_eq] at hlimits
  exact hlimits.2

/-- A Pipeline is entered where there is room on the stack, and it has 64 nodes at most. -/
theorem enter_eq_ok {name : String} {definition : PipelineDefinition}
    (h : S.enter C name = .ok definition) :
    S.stack.length < C.maxDepth ∧ definition.nodes.length ≤ 64 := by
  rw [enter] at h
  obtain ⟨_, hguard, h⟩ := bind_eq_ok.mp h
  obtain ⟨found, -, h⟩ := bind_eq_ok.mp h
  obtain ⟨_, hvalid, h⟩ := bind_eq_ok.mp h
  obtain ⟨-, -, h⟩ := bind_eq_ok.mp h
  obtain ⟨-, -, h⟩ := bind_eq_ok.mp h
  cases h
  have hguard := ensure_eq_ok.mp hguard
  simp only [Bool.and_eq_true, decide_eq_true_eq] at hguard
  exact ⟨hguard.1, PipelineDefinition.nodes_length_le hvalid⟩

/-! ## A compiler within its bounds -/

/-- Within the bounds of the context, with the given stack. -/
structure Within (C : CompileContext) (stack : List String) (S : Compiler) : Prop where
  stack_eq : S.stack = stack
  deepest : S.deepest ≤ C.maxDepth
  nodes : S.nodes.entries.length ≤ C.maxNodes

variable {stack : List String}

theorem Within.keep (h : S.Within C stack) (hkeep : Keeps C S S') : S'.Within C stack where
  stack_eq := hkeep.stack.trans h.stack_eq
  deepest := hkeep.deepest.trans_le h.deepest
  nodes := hkeep.nodes h.nodes

theorem Within.push (h : S.Within C stack) (hroom : stack.length < C.maxDepth) (name : String) :
    (S.push name).Within C (stack ++ [name]) where
  stack_eq := by rw [Compiler.push, h.stack_eq]
  deepest := by
    rw [Compiler.push, h.stack_eq]
    exact max_le h.deepest hroom
  nodes := h.nodes

theorem Within.pop {name : String} (h : S.Within C (stack ++ [name])) : S.pop.Within C stack where
  stack_eq := by rw [Compiler.pop, h.stack_eq, List.dropLast_concat]
  deepest := h.deepest
  nodes := h.nodes

end Compiler

/-! ## Parts of a compilation -/

/-- A part that stays within the bounds, leaves the stack as it was and answers what `Q` holds of;
or it refuses, with fuel left. -/
def Runs {α : Type} (C : CompileContext) (stack : List String) (c : Expansion α) (Q : α → Prop) :
    Prop :=
  Command.Triple (Compiler.Within C stack) c (fun a S => Q a ∧ S.Within C stack)
    fun e S => e ≠ .unfinished ∧ ∃ stack', S.Within C stack'

namespace Runs

open Expansion

variable {α β : Type} {C : CompileContext} {stack : List String} {Q : α → Prop}

theorem pure {a : α} (h : Q a) : Runs C stack (Pure.pure a) Q :=
  Command.Triple.pure fun _ hS => ⟨h, hS⟩

theorem bind {c : Expansion α} {k : α → Expansion β} {R : β → Prop} (hc : Runs C stack c Q)
    (hk : ∀ a, Q a → Runs C stack (k a) R) : Runs C stack (c >>= k) R :=
  Command.Triple.bind hc fun a => .of_fact (hk a)

theorem consult {f : Compiler → Except String α}
    (h : ∀ S a, S.Within C stack → f S = .ok a → Q a) : Runs C stack (consult f) Q := by
  apply Command.Triple.check
  · intro S a hS hf
    exact ⟨h S a hS (mapError_eq_ok.mp hf), hS⟩
  · intro S e hS hf
    obtain ⟨text, -, rfl⟩ := mapError_eq_error.mp hf
    exact ⟨nofun, stack, hS⟩

theorem step {f : Compiler → Except String (α × Compiler)}
    (h : ∀ S r, f S = .ok r → Compiler.Keeps C S r.2 ∧ Q r.1) : Runs C stack (step f) Q := by
  have hread : Command.Triple (Compiler.Within C stack) (Expansion.consult f)
      (fun r S => (Q r.1 ∧ r.2.Within C stack) ∧ S.Within C stack)
      fun e S => e ≠ .unfinished ∧ ∃ stack', S.Within C stack' := by
    apply Command.Triple.check
    · intro S r hS hf
      obtain ⟨hkeep, hQ⟩ := h S r (mapError_eq_ok.mp hf)
      exact ⟨⟨hQ, hS.keep hkeep⟩, hS⟩
    · intro S e hS hf
      obtain ⟨text, -, rfl⟩ := mapError_eq_error.mp hf
      exact ⟨nofun, stack, hS⟩
  refine Command.Triple.bind hread fun r => .of_fact fun hr => ?_
  refine Command.Triple.bind (R := fun _ S => S.Within C stack)
    (Command.Triple.write fun _ _ => hr.2) fun _ => ?_
  exact Command.Triple.pure fun _ hS => ⟨hr.1, hS⟩

end Runs

/-! ## The loop over the waiting nodes -/

/-- At most `n` nodes wait, and fewer once one is done. -/
structure Progress.Shrinks (n : ℕ) (P : Progress) : Prop where
  le : P.pending.entries.length ≤ n
  lt : P.progressed = true → P.pending.entries.length < n

theorem Progress.Shrinks.done {n : ℕ} {P : Progress} {id : String} {node : TaskNode}
    (h : P.Shrinks n) (hnode : P.pending.get id = some node) (outputs : Bound) :
    (P.done id outputs).Shrinks n := by
  have hlt : (P.pending.erase id).entries.length < P.pending.entries.length :=
    OrdMap.length_erase_lt hnode
  exact ⟨(hlt.trans_le h.le).le, fun _ => hlt.trans_le h.le⟩

section Loop

variable {task : RevisionDocument} {C : CompileContext} {stack : List String} {child : Child}
  {F : Frame} {fuel : ℕ}

/-- A call that stays within the bounds whatever it is given. -/
def Child.Runs (C : CompileContext) (stack : List String) (child : Child) : Prop :=
  ∀ name scope inputs mapping inherited,
    Afactory.Runs C stack (child name scope inputs mapping inherited) fun _ => True

theorem expandNode_runs (hchild : child.Runs C stack) (values : Values) (node : TaskNode) :
    Runs C stack (expandNode task C child F values node) fun _ => True := by
  rw [expandNode]
  refine Runs.bind (.consult fun _ _ _ _ => trivial) fun site _ => ?_
  split
  case h_1 pipeline bindings hoperator =>
    refine Runs.bind (.consult fun _ _ _ _ => trivial) fun mapped _ => ?_
    exact Runs.bind (hchild _ _ _ _ _) fun boundary _ => .pure trivial
  case h_2 => exact .step fun S r h => ⟨Compiler.select_keeps h, trivial⟩
  case h_3 => exact .step fun S r h => ⟨Compiler.primitive_keeps h, trivial⟩

/-- One round: where it makes progress, fewer nodes wait. -/
theorem sweep_runs (hchild : child.Runs C stack) {n : ℕ} (l : List String) {P : Progress}
    (hP : P.Shrinks n) : Runs C stack (sweep task C child F l P) (Progress.Shrinks n) := by
  induction l generalizing P with
  | nil => exact .pure hP
  | cons id rest ih =>
    rw [sweep]
    have hread : Runs C stack (Expansion.consult fun _ => entryAt P.pending id)
        fun node => P.pending.get id = some node :=
      .consult fun _ _ _ h => entryAt_eq_ok.mp h
    refine Runs.bind hread fun node hnode => ?_
    split
    case isTrue hblocks => exact ih hP
    case isFalse hblocks =>
      exact Runs.bind (expandNode_runs hchild P.values node) fun outputs _ =>
        ih (hP.done hnode outputs)

/-- **The loop ends.** As many rounds are enough as there are nodes that wait. -/
theorem rounds_runs (hchild : child.Runs C stack) {pending : OrdMap String TaskNode}
    (hfuel : pending.entries.length ≤ fuel) (values : Values) :
    Runs C stack (rounds task C child F fuel pending values) fun _ => True := by
  induction fuel generalizing pending values with
  | zero =>
    have hempty : pending.entries = [] := List.length_eq_zero_iff.mp (Nat.le_zero.mp hfuel)
    rw [rounds, if_pos hempty]
    exact .pure trivial
  | succ fuel ih =>
    rw [rounds]
    split
    case isTrue hempty => exact .pure trivial
    case isFalse hwaits =>
      have hstart : Progress.Shrinks (fuel + 1) ⟨pending, values, false⟩ := ⟨hfuel, nofun⟩
      refine Runs.bind (sweep_runs hchild pending.keys hstart) fun P hP => ?_
      have hcheck : Runs C stack (Expansion.consult fun _ => ensure P.progressed
          ("Pipeline " ++ F.name ++ " contains a dependency cycle"))
          fun _ => P.progressed = true :=
        .consult fun _ _ _ h => ensure_eq_ok.mp h
      refine Runs.bind hcheck fun _ hprogressed => ?_
      exact ih (Nat.lt_succ_iff.mp (hP.lt hprogressed)) P.values

theorem expandBody_runs (hchild : child.Runs C stack) {definition : PipelineDefinition}
    (hfuel : definition.nodes.length ≤ fuel) :
    (expandBody task C child fuel definition).Runs C stack := by
  intro name scope inputs mapping inherited
  rw [expandBody]
  have hopen : Runs C stack
      (Expansion.step (Compiler.openFrame C name definition scope inputs mapping inherited))
      fun opened => opened.2.entries.length ≤ definition.nodes.length :=
    .step fun _ _ h => Compiler.openFrame_keeps h
  refine Runs.bind hopen fun opened hwaiting => ?_
  refine Runs.bind (rounds_runs hchild (hwaiting.trans hfuel) .empty) fun values _ => ?_
  exact .step fun _ _ h => ⟨Compiler.closeFrame_keeps h, trivial⟩

/-- **Expansion ends.** The guard lets no call go deeper than the depth limit, so that a fuel
beyond it is never used up. -/
theorem expand_runs (hfuel : 64 ≤ fuel) {depth : ℕ} (hstack : stack.length ≤ C.maxDepth)
    (hdepth : C.maxDepth < depth + stack.length) : (expand task C fuel depth).Runs C stack := by
  induction depth generalizing stack with
  | zero => omega
  | succ depth ih =>
    intro name scope inputs mapping inherited
    rw [expand]
    have henter : Runs C stack (Expansion.consult fun S => S.enter C name) fun definition =>
        stack.length < C.maxDepth ∧ definition.nodes.length ≤ 64 :=
      .consult fun S _ hS h => hS.stack_eq ▸ Compiler.enter_eq_ok h
    refine Runs.bind henter fun definition hentered => ?_
    obtain ⟨hroom, hnodes⟩ := hentered
    refine Command.Triple.bind (R := fun _ S => S.Within C (stack ++ [name]))
      (Command.Triple.write fun _ hS => hS.push hroom name) fun _ => ?_
    have hchild : (expand task C fuel depth).Runs C (stack ++ [name]) := by
      apply ih
      · simpa using hroom
      · simp only [List.length_append, List.length_singleton]
        omega
    refine Command.Triple.bind
      (expandBody_runs hchild (hnodes.trans hfuel) name scope inputs mapping inherited)
      fun boundary => .of_fact fun _ => ?_
    refine Command.Triple.bind (R := fun _ S => S.Within C stack)
      (Command.Triple.write fun _ hS => hS.pop) fun _ => ?_
    exact Command.Triple.pure fun _ hS => ⟨trivial, hS⟩

end Loop

/-! ## More fuel -/

section Fuel

open Command

variable {task : RevisionDocument} {C : CompileContext} {F : Frame}

/-- A call that does what the other does, unless it runs out of fuel. -/
def Child.Approximates (child child' : Child) : Prop :=
  ∀ name scope inputs mapping inherited, Command.Approximates Halt.unfinished
    (child name scope inputs mapping inherited) (child' name scope inputs mapping inherited)

variable {child child' : Child}

theorem expandNode_approximates (h : child.Approximates child') (values : Values)
    (node : TaskNode) : Command.Approximates Halt.unfinished
      (expandNode task C child F values node) (expandNode task C child' F values node) := by
  rw [expandNode, expandNode]
  refine .bind (.refl _) fun site => ?_
  split
  case h_1 pipeline bindings hoperator =>
    exact .bind (.refl _) fun mapped => .bind (h _ _ _ _ _) fun boundary => .refl _
  case h_2 => exact .refl _
  case h_3 => exact .refl _

theorem sweep_approximates (h : child.Approximates child') (l : List String) (P : Progress) :
    Command.Approximates Halt.unfinished (sweep task C child F l P)
      (sweep task C child' F l P) := by
  induction l generalizing P with
  | nil => exact .refl _
  | cons id rest ih =>
    rw [sweep, sweep]
    refine .bind (.refl _) fun node => ?_
    split
    case isTrue => exact ih P
    case isFalse =>
      exact .bind (expandNode_approximates h P.values node) fun outputs => ih (P.done id outputs)

theorem rounds_approximates (h : child.Approximates child') (fuel : ℕ)
    (pending : OrdMap String TaskNode) (values : Values) :
    Command.Approximates Halt.unfinished (rounds task C child F fuel pending values)
      (rounds task C child' F (fuel + 1) pending values) := by
  induction fuel generalizing pending values with
  | zero =>
    rw [rounds, rounds]
    split
    case isTrue => exact .refl _
    case isFalse => exact .of_stuck
  | succ fuel ih =>
    rw [rounds, rounds]
    split
    case isTrue => exact .refl _
    case isFalse =>
      refine .bind (sweep_approximates h pending.keys _) fun P => ?_
      exact .bind (.refl _) fun _ => ih P.pending P.values

theorem expandBody_approximates (h : child.Approximates child') (fuel : ℕ)
    (definition : PipelineDefinition) :
    (expandBody task C child fuel definition).Approximates
      (expandBody task C child' (fuel + 1) definition) := by
  intro name scope inputs mapping inherited
  rw [expandBody, expandBody]
  refine .bind (.refl _) fun opened => ?_
  exact .bind (rounds_approximates h fuel opened.2 .empty) fun values => .refl _

theorem expand_approximates (fuel depth : ℕ) :
    (expand task C fuel depth).Approximates (expand task C (fuel + 1) (depth + 1)) := by
  induction depth with
  | zero => exact fun _ _ _ _ _ => .of_stuck
  | succ depth ih =>
    intro name scope inputs mapping inherited
    rw [expand, expand]
    refine .bind (.refl _) fun definition => .bind (.refl _) fun _ => ?_
    exact .bind (expandBody_approximates ih fuel definition _ _ _ _ _) fun boundary => .refl _

/-- A compilation with more fuel is the same compilation, unless it was unfinished. -/
theorem compileTask_approximates (task : RevisionDocument) (root : String) (C : CompileContext)
    {fuel fuel' : ℕ} (hle : fuel ≤ fuel') : Command.Approximates Halt.unfinished
      (compileTask fuel task root C) (compileTask fuel' task root C) := by
  refine Command.Approximates.of_le (c := fun n => compileTask n task root C) (fun n => ?_) hle
  rw [compileTask, compileTask]
  refine .bind ?_ fun compiled => .refl _
  rw [compileStructure, compileStructure]
  refine .bind (.refl _) fun opened => ?_
  exact .bind (expand_approximates n n _ _ _ _ _) fun boundary => .refl _

end Fuel

/-! ## The whole compilation -/

/-- A graph as a compilation leaves it: within the node limit, in the scheduler's order. -/
structure Compiled (C : CompileContext) (G : CompiledTask) : Prop where
  nodes : G.nodes.entries.length ≤ C.maxNodes
  ordered : G.Ordered

theorem Compiler.finish_compiled {C : CompileContext} {task : RevisionDocument} {root : String}
    {preparation : Bool} {definition : PipelineDefinition} {boundary : Boundary} {S : Compiler}
    {stack : List String} {compiled : CompiledTask × List String} (hS : S.Within C stack)
    (h : Compiler.finish C task root preparation definition boundary S = .ok compiled) :
    Compiled C compiled.1 := by
  rw [Compiler.finish] at h
  obtain ⟨-, -, h⟩ := bind_eq_ok.mp h
  obtain ⟨planned, hplanned, h⟩ := bind_eq_ok.mp h
  obtain ⟨-, -, h⟩ := bind_eq_ok.mp h
  cases h
  exact ⟨hS.nodes, planned, hplanned, rfl⟩

theorem compileTask_runs (task : RevisionDocument) (root : String) (C : CompileContext) {fuel : ℕ}
    (hfuel : 64 ≤ fuel) : Runs C [] (compileTask fuel task root C) (Compiled C) := by
  have hopen : Runs C [] (Expansion.step (Compiler.openRoot C task root))
      fun _ => C.maxDepth ≤ 4 :=
    .step fun _ _ h => Compiler.openRoot_keeps h
  have hstructure : Runs C [] (compileStructure fuel task root C false)
      fun compiled => Compiled C compiled.1 := by
    rw [compileStructure]
    refine Runs.bind hopen fun opened hlimit => ?_
    have hexpand : (expand task C fuel fuel).Runs C [] :=
      expand_runs hfuel (Nat.zero_le _) (by simp only [List.length_nil]; omega)
    refine Runs.bind (hexpand _ _ _ _ _) fun boundary _ => ?_
    exact .consult fun _ _ hS h => Compiler.finish_compiled hS h
  rw [compileTask]
  refine Runs.bind hstructure fun compiled hcompiled => ?_
  refine .consult fun _ G _ h => ?_
  rw [admitStructure] at h
  obtain ⟨-, -, h⟩ := bind_eq_ok.mp h
  obtain ⟨-, -, h⟩ := bind_eq_ok.mp h
  cases h
  exact hcompiled

/-- **A compilation ends within its bounds.** Whatever Pipelines are installed, every fuel from 64
on gives the same outcome, which is a graph or a refusal; no call went deeper than the depth limit
and no node past the node limit; and the order of a graph has each node once, after the producers
of its inputs and conditions. -/
theorem compileTask_bounded (task : RevisionDocument) (root : String) (C : CompileContext) :
    ∃ reply S, (∀ fuel, 64 ≤ fuel → (compileTask fuel task root C).run {} = (reply, S)) ∧
      reply ≠ .error .unfinished ∧
      S.deepest ≤ C.maxDepth ∧ S.nodes.entries.length ≤ C.maxNodes ∧
      ∀ G, reply = .ok G → G.nodes.entries.length ≤ C.maxNodes ∧
        GreedyOrder.Topological G.ids G.DependsOn G.order := by
  have hstart : Compiler.Within C [] {} := ⟨rfl, Nat.zero_le _, Nat.zero_le _⟩
  rcases hrun : (compileTask 64 task root C).run {} with ⟨reply, S⟩
  have hruns := compileTask_runs task root C le_rfl {} hstart
  rw [hrun] at hruns
  have hfinished : reply ≠ .error .unfinished := by
    rintro rfl
    exact hruns.1 rfl
  have hfuel : ∀ fuel, 64 ≤ fuel → (compileTask fuel task root C).run {} = (reply, S) := by
    intro fuel hle
    have hmore := compileTask_approximates task root C hle
    exact (hmore.run_eq (by rw [hrun]; exact hfinished)).trans hrun
  refine ⟨reply, S, hfuel, hfinished, ?_⟩
  cases reply with
  | error e =>
    obtain ⟨-, stack, hS⟩ := hruns
    exact ⟨hS.deepest, hS.nodes, nofun⟩
  | ok G =>
    obtain ⟨hcompiled, hS⟩ := hruns
    refine ⟨hS.deepest, hS.nodes, ?_⟩
    rintro _ ⟨⟩
    exact ⟨hcompiled.nodes, hcompiled.ordered.topological⟩

end Afactory
