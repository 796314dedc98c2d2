import Mathlib
import Afactory.Checks
import Afactory.CompiledTask
import Afactory.LongestPath
import Afactory.SchedulerPlan

/-!
# The mandatory path of a compiled graph

`mandatory_path` of `review-graph/src/task.rs`: the longest dependency path of mandatory wall time,
by a table filled in graph order and read backwards.

* `CompiledTask.mandatoryPath`, `mandatoryPathWallMs`: the path and its wall time;
* `mandatoryWall`: the wall of the one Attempt every run of the Task needs of a node;
* `Chain`: nodes each of which reads an output of the one before;
* `PathTable`: what the table holds after a beginning of the order;
* `mandatory_path_longest`: the path is that of a longest chain, or a chain overflows.
-/

namespace Afactory

/-- `max_by_key`: the last of the largest. -/
def maxByKey {α : Type*} (key : α → ℕ) (l : List α) : Option α :=
  l.foldl (fun best x => match best with
    | none => some x
    | some b => if key b ≤ key x then some x else some b) none

theorem maxByKey_append_singleton {α : Type*} (key : α → ℕ) (l : List α) (x : α) :
    maxByKey key (l ++ [x]) = match maxByKey key l with
      | none => some x
      | some b => if key b ≤ key x then some x else some b := by
  rw [maxByKey, List.foldl_append]
  rfl

theorem maxByKey_spec {α : Type*} (key : α → ℕ) (l : List α) :
    (maxByKey key l = none → l = []) ∧
      ∀ b, maxByKey key l = some b → b ∈ l ∧ ∀ x ∈ l, key x ≤ key b := by
  induction l using List.reverseRecOn with
  | nil => simp [maxByKey]
  | append_singleton l x ih =>
    rw [maxByKey_append_singleton]
    cases hmax : maxByKey key l with
    | none => simp [ih.1 hmax]
    | some b =>
      obtain ⟨hmem, hlargest⟩ := ih.2 b hmax
      dsimp only
      split_ifs with hle
      · simp only [false_implies, Option.some.injEq, true_and]
        rintro _ rfl
        refine ⟨by simp, fun y hy => ?_⟩
        rcases List.mem_append.mp hy with hy | hy
        · exact (hlargest y hy).trans hle
        · rw [List.mem_singleton.mp hy]
      · simp only [false_implies, Option.some.injEq, true_and]
        rintro _ rfl
        refine ⟨by simp [hmem], fun y hy => ?_⟩
        rcases List.mem_append.mp hy with hy | hy
        · exact hlargest y hy
        · rw [List.mem_singleton.mp hy]
          exact (Nat.lt_of_not_le hle).le

namespace CompiledTask

open GreedyOrder LongestPath

/-! ## The table -/

/-- A node's longest path wall, its own Attempt's wall and the node before it on that path. -/
structure PathEntry where
  wall : ℕ
  own : ℕ
  previous : Option String
  deriving DecidableEq, Repr

abbrev PathWalls := OrdMap String PathEntry

/-- Whether every condition of a node is a Provider admission. -/
def admissionConditions (G : CompiledTask) : List CompiledCondition → Except String Bool
  | [] => .ok true
  | c :: rest =>
    match G.nodes.get c.source.node with
    | none => .error "no entry found for key"
    | some source =>
      if source.operator.isProviderAdmission then admissionConditions G rest else .ok false

/-- The wall of the node's own mandatory Attempt. -/
def ownWall (G : CompiledTask) (name : String) (node : CompiledNode) : Except String ℕ :=
  match G.allowances.get name with
  | none => .ok 0
  | some a =>
    if a.verificationAttempts = 0 then do
      let admitted ← G.admissionConditions node.conditions
      return if admitted then a.wallMsPerAttempt else 0
    else .ok 0

/-- The longest of the paths to the nodes a node reads from. -/
def priorPath (table : PathWalls) (node : CompiledNode) : Option (ℕ × String) :=
  maxByKey Prod.fst (node.producers.filterMap fun source =>
    (table.get source).map fun entry => (entry.wall, source))

/-- The first loop of `mandatory_path`. -/
def pathStep (G : CompiledTask) (table : PathWalls) (name : String) : Except String PathWalls :=
  match G.nodes.get name with
  | none => .error "no entry found for key"
  | some node => do
    let prior := priorPath table node
    let own ← G.ownWall name node
    let wall := (prior.map Prod.fst).getD 0 + own
    if wall < u64Bound then return table.insert name ⟨wall, own, prior.map Prod.snd⟩
    else throw "Task wall path overflow"

/-- The second loop: the first node in graph order among those with the longest wall. -/
def keepLonger (table : PathWalls) (last : Option (ℕ × String)) (name : String) :
    Except String (Option (ℕ × String)) :=
  match table.get name with
  | none => .error "no entry found for key"
  | some entry => .ok (match last with
    | none => some (entry.wall, name)
    | some (longest, kept) =>
      if longest < entry.wall then some (entry.wall, name) else some (longest, kept))

/-- The last loop, back along the path: one round for each unit of fuel, without an answer when
it runs out. -/
def walkBack (table : PathWalls) :
    ℕ → Option String → List (String × ℕ) → Option (Except String (List (String × ℕ)))
  | _, none, path => some (.ok path.reverse)
  | 0, some _, _ => none
  | fuel + 1, some name, path =>
    match table.get name with
    | none => some (.error "no entry found for key")
    | some entry =>
      walkBack table fuel entry.previous
        (if 0 < entry.own then path ++ [(name, entry.own)] else path)

/-- `mandatory_path`, with fuel for its last loop. -/
def mandatoryPath (G : CompiledTask) (fuel : ℕ) : Option (Except String (List (String × ℕ))) :=
  match G.order.foldlM G.pathStep .empty with
  | .error e => some (.error e)
  | .ok table =>
    match G.order.foldlM (keepLonger table) none with
    | .error e => some (.error e)
    | .ok last => walkBack table fuel (last.map Prod.snd) []

/-- `mandatory_path_wall_ms`, a wrapping sum. -/
def mandatoryPathWallMs (G : CompiledTask) (fuel : ℕ) : Option (Except String ℕ) :=
  (G.mandatoryPath fuel).map fun answer => do
    let path ← answer
    return (path.map Prod.snd).sum % u64Bound

/-! ## Chains -/

/-- The wall of a node's mandatory Attempt: none if it verifies, or stands on a branch. -/
def mandatoryWall (G : CompiledTask) (name : String) : ℕ :=
  match G.nodes.get name, G.allowances.get name with
  | some node, some a => if G.mandatory node a then a.wallMsPerAttempt else 0
  | _, _ => 0

/-- A dependency chain: nodes of the graph, each of which reads an output of the one before. -/
structure Chain (G : CompiledTask) (c : List String) : Prop where
  nodes : ∀ x ∈ c, x ∈ G.ids
  reads : c.IsChain G.DependsOn

/-- The mandatory wall of a chain. -/
def chainWall (G : CompiledTask) (c : List String) : ℕ := total G.mandatoryWall c

/-- The nodes of a chain that hold mandatory Attempts, each with its wall. -/
def mandatoryNodes (G : CompiledTask) (c : List String) : List (String × ℕ) :=
  (c.filter fun x => 0 < G.mandatoryWall x).map fun x => (x, G.mandatoryWall x)

variable {G : CompiledTask} {table : PathWalls} {name : String} {node : CompiledNode}
  {front back : List String}

theorem mandatoryNodes_append (G : CompiledTask) (c c' : List String) :
    G.mandatoryNodes (c ++ c') = G.mandatoryNodes c ++ G.mandatoryNodes c' := by
  simp [mandatoryNodes]

theorem mandatoryNodes_reverse (G : CompiledTask) (c : List String) :
    G.mandatoryNodes c.reverse = (G.mandatoryNodes c).reverse := by
  simp [mandatoryNodes]

/-- The nodes left out weigh nothing. -/
theorem sum_mandatoryNodes (G : CompiledTask) (c : List String) :
    ((G.mandatoryNodes c).map Prod.snd).sum = G.chainWall c := by
  induction c with
  | nil => rfl
  | cons x c ih =>
    rw [← List.singleton_append, mandatoryNodes_append, List.map_append, List.sum_append, ih,
      chainWall, chainWall, total_append, total_singleton]
    congr 1
    by_cases hx : 0 < G.mandatoryWall x
    · simp [mandatoryNodes, hx]
    · simp [mandatoryNodes, Nat.eq_zero_of_not_pos hx]

/-- Nodes further along a chain depend on the earlier ones, directly or through others. -/
theorem Chain.mandatoryNodes_pairwise {c : List String} (h : G.Chain c) :
    ((G.mandatoryNodes c).map Prod.fst).Pairwise (Relation.TransGen G.DependsOn) := by
  have hmap : (G.mandatoryNodes c).map Prod.fst = c.filter fun x => 0 < G.mandatoryWall x := by
    rw [mandatoryNodes, List.map_map]
    exact List.map_id _
  rw [hmap]
  have hchain : c.IsChain (Relation.TransGen G.DependsOn) := h.reads.imp fun _ _ => .single
  exact hchain.pairwise.sublist List.filter_sublist

/-- A condition whose source admits a provider. -/
def admitsProvider (G : CompiledTask) (c : CompiledCondition) : Bool :=
  match G.nodes.get c.source.node with
  | some source => source.operator.isProviderAdmission
  | none => false

/-- A node's own wall is its mandatory wall, the sources of its conditions being nodes. -/
theorem ownWall_eq (h : G.Ordered) (hnode : G.nodes.get name = some node) :
    G.ownWall name node = .ok (G.mandatoryWall name) := by
  have hconditions : ∀ l : List CompiledCondition, (∀ c ∈ l, c ∈ node.conditions) →
      G.admissionConditions l = .ok (l.all (admitsProvider G)) := by
    intro l hl
    induction l with
    | nil => rfl
    | cons c l ih =>
      have hdepends : G.DependsOn c.source.node name :=
        ⟨node, hnode, List.mem_append_right _
          (List.mem_map_of_mem (f := fun c : CompiledCondition => c.source.node)
            (hl c List.mem_cons_self))⟩
      obtain ⟨source, hsource⟩ := h.mem_ids hdepends
      simp only [admissionConditions, admitsProvider, hsource, List.all_cons]
      cases source.operator.isProviderAdmission with
      | true => simpa using ih fun c hc => hl c (List.mem_cons_of_mem _ hc)
      | false => simp
  rw [ownWall, mandatoryWall, hnode]
  cases hallowance : G.allowances.get name with
  | none => rfl
  | some a =>
    dsimp only
    by_cases hverifies : a.verificationAttempts = 0
    · rw [if_pos hverifies, hconditions node.conditions fun _ hc => hc, ok_bind, mandatory]
      simp only [hverifies, decide_true, Bool.true_and]
      rfl
    · simp [hverifies, mandatory]

/-! ## Filling the table -/

/-- What the table says of a node's longest wall and of the node before. -/
def tableWall (table : PathWalls) (x : String) : ℕ := ((table.get x).map PathEntry.wall).getD 0

def tablePrevious (table : PathWalls) (x : String) : Option String :=
  (table.get x).bind PathEntry.previous

/-- The table after a beginning of the order. -/
structure PathTable (G : CompiledTask) (front : List String) (table : PathWalls) : Prop where
  mem : ∀ x, (∃ entry, table.get x = some entry) ↔ x ∈ front
  own : ∀ x entry, table.get x = some entry → entry.own = G.mandatoryWall x
  bounded : ∀ x, tableWall table x < u64Bound
  longest : Longest {x | x ∈ front} G.DependsOn G.mandatoryWall (tableWall table)
    (tablePrevious table)

theorem pathTable_empty (G : CompiledTask) : PathTable G [] .empty where
  mem := by simp
  own := by simp
  bounded := by simp [tableWall, u64Bound]
  longest := by simpa using longest_empty

/-- The prior path of a node: none if it reads from nothing, or else the longest. -/
theorem PathTable.prior (h : PathTable G front table)
    (hfront : ∀ x, G.DependsOn x name → x ∈ front) (hnode : G.nodes.get name = some node) :
    (priorPath table node = none → ∀ x, ¬ G.DependsOn x name) ∧
      ∀ wall x, priorPath table node = some (wall, x) →
        G.DependsOn x name ∧ wall = tableWall table x ∧
          ∀ z, G.DependsOn z name → tableWall table z ≤ wall := by
  obtain ⟨hnone, hsome⟩ := maxByKey_spec Prod.fst (node.producers.filterMap fun source =>
    (table.get source).map fun entry => (entry.wall, source))
  have hlisted : ∀ x, G.DependsOn x name → (tableWall table x, x) ∈
      node.producers.filterMap fun source =>
        (table.get source).map fun entry => (entry.wall, source) := by
    rintro x hx
    obtain ⟨entry, hentry⟩ := (h.mem x).mpr (hfront x hx)
    obtain ⟨node', hnode', hproducer⟩ := hx
    rw [hnode] at hnode'
    cases hnode'
    exact List.mem_filterMap.mpr ⟨x, hproducer, by simp [hentry, tableWall]⟩
  constructor
  · intro hprior x hx
    have hmem := hlisted x hx
    rw [hnone hprior] at hmem
    cases hmem
  · intro wall x hprior
    obtain ⟨hmem, hlargest⟩ := hsome (wall, x) hprior
    obtain ⟨source, hproducer, hentry⟩ := List.mem_filterMap.mp hmem
    obtain ⟨entry, hget, heq⟩ := Option.map_eq_some_iff.mp hentry
    cases heq
    exact ⟨⟨node, hnode, hproducer⟩, by simp [tableWall, hget],
      fun z hz => hlargest (tableWall table z, z) (hlisted z hz)⟩

/-- A chain of the weight the table says, for each node it has. -/
theorem PathTable.exists_chain (h : PathTable G front table) (hG : G.Ordered)
    (hsplit : G.order = front ++ back) {x : String} (hx : x ∈ front) :
    ∃ c, G.Chain (c ++ [x]) ∧ G.chainWall (c ++ [x]) = tableWall table x ∧
      ∀ n, front.length ≤ n → walk (tablePrevious table) n (some x) = some (c ++ [x]).reverse := by
  have htopological := hG.topological
  rw [hsplit] at htopological
  obtain ⟨before, after, hfront⟩ := List.append_of_mem hx
  obtain ⟨c, hreads, hnodes, htotal, hwalk⟩ :=
    h.longest.walk_chain htopological.beginning before after hfront
  refine ⟨c, ⟨fun y hy => ?_, hreads⟩, htotal, fun n hn => hwalk n ?_⟩
  · exact (htopological.mem_iff y).mp (List.mem_append_left _ (hnodes y hy))
  · rw [hfront, List.length_append, List.length_cons] at hn
    omega

/-- **One node** enters the table, unless a chain that ends with it overflows. -/
theorem PathTable.step (h : PathTable G front table) (hG : G.Ordered)
    (hsplit : G.order = front ++ name :: back) :
    (∃ table', G.pathStep table name = .ok table' ∧ PathTable G (front ++ [name]) table') ∨
      G.pathStep table name = .error "Task wall path overflow" ∧
        ∃ c, G.Chain c ∧ u64Bound ≤ G.chainWall c := by
  have htopological := hG.topological
  rw [hsplit] at htopological
  obtain ⟨⟨node, hnode⟩, hnew, hfront⟩ := htopological.ready
  obtain ⟨hnone, hsome⟩ := h.prior hfront hnode
  rw [pathStep, hnode]
  dsimp only
  rw [ownWall_eq hG hnode, ok_bind]
  split_ifs with hbound
  · refine .inl ⟨_, rfl, ?_⟩
    set added : PathEntry := ⟨((priorPath table node).map Prod.fst).getD 0 +
      G.mandatoryWall name, G.mandatoryWall name, (priorPath table node).map Prod.snd⟩
    have hget : ∀ x, (table.insert name added).get x =
        if x = name then some added else table.get x := fun x => OrdMap.get_insert _ _ _ _
    refine ⟨fun x => ?_, fun x entry hentry => ?_, fun x => ?_, ?_⟩
    · rw [hget, List.mem_append, List.mem_singleton, ← h.mem]
      split_ifs with hx <;> simp [hx]
    · rw [hget] at hentry
      split_ifs at hentry with hx
      · cases hentry
        rw [hx]
      · exact h.own x entry hentry
    · rw [tableWall, hget]
      split_ifs
      · simpa using hbound
      · exact h.bounded x
    · have hset : {x | x ∈ front ++ [name]} = insert name {x | x ∈ front} := by
        ext x
        simp [or_comm]
      rw [hset]
      refine h.longest.extend ?_ ?_ ?_ ?_
      · rintro y (rfl | hy) z hz
        · exact hfront z hz
        · obtain ⟨front', back', hy⟩ := List.append_of_mem hy
          have hmem := htopological.beginning.ordered front' y back' hy z hz
          rw [Set.mem_ofPred_eq, hy]
          exact List.mem_append_left _ hmem
      · intro y hy
        have hne : y ≠ name := by
          rintro rfl
          exact hnew hy
        simp only [tableWall, tablePrevious, hget, if_neg hne, and_self]
      · intro hprevious
        have hprevious : priorPath table node = none := by
          simpa [tablePrevious, hget, added] using hprevious
        exact ⟨hnone hprevious, by simp [tableWall, added, hprevious]⟩
      · intro y hprevious
        have hprevious : (priorPath table node).map Prod.snd = some y := by
          simpa [tablePrevious, hget, added] using hprevious
        obtain ⟨⟨wall, _⟩, hprior, rfl⟩ := Option.map_eq_some_iff.mp hprevious
        obtain ⟨hdepends, rfl, hlargest⟩ := hsome _ _ hprior
        exact ⟨hdepends, by simp [tableWall, added, hprior], hlargest⟩
  · refine .inr ⟨rfl, ?_⟩
    have hname : name ∈ G.ids := ⟨node, hnode⟩
    cases hprior : priorPath table node with
    | none =>
      rw [hprior] at hbound
      refine ⟨[name], ⟨by simpa using hname, by simp⟩, ?_⟩
      simpa [chainWall] using hbound
    | some longest =>
      obtain ⟨wall, x⟩ := longest
      obtain ⟨hdepends, rfl, -⟩ := hsome wall x hprior
      obtain ⟨c, hchain, hwall, -⟩ := h.exists_chain hG hsplit (hfront x hdepends)
      rw [hprior] at hbound
      refine ⟨(c ++ [x]) ++ [name], ⟨?_, ?_⟩, ?_⟩
      · intro y hy
        rcases List.mem_append.mp hy with hy | hy
        · exact hchain.nodes y hy
        · rwa [List.mem_singleton.mp hy]
      · exact List.isChain_append.mpr ⟨hchain.reads, by simp, by simpa using hdepends⟩
      · rw [chainWall, total_append, total_singleton, ← chainWall, hwall]
        simpa using hbound

/-- **The whole table**, or a chain that overflows. -/
theorem pathTable_order (hG : G.Ordered) :
    (∃ table, G.order.foldlM G.pathStep .empty = .ok table ∧ PathTable G G.order table) ∨
      G.order.foldlM G.pathStep .empty = .error "Task wall path overflow" ∧
        ∃ c, G.Chain c ∧ u64Bound ≤ G.chainWall c := by
  have hfrom : ∀ back front table, G.order = front ++ back → PathTable G front table →
      (∃ table', back.foldlM G.pathStep table = .ok table' ∧ PathTable G G.order table') ∨
        back.foldlM G.pathStep table = .error "Task wall path overflow" ∧
          ∃ c, G.Chain c ∧ u64Bound ≤ G.chainWall c := by
    intro back
    induction back with
    | nil =>
      intro front table hsplit h
      rw [List.append_nil] at hsplit
      exact .inl ⟨table, rfl, by rwa [hsplit]⟩
    | cons name back ih =>
      intro front table hsplit h
      rw [List.foldlM_cons]
      rcases h.step hG hsplit with ⟨next, hnext, hnextTable⟩ | ⟨herror, hchain⟩
      · rw [hnext, ok_bind]
        exact ih (front ++ [name]) next (by simpa using hsplit) hnextTable
      · rw [herror, error_bind]
        exact .inr ⟨rfl, hchain⟩
  exact hfrom G.order [] .empty rfl (pathTable_empty G)

/-- No chain is longer than the table says of its last node. -/
theorem PathTable.chainWall_le (h : PathTable G G.order table) (hG : G.Ordered) {c : List String}
    {x : String} (hc : G.Chain (c ++ [x])) : G.chainWall (c ++ [x]) ≤ tableWall table x :=
  h.longest.total_le (fun y hy => (hG.topological.mem_iff y).mpr (hc.nodes y hy)) hc.reads

/-! ## Reading the path back -/

/-- The second loop finds a node with the longest wall, if there is a node. -/
theorem keepLonger_spec {l : List String} {last : Option (ℕ × String)}
    (hl : ∀ x ∈ l, ∃ entry, table.get x = some entry)
    (hlast : ∀ wall x, last = some (wall, x) → wall = tableWall table x) :
    ∃ found, l.foldlM (keepLonger table) last = .ok found ∧
      (found = none → l = [] ∧ last = none) ∧
      ∀ wall x, found = some (wall, x) → wall = tableWall table x ∧
        (x ∈ l ∨ last = some (wall, x)) ∧ (∀ y ∈ l, tableWall table y ≤ wall) ∧
        ∀ wall' y, last = some (wall', y) → wall' ≤ wall := by
  induction l generalizing last with
  | nil =>
    refine ⟨last, rfl, fun h => ⟨rfl, h⟩, fun wall x hfound => ?_⟩
    refine ⟨hlast wall x hfound, .inr hfound, by simp, fun wall' y hy => ?_⟩
    rw [hfound] at hy
    cases hy
    exact le_rfl
  | cons name l ih =>
    obtain ⟨entry, hentry⟩ := hl name List.mem_cons_self
    have hwall : tableWall table name = entry.wall := by simp [tableWall, hentry]
    have hl' : ∀ x ∈ l, ∃ entry, table.get x = some entry :=
      fun x hx => hl x (List.mem_cons_of_mem _ hx)
    rw [List.foldlM_cons, keepLonger, hentry]
    dsimp only
    rw [ok_bind]
    -- what is kept after the first node: it, or the longest so far
    obtain ⟨kept, wallKept, hkept, hnew, hlonger, hold⟩ : ∃ kept wallKept,
        (match last with
          | none => some (entry.wall, name)
          | some (longest, kept) =>
            if longest < entry.wall then some (entry.wall, name) else some (longest, kept)) =
          some (wallKept, kept) ∧ wallKept = tableWall table kept ∧
        tableWall table name ≤ wallKept ∧
        ((kept = name ∧ ∀ wall y, last = some (wall, y) → wall ≤ wallKept) ∨
          last = some (wallKept, kept)) := by
      rw [hwall]
      cases hcase : last with
      | none => exact ⟨name, entry.wall, rfl, hwall.symm, le_rfl, .inl ⟨rfl, by simp⟩⟩
      | some pair =>
        obtain ⟨longest, kept⟩ := pair
        dsimp only
        split_ifs with hlt
        · refine ⟨name, entry.wall, rfl, hwall.symm, le_rfl, .inl ⟨rfl, ?_⟩⟩
          rintro wall y heq
          cases heq
          exact hlt.le
        · exact ⟨kept, longest, rfl, hlast longest kept hcase, Nat.le_of_not_lt hlt, .inr rfl⟩
    rw [hkept]
    have hnext : ∀ wall x, some (wallKept, kept) = some (wall, x) → wall = tableWall table x := by
      rintro wall x heq
      cases heq
      exact hnew
    obtain ⟨found, hfound, hnone, hsome⟩ := ih hl' hnext
    refine ⟨found, hfound, fun h => (by cases (hnone h).2), fun wall x h => ?_⟩
    obtain ⟨heq, hmem, hlargest, hge⟩ := hsome wall x h
    have hge := hge wallKept kept rfl
    refine ⟨heq, ?_, ?_, ?_⟩
    · rcases hmem with hmem | hmem
      · exact .inl (List.mem_cons_of_mem _ hmem)
      · cases hmem
        rcases hold with ⟨rfl, -⟩ | hold
        · exact .inl List.mem_cons_self
        · exact .inr hold
    · intro y hy
      rcases List.mem_cons.mp hy with rfl | hy
      · exact hlonger.trans hge
      · exact hlargest y hy
    · intro wall' y hlast'
      rcases hold with ⟨-, hold⟩ | hold
      · exact (hold wall' y hlast').trans hge
      · rw [hold] at hlast'
        cases hlast'
        exact hge

/-- The last loop reads what walking back meets. -/
theorem walkBack_eq (hown : ∀ x entry, table.get x = some entry → entry.own = G.mandatoryWall x)
    {n : ℕ} {next : Option String} {c : List String}
    (h : walk (tablePrevious table) n next = some c)
    (hc : ∀ x ∈ c, ∃ entry, table.get x = some entry) (path : List (String × ℕ)) :
    walkBack table n next path = some (.ok (path ++ G.mandatoryNodes c).reverse) := by
  induction n generalizing next c path with
  | zero =>
    cases next with
    | none =>
      cases h
      simp [walkBack, mandatoryNodes]
    | some x => cases h
  | succ n ih =>
    cases next with
    | none =>
      cases h
      simp [walkBack, mandatoryNodes]
    | some x =>
      obtain ⟨rest, hrest, rfl⟩ := Option.map_eq_some_iff.mp h
      obtain ⟨entry, hentry⟩ := hc x List.mem_cons_self
      have hprevious : tablePrevious table x = entry.previous := by simp [tablePrevious, hentry]
      rw [hprevious] at hrest
      rw [walkBack, hentry]
      dsimp only
      rw [ih hrest fun y hy => hc y (List.mem_cons_of_mem _ hy), hown x entry hentry]
      congr 3
      by_cases hx : 0 < G.mandatoryWall x
      · simp [mandatoryNodes, hx]
      · simp [mandatoryNodes, hx]

/-- **How `mandatory_path` answers**: an overflow, or the nodes of a longest chain. -/
theorem mandatoryPath_cases (hG : G.Ordered) :
    ((∀ fuel, G.mandatoryPath fuel = some (.error "Task wall path overflow")) ∧
        ∃ c, G.Chain c ∧ u64Bound ≤ G.chainWall c) ∨
      ∃ c, G.Chain c ∧ G.chainWall c < u64Bound ∧
        (∀ c', G.Chain c' → G.chainWall c' ≤ G.chainWall c) ∧
        ∀ fuel, G.order.length ≤ fuel →
          G.mandatoryPath fuel = some (.ok (G.mandatoryNodes c)) := by
  rcases pathTable_order hG with ⟨table, htable, h⟩ | ⟨herror, hchain⟩
  · have hstart : ∀ wall x, (none : Option (ℕ × String)) = some (wall, x) →
        wall = tableWall table x := by simp
    obtain ⟨last, hlast, hnone, hsome⟩ :=
      keepLonger_spec (fun x hx => (h.mem x).mpr hx) hstart
    -- the chain the last loop reads, from the node the second loop found
    obtain ⟨c, hc, hwalk, hbound, hlongest⟩ : ∃ c, G.Chain c ∧
        (∀ n, G.order.length ≤ n →
          walk (tablePrevious table) n (last.map Prod.snd) = some c.reverse) ∧
        G.chainWall c < u64Bound ∧ ∀ c', G.Chain c' → G.chainWall c' ≤ G.chainWall c := by
      cases hfound : last with
      | none =>
        have hempty := (hnone hfound).1
        refine ⟨[], ⟨by simp, by simp⟩, by simp [walk], by simp [chainWall, u64Bound], ?_⟩
        intro c' hc'
        cases c' with
        | nil => exact le_rfl
        | cons x c' =>
          have hx := (hG.topological.mem_iff x).mpr (hc'.nodes x List.mem_cons_self)
          rw [hempty] at hx
          cases hx
      | some pair =>
        obtain ⟨wall, x⟩ := pair
        obtain ⟨rfl, hmem, hlargest, -⟩ := hsome wall x hfound
        have hx : x ∈ G.order := by simpa using hmem
        obtain ⟨c, hchain, hwall, hwalk⟩ :=
          h.exists_chain hG (List.append_nil _).symm hx
        refine ⟨c ++ [x], hchain, hwalk, hwall ▸ h.bounded x, fun c' hc' => ?_⟩
        rw [hwall]
        rcases List.eq_nil_or_concat c' with rfl | ⟨front, y, rfl⟩
        · exact Nat.zero_le _
        · rw [List.concat_eq_append] at hc' ⊢
          have hy := (hG.topological.mem_iff y).mpr (hc'.nodes y (by simp))
          exact (h.chainWall_le hG hc').trans (hlargest y hy)
    refine .inr ⟨c, hc, hbound, hlongest, fun fuel hfuel => ?_⟩
    rw [mandatoryPath, htable]
    dsimp only
    rw [hlast]
    dsimp only
    rw [walkBack_eq h.own (hwalk fuel hfuel) fun x hx => (h.mem x).mpr
      ((hG.topological.mem_iff x).mpr (hc.nodes x (List.mem_reverse.mp hx)))]
    rw [List.nil_append, mandatoryNodes_reverse, List.reverse_reverse]
  · refine .inl ⟨fun fuel => ?_, hchain⟩
    rw [mandatoryPath, herror]

/-- The walls of the nodes of a chain do not wrap where the chain's does not. -/
theorem mandatoryPathWallMs_eq {fuel : ℕ} {c : List String}
    (hpath : G.mandatoryPath fuel = some (.ok (G.mandatoryNodes c)))
    (hbound : G.chainWall c < u64Bound) :
    G.mandatoryPathWallMs fuel = some (.ok (G.chainWall c)) := by
  rw [mandatoryPathWallMs, hpath, Option.map_some, ok_bind, sum_mandatoryNodes,
    Nat.mod_eq_of_lt hbound]
  rfl

/-- **The mandatory path is a longest one.** On a graph in the planner's order the traceback ends
within as many rounds as there are nodes. Either some dependency chain has a wall of `2 ^ 64` or
more and the path is refused as an overflow, or the path lists the nodes of a longest chain that
hold mandatory Attempts, in dependency order, and its walls add up to that of the chain. -/
theorem mandatory_path_longest (G : CompiledTask) (hG : G.Ordered) :
    ∃ answer, (∀ fuel, G.order.length ≤ fuel → G.mandatoryPath fuel = some answer) ∧
      ((answer = .error "Task wall path overflow" ∧ ∃ c, G.Chain c ∧ u64Bound ≤ G.chainWall c) ∨
        ∃ path c, answer = .ok path ∧ G.Chain c ∧ path = G.mandatoryNodes c ∧
          (path.map Prod.fst).Pairwise (Relation.TransGen G.DependsOn) ∧
          (path.map Prod.snd).sum = G.chainWall c ∧ G.chainWall c < u64Bound ∧
          (∀ c', G.Chain c' → G.chainWall c' ≤ G.chainWall c) ∧
          ∀ fuel, G.order.length ≤ fuel →
            G.mandatoryPathWallMs fuel = some (.ok (G.chainWall c))) := by
  rcases mandatoryPath_cases hG with ⟨herror, hchain⟩ | ⟨c, hc, hbound, hlongest, hpath⟩
  · exact ⟨_, fun fuel _ => herror fuel, .inl ⟨rfl, hchain⟩⟩
  · exact ⟨_, hpath, .inr ⟨_, c, rfl, hc, rfl, hc.mandatoryNodes_pairwise,
      sum_mandatoryNodes G c, hbound, hlongest,
      fun fuel hfuel => mandatoryPathWallMs_eq (hpath fuel hfuel) hbound⟩⟩

/-- The port each node of the examples reads from the one before. -/
def reportPort : PipelinePort := { artifactType := "af/Report@1" }

/-- A node that reads the report of another, if it is given one. -/
def chainedNode (operator : TaskOperator) (source : Option String) : CompiledNode where
  operator := .primitive operator "sig"
  contract := {
    inputs := .ofList (source.toList.map fun _ => ("in", reportPort))
    outputs := .ofList [("out", reportPort)] }
  inputs := .ofList (source.toList.map fun node => ("in", ⟨node, "out"⟩))

/-- A Worker, its verifier, and a second Worker after both. -/
def verifiedWorkers : CompiledTask where
  schema := "af.compiled-task/1"
  nodes := .ofList [("a", chainedNode (.worker "worker") none),
    ("b", chainedNode (.verify "verifier") (some "a")),
    ("c", chainedNode (.worker "worker") (some "b"))]
  order := ["a", "b", "c"]
  allowances := .ofList [("a", ⟨1, 5, 1, 0⟩), ("b", ⟨1, 3, 1, 1⟩), ("c", ⟨1, 7, 1, 0⟩)]

/-- The verifier stands on the longest chain and is not listed. -/
theorem mandatory_path_longest_verified :
    verifiedWorkers.Ordered ∧ verifiedWorkers.mandatoryPath 3 = some (.ok [("a", 5), ("c", 7)]) ∧
      verifiedWorkers.mandatoryPathWallMs 3 = some (.ok 12) ∧
      ∀ c, verifiedWorkers.Chain c → verifiedWorkers.chainWall c ≤ 12 := by
  have hplan : (do let P ← verifiedWorkers.schedulerPlan; .ok P.order) =
      (.ok verifiedWorkers.order : Except String (List String)) := by
    decide
  obtain ⟨P, hP, horder⟩ := bind_eq_ok.mp hplan
  have hordered : verifiedWorkers.Ordered := ⟨P, hP, (Except.ok.inj horder).symm⟩
  have hpath : verifiedWorkers.mandatoryPath 3 = some (.ok [("a", 5), ("c", 7)]) := by
    decide
  obtain ⟨answer, hanswer, hcases⟩ := mandatory_path_longest verifiedWorkers hordered
  rw [hanswer 3 le_rfl] at hpath
  cases hpath
  rcases hcases with ⟨herror, -⟩ | ⟨path, c, hok, -, -, -, hsum, -, hlongest, hwall⟩
  · cases herror
  · cases hok
    have hsum : 12 = verifiedWorkers.chainWall c := hsum
    rw [← hsum] at hlongest hwall
    exact ⟨hordered, hanswer 3 le_rfl, hwall 3 le_rfl, hlongest⟩

/-- Three Workers, each after the one before, with Attempts of nearly 300 million years. -/
def threeWorkers : CompiledTask where
  schema := "af.compiled-task/1"
  nodes := .ofList [("a", chainedNode (.worker "worker") none),
    ("b", chainedNode (.worker "worker") (some "a")),
    ("c", chainedNode (.worker "worker") (some "b"))]
  order := ["a", "b", "c"]
  allowances := .ofList [("a", ⟨1, 9223372036854775807, 1, 0⟩),
    ("b", ⟨1, 9223372036854775807, 1, 0⟩), ("c", ⟨1, 9223372036854775807, 1, 0⟩)]

/-- The planner orders the three Workers, and their budget holds, but their path overflows. -/
theorem mandatory_path_overflows :
    threeWorkers.Ordered ∧
      (∃ B, threeWorkers.budget ⟨10, 3, 1, ⟨0, 0, 0⟩⟩ = .ok B) ∧
      ∀ fuel, threeWorkers.mandatoryPath fuel = some (.error "Task wall path overflow") := by
  refine ⟨?_, ?_, fun fuel => ?_⟩
  · have hplan : (do let P ← threeWorkers.schedulerPlan; .ok P.order) =
        (.ok threeWorkers.order : Except String (List String)) := by
      decide
    obtain ⟨P, hP, horder⟩ := bind_eq_ok.mp hplan
    exact ⟨P, hP, (Except.ok.inj horder).symm⟩
  · have hbudget : (threeWorkers.budget ⟨10, 3, 1, ⟨0, 0, 0⟩⟩).toOption.isSome = true := by
      decide
    obtain ⟨B, hB⟩ := Option.isSome_iff_exists.mp hbudget
    exact ⟨B, toOption_eq_some.mp hB⟩
  · have htable : threeWorkers.order.foldlM threeWorkers.pathStep .empty =
        .error "Task wall path overflow" := by
      decide
    rw [mandatoryPath, htable]

end CompiledTask

end Afactory
