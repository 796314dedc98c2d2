import Mathlib
import Afactory.Budget

/-!
# One Task's admission accounting

The `TaskBudget` of `review-attempt/src/task_budget.rs`, `task_budget/scopes.rs`
and `task_budget/owned.rs`: the token ledger of one Task, the Attempt counters of
its graph's nodes, the calls and token scopes that bound groups of nodes, and the
capacity still owed to verifiers, which every admission leaves untouched.

As for the ledger, an operation is `none` where the source would panic (a
reservation whose node is gone, a counter below zero) and otherwise answers
beside the budget it leaves. Refusals for protected capacity have constructors of
their own; every other refusal is its text.
-/

namespace Afactory

/-- One past the last `u32`. -/
def u32Bound : ℕ := 2 ^ 32

/-- The last integer every JSON reader keeps exactly. -/
def safeIntegerMax : ℕ := 9007199254740991

def defaultRecoveryAttempts : ℕ := 1

def maxRecoveryAttempts : ℕ := 8

/-! ## Names -/

/-- The parts of a text between its dots. -/
def splitDots : List Char → List (List Char)
  | [] => [[]]
  | c :: cs =>
    if c = '.' then [] :: splitDots cs
    else match splitDots cs with
      | [] => [[c]]
      | part :: parts => (c :: part) :: parts

/-- `is_name`: at most 128 ASCII letters, digits, and, past the first, `_` and `-`. -/
def isName (part : List Char) : Bool :=
  !part.isEmpty && part.length ≤ 128 &&
    part.zipIdx.all fun (c, i) => c.isAlphanum || (0 < i && (c = '_' || c = '-'))

/-- `name.split('.').all(is_name)`; the empty text has one empty part. -/
def qualified (name : String) : Bool := (splitDots name.toList).all isName

/-- Whether a node lies strictly under a scope. -/
def within (node scope : String) : Bool := (scope.toList ++ ['.']).isPrefixOf node.toList

/-- A token count with thousands separators. -/
def group (value : ℕ) : String :=
  let digits := (toString value).toList
  String.ofList ((digits.zipIdx.map fun (digit, index) =>
    if 0 < index && (digits.length - index) % 3 = 0 then [',', digit] else [digit]).flatten)

/-! ## Limits and allowances -/

/-- `VerificationReserveV1`. -/
structure VerificationReserve where
  tokens : ℕ
  attempts : ℕ
  wallMs : ℕ
  deriving DecidableEq, Repr

/-- `TaskLimitsV1`. -/
structure TaskLimits where
  tokens : ℕ
  maxAttempts : ℕ
  deadlineUnixMs : ℕ
  verification : VerificationReserve
  deriving DecidableEq, Repr

structure NodeAllowance where
  tokensPerAttempt : ℕ
  wallMsPerAttempt : ℕ
  maxAttempts : ℕ
  /-- Attempts protected from other nodes; only verifiers have this credit -/
  verificationAttempts : ℕ
  deriving DecidableEq, Repr

/-- Why a Task budget refuses. -/
inductive TaskBudgetError where
  | taskAttemptLimit
  | callAttemptLimit (scope : String)
  | taskTokenLimit (reservation protectedTokens remaining : ℕ)
  | tokenScope (name : String)
  /-- the token ledger refused the reservation -/
  | budget (e : BudgetError)
  | refused (text : String)
  deriving DecidableEq, Repr

/-- The refusal as a text. -/
def TaskBudgetError.message : TaskBudgetError → String
  | .taskAttemptLimit => "Task Attempt limit protects still-required verification"
  | .callAttemptLimit scope =>
    "Call " ++ scope ++ " Attempt limit protects still-required verification"
  | .taskTokenLimit reservation protectedTokens remaining =>
    "Task token limit protects still-required verification: reservation " ++ group reservation ++
      " + protected verification " ++ group protectedTokens ++ " > remaining " ++ group remaining
  | .tokenScope name =>
    "Task token scope " ++ name ++ " exhausted or protects still-required verification"
  | .budget e => e.message
  | .refused text => text

/-- A checked sum or product. -/
def checked (bound : ℕ) (text : String) (value : ℕ) : Except TaskBudgetError ℕ :=
  if value < bound then .ok value else .error (.refused text)

/-- `add`: a `u64` sum. -/
def addResource (a b : ℕ) : Except TaskBudgetError ℕ :=
  checked u64Bound "Task resource total overflow" (a + b)

/-- Refuse with a text unless the condition holds. -/
def require (condition : Bool) (text : String) : Except TaskBudgetError Unit :=
  if condition then .ok () else .error (.refused text)

theorem checked_eq_ok {bound value result : ℕ} {text : String} :
    checked bound text value = .ok result ↔ value < bound ∧ result = value := by
  rw [checked]
  split_ifs with h
  · exact ⟨fun heq => ⟨h, (Except.ok.inj heq).symm⟩, fun heq => by rw [heq.2]⟩
  · exact ⟨fun heq => (by cases heq), fun heq => absurd heq.1 h⟩

theorem addResource_eq_ok {a b result : ℕ} :
    addResource a b = .ok result ↔ a + b < u64Bound ∧ result = a + b :=
  checked_eq_ok

theorem require_eq_ok {condition : Bool} {text : String} :
    require condition text = .ok () ↔ condition = true := by
  rw [require]
  split_ifs with h
  · exact ⟨fun _ => h, fun _ => rfl⟩
  · exact ⟨fun heq => (by cases heq), fun heq => absurd heq h⟩

/-- `TaskLimitsV1::validate`. -/
def TaskLimits.validate (limits : TaskLimits) : Except TaskBudgetError Unit :=
  require (limits.tokens ≤ safeIntegerMax && 0 < limits.maxAttempts &&
    0 < limits.deadlineUnixMs && limits.deadlineUnixMs ≤ safeIntegerMax &&
    limits.verification.wallMs ≤ safeIntegerMax &&
    limits.verification.tokens ≤ limits.tokens &&
    limits.verification.attempts ≤ limits.maxAttempts)
    "Task limits must be safe integers and include the protected verification reserve"

/-! ## The budget -/

structure NodeAccount where
  allowance : NodeAllowance
  begun : ℕ := 0
  prepared : ℕ := 0
  /-- begun Attempts settled as abandoned -/
  recovered : ℕ := 0
  recoveryAllowance : ℕ := defaultRecoveryAttempts
  deriving DecidableEq, Repr

namespace NodeAccount

/-- Begun Attempts that ran to an answer: what the Attempt limits count. -/
def chargeable (a : NodeAccount) : ℕ := a.begun - a.recovered

/-- The Attempts that occupy the node's limits. -/
def used (a : NodeAccount) : ℕ := a.chargeable + a.prepared

/-- One prepared Attempt less; `none` below zero. -/
def takePrepared (a : NodeAccount) : Option NodeAccount :=
  if 0 < a.prepared then some { a with prepared := a.prepared - 1 } else none

end NodeAccount

structure TaskReservation where
  id : String
  node : String
  tokens : ℕ
  deadlineUnixMs : ℕ
  deriving DecidableEq, Repr

structure Held where
  /-- what the caller was given -/
  given : TaskReservation
  tokens : Reservation
  begun : Bool := false
  settled : Option ℕ := none
  released : Bool := false
  recovered : Bool := false
  deriving DecidableEq, Repr

/-- Neither released nor settled. -/
def Held.pending (h : Held) : Bool := !h.released && h.settled.isNone

structure TaskTokenScope where
  tokens : ℕ
  /-- nodes, or prefixes with their descendants -/
  members : List String
  deriving DecidableEq, Repr

def TaskTokenScope.contains (scope : TaskTokenScope) (node : String) : Bool :=
  scope.members.any fun member => member = node || within node member

structure OwnedNodeAllowance where
  allowance : NodeAllowance
  maxChildren : ℕ
  deriving DecidableEq, Repr

structure TaskBudget where
  limits : TaskLimits
  tokens : BudgetLedger
  nodes : OrdMap String NodeAccount
  reservations : OrdMap String Held := .empty
  lastTime : ℕ := 0
  breached : Bool := false
  callLimits : OrdMap String ℕ := .empty
  tokenScopes : OrdMap String TaskTokenScope := .empty
  capturedTokenScopes : OrdMap String TaskTokenScope := .empty
  /-- chargeable Attempts of replaced graphs -/
  retiredAttempts : ℕ := 0
  /-- abandoned Attempts of replaced graphs -/
  retiredRecovered : ℕ := 0
  deferredVerification : Bool := false
  ownedTemplates : OrdMap String OwnedNodeAllowance := .empty
  ownedChildren : OrdMap String (List String) := .empty
  deriving DecidableEq

/-- What an operation answers, and the budget it leaves; `none` is a panic. -/
abbrev BudgetReply (α : Type) := Option (Except TaskBudgetError α × TaskBudget)

namespace TaskBudget

/-! ## Building a budget -/

/-- Add one node's verifier allocation to the compiled minimum. -/
def addMinimum (limits : TaskLimits) (minimum : VerificationReserve)
    (entry : String × NodeAllowance) : Except TaskBudgetError VerificationReserve := do
  let (name, allowance) := entry
  require (!(name.isEmpty || !qualified name || allowance.maxAttempts = 0 ||
    allowance.maxAttempts < allowance.verificationAttempts || allowance.wallMsPerAttempt = 0 ||
    limits.tokens < allowance.tokensPerAttempt)) ("Invalid Task allowance for " ++ name)
  let count := allowance.verificationAttempts
  let product ← checked u64Bound "Task verifier token reservation overflow"
    (allowance.tokensPerAttempt * count)
  let tokens ← addResource minimum.tokens product
  let wall ← checked u64Bound "Task verifier wall reservation overflow"
    (allowance.wallMsPerAttempt * count)
  let wallMs ← addResource minimum.wallMs wall
  let attempts ← checked u32Bound "Task verifier Attempt reservation overflow"
    (minimum.attempts + count)
  return ⟨tokens, attempts, wallMs⟩

/-- A reserve as error texts list it. -/
def listReserve (r : VerificationReserve) : String :=
  "tokens=" ++ toString r.tokens ++ ", attempts=" ++ toString r.attempts ++ ", wall_ms=" ++
    toString r.wallMs

/-- The refusal of limits whose reserve is smaller than the compiled minimum. -/
def cannotProtect (limits : TaskLimits) (allowances : OrdMap String NodeAllowance)
    (minimum : VerificationReserve) : TaskBudgetError :=
  let exceeded := [(limits.verification.tokens, minimum.tokens, "tokens"),
    (limits.verification.attempts, minimum.attempts, "attempts"),
    (limits.verification.wallMs, minimum.wallMs, "wall_ms")].filterMap
      fun (available, required, resource) =>
        if available < required then some resource else none
  let contributions := (allowances.entries.filter fun e => 0 < e.2.verificationAttempts).map
    fun (name, a) => name ++ ": " ++ listReserve ⟨a.tokensPerAttempt * a.verificationAttempts,
      a.verificationAttempts, a.wallMsPerAttempt * a.verificationAttempts⟩
  .refused ("Task cannot protect the compiled verifier allocation: required " ++
    listReserve minimum ++ "; available verification reserve " ++
    listReserve limits.verification ++ "; exceeded: " ++ ", ".intercalate exceeded ++
    "; protected node contributions: [" ++ "; ".intercalate contributions ++
    "]. These are summed declared allowances, not estimated runtime. " ++
    "Review the Task verification reserve and pipeline allowances before retrying.")

def new (limits : TaskLimits) (allowances : OrdMap String NodeAllowance) :
    Except TaskBudgetError TaskBudget := do
  limits.validate
  let minimum ← allowances.entries.foldlM (addMinimum limits) ⟨0, 0, 0⟩
  if limits.verification.tokens < minimum.tokens ||
      limits.verification.attempts < minimum.attempts ||
      limits.verification.wallMs < minimum.wallMs then
    throw (cannotProtect limits allowances minimum)
  return {
    limits := limits
    tokens := BudgetLedger.withLimit {} .run limits.tokens
    nodes := allowances.mapVal fun _ allowance => { allowance := allowance } }

/-- Before the business graph is known its whole verification reserve is owed. -/
def withDeferredVerification (B : TaskBudget) : Except TaskBudgetError TaskBudget := do
  require (B.reservations.entries.isEmpty && !B.deferredVerification &&
    B.nodes.values.all fun node => node.allowance.verificationAttempts = 0)
    "Deferred verification must be captured before planning dispatch"
  return { B with deferredVerification := true }

/-- The verification Attempts owed to the nodes of a call. -/
def callVerification (B : TaskBudget) (scope : String) : ℕ :=
  B.nodes.sum fun node a => if within node scope then a.allowance.verificationAttempts else 0

def checkCallLimit (B : TaskBudget) (entry : String × ℕ) : Except TaskBudgetError Unit := do
  let (scope, limit) := entry
  require (!(limit = 0 || !qualified scope)) "Invalid Task call Attempt limit"
  require (B.callVerification scope ≤ limit)
    ("Call " ++ scope ++ " cannot protect its verifier Attempts")

/-- Child Pipelines constrain the same ledger. -/
def withCallLimits (B : TaskBudget) (limits : OrdMap String ℕ) :
    Except TaskBudgetError TaskBudget := do
  require B.reservations.entries.isEmpty "Call limits must be captured before reservation"
  limits.entries.forM B.checkCallLimit
  return { B with callLimits := limits }

def checkTemplate (B : TaskBudget) (templates : OrdMap String OwnedNodeAllowance)
    (entry : String × OwnedNodeAllowance) : Except TaskBudgetError Unit :=
  let (parent, template) := entry
  let allowance := template.allowance
  require (!(parent.isEmpty || !qualified parent || template.maxChildren = 0 ||
    allowance.maxAttempts = 0 || allowance.verificationAttempts ≠ 0 ||
    allowance.wallMsPerAttempt = 0 || B.limits.tokens < allowance.tokensPerAttempt ||
    B.nodes.keys.any (fun node => node = parent || within node parent) ||
    templates.keys.any fun other => other ≠ parent && within other parent))
    ("Invalid non-reservable Task child template " ++ parent)

def withOwnedTemplates (B : TaskBudget) (templates : OrdMap String OwnedNodeAllowance) :
    Except TaskBudgetError TaskBudget := do
  require (B.reservations.entries.isEmpty && B.ownedTemplates.entries.isEmpty)
    "Owned Task templates must be captured before reservation"
  templates.entries.forM (B.checkTemplate templates)
  return { B with ownedTemplates := templates }

/-! ## Token scopes -/

/-- Add the tokens one member of a scope still owes its verification. -/
def addScopeOwed (scope : TaskTokenScope) (candidate : Option String) (required : ℕ)
    (entry : String × NodeAccount) : Except TaskBudgetError ℕ := do
  let (node, account) := entry
  if scope.contains node then
    let used := account.used + if candidate = some node then 1 else 0
    let owed := account.allowance.verificationAttempts - used
    let product ← checked u64Bound "Task scope verifier token overflow"
      (account.allowance.tokensPerAttempt * owed)
    addResource required product
  else return required

/-- What the scope's members still owe their verification once the candidate started. -/
def scopeVerificationAfter (B : TaskBudget) (scope : TaskTokenScope)
    (candidate : Option String) : Except TaskBudgetError ℕ :=
  B.nodes.entries.foldlM (addScopeOwed scope candidate) 0

/-- Check one scope against the nodes and the tokens it already holds, then limit it. -/
def installTokenScope (B : TaskBudget) (tokens : BudgetLedger)
    (entry : String × TaskTokenScope) : Except TaskBudgetError BudgetLedger := do
  let (name, scope) := entry
  require (!(name.isEmpty || !qualified name || safeIntegerMax < scope.tokens ||
    scope.members.isEmpty || scope.members.any fun member =>
      member.isEmpty || !qualified member ||
        !(B.nodes.keys ++ B.ownedTemplates.keys).any fun node =>
          node = member || within node member))
    ("Invalid Task token scope " ++ name)
  require (match B.capturedTokenScopes.get name with
    | some old => old = scope
    | none => true)
    ("Task token scope " ++ name ++ " differs from its captured authority")
  let account := BudgetScope.fanOut name
  let required ← B.scopeVerificationAfter scope none
  let total := (addU128 (tokens.committed account) (tokens.reserved account)).bind fun used =>
    addU128 used required
  require (match total with
    | some total => total ≤ scope.tokens
    | none => false)
    ("Task token scope " ++ name ++ " cannot retain required verification")
  return tokens.withLimit account scope.tokens

def installTokenScopes (B : TaskBudget) (scopes : OrdMap String TaskTokenScope) :
    Except TaskBudgetError TaskBudget := do
  let tokens ← scopes.entries.foldlM B.installTokenScope B.tokens
  return { B with
    tokens := tokens
    capturedTokenScopes := B.capturedTokenScopes.insertAll scopes.entries
    tokenScopes := scopes }

def withTokenScopes (B : TaskBudget) (scopes : OrdMap String TaskTokenScope) :
    Except TaskBudgetError TaskBudget := do
  require B.reservations.entries.isEmpty "Task token scopes must be captured before reservation"
  B.installTokenScopes scopes

/-! ## Replacing the graph -/

/-- The begun Attempts the limits count, of this graph and the replaced ones. -/
def chargeableAttempts (B : TaskBudget) : ℕ :=
  B.retiredAttempts + B.nodes.sum fun _ a => a.chargeable

/-- `begun_attempts`: every Attempt that began, abandoned ones included. -/
def begunAttempts (B : TaskBudget) : ℕ :=
  B.retiredAttempts + B.retiredRecovered + B.nodes.sum fun _ a => a.begun

/-- `committed_tokens`: what the Task was charged. -/
def committedTokens (B : TaskBudget) : ℕ := B.tokens.committed .run

/-- `scope_committed_tokens`: what a token scope of this or a replaced graph was charged. -/
def scopeCommittedTokens (B : TaskBudget) (name : String) : Option ℕ :=
  if B.capturedTokenScopes.contains name then some (B.tokens.committed (.fanOut name)) else none

/-- Every Attempt that occupies the Task's Attempt limit. -/
def usedAttempts (B : TaskBudget) : ℕ := B.retiredAttempts + B.nodes.sum fun _ a => a.used

/-- What the Task may still reserve. -/
def remainingTokens (B : TaskBudget) : ℕ := (B.tokens.remaining .run).getD 0

def remainingLimits (B : TaskBudget) : TaskLimits :=
  { B.limits with
    tokens := B.remainingTokens
    maxAttempts := B.limits.maxAttempts - B.chargeableAttempts }

/-- Whether a reservation is neither released nor settled. -/
def hasPending (B : TaskBudget) : Bool := B.reservations.values.any Held.pending

/-- Move the graph's Attempts into the retired counts. -/
def retire (B : TaskBudget) : TaskBudget :=
  { B with
    retiredAttempts := B.chargeableAttempts
    retiredRecovered := B.retiredRecovered + B.nodes.sum fun _ a => a.recovered }

/-- `invalidate_plan`: drop the graph after a revision of the business source. -/
def invalidatePlan (B : TaskBudget) (now : ℕ) : BudgetReply Unit :=
  if now < B.lastTime || B.hasPending then
    some (.error (.refused
      "Cannot revise a Task budget with pending work or a backwards clock"), B)
  else
    some (.ok (), { B.retire with
      nodes := .empty
      callLimits := .empty
      tokenScopes := .empty
      ownedTemplates := .empty
      ownedChildren := .empty
      deferredVerification := true
      lastTime := now })

/-- A compiled graph, as a caller hands it over. -/
structure Graph where
  allowances : OrdMap String NodeAllowance
  callLimits : OrdMap String ℕ := .empty
  tokenScopes : OrdMap String TaskTokenScope := .empty
  ownedTemplates : OrdMap String OwnedNodeAllowance := .empty

/-- The graph's own accounts, checked against the capacity that remains. -/
def compile (B : TaskBudget) (graph : Graph) (preparation : Bool) :
    Except TaskBudgetError TaskBudget := do
  let next ← new B.remainingLimits graph.allowances
  let next ← next.withCallLimits graph.callLimits
  let next ← next.withOwnedTemplates graph.ownedTemplates
  if preparation then next.withDeferredVerification else return next

/-- The budget with the compiled graph in the place of its own. -/
def replaceGraph (B next : TaskBudget) (now : ℕ) (preparation : Bool) : TaskBudget :=
  { B.retire with
    nodes := next.nodes
    callLimits := next.callLimits
    deferredVerification := preparation
    ownedTemplates := next.ownedTemplates
    ownedChildren := .empty
    lastTime := now }

/-- `install_graph_with_owned_templates`, up to the final assignment. -/
def installed (B : TaskBudget) (graph : Graph) (now : ℕ) (preparation : Bool) :
    Except TaskBudgetError TaskBudget := do
  require (!(!B.deferredVerification || B.breached || now < B.lastTime ||
    B.limits.deadlineUnixMs ≤ now || B.hasPending))
    "Planning cannot advance with pending work, expired authority or a spent barrier"
  let remaining := B.remainingLimits
  require (!(remaining.tokens < B.limits.verification.tokens ||
    remaining.maxAttempts < B.limits.verification.attempts ||
    B.limits.deadlineUnixMs - now < B.limits.verification.wallMs))
    "Planning spent capacity still owed to business verification"
  let next ← B.compile graph preparation
  (B.replaceGraph next now preparation).installTokenScopes graph.tokenScopes

def installGraph (B : TaskBudget) (graph : Graph) (now : ℕ) (preparation : Bool) :
    BudgetReply Unit :=
  match B.installed graph now preparation with
  | .error e => some (.error e, B)
  | .ok B' => some (.ok (), B')

/-! ## Preparing an Attempt -/

/-- Take one node's Attempts off the reserve, and count what it is still owed. -/
def consumeReserve (candidate : String) (acc : VerificationReserve × ℕ)
    (entry : String × NodeAccount) : Except TaskBudgetError (VerificationReserve × ℕ) := do
  let (name, account) := entry
  let (consumed, remaining) := acc
  let requested := if name = candidate then 1 else 0
  let used ← checked u32Bound "Task Attempt count overflow" (account.used + requested)
  let used := min used account.allowance.verificationAttempts
  let attempts ← checked u32Bound "Task Attempt count overflow" (consumed.attempts + used)
  let product ← checked u64Bound "Task token total overflow"
    (account.allowance.tokensPerAttempt * used)
  let tokens ← addResource consumed.tokens product
  let wall ← checked u64Bound "Task wall total overflow"
    (account.allowance.wallMsPerAttempt * used)
  let wallMs ← addResource consumed.wallMs wall
  let remaining ← checked u32Bound "Task Attempt count overflow"
    (remaining + (account.allowance.verificationAttempts - used))
  return (⟨tokens, attempts, wallMs⟩, remaining)

/-- Capacity still owed to verification once the candidate is prepared. -/
def protectedAfter (B : TaskBudget) (candidate : String) :
    Except TaskBudgetError VerificationReserve :=
  if B.deferredVerification then return B.limits.verification
  else do
    let (consumed, remaining) ← B.nodes.entries.foldlM (consumeReserve candidate) (⟨0, 0, 0⟩, 0)
    if remaining = 0 then return ⟨0, 0, 0⟩
    else return ⟨B.limits.verification.tokens - consumed.tokens,
      B.limits.verification.attempts - consumed.attempts,
      B.limits.verification.wallMs - consumed.wallMs⟩

/-- Add one member of a call: its Attempts and those it still owes. -/
def addOccupied (scope node : String) (occupied : ℕ) (entry : String × NodeAccount) :
    Except TaskBudgetError ℕ := do
  let (member, account) := entry
  if within member scope then
    let occupied ← addResource occupied account.used
    addResource occupied (account.allowance.verificationAttempts -
      (account.used + if member = node then 1 else 0))
  else return occupied

def checkCall (B : TaskBudget) (node : String) (entry : String × ℕ) :
    Except TaskBudgetError Unit := do
  let (scope, limit) := entry
  if within node scope then
    let occupied ← B.nodes.entries.foldlM (addOccupied scope node) 1
    if limit < occupied then throw (.callAttemptLimit scope)

/-- Check one token scope the node belongs to. -/
def checkScope (B : TaskBudget) (node : String) (tokens : ℕ) (entry : String × TaskTokenScope) :
    Except TaskBudgetError Unit := do
  let (name, scope) := entry
  let owed ← B.scopeVerificationAfter scope (some node)
  let needed ← addResource tokens owed
  if (B.tokens.remaining (.fanOut name)).getD 0 < needed then throw (.tokenScope name)

/-- The token scopes a node belongs to. -/
def scopesOf (B : TaskBudget) (node : String) : List (String × TaskTokenScope) :=
  B.tokenScopes.entries.filter fun e => e.2.contains node

/-- `reservation_scopes`: every scope of the node, each with room, and the run. -/
def reservationScopes (B : TaskBudget) (node : String) (tokens : ℕ) :
    Except TaskBudgetError (List BudgetScope) := do
  (B.scopesOf node).forM (B.checkScope node tokens)
  return (B.scopesOf node).map (fun e => .fanOut e.1) ++ [.run]

/-- The node's own limits. -/
def checkNode (B : TaskBudget) (node : String) (now : ℕ) :
    Except TaskBudgetError NodeAccount := do
  require (!(B.breached || now < B.lastTime))
    "Task budget breached or policy clock moved backwards"
  match B.nodes.get node with
  | none => throw (.refused ("Unknown Task node " ++ node))
  | some account =>
    require (account.recovered ≤ account.recoveryAllowance)
      ("Task node " ++ node ++ " exhausted its recovery allowance: " ++
        toString account.recovered ++ " abandoned Attempts, recovery allowance " ++
        toString account.recoveryAllowance)
    require (account.used < account.allowance.maxAttempts)
      ("Task node " ++ node ++ " exhausted its Attempt limit")
    return account

/-- The Attempt's deadline, once the reserve's wall time still fits after it. -/
def checkDeadline (B : TaskBudget) (now wallMs protectedWall : ℕ) : Except TaskBudgetError ℕ := do
  let deadline ← addResource now wallMs
  if B.limits.deadlineUnixMs ≤ now then
    throw (.refused "Task deadline protects still-required verification")
  let total ← addResource deadline protectedWall
  require (total ≤ B.limits.deadlineUnixMs) "Task deadline protects still-required verification"
  return deadline

/-- The Task's own tokens. -/
def checkTokens (B : TaskBudget) (tokens protectedTokens : ℕ) : Except TaskBudgetError Unit := do
  let needed ← addResource tokens protectedTokens
  if B.remainingTokens < needed then
    throw (.taskTokenLimit tokens protectedTokens B.remainingTokens)

/-- Everything `prepare` checks before it reserves: the node's account, the
Attempt's deadline and the scopes to reserve in. -/
def admission (B : TaskBudget) (node : String) (now : ℕ) :
    Except TaskBudgetError (NodeAccount × ℕ × List BudgetScope) := do
  let account ← B.checkNode node now
  let reserve ← B.protectedAfter node
  if B.limits.maxAttempts < B.usedAttempts + 1 + reserve.attempts then throw .taskAttemptLimit
  B.callLimits.entries.forM (B.checkCall node)
  let deadline ← B.checkDeadline now account.allowance.wallMsPerAttempt reserve.wallMs
  B.checkTokens account.allowance.tokensPerAttempt reserve.tokens
  let scopes ← B.reservationScopes node account.allowance.tokensPerAttempt
  return (account, deadline, scopes)

/-- The budget that holds a granted reservation. -/
def withReservation (B : TaskBudget) (account : NodeAccount) (tokens : BudgetLedger)
    (r : Reservation) (given : TaskReservation) (now : ℕ) : TaskBudget :=
  { B with
    tokens := tokens
    nodes := B.nodes.insert given.node { account with prepared := account.prepared + 1 }
    reservations := B.reservations.insert given.id { given := given, tokens := r }
    lastTime := now }

def prepare (B : TaskBudget) (node : String) (now : ℕ) : BudgetReply TaskReservation :=
  match B.admission node now with
  | .error e => some (.error e, B)
  | .ok (account, deadline, scopes) =>
    (B.tokens.reserve scopes account.allowance.tokensPerAttempt).map fun
      | (.error e, tokens) => (.error (.budget e), { B with tokens := tokens })
      | (.ok r, tokens) =>
        let given : TaskReservation := ⟨r.id, node, r.amount, deadline⟩
        (.ok given, B.withReservation account tokens r given now)

/-! ## Starting, releasing and settling -/

/-- Why a reservation cannot start, if it cannot. -/
def beginRefusal (B : TaskBudget) (held : Held) (now : ℕ) : Option String :=
  if held.released then some "it was released before it started"
  else match held.settled with
  | some charged => some ("it is already settled, charged " ++ group charged ++ " tokens")
  | none =>
    if now < B.lastTime then
      some ("the policy clock moved backwards: now " ++ toString now ++ " ms < last recorded " ++
        toString B.lastTime ++ " ms")
    else if held.given.deadlineUnixMs ≤ now then
      some ("its Attempt deadline passed: now " ++ toString now ++ " ms >= deadline " ++
        toString held.given.deadlineUnixMs ++ " ms")
    else if B.breached then
      some ("the Task token budget is breached: charged " ++ group (B.tokens.committed .run) ++
        " of a " ++ group B.limits.tokens ++ " token limit, reservation " ++
        group held.given.tokens ++ " > remaining " ++ group B.remainingTokens)
    else none

def begin (B : TaskBudget) (id : String) (now : ℕ) : BudgetReply Unit :=
  match B.reservations.get id with
  | none => some (.error (.refused "Unknown Task reservation"), B)
  | some held =>
    match B.beginRefusal held now with
    | some reason =>
      some (.error (.refused ("Task reservation for node " ++ held.given.node ++
        " is not dispatchable: " ++ reason)), B)
    | none =>
      if held.begun then some (.ok (), { B with lastTime := now })
      else
        ((B.nodes.get held.given.node).bind NodeAccount.takePrepared).map fun account =>
          (.ok (), { B with
            nodes := B.nodes.insert held.given.node { account with begun := account.begun + 1 }
            reservations := B.reservations.insert id { held with begun := true }
            lastTime := now })

/-- Only a dispatch that never began returns its Attempt and token credit. -/
def release (B : TaskBudget) (id : String) : BudgetReply Unit :=
  match B.reservations.get id with
  | none => some (.error (.refused "Unknown Task reservation"), B)
  | some held =>
    if held.begun || held.settled.isSome then
      some (.error (.refused "A started Task Attempt cannot release its charge"), B)
    else if held.released then some (.ok (), B)
    else
      (B.tokens.release held.tokens).bind fun tokens =>
        ((B.nodes.get held.given.node).bind NodeAccount.takePrepared).map fun account =>
          (.ok (), { B with
            tokens := tokens
            nodes := B.nodes.insert held.given.node account
            reservations := B.reservations.insert id { held with released := true } })

/-- `settle_exact`: failed and fenced work settles like successful work. -/
def settleExact (B : TaskBudget) (id : String) (actual : ℕ) : BudgetReply Unit :=
  match B.reservations.get id with
  | none => some (.error (.refused "Unknown Task reservation"), B)
  | some held =>
    if !held.begun || held.released then
      some (.error (.refused "Task settlement has no started Attempt"), B)
    else match held.settled with
    | some old =>
      if old = actual then some (.ok (), B)
      else some (.error (.refused "Conflicting Task settlement"), B)
    | none =>
      if actual < B.tokens.observedChargeExact held.tokens then
        some (.error (.refused "Task settlement cannot refund already observed usage"), B)
      else
        (B.tokens.chargeExact held.tokens actual).map fun
          | (.error e, tokens) => (.error (.refused e), { B with tokens := tokens, breached := true })
          | (.ok (), tokens) =>
            (.ok (), { B with
              tokens := tokens
              breached := B.breached || held.tokens.amount < actual
              reservations := B.reservations.insert id { held with settled := some actual } })

/-- `recover`: a settled Attempt was abandoned; it counts against the node's
recovery allowance instead of its Attempt limits. -/
def recover (B : TaskBudget) (id : String) : BudgetReply Unit :=
  match B.reservations.get id with
  | none => some (.error (.refused "Unknown Task reservation"), B)
  | some held =>
    if !held.begun || held.released || held.settled.isNone then
      some (.error (.refused "Only a settled started Task Attempt can be recovered"), B)
    else if held.recovered then some (.ok (), B)
    else match B.nodes.get held.given.node with
      | none =>
        some (.error (.refused "A recovered Task Attempt's node is not in the current graph"), B)
      | some account =>
        some (.ok (), { B with
          nodes := B.nodes.insert held.given.node { account with recovered := account.recovered + 1 }
          reservations := B.reservations.insert id { held with recovered := true } })

/-- Raise the committed counters of a settled reservation's scopes; `none` where
a total does not fit. The totals are read off the ledger before any is written. -/
def raiseCommitted (base : BudgetLedger) (delta : ℕ) :
    List BudgetScope → BudgetLedger → Option BudgetLedger
  | [], updated => some updated
  | scope :: scopes, updated =>
    (addU128 (base.committed scope) delta).bind fun total =>
      raiseCommitted base delta scopes (updated.withExactCommitted scope total)

/-- `observe_charge_exact`: known usage of a running or settled Attempt. -/
def observeChargeExact (B : TaskBudget) (id : String) (actual : ℕ) : BudgetReply Unit :=
  match B.reservations.get id with
  | none => some (.error (.refused "Unknown Task reservation"), B)
  | some held =>
    if !held.begun || held.released then
      some (.error (.refused "Usage has no started Attempt"), B)
    else match held.settled with
    | some previous =>
      if previous < actual then
        match raiseCommitted B.tokens (actual - previous) held.tokens.scopes B.tokens with
        | none =>
          some (.error (.refused "Observed budget total overflow"), { B with breached := true })
        | some tokens =>
          some (.ok (), { B with
            tokens := tokens
            breached := B.breached || held.tokens.amount < actual
            reservations := B.reservations.insert id { held with settled := some actual } })
      else some (.ok (), { B with breached := B.breached || held.tokens.amount < actual })
    | none =>
      (B.tokens.observeChargeExact held.tokens actual).map fun
        | (.error e, tokens) => (.error (.refused e), { B with tokens := tokens, breached := true })
        | (.ok (), tokens) =>
          (.ok (), { B with tokens := tokens, breached := B.breached || held.tokens.amount < actual })

/-! ## Widening the graph -/

/-- `allow_retry`: one more Attempt than the compiled allowance. -/
def allowRetry (B : TaskBudget) (node : String) : BudgetReply Unit :=
  match B.nodes.get node with
  | none => some (.error (.refused ("Unknown Task node " ++ node)), B)
  | some a =>
    if a.allowance.maxAttempts + 1 < u32Bound then
      some (.ok (), { B with nodes := B.nodes.insert node { a with
        allowance := { a.allowance with maxAttempts := a.allowance.maxAttempts + 1 } } })
    else some (.error (.refused "Task Attempt count overflow"), B)

/-- `install_recovery_allowances`, one entry after the other. -/
def installRecoveryAllowances (B : TaskBudget) : List (String × ℕ) → BudgetReply Unit
  | [] => some (.ok (), B)
  | (node, allowance) :: rest =>
    if maxRecoveryAttempts < allowance then
      some (.error (.refused ("Task node " ++ node ++ " declares " ++ toString allowance ++
        " recovery Attempts; at most " ++ toString maxRecoveryAttempts ++ " are allowed")), B)
    else match B.nodes.get node with
      | none => some (.error (.refused ("Unknown Task node " ++ node)), B)
      | some a =>
        installRecoveryAllowances
          { B with nodes := B.nodes.insert node { a with recoveryAllowance := allowance } } rest

/-- Fresh accounts for new nodes. -/
def addNodes (B : TaskBudget) (children : List (String × NodeAllowance)) :
    OrdMap String NodeAccount :=
  B.nodes.insertAll (children.map fun (child, allowance) => (child, { allowance := allowance }))

/-- `register_owned_children`: open the captured children of a template. -/
def registerOwnedChildren (B : TaskBudget) (parent : String) (children : List String) :
    BudgetReply Unit :=
  match B.ownedTemplates.get parent with
  | none => some (.error (.refused "Unknown Task child owner"), B)
  | some template =>
    match B.ownedChildren.get parent with
    | some previous =>
      if previous = children then some (.ok (), B)
      else some (.error (.refused "Task child registration changed its captured set"), B)
    | none =>
      if children.isEmpty || template.maxChildren < children.length || !children.Nodup ||
          children.any fun child => !within child parent ||
            (splitDots child.toList).length ≠ (splitDots parent.toList).length + 1 ||
            !qualified child || B.nodes.contains child || B.ownedTemplates.contains child then
        some (.error (.refused "Task children differ from their bounded owner namespace"), B)
      else
        some (.ok (), { B with
          nodes := B.addNodes (children.map fun child => (child, template.allowance))
          ownedChildren := B.ownedChildren.insert parent children })

/-- Add one allowance to an experiment's verifier totals. -/
def addVerifier (total : VerificationReserve) (allowance : NodeAllowance) :
    Except TaskBudgetError VerificationReserve := do
  let count := allowance.verificationAttempts
  let attempts ← checked u32Bound "Experimental verifier Attempt reservation overflow"
    (total.attempts + count)
  let product ← checked u64Bound "Experimental verifier token reservation overflow"
    (allowance.tokensPerAttempt * count)
  let tokens ← checked u64Bound "Experimental verifier token reservation overflow"
    (total.tokens + product)
  let wall ← checked u64Bound "Experimental verifier wall reservation overflow"
    (allowance.wallMsPerAttempt * count)
  let wallMs ← checked u64Bound "Experimental verifier wall reservation overflow"
    (total.wallMs + wall)
  return ⟨tokens, attempts, wallMs⟩

/-- `register_experimental_children`: open an approved experimental closure. -/
def registerExperimentalChildren (B : TaskBudget) (parent : String)
    (children : OrdMap String NodeAllowance) (maxChildren : ℕ) : BudgetReply Unit :=
  match B.ownedChildren.get parent with
  | some previous =>
    if previous = children.keys then some (.ok (), B)
    else some
      (.error (.refused "Experimental child registration changed its approved closure"), B)
  | none =>
    if children.entries.isEmpty || maxChildren < children.entries.length ||
        children.entries.any fun (child, allowance) => !within child parent ||
          !qualified child || B.nodes.contains child || B.ownedTemplates.contains child ||
          allowance.maxAttempts = 0 ||
          allowance.maxAttempts < allowance.verificationAttempts ||
          allowance.wallMsPerAttempt = 0 || B.limits.tokens < allowance.tokensPerAttempt then
      some (.error (.refused
        "Experimental children differ from their approved bounded namespace"), B)
    else
      match (B.nodes.values.map NodeAccount.allowance ++ children.values).foldlM addVerifier
        ⟨0, 0, 0⟩ with
      | .error e => some (.error e, B)
      | .ok total =>
        if B.limits.verification.attempts < total.attempts ||
            B.limits.verification.tokens < total.tokens ||
            B.limits.verification.wallMs < total.wallMs then
          some (.error (.refused
            "Experimental closure exceeds the Task's protected verifier allocation"), B)
        else
          some (.ok (), { B with
            nodes := B.addNodes children.entries
            ownedChildren := B.ownedChildren.insert parent children.keys })

end TaskBudget

end Afactory
