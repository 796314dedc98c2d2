import Mathlib
import Afactory.CompiledTask
import Afactory.TelemetryDirectory

/-!
# A storage sweep's plan

`storage/plan.rs` of the `af` command: one plan over one inventory snapshot, and the
run of that plan.

* `Model`: the snapshot as the planSteps removals leave it (`take`, `takeTelemetry`);
* `Sweep`: the plan, the model and the telemetry the source passes by `&mut`, with
  `push`, `pushTelemetry` and `hold`;
* `make`: recovery, collection, the budget and telemetry's own cap, in this order;
* `run` and `preview`: what an applied sweep and a preview report.

The judge and the executor are callbacks that may answer differently each time, so each
takes the number of its call.
-/

namespace Afactory

namespace Storage

/-! ## Entries, looks and steps -/

/-- `Kind`: the kinds of entry the budget counts. -/
inductive Kind where
  | warmKey | workspace | campaign | task | taskStore | projectStore | survey
  | unreadableStore | version | telemetry | claim
  deriving DecidableEq, Repr

/-- `review_sandbox::Identity`. -/
structure Identity where
  device : ℕ
  inode : ℕ
  born : Option ℕ
  deriving DecidableEq, Repr

/-- `Entry`: the unit the budget evicts whole. -/
structure Entry where
  kind : Kind
  path : PathBuf
  taskId : Option String
  bytes : ℕ
  lastUseUnixMs : ℕ
  /-- why the entry is never evicted now -/
  inUse : Option String
  /-- for a telemetry entry, its telemetry directory -/
  directory : Option PathBuf
  segmentId : Option String
  state : Option String
  identity : Option Identity
  tooDeep : Bool
  /-- a claim the walk could not measure: why -/
  unmeasurable : Option String
  deriving DecidableEq, Repr

/-- `Rule`: which rule took an entry. -/
inductive Rule where
  | collection | keepSurveys | budget | recovery
  deriving DecidableEq, Repr

/-- `Stop`: why the budget step stopped. -/
inductive Stop where
  | fits | nothingEvictable | unknown
  deriving DecidableEq, Repr

/-- `Removal`: one removal, as planned or as run. -/
structure Removal where
  kind : Kind
  path : PathBuf
  taskId : Option String
  segmentId : Option String
  directory : Option PathBuf
  bytes : ℕ
  rule : Rule
  totalAfter : Option ℕ
  unreadable : Option String
  outcome : Option String
  left : List PathBuf
  deriving DecidableEq, Repr

/-- `collect::Job`: one deletion in a Project Store. -/
inductive SurveyJob where
  | take (store : PathBuf) (surveyId : String) (identity : Option Identity)
  | atName (store : PathBuf) (surveyId : String) (identity : Identity) (unreadable : Bool)
  | moved (store : PathBuf) (container surveyId : String) (identity : Identity)
  | container (store : PathBuf) (container : String) (identity : Identity)
  | unrecorded (store : PathBuf) (surveyId : String) (identity : Identity) (length : ℕ)
  | movedUnrecorded (store : PathBuf) (container surveyId : String) (identity : Identity)
      (length : ℕ)
  | publication (store : PathBuf) (surveyId : String) (identity : Identity)
  | staged (store : PathBuf) (surveyId : String) (identity : Identity) (length : ℕ)
  deriving DecidableEq, Repr

/-- `collect::Job::store`: the Project Store the job works in. -/
def SurveyJob.store : SurveyJob → PathBuf
  | take store .. | atName store .. | moved store .. | container store ..
  | unrecorded store .. | movedUnrecorded store .. | publication store .. | staged store .. =>
    store

/-- `Counted`: what the Store's total counts a pending deletion's bytes in. -/
inductive Counted where
  | survey | store
  deriving DecidableEq, Repr

/-- `Pending`: a deletion an interruption left. -/
structure Pending where
  object : PathBuf
  bytes : ℕ
  counted : Counted
  job : SurveyJob
  deriving DecidableEq, Repr

/-- `Verdict`: what the one read of a Survey's record found. -/
inductive Verdict where
  | agrees
  | disagrees (field : String)
  | unreadable (why : String)
  | oversize (why : String)
  | refused (why : String)
  deriving DecidableEq, Repr

/-- `Live`: an uncollected Survey. -/
structure Live where
  surveyId : String
  cutoffMs : ℕ
  protected_ : Bool
  identity : Option Identity
  verdict : Verdict
  deriving DecidableEq, Repr

/-- `LeftReason`. -/
inductive LeftReason where
  | held | foreign | oversize | unreadableName | tooDeep | unmeasurable
  deriving DecidableEq, Repr

/-- `collect::Left`: one file or Survey left where it is. -/
structure LeftFile where
  path : PathBuf
  bytes : ℕ
  reason : LeftReason
  detail : String
  deriving DecidableEq, Repr

/-- `plan::Left`. -/
structure Left where
  kind : Kind
  left : LeftFile
  deriving DecidableEq, Repr

/-- `Look`: what a sweep's plan needs of one Project Store. -/
structure Look where
  /-- why its lock cannot be taken now -/
  held : Option String
  /-- its uncollected Surveys, oldest first -/
  live : List Live
  recovery : List Pending
  left : List LeftFile
  refused : List (PathBuf × String)
  deriving DecidableEq, Repr

/-- `Judged`: what the plan does with a Survey it picks. -/
inductive Judged where
  | take (unreadable : Option String) (identity : Option Identity)
  | left (reason : LeftReason) (detail : String)
  | refused (why : String)
  deriving DecidableEq, Repr

/-- `Judge`: the answer of the judge when it is asked for the nth time. -/
abbrev Judge := ℕ → PathBuf → Live → Option Identity → Judged

/-- `Job`: how the applied sweep removes one planned entry. -/
inductive Job where
  | task
  | evict (entry : Entry)
  | survey (job : SurveyJob)
  | telemetry (entry : Entry)
  deriving DecidableEq, Repr

/-- `Planned`: one entry of the plan. -/
structure Planned where
  removal : Removal
  job : Job
  deriving DecidableEq, Repr

/-- `TaskPick`: a finished Task its Store's collection rules take. -/
structure TaskPick where
  state : PathBuf
  taskId : String
  bytes : ℕ
  deriving DecidableEq, Repr

/-- `Telemetry`: the telemetry kind's part of a plan. -/
structure Telemetry where
  /-- every directory's model by its root, an overlapping one's `none` -/
  models : OrdMap PathBuf (Option Directory)
  maxBytes : Option ℕ
  /-- nothing but telemetry is planned -/
  only : Bool

/-- `Inputs`: the snapshot and the rules. -/
structure Inputs where
  entries : List Entry
  claims : List Entry
  projects : List (PathBuf × Look)
  tasks : List TaskPick
  registrations : List PathBuf
  collection : Bool
  maxBytes : ℕ
  keepCampaigns : ℕ
  keepSurveys : ℕ
  idleMs : ℕ
  now : ℕ
  telemetry : Telemetry

/-- `Plan`. -/
structure Plan where
  totalBefore : ℕ
  steps : List Planned
  left : List Left
  failures : List String
  registrations : List PathBuf
  totalAfter : ℕ
  stop : Stop
  telemetryTotalAfter : ℕ
  telemetryStop : Stop
  deriving DecidableEq, Repr

/-! ## The model -/

/-- `Key`: which entry a step takes, by kind, path and Task. -/
abbrev Key := Kind × PathBuf × Option String

/-- The key of an entry. -/
def Entry.key (e : Entry) : Key := (e.kind, e.path, e.taskId)

/-- `Model`: the snapshot as the planSteps removals leave it. -/
structure Model where
  entries : List Entry
  total : ℕ

/-- The saturating sum of the entries' bytes. -/
def totalOf (entries : List Entry) : ℕ := entries.foldl (fun t e => saturatingAdd t e.bytes) 0

/-- `Model::new`. -/
def Model.new (entries : List Entry) : Model := ⟨entries, totalOf entries⟩

/-- Change the first entry a test holds of. -/
def changeFirst (p : Entry → Bool) (f : Entry → Entry) : List Entry → List Entry
  | [] => []
  | e :: rest => if p e then f e :: rest else e :: changeFirst p f rest

/-- Whether the entry counts what lies within: of this kind and path, no Task's. -/
def Entry.isHolder (e : Entry) (kind : Kind) (path : PathBuf) : Bool :=
  e.kind = kind && e.path = path && e.taskId.isNone

/-- The part of `take` for bytes another entry counts. -/
def Model.takeWithin (M : Model) (inside : Option (Kind × PathBuf)) (bytes : ℕ) : Model :=
  match inside with
  | none => M
  | some (kind, path) =>
    match M.entries.find? (·.isHolder kind path) with
    | none => M
    | some entry =>
      let taken := min bytes entry.bytes
      { entries := changeFirst (·.isHolder kind path)
          (fun e => { e with bytes := e.bytes - taken }) M.entries
        total := M.total - taken }

/-- `take`: the entry the key names, gone whole; otherwise `bytes` out of the entry that
counts them. -/
def Model.take (M : Model) (key : Option Key) (inside : Option (Kind × PathBuf)) (bytes : ℕ) :
    Model :=
  match key.bind fun k => M.entries.find? (·.key = k) with
  | some entry =>
    { entries := M.entries.eraseP (·.key = entry.key), total := M.total - entry.bytes }
  | none => M.takeWithin inside bytes

/-- `take_telemetry`: the segment's entry gone, and what its eviction frees now. -/
def Model.takeTelemetry (M : Model) (path : PathBuf) (freed : ℕ) : Model :=
  { entries := M.entries.filter fun e => !(e.kind = .telemetry && e.path = path)
    total := M.total - freed }

/-- `survey`: the bytes and the identity of the Survey entry at a path. -/
def Model.survey (M : Model) (object : PathBuf) : ℕ × Option Identity :=
  match M.entries.find? fun e => e.kind = .survey && e.path = object with
  | none => (0, none)
  | some entry => (entry.bytes, entry.identity)

/-! ## Orders, classes and texts -/

/-- `HOUR_MS`. -/
def hourMs : ℕ := 3600000

/-- `REMOVAL_MAX_DEPTH`. -/
def removalMaxDepth : ℕ := 128

/-- `Path::display`. -/
def display (path : PathBuf) : String := "/" ++ "/".intercalate path

/-- `least_recently_used`: least recently used first; among equals a corrupt telemetry
segment first, then by path. -/
def leastRecentlyUsed : Entry → Entry → Ordering :=
  compareLex (compareOn fun e => e.lastUseUnixMs)
    (compareLex (compareOn fun e => decide (e.state ≠ some "corrupt"))
      (compareLex (compareOn fun e => e.path) (compareOn fun e => e.taskId)))

/-- `class`: caches (0), telemetry (1), records (2). -/
def Kind.class : Kind → ℕ
  | warmKey | workspace | version | claim => 0
  | telemetry => 1
  | campaign | task | taskStore | projectStore | survey | unreadableStore => 2

/-- The order the budget evicts in. -/
def evictionOrder : Entry → Entry → Ordering :=
  compareLex (compareOn fun e => e.kind.class) leastRecentlyUsed

/-- `sort_by`: the stable sort of a comparison. -/
def sortBy (cmp : Entry → Entry → Ordering) (l : List Entry) : List Entry :=
  l.insertionSort fun a b => (cmp a b).isLE

/-- `stop`. -/
def stopOf (total maxBytes : ℕ) : Stop := if total > maxBytes then .nothingEvictable else .fits

/-- `removal` of `plan.rs`. -/
def removal (kind : Kind) (path : PathBuf) (taskId : Option String) (bytes : ℕ) (rule : Rule) :
    Removal where
  kind := kind
  path := path
  taskId := taskId
  segmentId := none
  directory := none
  bytes := bytes
  rule := rule
  totalAfter := none
  unreadable := none
  outcome := none
  left := []

/-- `removal` of `storage.rs`: the removal of an entry with its segment and directory. -/
def removalOf (entry : Entry) (bytes : ℕ) (rule : Rule) : Removal :=
  { removal entry.kind entry.path entry.taskId bytes rule with
    segmentId := entry.segmentId
    directory := entry.directory }

/-- `object_path`: the CAS object of a Survey of a Project Store, its id a digest. -/
def objectPath (store : PathBuf) (surveyId : String) : PathBuf :=
  let hex := if "sha256:".toList.isPrefixOf surveyId.toList then surveyId.toList.drop 7
    else surveyId.toList
  store ++ ["cas", "objects", .ofList (hex.take 2), .ofList (hex.drop 2)]

/-- `survey_of_object`: the Project Store and the Survey an `objectPath` names. -/
def surveyOfObject (object : PathBuf) : Option (PathBuf × String) :=
  match object.reverse with
  | rest :: dir :: _ :: _ :: above =>
    let surveyId := "sha256:" ++ dir ++ rest
    if isDigest surveyId && objectPath above.reverse surveyId = object then
      some (above.reverse, surveyId)
    else none
  | _ => none

/-- `choose_beyond`: the Surveys beyond the newest `keepSurveys`, idle at least `idleMs`
and not used within the hour, never the newest complete one. -/
def chooseBeyond (live : List Live) (keepSurveys idleMs nowMs : ℕ) : List Live :=
  (live.take (live.length - keepSurveys)).filter fun survey =>
    !survey.protected_ && decide (saturatingAdd survey.cutoffMs idleMs ≤ nowMs) &&
      decide (saturatingAdd survey.cutoffMs hourMs ≤ nowMs)

/-- `holder`: the deepest directory entry whose path holds the claim. -/
def holder (entries : List Entry) (claim : PathBuf) : Option Entry :=
  (entries.filter fun e => e.taskId.isNone && e.kind ≠ .survey && e.kind ≠ .claim &&
    e.kind ≠ .task && claim ≠ e.path && e.path.isPrefixOf claim).foldl
    (fun best e => match best with
      | some b => if e.path.length < b.path.length then some b else some e
      | none => some e) none

/-- `too_deep`. -/
def tooDeep (entry : Entry) : Left where
  kind := entry.kind
  left :=
    { path := entry.path
      bytes := entry.bytes
      reason := .tooDeep
      detail := "deeper than the removal walk: a directory below it is nested more than " ++
        toString removalMaxDepth ++ " levels deep, so no removal could take it whole and it " ++
        "is left for the operator" }

/-- `unmeasurable`. -/
def unmeasurable (entry : Entry) (why : String) : Left where
  kind := entry.kind
  left :=
    { path := entry.path
      bytes := entry.bytes
      reason := .unmeasurable
      detail := "unmeasurable: " ++ why ++ "; what its removal would free cannot be said, " ++
        "so it is left for the operator" }

/-! ## Telemetry -/

/-- `evict_telemetry` of a preview: what evicting the entry frees, out of its directory's
model. -/
def evictTelemetry (models : OrdMap PathBuf (Option Directory)) (entry : Entry) :
    Except String (ℕ × OrdMap PathBuf (Option Directory)) :=
  let failed (error : String) := "removing " ++ display entry.path ++ ": " ++ error
  match entry.directory, entry.segmentId with
  | some root, some id =>
    match models.get root with
    | some (some model) =>
      if model.segments.contains id then
        let removed := model.remove id
        .ok (removed.1, models.insert root (some removed.2))
      else .error (failed "it is gone")
    | _ => .error (failed "its telemetry directory overlaps other state")
  | _, _ => .error (failed "not a telemetry segment")

/-- `telemetry_counted`: what an overlapping telemetry directory's entry counts. -/
def telemetryCounted (entries : List Entry) (root : PathBuf) : ℕ :=
  totalOf (entries.filter fun e => e.kind = .telemetry && e.directory = some root)

/-- `models_total`: the telemetry kind's bytes now. -/
def modelsTotal (models : OrdMap PathBuf (Option Directory)) (entries : List Entry) : ℕ :=
  models.entries.foldl (fun t p =>
    saturatingAdd t (match p.2 with
      | some model => model.total
      | none => telemetryCounted entries p.1)) 0

/-! ## Making a plan -/

/-- What a plan is made in: the plan, the model and the telemetry so far. -/
structure Sweep where
  plan : Plan
  model : Model
  telemetry : Telemetry
  /-- how often the judge was asked -/
  asked : ℕ

namespace Sweep

/-- A failure said. -/
def fail (S : Sweep) (error : String) : Sweep :=
  { S with plan := { S.plan with failures := S.plan.failures ++ [error] } }

/-- A file or a Survey left. -/
def leave (S : Sweep) (left : Left) : Sweep :=
  { S with plan := { S.plan with left := S.plan.left ++ [left] } }

/-- `Plan::held`. -/
def hold (S : Sweep) (object : PathBuf) (bytes : ℕ) (reason : String) : Sweep :=
  S.leave ⟨.survey, ⟨object, bytes, .held, reason ++ "; the next pass tries again"⟩⟩

/-- A step planned, the model as it is after it. -/
def planStep (S : Sweep) (model : Model) (removal : Removal) (job : Job) : Sweep :=
  { S with
    model := model
    plan := { S.plan with
      steps := S.plan.steps ++ [⟨{ removal with totalAfter := some model.total }, job⟩] } }

/-- `Plan::push`. -/
def push (S : Sweep) (removal : Removal) (job : Job) (key : Option Key)
    (inside : Option (Kind × PathBuf)) : Sweep :=
  S.planStep (S.model.take key inside removal.bytes) removal job

/-- `Plan::push_telemetry`: what the eviction frees, when it can be planned. -/
def pushTelemetry (S : Sweep) (entry : Entry) (rule : Rule) : Option ℕ × Sweep :=
  match evictTelemetry S.telemetry.models entry with
  | .error error => (none, S.fail error)
  | .ok evicted =>
    (some evicted.1,
      { S.planStep (S.model.takeTelemetry entry.path evicted.1) (removalOf entry evicted.1 rule)
          (.telemetry entry) with
        telemetry := { S.telemetry with models := evicted.2 } })

/-- The judge asked once more. -/
def ask (S : Sweep) : Sweep := { S with asked := S.asked + 1 }

/-! ## Recovery -/

/-- A claim of a dead process, and the entry that counts it. -/
def claimStep (S : Sweep) (claim : Entry) (held : Option (Kind × PathBuf)) : Sweep :=
  if claim.tooDeep then S.leave (tooDeep claim)
  else match claim.unmeasurable with
    | some why => S.leave (unmeasurable claim why)
    | none =>
      S.push (removal .claim claim.path none claim.bytes .recovery) (.evict claim)
        (match held with
          | some _ => none
          | none => some (.claim, claim.path, none))
        held

/-- The kind of a pending deletion's step: an empty container is a claim. -/
def pendingKind (pending : Pending) : Kind :=
  match pending.job with
  | .container .. => .claim
  | _ => .survey

/-- A deletion an interruption left in a Project Store. -/
def pendingStep (store : PathBuf) (look : Look) (S : Sweep) (pending : Pending) : Sweep :=
  match look.held with
  | some reason =>
    if pendingKind pending = .survey then S.hold pending.object pending.bytes reason else S
  | none =>
    S.push (removal (pendingKind pending) pending.object none pending.bytes .recovery)
      (.survey pending.job)
      (match pending.counted with
        | .survey => some (.survey, pending.object, none)
        | .store => none)
      (match pending.counted with
        | .survey => none
        | .store => some (.projectStore, store))

/-- What a Project Store's look found. -/
def projectStep (S : Sweep) (project : PathBuf × Look) : Sweep :=
  let said : Sweep :=
    { S with plan :=
      { S.plan with
        failures := S.plan.failures ++ project.2.refused.map fun r =>
          "finishing " ++ display r.1 ++ ": " ++ r.2
        left := S.plan.left ++ project.2.left.map fun l => ⟨.survey, l⟩ } }
  project.2.recovery.foldl (pendingStep project.1 project.2) said

/-! ## Collection -/

/-- A finished Task its Store's rules take. -/
def pickStep (S : Sweep) (pick : TaskPick) : Sweep :=
  S.push (removal .task pick.state (some pick.taskId) pick.bytes .collection) .task
    (some (.task, pick.state, some pick.taskId)) (some (.taskStore, pick.state))

/-- A campaign or an unreadable Store collection takes. -/
def idleStep (S : Sweep) (entry : Entry) : Sweep :=
  S.push (removal entry.kind entry.path none entry.bytes .collection) (.evict entry)
    (some (entry.kind, entry.path, none)) none

/-- The campaigns beyond `keepCampaigns` and the unreadable Stores, those idle. -/
def idleEntries (inputs : Inputs) (M : Model) : List Entry :=
  let campaigns := sortBy (fun a b => compare b.lastUseUnixMs a.lastUseUnixMs)
    (M.entries.filter fun e => e.kind = .campaign)
  let unreadable := M.entries.filter fun e => e.kind = .unreadableStore
  (campaigns.drop inputs.keepCampaigns ++ unreadable).filter fun e =>
    e.inUse.isNone && decide (saturatingAdd e.lastUseUnixMs inputs.idleMs ≤ inputs.now)

/-- A Survey beyond `keepSurveys`. -/
def keepStep (judge : Judge) (store : PathBuf) (look : Look) (S : Sweep) (live : Live) : Sweep :=
  let object := objectPath store live.surveyId
  let found := S.model.survey object
  match look.held with
  | some reason => S.hold object found.1 reason
  | none =>
    match judge S.asked store live found.2 with
    | .take unreadable identity =>
      S.ask.push
        { removal .survey object none found.1 .keepSurveys with unreadable := unreadable }
        (.survey (.take store live.surveyId identity)) (some (.survey, object, none)) none
    | .left reason detail =>
      S.ask.leave ⟨.survey, ⟨object, found.1, reason,
        "Survey " ++ live.surveyId ++ " is " ++ detail⟩⟩
    | .refused why =>
      S.ask.fail ("collecting " ++ display object ++ ": Survey " ++ live.surveyId ++ " is " ++ why)

/-- The Surveys of one Project Store beyond `keepSurveys`. -/
def keepSurveysStep (inputs : Inputs) (judge : Judge) (S : Sweep) (project : PathBuf × Look) :
    Sweep :=
  (chooseBeyond project.2.live inputs.keepSurveys inputs.idleMs inputs.now).foldl
    (keepStep judge project.1 project.2) S

/-- `collect_into`. -/
def collectInto (inputs : Inputs) (judge : Judge) (S : Sweep) : Sweep :=
  let picked := inputs.tasks.foldl pickStep S
  let idled := (idleEntries inputs picked.model).foldl idleStep picked
  inputs.projects.foldl (keepSurveysStep inputs judge) idled

/-- Whether an entry is telemetry nothing uses and nothing used within the hour. -/
def restingTelemetry (inputs : Inputs) (e : Entry) : Bool :=
  e.kind = .telemetry && e.inUse.isNone &&
    decide (saturatingAdd e.lastUseUnixMs hourMs ≤ inputs.now)

/-- `collect_telemetry`. -/
def collectTelemetry (inputs : Inputs) (S : Sweep) : Sweep :=
  (sortBy leastRecentlyUsed (S.model.entries.filter fun e => restingTelemetry inputs e &&
      decide (saturatingAdd e.lastUseUnixMs inputs.idleMs ≤ inputs.now))).foldl
    (fun S e => (S.pushTelemetry e .collection).2) S

/-! ## The budget -/

/-- Whether the budget may take an entry. -/
def candidate (inputs : Inputs) (only : Bool) (e : Entry) : Bool :=
  e.kind ≠ .taskStore && e.kind ≠ .projectStore && e.kind ≠ .claim &&
    (!only || e.kind = .telemetry) && e.inUse.isNone &&
    decide (saturatingAdd e.lastUseUnixMs hourMs ≤ inputs.now) &&
    !(e.kind = .task && decide (saturatingAdd e.lastUseUnixMs inputs.idleMs > inputs.now))

/-- A Survey the budget takes. -/
def budgetSurvey (inputs : Inputs) (judge : Judge) (S : Sweep) (entry : Entry) : Sweep :=
  match surveyOfObject entry.path with
  | none =>
    S.fail ("removing " ++ display entry.path ++ ": names no Survey of a Project Store")
  | some (store, surveyId) =>
    match ((inputs.projects.filter fun p => p.1 = store).flatMap fun p => p.2.live).find?
        fun live => live.surveyId = surveyId with
    | none =>
      S.fail ("removing " ++ display entry.path ++ ": Survey " ++ surveyId ++
        " is no uncollected Survey of its Project Store's look")
    | some live =>
      match judge S.asked store live entry.identity with
      | .take unreadable identity =>
        S.ask.push
          { removal .survey entry.path none entry.bytes .budget with unreadable := unreadable }
          (.survey (.take store surveyId identity)) (some entry.key) none
      | .left reason detail =>
        S.ask.leave ⟨.survey, ⟨entry.path, entry.bytes, reason,
          "Survey " ++ surveyId ++ " is " ++ detail⟩⟩
      | .refused why =>
        S.ask.fail ("removing " ++ display entry.path ++ ": Survey " ++ surveyId ++ " is " ++ why)

/-- One candidate of the budget. -/
def budgetStep (inputs : Inputs) (judge : Judge) (S : Sweep) (entry : Entry) : Sweep :=
  if entry.kind = .telemetry then (S.pushTelemetry entry .budget).2
  else if entry.kind = .survey then budgetSurvey inputs judge S entry
  else
    S.push (removal entry.kind entry.path entry.taskId entry.bytes .budget) (.evict entry)
      (some entry.key) none

/-- The candidates in turn, while the model holds more than `maxBytes`. -/
def budgetLoop (inputs : Inputs) (judge : Judge) : List Entry → Sweep → Sweep
  | [], S => S
  | entry :: rest, S =>
    if S.model.total ≤ inputs.maxBytes then S
    else budgetLoop inputs judge rest (budgetStep inputs judge S entry)

/-- The budget. -/
def budget (inputs : Inputs) (judge : Judge) (S : Sweep) : Sweep :=
  if S.model.total > inputs.maxBytes then
    budgetLoop inputs judge
      (sortBy evictionOrder (S.model.entries.filter (candidate inputs S.telemetry.only))) S
  else S

/-- Telemetry past its own cap: the entries in turn while more than `cap` is held. -/
def capLoop (cap : ℕ) : List Entry → ℕ → Sweep → ℕ × Sweep
  | more, held, S =>
    if held > cap then
      match more with
      | [] => (held, { S with plan := { S.plan with telemetryStop := .nothingEvictable } })
      | entry :: rest =>
        let pushed := S.pushTelemetry entry .budget
        capLoop cap rest (held - pushed.1.getD 0) pushed.2
    else (held, S)

/-- Telemetry's own cap: what telemetry holds after it. -/
def capTelemetry (inputs : Inputs) (S : Sweep) : ℕ × Sweep :=
  let held := modelsTotal S.telemetry.models S.model.entries
  match S.telemetry.maxBytes with
  | none => (held, S)
  | some cap =>
    capLoop cap (sortBy leastRecentlyUsed (S.model.entries.filter (restingTelemetry inputs)))
      held S

end Sweep

/-! ## The plan -/

namespace Inputs

/-- The entry that counts each claim, of the snapshot's entries. -/
def heldBy (inputs : Inputs) (claim : Entry) : Option (Kind × PathBuf) :=
  (holder inputs.entries claim.path).map fun e => (e.kind, e.path)

/-- The entries the model starts from: the snapshot's, and the claims none of them counts. -/
def counted (inputs : Inputs) : List Entry :=
  inputs.entries ++ inputs.claims.filter fun claim => (inputs.heldBy claim).isNone

/-- What planning starts from. -/
def start (inputs : Inputs) : Sweep where
  plan :=
    { totalBefore := totalOf inputs.counted
      steps := []
      left := (inputs.counted.filter fun e => e.tooDeep && e.kind ≠ .claim).map tooDeep
      failures := []
      registrations := inputs.registrations
      totalAfter := 0
      stop := .fits
      telemetryTotalAfter := 0
      telemetryStop := .fits }
  model := .new inputs.counted
  telemetry := inputs.telemetry
  asked := 0

/-- What interruptions left, planned first. -/
def recovered (inputs : Inputs) : Sweep :=
  inputs.projects.foldl Sweep.projectStep
    (inputs.claims.foldl (fun S claim => S.claimStep claim (inputs.heldBy claim)) inputs.start)

/-- Collection, when it is on; of telemetry alone for `af telemetry gc`. -/
def collected (inputs : Inputs) (judge : Judge) : Sweep :=
  if inputs.collection then
    Sweep.collectTelemetry inputs
      (if inputs.telemetry.only then inputs.recovered
      else Sweep.collectInto inputs judge inputs.recovered)
  else inputs.recovered

/-- The plan once the budget took what it may. -/
def budgeted (inputs : Inputs) (judge : Judge) : Sweep :=
  Sweep.budget inputs judge (inputs.collected judge)

end Inputs

/-- `make`: plan one sweep over one snapshot. -/
def make (inputs : Inputs) (judge : Judge) : Plan :=
  let capped := Sweep.capTelemetry inputs (inputs.budgeted judge)
  { capped.2.plan with
    telemetryTotalAfter := capped.1
    totalAfter := capped.2.model.total
    stop := stopOf capped.2.model.total inputs.maxBytes }

/-! ## Running a plan -/

/-- `TelemetryChanged`: a telemetry entry left in place because it changed. -/
structure TelemetryChanged where
  directory : PathBuf
  segmentId : String
  path : PathBuf
  reason : String
  deriving DecidableEq, Repr

/-- `Ran`: what one planned entry that ran did. -/
structure Ran where
  freed : ℕ
  unreadable : Option String
  /-- what the entry held when its removal started, where something measured it -/
  started : Option ℕ
  changed : Option TelemetryChanged
  left : List PathBuf
  deriving DecidableEq, Repr

/-- `Remains`: what a planned entry that failed still holds. -/
inductive Remains where
  | counted
  | measured (bytes : ℕ)
  | unmeasured
  deriving DecidableEq, Repr

/-- `Failed`: why a planned entry failed, and the bytes that left the disk before it did. -/
structure Failed where
  reason : String
  freed : ℕ
  remains : Remains
  deriving DecidableEq, Repr

/-- `execute`: what the executor does with the nth step. -/
abbrev Executor := ℕ → Planned → Except Failed Ran

/-- `SweepReport`: what a sweep reports of its plan. -/
structure Report where
  maxBytes : ℕ
  totalAfter : Option ℕ
  stop : Stop
  removals : List Removal
  left : List Left
  registryDropped : List PathBuf
  failures : List String
  /-- telemetry entries found changed and left in place -/
  changed : List TelemetryChanged
  deriving DecidableEq, Repr

/-- `u64::saturating_sub` of a sum: what a measured entry leaves of the total. -/
def reconcile (total measured counted : ℕ) : ℕ := saturatingAdd total measured - counted

/-- One step of `run`: the running total and the report after what the executor did. -/
def runStep (outcome : Except Failed Ran) (planned : Planned) (total : Option ℕ)
    (report : Report) : Option ℕ × Report :=
  let removal := planned.removal
  match outcome with
  | .ok ran =>
    match ran.changed with
    | some changed => (total, { report with changed := report.changed ++ [changed] })
    | none =>
      let total := total.map fun t => match ran.started with
        | some started => reconcile t started removal.bytes - ran.freed
        | none => t - ran.freed
      (total, { report with removals := report.removals ++
        [{ removal with
          bytes := ran.freed
          unreadable := ran.unreadable
          left := ran.left
          totalAfter := total }] })
  | .error failed =>
    let total := match failed.remains with
      | .counted => total
      | .measured left => total.map fun t => reconcile t left removal.bytes
      | .unmeasured => none
    (total, { report with
      failures := report.failures ++ [failed.reason]
      removals := report.removals ++
        [{ removal with
          bytes := failed.freed
          unreadable := none
          totalAfter := total
          outcome := some ("failed: " ++ failed.reason) }] })

/-- The steps in turn, each with its number. -/
def runSteps (execute : Executor) :
    ℕ → List Planned → Option ℕ × Report → Option ℕ × Report
  | _, [], state => state
  | n, planned :: rest, state =>
    runSteps execute (n + 1) rest (runStep (execute n planned) planned state.1 state.2)

/-- `run`: the plan entry by entry, never planning again. -/
def run (plan : Plan) (report : Report) (execute : Executor) : Report :=
  let ran := runSteps execute 0 plan.steps (some plan.totalBefore,
    { report with left := report.left ++ plan.left, failures := report.failures ++ plan.failures })
  { ran.2 with
    totalAfter := ran.1
    stop := match ran.1 with
      | none => .unknown
      | some total => stopOf total report.maxBytes }

/-- `preview`: the plan as a preview reports it. -/
def preview (plan : Plan) (report : Report) : Report :=
  { report with
    registryDropped := plan.registrations
    left := report.left ++ plan.left
    failures := report.failures ++ plan.failures
    removals := report.removals ++ plan.steps.map Planned.removal
    totalAfter := some plan.totalAfter
    stop := plan.stop }

end Storage

end Afactory
