import Mathlib
import Afactory.Json

/-!
# What the records of a Store reach

`collection.rs` and `cas.rs` of `review-store`: the CAS objects each record of the log reaches, the
sums a collection plan makes of them, and the sweep that removes what none reaches.

* `scanDigests`, `spelledDigests`: the digests bytes spell, found whole or in chunks;
* `Store.reach`: one walk over the objects for each record, over shared edges and stamps;
* `Reach.totals`, `Reach.footprint`, `Reach.retained`: what is counted;
* `Store.planAt`: what a collection does to each Task and what it frees;
* `Store.sweep`: what it removes.
-/

namespace Afactory

namespace Collection

open Json (Bytes)

/-! ## Spelled digests -/

/-- `sha256:` and 64 hex digits. -/
def spelledDigestLen : ℕ := 7 + 64

def lowerHex (byte : UInt8) : Bool := (48 ≤ byte && byte ≤ 57) || (97 ≤ byte && byte ≤ 102)

/-- A digest stands at the beginning. -/
def spells (bytes : Bytes) : Bool :=
  Json.utf8 "sha256:" <+: bytes && spelledDigestLen ≤ bytes.length &&
    ((bytes.take spelledDigestLen).drop 7).all lowerHex

def asciiText (bytes : Bytes) : String := String.ofList (bytes.map fun byte => Char.ofNat byte.toNat)

/-- `scan_digests`: at every position. -/
def scanDigests : Bytes → List String
  | [] => []
  | byte :: rest =>
    if spells (byte :: rest) then
      asciiText ((byte :: rest).take spelledDigestLen) :: scanDigests rest
    else scanDigests rest

/-- A `BTreeSet` of texts. -/
def textSet (texts : List String) : List String := (texts.mergeSort (· ≤ ·)).dedup

/-- The loop of `spelled_digests`: the window keeps the tail that could still begin a spelling the
next chunk completes. -/
def scanChunks (window : Bytes) (found : List String) : List Bytes → List String
  | [] => found
  | chunk :: chunks =>
    let scanned := window ++ chunk
    scanChunks (scanned.drop (scanned.length - min scanned.length (spelledDigestLen - 1)))
      (found ++ scanDigests scanned) chunks

/-- `Cas::spelled_digests`, of a file read in chunks. -/
def spelledDigests (chunks : List Bytes) : List String := textSet (scanChunks [] [] chunks)

/-! ## The Store -/

/-- `FiledObject`, with the chunks its file is read in. -/
structure FiledObject where
  digest : String
  modified : ℕ
  chunks : List Bytes
  deriving DecidableEq, Repr

def FiledObject.len (object : FiledObject) : ℕ := object.chunks.flatten.length

/-- What the Store keeps of one run. -/
structure RunRecord where
  runId : String
  /-- its log ends in a tombstone -/
  tombstoned : Bool
  /-- the artifact references and the payload of each event -/
  events : List (String × String)
  /-- the usage and the observation of each Attempt wall -/
  walls : List (String × String)
  /-- the wall ends -/
  wallEnds : List String
  deriving DecidableEq, Repr

/-- The runs of the log in the order of their IDs, and the files of the CAS in the order of their
digests. -/
structure Store where
  records : List RunRecord
  objects : List FiledObject
  records_nodup : (records.map RunRecord.runId).Nodup
  objects_nodup : (objects.map FiledObject.digest).Nodup

/-- The digests a record spells. -/
def RunRecord.roots (record : RunRecord) : List String :=
  textSet ((record.events.flatMap fun (refs, payload) =>
      scanDigests (Json.utf8 refs) ++ scanDigests (Json.utf8 payload)) ++
    (record.walls.flatMap fun (usage, observation) =>
      scanDigests (Json.utf8 usage) ++ scanDigests (Json.utf8 observation)) ++
    record.wallEnds.flatMap fun wallEnd => scanDigests (Json.utf8 wallEnd))

namespace Store

variable (store : Store)

/-- A position among the objects. -/
abbrev Position := Fin store.objects.length

/-- The position of the object of a digest. -/
def index (digest : String) : Option store.Position :=
  (List.finRange store.objects.length).find? fun position =>
    (store.objects.get position).digest = digest

/-- The edges of one object. -/
def edgesOf (position : store.Position) : List store.Position :=
  (spelledDigests (store.objects.get position).chunks).filterMap store.index

/-! ## The walk -/

/-- What the walks share, and the closure of the current one. -/
structure Walk where
  edges : store.Position → Option (List store.Position)
  seen : store.Position → ℕ
  count : store.Position → ℕ
  closure : List store.Position

def Walk.empty : store.Walk where
  edges _ := none
  seen _ := 0
  count _ := 0
  closure := []

variable {store}

/-- One object seen for the first time in the walk of a stamp, its edges read if they are not. -/
def Walk.visit (walk : store.Walk) (stamp : ℕ) (position : store.Position) : store.Walk where
  edges := Function.update walk.edges position
    (some ((walk.edges position).getD (store.edgesOf position)))
  seen := Function.update walk.seen position stamp
  count := Function.update walk.count position (walk.count position + 1)
  closure := walk.closure ++ [position]

/-- What the visit of an object adds to the stack. -/
def Walk.unseen (walk : store.Walk) (stamp : ℕ) (position : store.Position) :
    List store.Position :=
  ((walk.edges position).getD []).filter fun next => walk.seen next ≠ stamp

/-- The objects the walk of a stamp has not seen. -/
def Walk.left (walk : store.Walk) (stamp : ℕ) : ℕ :=
  (Finset.univ.filter fun position => walk.seen position ≠ stamp).card

theorem Walk.left_visit {walk : store.Walk} {stamp : ℕ} {position : store.Position}
    (h : walk.seen position ≠ stamp) :
    (walk.visit stamp position).left stamp < walk.left stamp := by
  refine Finset.card_lt_card (Finset.ssubset_iff_of_subset ?_ |>.mpr ⟨position, ?_, ?_⟩)
  · intro other hother
    rw [Finset.mem_filter] at hother ⊢
    refine ⟨Finset.mem_univ other, ?_⟩
    by_cases heq : other = position
    · rwa [heq]
    · simpa [Walk.visit, Function.update_of_ne heq] using hother.2
  · simpa using h
  · rw [Finset.mem_filter]
    simp [Walk.visit]

/-- `while let Some(position) = stack.pop()`: the head of the list is the end of the stack. -/
def Walk.run (stamp : ℕ) (walk : store.Walk) : List store.Position → store.Walk
  | [] => walk
  | position :: stack =>
    if walk.seen position = stamp then walk.run stamp stack
    else
      let walk' := walk.visit stamp position
      walk'.run stamp ((walk'.unseen stamp position).reverse ++ stack)
  termination_by stack => (walk.left stamp, stack.length)
  decreasing_by
    · exact Prod.Lex.right _ (by simp)
    · exact Prod.Lex.left _ _ (Walk.left_visit (by assumption))

variable (store)

/-- The walk of one record. -/
def walkRecord (stamp : ℕ) (walk : store.Walk) (record : RunRecord) : store.Walk :=
  { walk with closure := [] }.run stamp (record.roots.filterMap store.index).reverse

/-- The loop over the runs, from the last stamp. -/
def walkRecords (stamp : ℕ) (walk : store.Walk) :
    List RunRecord → List (String × List store.Position) × (store.Position → ℕ)
  | [] => ([], walk.count)
  | record :: records =>
    if record.tombstoned then walkRecords stamp walk records
    else
      let walk' := store.walkRecord (stamp + 1) walk record
      let rest := walkRecords (stamp + 1) walk' records
      ((record.runId, walk'.closure) :: rest.1, rest.2)

end Store

/-- Reachability over one reading of the log and the CAS. -/
structure Reach where
  objects : List FiledObject
  /-- each uncollected record's closure, by run ID -/
  runs : List (String × List (Fin objects.length))
  /-- how many uncollected records reach each object -/
  count : Fin objects.length → ℕ

/-- `EventStore::reach`. -/
def Store.reach (store : Store) : Reach where
  objects := store.objects
  runs := (store.walkRecords 0 (.empty store) store.records).1
  count := (store.walkRecords 0 (.empty store) store.records).2

/-! ## What is counted -/

structure StoreTotals where
  objects : ℕ
  bytes : ℕ
  unreachableObjects : ℕ
  unreachableBytes : ℕ
  deriving DecidableEq, Repr

structure TaskFootprint where
  exclusiveObjects : ℕ
  exclusiveBytes : ℕ
  sharedObjects : ℕ
  sharedBytes : ℕ
  deriving DecidableEq, Repr

namespace Reach

variable (reach : Reach)

def totals : StoreTotals :=
  (List.finRange reach.objects.length).foldl
    (fun totals index =>
      let len := (reach.objects.get index).len
      let totals := { totals with
        objects := totals.objects + 1
        bytes := totals.bytes + len }
      if reach.count index = 0 then
        { totals with
          unreachableObjects := totals.unreachableObjects + 1
          unreachableBytes := totals.unreachableBytes + len }
      else totals)
    { objects := 0, bytes := 0, unreachableObjects := 0, unreachableBytes := 0 }

/-- The closure of a run, empty if it has none. -/
def closure (runId : String) : List (Fin reach.objects.length) :=
  (reach.runs.lookup runId).getD []

def footprint (runId : String) : TaskFootprint :=
  (reach.closure runId).foldl
    (fun footprint index =>
      let len := (reach.objects.get index).len
      if reach.count index = 1 then
        { footprint with
          exclusiveObjects := footprint.exclusiveObjects + 1
          exclusiveBytes := footprint.exclusiveBytes + len }
      else
        { footprint with
          sharedObjects := footprint.sharedObjects + 1
          sharedBytes := footprint.sharedBytes + len })
    { exclusiveObjects := 0, exclusiveBytes := 0, sharedObjects := 0, sharedBytes := 0 }

/-- `count[index] -= 1`, nothing when it would underflow. -/
def decrement (count : Fin reach.objects.length → ℕ) (index : Fin reach.objects.length) :
    Option (Fin reach.objects.length → ℕ) :=
  if count index = 0 then none else some (Function.update count index (count index - 1))

/-- With `collected` runs gone: how many records still reach each object. -/
def retained (collected : List String) : Option (Fin reach.objects.length → ℕ) :=
  collected.foldlM (fun count run => (reach.closure run).foldlM reach.decrement count) reach.count

/-- The bytes of the objects at these positions. -/
def bytes (positions : List (Fin reach.objects.length)) : ℕ :=
  (positions.map fun index => (reach.objects.get index).len).sum

end Reach

/-! ## The plan -/

/-- What the plan reads of the phase of a Task. -/
inductive Phase where
  | running
  | finished
  | unfinished
  deriving DecidableEq, Repr

/-- An uncollected Task, with the ID of its run and the Tasks its bindings name. -/
structure SeenTask where
  taskId : String
  runId : String
  phase : Phase
  lastTime : ℕ
  leaseUntil : ℕ
  bindings : List String
  deriving DecidableEq, Repr

inductive CollectionDisposition where
  | collect
  | keptNewest
  | keptRecent
  | running
  | unfinished
  | writerLease (untilUnixMs : ℕ)
  | boundBy (tasks : List String)
  deriving DecidableEq, Repr

structure CollectionCandidate where
  taskId : String
  runId : String
  lastEventUnixMs : ℕ
  disposition : CollectionDisposition
  footprint : TaskFootprint
  collectedBytes : ℕ
  deriving DecidableEq, Repr

structure CollectionPlan where
  tasks : List CollectionCandidate
  liveWriters : List (String × ℕ)
  totals : StoreTotals
  reclaimableObjects : ℕ
  reclaimableBytes : ℕ
  deriving DecidableEq, Repr

/-- The Tasks whose bindings name a Task. -/
def boundBy (seen : List SeenTask) (taskId : String) : List String :=
  (seen.filter fun entry => taskId ∈ entry.bindings).map SeenTask.taskId

/-- The newest `keep` finished Tasks. -/
def newest (seen : List SeenTask) (keep : ℕ) : List String :=
  (((seen.filter fun entry => entry.phase = .finished).mergeSort fun left right =>
    right.lastTime < left.lastTime || (left.lastTime = right.lastTime && left.taskId ≤ right.taskId)).take
      keep).map SeenTask.taskId

def liveWriters (seen : List SeenTask) (now : ℕ) : List (String × ℕ) :=
  (seen.filter fun entry => now < entry.leaseUntil).map fun entry => (entry.taskId, entry.leaseUntil)

/-- `u64::saturating_add`. -/
def saturatingAdd (a b : ℕ) : ℕ := min (a + b) (2 ^ 64 - 1)

/-- Why a Task is or is not collected. -/
def disposition (seen : List SeenTask) (olderThan keep now : ℕ) (task : SeenTask) :
    CollectionDisposition :=
  match task.phase with
  | .running => .running
  | .finished =>
    if now < task.leaseUntil then .writerLease task.leaseUntil
    else if boundBy seen task.taskId ≠ [] then .boundBy (boundBy seen task.taskId)
    else if task.taskId ∈ newest seen keep then .keptNewest
    else if now < saturatingAdd task.lastTime olderThan then .keptRecent
    else .collect
  | .unfinished => .unfinished

/-- A candidate the plan collects: by its rules, and among the named ones if some are. -/
def collects (only : Option (List String)) (task : CollectionCandidate) : Bool :=
  task.disposition = .collect && only.all (task.taskId ∈ ·)

/-- The runs the plan collects, as a set. -/
def collecting (only : Option (List String)) (tasks : List CollectionCandidate) : List String :=
  textSet ((tasks.filter (collects only)).map CollectionCandidate.runId)

/-- The candidates of a plan, before bytes are counted. -/
def candidates (reach : Reach) (seen : List SeenTask) (olderThan keep now : ℕ) :
    List CollectionCandidate :=
  seen.map fun task =>
    { taskId := task.taskId
      runId := task.runId
      lastEventUnixMs := task.lastTime
      disposition := disposition seen olderThan keep now task
      footprint := reach.footprint task.runId
      collectedBytes := 0 }

/-- The sums of `plan_at`; nothing if a count underflows. -/
def planAt (store : Store) (seen : List SeenTask) (olderThan keep now : ℕ)
    (only : Option (List String)) : Option CollectionPlan := do
  let reach := store.reach
  let tasks := candidates reach seen olderThan keep now
  let retained ← reach.retained (collecting only tasks)
  let free := (List.finRange reach.objects.length).filter fun index => retained index = 0
  return {
    tasks := tasks.map fun task =>
      if collects only task then
        { task with
          collectedBytes := reach.bytes ((reach.closure task.runId).filter (retained · = 0)) }
      else task
    liveWriters := liveWriters seen now
    totals := reach.totals
    reclaimableObjects := free.length
    reclaimableBytes := reach.bytes free }

/-! ## The sweep -/

namespace Store

variable (store : Store)

/-- The Store once each of the runs ends in a tombstone. -/
def tombstone (runs : List String) : Store where
  records := store.records.map fun record =>
    if record.runId ∈ runs then { record with tombstoned := true } else record
  objects := store.objects
  records_nodup := by
    have hids : (store.records.map fun record =>
        if record.runId ∈ runs then { record with tombstoned := true } else record).map
          RunRecord.runId = store.records.map RunRecord.runId := by
      rw [List.map_map]
      refine List.map_congr_left fun record _ => ?_
      simp only [Function.comp_apply]
      split_ifs <;> rfl
    exact hids ▸ store.records_nodup
  objects_nodup := store.objects_nodup

/-- An object the sweep removes: no record reaches it, and it was filed before the lease. -/
def removes (leased : ℕ) (index : store.Position) : Bool :=
  store.reach.count index = 0 && !(leased ≤ (store.objects.get index).modified)

/-- What the sweep leaves. -/
def swept (leased : ℕ) : Store where
  records := store.records
  objects := ((List.finRange store.objects.length).filter fun index =>
    !store.removes leased index).map store.objects.get
  records_nodup := store.records_nodup
  objects_nodup := by
    refine List.Nodup.sublist ((List.filter_sublist.map _).map _) ?_
    rw [List.map_get_finRange]
    exact store.objects_nodup

/-- `EventStore::sweep`, refused while a writer is live: the Store it leaves, and the number and the
bytes of what it removes. -/
def sweep (seen : List SeenTask) (now leased : ℕ) :
    Except (String × ℕ) (Store × ℕ × ℕ) :=
  match liveWriters seen now with
  | [] =>
    let removed := (List.finRange store.objects.length).filter (store.removes leased)
    .ok (store.swept leased, removed.length,
      (removed.map fun index => (store.objects.get index).len).sum)
  | writer :: _ => .error writer

end Store

end Collection

end Afactory
