import Mathlib
import Afactory.Budget
import Afactory.CompiledTask
import Afactory.Json

/-!
# Telemetry records

`review-telemetry/src/record.rs`: the records of a segment, one JSON object a line, how a record
is encoded within the record bound and how a line is read.

* `Record`: the twelve kinds of line; `Record.validate`: what a record of this release holds;
* `Record.toJson`, `Codec.toVec`: the text of a record, its kind first, then its sequence and
  its schema;
* `Codec.encode`: attributes are dropped from the end until the line fits, and what was cut,
  dropped and withheld is counted in attributes of its own;
* `Codec.parseLine`: the bound, the deserialization and the validation of one line.

Deserialization is serde's (`Codec.fromSlice`), as are the texts of doubles (`Codec.double`):
`Codec.Lawful` says what the segments rely on.
-/

namespace Afactory

namespace Telemetry

open Json (Bytes Value)

/-! ## Bounds and names -/

/-- `RECORD_MAX_BYTES`: one encoded record, its newline excluded, is at most this long. -/
abbrev recordMaxBytes : ℕ := 16 * 1024

/-- `COUNTER_RESERVE_BYTES`: what every record keeps for its counters. -/
abbrev counterReserveBytes : ℕ := 256

/-- `TRUNCATED_FIELDS` -/
abbrev truncatedFields : String := "af.truncated_fields"

/-- `DROPPED_FIELDS` -/
abbrev droppedFields : String := "af.dropped_fields"

/-- `REDACTED` -/
abbrev redactedFields : String := "af.redacted"

/-- `COUNTERS`: the counter attributes, never dropped. -/
def counterNames : List String := [truncatedFields, droppedFields, redactedFields]

/-- The record kinds, as `t` spells them. -/
inductive Kind where
  | segment | spanStart | spanEnd | event | config | node | finding | demand | blob | blobRef
  | problem | seal
  deriving DecidableEq, Repr

namespace Kind

def text : Kind → String
  | segment => "segment"
  | spanStart => "span_start"
  | spanEnd => "span_end"
  | event => "event"
  | config => "config"
  | node => "node"
  | finding => "finding"
  | demand => "demand"
  | blob => "blob"
  | blobRef => "blob_ref"
  | problem => "problem"
  | .seal => "seal"

/-- The versioned type a record of the kind carries. -/
def schema : Kind → String
  | segment => "af/TelemetrySegment@1"
  | spanStart | spanEnd => "af/TelemetrySpan@1"
  | event => "af/TelemetryEvent@1"
  | config => "af/TelemetryConfig@2"
  | node => "af/TelemetryNode@1"
  | finding => "af/TelemetryFinding@2"
  | demand => "af/TelemetryDemand@2"
  | blob => "af/TelemetryBlob@1"
  | blobRef => "af/TelemetryBlobRef@1"
  | problem => "af/TelemetryProblem@1"
  | .seal => "af/TelemetrySeal@1"

/-- `KINDS`: every kind, in the order the source lists them. -/
def all : List Kind :=
  [segment, spanStart, spanEnd, event, config, node, finding, demand, blob, blobRef, problem, .seal]

theorem mem_all (kind : Kind) : kind ∈ all := by cases kind <;> decide

theorem text_inj {a b : Kind} (h : a.text = b.text) : a = b := by
  cases a <;> cases b <;> first | rfl | exact absurd h (by decide)

end Kind

/-! ## Attributes -/

/-- `Map<String, Value>`: the attributes of a record, in the writer's order. -/
structure Attributes where
  members : List (String × Value)
  nodup : (members.map Prod.fst).Nodup

namespace Attributes

def empty : Attributes := ⟨[], List.nodup_nil⟩

/-- `shift_remove` -/
def shiftRemove (attributes : Attributes) (name : String) : Attributes where
  members := attributes.members.filter (·.1 ≠ name)
  nodup := (attributes.nodup.sublist (List.filter_sublist.map _))

/-- `insert`: in its place when the name is there, else at the end. -/
def insert (attributes : Attributes) (name : String) (value : Value) : Attributes where
  members :=
    if name ∈ attributes.members.map Prod.fst then
      attributes.members.map fun member => if member.1 = name then (name, value) else member
    else attributes.members ++ [(name, value)]
  nodup := by
    split
    · have hkeys : (attributes.members.map fun member =>
          if member.1 = name then (name, value) else member).map Prod.fst =
            attributes.members.map Prod.fst := by
        rw [List.map_map]
        refine List.map_congr_left fun member _ => ?_
        by_cases h : member.1 = name <;> simp [h]
      exact hkeys ▸ attributes.nodup
    · next hnew =>
      rw [List.map_append]
      refine List.nodup_append.mpr ⟨attributes.nodup, List.nodup_singleton _, ?_⟩
      rintro key hkey _ hname rfl
      obtain rfl : key = name := List.mem_singleton.mp hname
      exact hnew hkey

/-- `keys().next_back()` -/
def lastKey (attributes : Attributes) : Option String := attributes.members.getLast?.map Prod.fst

theorem shiftRemove_lt {attributes : Attributes} {last : String}
    (h : attributes.lastKey = some last) :
    (attributes.shiftRemove last).members.length < attributes.members.length := by
  obtain ⟨member, hmember, rfl⟩ := Option.map_eq_some_iff.mp h
  refine List.length_filter_lt_length_iff_exists.mpr
    ⟨member, List.mem_of_getLast? hmember, by simp⟩

end Attributes

/-! ## Records -/

/-- `Host`: what was read of the machine when the segment was opened. -/
structure Host where
  os : String
  arch : String
  cpus : UInt32
  memoryBytes : Option UInt64
  load1 : Option Json.Double
  freeBytes : Option UInt64

/-- `Level` -/
inductive Level where
  | off | metrics | spans | content
  deriving DecidableEq, Repr

def Level.text : Level → String
  | off => "off"
  | metrics => "metrics"
  | spans => "spans"
  | content => "content"

structure SegmentHeader where
  seq : UInt64
  schema : String
  segmentId : String
  afVersion : String
  afCommit : String
  pid : UInt32
  parentPid : UInt32
  argv : List String
  cwd : String
  host : Host
  startedUnixNs : String
  monoOriginUnixNs : String
  level : Level

inductive SpanKind where
  | internal | process | client
  deriving DecidableEq, Repr

def SpanKind.text : SpanKind → String
  | internal => "internal"
  | process => "process"
  | client => "client"

inductive SpanStatus where
  | ok | error | unset
  deriving DecidableEq, Repr

def SpanStatus.text : SpanStatus → String
  | ok => "ok"
  | error => "error"
  | unset => "unset"

structure SpanStart where
  seq : UInt64
  schema : String
  traceId : Option String
  spanId : String
  parentSpanId : Option String
  name : String
  kind : SpanKind
  startUnixNs : String
  attributes : Attributes

structure SpanEnd where
  seq : UInt64
  schema : String
  spanId : String
  endUnixNs : Option String
  status : SpanStatus
  attributes : Attributes

structure Event where
  seq : UInt64
  schema : String
  spanId : String
  timeUnixNs : String
  name : String
  attributes : Attributes
  blob : Option String
  blobMediaType : Option String

structure ConfigRow where
  key : String
  value : String
  layer : String
  origin : Option String

structure ConfigPart where
  seq : UInt64
  schema : String
  executionId : String
  runId : String
  runSpanId : String
  sectionName : String
  part : UInt32
  parts : UInt32
  complete : Bool
  rows : List ConfigRow
  redacted : Option UInt32

structure Node where
  seq : UInt64
  schema : String
  executionId : String
  planDigest : String
  nodeId : String
  kind : String
  package : Option String
  dependsOn : List String
  expectedNodes : UInt32

structure Finding where
  seq : UInt64
  schema : String
  spanId : String
  log : String
  sequence : UInt64
  key : String
  severity : String
  effectiveSeverity : String
  status : String
  scope : String
  file : Option String
  line : Option UInt64
  title : String
  reportArtifactId : String
  nodeId : String
  worker : String
  model : Option String
  round : Option UInt64
  epoch : Option UInt64

structure Demand where
  seq : UInt64
  schema : String
  spanId : String
  log : String
  sequence : UInt64
  demandId : String
  kind : String
  required : Bool
  subjectId : String
  snapshotId : String
  status : String

structure BlobObject where
  seq : UInt64
  schema : String
  digest : String
  bytes : UInt64
  storedBytes : UInt64
  redaction : String

inductive BlobState where
  | stored | dropped
  deriving DecidableEq, Repr

def BlobState.text : BlobState → String
  | stored => "stored"
  | dropped => "dropped"

structure BlobRef where
  seq : UInt64
  schema : String
  occurrenceId : String
  digest : Option String
  spanId : String
  eventSeq : UInt64
  sourceDigest : String
  originalBytes : UInt64
  truncated : Bool
  state : BlobState
  mediaType : String
  redaction : String

inductive ProblemWhat where
  | write | blob | receiver | budget | redaction | sink | observer
  deriving DecidableEq, Repr

def ProblemWhat.text : ProblemWhat → String
  | write => "write"
  | blob => "blob"
  | receiver => "receiver"
  | budget => "budget"
  | redaction => "redaction"
  | sink => "sink"
  | observer => "observer"

structure Problem where
  seq : UInt64
  schema : String
  timeUnixNs : String
  what : ProblemWhat
  reason : String

inductive SealExit where
  | ok | error | signal | recovered
  deriving DecidableEq, Repr

def SealExit.text : SealExit → String
  | ok => "ok"
  | error => "error"
  | signal => "signal"
  | recovered => "recovered"

/-- `Seal`: the last line; counts nobody knows any more are absent. -/
structure Seal where
  seq : UInt64
  schema : String
  endedUnixNs : String
  exit : SealExit
  spans : UInt64
  events : UInt64
  blobs : UInt64
  dropped : Option UInt64
  droppedChunks : Option UInt64
  discardedBytes : UInt64
  refs : String
  deriving DecidableEq, Repr

/-- `Record`: one segment line. -/
inductive Record where
  | segment (r : SegmentHeader)
  | spanStart (r : SpanStart)
  | spanEnd (r : SpanEnd)
  | event (r : Event)
  | config (r : ConfigPart)
  | node (r : Node)
  | finding (r : Finding)
  | demand (r : Demand)
  | blob (r : BlobObject)
  | blobRef (r : BlobRef)
  | problem (r : Problem)
  | seal (r : Seal)

namespace Record

def seq : Record → UInt64
  | segment r => r.seq
  | spanStart r => r.seq
  | spanEnd r => r.seq
  | event r => r.seq
  | config r => r.seq
  | node r => r.seq
  | finding r => r.seq
  | demand r => r.seq
  | blob r => r.seq
  | blobRef r => r.seq
  | problem r => r.seq
  | .seal r => r.seq

def kind : Record → Kind
  | segment _ => .segment
  | spanStart _ => .spanStart
  | spanEnd _ => .spanEnd
  | event _ => .event
  | config _ => .config
  | node _ => .node
  | finding _ => .finding
  | demand _ => .demand
  | blob _ => .blob
  | blobRef _ => .blobRef
  | problem _ => .problem
  | .seal _ => .seal

/-- `expected_schema` -/
def expectedSchema (record : Record) : String := record.kind.schema

/-- `schema_field` -/
def schemaField : Record → String
  | segment r => r.schema
  | spanStart r => r.schema
  | spanEnd r => r.schema
  | event r => r.schema
  | config r => r.schema
  | node r => r.schema
  | finding r => r.schema
  | demand r => r.schema
  | blob r => r.schema
  | blobRef r => r.schema
  | problem r => r.schema
  | .seal r => r.schema

/-- `attributes_mut`, read. -/
def attributes? : Record → Option Attributes
  | spanStart r => some r.attributes
  | spanEnd r => some r.attributes
  | event r => some r.attributes
  | _ => none

/-- `attributes_mut`, written. -/
def setAttributes (attributes : Attributes) : Record → Record
  | spanStart r => spanStart { r with attributes }
  | spanEnd r => spanEnd { r with attributes }
  | event r => event { r with attributes }
  | record => record

end Record

/-! ## Validation -/

/-- `is_canonical_decimal`: a `u128` in decimal, without a leading zero. -/
def isCanonicalDecimal (value : String) : Bool :=
  value.toList ≠ [] && value.toList.all Char.isDigit &&
    (value = "0" || value.toList.head? ≠ some '0') &&
    Nat.ofDigitChars 10 value.toList 0 < u128Bound

/-- A field that must hold a timestamp. -/
def checkDecimal (name value : String) : Except String Unit :=
  if isCanonicalDecimal value then .ok () else .error s!"`{name}` is not a decimal timestamp"

/-- A field that must hold a digest. -/
def checkDigest (name value : String) : Except String Unit :=
  if isDigest value then .ok () else .error s!"`{name}` is not a digest"

/-- What the fields of one kind must hold. -/
@[grind =] def Record.checkFields : Record → Except String Unit
  | segment r => do
    checkDecimal "started_unix_ns" r.startedUnixNs
    checkDecimal "mono_origin_unix_ns" r.monoOriginUnixNs
  | spanStart r => checkDecimal "start_unix_ns" r.startUnixNs
  | spanEnd r =>
    match r.endUnixNs with
    | some value => checkDecimal "end_unix_ns" value
    | none => .ok ()
  | event r => checkDecimal "time_unix_ns" r.timeUnixNs
  | blob r => checkDigest "digest" r.digest
  | blobRef r => do
    match r.digest with
    | some value => checkDigest "digest" value
    | none => .ok ()
    checkDigest "source_digest" r.sourceDigest
    if r.state = .stored ∧ r.digest = none then .error "a stored occurrence without a digest"
    else .ok ()
  | problem r => checkDecimal "time_unix_ns" r.timeUnixNs
  | .seal r => do
    checkDecimal "ended_unix_ns" r.endedUnixNs
    if r.dropped.isNone ≠ r.droppedChunks.isNone then
      .error "`dropped` and `dropped_chunks` are unknown together"
    else if r.dropped = none ∧ r.exit ≠ .recovered then
      .error (s!"a seal with `exit = {r.exit.text}` and unknown drops: only a recovered seal " ++
        "may not know them")
    else .ok ()
  | config _ | node _ | finding _ | demand _ => .ok ()

/-- `Record::validate`: a record this release writes. -/
def Record.validate (record : Record) : Except String Unit :=
  if record.schemaField ≠ record.expectedSchema then
    .error (s!"a `{record.kind.text}` record of schema `{record.schemaField}`, not " ++
      s!"`{record.expectedSchema}`")
  else if record.seq = 0 then .error "seq 0"
  else record.checkFields

/-! ## Serialization -/

/-- A text, or `null`. -/
def ofText? : Option String → Value
  | some text => .string text
  | none => .null

/-- A number, or `null`. -/
def ofNum? : Option UInt64 → Value
  | some n => .int n.toNat
  | none => .null

/-- A list of texts. -/
def ofTexts (texts : List String) : Value := .array (texts.map .string)

/-- A member that is left out when there is nothing to write. -/
def skipNone (name : String) : Option Value → List (String × Value)
  | some value => [(name, value)]
  | none => []

def Host.toJson (host : Host) : Value := .object [
  ("os", .string host.os),
  ("arch", .string host.arch),
  ("cpus", .int host.cpus.toNat),
  ("memory_bytes", ofNum? host.memoryBytes),
  ("load1", (host.load1.map .float).getD .null),
  ("free_bytes", ofNum? host.freeBytes)]

def ConfigRow.toJson (row : ConfigRow) : Value := .object [
  ("key", .string row.key),
  ("value", .string row.value),
  ("layer", .string row.layer),
  ("origin", ofText? row.origin)]

/-- The members past the kind, the sequence and the schema, in the order of the fields. -/
def Record.members : Record → List (String × Value)
  | .segment r => [
    ("segment_id", .string r.segmentId),
    ("af_version", .string r.afVersion),
    ("af_commit", .string r.afCommit),
    ("pid", .int r.pid.toNat),
    ("parent_pid", .int r.parentPid.toNat),
    ("argv", ofTexts r.argv),
    ("cwd", .string r.cwd),
    ("host", r.host.toJson),
    ("started_unix_ns", .string r.startedUnixNs),
    ("mono_origin_unix_ns", .string r.monoOriginUnixNs),
    ("level", .string r.level.text)]
  | .spanStart r => [
    ("trace_id", ofText? r.traceId),
    ("span_id", .string r.spanId),
    ("parent_span_id", ofText? r.parentSpanId),
    ("name", .string r.name),
    ("kind", .string r.kind.text),
    ("start_unix_ns", .string r.startUnixNs),
    ("attributes", .object r.attributes.members)]
  | .spanEnd r => [
    ("span_id", .string r.spanId),
    ("end_unix_ns", ofText? r.endUnixNs),
    ("status", .string r.status.text),
    ("attributes", .object r.attributes.members)]
  | .event r => [
    ("span_id", .string r.spanId),
    ("time_unix_ns", .string r.timeUnixNs),
    ("name", .string r.name),
    ("attributes", .object r.attributes.members)] ++
    skipNone "blob" (r.blob.map .string) ++
    skipNone "blob_media_type" (r.blobMediaType.map .string)
  | .config r => [
    ("execution_id", .string r.executionId),
    ("run_id", .string r.runId),
    ("run_span_id", .string r.runSpanId),
    ("section", .string r.sectionName),
    ("part", .int r.part.toNat),
    ("parts", .int r.parts.toNat),
    ("complete", .bool r.complete),
    ("rows", .array (r.rows.map ConfigRow.toJson))] ++
    skipNone "af.redacted" (r.redacted.map fun n => .int n.toNat)
  | .node r => [
    ("execution_id", .string r.executionId),
    ("plan_digest", .string r.planDigest),
    ("node_id", .string r.nodeId),
    ("kind", .string r.kind),
    ("package", ofText? r.package),
    ("depends_on", ofTexts r.dependsOn),
    ("expected_nodes", .int r.expectedNodes.toNat)]
  | .finding r => [
    ("span_id", .string r.spanId),
    ("log", .string r.log),
    ("sequence", .int r.sequence.toNat),
    ("key", .string r.key),
    ("severity", .string r.severity),
    ("effective_severity", .string r.effectiveSeverity),
    ("status", .string r.status),
    ("scope", .string r.scope),
    ("file", ofText? r.file),
    ("line", ofNum? r.line),
    ("title", .string r.title),
    ("report_artifact_id", .string r.reportArtifactId),
    ("node_id", .string r.nodeId),
    ("worker", .string r.worker),
    ("model", ofText? r.model),
    ("round", ofNum? r.round),
    ("epoch", ofNum? r.epoch)]
  | .demand r => [
    ("span_id", .string r.spanId),
    ("log", .string r.log),
    ("sequence", .int r.sequence.toNat),
    ("demand_id", .string r.demandId),
    ("kind", .string r.kind),
    ("required", .bool r.required),
    ("subject_id", .string r.subjectId),
    ("snapshot_id", .string r.snapshotId),
    ("status", .string r.status)]
  | .blob r => [
    ("digest", .string r.digest),
    ("bytes", .int r.bytes.toNat),
    ("stored_bytes", .int r.storedBytes.toNat),
    ("redaction", .string r.redaction)]
  | .blobRef r => [
    ("occurrence_id", .string r.occurrenceId),
    ("digest", ofText? r.digest),
    ("span_id", .string r.spanId),
    ("event_seq", .int r.eventSeq.toNat),
    ("source_digest", .string r.sourceDigest),
    ("original_bytes", .int r.originalBytes.toNat),
    ("truncated", .bool r.truncated),
    ("state", .string r.state.text),
    ("media_type", .string r.mediaType),
    ("redaction", .string r.redaction)]
  | .problem r => [
    ("time_unix_ns", .string r.timeUnixNs),
    ("what", .string r.what.text),
    ("reason", .string r.reason)]
  | .seal r => [
    ("ended_unix_ns", .string r.endedUnixNs),
    ("exit", .string r.exit.text),
    ("spans", .int r.spans.toNat),
    ("events", .int r.events.toNat),
    ("blobs", .int r.blobs.toNat),
    ("dropped", ofNum? r.dropped),
    ("dropped_chunks", ofNum? r.droppedChunks),
    ("discarded_bytes", .int r.discardedBytes.toNat),
    ("refs", .string r.refs)]

/-- The record as one object: its kind, its sequence and its schema, then its members. -/
def Record.toJson (record : Record) : Value := .object (
  ("t", .string record.kind.text) :: ("seq", .int record.seq.toNat) ::
    ("schema", .string record.schemaField) :: record.members)

/-- `serde_json`, as far as it is not modelled: how it writes a double and how it reads a
record. -/
structure Codec where
  double : Json.Double → Bytes
  fromSlice : Bytes → Except String Record

/-- What a line begins with before its schema: `{"t":"<kind>","seq":<seq>,"schema":`. -/
def headText (kind : Kind) (seq : ℕ) : Bytes :=
  Json.utf8 "\x7b\"t\":\"" ++ (Json.utf8 kind.text ++ (Json.utf8 "\",\"seq\":" ++
    (Json.decimal seq ++ Json.utf8 ",\"schema\":")))

/-- The envelope of a line: what it begins with, and the schema of its kind. -/
def envelopeText (kind : Kind) (seq : ℕ) : Bytes := headText kind seq ++ Json.quote kind.schema

/-! ## The codec -/

/-- `Counters`: what bounding did to a record's attributes. -/
structure Counters where
  truncated : UInt64
  dropped : UInt64
  redacted : UInt64
  deriving DecidableEq, Repr

namespace Codec

variable (C : Codec)

/-- `serde_json::to_vec` of a record. -/
def toVec (record : Record) : Bytes := Json.print C.double record.toJson

/-- The loop of `encode`: the last attribute goes, and is counted, until the line fits. -/
def shrink (record : Record) (attributes : Attributes) (dropped : UInt64) :
    Option (Attributes × UInt64) :=
  if (C.toVec (record.setAttributes attributes)).length ≤ recordMaxBytes - counterReserveBytes then
    some (attributes, dropped)
  else
    match _ : attributes.lastKey with
    | none => none
    | some last => shrink record (attributes.shiftRemove last) (dropped + 1)
termination_by attributes.members.length
decreasing_by exact Attributes.shiftRemove_lt ‹_›

/-- The counters that are not zero, written last. -/
def addCounters (attributes : Attributes) (counters : Counters) : Attributes :=
  [(truncatedFields, counters.truncated), (droppedFields, counters.dropped),
    (redactedFields, counters.redacted)].foldl (fun attributes (name, count) =>
      if count > 0 then attributes.insert name (.int count.toNat) else attributes) attributes

/-- `encode`: the line of a record within the bound, and the record as it was written. -/
def encode (record : Record) (counters : Counters) : Option (Record × Bytes) :=
  if (C.toVec record).length ≤ recordMaxBytes ∧ counters = ⟨0, 0, 0⟩ then
    some (record, C.toVec record)
  else
    match record.attributes? with
    | some attributes => do
      let bare := counterNames.foldl Attributes.shiftRemove attributes
      let (kept, dropped) ← C.shrink record bare counters.dropped
      let written := record.setAttributes (addCounters kept { counters with dropped })
      if (C.toVec written).length ≤ recordMaxBytes then some (written, C.toVec written) else none
    | none =>
      if (C.toVec record).length ≤ recordMaxBytes then some (record, C.toVec record) else none

/-- `Record::parse_line`: one line, without its newline. -/
def parseLine (line : Bytes) : Except String Record :=
  if line.length > recordMaxBytes then
    .error (s!"a record of {line.length} bytes exceeds the {recordMaxBytes}-byte record bound")
  else do
    let record ← C.fromSlice line
    record.validate
    return record

end Codec

/-! ## What serde does -/

/-- An attribute value the writer builds that is no double: text, an integer, a boolean or
texts. -/
inductive Flat : Value → Prop where
  | text (s : String) : Flat (.string s)
  | int (n : Int) (low : -2 ^ 63 ≤ n) (high : n < 2 ^ 64) : Flat (.int n)
  | bool (b : Bool) : Flat (.bool b)
  | texts (items : List String) : Flat (ofTexts items)

/-- No double stands in the record, and its attributes are flat, as the writer's are. -/
structure Record.Plain (record : Record) : Prop where
  load : ∀ header, record = .segment header → header.host.load1 = none
  flat : ∀ attributes, record.attributes? = some attributes →
    ∀ member ∈ attributes.members, Flat member.2

/-- **The contract of the codec.** A record without doubles is read back from its own text; a line
that begins with a kind, a sequence and a schema is read, if at all, as a record that has them,
since a member written twice is refused; a double is written on one line. -/
structure Codec.Lawful (C : Codec) : Prop where
  roundTrip : ∀ record : Record, record.Plain → C.fromSlice (C.toVec record) = .ok record
  head : ∀ (kind : Kind) (seq : ℕ) (schema : String) (rest : Bytes) (record : Record),
    C.fromSlice (headText kind seq ++ (Json.quote schema ++ rest)) = .ok record →
      record.kind = kind ∧ record.seq.toNat = seq ∧ record.schemaField = schema
  oneLine : ∀ x, Json.newline ∉ C.double x

end Telemetry

end Afactory
