import Mathlib
import Afactory.OrdMap
import Afactory.Runs
import Afactory.SegmentRecovery

/-!
# Writing segments

`review-telemetry/src/segment/writer.rs`: the buffer every thread appends to, the consumer that
writes it, and the seal.

* `Batch`, `publication`: the lines of a batch, and of one that publishes contents with its
  owner's record;
* `Pending.fits`, `Pending.refuse`, `Pending.accept`: a batch is judged against the segment limit
  and taken whole or not at all;
* `Pending.commit`, `Pending.publish`: the critical sections;
* `Action`, `step`: the sections of any threads in any order, the consumer's writes between them.

The clock, the wake-ups and the waits are left out: `step` lets every section come at any time. A
published segment is the bytes its compressed copy holds (`Sealed`).
-/

namespace Afactory

namespace Telemetry

open Json (Bytes newline)

/-- `set_seq` -/
def Record.setSeq (seq : UInt64) : Record → Record
  | .segment r => .segment { r with seq }
  | .spanStart r => .spanStart { r with seq }
  | .spanEnd r => .spanEnd { r with seq }
  | .event r => .event { r with seq }
  | .config r => .config { r with seq }
  | .node r => .node { r with seq }
  | .finding r => .finding { r with seq }
  | .demand r => .demand { r with seq }
  | .blob r => .blob { r with seq }
  | .blobRef r => .blobRef { r with seq }
  | .problem r => .problem { r with seq }
  | .seal r => .seal { r with seq }

namespace SegmentWriter

/-- `TERMINAL_RESERVE_BYTES`: kept at the end of a segment for its terminal records. -/
abbrev terminalReserveBytes : ℕ := 64 * 1024

/-- What `fits` keeps for the seal until the seal itself is written. -/
abbrev sealReserveBytes : ℕ := 4096

/-! ## Batches -/

/-- `SealCounts` -/
structure SealCounts where
  spans : ℕ
  events : ℕ
  blobs : ℕ
  dropped : ℕ
  droppedChunks : ℕ

/-- `Line`: one encoded line, with the digests its acceptance makes known. -/
structure Line where
  bytes : Bytes
  kind : Kind
  object : Option String
  referenced : Option String

/-- `Batch`, as the code that fills it sees it: `base` is the sequence of the next record. -/
structure Batch where
  segmentId : String
  base : ℕ
  known : String → Bool
  counts : SealCounts

/-- A record with what bounding did to its attributes. -/
abbrev Draft := Record × Counters

/-- The digest a `blob` line makes known. -/
def objectDigest? : Record → Option String
  | .blob object => some object.digest
  | _ => none

variable (C : Codec)

/-- `Batch::push`, of one record at its sequence. -/
def push (seq : ℕ) (draft : Draft) : Option Line :=
  let record := draft.1.setSeq (UInt64.ofNat seq)
  (C.encode record draft.2).map fun written =>
    { bytes := written.2, kind := record.kind, object := objectDigest? record,
      referenced := storedDigest? record }

/-- The pushes of a batch: the lines before the first record that could not be encoded, and whether
there was none. -/
def pushAll : ℕ → List Draft → List Line × Bool
  | _, [] => ([], true)
  | seq, draft :: drafts =>
    match push C seq draft with
    | none => ([], false)
    | some line => (line :: (pushAll (seq + 1) drafts).1, (pushAll (seq + 1) drafts).2)

/-- `line_bytes` -/
def lineBytes (lines : List Line) : ℕ := (lines.map fun line => line.bytes.length + 1).sum

/-- The kinds the writer's own records have besides the header, blobs and terminal records. -/
def Owned (kind : Kind) : Bool :=
  kind ∈ [.spanStart, .spanEnd, .event, .config, .node, .finding, .demand]

/-- The closure a committing function passes: the records it pushes, of the batch and the
occurrences of its contents. Whatever it is given, they are valid records of its own kinds. -/
structure Build where
  drafts : Batch → List String → List Draft
  owned : ∀ batch occurrences, ∀ draft ∈ drafts batch occurrences, Owned draft.1.kind = true
  valid : ∀ batch occurrences, ∀ draft ∈ drafts batch occurrences, ∀ seq : UInt64, seq ≠ 0 →
    (draft.1.setSeq seq).validate = .ok ()

/-! ## The pending state -/

/-- `State` -/
inductive State where
  | unopened
  | opened
  | sealing
  | sealed
  | failed
  | crashed
  | abandoned
  deriving DecidableEq, Repr

/-- `Pending`: the buffer and the counters one mutex guards. -/
structure Pending where
  state : State
  segmentId : String
  nextSeq : ℕ
  /-- full buffers, oldest first, each with whether it holds terminal records -/
  ready : List (Bytes × Bool)
  buffer : Bytes
  terminal : Bool
  flushRequested : Bool
  /-- the bytes of every record accepted, written or buffered -/
  acceptedBytes : ℕ
  exhausted : Bool
  spans : ℕ
  events : ℕ
  blobs : ℕ
  dropped : ℕ
  droppedChunks : ℕ
  problems : List (ProblemWhat × String)
  blobsInSegment : OrdMap String Unit
  referenced : OrdMap String Unit

/-- `WriterOptions`, as far as the batches read them; the settings admit these bounds only. -/
structure Options where
  flushBytes : ℕ
  segmentMaxBytes : ℕ
  /-- `redactor.home_unknown`: why the environment could not be read -/
  homeUnknown : Option String
  low : 16 * 2 ^ 20 ≤ segmentMaxBytes
  high : segmentMaxBytesBound ≥ segmentMaxBytes

/-- `u128` nanoseconds since the epoch. -/
abbrev UnixNs := Fin u128Bound

/-- `ns` -/
def ns (time : UnixNs) : String := toString time.val

/-- What `ensure_open` reads: the clock at each use, the process, the `nonce`, and the header's
other fields as the redactor and the bounds left them. -/
structure Opening where
  named : UnixNs
  started : UnixNs
  origin : UnixNs
  noted : UnixNs
  pid : UInt32
  nonce : String
  nonce_length : nonce.length = 8
  header : SegmentHeader

/-- `new_segment_id` -/
def newSegmentId (startedUnixNs : ℕ) (pid : UInt32) (nonce : String) : String :=
  toString (startedUnixNs / 1000000) ++ "-" ++ toString pid.toNat ++ "-" ++ nonce

def Opening.segmentId (opening : Opening) : String :=
  newSegmentId opening.named opening.pid opening.nonce

/-- `Writer::new` -/
def Pending.new : Pending where
  state := .unopened
  segmentId := ""
  nextSeq := 1
  ready := []
  buffer := []
  terminal := false
  flushRequested := false
  acceptedBytes := 0
  exhausted := false
  spans := 0
  events := 0
  blobs := 0
  dropped := 0
  droppedChunks := 0
  problems := []
  blobsInSegment := .empty
  referenced := .empty

variable (o : Options)

/-- `header`: the first record of a segment. -/
def headerRecord (opening : Opening) : Record :=
  .segment { opening.header with
    seq := 1, schema := Kind.segment.schema, segmentId := opening.segmentId, pid := opening.pid,
    startedUnixNs := ns opening.started, monoOriginUnixNs := ns opening.origin }

/-- The record of a problem. -/
def problemRecord (now : UnixNs) (what : ProblemWhat) (reason : String) : Record :=
  .problem { seq := 0, schema := Kind.problem.schema, timeUnixNs := ns now, what, reason }

/-- The line appended to the buffer, its newline with it. -/
def Pending.append (pending : Pending) (bytes : Bytes) : Pending :=
  { pending with
    nextSeq := pending.nextSeq + 1
    acceptedBytes := pending.acceptedBytes + (bytes.length + 1)
    buffer := pending.buffer ++ bytes ++ [newline] }

/-- The problem right after the header, when the environment could not be read. -/
def Pending.openProblem (now : UnixNs) (pending : Pending) : Pending :=
  match o.homeUnknown with
  | none => pending
  | some reason =>
    match C.encode ((problemRecord now .redaction reason).setSeq 2) ⟨0, 0, 0⟩ with
    | none => pending
    | some written =>
      { pending.append written.2 with problems := (.redaction, reason) :: pending.problems }

/-- `ensure_open`: the segment is opened at the first record; whether it takes records. -/
def Pending.ensureOpen (opening : Opening) (pending : Pending) : Pending × Bool :=
  match pending.state with
  | .opened => (pending, true)
  | .unopened =>
    match C.encode (headerRecord opening) ⟨0, 0, 0⟩ with
    | none => ({ pending with state := .failed }, false)
    | some written =>
      let fresh : Pending :=
        { pending with
          state := .opened
          segmentId := opening.segmentId
          nextSeq := 1
          acceptedBytes := 0
          flushRequested := true }
      ((fresh.append written.2).openProblem C o opening.noted, true)
  | _ => (pending, false)

/-- `SealCounts` of the pending state. -/
def Pending.counts (pending : Pending) : SealCounts :=
  ⟨pending.spans, pending.events, pending.blobs, pending.dropped, pending.droppedChunks⟩

/-- The batch of the pending state. -/
def Pending.batch (pending : Pending) : Batch :=
  ⟨pending.segmentId, pending.nextSeq, pending.blobsInSegment.contains, pending.counts⟩

/-- `fits`: whether the lines, and `slack` bytes more, fit. -/
def Pending.fits (pending : Pending) (terminal : Bool) (lines : List Line) (slack : ℕ) : Bool :=
  let bytes := lineBytes lines + slack
  if terminal then
    let room :=
      if lines.any fun line => line.kind = .seal then o.segmentMaxBytes
      else o.segmentMaxBytes - sealReserveBytes
    pending.acceptedBytes + bytes ≤ room
  else
    !pending.exhausted &&
      pending.acceptedBytes + bytes ≤ o.segmentMaxBytes - terminalReserveBytes

/-- `Refusal` -/
inductive Refusal where
  | unbuilt
  | full (records : ℕ)

/-- `refuse`, under the lock: the batch is counted, and the limit exhausts the segment. The problem
this leaves is recorded by a section of its own. -/
def Pending.refuse (pending : Pending) (terminal : Bool) : Refusal → Pending
  | .unbuilt => { pending with dropped := pending.dropped + 1 }
  | .full records =>
    { pending with
      dropped := pending.dropped + records
      exhausted := pending.exhausted || !terminal }

/-- One line of `accept`: what it counts and makes known. -/
def Pending.count (pending : Pending) (line : Line) : Pending :=
  { pending with
    spans := pending.spans + if line.kind = .spanStart then 1 else 0
    events := pending.events + if line.kind = .event then 1 else 0
    blobs := pending.blobs + if line.kind = .blob then 1 else 0
    blobsInSegment := line.object.elim pending.blobsInSegment (pending.blobsInSegment.insert · ())
    referenced := line.referenced.elim pending.referenced (pending.referenced.insert · ()) }

/-- One line of `accept`: a buffer with no room for it is left to the consumer. -/
def Pending.rotate (pending : Pending) (line : Line) : Pending :=
  if pending.buffer ≠ [] ∧ pending.buffer.length + line.bytes.length + 1 > o.flushBytes then
    { pending with ready := pending.ready ++ [(pending.buffer, pending.terminal)], buffer := [] }
  else pending

/-- One line of `accept`: nothing is accepted after the seal. -/
def Pending.acceptLine (pending : Pending) (line : Line) : Pending :=
  let appended := ((pending.count line).rotate o line).append line.bytes
  if line.kind = .seal then { appended with state := .sealing, flushRequested := true }
  else appended

/-- `accept` -/
def Pending.accept (pending : Pending) (lines : List Line) : Pending :=
  lines.foldl (Pending.acceptLine o) pending

/-- `commit` -/
def Pending.commit (opening : Opening) (terminal : Bool) (drafts : Batch → List Draft)
    (pending : Pending) : Pending :=
  match pending.ensureOpen C o opening with
  | (pending, false) => { pending with dropped := pending.dropped + 1 }
  | (pending, true) =>
    match pushAll C pending.nextSeq (drafts pending.batch) with
    | (_, false) => pending.refuse terminal .unbuilt
    | (lines, true) =>
      if pending.fits o terminal lines 0 then pending.accept o lines
      else pending.refuse terminal (.full (max lines.length 1))

/-! ## Publications -/

/-- `Prepared`, of which the records hold the sizes only. -/
structure Prepared where
  digest : String
  sourceDigest : String
  retained : UInt64
  compressed : UInt64
  originalBytes : UInt64
  truncated : Bool
  mediaType : String
  digest_valid : isDigest digest = true
  source_valid : isDigest sourceDigest = true

/-- What `blob::place` answers. -/
inductive Placed where
  | renamed
  | reused
  | error
  deriving DecidableEq, Repr

/-- `Content`: whether its allowance admitted it, whether staging it succeeded, and what placing it
will answer. -/
structure Content where
  prepared : Prepared
  admitted : Bool
  stages : Bool
  places : Placed

/-- Only admitted content is staged. -/
def Content.staged (content : Content) : Bool := content.admitted && content.stages

/-- `REDACTION_VERSION` -/
abbrev redactionVersion : String := "af-redact/2"

/-- `occurrence_id` -/
def occurrenceId (segmentId : String) (seq : ℕ) : String := s!"{segmentId}:{seq}"

/-- The `blob` record of a content new to the segment. -/
def blobRecord (prepared : Prepared) : Record :=
  .blob { seq := 0, schema := Kind.blob.schema, digest := prepared.digest,
          bytes := prepared.retained, storedBytes := prepared.compressed,
          redaction := redactionVersion }

/-- The `blob_ref` record of one content; content no allowance admitted has no digest. -/
def refRecord (segmentId spanId : String) (seq owner : ℕ) (content : Content) (stored : Bool) :
    Record :=
  .blobRef { seq := 0, schema := Kind.blobRef.schema, occurrenceId := occurrenceId segmentId seq,
             digest := if content.admitted then some content.prepared.digest else none,
             spanId, eventSeq := UInt64.ofNat owner,
             sourceDigest := content.prepared.sourceDigest,
             originalBytes := content.prepared.originalBytes,
             truncated := content.prepared.truncated,
             state := if stored then .stored else .dropped,
             mediaType := content.prepared.mediaType, redaction := redactionVersion }

/-- A content, and whether its occurrence is stored. -/
abbrev Offered := Content × Bool

/-- The digests a publication makes known: those stored and new to the segment. -/
def newObjects (known : String → Bool) (contents : List Offered) : Finset String :=
  ((contents.filter fun content => content.2 && !known content.1.prepared.digest).map
    fun content => content.1.prepared.digest).toFinset

/-- The records of the contents in order, and the occurrence of each; a content's object stands
before the first occurrence of its digest. -/
def contentDrafts (segmentId spanId : String) (owner : ℕ) :
    ℕ → Finset String → List Offered → List Draft × List String
  | _, _, [] => ([], [])
  | seq, fresh, content :: contents =>
    let digest := content.1.prepared.digest
    if digest ∈ fresh then
      let rest := contentDrafts segmentId spanId owner (seq + 2) (fresh.erase digest) contents
      ((blobRecord content.1.prepared, ⟨0, 0, 0⟩) ::
          (refRecord segmentId spanId (seq + 1) owner content.1 content.2, ⟨0, 0, 0⟩) :: rest.1,
        occurrenceId segmentId (seq + 1) :: rest.2)
    else
      let rest := contentDrafts segmentId spanId owner (seq + 1) fresh contents
      ((refRecord segmentId spanId seq owner content.1 content.2, ⟨0, 0, 0⟩) :: rest.1,
        occurrenceId segmentId seq :: rest.2)

/-- The owner of a publication: the span the contents belong to, or none when the owner's record
starts it, the hash that names such a span, and the record. -/
structure Owner where
  span : Option String
  spanId : String → ℕ → String
  build : Build

/-- `publication`: the drafts of the contents, and the owner's at the sequence after them. -/
def publicationDrafts (owner : Owner) (batch : Batch) (contents : List Offered) : List Draft :=
  let fresh := newObjects batch.known contents
  let ownerSeq := batch.base + fresh.card + contents.length
  let spanId := owner.span.getD (owner.spanId batch.segmentId ownerSeq)
  let drafts := contentDrafts batch.segmentId spanId ownerSeq batch.base fresh contents
  let after : Batch :=
    { batch with
      base := batch.base + drafts.1.length
      known := fun digest => batch.known digest || digest ∈ fresh }
  drafts.1 ++ owner.build.drafts after drafts.2

/-- Whether each content's occurrence is stored before anything is placed. -/
def offered (locked : Bool) (contents : List Content) : List Offered :=
  contents.map fun content => (content, locked && content.staged)

/-- Whether each content's occurrence is stored once the staged ones were placed. -/
def placed (contents : List Offered) : List Offered :=
  contents.map fun content => (content.1, content.2 && content.1.places ≠ .error)

/-- `publish_contents`, from the fit decision to the acceptance: `locked` is whether `gc.lock` is
held. -/
def Pending.publish (locked : Bool) (contents : List Content) (owner : Owner)
    (pending : Pending) : Pending :=
  if pending.state ≠ .opened then { pending with dropped := pending.dropped + 1 }
  else
    let planned := offered (!pending.exhausted && locked) contents
    match pushAll C pending.nextSeq (publicationDrafts owner pending.batch planned) with
    | (lines, built) =>
      if pending.exhausted || !built || !pending.fits o false lines contents.length then
        pending.refuse false (if pending.exhausted || built then .full (max lines.length 1)
          else .unbuilt)
      else
        let stored := placed planned
        match pushAll C pending.nextSeq (publicationDrafts owner pending.batch stored) with
        | (lines, built) =>
          if !built || !pending.fits o false lines 0 then
            -- refused after placement: the files it renamed go again
            pending.refuse false (if built then .full (max lines.length 1) else .unbuilt)
          else
            let accepted := pending.accept o lines
            { accepted with
              dropped := accepted.dropped + (stored.filter fun content => !content.2).length }

/-! ## The segment and its consumer -/

/-- `Sealed`: what the compressed copy holds, and the manifest beside it. -/
structure Sealed where
  bytes : Bytes
  refs : Bytes

/-- The writer with the segment's file. -/
structure Segment where
  pending : Pending
  /-- the chunks the consumer took and has not written yet -/
  inFlight : List Bytes
  /-- what the live file holds -/
  file : Bytes
  /-- a write failed and its `fail` has not come yet -/
  torn : Bool
  published : Option Sealed

/-- The sections of the threads and the consumer's writes. -/
inductive Action where
  /-- `publish_contents` opens the segment before any blob is written -/
  | ensureOpen (opening : Opening)
  /-- `commit`, of the records of a span, an event, a node, … -/
  | commit (opening : Opening) (build : Build)
  /-- `publish_contents` -/
  | publish (locked : Bool) (contents : List Content) (owner : Owner)
  /-- `publish_contents` past the limit, or where no directory is held -/
  | drop (records : ℕ)
  /-- `problem`: each is noted once -/
  | noteProblem (what : ProblemWhat) (reason : String)
  /-- `problem`: the record of one -/
  | problem (opening : Opening) (now : UnixNs) (what : ProblemWhat) (reason : String)
  /-- `mark_terminal` -/
  | markTerminal
  | countDroppedChunks (chunks : ℕ)
  /-- `consume` takes the full buffers, and the buffer when a flush was asked for -/
  | take (force : Bool)
  /-- `consume` writes the next chunk whole -/
  | write
  /-- `consume` finds the segment abandoned before a write -/
  | skip
  /-- a write, or the hook before it, that ends after some bytes of its chunk -/
  | tear (written : ℕ)
  /-- `open_file` fails -/
  | openFails
  /-- `fail`, of the write that tore -/
  | fail
  /-- `seal`: the seal record -/
  | sealRecord (opening : Opening) (exit : SealExit) (ended : UnixNs)
  /-- `seal_file` up to its last step -/
  | publishSeal
  /-- `abandon`, by a hook that stops as a killed process would -/
  | crash
  /-- the bounded shutdown passed -/
  | abandon
  /-- the seal's file work failed -/
  | sealFails

/-- Nothing reaches the file any more. -/
def State.stopped : State → Bool
  | failed | crashed | abandoned => true
  | unopened | opened | sealing | sealed => false

/-- The chunks one round of `consume` takes. -/
def Pending.chunks (pending : Pending) (force : Bool) : List (Bytes × Bool) :=
  pending.ready ++
    if (force || pending.flushRequested) ∧ pending.buffer ≠ [] then
      [(pending.buffer, pending.terminal)] else []

/-- The seal record of `seal`. -/
def sealDraft (exit : SealExit) (ended : UnixNs) (batch : Batch) : Draft :=
  (.seal { seq := 0, schema := Kind.seal.schema, endedUnixNs := ns ended, exit,
           spans := UInt64.ofNat batch.counts.spans, events := UInt64.ofNat batch.counts.events,
           blobs := UInt64.ofNat batch.counts.blobs,
           dropped := some (UInt64.ofNat batch.counts.dropped),
           droppedChunks := some (UInt64.ofNat batch.counts.droppedChunks), discardedBytes := 0,
           refs := batch.segmentId ++ refsSuffix }, ⟨0, 0, 0⟩)

/-- One section, or one step of the consumer; `none` where it cannot come now. -/
def step (s : Segment) : Action → Option Segment
  | .ensureOpen opening =>
    some { s with pending := (s.pending.ensureOpen C o opening).1 }
  | .commit opening build =>
    some { s with pending := s.pending.commit C o opening false (build.drafts · []) }
  | .publish locked contents owner =>
    some { s with pending := s.pending.publish C o locked contents owner }
  | .drop records =>
    some { s with pending := { s.pending with dropped := s.pending.dropped + records } }
  | .noteProblem what reason =>
    some { s with pending := { s.pending with
      problems := if (what, reason) ∈ s.pending.problems then s.pending.problems
        else (what, reason) :: s.pending.problems } }
  | .problem opening now what reason =>
    let drafts := fun _ => [(problemRecord now what reason, ⟨0, 0, 0⟩)]
    some { s with pending := s.pending.commit C o opening true drafts }
  | .markTerminal =>
    some { s with pending :=
      if s.pending.terminal then s.pending
      else if s.pending.buffer = [] then { s.pending with terminal := true }
      else { s.pending with ready := s.pending.ready ++ [(s.pending.buffer, false)], buffer := [],
                            terminal := true } }
  | .countDroppedChunks chunks =>
    some { s with pending :=
      { s.pending with droppedChunks := s.pending.droppedChunks + chunks } }
  | .take force =>
    -- the consumer's mutex is held until what it took is written
    if s.inFlight ≠ [] then none
    else if s.pending.state.stopped then some s
    else
      let chunks := s.pending.chunks force
      some { s with
        inFlight := chunks.map Prod.fst
        pending := { s.pending with
          ready := []
          buffer := if force || s.pending.flushRequested then [] else s.pending.buffer
          flushRequested := false } }
  | .write =>
    match s.inFlight with
    | [] => none
    | chunk :: chunks => some { s with file := s.file ++ chunk, inFlight := chunks }
  | .skip => if s.pending.state = .abandoned then some { s with inFlight := [] } else none
  | .tear written =>
    match s.inFlight with
    | [] => none
    | chunk :: _ =>
      some { s with file := s.file ++ chunk.take written, inFlight := [], torn := true }
  | .openFails =>
    if s.file = [] ∧ s.inFlight ≠ [] then
      some { s with inFlight := [], pending := { s.pending with state := .failed } }
    else none
  | .fail =>
    if s.torn then some { s with torn := false, pending := { s.pending with state := .failed } }
    else none
  | .sealRecord opening exit ended =>
    if s.pending.state = .opened then
      let drafts := fun batch => [sealDraft exit ended batch]
      some { s with pending := s.pending.commit C o opening true drafts }
    else none
  | .publishSeal =>
    -- the seal was written, and its consumer holds the file
    if s.pending.state = .sealing ∧ s.inFlight = [] ∧ s.pending.ready = [] ∧
        s.pending.buffer = [] then
      some { s with
        pending := { s.pending with state := .sealed }
        published := some ⟨s.file, manifest s.pending.referenced.keys⟩ }
    else none
  | .crash =>
    if s.inFlight = [] then some { s with pending := { s.pending with state := .crashed } }
    else none
  | .abandon =>
    if s.pending.state = .sealed then none
    else some { s with pending := { s.pending with state := .abandoned } }
  | .sealFails =>
    if s.pending.state = .sealing then
      some { s with pending := { s.pending with state := .failed } }
    else none

/-- A writer that has recorded nothing. -/
def Segment.new : Segment := ⟨.new, [], [], false, none⟩

end SegmentWriter

end Telemetry

end Afactory
