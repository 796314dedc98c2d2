import Mathlib
import Afactory.TelemetryRecord

/-!
# Reading segments

`review-telemetry/src/segment/reader.rs`: the valid prefix of a live segment, what housekeeping
reads of it, sealed segments, and recovery.

* `frames`: the complete lines of some bytes;
* `scanFrom`, `scan`: the longest prefix of complete, valid lines;
* `envelope`, `structure'`: the prefix housekeeping reads, the full record of five kinds only;
* `sealedRecords`, `sealedFrame`: a sealed segment, whole, and by its first and last line;
* `recoverIn`: an unsealed segment is cut to its prefix, ended, and sealed; `Rewrite.files` is
  what stands in the directory after each step.

A compressed file is read as the bytes it holds; a sealed segment is streamed in the pieces the
decompression yields. The lock of a segment is what taking it finds (`Lock`).
-/

namespace Afactory

namespace Telemetry

open Json (Bytes newline)

/-! ## Lines -/

/-- The complete lines of the bytes, without their newlines: each is what the search for the next
newline cuts. -/
def frames : Bytes → List Bytes
  | [] => []
  | b :: rest =>
    if b = newline then [] :: frames rest
    else
      match frames rest with
      | [] => []
      | line :: more => (b :: line) :: more

/-- `split_inclusive` at newlines: the pieces, each without its newline, and whether it had one. -/
def pieces : Bytes → List (Bytes × Bool)
  | [] => []
  | b :: rest =>
    if b = newline then ([], true) :: pieces rest
    else
      match pieces rest with
      | [] => [([b], false)]
      | (piece, complete) :: more => (b :: piece, complete) :: more

/-! ## The valid prefix -/

/-- `Prefix`: the valid prefix of a segment's bytes. -/
structure Prefix where
  records : List Record
  /-- the complete, valid lines kept, newlines included -/
  keptBytes : ℕ
  discardedBytes : ℕ
  /-- an invalid line precedes a valid one -/
  interiorCorruption : Bool
  /-- why the first line after the prefix was refused, when it is complete -/
  invalid : Option String

namespace Prefix

/-- `Prefix::segment_id` -/
def segmentId (found : Prefix) : Option String :=
  match found.records.head? with
  | some (.segment header) => some header.segmentId
  | _ => none

end Prefix

def Record.isSeal : Record → Bool
  | .seal _ => true
  | _ => false

/-- `Prefix::sealed` -/
def Prefix.sealed (found : Prefix) : Bool := found.records.getLast?.any Record.isSeal

/-- `Position`: the sequence of the last valid record, and whether it was the seal. -/
structure Position where
  seq : UInt64
  sealed : Bool
  deriving DecidableEq, Repr

/-- Where a scan stands past the record. -/
def Record.position (record : Record) : Position := ⟨record.seq, record.isSeal⟩

/-- `follows`: the header first and only first, the sequence strictly increasing, nothing after
the seal. -/
def follows (previous : Option Position) (record : Record) : Bool :=
  match previous with
  | none => record.kind = .segment ∧ record.seq = 1
  | some previous =>
    !previous.sealed && record.kind ≠ .segment && previous.seq < record.seq

/-- Where the loop over the lines stopped. -/
structure Stopped (α : Type) where
  records : List α
  kept : ℕ
  invalid : Option String
  /-- the complete lines after the refused one -/
  after : List Bytes

namespace Stopped

/-- One more line kept before the others. -/
def keep {α : Type} (line : Bytes) (records : List α) (stopped : Stopped α) : Stopped α :=
  { stopped with records := records ++ stopped.records, kept := line.length + 1 + stopped.kept }

/-- A line refused. -/
def refuse {α : Type} (reason : String) (after : List Bytes) : Stopped α :=
  ⟨[], 0, some reason, after⟩

end Stopped

namespace Codec

variable (C : Codec)

/-- The loop of `scan_from` over the complete lines. -/
def scanLines : Option Position → List Bytes → Stopped Record
  | _, [] => ⟨[], 0, none, []⟩
  | last, line :: rest =>
    match C.parseLine line with
    | .ok record =>
      if follows last record then (scanLines (some record.position) rest).keep line [record]
      else .refuse s!"a `{record.kind.text}` record at seq {record.seq} out of order" rest
    | .error reason => .refuse reason rest

/-- `scan_from`: the longest prefix of complete, valid lines from an offset at a line boundary. -/
def scanFrom (bytes : Bytes) (start : ℕ) (previous : Option Position) : Prefix :=
  let start := min start bytes.length
  let stopped := C.scanLines previous (frames (bytes.drop start))
  let offset := start + stopped.kept
  { records := stopped.records
    keptBytes := offset
    discardedBytes := bytes.length - offset
    -- anything valid after the first invalid line
    interiorCorruption := offset < bytes.length ∧
      stopped.after.any fun line => (C.parseLine line).toOption.isSome
    invalid := stopped.invalid }

/-- `scan` -/
def scan (bytes : Bytes) : Prefix := C.scanFrom bytes 0 none

end Codec

/-! ## What housekeeping reads -/

/-- `STRUCTURAL_KINDS`: the kinds housekeeping decodes in full. -/
def Kind.structural : Kind → Bool
  | .segment | .blob | .blobRef | .problem | .seal => true
  | _ => false

/-- `envelope`: the kind and the sequence of a line, read from the canonical text a record begins
with. -/
def envelope (line : Bytes) : Except String (Kind × UInt64) :=
  if line.length > recordMaxBytes then
    .error s!"a record of {line.length} bytes exceeds the {recordMaxBytes}-byte record bound"
  else do
    let rest ← (Json.strip (Json.utf8 "\x7b\"t\":\"") line).elim
      (.error "not a record envelope") .ok
    let kind ← (Kind.all.find? fun kind => (Json.strip (Json.utf8 kind.text) rest).any fun after =>
      (Json.strip (Json.utf8 "\",\"seq\":") after).isSome).elim (.error "not a record envelope") .ok
    let rest := rest.drop (Json.utf8 kind.text ++ Json.utf8 "\",\"seq\":").length
    let digits := rest.takeWhile Json.isDigit
    let seq := Json.value digits
    if digits = [] ∨ (digits.length ≠ 1 ∧ digits.head? = some 48) ∨ u64Bound ≤ seq ∨ seq = 0 then
      .error s!"a `{kind.text}` record without a valid seq"
    else do
      let rest ← (Json.strip (Json.utf8 ",\"schema\":\"") (rest.drop digits.length)).elim
        (.error "not a record envelope") .ok
      if (Json.strip (Json.utf8 kind.schema) rest).any fun after =>
          after.head? = some Json.quoteMark then
        return (kind, UInt64.ofNat seq)
      else .error s!"a `{kind.text}` record of another schema than `{kind.schema}`"

/-- `Structure`: the valid prefix as housekeeping reads it. -/
structure Structure where
  /-- the records of the structural kinds, in order -/
  records : List Record
  keptBytes : ℕ
  invalid : Option String

/-- The order housekeeping holds envelopes to. -/
def ordered (last : Option Position) (kind : Kind) (seq : UInt64) : Bool :=
  match last with
  | none => kind = .segment ∧ seq = 1
  | some previous => !previous.sealed && kind ≠ .segment && previous.seq < seq

namespace Codec

variable (C : Codec)

/-- The loop of `structure` over the complete lines. -/
def structureLines : Option Position → List Bytes → Stopped Record
  | _, [] => ⟨[], 0, none, []⟩
  | last, line :: rest =>
    match envelope line with
    | .error reason => .refuse reason rest
    | .ok (kind, seq) =>
      if !ordered last kind seq then
        .refuse s!"a `{kind.text}` record at seq {seq} out of order" rest
      else if kind.structural then
        match C.parseLine line with
        | .ok record =>
          if record.kind = kind ∧ record.seq = seq then
            (structureLines (some ⟨seq, kind = .seal⟩) rest).keep line [record]
          else .refuse s!"a `{kind.text}` record of another envelope" rest
        | .error reason => .refuse reason rest
      else (structureLines (some ⟨seq, kind = .seal⟩) rest).keep line []

/-- `structure`: the framing, the envelopes and the order of the lines. -/
def structure' (bytes : Bytes) : Structure :=
  let stopped := C.structureLines none (frames bytes)
  ⟨stopped.records, stopped.kept, stopped.invalid⟩

end Codec

/-- The digest of a stored occurrence. -/
def storedDigest? : Record → Option String
  | .blobRef occurrence => if occurrence.state = .stored then occurrence.digest else none
  | _ => none

/-- `referenced`: the digests of the stored occurrences, sorted. -/
def referenced (records : List Record) : List String :=
  (records.filterMap storedDigest?).dedup.insertionSort fun a b => a ≤ b

/-! ## Sealed segments -/

/-- `SEGMENT_MAX_BYTES_BOUND` -/
abbrev segmentMaxBytesBound : ℕ := 4 * 2 ^ 30

def sealedSuffix : String := ".jsonl.gz"
def liveSuffix : String := ".jsonl"
def refsSuffix : String := ".refs"

/-- `read_at_most`, of bytes at hand. -/
def readAtMost (bytes : Bytes) (limit : ℕ) : Except String Bytes :=
  if bytes.length > limit then
    .error s!"longer than the {limit}-byte segment bound; never read"
  else .ok bytes

namespace Codec

variable (C : Codec)

/-- `sealed_records`: every record of a sealed segment, or why it is refused. -/
def sealedRecords (path : String) (bytes : Bytes) : Except String (List Record) := do
  let bytes ← (readAtMost bytes segmentMaxBytesBound).mapError fun error => s!"{path}: {error}"
  let found := C.scan bytes
  if 0 < found.discardedBytes ∨ !found.sealed then
    let reason := (found.invalid.map fun reason =>
      s!": line {found.records.length + 1}: {reason}").getD ""
    .error (s!"{path}: not a sealed segment of this release ({found.discardedBytes} bytes " ++
      s!"after the last valid line{reason})")
  else return found.records

end Codec

/-- What one read of the decompressed stream gives; the end of the stream ends the reads. -/
inductive Read where
  | chunk (bytes : Bytes)
  | interrupted
  | failed (error : String)

/-- The lines kept of a stream: the first complete one, the last one, and the one being read; a
line past the record bound is kept as `none`. -/
structure Window where
  first : Option (Option Bytes)
  last : Option Bytes
  current : Option Bytes

/-- One piece of a chunk. -/
def Window.push (window : Window) : Bytes × Bool → Window
  | (piece, complete) =>
    let current := window.current.bind fun line =>
      if line.length + piece.length > recordMaxBytes then none else some (line ++ piece)
    if complete then
      { first := if window.first.isNone then some current else window.first
        last := current
        current := some [] }
    else { window with current }

/-- Why a sealed segment is refused. -/
def refused (path why : String) : String :=
  s!"{path}: not a sealed segment of this release ({why})"

/-- The loop of `sealed_frame_in` over the reads. -/
def readWindow (path : String) : List Read → ℕ → Window → Except String Window
  | [], _, window => .ok window
  | .interrupted :: reads, total, window => readWindow path reads total window
  | .failed error :: _, _, _ => .error s!"{path}: {error}"
  | .chunk bytes :: reads, total, window =>
    if total + bytes.length > segmentMaxBytesBound then
      .error (refused path
        s!"longer than the {segmentMaxBytesBound}-byte segment bound; never read")
    else readWindow path reads (total + bytes.length) ((pieces bytes).foldl Window.push window)

/-- `str::parse::<u128>` -/
def parseU128 (text : String) : Option ℕ :=
  let digits := if text.toList.head? = some '+' then text.toList.tail else text.toList
  if digits ≠ [] ∧ digits.all Char.isDigit ∧ Nat.ofDigitChars 10 digits 0 < u128Bound then
    some (Nat.ofDigitChars 10 digits 0)
  else none

/-- `sealed_frame_in`: the end time of a sealed segment, from its first and its last line. -/
def Codec.sealedFrame (C : Codec) (path segmentId : String) (reads : List Read) :
    Except String ℕ := do
  let window ← readWindow path reads 0 ⟨none, none, some []⟩
  if window.current ≠ some [] then .error (refused path "bytes after the last complete line")
  let first ← window.first.elim (.error (refused path "empty")) .ok
  let first ← first.elim (.error (refused path "its first line is past the record bound")) .ok
  let last ← window.last.elim (.error (refused path "its last line is past the record bound")) .ok
  match C.parseLine first with
  | .ok (.segment header) =>
    if header.seq = 1 ∧ header.segmentId = segmentId then .ok ()
    else .error (refused path "its first line is not its own segment header")
  | .ok _ => .error (refused path "its first line is not its own segment header")
  | .error reason => .error (refused path s!"its header: {reason}")
  let found ← match C.parseLine last with
    | .ok (.seal found) => .ok found
    | .ok _ => .error (refused path "its last line is not a seal")
    | .error reason => .error (refused path s!"its seal: {reason}")
  if found.seq ≤ 1 ∨ found.refs ≠ segmentId ++ refsSuffix then
    .error (refused path "its seal is not its own")
  (parseU128 found.endedUnixNs).elim (.error (refused path "its seal names no end time")) .ok

end Telemetry

end Afactory
