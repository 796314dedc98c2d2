import Mathlib
import Afactory.SegmentReader

/-!
# Recovering an unsealed segment

`recover_in` of `review-telemetry/src/segment/reader.rs`: a segment whose writer is gone is cut to
its valid prefix, its open spans are ended, it is sealed, compressed and renamed.

* `Tally`: the open spans and the counts of a prefix;
* `rewrite`: what a recovery writes, of the bytes of the segment alone;
* `Files`, `Rewrite.stopped`: what stands in the directory after each step;
* `recoverIn`: the recovery of one segment, whatever its lock and its bytes;
* `manifest`, `manifestDigests`: the manifest, written and read.

Compression is `flate2`'s (`Gzip`). Sequences wrap around, as in a release build.
-/

namespace Afactory

namespace Telemetry

open Json (Bytes newline)

/-! ## The manifest -/

/-- `manifest`: the digests, one a line. -/
def manifest (digests : List String) : Bytes :=
  Json.utf8 (digests.foldl (fun text digest => text ++ digest ++ "\n") "")

/-- One line of `str::lines`: the carriage return before a newline is no part of it. -/
def textLine : Bytes × Bool → Bytes
  | (line, complete) => if complete ∧ line.getLast? = some 13 then line.dropLast else line

/-- `manifest_digests_in`, of the manifest's bytes: the lines that are not empty. -/
def manifestDigests (bytes : Bytes) : Option (List String) := do
  let _ ← Json.ofUtf8? bytes
  (((pieces bytes).map textLine).filter (· ≠ [])).mapM Json.ofUtf8?

/-! ## What a recovery adds -/

/-- The spans a prefix never ended, by the sequence of their start, and its counts; the sequences
of a prefix increase, so the order of the map is the order of the starts. -/
structure Tally where
  unended : List (UInt64 × String)
  spans : UInt64
  events : UInt64
  blobs : UInt64

def Tally.push (tally : Tally) : Record → Tally
  | .spanStart start =>
    { tally with unended := tally.unended ++ [(start.seq, start.spanId)], spans := tally.spans + 1 }
  | .spanEnd ended => { tally with unended := tally.unended.filter (·.2 ≠ ended.spanId) }
  | .event _ => { tally with events := tally.events + 1 }
  | .blob _ => { tally with blobs := tally.blobs + 1 }
  | _ => tally

def tally (records : List Record) : Tally := records.foldl Tally.push ⟨[], 0, 0, 0⟩

/-- `record_time` -/
def recordTime : Record → Option String
  | .segment header => some header.startedUnixNs
  | .spanStart start => some start.startUnixNs
  | .spanEnd ended => ended.endUnixNs
  | .event event => some event.timeUnixNs
  | .problem problem => some problem.timeUnixNs
  | .seal found => some found.endedUnixNs
  | _ => none

/-- The end of a span nobody ended. -/
def nullEnd (seq : UInt64) (spanId : String) : SpanEnd where
  seq := seq
  schema := Kind.spanEnd.schema
  spanId := spanId
  endUnixNs := none
  status := .unset
  attributes := .empty

/-- The ends of the open spans, numbered past the last record. -/
def nullEnds : UInt64 → List String → List SpanEnd
  | _, [] => []
  | seq, spanId :: more => nullEnd (seq + 1) spanId :: nullEnds (seq + 1) more

/-- The recovered seal: a stranded seal of the writer's keeps its counts; without one the drops are
unknown. -/
def recoveredSeal (segmentId : String) (records : List Record) (stranded : Option Seal)
    (seq : UInt64) (discarded : ℕ) : Seal :=
  match stranded with
  | some writer =>
    { writer with
      seq := seq + 1
      exit := .recovered
      discardedBytes := UInt64.ofNat discarded
      refs := segmentId ++ refsSuffix }
  | none =>
    { seq := seq + 1
      schema := Kind.seal.schema
      endedUnixNs := (records.reverse.findSome? recordTime).getD "0"
      exit := .recovered
      spans := (tally records).spans
      events := (tally records).events
      blobs := (tally records).blobs
      dropped := none
      droppedChunks := none
      discardedBytes := UInt64.ofNat discarded
      refs := segmentId ++ refsSuffix }

/-- What the recovery appends: the ends of the open spans, and the seal. -/
def additions (segmentId : String) (records : List Record) (stranded : Option Seal)
    (discarded : ℕ) : List Record :=
  let seq := (records.getLast?.map Record.seq).getD 1
  let unended := (tally records).unended.map Prod.snd
  (nullEnds seq unended).map .spanEnd ++
    [.seal (recoveredSeal segmentId records stranded (seq + UInt64.ofNat unended.length) discarded)]

/-- Where the last line of complete lines begins, its own newline left out. -/
def lastLineStart (bytes : Bytes) : ℕ := (bytes.reverse.dropWhile (· ≠ newline)).length

/-- The records of a prefix without the writer's own seal, the bytes they take, and that seal. -/
def withoutSeal (bytes : Bytes) (found : Prefix) : List Record × ℕ × Option Seal :=
  match found.records.getLast? with
  | some (.seal writer) =>
    (found.records.dropLast, lastLineStart (bytes.take (found.keptBytes - 1)), some writer)
  | _ => (found.records, found.keptBytes, none)

/-- `flate2`: what a compressed file holds is what was compressed. -/
structure Gzip where
  compress : Bytes → Bytes
  decompress : Bytes → Except String Bytes

def Gzip.Lawful (Z : Gzip) : Prop := ∀ bytes, Z.decompress (Z.compress bytes) = .ok bytes

/-- What a recovery writes: the bytes kept, the lines appended, and the manifest. -/
structure Rewrite where
  kept : Bytes
  tail : Bytes
  refs : Bytes
  discardedBytes : ℕ
  unendedSpans : ℕ

/-- The rewriting of a segment, of its bytes and their valid prefix. -/
def Codec.rewrite (C : Codec) (segmentId : String) (bytes : Bytes) (found : Prefix) : Rewrite :=
  match withoutSeal bytes found with
  | (records, keptBytes, stranded) =>
    { kept := bytes.take keptBytes
      tail := (additions segmentId records stranded found.discardedBytes).flatMap fun record =>
        C.toVec record ++ [newline]
      refs := manifest (referenced records)
      discardedBytes := found.discardedBytes
      unendedSpans := (tally records).unended.length }

/-! ## The files of one segment -/

/-- The files of one segment id. -/
structure Files where
  live : Option Bytes
  refs : Option Bytes
  sealed : Option Bytes
  corrupt : Option Bytes

/-- Where a recovery may stop: past the truncation, past some bytes of the tail, past the
manifest, and past the compressed copy. -/
inductive Stop where
  | truncated
  | appended (n : ℕ)
  | manifest
  | compressed
  deriving DecidableEq, Repr

namespace Rewrite

/-- The bytes of the recovered segment. -/
def content (rewrite : Rewrite) : Bytes := rewrite.kept ++ rewrite.tail

/-- What stands in the directory when a recovery stops. -/
def stopped (Z : Gzip) (rewrite : Rewrite) (files : Files) : Stop → Files
  | .truncated => { files with live := some rewrite.kept }
  | .appended n => { files with live := some (rewrite.kept ++ rewrite.tail.take n) }
  | .manifest => { files with live := some rewrite.content, refs := some rewrite.refs }
  | .compressed =>
    { files with
      live := some rewrite.content
      refs := some rewrite.refs
      sealed := some (Z.compress rewrite.content) }

/-- What stands in the directory after the whole recovery. -/
def done (Z : Gzip) (rewrite : Rewrite) (files : Files) : Files :=
  { rewrite.stopped Z files .compressed with live := none }

end Rewrite

/-- What taking the lock of an opened segment finds: it is had and the name still names the file,
another process holds it, or the name names another file by now. -/
inductive Lock where
  | held | busy | replaced
  deriving DecidableEq, Repr

/-- `Recovery`: what a recovery did. -/
inductive Recovery where
  | live
  | recovered (segmentId : String) (discardedBytes : ℕ) (unendedSpans : ℕ)
  | corrupt (segmentId : String)
  | alreadySealed
  | empty
  deriving DecidableEq, Repr

/-- `recover_in` -/
def Codec.recoverIn (C : Codec) (Z : Gzip) (segmentId : String) (lock : Lock) (files : Files) :
    Except String Recovery × Files :=
  match files.live, lock with
  | none, _ => (.ok .alreadySealed, files)
  | some _, .busy => (.ok .live, files)
  | some _, .replaced => (.ok .alreadySealed, files)
  | some bytes, .held =>
    if bytes.length > segmentMaxBytesBound then
      (.error (s!"{segmentId ++ liveSuffix}: longer than the {segmentMaxBytesBound}-byte segment " ++
        "bound; never read"), files)
    else if bytes = [] then
      (.ok .empty, { files with live := none, sealed := none, refs := none })
    else
      let found := C.scan bytes
      if found.interiorCorruption ∨ found.segmentId ≠ some segmentId then
        (.ok (.corrupt segmentId),
          { live := none, sealed := none, refs := none, corrupt := some bytes })
      else
        let rewrite := C.rewrite segmentId bytes found
        (.ok (.recovered segmentId rewrite.discardedBytes rewrite.unendedSpans),
          rewrite.done Z files)

end Telemetry

end Afactory
