import Mathlib
import Afactory.TelemetryRecord

/-!
# A codec that reads what is written

The contract of `Codec.Lawful` can be met: `canonical` reads a line by its members and accepts it
when it is the text of the record it read.

* `toVec_head`: a record is written as its kind, its sequence, its schema, and what follows;
* `headText_inj`: no text begins with two kinds or two sequences;
* `Record.ofJson_toJson`: the members of a record's object determine it;
* `canonical_lawful`.
-/

namespace Afactory

namespace Telemetry

open Json (Bytes Value newline)

/-! ## Envelopes -/

/-- The names of kinds and schemas need no escapes, and a kind is found by its name. -/
theorem kind_texts (kind : Kind) :
    Json.quote kind.text = Json.quoteMark :: Json.utf8 kind.text ++ [Json.quoteMark] ∧
      Json.quote kind.schema = Json.quoteMark :: Json.utf8 kind.schema ++ [Json.quoteMark] ∧
      Json.quoteMark ∉ Json.utf8 kind.text ∧
      (Kind.all.find? fun k => k.text = kind.text).getD .seal = kind := by
  cases kind <;> decide

theorem quoteMark_notMem (kind : Kind) : Json.quoteMark ∉ Json.utf8 kind.text :=
  (kind_texts kind).2.2.1

/-- What stands between the fields of an envelope, by its marks. -/
theorem envelope_texts :
    Json.utf8 "\x7b\"t\":\"" =
        Json.leftBrace :: (Json.quote "t" ++ [Json.colon, Json.quoteMark]) ∧
      Json.utf8 "\",\"seq\":" =
        Json.quoteMark :: Json.comma :: (Json.quote "seq" ++ [Json.colon]) ∧
      Json.utf8 ",\"schema\":" = Json.comma :: (Json.quote "schema" ++ [Json.colon]) ∧
      Json.utf8 "\",\"seq\":" = Json.quoteMark :: Json.utf8 ",\"seq\":" ∧
      Json.utf8 ",\"schema\":" = Json.comma :: Json.utf8 "\"schema\":" ∧
      Json.utf8 ",\"schema\":\"" = Json.utf8 ",\"schema\":" ++ [Json.quoteMark] ∧
      newline ∉ Json.utf8 "null" := by
  decide

/-- **Every record begins with its kind**, its sequence and its schema. -/
theorem toVec_head (C : Codec) (record : Record) :
    ∃ rest, C.toVec record =
      headText record.kind record.seq.toNat ++ (Json.quote record.schemaField ++ rest) := by
  refine ⟨Json.printMembers C.double record.members, ?_⟩
  obtain ⟨hstart, hseq, hschema, -⟩ := envelope_texts
  rw [headText, hstart, hseq, hschema]
  simp [Codec.toVec, Record.toJson, Json.print, Json.printMembers, Json.printInt,
    (kind_texts record.kind).1]

theorem comma_notMem_decimal (n : ℕ) : Json.comma ∉ Json.decimal n := fun h =>
  absurd (Json.isDigit_of_mem_decimal h) (by decide)

/-- **One kind and one sequence.** What a text begins with names them, and what follows. -/
theorem headText_inj {a b : Kind} {m n : ℕ} {x y : Bytes}
    (h : headText a m ++ x = headText b n ++ y) : a = b ∧ m = n ∧ x = y := by
  obtain ⟨-, -, -, hseq, hschema, -⟩ := envelope_texts
  simp only [headText, hseq, hschema, List.append_assoc, List.cons_append] at h
  obtain ⟨htext, h⟩ := Json.append_mark_inj (quoteMark_notMem a) (quoteMark_notMem b)
    (List.append_cancel_left h)
  obtain ⟨hdecimal, h⟩ := Json.append_mark_inj (comma_notMem_decimal m) (comma_notMem_decimal n)
    (List.append_cancel_left h)
  refine ⟨Kind.text_inj (Json.utf8_inj htext), ?_, List.append_cancel_left h⟩
  rw [← Json.value_decimal m, hdecimal, Json.value_decimal]

/-! ## Reading a record by its members -/

def field (members : List (String × Value)) (name : String) : Value :=
  (members.lookup name).getD .null

def textOf : Value → String
  | .string s => s
  | _ => ""

def textOf? : Value → Option String
  | .string s => some s
  | _ => none

def numOf : Value → UInt64
  | .int n => UInt64.ofNat n.toNat
  | _ => 0

def numOf? : Value → Option UInt64
  | .int n => some (UInt64.ofNat n.toNat)
  | _ => none

def smallOf : Value → UInt32
  | .int n => UInt32.ofNat n.toNat
  | _ => 0

def boolOf : Value → Bool
  | .bool b => b
  | _ => false

def itemsOf : Value → List Value
  | .array items => items
  | _ => []

def membersOf : Value → List (String × Value)
  | .object members => members
  | _ => []

def attributesOf (value : Value) : Attributes :=
  if h : ((membersOf value).map Prod.fst).Nodup then ⟨membersOf value, h⟩ else .empty

def levelOf (text : String) : Level :=
  ([Level.off, .metrics, .spans, .content].find? fun level => level.text = text).getD .off

def spanKindOf (text : String) : SpanKind :=
  ([SpanKind.internal, .process, .client].find? fun kind => kind.text = text).getD .internal

def spanStatusOf (text : String) : SpanStatus :=
  ([SpanStatus.ok, .error, .unset].find? fun status => status.text = text).getD .unset

def blobStateOf (text : String) : BlobState :=
  if text = BlobState.stored.text then .stored else .dropped

def problemOf (text : String) : ProblemWhat :=
  ([ProblemWhat.write, .blob, .receiver, .budget, .redaction, .sink, .observer].find? fun what =>
    what.text = text).getD .write

def exitOf (text : String) : SealExit :=
  ([SealExit.ok, .error, .signal, .recovered].find? fun exit => exit.text = text).getD .ok

def hostOf (value : Value) : Host :=
  let m := membersOf value
  { os := textOf (field m "os"), arch := textOf (field m "arch"), cpus := smallOf (field m "cpus"),
    memoryBytes := numOf? (field m "memory_bytes"), load1 := none,
    freeBytes := numOf? (field m "free_bytes") }

def rowOf (value : Value) : ConfigRow :=
  let m := membersOf value
  { key := textOf (field m "key"), value := textOf (field m "value"),
    layer := textOf (field m "layer"), origin := textOf? (field m "origin") }

/-- The record of one kind with these members. -/
def Record.ofMembers (m : List (String × Value)) : Kind → Record
  | .segment => .segment {
      seq := numOf (field m "seq"), schema := textOf (field m "schema"),
      segmentId := textOf (field m "segment_id"), afVersion := textOf (field m "af_version"),
      afCommit := textOf (field m "af_commit"), pid := smallOf (field m "pid"),
      parentPid := smallOf (field m "parent_pid"),
      argv := (itemsOf (field m "argv")).map textOf, cwd := textOf (field m "cwd"),
      host := hostOf (field m "host"), startedUnixNs := textOf (field m "started_unix_ns"),
      monoOriginUnixNs := textOf (field m "mono_origin_unix_ns"),
      level := levelOf (textOf (field m "level")) }
  | .spanStart => .spanStart {
      seq := numOf (field m "seq"), schema := textOf (field m "schema"),
      traceId := textOf? (field m "trace_id"), spanId := textOf (field m "span_id"),
      parentSpanId := textOf? (field m "parent_span_id"), name := textOf (field m "name"),
      kind := spanKindOf (textOf (field m "kind")),
      startUnixNs := textOf (field m "start_unix_ns"),
      attributes := attributesOf (field m "attributes") }
  | .spanEnd => .spanEnd {
      seq := numOf (field m "seq"), schema := textOf (field m "schema"),
      spanId := textOf (field m "span_id"), endUnixNs := textOf? (field m "end_unix_ns"),
      status := spanStatusOf (textOf (field m "status")),
      attributes := attributesOf (field m "attributes") }
  | .event => .event {
      seq := numOf (field m "seq"), schema := textOf (field m "schema"),
      spanId := textOf (field m "span_id"), timeUnixNs := textOf (field m "time_unix_ns"),
      name := textOf (field m "name"), attributes := attributesOf (field m "attributes"),
      blob := textOf? (field m "blob"), blobMediaType := textOf? (field m "blob_media_type") }
  | .config => .config {
      seq := numOf (field m "seq"), schema := textOf (field m "schema"),
      executionId := textOf (field m "execution_id"), runId := textOf (field m "run_id"),
      runSpanId := textOf (field m "run_span_id"), sectionName := textOf (field m "section"),
      part := smallOf (field m "part"), parts := smallOf (field m "parts"),
      complete := boolOf (field m "complete"), rows := (itemsOf (field m "rows")).map rowOf,
      redacted := (numOf? (field m "af.redacted")).map UInt64.toUInt32 }
  | .node => .node {
      seq := numOf (field m "seq"), schema := textOf (field m "schema"),
      executionId := textOf (field m "execution_id"), planDigest := textOf (field m "plan_digest"),
      nodeId := textOf (field m "node_id"), kind := textOf (field m "kind"),
      package := textOf? (field m "package"),
      dependsOn := (itemsOf (field m "depends_on")).map textOf,
      expectedNodes := smallOf (field m "expected_nodes") }
  | .finding => .finding {
      seq := numOf (field m "seq"), schema := textOf (field m "schema"),
      spanId := textOf (field m "span_id"), log := textOf (field m "log"),
      sequence := numOf (field m "sequence"), key := textOf (field m "key"),
      severity := textOf (field m "severity"),
      effectiveSeverity := textOf (field m "effective_severity"),
      status := textOf (field m "status"), scope := textOf (field m "scope"),
      file := textOf? (field m "file"), line := numOf? (field m "line"),
      title := textOf (field m "title"), reportArtifactId := textOf (field m "report_artifact_id"),
      nodeId := textOf (field m "node_id"), worker := textOf (field m "worker"),
      model := textOf? (field m "model"), round := numOf? (field m "round"),
      epoch := numOf? (field m "epoch") }
  | .demand => .demand {
      seq := numOf (field m "seq"), schema := textOf (field m "schema"),
      spanId := textOf (field m "span_id"), log := textOf (field m "log"),
      sequence := numOf (field m "sequence"), demandId := textOf (field m "demand_id"),
      kind := textOf (field m "kind"), required := boolOf (field m "required"),
      subjectId := textOf (field m "subject_id"), snapshotId := textOf (field m "snapshot_id"),
      status := textOf (field m "status") }
  | .blob => .blob {
      seq := numOf (field m "seq"), schema := textOf (field m "schema"),
      digest := textOf (field m "digest"), bytes := numOf (field m "bytes"),
      storedBytes := numOf (field m "stored_bytes"), redaction := textOf (field m "redaction") }
  | .blobRef => .blobRef {
      seq := numOf (field m "seq"), schema := textOf (field m "schema"),
      occurrenceId := textOf (field m "occurrence_id"), digest := textOf? (field m "digest"),
      spanId := textOf (field m "span_id"), eventSeq := numOf (field m "event_seq"),
      sourceDigest := textOf (field m "source_digest"),
      originalBytes := numOf (field m "original_bytes"),
      truncated := boolOf (field m "truncated"), state := blobStateOf (textOf (field m "state")),
      mediaType := textOf (field m "media_type"), redaction := textOf (field m "redaction") }
  | .problem => .problem {
      seq := numOf (field m "seq"), schema := textOf (field m "schema"),
      timeUnixNs := textOf (field m "time_unix_ns"), what := problemOf (textOf (field m "what")),
      reason := textOf (field m "reason") }
  | .seal => .seal {
      seq := numOf (field m "seq"), schema := textOf (field m "schema"),
      endedUnixNs := textOf (field m "ended_unix_ns"), exit := exitOf (textOf (field m "exit")),
      spans := numOf (field m "spans"), events := numOf (field m "events"),
      blobs := numOf (field m "blobs"), dropped := numOf? (field m "dropped"),
      droppedChunks := numOf? (field m "dropped_chunks"),
      discardedBytes := numOf (field m "discarded_bytes"), refs := textOf (field m "refs") }

/-- The record an object describes. -/
def Record.ofJson (value : Value) : Record :=
  let m := membersOf value
  Record.ofMembers m ((Kind.all.find? fun kind => kind.text = textOf (field m "t")).getD .seal)

@[simp]
theorem numOf_toNat (n : UInt64) : numOf (.int n.toNat) = n := by simp [numOf]

@[simp]
theorem numOf?_ofNum? (n : Option UInt64) : numOf? (ofNum? n) = n := by
  cases n <;> simp [ofNum?, numOf?]

@[simp]
theorem smallOf_toNat (n : UInt32) : smallOf (.int n.toNat) = n := by simp [smallOf]

@[simp]
theorem textOf?_ofText? (text : Option String) : textOf? (ofText? text) = text := by
  cases text <;> rfl

@[simp]
theorem texts_ofTexts (texts : List String) : (itemsOf (ofTexts texts)).map textOf = texts := by
  simp [ofTexts, itemsOf, Function.comp_def, textOf]

@[simp]
theorem attributesOf_members (attributes : Attributes) :
    attributesOf (.object attributes.members) = attributes := by
  unfold attributesOf
  exact dif_pos attributes.nodup

@[simp]
theorem levelOf_text (level : Level) : levelOf level.text = level := by cases level <;> rfl

@[simp]
theorem spanKindOf_text (kind : SpanKind) : spanKindOf kind.text = kind := by cases kind <;> rfl

@[simp]
theorem spanStatusOf_text (status : SpanStatus) : spanStatusOf status.text = status := by
  cases status <;> rfl

@[simp]
theorem blobStateOf_text (state : BlobState) : blobStateOf state.text = state := by
  cases state <;> rfl

@[simp]
theorem problemOf_text (what : ProblemWhat) : problemOf what.text = what := by cases what <;> rfl

@[simp]
theorem exitOf_text (exit : SealExit) : exitOf exit.text = exit := by cases exit <;> rfl

theorem hostOf_toJson {host : Host} (h : host.load1 = none) : hostOf host.toJson = host := by
  obtain ⟨os, arch, cpus, memory, load1, free⟩ := host
  subst h
  simp [hostOf, Host.toJson, membersOf, field, List.lookup, textOf]

@[simp]
theorem rowOf_toJson (row : ConfigRow) : rowOf row.toJson = row := by
  simp [rowOf, ConfigRow.toJson, membersOf, field, List.lookup, textOf]

/-- **The members of its object determine a record** without doubles. -/
theorem Record.ofJson_toJson {record : Record} (h : record.Plain) :
    Record.ofJson record.toJson = record := by
  have hkind : Record.ofJson record.toJson =
      Record.ofMembers (membersOf record.toJson) record.kind := by
    have htext : textOf (field (membersOf record.toJson) "t") = record.kind.text := rfl
    rw [Record.ofJson, htext, (kind_texts _).2.2.2]
  rw [hkind]
  cases record with
  | segment r =>
    have hhost := hostOf_toJson (h.load r rfl)
    simp [kind, ofMembers, toJson, membersOf, members, field, List.lookup, textOf, seq,
      schemaField, hhost]
  | event r =>
    obtain ⟨seq, schema, spanId, time, name, attributes, blob, media⟩ := r
    cases blob <;> cases media <;>
      simp [kind, ofMembers, toJson, membersOf, members, field, List.lookup, textOf, textOf?,
        Record.seq, schemaField, skipNone]
  | config r =>
    obtain ⟨seq, schema, execution, run, span, name, part, parts, complete, rows, redacted⟩ := r
    cases redacted <;>
      simp [kind, ofMembers, toJson, membersOf, members, field, List.lookup, textOf, boolOf,
        itemsOf, numOf?, Record.seq, schemaField, skipNone, Function.comp_def]
  | spanStart | spanEnd | node | finding | demand | blob | blobRef | problem | «seal» =>
    simp [kind, ofMembers, toJson, membersOf, members, field, List.lookup, textOf, boolOf, seq,
      schemaField]

/-! ## The canonical codec -/

theorem floatFree_ofText? (text : Option String) : (ofText? text).FloatFree := by
  cases text <;> trivial

theorem floatFree_ofNum? (n : Option UInt64) : (ofNum? n).FloatFree := by
  cases n <;> trivial

theorem floatFreeItems_map {α : Type} {f : α → Value} (h : ∀ a, (f a).FloatFree) (items : List α) :
    Json.FloatFreeItems (items.map f) := by
  induction items with
  | nil => trivial
  | cons a items ih => exact ⟨h a, ih⟩

theorem floatFree_ofTexts (texts : List String) : (ofTexts texts).FloatFree := by
  have htext : ∀ s : String, (Value.string s).FloatFree := fun _ => trivial
  exact floatFreeItems_map htext texts

theorem Flat.floatFree {value : Value} (h : Flat value) : value.FloatFree := by
  cases h with
  | texts items => exact floatFree_ofTexts items
  | _ => trivial

theorem floatFreeMembers_of_flat {members : List (String × Value)}
    (h : ∀ member ∈ members, Flat member.2) : Json.FloatFreeMembers members := by
  induction members with
  | nil => trivial
  | cons member members ih =>
    exact ⟨(h member List.mem_cons_self).floatFree, ih fun m hm => h m (List.mem_cons_of_mem _ hm)⟩

/-- No double stands in the text of a record without doubles. -/
theorem Record.Plain.floatFree {record : Record} (h : record.Plain) : record.toJson.FloatFree := by
  have hrow : ∀ row : ConfigRow, row.toJson.FloatFree := fun row =>
    ⟨trivial, trivial, trivial, floatFree_ofText? row.origin, trivial⟩
  have hattributes := fun attributes h' => floatFreeMembers_of_flat (h.flat attributes h')
  cases record with
  | segment r =>
    have hload : r.host.load1 = none := h.load r rfl
    have hhost : r.host.toJson.FloatFree := by
      simp [Host.toJson, Value.FloatFree, Json.FloatFreeMembers, floatFree_ofNum?, hload]
    simp [toJson, members, Value.FloatFree, Json.FloatFreeMembers, floatFree_ofTexts, hhost]
  | spanStart r =>
    have hflat := hattributes r.attributes rfl
    simp [toJson, members, Value.FloatFree, Json.FloatFreeMembers, floatFree_ofText?, hflat]
  | spanEnd r =>
    have hflat := hattributes r.attributes rfl
    simp [toJson, members, Value.FloatFree, Json.FloatFreeMembers, floatFree_ofText?, hflat]
  | event r =>
    have hflat := hattributes r.attributes rfl
    obtain ⟨seq, schema, spanId, time, name, attributes, blob, media⟩ := r
    cases blob <;> cases media <;>
      simp [toJson, members, Value.FloatFree, Json.FloatFreeMembers, skipNone, hflat]
  | config r =>
    have hrows := floatFreeItems_map hrow r.rows
    obtain ⟨seq, schema, execution, run, span, name, part, parts, complete, rows, redacted⟩ := r
    cases redacted <;>
      simp [toJson, members, Value.FloatFree, Json.FloatFreeMembers, skipNone, hrows]
  | node | finding | demand | blob | blobRef | problem | «seal» =>
    simp [toJson, members, Value.FloatFree, Json.FloatFreeMembers, floatFree_ofText?,
      floatFree_ofNum?, floatFree_ofTexts]

/-- The codec that accepts a line when it is the text of the record its members describe. -/
def canonical : Codec where
  double _ := Json.utf8 "null"
  fromSlice line :=
    match Json.parse line.length line with
    | some (value, []) =>
      let record := Record.ofJson value
      if Json.print (fun _ => Json.utf8 "null") record.toJson = line then .ok record
      else .error "not the text of a record"
    | _ => .error "not a JSON text"

/-- **The contract can be met.** -/
theorem canonical_lawful : canonical.Lawful where
  roundTrip record hplain := by
    have hread : Json.parse (canonical.toVec record).length (canonical.toVec record) =
        some (record.toJson, []) := Json.parse_text hplain.floatFree
    have htext : Json.print (fun _ => Json.utf8 "null") record.toJson = canonical.toVec record :=
      rfl
    simp only [canonical] at hread htext ⊢
    simp [hread, Record.ofJson_toJson hplain, htext]
  head kind seq schema rest record h := by
    have htext : canonical.toVec record = headText kind seq ++ (Json.quote schema ++ rest) := by
      simp only [canonical] at h
      split at h
      · next value hvalue =>
        split at h
        · next htext =>
          obtain rfl := Except.ok.inj h
          exact htext
        · cases h
      · cases h
    obtain ⟨more, hmore⟩ := toVec_head canonical record
    obtain ⟨hkind, hseq, hrest⟩ := headText_inj (hmore.symm.trans htext)
    exact ⟨hkind, hseq, Json.quote_append_inj hrest⟩
  oneLine _ := envelope_texts.2.2.2.2.2.2

/-! ## A small segment -/

/-- The digest of 64 zeros. -/
def zeroDigest : String := "sha256:" ++ String.ofList (List.replicate 64 '0')

def sampleHeader : Record := .segment {
  seq := 1, schema := Kind.segment.schema, segmentId := "1-2-ab", afVersion := "0.1.0",
  afCommit := "", pid := 2, parentPid := 1, argv := ["af"], cwd := "~",
  host := ⟨"linux", "x86_64", 1, none, none, none⟩, startedUnixNs := "1",
  monoOriginUnixNs := "0", level := .spans }

def sampleSpan : Record := .spanStart {
  seq := 2, schema := Kind.spanStart.schema, traceId := none, spanId := "00aa",
  parentSpanId := none, name := "af.command", kind := .internal, startUnixNs := "2",
  attributes := Attributes.empty.insert "af.note" (.string "é\n") }

def sampleRef : Record := .blobRef {
  seq := 3, schema := Kind.blobRef.schema, occurrenceId := "1-2-ab:3", digest := some zeroDigest,
  spanId := "00aa", eventSeq := 2, sourceDigest := zeroDigest, originalBytes := 1,
  truncated := false, state := .stored, mediaType := "text/plain; charset=utf-8",
  redaction := "af-redact/2" }

def sampleSeal : Record := .seal {
  seq := 4, schema := Kind.seal.schema, endedUnixNs := "3", exit := .ok, spans := 1, events := 0,
  blobs := 0, dropped := some 0, droppedChunks := some 0, discardedBytes := 0,
  refs := "1-2-ab.refs" }

def sampleRecords : List Record := [sampleHeader, sampleSpan, sampleRef, sampleSeal]

/-- The lines of the small segment are short. -/
theorem sampleRecords_length : ∀ record ∈ sampleRecords,
    (canonical.toVec record).length ≤ recordMaxBytes := by decide +kernel

theorem sampleRecords_plain : ∀ record ∈ sampleRecords, record.Plain := by
  have hflat : ∀ member ∈ (Attributes.empty.insert "af.note" (.string "é\n")).members,
      Flat member.2 := by
    intro member hmember
    obtain rfl : member = ("af.note", .string "é\n") := List.mem_singleton.mp hmember
    exact .text _
  simp only [sampleRecords, List.forall_mem_cons, List.not_mem_nil, false_implies, implies_true,
    and_true]
  refine ⟨⟨?_, nofun⟩, ⟨nofun, ?_⟩, ⟨nofun, nofun⟩, ⟨nofun, nofun⟩⟩
  · rintro header hheader
    cases hheader
    rfl
  · intro attributes hattributes
    cases hattributes
    exact hflat

theorem sampleRecords_valid : ∀ record ∈ sampleRecords, record.validate = .ok () := by
  simp only [sampleRecords, List.forall_mem_cons, List.not_mem_nil, false_implies, implies_true,
    and_true]
  refine ⟨?_, ?_, ?_, ?_⟩ <;> rfl

end Telemetry

end Afactory
