import Mathlib
import Afactory.SegmentRecovery
import Afactory.SegmentStructure

/-!
# What a recovery leaves

The recovered segment against the prefix it was made of.

* `unendedSpans`, `owed`: what a prefix owes its reader, the ends of its open spans and a seal;
* `additions_eq_owed`: it is what the recovery appends;
* `Cut`, `recoverIn_recovered`: the bytes a recovery rewrites, cut at their valid prefix;
* `sealedRecords_content`: when the sealed reader accepts the recovered segment;
* `recovery_readable_iff`: exactly when the lines owed fit.
-/

namespace Afactory

namespace Telemetry

open Json (Bytes newline)

/-! ## What a prefix owes its reader -/

/-- Whether a record ends the span. -/
def Record.ends (spanId : String) : Record → Bool
  | .spanEnd ended => ended.spanId = spanId
  | _ => false

/-- The spans started and never ended after it, in the order of their starts. -/
def unendedSpans : List Record → List String
  | [] => []
  | .spanStart start :: records =>
    if records.any (Record.ends start.spanId) then unendedSpans records
    else start.spanId :: unendedSpans records
  | _ :: records => unendedSpans records

/-- The sequence of the last record. -/
def lastSeq (records : List Record) : UInt64 := (records.getLast?.map Record.seq).getD 1

/-- How many records have the kind. -/
def countKind (kind : Kind) (records : List Record) : UInt64 :=
  UInt64.ofNat (records.countP fun record => record.kind = kind)

/-- The seal a prefix is owed: the writer's own counts when its seal was found. -/
def owedSeal (segmentId : String) (records : List Record) (writer : Option Seal)
    (discarded : ℕ) : Seal :=
  let seq := lastSeq records + UInt64.ofNat (unendedSpans records).length + 1
  let facts : Seal := writer.getD
    { seq := 0, schema := Kind.seal.schema
      endedUnixNs := (records.reverse.findSome? recordTime).getD "0", exit := .recovered
      spans := countKind .spanStart records, events := countKind .event records
      blobs := countKind .blob records, dropped := none, droppedChunks := none
      discardedBytes := 0, refs := "" }
  { facts with
    seq, exit := .recovered, discardedBytes := UInt64.ofNat discarded
    refs := segmentId ++ refsSuffix }

/-- What a prefix owes its reader: an end for each span started and never ended, numbered on, and
the seal. -/
def owed (segmentId : String) (records : List Record) (writer : Option Seal) (discarded : ℕ) :
    List Record :=
  ((unendedSpans records).mapIdx fun i spanId =>
    nullEnd (lastSeq records + UInt64.ofNat i + 1) spanId).map .spanEnd ++
    [.seal (owedSeal segmentId records writer discarded)]

theorem nullEnds_eq (seq : UInt64) (spanIds : List String) :
    nullEnds seq spanIds = spanIds.mapIdx fun i spanId => nullEnd (seq + UInt64.ofNat i + 1) spanId := by
  induction spanIds generalizing seq with
  | nil => rfl
  | cons spanId spanIds ih =>
    rw [nullEnds, ih, List.mapIdx_cons]
    have hnext : ∀ i : ℕ, seq + 1 + UInt64.ofNat i + 1 = seq + UInt64.ofNat (i + 1) + 1 := by
      intro i
      rw [UInt64.ofNat_add, UInt64.add_assoc seq, UInt64.add_comm 1 (UInt64.ofNat i)]
      rfl
    simp [hnext]

/-- **The open spans** of the fold are those never ended. -/
theorem unended_foldl (records : List Record) (t : Tally) :
    (records.foldl Tally.push t).unended.map Prod.snd =
      (t.unended.map Prod.snd).filter (fun spanId => !records.any (Record.ends spanId)) ++
        unendedSpans records := by
  induction records generalizing t with
  | nil => simp [unendedSpans]
  | cons record records ih =>
    rw [List.foldl_cons, ih]
    cases record with
    | spanStart start =>
      by_cases hended : records.any (Record.ends start.spanId)
      · simp [Tally.push, unendedSpans, Record.ends, hended]
      · simp [Tally.push, unendedSpans, Record.ends, hended]
    | spanEnd ended =>
      simp only [Tally.push, unendedSpans, List.any_cons, Record.ends]
      congr 1
      rw [List.filter_map, List.filter_map, List.filter_filter]
      congr 2
      funext entry
      by_cases hspan : entry.2 = ended.spanId
      · simp [hspan]
      · simp [hspan, Ne.symm hspan]
    | _ => simp [Tally.push, unendedSpans, Record.ends]

theorem counts_foldl (records : List Record) (t : Tally) :
    (records.foldl Tally.push t).spans = t.spans + countKind .spanStart records ∧
      (records.foldl Tally.push t).events = t.events + countKind .event records ∧
      (records.foldl Tally.push t).blobs = t.blobs + countKind .blob records := by
  induction records generalizing t with
  | nil => simp [countKind]
  | cons record records ih =>
    rw [List.foldl_cons]
    obtain ⟨hspans, hevents, hblobs⟩ := ih (t.push record)
    rw [hspans, hevents, hblobs]
    cases record <;> simp [Tally.push, countKind, Record.kind, UInt64.ofNat_add] <;> grind

theorem tally_unended (records : List Record) :
    (tally records).unended.map Prod.snd = unendedSpans records := by
  rw [tally, unended_foldl]
  rfl

theorem tally_unended_length (records : List Record) :
    (tally records).unended.length = (unendedSpans records).length := by
  rw [← tally_unended, List.length_map]

/-- **What the recovery appends** is what the prefix is owed. -/
theorem additions_eq_owed (segmentId : String) (records : List Record) (writer : Option Seal)
    (discarded : ℕ) :
    additions segmentId records writer discarded = owed segmentId records writer discarded := by
  obtain ⟨hspans, hevents, hblobs⟩ := counts_foldl records ⟨[], 0, 0, 0⟩
  have hseal : ∀ seq, recoveredSeal segmentId records writer seq discarded =
      { owedSeal segmentId records writer discarded with seq := seq + 1 } := by
    intro seq
    cases writer with
    | some writer => rfl
    | none => simp [recoveredSeal, owedSeal, tally, hspans, hevents, hblobs]
  unfold additions owed
  simp only [tally_unended, hseal, nullEnds_eq, lastSeq]
  rfl

/-! ## The cut -/

/-- The bytes a recovery rewrites: the lines kept and their records, the seal its writer left, and
what is discarded. -/
structure Cut (C : Codec) (segmentId : String) (bytes : Bytes) where
  lines : List Bytes
  records : List Record
  writer : Option Seal
  framed : lines <+: frames bytes
  clean : ∀ line ∈ lines, newline ∉ line
  reads : C.Reads lines records
  chain : Chain none records
  unsealed : ∀ record ∈ records, record.isSeal = false
  found : (C.scan bytes).records = records ++ writer.toList.map .seal
  without : withoutSeal bytes (C.scan bytes) = (records, (joined lines).length, writer)
  owner : ∃ header : SegmentHeader,
    records.head? = some (.segment header) ∧ header.segmentId = segmentId
  writes : C.rewrite segmentId bytes (C.scan bytes) =
    { kept := joined lines
      tail := joined ((owed segmentId records writer (C.scan bytes).discardedBytes).map C.toVec)
      refs := manifest (referenced records)
      discardedBytes := (C.scan bytes).discardedBytes
      unendedSpans := (unendedSpans records).length }

/-- The last of some lines begins past the newline before it. -/
theorem lastLineStart_joined {lines : List Bytes} {line : Bytes} (h : newline ∉ line) :
    lastLineStart (joined lines ++ line) = (joined lines).length := by
  have hline : ∀ b ∈ line.reverse, (b ≠ newline : Bool) = true := by
    intro b hb
    have hne : b ≠ newline := fun heq => h (heq ▸ List.mem_reverse.mp hb)
    simpa using hne
  rw [lastLineStart, List.reverse_append, List.dropWhile_append_of_pos hline]
  induction lines using List.reverseRecOn with
  | nil => rfl
  | append_singleton lines last _ =>
    rw [joined_append, joined_cons, joined_nil, List.reverse_append, List.reverse_append]
    simp
    omega

/-- Only the last record of a segment is a seal. -/
theorem Chain.isSeal {last : Option Position} {records : List Record} (h : Chain last records) :
    ∀ record ∈ records.dropLast, record.isSeal = false := by
  induction records generalizing last with
  | nil => simp
  | cons record records ih =>
    cases records with
    | nil => simp
    | cons next records =>
      obtain ⟨-, hfollows, hrest⟩ := h
      have hopen : record.isSeal = false := by
        simp only [follows, Record.position, Bool.and_eq_true, Bool.not_eq_true'] at hfollows
        exact hfollows.1.1
      rw [List.dropLast_cons_cons]
      exact List.forall_mem_cons.mpr ⟨hopen, ih ⟨hfollows, hrest⟩⟩

/-- What a scan finds in some bytes: lines, read in order, and what is discarded. -/
theorem scan_spec (C : Codec) (bytes : Bytes) :
    ∃ lines rest, bytes = joined lines ++ rest ∧ lines <+: frames bytes ∧
      (∀ line ∈ lines, newline ∉ line) ∧ C.Reads lines (C.scan bytes).records ∧
      Chain none (C.scan bytes).records ∧
      (C.scan bytes).keptBytes = (joined lines).length ∧
      (C.scan bytes).discardedBytes = rest.length := by
  obtain ⟨all, tail, hsplit, hall, htail⟩ := exists_lines bytes
  obtain ⟨kept, more, rfl, hread, hchain, hkept, -⟩ := C.scanLines_spec none all
  have hframes : frames bytes = kept ++ more := hsplit ▸ frames_joined hall htail
  have hscan : (C.scan bytes).records = (C.scanLines none (kept ++ more)).records := by
    simp [Codec.scan, Codec.scanFrom, hframes]
  have hbytes : bytes = joined kept ++ (joined more ++ tail) := by
    rw [hsplit, joined_append, List.append_assoc]
  refine ⟨kept, joined more ++ tail, hbytes, ⟨more, hframes.symm⟩,
    fun line hline => hall line (by simp [hline]), hscan ▸ hread, hscan ▸ hchain, ?_, ?_⟩
  · simp [Codec.scan, Codec.scanFrom, hframes, hkept]
  · have hdiscarded : (C.scan bytes).discardedBytes = bytes.length - (joined kept).length := by
      simp [Codec.scan, Codec.scanFrom, hframes, hkept]
    rw [hdiscarded]
    have hlen := congrArg List.length hbytes
    rw [List.length_append] at hlen
    omega

theorem joined_toVec (C : Codec) (records : List Record) :
    (records.flatMap fun record => C.toVec record ++ [newline]) = joined (records.map C.toVec) := by
  rw [joined, List.flatMap_map]

/-- **A recovered segment was cut** at its valid prefix. -/
theorem recoverIn_recovered {C : Codec} {Z : Gzip} {segmentId : String} {lock : Lock}
    {files files' : Files} {segmentId' : String} {discarded unended : ℕ}
    (h : C.recoverIn Z segmentId lock files =
      (.ok (.recovered segmentId' discarded unended), files')) :
    ∃ bytes, files.live = some bytes ∧ lock = .held ∧ bytes.length ≤ segmentMaxBytesBound ∧
      bytes ≠ [] ∧ (C.scan bytes).interiorCorruption = false ∧
      (C.scan bytes).segmentId = some segmentId ∧
      files' = (C.rewrite segmentId bytes (C.scan bytes)).done Z files := by
  unfold Codec.recoverIn at h
  split at h
  · simp at h
  · simp at h
  · simp at h
  · next bytes hlive =>
    split at h
    · simp at h
    split at h
    · simp at h
    simp only at h
    split at h
    · simp at h
    next hbound hne hgood =>
    simp only [not_or, Bool.not_eq_true, not_not] at hgood
    refine ⟨bytes, hlive, rfl, by omega, hne, hgood.1, hgood.2, ?_⟩
    exact (congrArg Prod.snd h).symm

/-- A segment with its lock had, its own header and no interior corruption is recovered. -/
theorem recoverIn_eq {C : Codec} {Z : Gzip} {segmentId : String} {files : Files} {bytes : Bytes}
    (hlive : files.live = some bytes) (hbound : bytes.length ≤ segmentMaxBytesBound)
    (hne : bytes ≠ []) (hinterior : (C.scan bytes).interiorCorruption = false)
    (hown : (C.scan bytes).segmentId = some segmentId) :
    C.recoverIn Z segmentId .held files =
      (.ok (.recovered segmentId (C.rewrite segmentId bytes (C.scan bytes)).discardedBytes
        (C.rewrite segmentId bytes (C.scan bytes)).unendedSpans),
        (C.rewrite segmentId bytes (C.scan bytes)).done Z files) := by
  unfold Codec.recoverIn
  rw [hlive]
  simp only [not_lt.mpr hbound, hne, hinterior, hown, if_false, Bool.false_eq_true, ne_eq,
    not_true_eq_false, or_self]

/-- Lines of records and of more records. -/
theorem Codec.Reads.append {C : Codec} {lines : List Bytes} {a b : List Record}
    (h : C.Reads lines (a ++ b)) :
    ∃ la lb, lines = la ++ lb ∧ C.Reads la a ∧ C.Reads lb b := by
  induction a generalizing lines with
  | nil => exact ⟨[], lines, rfl, .nil, h⟩
  | cons record a ih =>
    cases h with
    | cons hline hrest =>
      obtain ⟨la, lb, rfl, ha, hb⟩ := ih hrest
      exact ⟨_ :: la, lb, rfl, .cons hline ha, hb⟩

theorem Codec.Reads.mem {C : Codec} {lines : List Bytes} {records : List Record}
    (h : C.Reads lines records) {record : Record} (hrecord : record ∈ records) :
    ∃ line ∈ lines, C.parseLine line = .ok record := by
  obtain ⟨a, b, rfl⟩ := List.append_of_mem hrecord
  obtain ⟨la, lb, rfl, -, hb⟩ := h.append
  cases hb with
  | cons hline _ => exact ⟨_, by simp, hline⟩

/-- Lines are read in one way. -/
theorem Codec.Reads.unique {C : Codec} {lines : List Bytes} {a b : List Record}
    (ha : C.Reads lines a) (hb : C.Reads lines b) : a = b := by
  induction ha generalizing b with
  | nil => cases hb; rfl
  | cons hline _ ih =>
    cases hb with
    | cons hother hrest => rw [Except.ok.inj (hline.symm.trans hother), ih hrest]

/-- **Every such segment is cut.** -/
theorem exists_cut (C : Codec) {segmentId : String} {bytes : Bytes}
    (hown : (C.scan bytes).segmentId = some segmentId) : Nonempty (Cut C segmentId bytes) := by
  obtain ⟨lines, rest, hbytes, hframed, hlines, hread, hchain, hkept, -⟩ := scan_spec C bytes
  obtain ⟨header, hheader, hid⟩ : ∃ header : SegmentHeader,
      (C.scan bytes).records.head? = some (.segment header) ∧ header.segmentId = segmentId := by
    unfold Prefix.segmentId at hown
    split at hown
    · next header hheader => exact ⟨header, hheader, Option.some.inj hown⟩
    · cases hown
  by_cases hseal : ∃ writer, (C.scan bytes).records.getLast? = some (.seal writer)
  · obtain ⟨writer, hwriter⟩ := hseal
    obtain ⟨records, hrecords⟩ : ∃ records, (C.scan bytes).records = records ++ [.seal writer] :=
      ⟨_, (List.dropLast_append_getLast? _ hwriter).symm⟩
    rw [hrecords] at hread hchain hheader
    obtain ⟨first, last, rfl, hfirst, hlast⟩ := hread.append
    obtain ⟨line, rfl⟩ : ∃ line, last = [line] := by
      cases hlast with
      | cons hline hnil => cases hnil; exact ⟨_, rfl⟩
    have hline : newline ∉ line := hlines line (by simp)
    have hunsealed := hchain.isSeal
    rw [List.dropLast_concat] at hunsealed
    -- the seal is the last line, so what is kept ends before it
    have hstart : bytes.take ((C.scan bytes).keptBytes - 1) = joined first ++ line := by
      have hlen : (joined (first ++ [line])).length - 1 = (joined first ++ line).length := by
        simp [joined_append]
      have hbegins : bytes = (joined first ++ line) ++ (newline :: rest) := by
        rw [hbytes, joined_append]
        simp
      rw [hkept, hlen]
      conv_lhs => rw [hbegins]
      exact List.take_left
    have hwithout : withoutSeal bytes (C.scan bytes) =
        (records, (joined first).length, some writer) := by
      unfold withoutSeal
      rw [hwriter]
      simp only [hstart, lastLineStart_joined hline, hrecords, List.dropLast_concat]
    have htake : bytes.take (joined first).length = joined first := by
      rw [hbytes, joined_append, List.append_assoc]
      exact List.take_left
    refine ⟨⟨first, records, some writer, (List.prefix_append _ _).trans hframed,
      fun l hl => hlines l (by simp [hl]), hfirst, (chain_append.mp hchain).1, hunsealed, hrecords,
      hwithout, ⟨header, ?_, hid⟩, ?_⟩⟩
    · cases records with
      | nil => simp at hheader
      | cons record records => simpa using hheader
    · simp only [Codec.rewrite, hwithout, htake, additions_eq_owed, joined_toVec]
      rw [tally_unended_length]
  · have hwithout : withoutSeal bytes (C.scan bytes) =
        ((C.scan bytes).records, (C.scan bytes).keptBytes, none) := by
      unfold withoutSeal
      split
      · next writer hwriter => exact absurd ⟨writer, hwriter⟩ hseal
      · rfl
    have htake : bytes.take (C.scan bytes).keptBytes = joined lines := by
      rw [hkept, hbytes]
      exact List.take_left
    refine ⟨⟨lines, (C.scan bytes).records, none, hframed, hlines, hread, hchain, ?_, by simp,
      hkept ▸ hwithout, ⟨header, hheader, hid⟩, ?_⟩⟩
    · intro record hrecord
      have hlast := List.getLast?_eq_some_getLast (List.ne_nil_of_mem hrecord)
      rw [← List.dropLast_append_getLast? _ hlast] at hrecord
      rcases List.mem_append.mp hrecord with hinit | hfinal
      · exact hchain.isSeal record hinit
      · rw [← List.mem_singleton.mp hfinal] at hlast
        cases record with
        | «seal» writer => exact absurd ⟨writer, hlast⟩ hseal
        | _ => rfl
    · simp only [Codec.rewrite, hwithout, htake, additions_eq_owed, joined_toVec]
      rw [tally_unended_length]

/-! ## The recovered segment -/

/-- The lines owed are written of records that can be read back. -/
theorem owed_plain {segmentId : String} {records : List Record} {writer : Option Seal}
    {discarded : ℕ} : ∀ record ∈ owed segmentId records writer discarded, record.Plain := by
  intro record hrecord
  rcases List.mem_append.mp hrecord with hend | hseal
  · obtain ⟨ended, hended, rfl⟩ := List.mem_map.mp hend
    obtain ⟨i, hi, rfl⟩ := List.mem_mapIdx.mp hended
    refine ⟨nofun, ?_⟩
    rintro attributes ⟨rfl⟩
    exact nofun
  · rw [List.mem_singleton.mp hseal]
    exact ⟨nofun, nofun⟩

theorem validate_eq_ok {record : Record} :
    record.validate = .ok () ↔ record.schemaField = record.expectedSchema ∧ record.seq ≠ 0 ∧
      record.checkFields = .ok () := by
  unfold Record.validate
  by_cases hschema : record.schemaField = record.expectedSchema
  · by_cases hseq : record.seq = 0
    · simp [hschema, hseq]
    · simp [hschema, hseq]
  · simp [hschema]

theorem checkDecimal_eq_ok {name value : String} :
    checkDecimal name value = .ok () ↔ isCanonicalDecimal value = true := by
  unfold checkDecimal
  split <;> simp_all

/-- The time of a valid record is a timestamp. -/
theorem recordTime_valid {record : Record} {time : String} (hvalid : record.validate = .ok ())
    (htime : recordTime record = some time) : isCanonicalDecimal time = true := by
  have hfields := (validate_eq_ok.mp hvalid).2.2
  cases record with
  | segment r =>
    obtain rfl := Option.some.inj htime
    obtain ⟨⟨⟩, hdecimal, -⟩ := bind_eq_ok.mp hfields
    exact checkDecimal_eq_ok.mp hdecimal
  | spanStart r =>
    obtain rfl := Option.some.inj htime
    exact checkDecimal_eq_ok.mp hfields
  | spanEnd r =>
    have hended : r.endUnixNs = some time := htime
    simp only [Record.checkFields, hended] at hfields
    exact checkDecimal_eq_ok.mp hfields
  | event r =>
    obtain rfl := Option.some.inj htime
    exact checkDecimal_eq_ok.mp hfields
  | problem r =>
    obtain rfl := Option.some.inj htime
    exact checkDecimal_eq_ok.mp hfields
  | «seal» r =>
    obtain rfl := Option.some.inj htime
    obtain ⟨⟨⟩, hdecimal, -⟩ := bind_eq_ok.mp hfields
    exact checkDecimal_eq_ok.mp hdecimal
  | _ => simp [recordTime] at htime

/-- The seal owed is valid but for its sequence. -/
theorem owedSeal_valid {segmentId : String} {records : List Record} {writer : Option Seal}
    {discarded : ℕ} (hrecords : ∀ record ∈ records, record.validate = .ok ())
    (hwriter : ∀ w ∈ writer, (Record.seal w).validate = .ok ())
    (hseq : (owedSeal segmentId records writer discarded).seq ≠ 0) :
    (Record.seal (owedSeal segmentId records writer discarded)).validate = .ok () := by
  refine validate_eq_ok.mpr ?_
  cases writer with
  | some writer =>
    obtain ⟨hschema, -, hfields⟩ := validate_eq_ok.mp (hwriter writer rfl)
    refine ⟨hschema, hseq, ?_⟩
    simp only [Record.checkFields] at hfields ⊢
    obtain ⟨⟨⟩, hdecimal, hrest⟩ := bind_eq_ok.mp hfields
    refine bind_eq_ok.mpr ⟨(), hdecimal, ?_⟩
    by_cases htogether : writer.dropped.isNone ≠ writer.droppedChunks.isNone
    · simp [htogether] at hrest
    · simp [owedSeal, htogether]
  | none =>
    refine ⟨rfl, hseq, ?_⟩
    have hdecimal : isCanonicalDecimal
        ((records.reverse.findSome? recordTime).getD "0") = true := by
      cases htime : records.reverse.findSome? recordTime with
      | none => rfl
      | some time =>
        obtain ⟨record, hrecord, hsome⟩ := List.exists_of_findSome?_eq_some htime
        exact recordTime_valid (hrecords record (List.mem_reverse.mp hrecord)) hsome
    simp [Record.checkFields, owedSeal, checkDecimal, hdecimal, ok_bind]

/-- An owed line is read back exactly when it is within the record bound and numbered. -/
theorem parseLine_owed {C : Codec} (hC : C.Lawful) {segmentId : String} {records : List Record}
    {writer : Option Seal} {discarded : ℕ}
    (hrecords : ∀ record ∈ records, record.validate = .ok ())
    (hwriter : ∀ w ∈ writer, (Record.seal w).validate = .ok ()) {record : Record}
    (hrecord : record ∈ owed segmentId records writer discarded) :
    C.parseLine (C.toVec record) = .ok record ↔
      (C.toVec record).length ≤ recordMaxBytes ∧ record.seq ≠ 0 := by
  rw [parseLine_eq_ok, hC.roundTrip record (owed_plain record hrecord)]
  refine and_congr_right fun _ => ?_
  simp only [true_and]
  refine ⟨fun hvalid => (validate_eq_ok.mp hvalid).2.1, fun hseq => ?_⟩
  rcases List.mem_append.mp hrecord with hend | hseal
  · obtain ⟨ended, hended, rfl⟩ := List.mem_map.mp hend
    obtain ⟨i, hi, rfl⟩ := List.mem_mapIdx.mp hended
    exact validate_eq_ok.mpr ⟨rfl, hseq, rfl⟩
  · obtain rfl := List.mem_singleton.mp hseal
    exact owedSeal_valid hrecords hwriter hseq

theorem toNat_add_one {s : UInt64} : s < s + 1 ↔ s.toNat + 1 < 2 ^ 64 := by
  have hs := s.toNat_lt
  rw [UInt64.lt_iff_toNat_lt, UInt64.toNat_add, UInt64.toNat_one]
  omega

/-- **No sequence wraps around** exactly when the lines owed are in order. -/
theorem chain_ends_iff {seq : UInt64} {spanIds : List String} {found : Seal}
    (hseal : found.seq = seq + UInt64.ofNat spanIds.length + 1) :
    Chain (some ⟨seq, false⟩) ((nullEnds seq spanIds).map .spanEnd ++ [.seal found]) ↔
      seq.toNat + spanIds.length + 1 < 2 ^ 64 := by
  induction spanIds generalizing seq with
  | nil =>
    have hnext : found.seq = seq + 1 := by simpa using hseal
    simp [nullEnds, Chain, follows, Record.kind, Record.seq, hnext, toNat_add_one]
  | cons spanId spanIds ih =>
    have hnext : found.seq = seq + 1 + UInt64.ofNat spanIds.length + 1 := by
      rw [hseal, List.length_cons, UInt64.ofNat_add, UInt64.add_assoc seq 1,
        UInt64.add_comm 1 (UInt64.ofNat spanIds.length)]
      rfl
    have hrest := ih hnext
    simp only [nullEnds, List.map_cons, List.cons_append, Chain]
    have hposition : (Record.spanEnd (nullEnd (seq + 1) spanId)).position = ⟨seq + 1, false⟩ := rfl
    have hfollows : follows (some ⟨seq, false⟩) (.spanEnd (nullEnd (seq + 1) spanId)) = true ↔
        seq.toNat + 1 < 2 ^ 64 := by
      simp [follows, Record.kind, Record.seq, nullEnd, toNat_add_one]
    rw [hposition, hrest, hfollows, List.length_cons]
    constructor
    · rintro ⟨hlt, hmore⟩
      rw [UInt64.toNat_add, UInt64.toNat_one, Nat.mod_eq_of_lt hlt] at hmore
      omega
    · intro h
      rw [UInt64.toNat_add, UInt64.toNat_one, Nat.mod_eq_of_lt (by omega)]
      omega

namespace Cut

variable {C : Codec} {segmentId : String} {bytes : Bytes} (cut : Cut C segmentId bytes)

/-- The lines owed to the prefix. -/
def owedRecords : List Record :=
  owed segmentId cut.records cut.writer (C.scan bytes).discardedBytes

/-- Where the records kept end. -/
theorem positionAfter : positionAfter none cut.records = some ⟨lastSeq cut.records, false⟩ := by
  obtain ⟨header, hheader, -⟩ := cut.owner
  have hne : cut.records ≠ [] := by
    intro hnil
    simp [hnil] at hheader
  have hlast := List.getLast?_eq_some_getLast hne
  have hopen := cut.unsealed _ (List.getLast_mem hne)
  simp [Telemetry.positionAfter, lastSeq, hlast, Record.position, hopen]

/-- The records kept and the lines owed are in order exactly when no sequence wraps around. -/
theorem chain_iff : Chain none (cut.records ++ cut.owedRecords) ↔
    (lastSeq cut.records).toNat + (unendedSpans cut.records).length + 1 < 2 ^ 64 := by
  have hseal : (owedSeal segmentId cut.records cut.writer (C.scan bytes).discardedBytes).seq =
      lastSeq cut.records + UInt64.ofNat (unendedSpans cut.records).length + 1 := rfl
  rw [chain_append, cut.positionAfter, ← chain_ends_iff hseal, nullEnds_eq]
  exact and_iff_right cut.chain

/-- Every record of the prefix is valid, and so is the writer's seal. -/
theorem valid : (∀ record ∈ cut.records, record.validate = .ok ()) ∧
    ∀ writer ∈ cut.writer, (Record.seal writer).validate = .ok () := by
  obtain ⟨lines, -, -, -, -, hread, -⟩ := scan_spec C bytes
  have hall : ∀ record ∈ (C.scan bytes).records, record.validate = .ok () := by
    intro record hrecord
    obtain ⟨line, -, hline⟩ := hread.mem hrecord
    exact (parseLine_eq_ok.mp hline).2.2
  rw [cut.found] at hall
  refine ⟨fun record hrecord => hall record (by simp [hrecord]), fun writer hwriter => ?_⟩
  refine hall _ (List.mem_append_right _ (List.mem_map.mpr ⟨writer, ?_, rfl⟩))
  simpa using hwriter

theorem clean_owed (hC : C.Lawful) :
    ∀ line ∈ cut.lines ++ cut.owedRecords.map C.toVec, newline ∉ line := by
  intro line hline
  rcases List.mem_append.mp hline with hline | hline
  · exact cut.clean line hline
  · obtain ⟨record, -, rfl⟩ := List.mem_map.mp hline
    exact Codec.toVec_lines hC record

/-- The lines owed are read back, all of them, when they are read at all. -/
theorem reads_owed (hC : C.Lawful) {records : List Record}
    (h : C.Reads (cut.lines ++ cut.owedRecords.map C.toVec) records) :
    records = cut.records ++ cut.owedRecords ∧
      ∀ record ∈ cut.owedRecords, C.parseLine (C.toVec record) = .ok record := by
  have hown : ∀ {owed : List Record}, (∀ record ∈ owed, record.Plain) → ∀ {found : List Record},
      C.Reads (owed.map C.toVec) found →
        found = owed ∧ ∀ record ∈ owed, C.parseLine (C.toVec record) = .ok record := by
    intro owed hplain found hfound
    induction owed generalizing found with
    | nil => cases hfound; exact ⟨rfl, by simp⟩
    | cons record owed ih =>
      cases hfound with
      | @cons _ other _ others hline hrest =>
        have hsame : Except.ok record = Except.ok other :=
          (hC.roundTrip record (hplain record List.mem_cons_self)).symm.trans
            (parseLine_eq_ok.mp hline).2.1
        obtain rfl := Except.ok.inj hsame
        obtain ⟨rfl, hall⟩ := ih (fun r hr => hplain r (List.mem_cons_of_mem _ hr)) hrest
        exact ⟨rfl, List.forall_mem_cons.mpr ⟨hline, hall⟩⟩
  have hsplit := h
  rw [← List.take_append_drop cut.lines.length records] at hsplit ⊢
  have hfirst : C.Reads cut.lines (records.take cut.lines.length) := by
    have htake := List.forall₂_take cut.lines.length h
    rwa [List.take_left] at htake
  have hrest : C.Reads (cut.owedRecords.map C.toVec) (records.drop cut.lines.length) := by
    have hdrop := List.forall₂_drop cut.lines.length h
    rwa [List.drop_left] at hdrop
  obtain ⟨howed, hread⟩ := hown owed_plain hrest
  refine ⟨?_, hread⟩
  rw [hfirst.unique cut.reads, howed, owedRecords]

/-- Lines owed that fit are read back. -/
theorem reads_of_fits (hC : C.Lawful)
    (hlines : ∀ record ∈ cut.owedRecords, (C.toVec record).length ≤ recordMaxBytes)
    (hchain : Chain none (cut.records ++ cut.owedRecords)) :
    C.Reads (cut.owedRecords.map C.toVec) cut.owedRecords := by
  obtain ⟨hvalid, hwriter⟩ := cut.valid
  have hseq : ∀ record ∈ cut.owedRecords, record.seq ≠ 0 := by
    intro record hrecord hzero
    have hlt := Chain.lt (cut.positionAfter ▸ (chain_append.mp hchain).2) record hrecord
    rw [hzero] at hlt
    exact UInt64.not_lt_zero hlt
  refine List.forall₂_map_left_iff.mpr (List.forall₂_same.mpr fun record hrecord => ?_)
  exact (parseLine_owed hC hvalid hwriter hrecord).mpr
    ⟨hlines record hrecord, hseq record hrecord⟩

/-- **The sealed reader accepts the recovered segment** exactly when what is owed fits. -/
theorem sealedRecords_iff (hC : C.Lawful) (path : String) (records : List Record) :
    C.sealedRecords path (joined cut.lines ++ joined (cut.owedRecords.map C.toVec)) = .ok records ↔
      records = cut.records ++ cut.owedRecords ∧
        (joined cut.lines).length + (joined (cut.owedRecords.map C.toVec)).length ≤
          segmentMaxBytesBound ∧
        (∀ record ∈ cut.owedRecords, (C.toVec record).length ≤ recordMaxBytes) ∧
        (lastSeq cut.records).toNat + (unendedSpans cut.records).length + 1 < 2 ^ 64 := by
  obtain ⟨hvalid, hwriter⟩ := cut.valid
  have hframes := frames_joined (cut.clean_owed hC) List.not_mem_nil
  rw [List.append_nil] at hframes
  rw [sealedRecords_eq_ok, discarded_eq_zero, ← joined_append, ← List.length_append,
    ← joined_append, ← cut.chain_iff]
  constructor
  · rintro ⟨hbound, ⟨lines, hbytes, hclean, hread, hchain⟩, -, hrecords⟩
    obtain rfl : cut.lines ++ cut.owedRecords.map C.toVec = lines := by
      rw [← hframes, hbytes]
      simpa using frames_joined hclean List.not_mem_nil
    rw [hrecords] at hread hchain
    obtain ⟨rfl, hall⟩ := cut.reads_owed hC hread
    refine ⟨rfl, hbound, fun record hrecord => ?_, hchain⟩
    exact ((parseLine_owed hC hvalid hwriter hrecord).mp (hall record hrecord)).1
  · rintro ⟨rfl, hbound, hlines, hchain⟩
    have hread : C.Reads (cut.lines ++ cut.owedRecords.map C.toVec)
        (cut.records ++ cut.owedRecords) :=
      List.rel_append cut.reads (cut.reads_of_fits hC hlines hchain)
    have hscan := Codec.scan_joined (cut.clean_owed hC) List.not_mem_nil hread hchain
    rw [List.append_nil] at hscan
    rw [hscan]
    refine ⟨hbound, ⟨_, rfl, cut.clean_owed hC, hread, hchain⟩, ?_, rfl⟩
    simp [Prefix.sealed, owedRecords, owed, ← List.append_assoc, Record.isSeal]

end Cut

/-! ## The manifest -/

theorem manifest_eq (digests : List String) : manifest digests = joined (digests.map Json.utf8) := by
  have hend : Json.utf8 "\n" = [newline] := rfl
  have hfold : ∀ text : String,
      Json.utf8 (digests.foldl (fun text digest => text ++ digest ++ "\n") text) =
        Json.utf8 text ++ joined (digests.map Json.utf8) := by
    induction digests with
    | nil => simp
    | cons digest digests ih =>
      intro text
      rw [List.foldl_cons, ih]
      simp [hend]
  exact hfold ""

theorem pieces_joined {lines : List Bytes} (h : ∀ line ∈ lines, newline ∉ line) :
    pieces (joined lines) = lines.map fun line => (line, true) := by
  induction lines with
  | nil => rfl
  | cons line lines ih =>
    rw [joined_cons, pieces_line (h line List.mem_cons_self),
      ih fun l hl => h l (List.mem_cons_of_mem _ hl), List.map_cons]

/-- No control character stands in a digest. -/
theorem isDigest_bytes {digest : String} (h : isDigest digest = true) :
    Json.utf8 digest ≠ [] ∧ ∀ b ∈ Json.utf8 digest, 48 ≤ b.toNat := by
  simp only [isDigest, Bool.and_eq_true, decide_eq_true_eq] at h
  obtain ⟨⟨hstart, hlen⟩, hhex⟩ := h
  have hchars : ∀ c ∈ digest.toList, 48 ≤ c.toNat := by
    intro c hc
    obtain ⟨rest, hrest⟩ := List.isPrefixOf_iff_prefix.mp hstart
    rw [← hrest] at hc hhex
    rcases List.mem_append.mp hc with hname | hdigit
    · have hletters : ("sha256:".toList.all fun c => Nat.ble 48 c.toNat) = true := by decide
      exact Nat.le_of_ble_eq_true (List.all_eq_true.mp hletters c hname)
    · have hc := List.all_eq_true.mp hhex c (by simpa using hdigit)
      simp only [Bool.or_eq_true, Bool.and_eq_true, decide_eq_true_eq] at hc
      rcases hc with hnumber | ⟨hletter, -⟩
      · exact (Char.isDigit_iff_toNat.mp hnumber).1
      · have hle : 'a'.toNat ≤ c.toNat := hletter
        exact le_trans (by decide) hle
  refine ⟨?_, fun b hb => ?_⟩
  · intro hnil
    have hempty : digest = "" := Json.utf8_inj hnil
    rw [hempty] at hlen
    simp at hlen
  · by_contra hlow
    obtain ⟨c, hc, hcb⟩ := Json.exists_char_of_mem_utf8 hb
      (by rw [UInt8.lt_iff_toNat_lt]; simp; omega)
    have := hchars c hc
    omega

/-- **A manifest names its digests.** -/
theorem manifestDigests_manifest {digests : List String} (h : ∀ d ∈ digests, isDigest d = true) :
    manifestDigests (manifest digests) = some digests := by
  have hclean : ∀ line ∈ digests.map Json.utf8, newline ∉ line := by
    intro line hline hmem
    obtain ⟨digest, hdigest, rfl⟩ := List.mem_map.mp hline
    exact absurd ((isDigest_bytes (h digest hdigest)).2 _ hmem) (by decide)
  have htext : ∀ digest ∈ digests, textLine (Json.utf8 digest, true) = Json.utf8 digest := by
    intro digest hdigest
    refine if_neg fun hreturn => ?_
    have hmem := List.mem_of_getLast? hreturn.2
    exact absurd ((isDigest_bytes (h digest hdigest)).2 _ hmem) (by decide)
  have hlines : ((pieces (manifest digests)).map textLine).filter (· ≠ []) =
      digests.map Json.utf8 := by
    rw [manifest_eq, pieces_joined hclean, List.map_map, List.map_map, List.filter_eq_self.mpr]
    · exact List.map_congr_left htext
    · intro line hline
      obtain ⟨digest, hdigest, rfl⟩ := List.mem_map.mp hline
      simpa [htext digest hdigest] using (isDigest_bytes (h digest hdigest)).1
  have hread : ∀ l : List String, (l.map Json.utf8).mapM Json.ofUtf8? = some l := by
    intro l
    induction l with
    | nil => rfl
    | cons d l ih => simp [List.mapM_cons, ih]
  unfold manifestDigests
  rw [hlines, hread, manifest, Json.ofUtf8?_utf8]
  rfl

/-- The digest of a valid stored occurrence is one. -/
theorem storedDigest?_valid {record : Record} {digest : String}
    (hvalid : record.validate = .ok ()) (h : storedDigest? record = some digest) :
    isDigest digest = true := by
  cases record with
  | blobRef r =>
    simp only [storedDigest?, Option.ite_none_right_eq_some] at h
    have hfields := (validate_eq_ok.mp hvalid).2.2
    simp only [Record.checkFields, h.2] at hfields
    obtain ⟨⟨⟩, hdigest, -⟩ := bind_eq_ok.mp hfields
    unfold checkDigest at hdigest
    split at hdigest
    · assumption
    · cases hdigest
  | _ => simp [storedDigest?] at h

/-! ## The recovered file -/

/-- The valid prefix without the writer's own seal. -/
def keptRecords (C : Codec) (bytes : Bytes) : List Record :=
  (withoutSeal bytes (C.scan bytes)).1

/-- The lines a recovery owes to the bytes of a segment. -/
def owedRecords (C : Codec) (segmentId : String) (bytes : Bytes) : List Record :=
  owed segmentId (keptRecords C bytes) (withoutSeal bytes (C.scan bytes)).2.2
    (C.scan bytes).discardedBytes

/-- **What a recovery should leave**: a compressed file the sealed reader accepts, its records the
valid prefix without the writer's seal, an end of unknown time for each span started and never
ended, and a recovered seal; and a manifest that names the digests of the stored occurrences
kept, and no others. -/
structure Leaves (C : Codec) (Z : Gzip) (path : String) (bytes : Bytes) (files : Files) : Prop where
  sealed : ∃ (stored content : Bytes) (ends : List SpanEnd) (found : Seal),
    files.sealed = some stored ∧ Z.decompress stored = .ok content ∧
    C.sealedRecords path content =
      .ok (keptRecords C bytes ++ ends.map .spanEnd ++ [.seal found]) ∧
    ends.map SpanEnd.spanId = unendedSpans (keptRecords C bytes) ∧
    (∀ ended ∈ ends, ended.endUnixNs = none) ∧ found.exit = .recovered
  manifest : ∃ refs digests, files.refs = some refs ∧ manifestDigests refs = some digests ∧
    ∀ digest, digest ∈ digests ↔ ∃ record ∈ keptRecords C bytes, storedDigest? record = some digest

/-- **The lines owed fit**: they are numbered below `2 ^ 64`, each is within the record bound, and
all of them with the lines kept are within the segment bound. -/
structure Fits (C : Codec) (segmentId : String) (bytes : Bytes) : Prop where
  sequences : (lastSeq (keptRecords C bytes)).toNat + (unendedSpans (keptRecords C bytes)).length +
    1 < 2 ^ 64
  lines : ∀ record ∈ owedRecords C segmentId bytes, (C.toVec record).length ≤ recordMaxBytes
  whole : (withoutSeal bytes (C.scan bytes)).2.1 +
    (joined ((owedRecords C segmentId bytes).map C.toVec)).length ≤ segmentMaxBytesBound

namespace Cut

variable {C : Codec} {segmentId : String} {bytes : Bytes} (cut : Cut C segmentId bytes)

theorem keptRecords_eq : keptRecords C bytes = cut.records := by rw [keptRecords, cut.without]

theorem owedRecords_eq_owed : Telemetry.owedRecords C segmentId bytes = cut.owedRecords := by
  rw [Telemetry.owedRecords, cut.keptRecords_eq, cut.without]
  rfl

/-- What it is for the lines owed to fit, in terms of the cut. -/
theorem fits_iff : Fits C segmentId bytes ↔
    (joined cut.lines).length + (joined (cut.owedRecords.map C.toVec)).length ≤
        segmentMaxBytesBound ∧
      (∀ record ∈ cut.owedRecords, (C.toVec record).length ≤ recordMaxBytes) ∧
      (lastSeq cut.records).toNat + (unendedSpans cut.records).length + 1 < 2 ^ 64 := by
  constructor
  · rintro ⟨hsequences, hlines, hwhole⟩
    rw [cut.owedRecords_eq_owed] at hlines hwhole
    rw [cut.keptRecords_eq] at hsequences
    rw [cut.without] at hwhole
    exact ⟨hwhole, hlines, hsequences⟩
  · rintro ⟨hwhole, hlines, hsequences⟩
    refine ⟨cut.keptRecords_eq ▸ hsequences, cut.owedRecords_eq_owed ▸ hlines, ?_⟩
    rw [cut.owedRecords_eq_owed, cut.without]
    exact hwhole

end Cut

/-- **Exactly when a recovery leaves a readable segment**: when the lines owed fit. -/
theorem recovery_readable_iff (C : Codec) (hC : C.Lawful) (Z : Gzip) (hZ : Z.Lawful) (path : String)
    {segmentId segmentId' : String} {bytes : Bytes} {files files' : Files}
    {discarded unended : ℕ} (hlive : files.live = some bytes)
    (hrecovered : C.recoverIn Z segmentId .held files =
      (.ok (.recovered segmentId' discarded unended), files')) :
    Leaves C Z path bytes files' ↔ Fits C segmentId bytes := by
  obtain ⟨bytes', hlive', -, -, -, -, hown, rfl⟩ := recoverIn_recovered hrecovered
  obtain rfl : bytes = bytes' := Option.some.inj (hlive.symm.trans hlive')
  obtain ⟨cut⟩ := exists_cut C hown
  have hkept := cut.keptRecords_eq
  have hcontent : (C.rewrite segmentId bytes (C.scan bytes)).content =
      joined cut.lines ++ joined (cut.owedRecords.map C.toVec) := by
    rw [cut.writes]
    rfl
  rw [cut.fits_iff]
  have hshape : cut.owedRecords = ((unendedSpans cut.records).mapIdx fun i spanId =>
      nullEnd (lastSeq cut.records + UInt64.ofNat i + 1) spanId).map .spanEnd ++
        [.seal (owedSeal segmentId cut.records cut.writer (C.scan bytes).discardedBytes)] := rfl
  constructor
  · rintro ⟨⟨stored, content, ends, found, hstored, hdecompress, hread, -⟩, -⟩
    obtain rfl : Z.compress (C.rewrite segmentId bytes (C.scan bytes)).content = stored :=
      Option.some.inj hstored
    rw [hZ] at hdecompress
    obtain rfl := Except.ok.inj hdecompress
    rw [hcontent] at hread
    exact ((cut.sealedRecords_iff hC path _).mp hread).2
  · intro hall
    refine ⟨⟨_, _, (unendedSpans cut.records).mapIdx fun i spanId =>
        nullEnd (lastSeq cut.records + UInt64.ofNat i + 1) spanId,
      owedSeal segmentId cut.records cut.writer (C.scan bytes).discardedBytes, rfl, hZ _,
      ?_, ?_, ?_, rfl⟩, ?_⟩
    · rw [hcontent, hkept, List.append_assoc, ← hshape]
      exact (cut.sealedRecords_iff hC path _).mpr ⟨rfl, hall⟩
    · rw [hkept]
      refine List.ext_getElem (by simp) fun i hi hi' => ?_
      simp [nullEnd]
    · intro ended hended
      obtain ⟨i, hi, rfl⟩ := List.mem_mapIdx.mp hended
      rfl
    · refine ⟨_, referenced cut.records, rfl, ?_, fun digest => ?_⟩
      · rw [cut.writes]
        refine manifestDigests_manifest fun digest hdigest => ?_
        obtain ⟨record, hrecord, hstored⟩ := mem_referenced.mp hdigest
        exact storedDigest?_valid (cut.valid.1 record hrecord) hstored
      · rw [hkept]
        exact mem_referenced

/-- A file that holds its content as it is. -/
def stored : Gzip where
  compress bytes := bytes
  decompress bytes := .ok bytes

theorem stored_lawful : stored.Lawful := fun _ => rfl

/-- The scan of records that are read back. -/
theorem canonical_scan {records : List Record} (hchain : Chain none records)
    (hread : canonical.Reads (records.map canonical.toVec) records) :
    canonical.scan (joined (records.map canonical.toVec)) =
      ⟨records, (joined (records.map canonical.toVec)).length, 0, false, none⟩ := by
  have hclean : ∀ line ∈ records.map canonical.toVec, newline ∉ line := by
    intro line hline
    obtain ⟨record, -, rfl⟩ := List.mem_map.mp hline
    exact Codec.toVec_lines canonical_lawful record
  have hscan := Codec.scan_joined hclean List.not_mem_nil hread hchain
  rwa [List.append_nil] at hscan

/-- The live file of some records. -/
def liveFile (records : List Record) : Files :=
  ⟨some (joined (records.map canonical.toVec)), none, none, none⟩

/-- The scan of the small segment, its writer's seal stranded. -/
theorem sample_scan : canonical.scan (joined (sampleRecords.map canonical.toVec)) =
    ⟨sampleRecords, (joined (sampleRecords.map canonical.toVec)).length, 0, false, none⟩ := by
  have hchain : Chain none sampleRecords := by
    simp only [sampleRecords, Chain]
    decide
  exact canonical_scan hchain
    (canonical_reads sampleRecords_plain sampleRecords_valid sampleRecords_length)

theorem sample_own : (canonical.scan (joined (sampleRecords.map canonical.toVec))).segmentId =
    some "1-2-ab" := by
  rw [sample_scan, Prefix.segmentId]
  rfl

theorem sample_recovered :
    canonical.recoverIn stored "1-2-ab" .held (liveFile sampleRecords) =
      (.ok (.recovered "1-2-ab" 0 1),
        (canonical.rewrite "1-2-ab" (joined (sampleRecords.map canonical.toVec))
          (canonical.scan (joined (sampleRecords.map canonical.toVec)))).done stored
            (liveFile sampleRecords)) := by
  have hrecovered := @recoverIn_eq canonical stored "1-2-ab" (liveFile sampleRecords) _ rfl
    (length_joined_toVec_le sampleRecords_length (by decide)) (joined_cons_ne_nil _ _)
    (by rw [sample_scan]) sample_own
  rw [hrecovered, sample_scan]
  rfl

set_option maxRecDepth 10000 in
theorem sample_fits : Fits canonical "1-2-ab" (joined (sampleRecords.map canonical.toVec)) := by
  refine ⟨?_, ?_, ?_⟩
  · rw [keptRecords, sample_scan]
    decide
  · rw [owedRecords, keptRecords, sample_scan]
    decide
  · rw [owedRecords, keptRecords, sample_scan]
    decide

/-- The small segment is recovered. -/
theorem recovery_readable_iff_sample :
    Leaves canonical stored "segment" (joined (sampleRecords.map canonical.toVec))
      (canonical.recoverIn stored "1-2-ab" .held (liveFile sampleRecords)).2 := by
  rw [sample_recovered]
  exact (recovery_readable_iff canonical canonical_lawful stored stored_lawful "segment" rfl
    sample_recovered).mpr sample_fits

/-- A segment whose last record has the last sequence there is. -/
def lastRecords : List Record := [sampleHeader, .problem {
  seq := 18446744073709551615, schema := Kind.problem.schema, timeUnixNs := "2", what := .sink,
  reason := "" }]

set_option maxRecDepth 10000 in
theorem lastRecords_length : ∀ record ∈ lastRecords,
    (canonical.toVec record).length ≤ recordMaxBytes := by decide

/-- **The sequence after the last wraps around.** The segment is recovered, and the sealed reader
refuses what the recovery wrote. -/
theorem last_sequence_is_recovered_and_refused :
    (canonical.recoverIn stored "1-2-ab" .held (liveFile lastRecords)).1 =
        .ok (.recovered "1-2-ab" 0 0) ∧
      ¬ Leaves canonical stored "segment" (joined (lastRecords.map canonical.toVec))
        (canonical.recoverIn stored "1-2-ab" .held (liveFile lastRecords)).2 := by
  have hread : canonical.Reads (lastRecords.map canonical.toVec) lastRecords := by
    refine canonical_reads ?_ ?_ lastRecords_length
    · exact List.forall_mem_cons.mpr ⟨sampleRecords_plain _ List.mem_cons_self,
        List.forall_mem_singleton.mpr ⟨nofun, nofun⟩⟩
    · exact List.forall_mem_cons.mpr ⟨rfl, List.forall_mem_singleton.mpr rfl⟩
  have hchain : Chain none lastRecords := by
    simp only [lastRecords, Chain]
    decide
  have hscan := canonical_scan hchain hread
  have hown : (canonical.scan (joined (lastRecords.map canonical.toVec))).segmentId =
      some "1-2-ab" := by
    rw [hscan, Prefix.segmentId]
    rfl
  have hrecovered := @recoverIn_eq canonical stored "1-2-ab" (liveFile lastRecords) _ rfl
    (length_joined_toVec_le lastRecords_length (by decide)) (joined_cons_ne_nil _ _)
    (by rw [hscan]) hown
  obtain ⟨cut⟩ := exists_cut canonical hown
  have hrecords : cut.records = lastRecords := by
    have hfound := congrArg Prod.fst cut.without
    rw [hscan] at hfound
    exact hfound.symm.trans rfl
  rw [hrecovered, cut.writes, hscan, hrecords]
  refine ⟨rfl, fun hleaves => ?_⟩
  obtain ⟨held, content, ends, found, hheld, hdecompress, hsealed, -⟩ := hleaves.sealed
  obtain rfl := Option.some.inj hheld
  obtain rfl := Except.ok.inj hdecompress
  have howed : owed "1-2-ab" lastRecords cut.writer 0 = cut.owedRecords := by
    rw [Cut.owedRecords, hrecords, hscan]
  simp only [Rewrite.content, howed] at hsealed
  have hfits := ((cut.sealedRecords_iff canonical_lawful "segment" _).mp hsealed).2.2.2
  rw [hrecords] at hfits
  exact absurd hfits (by decide)

end Telemetry

end Afactory
