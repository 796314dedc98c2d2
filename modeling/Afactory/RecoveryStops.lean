import Mathlib
import Afactory.SegmentRecovered

/-!
# Recoveries that are stopped

A recovery that stops after any of its steps and is run again, against the one that was not.

* `nullEnds_append`, `unendedSpans_append`: the ends a stopped recovery had appended are ends;
* `Resumed`: what the second recovery finds;
* `Survives`: what must hold of the bytes and of the step for nothing to be lost;
* `recovery_resumed_iff`: exactly then both recoveries leave the same records and the same seal.
-/

namespace Afactory

namespace Telemetry

open Json (Bytes newline)

/-! ## Ends already appended -/

theorem nullEnds_append (seq : UInt64) (a b : List String) :
    nullEnds seq (a ++ b) = nullEnds seq a ++ nullEnds (seq + UInt64.ofNat a.length) b := by
  induction a generalizing seq with
  | nil => simp [nullEnds]
  | cons spanId a ih =>
    have hnext : seq + 1 + UInt64.ofNat a.length = seq + UInt64.ofNat (spanId :: a).length := by
      rw [List.length_cons, UInt64.ofNat_add, UInt64.add_assoc,
        UInt64.add_comm 1 (UInt64.ofNat a.length)]
      rfl
    rw [List.cons_append, nullEnds, nullEnds, ih, hnext, List.cons_append]

theorem length_nullEnds (seq : UInt64) (spanIds : List String) :
    (nullEnds seq spanIds).length = spanIds.length := by
  rw [nullEnds_eq, List.length_mapIdx]

theorem owed_eq (segmentId : String) (records : List Record) (writer : Option Seal)
    (discarded : ℕ) : owed segmentId records writer discarded =
      (nullEnds (lastSeq records) (unendedSpans records)).map .spanEnd ++
        [.seal (owedSeal segmentId records writer discarded)] := by
  rw [owed, nullEnds_eq]

/-- Which open spans of a prefix are still open after more records. -/
theorem unendedSpans_append (a b : List Record) :
    unendedSpans (a ++ b) =
      (unendedSpans a).filter (fun spanId => !b.any (Record.ends spanId)) ++ unendedSpans b := by
  rw [← tally_unended, tally, List.foldl_append, unended_foldl, ← tally, tally_unended]

theorem any_ends_nullEnds (spanId : String) (seq : UInt64) (spanIds : List String) :
    ((nullEnds seq spanIds).map .spanEnd).any (Record.ends spanId) = decide (spanId ∈ spanIds) := by
  induction spanIds generalizing seq with
  | nil => simp [nullEnds]
  | cons other spanIds ih =>
    simp only [nullEnds, List.map_cons, List.any_cons, ih, List.mem_cons, Bool.decide_or]
    simp [Record.ends, nullEnd, eq_comm]

theorem unendedSpans_nullEnds (seq : UInt64) (spanIds : List String) :
    unendedSpans ((nullEnds seq spanIds).map .spanEnd) = [] := by
  induction spanIds generalizing seq with
  | nil => rfl
  | cons spanId spanIds ih => exact ih (seq + 1)

theorem lastSeq_nullEnds (records : List Record) (spanIds : List String) :
    lastSeq (records ++ (nullEnds (lastSeq records) spanIds).map .spanEnd) =
      lastSeq records + UInt64.ofNat spanIds.length := by
  induction spanIds using List.reverseRecOn with
  | nil => simp [nullEnds]
  | append_singleton spanIds spanId _ =>
    rw [nullEnds_append, List.map_append, ← List.append_assoc]
    simp only [nullEnds, List.map_cons, List.map_nil, lastSeq, List.getLast?_append,
      List.getLast?_singleton, Option.some_or, Option.map_some, Option.getD_some, Record.seq,
      nullEnd]
    rw [List.length_append, UInt64.ofNat_add, UInt64.add_assoc]
    rfl

theorem countKind_nullEnds {kind : Kind} (hkind : kind ≠ .spanEnd) (records : List Record)
    (seq : UInt64) (spanIds : List String) :
    countKind kind (records ++ (nullEnds seq spanIds).map .spanEnd) = countKind kind records := by
  have hnone : ((nullEnds seq spanIds).map Record.spanEnd).countP
      (fun record => record.kind = kind) = 0 := by
    rw [List.countP_eq_zero]
    intro record hrecord
    obtain ⟨ended, -, rfl⟩ := List.mem_map.mp hrecord
    have hne : Kind.spanEnd ≠ kind := hkind.symm
    simp [Record.kind, hne]
  rw [countKind, List.countP_append, hnone, Nat.add_zero, countKind]

theorem recordTime_nullEnds (records : List Record) (seq : UInt64) (spanIds : List String) :
    (records ++ (nullEnds seq spanIds).map Record.spanEnd).reverse.findSome? recordTime =
      records.reverse.findSome? recordTime := by
  have hnone : ((nullEnds seq spanIds).map Record.spanEnd).reverse.findSome? recordTime = none := by
    rw [List.findSome?_eq_none_iff]
    intro record hrecord
    obtain ⟨ended, hended, rfl⟩ := List.mem_map.mp (List.mem_reverse.mp hrecord)
    rw [nullEnds_eq] at hended
    obtain ⟨i, hi, rfl⟩ := List.mem_mapIdx.mp hended
    rfl
  rw [List.reverse_append, List.findSome?_append, hnone, Option.none_or]

/-- The open spans of a prefix that ended some of its own. -/
theorem unendedSpans_resumed (records : List Record) (seq : UInt64) (j : ℕ) :
    unendedSpans (records ++ (nullEnds seq ((unendedSpans records).take j)).map .spanEnd) =
      ((unendedSpans records).drop j).filter (· ∉ (unendedSpans records).take j) := by
  rw [unendedSpans_append, unendedSpans_nullEnds, List.append_nil]
  simp only [any_ends_nullEnds]
  conv_lhs => rw [← List.take_append_drop j (unendedSpans records), List.filter_append]
  rw [List.take_append_drop, List.filter_eq_nil_iff.mpr (by simp), List.nil_append]
  congr 1
  funext spanId
  simp

/-- **The seal owed past some ends**: the same, when the spans left are the others. -/
theorem owedSeal_resumed (segmentId : String) (records : List Record) (j : ℕ) (discarded : ℕ)
    (hdisjoint : ∀ spanId ∈ (unendedSpans records).drop j,
      spanId ∉ (unendedSpans records).take j) :
    owedSeal segmentId
        (records ++ (nullEnds (lastSeq records) ((unendedSpans records).take j)).map .spanEnd) none
        discarded = owedSeal segmentId records none discarded := by
  have hunended : unendedSpans (records ++
      (nullEnds (lastSeq records) ((unendedSpans records).take j)).map .spanEnd) =
        (unendedSpans records).drop j := by
    rw [unendedSpans_resumed, List.filter_eq_self.mpr]
    simpa using hdisjoint
  have hseq : lastSeq records + UInt64.ofNat ((unendedSpans records).take j).length +
      UInt64.ofNat ((unendedSpans records).drop j).length =
        lastSeq records + UInt64.ofNat (unendedSpans records).length := by
    rw [UInt64.add_assoc, ← UInt64.ofNat_add, ← List.length_append, List.take_append_drop]
  simp only [owedSeal, hunended, lastSeq_nullEnds, hseq, Option.getD_none, recordTime_nullEnds,
    countKind_nullEnds (by decide : Kind.spanStart ≠ .spanEnd),
    countKind_nullEnds (by decide : Kind.event ≠ .spanEnd),
    countKind_nullEnds (by decide : Kind.blob ≠ .spanEnd)]

/-! ## The second recovery -/

/-- How many bytes of the tail stand in the file when a recovery stops. -/
def Stop.written (total : ℕ) : Stop → ℕ
  | .truncated => 0
  | .appended n => n
  | .manifest | .compressed => total

theorem stopped_live (Z : Gzip) (rewrite : Rewrite) (files : Files) (stop : Stop) :
    (rewrite.stopped Z files stop).live =
      some (rewrite.kept ++ rewrite.tail.take (stop.written rewrite.tail.length)) := by
  cases stop <;> simp [Rewrite.stopped, Stop.written, Rewrite.content]

/-- Records without a seal, and a seal after them, are apart. -/
theorem unsealed_inj {a b : List Record} {v w : Option Seal}
    (ha : ∀ record ∈ a, record.isSeal = false) (hb : ∀ record ∈ b, record.isSeal = false)
    (h : a ++ v.toList.map .seal = b ++ w.toList.map .seal) : a = b ∧ v = w := by
  have hlast : ∀ {l r : List Record} {x : Seal}, (∀ record ∈ l, record.isSeal = false) →
      l ≠ r ++ [.seal x] := by
    rintro l r x hl rfl
    exact absurd (hl (.seal x) (by simp)) (by simp [Record.isSeal])
  cases v with
  | none =>
    cases w with
    | none => exact ⟨by simpa using h, rfl⟩
    | some w => exact absurd (by simpa using h) (hlast ha)
  | some v =>
    cases w with
    | none => exact absurd (by simpa using h.symm) (hlast hb)
    | some w =>
      obtain ⟨rfl, hseal⟩ := List.append_inj' h rfl
      obtain rfl : v = w := by simpa using hseal
      exact ⟨rfl, rfl⟩

namespace Cut

variable {C : Codec} {segmentId : String} {bytes : Bytes} (cut : Cut C segmentId bytes)

/-- The lines owed, as they are written. -/
def owedLines : List Bytes := cut.owedRecords.map C.toVec

/-- The ends of the open spans. -/
def ends (j : ℕ) : List Record :=
  (nullEnds (lastSeq cut.records) ((unendedSpans cut.records).take j)).map .spanEnd

theorem owedRecords_eq (j : ℕ) : cut.owedRecords = cut.ends j ++
    ((nullEnds (lastSeq cut.records + UInt64.ofNat ((unendedSpans cut.records).take j).length)
      ((unendedSpans cut.records).drop j)).map .spanEnd ++
      [.seal (owedSeal segmentId cut.records cut.writer (C.scan bytes).discardedBytes)]) := by
  rw [owedRecords, owed_eq, ends, ← List.append_assoc, ← List.map_append, ← nullEnds_append,
    List.take_append_drop]

theorem length_owedRecords : cut.owedRecords.length = (unendedSpans cut.records).length + 1 := by
  rw [owedRecords, owed_eq]
  simp [length_nullEnds]

/-- The lines owed, the seal last. -/
theorem owedRecords_all : cut.owedRecords = cut.ends (unendedSpans cut.records).length ++
    [.seal (owedSeal segmentId cut.records cut.writer (C.scan bytes).discardedBytes)] := by
  rw [cut.owedRecords_eq (unendedSpans cut.records).length, List.drop_length]
  rfl

theorem length_ends {j : ℕ} (hj : j ≤ (unendedSpans cut.records).length) :
    (cut.ends j).length = j := by
  simp [ends, length_nullEnds, hj]

theorem take_owedRecords {j : ℕ} (hj : j ≤ (unendedSpans cut.records).length) :
    cut.owedRecords.take j = cut.ends j := by
  rw [cut.owedRecords_eq j, List.take_append_of_le_length (by rw [cut.length_ends hj]),
    List.take_of_length_le (by rw [cut.length_ends hj])]

theorem ends_unsealed (j : ℕ) : ∀ record ∈ cut.records ++ cut.ends j, record.isSeal = false := by
  intro record hrecord
  rcases List.mem_append.mp hrecord with hrecord | hrecord
  · exact cut.unsealed record hrecord
  · obtain ⟨ended, -, rfl⟩ := List.mem_map.mp hrecord
    rfl

/-- **What the second recovery scans**: the lines kept, the owed lines written, and what is left of
the next one. -/
theorem scan_resumed (hC : C.Lawful)
    (hlines : ∀ record ∈ cut.owedRecords, (C.toVec record).length ≤ recordMaxBytes)
    (hsequences : (lastSeq cut.records).toNat + (unendedSpans cut.records).length + 1 < 2 ^ 64)
    (j : ℕ) {part : Bytes} (hpart : newline ∉ part) :
    C.scan (joined (cut.lines ++ cut.owedLines.take j) ++ part) =
      ⟨cut.records ++ cut.owedRecords.take j, (joined (cut.lines ++ cut.owedLines.take j)).length,
        part.length, false, none⟩ := by
  have hchain := cut.chain_iff.mpr hsequences
  have howed : C.Reads cut.owedLines cut.owedRecords := cut.reads_of_fits hC hlines hchain
  refine Codec.scan_joined ?_ hpart (List.rel_append cut.reads (List.forall₂_take j howed)) ?_
  · intro line hline
    refine cut.clean_owed hC line ?_
    rcases List.mem_append.mp hline with hline | hline
    · exact List.mem_append_left _ hline
    · exact List.mem_append_right _ (List.take_subset _ _ hline)
  · have hall : cut.records ++ cut.owedRecords =
        (cut.records ++ cut.owedRecords.take j) ++ cut.owedRecords.drop j := by
      rw [List.append_assoc, List.take_append_drop]
    rw [hall] at hchain
    exact (chain_append.mp hchain).1

/-- The lines and the records of a second cut are those of the first and the ends written. -/
theorem resumed_eq {again : Bytes} (cut' : Cut C segmentId again) {j : ℕ} (writer : Option Seal)
    (hrecords : (C.scan again).records = cut.records ++ cut.ends j ++ writer.toList.map .seal)
    (hframes : cut.lines ++ cut.owedLines.take j <+: frames again)
    (hj : j ≤ (unendedSpans cut.records).length) :
    cut'.records = cut.records ++ cut.ends j ∧ cut'.writer = writer ∧
      cut'.lines = cut.lines ++ cut.owedLines.take j := by
  obtain ⟨hsame, hwriter⟩ := unsealed_inj cut'.unsealed (cut.ends_unsealed j)
    (cut'.found.symm.trans hrecords)
  refine ⟨hsame, hwriter, ?_⟩
  have hlength : cut'.lines.length = (cut.lines ++ cut.owedLines.take j).length := by
    have howed : j ≤ cut.owedLines.length := by
      rw [owedLines, List.length_map, length_owedRecords]
      omega
    rw [List.Forall₂.length_eq cut'.reads, hsame, List.length_append, List.length_append,
      List.Forall₂.length_eq cut.reads, cut.length_ends hj, List.length_take, Nat.min_eq_left howed]
  rw [List.prefix_iff_eq_take.mp cut'.framed, List.prefix_iff_eq_take.mp hframes, hlength]

/-- The manifest of the second recovery is that of the first. -/
theorem referenced_resumed (j : ℕ) : referenced (cut.records ++ cut.ends j) =
    referenced cut.records := by
  have hnone : (cut.ends j).filterMap storedDigest? = [] := by
    rw [List.filterMap_eq_nil_iff]
    intro record hrecord
    obtain ⟨ended, -, rfl⟩ := List.mem_map.mp hrecord
    rfl
  rw [referenced, List.filterMap_append, hnone, List.append_nil, referenced]

end Cut

/-! ## Exactly when nothing is lost -/

/-- The compressed file holds these records. -/
def SealedAs (C : Codec) (Z : Gzip) (path : String) (files : Files) (records : List Record) : Prop :=
  ∃ held content, files.sealed = some held ∧ Z.decompress held = .ok content ∧
    C.sealedRecords path content = .ok records

/-- **The same segment**: both compressed files hold the same records, the seal among them, and
both manifests are the same. -/
def Agrees (C : Codec) (Z : Gzip) (path : String) (once again : Files) : Prop :=
  (∃ records, SealedAs C Z path once records ∧ SealedAs C Z path again records) ∧
    once.refs = again.refs

/-- How many of the lines owed were written when the recovery stopped. -/
def linesWritten (C : Codec) (segmentId : String) (bytes : Bytes) (stop : Stop) : ℕ :=
  endingWithin (stop.written (joined ((owedRecords C segmentId bytes).map C.toVec)).length)
    ((owedRecords C segmentId bytes).map C.toVec)

/-- How many bytes of an unfinished line stand after them. -/
def unfinished (C : Codec) (segmentId : String) (bytes : Bytes) (stop : Stop) : ℕ :=
  let lines := (owedRecords C segmentId bytes).map C.toVec
  ((joined lines).take (stop.written (joined lines).length)).length -
    (joined (lines.take (linesWritten C segmentId bytes stop))).length

/-- **What a stopped recovery must not lose**: the unfinished line is as long as what was
discarded; and, unless the seal was written, the writer left no seal but one the prefix itself
gives, and no span it ended has another start that is still open. -/
structure Survives (C : Codec) (segmentId : String) (bytes : Bytes) (stop : Stop) : Prop where
  discarded : unfinished C segmentId bytes stop = (C.scan bytes).discardedBytes
  facts : linesWritten C segmentId bytes stop ≤ (unendedSpans (keptRecords C bytes)).length →
    owedSeal segmentId (keptRecords C bytes) (withoutSeal bytes (C.scan bytes)).2.2
        (C.scan bytes).discardedBytes =
      owedSeal segmentId (keptRecords C bytes) none (C.scan bytes).discardedBytes ∧
    ∀ spanId ∈ (unendedSpans (keptRecords C bytes)).drop (linesWritten C segmentId bytes stop),
      spanId ∉ (unendedSpans (keptRecords C bytes)).take (linesWritten C segmentId bytes stop)

/-- The content of a recovered file. -/
theorem sealedAs_rewrite {C : Codec} {Z : Gzip} (hZ : Z.Lawful) {path segmentId : String}
    {bytes : Bytes} (cut : Cut C segmentId bytes) {files : Files} {records : List Record} :
    SealedAs C Z path ((C.rewrite segmentId bytes (C.scan bytes)).done Z files) records ↔
      C.sealedRecords path (joined cut.lines ++ joined cut.owedLines) = .ok records := by
  have hcontent : (C.rewrite segmentId bytes (C.scan bytes)).content =
      joined cut.lines ++ joined cut.owedLines := by
    rw [cut.writes]
    rfl
  constructor
  · rintro ⟨held, content, hheld, hdecompress, hread⟩
    obtain rfl := Option.some.inj hheld
    rw [hZ] at hdecompress
    obtain rfl := Except.ok.inj hdecompress
    rwa [hcontent] at hread
  · intro hread
    exact ⟨_, _, rfl, hZ _, hcontent ▸ hread⟩

namespace Cut

variable {C : Codec} {segmentId : String} {bytes : Bytes} (cut : Cut C segmentId bytes)

/-- The seals owed with two lengths discarded are the same only for one length. -/
theorem owedSeal_discarded {records records' : List Record} {writer writer' : Option Seal} {m n : ℕ}
    (hm : m < 2 ^ 64) (hn : n < 2 ^ 64)
    (h : owedSeal segmentId records writer m = owedSeal segmentId records' writer' n) : m = n := by
  have hdiscarded : UInt64.ofNat m = UInt64.ofNat n := congrArg Seal.discardedBytes h
  have hnat := congrArg UInt64.toNat hdiscarded
  rwa [UInt64.toNat_ofNat_of_lt' hm, UInt64.toNat_ofNat_of_lt' hn] at hnat

/-- **Stopped among the ends.** The second recovery ends the spans left and writes a seal of its
own. -/
theorem resumed_ends {again : Bytes} (cut' : Cut C segmentId again) {j : ℕ}
    (hrecords : cut'.records = cut.records ++ cut.ends j) (hwriter : cut'.writer = none)
    (hdiscarded : (C.scan bytes).discardedBytes < 2 ^ 64)
    (hagain : (C.scan again).discardedBytes < 2 ^ 64) :
    cut.records ++ cut.owedRecords = cut'.records ++ cut'.owedRecords ↔
      (C.scan again).discardedBytes = (C.scan bytes).discardedBytes ∧
      owedSeal segmentId cut.records cut.writer (C.scan bytes).discardedBytes =
        owedSeal segmentId cut.records none (C.scan bytes).discardedBytes ∧
      ∀ spanId ∈ (unendedSpans cut.records).drop j,
        spanId ∉ (unendedSpans cut.records).take j := by
  have hunended : unendedSpans (cut.records ++ cut.ends j) =
      ((unendedSpans cut.records).drop j).filter (· ∉ (unendedSpans cut.records).take j) :=
    unendedSpans_resumed cut.records (lastSeq cut.records) j
  have hlast : lastSeq (cut.records ++ cut.ends j) =
      lastSeq cut.records + UInt64.ofNat ((unendedSpans cut.records).take j).length :=
    lastSeq_nullEnds cut.records _
  have hseal := owedSeal_resumed segmentId cut.records j (C.scan again).discardedBytes
  have howed : cut'.owedRecords = (nullEnds (lastSeq (cut.records ++ cut.ends j))
      (unendedSpans (cut.records ++ cut.ends j))).map .spanEnd ++
        [.seal (owedSeal segmentId (cut.records ++ cut.ends j) none
          (C.scan again).discardedBytes)] := by
    rw [owedRecords, hrecords, hwriter, owed_eq]
  rw [hrecords, howed, cut.owedRecords_eq j, List.append_assoc, List.append_cancel_left_eq,
    List.append_cancel_left_eq]
  constructor
  · intro h
    obtain ⟨hends, hseals⟩ := List.append_inj' h rfl
    have hsame : owedSeal segmentId cut.records cut.writer (C.scan bytes).discardedBytes =
        owedSeal segmentId (cut.records ++ cut.ends j) none (C.scan again).discardedBytes := by
      simpa using hseals
    have hlen := congrArg List.length hends
    rw [List.length_map, List.length_map, length_nullEnds, length_nullEnds, hunended] at hlen
    have hdisjoint : ∀ spanId ∈ (unendedSpans cut.records).drop j,
        spanId ∉ (unendedSpans cut.records).take j := by
      simpa using List.length_filter_eq_length_iff.mp hlen.symm
    have hcount := owedSeal_discarded hdiscarded hagain hsame
    refine ⟨hcount.symm, ?_, hdisjoint⟩
    rw [hsame]
    exact (hseal hdisjoint).trans (by rw [hcount])
  · rintro ⟨hcount, hfacts, hdisjoint⟩
    have hrest : unendedSpans (cut.records ++ cut.ends j) = (unendedSpans cut.records).drop j := by
      rw [hunended, List.filter_eq_self.mpr]
      simpa using hdisjoint
    rw [hrest, hlast, hfacts, ← hcount]
    rw [show owedSeal segmentId (cut.records ++ cut.ends j) none (C.scan again).discardedBytes =
      owedSeal segmentId cut.records none (C.scan again).discardedBytes from hseal hdisjoint]

/-- **Stopped past the seal.** The second recovery supersedes the seal of the first, and discards
nothing. -/
theorem resumed_seal {again : Bytes} (cut' : Cut C segmentId again)
    (hrecords : cut'.records = cut.records ++ cut.ends (unendedSpans cut.records).length)
    (hwriter : cut'.writer =
      some (owedSeal segmentId cut.records cut.writer (C.scan bytes).discardedBytes))
    (hdiscarded : (C.scan bytes).discardedBytes < 2 ^ 64)
    (hagain : (C.scan again).discardedBytes = 0) :
    cut.records ++ cut.owedRecords = cut'.records ++ cut'.owedRecords ↔
      (C.scan bytes).discardedBytes = 0 := by
  have hunended : unendedSpans (cut.records ++ cut.ends (unendedSpans cut.records).length) = [] := by
    have hnone := unendedSpans_resumed cut.records (lastSeq cut.records)
      (unendedSpans cut.records).length
    rw [List.drop_length, List.filter_nil] at hnone
    exact hnone
  have hlast : lastSeq (cut.records ++ cut.ends (unendedSpans cut.records).length) =
      lastSeq cut.records + UInt64.ofNat (unendedSpans cut.records).length := by
    have hends := lastSeq_nullEnds cut.records
      ((unendedSpans cut.records).take (unendedSpans cut.records).length)
    rwa [List.length_take, Nat.min_self] at hends
  have howed : cut'.owedRecords = [.seal { owedSeal segmentId cut.records cut.writer
      (C.scan bytes).discardedBytes with discardedBytes := UInt64.ofNat 0 }] := by
    rw [owedRecords, hrecords, hwriter, hagain, owed_eq, hunended]
    simp only [nullEnds, List.map_nil, List.nil_append, owedSeal, hunended, hlast, Option.getD_some,
      List.length_nil]
    simp
  rw [hrecords, howed, cut.owedRecords_all, List.append_assoc, List.append_cancel_left_eq,
    List.append_cancel_left_eq]
  simp only [List.cons.injEq, Record.seal.injEq, and_true]
  constructor
  · intro h
    have hzero : UInt64.ofNat (C.scan bytes).discardedBytes = UInt64.ofNat 0 :=
      congrArg Seal.discardedBytes h
    have hnat := congrArg UInt64.toNat hzero
    rwa [UInt64.toNat_ofNat_of_lt' hdiscarded, UInt64.toNat_ofNat_of_lt' (by decide)] at hnat
  · intro h
    simp only [owedSeal, h]

/-- **Where a recovery stops**: whole lines of those owed, and some bytes of the next one. -/
theorem stopped_split (hC : C.Lawful) (stop : Stop) :
    ∃ part, newline ∉ part ∧
      (joined cut.owedLines).take (stop.written (joined cut.owedLines).length) =
        joined (cut.owedLines.take (linesWritten C segmentId bytes stop)) ++ part ∧
      part.length = unfinished C segmentId bytes stop ∧
      (linesWritten C segmentId bytes stop = cut.owedLines.length → part = []) := by
  have hlines : (Telemetry.owedRecords C segmentId bytes).map C.toVec = cut.owedLines := by
    rw [cut.owedRecords_eq_owed, owedLines]
  have hclean : ∀ line ∈ cut.owedLines, newline ∉ line := fun line hline =>
    cut.clean_owed hC line (List.mem_append_right _ hline)
  obtain ⟨part, hpart, htake⟩ :=
    take_joined hclean (stop.written (joined cut.owedLines).length)
  refine ⟨part, hpart, ?_, ?_, fun hall => ?_⟩
  · rw [linesWritten, hlines, htake]
  · simp only [unfinished, linesWritten, hlines, htake, List.length_append]
    omega
  · rw [linesWritten, hlines] at hall
    rw [hall, List.take_length] at htake
    have hlen := congrArg List.length htake
    rw [List.length_take, List.length_append] at hlen
    exact List.length_eq_zero_iff.mp (by omega)

theorem linesWritten_le (stop : Stop) :
    linesWritten C segmentId bytes stop ≤ (unendedSpans cut.records).length + 1 := by
  have hle := endingWithin_le
    (stop.written (joined ((Telemetry.owedRecords C segmentId bytes).map C.toVec)).length)
    ((Telemetry.owedRecords C segmentId bytes).map C.toVec)
  rwa [List.length_map, cut.owedRecords_eq_owed, cut.length_owedRecords,
    ← cut.owedRecords_eq_owed] at hle

/-- A second recovery that keeps the ends written agrees with the first exactly when it owes the
lines left. -/
theorem agrees_iff (hC : C.Lawful) {Z : Gzip} (hZ : Z.Lawful) (path : String) {again : Bytes}
    (cut' : Cut C segmentId again) {i : ℕ} {files files' : Files} (hfits : Fits C segmentId bytes)
    (hi : i ≤ (unendedSpans cut.records).length)
    (hrecords : cut'.records = cut.records ++ cut.ends i)
    (hlines : cut'.lines = cut.lines ++ cut.owedLines.take i) :
    Agrees C Z path ((C.rewrite segmentId bytes (C.scan bytes)).done Z files)
        ((C.rewrite segmentId again (C.scan again)).done Z files') ↔
      cut.records ++ cut.owedRecords = cut'.records ++ cut'.owedRecords := by
  obtain ⟨hwhole, hbounds, hsequences⟩ := cut.fits_iff.mp hfits
  constructor
  · rintro ⟨⟨records, honce, hagain⟩, -⟩
    obtain ⟨rfl, -⟩ := (cut.sealedRecords_iff hC path _).mp ((sealedAs_rewrite hZ cut).mp honce)
    exact ((cut'.sealedRecords_iff hC path _).mp ((sealedAs_rewrite hZ cut').mp hagain)).1
  · intro hsame
    -- the lines the second recovery owes are the ones left of those the first owed
    have hleft : cut'.owedRecords = cut.owedRecords.drop i := by
      rw [hrecords, ← List.take_append_drop i cut.owedRecords, cut.take_owedRecords hi,
        List.append_assoc, List.append_cancel_left_eq, List.append_cancel_left_eq] at hsame
      exact hsame.symm
    have htotal : (joined cut'.lines).length + (joined (cut'.owedRecords.map C.toVec)).length =
        (joined cut.lines).length + (joined cut.owedLines).length := by
      rw [hlines, hleft, List.map_drop, joined_append, List.length_append, Nat.add_assoc,
        ← List.length_append, ← owedLines, ← joined_append, List.take_append_drop]
    have hfits' : (joined cut'.lines).length + (joined (cut'.owedRecords.map C.toVec)).length ≤
          segmentMaxBytesBound ∧
        (∀ record ∈ cut'.owedRecords, (C.toVec record).length ≤ recordMaxBytes) ∧
        (lastSeq cut'.records).toNat + (unendedSpans cut'.records).length + 1 < 2 ^ 64 := by
      refine ⟨htotal ▸ hwhole, fun record hrecord => ?_, ?_⟩
      · rw [hleft] at hrecord
        exact hbounds record (List.mem_of_mem_drop hrecord)
      · rw [← cut'.chain_iff, ← hsame]
        exact cut.chain_iff.mpr hsequences
    refine ⟨⟨cut.records ++ cut.owedRecords, (sealedAs_rewrite hZ cut).mpr ?_,
      (sealedAs_rewrite hZ cut').mpr ?_⟩, ?_⟩
    · exact (cut.sealedRecords_iff hC path _).mpr ⟨rfl, hwhole, hbounds, hsequences⟩
    · exact (cut'.sealedRecords_iff hC path _).mpr ⟨hsame, hfits'⟩
    · rw [cut.writes, cut'.writes]
      change some (manifest _) = some (manifest _)
      rw [hrecords, cut.referenced_resumed]

end Cut

namespace Cut

/-- **The second recovery**, of a segment whose lines owed fit. -/
theorem agrees_iff_survives {C : Codec} {segmentId : String} {bytes : Bytes}
    (cut : Cut C segmentId bytes) (hC : C.Lawful) {Z : Gzip} (hZ : Z.Lawful) (path : String)
    {files : Files} (stop : Stop) (hbound : bytes.length ≤ segmentMaxBytesBound)
    (hfits : Fits C segmentId bytes) :
    Agrees C Z path ((C.rewrite segmentId bytes (C.scan bytes)).done Z files)
        (C.recoverIn Z segmentId .held
          ((C.rewrite segmentId bytes (C.scan bytes)).stopped Z files stop)).2 ↔
      Survives C segmentId bytes stop := by
  obtain ⟨hwhole, hbounds, hsequences⟩ := cut.fits_iff.mp hfits
  obtain ⟨part, hpart, hsplit, hlength, hlast⟩ := cut.stopped_split hC stop
  obtain ⟨j, hj⟩ : ∃ j, linesWritten C segmentId bytes stop = j := ⟨_, rfl⟩
  have hle := cut.linesWritten_le stop
  rw [hj] at hsplit hlast hle
  -- what the second recovery finds
  have hresumed : ((C.rewrite segmentId bytes (C.scan bytes)).stopped Z files stop).live =
      some (joined (cut.lines ++ cut.owedLines.take j) ++ part) := by
    rw [stopped_live, cut.writes]
    change some (joined cut.lines ++
      (joined cut.owedLines).take (stop.written (joined cut.owedLines).length)) = _
    rw [hsplit, ← List.append_assoc, ← joined_append]
  obtain ⟨left, hleft⟩ : ∃ left, joined (cut.lines ++ cut.owedLines.take j) ++ part = left :=
    ⟨_, rfl⟩
  have hscan := cut.scan_resumed hC hbounds hsequences j hpart
  rw [hleft] at hresumed hscan
  obtain ⟨header, hheader, hid⟩ := cut.owner
  have hown' : (C.scan left).segmentId = some segmentId := by
    rw [hscan, Prefix.segmentId, List.head?_append, hheader]
    exact congrArg some hid
  have hshort : left.length ≤ segmentMaxBytesBound := by
    have hcut : (joined (cut.owedLines.take j) ++ part).length ≤ (joined cut.owedLines).length := by
      rw [← hsplit]
      exact List.length_take_le' _ _
    rw [← hleft, joined_append, List.append_assoc, List.length_append]
    exact le_trans (Nat.add_le_add_left hcut _) hwhole
  have hne : left ≠ [] := by
    rintro rfl
    cases hown'
  have hrun := recoverIn_eq (Z := Z) hresumed hshort hne (by rw [hscan]) hown'
  rw [hrun]
  obtain ⟨cut'⟩ := exists_cut C hown'
  have hframes : frames left = cut.lines ++ cut.owedLines.take j := by
    rw [← hleft]
    refine frames_joined (fun line hline => cut.clean_owed hC line ?_) hpart
    rcases List.mem_append.mp hline with hline | hline
    · exact List.mem_append_left _ hline
    · exact List.mem_append_right _ (List.take_subset _ _ hline)
  have hdiscarded : (C.scan bytes).discardedBytes < 2 ^ 64 := by
    obtain ⟨lines, rest, hbytes, -, -, -, -, -, hrest⟩ := scan_spec C bytes
    have hlen := congrArg List.length hbytes
    rw [List.length_append] at hlen
    rw [segmentMaxBytesBound] at hbound
    omega
  have hagain' : (C.scan left).discardedBytes = unfinished C segmentId bytes stop := by
    rw [hscan, ← hlength]
  have hpartial : (C.scan left).discardedBytes < 2 ^ 64 := by
    have hlen := congrArg List.length hleft
    rw [List.length_append] at hlen
    rw [segmentMaxBytesBound] at hshort
    rw [hscan]
    change part.length < 2 ^ 64
    omega
  by_cases hends : j ≤ (unendedSpans cut.records).length
  · -- stopped among the ends of the spans
    obtain ⟨hrecords, hwriter, hlines⟩ := cut.resumed_eq cut' none
      (by rw [hscan, cut.take_owedRecords hends]; simp) (by rw [hframes]) hends
    rw [cut.agrees_iff hC hZ path cut' hfits hends hrecords hlines,
      cut.resumed_ends cut' hrecords hwriter hdiscarded hpartial, hagain']
    constructor
    · rintro ⟨hsame, hfacts⟩
      refine ⟨hsame, fun _ => ?_⟩
      rw [cut.keptRecords_eq, cut.without, hj]
      exact hfacts
    · rintro ⟨hsame, hfacts⟩
      rw [cut.keptRecords_eq, cut.without, hj] at hfacts
      exact ⟨hsame, hfacts hends⟩
  · -- stopped past the seal
    obtain rfl : j = (unendedSpans cut.records).length + 1 := by omega
    have hall : cut.owedLines.length = (unendedSpans cut.records).length + 1 := by
      rw [Cut.owedLines, List.length_map, cut.length_owedRecords]
    obtain rfl := hlast hall.symm
    obtain ⟨hrecords, hwriter, hlines⟩ := cut.resumed_eq cut'
      (some (owedSeal segmentId cut.records cut.writer (C.scan bytes).discardedBytes))
      (by
        rw [hscan, ← cut.length_owedRecords, List.take_length, cut.owedRecords_all]
        simp)
      (by
        rw [hframes]
        exact List.prefix_append_right_inj _ |>.mpr (List.take_prefix_take_left (Nat.le_succ _)))
      le_rfl
    have hzero : (C.scan left).discardedBytes = 0 := by rw [hscan]; rfl
    rw [cut.agrees_iff hC hZ path cut' hfits le_rfl hrecords hlines,
      cut.resumed_seal cut' hrecords hwriter hdiscarded hzero]
    constructor
    · intro hnone
      refine ⟨by rw [← hlength, hnone]; rfl, fun hopen => ?_⟩
      rw [hj, cut.keptRecords_eq] at hopen
      exact absurd hopen hends
    · rintro ⟨hsame, -⟩
      rw [← hsame, ← hlength]
      rfl

end Cut

/-- **Exactly when a recovery that was stopped and run again loses nothing.** Both leave the same
records, the same seal and the same manifest when what the first owed fits and the step at which it
stopped left what the second needs. -/
theorem recovery_resumed_iff (C : Codec) (hC : C.Lawful) (Z : Gzip) (hZ : Z.Lawful) (path : String)
    {segmentId segmentId' : String} {bytes : Bytes} {files once again : Files}
    {discarded unended : ℕ} {result : Except String Recovery} (stop : Stop)
    (hlive : files.live = some bytes)
    (honce : C.recoverIn Z segmentId .held files =
      (.ok (.recovered segmentId' discarded unended), once))
    (hagain : C.recoverIn Z segmentId .held
      ((C.rewrite segmentId bytes (C.scan bytes)).stopped Z files stop) = (result, again)) :
    Agrees C Z path once again ↔ Fits C segmentId bytes ∧ Survives C segmentId bytes stop := by
  obtain ⟨bytes', hlive', -, hbound, -, -, hown, rfl⟩ := recoverIn_recovered honce
  obtain rfl : bytes = bytes' := Option.some.inj (hlive.symm.trans hlive')
  obtain ⟨cut⟩ := exists_cut C hown
  obtain rfl : _ = again := congrArg Prod.snd hagain
  by_cases hfits : Fits C segmentId bytes
  · rw [and_iff_right hfits]
    exact cut.agrees_iff_survives hC hZ path stop hbound hfits
  · -- the reader refuses what the first recovery left
    refine iff_of_false ?_ fun hright => hfits hright.1
    rintro ⟨⟨records, hsealed, -⟩, -⟩
    exact hfits (cut.fits_iff.mpr
      ((cut.sealedRecords_iff hC path _).mp ((sealedAs_rewrite hZ cut).mp hsealed)).2)

/-- The small segment, stopped past its compressed copy. -/
theorem recovery_resumed_iff_sample :
    Agrees canonical stored "segment"
      (canonical.recoverIn stored "1-2-ab" .held (liveFile sampleRecords)).2
      (canonical.recoverIn stored "1-2-ab" .held
        ((canonical.rewrite "1-2-ab" (joined (sampleRecords.map canonical.toVec))
          (canonical.scan (joined (sampleRecords.map canonical.toVec)))).stopped stored
            (liveFile sampleRecords) .compressed)).2 := by
  rw [sample_recovered]
  refine (recovery_resumed_iff canonical canonical_lawful stored stored_lawful "segment"
    .compressed rfl sample_recovered Prod.mk.eta.symm).mpr ⟨sample_fits, ?_, ?_⟩
  · rw [unfinished, linesWritten, owedRecords, keptRecords, sample_scan]
    decide +kernel
  · rw [linesWritten, owedRecords, keptRecords, sample_scan]
    decide +kernel

/-- **The counts of a stranded seal are lost.** A recovery that stops past the truncation has cut
the writer's seal off; run again, it seals the segment with unknown drops. -/
theorem stopped_recovery_drops_the_counts :
    ¬ Agrees canonical stored "segment"
      (canonical.recoverIn stored "1-2-ab" .held (liveFile sampleRecords)).2
      (canonical.recoverIn stored "1-2-ab" .held
        ((canonical.rewrite "1-2-ab" (joined (sampleRecords.map canonical.toVec))
          (canonical.scan (joined (sampleRecords.map canonical.toVec)))).stopped stored
            (liveFile sampleRecords) .truncated)).2 := by
  obtain ⟨cut⟩ := exists_cut canonical sample_own
  rw [sample_recovered, cut.agrees_iff_survives canonical_lawful stored_lawful "segment" .truncated
    (length_joined_toVec_le sampleRecords_length (by decide)) sample_fits]
  rintro ⟨-, hfacts⟩
  rw [linesWritten, owedRecords, keptRecords, sample_scan] at hfacts
  exact absurd (congrArg Seal.dropped (hfacts (by decide +kernel)).1) (by decide +kernel)

end Telemetry

end Afactory
