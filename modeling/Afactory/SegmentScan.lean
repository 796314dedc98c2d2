import Mathlib
import Afactory.Checks
import Afactory.SegmentReader
import Afactory.SegmentCodec

/-!
# Segments that were torn

What the scan of `SegmentReader` reads of lines that `encode` wrote, wherever the bytes end.

* `joined`: lines, each ended by a newline; `frames_joined`: they are the complete lines of it;
* `encode_eq_some`: what a written line holds;
* `Chain`: records that may stand in a segment, one after the other; `InOrder.chain`;
* `scan_written`: the records of a segment are read back, from every cut of it those whose lines
  end before the cut, and the rest from where that scan stopped.
-/

namespace Afactory

namespace Telemetry

open Json (Bytes newline)

/-! ## Lines and cuts -/

/-- The lines, each ended by a newline. -/
def joined (lines : List Bytes) : Bytes := lines.flatMap (· ++ [newline])

@[simp]
theorem joined_nil : joined [] = [] := rfl

@[simp]
theorem joined_cons (line : Bytes) (lines : List Bytes) :
    joined (line :: lines) = line ++ newline :: joined lines := by
  simp [joined]

theorem joined_append (a b : List Bytes) : joined (a ++ b) = joined a ++ joined b := by
  simp [joined]

theorem joined_cons_ne_nil (line : Bytes) (lines : List Bytes) : joined (line :: lines) ≠ [] := by
  simp

/-- Lines within a bound are a file within a bound. -/
theorem length_joined_le {lines : List Bytes} {n : ℕ} (h : ∀ line ∈ lines, line.length ≤ n) :
    (joined lines).length ≤ lines.length * (n + 1) := by
  induction lines with
  | nil => simp
  | cons line lines ih =>
    rw [List.forall_mem_cons] at h
    have hrest := ih h.2
    rw [joined_cons, List.length_append, List.length_cons, List.length_cons, Nat.add_mul]
    omega

theorem frames_line {line : Bytes} (h : newline ∉ line) (rest : Bytes) :
    frames (line ++ newline :: rest) = line :: frames rest := by
  induction line with
  | nil => simp [frames]
  | cons b line ih =>
    have hb : b ≠ newline := fun heq => h (heq ▸ List.mem_cons_self)
    rw [List.cons_append, frames, if_neg hb, ih fun hmem => h (List.mem_cons_of_mem _ hmem)]

theorem frames_tail {tail : Bytes} (h : newline ∉ tail) : frames tail = [] := by
  induction tail with
  | nil => rfl
  | cons b tail ih =>
    have hb : b ≠ newline := fun heq => h (heq ▸ List.mem_cons_self)
    rw [frames, if_neg hb, ih fun hmem => h (List.mem_cons_of_mem _ hmem)]

/-- **The complete lines.** Lines without newlines are cut apart again, and an unfinished line
after them is none. -/
theorem frames_joined {lines : List Bytes} (h : ∀ line ∈ lines, newline ∉ line) {tail : Bytes}
    (htail : newline ∉ tail) : frames (joined lines ++ tail) = lines := by
  induction lines with
  | nil => exact frames_tail htail
  | cons line lines ih =>
    rw [joined_cons, List.append_assoc, List.cons_append, frames_line (h line List.mem_cons_self),
      ih fun l hl => h l (List.mem_cons_of_mem _ hl)]

/-- How many lines end, their newlines included, within the first bytes. -/
@[grind =] def endingWithin : ℕ → List Bytes → ℕ
  | _, [] => 0
  | k, line :: lines =>
    if line.length + 1 ≤ k then endingWithin (k - (line.length + 1)) lines + 1 else 0

theorem endingWithin_le (k : ℕ) (lines : List Bytes) : endingWithin k lines ≤ lines.length := by
  induction lines generalizing k with
  | nil => simp [endingWithin]
  | cons line lines ih =>
    have h := ih (k - (line.length + 1))
    simp only [endingWithin, List.length_cons]
    split <;> omega

/-- **A cut.** The first bytes are the lines that end within them and an unfinished line. -/
theorem take_joined {lines : List Bytes} (h : ∀ line ∈ lines, newline ∉ line) (k : ℕ) :
    ∃ tail, newline ∉ tail ∧
      (joined lines).take k = joined (lines.take (endingWithin k lines)) ++ tail := by
  induction lines generalizing k with
  | nil => exact ⟨[], by simp, by simp [endingWithin]⟩
  | cons line lines ih =>
    by_cases hk : line.length + 1 ≤ k
    · obtain ⟨tail, htail, htake⟩ := ih (fun l hl => h l (List.mem_cons_of_mem _ hl))
        (k - (line.length + 1))
      refine ⟨tail, htail, ?_⟩
      have hsplit : line ++ newline :: joined lines = (line ++ [newline]) ++ joined lines := by simp
      have hlen : (line ++ [newline]).length = line.length + 1 := by simp
      rw [endingWithin, if_pos hk, List.take_succ_cons, joined_cons, joined_cons, hsplit,
        List.take_append, hlen, htake, List.take_of_length_le (by omega)]
      simp
    · refine ⟨line.take k, fun hmem => h line List.mem_cons_self (List.mem_of_mem_take hmem), ?_⟩
      rw [endingWithin, if_neg hk, joined_cons, List.take_append_of_le_length (by omega)]
      simp

/-! ## What was written -/

namespace Record

@[simp]
theorem kind_setAttributes (record : Record) (attributes : Attributes) :
    (record.setAttributes attributes).kind = record.kind := by
  cases record <;> rfl

@[simp]
theorem seq_setAttributes (record : Record) (attributes : Attributes) :
    (record.setAttributes attributes).seq = record.seq := by
  cases record <;> rfl

@[simp]
theorem validate_setAttributes (record : Record) (attributes : Attributes) :
    (record.setAttributes attributes).validate = record.validate := by
  cases record <;> rfl

theorem attributes?_setAttributes {record : Record} {old : Attributes}
    (h : record.attributes? = some old) (attributes : Attributes) :
    (record.setAttributes attributes).attributes? = some attributes := by
  cases record <;> first | rfl | simp [attributes?] at h

/-- What stays the same of a record when its attributes are bounded. -/
structure Keeps (record written : Record) : Prop where
  kind : written.kind = record.kind
  seq : written.seq = record.seq
  validate : written.validate = record.validate

end Record

/-- The attributes are flat. -/
def Attributes.AllFlat (attributes : Attributes) : Prop :=
  ∀ member ∈ attributes.members, Flat member.2

namespace Attributes

theorem AllFlat.shiftRemove {attributes : Attributes} (h : attributes.AllFlat) (name : String) :
    (attributes.shiftRemove name).AllFlat := fun member hmember =>
  h member (List.mem_filter.mp hmember).1

theorem AllFlat.insert {attributes : Attributes} (h : attributes.AllFlat) (name : String)
    {value : Json.Value} (hvalue : Flat value) : (attributes.insert name value).AllFlat := by
  intro member hmember
  simp only [Attributes.insert] at hmember
  split at hmember
  · obtain ⟨old, hold, rfl⟩ := List.mem_map.mp hmember
    by_cases hname : old.1 = name
    · simpa [hname] using hvalue
    · simpa [hname] using h old hold
  · rcases List.mem_append.mp hmember with hold | hnew
    · exact h member hold
    · rw [List.mem_singleton.mp hnew]
      exact hvalue

theorem flat_count (count : UInt64) : Flat (.int count.toNat) := by
  have h := count.toNat_lt
  exact .int _ (by omega) (by exact_mod_cast h)

theorem AllFlat.addCounters {attributes : Attributes} (h : attributes.AllFlat)
    (counters : Counters) : (Codec.addCounters attributes counters).AllFlat := by
  have hstep : ∀ {attributes : Attributes}, attributes.AllFlat → ∀ (name : String)
      (count : UInt64),
      (if count > 0 then attributes.insert name (.int count.toNat) else attributes).AllFlat := by
    intro attributes h name count
    split
    · exact h.insert name (flat_count count)
    · exact h
  exact hstep (hstep (hstep h _ _) _ _) _ _

end Attributes

namespace Codec

variable {C : Codec}

/-- Bounding only takes attributes away. -/
theorem shrink_flat {record : Record} {attributes : Attributes} {dropped : UInt64}
    {found : Attributes × UInt64} (h : C.shrink record attributes dropped = some found)
    (hflat : attributes.AllFlat) : found.1.AllFlat := by
  induction attributes, dropped using Codec.shrink.induct C record with
  | case1 attributes dropped hfits =>
    rw [shrink, if_pos hfits, Option.some.injEq] at h
    exact h ▸ hflat
  | case2 attributes dropped hfits hnone =>
    rw [shrink, if_neg hfits] at h
    split at h
    · simp at h
    · next hsome => simp [hnone] at hsome
  | case3 attributes dropped hfits last hlast ih =>
    rw [shrink, if_neg hfits] at h
    split at h
    · simp at h
    · next other hother =>
      obtain rfl : other = last := by simpa [hlast] using hother.symm
      exact ih h (hflat.shiftRemove _)

/-- **A written line**: the text of the record as it was bounded, within the record bound. -/
theorem encode_eq_some {record written : Record} {counters : Counters} {line : Bytes}
    (h : C.encode record counters = some (written, line)) :
    line = C.toVec written ∧ line.length ≤ recordMaxBytes ∧ record.Keeps written ∧
      (record.Plain → written.Plain) := by
  unfold encode at h
  split at h
  · next hfits =>
    obtain ⟨rfl, rfl⟩ := Prod.mk.inj (Option.some.inj h)
    exact ⟨rfl, hfits.1, ⟨rfl, rfl, rfl⟩, id⟩
  split at h
  · next attributes hattributes =>
    obtain ⟨⟨kept, dropped⟩, hshrink, h⟩ := Option.bind_eq_some_iff.mp h
    simp only [Option.ite_none_right_eq_some, Option.some.injEq, Prod.mk.injEq] at h
    obtain ⟨hlen, rfl, rfl⟩ := h
    refine ⟨rfl, hlen, ⟨by simp, by simp, by simp⟩, fun hplain => ⟨?_, ?_⟩⟩
    · intro header hheader
      have hnone := Record.attributes?_setAttributes hattributes
        (addCounters kept { counters with dropped })
      rw [hheader] at hnone
      cases hnone
    · intro found hfound
      rw [Record.attributes?_setAttributes hattributes, Option.some.injEq] at hfound
      have hbare : attributes.AllFlat := hplain.flat attributes hattributes
      have hkept : kept.AllFlat := shrink_flat hshrink
        (((hbare.shiftRemove _).shiftRemove _).shiftRemove _)
      exact hfound ▸ hkept.addCounters _
  · simp only [Option.ite_none_right_eq_some, Option.some.injEq, Prod.mk.injEq] at h
    obtain ⟨hlen, rfl, rfl⟩ := h
    exact ⟨rfl, hlen, ⟨rfl, rfl, rfl⟩, id⟩

theorem toVec_lines (hC : C.Lawful) (record : Record) : newline ∉ C.toVec record :=
  Json.print_lines hC.oneLine record.toJson

/-- **A line is read back** when it was written of a valid record without doubles. -/
theorem parseLine_toVec (hC : C.Lawful) {record : Record} (hplain : record.Plain)
    (hvalid : record.validate = .ok ()) (hlen : (C.toVec record).length ≤ recordMaxBytes) :
    C.parseLine (C.toVec record) = .ok record := by
  rw [parseLine, if_neg (by omega), hC.roundTrip record hplain]
  simp [hvalid, ok_bind, pure, Except.pure]

end Codec

/-! ## The order of a segment -/

/-- Each record may follow the one before it. -/
def Chain : Option Position → List Record → Prop
  | _, [] => True
  | last, record :: records => follows last record = true ∧ Chain (some record.position) records

/-- Where a scan stands past the records. -/
def positionAfter (last : Option Position) (records : List Record) : Option Position :=
  (records.getLast?.map Record.position).or last

@[simp]
theorem positionAfter_nil (last : Option Position) : positionAfter last [] = last := rfl

@[simp]
theorem positionAfter_cons (last : Option Position) (record : Record) (records : List Record) :
    positionAfter last (record :: records) = positionAfter (some record.position) records := by
  cases records with
  | nil => rfl
  | cons next records => simp [positionAfter, List.getLast?_cons]

theorem chain_append {last : Option Position} {a b : List Record} :
    Chain last (a ++ b) ↔ Chain last a ∧ Chain (positionAfter last a) b := by
  induction a generalizing last with
  | nil => simp [Chain]
  | cons record a ih =>
    rw [List.cons_append, Chain, Chain, ih, positionAfter_cons, and_assoc]

/-- The records of a segment in order: the header first, at sequence one, and only there, the
sequences strictly increasing, and nothing after a seal. -/
structure InOrder (records : List Record) : Prop where
  header : ∀ record ∈ records.head?, record.kind = .segment ∧ record.seq = 1
  once : ∀ record ∈ records.tail, record.kind ≠ .segment
  increasing : (records.map Record.seq).Pairwise (· < ·)
  sealedLast : ∀ record ∈ records.dropLast, record.isSeal = false

/-- Past the header, what follows is judged by the record before it. -/
theorem chain_tail {first : Record} {records : List Record}
    (hkind : ∀ record ∈ records, record.kind ≠ .segment)
    (hseq : ((first :: records).map Record.seq).Pairwise (· < ·))
    (hseal : ∀ record ∈ (first :: records).dropLast, record.isSeal = false) :
    Chain (some first.position) records := by
  induction records generalizing first with
  | nil => trivial
  | cons next records ih =>
    have hlt : first.seq < next.seq :=
      (List.pairwise_cons.mp hseq).1 next.seq (by simp)
    have hopen : first.isSeal = false := hseal first (by simp)
    refine ⟨?_, ih (fun r hr => hkind r (List.mem_cons_of_mem _ hr))
      (List.pairwise_cons.mp hseq).2 fun r hr => hseal r (by simp [hr])⟩
    simp [follows, Record.position, hopen, hkind next List.mem_cons_self, hlt]

theorem InOrder.chain {records : List Record} (h : InOrder records) : Chain none records := by
  cases records with
  | nil => trivial
  | cons first records =>
    have hfirst := h.header first rfl
    refine ⟨?_, chain_tail h.once h.increasing h.sealedLast⟩
    simp [follows, hfirst]

/-! ## Scanning what was written -/

namespace Codec

variable {C : Codec}

/-- Lines that are read as these records. -/
def Reads (C : Codec) : List Bytes → List Record → Prop :=
  List.Forall₂ fun line record => C.parseLine line = .ok record

/-- **The loop over lines that are read** in order keeps them all. -/
theorem scanLines_of_reads {last : Option Position} {lines : List Bytes} {records : List Record}
    (hread : C.Reads lines records) (hchain : Chain last records) :
    C.scanLines last lines = ⟨records, (joined lines).length, none, []⟩ := by
  induction hread generalizing last with
  | nil => rfl
  | cons hline _ ih =>
    obtain ⟨hfollows, hrest⟩ := hchain
    simp only [scanLines, hline, hfollows, if_true, ih hrest]
    simp [Stopped.keep]
    omega

/-- **A scan** of lines that are read in order and an unfinished one keeps the lines. -/
theorem scanFrom_of_reads {bytes : Bytes} {start : ℕ} {previous : Option Position}
    {lines : List Bytes} {records : List Record} (hstart : start ≤ bytes.length)
    (hframes : frames (bytes.drop start) = lines) (hread : C.Reads lines records)
    (hchain : Chain previous records) :
    C.scanFrom bytes start previous =
      ⟨records, start + (joined lines).length, bytes.length - (start + (joined lines).length), false,
        none⟩ := by
  simp [scanFrom, Nat.min_eq_left hstart, hframes, scanLines_of_reads hread hchain]

/-- **Lines read in order, and an unfinished one**, are scanned to the end of the lines. -/
theorem scan_joined {lines : List Bytes} {records : List Record} {tail : Bytes}
    (hlines : ∀ line ∈ lines, newline ∉ line) (htail : newline ∉ tail)
    (hread : C.Reads lines records) (hchain : Chain none records) :
    C.scan (joined lines ++ tail) = ⟨records, (joined lines).length, tail.length, false, none⟩ := by
  have hframes : frames ((joined lines ++ tail).drop 0) = lines := frames_joined hlines htail
  rw [scan, scanFrom_of_reads (Nat.zero_le _) hframes hread hchain]
  simp

end Codec

/-- The records whose lines end, their newlines included, within the first bytes. -/
def recordsWithin (k : ℕ) (out : List (Record × Bytes)) : List Record :=
  (out.take (endingWithin k (out.map Prod.snd))).map Prod.fst

theorem Record.isSeal_eq (record : Record) : record.isSeal = decide (record.kind = .seal) := by
  cases record <;> rfl

/-- The order of records is that of their kinds and sequences. -/
theorem Chain.keeps {last : Option Position} {records written : List Record}
    (h : Chain last records) (hkeeps : List.Forall₂ Record.Keeps records written) :
    Chain last written := by
  induction hkeeps generalizing last with
  | nil => trivial
  | @cons record other _ _ hkeep _ ih =>
    obtain ⟨hfollows, hrest⟩ := h
    have hsame : record.position = other.position := by
      rw [Record.position, Record.position, hkeep.seq, Record.isSeal_eq, Record.isSeal_eq,
        hkeep.kind]
    refine ⟨?_, ih (hsame ▸ hrest)⟩
    cases last <;> simpa [follows, hkeep.kind, hkeep.seq] using hfollows

/-- What encoding valid records without doubles wrote: lines that are read back as the records
written, in the order of the records given. -/
theorem written_lines {C : Codec} (hC : C.Lawful) {inputs : List (Record × Counters)}
    {out : List (Record × Bytes)}
    (hencode : List.Forall₂ (fun input o => C.encode input.1 input.2 = some o) inputs out)
    (hvalid : ∀ input ∈ inputs, input.1.validate = .ok () ∧ input.1.Plain) :
    List.Forall₂ Record.Keeps (inputs.map Prod.fst) (out.map Prod.fst) ∧
      C.Reads (out.map Prod.snd) (out.map Prod.fst) ∧
      ∀ line ∈ out.map Prod.snd, newline ∉ line := by
  induction hencode with
  | nil => exact ⟨.nil, .nil, by simp⟩
  | @cons input o inputs out hwritten _ ih =>
    obtain ⟨hkeeps, hread, hclean⟩ := ih fun i hi => hvalid i (List.mem_cons_of_mem _ hi)
    obtain ⟨hok, hplain⟩ := hvalid input List.mem_cons_self
    obtain ⟨hline, hlen, hkeep, hstill⟩ := Codec.encode_eq_some hwritten
    have hparse : C.parseLine o.2 = .ok o.1 := by
      rw [hline] at hlen ⊢
      exact Codec.parseLine_toVec hC (hstill hplain) (hkeep.validate.trans hok) hlen
    exact ⟨.cons hkeep hkeeps, .cons hparse hread,
      List.forall_mem_cons.mpr ⟨hline ▸ Codec.toVec_lines hC o.1, hclean⟩⟩

/-- **Torn segments.** Valid records without doubles in the order of a segment, each encoded, its
line ended by a newline: the scan returns exactly the records written, whole; and whatever first
bytes are left, it returns those whose lines end within them, without interior corruption, and
the scan from where it stopped returns the rest. -/
theorem scan_written (C : Codec) (hC : C.Lawful) (inputs : List (Record × Counters))
    (out : List (Record × Bytes))
    (hencode : List.Forall₂ (fun input o => C.encode input.1 input.2 = some o) inputs out)
    (hvalid : ∀ input ∈ inputs, input.1.validate = .ok () ∧ input.1.Plain)
    (horder : InOrder (inputs.map Prod.fst)) :
    let bytes := joined (out.map Prod.snd)
    C.scan bytes = ⟨out.map Prod.fst, bytes.length, 0, false, none⟩ ∧
      ∀ k, let found := C.scan (bytes.take k)
        found.records = recordsWithin k out ∧ found.interiorCorruption = false ∧
        C.scanFrom bytes found.keptBytes (positionAfter none found.records) =
          ⟨(out.map Prod.fst).drop found.records.length, bytes.length, 0, false, none⟩ := by
  intro bytes
  obtain ⟨hkeeps, hread, hclean⟩ := written_lines hC hencode hvalid
  have hchain : Chain none (out.map Prod.fst) := horder.chain.keeps hkeeps
  -- the lines from any line boundary on
  have hrest : ∀ n, C.scanFrom bytes (joined ((out.take n).map Prod.snd)).length
      (positionAfter none ((out.take n).map Prod.fst)) =
        ⟨(out.drop n).map Prod.fst, bytes.length, 0, false, none⟩ := by
    intro n
    have hbytes : bytes = joined ((out.take n).map Prod.snd) ++
        joined ((out.drop n).map Prod.snd) := by
      rw [← joined_append, ← List.map_append, List.take_append_drop]
    have hchain' : Chain (positionAfter none ((out.take n).map Prod.fst))
        ((out.drop n).map Prod.fst) := by
      rw [← List.take_append_drop n out, List.map_append, chain_append] at hchain
      exact hchain.2
    have hframes : frames (bytes.drop (joined ((out.take n).map Prod.snd)).length) =
        (out.drop n).map Prod.snd := by
      rw [hbytes, List.drop_left]
      have hlater : ∀ line ∈ (out.drop n).map Prod.snd, newline ∉ line := fun line hline =>
        hclean line (List.map_subset _ (List.drop_subset n out) hline)
      simpa using frames_joined hlater List.not_mem_nil
    have hlen := congrArg List.length hbytes
    rw [List.length_append] at hlen
    have hread' : C.Reads ((out.drop n).map Prod.snd) ((out.drop n).map Prod.fst) := by
      rw [List.map_drop, List.map_drop]
      exact List.forall₂_drop n hread
    rw [Codec.scanFrom_of_reads (by omega) hframes hread' hchain', ← hlen, Nat.sub_self]
  refine ⟨hrest 0, fun k => ?_⟩
  obtain ⟨tail, htail, htake⟩ := take_joined hclean k
  set n := endingWithin k (out.map Prod.snd) with hn
  rw [← List.map_take] at htake
  have hchain' : Chain none ((out.take n).map Prod.fst) := by
    rw [← List.take_append_drop n out, List.map_append, chain_append] at hchain
    exact hchain.1
  have hread' : C.Reads ((out.take n).map Prod.snd) ((out.take n).map Prod.fst) := by
    rw [List.map_take, List.map_take]
    exact List.forall₂_take n hread
  have hfound : C.scan (bytes.take k) = ⟨(out.take n).map Prod.fst,
      (joined ((out.take n).map Prod.snd)).length, tail.length, false, none⟩ := by
    rw [htake]
    exact Codec.scan_joined (fun line hline =>
      hclean line (List.map_subset _ (List.take_subset n out) hline)) htail hread' hchain'
  have hcount : ((out.take n).map Prod.fst).length = n := by
    have hle := endingWithin_le k (out.map Prod.snd)
    rw [List.length_map] at hle
    simp
    omega
  simp only [hfound]
  refine ⟨rfl, trivial, ?_⟩
  rw [hrest n, hcount, List.map_drop]

/-- A segment of four records. -/
theorem scan_written_sample :
    (canonical.scan (joined (sampleRecords.map canonical.toVec))).records = sampleRecords := by
  have hencode : ∀ record ∈ sampleRecords,
      canonical.encode record ⟨0, 0, 0⟩ = some (record, canonical.toVec record) :=
    fun record hrecord => if_pos ⟨sampleRecords_length record hrecord, rfl⟩
  have hwritten := (scan_written canonical canonical_lawful
    (sampleRecords.map fun record => (record, ⟨0, 0, 0⟩))
    (sampleRecords.map fun record => (record, canonical.toVec record))
    (by
      rw [List.forall₂_map_left_iff, List.forall₂_map_right_iff, List.forall₂_same]
      exact hencode)
    (by
      intro input hinput
      obtain ⟨record, hrecord, rfl⟩ := List.mem_map.mp hinput
      exact ⟨sampleRecords_valid record hrecord, sampleRecords_plain record hrecord⟩)
    ⟨by decide, by decide, by decide, by decide⟩).1
  simpa [Function.comp_def] using congrArg Prefix.records hwritten

end Telemetry

end Afactory
