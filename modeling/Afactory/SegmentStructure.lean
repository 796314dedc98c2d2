import Mathlib
import Afactory.Checks
import Afactory.SegmentScan

/-!
# What housekeeping sees

The two readers of a segment side by side: the scan, which decodes every line, and `structure'`,
which decodes five kinds; the whole sealed segment, and its first and last line alone.

* `Produced`: the lines of a segment, those `encode` or a recovery wrote, and those damaged past
  their envelope;
* `envelope_of_parseLine`: a produced line the scan reads has the envelope of its record;
* `structureLines_sees`: one line after the other, housekeeping keeps what the scan keeps;
* `scanLines_spec`: what the scan keeps of any lines;
* `sealedFrame_eq`: the first and the last line of a stream, however it is cut into chunks.
-/

namespace Afactory

namespace Telemetry

open Json (Bytes newline)

/-! ## Envelopes -/

theorem find?_unique {α : Type} {p : α → Bool} {a : α} {l : List α} (hmem : a ∈ l) (ha : p a)
    (h : ∀ b, p b → b = a) : l.find? p = some a := by
  cases hfind : l.find? p with
  | none => exact absurd ha (by simpa using List.find?_eq_none.mp hfind a hmem)
  | some b => rw [h b (List.find?_some hfind)]

/-- A kind is found by its name and the mark after it. -/
theorem find_kind (kind : Kind) (rest : Bytes) :
    (Kind.all.find? fun k =>
      (Json.strip (Json.utf8 k.text) (Json.utf8 kind.text ++ (Json.utf8 "\",\"seq\":" ++ rest))).any
        fun after => (Json.strip (Json.utf8 "\",\"seq\":") after).isSome) = some kind := by
  refine find?_unique (Kind.mem_all kind) (by simp) fun other hother => ?_
  obtain ⟨after, hafter, hsome⟩ := (Option.any_eq_true _ _).mp hother
  obtain ⟨more, hmore⟩ := Option.isSome_iff_exists.mp hsome
  have htext := Json.strip_eq_some.mp hafter
  obtain ⟨-, -, -, hseq, -⟩ := envelope_texts
  rw [Json.strip_eq_some.mp hmore, hseq] at htext
  simp only [List.cons_append] at htext
  obtain ⟨hsame, -⟩ := Json.append_mark_inj (quoteMark_notMem kind) (quoteMark_notMem other) htext
  exact (Kind.text_inj (Json.utf8_inj hsame)).symm

/-- **An envelope is read back**, whatever follows it. -/
theorem envelope_envelopeText {kind : Kind} {seq : UInt64} (hseq : seq ≠ 0) {junk : Bytes}
    (hlen : (envelopeText kind seq.toNat ++ junk).length ≤ recordMaxBytes) :
    envelope (envelopeText kind seq.toNat ++ junk) = .ok (kind, seq) := by
  have hpos : 0 < seq.toNat := Nat.pos_of_ne_zero fun h => hseq (UInt64.toNat_inj.mp h)
  have hbound : seq.toNat < u64Bound := seq.toNat_lt
  obtain ⟨-, -, -, -, hcomma, hmark, -⟩ := envelope_texts
  -- the digits end at the comma before the schema
  have hdigits : ∀ rest, (Json.decimal seq.toNat ++ (Json.utf8 ",\"schema\":" ++ rest)).takeWhile
      Json.isDigit = Json.decimal seq.toNat := by
    intro rest
    refine Json.takeWhile_decimal ?_
    rw [hcomma]
    rintro b hb
    obtain rfl : Json.comma = b := Option.some.inj hb
    decide
  have hnumber : ¬ (Json.decimal seq.toNat = [] ∨
      ((Json.decimal seq.toNat).length ≠ 1 ∧ (Json.decimal seq.toNat).head? = some 48) ∨
      u64Bound ≤ Json.value (Json.decimal seq.toNat) ∨
      Json.value (Json.decimal seq.toNat) = 0) := by
    rw [Json.value_decimal]
    rintro (h | ⟨-, h⟩ | h | h)
    · exact Json.decimal_ne_nil _ h
    · exact Json.decimal_canonical hpos h
    · omega
    · omega
  have hschema : Json.strip (Json.utf8 ",\"schema\":\"") (Json.utf8 ",\"schema\":" ++
      (Json.quote kind.schema ++ junk)) = some (Json.utf8 kind.schema ++ (Json.quoteMark :: junk)) := by
    rw [Json.strip_eq_some, hmark, (kind_texts kind).2.1]
    simp
  have hline : envelopeText kind seq.toNat ++ junk = Json.utf8 "\x7b\"t\":\"" ++
      (Json.utf8 kind.text ++ (Json.utf8 "\",\"seq\":" ++ (Json.decimal seq.toNat ++
        (Json.utf8 ",\"schema\":" ++ (Json.quote kind.schema ++ junk))))) := by
    simp [envelopeText, headText]
  rw [envelope, if_neg (by omega), hline]
  simp only [Json.strip_append, Option.elim_some, ok_bind, find_kind]
  rw [← List.append_assoc (Json.utf8 kind.text), List.drop_left, hdigits, if_neg hnumber,
    List.drop_left, hschema, Json.value_decimal]
  simp [ok_bind, pure, Except.pure]

/-- `Produced`: a line `encode` wrote, a line a recovery wrote, or a line of a kind housekeeping
does not decode, damaged past its envelope. -/
inductive Produced (C : Codec) : Bytes → Prop where
  | encoded {record written : Record} {counters : Counters} {line : Bytes}
      (h : C.encode record counters = some (written, line)) : Produced C line
  | recovered (record : Record) : Produced C (C.toVec record)
  | damaged {kind : Kind} {seq : ℕ} {payload junk : Bytes} (hkind : kind.structural = false)
      (hjunk : newline ∉ junk) (h : Produced C (envelopeText kind seq ++ payload)) :
      Produced C (envelopeText kind seq ++ junk)

/-- A produced line begins with a kind, a sequence and a schema, and is one line. -/
theorem Produced.head {C : Codec} (hC : C.Lawful) {line : Bytes} (h : Produced C line) :
    newline ∉ line ∧ ∃ kind seq schema rest,
      line = headText kind seq ++ (Json.quote schema ++ rest) := by
  induction h with
  | encoded h =>
    obtain ⟨rfl, -⟩ := Codec.encode_eq_some h
    obtain ⟨rest, hrest⟩ := toVec_head C _
    exact ⟨Codec.toVec_lines hC _, _, _, _, _, hrest⟩
  | recovered record =>
    obtain ⟨rest, hrest⟩ := toVec_head C record
    exact ⟨Codec.toVec_lines hC record, _, _, _, _, hrest⟩
  | @damaged kind seq payload junk hkind hjunk _ ih =>
    refine ⟨?_, kind, seq, kind.schema, junk, by rw [envelopeText, List.append_assoc]⟩
    have henvelope : newline ∉ envelopeText kind seq := fun hmem =>
      ih.1 (List.mem_append_left payload hmem)
    simp [henvelope, hjunk]

/-- **A line that is read has the envelope of its record.** -/
theorem envelope_of_parseLine {C : Codec} (hC : C.Lawful) {line : Bytes} (hline : Produced C line)
    {record : Record} (h : C.parseLine line = .ok record) :
    envelope line = .ok (record.kind, record.seq) := by
  obtain ⟨-, kind, seq, schema, rest, rfl⟩ := hline.head hC
  unfold Codec.parseLine at h
  split at h
  · cases h
  next hlen =>
  obtain ⟨found, hfound, h⟩ := bind_eq_ok.mp h
  obtain ⟨⟨⟩, hvalid, h⟩ := bind_eq_ok.mp h
  obtain rfl : found = record := Except.ok.inj h
  obtain ⟨rfl, rfl, hschema⟩ := hC.head _ _ _ _ _ hfound
  unfold Record.validate at hvalid
  split at hvalid
  · cases hvalid
  next hown =>
  split at hvalid
  · cases hvalid
  next hseq =>
  obtain rfl : schema = found.kind.schema := by
    rw [← hschema]
    exact not_not.mp hown
  rw [← List.append_assoc, ← envelopeText] at hlen ⊢
  exact envelope_envelopeText hseq (by omega)

/-! ## The two readers of a live segment -/

theorem ordered_eq_follows (last : Option Position) (record : Record) :
    ordered last record.kind record.seq = follows last record := by
  cases last <;> rfl

/-- **Line by line**, housekeeping keeps what the scan keeps, and the stored occurrences of it. -/
theorem structureLines_sees {C : Codec} (hC : C.Lawful) {lines : List Bytes}
    (h : ∀ line ∈ lines, Produced C line) (last : Option Position) :
    (C.scanLines last lines).kept ≤ (C.structureLines last lines).kept ∧
      ((C.scanLines last lines).records.filterMap storedDigest?) ⊆
        (C.structureLines last lines).records.filterMap storedDigest? := by
  induction lines generalizing last with
  | nil => exact ⟨le_rfl, List.Subset.refl _⟩
  | cons line lines ih =>
    simp only [Codec.scanLines]
    split
    · next record hrecord =>
      split
      · next hfollows =>
        have henvelope := envelope_of_parseLine hC (h line List.mem_cons_self) hrecord
        obtain ⟨hkept, hsees⟩ := ih (fun l hl => h l (List.mem_cons_of_mem _ hl))
          (some record.position)
        have hposition : (⟨record.seq, decide (record.kind = .seal)⟩ : Position) =
            record.position := by
          rw [Record.position, Record.isSeal_eq]
        simp only [Codec.structureLines, henvelope, ordered_eq_follows, hfollows, hrecord,
          hposition, Bool.not_true, Bool.false_eq_true, if_false, and_self, if_true]
        split
        · simp only [Stopped.keep, List.singleton_append]
          refine ⟨by omega, ?_⟩
          rw [List.filterMap_cons, List.filterMap_cons]
          split
          · exact hsees
          · exact List.cons_subset_cons _ hsees
        · next hkind =>
          have hnone : storedDigest? record = none := by
            cases record <;> first | rfl | exact absurd rfl hkind
          simp only [Stopped.keep, List.singleton_append, List.nil_append, List.filterMap_cons,
            hnone]
          exact ⟨by omega, hsees⟩
      · exact ⟨Nat.zero_le _, List.nil_subset _⟩
    · exact ⟨Nat.zero_le _, List.nil_subset _⟩

/-! ## What the scan keeps -/

namespace Codec

variable (C : Codec)

/-- **What a scan keeps**: the first lines, each read, its records in order; every line when it
stopped at the end. -/
theorem scanLines_spec (last : Option Position) (lines : List Bytes) :
    ∃ kept more, lines = kept ++ more ∧
      C.Reads kept (C.scanLines last lines).records ∧
      Chain last (C.scanLines last lines).records ∧
      (C.scanLines last lines).kept = (joined kept).length ∧
      (C.scanLines last lines).after = more.tail := by
  induction lines generalizing last with
  | nil => exact ⟨[], [], rfl, .nil, trivial, rfl, rfl⟩
  | cons line lines ih =>
    simp only [scanLines]
    split
    · next record hrecord =>
      split
      · next hfollows =>
        obtain ⟨kept, more, rfl, hread, hchain, hkept, hafter⟩ := ih (some record.position)
        refine ⟨line :: kept, more, rfl, .cons hrecord hread, ⟨hfollows, hchain⟩, ?_, hafter⟩
        simp only [Stopped.keep, joined_cons, List.length_append, List.length_cons, hkept]
        omega
      · exact ⟨[], line :: lines, rfl, .nil, trivial, rfl, rfl⟩
    · exact ⟨[], line :: lines, rfl, .nil, trivial, rfl, rfl⟩

end Codec

/-- **Lines and the rest.** Bytes are complete lines and an unfinished one. -/
theorem exists_lines (bytes : Bytes) :
    ∃ lines tail, bytes = joined lines ++ tail ∧ (∀ line ∈ lines, newline ∉ line) ∧
      newline ∉ tail := by
  induction bytes with
  | nil => exact ⟨[], [], rfl, by simp, by simp⟩
  | cons b bytes ih =>
    obtain ⟨lines, tail, rfl, hlines, htail⟩ := ih
    by_cases hb : b = newline
    · subst hb
      exact ⟨[] :: lines, tail, by simp, by simpa using hlines, htail⟩
    · cases lines with
      | nil => exact ⟨[], b :: tail, by simp, by simp, by simp [htail, Ne.symm hb]⟩
      | cons line lines =>
        refine ⟨(b :: line) :: lines, tail, by simp, ?_, htail⟩
        obtain ⟨hline, hlines⟩ := List.forall_mem_cons.mp hlines
        refine List.forall_mem_cons.mpr ⟨?_, hlines⟩
        rw [List.mem_cons, not_or]
        exact ⟨Ne.symm hb, hline⟩

/-- A sealed segment is scanned whole, and its last record is the seal. -/
theorem sealedRecords_eq_ok {C : Codec} {path : String} {bytes : Bytes} {records : List Record} :
    C.sealedRecords path bytes = .ok records ↔
      bytes.length ≤ segmentMaxBytesBound ∧ (C.scan bytes).discardedBytes = 0 ∧
        (C.scan bytes).sealed = true ∧ (C.scan bytes).records = records := by
  unfold Codec.sealedRecords readAtMost
  by_cases hbound : bytes.length > segmentMaxBytesBound
  · simp [hbound, Except.mapError, error_bind]
  · by_cases hwhole : 0 < (C.scan bytes).discardedBytes ∨ !(C.scan bytes).sealed
    · simp only [hbound, if_false, Except.mapError, ok_bind, hwhole, if_true]
      refine ⟨nofun, fun ⟨_, hdiscarded, hsealed, _⟩ => ?_⟩
      simp [hdiscarded, hsealed] at hwhole
    · simp only [hbound, if_false, Except.mapError, ok_bind, hwhole, pure, Except.pure,
        Except.ok.injEq]
      simp only [not_or, not_lt, Nat.le_zero, Bool.not_eq_true, Bool.not_eq_false'] at hwhole
      exact ⟨fun h => ⟨by omega, hwhole.1, hwhole.2, h⟩, fun h => h.2.2.2⟩

/-- **Nothing is discarded** of bytes that are lines, each read, and nothing after them. -/
theorem discarded_eq_zero {C : Codec} {bytes : Bytes} :
    (C.scan bytes).discardedBytes = 0 ↔
      ∃ lines, bytes = joined lines ∧ (∀ line ∈ lines, newline ∉ line) ∧
        C.Reads lines (C.scan bytes).records ∧ Chain none (C.scan bytes).records := by
  constructor
  · intro hzero
    obtain ⟨lines, tail, hsplit, hlines, htail⟩ := exists_lines bytes
    obtain ⟨kept, more, rfl, hread, hchain, hkept, -⟩ := C.scanLines_spec none lines
    have hframes : frames bytes = kept ++ more := hsplit ▸ frames_joined hlines htail
    have hrecords : (C.scan bytes).records = (C.scanLines none (kept ++ more)).records := by
      simp [Codec.scan, Codec.scanFrom, hframes]
    have hdiscarded : (C.scan bytes).discardedBytes = bytes.length - (joined kept).length := by
      simp [Codec.scan, Codec.scanFrom, hframes, hkept]
    -- nothing is left after the lines kept
    have hlen := congrArg List.length hsplit
    rw [joined_append, List.length_append, List.length_append] at hlen
    have hmore : more = [] := by
      cases more with
      | nil => rfl
      | cons line more =>
        rw [joined_cons, List.length_append, List.length_cons] at hlen
        omega
    obtain rfl : tail = [] := List.eq_nil_of_length_eq_zero (by omega)
    subst hmore
    exact ⟨kept, by simpa using hsplit, by simpa using hlines, hrecords ▸ hread, hrecords ▸ hchain⟩
  · rintro ⟨lines, hbytes, hlines, hread, hchain⟩
    have hscan := Codec.scan_joined hlines List.not_mem_nil hread hchain
    rw [List.append_nil, ← hbytes] at hscan
    rw [hscan]
    rfl

/-! ## The first and the last line of a stream -/

/-- A line kept when it is within the record bound. -/
def within (line : Bytes) : Option Bytes :=
  if line.length ≤ recordMaxBytes then some line else none

/-- What is kept of complete lines and an unfinished one. -/
def windowOf (lines : List Bytes) (tail : Bytes) : Window :=
  ⟨lines.head?.map within, lines.getLast?.bind within, within tail⟩

@[simp]
theorem within_nil : within [] = some [] := rfl

theorem within_append {line piece : Bytes} :
    ((within line).bind fun line =>
      if line.length + piece.length > recordMaxBytes then none else some (line ++ piece)) =
      within (line ++ piece) := by
  unfold within
  by_cases h : line.length ≤ recordMaxBytes
  · by_cases h' : line.length + piece.length ≤ recordMaxBytes
    · simp [h, h', not_lt.mpr h']
    · simp [h, h', not_le.mp h']
  · have h' : ¬ line.length + piece.length ≤ recordMaxBytes := by omega
    simp [h, h']

/-- A piece without a newline lengthens the unfinished line. -/
theorem push_tail (lines : List Bytes) (tail piece : Bytes) :
    (windowOf lines tail).push (piece, false) = windowOf lines (tail ++ piece) := by
  simp [Window.push, windowOf, within_append]

/-- A piece with a newline ends the line. -/
theorem push_line (lines : List Bytes) (tail piece : Bytes) :
    (windowOf lines tail).push (piece, true) = windowOf (lines ++ [tail ++ piece]) [] := by
  cases lines with
  | nil => simp [Window.push, windowOf, within_append]
  | cons line lines =>
    have hlast : (line :: (lines ++ [tail ++ piece])).getLast? = some (tail ++ piece) := by
      rw [← List.cons_append, List.getLast?_concat]
    simp [Window.push, windowOf, within_append, hlast]

theorem pieces_line {piece : Bytes} (h : newline ∉ piece) (rest : Bytes) :
    pieces (piece ++ newline :: rest) = (piece, true) :: pieces rest := by
  induction piece with
  | nil => simp [pieces]
  | cons b piece ih =>
    have hb : b ≠ newline := fun heq => h (heq ▸ List.mem_cons_self)
    rw [List.cons_append, pieces, if_neg hb, ih fun hmem => h (List.mem_cons_of_mem _ hmem)]

theorem pieces_tail {b : UInt8} {piece : Bytes} (h : newline ∉ b :: piece) :
    pieces (b :: piece) = [(b :: piece, false)] := by
  induction piece generalizing b with
  | nil =>
    have hb : b ≠ newline := fun heq => h (heq ▸ List.mem_cons_self)
    rw [pieces, if_neg hb, pieces]
  | cons c piece ih =>
    have hb : b ≠ newline := fun heq => h (heq ▸ List.mem_cons_self)
    rw [pieces, if_neg hb, ih fun hmem => h (List.mem_cons_of_mem _ hmem)]

/-- **One chunk** leaves what is kept of everything read so far. -/
theorem foldl_push (lines : List Bytes) (tail bytes : Bytes) (hlines : ∀ line ∈ lines, newline ∉ line)
    (htail : newline ∉ tail) :
    ∃ lines' tail', (pieces bytes).foldl Window.push (windowOf lines tail) = windowOf lines' tail' ∧
      joined lines ++ tail ++ bytes = joined lines' ++ tail' ∧
      (∀ line ∈ lines', newline ∉ line) ∧ newline ∉ tail' := by
  obtain ⟨more, rest, rfl, hmore, hrest⟩ := exists_lines bytes
  induction more generalizing lines tail with
  | nil =>
    cases rest with
    | nil => exact ⟨lines, tail, rfl, by simp, hlines, htail⟩
    | cons b rest =>
      refine ⟨lines, tail ++ b :: rest, ?_, by simp, hlines, ?_⟩
      · rw [joined_nil, List.nil_append, pieces_tail hrest, List.foldl_cons, push_tail]
        rfl
      · simp only [List.mem_append, not_or]
        exact ⟨htail, hrest⟩
  | cons line more ih =>
    have hline : newline ∉ line := hmore line List.mem_cons_self
    obtain ⟨lines', tail', hfold, hbytes, hnew, htail'⟩ := ih (lines ++ [tail ++ line]) []
      (by
        intro l hl
        rcases List.mem_append.mp hl with hl | hl
        · exact hlines l hl
        · rw [List.mem_singleton.mp hl, List.mem_append, not_or]
          exact ⟨htail, hline⟩)
      (by simp) fun l hl => hmore l (List.mem_cons_of_mem _ hl)
    refine ⟨lines', tail', ?_, ?_, hnew, htail'⟩
    · rw [joined_cons, List.append_assoc, List.cons_append, pieces_line hline, List.foldl_cons,
        push_line, hfold]
    · rw [← hbytes, joined_append]
      simp

/-- The reads of a stream of these bytes: none fails, and no chunk is empty. -/
def Streams : List Read → Bytes → Prop
  | [], bytes => bytes = []
  | .interrupted :: reads, bytes => Streams reads bytes
  | .failed _ :: _, _ => False
  | .chunk chunk :: reads, bytes =>
    chunk ≠ [] ∧ ∃ rest, bytes = chunk ++ rest ∧ Streams reads rest

theorem streams_chunk {bytes : Bytes} (h : bytes ≠ []) : Streams [.chunk bytes] bytes :=
  ⟨h, [], by simp, rfl⟩

/-- **However the stream is cut**, what is kept of it is its first and its last line. -/
theorem readWindow_eq (path : String) {reads : List Read} {bytes : Bytes}
    (hreads : Streams reads bytes) {total : ℕ} (htotal : total + bytes.length ≤ segmentMaxBytesBound)
    {lines : List Bytes} {tail : Bytes} (hlines : ∀ line ∈ lines, newline ∉ line)
    (htail : newline ∉ tail) :
    ∃ lines' tail', readWindow path reads total (windowOf lines tail) =
        .ok (windowOf lines' tail') ∧
      joined lines ++ tail ++ bytes = joined lines' ++ tail' ∧
      (∀ line ∈ lines', newline ∉ line) ∧ newline ∉ tail' := by
  induction reads generalizing bytes total lines tail with
  | nil =>
    obtain rfl : bytes = [] := hreads
    exact ⟨lines, tail, rfl, by simp, hlines, htail⟩
  | cons read reads ih =>
    cases read with
    | interrupted => exact ih hreads htotal hlines htail
    | failed error => exact hreads.elim
    | chunk chunk =>
      obtain ⟨-, rest, rfl, hrest⟩ := hreads
      rw [List.length_append] at htotal
      obtain ⟨lines', tail', hfold, hbytes, hlines', htail'⟩ :=
        foldl_push lines tail chunk hlines htail
      obtain ⟨lines'', tail'', hread, hall, hlines'', htail''⟩ :=
        ih hrest (by omega : total + chunk.length + rest.length ≤ segmentMaxBytesBound)
          hlines' htail'
      refine ⟨lines'', tail'', ?_, ?_, hlines'', htail''⟩
      · rw [readWindow, if_neg (by omega), hfold, hread]
      · rw [← List.append_assoc, hbytes, hall]

/-- The window of a stream of complete lines. -/
theorem readWindow_joined (path : String) {reads : List Read} {lines : List Bytes}
    (hlines : ∀ line ∈ lines, newline ∉ line) (hreads : Streams reads (joined lines))
    (hbound : (joined lines).length ≤ segmentMaxBytesBound) :
    readWindow path reads 0 ⟨none, none, some []⟩ = .ok (windowOf lines []) := by
  obtain ⟨lines', tail', hread, hbytes, hlines', htail'⟩ :=
    readWindow_eq path hreads (by omega : 0 + (joined lines).length ≤ segmentMaxBytesBound)
      (by simp : ∀ line ∈ ([] : List Bytes), newline ∉ line) List.not_mem_nil
  simp only [joined_nil, List.nil_append] at hbytes
  have hsame : lines' = lines := by
    rw [← frames_joined hlines' htail', ← hbytes]
    simpa using frames_joined hlines List.not_mem_nil
  subst hsame
  obtain rfl : tail' = [] := by simpa using hbytes
  exact hread

/-- A valid timestamp is a number. -/
theorem parseU128_of_canonical {text : String} (h : isCanonicalDecimal text = true) :
    ∃ n, parseU128 text = some n := by
  simp only [isCanonicalDecimal, Bool.and_eq_true, decide_eq_true_eq] at h
  obtain ⟨⟨⟨hne, hdigits⟩, -⟩, hbound⟩ := h
  have hplus : text.toList.head? ≠ some '+' := by
    intro hhead
    have hmem : '+' ∈ text.toList := List.mem_of_head? hhead
    exact absurd (List.all_eq_true.mp hdigits '+' hmem) (by decide)
  exact ⟨_, by rw [parseU128, if_neg hplus, if_pos ⟨hne, hdigits, hbound⟩]⟩

/-- A line that is read is within the record bound, and its record is valid. -/
theorem parseLine_eq_ok {C : Codec} {line : Bytes} {record : Record} :
    C.parseLine line = .ok record ↔ line.length ≤ recordMaxBytes ∧
      C.fromSlice line = .ok record ∧ record.validate = .ok () := by
  unfold Codec.parseLine
  by_cases hlen : line.length > recordMaxBytes
  · simp [hlen]
  · rw [if_neg hlen]
    simp only [bind_eq_ok, pure, Except.pure, Except.ok.injEq]
    constructor
    · rintro ⟨found, hfound, ⟨⟩, hvalid, rfl⟩
      exact ⟨by omega, hfound, hvalid⟩
    · rintro ⟨-, hfound, hvalid⟩
      exact ⟨record, hfound, (), hvalid, rfl⟩

/-- The end of a valid seal is a number. -/
theorem parseU128_of_valid {found : Seal} (h : (Record.seal found).validate = .ok ()) :
    ∃ n, parseU128 found.endedUnixNs = some n := by
  refine parseU128_of_canonical ?_
  unfold Record.validate at h
  split at h
  · cases h
  split at h
  · cases h
  obtain ⟨⟨⟩, hdecimal, -⟩ := bind_eq_ok.mp h
  unfold checkDecimal at hdecimal
  split at hdecimal
  · assumption
  · cases hdecimal

theorem Codec.Reads.head? {C : Codec} {lines : List Bytes} {records : List Record} {record : Record}
    (h : C.Reads lines records) (hrecord : records.head? = some record) :
    ∃ line, lines.head? = some line ∧ C.parseLine line = .ok record := by
  cases h with
  | nil => simp at hrecord
  | cons hline _ =>
    obtain rfl := Option.some.inj hrecord
    exact ⟨_, rfl, hline⟩

theorem Codec.Reads.getLast? {C : Codec} {lines : List Bytes} {records : List Record}
    {record : Record} (h : C.Reads lines records) (hrecord : records.getLast? = some record) :
    ∃ line, lines.getLast? = some line ∧ C.parseLine line = .ok record := by
  have hreverse : C.Reads lines.reverse records.reverse := List.forall₂_reverse_iff.mpr h
  simpa using hreverse.head? (by simpa using hrecord)

/-- Past a record, the sequences are above its own. -/
theorem Chain.lt {previous : Position} {records : List Record}
    (h : Chain (some previous) records) : ∀ record ∈ records, previous.seq < record.seq := by
  induction records generalizing previous with
  | nil => simp
  | cons record records ih =>
    obtain ⟨hfollows, hrest⟩ := h
    have hlt : previous.seq < record.seq := by
      simp only [follows, Bool.and_eq_true, decide_eq_true_eq] at hfollows
      exact hfollows.2
    refine List.forall_mem_cons.mpr ⟨hlt, fun later hlater => ?_⟩
    have hnext : record.seq < later.seq := ih hrest later hlater
    exact UInt64.lt_trans hlt hnext

/-- The seal of a segment comes after its header. -/
theorem Chain.seal_seq {records : List Record} (h : Chain none records) {found : Seal}
    (hseal : records.getLast? = some (.seal found)) : 1 < found.seq := by
  cases records with
  | nil => simp at hseal
  | cons first records =>
    obtain ⟨hfirst, hrest⟩ := h
    simp only [follows, decide_eq_true_eq] at hfirst
    cases records with
    | nil =>
      obtain rfl : first = .seal found := by simpa using hseal
      cases hfirst.1
    | cons next records =>
      have hmem : Record.seal found ∈ next :: records := by
        refine List.mem_of_getLast? ?_
        simpa using hseal
      have hlt : first.seq < found.seq := Chain.lt hrest _ hmem
      exact hfirst.2 ▸ hlt

/-- **The first and the last line** of a stream of lines that are read decide its frame. -/
theorem sealedFrame_of_reads {C : Codec} (path segmentId : String) {lines : List Bytes}
    {records : List Record} {reads : List Read} (hread : C.Reads lines records)
    (hlines : ∀ line ∈ lines, newline ∉ line)
    (hbound : (joined lines).length ≤ segmentMaxBytesBound) (hreads : Streams reads (joined lines))
    {header : SegmentHeader} (hheader : records.head? = some (.segment header))
    {found : Seal} (hseal : records.getLast? = some (.seal found)) :
    C.sealedFrame path segmentId reads =
      (if header.seq = 1 ∧ header.segmentId = segmentId then
        if found.seq ≤ 1 ∨ found.refs ≠ segmentId ++ refsSuffix then
          .error (refused path "its seal is not its own")
        else (parseU128 found.endedUnixNs).elim
          (.error (refused path "its seal names no end time")) .ok
      else .error (refused path "its first line is not its own segment header")) := by
  have hwindow := readWindow_joined path hlines hreads hbound
  obtain ⟨first, hfirst, hfirstRead⟩ := hread.head? hheader
  obtain ⟨last, hlast, hlastRead⟩ := hread.getLast? hseal
  have hfirstLen : within first = some first := if_pos (parseLine_eq_ok.mp hfirstRead).1
  have hlastLen : within last = some last := if_pos (parseLine_eq_ok.mp hlastRead).1
  unfold Codec.sealedFrame
  rw [hwindow]
  by_cases hown : header.seq = 1 ∧ header.segmentId = segmentId
  · by_cases hrefs : found.seq ≤ 1 ∨ found.refs ≠ segmentId ++ refsSuffix
    · simp [windowOf, hfirst, hlast, hfirstLen, hlastLen, hfirstRead, hlastRead, hown, hrefs, ok_bind,
        error_bind]
    · simp [windowOf, hfirst, hlast, hfirstLen, hlastLen, hfirstRead, hlastRead, hown, hrefs, ok_bind]
  · simp [windowOf, hfirst, hlast, hfirstLen, hlastLen, hfirstRead, hown, ok_bind, error_bind]

/-- A sealed segment read whole under its own id, its seal naming its own manifest, is read by its
frame, however the stream is cut. -/
theorem sealedFrame_of_sealedRecords {C : Codec} {path segmentId : String} {bytes : Bytes}
    {records : List Record} {reads : List Read} (h : C.sealedRecords path bytes = .ok records)
    {header : SegmentHeader} (hheader : records.head? = some (.segment header))
    (hown : header.segmentId = segmentId) {found : Seal}
    (hseal : records.getLast? = some (.seal found)) (hrefs : found.refs = segmentId ++ refsSuffix)
    (hreads : Streams reads bytes) :
    ∃ ended, parseU128 found.endedUnixNs = some ended ∧
      C.sealedFrame path segmentId reads = .ok ended := by
  obtain ⟨hbound, hdiscarded, -, hrecords⟩ := sealedRecords_eq_ok.mp h
  obtain ⟨lines, rfl, hlines, hread, hchain⟩ := discarded_eq_zero.mp hdiscarded
  rw [hrecords] at hread hchain
  obtain ⟨last, -, hlastRead⟩ := hread.getLast? hseal
  obtain ⟨ended, hended⟩ := parseU128_of_valid (parseLine_eq_ok.mp hlastRead).2.2
  -- the header stands first, so its sequence is one and the seal's is above it
  have hone : header.seq = 1 := by
    cases records with
    | nil => simp at hheader
    | cons record records =>
      obtain rfl : record = .segment header := by simpa using hheader
      have hfollows := hchain.1
      simp only [follows, decide_eq_true_eq] at hfollows
      exact hfollows.2
  have hseq : ¬ found.seq ≤ 1 := UInt64.not_le.mpr (hchain.seal_seq hseal)
  refine ⟨ended, hended, ?_⟩
  rw [sealedFrame_of_reads path segmentId hread hlines hbound hreads hheader hseal,
    if_pos ⟨hone, hown⟩, if_neg (by simp [hseq, hrefs]), hended]
  rfl

/-! ## Housekeeping -/

theorem mem_referenced {records : List Record} {digest : String} :
    digest ∈ referenced records ↔ ∃ record ∈ records, storedDigest? record = some digest := by
  simp [referenced, List.mem_insertionSort]

/-- The lines of the small segment are read. -/
theorem canonical_reads {records : List Record} (hplain : ∀ record ∈ records, record.Plain)
    (hvalid : ∀ record ∈ records, record.validate = .ok ())
    (hlen : ∀ record ∈ records, (canonical.toVec record).length ≤ recordMaxBytes) :
    canonical.Reads (records.map canonical.toVec) records := by
  refine List.forall₂_map_left_iff.mpr (List.forall₂_same.mpr fun record hrecord => ?_)
  exact Codec.parseLine_toVec canonical_lawful (hplain record hrecord) (hvalid record hrecord)
    (hlen record hrecord)

/-- Lines read in order, sealed, are a sealed segment. -/
theorem canonical_sealed {records : List Record} (hchain : Chain none records)
    (hread : canonical.Reads (records.map canonical.toVec) records)
    (hseal : records.getLast?.any Record.isSeal = true)
    (hbound : (joined (records.map canonical.toVec)).length ≤ segmentMaxBytesBound) :
    (canonical.scan (joined (records.map canonical.toVec))).records = records ∧
      canonical.sealedRecords "segment" (joined (records.map canonical.toVec)) = .ok records := by
  have hclean : ∀ line ∈ records.map canonical.toVec, newline ∉ line := by
    intro line hline
    obtain ⟨record, -, rfl⟩ := List.mem_map.mp hline
    exact Codec.toVec_lines canonical_lawful record
  have hscan := Codec.scan_joined hclean List.not_mem_nil hread hchain
  rw [List.append_nil] at hscan
  refine ⟨by rw [hscan], sealedRecords_eq_ok.mpr ⟨hbound, ?_, ?_, ?_⟩⟩
  · rw [hscan]
    rfl
  · rw [hscan]
    exact hseal
  · rw [hscan]

/-- **Housekeeping sees every reference the full reader sees.** Of produced lines, cut anywhere, it
keeps at least the bytes the scan keeps and every digest the scan's records store; and a sealed
segment read whole under its own id, its seal naming its own manifest, is read by its first and
its last line, however the stream is cut, with its seal's end time. -/
theorem housekeeping_sees (C : Codec) (hC : C.Lawful) :
    (∀ lines, (∀ line ∈ lines, Produced C line) → ∀ k, let bytes := (joined lines).take k
      (C.scan bytes).keptBytes ≤ (C.structure' bytes).keptBytes ∧
        ∀ digest ∈ referenced (C.scan bytes).records,
          digest ∈ referenced (C.structure' bytes).records) ∧
    ∀ path segmentId bytes records reads found, C.sealedRecords path bytes = .ok records →
      (C.scan bytes).segmentId = some segmentId → records.getLast? = some (.seal found) →
      found.refs = segmentId ++ refsSuffix → Streams reads bytes →
        ∃ ended, parseU128 found.endedUnixNs = some ended ∧
          C.sealedFrame path segmentId reads = .ok ended := by
  refine ⟨?_, ?_⟩
  · intro lines hlines k bytes
    have hclean : ∀ line ∈ lines, newline ∉ line := fun line hline =>
      ((hlines line hline).head hC).1
    obtain ⟨tail, htail, htake⟩ := take_joined hclean k
    have hframes : frames bytes = lines.take (endingWithin k lines) := by
      rw [show bytes = _ from htake]
      exact frames_joined (fun line hline => hclean line (List.take_subset _ _ hline)) htail
    obtain ⟨hkept, hsees⟩ := structureLines_sees hC
      (fun line hline => hlines line (List.take_subset (endingWithin k lines) lines hline)) none
    rw [← hframes] at hkept hsees
    refine ⟨by simpa [Codec.scan, Codec.scanFrom, Codec.structure'] using hkept, ?_⟩
    intro digest hdigest
    obtain ⟨record, hrecord, hstored⟩ := mem_referenced.mp hdigest
    have hmem : digest ∈ (C.scanLines none (frames bytes)).records.filterMap storedDigest? :=
      List.mem_filterMap.mpr ⟨record, hrecord, hstored⟩
    obtain ⟨seen, hseen, hdigest'⟩ := List.mem_filterMap.mp (hsees hmem)
    exact mem_referenced.mpr ⟨seen, hseen, hdigest'⟩
  · intro path segmentId bytes records reads found h hown hseal hrefs hreads
    have hrecords := (sealedRecords_eq_ok.mp h).2.2.2
    obtain ⟨header, hheader, hid⟩ : ∃ header : SegmentHeader,
        records.head? = some (.segment header) ∧ header.segmentId = segmentId := by
      unfold Prefix.segmentId at hown
      rw [hrecords] at hown
      split at hown
      · next header hheader => exact ⟨header, hheader, Option.some.inj hown⟩
      · cases hown
    exact sealedFrame_of_sealedRecords h hheader hid hseal hrefs hreads

/-- The records of a short list, each within its bound, are within the bound of a segment. -/
theorem length_joined_toVec_le {records : List Record}
    (h : ∀ record ∈ records, (canonical.toVec record).length ≤ recordMaxBytes)
    (hfew : records.length ≤ 2 ^ 16) :
    (joined (records.map canonical.toVec)).length ≤ segmentMaxBytesBound := by
  have hlength : (joined (records.map canonical.toVec)).length ≤
      (records.map canonical.toVec).length * (recordMaxBytes + 1) :=
    length_joined_le fun line hline => by
      obtain ⟨record, hrecord, rfl⟩ := List.mem_map.mp hline
      exact h record hrecord
  have hmany := Nat.mul_le_mul_right (recordMaxBytes + 1) hfew
  rw [List.length_map] at hlength
  exact hlength.trans (hmany.trans (by decide))

/-- The small segment. -/
theorem housekeeping_sees_sample :
    (∀ digest ∈ referenced (canonical.scan (joined (sampleRecords.map canonical.toVec))).records,
      digest ∈ referenced
        (canonical.structure' (joined (sampleRecords.map canonical.toVec))).records) ∧
      canonical.sealedFrame "segment" "1-2-ab"
        [.chunk (joined (sampleRecords.map canonical.toVec))] = .ok 3 := by
  have hread : canonical.Reads (sampleRecords.map canonical.toVec) sampleRecords :=
    canonical_reads sampleRecords_plain sampleRecords_valid sampleRecords_length
  have hchain : Chain none sampleRecords := by
    simp only [sampleRecords, Chain]
    decide
  obtain ⟨hrecords, hsealed⟩ := canonical_sealed hchain hread rfl
    (length_joined_toVec_le sampleRecords_length (by decide))
  have hsees := housekeeping_sees canonical canonical_lawful
  refine ⟨?_, ?_⟩
  · have hproduced : ∀ line ∈ sampleRecords.map canonical.toVec, Produced canonical line := by
      intro line hline
      obtain ⟨record, -, rfl⟩ := List.mem_map.mp hline
      exact .recovered record
    have hfirst := (hsees.1 _ hproduced (joined (sampleRecords.map canonical.toVec)).length).2
    rwa [List.take_length] at hfirst
  · obtain ⟨ended, hended, hframe⟩ := hsees.2 "segment" "1-2-ab" _ sampleRecords
      [.chunk (joined (sampleRecords.map canonical.toVec))] _ hsealed
      (by rw [Prefix.segmentId, hrecords]; rfl) rfl (by decide)
      (streams_chunk (joined_cons_ne_nil _ _))
    have hthree : parseU128 "3" = some 3 := by decide
    obtain rfl : 3 = ended := Option.some.inj (hthree.symm.trans hended)
    exact hframe

/-- A segment whose seal names the manifest of another. -/
def foreignRecords : List Record := [sampleHeader, .seal {
  seq := 2, schema := Kind.seal.schema, endedUnixNs := "3", exit := .ok, spans := 0, events := 0,
  blobs := 0, dropped := some 0, droppedChunks := some 0, discardedBytes := 0,
  refs := "1-2-ac.refs" }]

theorem foreignRecords_length : ∀ record ∈ foreignRecords,
    (canonical.toVec record).length ≤ recordMaxBytes := by decide +kernel

theorem foreignRecords_reads :
    canonical.Reads (foreignRecords.map canonical.toVec) foreignRecords := by
  refine canonical_reads ?_ ?_ foreignRecords_length
  · refine List.forall_mem_cons.mpr ⟨sampleRecords_plain _ List.mem_cons_self, ?_⟩
    exact List.forall_mem_singleton.mpr ⟨nofun, nofun⟩
  · refine List.forall_mem_cons.mpr ⟨rfl, List.forall_mem_singleton.mpr rfl⟩

/-- **A seal of another manifest.** The full reader accepts the segment under its own id;
housekeeping refuses its frame. -/
theorem foreign_seal_is_read_and_refused :
    canonical.sealedRecords "segment" (joined (foreignRecords.map canonical.toVec)) =
        .ok foreignRecords ∧
      (canonical.scan (joined (foreignRecords.map canonical.toVec))).segmentId = some "1-2-ab" ∧
      canonical.sealedFrame "segment" "1-2-ab"
        [.chunk (joined (foreignRecords.map canonical.toVec))] =
          .error "segment: not a sealed segment of this release (its seal is not its own)" := by
  have hread := foreignRecords_reads
  have hchain : Chain none foreignRecords := by
    simp only [foreignRecords, Chain]
    decide
  have hbound := length_joined_toVec_le foreignRecords_length (by decide)
  obtain ⟨hrecords, hsealed⟩ := canonical_sealed hchain hread rfl hbound
  have hclean : ∀ line ∈ foreignRecords.map canonical.toVec, newline ∉ line := by
    intro line hline
    obtain ⟨record, -, rfl⟩ := List.mem_map.mp hline
    exact Codec.toVec_lines canonical_lawful record
  refine ⟨hsealed, by rw [Prefix.segmentId, hrecords]; rfl, ?_⟩
  have hreads : Streams [.chunk (joined (foreignRecords.map canonical.toVec))]
      (joined (foreignRecords.map canonical.toVec)) := streams_chunk (joined_cons_ne_nil _ _)
  have hframe := sealedFrame_of_reads "segment" "1-2-ab" hread hclean hbound hreads rfl rfl
  rw [hframe, if_pos ⟨rfl, rfl⟩, if_pos (.inr (by decide))]
  rfl

end Telemetry

end Afactory
