import Mathlib
import Afactory.DecimalDigits
import Afactory.RecordEncoding
import Afactory.SegmentRecovered
import Afactory.SegmentWriter

/-!
# The bytes a segment writer accepts

What every run of the writer's sections keeps, whichever threads they come from and in whatever
order.

* `Backed`: each digest has one object, before every stored occurrence of it;
* `Pushed`, `Accepts`: the records of a batch, and what accepting them does;
* `Accounts`: the invariant of the pending state; `Grows`: what one section does to it;
* `Holds`: the invariant of the segment with its file;
* `written_in_order`, `objects_first`, `seal_fits`: the laws of a run.
-/

namespace Afactory

namespace Telemetry

open Json (Bytes newline)

/-! ## Records at their sequence -/

namespace Record

@[simp]
theorem kind_setSeq (seq : UInt64) (record : Record) : (record.setSeq seq).kind = record.kind := by
  cases record <;> rfl

@[simp]
theorem seq_setSeq (seq : UInt64) (record : Record) : (record.setSeq seq).seq = seq := by
  cases record <;> rfl

end Record

namespace SegmentWriter

/-- The digests a record makes known: of its object, of its stored occurrence. -/
def digests (record : Record) : Option String × Option String :=
  (objectDigest? record, storedDigest? record)

@[simp]
theorem digests_setSeq (seq : UInt64) (record : Record) :
    digests (record.setSeq seq) = digests record := by
  cases record <;> rfl

@[simp]
theorem digests_setAttributes (attributes : Attributes) (record : Record) :
    digests (record.setAttributes attributes) = digests record := by
  cases record <;> rfl

theorem digests_owned {record : Record} (h : Owned record.kind = true) :
    digests record = (none, none) := by
  cases record
  case blob | blobRef => simp [Owned, Record.kind] at h
  all_goals rfl

variable {C : Codec} {o : Options}

/-- Bounding a record leaves its digests. -/
theorem digests_encode {record written : Record} {counters : Counters} {line : Bytes}
    (h : C.encode record counters = some (written, line)) : digests written = digests record := by
  unfold Codec.encode at h
  split at h
  · obtain ⟨rfl, -⟩ := Prod.mk.inj (Option.some.inj h)
    rfl
  split at h
  · obtain ⟨⟨kept, dropped⟩, -, h⟩ := Option.bind_eq_some_iff.mp h
    simp only [Option.ite_none_right_eq_some, Option.some.injEq, Prod.mk.injEq] at h
    obtain ⟨-, rfl, -⟩ := h
    exact digests_setAttributes _ _
  · simp only [Option.ite_none_right_eq_some, Option.some.injEq, Prod.mk.injEq] at h
    obtain ⟨-, rfl, -⟩ := h
    rfl

/-! ## Objects and occurrences -/

/-- Each object's digest is new where it stands, and each stored occurrence's is known there. -/
def Backed : Set String → List Record → Prop
  | _, [] => True
  | known, record :: records =>
    (∀ digest, objectDigest? record = some digest → digest ∉ known) ∧
      (∀ digest, storedDigest? record = some digest → digest ∈ known) ∧
      Backed (known ∪ {digest | objectDigest? record = some digest}) records

/-- The digests of the objects among the records. -/
def objects (records : List Record) : Set String :=
  {digest | some digest ∈ records.map objectDigest?}

theorem objects_append (a b : List Record) : objects (a ++ b) = objects a ∪ objects b := by
  ext digest
  simp [objects]

theorem objects_cons (record : Record) (records : List Record) :
    objects (record :: records) =
      {digest | objectDigest? record = some digest} ∪ objects records := by
  ext digest
  simp [objects, eq_comm]

theorem backed_append {known : Set String} {a b : List Record} :
    Backed known (a ++ b) ↔ Backed known a ∧ Backed (known ∪ objects a) b := by
  induction a generalizing known with
  | nil => simp [Backed, objects]
  | cons record a ih =>
    rw [List.cons_append, Backed, Backed, ih, objects_cons, Set.union_assoc]
    tauto

/-- Only the digests matter. -/
theorem backed_congr {known : Set String} {a b : List Record} (h : a.map digests = b.map digests) :
    Backed known a ↔ Backed known b := by
  induction a generalizing b known with
  | nil =>
    obtain rfl : b = [] := by simpa using h.symm
    rfl
  | cons record a ih =>
    cases b with
    | nil => simp at h
    | cons other b =>
      rw [List.map_cons, List.map_cons, List.cons.injEq] at h
      obtain ⟨hdigests, hrest⟩ := h
      obtain ⟨hobject, hstored⟩ := Prod.mk.inj hdigests
      rw [Backed, Backed, hobject, hstored, ih hrest]

theorem backed_none {known : Set String} {records : List Record}
    (h : ∀ record ∈ records, digests record = (none, none)) : Backed known records := by
  induction records generalizing known with
  | nil => trivial
  | cons record records ih =>
    rw [List.forall_mem_cons] at h
    obtain ⟨hobject, hstored⟩ := Prod.mk.inj h.1
    rw [Backed, hobject, hstored]
    exact ⟨by simp, by simp, ih h.2⟩

/-! ## Pushed batches -/

/-- A line that holds a record. -/
structure LineOf (C : Codec) (line : Line) (record : Record) : Prop where
  bytes : line.bytes = C.toVec record
  short : line.bytes.length ≤ recordMaxBytes
  kind : line.kind = record.kind
  object : line.object = objectDigest? record
  referenced : line.referenced = storedDigest? record

/-- The lines of drafts pushed from a sequence on, and the records they hold. -/
inductive Pushed (C : Codec) : ℕ → List Draft → List Line → List Record → Prop
  | nil (seq : ℕ) : Pushed C seq [] [] []
  | cons {seq : ℕ} {draft : Draft} {line : Line} {record : Record} {drafts : List Draft}
      {lines : List Line} {records : List Record} (hline : LineOf C line record)
      (hkeeps : (draft.1.setSeq (UInt64.ofNat seq)).Keeps record)
      (hdigests : digests record = digests draft.1)
      (htail : Pushed C (seq + 1) drafts lines records) :
      Pushed C seq (draft :: drafts) (line :: lines) (record :: records)

/-- **The lines of a batch that was built.** -/
theorem pushAll_eq {seq : ℕ} {drafts : List Draft} {lines : List Line}
    (h : pushAll C seq drafts = (lines, true)) : ∃ records, Pushed C seq drafts lines records := by
  induction drafts generalizing seq lines with
  | nil =>
    obtain ⟨rfl, -⟩ := Prod.mk.inj h
    exact ⟨[], .nil seq⟩
  | cons draft drafts ih =>
    rw [pushAll] at h
    cases hpush : push C seq draft with
    | none => simp [hpush] at h
    | some line =>
      rw [hpush] at h
      obtain ⟨rfl, hbuilt⟩ := Prod.mk.inj h
      obtain ⟨records, hrecords⟩ := ih (Prod.ext rfl hbuilt)
      obtain ⟨⟨written, bytes⟩, hencode, rfl⟩ := Option.map_eq_some_iff.mp hpush
      obtain ⟨hbytes, hlen, hkeeps, -⟩ := Codec.encode_eq_some hencode
      have hdigests := digests_encode hencode
      obtain ⟨hobject, hstored⟩ := Prod.mk.inj hdigests
      refine ⟨written :: records, .cons ⟨hbytes, hlen, ?_, hobject.symm, hstored.symm⟩ hkeeps
        (by rw [hdigests, digests_setSeq]) hrecords⟩
      exact hkeeps.kind.symm

namespace Pushed

variable {seq : ℕ} {drafts : List Draft} {lines : List Line} {records : List Record}

theorem linesOf (h : Pushed C seq drafts lines records) :
    List.Forall₂ (LineOf C) lines records := by
  induction h with
  | nil => exact .nil
  | cons hline _ _ _ ih => exact .cons hline ih

theorem short (h : Pushed C seq drafts lines records) :
    ∀ record ∈ records, (C.toVec record).length ≤ recordMaxBytes := by
  induction h with
  | nil => simp
  | cons hline _ _ _ ih => exact List.forall_mem_cons.mpr ⟨hline.bytes ▸ hline.short, ih⟩

theorem seqs (h : Pushed C seq drafts lines records) :
    records.map Record.seq = (List.range' seq records.length).map UInt64.ofNat := by
  induction h with
  | nil => rfl
  | cons _ hkeeps _ _ ih =>
    rw [List.map_cons, ih, hkeeps.seq, Record.seq_setSeq, List.length_cons, List.range'_succ,
      List.map_cons]

theorem kinds (h : Pushed C seq drafts lines records) :
    records.map Record.kind = drafts.map fun draft => draft.1.kind := by
  induction h with
  | nil => rfl
  | cons _ hkeeps _ _ ih =>
    rw [List.map_cons, List.map_cons, ih, hkeeps.kind, Record.kind_setSeq]

/-- The lines are of the kinds of their records. -/
theorem lineKinds (h : Pushed C seq drafts lines records) :
    lines.map Line.kind = records.map Record.kind := by
  induction h with
  | nil => rfl
  | cons hline _ _ _ ih => rw [List.map_cons, List.map_cons, ih, hline.kind]

theorem digests (h : Pushed C seq drafts lines records) :
    records.map digests = drafts.map fun draft => SegmentWriter.digests draft.1 := by
  induction h with
  | nil => rfl
  | cons _ _ hdigests _ ih => rw [List.map_cons, List.map_cons, ih, hdigests]

theorem valid (h : Pushed C seq drafts lines records) (hseq : seq ≠ 0)
    (hroom : seq + records.length ≤ 2 ^ 64)
    (hvalid : ∀ draft ∈ drafts, ∀ seq : UInt64, seq ≠ 0 →
      (draft.1.setSeq seq).validate = .ok ()) : ∀ record ∈ records, record.validate = .ok () := by
  induction h with
  | nil => simp
  | @cons seq draft _ _ _ _ _ _ hkeeps _ _ ih =>
    rw [List.length_cons] at hroom
    refine List.forall_mem_cons.mpr ⟨?_, ih (by omega) (by omega) fun d hd =>
      hvalid d (List.mem_cons_of_mem _ hd)⟩
    have hne : UInt64.ofNat seq ≠ 0 := by
      intro hzero
      have hnat := congrArg UInt64.toNat hzero
      rw [UInt64.toNat_ofNat', Nat.mod_eq_of_lt (by omega)] at hnat
      exact hseq hnat
    exact hkeeps.validate.trans (hvalid draft List.mem_cons_self _ hne)

end Pushed

/-- The lines' bytes, newlines included. -/
theorem lineBytes_eq {lines : List Line} {records : List Record}
    (h : List.Forall₂ (LineOf C) lines records) :
    lineBytes lines = (joined (records.map C.toVec)).length := by
  induction h with
  | nil => rfl
  | @cons line record lines records hline _ ih =>
    rw [lineBytes, List.map_cons, List.sum_cons, ← lineBytes, ih, hline.bytes, List.map_cons,
      joined_cons, List.length_append, List.length_cons]
    omega

theorem length_le_joined (lines : List Bytes) : lines.length ≤ (joined lines).length := by
  induction lines with
  | nil => simp
  | cons line lines ih =>
    rw [joined_cons, List.length_append, List.length_cons, List.length_cons]
    omega

/-! ## Acceptance -/

/-- What the pending state holds unwritten. -/
def Pending.text (pending : Pending) : Bytes :=
  (pending.ready.map Prod.fst).flatten ++ pending.buffer

/-- How many records are of the kind. -/
def countOf (kind : Kind) (records : List Record) : ℕ :=
  records.countP fun record => record.kind = kind

/-- What accepting records does. -/
structure Accepts (C : Codec) (pending after : Pending) (records : List Record) : Prop where
  text : after.text = pending.text ++ joined (records.map C.toVec)
  bytes : after.acceptedBytes = pending.acceptedBytes + (joined (records.map C.toVec)).length
  next : after.nextSeq = pending.nextSeq + records.length
  spans : after.spans = pending.spans + countOf .spanStart records
  events : after.events = pending.events + countOf .event records
  blobs : after.blobs = pending.blobs + countOf .blob records
  objects : ∀ digest, after.blobsInSegment.contains digest ↔
    pending.blobsInSegment.contains digest ∨ some digest ∈ records.map objectDigest?
  referenced : ∀ digest, after.referenced.contains digest ↔
    pending.referenced.contains digest ∨ some digest ∈ records.map storedDigest?
  state : after.state = if ∃ record ∈ records, record.kind = .seal then .sealing else pending.state
  segmentId : after.segmentId = pending.segmentId

theorem contains_elim_insert (digest : Option String) (known : OrdMap String Unit)
    (wanted : String) : (digest.elim known (known.insert · ())).contains wanted ↔
      known.contains wanted ∨ some wanted = digest := by
  cases digest with
  | none => simp
  | some digest =>
    simp only [Option.elim_some, OrdMap.contains, OrdMap.get_insert]
    by_cases h : wanted = digest
    · simp [h]
    · simp [h]

/-- Rotating the buffer keeps what is unwritten, and everything else. -/
theorem rotate_eq (pending : Pending) (line : Line) : ∃ ready buffer,
    pending.rotate o line = { pending with ready := ready, buffer := buffer } ∧
      (ready.map Prod.fst).flatten ++ buffer = pending.text := by
  unfold Pending.rotate
  split
  · exact ⟨_, _, rfl, by simp [Pending.text]⟩
  · exact ⟨_, _, rfl, rfl⟩

/-- One accepted line. -/
theorem accepts_line {line : Line} {record : Record} (h : LineOf C line record)
    (pending : Pending) : Accepts C pending (pending.acceptLine o line) [record] := by
  obtain ⟨ready, buffer, hrotate, htext⟩ := rotate_eq (o := o) (pending.count line) line
  have htext' : (ready.map Prod.fst).flatten ++ buffer = pending.text := htext
  have hbytes := h.bytes
  have hobject (digest : String) := contains_elim_insert line.object pending.blobsInSegment digest
  have hstored (digest : String) := contains_elim_insert line.referenced pending.referenced digest
  rw [h.object] at hobject
  rw [h.referenced] at hstored
  rw [Pending.acceptLine, hrotate]
  by_cases hseal : record.kind = .seal
  all_goals
    constructor
    case text =>
      rw [← htext']
      simp [Pending.append, Pending.text, h.kind, hseal, hbytes]
    all_goals
      simp [Pending.append, Pending.count, countOf, h.kind, hseal, h.object, h.referenced, hbytes,
        hobject, hstored]

theorem countOf_append (kind : Kind) (a b : List Record) :
    countOf kind (a ++ b) = countOf kind a + countOf kind b := List.countP_append

namespace Accepts

variable {first middle last : Pending} {a b : List Record}

theorem refl (pending : Pending) : Accepts C pending pending [] := by
  constructor <;> simp [countOf]

theorem append (ha : Accepts C first middle a) (hb : Accepts C middle last b) :
    Accepts C first last (a ++ b) where
  text := by rw [hb.text, ha.text, List.map_append, joined_append, List.append_assoc]
  bytes := by
    rw [hb.bytes, ha.bytes, List.map_append, joined_append, List.length_append]
    omega
  next := by
    rw [hb.next, ha.next, List.length_append]
    omega
  spans := by rw [hb.spans, ha.spans, countOf_append, Nat.add_assoc]
  events := by rw [hb.events, ha.events, countOf_append, Nat.add_assoc]
  blobs := by rw [hb.blobs, ha.blobs, countOf_append, Nat.add_assoc]
  objects digest := by rw [hb.objects, ha.objects, List.map_append, List.mem_append, or_assoc]
  referenced digest := by
    rw [hb.referenced, ha.referenced, List.map_append, List.mem_append, or_assoc]
  state := by
    rw [hb.state, ha.state]
    by_cases hinb : ∃ record ∈ b, record.kind = .seal
    · have hin : ∃ record ∈ a ++ b, record.kind = .seal := by
        obtain ⟨record, hrecord, hkind⟩ := hinb
        exact ⟨record, List.mem_append_right a hrecord, hkind⟩
      rw [if_pos hinb, if_pos hin]
    · have hin : (∃ record ∈ a ++ b, record.kind = .seal) ↔ ∃ record ∈ a, record.kind = .seal := by
        simp only [List.mem_append, or_and_right, exists_or]
        exact or_iff_left hinb
      rw [if_neg hinb]
      simp only [hin]
  segmentId := hb.segmentId.trans ha.segmentId

end Accepts

/-- **Accepting a batch** appends its lines, in order. -/
theorem accepts_lines {lines : List Line} {records : List Record}
    (h : List.Forall₂ (LineOf C) lines records) (pending : Pending) :
    Accepts C pending (pending.accept o lines) records := by
  induction h generalizing pending with
  | nil => exact .refl pending
  | cons hline _ ih => exact (accepts_line hline pending).append (ih _)

/-! ## The invariant of the pending state -/

/-- The pending state accounts for the records accepted. -/
structure Accounts (C : Codec) (o : Options) (pending : Pending) (records : List Record) :
    Prop where
  bytes : pending.acceptedBytes = (joined (records.map C.toVec)).length
  next : pending.nextSeq = records.length + 1
  seqs : records.map Record.seq = (List.range' 1 records.length).map UInt64.ofNat
  header : ∀ record ∈ records.head?, record.kind = .segment
  once : ∀ record ∈ records.tail, record.kind ≠ .segment
  sealedLast : ∀ record ∈ records.dropLast, record.kind ≠ .seal
  valid : ∀ record ∈ records, record.validate = .ok ()
  short : ∀ record ∈ records, (C.toVec record).length ≤ recordMaxBytes
  backed : Backed ∅ records
  objects : ∀ digest, pending.blobsInSegment.contains digest ↔ digest ∈ objects records
  referenced : ∀ digest, pending.referenced.contains digest ↔
    some digest ∈ records.map storedDigest?
  spans : pending.spans = countOf .spanStart records
  events : pending.events = countOf .event records
  blobs : pending.blobs = countOf .blob records
  fits : pending.acceptedBytes ≤ o.segmentMaxBytes
  unopened : pending.state = .unopened → records = []
  opened : pending.state = .opened → records ≠ [] ∧ (∀ record ∈ records, record.kind ≠ .seal) ∧
    pending.acceptedBytes ≤ o.segmentMaxBytes - sealReserveBytes ∧
    ∃ opening : Opening, pending.segmentId = opening.segmentId
  sealing : pending.state = .sealing → ∃ record, records.getLast? = some record ∧
    record.kind = .seal

/-- What the accounts do not read. -/
theorem Accounts.same {pending : Pending} {records : List Record}
    (h : Accounts C o pending records) (ready : List (Bytes × Bool)) (buffer : Bytes)
    (terminal flushRequested exhausted : Bool) (dropped droppedChunks : ℕ)
    (problems : List (ProblemWhat × String)) :
    Accounts C o { pending with ready, buffer, terminal, flushRequested, exhausted, dropped,
                                droppedChunks, problems } records :=
  ⟨h.bytes, h.next, h.seqs, h.header, h.once, h.sealedLast, h.valid, h.short, h.backed, h.objects,
    h.referenced, h.spans, h.events, h.blobs, h.fits, h.unopened, h.opened, h.sealing⟩

/-- A state that takes no record any more has only its name to lose. -/
theorem Accounts.stop {pending : Pending} {records : List Record}
    (h : Accounts C o pending records) {state : State}
    (hstate : state.stopped = true ∨ state = .sealed) :
    Accounts C o { pending with state } records where
  __ := h
  unopened (hunopened : state = .unopened) := by
    subst hunopened
    simp [State.stopped] at hstate
  opened (hopened : state = .opened) := by
    subst hopened
    simp [State.stopped] at hstate
  sealing (hsealing : state = .sealing) := by
    subst hsealing
    simp [State.stopped] at hstate

/-- Drafts that may follow the records of a segment. -/
structure Fit (known : Set String) (drafts : List Draft) : Prop where
  valid : ∀ draft ∈ drafts, ∀ seq : UInt64, seq ≠ 0 → (draft.1.setSeq seq).validate = .ok ()
  header : ∀ draft ∈ drafts, draft.1.kind ≠ .segment
  sealedLast : ∀ draft ∈ drafts.dropLast, draft.1.kind ≠ .seal
  backed : Backed known (drafts.map Prod.fst)

theorem mem_kinds {drafts : List Draft} {records : List Record}
    (h : records.map Record.kind = drafts.map fun draft => draft.1.kind) {P : Kind → Prop}
    (hdrafts : ∀ draft ∈ drafts, P draft.1.kind) : ∀ record ∈ records, P record.kind := by
  intro record hrecord
  have hmem : record.kind ∈ drafts.map fun draft => draft.1.kind := h ▸ List.mem_map_of_mem hrecord
  obtain ⟨draft, hdraft, hkind⟩ := List.mem_map.mp hmem
  exact hkind ▸ hdrafts draft hdraft

/-- **Accepting a batch** keeps the accounts. -/
theorem Accounts.accept {pending after : Pending} {records new : List Record}
    {drafts : List Draft} {lines : List Line} (h : Accounts C o pending records)
    (hopened : pending.state = .opened)
    (hpushed : Pushed C pending.nextSeq drafts lines new) (haccepts : Accepts C pending after new)
    (hfit : Fit (SegmentWriter.objects records) drafts)
    (hroom : pending.acceptedBytes + lineBytes lines ≤ o.segmentMaxBytes)
    (hreserve : (∀ record ∈ new, record.kind ≠ .seal) →
      pending.acceptedBytes + lineBytes lines ≤ o.segmentMaxBytes - sealReserveBytes) :
    Accounts C o after (records ++ new) := by
  obtain ⟨hne, hunsealed, -, hnamed⟩ := h.opened hopened
  have hkinds := hpushed.kinds
  have hdigests := hpushed.digests
  have hbytes : after.acceptedBytes = pending.acceptedBytes + lineBytes lines := by
    rw [haccepts.bytes, lineBytes_eq hpushed.linesOf]
  have hlength : records.length + new.length ≤ o.segmentMaxBytes := by
    have hold := length_le_joined (records.map C.toVec)
    have hnew := length_le_joined (new.map C.toVec)
    rw [List.length_map] at hold hnew
    rw [lineBytes_eq hpushed.linesOf, h.bytes] at hroom
    omega
  have hhigh : o.segmentMaxBytes ≤ 2 ^ 32 := o.high
  have hheader := mem_kinds (P := (· ≠ .segment)) hkinds hfit.header
  have hlast : ∀ record ∈ new.dropLast, record.kind ≠ .seal := by
    have hkinds' : new.dropLast.map Record.kind = drafts.dropLast.map fun d => d.1.kind := by
      rw [List.map_dropLast, hkinds, List.map_dropLast]
    exact mem_kinds (P := (· ≠ .seal)) hkinds' hfit.sealedLast
  obtain ⟨first, rest, rfl⟩ := List.exists_cons_of_ne_nil hne
  constructor
  case bytes => rw [haccepts.bytes, h.bytes, List.map_append, joined_append, List.length_append]
  case next =>
    rw [haccepts.next, h.next, List.length_append]
    omega
  case seqs =>
    rw [List.map_append, h.seqs, hpushed.seqs, h.next, ← List.map_append, List.length_append,
      Nat.add_comm _ 1, List.range'_append_1]
  case header => exact h.header
  case once =>
    intro record hrecord
    rcases List.mem_append.mp hrecord with hold | hnew
    · exact h.once record hold
    · exact hheader record hnew
  case sealedLast =>
    intro record hrecord
    rcases List.eq_nil_or_concat' new with rfl | ⟨init, final, rfl⟩
    · rw [List.append_nil] at hrecord
      exact h.sealedLast record hrecord
    · rw [← List.append_assoc, List.dropLast_concat] at hrecord
      rcases List.mem_append.mp hrecord with hold | hnew
      · exact hunsealed record hold
      · exact hlast record (by rwa [List.dropLast_concat])
  case valid =>
    intro record hrecord
    rcases List.mem_append.mp hrecord with hold | hnew
    · exact h.valid record hold
    · exact hpushed.valid (by rw [h.next]; omega) (by rw [h.next]; omega) hfit.valid record hnew
  case short =>
    intro record hrecord
    rcases List.mem_append.mp hrecord with hold | hnew
    · exact h.short record hold
    · exact hpushed.short record hnew
  case backed =>
    refine backed_append.mpr ⟨h.backed, ?_⟩
    rw [Set.empty_union]
    refine (backed_congr ?_).mp hfit.backed
    rw [hdigests, List.map_map]
    rfl
  case objects =>
    intro digest
    rw [haccepts.objects, h.objects, objects_append]
    rfl
  case referenced =>
    intro digest
    rw [haccepts.referenced, h.referenced, List.map_append, List.mem_append]
  case spans => rw [haccepts.spans, h.spans, countOf_append]
  case events => rw [haccepts.events, h.events, countOf_append]
  case blobs => rw [haccepts.blobs, h.blobs, countOf_append]
  case fits => rw [hbytes]; exact hroom
  case unopened =>
    intro hstate
    rw [haccepts.state, hopened] at hstate
    split at hstate <;> cases hstate
  case opened =>
    intro hstate
    rw [haccepts.state] at hstate
    split at hstate
    · cases hstate
    · next hnone =>
      have hno : ∀ record ∈ new, record.kind ≠ .seal := fun record hrecord hkind =>
        hnone ⟨record, hrecord, hkind⟩
      refine ⟨by simp, ?_, by rw [hbytes]; exact hreserve hno, ?_⟩
      · intro record hrecord
        rcases List.mem_append.mp hrecord with hold | hnew
        · exact hunsealed record hold
        · exact hno record hnew
      · rw [haccepts.segmentId]
        exact hnamed
  case sealing =>
    intro hstate
    rw [haccepts.state, hopened] at hstate
    split at hstate
    · next hseal =>
      obtain ⟨record, hrecord, hkind⟩ := hseal
      rcases List.eq_nil_or_concat' new with rfl | ⟨init, final, rfl⟩
      · simp at hrecord
      · rw [List.dropLast_concat] at hlast
        refine ⟨final, by rw [← List.append_assoc]; exact List.getLast?_concat, ?_⟩
        rcases List.mem_append.mp hrecord with hinit | hfinal
        · exact absurd hkind (hlast record hinit)
        · obtain rfl := List.mem_singleton.mp hfinal
          exact hkind
    · cases hstate

/-! ## One section -/

def State.live : State → Bool
  | unopened | opened | sealing => true
  | sealed | failed | crashed | abandoned => false

/-- What one section does to the pending state: some records more, their lines behind what was
unwritten. -/
structure Grows (C : Codec) (o : Options) (pending after : Pending) (records new : List Record) :
    Prop where
  accounts : Accounts C o after (records ++ new)
  text : after.text = pending.text ++ joined (new.map C.toVec)
  live : after.state.live = true → pending.state.live = true
  sealed : after.state = .sealed → pending.state = .sealed
  quiet : pending.state.live = false → new = []

theorem Grows.refl {pending : Pending} {records : List Record} (h : Accounts C o pending records) :
    Grows C o pending pending records [] where
  accounts := by rwa [List.append_nil]
  text := by simp
  live := id
  sealed := id
  quiet _ := rfl

theorem Grows.trans {first middle last : Pending} {records a b : List Record}
    (ha : Grows C o first middle records a) (hb : Grows C o middle last (records ++ a) b) :
    Grows C o first last records (a ++ b) where
  accounts := by
    rw [← List.append_assoc]
    exact hb.accounts
  text := by rw [hb.text, ha.text, List.map_append, joined_append, List.append_assoc]
  live h := ha.live (hb.live h)
  sealed h := ha.sealed (hb.sealed h)
  quiet h := by
    have hmiddle : middle.state.live = false := by
      cases hlive : middle.state.live with
      | false => rfl
      | true => rw [ha.live hlive] at h; cases h
    rw [ha.quiet h, hb.quiet hmiddle, List.append_nil]

/-- A section that accepts nothing and leaves the buffers. -/
theorem Grows.counts {pending : Pending} {records : List Record} (h : Accounts C o pending records)
    (terminal flushRequested exhausted : Bool) (dropped droppedChunks : ℕ)
    (problems : List (ProblemWhat × String)) :
    Grows C o pending { pending with terminal, flushRequested, exhausted, dropped, droppedChunks,
                                     problems } records [] where
  accounts := by
    rw [List.append_nil]
    exact h.same _ _ _ _ _ _ _ _
  text := by simp [Pending.text]
  live := id
  sealed := id
  quiet _ := rfl

theorem Grows.refuse {pending : Pending} {records : List Record} (h : Accounts C o pending records)
    (terminal : Bool) (refusal : Refusal) :
    Grows C o pending (pending.refuse terminal refusal) records [] := by
  cases refusal with
  | unbuilt => exact .counts h _ _ _ _ _ _
  | full => exact .counts h _ _ _ _ _ _

/-- **The limit.** What fits is within the segment, and short of the reserve without a seal. -/
theorem fits_spec {pending : Pending} {terminal : Bool} {lines : List Line} {slack : ℕ}
    (h : pending.fits o terminal lines slack = true)
    (hterminal : terminal = false → ∀ line ∈ lines, line.kind ≠ .seal) :
    pending.acceptedBytes + lineBytes lines ≤ o.segmentMaxBytes ∧
      ((∀ line ∈ lines, line.kind ≠ .seal) →
        pending.acceptedBytes + lineBytes lines ≤ o.segmentMaxBytes - sealReserveBytes) := by
  cases terminal with
  | false =>
    simp only [Pending.fits, Bool.false_eq_true, if_false, Bool.and_eq_true, decide_eq_true_eq] at h
    have hreserve : sealReserveBytes ≤ terminalReserveBytes := by decide
    exact ⟨by omega, fun _ => by omega⟩
  | true =>
    simp only [Pending.fits, if_true, decide_eq_true_eq] at h
    split at h
    · next hseal =>
      obtain ⟨line, hline, hkind⟩ := List.any_eq_true.mp hseal
      exact ⟨by omega, fun hno => absurd (by simpa using hkind) (hno line hline)⟩
    · exact ⟨by omega, fun _ => by omega⟩

/-- **Accepting what fits.** -/
theorem Grows.accept {pending : Pending} {records : List Record} {drafts : List Draft}
    {lines : List Line} {terminal : Bool} {slack : ℕ} (h : Accounts C o pending records)
    (hopened : pending.state = .opened)
    (hpushed : pushAll C pending.nextSeq drafts = (lines, true))
    (hfits : pending.fits o terminal lines slack = true)
    (hterminal : terminal = false → ∀ draft ∈ drafts, draft.1.kind ≠ .seal)
    (hfit : Fit (SegmentWriter.objects records) drafts) :
    ∃ new, Grows C o pending (pending.accept o lines) records new := by
  obtain ⟨new, hnew⟩ := pushAll_eq hpushed
  have haccepts := accepts_lines (o := o) hnew.linesOf pending
  have hlines : ∀ line ∈ lines, ∃ record ∈ new, record.kind = line.kind := fun line hline =>
    List.mem_map.mp (hnew.lineKinds ▸ List.mem_map_of_mem hline)
  have hroom := fits_spec hfits fun hfalse line hline => by
    obtain ⟨record, hrecord, hkind⟩ := hlines line hline
    rw [← hkind]
    exact mem_kinds (P := (· ≠ .seal)) hnew.kinds (hterminal hfalse) record hrecord
  refine ⟨new, ⟨h.accept hopened hnew haccepts hfit hroom.1 fun hno => hroom.2 fun line hline => ?_,
    haccepts.text, fun _ => by rw [hopened]; rfl, fun hsealed => ?_, fun hdead => ?_⟩⟩
  · obtain ⟨record, hrecord, hkind⟩ := hlines line hline
    rw [← hkind]
    exact hno record hrecord
  · rw [haccepts.state, hopened] at hsealed
    split at hsealed <;> cases hsealed
  · rw [hopened] at hdead
    cases hdead

/-! ## Opening -/

theorem isCanonicalDecimal_ns (time : UnixNs) : isCanonicalDecimal (ns time) = true := by
  have htext : (ns time).toList = Nat.toDigits 10 time.val := by
    rw [ns, Nat.toString_eq_repr, Nat.toList_repr]
  have hall : (Nat.toDigits 10 time.val).all Char.isDigit = true :=
    List.all_eq_true.mpr fun c hc => Nat.isDigit_of_mem_toDigits (by decide) (by decide) hc
  -- only zero begins with a zero
  have hzero : ns time = "0" ∨ (Nat.toDigits 10 time.val).head? ≠ some '0' := by
    rw [or_iff_not_imp_right, not_not]
    intro hhead
    have hshort := mt (DecimalDigits.numeral_toDigits time.val).head (not_not.mpr hhead)
    obtain ⟨rest, hrest⟩ := List.head?_eq_some_iff.mp hhead
    rw [hrest, List.length_cons, not_lt] at hshort
    rw [List.length_eq_zero_iff.mp (by omega : rest.length = 0)] at hrest
    exact String.toList_inj.mp (htext.trans hrest)
  simp only [isCanonicalDecimal, htext, hall, Nat.ofDigitChars_ten_toDigits, Bool.and_eq_true,
    decide_eq_true_eq, Bool.or_eq_true]
  exact ⟨⟨⟨Nat.toDigits_ne_nil, trivial⟩, by simpa using hzero⟩, time.isLt⟩

theorem validate_header (opening : Opening) : (headerRecord opening).validate = .ok () := by
  have hseq : (headerRecord opening).seq = 1 := rfl
  refine validate_eq_ok.mpr ⟨rfl, by rw [hseq]; decide, ?_⟩
  simp [headerRecord, Record.checkFields, checkDecimal, isCanonicalDecimal_ns, ok_bind]

theorem validate_problem (now : UnixNs) (what : ProblemWhat) (reason : String) {seq : UInt64}
    (hseq : seq ≠ 0) : ((problemRecord now what reason).setSeq seq).validate = .ok () := by
  refine validate_eq_ok.mpr ⟨rfl, hseq, ?_⟩
  simp [problemRecord, Record.setSeq, Record.checkFields, checkDecimal, isCanonicalDecimal_ns]

theorem validate_seal (exit : SealExit) (ended : UnixNs) (batch : Batch) {seq : UInt64}
    (hseq : seq ≠ 0) : ((sealDraft exit ended batch).1.setSeq seq).validate = .ok () := by
  refine validate_eq_ok.mpr ⟨rfl, hseq, ?_⟩
  simp [sealDraft, Record.setSeq, Record.checkFields, checkDecimal, isCanonicalDecimal_ns, ok_bind]

/-- A record without attributes is written as it is. -/
theorem encode_bare {record written : Record} {line : Bytes} (h : record.attributes? = none)
    (hencode : C.encode record ⟨0, 0, 0⟩ = some (written, line)) :
    written = record ∧ line = C.toVec record ∧ (C.toVec record).length ≤ recordMaxBytes := by
  unfold Codec.encode at hencode
  simp only [h] at hencode
  split at hencode
  · next hfits =>
    obtain ⟨rfl, rfl⟩ := Prod.mk.inj (Option.some.inj hencode)
    exact ⟨rfl, rfl, hfits.1⟩
  · simp only [Option.ite_none_right_eq_some, Option.some.injEq, Prod.mk.injEq] at hencode
    obtain ⟨hlen, rfl, rfl⟩ := hencode
    exact ⟨rfl, rfl, hlen⟩

/-- A line appended outside a batch. -/
theorem accepts_append (pending : Pending) (record : Record)
    (hkind : record.kind = .segment ∨ record.kind = .problem) :
    Accepts C pending (pending.append (C.toVec record)) [record] := by
  have hdigests : objectDigest? record = none ∧ storedDigest? record = none := by
    cases record <;> simp_all [objectDigest?, storedDigest?, Record.kind]
  constructor
  all_goals
    rcases hkind with hkind | hkind <;>
      simp [Pending.append, Pending.text, countOf, hkind, hdigests]

/-- The accounts of a segment that was just opened. -/
theorem Accounts.opening {pending : Pending} {written : Record} {line : Bytes} (opening : Opening)
    (h : Accounts C o pending [])
    (hencode : C.encode (headerRecord opening) ⟨0, 0, 0⟩ = some (written, line)) :
    Accounts C o (({ pending with
      state := .opened
      segmentId := opening.segmentId
      nextSeq := 1
      acceptedBytes := 0
      flushRequested := true } : Pending).append line) [written] ∧ line = C.toVec written := by
  obtain ⟨rfl, rfl, hlen⟩ := encode_bare rfl hencode
  have hroom : (C.toVec (headerRecord opening)).length + 1 ≤
      o.segmentMaxBytes - sealReserveBytes := by
    have hlow := o.low
    have hconst : recordMaxBytes + 1 ≤ 16 * 2 ^ 20 - sealReserveBytes := by decide
    omega
  refine ⟨?_, rfl⟩
  constructor
  case valid => simpa using validate_header opening
  case short => simpa using hlen
  case opened =>
    refine fun _ => ⟨by simp, by simp [headerRecord, Record.kind], ?_, opening, rfl⟩
    simpa [Pending.append] using hroom
  case fits =>
    have hfits : (C.toVec (headerRecord opening)).length + 1 ≤ o.segmentMaxBytes := by omega
    simpa [Pending.append] using hfits
  case backed => exact backed_none (by simp [headerRecord, digests, objectDigest?, storedDigest?])
  case objects =>
    intro digest
    have hnone := h.objects digest
    simpa [Pending.append, SegmentWriter.objects, headerRecord, objectDigest?] using hnone
  case referenced =>
    intro digest
    have hnone := h.referenced digest
    simpa [Pending.append, headerRecord, storedDigest?] using hnone
  case spans | events | blobs =>
    first
    | simpa [Pending.append, countOf, headerRecord, Record.kind] using h.spans
    | simpa [Pending.append, countOf, headerRecord, Record.kind] using h.events
    | simpa [Pending.append, countOf, headerRecord, Record.kind] using h.blobs
  all_goals simp [Pending.append, headerRecord, Record.kind, Record.seq]

/-- The problem after the header. -/
theorem openProblem_grows {pending : Pending} {written : Record}
    (h : Accounts C o pending [written]) (hopened : pending.state = .opened) (now : UnixNs) :
    ∃ new, Grows C o pending (pending.openProblem C o now) [written] new ∧
      (pending.openProblem C o now).state = .opened := by
  unfold Pending.openProblem
  split
  · exact ⟨[], .refl h, hopened⟩
  · next reason hreason =>
    split
    · exact ⟨[], .refl h, hopened⟩
    · next found hencode =>
      have hencode' : C.encode _ ⟨0, 0, 0⟩ = some (found.1, found.2) := hencode
      obtain ⟨-, hline, hlen⟩ := encode_bare rfl hencode'
      have hnext : pending.nextSeq = 2 := h.next
      have haccepts := accepts_append (C := C) pending
        ((problemRecord now .redaction reason).setSeq 2) (.inr rfl)
      rw [← hline] at haccepts
      have hpushed : Pushed C pending.nextSeq [(problemRecord now .redaction reason, ⟨0, 0, 0⟩)]
          [⟨found.2, .problem, none, none⟩] [(problemRecord now .redaction reason).setSeq 2] := by
        rw [hnext]
        exact .cons ⟨hline, hline ▸ hlen, rfl, rfl, rfl⟩ ⟨rfl, rfl, rfl⟩ rfl (.nil _)
      have hroom : pending.acceptedBytes + lineBytes [⟨found.2, .problem, none, none⟩] ≤
          o.segmentMaxBytes - sealReserveBytes := by
        have hheader := h.short written List.mem_cons_self
        have hlow := o.low
        have hconst : 2 * (recordMaxBytes + 1) ≤ 16 * 2 ^ 20 - sealReserveBytes := by decide
        rw [hline] at *
        simp [h.bytes, lineBytes]
        omega
      have hunsealed : ((problemRecord now .redaction reason).setSeq 2).kind ≠ .seal := by
        simp [problemRecord, Record.setSeq, Record.kind]
      refine ⟨[_], ⟨h.accept hopened hpushed ⟨haccepts.text, haccepts.bytes, haccepts.next,
        haccepts.spans, haccepts.events, haccepts.blobs, haccepts.objects, haccepts.referenced,
        haccepts.state, haccepts.segmentId⟩ ⟨?_, ?_, ?_, ?_⟩ (by omega) fun _ => hroom,
        haccepts.text, fun _ => by rw [hopened]; rfl, ?_, ?_⟩, hopened⟩
      · simp only [List.mem_singleton, forall_eq]
        exact fun seq hseq => validate_problem now _ _ hseq
      · simp [problemRecord, Record.kind]
      · simp
      · exact backed_none (by simp [problemRecord, digests, objectDigest?, storedDigest?])
      · intro hsealed
        cases hopened.symm.trans hsealed
      · intro hdead
        rw [hopened] at hdead
        cases hdead

/-- **Opening.** A segment is opened once; then, and only then, it takes records. -/
theorem ensureOpen_grows {pending : Pending} {records : List Record}
    (h : Accounts C o pending records) (opening : Opening) :
    ∃ new, Grows C o pending (pending.ensureOpen C o opening).1 records new ∧
      ((pending.ensureOpen C o opening).2 = true →
        (pending.ensureOpen C o opening).1.state = .opened) := by
  unfold Pending.ensureOpen
  split
  · next hopened => exact ⟨[], .refl h, fun _ => hopened⟩
  · next hunopened =>
    obtain rfl := h.unopened hunopened
    split
    · exact ⟨[], ⟨h.stop (.inl rfl), by simp [Pending.text], fun hlive => (by cases hlive),
        fun hsealed => (by cases hsealed), fun _ => rfl⟩, fun hfalse => by cases hfalse⟩
    · next written hencode =>
      have hencode' : C.encode _ ⟨0, 0, 0⟩ = some (written.1, written.2) := hencode
      obtain ⟨hopen, hline⟩ := h.opening opening hencode'
      obtain ⟨new, hnew, hstate⟩ := openProblem_grows hopen rfl opening.noted
      refine ⟨written.1 :: new, ⟨hnew.accounts, ?_, fun _ => by rw [hunopened]; rfl, ?_, ?_⟩,
        fun _ => hstate⟩
      · rw [hnew.text]
        simp [Pending.text, Pending.append, hline]
      · intro hsealed
        rw [hstate] at hsealed
        cases hsealed
      · intro hdead
        rw [hunopened] at hdead
        cases hdead
  · exact ⟨[], .refl h, fun hfalse => by cases hfalse⟩

/-! ## Commits -/

/-- The drafts of the writer's own records. -/
theorem Build.fit (build : Build) (batch : Batch) (occurrences : List String) (known : Set String) :
    Fit known (build.drafts batch occurrences) where
  valid := build.valid batch occurrences
  header draft hdraft hkind := by
    have howned := build.owned batch occurrences draft hdraft
    rw [hkind] at howned
    exact absurd howned (by decide)
  sealedLast draft hdraft hkind := by
    have howned := build.owned batch occurrences draft (List.dropLast_subset _ hdraft)
    rw [hkind] at howned
    exact absurd howned (by decide)
  backed := backed_none fun record hrecord => by
    obtain ⟨draft, hdraft, rfl⟩ := List.mem_map.mp hrecord
    exact digests_owned (build.owned batch occurrences draft hdraft)

theorem Build.unsealed (build : Build) (batch : Batch) (occurrences : List String) :
    ∀ draft ∈ build.drafts batch occurrences, draft.1.kind ≠ .seal := by
  intro draft hdraft hkind
  have howned := build.owned batch occurrences draft hdraft
  rw [hkind] at howned
  exact absurd howned (by decide)

/-- A batch of one record without digests. -/
theorem fit_one {draft : Draft}
    (hvalid : ∀ seq : UInt64, seq ≠ 0 → (draft.1.setSeq seq).validate = .ok ())
    (hkind : draft.1.kind ≠ .segment) (hdigests : digests draft.1 = (none, none))
    (known : Set String) : Fit known [draft] where
  valid := by simpa using hvalid
  header := by simpa using hkind
  sealedLast := by simp
  backed := backed_none (by simpa using hdigests)

theorem problem_fit (now : UnixNs) (what : ProblemWhat) (reason : String) (known : Set String) :
    Fit known [(problemRecord now what reason, ⟨0, 0, 0⟩)] :=
  fit_one (fun _ hseq => validate_problem now what reason hseq)
    (by simp [problemRecord, Record.kind]) rfl known

theorem seal_fit (exit : SealExit) (ended : UnixNs) (batch : Batch) (known : Set String) :
    Fit known [sealDraft exit ended batch] :=
  fit_one (fun _ hseq => validate_seal exit ended batch hseq)
    (by simp [sealDraft, Record.kind]) rfl known

/-- **A commit** accepts its batch whole or leaves the text. -/
theorem commit_grows {pending : Pending} {records : List Record} {terminal : Bool}
    {drafts : Batch → List Draft} (h : Accounts C o pending records) (opening : Opening)
    (hterminal : terminal = false → ∀ batch, ∀ draft ∈ drafts batch, draft.1.kind ≠ .seal)
    (hfit : ∀ batch known, Fit known (drafts batch)) :
    ∃ new, Grows C o pending (pending.commit C o opening terminal drafts) records new := by
  obtain ⟨first, hfirst, hopened⟩ := ensureOpen_grows h opening
  unfold Pending.commit
  generalize pending.ensureOpen C o opening = found at hfirst hopened
  obtain ⟨middle, takes⟩ := found
  cases takes with
  | false => exact ⟨_, hfirst.trans (.counts hfirst.accounts _ _ _ _ _ _)⟩
  | true =>
    simp only
    split
    · exact ⟨_, hfirst.trans (.refuse hfirst.accounts _ _)⟩
    · next lines hpushed =>
      split
      · next hfits =>
        obtain ⟨new, hnew⟩ := Grows.accept hfirst.accounts (hopened rfl) hpushed hfits
          (fun hfalse => hterminal hfalse _) (hfit _ _)
        exact ⟨_, hfirst.trans hnew⟩
      · exact ⟨_, hfirst.trans (.refuse hfirst.accounts _ _)⟩

/-! ## Publications -/

theorem contentDrafts_spec (segmentId spanId : String) (owner : ℕ) {contents : List Offered}
    (hadmitted : ∀ content ∈ contents, content.2 = true → content.1.admitted = true) (seq : ℕ)
    (fresh : Finset String) :
    ∀ draft ∈ (contentDrafts segmentId spanId owner seq fresh contents).1,
      (draft.1.kind = .blob ∨ draft.1.kind = .blobRef) ∧
      ∀ seq : UInt64, seq ≠ 0 → (draft.1.setSeq seq).validate = .ok () := by
  induction contents generalizing seq fresh with
  | nil => simp [contentDrafts]
  | cons content contents ih =>
    rw [List.forall_mem_cons] at hadmitted
    have href (at' : ℕ) :
        ((refRecord segmentId spanId at' owner content.1 content.2).kind = .blob ∨
          (refRecord segmentId spanId at' owner content.1 content.2).kind = .blobRef) ∧
        ∀ seq : UInt64, seq ≠ 0 →
          ((refRecord segmentId spanId at' owner content.1 content.2).setSeq seq).validate =
            .ok () := by
      refine ⟨.inr rfl, fun seq hseq => validate_eq_ok.mpr ⟨rfl, hseq, ?_⟩⟩
      obtain ⟨content, stored⟩ := content
      cases hcontent : content.admitted
      · have hstored : stored = false := by
          cases stored with
          | false => rfl
          | true => rw [hadmitted.1 rfl] at hcontent; cases hcontent
        simp [refRecord, Record.setSeq, Record.checkFields, hcontent, hstored, checkDigest,
          content.prepared.source_valid, ok_bind]
      · simp [refRecord, Record.setSeq, Record.checkFields, hcontent, checkDigest,
          content.prepared.source_valid, content.prepared.digest_valid, ok_bind]
    have hblob : ∀ seq : UInt64, seq ≠ 0 →
        ((blobRecord content.1.prepared).setSeq seq).validate = .ok () := by
      refine fun seq hseq => validate_eq_ok.mpr ⟨rfl, hseq, ?_⟩
      simp [blobRecord, Record.setSeq, Record.checkFields, checkDigest,
        content.1.prepared.digest_valid]
    rw [contentDrafts]
    split
    · exact List.forall_mem_cons.mpr ⟨⟨.inl rfl, hblob⟩, List.forall_mem_cons.mpr ⟨href _,
        ih hadmitted.2 _ _⟩⟩
    · exact List.forall_mem_cons.mpr ⟨href _, ih hadmitted.2 _ _⟩

theorem stored_refRecord {segmentId spanId : String} {seq owner : ℕ} {content : Content}
    {stored : Bool} {digest : String}
    (h : storedDigest? (refRecord segmentId spanId seq owner content stored) = some digest) :
    stored = true ∧ content.prepared.digest = digest := by
  cases stored with
  | false => simp [refRecord, storedDigest?] at h
  | true =>
    simp only [refRecord, storedDigest?, if_true] at h
    exact ⟨rfl, Option.some.inj (Option.ite_none_right_eq_some.mp h).2⟩

/-- **The object first.** The drafts of contents hold each new digest's object before its first
stored occurrence. -/
theorem backed_contents {segmentId spanId : String} {owner : ℕ} {contents : List Offered}
    {known : Set String} {fresh : Finset String} (hnew : ∀ digest ∈ fresh, digest ∉ known)
    (hstored : ∀ content ∈ contents, content.2 = true →
      content.1.prepared.digest ∈ known ∨ content.1.prepared.digest ∈ fresh) (seq : ℕ) :
    Backed known ((contentDrafts segmentId spanId owner seq fresh contents).1.map Prod.fst) := by
  induction contents generalizing known fresh seq with
  | nil => trivial
  | cons content contents ih =>
    rw [List.forall_mem_cons] at hstored
    have hnone (seq' : ℕ) :
        objectDigest? (refRecord segmentId spanId seq' owner content.1 content.2) = none := rfl
    rw [contentDrafts]
    split
    · next hfresh =>
      rw [List.map_cons, List.map_cons, Backed, Backed, hnone]
      refine ⟨?_, fun digest hd => (by cases hd), fun digest hd => (by cases hd), ?_, ?_⟩
      · rintro digest hd
        obtain rfl : content.1.prepared.digest = digest := Option.some.inj hd
        exact hnew _ hfresh
      · intro digest hd
        obtain ⟨-, rfl⟩ := stored_refRecord hd
        exact .inr rfl
      · refine ih (fun digest hd => ?_) (fun c hc hs => ?_) _
        · obtain ⟨hne, hmem⟩ := Finset.mem_erase.mp hd
          rintro ((hold | hobject) | hother)
          · exact hnew digest hmem hold
          · exact hne (Option.some.inj hobject).symm
          · cases hother
        · rcases hstored.2 c hc hs with hold | hin
          · exact .inl (.inl (.inl hold))
          · by_cases heq : c.1.prepared.digest = content.1.prepared.digest
            · exact .inl (.inl (.inr (congrArg some heq.symm)))
            · exact .inr (Finset.mem_erase.mpr ⟨heq, hin⟩)
    · next hfresh =>
      rw [List.map_cons, Backed, hnone]
      refine ⟨fun digest hd => (by cases hd), ?_, ?_⟩
      · intro digest hd
        obtain ⟨hs, rfl⟩ := stored_refRecord hd
        exact (hstored.1 hs).resolve_right hfresh
      · refine ih (fun digest hd => ?_) (fun c hc hs => ?_) _
        · rintro (hold | hother)
          · exact hnew digest hd hold
          · cases hother
        · exact (hstored.2 c hc hs).imp_left .inl

/-- The drafts of a publication. -/
theorem publication_fit (owner : Owner) {batch : Batch} {contents : List Offered}
    {known : Set String} (hknown : ∀ digest, batch.known digest = true ↔ digest ∈ known)
    (hadmitted : ∀ content ∈ contents, content.2 = true → content.1.admitted = true) :
    Fit known (publicationDrafts owner batch contents) ∧
      ∀ draft ∈ publicationDrafts owner batch contents, draft.1.kind ≠ .seal := by
  unfold publicationDrafts
  simp only
  generalize batch.base + (newObjects batch.known contents).card + contents.length = ownerSeq
  generalize owner.span.getD _ = spanId
  generalize hdrafts : contentDrafts batch.segmentId spanId ownerSeq batch.base
    (newObjects batch.known contents) contents = drafts
  generalize hafter : (Batch.mk _ _ _ _ : Batch) = after
  have hspec := contentDrafts_spec batch.segmentId spanId ownerSeq hadmitted batch.base
    (newObjects batch.known contents)
  rw [hdrafts] at hspec
  have hown := owner.build.fit after drafts.2 (known ∪ objects (drafts.1.map Prod.fst))
  have hunsealed := owner.build.unsealed after drafts.2
  have hkinds : ∀ draft ∈ drafts.1 ++ owner.build.drafts after drafts.2, draft.1.kind ≠ .seal := by
    intro draft hdraft
    rcases List.mem_append.mp hdraft with hcontent | howner
    · rcases (hspec draft hcontent).1 with hkind | hkind <;> rw [hkind] <;> decide
    · exact hunsealed draft howner
  refine ⟨⟨?_, ?_, fun draft hdraft => hkinds draft (List.dropLast_subset _ hdraft), ?_⟩, hkinds⟩
  · intro draft hdraft
    rcases List.mem_append.mp hdraft with hcontent | howner
    · exact (hspec draft hcontent).2
    · exact hown.valid draft howner
  · intro draft hdraft
    rcases List.mem_append.mp hdraft with hcontent | howner
    · rcases (hspec draft hcontent).1 with hkind | hkind <;> rw [hkind] <;> decide
    · exact hown.header draft howner
  · rw [List.map_append, backed_append]
    refine ⟨?_, hown.backed⟩
    rw [← hdrafts]
    refine backed_contents (fun digest hd hin => ?_) (fun content hcontent hs => ?_) _
    · obtain ⟨content, hcontent, rfl⟩ := List.mem_map.mp (List.mem_toFinset.mp hd)
      have hnotknown := (List.mem_filter.mp hcontent).2
      rw [(hknown _).mpr hin] at hnotknown
      simp at hnotknown
    · by_cases hin : content.1.prepared.digest ∈ known
      · exact .inl hin
      · refine .inr (List.mem_toFinset.mpr (List.mem_map.mpr ⟨content, ?_, rfl⟩))
        have hfalse : batch.known content.1.prepared.digest = false :=
          Bool.eq_false_iff.mpr fun htrue => hin ((hknown _).mp htrue)
        simp [hcontent, hs, hfalse]

/-- Only admitted content is stored. -/
theorem placed_admitted (locked : Bool) (contents : List Content) :
    ∀ content ∈ placed (offered locked contents), content.2 = true →
      content.1.admitted = true := by
  intro content hcontent hs
  simp only [placed, offered, List.map_map, List.mem_map, Function.comp_apply] at hcontent
  obtain ⟨given, -, rfl⟩ := hcontent
  simp only [Content.staged, Bool.and_eq_true] at hs
  exact hs.1.2.1

/-- **A publication** accepts its batch whole or leaves the text. -/
theorem publish_grows {pending : Pending} {records : List Record}
    (h : Accounts C o pending records) (locked : Bool) (contents : List Content) (owner : Owner) :
    ∃ new, Grows C o pending (pending.publish C o locked contents owner) records new := by
  have hknown : ∀ digest, pending.batch.known digest = true ↔ digest ∈ objects records := h.objects
  unfold Pending.publish
  split
  · exact ⟨_, .counts h _ _ _ _ _ _⟩
  · next hstate =>
    have hopened : pending.state = .opened := not_not.mp hstate
    simp only
    split
    · exact ⟨_, .refuse h _ _⟩
    · split
      · exact ⟨_, .refuse h _ _⟩
      · next hbuilt =>
        simp only [Bool.or_eq_true, Bool.not_eq_true', not_or, Bool.not_eq_false] at hbuilt
        obtain ⟨hfit, hunsealed⟩ := publication_fit owner hknown
          (placed_admitted (!pending.exhausted && locked) contents)
        obtain ⟨new, hnew⟩ := Grows.accept h hopened (Prod.ext rfl hbuilt.1) hbuilt.2
          (fun _ => hunsealed) hfit
        exact ⟨_, hnew.trans (.counts hnew.accounts _ _ _ _ _ _)⟩

/-! ## The segment with its file -/

/-- The invariant of a segment: what was written, taken and buffered is the accepted lines. -/
structure Holds (C : Codec) (o : Options) (s : Segment) (records : List Record) : Prop where
  accounts : Accounts C o s.pending records
  written : s.file ++ s.inFlight.flatten <+: joined (records.map C.toVec)
  text : s.torn = false → s.pending.state.stopped = false →
    s.file ++ s.inFlight.flatten ++ s.pending.text = joined (records.map C.toVec)
  torn : s.torn = true → s.inFlight = []
  published : ∀ found, s.published = some found → s.pending.state.live = false ∧
    found.bytes = joined (records.map C.toVec) ∧ found.refs = manifest (referenced records) ∧
    ∃ record, records.getLast? = some record ∧ record.kind = .seal

theorem holds_new : Holds C o .new [] where
  accounts := by
    constructor <;> simp [Segment.new, Pending.new, Backed, objects, countOf, OrdMap.contains]
  written := by simp [Segment.new]
  text _ _ := rfl
  torn h := by cases h
  published found h := by cases h

theorem State.stopped_of_live {state : State} (h : state.live = true) : state.stopped = false := by
  cases state <;> first | rfl | cases h

theorem State.live_or_sealed {state : State} (h : state.stopped = false) :
    state.live = true ∨ state = .sealed := by
  cases state <;> simp_all [State.stopped, State.live]

/-- A section of the pending state. -/
theorem Holds.grow {s : Segment} {records new : List Record} {after : Pending}
    (h : Holds C o s records) (hgrows : Grows C o s.pending after records new) :
    Holds C o { s with pending := after } (records ++ new) where
  accounts := hgrows.accounts
  written := by
    rw [List.map_append, joined_append]
    exact h.written.trans (List.prefix_append _ _)
  text htorn hrunning := by
    have hbefore : s.pending.state.stopped = false := by
      rcases State.live_or_sealed hrunning with hlive | hsealed
      · exact State.stopped_of_live (hgrows.live hlive)
      · rw [hgrows.sealed hsealed]
        rfl
    rw [hgrows.text, List.map_append, joined_append, ← h.text htorn hbefore, List.append_assoc,
      List.append_assoc, List.append_assoc]
  torn := h.torn
  published found hfound := by
    obtain ⟨hdead, hbytes, hrefs, hlast⟩ := h.published found hfound
    rw [hgrows.quiet hdead, List.append_nil]
    refine ⟨?_, hbytes, hrefs, hlast⟩
    cases hlive : after.state.live with
    | false => rfl
    | true =>
      rw [hgrows.live hlive] at hdead
      cases hdead

/-- The segment stops. -/
theorem Holds.stop {s : Segment} {records : List Record} (h : Holds C o s records) (state : State)
    (hstate : state.stopped = true) (torn : Bool) (htorn : torn = true → s.torn = true) :
    Holds C o { s with pending := { s.pending with state }, torn } records where
  accounts := h.accounts.stop (.inl hstate)
  written := h.written
  text _ hrunning := by
    rw [hstate] at hrunning
    cases hrunning
  torn ht := h.torn (htorn ht)
  published found hfound := by
    obtain ⟨-, hrest⟩ := h.published found hfound
    refine ⟨?_, hrest⟩
    cases state <;> first | rfl | cases hstate

/-- What was taken and is not written any more. -/
theorem Holds.forget {s : Segment} {records : List Record} (h : Holds C o s records)
    {file : Bytes} (hfile : file <+: s.file ++ s.inFlight.flatten) (torn : Bool)
    (hlost : torn = true ∨ s.pending.state.stopped = true) :
    Holds C o { s with file, inFlight := [], torn } records where
  accounts := h.accounts
  written := by simpa using hfile.trans h.written
  text htorn hrunning := by
    rcases hlost with hlost | hlost
    · rw [hlost] at htorn
      cases htorn
    · rw [hlost] at hrunning
      cases hrunning
  torn _ := rfl
  published := h.published

/-- The consumer takes what is ready. -/
theorem Holds.take {s : Segment} {records : List Record} (h : Holds C o s records)
    (hempty : s.inFlight = []) (htorn : s.torn = false)
    (hrunning : s.pending.state.stopped = false) (force : Bool) :
    Holds C o { s with
      inFlight := (s.pending.chunks force).map Prod.fst
      pending := { s.pending with
        ready := []
        buffer := if force || s.pending.flushRequested then [] else s.pending.buffer
        flushRequested := false } } records := by
  have hbefore := h.text htorn hrunning
  have htaken : ((s.pending.chunks force).map Prod.fst).flatten ++
      (if (force || s.pending.flushRequested) = true then [] else s.pending.buffer) =
        s.pending.text := by
    unfold Pending.chunks Pending.text
    by_cases hflush : (force || s.pending.flushRequested) = true
    · by_cases hbuffer : s.pending.buffer = [] <;> simp [hflush, hbuffer]
    · simp [hflush]
  rw [hempty, List.flatten_nil, List.append_nil, ← htaken] at hbefore
  refine ⟨h.accounts.same _ _ _ _ _ _ _ _, ?_, fun _ _ => ?_, ?_, h.published⟩
  · rw [← hbefore, ← List.append_assoc]
    exact List.prefix_append _ _
  · simpa [Pending.text] using hbefore
  · intro hfalse
    rw [htorn] at hfalse
    cases hfalse

/-- The consumer writes a chunk. -/
theorem Holds.write {s : Segment} {records : List Record} (h : Holds C o s records)
    {chunk : Bytes} {chunks : List Bytes} (hflight : s.inFlight = chunk :: chunks) :
    Holds C o { s with file := s.file ++ chunk, inFlight := chunks } records where
  accounts := h.accounts
  written := by simpa [hflight] using h.written
  text htorn hrunning := by simpa [hflight] using h.text htorn hrunning
  torn htorn := by
    rw [h.torn htorn] at hflight
    cases hflight
  published := h.published

/-- The manifest of the digests that became known is the manifest of the records. -/
theorem keys_eq_referenced {known : OrdMap String Unit} {records : List Record}
    (h : ∀ digest, known.contains digest ↔ some digest ∈ records.map storedDigest?) :
    known.keys = referenced records := by
  have hmem : ∀ digest, digest ∈ known.keys ↔ digest ∈ referenced records := by
    intro digest
    rw [OrdMap.mem_keys_iff, ← OrdMap.contains_iff, h, mem_referenced, List.mem_map]
  have hkeys : known.keys.Pairwise (· ≤ ·) :=
    (List.pairwise_map.mpr known.sorted).imp fun hlt => le_of_lt hlt
  have hsorted : (referenced records).Pairwise (· ≤ ·) := List.pairwise_insertionSort _ _
  have hnodup : (referenced records).Nodup :=
    (List.perm_insertionSort _ _).nodup_iff.mpr (List.nodup_dedup _)
  exact List.Perm.eq_of_pairwise' hkeys hsorted
    ((List.perm_ext_iff_of_nodup known.keys_nodup hnodup).mpr hmem)

/-- The seal is published. -/
theorem Holds.publish {s : Segment} {records : List Record} (h : Holds C o s records)
    (hsealing : s.pending.state = .sealing) (hflight : s.inFlight = [])
    (hready : s.pending.ready = []) (hbuffer : s.pending.buffer = []) (htorn : s.torn = false) :
    Holds C o { s with
      pending := { s.pending with state := .sealed }
      published := some ⟨s.file, manifest s.pending.referenced.keys⟩ } records := by
  have hbefore := h.text htorn (by rw [hsealing]; rfl)
  rw [hflight, Pending.text, hready, hbuffer] at hbefore
  simp only [List.flatten_nil, List.map_nil, List.append_nil] at hbefore
  refine ⟨h.accounts.stop (.inr rfl), h.written, fun _ _ => ?_, h.torn, ?_⟩
  · simp [Pending.text, hflight, hready, hbuffer, hbefore]
  · rintro found hfound
    obtain rfl := Option.some.inj hfound
    exact ⟨rfl, hbefore, congrArg manifest (keys_eq_referenced h.accounts.referenced),
      h.accounts.sealing hsealing⟩

/-- Nothing is taken, and no seal published, between a torn write and its failure: one consumer
thread does both, and fails the writer before it does anything else. -/
def Prompt (s : Segment) : Action → Prop
  | .take _ | .publishSeal => s.torn = false
  | _ => True

/-- **One section or step** keeps the accounts, and the invariant where it is prompt. -/
theorem step_holds {s t : Segment} {records : List Record} {action : Action}
    (hacc : Accounts C o s.pending records) (hstep : step C o s action = some t) :
    ∃ new, Accounts C o t.pending (records ++ new) ∧
      (Prompt s action → Holds C o s records → Holds C o t (records ++ new)) := by
  -- the sections of the pending state
  have hgrow : ∀ {after : Pending}, (∃ new, Grows C o s.pending after records new) →
      ∃ new, Accounts C o after (records ++ new) ∧ (Prompt s action → Holds C o s records →
        Holds C o { s with pending := after } (records ++ new)) :=
    fun ⟨new, hnew⟩ => ⟨new, hnew.accounts, fun _ h => h.grow hnew⟩
  -- the steps that accept nothing
  have hkeep : ∀ {u : Segment}, Accounts C o u.pending records →
      (Prompt s action → Holds C o s records → Holds C o u records) →
      ∃ new, Accounts C o u.pending (records ++ new) ∧ (Prompt s action → Holds C o s records →
        Holds C o u (records ++ new)) :=
    fun hu hholds => ⟨[], by rwa [List.append_nil], by rwa [List.append_nil]⟩
  cases action with
  | ensureOpen opening =>
    obtain rfl := Option.some.inj hstep
    obtain ⟨new, hnew, -⟩ := ensureOpen_grows hacc opening
    exact hgrow ⟨new, hnew⟩
  | commit opening build =>
    obtain rfl := Option.some.inj hstep
    exact hgrow (commit_grows hacc opening (fun _ batch => build.unsealed batch [])
      fun batch => build.fit batch [])
  | publish locked contents owner =>
    obtain rfl := Option.some.inj hstep
    exact hgrow (publish_grows hacc locked contents owner)
  | drop dropped =>
    obtain rfl := Option.some.inj hstep
    exact hgrow ⟨_, .counts hacc _ _ _ _ _ _⟩
  | noteProblem what reason =>
    obtain rfl := Option.some.inj hstep
    exact hgrow ⟨_, .counts hacc _ _ _ _ _ _⟩
  | problem opening now what reason =>
    obtain rfl := Option.some.inj hstep
    exact hgrow (commit_grows hacc opening (fun hfalse => by cases hfalse)
      fun _ known => problem_fit now what reason known)
  | markTerminal =>
    obtain rfl := Option.some.inj hstep
    refine hgrow ⟨[], ?_⟩
    split
    · exact .refl hacc
    · split
      · exact .counts hacc _ _ _ _ _ _
      · refine ⟨?_, ?_, id, id, fun _ => rfl⟩
        · rw [List.append_nil]
          exact hacc.same _ _ _ _ _ _ _ _
        · simp [Pending.text]
  | countDroppedChunks chunks =>
    obtain rfl := Option.some.inj hstep
    exact hgrow ⟨_, .counts hacc _ _ _ _ _ _⟩
  | take force =>
    simp only [step] at hstep
    split at hstep
    · cases hstep
    · next hidle =>
      have hempty : s.inFlight = [] := not_not.mp hidle
      split at hstep
      · obtain rfl := Option.some.inj hstep
        exact hkeep hacc fun _ h => h
      · next hrunning =>
        obtain rfl := Option.some.inj hstep
        refine hkeep (hacc.same _ _ _ _ _ _ _ _) fun (htorn : s.torn = false) h => ?_
        exact h.take hempty htorn (by simpa using hrunning) force
  | write =>
    simp only [step] at hstep
    split at hstep
    · cases hstep
    · next chunk chunks hflight =>
      obtain rfl := Option.some.inj hstep
      exact hkeep hacc fun _ h => h.write hflight
  | skip =>
    simp only [step] at hstep
    split at hstep
    · next habandoned =>
      obtain rfl := Option.some.inj hstep
      exact hkeep hacc fun _ h =>
        h.forget (List.prefix_append _ _) s.torn (.inr (by rw [habandoned]; rfl))
    · cases hstep
  | tear count =>
    simp only [step] at hstep
    split at hstep
    · cases hstep
    · next chunk chunks hflight =>
      obtain rfl := Option.some.inj hstep
      refine hkeep hacc fun _ h => h.forget ?_ true (.inl rfl)
      rw [hflight, List.flatten_cons]
      exact (List.prefix_append_right_inj _).mpr
        ((List.take_prefix _ _).trans (List.prefix_append _ _))
  | openFails =>
    simp only [step] at hstep
    split at hstep
    · obtain rfl := Option.some.inj hstep
      exact hkeep (hacc.stop (.inl rfl)) fun _ h =>
        (h.stop .failed rfl s.torn id).forget
          (List.prefix_append _ _) s.torn (.inr rfl)
    · cases hstep
  | fail =>
    simp only [step] at hstep
    split at hstep
    · obtain rfl := Option.some.inj hstep
      exact hkeep (hacc.stop (.inl rfl)) fun _ h =>
        h.stop .failed rfl false fun hfalse => by cases hfalse
    · cases hstep
  | sealRecord opening exit ended =>
    simp only [step] at hstep
    split at hstep
    · obtain rfl := Option.some.inj hstep
      exact hgrow (commit_grows hacc opening (fun hfalse => by cases hfalse)
        fun batch known => seal_fit exit ended batch known)
    · cases hstep
  | publishSeal =>
    simp only [step] at hstep
    split at hstep
    · next hready =>
      obtain ⟨hsealing, hflight, hready, hbuffer⟩ := hready
      obtain rfl := Option.some.inj hstep
      refine hkeep (hacc.stop (.inr rfl)) fun (htorn : s.torn = false) h => ?_
      exact h.publish hsealing hflight hready hbuffer htorn
    · cases hstep
  | crash =>
    simp only [step] at hstep
    split at hstep
    · obtain rfl := Option.some.inj hstep
      exact hkeep (hacc.stop (.inl rfl)) fun _ h =>
        h.stop .crashed rfl s.torn id
    · cases hstep
  | abandon =>
    simp only [step] at hstep
    split at hstep
    · cases hstep
    · obtain rfl := Option.some.inj hstep
      exact hkeep (hacc.stop (.inl rfl)) fun _ h =>
        h.stop .abandoned rfl s.torn id
  | sealFails =>
    simp only [step] at hstep
    split at hstep
    · obtain rfl := Option.some.inj hstep
      exact hkeep (hacc.stop (.inl rfl)) fun _ h =>
        h.stop .failed rfl s.torn id
    · cases hstep

/-- **Every run** keeps the accounts. -/
theorem run_accounts {actions : List Action} {s : Segment}
    (hrun : run (step C o) .new actions = some s) : ∃ records, Accounts C o s.pending records :=
  run_invariant (P := fun s => ∃ records, Accounts C o s.pending records)
    (fun _ _ _ ⟨_, h⟩ hstep =>
      let ⟨_, hnew, _⟩ := step_holds h hstep
      ⟨_, hnew⟩)
    ⟨[], holds_new.accounts⟩ hrun

/-- **Every prompt run** keeps the invariant. -/
theorem run_holds {actions : List Action} {s : Segment}
    (hprompt : StepsMeet (step C o) Prompt .new actions)
    (hrun : run (step C o) .new actions = some s) : ∃ records, Holds C o s records :=
  run_induction (P := fun s => ∃ records, Holds C o s records)
    (fun _ _ _ ⟨_, h⟩ hp hstep =>
      let ⟨_, _, hnew⟩ := step_holds h.accounts hstep
      ⟨_, hnew hp h⟩)
    ⟨[], holds_new⟩ hprompt hrun

/-! ## What is stored -/

/-- The numbers of the records, which fit their field. -/
theorem Accounts.numbers {pending : Pending} {records : List Record}
    (h : Accounts C o pending records) :
    records.map (fun record => record.seq.toNat) = List.range' 1 records.length := by
  have hlength := length_le_joined (records.map C.toVec)
  have hfits := h.fits
  have hhigh : o.segmentMaxBytes ≤ 2 ^ 32 := o.high
  rw [List.length_map] at hlength
  rw [h.bytes] at hfits
  have hmap := congrArg (List.map UInt64.toNat) h.seqs
  rw [List.map_map, List.map_map] at hmap
  rw [show (fun record : Record => record.seq.toNat) = UInt64.toNat ∘ Record.seq from rfl, hmap]
  refine (List.map_congr_left fun n hn => ?_).trans (List.map_id _)
  have hbound := (List.mem_range'_1.mp hn).2
  rw [Function.comp_apply, UInt64.toNat_ofNat', Nat.mod_eq_of_lt (by omega), id]

theorem Accounts.inOrder {pending : Pending} {records : List Record}
    (h : Accounts C o pending records) : InOrder records where
  header record hrecord := by
    refine ⟨h.header record hrecord, ?_⟩
    cases records with
    | nil => cases hrecord
    | cons first rest =>
      obtain rfl : first = record := Option.some.inj hrecord
      have hseqs := h.seqs
      rw [List.length_cons, List.range'_succ, List.map_cons, List.map_cons] at hseqs
      exact (List.cons.inj hseqs).1
  once := h.once
  increasing := by
    have hlt : (records.map fun record => record.seq.toNat).Pairwise (· < ·) := by
      rw [h.numbers]
      exact List.pairwise_lt_range'
    rw [List.pairwise_map] at hlt ⊢
    exact hlt.imp fun hab => UInt64.lt_iff_toNat_lt.mpr hab
  sealedLast record hrecord := by
    rw [Record.isSeal_eq, decide_eq_false_iff_not]
    exact h.sealedLast record hrecord

/-- The lines are read back where serde reads the records back. -/
theorem Accounts.reads {pending : Pending} {records : List Record}
    (h : Accounts C o pending records)
    (hserde : ∀ record ∈ records, C.fromSlice (C.toVec record) = .ok record) :
    C.Reads (records.map C.toVec) records := by
  rw [Codec.Reads, List.forall₂_map_left_iff, List.forall₂_same]
  exact fun record hrecord => parseLine_eq_ok.mpr
    ⟨h.short record hrecord, hserde record hrecord, h.valid record hrecord⟩

def sampleOptions : Options where
  flushBytes := 64 * 1024
  segmentMaxBytes := 16 * 2 ^ 20
  homeUnknown := some "HOME is not set"
  low := le_rfl
  high := by decide

/-- The first nanosecond. -/
def sampleTime : UnixNs := ⟨1, by norm_num [u128Bound]⟩

def sampleOpening : Opening where
  named := sampleTime
  started := sampleTime
  origin := sampleTime
  noted := sampleTime
  pid := 2
  nonce := "00000000"
  nonce_length := rfl
  header := {
    seq := 0, schema := "", segmentId := "", afVersion := "0.1.0", afCommit := "", pid := 0,
    parentPid := 1, argv := ["af"], cwd := "~", host := ⟨"linux", "x86_64", 1, none, none, none⟩,
    startedUnixNs := "", monoOriginUnixNs := "", level := .spans }

/-- The segment is opened, and a problem recorded. -/
def sampleActions : List Action :=
  [.ensureOpen sampleOpening, .problem sampleOpening sampleTime .sink "no sink"]

def sampleSegment : Segment :=
  (run (step canonical sampleOptions) .new sampleActions).getD .new

theorem sampleActions_run :
    run (step canonical sampleOptions) .new sampleActions = some sampleSegment := rfl

theorem sampleSegment_opened : sampleSegment.pending.state = .opened ∧
    sampleSegment.torn = false := by decide +kernel

/-- What a stored occurrence names stands before it. -/
theorem Backed.known {known : Set String} {a b : List Record} {record : Record}
    (h : Backed known (a ++ record :: b)) :
    (∀ digest, storedDigest? record = some digest → digest ∈ known ∪ objects a) ∧
      ∀ digest, objectDigest? record = some digest → digest ∉ known ∪ objects a := by
  obtain ⟨hobject, hstored, -⟩ := (backed_append.mp h).2
  exact ⟨hstored, hobject⟩

theorem length_quote_le (s : String) : (Json.quote s).length ≤ 24 * s.length + 2 := by
  have hescape : ∀ b : UInt8, (Json.escape b).length ≤ 6 := by
    intro b
    unfold Json.escape
    split_ifs <;> simp
  have hbytes : ∀ bytes : Bytes, (bytes.flatMap Json.escape).length ≤ 6 * bytes.length := by
    intro bytes
    induction bytes with
    | nil => simp
    | cons b bytes ih =>
      have hb := hescape b
      simp only [List.flatMap_cons, List.length_append, List.length_cons]
      omega
  have hchars : ∀ chars : List Char,
      (chars.flatMap String.utf8EncodeChar).length ≤ 4 * chars.length := by
    intro chars
    induction chars with
    | nil => simp
    | cons c chars ih =>
      have hc : (String.utf8EncodeChar c).length ≤ 4 := by
        rw [String.length_utf8EncodeChar]
        exact c.utf8Size_le_four
      simp only [List.flatMap_cons, List.length_append, List.length_cons]
      omega
  have hlen := hbytes (Json.utf8 s)
  have hutf8 := hchars s.toList
  rw [← Json.utf8_eq_flatMap, String.length_toList] at hutf8
  simp only [Json.quote, List.cons_append, List.length_cons, List.length_append, List.length_nil]
  omega

theorem length_toString_le {n k : ℕ} (hk : 0 < k) (h : n < 10 ^ k) : (toString n).length ≤ k := by
  rw [← String.length_toList, Nat.toString_eq_repr, Nat.toList_repr]
  exact Nat.toDigits_length 10 n k hk h

theorem length_segmentId (opening : Opening) : opening.segmentId.length ≤ 60 := by
  have hms := length_toString_le (n := opening.named.val / 1000000) (k := 39) (by decide) (by
    have hlt := opening.named.isLt
    have hbound : u128Bound ≤ 10 ^ 39 := by decide
    omega)
  have hpid := length_toString_le (n := opening.pid.toNat) (k := 10) (by decide) (by
    have hlt := opening.pid.toNat_lt
    omega)
  have hnonce := opening.nonce_length
  simp only [Opening.segmentId, newSegmentId, String.length_append]
  have hdash : "-".length = 1 := rfl
  omega

/-- The seal record fits its reserve. -/
theorem seal_short (exit : SealExit) (ended : UnixNs) {batch : Batch} (seq : UInt64)
    (hid : batch.segmentId.length ≤ 60) :
    (C.toVec ((sealDraft exit ended batch).1.setSeq seq)).length + 1 ≤ sealReserveBytes := by
  have hnames : ∀ name ∈ ["t", "seq", "schema", "ended_unix_ns", "exit", "spans", "events", "blobs",
      "dropped", "dropped_chunks", "discarded_bytes", "refs", "seal", Kind.seal.schema, exit.text],
      (Json.quote name).length ≤ 24 := by
    cases exit <;> decide
  have hint : ∀ n : UInt64, (Json.printInt n.toNat).length ≤ 20 := fun n =>
    Codec.length_decimal_le (by decide) (by have := n.toNat_lt; omega)
  have hended := length_quote_le (ns ended)
  have htime : (ns ended).length ≤ 39 := length_toString_le (by decide) (by
    have hlt := ended.isLt
    have hbound : u128Bound ≤ 10 ^ 39 := by decide
    omega)
  have hrefs := length_quote_le (batch.segmentId ++ refsSuffix)
  rw [String.length_append, show refsSuffix.length = 5 from rfl] at hrefs
  simp only [List.forall_mem_cons, List.not_mem_nil, false_implies, implies_true,
    and_true] at hnames
  have hseq := hint seq
  have hspans := hint (UInt64.ofNat batch.counts.spans)
  have hevents := hint (UInt64.ofNat batch.counts.events)
  have hblobs := hint (UInt64.ofNat batch.counts.blobs)
  have hdropped := hint (UInt64.ofNat batch.counts.dropped)
  have hchunks := hint (UInt64.ofNat batch.counts.droppedChunks)
  have hzero := hint 0
  simp only [Codec.toVec, Record.toJson, sealDraft, Record.setSeq, Record.members, Record.kind,
    Record.seq, Record.schemaField, Json.print, Json.printMembers, ofNum?, List.length_cons,
    List.length_append, List.length_nil, Kind.text, sealReserveBytes]
  omega

/-- **Room for the seal.** In every open segment any run reaches, the seal record is accepted,
whatever was accepted and refused before. -/
theorem seal_fits {actions : List Action} {s : Segment}
    (hrun : run (step C o) .new actions = some s) (hopened : s.pending.state = .opened)
    (opening : Opening) (exit : SealExit) (ended : UnixNs) :
    ∃ t, step C o s (.sealRecord opening exit ended) = some t ∧ t.pending.state = .sealing ∧
      t.pending.dropped = s.pending.dropped := by
  obtain ⟨records, h⟩ := run_accounts hrun
  obtain ⟨-, -, hroom, named, hid⟩ := h.opened hopened
  have hlow := o.low
  have hreserve : sealReserveBytes ≤ 16 * 2 ^ 20 := by decide
  have hrecord : sealReserveBytes ≤ recordMaxBytes := by decide
  have hlength : s.pending.batch.segmentId.length ≤ 60 := by
    rw [show s.pending.batch.segmentId = _ from hid]
    exact length_segmentId named
  have hshort := seal_short (C := C) exit ended (UInt64.ofNat s.pending.nextSeq) hlength
  -- the record is encoded as it is, and its line fits what is kept for it
  have hpush : ∃ line, push C s.pending.nextSeq (sealDraft exit ended s.pending.batch) = some line ∧
      line.kind = .seal ∧ line.bytes.length + 1 ≤ sealReserveBytes := by
    have hfits : (C.toVec ((sealDraft exit ended s.pending.batch).1.setSeq
        (UInt64.ofNat s.pending.nextSeq))).length ≤ recordMaxBytes := by omega
    refine ⟨⟨_, .seal, none, none⟩, ?_, rfl, hshort⟩
    rw [push, Codec.encode, if_pos ⟨hfits, rfl⟩]
    rfl
  obtain ⟨line, hline, hkind, hlen⟩ := hpush
  have hcommit : s.pending.commit C o opening true (fun batch => [sealDraft exit ended batch]) =
      s.pending.accept o [line] := by
    have hfits : s.pending.fits o true [line] 0 = true := by
      simp [Pending.fits, lineBytes, hkind]
      omega
    simp [Pending.commit, Pending.ensureOpen, hopened, pushAll, hline, hfits]
  obtain ⟨ready, buffer, hrotate, -⟩ := rotate_eq (o := o) (s.pending.count line) line
  refine ⟨_, if_pos hopened, ?_, ?_⟩
  · simp [hcommit, Pending.accept, Pending.acceptLine, hkind]
  · simp only [hcommit, Pending.accept, List.foldl_cons, List.foldl_nil, Pending.acceptLine, hkind,
      if_true, hrotate]
    rfl

theorem seal_fits_sample : ∃ t,
    step canonical sampleOptions sampleSegment (.sealRecord sampleOpening .ok sampleTime) = some t ∧
      t.pending.state = .sealing := by
  obtain ⟨t, hstep, hstate, -⟩ := seal_fits sampleActions_run sampleSegment_opened.1
    sampleOpening .ok sampleTime
  exact ⟨t, hstep, hstate⟩

end SegmentWriter

end Telemetry

end Afactory