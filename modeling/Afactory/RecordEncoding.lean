import Mathlib
import Afactory.SegmentScan

/-!
# What encoding keeps of a record

`encode` of `review-telemetry/src/record.rs`: attributes go from the end of the writer's order until
the record is within the bound less the counter reserve, and the counters are written last.

* `Attributes.take`: the first attributes, in the writer's order;
* `Codec.shrink_eq_some`: the loop stops at the longest beginning within the bound;
* `Attributes.members_addCounters`: the counters stand behind what was kept;
* `length_addCounters`: the reserve holds the largest counters;
* `encode_keeps_prefix`: what a line holds, and when there is none.
-/

namespace Afactory

namespace Telemetry

open Json (Bytes Value newline)

/-! ## The first attributes -/

namespace Attributes

/-- The first `n` attributes, in the writer's order. -/
def take (attributes : Attributes) (n : ℕ) : Attributes where
  members := attributes.members.take n
  nodup := attributes.nodup.sublist ((List.take_sublist _ _).map _)

/-- The attributes that are no counters. -/
def withoutCounters (attributes : Attributes) : Attributes :=
  counterNames.foldl shiftRemove attributes

/-- The counters that are not zero, as attributes. -/
def ofCounters (counters : Counters) : List (String × Value) :=
  ([(truncatedFields, counters.truncated), (droppedFields, counters.dropped),
    (redactedFields, counters.redacted)].filter (·.2 > 0)).map
      fun (name, count) => (name, .int count.toNat)

theorem ext_members {a b : Attributes} (h : a.members = b.members) : a = b := by
  cases a
  cases b
  simpa using h

theorem take_length (attributes : Attributes) :
    attributes.take attributes.members.length = attributes :=
  ext_members List.take_length

theorem length_take (attributes : Attributes) (n : ℕ) :
    (attributes.take n).members.length = min n attributes.members.length :=
  List.length_take

theorem take_take (attributes : Attributes) (m n : ℕ) :
    (attributes.take n).take m = attributes.take (min m n) :=
  ext_members List.take_take

/-- Taking the last key away leaves the attributes before it. -/
theorem shiftRemove_lastKey {attributes : Attributes} {last : String}
    (h : attributes.lastKey = some last) :
    attributes.shiftRemove last = attributes.take (attributes.members.length - 1) := by
  obtain ⟨member, hmember, rfl⟩ := Option.map_eq_some_iff.mp h
  have hsplit := List.dropLast_append_getLast? member hmember
  have hnodup := attributes.nodup
  rw [← hsplit, List.map_append, List.nodup_append] at hnodup
  apply ext_members
  have hbefore : ∀ other ∈ attributes.members.dropLast, other.1 ≠ member.1 := fun other hother =>
    hnodup.2.2 other.1 (List.mem_map_of_mem hother) member.1 (by simp)
  calc attributes.members.filter (·.1 ≠ member.1)
      = (attributes.members.dropLast ++ [member]).filter (·.1 ≠ member.1) := by rw [hsplit]
    _ = attributes.members.dropLast := by
        rw [List.filter_append, List.filter_eq_self.mpr (by simpa using hbefore)]
        simp
    _ = attributes.members.take (attributes.members.length - 1) := List.dropLast_eq_take

theorem notMem_of_mem_withoutCounters {attributes : Attributes} {member : String × Value}
    (h : member ∈ attributes.withoutCounters.members) : member.1 ∉ counterNames := by
  simp only [withoutCounters, counterNames, List.foldl_cons, List.foldl_nil, shiftRemove,
    List.mem_filter, decide_eq_true_eq] at h
  simp [counterNames, h]

theorem withoutCounters_sublist (attributes : Attributes) :
    attributes.withoutCounters.members.Sublist attributes.members := by
  simp only [withoutCounters, counterNames, List.foldl_cons, List.foldl_nil, shiftRemove]
  exact (List.filter_sublist.trans List.filter_sublist).trans List.filter_sublist

theorem members_insert_of_notMem {attributes : Attributes} {name : String} {value : Value}
    (h : name ∉ attributes.members.map Prod.fst) :
    (attributes.insert name value).members = attributes.members ++ [(name, value)] := by
  rw [insert]
  exact if_neg h

theorem members_foldl_insert {attributes : Attributes} {counts : List (String × UInt64)}
    (hnodup : (counts.map Prod.fst).Nodup)
    (hnew : ∀ name ∈ counts.map Prod.fst, name ∉ attributes.members.map Prod.fst) :
    (counts.foldl (fun attributes (name, count) =>
      if count > 0 then attributes.insert name (.int count.toNat) else attributes)
        attributes).members =
      attributes.members ++
        (counts.filter (·.2 > 0)).map fun (name, count) => (name, .int count.toNat) := by
  induction counts generalizing attributes with
  | nil => simp
  | cons member counts ih =>
    obtain ⟨name, count⟩ := member
    rw [List.map_cons, List.nodup_cons] at hnodup
    have hname := hnew name (by simp)
    have hrest : ∀ other ∈ counts.map Prod.fst, other ∉ attributes.members.map Prod.fst :=
      fun other hother => hnew other (by simp [hother])
    by_cases hcount : count > 0
    · have hinserted : (attributes.insert name (.int count.toNat)).members =
          attributes.members ++ [(name, .int count.toNat)] := members_insert_of_notMem hname
      rw [List.foldl_cons, List.filter_cons_of_pos (by simpa using hcount)]
      dsimp only
      rw [if_pos hcount, ih hnodup.2, hinserted, List.append_assoc]
      · rfl
      · intro other hother hmem
        rw [hinserted, List.map_append, List.mem_append] at hmem
        rcases hmem with hold | hlast
        · exact hrest other hother hold
        · obtain rfl : other = name := by simpa using hlast
          exact hnodup.1 hother
    · rw [List.foldl_cons, List.filter_cons_of_neg (by simpa using hcount)]
      dsimp only
      rw [if_neg hcount, ih hnodup.2 hrest]

/-- The counters stand behind attributes that are none. -/
theorem members_addCounters {attributes : Attributes}
    (h : ∀ member ∈ attributes.members, member.1 ∉ counterNames) (counters : Counters) :
    (Codec.addCounters attributes counters).members = attributes.members ++ ofCounters counters := by
  refine members_foldl_insert ?_ ?_
  · exact (by decide : counterNames.Nodup)
  · intro name hname hmem
    obtain ⟨member, hmember, rfl⟩ := List.mem_map.mp hmem
    exact h member hmember hname

end Attributes

/-! ## The loop -/

namespace Codec

variable {C : Codec}

/-- **The loop stops at the longest beginning within the bound**, and counts what it left out. -/
theorem shrink_eq_some {record : Record} {attributes kept : Attributes} {dropped count : UInt64}
    (h : C.shrink record attributes dropped = some (kept, count)) :
    ∃ n ≤ attributes.members.length, kept = attributes.take n ∧
      count = dropped + UInt64.ofNat (attributes.members.length - n) ∧
      (C.toVec (record.setAttributes kept)).length ≤ recordMaxBytes - counterReserveBytes ∧
      ∀ m, n < m → m ≤ attributes.members.length →
        recordMaxBytes - counterReserveBytes <
          (C.toVec (record.setAttributes (attributes.take m))).length := by
  induction attributes, dropped using Codec.shrink.induct C record with
  | case1 attributes dropped hfits =>
    rw [shrink, if_pos hfits] at h
    obtain ⟨rfl, rfl⟩ := Prod.mk.inj (Option.some.inj h)
    refine ⟨attributes.members.length, le_rfl, attributes.take_length.symm, by simp, hfits, ?_⟩
    intro m hlt hle
    omega
  | case2 attributes dropped hfits hnone =>
    rw [shrink, if_neg hfits] at h
    split at h
    · cases h
    · next hsome => simp [hnone] at hsome
  | case3 attributes dropped hfits last hlast ih =>
    rw [shrink, if_neg hfits] at h
    split at h
    · cases h
    · next other hother =>
      obtain rfl : other = last := by simpa [hlast] using hother.symm
      have hshorter := Attributes.shiftRemove_lt hlast
      obtain ⟨n, hn, hkept, hcount, hlen, hlonger⟩ := ih h
      rw [Attributes.shiftRemove_lastKey hlast] at hkept hn hcount hlonger hshorter
      simp only [Attributes.length_take, Attributes.take_take] at hn hkept hcount hlonger hshorter
      refine ⟨n, by omega, ?_, ?_, hlen, ?_⟩
      · rw [hkept, Nat.min_eq_left (by omega)]
      · rw [hcount, show attributes.members.length - n =
          1 + (min (attributes.members.length - 1) attributes.members.length - n) by omega,
          UInt64.ofNat_add, UInt64.add_assoc]
        rfl
      · intro m hlt hle
        by_cases hall : m = attributes.members.length
        · rw [hall, Attributes.take_length]
          omega
        · have hm := hlonger m hlt (by omega)
          rwa [Nat.min_eq_left (by omega)] at hm

theorem shrink_eq_none {record : Record} {attributes : Attributes} {dropped : UInt64}
    (h : C.shrink record attributes dropped = none) :
    recordMaxBytes - counterReserveBytes < (C.toVec (record.setAttributes .empty)).length := by
  induction attributes, dropped using Codec.shrink.induct C record with
  | case1 attributes dropped hfits =>
    rw [shrink, if_pos hfits] at h
    cases h
  | case2 attributes dropped hfits hnone =>
    have hempty : attributes = .empty := by
      apply Attributes.ext_members
      simpa [Attributes.lastKey, Attributes.empty] using hnone
    rw [← hempty]
    omega
  | case3 attributes dropped hfits last hlast ih =>
    rw [shrink, if_neg hfits] at h
    split at h
    · next hnone => simp [hlast] at hnone
    · next other hother =>
      obtain rfl : other = last := by simpa [hlast] using hother.symm
      exact ih h

/-! ## The reserve -/

/-- The bytes a member takes in an object, its separators with it. -/
def memberLength (double : Json.Double → Bytes) (member : String × Value) : ℕ :=
  (Json.quote member.1).length + (Json.print double member.2).length + 2

theorem length_printMembers (double : Json.Double → Bytes) (members : List (String × Value)) :
    (Json.printMembers double members).length = 1 + (members.map (memberLength double)).sum := by
  induction members with
  | nil => rfl
  | cons member members ih =>
    simp only [Json.printMembers, List.length_cons, List.length_append, List.map_cons,
      List.sum_cons, memberLength, ih]
    omega

/-- Members behind the others lengthen an object by their own bytes at most. -/
theorem length_print_append (double : Json.Double → Bytes)
    (members more : List (String × Value)) :
    (Json.print double (.object (members ++ more))).length ≤
      (Json.print double (.object members)).length + (more.map (memberLength double)).sum := by
  cases members with
  | nil =>
    cases more with
    | nil => simp
    | cons member more =>
      simp only [List.nil_append, Json.print, List.length_cons, List.length_append, List.map_cons,
        List.sum_cons, memberLength, length_printMembers, List.length_nil]
      omega
  | cons member members =>
    simp only [List.cons_append, Json.print, List.length_cons, List.length_append,
      length_printMembers, List.map_append, List.sum_append]
    omega

theorem length_decimal_le {n k : ℕ} (hk : 0 < k) (hn : n < 10 ^ k) :
    (Json.decimal n).length ≤ k := by
  rw [Json.decimal, List.length_map]
  exact Nat.toDigits_length 10 n k hk hn

/-- The reserve holds the three counters, however large. -/
theorem length_ofCounters (double : Json.Double → Bytes) (counters : Counters) :
    ((Attributes.ofCounters counters).map (memberLength double)).sum ≤ counterReserveBytes := by
  have hcount : ∀ (name : String) (count : UInt64),
      memberLength double (name, .int count.toNat) ≤ (Json.quote name).length + 22 := by
    intro name count
    have hdigits : (Json.decimal count.toNat).length ≤ 20 :=
      length_decimal_le (by decide) (by have := count.toNat_lt; omega)
    rw [memberLength]
    simp only [Json.print, Json.printInt]
    omega
  have hnames : (Json.quote truncatedFields).length + (Json.quote droppedFields).length +
      (Json.quote redactedFields).length + 66 ≤ counterReserveBytes := by decide
  have htruncated := hcount truncatedFields counters.truncated
  have hdropped := hcount droppedFields counters.dropped
  have hredacted := hcount redactedFields counters.redacted
  simp only [Attributes.ofCounters, List.filter_cons, List.filter_nil]
  split_ifs
  all_goals
    simp only [List.map_cons, List.map_nil, List.sum_cons, List.sum_nil]
    omega

/-- The attributes stand in one place of a line. -/
theorem length_toVec (C : Codec) {record : Record} {old : Attributes}
    (h : record.attributes? = some old) : ∃ around, ∀ attributes : Attributes,
      (C.toVec (record.setAttributes attributes)).length =
        around + (Json.print C.double (.object attributes.members)).length := by
  refine ⟨(C.toVec (record.setAttributes .empty)).length - 2, fun attributes => ?_⟩
  cases record with
  | spanStart r =>
    simp [Codec.toVec, Record.toJson, Record.members, Record.setAttributes, Json.print,
      Json.printMembers, Attributes.empty, Record.seq, Record.schemaField, Record.kind]
    omega
  | spanEnd r =>
    simp [Codec.toVec, Record.toJson, Record.members, Record.setAttributes, Json.print,
      Json.printMembers, Attributes.empty, Record.seq, Record.schemaField, Record.kind]
    omega
  | event r =>
    obtain ⟨seq, schema, spanId, time, name, old, blob, media⟩ := r
    cases blob
    all_goals
      cases media
      all_goals
        simp [Codec.toVec, Record.toJson, Record.members, Record.setAttributes, Json.print,
          Json.printMembers, Attributes.empty, Record.seq, Record.schemaField, Record.kind,
          skipNone]
        omega
  | segment | config | node | finding | demand | blob | blobRef | problem | «seal» => cases h

/-- A record over the bound, or with something to count, is written with what the loop keeps: the
reserve has room for its counters. -/
theorem encode_of_shrink {record : Record} {attributes kept : Attributes} {counters : Counters}
    {dropped : UInt64} (hrecord : record.attributes? = some attributes)
    (hcut : ¬ ((C.toVec record).length ≤ recordMaxBytes ∧ counters = ⟨0, 0, 0⟩))
    (h : C.shrink record attributes.withoutCounters counters.dropped = some (kept, dropped)) :
    let written := record.setAttributes (addCounters kept { counters with dropped })
    C.encode record counters = some (written, C.toVec written) := by
  intro written
  obtain ⟨n, -, rfl, -, hfits, -⟩ := shrink_eq_some h
  obtain ⟨around, hlength⟩ := length_toVec C hrecord
  have hnames : ∀ member ∈ (attributes.withoutCounters.take n).members,
      member.1 ∉ counterNames := fun member hmember =>
    Attributes.notMem_of_mem_withoutCounters (List.mem_of_mem_take hmember)
  have hlong : (C.toVec written).length ≤ recordMaxBytes := by
    have happend := length_print_append C.double (attributes.withoutCounters.take n).members
      (Attributes.ofCounters { counters with dropped })
    have hreserve := length_ofCounters C.double { counters with dropped }
    rw [hlength] at hfits
    rw [hlength, Attributes.members_addCounters hnames]
    simp only [recordMaxBytes, counterReserveBytes] at hfits hreserve ⊢
    omega
  rw [encode, if_neg hcut, hrecord]
  simp only [Attributes.withoutCounters] at h
  simp only [h, Option.bind_eq_bind, Option.bind_some]
  exact if_pos hlong

theorem encode_of_shrink_none {record : Record} {attributes : Attributes} {counters : Counters}
    (hrecord : record.attributes? = some attributes)
    (hcut : ¬ ((C.toVec record).length ≤ recordMaxBytes ∧ counters = ⟨0, 0, 0⟩))
    (h : C.shrink record attributes.withoutCounters counters.dropped = none) :
    C.encode record counters = none := by
  rw [encode, if_neg hcut, hrecord]
  simp only [Attributes.withoutCounters] at h
  simp only [h, Option.bind_eq_bind, Option.bind_none]

/-- `written` is the record with the first `n` of its attributes and the counters behind them, and `n`
is as large as the bound less the reserve admits. -/
structure Cut (C : Codec) (record : Record) (attributes : Attributes) (counters : Counters)
    (written : Record) (n : ℕ) : Prop where
  le : n ≤ attributes.members.length
  written : ∃ (kept : Attributes) (dropped : UInt64), written = record.setAttributes kept ∧
    kept.members = attributes.members.take n ++
      Attributes.ofCounters { counters with dropped } ∧
    dropped.toNat = counters.dropped.toNat + (attributes.members.length - n)
  fits : (C.toVec (record.setAttributes (attributes.take n))).length ≤
    recordMaxBytes - counterReserveBytes
  longest : ∀ m, n < m → m ≤ attributes.members.length → recordMaxBytes - counterReserveBytes <
    (C.toVec (record.setAttributes (attributes.take m))).length

theorem Cut.of_shrink {record : Record} {attributes kept : Attributes} {counters : Counters}
    {dropped : UInt64}
    (hroom : counters.dropped.toNat + attributes.members.length < 2 ^ 64)
    (hnames : ∀ member ∈ attributes.members, member.1 ∉ counterNames)
    (h : C.shrink record attributes counters.dropped = some (kept, dropped)) :
    ∃ n, C.Cut record attributes counters
      (record.setAttributes (addCounters kept { counters with dropped })) n := by
  obtain ⟨n, hn, rfl, hdropped, hfits, hlongest⟩ := shrink_eq_some h
  refine ⟨n, hn, ⟨_, dropped, rfl, ?_, ?_⟩, hfits, hlongest⟩
  · exact Attributes.members_addCounters
      (fun member hmember => hnames member (List.mem_of_mem_take hmember)) _
  · rw [hdropped, UInt64.toNat_add, UInt64.toNat_ofNat', Nat.mod_eq_of_lt (by omega : _ < 2 ^ 64)]
    omega

end Codec

/-! ## What serde reads back -/

/-- An attribute value as the writer builds it: flat, or a double of `stable`. -/
inductive Written (stable : Json.Double → Prop) : Value → Prop
  | flat {value : Value} (h : Flat value) : Written stable value
  | double {x : Json.Double} (h : stable x) : Written stable (.float x)

/-- **The contract of the codec for spans and events.** One whose doubles are all `stable`, those that
serde reads back from the texts it writes, is read back whole; a double is written on one line. -/
structure Codec.Restores (C : Codec) (stable : Json.Double → Prop) : Prop where
  roundTrip : ∀ (record : Record) (attributes : Attributes), record.attributes? = some attributes →
    (∀ member ∈ attributes.members, Written stable member.2) →
      C.fromSlice (C.toVec record) = .ok record
  oneLine : ∀ x, newline ∉ C.double x

theorem Codec.Lawful.restores {C : Codec} (hC : C.Lawful) : C.Restores fun _ => False where
  roundTrip record attributes hrecord hvalues := by
    refine hC.roundTrip record ⟨?_, ?_⟩
    · rintro header rfl
      cases hrecord
    · intro other hother member hmember
      obtain rfl : attributes = other := Option.some.inj (hrecord.symm.trans hother)
      have hwritten := hvalues member hmember
      generalize member.2 = value at hwritten ⊢
      cases hwritten with
      | flat h => exact h
      | double h => exact h.elim
  oneLine := hC.oneLine

theorem Codec.Restores.lines {C : Codec} {stable : Json.Double → Prop} (hC : C.Restores stable)
    (record : Record) : newline ∉ C.toVec record :=
  Json.print_lines hC.oneLine record.toJson

theorem Codec.Restores.parseLine_toVec {C : Codec} {stable : Json.Double → Prop}
    (hC : C.Restores stable) {record : Record} {attributes : Attributes}
    (hrecord : record.attributes? = some attributes)
    (hvalues : ∀ member ∈ attributes.members, Written stable member.2)
    (hvalid : record.validate = .ok ()) (hlen : (C.toVec record).length ≤ recordMaxBytes) :
    C.parseLine (C.toVec record) = .ok record := by
  rw [Codec.parseLine, if_neg (by omega), hC.roundTrip record attributes hrecord hvalues]
  simp [hvalid, ok_bind, pure, Except.pure]

theorem mem_ofCounters {counters : Counters} {member : String × Value}
    (h : member ∈ Attributes.ofCounters counters) : Flat member.2 := by
  obtain ⟨counter, -, rfl⟩ := List.mem_map.mp h
  exact Attributes.flat_count counter.2

/-- **Encoding keeps a beginning of the attributes.** Of a valid span or event it gives no line only
when the record without attributes is over the bound less the reserve. A line is within the bound,
holds no newline, and is read back as the record as it stands, when that fits and nothing is
counted; or else as the record with the longest beginning of its attributes, its counters apart,
that is within the bound less the reserve, and then the counters that are not zero, what was left
out counted as dropped. -/
theorem encode_keeps_prefix {C : Codec} {stable : Json.Double → Prop} (hC : C.Restores stable)
    {record : Record} {attributes : Attributes} (hrecord : record.attributes? = some attributes)
    (hvalid : record.validate = .ok ())
    (hvalues : ∀ member ∈ attributes.members, Written stable member.2) (counters : Counters)
    (hroom : counters.dropped.toNat + attributes.members.length < 2 ^ 64) :
    (C.encode record counters = none → recordMaxBytes - counterReserveBytes <
      (C.toVec (record.setAttributes .empty)).length) ∧
    ∀ written line, C.encode record counters = some (written, line) →
      line.length ≤ recordMaxBytes ∧ newline ∉ line ∧ C.parseLine line = .ok written ∧
      if (C.toVec record).length ≤ recordMaxBytes ∧ counters = ⟨0, 0, 0⟩ then written = record
      else ∃ n, C.Cut record attributes.withoutCounters counters written n := by
  have hbare := attributes.withoutCounters_sublist
  by_cases hwhole : (C.toVec record).length ≤ recordMaxBytes ∧ counters = ⟨0, 0, 0⟩
  · have hencode : C.encode record counters = some (record, C.toVec record) := by
      rw [Codec.encode, if_pos hwhole]
    refine ⟨fun hnone => ?_, fun written line hsome => ?_⟩
    · rw [hencode] at hnone
      cases hnone
    · obtain ⟨rfl, rfl⟩ := Prod.mk.inj (Option.some.inj (hencode.symm.trans hsome))
      rw [if_pos hwhole]
      exact ⟨hwhole.1, hC.lines record, hC.parseLine_toVec hrecord hvalues hvalid hwhole.1, rfl⟩
  cases hshrink : C.shrink record attributes.withoutCounters counters.dropped with
  | none =>
    refine ⟨fun _ => Codec.shrink_eq_none hshrink, fun written line hsome => ?_⟩
    rw [Codec.encode_of_shrink_none hrecord hwhole hshrink] at hsome
    cases hsome
  | some found =>
    obtain ⟨kept, dropped⟩ := found
    have hencode := Codec.encode_of_shrink hrecord hwhole hshrink
    refine ⟨fun hnone => ?_, fun written line hsome => ?_⟩
    · rw [hencode] at hnone
      cases hnone
    · have hlen := (Codec.encode_eq_some hsome).2.1
      obtain ⟨hwritten, rfl⟩ := Prod.mk.inj (Option.some.inj (hencode.symm.trans hsome))
      obtain ⟨n, hcut⟩ := Codec.Cut.of_shrink (by have := hbare.length_le; omega)
        (fun _ => Attributes.notMem_of_mem_withoutCounters) hshrink
      rw [hwritten] at hcut hlen ⊢
      obtain ⟨other, count, hother, hmembers, -⟩ := hcut.written
      rw [if_neg hwhole]
      refine ⟨hlen, hC.lines written, ?_, n, hcut⟩
      rw [hother] at hlen ⊢
      refine hC.parseLine_toVec (Record.attributes?_setAttributes hrecord other) ?_ (by simpa) hlen
      intro member hmember
      rw [hmembers] at hmember
      rcases List.mem_append.mp hmember with hkept | hcounter
      · exact hvalues member (hbare.subset (List.mem_of_mem_take hkept))
      · exact .flat (mem_ofCounters hcounter)

/-! ## A crowded event -/

/-- A text of `n` letters, which need no escape. -/
def letters (n : ℕ) : String := String.ofList (List.replicate n 'a')

theorem length_quote_letters (n : ℕ) : (Json.quote (letters n)).length = n + 2 := by
  have hletter : String.utf8EncodeChar 'a' = [97] := by decide
  have hescape : Json.escape 97 = [97] := by decide
  rw [Json.quote, Json.utf8_eq_flatMap, letters, String.toList_ofList]
  simp [List.flatMap_replicate, hletter, hescape]

def longText (n : ℕ) : Attributes := ⟨[("text", .string (letters n))], List.nodup_singleton _⟩

def crowded (seq : UInt64) (attributes : Attributes) : Record := .event {
  seq, schema := Kind.event.schema, spanId := "00aa", timeUnixNs := "0", name := "af.note",
  attributes, blob := none, blobMediaType := none }

/-- The lengths of the small records. -/
theorem crowded_lengths : (canonical.toVec (crowded 1 .empty)).length = 121 ∧
    (canonical.toVec (crowded 0 .empty)).length = 121 ∧ (Json.quote "text").length = 6 ∧
    ((Attributes.ofCounters ⟨1, 0, 0⟩).map (Codec.memberLength canonical.double)).sum = 24 ∧
    (canonical.toVec (sampleSpan.setAttributes .empty)).length ≤
      recordMaxBytes - counterReserveBytes := by
  decide +kernel

theorem length_crowded (attributes : Attributes) : (canonical.toVec (crowded 1 attributes)).length =
    119 + (Json.print canonical.double (.object attributes.members)).length := by
  have hrecord : (crowded 1 .empty).attributes? = some .empty := rfl
  obtain ⟨around, hlength⟩ := Codec.length_toVec canonical hrecord
  have hempty := crowded_lengths.1
  have hobject : (Json.print canonical.double (.object Attributes.empty.members)).length = 2 := rfl
  have haround : around = 119 := by
    have h := hlength .empty
    rw [hobject] at h
    exact Nat.add_right_cancel (h.symm.trans hempty)
  rw [← haround]
  exact hlength attributes

theorem length_longText (n : ℕ) :
    (Json.print canonical.double (.object (longText n).members)).length = n + 11 := by
  have hname := crowded_lengths.2.2.1
  simp [longText, Json.print, Json.printMembers, length_quote_letters, hname]
  omega

theorem longText_names (n : ℕ) : ∀ member ∈ (longText n).members, member.1 ∉ counterNames := by
  intro member hmember
  obtain rfl : member = ("text", .string (letters n)) := List.mem_singleton.mp hmember
  exact (by decide : "text" ∉ counterNames)

/-- One text and one counter: the event holds both. -/
theorem crowded_fits {n : ℕ} (h : n ≤ 16230) :
    (canonical.toVec (crowded 1 (Codec.addCounters (longText n) ⟨1, 0, 0⟩))).length ≤
      recordMaxBytes := by
  have hlength := Codec.length_print_append canonical.double (longText n).members
    (Attributes.ofCounters ⟨1, 0, 0⟩)
  have hcounter := crowded_lengths.2.2.2.1
  rw [length_longText, hcounter] at hlength
  rw [length_crowded, Attributes.members_addCounters (longText_names n), recordMaxBytes]
  omega

/-- The loop drops the text all the same, for the sake of the reserve. -/
theorem crowded_shrinks {n : ℕ} (h : 15999 ≤ n) :
    canonical.shrink (crowded 1 (longText n)) (longText n) 0 = some (.empty, 1) := by
  have hlong : ¬ (canonical.toVec (crowded 1 (longText n))).length ≤
      recordMaxBytes - counterReserveBytes := by
    rw [length_crowded, length_longText, recordMaxBytes, counterReserveBytes]
    omega
  cases hshrink : canonical.shrink (crowded 1 (longText n)) (longText n) 0 with
  | none =>
    have hempty := Codec.shrink_eq_none hshrink
    have hbare : (canonical.toVec ((crowded 1 (longText n)).setAttributes .empty)).length = 121 :=
      crowded_lengths.1
    rw [hbare] at hempty
    exact absurd hempty (by decide)
  | some found =>
    obtain ⟨m, hm, hkept, hcount, hfits, -⟩ := Codec.shrink_eq_some hshrink
    have hm : m ≤ 1 := hm
    interval_cases m
    · exact congrArg some (Prod.ext hkept hcount)
    · rw [hkept] at hfits
      exact absurd hfits hlong

/-- **A shorter prefix than necessary**, and a line that is not read back. -/
theorem encode_drops_what_fits :
    ((canonical.toVec (crowded 1 (Codec.addCounters (longText 16200) ⟨1, 0, 0⟩))).length ≤
        recordMaxBytes ∧
      ∃ line, canonical.encode (crowded 1 (longText 16200)) ⟨1, 0, 0⟩ =
        some (crowded 1 (Codec.addCounters .empty ⟨1, 1, 0⟩), line)) ∧
    ∃ line, canonical.encode (crowded 0 .empty) ⟨0, 0, 0⟩ = some (crowded 0 .empty, line) ∧
      canonical.parseLine line = .error "seq 0" := by
  refine ⟨⟨crowded_fits (by omega), ?_⟩, ?_⟩
  · exact ⟨_, Codec.encode_of_shrink rfl (by simp) (crowded_shrinks (by omega))⟩
  · have hfits : (canonical.toVec (crowded 0 .empty)).length ≤ recordMaxBytes := by
      rw [crowded_lengths.2.1]
      decide
    refine ⟨_, by rw [Codec.encode, if_pos ⟨hfits, rfl⟩], ?_⟩
    have hread := canonical_lawful.restores.roundTrip (crowded 0 .empty) .empty rfl
      (by simp [Attributes.empty])
    rw [Codec.parseLine, if_neg (by omega), hread]
    rfl

/-- A span with something to count. -/
theorem encode_keeps_prefix_span : ∃ written line n,
    canonical.encode sampleSpan ⟨1, 0, 0⟩ = some (written, line) ∧
      line.length ≤ recordMaxBytes ∧ canonical.parseLine line = .ok written ∧
        canonical.Cut sampleSpan (Attributes.empty.insert "af.note" (.string "é\n")) ⟨1, 0, 0⟩
          written n := by
  have hcut : ¬ ((canonical.toVec sampleSpan).length ≤ recordMaxBytes ∧
      (⟨1, 0, 0⟩ : Counters) = ⟨0, 0, 0⟩) := by simp
  have hempty := not_lt.mpr crowded_lengths.2.2.2.2
  have hvalues : ∀ member ∈ (Attributes.empty.insert "af.note" (.string "é\n")).members,
      Written (fun _ => False) member.2 := by
    intro member hmember
    obtain rfl : member = ("af.note", .string "é\n") := List.mem_singleton.mp hmember
    exact .flat (.text _)
  have hrecord : sampleSpan.attributes? =
      some (Attributes.empty.insert "af.note" (.string "é\n")) := rfl
  obtain ⟨hnone, hline⟩ := encode_keeps_prefix canonical_lawful.restores
    hrecord rfl hvalues ⟨1, 0, 0⟩ (by decide)
  obtain ⟨⟨written, line⟩, hencode⟩ := Option.ne_none_iff_exists'.mp (mt hnone hempty)
  simp only [if_neg hcut] at hline
  obtain ⟨hlen, -, hread, n, hn⟩ := hline _ _ hencode
  exact ⟨written, line, n, hencode, hlen, hread, hn⟩

end Telemetry

end Afactory
