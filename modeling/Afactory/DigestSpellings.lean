import Mathlib
import Afactory.Json
import Afactory.Materialize
import Afactory.OrdMap

/-!
# Digests that an object spells

`spelled_digests` of `review-store/src/cas.rs`: every digest that stands in the bytes of an object,
which are read chunk by chunk.

* `scanDigests`: the digests of one window;
* `ObjectStore.spelledDigests`: the loop over the chunks, with the tail of the window that is kept;
* `infix_overlap`: what stands in a text stands in one of two parts that overlap by enough;
* `spelled_digests_exact`: what is found does not depend on how the bytes are read.
-/

namespace Afactory

open Json (Bytes)

/-! ## Searching -/

section Searching

variable {α : Type*}

/-- The first offset at which the text goes on with the pattern. -/
def position [DecidableEq α] (pattern : List α) : List α → Option ℕ
  | [] => none
  | a :: rest =>
    if pattern.isPrefixOf (a :: rest) then some 0 else (position pattern rest).map (· + 1)

theorem position_lt [DecidableEq α] {pattern text : List α} {offset : ℕ}
    (h : position pattern text = some offset) : offset < text.length := by
  induction text generalizing offset with
  | nil => cases h
  | cons a rest ih =>
    rw [position] at h
    split_ifs at h
    · obtain rfl := Option.some.inj h
      exact Nat.succ_pos _
    · obtain ⟨found, hfound, rfl⟩ := Option.map_eq_some_iff.mp h
      exact Nat.succ_lt_succ (ih hfound)

/-- **What stands in a text** stands in one of its two parts, where they overlap by all but one of
its items. -/
theorem infix_overlap {x a b c : List α} (h : x <:+: a ++ b ++ c) (hlength : x.length ≤ b.length + 1) :
    x <:+: a ++ b ∨ x <:+: b ++ c := by
  obtain ⟨before, after, htext⟩ := h
  by_cases hfirst : (before ++ x).length ≤ (a ++ b).length
  · refine .inl ?_
    have hprefix : before ++ x <+: a ++ b :=
      List.prefix_of_prefix_length_le ⟨after, htext⟩ (List.prefix_append _ _) hfirst
    exact (List.suffix_append before x).isInfix.trans hprefix.isInfix
  · refine .inr ?_
    have hsuffix : x ++ after <:+ b ++ c := by
      have hword : x ++ after <:+ a ++ b ++ c := ⟨before, by rw [← List.append_assoc, htext]⟩
      have hlast : b ++ c <:+ a ++ b ++ c := ⟨a, by rw [List.append_assoc]⟩
      refine List.suffix_of_suffix_length_le hword hlast ?_
      have htotal := congrArg List.length htext
      simp only [List.length_append] at htotal hfirst ⊢
      omega
    exact (List.prefix_append x after).isInfix.trans hsuffix.isInfix

end Searching

/-! ## One window -/

/-- `sha256:` -/
def spelledMark : Bytes := [115, 104, 97, 50, 53, 54, 58]

/-- `SPELLED_DIGEST_LEN` -/
abbrev spelledDigestLen : ℕ := 7 + 64

/-- A lower-case hex digit. -/
def isHexByte (byte : UInt8) : Bool := (48 ≤ byte && byte ≤ 57) || (97 ≤ byte && byte ≤ 102)

/-- The text of bytes that are characters each. -/
def asciiText (bytes : Bytes) : String := String.ofList (bytes.map fun byte => Char.ofNat byte.toNat)

/-- The candidate that begins here, recorded when it is a spelling. -/
def recordCandidate (rest : Bytes) (found : OrdMap String Unit) : OrdMap String Unit :=
  let candidate := rest.take spelledDigestLen
  if spelledDigestLen ≤ rest.length && (candidate.drop 7).all isHexByte then
    found.insert (asciiText candidate) ()
  else found

/-- `scan_digests`: on past each mark by one byte. -/
def scanDigests (rest : Bytes) (found : OrdMap String Unit) : OrdMap String Unit :=
  match _ : position spelledMark rest with
  | none => found
  | some offset => scanDigests (rest.drop (offset + 1)) (recordCandidate (rest.drop offset) found)
termination_by rest.length
decreasing_by
  next hfound =>
    have hlt := position_lt hfound
    rw [List.length_drop]
    omega

/-! ## An object -/

/-- The loop of `spelled_digests`: a read of no bytes ends it. -/
def scanReads : List Bytes → Bytes → OrdMap String Unit → OrdMap String Unit
  | [], _, found => found
  | chunk :: reads, window, found =>
    if chunk = [] then found
    else
      let window := window ++ chunk
      -- the tail that could still begin a spelling the next chunk completes
      let keep := min window.length (spelledDigestLen - 1)
      scanReads reads (window.drop (window.length - keep)) (scanDigests window found)

/-- `Cas::spelled_digests`; `reads` are the bytes of the object as they are read. -/
def ObjectStore.spelledDigests (store : ObjectStore) (reads : List Bytes) (digest : String) :
    Except CasError (List String) :=
  if !isDigest digest then .error (.invalidDigest digest)
  else
    match store.filed digest with
    | none => .error (.notFound digest)
    | some _ => .ok (scanReads reads [] .empty).keys

/-! ## Spellings -/

/-- The bytes spell a digest: the mark and 64 lower-case hex digits. -/
structure Spelling (bytes : Bytes) (digest : String) : Prop where
  marked : ∃ hex, bytes = spelledMark ++ hex ∧ hex.length = 64 ∧ ∀ byte ∈ hex, isHexByte byte = true
  text : Json.utf8 digest = bytes

/-- A digest that stands somewhere in the bytes. -/
def Spells (bytes : Bytes) (digest : String) : Prop :=
  ∃ spelled, Spelling spelled digest ∧ spelled <:+: bytes

theorem Spelling.length {bytes : Bytes} {digest : String} (h : Spelling bytes digest) :
    bytes.length = spelledDigestLen := by
  obtain ⟨hex, rfl, hlength, -⟩ := h.marked
  rw [List.length_append, hlength]
  rfl

theorem utf8_asciiText {bytes : Bytes} (h : ∀ byte ∈ bytes, byte < 128) :
    Json.utf8 (asciiText bytes) = bytes := by
  have hall : ∀ n < 128, String.utf8EncodeChar (Char.ofNat n) = [UInt8.ofNat n] := by decide
  rw [Json.utf8_eq_flatMap, asciiText, String.toList_ofList, List.flatMap_map]
  have heach : ∀ byte ∈ bytes, String.utf8EncodeChar (Char.ofNat byte.toNat) = [byte] := by
    intro byte hbyte
    rw [hall byte.toNat (UInt8.lt_iff_toNat_lt.mp (h byte hbyte)), UInt8.ofNat_toNat]
  rw [List.flatMap_congr heach]
  simp

theorem spelledMark_lt : ∀ byte ∈ spelledMark, byte < 128 := by
  simp [spelledMark]

theorem isHexByte_lt {byte : UInt8} (h : isHexByte byte = true) : byte < 128 := by
  simp only [isHexByte, Bool.or_eq_true, Bool.and_eq_true, decide_eq_true_eq] at h
  rw [UInt8.lt_iff_toNat_lt]
  rcases h with ⟨-, h⟩ | ⟨-, h⟩
  all_goals
    have hbound := UInt8.le_iff_toNat_le.mp h
    exact hbound.trans_lt (by decide)

/-- The bytes of a spelling are characters each. -/
theorem Spelling.ascii {bytes : Bytes} {digest : String} (h : Spelling bytes digest) :
    asciiText bytes = digest := by
  obtain ⟨hex, hbytes, -, hhex⟩ := h.marked
  have hascii : ∀ byte ∈ bytes, byte < 128 := by
    rw [hbytes]
    intro byte hbyte
    exact (List.mem_append.mp hbyte).elim (spelledMark_lt byte) fun hmem =>
      isHexByte_lt (hhex byte hmem)
  exact Json.utf8_inj ((utf8_asciiText hascii).trans h.text.symm)

/-- What begins the bytes is a spelling. -/
def SpellsFirst (bytes : Bytes) (digest : String) : Prop :=
  ∃ spelled, Spelling spelled digest ∧ spelled <+: bytes

theorem mem_insert_keys {found : OrdMap String Unit} {key digest : String} :
    digest ∈ (found.insert key ()).keys ↔ digest = key ∨ digest ∈ found.keys := by
  simp only [OrdMap.mem_keys_iff, OrdMap.get_insert]
  by_cases heq : digest = key <;> simp [heq]

/-- **A candidate is recorded exactly when it is a spelling.** -/
theorem mem_recordCandidate {rest : Bytes} {found : OrdMap String Unit} {digest : String}
    (hmark : spelledMark <+: rest) :
    digest ∈ (recordCandidate rest found).keys ↔ digest ∈ found.keys ∨ SpellsFirst rest digest := by
  obtain ⟨after, rfl⟩ := hmark
  have hcandidate : (spelledMark ++ after).take spelledDigestLen = spelledMark ++ after.take 64 := rfl
  have hdrop : (spelledMark ++ after.take 64).drop 7 = after.take 64 := rfl
  have hlength : (spelledMark ++ after).length = 7 + after.length := by
    rw [List.length_append]
    rfl
  rw [recordCandidate]
  simp only [hcandidate, hdrop, hlength, Nat.add_le_add_iff_left, Bool.and_eq_true,
    decide_eq_true_eq, List.all_eq_true]
  split_ifs with hspelled
  · have hspelling : Spelling (spelledMark ++ after.take 64) (asciiText (spelledMark ++ after.take 64)) := by
      refine ⟨⟨_, rfl, by simpa using hspelled.1, hspelled.2⟩, utf8_asciiText ?_⟩
      intro byte hbyte
      exact (List.mem_append.mp hbyte).elim (spelledMark_lt byte) fun hmem =>
        isHexByte_lt (hspelled.2 byte hmem)
    have hprefix : spelledMark ++ after.take 64 <+: spelledMark ++ after :=
      (List.prefix_append_right_inj spelledMark).mpr (List.take_prefix 64 after)
    rw [mem_insert_keys, or_comm]
    refine or_congr_right ⟨?_, ?_⟩
    · rintro rfl
      exact ⟨_, hspelling, hprefix⟩
    · rintro ⟨spelled, hother, hbegins⟩
      have hsame : spelled = spelledMark ++ after.take 64 :=
        List.IsPrefix.eq_of_length
          (List.prefix_of_prefix_length_le hbegins hprefix (by rw [hother.length, hspelling.length]))
          (by rw [hother.length, hspelling.length])
      rw [← hother.ascii, hsame]
  · refine (or_iff_left ?_).symm
    rintro ⟨spelled, ⟨⟨hex, rfl, hhex, hall⟩, -⟩, hbegins⟩
    have hprefix : hex <+: after := (List.prefix_append_right_inj spelledMark).mp hbegins
    have hlong := hprefix.length_le
    refine hspelled ⟨hhex ▸ hlong, ?_⟩
    rwa [← hhex, ← List.prefix_iff_eq_take.mp hprefix]

theorem spells_nil (digest : String) : ¬ Spells [] digest := by
  rintro ⟨spelled, hspelling, hpart⟩
  have hlength := hspelling.length
  rw [List.infix_nil.mp hpart] at hlength
  cases hlength

/-- A spelling begins here, or stands behind the first byte. -/
theorem spells_cons {byte : UInt8} {rest : Bytes} {digest : String} :
    Spells (byte :: rest) digest ↔ SpellsFirst (byte :: rest) digest ∨ Spells rest digest := by
  simp only [Spells, SpellsFirst, List.infix_cons_iff, and_or_left, exists_or]

/-- Where the mark does not stand, nothing is spelled. -/
theorem mark_of_spellsFirst {rest : Bytes} {digest : String} (h : SpellsFirst rest digest) : spelledMark <+: rest := by
  obtain ⟨spelled, ⟨⟨hex, rfl, -⟩, -⟩, hbegins⟩ := h
  exact (List.prefix_append _ _).trans hbegins

/-- **Up to the first mark nothing is spelled**; there a spelling may begin. -/
theorem spells_position {rest : Bytes} {digest : String} :
    Spells rest digest ↔
      match position spelledMark rest with
      | none => False
      | some offset => SpellsFirst (rest.drop offset) digest ∨ Spells (rest.drop (offset + 1)) digest := by
  induction rest with
  | nil => simpa [position] using spells_nil digest
  | cons byte rest ih =>
    rw [position]
    by_cases hmark : spelledMark.isPrefixOf (byte :: rest) = true
    · rw [if_pos hmark]
      exact spells_cons
    · rw [if_neg hmark]
      have hnot : ¬ SpellsFirst (byte :: rest) digest := fun h =>
        hmark (List.isPrefixOf_iff_prefix.mpr (mark_of_spellsFirst h))
      rw [spells_cons, or_iff_right hnot, ih]
      cases position spelledMark rest <;> rfl

theorem mark_of_position {rest : Bytes} {offset : ℕ} (h : position spelledMark rest = some offset) :
    spelledMark <+: rest.drop offset := by
  induction rest generalizing offset with
  | nil => cases h
  | cons byte rest ih =>
    rw [position] at h
    split_ifs at h with hmark
    · obtain rfl := Option.some.inj h
      exact List.isPrefixOf_iff_prefix.mp hmark
    · obtain ⟨found, hfound, rfl⟩ := Option.map_eq_some_iff.mp h
      exact ih hfound

/-- **A window is scanned for every digest it spells.** -/
theorem mem_scanDigests {rest : Bytes} {found : OrdMap String Unit} {digest : String} :
    digest ∈ (scanDigests rest found).keys ↔ digest ∈ found.keys ∨ Spells rest digest := by
  induction rest, found using scanDigests.induct with
  | case1 rest found hnone =>
    rw [scanDigests, spells_position, hnone]
    split
    · simp
    · next hsome => cases hsome
  | case2 rest found offset hsome ih =>
    rw [scanDigests, spells_position, hsome]
    split
    · next hnone => cases hnone
    · next offset' hsome' =>
      obtain rfl := Option.some.inj hsome'
      rw [ih, mem_recordCandidate (mark_of_position hsome), or_assoc]

/-! ## Chunks -/

theorem Spells.of_infix {bytes bytes' : Bytes} {digest : String} (h : Spells bytes digest)
    (hpart : bytes <:+: bytes') : Spells bytes' digest := by
  obtain ⟨spelled, hspelling, hspelled⟩ := h
  exact ⟨spelled, hspelling, hspelled.trans hpart⟩

/-- **The loop's invariant**: what is found stands in the bytes that were read, and the window ends
them, with all of them in it or enough for every spelling that goes on. -/
structure Scanned (bytes window : Bytes) (found : OrdMap String Unit) : Prop where
  mem : ∀ digest, digest ∈ found.keys ↔ Spells bytes digest
  window : ∃ before, bytes = before ++ window ∧ (before = [] ∨ spelledDigestLen ≤ window.length + 1)

/-- One read keeps the invariant. -/
theorem Scanned.step {bytes window : Bytes} {found : OrdMap String Unit}
    (h : Scanned bytes window found) (chunk : Bytes) :
    Scanned (bytes ++ chunk)
      ((window ++ chunk).drop ((window ++ chunk).length -
        min (window ++ chunk).length (spelledDigestLen - 1)))
      (scanDigests (window ++ chunk) found) := by
  obtain ⟨before, rfl, hbefore⟩ := h.window
  refine ⟨fun digest => ?_, ?_⟩
  · rw [mem_scanDigests, h.mem digest]
    constructor
    · rintro (hold | hnew)
      · exact hold.of_infix (List.prefix_append _ _).isInfix
      · exact hnew.of_infix (by
          rw [List.append_assoc]
          exact (List.suffix_append before (window ++ chunk)).isInfix)
    · rintro ⟨spelled, hspelling, hpart⟩
      rcases hbefore with rfl | hlong
      · exact .inr ⟨spelled, hspelling, hpart⟩
      · rcases infix_overlap hpart (hspelling.length ▸ hlong) with hfirst | hsecond
        · exact .inl ⟨spelled, hspelling, hfirst⟩
        · exact .inr ⟨spelled, hspelling, hsecond⟩
  · obtain ⟨cut, hcut⟩ : ∃ cut, cut = (window ++ chunk).length -
        min (window ++ chunk).length (spelledDigestLen - 1) := ⟨_, rfl⟩
    rw [← hcut]
    refine ⟨before ++ (window ++ chunk).take cut, ?_, ?_⟩
    · rw [List.append_assoc, List.append_assoc, List.take_append_drop]
    · by_cases hzero : cut = 0
      · rcases hbefore with rfl | hlong
        · exact .inl (by rw [hzero]; rfl)
        · refine .inr ?_
          rw [hzero, List.drop_zero, List.length_append]
          omega
      · refine .inr ?_
        rw [List.length_drop]
        omega

/-- **The invariant holds of a whole object.** -/
theorem scanned_reads {reads : List Bytes} (hreads : ∀ chunk ∈ reads, chunk ≠ [])
    {bytes window : Bytes} {found : OrdMap String Unit} (h : Scanned bytes window found)
    (digest : String) :
    digest ∈ (scanReads reads window found).keys ↔ Spells (bytes ++ reads.flatten) digest := by
  induction reads generalizing bytes window found with
  | nil => simpa [scanReads] using h.mem digest
  | cons chunk reads ih =>
    rw [List.forall_mem_cons] at hreads
    rw [scanReads, if_neg hreads.1, List.flatten_cons, ← List.append_assoc]
    exact ih hreads.2 (h.step chunk)

/-- **The digests an object spells are found**, in whatever chunks its bytes are read. -/
theorem spelled_digests_exact (store : ObjectStore) (digest : String) (bytes : Bytes)
    (reads : List Bytes) (hdigest : isDigest digest = true) (hfiled : store.filed digest = some bytes)
    (hbytes : reads.flatten = bytes) (hreads : ∀ chunk ∈ reads, chunk ≠ []) :
    ∃ found, store.spelledDigests reads digest = .ok found ∧ found.Pairwise (· < ·) ∧
      ∀ spelled, spelled ∈ found ↔ Spells bytes spelled := by
  refine ⟨(scanReads reads [] .empty).keys, ?_, ?_, fun spelled => ?_⟩
  · simp [ObjectStore.spelledDigests, hdigest, hfiled]
  · exact List.pairwise_map.mpr (scanReads reads [] .empty).sorted
  · have hempty : Scanned [] [] .empty := by
      refine ⟨fun digest => ?_, ⟨[], rfl, .inl rfl⟩⟩
      exact ⟨fun h => absurd h List.not_mem_nil, fun h => absurd h (spells_nil digest)⟩
    rw [scanned_reads hreads hempty, List.nil_append, hbytes]

/-- A digest, and a store that files its spelling under it. -/
def spelledSample : String :=
  "sha256:aaaaaaaaaaaaaaaaaaaaaaaaaaaaaaaaaaaaaaaaaaaaaaaaaaaaaaaaaaaaaaaa"

def spellingStore : ObjectStore where
  filed := fun digest =>
    if digest = spelledSample then some (spelledMark ++ List.replicate 64 97) else none
  blobContentId := fun _ => spelledSample
  isEnvelope := fun _ _ => false

/-- The spelling is found when it is read in two parts. -/
theorem spelled_digests_exact_parts :
    ∃ found, spellingStore.spelledDigests [spelledMark, List.replicate 64 97] spelledSample =
        .ok found ∧ found.Pairwise (· < ·) ∧
      ∀ spelled, spelled ∈ found ↔ Spells (spelledMark ++ List.replicate 64 97) spelled :=
  spelled_digests_exact spellingStore spelledSample (spelledMark ++ List.replicate 64 97)
    [spelledMark, List.replicate 64 97] (by decide) (by simp [spellingStore]) (by simp)
    (by simp [spelledMark])

end Afactory
