import Mathlib
import Afactory.Checks
import Afactory.Json

/-!
# Canonical JSON

The encoder of `review-store/src/canonical.rs`: compact JSON whose object members stand in the
order of the UTF-16 code units of their keys.

* `utf16Cmp`: the order of keys, by bytes where both are ASCII; `utf16Cmp_eq` makes it one order;
* `writeValue`, `canonicalize`: the encoder;
* `sorted`: a value with the members of its objects in order, whose compact text the encoder
  writes (`writeValue_eq`);
* `Same`: values equal up to the order of members;
* `writeRuns`, `write_string_per_character`: the strings of the encoder, run by run and character by
  character;
* `canonical_json`: equal bytes are equal values, and read back in increasing order of keys.

How a double is displayed is left to `Doubles`.
-/

namespace Afactory.Canonical

open Json

/-! ## The order of keys -/

/-- The code units of a character. -/
def utf16Char (c : Char) : List ℕ :=
  if c.toNat < 0x10000 then [c.toNat]
  else [0xD800 + (c.toNat - 0x10000) / 0x400, 0xDC00 + (c.toNat - 0x10000) % 0x400]

/-- `encode_utf16`. -/
def utf16 (s : String) : List ℕ := s.toList.flatMap utf16Char

/-- `is_ascii`. -/
def isAscii (s : String) : Bool := (utf8 s).all fun b => b < 128

/-- `utf16_cmp`. -/
def utf16Cmp (a b : String) : Ordering :=
  if isAscii a && isAscii b then compare ((utf8 a).map UInt8.toNat) ((utf8 b).map UInt8.toNat)
  else compare (utf16 a) (utf16 b)

/-- One unit that is no surrogate, or two that spell the character between them. -/
theorem utf16Char_cases (c : Char) :
    (utf16Char c = [c.toNat] ∧ (c.toNat < 0xD800 ∨ 0xDFFF < c.toNat)) ∨
      ∃ high low, utf16Char c = [high, low] ∧ 0xD800 ≤ high ∧ high < 0xDC00 ∧
        c.toNat = 0x10000 + (high - 0xD800) * 0x400 + (low - 0xDC00) := by
  have hvalid : c.toNat.isValidChar := c.valid
  simp only [utf16Char]
  split_ifs with hlow
  · refine .inl ⟨rfl, ?_⟩
    rcases hvalid with h | h <;> omega
  · refine .inr ⟨_, _, rfl, by omega, ?_, ?_⟩
    · rcases hvalid with h | h <;> omega
    · omega

theorem utf16_flatMap_inj {a b : List Char} (h : a.flatMap utf16Char = b.flatMap utf16Char) :
    a = b := by
  induction a generalizing b with
  | nil =>
    cases b with
    | nil => rfl
    | cons d b => rcases utf16Char_cases d with ⟨hd, -⟩ | ⟨high, low, hd, -⟩ <;> simp [hd] at h
  | cons c a ih =>
    cases b with
    | nil => rcases utf16Char_cases c with ⟨hc, -⟩ | ⟨high, low, hc, -⟩ <;> simp [hc] at h
    | cons d b =>
      rw [List.flatMap_cons, List.flatMap_cons] at h
      have hsame : c.toNat = d.toNat ∧ a.flatMap utf16Char = b.flatMap utf16Char := by
        -- a surrogate is no character of its own
        rcases utf16Char_cases c with ⟨hc, hout⟩ | ⟨high, low, hc, hle, hlt, hn⟩ <;>
          rcases utf16Char_cases d with ⟨hd, hout'⟩ | ⟨high', low', hd, hle', hlt', hn'⟩ <;>
          rw [hc, hd] at h <;>
          simp only [List.cons_append, List.nil_append, List.cons.injEq] at h
        · exact h
        · omega
        · omega
        · obtain ⟨rfl, rfl, h⟩ := h
          exact ⟨hn.trans hn'.symm, h⟩
      rw [Char.toNat_inj.mp hsame.1, ih hsame.2]

theorem utf16_inj {a b : String} (h : utf16 a = utf16 b) : a = b :=
  String.toList_inj.mp (utf16_flatMap_inj h)

theorem utf8EncodeChar_ascii {c : Char} (h : ∀ b ∈ String.utf8EncodeChar c, b < 128) :
    (String.utf8EncodeChar c).map UInt8.toNat = utf16Char c := by
  unfold String.utf8EncodeChar at h ⊢
  simp only at h ⊢
  split_ifs at h ⊢ with h1 h2 h3
  · have hlow : c.toNat ≤ 127 := h1
    have hunit : utf16Char c = [c.toNat] := by
      rw [utf16Char, if_pos (by omega)]
    rw [hunit]
    simp only [List.map_cons, List.map_nil, List.cons.injEq, and_true]
    change c.toNat % 256 = c.toNat
    omega
  all_goals
    have hfirst := h _ List.mem_cons_self
    rw [UInt8.lt_iff_toNat_lt] at hfirst
    simp at hfirst
    omega

theorem utf8_ascii {s : String} (h : isAscii s = true) :
    (utf8 s).map UInt8.toNat = utf16 s := by
  have hall : ∀ b ∈ utf8 s, b < 128 := by simpa [isAscii] using h
  rw [utf8_eq_flatMap] at hall ⊢
  rw [utf16, List.map_flatMap]
  refine List.flatMap_congr fun c hc => utf8EncodeChar_ascii fun b hb => ?_
  exact hall b (List.mem_flatMap.mpr ⟨c, hc, hb⟩)

/-- **One order of keys**: the bytes of ASCII texts are their code units. -/
theorem utf16Cmp_eq (a b : String) : utf16Cmp a b = compare (utf16 a) (utf16 b) := by
  rw [utf16Cmp]
  split_ifs with hascii
  · rw [Bool.and_eq_true] at hascii
    rw [utf8_ascii hascii.1, utf8_ascii hascii.2]
  · rfl

/-- The members of an object, in the order of their keys. -/
def sortMembers {β : Type} (members : List (String × β)) : List (String × β) :=
  members.mergeSort fun a b => (utf16Cmp a.1 b.1).isLE

section Sorting

variable {β γ : Type} {members members' : List (String × β)}

theorem sortMembers_perm (members : List (String × β)) : (sortMembers members).Perm members :=
  List.mergeSort_perm members _

theorem sortMembers_pairwise (members : List (String × β)) :
    (sortMembers members).Pairwise fun a b => (utf16Cmp a.1 b.1).isLE = true := by
  refine List.pairwise_mergeSort (fun a b c hab hbc => ?_) (fun a b => ?_) members
  · simp only [utf16Cmp_eq] at hab hbc ⊢
    exact Std.TransCmp.isLE_trans hab hbc
  · simp only [utf16Cmp_eq]
    have hswap : compare (utf16 b.1) (utf16 a.1) = (compare (utf16 a.1) (utf16 b.1)).swap :=
      Std.OrientedCmp.eq_swap
    rw [hswap]
    cases compare (utf16 a.1) (utf16 b.1) <;> rfl

theorem eq_of_isLE {a b : String} (hab : (utf16Cmp a b).isLE = true)
    (hba : (utf16Cmp b a).isLE = true) : a = b := by
  rw [utf16Cmp_eq] at hab hba
  exact utf16_inj (Std.LawfulEqCmp.eq_of_compare (Std.OrientedCmp.isLE_antisymm hab hba))

/-- Sorted members of distinct keys have increasing keys. -/
theorem sortMembers_increasing (h : (members.map Prod.fst).Nodup) :
    ((sortMembers members).map Prod.fst).Pairwise
      fun k k' => compare (utf16 k) (utf16 k') = .lt := by
  have hnodup : ((sortMembers members).map Prod.fst).Nodup :=
    ((sortMembers_perm members).map Prod.fst).nodup_iff.mpr h
  have hle : ((sortMembers members).map Prod.fst).Pairwise
      fun k k' => (utf16Cmp k k').isLE = true :=
    List.pairwise_map.mpr (sortMembers_pairwise members)
  refine (hle.and hnodup).imp fun hboth => ?_
  obtain ⟨hle, hne⟩ := hboth
  rw [utf16Cmp_eq] at hle
  cases hcmp : compare (utf16 _) (utf16 _) with
  | lt => rfl
  | eq => exact absurd (utf16_inj (Std.LawfulEqCmp.eq_of_compare hcmp)) hne
  | gt =>
    rw [hcmp] at hle
    cases hle

/-- Members of distinct keys are sorted one way, whatever order they came in. -/
theorem sortMembers_eq_of_perm (h : members.Perm members')
    (hnodup : (members.map Prod.fst).Nodup) : sortMembers members = sortMembers members' := by
  refine List.Perm.eq_of_pairwise (fun a b ha hb hab hba => ?_) (sortMembers_pairwise members)
    (sortMembers_pairwise members')
    ((sortMembers_perm members).trans (h.trans (sortMembers_perm members').symm))
  have ha' : a ∈ members := (sortMembers_perm members).mem_iff.mp ha
  have hb' : b ∈ members := h.mem_iff.mpr ((sortMembers_perm members').mem_iff.mp hb)
  exact List.inj_on_of_nodup_map hnodup ha' hb' (eq_of_isLE hab hba)

/-- What is made of the values does not move their members. -/
theorem sortMembers_map (f : β → γ) (members : List (String × β)) :
    sortMembers (members.map fun m => (m.1, f m.2)) =
      (sortMembers members).map fun m => (m.1, f m.2) := by
  rw [sortMembers, sortMembers]
  refine (List.map_mergeSort ?_).symm
  exact fun _ _ _ _ => rfl

end Sorting

/-! ## The encoder -/

/-- `CanonicalError`. -/
inductive CanonicalError where
  /-- a number outside the range the encoder formats exactly -/
  | unrepresentableNumber (text : String)
  | invalidNumber (text : String)
  deriving DecidableEq, Repr

/-- How doubles are displayed: the shortest decimal that reads back, and the text of an error. -/
structure Doubles where
  display : Double → Bytes
  text : Double → String

/-- The bits of a double without its sign. -/
def magnitude (x : Double) : UInt64 := x.bits &&& 0x7FFFFFFFFFFFFFFF

/-- The branches of `write_number` for a double. -/
def writeDouble (D : Doubles) (x : Double) : Except CanonicalError Bytes :=
  if 0x7FF0000000000000 ≤ magnitude x then .error (.invalidNumber (D.text x))
  else if magnitude x = 0 then .ok (utf8 "0")
  -- from 1e-6 to below 1e21, where no exponent is written
  else if magnitude x < 0x3EB0C6F7A0B5ED8D || 0x444B1AE4D6E2EF50 ≤ magnitude x then
    .error (.unrepresentableNumber (D.text x))
  else .ok (D.display x)

/-- The branches of `write_number` for an integer; `serde_json` holds no other. -/
def writeInt (n : Int) : Except CanonicalError Bytes :=
  if -2 ^ 63 ≤ n ∧ n < 2 ^ 63 then .ok (printInt n)
  else if 0 ≤ n ∧ n < 2 ^ 64 then .ok (printInt n)
  else .error (.invalidNumber n.repr)

/-- The bytes of a literal: spans that need no escape are kept whole. -/
def writeSpans (span : Bytes) : Bytes → Bytes
  | [] => span
  | b :: rest =>
    if 32 ≤ b && b ≠ quoteMark && b ≠ backslash then writeSpans (span ++ [b]) rest
    else span ++ escape b ++ writeSpans [] rest

/-- `write_string`. -/
def writeString (s : String) : Bytes := quoteMark :: (writeSpans [] (utf8 s) ++ [quoteMark])

/-- What stands between the brackets, one comma between two. -/
def commas (written : List Bytes) : Bytes := [comma].intercalate written

section Writing

variable (D : Doubles)

mutual

/-- `write_value`; the first member in the order of keys that cannot be written is the error. -/
def writeValue : Value → Except CanonicalError Bytes
  | .null => .ok (utf8 "null")
  | .bool true => .ok (utf8 "true")
  | .bool false => .ok (utf8 "false")
  | .int n => writeInt n
  | .float x => writeDouble D x
  | .string s => .ok (writeString s)
  | .array items => do
    let written ← writeItems items
    return leftBracket :: (commas written ++ [rightBracket])
  | .object members => do
    let written ← (sortMembers (writeMembers members)).mapM fun m =>
      m.2.map fun bytes => writeString m.1 ++ colon :: bytes
    return leftBrace :: (commas written ++ [rightBrace])

def writeItems : List Value → Except CanonicalError (List Bytes)
  | [] => .ok []
  | v :: items => do
    let written ← writeValue v
    let rest ← writeItems items
    return written :: rest

/-- The members of an object, each with what writing its value answers. -/
def writeMembers : List (String × Value) → List (String × Except CanonicalError Bytes)
  | [] => []
  | (k, v) :: members => (k, writeValue v) :: writeMembers members

end

/-- `canonicalize`. -/
def canonicalize (v : Value) : Except CanonicalError Bytes := writeValue D v

end Writing

mutual

/-- What `serde_json` holds without doubles: integers of 64 bits, signed or not, and objects of
distinct keys. -/
def Integral : Value → Prop
  | .int n => -2 ^ 63 ≤ n ∧ n < 2 ^ 64
  | .float _ => False
  | .array items => IntegralItems items
  | .object members => (members.map Prod.fst).Nodup ∧ IntegralMembers members
  | _ => True

def IntegralItems : List Value → Prop
  | [] => True
  | v :: items => Integral v ∧ IntegralItems items

def IntegralMembers : List (String × Value) → Prop
  | [] => True
  | (_, v) :: members => Integral v ∧ IntegralMembers members

end

mutual

/-- The value with the members of every object in the order of their keys. -/
def sorted : Value → Value
  | .array items => .array (sortedItems items)
  | .object members => .object (sortMembers (sortedMembers members))
  | v => v

def sortedItems : List Value → List Value
  | [] => []
  | v :: items => sorted v :: sortedItems items

def sortedMembers : List (String × Value) → List (String × Value)
  | [] => []
  | (k, v) :: members => (k, sorted v) :: sortedMembers members

end

mutual

/-- In every object of the value the keys increase. -/
def Increasing : Value → Prop
  | .array items => IncreasingItems items
  | .object members =>
    (members.map Prod.fst).Pairwise (fun k k' => compare (utf16 k) (utf16 k') = .lt) ∧
      IncreasingMembers members
  | _ => True

def IncreasingItems : List Value → Prop
  | [] => True
  | v :: items => Increasing v ∧ IncreasingItems items

def IncreasingMembers : List (String × Value) → Prop
  | [] => True
  | (_, v) :: members => Increasing v ∧ IncreasingMembers members

end

/-- **Equal up to the order of members**: the least congruence under which the members of an
object may be put in another order. -/
inductive Same : Value → Value → Prop
  | refl (v : Value) : Same v v
  | symm {v w : Value} (h : Same v w) : Same w v
  | trans {u v w : Value} (h : Same u v) (h' : Same v w) : Same u w
  | item {v w : Value} (before after : List Value) (h : Same v w) :
    Same (.array (before ++ v :: after)) (.array (before ++ w :: after))
  | member {v w : Value} (k : String) (before after : List (String × Value)) (h : Same v w) :
    Same (.object (before ++ (k, v) :: after)) (.object (before ++ (k, w) :: after))
  | order {members members' : List (String × Value)} (h : members.Perm members') :
    Same (.object members) (.object members')

/-! ## The items and members of a value -/

section Lists

variable {items : List Value} {members : List (String × Value)}

theorem integralItems_iff : IntegralItems items ↔ ∀ v ∈ items, Integral v := by
  induction items with
  | nil => simp [IntegralItems]
  | cons v items ih => simp [IntegralItems, ih]

theorem integralMembers_iff : IntegralMembers members ↔ ∀ m ∈ members, Integral m.2 := by
  induction members with
  | nil => simp [IntegralMembers]
  | cons m members ih => simp [IntegralMembers, ih]

theorem increasingMembers_iff : IncreasingMembers members ↔ ∀ m ∈ members, Increasing m.2 := by
  induction members with
  | nil => simp [IncreasingMembers]
  | cons m members ih => simp [IncreasingMembers, ih]

theorem sortedItems_eq : sortedItems items = items.map sorted := by
  induction items with
  | nil => rfl
  | cons v items ih => rw [sortedItems, ih, List.map_cons]

theorem sortedMembers_eq : sortedMembers members = members.map fun m => (m.1, sorted m.2) := by
  induction members with
  | nil => rfl
  | cons m members ih => rw [sortedMembers, ih, List.map_cons]

theorem sortedMembers_keys : (sortedMembers members).map Prod.fst = members.map Prod.fst := by
  rw [sortedMembers_eq, List.map_map]
  rfl

end Lists

/-! ## What the encoder writes -/

/-- A byte that needs no escape stands for itself. -/
theorem escape_plain {b : UInt8} (h : (32 ≤ b && b ≠ quoteMark && b ≠ backslash) = true) :
    escape b = [b] := by
  simp only [Bool.and_eq_true, decide_eq_true_eq] at h
  obtain ⟨⟨hle, hquote⟩, hback⟩ := h
  have hlow : ¬ b < 32 := by simpa using hle
  have hne : ∀ c : UInt8, c < 32 → b ≠ c := fun c hc heq => hlow (heq ▸ hc)
  simp [escape, hquote, hback, hlow, hne 8 (by decide), hne 9 (by decide), hne 10 (by decide),
    hne 12 (by decide), hne 13 (by decide)]

theorem writeSpans_eq (span bytes : Bytes) :
    writeSpans span bytes = span ++ bytes.flatMap escape := by
  induction bytes generalizing span with
  | nil => simp [writeSpans]
  | cons b bytes ih =>
    rw [writeSpans]
    split_ifs with hplain
    · simp [ih, escape_plain hplain]
    · simp [ih]

theorem writeString_eq (s : String) : writeString s = quote s := by
  rw [writeString, writeSpans_eq, quote, List.nil_append, List.cons_append]

/-! ### Strings, character by character -/

/-- The bytes from one offset up to another. -/
def sliceBytes (bytes : Bytes) (start stop : ℕ) : Bytes := (bytes.drop start).take (stop - start)

/-- The loop of `write_string`: `start` is the offset of the run that is not copied yet. -/
def copyRuns (bytes : Bytes) (state : ℕ × Bytes) (next : UInt8 × ℕ) : ℕ × Bytes :=
  let (start, out) := state
  let (byte, index) := next
  if 32 ≤ byte && byte ≠ quoteMark && byte ≠ backslash then (start, out)
  else (index + 1, out ++ sliceBytes bytes start index ++ escape byte)

/-- `write_string`, run by run at the offsets where runs begin. -/
def writeRuns (s : String) : Bytes :=
  let bytes := utf8 s
  let (start, out) := bytes.zipIdx.foldl (copyRuns bytes) (0, [quoteMark])
  out ++ bytes.drop start ++ [quoteMark]

/-- One character of a literal, escaped on its own. -/
def escapeChar : Char → Bytes
  | '"' => utf8 "\\\""
  | '\\' => utf8 "\\\\"
  | '\x08' => utf8 "\\b"
  | '\x0c' => utf8 "\\f"
  | '\n' => utf8 "\\n"
  | '\r' => utf8 "\\r"
  | '\t' => utf8 "\\t"
  | c =>
    if c.toNat < 32 then
      utf8 "\\u00" ++ [hexDigit (c.toNat / 16).toUInt8, hexDigit (c.toNat % 16).toUInt8]
    else String.utf8EncodeChar c

/-- **One run of the loop** writes what is left of the bytes, behind the run it goes on with. -/
theorem foldl_copyRuns {bytes rest : Bytes} {start index : ℕ} (out : Bytes) (hstart : start ≤ index)
    (hrest : bytes.drop index = rest) :
    ∃ start' out', (rest.zipIdx index).foldl (copyRuns bytes) (start, out) = (start', out') ∧
      out' ++ bytes.drop start' = out ++ writeSpans (sliceBytes bytes start index) rest := by
  induction rest generalizing start index out with
  | nil =>
    refine ⟨start, out, rfl, ?_⟩
    rw [writeSpans, sliceBytes, List.take_of_length_le]
    rw [List.length_drop]
    have hend := List.drop_eq_nil_iff.mp hrest
    omega
  | cons b rest ih =>
    have hnext : bytes.drop (index + 1) = rest := by
      rw [← List.tail_drop, hrest, List.tail_cons]
    rw [List.zipIdx_cons, List.foldl_cons, copyRuns, writeSpans]
    split_ifs with hplain
    · obtain ⟨start', out', hrun, hout⟩ := ih out (hstart.trans (Nat.le_succ index)) hnext
      refine ⟨start', out', hrun, hout.trans ?_⟩
      have hslice : sliceBytes bytes start (index + 1) = sliceBytes bytes start index ++ [b] := by
        have hlonger : index + 1 - start = (index - start) + 1 := by omega
        have hat : (bytes.drop start)[index - start]? = some b := by
          rw [List.getElem?_drop, Nat.add_sub_cancel' hstart, ← List.head?_drop, hrest, List.head?_cons]
        rw [sliceBytes, hlonger, List.take_add_one, hat]
        rfl
      rw [hslice]
    · obtain ⟨start', out', hrun, hout⟩ := ih (out ++ sliceBytes bytes start index ++ escape b)
        le_rfl hnext
      refine ⟨start', out', hrun, hout.trans ?_⟩
      have hempty : sliceBytes bytes (index + 1) (index + 1) = [] := by simp [sliceBytes]
      rw [hempty]
      simp

/-- Runs are the spans between escapes. -/
theorem writeRuns_eq (s : String) : writeRuns s = writeString s := by
  have hwhole : (utf8 s).drop 0 = utf8 s := rfl
  have hempty : sliceBytes (utf8 s) 0 0 = [] := rfl
  obtain ⟨start, out, hrun, hout⟩ := foldl_copyRuns [quoteMark] (le_refl 0) hwhole
  rw [hempty] at hout
  simp only [writeRuns, hrun, hout, writeString]
  rfl

/-- The bytes of a character, escaped one by one, are the character escaped. -/
theorem flatMap_escape (c : Char) : (String.utf8EncodeChar c).flatMap escape = escapeChar c := by
  by_cases hascii : c.toNat < 128
  · have hall : ∀ n < 128, (String.utf8EncodeChar (Char.ofNat n)).flatMap escape =
        escapeChar (Char.ofNat n) := by decide
    have hchar := hall c.toNat hascii
    rwa [Char.ofNat_toNat] at hchar
  · have hbytes : utf8 (String.singleton c) = String.utf8EncodeChar c := by
      rw [utf8_eq_flatMap]
      simp
    have hplain : ∀ b ∈ String.utf8EncodeChar c, escape b = [b] := by
      intro b hb
      have hhigh : ¬ b < 128 := by
        intro hlow
        obtain ⟨d, hd, hvalue⟩ := exists_char_of_mem_utf8 (hbytes ▸ hb) hlow
        have hsame : d = c := by simpa using hd
        rw [UInt8.lt_iff_toNat_lt, ← hvalue, hsame] at hlow
        exact hascii hlow
      refine escape_plain ?_
      have hne : ∀ a : UInt8, a < 128 → b ≠ a := fun a ha heq => hhigh (heq ▸ ha)
      have hlarge : 32 ≤ b := UInt8.le_trans (by decide) (UInt8.not_lt.mp hhigh)
      simp [hlarge, hne quoteMark (by decide), hne backslash (by decide)]
    have hchar : escapeChar c = String.utf8EncodeChar c := by
      unfold escapeChar
      split
      case h_8 => exact if_neg fun hlow => hascii (hlow.trans (by decide))
      all_goals exact absurd (by decide) hascii
    rw [hchar, List.flatMap_congr hplain]
    simp

/-- **A string is written character by character.** -/
theorem write_string_per_character (s : String) :
    writeRuns s = quoteMark :: (s.toList.flatMap escapeChar ++ [quoteMark]) := by
  have hbytes : (utf8 s).flatMap escape = s.toList.flatMap escapeChar := by
    rw [utf8_eq_flatMap, List.flatMap_assoc]
    exact List.flatMap_congr fun c _ => flatMap_escape c
  rw [writeRuns_eq, writeString_eq, quote, hbytes, List.cons_append]

theorem writeInt_eq {n : Int} (h : -2 ^ 63 ≤ n ∧ n < 2 ^ 64) : writeInt n = .ok (printInt n) := by
  rw [writeInt]
  split_ifs with h1 h2
  · rfl
  · rfl
  · omega

variable {double : Double → Bytes} {D : Doubles}

theorem print_array (items : List Value) :
    print double (.array items) =
      leftBracket :: (commas (items.map (print double)) ++ [rightBracket]) := by
  cases items with
  | nil => rfl
  | cons v items =>
    have hrest : ∀ (v : Value) (items : List Value), print double v ++ printItems double items =
        commas ((v :: items).map (print double)) ++ [rightBracket] := by
      intro v items
      induction items generalizing v with
      | nil => simp [printItems, commas]
      | cons w items ih =>
        rw [printItems, ih w]
        simp [commas, List.intercalate]
    rw [print, hrest]

theorem print_object (members : List (String × Value)) :
    print double (.object members) = leftBrace ::
      (commas (members.map fun m => quote m.1 ++ colon :: print double m.2) ++ [rightBrace]) := by
  rcases members with _ | ⟨⟨k, v⟩, members⟩
  · rfl
  · have hrest : ∀ (k : String) (v : Value) (members : List (String × Value)),
        quote k ++ colon :: (print double v ++ printMembers double members) =
          commas (((k, v) :: members).map fun m => quote m.1 ++ colon :: print double m.2) ++
            [rightBrace] := by
      intro k v members
      induction members generalizing k v with
      | nil => simp [printMembers, commas]
      | cons m members ih =>
        rw [printMembers, ih m.1 m.2]
        simp [commas, List.intercalate]
    rw [print, hrest]

mutual

/-- **The encoder** writes the compact text of the sorted value. -/
theorem writeValue_eq (v : Value) (hv : Integral v) :
    writeValue D v = .ok (print double (sorted v)) := by
  cases v with
  | null => rfl
  | bool b => cases b <;> rfl
  | int n => exact writeInt_eq hv
  | float x => exact hv.elim
  | string s => simp only [writeValue, writeString_eq, sorted, print]
  | array items =>
    simp only [writeValue, writeItems_eq items hv, sorted, ok_bind, print_array]
    rfl
  | object members =>
    have hkeys : sortMembers (writeMembers D members) =
        (sortMembers (sortedMembers members)).map fun m =>
          (m.1, (.ok (print double m.2) : Except CanonicalError Bytes)) := by
      rw [writeMembers_eq members hv.2]
      exact sortMembers_map (fun v => (.ok (print double v) : Except CanonicalError Bytes))
        (sortedMembers members)
    have hwritten : (sortMembers (writeMembers D members)).mapM
        (fun m => m.2.map fun bytes => writeString m.1 ++ colon :: bytes) =
          .ok ((sortMembers (sortedMembers members)).map fun m =>
            quote m.1 ++ colon :: print double m.2) := by
      rw [hkeys, List.mapM_map]
      simp only [Function.comp_def, Except.map, writeString_eq]
      exact List.mapM_pure
    simp only [writeValue, hwritten, sorted, ok_bind, print_object]
    rfl

theorem writeItems_eq (items : List Value) (hitems : IntegralItems items) :
    writeItems D items = .ok ((sortedItems items).map (print double)) := by
  cases items with
  | nil => rfl
  | cons v items =>
    simp only [writeItems, writeValue_eq v hitems.1, writeItems_eq items hitems.2, ok_bind,
      sortedItems, List.map_cons]
    rfl

theorem writeMembers_eq (members : List (String × Value)) (hmembers : IntegralMembers members) :
    writeMembers D members = (sortedMembers members).map fun m =>
      (m.1, .ok (print double m.2)) := by
  cases members with
  | nil => rfl
  | cons m members =>
    obtain ⟨k, v⟩ := m
    simp only [writeMembers, writeValue_eq v hmembers.1, writeMembers_eq members hmembers.2,
      sortedMembers, List.map_cons]

end

/-! ## Sorted values -/

mutual

theorem increasing_sorted (v : Value) (hv : Integral v) : Increasing (sorted v) := by
  cases v with
  | array items => exact increasing_sortedItems items hv
  | object members =>
    refine ⟨sortMembers_increasing (by rw [sortedMembers_keys]; exact hv.1), ?_⟩
    have hall := increasingMembers_iff.mp (increasing_sortedMembers members hv.2)
    exact increasingMembers_iff.mpr fun m hm => hall m ((sortMembers_perm _).mem_iff.mp hm)
  | float x => exact hv.elim
  | _ => trivial

theorem increasing_sortedItems (items : List Value) (hitems : IntegralItems items) :
    IncreasingItems (sortedItems items) := by
  cases items with
  | nil => trivial
  | cons v items =>
    exact ⟨increasing_sorted v hitems.1, increasing_sortedItems items hitems.2⟩

theorem increasing_sortedMembers (members : List (String × Value))
    (hmembers : IntegralMembers members) : IncreasingMembers (sortedMembers members) := by
  cases members with
  | nil => trivial
  | cons m members =>
    exact ⟨increasing_sorted m.2 hmembers.1, increasing_sortedMembers members hmembers.2⟩

end

mutual

theorem Integral.floatFree (v : Value) (hv : Integral v) : v.FloatFree := by
  cases v with
  | array items => exact floatFreeItems items hv
  | object members => exact floatFreeMembers members hv.2
  | float x => exact hv.elim
  | _ => trivial

theorem floatFreeItems (items : List Value) (hitems : IntegralItems items) :
    FloatFreeItems items := by
  cases items with
  | nil => trivial
  | cons v items => exact ⟨hitems.1.floatFree, floatFreeItems items hitems.2⟩

theorem floatFreeMembers (members : List (String × Value)) (hmembers : IntegralMembers members) :
    FloatFreeMembers members := by
  cases members with
  | nil => trivial
  | cons m members => exact ⟨hmembers.1.floatFree, floatFreeMembers members hmembers.2⟩

end

/-! ## Values equal up to the order of members -/

namespace Same

variable {v w : Value}

/-- Items are replaced one after the other. -/
theorem items {f : Value → Value} (before items : List Value) (h : ∀ v ∈ items, Same v (f v)) :
    Same (.array (before ++ items)) (.array (before ++ items.map f)) := by
  induction items generalizing before with
  | nil => exact .refl _
  | cons v items ih =>
    have hfirst := Same.item before items (h v List.mem_cons_self)
    have hrest := ih (before ++ [f v]) fun w hw => h w (List.mem_cons_of_mem _ hw)
    rw [List.append_assoc, List.append_assoc] at hrest
    exact hfirst.trans hrest

theorem members {f : Value → Value} (before members : List (String × Value))
    (h : ∀ m ∈ members, Same m.2 (f m.2)) :
    Same (.object (before ++ members))
      (.object (before ++ members.map fun m => (m.1, f m.2))) := by
  induction members generalizing before with
  | nil => exact .refl _
  | cons m members ih =>
    have hfirst := Same.member m.1 before members (h m List.mem_cons_self)
    have hrest := ih (before ++ [(m.1, f m.2)]) fun n hn => h n (List.mem_cons_of_mem _ hn)
    rw [List.append_assoc, List.append_assoc] at hrest
    exact hfirst.trans hrest

mutual

/-- Sorting changes the order of members only. -/
theorem sorted (v : Value) : Same v (Canonical.sorted v) := by
  cases v with
  | array items =>
    have hitems := Same.items [] items (sortedItems items)
    rwa [List.nil_append, List.nil_append, ← sortedItems_eq] at hitems
  | object members =>
    have hmembers := Same.members [] members (sortedMembers members)
    rw [List.nil_append, List.nil_append, ← sortedMembers_eq] at hmembers
    exact hmembers.trans (.order (sortMembers_perm _).symm)
  | _ => exact .refl _

theorem sortedItems (items : List Value) : ∀ v ∈ items, Same v (Canonical.sorted v) := by
  cases items with
  | nil => exact nofun
  | cons v items => exact List.forall_mem_cons.mpr ⟨sorted v, sortedItems items⟩

theorem sortedMembers (members : List (String × Value)) :
    ∀ m ∈ members, Same m.2 (Canonical.sorted m.2) := by
  cases members with
  | nil => exact nofun
  | cons m members =>
    obtain ⟨k, v⟩ := m
    exact List.forall_mem_cons.mpr ⟨sorted v, sortedMembers members⟩

end

/-- Values that are the same are integral together, and sorted alike. -/
theorem sorted_eq (h : Same v w) :
    (Integral v ↔ Integral w) ∧ (Integral v → Canonical.sorted v = Canonical.sorted w) := by
  induction h with
  | refl v => exact ⟨.rfl, fun _ => rfl⟩
  | symm _ ih => exact ⟨ih.1.symm, fun hw => (ih.2 (ih.1.mpr hw)).symm⟩
  | trans _ _ ih ih' =>
    exact ⟨ih.1.trans ih'.1, fun hu => (ih.2 hu).trans (ih'.2 (ih.1.mp hu))⟩
  | item before after _ ih =>
    simp only [Integral, integralItems_iff, List.mem_append, List.mem_cons, Canonical.sorted,
      sortedItems_eq, List.map_append, List.map_cons]
    refine ⟨⟨fun hall x hx => ?_, fun hall x hx => ?_⟩, fun hall => ?_⟩
    · rcases hx with hx | rfl | hx
      · exact hall x (.inl hx)
      · exact ih.1.mp (hall _ (.inr (.inl rfl)))
      · exact hall x (.inr (.inr hx))
    · rcases hx with hx | rfl | hx
      · exact hall x (.inl hx)
      · exact ih.1.mpr (hall _ (.inr (.inl rfl)))
      · exact hall x (.inr (.inr hx))
    · rw [ih.2 (hall _ (.inr (.inl rfl)))]
  | member k before after _ ih =>
    simp only [Integral, integralMembers_iff, List.mem_append, List.mem_cons, Canonical.sorted,
      sortedMembers_eq, List.map_append, List.map_cons]
    refine ⟨and_congr_right fun _ => ⟨fun hall x hx => ?_, fun hall x hx => ?_⟩, fun hall => ?_⟩
    · rcases hx with hx | rfl | hx
      · exact hall x (.inl hx)
      · exact ih.1.mp (hall _ (.inr (.inl rfl)))
      · exact hall x (.inr (.inr hx))
    · rcases hx with hx | rfl | hx
      · exact hall x (.inl hx)
      · exact ih.1.mpr (hall _ (.inr (.inl rfl)))
      · exact hall x (.inr (.inr hx))
    · rw [ih.2 (hall.2 _ (.inr (.inl rfl)))]
  | order hperm =>
    simp only [Integral, integralMembers_iff, Canonical.sorted]
    refine ⟨and_congr (hperm.map _).nodup_iff ?_, fun hall => ?_⟩
    · exact forall_congr' fun m => imp_congr_left hperm.mem_iff
    · rw [sortMembers_eq_of_perm _ (by rw [sortedMembers_keys]; exact hall.1)]
      rw [sortedMembers_eq, sortedMembers_eq]
      exact hperm.map _

end Same

theorem integral_sorted {v : Value} (hv : Integral v) : Integral (sorted v) :=
  (Same.sorted v).sorted_eq.1.mp hv

/-- The text of a value without doubles is its own. -/
theorem print_inj {v w : Value} (hv : v.FloatFree) (hw : w.FloatFree)
    (h : print double v = print double w) : v = w := by
  have hread := @parse_text double v hv
  rw [h, @parse_text double w hw] at hread
  exact (congrArg Prod.fst (Option.some.inj hread)).symm

theorem sorted_eq_iff {v w : Value} (hv : Integral v) : sorted v = sorted w ↔ Same v w := by
  constructor
  · intro h
    exact (Same.sorted v).trans (h ▸ (Same.sorted w).symm)
  · intro h
    exact h.sorted_eq.2 hv

/-- **Canonical JSON.** Of values whose numbers are integers, the encoder writes equal bytes exactly
for those that are equal up to the order of members. The bytes are the compact text of a value that
is so equal, has the keys of its objects in increasing order of code units, and is what they are
read back as. -/
theorem canonical_json (D : Doubles) (v w : Value) (hv : Integral v) (hw : Integral w) :
    ∃ bytes bytes', canonicalize D v = .ok bytes ∧ canonicalize D w = .ok bytes' ∧
      (bytes = bytes' ↔ Same v w) ∧
      ∃ read, parse bytes.length bytes = some (read, []) ∧ bytes = print D.display read ∧
        Same v read ∧ Increasing read := by
  have hfree : (sorted v).FloatFree := (integral_sorted hv).floatFree
  have hfree' : (sorted w).FloatFree := (integral_sorted hw).floatFree
  refine ⟨print D.display (sorted v), print D.display (sorted w), writeValue_eq v hv,
    writeValue_eq w hw, ?_, sorted v, parse_text hfree, rfl, .sorted v, increasing_sorted v hv⟩
  rw [← sorted_eq_iff hv]
  exact ⟨print_inj hfree hfree', fun h => by rw [h]⟩

/-- A member whose key comes first by code units and last by bytes. -/
def sampleValue : Value :=
  .object [("\uE000", .int (-1)), ("😀", .array [.int (2 ^ 64 - 1), .null])]

def sampleDoubles : Doubles := ⟨fun _ => utf8 "1.5", fun _ => "1.5"⟩

theorem integral_sampleValue : Integral sampleValue := by
  refine ⟨by decide, ⟨by decide, by decide⟩, ⟨⟨by decide, by decide⟩, trivial, trivial⟩, trivial⟩

theorem canonical_json_sample : ∃ bytes, canonicalize sampleDoubles sampleValue = .ok bytes ∧
    ∃ read, parse bytes.length bytes = some (read, []) ∧ Same sampleValue read ∧
      Increasing read := by
  obtain ⟨bytes, -, hbytes, -, -, read, hread, -, hsame, hincreasing⟩ :=
    canonical_json sampleDoubles sampleValue sampleValue integral_sampleValue integral_sampleValue
  exact ⟨bytes, hbytes, read, hread, hsame, hincreasing⟩

end Afactory.Canonical
