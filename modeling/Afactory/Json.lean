import Mathlib

/-!
# JSON texts

Compact JSON as bytes: how values are written, and a reader of what was written.

* `Value`, `print`: a value and its compact text, in which no newline stands (`print_lines`);
* `quote`, `unquote`: string literals; a literal ends at the first quote that is not escaped
  (`unquote_quote`);
* `decimal`, `value`: numbers in decimal, without a leading zero (`decimal_canonical`);
* `parse_print`: a value without doubles is what its text is read as, whatever follows it.

How a double is written is the parameter `double` of `print`.
-/

namespace Afactory.Json

abbrev Bytes := List UInt8

/-! ## Texts as bytes -/

abbrev newline : UInt8 := 10
abbrev quoteMark : UInt8 := 34
abbrev comma : UInt8 := 44
abbrev minus : UInt8 := 45
abbrev colon : UInt8 := 58
abbrev leftBracket : UInt8 := 91
abbrev backslash : UInt8 := 92
abbrev rightBracket : UInt8 := 93
abbrev leftBrace : UInt8 := 123
abbrev rightBrace : UInt8 := 125

/-- The bytes of a text. -/
def utf8 (s : String) : Bytes := s.toUTF8.data.toList

/-- The text whose bytes these are. -/
def ofUtf8? (bytes : Bytes) : Option String := String.fromUTF8? ⟨bytes.toArray⟩

theorem utf8_inj {a b : String} (h : utf8 a = utf8 b) : a = b := by
  have hdata : a.toUTF8.data = b.toUTF8.data := Array.toList_inj.mp h
  exact String.toByteArray_inj.mp (congrArg ByteArray.mk hdata)

@[simp]
theorem ofUtf8?_utf8 (s : String) : ofUtf8? (utf8 s) = some s := by
  have hbytes : (⟨(utf8 s).toArray⟩ : ByteArray) = s.toUTF8 := by simp [utf8]
  unfold ofUtf8? String.fromUTF8?
  rw [hbytes, dif_pos (show s.toUTF8.IsValidUTF8 from s.isValidUTF8)]
  rfl

@[simp]
theorem utf8_append (a b : String) : utf8 (a ++ b) = utf8 a ++ utf8 b := by
  simp [utf8]

theorem utf8_eq_flatMap (s : String) : utf8 s = s.toList.flatMap String.utf8EncodeChar := by
  have hencode : s.toList.utf8Encode.data.toList = s.toList.flatMap String.utf8EncodeChar := by
    rw [List.utf8Encode, List.data_toByteArray]
  rw [← hencode, String.utf8Encode_toList]
  rfl

/-- A byte below 128 is a character of its own. -/
theorem exists_char_of_mem_utf8 {s : String} {b : UInt8} (h : b ∈ utf8 s) (hlow : b < 128) :
    ∃ c ∈ s.toList, c.toNat = b.toNat := by
  rw [utf8_eq_flatMap] at h
  obtain ⟨c, hc, hb⟩ := List.mem_flatMap.mp h
  refine ⟨c, hc, ?_⟩
  rw [UInt8.lt_iff_toNat_lt] at hlow
  unfold String.utf8EncodeChar at hb
  simp only at hb
  split_ifs at hb
  all_goals
    simp only [List.mem_cons, List.not_mem_nil, or_false, ← UInt8.toNat_inj,
      UInt8.toNat_ofNat', UInt8.toNat_ofNat] at hb hlow
    rw [Char.toNat]
    omega

/-- What is left of the bytes after the text they begin with. -/
@[grind =] def strip : Bytes → Bytes → Option Bytes
  | [], bytes => some bytes
  | _ :: _, [] => none
  | a :: text, b :: bytes => if a = b then strip text bytes else none

@[simp]
theorem strip_append (text rest : Bytes) : strip text (text ++ rest) = some rest := by
  induction text with
  | nil => rfl
  | cons a text ih => simp [strip, ih]

theorem strip_eq_some {text bytes rest : Bytes} :
    strip text bytes = some rest ↔ bytes = text ++ rest := by
  constructor
  · intro h
    induction text generalizing bytes with
    | nil => simpa [strip] using h
    | cons a text ih =>
      cases bytes with
      | nil => simp [strip] at h
      | cons b bytes =>
        simp only [strip, Option.ite_none_right_eq_some] at h
        rw [h.1, ih h.2, List.cons_append]
  · rintro rfl
    exact strip_append text rest

/-- **Reading up to a mark.** What stands before the first mark is the same on both sides. -/
theorem append_mark_inj {mark : UInt8} {a b x y : Bytes} (ha : mark ∉ a) (hb : mark ∉ b)
    (h : a ++ mark :: x = b ++ mark :: y) : a = b ∧ x = y := by
  induction a generalizing b with
  | nil =>
    cases b with
    | nil => simpa using h
    | cons c b =>
      simp only [List.nil_append, List.cons_append, List.cons.injEq] at h
      exact absurd (h.1 ▸ List.mem_cons_self) hb
  | cons c a ih =>
    cases b with
    | nil =>
      simp only [List.nil_append, List.cons_append, List.cons.injEq] at h
      exact absurd (h.1 ▸ List.mem_cons_self) ha
    | cons d b =>
      simp only [List.cons_append, List.cons.injEq] at h
      obtain ⟨rfl, h⟩ := h
      obtain ⟨rfl, rfl⟩ := ih (by simp_all) (by simp_all) h
      exact ⟨rfl, rfl⟩

/-! ## Decimal numbers -/

def isDigit (b : UInt8) : Bool := 48 ≤ b && b ≤ 57

/-- A number in decimal, without a leading zero. -/
def decimal (n : ℕ) : Bytes := (Nat.toDigits 10 n).map fun c => c.toNat.toUInt8

/-- The number that digits spell. -/
def value (digits : Bytes) : ℕ := digits.foldl (fun n d => 10 * n + (d.toNat - 48)) 0

theorem digit_toNat {c : Char} (h : c.isDigit) : c.toNat.toUInt8.toNat = c.toNat := by
  have hle : '0'.toNat ≤ c.toNat ∧ c.toNat ≤ '9'.toNat := Char.isDigit_iff_toNat.mp h
  have h9 : '9'.toNat = 57 := rfl
  have hlt : c.toNat < 256 := by omega
  simpa using hlt

theorem isDigit_of_mem_decimal {n : ℕ} {b : UInt8} (h : b ∈ decimal n) : isDigit b := by
  obtain ⟨c, hc, rfl⟩ := List.mem_map.mp h
  have hdigit : c.isDigit := Nat.isDigit_of_mem_toDigits (by omega) (by omega) hc
  have hle : '0'.toNat ≤ c.toNat ∧ c.toNat ≤ '9'.toNat := Char.isDigit_iff_toNat.mp hdigit
  have h0 : '0'.toNat = 48 := rfl
  have h9 : '9'.toNat = 57 := rfl
  have hc := digit_toNat hdigit
  simp only [isDigit, UInt8.le_iff_toNat_le, Bool.and_eq_true, decide_eq_true_eq, hc]
  exact ⟨by simpa using by omega, by simpa using by omega⟩

theorem decimal_ne_nil (n : ℕ) : decimal n ≠ [] := by
  simp [decimal]

@[simp]
theorem value_decimal (n : ℕ) : value (decimal n) = n := by
  have hdigits : ∀ (l : List Char) (m : ℕ), (∀ c ∈ l, c.isDigit) →
      (l.map fun c => c.toNat.toUInt8).foldl (fun n d => 10 * n + (d.toNat - 48)) m =
        Nat.ofDigitChars 10 l m := by
    intro l
    induction l with
    | nil => intro m _; rfl
    | cons c l ih =>
      intro m hl
      rw [List.map_cons, List.foldl_cons, ih _ fun d hd => hl d (List.mem_cons_of_mem _ hd),
        Nat.ofDigitChars_cons, digit_toNat (hl c List.mem_cons_self)]
      rfl
  rw [value, decimal, hdigits _ _ fun c hc =>
    Nat.isDigit_of_mem_toDigits (by omega) (by omega) hc]
  exact Nat.ofDigitChars_ten_toDigits

theorem decimal_lt_ten {n : ℕ} (h : n < 10) : decimal n = [48 + n.toUInt8] := by
  interval_cases n <;> rfl

theorem decimal_ge_ten {n : ℕ} (h : 10 ≤ n) : decimal n = decimal (n / 10) ++ decimal (n % 10) := by
  have hlast : Nat.toDigits 10 (n % 10) = [(n % 10).digitChar] :=
    Nat.toDigits_of_lt_base (by omega)
  rw [decimal, Nat.toDigits_of_base_le (by omega) h, List.map_append, decimal, decimal, hlast]

/-- A number other than zero is written without a leading zero. -/
theorem decimal_canonical {n : ℕ} (h : 0 < n) : (decimal n).head? ≠ some 48 := by
  induction n using Nat.strong_induction_on with
  | _ n ih =>
    by_cases hn : n < 10
    · rw [decimal_lt_ten hn]
      interval_cases n <;> decide
    · rw [decimal_ge_ten (by omega), List.head?_append_of_ne_nil _ (decimal_ne_nil _)]
      exact ih (n / 10) (by omega) (by omega)

/-- **Reading a number.** What follows the digits ends them. -/
theorem takeWhile_decimal {n : ℕ} {rest : Bytes} (h : ∀ b ∈ rest.head?, isDigit b = false) :
    (decimal n ++ rest).takeWhile isDigit = decimal n := by
  rw [List.takeWhile_append_of_pos fun b hb => isDigit_of_mem_decimal hb]
  cases rest with
  | nil => simp
  | cons b rest => simp [h b rfl]

/-! ## String literals -/

def hexDigit (n : UInt8) : UInt8 := if n < 10 then 48 + n else 87 + n

def hexValue (b : UInt8) : UInt8 := if b < 97 then b - 48 else b - 87

/-- One byte of a string literal: quotes, backslashes and control characters are escaped. -/
def escape (b : UInt8) : Bytes :=
  if b = quoteMark then [backslash, quoteMark]
  else if b = backslash then [backslash, backslash]
  else if b = 8 then [backslash, 98]
  else if b = 9 then [backslash, 116]
  else if b = newline then [backslash, 110]
  else if b = 12 then [backslash, 102]
  else if b = 13 then [backslash, 114]
  else if b < 32 then [backslash, 117, 48, 48, hexDigit (b / 16), hexDigit (b % 16)]
  else [b]

/-- A string literal. -/
def quote (s : String) : Bytes := quoteMark :: (utf8 s).flatMap escape ++ [quoteMark]

/-- The byte an escape after its backslash stands for, and what follows it. -/
def unescape : Bytes → Option (UInt8 × Bytes)
  | 117 :: 48 :: 48 :: high :: low :: rest => some (16 * hexValue high + hexValue low, rest)
  | 98 :: rest => some (8, rest)
  | 116 :: rest => some (9, rest)
  | 110 :: rest => some (newline, rest)
  | 102 :: rest => some (12, rest)
  | 114 :: rest => some (13, rest)
  | b :: rest => if b = quoteMark ∨ b = backslash then some (b, rest) else none
  | [] => none

/-- The bytes of a literal up to its closing quote, and what follows it. -/
def literal : ℕ → Bytes → Option (Bytes × Bytes)
  | 0, _ => none
  | _, [] => none
  | fuel + 1, b :: rest =>
    if b = quoteMark then some ([], rest)
    else if b = backslash then do
      let (c, rest) ← unescape rest
      let (bytes, rest) ← literal fuel rest
      some (c :: bytes, rest)
    else do
      let (bytes, rest) ← literal fuel rest
      some (b :: bytes, rest)

/-- A literal past its opening quote: the text it spells and what follows it. -/
def unquote (bytes : Bytes) : Option (String × Bytes) := do
  let (text, rest) ← literal bytes.length bytes
  let s ← ofUtf8? text
  some (s, rest)

/-- An escape is one byte that needs none, or a backslash and what it is read back from. -/
theorem escape_cases (b : UInt8) :
    (escape b = [b] ∧ b ≠ quoteMark ∧ b ≠ backslash ∧ 32 ≤ b) ∨
      ∃ bytes, escape b = backslash :: bytes ∧ (∀ c ∈ bytes, 32 ≤ c) ∧
        ∀ rest, unescape (bytes ++ rest) = some (b, rest) := by
  by_cases hlow : b < 32
  · refine .inr ?_
    obtain ⟨n, hn, rfl⟩ : ∃ n < 32, b = UInt8.ofNat n :=
      ⟨b.toNat, by simpa [UInt8.lt_iff_toNat_lt] using hlow, by simp⟩
    have htail : ∀ n < 32, (escape (UInt8.ofNat n)).tail.all (32 ≤ ·) = true := by decide
    have hbytes : ∀ c ∈ (escape (UInt8.ofNat n)).tail, 32 ≤ c := by simpa using htail n hn
    interval_cases n <;> exact ⟨_, rfl, hbytes, fun _ => rfl⟩
  by_cases hquote : b = quoteMark
  · subst hquote
    exact .inr ⟨[quoteMark], rfl, List.forall_mem_singleton.mpr (by decide), fun rest => rfl⟩
  by_cases hback : b = backslash
  · subst hback
    exact .inr ⟨[backslash], rfl, List.forall_mem_singleton.mpr (by decide), fun rest => rfl⟩
  have hle : 32 ≤ b := by simpa using hlow
  have hne : ∀ c : UInt8, c < 32 → b ≠ c := fun c hc heq => hlow (heq ▸ hc)
  refine .inl ⟨?_, hquote, hback, hle⟩
  simp [escape, hquote, hback, hlow, hne 8 (by decide), hne 9 (by decide), hne 10 (by decide),
    hne 12 (by decide), hne 13 (by decide)]

theorem literal_escape {text rest : Bytes} {fuel : ℕ}
    (h : (text.flatMap escape).length < fuel) :
    literal fuel (text.flatMap escape ++ quoteMark :: rest) = some (text, rest) := by
  induction text generalizing fuel with
  | nil =>
    obtain ⟨fuel, rfl⟩ : ∃ n, fuel = n + 1 := ⟨fuel - 1, by omega⟩
    simp [literal]
  | cons b text ih =>
    obtain ⟨fuel, rfl⟩ : ∃ n, fuel = n + 1 := ⟨fuel - 1, by omega⟩
    simp only [List.flatMap_cons, List.length_append] at h
    rcases escape_cases b with ⟨hb, hquote, hback, -⟩ | ⟨bytes, hb, -, hread⟩
    · rw [hb, List.length_singleton] at h
      simp [literal, hb, hquote, hback, ih (by omega : (text.flatMap escape).length < fuel)]
    · rw [hb, List.length_cons] at h
      have hne : backslash ≠ quoteMark := by decide
      simp [literal, hb, hread, hne, ih (by omega : (text.flatMap escape).length < fuel)]

/-- **A literal ends at its own closing quote**, and spells the text it was written from. -/
theorem unquote_quote (s : String) (rest : Bytes) :
    ∃ bytes, quote s ++ rest = quoteMark :: bytes ∧ unquote bytes = some (s, rest) := by
  refine ⟨(utf8 s).flatMap escape ++ quoteMark :: rest, by simp [quote], ?_⟩
  rw [unquote, literal_escape (by simp)]
  simp

theorem quote_append_inj {a b : String} {x y : Bytes} (h : quote a ++ x = quote b ++ y) :
    a = b := by
  obtain ⟨bytes, ha, hreadA⟩ := unquote_quote a x
  obtain ⟨bytes', hb, hreadB⟩ := unquote_quote b y
  obtain rfl : bytes = bytes' := by simpa [ha, hb] using h
  have hboth : some (a, x) = some (b, y) := hreadA.symm.trans hreadB
  exact congrArg Prod.fst (Option.some.inj hboth)

/-- No control character stands in a literal. -/
theorem le_of_mem_quote {s : String} {b : UInt8} (h : b ∈ quote s) : 32 ≤ b := by
  simp only [quote, List.cons_append, List.mem_cons, List.mem_append, List.mem_flatMap,
    List.not_mem_nil, or_false] at h
  rcases h with rfl | ⟨c, -, hb⟩ | rfl
  · decide
  · rcases escape_cases c with ⟨hc, -, -, hle⟩ | ⟨bytes, hc, hle, -⟩
    · rw [hc, List.mem_singleton] at hb
      exact hb ▸ hle
    · rw [hc, List.mem_cons] at hb
      rcases hb with rfl | hb
      · decide
      · exact hle b hb
  · decide

/-! ## Values -/

/-- A double, as its bits. -/
structure Double where
  bits : UInt64
  deriving DecidableEq, Repr

/-- A JSON value; the members of an object stand in the order they are written in. -/
inductive Value where
  | null
  | bool (b : Bool)
  | int (n : Int)
  | float (x : Double)
  | string (s : String)
  | array (items : List Value)
  | object (members : List (String × Value))

section Print

variable (double : Double → Bytes)

/-- An integer in decimal. -/
def printInt : Int → Bytes
  | .ofNat n => decimal n
  | .negSucc n => minus :: decimal (n + 1)

mutual

/-- The compact text of a value, doubles written by `double`. -/
@[grind =] def print : Value → Bytes
  | .null => utf8 "null"
  | .bool true => utf8 "true"
  | .bool false => utf8 "false"
  | .int n => printInt n
  | .float x => double x
  | .string s => quote s
  | .array [] => [leftBracket, rightBracket]
  | .array (v :: items) => leftBracket :: (print v ++ printItems items)
  | .object [] => [leftBrace, rightBrace]
  | .object ((k, v) :: members) =>
    leftBrace :: (quote k ++ colon :: (print v ++ printMembers members))

/-- The items after the first one, up to the closing bracket. -/
@[grind =] def printItems : List Value → Bytes
  | [] => [rightBracket]
  | v :: items => comma :: (print v ++ printItems items)

/-- The members after the first one, up to the closing brace. -/
@[grind =] def printMembers : List (String × Value) → Bytes
  | [] => [rightBrace]
  | (k, v) :: members => comma :: (quote k ++ colon :: (print v ++ printMembers members))

end

end Print

mutual

/-- No double stands in the value. -/
def Value.FloatFree : Value → Prop
  | .float _ => False
  | .array items => FloatFreeItems items
  | .object members => FloatFreeMembers members
  | _ => True

def FloatFreeItems : List Value → Prop
  | [] => True
  | v :: items => v.FloatFree ∧ FloatFreeItems items

def FloatFreeMembers : List (String × Value) → Prop
  | [] => True
  | (_, v) :: members => v.FloatFree ∧ FloatFreeMembers members

end

/-! ## Reading what was written -/

/-- The digits the bytes begin with, as a number, and what follows them. -/
def parseNat (bytes : Bytes) : Option (ℕ × Bytes) :=
  let digits := bytes.takeWhile isDigit
  if digits.isEmpty then none else some (value digits, bytes.drop digits.length)

/-- A value that is one word. -/
def parseWord (bytes : Bytes) : Option (Value × Bytes) :=
  match strip (utf8 "null") bytes with
  | some rest => some (.null, rest)
  | none =>
    match strip (utf8 "true") bytes with
    | some rest => some (.bool true, rest)
    | none => (strip (utf8 "false") bytes).map fun rest => (.bool false, rest)

mutual

/-- The compact value the bytes begin with, and what follows it. -/
@[grind =] def parse : ℕ → Bytes → Option (Value × Bytes)
  | 0, _ | _, [] => none
  | fuel + 1, b :: rest =>
    if b = quoteMark then (unquote rest).map fun (s, rest) => (.string s, rest)
    else if b = leftBracket then
      if rest.head? = some rightBracket then some (.array [], rest.tail)
      else do
        let (v, rest) ← parse fuel rest
        let (items, rest) ← parseItems fuel rest
        some (.array (v :: items), rest)
    else if b = leftBrace then
      if rest.head? = some rightBrace then some (.object [], rest.tail)
      else do
        let (member, rest) ← parseMember fuel rest
        let (members, rest) ← parseMembers fuel rest
        some (.object (member :: members), rest)
    else if b = minus then (parseNat rest).map fun (n, rest) => (.int (-n), rest)
    else if isDigit b then (parseNat (b :: rest)).map fun (n, rest) => (.int n, rest)
    else parseWord (b :: rest)

def parseItems : ℕ → Bytes → Option (List Value × Bytes)
  | 0, _ | _, [] => none
  | fuel + 1, b :: rest =>
    if b = rightBracket then some ([], rest)
    else if b = comma then do
      let (v, rest) ← parse fuel rest
      let (items, rest) ← parseItems fuel rest
      some (v :: items, rest)
    else none

def parseMember : ℕ → Bytes → Option ((String × Value) × Bytes)
  | 0, _ | _, [] => none
  | fuel + 1, b :: rest =>
    if b = quoteMark then do
      let (k, rest) ← unquote rest
      let rest ← strip [colon] rest
      let (v, rest) ← parse fuel rest
      some ((k, v), rest)
    else none

def parseMembers : ℕ → Bytes → Option (List (String × Value) × Bytes)
  | 0, _ | _, [] => none
  | fuel + 1, b :: rest =>
    if b = rightBrace then some ([], rest)
    else if b = comma then do
      let (member, rest) ← parseMember fuel rest
      let (members, rest) ← parseMembers fuel rest
      some (member :: members, rest)
    else none

end

/-- What follows a value does not carry a number on. -/
def Ends (rest : Bytes) : Prop := ∀ b ∈ rest.head?, isDigit b = false

theorem parseNat_decimal {n : ℕ} {rest : Bytes} (h : Ends rest) :
    parseNat (decimal n ++ rest) = some (n, rest) := by
  have hne : (decimal n).isEmpty = false := by simpa using decimal_ne_nil n
  simp [parseNat, takeWhile_decimal h, hne]

theorem ends_printItems (double : Double → Bytes) (items : List Value) (rest : Bytes) :
    Ends (printItems double items ++ rest) := by
  cases items <;> simp [Ends, printItems] <;> decide

theorem ends_printMembers (double : Double → Bytes) (members : List (String × Value))
    (rest : Bytes) : Ends (printMembers double members ++ rest) := by
  cases members <;> simp [Ends, printMembers] <;> decide

/-- A number is read by its first digit. -/
theorem decimal_cons (n : ℕ) : ∃ b bytes, decimal n = b :: bytes ∧ isDigit b = true := by
  cases h : decimal n with
  | nil => exact absurd h (decimal_ne_nil n)
  | cons b bytes => exact ⟨b, bytes, rfl, isDigit_of_mem_decimal (h ▸ List.mem_cons_self)⟩

/-- A digit begins no other kind of value. -/
theorem isDigit_ne {b : UInt8} (h : isDigit b = true) :
    b ≠ quoteMark ∧ b ≠ leftBracket ∧ b ≠ leftBrace ∧ b ≠ minus ∧ b ≠ rightBracket := by
  refine ⟨?_, ?_, ?_, ?_, ?_⟩ <;> rintro rfl <;> exact absurd h (by decide)

theorem quote_cons (s : String) : ∃ bytes, quote s = quoteMark :: bytes := ⟨_, rfl⟩

section RoundTrip

variable (double : Double → Bytes)

/-- What a value begins with closes no array. -/
theorem print_cons (v : Value) (hv : v.FloatFree) :
    ∃ b bytes, print double v = b :: bytes ∧ b ≠ rightBracket := by
  cases v with
  | null => exact ⟨_, _, rfl, by decide⟩
  | bool b => cases b <;> exact ⟨_, _, rfl, by decide⟩
  | int n =>
    cases n with
    | ofNat n =>
      obtain ⟨b, bytes, hb, hdigit⟩ := decimal_cons n
      exact ⟨b, bytes, by simpa [print, printInt] using hb, (isDigit_ne hdigit).2.2.2.2⟩
    | negSucc n => exact ⟨_, _, rfl, by decide⟩
  | float x => exact hv.elim
  | string s => exact ⟨_, _, rfl, by decide⟩
  | array items => cases items <;> exact ⟨_, _, rfl, by decide⟩
  | object members => rcases members with _ | ⟨⟨k, v⟩, members⟩ <;> exact ⟨_, _, rfl, by decide⟩

variable {double}

theorem parse_printInt (n : Int) {rest : Bytes} (hrest : Ends rest) (fuel : ℕ) :
    parse (fuel + 1) (printInt n ++ rest) = some (.int n, rest) := by
  cases n with
  | ofNat n =>
    obtain ⟨b, bytes, hb, hdigit⟩ := decimal_cons n
    obtain ⟨hquote, hbracket, hbrace, hminus, -⟩ := isDigit_ne hdigit
    have hread : parseNat (b :: (bytes ++ rest)) = some (n, rest) := by
      rw [← List.cons_append, ← hb]
      exact parseNat_decimal hrest
    simp [printInt, hb, parse, hquote, hbracket, hbrace, hminus, hdigit, hread]
  | negSucc n =>
    have hquote : minus ≠ quoteMark := by decide
    have hbracket : minus ≠ leftBracket := by decide
    have hbrace : minus ≠ leftBrace := by decide
    simp [printInt, parse, hquote, hbracket, hbrace, parseNat_decimal hrest, Int.negSucc_eq]

/-- One member is read by its key and its value. -/
theorem parseMember_print {k : String} {v : Value} {rest : Bytes} {fuel : ℕ}
    (hv : parse fuel (print double v ++ rest) = some (v, rest)) :
    parseMember (fuel + 1) (quote k ++ colon :: (print double v ++ rest)) =
      some ((k, v), rest) := by
  obtain ⟨bytes, hquote, hread⟩ := unquote_quote k (colon :: (print double v ++ rest))
  rw [hquote]
  simp [parseMember, hread, strip, hv]

mutual

/-- **Round trip.** A value without doubles is read back from its text, whatever follows. -/
theorem parse_print (v : Value) (hv : v.FloatFree) (rest : Bytes) (hrest : Ends rest) (fuel : ℕ)
    (hfuel : (print double v).length ≤ fuel) :
    parse fuel (print double v ++ rest) = some (v, rest) := by
  obtain ⟨fuel, rfl⟩ : ∃ n, fuel = n + 1 := by
    obtain ⟨b, bytes, hb, -⟩ := print_cons double v hv
    exact ⟨fuel - 1, by rw [hb, List.length_cons] at hfuel; omega⟩
  cases v with
  | null => rfl
  | bool b => cases b <;> rfl
  | int n => exact parse_printInt n hrest fuel
  | float x => exact hv.elim
  | string s =>
    obtain ⟨bytes, hquote, hread⟩ := unquote_quote s rest
    simp [print, hquote, parse, hread]
  | array items =>
    cases items with
    | nil => rfl
    | cons v items =>
      simp only [Value.FloatFree, FloatFreeItems] at hv
      simp only [print, List.length_cons, List.length_append] at hfuel
      obtain ⟨b, bytes, hb, hne⟩ := print_cons double v hv.1
      have hfirst : parse fuel (print double v ++ (printItems double items ++ rest)) =
          some (v, printItems double items ++ rest) :=
        parse_print v hv.1 _ (ends_printItems double items rest) fuel (by omega)
      have hitems : parseItems fuel (printItems double items ++ rest) = some (items, rest) :=
        parse_printItems items hv.2 rest fuel (by omega)
      have hhead : (print double v ++ (printItems double items ++ rest)).head? ≠
          some rightBracket := by
        simpa [hb] using hne
      have hquote : leftBracket ≠ quoteMark := by decide
      simp only [print, List.cons_append, List.append_assoc]
      rw [parse, if_neg hquote, if_pos rfl, if_neg hhead]
      simp [hfirst, hitems]
  | object members =>
    rcases members with _ | ⟨⟨k, v⟩, members⟩
    · rfl
    · simp only [Value.FloatFree, FloatFreeMembers] at hv
      simp only [print, List.length_cons, List.length_append] at hfuel
      obtain ⟨fuel, rfl⟩ : ∃ n, fuel = n + 1 := ⟨fuel - 1, by omega⟩
      have hfirst : parse fuel (print double v ++ (printMembers double members ++ rest)) =
          some (v, printMembers double members ++ rest) :=
        parse_print v hv.1 _ (ends_printMembers double members rest) fuel (by omega)
      have hmembers : parseMembers (fuel + 1) (printMembers double members ++ rest) =
          some (members, rest) :=
        parse_printMembers members hv.2 rest (fuel + 1) (by omega)
      have hmember := parseMember_print (k := k) hfirst
      have hhead : (quote k ++ colon :: (print double v ++
          (printMembers double members ++ rest))).head? ≠ some rightBrace := by
        obtain ⟨bytes, hquote⟩ := quote_cons k
        have hne : quoteMark ≠ rightBrace := by decide
        simpa [hquote] using hne
      have hquote : leftBrace ≠ quoteMark := by decide
      have hbracket : leftBrace ≠ leftBracket := by decide
      simp only [print, List.cons_append, List.append_assoc]
      rw [parse, if_neg hquote, if_neg hbracket, if_pos rfl, if_neg hhead]
      simp [hmember, hmembers]

theorem parse_printItems (items : List Value) (hitems : FloatFreeItems items) (rest : Bytes)
    (fuel : ℕ) (hfuel : (printItems double items).length ≤ fuel) :
    parseItems fuel (printItems double items ++ rest) = some (items, rest) := by
  cases items with
  | nil =>
    obtain ⟨fuel, rfl⟩ : ∃ n, fuel = n + 1 := ⟨fuel - 1, by simp [printItems] at hfuel; omega⟩
    rfl
  | cons v items =>
    simp only [printItems, List.length_cons, List.length_append] at hfuel
    obtain ⟨fuel, rfl⟩ : ∃ n, fuel = n + 1 := ⟨fuel - 1, by omega⟩
    have hfirst := parse_print v hitems.1 _ (ends_printItems double items rest) fuel (by omega)
    have hmore := parse_printItems items hitems.2 rest fuel (by omega)
    have hbracket : comma ≠ rightBracket := by decide
    simp [printItems, parseItems, hbracket, hfirst, hmore]

theorem parse_printMembers (members : List (String × Value)) (hmembers : FloatFreeMembers members)
    (rest : Bytes) (fuel : ℕ) (hfuel : (printMembers double members).length ≤ fuel) :
    parseMembers fuel (printMembers double members ++ rest) = some (members, rest) := by
  rcases members with _ | ⟨⟨k, v⟩, members⟩
  · obtain ⟨fuel, rfl⟩ : ∃ n, fuel = n + 1 := ⟨fuel - 1, by simp [printMembers] at hfuel; omega⟩
    rfl
  · simp only [printMembers, List.length_cons, List.length_append] at hfuel
    obtain ⟨fuel, rfl⟩ : ∃ n, fuel = n + 1 + 1 := ⟨fuel - 2, by omega⟩
    have hfirst := parse_print v hmembers.1 _ (ends_printMembers double members rest) fuel
      (by omega)
    have hmore := parse_printMembers members hmembers.2 rest (fuel + 1) (by omega)
    have hbrace : comma ≠ rightBrace := by decide
    have hmember := parseMember_print (k := k) hfirst
    simp [printMembers, parseMembers, hbrace, hmember, hmore]

end

/-- A whole text is read back to its value. -/
theorem parse_text {v : Value} (hv : v.FloatFree) :
    parse (print double v).length (print double v) = some (v, []) := by
  have hends : Ends [] := by simp [Ends]
  simpa using parse_print v hv [] hends (print double v).length le_rfl

/-! ## Lines -/

theorem decimal_lines (n : ℕ) : newline ∉ decimal n := fun h =>
  absurd (isDigit_of_mem_decimal h) (by decide)

theorem printInt_lines (n : Int) : newline ∉ printInt n := by
  cases n with
  | ofNat n => exact decimal_lines n
  | negSucc n =>
    rw [printInt, List.mem_cons, not_or]
    exact ⟨by decide, decimal_lines (n + 1)⟩

theorem quote_lines (s : String) : newline ∉ quote s := fun h =>
  absurd (le_of_mem_quote h) (by decide)

mutual

/-- **One line.** No newline stands in the text of a value. -/
theorem print_lines (hdouble : ∀ x, newline ∉ double x) (v : Value) :
    newline ∉ print double v := by
  cases v with
  | null => exact (by decide : newline ∉ utf8 "null")
  | bool b =>
    cases b with
    | false => exact (by decide : newline ∉ utf8 "false")
    | true => exact (by decide : newline ∉ utf8 "true")
  | int n => exact printInt_lines n
  | float x => exact hdouble x
  | string s => exact quote_lines s
  | array items =>
    cases items with
    | nil => exact (by decide : newline ∉ [leftBracket, rightBracket])
    | cons v items =>
      have hne : newline ≠ leftBracket := by decide
      simp [print, hne, print_lines hdouble v, printItems_lines hdouble items]
  | object members =>
    rcases members with _ | ⟨⟨k, v⟩, members⟩
    · exact (by decide : newline ∉ [leftBrace, rightBrace])
    · have hne : newline ≠ leftBrace := by decide
      have hcolon : newline ≠ colon := by decide
      simp [print, hne, hcolon, quote_lines, print_lines hdouble v,
        printMembers_lines hdouble members]

theorem printItems_lines (hdouble : ∀ x, newline ∉ double x) (items : List Value) :
    newline ∉ printItems double items := by
  cases items with
  | nil => exact (by decide : newline ∉ [rightBracket])
  | cons v items =>
    have hne : newline ≠ comma := by decide
    simp [printItems, hne, print_lines hdouble v, printItems_lines hdouble items]

theorem printMembers_lines (hdouble : ∀ x, newline ∉ double x)
    (members : List (String × Value)) : newline ∉ printMembers double members := by
  rcases members with _ | ⟨⟨k, v⟩, members⟩
  · exact (by decide : newline ∉ [rightBrace])
  · have hne : newline ≠ comma := by decide
    have hcolon : newline ≠ colon := by decide
    simp [printMembers, hne, hcolon, quote_lines, print_lines hdouble v,
      printMembers_lines hdouble members]

end

end RoundTrip

end Afactory.Json
