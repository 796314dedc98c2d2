import Mathlib
import Afactory.Checks
import Afactory.SourceManifest

/-!
# Canonical base64

`validate_canonical_base64` of `review-core/src/change_set.rs`: which texts are the padded base64 of
the standard alphabet, told without decoding them.

* `Base64.encode`: the standard encoding, three bytes by three;
* `Digits`: a text as the values of its digits and the padding behind them;
* `validate_eq_ok`, `digits_encode`, `exists_encode`: what is accepted, what is written;
* `canonical_base64`: they are the same texts.
-/

namespace Afactory

namespace Base64

/-! ## The encoding -/

/-- The byte of a digit. -/
def digit (n : ℕ) : UInt8 :=
  if n < 26 then UInt8.ofNat (65 + n)
  else if n < 52 then UInt8.ofNat (71 + n)
  else if n < 62 then UInt8.ofNat (n - 4)
  else if n = 62 then 43
  else 47

abbrev pad : UInt8 := 61

/-- The bytes of the standard padded encoding. -/
def encodeBytes : List UInt8 → List UInt8
  | a :: b :: c :: rest =>
    digit (a.toNat / 4) :: digit (a.toNat % 4 * 16 + b.toNat / 16) ::
      digit (b.toNat % 16 * 4 + c.toNat / 64) :: digit (c.toNat % 64) :: encodeBytes rest
  | [a, b] =>
    [digit (a.toNat / 4), digit (a.toNat % 4 * 16 + b.toNat / 16), digit (b.toNat % 16 * 4), pad]
  | [a] => [digit (a.toNat / 4), digit (a.toNat % 4 * 16), pad, pad]
  | [] => []

/-- `STANDARD.encode`. -/
def encode (bytes : List UInt8) : String :=
  String.ofList ((encodeBytes bytes).map fun b => Char.ofNat b.toNat)

/-! ## The validation -/

/-- The value of a digit. -/
def value (byte : UInt8) : Option UInt8 :=
  if 65 ≤ byte ∧ byte ≤ 90 then some (byte - 65)
  else if 97 ≤ byte ∧ byte ≤ 122 then some (byte - 97 + 26)
  else if 48 ≤ byte ∧ byte ≤ 57 then some (byte - 48 + 52)
  else if byte = 43 then some 62
  else if byte = 47 then some 63
  else none

def padding (bytes : List UInt8) : ℕ :=
  if [pad, pad].isSuffixOf bytes then 2 else if [pad].isSuffixOf bytes then 1 else 0

def dataLen (bytes : List UInt8) : ℕ := bytes.length - padding bytes

/-- The value of the last digit. -/
def trailing (bytes : List UInt8) : UInt8 :=
  ((if dataLen bytes = 0 then none else bytes[dataLen bytes - 1]?).bind value).getD 0

/-- The text of a refusal. -/
def refusal (what : String) : String :=
  "ChangeSet@1 canonical patch is not canonical base64: " ++ what

end Base64

open Base64

/-- `validate_canonical_base64`. -/
def validateCanonicalBase64 (encoded : String) : Except String Unit :=
  let bytes := pathBytes encoded
  let dataLen := dataLen bytes
  if bytes.length % 4 ≠ 0 then .error (refusal "invalid length")
  else if (bytes.take dataLen).any (fun byte => (value byte).isNone) ||
      (bytes.drop dataLen).any (· ≠ pad) then
    .error (refusal "invalid alphabet")
  else if padding bytes > 0 && dataLen = 0 then .error (refusal "invalid padding")
  else if (padding bytes = 1 && trailing bytes &&& 0b11 ≠ 0) ||
      (padding bytes = 2 && trailing bytes &&& 0b1111 ≠ 0) then
    .error (refusal "non-zero trailing bits")
  else .ok ()

namespace Base64

/-! ## Digits -/

theorem value_digit : ∀ n < 64, value (digit n) = some (UInt8.ofNat n) := by decide

set_option maxRecDepth 8000 in
-- one case per byte: deeper than the default
theorem digit_value (b v : UInt8) (h : value b = some v) : v.toNat < 64 ∧ digit v.toNat = b := by
  -- of each byte, the one value it may have
  have hall : ∀ b : UInt8, (value b).all (fun v => v.toNat < 64 && digit v.toNat = b) = true := by
    decide
  simpa [h] using hall b

theorem digit_ne_pad : ∀ n < 64, digit n ≠ pad := by decide

/-- The last digit is the one whose bits are read. -/
theorem trailing_of_digits {bytes rest : List UInt8} {ds : List ℕ} (hsmall : ∀ d ∈ ds, d < 64)
    (hbytes : bytes = ds.map digit ++ rest) (hlen : dataLen bytes = ds.length) {d : ℕ}
    (hd : ds.getLast? = some d) : trailing bytes = UInt8.ofNat d := by
  have hne : ds.length ≠ 0 := by
    intro hzero
    rw [List.length_eq_zero_iff.mp hzero] at hd
    cases hd
  have hbyte : bytes[ds.length - 1]? = some (digit d) := by
    rw [hbytes, List.getElem?_append_left (by simp; omega), List.getElem?_map,
      ← List.getLast?_eq_getElem?, hd]
    rfl
  rw [trailing, hlen, if_neg hne, hbyte, Option.bind_some,
    value_digit d (hsmall d (List.mem_of_getLast? hd))]
  rfl

/-- A text as the values of its digits and the padding behind them. -/
structure Digits (bytes : List UInt8) (ds : List ℕ) (p : ℕ) : Prop where
  bytes_eq : bytes = ds.map digit ++ List.replicate p pad
  small : ∀ d ∈ ds, d < 64
  quads : (ds.length + p) % 4 = 0
  le_two : p ≤ 2
  /-- the bits no byte reads are zero -/
  one : p = 1 → ∀ d, ds.getLast? = some d → d % 4 = 0
  two : p = 2 → ∀ d, ds.getLast? = some d → d % 16 = 0

namespace Digits

variable {bytes : List UInt8} {ds : List ℕ} {p : ℕ}

/-- The digits end in a byte that is no padding. -/
theorem reverse_eq (h : Digits bytes ds p) (hp : 0 < p ∨ ds ≠ []) :
    ∃ d rest, ds.getLast? = some d ∧ d < 64 ∧
      bytes.reverse = List.replicate p pad ++ digit d :: rest := by
  have hne : ds ≠ [] := by
    rintro rfl
    have hquads := h.quads
    have hle := h.le_two
    rw [List.length_nil] at hquads
    rcases hp with hp | hp
    · omega
    · exact hp rfl
  obtain ⟨front, d, rfl⟩ : ∃ front d, ds = front ++ [d] :=
    ⟨_, _, (List.dropLast_append_getLast hne).symm⟩
  refine ⟨d, (front.map digit).reverse, by simp, h.small d (by simp), ?_⟩
  rw [h.bytes_eq]
  simp

theorem padding_eq (h : Digits bytes ds p) : padding bytes = p := by
  by_cases hempty : p = 0 ∧ ds = []
  · obtain ⟨rfl, rfl⟩ := hempty
    rw [h.bytes_eq]
    rfl
  · obtain ⟨d, rest, -, hd, hreverse⟩ := h.reverse_eq (by
      by_cases hp : p = 0
      · exact .inr fun hds => hempty ⟨hp, hds⟩
      · exact .inl (Nat.pos_of_ne_zero hp))
    have hne : (pad == digit d) = false := by simpa using (digit_ne_pad d hd).symm
    have hp := h.le_two
    unfold padding List.isSuffixOf
    rw [hreverse]
    interval_cases p <;> simp [List.isPrefixOf, List.replicate, hne]

theorem dataLen_eq (h : Digits bytes ds p) : dataLen bytes = ds.length := by
  rw [dataLen, h.padding_eq, h.bytes_eq]
  simp

theorem trailing_eq (h : Digits bytes ds p) (hp : 0 < p) :
    ∃ d, ds.getLast? = some d ∧ trailing bytes = UInt8.ofNat d := by
  obtain ⟨d, rest, hlast, -, -⟩ := h.reverse_eq (.inl hp)
  exact ⟨d, hlast, trailing_of_digits h.small h.bytes_eq h.dataLen_eq hlast⟩

end Digits

/-! ## What is accepted -/

theorem and_three : ∀ d < 64, UInt8.ofNat d &&& 0b11 = 0 ↔ d % 4 = 0 := by decide

theorem and_fifteen : ∀ d < 64, UInt8.ofNat d &&& 0b1111 = 0 ↔ d % 16 = 0 := by decide

theorem exists_digits {data : List UInt8} (h : ∀ b ∈ data, (value b).isNone = false) :
    ∃ ds : List ℕ, (∀ d ∈ ds, d < 64) ∧ data = ds.map digit := by
  refine ⟨data.map fun b => ((value b).getD 0).toNat, ?_, ?_⟩
  · intro d hd
    obtain ⟨b, hb, rfl⟩ := List.mem_map.mp hd
    obtain ⟨v, hv⟩ := Option.isSome_iff_exists.mp (by simpa using h b hb)
    rw [hv]
    exact (digit_value b v hv).1
  · rw [List.map_map]
    refine (List.map_id data).symm.trans (List.map_congr_left fun b hb => ?_)
    obtain ⟨v, hv⟩ := Option.isSome_iff_exists.mp (by simpa using h b hb)
    simp only [id_eq, Function.comp_apply, hv, Option.getD_some]
    exact (digit_value b v hv).2.symm

theorem padding_le (bytes : List UInt8) : padding bytes ≤ 2 := by
  unfold padding
  split_ifs <;> omega

theorem padding_le_length (bytes : List UInt8) : padding bytes ≤ bytes.length := by
  unfold padding
  split_ifs with h h
  · exact (List.isSuffixOf_iff_suffix.mp h).length_le
  · exact (List.isSuffixOf_iff_suffix.mp h).length_le
  · exact Nat.zero_le _

/-- **What is accepted**: digits, padding to a multiple of four, and no bit that no byte reads. -/
theorem validate_eq_ok {encoded : String} :
    validateCanonicalBase64 encoded = .ok () ↔ ∃ ds p, Digits (pathBytes encoded) ds p := by
  set bytes := pathBytes encoded with hbytes
  constructor
  · intro h
    unfold validateCanonicalBase64 at h
    simp only [← hbytes] at h
    split_ifs at h with hlength halphabet hempty hbits
    simp only [Bool.or_eq_true, not_or, Bool.not_eq_true, List.any_eq_false] at halphabet
    obtain ⟨hdata, hpad⟩ := halphabet
    obtain ⟨ds, hsmall, hds⟩ := exists_digits fun b hb => by simpa using hdata b hb
    have hpadding : bytes.drop (dataLen bytes) = List.replicate (padding bytes) pad := by
      refine List.eq_replicate_iff.mpr ⟨?_, fun b hb => by simpa using hpad b hb⟩
      have hle := padding_le_length bytes
      rw [List.length_drop, dataLen]
      omega
    have heq : bytes = ds.map digit ++ List.replicate (padding bytes) pad := by
      rw [← hds, ← hpadding, List.take_append_drop]
    have hquads : (ds.length + padding bytes) % 4 = 0 := by
      have htotal := congrArg List.length heq
      simp only [List.length_append, List.length_map, List.length_replicate] at htotal
      omega
    have hlen : dataLen bytes = ds.length := by
      have htotal := congrArg List.length heq
      simp only [List.length_append, List.length_map, List.length_replicate] at htotal
      rw [dataLen]
      omega
    have htrailing : ∀ d, ds.getLast? = some d → trailing bytes = UInt8.ofNat d :=
      fun d hd => trailing_of_digits hsmall heq hlen hd
    simp only [Bool.or_eq_true, Bool.and_eq_true, decide_eq_true_eq, not_or, not_and,
      not_not] at hbits
    refine ⟨ds, padding bytes, heq, hsmall, hquads, padding_le bytes, fun hone d hd => ?_,
      fun htwo d hd => ?_⟩
    · have hzero := hbits.1 hone
      rw [htrailing d hd] at hzero
      exact (and_three d (hsmall d (List.mem_of_getLast? hd))).mp hzero
    · have hzero := hbits.2 htwo
      rw [htrailing d hd] at hzero
      exact (and_fifteen d (hsmall d (List.mem_of_getLast? hd))).mp hzero
  · rintro ⟨ds, p, h⟩
    unfold validateCanonicalBase64
    simp only [← hbytes]
    have hlength : ¬ bytes.length % 4 ≠ 0 := by
      rw [h.bytes_eq]
      simpa using h.quads
    have htake : bytes.take (dataLen bytes) = ds.map digit := by
      rw [h.dataLen_eq, h.bytes_eq]
      exact List.take_left' (by simp)
    have hdrop : bytes.drop (dataLen bytes) = List.replicate p pad := by
      rw [h.dataLen_eq, h.bytes_eq]
      exact List.drop_left' (by simp)
    have hdigits : (ds.map digit).any (fun byte => (value byte).isNone) = false := by
      simp only [List.any_map, List.any_eq_false, Function.comp_apply]
      intro d hd
      rw [value_digit d (h.small d hd)]
      simp
    have hempty : ¬ (padding bytes > 0 && decide (dataLen bytes = 0)) = true := by
      rw [h.padding_eq, h.dataLen_eq]
      have hquads := h.quads
      have hle := h.le_two
      simp only [Bool.and_eq_true, decide_eq_true_eq]
      omega
    have hbits : ¬ ((decide (padding bytes = 1) && decide (trailing bytes &&& 0b11 ≠ 0)) ||
        (decide (padding bytes = 2) && decide (trailing bytes &&& 0b1111 ≠ 0))) = true := by
      rw [h.padding_eq]
      simp only [Bool.or_eq_true, Bool.and_eq_true, decide_eq_true_eq, not_or, not_and, not_not]
      refine ⟨fun hone => ?_, fun htwo => ?_⟩
      · obtain ⟨d, hd, htrailing⟩ := h.trailing_eq (by omega)
        rw [htrailing]
        exact (and_three d (h.small d (List.mem_of_getLast? hd))).mpr (h.one hone d hd)
      · obtain ⟨d, hd, htrailing⟩ := h.trailing_eq (by omega)
        rw [htrailing]
        exact (and_fifteen d (h.small d (List.mem_of_getLast? hd))).mpr (h.two htwo d hd)
    rw [if_neg hlength, htake, hdrop, hdigits, if_neg (by simp), if_neg hempty, if_neg hbits]

/-! ## What is written -/

/-- **What is written** is digits and padding, and its bytes are three quarters of the digits. -/
theorem digits_encode (bytes : List UInt8) :
    ∃ ds p, Digits (encodeBytes bytes) ds p ∧ bytes.length = ds.length * 3 / 4 := by
  induction bytes using encodeBytes.induct with
  | case1 a b c rest ih =>
    obtain ⟨ds, p, h, hlength⟩ := ih
    have ha := a.toNat_lt
    have hb := b.toNat_lt
    have hc := c.toNat_lt
    refine ⟨a.toNat / 4 :: (a.toNat % 4 * 16 + b.toNat / 16) ::
      (b.toNat % 16 * 4 + c.toNat / 64) :: (c.toNat % 64) :: ds, p, ⟨?_, ?_, ?_, h.le_two, ?_, ?_⟩,
      ?_⟩
    · rw [encodeBytes, h.bytes_eq]
      rfl
    · simp only [List.forall_mem_cons]
      exact ⟨by omega, by omega, by omega, by omega, h.small⟩
    · have hquads := h.quads
      simp only [List.length_cons]
      omega
    · -- padding stands behind digits of its own
      intro hone d hd
      obtain ⟨last, -, hlast, -, -⟩ := h.reverse_eq (.inl (by omega))
      simp only [List.getLast?_cons, hlast, Option.getD_some] at hd
      obtain rfl := Option.some.inj hd
      exact h.one hone _ hlast
    · intro htwo d hd
      obtain ⟨last, -, hlast, -, -⟩ := h.reverse_eq (.inl (by omega))
      simp only [List.getLast?_cons, hlast, Option.getD_some] at hd
      obtain rfl := Option.some.inj hd
      exact h.two htwo _ hlast
    · simp only [List.length_cons, hlength]
      omega
  | case2 a b =>
    have ha := a.toNat_lt
    have hb := b.toNat_lt
    refine ⟨[a.toNat / 4, a.toNat % 4 * 16 + b.toNat / 16, b.toNat % 16 * 4], 1,
      ⟨rfl, ?_, by simp, by omega, ?_, by omega⟩, by simp⟩
    · simp only [List.forall_mem_cons, List.not_mem_nil, false_implies, implies_true, and_true]
      omega
    · rintro - d hd
      simp only [List.getLast?_cons_cons, List.getLast?_singleton, Option.some.injEq] at hd
      omega
  | case3 a =>
    have ha := a.toNat_lt
    refine ⟨[a.toNat / 4, a.toNat % 4 * 16], 2,
      ⟨rfl, ?_, by simp, by omega, by omega, ?_⟩, by simp⟩
    · simp only [List.forall_mem_cons, List.not_mem_nil, false_implies, implies_true, and_true]
      omega
    · rintro - d hd
      simp only [List.getLast?_cons_cons, List.getLast?_singleton, Option.some.injEq] at hd
      omega
  | case4 => exact ⟨[], 0, ⟨rfl, by simp, rfl, by omega, by omega, by omega⟩, rfl⟩

theorem toNat_ofNat_lt {n : ℕ} (h : n < 256) : (UInt8.ofNat n).toNat = n := by
  simp only [UInt8.toNat_ofNat']
  omega

/-- Digits are written of the bytes they hold. -/
theorem exists_encode :
    ∀ {ds : List ℕ} {p : ℕ} {text : List UInt8}, Digits text ds p → ∃ bytes, encodeBytes bytes = text
  | [], p, text, h => by
    have hquads := h.quads
    have hle := h.le_two
    obtain rfl : p = 0 := by simp at hquads; omega
    exact ⟨[], h.bytes_eq.symm⟩
  | [x], p, text, h => by
    have hquads := h.quads
    have hle := h.le_two
    simp only [List.length_singleton] at hquads
    omega
  | [x, y], p, text, h => by
    have hquads := h.quads
    have hle := h.le_two
    obtain rfl : p = 2 := by simp at hquads; omega
    have hx := h.small x (by simp)
    have hy := h.small y (by simp)
    have hbits := h.two rfl y rfl
    refine ⟨[UInt8.ofNat (x * 4 + y / 16)], ?_⟩
    rw [h.bytes_eq, encodeBytes, toNat_ofNat_lt (by omega),
      show (x * 4 + y / 16) / 4 = x by omega, show (x * 4 + y / 16) % 4 * 16 = y by omega]
    rfl
  | [x, y, z], p, text, h => by
    have hquads := h.quads
    have hle := h.le_two
    obtain rfl : p = 1 := by simp at hquads; omega
    have hx := h.small x (by simp)
    have hy := h.small y (by simp)
    have hz := h.small z (by simp)
    have hbits := h.one rfl z rfl
    refine ⟨[UInt8.ofNat (x * 4 + y / 16), UInt8.ofNat (y % 16 * 16 + z / 4)], ?_⟩
    rw [h.bytes_eq, encodeBytes, toNat_ofNat_lt (by omega), toNat_ofNat_lt (by omega),
      show (x * 4 + y / 16) / 4 = x by omega,
      show (x * 4 + y / 16) % 4 * 16 + (y % 16 * 16 + z / 4) / 16 = y by omega,
      show (y % 16 * 16 + z / 4) % 16 * 4 = z by omega]
    rfl
  | x :: y :: z :: w :: ds, p, text, h => by
    have hx := h.small x (by simp)
    have hy := h.small y (by simp)
    have hz := h.small z (by simp)
    have hw := h.small w (by simp)
    have hrest : Digits (ds.map digit ++ List.replicate p pad) ds p := by
      have hquads := h.quads
      have hle := h.le_two
      have hlast : 0 < p → ∀ d, ds.getLast? = some d →
          (x :: y :: z :: w :: ds).getLast? = some d := by
        intro _ d hd
        simp [List.getLast?_cons, hd]
      refine ⟨rfl, fun d hd => h.small d (by simp [hd]), ?_, hle,
        fun hone d hd => h.one hone d (hlast (by omega) d hd),
        fun htwo d hd => h.two htwo d (hlast (by omega) d hd)⟩
      simp only [List.length_cons] at hquads
      omega
    obtain ⟨bytes, hbytes⟩ := exists_encode hrest
    refine ⟨UInt8.ofNat (x * 4 + y / 16) :: UInt8.ofNat (y % 16 * 16 + z / 4) ::
      UInt8.ofNat (z % 4 * 64 + w) :: bytes, ?_⟩
    rw [h.bytes_eq, encodeBytes, hbytes, toNat_ofNat_lt (by omega), toNat_ofNat_lt (by omega),
      toNat_ofNat_lt (by omega), show (x * 4 + y / 16) / 4 = x by omega,
      show (x * 4 + y / 16) % 4 * 16 + (y % 16 * 16 + z / 4) / 16 = y by omega,
      show (y % 16 * 16 + z / 4) % 16 * 4 + (z % 4 * 64 + w) / 64 = z by omega,
      show (z % 4 * 64 + w) % 64 = w by omega]
    rfl

/-! ## Texts -/

theorem utf8Encode_digit : ∀ n < 64,
    String.utf8EncodeChar (Char.ofNat (digit n).toNat) = [digit n] := by
  decide

theorem mem_digits {bytes : List UInt8} {ds : List ℕ} {p : ℕ} (h : Digits bytes ds p) :
    ∀ b ∈ bytes, String.utf8EncodeChar (Char.ofNat b.toNat) = [b] := by
  intro b hb
  rw [h.bytes_eq] at hb
  rcases List.mem_append.mp hb with hb | hb
  · obtain ⟨d, hd, rfl⟩ := List.mem_map.mp hb
    exact utf8Encode_digit d (h.small d hd)
  · obtain rfl := List.eq_of_mem_replicate hb
    decide

/-- The text that is written has the bytes that are written. -/
theorem pathBytes_encode (bytes : List UInt8) : pathBytes (encode bytes) = encodeBytes bytes := by
  obtain ⟨ds, p, h, -⟩ := digits_encode bytes
  rw [encode, pathBytes_ofList, utf8Encode_bytes, List.flatMap_map]
  exact (List.flatMap_congr (mem_digits h)).trans (List.flatMap_singleton' _)

end Base64

/-- **The canonical texts are accepted, and no others**: those that are the padded encoding of some
bytes. The bytes are three quarters of the data characters that are counted. -/
theorem canonical_base64 (encoded : String) :
    (validateCanonicalBase64 encoded = .ok () ↔ ∃ bytes, encoded = encode bytes) ∧
      ∀ bytes, encoded = encode bytes →
        bytes.length = Base64.dataLen (pathBytes encoded) * 3 / 4 := by
  refine ⟨⟨fun h => ?_, ?_⟩, ?_⟩
  · obtain ⟨ds, p, hdigits⟩ := validate_eq_ok.mp h
    obtain ⟨bytes, hbytes⟩ := exists_encode hdigits
    exact ⟨bytes, pathBytes_inj (by rw [pathBytes_encode, hbytes])⟩
  · rintro ⟨bytes, rfl⟩
    obtain ⟨ds, p, hdigits, -⟩ := digits_encode bytes
    exact validate_eq_ok.mpr ⟨ds, p, by rwa [pathBytes_encode]⟩
  · rintro bytes rfl
    obtain ⟨ds, p, hdigits, hlength⟩ := digits_encode bytes
    rw [pathBytes_encode, hdigits.dataLen_eq, hlength]

/-- Two bytes, one padding character. -/
theorem canonical_base64_sample :
    validateCanonicalBase64 "Zm8=" = .ok () ∧
      [(102 : UInt8), 111].length = Base64.dataLen (pathBytes "Zm8=") * 3 / 4 :=
  ⟨(canonical_base64 "Zm8=").1.mpr ⟨[102, 111], by decide⟩,
    (canonical_base64 "Zm8=").2 [102, 111] (by decide)⟩

/-- Of the one byte of `f`, two data characters are counted, and nothing else. -/
theorem canonical_base64_counts_digits :
    validateCanonicalBase64 "Zg==" = .ok () ∧ "Zg==" = encode [102] ∧
      Base64.dataLen (pathBytes "Zg==") ≠ [(102 : UInt8)].length := by
  decide

end Afactory
