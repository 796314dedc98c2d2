import Mathlib
import Afactory.SourceManifest
import Afactory.Splitting

/-!
# The names git administration goes by

`git_refuses_path` of `review-source-git/src/manifest.rs`: which components of a raw path name a
`.git` or, of a symlink, a `.gitmodules` on some volume.

* `Stripped`: a component without the code points a volume ignores;
* `Alias`: a name in any case, and what a volume drops behind it;
* `isDotGit_iff`, `isDotGitmodules_iff`: the checks find exactly these;
* `refuses_hole`: what happens within one component decides for the path;
* `git_paths_refused`: no disguise changes the answer.
-/

namespace Afactory

open Splitting

/-! ## Ignored code points -/

/-- U+200C to U+200F, U+202A to U+202E, U+206A to U+206F and U+FEFF. -/
def ignorableCode (n : ℕ) : Bool :=
  (0x200C ≤ n && n ≤ 0x200F) || (0x202A ≤ n && n ≤ 0x202E) || (0x206A ≤ n && n ≤ 0x206F) ||
    n = 0xFEFF

/-- A code point HFS+ ignores when it compares names. -/
def ignorable (c : Char) : Bool := ignorableCode c.toNat

/-- `kept` is what is left of `bytes` when every ignored code point in it is deleted. -/
inductive Stripped : List UInt8 → List UInt8 → Prop
  | nil : Stripped [] []
  | ignored {c : Char} {rest kept : List UInt8} : ignorable c = true → Stripped rest kept →
      Stripped (String.utf8EncodeChar c ++ rest) kept
  | byte {b : UInt8} {rest kept : List UInt8} :
      (∀ c, ignorable c = true → ¬ String.utf8EncodeChar c <+: b :: rest) → Stripped rest kept →
      Stripped (b :: rest) (b :: kept)

/-- The three bytes of a code point between U+0800 and U+FFFF. -/
def threeBytes (n : ℕ) : List UInt8 :=
  [UInt8.ofNat (n / 4096 % 16 + 0xE0), UInt8.ofNat (n / 64 % 64 + 0x80), UInt8.ofNat (n % 64 + 0x80)]

theorem ignorableCode_range {n : ℕ} (h : ignorableCode n = true) :
    0x800 ≤ n ∧ n ≤ 0xFFFF ∧ (n < 0xD800 ∨ (0xDFFF < n ∧ n < 0x110000)) := by
  simp only [ignorableCode, Bool.or_eq_true, Bool.and_eq_true, decide_eq_true_eq] at h
  omega

theorem utf8EncodeChar_ignorable {c : Char} (h : ignorable c = true) :
    String.utf8EncodeChar c = threeBytes c.toNat := by
  obtain ⟨hl, hu, -⟩ := ignorableCode_range h
  simp only [Char.toNat] at hl hu
  rw [String.utf8EncodeChar]
  simp only [if_neg (show ¬ c.val.toNat ≤ 0x7f by omega),
    if_neg (show ¬ c.val.toNat ≤ 0x7ff by omega), if_pos hu]
  rfl

/-- The bytes of an ignored code point are those that are looked for. -/
theorem hfsIgnorable_encode {c : Char} (h : ignorable c = true) :
    ∃ x y z, String.utf8EncodeChar c = [x, y, z] ∧ hfsIgnorable x y z = true := by
  refine ⟨_, _, _, utf8EncodeChar_ignorable h, ?_⟩
  simp only [ignorable, ignorableCode, Bool.or_eq_true, Bool.and_eq_true, decide_eq_true_eq] at h
  generalize c.toNat = n at h
  rcases h with ((⟨hl, hu⟩ | ⟨hl, hu⟩) | ⟨hl, hu⟩) | rfl
  · interval_cases n <;> decide
  · interval_cases n <;> decide
  · interval_cases n <;> decide
  · decide

set_option maxRecDepth 10000 in
/-- The code points the three bytes that are looked for belong to. -/
theorem threeBytes_last : ∀ z : UInt8,
    (hfsIgnorable 0xE2 0x80 z = true → ignorableCode (0x1F80 + z.toNat) = true ∧
      threeBytes (0x1F80 + z.toNat) = [0xE2, 0x80, z]) ∧
    (hfsIgnorable 0xE2 0x81 z = true → ignorableCode (0x1FC0 + z.toNat) = true ∧
      threeBytes (0x1FC0 + z.toNat) = [0xE2, 0x81, z]) := by
  decide

theorem exists_encode_hfsIgnorable {x y z : UInt8} (h : hfsIgnorable x y z = true) :
    ∃ c, ignorable c = true ∧ String.utf8EncodeChar c = [x, y, z] := by
  have hchar : ∀ n, ignorableCode n = true ∧ threeBytes n = [x, y, z] →
      ∃ c, ignorable c = true ∧ String.utf8EncodeChar c = [x, y, z] := by
    rintro n ⟨hn, hbytes⟩
    have hval : (Char.ofNat n).toNat = n := by
      rw [Char.toNat_ofNat, if_pos (ignorableCode_range hn).2.2]
    have hc : ignorable (Char.ofNat n) = true := by rwa [ignorable, hval]
    exact ⟨Char.ofNat n, hc, by rw [utf8EncodeChar_ignorable hc, hval, hbytes]⟩
  have hparts := h
  simp only [hfsIgnorable, Bool.or_eq_true, Bool.and_eq_true, decide_eq_true_eq] at hparts
  rcases hparts with ((⟨⟨rfl, rfl⟩, -⟩ | ⟨⟨rfl, rfl⟩, -⟩) | ⟨⟨rfl, rfl⟩, -⟩) | ⟨⟨rfl, rfl⟩, rfl⟩
  · exact hchar _ ((threeBytes_last z).1 h)
  · exact hchar _ ((threeBytes_last z).1 h)
  · exact hchar _ ((threeBytes_last z).2 h)
  · exact hchar 0xFEFF (by decide)

/-! ## Deleting them -/

/-- An ignored code point stands at the beginning. -/
def Begins (bytes : List UInt8) : Prop :=
  ∃ x y z rest, bytes = x :: y :: z :: rest ∧ hfsIgnorable x y z = true

theorem begins_iff {bytes : List UInt8} :
    Begins bytes ↔ ∃ c, ignorable c = true ∧ String.utf8EncodeChar c <+: bytes := by
  constructor
  · rintro ⟨x, y, z, rest, rfl, h⟩
    obtain ⟨c, hc, hbytes⟩ := exists_encode_hfsIgnorable h
    exact ⟨c, hc, rest, by rw [hbytes]; rfl⟩
  · rintro ⟨c, hc, rest, rfl⟩
    obtain ⟨x, y, z, hbytes, h⟩ := hfsIgnorable_encode hc
    exact ⟨x, y, z, rest, by rw [hbytes]; rfl, h⟩

theorem strip_ignored {x y z : UInt8} (h : hfsIgnorable x y z = true) (rest : List UInt8) :
    withoutHfsIgnorables (x :: y :: z :: rest) = withoutHfsIgnorables rest := by
  rw [withoutHfsIgnorables, if_pos h]

theorem strip_cons {b : UInt8} {rest : List UInt8} (h : ¬ Begins (b :: rest)) :
    withoutHfsIgnorables (b :: rest) = b :: withoutHfsIgnorables rest := by
  match rest with
  | [] => rfl
  | [c] => rfl
  | c :: d :: rest =>
    have hno : ¬ hfsIgnorable b c d = true := fun hyes => h ⟨b, c, d, rest, rfl, hyes⟩
    rw [withoutHfsIgnorables, if_neg hno]

/-- **Deleting the ignored code points** is what `withoutHfsIgnorables` does. -/
theorem stripped_iff {bytes kept : List UInt8} :
    Stripped bytes kept ↔ kept = withoutHfsIgnorables bytes := by
  constructor
  · intro h
    induction h with
    | nil => rfl
    | @ignored c rest kept hc _ ih =>
      obtain ⟨x, y, z, hbytes, h⟩ := hfsIgnorable_encode hc
      rw [hbytes, ih]
      exact (strip_ignored h rest).symm
    | @byte b rest kept hno _ ih =>
      have hbegins : ¬ Begins (b :: rest) := fun hbegins => by
        obtain ⟨c, hc, hprefix⟩ := begins_iff.mp hbegins
        exact hno c hc hprefix
      rw [strip_cons hbegins, ih]
  · rintro rfl
    induction bytes using withoutHfsIgnorables.induct with
    | case1 x y z rest h ih =>
      obtain ⟨c, hc, hbytes⟩ := exists_encode_hfsIgnorable h
      rw [strip_ignored h]
      have hstripped := Stripped.ignored hc ih
      rwa [hbytes] at hstripped
    | case2 x y z rest h ih =>
      have hbegins : ¬ Begins (x :: y :: z :: rest) := by
        rintro ⟨x', y', z', rest', heq, h'⟩
        cases heq
        exact h h'
      rw [strip_cons hbegins]
      exact .byte (fun c hc hprefix => hbegins (begins_iff.mpr ⟨c, hc, hprefix⟩)) ih
    | case3 rest hshort =>
      -- fewer than three bytes hold no ignored code point
      have hkeep : ∀ tail : List UInt8, tail.length < 3 → Stripped tail tail := by
        intro tail htail
        induction tail with
        | nil => exact .nil
        | cons b tail ih =>
          rw [List.length_cons] at htail
          refine .byte (fun c hc hprefix => ?_) (ih (by omega))
          obtain ⟨x, y, z, hbytes, -⟩ := hfsIgnorable_encode hc
          have hle := hprefix.length_le
          rw [hbytes, List.length_cons] at hle
          simp only [List.length_cons, List.length_nil] at hle
          omega
      rcases rest with _ | ⟨b, _ | ⟨c, _ | ⟨d, rest⟩⟩⟩
      · exact .nil
      · exact hkeep _ (by simp)
      · exact hkeep _ (by simp)
      · exact absurd rfl (hshort b c d rest)

/-- A byte that goes on with a code point. -/
def continues (b : UInt8) : Bool := 0x80 ≤ b && b ≤ 0xBF

/-- Where bytes may be parted between code points. -/
def AtBoundary (rest : List UInt8) : Prop := ∀ b, rest.head? = some b → continues b = false

theorem hfsIgnorable_continues {x y z : UInt8} (h : hfsIgnorable x y z = true) :
    continues y = true ∧ continues z = true ∧ continues x = false := by
  have hlast : ∀ z : UInt8,
      (0x8C ≤ z ∧ z ≤ 0x8F) ∨ (0xAA ≤ z ∧ z ≤ 0xAE) ∨ (0xAA ≤ z ∧ z ≤ 0xAF) →
        continues z = true := by
    intro z hz
    simp only [continues, Bool.and_eq_true, decide_eq_true_eq, UInt8.le_iff_toNat_le,
      UInt8.reduceToNat] at hz ⊢
    omega
  simp only [hfsIgnorable, Bool.or_eq_true, Bool.and_eq_true, decide_eq_true_eq] at h
  rcases h with ((⟨⟨rfl, rfl⟩, hz⟩ | ⟨⟨rfl, rfl⟩, hz⟩) | ⟨⟨rfl, rfl⟩, hz⟩) | ⟨⟨rfl, rfl⟩, rfl⟩
  · exact ⟨rfl, hlast z (.inl hz), rfl⟩
  · exact ⟨rfl, hlast z (.inr (.inl hz)), rfl⟩
  · exact ⟨rfl, hlast z (.inr (.inr hz)), rfl⟩
  · exact ⟨rfl, rfl, rfl⟩

/-- Bytes parted between code points are stripped apart. -/
theorem strip_append {rest : List UInt8} (h : AtBoundary rest) (bytes : List UInt8) :
    withoutHfsIgnorables (bytes ++ rest) = withoutHfsIgnorables bytes ++ withoutHfsIgnorables rest := by
  -- what does not begin with an ignored code point does not when `rest` follows
  have hgrows : ∀ b tail, ¬ Begins (b :: tail) → ¬ Begins (b :: (tail ++ rest)) := by
    rintro b tail hno ⟨x, y, z, more, heq, hyes⟩
    obtain ⟨hy, hz, -⟩ := hfsIgnorable_continues hyes
    match tail with
    | [] =>
      obtain ⟨rfl, rfl⟩ := List.cons.inj heq
      exact absurd (h y rfl) (by simp [hy])
    | [c] =>
      simp only [List.cons_append, List.nil_append, List.cons.injEq] at heq
      obtain ⟨rfl, rfl, rfl⟩ := heq
      exact absurd (h z rfl) (by simp [hz])
    | c :: d :: tail =>
      simp only [List.cons_append, List.cons.injEq] at heq
      obtain ⟨rfl, rfl, rfl, -⟩ := heq
      exact hno ⟨_, _, _, _, rfl, hyes⟩
  induction bytes using withoutHfsIgnorables.induct with
  | case1 x y z tail hyes ih =>
    rw [strip_ignored hyes]
    exact (strip_ignored hyes _).trans ih
  | case2 x y z tail hno ih =>
    have hbegins : ¬ Begins (x :: y :: z :: tail) := by
      rintro ⟨x', y', z', tail', heq, h'⟩
      cases heq
      exact hno h'
    rw [strip_cons hbegins, List.cons_append, strip_cons (hgrows _ _ hbegins), ih, List.cons_append]
  | case3 tail hshort =>
    have hbegins : ∀ b c, ¬ Begins [b, c] ∧ ¬ Begins [b] := fun b c => by
      constructor <;> rintro ⟨_, _, _, _, heq, -⟩ <;> simp at heq
    rcases tail with _ | ⟨b, _ | ⟨c, _ | ⟨d, tail⟩⟩⟩
    · rfl
    · exact strip_cons (hgrows b [] (hbegins b b).2)
    · rw [List.cons_append, strip_cons (hgrows b [c] (hbegins b c).1), List.singleton_append]
      exact congrArg (b :: ·) (strip_cons (hgrows c [] (hbegins c c).2))
    · exact absurd rfl (hshort b c d tail)

/-! ## Names in disguise -/

/-- What a volume drops behind a name: dots and spaces, then the end, or a stream or path separator
and anything behind it. -/
def Trails (tail : List UInt8) : Prop :=
  ∃ dropped rest, tail = dropped ++ rest ∧ (∀ b ∈ dropped, b = dot ∨ b = 32) ∧
    (rest = [] ∨ rest.head? = some 58 ∨ rest.head? = some 92)

/-- A name is `n` but for its ASCII case, followed by what a volume drops. -/
def AliasOf (n name : List UInt8) : Prop :=
  ∃ stem tail, name = stem ++ tail ∧ eqIgnoreAsciiCase stem n = true ∧ Trails tail

/-- A name is one of `names` in disguise. -/
def Alias (names : List String) (name : List UInt8) : Prop :=
  ∃ n ∈ names, AliasOf (pathBytes n) name

/-- `.git` and its short name. -/
def dotGitNames : List String := [".git", "git~1"]

/-- `.gitmodules` and its short names. -/
def gitmodulesNames : List String :=
  [".gitmodules", "gitmod~1", "gitmod~2", "gitmod~3", "gitmod~4", "gi7eba~1", "gi7eba~2",
    "gi7eba~3", "gi7eba~4", "gi7eba~5", "gi7eba~6", "gi7eba~7", "gi7eba~8", "gi7eba~9"]

theorem droppedTail_iff {tail : List UInt8} : droppedTail tail = true ↔ Trails tail := by
  induction tail with
  | nil => exact ⟨fun _ => ⟨[], [], rfl, nofun, .inl rfl⟩, fun _ => rfl⟩
  | cons b tail ih =>
    rw [droppedTail]
    split_ifs with hb
    · rw [ih]
      constructor
      · rintro ⟨dropped, rest, rfl, hdropped, hrest⟩
        exact ⟨b :: dropped, rest, rfl, List.forall_mem_cons.mpr ⟨hb, hdropped⟩, hrest⟩
      · rintro ⟨_ | ⟨d, dropped⟩, rest, htail, hdropped, hrest⟩
        · -- a dot or a space is no separator
          rw [List.nil_append] at htail
          subst htail
          rcases hb with rfl | rfl <;> simp [dot] at hrest
        · cases htail
          exact ⟨dropped, rest, rfl, (List.forall_mem_cons.mp hdropped).2, hrest⟩
    · rw [decide_eq_true_eq]
      constructor
      · rintro (rfl | rfl)
        · exact ⟨[], _, rfl, nofun, .inr (.inl rfl)⟩
        · exact ⟨[], _, rfl, nofun, .inr (.inr rfl)⟩
      · rintro ⟨_ | ⟨d, dropped⟩, rest, htail, hdropped, hrest⟩
        · rw [List.nil_append] at htail
          subst htail
          simpa using hrest
        · cases htail
          exact absurd (hdropped b List.mem_cons_self) hb

/-- A name that begins with `n` in some case. -/
theorem takes_iff {name n : List UInt8} :
    (decide (n.length ≤ name.length) && eqIgnoreAsciiCase (name.take n.length) n) = true ↔
      ∃ stem tail, name = stem ++ tail ∧ eqIgnoreAsciiCase stem n = true := by
  rw [Bool.and_eq_true, decide_eq_true_eq]
  constructor
  · rintro ⟨-, h⟩
    exact ⟨_, _, (List.take_append_drop _ _).symm, h⟩
  · rintro ⟨stem, tail, rfl, h⟩
    have hlength : stem.length = n.length := by
      simpa using congrArg List.length (of_decide_eq_true h)
    rw [← hlength, List.take_left]
    exact ⟨by simp, h⟩

theorem eqIgnoreAsciiCase_length {a b : List UInt8} (h : eqIgnoreAsciiCase a b = true) :
    a.length = b.length := by
  simpa using congrArg List.length (of_decide_eq_true h)

/-- A name of known beginning is an alias by what follows. -/
theorem droppedTail_drop {stem tail n : List UInt8} (h : eqIgnoreAsciiCase stem n = true) :
    droppedTail ((stem ++ tail).drop n.length) = true ↔ AliasOf n (stem ++ tail) := by
  rw [← eqIgnoreAsciiCase_length h, List.drop_left, droppedTail_iff]
  constructor
  · exact fun htail => ⟨stem, tail, rfl, h, htail⟩
  · rintro ⟨stem', tail', heq, h', htail⟩
    obtain ⟨-, rfl⟩ := List.append_inj heq
      (by rw [eqIgnoreAsciiCase_length h, eqIgnoreAsciiCase_length h'])
    exact htail

/-- Two names one name begins with agree as far as the shorter goes. -/
theorem lower_prefixes {n m stem stem' tail tail' : List UInt8} (h : eqIgnoreAsciiCase stem n = true)
    (h' : eqIgnoreAsciiCase stem' m = true) (heq : stem ++ tail = stem' ++ tail') :
    n.map asciiLower <+: m.map asciiLower ∨ m.map asciiLower <+: n.map asciiLower := by
  have hn : n.map asciiLower <+: (stem ++ tail).map asciiLower := by
    rw [List.map_append, of_decide_eq_true h]
    exact List.prefix_append _ _
  have hm : m.map asciiLower <+: (stem ++ tail).map asciiLower := by
    rw [heq, List.map_append, of_decide_eq_true h']
    exact List.prefix_append _ _
  exact List.prefix_or_prefix_of_prefix hn hm

/-! ## Short names -/

/-- What follows a short name decides. -/
def shortAlias (name : List UInt8) (short : Option ℕ) : Bool :=
  match short with
  | some length => droppedTail (name.drop length)
  | none => false

theorem asciiLower_digit (d : UInt8) (hl : 49 ≤ d) (hu : d ≤ 57) (b : UInt8)
    (h : asciiLower b = asciiLower d) : b = d := by
  simp only [UInt8.le_iff_toNat_le, UInt8.reduceToNat] at hl hu
  simp only [← UInt8.toNat_inj, asciiLower_toNat] at h ⊢
  split_ifs at h <;> omega

/-- A short name: its stem and one of the digits. -/
theorem shortName_isSome {name stem : List UInt8} {first last : UInt8} :
    shortName name stem first last ≠ none ↔
      ∃ s d tail, name = s ++ d :: tail ∧ eqIgnoreAsciiCase s stem = true ∧ first ≤ d ∧ d ≤ last := by
  unfold shortName
  split_ifs with h
  · refine ⟨fun _ => ?_, fun _ => by simp⟩
    simp only [Bool.and_eq_true, decide_eq_true_eq] at h
    obtain ⟨⟨hlength, hstem⟩, hdigit⟩ := h
    rw [List.getElem?_eq_getElem hlength] at hdigit
    simp only [Option.any_some, Bool.and_eq_true, decide_eq_true_eq] at hdigit
    exact ⟨_, _, _, by rw [List.cons_getElem_drop_succ, List.take_append_drop], hstem, hdigit⟩
  · refine ⟨fun hne => absurd rfl hne, ?_⟩
    rintro ⟨s, d, tail, rfl, hstem, hfirst, hlast⟩
    have hlength := eqIgnoreAsciiCase_length hstem
    refine absurd ?_ h
    rw [← hlength]
    simp [hstem, hfirst, hlast]

theorem shortAlias_iff {name stem : List UInt8} {first last : UInt8} (hfirst : 49 ≤ first)
    (hlast : last ≤ 57) :
    shortAlias name (shortName name stem first last) = true ↔
      ∃ d, first ≤ d ∧ d ≤ last ∧ AliasOf (stem ++ [d]) name := by
  constructor
  · intro h
    have hne : shortName name stem first last ≠ none := by
      intro hnone
      rw [hnone] at h
      cases h
    obtain ⟨s, d, tail, rfl, hstem, hd, hd'⟩ := Iff.mp shortName_isSome hne
    have hstem' : eqIgnoreAsciiCase (s ++ [d]) (stem ++ [d]) = true := by
      simpa [eqIgnoreAsciiCase] using of_decide_eq_true hstem
    have hlength : shortName (s ++ d :: tail) stem first last = some (stem ++ [d]).length := by
      revert hne
      unfold shortName
      split_ifs <;> simp
    have hparts : s ++ d :: tail = (s ++ [d]) ++ tail := by simp
    rw [hlength, shortAlias, hparts] at h
    rw [hparts]
    exact ⟨d, hd, hd', (droppedTail_drop hstem').mp h⟩
  · rintro ⟨d, hd, hd', stem', tail, rfl, hstem, htail⟩
    have hlower := of_decide_eq_true hstem
    rw [List.map_append] at hlower
    obtain ⟨s, rest, rfl, hs, hrest⟩ := List.map_eq_append_iff.mp hlower
    obtain ⟨b, rfl, hb⟩ := List.map_eq_singleton_iff.mp hrest
    obtain rfl :=
      asciiLower_digit d (UInt8.le_trans hfirst hd) (UInt8.le_trans hd' hlast) b hb
    have hs' : eqIgnoreAsciiCase s stem = true := decide_eq_true hs
    have hne := shortName_isSome.mpr ⟨s, b, tail, rfl, hs', hd, hd'⟩
    have hlength : shortName (s ++ b :: tail) stem first last = some (stem ++ [b]).length := by
      revert hne
      unfold shortName
      split_ifs <;> simp
    have hstem' : eqIgnoreAsciiCase (s ++ [b]) (stem ++ [b]) = true := hstem
    have hparts : s ++ b :: tail = (s ++ [b]) ++ tail := by simp
    rw [List.append_assoc, List.singleton_append, hlength, shortAlias, hparts]
    exact (droppedTail_drop hstem').mpr ⟨_, _, rfl, hstem', htail⟩

/-- **The checks of a name**: the long name or a short one, in disguise. No name begins with both. -/
theorem ntfsAlias_iff {name long : List UInt8} {short : List UInt8 → Option ℕ}
    (hapart : ∀ stem tail, name = stem ++ tail → eqIgnoreAsciiCase stem long = true →
      short name = none) :
    ntfsAlias name long short = true ↔ AliasOf long name ∨ shortAlias name (short name) = true := by
  unfold ntfsAlias
  split_ifs with h
  · obtain ⟨stem, tail, rfl, hstem⟩ := takes_iff.mp h
    rw [droppedTail_drop hstem, hapart stem tail rfl hstem]
    simp [shortAlias]
  · rw [or_iff_right]
    · rfl
    · rintro ⟨stem, tail, hname, hstem, -⟩
      exact h (takes_iff.mpr ⟨stem, tail, hname, hstem⟩)

/-- A name that begins with a long name has no short one of another beginning. -/
theorem shortName_eq_none {stem tail long short : List UInt8} {first last : UInt8}
    (hstem : eqIgnoreAsciiCase stem long = true)
    (hapart : ¬ (long.map asciiLower <+: short.map asciiLower ∨
      short.map asciiLower <+: long.map asciiLower)) :
    shortName (stem ++ tail) short first last = none := by
  by_contra hne
  obtain ⟨s, d, tail', heq, hs, -⟩ := Iff.mp shortName_isSome hne
  exact hapart (lower_prefixes hstem hs heq)

theorem isDotGit_iff {component : FileName} :
    isDotGit component = true ↔ Alias dotGitNames (withoutHfsIgnorables component) := by
  rw [isDotGit, ntfsAlias_iff fun stem tail hname hstem => by
      rw [hname]
      exact shortName_eq_none hstem (by decide),
    shortAlias_iff (by decide) (by decide)]
  have hshort : ∀ d : UInt8, 49 ≤ d ∧ d ≤ 49 ↔ d = 49 := by
    intro d
    simp only [UInt8.le_iff_toNat_le, ← UInt8.toNat_inj, UInt8.reduceToNat]
    omega
  simp only [Alias, dotGitNames, List.mem_cons, List.not_mem_nil, or_false, exists_eq_or_imp,
    exists_eq_left, ← and_assoc, hshort]
  rfl

theorem isDotGitmodules_iff {component : FileName} :
    isDotGitmodules component = true ↔ Alias gitmodulesNames (withoutHfsIgnorables component) := by
  set name := withoutHfsIgnorables component with hname
  have hapart : shortAlias name ((shortName name (pathBytes "gitmod~") 49 52).or
      (shortName name (pathBytes "gi7eba~") 49 57)) = true ↔
      shortAlias name (shortName name (pathBytes "gitmod~") 49 52) = true ∨
        shortAlias name (shortName name (pathBytes "gi7eba~") 49 57) = true := by
    cases hfirst : shortName name (pathBytes "gitmod~") 49 52 with
    | none => simp [shortAlias]
    | some length =>
      obtain ⟨s, d, tail, heq, hs, -⟩ := Iff.mp shortName_isSome (hfirst ▸ Option.some_ne_none length)
      have hsecond : shortName name (pathBytes "gi7eba~") 49 57 = none := by
        rw [heq]
        exact shortName_eq_none hs (by decide)
      simp [hsecond, shortAlias]
  rw [isDotGitmodules, ← hname, ntfsAlias_iff fun stem tail hname hstem => by
      rw [hname, shortName_eq_none hstem (by decide), shortName_eq_none hstem (by decide)]
      rfl,
    hapart, shortAlias_iff (by decide) (by decide), shortAlias_iff (by decide) (by decide)]
  have hfour : ∀ d : UInt8, 49 ≤ d ∧ d ≤ 52 ↔ d = 49 ∨ d = 50 ∨ d = 51 ∨ d = 52 := by
    intro d
    simp only [UInt8.le_iff_toNat_le, ← UInt8.toNat_inj, UInt8.reduceToNat]
    omega
  have hnine : ∀ d : UInt8, 49 ≤ d ∧ d ≤ 57 ↔ d = 49 ∨ d = 50 ∨ d = 51 ∨ d = 52 ∨ d = 53 ∨
      d = 54 ∨ d = 55 ∨ d = 56 ∨ d = 57 := by
    intro d
    simp only [UInt8.le_iff_toNat_le, ← UInt8.toNat_inj, UInt8.reduceToNat]
    omega
  simp only [Alias, gitmodulesNames, List.mem_cons, List.not_mem_nil, or_false, exists_eq_left,
    ← and_assoc, hfour, hnine, or_and_right, exists_or, or_assoc]
  rfl

/-! ## Case -/

/-- What is told apart of a byte does not depend on its case. -/
theorem asciiLower_reads (b : UInt8) :
    ((asciiLower b = 0xE2 ↔ b = 0xE2) ∧ (asciiLower b = 0xEF ↔ b = 0xEF) ∧
    (asciiLower b = 0x80 ↔ b = 0x80) ∧ (asciiLower b = 0x81 ↔ b = 0x81) ∧
    (asciiLower b = 0xBB ↔ b = 0xBB) ∧ (asciiLower b = 0xBF ↔ b = 0xBF)) ∧
    ((0x8C ≤ asciiLower b ↔ 0x8C ≤ b) ∧ (asciiLower b ≤ 0x8F ↔ b ≤ 0x8F) ∧
      (0xAA ≤ asciiLower b ↔ 0xAA ≤ b) ∧ (asciiLower b ≤ 0xAE ↔ b ≤ 0xAE) ∧
      (asciiLower b ≤ 0xAF ↔ b ≤ 0xAF)) ∧
    (asciiLower b = dot ↔ b = dot) ∧ (asciiLower b = 32 ↔ b = 32) ∧ (asciiLower b = 58 ↔ b = 58) ∧
      (asciiLower b = 92 ↔ b = 92) ∧ (asciiLower b = slash ↔ b = slash) := by
  simp only [UInt8.le_iff_toNat_le, ← UInt8.toNat_inj, asciiLower_toNat, dot, slash,
    UInt8.reduceToNat]
  split_ifs <;> omega

theorem hfsIgnorable_lower (x y z : UInt8) :
    hfsIgnorable (asciiLower x) (asciiLower y) (asciiLower z) = hfsIgnorable x y z := by
  obtain ⟨⟨hx, hx', -, -, -, -⟩, -⟩ := asciiLower_reads x
  obtain ⟨⟨-, -, hy, hy', hy'', -⟩, -⟩ := asciiLower_reads y
  obtain ⟨⟨-, -, -, -, -, hz⟩, ⟨hl, hu, hl', hu', hu''⟩, -⟩ := asciiLower_reads z
  simp only [hfsIgnorable, hx, hx', hy, hy', hy'', hz, hl, hu, hl', hu', hu'']

theorem strip_lower (bytes : List UInt8) :
    withoutHfsIgnorables (bytes.map asciiLower) = (withoutHfsIgnorables bytes).map asciiLower := by
  induction bytes using withoutHfsIgnorables.induct with
  | case1 x y z rest h ih =>
    rw [strip_ignored h, ← ih]
    exact strip_ignored ((hfsIgnorable_lower x y z).trans h) _
  | case2 x y z rest h ih =>
    have hlower : ¬ hfsIgnorable (asciiLower x) (asciiLower y) (asciiLower z) = true := by
      rwa [hfsIgnorable_lower]
    simp only [List.map_cons] at ih ⊢
    simp only [withoutHfsIgnorables, if_neg h, if_neg hlower, List.map_cons, ih]
  | case3 rest hshort =>
    rcases rest with _ | ⟨b, _ | ⟨c, _ | ⟨d, rest⟩⟩⟩
    · rfl
    · rfl
    · rfl
    · exact absurd rfl (hshort b c d rest)

theorem droppedTail_lower (tail : List UInt8) :
    droppedTail (tail.map asciiLower) = droppedTail tail := by
  induction tail with
  | nil => rfl
  | cons b tail ih =>
    obtain ⟨-, -, hdot, hspace, hcolon, hback, -⟩ := asciiLower_reads b
    simp only [List.map_cons, droppedTail, hdot, hspace, hcolon, hback, ih]

theorem alias_lower {names : List String} {name : List UInt8} :
    Alias names (name.map asciiLower) ↔ Alias names name := by
  have hidem : ∀ l : List UInt8, (l.map asciiLower).map asciiLower = l.map asciiLower := fun l => by
    rw [List.map_map]
    exact List.map_congr_left fun b _ => asciiLower_idem b
  refine exists_congr fun n => and_congr_right fun _ => ⟨?_, ?_⟩
  · rintro ⟨stem, tail, heq, hstem, htail⟩
    obtain ⟨s, t, rfl, rfl, rfl⟩ := List.map_eq_append_iff.mp heq
    have hs := of_decide_eq_true hstem
    rw [hidem] at hs
    rw [← droppedTail_iff, droppedTail_lower, droppedTail_iff] at htail
    exact ⟨s, t, rfl, decide_eq_true hs, htail⟩
  · rintro ⟨stem, tail, rfl, hstem, htail⟩
    rw [← droppedTail_iff, ← droppedTail_lower, droppedTail_iff] at htail
    refine ⟨_, _, List.map_append, decide_eq_true ?_, htail⟩
    rw [hidem]
    exact of_decide_eq_true hstem

/-! ## What is dropped -/

/-- What may be appended to a component that a volume drops again: dots and spaces, or a stream. -/
def Appended (suffix : List UInt8) : Prop :=
  (∀ b ∈ suffix, b = dot ∨ b = 32) ∨ ∃ stream, suffix = 58 :: stream ∧ slash ∉ stream

theorem Appended.notMem {suffix : List UInt8} (h : Appended suffix) : slash ∉ suffix := by
  rintro hmem
  rcases h with h | ⟨stream, rfl, hstream⟩
  · exact absurd (h slash hmem) (by decide)
  · rcases List.mem_cons.mp hmem with hcolon | hmem
    · exact absurd hcolon (by decide)
    · exact hstream hmem

theorem Appended.atBoundary {suffix : List UInt8} (h : Appended suffix) : AtBoundary suffix := by
  rintro b hb
  rcases h with h | ⟨stream, rfl, -⟩
  · rcases h b (List.mem_of_head? hb) with rfl | rfl <;> rfl
  · obtain rfl := Option.some.inj hb
    rfl

theorem strip_plain {bytes : List UInt8} (h : ∀ b ∈ bytes, continues b = false ∧ b < 0x80) :
    withoutHfsIgnorables bytes = bytes := by
  induction bytes with
  | nil => rfl
  | cons b bytes ih =>
    rw [List.forall_mem_cons] at h
    rw [strip_cons, ih h.2]
    rintro ⟨x, y, z, rest, heq, hyes⟩
    cases heq
    exact absurd (hfsIgnorable_continues hyes).1 (by simp [(h.2 y List.mem_cons_self).1])

/-- A stripped suffix is dropped as the suffix is. -/
theorem Appended.strip {suffix : List UInt8} (h : Appended suffix) :
    (∀ b ∈ withoutHfsIgnorables suffix, b = dot ∨ b = 32) ∨
      ∃ stream, withoutHfsIgnorables suffix = 58 :: stream := by
  rcases h with h | ⟨stream, rfl, -⟩
  · left
    rw [strip_plain fun b hb => ?_]
    · exact h
    · rcases h b hb with rfl | rfl <;> decide
  · right
    refine ⟨_, strip_cons ?_⟩
    rintro ⟨x, y, z, rest, heq, hyes⟩
    cases heq
    exact absurd hyes (by simp [hfsIgnorable])

theorem droppedTail_append_left {t v : List UInt8} (h : droppedTail (t ++ v) = true) :
    droppedTail t = true := by
  induction t with
  | nil => rfl
  | cons b t ih =>
    rw [List.cons_append, droppedTail] at h
    rw [droppedTail]
    split_ifs at h ⊢ with hb
    · exact ih h
    · exact h

theorem droppedTail_append {t v : List UInt8} (h : droppedTail t = true)
    (hv : droppedTail v = true) : droppedTail (t ++ v) = true := by
  induction t with
  | nil => exact hv
  | cons b t ih =>
    rw [droppedTail] at h
    rw [List.cons_append, droppedTail]
    split_ifs at h ⊢ with hb
    · exact ih h
    · exact h

/-- The names have no stream separator, and end in no dot or space. -/
def Solid (n : List UInt8) : Prop :=
  (58 : UInt8) ∉ n.map asciiLower ∧
    ∀ b, (n.map asciiLower).getLast? = some b → b ≠ dot ∧ b ≠ 32

theorem aliasOf_append {n u v : List UInt8} (hn : Solid n)
    (hv : (∀ b ∈ v, b = dot ∨ b = 32) ∨ ∃ stream, v = 58 :: stream) :
    AliasOf n (u ++ v) ↔ AliasOf n u := by
  have htrails : droppedTail v = true := by
    rw [droppedTail_iff]
    rcases hv with hv | ⟨stream, rfl⟩
    · exact ⟨v, [], by simp, hv, .inl rfl⟩
    · exact ⟨[], _, rfl, nofun, .inr (.inl rfl)⟩
  constructor
  · rintro ⟨stem, tail, heq, hstem, htail⟩
    rw [← droppedTail_iff] at htail
    rcases List.append_eq_append_iff.mp heq with ⟨extra, rfl, rfl⟩ | ⟨t, rfl, rfl⟩
    · -- the name would end within what was appended
      have hlower := of_decide_eq_true hstem
      rcases extra.eq_nil_or_concat with rfl | ⟨front, b, rfl⟩
      · exact ⟨u, [], by simp, by simpa using hstem, ⟨[], [], rfl, nofun, .inl rfl⟩⟩
      · exfalso
        rcases hv with hv | ⟨stream, hstream⟩
        · have hb := hv b (by simp)
          have hlast := hn.2 (asciiLower b) (by rw [← hlower]; simp)
          obtain ⟨-, -, hdot, hspace, -⟩ := asciiLower_reads b
          rcases hb with rfl | rfl
          · exact hlast.1 (hdot.mpr rfl)
          · exact hlast.2 (hspace.mpr rfl)
        · have hcolon : (58 : UInt8) ∈ front.concat b := by
            cases hextra : front.concat b with
            | nil => simp at hextra
            | cons c rest =>
              rw [hextra] at hstream
              cases hstream
              exact List.mem_cons_self
          refine hn.1 ?_
          rw [← hlower]
          exact List.mem_map.mpr ⟨58, List.mem_append_right _ hcolon, rfl⟩
    · exact ⟨stem, t, rfl, hstem, droppedTail_iff.mp (droppedTail_append_left htail)⟩
  · rintro ⟨stem, tail, rfl, hstem, htail⟩
    rw [← droppedTail_iff] at htail
    exact ⟨stem, tail ++ v, List.append_assoc .., hstem,
      droppedTail_iff.mp (droppedTail_append htail htrails)⟩

theorem solid_names : ∀ n ∈ dotGitNames ++ gitmodulesNames, Solid (pathBytes n) := by
  have hcolon : ∀ n ∈ dotGitNames ++ gitmodulesNames,
      (58 : UInt8) ∉ (pathBytes n).map asciiLower ∧
        ((pathBytes n).map asciiLower).getLast?.all (fun b => b ≠ dot && b ≠ 32) = true := by
    decide
  intro n hn
  refine ⟨(hcolon n hn).1, fun b hb => ?_⟩
  have hlast := (hcolon n hn).2
  rw [hb] at hlast
  simpa using hlast

theorem alias_append {names : List String} (hnames : ∀ n ∈ names, Solid (pathBytes n))
    {u v : List UInt8} (hv : (∀ b ∈ v, b = dot ∨ b = 32) ∨ ∃ stream, v = 58 :: stream) :
    Alias names (u ++ v) ↔ Alias names u :=
  exists_congr fun n => and_congr_right fun hn => aliasOf_append (hnames n hn) hv

/-! ## Paths -/

/-- One component names git's administration. -/
def Administers (kind : EntryKind) (name : List UInt8) : Prop :=
  Alias dotGitNames name ∨ kind = .symlink ∧ Alias gitmodulesNames name

/-- **Refusal.** Some component, stripped, is one of the names in disguise. -/
theorem refuses_iff {parts : TreePath} {kind : EntryKind} :
    gitRefusesPath parts kind = true ↔
      ∃ component ∈ parts, Administers kind (withoutHfsIgnorables component) := by
  simp only [gitRefusesPath, List.any_eq_true, Bool.or_eq_true, Bool.and_eq_true,
    decide_eq_true_eq, isDotGit_iff, isDotGitmodules_iff, Administers]

/-- What stands in one component decides for the path as it decides for the component. -/
theorem refuses_hole (kind : EntryKind) {p q x y : List UInt8} (hx : slash ∉ x) (hy : slash ∉ y)
    (hsame : ∀ a b after, q.splitOn slash = b :: after →
      (Administers kind (withoutHfsIgnorables (a ++ x ++ b)) ↔
        Administers kind (withoutHfsIgnorables (a ++ y ++ b)))) :
    gitRefusesPath (components (p ++ x ++ q)) kind =
      gitRefusesPath (components (p ++ y ++ q)) kind := by
  obtain ⟨before, a, b, after, hparts, hq⟩ := exists_hole slash p q
  rw [Bool.eq_iff_iff, refuses_iff, refuses_iff, components, components, hparts x hx, hparts y hy]
  simp only [List.mem_append, List.mem_cons, or_and_right, exists_or, exists_eq_left,
    hsame a b after hq]

theorem refuses_lower {path : List UInt8} {kind : EntryKind} :
    gitRefusesPath (components (path.map asciiLower)) kind =
      gitRefusesPath (components path) kind := by
  have hparts : components (path.map asciiLower) = (components path).map (List.map asciiLower) :=
    splitOn_map (fun b => (asciiLower_reads b).2.2.2.2.2.2) path
  rw [Bool.eq_iff_iff, refuses_iff, refuses_iff, hparts]
  simp only [List.mem_map, exists_exists_and_eq_and, strip_lower, Administers, alias_lower]

/-- A stretch of one ignored code point may stand between any two others. -/
theorem refuses_insert {p q : List UInt8} {c : Char} {kind : EntryKind} (hc : ignorable c = true)
    (hq : AtBoundary q) :
    gitRefusesPath (components (p ++ String.utf8EncodeChar c ++ q)) kind =
      gitRefusesPath (components (p ++ q)) kind := by
  obtain ⟨x, y, z, hbytes, hyes⟩ := hfsIgnorable_encode hc
  have hslash : slash ∉ String.utf8EncodeChar c := by
    rw [hbytes]
    intro hmem
    have hlow : continues slash = false := rfl
    obtain ⟨hy, hz, -⟩ := hfsIgnorable_continues hyes
    have hx : x = 0xE2 ∨ x = 0xEF := by
      simp only [hfsIgnorable, Bool.or_eq_true, Bool.and_eq_true, decide_eq_true_eq] at hyes
      tauto
    simp only [List.mem_cons, List.not_mem_nil, or_false] at hmem
    rcases hmem with rfl | rfl | rfl
    · rcases hx with hx | hx <;> cases hx
    · rw [hlow] at hy
      cases hy
    · rw [hlow] at hz
      cases hz
  have hhole := refuses_hole kind (p := p) (q := q) (y := []) hslash (by simp) ?_
  · simpa using hhole
  · intro a b after hparts
    have hb : AtBoundary b := by
      rcases head_part hparts with rfl | hhead
      · exact nofun
      · rwa [AtBoundary, hhead]
    have hmiddle : AtBoundary (String.utf8EncodeChar c ++ b) := by
      rw [hbytes]
      rintro b' hb'
      obtain rfl := Option.some.inj hb'
      exact (hfsIgnorable_continues hyes).2.2
    have hstrip : withoutHfsIgnorables (String.utf8EncodeChar c ++ b) = withoutHfsIgnorables b := by
      rw [hbytes]
      exact strip_ignored hyes b
    rw [List.append_assoc, strip_append hmiddle, hstrip, ← strip_append hb, List.append_nil]

/-- What a volume drops may stand at the end of a component. -/
theorem refuses_append {p q suffix : List UInt8} {kind : EntryKind} (hsuffix : Appended suffix)
    (hq : q = [] ∨ q.head? = some slash) :
    gitRefusesPath (components (p ++ suffix ++ q)) kind =
      gitRefusesPath (components (p ++ q)) kind := by
  have hhole := refuses_hole kind (p := p) (q := q) (y := []) hsuffix.notMem (by simp) ?_
  · simpa using hhole
  · intro a b after hparts
    obtain rfl := head_part_of_end hq hparts
    simp only [List.append_nil, strip_append hsuffix.atBoundary, Administers]
    have hgit := fun n hn => solid_names n (List.mem_append_left gitmodulesNames hn)
    have hmodules := fun n hn => solid_names n (List.mem_append_right dotGitNames hn)
    rw [alias_append hgit hsuffix.strip, alias_append hmodules hsuffix.strip]

/-- **Git administration paths are refused in every disguise**: exactly the paths with a component
that, without ignored code points, is one of the names in some case with what a volume drops behind
it. Inserting ignored code points, changing case and appending what is dropped change nothing, and
no spelling of such a path is checked. -/
theorem git_paths_refused :
    (∀ path kind, gitRefusesPath (components path) kind = true ↔
      ∃ component ∈ components path, ∃ name, Stripped component name ∧
        (Alias dotGitNames name ∨ kind = .symlink ∧ Alias gitmodulesNames name)) ∧
    (∀ p q c kind, ignorable c = true → AtBoundary q →
      gitRefusesPath (components (p ++ String.utf8EncodeChar c ++ q)) kind =
        gitRefusesPath (components (p ++ q)) kind) ∧
    (∀ path path' kind, path.map asciiLower = path'.map asciiLower →
      gitRefusesPath (components path) kind = gitRefusesPath (components path') kind) ∧
    (∀ p suffix q kind, Appended suffix → q = [] ∨ q.head? = some slash →
      gitRefusesPath (components (p ++ suffix ++ q)) kind =
        gitRefusesPath (components (p ++ q)) kind) ∧
    ∀ encoded kind, gitRefusesPath (components (decodePath encoded)) kind = true →
      ∀ below, checkedRelativePath encoded kind ≠ .ok below := by
  refine ⟨fun path kind => ?_, fun p q c kind => refuses_insert, fun path path' kind h => ?_,
    fun p suffix q kind => refuses_append, fun encoded kind h below hok => ?_⟩
  · simp only [refuses_iff, stripped_iff, exists_eq_left, Administers]
  · rw [← refuses_lower, h, refuses_lower]
  · unfold checkedRelativePath at hok
    simp only [h, if_true] at hok
    split_ifs at hok

/-- A disguised `.git` below a directory is refused in its spelling. -/
theorem git_paths_refused_sample :
    ∀ below, checkedRelativePath "sub/.GIT%20/config" .file ≠ .ok below :=
  git_paths_refused.2.2.2.2 _ _ (by decide)

end Afactory
