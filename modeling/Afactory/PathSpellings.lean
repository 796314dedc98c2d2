import Mathlib
import Afactory.SourceManifest

/-!
# One spelling for each raw path

`review-core/src/path.rs` and the canonicality scanner of `review-source-git/src/manifest.rs`, over
every byte string.

* `decodeBytes_spelling`: what is written is read back, plain or escaped;
* `canonicalEscapes_flatMap`: the scanner accepts every escaped spelling;
* `isCanonicalPathEncoding_iff`: it accepts the spelling that is written, and no other;
* `Manifest.distinct`, `checkedRelativePath_ok`: what a valid manifest names, and where its paths
  lead;
* `path_spellings`: all of it.
-/

namespace Afactory

/-! ## Reading back -/

theorem decodeBytes_cons {b : UInt8} (h : b ≠ percent) (rest : List UInt8) :
    decodeBytes (b :: rest) = b :: decodeBytes rest := by
  rcases rest with _ | ⟨c, _ | ⟨d, rest⟩⟩
  · simp [decodeBytes]
  · simp [decodeBytes]
  · rw [decodeBytes, if_neg h]

/-- A percent sign and two digits are one byte. -/
theorem decodeBytes_hex {high low x y : UInt8} (hx : hexValue high = some x)
    (hy : hexValue low = some y) (tail : List UInt8) :
    decodeBytes (percent :: high :: low :: tail) = (x <<< 4 ||| y) :: decodeBytes tail := by
  rw [decodeBytes, if_pos rfl, hx, hy]

set_option maxRecDepth 10000 in
/-- The escape of a byte: itself, or two digits in upper case that give it. -/
theorem escapeByte_cases (b : UInt8) :
    (plainByte b = true ∧ b ≠ percent ∧ escapeByte b = [b]) ∨
      (plainByte b = false ∧ ∃ high low x y, escapeByte b = [percent, high, low] ∧
        upperHex high = true ∧ upperHex low = true ∧ hexValue high = some x ∧
        hexValue low = some y ∧ x <<< 4 ||| y = b) := by
  have hplain : ∀ b : UInt8, plainByte b = true → b ≠ percent := by decide
  have hhigh : ∀ b : UInt8, upperHex (if b / 16 < 10 then 48 + b / 16 else 55 + b / 16) = true ∧
      hexValue (if b / 16 < 10 then 48 + b / 16 else 55 + b / 16) = some (b / 16) := by
    decide
  have hlow : ∀ b : UInt8, upperHex (if b % 16 < 10 then 48 + b % 16 else 55 + b % 16) = true ∧
      hexValue (if b % 16 < 10 then 48 + b % 16 else 55 + b % 16) = some (b % 16) := by
    decide
  have hvalue : ∀ b : UInt8, (b / 16) <<< 4 ||| b % 16 = b := by decide
  cases hb : plainByte b with
  | true => exact .inl ⟨rfl, hplain b hb, by rw [escapeByte, if_pos hb]⟩
  | false =>
    refine .inr ⟨rfl, _, _, _, _, ?_, (hhigh b).1, (hlow b).1, (hhigh b).2, (hlow b).2, hvalue b⟩
    rw [escapeByte, if_neg (by simp [hb])]

theorem decodeBytes_escapes (decoded : List UInt8) :
    decodeBytes (decoded.flatMap escapeByte) = decoded := by
  induction decoded with
  | nil => rfl
  | cons b decoded ih =>
    rw [List.flatMap_cons]
    rcases escapeByte_cases b with ⟨-, hb, hescape⟩ |
      ⟨-, high, low, x, y, hescape, -, -, hx, hy, hvalue⟩
    · rw [hescape, List.singleton_append, decodeBytes_cons hb, ih]
    · rw [hescape]
      change decodeBytes (percent :: high :: low :: decoded.flatMap escapeByte) = _
      rw [decodeBytes_hex hx hy, ih, hvalue]

theorem percent_not_mem_of_isLiteral {decoded : List UInt8} (h : isLiteral decoded = true) :
    percent ∉ decoded := by
  simp only [isLiteral, Bool.and_eq_true, Bool.not_eq_true'] at h
  simpa using h.2

/-- **What is written is read back.** -/
theorem decodeBytes_spelling (decoded : List UInt8) : decodeBytes (spelling decoded) = decoded := by
  unfold spelling
  split_ifs with hliteral
  · exact decodeBytes_of_no_percent (percent_not_mem_of_isLiteral hliteral)
  · exact decodeBytes_escapes decoded

theorem decodePath_encodeRawPath (bytes : List UInt8) : decodePath (encodeRawPath bytes) = bytes := by
  rw [decodePath, pathBytes_encodeRawPath, decodeBytes_spelling]

/-- Two raw paths have two spellings. -/
theorem encodeRawPath_injective : Function.Injective encodeRawPath :=
  Function.LeftInverse.injective decodePath_encodeRawPath

/-! ## The scanner -/

theorem canonicalEscapes_cons {b : UInt8} (h : b ≠ percent) (rest : List UInt8) :
    canonicalEscapes (b :: rest) = (plainByte b && canonicalEscapes rest) := by
  rcases rest with _ | ⟨c, _ | ⟨d, rest⟩⟩ <;> simp [canonicalEscapes, h]

/-- The scanner accepts every escaped spelling. -/
theorem canonicalEscapes_flatMap (decoded : List UInt8) :
    canonicalEscapes (decoded.flatMap escapeByte) = true := by
  induction decoded with
  | nil => rfl
  | cons b decoded ih =>
    rw [List.flatMap_cons]
    rcases escapeByte_cases b with ⟨hplain, hb, hescape⟩ |
      ⟨hplain, high, low, x, y, hescape, hhigh, hlow, hx, hy, hvalue⟩
    · rw [hescape, List.singleton_append, canonicalEscapes_cons hb, hplain, ih]
      rfl
    · rw [hescape]
      change canonicalEscapes (percent :: high :: low :: decoded.flatMap escapeByte) = true
      rw [canonicalEscapes, if_neg (not_not.mpr rfl)]
      simp only [hhigh, hlow, hx, hy, Option.getD_some, hvalue, hplain, ih]
      rfl

/-- **The scanner accepts the spelling that is written, and no other**: of a spelling without
escapes the raw path must be a repository path. -/
theorem isCanonicalPathEncoding_iff (path : String) :
    isCanonicalPathEncoding path (decodePath path) = true ↔
      path = encodeRawPath (decodePath path) ∧
        ('%' ∈ path.toList ∨ validLiteral (decodePath path) = true) := by
  constructor
  · intro h
    refine ⟨(encodeRawPath_decodePath h).symm, ?_⟩
    unfold isCanonicalPathEncoding at h
    split_ifs at h with hplain hliteral
    · exact .inr h
    · exact .inl (percent_mem_pathBytes.mp (by simpa using hplain))
  · rintro ⟨hwritten, hpath⟩
    have hbytes : pathBytes path = spelling (decodePath path) := by
      conv_lhs => rw [hwritten]
      exact pathBytes_encodeRawPath _
    unfold isCanonicalPathEncoding
    by_cases hpercent : percent ∈ pathBytes path
    · -- a literal spelling has no percent sign
      have hliteral : isLiteral (decodePath path) = false := by
        rw [Bool.eq_false_iff]
        intro hliteral
        rw [hbytes, spelling, if_pos hliteral] at hpercent
        exact percent_not_mem_of_isLiteral hliteral hpercent
      rw [spelling, hliteral, if_neg Bool.false_ne_true] at hbytes
      have hescapes : canonicalEscapes (pathBytes path) = true := by
        rw [hbytes]
        exact canonicalEscapes_flatMap _
      simp [hpercent, hliteral, hescapes]
    · have hvalid := hpath.resolve_left fun h => hpercent (percent_mem_pathBytes.mpr h)
      simp [hpercent, hvalid]

/-! ## Manifests and the paths below a root -/

/-- **No raw path stands under two spellings** in a valid manifest. -/
theorem Manifest.distinct {M : Manifest} (h : M.validate = .ok ()) :
    EntriesOrdered M.entries ∧
      ∀ a ∈ M.entries, ∀ b ∈ M.entries, decodePath a.path = decodePath b.path → a = b := by
  obtain ⟨hcanonical, hordered⟩ := Manifest.validate_eq_ok.mp h
  refine ⟨hordered, fun a ha b hb hsame => ?_⟩
  have hpath : a.path = b.path := by
    rw [← encodeRawPath_decodePath (hcanonical a ha), hsame,
      encodeRawPath_decodePath (hcanonical b hb)]
  exact List.inj_on_of_nodup_map hordered.nodup_paths ha hb hpath

/-- **A checked path stays below its root.** -/
theorem checkedRelativePath_ok {path : String} {kind : EntryKind} {below : TreePath}
    (h : checkedRelativePath path kind = .ok below) :
    decodePath path ≠ [] ∧ (decodePath path).head? ≠ some slash ∧
      below = components (decodePath path) ∧
      ∀ component ∈ below, component ≠ [] ∧ component ≠ [dot] ∧ component ≠ [dot, dot] := by
  unfold checkedRelativePath at h
  dsimp only at h
  split_ifs at h with hcanonical hescape hgit
  obtain rfl := Except.ok.inj h
  simp only [Bool.or_eq_true, not_or, Bool.not_eq_true] at hescape
  obtain ⟨hescapes, hinvalid⟩ := hescape
  have hparts : ∀ component ∈ components (decodePath path),
      component ≠ [] ∧ component ≠ [dot] ∧ component ≠ [dot, dot] := by
    intro component hmem
    have hvalid := List.any_eq_false.mp hinvalid component hmem
    simp only [invalidComponent, Bool.or_eq_true, List.isEmpty_iff, decide_eq_true_eq,
      not_or] at hvalid
    exact ⟨hvalid.1.1, hvalid.1.2, hvalid.2⟩
  refine ⟨fun hempty => ?_, fun hroot => ?_, rfl, hparts⟩
  · rw [hempty] at hparts
    exact (hparts [] (by decide)).1 rfl
  · simp [escapes, hroot] at hescapes

/-- **Path spellings are reversible and unique**, a valid manifest names each raw path once, and a
checked path leads below its root. -/
theorem path_spellings :
    (∀ bytes, decodePath (encodeRawPath bytes) = bytes) ∧ Function.Injective encodeRawPath ∧
    (∀ path, isCanonicalPathEncoding path (decodePath path) = true ↔
      path = encodeRawPath (decodePath path) ∧
        ('%' ∈ path.toList ∨ validLiteral (decodePath path) = true)) ∧
    (∀ M : Manifest, M.validate = .ok () →
      M.entries.Pairwise (fun a b => pathBytes a.path < pathBytes b.path) ∧
        ∀ a ∈ M.entries, ∀ b ∈ M.entries, decodePath a.path = decodePath b.path → a = b) ∧
    ∀ path kind below, checkedRelativePath path kind = .ok below →
      decodePath path ≠ [] ∧ (decodePath path).head? ≠ some slash ∧
        below = components (decodePath path) ∧
        ∀ component ∈ below, component ≠ [] ∧ component ≠ [dot] ∧ component ≠ [dot, dot] :=
  ⟨decodePath_encodeRawPath, encodeRawPath_injective, isCanonicalPathEncoding_iff,
    fun _ h => Manifest.distinct h, fun _ _ _ h => checkedRelativePath_ok h⟩

/-- A plain path, one with escapes, and what they lead to. -/
theorem path_spellings_sample :
    checkedRelativePath "my%20dir/100%25" .file =
        .ok [pathBytes "my dir", pathBytes "100%"] ∧
      decodePath "my%20dir/100%25" ≠ [] :=
  have hchecked : checkedRelativePath "my%20dir/100%25" .file =
      .ok [pathBytes "my dir", pathBytes "100%"] := by decide
  ⟨hchecked, (path_spellings.2.2.2.2 _ _ _ hchecked).1⟩

end Afactory
