import Mathlib
import Afactory.Checks
import Afactory.RepoPath

/-!
# Manifests of a source tree

`review-source-git/src/manifest.rs` and the checks of `materialize.rs` that read a manifest alone:
which spelling of a path is canonical, in which order the entries of a manifest stand, which paths
git refuses, and which entries lie below a symlink.

* `decodePath`, `encodeRawPath`, `isCanonicalPathEncoding`: raw paths and their one spelling;
* `Manifest.validate`: canonical paths in strictly increasing order of their spelling;
* `checkedRelativePath`: the components of a path that stays inside its root;
* `pathBytes_canonical`: a canonical path is the spelling of the raw path it names;
* `encodeRawPath_decodePath`: a canonical path is what its raw path is encoded as;
* `Manifest.validate_eq_ok`, `Manifest.exists_new`: what a valid manifest is, and that entries of
  distinct canonical paths make one.
-/

namespace Afactory

/-! ## Bytes -/

abbrev percent : UInt8 := 37
abbrev slash : UInt8 := 47
abbrev dot : UInt8 := 46

/-- The bytes of a text. -/
def pathBytes (path : String) : List UInt8 := path.toUTF8.data.toList

theorem pathBytes_inj {a b : String} (h : pathBytes a = pathBytes b) : a = b := by
  have hdata : a.toUTF8.data = b.toUTF8.data := Array.toList_inj.mp h
  exact String.toByteArray_inj.mp (congrArg ByteArray.mk hdata)

/-- `std::str::from_utf8`. -/
def readUtf8 (bytes : List UInt8) : Option String := String.fromUTF8? ⟨bytes.toArray⟩

def hexValue (b : UInt8) : Option UInt8 :=
  if 48 ≤ b ∧ b ≤ 57 then some (b - 48)
  else if 65 ≤ b ∧ b ≤ 70 then some (b - 65 + 10)
  else if 97 ≤ b ∧ b ≤ 102 then some (b - 97 + 10)
  else none

/-- `decode_path`, of the bytes of a text: a percent sign before anything but two digits stands
for itself. -/
@[grind =] def decodeBytes : List UInt8 → List UInt8
  | b :: high :: low :: tail =>
    if b = percent then
      match hexValue high, hexValue low with
      | some h, some l => (h <<< 4 ||| l) :: decodeBytes tail
      | _, _ => b :: decodeBytes (high :: low :: tail)
    else b :: decodeBytes (high :: low :: tail)
  -- no digits can follow
  | rest => rest

def decodePath (encoded : String) : List UInt8 := decodeBytes (pathBytes encoded)

/-- The raw path of a literal spelling: valid text that is a repository path. -/
def validLiteral (decoded : List UInt8) : Bool :=
  match readUtf8 decoded with
  | some path => isValidRepoPath path
  | none => false

/-- The raw paths that are spelled as they are. -/
def isLiteral (decoded : List UInt8) : Bool := validLiteral decoded && !decoded.contains percent

/-- `encode_path`. -/
def encodeRawPath (bytes : List UInt8) : String :=
  match readUtf8 bytes with
  | some path =>
    if !path.toList.contains '%' && isValidRepoPath path then path
    else String.ofList (bytes.flatMap encodeByte)
  | none => String.ofList (bytes.flatMap encodeByte)

def upperHex (b : UInt8) : Bool := (48 ≤ b && b ≤ 57) || (65 ≤ b && b ≤ 70)

/-- The loop of `is_canonical_path_encoding`: plain bytes, and upper-case escapes of others. -/
def canonicalEscapes : List UInt8 → Bool
  | [] => true
  | b :: rest =>
    if b ≠ percent then plainByte b && canonicalEscapes rest
    else
      match rest with
      | high :: low :: tail =>
        upperHex high && upperHex low &&
          !plainByte ((hexValue high).getD 0 <<< 4 ||| (hexValue low).getD 0) &&
          canonicalEscapes tail
      | _ => false

/-- `is_canonical_path_encoding`. -/
def isCanonicalPathEncoding (encoded : String) (decoded : List UInt8) : Bool :=
  if !(pathBytes encoded).contains percent then validLiteral decoded
  else if isLiteral decoded then false
  else canonicalEscapes (pathBytes encoded)

/-! ## Manifests -/

inductive EntryKind where
  | file
  | executable
  | symlink
  deriving DecidableEq, Repr

structure Entry where
  path : String
  kind : EntryKind
  content : String
  size : ℕ
  deriving DecidableEq, Repr

structure Manifest where
  entries : List Entry
  deriving DecidableEq, Repr

inductive ManifestError where
  | noncanonicalPath (path : String)
  | duplicatePath (path : String)
  | unsortedPaths (previous path : String)
  deriving DecidableEq, Repr

/-- The text of a manifest error. -/
def ManifestError.message : ManifestError → String
  | .noncanonicalPath path => "manifest path `" ++ path ++ "` is not canonical"
  | .duplicatePath path => "manifest repeats path `" ++ path ++ "`"
  | .unsortedPaths previous path =>
    "manifest path `" ++ path ++ "` is ordered before preceding path `" ++ previous ++ "`"

def checkCanonical (entry : Entry) : Except ManifestError Unit :=
  let valid := if (pathBytes entry.path).contains percent then
      isCanonicalPathEncoding entry.path (decodePath entry.path)
    else isCanonicalPathEncoding entry.path (pathBytes entry.path)
  if valid then .ok () else .error (.noncanonicalPath entry.path)

/-- The windows of two entries, in the order of the bytes of their paths. -/
def checkOrder : List Entry → Except ManifestError Unit
  | a :: b :: rest =>
    if pathBytes a.path = pathBytes b.path then .error (.duplicatePath b.path)
    else if pathBytes b.path < pathBytes a.path then .error (.unsortedPaths a.path b.path)
    else checkOrder (b :: rest)
  | _ => .ok ()

/-- `Manifest::validate`. -/
def Manifest.validate (M : Manifest) : Except ManifestError Unit := do
  M.entries.forM checkCanonical
  checkOrder M.entries

/-- `Manifest::new`. -/
def Manifest.new (entries : List Entry) : Except ManifestError Manifest := do
  let M : Manifest := ⟨entries.mergeSort fun a b => pathBytes a.path ≤ pathBytes b.path⟩
  M.validate
  return M

/-! ## The paths git refuses -/

/-- One component of a path. -/
abbrev FileName := List UInt8

/-- The components of a raw path. -/
abbrev TreePath := List FileName

def asciiLower (b : UInt8) : UInt8 := if 65 ≤ b ∧ b ≤ 90 then b + 32 else b

theorem asciiLower_toNat (b : UInt8) : (asciiLower b).toNat =
    if 65 ≤ b.toNat ∧ b.toNat ≤ 90 then b.toNat + 32 else b.toNat := by
  rw [asciiLower]
  simp only [UInt8.le_iff_toNat_le, UInt8.reduceToNat]
  split_ifs with h
  · rw [UInt8.toNat_add]
    simp only [UInt8.reduceToNat]
    omega
  · rfl

theorem asciiLower_idem (b : UInt8) : asciiLower (asciiLower b) = asciiLower b := by
  rw [← UInt8.toNat_inj, asciiLower_toNat, asciiLower_toNat]
  split_ifs <;> omega

def eqIgnoreAsciiCase (a b : List UInt8) : Bool := a.map asciiLower = b.map asciiLower

/-- The length of the short name `name` starts with: the stem and one digit. -/
def shortName (name stem : List UInt8) (first last : UInt8) : Option ℕ :=
  if stem.length < name.length && eqIgnoreAsciiCase (name.take stem.length) stem &&
      (name[stem.length]?).any (fun digit => first ≤ digit && digit ≤ last) then
    some (stem.length + 1)
  else none

/-- What NTFS drops, up to the end or a separator. -/
def droppedTail : List UInt8 → Bool
  | [] => true
  | b :: rest => if b = dot ∨ b = 32 then droppedTail rest else b = 58 ∨ b = 92

/-- `ntfs_alias`: the long name or a short one, and what NTFS drops. -/
def ntfsAlias (name long : List UInt8) (short : List UInt8 → Option ℕ) : Bool :=
  if long.length ≤ name.length && eqIgnoreAsciiCase (name.take long.length) long then
    droppedTail (name.drop long.length)
  else
    match short name with
    | some length => droppedTail (name.drop length)
    | none => false

/-- The three bytes of a code point HFS+ ignores. -/
def hfsIgnorable (a b c : UInt8) : Bool :=
  (a = 0xE2 && b = 0x80 && (0x8C ≤ c && c ≤ 0x8F)) ||
    (a = 0xE2 && b = 0x80 && (0xAA ≤ c && c ≤ 0xAE)) ||
    (a = 0xE2 && b = 0x81 && (0xAA ≤ c && c ≤ 0xAF)) || (a = 0xEF && b = 0xBB && c = 0xBF)

def withoutHfsIgnorables : List UInt8 → List UInt8
  | a :: b :: c :: rest =>
    if hfsIgnorable a b c then withoutHfsIgnorables rest
    else a :: withoutHfsIgnorables (b :: c :: rest)
  | rest => rest

def isDotGit (component : FileName) : Bool :=
  ntfsAlias (withoutHfsIgnorables component) (pathBytes ".git")
    fun name => shortName name (pathBytes "git~") 49 49

def isDotGitmodules (component : FileName) : Bool :=
  ntfsAlias (withoutHfsIgnorables component) (pathBytes ".gitmodules") fun name =>
    (shortName name (pathBytes "gitmod~") 49 52).or (shortName name (pathBytes "gi7eba~") 49 57)

/-- `git_refuses_path`, of the components of a path. -/
def gitRefusesPath (components : TreePath) (kind : EntryKind) : Bool :=
  components.any fun component =>
    isDotGit component || (kind = .symlink && isDotGitmodules component)

/-! ## Paths below a root -/

inductive MaterializeError where
  | io (message : String)
  | cas (message : String)
  | manifest (message : String)
  /-- a path that would leave the root -/
  | escape (path : String)
  /-- a path git itself refuses to check out -/
  | gitPath (path : String)
  deriving DecidableEq, Repr

/-- The components of a raw path, split at every slash. -/
def components (decoded : List UInt8) : TreePath := decoded.splitOn slash

/-- The root, current or parent directory among `Path::components`, which drops empty components
and a current directory anywhere but at the start. -/
def escapes (decoded : List UInt8) : Bool :=
  decoded.head? = some slash || (components decoded).head? = some [dot] ||
    (components decoded).contains [dot, dot]

def invalidComponent (component : FileName) : Bool :=
  component.isEmpty || component = [dot] || component = [dot, dot]

/-- `checked_relative_path`. -/
def checkedRelativePath (encoded : String) (kind : EntryKind) :
    Except MaterializeError TreePath :=
  let decoded := decodePath encoded
  if !isCanonicalPathEncoding encoded decoded || encoded.isEmpty then
    .error (.manifest ("path `" ++ encoded ++ "` is not canonical"))
  else if escapes decoded || (components decoded).any invalidComponent then
    .error (.escape encoded)
  else if gitRefusesPath (components decoded) kind then .error (.gitPath encoded)
  else .ok (components decoded)

/-! ## Spellings -/

/-- The bytes `encode_path` writes for one byte. -/
def escapeByte (b : UInt8) : List UInt8 :=
  if plainByte b then [b]
  else [percent, if b / 16 < 10 then 48 + b / 16 else 55 + b / 16,
    if b % 16 < 10 then 48 + b % 16 else 55 + b % 16]

/-- The bytes of the one spelling of a raw path. -/
def spelling (decoded : List UInt8) : List UInt8 :=
  if isLiteral decoded then decoded else decoded.flatMap escapeByte

theorem decodeBytes_of_no_percent {bytes : List UInt8} (h : percent ∉ bytes) :
    decodeBytes bytes = bytes := by
  induction bytes using decodeBytes.induct with
  | case1 high low tail => exact absurd List.mem_cons_self h
  | case2 high low tail => exact absurd List.mem_cons_self h
  | case3 b high low tail hb ih =>
    rw [decodeBytes, if_neg hb, ih fun hmem => h (List.mem_cons_of_mem _ hmem)]
  | case4 rest hshort =>
    unfold decodeBytes
    split
    · exact absurd rfl (hshort _ _ _ _)
    · rfl

set_option maxRecDepth 10000 in
-- one case per byte: deeper than the default
theorem upperHex_isSome : ∀ b : UInt8, upperHex b = true → (hexValue b).isSome = true := by
  decide

set_option maxRecDepth 10000 in
/-- An escape with upper-case digits is what its byte is written as. -/
theorem escapeByte_hex : ∀ high : UInt8, upperHex high = true → ∀ low : UInt8,
    upperHex low = true →
    plainByte ((hexValue high).getD 0 <<< 4 ||| (hexValue low).getD 0) = false →
    escapeByte ((hexValue high).getD 0 <<< 4 ||| (hexValue low).getD 0) = [percent, high, low] := by
  decide

/-- The escapes of a canonical path are read back as they are written. -/
theorem flatMap_escapeByte_decodeBytes {bytes : List UInt8} (h : canonicalEscapes bytes = true) :
    (decodeBytes bytes).flatMap escapeByte = bytes := by
  induction bytes using decodeBytes.induct with
  | case1 high low tail x y hx hy ih =>
    rw [canonicalEscapes, if_neg (by simp)] at h
    simp only [Bool.and_eq_true, Bool.not_eq_true'] at h
    obtain ⟨⟨⟨hhigh, hlow⟩, hplain⟩, htail⟩ := h
    have hescape := escapeByte_hex high hhigh low hlow hplain
    rw [decodeBytes, if_pos rfl]
    simp only [hx, hy, Option.getD_some] at hescape ⊢
    rw [List.flatMap_cons, hescape, ih htail]
    rfl
  | case2 high low tail hno ih =>
    rw [canonicalEscapes, if_neg (by simp)] at h
    simp only [Bool.and_eq_true] at h
    obtain ⟨x, hx⟩ := Option.isSome_iff_exists.mp (upperHex_isSome high h.1.1.1)
    obtain ⟨y, hy⟩ := Option.isSome_iff_exists.mp (upperHex_isSome low h.1.1.2)
    exact absurd hy (hno x y hx)
  | case3 b high low tail hb ih =>
    rw [canonicalEscapes, if_pos hb] at h
    simp only [Bool.and_eq_true] at h
    rw [decodeBytes, if_neg hb, List.flatMap_cons, ih h.2, escapeByte, if_pos h.1]
    rfl
  | case4 rest hshort =>
    have hsame : decodeBytes rest = rest := by
      unfold decodeBytes
      split
      · exact absurd rfl (hshort _ _ _ _)
      · rfl
    rw [hsame]
    rcases rest with _ | ⟨b, _ | ⟨c, _ | ⟨d, rest⟩⟩⟩
    · rfl
    · simp only [canonicalEscapes] at h
      split_ifs at h with hb
      have hplain : plainByte b = true := by simpa using h
      simp [escapeByte, hplain]
    · simp only [canonicalEscapes] at h
      split_ifs at h with hb hc
      · have hplain : plainByte b = true ∧ plainByte c = true := by simpa using h
        simp [escapeByte, hplain]
      · simp at h
    · exact absurd rfl (hshort b c d rest)

/-- **The one spelling.** A canonical path is the spelling of the raw path it names. -/
theorem pathBytes_canonical {path : String}
    (h : isCanonicalPathEncoding path (decodePath path) = true) :
    pathBytes path = spelling (decodePath path) := by
  unfold isCanonicalPathEncoding at h
  split_ifs at h with hplain hliteral
  · have hno : percent ∉ pathBytes path := by simpa using hplain
    have hsame : decodePath path = pathBytes path := decodeBytes_of_no_percent hno
    have hliteral : isLiteral (decodePath path) = true := by
      rw [isLiteral, h, hsame]
      simpa using hno
    rw [spelling, if_pos hliteral, hsame]
  · rw [spelling, if_neg hliteral]
    exact (flatMap_escapeByte_decodeBytes h).symm

/-! ## The spelling that is written -/

theorem pathBytes_ofList (cs : List Char) :
    pathBytes (String.ofList cs) = cs.utf8Encode.data.toList := by
  rw [pathBytes, String.toUTF8_eq_toByteArray, String.toByteArray_ofList]

theorem utf8Encode_bytes (cs : List Char) :
    cs.utf8Encode.data.toList = cs.flatMap String.utf8EncodeChar := by
  rw [List.utf8Encode, List.data_toByteArray]

/-- A byte below 128 is written for the character of its own value only. -/
theorem mem_utf8EncodeChar {b : UInt8} (hb : b < 128) (c : Char) :
    b ∈ String.utf8EncodeChar c ↔ c.toNat = b.toNat := by
  rw [UInt8.lt_iff_toNat_lt] at hb
  constructor
  · intro h
    unfold String.utf8EncodeChar at h
    simp only at h
    split_ifs at h
    all_goals
      simp only [List.mem_cons, List.not_mem_nil, or_false, ← UInt8.toNat_inj,
        UInt8.toNat_ofNat', UInt8.toNat_ofNat] at h hb
      rw [Char.toNat]
      omega
  · intro h
    have hval : c.val.toNat = b.toNat := h
    have hlow : c.val.toNat ≤ 0x7f := hval ▸ Nat.lt_succ_iff.mp hb
    rw [String.utf8EncodeChar, if_pos hlow, hval, UInt8.ofNat_toNat]
    exact List.mem_singleton_self b

theorem pathBytes_eq_flatMap (path : String) :
    pathBytes path = path.toList.flatMap String.utf8EncodeChar := by
  rw [← utf8Encode_bytes, String.utf8Encode_toList]
  rfl

/-- A text has a percent sign where its bytes have. -/
theorem percent_mem_pathBytes {path : String} : percent ∈ pathBytes path ↔ '%' ∈ path.toList := by
  have hchar : ∀ c : Char, percent ∈ String.utf8EncodeChar c ↔ c = '%' := fun c =>
    (mem_utf8EncodeChar (by decide) c).trans (Char.toNat_inj (d := '%'))
  rw [pathBytes_eq_flatMap, List.mem_flatMap]
  constructor
  · rintro ⟨c, hc, h⟩
    exact (hchar c).mp h ▸ hc
  · intro h
    exact ⟨'%', h, (hchar '%').mpr rfl⟩

theorem pathBytes_of_readUtf8 {bytes : List UInt8} {path : String}
    (h : readUtf8 bytes = some path) : pathBytes path = bytes := by
  unfold readUtf8 String.fromUTF8? at h
  split_ifs at h
  cases h
  rfl

set_option maxRecDepth 8000 in
theorem utf8Encode_encodeByte : ∀ b : UInt8,
    (encodeByte b).flatMap String.utf8EncodeChar = escapeByte b := by
  decide

/-- What `encode_path` writes is the spelling of the raw path. -/
theorem pathBytes_encodeRawPath (bytes : List UInt8) :
    pathBytes (encodeRawPath bytes) = spelling bytes := by
  have hescape : pathBytes (String.ofList (bytes.flatMap encodeByte)) =
      bytes.flatMap escapeByte := by
    rw [pathBytes_ofList, utf8Encode_bytes, List.flatMap_assoc]
    exact List.flatMap_congr fun b _ => utf8Encode_encodeByte b
  unfold encodeRawPath spelling isLiteral validLiteral
  cases hread : readUtf8 bytes with
  | none => exact hescape
  | some path =>
    have hsame := pathBytes_of_readUtf8 hread
    have hpercent : path.toList.contains '%' = bytes.contains percent := by
      rw [Bool.eq_iff_iff, List.contains_iff_mem, List.contains_iff_mem, ← hsame]
      exact percent_mem_pathBytes.symm
    simp only [hpercent]
    rw [Bool.and_comm]
    split_ifs
    · exact hsame
    · exact hescape

/-- **Written back.** A canonical path is what its raw path is encoded as. -/
theorem encodeRawPath_decodePath {path : String}
    (h : isCanonicalPathEncoding path (decodePath path) = true) :
    encodeRawPath (decodePath path) = path := by
  apply pathBytes_inj
  rw [pathBytes_encodeRawPath, pathBytes_canonical h]

/-! ## Valid manifests -/

theorem checkCanonical_eq_ok {entry : Entry} :
    checkCanonical entry = .ok () ↔
      isCanonicalPathEncoding entry.path (decodePath entry.path) = true := by
  have hsame : (pathBytes entry.path).contains percent = false →
      decodePath entry.path = pathBytes entry.path := by
    intro hno
    exact decodeBytes_of_no_percent (by simpa using hno)
  unfold checkCanonical
  cases hpercent : (pathBytes entry.path).contains percent with
  | true => simp
  | false =>
    rw [hsame hpercent]
    simp

/-- Strictly increasing spellings. -/
def EntriesOrdered (entries : List Entry) : Prop :=
  entries.Pairwise fun a b => pathBytes a.path < pathBytes b.path

theorem bytes_lt_of_not_lt {a b c : List UInt8} (h : ¬ b < a) (hlt : b < c) : a < c :=
  Std.lt_of_le_of_lt (List.not_lt.mp h) hlt

theorem checkOrder_eq_ok {entries : List Entry} :
    checkOrder entries = .ok () ↔ EntriesOrdered entries := by
  induction entries using checkOrder.induct with
  | case1 a b rest heq =>
    rw [checkOrder, if_pos heq]
    refine ⟨nofun, fun h => ?_⟩
    have hlt := List.rel_of_pairwise_cons h List.mem_cons_self
    rw [heq] at hlt
    exact absurd hlt (List.lt_irrefl _)
  | case2 a b rest hne hgt =>
    rw [checkOrder, if_neg hne, if_pos hgt]
    refine ⟨nofun, fun h => ?_⟩
    exact absurd (List.rel_of_pairwise_cons h List.mem_cons_self) (List.lt_asymm hgt)
  | case3 a b rest hne hgt ih =>
    rw [checkOrder, if_neg hne, if_neg hgt, ih]
    have hlt : pathBytes a.path < pathBytes b.path := Std.lt_of_le_of_ne (List.not_lt.mp hgt) hne
    refine ⟨fun h => List.pairwise_cons.mpr ⟨?_, h⟩, fun h => (List.pairwise_cons.mp h).2⟩
    intro x hx
    rcases List.mem_cons.mp hx with rfl | hx
    · exact hlt
    · exact List.lt_trans hlt (List.rel_of_pairwise_cons h hx)
  | case4 entries hshort =>
    rcases entries with _ | ⟨a, _ | ⟨b, rest⟩⟩
    · exact ⟨fun _ => .nil, fun _ => rfl⟩
    · exact ⟨fun _ => List.pairwise_singleton _ _, fun _ => rfl⟩
    · exact absurd rfl (hshort a b rest)

/-- **Valid manifests.** Every path is canonical and the spellings increase. -/
theorem Manifest.validate_eq_ok {M : Manifest} :
    M.validate = .ok () ↔
      (∀ entry ∈ M.entries, isCanonicalPathEncoding entry.path (decodePath entry.path) = true) ∧
        EntriesOrdered M.entries := by
  rw [Manifest.validate, ← checkOrder_eq_ok]
  constructor
  · intro h
    obtain ⟨⟨⟩, hcanonical, horder⟩ := bind_eq_ok.mp h
    exact ⟨fun entry hmem => checkCanonical_eq_ok.mp (forM_eq_ok.mp hcanonical entry hmem), horder⟩
  · rintro ⟨hcanonical, horder⟩
    refine bind_eq_ok.mpr ⟨(), forM_eq_ok.mpr fun entry hmem => ?_, horder⟩
    exact checkCanonical_eq_ok.mpr (hcanonical entry hmem)

theorem EntriesOrdered.nodup_paths {entries : List Entry} (h : EntriesOrdered entries) :
    (entries.map Entry.path).Nodup := by
  rw [List.Nodup, List.pairwise_map]
  refine h.imp ?_
  intro x y hlt heq
  rw [heq] at hlt
  exact List.lt_irrefl _ hlt

/-- Ordered entries are determined up to order. -/
theorem EntriesOrdered.eq_of_perm {entries entries' : List Entry} (h : EntriesOrdered entries)
    (h' : EntriesOrdered entries') (hperm : entries.Perm entries') : entries = entries' :=
  hperm.eq_of_pairwise (fun _ _ _ _ hlt hlt' => absurd hlt' (List.lt_asymm hlt)) h h'

/-- Entries with canonical paths, each once, make a manifest. -/
theorem Manifest.exists_new {entries : List Entry}
    (hcanonical : ∀ e ∈ entries, isCanonicalPathEncoding e.path (decodePath e.path) = true)
    (hnodup : (entries.map Entry.path).Nodup) :
    ∃ M, Manifest.new entries = .ok M ∧ M.validate = .ok () ∧ M.entries.Perm entries := by
  let sorted := entries.mergeSort fun a b => pathBytes a.path ≤ pathBytes b.path
  have hperm : sorted.Perm entries := List.mergeSort_perm _ _
  have hle : sorted.Pairwise fun a b => decide (pathBytes a.path ≤ pathBytes b.path) = true :=
    List.pairwise_mergeSort (by simpa using fun a b c => List.le_trans)
      (by simpa using fun a b => List.le_total _ _) entries
  have hne : sorted.Pairwise fun a b => a.path ≠ b.path :=
    List.pairwise_map.mp ((hperm.map Entry.path).nodup_iff.mpr hnodup)
  have hordered : EntriesOrdered sorted := by
    refine (hle.and hne).imp ?_
    rintro a b ⟨hab, hdiffer⟩
    exact Std.lt_of_le_of_ne (of_decide_eq_true hab) fun heq => hdiffer (pathBytes_inj heq)
  have hvalid : Manifest.validate ⟨sorted⟩ = .ok () :=
    Manifest.validate_eq_ok.mpr ⟨fun e he => hcanonical e (hperm.mem_iff.mp he), hordered⟩
  refine ⟨⟨sorted⟩, ?_, hvalid, hperm⟩
  simp only [Manifest.new]
  exact bind_eq_ok.mpr ⟨(), hvalid, rfl⟩

end Afactory
