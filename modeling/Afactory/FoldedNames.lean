import Mathlib
import Afactory.SourceManifest
import Afactory.Splitting

/-!
# Names a volume folds

`refuse_collisions_under` of `review-source-git/src/materialize.rs`: whether two of the names a
manifest makes the volume resolve to one. The volume folds each component of a name; the source
folds the name as a whole.

* `Folding.fold`, `refuseCollisionsUnder`: the check of the source;
* `Collide`: two names whose components fold alike;
* `Twins`: two names of one directory that fold alike, which is what a collision begins with;
* `Blind`: the twins whose difference the check does not see;
* `refuse_iff`: some twins are seen.
-/

namespace Afactory

open Splitting

/-- Lower-casing and canonical decomposition, character by character: as they are on ASCII, and
never making a separator. -/
structure TextTables where
  lower : Char → List Char
  nfd : Char → List Char
  lower_ascii : ∀ c, c.toNat < 128 → lower c = [c.toLower]
  nfd_ascii : ∀ c, c.toNat < 128 → nfd c = [c]
  lower_slash : ∀ c, c ≠ '/' → '/' ∉ lower c
  nfd_slash : ∀ c, c ≠ '/' → '/' ∉ nfd c

/-- What a volume tells no apart. -/
structure Folding where
  case : Bool
  normalization : Bool
  deriving DecidableEq, Repr

/-- `MaterializeError::Collision`. -/
structure Collision where
  first : String
  second : String
  deriving DecidableEq, Repr

section Source

variable (tables : TextTables) (folding : Folding)

/-- The one spelling the volume gives every name `path` may be written as. -/
def Folding.fold (path : List UInt8) : List UInt8 :=
  match readUtf8 path with
  | none => if folding.case then path.map asciiLower else path
  | some text =>
    let folded :=
      if folding.normalization then text.toList.flatMap tables.nfd else text.toList
    if folding.case then
      let lowered := folded.flatMap tables.lower
      pathBytes (String.ofList
        (if folding.normalization then lowered.flatMap tables.nfd else lowered))
    else pathBytes (String.ofList folded)

/-- Where the names `bytes` is made of end: before each separator, and at the end. -/
def nameEnds (bytes : List UInt8) : List ℕ :=
  (bytes.zipIdx.filterMap fun (byte, index) => if byte = slash then some index else none) ++
    [bytes.length]

/-- The directories of a path, and the path. -/
def prefixes (bytes : List UInt8) : List (List UInt8) := (nameEnds bytes).map bytes.take

/-- The loop of `refuse_collisions_under`: `spelled` is the first name of each spelling. -/
def refuseNames (spelled : List (List UInt8 × List UInt8)) :
    List (List UInt8) → Except Collision Unit
  | [] => .ok ()
  | name :: names =>
    match spelled.lookup (folding.fold tables name) with
    | some first =>
      if first ≠ name then
        .error { first := encodeRawPath first, second := encodeRawPath name }
      else refuseNames spelled names
    | none => refuseNames ((folding.fold tables name, name) :: spelled) names

/-- `refuse_collisions_under`. -/
def refuseCollisionsUnder (decodedPaths : List (List UInt8)) : Except Collision Unit :=
  if folding = { case := false, normalization := false } then .ok ()
  else refuseNames tables folding [] (decodedPaths.flatMap prefixes)

end Source

/-! ## The names -/

theorem mem_nameEnds {bytes : List UInt8} {stop : ℕ} :
    stop ∈ nameEnds bytes ↔ bytes[stop]? = some slash ∨ stop = bytes.length := by
  rw [nameEnds, List.mem_append, List.mem_singleton, List.mem_filterMap]
  refine or_congr ⟨?_, fun h => ⟨(slash, stop), ?_, by simp⟩⟩ Iff.rfl
  · rintro ⟨⟨byte, index⟩, hmem, hsome⟩
    simp only [Option.ite_none_right_eq_some, Option.some.injEq] at hsome
    obtain ⟨rfl, rfl⟩ := hsome
    exact List.mk_mem_zipIdx_iff_getElem?.mp hmem
  · exact List.mk_mem_zipIdx_iff_getElem?.mpr h

/-- The names a path is made of: cut before a separator, or whole. -/
theorem mem_prefixes {bytes name : List UInt8} :
    name ∈ prefixes bytes ↔ bytes = name ∨ ∃ rest, bytes = name ++ slash :: rest := by
  rw [prefixes, List.mem_map]
  constructor
  · rintro ⟨stop, hstop, rfl⟩
    rcases mem_nameEnds.mp hstop with h | rfl
    · obtain ⟨hlt, hget⟩ := List.getElem?_eq_some_iff.mp h
      refine .inr ⟨bytes.drop (stop + 1), ?_⟩
      rw [← hget, List.getElem_cons_drop, List.take_append_drop]
    · exact .inl (List.take_length).symm
  · rintro (rfl | ⟨rest, rfl⟩)
    · exact ⟨bytes.length, mem_nameEnds.mpr (.inr rfl), List.take_length⟩
    · exact ⟨name.length, mem_nameEnds.mpr (.inl (by simp)), by simp⟩

/-! ## Text -/

/-- The bytes of characters. -/
def textBytes (cs : List Char) : List UInt8 := cs.flatMap String.utf8EncodeChar

/-- UTF-8 text. -/
def Readable (bytes : List UInt8) : Prop := ∃ cs, bytes = textBytes cs

theorem textBytes_append (a b : List Char) : textBytes (a ++ b) = textBytes a ++ textBytes b :=
  List.flatMap_append

theorem pathBytes_ofList_eq (cs : List Char) : pathBytes (String.ofList cs) = textBytes cs := by
  rw [pathBytes_ofList, utf8Encode_bytes, textBytes]

theorem readUtf8_pathBytes (path : String) : readUtf8 (pathBytes path) = some path := by
  have hvalid : (ByteArray.mk (pathBytes path).toArray).IsValidUTF8 := path.isValidUTF8
  rw [readUtf8, String.fromUTF8?, dif_pos hvalid]
  rfl

theorem readUtf8_textBytes (cs : List Char) : readUtf8 (textBytes cs) = some (String.ofList cs) := by
  rw [← pathBytes_ofList_eq, readUtf8_pathBytes]

theorem readUtf8_eq_none {bytes : List UInt8} (h : ¬ Readable bytes) : readUtf8 bytes = none := by
  cases hread : readUtf8 bytes with
  | none => rfl
  | some path =>
    refine absurd ⟨path.toList, ?_⟩ h
    rw [← pathBytes_of_readUtf8 hread, pathBytes_eq_flatMap, textBytes]

theorem slash_encode : String.utf8EncodeChar '/' = [slash] := by decide

theorem slash_notMem_encode (c : Char) (h : c ≠ '/') : slash ∉ String.utf8EncodeChar c := fun hmem =>
  h (Char.toNat_inj.mp ((mem_utf8EncodeChar (by decide) c).mp hmem))

theorem splitOn_textBytes (cs : List Char) :
    (textBytes cs).splitOn slash = (cs.splitOn '/').map textBytes :=
  splitOn_flatMap slash_encode slash_notMem_encode cs

/-- Text ends before a separator, and starts anew behind it. -/
theorem readable_cut {p q : List UInt8} :
    Readable (p ++ slash :: q) ↔ Readable p ∧ Readable q := by
  constructor
  · rintro ⟨cs, h⟩
    obtain ⟨l₁, l₂, -, hp, hq⟩ := exists_cut slash_encode slash_notMem_encode h.symm
    exact ⟨⟨l₁, hp⟩, ⟨l₂, hq⟩⟩
  · rintro ⟨⟨cs, rfl⟩, ⟨cs', rfl⟩⟩
    refine ⟨cs ++ '/' :: cs', ?_⟩
    simp only [textBytes, List.flatMap_append, List.flatMap_cons, slash_encode,
      List.singleton_append]

/-! ## ASCII case -/

theorem asciiLower_high (b : UInt8) : (128 ≤ asciiLower b → asciiLower b = b) ∧
    (128 ≤ b → asciiLower b = b) := by
  simp only [UInt8.le_iff_toNat_le, ← UInt8.toNat_inj, asciiLower_toNat, UInt8.reduceToNat]
  split_ifs <;> omega

theorem asciiLower_slash (b : UInt8) : asciiLower b = slash ↔ b = slash := by
  simp only [← UInt8.toNat_inj, asciiLower_toNat, slash, UInt8.reduceToNat]
  split_ifs <;> omega

set_option maxRecDepth 10000 in
-- one case per byte: deeper than the default
theorem asciiLower_char : ∀ b : UInt8, b < 128 → asciiLower b < 128 ∧
    String.utf8EncodeChar (Char.ofNat b.toNat) = [b] ∧
    (Char.ofNat b.toNat).toLower = Char.ofNat (asciiLower b).toNat := by decide

theorem map_fixed {l : List UInt8} {f : UInt8 → UInt8} (h : ∀ b ∈ l, f b = b) : l.map f = l :=
  (List.map_congr_left h).trans (List.map_id l)

theorem toLower_high {c : Char} (h : 128 ≤ c.toNat) : c.toLower = c := by
  unfold Char.toLower
  rw [dif_neg]
  rintro ⟨-, hle⟩
  have hval : c.toNat ≤ 90 := hle
  omega

/-- A character is one byte below 128, or bytes from there on. -/
theorem encode_cases (c : Char) :
    (∃ b : UInt8, b < 128 ∧ c = Char.ofNat b.toNat) ∨
      128 ≤ c.toNat ∧ ∀ b ∈ String.utf8EncodeChar c, 128 ≤ b := by
  by_cases hc : c.toNat < 128
  · refine .inl ⟨UInt8.ofNat c.toNat, ?_, ?_⟩
    · rw [UInt8.lt_iff_toNat_lt, UInt8.toNat_ofNat']
      exact lt_of_le_of_lt (Nat.mod_le _ _) hc
    · rw [UInt8.toNat_ofNat', Nat.mod_eq_of_lt (by omega), Char.ofNat_toNat]
  · refine .inr ⟨by omega, fun b hb => ?_⟩
    by_contra hlow
    rw [UInt8.not_le] at hlow
    rw [mem_utf8EncodeChar hlow] at hb
    exact hc (hb ▸ UInt8.lt_iff_toNat_lt.mp hlow)

/-- What is text in one case is text in the other, of the same characters up to case. -/
theorem lower_textBytes {bytes : List UInt8} {cs : List Char}
    (h : bytes.map asciiLower = (textBytes cs).map asciiLower) :
    ∃ cs', bytes = textBytes cs' ∧ cs'.map Char.toLower = cs.map Char.toLower := by
  induction cs generalizing bytes with
  | nil => exact ⟨[], List.map_eq_nil_iff.mp h, rfl⟩
  | cons c cs ih =>
    rw [textBytes, List.flatMap_cons, List.map_append] at h
    obtain ⟨first, rest, rfl, hfirst, hrest⟩ := List.map_eq_append_iff.mp h
    obtain ⟨cs', rfl, hcs⟩ := ih hrest
    rcases encode_cases c with ⟨b, hb, rfl⟩ | ⟨hc, hhigh⟩
    · obtain ⟨hlow, hbyte, hlower⟩ := asciiLower_char b hb
      rw [hbyte] at hfirst
      obtain ⟨b', rfl, hb'⟩ := List.map_eq_singleton_iff.mp hfirst
      have hlow' : b' < 128 := by
        by_contra hhigh
        rw [UInt8.not_lt] at hhigh
        rw [(asciiLower_high b').2 hhigh] at hb'
        rw [← hb', ← UInt8.not_le] at hlow
        exact hlow hhigh
      obtain ⟨-, hbyte', hlower'⟩ := asciiLower_char b' hlow'
      refine ⟨Char.ofNat b'.toNat :: cs', ?_, ?_⟩
      · rw [textBytes, textBytes, List.flatMap_cons, hbyte']
      · rw [List.map_cons, List.map_cons, hcs, hlower, hlower', hb']
    · have hsame : first = String.utf8EncodeChar c := by
        have hfixed : (String.utf8EncodeChar c).map asciiLower = String.utf8EncodeChar c :=
          map_fixed fun b hb => (asciiLower_high b).2 (hhigh b hb)
        rw [hfixed] at hfirst
        have hhigh' : ∀ b ∈ first, asciiLower b = b := fun b hb =>
          (asciiLower_high b).1 (hhigh _ (hfirst ▸ List.mem_map_of_mem hb))
        rw [← hfirst, map_fixed hhigh']
      refine ⟨c :: cs', ?_, by rw [List.map_cons, List.map_cons, hcs]⟩
      rw [hsame]
      rfl

theorem readable_of_lower {p q : List UInt8} (h : p.map asciiLower = q.map asciiLower)
    (hq : Readable q) : Readable p := by
  obtain ⟨cs, rfl⟩ := hq
  obtain ⟨cs', hp, -⟩ := lower_textBytes h
  exact ⟨cs', hp⟩

/-! ## What a name folds to -/

section Fold

variable {tables : TextTables} {folding : Folding}

/-- The characters one character folds to. -/
def foldChar (tables : TextTables) (folding : Folding) (c : Char) : List Char :=
  let decomposed := if folding.normalization then tables.nfd c else [c]
  if folding.case then
    let lowered := decomposed.flatMap tables.lower
    if folding.normalization then lowered.flatMap tables.nfd else lowered
  else decomposed

/-- **Text folds character by character.** -/
theorem fold_textBytes (cs : List Char) :
    folding.fold tables (textBytes cs) = textBytes (cs.flatMap (foldChar tables folding)) := by
  rw [Folding.fold, readUtf8_textBytes]
  simp only [pathBytes_ofList_eq, String.toList_ofList]
  obtain ⟨case, normalization⟩ := folding
  delta foldChar
  cases case <;> cases normalization <;> simp [List.flatMap_assoc]

theorem fold_of_not_readable {path : List UInt8} (h : ¬ Readable path) :
    folding.fold tables path = if folding.case then path.map asciiLower else path := by
  rw [Folding.fold, readUtf8_eq_none h]

variable (tables folding) in
theorem readable_fold {path : List UInt8} : Readable (folding.fold tables path) ↔ Readable path := by
  refine ⟨fun h => ?_, fun ⟨cs, hcs⟩ => ⟨_, hcs ▸ fold_textBytes cs⟩⟩
  by_contra hno
  rw [fold_of_not_readable hno] at h
  split_ifs at h
  · refine hno (readable_of_lower ?_ h)
    rw [List.map_map]
    exact List.map_congr_left fun b _ => (asciiLower_idem b).symm
  · exact hno h

/-- Folding without folding. -/
theorem fold_default (path : List UInt8) :
    Folding.fold tables { case := false, normalization := false } path = path := by
  by_cases h : Readable path
  · obtain ⟨cs, rfl⟩ := h
    rw [fold_textBytes]
    delta foldChar
    simp
  · rw [fold_of_not_readable h]
    rfl

theorem toLower_ascii {c : Char} (h : c.toNat < 128) : c.toLower.toNat < 128 := by
  rcases encode_cases c with ⟨b, hb, rfl⟩ | ⟨hc, -⟩
  · obtain ⟨hlow, -, hlower⟩ := asciiLower_char b hb
    have hnat : (asciiLower b).toNat < 128 := UInt8.lt_iff_toNat_lt.mp hlow
    rw [hlower, Char.toNat_ofNat]
    split_ifs <;> omega
  · omega

theorem foldChar_ascii {c : Char} (h : c.toNat < 128) :
    foldChar tables folding c = if folding.case then [c.toLower] else [c] := by
  obtain ⟨case, normalization⟩ := folding
  cases case <;> cases normalization <;>
    simp [foldChar, tables.nfd_ascii c h, tables.lower_ascii c h,
      tables.nfd_ascii _ (toLower_ascii h)]

theorem foldChar_slash : foldChar tables folding '/' = ['/'] := by
  rw [foldChar_ascii (by decide)]
  split_ifs <;> rfl

theorem slash_notMem_foldChar (c : Char) (h : c ≠ '/') : '/' ∉ foldChar tables folding c := by
  have hlower : ∀ l : List Char, '/' ∉ l → '/' ∉ l.flatMap tables.lower := fun l hl hmem => by
    obtain ⟨d, hd, hmem⟩ := List.mem_flatMap.mp hmem
    exact tables.lower_slash d (fun h => hl (h ▸ hd)) hmem
  have hnfd : ∀ l : List Char, '/' ∉ l → '/' ∉ l.flatMap tables.nfd := fun l hl hmem => by
    obtain ⟨d, hd, hmem⟩ := List.mem_flatMap.mp hmem
    exact tables.nfd_slash d (fun h => hl (h ▸ hd)) hmem
  have hself : '/' ∉ [c] := by simpa using Ne.symm h
  unfold foldChar
  split_ifs with hn hc hc'
  · exact hnfd _ (hlower _ (tables.nfd_slash c h))
  · exact tables.nfd_slash c h
  · exact hlower _ hself
  · exact hself

/-- A volume that folds case tells no case apart. -/
theorem foldChar_toLower (hcase : folding.case = true) {c d : Char} (h : c.toLower = d.toLower) :
    foldChar tables folding c = foldChar tables folding d := by
  by_cases hc : c.toNat < 128
  · have hd : d.toNat < 128 := by
      by_contra hd
      have hlow := toLower_ascii hc
      rw [h, toLower_high (by omega)] at hlow
      exact hd hlow
    rw [foldChar_ascii hc, foldChar_ascii hd, if_pos hcase, if_pos hcase, h]
  · have hd : ¬ d.toNat < 128 := fun hd => by
      have hlow := toLower_ascii hd
      rw [← h, toLower_high (by omega)] at hlow
      exact hc hlow
    rw [toLower_high (by omega), toLower_high (by omega)] at h
    rw [h]

theorem fold_of_lower (hcase : folding.case = true) {p q : List UInt8}
    (h : p.map asciiLower = q.map asciiLower) : folding.fold tables p = folding.fold tables q := by
  by_cases hq : Readable q
  · obtain ⟨cs, rfl⟩ := hq
    obtain ⟨cs', rfl, hcs⟩ := lower_textBytes h
    have hsame : ∀ cs cs' : List Char, cs'.map Char.toLower = cs.map Char.toLower →
        cs'.flatMap (foldChar tables folding) = cs.flatMap (foldChar tables folding) := by
      intro cs
      induction cs with
      | nil =>
        intro cs' hnil
        rw [List.map_eq_nil_iff.mp hnil]
      | cons c cs ih =>
        intro cs' hcs
        obtain ⟨d, rest, rfl, hd, hrest⟩ := List.map_eq_cons_iff.mp hcs
        rw [List.flatMap_cons, List.flatMap_cons, ih rest hrest, foldChar_toLower hcase hd]
    rw [fold_textBytes, fold_textBytes, hsame cs cs' hcs]
  · have hp : ¬ Readable p := fun hp => hq (readable_of_lower h.symm hp)
    rw [fold_of_not_readable hp, fold_of_not_readable hq, if_pos hcase, if_pos hcase, h]

/-! ## The loop -/

/-- What the loop has recorded: every name seen, under what it folds to. -/
def Recorded (tables : TextTables) (folding : Folding) (seen : List (List UInt8))
    (spelled : List (List UInt8 × List UInt8)) : Prop :=
  ∀ key first, spelled.lookup key = some first ↔ first ∈ seen ∧ folding.fold tables first = key

theorem Recorded.unique {seen : List (List UInt8)} {spelled : List (List UInt8 × List UInt8)}
    (h : Recorded tables folding seen spelled) {p q : List UInt8} (hp : p ∈ seen) (hq : q ∈ seen)
    (hfold : folding.fold tables p = folding.fold tables q) : p = q := by
  have hfirst := (h _ p).mpr ⟨hp, hfold⟩
  rw [(h _ q).mpr ⟨hq, rfl⟩] at hfirst
  exact (Option.some.inj hfirst).symm

/-- The loop passes the names no two of which fold alike, and names two of the others. -/
theorem refuseNames_spec {seen : List (List UInt8)} {spelled : List (List UInt8 × List UInt8)}
    (h : Recorded tables folding seen spelled) (names : List (List UInt8)) :
    match refuseNames tables folding spelled names with
    | .ok () => ∃ spelled', Recorded tables folding (names.reverse ++ seen) spelled'
    | .error error => ∃ first ∈ names.reverse ++ seen, ∃ second ∈ names.reverse ++ seen,
        first ≠ second ∧ folding.fold tables first = folding.fold tables second ∧
          error = { first := encodeRawPath first, second := encodeRawPath second } := by
  induction names generalizing seen spelled with
  | nil => exact ⟨spelled, h⟩
  | cons name names ih =>
    rw [refuseNames, List.reverse_cons, List.append_assoc, List.singleton_append]
    cases hlookup : spelled.lookup (folding.fold tables name) with
    | some first =>
      obtain ⟨hseen, hfold⟩ := (h _ first).mp hlookup
      by_cases hname : first = name
      · subst hname
        simp only [ne_eq, not_true_eq_false, if_false]
        refine ih fun key other => ?_
        rw [h, List.mem_cons]
        exact ⟨fun hk => ⟨.inr hk.1, hk.2⟩, fun hk =>
          ⟨hk.1.elim (fun heq => heq ▸ hseen) id, hk.2⟩⟩
      · simp only [ne_eq, hname, not_false_eq_true, if_true]
        exact ⟨first, by simp [hseen], name, by simp, hname, hfold, rfl⟩
    | none =>
      refine ih fun key other => ?_
      rw [List.lookup_cons, List.mem_cons]
      by_cases hkey : key = folding.fold tables name
      · subst hkey
        simp only [beq_self_eq_true, Option.some.injEq]
        refine ⟨fun heq => ⟨.inl heq.symm, by rw [heq]⟩, fun ⟨hmem, hfold⟩ => ?_⟩
        rcases hmem with rfl | hmem
        · rfl
        · rw [(h _ other).mpr ⟨hmem, hfold⟩] at hlookup
          cases hlookup
      · have hbeq : (key == folding.fold tables name) = false := beq_eq_false_iff_ne.mpr hkey
        simp only [hbeq, h key other]
        refine ⟨fun hk => ⟨.inr hk.1, hk.2⟩, fun ⟨hmem, hfold⟩ => ⟨?_, hfold⟩⟩
        rcases hmem with rfl | hmem
        · exact absurd hfold.symm hkey
        · exact hmem

/-- **What is refused**: two different names that fold alike as a whole. -/
theorem refused_iff {paths : List (List UInt8)} :
    (∃ error, refuseCollisionsUnder tables folding paths = .error error) ↔
      ∃ p ∈ paths.flatMap prefixes, ∃ q ∈ paths.flatMap prefixes, p ≠ q ∧
        folding.fold tables p = folding.fold tables q := by
  rw [refuseCollisionsUnder]
  split_ifs with hdefault
  · subst hdefault
    simp only [fold_default]
    refine ⟨fun ⟨_, h⟩ => ?_, fun ⟨p, _, q, _, hne, heq⟩ => absurd heq hne⟩
    cases h
  · have hempty : Recorded tables folding [] [] := fun key first => by simp
    have hspec := refuseNames_spec hempty (paths.flatMap prefixes)
    cases hrun : refuseNames tables folding [] (paths.flatMap prefixes) with
    | ok =>
      rw [hrun] at hspec
      obtain ⟨spelled', h⟩ := hspec
      refine ⟨fun ⟨_, hno⟩ => ?_, fun ⟨p, hp, q, hq, hne, heq⟩ => absurd ?_ hne⟩
      · cases hno
      · exact h.unique (by simpa using hp) (by simpa using hq) heq
    | error error =>
      rw [hrun] at hspec
      obtain ⟨p, hp, q, hq, hne, heq, -⟩ := hspec
      rw [List.append_nil, List.mem_reverse] at hp hq
      exact ⟨fun _ => ⟨p, hp, q, hq, hne, heq⟩, fun _ => ⟨error, rfl⟩⟩

end Fold

/-! ## Siblings -/

/-- What stands before the last component: nothing, or a directory and a separator. -/
def Stem (stem : List UInt8) : Prop := stem = [] ∨ ∃ dir, stem = dir ++ [slash]

theorem Stem.readable_append {stem : List UInt8} (h : Stem stem) (rest : List UInt8) :
    Readable (stem ++ rest) ↔ Readable stem ∧ Readable rest := by
  have hnil : Readable [] := ⟨[], rfl⟩
  rcases h with rfl | ⟨dir, rfl⟩
  · simp [hnil]
  · rw [List.append_assoc, List.singleton_append, readable_cut, readable_cut]
    simp [hnil]

theorem Stem.components_append {stem : List UInt8} (h : Stem stem) :
    ∃ before, ∀ name, slash ∉ name → components (stem ++ name) = before ++ [name] := by
  rcases h with rfl | ⟨dir, rfl⟩
  · exact ⟨[], fun name hname => List.splitOn_eq_singleton hname⟩
  · refine ⟨components dir, fun name hname => ?_⟩
    rw [components, List.append_assoc, List.singleton_append, List.splitOn_append_cons_self,
      List.splitOn_eq_singleton hname, components]

theorem stem_flatMap (dirs : List (List UInt8)) : Stem (dirs.flatMap (· ++ [slash])) := by
  rcases List.eq_nil_or_concat dirs with rfl | ⟨before, dir, rfl⟩
  · exact .inl rfl
  · exact .inr ⟨before.flatMap (· ++ [slash]) ++ dir, by simp⟩

/-- Where two names whose components look alike first differ, two names of one directory do. -/
theorem exists_siblings {γ : Type*} {f : List UInt8 → γ} {p q : List UInt8}
    (h : (components p).map f = (components q).map f) (hne : p ≠ q) :
    ∃ stem name name', Stem stem ∧ stem ++ name ∈ prefixes p ∧ stem ++ name' ∈ prefixes q ∧
      slash ∉ name ∧ slash ∉ name' ∧ name ≠ name' ∧ f name = f name' := by
  have hparts : components p ≠ components q := fun hsame => hne (by
    have hjoin := congrArg [slash].intercalate hsame
    rwa [components, components, List.intercalate_splitOn, List.intercalate_splitOn] at hjoin)
  obtain ⟨before, name, name', after, after', hp, hq, hname, hf⟩ := first_difference h hparts
  obtain ⟨hp, hslash⟩ := join_part hp
  obtain ⟨hq, hslash'⟩ := join_part hq
  have hprefix : ∀ {r whole : List UInt8} {after : List (List UInt8)},
      whole = r ++ after.flatMap (slash :: ·) → r ∈ prefixes whole := by
    intro r whole after hwhole
    refine mem_prefixes.mpr ?_
    cases after with
    | nil => exact .inl (by rw [hwhole, List.flatMap_nil, List.append_nil])
    | cons first rest => exact .inr ⟨first ++ rest.flatMap (slash :: ·), by simp [hwhole]⟩
  exact ⟨before.flatMap (· ++ [slash]), name, name', stem_flatMap before, hprefix hp, hprefix hq,
    hslash, hslash', hname, hf⟩

theorem prefixes_prefixes {paths : List (List UInt8)} {p name : List UInt8}
    (hp : p ∈ paths.flatMap prefixes) (h : name ∈ prefixes p) : name ∈ paths.flatMap prefixes := by
  obtain ⟨path, hpath, hp⟩ := List.mem_flatMap.mp hp
  refine List.mem_flatMap.mpr ⟨path, hpath, mem_prefixes.mpr ?_⟩
  rcases mem_prefixes.mp hp with rfl | ⟨rest, rfl⟩
  · exact mem_prefixes.mp h
  · rcases mem_prefixes.mp h with rfl | ⟨rest', rfl⟩
    · exact .inr ⟨rest, rfl⟩
    · exact .inr ⟨rest' ++ slash :: rest, by simp⟩

/-! ## Collisions -/

section Collisions

variable (tables : TextTables) (folding : Folding)

/-- Two different names of a manifest that a volume comparing names component by component
resolves to one. -/
def Collide (paths : List (List UInt8)) : Prop :=
  ∃ p ∈ paths.flatMap prefixes, ∃ q ∈ paths.flatMap prefixes, p ≠ q ∧
    (components p).map (folding.fold tables) = (components q).map (folding.fold tables)

/-- Two different names of one directory that fold alike. -/
structure Twins (paths : List (List UInt8)) (stem name name' : List UInt8) : Prop where
  ends : Stem stem
  left : stem ++ name ∈ paths.flatMap prefixes
  right : stem ++ name' ∈ paths.flatMap prefixes
  leftName : slash ∉ name
  rightName : slash ∉ name'
  ne : name ≠ name'
  fold : folding.fold tables name = folding.fold tables name'

/-- Text in a directory whose path is no text, told apart by more than ASCII case: the name as a
whole is folded as what it is not. -/
def Blind (stem name name' : List UInt8) : Prop :=
  ¬ Readable stem ∧ Readable name ∧
    ¬ (folding.case = true ∧ name.map asciiLower = name'.map asciiLower)

variable {tables folding} {paths : List (List UInt8)}

theorem exists_twins {p q : List UInt8} (hp : p ∈ paths.flatMap prefixes)
    (hq : q ∈ paths.flatMap prefixes) (hne : p ≠ q)
    (h : (components p).map (folding.fold tables) = (components q).map (folding.fold tables)) :
    ∃ stem name name', Twins tables folding paths stem name name' ∧ stem ++ name ∈ prefixes p := by
  obtain ⟨stem, name, name', hstem, hleft, hright, hname, hname', hne, hfold⟩ :=
    exists_siblings h hne
  exact ⟨stem, name, name', ⟨hstem, prefixes_prefixes hp hleft, prefixes_prefixes hq hright, hname,
    hname', hne, hfold⟩, hleft⟩

/-- **A collision begins with two names of one directory.** -/
theorem collide_iff :
    Collide tables folding paths ↔
      ∃ stem name name', Twins tables folding paths stem name name' := by
  constructor
  · rintro ⟨p, hp, q, hq, hne, h⟩
    obtain ⟨stem, name, name', htwins, -⟩ := exists_twins hp hq hne h
    exact ⟨stem, name, name', htwins⟩
  · rintro ⟨stem, name, name', h⟩
    obtain ⟨before, hbefore⟩ := h.ends.components_append
    refine ⟨_, h.left, _, h.right, fun heq => h.ne (List.append_cancel_left heq), ?_⟩
    rw [hbefore _ h.leftName, hbefore _ h.rightName, List.map_append, List.map_append,
      List.map_singleton, List.map_singleton, h.fold]

/-- **What the check sees of twins**: that they fold alike as a whole, unless it is blind to it. -/
theorem Twins.fold_iff {stem name name' : List UInt8}
    (h : Twins tables folding paths stem name name') :
    folding.fold tables (stem ++ name) = folding.fold tables (stem ++ name') ↔
      ¬ Blind folding stem name name' := by
  have hname : Readable name ↔ Readable name' := by
    rw [← readable_fold tables folding, h.fold, readable_fold]
  by_cases hwhole : Readable (stem ++ name)
  · obtain ⟨hstem, hleft⟩ := (h.ends.readable_append name).mp hwhole
    obtain ⟨cs, rfl⟩ := hstem
    obtain ⟨ds, rfl⟩ := hleft
    obtain ⟨ds', rfl⟩ := hname.mp ⟨ds, rfl⟩
    have hfold := h.fold
    rw [fold_textBytes, fold_textBytes] at hfold
    refine iff_of_true ?_ fun hblind => hblind.1 ⟨cs, rfl⟩
    rw [← textBytes_append, ← textBytes_append, fold_textBytes, fold_textBytes,
      List.flatMap_append, List.flatMap_append, textBytes_append, textBytes_append, hfold]
  · have hwhole' : ¬ Readable (stem ++ name') := by
      rwa [h.ends.readable_append, ← hname, ← h.ends.readable_append]
    rw [fold_of_not_readable hwhole, fold_of_not_readable hwhole', Blind]
    rw [h.ends.readable_append] at hwhole
    by_cases hleft : Readable name
    · have hstem : ¬ Readable stem := fun hstem => hwhole ⟨hstem, hleft⟩
      cases hcase : folding.case with
      | false => simpa [hstem, hleft] using h.ne
      | true => simp [hstem, hleft, List.map_append]
    · refine iff_of_true ?_ fun hblind => hleft hblind.2.1
      have hfold := h.fold
      rw [fold_of_not_readable hleft, fold_of_not_readable fun hright => hleft (hname.mpr hright)]
        at hfold
      cases hcase : folding.case with
      | false => simpa [hcase] using hfold
      | true => simpa [hcase, List.map_append] using hfold

/-- Names that fold alike as a whole begin with twins the check sees. -/
theorem exists_seen {p q : List UInt8} (hp : p ∈ paths.flatMap prefixes)
    (hq : q ∈ paths.flatMap prefixes) (hne : p ≠ q)
    (hfold : folding.fold tables p = folding.fold tables q) :
    ∃ stem name name', Twins tables folding paths stem name name' ∧
      ¬ Blind folding stem name name' := by
  have hboth : Readable p ↔ Readable q := by
    rw [← readable_fold tables folding, hfold, readable_fold]
  by_cases htext : Readable p
  · obtain ⟨cs, rfl⟩ := htext
    obtain ⟨ds, rfl⟩ := hboth.mp ⟨cs, rfl⟩
    have hparts : ∀ cs : List Char, (components (textBytes cs)).map (folding.fold tables) =
        components (folding.fold tables (textBytes cs)) := fun cs => by
      rw [fold_textBytes, components, components, splitOn_textBytes, splitOn_textBytes,
        splitOn_flatMap foldChar_slash slash_notMem_foldChar, List.map_map, List.map_map]
      exact List.map_congr_left fun part _ => fold_textBytes part
    obtain ⟨stem, name, name', htwins, hprefix⟩ :=
      exists_twins hp hq hne (by rw [hparts, hparts, hfold])
    refine ⟨stem, name, name', htwins, fun hblind => hblind.1 ?_⟩
    have hstem : ∃ rest, textBytes cs = stem ++ rest := by
      rcases mem_prefixes.mp hprefix with h | ⟨rest, h⟩
      · exact ⟨name, h⟩
      · exact ⟨name ++ slash :: rest, by rw [h, List.append_assoc]⟩
    obtain ⟨rest, hrest⟩ := hstem
    exact ((htwins.ends.readable_append rest).mp (hrest ▸ ⟨cs, rfl⟩)).1
  · rw [fold_of_not_readable htext, fold_of_not_readable fun h => htext (hboth.mpr h)] at hfold
    cases hcase : folding.case with
    | false => exact absurd (by simpa [hcase] using hfold) hne
    | true =>
      rw [hcase, if_pos rfl, if_pos rfl] at hfold
      have hparts : (components p).map (List.map asciiLower) =
          (components q).map (List.map asciiLower) := by
        rw [components, components, ← splitOn_map asciiLower_slash, hfold,
          splitOn_map asciiLower_slash]
      obtain ⟨stem, name, name', hstem, hleft, hright, hname, hname', hne, hlower⟩ :=
        exists_siblings hparts hne
      exact ⟨stem, name, name', ⟨hstem, prefixes_prefixes hp hleft, prefixes_prefixes hq hright,
        hname, hname', hne, fold_of_lower hcase hlower⟩, fun hblind => hblind.2.2 ⟨hcase, hlower⟩⟩

/-- **What is refused**, by directories: twins the check is not blind to. -/
theorem refuse_iff :
    (∃ error, refuseCollisionsUnder tables folding paths = .error error) ↔
      ∃ stem name name', Twins tables folding paths stem name name' ∧
        ¬ Blind folding stem name name' := by
  rw [refused_iff]
  constructor
  · rintro ⟨p, hp, q, hq, hne, hfold⟩
    exact exists_seen hp hq hne hfold
  · rintro ⟨stem, name, name', h, hseen⟩
    exact ⟨_, h.left, _, h.right, fun heq => h.ne (List.append_cancel_left heq),
      h.fold_iff.mpr hseen⟩

/-- **Colliding names are refused exactly** when some two of them, if there are any, are seen: the
check is blind to text that more than its ASCII case tells apart, below a directory whose path is
no text. -/
theorem refuses_collisions_iff :
    ((∃ error, refuseCollisionsUnder tables folding paths = .error error) ↔
        Collide tables folding paths) ↔
      ((∃ stem name name', Twins tables folding paths stem name name') →
        ∃ stem name name', Twins tables folding paths stem name name' ∧
          ¬ Blind folding stem name name') := by
  rw [refuse_iff, collide_iff]
  exact ⟨fun h => h.mpr, fun h => ⟨fun ⟨stem, name, name', htwins, _⟩ => ⟨stem, name, name', htwins⟩,
    h⟩⟩

end Collisions

/-! ## The collision that is missed -/

set_option maxRecDepth 10000 in
theorem toLower_ne_slash {c : Char} (h : c ≠ '/') : c.toLower ≠ '/' := by
  intro hlower
  rcases encode_cases c with ⟨b, hb, rfl⟩ | ⟨hhigh, -⟩
  · have honly : ∀ b : UInt8, b < 128 → (Char.ofNat b.toNat).toLower = '/' → b = slash := by
      decide
    exact h (by rw [honly b hb hlower]; rfl)
  · rw [toLower_high hhigh] at hlower
    exact h hlower

/-- The tables at one letter beyond ASCII: `É` (U+00C9) is `é` (U+00E9) in lower case, and each is a
letter and an accent (U+0301) decomposed. -/
def accentTables : TextTables where
  lower c := if c = '\u00c9' then ['\u00e9'] else [c.toLower]
  nfd c :=
    if c = '\u00c9' then ['E', '\u0301'] else if c = '\u00e9' then ['e', '\u0301'] else [c]
  lower_ascii c hc := if_neg fun h => by
    subst h
    exact absurd hc (by decide)
  nfd_ascii c hc := by
    rw [if_neg, if_neg]
    all_goals
      rintro rfl
      exact absurd hc (by decide)
  lower_slash c hc := by
    split_ifs
    · decide
    · simpa using (toLower_ne_slash hc).symm
  nfd_slash c hc := by
    split_ifs
    · decide
    · decide
    · simpa using Ne.symm hc

/-- `É` and `é` in the directory `\xff`, which is no text. -/
theorem refuses_collisions_blind :
    ¬ ∀ folding paths, (∃ error, refuseCollisionsUnder accentTables folding paths = .error error) ↔
      Collide accentTables folding paths := by
  intro h
  have hpass : refuseCollisionsUnder accentTables { case := true, normalization := false }
      [[0xFF, slash, 0xC3, 0x89], [0xFF, slash, 0xC3, 0xA9]] = .ok () := by decide
  obtain ⟨error, herror⟩ :=
    (h { case := true, normalization := false }
      [[0xFF, slash, 0xC3, 0x89], [0xFF, slash, 0xC3, 0xA9]]).mpr
      ⟨[0xFF, slash, 0xC3, 0x89], by decide, [0xFF, slash, 0xC3, 0xA9], by decide, by decide,
        by decide⟩
  rw [hpass] at herror
  cases herror

end Afactory
