import Mathlib
import Afactory.RepoPath
import Afactory.TextBounds
import Afactory.TextSearch

/-!
# The credential rules

`looks_like_credential` of `review-telemetry/src/redact.rs` and the rules under it, over the characters
of a line.

* `looksLikeCredential`: whether a line, or a value judged whole, passes for credential material;
* `looksLikeCredential_eq_none`: where the judgement panics instead;
* `secretName`, `nameIsCredential`: what a name says of its value, and of itself;
* `looksLikeCredential_withheld`: what stands in place of a withheld value does not pass for one.
-/

namespace Afactory

namespace Redaction

open TextBounds (byteLength)
open TextSearch

/-! ## Words of the rules -/

/-- `SECRET_NAME_PARTS` -/
def secretNameParts : List String :=
  ["key", "token", "secret", "password", "passwd", "passphrase", "credential", "auth"]

/-- `SECRET_NAME_SEGMENTS` -/
def secretNameSegments : List String := ["pw"]

/-- `SPACED_SECRET_NAME_PARTS` -/
def spacedSecretNameParts : List String := ["password", "passwd", "passphrase"]

/-- `PROSE_AFTER_PASSWORD` -/
def proseAfterPassword : List String :=
  ["a", "again", "an", "and", "are", "as", "at", "authentication", "be", "by", "can", "cannot",
   "change", "changed", "did", "do", "does", "expired", "failed", "field", "for", "from", "has",
   "have", "if", "in", "incorrect", "invalid", "is", "manager", "may", "must", "no", "not", "of",
   "on", "or", "please", "prompt", "required", "reset", "should", "the", "to", "too", "was",
   "when", "will", "with", "wrong", "you", "your"]

/-- `ACCOUNT_PHRASES` -/
def accountPhrases : List String := ["logged in as", "signed in as", "authenticated as"]

/-- `TOKEN_PREFIXES` -/
def tokenPrefixes : List String :=
  ["sk-", "sk_", "ghp_", "gho_", "ghu_", "ghs_", "ghr_", "github_pat_", "xoxb-", "xoxp-",
   "xoxa-", "xoxr-", "xoxs-", "glpat-"]

/-- `AUTH_MARKERS` -/
def authMarkers : List String :=
  ["auth.openai.com", "claude.ai", "claude.com", "console.anthropic.com", "/codex/device",
   "/login/device", "one-timecode", "onetimecode", "usercode", "user_code", "user-code",
   "devicecode", "device_code", "device-code", "verificationurl", "verification_url",
   "verificationuri", "verification_uri", "authurl", "auth_url", "authorizationurl",
   "authorization_url", "authorizationuri", "authorization_uri", "accesstoken", "access_token",
   "refreshtoken", "refresh_token", "idtoken", "id_token", "codeverifier", "code_verifier",
   "codechallenge", "code_challenge", "authorization:bearer", "token=", "/oauth/authorize",
   "/oauth/authorization", "/authorize?", "?code=", "&code=", "#code="]

/-- `DOCUMENTATION_HOSTS` -/
def documentationHosts : List String :=
  ["platform.claude.com", "docs.claude.com", "docs.anthropic.com", "platform.openai.com"]

/-- `CREDENTIAL_PATHS` -/
def credentialPaths : List String :=
  ["/login", "/oauth", "/authorize", "/device", "/settings/keys", "/api-keys",
   "/account/api-keys"]

/-- `MIN_SECRET_RUN` -/
abbrev minSecretRun : ℕ := 32

/-- `MIN_MIXED_HEX_RUN` -/
abbrev minMixedHexRun : ℕ := 20

/-- `MIN_LOWER_RUN` -/
abbrev minLowerRun : ℕ := 40

/-- `MIN_JOINED_WORD` -/
abbrev minJoinedWord : ℕ := 16

/-- `OBJECT_ID_LENGTHS` -/
def objectIdLengths : List ℕ := [40, 64]

/-- `MIN_JWT_SEGMENT` -/
abbrev minJwtSegment : ℕ := 16

/-! ## Characters -/

/-- `to_ascii_lowercase` -/
def lowercase (text : List Char) : List Char := text.map Char.toLower

/-- `char::is_ascii_whitespace` -/
def isAsciiWhitespace (c : Char) : Bool := c.toNat ∈ [9, 10, 12, 13, 32]

/-- `char::is_ascii_hexdigit` -/
def isHexDigit (c : Char) : Bool := c.isDigit || ('a' ≤ c && c ≤ 'f') || ('A' ≤ c && c ≤ 'F')

/-- `split_whitespace` -/
def wordsOf (text : List Char) : List (List Char) := (text.splitOnP isWhiteSpace).filter (· ≠ [])

/-- Whether one of the words stands in the text. -/
def holdsAny (words : List String) (text : List Char) : Bool :=
  words.any fun word => contains word.toList text

/-- Whether the text begins with a character that satisfies `p`. -/
def startsWith (p : Char → Bool) (text : List Char) : Bool := text.head?.any p

/-- Whether no letter or digit precedes a word: `before` is what stands before it. -/
def startsWord (before : List Char) : Bool := before.getLast?.all (!·.isAlphanum)

def isNameChar (c : Char) : Bool := c.isAlphanum || c ∈ ['_', '-', '.']

def isBase64Char (c : Char) : Bool := c.isAlphanum || c ∈ ['+', '/', '=', '_', '-']

def isBase64urlChar (c : Char) : Bool := c.isAlphanum || c ∈ ['_', '-']

/-- `is_lower_hex` -/
def isLowerHex (value : List Char) : Bool :=
  value ≠ [] && value.all fun c => c.isDigit || ('a' ≤ c && c ≤ 'f')

/-! ## Assignments -/

/-- A name with a whole segment that makes it look like a secret. -/
def hasSecretSegment (name : List Char) : Bool :=
  (name.splitOnP (!·.isAlphanum)).any fun segment => String.ofList segment ∈ secretNameSegments

/-- `secret_name` -/
def secretName (name : List Char) : Bool :=
  let lower := lowercase name
  holdsAny secretNameParts lower || hasSecretSegment lower

/-- `assigned_after` -/
def assignedAfter (rest : List Char) : Bool :=
  match trimStart isWhiteSpace (stripAny ['"', '\''] rest) with
  | c :: value =>
    c ∈ ['=', ':'] &&
      startsWith (fun c => !isWhiteSpace c && c ∉ ['"', '\'', '=', ':'])
        (stripAny ['"', '\''] (trimStart isWhiteSpace value))
  | [] => false

/-- `spaced_value` -/
def spacedValue (rest : List Char) : Bool :=
  let value := trimStart isWhiteSpace rest
  let word := (wordsOf value).head?.getD []
  let bare := trim (· ∈ ['"', '\'', ',', '.', ';', ')']) word
  value.length ≠ rest.length && bare ≠ [] && !"--".toList.isPrefixOf word &&
    !startsWith (· ∈ ['=', ':']) word && String.ofList bare ∉ proseAfterPassword

/-- `secret_assignment` -/
def secretAssignment (rest : List Char) : Bool :=
  match _ : rest.dropWhile (!isNameChar ·) with
  | [] => false
  | c :: more =>
    let name := (c :: more).takeWhile isNameChar
    let after := (c :: more).dropWhile isNameChar
    (secretName name && assignedAfter after) ||
      ((holdsAny spacedSecretNameParts name || hasSecretSegment name) && spacedValue after) ||
      secretAssignment after
termination_by rest.length
decreasing_by
  next hname =>
    have hrest := List.length_dropWhile_le (!isNameChar ·) rest
    have hfirst : isNameChar c = true := by
      have hhead := List.head?_dropWhile_not (!isNameChar ·) rest
      rw [hname] at hhead
      simpa using hhead
    have hmore := List.length_dropWhile_le isNameChar more
    rw [hname] at hrest
    simp only [List.dropWhile_cons_of_pos hfirst, List.length_cons] at hrest ⊢
    omega

/-- `mysql_password` -/
def mysqlPassword (lower : List Char) : Bool :=
  let words := wordsOf lower
  let short (word : List Char) (option : String) :=
    option.toList.isPrefixOf word && !"--".toList.isPrefixOf word
  words.any (fun word => short word "-u" || word = "--user".toList ||
      "--user=".toList.isPrefixOf word) &&
    words.any fun word => short word "-p" && byteLength word > 2

/-! ## Addresses and headers -/

/-- What a scheme is written in. -/
def isSchemeChar (c : Char) : Bool := c.isAlphanum || c ∈ ['+', '.', '-']

/-- The scheme that ends what stands before a `://`. It begins one byte behind the last character that
belongs to no scheme, and where that character is longer, the slice is inside it and panics. -/
def schemeOf (before : List Char) : Option (List Char) :=
  match (before.rdropWhile isSchemeChar).getLast? with
  | some c => if c.utf8Size = 1 then some (before.rtakeWhile isSchemeChar) else none
  | none => some (before.rtakeWhile isSchemeChar)

/-- Whether the authority behind a `://` carries a password, or a user of a web address. -/
def carriesUserinfo (scheme rest : List Char) : Bool :=
  match TextSearch.splitOnceBack '@' (rest.takeWhile fun c => !isWhiteSpace c && c ∉ "/?#\"'<>`".toList) with
  | none => false
  | some (userinfo, _) =>
    match TextSearch.splitOnce ':' userinfo with
    | some (_, password) => password ≠ []
    | none => userinfo ≠ [] && scheme ∈ ["http".toList, "https".toList]

/-- `url_userinfo`, and `none` where it panics. -/
def urlUserinfo (lower : List Char) : Option Bool :=
  (occurrences "://".toList lower).anyM fun (before, rest) => do
    let scheme ← schemeOf before
    return carriesUserinfo scheme rest

/-- `bearer_token` -/
def bearerToken (lower : List Char) : Bool :=
  (occurrences "bearer".toList lower).any fun (_, after) =>
    let token := trimStart isWhiteSpace (stripAny [':', '='] after)
    token.length < after.length && startsWith (fun c => c.isAlphanum || c ∈ "-._~+/".toList) token

/-- `authorization_header` -/
def authorizationHeader (lower : List Char) : Bool :=
  (occurrences "authorization".toList lower).any fun (_, rest) =>
    startsWith (· ∈ [':', '=']) (trimStart isWhiteSpace (stripAny ['"', '\''] rest))

/-! ## Tokens -/

/-- `token_prefix` -/
def tokenPrefix (lower : List Char) : Bool :=
  tokenPrefixes.any fun start => (occurrences start.toList lower).any fun (before, after) =>
    startsWord before && startsWith Char.isAlphanum after

/-- `aws_access_key` -/
def awsAccessKey (line : List Char) : Bool :=
  ["AKIA", "ASIA"].any fun start => (occurrences start.toList line).any fun (before, rest) =>
    let run := rest.takeWhile fun c => c.isUpper || c.isDigit
    startsWord before && run.length = 16 && !startsWith Char.isAlphanum (rest.drop run.length)

/-- `object_id` -/
def objectId (run : List Char) : Bool := byteLength run ∈ objectIdLengths && isLowerHex run

/-- A run of letters and digits, blanked out when it is an object id. -/
def blankObjectId (run : List Char) : List Char :=
  if objectId run then List.replicate run.length ' ' else run

/-- The rest of a line, `run` the letters and digits before it. -/
def withoutObjectIdsFrom (run : List Char) : List Char → List Char
  | [] => blankObjectId run
  | c :: rest =>
    if c.isAlphanum then withoutObjectIdsFrom (run ++ [c]) rest
    else blankObjectId run ++ c :: withoutObjectIdsFrom [] rest

/-- `without_object_ids` -/
def withoutObjectIds (line : List Char) : List Char := withoutObjectIdsFrom [] line

/-- `secret_run` -/
def secretRun (line : List Char) : Bool :=
  let line := withoutObjectIds line
  let mixed (run : List Char) := run.any Char.isDigit && run.any Char.isAlpha
  (line.splitOnP (!isHexDigit ·)).any (fun run =>
      run.length ≥ minSecretRun || (run.length ≥ minMixedHexRun && mixed run)) ||
    (line.splitOnP fun c => !(c.isLower || c.isDigit)).any (fun run =>
      run.length ≥ minLowerRun && mixed run) ||
    (line.splitOnP (!isBase64Char ·)).any fun run =>
      run.length ≥ minSecretRun && run.any Char.isUpper && run.any Char.isLower &&
        run.any Char.isDigit

/-- `json_web_token` -/
def jsonWebToken (line : List Char) : Bool :=
  let part (from_ : List Char) := from_.takeWhile fun c => isBase64urlChar c || c ∈ ['+', '/']
  (occurrences "eyJ".toList line).any fun (before, after) =>
    let header := part ("eyJ".toList ++ after)
    match ("eyJ".toList ++ after).drop header.length with
    | '.' :: rest =>
      let payload := part rest
      match rest.drop payload.length with
      | '.' :: rest =>
        before.getLast?.all (!isBase64urlChar ·) && header.length ≥ minJwtSegment &&
          payload ≠ [] && part rest ≠ []
      | _ => false
    | _ => false

/-- `name_is_credential` -/
def nameIsCredential (name : List Char) : Bool :=
  tokenPrefix (lowercase name) || secretRun name || jsonWebToken name

/-- `device_code` -/
def deviceCode (line lower : List Char) : Bool :=
  let group (part : List Char) :=
    4 ≤ part.length && part.length ≤ 6 && part.all fun c => c.isUpper || c.isDigit
  contains "code".toList lower &&
    (line.splitOnP fun c => !(c.isAlphanum || c = '-')).any fun word =>
      match TextSearch.splitOnce '-' word with
      | some (first, second) => group first && group second && word.any Char.isUpper
      | none => false

/-! ## Login challenges -/

/-- A host masked wherever it does not lead a credential path. -/
def maskHost (text : List Char) (host : String) : List Char :=
  replaceEach host.toList (fun _ after =>
    if credentialPaths.any fun path => path.toList.isPrefixOf after then host.toList
    else "documentation-host".toList) text

/-- `without_documentation_hosts` -/
def withoutDocumentationHosts (text : List Char) : List Char :=
  if holdsAny documentationHosts text then documentationHosts.foldl maskHost text else text

/-- `carries_auth_material` of a text. -/
def carriesAuthMaterial (line : List Char) : Bool :=
  holdsAny authMarkers
    (withoutDocumentationHosts (lowercase (line.filter (!isAsciiWhitespace ·))))

/-! ## Two words -/

/-- A word that may go on in the next one. -/
def joinable (word : List Char) : Bool :=
  byteLength word ≥ minJoinedWord && !startsWith (· ∈ ['/', '.', '~']) word &&
    word.all isBase64Char && byteLength (trim isWhiteSpace (withoutObjectIds word)) = byteLength word

/-- A word that ends in a token prefix. -/
def dangling (word : List Char) : Bool :=
  tokenPrefixes.any fun start =>
    match (lowercase word).dropSuffix? start.toList with
    | some before => startsWord before
    | none => false

/-- `joined_words` -/
def joinedWords (line : List Char) : Bool :=
  let words := line.splitOn ' '
  (words.zip words.tail).any fun (first, second) =>
    (dangling first && startsWith Char.isAlphanum second) ||
      (joinable first && joinable second &&
        (tokenPrefix (lowercase (first ++ second)) || awsAccessKey (first ++ second) ||
          secretRun (first ++ second) || jsonWebToken (first ++ second)))

/-! ## The judgement -/

/-- `looks_like_credential`, and `none` where it panics. -/
def looksLikeCredential (line : List Char) : Option Bool :=
  let lower := lowercase line
  if secretAssignment lower || mysqlPassword lower then some true
  else do
    let userinfo ← urlUserinfo lower
    return userinfo || bearerToken lower || authorizationHeader lower || tokenPrefix lower ||
      awsAccessKey line || secretRun line || jsonWebToken line || deviceCode line lower ||
      holdsAny accountPhrases lower || carriesAuthMaterial line || joinedWords line

/-- `WITHHELD`: what stands in place of a withheld value. -/
abbrev withheldValue : String := "[withheld]"

/-- `WITHHELD_LINE`: what stands in place of a withheld line. -/
abbrev withheldLine : String := "[line withheld: looks like credential material]"

theorem looksLikeCredential_withheld : looksLikeCredential withheldValue.toList = some false := by
  decide +kernel

/-- A search fails at the first element that fails, when none before it is found. -/
theorem anyM_eq_none {α : Type} {p : α → Option Bool} {l : List α} :
    l.anyM p = none ↔
      ∃ earlier a later, l = earlier ++ a :: later ∧ (∀ b ∈ earlier, p b = some false) ∧
        p a = none := by
  induction l with
  | nil => simp [List.anyM]
  | cons first l ih =>
    rw [List.anyM]
    constructor
    · intro h
      match hfirst : p first, h with
      | none, _ => exact ⟨[], first, l, rfl, by simp, hfirst⟩
      | some false, h =>
        obtain ⟨earlier, a, later, rfl, hearlier, ha⟩ := ih.mp h
        refine ⟨first :: earlier, a, later, rfl, ?_, ha⟩
        exact List.forall_mem_cons.mpr ⟨hfirst, hearlier⟩
    · rintro ⟨earlier, a, later, hl, hearlier, ha⟩
      cases earlier with
      | nil =>
        obtain ⟨rfl, rfl⟩ := List.cons.inj hl
        rw [ha]
        rfl
      | cons b earlier =>
        obtain ⟨rfl, rfl⟩ := List.cons.inj hl
        obtain ⟨hb, hearlier⟩ := List.forall_mem_cons.mp hearlier
        rw [hb]
        exact ih.mpr ⟨earlier, a, later, rfl, hearlier, ha⟩

/-- What stands before a `://` is a scheme behind a character of more than one byte. -/
def BehindWide (before : List Char) : Prop :=
  ∃ c ∈ (before.rdropWhile isSchemeChar).getLast?, c.utf8Size ≠ 1

theorem schemeOf_eq_none {before : List Char} : schemeOf before = none ↔ BehindWide before := by
  rw [schemeOf, BehindWide]
  cases (before.rdropWhile isSchemeChar).getLast? with
  | none => simp
  | some c => simp

theorem schemeOf_eq_some {before scheme : List Char} : schemeOf before = some scheme ↔
    ¬ BehindWide before ∧ before.rtakeWhile isSchemeChar = scheme := by
  rw [schemeOf, BehindWide]
  cases (before.rdropWhile isSchemeChar).getLast? with
  | none => simp
  | some c => by_cases h : c.utf8Size = 1 <;> simp [h]

/-- **A wide address**: in lower case a `://` of the text has its scheme behind a character of more
than one byte, and nothing before it passed for a credential: no assignment, no password of `mysql`
and no userinfo at an earlier `://`. -/
def WideAddress (line : List Char) : Prop :=
  secretAssignment (lowercase line) = false ∧ mysqlPassword (lowercase line) = false ∧
    ∃ earlier before rest later,
      occurrences "://".toList (lowercase line) = earlier ++ (before, rest) :: later ∧
      (∀ other ∈ earlier, ¬ BehindWide other.1 ∧
        carriesUserinfo (other.1.rtakeWhile isSchemeChar) other.2 = false) ∧
      BehindWide before

/-- **The judgement panics at a wide address**, and at nothing else. -/
theorem looksLikeCredential_eq_none {line : List Char} :
    looksLikeCredential line = none ↔ WideAddress line := by
  have hurl : urlUserinfo (lowercase line) = none ↔ ∃ earlier before rest later,
      occurrences "://".toList (lowercase line) = earlier ++ (before, rest) :: later ∧
      (∀ other ∈ earlier, ¬ BehindWide other.1 ∧
        carriesUserinfo (other.1.rtakeWhile isSchemeChar) other.2 = false) ∧
      BehindWide before := by
    have hpast : ∀ before rest : List Char,
        ((schemeOf before).bind fun scheme => some (carriesUserinfo scheme rest)) = some false ↔
          ¬ BehindWide before ∧ carriesUserinfo (before.rtakeWhile isSchemeChar) rest = false := by
      intro before rest
      simp only [Option.bind_eq_some_iff, schemeOf_eq_some, Option.some.injEq, and_assoc,
        exists_and_left, exists_eq_left']
    have hhere : ∀ before rest : List Char,
        ((schemeOf before).bind fun scheme => some (carriesUserinfo scheme rest)) = none ↔
          BehindWide before := by
      intro before rest
      rw [← schemeOf_eq_none]
      cases schemeOf before <;> simp
    rw [urlUserinfo, anyM_eq_none]
    simp only [Prod.exists, Option.bind_eq_bind, Option.pure_def, hpast, hhere]
  rw [WideAddress, looksLikeCredential, ← hurl]
  by_cases h : (secretAssignment (lowercase line) || mysqlPassword (lowercase line)) = true
  · simp only [h, if_true, reduceCtorEq, false_iff, not_and]
    intro hassignment hpassword
    simp [hassignment, hpassword] at h
  · rw [if_neg h]
    rw [Bool.or_eq_true, not_or, Bool.not_eq_true, Bool.not_eq_true] at h
    cases urlUserinfo (lowercase line) with
    | none => simp [h]
    | some userinfo => simp

theorem isSome_looksLikeCredential {line : List Char} :
    (looksLikeCredential line).isSome = true ↔ ¬ WideAddress line := by
  rw [← looksLikeCredential_eq_none, Option.isSome_iff_ne_none]

end Redaction

end Afactory
