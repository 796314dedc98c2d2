import Mathlib
import Afactory.CompiledTask
import Afactory.CredentialRules
import Afactory.Json

/-!
# The redactor

`Redactor` of `review-telemetry/src/redact.rs`: values, texts and JSON documents judged by the
credential rules, with the values of Provider grants and the home prefix replaced.

* `Redactor.replace`: the replacements of a text already judged;
* `Redactor.value`, `Redactor.text`: one value judged whole, and a text line by line;
* `Redactor.json`: a document, key-aware and recursive.

Judging may panic (`looksLikeCredential`), and what it is asked for then panics too. How a path
resolves in the file system and how serde writes a double are parameters.
-/

namespace Afactory

namespace Redaction

open TextSearch
open Json (Value)

/-- What the machine answers: the canonical form of an existing path (`std::fs::canonicalize`), and
the text of a double. -/
structure Machine where
  canonicalize : List Char → Option (List Char)
  double : Json.Double → List Char

/-- A machine without files, that writes no doubles. -/
def plainMachine : Machine := ⟨fun _ => none, fun _ => []⟩

/-- `Redactor`: the home prefix, the grants by name, and every spelling of every grant. -/
structure Redactor where
  home : Option (List Char)
  grants : List (List Char × List Char)
  spellings : List (List Char × List Char)
  home_ne_nil : ∀ path ∈ home, path ≠ []
  spelling_ne_nil : ∀ spelling ∈ spellings, spelling.2 ≠ []

/-- `normalize_path` -/
def normalizePath (path : List Char) : List Char :=
  let parts := (path.splitOn '/').foldl (fun parts part =>
    if part = [] ∨ part = ['.'] then parts
    else if part = ['.', '.'] then parts.dropLast
    else parts ++ [part]) []
  '/' :: ['/'].intercalate parts

/-- A character of a path in a text. -/
def isPathChar (c : Char) : Bool := !(isWhiteSpace c || c ∈ "\"'`<>()[]\x7b\x7d,;|=:".toList)

/-- What stands in place of a grant. -/
def grantMark (name : List Char) : List Char := "<grant:".toList ++ name ++ ['>']

namespace Redactor

variable (M : Machine) (R : Redactor)

/-- `Redactor::new`: the rules without replacements. -/
def new : Redactor where
  home := none
  grants := []
  spellings := []
  home_ne_nil := nofun
  spelling_ne_nil := nofun

/-- `grant_paths` -/
def grantPaths (value : List Char) : List (List Char) :=
  value :: match M.canonicalize value with
    | some canonical => if startsWith (· = '/') value && canonical ≠ value then [canonical] else []
    | none => []

/-- A path that is not written in its normal form. -/
def unnormal (path : List Char) : Bool :=
  contains "/./".toList path || contains "/../".toList path || contains "//".toList path ||
    "/.".toList.isSuffixOf path || "/..".toList.isSuffixOf path

/-- The absolute path that a path in a text names. -/
def absolutePath (path : List Char) : Option (List Char) :=
  match path with
  | '~' :: rest => if startsWith (· = '/') rest then R.home.map (· ++ rest) else none
  | _ => some path

/-- `grant_in_unnormalized` -/
def grantInUnnormalized (path : List Char) : Option (List Char) :=
  if !unnormal path then none
  else do
    let absolute ← R.absolutePath path
    let normal := normalizePath absolute
    R.grants.findSome? fun (name, value) => (grantPaths M value).findSome? fun grant =>
      match normal.dropPrefix? (normalizePath grant) with
      | some rest =>
        if rest = [] || startsWith (· = '/') rest then some (grantMark name ++ rest) else none
      | none => none

/-- `replace_unnormalized_grants` -/
def replaceUnnormalizedGrants (rest : List Char) : List Char :=
  match _ : rest.dropWhile (· ∉ ['/', '~']) with
  | [] => rest
  | c :: more =>
    let before := rest.takeWhile (· ∉ ['/', '~'])
    let path := (c :: more).takeWhile isPathChar
    let found := if before.getLast?.all (!isPathChar ·) then R.grantInUnnormalized M path else none
    before ++ found.getD path ++ replaceUnnormalizedGrants ((c :: more).dropWhile isPathChar)
termination_by rest.length
decreasing_by
  next hname =>
    have hrest := List.length_dropWhile_le (fun c => decide (c ∉ ['/', '~'])) rest
    have hfirst : isPathChar c = true := by
      have hhead := List.head?_dropWhile_not (fun c => decide (c ∉ ['/', '~'])) rest
      rw [hname] at hhead
      have hc : c = '/' ∨ c = '~' := or_iff_not_imp_left.mpr (by simpa using hhead)
      rcases hc with rfl | rfl
      all_goals decide
    have hmore := List.length_dropWhile_le isPathChar more
    rw [hname] at hrest
    simp only [List.dropWhile_cons_of_pos hfirst, List.length_cons] at hrest ⊢
    omega

/-- The home prefix, where it ends a path segment and starts a word. -/
def replaceHome (home text : List Char) : List Char :=
  replaceEach home (fun before after =>
    let bounded := after = [] || startsWith (· = '/') after
    let starts := before.getLast?.all fun c => !(c.isAlphanum || c ∈ ['_', '-', '.'])
    if bounded && starts then ['~'] else home) text

/-- `Redactor::replace` -/
def replace (text : List Char) : List Char :=
  let text := R.spellings.foldl (fun text (name, spelling) =>
    if contains spelling text then replaceEach spelling (fun _ _ => grantMark name) text
    else text) text
  let text := if R.grants ≠ [] then R.replaceUnnormalizedGrants M text else text
  match R.home with
  | some home => replaceHome home text
  | none => text

/-- `Redactor::value` -/
def value (value : List Char) : Option (List Char × Bool) := do
  if ← looksLikeCredential value then return (withheldValue.toList, true)
  else return (R.replace M value, false)

end Redactor

/-! ## Texts -/

/-- `split_inclusive('\n')`: the lines of a text, each with the newline that ends it. -/
def linesOf : List Char → List (List Char)
  | [] => []
  | c :: rest =>
    if c = '\n' then [c] :: linesOf rest
    else match linesOf rest with
      | [] => [[c]]
      | line :: lines => (c :: line) :: lines

/-- `split_line_end` -/
def splitLineEnd (line : List Char) : List Char × List Char :=
  match line.dropSuffix? ['\r', '\n'] with
  | some body => (body, ['\r', '\n'])
  | none =>
    match line.dropSuffix? ['\n'] with
    | some body => (body, ['\n'])
    | none => (line, [])

namespace Redactor

variable (M : Machine) (R : Redactor)

/-- One line of `Redactor::text`. -/
def line (body : List Char) : Option (List Char × ℕ) := do
  if ← looksLikeCredential body then return (withheldLine.toList, 1)
  else return (R.replace M body, 0)

/-- The loop of `Redactor::text`. -/
def textLines : List (List Char) → Option (List Char × ℕ)
  | [] => some ([], 0)
  | first :: rest => do
    let (body, stop) := splitLineEnd first
    let (redacted, n) ← R.line M body
    let (more, m) ← textLines rest
    return (redacted ++ stop ++ more, n + m)

/-- `Redactor::text` -/
def text (text : List Char) : Option (List Char × ℕ) := R.textLines M (linesOf text)

end Redactor

/-! ## Documents -/

/-- `Value::is_null` -/
def isNull : Value → Bool
  | .null => true
  | _ => false

namespace Redactor

variable (M : Machine) (R : Redactor)

mutual

/-- `Redactor::json_at` where no position is exempt. -/
def jsonAt : Value → Option (Value × ℕ)
  | .object members =>
    if members.any fun member => nameIsCredential member.1.toList then
      some (.string withheldValue, 1)
    else do
      let (members, n) ← membersAt members
      return (.object members, n)
  | .array items => do
    let (items, n) ← itemsAt items
    return (.array items, n)
  | .string text => do
    let (redacted, withheld) ← R.value M text.toList
    return (.string (String.ofList redacted), withheld.toNat)
  | .int n => do
    if ← looksLikeCredential (toString n).toList then return (.string withheldValue, 1)
    else return (.int n, 0)
  | .float x => do
    if ← looksLikeCredential (M.double x) then return (.string withheldValue, 1)
    else return (.float x, 0)
  | .bool b => some (.bool b, 0)
  | .null => some (.null, 0)

def itemsAt : List Value → Option (List Value × ℕ)
  | [] => some ([], 0)
  | item :: items => do
    let (item, n) ← jsonAt item
    let (items, m) ← itemsAt items
    return (item :: items, n + m)

def membersAt : List (String × Value) → Option (List (String × Value) × ℕ)
  | [] => some ([], 0)
  | (name, member) :: members => do
    let (member, n) ← (if secretName name.toList && !isNull member then
      some (.string withheldValue, 1) else jsonAt member)
    let (members, m) ← membersAt members
    return ((name, member) :: members, n + m)

end

/-- `Redactor::json` -/
def json (document : Value) : Option (Value × ℕ) := R.jsonAt M document

end Redactor

end Redaction

end Afactory
