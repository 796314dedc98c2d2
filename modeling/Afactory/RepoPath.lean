import Mathlib

/-!
# Repository paths

`review-core/src/path.rs`: which texts are canonical repository-relative paths, how raw path
bytes are written, and when a report location names a changed path.
-/

namespace Afactory

/-- The Unicode white space `str::trim` removes. -/
def isWhiteSpace (c : Char) : Bool :=
  let n := c.toNat
  (9 ≤ n && n ≤ 13) || n = 0x20 || n = 0x85 || n = 0xA0 || n = 0x1680 ||
    (0x2000 ≤ n && n ≤ 0x200A) || n = 0x2028 || n = 0x2029 || n = 0x202F || n = 0x205F ||
    n = 0x3000

/-- `s.trim().is_empty()`. -/
def isBlank (s : String) : Bool := s.toList.all isWhiteSpace

/-- `path == path.trim()`: no white space at either end. -/
def trimmed (path : String) : Bool :=
  path.toList.head?.all (!isWhiteSpace ·) && path.toList.getLast?.all (!isWhiteSpace ·)

def isValidRepoPath (path : String) : Bool :=
  !path.isEmpty && trimmed path && path.toList.head? ≠ some '/' && !path.toList.contains '\x00' &&
    (path.toList.splitOn '/').all fun part =>
      !(part = [] || part = ['.'] || part = ['.', '.'])

/-- One hexadecimal digit, in upper case. -/
def upperHexDigit (n : ℕ) : Char := if n < 10 then Char.ofNat (48 + n) else Char.ofNat (55 + n)

/-- The bytes `encode_path` writes as they are. -/
def plainByte (b : UInt8) : Bool :=
  let c := Char.ofNat b.toNat
  c.isAlphanum || c = '/' || c = '.' || c = '-' || c = '_' || c = '+' || c = '@'

def encodeByte (b : UInt8) : List Char :=
  if plainByte b then [Char.ofNat b.toNat]
  else ['%', upperHexDigit (b.toNat / 16), upperHexDigit (b.toNat % 16)]

/-- `encode_path` of a text's bytes. -/
def encodePath (path : String) : String :=
  if !path.toList.contains '%' && isValidRepoPath path then path
  else String.ofList (path.toUTF8.toList.flatMap encodeByte)

/-- `contains_report_path`; the changed paths are sorted, so the search is membership. -/
def containsReportPath (changedPaths : List String) (reportPath : String) : Bool :=
  isValidRepoPath reportPath &&
    (changedPaths.contains reportPath ||
      (encodePath reportPath ≠ reportPath && changedPaths.contains (encodePath reportPath)))

end Afactory
