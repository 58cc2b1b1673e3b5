import Rehome.Disk.Glob

/-!
# Files that tell what to ignore

Each line is a pattern. It matches names in any directory below, unless a slash ties it to the
directory of the file. A line that starts with `!` takes back what earlier ones say, and one that
ends with a slash matches directories only. The last line that matches decides.
-/
namespace Rehome.Ignore

structure Rule where
  pattern : List Glob.Token
  /-- The rule takes back what others say. -/
  keeps : Bool
  /-- The rule is for directories only. -/
  onlyDirectories : Bool

/-- Characters that may be dropped at the end of a line. -/
def isBlank (c : Char) : Bool :=
  ('\t' ≤ c && c ≤ '\r') || c = ' ' || c = '\u0085' || c = '\u00a0' || c = '\u1680' ||
    ('\u2000' ≤ c && c ≤ '\u200a') || c = '\u2028' || c = '\u2029' || c = '\u202f' ||
    c = '\u205f' || c = '\u3000'

def dropEnd (cs : List Char) : List Char := (cs.reverse.dropWhile isBlank).reverse

/-- Drops a character at the end. -/
def dropLast? (c : Char) (cs : List Char) : Option (List Char) :=
  if cs.getLast? = some c then some cs.dropLast else none

/-- The pattern of a line that says where it applies: `isTied` tells whether it is tied to the
directory of its file. Everything inside a directory does not mean the directory itself. -/
def anchored (isTied : Bool) (line : List Char) : List Char :=
  let anywhere := "**/".toList
  let line :=
    if isTied || line.contains '/' || line = "**".toList then line else anywhere ++ line
  if "/**".toList.isSuffixOf line then line ++ "/*".toList else line

/-- The rule of a line; comments, empty lines and malformed patterns are none. -/
def rule? (line : List Char) : Option Rule := do
  if line.head? = some '#' then none
  let line := if "\\ ".toList.isSuffixOf line then line else dropEnd line
  if line.isEmpty then none
  let (keeps, isTied, line) :=
    match line with
    | '\\' :: '!' :: rest => (false, false, '!' :: rest)
    | '\\' :: '#' :: rest => (false, false, '#' :: rest)
    | '!' :: '/' :: rest => (true, true, rest)
    | '!' :: rest => (true, false, rest)
    | '/' :: rest => (false, true, rest)
    | line => (false, false, line)
  let (onlyDirectories, line) :=
    match dropLast? '/' line with
    | some rest => (true, (dropLast? '\\' rest).getD rest)
    | none => (false, line)
  return { pattern := ← Glob.read? (anchored isTied line), keeps, onlyDirectories }

/-- The lines of a text, without their ends. -/
def lines (text : List Char) : List (List Char) :=
  (text.splitOn '\n').map fun line => (dropLast? '\r' line).getD line

/-- The rules of a file. A mark before its first character is dropped. -/
def rules (text : String) : List Rule :=
  let cs := text.toList
  (lines (cs.dropWhile (· = '\ufeff'))).filterMap rule?

/-- What the rules say about a path relative to their directory: whether it is kept, if they say
anything. -/
def verdict? (rules : List Rule) (path : String) (isDirectory : Bool) : Option Bool :=
  let bytes := Glob.bytes path.toList
  let hit := rules.reverse.find? fun r =>
    (!r.onlyDirectories || isDirectory) && Glob.isMatch r.pattern bytes
  hit.map (·.keeps)

end Rehome.Ignore
