import Rehome.Ecma.Token.StringLiteral

/-!
# Words

Identifiers and keywords. A character of a word may be written as a `\u` escape, but a reserved word
may not hold one.
-/
namespace Rehome.Ecma.Word

open Character

/-- Words that can never name a binding in a module. -/
def keywords : List String :=
  ["break", "case", "catch", "class", "const", "continue", "debugger", "default", "delete", "do",
   "else", "export", "extends", "false", "finally", "for", "function", "if", "import", "in",
   "instanceof", "new", "null", "return", "super", "switch", "this", "throw", "true", "try",
   "typeof", "var", "void", "while", "with"]

/-- Words that are reserved besides the keywords, because a module is strict. -/
def strictWords : List String :=
  ["await", "enum", "implements", "interface", "let", "package", "private", "protected", "public",
   "yield"]

def isReserved (name : String) : Bool := keywords.contains name || strictWords.contains name

/-- The characters of a word: decoded, as written, and the rest; `escaped` tells whether a
character was written as an escape. -/
structure Letters where
  decoded : List Char
  taken : List Char
  rest : List Char
  escaped : Bool

/-- Reads characters of a word as far as they go; a malformed escape, or one that does not belong
into a word, refuses it. -/
def letters? (cs : List Char) : Option Letters :=
  match cs with
  | [] => some ⟨[], [], [], false⟩
  | c :: rest =>
    if isIdPart c then
      (letters? rest).map fun l => { l with decoded := c :: l.decoded, taken := c :: l.taken }
    else if c = '\\' then
      match h : StringLiteral.escape? rest with
      | some e =>
        have := StringLiteral.escape?_rest_lt h
        match rest.head?, e.pieces with
        | some 'u', [.char d] =>
          if isIdPart d then
            (letters? e.rest).map fun l =>
              ⟨d :: l.decoded, '\\' :: e.taken ++ l.taken, l.rest, true⟩
          else none
        | _, _ => none
      | none => none
    else some ⟨[], [], c :: rest, false⟩
termination_by cs.length
decreasing_by all_goals simp_all <;> omega

/-- Reads a word. -/
def read? (cs : List Char) : Option Cut := do
  let l ← letters? cs
  let first ← l.decoded.head?
  let name := String.ofList l.decoded
  if isIdStart first && !(l.escaped && isReserved name) then
    return { kind := .word name, taken := l.taken, rest := l.rest }
  else none

/-- Reads the name after a `#`, which belongs to it. -/
def readPrivate? (cs : List Char) : Option Cut := do
  let l ← letters? cs
  let first ← l.decoded.head?
  if isIdStart first then
    return { kind := .privateName, taken := '#' :: l.taken, rest := l.rest }
  else none

end Rehome.Ecma.Word
