import Rehome.Ecma.Character

/-!
# Blanks and comments

What lies between tokens: white space, line breaks and comments. The only thing the grammar learns
of it is whether a line ended.
-/
namespace Rehome.Ecma.Trivia

open Character

/-- Where the reader stands: between comments, in a comment that ends with its line, or in one that
ends at `*/`. -/
inductive Mode where
  | plain
  | line
  | block
  deriving DecidableEq, Repr

/-- The bytes skipped, whether a line ended, and what remains. -/
structure Skipped where
  size : Nat
  newline : Bool
  rest : List Char

/-- Skips to the next token. `<!--`, and `-->` at the start of a line, open comments that end with
the line. A block comment without an end reaches to the end of the text. -/
def skip : Mode → Nat → Bool → List Char → Skipped
  | _, size, newline, [] => ⟨size, newline, []⟩
  | .plain, size, newline, '/' :: '/' :: cs => skip .line (size + 2) newline cs
  | .plain, size, newline, '/' :: '*' :: cs => skip .block (size + 2) newline cs
  | .plain, size, newline, '<' :: '!' :: '-' :: '-' :: cs => skip .line (size + 4) newline cs
  | .plain, size, newline, '-' :: '-' :: '>' :: cs =>
    if newline then skip .line (size + 3) newline cs
    else ⟨size, newline, '-' :: '-' :: '>' :: cs⟩
  | .plain, size, newline, c :: cs =>
    if isLineBreak c then skip .plain (size + c.utf8Size) true cs
    else if isBlank c then skip .plain (size + c.utf8Size) newline cs
    else ⟨size, newline, c :: cs⟩
  | .line, size, newline, c :: cs =>
    if isLineBreak c then skip .plain (size + c.utf8Size) true cs
    else skip .line (size + c.utf8Size) newline cs
  | .block, size, newline, '*' :: '/' :: cs => skip .plain (size + 2) newline cs
  | .block, size, newline, c :: cs =>
    skip .block (size + c.utf8Size) (newline || isLineBreak c) cs

end Rehome.Ecma.Trivia
