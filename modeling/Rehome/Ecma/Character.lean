import Rehome.Ecma.Character.Ranges
import Rehome.Text.Digit

/-!
# Classes of characters

Blanks, line breaks and the characters of identifiers, as the language defines them.
-/
namespace Rehome.Ecma.Character

/-- Line feed, carriage return, and the line and paragraph separators. -/
def isLineBreak (c : Char) : Bool :=
  c = '\n' || c = '\r' || c = '\u2028' || c = '\u2029'

/-- White space that does not end a line. -/
def isBlank (c : Char) : Bool :=
  c = ' ' || c = '\t' || c = '\x0b' || c = '\x0c' || c = '\u00a0' || c = '\ufeff' ||
    c = '\u1680' || ('\u2000' ≤ c && c ≤ '\u200a') || c = '\u202f' || c = '\u205f' ||
    c = '\u3000'

def inRanges (ranges : Array (Nat × Nat)) (c : Char) : Bool :=
  ranges.any fun (lo, hi) => lo ≤ c.toNat && c.toNat ≤ hi

/-- Whether `c` may start an identifier. -/
def isIdStart (c : Char) : Bool :=
  ('a' ≤ c && c ≤ 'z') || ('A' ≤ c && c ≤ 'Z') || c = '$' || c = '_' ||
    (128 ≤ c.toNat && inRanges startRanges c)

/-- Whether `c` may stand in an identifier after its start. -/
def isIdPart (c : Char) : Bool :=
  isIdStart c || Digit.isDecimal c || (128 ≤ c.toNat && inRanges continueRanges c)

end Rehome.Ecma.Character
