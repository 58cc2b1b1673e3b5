import Rehome.Ecma.Character
import Rehome.Ecma.Token

/-!
# Numbers

Only the extent of a number matters: where it ends and whether it is a big integer. A name may not
follow it directly. Underscores between digits are taken wherever they stand.
-/
namespace Rehome.Ecma.Number

open Character

def isSpaced (isDigit : Char → Bool) (c : Char) : Bool := isDigit c || c = '_'

/-- The digits, with underscores, at the front, and the rest. -/
def digits (isDigit : Char → Bool) (cs : List Char) : List Char × List Char :=
  (cs.takeWhile (isSpaced isDigit), cs.dropWhile (isSpaced isDigit))

/-- Finishes a number: a name may not follow. -/
def finish? (kind : TokenKind) (taken rest : List Char) : Option Cut :=
  match rest with
  | c :: _ => if isIdStart c then none else some { kind, taken, rest }
  | [] => some { kind, taken, rest }

/-- Finishes an integer, which an `n` turns into a big one. -/
def finishInteger? (taken : List Char) : List Char → Option Cut
  | 'n' :: rest => finish? .bigint (taken ++ ['n']) rest
  | rest => finish? .number taken rest

/-- The sign at the front, if there is one, and the rest. -/
def sign : List Char → List Char × List Char
  | '+' :: cs => (['+'], cs)
  | '-' :: cs => (['-'], cs)
  | cs => ([], cs)

/-- An exponent, if one follows; it needs a digit. -/
def exponent? (taken : List Char) : List Char → Option Cut
  | e :: cs =>
    if e = 'e' || e = 'E' then
      let (sign, rest) := sign cs
      let (ds, rest) := digits Digit.isDecimal rest
      if ds.any Digit.isDecimal then finish? .number (taken ++ e :: sign ++ ds) rest else none
    else finish? .number taken (e :: cs)
  | [] => finish? .number taken []

/-- What may follow the integer part of a decimal number. -/
def fraction? (taken : List Char) : List Char → Option Cut
  | '.' :: cs =>
    let (ds, rest) := digits Digit.isDecimal cs
    exponent? (taken ++ '.' :: ds) rest
  | 'e' :: cs => exponent? taken ('e' :: cs)
  | 'E' :: cs => exponent? taken ('E' :: cs)
  | rest => finishInteger? taken rest

/-- An integer of another base, after its mark. -/
def based? (base : Nat) (mark : Char) (cs : List Char) : Option Cut :=
  let (ds, rest) := digits (Digit.isOf base) cs
  if ds.any (Digit.isOf base) then finishInteger? ('0' :: mark :: ds) rest else none

/-- Reads a number. A zero followed by octal digits only is an octal integer, which has no
fraction. -/
def read? : List Char → Option Cut
  | '0' :: m :: cs =>
    if m = 'x' || m = 'X' then based? 16 m cs
    else if m = 'o' || m = 'O' then based? 8 m cs
    else if m = 'b' || m = 'B' then based? 2 m cs
    else
      let (ds, rest) := digits Digit.isDecimal (m :: cs)
      if ds.any Digit.isDecimal && ds.all (isSpaced Digit.isOctal) then finishInteger? ('0' :: ds) rest
      else fraction? ('0' :: ds) rest
  | '.' :: cs => fraction? [] ('.' :: cs)
  | cs =>
    let (ds, rest) := digits Digit.isDecimal cs
    fraction? ds rest

end Rehome.Ecma.Number
