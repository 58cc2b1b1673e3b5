import Rehome.Config.Value
import Rehome.Text.Digit

/-!
# Numbers, dates and truth values in TOML
-/
namespace Rehome.Toml

open Digit

/-- Digits with single underscores between them; answers the digits. -/
def digits? (ok : Char → Bool) : List Char → Option (List Char)
  | [] => none
  | [c] => if ok c then some [c] else none
  | c :: '_' :: d :: cs => if ok c then (digits? ok (d :: cs)).map (c :: ·) else none
  | c :: d :: cs => if ok c then (digits? ok (d :: cs)).map (c :: ·) else none

/-- The digits of a whole number without needless zeros in front. -/
def whole? (cs : List Char) : Option (List Char) := do
  let ds ← digits? isDecimal cs
  if ds.head? = some '0' && ds.length ≠ 1 then none else return ds

/-- A number that fits into 64 bits with a sign. -/
def fits? (n : Int) : Option Int :=
  if -9223372036854775808 ≤ n ∧ n ≤ 9223372036854775807 then some n else none

def integer? : List Char → Option Int
  | '0' :: 'x' :: cs => (digits? isHex cs).bind fun ds => fits? (number 16 ds)
  | '0' :: 'o' :: cs =>
    (digits? isOctal cs).bind fun ds => fits? (number 8 ds)
  | '0' :: 'b' :: cs => (digits? (isOf 2) cs).bind fun ds => fits? (number 2 ds)
  | '+' :: cs => (whole? cs).bind fun ds => fits? (number 10 ds)
  | '-' :: cs => (whole? cs).bind fun ds => fits? (-(number 10 ds : Int))
  | cs => (whole? cs).bind fun ds => fits? (number 10 ds)

/-- Whether the text is a fraction or has an exponent, or is no finite number. -/
def isFloat (cs : List Char) : Bool :=
  let cs := dropSign cs
  if cs = "inf".toList || cs = "nan".toList then true
  else
    let mantissa := cs.takeWhile fun c => c ≠ 'e' && c ≠ 'E'
    let exponent := (cs.drop mantissa.length).drop 1
    let hasExponent := mantissa.length < cs.length
    let front := mantissa.takeWhile (· ≠ '.')
    let fraction := (mantissa.drop front.length).drop 1
    let hasFraction := front.length < mantissa.length
    (hasExponent || hasFraction) && (whole? front).isSome &&
      (!hasFraction || (digits? isDecimal fraction).isSome) &&
      (!hasExponent || (digits? isDecimal (dropSign exponent)).isSome)

/-- The number of two digits, if it is in the range. -/
def twoDigits? (low high : Nat) (a b : Char) : Option Nat :=
  let n := number 10 [a, b]
  if isDecimal a && isDecimal b && low ≤ n && n ≤ high then some n else none

def daysIn (year month : Nat) : Nat :=
  if month = 2 then
    if year % 4 = 0 && (year % 100 ≠ 0 || year % 400 = 0) then 29 else 28
  else if month ∈ [4, 6, 9, 11] then 30
  else 31

/-- A date at the front, and the text after it. -/
def date? : List Char → Option (List Char)
  | a :: b :: c :: d :: '-' :: e :: f :: '-' :: g :: h :: rest => do
    if !([a, b, c, d].all isDecimal) then none
    let month ← twoDigits? 1 12 e f
    let _ ← twoDigits? 1 (daysIn (number 10 [a, b, c, d]) month) g h
    return rest
  | _ => none

/-- A time at the front, and the text after it. -/
def time? : List Char → Option (List Char)
  | a :: b :: ':' :: c :: d :: ':' :: e :: f :: rest => do
    let _ ← twoDigits? 0 23 a b
    let _ ← twoDigits? 0 59 c d
    let _ ← twoDigits? 0 60 e f
    match rest with
    | '.' :: rest =>
      let ds := rest.takeWhile isDecimal
      if ds.isEmpty then none else return rest.drop ds.length
    | rest => return rest
  | _ => none

/-- Whether the text is empty or tells how far a time is from the universal one. -/
def isOffset : List Char → Bool
  | [] => true
  | ['Z'] => true
  | ['z'] => true
  | [sign, a, b, ':', c, d] =>
    (sign = '+' || sign = '-') && (twoDigits? 0 23 a b).isSome && (twoDigits? 0 59 c d).isSome
  | _ => false

/-- Whether the text is a date, a time, or both. -/
def isDateTime (cs : List Char) : Bool :=
  match date? cs with
  | some [] => true
  | some (c :: rest) =>
    (c = 'T' || c = 't' || c = ' ') && ((time? rest).map isOffset).getD false
  | none => time? cs = some []

/-- A value that is neither a string nor holds others, given by its text. -/
def scalar? (cs : List Char) : Option ConfigValue :=
  if cs = "true".toList then some (.bool true)
  else if cs = "false".toList then some (.bool false)
  else
    match integer? cs with
    | some n => some (.int n)
    | none => if isFloat cs || isDateTime cs then some .other else none

/-- Whether a character may belong to such a value. -/
def isScalarChar (c : Char) : Bool :=
  c.isAlphanum || c = '+' || c = '-' || c = '.' || c = '_' || c = ':'

/-- The text of such a value at the front. A blank divides a date from a time. -/
def scalarText (cs : List Char) : List Char :=
  let front := cs.takeWhile isScalarChar
  match date? front, cs.drop front.length with
  | some [], ' ' :: d :: rest =>
    if isDecimal d then front ++ ' ' :: (d :: rest).takeWhile isScalarChar else front
  | _, _ => front

end Rehome.Toml
