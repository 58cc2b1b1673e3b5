/-!
# Digits

Digits of any base up to sixteen, the numbers they write, and the characters that such numbers name.
-/
namespace Rehome.Digit

/-- The value of a digit of base sixteen. -/
def value? (c : Char) : Option Nat :=
  if '0' ≤ c && c ≤ '9' then some (c.toNat - 48)
  else if 'a' ≤ c && c ≤ 'f' then some (c.toNat - 87)
  else if 'A' ≤ c && c ≤ 'F' then some (c.toNat - 55)
  else none

/-- Whether `c` is a digit of the given base. -/
def isOf (base : Nat) (c : Char) : Bool :=
  match value? c with
  | some v => v < base
  | none => false

def isDecimal (c : Char) : Bool := '0' ≤ c && c ≤ '9'

def isOctal (c : Char) : Bool := '0' ≤ c && c ≤ '7'

def isHex (c : Char) : Bool := (value? c).isSome

/-- The number that digits write; what is no digit counts as zero. -/
def number (base : Nat) (cs : List Char) : Nat :=
  cs.foldl (fun n c => base * n + (value? c).getD 0) 0

/-- The character whose number is written in base sixteen. -/
def charOfHex? (cs : List Char) : Option Char :=
  if cs.all isHex then
    if h : (number 16 cs).isValidChar then some (Char.ofNatAux (number 16 cs) h) else none
  else none

/-- Drops a sign. -/
def dropSign : List Char → List Char
  | '+' :: cs => cs
  | '-' :: cs => cs
  | cs => cs

end Rehome.Digit
