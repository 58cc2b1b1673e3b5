import Rehome.Json.Basic
import Rehome.Text.Digit

/-!
# Reading JSON

The text holds one value and blanks around it, and nothing else is let through.
-/
namespace Rehome.JsonValue

/-- Skips blanks. -/
def skipBlanks (cs : List Char) : List Char :=
  cs.dropWhile fun c => c = ' ' || c = '\n' || c = '\r' || c = '\t'

/-- The character of a one-letter escape. -/
def simpleEscape? : Char → Option Char
  | '"' => some '"'
  | '\\' => some '\\'
  | '/' => some '/'
  | 'b' => some '\x08'
  | 'f' => some '\x0c'
  | 'n' => some '\n'
  | 'r' => some '\r'
  | 't' => some '\t'
  | _ => none

/-- A part of a string: a character, or half of a pair that makes one. -/
inductive Unit16 where
  | char (c : Char)
  | high (n : Nat)
  | low (n : Nat)

def unit16 (n : Nat) : Unit16 :=
  if 0xd800 ≤ n ∧ n < 0xdc00 then .high n
  else if 0xdc00 ≤ n ∧ n < 0xe000 then .low n
  else .char (Char.ofNat n)

/-- The parts of a string literal after its opening quote, and the text after it. -/
def stringParts? : List Char → Option (List Unit16 × List Char)
  | [] => none
  | '"' :: cs => some ([], cs)
  | '\\' :: 'u' :: a :: b :: c :: d :: cs => do
    if !([a, b, c, d].all Digit.isHex) then none
    let (parts, rest) ← stringParts? cs
    return (unit16 (Digit.number 16 [a, b, c, d]) :: parts, rest)
  | '\\' :: e :: cs => do
    let c ← simpleEscape? e
    let (parts, rest) ← stringParts? cs
    return (.char c :: parts, rest)
  | c :: cs => do
    if c < ' ' || c = '\\' then none
    let (parts, rest) ← stringParts? cs
    return (.char c :: parts, rest)

/-- The characters of the parts; halves of pairs must stand in pairs. -/
def joinParts? : List Unit16 → Option (List Char)
  | [] => some []
  | .high h :: .low l :: parts =>
    (joinParts? parts).map (Char.ofNat (0x10000 + (h - 0xd800) * 0x400 + (l - 0xdc00)) :: ·)
  | .char c :: parts => (joinParts? parts).map (c :: ·)
  | _ :: _ => none

/-- A string literal after its opening quote. -/
def string? (cs : List Char) : Option (Option String × List Char) := do
  let (parts, rest) ← stringParts? cs
  return ((joinParts? parts).map String.ofList, rest)

/-- At least one digit, and the text after them. -/
def digits? (cs : List Char) : Option (List Char × List Char) :=
  let ds := cs.takeWhile Digit.isDecimal
  if ds.isEmpty then none else some (ds, cs.drop ds.length)

/-- An optional fraction and exponent. -/
def fraction? (cs : List Char) : Option (List Char × List Char) := do
  let (fraction, cs) ←
    match cs with
    | '.' :: rest => (digits? rest).map fun (ds, rest) => ('.' :: ds, rest)
    | _ => some ([], cs)
  let exponent (e : Char) (rest : List Char) : Option (List Char × List Char) :=
    match rest with
    | '+' :: rest => (digits? rest).map fun (ds, rest) => (fraction ++ e :: '+' :: ds, rest)
    | '-' :: rest => (digits? rest).map fun (ds, rest) => (fraction ++ e :: '-' :: ds, rest)
    | _ => (digits? rest).map fun (ds, rest) => (fraction ++ e :: ds, rest)
  match cs with
  | 'e' :: rest => exponent 'e' rest
  | 'E' :: rest => exponent 'E' rest
  | _ => some (fraction, cs)

/-- A number without its sign. A zero in front stands alone. -/
def magnitude? (cs : List Char) : Option (List Char × List Char) := do
  let (whole, rest) ← digits? cs
  if whole.head? = some '0' && whole.length ≠ 1 then none
  let (fraction, rest) ← fraction? rest
  return (whole ++ fraction, rest)

def number? : List Char → Option (JsonValue × List Char)
  | '-' :: cs => (magnitude? cs).map fun (n, rest) => (.number (String.ofList ('-' :: n)), rest)
  | cs => (magnitude? cs).map fun (n, rest) => (.number (String.ofList n), rest)

/-- A value that holds no others. -/
def scalar? : List Char → Option (JsonValue × List Char)
  | 'n' :: 'u' :: 'l' :: 'l' :: cs => some (.null, cs)
  | 't' :: 'r' :: 'u' :: 'e' :: cs => some (.bool true, cs)
  | 'f' :: 'a' :: 'l' :: 's' :: 'e' :: cs => some (.bool false, cs)
  | '"' :: cs => (string? cs).map fun (s, rest) => (.str s, rest)
  | cs => number? cs

mutual
/-- A value and the text after it; `fuel` bounds the steps. -/
def value? : (fuel : Nat) → List Char → Option (JsonValue × List Char)
  | 0, _ => none
  | fuel + 1, cs =>
    match skipBlanks cs with
    | '[' :: cs =>
      match skipBlanks cs with
      | ']' :: rest => some (.arr [], rest)
      | cs => (items? fuel cs).map fun (items, rest) => (.arr items, rest)
    | '{' :: cs =>
      match skipBlanks cs with
      | '}' :: rest => some (.obj [], rest)
      | cs => (membersFrom? fuel cs).map fun (members, rest) => (.obj members, rest)
    | cs => scalar? cs

/-- The items of an array up to its closing bracket. -/
def items? : (fuel : Nat) → List Char → Option (List JsonValue × List Char)
  | 0, _ => none
  | fuel + 1, cs => do
    let (item, rest) ← value? fuel cs
    match skipBlanks rest with
    | ',' :: rest =>
      let (items, rest) ← items? fuel rest
      return (item :: items, rest)
    | ']' :: rest => return ([item], rest)
    | _ => none

/-- The members of an object up to its closing brace. -/
def membersFrom? : (fuel : Nat) → List Char → Option (List (Option String × JsonValue) × List Char)
  | 0, _ => none
  | fuel + 1, cs => do
    match skipBlanks cs with
    | '"' :: cs =>
      let (name, rest) ← string? cs
      match skipBlanks rest with
      | ':' :: rest =>
        let (value, rest) ← value? fuel rest
        match skipBlanks rest with
        | ',' :: rest =>
          let (members, rest) ← membersFrom? fuel rest
          return ((name, value) :: members, rest)
        | '}' :: rest => return ([(name, value)], rest)
        | _ => none
      | _ => none
    | _ => none
end

/-- Reads a whole text. Every step takes a character, so twice its length is enough. -/
def read? (text : String) : Option JsonValue := do
  let cs := text.toList
  let (j, rest) ← value? (2 * cs.length + 2) cs
  if (skipBlanks rest).isEmpty then return j else none

end Rehome.JsonValue
