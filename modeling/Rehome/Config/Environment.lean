import Rehome.Config.Value
import Rehome.Text.Digit

/-!
# Settings in environment variables

The name of a variable is a lead, and then the names of nested groups with two underscores between
them. Its value is read as a truth value, a number, a quoted string, a list or a group; anything else
is a string as it stands.
-/
namespace Rehome.Environment

open Digit

def isBlank (c : Char) : Bool := c = ' ' || c = '\t' || c = '\n' || c = '\x0c' || c = '\r'

def skipBlanks (cs : List Char) : List Char := cs.dropWhile isBlank

/-- Drops blanks at both ends. -/
def trim (cs : List Char) : List Char := (skipBlanks (skipBlanks cs).reverse).reverse

/-- Whether a character ends a word inside a list or a group. -/
def separates (c : Char) : Bool := c = ',' || c = '{' || c = '}' || c = '[' || c = ']'

/-- At least one digit and nothing else. -/
def isDigits (cs : List Char) : Bool := !cs.isEmpty && cs.all isDecimal

/-- How many numbers 64 bits can tell apart. -/
def wordCount : Nat := 18446744073709551616

/-- A whole number of 64 bits, with or without a sign. -/
def integer? : List Char → Option Int
  | '-' :: cs =>
    if isDigits cs && number 10 cs ≤ wordCount / 2 then some (-(number 10 cs : Int)) else none
  | '+' :: cs => if isDigits cs && number 10 cs < wordCount then some (number 10 cs) else none
  | cs => if isDigits cs && number 10 cs < wordCount then some (number 10 cs) else none

/-- Whether a text with a point is a number. -/
def isFraction (cs : List Char) : Bool :=
  let cs := dropSign cs
  let mantissa := cs.takeWhile fun c => c ≠ 'e' && c ≠ 'E'
  let exponent := (cs.drop mantissa.length).drop 1
  let front := mantissa.takeWhile (· ≠ '.')
  let fraction := (mantissa.drop front.length).drop 1
  mantissa.contains '.' && front.all isDecimal && fraction.all isDecimal &&
    !(front.isEmpty && fraction.isEmpty) &&
    (mantissa.length = cs.length || isDigits (dropSign exponent))

/-- A word: a number, or else a string. -/
def word (cs : List Char) : ConfigValue :=
  let text := trim cs
  if isFraction text then .other
  else
    match integer? text with
    | some n => .int n
    | none => .str (String.ofList text)

/-- The rest of a quoted string after its quote. -/
def quoted? : List Char → Option (List Char × List Char)
  | [] => none
  | '"' :: cs => some ([], cs)
  | '\\' :: 'u' :: a :: b :: c :: d :: cs => do
    let ch ← charOfHex? [a, b, c, d]
    let (text, rest) ← quoted? cs
    return (ch :: text, rest)
  | '\\' :: 'U' :: a :: b :: c :: d :: e :: f :: g :: h :: cs => do
    let ch ← charOfHex? [a, b, c, d, e, f, g, h]
    let (text, rest) ← quoted? cs
    return (ch :: text, rest)
  | '\\' :: e :: cs => do
    let ch ←
      match e with
      | '"' => some '"'
      | '\\' => some '\\'
      | 'b' => some '\x08'
      | 'f' => some '\x0c'
      | 'n' => some '\n'
      | 'r' => some '\r'
      | 't' => some '\t'
      | _ => none
    let (text, rest) ← quoted? cs
    return (ch :: text, rest)
  | c :: cs => do
    if c = '\\' || (c < ' ' && c ≠ '\t') || c = '\x7f' then none
    let (text, rest) ← quoted? cs
    return (c :: text, rest)

/-- A name in a group. -/
def name? (cs : List Char) : Option (String × List Char) :=
  match cs with
  | '"' :: cs => (quoted? cs).map fun (text, rest) => (String.ofList text, rest)
  | cs =>
    let bare := cs.takeWhile fun c => c.isAlphanum || c = '_' || c = '-'
    if bare.isEmpty then none else some (String.ofList bare, cs.drop bare.length)

mutual
/-- A value with blanks around it, and the text after it; `fuel` bounds the steps. -/
def value? : (fuel : Nat) → List Char → Option (ConfigValue × List Char)
  | 0, _ => none
  | fuel + 1, cs => do
    let (value, rest) ←
      match skipBlanks cs with
      | 't' :: 'r' :: 'u' :: 'e' :: rest => some (.bool true, rest)
      | 'f' :: 'a' :: 'l' :: 's' :: 'e' :: rest => some (.bool false, rest)
      | '{' :: rest => (pairs? fuel rest).map fun (entries, rest) => (.group entries, rest)
      | '[' :: rest => (items? fuel rest).map fun (items, rest) => (.list items, rest)
      | '"' :: rest => (quoted? rest).map fun (text, rest) => (.str (String.ofList text), rest)
      | '\'' :: rest =>
        match rest with
        | c :: '\'' :: rest => some (.str (String.ofList [c]), rest)
        | _ => none
      | cs =>
        let text := cs.takeWhile (!separates ·)
        some (word text, cs.drop text.length)
    return (value, skipBlanks rest)

/-- The items of a list up to its closing bracket. -/
def items? : (fuel : Nat) → List Char → Option (List ConfigValue × List Char)
  | 0, _ => none
  | fuel + 1, cs =>
    match cs with
    | ']' :: rest => some ([], rest)
    | cs => do
      let (item, rest) ← value? fuel cs
      match rest with
      | ',' :: rest =>
        let (items, rest) ← items? fuel rest
        return (item :: items, rest)
      | ']' :: rest => return ([item], rest)
      | _ => none

/-- The entries of a group up to its closing brace. -/
def pairs? : (fuel : Nat) → List Char → Option (List (String × ConfigValue) × List Char)
  | 0, _ => none
  | fuel + 1, cs =>
    match cs with
    | '}' :: rest => some ([], rest)
    | cs => do
      let (name, rest) ← name? (skipBlanks cs)
      match skipBlanks rest with
      | '=' :: rest =>
        let (value, rest) ← value? fuel rest
        match rest with
        | ',' :: rest =>
          let (entries, rest) ← pairs? fuel rest
          return (if entries.any (·.1 = name) then entries else (name, value) :: entries, rest)
        | '}' :: rest => return ([(name, value)], rest)
        | _ => none
      | _ => none
end

/-- The value that a text stands for. -/
def read (text : String) : ConfigValue :=
  let cs := text.toList
  match value? (2 * cs.length + 2) cs with
  | some (value, []) => value
  | _ => .str (String.ofList (trim cs))

/-- What follows the lead of a name, in any letter case. -/
def dropLead? : List Char → List Char → Option (List Char)
  | [], cs => some cs
  | _ :: _, [] => none
  | l :: ls, c :: cs => if l.toLower = c.toLower then dropLead? ls cs else none

/-- Turns two underscores into a dot, from left to right. -/
def dotted : List Char → List Char
  | '_' :: '_' :: cs => '.' :: dotted cs
  | c :: cs => c :: dotted cs
  | [] => []

/-- The names of nested groups that a variable gives a value to, if it has the lead and none of the
names is empty. -/
def path? (lead name : String) : Option (List String) := do
  let rest ← dropLead? lead.toList (trim name.toList)
  let names := ((trim (dotted rest)).map Char.toLower).splitOn '.'
  if names.any (·.isEmpty) then none else return names.map String.ofList

/-- A value inside nested groups. -/
def nest (value : ConfigValue) : List String → ConfigValue
  | [] => value
  | name :: path => .group [(name, nest value path)]

/-- The settings that some variables make. -/
def settings (lead : String) (entries : List (String × String)) : ConfigValue :=
  (entries.filterMap fun (name, text) => (path? lead name).map (nest (read text))).foldl
    ConfigValue.overlay (.group [])

end Rehome.Environment
