import Rehome.Text.Digit

/-!
# Strings and names in TOML

Basic strings have escapes and literal ones have none. Both also come in a form that runs over
several lines.
-/
namespace Rehome.Toml

/-- Whether a character may stand for itself on a line. -/
def isPlain (c : Char) : Bool := c = '\t' || (' ' ≤ c && c ≠ '\x7f')

/-- The character of a one-letter escape. -/
def simpleEscape? : Char → Option Char
  | 'b' => some '\x08'
  | 't' => some '\t'
  | 'n' => some '\n'
  | 'f' => some '\x0c'
  | 'r' => some '\r'
  | '"' => some '"'
  | '\\' => some '\\'
  | _ => none

/-- The rest of a basic string after its quote, and the text after it. -/
def basic? : List Char → Option (List Char × List Char)
  | [] => none
  | '"' :: cs => some ([], cs)
  | '\\' :: 'u' :: a :: b :: c :: d :: cs => do
    let ch ← Digit.charOfHex? [a, b, c, d]
    let (text, rest) ← basic? cs
    return (ch :: text, rest)
  | '\\' :: 'U' :: a :: b :: c :: d :: e :: f :: g :: h :: cs => do
    let ch ← Digit.charOfHex? [a, b, c, d, e, f, g, h]
    let (text, rest) ← basic? cs
    return (ch :: text, rest)
  | '\\' :: e :: cs => do
    let ch ← simpleEscape? e
    let (text, rest) ← basic? cs
    return (ch :: text, rest)
  | c :: cs => do
    if !isPlain c || c = '\\' then none
    let (text, rest) ← basic? cs
    return (c :: text, rest)

/-- The rest of a literal string after its quote. -/
def literal? : List Char → Option (List Char × List Char)
  | [] => none
  | c :: cs =>
    if c = '\'' then some ([], cs)
    else if isPlain c then (literal? cs).map fun (text, rest) => (c :: text, rest)
    else none

/-- Whether only blanks stand before the end of the line. -/
def endsLine (cs : List Char) : Bool :=
  match cs.dropWhile fun c => c = ' ' || c = '\t' with
  | '\n' :: _ => true
  | '\r' :: '\n' :: _ => true
  | _ => false

/-- The rest of a basic string over several lines. A backslash at the end of a line takes the blanks
and line ends after it away; with `skipping` those are being passed over. Up to two quotes may stand
before the closing ones. -/
def basicLines? : (skipping : Bool) → List Char → Option (List Char × List Char)
  | _, [] => none
  | skipping, '"' :: '"' :: '"' :: cs =>
    match skipping, cs with
    | _, '"' :: '"' :: cs => some (['"', '"'], cs)
    | _, '"' :: cs => some (['"'], cs)
    | _, cs => some ([], cs)
  | skipping, '\r' :: '\n' :: cs =>
    if skipping then basicLines? true cs
    else (basicLines? false cs).map fun (text, rest) => ('\n' :: text, rest)
  | _, '\\' :: 'u' :: a :: b :: c :: d :: cs => do
    let ch ← Digit.charOfHex? [a, b, c, d]
    let (text, rest) ← basicLines? false cs
    return (ch :: text, rest)
  | _, '\\' :: 'U' :: a :: b :: c :: d :: e :: f :: g :: h :: cs => do
    let ch ← Digit.charOfHex? [a, b, c, d, e, f, g, h]
    let (text, rest) ← basicLines? false cs
    return (ch :: text, rest)
  | _, '\\' :: e :: cs =>
    match simpleEscape? e with
    | some ch => (basicLines? false cs).map fun (text, rest) => (ch :: text, rest)
    | none => if endsLine (e :: cs) then basicLines? true (e :: cs) else none
  | skipping, c :: cs =>
    if skipping && (c = ' ' || c = '\t' || c = '\n') then basicLines? true cs
    else if (isPlain c || c = '\n') && c ≠ '\\' then
      (basicLines? false cs).map fun (text, rest) => (c :: text, rest)
    else none

/-- The rest of a literal string over several lines. -/
def literalLines? : List Char → Option (List Char × List Char)
  | [] => none
  | '\'' :: '\'' :: '\'' :: cs =>
    match cs with
    | '\'' :: '\'' :: cs => some (['\'', '\''], cs)
    | '\'' :: cs => some (['\''], cs)
    | cs => some ([], cs)
  | '\r' :: '\n' :: cs => (literalLines? cs).map fun (text, rest) => ('\n' :: text, rest)
  | c :: cs =>
    if isPlain c || c = '\n' then (literalLines? cs).map fun (text, rest) => (c :: text, rest)
    else none

/-- Drops a line end. -/
def dropLineEnd : List Char → List Char
  | '\n' :: cs => cs
  | '\r' :: '\n' :: cs => cs
  | cs => cs

/-- A string in any of the four forms. -/
def string? : List Char → Option (String × List Char)
  | '"' :: '"' :: '"' :: cs => finish (basicLines? false (dropLineEnd cs))
  | '\'' :: '\'' :: '\'' :: cs => finish (literalLines? (dropLineEnd cs))
  | '"' :: cs => finish (basic? cs)
  | '\'' :: cs => finish (literal? cs)
  | _ => none
where
  finish (r : Option (List Char × List Char)) : Option (String × List Char) :=
    r.map fun (text, rest) => (String.ofList text, rest)

/-- Whether a character may stand in a name without quotes. -/
def isBare (c : Char) : Bool := c.isAlphanum || c = '_' || c = '-'

/-- Skips blanks on a line. -/
def skipBlanks (cs : List Char) : List Char := cs.dropWhile fun c => c = ' ' || c = '\t'

/-- One name. -/
def name? (cs : List Char) : Option (String × List Char) :=
  match cs with
  | '"' :: cs => (basic? cs).map fun (text, rest) => (String.ofList text, rest)
  | '\'' :: cs => (literal? cs).map fun (text, rest) => (String.ofList text, rest)
  | cs =>
    let bare := cs.takeWhile isBare
    if bare.isEmpty then none else some (String.ofList bare, cs.drop bare.length)

/-- Names separated by dots, with blanks around each, at most `fuel` of them. -/
def names? : (fuel : Nat) → List Char → Option (List String × List Char)
  | 0, _ => none
  | fuel + 1, cs => do
    let (name, rest) ← name? (skipBlanks cs)
    match skipBlanks rest with
    | '.' :: rest =>
      let (names, rest) ← names? fuel rest
      return (name :: names, rest)
    | rest => return ([name], rest)

end Rehome.Toml
