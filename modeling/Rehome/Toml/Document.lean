import Rehome.Toml.Scalar
import Rehome.Toml.Text

/-!
# Documents in TOML

A document is a sequence of lines: values with their names, and headers that open tables. What a name
stands for is fixed the first time, so a table cannot be opened twice and no value can be given
again.
-/
namespace Rehome.Toml

/-- What a name stands for. -/
inductive Node where
  | value (v : ConfigValue)
  /-- A table. An `implicit` one has been mentioned but not opened; a `dotted` one has been made by
  dotted names of values. -/
  | table (implicit dotted : Bool) (entries : List (String × Node))
  /-- Tables under one name; the last one is open. -/
  | tables (done : List (List (String × Node))) (last : List (String × Node))

abbrev Entries := List (String × Node)

namespace Node

mutual
/-- The value that a node comes to. -/
def toValue : Node → ConfigValue
  | value v => v
  | table _ _ entries => .group (toEntries entries)
  | tables done last => .list (toGroups done ++ [.group (toEntries last)])

def toEntries : List (String × Node) → List (String × ConfigValue)
  | [] => []
  | (name, node) :: rest => (name, toValue node) :: toEntries rest

def toGroups : List (List (String × Node)) → List ConfigValue
  | [] => []
  | entries :: rest => .group (toEntries entries) :: toGroups rest
end

end Node

/-- Looks a name up. -/
def find? (name : String) : Entries → Option Node
  | [] => none
  | (n, node) :: rest => if n = name then some node else find? name rest

/-- Puts a node in the place of the one with the same name, or at the end. -/
def put (name : String) (node : Node) : Entries → Entries
  | [] => [(name, node)]
  | (n, old) :: rest => if n = name then (n, node) :: rest else (n, old) :: put name node rest

/-- Changes the table at a path of headers. Tables on the way that do not exist yet are mentioned. -/
def atPath (change : Entries → Option Entries) : List String → Entries → Option Entries
  | [], entries => change entries
  | name :: path, entries => do
    let node ←
      match find? name entries with
      | none => pure (.table true false (← atPath change path []))
      | some (.table implicit dotted inner) =>
        pure (.table implicit dotted (← atPath change path inner))
      | some (.tables done last) => pure (.tables done (← atPath change path last))
      | some (.value _) => none
    return put name node entries

/-- Opens a table. -/
def openTable (name : String) (entries : Entries) : Option Entries :=
  match find? name entries with
  | none => some (put name (.table false false []) entries)
  | some (.table true false inner) => some (put name (.table false false inner) entries)
  | some _ => none

/-- Opens another one of the tables under a name. -/
def openNext (name : String) (entries : Entries) : Option Entries :=
  match find? name entries with
  | none => some (put name (.tables [] []) entries)
  | some (.tables done last) => some (put name (.tables (done ++ [last]) []) entries)
  | some _ => none

/-- Gives a value to a dotted name. Tables on the way are made by such names or not there yet. -/
def assign (value : ConfigValue) : List String → Entries → Option Entries
  | [], _ => none
  | [name], entries =>
    if (find? name entries).isSome then none else some (put name (.value value) entries)
  | name :: path, entries =>
    match find? name entries with
    | none => (assign value path []).map fun inner => put name (.table true true inner) entries
    | some (.table true dotted inner) =>
      if !dotted && path.length = 1 then none
      else (assign value path inner).map fun inner => put name (.table true dotted inner) entries
    | some _ => none

/-- The end of a line or of the text, after blanks and a comment. Answers the text after it. -/
def lineEnd? (cs : List Char) : Option (List Char) :=
  let cs := skipBlanks cs
  let cs :=
    match cs with
    | '#' :: rest => rest.dropWhile isPlain
    | cs => cs
  match cs with
  | [] => some []
  | '\n' :: rest => some rest
  | '\r' :: '\n' :: rest => some rest
  | _ => none

/-- Skips blanks, comments and line ends; `fuel` bounds the number of lines. -/
def skipLines : (fuel : Nat) → List Char → List Char
  | 0, cs => cs
  | fuel + 1, cs =>
    match skipBlanks cs with
    | '\n' :: rest => skipLines fuel rest
    | '\r' :: rest => if rest.head? = some '\n' then skipLines fuel (rest.drop 1) else '\r' :: rest
    | '#' :: rest =>
      match lineEnd? ('#' :: rest) with
      | some after => skipLines fuel after
      | none => '#' :: rest
    | cs => cs

/-- Skips to the next item of an array. -/
def skipAll (cs : List Char) : List Char := skipLines cs.length cs

mutual
/-- A value and the text after it; `fuel` bounds the steps. -/
def value? : (fuel : Nat) → List Char → Option (ConfigValue × List Char)
  | 0, _ => none
  | fuel + 1, cs =>
    match cs with
    | '"' :: _ => (string? cs).map fun (text, rest) => (.str text, rest)
    | '\'' :: _ => (string? cs).map fun (text, rest) => (.str text, rest)
    | '[' :: cs => (items? fuel (skipAll cs)).map fun (items, rest) => (.list items, rest)
    | '{' :: cs =>
      match skipBlanks cs with
      | '}' :: rest => some (.group [], rest)
      | cs => (pairs? fuel [] cs).map fun (entries, rest) => (.group (Node.toEntries entries), rest)
    | cs =>
      let text := scalarText cs
      (scalar? text).map (·, cs.drop text.length)

/-- The items of an array up to its closing bracket. -/
def items? : (fuel : Nat) → List Char → Option (List ConfigValue × List Char)
  | 0, _ => none
  | fuel + 1, cs =>
    match cs with
    | ']' :: rest => some ([], rest)
    | cs => do
      let (item, rest) ← value? fuel cs
      match skipAll rest with
      | ',' :: rest =>
        let (items, rest) ← items? fuel (skipAll rest)
        return (item :: items, rest)
      | ']' :: rest => return ([item], rest)
      | _ => none

/-- The pairs of a table on one line up to its closing brace. -/
def pairs? : (fuel : Nat) → Entries → List Char → Option (Entries × List Char)
  | 0, _, _ => none
  | fuel + 1, entries, cs => do
    let (path, rest) ← names? (cs.length + 1) cs
    match rest with
    | '=' :: rest =>
      let (value, rest) ← value? fuel (skipBlanks rest)
      let entries ← assign value path entries
      match skipBlanks rest with
      | ',' :: rest => pairs? fuel entries rest
      | '}' :: rest => return (entries, rest)
      | _ => none
    | _ => none
end

/-- What has been read: everything so far, and the path of the open table. -/
structure State where
  entries : Entries
  path : List String

/-- Reads a header that ends with `closing`; `opening` opens its table. -/
def header? (opening : String → Entries → Option Entries) (closing : List Char) (s : State)
    (cs : List Char) : Option (State × List Char) := do
  let (path, rest) ← names? (cs.length + 1) cs
  if closing.isPrefixOf rest then
    let name ← path.getLast?
    let entries ← atPath (opening name) path.dropLast s.entries
    return (⟨entries, path⟩, rest.drop closing.length)
  else none

/-- Reads what stands on a line: a header, a value with its name, or nothing. -/
def expression? (s : State) (cs : List Char) : Option (State × List Char) :=
  match skipBlanks cs with
  | '[' :: '[' :: cs => header? openNext [']', ']'] s cs
  | '[' :: cs => header? openTable [']'] s cs
  | [] => some (s, [])
  | '#' :: cs => some (s, '#' :: cs)
  | '\n' :: cs => some (s, '\n' :: cs)
  | '\r' :: cs => some (s, '\r' :: cs)
  | cs => do
    let (path, rest) ← names? (cs.length + 1) cs
    match rest with
    | '=' :: rest =>
      let rest := skipBlanks rest
      let (value, rest) ← value? (2 * rest.length + 2) rest
      return ({ s with entries := ← atPath (assign value path) s.path s.entries }, rest)
    | _ => none

/-- Reads line after line, at most `fuel` of them. -/
def lines? : (fuel : Nat) → State → List Char → Option State
  | 0, _, _ => none
  | fuel + 1, s, cs => do
    let (s, rest) ← expression? s cs
    match rest with
    | [] => return s
    | rest => lines? fuel s (← lineEnd? rest)

/-- Reads a document. A mark before the first character is dropped. -/
def read? (text : String) : Option ConfigValue := do
  let cs := text.toList
  let cs := if cs.head? = some '\ufeff' then cs.drop 1 else cs
  let s ← lines? (cs.length + 1) ⟨[], []⟩ cs
  return .group (Node.toEntries s.entries)

end Rehome.Toml
