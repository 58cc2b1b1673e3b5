import Rehome.Sort
import Rehome.Specifier.Basic
import Rehome.Text.Bytes

/-!
# Editing a text

An edit puts other characters in the place of a range of bytes. Everything outside the ranges stays
as it is.
-/
namespace Rehome.Specifier

structure Edit where
  span : Span
  text : List Char
  deriving DecidableEq, Repr

namespace Edit

/-- Applies edits in the order given, from byte `cursor` of the text on. An edit that starts before
the cursor, or reaches beyond the text, is left out. -/
def applyFrom (text : List Char) : Nat → List Edit → List Char
  | cursor, [] => (Text.dropBytes? cursor text).getD []
  | cursor, e :: es =>
    if e.span.start < cursor || Text.width text < e.span.stop then applyFrom text cursor es
    else
      match Text.between? text cursor e.span.start with
      | some before => before ++ e.text ++ applyFrom text e.span.stop es
      | none => applyFrom text cursor es

/-- Applies edits in the order of their places; of two that start alike, the first one given. -/
def applyAll (text : List Char) (edits : List Edit) : List Char :=
  applyFrom text 0 (sortBy (fun a b => a.span.start ≤ b.span.start) edits)

end Edit

/-- Gives the matching specifiers other values. The literals are written in the quotes that most
literals of the text have, or else in their own. None if nothing changes. -/
def replace? (found : List Occurrence) (text : List Char) (chosen : String → Bool)
    (change : String → String) : Option (List Char) :=
  let quote? := dominantQuote? found
  let edits := (found.filter (chosen ·.value)).filterMap fun o =>
    let value := change o.value
    if value = o.value then none
    else some { span := o.literal, text := (quote?.getD o.quote).literal value.toList : Edit }
  if edits.isEmpty then none else some (Edit.applyAll text edits)

/-- What belongs to a line after the end of a statement: a semicolon, blanks and one line break. -/
def lineTail (cs : List Char) : List Char :=
  let (semicolon, cs) :=
    match cs with
    | ';' :: rest => ([';'], rest)
    | _ => ([], cs)
  let blanks := cs.takeWhile fun c => c = ' ' || c = '\t'
  let ending :=
    match cs.drop blanks.length with
    | '\r' :: '\n' :: _ => ['\r', '\n']
    | '\n' :: _ => ['\n']
    | _ => []
  semicolon ++ blanks ++ ending

/-- The end of the line whose statement ends at byte `stop`. -/
def lineEnd (text : List Char) (stop : Nat) : Nat :=
  match Text.dropBytes? stop text with
  | some rest => stop + Text.width (lineTail rest)
  | none => stop

/-- Removes the matching re-exports with the rest of their lines. None if there are none. -/
def removeExports? (found : List Occurrence) (text : List Char) (chosen : String → Bool) :
    Option (List Char) :=
  let edits := (found.filter fun o => o.kind.isExport && chosen o.value).map fun o =>
    { span := ⟨o.statement.start, lineEnd text o.statement.stop⟩, text := [] : Edit }
  if edits.isEmpty then none else some (Edit.applyAll text edits)

/-- Whether a literal of the text may have the value: the text holds it, or holds an escape. -/
def mayContain (text : List Char) (value : String) : Bool :=
  Text.contains value.toList text || text.contains '\\'

/-- The statement that passes on all exports of a module. -/
def wildcardExport (quote : Quote) (specifier : String) : List Char :=
  "export * from ".toList ++ quote.literal specifier.toList ++ [';', '\n']

/-- Adds a statement on a line of its own at the end of the text. -/
def appendLine (text statement : List Char) : List Char :=
  if text.isEmpty || text.getLast? = some '\n' then text ++ statement
  else text ++ '\n' :: statement

end Rehome.Specifier
