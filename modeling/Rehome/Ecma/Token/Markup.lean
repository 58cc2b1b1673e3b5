import Rehome.Ecma.Character
import Rehome.Ecma.Token

/-!
# Markup tokens

Between the tags of an element the text is read by its own rules: everything up to the next tag or
hole is text, names may hold hyphens, and quoted attributes know no escapes.
-/
namespace Rehome.Ecma.Markup

open Character

/-- Whether `c` ends a run of text. -/
def endsText (c : Char) : Bool := c = '<' || c = '{'

/-- Reads what stands between tags: a run of text, or the punctuator that ends one. -/
def child? : List Char → Option Cut
  | [] => none
  | '<' :: cs => some { kind := .punct .lt, taken := ['<'], rest := cs }
  | '{' :: cs => some { kind := .punct .lbrace, taken := ['{'], rest := cs }
  | c :: cs =>
    some { kind := .jsxText, taken := c :: cs.takeWhile (!endsText ·),
           rest := cs.dropWhile (!endsText ·) }

def isNamePart (c : Char) : Bool := isIdPart c || c = '-'

/-- Reads the name of a tag or an attribute, which starts with `c`. -/
def name (c : Char) (cs : List Char) : Cut :=
  let taken := c :: cs.takeWhile isNamePart
  { kind := .jsxName (String.ofList taken), taken, rest := cs.dropWhile isNamePart }

/-- Reads an attribute value after its opening quote `q`; it may span lines. -/
def quoted? (q : Char) (cs : List Char) : Option Cut :=
  match cs.dropWhile (· ≠ q) with
  | [] => none
  | _ :: rest => some { kind := .jsxString, taken := q :: cs.takeWhile (· ≠ q) ++ [q], rest }

end Rehome.Ecma.Markup
