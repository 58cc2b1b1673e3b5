import Rehome.Ecma.Token.StringLiteral

/-!
# Template characters

The text of a template between its backquotes and holes. An escape that a string literal would
refuse, or one in octal, makes the piece invalid without ending it: a tag may still read it raw.
-/
namespace Rehome.Ecma.Template

open Character

/-- Whether the text after a backslash is an escape a template allows. -/
def isEscape (cs : List Char) : Bool :=
  match cs with
  | '0' :: d :: _ => !Digit.isOctal d
  | c :: _ => if c = '0' || !Digit.isOctal c then (StringLiteral.escape? cs).isSome else false
  | [] => false

/-- Reads up to the closing backquote or the opening of a hole, and takes it. -/
def chunk? : List Char → Option Cut
  | [] => none
  | '`' :: cs => some { kind := .chunk true true, taken := ['`'], rest := cs }
  | '$' :: '{' :: cs => some { kind := .chunk false true, taken := ['$', '{'], rest := cs }
  | '\\' :: c :: cs =>
    (chunk? cs).map fun cut =>
      let kind :=
        match cut.kind with
        | .chunk closing valid => .chunk closing (valid && isEscape (c :: cs))
        | kind => kind
      { cut with kind, taken := '\\' :: c :: cut.taken }
  | c :: cs => (chunk? cs).map fun cut => { cut with taken := c :: cut.taken }

end Rehome.Ecma.Template
