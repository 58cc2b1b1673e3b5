import Rehome.Ecma.Grammar.Module

/-!
# Modules

A text is read as a module of one of three dialects. Offsets count from the first byte of the text.
-/
namespace Rehome.Ecma

/-- Which parts the language of a module has besides its core. -/
structure Dialect where
  /-- Type annotations and declarations. -/
  typescript : Bool
  /-- Elements of markup as expressions. -/
  markup : Bool
  deriving DecidableEq, Repr

namespace Module

/-- The text after a first line that names an interpreter, and the bytes of that line. -/
def skipInterpreter : List Char → Nat × List Char
  | '#' :: '!' :: cs =>
    let line := cs.takeWhile (!Character.isLineBreak ·)
    (2 + Text.width line, cs.drop line.length)
  | cs => (0, cs)

/-- The circumstances at the start of a module. -/
def context (d : Dialect) : Context := { typescript := d.typescript, markup := d.markup }

/-- The tree of a module, unless the text breaks the grammar. -/
def parse? (d : Dialect) (text : List Char) : Option Tree :=
  let (offset, body) := skipInterpreter text
  let start := Reader.start offset body
  match Rule.follow Nonterminal.rule start.left .program (context d) start with
  | .ok () r => r.stack.head?
  | .failed _ => none

end Module
end Rehome.Ecma
