/-!
# Occurrences of specifiers

A specifier is the text by which one module names another. An occurrence is a string literal that
holds one, together with the declaration or call it belongs to.
-/
namespace Rehome.Specifier

/-- A range of bytes, from `start` up to but not including `stop`. -/
structure Span where
  start : Nat
  stop : Nat
  deriving DecidableEq, Repr

/-- The quotes of a string literal. -/
inductive Quote where
  | single
  | double
  deriving DecidableEq, Repr

namespace Quote

def toChar : Quote → Char
  | single => '\''
  | double => '"'

def ofChar? : Char → Option Quote
  | '\'' => some single
  | '"' => some double
  | _ => none

/-- The characters of a value between quotes. The quote itself and the backslash are escaped. -/
def escape (q : Quote) : List Char → List Char
  | [] => []
  | c :: cs => if c = q.toChar || c = '\\' then '\\' :: c :: escape q cs else c :: escape q cs

/-- A string literal for the value. -/
def literal (q : Quote) (value : List Char) : List Char :=
  q.toChar :: escape q value ++ [q.toChar]

end Quote

/-- The ways a module names another. -/
inductive Kind where
  /-- `import … from 'x'` and `import 'x'`. -/
  | staticImport
  /-- `export { … } from 'x'` and `export * as n from 'x'`. -/
  | reExport
  /-- `export * from 'x'`. -/
  | wildcardReExport
  /-- `import('x')`. -/
  | dynamicImport
  /-- `require('x')` and `require.resolve('x')`. -/
  | requireCall
  deriving DecidableEq, Repr

/-- Whether the module passes on what the other module exports. -/
def Kind.isExport : Kind → Bool
  | reExport | wildcardReExport => true
  | _ => false

/-- A specifier in a text: its decoded value, the place of its literal with the quotes, and the
place of the declaration or call around it. -/
structure Occurrence where
  kind : Kind
  value : String
  literal : Span
  statement : Span
  quote : Quote
  deriving DecidableEq, Repr

/-- The quotes that most of the literals use; none on a tie. -/
def dominantQuote? (found : List Occurrence) : Option Quote :=
  let single := (found.filter (·.quote = .single)).length
  let double := found.length - single
  if double < single then some .single
  else if single < double then some .double
  else none

end Rehome.Specifier
