import Rehome.Ecma.Module
import Rehome.Path.Basic
import Rehome.Sort
import Rehome.Specifier.Basic

/-!
# Collecting specifiers from a module

The occurrences of a module are read off its tree: the declarations that name a module, and the calls
of `import`, `require` and `require.resolve` whose first argument is a string literal.
-/
namespace Rehome.Specifier

open Ecma (Tree Token NodeKind Dialect)

/-- A token that names a module, and the place of the declaration or call around it. -/
structure Finding where
  kind : Kind
  token : Token
  statement : Span
  deriving DecidableEq, Repr

namespace Finding

/-- The place of a tree; a tree without tokens has an empty one. -/
def spanOf (t : Tree) : Span := ⟨t.start?.getD 0, t.stop?.getD 0⟩

/-- The token of a literal that names a module, among the parts of a declaration. -/
def source? : List Tree → Option Token
  | [] => none
  | .node .source [.leaf token] :: rest =>
    if token.kind.isString then some token else source? rest
  | _ :: rest => source? rest

/-- The literal, if the first argument of a call is one. -/
def firstArgument? : List Tree → Option Token
  | [] => none
  | .node .arguments (_ :: .node .stringLiteral [.leaf token] :: _) :: rest =>
    if token.kind.isString then some token else firstArgument? rest
  | _ :: rest => firstArgument? rest

/-- Whether a callee is the plain name `require` or its member `resolve`. -/
def isRequire : Tree → Bool
  | .node .member [obj, .leaf { kind := .punct .dot, .. }, .leaf { kind := .word name, .. }] =>
    obj.identName? = some "require" && name = "resolve"
  | t => t.identName? = some "require"

/-- How a call names a module, judged by its callee. -/
def callKind? (callee : Tree) : Option Kind :=
  if callee.isKind .importRef then some .dynamicImport
  else if isRequire callee then some .requireCall
  else none

/-- What a call names. -/
def ofCall? (statement : Span) : List Tree → Option Finding
  | [] => none
  | callee :: rest => do
    let kind ← callKind? callee
    let token ← firstArgument? rest
    return { kind, token, statement }

/-- How a declaration names a module. -/
def declarationKind? : NodeKind → Option Kind
  | .importDeclaration => some .staticImport
  | .exportNamed => some .reExport
  | .exportAll => some .wildcardReExport
  | .importEquals => some .requireCall
  | _ => none

mutual
/-- What a tree names, each node before its parts. A declaration that names a module is not
searched further. -/
def ofTree : Tree → List Finding
  | .leaf _ => []
  | .node kind children =>
    let span := spanOf (.node kind children)
    match declarationKind? kind with
    | some k =>
      match source? children with
      | some token => [{ kind := k, token, statement := span }]
      | none => []
    | none =>
      if kind = .call then (ofCall? span children).toList ++ ofTrees children
      else ofTrees children

def ofTrees : List Tree → List Finding
  | [] => []
  | t :: ts => ofTree t ++ ofTrees ts
end

/-- The occurrence at a finding, with all places moved by `shift`. A literal that does not stand
in the text as such, with its quotes, is left out; `width` is the width of the text. -/
def occurrence? (text : List Char) (width shift : Nat) (f : Finding) : Option Occurrence := do
  let literal : Span := ⟨f.token.start + shift, f.token.stop + shift⟩
  let statement : Span := ⟨f.statement.start + shift, f.statement.stop + shift⟩
  if width < statement.stop then none
  let raw ← Text.between? text literal.start literal.stop
  let quote ← raw.head?.bind Quote.ofChar?
  if Text.width raw < 2 then none
  return { kind := f.kind, value := f.token.value, literal, statement, quote }

end Finding

/-- The mark that may stand before the first character of a text. -/
def byteOrderMark : Char := '\ufeff'

/-- Drops a mark at the front. -/
def dropMark : List Char → List Char
  | c :: cs => if c = byteOrderMark then cs else c :: cs
  | [] => []

/-- The dialect of a file, told by its extension. -/
def dialect (path : String) : Dialect :=
  match Path.sourceExtension? path with
  | some ".ts" | some ".mts" | some ".cts" => { typescript := true, markup := false }
  | some ".tsx" => { typescript := true, markup := true }
  | _ => { typescript := false, markup := true }

/-- The occurrences of a text in the order of their literals; none if the text breaks the grammar.
Places count a mark at the front; a second mark is skipped and not counted. -/
def occurrences? (path : String) (text : List Char) : Option (List Occurrence) := do
  let body := dropMark text
  let tree ← Ecma.Module.parse? (dialect path) (dropMark body)
  let width := Text.width text
  let shift := width - Text.width body
  let found := (Finding.ofTree tree).filterMap (Finding.occurrence? text width shift)
  return sortBy (fun a b => a.literal.start ≤ b.literal.start) found

/-- Whether a file is read for specifiers. -/
def handles (path : String) : Bool := (Path.sourceExtension? path).isSome

end Rehome.Specifier
