import Rehome.Ecma.Token

/-!
# Syntax trees

A tree keeps every token it was built from, in order: its leaves are tokens, and a node groups what
belongs together. The place of a node runs from its first to its last token.
-/
namespace Rehome.Ecma

/-- What a node is. -/
inductive NodeKind where
  -- expressions
  | ident | stringLiteral | literal | template | tagged | array | object | functionNode | arrow
  | classNode | paren | sequence | unary | update | awaitExpr | yieldExpr | binary | assign | conditional
  | member | index | optional | call | optionalCall | construct | superRef | importRef | metaProperty
  | nonNull | asType | asConst | satisfies | assertion | instantiation | markup | privateName
  | spread | missing
  -- parts of expressions
  | arguments | shorthand | shorthandDefault | property | method
  -- bindings and functions
  | pattern | parameter | parameters | decorator | heritage | classMember
  -- types
  | type | typeArguments | typeParameters | typeMember
  -- statements and declarations
  | block | statement | declaration | label
  -- imports and exports
  | source | importDeclaration | exportNamed | exportAll | importEquals | exportOther
  | attributes | program
  deriving DecidableEq, Repr

inductive Tree where
  | leaf (token : Token)
  | node (kind : NodeKind) (children : List Tree)

namespace Tree

mutual
/-- The tokens of a tree, in order. -/
def tokens : Tree → List Token
  | leaf t => [t]
  | node _ children => tokensOf children

def tokensOf : List Tree → List Token
  | [] => []
  | t :: ts => tokens t ++ tokensOf ts
end

mutual
/-- The offset of the first token; a node without tokens has none. -/
def start? : Tree → Option Nat
  | leaf t => some t.start
  | node _ children => startOf? children

def startOf? : List Tree → Option Nat
  | [] => none
  | t :: ts => (start? t).or (startOf? ts)
end

mutual
/-- The offset after the last token; a node without tokens has none. -/
def stop? : Tree → Option Nat
  | leaf t => some t.stop
  | node _ children => stopOf? children

def stopOf? : List Tree → Option Nat
  | [] => none
  | t :: ts => (stopOf? ts).or (stop? t)
end

def isKind (kind : NodeKind) : Tree → Bool
  | node k _ => k = kind
  | leaf _ => false

/-- The name, if the tree is an identifier that stands for a value. -/
def identName? : Tree → Option String
  | node .ident [leaf { kind := .word name, .. }] => some name
  | _ => none

mutual
/-- Whether an expression can be taken for a pattern: no method stands where a pattern has its
parts. Parts that are no patterns are complained about elsewhere. -/
def readsAsPattern : Tree → Bool
  | node .object children => partsReadAsPattern children
  | node .array children => partsReadAsPattern children
  | node .property children => partsReadAsPattern children
  | node .spread children => partsReadAsPattern children
  | node .method _ => false
  | _ => true

def partsReadAsPattern : List Tree → Bool
  | [] => true
  | t :: ts => readsAsPattern t && partsReadAsPattern ts
end

/-- Whether an expression can stand to the left of an operator that assigns. -/
def isSimpleTarget : Tree → Bool
  | node k _ =>
    match k with
    | .ident | .member | .index | .optional | .optionalCall | .paren | .asType | .satisfies
    | .nonNull | .assertion | .instantiation => true
    | _ => false
  | leaf _ => false

/-- Whether an expression can stand to the left of `=`. -/
def isTarget (t : Tree) : Bool :=
  t.isSimpleTarget || t.isKind .missing ||
    ((t.isKind .array || t.isKind .object) && t.readsAsPattern)

/-- Whether a node of the given kind stands directly below the tree. -/
def hasChild (kind : NodeKind) : Tree → Bool
  | node _ children => children.any (isKind kind)
  | leaf _ => false

/-- Whether only tokens stand directly below the tree. -/
def hasOnlyTokens : Tree → Bool
  | node _ children => children.all fun | leaf _ => true | node _ _ => false
  | leaf _ => true

/-- Whether each part of a parenthesised list can be taken for a parameter. -/
def readsAsParameters : Tree → Bool
  | node _ children => partsReadAsPattern children
  | leaf _ => true

/-- Whether the tree is an optional chain, or a member of one. -/
def isOptionalChain : Tree → Bool
  | node .optional _ | node .optionalCall _ => true
  | node .member (obj :: _) => obj.isKind .optional || obj.isKind .optionalCall
  | _ => false

end Tree

/-- What a rule of the grammar may ask of a finished tree. No answer depends on the place of a token
or on the contents of a string literal. -/
inductive Query where
  | isKind (kind : NodeKind)
  | isIdent (name : String)
  | isTarget
  | isSimpleTarget
  | readsAsPattern
  | readsAsParameters
  | hasChild (kind : NodeKind)
  | hasOnlyTokens
  | isOptionalChain
  deriving DecidableEq, Repr

def Query.holds : Query → Tree → Bool
  | isKind kind, t => t.isKind kind
  | isIdent name, t => t.identName? = some name
  | isTarget, t => t.isTarget
  | isSimpleTarget, t => t.isSimpleTarget
  | readsAsPattern, t => t.readsAsPattern
  | readsAsParameters, t => t.readsAsParameters
  | hasChild kind, t => t.hasChild kind
  | hasOnlyTokens, t => t.hasOnlyTokens
  | isOptionalChain, t => t.isOptionalChain

end Rehome.Ecma
