import Rehome.Ecma.Grammar.Rule

/-!
# Nonterminals and the vocabulary of rules

The rules that refer to each other are named here. The rest of the module is the small vocabulary the
rules are written in.
-/
namespace Rehome.Ecma

inductive Nonterminal where
  -- types
  | type | simpleType | operatorType | typeArguments (after : ScanMode) | typeParameters
  | typeMembers | returnType (colon : Bool)
  -- bindings and functions
  | binding (noLet : Bool) | parameters (defaults constructor : Bool)
  | functionRest (isAsync isGenerator isExpression constructor : Bool)
  | decorators | classRest (named : Bool)
  -- expressions
  | expression | assignment | assignmentBase | binaryRest (above : Nat) | unary
  | leftHandSide | memberOrNew (isNew : Bool) | primary
  | subscripts (noCall noIndex : Bool) | arguments | object | template (tagged : Bool)
  | element (after : ScanMode)
  -- statements
  | statement (declarations : Bool) | moduleItem | block | namespaceRest
  | variableDeclaration (inForHead : Bool) | program
  deriving DecidableEq, Repr

abbrev Grammar := Rule Nonterminal

namespace Grammar

open Rule (look lookAhead shift mark wrap context within attempt call fail)

def isPunct (p : Punct) : Grammar Bool := do return (← look).kind = .punct p

def isWord (name : String) : Grammar Bool := do return (← look).kind = .word name

def aheadIsPunct (p : Punct) : Grammar Bool := do return (← lookAhead).kind = .punct p

def aheadIsWord (name : String) : Grammar Bool := do return (← lookAhead).kind = .word name

/-- Whether the next token is one of the words. -/
def isWordOf (names : List String) : Grammar Bool := do
  match (← look).kind with
  | .word name => return names.contains name
  | _ => return false

end Grammar

/-- Whether the token is a word. -/
def TokenKind.isWord : TokenKind → Bool
  | .word _ => true
  | _ => false

/-- Whether the token is a word that may name a value. -/
def TokenKind.isReference : TokenKind → Bool
  | .word name => !Word.isReserved name
  | _ => false

/-- Whether the token is a string literal. -/
def TokenKind.isString (k : TokenKind) : Bool := k = .str

namespace Grammar

open Rule (look lookAhead shift mark wrap context within attempt call fail)

def isAnyWord : Grammar Bool := do return (← look).kind.isWord

def isReference : Grammar Bool := do return (← look).kind.isReference

/-- Takes the next token if it is `p`; what follows it is read in the given mode. -/
def eatBefore (after : ScanMode) (p : Punct) : Grammar Bool := do
  if (← isPunct p) then
    Rule.take after
    return true
  return false

/-- Takes the next token if it is `p`. -/
def eat (p : Punct) : Grammar Bool := eatBefore .plain p

/-- Takes the next token if it is the word. -/
def eatWord (name : String) : Grammar Bool := do
  if (← isWord name) then
    shift
    return true
  return false

def expectBefore (after : ScanMode) (p : Punct) : Grammar Unit := do
  if !(← eatBefore after p) then fail

def expect (p : Punct) : Grammar Unit := expectBefore .plain p

def expectWord (name : String) : Grammar Unit := do
  if !(← eatWord name) then fail

/-- Takes a word, reserved or not. -/
def anyWord : Grammar Unit := do
  if (← isAnyWord) then shift else fail

def expectString : Grammar Unit := do
  if (← look).kind.isString then shift else fail

/-- Follows a rule and groups what it read. -/
def node (kind : NodeKind) (p : Grammar Unit) : Grammar Unit := do
  let m ← mark
  p
  wrap kind m

/-- Follows a rule and groups what it read with the tree that was newest before. -/
def onto (kind : NodeKind) (p : Grammar Unit) : Grammar Unit := do
  let m ← mark
  p
  wrap kind (m - 1)

/-- Whether a statement may end here: before a semicolon, a closing brace, the end, or on a new
line. -/
def atTerminator : Grammar Bool := do
  let l ← look
  return l.newline || l.kind = .punct .semicolon || l.kind = .punct .rbrace || l.kind = .eof

/-- Takes a semicolon, or ends the statement where it may end without one. -/
def eatTerminator : Grammar Bool := do
  if (← eat .semicolon) then return true
  atTerminator

def terminator : Grammar Unit := do
  if !(← eatTerminator) then fail

def isTypescript : Grammar Bool := do return (← context).typescript

/-- Follows `p` as long as the closing token has not come; a comma stands between two items and may
follow the last. -/
def commaList (closing : Punct) (item : Grammar Unit) : Grammar Unit :=
  Rule.loop do
    if (← isPunct closing) then return false
    item
    if (← isPunct closing) then return false
    expect .comma
    return true

/-- Whether an angle bracket opens here. -/
def isOpenAngle : Grammar Bool := do
  match (← look).kind with
  | .punct .lt | .punct .shl => return true
  | _ => return false

/-- Whether an angle bracket closes here, also as the start of an operator. -/
def isCloseAngle : Grammar Bool := do
  match (← look).kind with
  | .punct .gt | .punct .gtEq | .punct .shr | .punct .ushr | .punct .shrAssign => return true
  | _ => return false

def openAngle : Grammar Unit := do
  Rule.rescan .angle
  expect .lt

/-- A closing angle bracket; what follows it is read in the given mode. -/
def closeAngle (after : ScanMode) : Grammar Unit := do
  Rule.rescan .angle
  expectBefore after .gt

/-- A colon and a type, if a colon comes and types are part of the language. -/
def typeAnnotation : Grammar Unit := do
  if (← isTypescript) then
    if (← isPunct .colon) then
      shift
      call .type

/-- A word of `names` that stands before what it modifies, on the same line. Answers whether there
was one. -/
def modifier (names : List String) : Grammar Bool := do
  if (← isWordOf names) then
    attempt
      (do
        shift
        let l ← look
        if l.newline then fail
        match l.kind with
        | .punct .lbracket | .punct .lbrace | .punct .star | .punct .ellipsis => return true
        | .word _ | .privateName | .str | .number | .bigint => return true
        | _ => fail)
      (return false)
  else return false

/-- The name of a property. Answers whether it is a word. -/
def propertyName : Grammar Bool := do
  match (← look).kind with
  | .word _ =>
    shift
    return true
  | .str | .number | .bigint =>
    shift
    return false
  | .punct .lbracket =>
    node .index do
      shift
      within (fun c => { c with inOperator := true }) do
        call .assignment
        if (← isTypescript) then
          Rule.loop do
            if (← eat .comma) then
              call .assignment
              return true
            return false
      expect .rbracket
    return false
  | _ => fail

/-- A word that modifies a parameter or a property where the language has types. -/
def accessModifier : Grammar Unit := do
  if (← isTypescript) then
    let _ ← modifier ["public", "protected", "private", "readonly"]

end Grammar
end Rehome.Ecma
