import Rehome.Ecma.Grammar.Markup
import Rehome.Ecma.Grammar.Statement

/-!
# Imports and exports

The items of a module, and the table that gives every nonterminal its rule.
-/
namespace Rehome.Ecma

namespace Grammar

open Rule (look lookAhead shift mark wrap context within attempt call fail loop ask forget)

/-- The string that names a module. -/
def source : Grammar Unit := node .source expectString

/-- Attributes of an import, if they open on the same line. -/
def importAttributes : Grammar Unit := do
  let l ← look
  if !l.newline && (l.kind = .word "with" || l.kind = .word "assert") then
    node .attributes do
      shift
      call .object

/-- `from`, the name of a module, its attributes and the end of the declaration. -/
def fromClause : Grammar Unit := do
  expectWord "from"
  source
  importAttributes
  terminator

/-- A name given by an export: any word, or a string. Answers the word. -/
def exportName : Grammar (Option String) := do
  match (← look).kind with
  | .word name =>
    shift
    return some name
  | .str =>
    shift
    return none
  | _ => fail

/-- What follows `type` in a list of names where the next token is a word. Any of the words may be
`as`. Answers whether the name is complete. -/
def typeOnlyName (target : Grammar Unit) : Grammar Bool := do
  if (← eatWord "as") then
    if (← isAnyWord) then
      let again ← isWord "as"
      target
      if again && (← isAnyWord) then target
    return true
  anyWord
  return false

/-- A name that an import takes over. -/
def importSpecifier : Grammar Unit := do
  let name ← exportName
  let typeOnly ←
    if name = some "type" && (← isTypescript) && (← isAnyWord) then
      typeOnlyName (bindingName false)
    else pure false
  if !typeOnly then
    if (← eatWord "as") then bindingName false
    else if name = none then fail

/-- A name that an export gives away. -/
def exportSpecifier : Grammar Unit := do
  let name ← exportName
  let typeOnly ←
    if name = some "type" && (← isTypescript) && (← isAnyWord) then typeOnlyName anyWord
    else pure false
  if !typeOnly then
    if (← eatWord "as") then
      let _ ← exportName

/-- The names an import takes over, or the whole module under one name. -/
def importList : Grammar Unit := do
  if (← eat .star) then
    expectWord "as"
    bindingName false
  else
    expect .lbrace
    commaList .rbrace importSpecifier
    expect .rbrace

/-- The module or name that an import gives another name, after the equals sign. -/
def importEqualsRest (start : Nat) : Grammar Unit := do
  if (← isWord "require") && (← aheadIsPunct .lparen) then
    shift
    shift
    source
    expect .rparen
  else entityName
  terminator
  wrap .importEquals start

/-- Whether a second word follows a word like `type`, so that the first is no binding. -/
def secondBinding : Grammar Bool := do
  return (← isReference) && (!(← isWord "from") || (← aheadIsWord "from"))

/-- An import whose first binding has been read; `start` is where the declaration began. -/
def importAfterBinding (start : Nat) : Grammar Unit := do
  if (← isTypescript) && (← isPunct .assign) then
    shift
    importEqualsRest start
  else
    if (← eat .comma) then importList
    fromClause
    wrap .importDeclaration start

/-- An import after its keyword, which stands at `start`. -/
def importRest (start : Nat) : Grammar Unit := do
  if (← look).kind.isString then
    source
    importAttributes
    terminator
    wrap .importDeclaration start
  else if (← isReference) then
    let typescript ← isTypescript
    let isType := typescript && (← isWord "type")
    let isPhase ← isWordOf ["source", "defer"]
    bindingName false
    let opensList := (← isPunct .star) || (← isPunct .lbrace)
    if (isType || isPhase) && opensList then
      importList
      fromClause
      wrap .importDeclaration start
    else
      let isSecond ← secondBinding
      if (isType || isPhase) && isSecond then bindingName false
      else if isType && (← isWord "from") && (← aheadIsPunct .assign) then anyWord
      importAfterBinding start
  else
    importList
    fromClause
    wrap .importDeclaration start

/-- An import, or an expression that starts with `import`. -/
def importItem : Grammar Unit := do
  if (← aheadIsPunct .lparen) || (← aheadIsPunct .dot) then
    node .statement importStatement
  else
    let start ← mark
    shift
    importRest start

/-- What an export gives away by default. -/
def exportDefault : Grammar Unit := do
  call .decorators
  let l ← look
  let after ← lookAhead
  let typescript ← isTypescript
  if typescript && l.kind = .word "abstract" && after.kind = .word "class" && !after.newline then
    shift
    node .classNode (call (.classRest false))
  else if typescript && l.kind = .word "interface" then
    shift
    interfaceRest
  else if l.kind = .word "class" then node .classNode (call (.classRest false))
  else if l.kind = .word "async" && after.kind = .word "function" && !after.newline then
    node .functionNode do
      shift
      functionNode true false false
  else if l.kind = .word "function" then node .functionNode (functionNode false false false)
  else
    within (fun c => { c with inOperator := true }) (call .assignment)
    terminator

/-- The names of an export, or everything a module exports. -/
def exportList (start : Nat) : Grammar Unit := do
  if (← isPunct .star) && !(← aheadIsWord "as") then
    shift
    fromClause
    wrap .exportAll start
  else if (← eat .star) then
    shift
    let _ ← exportName
    fromClause
    wrap .exportNamed start
  else
    expect .lbrace
    commaList .rbrace exportSpecifier
    expect .rbrace
    if (← isWord "from") then fromClause
    else
      let _ ← eatTerminator
    wrap .exportNamed start

/-- A declaration that is exported as it stands; `typeOnly` tells whether `type` came before.
Answers whether there is one. -/
def exportedDeclaration (typeOnly : Bool) : Grammar Bool := do
  let l ← look
  let after ← lookAhead
  if typeOnly then return false
  match l.kind with
  | .word "class" =>
    node .classNode (call (.classRest true))
    return true
  | .word "async" =>
    if after.kind = .word "function" && !after.newline then
      node .functionNode do
        shift
        functionNode true false true
      return true
    return false
  | .word "function" =>
    node .functionNode (functionNode false false true)
    return true
  | .word "const" =>
    if (← isTypescript) && after.kind = .word "enum" then
      shift
      shift
      enumRest
    else call (.variableDeclaration false)
    return true
  | .word "var" | .word "let" =>
    call (.variableDeclaration false)
    return true
  | _ => return false

/-- The exports that only the language with types has. Answers whether there is one. -/
def typescriptExport (start : Nat) : Grammar Bool := do
  let declared ← if (← eatWord "declare") then declareRest else pure false
  if declared then
    wrap .exportOther start
    return true
  let word ←
    match (← look).kind with
    | .word name =>
      attempt
        (do
          if (← wordDeclaration name true) then return true
          fail)
        (return false)
    | _ => pure false
  if word then
    wrap .exportOther start
    return true
  if (← eatWord "import") then
    if (← isWord "type") && (← lookAhead).kind.isReference then shift
    anyWord
    expect .assign
    importEqualsRest start
    return true
  if (← eat .assign) then
    call .expression
    terminator
    wrap .exportOther start
    return true
  if (← eatWord "as") then
    expectWord "namespace"
    bindingName false
    terminator
    wrap .exportOther start
    return true
  return false

/-- An export. -/
def exportItem : Grammar Unit := do
  let start ← mark
  expectWord "export"
  let typescript ← isTypescript
  let complete ← if typescript then typescriptExport start else pure false
  if !complete then
    let typeOnly ← if typescript then eatWord "type" else pure false
    let isDefault ← if typeOnly then pure false else eatWord "default"
    if isDefault then
      exportDefault
      wrap .exportOther start
    else
      call .decorators
      if (← exportedDeclaration typeOnly) then wrap .exportOther start
      else exportList start

/-- An item of a module. Decorators before an export are part of the language with types. -/
def moduleItem : Grammar Unit := do
  let start ← mark
  call .decorators
  let isDecorated := (← mark) ≠ start
  if (← isWord "import") then
    forget start
    importItem
  else if (← isWord "export") then
    if isDecorated && !(← isTypescript) then fail
    exportItem
    if isDecorated then wrap .statement start
  else
    if !(← takesDecorators) then forget start
    statementRest true
    wrap .statement start

def program : Grammar Unit :=
  node .program <| loop do
    if (← look).kind = .eof then return false
    call .moduleItem
    return true

end Grammar

/-- The rule of each nonterminal. -/
def Nonterminal.rule : Nonterminal → Grammar Unit
  | type => Grammar.conditionalType
  | simpleType => Grammar.simpleType
  | operatorType => Grammar.operatorType
  | typeArguments after => Grammar.typeArguments after
  | typeParameters => Grammar.typeParameters
  | typeMembers => Grammar.typeMembers
  | returnType colon => Grammar.returnType colon
  | binding noLet => Grammar.binding noLet
  | parameters defaults constructor => Grammar.parameters defaults constructor
  | functionRest isAsync isGenerator isExpression constructor =>
    Grammar.functionRest isAsync isGenerator isExpression constructor
  | decorators => Grammar.decorators
  | classRest named => Grammar.classRest named
  | expression => Grammar.expression
  | assignment => Grammar.assignment
  | assignmentBase => Grammar.assignmentBase
  | binaryRest above => Grammar.binaryRest above
  | unary => Grammar.unary
  | leftHandSide => Grammar.leftHandSide
  | memberOrNew isNew => Grammar.memberOrNew isNew
  | primary => Grammar.primary
  | subscripts noCall noIndex => Grammar.subscripts noCall noIndex
  | arguments => Grammar.arguments
  | object => Grammar.object
  | template tagged => Grammar.template tagged
  | element after => Grammar.element after
  | statement declarations => Grammar.statement declarations
  | moduleItem => Grammar.moduleItem
  | block => Grammar.block
  | namespaceRest => Grammar.namespaceRest
  | variableDeclaration inForHead => Grammar.variableDeclaration inForHead
  | program => Grammar.program

end Rehome.Ecma
