import Rehome.Ecma.Grammar.Expression

/-!
# Statements and declarations
-/
namespace Rehome.Ecma.Grammar

open Rule (look lookAhead shift mark wrap context within attempt call fail loop ask forget)

/-- Statements up to the closing brace. -/
def block : Grammar Unit :=
  node .block do
    expect .lbrace
    loop do
      if (← eat .rbrace) then return false
      call (.statement true)
      return true

/-- Whether the token can follow `let` in a declaration. -/
def followsLet : TokenKind → Bool
  | .punct .lbrace | .punct .lbracket => true
  | .word name => !Word.keywords.contains name
  | _ => false

/-- One variable with its type and initial value. -/
def declarator (noLet inForHead : Bool) : Grammar Unit := do
  let isName ← isAnyWord
  call (.binding noLet)
  if (← isTypescript) then
    if isName then
      let _ ← eat .bang
    typeAnnotation
  if !(inForHead && (← isWordOf ["in", "of"])) then
    if (← eat .assign) then call .assignment

/-- Variables separated by commas; the list may break off before a semicolon or the end. -/
def variableList (noLet inForHead : Bool) : Grammar Unit :=
  loop do
    let l ← look
    if l.kind = .punct .semicolon || l.kind = .eof then return false
    declarator noLet inForHead
    eat .comma

/-- Skips a token. The characters of a template up to its end or its first hole count as one. -/
def skipToken : Grammar Unit := do
  if (← eatBefore .template .backquote) then shift else shift

/-- Skips to the end of a statement; what is skipped leaves no trace. -/
def skipToTerminator : Grammar Unit := do
  let m ← mark
  Rule.recover (call .expression) (pure ())
  forget m
  loop do
    if (← eatTerminator) then return false
    skipToken
    return true
  forget m

/-- Declarations of variables. Text that cannot follow them is skipped up to the end of the
statement. -/
def variableDeclaration (inForHead : Bool) : Grammar Unit :=
  node .declaration do
    let noLet := !(← isWord "var")
    let c ← context
    shift
    let named := !(c.typescript && inForHead && (← isWordOf ["in", "of"]))
    let missing ← do
      if named then pure false
      else
        Rule.probe do
          shift
          call .assignment
          expect .rparen
          return true
    if !missing then
      within (fun c => { c with inOperator := !inForHead || noLet })
        (variableList noLet inForHead)
    if !inForHead then
      if !(← eatTerminator) then skipToTerminator

/-- Variables whose values are disposed of at the end of their block, after `using`. -/
def usingRest : Grammar Unit := do
  shift
  variableList false false
  let _ ← eatTerminator

/-- Whether `using` opens a declaration here. -/
def opensUsing : Grammar Bool := do
  let after ← lookAhead
  return (← isWord "using") && after.kind.isReference && !after.newline

/-- The rest of a loop head that goes through a value. -/
def eachHead : Grammar Unit := do
  if (← eatWord "of") then
    within (fun c => { c with inOperator := true }) (call .assignment)
  else
    expectWord "in"
    within (fun c => { c with inOperator := true }) (call .expression)

/-- The rest of a loop head with a test and an update. -/
def countedHead : Grammar Unit := do
  if !(← eat .semicolon) then
    within (fun c => { c with inOperator := true }) (call .expression)
    expect .semicolon
  if !(← isPunct .rparen) then
    within (fun c => { c with inOperator := true }) (call .expression)

/-- The head of a `for` loop, without its parentheses. Answers whether it goes through the values
of something. -/
def forHead : Grammar Bool := do
  let l ← look
  let declares :=
    l.kind = .word "const" || l.kind = .word "var" ||
      (l.kind = .word "let" && followsLet (← lookAhead).kind)
  if declares then
    call (.variableDeclaration true)
    let isOf ← isWord "of"
    if isOf || (← isWord "in") then
      eachHead
      return isOf
    expect .semicolon
    countedHead
    return false
  if (← eat .semicolon) then
    countedHead
    return false
  let start ← mark
  within (fun c => { c with inOperator := false, inForHead := true }) (call .expression)
  let isUsing := (← ask (.isIdent "using")) || (← ask (.isKind .awaitExpr))
  let after ← lookAhead
  if isUsing && (← isReference) && !(← isWord "of") &&
      (after.kind = .word "of" || after.kind = .word "in") then
    bindingName false
    wrap .declaration start
  let isOf ← isWord "of"
  if isOf || (← isWord "in") then
    if !(← ask .readsAsPattern) then fail
    eachHead
    return isOf
  expect .semicolon
  countedHead
  return false

def forStatement : Grammar Unit := do
  shift
  let isAwait ← eatWord "await"
  expect .lparen
  let isOf ← forHead
  expect .rparen
  if isAwait && !isOf then fail
  call (.statement false)

/-- An expression in parentheses. -/
def parenthesised : Grammar Unit := do
  expect .lparen
  within (fun c => { c with inOperator := true }) (call .expression)
  expect .rparen

def ifStatement : Grammar Unit := do
  shift
  parenthesised
  call (.statement false)
  if (← eatWord "else") then call (.statement false)

def switchStatement : Grammar Unit := do
  shift
  parenthesised
  expect .lbrace
  loop do
    if (← eatWord "case") then
      within (fun c => { c with inOperator := true }) (call .expression)
    else if !(← eatWord "default") then return false
    expect .colon
    loop do
      let l ← look
      if l.kind = .word "case" || l.kind = .word "default" || l.kind = .punct .rbrace ||
          l.kind = .eof then return false
      call (.statement true)
      return true
    return true
  expect .rbrace

/-- A handler, if one comes. -/
def catchClause : Grammar Unit := do
  if (← eatWord "catch") then
    if (← eat .lparen) then
      call (.binding false)
      typeAnnotation
      expect .rparen
    call .block

def finallyClause : Grammar Unit := do
  if (← eatWord "finally") then call .block

def jumpStatement : Grammar Unit := do
  shift
  if !(← eatTerminator) then
    match (← look).kind with
    | .word name =>
      if Word.keywords.contains name || name = "await" then fail
      shift
      terminator
    | _ => fail

def returnStatement : Grammar Unit := do
  shift
  if !(← eatTerminator) then
    within (fun c => { c with inOperator := true }) (call .expression)
    terminator

/-- An alias of a type, after its keyword. -/
def typeAlias : Grammar Unit := do
  anyWord
  optionalTypeParameters
  expect .assign
  call .type
  terminator

/-- An interface, after its keyword. -/
def interfaceRest : Grammar Unit := do
  anyWord
  optionalTypeParameters
  if (← eatWord "extends") then heritageList
  if (← isWord "extends") then
    let m ← mark
    loop do
      if (← isPunct .lbrace) then return false
      shift
      return true
    forget m
  call .typeMembers

/-- A member of an enumeration with its value. A token that belongs nowhere stands for a comma. -/
def enumMember : Grammar Unit := do
  match (← look).kind with
  | .str | .number => shift
  | .punct .lbracket =>
    let m ← mark
    shift
    call .expression
    expect .rbracket
    forget m
  | _ => anyWord
  if (← eat .assign) then call .assignment
  else if !(← isPunct .comma) && !(← isPunct .rbrace) then
    let m ← mark
    shift
    forget m

/-- An enumeration, after its keyword. -/
def enumRest : Grammar Unit := do
  anyWord
  expect .lbrace
  loop do
    if (← isPunct .rbrace) then return false
    enumMember
    let _ ← eat .comma
    return true
  expect .rbrace

/-- The body of a namespace or module. -/
def moduleBlock : Grammar Unit :=
  node .block do
    expect .lbrace
    loop do
      if (← eat .rbrace) then return false
      call .moduleItem
      return true

/-- A namespace, after its keyword. -/
def namespaceRest : Grammar Unit := do
  anyWord
  if (← eat .dot) then call .namespaceRest else moduleBlock

/-- A module named by a string, or the global scope. -/
def ambientModule : Grammar Unit := do
  if !(← eatWord "global") then expectString
  if (← isPunct .lbrace) then moduleBlock else terminator

/-- A declaration that starts with the word `name`. With `fresh` the word has not been taken and
always opens the declaration; otherwise it has been, and what follows decides. Answers whether there
is one. -/
def wordDeclaration (name : String) (fresh : Bool) : Grammar Bool := do
  let l ← look
  let keyword : Grammar Unit := if fresh then shift else pure ()
  match name with
  | "abstract" =>
    if fresh || (l.kind = .word "class" && !l.newline) then
      keyword
      node .classNode (call (.classRest true))
      return true
    return false
  | "enum" =>
    if fresh || l.kind.isReference then
      keyword
      enumRest
      return true
    return false
  | "interface" =>
    if fresh || l.kind.isReference then
      keyword
      interfaceRest
      return true
    return false
  | "module" =>
    if l.newline then return false
    keyword
    let after ← look
    if after.kind.isString then
      ambientModule
      return true
    if fresh || after.kind.isReference then
      call .namespaceRest
      return true
    return false
  | "namespace" =>
    if fresh || l.kind.isReference then
      keyword
      call .namespaceRest
      return true
    return false
  | "type" =>
    if fresh || (!l.newline && l.kind.isReference) then
      keyword
      typeAlias
      return true
    return false
  | _ => return false

/-- An ambient declaration, after `declare`. Answers whether there is one. -/
def declareRest : Grammar Bool :=
  within (fun c => { c with inDeclare := true }) do
    match (← look).kind with
    | .word "function" =>
      node .functionNode (functionNode false false true)
      return true
    | .word "class" =>
      node .classNode (call (.classRest true))
      return true
    | .word "const" | .word "var" | .word "let" =>
      if (← isWord "const") && (← aheadIsWord "enum") then
        shift
        shift
        enumRest
      else call (.variableDeclaration false)
      return true
    | .word "global" =>
      ambientModule
      return true
    | .word name => wordDeclaration name true
    | _ => return false

/-- A statement that starts with an expression: a label, a declaration whose keyword is an ordinary
name, or the expression itself. -/
def expressionStatement : Grammar Unit := do
  let start ← mark
  let first ← look
  within (fun c => { c with inOperator := true }) (call .expression)
  let isName ← ask (.isKind .ident)
  let labelled ← if isName then eat .colon else pure false
  if labelled then
    if (← isWord "function") then node .functionNode (functionNode false false true)
    else call (.statement false)
    wrap .label start
  else
    let declared ← do
      if isName && (← isTypescript) then
        if (← ask (.isIdent "declare")) then declareRest
        else if (← ask (.isIdent "global")) then
          if (← isPunct .lbrace) then
            moduleBlock
            pure true
          else pure false
        else
          match first.kind with
          | .word name => wordDeclaration name false
          | _ => pure false
      else pure false
    if declared then wrap .declaration start
    else if (← eatTerminator) then wrap .statement start
    else
      match (← look).kind with
      | .punct p =>
        if p.precedence?.isSome then
          call (.binaryRest 0)
          wrap .statement start
        else fail
      | _ => fail

/-- `import` inside a statement is a call or a property of the module; it needs no terminator. -/
def importStatement : Grammar Unit := do
  if !(← aheadIsPunct .lparen) && !(← aheadIsPunct .dot) then fail
  call .expression
  let _ ← eatTerminator

/-- A statement after its decorators. `declarations` tells whether a declaration of variables may
stand here. -/
def statementRest (declarations : Bool) : Grammar Unit := do
  let l ← look
  let after ← lookAhead
  let typescript ← isTypescript
  let named := typescript && after.kind.isReference && !after.newline
  match l.kind with
  | .punct .lbrace => call .block
  | .punct .semicolon => node .statement shift
  | .word "break" | .word "continue" => node .statement jumpStatement
  | .word "debugger" =>
    node .statement do
      shift
      terminator
  | .word "do" =>
    node .statement do
      shift
      call (.statement false)
      expectWord "while"
      parenthesised
      let _ ← eat .semicolon
  | .word "for" => node .statement forStatement
  | .word "function" => node .functionNode (functionNode false false true)
  | .word "class" => node .classNode (call (.classRest true))
  | .word "if" => node .statement ifStatement
  | .word "return" => node .statement returnStatement
  | .word "switch" => node .statement switchStatement
  | .word "throw" =>
    node .statement do
      shift
      if (← look).newline then fail
      within (fun c => { c with inOperator := true }) (call .expression)
      terminator
  | .word "catch" =>
    let m ← mark
    Rule.recover catchClause (pure ())
    Rule.recover finallyClause (pure ())
    forget m
  | .word "finally" =>
    let m ← mark
    Rule.recover finallyClause (pure ())
    forget m
  | .word "try" =>
    node .statement do
      shift
      call .block
      catchClause
      finallyClause
  | .word "while" | .word "with" =>
    node .statement do
      shift
      parenthesised
      call (.statement false)
  | .word "var" => call (.variableDeclaration false)
  | .word "const" =>
    if typescript && after.kind = .word "enum" then
      node .declaration do
        shift
        shift
        enumRest
    else if declarations then call (.variableDeclaration false)
    else expressionStatement
  | .word "let" =>
    if declarations && followsLet after.kind then call (.variableDeclaration false)
    else expressionStatement
  | .word "using" =>
    if declarations && (← opensUsing) then node .declaration usingRest
    else expressionStatement
  | .word "await" =>
    if declarations && after.kind = .word "using" then
      let start ← mark
      shift
      if (← opensUsing) then
        usingRest
        wrap .declaration start
      else
        within (fun c => { c with inOperator := true }) do
          within Context.operand (call .unary)
          wrap .awaitExpr start
          call (.binaryRest 0)
        let _ ← eatTerminator
        wrap .statement start
    else expressionStatement
  | .word "interface" =>
    if named then
      node .declaration do
        shift
        interfaceRest
    else expressionStatement
  | .word "type" =>
    if named then
      node .declaration do
        shift
        typeAlias
    else expressionStatement
  | .word "enum" =>
    if named then
      node .declaration do
        shift
        enumRest
    else expressionStatement
  | .word "async" =>
    if after.kind = .word "function" && !after.newline then
      node .functionNode do
        shift
        functionNode true false true
    else expressionStatement
  | _ => expressionStatement

/-- Whether decorators belong to the declaration that comes next. -/
def takesDecorators : Grammar Bool := do
  match (← look).kind with
  | .word "class" | .word "function" => return true
  | .word "async" =>
    let after ← lookAhead
    return after.kind = .word "function" && !after.newline
  | .word "abstract" | .word "declare" => isTypescript
  | _ => return false

/-- Decorators before a statement. Before one that takes none they are read and dropped. -/
def statementDecorators : Grammar Unit := do
  let start ← mark
  call .decorators
  if !(← takesDecorators) then forget start

/-- A statement where no import or export can stand. -/
def statement (declarations : Bool) : Grammar Unit :=
  node .statement do
    statementDecorators
    if (← isWord "import") then importStatement
    else if (← isWord "export") then fail
    else statementRest declarations

end Rehome.Ecma.Grammar
