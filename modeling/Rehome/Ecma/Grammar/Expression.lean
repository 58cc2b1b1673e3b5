import Rehome.Ecma.Grammar.Class

/-!
# Expressions

From primary expressions up to sequences. Each rule leaves one tree on the stack. Patterns and the
parameters of arrow functions are read as expressions first and checked afterwards.
-/
namespace Rehome.Ecma.Grammar

open Rule (look lookAhead shift mark wrap context within attempt call fail loop ask forget)

/-- Clears what only the start of an expression may be. -/
def Context.operand (c : Context) : Context := { c with arrowStart := false }

/-- The circumstances between brackets. -/
def Context.bracketed (c : Context) : Context :=
  { c with inOperator := true, colonExpected := false }

/-- An expression, or a spread one. -/
def itemOrSpread : Grammar Unit := do
  if (← isPunct .ellipsis) then
    node .spread do
      shift
      within (fun c => { c with inOperator := true }) (call .assignment)
  else within (fun c => { c with inOperator := true }) (call .assignment)

def arguments : Grammar Unit :=
  node .arguments do
    expect .lparen
    within Context.bracketed (commaList .rparen itemOrSpread)
    expect .rparen

def array : Grammar Unit :=
  node .array do
    expect .lbracket
    within Context.bracketed <|
      loop do
        if (← isPunct .rbracket) then return false
        if (← eat .comma) then return true
        itemOrSpread
        if !(← isPunct .rbracket) then expect .comma
        return true
    expect .rbracket

/-- A template with its holes. Only a tag lets malformed escapes through. -/
def template (tagged : Bool) : Grammar Unit :=
  node .template do
    expectBefore .template .backquote
    loop do
      match (← look).kind with
      | .chunk closing valid =>
        if !valid && !tagged then fail
        shift
        if closing then return false
        within Context.bracketed (call .expression)
        expectBefore .template .rbrace
        return true
      | _ => fail

/-- A property that has a value, is a method, or stands for a variable; its name has been read from
`start` on. -/
def propertyAfterName (start : Nat) (name : Option String) (isWord : Bool) : Grammar Unit := do
  let typescript ← isTypescript
  let l ← look
  if l.kind = .punct .colon then
    shift
    within (fun c => { c with inOperator := true }) (call .assignment)
    wrap .property start
  else if l.kind = .punct .lparen || (typescript && (← isOpenAngle)) then
    call (.functionRest false false false false)
    wrap .method start
  else if !isWord then
    if typescript then
      match l.kind with
      | .punct .lbracket | .punct .comma | .punct .question | .punct .assign | .punct .star
      | .word _ | .str | .number | .bigint => fail
      | _ => wrap .property start
    else fail
  else
    if typescript then
      let _ ← eat .question
    match (← look).kind with
    | .punct .comma | .punct .rbrace => wrap .shorthand start
    | .punct .assign =>
      shift
      within (fun c => { c with inOperator := true }) (call .assignment)
      wrap .shorthandDefault start
    | _ =>
      if name = some "async" then
        let isGenerator ← eat .star
        let _ ← propertyName
        call (.functionRest true isGenerator false false)
        wrap .method start
      else if name = some "get" || name = some "set" then
        let _ ← propertyName
        call (.functionRest false false false false)
        wrap .method start
      else if typescript then
        match (← look).kind with
        | .punct .lbracket | .punct .star | .word _ | .str | .number | .bigint => fail
        | _ => wrap .property start
      else fail

def objectProperty : Grammar Unit := do
  let start ← mark
  if (← eat .ellipsis) then
    within (fun c => { c with inOperator := true }) (call .assignment)
    wrap .spread start
  else if (← eat .star) then
    let _ ← propertyName
    call (.functionRest false true false false)
    wrap .method start
  else
    accessModifier
    let name := match (← look).kind with
      | .word name => some name
      | _ => none
    let isWord ← propertyName
    propertyAfterName start name isWord

def object : Grammar Unit :=
  node .object do
    expect .lbrace
    within (fun c => { c with colonExpected := false }) (commaList .rbrace objectProperty)
    expect .rbrace

/-- The body of an arrow function whose parameters have been read from `start` on. A block body
before an operator is taken for its left operand. -/
def arrowRest (isAsync : Bool) (start : Nat) : Grammar Unit := do
  let isBlock ← isPunct .lbrace
  arrowBody isAsync
  wrap .arrow start
  if isBlock then
    match (← look).kind with
    | .punct p => if p.precedence?.isSome then call (.binaryRest 0)
    | _ => pure ()

/-- Finishes an assignment whose target has just been read. -/
def finishAssignment : Grammar Unit := do
  match (← look).kind with
  | .punct p =>
    if p.assigns then
      if !(← ask (if p = .assign then .isTarget else .isSimpleTarget)) then fail
      onto .assign do
        shift
        call .assignment
  | _ => pure ()

/-- Reads operators and operands, the first of which may open an arrow function. -/
def binary : Grammar Unit := do
  let m ← mark
  let c ← context
  Rule.recover (call .unary) do
    forget m
    let operator :=
      match (← look).kind with
      | .punct p => p.precedence?.isSome
      | .word "instanceof" => true
      | .word "in" => c.inOperator
      | _ => false
    if operator then wrap .missing m else fail
  if !(← ask (.isKind .arrow)) then call (.binaryRest 0)

/-- The branches of a conditional expression whose test has just been read. -/
def conditionalRest : Grammar Unit :=
  onto .conditional do
    expect .question
    within
      (fun c => { c with inConditional := true, colonExpected := true, inOperator := true })
      (call .assignment)
    expect .colon
    within (fun c => { c with inConditional := true, colonExpected := false }) (call .assignment)

def conditional : Grammar Unit := do
  binary
  if !(← ask (.isKind .arrow)) then
    if (← isPunct .question) then conditionalRest

/-- An item of a parenthesised list that may turn out to be parameters. Where the language has
types, an item may be marked optional or have a type, and then it is a parameter. -/
def parenItem : Grammar Unit := do
  let start ← mark
  let typescript ← isTypescript
  accessModifier
  if !typescript then itemOrSpread
  else
    let l ← look
    let spreadName := l.kind = .punct .ellipsis && (← lookAhead).kind.isReference
    if l.kind.isReference || spreadName then
      if spreadName then
        node .spread do
          shift
          within (fun c => { c with arrowStart := true }) binary
      else
        within (fun c => { c with arrowStart := true }) binary
        finishAssignment
    else itemOrSpread
    let isSpread ← ask (.isKind .spread)
    let optional ← do
      if (← isPunct .question) then
        match (← lookAhead).kind with
        | .punct .comma | .punct .colon | .punct .rparen | .punct .assign =>
          if !isSpread && !(← ask (.isKind .ident)) then fail
          shift
          pure true
        | _ =>
          if !isSpread then conditionalRest
          pure false
      else pure false
    if optional || (← isPunct .colon) then
      if !optional && !(← ask .readsAsPattern) then fail
      typeAnnotation
      if (← eat .assign) then call .assignment
      wrap .parameter start

/-- A parenthesised expression, the parameters of an arrow function, or the call of a function
named `async`; what stands on the stack from `start` on belongs to it. -/
def parenOrArrow (isAsync : Bool) (start : Nat) : Grammar Unit := do
  let c ← context
  node .arguments do
    expect .lparen
    within (fun c => { c with inOperator := true, colonExpected := false })
      (commaList .rparen parenItem)
    expect .rparen
  let hasParameter ← ask (.hasChild .parameter)
  let hasSpread ← ask (.hasChild .spread)
  let isEmpty ← ask .hasOnlyTokens
  let areParameters ← ask .readsAsParameters
  let other : Grammar Unit := do
    let typed ← do
      if c.typescript && !c.colonExpected && (← isPunct .colon) then
        attempt
          (do
            call (.returnType true)
            if !(← isPunct .arrow) then fail
            return true)
          (return false)
      else pure false
    if hasParameter || typed || (← isPunct .arrow) then
      if (← look).newline || !c.arrowStart then fail
      expect .arrow
      if !areParameters then fail
      arrowRest isAsync start
    else if isAsync then wrap .call start
    else
      if isEmpty || hasSpread then fail
      wrap .paren start
  if c.typescript && c.inConditional && (← isPunct .colon) then
    attempt
      (do
        call (.returnType true)
        expect .arrow
        if !areParameters then fail
        arrowBody isAsync
        if c.colonExpected && !(← isPunct .colon) then fail
        wrap .arrow start)
      other
  else other

/-- An asynchronous arrow function with type parameters, after `async`. -/
def genericAsyncArrow (start : Nat) : Grammar Unit := do
  call .typeParameters
  expect .lparen
  call (.parameters true false)
  expect .rparen
  if (← isPunct .colon) then call (.returnType true)
  expect .arrow
  arrowBody true
  wrap .arrow start

/-- A name, or an arrow function whose only parameter it is. -/
def nameOrArrow : Grammar Unit := do
  let start ← mark
  let c ← context
  let isAsync ← isWord "async"
  node .ident anyWord
  let l ← look
  let namesParameter := l.kind.isReference && !l.newline
  if c.arrowStart && isAsync && namesParameter then
    let isOf := c.inForHead && l.kind = .word "of" && !(← aheadIsPunct .arrow)
    if !isOf then
      node .pattern (bindingName false)
      if c.typescript && l.kind = .word "as" && !(← isPunct .arrow) then
        call .type
        wrap .asType start
      else
        expect .arrow
        arrowBody true
        wrap .arrow start
  else if c.arrowStart && l.kind = .punct .arrow && !l.newline then
    shift
    arrowBody false
    wrap .arrow start

/-- What may start with the word `async`. -/
def asyncStart : Grammar Unit := do
  let start ← mark
  let c ← context
  let after ← lookAhead
  if after.kind = .word "function" && !after.newline then
    node .functionNode do
      shift
      functionNode true true false
  else
    let rest : Grammar Unit := do
      if c.arrowStart && after.kind = .punct .lparen && !after.newline then
        node .ident shift
        parenOrArrow true start
      else nameOrArrow
    if c.arrowStart && c.typescript && after.kind = .punct .lt then
      attempt
        (do
          node .ident shift
          genericAsyncArrow start)
        rest
    else rest

def primary : Grammar Unit := do
  match (← look).kind with
  | .str => node .stringLiteral shift
  | .number | .bigint => node .literal shift
  | .privateName => node .privateName shift
  | .punct .slash | .punct .slashAssign =>
    Rule.rescan .regex
    if (← look).kind = .regex then node .literal shift else fail
  | .punct .lparen =>
    let start ← mark
    parenOrArrow false start
  | .punct .lbracket => array
  | .punct .lbrace => call .object
  | .punct .backquote => call (.template false)
  | .punct .atSign =>
    node .classNode do
      call .decorators
      call (.classRest false)
  | .word "class" => node .classNode (call (.classRest false))
  | .word "function" => node .functionNode (functionNode false true false)
  | .word "this" | .word "null" | .word "true" | .word "false" => node .literal shift
  | .word "async" => asyncStart
  | .word "let" => nameOrArrow
  | .word name => if Word.isReserved name then fail else nameOrArrow
  | _ => fail

/-- Whether an expression may start here. -/
def startsExpression : Grammar Bool := do
  match (← look).kind with
  | .str | .number | .bigint | .regex | .privateName => return true
  | .punct p =>
    return p ∈ [.lparen, .lbracket, .lbrace, .backquote, .plus, .minus, .bang, .tilde, .plusPlus,
      .minusMinus, .lt, .atSign, .slash, .slashAssign]
  | .word name =>
    return !Word.keywords.contains name ||
      ["class", "delete", "false", "function", "import", "new", "null", "super", "this", "true",
       "typeof", "void"].contains name
  | _ => return false

/-- Type arguments after a value, unless what follows makes them a comparison or part of a call. -/
def instantiation : Grammar Unit :=
  attempt
    (onto .instantiation do
      call (.typeArguments .plain)
      let l ← look
      match l.kind with
      | .punct .lt | .punct .gt | .punct .plus | .punct .minus | .punct .lparen
      | .punct .backquote => fail
      | .punct p =>
        if !(l.newline || p.precedence?.isSome) && (← startsExpression) then fail
      | .word "in" | .word "instanceof" => pure ()
      | _ => if !l.newline && (← startsExpression) then fail)
    (pure ())

/-- `import` as the start of an expression. -/
def importExpression (noCall : Bool) : Grammar Unit := do
  let start ← mark
  expectWord "import"
  if (← eat .dot) then
    if (← eatWord "meta") then wrap .metaProperty start
    else if (← isWordOf ["defer", "source"]) then
      shift
      wrap .importRef start
    else fail
  else wrap .importRef start
  call (.subscripts noCall false)

/-- `new` with its callee and arguments, or a primary expression with its members. -/
def memberOrNew (isNew : Bool) : Grammar Unit := do
  if (← isWord "new") then
    let start ← mark
    shift
    if (← eat .dot) then
      expectWord "target"
      wrap .metaProperty start
      call (.subscripts true false)
    else
      within Context.operand (call (.memberOrNew isNew))
      if isNew && (← ask .isOptionalChain) then fail
      if (← isTypescript) && (← isOpenAngle) then
        attempt
          (do
            call (.typeArguments .plain)
            if !(← isPunct .lparen) then fail)
          (pure ())
      if !isNew || (← isPunct .lparen) then
        call .arguments
        wrap .construct start
        call (.subscripts true false)
      else wrap .construct start
  else if (← isWord "super") then
    node .superRef shift
    call (.subscripts true false)
  else if (← isWord "import") then importExpression true
  else
    call .primary
    if !(← ask (.isKind .arrow)) then
      if (← isTypescript) && (← isOpenAngle) then instantiation
      call (.subscripts true false)

/-- One step of a chain of members, indices and calls. Answers whether there was one. -/
def subscript (noCall noIndex : Bool) : Grammar Bool := do
  let typescript ← isTypescript
  let isSuper ← ask (.isKind .superRef)
  let isImport ← ask (.isKind .importRef)
  let isChain := (← ask (.isKind .optional)) || (← ask (.isKind .optionalCall))
  let callKind : NodeKind := if isChain then .optionalCall else .call
  let plain : Grammar Bool := do
    match (← look).kind with
    | .punct .questionDot =>
      if isSuper || isImport then fail
      let start ← mark
      shift
      match (← look).kind with
      | .punct .lbracket =>
        shift
        within Context.bracketed (call .expression)
        expect .rbracket
        wrap .optional (start - 1)
      | .punct .lparen =>
        call .arguments
        wrap .optionalCall (start - 1)
      | .punct .lt | .punct .shl =>
        if !typescript then fail
        call (.typeArguments .plain)
        call .arguments
        wrap .optionalCall (start - 1)
      | .word _ | .privateName =>
        shift
        wrap .optional (start - 1)
      | _ => fail
      return true
    | .punct .lbracket =>
      if noIndex then return false
      if isImport then fail
      onto (if isChain then .optional else .index) do
        shift
        within Context.bracketed (call .expression)
        expect .rbracket
      return true
    | .punct .dot =>
      if isImport then fail
      onto (if isChain then .optional else .member) do
        shift
        match (← look).kind with
        | .word _ | .privateName => shift
        | _ => fail
      return true
    | .punct .backquote =>
      if isSuper || isImport then fail
      onto .tagged (call (.template true))
      return true
    | .punct .lparen =>
      if noCall then
        if isSuper || isImport then fail
        return false
      onto callKind (call .arguments)
      return true
    | _ =>
      if isSuper || isImport then fail
      return false
  if typescript && !isSuper && !isImport then
    let l ← look
    if l.kind = .punct .bang && !l.newline then
      onto .nonNull shift
      return true
    else if l.kind = .punct .lt || l.kind = .punct .shl then
      let start ← mark
      attempt
        (do
          call (.typeArguments .plain)
          match (← look).kind with
          | .punct .lparen =>
            if noCall then fail
            call .arguments
            wrap callKind (start - 1)
            return true
          | .punct .backquote =>
            call (.template true)
            wrap .tagged (start - 1)
            return true
          | .punct .assign | .word "as" | .word "satisfies" =>
            wrap .instantiation (start - 1)
            return false
          | _ => fail)
        plain
    else plain
  else plain

def subscripts (noCall noIndex : Bool) : Grammar Unit :=
  loop (subscript noCall noIndex)

def leftHandSide : Grammar Unit := do
  let c ← context
  if c.markup && (← isPunct .lt) && !(← aheadIsPunct .bang) then call (.element .plain)
  else if (← isWord "super") then
    node .superRef shift
    call (.subscripts false false)
  else if (← isWord "import") then importExpression false
  else
    call (.memberOrNew true)
    if !(← ask (.isKind .arrow)) then
      let isChain := (← ask (.isKind .optional)) || (← ask (.isKind .optionalCall))
      let start ← mark
      if c.typescript && (← isOpenAngle) then
        attempt
          (do
            call (.typeArguments .plain)
            if !(← isPunct .lparen) then fail)
          (pure ())
      if (← isPunct .lparen) then
        call .arguments
        wrap (if isChain then .optionalCall else .call) (start - 1)
        call (.subscripts false false)
      else if (← isPunct .questionDot) then call (.subscripts false false)

/-- `await` with its operand; without one it stands for a name. -/
def awaitExpression : Grammar Unit := do
  let start ← mark
  expectWord "await"
  if (← isPunct .star) then fail
  let bare ← do
    match (← look).kind with
    | .punct .rparen | .punct .rbracket | .punct .comma => pure true
    | _ => atTerminator
  if bare && !(← context).inAsync then wrap .ident start
  else
    within Context.operand (call .unary)
    wrap .awaitExpr start

/-- A cast written before its operand. -/
def castExpression : Grammar Unit := do
  let start ← mark
  expect .lt
  if (← isWord "const") then
    shift
    closeAngle .plain
    within Context.operand (call .unary)
    wrap .asConst start
  else
    call .type
    closeAngle .plain
    within Context.operand (call .unary)
    wrap .assertion start

/-- Unary and update expressions. An operator whose operand cannot be read stands alone. -/
def unary : Grammar Unit := do
  let c ← context
  let prefixOperator : Grammar Unit := do
    let start ← mark
    shift
    Rule.recover (within Context.operand (call .unary)) do
      forget (start + 1)
      wrap .missing (start + 1)
    wrap .unary start
  match (← look).kind with
  | .punct .plusPlus | .punct .minusMinus =>
    node .update do
      shift
      within Context.operand (call .unary)
  | .punct .plus | .punct .minus | .punct .bang | .punct .tilde => prefixOperator
  | .word "delete" | .word "void" | .word "typeof" => prefixOperator
  | .word "await" => awaitExpression
  | kind =>
    if kind = .punct .lt && c.typescript && !c.markup then castExpression
    else
      call .leftHandSide
      if !(← ask (.isKind .arrow)) then
        let l ← look
        if !l.newline && (l.kind = .punct .plusPlus || l.kind = .punct .minusMinus) then
          onto .update shift

/-- The binding strength of the operator that comes next, if one comes. -/
def nextPrecedence : Grammar (Option Nat) := do
  match (← look).kind with
  | .punct p => return p.precedence?
  | .word "instanceof" => return some 7
  | .word "in" => return if (← context).inOperator then some 7 else none
  | _ => return none

/-- Operators that bind tighter than `above`, with their right operands, after a left operand. -/
def binaryRest (above : Nat) : Grammar Unit :=
  loop do
    let l ← look
    let typescript ← isTypescript
    if typescript && above < 7 && !l.newline && l.kind = .word "as" then
      let start ← mark
      shift
      if (← isWord "const") then
        shift
        wrap .asConst (start - 1)
      else
        call .type
        wrap .asType (start - 1)
      return true
    else if typescript && !l.newline && l.kind = .word "satisfies" then
      onto .satisfies do
        shift
        call .type
      return true
    else
      match (← nextPrecedence) with
      | none => return false
      | some strength =>
        if strength ≤ above then return false
        let isPower := l.kind = .punct .starStar
        if isPower && ((← ask (.isKind .unary)) || (← ask (.isKind .awaitExpr))) then fail
        onto .binary do
          shift
          within Context.operand (call .unary)
          call (.binaryRest (if isPower then strength - 1 else strength))
        return true

def yieldExpression : Grammar Unit :=
  node .yieldExpr do
    expectWord "yield"
    let c ← context
    if c.inParameters && !c.inFunction then fail
    if !(← atTerminator) then
      if (← isPunct .star) then
        shift
        call .assignment
      else if (← startsExpression) then call .assignment

/-- An assignment without type parameters in front. -/
def assignmentBase : Grammar Unit := do
  if (← context).inGenerator && (← isWord "yield") then yieldExpression
  else
    let arrowStart :=
      match (← look).kind with
      | .punct .lparen => true
      | .word name => !Word.keywords.contains name && name ≠ "let" && name ≠ "await"
      | _ => false
    within (fun c => { c with arrowStart }) conditional
    let closed :=
      (← ask (.isKind .arrow)) || (← ask (.isKind .conditional)) || (← ask (.isKind .binary)) ||
        (← ask (.isKind .unary)) || (← ask (.isKind .update))
    if !closed then finishAssignment

/-- An assignment. An opening angle bracket may start the type parameters of an arrow function, and
is read as one of markup or of a type assertion if it does not. -/
def assignment : Grammar Unit := do
  let c ← context
  if c.typescript && (← isPunct .lt) then
    if (← lookAhead).kind.isWord then
      attempt
        (do
          let start ← mark
          call .typeParameters
          within (fun c => { c with colonExpected := false }) (call .assignmentBase)
          if !(← ask (.isKind .arrow)) then fail
          wrap .arrow start)
        (call .assignmentBase)
    else call .assignmentBase
  else call .assignmentBase

def expression : Grammar Unit := do
  let start ← mark
  call .assignment
  if (← isPunct .comma) then
    loop do
      if (← eat .comma) then
        call .assignment
        return true
      return false
    wrap .sequence start

end Rehome.Ecma.Grammar
