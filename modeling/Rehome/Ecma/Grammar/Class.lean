import Rehome.Ecma.Grammar.Function

/-!
# Classes
-/
namespace Rehome.Ecma.Grammar

open Rule (look lookAhead shift mark wrap context within attempt call fail loop)

/-- Whether parameters follow the name of a member. -/
def startsMethod : Grammar Bool := do
  return (← isPunct .lparen) || ((← isTypescript) && (← isOpenAngle))

/-- Whether a member ends with its name, or goes on like a property. With `loose` a new line ends it
too. -/
def startsProperty (loose : Bool) : Grammar Bool := do
  let typed := (← isTypescript) && ((← isPunct .bang) || (← isPunct .colon))
  let ends ← if loose then atTerminator else isPunct .semicolon
  return typed || ends || (← isPunct .assign) || (← isPunct .rbrace)

/-- What follows the name of a property. It needs no terminator. -/
def propertyRest : Grammar Unit := do
  if (← isTypescript) then
    let _ ← eat .question
    let _ ← eat .bang
  typeAnnotation
  if (← eat .assign) then
    within
      (fun c =>
        { c with
          inOperator := true, inAsync := false, inGenerator := false, colonExpected := false
          inConditional := false })
      (call .assignment)
  let _ ← eatTerminator

def method (isAsync isGenerator : Bool) : Grammar Unit := do
  if (← isTypescript) then
    let _ ← eat .question
  call (.functionRest isAsync isGenerator false false)

/-- The name of a member. Answers the word, if it is one. -/
def memberKey : Grammar (Option String) := do
  match (← look).kind with
  | .privateName =>
    shift
    return none
  | .word name =>
    shift
    return some name
  | _ =>
    let _ ← propertyName
    return none

/-- A member after its name, when the name was taken for a modifier first. Answers whether it is
complete. -/
def memberNamedLikeModifier (loose : Bool) : Grammar Bool := do
  if (← startsMethod) then
    method false false
    return true
  if (← startsProperty loose) then
    propertyRest
    return true
  return false

/-- A member from its name on. -/
def namedMember (isStatic : Bool) : Grammar Unit := do
  let name ← memberKey
  if (← isTypescript) then
    let _ ← eat .question
  if (← startsMethod) then
    call (.functionRest false false false (name = some "constructor"))
  else
    let l ← look
    let accessor :=
      (name = some "get" || name = some "set") && !(← startsProperty false) &&
        !(l.newline && l.kind = .punct .star)
    if !accessor && (← startsProperty true) then
      if name = some "constructor" then fail
      propertyRest
    else if name = some "async" && !l.newline then
      if (← isTypescript) then
        let _ ← modifier ["override"]
      let isGenerator ← eat .star
      let name ← memberKey
      if name = some "constructor" && !isStatic then fail
      method true isGenerator
    else if accessor then
      let _ ← memberKey
      method false false
    else fail

/-- A member after its first modifiers. -/
def memberRest (isStatic : Bool) : Grammar Unit := do
  if (← isTypescript) then
    loop do
      if (← isWord "static") && (← aheadIsPunct .lbrace) then return false
      modifier ["abstract", "readonly", "override", "static"]
    if (← eatWord "accessor") then
      if (← memberNamedLikeModifier true) then return
  let staticBlock : Grammar Unit :=
    within (fun c => { Context.body false false c with inStaticBlock := true, inFunction := c.inFunction })
      (call .block)
  if isStatic && (← isPunct .lbrace) then staticBlock
  else if (← isWord "static") && (← aheadIsPunct .lbrace) then
    shift
    staticBlock
  else
    let indexed ← if (← isTypescript) then indexSignature else pure false
    if !indexed then
      if (← eat .star) then
        let _ ← memberKey
        method false true
      else namedMember isStatic

def classMember : Grammar Unit :=
  node .classMember do
    call .decorators
    if (← isTypescript) then
      let early ← eatWord "declare"
      let _ ← modifier ["public", "protected", "private"]
      let late ← if early then pure false else eatWord "declare"
      if early || late then
        if (← memberNamedLikeModifier true) then return
    let isStatic ← eatWord "static"
    if isStatic then
      if (← memberNamedLikeModifier false) then return
    memberRest isStatic

def superClass : Grammar Unit := do
  within (fun c => { c with arrowStart := false }) (call .leftHandSide)
  if (← isTypescript) && (← isOpenAngle) then call (.typeArguments .plain)

/-- The types a class implements or an interface extends. -/
def heritageList : Grammar Unit :=
  node .heritage do
    let ends : Grammar Bool := do
      return (← isPunct .lbrace) || (← isWord "implements") || (← isWord "extends")
    loop do
      if (← ends) then return false
      node .ident anyWord
      call (.subscripts true true)
      if (← isOpenAngle) then call (.typeArguments .plain)
      if (← eat .comma) then return true
      if (← ends) then return false
      fail

/-- A class from its keyword on; `named` tells whether it must have a name. A body that the text
breaks off is complete. -/
def classRest (named : Bool) : Grammar Unit := do
  expectWord "class"
  if named then bindingName true
  else if (← isReference) || ((← isTypescript) && (← isWord "this")) then bindingName true
  let typescript ← isTypescript
  if typescript then optionalTypeParameters
  if (← eatWord "extends") then
    superClass
    if typescript then
      if (← eat .comma) then heritageList
  if (← eatWord "extends") then superClass
  if typescript then
    if (← eatWord "implements") then heritageList
    if (← eatWord "implements") then heritageList
    if (← eatWord "extends") then superClass
  expect .lbrace
  within (fun c => { c with inClass := true }) do
    loop do
      let l ← look
      if l.kind = .punct .rbrace || l.kind = .eof then return false
      if (← eat .semicolon) then return true
      classMember
      return true
  if (← look).kind ≠ .eof then expect .rbrace

end Rehome.Ecma.Grammar
