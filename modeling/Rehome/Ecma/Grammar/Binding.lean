import Rehome.Ecma.Grammar.Nonterminal

/-!
# Bindings and parameters

The names and patterns that declarations and functions bind.
-/
namespace Rehome.Ecma.Grammar

open Rule (look lookAhead shift mark wrap context within attempt call fail loop)

/-- The name of a binding. Reserved words that only strict code forbids are let through; `await` is
not, except in ambient declarations. -/
def bindingName (noLet : Bool) : Grammar Unit := do
  match (← look).kind with
  | .word name =>
    if name = "let" && noLet then fail
    if name = "await" && !(← context).inDeclare then fail
    if Word.keywords.contains name && !(name = "this" && (← isTypescript)) then fail
    shift
  | _ => fail

/-- A pattern with its default value. -/
def bindingElement : Grammar Unit := do
  call (.binding false)
  if (← eat .assign) then within (fun c => { c with inOperator := true }) (call .assignment)

def arrayBinding : Grammar Unit := do
  expect .lbracket
  loop do
    if (← isPunct .rbracket) then return false
    if (← eat .comma) then return true
    if (← eat .ellipsis) then call (.binding false) else bindingElement
    if !(← isPunct .rbracket) then expect .comma
    return true
  expect .rbracket

def bindingProperty : Grammar Unit := do
  if (← eat .ellipsis) then call (.binding false)
  else
    let isName ← propertyName
    if (← eat .colon) then bindingElement
    else
      if !isName then fail
      if (← eat .assign) then
        within (fun c => { c with inOperator := true }) (call .assignment)

def objectBinding : Grammar Unit := do
  expect .lbrace
  within (fun c => { c with colonExpected := false }) (commaList .rbrace bindingProperty)
  expect .rbrace

/-- A name or a pattern. -/
def binding (noLet : Bool) : Grammar Unit :=
  node .pattern do
    match (← look).kind with
    | .punct .lbracket =>
      arrayBinding
      if (← context).inDeclare then
        let _ ← eat .question
    | .punct .lbrace =>
      objectBinding
      if (← context).inDeclare then
        let _ ← eat .question
    | _ => bindingName noLet

/-- A parameter; `defaults` tells whether it may have a default value. -/
def parameter (defaults constructor : Bool) : Grammar Unit :=
  node .parameter do
    if constructor then
      loop (do
        if (← isTypescript) then
          modifier ["public", "protected", "private", "override", "readonly"]
        else return false)
    else accessModifier
    call (.binding false)
    if (← isTypescript) then
      let _ ← eat .question
      typeAnnotation
    if (← isPunct .assign) then
      if !defaults then fail
      shift
      call .assignment

def restParameter : Grammar Unit :=
  node .parameter do
    expect .ellipsis
    call (.binding false)
    if (← eat .assign) then call .assignment
    typeAnnotation
    if (← isTypescript) then
      let _ ← eat .question

/-- Parameters up to the closing parenthesis, which is not taken. -/
def parameters (defaults constructor : Bool) : Grammar Unit :=
  node .parameters do
    commaList .rparen do
      call .decorators
      if (← isPunct .ellipsis) then restParameter else parameter defaults constructor

end Rehome.Ecma.Grammar
