import Rehome.Ecma.Grammar.Binding
import Rehome.Ecma.Grammar.Type

/-!
# Functions and decorators

Everything of a function after its name, and the decorators before classes, members and parameters.
-/
namespace Rehome.Ecma.Grammar

open Rule (look lookAhead shift mark wrap context within attempt call fail loop)

/-- The circumstances in the body of a function. -/
def Context.body (isAsync isGenerator : Bool) (c : Context) : Context :=
  { c with
    inAsync := isAsync, inGenerator := isGenerator, inFunction := true, inParameters := false
    inStaticBlock := false, inOperator := true, arrowStart := false, inForHead := false
    inConditional := false, colonExpected := false }

/-- The parameters, result type and body of a function. Where the language has types a function may
end without a body, unless it is an expression. -/
def functionRest (isAsync isGenerator isExpression constructor : Bool) : Grammar Unit := do
  within
    (fun c =>
      { c with
        inAsync := isAsync, inGenerator := isGenerator, inParameters := true, inFunction := false
        colonExpected := false })
    do
      if (← isTypescript) then optionalTypeParameters
      expect .lparen
      call (.parameters true constructor)
      expect .rparen
      if (← isTypescript) then
        if (← isPunct .colon) then call (.returnType true)
  let bodiless ← do
    if (← isTypescript) && !(← isPunct .lbrace) then eatTerminator else pure false
  if bodiless then
    if isExpression then fail
  else within (Context.body isAsync isGenerator) (call .block)

/-- The body of an arrow function: a block or an expression. -/
def arrowBody (isAsync : Bool) : Grammar Unit := do
  if (← isPunct .lbrace) then within (Context.body isAsync false) (call .block)
  else
    within
      (fun c =>
        { c with
          inAsync := isAsync, inGenerator := false, inFunction := true, inParameters := false
          inStaticBlock := false })
      (call .assignment)

/-- A function that starts with its keyword; `named` tells whether it must have a name. -/
def functionNode (isAsync isExpression named : Bool) : Grammar Unit := do
  expectWord "function"
  let isGenerator ← eat .star
  if named then bindingName false
  else if (← isReference) || ((← isTypescript) && (← isWord "this")) then bindingName false
  call (.functionRest isAsync isGenerator isExpression false)

def decorator : Grammar Unit :=
  node .decorator do
    expect .atSign
    match (← look).kind with
    | .punct .lparen =>
      node .paren do
        shift
        call .expression
        expect .rparen
    | .word name =>
      if Word.keywords.contains name || name = "await" then fail
      node .ident shift
      call (.subscripts false true)
    | _ => fail
    if (← isTypescript) && (← isOpenAngle) then
      onto .call do
        call (.typeArguments .plain)
        call .arguments
    else if (← isPunct .lparen) then onto .call (call .arguments)

def decorators : Grammar Unit :=
  loop do
    if (← isPunct .atSign) then
      decorator
      return true
    return false

end Rehome.Ecma.Grammar
