import Rehome.Ecma.Grammar.Expression

/-!
# Elements of markup

Elements and fragments with their attributes, text and holes. A closing tag repeats the name of its
opening tag.
-/
namespace Rehome.Ecma.Grammar

open Rule (look lookAhead shift mark wrap context within attempt call fail loop)

/-- Fails, and leaves nothing that could be read instead. -/
def refuse {α : Type} : Grammar α := do
  Rule.rescan .nothing
  fail

/-- One name of a tag or an attribute; another may follow it. -/
def markupName : Grammar String := do
  match (← look).kind with
  | .jsxName name =>
    Rule.take .markupName
    return name
  | _ => refuse

/-- A name with the namespace before it. -/
def namespacedName : Grammar String := do
  let name ← markupName
  if (← eatBefore .markupName .colon) then return name ++ ":" ++ (← markupName)
  return name

/-- The name of a tag, which may be dotted. -/
def tagName : Grammar String := do
  let more (name : String) : Grammar (Option String) := do
    if (← eatBefore .markupName .dot) then return some (name ++ "." ++ (← markupName))
    return none
  Rule.iterate more (← namespacedName)

/-- The circumstances in a hole or an attribute. -/
def Context.hole (c : Context) : Context :=
  { c with inOperator := true, inConditional := false, colonExpected := false }

/-- An expression in braces; `empty` tells whether it may be missing. What follows it is read in the
given mode. -/
def hole (empty : Bool) (after : ScanMode) : Grammar Unit := do
  expect .lbrace
  if (← isPunct .rbrace) then
    if !empty then fail
  else
    let _ ← eat .ellipsis
    within Context.hole (call .expression)
  expectBefore after .rbrace

def markupAttribute : Grammar Unit := do
  if (← eat .lbrace) then
    expect .ellipsis
    within Context.hole (call .assignment)
    expectBefore .markupName .rbrace
  else
    let _ ← namespacedName
    if (← eatBefore .markupString .assign) then
      match (← look).kind with
      | .punct .lbrace => hole false .markupName
      | .punct .lt => within Context.hole (call (.element .markupName))
      | .jsxString => Rule.take .markupName
      | _ => refuse

/-- Attributes up to the end of the opening tag. -/
def attributes : Grammar Unit :=
  loop do
    let l ← look
    if l.kind = .punct .slash || l.kind = .punct .slashAssign || l.kind = .eof then return false
    if (← isCloseAngle) then return false
    markupAttribute
    return true

/-- The children of an element and its closing tag, whose name is given. -/
def children (name : String) (after : ScanMode) : Grammar Unit := do
  loop do
    match (← look).kind with
    | .jsxText =>
      Rule.take .markupChild
      return true
    | .punct .lbrace =>
      hole true .markupChild
      return true
    | .punct .lt =>
      if (← aheadIsPunct .slash) then return false
      call (.element .markupChild)
      return true
    | _ => fail
  expect .lt
  expectBefore .markupName .slash
  let closing ← if (← isCloseAngle) then pure "" else tagName
  if closing ≠ name then fail
  closeAngle after

/-- An element or a fragment; what follows it is read in the given mode. -/
def element (after : ScanMode) : Grammar Unit :=
  node .markup do
    expectBefore .markupName .lt
    if (← isCloseAngle) then
      closeAngle .markupChild
      children "" after
    else
      let name ← tagName
      if (← isTypescript) && (← isOpenAngle) then
        attempt (call (.typeArguments .markupName)) (pure ())
      attributes
      if (← eat .slash) then closeAngle after
      else
        closeAngle .markupChild
        children name after

end Rehome.Ecma.Grammar
