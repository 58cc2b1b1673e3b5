import Rehome.Ecma.Grammar.Nonterminal

/-!
# Types

The grammar of types: conditional types over unions, intersections, operators, arrays and the simple
forms. Expressions occur in types as computed names of members.
-/
namespace Rehome.Ecma.Grammar

open Rule (look lookAhead shift mark wrap context within attempt call fail loop probe)

/-- A dotted name; words after the first may be reserved. A dot without a word ends it. -/
def entityName : Grammar Unit := do
  anyWord
  loop do
    if (← eat .dot) then
      match (← look).kind with
      | .word _ =>
        shift
        return true
      | .privateName => fail
      | _ => return false
    return false

/-- Type arguments, if an angle bracket opens on the same line. -/
def optionalTypeArguments : Grammar Unit := do
  if !(← look).newline && (← isOpenAngle) then call (.typeArguments .plain)

def optionalTypeParameters : Grammar Unit := do
  if (← isOpenAngle) then call .typeParameters

/-- Items between angle brackets; what follows them is read in the given mode. -/
def angleList (after : ScanMode) (item : Grammar Unit) : Grammar Unit := do
  openAngle
  loop do
    if (← isCloseAngle) then return false
    item
    if (← eat .comma) then return true
    if (← isCloseAngle) then return false
    fail
  closeAngle after

def typeArguments (after : ScanMode) : Grammar Unit :=
  node .typeArguments (angleList after (call .type))

/-- A type parameter with its modifiers, constraint and default. -/
def typeParameter : Grammar Unit := do
  loop (modifier ["public", "private", "protected", "readonly", "abstract", "const", "override",
    "in", "out"])
  anyWord
  if (← eatWord "extends") then call .type
  if (← eat .assign) then call .type

def typeParameters : Grammar Unit :=
  node .typeParameters (angleList .plain typeParameter)

/-- A type, or a predicate on a parameter. -/
def typeOrPredicate : Grammar Unit := do
  let asserts := (← isWord "asserts") && (← lookAhead).kind.isReference
  if asserts then shift
  let after ← lookAhead
  let tells := (← isReference) && after.kind = .word "is" && !after.newline
  if asserts || tells then
    anyWord
    if tells then
      shift
      call .type
  else call .type

/-- The result type of a function, after a colon or an arrow. -/
def returnType (colon : Bool) : Grammar Unit :=
  node .type do
    expect (if colon then .colon else .arrow)
    typeOrPredicate

/-- Whether a parenthesis opens the parameters of a function type. -/
def opensFunctionType : Grammar Bool := do
  if (← isOpenAngle) then return true
  if !(← isPunct .lparen) then return false
  probe do
    shift
    match (← look).kind with
    | .punct .rparen | .punct .ellipsis => return true
    | _ =>
      accessModifier
      let l ← look
      if l.kind.isReference || l.kind = .word "this" then shift
      else if l.kind = .punct .lbrace || l.kind = .punct .lbracket then call (.binding false)
      else fail
      match (← look).kind with
      | .punct .colon | .punct .comma | .punct .question | .punct .assign => return true
      | .punct .rparen =>
        shift
        isPunct .arrow
      | _ => return false

/-- Parameters of a signature, which have no defaults. -/
def signatureParameters : Grammar Unit := do
  expect .lparen
  call (.parameters false false)
  expect .rparen

def functionType : Grammar Unit := do
  optionalTypeParameters
  signatureParameters
  call (.returnType false)

/-- A type that is no conditional type. -/
def simpleType : Grammar Unit :=
  node .type do
    if (← opensFunctionType) then functionType
    else if (← isWord "new") then
      shift
      functionType
    else if (← isWord "abstract") && (← aheadIsWord "new") then
      shift
      shift
      functionType
    else
      let _ ← eat .bar
      let intersection : Grammar Unit := do
        let _ ← eat .amp
        call .operatorType
        loop do
          if (← eat .amp) then
            call .operatorType
            return true
          return false
      intersection
      loop do
        if (← eat .bar) then
          intersection
          return true
        return false

def conditionalType : Grammar Unit :=
  node .type do
    call .simpleType
    let l ← look
    if !l.newline && l.kind = .word "extends" && !(← context).noConditionalType then
      shift
      within (fun c => { c with noConditionalType := true }) (call .simpleType)
      expect .question
      within (fun c => { c with noConditionalType := false }) (call .type)
      expect .colon
      within (fun c => { c with noConditionalType := false }) (call .type)

/-- The words that are types by themselves. -/
def keywordTypes : List String :=
  ["any", "boolean", "bigint", "never", "number", "object", "string", "symbol", "unknown",
   "undefined", "void", "null"]

/-- Attributes of an import in a type. -/
def importTypeOptions : Grammar Unit :=
  node .attributes do
    expect .lbrace
    expectWord "with"
    expect .colon
    call .object
    let _ ← eat .comma
    expect .rbrace

/-- The type of an imported module. -/
def importType : Grammar Unit := do
  expectWord "import"
  expect .lparen
  shift
  if (← eat .comma) then
    if (← isPunct .lbrace) then importTypeOptions
  expect .rparen
  if (← eat .dot) then entityName
  if (← isOpenAngle) then call (.typeArguments .plain)

/-- Whether a brace opens a mapped type. -/
def opensMappedType : Grammar Bool :=
  probe do
    shift
    if (← eat .plus) then isWord "readonly"
    else if (← eat .minus) then isWord "readonly"
    else
      let _ ← eatWord "readonly"
      expect .lbracket
      if !(← isReference) then fail
      shift
      isWord "in"

def mappedType : Grammar Unit := do
  expect .lbrace
  if (← eat .plus) then expectWord "readonly"
  else if (← eat .minus) then expectWord "readonly"
  else
    let _ ← eatWord "readonly"
  expect .lbracket
  anyWord
  expectWord "in"
  call .type
  if (← eatWord "as") then call .type
  expect .rbracket
  if (← eat .plus) then expect .question
  else if (← eat .minus) then expect .question
  else
    let _ ← eat .question
  if (← eat .colon) then call .type
  terminator
  expect .rbrace

/-- An element of a tuple type, with its label. -/
def tupleElement : Grammar Unit := do
  attempt
    (do
      let _ ← eat .ellipsis
      anyWord
      let _ ← eat .question
      expect .colon)
    (pure ())
  if (← eat .ellipsis) then call .type
  else
    call .type
    let _ ← eat .question

/-- A template whose holes are types. -/
def templateType : Grammar Unit := do
  expectBefore .template .backquote
  loop do
    match (← look).kind with
    | .chunk closing _ =>
      shift
      if closing then return false
      call .type
      expectBefore .template .rbrace
      return true
    | _ => fail

/-- The types that need no brackets. -/
def atomicType : Grammar Unit := do
  let l ← look
  match l.kind with
  | .str | .number | .bigint => shift
  | .punct .minus =>
    shift
    match (← look).kind with
    | .number | .bigint => shift
    | _ => fail
  | .punct .lbrace => if (← opensMappedType) then mappedType else call .typeMembers
  | .punct .lbracket =>
    shift
    commaList .rbracket tupleElement
    expect .rbracket
  | .punct .lparen =>
    shift
    call .type
    expect .rparen
  | .punct .backquote => templateType
  | .word "this" =>
    shift
    if !(← look).newline && (← isWord "is") then
      shift
      call .type
  | .word "typeof" =>
    shift
    if (← isWord "import") then importType else entityName
    optionalTypeArguments
  | .word "import" => importType
  | .word "true" | .word "false" => shift
  | .word name =>
    if name = "asserts" && (← aheadIsWord "this") then
      shift
      shift
      if !(← look).newline && (← isWord "is") then
        shift
        call .type
    else if keywordTypes.contains name && !(← aheadIsPunct .dot) then shift
    else if Word.keywords.contains name && name ≠ "void" && name ≠ "null" && name ≠ "break" then
      fail
    else
      accessModifier
      entityName
      optionalTypeArguments
  | _ => fail

/-- A type before `[]` and `[index]`. -/
def arrayType : Grammar Unit := do
  atomicType
  loop do
    if !(← look).newline && (← isPunct .lbracket) then
      shift
      if !(← isPunct .rbracket) then call .type
      expect .rbracket
      return true
    return false

def operatorType : Grammar Unit :=
  node .type do
    if (← isWordOf ["keyof", "unique", "readonly"]) then
      shift
      call .operatorType
    else if (← isWord "infer") then
      shift
      anyWord
      attempt
        (do
          expectWord "extends"
          call .simpleType
          if !(← context).noConditionalType && (← isPunct .question) then fail)
        (pure ())
    else within (fun c => { c with noConditionalType := false }) arrayType

/-- A member of a type ends with a comma or like a statement. -/
def memberTerminator : Grammar Unit := do
  if !(← eat .comma) then terminator

/-- The parameters and result of a signature. -/
def signature : Grammar Unit := do
  optionalTypeParameters
  signatureParameters
  if (← isPunct .colon) then call (.returnType true)

/-- An index signature, if one opens here. Answers whether it did. -/
def indexSignature : Grammar Bool := do
  let opens ← do
    if (← isPunct .lbracket) then
      probe do
        shift
        if !(← isReference) then fail
        shift
        return (← isPunct .colon) || (← isPunct .comma)
    else pure false
  if !opens then return false
  shift
  anyWord
  shift
  call .type
  expect .rbracket
  typeAnnotation
  memberTerminator
  return true

/-- The name of a member of a type. -/
def memberName : Grammar Unit := do
  match (← look).kind with
  | .punct .lbracket =>
    shift
    call .assignment
    expect .rbracket
  | .word _ | .str | .number | .privateName => shift
  | _ => fail

/-- A getter or setter of a type. -/
def accessorSignature : Grammar Unit := do
  if (← eatWord "get") then
    memberName
    expect .lparen
    expect .rparen
    typeAnnotation
  else
    expectWord "set"
    memberName
    signatureParameters
  memberTerminator

def typeMember : Grammar Unit :=
  node .typeMember do
    if (← isPunct .lparen) || (← isOpenAngle) then
      signature
      memberTerminator
    else if (← isWord "new") && ((← aheadIsPunct .lparen) || (← aheadIsPunct .lt)) then
      shift
      signature
      memberTerminator
    else
      let isReadonly ← modifier ["readonly"]
      if !(← indexSignature) then
        let accessor ← do
          if isReadonly then pure false
          else attempt (do accessorSignature; return true) (return false)
        if !accessor then
          memberName
          let _ ← eat .question
          if (← isPunct .lparen) || (← isOpenAngle) then
            if isReadonly then fail
            signature
          else typeAnnotation
          memberTerminator

/-- The members of an object type or an interface. -/
def typeMembers : Grammar Unit := do
  expect .lbrace
  loop do
    if (← eat .rbrace) then return false
    typeMember
    return true

end Rehome.Ecma.Grammar
