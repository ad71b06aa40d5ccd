import PlainScript.Grammar.Binding

/-!
# Types in TypeScript

Types are read only far enough to know where they end, since all of their tokens are erased.
-/

namespace PlainScript.Grammar.TypeScript

open Parse

inductive FunctionTypeHead where
  | plain
  | constructor
  | abstractConstructor
deriving DecidableEq, Repr

def withConditionalTypes (allowed : Bool) (rule : Parse Unit) : Parse Unit := do
  let outer := (← get).noConditionalType
  modify fun σ => { σ with noConditionalType := !allowed }
  rule
  modify fun σ => { σ with noConditionalType := outer }

def entityName : Parse Unit := do
  identifier
  qualifiedRest

/-- Type arguments in angle brackets. Outside of a type the closing bracket is read again as an
operator, so that a comparison such as `a < b, c >= d` is not taken for type arguments. -/
def typeArguments : Parse Unit := do
  let outer := (← get).isType
  inType 0 do
    expect .less
    loopUntil .greater do
      reach .tsType
      skip .comma
    if outer then expect .greater
  unless outer do
    rereadGreater
    expect .greater
    annotateLast ({ · with isType := true })

/-- Type arguments of an expression, which may start with half of a `<<`. -/
def splitTypeArguments : Parse Unit := do
  splitShiftLeft
  typeArguments

def typeArgumentsOnLine : Parse Unit := do
  unless ← afterLineBreak do
    if ← isAt .less then typeArguments

def importType : Parse Unit := do
  expect .importWord
  expect .parenOpen
  expect .string
  expect .parenClose
  if ← eat .dot then entityName
  if ← isAt .less then typeArguments

def typeQuery : Parse Unit := do
  expect .typeofWord
  if ← isAt .importWord then importType else entityName
  typeArgumentsOnLine

def typeParameter : Parse Unit := do
  skip .constWord
  let hadIn ← eat .inWord
  let hadOut ← eatName .outName
  skip .constWord
  if (hadIn || hadOut) && !(← isAt .name) then
    -- The word itself was the name of the parameter.
    setKind .name
  else identifier
  if ← eat .extendsWord then reach .tsType
  if ← eat .equals then reach .tsType

def typeParameters : Parse Unit := inType 0 do
  if ← isAtAny [.less, .typeParameterStart] then next else unexpected
  loopUntilEaten .greater do
    typeParameter
    skip .comma

def optionalTypeParameters : Parse Unit := do
  if ← isAt .less then typeParameters

/-- A return type that is a predicate on a parameter. Says whether there was one. -/
def typePredicate : Parse Bool := do
  let p ← snapshot
  if ← isAtName .assertsName then
    next
    if ← eatName .isName then
      reach .tsType
      return true
    if ← isAtAny [.name, .thisWord] then
      next
      if ← eatName .isName then reach .tsType
      return true
    restore p
    return false
  if ← isAtAny [.name, .thisWord] then
    next
    if (← spells .isName) && !(← afterLineBreak) then
      next
      reach .tsType
      return true
    restore p
  return false

def returnType (introducer : TokenKind) : Parse Unit := inType 0 do
  expect introducer
  unless ← typePredicate do
    reach .tsType

def optionalReturnType : Parse Unit := do
  if ← isAt .colon then returnType .colon

/-- The parameters and the return type of a signature. An arrow requires the return type. The
parameters are never bindings of the top level. -/
def signature (introducer : TokenKind) : Parse Unit := do
  optionalTypeParameters
  expect .parenOpen
  openScope
  bindingList .parenClose false false false 0
  leaveScope
  if introducer == .arrow || (← isAt introducer) then returnType introducer

def memberEnd : Parse Unit := do
  unless ← eat .comma do
    semicolon

def opensIndexSignature : Parse Bool := peek do
  next
  eat .name <&&> isAt .colon

def indexSignature : Parse Bool := do
  if ← (isAt .bracketOpen <&&> opensIndexSignature) then
    inType 0 do
      expect .bracketOpen
      identifier
      typeAnnotation
      expect .bracketClose
      optionalTypeAnnotation
      memberEnd
    return true
  return false

def memberRest (isReadonly : Bool) : Parse Unit := do
  skip .question
  if !isReadonly && (← isAtAny [.parenOpen, .less]) then signature .colon
  else optionalTypeAnnotation
  memberEnd

def typeMember : Parse Unit := do
  if ← isAtAny [.parenOpen, .less] then
    signature .colon
    memberEnd
  else if ← isAt .newWord then
    next
    if ← isAtAny [.parenOpen, .less] then
      signature .colon
      memberEnd
    else memberRest false
  else
    let isReadonly ← eatModifier [.readonlyName]
    unless ← indexSignature do
      if ← (spells .getName <||> spells .setName) then discard eatAsModifier
      propertyName 0
      memberRest isReadonly

def objectType : Parse Unit := do
  expect .braceOpen
  loopUntilEaten .braceClose typeMember

def opensMappedType : Parse Bool := peek do
  next
  if ← (eat .plus <||> eat .minus) then return ← spells .readonlyName
  if ← spells .readonlyName then next
  unless ← isAt .bracketOpen do
    return false
  next
  unless ← isAt .name do
    return false
  next
  isAt .inWord

def mappedType : Parse Unit := do
  expect .braceOpen
  if ← isAtAny [.plus, .minus] then
    next
    expectName .readonlyName
  else discard <| eatName .readonlyName
  expect .bracketOpen
  identifier
  expect .inWord
  reach .tsType
  if ← eatName .asName then reach .tsType
  expect .bracketClose
  if ← isAtAny [.plus, .minus] then
    next
    expect .question
  else skip .question
  if ← eat .colon then reach .tsType
  semicolon
  expect .braceClose

/-- An element of a tuple type, which may have a label. -/
def tupleElement : Parse Unit := do
  if ← eat .ellipsis then reach .tsType
  else
    reach .tsType
    skip .question
  if ← eat .colon then reach .tsType

def tupleType : Parse Unit := do
  expect .bracketOpen
  loopUntil .bracketClose do
    tupleElement
    unless ← (eat .comma <||> isAt .bracketClose) do
      expect .comma
  expect .bracketClose

def templateType : Parse Unit := do
  nextInTemplate
  nextInTemplate
  loopUntil .backquote do
    expect .dollarBrace
    reach .tsType
    nextInTemplate
    nextInTemplate
  next

def functionType (head : FunctionTypeHead) : Parse Unit := do
  if head == .abstractConstructor then expectName .abstractName
  if head != .plain then expect .newWord
  withConditionalTypes true (signature .arrow)

def primaryType : Parse Unit := do
  match ← kind with
  | .name =>
    entityName
    typeArgumentsOnLine
  | .voidWord | .nullWord | .string | .number | .bigint | .decimal | .trueWord | .falseWord => next
  | .minus =>
    next
    if ← isAtAny [.number, .bigint] then next else unexpected
  | .thisWord =>
    next
    if (← spells .isName) && !(← afterLineBreak) then
      next
      reach .tsType
  | .typeofWord => typeQuery
  | .importWord => importType
  | .braceOpen => if ← opensMappedType then mappedType else objectType
  | .bracketOpen => tupleType
  | .parenOpen =>
    expect .parenOpen
    reach .tsType
    expect .parenClose
  | .backquote => templateType
  | k =>
    if k.isReserved then
      next
      setKind .name
    else unexpected

def arrayType : Parse Unit := do
  primaryType
  loopWhile (return !(← afterLineBreak) && (← isAt .bracketOpen)) do
    next
    unless ← eat .bracketClose do
      reach .tsType
      expect .bracketClose

/-- An inferred type. What follows `extends` is its constraint unless it turns out to be the
condition of a conditional type. -/
def inferType : Parse Unit := do
  expectName .inferName
  identifier
  if ← isAt .extendsWord then
    let p ← snapshot
    expect .extendsWord
    withConditionalTypes false (reach .tsType)
    if ← (hasError <||> (return !(← get).noConditionalType && (← isAt .question))) then
      restore p

def operatorType : Parse Unit := do
  let isOperator (w : SoftKeyword) := w == .keyofName || w == .uniqueName || w == .readonlyName
  loopWhile (return (← isAt .name) && isOperator (← keyword)) next
  if ← isAtName .inferName then inferType
  else withConditionalTypes true arrayType

def intersectionType : Parse Unit := do
  skip .bitAnd
  operatorType
  loopWhile (eat .bitAnd) operatorType

def unionType : Parse Unit := do
  skip .bitOr
  intersectionType
  loopWhile (eat .bitOr) intersectionType

/-- Steps over the start of a parameter. Says whether there was one. -/
def skipParameterStart : Parse Bool := do
  if ← isAtAny [.name, .thisWord] then
    next
    return true
  unless ← isAtAny [.braceOpen, .bracketOpen] do
    return false
  next
  discard <| iterate 1 fun (depth : Nat) => do
    if depth == 0 || (← hasError) then return .done depth
    let k ← kind
    next
    return .yield <|
      if k == .braceOpen || k == .bracketOpen then depth + 1
      else if k == .braceClose || k == .bracketClose then depth - 1
      else depth
  return true

def opensFunctionType : Parse Bool := peek do
  next
  if ← isAtAny [.parenClose, .ellipsis] then return true
  unless ← skipParameterStart do
    return false
  if ← isAtAny [.colon, .comma, .question, .equals] then return true
  if ← isAt .parenClose then
    next
    return ← isAt .arrow
  return false

def unconditionalType : Parse Unit := do
  if ← (isAt .less <||> (isAt .parenOpen <&&> opensFunctionType)) then functionType .plain
  else if ← isAt .newWord then functionType .constructor
  else if ← (isAtName .abstractName <&&> (return (← peekKind) == .newWord)) then
    functionType .abstractConstructor
  else unionType

def type : Parse Unit := do
  unconditionalType
  unless (← get).noConditionalType || (← afterLineBreak) do
    if ← eat .extendsWord then
      withConditionalTypes false unconditionalType
      expect .question
      reach .tsType
      expect .colon
      reach .tsType

/-- Names with type arguments and commas between them, up to an opening brace. -/
def heritage : Parse Unit :=
  loopUntil .braceOpen do
    entityName
    if ← isAt .less then typeArguments
    skip .comma

-- Rules that only put others together.
attribute [reducible] arrayType entityName functionType heritage importType inferType
  intersectionType mappedType memberEnd memberRest objectType opensFunctionType opensIndexSignature
  opensMappedType operatorType optionalReturnType optionalTypeParameters returnType signature
  skipParameterStart splitTypeArguments templateType tupleElement tupleType typeArguments
  typeArgumentsOnLine typeMember typePredicate typeQuery unconditionalType unionType
  withConditionalTypes

end PlainScript.Grammar.TypeScript
