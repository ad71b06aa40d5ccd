import PlainScript.Grammar.Binding

/-!
# Types in Flow

Types are read only far enough to know where they end, since all of their tokens are erased.
-/

namespace PlainScript.Grammar.Flow

open Parse

def typeAfter (introducer : TokenKind) : Parse Unit := inType 0 do
  expect introducer
  reach .flowType

def checks : Parse Unit := do
  expect .modulo
  expectName .checksName
  if ← eat .parenOpen then
    reach (.expression false)
    expect .parenClose

def returnType : Parse Unit := inType 0 do
  expect .colon
  unless ← isAt .modulo do
    reach .flowType
  if ← isAt .modulo then checks

def typedIdentifier : Parse Unit := do
  identifier
  optionalTypeAnnotation

def typeParameter : Parse Unit := do
  variance
  typedIdentifier
  if ← eat .equals then reach .flowType

/-- Type parameters in angle brackets. There is at least one. -/
def typeParameters : Parse Unit := inType 0 do
  if ← isAtAny [.less, .typeParameterStart] then next else unexpected
  loop do
    typeParameter
    unless ← isAt .greater do
      expect .comma
    return !((← isAt .greater) || (← hasError))
  expect .greater

def optionalTypeParameters : Parse Unit := do
  if ← isAt .less then typeParameters

def typeArguments : Parse Unit := inType 0 do
  expect .less
  loopUntil .greater do
    reach .flowType
    unless ← isAt .greater do
      expect .comma
  expect .greater

def optionalTypeArguments : Parse Unit := do
  if ← isAt .less then typeArguments

/-- A parameter of a function type, with or without a name. -/
def functionTypeParameter : Parse Unit := do
  let after ← peekKind
  if after == .colon || after == .question then
    identifier
    skip .question
    typeAfter .colon
  else reach .flowType

def functionTypeParameters : Parse Unit := do
  loopWhile (return !(← isAtAny [.parenClose, .ellipsis]) && !(← hasError)) do
    functionTypeParameter
    unless ← isAt .parenClose do
      expect .comma
  if ← eat .ellipsis then functionTypeParameter

def parenthesizedParameters : Parse Unit := do
  expect .parenOpen
  functionTypeParameters
  expect .parenClose

def interfaceBase : Parse Unit := do
  identifier
  qualifiedRest
  optionalTypeArguments

def interfaceBases : Parse Unit := loop do
  interfaceBase
  eat .comma

def propertyKey : Parse Unit := do
  if ← isAtAny [.number, .string] then next else identifier

/-- A method, from its type parameters on. -/
def methodRest : Parse Unit := do
  optionalTypeParameters
  parenthesizedParameters
  typeAfter .colon

def propertyRest : Parse Unit := do
  if ← isAtAny [.less, .parenOpen] then methodRest
  else
    skip .question
    typeAfter .colon

/-- An indexer, after its opening bracket. -/
def indexer : Parse Unit := do
  if (← peekKind) == .colon then
    propertyKey
    typeAfter .colon
  else reach .flowType
  expect .bracketClose
  typeAfter .colon

/-- An internal slot, after both opening brackets. -/
def internalSlot : Parse Unit := do
  propertyKey
  expect .bracketClose
  expect .bracketClose
  propertyRest

/-- A property or a spread. A spread without a type says that there may be more properties. -/
def property : Parse Unit := do
  if ← eat .ellipsis then
    unless ← eat .comma do
      skip .semicolon
    unless ← isAt .braceClose do
      reach .flowType
  else
    propertyKey
    propertyRest

/-- A word in front of a member, unless it is the name of the member. -/
def memberWord (w : SoftKeyword) : Parse Bool := do
  if ← spells w then
    let after ← peekKind
    if after != .colon && after != .question then
      next
      return true
  return false

def member : Parse Unit := do
  variance
  if ← eat .bracketOpen then
    if ← eat .bracketOpen then internalSlot else indexer
  else if ← isAtAny [.parenOpen, .less] then methodRest
  else
    if ← (spells .getName <||> spells .setName) then
      if [.name, .string, .number].contains (← peekKind) then next
    property

/-- An object type. `proto` members are allowed in declared classes; after the first of them
`static` is an ordinary name. -/
def objectType (allowStatic allowExact allowProto : Bool) : Parse Unit := do
  let isExact := allowExact && (← isAt .exactBraceOpen)
  expect (if isExact then .exactBraceOpen else .braceOpen)
  let close := if isExact then .exactBraceClose else .braceClose
  discard <| iterate allowStatic fun allowStatic => do
    if (← isAt close) || (← hasError) then return .done allowStatic
    let mut allowStatic := allowStatic
    if allowProto then
      if ← memberWord .protoName then allowStatic := false
    if allowStatic then discard <| memberWord .staticName
    member
    unless ← (eat .semicolon <||> eat .comma <||> isAtAny [.braceClose, .exactBraceClose]) do
      unexpected
    return .yield allowStatic
  expect close

def interfaceType : Parse Unit := do
  expectName .interfaceName
  if ← eat .extendsWord then interfaceBases
  objectType false false false

def tupleType : Parse Unit := do
  expect .bracketOpen
  loop do
    if (← read).source.size ≤ (← get).current.stop then return false
    if (← isAt .bracketClose) || (← hasError) then return false
    reach .flowType
    if ← isAt .bracketClose then return false
    expect .comma
    return true
  expect .bracketClose

/-- Runs a rule with function types allowed or not where they have no parentheses. -/
def withAnonymousFunctionTypes {α : Type} (allowed : Bool) (rule : Parse α) : Parse α := do
  let outer := (← get).noAnonymousFunctionType
  modify fun σ => { σ with noAnonymousFunctionType := !allowed }
  let answer ← rule
  modify fun σ => { σ with noAnonymousFunctionType := outer }
  pure answer

/-- The rest of a function type, from its parameters on. -/
def functionTypeRest : Parse Unit := do
  functionTypeParameters
  expect .parenClose
  expect .arrow
  reach .flowType

def parenthesizedType : Parse Unit := do
  next
  let isGrouped ←
    if ← isAtAny [.parenClose, .ellipsis] then pure false
    else if ← isAt .name then
      let after ← peekKind
      pure (after != .question && after != .colon)
    else pure true
  if isGrouped then
    withAnonymousFunctionTypes true (reach .flowType)
    let isFunctionType ←
      isAt .comma <||> (isAt .parenClose <&&> (return (← peekKind) == .arrow))
    if (← get).noAnonymousFunctionType || !isFunctionType then
      expect .parenClose
    else
      skip .comma
      functionTypeRest
  else functionTypeRest

def primaryType : Parse Unit := do
  loopWhile (eat .typeofWord) (pure ())
  match ← kind with
  | .name =>
    if ← spells .interfaceName then interfaceType
    else
      identifier
      qualifiedRest
      optionalTypeArguments
  | .braceOpen => objectType false false false
  | .exactBraceOpen => objectType false true false
  | .bracketOpen => tupleType
  | .less =>
    typeParameters
    expect .parenOpen
    functionTypeRest
  | .parenOpen => parenthesizedType
  | .minus =>
    next
    next
  | .string | .number | .trueWord | .falseWord | .nullWord | .thisWord | .voidWord | .star => next
  | k =>
    if k.isReserved then
      next
      setKind .name
    else unexpected

def arrayType : Parse Unit := do
  primaryType
  let goesOn : Parse Bool := do
    if ← canInsertSemicolon then return false
    return (← isAtAny [.bracketOpen, .questionDot]) && !(← hasError)
  loopWhile goesOn do
    skip .questionDot
    expect .bracketOpen
    unless ← eat .bracketClose do
      reach .flowType
      expect .bracketClose

def anonymousFunctionType : Parse Unit := do
  loopWhile (eat .question) (pure ())
  arrayType
  unless (← get).noAnonymousFunctionType do
    if ← eat .arrow then reach .flowType

def intersectionType : Parse Unit := do
  skip .bitAnd
  anonymousFunctionType
  loopWhile (eat .bitAnd) anonymousFunctionType

def type : Parse Unit := do
  skip .bitOr
  intersectionType
  loopWhile (eat .bitOr) intersectionType

-- Rules that only put others together.
attribute [reducible] anonymousFunctionType arrayType checks functionTypeParameter
  functionTypeParameters functionTypeRest indexer interfaceBase interfaceBases interfaceType
  internalSlot intersectionType memberWord methodRest objectType optionalTypeArguments
  optionalTypeParameters parenthesizedParameters parenthesizedType property propertyKey propertyRest
  returnType tupleType typeAfter typeArguments typedIdentifier withAnonymousFunctionTypes

end PlainScript.Grammar.Flow
