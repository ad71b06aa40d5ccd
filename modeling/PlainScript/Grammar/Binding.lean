import PlainScript.Grammar.Annotation

/-!
# Bindings

Names that are declared: plain identifiers, patterns, defaults and rest elements, and the names of
properties.
-/

namespace PlainScript.Grammar

open Parse

def declarationRole (depth : Nat) (isBlockScoped : Bool) : IdentifierRole :=
  if depth = 0 then .topLevelDeclaration
  else if isBlockScoped then .blockScopedDeclaration
  else .functionScopedDeclaration

/-- The role of a property of an object pattern that is also the name it declares. -/
def shorthandRole (depth : Nat) (isBlockScoped : Bool) : IdentifierRole :=
  if depth = 0 then .shorthandTopLevelDeclaration
  else if isBlockScoped then .shorthandBlockScopedDeclaration
  else .shorthandFunctionScopedDeclaration

def markDeclared (isBlockScoped : Bool) : Parse Unit := do
  setRole (declarationRole (← get).scopeDepth isBlockScoped)

def bindingIdentifier (isBlockScoped : Bool) : Parse Unit := do
  identifier
  markDeclared isBlockScoped

def optionalDefault : Parse Unit := do
  if ← eat .equals then
    let equalsIndex ← lastIndex
    reach (.assignment false false)
    markRhsEnd equalsIndex

def bindingWithDefault (isBlockScoped : Bool) : Parse Unit := do
  reach (.bindingAtom isBlockScoped)
  optionalDefault

def restElement (isBlockScoped : Bool) : Parse Unit := do
  next
  reach (.bindingAtom isBlockScoped)

/-- Modifiers of a constructor parameter that also declare a property. -/
def parameterModifiers : List SoftKeyword :=
  [.publicName, .protectedName, .privateName, .readonlyName, .overrideName]

def bindingItem (allowModifiers isBlockScoped : Bool) : Parse Unit := do
  if allowModifiers then modifiers parameterModifiers
  bindingWithDefault isBlockScoped
  listItemTypes
  optionalDefault

/-- Bindings up to and including a closing token. The comma after a leading `this` parameter, which
is erased, is erased with it. -/
def bindingList (close : TokenKind) (isBlockScoped allowHoles allowModifiers : Bool)
    (contextId : Nat) : Parse Unit := do
  let firstItem ← tokenIndex
  discard <| iterate (true, false) fun (isFirst, commaErased) => do
    if ← eat close then return .done (isFirst, commaErased)
    if ← hasError then return .done (isFirst, commaErased)
    let mut commaErased := commaErased
    unless isFirst do
      expect .comma
      setContextIfAny contextId
      let firstIsType := ((← get).tokens[firstItem]?).any (·.isType)
      if !commaErased && firstIsType then
        annotateLast ({ · with isType := true })
        commaErased := true
    if ← (pure allowHoles <&&> isAt .comma) then return .yield (false, commaErased)
    if ← eat close then return .done (false, commaErased)
    if ← isAt .ellipsis then
      restElement isBlockScoped
      listItemTypes
      skip .comma
      expect close
      return .done (false, commaErased)
    bindingItem allowModifiers isBlockScoped
    return .yield (false, commaErased)

/-- A binding: a name, a list pattern, an object pattern, or a `this` parameter. -/
def bindingAtom (isBlockScoped : Bool) : Parse Unit := do
  match ← kind with
  | .thisWord => inType 0 next
  | .yieldWord | .name | .letWord =>
    retype .name
    bindingIdentifier isBlockScoped
  | .bracketOpen =>
    next
    bindingList .bracketClose isBlockScoped true false 0
  | .braceOpen => reach (.object true isBlockScoped)
  | _ => unexpected

/-- Variables with commas between them. In the head of a `for` loop an initial value must not
contain `in`. -/
def declarators (noIn isBlockScoped : Bool) : Parse Unit := loop do
  bindingAtom isBlockScoped
  variableTypes
  if ← eat .equals then
    let equalsIndex ← lastIndex
    reach (.assignment noIn false)
    markRhsEnd equalsIndex
  eat .comma

/-- A statement that declares variables, from its first word on. -/
def variableStatement (isBlockScoped : Bool) : Parse Unit := do
  next
  declarators false isBlockScoped
  semicolon

def propertyName (contextId : Nat) : Parse Unit := do
  if (← read).dialect.flow then variance
  if ← eat .bracketOpen then
    setContext contextId
    reach (.assignment false false)
    expect .bracketClose
    setContext contextId
  else
    if ← isAtAny [.number, .string, .bigint, .decimal] then next else privateOrPlainName
    setRole .objectKey
    setContextIfAny contextId

-- Rules that only put others together.
attribute [reducible] bindingIdentifier bindingItem bindingList bindingWithDefault declarators
  markDeclared restElement variableStatement

end PlainScript.Grammar
