import PlainScript.Grammar.FlowType

/-!
# Declarations in Flow

Type aliases, opaque types, interfaces and everything after `declare`. All of them are erased.
-/

namespace PlainScript.Grammar.Flow

open Parse

/-- A type alias from its name on. -/
def typeAlias : Parse Unit := do
  identifier
  optionalTypeParameters
  typeAfter .equals
  semicolon

/-- An opaque type from its `type` word on. A declared one has no definition. -/
def opaqueType (isDeclared : Bool) : Parse Unit := do
  expectName .typeName
  identifier
  optionalTypeParameters
  if ← isAt .colon then typeAfter .colon
  unless isDeclared do
    typeAfter .equals
  semicolon

/-- An interface or a declared class, from its name on. A class extends only one class. -/
def interfaceRest (isClass : Bool) : Parse Unit := do
  identifier
  optionalTypeParameters
  if ← eat .extendsWord then
    if isClass then interfaceBase else interfaceBases
  if ← spells .mixinsName then
    next
    interfaceBases
  if ← spells .implementsName then
    next
    interfaceBases
  objectType isClass false isClass

/-- A declared function, from its `function` word on. -/
def declareFunction : Parse Unit := do
  next
  identifier
  optionalTypeParameters
  parenthesizedParameters
  returnType
  semicolon

/-- A declared module, from its name on. -/
def declareModule : Parse Unit := do
  if ← isAt .string then next else identifier
  expect .braceOpen
  loopUntil .braceClose do
    if ← isAt .importWord then
      next
      reach .importClause
    else
      expectName .declareName
      reach .flowDeclare
  expect .braceClose

/-- A declared export, from its `export` word on. -/
def declareExport : Parse Unit := do
  expect .exportWord
  if ← eat .defaultWord then
    if ← isAtAny [.functionWord, .classWord] then reach .flowDeclare
    else
      reach .flowType
      semicolon
  else if ← (isAtAny [.varWord, .functionWord, .classWord] <||> spells .opaqueName) then
    reach .flowDeclare
  else if ← (isAtAny [.star, .braceOpen] <||> spells .interfaceName <||> spells .typeName) then
    reach .exportClause
  else unexpected

/-- What follows `declare`, already inside a type. -/
def declare : Parse Unit := do
  match ← kind with
  | .classWord =>
    next
    interfaceRest true
  | .functionWord => declareFunction
  | .varWord =>
    next
    typedIdentifier
    semicolon
  | k =>
    if ← eatName .moduleName then
      if ← eat .dot then
        expectName .exportsName
        typeAnnotation
        semicolon
      else declareModule
    else if ← spells .typeName then
      next
      typeAlias
    else if ← spells .opaqueName then
      next
      opaqueType true
    else if ← spells .interfaceName then
      next
      interfaceRest false
    else if k == .exportWord then declareExport
    else unexpected

def interfaceStatement : Parse Bool := do
  if ← (isAtName .interfaceName <&&> (return (← peekKind) == .name)) then
    inType 0 do
      next
      interfaceRest false
    return true
  return false

/-- A statement that started with a lone identifier. Says whether it was a declaration. -/
def identifierDeclaration (word : SoftKeyword) : Parse Bool := do
  let k ← kind
  let rule? : Option (Parse Unit) :=
    match word with
    | .declareName =>
      if [.classWord, .name, .functionWord, .varWord, .exportWord].contains k then
        some (reach .flowDeclare)
      else none
    | .interfaceName => if k == .name then some (interfaceRest false) else none
    | .typeName => if k == .name then some typeAlias else none
    | .opaqueName => if k == .name then some (opaqueType false) else none
    | _ => none
  match rule? with
  | some rule =>
    inType 1 rule
    return true
  | none => return false

/-- Whether the current lexeme starts a declaration that only Flow has. -/
def isAtDeclaration : Parse Bool := do
  let word ← keyword
  return (← isAt .name) && [.typeName, .interfaceName, .opaqueName].contains word

-- Rules that only put others together.
attribute [reducible] declareExport declareFunction declareModule interfaceRest isAtDeclaration
  opaqueType typeAlias

end PlainScript.Grammar.Flow
