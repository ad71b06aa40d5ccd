import PlainScript.Grammar.Class

/-!
# Declarations in TypeScript

Interfaces, type aliases, enumerations, namespaces and ambient declarations. All of them but
enumerations and abstract classes are erased.
-/

namespace PlainScript.Grammar.TypeScript

open Parse

/-- An interface from its name on. -/
def interfaceDeclaration : Parse Unit := do
  bindingIdentifier false
  optionalTypeParameters
  if ← eat .extendsWord then heritage
  objectType

/-- A type alias from its name on. -/
def typeAlias : Parse Unit := do
  bindingIdentifier false
  optionalTypeParameters
  expect .equals
  reach .tsType
  semicolon

def enumMember : Parse Unit := do
  if ← isAt .string then next else identifier
  optionalDefault

/-- An enumeration from its name on. -/
def enumDeclaration : Parse Unit := do
  bindingIdentifier false
  expect .braceOpen
  loopUntilEaten .braceClose do
    enumMember
    skip .comma

/-- The body of a namespace. `start?` is where a namespace that is not ambient starts; such a
namespace may hold only declarations that are erased. -/
def namespaceBody (start? : Option Nat) : Parse Unit := do
  expect .braceOpen
  let outer := (← get).isType
  if outer && start?.isNone then reach (.blockBody .braceClose)
  else
    modify fun σ => { σ with isType := false }
    let bodyStart ← tokenIndex
    reach (.blockBody .braceClose)
    modify fun σ => { σ with isType := outer }
    let stop ← tokenIndex
    let body := (← get).tokens.extract bodyStart (stop - 1)
    let hasValues := body.any fun t => !t.isType && t.kind != .semicolon
    markTypes bodyStart stop
    if hasValues then
      fail .namespaceWithValues (start?.getD (← read).source.size)

/-- A namespace from its name on. -/
def namespaceDeclaration (start? : Option Nat) : Parse Unit := do
  bindingIdentifier false
  loopWhile (eat .dot) (bindingIdentifier false)
  namespaceBody start?

/-- An ambient module, from its name on. -/
def ambientModule : Parse Unit := do
  if ← spells .globalName then identifier
  else if ← isAt .string then next
  else unexpected
  if ← isAt .braceOpen then namespaceBody none else semicolon

/-- What follows the `import` of `import a = b.c` and `import a = require('m')`. -/
def importEquals : Parse Unit := do
  importedIdentifier
  expect .equals
  if ← (spells .requireName <&&> (return (← peekKind) == .parenOpen)) then
    expectName .requireName
    expect .parenOpen
    unless ← isAt .string do
      unexpected
    next
    expect .parenClose
  else entityName
  semicolon

/-- Goes on after the word of a declaration, which has to be on the same line. The word is still
current if `wordIsCurrent`. -/
def afterDeclarationWord (wordIsCurrent : Bool) : Parse Bool := do
  if wordIsCurrent then
    next
    return true
  return !(← endsStatement)

/-- An abstract class, an interface, a namespace or a type alias, after or at the word that starts
it. A word that is still current may have an `export` before it that is erased too. Says whether
there was a declaration. -/
def declaration (word : SoftKeyword) (wordIsCurrent : Bool) : Parse Bool := do
  let erasedBefore := if wordIsCurrent then 2 else 1
  let here ← startPos
  let last? ← lastToken?
  let wordStart := if wordIsCurrent then here else (last?.map (·.start)).getD here
  let isAmbient := (← get).isType
  match word with
  | .abstractName =>
    if ← (afterDeclarationWord wordIsCurrent <&&> isAt .classWord) then
      setKind .abstractModifier
      classDefinition true false
      return true
  | .interfaceName =>
    if ← (afterDeclarationWord wordIsCurrent <&&> isAt .name) then
      inType erasedBefore interfaceDeclaration
      return true
  | .moduleName | .namespaceName =>
    if ← afterDeclarationWord wordIsCurrent then
      if ← (pure (word == .moduleName) <&&> isAt .string) then
        inType erasedBefore ambientModule
        return true
      if ← isAt .name then
        inType erasedBefore (namespaceDeclaration (if isAmbient then none else some wordStart))
        return true
  | .typeName =>
    if ← (afterDeclarationWord wordIsCurrent <&&> isAt .name) then
      inType erasedBefore typeAlias
      return true
  | _ => pure ()
  return false

def ambientDeclaration : Parse Bool := do
  if ← endsStatement then return false
  match ← kind with
  | .functionWord =>
    inType 1 do
      next
      functionRest (← startPos) true false
    return true
  | .classWord =>
    inType 1 (classDefinition true false)
    return true
  | .enumWord =>
    inType 1 do
      next
      enumDeclaration
    return true
  | .constWord =>
    if (← peekKind) == .enumWord then
      inType 1 do
        expect .constWord
        expect .enumWord
        enumDeclaration
    else inType 1 (variableStatement true)
    return true
  | .varWord =>
    inType 1 (variableStatement false)
    return true
  | .letWord =>
    inType 1 (variableStatement true)
    return true
  | .name =>
    inType 1 do
      let word ← keyword
      if word == .globalName then
        ambientModule
        return true
      declaration word true
  | _ => return false

/-- A statement that started with a lone identifier. Says whether it was a declaration. -/
def identifierDeclaration (word : SoftKeyword) : Parse Bool := do
  match word with
  | .declareName =>
    let declareIndex ← lastIndex
    let isDeclaration ← ambientDeclaration
    if isDeclaration then annotateAt declareIndex ({ · with kind := .declareModifier })
    return isDeclaration
  | .globalName =>
    if ← isAt .braceOpen then
      namespaceBody none
      return true
    return false
  | _ => declaration word false

/-- Whether the current lexeme can start a declaration that only TypeScript has. -/
def isAtDeclaration : Parse Bool := do
  let word ← keyword
  return (← isAt .enumWord) || ((← isAt .name) &&
    [.abstractName, .declareName, .interfaceName, .moduleName, .namespaceName, .typeName].contains
      word)

def enumStatement : Parse Bool := do
  if ← isAt .enumWord then
    next
    enumDeclaration
    return true
  if ← (isAt .constWord <&&> (return (← peekKind) == .enumWord)) then
    expect .constWord
    expect .enumWord
    enumDeclaration
    return true
  return false

def exportDeclaration : Parse Unit := do
  let isDeclare ← eatName .declareName
  if isDeclare then setKind .declareModifier
  let erased (rule : Parse Bool) : Parse Bool := if isDeclare then inType 2 rule else rule
  let word ← keyword
  unless ← (isAt .name <&&> erased (declaration word true)) do
    discard <| erased do
      reach (.statement true)
      return true

/-- A default export that only TypeScript has, after `default`. Says whether there was one. -/
def exportDefault : Parse Bool := do
  if ← (spells .abstractName <&&> (return (← peekKind) == .classWord)) then
    retype .abstractModifier
    next
    classDefinition true true
    return true
  if ← spells .interfaceName then
    discard <| inType 2 (declaration .interfaceName true)
    return true
  return false

/-- An export that only TypeScript has, after `export`. The `type` of an erased export clause is
consumed. Says whether the whole export was read. -/
def exportStart : Parse Bool := do
  if ← eat .importWord then
    if ← (spells .typeName <&&> (return (← peekKind) != .equals)) then expectName .typeName
    importEquals
    return true
  if ← eat .equals then
    reach (.expression false)
    semicolon
    return true
  if ← eatName .asName then
    expectName .namespaceName
    identifier
    semicolon
    return true
  if ← isAtName .typeName then
    let after ← peekKind
    if after == .braceOpen || after == .star then next
  return false

-- Rules that only put others together.
attribute [reducible] afterDeclarationWord ambientModule enumDeclaration enumMember enumStatement
  exportDeclaration exportStart interfaceDeclaration isAtDeclaration namespaceBody
  namespaceDeclaration typeAlias

end PlainScript.Grammar.TypeScript
