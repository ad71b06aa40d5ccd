import PlainScript.Grammar.FlowDeclaration
import PlainScript.Grammar.TypeScriptDeclaration

/-!
# Imports and exports

Specifiers of import and export clauses get the roles from which later passes learn what a module
binds and exports. A specifier that starts with the word `type` is erased.
-/

namespace PlainScript.Grammar

open Parse

inductive ClauseKind where
  | importing
  | exporting
deriving DecidableEq, Repr

/-- How the words of a specifier are used. -/
structure SpecifierShape where
  /-- The place of the name that is looked up, counted from the first word. -/
  access : Nat
  declaration : Nat
  isType : Bool
deriving DecidableEq, Repr

/-- The shape of a specifier with a number of words: `a`, `type a`, `a as b` or `type a as b`. -/
def SpecifierShape.ofWords : Nat → SpecifierShape
  | 1 => ⟨0, 0, false⟩
  | 2 => ⟨1, 1, true⟩
  | 3 => ⟨0, 2, false⟩
  | _ => ⟨1, 3, true⟩

def SpecifierShape.role? (shape : SpecifierShape) (clause : ClauseKind) (place : Nat) :
    Option IdentifierRole :=
  match clause with
  | .importing =>
    if place = shape.declaration then some .importDeclaration
    else if place = shape.access then some .importAccess
    else none
  | .exporting => if place = shape.access then some .exportAccess else none

/-- A specifier that may start with the word `type`. -/
def typedSpecifier (clause : ClauseKind) : Parse Unit := do
  let start ← tokenIndex
  identifier
  let words ← iterate 1 fun (words : Nat) => do
    if words < 4 && !(← isAtAny [.comma, .braceClose]) && !(← hasError) then
      identifier
      return .yield (words + 1)
    return .done words
  let shape := SpecifierShape.ofWords words
  let stop ← tokenIndex
  requireRange start stop
  if shape.isType then markTypes start stop
  for place in List.range (stop - start) do
    if let some role := shape.role? clause place then
      annotateAt (start + place) ({ · with role? := some role })

/-- Attributes of an import, after `with` or `assert`. -/
def importAttributes : Parse Unit := do
  if ← (isAt .withWord <||> (isAtName .assertName <&&> (return !(← afterLineBreak)))) then
    next
    object false false

/-! ## Exports -/

def exportSpecifier : Parse Unit := do
  if (← read).dialect.typescript then typedSpecifier .exporting
  else
    identifier
    setRole .exportAccess
    if ← eatName .asName then identifier

def exportSpecifiers : Parse Unit := do
  expect .braceOpen
  commaList .braceClose exportSpecifier

/-- The end of an export, with the module it takes its values from if there is one. -/
def exportFrom : Parse Unit := do
  if ← eatName .fromName then
    discard operand
    importAttributes
  semicolon

/-- An export of a whole module, from the star on. -/
def exportStar : Parse Unit := do
  expect .star
  if ← isAtName .asName then
    next
    setKind .asModifier
    identifier
    if ← eat .comma then exportSpecifiers
  exportFrom

def isAtExportStar : Parse Bool :=
  isAt .star <||> ((return (← read).dialect.flow) <&&> spells .typeName <&&>
    (return (← peekKind) == .star))

/-- Whether a name follows that is exported from another module, as in `export a from 'm'`. -/
def isAtExportedName : Parse Bool := do
  let dialect := (← read).dialect
  if ← (pure dialect.typescript <&&> TypeScript.isAtDeclaration) then return false
  if ← (pure dialect.flow <&&> Flow.isAtDeclaration) then return false
  if ← isAt .name then return !(← spells .asyncName)
  unless ← isAt .defaultWord do
    return false
  let after ← peekLexeme
  if after.kind == .comma then return true
  if after.kind == .name && after.keyword == .fromName then
    let s := (← read).source
    let quote := s.byteAt (s.skipTrivia ((← peekPos) + "from".length))
    return quote == '"' || quote == '\''
  return false

def exportDefault : Parse Unit := do
  if ← (return (← read).dialect.typescript) <&&> TypeScript.exportDefault then return
  let functionStart ← startPos
  if ← eat .functionWord then functionRest functionStart true true
  else if ← (spells .asyncName <&&> (return (← peekKind) == .functionWord)) then
    discard <| eatName .asyncName
    skip .functionWord
    functionRest functionStart true true
  else if ← isAt .classWord then classDefinition true true
  else if ← isAt .atSign then
    decorators
    classDefinition true true
  else
    reach (.assignment false false)
    semicolon

def isAtExportedDeclaration : Parse Bool := do
  let dialect := (← read).dialect
  (pure dialect.typescript <&&> TypeScript.isAtDeclaration) <||>
    (pure dialect.flow <&&> Flow.isAtDeclaration) <||>
    isAtAny [.varWord, .constWord, .letWord, .functionWord, .classWord, .atSign] <||>
    isAtName .asyncName

def flowExportDeclaration : Parse Unit := do
  if ← spells .typeName then
    inType 1 do
      next
      if ← isAt .braceOpen then
        exportSpecifiers
        exportFrom
      else Flow.typeAlias
  else if ← spells .opaqueName then
    inType 1 do
      next
      Flow.opaqueType false
  else if ← spells .interfaceName then
    inType 1 do
      next
      Flow.interfaceRest false
  else reach (.statement true)

/-- An export of a whole module, erased if the word `type` stands before the star. -/
def exportStarOrType : Parse Unit := do
  if ← (return (← read).dialect.flow) <&&> eatName .typeName then inType 2 exportStar
  else exportStar

def exportBody : Parse Unit := do
  let dialect := (← read).dialect
  if ← (pure dialect.typescript <&&> TypeScript.exportStart) then return
  if ← isAtExportStar then exportStarOrType
  else if ← isAtExportedName then
    identifier
    if ← (isAt .comma <&&> (return (← peekKind) == .star)) then
      expect .comma
      expect .star
      expectName .asName
      identifier
    else if ← eat .comma then exportSpecifiers
    exportFrom
  else if ← eat .defaultWord then exportDefault
  else if ← isAtExportedDeclaration then
    if dialect.typescript then TypeScript.exportDeclaration
    else if dialect.flow then flowExportDeclaration
    else reach (.statement true)
  else
    exportSpecifiers
    exportFrom

/-- What follows `export`. The `export` token records where the statement ends. -/
def exportClause : Parse Unit := do
  let exportIndex := (← tokenIndex) - 1
  exportBody
  markRhsEnd exportIndex

/-! ## Imports -/

/-- Whether `module` announces an import by reflection and is not itself imported. -/
def isImportReflection : Parse Bool := peek do
  expectName .moduleName
  if ← eatName .fromName then spells .fromName
  else return !(← isAt .comma)

def importSpecifier : Parse Unit := do
  let dialect := (← read).dialect
  if dialect.typescript || dialect.flow then typedSpecifier .importing
  else
    importedIdentifier
    if ← isAtName .asName then
      setRole .importAccess
      next
      importedIdentifier

def flowImportWord : Parse Unit := do
  if ← (isAt .typeofWord <||> isAtName .typeName) then
    let after ← peekLexeme
    let isName := (after.kind == .name || after.kind.isReserved) && after.keyword != .fromName
    if isName || after.kind == .braceOpen || after.kind == .star then
      next
      setKind .typeModifier

def namedImports : Parse Unit := do
  expect .braceOpen
  discard <| iterate true fun isFirst => do
    if ← eat .braceClose then return .done false
    if ← hasError then return .done false
    unless isFirst do
      if ← eat .colon then failHere .destructuredImport
      expect .comma
      if ← eat .braceClose then return .done false
    importSpecifier
    return .yield false

def importBindings : Parse Unit := do
  if (← read).dialect.flow then flowImportWord
  if ← isAt .name then
    importedIdentifier
    unless ← eat .comma do
      return
  if ← isAt .star then
    next
    expectName .asName
    importedIdentifier
  else namedImports

/-- The word `type` in front of an erased import clause in TypeScript. Says whether an import of the
form `import type a = b` follows it. -/
def typeScriptImportWord : Parse Bool := do
  if ← spells .typeName then
    let after ← peekLexeme
    if after.kind == .name && after.keyword != .fromName then
      expectName .typeName
      setKind .typeModifier
      return (← peekKind) == .equals
    if after.kind == .star || after.kind == .braceOpen then
      expectName .typeName
      setKind .typeModifier
  return false

def importClause : Parse Unit := do
  if (← read).dialect.typescript then
    if ← ((isAt .name <&&> (return (← peekKind) == .equals)) <||> typeScriptImportWord) then
      TypeScript.importEquals
      return
  if ← isAt .string then next
  else
    if ← (isAtName .moduleName <&&> isImportReflection) then next
    importBindings
    expectName .fromName
    discard operand
  importAttributes
  semicolon

-- Rules that only put others together.
attribute [reducible] exportFrom exportSpecifier exportSpecifiers exportStar exportStarOrType
  flowExportDeclaration flowImportWord importAttributes importBindings importSpecifier
  isAtExportStar isAtExportedDeclaration isAtExportedName isImportReflection namedImports
  typeScriptImportWord

end PlainScript.Grammar
