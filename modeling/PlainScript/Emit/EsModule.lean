import PlainScript.Emit.ModuleSyntax

/-!
# Modules that stay modules

Import and export statements are kept; only what speaks of types is removed.
-/

namespace PlainScript.Emit

namespace EsModule

def importEquals : Emit Unit := do
  let v ← view
  let isExported := v.behind.kind == .exportWord
  if !isExported && (← isUnusedImport (v.textAhead 1)) then removeImportEquals
  else
    replace "const"
    if (← options).injectCreateRequireForImportRequire then
      copy
      copy
      replace (← callSupport .require)

structure ClauseContent where
  hasValue : Bool := false
  hasSpecifier : Bool := false

/-- Writes or removes the specifier under the cursor with the comma after it. -/
def keepOrRemove (s : Specifier) (isKept : Bool) : Emit Unit := do
  if isKept then
    copyTo s.stop
    copyIf .comma
  else
    removeTo s.stop
    removeIf .comma

def importSpecifiers (content : ClauseContent) : Emit ClauseContent :=
  iterate content fun content => do
    let v ← view
    if v.kind == .braceClose then return .done content
    if v.isAtEnd then fail .importSpecifiersUnfinished
    let s ← specifier
    let isKept ← match s.names? with
      | none => pure false
      | some (_, localName) => (!·) <$> isUnusedImport localName
    keepOrRemove s isKept
    return .yield { hasSpecifier := true, hasValue := content.hasValue || isKept }

/-- Writes the default import under the cursor. Answers whether it is kept, and whether a comma has
to be put back before what follows. -/
def defaultImport : Emit (Bool × Bool) := do
  let v ← view
  if v.kind != .name then return (false, false)
  if ← isUnusedImport v.text then
    remove
    removeIf .comma
    return (false, false)
  copy
  if (← view).kind == .comma then
    remove
    return (true, true)
  return (true, false)

/-- Writes the import statement under the cursor up to its path, without what speaks of types.
Answers whether nothing but types is imported. -/
def importClause : Emit Bool := do
  copyExpected .importWord
  let v ← view
  if isAtTypeClause v then return true
  if v.kind == .string then
    copy
    return false
  if v.isAtSoft .moduleName && v.tape.hasSoft (v.index + 2) .fromName then copy
  let (hasDefault, needsComma) ← defaultImport
  let mut content : ClauseContent := { hasValue := hasDefault }
  let v ← view
  if v.kind == .star then
    if ← isUnusedImport (v.textAhead 2) then removeMany 3
    else
      if needsComma then add ","
      copyExpected .star
      copy
      copyExpected .name
      content := { content with hasValue := true }
  else if v.kind == .braceOpen then
    if needsComma then add ","
    copy
    content ← importSpecifiers content
    copyExpected .braceClose
  isDroppedImport content.hasValue content.hasSpecifier

def removeToPath : Emit Unit :=
  iterate () fun _ => do
    let v ← view
    if v.kind == .string then return .done ()
    if v.isAtEnd then fail .importStatementPathMissing
    remove
    return .yield ()

/-- Writes the import statement under the cursor. A call `import()` is left alone. -/
def importStatement : Emit Bool := do
  let v ← view
  if v.isAt [.importWord, .parenOpen] then return false
  let outputSize := (← get).output.size
  if ← importClause then
    rewind v.index outputSize
    removeToPath
    remove
    removeImportAttributes
    removeIf .semicolon
  return true

/-- Whether the default export under the cursor declares a name of its own. -/
def hasOwnName (v : View) : Bool :=
  v.isAt [.exportWord, .defaultWord, .functionWord, .name] ||
    (v.isAt [.exportWord, .defaultWord, .name, .functionWord, .name] &&
      v.tape.hasSoft (v.index + 2) .asyncName) ||
    v.isAt [.exportWord, .defaultWord, .classWord, .name] ||
    v.isAt [.exportWord, .defaultWord, .abstractModifier, .classWord, .name]

def exportDefault : Emit Bool := do
  if ← isTypeDefaultExport then
    removeTypeDefaultExport
    return true
  if hasOwnName (← view) || !(← options).has .reactHotLoader then return false
  let name ← claimName "_default"
  replace ("let " ++ name ++ "; export")
  copy
  add (" " ++ name ++ " =")
  modify fun σ => { σ with defaultVariable? := some name }
  return true

/-- Writes the specifiers of an export clause without those of types, and answers whether one is
left. -/
def exportSpecifiers (isFromModule : Bool) : Emit Bool :=
  iterate false fun hasValue => do
    let v ← view
    if v.kind == .braceClose then return .done hasValue
    if v.isAtEnd then fail .exportSpecifiersUnfinished
    let s ← specifier
    let isKept ← match s.names? with
      | none => pure false
      | some (localName, _) =>
        pure (isFromModule || !((← dropsTypes) && (← read).declarations.isTypeOnly localName))
    keepOrRemove s isKept
    return .yield (hasValue || isKept)

/-- Writes the export clause under the cursor. -/
def namedExports : Emit Bool := do
  if !(← options).has .typescript then return false
  copyExpected .exportWord
  copyExpected .braceOpen
  let isFromModule := isReexport (← view)
  let hasValue ← exportSpecifiers isFromModule
  copyExpected .braceClose
  if !(← options).keepUnusedImports && isFromModule && !hasValue then
    removeMany 2
    removeImportAttributes
  return true

end EsModule

/-- Handles import and export statements that stay what they are. -/
def esModulePass : Emit Bool := do
  let v ← view
  if v.isAt [.importWord, .name, .equals] then
    EsModule.importEquals
    return true
  if v.isAt [.importWord, .typeModifier, .name, .equals] then
    removeImportTypeEquals
    return true
  if v.isAt [.exportWord, .equals] then
    replace "module.exports"
    return true
  if v.isAt [.exportWord, .importWord, .typeModifier, .name, .equals] then
    removeFirst
    removeMany 8
    return true
  if v.kind == .importWord then return ← EsModule.importStatement
  if v.isAt [.exportWord, .defaultWord] then return ← EsModule.exportDefault
  if v.isAt [.exportWord, .braceOpen] then return ← EsModule.namedExports
  if v.isAt [.exportWord, .name] && v.isBeforeSoft .typeName then
    removeExportType
    return true
  return false

-- Rules that only put others together.
attribute [reducible] EsModule.defaultImport EsModule.importStatement EsModule.keepOrRemove
  EsModule.namedExports esModulePass

end PlainScript.Emit
