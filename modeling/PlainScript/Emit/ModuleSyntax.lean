import PlainScript.Emit.Cursor

/-!
# Parts of import and export statements

What the two ways of writing modules have in common: the removal of statements and clauses that
speak of types only.
-/

namespace PlainScript.Emit

/-- Removes a reference `a.b.c` or a call `require('a')`. -/
def removeModuleReference : Emit Unit := do
  remove
  if (← view).kind == .parenOpen then removeMany 3
  else loopWhile (·.kind == .dot) (removeMany 2)

def removeImportEquals : Emit Unit := do
  removeFirst
  removeMany 2
  removeModuleReference

def removeImportTypeEquals : Emit Unit := do
  removeFirst
  removeMany 3
  removeModuleReference

def removeImportAttributes : Emit Unit := do
  let v ← view
  if v.isAt [.withWord, .braceOpen] ||
      (v.isAt [.name, .braceOpen] && v.isAtSoft .assertName) then
    removeMany 2
    removeBalanced
    remove

def removeExportType : Emit Unit := do
  removeFirst
  remove
  if (← view).kind == .braceOpen then
    loopWhile (fun v => v.kind != .braceClose && !v.isAtEnd) remove
    remove
  else
    remove
    let v ← view
    if v.kind == .asModifier || v.isAtSoft .asName then removeMany 2
  let v ← view
  if v.isAtSoft .fromName && (v.ahead 1).kind == .string then
    removeMany 2
    removeImportAttributes

/-- Whether the clause under the cursor imports types only: it starts with `type`, and that is not
the name of a default import. -/
def isAtTypeClause (v : View) : Bool :=
  v.kind == .typeModifier ||
    (v.isAtSoft .typeName && (v.ahead 1).kind != .comma && !v.isBeforeSoft .fromName)

def isReexport (v : View) : Bool :=
  let close := v.tape.skip (·.kind != .braceClose) v.index
  v.tape.hasSoft (close + 1) .fromName && v.tape.kind (close + 2) == .string

def specifier : Emit Specifier := do
  let v ← view
  match Specifier.read v.tape v.index with
  | .ok s => return s
  | .error e => fail e

/-- Whether imports and exports are dropped if they are used as types only. -/
def dropsTypes : Emit Bool := do
  let o ← options
  return o.has .typescript && !o.keepUnusedImports

/-- Whether an imported name is dropped because no value code refers to it. -/
def isUnusedImport (name : String) : Emit Bool := do
  return (← dropsTypes) && !(← read).valueNames.contains name

/-- Whether an import statement is dropped as a whole, given whether it imports a value and whether
it has specifiers. -/
def isDroppedImport (hasValue hasSpecifier : Bool) : Emit Bool := do
  let o ← options
  return !o.keepUnusedImports &&
    (if o.has .typescript then !hasValue else o.has .flow && hasSpecifier && !hasValue)

/-- Whether the statement under the cursor is the default export of a type. -/
def isTypeDefaultExport : Emit Bool := do
  if !(← dropsTypes) then return false
  let v ← view
  let some stop := v.token.rhsEnd? | fail .exportEndMissing
  let count := stop - v.index
  if count = 3 ∨ (count = 4 ∧ v.tape.kind (stop - 1) = .semicolon) then
    return (v.ahead 2).kind == .name && (← read).declarations.isTypeOnly (v.textAhead 2)
  return false

def removeTypeDefaultExport : Emit Unit := do
  removeFirst
  removeMany 2

-- Rules that only put others together.
attribute [reducible] dropsTypes isDroppedImport isUnusedImport removeImportAttributes
  removeImportEquals removeImportTypeEquals removeModuleReference removeTypeDefaultExport

end PlainScript.Emit
