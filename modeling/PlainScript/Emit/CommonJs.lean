import PlainScript.Emit.Class
import PlainScript.Emit.ModuleSyntax
import PlainScript.Emit.TypeErasure

/-!
# Modules that become CommonJS

The imports of a path become the code that the import plan has for it, exports become assignments to
properties of `exports`, and a reference to an imported name becomes a property of its module. An
assignment to an exported variable is repeated for the exported property.
-/

namespace PlainScript.Emit.CommonJs

/-! ## Imports -/

def importEquals : Emit Unit := do
  if ← isUnusedImport ((← view).textAhead 1) then removeImportEquals else replace "const"

/-- Writes a call `import()` as a promise of a module. -/
def dynamicImport : Emit Unit := do
  let o ← options
  if o.preserveDynamicImport then copy
  else
    let wrapper ←
      if o.enableLegacyTypeScriptModuleInterop then pure ""
      else (· ++ "(") <$> callSupport .interopRequireWildcard
    replace ("Promise.resolve().then(() => " ++ wrapper ++ "require")
    let some contextId := (← view).token.contextId? | fail .dynamicImportContextMissing
    copy
    iterate () fun _ => do
      let v ← view
      if v.hasContext .parenClose (some contextId) then return .done ()
      if v.isAtEnd then fail .dynamicImportUnfinished
      processToken
      return .yield ()
    replace (if wrapper.isEmpty then "))" else ")))")

def removeToPath : Emit Unit := loopWhile (fun v => v.kind != .string && !v.isAtEnd) remove

def isAtValueSpecifier (v : View) : Bool :=
  v.isAt [.name, .comma] || v.isAt [.name, .braceClose] ||
    v.isAt [.name, .name, .name, .comma] || v.isAt [.name, .name, .name, .braceClose]

/-- Removes the specifiers of an import clause. Answers whether there is one of a value, and whether
there is one at all. -/
def removeSpecifiers : Emit (Bool × Bool) :=
  iterate (false, false) fun (hasValue, hasSpecifier) => do
    let v ← view
    if v.kind == .string || v.isAtEnd then return .done (hasValue, hasSpecifier)
    if (!hasValue && v.kind == .braceOpen) || v.kind == .comma then
      remove
      let v ← view
      remove
      return .yield (hasValue || isAtValueSpecifier v, hasSpecifier || v.kind != .braceClose)
    remove
    return .yield (hasValue, hasSpecifier)

/-- Removes the import clause under the cursor up to its path, and answers whether the whole
statement is dropped. -/
def removeImportClause : Emit Bool := do
  removeFirst
  let v ← view
  if isAtTypeClause v then
    removeToPath
    return true
  if v.isAtOneOf [.name, .star] then
    removeToPath
    return false
  if v.kind == .string then return false
  let (hasValue, hasSpecifier) ← removeSpecifiers
  isDroppedImport hasValue hasSpecifier

def importStatement : Emit Unit := do
  if (← view).isAt [.importWord, .parenOpen] then dynamicImport
  else
    if ← removeImportClause then remove
    else
      let v ← view
      replaceTrimmed (← claimImportCode (v.tape.stringValue v.index))
    removeImportAttributes
    removeIf .semicolon

/-! ## References -/

/-- Whether the token under the cursor is called, perhaps in parentheses. -/
def isCallee (v : View) : Bool :=
  v.tape.kind (v.tape.skip (·.kind == .parenClose) (v.index + 1)) == .parenOpen

/-- Writes a reference to a name that has a replacement. A function is called without a receiver. -/
def reference (code : String) : Emit Unit := do
  let v ← view
  if isCallee v then
    if (v.ahead 1).kind == .parenOpen && v.behind.kind != .newWord then
      replace (code ++ ".call(void 0, ")
      remove
      processBalanced
      copyExpected .parenClose
    else replace ("(0, " ++ code ++ ")")
  else replace code

def identifier : Emit Bool := do
  let v ← view
  if v.token.shadowsGlobal then return false
  match v.token.role?, ← replacement? v.text with
  | some .objectShorthand, some code =>
    replace (v.text ++ ": " ++ code)
    return true
  | some .access, some code =>
    reference code
    return true
  | _, _ => return false

/-! ## Assignments -/

/-- The exported properties that follow the variable a token names. -/
def exportTarget? (token : Token) : Emit (Option String) := do
  let env ← read
  if token.kind != .name || token.shadowsGlobal then return none
  return env.plan.exportTarget? (token.text env.tape.source)

/-- Handles `=`: the exported property is assigned too. -/
def assignment : Emit Bool := do
  let v ← view
  if v.index = 0 ∨ v.behind.isType then return false
  if 2 ≤ v.index ∧ v.tape.hasOneOf (v.index - 2) [.dot, .varWord, .letWord, .constWord] then
    return false
  match ← exportTarget? v.behind with
  | none => return false
  | some target =>
    copy
    add (" " ++ target ++ " =")
    return true

def compoundAssignment : Emit Bool := do
  let v ← view
  if v.index = 0 then return false
  if 2 ≤ v.index ∧ v.tape.kind (v.index - 2) = .dot then return false
  match ← exportTarget? v.behind with
  | none => return false
  | some target =>
    add (" = " ++ target)
    copy
    return true

def prefixIncrement : Emit Bool := do
  let v ← view
  if v.tape.hasOneOf (v.index + 2) [.dot, .bracketOpen, .parenOpen] then return false
  match ← exportTarget? (v.ahead 1) with
  | none => return false
  | some target =>
    add (target ++ " = ")
    copy
    return true

/-- Handles `++` or `--` after a name. The value of the expression is the one before. -/
def postfixIncrement : Emit Bool := do
  let v ← view
  if 1 ≤ v.index ∧ v.behind.kind = .dot then return false
  match ← exportTarget? v.token with
  | none => return false
  | some target =>
    let base := (← replacement? v.text).getD v.text
    let code (forth back : String) : String :=
      "(" ++ base ++ " = " ++ target ++ " = " ++ base ++ forth ++ ", " ++ base ++ back ++ ")"
    match v.textAhead 1 with
    | "++" => replace (code " + 1" " - 1")
    | "--" => replace (code " - 1" " + 1")
    | operator => fail (.unexpectedOperator operator)
    remove
    return true

/-! ## Exports -/

/-- Records that a kind of export has been written. -/
def sawExport (f : ExportsSeen → ExportsSeen) : Emit Unit :=
  modify fun σ => { σ with exports := f σ.exports }

def sawNamedExport : Emit Unit := sawExport fun e => { e with named := true }

/-- Copies the parenthesized or braced part under the cursor. -/
def copyEnclosed (opening closing : TokenKind) : Emit Unit := do
  copyExpected opening
  processBalanced
  copyExpected closing

def namedFunction : Emit String := do
  let v ← view
  if v.kind == .functionWord then copy
  else if v.tape.hasAsync v.index && (v.ahead 1).kind == .functionWord then
    copy
    copy
  copyIf .star
  let v ← view
  if v.kind != .name then fail .functionNameMissing
  copy
  discard eraseTypes
  copyEnclosed .parenOpen .parenClose
  discard eraseTypes
  copyEnclosed .braceOpen .braceClose
  return v.text

def decorator : Emit Unit := do
  copy
  if (← view).kind == .parenOpen then copyEnclosed .parenOpen .parenClose
  else
    copyExpected .name
    loopWhile (·.kind == .dot) do
      copyExpected .dot
      copyExpected .name
    if (← view).kind == .parenOpen then copyEnclosed .parenOpen .parenClose

def decoratedClass : Emit String := do
  loopWhile (·.kind == .atSign) decorator
  removeIf .abstractModifier
  namedClass

def exportCode (exported localName : String) : String :=
  " exports." ++ exported ++ " = " ++ localName ++ ";"

def exportImportEquals : Emit Unit := do
  let v ← view
  let some stop := v.token.rhsEnd? | fail .exportEndMissing
  let name := v.textAhead 2
  removeFirst
  replace "const"
  processTo stop
  add (exportCode name name)

def isNamedFunction (v : View) : Bool :=
  v.isAt [.exportWord, .defaultWord, .functionWord, .name] ||
    (v.tape.hasAsync (v.index + 2) && v.tape.has (v.index + 3) [.functionWord, .name])

def isNamedClass (v : View) : Bool :=
  v.isAt [.exportWord, .defaultWord, .classWord, .name] ||
    v.isAt [.exportWord, .defaultWord, .abstractModifier, .classWord, .name] ||
    v.isAt [.exportWord, .defaultWord, .atSign]

def exportDefault : Emit Unit := do
  let v ← view
  if isNamedFunction v then
    removeFirst
    remove
    add (exportCode "default" (← namedFunction))
  else if isNamedClass v then
    removeFirst
    remove
    add (exportCode "default" (← decoratedClass))
  else if ← isTypeDefaultExport then removeTypeDefaultExport
  else if (← options).has .reactHotLoader then
    let name ← claimName "_default"
    replace ("let " ++ name ++ "; exports.")
    copy
    add (" = " ++ name ++ " =")
    modify fun σ => { σ with defaultVariable? := some name }
  else
    replace "exports."
    copy
    add " ="

/-- Whether the exported variable statement under the cursor declares one plain name with a
value. -/
def isSimpleVariable (v : View) : Bool :=
  v.tape.kind (v.index + 2) == .name &&
    v.tape.kind (v.tape.skip (·.isType) (v.index + 3)) == .equals

/-- Writes an exported variable statement that declares one plain name. The statement is kept, so
that a function without a name takes that of the variable. -/
def simpleVariable : Emit Unit := do
  removeFirst
  copy
  let name := (← view).text
  iterate () fun _ => do
    let v ← view
    if v.kind == .equals then return .done ()
    if v.isAtEnd then fail .exportAssignmentMissing
    processToken
    return .yield ()
  let some stop := (← view).token.rhsEnd? | fail .assignmentEndMissing
  processTo stop
  add ("; exports." ++ name ++ " = " ++ name)

/-- Handles the tokens of the value of the assignment under the cursor. -/
def assignedValue : Emit Unit := do
  let some stop := (← view).token.rhsEnd? | fail .assignmentEndMissing
  processTo stop

/-- Writes the declared name under the cursor as an exported property. -/
def declaredName : Emit Unit := do
  let v ← view
  let some code ← replacement? v.text | fail (.exportReplacementMissing v.text)
  if v.token.hasRole IdentifierRole.isShorthandDeclaration then replace (v.text ++ ": " ++ code)
  else replace code

/-- Writes the pattern of an exported variable statement as the target of an assignment. The state
counts the open braces and brackets. -/
def variablePattern : Emit Unit := do
  let round (depth : Nat) : Emit (ForInStep Nat) := do
    let v ← view
    if v.isAtEnd then fail .exportUnfinished
    if v.isAtOneOf [.braceOpen, .dollarBrace, .bracketOpen] then
      copy
      return .yield (depth + 1)
    if v.isAtOneOf [.braceClose, .bracketClose] then
      copy
      return .yield (depth - 1)
    if depth = 0 ∧ v.kind ≠ .name ∧ v.token.isType = false then return .done depth
    if v.kind == .equals then assignedValue
    else if v.token.hasRole IdentifierRole.isDeclaration then declaredName
    else processToken
    return .yield depth
  discard <| iterate 0 round

/-- Writes an exported variable statement as an assignment to exported properties. -/
def complexVariable : Emit Unit := do
  removeFirst
  remove
  let needsParens := (← view).kind == .braceOpen
  if needsParens then add "("
  variablePattern
  if needsParens then
    assignedValue
    add ")"

/-- The assignment for a specifier of an export clause; a type has none. -/
def specifierCode? (s : Specifier) (isFromModule : Bool) : Emit (Option String) := do
  match s.names? with
  | none => return none
  | some (localName, exported) =>
    if !isFromModule && (← dropsTypes) && !(← read).declarations.values.contains localName then
      return none
    if exported == "default" then sawExport fun e => { e with default := true }
    else sawNamedExport
    return some ("exports." ++ exported ++ " = " ++ (← replacement? localName).getD localName ++ ";")

def exportAssignments (isFromModule : Bool) : Emit (List String) :=
  iterate [] fun codes => do
    if (← view).kind == .braceClose then
      remove
      return .done codes
    let s ← specifier
    removeTo s.stop
    let codes := codes ++ (← specifierCode? s isFromModule).toList
    let v ← view
    if v.kind == .braceClose then
      remove
      return .done codes
    if v.isAt [.comma, .braceClose] then
      removeMany 2
      return .done codes
    if v.kind == .comma then
      remove
      return .yield codes
    fail (.unexpectedToken v.kind)

def fromPath : Emit Unit := do
  let v ← view
  replaceTrimmed (← claimImportCode (v.tape.stringValue v.index))
  removeImportAttributes

def exportClause : Emit Unit := do
  removeFirst
  remove
  let codes ← exportAssignments (isReexport (← view))
  if (← view).isAtSoft .fromName then
    remove
    fromPath
  else add (String.intercalate " " codes)
  removeIf .semicolon

def exportStar : Emit Unit := do
  removeFirst
  iterate () fun _ => do
    let v ← view
    if v.kind == .string then return .done ()
    if v.isAtEnd then fail .starExportPathMissing
    remove
    return .yield ()
  fromPath
  removeIf .semicolon

def exportDeclaration : Emit Unit := do
  sawNamedExport
  let v ← view
  let next := (v.ahead 1).kind
  if [TokenKind.varWord, .letWord, .constWord].contains next then
    if isSimpleVariable v then simpleVariable else complexVariable
  else if next == .functionWord ||
      (v.tape.hasAsync (v.index + 1) && (v.ahead 2).kind == .functionWord) then
    removeFirst
    let name ← namedFunction
    add (exportCode name name)
  else if next == .classWord || next == .atSign ||
      v.isAt [.exportWord, .abstractModifier, .classWord] then
    removeFirst
    let name ← decoratedClass
    add (exportCode name name)
  else if next == .star then exportStar
  else fail .exportNotRecognized

/-- Handles the export statement under the cursor. Enumerations are left to another pass. -/
def exportStatement : Emit Bool := do
  sawExport fun e => { e with any := true }
  let v ← view
  if v.isAt [.exportWord, .enumWord] || v.isAt [.exportWord, .constWord, .enumWord] then
    sawNamedExport
    return false
  if v.isAt [.exportWord, .defaultWord] then
    exportDefault
    sawExport fun e => { e with default := true }
  else if v.isAt [.exportWord, .braceOpen] then exportClause
  else if v.isAt [.exportWord, .name] && v.isBeforeSoft .typeName then removeExportType
  else if v.isAt [.exportWord, .importWord, .name, .equals] then exportImportEquals
  else exportDeclaration
  return true

end CommonJs

def commonJsPass : Emit Bool := do
  let v ← view
  if v.isAt [.importWord, .name, .equals] then
    CommonJs.importEquals
    return true
  if v.isAt [.importWord, .typeModifier, .name, .equals] then
    removeImportTypeEquals
    return true
  if v.kind == .importWord then
    CommonJs.importStatement
    return true
  if v.isAt [.exportWord, .equals] then
    replace "module.exports"
    return true
  if v.kind == .exportWord && !v.token.isType then return ← CommonJs.exportStatement
  if v.isAt [.name, .postIncrement] then
    if ← CommonJs.postfixIncrement then return true
  match v.kind with
  | .name | .jsxName => CommonJs.identifier
  | .equals => CommonJs.assignment
  | .compoundAssign => CommonJs.compoundAssignment
  | .increment => CommonJs.prefixIncrement
  | _ => return false

-- Rules that only put others together.
attribute [reducible] CommonJs.copyEnclosed CommonJs.decorator CommonJs.dynamicImport
  CommonJs.exportAssignments CommonJs.fromPath CommonJs.reference CommonJs.removeImportClause
  CommonJs.removeSpecifiers CommonJs.sawExport CommonJs.sawNamedExport CommonJs.variablePattern

end PlainScript.Emit
