import PlainScript.Emit.References
import PlainScript.Emit.Support
import PlainScript.Text.Split

/-!
# Import plans

Before any code is written for a CommonJS module, all import and export statements are read once.
The plan says which code stands for the imports of each path, what replaces each imported or
exported name, and under which names a local binding is exported.
-/

namespace PlainScript

/-- A name of another module and the name it has here. -/
structure NamedImport where
  imported : String
  localName : String
deriving DecidableEq, Repr

/-- What is imported from one path or exported again from it. -/
structure ModuleUse where
  defaults : List String := []
  wildcards : List String := []
  named : List NamedImport := []
  reexports : List NamedImport := []
  /-- Whether some import of the path binds no name. -/
  isBare : Bool := false
  /-- The names under which the module as a whole is exported. -/
  starNames : List String := []
  hasStar : Bool := false
deriving DecidableEq, Repr

namespace ModuleUse

def merge (a b : ModuleUse) : ModuleUse where
  defaults := a.defaults ++ b.defaults
  wildcards := a.wildcards ++ b.wildcards
  named := a.named ++ b.named
  reexports := a.reexports ++ b.reexports
  isBare := a.isBare || b.isBare
  starNames := a.starNames ++ b.starNames
  hasStar := a.hasStar || b.hasStar

def isUnused (m : ModuleUse) : Bool :=
  m.defaults.isEmpty && m.wildcards.isEmpty && m.named.isEmpty && m.reexports.isEmpty &&
    m.starNames.isEmpty && !m.hasStar

/-- Whether the module is loaded even if none of its names is used as a value. -/
def isKept (m : ModuleUse) : Bool :=
  m.isBare || m.hasStar || !m.starNames.isEmpty || !m.reexports.isEmpty

def boundNames (m : ModuleUse) : List String :=
  m.defaults ++ m.wildcards ++ m.named.map (·.localName)

end ModuleUse

/-- What the import and export statements of a file say. -/
structure ModuleUses where
  /-- What is used of each path, in the order in which the paths come up. -/
  paths : List (String × ModuleUse) := []
  /-- The names declared by exported variable statements, the last one first. -/
  exportedVariables : List String := []
  /-- Local names and the names they are exported under. -/
  exports : List (String × String) := []

namespace ModuleUses

def addUse (path : String) (use : ModuleUse) : List (String × ModuleUse) → List (String × ModuleUse)
  | [] => [(path, use)]
  | (p, u) :: rest => if p = path then (p, u.merge use) :: rest else (p, u) :: addUse path use rest

def withUse (u : ModuleUses) (path : String) (use : ModuleUse) : ModuleUses :=
  { u with paths := addUse path use u.paths }

def withExport (u : ModuleUses) (localName exported : String) : ModuleUses :=
  { u with exports := u.exports ++ [(localName, exported)] }

/-- Reads the specifiers from an index on, for at most `n` specifiers, and the index after the brace
that closes them. -/
def specifiersFor (t : Tape) : Nat → Nat → Except Failure (List NamedImport × Nat)
  | 0, _ => .error .budget
  | n + 1, i =>
    if t.kind i == .braceClose then .ok ([], i + 1)
    else
      match Specifier.read t i with
      | .error e => .error (.structureError e)
      | .ok s =>
        let import? := s.names?.map fun (imported, localName) => NamedImport.mk imported localName
        if t.has s.stop [.comma, .braceClose] then .ok (import?.toList, s.stop + 2)
        else if t.kind s.stop == .braceClose then .ok (import?.toList, s.stop + 1)
        else if t.kind s.stop == .comma then do
          let (rest, stop) ← specifiersFor t n (s.stop + 1)
          return (import?.toList ++ rest, stop)
        else .error (.structureError (.unexpectedToken (t.kind s.stop)))

def specifiers (t : Tape) (i : Nat) : Except Failure (List NamedImport × Nat) :=
  specifiersFor t (t.size + 1) i

/-- Whether an import clause that starts at an index imports types only: it starts with `type` or
`typeof`, and that is not the name of a default import. -/
def isTypeClause (t : Tape) (i : Nat) : Bool :=
  t.kind i == .typeModifier ||
    ((t.hasSoft i .typeName || t.kind i == .typeofWord) &&
      t.kind (i + 1) != .comma && !t.hasSoft (i + 1) .fromName)

def readImport (t : Tape) (i : Nat) (u : ModuleUses) : Except Failure ModuleUses := do
  if isTypeClause t i || t.kind i == .parenOpen then return u
  let (defaults, i) :=
    if t.kind i == .name then
      ([t.text i], if t.kind (i + 1) == .comma then i + 2 else i + 1)
    else ([], i)
  let (wildcards, i) := if t.kind i == .star then ([t.text (i + 2)], i + 3) else ([], i)
  let (imports, i) ← if t.kind i == .braceOpen then specifiers t (i + 1) else pure ([], i)
  let i := if t.hasSoft i .fromName then i + 1 else i
  unless t.kind i == .string do
    throw (.structureError .importPathMissing)
  -- An import of the name `default` is treated like a default import.
  let (defaultImports, named) := imports.partition (·.imported == "default")
  let defaults := defaults ++ defaultImports.map (·.localName)
  let isBare := defaults.isEmpty && wildcards.isEmpty && named.isEmpty
  return u.withUse (t.stringValue i) { defaults, wildcards, named, isBare }

/-- Collects the names that an exported variable statement declares, from an index on. -/
def readVariablesFor (t : Tape) : Nat → Nat → Nat → ModuleUses → ModuleUses
  | 0, _, _, u => u
  | n + 1, i, depth, u =>
    if i < t.size then
      let token := t.get i
      match token.kind with
      | .braceOpen | .dollarBrace | .bracketOpen => readVariablesFor t n (i + 1) (depth + 1) u
      | .braceClose | .bracketClose => readVariablesFor t n (i + 1) (depth - 1) u
      | .name =>
        let u := if token.hasRole IdentifierRole.isDeclaration then
            { u with exportedVariables := t.text i :: u.exportedVariables }
          else u
        readVariablesFor t n (i + 1) depth u
      | kind =>
        if depth = 0 then u
        else
          match kind, token.rhsEnd? with
          | .equals, some stop => readVariablesFor t n stop depth u
          | _, _ => readVariablesFor t n (i + 1) depth u
    else u

def readNamedExport (t : Tape) (i : Nat) (u : ModuleUses) : Except Failure ModuleUses := do
  let (imports, i) ← specifiers t i
  if t.hasSoft i .fromName then
    unless t.kind (i + 1) == .string do
      throw (.structureError .importPathMissing)
    return u.withUse (t.stringValue (i + 1)) { reexports := imports }
  else
    return imports.foldl (fun u e => u.withExport e.imported e.localName) u

def readStarExport (t : Tape) (i : Nat) (u : ModuleUses) : Except Failure ModuleUses := do
  let (use, pathAt) : ModuleUse × Nat :=
    if t.has i [.exportWord, .star, .asModifier] then
      ({ starNames := [t.text (i + 3)] }, i + 5)
    else ({ hasStar := true }, i + 3)
  unless t.kind pathAt == .string do
    throw (.structureError .starExportPathMissing)
  return u.withUse (t.stringValue pathAt) use

def readExport (t : Tape) (i : Nat) (u : ModuleUses) : Except Failure ModuleUses :=
  match t.kind (i + 1) with
  | .varWord | .letWord | .constWord => .ok (readVariablesFor t (t.size + 1) (i + 2) 0 u)
  | .functionWord | .classWord => .ok (u.withExport (t.text (i + 2)) (t.text (i + 2)))
  | .name =>
    if t.kind (i + 2) == .functionWord then .ok (u.withExport (t.text (i + 3)) (t.text (i + 3)))
    else .ok u
  | .braceOpen => readNamedExport t (i + 2) u
  | .star => readStarExport t i u
  | _ => .ok u

def readAt (t : Tape) (u : ModuleUses) (i : Nat) : Except Failure ModuleUses :=
  match t.kind i with
  | .importWord => if t.has i [.importWord, .name, .equals] then .ok u else readImport t (i + 1) u
  | .exportWord => if t.has i [.exportWord, .equals] then .ok u else readExport t i u
  | _ => .ok u

def ofTape (t : Tape) : Except Failure ModuleUses := (List.range t.size).foldlM (readAt t) {}

end ModuleUses

/-- How imports and exports become CommonJS. -/
structure ImportPlan where
  code : List (String × String) := []
  /-- What replaces a name; the first entry of a name counts. -/
  replacements : List (String × String) := []
  /-- Local names and the names they are exported under. -/
  exports : List (String × String) := []
  called : List SupportFunction := []
deriving Repr

namespace ImportPlan

def replacement? (p : ImportPlan) (name : String) : Option String := p.replacements.lookup name

def isGlobal (p : ImportPlan) (name : String) : Bool :=
  p.replacements.any (·.1 == name) || p.exports.any (·.1 == name)

/-- The names under which a local name is exported. -/
def exportedNames (p : ImportPlan) (name : String) : List String :=
  (p.exports.filter (·.1 == name)).map Prod.snd

/-- The properties that have to follow an assignment to a local name, with `=` between them. -/
def exportTarget? (p : ImportPlan) (name : String) : Option String :=
  match p.exportedNames name with
  | [] => none
  | names => some (String.intercalate " = " (names.map ("exports." ++ ·)))

def codeFor (p : ImportPlan) (path : String) : String := (p.code.lookup path).getD ""

/-- The base name of the variable that holds a module: the word characters of the last part of its
path. -/
def baseNameOfPath (path : String) : String :=
  let last := ((splitChars '/' path.toList).getLast?).getD []
  "_" ++ String.ofList (last.filter fun c => c.isAlphanum || c == '_')

def requireCode (variableName path : String) : String :=
  "var " ++ variableName ++ " = require('" ++ path ++ "');"

/-- A call of a support function with the variable that holds a module, in a declaration. -/
def interopCode (support : SupportNames) (f : SupportFunction) (variableName module : String) :
    String :=
  " var " ++ variableName ++ " = " ++ support.name f ++ "(" ++ module ++ ");"

/-- The declarations that give a module the shape its imports expect, and the support function that
they call. -/
def shapeCode (support : SupportNames) (isLegacy : Bool) (use : ModuleUse)
    (primary secondary : String) : String × List SupportFunction :=
  if !use.wildcards.isEmpty then
    if isLegacy then
      (String.join (use.wildcards.map fun w => " var " ++ w ++ " = " ++ primary ++ ";"), [])
    else
      (String.join (use.wildcards.map fun w =>
        interopCode support .interopRequireWildcard w primary), [.interopRequireWildcard])
  else if !use.starNames.isEmpty && secondary != primary then
    (interopCode support .interopRequireWildcard secondary primary, [.interopRequireWildcard])
  else if !use.defaults.isEmpty && secondary != primary then
    (interopCode support .interopRequireDefault secondary primary, [.interopRequireDefault])
  else ("", [])

/-- The statements that export what a module exports, and the support functions that they call. -/
def reexportCode (support : SupportNames) (use : ModuleUse) (primary secondary : String) :
    String × List SupportFunction :=
  let named := use.reexports.map fun e =>
    " " ++ support.name .createNamedExportFrom ++ "(" ++ primary ++ ", '" ++ e.localName ++ "', '" ++
      e.imported ++ "');"
  let whole := use.starNames.map fun name => " exports." ++ name ++ " = " ++ secondary ++ ";"
  let star := if use.hasStar then " " ++ support.name .createStarExport ++ "(" ++ primary ++ ");"
    else ""
  (String.join (named ++ whole) ++ star,
    (if use.reexports.isEmpty then [] else [.createNamedExportFrom]) ++
      (if use.hasStar then [.createStarExport] else []))

def addModule (support : SupportNames) (isLegacy : Bool) (p : ImportPlan) (names : Names)
    (path : String) (use : ModuleUse) : ImportPlan × Names :=
  if use.isUnused then
    ({ p with code := p.code ++ [(path, "require('" ++ path ++ "');")] }, names)
  else
    let base := baseNameOfPath path
    let (primary, names) := names.claim base
    let (secondary, names) :=
      if isLegacy then (primary, names)
      else
        match use.wildcards with
        | first :: _ => (first, names)
        | [] => names.claim base
    let (shape, shapeCalls) := shapeCode support isLegacy use primary secondary
    let (reexport, reexportCalls) := reexportCode support use primary secondary
    let code := requireCode primary path ++ shape ++ reexport
    let replacements := use.defaults.map (fun name => (name, secondary ++ ".default")) ++
      use.named.map fun i => (i.localName, primary ++ "." ++ i.imported)
    ({ p with
        code := p.code ++ [(path, code)]
        replacements := replacements.reverse ++ p.replacements
        called := p.called ++ shapeCalls ++ reexportCalls }, names)

/-- The plan for what a file says about modules. -/
def ofUses (support : SupportNames) (isLegacy : Bool) (uses : ModuleUses) (names : Names) :
    ImportPlan × Names :=
  let start : ImportPlan := {
    replacements := uses.exportedVariables.map fun name => (name, "exports." ++ name)
    exports := uses.exports }
  uses.paths.foldl (fun (p, names) (path, use) => addModule support isLegacy p names path use)
    (start, names)

/-- Drops the imports of which no name is used as a value. -/
def prune (p : ImportPlan) (uses : ModuleUses) (valueNames : List String) : ImportPlan :=
  let isDropped (path : String) : Bool := uses.paths.any fun (q, use) =>
    q == path && !use.isKept && use.boundNames.all (!valueNames.contains ·)
  { p with code := p.code.map fun (path, code) => (path, if isDropped path then "" else code) }

end ImportPlan

end PlainScript
