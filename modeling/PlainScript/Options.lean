import PlainScript.Source.CharClass
import PlainScript.Text.Blank
import PlainScript.Text.Quoted
import PlainScript.Text.Split

/-!
# Options

Which transforms are applied and how. `Options.validate` refuses combinations that make no sense.
-/

namespace PlainScript

inductive Transform where
  | jsx
  | typescript
  | flow
  | imports
  | reactHotLoader
  | jest
deriving DecidableEq, Repr

namespace Transform

def all : List Transform := [.jsx, .typescript, .flow, .imports, .reactHotLoader, .jest]

def name : Transform → String
  | .jsx => "jsx"
  | .typescript => "typescript"
  | .flow => "flow"
  | .imports => "imports"
  | .reactHotLoader => "react-hot-loader"
  | .jest => "jest"

def ofName? (text : String) : Option Transform := all.find? (·.name == text)

def bit : Transform → Nat
  | .jsx => 1
  | .typescript => 2
  | .flow => 4
  | .imports => 8
  | .reactHotLoader => 16
  | .jest => 32

theorem ofName?_name (t : Transform) : ofName? t.name = some t := by cases t <;> decide

end Transform

inductive ConfigError where
  | conflictingDialects
  | hotLoaderWithoutJsx
  | hotLoaderWithoutFilePath
  | invalidPragma (text : String)
  | unknownTransform (name : String)
deriving DecidableEq, Repr

namespace ConfigError

def message : ConfigError → String
  | .conflictingDialects => "Cannot combine flow and typescript plugins."
  | .hotLoaderWithoutJsx => "The react-hot-loader transform requires the jsx transform."
  | .hotLoaderWithoutFilePath =>
    "filePath is required when using the react-hot-loader transform."
  | .invalidPragma text => "Invalid JSX pragma: " ++ Quoted.quote text
  | .unknownTransform name => "Unknown transform: " ++ Quoted.quote name

end ConfigError

structure Transforms where
  has : Transform → Bool := fun _ => false

namespace Transforms

def insert (ts : Transforms) (t : Transform) : Transforms := ⟨fun u => u == t || ts.has u⟩

def toList (ts : Transforms) : List Transform := Transform.all.filter ts.has

def ofList (list : List Transform) : Transforms := ⟨list.contains⟩

def names (ts : Transforms) : List String := ts.toList.map Transform.name

def bits (ts : Transforms) : Nat := ts.toList.foldl (fun n t => n + t.bit) 0

/-- The names of the transforms of a set, with commas between them. -/
def toText (ts : Transforms) : String := String.intercalate "," ts.names

def ofNames : List String → Except ConfigError Transforms
  | [] => .ok {}
  | name :: rest =>
    match Transform.ofName? name with
    | none => .error (.unknownTransform name)
    | some t => (ofNames rest).map (·.insert t)

/-- Reads a list of names with commas between them. White space around a name and empty names are
skipped. -/
def ofText (text : String) : Except ConfigError Transforms :=
  ofNames <| ((splitChars ',' text.toList).map trimChars).filter (!·.isEmpty) |>.map String.ofList

end Transforms

structure SourceMapOptions where
  compiledFilename : String
deriving DecidableEq, Repr

/-- What is to be done with a file. -/
structure Options where
  transforms : Transforms := {}
  jsxPragma? : Option String := none
  jsxFragmentPragma? : Option String := none
  /-- A plain `require` for whole-module imports, and no wrapper for default imports. -/
  enableLegacyTypeScriptModuleInterop : Bool := false
  /-- Makes the module itself the default export if there is no other export. -/
  enableLegacyBabel5ModuleInterop : Bool := false
  sourceMapOptions? : Option SourceMapOptions := none
  /-- Used in messages and in what is recorded about elements. -/
  filePath? : Option String := none
  /-- Leaves out what is recorded about elements for debugging. -/
  production : Bool := false
  disableESTransforms : Bool := false
  /-- Keeps imports of which nothing is used as a value. -/
  keepUnusedImports : Bool := false
  /-- Leaves `import()` as it is. -/
  preserveDynamicImport : Bool := false
  /-- Uses `createRequire` for `import a = require('a')` outside of CommonJS. -/
  injectCreateRequireForImportRequire : Bool := false

namespace Options

def has (o : Options) (t : Transform) : Bool := o.transforms.has t

def jsxPragma (o : Options) : String := o.jsxPragma?.getD "React.createElement"

def jsxFragmentPragma (o : Options) : String := o.jsxFragmentPragma?.getD "React.Fragment"

def isNameText : List Char → Bool
  | [] => false
  | c :: rest => isNameStart c && rest.all isNamePart

/-- Names with dots between them. -/
def isDottedName (text : String) : Bool :=
  (splitChars '.' text.toList).all isNameText

/-- Refuses options that make no sense; the first reason counts. -/
def validate (o : Options) : Except ConfigError Unit := do
  if o.has .typescript && o.has .flow then throw .conflictingDialects
  if o.has .reactHotLoader && !o.has .jsx then throw .hotLoaderWithoutJsx
  if o.has .reactHotLoader && o.filePath?.isNone then throw .hotLoaderWithoutFilePath
  for pragma in [o.jsxPragma?, o.jsxFragmentPragma?].filterMap id do
    unless isDottedName pragma do
      throw (.invalidPragma pragma)

end Options

end PlainScript
