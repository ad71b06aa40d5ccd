import PlainScript.Text.Split

/-!
# Arguments of the command line

An argument that starts with a dash is an option, all others are paths. An option that takes a value
takes it from what follows an equals sign, from the rest of a short option, or from the next
argument. After `--` everything is a path.

A value is stored only when the next argument has been understood, so of two faults the unknown
option is reported before the repeated one.
-/

namespace PlainScript

/-- Why arguments are refused, or what is shown in their place. -/
inductive ArgumentError where
  | missingRequiredArgument
  | unknownArgument
  | displayHelp
  | displayVersion
  | invalidValue
  /-- An option that may be given once is given again. -/
  | argumentConflict
  | tooManyValues
deriving DecidableEq, Repr

inductive Switch where
  | production
  | disableESTransforms
  | legacyTypeScriptInterop
  | legacyBabel5Interop
  | keepUnusedImports
  | preserveDynamicImport
  | sourceMaps
deriving DecidableEq, Repr

inductive ValueOption where
  | transforms
  | jsxPragma
  | jsxFragmentPragma
  | outDir
  | config
  | includes
  | excludes
deriving DecidableEq, Repr

/-- What a word after a dash means. -/
inductive OptionWord where
  | switch (s : Switch)
  | value (o : ValueOption)
  | help
  | version
deriving DecidableEq, Repr

namespace OptionWord

def long : List (String × OptionWord) := [
  ("transforms", .value .transforms), ("jsx-pragma", .value .jsxPragma),
  ("jsx-fragment-pragma", .value .jsxFragmentPragma), ("production", .switch .production),
  ("disable-es-transforms", .switch .disableESTransforms),
  ("legacy-ts-interop", .switch .legacyTypeScriptInterop),
  ("legacy-babel5-interop", .switch .legacyBabel5Interop),
  ("keep-unused-imports", .switch .keepUnusedImports),
  ("preserve-dynamic-import", .switch .preserveDynamicImport),
  ("source-maps", .switch .sourceMaps), ("out-dir", .value .outDir), ("config", .value .config),
  ("include", .value .includes), ("exclude", .value .excludes), ("help", .help),
  ("version", .version)]

def short : List (Char × OptionWord) :=
  [('t', .value .transforms), ('d', .value .outDir), ('h', .help), ('V', .version)]

end OptionWord

structure Arguments where
  paths : List String := []
  transforms : List String := []
  jsxPragma? : Option String := none
  jsxFragmentPragma? : Option String := none
  outDir? : Option String := none
  config? : Option String := none
  includes : List String := []
  excludes : List String := []
  switches : List Switch := []
deriving DecidableEq, Repr

namespace Arguments

def has (a : Arguments) (s : Switch) : Bool := a.switches.contains s

/-- The files that are taken from directories if no pattern is given. -/
def defaultIncludes : List String := ["**/*.js", "**/*.jsx", "**/*.ts", "**/*.tsx", "**/*.mjs",
  "**/*.cjs", "**/*.mts", "**/*.cts"]

def turnOn (a : Arguments) (s : Switch) : Except ArgumentError Arguments :=
  if a.has s then .error .argumentConflict else .ok { a with switches := s :: a.switches }

/-- The only value of an option. -/
def single (old? : Option String) (value : String) : Except ArgumentError (Option String) :=
  if old?.isSome then .error .argumentConflict else .ok (some value)

def store (a : Arguments) (o : ValueOption) (value : String) : Except ArgumentError Arguments := do
  match o with
  | .transforms =>
    return { a with
      transforms := a.transforms ++ (splitChars ',' value.toList).map String.ofList }
  | .jsxPragma => return { a with jsxPragma? := ← single a.jsxPragma? value }
  | .jsxFragmentPragma => return { a with jsxFragmentPragma? := ← single a.jsxFragmentPragma? value }
  | .outDir => return { a with outDir? := ← single a.outDir? value }
  | .config => return { a with config? := ← single a.config? value }
  | .includes => return { a with includes := a.includes ++ [value] }
  | .excludes => return { a with excludes := a.excludes ++ [value] }

/-- An option whose value is not stored yet. -/
inductive Pending where
  | nothing
  | needsValue (o : ValueOption)
  | hasValue (o : ValueOption) (value : String)
deriving DecidableEq, Repr

def settle (a : Arguments) : Pending → Except ArgumentError Arguments
  | .nothing => .ok a
  | .needsValue _ => .error .invalidValue
  | .hasValue o value => a.store o value

def readOption (a : Arguments) (pending : Pending) (word? : Option OptionWord)
    (attached? : Option String) : Except ArgumentError (Arguments × Pending) := do
  match word?, attached? with
  | none, _ => throw .unknownArgument
  | some (.value o), some value => return (← (← a.settle pending).store o value, .nothing)
  | some (.value o), none => return (← a.settle pending, .needsValue o)
  | some _, some _ => throw .tooManyValues
  | some (.switch s), none => return (← (← a.settle pending).turnOn s, .nothing)
  | some .help, none =>
    discard <| a.settle pending
    throw .displayHelp
  | some .version, none =>
    discard <| a.settle pending
    throw .displayVersion

def readLong (a : Arguments) (pending : Pending) (text : List Char) :
    Except ArgumentError (Arguments × Pending) :=
  let name := String.ofList (text.takeWhile (· != '='))
  let attached? := (text.dropWhile (· != '=')).tail?.map String.ofList
  a.readOption pending (OptionWord.long.lookup name) attached?

/-- Reads an option with one dash. What follows the letter of an option with a value is the value;
after another letter it does not matter. -/
def readShort (a : Arguments) (pending : Pending) (letter : Char) (rest : List Char) :
    Except ArgumentError (Arguments × Pending) :=
  match OptionWord.short.lookup letter with
  | some (.value o) =>
    let attached? := match rest with
      | [] => none
      | '=' :: value => some (String.ofList value)
      | value => some (String.ofList value)
    a.readOption pending (some (.value o)) attached?
  | word? => a.readOption pending word? none

def readOne (a : Arguments) (pending : Pending) (argument : String) :
    Except ArgumentError (Arguments × Pending) := do
  match argument.toList, pending with
  | '-' :: '-' :: text, _ => a.readLong pending text
  | '-' :: letter :: rest, _ => a.readShort pending letter rest
  | _, .needsValue o => return (a, .hasValue o argument)
  | _, _ =>
    let a ← a.settle pending
    return ({ a with paths := a.paths ++ [argument] }, .nothing)

def readAll (a : Arguments) (pending : Pending) : List String → Except ArgumentError Arguments
  | [] => a.settle pending
  | argument :: rest => do
    if argument = "--" then
      let a ← a.settle pending
      return { a with paths := a.paths ++ rest }
    else
      let (a, pending) ← a.readOne pending argument
      a.readAll pending rest

def parse (arguments : List String) : Except ArgumentError Arguments := do
  let a ← readAll {} .nothing arguments
  if a.paths.isEmpty || (a.has .sourceMaps && a.outDir?.isNone) then
    throw .missingRequiredArgument
  return if a.includes.isEmpty then { a with includes := defaultIncludes } else a

end Arguments

end PlainScript
