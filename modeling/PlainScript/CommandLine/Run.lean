import PlainScript.CommandLine.Arguments
import PlainScript.CommandLine.FileSystem
import PlainScript.CommandLine.Glob
import PlainScript.Options.Reader
import PlainScript.Output

/-!
# Runs of the command line

A run reads its arguments, loads the options, finds the files to work on, and works on them one
after the other. The first three can stop the run; a file that fails does not stop the others.
-/

namespace PlainScript

inductive StopCause where
  | arguments (error : ArgumentError)
  | unreadableConfig (path : String)
  | malformedConfig (path : String)
  | config (error : ConfigError)
  | invalidGlob
  | missing (path : String)
deriving DecidableEq, Repr

namespace StopCause

/-- The text of a cause. For some causes there is none. -/
def message : StopCause → String
  | .arguments _ | .invalidGlob => ""
  | .unreadableConfig path => "failed to read config file " ++ path
  | .malformedConfig path => "invalid config file " ++ path
  | .config error => error.message
  | .missing path => "no such file or directory: " ++ path

end StopCause

structure Job where
  input : String
  /-- Where the output goes; without it the output is printed. -/
  output? : Option String
deriving DecidableEq, Repr

inductive JobError where
  | unreadable (path : String)
  | unwritable (path : String)
  | transform (error : TransformError)
deriving DecidableEq, Repr

namespace JobError

def message : JobError → String
  | .unreadable path => "failed to read " ++ path
  | .unwritable path => "failed to write " ++ path
  | .transform error => error.message

end JobError

structure Report where
  options : Options
  jobs : List Job
  transformed : Nat
  failures : List JobError
  printed : List String

namespace Arguments

def applyTo (a : Arguments) (o : Options) : Except ConfigError Options := do
  let transforms ←
    if a.transforms.isEmpty then pure o.transforms
    else Transforms.ofNames (a.transforms.map fun name => String.ofList (trimChars name.toList))
  return { o with
    transforms
    jsxPragma? := a.jsxPragma?.or o.jsxPragma?
    jsxFragmentPragma? := a.jsxFragmentPragma?.or o.jsxFragmentPragma?
    production := o.production || a.has .production
    disableESTransforms := o.disableESTransforms || a.has .disableESTransforms
    enableLegacyTypeScriptModuleInterop :=
      o.enableLegacyTypeScriptModuleInterop || a.has .legacyTypeScriptInterop
    enableLegacyBabel5ModuleInterop :=
      o.enableLegacyBabel5ModuleInterop || a.has .legacyBabel5Interop
    keepUnusedImports := o.keepUnusedImports || a.has .keepUnusedImports
    preserveDynamicImport := o.preserveDynamicImport || a.has .preserveDynamicImport }

end Arguments

namespace CommandLine

variable {m : Type → Type} [Monad m]

def readConfig (fs : FileSystem m) (path : String) : ExceptT StopCause m Options := do
  match ← fs.readText? path with
  | none => throw (.unreadableConfig path)
  | some text =>
    match Options.ofJson text with
    | .error _ => throw (.malformedConfig path)
    | .ok o => return o

/-- Loads the options: those of a file, if there is one, with what the arguments say. Each file has
a path of its own later, so options are not refused for the lack of one. -/
def loadOptions (fs : FileSystem m) (a : Arguments) : ExceptT StopCause m Options := do
  let o ← match a.config? with
    | some path => readConfig fs path
    | none => pure {}
  match a.applyTo o with
  | .error e => throw (.config e)
  | .ok o =>
    match { o with filePath? := some (o.filePath?.getD "") }.validate with
    | .error e => throw (.config e)
    | .ok _ => return o

def readGlobs (patterns : List String) : ExceptT StopCause m (List Glob) :=
  match patterns.mapM Glob.ofText? with
  | none => throw .invalidGlob
  | some globs => return globs

/-- What is never taken from directories. -/
def alwaysExcluded : String := "**/node_modules/**"

structure Filter where
  includes : List Glob
  excludes : List Glob

def Filter.admits (f : Filter) (components : List String) : Bool :=
  let path := Path.ofComponents components
  f.includes.any (·.isMatch path) && !f.excludes.any (·.isMatch path)

def jobFor (a : Arguments) (input : String) (components : List String) : Job where
  input := input
  output? := a.outDir?.map fun directory => Path.join directory (Path.outputPath components)

/-- The jobs for a path. A file is always taken; of a directory those files that the filter
admits. -/
def jobsAt (fs : FileSystem m) (a : Arguments) (filter : Filter) (path : String) :
    ExceptT StopCause m (List Job) := do
  match ← fs.kind? path with
  | none => throw (.missing path)
  | some .file => return [jobFor a path [Path.fileName path]]
  | some .directory =>
    let files := (← fs.filesBelow path).mergeSort Path.ble
    return (files.filter filter.admits).map fun components =>
      jobFor a (Path.join path (Path.ofComponents components)) components

def discover (fs : FileSystem m) (a : Arguments) : ExceptT StopCause m (List Job) := do
  let includes ← readGlobs a.includes
  let excludes ← readGlobs (a.excludes ++ [alwaysExcluded])
  return (← a.paths.mapM (jobsAt fs a { includes, excludes })).flatten

def optionsFor (o : Options) (withMaps : Bool) (job : Job) : Options :=
  let o := { o with filePath? := some job.input }
  match job.output? with
  | some output =>
    if withMaps then { o with sourceMapOptions? := some ⟨Path.fileName output⟩ } else o
  | none => o

def writeFile (fs : FileSystem m) (path text : String) : ExceptT JobError m Unit := do
  unless ← fs.writeText path text do
    throw (.unwritable path)

/-- Works on a file. Gives what is to be printed. -/
def runJob (fs : FileSystem m) (o : Options) (withMaps : Bool) (job : Job) :
    ExceptT JobError m (Option String) := do
  let some text ← fs.readText? job.input | throw (.unreadable job.input)
  match Output.ofText text (optionsFor o withMaps job) with
  | .error e => throw (.transform e)
  | .ok out =>
    match job.output?, out.sourceMap? with
    | none, _ => return some out.code
    | some output, some map =>
      if withMaps then
        let mapPath := output ++ ".map"
        writeFile fs mapPath map.toJson
        writeFile fs output (out.code ++ "\n//# sourceMappingURL=" ++ Path.fileName mapPath)
      else writeFile fs output out.code
      return none
    | some output, none =>
      writeFile fs output out.code
      return none

def runJobs (fs : FileSystem m) (o : Options) (withMaps : Bool) (jobs : List Job) :
    m (List (Except JobError (Option String))) :=
  jobs.mapM fun job => (runJob fs o withMaps job).run

def reportOf (options : Options) (jobs : List Job)
    (results : List (Except JobError (Option String))) : Report where
  options := options
  jobs := jobs
  transformed := (results.filter (·.isOk)).length
  failures := results.filterMap fun
    | .error e => some e
    | .ok _ => none
  printed := results.filterMap fun
    | .ok code? => code?
    | .error _ => none

def run (fs : FileSystem m) (arguments : List String) : m (Except StopCause Report) :=
  ExceptT.run do
    match Arguments.parse arguments with
    | .error e => throw (.arguments e)
    | .ok a =>
      let o ← loadOptions fs a
      let jobs ← discover fs a
      let results ← ExceptT.lift (runJobs fs o (a.has .sourceMaps) jobs)
      return reportOf o jobs results

end CommandLine

end PlainScript
