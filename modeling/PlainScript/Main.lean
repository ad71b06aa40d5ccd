import PlainScript.CommandLine.Run

/-!
# The command line

Runs the command line on the files of the machine.
-/

namespace PlainScript.Main

def filesBelowFor (directory : String) : Nat → IO (List (List String))
  | 0 => return []
  | n + 1 => do
    let entries ← ((← IO.currentDir) / directory).readDir
    let lists ← entries.toList.mapM fun entry => do
      if ← entry.path.isDir then
        let below ← filesBelowFor (Path.join directory entry.fileName) n
        return below.map (entry.fileName :: ·)
      else return [[entry.fileName]]
    return lists.flatten

def writeText (path text : String) : IO Bool := do
  try
    let place := (← IO.currentDir) / path
    if let some directory := place.parent then
      IO.FS.createDirAll directory
    IO.FS.writeFile place text
    return true
  catch _ => return false

def fileSystem : FileSystem IO where
  kind? path := do
    let place := (← IO.currentDir) / path
    if path.isEmpty then return none
    else if ← place.isDir then return some .directory
    else if ← place.pathExists then return some .file
    else return none
  readText? path := do
    try return some (← IO.FS.readFile path)
    catch _ => return none
  filesBelow path := filesBelowFor path 256
  writeText := writeText

def usage : String :=
  "Strips types and lowers JSX, modules and newer syntax to plain JavaScript.\n\n" ++
  "Usage: plainscript [OPTIONS] <PATHS>...\n\n" ++
  "Options:\n" ++
  "  -t, --transforms <NAMES>          jsx,typescript,flow,imports,react-hot-loader,jest\n" ++
  "      --jsx-pragma <NAME>           element factory\n" ++
  "      --jsx-fragment-pragma <NAME>  fragment component\n" ++
  "      --production                  leave out what is recorded about elements\n" ++
  "      --disable-es-transforms       keep recent syntax as it is\n" ++
  "      --legacy-ts-interop           plain require for modules\n" ++
  "      --legacy-babel5-interop       default-only modules are their default export\n" ++
  "      --keep-unused-imports         keep imports that are used as types only\n" ++
  "      --preserve-dynamic-import     leave import() as it is\n" ++
  "      --source-maps                 write a map beside each output\n" ++
  "  -d, --out-dir <DIRECTORY>         where outputs go\n" ++
  "      --config <FILE>               options as JSON\n" ++
  "      --include <PATTERN>           files to take from directories\n" ++
  "      --exclude <PATTERN>           files to leave in directories\n" ++
  "  -h, --help\n  -V, --version"

def argumentText : ArgumentError → String
  | .missingRequiredArgument => "a required argument is missing"
  | .unknownArgument => "an argument is not known"
  | .invalidValue => "an option lacks its value"
  | .argumentConflict => "an option is given twice"
  | .tooManyValues => "a switch is given a value"
  | .displayHelp => usage
  | .displayVersion => "plainscript 0.3.1"

def stop (cause : StopCause) : IO UInt32 := do
  match cause with
  | .arguments .displayHelp =>
    IO.println usage
    return 0
  | .arguments .displayVersion =>
    IO.println (argumentText .displayVersion)
    return 0
  | .arguments e =>
    IO.eprintln (argumentText e ++ "\n\n" ++ usage)
    return 2
  | .invalidGlob =>
    IO.eprintln "invalid glob pattern"
    return 1
  | cause =>
    IO.eprintln cause.message
    return 1

def finish (r : Report) : IO UInt32 := do
  if r.jobs.isEmpty then IO.eprintln "No input files found."
  for code in r.printed do
    IO.println code
  for failure in r.failures do
    IO.eprintln failure.message
  if r.failures.isEmpty then return 0
  IO.eprintln (Nat.repr r.failures.length ++ " of " ++ Nat.repr r.jobs.length ++
    " files failed to transform.")
  return 1

end PlainScript.Main

def main (arguments : List String) : IO UInt32 := do
  match ← PlainScript.CommandLine.run PlainScript.Main.fileSystem arguments with
  | .error cause => PlainScript.Main.stop cause
  | .ok report => PlainScript.Main.finish report
