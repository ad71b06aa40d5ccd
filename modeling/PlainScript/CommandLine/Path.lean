import PlainScript.Text.Split

/-!
# Paths

A path is a text whose components are separated by slashes.
-/

namespace PlainScript.Path

def components (path : String) : List String := (splitChars '/' path.toList).map String.ofList

def ofComponents (components : List String) : String := String.intercalate "/" components

def fileName (path : String) : String := (components path).getLastD ""

def join (directory path : String) : String :=
  if directory.isEmpty || directory.toList.getLast? == some '/' then directory ++ path
  else directory ++ "/" ++ path

/-- The name of a file up to its last dot, and what follows it. A dot at the start does not
count. -/
def splitExtension? (name : String) : Option (String × String) :=
  let reversed := name.toList.reverse
  match reversed.dropWhile (· != '.') with
  | '.' :: c :: stem =>
    some (String.ofList (c :: stem).reverse, String.ofList (reversed.takeWhile (· != '.')).reverse)
  | _ => none

/-- The extension of an output file for that of an input file: elements and types are gone, and the
kind of module stays. -/
def outputExtension? : String → Option String
  | "ts" | "tsx" | "jsx" => some "js"
  | "mts" => some "mjs"
  | "cts" => some "cjs"
  | _ => none

def outputName (name : String) : String :=
  match splitExtension? name with
  | none => name
  | some (stem, extension) =>
    match outputExtension? extension with
    | none => name
    | some new => stem ++ "." ++ new

/-- The relative path of the output file for the components of an input file. -/
def outputPath (components : List String) : String :=
  match components.getLast? with
  | none => ""
  | some name => ofComponents (components.dropLast ++ [outputName name])

/-- The order of paths: by their first components, then by the second ones, and so on; a shorter
path comes first. -/
def ble : List String → List String → Bool
  | [], _ => true
  | _ :: _, [] => false
  | a :: as, b :: bs => if a = b then ble as bs else decide (a < b)

end PlainScript.Path
