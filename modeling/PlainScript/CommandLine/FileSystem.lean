import PlainScript.CommandLine.Path

/-!
# File systems

What the command line needs of a file system, and a file system that is a value: the files below a
working directory.
-/

namespace PlainScript

inductive PathKind where
  | file
  | directory
deriving DecidableEq, Repr

structure FileSystem (m : Type → Type) where
  kind? : String → m (Option PathKind)
  readText? : String → m (Option String)
  filesBelow : String → m (List (List String))
  /-- Writes a file and the directories above it, and answers whether that was possible. -/
  writeText : String → String → m Bool

/-- The files below a working directory, each by its components. -/
structure FileTree where
  files : List (List String × ByteArray) := []
  directories : List (List String) := []

namespace FileTree

def content? (t : FileTree) (place : List String) : Option ByteArray := t.files.lookup place

def isFile (t : FileTree) (place : List String) : Bool := (t.content? place).isSome

/-- Whether a directory stands at a place: one that was made, or one above a file. -/
def isDirectory (t : FileTree) (place : List String) : Bool :=
  place.isEmpty || t.directories.any place.isPrefixOf ||
    t.files.any fun (path, _) => place.isPrefixOf path && place.length < path.length

/-- Follows a component from a place, which has to be a directory. There is no way out of the
tree. -/
def follow? (t : FileTree) (place : List String) (component : String) : Option (List String) :=
  if !t.isDirectory place then none
  else if component = "" ∨ component = "." then some place
  else if component = ".." then if place.isEmpty then none else some place.dropLast
  else some (place ++ [component])

def relativeComponents? (path : String) : Option (List String) :=
  if path.isEmpty || path.toList.head? == some '/' then none else some (Path.components path)

/-- The place that a path leads to. There need not be anything. -/
def locate? (t : FileTree) (path : String) : Option (List String) := do
  (← relativeComponents? path).foldlM t.follow? []

def kind? (t : FileTree) (path : String) : Option PathKind := do
  let place ← t.locate? path
  if t.isFile place then some .file
  else if t.isDirectory place then some .directory
  else none

def readText? (t : FileTree) (path : String) : Option String := do
  String.fromUTF8? (← t.content? (← t.locate? path))

def filesBelow (t : FileTree) (path : String) : List (List String) :=
  match t.locate? path with
  | none => []
  | some place =>
    (t.files.filter fun (p, _) => place.isPrefixOf p && place.length < p.length).map fun (p, _) =>
      p.drop place.length

/-- Follows a component and makes a directory where it leads, unless a file is there. -/
def enter? (component : String) : FileTree × List String → Option (FileTree × List String)
  | (t, place) => do
    let place ← t.follow? place component
    if t.isFile place then none
    else some ({ t with directories := place :: t.directories }, place)

/-- Makes directories as far as it is possible. Gives the place of the last one if all of them could
be made. -/
def makeDirectories : FileTree × List String → List String → FileTree × Option (List String)
  | (t, place), [] => (t, some place)
  | (t, place), component :: rest =>
    match enter? component (t, place) with
    | none => (t, none)
    | some next => makeDirectories next rest

def setContent (t : FileTree) (place : List String) (content : ByteArray) : FileTree :=
  { t with files := (place, content) :: t.files.filter (·.1 != place) }

def writeText (t : FileTree) (path text : String) : Bool × FileTree :=
  match relativeComponents? path with
  | none => (false, t)
  | some components =>
    match makeDirectories (t, []) components.dropLast with
    | (t, none) => (false, t)
    | (t, some directory) =>
      match t.follow? directory (components.getLastD "") with
      | none => (false, t)
      | some place =>
        if t.isDirectory place then (false, t) else (true, t.setContent place text.toUTF8)

def fileSystem : FileSystem (StateM FileTree) where
  kind? path := return (← get).kind? path
  readText? path := return (← get).readText? path
  filesBelow path := return (← get).filesBelow path
  writeText path text := modifyGet (·.writeText path text)

/-- The text files of a tree that another one lacks or has with another content. -/
def changesFrom (new old : FileTree) : List (String × String) :=
  (new.files.filter fun (place, content) =>
    (old.content? place).all fun bytes => bytes.toList != content.toList).filterMap
    fun (place, content) => (String.fromUTF8? content).map fun text => (Path.ofComponents place, text)

end FileTree

end PlainScript
