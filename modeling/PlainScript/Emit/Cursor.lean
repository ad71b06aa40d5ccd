import PlainScript.Emit.ImportPlan
import PlainScript.Emit.Piece

/-!
# The output cursor

The output is written in one walk over the tokens. A token is copied, replaced or removed, and the
gap before it is kept, or only its line breaks. The walk also opens and closes the calls that an
optional chain or a nullish operation becomes, since these start and end between tokens.

A pass looks at the tokens under the cursor through a `View` and says whether it has handled them.
Passes refer to each other in cycles: a part of a statement is written by all passes again. A pass
reaches such a part through its `Task`, and `Env.recur` says how tasks are done.
-/

namespace PlainScript.Emit

/-- A count of lines that has got as far as an offset. -/
structure LineCounter where
  offset : Nat := 0
  line : Nat := 1
deriving DecidableEq, Repr

namespace LineCounter

/-- Counts on over at most `n` bytes. -/
def advanceFor (source : Source) : Nat → LineCounter → LineCounter
  | 0, c => c
  | n + 1, c =>
    advanceFor source n
      ⟨c.offset + 1, if source.byteAt c.offset == '\n' then c.line + 1 else c.line⟩

/-- Counts on to an offset; there is no way back. -/
def advance (c : LineCounter) (source : Source) (offset : Nat) : LineCounter :=
  advanceFor source (min offset source.size - c.offset) c

end LineCounter

structure ExportsSeen where
  any : Bool := false
  named : Bool := false
  default : Bool := false
deriving DecidableEq, Repr

/-- What has been written so far and what it needs around it. -/
structure State where
  index : Nat := 0
  output : Array Piece := #[]
  names : Names := {}
  called : List SupportFunction := []
  variableNames : Array String := #[]
  claimedPaths : List String := []
  exports : ExportsSeen := {}
  defaultVariable? : Option String := none
  fileNameVariable? : Option String := none
  lines : LineCounter := {}
  mockFunctions : Array String := #[]

/-- A part of the work that is done by all passes. -/
inductive Task where
  | token
  /-- Handles tokens up to the brace or parenthesis that closes one opened before. -/
  | balanced
  | element
deriving DecidableEq, Repr

abbrev Step := StateT State (Except Failure)

/-- What is known about a file before the walk. -/
structure Setting where
  tape : Tape
  options : Options
  pragma : ElementPragma
  support : SupportNames
  plan : ImportPlan
  valueNames : List String
  declarations : Declarations

/-- What stays the same during the walk. -/
structure Env extends Setting where
  recur : Task → Step Unit

end Emit

abbrev Emit := ReaderT Emit.Env Emit.Step

structure View where
  tape : Tape
  index : Nat

namespace View

def token (v : View) : Token := v.tape.get v.index

def ahead (v : View) (n : Nat) : Token := v.tape.get (v.index + n)

def behind (v : View) : Token := v.tape.before v.index

def kind (v : View) : TokenKind := v.token.kind

def text (v : View) : String := v.tape.text v.index

def textAhead (v : View) (n : Nat) : String := v.tape.text (v.index + n)

/-- Whether the tokens from the cursor on have the given kinds. -/
def isAt (v : View) (kinds : List TokenKind) : Bool := v.tape.has v.index kinds

def isAtOneOf (v : View) (kinds : List TokenKind) : Bool := v.tape.hasOneOf v.index kinds

def isAtSoft (v : View) (keyword : SoftKeyword) : Bool := v.tape.hasSoft v.index keyword

def isBeforeSoft (v : View) (keyword : SoftKeyword) : Bool := v.tape.hasSoft (v.index + 1) keyword

def hasContext (v : View) (kind : TokenKind) (contextId? : Option Nat) : Bool :=
  v.tape.hasContext v.index kind contextId?

def isAtEnd (v : View) : Bool := v.tape.size ≤ v.index

/-- The text between the token under the cursor and the one before it. -/
def gap (v : View) : String :=
  let start := if v.index = 0 then 0 else (v.tape.get (v.index - 1)).stop
  v.tape.source.slice start (max v.token.start start)

end View

namespace Tape

/-- Whether one of the `n` tokens from an index on is an `await` of the given scope depth, up to the
token where the number of open chains and nullish operations, which is `depth` before the index,
falls to zero. -/
def awaitsFor (t : Tape) (scopeDepth : Nat) : Nat → Nat → Int → Bool
  | 0, _, _ => false
  | n + 1, i, depth =>
    let token := t.get i
    let depth := depth + (if token.isChainStart then 1 else 0) - (if token.isChainEnd then 1 else 0) +
      token.nullishStarts - token.nullishEnds
    if token.keyword == .awaitName && token.role?.isNone && token.scopeDepth == scopeDepth then true
    else if depth ≤ 0 then false
    else t.awaitsFor scopeDepth n (i + 1) depth

/-- Whether the chain or nullish operation that starts at an index contains an `await`. -/
def isAsyncStart (t : Tape) (i : Nat) : Bool :=
  let token := t.get i
  (token.isChainStart || token.nullishStarts != 0) &&
    t.awaitsFor token.scopeDepth (t.size - i) i 0

end Tape

namespace Emit

def view : Emit View := return ⟨(← read).tape, (← get).index⟩

def options : Emit Options := return (← read).options

def fail {α : Type} (error : StructureError) : Emit α := throw (.structureError error)

def reach (task : Task) : Emit Unit := do
  (← read).recur task

def processToken : Emit Unit := reach .token

def processBalanced : Emit Unit := reach .balanced

/-! ## Loops -/

/-- Runs `round` until it answers that it is done, for at most `n` rounds. -/
def iterateFor {σ : Type} (round : σ → Emit (ForInStep σ)) : Nat → σ → Emit σ
  | 0, _ => throw .budget
  | n + 1, s => do
    match ← round s with
    | .done s => pure s
    | .yield s => iterateFor round n s

/-- A number of rounds that is enough for a loop over a tape in which each round handles a token. -/
def roundLimit (t : Tape) : Nat := t.size + 8

def iterate {σ : Type} (start : σ) (round : σ → Emit (ForInStep σ)) : Emit σ := do
  iterateFor round (roundLimit (← read).tape) start

def loopWhileFor (n : Nat) (condition : View → Bool) (body : Emit Unit) : Emit Unit :=
  iterateFor (fun _ => do
    if condition (← view) then
      body
      pure (.yield ())
    else pure (.done ())) n ()

def loopWhile (condition : View → Bool) (body : Emit Unit) : Emit Unit := do
  loopWhileFor (roundLimit (← read).tape) condition body

/-- Runs `body`, which handles a token, until the cursor has come to an index. -/
def loopTo (stop : Nat) (body : Emit Unit) : Emit Unit :=
  loopWhileFor (stop + 1) (·.index < stop) body

/-! ## Names and support functions -/

def claimName (base : String) : Emit String := do
  let (name, names) := (← get).names.claim base
  modify fun σ => { σ with names }
  return name

def callSupport (f : SupportFunction) : Emit String := do
  modify fun σ => { σ with called := σ.called.insert f }
  return (← read).support.name f

def replacement? (name : String) : Emit (Option String) := return (← read).plan.replacement? name

/-- The code for the imports of a path; it is written only once. -/
def claimImportCode (path : String) : Emit String := do
  if (← get).claimedPaths.contains path then return ""
  modify fun σ => { σ with claimedPaths := path :: σ.claimedPaths }
  return (← read).plan.codeFor path

/-! ## Output -/

def push (piece : Piece) : Emit Unit := modify fun σ => { σ with output := σ.output.push piece }

def add (code : String) : Emit Unit := push (.added code)

def gap : Emit String := do
  let text := (← view).gap
  if (← options).has .flow then return String.ofList (withoutFlowMark text.toList) else return text

def chainFunction (isDelete isAsync : Bool) : SupportFunction :=
  match isDelete, isAsync with
  | true, true => .asyncOptionalChainDelete
  | true, false => .optionalChainDelete
  | false, true => .asyncOptionalChain
  | false, false => .optionalChain

/-- Opens the calls of the chains and nullish operations that start at the token under the
cursor. -/
def openCalls : Emit Unit := do
  let v ← view
  unless (← options).disableESTransforms do
    let isAsync := v.tape.isAsyncStart v.index
    let wait := if isAsync then "await " else ""
    for _ in List.range v.token.nullishStarts do
      add (wait ++ (← callSupport (if isAsync then .asyncNullishCoalesce else .nullishCoalesce)) ++
        "(")
    if v.token.isChainStart then
      add (wait ++ (← callSupport (chainFunction (v.behind.kind == .deleteWord) isAsync)) ++ "([")

/-- Closes the calls of the chains and nullish operations that end at the token under the cursor. -/
def closeCalls : Emit Unit := do
  let v ← view
  unless (← options).disableESTransforms do
    if v.token.isChainEnd then add "])"
    for _ in List.range v.token.nullishEnds do
      add "))"

/-- Writes a gap and code for the token under the cursor, with other code between the two, and moves
on. -/
def write (gapText before code : String) : Emit Unit := do
  let i := (← view).index
  push (.gap i gapText)
  openCalls
  unless before.isEmpty do
    add before
  push (.token i code)
  closeCalls
  modify fun σ => { σ with index := σ.index + 1 }

def replace (code : String) : Emit Unit := do write (← gap) "" code

/-- Writes code in the place of the token under the cursor; of the gap before it only line breaks
stay. -/
def replaceTrimmed (code : String) : Emit Unit := do write (lineBreaksOf (← gap)) "" code

/-- Removes the token under the cursor and keeps the gap before it. -/
def removeFirst : Emit Unit := replace ""

/-- Removes the token under the cursor; of the gap before it only line breaks stay. -/
def remove : Emit Unit := replaceTrimmed ""

def removeMany : Nat → Emit Unit
  | 0 => pure ()
  | n + 1 => do
    remove
    removeMany n

def copy : Emit Unit := do write (← gap) "" (← view).text

def copyAfter (code : String) : Emit Unit := do write (← gap) code (← view).text

/-- Copies the token under the cursor, which must have a kind. -/
def copyExpected (kind : TokenKind) : Emit Unit := do
  if (← view).kind == kind then copy else fail (.expectedToken kind)

def removeTo (stop : Nat) : Emit Unit := loopTo stop remove

def copyTo (stop : Nat) : Emit Unit := loopTo stop copy

def processTo (stop : Nat) : Emit Unit := loopTo stop processToken

def removeIf (kind : TokenKind) : Emit Unit := do
  if (← view).kind == kind then remove

def copyIf (kind : TokenKind) : Emit Unit := do
  if (← view).kind == kind then copy

/-- Removes tokens up to the brace that closes the one around the cursor. -/
def removeBalanced : Emit Unit := do
  let round (depth : Nat) : Emit (ForInStep Nat) := do
    let v ← view
    if v.isAtEnd then return .done depth
    if v.kind == .braceOpen then
      remove
      return .yield (depth + 1)
    if v.kind == .braceClose then
      if depth = 0 then return .done depth
      remove
      return .yield (depth - 1)
    remove
    return .yield depth
  discard <| iterate 0 round

/-- Returns to an earlier index and drops the output written since. -/
def rewind (index outputSize : Nat) : Emit Unit :=
  modify fun σ => { σ with index, output := σ.output.shrink outputSize }

end Emit

-- Rules that only put others together.
attribute [reducible] Emit.claimImportCode Emit.claimName Emit.closeCalls Emit.copyAfter
  Emit.copyExpected Emit.copyIf Emit.gap Emit.openCalls Emit.processBalanced Emit.processTo
  Emit.processToken Emit.push Emit.removeBalanced Emit.removeIf Emit.removeTo Emit.replaceTrimmed
  Emit.write

end PlainScript
