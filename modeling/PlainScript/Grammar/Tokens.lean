import PlainScript.Grammar.State
import PlainScript.Token.Reading

/-!
# Consuming tokens

The primitives of the parser: looking at the current lexeme, consuming it, looking ahead, recording
errors and annotating the tokens consumed so far. Rules of the grammar change the state only through
these.
-/

namespace PlainScript.Grammar.Parse

/-! ## Errors -/

/-- Records a syntax error unless there is one already. From then on the text counts as ended. -/
def fail (cause : SyntaxError.Cause) (pos : Nat) : Parse Unit := do
  let size := (← read).source.size
  modify fun σ =>
    match σ.error? with
    | some _ => σ
    | none =>
      { σ with
        error? := some ⟨cause, pos⟩
        current := { start := σ.current.start, stop := size } }

def failHere (cause : SyntaxError.Cause) : Parse Unit := do
  fail cause (← get).current.start

def unexpected : Parse Unit := failHere .unexpectedToken

def hasError : Parse Bool := return (← get).error?.isSome

/-! ## The current lexeme -/

def kind : Parse TokenKind := return (← get).current.kind

def keyword : Parse SoftKeyword := return (← get).current.keyword

def startPos : Parse Nat := return (← get).current.start

def isAt (k : TokenKind) : Parse Bool := return (← get).current.kind == k

def isAtAny (ks : List TokenKind) : Parse Bool := return ks.contains (← get).current.kind

/-- Whether the current lexeme spells a soft keyword, whatever its kind. -/
def spells (w : SoftKeyword) : Parse Bool := return (← get).current.keyword == w

def isAtName (w : SoftKeyword) : Parse Bool := isAt .name <&&> spells w

def retype (k : TokenKind) : Parse Unit :=
  modify fun σ => { σ with current := { σ.current with kind := k } }

/-- Makes what is read at an offset the current lexeme. -/
def settle (start : Nat) (reading : Reading) : Parse Unit := do
  modify fun σ => { σ with current := { σ.current with start } }
  match reading with
  | .lexeme kind keyword stop =>
    modify fun σ => { σ with current := { kind, keyword, start, stop } }
  | .fault cause pos => fail cause pos
  | .torn a b => throw (.torn a b)

/-- Makes the end of the text the current lexeme. Reading it a third time is an error. -/
def settleEnd : Parse Unit := do
  let size := (← read).source.size
  modify fun σ => { σ with current := { start := size, stop := size } }
  let tokens := (← get).tokens
  let ended (back : Nat) := (tokens[tokens.size - back]?).any (size ≤ ·.start)
  if tokens.size ≥ 2 && ended 1 && ended 2 then
    fail .unexpectedEnd size

/-- Reads the lexeme after the current one, as ordinary code. -/
def readCode : Parse Unit := do
  let env ← read
  let σ ← get
  match env.source.gap σ.current.stop with
  | .openComment start =>
    fail .unterminatedComment start
    settleEnd
  | .upTo pos =>
    if env.source.size ≤ pos then settleEnd
    else settle pos (Reading.code env.source env.dialect.flow σ.isType pos)

def push : Parse Unit :=
  modify fun σ =>
    { σ with
      tokens := σ.tokens.push
        { toLexeme := σ.current, scopeDepth := σ.scopeDepth, isType := σ.isType } }

def next : Parse Unit := do
  push
  readCode

/-- Consumes the current lexeme and reads on inside a template. -/
def nextInTemplate : Parse Unit := do
  push
  let { current, .. } ← get
  settle current.stop (Reading.template (← read).source (current.kind == .template) current.stop)

/-- Consumes the current lexeme and reads on inside a tag. -/
def nextInTag : Parse Unit := do
  push
  let s := (← read).source
  match s.gap (← get).current.stop with
  | .openComment start =>
    fail .unterminatedComment start
    modify fun σ => { σ with current := { σ.current with start := s.size } }
  | .upTo pos =>
    settle pos (if s.size ≤ pos then .fault .unexpectedEnd pos else Reading.tag s pos)

/-- Consumes the current lexeme and reads on between tags. -/
def nextInElement : Parse Unit := do
  push
  let env ← read
  let σ ← get
  settle σ.current.stop (Reading.child env.source env.dialect.flow σ.isType σ.current.stop)

/-- Reads the current `>` again outside of a type, where it may be part of a longer operator. -/
def rereadGreater : Parse Unit := do
  let { current, .. } ← get
  if current.kind == .greater then
    settle current.start (Reading.punctuator (← read).source current.start)

/-- Reads the current `<<` again as its first half. -/
def splitShiftLeft : Parse Unit := do
  let { current, .. } ← get
  if current.kind == .shiftLeft then
    settle current.start (Reading.plain .less (current.start + 1))

/-- Reads the current slash again as the start of a regular expression. -/
def rereadRegexp : Parse Unit := do
  let start ← startPos
  settle start (Reading.regexp (← read).source start)

def eat (k : TokenKind) : Parse Bool := do
  if ← isAt k then
    next
    pure true
  else pure false

def skip (k : TokenKind) : Parse Unit := do
  if ← isAt k then next

/-- Consumes the current lexeme if it is a name that spells a soft keyword. -/
def eatName (w : SoftKeyword) : Parse Bool := spells w <&&> eat .name

def expectName (w : SoftKeyword) : Parse Unit := do
  unless ← eatName w do
    unexpected

def expect (k : TokenKind) : Parse Unit := do
  unless ← eat k do
    failHere (.expected k)

/-! ## Looking ahead -/

def peekLexeme : Parse Lexeme := peek do
  next
  return (← get).current

def peekKind : Parse TokenKind := return (← peekLexeme).kind

def peekIsName (w : SoftKeyword) : Parse Bool := do
  let lexeme ← peekLexeme
  return lexeme.kind == .name && lexeme.keyword == w

def peekPos : Parse Nat := return (← read).source.skipTrivia (← get).current.stop

/-- The byte with which the lexeme after the current one starts. -/
def peekByte : Parse Char := return (← read).source.byteAt (← peekPos)

/-! ## Line breaks -/

def afterLineBreak : Parse Bool := do
  let σ ← get
  let last := (σ.tokens.back?.map (·.stop)).getD 0
  return (← read).source.hasLineBreak last σ.current.start

def beforeLineBreak : Parse Bool := do
  return (← read).source.hasLineBreak (← get).current.stop (← peekPos)

/-- Whether a statement may end before the current lexeme without a semicolon. -/
def canInsertSemicolon : Parse Bool := isAtAny [.eof, .braceClose] <||> afterLineBreak

/-- Consumes a semicolon if there is one, and says whether the statement ends here. -/
def endsStatement : Parse Bool := eat .semicolon <||> canInsertSemicolon

def semicolon : Parse Unit := do
  unless ← endsStatement do
    failHere .expectedSemicolon

/-! ## Annotations -/

/-- The index that the next consumed token gets. -/
def tokenIndex : Parse Nat := return (← get).tokens.size

/-- The index of the last consumed token, of which there has to be one. -/
def lastIndex : Parse Nat := do
  match ← tokenIndex with
  | 0 => throw .noToken
  | n + 1 => pure n

def lastToken? : Parse (Option Token) := return (← get).tokens.back?

def annotateAt (i : Nat) (f : Token → Token) : Parse Unit := modify (·.modifyToken i f)

def annotateLast (f : Token → Token) : Parse Unit :=
  modify fun σ => σ.modifyToken (σ.tokens.size - 1) f

def setRole (role : IdentifierRole) : Parse Unit := annotateLast ({ · with role? := some role })

def setKind (k : TokenKind) : Parse Unit := annotateLast ({ · with kind := k })

def setContext (id : Nat) : Parse Unit := annotateLast ({ · with contextId? := some id })

/-- Gives the last token a context number, unless the number is zero, which stands for none. -/
def setContextIfAny (id : Nat) : Parse Unit := do
  if id != 0 then setContext id

def freshContext : Parse Nat :=
  modifyGet fun σ => (σ.nextContextId, { σ with nextContextId := σ.nextContextId + 1 })

/-- Records on the token at an index that its right-hand side ends here. -/
def markRhsEnd (i : Nat) : Parse Unit := do
  let stop ← tokenIndex
  annotateAt i ({ · with rhsEnd? := some stop })

/-- Halts unless two indices are the ends of a range of tokens. -/
def requireRange (start stop : Nat) : Parse Unit := do
  unless start ≤ stop ∧ stop ≤ (← get).tokens.size do
    throw (.tokenRange start stop)

def markTypes (start stop : Nat) : Parse Unit := do
  let σ ← get
  if start ≤ stop ∧ stop ≤ σ.tokens.size then
    set (σ.markTypes start stop)
  else throw (.tokenRange start stop)

/-- Runs a rule inside a type; the last `n` tokens belong to the type too. -/
def inType {α : Type} (n : Nat) (rule : Parse α) : Parse α := do
  let outer := (← get).isType
  let stop ← tokenIndex
  markTypes (stop - n) stop
  modify fun σ => { σ with isType := true }
  let answer ← rule
  modify fun σ => { σ with isType := outer }
  pure answer

/-- Consumes the current lexeme as part of a type if it is of a kind. -/
def skipAsType (k : TokenKind) : Parse Unit := inType 0 (skip k)

/-! ## Scopes -/

def openScope : Parse Unit := modify fun σ => { σ with scopeDepth := σ.scopeDepth + 1 }

def leaveScope : Parse Unit := do
  let σ ← get
  match σ.scopeDepth with
  | 0 => throw .scopeUnderflow
  | depth + 1 => set { σ with scopeDepth := depth }

def recordScope (start : Nat) (isFunction : Bool) : Parse Unit :=
  modify fun σ => { σ with scopes := σ.scopes.push ⟨start, σ.tokens.size, isFunction⟩ }

def closeScope (start : Nat) (isFunction : Bool) : Parse Unit := do
  recordScope start isFunction
  leaveScope

/-! ## Identifiers and lists -/

def identifier : Parse Unit := do
  next
  setKind .name

def privateOrPlainName : Parse Unit := do
  skip .hash
  identifier

def importedIdentifier : Parse Unit := do
  identifier
  setRole .importDeclaration

/-- Consumes identifiers with dots between them, from after the first one on. -/
def qualifiedRest : Parse Unit := loopWhile (eat .dot) identifier

/-- Runs a rule while a kind is not current and no error has been recorded. -/
def loopUntil (close : TokenKind) (rule : Parse Unit) : Parse Unit :=
  loopWhile (return !(← isAt close) && !(← hasError)) rule

/-- Runs a rule until a kind is consumed or an error has been recorded. -/
def loopUntilEaten (close : TokenKind) (rule : Parse Unit) : Parse Unit :=
  loopWhile (do if ← eat close then pure false else return !(← hasError)) rule

/-- Items with commas between them, and one after them if need be, up to and including a closing
token. -/
def commaList (close : TokenKind) (item : Parse Unit) : Parse Unit :=
  discard <| iterate true fun isFirst => do
    if ← eat close then return .done false
    if ← hasError then return .done false
    unless isFirst do
      expect .comma
      if ← eat close then return .done false
    item
    return .yield false

-- Rules that only put others together.
attribute [reducible] afterLineBreak annotateAt annotateLast beforeLineBreak canInsertSemicolon
  closeScope commaList endsStatement expectName fail failHere hasError loopUntil peekByte peekIsName
  peekLexeme peekPos setRole startPos

end PlainScript.Grammar.Parse
