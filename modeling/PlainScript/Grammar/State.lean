import PlainScript.SyntaxError
import PlainScript.Token

/-!
# Parser state

The parser walks the grammar once and leaves behind the tokens it consumed, with their annotations,
and the scopes it closed. The current lexeme is not among the tokens until it is consumed. A syntax
error does not interrupt the walk: the first one is kept, and from then on the current lexeme is the
end of the text.

The walk can also halt. It never should; the causes of a halt are kept apart from syntax errors so
that their absence can be stated.

The rules of the grammar refer to each other in cycles. A rule reaches another one through its
`Goal`, and `Env.recur` says how goals are met; the recursion itself is in one place, where all
rules are known.
-/

namespace PlainScript.Grammar

/-- Where the parser stands. This much is put back when an attempt is abandoned. -/
structure Cursor where
  current : Lexeme := {}
  isType : Bool := false
  scopeDepth : Nat := 0
  /-- Where an expression starts that may turn out to be the parameters of an arrow function. -/
  potentialArrowAt? : Option Nat := none
  /-- Whether a function type must not be written without parentheses here. -/
  noAnonymousFunctionType : Bool := false
  noConditionalType : Bool := false
  error? : Option SyntaxError := none
deriving DecidableEq, Repr

structure State extends Cursor where
  tokens : Array Token := #[]
  scopes : Array Scope := #[]
  nextContextId : Nat := 1

/-- A point to return to: the cursor and how much had been recorded. -/
structure Snapshot where
  cursor : Cursor
  tokenCount : Nat
  scopeCount : Nat

namespace State

def snapshot (σ : State) : Snapshot := ⟨σ.toCursor, σ.tokens.size, σ.scopes.size⟩

/-- Returns to an earlier point. Tokens and scopes recorded since are dropped; annotations made
since on earlier tokens stay, and context numbers are not used again. -/
def restore (σ : State) (p : Snapshot) : State where
  toCursor := p.cursor
  tokens := σ.tokens.shrink p.tokenCount
  scopes := σ.scopes.shrink p.scopeCount
  nextContextId := σ.nextContextId

def modifyToken (σ : State) (i : Nat) (f : Token → Token) : State :=
  { σ with tokens := σ.tokens.modify i f }

def markTypes (σ : State) (start stop : Nat) : State :=
  let mark (i : Nat) (t : Token) : Token :=
    if start ≤ i ∧ i < stop then { t with isType := true } else t
  { σ with tokens := σ.tokens.mapIdx mark }

end State

inductive Halt where
  /-- The bound on the number of steps was too small. -/
  | budget
  /-- The text between two offsets would have to be read, but it cuts a character. -/
  | torn (start stop : Nat)
  /-- More scopes were closed than had been opened. -/
  | scopeUnderflow
  /-- A range of token indices that is out of order or out of range. -/
  | tokenRange (start stop : Nat)
  /-- The last token was asked for before there was one. -/
  | noToken
deriving DecidableEq, Repr

/-- The rules of the grammar that are reached from more than one place or that contain themselves.
The answer to a goal says whether an arrow function was read; for most goals it means nothing. -/
inductive Goal where
  | statement (declaration : Bool)
  | block (isFunction : Bool) (contextId : Nat)
  | blockBody (close : TokenKind)
  | classDefinition (isStatement optionalName : Bool)
  | importClause
  | exportClause
  | expression (noIn : Bool)
  /-- `inParens` allows type annotations after the left side. -/
  | assignment (noIn inParens : Bool)
  /-- Operators of precedence `floor` and above, after an operand that starts at a token. -/
  | operators (start floor : Nat) (noIn : Bool)
  | unary
  | subscripts (start : Nat) (noCalls : Bool)
  /-- An expression that contains no call at its end, such as the operand of `new`. -/
  | callee
  | object (isPattern isBlockScoped : Bool)
  | bindingAtom (isBlockScoped : Bool)
  | element
  | tsType
  | flowType
  | flowDeclare
deriving DecidableEq, Repr

abbrev Step := StateT State (Except Halt)

structure Env where
  source : Source
  dialect : Dialect
  recur : Goal → Step Bool

abbrev Parse := ReaderT Env Step

namespace Parse

def reach (g : Goal) : Parse Unit := do
  discard <| (← read).recur g

/-- Reaches another rule and says whether it read an arrow function. -/
def reachArrow (g : Goal) : Parse Bool := do
  (← read).recur g

/-- Runs `round` until it answers that it is done, for at most `n` rounds. -/
def iterateFor {σ : Type} (round : σ → Parse (ForInStep σ)) : Nat → σ → Parse σ
  | 0, _ => throw .budget
  | n + 1, s => do
    match ← round s with
    | .done s => pure s
    | .yield s => iterateFor round n s

/-- A number of rounds that no loop over a source needs: each round of a loop consumes a part of
the text, reaches its end or records an error. -/
def roundLimit (s : Source) : Nat := s.size + 16

def iterate {σ : Type} (init : σ) (round : σ → Parse (ForInStep σ)) : Parse σ := do
  iterateFor round (roundLimit (← read).source) init

/-- Runs `round` as long as it answers `true`. -/
def loop (round : Parse Bool) : Parse Unit :=
  iterate () fun _ => do
    if ← round then pure (.yield ()) else pure (.done ())

/-- Runs `body` as long as `condition` answers `true`. -/
def loopWhile (condition : Parse Bool) (body : Parse Unit) : Parse Unit :=
  loop do
    if ← condition then
      body
      pure true
    else pure false

def snapshot : Parse Snapshot := return (← get).snapshot

def restore (p : Snapshot) : Parse Unit := modify (·.restore p)

def peek {α : Type} (rule : Parse α) : Parse α := do
  let p ← snapshot
  let answer ← rule
  restore p
  pure answer

end Parse

end PlainScript.Grammar
