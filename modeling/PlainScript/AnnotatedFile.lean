import PlainScript.Grammar.Statement

/-!
# Annotated files

`AnnotatedFile.ofSource` parses a source. The result is the list of its tokens, annotated with what
later passes need, and the list of its scopes in the order they closed; the last scope is the whole
file. Here all rules of the grammar are known, and the recursion between them is tied, with a bound
on its depth that is computed from the source.
-/

namespace PlainScript

structure AnnotatedFile where
  /-- All tokens in order; the last one is the end of the text. -/
  tokens : Array Token
  scopes : Array Scope

inductive ParseError where
  | conflictingDialects
  | syntaxError (error : LocatedError)
  | halted (cause : Grammar.Halt)
deriving DecidableEq, Repr

namespace ParseError

def message : ParseError → String
  | .conflictingDialects => "Cannot combine flow and typescript plugins."
  | .syntaxError error => error.message
  | .halted _ => ""

end ParseError

namespace Grammar

open Parse

def rule : Goal → Parse Bool
  | .statement declaration => do statement declaration; return false
  | .block isFunction contextId => do block isFunction contextId; return false
  | .blockBody close => do blockBody close; return false
  | .classDefinition isStatement optionalName => do
    classDefinition isStatement optionalName
    return false
  | .importClause => do importClause; return false
  | .exportClause => do exportClause; return false
  | .expression noIn => do expression noIn; return false
  | .assignment noIn inParens => assignment noIn inParens
  | .operators start floor noIn => do operators start floor noIn; return false
  | .unary => unary
  | .subscripts start noCalls => do subscripts start noCalls; return false
  | .callee => do callee; return false
  | .object isPattern isBlockScoped => do object isPattern isBlockScoped; return false
  | .bindingAtom isBlockScoped => do bindingAtom isBlockScoped; return false
  | .element => do Element.element; return false
  | .tsType => do TypeScript.type; return false
  | .flowType => do Flow.type; return false
  | .flowDeclare => do Flow.declare; return false

/-- Meets a goal by its rule, in at most a number of nested steps. -/
def meet (source : Source) (dialect : Dialect) : Nat → Goal → Step Bool
  | 0, _ => throw .budget
  | n + 1, goal => (rule goal).run { source, dialect, recur := meet source dialect n }

/-- A depth of nesting that no source needs: there are fewer rules than this between two that
consume a part of the text. -/
def depthLimit (source : Source) : Nat := 32 * (source.size + 16)

def file : Parse Unit := do
  readCode
  blockBody .eof
  recordScope 0 true

def parse (source : Source) (dialect : Dialect) : Except Halt State := do
  let env := { source, dialect, recur := meet source dialect (depthLimit source) }
  let (_, σ) ← (file.run env).run {}
  return σ

end Grammar

namespace AnnotatedFile

def ofSource (source : Source) (dialect : Dialect) : Except ParseError AnnotatedFile :=
  if dialect.typescript && dialect.flow then .error .conflictingDialects
  else
    match Grammar.parse source dialect with
    | .error cause => .error (.halted cause)
    | .ok σ =>
      match σ.error? with
      | some error => .error (.syntaxError (LocatedError.ofSyntaxError source error))
      | none => .ok ⟨σ.tokens, σ.scopes⟩

end AnnotatedFile

end PlainScript
