import PlainScript.AnnotatedFile
import PlainScript.Emit.Pass
import PlainScript.Emit.Shadowing
import PlainScript.SourceMap

/-!
# Output

`Output.ofText` is the whole work on one file: the options are checked, the text is parsed, the
imports are planned, and the output is written in one walk over the tokens, with what it needs
before and after it.
-/

namespace PlainScript

structure Output where
  code : String
  sourceMap? : Option SourceMap
deriving DecidableEq, Repr

inductive TransformError.Cause where
  | config (error : ConfigError)
  | parse (error : ParseError)
  | structureError (error : StructureError)
  /-- A bound on the number of steps was too small, which never happens. -/
  | budget
deriving DecidableEq, Repr

/-- Why there is no output, and for which file, if its path is known. -/
structure TransformError where
  path? : Option String
  cause : TransformError.Cause
deriving DecidableEq, Repr

namespace TransformError

def Cause.message : Cause → String
  | .config error => error.message
  | .parse error => error.message
  | .structureError error => error.message
  | .budget => ""

def Cause.ofFailure : Failure → Cause
  | .structureError error => .structureError error
  | .budget => .budget

def message (e : TransformError) : String :=
  match e.path? with
  | some path => "Error transforming " ++ path ++ ": " ++ e.cause.message
  | none => e.cause.message

end TransformError

namespace Emit

def liftFailure {α : Type} : Except Failure α → Except TransformError.Cause α
  | .ok a => .ok a
  | .error e => .error (.ofFailure e)

/-- Everything that is known before the output is written, and the state in which the walk starts. -/
structure Prepared where
  setting : Setting
  state : State

def nameTexts (source : Source) (tokens : Array Token) : List String :=
  ((tokens.toList.filter (·.kind == .name)).map (·.text source)).eraseDups

def dialectOf (o : Options) : Dialect where
  jsx := o.has .jsx
  typescript := o.has .typescript
  flow := o.has .flow

/-- Parses a text, plans its imports and marks shadowed names. -/
def prepare (text : String) (o : Options) : Except TransformError.Cause Prepared := do
  let source := Source.ofText text
  let file ← match AnnotatedFile.ofSource source (dialectOf o) with
    | .ok file => pure file
    | .error e => throw (.parse e)
  let (support, names) := SupportNames.claim ⟨nameTexts source file.tokens⟩
  let tape := Tape.ofTokens source file.tokens
  let pragma := ElementPragma.ofOptions o
  let dropsTypes := o.has .typescript && !o.keepUnusedImports
  let marked (isGlobal : String → Bool) : Tape :=
    { tape with tokens := Shadowing.markShadowed source isGlobal file.scopes tape.tokens }
  let (tape, plan, names) ←
    if o.has .imports then do
      let uses ← liftFailure (ModuleUses.ofTape tape)
      let (plan, names) :=
        ImportPlan.ofUses support o.enableLegacyTypeScriptModuleInterop uses names
      let tape := marked plan.isGlobal
      let plan := if dropsTypes then plan.prune uses (tape.valueNames pragma) else plan
      pure (tape, plan, names)
    else if dropsTypes then do
      let imported ← liftFailure tape.importedNames
      pure (marked imported.contains, {}, names)
    else pure (tape, {}, names)
  return {
    state := { names, called := plan.called }
    setting := {
      tape, options := o, pragma, support, plan
      valueNames := if dropsTypes then tape.valueNames pragma else []
      declarations := if o.has .typescript then Declarations.ofTape tape else {} } }

def prefixCode (s : Setting) (σ : State) : String :=
  let o := s.options
  let fileName := match σ.fileNameVariable? with
    | some name => "const " ++ name ++ " = " ++ JsonString.quote (o.filePath?.getD "") ++ ";"
    | none => ""
  (if o.has .imports then "\"use strict\";" else "") ++ fileName ++
    (if o.has .reactHotLoader then HotLoader.enterCode else "") ++
    (if σ.exports.any then
      "Object.defineProperty(exports, \"__esModule\", \x7bvalue: true\x7d);" else "") ++
    s.support.codeFor σ.called ++
    String.join (σ.variableNames.toList.map fun name => " var " ++ name ++ ";") ++
    String.join (σ.mockFunctions.toList.map (· ++ "();"))

def suffixCode (s : Setting) (σ : State) : String :=
  let o := s.options
  (if o.has .reactHotLoader then
    HotLoader.leaveCode s.tape (o.filePath?.getD "") σ.defaultVariable? else "") ++
    (if o.enableLegacyBabel5ModuleInterop && σ.exports.default && !σ.exports.named then
      "\nmodule.exports = exports.default;\n" else "")

/-- Puts code before and after a text. A first line that names an interpreter stays first. -/
def assemble (before code after : String) : String :=
  let cs := code.toList
  if cs.take 2 = ['#', '!'] then
    let line := cs.takeWhile (· != '\n')
    String.ofList line ++ "\n" ++ before ++ String.ofList (cs.drop (line.length + 1)) ++ after
  else before ++ code ++ after

/-- Handles all tokens, and the gap after the last one. -/
def file : Emit Unit := do
  balanced
  let v ← view
  if !v.isAtEnd then fail .unfinished
  push (.gap v.index (← gap))

def writeFile (p : Prepared) : Except Failure String := do
  let s := p.setting
  let env := { s with recur := performFor s (depthLimit s.tape) }
  let (_, σ) ← (file.run env).run p.state
  return assemble (prefixCode s σ) (Piece.render σ.output) (suffixCode s σ)

end Emit

namespace Output

def codeOf (text : String) (o : Options) : Except TransformError.Cause String := do
  match o.validate with
  | .ok _ => pure ()
  | .error e => throw (.config e)
  Emit.liftFailure (Emit.writeFile (← Emit.prepare text o))

def lineMap (code : String) (o : Options) (m : SourceMapOptions) : SourceMap :=
  SourceMap.ofMappings (SourceMap.identityLines (splitChars '\n' code.toList).length)
    m.compiledFilename (o.filePath?.getD "")

def ofText (text : String) (o : Options) : Except TransformError Output :=
  match codeOf text o with
  | .error cause => .error ⟨o.filePath?, cause⟩
  | .ok code => .ok ⟨code, o.sourceMapOptions?.map (lineMap code o)⟩

end Output

end PlainScript
