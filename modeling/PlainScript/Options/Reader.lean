import PlainScript.Options

/-!
# Reading options from JSON text

Reads options from left to right and stops at the first error. An error is of one of three kinds:
the text is no JSON, it ends too early, or it is well formed so far and does not have the shape of
options. A value of the wrong type is read to its end first if it is a literal, a number or a
string, so an error inside it comes first.

A list gives the fields of options by their position. Unknown fields are skipped; a skipped number
may be of any size, and a skipped string may contain any escapes.

Each function takes the characters that are left and gives back those it does not consume. The
functions that repeat recurse on a bound, for which the number of characters is always enough.
-/

namespace PlainScript.Options.Reader

inductive ReadError where
  /-- Well formed so far, but not the shape of options. -/
  | shape
  | malformed
  | ended
deriving DecidableEq, Repr

abbrev Read (α : Type) := StateT (List Char) (Except ReadError) α

def peek? : Read (Option Char) := return (← get).head?

def drop : Read Unit := modify List.tail

def next? : Read (Option Char) := do
  let c ← peek?
  drop
  return c

/-- Blanks between the parts of a text. -/
def isJsonBlank (c : Char) : Bool := c == ' ' || c == '\n' || c == '\t' || c == '\r'

def peekToken? : Read (Option Char) := do
  modify (·.dropWhile isJsonBlank)
  peek?

def literalRest : List Char → Read Unit
  | [] => pure ()
  | c :: rest => do
    match ← next? with
    | none => throw .ended
    | some d => if c = d then literalRest rest else throw .malformed

/-! ## Strings -/

def hexValue? (c : Char) : Option Nat :=
  if c.isDigit then some (c.toNat - 48)
  else if 'a' ≤ c ∧ c ≤ 'f' then some (c.toNat - 87)
  else if 'A' ≤ c ∧ c ≤ 'F' then some (c.toNat - 55)
  else none

/-- The number that four hexadecimal digits stand for. Fewer than four bytes are the end of the
text. -/
def fourHexDigits : Read Nat := do
  let cs ← get
  if (String.ofList (cs.take 4)).utf8ByteSize < 4 then throw .ended
  match (cs.take 4).mapM hexValue? with
  | some [a, b, c, d] =>
    set (cs.drop 4)
    return ((a * 16 + b) * 16 + c) * 16 + d
  | _ => throw .malformed

def shortEscape? : Char → Option Char
  | '"' => some '"'
  | '\\' => some '\\'
  | '/' => some '/'
  | 'b' => some '\x08'
  | 'f' => some '\x0c'
  | 'n' => some '\n'
  | 'r' => some '\r'
  | 't' => some '\t'
  | _ => none

/-- Steps over a character inside an escape. -/
def escapePart (c : Char) : Read Unit := do
  match ← next? with
  | none => throw .ended
  | some d => unless c = d do throw .malformed

/-- The character that a numeric escape stands for. Characters beyond the first 65536 are written as
two surrogates, and a surrogate alone stands for nothing. -/
def numericEscape : Read Char := do
  let n ← fourHexDigits
  if 0xDC00 ≤ n ∧ n ≤ 0xDFFF then throw .malformed
  if n < 0xD800 ∨ 0xDBFF < n then return Char.ofNat n
  escapePart '\\'
  escapePart 'u'
  let m ← fourHexDigits
  if m < 0xDC00 ∨ 0xDFFF < m then throw .malformed
  return Char.ofNat ((n - 0xD800) * 1024 + (m - 0xDC00) + 0x10000)

/-- The rest of a string, whose characters so far are given in reverse. -/
def stringRest : Nat → List Char → Read String
  | 0, _ => throw .ended
  | bound + 1, done => do
    match ← next? with
    | none => throw .ended
    | some '"' => return String.ofList done.reverse
    | some '\\' =>
      match ← next? with
      | none => throw .ended
      | some 'u' => stringRest bound ((← numericEscape) :: done)
      | some c =>
        match shortEscape? c with
        | some d => stringRest bound (d :: done)
        | none => throw .malformed
    | some c => if c.toNat < 32 then throw .malformed else stringRest bound (c :: done)

def string : Read String := do stringRest ((← get).length + 1) []

def skipStringRest : Nat → Read Unit
  | 0 => throw .ended
  | bound + 1 => do
    match ← next? with
    | none => throw .ended
    | some '"' => pure ()
    | some '\\' =>
      match ← next? with
      | none => throw .ended
      | some 'u' =>
        discard fourHexDigits
        skipStringRest bound
      | some c => if (shortEscape? c).isSome then skipStringRest bound else throw .malformed
    | some c => if c.toNat < 32 then throw .malformed else skipStringRest bound

/-! ## Numbers -/

def digits : Read (List Char) := do
  let cs ← get
  set (cs.dropWhile Char.isDigit)
  return cs.takeWhile Char.isDigit

/-- The digits of a whole number: a zero alone, or digits that do not start with zero. `atEnd` is
the error for a number that the end of the text cuts off. -/
def wholePart (atEnd : ReadError) : Read (List Char) := do
  match ← next? with
  | none => throw atEnd
  | some c =>
    if c = '0' then
      if (← peek?).any Char.isDigit then throw .malformed
      return ['0']
    if c.isDigit then return c :: (← digits)
    throw .malformed

def fractionPart (atEnd : ReadError) : Read (List Char) := do
  unless (← peek?) == some '.' do
    return []
  drop
  let ds ← digits
  if ds.isEmpty then
    throw (if (← peek?).isNone then atEnd else .malformed)
  return ds

def exponentPart (atEnd : ReadError) : Read (Bool × List Char) := do
  let c ← peek?
  unless c == some 'e' || c == some 'E' do
    return (false, [])
  drop
  let sign ← peek?
  if sign == some '+' || sign == some '-' then drop
  let ds ← digits
  if ds.isEmpty then
    throw (if (← peek?).isNone then atEnd else .malformed)
  return (sign == some '-', ds)

/-- Steps over a number after its sign. -/
def skipNumber : Read Unit := do
  discard <| wholePart .malformed
  discard <| fractionPart .malformed
  discard <| exponentPart .malformed

def digitsValue (ds : List Char) : Nat := ds.foldl (fun n d => n * 10 + (d.toNat - 48)) 0

/-- The first digits whose value fits into 64 bits. The others only shift the exponent. -/
def fittingDigits : Nat → List Char → Nat × List Char
  | n, [] => (n, [])
  | n, d :: rest =>
    let m := n * 10 + (d.toNat - 48)
    if m < UInt64.size then fittingDigits m rest else (n, d :: rest)

/-- A natural number rounded to 53 binary digits, a half to the even neighbour. -/
def roundToDouble (n : Nat) : Nat :=
  let excess := n.log2 + 1 - 53
  let unit := 1 <<< excess
  let low := n % unit
  let floor := n - low
  if low * 2 < unit then floor
  else if unit < low * 2 then floor + unit
  else if floor / unit % 2 = 0 then floor else floor + unit

/-- Whether a significand times a power of ten is too large for a double. -/
def overflows (significand exponent : Nat) : Bool :=
  if significand = 0 then false
  else if 308 < exponent then true
  else (1 <<< 1024) - (1 <<< 970) ≤ roundToDouble significand * roundToDouble (Nat.pow 10 exponent)

def isTooLarge (whole fraction : List Char) (isNegative : Bool) (exponent : List Char) : Bool :=
  let (n, restWhole) := fittingDigits 0 whole
  let (n, restFraction) := fittingDigits n fraction
  let shift : Int := (restWhole.length : Int) - (fraction.length - restFraction.length)
  let e := digitsValue exponent
  let total : Int := shift + (if isNegative then -(e : Int) else e)
  if 0x80000000 ≤ e then n != 0 && !isNegative
  else if total < 0 then false
  else overflows n total.toNat

/-- Reads a number after its sign to its end. -/
def number : Read Unit := do
  let whole ← wholePart .ended
  let fraction ← fractionPart .ended
  let (isNegative, exponent) ← exponentPart .ended
  if isTooLarge whole fraction isNegative exponent then throw .malformed

/-! ## Values -/

/-- Reads a value of the wrong type as far as it is read before it is refused. -/
def wrongType {α : Type} : Read α := do
  match ← peek? with
  | some 'n' =>
    drop
    literalRest "ull".toList
  | some 't' =>
    drop
    literalRest "rue".toList
  | some 'f' =>
    drop
    literalRest "alse".toList
  | some '-' =>
    drop
    number
  | some '"' =>
    drop
    discard string
  | some '[' | some '{' => pure ()
  | some c => if c.isDigit then number else throw .malformed
  | none => throw .malformed
  throw .shape

mutual

def skipValue : Nat → Read Unit
  | 0 => throw .ended
  | bound + 1 => do
    match ← peekToken? with
    | none => throw .ended
    | some 'n' =>
      drop
      literalRest "ull".toList
    | some 't' =>
      drop
      literalRest "rue".toList
    | some 'f' =>
      drop
      literalRest "alse".toList
    | some '-' =>
      drop
      skipNumber
    | some '"' =>
      drop
      skipStringRest bound
    | some '[' =>
      drop
      if (← peekToken?) == some ']' then drop else skipItems bound
    | some '{' =>
      drop
      if (← peekToken?) == some '}' then drop else skipMembers bound
    | some c => if c.isDigit then skipNumber else throw .malformed

/-- Steps over the items of a list, at least one, and the closing bracket. -/
def skipItems : Nat → Read Unit
  | 0 => throw .ended
  | bound + 1 => do
    skipValue bound
    match ← peekToken? with
    | none => throw .ended
    | some ',' =>
      drop
      skipItems bound
    | some ']' => drop
    | some _ => throw .malformed

/-- Steps over the members of an object, at least one, and the closing brace. -/
def skipMembers : Nat → Read Unit
  | 0 => throw .ended
  | bound + 1 => do
    match ← peekToken? with
    | none => throw .ended
    | some '"' =>
      drop
      skipStringRest bound
    | some _ => throw .malformed
    match ← peekToken? with
    | none => throw .ended
    | some ':' =>
      drop
      skipValue bound
    | some _ => throw .malformed
    match ← peekToken? with
    | none => throw .ended
    | some ',' =>
      drop
      skipMembers bound
    | some '}' => drop
    | some _ => throw .malformed

end

def skip : Read Unit := do skipValue ((← get).length * 2 + 2)

def text : Read String := do
  match ← peekToken? with
  | none => throw .ended
  | some '"' =>
    drop
    string
  | some _ => wrongType

def bool : Read Bool := do
  match ← peekToken? with
  | none => throw .ended
  | some 't' =>
    drop
    literalRest "rue".toList
    return true
  | some 'f' =>
    drop
    literalRest "alse".toList
    return false
  | some _ => wrongType

def optional {α : Type} (value : Read α) : Read (Option α) := do
  if (← peekToken?) == some 'n' then
    drop
    literalRest "ull".toList
    return none
  return some (← value)

/-- Whether a list goes on with another item, which then comes next. -/
def hasItem (isFirst : Bool) : Read Bool := do
  match ← peekToken? with
  | none => throw .ended
  | some ']' => return false
  | some c =>
    if isFirst then return true
    unless c = ',' do throw .malformed
    drop
    match ← peekToken? with
    | none => throw .ended
    | some ']' => throw .malformed
    | some _ => return true

def listEnd : Read Unit := do
  match ← peekToken? with
  | none => throw .ended
  | some ']' => drop
  | some _ => throw .malformed

def textItems : Nat → Bool → Read (List String)
  | 0, _ => throw .ended
  | bound + 1, isFirst => do
    if ← hasItem isFirst then
      let item ← text
      return item :: (← textItems bound false)
    return []

def memberName? (isFirst : Bool) : Read (Option String) := do
  match ← peekToken? with
  | none => throw .ended
  | some '}' => return none
  | some c =>
    let mut c? := some c
    unless isFirst do
      unless c = ',' do throw .malformed
      drop
      c? ← peekToken?
    match c? with
    | none => throw .ended
    | some '"' =>
      drop
      return some (← string)
    | some _ => throw .malformed

def colon : Read Unit := do
  match ← peekToken? with
  | none => throw .ended
  | some ':' => drop
  | some _ => throw .malformed

def objectEnd : Read Unit := do
  match ← peekToken? with
  | none => throw .ended
  | some '}' => drop
  | some _ => throw .malformed

/-! ## Options -/

def transforms : Read Transforms := do
  match ← peekToken? with
  | none => throw .ended
  | some '[' =>
    drop
    let names ← textItems ((← get).length + 1) true
    listEnd
    match Transforms.ofNames names with
    | .ok ts => return ts
    | .error _ => throw .shape
  | some _ => wrongType

def sourceMapMembers : Nat → Bool → Option String → Read (Option String)
  | 0, _, _ => throw .ended
  | bound + 1, isFirst, filename? => do
    match ← memberName? isFirst with
    | none => return filename?
    | some name =>
      if name = "compiledFilename" then
        if filename?.isSome then throw .shape
        colon
        sourceMapMembers bound false (some (← text))
      else
        colon
        skip
        sourceMapMembers bound false filename?

/-- Source map options: an object with a file name, or a list of it alone. -/
def sourceMapOptions : Read SourceMapOptions := do
  match ← peekToken? with
  | none => throw .ended
  | some '[' =>
    drop
    unless ← hasItem true do throw .shape
    let compiledFilename ← text
    listEnd
    return { compiledFilename }
  | some '{' =>
    drop
    match ← sourceMapMembers ((← get).length + 1) true none with
    | none => throw .shape
    | some compiledFilename =>
      objectEnd
      return { compiledFilename }
  | some _ => wrongType

/-- The fields of options, in the order in which a list gives them. -/
inductive Field where
  | transforms
  | jsxPragma
  | jsxFragmentPragma
  | enableLegacyTypeScriptModuleInterop
  | enableLegacyBabel5ModuleInterop
  | sourceMapOptions
  | filePath
  | production
  | disableESTransforms
  | keepUnusedImports
  | preserveDynamicImport
  | injectCreateRequireForImportRequire
deriving DecidableEq, Repr

namespace Field

def all : List Field :=
  [.transforms, .jsxPragma, .jsxFragmentPragma, .enableLegacyTypeScriptModuleInterop,
    .enableLegacyBabel5ModuleInterop, .sourceMapOptions, .filePath, .production,
    .disableESTransforms, .keepUnusedImports, .preserveDynamicImport,
    .injectCreateRequireForImportRequire]

def name : Field → String
  | .transforms => "transforms"
  | .jsxPragma => "jsxPragma"
  | .jsxFragmentPragma => "jsxFragmentPragma"
  | .enableLegacyTypeScriptModuleInterop => "enableLegacyTypeScriptModuleInterop"
  | .enableLegacyBabel5ModuleInterop => "enableLegacyBabel5ModuleInterop"
  | .sourceMapOptions => "sourceMapOptions"
  | .filePath => "filePath"
  | .production => "production"
  | .disableESTransforms => "disableESTransforms"
  | .keepUnusedImports => "keepUnusedImports"
  | .preserveDynamicImport => "preserveDynamicImport"
  | .injectCreateRequireForImportRequire => "injectCreateRequireForImportRequire"

def readInto (o : Options) : Field → Read Options
  | .transforms => return { o with transforms := ← Reader.transforms }
  | .jsxPragma => return { o with jsxPragma? := ← optional text }
  | .jsxFragmentPragma => return { o with jsxFragmentPragma? := ← optional text }
  | .enableLegacyTypeScriptModuleInterop =>
    return { o with enableLegacyTypeScriptModuleInterop := ← bool }
  | .enableLegacyBabel5ModuleInterop =>
    return { o with enableLegacyBabel5ModuleInterop := ← bool }
  | .sourceMapOptions =>
    return { o with sourceMapOptions? := ← optional Reader.sourceMapOptions }
  | .filePath => return { o with filePath? := ← optional text }
  | .production => return { o with production := ← bool }
  | .disableESTransforms => return { o with disableESTransforms := ← bool }
  | .keepUnusedImports => return { o with keepUnusedImports := ← bool }
  | .preserveDynamicImport => return { o with preserveDynamicImport := ← bool }
  | .injectCreateRequireForImportRequire =>
    return { o with injectCreateRequireForImportRequire := ← bool }

end Field

def fieldItems (o : Options) : List Field → Bool → Read Options
  | [], _ => return o
  | field :: rest, isFirst => do
    if ← hasItem isFirst then
      fieldItems (← field.readInto o) rest false
    else return o

/-- Reads the members of an object, up to its closing brace. No field is given twice. -/
def fieldMembers : Nat → Bool → List Field → Options → Read Options
  | 0, _, _, _ => throw .ended
  | bound + 1, isFirst, seen, o => do
    match ← memberName? isFirst with
    | none => return o
    | some name =>
      match Field.all.find? (·.name == name) with
      | some field =>
        if seen.contains field then throw .shape
        colon
        fieldMembers bound false (field :: seen) (← field.readInto o)
      | none =>
        colon
        skip
        fieldMembers bound false seen o

def options : Read Options := do
  match ← peekToken? with
  | none => throw .ended
  | some '[' =>
    drop
    let o ← fieldItems {} Field.all true
    listEnd
    return o
  | some '{' =>
    drop
    let o ← fieldMembers ((← get).length + 1) true [] {}
    objectEnd
    return o
  | some _ => wrongType

def wholeText : Read Options := do
  let o ← options
  if (← peekToken?).isSome then throw .malformed
  return o

end Reader

def ofJson (text : String) : Except Reader.ReadError Options :=
  (Reader.wholeText.run text.toList).map (·.1)

end PlainScript.Options
