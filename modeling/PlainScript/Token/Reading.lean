import PlainScript.Source.Trivia
import PlainScript.SyntaxError
import PlainScript.Token.Punctuator
import PlainScript.Token.Word

/-!
# Reading lexemes

Reads one lexeme at an offset. How it is read depends on where the parser stands: in ordinary code,
inside a template, inside a tag, between tags, or where a slash starts a regular expression. Each of
these has its own function here, and none of them depends on the parser's state beyond what it is
given. The result is a lexeme, a syntax error, or the report that a word would cut a character,
which happens only when a backslash stands before a character outside ASCII.
-/

namespace PlainScript

inductive Reading where
  | lexeme (kind : TokenKind) (keyword : SoftKeyword) (stop : Nat)
  | fault (cause : SyntaxError.Cause) (pos : Nat)
  /-- The text between the two offsets would have to be read, but it cuts a character. -/
  | torn (start stop : Nat)
deriving DecidableEq, Repr

/-- What stands before the next lexeme. -/
inductive Gap where
  | upTo (pos : Nat)
  | openComment (start : Nat)
deriving DecidableEq, Repr

namespace Source

/-- Passes at most `n` blanks, line terminators, comments and the `#!` line from `i` on. -/
def gapFor (s : Source) : Nat → Nat → Gap
  | 0, i => .upTo i
  | n + 1, i =>
    match s.byteAt i with
    | '/' =>
      match s.byteAt (i + 1) with
      | '*' =>
        match s.findPair? '*' '/' (i + 2) with
        | some j => s.gapFor n (j + 2)
        | none => .openComment i
      | '/' => s.gapFor n (s.skipChars (!isLineTerminator ·) (i + 2))
      | _ => .upTo i
    | '#' =>
      if i = 0 ∧ s.byteAt 1 = '!' then s.gapFor n (s.skipChars (!isLineTerminator ·) 2)
      else .upTo i
    | _ =>
      match s.charAt? i with
      | some c => if isGap c then s.gapFor n (i + c.utf8Size) else .upTo i
      | none => .upTo i

/-- What stands between an offset and the next lexeme. -/
def gap (s : Source) (i : Nat) : Gap := s.gapFor (s.size - i) i

/-- The end of at most `n` characters and escapes of a word. -/
def wordEndFor (s : Source) : Nat → Nat → Nat
  | 0, i => i
  | n + 1, i =>
    match s.charAt? i with
    | some c =>
      if isNamePart c then s.wordEndFor n (i + c.utf8Size)
      else if c = '\\' then
        if s.byteAt (i + 2) = '{' then s.wordEndFor n (s.skipBytes (· != '}') (i + 2) + 1)
        else s.wordEndFor n (i + 2)
      else i
    | none => i

/-- The end of the word that starts at an offset. An escape counts as two bytes, and as everything
up to the closing brace if an opening brace follows them. -/
def wordEnd (s : Source) (i : Nat) : Nat := min (s.wordEndFor (s.size - i) i) s.size

def digitsEnd (s : Source) (i : Nat) : Nat := s.skipBytes (fun c => c.isDigit || c == '_') i

def hexDigitsEnd (s : Source) (i : Nat) : Nat :=
  s.skipBytes
    (fun c => c.isDigit || ('a' ≤ c && c ≤ 'f') || ('A' ≤ c && c ≤ 'F') || c == '_') i

/-- The offset after the closing quote, searched among the next `n` bytes. -/
def stringEndFor (s : Source) (quote : Char) : Nat → Nat → Option Nat
  | 0, _ => none
  | n + 1, i =>
    if s.byteAt i = '\\' then s.stringEndFor quote n (i + 2)
    else if s.byteAt i = quote then some (i + 1)
    else s.stringEndFor quote n (i + 1)

/-- The offset after the closing quote of a string whose contents start at `i`. -/
def stringEnd? (s : Source) (quote : Char) (i : Nat) : Option Nat :=
  s.stringEndFor quote (s.size - i) i

/-- Where a piece of a template ends, searched among the next `n` bytes. -/
def templateStopFor (s : Source) : Nat → Nat → Option Nat
  | 0, _ => none
  | n + 1, i =>
    if s.byteAt i = '\x60' ∨ (s.byteAt i = '$' ∧ s.byteAt (i + 1) = '{') then some i
    else if s.byteAt i = '\\' then s.templateStopFor n (i + 2)
    else s.templateStopFor n (i + 1)

/-- Where the piece of a template that starts at `i` ends: at a backquote or at `$` and a brace. -/
def templateStop? (s : Source) (i : Nat) : Option Nat := s.templateStopFor (s.size - i) i

/-- The closing slash of a regular expression, searched among the next `n` bytes. -/
def regexpCloseFor (s : Source) : Nat → (escaped inClass : Bool) → Nat → Option Nat
  | 0, _, _, _ => none
  | n + 1, true, inClass, i => s.regexpCloseFor n false inClass (i + 1)
  | n + 1, false, inClass, i =>
    match s.byteAt i with
    | '[' => s.regexpCloseFor n false true (i + 1)
    | ']' => s.regexpCloseFor n false false (i + 1)
    | '/' => if inClass then s.regexpCloseFor n false inClass (i + 1) else some i
    | '\n' | '\r' => none
    | '\\' => s.regexpCloseFor n true inClass (i + 1)
    | _ => s.regexpCloseFor n false inClass (i + 1)

/-- The closing slash of a regular expression whose body starts at `i`. A slash inside brackets
closes nothing, and a line break that is not escaped ends the search. -/
def regexpClose? (s : Source) (i : Nat) : Option Nat := s.regexpCloseFor (s.size - i) false false i

end Source

namespace Reading

/-- A lexeme that spells no soft keyword. -/
def plain (kind : TokenKind) (stop : Nat) : Reading := .lexeme kind .ordinary stop

def word (s : Source) (start : Nat) : Reading :=
  let stop := s.wordEnd start
  match s.slice? start stop with
  | none => .torn start stop
  | some text =>
    match Word.ofText text with
    | .reserved kind => plain kind stop
    | .name keyword => .lexeme .name keyword stop

def radixNumber (s : Source) (start : Nat) : Reading :=
  let stop := s.hexDigitsEnd (start + 2)
  if s.byteAt stop = 'n' then plain .bigint (stop + 1) else plain .number stop

def decimalNumber (s : Source) (start : Nat) : Reading :=
  let whole := if s.byteAt start = '.' then start else s.digitsEnd start
  let fraction := if s.byteAt whole = '.' then s.digitsEnd (whole + 1) else whole
  let exponent :=
    if s.byteAt fraction = 'e' ∨ s.byteAt fraction = 'E' then
      let sign := s.byteAt (fraction + 1)
      s.digitsEnd (if sign = '+' ∨ sign = '-' then fraction + 2 else fraction + 1)
    else fraction
  match s.byteAt exponent with
  | 'n' => plain .bigint (exponent + 1)
  | 'm' => plain .decimal (exponent + 1)
  | _ => plain .number exponent

def string (s : Source) (start : Nat) : Reading :=
  match s.stringEnd? (s.byteAt start) (start + 1) with
  | some stop => plain .string stop
  | none => .fault .unterminatedString start

def punctuator (s : Source) (start : Nat) : Reading :=
  match Punctuator.longest? s start with
  | some (kind, length) => plain kind (start + length)
  | none =>
    if s.isBoundary start then
      .fault (.unexpectedCharacter ((s.charAt? start).getD '\x00')) start
    else .torn start s.size

/-- Reads a number, a string or a punctuator. In a type, `<<` and `>` are read one character at a
time, so that nested type arguments close one by one. Some pairs are split because the second
character belongs to what follows: `?` before `.5`, and `*` or `%` before `=>`. -/
def symbol (s : Source) (flow isType : Bool) (start : Nat) : Reading :=
  let second := s.byteAt (start + 1)
  let third := s.byteAt (start + 2)
  match s.byteAt start with
  | '.' => if second.isDigit then decimalNumber s start else punctuator s start
  | '"' | '\'' => string s start
  | '{' => if flow && second == '|' then plain .exactBraceOpen (start + 2) else punctuator s start
  | '|' => if flow && second == '}' then plain .exactBraceClose (start + 2) else punctuator s start
  | '<' =>
    if isType && second == '<' && third != '=' then plain .less (start + 1)
    else punctuator s start
  | '>' => if isType then plain .greater (start + 1) else punctuator s start
  | '?' =>
    if (second == '?' && flow && isType) || (second == '.' && third.isDigit) then
      plain .question (start + 1)
    else punctuator s start
  | '*' =>
    if second == '=' && third == '>' then plain .star (start + 1) else punctuator s start
  | '%' =>
    if second == '=' && third == '>' then plain .modulo (start + 1) else punctuator s start
  | '0' =>
    if second.toLower == 'x' || second.toLower == 'o' || second.toLower == 'b' then
      radixNumber s start
    else decimalNumber s start
  | c => if c.isDigit then decimalNumber s start else punctuator s start

def code (s : Source) (flow isType : Bool) (start : Nat) : Reading :=
  match s.charAt? start with
  | some c => if isNameStart c || c == '\\' then word s start else symbol s flow isType start
  | none => symbol s flow isType start

/-- Reads a template from an offset: the piece up to the next backquote or substitution, or, after a
piece, the mark that ends it. -/
def template (s : Source) (afterPiece : Bool) (start : Nat) : Reading :=
  match s.templateStop? start with
  | none => .fault .unterminatedTemplate start
  | some stop =>
    if afterPiece && stop == start then
      if s.byteAt stop = '$' then plain .dollarBrace (stop + 2) else plain .backquote (stop + 1)
    else plain .template stop

/-- Reads a regular expression, with its flags, from its opening slash on. -/
def regexp (s : Source) (start : Nat) : Reading :=
  match s.regexpClose? (start + 1) with
  | some slash => plain .regexp (s.wordEnd (slash + 1))
  | none => .fault .unterminatedRegexp start

/-- Reads an attribute string, which has no escapes. -/
def attributeString (s : Source) (start : Nat) : Reading :=
  let close := s.skipBytes (· != s.byteAt start) (start + 1)
  if close < s.size then plain .string (close + 1) else .fault .unterminatedString start

/-- Reads the lexeme at an offset inside a tag. Names may contain hyphens. -/
def tag (s : Source) (start : Nat) : Reading :=
  if (s.charAt? start).any isNameStart then
    plain .jsxName (s.skipChars (fun c => isNamePart c || c == '-') start)
  else
    match s.byteAt start with
    | '"' | '\'' => attributeString s start
    | '>' => plain .jsxTagEnd (start + 1)
    | '<' => plain .jsxTagStart (start + 1)
    | '/' => plain .slash (start + 1)
    | '=' => plain .equals (start + 1)
    | '{' => plain .braceOpen (start + 1)
    | '.' => plain .dot (start + 1)
    | ':' => plain .colon (start + 1)
    | _ => .fault .unexpectedToken start

/-- Blanks that count for nothing at the ends of a line between tags. -/
def isChildBlank (c : Char) : Bool := c == ' ' || c == '\n' || c == '\r' || c == '\t'

/-- Reads what stands between tags: text up to the next `<` or brace, or one of these. Text that is
blank and spans lines is empty. -/
def child (s : Source) (flow isType : Bool) (start : Nat) : Reading :=
  let stop := s.skipBytes (fun c => c != '<' && c != '{') start
  if s.size ≤ stop then .fault .unterminatedJsxContents start
  else if stop = start then
    if s.byteAt start = '<' then plain .jsxTagStart (start + 1) else symbol s flow isType start
  else
    let spansLines := s.skipBytesFor (· != '\n') (stop - start) start < stop
    let isBlank := s.skipBytesFor isChildBlank (stop - start) start == stop
    plain (if spansLines && isBlank then .jsxEmptyText else .jsxText) stop

end Reading

end PlainScript
