import PlainScript.Source
import PlainScript.Token.Kind

/-!
# Punctuators

The punctuators of the language and the rule that reads them: of all punctuators that are spelled at
an offset, the longest one counts. Splits that depend on the context, such as the two `>` that close
nested type arguments, are decided before this rule is asked.
-/

namespace PlainScript.Punctuator

/-- The punctuators with their kinds, longer ones first. -/
def table : List (String × TokenKind) := [
  (">>>=", .compoundAssign),
  ("...", .ellipsis), ("===", .equality), ("!==", .equality), (">>>", .shiftRight),
  ("**=", .compoundAssign), ("<<=", .compoundAssign), (">>=", .compoundAssign),
  ("&&=", .compoundAssign), ("||=", .compoundAssign), ("??=", .compoundAssign),
  ("::", .doubleColon), ("?.", .questionDot), ("??", .nullish), ("=>", .arrow),
  ("==", .equality), ("!=", .equality), ("++", .increment), ("--", .increment),
  ("+=", .compoundAssign), ("-=", .compoundAssign), ("*=", .compoundAssign),
  ("/=", .compoundAssign), ("%=", .compoundAssign), ("&=", .compoundAssign),
  ("|=", .compoundAssign), ("^=", .compoundAssign), ("**", .exponent),
  ("<=", .lessOrGreaterEqual), (">=", .lessOrGreaterEqual), ("<<", .shiftLeft),
  (">>", .shiftRight), ("&&", .logicalAnd), ("||", .logicalOr), ("|>", .pipeline),
  ("\x7b", .braceOpen), ("\x7d", .braceClose), ("(", .parenOpen), (")", .parenClose),
  ("[", .bracketOpen), ("]", .bracketClose), (";", .semicolon), (",", .comma), (":", .colon),
  (".", .dot), ("?", .question), ("@", .atSign), ("#", .hash), ("`", .backquote),
  ("=", .equals), ("!", .bang), ("~", .tilde), ("+", .plus), ("-", .minus), ("*", .star),
  ("/", .slash), ("%", .modulo), ("<", .less), (">", .greater), ("&", .bitAnd), ("|", .bitOr),
  ("^", .bitXor)]

/-- Whether the ASCII characters `cs` stand at an offset. -/
def standsAt (s : Source) : List Char → Nat → Bool
  | [], _ => true
  | c :: cs, i => s.byteAt i == c && standsAt s cs (i + 1)

def longest? (s : Source) (i : Nat) : Option (TokenKind × Nat) :=
  (table.find? fun entry => standsAt s entry.1.toList i).map fun entry =>
    (entry.2, entry.1.length)

end PlainScript.Punctuator
