/-!
# Token kinds

The kinds of tokens and what the grammar needs to know about each of them: how an error message
names it, how strongly it binds as a binary operator, and whether it is a reserved word. Reserved
words end in `Word`. A word that is reserved only in some places is read as a `name`; once its role
is known the parser gives it a kind that ends in `Modifier`.
-/

namespace PlainScript

inductive TokenKind where
  -- Literals, names and the end of the text.
  | number | bigint | decimal | regexp | string | name | eof
  -- Punctuation. The exact braces are the ones with a bar inside.
  | bracketOpen | bracketClose | braceOpen | exactBraceOpen | braceClose | exactBraceClose
  | parenOpen | parenClose | comma | semicolon | colon | doubleColon | dot | question
  | questionDot | arrow | template | ellipsis | backquote | dollarBrace | atSign | hash
  -- Operators.
  | equals | compoundAssign | increment | postIncrement | bang | tilde | pipeline | nullish
  | logicalOr | logicalAnd | bitOr | bitXor | bitAnd | equality | less | greater
  | lessOrGreaterEqual | shiftLeft | shiftRight | plus | minus | modulo | star | slash | exponent
  -- Elements written in markup.
  | jsxName | jsxText | jsxEmptyText | jsxTagStart | jsxTagEnd
  -- Marks of type parameters and of a postfixed `!`.
  | typeParameterStart | nonNullAssertion
  -- Reserved words.
  | breakWord | caseWord | catchWord | continueWord | debuggerWord | defaultWord | doWord
  | elseWord | finallyWord | forWord | functionWord | ifWord | returnWord | switchWord
  | throwWord | tryWord | varWord | letWord | constWord | whileWord | withWord | newWord
  | thisWord | superWord | classWord | extendsWord | exportWord | importWord | yieldWord
  | nullWord | trueWord | falseWord | inWord | instanceofWord | typeofWord | voidWord
  | deleteWord | enumWord
  -- Words with a role of their own.
  | asyncModifier | getModifier | setModifier | declareModifier | readonlyModifier
  | abstractModifier | staticModifier | publicModifier | privateModifier | protectedModifier
  | overrideModifier | asModifier | typeModifier | implementsModifier
deriving DecidableEq, Repr, Inhabited

namespace TokenKind

/-- How error messages name the kind. -/
def label : TokenKind → String
  | .number => "num"
  | .bigint => "bigint"
  | .decimal => "decimal"
  | .regexp => "regexp"
  | .string => "string"
  | .name => "name"
  | .eof => "eof"
  | .bracketOpen => "["
  | .bracketClose => "]"
  | .braceOpen => "\x7b"
  | .exactBraceOpen => "\x7b|"
  | .braceClose => "\x7d"
  | .exactBraceClose => "|\x7d"
  | .parenOpen => "("
  | .parenClose => ")"
  | .comma => ","
  | .semicolon => ";"
  | .colon => ":"
  | .doubleColon => "::"
  | .dot => "."
  | .question => "?"
  | .questionDot => "?."
  | .arrow => "=>"
  | .template => "template"
  | .ellipsis => "..."
  | .backquote => "`"
  | .dollarBrace => "$\x7b"
  | .atSign => "@"
  | .hash => "#"
  | .equals => "="
  | .compoundAssign => "_="
  | .increment => "++/--"
  | .postIncrement => "++/--"
  | .bang => "!"
  | .tilde => "~"
  | .pipeline => "|>"
  | .nullish => "??"
  | .logicalOr => "||"
  | .logicalAnd => "&&"
  | .bitOr => "|"
  | .bitXor => "^"
  | .bitAnd => "&"
  | .equality => "==/!=/===/!=="
  | .less => "<"
  | .greater => ">"
  | .lessOrGreaterEqual => "<=/>="
  | .shiftLeft => "<<"
  | .shiftRight => ">>/>>>"
  | .plus => "+"
  | .minus => "-"
  | .modulo => "%"
  | .star => "*"
  | .slash => "/"
  | .exponent => "**"
  | .jsxName => "jsxName"
  | .jsxText => "jsxText"
  | .jsxEmptyText => "jsxEmptyText"
  | .jsxTagStart => "jsxTagStart"
  | .jsxTagEnd => "jsxTagEnd"
  | .typeParameterStart => "typeParameterStart"
  | .nonNullAssertion => "nonNullAssertion"
  | .breakWord => "break"
  | .caseWord => "case"
  | .catchWord => "catch"
  | .continueWord => "continue"
  | .debuggerWord => "debugger"
  | .defaultWord => "default"
  | .doWord => "do"
  | .elseWord => "else"
  | .finallyWord => "finally"
  | .forWord => "for"
  | .functionWord => "function"
  | .ifWord => "if"
  | .returnWord => "return"
  | .switchWord => "switch"
  | .throwWord => "throw"
  | .tryWord => "try"
  | .varWord => "var"
  | .letWord => "let"
  | .constWord => "const"
  | .whileWord => "while"
  | .withWord => "with"
  | .newWord => "new"
  | .thisWord => "this"
  | .superWord => "super"
  | .classWord => "class"
  | .extendsWord => "extends"
  | .exportWord => "export"
  | .importWord => "import"
  | .yieldWord => "yield"
  | .nullWord => "null"
  | .trueWord => "true"
  | .falseWord => "false"
  | .inWord => "in"
  | .instanceofWord => "instanceof"
  | .typeofWord => "typeof"
  | .voidWord => "void"
  | .deleteWord => "delete"
  | .enumWord => "enum"
  | .asyncModifier => "async"
  | .getModifier => "get"
  | .setModifier => "set"
  | .declareModifier => "declare"
  | .readonlyModifier => "readonly"
  | .abstractModifier => "abstract"
  | .staticModifier => "static"
  | .publicModifier => "public"
  | .privateModifier => "private"
  | .protectedModifier => "protected"
  | .overrideModifier => "override"
  | .asModifier => "as"
  | .typeModifier => "type"
  | .implementsModifier => "implements"

/-- How strongly a binary operator binds; zero for every other kind. -/
def precedence : TokenKind → Nat
  | .nullish | .logicalOr => 1
  | .logicalAnd => 2
  | .bitOr => 3
  | .bitXor => 4
  | .bitAnd => 5
  | .equality => 6
  | .less | .greater | .lessOrGreaterEqual | .instanceofWord | .inWord => 7
  | .shiftLeft | .shiftRight => 8
  | .plus | .minus => 9
  | .modulo | .star | .slash => 10
  | .exponent => 11
  | _ => 0

def isRightAssociative (k : TokenKind) : Bool := k == .exponent

def isAssignment (k : TokenKind) : Bool := k == .equals || k == .compoundAssign

def isPrefixOperator : TokenKind → Bool
  | .increment | .bang | .tilde | .plus | .minus | .typeofWord | .voidWord | .deleteWord => true
  | _ => false

/-- `++` and `--`, which are always read as `increment` first. -/
def isPostfixOperator (k : TokenKind) : Bool := k == .increment || k == .postIncrement

/-- Reserved words, which may still name a property. -/
def isReserved : TokenKind → Bool
  | .breakWord | .caseWord | .catchWord | .continueWord | .debuggerWord | .defaultWord | .doWord
  | .elseWord | .finallyWord | .forWord | .functionWord | .ifWord | .returnWord | .switchWord
  | .throwWord | .tryWord | .varWord | .letWord | .constWord | .whileWord | .withWord | .newWord
  | .thisWord | .superWord | .classWord | .extendsWord | .exportWord | .importWord | .yieldWord
  | .nullWord | .trueWord | .falseWord | .inWord | .instanceofWord | .typeofWord | .voidWord
  | .deleteWord | .enumWord => true
  | _ => false

end TokenKind

end PlainScript
