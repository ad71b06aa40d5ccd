import PlainScript.Source
import PlainScript.Token.Kind
import PlainScript.Token.Word

/-!
# Tokens and scopes

A lexeme is a stretch of the source with its kind. A token is a lexeme that the parser has consumed,
together with what later passes need to know about it. A scope is a range of token indices.
-/

namespace PlainScript

/-- What an identifier is used for. -/
inductive IdentifierRole where
  | access
  | exportAccess
  /-- A binding at the top level of the file. -/
  | topLevelDeclaration
  /-- A binding that belongs to the enclosing function. -/
  | functionScopedDeclaration
  /-- A binding that belongs to the enclosing block. -/
  | blockScopedDeclaration
  | shorthandTopLevelDeclaration
  | shorthandFunctionScopedDeclaration
  | shorthandBlockScopedDeclaration
  /-- A property of an object literal that is also the reference giving its value. -/
  | objectShorthand
  /-- A name bound by an import. -/
  | importDeclaration
  | objectKey
  /-- The exported name in an import clause that renames it. -/
  | importAccess
deriving DecidableEq, Repr

namespace IdentifierRole

/-- Bindings other than imports, at any depth. -/
def isDeclaration : IdentifierRole → Bool
  | .topLevelDeclaration | .functionScopedDeclaration | .blockScopedDeclaration
  | .shorthandTopLevelDeclaration | .shorthandFunctionScopedDeclaration
  | .shorthandBlockScopedDeclaration => true
  | _ => false

/-- Bindings below the top level. -/
def isInnerDeclaration : IdentifierRole → Bool
  | .functionScopedDeclaration | .blockScopedDeclaration | .shorthandFunctionScopedDeclaration
  | .shorthandBlockScopedDeclaration => true
  | _ => false

def isTopLevelDeclaration : IdentifierRole → Bool
  | .topLevelDeclaration | .shorthandTopLevelDeclaration | .importDeclaration => true
  | _ => false

/-- Bindings of a block. The top level counts as a block. -/
def isBlockScopedDeclaration : IdentifierRole → Bool
  | .topLevelDeclaration | .blockScopedDeclaration | .shorthandTopLevelDeclaration
  | .shorthandBlockScopedDeclaration => true
  | _ => false

def isFunctionScopedDeclaration : IdentifierRole → Bool
  | .functionScopedDeclaration | .shorthandFunctionScopedDeclaration => true
  | _ => false

/-- Bindings written as a property of an object pattern. -/
def isShorthandDeclaration : IdentifierRole → Bool
  | .shorthandTopLevelDeclaration | .shorthandFunctionScopedDeclaration
  | .shorthandBlockScopedDeclaration => true
  | _ => false

end IdentifierRole

structure Lexeme where
  kind : TokenKind := .eof
  keyword : SoftKeyword := .ordinary
  start : Nat := 0
  stop : Nat := 0
deriving DecidableEq, Repr, Inhabited

structure Token extends Lexeme where
  /-- The number of scopes that were open when the token was read. -/
  scopeDepth : Nat := 0
  /-- Whether the token belongs to a type and is erased. -/
  isType : Bool := false
  role? : Option IdentifierRole := none
  /-- Whether a local binding hides the import or export of the same name here. -/
  shadowsGlobal : Bool := false
  /-- Shared by tokens that belong together, such as a class and its braces. -/
  contextId? : Option Nat := none
  /-- On an assignment: the index after the last token of its right-hand side. -/
  rhsEnd? : Option Nat := none
  /-- On `class`: whether the class is an expression. -/
  isExpression : Bool := false
  nullishStarts : Nat := 0
  nullishEnds : Nat := 0
  isChainStart : Bool := false
  isChainEnd : Bool := false
  /-- On a subscript: the index of the first token of the expression it belongs to. -/
  subscriptStart? : Option Nat := none
  /-- On `??`: the index of the first token of its left operand. -/
  nullishStart? : Option Nat := none
deriving DecidableEq, Repr, Inhabited

namespace Token

def text (t : Token) (s : Source) : String := s.slice t.start t.stop

def isSoft (t : Token) (keyword : SoftKeyword) : Bool := t.kind == .name && t.keyword == keyword

def hasRole (t : Token) (p : IdentifierRole → Bool) : Bool := t.role?.any p

end Token

/-- A closed range of scope: the tokens with indices from `start` up to but not including `stop`. -/
structure Scope where
  start : Nat
  stop : Nat
  isFunction : Bool
deriving DecidableEq, Repr

structure Dialect where
  jsx : Bool := false
  typescript : Bool := false
  flow : Bool := false
deriving DecidableEq, Repr

end PlainScript
