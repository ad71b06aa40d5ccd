/-!
# Pieces of the output

The output is a list of pieces. A piece knows what it stands for: the gap before a token, the token
itself, or nothing of the source.
-/

namespace PlainScript

inductive Piece where
  /-- White space and comments before the token at an index. -/
  | gap (index : Nat) (text : String)
  | token (index : Nat) (code : String)
  | added (code : String)
deriving DecidableEq, Repr

namespace Piece

def text : Piece → String
  | .gap _ text => text
  | .token _ code => code
  | .added code => code

def render (pieces : Array Piece) : String := pieces.foldl (fun code p => code ++ p.text) ""

end Piece

def lineBreaksOf (text : String) : String :=
  String.ofList (text.toList.filter fun c => c == '\r' || c == '\n')

/-- A text without the mark that turns the Flow checker on. -/
def withoutFlowMark : List Char → List Char
  | '@' :: 'f' :: 'l' :: 'o' :: 'w' :: rest => withoutFlowMark rest
  | c :: rest => c :: withoutFlowMark rest
  | [] => []

end PlainScript
