/-!
# Glob patterns

A pattern is a list of tokens that a whole path has to match. `?` stands for any byte and `*` for
any bytes, a slash included; `**` between slashes stands for any number of directories, and for none;
brackets hold a class and braces hold alternatives. A backslash takes the next character as it is.

Matching works on bytes: a class that holds a character beyond ASCII holds its bytes.
-/

namespace PlainScript

inductive GlobToken where
  | literal (c : Char)
  | anyByte
  | anyBytes
  /-- `**` before a slash at the start: any directories, or none. -/
  | leadingDirectories
  /-- `**` after a slash at the end: everything below. -/
  | everythingBelow
  /-- `**` between slashes: any directories, or none. -/
  | innerDirectories
  | charClass (isNegated : Bool) (ranges : List (Char × Char))
  | alternates (branches : List (List GlobToken))

namespace Glob

/-! ## Reading -/

/-- What has been read of a pattern. -/
structure Partial where
  /-- For each open brace the tokens before it, the last one first, and the branches that are
  complete. -/
  outer : List (List GlobToken × List (List GlobToken)) := []
  current : List GlobToken := []

namespace Partial

def push (p : Partial) (token : GlobToken) : Partial := { p with current := token :: p.current }

def openBrace (p : Partial) : Partial := { outer := (p.current, []) :: p.outer }

def closeBrace? (p : Partial) : Option Partial :=
  match p.outer with
  | [] => none
  | (before, branches) :: outer =>
    some { outer, current := .alternates (branches ++ [p.current.reverse]) :: before }

/-- Reads a comma: it starts the next branch, unless no brace is open. -/
def comma (p : Partial) : Partial :=
  match p.outer with
  | [] => p.push (.literal ',')
  | (before, branches) :: outer =>
    { outer := (before, branches ++ [p.current.reverse]) :: outer }

def twoStars (p : Partial) : Partial := (p.push .anyBytes).push .anyBytes

/-- Puts a token for directories in the place of the slash before it. Such a token takes up
another one before it. -/
def foldDirectories (p : Partial) (token : GlobToken) : Partial :=
  match p.current with
  | .leadingDirectories :: _ | .everythingBelow :: _ => p
  | tokens => { p with current := token :: tokens.tail }

/-- Reads two stars after the character `previous?`. Gives the characters that are left and the last
one read. -/
def doubleStar (p : Partial) (previous? : Option Char) (rest : List Char) :
    Partial × Char × List Char :=
  if p.current.isEmpty then
    match rest with
    | [] => (p.push .leadingDirectories, '*', [])
    | '/' :: rest => (p.push .leadingDirectories, '/', rest)
    | rest => (p.twoStars, '*', rest)
  else if previous? != some '/' &&
      (p.outer.isEmpty || (previous? != some ',' && previous? != some '{')) then
    (p.twoStars, '*', rest)
  else
    match rest with
    | [] => (p.foldDirectories .everythingBelow, '*', [])
    | '/' :: rest => (p.foldDirectories .innerDirectories, '/', rest)
    | c :: _ =>
      if (c = ',' ∨ c = '}') ∧ p.outer ≠ [] then (p.foldDirectories .everythingBelow, '*', rest)
      else (p.twoStars, '*', rest)

end Partial

def extendRange (ranges : List (Char × Char)) (c : Char) : Option (List (Char × Char)) :=
  match ranges with
  | [] => none
  | (low, _) :: rest => if c < low then none else some ((low, c) :: rest)

/-- Reads a class up to its closing bracket. The ranges are collected with the last one first;
`inRange` says that a dash has been read after one. -/
def readClass (isFirst inRange : Bool) (ranges : List (Char × Char)) :
    List Char → Option (List (Char × Char) × List Char)
  | [] => none
  | c :: rest =>
    if c = ']' ∧ isFirst = false then
      some ((if inRange then ('-', '-') :: ranges else ranges).reverse, rest)
    else if c = '-' ∧ isFirst = false ∧ inRange = false then readClass false true ranges rest
    else if inRange then
      match extendRange ranges c with
      | none => none
      | some ranges => readClass false false ranges rest
    else readClass false false ((c, c) :: ranges) rest

/-- Reads a class after its opening bracket. -/
def readClassToken : List Char → Option (GlobToken × List Char)
  | '!' :: rest | '^' :: rest =>
    (readClass true false [] rest).map fun (ranges, rest) => (.charClass true ranges, rest)
  | rest => (readClass true false [] rest).map fun (ranges, rest) => (.charClass false ranges, rest)

/-- Reads a pattern in at most `n` steps, after the character `previous?`. -/
def readFor : Nat → Partial → Option Char → List Char → Option (List GlobToken)
  | _, p, _, [] => if p.outer.isEmpty then some p.current.reverse else none
  | 0, _, _, _ :: _ => none
  | n + 1, p, previous?, c :: rest =>
    match c, rest with
    | '?', _ => readFor n (p.push .anyByte) (some c) rest
    | '*', '*' :: rest =>
      let (p, last, rest) := p.doubleStar previous? rest
      readFor n p (some last) rest
    | '*', _ => readFor n (p.push .anyBytes) (some c) rest
    | '[', _ =>
      match readClassToken rest with
      | none => none
      | some (token, rest) => readFor n (p.push token) (some ']') rest
    | '{', _ => readFor n p.openBrace (some c) rest
    | '}', _ =>
      match p.closeBrace? with
      | none => none
      | some p => readFor n p (some c) rest
    | ',', _ => readFor n p.comma (some c) rest
    | '\\', [] => none
    | '\\', d :: rest => readFor n (p.push (.literal d)) (some d) rest
    | _, _ => readFor n (p.push (.literal c)) (some c) rest

/-! ## Matching -/

/-- The rest of a list after a given start. -/
def dropStart? : List UInt8 → List UInt8 → Option (List UInt8)
  | [], bs => some bs
  | _ :: _, [] => none
  | a :: start, b :: bs => if a = b then dropStart? start bs else none

def slash : UInt8 := 47

/-- The rests of a list after each of its slashes. -/
def afterSlashes : List UInt8 → List (List UInt8)
  | [] => []
  | b :: bs => if b = slash then bs :: afterSlashes bs else afterSlashes bs

def allRests : List UInt8 → List (List UInt8)
  | [] => [[]]
  | b :: bs => (b :: bs) :: allRests bs

def bytesOf (c : Char) : List UInt8 := (String.singleton c).toUTF8.toList

def byteRanges (low high : Char) : List (UInt8 × UInt8) :=
  if low = high then (bytesOf low).map fun b => (b, b)
  else
    let lows := bytesOf low
    let highs := bytesOf high
    lows.dropLast.map (fun b => (b, b)) ++ [(lows.getLastD 0, highs.headD 0)] ++
      highs.tail.map fun b => (b, b)

def classContains (isNegated : Bool) (ranges : List (Char × Char)) (b : UInt8) : Bool :=
  isNegated != (ranges.flatMap fun (low, high) => byteRanges low high).any fun (low, high) =>
    low ≤ b && b ≤ high

def oneByte (p : UInt8 → Bool) : List UInt8 → List (List UInt8)
  | [] => []
  | b :: bs => if p b then [bs] else []

/-- A list of rests without repetitions. Rests of one list are told apart by their length. -/
def distinct (rests : List (List UInt8)) : List (List UInt8) :=
  rests.foldl (fun seen r => if seen.any (·.length == r.length) then seen else r :: seen) []

mutual

/-- Whether a token stands for nothing at all: alternatives none of which has content. -/
def isVacuous : GlobToken → Bool
  | .alternates branches => areVacuous branches
  | _ => false

/-- Whether all branches stand for nothing. -/
def areVacuous : List (List GlobToken) → Bool
  | [] => true
  | branch :: rest => isVacuousBranch branch && areVacuous rest

def isVacuousBranch : List GlobToken → Bool
  | [] => true
  | token :: rest => isVacuous token && isVacuousBranch rest

end

mutual

def rests : GlobToken → List UInt8 → List (List UInt8)
  | .literal c, bs => (dropStart? (bytesOf c) bs).toList
  | .anyByte, bs => oneByte (fun _ => true) bs
  | .anyBytes, bs => allRests bs
  | .leadingDirectories, bs => bs :: (dropStart? [slash] bs).toList ++ afterSlashes bs
  | .everythingBelow, bs => ((dropStart? [slash] bs).map allRests).getD []
  | .innerDirectories, bs =>
    ((dropStart? [slash] bs).map fun bs => bs :: afterSlashes bs).getD []
  | .charClass isNegated ranges, bs => oneByte (classContains isNegated ranges) bs
  | .alternates branches, bs => if areVacuous branches then [bs] else restsOfBranches branches bs

def restsOfBranches : List (List GlobToken) → List UInt8 → List (List UInt8)
  | [], _ => []
  | branch :: others, bs =>
    (if isVacuousBranch branch then [] else restsOfAll branch [bs]) ++ restsOfBranches others bs

/-- The rests that tokens one after the other can leave of some lists. -/
def restsOfAll : List GlobToken → List (List UInt8) → List (List UInt8)
  | [], lists => lists
  | token :: others, lists => restsOfAll others (distinct (lists.flatMap (rests token)))

end

end Glob

structure Glob where
  tokens : List GlobToken

namespace Glob

def ofText? (text : String) : Option Glob :=
  (readFor text.length {} none text.toList).map Glob.mk

def isMatch (g : Glob) (path : String) : Bool :=
  match g.tokens with
  | [.leadingDirectories] => true
  | tokens => (restsOfAll tokens [path.toUTF8.toList]).any List.isEmpty

end Glob

end PlainScript
