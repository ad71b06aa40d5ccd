import PlainScript.Proofs.Exports

/-!
# Tokens of types that other rules come upon

The rule for types removes a token that the parser has marked, and all marked tokens after it. It is
not asked first, though, and some rules go over tokens that they find by their kinds. `WrittenPart`
and `DroppedPart` list, rule by rule, the places where a rule writes or removes a token whatever its
mark. A marked token is overlooked only where a rule writes it and the marked tokens right before it
have been passed by other rules too: the rule for types would have taken it with them.
-/

namespace PlainScript.Emit

/-! ## Recent syntax and classes -/

/-- Tokens of recent syntax that are replaced. -/
inductive RecentPart (t : Tape) (i : Nat) : Prop
  /-- A number with separators. -/
  | separator (hkind : t.hasOneOf i [.number, .bigint] = true)
      (h : (t.text i).toList.contains '_' = true)
  | nullish (h : t.kind i = .nullish)
  /-- A subscript in an optional chain. -/
  | subscript (start : Nat) (h : (t.get i).subscriptStart? = some start)
      (hchain : (t.get start).isChainStart = true)
  | catchWord (h : t.has i [.catchWord, .braceOpen] = true)

/-- Tokens of a class. -/
inductive ClassPart (t : Tape) (i : Nat) : Prop
  | word (h : t.kind i = .classWord)
  /-- A brace of the body, which has a context number. -/
  | brace (hkind : t.hasOneOf i [.braceOpen, .braceClose] = true)
      (h : (t.get i).contextId?.isSome = true)
  | field (c : ClassOutline) (h : IsOutline t c) (f : Field) (hf : f ∈ c.fields)
      (hstart : f.range.start = i)
  /-- The place in a constructor where initial values are set. -/
  | constructorStart (c : ClassOutline) (h : IsOutline t c) (hinsert : c.insertAt? = some i)

/-! ## Enumerations -/

/-- A token that the writer handles by itself, whatever it does with it. -/
def Alone (t : Tape) (i : Nat) : Prop :=
  (t.get i).isType = false ∧
    t.hasOneOf i [.classWord, .importWord, .exportWord, .constWord, .enumWord] = false ∧
    t.hasOneOf (i + 1) [.colon, .less, .parenOpen, .postIncrement] = false

/-- An enumeration that is no part of a type starts at an index. -/
def EnumerationAt (t : Tape) (w : Nat) : Prop :=
  (t.get w).isType = false ∧ ((t.has w [.enumWord] || t.has w [.constWord, .enumWord] ||
    t.has w [.exportWord, .enumWord] || t.has w [.exportWord, .constWord, .enumWord]) = true)

/-- The words in front of the name of an enumeration have got as far as an index. -/
def EnumerationHead (t : Tape) (w i : Nat) : Prop :=
  EnumerationAt t w ∧ w < i ∧ ∀ k, w < k → k < i → t.hasOneOf k [.constWord, .enumWord] = true

/-- A member of an enumeration ends at an index, where a comma can follow. -/
inductive MemberEnd (t : Tape) (j : Nat) : Nat → Prop
  | counted (h : t.kind (j + 1) ≠ .equals) : MemberEnd t j (j + 1)
  | string (h : t.has (j + 1) [.equals, .string] = true) : MemberEnd t j (j + 3)
  /-- The value ends where the parser says, unless tokens are handled together. -/
  | value (stop i : Nat) (h : t.kind (j + 1) = .equals) (hstop : (t.get (j + 1)).rhsEnd? = some stop)
      (hle : max (j + 2) stop ≤ i)
      (halone : (∀ k, j + 2 ≤ k → k < stop → Alone t k) → i = max (j + 2) stop) : MemberEnd t j i

/-- A member of an enumeration or its closing brace comes at an index. -/
inductive MemberAt (t : Tape) : Nat → Prop
  | first (w n : Nat) (h : EnumerationHead t w n) (hbrace : t.kind (n + 1) = .braceOpen) :
      MemberAt t (n + 2)
  | afterComma {j i : Nat} (h : MemberAt t j) (hkind : t.hasOneOf j [.name, .string] = true)
      (hend : MemberEnd t j i) (hcomma : t.kind i = .comma) : MemberAt t (i + 1)
  | withoutComma {j i : Nat} (h : MemberAt t j) (hkind : t.hasOneOf j [.name, .string] = true)
      (hend : MemberEnd t j i) (hcomma : t.kind i ≠ .comma) : MemberAt t i

/-- Tokens of an enumeration that are copied. -/
inductive EnumerationPart (t : Tape) (i : Nat) : Prop
  | braceOpen (w n : Nat) (h : EnumerationHead t w n) (hi : i = n + 1) (hkind : t.kind i = .braceOpen)
  | braceClose (h : MemberAt t i) (hkind : t.kind i = .braceClose)
  | equals (j : Nat) (h : MemberAt t j) (hi : i = j + 1) (hkind : t.kind i = .equals)
  | string (j : Nat) (h : MemberAt t j) (hi : i = j + 2)
      (hkinds : t.has (j + 1) [.equals, .string] = true)

/-- Tokens of an enumeration that are removed. -/
inductive EnumerationRest (t : Tape) (i : Nat) : Prop
  | head (w : Nat) (h : EnumerationHead t w i)
  | key (h : MemberAt t i)
  | comma (j : Nat) (h : MemberAt t j) (hend : MemberEnd t j i) (hkind : t.kind i = .comma)

/-! ## Modules -/

/-- An export statement that is no part of a type starts at an index. -/
def ExportAt (t : Tape) (w : Nat) : Prop := t.kind w = .exportWord ∧ (t.get w).isType = false

/-- An import statement starts at an index. -/
def ImportAt (t : Tape) (w : Nat) : Prop := t.kind w = .importWord ∧ t.kind (w + 1) ≠ .parenOpen

/-- Between two indices there are no strings but those that name a specifier. -/
def BeforePath (t : Tape) (w i : Nat) : Prop :=
  ∀ k, w < k → k < i → t.kind k = .string → t.hasOneOf (k - 1) [.braceOpen, .comma] = true

/-- A statement that names the path of a module has got as far as an index. -/
def InStatement (t : Tape) (w i : Nat) : Prop :=
  (ImportAt t w ∨ t.has w [.exportWord, .star] = true) ∧ w ≤ i ∧ BeforePath t w i

/-- An import statement has got as far as an index, past names and a star at most. -/
def InNames (t : Tape) (w i : Nat) : Prop :=
  ImportAt t w ∧ w ≤ i ∧ ∀ k, w < k → k < i →
    t.hasOneOf k [.name, .comma, .star] = true ∨ t.kind (k - 1) = .star

/-- The opening brace of an import or export clause. -/
def ClauseAt (t : Tape) (b : Nat) : Prop :=
  t.kind b = .braceOpen ∧ ∃ w, InNames t w b ∨ t.kind w = .exportWord ∧ b = w + 1

/-- A clause that starts at an index has got as far as another one. -/
def InClause (t : Tape) (b i : Nat) : Prop :=
  ClauseAt t b ∧ b ≤ i ∧ ∀ k, b < k → k < i → t.kind k ≠ .braceClose

/-- Tokens of imports and exports that are written where modules stay modules. -/
inductive EsModulePart (t : Tape) (i : Nat) : Prop
  | exportWord (h : (t.has i [.exportWord, .equals] || t.has i [.exportWord, .braceOpen]) = true)
  /-- The tokens of `import a = b` up to the first one of what it refers to. -/
  | reference (w : Nat) (h : t.has w [.importWord, .name, .equals] = true) (hle : w ≤ i)
      (hnear : i ≤ w + 3)
  /-- The tokens of an import statement in front of its path or its braces. -/
  | statement (w : Nat) (h : InNames t w i)
  | brace (b : Nat) (h : InClause t b i) (hkind : t.hasOneOf i [.braceOpen, .braceClose] = true)
  /-- The tokens of a specifier that is not one of a type, with the comma after it. -/
  | specifier (b j : Nat) (h : InClause t b j) (hlt : b < j)
      (hstart : t.hasOneOf (j - 1) [.braceOpen, .comma] = true) (x : Specifier)
      (hx : Specifier.read t j = .ok x) (hvalue : x.isType = false) (hle : j ≤ i) (hstop : i ≤ x.stop)

/-- The kinds of tokens that enclose parameters, arguments and bodies. -/
def enclosing : List TokenKind := [.parenOpen, .parenClose, .braceOpen, .braceClose]

/-- The kinds of tokens that enclose patterns. -/
def patternBrackets : List TokenKind :=
  [.braceOpen, .braceClose, .bracketOpen, .bracketClose, .dollarBrace]

/-- Whether a form of assignment is under the cursor. -/
def CommonJs.Assigns.isAt (form : CommonJs.Assigns) (t : Tape) (i : Nat) : Bool :=
  match form with
  | plain => t.kind i == .equals
  | compound => t.kind i == .compoundAssign
  | increment => t.kind i == .increment
  | postIncrement => t.has i [.name, .postIncrement]

/-- Tokens that are written where modules become CommonJS. -/
inductive CommonJsPart (s : Setting) (i : Nat) : Prop
  | importWord (h : s.tape.kind i = .importWord)
  /-- The parentheses of a call `import()`, which have the same context number. -/
  | importParen (w : Nat) (hlt : w < i) (h : s.tape.has w [.importWord, .parenOpen] = true)
      (hkind : s.tape.hasOneOf i [.parenOpen, .parenClose] = true)
      (hcontext : (s.tape.get i).contextId? = (s.tape.get (w + 1)).contextId?)
      (hsome : (s.tape.get i).contextId?.isSome = true)
  | path (w : Nat) (h : InStatement s.tape w i) (hkind : s.tape.kind i = .string)
  /-- A name that is replaced. -/
  | reference (code : String) (h : s.replacementAt? i = some code)
  /-- The end of the call of such a name. -/
  | callClose (w : Nat) (hlt : w < i) (code : String) (h : s.replacementAt? w = some code)
      (hopen : s.tape.kind (w + 1) = .parenOpen) (hkind : s.tape.kind i = .parenClose)
  | assigned (form : CommonJs.Assigns) (h : form.isAt s.tape i = true) (target : String)
      (hmirrors : CommonJs.Mirrors s (form.assigned s.tape i) target)
  /-- A name that an exported variable statement declares. -/
  | declared (h : (s.tape.get i).hasRole IdentifierRole.isDeclaration = true) (code : String)
      (hcode : s.plan.replacement? (s.tape.text i) = some code)
  /-- The words `export =`. -/
  | exportEquals (h : s.tape.has i [.exportWord, .equals] = true)
  | afterExport (w : Nat) (h : ExportAt s.tape w) (hi : i = w + 1)
  /-- The words in front of the parameters of an exported function. -/
  | functionHead (w j : Nat) (h : ExportAt s.tape w) (hlt : w < j) (hnear : j ≤ w + 2)
      (hfunction : CommonJs.FunctionAt s.tape j) (hle : j ≤ i) (hhead : i ≤ j + 3)
      (hkind : i = j ∨ s.tape.hasOneOf i [.functionWord, .star, .name] = true)
  | enclosed (w : Nat) (h : ExportAt s.tape w) (hlt : w < i)
      (hkind : s.tape.hasOneOf i enclosing = true)
  /-- A bracket in the pattern of an exported variable statement. -/
  | pattern (w : Nat) (h : ExportAt s.tape w) (hlt : w < i)
      (hword : s.tape.hasOneOf (w + 1) [.varWord, .letWord, .constWord] = true)
      (hkind : s.tape.hasOneOf i patternBrackets = true)
  | reexportPath (w : Nat) (h : ExportAt s.tape w) (hlt : w < i)
      (hfrom : s.tape.hasSoft (i - 1) .fromName = true)
  /-- The name of a decorator, with the dots in it. -/
  | decorator (w : Nat) (h : s.tape.kind w = .atSign) (hle : w ≤ i)
      (hname : ∀ k, w < k → k ≤ i → s.tape.hasOneOf k [.name, .dot] = true)

/-- The attributes of an import start at an index. -/
def AttributesAt (t : Tape) (w : Nat) : Prop :=
  (t.has w [.withWord, .braceOpen] || (t.has w [.name, .braceOpen] && t.hasSoft w .assertName)) = true

/-- After the brace at an index, another index comes with a number of further braces open. -/
inductive InBraces (t : Tape) (b : Nat) : Nat → Nat → Prop
  | start : InBraces t b (b + 1) 0
  | opens {i depth : Nat} (h : InBraces t b i depth) (hkind : t.kind i = .braceOpen) :
      InBraces t b (i + 1) (depth + 1)
  | closes {i depth : Nat} (h : InBraces t b i (depth + 1)) (hkind : t.kind i = .braceClose) :
      InBraces t b (i + 1) depth
  | other {i depth : Nat} (h : InBraces t b i depth) (hopen : t.kind i ≠ .braceOpen)
      (hclose : t.kind i ≠ .braceClose) : InBraces t b (i + 1) depth

/-- A statement `import a = b` starts at an index, and what it refers to starts at another one. -/
def ReferenceAt (t : Tape) (w j : Nat) : Prop :=
  j = w + 3 ∧ t.has w [.importWord, .name, .equals] = true ∨
    j = w + 4 ∧ t.has w [.importWord, .typeModifier, .name, .equals] = true

/-- Tokens of imports and exports that are removed. -/
inductive StatementRest (t : Tape) (i : Nat) : Prop
  | statement (w : Nat) (h : InStatement t w i)
  | clause (b : Nat) (h : InClause t b i)
  | fromWord (h : t.hasSoft i .fromName = true)
      (hnear : t.kind (i - 1) = .braceClose ∨ t.kind (i + 1) = .string)
  | fromPath (h : t.hasSoft (i - 1) .fromName = true) (hkind : t.kind i = .string)
  | attributes (w : Nat) (h : AttributesAt t w) (hle : w ≤ i)
      (hnear : i ≤ w + 1 ∨ ∃ depth, InBraces t (w + 1) i depth)
  | semicolon (h : t.kind i = .semicolon)
  | reference (w j : Nat) (h : ReferenceAt t w j) (hle : w ≤ i)
      (hnear : i ≤ j + 3 ∨ ∀ k, j < k → k ≤ i → t.kind k = .dot ∨ t.kind (k - 1) = .dot)
  | exportedReference (w : Nat)
      (h : t.has w [.exportWord, .importWord, .typeModifier, .name, .equals] = true) (hle : w ≤ i)
      (hnear : i ≤ w + 8)
  | exportType (w : Nat) (h : t.has w [.exportWord, .name] = true)
      (htype : t.hasSoft (w + 1) .typeName = true) (hle : w ≤ i)
      (hnear : i ≤ w + 4 ∨ t.kind (w + 2) = .braceOpen ∧ ∀ k, w + 2 < k → k < i → t.kind k ≠ .braceClose)
  | exportDefault (w : Nat) (h : t.has w [.exportWord, .defaultWord] = true) (hle : w ≤ i)
      (hnear : i ≤ w + 2)
  | abstractWord (h : t.kind i = .abstractModifier)

/-! ## All rules -/

/-- A rule writes the token at an index whatever its mark. -/
inductive WrittenPart (s : Setting) (i : Nat) : Prop
  | recent (hrecent : s.options.disableESTransforms = false) (h : RecentPart s.tape i)
  | commonJs (himports : s.options.has .imports = true) (h : CommonJsPart s i)
  | esModule (himports : s.options.has .imports = false) (h : EsModulePart s.tape i)
  /-- The word `async` of an arrow function with type parameters. -/
  | asyncArrow (h : s.tape.hasAsync i = true) (hless : s.tape.kind (i + 1) = .less)
  | classPart (h : ClassPart s.tape i)
  | enumeration (h : EnumerationPart s.tape i)

/-- A rule other than the one for types removes the token at an index whatever its mark. -/
inductive DroppedPart (s : Setting) (i : Nat) : Prop
  /-- The word `delete` before an optional chain. -/
  | deleteWord (h : s.tape.kind i = .deleteWord)
  /-- The parenthesis that opens the call of a name that is replaced. -/
  | callOpen (code : String) (h : s.replacementAt? (i - 1) = some code)
      (hkind : s.tape.kind i = .parenOpen)
  | increment (h : s.tape.has (i - 1) [.name, .postIncrement] = true)
  | member (c : ClassOutline) (h : IsOutline s.tape c) (r : TokenRange) (hr : r ∈ c.removed)
      (hle : r.start ≤ i) (hlt : i < r.stop)
  | enumeration (h : EnumerationRest s.tape i)
  | statement (h : StatementRest s.tape i)

/-- A rule other than the one for types goes over the token at an index. -/
def Passed (s : Setting) (i : Nat) : Prop := WrittenPart s i ∨ DroppedPart s i

/-- Other rules than the one for types have gone over the marked tokens right before an index. -/
def Reached (s : Setting) (i : Nat) : Prop :=
  ∀ k, k < i → (∀ j, k ≤ j → j < i → (s.tape.get j).isType = true) → Passed s k

/-- A marked token at an index can be written. -/
def Overlooked (s : Setting) (i : Nat) : Prop := WrittenPart s i ∧ Reached s i

/-- The cursor can be at an index. -/
def Open (s : Setting) (i : Nat) : Prop := (s.tape.get i).isType = true → Reached s i

variable {s : Setting} {i : Nat}

theorem Open.zero : Open s 0 := fun _ k hk => absurd hk (Nat.not_lt_zero k)

theorem Open.of_unmarked (h : (s.tape.get i).isType = false) : Open s i :=
  fun hmark => absurd hmark (by simp [h])

/-- The cursor can move on from a token that has no mark or that another rule passes. -/
theorem Open.succ (h : Open s i) (hpassed : (s.tape.get i).isType = true → Passed s i) :
    Open s (i + 1) := by
  intro _ k hk hmarks
  have hmark := hmarks i (Nat.le_of_lt_succ hk) (Nat.lt_succ_self i)
  obtain hlt | rfl := Nat.lt_succ_iff_lt_or_eq.1 hk
  · exact h hmark k hlt fun j hj hlt => hmarks j hj (Nat.lt_succ_of_lt hlt)
  · exact hpassed hmark

end PlainScript.Emit
