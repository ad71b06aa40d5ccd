import PlainScript.Proofs.ErasingModules
import PlainScript.Proofs.LineFeeds

/-!
# Tokens that keep their line feeds

Most of what the writer does not copy is on one line: the words and names that it replaces, and the
code it makes up. A token that reaches over several lines is a template, a text in an element or the
value of an attribute, and such a token keeps its line feeds unless it is left out, or replaced, for
the place where it stands. `LeftOut` lists these places, and `Setting.Unbroken` says of a file that no
line feed is lost in them.

The rest of the module gives reasons why a token or a code may be written in the place where it is:
classes that the passes below look up token by token.
-/

namespace PlainScript

/-- The names that a file uses of a module, its own and those of the module. -/
def ModuleUse.texts (u : ModuleUse) : List String :=
  u.boundNames ++ u.named.map (·.imported) ++ u.reexports.map (·.imported) ++
    u.reexports.map (·.localName) ++ u.starNames

/-- The names and paths that imports and exports speak of. -/
def ModuleUses.texts (u : ModuleUses) : List String :=
  u.paths.flatMap (fun path => path.1 :: path.2.texts) ++ u.exportedVariables ++
    u.exports.map (·.2)

namespace Emit

/-! ## Gaps -/

/-- How much of the gap before a token is written. -/
inductive GapForm where
  | whole
  | lineBreaks
deriving DecidableEq, Repr

/-- The gap before the token at an index, as it is written. -/
def Setting.gapAt (s : Setting) (i : Nat) : String :=
  let text := View.gap ⟨s.tape, i⟩
  if s.options.has .flow then String.ofList (withoutFlowMark text.toList) else text

/-- What is written of the gap before the token at an index. -/
def Setting.gapText (s : Setting) (form : GapForm) (i : Nat) : String :=
  match form with
  | .whole => s.gapAt i
  | .lineBreaks => lineBreaksOf (s.gapAt i)

theorem Setting.lineFeeds_gapText (s : Setting) (form : GapForm) (i : Nat) :
    lineFeeds (s.gapText form i) = lineFeeds (View.gap ⟨s.tape, i⟩) := by
  have hwhole : lineFeeds (s.gapAt i) = lineFeeds (View.gap ⟨s.tape, i⟩) := by
    unfold gapAt
    dsimp only
    split
    · rw [lineFeeds_ofList, count_withoutFlowMark, lineFeeds]
    · rfl
  cases form with
  | whole => exact hwhole
  | lineBreaks => exact (lineFeeds_lineBreaksOf _).trans hwhole

/-! ## Places -/

/-- Whether a statement of the form `import a = b` starts at an index. -/
def isReferenceAt (t : Tape) (w : Nat) : Bool :=
  t.has w [.importWord, .name, .equals] || t.has w [.importWord, .typeModifier, .name, .equals]

/-- A statement that imports from a path, or exports from one perhaps, starts at an index. -/
def StatementAt (t : Tape) (i : Nat) : Prop :=
  ImportAt t i ∧ isReferenceAt t i = false ∨
    (t.has i [.exportWord, .braceOpen] || t.has i [.exportWord, .star]) = true

/-- Tokens of imports and exports after their first one that are left out or replaced whatever their
kind. -/
inductive ModulePart (t : Tape) (i : Nat) : Prop
  /-- A statement has got as far as the token and has not named its path. -/
  | statement (w : Nat) (h : InStatement t w i) (hlt : w < i) (hw : isReferenceAt t w = false)
  /-- A statement has got as far as the token, with names only. -/
  | names (w : Nat) (h : InNames t w i) (hlt : w < i) (hw : isReferenceAt t w = false)
  | clause (b : Nat) (h : InClause t b i) (hlt : b < i)
  | path (h : t.hasSoft (i - 1) .fromName = true)
  | attributes (w : Nat) (h : AttributesAt t w) (hle : w ≤ i)
      (hnear : i ≤ w + 1 ∨ ∃ depth, InBraces t (w + 1) i depth)
  | reference (w j : Nat) (h : ReferenceAt t w j) (hlt : w < i)
      (hnear : i ≤ j ∨ (t.kind (j + 1) = .parenOpen ∧ i ≤ j + 3) ∨
        ∀ k, j < k → k ≤ i → t.kind k = .dot ∨ t.kind (k - 1) = .dot)
  | exportedReference (w : Nat)
      (h : t.has w [.exportWord, .importWord, .typeModifier, .name, .equals] = true) (hlt : w < i)
      (hnear : i ≤ w + 8)
  | exportType (w : Nat) (h : t.has w [.exportWord, .name] = true)
      (htype : t.hasSoft (w + 1) .typeName = true) (hlt : w < i)
      (hnear : i ≤ w + 2 ∨
        (t.kind (w + 2) = .braceOpen ∧ ∀ k, w + 2 < k → k < i → t.kind k ≠ .braceClose) ∨
        ((t.kind (w + 3) = .asModifier ∨ t.hasSoft (w + 3) .asName = true) ∧ i ≤ w + 4))
  | exportDefault (w : Nat) (h : t.has w [.exportWord, .defaultWord] = true) (hlt : w < i)
      (hnear : i ≤ w + 2)

/-- Whether an enumeration starts at an index. -/
def enumerationStarts (t : Tape) (w : Nat) : Bool :=
  t.has w [.enumWord] || t.has w [.constWord, .enumWord] || t.has w [.exportWord, .enumWord] ||
    t.has w [.exportWord, .constWord, .enumWord]

/-- The closing tag of an element has got as far as an index. -/
def InClosingTag (t : Tape) (i : Nat) : Prop :=
  ∃ w, t.has w [.jsxTagStart, .slash] = true ∧ w ≤ i ∧ ∀ k, w ≤ k → k < i → t.kind k ≠ .jsxTagEnd

/-- Tokens that are left out or replaced whatever their kind. -/
inductive LeftOut (s : Setting) (i : Nat) : Prop
  | type (h : (s.tape.get i).isType = true)
  /-- A part of a class that leaves no trace. -/
  | member (c : ClassOutline) (h : IsOutline s.tape c) (r : TokenRange) (hr : r ∈ c.removed)
      (hle : r.start ≤ i) (hlt : i < r.stop)
  /-- The words in front of an enumeration, and its name. -/
  | enumeration (w : Nat) (h : enumerationStarts s.tape w = true) (hlt : w < i)
      (hwords : ∀ k, w < k → k < i → s.tape.hasOneOf k [.constWord, .enumWord] = true)
  | tagName (h : s.tape.kind (i - 1) = .jsxTagStart)
  | closingTag (h : InClosingTag s.tape i)
  | modulePart (h : ModulePart s.tape i)
  /-- A name that a declaration binds. -/
  | declared (h : (s.tape.get i).hasRole IdentifierRole.isDeclaration = true)

/-- The value of an attribute that is a string. -/
def AttributeAt (t : Tape) (i : Nat) : Prop := ∃ j, i = j + 2 ∧ t.has j [.jsxName, .equals, .string] = true

/-- The kinds of tokens that can reach over several lines. -/
def longKinds : List TokenKind := [.template, .jsxText, .jsxEmptyText, .string]

/-- A file in which the tokens that reach over several lines are written as they stand, and what is
made up for others is on one line. -/
structure Setting.KeepsLines (s : Setting) : Prop where
  /-- Only templates, texts in elements and values of attributes reach over several lines. -/
  kinds {i : Nat} (h : lineFeeds (s.tape.text i) ≠ 0) :
    s.tape.hasOneOf i [.template, .jsxText, .jsxEmptyText] = true ∨ AttributeAt s.tape i
  /-- They are not left out. -/
  kept {i : Nat} (h : lineFeeds (s.tape.text i) ≠ 0) : ¬ LeftOut s i
  /-- The members of enumerations have names on one line. -/
  members (h : ∃ w, enumerationStarts s.tape w = true) {i : Nat} (hkind : s.tape.kind i = .string) :
    lineFeeds (s.tape.text i) = 0
  /-- The quotes around the value of an attribute are no line feeds. -/
  quotes {i : Nat} (h : s.tape.kind i = .equals) :
    lineFeeds (s.tape.stringValue (i + 1)) = lineFeeds (s.tape.text (i + 1))
  keys {i : Nat} (h : (s.tape.get i).role? = some .objectKey) : lineFeeds (s.tape.text i) = 0
  /-- The names and paths of imports and exports have no line feeds. -/
  modules (himports : s.options.has .imports = true) {uses : ModuleUses}
    (h : ModuleUses.ofTape s.tape = .ok uses) {text : String} (htext : text ∈ uses.texts) :
    lineFeeds text = 0
  filePath {path : String} (h : s.options.filePath? = some path) : lineFeeds path = 0

/-- A file whose lines are kept, with the names that the writer takes from elsewhere. -/
structure Setting.Unbroken (s : Setting) : Prop extends Setting.KeepsLines s where
  imports (path : String) : lineFeeds (s.plan.codeFor path) = 0
  replacement {name code : String} (h : s.plan.replacement? name = some code) : lineFeeds code = 0
  target {name code : String} (h : s.plan.exportTarget? name = some code) : lineFeeds code = 0
  support (f : SupportFunction) : lineFeeds (s.support.name f) = 0
  base : lineFeeds s.pragma.base = 0
  suffix : lineFeeds s.pragma.suffix = 0
  fragmentBase : lineFeeds s.pragma.fragmentBase = 0
  fragmentSuffix : lineFeeds s.pragma.fragmentSuffix = 0

/-- The import statement at an index is left out where modules stay modules: nothing is found in its
clause but types. -/
def EsModule.Drops (s : Setting) (i : Nat) : Prop :=
  ∃ (recur : Task → Step Unit) (σ τ : State), σ.index = i ∧
    EsModule.importClause ⟨s, recur⟩ σ = .ok (true, τ)

/-- The class at an index is assigned to a variable. -/
def Class.IsAssigned (s : Setting) (i : Nat) : Prop :=
  ∃ (names names' : Names) (c : ClassOutline),
    ClassOutline.read s.tape s.options.disableESTransforms names i = .ok (c, names') ∧
      ((c.isExpression || c.name?.isNone) &&
        (!c.staticInitializers.isEmpty || !c.instanceInitializers.isEmpty)) = true

/-- The writer does not write all of the gap before the first token, or writes something before it. -/
inductive FirstMoves (s : Setting) : Prop
  /-- An operator of recent syntax that cannot come first. -/
  | recent (hrecent : s.options.disableESTransforms = false)
      (h : s.tape.kind 0 = .nullish ∨ (s.tape.get 0).subscriptStart?.isSome = true)
  | mock (hjest : s.options.has .jest = true)
      (h : s.tape.has 0 [.name, .dot, .name, .parenOpen] = true) (htext : s.tape.text 0 = Mock.object)
  | importStatement (himports : s.options.has .imports = false)
      (h : s.tape.kind 0 = .importWord) (hdrops : EsModule.Drops s 0)
  | increment (himports : s.options.has .imports = true) (h : s.tape.kind 0 = .increment)
      (target : String) (htarget : s.plan.exportTarget? (s.tape.text 1) = some target)
  | classValue (h : s.tape.kind 0 = .classWord) (hassigned : Class.IsAssigned s 0)

/-! ## Reasons -/

/-- Code that has no line feed. -/
class OneLine (s : Setting) (code : String) : Prop where
  lineFeeds (hs : s.Unbroken) : lineFeeds code = 0

/-- A token that has no line feed. -/
class Flat (s : Setting) (i : Nat) : Prop where
  lineFeeds (hs : s.Unbroken) : lineFeeds (s.tape.text i) = 0

/-- Code that has as many line feeds as the token it is written for. -/
class SameLines (s : Setting) (i : Nat) (code : String) : Prop where
  lineFeeds (hs : s.Unbroken) : lineFeeds code = lineFeeds (s.tape.text i)

/-- An index behind the first token, unless something happens to that one. -/
class Later (s : Setting) (i : Nat) : Prop where
  later : 0 < i ∨ FirstMoves s

/-- A gap of which some may be left out. -/
class Trims (s : Setting) (i : Nat) (form : GapForm) : Prop where
  later (h : form = .lineBreaks) : Later s i

/-- The kinds of tokens that start import and export statements. -/
def statementWords : List TokenKind := [.importWord, .exportWord]

/-- Tokens that a rule handles without a task of their own. -/
inductive Inner (s : Setting) (i : Nat) : Prop
  | other (h : ¬ StatementAt s.tape i)
  | leftOut (h : LeftOut s i)
  | classPart (h : ClassPart s.tape i)
  /-- The value of an attribute. -/
  | attribute (hjsx : s.options.has .jsx = true) (h : s.tape.kind (i - 1) = .equals)

/-- The token that a task starts at, or one that it may take along. -/
class Within (s : Setting) (h i : Nat) : Prop where
  within : i = h ∨ Inner s i

/-- A token of which the kind or the place is known. -/
class Known (s : Setting) (i : Nat) : Prop where
  known : s.tape.hasOneOf i (statementWords ++ longKinds) = false ∨ LeftOut s i

section

variable {s : Setting} {h i : Nat}

instance oneLine_empty : OneLine s "" := ⟨fun _ => rfl⟩

instance (a b : String) [ha : OneLine s a] [hb : OneLine s b] : OneLine s (a ++ b) where
  lineFeeds hs := by rw [lineFeeds_append, ha.lineFeeds hs, hb.lineFeeds hs]

instance (c : Prop) [Decidable c] (a b : String) [OneLine s a] [OneLine s b] :
    OneLine s (if c then a else b) := by
  split <;> infer_instance

instance (name : { name : String // OneLine s name }) : OneLine s name.1 := name.2

instance (f : SupportFunction) : OneLine s (s.support.name f) :=
  ⟨fun hs => hs.support f⟩

instance (path : String) : OneLine s (s.plan.codeFor path) :=
  ⟨fun hs => hs.imports path⟩

theorem oneLine_replacement {name code : String} (hcode : s.plan.replacement? name = some code) :
    OneLine s code :=
  ⟨fun hs => hs.replacement hcode⟩

/-- The replacement of a name, or the name itself. -/
instance oneLine_resolved (name : String) [hname : OneLine s name] :
    OneLine s ((s.plan.replacement? name).getD name) := by
  cases hcode : s.plan.replacement? name with
  | none => exact hname
  | some code => exact oneLine_replacement hcode

theorem oneLine_text [hflat : Flat s i] : OneLine s (s.tape.text i) := ⟨hflat.lineFeeds⟩

instance : SameLines s i (s.tape.text i) := ⟨fun _ => rfl⟩

instance (code : String) [hi : Flat s i] [hcode : OneLine s code] : SameLines s i code where
  lineFeeds hs := (hcode.lineFeeds hs).trans (hi.lineFeeds hs).symm

theorem flat_of_leftOut (hleft : LeftOut s i) : Flat s i where
  lineFeeds hs := by
    by_contra hlong
    exact hs.kept hlong hleft

theorem flat_of_kinds (hkind : s.tape.hasOneOf i longKinds = false) : Flat s i where
  lineFeeds hs := by
    by_contra hlong
    have hkind : s.tape.kind i ∉ longKinds := fun hmem => by
      rw [Tape.hasOneOf, List.contains_iff_mem.2 hmem] at hkind
      cases hkind
    obtain hlist | ⟨j, rfl, hattribute⟩ := hs.kinds hlong
    · have hmem := List.contains_iff_mem.1 hlist
      revert hmem
      simp only [longKinds, List.mem_cons, List.not_mem_nil, or_false, not_or] at hkind ⊢
      tauto
    · have hstring := (kind_of_isAt (kind_of_isAt (kind_of_isAt hattribute).2).2).1
      exact hkind (by simp [longKinds, hstring])

theorem hasOneOf_of_kind_eq {t : Tape} {kind : TokenKind} {kinds : List TokenKind}
    (hkind : t.kind i = kind) (hkinds : kinds.contains kind = false) : t.hasOneOf i kinds = false := by
  rw [Tape.hasOneOf, hkind]
  exact hkinds

theorem flat_of_kind {kind : TokenKind} (hkind : s.tape.kind i = kind)
    (hkinds : longKinds.contains kind = false) : Flat s i :=
  flat_of_kinds (hasOneOf_of_kind_eq hkind hkinds)

/-- Nothing is written for the end of the text. -/
theorem kind_of_size_le (hle : s.tape.size ≤ i) : s.tape.kind i = .eof := by
  rw [Tape.kind, Tape.get_of_size_le hle]
  rfl

theorem known_of_kind {kind : TokenKind} (hkind : s.tape.kind i = kind)
    (hkinds : (statementWords ++ longKinds).contains kind = false) : Known s i :=
  ⟨.inl (hasOneOf_of_kind_eq hkind hkinds)⟩

theorem known_of_leftOut (hleft : LeftOut s i) : Known s i := ⟨.inr hleft⟩

theorem known_of_modulePart (hpart : ModulePart s.tape i) : Known s i :=
  known_of_leftOut (.modulePart hpart)

theorem inner_of_kind (hkind : s.tape.hasOneOf i statementWords = false) : Inner s i := by
  refine .other fun hstatement => ?_
  have hword : s.tape.kind i = .importWord ∨ s.tape.kind i = .exportWord := by
    obtain hstart | hstart := hstatement
    · exact .inl hstart.1.1
    · obtain hat | hat := Bool.or_eq_true_iff.1 hstart
      all_goals exact .inr (kind_of_isAt hat).1
  obtain hword | hword := hword
  all_goals
    rw [Tape.hasOneOf, hword] at hkind
    cases hkind

theorem hasOneOf_append {t : Tape} {a b : List TokenKind} :
    t.hasOneOf i (a ++ b) = (t.hasOneOf i a || t.hasOneOf i b) := by
  simp [Tape.hasOneOf]

instance [hknown : Known s i] : Flat s i := by
  obtain hkind | hleft := hknown.known
  · rw [hasOneOf_append, Bool.or_eq_false_iff] at hkind
    exact flat_of_kinds hkind.2
  · exact flat_of_leftOut hleft

instance within_self : Within s i i := ⟨.inl rfl⟩

instance [hknown : Known s i] : Within s h i := by
  refine ⟨.inr ?_⟩
  obtain hkind | hleft := hknown.known
  · rw [hasOneOf_append, Bool.or_eq_false_iff] at hkind
    exact inner_of_kind hkind.1
  · exact .leftOut hleft

theorem within_of_kind {kind : TokenKind} (hkind : s.tape.kind i = kind)
    (hkinds : statementWords.contains kind = false) : Within s h i :=
  ⟨.inr (inner_of_kind (hasOneOf_of_kind_eq hkind hkinds))⟩

theorem within_of_classPart (hpart : ClassPart s.tape i) : Within s h i := ⟨.inr (.classPart hpart)⟩

instance : Later s (i + 1) := ⟨.inl (Nat.succ_pos i)⟩

instance (k : Nat) [hi : Later s i] : Later s (i + k) where
  later := hi.later.imp_left fun hlt => Nat.add_pos_left hlt k

theorem later_of_lt {j : Nat} (hlt : j < i) : Later s i := ⟨.inl (Nat.zero_lt_of_lt hlt)⟩

/-- Where something happens to the first token, every index will do. -/
theorem later_of_first (hfirst : i = 0 → FirstMoves s) : Later s i := by
  refine ⟨?_⟩
  obtain rfl | hlt := Nat.eq_zero_or_pos i
  · exact .inr (hfirst rfl)
  · exact .inl hlt

instance : Trims s i .whole := ⟨nofun⟩

instance [hi : Later s i] : Trims s i .lineBreaks := ⟨fun _ => hi⟩

end

end Emit

end PlainScript
