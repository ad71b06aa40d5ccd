import PlainScript.Proofs.Writing

/-!
# What the passes write

Every pass of the writer keeps the output justified, if modules become CommonJS. Most passes remove
tokens, write code with a mark in it, or copy tokens that are no names; for these there is nothing
to show but the traversal. The others are the ones that give the reasons of `Stays`. A token that all
passes leave alone is one that nothing replaces, since the rule for references is among them.
-/

namespace PlainScript.Emit

-- Counted in combinators.
set_option synthInstance.maxSize 100000

/-- A file whose modules become CommonJS: what replaces a name and what stands for an import are no
names themselves. -/
class IsCommonJs (s : Setting) : Prop where
  imports : s.options.has .imports = true
  replacement {name code : String} (h : s.plan.replacement? name = some code) : HasMark code
  codeFor (path : String) : NoName (s.plan.codeFor path)

variable {s : Setting} {i : Nat}

/-! ## Copying -/

instance : Keeps s i (copyExpected .braceOpen) := keeps_copyExpected (by decide)

instance : Keeps s i (copyExpected .braceClose) := keeps_copyExpected (by decide)

instance : Keeps s i (copyExpected .parenOpen) := keeps_copyExpected (by decide)

instance : Keeps s i (copyExpected .parenClose) := keeps_copyExpected (by decide)

instance : Keeps s i (copyExpected .classWord) := keeps_copyExpected (by decide)

/-! ## Statements and clauses of types -/

instance : Keeps s i specifier := by
  unfold specifier
  refine .look ?_
  split <;> infer_instance

instance : Keeps s i isTypeDefaultExport := by
  unfold isTypeDefaultExport
  refine .andThen fun drops j => ?_
  split
  · infer_instance
  · refine .look ?_
    split <;> infer_instance

/-! ## Types -/

instance : HasMark ") =>" := ⟨by decide⟩

instance : HasMark "async (" := ⟨by decide⟩

/-! ## Classes -/

namespace Class

/-- What is still to come is of the class. -/
def Pending.From (c : ClassOutline) (p : Pending) : Prop :=
  (∀ f ∈ p.fields, f ∈ c.fields) ∧ ∀ r ∈ p.removed, r ∈ c.removed

theorem keeps_bodyPart (c : ClassOutline) [hc : IsOutline s.tape c] (className : String) {p : Pending}
    (hp : p.From c) : Keeps s i (bodyPart c className p) := by
  unfold bodyPart
  refine .look ?_
  dsimp only
  split
  next _ _ f hfield =>
    obtain ⟨hhead, hstart⟩ := Option.filter_eq_some_iff.1 hfield
    have hmem : f ∈ c.fields := hp.1 f (List.mem_of_mem_head? hhead)
    have : MayStay s i := ⟨fun _ => .field c hc f hmem (by simpa using hstart)⟩
    infer_instance
  next => infer_instance
  next =>
    split
    next hinsert =>
      have : MayStay s i := ⟨fun _ => .constructorStart c hc (by simpa using hinsert)⟩
      infer_instance
    next => infer_instance

theorem gives_bodyPart {c : ClassOutline} (className : String) {p : Pending} (hp : p.From c) :
    Gives s (Pending.From c) (bodyPart c className p) := by
  unfold bodyPart
  refine .bind fun v => ?_
  dsimp only
  split
  · exact .bind fun _ => .pure ⟨fun f hf => hp.1 f (List.mem_of_mem_tail hf), hp.2⟩
  · exact .bind fun _ => .pure ⟨hp.1, fun r hr => hp.2 r (List.mem_of_mem_tail hr)⟩
  · split
    · refine .bind fun _ => ?_
      split
      · exact .bind fun _ => .bind fun _ => .pure hp
      · exact .bind fun _ => .pure hp
    · exact .bind fun _ => .pure hp

/-- A loop over the body of a class, for a course that its parts take. It ends at the brace that closes
the class. -/
theorem takesTo_bodyLoop {course : Course} {c : ClassOutline} (className : String)
    {contextId? : Option Nat} {n : Nat}
    (h : ∀ p j, Pending.From c p → Takes course s j (bodyPart c className p)) :
    TakesTo course s i (fun _ k => View.hasContext ⟨s.tape, k⟩ .braceClose contextId? = true)
      (Emit.iterateFor (bodyRound c className contextId?) n ⟨c.fields, c.removed⟩) := by
  refine .iterateFor (fun p _ => Pending.From c p) (fun p j hp => .view ?_)
    ⟨fun f hf => hf, fun r hr => hr⟩
  split
  next hclose => exact .pure ⟨fun _ => elim_done, fun _ _ => hclose⟩
  split
  · exact .afterFail
  · have := h p j hp
    refine .bind (.ofGives (gives_bodyPart className hp)) fun q k hq => .pure ?_
    exact ⟨by simpa, fun _ => elim_yield⟩

instance (c : ClassOutline) [hc : IsOutline s.tape c] (className : String) :
    Keeps s i (body c className) := by
  have hloop (contextId? : Option Nat) (n j : Nat) : Keeps s j
      (Emit.iterateFor (bodyRound c className contextId?) n ⟨c.fields, c.removed⟩) :=
    (takesTo_bodyLoop className fun p j hp => keeps_bodyPart c className hp).takes
  unfold body
  infer_instance

theorem gives_outline : Gives s (IsOutline s.tape) outline := by
  unfold outline
  refine .andThen (.view fun _ => rfl) fun v (hv : v.tape = s.tape) => ?_
  refine .bind fun o => .bind fun σ => ?_
  split
  · exact .throw _
  next c names hread =>
    rw [hv] at hread
    exact .bind fun _ => .pure ⟨_, _, _, _, hread⟩

instance : Keeps s i outline := by
  unfold outline
  refine .look ?_
  refine .andThen fun o j => ?_
  refine .andThen fun σ k => ?_
  split <;> infer_instance

end Class

instance : Keeps s i classDefinition := by
  unfold classDefinition
  refine .afterGives Class.gives_outline fun c j hc => ?_
  have hrest (className : String) (k : Nat) (calls : Emit Unit) [∀ k, Keeps s k calls] :
      Keeps s k (Class.rest c className calls) := by
    refine .look ?_
    split <;> infer_instance
  infer_instance

/-! ## Enumerations -/

theorem kind_of_isAt {t : Tape} {k : TokenKind} {rest : List TokenKind}
    (h : View.isAt ⟨t, i⟩ (k :: rest) = true) :
    t.kind i = k ∧ View.isAt ⟨t, i + 1⟩ rest = true := by
  simpa [View.isAt, Tape.has] using h

namespace Enumeration

instance : Keeps s i key := by
  unfold key
  refine .look ?_
  split <;> infer_instance

theorem keeps_stringMember (name : String) (k : Key) (hequals : s.tape.kind i = .equals)
    (hstring : s.tape.kind (i + 1) = .string) : Keeps s i (stringMember name k) := by
  have := notName_of_kind (s := s) hequals (by decide)
  have := notName_of_kind (s := s) hstring (by decide)
  unfold stringMember
  split <;> infer_instance

theorem keeps_valueMember (name : String) (k : Key) (hequals : s.tape.kind i = .equals) :
    Keeps s i (valueMember name k) := by
  have := notName_of_kind (s := s) hequals (by decide)
  unfold valueMember
  refine .look ?_
  split
  · split <;> infer_instance
  · infer_instance

instance (name : String) (previous : Previous) : Keeps s i (member name previous) := by
  unfold member
  refine .andThen fun k j => ?_
  refine @Keeps.afterWrites _ _ _ _ "" _ _ _ fun _ => ?_
  refine .look ?_
  dsimp only
  split
  next hstring =>
    obtain h | h := Bool.or_eq_true_iff.1 hstring
    all_goals
      have := keeps_stringMember name k (kind_of_isAt h).1 (kind_of_isAt (kind_of_isAt h).2).1
      infer_instance
  next =>
    split
    next hequals =>
      have := keeps_valueMember (s := s) (i := i + j + 1) name k (beq_iff_eq.1 hequals)
      infer_instance
    next => infer_instance

end Enumeration

/-! ## Elements -/

/-- A file whose elements are replaced. -/
class IsJsx (s : Setting) : Prop where
  jsx : s.options.has .jsx = true

instance [h : IsJsx s] : Allows s .element := ⟨fun _ => h.jsx⟩

namespace Element

instance (text : String) : HasMark (quoted text) where
  any := by simp [quoted, nameMarks]

instance (text : String) : HasMark (JsonString.quote text) where
  any := by simp [JsonString.quote, nameMarks]

/-- Line breaks and blanks are no name. -/
instance (text : String) : NoName (ElementText.remainder text) where
  mayBeName := by
    rw [mayBeName, Bool.and_eq_false_iff]
    cases hchars : (ElementText.remainder text).toList with
    | nil => exact .inl (by simpa using hchars)
    | cons c cs =>
      have hc : c = '\n' ∨ c = ' ' := by
        have hmem : c ∈ (ElementText.remainder text).toList := by simp [hchars]
        simp only [ElementText.remainder, String.toList_ofList, List.mem_append,
          List.mem_filter, beq_iff_eq] at hmem
        exact hmem.imp And.right And.right
      refine .inr (List.all_eq_false.2 ⟨c, List.mem_cons_self, ?_⟩)
      obtain rfl | rfl := hc <;> decide

instance : HasMark "(" := ⟨by decide⟩

instance : HasMark ", null" := ⟨by decide⟩

instance : HasMark ": " := ⟨by decide⟩

instance : HasMark ", " := ⟨by decide⟩

instance : HasMark ")" := ⟨by decide⟩

instance : Keeps s i fileNameVariable := by
  unfold fileNameVariable
  refine .andThen fun σ j => ?_
  split <;> infer_instance

theorem keeps_attributeName [hs : IsJsx s] (h : s.tape.kind i = .jsxName) :
    Keeps s i attributeName := by
  have : MayStay s i := ⟨fun _ => .attribute h hs.jsx⟩
  unfold attributeName
  infer_instance

instance [IsJsx s] : Keeps s i attribute? := by
  unfold attribute?
  refine .look ?_
  split
  · infer_instance
  · split
    next h =>
      have := keeps_attributeName (kind_of_isAt h).1
      infer_instance
    next =>
      split
      next h =>
        have := keeps_attributeName (s := s) (i := i) (beq_iff_eq.1 h)
        infer_instance
      next => infer_instance

instance (line? : Option Nat) : Keeps s i (debugInfo line?) := by
  unfold debugInfo
  split <;> infer_instance

end Element

/-! ## Chains -/

namespace Chain

instance : HasMark ", () => (" := ⟨by decide⟩

instance : HasMark ", async () => (" := ⟨by decide⟩

instance : HasMark ", 'optionalCall', " := ⟨by decide⟩

instance : HasMark ", 'optionalAccess', " := ⟨by decide⟩

instance : HasMark ", 'access', " := ⟨by decide⟩

instance (result : Except StructureError Bool) : Keeps s i (answer result) := by
  unfold answer
  split <;> infer_instance

end Chain

instance : Keeps s i optionalChainPass := by
  unfold optionalChainPass
  refine .look ?_
  split
  · infer_instance
  · split
    · infer_instance
    · split <;> infer_instance

/-! ## Numbers, catch clauses and mocks -/

instance : Keeps s i numericSeparatorPass := by
  unfold numericSeparatorPass
  refine .look ?_
  dsimp only
  split
  next h =>
    have := notName_of_isAtOneOf (by decide) (Bool.and_eq_true_iff.1 h).1
    infer_instance
  next => infer_instance

instance : Keeps s i catchBindingPass := by
  unfold catchBindingPass
  refine .look ?_
  split
  next h =>
    have := notName_of_kind (kind_of_isAt h).1 (by decide)
    infer_instance
  next => infer_instance

namespace Mock

theorem keeps_methodCall (hdot : (s.tape.before i).kind = .dot)
    (hparen : s.tape.kind (i + 1) = .parenOpen) : Keeps s i methodCall := by
  have : MayStay s i := ⟨fun _ => .property hdot⟩
  have := notName_of_kind (s := s) hparen (by decide)
  unfold methodCall
  infer_instance

instance : Keeps s i chain := by
  unfold chain
  dsimp only
  refine @Takes.discard _ _ _ _ _ (.ofRounds fun staysChained j => .look ?_)
  split
  · infer_instance
  next h =>
    obtain ⟨hdot, hrest⟩ := kind_of_isAt (by simpa using h)
    have := notName_of_kind hdot (by decide)
    have := keeps_methodCall (s := s) (i := i + j + 1) hdot (kind_of_isAt (kind_of_isAt hrest).2).1
    infer_instance

end Mock

/-! ## Display names -/

instance (start : Nat) : Keeps s i (DisplayName.arguments start) := by
  unfold DisplayName.arguments
  refine .look ?_
  refine @Takes.afterOptions _ _ _ _ _ ?_
  split
  · infer_instance
  · split <;> infer_instance

instance [hs : IsCommonJs s] : Keeps s i displayNamePass := by
  unfold displayNamePass
  refine .look ?_
  split
  · infer_instance
  · split
    · refine @Takes.afterReplacement? _ _ _ _ _ _ ?_
      split
      next code hcode =>
        have := hs.replacement hcode
        infer_instance
      next hnone =>
        have : MayStay s i := ⟨fun _ => .unreplaced (Setting.replacementAt?_eq_none hnone)⟩
        infer_instance
    · split
      next h =>
        have hat : View.isAt ⟨s.tape, i⟩ [.name, .dot, .name] = true := by
          simp only [Bool.and_eq_true] at h
          exact h.1.1
        have hdot := (kind_of_isAt (kind_of_isAt hat).2).1
        have := notName_of_kind hdot (by decide)
        have : MayStay s (i + 1 + 1) := ⟨fun _ => .property hdot⟩
        refine @Takes.afterReplacement? _ _ _ _ _ _ ?_
        cases hcode : s.plan.replacement? (View.text ⟨s.tape, i⟩) with
        | some code =>
          have := hs.replacement hcode
          rw [Option.getD_some]
          infer_instance
        | none =>
          have : MayStay s i := ⟨fun _ => .unreplaced (Setting.replacementAt?_eq_none hcode)⟩
          rw [Option.getD_none]
          infer_instance
      next => infer_instance

/-! ## Modules that become CommonJS -/

instance : Fixes State.place isTypeDefaultExport := by
  unfold isTypeDefaultExport
  refine .andThen fun drops => ?_
  split
  · infer_instance
  · refine .andThen fun v => ?_
    split <;> infer_instance

namespace CommonJs

/-! ## Imports -/

theorem keeps_importEquals (h : s.tape.kind i = .importWord) : Keeps s i importEquals := by
  have := notName_of_kind h (by decide)
  infer_instance

instance : HasMark "Promise.resolve().then(() => " := ⟨by decide⟩

instance : HasMark "))" := ⟨by decide⟩

instance : HasMark ")))" := ⟨by decide⟩

instance keeps_importRest [NotName s (i + 1)] (wrapper : String) : Keeps s i (do
    replace ("Promise.resolve().then(() => " ++ wrapper ++ "require")
    importRest (if wrapper.isEmpty then "))" else ")))")) := by
  refine @Keeps.afterWrites _ _ _ _ _ _ (writes_replace _) _ fun _ => .look ?_
  split <;> infer_instance

theorem keeps_dynamicImport (h : View.isAt ⟨s.tape, i⟩ [.importWord, .parenOpen] = true) :
    Keeps s i dynamicImport := by
  have := notName_of_kind (kind_of_isAt h).1 (by decide)
  have := notName_of_kind (kind_of_isAt (kind_of_isAt h).2).1 (by decide)
  unfold dynamicImport
  infer_instance

/-- What stands for the imports of a path is no name. -/
theorem gives_claimImportCode [hs : IsCommonJs s] (path : String) :
    Gives s NoName (claimImportCode path) := by
  unfold claimImportCode
  refine .bind fun σ => ?_
  split
  · exact .pure inferInstance
  · refine .bind fun _ => ?_
    intro recur σ τ code hrun
    cases hrun
    exact hs.codeFor path

instance [IsCommonJs s] : Keeps s i importStatement := by
  unfold importStatement
  refine .look ?_
  split
  next h => exact keeps_dynamicImport h
  next =>
    refine .andThen fun isDropped j => ?_
    split
    · infer_instance
    · exact .look (.afterGives (gives_claimImportCode _) fun code k _ => inferInstance)

/-! ## References -/

instance : HasMark ".call(void 0, " := ⟨by decide⟩

instance [hs : IsCommonJs s] : Keeps s i identifier := by
  unfold identifier
  refine .look ?_
  split
  · infer_instance
  · refine @Takes.afterReplacement? _ _ _ _ _ _ ?_
    split
    · infer_instance
    next hcode =>
      have := hs.replacement hcode
      infer_instance
    · infer_instance

/-! ## Assignments -/

instance fixes_exportTarget? (token : Token) : Fixes State.place (exportTarget? token) := by
  unfold exportTarget?
  infer_instance

theorem keeps_afterTarget {token : Token} {α : Type} {f : Option String → Emit α}
    (hf : ∀ target?, Keeps s i (f target?)) : Keeps s i (exportTarget? token >>= f) :=
  Takes.afterFixes _ f

instance [NotName s i] : Keeps s i assignment := by
  unfold assignment
  refine .look ?_
  split
  · infer_instance
  · split
    · infer_instance
    · refine keeps_afterTarget fun target? => ?_
      split <;> infer_instance

instance [NotName s i] : Keeps s i compoundAssignment := by
  unfold compoundAssignment
  refine .look ?_
  split
  · infer_instance
  · split
    · infer_instance
    · refine keeps_afterTarget fun target? => ?_
      split <;> infer_instance

instance [NotName s i] : Keeps s i prefixIncrement := by
  unfold prefixIncrement
  refine .look ?_
  split
  · infer_instance
  · refine keeps_afterTarget fun target? => ?_
    split <;> infer_instance

instance : Keeps s i postfixIncrement := by
  unfold postfixIncrement
  refine .look ?_
  split
  · infer_instance
  · refine keeps_afterTarget fun target? => ?_
    split
    · infer_instance
    · refine @Takes.afterReplacement? _ _ _ _ _ _ ?_
      dsimp only
      split <;> infer_instance

/-! ## Exports -/

/-- A function starts at an index: with its first word or with the word `async`. -/
def FunctionAt (t : Tape) (i : Nat) : Prop :=
  t.kind i = .functionWord ∨ t.hasAsync i = true ∧ t.kind (i + 1) = .functionWord

/-- The name of a function, after its first word, and the rest of it. -/
theorem keeps_functionName (h : (s.tape.before i).kind = .functionWord) : Keeps s i (do
    copyIf .star
    functionFromName) := by
  unfold copyIf
  rw [bind_assoc]
  refine .look ?_
  split
  next hstar =>
    have := notName_of_kind (s := s) (i := i) (beq_iff_eq.1 hstar) (by decide)
    have : MayStay s (i + 1) := ⟨fun _ => .functionName (.inr ⟨beq_iff_eq.1 hstar, h⟩)⟩
    infer_instance
  next =>
    have : MayStay s i := ⟨fun _ => .functionName (.inl h)⟩
    rw [pure_bind]
    infer_instance

theorem keeps_namedFunction (h : FunctionAt s.tape i) : Keeps s i namedFunction := by
  unfold namedFunction
  refine .look ?_
  dsimp only
  split
  next hfunction =>
    have := notName_of_kind (s := s) (i := i) (beq_iff_eq.1 hfunction) (by decide)
    have := keeps_functionName (s := s) (i := i + 1) (beq_iff_eq.1 hfunction)
    infer_instance
  next hfunction =>
    obtain h | ⟨hasync, hnext⟩ := h
    · exact absurd (beq_iff_eq.2 h) hfunction
    · have : MayStay s i := ⟨fun _ => .asyncFunction hasync hnext⟩
      have := notName_of_kind hnext (by decide)
      have := keeps_functionName (s := s) (i := i + 1 + 1) hnext
      rw [if_pos (by simpa [View.ahead, Tape.kind] using ⟨hasync, hnext⟩)]
      infer_instance

theorem keeps_decorator (h : s.tape.kind i = .atSign) : Keeps s i decorator := by
  have := notName_of_kind h (by decide)
  have : MayStay s (i + 1) := ⟨fun _ => .decorator h⟩
  have hdots (j : Nat) : Keeps s j (loopWhile (·.kind == .dot) do
      copyExpected .dot
      copyExpected .name) := by
    refine .ofLoopWhile fun k hdot => ?_
    have := notName_of_kind (s := s) (i := j + k) (beq_iff_eq.1 hdot) (by decide)
    have : MayStay s (j + k + 1) := ⟨fun _ => .property (beq_iff_eq.1 hdot)⟩
    infer_instance
  unfold decorator
  infer_instance

instance : Keeps s i decoratedClass := by
  have hdecorators (j : Nat) : Keeps s j (loopWhile (·.kind == .atSign) decorator) :=
    .ofLoopWhile fun k hsign => keeps_decorator (beq_iff_eq.1 hsign)
  infer_instance

theorem keeps_exportImportEquals (h : s.tape.kind (i + 1) = .importWord) :
    Keeps s i exportImportEquals := by
  have := notName_of_kind h (by decide)
  unfold exportImportEquals
  refine .look ?_
  split <;> infer_instance

instance : HasMark "exports." := ⟨by decide⟩

instance : HasMark "; exports." := ⟨by decide⟩

theorem functionAt_of_isNamedFunction {t : Tape} (h : isNamedFunction ⟨t, i⟩ = true) :
    FunctionAt t (i + 1 + 1) := by
  obtain h | h := Bool.or_eq_true_iff.1 h
  · exact .inl (kind_of_isAt (kind_of_isAt (kind_of_isAt h).2).2).1
  · obtain ⟨hasync, hrest⟩ := Bool.and_eq_true_iff.1 h
    exact .inr ⟨hasync, (kind_of_isAt hrest).1⟩

theorem keeps_exportDefault (h : s.tape.kind (i + 1) = .defaultWord) : Keeps s i exportDefault := by
  have := notName_of_kind h (by decide)
  unfold exportDefault
  refine .look ?_
  split
  next hfunction =>
    have := keeps_namedFunction (functionAt_of_isNamedFunction hfunction)
    infer_instance
  next => infer_instance

instance keeps_assignmentRest (name : String) : Keeps s i (assignmentRest name) := by
  refine .look ?_
  split <;> infer_instance

theorem keeps_simpleVariable [NotName s (i + 1)] : Keeps s i simpleVariable := by
  infer_instance

instance : Keeps s i assignedValue := by
  unfold assignedValue
  refine .look ?_
  split <;> infer_instance

instance [hs : IsCommonJs s] : Keeps s i declaredName := by
  unfold declaredName
  refine .look ?_
  refine @Takes.afterReplacement? _ _ _ _ _ _ ?_
  split
  next code hcode =>
    have := hs.replacement hcode
    infer_instance
  next => infer_instance

instance [IsCommonJs s] : Keeps s i variablePattern := by
  unfold variablePattern
  dsimp only
  refine @Takes.discard _ _ _ _ _ (.ofRounds fun depth j => .look ?_)
  split
  · infer_instance
  · split
    next h =>
      have := notName_of_isAtOneOf (by decide) h
      infer_instance
    next =>
      split
      next h =>
        have := notName_of_isAtOneOf (by decide) h
        infer_instance
      next => infer_instance

instance (x : Specifier) (isFromModule : Bool) : Keeps s i (specifierCode? x isFromModule) := by
  unfold specifierCode?
  split <;> infer_instance

instance [IsCommonJs s] : Keeps s i fromPath := by
  unfold fromPath
  exact .look (.afterGives (gives_claimImportCode _) fun code j _ => inferInstance)

instance [IsCommonJs s] : Keeps s i exportDeclaration := by
  unfold exportDeclaration
  refine @Takes.afterFixes _ _ _ _ _ _ _ _ _ fun _ => .look ?_
  dsimp only
  split
  next h =>
    have hkinds : TokenKind.name ∉ [TokenKind.varWord, .letWord, .constWord] ∧
        TokenKind.jsxName ∉ [TokenKind.varWord, .letWord, .constWord] := by decide
    have := notName_of_isAtOneOf (s := s) (i := i + 1) hkinds h
    have := keeps_simpleVariable (s := s) (i := i)
    infer_instance
  next =>
    split
    next h =>
      have hfunction : FunctionAt s.tape (i + 1) := by
        simpa [FunctionAt, View.ahead, Tape.kind] using h
      have := keeps_namedFunction hfunction
      infer_instance
    next => infer_instance

instance [IsCommonJs s] : Keeps s i exportStatement := by
  unfold exportStatement
  refine @Takes.afterFixes _ _ _ _ _ _ _ _ _ fun _ => .look ?_
  dsimp only
  split
  · infer_instance
  · split
    next h =>
      have := keeps_exportDefault (kind_of_isAt (kind_of_isAt h).2).1
      infer_instance
    next =>
      split
      · infer_instance
      · split
        · infer_instance
        · split
          next h =>
            have := keeps_exportImportEquals (kind_of_isAt (kind_of_isAt h).2).1
            infer_instance
          next => infer_instance

end CommonJs

instance : HasMark "module.exports" := ⟨by decide⟩

instance [IsCommonJs s] : Keeps s i commonJsPass := by
  have hlast : Keeps s i (CommonJs.ruleFor (View.kind ⟨s.tape, i⟩)) := by
    unfold CommonJs.ruleFor
    split
    · infer_instance
    · infer_instance
    next h =>
      have := notName_of_kind (s := s) (i := i) h (by decide)
      infer_instance
    next h =>
      have := notName_of_kind (s := s) (i := i) h (by decide)
      infer_instance
    next h =>
      have := notName_of_kind (s := s) (i := i) h (by decide)
      infer_instance
    · infer_instance
  unfold commonJsPass
  refine .look ?_
  split
  next h =>
    have := CommonJs.keeps_importEquals (kind_of_isAt h).1
    infer_instance
  next =>
    by_cases hpost : View.isAt ⟨s.tape, i⟩ [.name, .postIncrement] = true
    · have hname : View.kind ⟨s.tape, i⟩ = .name := (kind_of_isAt hpost).1
      simp only [hpost, hname, if_true]
      infer_instance
    · simp only [hpost, Bool.false_eq_true, if_false]
      infer_instance

end PlainScript.Emit
