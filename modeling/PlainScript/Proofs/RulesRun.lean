import PlainScript.AnnotatedFile
import PlainScript.Proofs.PrimitivesRun

/-!
# The rules run

The rules of the grammar run to their end, and so does the rule for each goal at an allowance of its
rank. A type is entered without any allowance, so it reaches another rule only after it has consumed
something. An operand may be entered by four rules one after the other before anything is consumed;
this is what the allowances in the statements count. Parameters and bodies of functions are read with
a scope open that is closed at their end.
-/

namespace PlainScript.Grammar

open Parse

-- Counted once for each branch.
set_option synthInstance.maxSize 1000000000000000000000000000000

variable {m : Mark} {a a' k k' : Nat}

/-! ## Type annotations and modifiers -/

instance gains_eatAsModifier : Gains (condLevel a) m a k eatAsModifier k := by
  unfold eatAsModifier
  refine .fromSnapshot fun σ => .andThen fun _ => .andThen fun kind => .andThen fun broken => ?_
  generalize (_ && !broken) = follows
  cases follows <;> infer_instance

instance : Runs m a k eatAsModifier a k := .ofGains gains_eatAsModifier

instance (allowed : List SoftKeyword) : Gains (condLevel a) m a k (eatModifier allowed) k := by
  unfold eatModifier
  refine .andThen fun word => .andThen fun isName => ?_
  split
  · refine .ifThen ?_ inferInstance
    cases modifierKind? word <;> infer_instance
  · infer_instance

/-! ## Bindings -/

instance : Runs m a k optionalDefault a k := by
  unfold optionalDefault
  infer_instance

instance (close : TokenKind) (isBlockScoped allowHoles allowModifiers : Bool)
    (contextId : Nat) [AtMost 2 a] :
    Runs m a k (bindingList close isBlockScoped allowHoles allowModifiers contextId) a k := by
  unfold bindingList
  refine .andThen fun firstItem => ?_
  refine @Runs.discard _ _ _ _ _ _ _ (@Runs.iterateFresh _ _ _ _ _ Prod.fst (fun x => x) ?_ ?_ _)
  · rintro σ ⟨isFirst, commaErased⟩
    cases isFirst <;> infer_instance
  · rintro ⟨isFirst, commaErased⟩
    infer_instance

instance runs_bindingAtom (isBlockScoped : Bool) [AtMost 1 a] :
    Runs m a k (bindingAtom isBlockScoped) 6 k := by
  unfold bindingAtom
  have hname (kind : TokenKind) (hkind : kind ≠ .eof) : RunsWhen (fun σ => σ.current.kind = kind)
      m a k (do retype .name; bindingIdentifier isBlockScoped) 6 k :=
    .mono (retype_runs (by decide) (by decide)).andThen fun σ hσ => .inl (hσ ▸ hkind)
  refine .onKind fun kind => ?_
  split
  case h_2 | h_3 | h_4 => exact hname _ (by decide)
  all_goals exact Runs.when inferInstance

instance (contextId : Nat) : Runs m a k (propertyName contextId) 6 k := by
  unfold propertyName
  infer_instance

namespace TypeScript

/-! ## Types in TypeScript -/

instance runs_typeParameter : Runs m a k typeParameter 6 k := by
  unfold typeParameter
  infer_instance

instance runs_typeParameters : Runs m a k typeParameters 6 k := by
  unfold typeParameters
  infer_instance

instance gains_indexSignature : Gains (condLevel a) m a k indexSignature k := by
  unfold indexSignature
  infer_instance

instance : Runs m a k indexSignature a k := .ofGains gains_indexSignature

instance runs_primaryType : Runs m a k primaryType 6 k := by
  unfold primaryType
  refine .andThen fun kind => ?_
  split <;> infer_instance

instance runs_type : Runs m a k type 6 k := by
  unfold type
  infer_instance

end TypeScript

namespace Flow

/-! ## Types in Flow -/

instance runs_typeParameter : Runs m a k typeParameter 6 k := by
  unfold typeParameter
  infer_instance

instance runs_typeParameters : Runs m a k typeParameters 6 k := by
  unfold typeParameters
  infer_instance

instance : Runs m a k member 6 k := by
  unfold member
  infer_instance

instance runs_primaryType : Runs m a k primaryType 6 k := by
  unfold primaryType
  refine .andThen fun _ => .andThen fun kind => ?_
  split <;> infer_instance

instance runs_type : Runs m a k type 6 k := by
  unfold type
  infer_instance

end Flow

/-! ## Functions -/

instance (functionStart contextId : Nat) :
    Runs m 6 k (functionFinish functionStart contextId) 6 k := by
  unfold functionFinish
  have hmark : Runs m 6 k (do
      let stop ← tokenIndex
      markTypes (stop - overloadLength (← get).tokens functionStart) stop
      return) 6 k := by
    refine runs_fromIndex fun σ _ => .andThen fun τ => ?_
    have hrange : Runs ⟨σ, 6, k⟩ 6 k
        (markTypes (σ.spans.length - overloadLength τ.tokens functionStart) σ.spans.length) 6 k :=
      runs_markTypes (Nat.sub_le _ _) (Nat.le_refl _)
    infer_instance
  infer_instance

instance gains_arrow : Gains (condLevel a) m a k arrow k := by
  unfold arrow
  infer_instance

instance : Runs m a k arrow a k := .ofGains gains_arrow

instance (functionStart : Nat) (isConstructor : Bool) :
    Runs m a k (method functionStart isConstructor) 6 k := by
  unfold method
  infer_instance

instance (functionStart : Nat) (isStatement optionalName : Bool) :
    Runs m a k (functionRest functionStart isStatement optionalName) 6 k := by
  unfold functionRest
  refine .andThen fun _ => .andThen fun isNamed => ?_
  have hrest (a : Nat) : Runs m a k (do
      let hasNameScope := !isStatement && (← isAt .name)
      let nameStart ← tokenIndex
      if hasNameScope then openScope
      if ← isAt .name then bindingIdentifier false
      let start ← tokenIndex
      openScope
      functionParameters false 0
      functionFinish functionStart 0
      closeScope start true
      if hasNameScope then closeScope nameStart true) 6 k := by
    refine .andThen fun isName => ?_
    generalize (!isStatement && isName) = hasNameScope
    cases hasNameScope <;> infer_instance
  infer_instance

/-! ## Lists of expressions -/

instance [AtMost 2 a] : Runs m a k callArguments a k := by
  unfold callArguments
  infer_instance

/-! ## Objects -/

instance runs_object (isPattern isBlockScoped : Bool) :
    Runs m a k (object isPattern isBlockScoped) 6 k := by
  unfold object
  infer_instance

/-! ## Subscripts -/

instance gains_plainSubscript (start : Nat) (noCalls : Bool) :
    Gains (condLevel a) m a k (plainSubscript start noCalls) k := by
  unfold plainSubscript
  refine .andThen fun kind => ?_
  split <;> infer_instance

instance (start : Nat) (noCalls : Bool) : Runs m a k (plainSubscript start noCalls) a k :=
  .ofGains (gains_plainSubscript start noCalls)

instance (start : Nat) (noCalls : Bool) :
    Gains (condLevel a) m a k (typeScriptSubscript start noCalls) k := by
  unfold typeScriptSubscript
  refine gains_onCond (ensures_isAt .bang).right ?_ inferInstance
  intro env credit depth σ hσ hbang
  have htext : IsText σ.current := .inl (by rw [hbang]; decide)
  refine (retype_ends hσ.here.sane htext (by decide) (by decide)).bind fun _ τ hτ => ?_
  exact skipAsType_runs.andThen (hσ.of_rests hτ.1) hτ.2

instance : Runs m a k flowAsyncArrow 6 k := by
  unfold flowAsyncArrow
  refine .andThen fun _ => .andThen fun start => .andThen fun _ => .andThen fun isArrow => ?_
  cases isArrow
  · exact .leave (inferInstanceAs (Runs m 6 (k + 1) (pure false) 6 (k + 1)))
  · infer_instance

instance runs_subscripts (start : Nat) (noCalls : Bool) :
    Runs m a k (subscripts start noCalls) a k := by
  unfold subscripts
  infer_instance

namespace Element

/-! ## Elements -/

instance : Runs m a k name 6 k := by
  unfold name
  refine .andThen fun first => .andThen fun _ => .andThen fun hasDot => .andThen fun _ => ?_
  split
  · infer_instance
  · refine .andThen fun σ => ?_
    split <;> infer_instance

instance : Runs m a k attributeValue 6 k := by
  unfold attributeValue
  refine .andThen fun kind => ?_
  split <;> infer_instance

instance gains_openingTag : Gains (condLevel a) m a k openingTag k := by
  unfold openingTag
  infer_instance

instance : Runs m a k openingTag a k := .ofGains gains_openingTag

instance : Gains (condLevel a) m a k childOrClose k := by
  unfold childOrClose
  refine .andThen fun failed => ?_
  split
  · infer_instance
  · refine .andThen fun kind => ?_
    split <;> infer_instance

instance : Answers childOrClose false := by
  unfold childOrClose
  infer_instance

instance runs_element : Runs m a k element 6 k := by
  unfold element
  infer_instance

end Element

/-! ## Expressions -/

instance [AtMost 1 a] : Runs m a k operand 6 k := by
  unfold operand
  refine .ifThen inferInstance (.andThen fun isText => ?_)
  split
  · infer_instance
  have hless : Ensures (fun l => l.kind = .less)
      (isAt .less <&&> (return (← read).dialect.jsx)) := by
    refine (ensures_isAt .less).left fun env σ τ x hrun => ?_
    cases hrun
    rfl
  refine runs_onCond hless ?_ ?_
  · refine .mono (retype_runs (by decide) (by decide)).andThen fun σ hσ => .inl ?_
    rw [hσ]
    decide
  · refine .onState fun σ => ?_
    have hregexp (htext : IsText σ.current) : RunsWhen (fun τ => τ = σ) m a k (do
        if (← read).source.byteAt σ.current.start == '/' then
          rereadRegexp
          next
        else unexpected
        return false) 6 k := by
      rintro env credit depth σ hσ rfl
      change Ends env.source _ ((if env.source.byteAt σ.current.start == '/' then do
        rereadRegexp
        next
        pure false
      else do
        unexpected
        pure false : Parse Bool) env σ)
      split
      · exact nextRegexp_runs hσ htext
      · exact Runs.ends hσ trivial
    dsimp only
    split
    case h_1 hkind => exact hregexp (.inl (by rw [hkind]; decide))
    case h_2 hkind => exact hregexp (.inl (by rw [hkind]; decide))
    all_goals exact Runs.when inferInstance

instance runs_callee [AtMost 1 a] : Runs m a k callee 6 k := by
  unfold callee
  infer_instance

instance : Runs m a k (do
    if ← isAt .increment then retype .postIncrement
    next) 6 k := by
  refine runs_onCond (ensures_isAt .increment) ?_ ?_
  · refine .mono (retype_runs (by decide) (by decide)).andThen fun σ hσ => .inl ?_
    rw [hσ]
    decide
  · infer_instance

instance runs_unary [AtMost 1 a] : Runs m a k unary 6 k := by
  unfold unary
  infer_instance

instance runs_operators (start floor : Nat) (noIn : Bool) :
    Runs m a k (operators start floor noIn) a k := by
  unfold operators
  infer_instance

instance runs_assignment (noIn inParens : Bool) [AtMost 1 a] :
    Runs m a k (assignment noIn inParens) 6 k := by
  unfold assignment
  refine .andThen fun env => runs_onCond (ensures_isAt .less).right ?_ ?_
  · refine Runs.fromSnapshotWhen fun σ hσ => ?_
    have htext : IsText σ.current := .inl (by rw [hσ]; decide)
    have hgeneric : Runs ⟨σ, a, k⟩ 6 k (do
        restore σ.snapshot
        retype .typeParameterStart
        if env.dialect.typescript then TypeScript.typeParameters else Flow.typeParameters
        genericArrow noIn inParens) 6 k :=
      runs_restoreRetype htext (by decide) (by decide)
    infer_instance
  · infer_instance

instance runs_expression (noIn : Bool) [AtMost 2 a] : Runs m a k (expression noIn) 6 k := by
  unfold expression
  infer_instance

/-! ## Classes -/

instance (isStatic : Bool) : Gains (condLevel a) m a k (typeScriptMemberStart isStatic) k := by
  unfold typeScriptMemberStart
  refine gains_fromIndex fun σ _ => .andThen fun _ => gains_fromIndex fun τ hle => ?_
  have hmark : Runs ⟨τ, a, k⟩ 6 k
      (markTypes (if isStatic then σ.spans.length - 1 else σ.spans.length) τ.spans.length) 6 k := by
    refine runs_markTypes ?_ (Nat.le_refl _)
    split
    · exact Nat.le_trans (Nat.sub_le _ _) hle
    · exact hle
  infer_instance

instance (contextId : Nat) : Runs m a k (classBody contextId) 6 k := by
  unfold classBody
  infer_instance

instance (isStatement optionalName : Bool) :
    Runs m a k (classHead isStatement optionalName) a k := by
  unfold classHead
  infer_instance

instance : Runs m a k classHeritage a k := by
  unfold classHeritage
  infer_instance

instance runs_classDefinition (isStatement optionalName : Bool) :
    Runs m a k (classDefinition isStatement optionalName) 6 k := by
  unfold classDefinition
  refine .andThen fun contextId => .andThen fun _ => .andThen fun _ => .andThen fun nameStart => ?_
  cases isStatement
  · have hclose (openBrace : Nat) : Runs m 6 (k + 1) (do
        unless ← hasError do
          annotateAt openBrace ({ · with contextId? := some contextId })
          setContext contextId
          unless false do
            closeScope nameStart false) 6 k := by
      refine .andThen fun failed => ?_
      cases failed
      · infer_instance
      · exact .leave (inferInstanceAs (Runs m 6 (k + 1) (pure ()) 6 (k + 1)))
    infer_instance
  · infer_instance

namespace Flow

/-! ## Declarations in Flow -/

instance : Runs m a k declare 6 k := by
  unfold declare
  refine .andThen fun kind => ?_
  split <;> infer_instance

instance : Gains (condLevel a) m a k interfaceStatement k := by
  unfold interfaceStatement
  infer_instance

instance runs_identifierDeclaration (word : SoftKeyword) :
    Runs m 6 k (identifierDeclaration word) 6 k := by
  unfold identifierDeclaration
  refine .andThen fun kind => ?_
  extract_lets rule?
  have hrule : ∀ rule, rule? = some rule → Runs m 6 k rule 6 k := by
    intro rule h
    unfold rule? at h
    split at h
    case h_5 => cases h
    all_goals
      split at h
      · cases h
        infer_instance
      · cases h
  clear_value rule?
  cases rule? with
  | none => infer_instance
  | some rule =>
    have hsome := hrule rule rfl
    infer_instance

end Flow

namespace TypeScript

/-! ## Declarations in TypeScript -/

instance (start? : Option Nat) : Runs m a k (namespaceBody start?) 6 k := by
  unfold namespaceBody
  refine .andThen fun _ => .andThen fun σ => ?_
  extract_lets outer
  split
  · infer_instance
  refine .andThen fun _ => runs_fromIndex fun σ₁ _ => .andThen fun _ => .andThen fun _ => ?_
  refine runs_fromIndex fun σ₂ hle => ?_
  have hmark : Runs ⟨σ₂, 6, k⟩ 6 k (markTypes σ₁.spans.length σ₂.spans.length) 6 k :=
    runs_markTypes hle (Nat.le_refl _)
  infer_instance

instance : Runs m a k importEquals 6 k := by
  unfold importEquals
  infer_instance

instance gains_declaration (word : SoftKeyword) (wordIsCurrent : Bool) :
    Gains (condLevel a) m a k (declaration word wordIsCurrent) k := by
  unfold declaration
  refine .andThen fun here => .andThen fun last? => .andThen fun σ => ?_
  dsimp only
  split <;> infer_instance

instance (word : SoftKeyword) (wordIsCurrent : Bool) :
    Runs m a k (declaration word wordIsCurrent) a k :=
  .ofGains (gains_declaration word wordIsCurrent)

instance : Runs m a k (declaration .interfaceName true) 6 k := by
  unfold declaration
  infer_instance

instance : Runs m a k ambientDeclaration a k := by
  unfold ambientDeclaration
  refine .andThen fun isEnded => ?_
  split
  · infer_instance
  · refine .andThen fun kind => ?_
    split <;> exact .of

instance runs_identifierDeclaration (word : SoftKeyword) [HasToken m] :
    Runs m a k (identifierDeclaration word) a k := by
  unfold identifierDeclaration
  split <;> exact .of

instance : Gains (condLevel a) m a k exportDefault k := by
  unfold exportDefault
  have habstract : Ensures IsText
      (spells .abstractName <&&> (return (← peekKind) == .classWord)) :=
    (ensures_spells (by decide)).left (keepsCurrent_peekKind _)
  refine gains_onCond habstract ?_ ?_
  · exact (retype_runs (by decide) (by decide)).andThen
  · infer_instance

end TypeScript

/-! ## Modules -/

instance (clause : ClauseKind) : Runs m a k (typedSpecifier clause) 6 k := by
  unfold typedSpecifier
  refine runs_fromIndex fun σ _ => .andThen fun _ => .andThen fun words => ?_
  extract_lets shape
  refine runs_fromIndex fun τ hle => ?_
  have hrange : Runs ⟨τ, 6, k⟩ 6 k (requireRange σ.spans.length τ.spans.length) 6 k :=
    runs_requireRange hle (Nat.le_refl _)
  have hmark : Runs ⟨τ, 6, k⟩ 6 k (markTypes σ.spans.length τ.spans.length) 6 k :=
    runs_markTypes hle (Nat.le_refl _)
  refine .andThen fun _ => ?_
  extract_lets annotate
  have hannotate : ∀ r, Runs ⟨τ, 6, k⟩ 6 k (annotate r) 6 k := by
    intro r
    refine @Runs.bind _ _ _ _ _ _ _ _ _ _ _ (@Runs.forIn _ _ _ _ _ _ _ _ fun place _ => ?_) _
    split <;> infer_instance
  clear_value annotate
  infer_instance

instance : Runs m 6 k exportDefault 6 k := by
  unfold exportDefault
  infer_instance

instance [AtMost 4 a] : Runs m a k exportBody 6 k := by
  unfold exportBody
  infer_instance

instance runs_exportClause [AtMost 4 a] : Runs m a k exportClause 6 k := by
  unfold exportClause
  infer_instance

instance runs_importClause : Runs m a k importClause 6 k := by
  unfold importClause
  infer_instance

/-! ## Statements -/

instance runs_blockBody (close : TokenKind) [AtMost 4 a] : Runs m a k (blockBody close) a k := by
  unfold blockBody
  infer_instance

instance runs_block (isFunction : Bool) (contextId : Nat) :
    Runs m a k (block isFunction contextId) 6 k := by
  unfold block
  infer_instance

instance (declaration : Bool) : Gains (condLevel a) m a k (keywordStatement declaration) k := by
  unfold keywordStatement
  refine .andThen fun kind => ?_
  dsimp only
  split <;> infer_instance

instance [AtMost 3 a] : Runs m a k expressionStatement 6 k := by
  unfold expressionStatement
  refine .andThen fun start => .andThen fun _ => .andThen fun stop => ?_
  refine runs_onLastToken (fun σ token htoken => ?_) ?_
  · infer_instance
  · infer_instance

instance runs_statement (declaration : Bool) [AtMost 3 a] :
    Runs m a k (statement declaration) 6 k := by
  unfold statement
  infer_instance

/-! ## Goals -/

/-- The rule for a goal runs at an allowance of the rank of the goal. -/
theorem runs_rule (g : Goal) :
    Runs m g.rank k (rule g) (if g.moves then 6 else g.rank) k := by
  cases g <;> simp only [rule, Goal.rank, Goal.moves, if_true, Bool.false_eq_true, if_false] <;>
    infer_instance

end PlainScript.Grammar
