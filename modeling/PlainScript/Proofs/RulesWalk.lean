import PlainScript.Proofs.ScopesWalk

/-!
# The rules walk

Each rule of the grammar is a walk because it is put together from walks. The proofs follow the text
of the rules; where a rule distinguishes cases, the cases are split. Rules that save the state and go
back to it are walks from any state, which is what looking ahead and trying a reading need.

Since a goal is met by its rule, meeting goals to any depth is a walk too, and what a whole parse
does after it has read its first lexeme is described by `Reaches` alone.
-/

namespace PlainScript.Grammar

open Parse

-- Counted once for each branch.
set_option synthInstance.maxSize 1000000000000000000000000000000

variable {base : State}

/-! ## Type annotations and modifiers -/

instance (allowed : List SoftKeyword) : Walks base (eatModifier allowed) := by
  unfold eatModifier
  refine .andThen fun word => .andThen fun isName => ?_
  split
  · refine .andThen fun isEaten => ?_
    split
    · split <;> infer_instance
    · infer_instance
  · infer_instance

/-! ## Bindings -/

instance (isBlockScoped : Bool) : Walks base (bindingAtom isBlockScoped) := by
  unfold bindingAtom
  have hname : Walks base (retype .name) := walks_retype (by decide)
  refine .andThen fun k => ?_
  split <;> infer_instance

namespace TypeScript

/-! ## Types in TypeScript -/

instance walks_primaryType : Walks base primaryType := by
  unfold primaryType
  refine .andThen fun k => ?_
  split <;> infer_instance

end TypeScript

namespace Flow

/-! ## Types in Flow -/

instance walks_primaryType : Walks base primaryType := by
  unfold primaryType
  refine .andThen fun _ => .andThen fun k => ?_
  split <;> infer_instance

end Flow

/-! ## Functions -/

instance (functionStart : Nat) (isConstructor : Bool) :
    Walks base (method functionStart isConstructor) := by
  unfold method
  have hmark := @Walks.ofMark base Unit
  infer_instance

instance (functionStart : Nat) (isStatement optionalName : Bool) :
    Walks base (functionRest functionStart isStatement optionalName) := by
  unfold functionRest
  have hmark := @Walks.ofMark base Unit
  infer_instance

/-! ## Subscripts -/

instance (start : Nat) : Walks base (asyncCall start) := by
  unfold asyncCall
  exact .ofMarkedSnapshot _

instance (start : Nat) (noCalls : Bool) : Walks base (plainSubscript start noCalls) := by
  unfold plainSubscript
  refine .andThen fun k => ?_
  split <;> infer_instance

instance : Walks base genericAsyncArrow := by
  unfold genericAsyncArrow
  exact .ofMarkedSnapshot _

instance (start : Nat) (noCalls : Bool) : Walks base (typeScriptSubscript start noCalls) := by
  unfold typeScriptSubscript
  have hbang : ∀ σ : State, Walks σ (retype .nonNullAssertion) := fun _ => walks_retype (by decide)
  infer_instance

instance : Walks base flowAsyncArrow := by
  unfold flowAsyncArrow
  have hmark := @Walks.ofMark base Bool
  infer_instance

namespace Element

/-! ## Elements -/

instance : Walks base name := by
  unfold name
  refine .andThen fun first => .andThen fun _ => .andThen fun hasDot => .andThen fun _ => ?_
  split
  · infer_instance
  · refine .andThen fun σ => ?_
    split <;> infer_instance

instance : Walks base attributeValue := by
  unfold attributeValue
  refine .andThen fun k => ?_
  split <;> infer_instance

instance : Walks base childOrClose := by
  unfold childOrClose
  refine .andThen fun failed => ?_
  split
  · infer_instance
  · refine .andThen fun k => ?_
    split <;> infer_instance

end Element

/-! ## Expressions -/

instance (canBeArrow : Bool) : Walks base (parenthesized canBeArrow) := by
  unfold parenthesized
  exact .ofMarkedSnapshot _

instance (canBeArrow : Bool) : Walks base (nameOperand canBeArrow) := by
  unfold nameOperand
  exact .ofMark _

instance : Walks base operand := by
  unfold operand
  have htag : Walks base (retype .jsxTagStart) := walks_retype (by decide)
  refine .andThen fun isIntrinsic => ?_
  split
  · infer_instance
  · refine .andThen fun isText => ?_
    split
    · infer_instance
    · refine .andThen fun isElement => ?_
      split
      · infer_instance
      · refine .andThen fun σ => ?_
        dsimp only
        split <;> infer_instance

instance : Walks base unary := by
  unfold unary
  have hpostfix : Walks base (retype .postIncrement) := walks_retype (by decide)
  infer_instance

instance (noIn inParens : Bool) : Walks base (assignment noIn inParens) := by
  unfold assignment
  have hstart : ∀ σ : State, Walks σ (retype .typeParameterStart) := fun _ => walks_retype (by decide)
  infer_instance

/-! ## Classes -/

instance (contextId : Nat) : Consumes (classBody contextId) := by
  unfold classBody
  infer_instance

instance (isStatement optionalName : Bool) :
    Walks base (classDefinition isStatement optionalName) := by
  unfold classDefinition
  have hmark := @Walks.ofMark base Unit
  infer_instance

namespace TypeScript

/-! ## Declarations in TypeScript -/

instance (word : SoftKeyword) (wordIsCurrent : Bool) :
    Walks base (declaration word wordIsCurrent) := by
  unfold declaration
  refine .andThen fun here => .andThen fun last? => .andThen fun σ => ?_
  dsimp only
  split <;> infer_instance

instance : Walks base ambientDeclaration := by
  unfold ambientDeclaration
  refine .andThen fun isEnded => ?_
  split
  · infer_instance
  · refine .andThen fun k => ?_
    split <;> infer_instance

instance walks_identifierDeclaration (word : SoftKeyword) :
    Walks base (identifierDeclaration word) := by
  unfold identifierDeclaration
  split <;> infer_instance

instance : Walks base exportDefault := by
  unfold exportDefault
  have habstract : Walks base (retype .abstractModifier) := walks_retype (by decide)
  infer_instance

end TypeScript

namespace Flow

/-! ## Declarations in Flow -/

instance : Walks base declare := by
  unfold declare
  refine .andThen fun k => ?_
  split <;> infer_instance

instance walks_identifierDeclaration (word : SoftKeyword) :
    Walks base (identifierDeclaration word) := by
  unfold identifierDeclaration
  refine .andThen fun k => ?_
  extract_lets rule?
  have hrule : ∀ rule, rule? = some rule → Walks base rule := by
    intro rule h
    unfold rule? at h
    split at h
    case h_5 => cases h
    all_goals
      split at h
      · cases h
        infer_instance
      · cases h
  clear_value rule?
  cases rule? with
  | none => infer_instance
  | some rule =>
    have := hrule rule rfl
    infer_instance

end Flow

/-! ## Imports and exports -/

instance (clause : ClauseKind) : Walks base (typedSpecifier clause) := by
  unfold typedSpecifier
  refine .andThen fun start => .andThen fun _ => .andThen fun words => ?_
  extract_lets shape
  refine .andThen fun stop => ?_
  extract_lets mark
  have hmark : ∀ r, Walks base (mark r) := by
    intro r
    refine @Obeys.bind _ _ _ _ _ _ _ (@Obeys.forIn _ _ _ _ _ _ _ _ fun place _ => ?_) _
    split <;> infer_instance
  clear_value mark
  infer_instance

/-! ## Statements -/

instance (isFunction : Bool) (contextId : Nat) : Walks base (block isFunction contextId) := by
  unfold block
  exact .ofMark _

instance : Walks base forStatement := by
  unfold forStatement
  have hmark := @Walks.ofMark base Unit
  infer_instance

instance : Walks base switchStatement := by
  unfold switchStatement
  have hmark := @Walks.ofMark base Unit
  infer_instance

instance : Walks base tryStatement := by
  unfold tryStatement
  have hmark := @Walks.ofMark base Unit
  infer_instance

instance (declaration : Bool) : Walks base (keywordStatement declaration) := by
  unfold keywordStatement
  refine .andThen fun k => ?_
  split <;> infer_instance

instance : Walks base expressionStatement := by
  unfold expressionStatement
  refine .andThen fun start => .andThen fun _ => .andThen fun stop => .andThen fun last? => ?_
  split <;> infer_instance

/-! ## All rules -/

instance (g : Goal) : Walks base (rule g) := by
  cases g <;>
  · unfold rule
    infer_instance

theorem meet_walks (s : Source) (d : Dialect) (n : Nat) :
    Env.Walks { source := s, dialect := d, recur := meet s d n } := by
  induction n with
  | zero =>
    intro g σ τ b hrun
    cases hrun
  | succ n ih =>
    intro g σ τ b hrun
    exact @Walks.reaches σ _ (rule g) _ ⟨s, d, meet s d n⟩ _ _ _ ih (.stay σ) hrun

end PlainScript.Grammar
