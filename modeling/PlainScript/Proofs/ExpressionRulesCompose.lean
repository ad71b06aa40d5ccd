import PlainScript.Proofs.PrimitivesCompose

/-!
# Types and expressions compose

The rules for bindings and types, for functions, lists, objects and elements, and for expressions with
their operators and subscripts. Each composes because it is put together from rules that do, and the
proofs follow the text of the rules.
-/

namespace PlainScript.Grammar

open Parse

-- Counted once for each branch.
set_option synthInstance.maxSize 1000000000000000000000000000000

variable {base σ τ : State} {own : Nat} {P : Mode}

/-! ## Type annotations and modifiers -/

/-- A modifier has just been consumed. -/
theorem eatAsModifier_ok {env : Env} {σ τ : State} (h : eatAsModifier env σ = .ok (true, τ)) :
    next env σ = .ok ((), τ) := by
  obtain ⟨p, _, hsnapshot, h⟩ := bind_ok h
  cases hsnapshot
  obtain ⟨_, υ, hnext, h⟩ := bind_ok h
  obtain ⟨k, _, hkind, h⟩ := bind_ok h
  cases hkind
  obtain ⟨broken, υ', hbroken, h⟩ := bind_ok h
  cases hbroken
  dsimp only at h
  split at h
  case isTrue =>
    cases (Prod.mk.inj (Except.ok.inj h)).2
    exact hnext
  case isFalse hfollows =>
    obtain ⟨_, ρ, -, hanswer⟩ := bind_ok h
    exact absurd (Prod.mk.inj (Except.ok.inj hanswer)).1 hfollows

instance : Splits Anywhere own base eatAsModifier Loose Anywhere where
  ifTrue _ hσ _ hrun := loose_of_next hσ.toExtends (eatAsModifier_ok hrun)
  ifFalse _ _ _ _ := trivial

theorem unpaired_modifierKind? {w : SoftKeyword} {k : TokenKind} (h : modifierKind? w = some k) :
    Unpaired k := by
  cases w <;> cases h <;> exact ⟨rfl⟩

instance (allowed : List SoftKeyword) : Follows Anywhere own base (eatModifier allowed) := by
  unfold eatModifier
  refine .andThen fun word => .andThen fun isName => ?_
  split
  · refine .onCond ?_ inferInstance
    rw [if_pos rfl]
    split
    case h_1 hkind =>
      have := unpaired_modifierKind? hkind
      infer_instance
    case h_2 => infer_instance
  · infer_instance

/-! ## Bindings -/

instance : Follows Anywhere own base optionalDefault where
  composed henv hσ _ hrun := by
    obtain ⟨holds, υ, heat, hrest⟩ := bind_ok hrun
    rcases eat_ok heat with ⟨rfl, -, hnext⟩ | ⟨rfl, rfl⟩
    · obtain ⟨i, υ', hlast, hrest⟩ := bind_ok hrest
      obtain ⟨_, ρ, hvalue, hmark⟩ := bind_ok hrest
      exact composed_rhs henv hσ hnext hlast hvalue hmark
    · cases hrest
      exact hσ

section

variable (close : TokenKind) (isBlockScoped allowHoles allowModifiers : Bool) (id : Nat)

instance :
    Follows (Numbering id) own base (bindingList close isBlockScoped allowHoles allowModifiers id) := by
  unfold bindingList
  have hloop := @Follows.iterateIn base own (Bool × Bool) (Numbering id)
  infer_instance

theorem gives_bindingList (hclose : close ≠ .classWord) :
    Gives (Numbering id) own base (bindingList close isBlockScoped allowHoles allowModifiers id)
      (Stamping id) := by
  refine gives_closed hclose ?_
  unfold bindingList
  have hround := @Follows.iterateIn base own (Bool × Bool) (Numbering id)
  have hloop := @Gives.iterateIn base own (Bool × Bool) (Numbering id)
  infer_instance

instance :
    Follows Anywhere own base (bindingList close isBlockScoped allowHoles allowModifiers 0) :=
  .unnumbered inferInstance

end

instance (isBlockScoped : Bool) : Follows Anywhere own base (bindingAtom isBlockScoped) := by
  unfold bindingAtom
  have hyield : Follows (At Anywhere .yieldWord) own base (retype .name) :=
    follows_retype_at (by decide) (by decide)
  have hname : Follows (At Anywhere .name) own base (retype .name) := follows_retype_at (by decide) (by decide)
  have hlet : Follows (At Anywhere .letWord) own base (retype .name) :=
    follows_retype_at (by decide) (by decide)
  refine .onKind fun k => ?_
  split <;> infer_instance

instance (noIn isBlockScoped : Bool) :
    Follows Anywhere own base (declarators noIn isBlockScoped) := by
  unfold declarators
  have hvalue : Follows Anywhere own base (do
      if ← eat .equals then
        let equalsIndex ← lastIndex
        reach (.assignment noIn false)
        markRhsEnd equalsIndex
      eat .comma) := by
    constructor
    intro env σ τ a henv hσ _ hrun
    obtain ⟨holds, υ, heat, hrest⟩ := bind_ok hrun
    rcases eat_ok heat with ⟨rfl, -, hnext⟩ | ⟨rfl, rfl⟩
    · obtain ⟨i, υ', hlast, hrest⟩ := bind_ok hrest
      obtain ⟨_, ρ, hvalue, hrest⟩ := bind_ok hrest
      obtain ⟨_, ρ', hmark, hcomma⟩ := bind_ok hrest
      exact (follows_eat (P := Anywhere) .comma).composed henv (composed_rhs henv hσ hnext hlast hvalue hmark)
        trivial hcomma
    · exact (follows_eat (P := Anywhere) .comma).composed henv hσ trivial hrest
  infer_instance

instance :
    Splits Anywhere own base (isAtAny [.number, .string, .bigint, .decimal]) AtPlain Anywhere where
  ifTrue {env σ τ} _ _ _ hrun := by
    obtain ⟨hkind, rfl⟩ := Prod.mk.inj (Except.ok.inj hrun)
    have hmem := List.contains_iff_mem.1 hkind
    simp only [List.mem_cons, List.not_mem_nil, or_false] at hmem
    rcases hmem with h | h | h | h <;> rw [AtPlain, h] <;> rfl
  ifFalse _ _ _ _ := trivial

instance (id : Nat) [IsOwn own id] : Follows Anywhere own base (propertyName id) := by
  unfold propertyName
  infer_instance

instance (id : Nat) [IsOwn own id] : Gives Anywhere own base (propertyName id) Loose := by
  unfold propertyName
  infer_instance

namespace TypeScript

/-! ## Types in TypeScript -/

instance follows_typeParameter : Follows Anywhere own base typeParameter := by
  unfold typeParameter
  refine .andThen fun _ => .onCond inferInstance (.onCond inferInstance ?_)
  simp only [Bool.or_self, Bool.false_and, Bool.false_eq_true, if_false]
  infer_instance

instance follows_typeParameters : Follows Anywhere own base typeParameters := by
  unfold typeParameters
  infer_instance

instance : Follows Anywhere own base indexSignature := by
  unfold indexSignature
  infer_instance

instance follows_primaryType : Follows Anywhere own base primaryType := by
  unfold primaryType
  refine .andThen fun k => ?_
  split <;> infer_instance

instance follows_type : Follows Anywhere own base type := by
  unfold type
  infer_instance

end TypeScript

namespace Flow

/-! ## Types in Flow -/

instance follows_typeParameter : Follows Anywhere own base typeParameter := by
  unfold typeParameter
  infer_instance

instance follows_typeParameters : Follows Anywhere own base typeParameters := by
  unfold typeParameters
  infer_instance

instance : Follows Anywhere own base member := by
  unfold member
  infer_instance

instance follows_primaryType : Follows Anywhere own base primaryType := by
  unfold primaryType
  refine .andThen fun _ => .andThen fun k => ?_
  split <;> infer_instance

instance follows_type : Follows Anywhere own base type := by
  unfold type
  infer_instance

end Flow

/-! ## Functions -/

instance (allowModifiers : Bool) (id : Nat) :
    Gives (Numbering id) own base (bindingList .parenClose false false allowModifiers id)
      (Stamping id) :=
  gives_bindingList _ _ _ _ _ (by decide)

instance (allowModifiers : Bool) :
    Follows Anywhere own base (functionParameters allowModifiers 0) :=
  .unnumbered inferInstance

instance (allowExpression : Bool) : Follows Anywhere own base (functionBody allowExpression 0) :=
  .unnumbered inferInstance

instance (functionStart : Nat) : Follows Anywhere own base (functionFinish functionStart 0) :=
  .unnumbered inferInstance

instance : Follows Anywhere own base arrow := by
  unfold arrow
  infer_instance

/-- The number of a method is given to its parentheses, its commas and its braces. -/
instance (functionStart : Nat) (isConstructor : Bool) :
    Follows Beyond own base (method functionStart isConstructor) := by
  unfold method
  infer_instance

/-! ## Lists of expressions -/

instance follows_callArguments : Follows Anywhere own base callArguments := by
  unfold callArguments
  infer_instance

instance : ClosedBy .parenClose callArguments := by
  unfold callArguments expressionList
  infer_instance

/-! ## Object literals and object patterns -/

/-- An object: its opening token and its closing brace carry its number, and so do its names. -/
theorem composed_object {env : Env} {isPattern isBlockScoped : Bool} (henv : env.Composes)
    (hσ : Composed env.source env.dialect own base σ) (hopens : σ.OpensObject)
    (hrun : object isPattern isBlockScoped env σ = .ok ((), τ)) :
    Composed env.source env.dialect own base τ := by
  obtain ⟨id, _, hfresh, hrun⟩ := bind_ok hrun
  obtain ⟨rfl, rfl⟩ := freshContext_ok hfresh
  obtain ⟨_, υ, hnext, hrun⟩ := bind_ok hrun
  obtain ⟨_, _, hmark, hrun⟩ := bind_ok hrun
  obtain rfl := setContext_ok hmark
  obtain ⟨_, ω, hloop, hmark⟩ := bind_ok hrun
  obtain rfl := setContext_ok hmark
  have hinside : Composed env.source env.dialect σ.nextContextId
      (υ.markLast (.numbered σ.nextContextId)) ω :=
    Follows.composed (P := Anywhere) henv (.stay _) trivial hloop
  cases herror : ω.error? with
  | none =>
    have hcloses := ClosedBy.closes (k := .braceClose) henv.walks hloop herror
    have hsize := hcloses.size_lt
    obtain ⟨e, he, hkind, hblank⟩ := hcloses.getLast?
    exact .object env.recur hσ hopens hnext hinside herror (by simpa using hsize) ⟨e, he, hkind, hblank⟩
  | some e =>
    have hopened : Composed env.source env.dialect own base υ :=
      (hσ.note σ.notes_issued).act .next env.recur trivial hnext
    have hsize := lt_of_next (hσ.toExtends.trans σ.extends_issued) hnext
    refine composed_numbered_lost _ (.lost hopened (State.amends_markLast hsize _) hinside ?_) ?_ herror
    · simp [herror]
    · exact Nat.lt_of_lt_of_le hsize (by simpa using hinside.toExtends.size_le)

instance (isPattern isBlockScoped : Bool) :
    Follows (At P .braceOpen) own base (object isPattern isBlockScoped) :=
  ⟨fun henv hσ hP hrun => composed_object henv hσ (.inl hP.2) hrun⟩

/-! ## Subscripts -/

instance follows_markSubscript (start : Nat) :
    Follows (Subscript start) own base (markSubscript start) where
  composed {env σ τ _} _ hσ hP hrun := by
    cases hrun
    cases herror : σ.error? with
    | none =>
      have hstart := hP.1 (hσ.toExtends.error herror)
      exact .subscript start hσ hP.2.1 (by have := hP.2.1; omega) hP.2.2
    | some e =>
      refine hσ.amend (State.amends_markLast hP.2.1 (.subscriptOf start)) ?_
      exact fun hnone => by cases herror.symm.trans hnone

/-- A call: its parentheses carry its number. -/
instance (start : Nat) : Follows (At (Started start) .parenOpen) own base (call start) where
  composed {env σ τ _} henv hσ hP hrun := by
    obtain ⟨_, υ, hnext, hrun⟩ := bind_ok hrun
    obtain ⟨_, ρ, hmark, hrun⟩ := bind_ok hrun
    obtain ⟨id, _, hfresh, hrun⟩ := bind_ok hrun
    obtain ⟨rfl, rfl⟩ := freshContext_ok hfresh
    obtain ⟨_, _, hopen, hrun⟩ := bind_ok hrun
    obtain rfl := setContext_ok hopen
    obtain ⟨_, ω, hlist, hclose⟩ := bind_ok hrun
    obtain rfl := setContext_ok hclose
    have hbehind : Subscript start base υ := (gives_next_started start .parenOpen).gives henv hσ hP hnext
    have hρ := (follows_markSubscript start).composed henv (hσ.act .next env.recur trivial hnext)
      hbehind hmark
    have heq : ρ = υ.markLast (.subscriptOf start) := by
      cases hmark
      rfl
    have hsize : base.tokens.size < ρ.tokens.size := by
      rw [heq, State.size_markLast]
      exact hbehind.2.1
    -- The parenthesis carries nothing but the mark of the subscript.
    have hparen : ∃ e, ρ.entries.getLast? = some e ∧ e.contextId? = none ∧ e.kind ≠ .classWord := by
      rw [heq, entries_consume (fun e => { e with subscriptStart? := some start }) (fun _ => rfl) hnext,
        List.getLast?_concat]
      exact ⟨_, rfl, rfl, by simp [hP.2]⟩
    have hstamp : Stamping ρ.nextContextId base ρ.issued :=
      ⟨numbering_issued hρ hsize, fun _ => hparen⟩
    have hopened := composed_numbered (hρ.note ρ.notes_issued) hsize hstamp
    have hstamp' := (gives_closed (k := .parenClose) (by decide) inferInstance).gives henv hopened
      (numbering_numbered hstamp) hlist
    have hω := follows_callArguments.composed henv hopened trivial hlist
    refine composed_numbered hω ?_ hstamp'
    have hgrown := extends_of_follows (fun _ => follows_callArguments) henv hlist
    exact Nat.lt_of_lt_of_le (by simpa using hsize) hgrown.size_le

instance (start : Nat) (noCalls : Bool) :
    Follows (Started start) own base (plainSubscript start noCalls) := by
  unfold plainSubscript
  refine .onKind fun k => ?_
  split <;> infer_instance

instance (start : Nat) (noCalls : Bool) :
    Follows (Started start) own base (typeScriptSubscript start noCalls) := by
  unfold typeScriptSubscript
  have hbang : Follows AtText own base (retype .nonNullAssertion) := follows_retype (by decide)
  have hcond : Splits (Started start) own base ((return !(← afterLineBreak)) <&&> isAt .bang) AtText
      (Started start) :=
    splits_isText (ensures_isAt_text (by decide)).right
  have hoptional : Splits (Started start) own base
      (pure !noCalls <&&> isAt .questionDot <&&> (return (← peekKind) == .less))
      (At (Started start) .questionDot) (Started start) :=
    splits_kind ((ensures_isAt .questionDot).left (keepsCurrent_peekKind (· == .less))).right
  infer_instance

instance (start : Nat) (noCalls : Bool) :
    Follows (Started start) own base (subscripts start noCalls) := by
  unfold subscripts
  infer_instance

namespace Element

/-! ## Elements -/

instance : Follows Anywhere own base name := by
  unfold name
  refine .andThen fun first => .andThen fun _ => .andThen fun hasDot => .andThen fun _ => ?_
  split
  · infer_instance
  · refine .andThen fun σ => ?_
    split <;> infer_instance

instance : Follows Anywhere own base attributeValue := by
  unfold attributeValue
  refine .andThen fun k => ?_
  split <;> infer_instance

instance : Follows Anywhere own base openingTag := by
  unfold openingTag
  infer_instance

instance : Follows Anywhere own base childOrClose := by
  unfold childOrClose
  refine .andThen fun failed => ?_
  split
  · infer_instance
  · refine .andThen fun k => ?_
    split <;> infer_instance

instance : Follows Anywhere own base element := by
  unfold element
  infer_instance

end Element

/-! ## Expressions -/

instance : Follows Anywhere own base operand := by
  unfold operand
  have htag : Follows AtText own base (retype .jsxTagStart) := follows_retype (by decide)
  have hless : Splits Anywhere own base (isAt .less <&&> (return (← read).dialect.jsx)) AtText
      Anywhere :=
    splits_isText ((ensures_isAt_text (by decide)).left fun _ _ _ _ hrun => by cases hrun; rfl)
  refine .andThen fun isIntrinsic => ?_
  split
  · infer_instance
  · refine .andThen fun isText => ?_
    split
    · infer_instance
    · refine .onCond inferInstance ?_
      refine .onState fun σ => ?_
      generalize σ.current.kind = k
      dsimp only
      split <;> infer_instance

/-- Whatever is read again after the first attempt starts with a parenthesis too. -/
instance (canBeArrow : Bool) : Lengthens (parenthesized canBeArrow) := by
  unfold parenthesized
  have hitems (σ : State) : Gives Anywhere 0 σ parenthesizedItems Past := .ofLengthens
  have hparameters (σ : State) : Gives Anywhere 0 σ (functionParameters false 0) Past := .ofLengthens
  exact .ofSnapshot

instance : Lengthens hashOperand := by
  unfold hashOperand privateOrPlainName
  infer_instance

instance (isPattern isBlockScoped : Bool) : Lengthens (object isPattern isBlockScoped) := by
  unfold object
  infer_instance

instance : Lengthens operand := by
  unfold operand
  refine .andThen fun isIntrinsic => ?_
  split
  · infer_instance
  · refine .andThen fun isText => ?_
    split
    · infer_instance
    · refine .andThen fun isElement => ?_
      split
      · infer_instance
      · refine .andThen fun σ => ?_
        dsimp only
        split <;> infer_instance

instance : Follows Anywhere own base callee := by
  unfold callee
  have hoperand (σ : State) : Gives Anywhere own σ operand Past := .ofLengthens
  exact .ofMark

instance : Follows Anywhere own base operandWithSubscripts := by
  unfold operandWithSubscripts
  have hoperand (σ : State) : Gives Anywhere own σ operand Past := .ofLengthens
  exact .ofMark

instance : Follows Anywhere own base unary := by
  unfold unary
  have hpostfix : Follows AtText own base (retype .postIncrement) := follows_retype (by decide)
  have hcond : Splits Anywhere own base (isAt .increment) AtText Anywhere :=
    splits_isText (ensures_isAt_text (by decide))
  infer_instance

instance : Lengthens unary := by
  unfold unary
  have hpostfix (σ : State) : Walks σ (retype .postIncrement) := walks_retype (by decide)
  infer_instance

theorem composed_rightOperand {env : Env} {υ ρ ω : State} {floor : Nat} {noIn : Bool}
    (henv : env.Composes) (hunary : reach .unary env υ = .ok ((), ρ))
    (hmore : reach (.operators υ.tokens.size floor noIn) env ρ = .ok ((), ω)) :
    Composed env.source env.dialect own υ ω := by
  have hρ : Composed env.source env.dialect own υ ρ :=
    (follows_reach (P := Anywhere) .unary).composed henv (.stay υ) trivial hunary
  exact (follows_reachOperators_past floor noIn).composed henv hρ
    (fun hnone => Lengthens.reachUnary.lt henv hunary hnone) hmore

theorem composed_coalesce {env : Env} {υ ω : State} {start : Nat}
    (hσ : Composed env.source env.dialect own base σ) (hP : Operand start base σ)
    (hkind : σ.current.kind = .nullish) (hnext : next env σ = .ok ((), υ))
    (hright : Composed env.source env.dialect own (υ.markLast (.nullishOf start)) ω) :
    Composed env.source env.dialect own base
      ((ω.modifyToken start .opensNullish).markLast .closesNullish) := by
  cases herror : σ.error? with
  | none => exact .coalesce start env.recur hσ hP.1 (hP.2 herror) hkind hnext hright
  | some e =>
    have hfailed : ω.error? ≠ none := fun hnone => by
      have hclear := (takes_of_next hnext).error (hright.toExtends.error hnone)
      cases herror.symm.trans hclear
    have hsize := lt_of_next hσ.toExtends hnext
    have hω : Composed env.source env.dialect own base ω :=
      .lost (hσ.act .next env.recur trivial hnext) (State.amends_markLast hsize _) hright hfailed
    have hopened := hω.amend (State.amends_modifyToken hP.1 ω .opensNullish) hfailed
    refine hopened.amend (State.amends_markLast ?_ .closesNullish) hfailed
    exact Nat.lt_of_lt_of_le hsize (by simpa using hright.toExtends.size_le)

/-- An operator with its right operand, and the operators after it. -/
def binaryOperators (start floor : Nat) (noIn : Bool) : Parse Unit := do
  let op ← kind
  let precedence := op.precedence
  if precedence > 0 && !(noIn && op == .inWord) && floor ≤ precedence then
    next
    if op == .nullish then annotateLast ({ · with nullishStart? := some start })
    let rhsStart ← tokenIndex
    reach .unary
    let rhsFloor := if op.isRightAssociative then precedence else precedence + 1
    reach (.operators rhsStart rhsFloor noIn)
    if op == .nullish then
      annotateAt start fun t => { t with nullishStarts := t.nullishStarts + 1 }
      annotateLast fun t => { t with nullishEnds := t.nullishEnds + 1 }
    reach (.operators start floor noIn)

theorem follows_binaryOperators (start floor : Nat) (noIn : Bool) :
    Follows (Operand start) own base (binaryOperators start floor noIn) where
  composed {env σ τ _} henv hσ hP hrun := by
    obtain ⟨op, _, hop, hrun⟩ := bind_ok hrun
    cases hop
    dsimp only at hrun
    split at hrun
    case isFalse =>
      cases hrun
      exact hσ
    case isTrue =>
      obtain ⟨_, υ, hnext, hrun⟩ := bind_ok hrun
      have hυ := hσ.act .next env.recur trivial hnext
      have hgrown (hnone : σ.error? = none) : start < υ.tokens.size :=
        Nat.lt_of_lt_of_le (hP.2 hnone) (takes_of_next hnext).grows.size
      by_cases hnullish : σ.current.kind = .nullish
      · simp only [beq_iff_eq, hnullish, if_true] at hrun
        obtain ⟨_, μ, hmark, hrun⟩ := bind_ok hrun
        obtain rfl : μ = υ.markLast (.nullishOf start) := by cases hmark; rfl
        obtain ⟨_, _, hindex, hrun⟩ := bind_ok hrun
        cases hindex
        obtain ⟨_, ρ, hunary, hrun⟩ := bind_ok hrun
        obtain ⟨_, ω, hmore, hrun⟩ := bind_ok hrun
        obtain ⟨_, _, hopen, hrun⟩ := bind_ok hrun
        obtain ⟨_, κ, hclose, hrest⟩ := bind_ok hrun
        obtain rfl : κ = (ω.modifyToken start .opensNullish).markLast .closesNullish := by
          cases hopen
          cases hclose
          rfl
        have hright : Composed env.source env.dialect own (υ.markLast (.nullishOf start)) ω :=
          composed_rightOperand henv hunary hmore
        refine (follows_reachOperators start floor noIn).composed henv
          (composed_coalesce hσ hP hnullish hnext hright) ⟨hP.1, fun hnone => ?_⟩ hrest
        have hclear := (takes_of_next hnext).error (hright.toExtends.error hnone)
        have hsize := hright.toExtends.size_le
        simp only [State.size_markLast, State.size_modifyToken] at hsize ⊢
        exact Nat.lt_of_lt_of_le (hgrown hclear) hsize
      · simp only [beq_iff_eq, hnullish, if_false] at hrun
        obtain ⟨_, _, hindex, hrun⟩ := bind_ok hrun
        cases hindex
        obtain ⟨_, ρ, hunary, hrun⟩ := bind_ok hrun
        obtain ⟨_, ω, hmore, hrest⟩ := bind_ok hrun
        have hright : Composed env.source env.dialect own υ ω :=
          composed_rightOperand henv hunary hmore
        refine (follows_reachOperators start floor noIn).composed henv (hυ.trans hright)
          ⟨hP.1, fun hnone => ?_⟩ hrest
        have hclear := (takes_of_next hnext).error (hright.toExtends.error hnone)
        exact Nat.lt_of_lt_of_le (hgrown hclear) hright.toExtends.size_le

instance (start floor : Nat) (noIn : Bool) :
    Follows (Operand start) own base (operators start floor noIn) := by
  have hbinary : Follows (Operand start) own base (binaryOperators start floor noIn) :=
    follows_binaryOperators start floor noIn
  unfold operators
  unfold binaryOperators at hbinary
  infer_instance

instance (noIn : Bool) : Follows Anywhere own base (conditional noIn) := by
  unfold conditional
  have hunary (σ : State) : Gives Anywhere own σ unary Past := .ofLengthens
  exact .ofMark

instance (noIn inParens : Bool) : Follows Anywhere own base (assignment noIn inParens) := by
  unfold assignment
  have hstart (σ : State) : Follows (At Anywhere .less) own σ (retype .typeParameterStart) :=
    follows_retype_at (by decide) (by decide)
  have hless : Splits Anywhere own base (isTyped <&&> isAt .less) (At Anywhere .less) Anywhere :=
    splits_kind (ensures_isAt .less).right
  exact .andThen fun _ => .onCond (.snapshotAt inferInstance) inferInstance

instance (noIn : Bool) : Follows Anywhere own base (expression noIn) := by
  unfold expression
  infer_instance

end PlainScript.Grammar
