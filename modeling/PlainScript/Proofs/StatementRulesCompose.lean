import PlainScript.Proofs.ExpressionRulesCompose

/-!
# Classes and statements compose

The word of a class, its braces and the names of its members carry the number of the class. A member is
read as a part of the class, so its name may be given that number.

With the rules for declarations, modules and statements all rules of the grammar compose. Since a goal
is met by its rule, meeting goals to any depth leaves behind what `Composed` describes.
-/

namespace PlainScript.Grammar

open Parse

-- Counted once for each branch.
set_option synthInstance.maxSize 1000000000000000000000000000000

variable {base σ τ : State} {own : Nat}

/-! ## Members -/

instance : Follows Anywhere own base classField := by
  unfold classField
  have hmark := @Follows.ofMark base own Unit Anywhere
  infer_instance

section

variable (memberStart id : Nat) [IsOwn own id]

end

instance follows_classBody (id : Nat) [IsOwn own id] : Follows Anywhere own base (classBody id) := by
  unfold classBody
  infer_instance

/-! ## Heads -/

instance follows_classHead (isStatement optionalName : Bool) :
    Follows Anywhere own base (classHead isStatement optionalName) := by
  unfold classHead
  infer_instance

instance follows_classHeritage : Follows Anywhere own base classHeritage := by
  unfold classHeritage
  infer_instance

/-! ## Classes -/

/-- The body of a class without an error: it starts with a brace and ends with one. -/
theorem classBody_ok {env : Env} {id : Nat} (henv : env.Composes)
    (hrun : classBody id env σ = .ok ((), τ)) (hnone : τ.error? = none) :
    ∃ υ, σ.current.kind = .braceOpen ∧ next env σ = .ok ((), υ) ∧
      Composed env.source env.dialect id υ τ ∧ ClosesWith env .braceClose υ τ := by
  obtain ⟨_, υ, hexpect, hloop⟩ := bind_ok hrun
  have hmembers : Composed env.source env.dialect id υ τ :=
    Follows.composed (P := Anywhere) henv (.stay υ) trivial hloop
  obtain ⟨eaten, ρ, heat, hrest⟩ := bind_ok hexpect
  rcases eat_ok heat with ⟨rfl, hkind, hnext⟩ | ⟨rfl, rfl⟩
  · cases hrest
    exact ⟨υ, hkind, hnext, hmembers, ClosedBy.closes henv.walks hloop hnone⟩
  · exact absurd (hmembers.toExtends.error hnone) (fail_ok hrest).2

/-- The word of a class carries its number, and whether the class is an expression. -/
theorem notes_classWord (σ : State) (id : Nat) (isExpression : Bool) :
    (σ.markLast (.numbered id)).Notes
      (σ.modifyToken (σ.tokens.size - 1) fun t => { t with contextId? := some id, isExpression }) where
  current := rfl
  error := rfl
  spans := by rw [State.markLast, State.spans_modifyToken, State.spans_modifyToken]
  entries := by
    rw [State.markLast, State.entries_modifyToken σ _ (fun e => { e with contextId? := some id }) fun _ => rfl,
      State.entries_modifyToken σ _ (fun e => { e with contextId? := some id }) fun _ => rfl]
  nextId := Nat.le_refl _

/-- A class from after its `class` word on, with the scope of a class expression open. -/
def classRest (isStatement optionalName : Bool) (id nameStart : Nat) : Parse Unit := do
  classHead isStatement optionalName
  classHeritage
  let openBrace ← tokenIndex
  classBody id
  unless ← hasError do
    annotateAt openBrace ({ · with contextId? := some id })
    setContext id
    unless isStatement do
      closeScope nameStart false

theorem composed_classRest {env : Env} {υ κ : State} {isStatement optionalName : Bool} {nameStart : Nat}
    (henv : env.Composes) (hσ : Composed env.source env.dialect own base σ)
    (hnext : next env σ.issued = .ok ((), υ))
    (hκ : (υ.markLast (.numbered σ.nextContextId)).Notes κ)
    (hrun : classRest isStatement optionalName σ.nextContextId nameStart env κ = .ok ((), τ)) :
    Composed env.source env.dialect own base τ := by
  obtain ⟨_, χ, hhead, hrun⟩ := bind_ok hrun
  obtain ⟨_, φ, hheritage, hrun⟩ := bind_ok hrun
  obtain ⟨openBrace, _, hindex, hrun⟩ := bind_ok hrun
  cases hindex
  obtain ⟨_, ω, hbody, hrun⟩ := bind_ok hrun
  obtain ⟨failed, _, hfailed, hrun⟩ := bind_ok hrun
  cases hfailed
  have hφ (own : Nat) : Composed env.source env.dialect own
      (υ.markLast (.numbered σ.nextContextId)) φ := by
    have hχ : Composed env.source env.dialect own (υ.markLast (.numbered σ.nextContextId)) χ :=
      (follows_classHead isStatement optionalName).composed henv ((Composed.stay _).note hκ) trivial hhead
    exact follows_classHeritage.composed henv hχ trivial hheritage
  cases herror : ω.error? with
  | none =>
    rw [herror] at hrun
    obtain ⟨_, _, hopen, hrun⟩ := bind_ok hrun
    obtain ⟨_, κ', hclose, hscope⟩ := bind_ok hrun
    obtain rfl : κ' = (ω.modifyToken φ.tokens.size (.numbered σ.nextContextId)).markLast
        (.numbered σ.nextContextId) := by
      cases hopen
      cases hclose
      rfl
    obtain ⟨ψ, hkind, hbrace, hmembers, hcloses⟩ := classBody_ok henv hbody herror
    have hclosed : ω.HasClosed := hcloses.getLast?
    refine .note (.classDefinition env.recur hσ hnext (hφ 0) hkind hbrace hmembers herror hcloses.size_lt
      hclosed) ?_
    exact Noting.notes henv hscope
  | some e =>
    rw [herror] at hrun
    cases hrun
    have hopened := (hσ.note σ.notes_issued).act .next env.recur trivial hnext
    have hsize := lt_of_next (hσ.toExtends.trans σ.extends_issued) hnext
    have hω := (follows_classBody σ.nextContextId).composed henv (hφ σ.nextContextId) trivial hbody
    exact .lost hopened (State.amends_markLast hsize _) hω (by simp [herror])

instance (isStatement optionalName : Bool) :
    Follows Anywhere own base (classDefinition isStatement optionalName) where
  composed {env σ τ _} henv hσ _ hrun := by
    obtain ⟨id, _, hfresh, hrun⟩ := bind_ok hrun
    obtain ⟨rfl, rfl⟩ := freshContext_ok hfresh
    obtain ⟨_, υ, hnext, hrun⟩ := bind_ok hrun
    obtain ⟨_, μ, hword, hrun⟩ := bind_ok hrun
    cases hword
    obtain ⟨nameStart, _, hindex, hrun⟩ := bind_ok hrun
    cases hindex
    have hnote := notes_classWord υ σ.nextContextId (!isStatement)
    cases isStatement with
    | true => exact composed_classRest henv hσ hnext hnote hrun
    | false =>
      obtain ⟨_, κ, hscope, hrun⟩ := bind_ok hrun
      exact composed_classRest henv hσ hnext (hnote.trans (noting_openScope.notes henv hscope)) hrun

namespace TypeScript

/-! ## Declarations in TypeScript -/

instance : Follows Anywhere own base importEquals := by
  unfold importEquals
  infer_instance

instance (word : SoftKeyword) : Follows Anywhere own base (declaration word true) := by
  unfold declaration
  refine .andThen fun here => .andThen fun last? => .andThen fun σ => ?_
  dsimp only
  split <;> infer_instance

instance (word : SoftKeyword) : Follows Loose own base (declaration word false) := by
  unfold declaration
  refine .andThen fun here => .andThen fun last? => .andThen fun σ => ?_
  dsimp only
  split <;> infer_instance

instance follows_ambientDeclaration : Follows Anywhere own base ambientDeclaration := by
  unfold ambientDeclaration
  refine .andThen fun isEnded => ?_
  split
  · infer_instance
  · refine .andThen fun k => ?_
    split <;> infer_instance

/-- The word `declare` is still where it was when the declaration after it has been read. -/
theorem composed_declare {env : Env} {υ : State} {i : Nat} {isDeclaration : Bool} (henv : env.Composes)
    (hσ : Composed env.source env.dialect own base σ) (hP : Worded base σ)
    (hlast : lastIndex env σ = .ok (i, υ)) (hrun : ambientDeclaration env υ = .ok (isDeclaration, τ)) :
    Composed env.source env.dialect own base (τ.modifyToken i (.ofKind .declareModifier)) := by
  obtain ⟨hsize, e, he, hkind⟩ := hP
  unfold lastIndex at hlast
  obtain ⟨count, _, hcount, hpure⟩ := bind_ok hlast
  cases hcount
  rw [← Nat.sub_one_add_one (Nat.ne_of_gt (Nat.zero_lt_of_lt hsize))] at hpure
  cases hpure
  have hτ := follows_ambientDeclaration.composed henv hσ trivial hrun
  have hkept := extends_of_follows (fun _ => follows_ambientDeclaration) henv hrun
  refine .rekind _ _ hτ (Nat.le_sub_one_of_lt hsize) ⟨e, ?_, .inl hkind⟩ rfl
  rw [hkept.getElem? (Nat.sub_one_lt (Nat.ne_of_gt (Nat.zero_lt_of_lt hsize))), ← he,
    List.getLast?_eq_getElem?, State.length_entries]

instance follows_identifierDeclaration (word : SoftKeyword) :
    Follows Worded own base (identifierDeclaration word) := by
  unfold identifierDeclaration
  split
  · constructor
    intro env σ τ isDeclaration henv hσ hP hrun
    obtain ⟨i, υ, hlast, hrun⟩ := bind_ok hrun
    obtain ⟨isDeclaration, ρ, hambient, hrun⟩ := bind_ok hrun
    cases isDeclaration with
    | true =>
      obtain ⟨_, _, hmark, hpure⟩ := bind_ok hrun
      cases hmark
      cases hpure
      exact composed_declare henv hσ hP hlast hambient
    | false =>
      cases hrun
      exact follows_ambientDeclaration.composed henv
        (hσ.note (noting_lastIndex.notes henv hlast)) trivial hambient
  · infer_instance
  · infer_instance

instance follows_exportDefault : Follows Anywhere own base exportDefault := by
  unfold exportDefault
  have habstract : Follows AtText own base (retype .abstractModifier) := follows_retype (by decide)
  have hcond : Splits Anywhere own base
      (spells .abstractName <&&> (return (← peekKind) == .classWord)) AtText Anywhere :=
    splits_isText ((ensures_spells (by decide)).left (keepsCurrent_peekKind (· == .classWord)))
  infer_instance

end TypeScript

namespace Flow

/-! ## Declarations in Flow -/

/-- The `export` is consumed before the clause after it is read. -/
instance : Follows (At Anywhere .exportWord) own base declareExport := by
  refine .ofEntry fun σ => ?_
  unfold declareExport
  infer_instance

instance : Follows Anywhere own base declare := by
  unfold declare
  refine .onKind fun k => ?_
  have hexport : Follows (At Anywhere k) own base
      (if (k == .exportWord) = true then declareExport else unexpected) := by
    split
    case isTrue h =>
      cases eq_of_beq h
      infer_instance
    case isFalse => infer_instance
  split <;> infer_instance

instance : Follows Anywhere own base interfaceStatement := by
  unfold interfaceStatement
  infer_instance

instance follows_identifierDeclaration (word : SoftKeyword) :
    Follows Anywhere own base (identifierDeclaration word) := by
  unfold identifierDeclaration
  refine .andThen fun k => ?_
  extract_lets rule?
  have hrule : ∀ rule, rule? = some rule → Follows Anywhere own base rule := by
    intro rule h
    unfold rule? at h
    split at h
    case h_5 => cases h
    all_goals
      split at h
      · cases h
        infer_instance
      · cases h
  clear_value rule?
  cases rule? with
  | none => infer_instance
  | some rule =>
    have := hrule rule rfl
    infer_instance

end Flow

/-! ## Imports and exports -/

instance (clause : ClauseKind) : Follows Anywhere own base (typedSpecifier clause) := by
  unfold typedSpecifier
  refine .andThen fun start => .andThen fun _ => .andThen fun words => ?_
  extract_lets shape
  refine .andThen fun stop => ?_
  extract_lets mark
  have hmark : ∀ r, Noting (mark r) := by
    intro r
    refine @Obeys.bind _ _ _ _ _ _ _ (@Obeys.forIn _ _ _ _ _ _ _ _ fun place _ => ?_) _
    split <;> infer_instance
  clear_value mark
  infer_instance

theorem ensures_attributes :
    Ensures (fun l => l.kind = .withWord ∨ l.keyword = .assertName)
      (isAt .withWord <||> (isAtName .assertName <&&> (return !(← afterLineBreak)))) := by
  intro env σ τ hrun
  obtain ⟨isWith, υ, hwith, hrest⟩ := bind_ok hrun
  cases isWith with
  | true =>
    cases hrest
    exact .inl (ensures_isAt _ hwith)
  | false =>
    obtain ⟨isAssert, ρ, hassert, hrest⟩ := bind_ok hrest
    cases isAssert with
    | false => cases hrest
    | true =>
      obtain ⟨isName, κ, hname, hword⟩ := bind_ok hassert
      cases isName with
      | false => cases hword
      | true =>
        have hkeyword := (Prod.mk.inj (Except.ok.inj hword)).1
        have hκ := (Prod.mk.inj (Except.ok.inj hword)).2
        have hρ := (Prod.mk.inj (Except.ok.inj hrest)).2
        rw [← hρ, ← hκ]
        exact .inr (beq_iff_eq.1 hkeyword)

/-- What follows `with` or `assert` is read as an object, whatever it starts with. -/
instance : Follows Anywhere own base importAttributes where
  composed {env σ τ _} henv hσ _ hrun := by
    obtain ⟨holds, υ, hcond, hrun⟩ := bind_ok hrun
    have hυ : Composed env.source env.dialect own base υ :=
      hσ.note (Noting.notes henv hcond)
    cases holds with
    | false =>
      cases hrun
      exact hυ
    | true =>
      obtain ⟨_, ρ, hnext, hobject⟩ := bind_ok hrun
      have hword : υ.current.kind = .withWord ∨ υ.current.keyword = .assertName :=
        ensures_attributes hcond
      refine composed_object henv (hυ.act .next env.recur trivial hnext) ?_ hobject
      exact .inr ⟨_, by rw [entries_of_next hnext, List.getLast?_concat], hword⟩

instance follows_exportDefault : Follows Anywhere own base exportDefault := by
  unfold exportDefault
  infer_instance

instance follows_exportBody : Follows Anywhere own base exportBody := by
  unfold exportBody
  infer_instance

/-- The `export` before a clause records where the clause ends. -/
instance follows_exportClause : Follows Single own base exportClause where
  composed {env σ τ _} henv hσ hP hrun := by
    obtain ⟨_, _, hindex, hrun⟩ := bind_ok hrun
    cases hindex
    obtain ⟨_, ω, hbody, hmark⟩ := bind_ok hrun
    have hω := follows_exportBody.composed henv hσ trivial hbody
    have hgrown := extends_of_follows (fun _ => follows_exportBody) henv hbody
    rw [← hP, Nat.add_sub_cancel] at hmark
    exact follows_markRhsEnd.composed henv hω
      (Nat.lt_of_lt_of_le (Nat.lt_of_succ_le (Nat.le_of_eq hP)) hgrown.size_le) hmark

instance (priority := high) {α : Type} (f : Unit → Parse α)
    [hf : ∀ a, Follows Anywhere own base (f a)] :
    Follows Anywhere own base (do next; f (← exportClause)) where
  composed {env σ τ _} henv hσ _ hrun := by
    obtain ⟨_, υ, hnext, hrun⟩ := bind_ok hrun
    obtain ⟨_, ω, hclause, hrest⟩ := bind_ok hrun
    have hω : Composed env.source env.dialect own σ ω := follows_exportClause.composed henv
      ((Composed.stay σ).act .next env.recur trivial hnext) (size_of_next hnext).symm hclause
    exact (hf _).composed henv (hσ.trans hω) trivial hrest

instance : Follows Beyond own base importClause := by
  unfold importClause
  infer_instance

/-! ## Statements -/

instance follows_blockBody (close : TokenKind) : Follows Anywhere own base (blockBody close) := by
  unfold blockBody
  infer_instance

instance (close : TokenKind) : ClosedBy close (blockBody close) := by
  unfold blockBody
  infer_instance

instance (id : Nat) : Gives (Numbering id) own base (blockBody .braceClose) (Stamping id) :=
  gives_closed (k := .braceClose) (by decide) inferInstance

instance (isFunction : Bool) (id : Nat) :
    Follows (Numbering id) own base (block isFunction id) := by
  unfold block
  infer_instance

instance (isFunction : Bool) : Follows Anywhere own base (block isFunction 0) :=
  .unnumbered inferInstance

instance (declaration : Bool) : Follows Anywhere own base (keywordStatement declaration) := by
  unfold keywordStatement
  refine .andThen fun k => ?_
  split <;> infer_instance

/-- A lone identifier may be the word of a declaration. -/
instance : Follows Anywhere own base expressionStatement where
  composed {env σ τ _} henv hσ _ hrun := by
    obtain ⟨_, _, hindex, hrun⟩ := bind_ok hrun
    cases hindex
    obtain ⟨_, υ, hexpression, hrun⟩ := bind_ok hrun
    obtain ⟨_, _, hindex, hrun⟩ := bind_ok hrun
    cases hindex
    obtain ⟨_, _, hlast, hrun⟩ := bind_ok hrun
    cases hlast
    have hυ := (follows_reach (P := Anywhere) _).composed henv hσ trivial hexpression
    cases hback : υ.tokens.back? with
    | none =>
      rw [hback] at hrun
      exact (follows_semicolon (P := Anywhere)).composed henv hυ trivial hrun
    | some token =>
      rw [hback] at hrun
      dsimp only at hrun
      split at hrun
      case isFalse => exact (follows_semicolon (P := Anywhere)).composed henv hυ trivial hrun
      case isTrue h =>
        simp only [Bool.and_eq_true, beq_iff_eq] at h
        have hlast : υ.entries.getLast? = some token.entry := by
          rw [State.entries, List.getLast?_map, Array.getLast?_toList, hback]
          rfl
        have hworded : Worded base υ := by
          refine ⟨?_, token.entry, hlast, ?_⟩
          · have hle := hσ.toExtends.size_le
            omega
          · change token.kind.isStructural = false
            rw [h.2]
        exact Follows.composed henv hυ hworded hrun

instance (declaration : Bool) : Follows Anywhere own base (statement declaration) := by
  unfold statement
  infer_instance

/-! ## All rules -/

/-- The rule of a goal that may be set. -/
theorem composed_rule {env : Env} {g : Goal} {b : Bool} (henv : env.Composes)
    (hσ : Composed env.source env.dialect own base σ) (hfits : g.Fits env.source env.dialect own base σ)
    (hrun : rule g env σ = .ok (b, τ)) : Composed env.source env.dialect own base τ := by
  cases g
  case operators start floor noIn =>
    have hrule : Follows (Operand start) own base (rule (.operators start floor noIn)) := by
      unfold rule
      infer_instance
    exact hrule.composed henv hσ hfits hrun
  case subscripts start noCalls =>
    have hrule : Follows (Started start) own σ (rule (.subscripts start noCalls)) := by
      unfold rule
      infer_instance
    exact hσ.trans (hrule.composed henv (.stay σ) hfits hrun)
  case block isFunction id =>
    have hrule : Follows (Numbering id) own base (rule (.block isFunction id)) := by
      unfold rule
      infer_instance
    exact hrule.composed henv hσ hfits hrun
  case object isPattern isBlockScoped =>
    obtain ⟨_, υ, hobject, hpure⟩ := bind_ok hrun
    cases hpure
    exact composed_object henv hσ hfits hobject
  case importClause =>
    have hrule : Follows Beyond own base (rule .importClause) := by
      unfold rule
      infer_instance
    exact hrule.composed henv hσ hfits hrun
  case exportClause =>
    obtain ⟨μ, hμ, hafter, hsize⟩ := hfits
    have hrule : Follows Single own μ (rule .exportClause) := by
      unfold rule
      infer_instance
    exact hμ.trans (hrule.composed henv hafter hsize hrun)
  all_goals
    unfold rule at hrun
    exact Follows.composed (P := Anywhere) henv hσ trivial hrun

theorem lengthens_rule {g : Goal} (hg : g.lengthens = true) : Lengthens (rule g) := by
  cases g <;> cases hg <;> (unfold rule; infer_instance)

theorem meet_composes (s : Source) (d : Dialect) (n : Nat) : Env.Composes ⟨s, d, meet s d n⟩ := by
  induction n with
  | zero =>
    refine ⟨meet_walks s d 0, ?_, ?_⟩
    · intro g own base σ τ b _ _ hrun
      cases hrun
    · intro g σ τ b _ hrun
      cases hrun
  | succ n ih =>
    refine ⟨meet_walks s d (n + 1), ?_, ?_⟩
    · intro g own base σ τ b hσ hfits hrun
      have hτ := composed_rule ih hσ hfits hrun
      exact hτ
    · intro g σ τ b hg hrun hnone
      have hlt := (lengthens_rule hg).lt ih hrun hnone
      exact hlt

/-! ## Whole files -/

variable {s : Source} {d : Dialect}

/-- What a parse leaves behind after it has read its first lexeme. The last token it consumes is the end
of the text. -/
theorem composed_of_parse (h : parse s d = .ok τ) :
    ∃ σ ω recur, readCode ⟨s, d, recur⟩ {} = .ok ((), σ) ∧ Composed s d 0 σ ω ∧
      (ω.error? = none → ClosesWith ⟨s, d, recur⟩ .eof σ ω) ∧ τ = ω.addScope 0 true := by
  obtain ⟨_, hfile⟩ := file_of_parse h
  obtain ⟨_, σ, hread, hrest⟩ := bind_ok hfile
  obtain ⟨_, ω, hbody, hscope⟩ := bind_ok hrest
  cases hscope
  have henv := meet_composes s d
  have hω : Composed s d 0 σ ω := (follows_blockBody .eof).composed (henv _) (.stay σ) trivial hbody
  have hcloses : ClosedBy .eof (blockBody .eof) := by
    unfold blockBody
    infer_instance
  exact ⟨σ, ω, _, hread, hω, hcloses.closes (henv _).walks hbody, rfl⟩

/-- The tokens of a file are what has been composed from nothing. -/
theorem exists_composed_of_ofSource {f : AnnotatedFile} (h : AnnotatedFile.ofSource s d = .ok f) :
    ∃ σ τ env, σ.tokens = #[] ∧ σ.nextContextId = 1 ∧ Composed s d 0 σ τ ∧ τ.error? = none ∧
      ClosesWith env .eof σ τ ∧ f.tokens = τ.tokens := by
  rw [AnnotatedFile.ofSource] at h
  split at h
  case isTrue => cases h
  case isFalse =>
    split at h
    case h_1 => cases h
    case h_2 final hparse =>
      split at h
      case h_1 => cases h
      case h_2 hnone =>
        cases h
        obtain ⟨σ, ω, recur, hread, hω, hcloses, rfl⟩ := composed_of_parse hparse
        have hrecord := readCode_record hread
        exact ⟨σ, ω, _, congrArg Prod.fst hrecord, congrArg (·.2.2) hrecord, hω, hnone, hcloses hnone,
          rfl⟩

end PlainScript.Grammar
