import PlainScript.Proofs.Primitives

/-!
# What a rule of the grammar can do to the state

Every rule changes the state through a few actions that read or consume lexemes, through annotations
that leave all lexemes where they are, by closing a scope that it has opened, and by going back to a
state it has been in. `Reaches` is the relation between states that these four generate, and `Walks`
says that a rule never leaves it. An invariant of the parser is then a property of the actions, shown
without looking at any rule.

A rule may go back to the state in which it was entered, or to one it has saved itself. `Walks` is told
the state it may go back to. A scope reaches from a state that the rule has been in to the current one,
and never closes empty: `Opens` and `Closes` describe a rule from the state that a scope starts at up to
its end.
-/

namespace PlainScript

namespace Grammar

/-- The actions that read or consume lexemes. -/
inductive Action where
  | fail (cause : SyntaxError.Cause) (pos : Nat)
  /-- The end of the text and a left shift are only ever read. -/
  | retype (kind : TokenKind) (h : kind ≠ .eof ∧ kind ≠ .shiftLeft)
  | next
  | nextInTemplate
  | nextInTag
  | nextInElement
  | rereadGreater
  | splitShiftLeft
  /-- Reads the current slash again as a regular expression and consumes that. -/
  | nextRegexp

/-- Performs an action. -/
def Action.perform : Action → Parse Unit
  | .fail cause pos => Parse.fail cause pos
  | .retype kind _ => Parse.retype kind
  | .next => Parse.next
  | .nextInTemplate => Parse.nextInTemplate
  | .nextInTag => Parse.nextInTag
  | .nextInElement => Parse.nextInElement
  | .rereadGreater => Parse.rereadGreater
  | .splitShiftLeft => Parse.splitShiftLeft
  | .nextRegexp => do
    Parse.rereadRegexp
    Parse.next

/-- An annotation: it leaves a token where it stands. -/
class KeepsSpan (f : Token → Token) : Prop where
  start (t : Token) : (f t).start = t.start
  stop (t : Token) : (f t).stop = t.stop

/-- Whatever else is recorded on a token, its start and its stop are kept. -/
instance (kind : Token → TokenKind) (keyword : Token → SoftKeyword) (depth : Token → Nat)
    (isType : Token → Bool) (role? : Token → Option IdentifierRole) (shadows : Token → Bool)
    (contextId? rhsEnd? : Token → Option Nat) (isExpression : Token → Bool)
    (nullishStarts nullishEnds : Token → Nat) (isChainStart isChainEnd : Token → Bool)
    (subscriptStart? nullishStart? : Token → Option Nat) :
    KeepsSpan fun t => ⟨⟨kind t, keyword t, t.start, t.stop⟩, depth t, isType t, role? t, shadows t,
      contextId? t, rhsEnd? t, isExpression t, nullishStarts t, nullishEnds t, isChainStart t,
      isChainEnd t, subscriptStart? t, nullishStart? t⟩ where
  start _ := rfl
  stop _ := rfl

/-- An annotation that leaves the end of a right-hand side alone. -/
class KeepsRhsEnd (f : Token → Token) : Prop where
  rhsEnd (t : Token) : (f t).rhsEnd? = t.rhsEnd?

instance (lexeme : Token → Lexeme) (depth : Token → Nat) (isType : Token → Bool)
    (role? : Token → Option IdentifierRole) (shadows : Token → Bool)
    (contextId? : Token → Option Nat) (isExpression : Token → Bool)
    (nullishStarts nullishEnds : Token → Nat) (isChainStart isChainEnd : Token → Bool)
    (subscriptStart? nullishStart? : Token → Option Nat) :
    KeepsRhsEnd fun t => ⟨lexeme t, depth t, isType t, role? t, shadows t, contextId? t, t.rhsEnd?,
      isExpression t, nullishStarts t, nullishEnds t, isChainStart t, isChainEnd t,
      subscriptStart? t, nullishStart? t⟩ where
  rhsEnd _ := rfl

namespace State

/-- Where the consumed tokens start and stop. -/
def spans (σ : State) : List (Nat × Nat) := σ.tokens.toList.map fun t => (t.start, t.stop)

/-- The states differ in annotations only: in what is known about tokens and scopes, and not in
where lexemes stand. -/
structure SameLexemes (σ τ : State) : Prop where
  current : τ.current = σ.current
  error : τ.error? = σ.error?
  spans : τ.spans = σ.spans

theorem spans_modifyToken (σ : State) (i : Nat) (f : Token → Token) [hf : KeepsSpan f] :
    (σ.modifyToken i f).spans = σ.spans := by
  apply List.ext_getElem?
  intro k
  simp only [spans, modifyToken, Array.toList_modify, List.getElem?_map, List.getElem?_modify]
  split
  · cases σ.tokens.toList[k]? with
    | none => rfl
    | some t => simp [hf.start, hf.stop]
  · simp

theorem spans_markTypes (σ : State) (start stop : Nat) : (σ.markTypes start stop).spans = σ.spans := by
  apply List.ext_getElem?
  intro k
  simp only [spans, markTypes, Array.toList_mapIdx, List.getElem?_map, List.getElem?_mapIdx]
  cases σ.tokens.toList[k]? with
  | none => rfl
  | some t => simp only [Option.map_some]; split <;> rfl

/-- A right-hand side ends behind the token that it is recorded on. -/
def RhsEndsFollow (σ : State) : Prop :=
  ∀ (i : Nat) (t : Token) (e : Nat), σ.tokens[i]? = some t → t.rhsEnd? = some e → i < e

theorem RhsEndsFollow.of_tokens {σ τ : State} (h : σ.RhsEndsFollow)
    (htokens : ∀ (i : Nat) (t : Token), τ.tokens[i]? = some t →
      (∃ u : Token, σ.tokens[i]? = some u ∧ u.rhsEnd? = t.rhsEnd?) ∨
        ∀ e, t.rhsEnd? = some e → i < e) :
    τ.RhsEndsFollow := by
  intro i t e ht he
  rcases htokens i t ht with ⟨u, hu, hsame⟩ | hnew
  · exact h i u e hu (hsame.trans he)
  · exact hnew e he

theorem RhsEndsFollow.modifyToken {σ : State} (h : σ.RhsEndsFollow) (i : Nat) (f : Token → Token)
    [hf : KeepsRhsEnd f] : (σ.modifyToken i f).RhsEndsFollow := by
  refine h.of_tokens fun k t ht => .inl ?_
  simp only [State.modifyToken, Array.getElem?_modify] at ht
  split at ht
  · obtain ⟨u, hu, rfl⟩ := Option.map_eq_some_iff.1 ht
    exact ⟨u, hu, (hf.rhsEnd u).symm⟩
  · exact ⟨t, ht, rfl⟩

/-- The right-hand side of a token ends at the current lexeme. -/
theorem RhsEndsFollow.markRhsEnd {σ : State} (h : σ.RhsEndsFollow) (i : Nat) :
    (σ.modifyToken i ({ · with rhsEnd? := some σ.tokens.size })).RhsEndsFollow := by
  refine h.of_tokens fun k t ht => ?_
  simp only [State.modifyToken, Array.getElem?_modify] at ht
  split at ht
  case isTrue hk =>
    obtain ⟨u, hu, rfl⟩ := Option.map_eq_some_iff.1 ht
    refine .inr fun e he => ?_
    cases he
    exact (Array.getElem?_eq_some_iff.1 hu).1
  case isFalse => exact .inl ⟨t, ht, rfl⟩

theorem RhsEndsFollow.markTypes {σ : State} (h : σ.RhsEndsFollow) (start stop : Nat) :
    (σ.markTypes start stop).RhsEndsFollow := by
  refine h.of_tokens fun k t ht => .inl ?_
  simp only [State.markTypes, Array.getElem?_mapIdx] at ht
  obtain ⟨u, hu, rfl⟩ := Option.map_eq_some_iff.1 ht
  refine ⟨u, hu, ?_⟩
  split <;> rfl

/-- Something is recorded about tokens, and neither lexemes nor scopes change. -/
structure Annotates (σ τ : State) : Prop extends SameLexemes σ τ where
  scopes : τ.scopes = σ.scopes
  rhsEnds : σ.RhsEndsFollow → τ.RhsEndsFollow

theorem annotates_modifyToken (σ : State) (i : Nat) (f : Token → Token) [KeepsSpan f]
    [KeepsRhsEnd f] : σ.Annotates (σ.modifyToken i f) where
  current := rfl
  error := rfl
  spans := σ.spans_modifyToken i f
  scopes := rfl
  rhsEnds h := h.modifyToken i f

/-- Nothing is recorded about tokens. -/
theorem Annotates.of_tokens {σ τ : State} (hcurrent : τ.current = σ.current)
    (herror : τ.error? = σ.error?) (htokens : τ.tokens = σ.tokens) (hscopes : τ.scopes = σ.scopes) :
    σ.Annotates τ where
  current := hcurrent
  error := herror
  spans := by rw [spans, spans, htokens]
  scopes := hscopes
  rhsEnds h := by
    unfold RhsEndsFollow
    rw [htokens]
    exact h

theorem annotates_markRhsEnd (σ : State) (i : Nat) :
    σ.Annotates (σ.modifyToken i ({ · with rhsEnd? := some σ.tokens.size })) where
  current := rfl
  error := rfl
  spans := σ.spans_modifyToken i _
  scopes := rfl
  rhsEnds h := h.markRhsEnd i

theorem annotates_markTypes (σ : State) (start stop : Nat) :
    σ.Annotates (σ.markTypes start stop) where
  current := rfl
  error := rfl
  spans := σ.spans_markTypes start stop
  scopes := rfl
  rhsEnds h := h.markTypes start stop

/-- The state with a scope that starts at a token and stops here. -/
def addScope (σ : State) (start : Nat) (isFunction : Bool) : State :=
  { σ with scopes := σ.scopes.push ⟨start, σ.tokens.size, isFunction⟩ }

end State

/-- What an action records: nothing, or a token without annotations. An error stays. -/
structure Takes (σ τ : State) : Prop where
  tokens : τ.tokens = σ.tokens ∨ ∃ (lexeme : Lexeme) (depth : Nat) (isType : Bool),
    τ.tokens = σ.tokens.push { toLexeme := lexeme, scopeDepth := depth, isType }
  scopes : τ.scopes = σ.scopes
  nextId : τ.nextContextId = σ.nextContextId
  error : τ.error? = none → σ.error? = none

theorem Takes.ofRecord {σ τ : State} (hrecord : τ.record = σ.record)
    (herror : τ.error? = none → σ.error? = none) : Takes σ τ where
  tokens := .inl (congrArg Prod.fst hrecord)
  scopes := congrArg (·.2.1) hrecord
  nextId := congrArg (·.2.2) hrecord
  error := herror

theorem Takes.ofPushed {σ τ : State} (hrecord : τ.record = σ.pushed.record)
    (herror : τ.error? = none → σ.error? = none) : Takes σ τ where
  tokens := .inr ⟨σ.current, σ.scopeDepth, σ.isType, congrArg Prod.fst hrecord⟩
  scopes := congrArg (·.2.1) hrecord
  nextId := congrArg (·.2.2) hrecord
  error := herror

/-- Every action takes at most the current lexeme. -/
theorem Action.takes {env : Env} {σ τ : State} (a : Action)
    (hrun : a.perform env σ = .ok ((), τ)) : Takes σ τ := by
  cases a with
  | fail cause pos =>
    exact .ofRecord (Parse.fail_record hrun) fun hnone => absurd hnone (Parse.fail_ok hrun).2
  | retype kind h =>
    cases hrun
    exact .ofRecord rfl id
  | next =>
    have hread : Parse.readCode env σ.pushed = _ := hrun
    exact .ofPushed (Parse.readCode_record hread) fun hnone => ((Parse.readCode_ok hread).2 hnone).1
  | nextInTemplate =>
    have hsettle : Parse.settle σ.current.stop (Reading.template env.source
      (σ.current.kind == .template) σ.current.stop) env σ.pushed = _ := hrun
    exact .ofPushed (Parse.settle_record hsettle) fun hnone => ((Parse.settle_ok hsettle).2 hnone).1
  | nextInTag =>
    change Parse.nextInTag _ _ = _ at hrun
    rw [Parse.nextInTag_eq] at hrun
    cases hgap : env.source.gap σ.current.stop with
    | openComment start =>
      rw [hgap] at hrun
      obtain ⟨_, υ, hfail, hrest⟩ := Parse.bind_ok hrun
      cases hrest
      have hrecord := Parse.fail_record hfail
      exact .ofPushed hrecord fun hnone => absurd hnone (Parse.fail_ok hfail).2
    | upTo pos =>
      rw [hgap] at hrun
      exact .ofPushed (Parse.settle_record hrun) fun hnone => ((Parse.settle_ok hrun).2 hnone).1
  | nextInElement =>
    have hsettle : Parse.settle σ.current.stop (Reading.child env.source env.dialect.flow σ.isType
      σ.current.stop) env σ.pushed = _ := hrun
    exact .ofPushed (Parse.settle_record hsettle) fun hnone => ((Parse.settle_ok hsettle).2 hnone).1
  | rereadGreater =>
    change (if σ.current.kind == .greater then do
      Parse.settle σ.current.start (Reading.punctuator (← read).source σ.current.start)
      else pure () : Parse Unit) env σ = _ at hrun
    split at hrun
    · have hsettle : Parse.settle σ.current.start _ env σ = _ := hrun
      exact .ofRecord (Parse.settle_record hsettle) fun hnone =>
        ((Parse.settle_ok hsettle).2 hnone).1
    · cases hrun
      exact .ofRecord rfl id
  | splitShiftLeft =>
    change (if σ.current.kind == .shiftLeft then
      Parse.settle σ.current.start (Reading.plain .less (σ.current.start + 1)) else pure () :
        Parse Unit) env σ = _ at hrun
    split at hrun
    · exact .ofRecord (Parse.settle_record hrun) fun hnone => ((Parse.settle_ok hrun).2 hnone).1
    · cases hrun
      exact .ofRecord rfl id
  | nextRegexp =>
    obtain ⟨_, υ, hread, hnext⟩ := Parse.bind_ok hrun
    have hsettle : Parse.settle σ.current.start _ env σ = _ := hread
    have hcode : Parse.readCode env υ.pushed = _ := hnext
    have hfirst : Takes σ υ :=
      .ofRecord (Parse.settle_record hsettle) fun hnone => ((Parse.settle_ok hsettle).2 hnone).1
    have hsecond : Takes υ τ :=
      .ofPushed (Parse.readCode_record hcode) fun hnone => ((Parse.readCode_ok hcode).2 hnone).1
    have hsame : υ.tokens = σ.tokens := congrArg Prod.fst (Parse.settle_record hsettle)
    exact ⟨hsame ▸ hsecond.tokens, hsecond.scopes.trans hfirst.scopes,
      hsecond.nextId.trans hfirst.nextId, fun hnone => hfirst.error (hsecond.error hnone)⟩

/-- The states that can be reached from a state. -/
inductive Reaches (s : Source) (d : Dialect) : State → State → Prop
  | stay (σ : State) : Reaches s d σ σ
  | act {σ τ υ : State} (a : Action) (recur : Goal → Step Bool) :
      Reaches s d σ τ → a.perform ⟨s, d, recur⟩ τ = .ok ((), υ) → Reaches s d σ υ
  | annotate {σ τ υ : State} : Reaches s d σ τ → τ.Annotates υ → Reaches s d σ υ
  /-- A scope is closed in a state that lies behind the one where it starts. -/
  | close {σ τ υ : State} (isFunction : Bool) : Reaches s d σ τ → Reaches s d τ υ →
      (υ.error? = none → τ.tokens.size < υ.tokens.size) →
      Reaches s d σ (υ.addScope τ.tokens.size isFunction)
  | retreat {σ τ υ : State} :
      Reaches s d σ τ → Reaches s d τ υ → Reaches s d σ (υ.restore τ.snapshot)

theorem Reaches.trans {s : Source} {d : Dialect} {σ τ υ : State} (hστ : Reaches s d σ τ)
    (hτυ : Reaches s d τ υ) : Reaches s d σ υ := by
  induction hτυ with
  | stay => exact hστ
  | act a recur _ hrun ih => exact .act a recur (ih hστ) hrun
  | annotate _ hsame ih => exact .annotate (ih hστ) hsame
  | close isFunction _ hinside hlt ih => exact .close isFunction (ih hστ) hinside hlt
  | retreat _ hback ih => exact .retreat (ih hστ) hback

/-! ## Growing -/

/-- Tokens are only added, and an error stays. -/
structure State.Grows (σ τ : State) : Prop where
  size : σ.tokens.size ≤ τ.tokens.size
  error : τ.error? = none → σ.error? = none

section

variable {s : Source} {d : Dialect} {σ τ : State}

theorem State.Grows.trans {υ : State} (hστ : σ.Grows τ) (hτυ : τ.Grows υ) : σ.Grows υ where
  size := Nat.le_trans hστ.size hτυ.size
  error hnone := hστ.error (hτυ.error hnone)

theorem Takes.grows (h : Takes σ τ) : σ.Grows τ where
  size := by
    rcases h.tokens with htokens | ⟨lexeme, depth, isType, htokens⟩
    · exact Nat.le_of_eq (congrArg Array.size htokens.symm)
    · rw [htokens, Array.size_push]
      omega
  error := h.error

theorem State.SameLexemes.size_eq (h : σ.SameLexemes τ) : τ.tokens.size = σ.tokens.size := by
  have hlength := congrArg List.length h.spans
  simpa [State.spans] using hlength

theorem State.SameLexemes.grows (h : σ.SameLexemes τ) : σ.Grows τ where
  size := Nat.le_of_eq h.size_eq.symm
  error hnone := by rw [← h.error, hnone]

/-- Going back to a state that has been passed keeps its tokens. -/
theorem State.Grows.size_restore {υ : State} (h : τ.Grows υ) :
    (υ.restore τ.snapshot).tokens.size = τ.tokens.size := by
  have hsize := h.size
  simp only [State.restore, State.snapshot, Array.size_shrink]
  omega

theorem Reaches.grows (h : Reaches s d σ τ) : σ.Grows τ := by
  induction h with
  | stay σ => exact ⟨Nat.le_refl _, id⟩
  | act a _ _ hrun ih => exact ih.trans (a.takes hrun).grows
  | annotate _ hsame ih => exact ih.trans hsame.toSameLexemes.grows
  | close _ _ _ _ ih hinside =>
    have hgrows := ih.trans hinside
    exact ⟨hgrows.size, hgrows.error⟩
  | retreat _ _ ih hback => exact ⟨hback.size_restore ▸ ih.size, ih.error⟩

end

/-! ## Walks -/

/-- Meeting a goal never leaves what can be reached. -/
def Env.Walks (env : Env) : Prop :=
  ∀ (g : Goal) (σ τ : State) (b : Bool), env.recur g σ = .ok (b, τ) →
    Reaches env.source env.dialect σ τ

/-- Staying within what can be reached from `base`. -/
def walking (base : State) : Law Parse where
  Holds {α} rule := ∀ {env : Env} {σ τ : State} {a : α}, env.Walks →
    Reaches env.source env.dialect base σ → rule env σ = .ok (a, τ) →
    Reaches env.source env.dialect base τ
  pure _ _ _ _ _ _ hσ hrun := by
    cases hrun
    exact hσ
  bind hrule hf _ _ _ _ henv hσ hrun := by
    obtain ⟨a, υ, hfirst, hrest⟩ := Parse.bind_ok hrun
    exact hf a henv (hrule henv hσ hfirst) hrest

/-- A rule that never leaves what can be reached from `base`. -/
abbrev Walks (base : State) {α : Type} (rule : Parse α) : Prop := Obeys (walking base) rule

instance (base : State) : Still (walking base) where
  holds h _ _ _ _ _ hσ hrun := h hrun ▸ hσ

theorem Walks.reaches {base : State} {α : Type} {rule : Parse α} [h : Walks base rule] {env : Env}
    {σ τ : State} {a : α} (henv : env.Walks) (hσ : Reaches env.source env.dialect base σ)
    (hrun : rule env σ = .ok (a, τ)) : Reaches env.source env.dialect base τ :=
  h.holds henv hσ hrun

namespace Walks

variable {base : State} {α : Type}

theorem ofModify {f : State → State} (h : ∀ σ : State, σ.Annotates (f σ)) :
    Walks base (modify f : Parse Unit) where
  holds _ hσ hrun := by
    cases hrun
    exact .annotate hσ (h _)

instance flags (isType : State → Bool) (depth : State → Nat) (arrowAt? : State → Option Nat)
    (noFunctionType noConditionalType : State → Bool) (nextId : State → Nat) :
    Walks base (modify fun σ => ⟨⟨σ.current, isType σ, depth σ, arrowAt? σ, noFunctionType σ,
      noConditionalType σ, σ.error?⟩, σ.tokens, σ.scopes, nextId σ⟩ : Parse Unit) :=
  ofModify fun _ => .of_tokens rfl rfl rfl rfl

theorem ofAction (a : Action) : Walks base a.perform where
  holds {env _ _ _} _ hσ hrun := .act a env.recur hσ hrun

instance reachArrow (g : Goal) : Walks base (Parse.reachArrow g) where
  holds henv hσ hrun := hσ.trans (henv g _ _ _ hrun)

instance reach (g : Goal) : Walks base (Parse.reach g) :=
  inferInstanceAs (Walks base (Functor.discard (Parse.reachArrow g)))

/-! ## Saved states -/

instance restore : Walks base (Parse.restore base.snapshot) where
  holds _ hσ hrun := by
    cases hrun
    exact .retreat (.stay _) hσ

instance (priority := high) snapshot (f : Snapshot → Parse α)
    [hf : ∀ σ : State, Walks σ (f σ.snapshot)] : Walks base (Parse.snapshot >>= f) where
  holds henv hσ hrun := hσ.trans ((hf _).holds henv (.stay _) hrun)

instance peek (rule : Parse α) [∀ σ : State, Walks σ rule] : Walks base (Parse.peek rule) := by
  unfold Parse.peek
  infer_instance

end Walks

namespace Parse

-- The size of a rule, counted in combinators.
set_option synthInstance.maxSize 10000

variable {base : State} {α : Type}

/-! ## Reading and consuming -/

instance (cause : SyntaxError.Cause) (pos : Nat) : Walks base (fail cause pos) :=
  .ofAction (.fail cause pos)

theorem walks_retype {k : TokenKind} (hk : k ≠ .eof ∧ k ≠ .shiftLeft) :
    Walks base (retype k) :=
  .ofAction (.retype k hk)

instance : Walks base next := .ofAction .next

instance : Walks base nextInTemplate := .ofAction .nextInTemplate

instance : Walks base nextInTag := .ofAction .nextInTag

instance : Walks base nextInElement := .ofAction .nextInElement

instance : Walks base rereadGreater := .ofAction .rereadGreater

instance : Walks base splitShiftLeft := .ofAction .splitShiftLeft

instance (priority := high) (f : Unit → Parse α) [∀ a, Walks base (f a)] :
    Walks base (do rereadRegexp; f (← next)) := by
  have hregexp : Walks base (Action.perform .nextRegexp) := .ofAction .nextRegexp
  have hbind : (do rereadRegexp; f (← next)) = (Action.perform .nextRegexp >>= f) :=
    (bind_assoc _ _ _).symm
  rw [hbind]
  infer_instance

/-! ## Looking ahead -/

/-! ## Annotations -/

instance (i : Nat) (f : Token → Token) [KeepsSpan f] [KeepsRhsEnd f] :
    Walks base (annotateAt i f) :=
  .ofModify fun σ => σ.annotates_modifyToken i f

instance (f : Token → Token) [KeepsSpan f] [KeepsRhsEnd f] : Walks base (annotateLast f) :=
  .ofModify fun σ => σ.annotates_modifyToken _ f

instance : Walks base freshContext where
  holds _ hσ hrun := by
    cases hrun
    exact .annotate hσ (.of_tokens rfl rfl rfl rfl)

instance : Walks base lastIndex := by
  unfold lastIndex
  refine .andThen fun count => ?_
  split <;> infer_instance

instance (i : Nat) : Walks base (markRhsEnd i) where
  holds {_ σ _ _} _ hσ hrun := by
    cases hrun
    exact .annotate hσ (σ.annotates_markRhsEnd i)

instance (start stop : Nat) : Walks base (markTypes start stop) where
  holds {env σ τ _} _ hσ hrun := by
    change (if start ≤ stop ∧ stop ≤ σ.tokens.size then set (σ.markTypes start stop)
      else throw (.tokenRange start stop) : Parse Unit) env σ = _ at hrun
    split at hrun
    · cases hrun
      exact .annotate hσ (σ.annotates_markTypes start stop)
    · cases hrun

/-! ## Scopes -/

instance : Walks base leaveScope where
  holds {env σ τ _} _ hσ hrun := by
    change (match σ.scopeDepth with
      | 0 => throw .scopeUnderflow
      | depth + 1 => set { σ with scopeDepth := depth } : Parse Unit) env σ = _ at hrun
    cases hdepth : σ.scopeDepth with
    | zero =>
      rw [hdepth] at hrun
      cases hrun
    | succ depth =>
      rw [hdepth] at hrun
      cases hrun
      exact .annotate hσ (.of_tokens rfl rfl rfl rfl)

/-! ## Identifiers and lists -/

instance (close : TokenKind) (item : Parse Unit) [Walks base item] :
    Walks base (commaList close item) := by
  unfold commaList
  dsimp only
  infer_instance

end Parse

end Grammar

end PlainScript
