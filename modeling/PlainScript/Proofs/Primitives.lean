import PlainScript.Proofs.Laws

/-!
# What the primitives do

Each lemma says what a primitive of the parser leaves behind when it ends without halting: which tokens
and scopes have been recorded, and where it stands if no error has been recorded.
-/

namespace PlainScript.Grammar

variable {env : Env} {σ τ : State}

namespace State

/-- The state with the current lexeme among the tokens. -/
def pushed (σ : State) : State :=
  { σ with
    tokens := σ.tokens.push
      { toLexeme := σ.current, scopeDepth := σ.scopeDepth, isType := σ.isType } }

/-- What a parse leaves behind: the tokens, the scopes and the next context number. -/
def record (σ : State) : Array Token × Array Scope × Nat := (σ.tokens, σ.scopes, σ.nextContextId)

end State

namespace Parse

/-- A rule and what follows it succeed one after the other. -/
theorem bind_ok {α β : Type} {rule : Parse α} {f : α → Parse β} {b : β}
    (h : (rule >>= f) env σ = .ok (b, τ)) :
    ∃ a υ, rule env σ = .ok (a, υ) ∧ f a env υ = .ok (b, τ) := by
  change (do let (a, υ) ← rule env σ; f a env υ) = _ at h
  cases hfirst : rule env σ with
  | error e =>
    rw [hfirst] at h
    cases h
  | ok result =>
    rw [hfirst] at h
    exact ⟨result.1, result.2, rfl, h⟩

theorem fail_ok {cause : SyntaxError.Cause} {pos : Nat} (h : fail cause pos env σ = .ok ((), τ)) :
    τ.tokens = σ.tokens ∧ τ.error? ≠ none := by
  change Except.ok ((), _) = _ at h
  cases herror : σ.error? with
  | none =>
    simp only [herror] at h
    cases h
    exact ⟨rfl, by simp⟩
  | some e =>
    simp only [herror] at h
    cases h
    exact ⟨rfl, by simp [herror]⟩

theorem settle_ok {start : Nat} {reading : Reading}
    (h : settle start reading env σ = .ok ((), τ)) :
    τ.tokens = σ.tokens ∧ (τ.error? = none → σ.error? = none ∧
      ∃ kind keyword stop, reading = .lexeme kind keyword stop ∧
        τ.current = ⟨kind, keyword, start, stop⟩) := by
  cases reading with
  | lexeme kind keyword stop =>
    cases h
    exact ⟨rfl, fun herror => ⟨herror, kind, keyword, stop, rfl, rfl⟩⟩
  | fault cause pos =>
    obtain ⟨htokens, herror⟩ := fail_ok (τ := τ) h
    exact ⟨htokens, fun hnone => absurd hnone herror⟩
  | torn a b => cases h

/-- Whether the token at a distance from the end starts at the end of the text. -/
def endedAt (s : Source) (σ : State) (back : Nat) : Bool :=
  (σ.tokens[σ.tokens.size - back]?).any (s.size ≤ ·.start)

theorem settleEnd_ok (h : settleEnd env σ = .ok ((), τ)) :
    τ.tokens = σ.tokens ∧ (τ.error? = none → σ.error? = none ∧
      τ.current = { start := env.source.size, stop := env.source.size } ∧
      (2 ≤ σ.tokens.size → endedAt env.source σ 1 = true → endedAt env.source σ 2 = false)) := by
  change (if decide (2 ≤ σ.tokens.size) && endedAt env.source σ 1 && endedAt env.source σ 2 then
    fail .unexpectedEnd env.source.size else pure () : Parse Unit) env
      { σ with current := { start := env.source.size, stop := env.source.size } } = _ at h
  split at h
  case isTrue =>
    obtain ⟨htokens, herror⟩ := fail_ok h
    exact ⟨htokens, fun hnone => absurd hnone herror⟩
  case isFalse hended =>
    cases h
    refine ⟨rfl, fun hnone => ⟨hnone, rfl, fun hsize hlast => ?_⟩⟩
    simpa [hsize, hlast] using hended

theorem readCode_eq (env : Env) (σ : State) : readCode env σ =
    (match env.source.gap σ.current.stop with
      | .openComment start => do
        fail .unterminatedComment start
        settleEnd
      | .upTo pos =>
        if env.source.size ≤ pos then settleEnd
        else settle pos (Reading.code env.source env.dialect.flow σ.isType pos) : Parse Unit) env σ :=
  rfl

/-- Where reading on as ordinary code arrives: at the end of the text or at a lexeme. -/
theorem readCode_ok (h : readCode env σ = .ok ((), τ)) :
    τ.tokens = σ.tokens ∧ (τ.error? = none → σ.error? = none ∧
      ∃ pos, env.source.gap σ.current.stop = .upTo pos ∧
        ((env.source.size ≤ pos ∧ τ.current = { start := env.source.size, stop := env.source.size } ∧
            (2 ≤ σ.tokens.size → endedAt env.source σ 1 = true → endedAt env.source σ 2 = false)) ∨
          (pos < env.source.size ∧ ∃ kind keyword stop,
            Reading.code env.source env.dialect.flow σ.isType pos = .lexeme kind keyword stop ∧
              τ.current = ⟨kind, keyword, pos, stop⟩))) := by
  rw [readCode_eq] at h
  cases hgap : env.source.gap σ.current.stop with
  | openComment start =>
    rw [hgap] at h
    obtain ⟨_, υ, hfail, hrest⟩ := bind_ok h
    obtain ⟨htokens, herror⟩ := fail_ok hfail
    obtain ⟨hend, hclear⟩ := settleEnd_ok hrest
    exact ⟨hend.trans htokens, fun hnone => absurd (hclear hnone).1 herror⟩
  | upTo pos =>
    rw [hgap] at h
    change (if env.source.size ≤ pos then settleEnd
      else settle pos (Reading.code env.source env.dialect.flow σ.isType pos) : Parse Unit)
        env σ = _ at h
    split at h
    case isTrue hend =>
      obtain ⟨htokens, hclear⟩ := settleEnd_ok h
      refine ⟨htokens, fun hnone => ?_⟩
      obtain ⟨herror, hcurrent, hended⟩ := hclear hnone
      exact ⟨herror, pos, rfl, .inl ⟨hend, hcurrent, hended⟩⟩
    case isFalse hend =>
      obtain ⟨htokens, hclear⟩ := settle_ok h
      refine ⟨htokens, fun hnone => ?_⟩
      obtain ⟨herror, kind, keyword, stop, hreading, hcurrent⟩ := hclear hnone
      exact ⟨herror, pos, rfl, .inr ⟨Nat.lt_of_not_le hend, kind, keyword, stop, hreading, hcurrent⟩⟩

theorem eat_ok {k : TokenKind} {eaten : Bool} (h : eat k env σ = .ok (eaten, τ)) :
    (eaten = true ∧ σ.current.kind = k ∧ next env σ = .ok ((), τ)) ∨ (eaten = false ∧ τ = σ) := by
  obtain ⟨_, _, hat, hrest⟩ := bind_ok h
  cases hat
  split at hrest
  case isTrue hk =>
    obtain ⟨_, υ, hnext, hpure⟩ := bind_ok hrest
    cases hpure
    exact .inl ⟨rfl, beq_iff_eq.1 hk, hnext⟩
  case isFalse =>
    cases hrest
    exact .inr ⟨rfl, rfl⟩

theorem nextInTag_eq (env : Env) (σ : State) : nextInTag env σ =
    (match env.source.gap σ.current.stop with
      | .openComment start => do
        fail .unterminatedComment start
        modify fun σ => { σ with current := { σ.current with start := env.source.size } }
      | .upTo pos =>
        settle pos (if env.source.size ≤ pos then .fault .unexpectedEnd pos
          else Reading.tag env.source pos) : Parse Unit) env σ.pushed :=
  rfl

/-! ## What is recorded -/

theorem fail_record {cause : SyntaxError.Cause} {pos : Nat}
    (h : fail cause pos env σ = .ok ((), τ)) : τ.record = σ.record := by
  change Except.ok ((), _) = _ at h
  cases herror : σ.error? with
  | none =>
    simp only [herror] at h
    cases h
    rfl
  | some e =>
    simp only [herror] at h
    cases h
    rfl

theorem settle_record {start : Nat} {reading : Reading}
    (h : settle start reading env σ = .ok ((), τ)) : τ.record = σ.record := by
  cases reading with
  | lexeme kind keyword stop =>
    cases h
    rfl
  | fault cause pos =>
    have hfail : fail cause pos env { σ with current := { σ.current with start } } = _ := h
    have hrecord := fail_record hfail
    exact hrecord
  | torn a b => cases h

theorem settleEnd_record (h : settleEnd env σ = .ok ((), τ)) : τ.record = σ.record := by
  change (if decide (2 ≤ σ.tokens.size) && endedAt env.source σ 1 && endedAt env.source σ 2 then
    fail .unexpectedEnd env.source.size else pure () : Parse Unit) env
      { σ with current := { start := env.source.size, stop := env.source.size } } = _ at h
  split at h
  · have hrecord := fail_record h
    exact hrecord
  · cases h
    rfl

theorem readCode_record (h : readCode env σ = .ok ((), τ)) : τ.record = σ.record := by
  rw [readCode_eq] at h
  cases hgap : env.source.gap σ.current.stop with
  | openComment start =>
    rw [hgap] at h
    obtain ⟨_, υ, hfail, hrest⟩ := bind_ok h
    exact (settleEnd_record hrest).trans (fail_record hfail)
  | upTo pos =>
    rw [hgap] at h
    change (if env.source.size ≤ pos then settleEnd
      else settle pos (Reading.code env.source env.dialect.flow σ.isType pos) : Parse Unit)
        env σ = _ at h
    split at h
    · exact settleEnd_record h
    · exact settle_record h

end Parse

/-! ## Rules and what they consist of -/

/-- A law of rules that leave the state as it is. -/
class Still (L : Law Parse) : Prop where
  holds {α : Type} {rule : Parse α} :
    (∀ {env : Env} {σ τ : State} {a : α}, rule env σ = .ok (a, τ) → τ = σ) → L.Holds rule

namespace Still

variable {L : Law Parse} [hL : Still L] {α β : Type}

instance get : Obeys L (MonadState.get : Parse State) :=
  ⟨hL.holds fun hrun => by
    cases hrun
    rfl⟩

instance read : Obeys L (MonadReader.read : Parse Env) :=
  ⟨hL.holds fun hrun => by
    cases hrun
    rfl⟩

instance throw (e : Halt) : Obeys L (MonadExcept.throw e : Parse α) :=
  ⟨hL.holds fun hrun => by cases hrun⟩

instance iterateFor (round : β → Parse (ForInStep β)) [∀ x, Obeys L (round x)] (n : Nat) (x : β) :
    Obeys L (Parse.iterateFor round n x) := by
  induction n generalizing x with
  | zero => exact throw _
  | succ n ih =>
    unfold Parse.iterateFor
    refine .andThen fun step => ?_
    split
    · infer_instance
    · exact ih _

instance iterate (x : β) (round : β → Parse (ForInStep β)) [∀ x, Obeys L (round x)] :
    Obeys L (Parse.iterate x round) := by
  unfold Parse.iterate
  infer_instance

instance loop (round : Parse Bool) [Obeys L round] : Obeys L (Parse.loop round) := by
  unfold Parse.loop
  infer_instance

instance loopWhile (condition : Parse Bool) (body : Parse Unit) [Obeys L condition]
    [Obeys L body] : Obeys L (Parse.loopWhile condition body) := by
  unfold Parse.loopWhile
  infer_instance

end Still

namespace Parse

instance (kind) : DefinedBy (eat.eq_def kind) := ⟨rfl⟩

instance (w) : DefinedBy (eatName.eq_def w) := ⟨rfl⟩

instance (kind) : DefinedBy (expect.eq_def kind) := ⟨rfl⟩

instance : DefinedBy identifier.eq_def := ⟨rfl⟩

instance : DefinedBy importedIdentifier.eq_def := ⟨rfl⟩

instance {α : Type} (n : Nat) (rule : Parse α) : DefinedBy (inType.eq_def n rule) := ⟨rfl⟩

instance (kind) : DefinedBy (isAt.eq_def kind) := ⟨rfl⟩

instance (kinds) : DefinedBy (isAtAny.eq_def kinds) := ⟨rfl⟩

instance (w) : DefinedBy (isAtName.eq_def w) := ⟨rfl⟩

instance : DefinedBy keyword.eq_def := ⟨rfl⟩

instance : DefinedBy kind.eq_def := ⟨rfl⟩

instance : DefinedBy lastToken?.eq_def := ⟨rfl⟩

instance (close rule) : DefinedBy (loopUntilEaten.eq_def close rule) := ⟨rfl⟩

instance (i) : DefinedBy (markRhsEnd.eq_def i) := ⟨rfl⟩

instance : DefinedBy openScope.eq_def := ⟨rfl⟩

instance : DefinedBy peekKind.eq_def := ⟨rfl⟩

instance : DefinedBy privateOrPlainName.eq_def := ⟨rfl⟩

instance : DefinedBy qualifiedRest.eq_def := ⟨rfl⟩

instance (start isFunction) : DefinedBy (recordScope.eq_def start isFunction) := ⟨rfl⟩

instance (start stop) : DefinedBy (requireRange.eq_def start stop) := ⟨rfl⟩

instance : DefinedBy semicolon.eq_def := ⟨rfl⟩

instance (id) : DefinedBy (setContext.eq_def id) := ⟨rfl⟩

instance (id) : DefinedBy (setContextIfAny.eq_def id) := ⟨rfl⟩

instance (kind) : DefinedBy (setKind.eq_def kind) := ⟨rfl⟩

instance (kind) : DefinedBy (skip.eq_def kind) := ⟨rfl⟩

instance (kind) : DefinedBy (skipAsType.eq_def kind) := ⟨rfl⟩

instance (w) : DefinedBy (spells.eq_def w) := ⟨rfl⟩

instance : DefinedBy tokenIndex.eq_def := ⟨rfl⟩

instance : DefinedBy unexpected.eq_def := ⟨rfl⟩

end Parse

instance : DefinedBy arrow.eq_def := ⟨rfl⟩

instance (isFunction contextId) : DefinedBy (block.eq_def isFunction contextId) := ⟨rfl⟩

instance (close) : DefinedBy (blockBody.eq_def close) := ⟨rfl⟩

instance : DefinedBy callArguments.eq_def := ⟨rfl⟩

instance : DefinedBy callee.eq_def := ⟨rfl⟩

instance (id) : DefinedBy (classBody.eq_def id) := ⟨rfl⟩

instance (isStatement optionalName) : DefinedBy (classHead.eq_def isStatement optionalName) := ⟨rfl⟩

instance : DefinedBy classHeritage.eq_def := ⟨rfl⟩

instance : DefinedBy exportBody.eq_def := ⟨rfl⟩

instance : DefinedBy exportClause.eq_def := ⟨rfl⟩

instance : DefinedBy exportDefault.eq_def := ⟨rfl⟩

instance (noIn) : DefinedBy (expression.eq_def noIn) := ⟨rfl⟩

instance : DefinedBy importClause.eq_def := ⟨rfl⟩

instance (functionStart isConstructor) : DefinedBy (method.eq_def functionStart isConstructor) := ⟨rfl⟩

instance (isPattern isBlockScoped) : DefinedBy (object.eq_def isPattern isBlockScoped) := ⟨rfl⟩

instance (start floor noIn) : DefinedBy (operators.eq_def start floor noIn) := ⟨rfl⟩

instance : DefinedBy optionalDefault.eq_def := ⟨rfl⟩

instance (id) : DefinedBy (propertyName.eq_def id) := ⟨rfl⟩

instance (declaration) : DefinedBy (statement.eq_def declaration) := ⟨rfl⟩

instance (start noCalls) : DefinedBy (subscripts.eq_def start noCalls) := ⟨rfl⟩

instance : DefinedBy unary.eq_def := ⟨rfl⟩

namespace TypeScript

instance : DefinedBy importEquals.eq_def := ⟨rfl⟩

instance : DefinedBy indexSignature.eq_def := ⟨rfl⟩

instance : DefinedBy type.eq_def := ⟨rfl⟩

instance : DefinedBy typeParameter.eq_def := ⟨rfl⟩

instance : DefinedBy typeParameters.eq_def := ⟨rfl⟩

end TypeScript

namespace Flow

instance : DefinedBy interfaceStatement.eq_def := ⟨rfl⟩

instance : DefinedBy member.eq_def := ⟨rfl⟩

instance : DefinedBy type.eq_def := ⟨rfl⟩

instance : DefinedBy typeParameter.eq_def := ⟨rfl⟩

instance : DefinedBy typeParameters.eq_def := ⟨rfl⟩

end Flow

namespace Element

instance : DefinedBy element.eq_def := ⟨rfl⟩

instance : DefinedBy openingTag.eq_def := ⟨rfl⟩

end Element

end PlainScript.Grammar
