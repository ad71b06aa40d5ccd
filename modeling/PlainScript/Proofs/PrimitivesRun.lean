import PlainScript.Proofs.Runs

/-!
# The primitives run

Consuming a lexeme allows every goal, and so does an error. Looking at the current lexeme and
annotating tokens changes nothing. Opening and closing scopes keeps count of them.
-/

namespace PlainScript.Grammar

open Parse

-- The size of a rule, counted in combinators.
set_option synthInstance.maxSize 10000

variable {σ τ : State} {α : Type} {m : Mark} {a a' a₁ k k' : Nat}

theorem State.length_spans (σ : State) : σ.spans.length = σ.tokens.size := by
  rw [State.spans, List.length_map, Array.length_toList]

namespace Runs

theorem ofMoves {rule : Parse α}
    (h : ∀ {env : Env} {σ : State}, Sane env.source σ →
      Ends env.source (fun _ τ => Moves env.source σ τ) (rule env σ)) : Runs m a k rule 6 k where
  ends _ _ _ _ hσ _ := (h hσ.here.sane).mono fun _ _ hmove => hσ.of_moves hmove

theorem ofRests {rule : Parse α}
    (h : ∀ {env : Env} {σ : State}, Sane env.source σ →
      Ends env.source (fun _ τ => Rests env.source σ τ) (rule env σ)) : Runs m a k rule a k where
  ends _ _ _ _ hσ _ := (h hσ.here.sane).mono fun _ _ hrest => hσ.of_rests hrest

theorem ofModify {f : State → State}
    (h : ∀ σ : State, σ.SameLexemes (f σ) ∧ (f σ).scopeDepth = σ.scopeDepth) :
    Runs m a k (modify f : Parse Unit) a k where
  ends _ _ _ σ hσ _ := hσ.of_rests ((h σ).1.rests (h σ).2 hσ.here.sane)

instance flags (isType : State → Bool) (arrowAt? : State → Option Nat)
    (noFunctionType noConditionalType : State → Bool) (scopes : State → Array Scope)
    (nextId : State → Nat) :
    Runs m a k (modify fun σ => ⟨⟨σ.current, isType σ, σ.scopeDepth, arrowAt? σ, noFunctionType σ,
      noConditionalType σ, σ.error?⟩, σ.tokens, scopes σ, nextId σ⟩ : Parse Unit) a k :=
  ofModify fun _ => ⟨⟨rfl, rfl, rfl⟩, rfl⟩

end Runs

namespace Parse

/-! ## Goals -/

instance (g : Goal) [Runs m a k (reachArrow g) a' k] : Runs m a k (reach g) a' k :=
  inferInstanceAs (Runs m a k (Functor.discard (reachArrow g)) a' k)

theorem runs_reachArrow {g : Goal} (ha : AtMost (g.rank + 1) a) :
    Runs m a k (reachArrow g) (if g.moves then 6 else a) k := by
  have hrank := g.rank_lt
  have hle := ha.le
  exact .reachGoal g (by omega)

instance (c : Prop) [Decidable c] (g g' : Goal) {a₂ : Nat}
    [hg : Runs m a k (reachArrow g) a₁ k] [hg' : Runs m a k (reachArrow g') a₂ k] [Joins a₁ a₂ a'] :
    Runs m a k (reachArrow (if c then g else g')) a' k := by
  have hite : reachArrow (if c then g else g') = if c then reachArrow g else reachArrow g' :=
    apply_ite reachArrow c g g'
  rw [hite]
  infer_instance

instance (g : Goal) [hg : Same g.moves true] [ha : AtMost (g.rank + 1) a] :
    Runs m a k (reachArrow g) 6 k := by
  simpa only [hg.eq, if_true] using runs_reachArrow ha

instance (g : Goal) [hg : Same g.moves false] [ha : AtMost (g.rank + 1) a] :
    Runs m a k (reachArrow g) a k := by
  simpa only [hg.eq, if_false, Bool.false_eq_true] using runs_reachArrow ha

/-! ## Reading and consuming -/

instance runs_next : Runs m a k next 6 k := .ofMoves fun hσ => next_ends hσ

instance : Runs m a k nextInTag 6 k := .ofMoves fun hσ => nextInTag_ends hσ

instance : Runs m a k nextInElement 6 k :=
  .ofMoves fun hσ => nextInElement_ends hσ

instance (priority := high) (f : Unit → Parse α) [h : ∀ x, Runs m 6 k (f x) a' k'] :
    Runs m a k (do nextInTemplate; f (← nextInTemplate)) a' k' := by
  have hpiece : Runs m a k (do nextInTemplate; nextInTemplate) 6 k :=
    .ofMoves fun hσ => nextPiece_ends hσ
  have hbind : (do nextInTemplate; f (← nextInTemplate)) =
      ((do nextInTemplate; nextInTemplate) >>= f) := (bind_assoc _ _ _).symm
  rw [hbind]
  infer_instance

instance : Runs m a k (do nextInTemplate; nextInTemplate) 6 k :=
  .ofMoves fun hσ => nextPiece_ends hσ

instance : Runs m a k rereadGreater a k :=
  .ofRests fun hσ => rereadGreater_ends hσ

instance : Runs m a k splitShiftLeft a k :=
  .ofRests fun hσ => splitShiftLeft_ends hσ

/-- The current lexeme gets another kind. It must not be the end of the text. -/
theorem retype_runs {kind : TokenKind} (hkind : kind ≠ .eof ∧ kind ≠ .shiftLeft)
    (htemplate : kind ≠ .template) :
    RunsWhen (fun σ => IsText σ.current) m a k (retype kind) a k := by
  intro env credit depth σ hσ htext
  exact (retype_ends hσ.here.sane htext hkind htemplate).mono fun _ _ hτ => hσ.of_rests hτ.1

/-- A slash is read again as a regular expression, which is consumed. -/
theorem nextRegexp_runs {f : Unit → Parse α} [hf : ∀ x, Runs m 6 k (f x) a' k'] :
    RunsWhen (fun σ => IsText σ.current) m a k (do rereadRegexp; f (← next)) a' k' := by
  intro env credit depth σ hσ htext
  have hregexp : Ends env.source _ ((do rereadRegexp; next : Parse Unit) env σ) :=
    nextRegexp_ends hσ.here.sane htext
  have hbind : (do rereadRegexp; f (← next)) = ((do rereadRegexp; next) >>= f) :=
    (bind_assoc _ _ _).symm
  rw [hbind]
  exact hregexp.bind fun x _ hτ => (hf x).ends (hσ.of_moves hτ) trivial

instance (cause : SyntaxError.Cause) (pos : Nat) : Runs m a k (fail cause pos) 6 k where
  ends env _ _ σ hσ _ := by
    have hrests := rests_failed hσ.here.sane ⟨cause, pos⟩
    have hstopped := stopped_failed (e := ⟨cause, pos⟩) hσ.here.sane.clear_or_stopped
    rw [fail_eq]
    exact hσ.onward (hσ.here.of_stopped hstopped hrests.depth) (hrests.spans ▸ List.prefix_rfl)

instance : Runs m a k unexpected 6 k := by
  unfold unexpected
  infer_instance

instance : Runs m a k kind a k := by
  unfold kind
  infer_instance

instance : Runs m a k keyword a k := by
  unfold keyword
  infer_instance

instance (kind : TokenKind) : Runs m a k (isAt kind) a k := by
  unfold isAt
  infer_instance

instance (kinds : List TokenKind) : Runs m a k (isAtAny kinds) a k := by
  unfold isAtAny
  infer_instance

instance (w : SoftKeyword) : Runs m a k (spells w) a k := by
  unfold spells
  infer_instance

instance (w : SoftKeyword) : Runs m a k (isAtName w) a k := by
  unfold isAtName
  infer_instance

instance gains_eat (kind : TokenKind) : Gains (condLevel a) m a k (eat kind) k := by
  unfold eat
  infer_instance

instance (kind : TokenKind) : Runs m a k (eat kind) a k := .ofGains (gains_eat kind)

instance (kind : TokenKind) : Runs m a k (skip kind) a k := by
  unfold skip
  infer_instance

instance gains_eatName (w : SoftKeyword) : Gains (condLevel a) m a k (eatName w) k := by
  unfold eatName
  infer_instance

instance (w : SoftKeyword) : Runs m a k (eatName w) a k := .ofGains (gains_eatName w)

instance (kind : TokenKind) : Runs m a k (expect kind) 6 k := by
  unfold expect
  infer_instance

/-! ## Looking ahead -/

instance : Runs m a k peekKind a k := by
  unfold peekKind
  infer_instance

instance : Runs m a k semicolon a k := by
  unfold semicolon
  infer_instance

instance (w : SoftKeyword) : Answers (isAtName w) false := by
  unfold isAtName
  infer_instance

instance (kind : TokenKind) [Same (isEnd kind) false] : Answers (eat kind) false := by
  unfold eat
  infer_instance

instance (w : SoftKeyword) : Answers (eatName w) false := by
  unfold eatName
  infer_instance

instance : Answers canInsertSemicolon true := by
  unfold canInsertSemicolon
  have hend : Answers (isAtAny [.eof, .braceClose]) true :=
    .ofState fun h => by
      rw [h.kind]
      rfl
  infer_instance

/-! ## Annotations -/

instance (i : Nat) (f : Token → Token) [KeepsSpan f] : Runs m a k (annotateAt i f) a k :=
  .ofModify fun σ => ⟨⟨rfl, rfl, σ.spans_modifyToken i f⟩, rfl⟩

instance (f : Token → Token) [KeepsSpan f] : Runs m a k (annotateLast f) a k :=
  .ofModify fun σ => ⟨⟨rfl, rfl, σ.spans_modifyToken _ f⟩, rfl⟩

instance (kind : TokenKind) : Runs m a k (setKind kind) a k := by
  unfold setKind
  infer_instance

instance (id : Nat) : Runs m a k (setContext id) a k := by
  unfold setContext
  infer_instance

instance : Runs m a k freshContext a k where
  ends _ _ _ _ hσ _ := hσ.of_rests (State.SameLexemes.rests ⟨rfl, rfl, rfl⟩ rfl hσ.here.sane)

instance (id : Nat) : Runs m a k (setContextIfAny id) a k := by
  unfold setContextIfAny
  infer_instance

instance : Runs m a k tokenIndex a k := by
  unfold tokenIndex
  infer_instance

theorem runs_fromIndex {f : Nat → Parse α}
    (h : ∀ σ : State, m.state.spans.length ≤ σ.spans.length →
      Runs ⟨σ, a, k⟩ a k (f σ.spans.length) a' k') : Runs m a k (tokenIndex >>= f) a' k' where
  ends env _ _ σ hσ _ := by
    have hrest := (h σ hσ.spans.length_le).ends hσ.rebase trivial
    rw [σ.length_spans] at hrest
    exact hrest.mono fun _ _ hτ => hσ.trans hσ.spans hτ

theorem gains_fromIndex {level : α → Option Nat} {f : Nat → Parse α}
    (h : ∀ σ : State, m.state.spans.length ≤ σ.spans.length →
      Gains level ⟨σ, a, k⟩ a k (f σ.spans.length) k') : Gains level m a k (tokenIndex >>= f) k' where
  ends env _ _ σ hσ := by
    have hrest := (h σ hσ.spans.length_le).ends hσ.rebase
    rw [σ.length_spans] at hrest
    refine hrest.mono fun _ _ hτ => ?_
    obtain ⟨l, hl, hτ⟩ := hτ
    exact ⟨l, hl, hσ.trans hσ.spans hτ⟩

/-- A mark after the first token. -/
class HasToken (m : Mark) : Prop where
  spans : m.state.spans ≠ []

/-- There is a last token if there was one at the mark. -/
instance [hm : HasToken m] : Runs m a k lastIndex a k where
  ends env _ _ σ hσ _ := by
    have hsize : σ.tokens.size ≠ 0 := by
      have hlength := hσ.spans.length_le
      have hpos := List.length_pos_iff.2 hm.spans
      rw [σ.length_spans] at hlength
      omega
    change Ends env.source _ ((match σ.tokens.size with
      | 0 => throw .noToken
      | n + 1 => pure n : Parse Nat) env σ)
    cases hcount : σ.tokens.size with
    | zero => exact absurd hcount hsize
    | succ n => exact hσ

instance : Stays lastIndex where
  stopped {env σ τ x} _ hσ hrun := by
    change (match σ.tokens.size with
      | 0 => throw .noToken
      | n + 1 => pure n : Parse Nat) env σ = _ at hrun
    cases hcount : σ.tokens.size with
    | zero =>
      rw [hcount] at hrun
      cases hrun
    | succ n =>
      rw [hcount] at hrun
      cases hrun
      exact hσ

theorem spans_of_next {env : Env} (h : next env σ = .ok ((), τ)) : τ.spans ≠ [] := by
  have hspans := State.spans_eq_of_tokens (readCode_ok (σ := σ.pushed) h).1
  rw [hspans, State.spans_pushed]
  exact List.append_ne_nil_of_right_ne_nil _ (List.cons_ne_nil _ _)

theorem spans_of_eat {env : Env} {kind : TokenKind} (h : eat kind env σ = .ok (true, τ)) :
    τ.spans ≠ [] := by
  change (if σ.current.kind == kind then do next; pure true else pure false : Parse Bool) env σ = _
    at h
  split at h
  · obtain ⟨_, υ, hnext, hrest⟩ := Parse.bind_ok h
    cases hrest
    exact spans_of_next hnext
  · cases h

instance (priority := 10002) (kind : TokenKind) (f : Nat → Parse α) (g : Parse α)
    {a₂ : Nat} [hf : ∀ (σ : State) (i : Nat), Runs ⟨σ, 6, k⟩ 6 k (f i) a₁ k']
    [hg : Runs m a k g a₂ k'] [hjoin : Joins a₁ a₂ a'] :
    Runs m a k (eat kind >>= fun eaten => if eaten then lastIndex >>= f else g) a' k' where
  ends env credit depth σ hσ _ := by
    refine ((gains_eat kind).ends hσ).withRun.bind fun eaten τ hτ => ?_
    obtain ⟨hrun, l, hl, hτ⟩ := hτ
    cases eaten with
    | true =>
      cases hl
      have htoken : HasToken ⟨τ, 6, k⟩ := ⟨spans_of_eat hrun⟩
      have hindex : Runs ⟨τ, 6, k⟩ 6 k (lastIndex >>= f) a₁ k' := inferInstance
      refine (hindex.ends hτ.rebase trivial).mono fun _ _ hυ => ?_
      exact (hτ.trans hτ.spans hυ).mono hjoin.left (Nat.le_refl _)
    | false =>
      cases hl
      exact (hg.ends hτ trivial).mono fun _ _ hυ => hυ.mono hjoin.right (Nat.le_refl _)

theorem runs_onLastToken {f : Option Token → Parse α}
    (hsome : ∀ (σ : State) (token : Token), HasToken ⟨σ, a, k⟩ →
      Runs ⟨σ, a, k⟩ a k (f (some token)) a' k')
    (hnone : Runs m a k (f none) a' k') : Runs m a k (lastToken? >>= f) a' k' where
  ends env _ _ σ hσ _ := by
    change Ends env.source _ (f σ.tokens.back? env σ)
    cases hlast : σ.tokens.back? with
    | none => exact hnone.ends hσ trivial
    | some token =>
      have htoken : HasToken ⟨σ, a, k⟩ := by
        constructor
        intro hempty
        have hsize : σ.tokens.size = 0 := by
          rw [← σ.length_spans, show σ.spans = [] from hempty]
          rfl
        rw [Array.back?_eq_getElem?, Array.getElem?_eq_none (by omega)] at hlast
        cases hlast
      refine ((hsome σ token htoken).ends hσ.rebase trivial).mono fun _ _ hτ => ?_
      exact hσ.trans hσ.spans hτ

instance : Runs m a k lastToken? a k := by
  unfold lastToken?
  infer_instance

instance (i : Nat) : Runs m a k (markRhsEnd i) a k := by
  unfold markRhsEnd
  infer_instance

theorem markTypes_eq {env : Env} {start stop : Nat} (hle : start ≤ stop)
    (hstop : stop ≤ σ.tokens.size) :
    markTypes start stop env σ = .ok ((), σ.markTypes start stop) := by
  change (if start ≤ stop ∧ stop ≤ σ.tokens.size then set (σ.markTypes start stop)
    else throw (.tokenRange start stop) : Parse Unit) env σ = _
  rw [if_pos ⟨hle, hstop⟩]
  rfl

theorem runs_markTypes {start stop : Nat} (hle : start ≤ stop)
    (hstop : stop ≤ m.state.spans.length) : Runs m a k (markTypes start stop) a k where
  ends env _ _ σ hσ _ := by
    have hsize := hσ.spans.length_le
    rw [σ.length_spans] at hsize
    rw [markTypes_eq hle (Nat.le_trans hstop hsize)]
    have hsame : σ.SameLexemes (σ.markTypes start stop) := ⟨rfl, rfl, σ.spans_markTypes start stop⟩
    exact hσ.of_rests (hsame.rests rfl hσ.here.sane)

theorem runs_requireRange {start stop : Nat} (hle : start ≤ stop)
    (hstop : stop ≤ m.state.spans.length) : Runs m a k (requireRange start stop) a k where
  ends env _ _ σ hσ _ := by
    have hsize := hσ.spans.length_le
    rw [σ.length_spans] at hsize
    change Ends env.source _ ((if start ≤ stop ∧ stop ≤ σ.tokens.size then pure ()
      else throw (.tokenRange start stop) : Parse Unit) env σ)
    rw [if_pos ⟨hle, Nat.le_trans hstop hsize⟩]
    exact hσ

theorem inType_runs {p : Lexeme → Prop} {rule : Parse α} (n : Nat)
    (h : RunsWhen (fun σ => p σ.current) m a k rule a' k') :
    RunsWhen (fun σ => p σ.current) m a k (inType n rule) a' k' := by
  intro env credit depth σ hσ hp
  have hmark : markTypes (σ.tokens.size - n) σ.tokens.size env σ = _ :=
    markTypes_eq (Nat.sub_le _ _) (Nat.le_refl _)
  change Ends env.source _ ((do
    markTypes (σ.tokens.size - n) σ.tokens.size
    modify fun υ => { υ with isType := true }
    let answer ← rule
    modify fun υ => { υ with isType := σ.isType }
    pure answer : Parse α) env σ)
  rw [Parse.bind_eq hmark]
  let inside : State := { σ.markTypes (σ.tokens.size - n) σ.tokens.size with isType := true }
  have hsame : σ.SameLexemes inside := ⟨rfl, rfl, σ.spans_markTypes _ _⟩
  have hinside := hσ.of_rests (hsame.rests rfl hσ.here.sane)
  change Ends env.source _ ((do
    let answer ← rule
    modify fun υ => { υ with isType := σ.isType }
    pure answer : Parse α) env inside)
  refine (h hinside hp).bind fun answer τ hτ => ?_
  exact hτ.of_rests (State.SameLexemes.rests ⟨rfl, rfl, rfl⟩ rfl hτ.here.sane)

instance (n : Nat) (rule : Parse α) [h : Runs m a k rule a' k'] :
    Runs m a k (inType n rule) a' k' where
  ends := inType_runs (p := fun _ => True) n h.ends

theorem skip_runs {kind : TokenKind} :
    RunsWhen (fun σ => σ.current.kind = kind) m a k (skip kind) 6 k := by
  intro env credit depth σ hσ hkind
  change Ends env.source _ ((if σ.current.kind == kind then next else pure () : Parse Unit) env σ)
  rw [if_pos (beq_iff_eq.2 hkind)]
  exact runs_next.ends hσ trivial

theorem skipAsType_runs {kind : TokenKind} :
    RunsWhen (fun σ => σ.current.kind = kind) m a k (skipAsType kind) 6 k :=
  inType_runs (p := fun l => l.kind = kind) 0 skip_runs

instance (kind : TokenKind) : Runs m a k (skipAsType kind) a k := by
  unfold skipAsType
  infer_instance

/-! ## Scopes -/

instance : Runs m a k openScope a (k + 1) where
  ends env credit depth σ hσ _ := by
    have hdepth := hσ.here.depth
    have hsane : Sane env.source { σ with scopeDepth := σ.scopeDepth + 1 } :=
      State.SameLexemes.sane (σ := σ) ⟨rfl, rfl, rfl⟩ hσ.here.sane
    exact hσ.onward ⟨hsane, hσ.here.cost, Nat.succ_le_succ hdepth⟩ List.prefix_rfl

instance : Runs m a (k + 1) leaveScope a k where
  ends env credit depth σ hσ _ := by
    have hdepth := hσ.here.depth
    change Ends env.source _ ((match σ.scopeDepth with
      | 0 => throw .scopeUnderflow
      | depth + 1 => set { σ with scopeDepth := depth } : Parse Unit) env σ)
    cases hopen : σ.scopeDepth with
    | zero =>
      rw [hopen] at hdepth
      cases hdepth
    | succ n =>
      rw [hopen] at hdepth
      have hsane : Sane env.source { σ with scopeDepth := n } :=
        State.SameLexemes.sane (σ := σ) ⟨rfl, rfl, rfl⟩ hσ.here.sane
      exact hσ.onward ⟨hsane, hσ.here.cost, Nat.le_of_succ_le_succ hdepth⟩ List.prefix_rfl

instance (start : Nat) (isFunction : Bool) : Runs m a k (recordScope start isFunction) a k := by
  unfold recordScope
  infer_instance

/-! ## Identifiers and lists -/

instance : Runs m a k identifier 6 k := by
  unfold identifier
  infer_instance

instance : Runs m a k privateOrPlainName 6 k := by
  unfold privateOrPlainName
  infer_instance

instance : Runs m a k importedIdentifier 6 k := by
  unfold importedIdentifier
  infer_instance

instance : Runs m a k qualifiedRest a k := by
  unfold qualifiedRest
  infer_instance

instance (close : TokenKind) (rule : Parse Unit)
    [∀ σ, Runs ⟨σ, min a 4, k⟩ (min a 4) k rule 6 k] :
    Runs m a k (loopUntilEaten close rule) a k := by
  unfold loopUntilEaten
  infer_instance

/-! ## Conditions on the current lexeme -/

/-- A condition that holds only if the current lexeme is of a certain kind. -/
def Ensures (p : Lexeme → Prop) (c : Parse Bool) : Prop :=
  ∀ ⦃env : Env⦄ ⦃σ τ : State⦄, c env σ = .ok (true, τ) → p τ.current

/-- A rule that leaves the current lexeme as it is. -/
def KeepsCurrent (rule : Parse α) : Prop :=
  ∀ ⦃env : Env⦄ ⦃σ τ : State⦄ ⦃x : α⦄, rule env σ = .ok (x, τ) → τ.current = σ.current

section

variable {p : Lexeme → Prop} {c c' : Parse Bool}

theorem ensures_isAt (kind : TokenKind) : Ensures (fun l => l.kind = kind) (isAt kind) := by
  intro env σ τ hrun
  change Except.ok (σ.current.kind == kind, σ) = .ok (true, τ) at hrun
  obtain ⟨hkind, rfl⟩ := Prod.mk.inj (Except.ok.inj hrun)
  exact beq_iff_eq.1 hkind

theorem ensures_spells {w : SoftKeyword} (hw : w ≠ .ordinary) : Ensures IsText (spells w) := by
  intro env σ τ hrun
  change Except.ok (σ.current.keyword == w, σ) = .ok (true, τ) at hrun
  obtain ⟨hword, rfl⟩ := Prod.mk.inj (Except.ok.inj hrun)
  exact .inr (beq_iff_eq.1 hword ▸ hw)

theorem Ensures.right (h : Ensures p c') : Ensures p (c <&&> c') := by
  intro env σ τ hrun
  obtain ⟨x, υ, -, hrest⟩ := Parse.bind_ok hrun
  cases x with
  | true => exact h hrest
  | false => cases hrest

theorem Ensures.left (h : Ensures p c) (hkeep : KeepsCurrent c') : Ensures p (c <&&> c') := by
  intro env σ τ hrun
  obtain ⟨x, υ, hfirst, hrest⟩ := Parse.bind_ok hrun
  cases x with
  | true => exact hkeep hrest ▸ h hfirst
  | false => cases hrest

theorem keepsCurrent_peekKind (f : TokenKind → Bool) :
    KeepsCurrent (do return f (← peekKind)) := by
  intro env σ τ x hrun
  obtain ⟨kind, υ, hpeek, hreturn⟩ := Parse.bind_ok hrun
  obtain ⟨lexeme, υ', hlexeme, hkind⟩ := Parse.bind_ok hpeek
  obtain ⟨p, σ', hsnapshot, hrest⟩ := Parse.bind_ok hlexeme
  obtain ⟨lexeme', σ'', -, hrestore⟩ := Parse.bind_ok hrest
  cases hsnapshot
  cases hrestore
  cases hkind
  cases hreturn
  rfl

theorem runs_onCond {f : Bool → Parse α} {k₁ : Nat} (hc : Ensures p c) [h : Runs m a k c a₁ k₁]
    (htrue : RunsWhen (fun σ => p σ.current) m a₁ k₁ (f true) a' k')
    (hfalse : Runs m a₁ k₁ (f false) a' k') : Runs m a k (c >>= f) a' k' where
  ends _ _ _ _ hσ _ := by
    refine (h.ends hσ trivial).withRun.bind fun x τ hτ => ?_
    cases x with
    | true => exact htrue hτ.2 (hc hτ.1)
    | false => exact hfalse.ends hτ.2 trivial

theorem gains_onCond {f : Bool → Parse Bool} {k₁ a₂ : Nat} (hc : Ensures p c)
    [h : Runs m a k c a₁ k₁] (htrue : RunsWhen (fun σ => p σ.current) m a₁ k₁ (f true) 6 k')
    (hfalse : Gains (condLevel a₂) m a₁ k₁ (f false) k') :
    Gains (condLevel a₂) m a k (c >>= f) k' where
  ends _ _ _ _ hσ := by
    refine (h.ends hσ trivial).withRun.bind fun x τ hτ => ?_
    cases x with
    | true =>
      refine (htrue hτ.2 (hc hτ.1)).mono fun y υ hυ => ?_
      cases y
      · exact ⟨a₂, rfl, hυ.mono (Nat.min_le_right a₂ 6) (Nat.le_refl _)⟩
      · exact ⟨6, rfl, hυ⟩
    | false => exact hfalse.ends hτ.2

theorem runs_restoreRetype {σ₀ : State} {a₀ k₀ : Nat} (htext : IsText σ₀.current) {kind : TokenKind}
    (hkind : kind ≠ .eof ∧ kind ≠ .shiftLeft) (htemplate : kind ≠ .template) {f : Unit → Parse α}
    [hf : ∀ x, Runs ⟨σ₀, a₀, k₀⟩ a₀ k₀ (f x) a' k'] :
    Runs ⟨σ₀, a₀, k₀⟩ a k (do restore σ₀.snapshot; f (← retype kind)) a' k' where
  ends _ _ _ σ hσ _ := by
    have hrestore := (Runs.restore σ₀ a₀ k₀).ends hσ trivial
    exact (retype_runs hkind htemplate).andThen hrestore htext

end

end Parse

end PlainScript.Grammar
