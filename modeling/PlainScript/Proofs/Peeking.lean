import PlainScript.Proofs.Termination

/-!
# Looking ahead leaves no trace

A snapshot keeps the cursor and how much has been recorded, not the records themselves. Going back to it
gives the same state only if nothing but tokens and scopes has been added in between: no token that was
there has been annotated, and no context number has been used. `Appends` says so of a rule, whether or
not it runs into a syntax error. Each rule that looks ahead is put together from such rules, and it
answers in every state that a parse comes to.
-/

namespace PlainScript.Grammar

open Parse

-- The size of a rule, counted in combinators.
set_option synthInstance.maxSize 1000000000000000000000000000000

variable {α β : Type} {env : Env} {σ τ υ : State}

namespace State

/-- Tokens and scopes have been added, and what was there before is unchanged. -/
structure Appended (σ τ : State) : Prop where
  tokens : σ.tokens.toList <+: τ.tokens.toList
  scopes : σ.scopes.toList <+: τ.scopes.toList
  nextId : τ.nextContextId = σ.nextContextId

theorem Appended.refl (σ : State) : σ.Appended σ := ⟨List.prefix_rfl, List.prefix_rfl, rfl⟩

theorem Appended.trans (hστ : σ.Appended τ) (hτυ : τ.Appended υ) : σ.Appended υ :=
  ⟨hστ.tokens.trans hτυ.tokens, hστ.scopes.trans hτυ.scopes, hτυ.nextId.trans hστ.nextId⟩

theorem Appended.ofRecord (h : τ.record = σ.record) : σ.Appended τ where
  tokens := congrArg (·.1.toList) h ▸ List.prefix_rfl
  scopes := congrArg (·.2.1.toList) h ▸ List.prefix_rfl
  nextId := congrArg (·.2.2) h

/-- Going back drops what has been added. -/
theorem Appended.restore (h : σ.Appended τ) : τ.restore σ.snapshot = σ := by
  have hshrink {γ : Type} {xs ys : Array γ} (hstart : xs.toList <+: ys.toList) :
      ys.shrink xs.size = xs := by
    apply Array.toList_inj.1
    simpa using (List.prefix_iff_eq_take.1 hstart).symm
  obtain ⟨cursor, tokens, scopes, nextId⟩ := σ
  simp only [State.restore, State.snapshot, hshrink h.tokens, hshrink h.scopes, h.nextId]

end State

/-- Doing nothing to what has been recorded but add to it. -/
def appending : Law Parse where
  Holds {α} rule := ∀ {env : Env} {σ τ : State} {a : α}, rule env σ = .ok (a, τ) → σ.Appended τ
  pure _ _ _ _ _ hrun := by
    cases hrun
    exact .refl _
  bind hrule hf _ _ _ _ hrun := by
    obtain ⟨a, υ, hfirst, hrest⟩ := bind_ok hrun
    exact (hrule hfirst).trans (hf a hrest)

/-- A rule that does nothing to what has been recorded but add to it. -/
abbrev Appends (rule : Parse α) : Prop := Obeys appending rule

instance : Still appending where
  holds h _ _ _ _ hrun := h hrun ▸ .refl _

namespace Appends

instance fail (cause : SyntaxError.Cause) (pos : Nat) : Appends (Parse.fail cause pos) :=
  ⟨fun hrun => .ofRecord (fail_record hrun)⟩

instance next : Appends Parse.next where
  holds {env σ τ _} hrun := by
    have hread : readCode env σ.pushed = _ := hrun
    have hpushed : σ.Appended σ.pushed :=
      ⟨by rw [State.pushed, Array.toList_push]; exact List.prefix_append _ _, List.prefix_rfl, rfl⟩
    exact hpushed.trans (.ofRecord (readCode_record hread))

instance hasError : Appends Parse.hasError := by
  unfold Parse.hasError
  infer_instance

end Appends

/-! ## The rules that look ahead -/

/-- A rule that leaves the state as it is, and that answers wherever a parse may stand unless a
character is torn behind a backslash. -/
structure Invisible (rule : Parse α) : Prop where
  unchanged {env : Env} {σ τ : State} {a : α} : rule env σ = .ok (a, τ) → τ = σ
  answers {env : Env} {σ : State} : Sane env.source σ →
    Ends env.source (fun _ τ => τ = σ) (rule env σ)

/-- A loop reaches no goal if its rounds reach none. -/
instance (init : β) (round : β → Parse (ForInStep β)) [∀ b, Local (round b)] :
    Local (iterate init round) := by
  have hfor (n : Nat) : ∀ b, Local (iterateFor round n b) := by
    induction n with
    | zero => exact fun _ => Local.throw _
    | succ n ih =>
      intro b
      refine .andThen fun step => ?_
      cases step with
      | done last => exact Obeys.pure last
      | yield b => exact ih b
  exact Local.fromEnv (fun _ => hfor _ init) fun _ _ => rfl

/-- How goals are met does not matter to a rule that reaches none, so they may as well all be met. -/
theorem ends_of_local (rule : Parse α) [hlocal : Local rule]
    [hruns : ∀ m, Runs m 0 0 rule 0 0] (hσ : Sane env.source σ) :
    Ends env.source (fun _ _ => True) (rule env σ) := by
  let credit := cost env.source 0 σ
  have hmeets := meet_meets env.source env.dialect credit
  have hhere : Affords env.source credit σ.scopeDepth 0 0 σ := ⟨hσ, Nat.le_refl _, Nat.le_refl _⟩
  have hends := (hruns ⟨σ, 0, 0⟩).ends ⟨hmeets, hhere, hhere, List.prefix_rfl⟩ trivial
  rw [hlocal.eq env (meet env.source env.dialect credit) σ]
  exact hends.mono fun _ _ _ => trivial

theorem Invisible.of_unchanged {rule : Parse α} [Local rule] [∀ m, Runs m 0 0 rule 0 0]
    (h : ∀ {env : Env} {σ τ : State} {a : α}, rule env σ = .ok (a, τ) → τ = σ) : Invisible rule where
  unchanged := h
  answers {env σ} hσ := by
    have hends := ends_of_local rule hσ
    cases hrun : rule env σ with
    | error e =>
      rw [hrun] at hends
      exact hends
    | ok result => exact h hrun

/-- A rule that only adds leaves nothing behind when it is used for looking ahead. -/
theorem unchanged_of_peek {rule : Parse α} [hrule : Appends rule] {a : α}
    (h : peek rule env σ = .ok (a, τ)) : τ = σ := by
  obtain ⟨p, _, hsnapshot, hrest⟩ := bind_ok h
  cases hsnapshot
  obtain ⟨x, υ, hinside, hrest⟩ := bind_ok hrest
  obtain ⟨_, _, hrestore, hpure⟩ := bind_ok hrest
  cases hrestore
  cases hpure
  exact (hrule.holds hinside).restore

theorem unchanged_of_isAtName {w : SoftKeyword} {holds : Bool}
    (h : isAtName w env σ = .ok (holds, τ)) : τ = σ := by
  obtain ⟨isName, υ, hat, hrest⟩ := bind_ok h
  cases hat
  cases hname : σ.current.kind == .name <;> rw [hname] at hrest <;> cases hrest <;> rfl

/-- Looking ahead leaves the whole state as it was: all tokens and what is recorded on them, the scopes,
the current lexeme, the flags, the depth of scopes, the error and the next context number. -/
theorem lookahead_invisible :
    Invisible peekLexeme ∧ (∀ w, Invisible (peekIsName w)) ∧ Invisible isAtAwaitUsing ∧
      Invisible isImportReflection ∧ Invisible TypeScript.opensIndexSignature ∧
      Invisible TypeScript.opensMappedType ∧ Invisible TypeScript.opensFunctionType := by
  refine ⟨.of_unchanged unchanged_of_peek, fun w => .of_unchanged fun hrun => ?_,
    .of_unchanged fun hrun => ?_, .of_unchanged unchanged_of_peek, .of_unchanged unchanged_of_peek,
    .of_unchanged unchanged_of_peek, .of_unchanged unchanged_of_peek⟩
  · obtain ⟨l, υ, hpeek, hpure⟩ := bind_ok hrun
    cases hpure
    exact unchanged_of_peek hpeek
  · obtain ⟨isAwait, υ, hname, hrest⟩ := bind_ok hrun
    cases unchanged_of_isAtName hname
    split at hrest
    next => exact unchanged_of_peek hrest
    next =>
      cases hrest
      rfl

end PlainScript.Grammar
