import PlainScript.Proofs.Composing

/-!
# The primitives compose

Looking at the current lexeme records nothing. Consuming it leaves a token behind that carries nothing
yet, so that its kind may still be changed and a number may be given to it.
-/

namespace PlainScript.Grammar

open Parse

-- The size of a rule, counted in combinators.
set_option synthInstance.maxSize 10000

variable {base σ τ : State} {own : Nat} {α : Type} {P Q R : Mode}

/-- A mode that a consumed token puts an end to. -/
class Serial (P : Mode) : Prop

instance : Serial Anywhere := ⟨⟩

instance : Serial Beyond := ⟨⟩

instance : Serial Loose := ⟨⟩

instance : Serial Named := ⟨⟩

instance : Serial Worded := ⟨⟩

instance : Serial Single := ⟨⟩

instance : Serial AtText := ⟨⟩

instance [Serial P] (k : TokenKind) : Serial (At P k) := ⟨⟩

/-- An annotation that records nothing about other tokens. -/
class KeepsEntry (f : Token → Token) : Prop extends KeepsSpan f where
  entry (t : Token) : (f t).entry = t.entry

instance (depth : Token → Nat) (isType : Token → Bool)
    (role? : Token → Option IdentifierRole) (shadows isExpression isChainStart isChainEnd : Token → Bool) :
    KeepsEntry fun t => ⟨⟨t.kind, t.keyword, t.start, t.stop⟩, depth t, isType t, role? t, shadows t,
      t.contextId?, t.rhsEnd?, isExpression t, t.nullishStarts, t.nullishEnds, isChainStart t,
      isChainEnd t, t.subscriptStart?, t.nullishStart?⟩ where
  start _ := rfl
  stop _ := rfl
  entry _ := rfl

theorem State.notes_modifyToken (σ : State) (i : Nat) (f : Token → Token) [hf : KeepsEntry f] :
    σ.Notes (σ.modifyToken i f) where
  current := rfl
  error := rfl
  spans := σ.spans_modifyToken i f
  entries := by rw [entries_modifyToken σ i id hf.entry, List.modify_id]
  nextId := Nat.le_refl _

/-- A kind that a token may be given. -/
class Unpaired (k : TokenKind) : Prop where
  isStructural : k.isStructural = false

instance (k : TokenKind) [h : Same k.isStructural false] : Unpaired k := ⟨h.eq⟩

instance (c : Prop) [Decidable c] (k k' : TokenKind) [Unpaired k] [Unpaired k'] :
    Unpaired (if c then k else k') := by
  split <;> infer_instance

/-- A lexeme with which a regular expression may start. -/
class IsSlash (k : TokenKind) : Prop where
  ne_eof : k ≠ .eof

instance : IsSlash .slash := ⟨by decide⟩

instance : IsSlash .compoundAssign := ⟨by decide⟩

namespace Parse

/-! ## Goals -/

/-- A goal that may be set anywhere. -/
class IsFree (g : Goal) : Prop where
  fits (s : Source) (d : Dialect) (own : Nat) (base σ : State) : g.Fits s d own base σ

/-- Whether nothing is asked of the state in which a goal is set. -/
@[reducible]
def isFree : Goal → Bool
  | .operators .. | .subscripts .. | .block .. | .object .. | .importClause | .exportClause => false
  | _ => true

instance (g : Goal) [h : Same (isFree g) true] : IsFree g where
  fits _ _ _ _ _ := by
    have hfree := h.eq
    cases g <;> first | trivial | cases hfree

instance (isFunction : Bool) : IsFree (.block isFunction 0) := ⟨fun _ _ _ _ _ => .inl rfl⟩

instance (c : Prop) [Decidable c] (g g' : Goal) [IsFree g] [IsFree g'] :
    IsFree (if c then g else g') := by
  split <;> infer_instance

instance follows_reach (g : Goal) [hg : IsFree g] : Follows P own base (reach g) :=
  .reachGoal fun _ _ => hg.fits ..

instance (isFunction : Bool) (id : Nat) :
    Follows (Numbering id) own base (reach (.block isFunction id)) :=
  .reachGoal fun _ h => h

instance (isPattern isBlockScoped : Bool) :
    Follows (At P .braceOpen) own base (reach (.object isPattern isBlockScoped)) :=
  .reachGoal fun _ h => .inl h.2

instance (start : Nat) (noCalls : Bool) :
    Follows (Started start) own base (reach (.subscripts start noCalls)) :=
  .reachGoal fun hσ h hnone =>
    Nat.lt_of_lt_of_le (h (hσ.toExtends.error hnone)) hσ.toExtends.size_le

instance (noCalls : Bool) : Follows Past own base (reach (.subscripts base.tokens.size noCalls)) :=
  .reachGoal fun _ h => h

instance follows_reachOperators (start floor : Nat) (noIn : Bool) :
    Follows (Operand start) own base (reach (.operators start floor noIn)) :=
  .reachGoal fun _ h => h

instance follows_reachOperators_past (floor : Nat) (noIn : Bool) :
    Follows Past own base (reach (.operators base.tokens.size floor noIn)) :=
  .reachGoal fun _ h => ⟨Nat.le_refl _, h⟩

/-- The `export` is the only token that has been consumed. -/
instance : Follows Single own base (reach .exportClause) :=
  .reachGoal fun hσ h => ⟨base, .stay base, hσ, h⟩

instance : Follows Beyond own base (reach .importClause) :=
  .reachGoal fun _ h => h

/-! ## Errors -/

instance follows_fail (cause : SyntaxError.Cause) (pos : Nat) : Follows P own base (fail cause pos) :=
  .ofAction (.fail cause pos) fun _ _ _ => trivial

/-- After an error the last token does not matter any more. -/
instance gives_fail (cause : SyntaxError.Cause) (pos : Nat) :
    Gives Beyond own base (fail cause pos) Named where
  gives henv hσ hP hrun :=
    ⟨(Gives.beyond (fail cause pos)).gives henv hσ hP hrun, fun hnone => absurd hnone (fail_ok hrun).2⟩

instance follows_failHere (cause : SyntaxError.Cause) : Follows P own base (failHere cause) :=
  ⟨fun henv hσ hP hrun => (follows_fail cause _).composed henv hσ hP hrun⟩

instance gives_failHere (cause : SyntaxError.Cause) : Gives Beyond own base (failHere cause) Named :=
  ⟨fun henv hσ hP hrun => (gives_fail cause _).gives henv hσ hP hrun⟩

instance : Follows P own base unexpected := follows_failHere _

instance : Gives Beyond own base unexpected Named := gives_failHere _

/-! ## The current lexeme -/

theorem follows_retype {k : TokenKind} (hk : k ≠ .eof ∧ k ≠ .shiftLeft) :
    Follows AtText own base (retype k) :=
  .ofAction (.retype k hk) fun _ _ h => h

theorem follows_retype_at {k k' : TokenKind} (hk : k ≠ .eof) (hk' : k' ≠ .eof ∧ k' ≠ .shiftLeft) :
    Follows (At P k) own base (retype k') :=
  .ofAction (.retype k' hk') fun _ _ h => .inl (h.2 ▸ hk)

instance : Follows P own base next := .ofAction .next fun _ _ _ => trivial

theorem lt_of_next {env : Env} (hσ : base.Extends σ) (h : next env σ = .ok ((), τ)) :
    base.tokens.size < τ.tokens.size := by
  have hle := hσ.size_le
  have hsize := size_of_next h
  omega

theorem isLoose_of_next {env : Env} (h : next env σ = .ok ((), τ)) : τ.IsLoose (τ.tokens.size - 1) := by
  have hsize := size_of_next h
  refine ⟨⟨σ.current.kind, σ.current.keyword, none, none, 0, 0, none, none⟩, ?_,
    .inr ⟨by omega, rfl, rfl⟩⟩
  simp [entries_of_next h, hsize]

theorem loose_of_next {env : Env} (hσ : base.Extends σ) (h : next env σ = .ok ((), τ)) :
    Loose base τ :=
  ⟨lt_of_next hσ h, fun _ => isLoose_of_next h⟩

instance [Serial P] : Gives P own base next Loose :=
  ⟨fun _ hσ _ hrun => loose_of_next hσ.toExtends hrun⟩

theorem named_of_next {env : Env} (hσ : base.Extends σ) (h : next env σ = .ok ((), τ))
    (hkind : σ.current.kind.isStructural = false) : Named base τ :=
  ⟨lt_of_next hσ h, fun _ => ⟨_, by rw [entries_of_next h, List.getLast?_concat], rfl, hkind⟩⟩

instance : Gives AtPlain own base next Named :=
  ⟨fun _ hσ hP hrun => named_of_next hσ.toExtends hrun hP⟩

theorem endsPlainly_of_next {env : Env} (h : next env σ = .ok ((), τ))
    (hkind : σ.current.kind.isStructural = false) : τ.EndsPlainly :=
  ⟨_, by rw [entries_of_next h, List.getLast?_concat], hkind⟩

instance gives_next_started (start : Nat) (k : TokenKind) [hk : Unpaired k] :
    Gives (At (Started start) k) own base next (Subscript start) :=
  ⟨fun _ hσ hP hrun => ⟨hP.1, lt_of_next hσ.toExtends hrun,
    endsPlainly_of_next hrun (hP.2 ▸ hk.isStructural)⟩⟩

instance : Follows P own base nextInTemplate :=
  .ofAction .nextInTemplate fun _ _ _ => trivial

instance : Follows P own base nextInTag := .ofAction .nextInTag fun _ _ _ => trivial

instance : Follows P own base nextInElement :=
  .ofAction .nextInElement fun _ _ _ => trivial

instance : Follows P own base rereadGreater :=
  .ofAction .rereadGreater fun _ _ _ => trivial

instance : Follows P own base splitShiftLeft :=
  .ofAction .splitShiftLeft fun _ _ _ => trivial

/-- A regular expression is consumed as soon as it has been read. -/
instance (priority := high) (k : TokenKind) [hk : IsSlash k] (f : Unit → Parse α)
    [∀ a, Follows Anywhere own base (f a)] :
    Follows (At P k) own base (do rereadRegexp; f (← next)) := by
  have hregexp : Follows (At P k) own base (Action.perform .nextRegexp) :=
    .ofAction .nextRegexp fun _ _ h => .inl (h.2 ▸ hk.ne_eof)
  have hgives : Gives (At P k) own base (Action.perform .nextRegexp) Anywhere := .forget _
  have hbind : (do rereadRegexp; f (← next)) = (Action.perform .nextRegexp >>= f) :=
    (bind_assoc _ _ _).symm
  rw [hbind]
  exact .andThen inferInstance

instance follows_eat (k : TokenKind) : Follows P own base (eat k) :=
  .anywhere (by unfold eat; infer_instance)

instance splits_eat (k : TokenKind) [Serial P] : Splits P own base (eat k) Loose P where
  ifTrue _ hσ _ hrun := by
    rcases eat_ok hrun with ⟨-, -, hnext⟩ | ⟨hfalse, -⟩
    · exact loose_of_next hσ.toExtends hnext
    · cases hfalse
  ifFalse _ _ hP hrun := by
    rcases eat_ok hrun with ⟨htrue, -, -⟩ | ⟨-, rfl⟩
    · cases htrue
    · exact hP

instance (priority := high) (k : TokenKind) [hk : Unpaired k] [Serial P] :
    Splits P own base (eat k) Named P where
  ifTrue _ hσ _ hrun := by
    rcases eat_ok hrun with ⟨-, hkind, hnext⟩ | ⟨hfalse, -⟩
    · exact named_of_next hσ.toExtends hnext (hkind ▸ hk.isStructural)
    · cases hfalse
  ifFalse := (splits_eat k).ifFalse

instance (start : Nat) (k : TokenKind) [hk : Unpaired k] :
    Splits (Started start) own base (eat k) (Subscript start) (Started start) where
  ifTrue _ hσ hP hrun := by
    rcases eat_ok hrun with ⟨-, hkind, hnext⟩ | ⟨hfalse, -⟩
    · exact ⟨hP, lt_of_next hσ.toExtends hnext, endsPlainly_of_next hnext (hkind ▸ hk.isStructural)⟩
    · cases hfalse
  ifFalse _ _ hP _ := hP

theorem splits_kind {c : Parse Bool} {k : TokenKind} [hc : Noting c] [hP : Stable P]
    (h : Ensures (fun l => l.kind = k) c) : Splits P own base c (At P k) P where
  ifTrue henv _ hσ hrun := ⟨hP.note hσ (hc.notes henv hrun), h hrun⟩
  ifFalse henv _ hσ hrun := hP.note hσ (hc.notes henv hrun)

/-- A condition that the end of the text does not meet. -/
theorem splits_isText {c : Parse Bool} [hc : Noting c] [hP : Stable P] (h : Ensures IsText c) :
    Splits P own base c AtText P where
  ifTrue _ _ _ hrun := h hrun
  ifFalse henv _ hσ hrun := hP.note hσ (hc.notes henv hrun)

theorem ensures_isAt_text {k : TokenKind} (hk : k ≠ .eof) : Ensures IsText (isAt k) :=
  fun _ _ _ hrun => .inl fun heof => hk ((ensures_isAt k hrun).symm.trans heof)

instance {Q' : Mode} (a b : Parse Bool) [ha : Noting a] [hP : Stable P]
    [hb : Splits P own base b Q R] [hjoin : Join P R Q'] : Splits P own base (a <&&> b) Q Q' where
  ifTrue henv hσ h hrun := by
    obtain ⟨holds, υ, hfirst, hrest⟩ := bind_ok hrun
    have hnote := ha.notes henv hfirst
    cases holds with
    | true => exact hb.ifTrue henv (.note hσ hnote) (hP.note h hnote) hrest
    | false => cases hrest
  ifFalse henv hσ h hrun := by
    obtain ⟨holds, υ, hfirst, hrest⟩ := bind_ok hrun
    have hnote := ha.notes henv hfirst
    cases holds with
    | true => exact hjoin.right (hb.ifFalse henv (.note hσ hnote) (hP.note h hnote) hrest)
    | false =>
      cases hrest
      exact hjoin.left (hP.note h hnote)

instance (k : TokenKind) : Follows P own base (skip k) :=
  .anywhere (by unfold skip; infer_instance)

instance (k : TokenKind) : Gives Loose own base (skip k) Loose := by
  unfold skip
  infer_instance

instance (w : SoftKeyword) : Follows P own base (eatName w) :=
  .anywhere (by unfold eatName; infer_instance)

instance (w : SoftKeyword) [Serial P] [Stable P] : Splits P own base (eatName w) Named P := by
  unfold eatName
  infer_instance

instance (w : SoftKeyword) : Follows P own base (expectName w) :=
  .anywhere (by unfold expectName; infer_instance)

instance (k : TokenKind) : Follows P own base (expect k) :=
  .anywhere (by unfold expect; infer_instance)

instance (k : TokenKind) : Gives Beyond own base (expect k) Loose := by
  unfold expect
  infer_instance

instance (priority := high) (k : TokenKind) [Unpaired k] :
    Gives Beyond own base (expect k) Named := by
  unfold expect
  infer_instance

instance (k : TokenKind) : Gives (At Unmoved k) own base (expect k) Single where
  gives {env σ τ _} _ _ hP hrun := by
    obtain ⟨eaten, υ, heat, hrest⟩ := bind_ok hrun
    rcases eat_ok heat with ⟨rfl, -, hnext⟩ | ⟨rfl, rfl⟩
    · cases hrest
      exact (congrArg (· + 1) hP.1).trans (size_of_next hnext).symm
    · obtain ⟨holds, _, hat, hnext⟩ := bind_ok heat
      cases hat
      rw [if_pos (beq_iff_eq.2 hP.2)] at hnext
      obtain ⟨_, _, -, hpure⟩ := bind_ok hnext
      cases hpure

/-! ## Looking ahead -/

instance : Follows P own base endsStatement :=
  .anywhere (by unfold endsStatement; infer_instance)

instance follows_semicolon : Follows P own base semicolon :=
  .anywhere (by unfold semicolon; infer_instance)

/-! ## Annotations -/

instance noting_lastIndex : Noting lastIndex := by
  unfold lastIndex
  refine .andThen fun count => ?_
  split <;> infer_instance

instance (i : Nat) (f : Token → Token) [KeepsEntry f] : Noting (annotateAt i f) where
  holds {_ σ _ _} _ hrun := by
    cases hrun
    exact σ.notes_modifyToken i f

instance (f : Token → Token) [KeepsEntry f] : Noting (annotateLast f) where
  holds {_ σ _ _} _ hrun := by
    cases hrun
    exact σ.notes_modifyToken _ f

instance : Noting freshContext where
  holds _ hrun := by
    cases hrun
    exact ⟨⟨rfl, rfl, rfl⟩, rfl, Nat.le_succ _⟩

instance (start stop : Nat) : Noting (markTypes start stop) where
  holds {env σ τ _} _ hrun := by
    change (if start ≤ stop ∧ stop ≤ σ.tokens.size then set (σ.markTypes start stop)
      else throw (.tokenRange start stop) : Parse Unit) env σ = _ at hrun
    split at hrun
    · cases hrun
      exact ⟨⟨rfl, rfl, σ.spans_markTypes start stop⟩, σ.entries_markTypes start stop, Nat.le_refl _⟩
    · cases hrun

instance (n : Nat) (rule : Parse α) [Stable P] [Follows P own base rule]
    [Gives P own base rule Q] : Follows P own base (inType n rule) := by
  unfold inType
  infer_instance

instance (n : Nat) (rule : Parse α) [Stable P] [Follows P own base rule]
    [Gives P own base rule Q] [Stable Q] : Gives P own base (inType n rule) Q := by
  unfold inType
  infer_instance

instance (k : TokenKind) : Follows P own base (skipAsType k) :=
  .anywhere (by unfold skipAsType; infer_instance)

instance (k : TokenKind) : Gives Loose own base (skipAsType k) Loose := by
  unfold skipAsType
  infer_instance

/-- The token that a right-hand side follows records where that ends. -/
theorem composed_rhs {env : Env} {rule : Parse Unit} {υ υ' ρ : State} {i : Nat}
    [hrule : ∀ σ, Follows Anywhere own σ rule] (henv : env.Composes)
    (hσ : Composed env.source env.dialect own base σ) (hnext : next env σ = .ok ((), υ))
    (hlast : lastIndex env υ = .ok (i, υ')) (hrun : rule env υ' = .ok ((), ρ))
    (hmark : markRhsEnd i env ρ = .ok ((), τ)) : Composed env.source env.dialect own base τ := by
  have hsize := size_of_next hnext
  unfold lastIndex at hlast
  obtain ⟨count, _, hcount, hpure⟩ := bind_ok hlast
  cases hcount
  rw [hsize] at hpure
  cases hpure
  cases hmark
  have hinside := (hrule σ).composed henv ((Composed.stay σ).act .next _ trivial hnext) trivial hrun
  have hgrown := ((hrule υ).composed henv (.stay υ) trivial hrun).toExtends.size_le
  exact .assign hσ hinside (by omega)

/-- The kind of the last token may be changed, and it may be changed again. -/
theorem isLoose_ofKind {k : TokenKind} (h : σ.IsLoose (σ.tokens.size - 1))
    (hk : k.isStructural = false) :
    (σ.markLast (.ofKind k)).IsLoose ((σ.markLast (.ofKind k)).tokens.size - 1) := by
  obtain ⟨e, he, -⟩ := h
  refine ⟨{ e with kind := k }, ?_, .inl hk⟩
  rw [State.size_markLast, State.markLast,
    State.entries_modifyToken σ _ (fun e => { e with kind := k }) fun _ => rfl]
  simp [he]

instance (k : TokenKind) [hk : Unpaired k] : Follows Loose own base (setKind k) where
  composed {env σ τ _} _ hσ hP hrun := by
    cases hrun
    cases herror : σ.error? with
    | none =>
      exact .rekind _ k hσ (Nat.le_sub_one_of_lt hP.1) (hP.2 herror) hk.isStructural
    | some e =>
      refine hσ.amend (State.amends_markLast hP.1 (.ofKind k)) ?_
      exact fun hnone => by cases herror.symm.trans hnone

instance (k : TokenKind) [hk : Unpaired k] : Gives Loose own base (setKind k) Loose where
  gives {env σ τ _} _ _ hP hrun := by
    cases hrun
    exact ⟨by simpa using hP.1, fun hnone => isLoose_ofKind (hP.2 hnone) hk.isStructural⟩

/-- The kind of a name may be changed before it carries anything. -/
instance (k : TokenKind) [hk : Unpaired k] : Gives Named own base (setKind k) Named where
  gives {env σ τ _} _ _ hP hrun := by
    cases hrun
    refine ⟨by simpa using hP.1, fun hnone => ?_⟩
    obtain ⟨e, he, hblank, -⟩ := hP.2 hnone
    refine ⟨{ e with kind := k }, ?_, hblank, hk.isStructural⟩
    rw [List.getLast?_eq_getElem?, State.length_entries] at he ⊢
    rw [State.size_modifyToken, State.entries_modifyToken σ _ (fun e => { e with kind := k }) fun _ => rfl]
    simp [he]

/-- The right-hand side of the token at a mark ends here. -/
instance follows_markRhsEnd : Follows Beyond own base (markRhsEnd base.tokens.size) where
  composed _ hσ hP hrun := by
    cases hrun
    exact .assign (.stay base) hσ hP

/-! ## Scopes -/

instance noting_openScope : Noting openScope := by
  unfold openScope
  infer_instance

instance : Noting leaveScope where
  holds {env σ τ _} _ hrun := by
    change (match σ.scopeDepth with
      | 0 => throw .scopeUnderflow
      | depth + 1 => set { σ with scopeDepth := depth } : Parse Unit) env σ = _ at hrun
    cases hdepth : σ.scopeDepth with
    | zero =>
      rw [hdepth] at hrun
      cases hrun
    | succ depth =>
      rw [hdepth] at hrun
      cases hrun
      exact ⟨⟨rfl, rfl, rfl⟩, rfl, Nat.le_refl _⟩

instance (start : Nat) (isFunction : Bool) : Noting (recordScope start isFunction) where
  holds _ hrun := by
    cases hrun
    exact ⟨⟨rfl, rfl, rfl⟩, rfl, Nat.le_refl _⟩

/-! ## Identifiers and lists -/

instance : Follows P own base identifier :=
  .anywhere (by unfold identifier; infer_instance)

/-- An identifier carries nothing yet. -/
theorem entries_of_identifier {env : Env} (h : identifier env σ = .ok ((), τ)) :
    τ.entries = σ.entries ++ [⟨.name, σ.current.keyword, none, none, 0, 0, none, none⟩] := by
  obtain ⟨_, υ, hnext, hkind⟩ := bind_ok h
  cases hkind
  exact entries_consume (f := .ofKind .name) (fun e => { e with kind := .name }) (fun _ => rfl) hnext

instance [Serial P] : Gives P own base identifier Named where
  gives _ hσ _ hrun := by
    have hentries := entries_of_identifier hrun
    refine ⟨?_, fun _ => ⟨_, by rw [hentries, List.getLast?_concat], rfl, rfl⟩⟩
    have hsize := congrArg List.length hentries
    have hle := hσ.toExtends.size_le
    simp only [State.length_entries, List.length_append, List.length_singleton] at hsize
    omega

instance : Gives Anywhere own base privateOrPlainName Named := by
  unfold privateOrPlainName
  infer_instance

instance : Follows P own base privateOrPlainName :=
  .anywhere (by unfold privateOrPlainName; infer_instance)

instance : Follows P own base importedIdentifier :=
  .anywhere (by unfold importedIdentifier; infer_instance)

instance : Follows P own base qualifiedRest :=
  .anywhere (by unfold qualifiedRest; infer_instance)

instance [Basal P] (close : TokenKind) (rule : Parse Unit)
    [Follows P own base rule] : Follows P own base (loopUntilEaten close rule) := by
  unfold loopUntilEaten
  infer_instance

instance (close : TokenKind) (item : Parse Unit) [Follows Anywhere own base item] :
    Follows P own base (commaList close item) := by
  refine .anywhere ?_
  unfold commaList
  dsimp only
  infer_instance

/-! ## Closing tokens -/

end Parse

/-- What has been read ends with a token of a kind. -/
def ClosesWith (env : Env) (k : TokenKind) (σ τ : State) : Prop :=
  ∃ υ, σ.Grows υ ∧ υ.current.kind = k ∧ next env υ = .ok ((), τ)

namespace ClosesWith

variable {env : Env} {k : TokenKind} {υ : State}

theorem after (hσ : σ.Grows τ) (h : ClosesWith env k τ υ) : ClosesWith env k σ υ := by
  obtain ⟨ρ, hρ, hkind, hnext⟩ := h
  exact ⟨ρ, hσ.trans hρ, hkind, hnext⟩

theorem size_lt (h : ClosesWith env k σ τ) : σ.tokens.size < τ.tokens.size := by
  obtain ⟨ρ, hρ, -, hnext⟩ := h
  have hle := hρ.size
  have hsize := size_of_next hnext
  omega

/-- The closing token carries nothing yet. -/
theorem getLast? (h : ClosesWith env k σ τ) :
    ∃ e, τ.entries.getLast? = some e ∧ e.kind = k ∧ e.contextId? = none := by
  obtain ⟨ρ, -, rfl, hnext⟩ := h
  exact ⟨_, by rw [entries_of_next hnext, List.getLast?_concat], rfl, rfl⟩

end ClosesWith

/-- A rule that ends with a token of a kind, unless there is an error. -/
class ClosedBy (k : TokenKind) (rule : Parse α) : Prop where
  closes {env : Env} {σ τ : State} {a : α} (henv : env.Walks) (hrun : rule env σ = .ok (a, τ))
    (hnone : τ.error? = none) : ClosesWith env k σ τ

/-- A round of a loop that ends with a token of a kind if it is the last one. -/
class DoneBy (k : TokenKind) (round : Parse (ForInStep α)) : Prop where
  closes {env : Env} {σ τ : State} {a : α} (henv : env.Walks) (hrun : round env σ = .ok (.done a, τ))
    (hnone : τ.error? = none) : ClosesWith env k σ τ

namespace DoneBy

variable {β : Type} {k : TokenKind}

instance yield (a : α) : DoneBy k (pure (.yield a) : Parse (ForInStep α)) where
  closes _ hrun := by cases hrun

instance (priority := low) bind (rule : Parse β) (f : β → Parse (ForInStep α))
    [hrule : ∀ σ, Walks σ rule] [hf : ∀ b, DoneBy k (f b)] : DoneBy k (rule >>= f) where
  closes henv hrun hnone := by
    obtain ⟨b, υ, hfirst, hrest⟩ := bind_ok hrun
    exact ((hf b).closes henv hrest hnone).after ((hrule _).reaches henv (.stay _) hfirst).grows

instance ite (c : Prop) [Decidable c] (a b : Parse (ForInStep α)) [DoneBy k a] [DoneBy k b] :
    DoneBy k (if c then a else b) := by
  split <;> infer_instance

instance eaten (x : α) (rest : Parse (ForInStep α)) [hrest : DoneBy k rest] :
    DoneBy k (do if (← eat k) = true then pure (.done x) else rest) where
  closes {env σ τ _} henv hrun hnone := by
    obtain ⟨holds, υ, heat, hafter⟩ := bind_ok hrun
    rcases eat_ok heat with ⟨rfl, hkind, hnext⟩ | ⟨rfl, rfl⟩
    · cases hafter
      exact ⟨σ, ⟨Nat.le_refl _, id⟩, hkind, hnext⟩
    · exact hrest.closes henv hafter hnone

instance failed (x : α) (rest : Parse (ForInStep α)) [hrest : DoneBy k rest] :
    DoneBy k (do if (← hasError) = true then pure (.done x) else rest) where
  closes {env σ τ _} henv hrun hnone := by
    obtain ⟨holds, υ, htest, hafter⟩ := bind_ok hrun
    cases htest
    cases herror : σ.error? with
    | some e =>
      rw [herror] at hafter
      cases hafter
      cases herror.symm.trans hnone
    | none =>
      rw [herror] at hafter
      exact hrest.closes henv hafter hnone

instance closed (rule : Parse β) (x : α) [hrule : ClosedBy k rule] :
    DoneBy k (do let _ ← rule; pure (.done x)) where
  closes henv hrun hnone := by
    obtain ⟨_, υ, hclosed, hdone⟩ := bind_ok hrun
    cases hdone
    exact hrule.closes henv hclosed hnone

end DoneBy

namespace ClosedBy

variable {β : Type} {k : TokenKind}

instance after (rule : Parse β) (f : β → Parse α) [hrule : ∀ σ, Walks σ rule]
    [hf : ∀ b, ClosedBy k (f b)] : ClosedBy k (rule >>= f) where
  closes henv hrun hnone := by
    obtain ⟨b, υ, hfirst, hrest⟩ := bind_ok hrun
    exact ((hf b).closes henv hrest hnone).after ((hrule _).reaches henv (.stay _) hfirst).grows

instance map (f : α → β) (rule : Parse α) [hrule : ClosedBy k rule] : ClosedBy k (f <$> rule) where
  closes henv hrun hnone := by
    rw [map_eq_pure_bind] at hrun
    obtain ⟨a, υ, hfirst, hrest⟩ := bind_ok hrun
    cases hrest
    exact hrule.closes henv hfirst hnone

instance discard (rule : Parse α) [ClosedBy k rule] : ClosedBy k (Functor.discard rule) := by
  unfold Functor.discard
  exact ClosedBy.map _ rule

instance expect : ClosedBy k (Parse.expect k) where
  closes {env σ τ _} _ hrun hnone := by
    obtain ⟨holds, υ, heat, hafter⟩ := bind_ok hrun
    rcases eat_ok heat with ⟨rfl, hkind, hnext⟩ | ⟨rfl, rfl⟩
    · cases hafter
      exact ⟨σ, ⟨Nat.le_refl _, id⟩, hkind, hnext⟩
    · exact absurd hnone (fail_ok hafter).2

/-- The last round of a loop ends with the closing token. -/
instance iterate (x : β) (round : β → Parse (ForInStep β)) [hwalks : ∀ x σ, Walks σ (round x)]
    [hround : ∀ x, DoneBy k (round x)] : ClosedBy k (Parse.iterate x round) where
  closes {env σ τ y} henv hrun hnone := by
    obtain ⟨_, _, hread, hloop⟩ := bind_ok hrun
    cases hread
    clear hrun
    generalize roundLimit env.source = n at hloop
    induction n generalizing σ x with
    | zero => cases hloop
    | succ n ih =>
      obtain ⟨step, υ, hfirst, hrest⟩ := bind_ok hloop
      cases step with
      | done =>
        cases hrest
        exact (hround x).closes henv hfirst hnone
      | yield =>
        exact (ih _ hrest).after ((hwalks x σ).reaches henv (.stay _) hfirst).grows

instance loopUntilEaten (rule : Parse Unit) [∀ σ, Walks σ rule] :
    ClosedBy k (Parse.loopUntilEaten k rule) where
  closes henv hrun hnone := by
    obtain ⟨υ, hreach, hkind, hnext⟩ := loopUntilEaten_ok henv hrun hnone
    exact ⟨υ, hreach.grows, hkind, hnext⟩

instance commaList (item : Parse Unit) [∀ σ, Walks σ item] : ClosedBy k (Parse.commaList k item) := by
  unfold Parse.commaList
  dsimp only
  infer_instance

end ClosedBy

/-! ## Numbers -/

/-- A number that has just been issued may be given to tokens. -/
theorem numbering_issued {s : Source} {d : Dialect} (hσ : Composed s d own base σ)
    (hsize : base.tokens.size < σ.tokens.size) : Numbering σ.nextContextId base σ.issued := by
  refine .inr ⟨hsize, fun hnone => ⟨hσ.toExtends.nextId, Nat.lt_succ_self _, ?_⟩⟩
  intro i e hi he hclass hid
  rcases hσ.issued hnone i e _ hi he hid with hrange | hother
  · exact absurd hrange.2 (Nat.lt_irrefl _)
  · exact hother.1 hclass

/-- The number may be given to more tokens. -/
theorem Spare.numbered {id : Nat} {e : Entry} (h : Spare base σ id) (he : σ.entries.getLast? = some e)
    (hclass : e.kind ≠ .classWord) : Spare base (σ.markLast (.numbered id)) id where
  low := h.low
  high := h.high
  noClass i e' hi he' hclass' hid := by
    rcases State.entry_markLast he' with ⟨hi', t, ht, rfl⟩ | ⟨-, hold⟩
    · have hentry := State.getElem?_entries σ i ▸ congrArg (Option.map Token.entry) ht
      rw [List.getLast?_eq_getElem?, State.length_entries, ← hi', Nat.add_sub_cancel, hentry] at he
      cases he
      exact hclass hclass'
    · exact h.noClass i e' hi hold hclass' hid

/-- After an error a number may be given to any token behind `base`. -/
theorem composed_numbered_lost {s : Source} {d : Dialect} {e : SyntaxError} (id : Nat)
    (hσ : Composed s d own base σ) (hsize : base.tokens.size < σ.tokens.size)
    (herror : σ.error? = some e) : Composed s d own base (σ.markLast (.numbered id)) :=
  hσ.amend (State.amends_markLast hsize _) fun hnone => by
    cases herror.symm.trans hnone

theorem composed_numbered {s : Source} {d : Dialect} {id : Nat} (hσ : Composed s d own base σ)
    (hsize : base.tokens.size < σ.tokens.size) (hP : Stamping id base σ) :
    Composed s d own base (σ.markLast (.numbered id)) := by
  cases herror : σ.error? with
  | none =>
    obtain ⟨e, he, hblank, hclass⟩ := hP.2 herror
    exact .stamp id hσ herror hsize he
      ⟨hblank, hclass, hP.1.imp_right fun hnumber => .inr (hnumber.2 herror)⟩
  | some => exact composed_numbered_lost id hσ hsize herror

theorem numbering_numbered {id : Nat} (hP : Stamping id base σ) :
    Numbering id base (σ.markLast (.numbered id)) := by
  refine hP.1.imp_right fun ⟨hsize, hspare⟩ => ⟨by simpa using hsize, fun hnone => ?_⟩
  obtain ⟨e, he, -, hclass⟩ := hP.2 hnone
  exact (hspare hnone).numbered he hclass

namespace Parse

instance (priority := high) (f : Nat → Parse α)
    [hf : ∀ id, Follows (Numbering id) own base (f id)] :
    Follows Beyond own base (freshContext >>= f) where
  composed {_ σ _ _} henv hσ hP hrun :=
    (hf _).composed henv (hσ.note σ.notes_issued) (numbering_issued hσ hP) hrun

theorem freshContext_ok {env : Env} {id : Nat} (h : freshContext env σ = .ok (id, τ)) :
    id = σ.nextContextId ∧ τ = σ.issued := by
  cases h
  exact ⟨rfl, rfl⟩

theorem setContext_ok {env : Env} {id : Nat} (h : setContext id env σ = .ok ((), τ)) :
    τ = σ.markLast (.numbered id) := by
  cases h
  rfl

theorem setContextIfAny_ok {env : Env} {id : Nat} (h : setContextIfAny id env σ = .ok ((), τ)) :
    (id = 0 ∧ τ = σ) ∨ (id ≠ 0 ∧ τ = σ.markLast (.numbered id)) := by
  by_cases hid : id = 0
  · subst hid
    cases h
    exact .inl ⟨rfl, rfl⟩
  · rw [setContextIfAny, if_pos (bne_iff_ne.2 hid)] at h
    cases h
    exact .inr ⟨hid, rfl⟩

instance (id : Nat) : Follows (Stamping id) own base (setContextIfAny id) where
  composed _ hσ hP hrun := by
    rcases setContextIfAny_ok hrun with ⟨-, rfl⟩ | ⟨hid, rfl⟩
    · exact hσ
    · exact composed_numbered hσ (hP.1.resolve_left hid).1 hP

instance (id : Nat) : Gives (Stamping id) own base (setContextIfAny id) (Numbering id) where
  gives _ _ hP hrun := by
    rcases setContextIfAny_ok hrun with ⟨-, rfl⟩ | ⟨-, rfl⟩
    · exact hP.1
    · exact numbering_numbered hP

/-- The number of the construct around, or none. -/
class IsOwn (own id : Nat) : Prop where
  eq : id = 0 ∨ id = own

instance (own : Nat) : IsOwn own own := ⟨.inr rfl⟩

instance (own : Nat) : IsOwn own 0 := ⟨.inl rfl⟩

/-- A name may be given the number of the construct around it. -/
theorem composed_named {s : Source} {d : Dialect} {id : Nat} (hid : IsOwn own id)
    (hσ : Composed s d own base σ) (hP : Named base σ) :
    Composed s d own base (σ.markLast (.numbered id)) := by
  cases herror : σ.error? with
  | none =>
    obtain ⟨e, he, hblank, hkind⟩ := hP.2 herror
    exact .stamp id hσ herror hP.1 he ⟨hblank, TokenKind.ne_classWord hkind,
      hid.eq.imp_right fun heq => .inl ⟨heq, hkind⟩⟩
  | some => exact composed_numbered_lost id hσ hP.1 herror

theorem loose_named (id : Nat) (hP : Named base σ) : Loose base (σ.markLast (.numbered id)) := by
  refine ⟨by simpa using hP.1, fun hnone => ?_⟩
  obtain ⟨e, he, -, hkind⟩ := hP.2 hnone
  refine ⟨{ e with contextId? := some id }, ?_, .inl hkind⟩
  rw [List.getLast?_eq_getElem?, State.length_entries] at he
  rw [State.size_markLast, State.markLast,
    State.entries_modifyToken σ _ (fun e => { e with contextId? := some id }) fun _ => rfl]
  simp [he]

instance (id : Nat) [hid : IsOwn own id] : Follows Named own base (setContext id) where
  composed _ hσ hP hrun := setContext_ok hrun ▸ composed_named hid hσ hP

instance (id : Nat) : Gives Named own base (setContext id) Loose where
  gives _ _ hP hrun := setContext_ok hrun ▸ loose_named id hP

instance (id : Nat) [hid : IsOwn own id] : Follows Named own base (setContextIfAny id) where
  composed _ hσ hP hrun := by
    rcases setContextIfAny_ok hrun with ⟨-, rfl⟩ | ⟨-, rfl⟩
    · exact hσ
    · exact composed_named hid hσ hP

instance (id : Nat) : Gives Named own base (setContextIfAny id) Loose where
  gives _ _ hP hrun := by
    rcases setContextIfAny_ok hrun with ⟨-, rfl⟩ | ⟨-, rfl⟩
    · exact hP.loose
    · exact loose_named id hP

/-- The closing token may be given the number. -/
theorem gives_closed {id : Nat} {k : TokenKind} {rule : Parse α} [hclosed : ClosedBy k rule]
    (hk : k ≠ .classWord) (hgives : Gives (Numbering id) own base rule (Numbering id)) :
    Gives (Numbering id) own base rule (Stamping id) where
  gives henv hσ hP hrun := by
    refine ⟨hgives.gives henv hσ hP hrun, fun hnone => ?_⟩
    obtain ⟨e, he, hkind, hblank⟩ := (hclosed.closes henv.walks hrun hnone).getLast?
    exact ⟨e, he, hblank, hkind ▸ hk⟩

instance (id : Nat) : Gives (Numbering id) own base (expect .parenOpen) (Stamping id) :=
  gives_closed (k := .parenOpen) (by decide) inferInstance

instance (id : Nat) : Gives (Numbering id) own base (expect .braceOpen) (Stamping id) :=
  gives_closed (k := .braceOpen) (by decide) inferInstance

instance (id : Nat) : Gives (Numbering id) own base (expect .comma) (Stamping id) :=
  gives_closed (k := .comma) (by decide) inferInstance

end Parse

end PlainScript.Grammar
