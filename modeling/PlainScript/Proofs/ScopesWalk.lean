import PlainScript.Proofs.Walks

/-!
# Rules that close scopes

A rule that records a scope remembers the number of tokens in a state, its mark, and closes the scope
in a later one. Between the two it consumes a token, so that no scope is empty. `Opens` is about what
such a rule does behind its mark as long as nothing need have been consumed, `Closes` about the part
from the first token up to the end.
-/

namespace PlainScript.Grammar

open Parse

variable {s : Source} {d : Dialect} {σ τ mark base : State} {α β : Type}

/-! ## Consuming -/

/-- A rule that consumes a token unless it ends with an error. -/
class Consumes (rule : Parse α) : Prop where
  lt {env : Env} {σ τ : State} {a : α} (henv : env.Walks) (hrun : rule env σ = .ok (a, τ))
    (hnone : τ.error? = none) : σ.tokens.size < τ.tokens.size

namespace Consumes

instance next : Consumes Parse.next where
  lt {env σ τ _} _ hrun _ := by
    have htokens : τ.tokens = σ.pushed.tokens := congrArg Prod.fst (readCode_record hrun)
    simp [htokens, State.pushed]

instance expect (k : TokenKind) : Consumes (Parse.expect k) where
  lt henv hrun hnone := by
    obtain ⟨eaten, υ, heat, hrest⟩ := bind_ok hrun
    rcases eat_ok heat with ⟨rfl, -, hnext⟩ | ⟨rfl, rfl⟩
    · cases hrest
      exact Consumes.lt henv hnext hnone
    · exact absurd hnone (fail_ok hrest).2

instance before (rule : Parse α) (f : α → Parse β) [hrule : Consumes rule]
    [hf : ∀ a σ, Walks σ (f a)] : Consumes (rule >>= f) where
  lt henv hrun hnone := by
    obtain ⟨a, υ, hfirst, hrest⟩ := bind_ok hrun
    have hgrows := Reaches.grows ((hf a υ).holds henv (.stay υ) hrest)
    exact Nat.lt_of_lt_of_le (hrule.lt henv hfirst (hgrows.error hnone)) hgrows.size

instance after (rule : Parse α) (f : α → Parse β) [hrule : ∀ σ, Walks σ rule]
    [hf : ∀ a, Consumes (f a)] : Consumes (rule >>= f) where
  lt {_ σ _ _} henv hrun hnone := by
    obtain ⟨a, υ, hfirst, hrest⟩ := bind_ok hrun
    have hgrows := Reaches.grows ((hrule σ).holds henv (.stay σ) hfirst)
    exact Nat.lt_of_le_of_lt hgrows.size ((hf a).lt henv hrest hnone)

instance identifier : Consumes Parse.identifier := by
  unfold Parse.identifier
  infer_instance

end Consumes

/-! ## Marks -/

/-- A scope may be closed that starts at the mark: the state can be reached from there, and tokens have
been consumed since unless there is an error. -/
structure Opened (s : Source) (d : Dialect) (mark σ : State) : Prop where
  reaches : Reaches s d mark σ
  lt : σ.error? = none → mark.tokens.size < σ.tokens.size

theorem Opened.trans (hσ : Opened s d mark σ) (hτ : Reaches s d σ τ) : Opened s d mark τ where
  reaches := hσ.reaches.trans hτ
  lt hnone := Nat.lt_of_lt_of_le (hσ.lt (hτ.grows.error hnone)) hτ.grows.size

/-- A rule that closes the scope of the mark, and leaves its state one from which the scope could be
closed. -/
class Closing (mark : State) (rule : Parse α) : Prop where
  opened {env : Env} {σ τ : State} {a : α} (henv : env.Walks)
    (hσ : Opened env.source env.dialect mark σ) (hrun : rule env σ = .ok (a, τ)) :
    Opened env.source env.dialect mark τ

/-- What a rule does from a state in which the scope of the mark may be closed. It never leaves what can
be reached from `base`, which lies before the mark. -/
class Closes (mark base : State) (rule : Parse α) : Prop where
  reaches {env : Env} {σ τ : State} {a : α} (henv : env.Walks)
    (hmark : Reaches env.source env.dialect base mark)
    (hσ : Opened env.source env.dialect mark σ) (hrun : rule env σ = .ok (a, τ)) :
    Reaches env.source env.dialect base τ

/-- What a rule does behind the mark, where nothing need have been consumed. -/
class Opens (mark base : State) (rule : Parse α) : Prop where
  reaches {env : Env} {σ τ : State} {a : α} (henv : env.Walks)
    (hmark : Reaches env.source env.dialect base mark)
    (hσ : Reaches env.source env.dialect mark σ) (hrun : rule env σ = .ok (a, τ)) :
    Reaches env.source env.dialect base τ

namespace Closing

instance closeScope (isFunction : Bool) :
    Closing mark (Parse.closeScope mark.tokens.size isFunction) where
  opened {env σ τ _} henv hσ hrun := by
    obtain ⟨_, υ, hrecord, hleave⟩ := bind_ok hrun
    cases hrecord
    have hclosed : Reaches env.source env.dialect mark
        (σ.addScope mark.tokens.size isFunction) :=
      .close isFunction (.stay _) hσ.reaches hσ.lt
    have hopened : Opened env.source env.dialect mark
        (σ.addScope mark.tokens.size isFunction) := ⟨hclosed, hσ.lt⟩
    exact hopened.trans (Walks.reaches henv (.stay _) hleave)

instance bind (rule : Parse α) (f : α → Parse β) [hrule : ∀ σ, Walks σ rule]
    [hf : ∀ a, Closing mark (f a)] : Closing mark (rule >>= f) where
  opened henv hσ hrun := by
    obtain ⟨a, υ, hfirst, hrest⟩ := bind_ok hrun
    exact (hf a).opened henv (hσ.trans ((hrule _).holds henv (.stay _) hfirst)) hrest

instance ite (c : Prop) [Decidable c] (a b : Parse α) [Closing mark a] [Closing mark b] :
    Closing mark (if c then a else b) := by
  split <;> infer_instance

end Closing

namespace Closes

instance (priority := low) ofWalks (rule : Parse α) [hrule : Walks base rule] :
    Closes mark base rule where
  reaches henv hmark hσ hrun := hrule.reaches henv (hmark.trans hσ.reaches) hrun

instance (rule : Parse α) [hrule : Closing mark rule] : Closes mark base rule where
  reaches henv hmark hσ hrun := hmark.trans (hrule.opened henv hσ hrun).reaches

instance bind (rule : Parse α) (f : α → Parse β) [hrule : ∀ σ, Walks σ rule]
    [hf : ∀ a, Closes mark base (f a)] : Closes mark base (rule >>= f) where
  reaches henv hmark hσ hrun := by
    obtain ⟨a, υ, hfirst, hrest⟩ := bind_ok hrun
    exact (hf a).reaches henv hmark (hσ.trans ((hrule _).holds henv (.stay _) hfirst)) hrest

instance (priority := high) (rule : Parse α) (f : α → Parse β)
    [hrule : Closing mark rule] [hf : ∀ a, Closes base base (f a)] :
    Closes mark base (rule >>= f) where
  reaches henv hmark hσ hrun := by
    obtain ⟨a, υ, hfirst, hrest⟩ := bind_ok hrun
    have hυ := hrule.opened henv hσ hfirst
    refine (hf a).reaches henv (.stay base) ⟨hmark.trans hυ.reaches, fun hnone => ?_⟩ hrest
    exact Nat.lt_of_le_of_lt hmark.grows.size (hυ.lt hnone)

instance ite (c : Prop) [Decidable c] (a b : Parse α) [Closes mark base a] [Closes mark base b] :
    Closes mark base (if c then a else b) := by
  split <;> infer_instance

end Closes

namespace Opens

instance (priority := low) ofWalks (rule : Parse α) [hrule : Walks mark rule] :
    Opens mark base rule where
  reaches henv hmark hσ hrun := hmark.trans (hrule.reaches henv hσ hrun)

instance bind (rule : Parse α) (f : α → Parse β) [hrule : Walks mark rule]
    [hf : ∀ a, Opens mark base (f a)] : Opens mark base (rule >>= f) where
  reaches henv hmark hσ hrun := by
    obtain ⟨a, υ, hfirst, hrest⟩ := bind_ok hrun
    exact (hf a).reaches henv hmark (hrule.reaches henv hσ hfirst) hrest

instance (priority := high) (rule : Parse α) (f : α → Parse β) [hrule : Consumes rule]
    [hwalks : Walks mark rule] [hf : ∀ a, Closes mark base (f a)] :
    Opens mark base (rule >>= f) where
  reaches henv hmark hσ hrun := by
    obtain ⟨a, υ, hfirst, hrest⟩ := bind_ok hrun
    refine (hf a).reaches henv hmark ⟨hwalks.reaches henv hσ hfirst, fun hnone => ?_⟩ hrest
    exact Nat.lt_of_le_of_lt hσ.grows.size (hrule.lt henv hfirst hnone)

instance ite (c : Prop) [Decidable c] (a b : Parse α) [Opens mark base a] [Opens mark base b] :
    Opens mark base (if c then a else b) := by
  split <;> infer_instance

instance (priority := low) ofMark (f : Nat → Parse α)
    [hf : ∀ inner : State, Opens inner mark (f inner.tokens.size)] :
    Opens mark base (tokenIndex >>= f) where
  reaches henv hmark hσ hrun := hmark.trans ((hf _).reaches henv hσ (.stay _) hrun)

end Opens

theorem Walks.ofMark (f : Nat → Parse α) [hf : ∀ mark : State, Opens mark mark (f mark.tokens.size)] :
    Walks base (tokenIndex >>= f) where
  holds henv hσ hrun := hσ.trans ((hf _).reaches henv (.stay _) (.stay _) hrun)

theorem Walks.ofMarkedSnapshot (f : Snapshot → Nat → Parse α)
    [hf : ∀ mark : State, Opens mark mark (f mark.snapshot mark.tokens.size)] :
    Walks base (Parse.snapshot >>= fun p => tokenIndex >>= f p) where
  holds henv hσ hrun := hσ.trans ((hf _).reaches henv (.stay _) (.stay _) hrun)

end PlainScript.Grammar
