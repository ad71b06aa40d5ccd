import PlainScript.Proofs.Composition
import PlainScript.Proofs.PrimitivesRun

/-!
# Rules compose

A rule of the grammar leaves behind what `Composed` describes. Unlike a walk, a rule may depend on where
it is entered: the kind of a token may be changed only as long as the token is the last one, a number
may be given to a token only behind the state that the parser may go back to, and so on. A `Mode` is
such a condition on the state that a rule was entered in and the current one. `Follows P` is about what
a rule does in a mode, and `Gives` about the mode in which it leaves the state. As with walks, the
instances for a rule follow its text.
-/

namespace PlainScript.Grammar

open Parse

variable {base σ τ υ : State} {own : Nat} {α β : Type}

/-! ## Modes -/

/-- A condition on the state that the parser may go back to and the current one. -/
abbrev Mode := State → State → Prop

/-- No condition. -/
def Anywhere : Mode := fun _ _ => True

/-- A token has been consumed. -/
def Beyond : Mode := fun base σ => base.tokens.size < σ.tokens.size

/-- A token has been consumed, or there is an error. -/
def Past : Mode := fun base σ => σ.error? = none → base.tokens.size < σ.tokens.size

/-- A token has been consumed, and the kind of the last one may be changed. -/
def Loose : Mode := fun base σ =>
  base.tokens.size < σ.tokens.size ∧ (σ.error? = none → σ.IsLoose (σ.tokens.size - 1))

/-- A token has been consumed, and the last one pairs nothing and carries no number. -/
def Named : Mode := fun base σ =>
  base.tokens.size < σ.tokens.size ∧ (σ.error? = none → ∃ e,
    σ.entries.getLast? = some e ∧ e.contextId? = none ∧ e.kind.isStructural = false)

/-- No token has been consumed. -/
def Unmoved : Mode := fun base σ => base.tokens.size = σ.tokens.size

/-- One token has been consumed. -/
def Single : Mode := fun base σ => base.tokens.size + 1 = σ.tokens.size

/-- A token has been consumed, and the last one pairs nothing, whatever it carries. -/
def Worded : Mode := fun base σ => base.tokens.size < σ.tokens.size ∧ σ.EndsPlainly

/-- An expression starts at a token before `base`. -/
def Started (start : Nat) : Mode := fun base _ => base.error? = none → start < base.tokens.size

/-- The first token of a subscript has been consumed. -/
def Subscript (start : Nat) : Mode := fun base σ => Started start base σ ∧ Worded base σ

/-- An operand starts at a token behind `base`. -/
def Operand (start : Nat) : Mode := fun base σ =>
  base.tokens.size ≤ start ∧ (σ.error? = none → start < σ.tokens.size)

/-- A number may be given to tokens. -/
def Numbering (id : Nat) : Mode := fun base σ =>
  id = 0 ∨ (base.tokens.size < σ.tokens.size ∧ (σ.error? = none → Spare base σ id))

/-- A number may be given to the last token. -/
def Stamping (id : Nat) : Mode := fun base σ =>
  Numbering id base σ ∧ (σ.error? = none →
    ∃ e, σ.entries.getLast? = some e ∧ e.contextId? = none ∧ e.kind ≠ .classWord)

/-- The current lexeme is not the end of the text. -/
def AtText : Mode := fun _ σ => IsText σ.current

/-- The current lexeme is of a kind. -/
def At (P : Mode) (k : TokenKind) : Mode := fun base σ => P base σ ∧ σ.current.kind = k

/-- The lexeme to which the parser may go back is of a kind. -/
def BaseAt (k : TokenKind) : Mode := fun base _ => base.current.kind = k

/-- The current lexeme is of a kind that pairs nothing. -/
def AtPlain : Mode := fun _ σ => σ.current.kind.isStructural = false

/-- A mode that does not depend on the current state. -/
class Basal (P : Mode) : Prop where
  keeps {base σ τ : State} : P base σ → P base τ

instance : Basal Anywhere := ⟨id⟩

instance (start : Nat) : Basal (Started start) := ⟨id⟩

instance (k : TokenKind) : Basal (BaseAt k) := ⟨id⟩

/-- A mode that notes do not affect. -/
class Stable (P : Mode) : Prop where
  note {base σ τ : State} : P base σ → σ.Notes τ → P base τ

instance (priority := low) (P : Mode) [hP : Basal P] : Stable P := ⟨fun h _ => hP.keeps h⟩

instance stable_beyond : Stable Beyond := ⟨fun h hnote => by rw [Beyond, hnote.size_eq]; exact h⟩

instance : Stable Past :=
  ⟨fun h hnote => by rw [Past, hnote.size_eq, hnote.error]; exact h⟩

instance : Stable Loose :=
  ⟨fun h hnote => by
    rw [Loose, State.IsLoose, hnote.size_eq, hnote.error, hnote.entries]
    exact h⟩

instance : Stable Named :=
  ⟨fun h hnote => by
    rw [Named, hnote.size_eq, hnote.error, hnote.entries]
    exact h⟩

instance : Stable Unmoved := ⟨fun h hnote => by rw [Unmoved, hnote.size_eq]; exact h⟩

instance : Stable Single := ⟨fun h hnote => by rw [Single, hnote.size_eq]; exact h⟩

instance stable_worded : Stable Worded :=
  ⟨fun h hnote => by
    rw [Worded, State.EndsPlainly, hnote.size_eq, hnote.entries]
    exact h⟩

instance (start : Nat) : Stable (Subscript start) :=
  ⟨fun h hnote => ⟨h.1, stable_worded.note h.2 hnote⟩⟩

instance (start : Nat) : Stable (Operand start) :=
  ⟨fun h hnote => by
    rw [Operand, hnote.size_eq, hnote.error]
    exact h⟩

theorem Spare.note {id : Nat} (h : Spare base σ id) (hnote : σ.Notes τ) : Spare base τ id where
  low := h.low
  high := Nat.lt_of_lt_of_le h.high hnote.nextId
  noClass i e hi he := h.noClass i e hi (hnote.entries ▸ he)

/-- Classes that are read later have other numbers. -/
theorem Spare.after {id : Nat} (h : Spare base σ id) (hτ : σ.Extends τ) (hissued : Issued own σ τ) :
    Spare base τ id where
  low := h.low
  high := Nat.lt_of_lt_of_le h.high hτ.nextId
  noClass i e hi he hclass hid := by
    rcases Nat.lt_or_ge i σ.tokens.size with hlt | hge
    · exact h.noClass i e hi (hτ.getElem? hlt ▸ he) hclass hid
    · rcases hissued i e id hge he hid with hrange | hother
      · exact absurd h.high (by omega)
      · exact hother.1 hclass

instance (id : Nat) : Stable (Numbering id) where
  note h hnote := h.imp_right fun hσ =>
    ⟨stable_beyond.note hσ.1 hnote, fun hnone => (hσ.2 (hnote.error ▸ hnone)).note hnote⟩

instance (id : Nat) : Stable (Stamping id) where
  note h hnote := by
    refine ⟨Stable.note h.1 hnote, ?_⟩
    rw [hnote.error, hnote.entries]
    exact h.2

instance : Stable AtText := ⟨fun h hnote => by rw [AtText, hnote.current]; exact h⟩

instance (P : Mode) [hP : Stable P] (k : TokenKind) : Stable (At P k) :=
  ⟨fun h hnote => ⟨hP.note h.1 hnote, by rw [hnote.current]; exact h.2⟩⟩

/-- A mode that the current state is in as well when the parser may go back to it. -/
class Rebased (P : Mode) : Prop where
  rebase {base σ : State} : base.Extends σ → P base σ → P σ σ

instance : Rebased Anywhere := ⟨fun _ => id⟩

instance (start : Nat) : Rebased (Started start) :=
  ⟨fun hσ h hnone => Nat.lt_of_lt_of_le (h (hσ.error hnone)) hσ.size_le⟩

instance : Rebased AtText := ⟨fun _ => id⟩

instance (P : Mode) [hP : Rebased P] (k : TokenKind) : Rebased (At P k) :=
  ⟨fun hσ h => ⟨hP.rebase hσ h.1, h.2⟩⟩

/-- What holds in either of two modes. -/
class Join (P Q : Mode) (R : outParam Mode) : Prop where
  left {base σ : State} : P base σ → R base σ
  right {base σ : State} : Q base σ → R base σ

instance (priority := low) (P Q : Mode) : Join P Q Anywhere := ⟨fun _ => trivial, fun _ => trivial⟩

instance (priority := high) (P : Mode) : Join P P P := ⟨id, id⟩

theorem Named.loose (h : Named base σ) : Loose base σ := by
  refine ⟨h.1, fun hnone => ?_⟩
  obtain ⟨e, he, -, hkind⟩ := h.2 hnone
  rw [List.getLast?_eq_getElem?, State.length_entries] at he
  exact ⟨e, he, .inl hkind⟩

theorem Worded.loose (h : Worded base σ) : Loose base σ := by
  refine ⟨h.1, fun _ => ?_⟩
  obtain ⟨e, he, hkind⟩ := h.2
  rw [List.getLast?_eq_getElem?, State.length_entries] at he
  exact ⟨e, he, .inl hkind⟩

/-- A mode that is a case of another one. -/
class Weakens (P : Mode) (Q : outParam Mode) : Prop where
  imp {base σ : State} : P base σ → Q base σ

instance : Weakens Beyond Anywhere := ⟨fun _ => trivial⟩

instance : Weakens Loose Beyond := ⟨And.left⟩

instance : Weakens Named Loose := ⟨Named.loose⟩

instance : Weakens Worded Loose := ⟨Worded.loose⟩

instance : Weakens Unmoved Anywhere := ⟨fun _ => trivial⟩

instance : Weakens Single Anywhere := ⟨fun _ => trivial⟩

instance : Weakens Past Anywhere := ⟨fun _ => trivial⟩

instance (start : Nat) : Weakens (Started start) Anywhere := ⟨fun _ => trivial⟩

instance (start : Nat) : Weakens (Subscript start) (Started start) := ⟨And.left⟩

instance (start : Nat) : Weakens (Operand start) Anywhere := ⟨fun _ => trivial⟩

instance (id : Nat) : Weakens (Numbering id) Anywhere := ⟨fun _ => trivial⟩

instance (id : Nat) : Weakens (Stamping id) (Numbering id) := ⟨And.left⟩

instance : Weakens AtText Anywhere := ⟨fun _ => trivial⟩

instance (P : Mode) (k : TokenKind) : Weakens (At P k) P := ⟨And.left⟩

instance (k : TokenKind) : Weakens (BaseAt k) Anywhere := ⟨fun _ => trivial⟩

instance (P Q : Mode) [h : Weakens P Q] : Join P Q Q := ⟨h.imp, id⟩

instance (P Q : Mode) [h : Weakens P Q] : Join Q P Q := ⟨id, h.imp⟩

instance : Join Named Beyond Beyond := ⟨And.left, id⟩

instance : Join Beyond Named Beyond := ⟨id, And.left⟩

/-! ## Rules in a mode -/

/-- When a goal may be set. -/
def Goal.Fits (s : Source) (d : Dialect) (own : Nat) (base σ : State) : Goal → Prop
  | .operators start _ _ => Operand start base σ
  | .subscripts start _ => σ.error? = none → start < σ.tokens.size
  | .block _ id => Numbering id base σ
  | .object .. => σ.OpensObject
  | .importClause => Beyond base σ
  -- The `export` is the last token.
  | .exportClause => ∃ μ, Composed s d own base μ ∧ Composed s d own μ σ ∧
      μ.tokens.size + 1 = σ.tokens.size
  | _ => True

/-- A goal that is not met without consuming a token. -/
def Goal.lengthens : Goal → Bool
  | .unary | .classDefinition .. => true
  | _ => false

/-- Meeting a goal that may be set leaves behind what a rule may leave behind. -/
structure Env.Composes (env : Env) : Prop where
  walks : env.Walks
  composed {g : Goal} {own : Nat} {base σ τ : State} {b : Bool} :
    Composed env.source env.dialect own base σ → g.Fits env.source env.dialect own base σ →
    env.recur g σ = .ok (b, τ) → Composed env.source env.dialect own base τ
  lengthens {g : Goal} {σ τ : State} {b : Bool} : g.lengthens = true →
    env.recur g σ = .ok (b, τ) → τ.error? = none → σ.tokens.size < τ.tokens.size

/-- Recording nothing about other tokens. -/
def noting : Law Parse where
  Holds {α} rule := ∀ {env : Env} {σ τ : State} {a : α}, env.Composes → rule env σ = .ok (a, τ) →
    σ.Notes τ
  pure _ _ _ _ _ _ hrun := by
    cases hrun
    exact .refl _
  bind hrule hf _ _ _ _ henv hrun := by
    obtain ⟨a, υ, hfirst, hrest⟩ := bind_ok hrun
    exact (hrule henv hfirst).trans (hf a henv hrest)

/-- A rule that records nothing about other tokens. -/
abbrev Noting (rule : Parse α) : Prop := Obeys noting rule

instance : Still noting where
  holds h _ _ _ _ _ hrun := h hrun ▸ .refl _

theorem Noting.notes {rule : Parse α} [h : Noting rule] {env : Env} {a : α} (henv : env.Composes)
    (hrun : rule env σ = .ok (a, τ)) : σ.Notes τ :=
  h.holds henv hrun

/-- What a rule does in a mode. -/
class Follows (P : Mode) (own : Nat) (base : State) (rule : Parse α) : Prop where
  composed {env : Env} {σ τ : State} {a : α} (henv : env.Composes)
    (hσ : Composed env.source env.dialect own base σ) (hP : P base σ)
    (hrun : rule env σ = .ok (a, τ)) : Composed env.source env.dialect own base τ

/-- The mode in which a rule leaves the state. -/
class Gives (P : Mode) (own : Nat) (base : State) (rule : Parse α) (Q : outParam Mode) : Prop where
  gives {env : Env} {σ τ : State} {a : α} (henv : env.Composes)
    (hσ : Composed env.source env.dialect own base σ) (hP : P base σ)
    (hrun : rule env σ = .ok (a, τ)) : Q base τ

/-- The modes in which a condition leaves the state when it holds and when it does not. -/
class Splits (P : Mode) (own : Nat) (base : State) (c : Parse Bool) (Q R : outParam Mode) :
    Prop where
  ifTrue {env : Env} {σ τ : State} (henv : env.Composes)
    (hσ : Composed env.source env.dialect own base σ) (hP : P base σ)
    (hrun : c env σ = .ok (true, τ)) : Q base τ
  ifFalse {env : Env} {σ τ : State} (henv : env.Composes)
    (hσ : Composed env.source env.dialect own base σ) (hP : P base σ)
    (hrun : c env σ = .ok (false, τ)) : R base τ

/-! ## Consuming -/

/-- A rule that only adds tokens. -/
class Growing (rule : Parse α) : Prop where
  grows {env : Env} {σ τ : State} {a : α} (henv : env.Composes) (hrun : rule env σ = .ok (a, τ)) :
    σ.Grows τ

instance (rule : Parse α) [hrule : ∀ σ, Walks σ rule] : Growing rule :=
  ⟨fun henv hrun => ((hrule _).reaches henv.walks (.stay _) hrun).grows⟩

theorem extends_of_follows {rule : Parse α} (hrule : ∀ σ, Follows Anywhere 0 σ rule) {env : Env} {a : α}
    (henv : env.Composes) (hrun : rule env σ = .ok (a, τ)) : σ.Extends τ :=
  ((hrule σ).composed henv (.stay σ) trivial hrun).toExtends

instance (priority := low) (rule : Parse α) [hrule : ∀ σ, Follows Anywhere 0 σ rule] :
    Growing rule where
  grows henv hrun :=
    have h := extends_of_follows hrule henv hrun
    ⟨h.size_le, h.error⟩

instance (priority := low) (rule : Parse α) [hrule : Noting rule] : Growing rule :=
  ⟨fun henv hrun => ⟨Nat.le_of_eq (hrule.notes henv hrun).size_eq.symm, (hrule.notes henv hrun).toExtends.error⟩⟩

instance (priority := low) (rule : Parse α) (f : α → Parse β) [hrule : Growing rule]
    [hf : ∀ a, Growing (f a)] : Growing (rule >>= f) where
  grows henv hrun := by
    obtain ⟨a, υ, hfirst, hrest⟩ := bind_ok hrun
    exact (hrule.grows henv hfirst).trans ((hf a).grows henv hrest)

instance (priority := low) (c : Prop) [Decidable c] (a b : Parse α) [Growing a] [Growing b] :
    Growing (if c then a else b) := by
  split <;> infer_instance

/-- A rule that consumes a token unless it ends with an error. -/
class Lengthens (rule : Parse α) : Prop where
  lt {env : Env} {σ τ : State} {a : α} (henv : env.Composes) (hrun : rule env σ = .ok (a, τ))
    (hnone : τ.error? = none) : σ.tokens.size < τ.tokens.size

namespace Lengthens

instance (priority := low) (rule : Parse α) [hrule : Consumes rule] : Lengthens rule :=
  ⟨fun henv => hrule.lt henv.walks⟩

instance before (rule : Parse α) (f : α → Parse β) [hrule : Lengthens rule]
    [hf : ∀ a, Growing (f a)] : Lengthens (rule >>= f) where
  lt henv hrun hnone := by
    obtain ⟨a, υ, hfirst, hrest⟩ := bind_ok hrun
    have hgrows := (hf a).grows henv hrest
    exact Nat.lt_of_lt_of_le (hrule.lt henv hfirst (hgrows.error hnone)) hgrows.size

instance after (rule : Parse α) (f : α → Parse β) [hrule : Growing rule]
    [hf : ∀ a, Lengthens (f a)] : Lengthens (rule >>= f) where
  lt {_ σ _ _} henv hrun hnone := by
    obtain ⟨a, υ, hfirst, hrest⟩ := bind_ok hrun
    exact Nat.lt_of_le_of_lt (hrule.grows henv hfirst).size ((hf a).lt henv hrest hnone)

theorem andThen {rule : Parse α} {f : α → Parse β} [Growing rule] (hf : ∀ a, Lengthens (f a)) :
    Lengthens (rule >>= f) :=
  Lengthens.after rule f

instance ite (c : Prop) [Decidable c] (a b : Parse α) [Lengthens a] [Lengthens b] :
    Lengthens (if c then a else b) := by
  split <;> infer_instance

theorem reach {g : Goal} (hg : g.lengthens = true) : Lengthens (Parse.reach g) where
  lt henv hrun hnone := by
    change (Functor.mapConst PUnit.unit (Parse.reachArrow g) : Parse Unit) _ _ = _ at hrun
    rw [LawfulFunctor.map_const, Function.comp_apply, map_eq_pure_bind] at hrun
    obtain ⟨b, υ, hgoal, hpure⟩ := bind_ok hrun
    cases hpure
    exact henv.lengthens hg hgoal hnone

instance reachUnary : Lengthens (Parse.reach .unary) := reach rfl

instance (isStatement optionalName : Bool) :
    Lengthens (Parse.reach (.classDefinition isStatement optionalName)) :=
  reach rfl

instance fail (cause : SyntaxError.Cause) (pos : Nat) : Lengthens (Parse.fail cause pos) :=
  ⟨fun _ hrun hnone => absurd hnone (fail_ok hrun).2⟩

instance unexpected : Lengthens Parse.unexpected :=
  ⟨fun _ hrun hnone => absurd hnone (fail_ok hrun).2⟩

theorem ofSnapshot {f : Snapshot → Parse α} [hf : ∀ σ : State, Gives Anywhere 0 σ (f σ.snapshot) Past] :
    Lengthens (Parse.snapshot >>= f) where
  lt henv hrun hnone := (hf _).gives henv (.stay _) trivial hrun hnone

end Lengthens

instance (k : TokenKind) : Growing (retype k) where
  grows _ hrun := by
    cases hrun
    exact ⟨Nat.le_refl _, id⟩

instance : Growing rereadRegexp where
  grows {_ σ _ _} _ hrun := by
    have hsettle : settle σ.current.start _ _ σ = _ := hrun
    have htokens := congrArg Prod.fst (settle_record hsettle)
    exact ⟨Nat.le_of_eq (congrArg Array.size htokens.symm), fun hnone => ((settle_ok hsettle).2 hnone).1⟩

/-! ## Notes -/

namespace Noting

instance flags (isType : State → Bool) (depth : State → Nat) (arrowAt? : State → Option Nat)
    (noFunctionType noConditionalType : State → Bool) (scopes : State → Array Scope) :
    Noting (modify fun σ => ⟨⟨σ.current, isType σ, depth σ, arrowAt? σ, noFunctionType σ,
      noConditionalType σ, σ.error?⟩, σ.tokens, scopes σ, σ.nextContextId⟩ : Parse Unit) where
  holds _ hrun := by
    cases hrun
    exact ⟨⟨rfl, rfl, rfl⟩, rfl, Nat.le_refl _⟩

instance peek (rule : Parse α) [hrule : ∀ σ, Follows Anywhere 0 σ rule] : Noting (Parse.peek rule) where
  holds henv hrun := by
    obtain ⟨p, σ', hsnapshot, hrest⟩ := bind_ok hrun
    cases hsnapshot
    obtain ⟨a, υ, hinside, hrest⟩ := bind_ok hrest
    obtain ⟨_, τ', hrestore, hpure⟩ := bind_ok hrest
    cases hrestore
    cases hpure
    exact ((hrule _).composed henv (.stay _) trivial hinside).toExtends.notes_restore

end Noting

/-! ## Where a rule leaves the state -/

namespace Gives

variable {P Q R : Mode}

instance (priority := 10) forget (rule : Parse α) : Gives P own base rule Anywhere := ⟨fun _ _ _ _ => trivial⟩

instance (priority := 50) basal (rule : Parse α) [hP : Basal P] : Gives P own base rule P :=
  ⟨fun _ _ h _ => hP.keeps h⟩

instance (priority := 60) inAt (k : TokenKind) (rule : Parse α) [h : Gives P own base rule Q] :
    Gives (At P k) own base rule Q :=
  ⟨fun henv hσ hP hrun => h.gives henv hσ hP.1 hrun⟩

instance (priority := high) noting (rule : Parse α) [hrule : Noting rule] [hP : Stable P] :
    Gives P own base rule P :=
  ⟨fun henv _ h hrun => hP.note h (hrule.notes henv hrun)⟩

instance (priority := 100) beyond (rule : Parse α) [hrule : Growing rule] :
    Gives Beyond own base rule Beyond :=
  ⟨fun henv _ h hrun => Nat.lt_of_lt_of_le h (hrule.grows henv hrun).size⟩

instance (priority := 100) loose (rule : Parse α) [hrule : Growing rule] :
    Gives Loose own base rule Beyond :=
  ⟨fun henv _ h hrun => Nat.lt_of_lt_of_le h.1 (hrule.grows henv hrun).size⟩

instance (priority := 100) named (rule : Parse α) [hrule : Growing rule] :
    Gives Named own base rule Beyond :=
  ⟨fun henv _ h hrun => Nat.lt_of_lt_of_le h.1 (hrule.grows henv hrun).size⟩

instance (priority := 100) past (rule : Parse α) [hrule : Growing rule] :
    Gives Past own base rule Past :=
  ⟨fun henv _ h hrun hnone =>
    have hgrows := hrule.grows henv hrun
    Nat.lt_of_lt_of_le (h (hgrows.error hnone)) hgrows.size⟩

theorem ofLengthens {rule : Parse α} [hrule : Lengthens rule] : Gives Anywhere own base rule Past :=
  ⟨fun henv hσ _ hrun hnone => Nat.lt_of_le_of_lt hσ.toExtends.size_le (hrule.lt henv hrun hnone)⟩

instance (priority := 100) subscript (start : Nat) (rule : Parse α) :
    Gives (Subscript start) own base rule (Started start) :=
  ⟨fun _ _ h _ => h.1⟩

instance (priority := 100) operand (start : Nat) (rule : Parse α) [hrule : Growing rule] :
    Gives (Operand start) own base rule (Operand start) :=
  ⟨fun henv _ h hrun =>
    have hgrows := hrule.grows henv hrun
    ⟨h.1, fun hnone => Nat.lt_of_lt_of_le (h.2 (hgrows.error hnone)) hgrows.size⟩⟩

instance (priority := 100) numbering (id : Nat) (rule : Parse α)
    [hrule : ∀ σ, Follows Anywhere own σ rule] : Gives (Numbering id) own base rule (Numbering id) where
  gives {env σ τ a} henv hσ h hrun := by
    have hτ := (hrule σ).composed henv (.stay σ) trivial hrun
    refine h.imp_right fun hσ' => ⟨Nat.lt_of_lt_of_le hσ'.1 hτ.toExtends.size_le, fun hnone => ?_⟩
    exact (hσ'.2 (hτ.toExtends.error hnone)).after hτ.toExtends (hτ.issued hnone)

instance (priority := 90) (id : Nat) (rule : Parse α)
    [hrule : ∀ σ, Follows Anywhere own σ rule] : Gives (Stamping id) own base rule (Numbering id) :=
  ⟨fun henv hσ h hrun => (numbering id rule).gives henv hσ h.1 hrun⟩

instance (priority := 150) bind (rule : Parse α) (f : α → Parse β) [hrule : Follows P own base rule]
    [hgives : Gives P own base rule Q] [hf : ∀ a, Gives Q own base (f a) R] :
    Gives P own base (rule >>= f) R where
  gives henv hσ hP hrun := by
    obtain ⟨a, υ, hfirst, hrest⟩ := bind_ok hrun
    exact (hf a).gives henv (hrule.composed henv hσ hP hfirst) (hgives.gives henv hσ hP hfirst) hrest

instance (priority := 150) ite {Q₁ Q₂ : Mode} (c : Prop) [Decidable c] (a b : Parse α)
    [ha : Gives P own base a Q₁] [hb : Gives P own base b Q₂] [hjoin : Join Q₁ Q₂ Q] :
    Gives P own base (if c then a else b) Q := by
  split
  · exact ⟨fun henv hσ hP hrun => hjoin.left (ha.gives henv hσ hP hrun)⟩
  · exact ⟨fun henv hσ hP hrun => hjoin.right (hb.gives henv hσ hP hrun)⟩

instance (priority := high) iteTrue (a b : Parse α) [h : Gives P own base a Q] :
    Gives P own base (if true = true then a else b) Q :=
  h

instance (priority := high) iteFalse (a b : Parse α) [h : Gives P own base b Q] :
    Gives P own base (if false = true then a else b) Q :=
  h

instance (priority := 120) {Q₁ Q₂ : Mode} (c : Parse Bool)
    [hc : Splits P own base c Q₁ Q₂] [hjoin : Join Q₁ Q₂ Q] : Gives P own base c Q where
  gives {env σ τ holds} henv hσ hP hrun := by
    cases holds with
    | true => exact hjoin.left (hc.ifTrue henv hσ hP hrun)
    | false => exact hjoin.right (hc.ifFalse henv hσ hP hrun)

instance (priority := 160) bindSplits {Q₁ Q₂ R₁ R₂ : Mode} (c : Parse Bool) (f : Bool → Parse α)
    [hc : Follows P own base c] [hsplits : Splits P own base c Q₁ Q₂]
    [htrue : Gives Q₁ own base (f true) R₁] [hfalse : Gives Q₂ own base (f false) R₂]
    [hjoin : Join R₁ R₂ R] : Gives P own base (c >>= f) R where
  gives henv hσ hP hrun := by
    obtain ⟨holds, υ, hfirst, hrest⟩ := bind_ok hrun
    have hυ := hc.composed henv hσ hP hfirst
    cases holds with
    | true => exact hjoin.left (htrue.gives henv hυ (hsplits.ifTrue henv hσ hP hfirst) hrest)
    | false => exact hjoin.right (hfalse.gives henv hυ (hsplits.ifFalse henv hσ hP hfirst) hrest)

instance (priority := 150) map (f : α → β) (rule : Parse α) [hrule : Gives P own base rule Q] :
    Gives P own base (f <$> rule) Q where
  gives henv hσ hP hrun := by
    rw [map_eq_pure_bind] at hrun
    obtain ⟨a, υ, hfirst, hrest⟩ := bind_ok hrun
    cases hrest
    exact hrule.gives henv hσ hP hfirst

instance (priority := 150) discard (rule : Parse α) [hrule : Gives P own base rule Q] :
    Gives P own base (Functor.discard rule) Q := by
  unfold Functor.discard
  exact Gives.map _ rule

instance (priority := 150) and {S : Mode} (a b : Parse Bool) [ha : Follows P own base a]
    [hgives : Gives P own base a Q] [hb : Gives Q own base b R] [hjoin : Join Q R S] :
    Gives P own base (a <&&> b) S where
  gives henv hσ hP hrun := by
    obtain ⟨holds, υ, hfirst, hrest⟩ := bind_ok hrun
    have hQ := hgives.gives henv hσ hP hfirst
    cases holds with
    | true => exact hjoin.right (hb.gives henv (ha.composed henv hσ hP hfirst) hQ hrest)
    | false =>
      cases hrest
      exact hjoin.left hQ

instance (priority := 150) or {S : Mode} (a b : Parse Bool) [ha : Follows P own base a]
    [hgives : Gives P own base a Q] [hb : Gives Q own base b R] [hjoin : Join Q R S] :
    Gives P own base (a <||> b) S where
  gives henv hσ hP hrun := by
    obtain ⟨holds, υ, hfirst, hrest⟩ := bind_ok hrun
    have hQ := hgives.gives henv hσ hP hfirst
    cases holds with
    | true =>
      cases hrest
      exact hjoin.left hQ
    | false => exact hjoin.right (hb.gives henv (ha.composed henv hσ hP hfirst) hQ hrest)

end Gives

/-- Going back makes the same lexeme current again. -/
instance (k : TokenKind) : Gives (BaseAt k) own base (restore base.snapshot) (At Anywhere k) where
  gives _ _ h hrun := by
    cases hrun
    exact ⟨trivial, h⟩

theorem composed_of_iterate {P : Mode} {env : Env} {x y : β} {round : β → Parse (ForInStep β)}
    [hround : ∀ x, Follows P own base (round x)] [hgives : ∀ x, Gives P own base (round x) P]
    (henv : env.Composes) (hσ : Composed env.source env.dialect own base σ) (hP : P base σ)
    (hrun : Parse.iterate x round env σ = .ok (y, τ)) :
    Composed env.source env.dialect own base τ ∧ P base τ := by
  obtain ⟨_, _, hread, hloop⟩ := bind_ok hrun
  cases hread
  clear hrun
  generalize roundLimit env.source = n at hloop
  induction n generalizing x σ with
  | zero => cases hloop
  | succ n ih =>
    obtain ⟨step, υ, hfirst, hrest⟩ := bind_ok hloop
    have hυ := (hround x).composed henv hσ hP hfirst
    have hP' := (hgives x).gives henv hσ hP hfirst
    cases step with
    | done =>
      cases hrest
      exact ⟨hυ, hP'⟩
    | yield => exact ih hυ hP' hrest

theorem Gives.iterateIn {P : Mode} {x : β} {round : β → Parse (ForInStep β)}
    [hround : ∀ x, Follows P own base (round x)] [hgives : ∀ x, Gives P own base (round x) P] :
    Gives P own base (Parse.iterate x round) P :=
  ⟨fun henv hσ hP hrun => (composed_of_iterate henv hσ hP hrun).2⟩

/-! ## Combinators -/

namespace Follows

variable {P Q R : Mode}

/-! A rule that may be entered anywhere may be entered in every mode. -/

theorem anywhere {rule : Parse α} (h : Follows Anywhere own base rule) : Follows P own base rule :=
  ⟨fun henv hσ _ hrun => h.composed henv hσ trivial hrun⟩

/-- Without a number there is nothing to be given to tokens. -/
theorem unnumbered {rule : Parse α} (h : Follows (Numbering 0) own base rule) : Follows P own base rule :=
  ⟨fun henv hσ _ hrun => h.composed henv hσ (.inl rfl) hrun⟩

instance (priority := 50) (rule : Parse α) [hP : Weakens P Q] [h : Follows Q own base rule] :
    Follows P own base rule :=
  ⟨fun henv hσ h' hrun => h.composed henv hσ (hP.imp h') hrun⟩

instance (priority := 200) noting (rule : Parse α) [hrule : Noting rule] : Follows P own base rule :=
  ⟨fun henv hσ _ hrun => .note hσ (hrule.notes henv hrun)⟩

instance bind (rule : Parse α) (f : α → Parse β) [hrule : Follows P own base rule]
    [hgives : Gives P own base rule Q] [hf : ∀ a, Follows Q own base (f a)] :
    Follows P own base (rule >>= f) where
  composed henv hσ hP hrun := by
    obtain ⟨a, υ, hfirst, hrest⟩ := bind_ok hrun
    exact (hf a).composed henv (hrule.composed henv hσ hP hfirst)
      (hgives.gives henv hσ hP hfirst) hrest

theorem andThen {rule : Parse α} {f : α → Parse β} [Follows P own base rule]
    [Gives P own base rule Q] (hf : ∀ a, Follows Q own base (f a)) :
    Follows P own base (rule >>= f) :=
  Follows.bind rule f

instance (priority := high) bindSplits (c : Parse Bool) (f : Bool → Parse α)
    [hc : Follows P own base c] [hsplits : Splits P own base c Q R]
    [htrue : Follows Q own base (f true)] [hfalse : Follows R own base (f false)] :
    Follows P own base (c >>= f) where
  composed henv hσ hP hrun := by
    obtain ⟨holds, υ, hfirst, hrest⟩ := bind_ok hrun
    have hυ := hc.composed henv hσ hP hfirst
    cases holds with
    | true => exact htrue.composed henv hυ (hsplits.ifTrue henv hσ hP hfirst) hrest
    | false => exact hfalse.composed henv hυ (hsplits.ifFalse henv hσ hP hfirst) hrest

theorem onCond {c : Parse Bool} {f : Bool → Parse α} [Follows P own base c] [Splits P own base c Q R]
    (htrue : Follows Q own base (f true)) (hfalse : Follows R own base (f false)) :
    Follows P own base (c >>= f) :=
  Follows.bindSplits c f

/-! What a rule does depends on the kind of the current lexeme. -/

theorem onState {f : State → Parse α} (hf : ∀ σ, Follows (At P σ.current.kind) own base (f σ)) :
    Follows P own base (MonadState.get >>= f) where
  composed henv hσ hP hrun := (hf _).composed henv hσ ⟨hP, rfl⟩ hrun

theorem onKind {f : TokenKind → Parse α} (hf : ∀ k, Follows (At P k) own base (f k)) :
    Follows P own base (kind >>= f) where
  composed henv hσ hP hrun := (hf _).composed henv hσ ⟨hP, rfl⟩ hrun

instance ite (c : Prop) [Decidable c] (a b : Parse α) [Follows P own base a] [Follows P own base b] :
    Follows P own base (if c then a else b) := by
  split <;> infer_instance

instance (priority := high) iteTrue (a b : Parse α) [h : Follows P own base a] :
    Follows P own base (if true = true then a else b) :=
  h

instance (priority := high) iteFalse (a b : Parse α) [h : Follows P own base b] :
    Follows P own base (if false = true then a else b) :=
  h

instance map (f : α → β) (rule : Parse α) [hrule : Follows P own base rule] :
    Follows P own base (f <$> rule) where
  composed henv hσ hP hrun := by
    rw [map_eq_pure_bind] at hrun
    obtain ⟨a, υ, hfirst, hrest⟩ := bind_ok hrun
    cases hrest
    exact hrule.composed henv hσ hP hfirst

instance discard (rule : Parse α) [Follows P own base rule] :
    Follows P own base (Functor.discard rule) := by
  unfold Functor.discard
  exact Follows.map _ rule

instance and (a b : Parse Bool) [Follows P own base a] [Gives P own base a Q]
    [Follows Q own base b] : Follows P own base (a <&&> b) := by
  unfold andM
  refine .andThen fun holds => ?_
  split <;> infer_instance

instance or (a b : Parse Bool) [Follows P own base a] [Gives P own base a Q]
    [Follows Q own base b] : Follows P own base (a <||> b) := by
  unfold orM
  refine .andThen fun holds => ?_
  split <;> infer_instance

theorem ofAction (a : Action) (hfits : ∀ base σ, P base σ → a.Fits σ) : Follows P own base a.perform where
  composed {env _ _ _} _ hσ hP hrun := .act a env.recur hσ (hfits _ _ hP) hrun

theorem reachGoal {g : Goal}
    (hfits : ∀ {s d σ}, Composed s d own base σ → P base σ → g.Fits s d own base σ) :
    Follows P own base (Parse.reach g) :=
  have _ : Follows P own base (Parse.reachArrow g) :=
    ⟨fun henv hσ hP hrun => henv.composed hσ (hfits hσ hP) hrun⟩
  inferInstanceAs (Follows P own base (Functor.discard (Parse.reachArrow g)))

/-! ## Loops -/

theorem iterateIn {x : β} {round : β → Parse (ForInStep β)} [hround : ∀ x, Follows P own base (round x)]
    [hgives : ∀ x, Gives P own base (round x) P] : Follows P own base (Parse.iterate x round) :=
  ⟨fun henv hσ hP hrun => (composed_of_iterate henv hσ hP hrun).1⟩

instance iterate [Basal P] (x : β) (round : β → Parse (ForInStep β))
    [∀ x, Follows P own base (round x)] : Follows P own base (Parse.iterate x round) :=
  have _ (x : β) : Gives P own base (round x) P := Gives.basal _
  iterateIn

instance loop [Basal P] (round : Parse Bool) [Follows P own base round] :
    Follows P own base (Parse.loop round) := by
  unfold Parse.loop
  have hround : Gives P own base round P := Gives.basal _
  infer_instance

instance loopWhile [Basal P] (condition : Parse Bool) (body : Parse Unit)
    [Follows P own base condition] [Follows P own base body] :
    Follows P own base (Parse.loopWhile condition body) := by
  unfold Parse.loopWhile
  have hcondition : Gives P own base condition P := Gives.basal _
  have hbody : Gives P own base body P := Gives.basal _
  infer_instance

/-! ## Saved states -/

instance restore : Follows P own base (Parse.restore base.snapshot) where
  composed _ hσ _ hrun := by
    cases hrun
    exact .retreat (.stay base) hσ

instance (priority := high) snapshot [hP : Rebased P] (f : Snapshot → Parse α)
    [hf : ∀ σ : State, Follows P own σ (f σ.snapshot)] : Follows P own base (Parse.snapshot >>= f) where
  composed henv hσ h hrun :=
    hσ.trans ((hf _).composed henv (.stay _) (hP.rebase hσ.toExtends h) hrun)

theorem snapshotAt {k : TokenKind} {f : Snapshot → Parse α}
    (hf : ∀ σ : State, Follows (BaseAt k) own σ (f σ.snapshot)) :
    Follows (At P k) own base (Parse.snapshot >>= f) where
  composed henv hσ h hrun := hσ.trans ((hf _).composed henv (.stay _) h.2 hrun)

theorem ofEntry {rule : Parse α} {k : TokenKind} (h : ∀ σ : State, Follows (At Unmoved k) own σ rule) :
    Follows (At P k) own base rule where
  composed henv hσ hP hrun := hσ.trans ((h _).composed henv (.stay _) ⟨rfl, hP.2⟩ hrun)

theorem ofMark {f : Nat → Parse α} [hf : ∀ mark : State, Follows Anywhere own mark (f mark.tokens.size)] :
    Follows P own base (tokenIndex >>= f) where
  composed henv hσ _ hrun := hσ.trans ((hf _).composed henv (.stay _) trivial hrun)

end Follows

end PlainScript.Grammar
