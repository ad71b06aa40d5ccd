import PlainScript.Proofs.RulesRun

/-!
# Rules after an error

After an error nothing is consumed any more, so the depth of nested goals is not bounded by what is
left of the text. It is bounded by ranks alone: a rule that is entered after an error reaches only
goals of a lower rank, whatever it does otherwise. `Idles` says this by comparing two environments, one
of which meets the goals of higher rank without doing anything: the rule cannot tell them apart.

Which branches a rule takes after an error is known from `Answers`, and that no rule leaves the stopped
phase is known from `Runs`.
-/

namespace PlainScript.Grammar

open Parse

-- The size of a rule, counted in combinators.
set_option synthInstance.maxSize 1000000000000000000000000000000

variable {α β : Type} {σ τ : State} {b : Nat}

/-- The environment in which goals of a rank and above are met without doing anything. -/
@[reducible]
def Env.capped (env : Env) (b : Nat) : Env :=
  ⟨env.source, env.dialect, fun g => if g.rank < b then env.recur g else fun σ => .ok (false, σ)⟩

/-- A rule that reaches only goals below a rank if it is entered after an error. -/
class Idles (b : Nat) (rule : Parse α) : Prop where
  eq {env : Env} {σ : State} (henv : (env.capped b).Meets 5) (hσ : Stopped env.source σ) :
    rule env σ = rule (env.capped b) σ

/-- Two rules that are the same after evaluation. -/
class SameRule (x y : Parse α) : Prop where
  eq : x = y

instance (x : Parse α) : SameRule x x := ⟨rfl⟩

instance (k : TokenKind) [hk : Same (isEnd k) false] : Decides (TokenKind.eof == k) false :=
  ⟨beq_false_of_ne (ne_eof_of_isEnd hk.eq).symm⟩

instance : Decides TokenKind.eof.isPrefixOperator false := ⟨rfl⟩

instance : Decides TokenKind.eof.isAssignment false := ⟨rfl⟩

instance : Decides (decide (TokenKind.eof.precedence > 0)) false := ⟨rfl⟩

/-! ## Rules that reach no goal -/

/-- Not depending on how goals are met. -/
def locality : Law Parse where
  Holds rule := ∀ (env : Env) (recur : Goal → Step Bool) (σ : State),
    rule env σ = rule { env with recur } σ
  pure _ _ _ _ := rfl
  bind {α β rule f} h hf env recur σ := by
    change (do let (x, τ) ← rule env σ; f x env τ) =
      (do let (x, τ) ← rule { env with recur } σ; f x { env with recur } τ)
    rw [h env recur σ]
    cases rule { env with recur } σ with
    | error e => rfl
    | ok result => exact hf result.1 env recur result.2

/-- A rule that does not depend on how goals are met. -/
abbrev Local (rule : Parse α) : Prop := Obeys locality rule

namespace Local

theorem eq {rule : Parse α} [h : Local rule] (env : Env) (recur : Goal → Step Bool) (σ : State) :
    rule env σ = rule { env with recur } σ :=
  h.holds env recur σ

instance get : Local (MonadState.get : Parse State) := ⟨fun _ _ _ => rfl⟩

instance set (σ : State) : Local (MonadStateOf.set σ : Parse PUnit) := ⟨fun _ _ _ => rfl⟩

instance modify (f : State → State) : Local (modify f : Parse Unit) := ⟨fun _ _ _ => rfl⟩

instance throw (e : Halt) : Local (MonadExcept.throw e : Parse α) := ⟨fun _ _ _ => rfl⟩

theorem fromEnv {f : Env → Parse β} (hf : ∀ env, Local (f env))
    (hsame : ∀ (env : Env) (recur : Goal → Step Bool), f { env with recur } = f env) :
    Local (MonadReader.read >>= f) where
  holds env recur σ := by
    change f env env σ = f { env with recur } { env with recur } σ
    rw [hsame env recur]
    exact (hf env).eq env recur σ

instance (priority := high) read (f : Env → Parse β) [hf : ∀ env, Local (f env)]
    [hsame : ∀ (env : Env) (recur : Goal → Step Bool),
      SameRule (f ⟨env.source, env.dialect, recur⟩) (f env)] :
    Local (MonadReader.read >>= f) :=
  fromEnv hf fun env recur => (hsame env recur).eq

instance peek (rule : Parse α) [Local rule] : Local (Parse.peek rule) := by
  unfold Parse.peek Parse.snapshot Parse.restore
  infer_instance

end Local

/-! ## Rules and loops -/

namespace Idles

instance (priority := low) ofLocal (rule : Parse α) [h : Local rule] : Idles b rule where
  eq {env σ} _ _ := h.eq env _ σ

instance (priority := low) ofUnfolds (rule : Parse α) {body : Parse α} [h : Unfolds rule body]
    [hbody : Idles b body] : Idles b rule := by
  rw [h.eq]
  exact hbody

theorem bind_eq {rule : Parse α} {f : α → Parse β} [h : Idles b rule] {env : Env}
    (henv : (env.capped b).Meets 5) (hσ : Stopped env.source σ)
    (hf : ∀ x τ, rule (env.capped b) σ = .ok (x, τ) → f x env τ = f x (env.capped b) τ) :
    (rule >>= f) env σ = (rule >>= f) (env.capped b) σ := by
  change (do let (x, τ) ← rule env σ; f x env τ) =
    (do let (x, τ) ← rule (env.capped b) σ; f x (env.capped b) τ)
  rw [h.eq henv hσ]
  cases hrun : rule (env.capped b) σ with
  | error e => rfl
  | ok result => exact hf _ _ hrun

instance (priority := high) bind (rule : Parse α) (f : α → Parse β) {v : α} [Idles b rule]
    [hv : Answers rule v] [hf : Idles b (f v)] : Idles b (rule >>= f) where
  eq henv hσ := by
    refine bind_eq henv hσ fun x τ hrun => ?_
    obtain ⟨rfl, hτ⟩ := hv.eq henv hσ hrun
    exact hf.eq henv hτ

instance bindAny (rule : Parse α) (f : α → Parse β) [Idles b rule] [h : Stays rule]
    [hf : ∀ x, Idles b (f x)] : Idles b (rule >>= f) where
  eq {env σ} henv hσ := by
    refine bind_eq henv hσ fun x τ hrun => ?_
    have hτ : Stopped (env.capped b).source τ := h.stopped henv hσ hrun
    exact (hf x).eq henv hτ

theorem andThen {rule : Parse α} {f : α → Parse β} [Idles b rule] [Stays rule]
    (hf : ∀ x, Idles b (f x)) : Idles b (rule >>= f) :=
  Idles.bindAny rule f

theorem given {rule : Parse α} {f : α → Parse β} {v : α} [Idles b rule] [Answers rule v]
    (hf : Idles b (f v)) : Idles b (rule >>= f) :=
  Idles.bind rule f

theorem otherwise {rule : Parse Bool} {x y : Parse β} [Idles b rule] [Answers rule false]
    (hy : Idles b y) : Idles b (rule >>= fun c => if c = true then x else y) :=
  .given (v := false) hy

theorem onState {f : State → Parse β} (hf : ∀ (s : Source) (σ : State), Stopped s σ → Idles b (f σ)) :
    Idles b (MonadState.get >>= f) where
  eq {env σ} henv hσ := (hf env.source σ hσ).eq henv hσ

instance (priority := high) read (f : Env → Parse β) [hf : ∀ env, Idles b (f env)]
    [hsame : ∀ env, SameRule (f (Env.capped env b)) (f env)] :
    Idles b (MonadReader.read >>= f) where
  eq {env σ} henv hσ := by
    change f env env σ = f (env.capped b) (env.capped b) σ
    rw [(hsame env).eq]
    exact (hf env).eq henv hσ

instance ite (c : Prop) [Decidable c] (x y : Parse α) [hx : Idles b x] [hy : Idles b y] :
    Idles b (if c then x else y) := by
  split
  · exact hx
  · exact hy

instance (priority := high) iteTrue (c : Bool) (x y : Parse α) [hc : Decides c true]
    [hx : Idles b x] : Idles b (if c = true then x else y) := by
  rw [if_pos hc.eq]
  exact hx

instance (priority := high) iteFalse (c : Bool) (x y : Parse α) [hc : Decides c false]
    [hy : Idles b y] : Idles b (if c = true then x else y) := by
  rw [if_neg (by rw [hc.eq]; decide)]
  exact hy

instance map (f : α → β) (rule : Parse α) [h : Idles b rule] : Idles b (f <$> rule) where
  eq henv hσ := by
    rw [map_eq_pure_bind]
    exact bind_eq henv hσ fun _ _ _ => rfl

instance discard (rule : Parse α) [Idles b rule] : Idles b (Functor.discard rule) := by
  unfold Functor.discard
  exact Idles.map _ rule

instance (priority := high) andFalse (c c' : Parse Bool) [Idles b c] [Answers c false] :
    Idles b (c <&&> c') := by
  unfold andM
  have hfalse : Idles b (match false with | true => c' | false => Pure.pure false) :=
    ofLocal (Pure.pure false)
  exact Idles.bind c _

instance and (c c' : Parse Bool) [Idles b c] [Stays c] [h : Idles b c'] :
    Idles b (c <&&> c') := by
  unfold andM
  refine .andThen fun holds => ?_
  cases holds
  · exact ofLocal (Pure.pure false)
  · exact h

instance or (c c' : Parse Bool) [Idles b c] [Stays c] [h : Idles b c'] :
    Idles b (c <||> c') := by
  unfold orM
  refine .andThen fun holds => ?_
  cases holds
  · exact h
  · exact ofLocal (Pure.pure true)

theorem reachArrow {g : Goal} (hrank : g.rank < b) : Idles b (Parse.reachArrow g) where
  eq {env σ} _ _ := by
    change env.recur g σ = (if g.rank < b then env.recur g else fun σ => .ok (false, σ)) σ
    rw [if_pos hrank]

instance iterate (x : β) (round : β → Parse (ForInStep β)) {v : β} [h : Idles b (round x)]
    [hdone : Answers (round x) (.done v)] : Idles b (Parse.iterate x round) where
  eq {env σ} henv hσ := by
    change iterateFor round (env.source.size + 15 + 1) x env σ =
      iterateFor round (env.source.size + 15 + 1) x (env.capped b) σ
    unfold iterateFor
    refine bind_eq henv hσ fun step τ hrun => ?_
    obtain ⟨rfl, -⟩ := hdone.eq henv hσ hrun
    rfl

instance loop (round : Parse Bool) [Idles b round] [Answers round false] :
    Idles b (Parse.loop round) := by
  unfold Parse.loop
  infer_instance

instance loopWhile (condition : Parse Bool) (body : Parse Unit) [Idles b condition]
    [Answers condition false] : Idles b (Parse.loopWhile condition body) := by
  unfold Parse.loopWhile
  infer_instance

end Idles

namespace Parse

/-! ## Primitives -/

instance (start : Nat) (reading : Reading) : Local (settle start reading) := by
  unfold settle
  refine .andThen fun _ => ?_
  cases reading <;> infer_instance

instance : Local settleEnd := by
  unfold settleEnd
  infer_instance

instance : Local readCode := by
  unfold readCode
  refine Local.fromEnv (fun env => .andThen fun σ => ?_) fun env recur => rfl
  split <;> infer_instance

instance : Local push := by
  unfold push
  infer_instance

instance : Local next := by
  unfold next
  infer_instance

instance : Local nextInTag := by
  unfold nextInTag
  refine .andThen fun _ => Local.fromEnv (fun env => .andThen fun σ => ?_) fun env recur => rfl
  split <;> infer_instance

instance : Local nextInElement := by
  unfold nextInElement
  infer_instance

instance : Local freshContext := by
  exact ⟨fun _ _ _ => rfl⟩

instance : Local lastIndex := by
  unfold lastIndex
  refine .andThen fun count => ?_
  cases count <;> infer_instance

instance (start stop : Nat) : Local (markTypes start stop) := by
  unfold markTypes
  infer_instance

instance : Local leaveScope := by
  unfold leaveScope
  refine .andThen fun σ => ?_
  split <;> infer_instance

/-! ## Goals -/

instance (g : Goal) [Idles b (reachArrow g)] : Idles b (reach g) :=
  inferInstanceAs (Idles b (Functor.discard (reachArrow g)))

instance (noIn : Bool) : Idles 3 (reachArrow (.expression noIn)) :=
  .reachArrow (Nat.lt_succ_self 2)

instance idles_assignment (noIn inParens : Bool) : Idles 2 (reachArrow (.assignment noIn inParens)) :=
  .reachArrow (Nat.lt_succ_self 1)

instance (start floor : Nat) (noIn : Bool) : Idles 1 (reachArrow (.operators start floor noIn)) :=
  .reachArrow (Nat.lt_succ_self 0)

instance (start : Nat) (noCalls : Bool) : Idles 1 (reachArrow (.subscripts start noCalls)) :=
  .reachArrow (Nat.lt_succ_self 0)

end Parse

/-! ## Types -/

namespace TypeScript

instance idles_primaryType : Idles b primaryType := by
  unfold primaryType
  infer_instance

instance : Idles b type := by
  unfold type
  refine .andThen fun _ => .andThen fun σ => .andThen fun _ => ?_
  infer_instance

end TypeScript

namespace Flow

instance idles_primaryType : Idles b primaryType := by
  unfold primaryType
  infer_instance

instance : Idles b declare := by
  unfold declare
  infer_instance

end Flow

/-! ## Elements -/

namespace Element

instance : Idles b name := by
  unfold name
  refine .andThen fun first => .andThen fun _ => .given (.andThen fun _ => .andThen fun σ => ?_)
  cases σ.tokens[first]? <;> infer_instance

instance : Idles b childOrClose := by
  unfold childOrClose
  infer_instance

end Element

/-! ## Expressions -/

instance (isPattern isBlockScoped : Bool) : Idles b (object isPattern isBlockScoped) := by
  unfold object
  infer_instance

instance (isBlockScoped : Bool) : Idles b (bindingAtom isBlockScoped) := by
  unfold bindingAtom
  infer_instance

instance : Idles b operand := by
  unfold operand
  refine .otherwise (.otherwise (.otherwise (.onState fun s σ hσ => ?_)))
  dsimp only
  rw [hσ.kind]
  infer_instance

instance idles_assignment (noIn inParens : Bool) : Idles 1 (assignment noIn inParens) := by
  unfold assignment
  infer_instance

/-! ## Classes and modules -/

/-! ## Statements -/

instance : Idles b Flow.interfaceStatement := by
  unfold Flow.interfaceStatement
  infer_instance

instance : Answers Flow.interfaceStatement false := by
  unfold Flow.interfaceStatement
  infer_instance

instance (declaration : Bool) : Idles b (keywordStatement declaration) := by
  unfold keywordStatement
  infer_instance

instance (declaration : Bool) : Answers (keywordStatement declaration) false := by
  unfold keywordStatement
  infer_instance

instance (word : SoftKeyword) : Idles b (TypeScript.declaration word false) := by
  unfold TypeScript.declaration
  refine .andThen fun here => .andThen fun last? => .andThen fun σ => ?_
  dsimp only
  split <;> infer_instance

instance (word : SoftKeyword) : Answers (TypeScript.declaration word false) false := by
  unfold TypeScript.declaration
  refine .andThen fun here => .andThen fun last? => .andThen fun σ => ?_
  dsimp only
  split <;> infer_instance

instance : Idles b TypeScript.ambientDeclaration := by
  unfold TypeScript.ambientDeclaration
  infer_instance

instance : Answers TypeScript.ambientDeclaration false := by
  unfold TypeScript.ambientDeclaration
  infer_instance

instance (word : SoftKeyword) : Idles b (TypeScript.identifierDeclaration word) := by
  unfold TypeScript.identifierDeclaration
  split <;> infer_instance

instance (word : SoftKeyword) : Answers (TypeScript.identifierDeclaration word) false := by
  unfold TypeScript.identifierDeclaration
  split <;> infer_instance

instance (word : SoftKeyword) : Idles b (Flow.identifierDeclaration word) := by
  unfold Flow.identifierDeclaration
  refine .given ?_
  extract_lets rule?
  have hnone : rule? = none := by
    unfold rule?
    split <;> rfl
  rw [hnone]
  infer_instance

instance : Idles 3 expressionStatement := by
  unfold expressionStatement
  refine .andThen fun start => .andThen fun _ => .andThen fun stop => .andThen fun last? => ?_
  cases last? <;> infer_instance

/-! ## Goals -/

/-- After an error the rule for a goal reaches only goals of a lower rank. -/
theorem idles_rule (g : Goal) : Idles g.rank (rule g) := by
  cases g <;> simp only [rule, Goal.rank] <;> infer_instance

end PlainScript.Grammar
