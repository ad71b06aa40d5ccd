import PlainScript.Proofs.Progress

/-!
# Rules that run to their end

A rule may reach another one without having consumed anything, and that one a third, but not for
ever: the goals have ranks, and before a rule has consumed something it reaches only goals of a lower
rank than its own. A rule is therefore given an *allowance*, the ranks below which it may reach a goal
at once; after a lexeme has been consumed or an error has been recorded, every goal is allowed. `cost`
turns what is left of the text and the allowance into one number, and a run that needs no more nested
goals than it has credit for never exceeds the bound on their depth.

A rule is also given the number of scopes that have been opened since it was entered, so that it
closes no more than these, and the state to which it may go back. `Runs` collects all of this: given
an allowance and open scopes, the rule ends with others, without a halt. It is shown for composite
rules by instance search, rule by rule.

A loop has to consume something in each round that is not its last. `Gains` says this of a round, and
of conditions that consume what they ask for. After an error nothing is consumed any more, so there
the loop has to end by itself; `Answers` says what a rule answers in this case.
-/

namespace PlainScript.Grammar

open Parse

variable {s : Source} {σ τ υ : State} {α β : Type}

/-! ## Ranks and costs -/

namespace Goal

/-- Goals of lower rank may be reached before anything is consumed. -/
@[reducible]
def rank : Goal → Nat
  | .unary | .callee | .bindingAtom _ | .assignment _ _ => 1
  | .expression _ => 2
  | .statement _ => 3
  | .blockBody _ | .exportClause => 4
  | _ => 0

/-- Whether a goal cannot be met without consuming something. -/
@[reducible]
def moves : Goal → Bool
  | .operators _ _ _ | .subscripts _ _ | .blockBody _ => false
  | _ => true

theorem rank_lt (g : Goal) : g.rank < 5 := by
  cases g <;> simp [rank]

/-- The depth of nested goals that meeting a goal may need. -/
def need (g : Goal) (s : Source) (σ : State) : Nat :=
  if σ.error? = none then 6 * left s σ + g.rank else g.rank

end Goal

/-- The depth of nested goals that is enough for what follows, at an allowance. No allowance is
larger than 6, at which every goal is allowed. -/
def cost (s : Source) (a : Nat) (σ : State) : Nat :=
  if σ.error? = none then 6 * left s σ + min a 6 else 5

theorem Live.cost_eq (h : Live s σ) (a : Nat) : cost s a σ = 6 * left s σ + min a 6 :=
  if_pos h.clear

theorem Stopped.cost_eq (h : Stopped s σ) (a : Nat) : cost s a σ = 5 := if_neg h.failed

/-- The state is in one of the phases, its cost does not exceed the credit, and enough scopes are
open. -/
structure Affords (s : Source) (credit depth a k : Nat) (σ : State) : Prop where
  sane : Sane s σ
  cost : cost s a σ ≤ credit
  depth : depth + k ≤ σ.scopeDepth

namespace Affords

variable {credit depth a a' k k' : Nat}

theorem mono (h : Affords s credit depth a k σ) (ha : min a' 6 ≤ a) (hk : k' ≤ k) :
    Affords s credit depth a' k' σ := by
  have hdepth := h.depth
  refine ⟨h.sane, Nat.le_trans ?_ h.cost, by omega⟩
  unfold Grammar.cost
  split <;> omega

theorem of_moves (h : Affords s credit depth a k σ) (hmove : Moves s σ τ) :
    Affords s credit depth 6 k τ := by
  have hcost := h.cost
  refine ⟨hmove.sane, ?_, hmove.depth ▸ h.depth⟩
  rcases h.sane with hσ | hσ
  · rw [hσ.cost_eq] at hcost
    have hpos := left_pos s σ
    rcases hmove.sane with hτ | hτ
    · have hlt := hmove.left hσ hτ
      rw [hτ.cost_eq]
      omega
    · rw [hτ.cost_eq]
      omega
  · rw [hσ.cost_eq] at hcost
    rwa [(hmove.stays hσ).cost_eq]

theorem of_rests (h : Affords s credit depth a k σ) (hrest : Rests s σ τ) :
    Affords s credit depth a k τ := by
  have hcost := h.cost
  refine ⟨hrest.sane, ?_, hrest.depth ▸ h.depth⟩
  rcases h.sane with hσ | hσ
  · rw [hσ.cost_eq] at hcost
    have hpos := left_pos s σ
    rcases hrest.sane with hτ | hτ
    · rw [hτ.cost_eq, hrest.left hτ]
      exact hcost
    · rw [hτ.cost_eq]
      omega
  · rw [hσ.cost_eq] at hcost
    rwa [(hrest.stays hσ).cost_eq]

theorem of_stopped (h : Affords s credit depth a k σ) (hτ : Stopped s τ)
    (hdepth : τ.scopeDepth = σ.scopeDepth) : Affords s credit depth 6 k τ := by
  have hcost := h.cost
  refine ⟨.inr hτ, ?_, hdepth ▸ h.depth⟩
  rw [hτ.cost_eq]
  rcases h.sane with hσ | hσ
  · rw [hσ.cost_eq] at hcost
    have hpos := left_pos s σ
    omega
  · rwa [hσ.cost_eq] at hcost

theorem stopped (h : Affords s 5 depth a k σ) : Stopped s σ := by
  refine h.sane.resolve_left fun hσ => ?_
  have hcost := h.cost
  have hpos := left_pos s σ
  rw [hσ.cost_eq] at hcost
  omega

end Affords

theorem State.SameLexemes.stopped (h : σ.SameLexemes τ) (hσ : Stopped s σ) : Stopped s τ where
  failed := by
    rw [h.error]
    exact hσ.failed
  kind := by
    rw [h.current]
    exact hσ.kind
  keyword := by
    rw [h.current]
    exact hσ.keyword
  stop := by
    rw [h.current]
    exact hσ.stop

theorem State.SameLexemes.sane (h : σ.SameLexemes τ) (hσ : Sane s σ) : Sane s τ := by
  refine hσ.imp (fun hlive => ?_) h.stopped
  have hfull : τ.AtFull s := by
    rw [State.AtFull, h.current]
    exact hlive.full
  exact ⟨h.error.trans hlive.clear, hlive.tiled.of_sameLexemes h, hfull⟩

theorem State.SameLexemes.rests (h : σ.SameLexemes τ) (hdepth : τ.scopeDepth = σ.scopeDepth)
    (hσ : Sane s σ) : Rests s σ τ where
  sane := h.sane hσ
  stays := h.stopped
  left _ := by rw [left, left, endedAt_eq, endedAt_eq, h.spans, h.current]
  spans := h.spans
  depth := hdepth

/-! ## Rules -/

/-- How a goal that is met from one state leaves another one. -/
structure Goal.Met (g : Goal) (s : Source) (σ τ : State) : Prop where
  sane : Sane s τ
  cost : cost s (if g.moves then 6 else 0) τ ≤ cost s 0 σ
  depth : σ.scopeDepth ≤ τ.scopeDepth
  spans : σ.spans <+: τ.spans

/-- Every goal for which there is credit is met. -/
def Env.Meets (env : Env) (credit : Nat) : Prop :=
  ∀ (g : Goal) (σ : State), Sane env.source σ → g.need env.source σ < credit →
    Ends env.source (fun _ τ => g.Met env.source σ τ) (env.recur g σ)

theorem Env.Meets.mono {env : Env} {credit credit' : Nat} (h : env.Meets credit)
    (hle : credit' ≤ credit) : env.Meets credit' :=
  fun g σ hσ hneed => h g σ hσ (Nat.lt_of_lt_of_le hneed hle)

/-- A state to go back to, with what was allowed there. -/
structure Mark where
  state : State
  allowance : Nat
  scopes : Nat

/-- Where a rule is run: from a state that has been reached from the mark. -/
structure Situation (env : Env) (credit depth : Nat) (m : Mark) (a k : Nat) (σ : State) : Prop where
  meets : env.Meets credit
  mark : Affords env.source credit depth m.allowance m.scopes m.state
  here : Affords env.source credit depth a k σ
  spans : m.state.spans <+: σ.spans

namespace Situation

variable {env : Env} {credit depth a a' k k' : Nat} {m : Mark}

theorem onward (h : Situation env credit depth m a k σ)
    (hτ : Affords env.source credit depth a' k' τ) (hspans : σ.spans <+: τ.spans) :
    Situation env credit depth m a' k' τ :=
  ⟨h.meets, h.mark, hτ, h.spans.trans hspans⟩

theorem mono (h : Situation env credit depth m a k σ) (ha : min a' 6 ≤ a) (hk : k' ≤ k) :
    Situation env credit depth m a' k' σ :=
  h.onward (h.here.mono ha hk) List.prefix_rfl

theorem of_moves (h : Situation env credit depth m a k σ) (hmove : Moves env.source σ τ) :
    Situation env credit depth m 6 k τ :=
  h.onward (h.here.of_moves hmove) hmove.spans

theorem of_rests (h : Situation env credit depth m a k σ) (hrest : Rests env.source σ τ) :
    Situation env credit depth m a k τ :=
  h.onward (h.here.of_rests hrest) (hrest.spans ▸ List.prefix_rfl)

theorem rebase (h : Situation env credit depth m a k σ) :
    Situation env credit depth ⟨σ, a, k⟩ a k σ :=
  ⟨h.meets, h.here, h.here, List.prefix_rfl⟩

theorem trans {m' : Mark} (h : Situation env credit depth m a k σ)
    (hspans : m.state.spans <+: m'.state.spans)
    (hτ : Situation env credit depth m' a' k' τ) : Situation env credit depth m a' k' τ :=
  ⟨h.meets, h.mark, hτ.here, hspans.trans hτ.spans⟩

end Situation

/-- A rule that is entered in a state of a certain kind runs to its end. -/
def RunsWhen (pre : State → Prop) (m : Mark) (a k : Nat) (rule : Parse α) (a' k' : Nat) : Prop :=
  ∀ ⦃env : Env⦄ ⦃credit depth : Nat⦄ ⦃σ : State⦄, Situation env credit depth m a k σ → pre σ →
    Ends env.source (fun _ τ => Situation env credit depth m a' k' τ) (rule env σ)

theorem RunsWhen.mono {pre pre' : State → Prop} {m : Mark} {a a' k k' : Nat} {rule : Parse α}
    (h : RunsWhen pre m a k rule a' k') (hpre : ∀ σ, pre' σ → pre σ) :
    RunsWhen pre' m a k rule a' k' :=
  fun _ _ _ _ hσ hwhen => h hσ (hpre _ hwhen)

/-- A rule that is entered with an allowance and a number of open scopes runs to its end. -/
class Runs (m : Mark) (a k : Nat) (rule : Parse α) (a' k' : outParam Nat) : Prop where
  ends : RunsWhen (fun _ => True) m a k rule a' k'

/-- What is allowed after a condition: everything if it holds, because then it has consumed something,
and as much as before if it does not. -/
def condLevel (a : Nat) : Bool → Option Nat
  | true => some 6
  | false => some a

/-- What is allowed after a round of a loop. A round that starts in a fresh state need not consume
anything, but no round ends in one. -/
def roundLevel (fresh : β → Bool) (a : Nat) (isFresh : Bool) : ForInStep β → Option Nat
  | .yield y => if fresh y then none else some (if isFresh then a else 6)
  | .done _ => some a

/-- A rule whose answer says what is allowed after it. It does not give answers without a level. -/
class Gains (level : α → Option Nat) (m : Mark) (a k : Nat) (rule : Parse α) (k' : outParam Nat) :
    Prop where
  ends ⦃env : Env⦄ ⦃credit depth : Nat⦄ ⦃σ : State⦄ (h : Situation env credit depth m a k σ) :
    Ends env.source (fun x τ => ∃ l, level x = some l ∧ Situation env credit depth m l k' τ)
      (rule env σ)

/-- The answer of a rule after an error. -/
class Answers (rule : Parse α) (v : outParam α) : Prop where
  eq {env : Env} {σ τ : State} {x : α} (henv : env.Meets 5) (hσ : Stopped env.source σ)
    (hrun : rule env σ = .ok (x, τ)) : x = v ∧ Stopped env.source τ

/-- A rule that does not leave the stopped phase. -/
class Stays (rule : Parse α) : Prop where
  stopped {env : Env} {σ τ : State} {x : α} (henv : env.Meets 5) (hσ : Stopped env.source σ)
    (hrun : rule env σ = .ok (x, τ)) : Stopped env.source τ

/-! ## Numbers and truth values -/

/-- An allowance that does not exceed another. -/
class AtMost (a b : Nat) : Prop where
  le : min a 6 ≤ b

/-- An allowance that both of two alternatives leave. -/
class Joins (a b : Nat) (c : outParam Nat) : Prop where
  left : min c 6 ≤ a
  right : min c 6 ≤ b

/-- A level that is known. -/
class Grants (o : Option Nat) (l : outParam Nat) : Prop where
  eq : o = some l

/-- A condition whose value is known. -/
class Decides (c : Bool) (v : outParam Bool) : Prop where
  eq : c = v

section

variable {a b c : Nat} {x y : Bool}

instance (priority := high) : AtMost a a := ⟨Nat.min_le_left a 6⟩

instance (priority := high) : AtMost a 6 := ⟨Nat.min_le_right a 6⟩

instance : AtMost 0 a := ⟨Nat.zero_le a⟩

instance [h : AtMost a b] : AtMost (a + 1) (b + 1) := ⟨by have := h.le; omega⟩

instance [h : AtMost c a] [h' : AtMost c b] : AtMost c (min a b) := ⟨Nat.le_min.2 ⟨h.le, h'.le⟩⟩

instance (priority := high) : Joins a a a := ⟨Nat.min_le_left a 6, Nat.min_le_left a 6⟩

instance : Joins 6 a a := ⟨Nat.min_le_right a 6, Nat.min_le_left a 6⟩

instance : Joins a 6 a := ⟨Nat.min_le_left a 6, Nat.min_le_right a 6⟩

instance : Decides true true := ⟨rfl⟩

instance : Decides false false := ⟨rfl⟩

instance [h : Decides x true] : Decides (!x) false := ⟨by rw [h.eq]; rfl⟩

instance [h : Decides x false] : Decides (!x) true := ⟨by rw [h.eq]; rfl⟩

instance [h : Decides x false] : Decides (x && y) false := ⟨by rw [h.eq]; rfl⟩

instance [h : Decides y false] : Decides (x && y) false := ⟨by rw [h.eq, Bool.and_false]⟩

instance [h : Decides x true] [h' : Decides y true] : Decides (x && y) true := ⟨by rw [h.eq, h'.eq]; rfl⟩

instance [h : Decides x true] : Decides (x || y) true := ⟨by rw [h.eq]; rfl⟩

instance [h : Decides y true] : Decides (x || y) true := ⟨by rw [h.eq, Bool.or_true]⟩

instance [h : Decides x false] [h' : Decides y false] : Decides (x || y) false :=
  ⟨by rw [h.eq, h'.eq]; rfl⟩

instance : Grants (condLevel a true) 6 := ⟨rfl⟩

instance [h : Decides x false] : Grants (condLevel a x) a := ⟨by rw [h.eq]; rfl⟩

variable {fresh : β → Bool} {z : β}

instance [h : Decides (fresh z) false] : Grants (roundLevel fresh a false (.yield z)) 6 :=
  ⟨by rw [roundLevel, h.eq]; rfl⟩

instance [h : Decides (fresh z) false] : Grants (roundLevel fresh a true (.yield z)) a :=
  ⟨by rw [roundLevel, h.eq]; rfl⟩

instance : Grants (roundLevel fresh a x (.done z)) a := ⟨rfl⟩

end

/-! ## Combinators -/

namespace Runs

variable {m : Mark} {a a' a₁ a₂ k k' k₁ : Nat} {pre : State → Prop}

theorem when {rule : Parse α} (h : Runs m a k rule a' k') : RunsWhen pre m a k rule a' k' :=
  fun _ _ _ _ hσ _ => h.ends hσ trivial

theorem of {rule : Parse α} [h : Runs m a k rule a₁ k'] [ha : AtMost a' a₁] :
    Runs m a k rule a' k' where
  ends _ _ _ _ hσ _ := (h.ends hσ trivial).mono fun _ _ hτ => hτ.mono ha.le (Nat.le_refl _)

theorem leave {rule : Parse α} (h : Runs m a k rule a' (k' + 1)) : Runs m a k rule a' k' where
  ends _ _ _ _ hσ _ := (h.ends hσ trivial).mono fun _ _ hτ =>
    hτ.mono (Nat.min_le_left a' 6) (Nat.le_succ k')

instance pure (x : α) : Runs m a k (Pure.pure x : Parse α) a k where
  ends _ _ _ _ hσ _ := hσ

instance bind (rule : Parse α) (f : α → Parse β) [h : Runs m a k rule a₁ k₁]
    [hf : ∀ x, Runs m a₁ k₁ (f x) a' k'] : Runs m a k (rule >>= f) a' k' where
  ends _ _ _ _ hσ _ := (h.ends hσ trivial).bind fun x _ hτ => (hf x).ends hτ trivial

theorem andThen {rule : Parse α} {f : α → Parse β} [Runs m a k rule a₁ k₁]
    (hf : ∀ x, Runs m a₁ k₁ (f x) a' k') : Runs m a k (rule >>= f) a' k' :=
  Runs.bind rule f

instance (priority := 10001) (c : Parse Bool) (f : Bool → Parse α)
    [Runs m a k c 6 k₁] [∀ x, Runs m 6 k₁ (f x) a' k'] : Runs m a k (c >>= f) a' k' :=
  Runs.bind c f

instance (priority := high) ifGains (c : Parse Bool) (f : Bool → Parse α)
    [h : Gains (condLevel a) m a k c k₁] [htrue : Runs m 6 k₁ (f true) a₁ k']
    [hfalse : Runs m a k₁ (f false) a₂ k'] [hjoin : Joins a₁ a₂ a'] :
    Runs m a k (c >>= f) a' k' where
  ends _ _ _ _ hσ _ := by
    refine (h.ends hσ).bind fun x τ hτ => ?_
    obtain ⟨l, hl, hτ⟩ := hτ
    cases x with
    | true =>
      cases hl
      exact (htrue.ends hτ trivial).mono fun _ _ hυ => hυ.mono hjoin.left (Nat.le_refl _)
    | false =>
      cases hl
      exact (hfalse.ends hτ trivial).mono fun _ _ hυ => hυ.mono hjoin.right (Nat.le_refl _)

theorem ifThen {c : Parse Bool} {f : Bool → Parse α} [Gains (condLevel a) m a k c k₁]
    (htrue : Runs m 6 k₁ (f true) a' k') (hfalse : Runs m a k₁ (f false) a' k') :
    Runs m a k (c >>= f) a' k' :=
  Runs.ifGains c f

instance ite (c : Prop) [Decidable c] (x y : Parse α) [hx : Runs m a k x a₁ k']
    [hy : Runs m a k y a₂ k'] [hjoin : Joins a₁ a₂ a'] : Runs m a k (if c then x else y) a' k' where
  ends _ _ _ _ hσ _ := by
    split
    · exact (hx.ends hσ trivial).mono fun _ _ hτ => hτ.mono hjoin.left (Nat.le_refl _)
    · exact (hy.ends hσ trivial).mono fun _ _ hτ => hτ.mono hjoin.right (Nat.le_refl _)

instance (priority := high) iteTrue (c : Bool) (x y : Parse α) [hc : Decides c true]
    [hx : Runs m a k x a' k'] : Runs m a k (if c = true then x else y) a' k' := by
  rw [if_pos hc.eq]
  exact hx

instance (priority := high) iteFalse (c : Bool) (x y : Parse α) [hc : Decides c false]
    [hy : Runs m a k y a' k'] : Runs m a k (if c = true then x else y) a' k' := by
  rw [if_neg (by rw [hc.eq]; decide)]
  exact hy

instance map (f : α → β) (rule : Parse α) [Runs m a k rule a' k'] :
    Runs m a k (f <$> rule) a' k' := by
  rw [map_eq_pure_bind]
  infer_instance

instance discard (rule : Parse α) [Runs m a k rule a' k'] :
    Runs m a k (Functor.discard rule) a' k' := by
  unfold Functor.discard
  exact Runs.map _ rule

instance and (c c' : Parse Bool) [Runs m a k c a₁ k] [Runs m a₁ k c' a₂ k] [hjoin : Joins a₂ a₁ a'] :
    Runs m a k (c <&&> c') a' k := by
  unfold andM
  refine .andThen fun holds => ?_
  cases holds
  · exact @Runs.of _ _ _ _ _ _ _ _ (Runs.pure false) ⟨hjoin.right⟩
  · exact @Runs.of _ _ _ _ _ _ _ c' inferInstance ⟨hjoin.left⟩

instance or (c c' : Parse Bool) [Runs m a k c a₁ k] [Runs m a₁ k c' a₂ k] [hjoin : Joins a₁ a₂ a'] :
    Runs m a k (c <||> c') a' k := by
  unfold orM
  refine .andThen fun holds => ?_
  cases holds
  · exact @Runs.of _ _ _ _ _ _ _ c' inferInstance ⟨hjoin.right⟩
  · exact @Runs.of _ _ _ _ _ _ _ _ (Runs.pure true) ⟨hjoin.left⟩

/-- What follows the question for the current kind may rely on the answer. -/
theorem onKind {f : TokenKind → Parse α}
    (h : ∀ kind, RunsWhen (fun σ => σ.current.kind = kind) m a k (f kind) a' k') :
    Runs m a k (Parse.kind >>= f) a' k' where
  ends _ _ _ _ hσ _ := h _ hσ rfl

theorem onState {f : State → Parse α}
    (h : ∀ σ₀, RunsWhen (fun σ => σ = σ₀) m a k (f σ₀) a' k') :
    Runs m a k (MonadState.get >>= f) a' k' where
  ends _ _ _ _ hσ _ := h _ hσ rfl

instance get : Runs m a k (MonadState.get : Parse State) a k where
  ends _ _ _ _ hσ _ := hσ

instance read : Runs m a k (MonadReader.read : Parse Env) a k where
  ends _ _ _ _ hσ _ := hσ

end Runs

theorem RunsWhen.andThen {m : Mark} {a a' a₁ k k' k₁ : Nat} {pre : State → Prop} {rule : Parse α}
    {f : α → Parse β} (h : RunsWhen pre m a k rule a₁ k₁) [hf : ∀ x, Runs m a₁ k₁ (f x) a' k'] :
    RunsWhen pre m a k (rule >>= f) a' k' :=
  fun _ _ _ _ hσ hwhen => (h hσ hwhen).bind fun x _ hτ => (hf x).ends hτ trivial

namespace Gains

variable {m : Mark} {a a₁ k k' k₁ l : Nat} {level : α → Option Nat} {levels : β → Option Nat}

instance pure (x : α) [hx : Grants (level x) l] [ha : AtMost l a] :
    Gains level m a k (Pure.pure x : Parse α) k where
  ends _ _ _ _ hσ := ⟨l, hx.eq, hσ.mono ha.le (Nat.le_refl _)⟩

instance (priority := low) ofRuns (c : Parse Bool) [h : Runs m a k c 6 k'] :
    Gains (condLevel a₁) m a k c k' where
  ends _ _ _ _ hσ := by
    refine (h.ends hσ trivial).mono fun x _ hτ => ?_
    cases x
    · exact ⟨a₁, rfl, hτ.mono (Nat.min_le_right a₁ 6) (Nat.le_refl _)⟩
    · exact ⟨6, rfl, hτ⟩

instance bind (rule : Parse α) (f : α → Parse β) [h : Runs m a k rule a₁ k₁]
    [hf : ∀ x, Gains levels m a₁ k₁ (f x) k'] : Gains levels m a k (rule >>= f) k' where
  ends _ _ _ _ hσ := (h.ends hσ trivial).bind fun x _ hτ => (hf x).ends hτ

theorem andThen {rule : Parse α} {f : α → Parse β} [Runs m a k rule a₁ k₁]
    (hf : ∀ x, Gains levels m a₁ k₁ (f x) k') : Gains levels m a k (rule >>= f) k' :=
  Gains.bind rule f

instance (priority := high) ifGains (c : Parse Bool) (f : Bool → Parse α)
    [h : Gains (condLevel a) m a k c k₁] [htrue : Gains level m 6 k₁ (f true) k']
    [hfalse : Gains level m a k₁ (f false) k'] : Gains level m a k (c >>= f) k' where
  ends _ _ _ _ hσ := by
    refine (h.ends hσ).bind fun x τ hτ => ?_
    obtain ⟨l, hl, hτ⟩ := hτ
    cases x with
    | true =>
      cases hl
      exact htrue.ends hτ
    | false =>
      cases hl
      exact hfalse.ends hτ

theorem ifThen {c : Parse Bool} {f : Bool → Parse α} [Gains (condLevel a) m a k c k₁]
    (htrue : Gains level m 6 k₁ (f true) k') (hfalse : Gains level m a k₁ (f false) k') :
    Gains level m a k (c >>= f) k' :=
  Gains.ifGains c f

instance ite (c : Prop) [Decidable c] (x y : Parse α) [hx : Gains level m a k x k']
    [hy : Gains level m a k y k'] : Gains level m a k (if c then x else y) k' := by
  split
  · exact hx
  · exact hy

instance (priority := high) iteTrue (c : Bool) (x y : Parse α) [hc : Decides c true]
    [hx : Gains level m a k x k'] : Gains level m a k (if c = true then x else y) k' := by
  rw [if_pos hc.eq]
  exact hx

instance (priority := high) iteFalse (c : Bool) (x y : Parse α) [hc : Decides c false]
    [hy : Gains level m a k y k'] : Gains level m a k (if c = true then x else y) k' := by
  rw [if_neg (by rw [hc.eq]; decide)]
  exact hy

instance and (c c' : Parse Bool) [Runs m a k c a₁ k] [Gains (condLevel a) m a₁ k c' k]
    [AtMost a a₁] : Gains (condLevel a) m a k (c <&&> c') k := by
  unfold andM
  refine .andThen fun holds => ?_
  cases holds
  · exact inferInstanceAs (Gains (condLevel a) m a₁ k (Pure.pure false) k)
  · exact inferInstanceAs (Gains (condLevel a) m a₁ k c' k)

instance or (c c' : Parse Bool) [Gains (condLevel a) m a k c k]
    [Gains (condLevel a) m a k c' k] : Gains (condLevel a) m a k (c <||> c') k := by
  unfold orM
  have hfalse : Gains (condLevel a) m a k
      (match false with | true => Pure.pure true | false => c') k :=
    inferInstanceAs (Gains _ _ _ _ c' _)
  have htrue : Gains (condLevel a) m 6 k
      (match true with | true => Pure.pure true | false => c' : Parse Bool) k :=
    inferInstanceAs (Gains _ _ _ _ (Pure.pure true) _)
  exact Gains.ifGains c _

end Gains

/-- A condition that consumes what it asks for runs to its end. -/
theorem Runs.ofGains {m : Mark} {a k k' : Nat} {c : Parse Bool} (h : Gains (condLevel a) m a k c k') :
    Runs m a k c a k' where
  ends _ _ _ _ hσ _ := by
    refine (h.ends hσ).mono fun x _ hτ => ?_
    obtain ⟨l, hl, hτ⟩ := hτ
    cases x <;> cases hl
    · exact hτ
    · exact hτ.mono (Nat.min_le_right a 6) (Nat.le_refl _)

/-! ## Saved states and goals -/

namespace Runs

variable {m : Mark} {a a' a₁ k k' : Nat}

instance restore (σ₀ : State) (a₀ k₀ : Nat) :
    Runs ⟨σ₀, a₀, k₀⟩ a k (Parse.restore σ₀.snapshot) a₀ k₀ where
  ends _ _ _ σ hσ _ := by
    have hspans : (σ.restore σ₀.snapshot).spans = σ₀.spans := by
      have htake : (σ.restore σ₀.snapshot).spans = σ.spans.take σ₀.tokens.size := by
        simp [State.spans, State.restore, State.snapshot, List.map_take]
      have hlength : σ₀.tokens.size = σ₀.spans.length := by simp [State.spans]
      rw [htake, hlength]
      exact (List.prefix_iff_eq_take.1 hσ.spans).symm
    have hsame : σ₀.SameLexemes (σ.restore σ₀.snapshot) := ⟨rfl, rfl, hspans⟩
    have hhere := hσ.mark.of_rests (hsame.rests rfl hσ.mark.sane)
    exact ⟨hσ.meets, hσ.mark, hhere, hspans ▸ List.prefix_rfl⟩

instance (priority := high) snapshot (f : Snapshot → Parse α)
    [hf : ∀ σ : State, Runs ⟨σ, a, k⟩ a k (f σ.snapshot) a' k'] :
    Runs m a k (Parse.snapshot >>= f) a' k' where
  ends _ _ _ σ hσ _ := ((hf σ).ends hσ.rebase trivial).mono fun _ _ hτ => hσ.trans hσ.spans hτ

theorem fromSnapshotWhen {pre : State → Prop} {f : Snapshot → Parse α}
    (hf : ∀ σ : State, pre σ → Runs ⟨σ, a, k⟩ a k (f σ.snapshot) a' k') :
    RunsWhen pre m a k (Parse.snapshot >>= f) a' k' :=
  fun _ _ _ σ hσ hwhen => ((hf σ hwhen).ends hσ.rebase trivial).mono fun _ _ hτ =>
    hσ.trans hσ.spans hτ

instance peek (rule : Parse α) [∀ σ : State, Runs ⟨σ, a, k⟩ a k rule a₁ k'] :
    Runs m a k (Parse.peek rule) a k := by
  unfold Parse.peek
  infer_instance

theorem reachGoal (g : Goal) (ha : g.rank < a) :
    Runs m a k (Parse.reachArrow g) (if g.moves then 6 else a) k where
  ends env credit depth σ hσ _ := by
    have hneed : g.need env.source σ < credit := by
      have hcost := hσ.here.cost
      have hrank := g.rank_lt
      rcases hσ.here.sane with hlive | hstopped
      · rw [hlive.cost_eq] at hcost
        rw [Goal.need, if_pos hlive.clear]
        omega
      · rw [hstopped.cost_eq] at hcost
        rw [Goal.need, if_neg hstopped.failed]
        omega
    refine (hσ.meets g σ hσ.here.sane hneed).mono fun _ τ hτ => ?_
    obtain ⟨hsane, hcost, hdepth, hspans⟩ := hτ
    have hopen := hσ.here.depth
    refine hσ.onward ⟨hsane, Nat.le_trans ?_ hσ.here.cost, by omega⟩ hspans
    rcases hσ.here.sane with hlive | hstopped
    · rw [hlive.cost_eq] at hcost ⊢
      have hpos := left_pos env.source σ
      rcases hsane with hτ | hτ
      · rw [hτ.cost_eq] at hcost ⊢
        by_cases hmoves : g.moves
        · rw [if_pos hmoves] at hcost ⊢
          omega
        · rw [if_neg hmoves] at hcost ⊢
          omega
      · rw [hτ.cost_eq]
        omega
    · rw [hstopped.cost_eq] at hcost ⊢
      have hafford : Affords env.source 5 0 _ 0 τ := ⟨hsane, hcost, Nat.zero_le _⟩
      exact Nat.le_of_eq (hafford.stopped.cost_eq _)

end Runs

instance (priority := high) Gains.snapshot {m : Mark} {a k k' : Nat} {level : α → Option Nat}
    (f : Snapshot → Parse α) [hf : ∀ σ : State, Gains level ⟨σ, a, k⟩ a k (f σ.snapshot) k'] :
    Gains level m a k (Parse.snapshot >>= f) k' where
  ends _ _ _ σ hσ := by
    refine ((hf σ).ends hσ.rebase).mono fun _ _ hτ => ?_
    obtain ⟨l, hl, hτ⟩ := hτ
    exact ⟨l, hl, hσ.trans hσ.spans hτ⟩

theorem Gains.fromSnapshot {m : Mark} {a k k' : Nat} {level : α → Option Nat}
    {f : Snapshot → Parse α}
    (hf : ∀ σ : State, Gains level ⟨σ, a, k⟩ a k (f σ.snapshot) k') :
    Gains level m a k (Parse.snapshot >>= f) k' :=
  Gains.snapshot f

/-! ## After an error -/

/-- Whether a kind is that of the end of the text. -/
@[reducible]
def isEnd : TokenKind → Bool
  | .eof => true
  | _ => false

/-- Whether a word is no soft keyword. -/
@[reducible]
def isOrdinary : SoftKeyword → Bool
  | .ordinary => true
  | _ => false

/-- Two truth values that are the same after evaluation. -/
class Same (x y : Bool) : Prop where
  eq : x = y

instance (x : Bool) : Same x x := ⟨rfl⟩

theorem ne_eof_of_isEnd {k : TokenKind} (h : isEnd k = false) : k ≠ .eof := by
  rintro rfl
  cases h

/-- Kinds among which the end of the text is not. -/
class NoEnd (ks : List TokenKind) : Prop where
  contains : ks.contains .eof = false

instance : NoEnd [] := ⟨rfl⟩

instance (k : TokenKind) (ks : List TokenKind) [hk : Same (isEnd k) false] [hks : NoEnd ks] :
    NoEnd (k :: ks) where
  contains := by
    rw [List.contains_cons, hks.contains, Bool.or_false]
    exact beq_false_of_ne (ne_eof_of_isEnd hk.eq).symm

theorem ne_ordinary_of_isOrdinary {w : SoftKeyword} (h : isOrdinary w = false) : w ≠ .ordinary := by
  rintro rfl
  cases h

/-- With credit for the stopped phase only, a rule that runs stays in it. -/
instance (priority := low) Stays.ofRuns {a k : Nat} (rule : Parse α)
    [h : ∀ σ, Runs ⟨σ, 6, 0⟩ 6 0 rule a k] : Stays rule where
  stopped {env σ τ x} henv hσ hrun := by
    have hhere : Affords env.source 5 0 6 0 σ :=
      ⟨.inr hσ, Nat.le_of_eq (hσ.cost_eq 6), Nat.zero_le _⟩
    have hends := (h σ).ends ⟨henv, hhere, hhere, List.prefix_rfl⟩ trivial
    rw [hrun] at hends
    exact hends.here.stopped

namespace Answers

variable {v : α} {w : β}

theorem ofState {f : State → α}
    (h : ∀ {s : Source} {σ : State}, Stopped s σ → f σ = v) :
    Answers (do return f (← get)) v where
  eq _ hσ hrun := by
    cases hrun
    exact ⟨h hσ, hσ⟩

instance pure (x : α) : Answers (Pure.pure x : Parse α) x where
  eq _ hσ hrun := by
    cases hrun
    exact ⟨rfl, hσ⟩

instance (priority := high) (x y : Bool) [h : Decides x y] :
    Answers (Pure.pure x : Parse Bool) y := by
  rw [h.eq]
  exact Answers.pure y

instance (priority := high) bind (rule : Parse α) (f : α → Parse β) [h : Answers rule v]
    [hf : Answers (f v) w] : Answers (rule >>= f) w where
  eq henv hσ hrun := by
    obtain ⟨x, υ, hfirst, hrest⟩ := Parse.bind_ok hrun
    obtain ⟨rfl, hυ⟩ := h.eq henv hσ hfirst
    exact hf.eq henv hυ hrest

instance bindAny (rule : Parse α) (f : α → Parse β) [h : Stays rule]
    [hf : ∀ x, Answers (f x) w] : Answers (rule >>= f) w where
  eq henv hσ hrun := by
    obtain ⟨x, υ, hfirst, hrest⟩ := Parse.bind_ok hrun
    exact (hf x).eq henv (h.stopped henv hσ hfirst) hrest

theorem andThen {rule : Parse α} {f : α → Parse β} [Stays rule]
    (hf : ∀ x, Answers (f x) w) : Answers (rule >>= f) w :=
  Answers.bindAny rule f

instance ite (c : Prop) [Decidable c] (x y : Parse α) [hx : Answers x v] [hy : Answers y v] :
    Answers (if c then x else y) v := by
  split
  · exact hx
  · exact hy

instance (priority := high) iteTrue (c : Bool) (x y : Parse α) [hc : Decides c true]
    [hx : Answers x v] : Answers (if c = true then x else y) v := by
  rw [if_pos hc.eq]
  exact hx

instance (priority := high) iteFalse (c : Bool) (x y : Parse α) [hc : Decides c false]
    [hy : Answers y v] : Answers (if c = true then x else y) v := by
  rw [if_neg (by rw [hc.eq]; decide)]
  exact hy

instance andFalse (c c' : Parse Bool) [Answers c false] : Answers (c <&&> c') false := by
  unfold andM
  have hfalse : Answers (match false with | true => c' | false => Pure.pure false) false :=
    Answers.pure false
  exact Answers.bind c _

instance (c c' : Parse Bool) [Stays c] [h : Answers c' false] : Answers (c <&&> c') false := by
  unfold andM
  refine .andThen fun holds => ?_
  cases holds
  · exact Answers.pure false
  · exact h

instance (c c' : Parse Bool) [Answers c true] : Answers (c <||> c') true := by
  unfold orM
  have htrue : Answers (match true with | true => Pure.pure true | false => c') true :=
    Answers.pure true
  exact Answers.bind c _

instance (c c' : Parse Bool) {x : Bool} [Answers c false] [h : Answers c' x] :
    Answers (c <||> c') x := by
  unfold orM
  have hfalse : Answers (match false with | true => Pure.pure true | false => c') x := h
  exact Answers.bind c _

instance hasError : Answers Parse.hasError true :=
  ofState fun h => Option.isSome_iff_ne_none.2 h.failed

instance kind : Answers Parse.kind .eof := ofState fun h => h.kind

instance keyword : Answers Parse.keyword .ordinary := ofState fun h => h.keyword

instance isAt (k : TokenKind) [hk : Same (isEnd k) false] : Answers (Parse.isAt k) false :=
  ofState fun h => by
    rw [h.kind]
    exact beq_false_of_ne (ne_eof_of_isEnd hk.eq).symm

instance isAtAny (ks : List TokenKind) [hks : NoEnd ks] : Answers (Parse.isAtAny ks) false :=
  ofState fun h => by
    rw [h.kind]
    exact hks.contains

instance spells (w : SoftKeyword) [hw : Same (isOrdinary w) false] : Answers (Parse.spells w) false :=
  ofState fun h => by
    rw [h.keyword]
    exact beq_false_of_ne (ne_ordinary_of_isOrdinary hw.eq).symm

end Answers

/-! ## Loops -/

/-- The number of rounds that may still follow. A parse that has stopped has one more, and a fresh
round need not consume anything. -/
def roundsLeft (s : Source) (σ : State) (isFresh : Bool) : Nat :=
  (if σ.error? = none then left s σ else 0) + if isFresh then 1 else 0

theorem roundsLeft_le (s : Source) (σ : State) (isFresh : Bool) :
    roundsLeft s σ isFresh ≤ s.size + 3 := by
  have hleft := left_le s σ
  unfold roundsLeft
  split <;> split <;> omega

section

variable {m : Mark} {a k : Nat} {env : Env} {credit depth : Nat}

/-- A state is the start of a round whose credit is what the state costs. -/
theorem Situation.round (h : Situation env credit depth m a k σ) :
    Situation env (cost env.source (min a 4) σ) depth ⟨σ, min a 4, k⟩ (min a 4) k σ := by
  have hround : Affords env.source credit depth (min a 4) k σ :=
    h.here.mono (by omega) (Nat.le_refl k)
  have hhere : Affords env.source (cost env.source (min a 4) σ) depth (min a 4) k σ :=
    ⟨h.here.sane, Nat.le_refl _, h.here.depth⟩
  exact ⟨h.meets.mono hround.cost, hhere, hhere, List.prefix_rfl⟩

theorem Situation.of_round (h : Situation env credit depth m a k σ) {l : Nat}
    (hτ : Situation env (cost env.source (min a 4) σ) depth ⟨σ, min a 4, k⟩ l k τ)
    (hl : min a 4 ≤ l) : Situation env credit depth m a k τ := by
  have hcost := hτ.here.cost
  refine h.onward ⟨hτ.here.sane, Nat.le_trans ?_ h.here.cost, hτ.here.depth⟩ hτ.spans
  rcases h.here.sane with hlive | hstopped
  · rw [hlive.cost_eq] at hcost ⊢
    rcases hτ.here.sane with hlive' | hstopped'
    · rw [hlive'.cost_eq] at hcost ⊢
      omega
    · have hpos := left_pos env.source σ
      rw [hstopped'.cost_eq]
      omega
  · rw [hstopped.cost_eq] at hcost ⊢
    rcases hτ.here.sane with hlive' | hstopped'
    · have hpos := left_pos env.source τ
      rw [hlive'.cost_eq] at hcost
      omega
    · exact Nat.le_of_eq (hstopped'.cost_eq a)

theorem roundsLeft_lt {isFresh : Bool} {l : Nat} (hσ : Live env.source σ)
    (hτ : Situation env (cost env.source (min a 4) σ) depth ⟨σ, min a 4, k⟩ l k τ)
    (hl : l = if isFresh then min a 4 else 6) :
    roundsLeft env.source τ false < roundsLeft env.source σ isFresh := by
  have hcost := hτ.here.cost
  have hpos := left_pos env.source σ
  rw [hσ.cost_eq] at hcost
  rw [roundsLeft, roundsLeft, if_pos hσ.clear]
  rcases hτ.here.sane with hlive | hstopped
  · rw [hlive.cost_eq] at hcost
    rw [if_pos hlive.clear]
    cases isFresh <;> simp only [if_true, Bool.false_eq_true, if_false] at hl ⊢ <;> omega
  · rw [if_neg hstopped.failed]
    simp only [Bool.false_eq_true, if_false]
    omega

/-- A loop ends if there are enough rounds, each of them consumes something, and there is no other
round after an error. -/
theorem iterateFor_ends {round : β → Parse (ForInStep β)} {fresh : β → Bool} {v : β → β}
    (hround : ∀ σ x, Gains (roundLevel fresh (min a 4) (fresh x)) ⟨σ, min a 4, k⟩ (min a 4) k
      (round x) k)
    (hdone : ∀ x, Answers (round x) (.done (v x))) {n : Nat} {x : β}
    (hσ : Situation env credit depth m a k σ) (hn : roundsLeft env.source σ (fresh x) < n) :
    Ends env.source (fun _ τ => Situation env credit depth m a k τ) (iterateFor round n x env σ) := by
  induction n generalizing σ x with
  | zero => cases hn
  | succ n ih =>
    have hends := (hround σ x).ends hσ.round
    unfold iterateFor
    refine hends.withRun.bind fun step τ hstep => ?_
    obtain ⟨hrun, l, hl, hτ⟩ := hstep
    cases step with
    | done y =>
      cases hl
      exact hσ.of_round hτ (Nat.le_refl _)
    | yield y =>
      have hlive : Live env.source σ := by
        refine hσ.here.sane.resolve_right fun hstopped => ?_
        have hcost := hσ.here.cost
        rw [hstopped.cost_eq] at hcost
        have hanswer := ((hdone x).eq (hσ.meets.mono hcost) hstopped hrun).1
        cases hanswer
      cases hfresh : fresh y with
      | true =>
        rw [roundLevel, if_pos hfresh] at hl
        cases hl
      | false =>
        rw [roundLevel, if_neg (by rw [hfresh]; decide)] at hl
        cases hl
        have hlt := roundsLeft_lt hlive hτ rfl
        refine ih (hσ.of_round hτ ?_) ?_
        · split <;> omega
        · rw [hfresh]
          omega

end

namespace Runs

variable {m : Mark} {a k : Nat}

/-- A loop over states of which some are fresh. -/
theorem iterateFresh {round : β → Parse (ForInStep β)} {fresh : β → Bool} {v : β → β}
    (hround : ∀ σ x, Gains (roundLevel fresh (min a 4) (fresh x)) ⟨σ, min a 4, k⟩ (min a 4) k
      (round x) k)
    (hdone : ∀ x, Answers (round x) (.done (v x))) (x : β) :
    Runs m a k (Parse.iterate x round) a k where
  ends env _ _ σ hσ _ := by
    have hrounds : roundsLeft env.source σ (fresh x) < roundLimit env.source := by
      have hle := roundsLeft_le env.source σ (fresh x)
      unfold roundLimit
      omega
    exact iterateFor_ends hround hdone hσ hrounds

instance iterate (x : β) (round : β → Parse (ForInStep β)) {v : β → β}
    [hround : ∀ σ x, Gains (roundLevel (fun _ => false) (min a 4) false) ⟨σ, min a 4, k⟩ (min a 4) k
      (round x) k]
    [hdone : ∀ x, Answers (round x) (.done (v x))] : Runs m a k (Parse.iterate x round) a k :=
  iterateFresh hround hdone x

instance (priority := high) (round : Bool → Parse (ForInStep Bool)) {v v' : Bool}
    [hfirst : ∀ σ, Gains (roundLevel (fun x => x) (min a 4) true) ⟨σ, min a 4, k⟩ (min a 4) k
      (round true) k]
    [hrest : ∀ σ, Gains (roundLevel (fun x => x) (min a 4) false) ⟨σ, min a 4, k⟩ (min a 4) k
      (round false) k]
    [hdone : Answers (round true) (.done v)] [hdone' : Answers (round false) (.done v')] :
    Runs m a k (Parse.iterate true round) a k := by
  have hround : ∀ σ x, Gains (roundLevel (fun x => x) (min a 4) x) ⟨σ, min a 4, k⟩ (min a 4) k
      (round x) k := by
    intro σ x
    cases x with
    | true => exact hfirst σ
    | false => exact hrest σ
  have hdone : ∀ x, Answers (round x) (.done (if x then v else v')) := by
    intro x
    cases x with
    | true => exact hdone
    | false => exact hdone'
  exact iterateFresh hround hdone true

instance loop (round : Parse Bool)
    [∀ σ, Gains (condLevel (min a 4)) ⟨σ, min a 4, k⟩ (min a 4) k round k] [Answers round false] :
    Runs m a k (Parse.loop round) a k := by
  unfold Parse.loop
  infer_instance

instance loopWhile (condition : Parse Bool) (body : Parse Unit)
    [∀ σ, Gains (condLevel (min a 4)) ⟨σ, min a 4, k⟩ (min a 4) k
      (condition >>= fun holds => if holds then do body; Pure.pure true else Pure.pure false) k]
    [Answers condition false] : Runs m a k (Parse.loopWhile condition body) a k := by
  unfold Parse.loopWhile
  infer_instance

instance forIn (xs : List α) (x : β) (f : α → β → Parse (ForInStep β))
    [hf : ∀ y x, Runs m a k (f y x) a k] : Runs m a k (ForIn.forIn xs x f) a k := by
  induction xs generalizing x with
  | nil => exact Runs.pure x
  | cons y xs ih =>
    rw [List.forIn_cons]
    refine .andThen fun step => ?_
    cases step with
    | done x => exact Runs.pure x
    | yield x => exact ih x

end Runs

end PlainScript.Grammar
