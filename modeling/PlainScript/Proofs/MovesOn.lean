import PlainScript.Proofs.Choice

/-!
# The cursor moves on

A loop of the writer ends since each round moves the cursor on, and so does a task that is done
inside another one: it starts at a later token. `MovesOn` says that a part of the writer has moved
the cursor on if its answer has a property, and `Finishes` that it never moves the cursor back and
never runs out of steps, given that there are enough of them for the tasks from an index on. Both
are shown for every part, by its shape.

A part depends on how tasks are done only through the tasks it asks for. So `Finishes` compares two
ways to do them: if these agree where a property of states holds that lasts while the cursor goes on,
then so do the two runs of the part.
-/

namespace PlainScript.Emit

-- Counted in combinators.
set_option synthInstance.maxSize 100000

/-- Tasks do not move the cursor back, and only one may leave it where it is. -/
def Progresses (recur : Task → Step Unit) : Prop :=
  ∀ (task : Task) (σ τ : State), recur task σ = .ok ((), τ) →
    σ.index ≤ τ.index ∧ (task ≠ .balanced → σ.index < τ.index)

/-- Two runs that end alike, in a state with a property or with a failure that is no lack of steps. -/
inductive Agree {α : Type} (I : State → Prop) :
    Except Failure (α × State) → Except Failure (α × State) → Prop where
  | ok {a : α} {τ : State} (h : I τ) : Agree I (.ok (a, τ)) (.ok (a, τ))
  | error {e : Failure} (h : e ≠ .budget) : Agree I (.error e) (.error e)

namespace Agree

variable {α β : Type} {I J : State → Prop} {x y : Except Failure (α × State)}

theorem ne_budget (h : Agree I x y) : x ≠ .error .budget := by
  cases h with
  | ok => nofun
  | error h => exact fun heq => h (Except.error.inj heq)

theorem eq (h : Agree I x y) : x = y := by cases h <;> rfl

theorem imp (h : Agree I x y) (himp : ∀ a τ, x = .ok (a, τ) → I τ → J τ) : Agree J x y := by
  cases h with
  | ok h => exact .ok (himp _ _ rfl h)
  | error h => exact .error h

theorem bind {e : Emit α} {f : α → Emit β} {env env' : Env} {σ : State}
    (he : Agree I (e env σ) (e env' σ))
    (hf : ∀ a υ, e env σ = .ok (a, υ) → I υ → Agree J (f a env υ) (f a env' υ)) :
    Agree J ((e >>= f) env σ) ((e >>= f) env' σ) := by
  change Agree J (do let (a, υ) ← e env σ; f a env υ) (do let (a, υ) ← e env' σ; f a env' υ)
  generalize e env σ = first at he hf
  generalize e env' σ = first' at he
  cases he with
  | ok h => exact hf _ _ rfl h
  | error h => exact .error h

theorem map {f : α → β} {e : Emit α} {env env' : Env} {σ : State}
    (he : Agree I (e env σ) (e env' σ)) : Agree I ((f <$> e) env σ) ((f <$> e) env' σ) := by
  rw [map_eq_pure_bind]
  exact he.bind fun _ _ _ h => .ok h

end Agree

/-- A property of states that lasts while the cursor goes on, and while lines are counted up to
it. -/
class Lasting (s : Setting) (I : State → Prop) : Prop where
  onward {σ τ : State} (h : I σ) (hlines : τ.lines = σ.lines) (hindex : σ.index ≤ τ.index) : I τ
  counted {σ : State} (h : I σ) :
    I { σ with lines := σ.lines.advance s.tape.source (s.tape.get σ.index).start }

instance (s : Setting) : Lasting s fun _ => True := ⟨fun _ _ _ => trivial, fun _ => trivial⟩

/-- There are enough steps for each task from an index on, and two ways to do it agree. Elements are
asked for inside the tape only. -/
def Affords (s : Setting) (m : Nat) (I : State → Prop) (recur recur' : Task → Step Unit) : Prop :=
  ∀ (task : Task) (σ : State), m ≤ σ.index → (task = .element → σ.index < s.tape.size) → I σ →
    Agree I (recur task σ) (recur' task σ)

/-- The same value, up to the way in which tasks are done. -/
class Same {β : Type} (x y : β) : Prop where
  eq : x = y

instance {β : Type} (x : β) : Same x x := ⟨rfl⟩

/-- Asking for no task and counting no lines, so never running out of steps. -/
def settling : Law Emit where
  Holds e := ∀ (s : Setting) (recur recur' : Task → Step Unit) (σ : State),
    Agree (fun τ => τ.lines = σ.lines) (e ⟨s, recur⟩ σ) (e ⟨s, recur'⟩ σ)
  pure _ _ _ _ _ := .ok rfl
  bind he hf s recur recur' σ := (he s recur recur' σ).bind fun a υ _ hυ =>
    (hf a s recur recur' υ).imp fun _ _ _ hτ => hτ.trans hυ

/-- A part of the writer that asks for no task and counts no lines, so it never runs out of steps. -/
abbrev Settled {α : Type} (e : Emit α) : Prop := Obeys settling e

namespace Settled

variable {α : Type}

instance fail (e : StructureError) : Settled (Emit.fail e : Emit α) :=
  ⟨fun _ _ _ _ => .error nofun⟩

instance get : Settled (MonadState.get : Emit State) := ⟨fun _ _ _ _ => .ok rfl⟩

instance afterRead (f : Env → Emit α) [hf : ∀ s recur, Settled (f ⟨s, recur⟩)]
    [hsame : ∀ s recur recur', Same (f ⟨s, recur⟩) (f ⟨s, recur'⟩)] :
    Settled (MonadReader.read >>= f) where
  holds s recur recur' σ := by
    change Agree _ (f ⟨s, recur⟩ ⟨s, recur⟩ σ) (f ⟨s, recur'⟩ ⟨s, recur'⟩ σ)
    rw [← (hsame s recur recur').eq]
    exact (hf s recur).holds s recur recur' σ

instance (f : State → State) [hf : ∀ σ, Same (f σ).lines σ.lines] : Settled (modify f : Emit Unit) :=
  ⟨fun _ _ _ σ => .ok (hf σ).eq⟩

instance view : Settled view := ⟨fun _ _ _ _ => .ok rfl⟩

instance options : Settled options := ⟨fun _ _ _ _ => .ok rfl⟩

theorem agree {s : Setting} {I : State → Prop} [hI : Lasting s I] {recur recur' : Task → Step Unit}
    {σ : State} {e : Emit α} [he : Settled e] (hσ : I σ)
    (honward : ∀ {a τ}, e ⟨s, recur⟩ σ = .ok (a, τ) → σ.index ≤ τ.index) :
    Agree I (e ⟨s, recur⟩ σ) (e ⟨s, recur'⟩ σ) :=
  (he.holds s recur recur' σ).imp fun _ _ hrun hlines => hI.onward hσ hlines (honward hrun)

end Settled

instance (priority := low) {α : Type} (e : Emit α) [he : Settled e] : Fixes State.lines e where
  holds {env σ τ a} hrun := by
    have hsettled := he.holds env.toSetting env.recur env.recur σ
    rw [hrun] at hsettled
    cases hsettled
    assumption

/-- An index that comes before another one or is the same. -/
class AtLeast (m i : Nat) : Prop where
  le : m ≤ i

instance (m : Nat) : AtLeast m m := ⟨Nat.le_refl m⟩

instance (i : Nat) : AtLeast 0 i := ⟨Nat.zero_le i⟩

instance (m k : Nat) : AtLeast m (m + k) := ⟨Nat.le_add_right m k⟩

instance (m i : Nat) [h : AtLeast m i] : AtLeast m (i + 1) := ⟨Nat.le_succ_of_le h.le⟩

/-- A task that may be asked for at an index. -/
class HasRoom (s : Setting) (i : Nat) (task : Task) : Prop where
  room (h : task = .element) : i < s.tape.size

instance (s : Setting) (i : Nat) : HasRoom s i .token := ⟨nofun⟩

instance (s : Setting) (i : Nat) : HasRoom s i .balanced := ⟨nofun⟩

theorem hasRoom_of_kind {s : Setting} {i : Nat} {task : Task} {kind : TokenKind}
    (h : s.tape.kind i = kind) (hkind : kind ≠ .eof) : HasRoom s i task :=
  ⟨fun _ => Tape.lt_size_of_kind (h ▸ hkind)⟩

/-- A part of the writer that does not move the cursor back and does not run out of steps when the
cursor is at an index, if there are enough steps for the tasks from another index on. It ends alike
with two ways to do these tasks that agree. -/
class Finishes (s : Setting) (m i : Nat) {α : Type} (e : Emit α) : Prop where
  onward {recur : Task → Step Unit} {σ τ : State} {a : α} (hrecur : Progresses recur)
    (hindex : σ.index = i) (hrun : e ⟨s, recur⟩ σ = .ok (a, τ)) : i ≤ τ.index
  finishes {I : State → Prop} [Lasting s I] {recur recur' : Task → Step Unit} {σ : State}
    (hrecur : Progresses recur) (hsteps : Affords s m I recur recur') (hindex : σ.index = i)
    (hσ : I σ) : Agree I (e ⟨s, recur⟩ σ) (e ⟨s, recur'⟩ σ)

/-- Every answer. -/
def Always {α : Type} (_ : α) : Prop := True

/-- The answer of a pass that has handled a token. -/
def Handled (b : Bool) : Prop := b = true

/-- The answer of a round that is not the last one. -/
def Yields {ι : Type} (step : ForInStep ι) : Prop := ∃ x, step = .yield x

/-- A part of the writer that starts below a limit on the state it leaves if its answer has a property. -/
class Below (top : State → Nat) (s : Setting) (i : Nat) {α : Type} (Q : α → Prop) (e : Emit α) :
    Prop where
  lt {recur : Task → Step Unit} {σ τ : State} {a : α} (hrecur : Progresses recur)
    (hindex : σ.index = i) (hrun : e ⟨s, recur⟩ σ = .ok (a, τ)) (ha : Q a) : i < top τ

/-- A part of the writer that has moved the cursor on from an index if its answer has a property. -/
abbrev MovesOn (s : Setting) (i : Nat) {α : Type} (Q : α → Prop) (e : Emit α) : Prop :=
  Below State.index s i Q e

/-- The end of the tape, in any state. -/
def Setting.size (s : Setting) (_ : State) : Nat := s.tape.size

/-- A part of the writer that gives an answer with a property only inside the tape. -/
abbrev Inside (s : Setting) (i : Nat) {α : Type} (Q : α → Prop) (e : Emit α) : Prop :=
  Below s.size s i Q e

instance Fixes.flags (output names called vars paths exports default? file? lines mocks) :
    Fixes State.index (changeState output names called vars paths exports default? file? lines mocks) where
  holds hrun := by
    cases hrun
    rfl

namespace Finishes

variable {s : Setting} {m i : Nat} {α β : Type}

/-! ## Combinators -/

theorem ofFixes {e : Emit α} [he : Fixes State.index e] [hsettled : Settled e] :
    Finishes s m i e where
  onward _ hindex hrun := Nat.le_of_eq ((he.fixes hrun).trans hindex).symm
  finishes _ _ _ hσ := hsettled.agree hσ fun hrun => Nat.le_of_eq (he.fixes hrun).symm

instance ofWrites (e : Emit Unit) (code : String) [he : Writes s i e code] [hsettled : Settled e] :
    Finishes s m i e where
  onward _ hindex hrun := Nat.le_of_succ_le (Nat.le_of_eq (he.writes hindex hrun).1.symm)
  finishes _ _ hindex hσ := hsettled.agree hσ fun hrun => by
    have hnext := (he.writes hindex hrun).1
    omega

instance (priority := low) ofUnfolds (e : Emit α) {body : Emit α} [h : Unfolds e body]
    [hbody : Finishes s m i body] : Finishes s m i e := by
  rw [h.eq]
  exact hbody

instance pure (a : α) : Finishes s m i (Pure.pure a : Emit α) := ofFixes

instance (priority := low) bind (e : Emit α) (f : α → Emit β) [hm : AtLeast m i]
    [he : Finishes s m i e] [hf : ∀ a k, Finishes s m (m + k) (f a)] :
    Finishes s m i (e >>= f) where
  onward hrecur hindex hrun := by
    obtain ⟨a, υ, hfirst, hrest⟩ := bind_ok hrun
    have hυ := he.onward hrecur hindex hfirst
    obtain ⟨k, hk⟩ := Nat.exists_eq_add_of_le (Nat.le_trans hm.le hυ)
    exact Nat.le_trans hυ (hk ▸ (hf a k).onward hrecur hk hrest)
  finishes hrecur hsteps hindex hσ := by
    refine (he.finishes hrecur hsteps hindex hσ).bind fun a υ hfirst hI => ?_
    have hυ := he.onward hrecur hindex hfirst
    obtain ⟨k, hk⟩ := Nat.exists_eq_add_of_le (Nat.le_trans hm.le hυ)
    exact (hf a k).finishes hrecur hsteps hk hI

theorem andThen {e : Emit α} {f : α → Emit β} [AtLeast m i] [Finishes s m i e]
    (hf : ∀ a k, Finishes s m (m + k) (f a)) : Finishes s m i (e >>= f) :=
  Finishes.bind e f

instance (priority := 95) (e : Emit α) (f : α → Emit β) [he : Finishes s m i e]
    [hf : ∀ a j, Finishes s m j (f a)] : Finishes s m i (e >>= f) where
  onward hrecur hindex hrun := by
    obtain ⟨a, υ, hfirst, hrest⟩ := bind_ok hrun
    exact Nat.le_trans (he.onward hrecur hindex hfirst) ((hf a υ.index).onward hrecur rfl hrest)
  finishes hrecur hsteps hindex hσ :=
    (he.finishes hrecur hsteps hindex hσ).bind fun a υ _ hI =>
      (hf a υ.index).finishes hrecur hsteps rfl hI

/-- What follows a part that has moved the cursor on, at the last index before there are enough
steps. -/
instance (priority := 90) (e : Emit α) (f : α → Emit β) [hm : AtLeast m (i + 1)]
    [he : Finishes s m i e] [hmoves : MovesOn s i Always e]
    [hf : ∀ a k, Finishes s m (m + k) (f a)] : Finishes s m i (e >>= f) where
  onward hrecur hindex hrun := by
    obtain ⟨a, υ, hfirst, hrest⟩ := bind_ok hrun
    have hυ := hmoves.lt hrecur hindex hfirst trivial
    obtain ⟨k, hk⟩ := Nat.exists_eq_add_of_le (Nat.le_trans hm.le hυ)
    exact Nat.le_trans (Nat.le_of_lt hυ) (hk ▸ (hf a k).onward hrecur hk hrest)
  finishes hrecur hsteps hindex hσ := by
    refine (he.finishes hrecur hsteps hindex hσ).bind fun a υ hfirst hI => ?_
    have hυ := hmoves.lt hrecur hindex hfirst trivial
    obtain ⟨k, hk⟩ := Nat.exists_eq_add_of_le (Nat.le_trans hm.le hυ)
    exact (hf a k).finishes hrecur hsteps hk hI

instance ite (c : Prop) [Decidable c] (a b : Emit α) [Finishes s m i a] [Finishes s m i b] :
    Finishes s m i (if c then a else b) := by
  split <;> infer_instance

theorem throw {e : Failure} (he : e ≠ .budget) :
    Finishes s m i (MonadExcept.throw e : Emit α) := by
  have : Settled (MonadExcept.throw e : Emit α) := ⟨fun _ _ _ _ => .error he⟩
  exact ofFixes

instance fail (e : StructureError) : Finishes s m i (Emit.fail e : Emit α) := ofFixes

instance afterFail (e : StructureError) (f : β → Emit α) : Finishes s m i (Emit.fail e >>= f) where
  onward _ _ hrun := by
    obtain ⟨_, _, hfail, _⟩ := bind_ok hrun
    cases hfail
  finishes _ _ _ _ := .error nofun

instance get : Finishes s m i (MonadState.get : Emit State) := ofFixes

instance afterGet (f : State → Emit α) [hf : ∀ σ, Finishes s m i (f σ)] :
    Finishes s m i (MonadState.get >>= f) where
  onward hrecur hindex hrun := (hf _).onward hrecur hindex hrun
  finishes hrecur hsteps hindex hσ := (hf _).finishes hrecur hsteps hindex hσ

instance afterRead (f : Env → Emit α) [hf : ∀ recur, Finishes s m i (f ⟨s, recur⟩)]
    [hsame : ∀ recur recur', Same (f ⟨s, recur⟩) (f ⟨s, recur'⟩)] :
    Finishes s m i (MonadReader.read >>= f) where
  onward hrecur hindex hrun := (hf _).onward hrecur hindex hrun
  finishes {I _ recur recur' σ} hrecur hsteps hindex hσ := by
    change Agree I (f ⟨s, recur⟩ ⟨s, recur⟩ σ) (f ⟨s, recur'⟩ ⟨s, recur'⟩ σ)
    rw [← (hsame recur recur').eq]
    exact (hf recur).finishes hrecur hsteps hindex hσ

instance afterView (f : View → Emit α) [hf : Finishes s m i (f ⟨s.tape, i⟩)] :
    Finishes s m i (Emit.view >>= f) where
  onward hrecur hindex hrun := by
    subst hindex
    exact hf.onward hrecur rfl hrun
  finishes hrecur hsteps hindex hσ := by
    subst hindex
    exact hf.finishes hrecur hsteps rfl hσ

theorem look {f : View → Emit α} (hf : Finishes s m i (f ⟨s.tape, i⟩)) :
    Finishes s m i (Emit.view >>= f) :=
  afterView f

instance afterOptions (f : Options → Emit α) [hf : Finishes s m i (f s.options)] :
    Finishes s m i (Emit.options >>= f) where
  onward hrecur hindex hrun := hf.onward hrecur hindex hrun
  finishes hrecur hsteps hindex hσ := hf.finishes hrecur hsteps hindex hσ

instance afterReplacement? (name : String) (f : Option String → Emit α)
    [hf : Finishes s m i (f (s.plan.replacement? name))] :
    Finishes s m i (Emit.replacement? name >>= f) where
  onward hrecur hindex hrun := hf.onward hrecur hindex hrun
  finishes hrecur hsteps hindex hσ := hf.finishes hrecur hsteps hindex hσ

instance (priority := 900) afterFixes (e : Emit α) (f : α → Emit β) [hfixes : Fixes State.index e]
    [he : Finishes s m i e] [hf : ∀ a, Finishes s m i (f a)] : Finishes s m i (e >>= f) where
  onward hrecur hindex hrun := by
    obtain ⟨a, υ, hfirst, hrest⟩ := bind_ok hrun
    exact (hf a).onward hrecur ((hfixes.fixes hfirst).trans hindex) hrest
  finishes hrecur hsteps hindex hσ := by
    refine (he.finishes hrecur hsteps hindex hσ).bind fun a υ hfirst hI => ?_
    exact (hf a).finishes hrecur hsteps ((hfixes.fixes hfirst).trans hindex) hI

theorem afterLook {e : Emit α} {f : α → Emit β} [Fixes State.index e] [Finishes s m i e]
    (hf : ∀ a, Finishes s m i (f a)) : Finishes s m i (e >>= f) :=
  afterFixes e f

instance orElse (e f : Emit Bool) [he : Finishes s m i e] [hdeclines : Declines e]
    [hf : Finishes s m i f] :
    Finishes s m i (e >>= fun b => if b = true then Pure.pure true else f) where
  onward hrecur hindex hrun := by
    obtain ⟨b, υ, hfirst, hrest⟩ := bind_ok hrun
    cases b with
    | true =>
      cases hrest
      exact he.onward hrecur hindex hfirst
    | false =>
      have hυ := State.index_of_place (hdeclines.place hfirst)
      exact hf.onward hrecur (hυ.trans hindex) hrest
  finishes hrecur hsteps hindex hσ := by
    refine (he.finishes hrecur hsteps hindex hσ).bind fun b υ hfirst hI => ?_
    cases b with
    | true => exact .ok hI
    | false =>
      have hυ := State.index_of_place (hdeclines.place hfirst)
      exact hf.finishes hrecur hsteps (hυ.trans hindex) hI

instance map (f : α → β) (e : Emit α) [he : Finishes s m i e] : Finishes s m i (f <$> e) where
  onward hrecur hindex hrun := by
    rw [map_eq_pure_bind] at hrun
    obtain ⟨a, υ, hfirst, hrest⟩ := bind_ok hrun
    cases hrest
    exact he.onward hrecur hindex hfirst
  finishes hrecur hsteps hindex hσ := (he.finishes hrecur hsteps hindex hσ).map

instance discard (e : Emit α) [Finishes s m i e] : Finishes s m i (Functor.discard e) := by
  unfold Functor.discard
  exact Finishes.map _ e

instance reach (task : Task) [hm : AtLeast m i] [hroom : HasRoom s i task] :
    Finishes s m i (Emit.reach task) where
  onward hrecur hindex hrun := hindex ▸ (hrecur task _ _ hrun).1
  finishes _ hsteps hindex hσ := by
    subst hindex
    exact hsteps task _ hm.le hroom.room hσ

instance flags (output names called vars paths exports default? file? mocks) :
    Finishes s m i (changeState output names called vars paths exports default? file? State.lines mocks) :=
  ofFixes

instance lineOf : Finishes s m i (Element.lineOf (View.token ⟨s.tape, i⟩).start) where
  onward _ hindex hrun := by
    cases hrun
    exact Nat.le_of_eq hindex.symm
  finishes _ _ hindex hσ := by
    subst hindex
    exact .ok (Lasting.counted hσ)

instance afterWrites (e : Emit Unit) (code : String) (f : Unit → Emit α) [hwrites : Writes s i e code]
    [he : Finishes s m i e] [hf : ∀ u, Finishes s m (i + 1) (f u)] : Finishes s m i (e >>= f) where
  onward hrecur hindex hrun := by
    obtain ⟨u, υ, hfirst, hrest⟩ := bind_ok hrun
    have hυ := (hwrites.writes hindex hfirst).1
    exact Nat.le_of_succ_le ((hf u).onward hrecur hυ hrest)
  finishes hrecur hsteps hindex hσ := by
    refine (he.finishes hrecur hsteps hindex hσ).bind fun u υ hfirst hI => ?_
    exact (hf u).finishes hrecur hsteps (hwrites.writes hindex hfirst).1 hI

theorem afterWrite {e : Emit Unit} {code : String} {f : Unit → Emit α} [Writes s i e code]
    [Finishes s m i e] (hf : ∀ u, Finishes s m (i + 1) (f u)) : Finishes s m i (e >>= f) :=
  afterWrites e code f

end Finishes

namespace Below

variable {top : State → Nat} {s : Setting} {i : Nat} {α β : Type} {Q : α → Prop}

/-! ## Parts by their shape -/

instance (priority := low) ofUnfolds (e : Emit α) {body : Emit α} [h : Unfolds e body]
    [hbody : Below top s i Q body] : Below top s i Q e := by
  rw [h.eq]
  exact hbody

theorem ofGives {e : Emit α} (h : Gives s (fun a => ¬ Q a) e) : Below top s i Q e where
  lt _ _ hrun ha := absurd ha (h _ _ _ _ hrun)

instance pureFalse : Below top s i Handled (Pure.pure false) where
  lt _ _ hrun ha := by
    cases hrun
    cases ha

instance pureDone {ι : Type} (x : ι) : Below top s i Yields (Pure.pure (ForInStep.done x)) where
  lt _ _ hrun ha := by
    cases hrun
    obtain ⟨_, h⟩ := ha
    cases h

instance fail (e : StructureError) : Below top s i Q (Emit.fail e : Emit α) where
  lt _ _ hrun _ := by cases hrun

instance afterFail (e : StructureError) (f : β → Emit α) : Below top s i Q (Emit.fail e >>= f) where
  lt _ _ hrun _ := by
    obtain ⟨_, _, hfail, _⟩ := bind_ok hrun
    cases hfail

instance (priority := 90) bindRight (e : Emit β) (f : β → Emit α) [he : Finishes s 0 i e]
    [hf : ∀ a j, Below top s j Q (f a)] : Below top s i Q (e >>= f) where
  lt hrecur hindex hrun ha := by
    obtain ⟨a, υ, hfirst, hrest⟩ := bind_ok hrun
    have hυ := he.onward hrecur hindex hfirst
    exact Nat.lt_of_le_of_lt hυ ((hf a υ.index).lt hrecur rfl hrest ha)

theorem andThen {e : Emit β} {f : β → Emit α} [Finishes s 0 i e]
    (hf : ∀ a j, Below top s j Q (f a)) : Below top s i Q (e >>= f) :=
  bindRight e f

instance (priority := low) ite (c : Prop) [Decidable c] (a b : Emit α) [Below top s i Q a]
    [Below top s i Q b] : Below top s i Q (if c then a else b) := by
  split <;> infer_instance

instance afterView (f : View → Emit α) [hf : Below top s i Q (f ⟨s.tape, i⟩)] :
    Below top s i Q (Emit.view >>= f) where
  lt hrecur hindex hrun ha := by
    subst hindex
    exact hf.lt hrecur rfl hrun ha

theorem look {f : View → Emit α} (hf : Below top s i Q (f ⟨s.tape, i⟩)) :
    Below top s i Q (Emit.view >>= f) :=
  afterView f

instance (priority := 900) afterFixes (e : Emit β) (f : β → Emit α) [hfixes : Fixes State.index e]
    [hf : ∀ a, Below top s i Q (f a)] : Below top s i Q (e >>= f) where
  lt hrecur hindex hrun ha := by
    obtain ⟨a, υ, hfirst, hrest⟩ := bind_ok hrun
    exact (hf a).lt hrecur ((hfixes.fixes hfirst).trans hindex) hrest ha

theorem afterLook {e : Emit β} {f : β → Emit α} [Fixes State.index e]
    (hf : ∀ a, Below top s i Q (f a)) : Below top s i Q (e >>= f) :=
  afterFixes e f

instance discard (e : Emit α) (Q : Unit → Prop) [he : Below top s i Always e] :
    Below top s i Q (Functor.discard e) where
  lt hrecur hindex hrun _ := by
    change ((fun _ => ()) <$> e) _ _ = _ at hrun
    rw [map_eq_pure_bind] at hrun
    obtain ⟨a, υ, hfirst, hrest⟩ := bind_ok hrun
    cases hrest
    exact he.lt hrecur hindex hfirst trivial

end Below

namespace MovesOn

variable {s : Setting} {i : Nat} {α β : Type} {Q : α → Prop}

/-! ## Parts that move the cursor on -/

theorem movesOn {e : Emit α} [h : MovesOn s i Q e] {recur : Task → Step Unit} {σ τ : State} {a : α}
    (hrecur : Progresses recur) (hindex : σ.index = i) (hrun : e ⟨s, recur⟩ σ = .ok (a, τ)) (ha : Q a) :
    i < τ.index :=
  h.lt hrecur hindex hrun ha

instance ofWrites (e : Emit Unit) (code : String) (Q : Unit → Prop) [h : Writes s i e code] :
    MovesOn s i Q e where
  lt _ hindex hrun _ := by
    have hnext := (h.writes hindex hrun).1
    omega

instance reachToken (Q : Unit → Prop) : MovesOn s i Q (Emit.reach .token) where
  lt hrecur hindex hrun _ := hindex ▸ (hrecur .token _ _ hrun).2 nofun

instance (Q : Unit → Prop) : MovesOn s i Q (Emit.reach .element) where
  lt hrecur hindex hrun _ := hindex ▸ (hrecur .element _ _ hrun).2 nofun

instance (priority := low) bindLeft (e : Emit β) (f : β → Emit α) [he : MovesOn s i Always e]
    [hf : ∀ a j, Finishes s 0 j (f a)] : MovesOn s i Q (e >>= f) where
  lt hrecur hindex hrun _ := by
    obtain ⟨a, υ, hfirst, hrest⟩ := bind_ok hrun
    have hυ := he.lt hrecur hindex hfirst trivial
    exact Nat.lt_of_lt_of_le hυ ((hf a υ.index).onward hrecur rfl hrest)

instance orElse (e f : Emit Bool) [he : MovesOn s i Handled e] [hdeclines : Declines e]
    [hf : MovesOn s i Handled f] :
    MovesOn s i Handled (e >>= fun b => if b = true then Pure.pure true else f) where
  lt hrecur hindex hrun ha := by
    obtain ⟨b, υ, hfirst, hrest⟩ := bind_ok hrun
    cases b with
    | true =>
      cases hrest
      exact he.lt hrecur hindex hfirst rfl
    | false =>
      have hυ := State.index_of_place (hdeclines.place hfirst)
      exact hf.lt hrecur (hυ.trans hindex) hrest ha

instance whileHandled {ι : Type} (e : Emit Bool) (f : Emit (ForInStep ι)) (x : ι)
    [he : MovesOn s i Handled e] [hf : ∀ j, Finishes s 0 j f] :
    MovesOn s i Yields (e >>= fun b => if b = true then f else Pure.pure (.done x)) where
  lt hrecur hindex hrun ha := by
    obtain ⟨b, υ, hfirst, hrest⟩ := bind_ok hrun
    cases b with
    | true =>
      have hυ := he.lt hrecur hindex hfirst rfl
      exact Nat.lt_of_lt_of_le hυ ((hf υ.index).onward hrecur rfl hrest)
    | false =>
      cases hrest
      obtain ⟨_, h⟩ := ha
      cases h

end MovesOn

namespace Below

variable {s : Setting} {i : Nat} {α β : Type} {Q : α → Prop}

/-! ## Parts that answer inside the tape only -/

theorem of_lt (h : i < s.tape.size) {e : Emit α} : Inside s i Q e := ⟨fun _ _ _ _ => h⟩

theorem of_isAtOneOf {kinds : List TokenKind} {e : Emit α}
    (h : View.isAtOneOf ⟨s.tape, i⟩ kinds = true) (hkinds : TokenKind.eof ∉ kinds) :
    Inside s i Q e := by
  have hmem : s.tape.kind i ∈ kinds := List.contains_iff_mem.1 h
  exact of_lt (Tape.lt_size_of_kind fun heof => hkinds (heof ▸ hmem))

theorem of_kind {kind : TokenKind} {e : Emit α} (h : s.tape.kind i = kind) (hkind : kind ≠ .eof) :
    Inside s i Q e :=
  of_lt (Tape.lt_size_of_kind (h ▸ hkind))

instance (priority := low) (e : Emit β) (f : β → Emit α) [he : Inside s i Always e] :
    Inside s i Q (e >>= f) where
  lt hrecur hindex hrun _ := by
    obtain ⟨a, υ, hfirst, _⟩ := bind_ok hrun
    exact (he.lt hrecur hindex hfirst trivial :)

instance {ι : Type} (e : Emit Bool) (f : Emit (ForInStep ι)) (x : ι)
    [he : Inside s i Handled e] :
    Inside s i Yields (e >>= fun b => if b = true then f else Pure.pure (.done x)) where
  lt hrecur hindex hrun ha := by
    obtain ⟨b, υ, hfirst, hrest⟩ := bind_ok hrun
    cases b with
    | true => exact (he.lt hrecur hindex hfirst rfl :)
    | false =>
      cases hrest
      obtain ⟨_, h⟩ := ha
      cases h

instance (a b : Emit α) [Inside s i Q a] :
    Inside s i Q (if View.isAtEnd ⟨s.tape, i⟩ = true then a else b) := by
  split
  · infer_instance
  next h => exact of_lt (Nat.lt_of_not_le fun hle => h (decide_eq_true hle))

end Below

/-! ## Loops -/

section

variable {ι : Type} {round : ι → Emit (ForInStep ι)} {env : Env}

theorem iterateFor_onward {m : Nat}
    (hround : ∀ x σ τ step, m ≤ σ.index → round x env σ = .ok (step, τ) → σ.index ≤ τ.index)
    {n : Nat} {x y : ι} {σ τ : State} (hσ : m ≤ σ.index)
    (hrun : iterateFor round n x env σ = .ok (y, τ)) : σ.index ≤ τ.index := by
  induction n generalizing x σ with
  | zero => cases hrun
  | succ n ih =>
    unfold iterateFor at hrun
    obtain ⟨step, υ, hfirst, hrest⟩ := bind_ok hrun
    have hυ := hround x σ υ step hσ hfirst
    cases step with
    | done z =>
      cases hrest
      exact hυ
    | yield z => exact Nat.le_trans hυ (ih (Nat.le_trans hσ hυ) hrest)

/-- A loop has enough rounds if a measure of what is left falls from each round to the next. -/
theorem iterateFor_agree {m : Nat} {I : State → Prop} {env' : Env} (measure : ι → Nat → Nat)
    (hround : ∀ x σ, m ≤ σ.index → I σ → Agree I (round x env σ) (round x env' σ))
    (hyield : ∀ x y σ τ, m ≤ σ.index → round x env σ = .ok (.yield y, τ) →
      m ≤ τ.index ∧ measure y τ.index < measure x σ.index)
    {n : Nat} {x : ι} {σ : State} (hσ : m ≤ σ.index) (hI : I σ) (hn : measure x σ.index < n) :
    Agree I (iterateFor round n x env σ) (iterateFor round n x env' σ) := by
  induction n generalizing x σ with
  | zero => exact absurd hn (Nat.not_lt_zero _)
  | succ n ih =>
    unfold iterateFor
    refine (hround x σ hσ hI).bind fun step υ hfirst hI => ?_
    cases step with
    | done y => exact .ok hI
    | yield y =>
      obtain ⟨hυ, hless⟩ := hyield x y σ υ hσ hfirst
      exact ih hυ hI (by omega)

end

namespace Finishes

variable {s : Setting} {m i : Nat}

theorem ofMeasure {l : Nat} {ι : Type} {round : ι → Emit (ForInStep ι)} (measure : ι → Nat → Nat)
    (hround : ∀ x k, Finishes s m (l + k) (round x))
    (hyield : ∀ recur x y σ τ, Progresses recur → round x ⟨s, recur⟩ σ = .ok (.yield y, τ) →
      measure y τ.index < measure x σ.index)
    [hl : AtLeast l i] {n : Nat} {x : ι} (hn : measure x i < n) :
    Finishes s m i (Emit.iterateFor round n x) := by
  have honward {recur : Task → Step Unit} (hrecur : Progresses recur) (y : ι) (σ τ : State)
      (step : ForInStep ι) (hσ : l ≤ σ.index) (hrun : round y ⟨s, recur⟩ σ = .ok (step, τ)) :
      σ.index ≤ τ.index := by
    obtain ⟨k, hk⟩ := Nat.exists_eq_add_of_le hσ
    exact hk ▸ (hround y k).onward hrecur hk hrun
  refine ⟨fun hrecur hindex hrun => ?_, fun {_ _ recur _ _} hrecur hsteps hindex hσ => ?_⟩
  · subst hindex
    exact iterateFor_onward (honward hrecur) hl.le hrun
  · subst hindex
    refine iterateFor_agree measure (fun y ρ hρ hI => ?_) (fun y z ρ υ hρ hfirst => ?_) hl.le hσ hn
    · obtain ⟨k, hk⟩ := Nat.exists_eq_add_of_le hρ
      exact (hround y k).finishes hrecur hsteps hk hI
    · exact ⟨Nat.le_trans hρ (honward hrecur y ρ υ _ hρ hfirst),
        hyield recur y z ρ υ hrecur hfirst⟩

theorem ofRounds {l : Nat} {ι : Type} {x : ι} {round : ι → Emit (ForInStep ι)} [AtLeast l i]
    (hround : ∀ x k, Finishes s m (l + k) (round x))
    (hmoves : ∀ x j, MovesOn s j Yields (round x))
    (hinside : ∀ x j, Inside s j Yields (round x)) : Finishes s m i (Emit.iterate x round) := by
  have hloop : Finishes s m i (Emit.iterateFor round (roundLimit s.tape) x) := by
    refine ofMeasure (fun _ j => s.tape.size - j) hround ?_ ?_
    · intro recur x y σ τ hrecur hrun
      have hmore := (hmoves x σ.index).lt hrecur rfl hrun ⟨y, rfl⟩
      have hlt : _ < s.tape.size := (hinside x σ.index).lt hrecur rfl hrun ⟨y, rfl⟩
      omega
    · unfold roundLimit
      omega
  unfold Emit.iterate
  infer_instance

instance iterate {ι : Type} (x : ι) (round : ι → Emit (ForInStep ι)) [AtLeast m i]
    [hround : ∀ x k, Finishes s m (m + k) (round x)]
    [hmoves : ∀ x j, MovesOn s j Yields (round x)] [hinside : ∀ x j, Inside s j Yields (round x)] :
    Finishes s m i (Emit.iterate x round) :=
  ofRounds hround hmoves hinside

instance (priority := low) {ι : Type} (x : ι) (round : ι → Emit (ForInStep ι))
    [hround : ∀ x j, Finishes s m j (round x)] [hmoves : ∀ x j, MovesOn s j Yields (round x)]
    [hinside : ∀ x j, Inside s j Yields (round x)] : Finishes s m i (Emit.iterate x round) :=
  ofRounds (fun x k => hround x (0 + k)) hmoves hinside

theorem ofLoopWhileFor {l n : Nat} {condition : View → Bool} {body : Emit Unit}
    (measure : Nat → Nat) (hbody : ∀ k, Finishes s m (l + k) body)
    (hmoves : ∀ j, MovesOn s j Always body)
    (hless : ∀ j k, condition ⟨s.tape, j⟩ = true → j < k → measure k < measure j)
    [AtLeast l i] (hn : measure i < n) : Finishes s m i (Emit.loopWhileFor n condition body) := by
  unfold Emit.loopWhileFor
  refine ofMeasure (l := l) (fun _ => measure) ?_ ?_ hn
  · intro u k
    infer_instance
  · intro recur u y σ τ hrecur hrun
    rw [view_bind] at hrun
    split at hrun
    next h =>
      obtain ⟨_, υ, hfirst, hrest⟩ := bind_ok hrun
      cases hrest
      exact hless _ _ h ((hmoves _).lt hrecur rfl hfirst trivial)
    next => cases hrun

theorem ofLoopTo {l stop : Nat} {body : Emit Unit} [AtLeast l i]
    (hbody : ∀ k, Finishes s m (l + k) body) (hmoves : ∀ j, MovesOn s j Always body) :
    Finishes s m i (Emit.loopTo stop body) := by
  unfold Emit.loopTo
  refine ofLoopWhileFor (stop - ·) hbody hmoves ?_ ?_
  · intro j k h hlt
    have hj : j < stop := of_decide_eq_true h
    omega
  · omega

instance loopTo (stop : Nat) (body : Emit Unit) [AtLeast m i]
    [hbody : ∀ k, Finishes s m (m + k) body] [hmoves : ∀ j, MovesOn s j Always body] :
    Finishes s m i (Emit.loopTo stop body) :=
  ofLoopTo hbody hmoves

end Finishes

/-- A condition that does not hold at the end of the tape. -/
class HoldsInside (condition : View → Bool) : Prop where
  lt_size {v : View} (h : condition v = true) : v.index < v.tape.size

instance (p : View → Bool) : HoldsInside fun v => p v && !v.isAtEnd where
  lt_size h := by
    have h := (Bool.and_eq_true_iff.1 h).2
    simpa [View.isAtEnd] using h

theorem holdsInside_kind {kind : TokenKind} (h : kind ≠ .eof) :
    HoldsInside fun v => v.kind == kind where
  lt_size {v} hv := by
    have hkind : v.tape.kind v.index = kind := beq_iff_eq.1 hv
    exact Tape.lt_size_of_kind (hkind ▸ h)

theorem holdsInside_oneOf {kinds : List TokenKind} (h : TokenKind.eof ∉ kinds) :
    HoldsInside fun v => v.isAtOneOf kinds where
  lt_size {v} hv := by
    have hmem : v.tape.kind v.index ∈ kinds := List.contains_iff_mem.1 hv
    exact Tape.lt_size_of_kind fun heof => h (heof ▸ hmem)

instance : HoldsInside fun v => v.kind == .dot := holdsInside_kind nofun

instance : HoldsInside fun v => v.kind == .atSign := holdsInside_kind nofun

section

variable {s : Setting} {m i : Nat} {condition : View → Bool} {body : Emit Unit}

theorem Finishes.ofLoopWhile {l : Nat} [AtLeast l i] [hcondition : HoldsInside condition]
    (hbody : ∀ k, Finishes s m (l + k) body) (hmoves : ∀ j, MovesOn s j Always body) :
    Finishes s m i (Emit.loopWhile condition body) := by
  have hloop : Finishes s m i (Emit.loopWhileFor (roundLimit s.tape) condition body) := by
    refine ofLoopWhileFor (s.tape.size - ·) hbody hmoves ?_ ?_
    · intro j k h hlt
      have hj : j < s.tape.size := hcondition.lt_size h
      omega
    · unfold roundLimit
      omega
  unfold Emit.loopWhile
  infer_instance

instance Finishes.loopWhile [AtLeast m i] [HoldsInside condition]
    [hbody : ∀ k, Finishes s m (m + k) body] [hmoves : ∀ j, MovesOn s j Always body] :
    Finishes s m i (Emit.loopWhile condition body) :=
  ofLoopWhile hbody hmoves

instance (priority := low) Finishes.loopWhileFree [HoldsInside condition]
    [hbody : ∀ j, Finishes s m j body] [hmoves : ∀ j, MovesOn s j Always body] :
    Finishes s m i (Emit.loopWhile condition body) :=
  ofLoopWhile (fun k => hbody (0 + k)) hmoves

end

theorem movesOn_iterateFor {s : Setting} {i n : Nat} {ι : Type} {round : ι → Emit (ForInStep ι)}
    {x : ι} (hfirst : MovesOn s i Always (round x)) (hround : ∀ x j, Finishes s 0 j (round x)) :
    MovesOn s i Always (iterateFor round (n + 1) x) := by
  refine ⟨fun {recur σ τ a} hrecur hindex hrun _ => ?_⟩
  unfold iterateFor at hrun
  obtain ⟨step, υ, hstep, hrest⟩ := bind_ok hrun
  have hυ := hfirst.lt hrecur hindex hstep trivial
  cases step with
  | done y =>
    cases hrest
    exact hυ
  | yield y =>
    refine Nat.lt_of_lt_of_le hυ (iterateFor_onward ?_ (Nat.zero_le _) hrest)
    exact fun z ρ ρ' _ _ hnext => (hround z ρ.index).onward hrecur rfl hnext

theorem movesOn_loopTo {s : Setting} {i stop : Nat} {body : Emit Unit} (h : i < stop)
    [∀ j, Finishes s 0 j body] [∀ j, MovesOn s j Always body] :
    MovesOn s i Always (loopTo stop body) := by
  unfold loopTo loopWhileFor
  refine movesOn_iterateFor ?_ fun _ _ => inferInstance
  refine .look ?_
  rw [if_pos (decide_eq_true h)]
  infer_instance

/-! ## The operations of the cursor -/

section

variable {s : Setting} {m i : Nat}

instance : Finishes s m i options := .ofFixes

instance (piece : Piece) : Finishes s m i (push piece) := .ofFixes

instance (code : String) : Settled (add code) := by
  unfold add
  infer_instance

instance (code : String) : Finishes s m i (add code) := .ofFixes

instance (base : String) : Settled (claimName base) := ⟨fun _ _ _ _ => .ok rfl⟩

instance (base : String) : Finishes s m i (claimName base) := .ofFixes

instance (f : SupportFunction) : Settled (callSupport f) := by
  unfold callSupport
  infer_instance

instance (f : SupportFunction) : Finishes s m i (callSupport f) := .ofFixes

instance : Finishes s m i gap := .ofFixes

instance (code : String) : Settled (replace code) := by
  unfold replace
  infer_instance

instance : Settled removeFirst := by
  unfold removeFirst
  infer_instance

instance : Settled remove := by
  unfold remove
  infer_instance

instance settled_copy : Settled copy := by
  unfold copy
  infer_instance

instance (n : Nat) : Finishes s m i (removeMany n) := by
  induction n generalizing i with
  | zero => exact Finishes.pure ()
  | succ n ih =>
    unfold removeMany
    infer_instance

instance (n : Nat) (Q : Unit → Prop) : MovesOn s i Q (removeMany (n + 1)) := by
  unfold removeMany
  infer_instance

instance (stop : Nat) : Finishes s m i (removeTo stop) :=
  .ofLoopTo (l := 0) (fun _ => inferInstance) fun _ => inferInstance

instance (stop : Nat) : Finishes s m i (copyTo stop) :=
  .ofLoopTo (l := 0) (fun _ => inferInstance) fun _ => inferInstance

end

end PlainScript.Emit
