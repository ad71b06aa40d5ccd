import PlainScript.Proofs.PassesMoveOn
import PlainScript.Proofs.Prepared
import PlainScript.Proofs.Scopes

/-!
# Every walk over a file comes to its end

A pass that handles a token moves the cursor on, so a task that is done inside another one starts at
a later token, or at the same one and comes before it in a fixed order. The depth of the nesting is
therefore bounded by the number of tokens, and so is the number of rounds of each loop: the bounds in
the definitions are never reached.
-/

namespace PlainScript.Emit

-- Counted in combinators.
set_option synthInstance.maxSize 100000000000

/-! ## Past the last token -/

section

variable {s : Setting} {i : Nat} {recur : Task → Step Unit} {σ : State}

theorem token_atEnd (h : s.tape.size ≤ i) : View.token ⟨s.tape, i⟩ = s.tape.endToken :=
  Tape.get_of_size_le h

theorem kind_atEnd (h : s.tape.size ≤ i) : View.kind ⟨s.tape, i⟩ = .eof := by
  rw [View.kind, token_atEnd h]
  rfl

theorem isAt_atEnd (h : s.tape.size ≤ i) {k : TokenKind} {rest : List TokenKind} (hk : k ≠ .eof) :
    View.isAt ⟨s.tape, i⟩ (k :: rest) = false := by
  have hkind : s.tape.kind i = .eof := kind_atEnd h
  exact isAt_eq_false (hkind ▸ hk.symm)

theorem isAtOneOf_atEnd (h : s.tape.size ≤ i) {kinds : List TokenKind} (hk : .eof ∉ kinds) :
    View.isAtOneOf ⟨s.tape, i⟩ kinds = false := by
  have hkind : s.tape.kind i = .eof := kind_atEnd h
  simpa [View.isAtOneOf, Tape.hasOneOf, hkind] using hk

theorem hasAsync_atEnd (h : s.tape.size ≤ i) : s.tape.hasAsync i = false := by
  simp [Tape.hasAsync, Tape.hasSoft, Token.isSoft, Tape.kind, Tape.get_of_size_le h, Tape.endToken]

theorem bind_of_ok {α β : Type} {e : Emit α} {f : α → Emit β} {env : Env} {τ : State} {a : α}
    (h : e env σ = .ok (a, τ)) : (e >>= f) env σ = f a env τ := by
  change (do let (a, υ) ← e env σ; f a env υ) = _
  rw [h]
  rfl

theorem typePass_atEnd (h : s.tape.size ≤ σ.index) :
    typePass ⟨s, recur⟩ σ = .ok (false, σ) := by
  have harrow : eraseArrowReturnType ⟨s, recur⟩ σ = .ok (false, σ) := by
    simp [eraseArrowReturnType, view_bind, isAt_atEnd h]
    rfl
  have hasync : eraseAsyncArrowParameters ⟨s, recur⟩ σ = .ok (false, σ) := by
    simp [eraseAsyncArrowParameters, view_bind, hasAsync_atEnd h]
    rfl
  have htypes : eraseTypes ⟨s, recur⟩ σ = .ok (false, σ) := by
    simp [eraseTypes, view_bind, token_atEnd h, Tape.endToken]
    rfl
  unfold typePass
  simp only [bind_of_ok harrow, bind_of_ok hasync, htypes, Bool.false_eq_true, if_false]

/-- Past the last token every pass declines at once. -/
theorem run_atEnd (h : s.tape.size ≤ σ.index) (pass : Pass) :
    pass.run ⟨s, recur⟩ σ = .ok (false, σ) := by
  cases pass
  case types => exact typePass_atEnd h
  all_goals
    simp [Pass.run, optionalChainPass, numericSeparatorPass, catchBindingPass, elementPass,
      displayNamePass, commonJsPass, esModulePass, modifierPass, enumerationPass, mockPass, view_bind,
      kind_atEnd h, token_atEnd h, isAt_atEnd h, isAtOneOf_atEnd h, Tape.endToken]
    rfl

end

/-! ## Choosing and repeating -/

section

variable {s : Setting} {m i : Nat} {I : State → Prop} {recur recur' : Task → Step Unit} {σ : State}

/-- Each pass is asked where the cursor was at first. -/
theorem firstPass_agree {passes : List Pass} {env env' : Env} {σ : State}
    (h : ∀ (pass : Pass) (ρ : State), ρ.index = σ.index → I ρ →
      Agree I (pass.run env ρ) (pass.run env' ρ)) (hσ : I σ) :
    Agree I (firstPass passes env σ) (firstPass passes env' σ) := by
  induction passes generalizing σ with
  | nil => exact .ok hσ
  | cons pass rest ih =>
    unfold firstPass
    refine (h pass σ rfl hσ).bind fun b υ hpass hI => ?_
    cases b with
    | true => exact .ok hI
    | false =>
      have hυ := State.index_of_place ((declines_run pass).place hpass)
      exact ih (fun other ρ hρ => h other ρ (hρ.trans hυ)) hI

/-- The choice among the passes runs out of steps only if a pass does. -/
theorem token_agree [Lasting s I] (hσ : I σ)
    (hclass : View.kind ⟨s.tape, σ.index⟩ = .classWord →
      Agree I (classDefinition ⟨s, recur⟩ σ) (classDefinition ⟨s, recur'⟩ σ))
    (hpass : ∀ (pass : Pass) (ρ : State), ρ.index = σ.index → I ρ →
      Agree I (pass.run ⟨s, recur⟩ ρ) (pass.run ⟨s, recur'⟩ ρ)) :
    Agree I (token ⟨s, recur⟩ σ) (token ⟨s, recur'⟩ σ) := by
  unfold token
  rw [view_bind, view_bind]
  split
  next h => exact hclass (beq_iff_eq.1 h)
  next =>
    refine Agree.bind (I := I) (.ok hσ) fun o ρ hoptions hρ => ?_
    have hindex : ρ.index = σ.index := Fixes.fixes hoptions
    refine (firstPass_agree (fun pass υ hυ => hpass pass υ (hυ.trans hindex)) hρ).bind ?_
    intro b υ _ hυ
    cases b with
    | true => exact .ok hυ
    | false =>
      refine Settled.agree hυ fun {a τ} hrun => ?_
      have hcopy : Writes s υ.index copy _ := inferInstance
      have hnext := (hcopy.writes rfl hrun).1
      omega

/-- Past the last token no task is asked for. -/
theorem token_agree_atEnd [Lasting s I] (hσ : I σ) (h : s.tape.size ≤ σ.index) :
    Agree I (token ⟨s, recur⟩ σ) (token ⟨s, recur'⟩ σ) := by
  refine token_agree hσ (fun hkind => ?_) fun pass ρ hρ hI => ?_
  · rw [kind_atEnd h] at hkind
    cases hkind
  · rw [run_atEnd (hρ ▸ h), run_atEnd (hρ ▸ h)]
    exact .ok hI

instance (d : Depth) [AtLeast m i] : Finishes s m i (balancedRound d) := by
  unfold balancedRound
  refine .look ?_
  split
  · infer_instance
  · split <;> infer_instance

instance movesOn_balancedRound (d : Depth) : MovesOn s i Yields (balancedRound d) := by
  unfold balancedRound
  refine .look ?_
  split
  · infer_instance
  · split <;> infer_instance

instance inside_balancedRound (d : Depth) : Inside s i Yields (balancedRound d) := by
  unfold balancedRound
  infer_instance

instance finishes_balanced [AtLeast m i] : Finishes s m i balanced := by
  unfold balanced
  infer_instance

theorem balanced_agree (hσ : I σ) (hrecur : Progresses recur)
    (htoken : ∀ ρ : State, σ.index ≤ ρ.index → I ρ → Agree I (recur .token ρ) (recur' .token ρ)) :
    Agree I (balanced ⟨s, recur⟩ σ) (balanced ⟨s, recur'⟩ σ) := by
  have hround (d : Depth) (ρ : State) (hρ : σ.index ≤ ρ.index) (hI : I ρ) :
      Agree I (balancedRound d ⟨s, recur⟩ ρ) (balancedRound d ⟨s, recur'⟩ ρ) := by
    unfold balancedRound
    rw [view_bind, view_bind]
    split
    · exact .ok hI
    · cases d.after? (View.kind ⟨s.tape, ρ.index⟩) with
      | none => exact .ok hI
      | some d =>
        have hreach : Agree I (reach .token ⟨s, recur⟩ ρ) (reach .token ⟨s, recur'⟩ ρ) := htoken ρ hρ hI
        exact hreach.bind fun _ _ _ hI => .ok hI
  have hloop : Agree I (iterate {} balancedRound ⟨s, recur⟩ σ)
      (iterate {} balancedRound ⟨s, recur'⟩ σ) := by
    refine iterateFor_agree (fun _ j => s.tape.size - j) hround ?_ (Nat.le_refl _) hσ ?_
    · intro d d' ρ υ hρ hrun
      have hmore := (movesOn_balancedRound d).movesOn hrecur rfl hrun ⟨d', rfl⟩
      have hlt : _ < s.tape.size := (inside_balancedRound d).lt hrecur rfl hrun ⟨d', rfl⟩
      omega
    · unfold roundLimit
      dsimp only
      omega
  exact hloop.map

end

/-! ## Tasks -/

section

variable {s : Setting} {m i : Nat} [EndsLater s]

instance (pass : Pass) [AtLeast m i] : Finishes s m i pass.run := by
  cases pass <;> unfold Pass.run <;> infer_instance

/-- All passes but one write a token before they ask for a task. -/
theorem finishes_run_early {pass : Pass} (h : pass ≠ .element) [AtLeast m (i + 1)] :
    Finishes s m i pass.run := by
  cases pass <;> unfold Pass.run
  case element => exact absurd rfl h
  all_goals infer_instance

instance movesOn_run (pass : Pass) : MovesOn s i Handled pass.run := by
  cases pass <;> unfold Pass.run <;> infer_instance

instance movesOn_firstPass (passes : List Pass) : MovesOn s i Handled (firstPass passes) := by
  induction passes with
  | nil => exact Below.pureFalse
  | cons pass rest ih =>
    unfold firstPass
    infer_instance

instance movesOn_token : MovesOn s i Always token := by
  have hchoice (o : Options) : MovesOn s i Always (do
      unless ← firstPass (Pass.enabled o) do
        copy) := by
    refine ⟨fun {recur σ τ a} hrecur hindex hrun _ => ?_⟩
    obtain ⟨b, υ, hfirst, hrest⟩ := bind_ok hrun
    cases b with
    | true =>
      cases hrest
      exact (movesOn_firstPass _).movesOn hrecur hindex hfirst rfl
    | false =>
      have hυ := State.index_of_place (firstPass_declined hfirst).1
      have hcopy : MovesOn s i Always copy := inferInstance
      exact hcopy.movesOn hrecur (hυ.trans hindex) hrest trivial
  unfold token
  infer_instance

/-- Tasks move the cursor on, to any depth. -/
theorem progresses_performFor (n : Nat) : Progresses (performFor s n) := by
  induction n with
  | zero =>
    intro task σ τ hrun
    cases hrun
  | succ n ih =>
    intro task σ τ hrun
    cases task with
    | token =>
      have hlt := (movesOn_token (s := s)).movesOn ih rfl hrun trivial
      exact ⟨Nat.le_of_lt hlt, fun _ => hlt⟩
    | element =>
      have helement : MovesOn s σ.index Always Element.element := inferInstance
      have hlt := helement.movesOn ih rfl hrun trivial
      exact ⟨Nat.le_of_lt hlt, fun _ => hlt⟩
    | balanced =>
      exact ⟨(finishes_balanced (m := 0)).onward ih rfl hrun, fun h => absurd rfl h⟩

theorem token_agree_inside {I : State → Prop} [Lasting s I] {recur recur' : Task → Step Unit}
    {σ : State} (hσ : I σ) (hrecur : Progresses recur)
    (hsteps : Affords s (σ.index + 1) I recur recur')
    (helement : ∀ ρ : State, ρ.index = σ.index → I ρ →
      Agree I (recur .element ρ) (recur' .element ρ)) :
    Agree I (token ⟨s, recur⟩ σ) (token ⟨s, recur'⟩ σ) := by
  have hclass : Finishes s (σ.index + 1) σ.index classDefinition := inferInstance
  refine token_agree hσ (fun _ => hclass.finishes hrecur hsteps rfl hσ) fun pass ρ hρ hI => ?_
  by_cases h : pass = .element
  · subst h
    change Agree I (elementPass _ _) (elementPass _ _)
    unfold elementPass
    rw [view_bind, view_bind]
    split
    · have hreach : Agree I (reach .element ⟨s, recur⟩ ρ) (reach .element ⟨s, recur'⟩ ρ) :=
        helement ρ hρ hI
      exact hreach.bind fun _ _ _ hI => .ok hI
    · exact .ok hI
  · exact (finishes_run_early h).finishes hrecur hsteps hρ hI

/-- The place of a task among those that start at one token: it may ask for the ones before it. -/
def Task.rank : Task → Nat
  | .element => 1
  | .token => 2
  | .balanced => 3

/-- A number of nested steps that is enough for a task at an index. -/
def stepsNeeded (t : Tape) (task : Task) (i : Nat) : Nat := 3 * (t.size - i) + task.rank

/-- Tasks done by given rules, to a depth. -/
def performByFor (rule : Task → Emit Unit) (s : Setting) : Nat → Task → Step Unit
  | 0, _ => throw .budget
  | n + 1, task => rule task { s with recur := performByFor rule s n }

section

variable {I : State → Prop} [Lasting s I] {rule : Task → Emit Unit}

/-- With enough steps, rules that are those of the writer where a property holds give what these
give. -/
theorem performFor_agree
    (hrule : ∀ task recur σ, I σ → rule task ⟨s, recur⟩ σ = perform task ⟨s, recur⟩ σ) {n : Nat}
    {task : Task} {σ : State} (hσ : I σ) (hn : stepsNeeded s.tape task σ.index ≤ n)
    (hroom : task = .element → σ.index < s.tape.size) :
    Agree I (performFor s n task σ) (performByFor rule s n task σ) := by
  induction n generalizing task σ with
  | zero => cases task <;> simp [stepsNeeded, Task.rank] at hn
  | succ n ih =>
    have hrecur := progresses_performFor (s := s) n
    -- A token has been written before any other task is asked for.
    have hsteps (hlt : σ.index < s.tape.size) (h : 3 * (s.tape.size - σ.index) ≤ n) :
        Affords s (σ.index + 1) I (performFor s n) (performByFor rule s n) := by
      intro other ρ hρ hother hI
      refine ih hI ?_ hother
      have hrank : other.rank ≤ 3 := by cases other <;> decide
      unfold stepsNeeded
      omega
    unfold stepsNeeded at hn
    rw [performByFor, hrule _ _ _ hσ]
    cases task with
    | element =>
      have hlt := hroom rfl
      have helement : Finishes s (σ.index + 1) σ.index Element.element := inferInstance
      exact helement.finishes hrecur (hsteps hlt (by simpa [Task.rank] using hn)) rfl hσ
    | token =>
      by_cases hlt : σ.index < s.tape.size
      · have hn : 3 * (s.tape.size - σ.index) + 1 ≤ n := by simpa [Task.rank] using hn
        refine token_agree_inside hσ hrecur (hsteps hlt (by omega)) fun ρ hρ hI => ?_
        refine ih hI ?_ fun _ => hρ ▸ hlt
        rw [hρ]
        exact hn
      · exact token_agree_atEnd hσ (Nat.le_of_not_lt hlt)
    | balanced =>
      have hn : 3 * (s.tape.size - σ.index) + 2 ≤ n := by simpa [Task.rank] using hn
      refine balanced_agree hσ hrecur fun ρ hρ hI => ih hI ?_ fun h => by cases h
      change 3 * (s.tape.size - ρ.index) + 2 ≤ n
      omega

/-- The walk over a file has enough steps. -/
theorem file_agree (hrule : ∀ task recur σ, I σ → rule task ⟨s, recur⟩ σ = perform task ⟨s, recur⟩ σ)
    {σ : State} (hσ : I σ) :
    Agree I (file ⟨s, performFor s (depthLimit s.tape)⟩ σ)
      (file ⟨s, performByFor rule s (depthLimit s.tape)⟩ σ) := by
  have hwalk : Agree I (balanced ⟨s, performFor s (depthLimit s.tape)⟩ σ)
      (balanced ⟨s, performByFor rule s (depthLimit s.tape)⟩ σ) := by
    refine balanced_agree hσ (progresses_performFor _) fun ρ _ hI =>
      performFor_agree hrule hI ?_ fun h => by cases h
    change 3 * (s.tape.size - ρ.index) + 2 ≤ 4 * (s.tape.size + 4)
    omega
  unfold file
  refine hwalk.bind fun _ υ _ hI => Settled.agree hI fun {_ ρ} hrun => Nat.le_of_eq ?_
  have hindex : ρ.index = υ.index := Fixes.fixes hrun
  exact hindex.symm

end

theorem writeFile_ne_budget {p : Prepared} [EndsLater p.setting] :
    writeFile p ≠ .error .budget := by
  have hrule (task : Task) (recur : Task → Step Unit) (σ : State) (_ : True) :
      perform task ⟨p.setting, recur⟩ σ = perform task ⟨p.setting, recur⟩ σ := rfl
  have hfile := (file_agree hrule (σ := p.state) trivial).ne_budget
  have hreads : Reads (file ⟨p.setting, performFor p.setting (depthLimit p.setting.tape)⟩ p.state)
      fun _ => True := ⟨hfile, fun _ _ => trivial⟩
  exact (hreads.bind (Q := fun _ => True) fun _ _ => .ok trivial).1

end

/-! ## Files -/

theorem IsPrepared.endsLater {text : String} {o : Options} {p : Prepared} {f : AnnotatedFile}
    (h : IsPrepared text o p f) : EndsLater p.setting where
  lt_rhsEnd {i stop} hget := by
    cases htoken : p.setting.tape.tokens[i]? with
    | none =>
      rw [Tape.get, Array.getD_eq_getD_getElem?, htoken] at hget
      cases hget
    | some t =>
      obtain ⟨t', ht', hsame⟩ := h.exists_token htoken
      obtain ⟨σ, τ, htokens, hscopes, hreach, hnone, hpos, rfl⟩ :=
        Grammar.exists_reaches_of_ofSource h.parsed
      have hfollow : τ.RhsEndsFollow := hreach.rhsEndsFollow (by simp [Grammar.State.RhsEndsFollow, htokens])
      have hend : t'.rhsEnd? = some stop := by
        have hrhsEnd := congrArg Token.rhsEnd? hsame
        rw [Tape.get, Array.getD_eq_getD_getElem?, htoken] at hget
        exact hrhsEnd.trans hget
      exact hfollow i t' stop ht' hend

theorem codeOf_ne_budget (text : String) (o : Options) : Output.codeOf text o ≠ .error .budget := by
  intro h
  unfold Output.codeOf at h
  cases hvalid : o.validate with
  | error e =>
    simp only [hvalid] at h
    cases h
  | ok u =>
    simp only [hvalid] at h
    cases hprepare : prepare text o with
    | error e =>
      rw [hprepare] at h
      cases h
      exact prepare_ne_budget text o hprepare
    | ok p =>
      rw [hprepare] at h
      obtain ⟨f, hf⟩ := exists_isPrepared hprepare
      have := hf.endsLater
      change liftFailure (writeFile p) = .error .budget at h
      cases hwrite : writeFile p with
      | ok code =>
        rw [hwrite] at h
        cases h
      | error e =>
        rw [hwrite] at h
        cases e with
        | structureError e => cases h
        | budget => exact writeFile_ne_budget hwrite

/-- No bound on the number of steps is ever reached: a pass that declines a token leaves the cursor,
the output and the taken names as they are, a pass that handles it has moved the cursor on, and so
has the choice among the passes. The tokens are no part of the state. -/
theorem walk_progresses (text : String) (o : Options) :
    Output.codeOf text o ≠ .error .budget ∧ ∀ p, prepare text o = .ok p →
      (∀ (n : Nat) (pass : Pass) (σ τ : State) (handled : Bool),
        pass.run ⟨p.setting, performFor p.setting n⟩ σ = .ok (handled, τ) →
          if handled then σ.index < τ.index else τ.place = σ.place) ∧
      (∀ (n : Nat) (σ τ : State), token ⟨p.setting, performFor p.setting n⟩ σ = .ok ((), τ) →
        σ.index < τ.index) ∧
      writeFile p ≠ .error .budget := by
  refine ⟨codeOf_ne_budget text o, fun p hprepare => ?_⟩
  obtain ⟨f, hf⟩ := exists_isPrepared hprepare
  have := hf.endsLater
  refine ⟨fun n pass σ τ handled hrun => ?_, fun n σ τ hrun => ?_, writeFile_ne_budget⟩
  · cases handled with
    | true => exact (movesOn_run pass).movesOn (progresses_performFor n) rfl hrun rfl
    | false => exact (declines_run pass).place hrun
  · exact movesOn_token.movesOn (progresses_performFor n) rfl hrun trivial

/-- A number with a separator is handled by a pass. -/
theorem walk_progresses_separator :
    ∃ p τ, prepare "1_0" {} = .ok p ∧
      Pass.numericSeparator.run ⟨p.setting, performFor p.setting 0⟩ p.state = .ok (true, τ) ∧
      p.state.index < τ.index ∧ writeFile p ≠ .error .budget := by
  have hrun : ((prepare "1_0" {}).toOption.bind fun p =>
      (Pass.numericSeparator.run ⟨p.setting, performFor p.setting 0⟩ p.state).toOption).map Prod.fst =
        some true := by
    decide +kernel
  cases hprepare : prepare "1_0" {} with
  | error e =>
    rw [hprepare] at hrun
    cases hrun
  | ok p =>
    rw [hprepare] at hrun
    obtain ⟨⟨handled, τ⟩, hpass, rfl⟩ := Option.map_eq_some_iff.1 hrun
    have hpass := eq_ok_of_toOption hpass
    obtain ⟨hpasses, -, hfile⟩ := (walk_progresses "1_0" {}).2 p hprepare
    exact ⟨p, τ, rfl, hpass, hpasses 0 _ _ τ true hpass, hfile⟩

end PlainScript.Emit
