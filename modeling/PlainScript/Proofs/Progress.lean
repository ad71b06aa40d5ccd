import PlainScript.Proofs.Tiling
import PlainScript.Proofs.Lexemes

/-!
# Progress through the text

A parse is in one of two phases. As long as there is no error it is `Live`: its lexemes tile the
text, and the current one is not empty unless it is the end of the text. After an error it is
`Stopped`: the current lexeme counts as the end of the text, and nothing is read any more. `left` is
what a live parse has before it, the bytes from the current lexeme on and the ends of the text that
can still be consumed.

The module shows what each action of the parser does to these: it stays in a phase or goes from the
first to the second, it consumes a part of what is left or, if it only looks again at the current
lexeme, leaves it as it is, and it halts in no other way than by tearing a character, which needs an
escape before a character outside ASCII.
-/

namespace PlainScript.Grammar

open Parse

variable {s : Source} {d : Dialect} {recur : Goal → Step Bool} {env : Env} {σ τ υ : State}

/-! ## Phases -/

/-- The current lexeme is not empty, or it is the end of the text. Pieces of templates are left out,
because they are consumed as soon as they are read. -/
def State.AtFull (s : Source) (σ : State) : Prop :=
  (σ.current.start < σ.current.stop ∧ σ.current.kind ≠ .template) ∨
    σ.current = { start := s.size, stop := s.size }

/-- The parser stands at a lexeme of the text, or at its end, and there is no error. -/
structure Live (s : Source) (σ : State) : Prop where
  clear : σ.error? = none
  tiled : Tiled s σ
  full : σ.AtFull s

/-- There is an error, and the text counts as ended. -/
structure Stopped (s : Source) (σ : State) : Prop where
  failed : σ.error? ≠ none
  kind : σ.current.kind = .eof
  keyword : σ.current.keyword = .ordinary
  stop : σ.current.stop = s.size

/-- One of the two phases. -/
def Sane (s : Source) (σ : State) : Prop := Live s σ ∨ Stopped s σ

theorem Live.not_stopped (h : Live s σ) : ¬ Stopped s σ := fun hstopped => hstopped.failed h.clear

theorem Sane.live (h : Sane s σ) (hclear : σ.error? = none) : Live s σ :=
  h.resolve_right fun hstopped => hstopped.failed hclear

/-- What is left of the text: the bytes from the current lexeme on, and the end, which can be
consumed once more if the last token was not the end already. -/
def left (s : Source) (σ : State) : Nat :=
  (s.size - σ.current.start) + if endedAt s σ 1 then 1 else 2

theorem left_pos (s : Source) (σ : State) : 0 < left s σ := by
  unfold left
  split <;> omega

theorem left_le (s : Source) (σ : State) : left s σ ≤ s.size + 2 := by
  unfold left
  split <;> omega

/-! ## Ends of runs -/

/-- The only excuse for a halt: a character is torn behind a backslash. -/
def Excused (s : Source) (e : Halt) : Prop := ¬ s.PlainEscapes ∧ ∃ a b, e = .torn a b

/-- A run succeeds with an answer and a state of a certain kind, or it has an excuse. -/
def Ends {α : Type} (s : Source) (post : α → State → Prop) : Except Halt (α × State) → Prop
  | .ok (a, τ) => post a τ
  | .error e => Excused s e

theorem Ends.mono {α : Type} {post post' : α → State → Prop} {result : Except Halt (α × State)}
    (h : Ends s post result) (hpost : ∀ a τ, post a τ → post' a τ) : Ends s post' result := by
  cases result with
  | error e => exact h
  | ok result => exact hpost _ _ h

/-- A rule that succeeds hands on its answer and its state. -/
theorem Parse.bind_eq {α β : Type} {rule : Parse α} {f : α → Parse β} {a : α}
    (h : rule env σ = .ok (a, υ)) : (rule >>= f) env σ = f a env υ := by
  change (do let (a, υ) ← rule env σ; f a env υ) = _
  rw [h]
  rfl

theorem Ends.bind {α β : Type} {rule : Parse α} {f : α → Parse β} {mid : α → State → Prop}
    {post : β → State → Prop} (h : Ends s mid (rule env σ))
    (hf : ∀ a τ, mid a τ → Ends s post (f a env τ)) : Ends s post ((rule >>= f) env σ) := by
  change Ends s post (do let (a, υ) ← rule env σ; f a env υ)
  cases hrule : rule env σ with
  | error e =>
    rw [hrule] at h
    exact h
  | ok result =>
    rw [hrule] at h
    exact hf _ _ h

theorem Ends.withRun {α : Type} {post : α → State → Prop} {result : Except Halt (α × State)}
    (h : Ends s post result) : Ends s (fun a τ => result = .ok (a, τ) ∧ post a τ) result := by
  cases result with
  | error e => exact h
  | ok result => exact ⟨rfl, h⟩

theorem Ends.of_ok {α : Type} {post : α → State → Prop} {result : Except Halt (α × State)}
    (h : Ends s post result) {a : α} (hresult : result = .ok (a, τ)) : post a τ := by
  rw [hresult] at h
  exact h

/-! ## What an action costs -/

/-- What an action does that consumes the current lexeme: less is left after it, unless it has
stopped the parser. -/
structure Moves (s : Source) (σ τ : State) : Prop where
  sane : Sane s τ
  stays : Stopped s σ → Stopped s τ
  left : Live s σ → Live s τ → left s τ < left s σ
  spans : σ.spans <+: τ.spans
  depth : τ.scopeDepth = σ.scopeDepth

/-- What an action does that looks again at the current lexeme. -/
structure Rests (s : Source) (σ τ : State) : Prop where
  sane : Sane s τ
  stays : Stopped s σ → Stopped s τ
  left : Live s τ → Grammar.left s τ = Grammar.left s σ
  spans : τ.spans = σ.spans
  depth : τ.scopeDepth = σ.scopeDepth

/-! ## Errors -/

namespace State

/-- The state after an error has been recorded. -/
def failed (σ : State) (size : Nat) (e : SyntaxError) : State :=
  match σ.error? with
  | some _ => σ
  | none => { σ with error? := some e, current := { start := σ.current.start, stop := size } }

theorem failed_tokens (σ : State) (size : Nat) (e : SyntaxError) :
    (σ.failed size e).tokens = σ.tokens := by
  unfold failed
  split <;> rfl

theorem failed_scopeDepth (σ : State) (size : Nat) (e : SyntaxError) :
    (σ.failed size e).scopeDepth = σ.scopeDepth := by
  unfold failed
  split <;> rfl

end State

theorem Parse.fail_eq (cause : SyntaxError.Cause) (pos : Nat) :
    fail cause pos env σ = .ok ((), σ.failed env.source.size ⟨cause, pos⟩) := rfl

/-- An error stops the parser, and one that has stopped stays so. -/
theorem stopped_failed {e : SyntaxError} (h : σ.error? = none ∨ Stopped s σ) :
    Stopped s (σ.failed s.size e) := by
  rcases h with hclear | hstopped
  · simp only [State.failed, hclear]
    exact ⟨by simp, rfl, rfl, rfl⟩
  · cases herror : σ.error? with
    | none => exact absurd herror hstopped.failed
    | some e =>
      simp only [State.failed, herror]
      exact hstopped

theorem Sane.clear_or_stopped (h : Sane s σ) : σ.error? = none ∨ Stopped s σ :=
  h.imp_left Live.clear

theorem rests_failed (h : Sane s σ) (e : SyntaxError) : Rests s σ (σ.failed s.size e) := by
  have hstopped := stopped_failed (e := e) h.clear_or_stopped
  exact ⟨.inr hstopped, fun _ => hstopped, fun hlive => absurd hstopped hlive.not_stopped,
    State.spans_eq_of_tokens (σ.failed_tokens _ _), σ.failed_scopeDepth _ _⟩

/-! ## Settling on a lexeme -/

namespace Parse

theorem settle_scopeDepth {start : Nat} {reading : Reading}
    (h : settle start reading env σ = .ok ((), τ)) : τ.scopeDepth = σ.scopeDepth := by
  cases reading with
  | lexeme kind keyword stop =>
    cases h
    rfl
  | fault cause pos =>
    cases h
    exact State.failed_scopeDepth _ _ _
  | torn a b => cases h

/-- Settling on what has been read stops the parser if that is a fault. -/
theorem settle_stopped {start : Nat} {reading : Reading}
    (h : settle start reading ⟨s, d, recur⟩ σ = .ok ((), τ)) (hσ : σ.error? = none)
    (hτ : τ.error? ≠ none) : Stopped s τ := by
  cases reading with
  | lexeme kind keyword stop =>
    cases h
    exact absurd hσ hτ
  | fault cause pos =>
    cases h
    exact stopped_failed (.inl hσ)
  | torn a b => cases h

/-- After an error the parser only ever settles on faults. -/
theorem settle_fault {start : Nat} {cause : SyntaxError.Cause} {pos : Nat} (hσ : Stopped s σ)
    (h : settle start (.fault cause pos) ⟨s, d, recur⟩ σ = .ok ((), τ)) : Stopped s τ := by
  cases h
  exact stopped_failed (.inr ⟨hσ.failed, hσ.kind, hσ.keyword, hσ.stop⟩)

theorem settle_error {start : Nat} {reading : Reading} {e : Halt}
    (h : settle start reading env σ = .error e) : ∃ a b, reading = .torn a b ∧ e = .torn a b := by
  cases reading with
  | lexeme kind keyword stop => cases h
  | fault cause pos => cases h
  | torn a b =>
    cases h
    exact ⟨a, b, rfl, rfl⟩

/-- What is read whole is settled on without a halt. -/
theorem settle_excused {start : Nat} {reading : Reading} {e : Halt}
    (h : settle start reading env σ = .error e) (hwhole : s.PlainEscapes → reading.Whole) :
    Excused s e := by
  obtain ⟨a, b, rfl, rfl⟩ := settle_error h
  exact ⟨fun hplain => hwhole hplain, a, b, rfl⟩

theorem settleEnd_eq : settleEnd env σ =
    (if decide (2 ≤ σ.tokens.size) && endedAt env.source σ 1 && endedAt env.source σ 2 then
      fail .unexpectedEnd env.source.size else pure () : Parse Unit) env
        { σ with current := { start := env.source.size, stop := env.source.size } } := rfl

theorem settleEnd_ends (hσ : σ.error? = none ∨ Stopped s σ) :
    Ends s (fun _ τ => τ.scopeDepth = σ.scopeDepth ∧ (τ.error? ≠ none → Stopped s τ))
      (settleEnd ⟨s, d, recur⟩ σ) := by
  have hend : { σ with current := { start := s.size, stop := s.size } }.error? = none ∨
      Stopped s { σ with current := { start := s.size, stop := s.size } } :=
    hσ.imp id fun hstopped => ⟨hstopped.failed, rfl, rfl, rfl⟩
  rw [settleEnd_eq]
  split
  case isTrue => exact ⟨State.failed_scopeDepth _ _ _, fun _ => stopped_failed hend⟩
  case isFalse => exact ⟨rfl, fun hfailed => hend.resolve_left hfailed⟩

/-- Reading on as ordinary code. The current lexeme may end inside a character if there is an excuse
for that. -/
theorem readCode_ends (hσ : σ.error? = none ∨ Stopped s σ)
    (hstop : s.PlainEscapes → s.isBoundary σ.current.stop = true) :
    Ends s (fun _ τ => τ.scopeDepth = σ.scopeDepth ∧ (τ.error? ≠ none → Stopped s τ))
      (readCode ⟨s, d, recur⟩ σ) := by
  rw [readCode_eq]
  dsimp only
  cases hgap : s.gap σ.current.stop with
  | openComment start =>
    refine (settleEnd_ends (.inr (stopped_failed hσ))).mono fun _ τ hτ => ⟨?_, hτ.2⟩
    exact hτ.1.trans (State.failed_scopeDepth _ _ _)
  | upTo pos =>
    dsimp only
    split
    case isTrue => exact settleEnd_ends hσ
    case isFalse hpos =>
      rcases hσ with hclear | hstopped
      · cases hrun : settle pos (Reading.code s d.flow σ.isType pos) ⟨s, d, recur⟩ σ with
        | ok result =>
          exact ⟨settle_scopeDepth hrun, settle_stopped hrun hclear⟩
        | error e =>
          refine settle_excused hrun fun hplain => ?_
          have hpos := (Source.trivia_of_gap hgap).isBoundary (hstop hplain)
          exact (Reading.full_code _ _ hpos).whole hplain
      · -- Behind the end of the text there is nothing to read.
        rw [hstopped.stop, Source.gap, Nat.sub_self, Source.gapFor] at hgap
        cases hgap
        exact absurd (Nat.le_refl _) hpos

/-- Where reading on as ordinary code arrives. -/
theorem readCode_current (h : readCode ⟨s, d, recur⟩ σ = .ok ((), τ)) (hclear : τ.error? = none)
    (hsize : σ.current.stop ≤ s.size) : σ.current.stop ≤ τ.current.start ∧ τ.AtFull s := by
  obtain ⟨-, hread⟩ := readCode_ok h
  obtain ⟨-, pos, hgap, ⟨-, hend, -⟩ | ⟨hlt, kind, keyword, stop, hcode, hlexeme⟩⟩ := hread hclear
  · refine ⟨?_, .inr hend⟩
    rw [hend]
    exact hsize
  · have hfull := Reading.full_code d.flow σ.isType (Reading.isBoundary_of_code hlt hcode)
    rw [show Reading.code s d.flow σ.isType pos = _ from hcode] at hfull
    rw [State.AtFull, hlexeme]
    exact ⟨(Source.trivia_of_gap hgap).le, .inl hfull.fills⟩

end Parse

/-! ## Consuming -/

theorem endedAt_one {spans : List (Nat × Nat)} {x : Nat × Nat} (h : σ.spans = spans ++ [x]) :
    endedAt s σ 1 = decide (s.size ≤ x.1) := by
  rw [endedAt_eq, h]
  simp

theorem endedAt_one_of_starts_lt (h : ∀ span ∈ σ.spans, span.1 < s.size) :
    endedAt s σ 1 = false := by
  rcases List.eq_nil_or_concat σ.spans with hnil | ⟨init, last, hsplit⟩
  · rw [endedAt_eq, hnil]
    rfl
  · rw [List.concat_eq_append] at hsplit
    have hlast := h last (by simp [hsplit])
    rw [endedAt_one hsplit, decide_eq_false_iff_not]
    omega

/-- Before the end of the text no token is the end. -/
theorem Tiled.endedAt_one (h : Tiled s σ) (hlt : σ.current.start < s.size) :
    endedAt s σ 1 = false := by
  obtain ⟨i, hchain, htrivia⟩ := h.tokens
  exact endedAt_one_of_starts_lt (hchain.starts_lt htrivia.le hlt)

/-- Less is left where a later lexeme is current. -/
theorem Live.left_lt_of_start_lt (hσ : Live s σ) (hlt : σ.current.start < τ.current.start)
    (hτ : τ.current.start ≤ s.size) : left s τ < left s σ := by
  have hopen := hσ.tiled.endedAt_one (by omega)
  unfold left
  rw [hopen]
  split <;> simp <;> omega

/-- Less is left after the end of the text has been consumed. -/
theorem Tiled.left_lt_of_end {x : Nat × Nat} (hτ : Tiled s τ) (hspans : τ.spans = σ.spans ++ [x])
    (hx : s.size ≤ x.1) (hτend : s.size ≤ τ.current.start) : left s τ < left s σ := by
  have hearly := hτ.early
  rw [hspans, List.dropLast_concat] at hearly
  unfold left
  rw [Grammar.endedAt_one hspans, endedAt_one_of_starts_lt hearly]
  simp only [hx, decide_true, if_true, Bool.false_eq_true, if_false]
  omega

/-- Less is left after the current lexeme has been consumed. -/
theorem Live.left_lt (hσ : Live s σ) (hτ : Live s τ)
    (hspans : τ.spans = σ.spans ++ [(σ.current.start, σ.current.stop)])
    (hstart : σ.current.stop ≤ τ.current.start) : left s τ < left s σ := by
  rcases hσ.full with ⟨hlt, -⟩ | hend
  · exact hσ.left_lt_of_start_lt (by omega) (Source.le_size_of_isBoundary hτ.tiled.start)
  · rw [hend] at hspans hstart
    exact hτ.tiled.left_lt_of_end hspans (Nat.le_refl _) hstart

/-- An action that consumes the current lexeme, put together from what it does to the tiling, to the
current lexeme and to the rest of the state. -/
theorem moves_of_advances (hσ : Sane s σ) (hadvance : Advances s σ τ)
    (hdepth : τ.scopeDepth = σ.scopeDepth) (hstopped : τ.error? ≠ none → Stopped s τ)
    (hfull : Live s σ → τ.error? = none → τ.AtFull s)
    (hleft : Live s σ → Live s τ → left s τ < left s σ) : Moves s σ τ where
  sane := by
    cases hclear : τ.error? with
    | some e => exact .inr (hstopped (by simp [hclear]))
    | none =>
      have hlive := hσ.live (hadvance.error hclear)
      exact .inl ⟨hclear, hadvance.tiled hclear hlive.tiled, hfull hlive hclear⟩
  stays hstop := hstopped fun hclear => hstop.failed (hadvance.error hclear)
  left := hleft
  spans := hadvance.spans
  depth := hdepth

/-- Consuming the current lexeme keeps the phase. -/
theorem Stopped.pushed (h : Stopped s σ) : Stopped s σ.pushed :=
  ⟨h.failed, h.kind, h.keyword, h.stop⟩

theorem next_ends (hσ : Sane s σ) :
    Ends s (fun _ τ => Moves s σ τ) (next ⟨s, d, recur⟩ σ) := by
  have hstop : s.PlainEscapes → s.isBoundary σ.pushed.current.stop = true := by
    intro _
    rcases hσ with hlive | hstopped
    · exact hlive.tiled.stop
    · rw [hstopped.pushed.stop]
      exact s.isBoundary_size
  have hends : Ends s _ (readCode ⟨s, d, recur⟩ σ.pushed) :=
    readCode_ends (hσ.clear_or_stopped.imp id Stopped.pushed) hstop
  change Ends s _ (readCode ⟨s, d, recur⟩ σ.pushed)
  cases hrun : readCode ⟨s, d, recur⟩ σ.pushed with
  | error e =>
    rw [hrun] at hends
    exact hends
  | ok result =>
    obtain ⟨_, τ⟩ := result
    obtain ⟨hdepth, hstopped⟩ := hends.of_ok hrun
    have hsize : Live s σ → σ.current.stop ≤ s.size :=
      fun hlive => Source.le_size_of_isBoundary hlive.tiled.stop
    refine moves_of_advances hσ (advances_of_next hrun) hdepth hstopped ?_ ?_
    · exact fun hlive hclear => (readCode_current hrun hclear (hsize hlive)).2
    · intro hlive hτ
      refine hlive.left_lt hτ ?_ (readCode_current hrun hτ.clear (hsize hlive)).1
      exact (State.spans_eq_of_tokens (readCode_ok hrun).1).trans σ.spans_pushed

/-- Consuming the current lexeme and settling on what is read right after it. -/
theorem settle_pushed_ends {start : Nat} {reading : Reading} (hσ : Sane s σ)
    (hadvance : ∀ τ, settle start reading ⟨s, d, recur⟩ σ.pushed = .ok ((), τ) → Advances s σ τ)
    (hfull : Live s σ → reading.Full s start) (hstart : σ.current.stop ≤ start)
    (hfault : Stopped s σ → ∃ cause pos, reading = .fault cause pos) :
    Ends s (fun _ τ => Moves s σ τ) (settle start reading ⟨s, d, recur⟩ σ.pushed) := by
  rcases hσ with hlive | hstopped
  · cases hrun : settle start reading ⟨s, d, recur⟩ σ.pushed with
    | error e => exact settle_excused hrun (hfull hlive).whole
    | ok result =>
      obtain ⟨_, τ⟩ := result
      have hdepth : τ.scopeDepth = σ.pushed.scopeDepth := settle_scopeDepth hrun
      obtain ⟨htokens, hread⟩ := settle_ok hrun
      refine moves_of_advances (.inl hlive) (hadvance τ hrun) hdepth
        (settle_stopped hrun hlive.clear) ?_ ?_
      · intro _ hclear
        obtain ⟨-, kind, keyword, stop, rfl, hcurrent⟩ := hread hclear
        rw [State.AtFull, hcurrent]
        exact .inl (hfull hlive).fills
      · intro _ hτ
        refine hlive.left_lt hτ ((State.spans_eq_of_tokens htokens).trans σ.spans_pushed) ?_
        obtain ⟨-, kind, keyword, stop, -, hcurrent⟩ := hread hτ.clear
        rwa [hcurrent]
  · obtain ⟨cause, pos, rfl⟩ := hfault hstopped
    cases hrun : settle start (.fault cause pos) ⟨s, d, recur⟩ σ.pushed with
    | error e => cases hrun
    | ok result =>
      obtain ⟨_, τ⟩ := result
      have hτ := settle_fault hstopped.pushed hrun
      have hdepth : τ.scopeDepth = σ.pushed.scopeDepth := settle_scopeDepth hrun
      exact moves_of_advances (.inr hstopped) (hadvance τ hrun) hdepth (fun _ => hτ)
        (fun hlive => absurd hstopped hlive.not_stopped)
        (fun hlive => absurd hstopped hlive.not_stopped)

theorem nextInTag_ends (hσ : Sane s σ) :
    Ends s (fun _ τ => Moves s σ τ) (nextInTag ⟨s, d, recur⟩ σ) := by
  have hadvance : ∀ τ, nextInTag ⟨s, d, recur⟩ σ = .ok ((), τ) → Advances s σ τ :=
    fun τ => Action.advances .nextInTag
  rw [nextInTag_eq] at hadvance ⊢
  dsimp only at hadvance ⊢
  cases hgap : s.gap σ.current.stop with
  | openComment start =>
    rw [hgap] at hadvance
    have hfailed := stopped_failed (e := ⟨.unterminatedComment, start⟩)
      (hσ.clear_or_stopped.imp id Stopped.pushed)
    have hstopped : Stopped s { σ.pushed.failed s.size ⟨.unterminatedComment, start⟩ with
        current := { (σ.pushed.failed s.size ⟨.unterminatedComment, start⟩).current with
          start := s.size } } :=
      ⟨hfailed.failed, hfailed.kind, hfailed.keyword, hfailed.stop⟩
    exact moves_of_advances hσ (hadvance _ rfl) (State.failed_scopeDepth _ _ _)
      (fun _ => hstopped) (fun _ hclear => absurd hclear hstopped.failed)
      (fun _ hτ => absurd hstopped hτ.not_stopped)
  | upTo pos =>
    rw [hgap] at hadvance
    have htrivia := Source.trivia_of_gap hgap
    refine settle_pushed_ends hσ hadvance ?_ htrivia.le ?_
    · intro hlive
      split
      · exact trivial
      · exact Reading.full_tag (htrivia.isBoundary hlive.tiled.stop)
    · intro hstopped
      rw [hstopped.stop, Source.gap, Nat.sub_self, Source.gapFor] at hgap
      cases hgap
      exact ⟨_, _, if_pos (Nat.le_refl _)⟩

theorem nextInElement_ends (hσ : Sane s σ) :
    Ends s (fun _ τ => Moves s σ τ) (nextInElement ⟨s, d, recur⟩ σ) := by
  refine settle_pushed_ends hσ (fun τ => Action.advances .nextInElement) ?_ (Nat.le_refl _) ?_
  · exact fun hlive => Reading.full_child _ _ hlive.tiled.stop
  · intro hstopped
    have hle := Source.le_skipBytes s (fun c => c != '<' && c != '{') s.size
    refine ⟨.unterminatedJsxContents, s.size, ?_⟩
    change Reading.child s d.flow σ.isType σ.current.stop = _
    rw [hstopped.stop]
    exact if_pos hle

/-! ## Templates -/

theorem nextInTemplate_eq : nextInTemplate ⟨s, d, recur⟩ σ =
    settle σ.current.stop (Reading.template s (σ.current.kind == .template) σ.current.stop)
      ⟨s, d, recur⟩ σ.pushed := rfl

/-- Reading on inside a template never halts. -/
theorem nextInTemplate_run (s : Source) (d : Dialect) (recur : Goal → Step Bool) (σ : State) :
    ∃ τ, nextInTemplate ⟨s, d, recur⟩ σ = .ok ((), τ) := by
  cases hrun : nextInTemplate ⟨s, d, recur⟩ σ with
  | ok result => exact ⟨result.2, rfl⟩
  | error e =>
    rw [nextInTemplate_eq] at hrun
    obtain ⟨a, b, htorn, -⟩ := settle_error hrun
    have hwhole := Reading.whole_template s (σ.current.kind == .template) σ.current.stop
    rw [htorn] at hwhole
    exact hwhole.elim

/-- At the end of the text there is no template to read on. -/
theorem Stopped.nextInTemplate (h : Stopped s σ)
    (hrun : nextInTemplate ⟨s, d, recur⟩ σ = .ok ((), τ)) : Stopped s τ := by
  have hnone : s.templateStop? s.size = none := by
    rw [Source.templateStop?, Nat.sub_self, Source.templateStopFor]
  have hread : Reading.template s (σ.current.kind == .template) σ.current.stop =
      .fault .unterminatedTemplate s.size := by
    rw [h.stop, Reading.template, hnone]
  rw [nextInTemplate_eq, hread] at hrun
  exact settle_fault h.pushed hrun

/-- A piece of a template and the mark that ends it are consumed one right after the other. -/
theorem nextPiece_ends (hσ : Sane s σ) :
    Ends s (fun _ τ => Moves s σ τ)
      ((do nextInTemplate; nextInTemplate : Parse Unit) ⟨s, d, recur⟩ σ) := by
  obtain ⟨υ, hfirst⟩ := nextInTemplate_run s d recur σ
  obtain ⟨τ, hsecond⟩ := nextInTemplate_run s d recur υ
  rw [Parse.bind_eq hfirst, hsecond]
  have hadvance : ∀ {σ τ : State}, nextInTemplate ⟨s, d, recur⟩ σ = .ok ((), τ) →
      Advances s σ τ := Action.advances .nextInTemplate
  rw [nextInTemplate_eq] at hfirst
  have hυ : υ.error? ≠ none → Stopped s υ := by
    intro hfailed
    rcases hσ with hlive | hstopped
    · exact settle_stopped hfirst hlive.clear hfailed
    · exact hstopped.nextInTemplate hfirst
  obtain ⟨-, hread⟩ := settle_ok hfirst
  have hdepth : υ.scopeDepth = σ.pushed.scopeDepth := settle_scopeDepth hfirst
  have hdepth' : τ.scopeDepth = υ.pushed.scopeDepth := settle_scopeDepth hsecond
  have hsound : (Reading.template s (σ.current.kind == .template) σ.current.stop).Sound s
      σ.current.stop := Reading.sound_template _
  -- The piece is read from where the current lexeme stops, the mark from where the piece stops.
  have hpiece : Live s σ → υ.error? = none → σ.current.start < υ.current.start ∧
      υ.current.start ≤ υ.current.stop ∧ υ.current.kind = .template ∧
      (s.byteAt υ.current.stop = '\x60' ∨
        (s.byteAt υ.current.stop = '$' ∧ s.byteAt (υ.current.stop + 1) = '{')) := by
    intro hlive hclear
    obtain ⟨-, kind, keyword, stop, htemplate, hcurrent⟩ := hread hclear
    rcases hlive.full with ⟨hlt, hkind⟩ | hend
    · rw [htemplate] at hsound
      rw [beq_eq_false_iff_ne.2 hkind] at htemplate
      obtain ⟨rfl, hmark⟩ := Reading.template_piece htemplate
      rw [hcurrent]
      exact ⟨hlt, hsound.1, rfl, hmark⟩
    · have hlt := Reading.lt_size_of_template htemplate
      rw [hend] at hlt
      exact absurd hlt (Nat.lt_irrefl _)
  obtain ⟨-, hread'⟩ := settle_ok hsecond
  refine moves_of_advances hσ ((hadvance hfirst).trans (hadvance hsecond)) (hdepth'.trans hdepth)
    ?_ ?_ ?_
  · intro hfailed
    by_cases hclear : υ.error? = none
    · exact settle_stopped hsecond hclear hfailed
    · exact (hυ hclear).nextInTemplate hsecond
  · intro hlive hclear
    obtain ⟨hυclear, kind, keyword, stop, htemplate, hcurrent⟩ := hread' hclear
    obtain ⟨-, -, hkind, hmark⟩ := hpiece hlive hυclear
    have hfills := Reading.fills_template hmark
    rw [hkind] at htemplate
    rw [show Reading.template s true υ.current.stop = _ from htemplate] at hfills
    rw [State.AtFull, hcurrent]
    exact .inl hfills
  · intro hlive hτ
    obtain ⟨hυclear, kind, keyword, stop, -, hcurrent⟩ := hread' hτ.clear
    obtain ⟨hlt, hle, -, -⟩ := hpiece hlive hυclear
    refine hlive.left_lt_of_start_lt ?_ (Source.le_size_of_isBoundary hτ.tiled.start)
    rw [hcurrent]
    exact (show σ.current.start < υ.current.stop by omega)

/-! ## Looking again at the current lexeme -/

theorem rests_of_advances (hσ : Live s σ) (hadvance : Advances s σ τ)
    (htokens : τ.tokens = σ.tokens) (hdepth : τ.scopeDepth = σ.scopeDepth)
    (hstopped : τ.error? ≠ none → Stopped s τ)
    (hstart : τ.error? = none → τ.current.start = σ.current.start ∧ τ.AtFull s) :
    Rests s σ τ where
  sane := by
    cases hclear : τ.error? with
    | some e => exact .inr (hstopped (by simp [hclear]))
    | none => exact .inl ⟨hclear, hadvance.tiled hclear hσ.tiled, (hstart hclear).2⟩
  stays hstop := absurd hstop hσ.not_stopped
  left hτ := by
    rw [left, left, endedAt, endedAt, htokens, (hstart hτ.clear).1]
  spans := State.spans_eq_of_tokens htokens
  depth := hdepth

theorem reread_ends {reading : Reading} (hσ : Live s σ)
    (hadvance : ∀ τ, settle σ.current.start reading ⟨s, d, recur⟩ σ = .ok ((), τ) → Advances s σ τ)
    (hfull : reading.Full s σ.current.start) :
    Ends s (fun _ τ => Rests s σ τ) (settle σ.current.start reading ⟨s, d, recur⟩ σ) := by
  cases hrun : settle σ.current.start reading ⟨s, d, recur⟩ σ with
  | error e => exact settle_excused hrun hfull.whole
  | ok result =>
    obtain ⟨_, τ⟩ := result
    obtain ⟨htokens, hread⟩ := settle_ok hrun
    refine rests_of_advances hσ (hadvance τ hrun) htokens (settle_scopeDepth hrun)
      (settle_stopped hrun hσ.clear) fun hclear => ?_
    obtain ⟨-, kind, keyword, stop, rfl, hcurrent⟩ := hread hclear
    rw [State.AtFull, hcurrent]
    exact ⟨rfl, .inl hfull.fills⟩

theorem rests_refl (hσ : Sane s σ) : Rests s σ σ :=
  ⟨hσ, id, fun _ => rfl, rfl, rfl⟩

theorem rereadGreater_ends (hσ : Sane s σ) :
    Ends s (fun _ τ => Rests s σ τ) (rereadGreater ⟨s, d, recur⟩ σ) := by
  have hadvance : ∀ τ, rereadGreater ⟨s, d, recur⟩ σ = .ok ((), τ) → Advances s σ τ :=
    fun τ => Action.advances .rereadGreater
  change ∀ τ, (if σ.current.kind == .greater then do
    settle σ.current.start (Reading.punctuator (← read).source σ.current.start) else pure () :
      Parse Unit) ⟨s, d, recur⟩ σ = .ok ((), τ) → Advances s σ τ at hadvance
  change Ends s _ ((if σ.current.kind == .greater then do
    settle σ.current.start (Reading.punctuator (← read).source σ.current.start) else pure () :
      Parse Unit) ⟨s, d, recur⟩ σ)
  split
  case isTrue hkind =>
    rw [if_pos hkind] at hadvance
    have hlive := hσ.resolve_right fun hstopped => by simp [hstopped.kind] at hkind
    exact reread_ends hlive hadvance (Reading.full_punctuator hlive.tiled.start)
  case isFalse => exact rests_refl hσ

theorem splitShiftLeft_ends (hσ : Sane s σ) :
    Ends s (fun _ τ => Rests s σ τ) (splitShiftLeft ⟨s, d, recur⟩ σ) := by
  have hadvance : ∀ τ, splitShiftLeft ⟨s, d, recur⟩ σ = .ok ((), τ) → Advances s σ τ :=
    fun τ => Action.advances .splitShiftLeft
  change ∀ τ, (if σ.current.kind == .shiftLeft then
    settle σ.current.start (Reading.plain .less (σ.current.start + 1)) else pure () : Parse Unit)
      ⟨s, d, recur⟩ σ = .ok ((), τ) → Advances s σ τ at hadvance
  change Ends s _ ((if σ.current.kind == .shiftLeft then
    settle σ.current.start (Reading.plain .less (σ.current.start + 1)) else pure () : Parse Unit)
      ⟨s, d, recur⟩ σ)
  split
  case isTrue hkind =>
    rw [if_pos hkind] at hadvance
    have hlive := hσ.resolve_right fun hstopped => by simp [hstopped.kind] at hkind
    have hbyte := hlive.tiled.shift (beq_iff_eq.1 hkind)
    exact reread_ends hlive hadvance
      (Reading.full_upTo hbyte (by decide) (by decide) (Nat.le_refl _) (by decide))
  case isFalse => exact rests_refl hσ

/-- A lexeme that cannot be the end of the text. -/
def IsText (l : Lexeme) : Prop := l.kind ≠ .eof ∨ l.keyword ≠ .ordinary

theorem Stopped.not_isText (h : Stopped s σ) : ¬ IsText σ.current := by
  rintro (hkind | hkeyword)
  · exact hkind h.kind
  · exact hkeyword h.keyword

theorem retype_ends {kind : TokenKind} (hσ : Sane s σ) (htext : IsText σ.current)
    (hkind : kind ≠ .eof ∧ kind ≠ .shiftLeft) (htemplate : kind ≠ .template) :
    Ends s (fun _ τ => Rests s σ τ ∧ τ.current.kind = kind) (retype kind ⟨s, d, recur⟩ σ) := by
  have hlive := hσ.resolve_right fun hstopped => hstopped.not_isText htext
  have hrun : Action.perform (.retype kind hkind) ⟨s, d, recur⟩ σ =
      .ok ((), { σ with current := { σ.current with kind } }) := rfl
  have hadvance := Action.advances _ hrun
  refine ⟨rests_of_advances hlive hadvance rfl rfl (fun hfailed => absurd hlive.clear hfailed)
    fun _ => ⟨rfl, .inl ⟨?_, htemplate⟩⟩, rfl⟩
  rcases hlive.full with ⟨hlt, -⟩ | hend
  · exact hlt
  · rw [hend] at htext
    rcases htext with hkind | hkeyword
    · exact absurd rfl hkind
    · exact absurd rfl hkeyword

theorem nextRegexp_ends (hσ : Sane s σ) (htext : IsText σ.current) :
    Ends s (fun _ τ => Moves s σ τ)
      ((do rereadRegexp; next : Parse Unit) ⟨s, d, recur⟩ σ) := by
  have hlive := hσ.resolve_right fun hstopped => hstopped.not_isText htext
  obtain ⟨υ, hread⟩ : ∃ υ, rereadRegexp ⟨s, d, recur⟩ σ = .ok ((), υ) := by
    cases hread : rereadRegexp ⟨s, d, recur⟩ σ with
    | ok result => exact ⟨result.2, rfl⟩
    | error e =>
      obtain ⟨a, b, htorn, -⟩ := settle_error hread
      have hwhole := Reading.whole_regexp s σ.current.start
      rw [show Reading.regexp s σ.current.start = _ from htorn] at hwhole
      exact hwhole.elim
  have hadvance : ∀ τ, (do rereadRegexp; next : Parse Unit) ⟨s, d, recur⟩ σ = .ok ((), τ) →
      Advances s σ τ := fun _ => advances_of_nextRegexp
  rw [Parse.bind_eq hread] at hadvance ⊢
  have hdepth : υ.scopeDepth = σ.scopeDepth := settle_scopeDepth hread
  obtain ⟨-, hregexp⟩ := settle_ok hread
  have hυ : υ.error? = none ∨ Stopped s υ := by
    by_cases hclear : υ.error? = none
    · exact .inl hclear
    · exact .inr (settle_stopped hread hlive.clear hclear)
  -- Only an escape in the flags can end the expression inside a character.
  have hstop : s.PlainEscapes → s.isBoundary υ.pushed.current.stop = true := by
    intro hplain
    by_cases hclear : υ.error? = none
    · obtain ⟨-, kind, keyword, stop, hlexeme, hcurrent⟩ := hregexp hclear
      rw [show υ.pushed.current.stop = υ.current.stop from rfl, hcurrent]
      exact Reading.isBoundary_of_regexp hplain hlexeme
    · rw [(hυ.resolve_left hclear).pushed.stop]
      exact s.isBoundary_size
  have hends : Ends s _ (readCode ⟨s, d, recur⟩ υ.pushed) :=
    readCode_ends (hυ.imp id Stopped.pushed) hstop
  change Ends s _ (readCode ⟨s, d, recur⟩ υ.pushed)
  cases hrun : readCode ⟨s, d, recur⟩ υ.pushed with
  | error e =>
    rw [hrun] at hends
    exact hends
  | ok result =>
    obtain ⟨_, τ⟩ := result
    obtain ⟨hdepth', hstopped⟩ := hends.of_ok hrun
    have hexpression : τ.error? = none → σ.current.start < τ.current.start ∧ τ.AtFull s := by
      intro hclear
      obtain ⟨-, kind, keyword, stop, hlexeme, hcurrent⟩ := hregexp ((readCode_ok hrun).2 hclear).1
      have hfills := Reading.fills_regexp s σ.current.start
      rw [show Reading.regexp s σ.current.start = _ from hlexeme] at hfills
      have hstop : υ.pushed.current.stop = stop := by
        change υ.current.stop = stop
        rw [hcurrent]
      have hsize := (Reading.regexp_eq_lexeme hlexeme).2.1
      obtain ⟨hstart, hfull⟩ := readCode_current hrun hclear (hstop ▸ hsize)
      exact ⟨Nat.lt_of_lt_of_le hfills.1 (hstop ▸ hstart), hfull⟩
    refine moves_of_advances hσ (hadvance τ hrun) (hdepth'.trans hdepth) hstopped ?_ ?_
    · exact fun _ hclear => (hexpression hclear).2
    · intro _ hτ
      exact hlive.left_lt_of_start_lt (hexpression hτ.clear).1
        (Source.le_size_of_isBoundary hτ.tiled.start)

end PlainScript.Grammar
