import PlainScript.Proofs.Lexemes
import PlainScript.Proofs.RulesWalk

/-!
# Tokens tile the source

The consumed tokens and the current lexeme stand in the text one after the other, with nothing but
trivia between them. As long as no error has been recorded, every action of the parser keeps it so,
and therefore every rule does. A state to which the parser goes back differs from one it has been in
by annotations only, because the tokens consumed before that state are still there.

Any lexeme may be consumed as an identifier, the end of the text included. The end cannot be
consumed twice without an error, so that of two tokens at the end the parser would have complained.
-/

namespace PlainScript.Grammar

open Parse

variable {s : Source} {env : Env} {σ τ : State}

/-! ## Tilings -/

/-- Spans that stand one after the other from the start of the text up to an offset, with nothing
but trivia before each of them. -/
inductive Chain (s : Source) : List (Nat × Nat) → Nat → Prop
  | nil : Chain s [] 0
  | snoc {spans : List (Nat × Nat)} {i a b : Nat} : Chain s spans i → s.Trivia i a → a ≤ b →
      s.isBoundary b = true → Chain s (spans ++ [(a, b)]) b

/-- The tokens and the current lexeme tile the text as far as it has been read. -/
structure Tiled (s : Source) (σ : State) : Prop where
  tokens : ∃ i, Chain s σ.spans i ∧ s.Trivia i σ.current.start
  le : σ.current.start ≤ σ.current.stop
  stop : s.isBoundary σ.current.stop = true
  /-- Only the last token can start at the end of the text. -/
  early : ∀ span ∈ σ.spans.dropLast, span.1 < s.size
  atEnd : σ.current.kind = .eof → s.size ≤ σ.current.start
  shift : σ.current.kind = .shiftLeft → s.byteAt σ.current.start = '<'

theorem Chain.isBoundary {spans : List (Nat × Nat)} {i : Nat} (h : Chain s spans i) :
    s.isBoundary i = true := by
  cases h with
  | nil => exact s.isBoundary_zero
  | snoc _ _ _ hb => exact hb

/-- The end of a chain is the end of its last span. -/
theorem Chain.starts_le {spans : List (Nat × Nat)} {i : Nat} (h : Chain s spans i) :
    ∀ span ∈ spans, span.1 ≤ i := by
  induction h with
  | nil => simp
  | snoc _ htrivia hle _ ih =>
    have := htrivia.le
    intro span hspan
    rcases List.mem_append.1 hspan with hspan | hspan
    · have := ih span hspan
      omega
    · cases List.mem_singleton.1 hspan
      exact hle

theorem Tiled.start (h : Tiled s σ) : s.isBoundary σ.current.start = true := by
  obtain ⟨i, hchain, htrivia⟩ := h.tokens
  exact htrivia.isBoundary hchain.isBoundary

/-- Annotations do not matter for a tiling. -/
theorem Tiled.of_sameLexemes (h : Tiled s σ) (hsame : σ.SameLexemes τ) : Tiled s τ := by
  obtain ⟨hcurrent, -, hspans⟩ := hsame
  constructor
  · rw [hspans, hcurrent]
    exact h.tokens
  · rw [hcurrent]
    exact h.le
  · rw [hcurrent]
    exact h.stop
  · rw [hspans]
    exact h.early
  · rw [hcurrent]
    exact h.atEnd
  · rw [hcurrent]
    exact h.shift

/-- A lexeme that has been read where trivia ends tiles the text with the tokens before it. -/
theorem Chain.tiled_lexeme {i start stop : Nat} {kind : TokenKind} {keyword : SoftKeyword}
    (h : Chain s τ.spans i) (htrivia : s.Trivia i start)
    (hearly : ∀ span ∈ τ.spans.dropLast, span.1 < s.size)
    (hsound : (Reading.lexeme kind keyword stop).Sound s start)
    (hcurrent : τ.current = ⟨kind, keyword, start, stop⟩) : Tiled s τ := by
  obtain ⟨hle, hstop, hkind, hshift⟩ := hsound
  constructor
  · exact ⟨i, h, by rwa [hcurrent]⟩
  · rwa [hcurrent]
  · rwa [hcurrent]
  · exact hearly
  · rw [hcurrent]
    exact fun hend => absurd hend hkind
  · rwa [hcurrent]

/-- The end of the text, if nothing but trivia stands before it. -/
theorem Chain.tiled_end {i : Nat} (h : Chain s τ.spans i) (htrivia : s.Trivia i s.size)
    (hearly : ∀ span ∈ τ.spans.dropLast, span.1 < s.size)
    (hcurrent : τ.current = { start := s.size, stop := s.size }) : Tiled s τ := by
  constructor
  · exact ⟨i, h, by rwa [hcurrent]⟩
  · simp [hcurrent]
  · simp [hcurrent, s.isBoundary_size]
  · exact hearly
  · simp [hcurrent]
  · simp [hcurrent]

/-! ## Actions keep tilings -/

namespace State

theorem spans_pushed (σ : State) :
    σ.pushed.spans = σ.spans ++ [(σ.current.start, σ.current.stop)] := by
  simp [spans, pushed]

theorem spans_eq_of_tokens {σ τ : State} (h : τ.tokens = σ.tokens) : τ.spans = σ.spans := by
  rw [spans, spans, h]

end State

theorem endedAt_eq (s : Source) (σ : State) (back : Nat) :
    endedAt s σ back = (σ.spans[σ.spans.length - back]?).any (s.size ≤ ·.1) := by
  simp only [endedAt, State.spans, List.length_map, Array.length_toList, List.getElem?_map,
    Array.getElem?_toList]
  cases σ.tokens[σ.tokens.size - back]? <;> rfl

/-- Of the spans before the end of the text that have been passed, none starts there. -/
theorem Chain.starts_lt {spans : List (Nat × Nat)} {i j : Nat} (h : Chain s spans i) (hij : i ≤ j)
    (hj : j < s.size) : ∀ span ∈ spans, span.1 < s.size := by
  intro span hspan
  have := h.starts_le span hspan
  omega

/-- If the end of the text has not been consumed twice, it has been consumed by the last token at
most. -/
theorem Chain.starts_lt_of_not_ended {i : Nat} (h : Chain s σ.spans i)
    (htrivia : s.Trivia i σ.current.start) (hearly : ∀ span ∈ σ.spans.dropLast, span.1 < s.size)
    (hended : 2 ≤ σ.pushed.tokens.size → endedAt s σ.pushed 1 = true →
      endedAt s σ.pushed 2 = false) : ∀ span ∈ σ.spans, span.1 < s.size := by
  have hlength : σ.pushed.tokens.size = σ.pushed.spans.length := by simp [State.spans]
  rw [endedAt_eq, endedAt_eq, hlength, σ.spans_pushed] at hended
  rcases List.eq_nil_or_concat σ.spans with hnil | ⟨init, last, hsplit⟩
  · simp [hnil]
  · rw [List.concat_eq_append] at hsplit
    have hlast : last.1 ≤ i := h.starts_le last (by simp [hsplit])
    have hstart := htrivia.le
    rw [hsplit] at hearly hended ⊢
    intro span hspan
    rcases List.mem_append.1 hspan with hspan | hspan
    · exact hearly span (by simpa using hspan)
    · cases List.mem_singleton.1 hspan
      apply Nat.lt_of_not_le
      intro hsize
      have hcurrent : s.size ≤ σ.current.start := by omega
      simp [hsize, hcurrent] at hended

/-- The state after the current lexeme has been consumed and another one has been read. -/
theorem Chain.tiled {i start stop : Nat} {kind : TokenKind} {keyword : SoftKeyword}
    (h : Chain s σ.spans i) (htrivia : s.Trivia i σ.current.start)
    (hle : σ.current.start ≤ σ.current.stop) (hstop : s.isBoundary σ.current.stop = true)
    (hnext : s.Trivia σ.current.stop start) (hlt : start < s.size)
    (hsound : (Reading.lexeme kind keyword stop).Sound s start)
    (htokens : τ.tokens = σ.pushed.tokens) (hcurrent : τ.current = ⟨kind, keyword, start, stop⟩) :
    Tiled s τ := by
  have hspans := (State.spans_eq_of_tokens htokens).trans σ.spans_pushed
  have hstart := htrivia.le
  have hpos := hnext.le
  refine Chain.tiled_lexeme (i := σ.current.stop) ?_ hnext ?_ hsound hcurrent
  · rw [hspans]
    exact .snoc h htrivia hle hstop
  · rw [hspans, List.dropLast_concat]
    exact h.starts_lt (by omega) hlt

/-- Consuming the current lexeme and reading on as ordinary code keeps the tiling. The lexeme may end
inside a character: then nothing is read there. -/
theorem tiled_of_next {d : Dialect} {recur : Goal → Step Bool} {i : Nat}
    (hchain : Chain s σ.spans i) (htrivia : s.Trivia i σ.current.start)
    (hle : σ.current.start ≤ σ.current.stop) (hsize : σ.current.stop ≤ s.size)
    (hearly : ∀ span ∈ σ.spans.dropLast, span.1 < s.size)
    (hrun : next ⟨s, d, recur⟩ σ = .ok ((), τ)) (hnone : τ.error? = none) : Tiled s τ := by
  change readCode ⟨s, d, recur⟩ σ.pushed = _ at hrun
  obtain ⟨htokens, hclear⟩ := readCode_ok hrun
  obtain ⟨-, pos, hgap, hread⟩ := hclear hnone
  change s.gap σ.current.stop = .upTo pos at hgap
  have hstop : s.isBoundary σ.current.stop = true := by
    apply Bool.of_not_eq_false
    intro hcut
    have hne : σ.current.stop ≠ s.size := by
      intro heq
      rw [heq, s.isBoundary_size] at hcut
      cases hcut
    have hlt : σ.current.stop < s.size := by omega
    rw [Source.gap_of_not_isBoundary hlt hcut] at hgap
    cases hgap
    rcases hread with ⟨hend, -⟩ | ⟨-, kind, keyword, stop, hcode, -⟩
    · exact absurd hend (Nat.not_le.2 hlt)
    · exact Bool.noConfusion (hcut.symm.trans (Reading.isBoundary_of_code hlt hcode))
  have hnext := Source.trivia_of_gap hgap
  have hpos := hnext.isBoundary hstop
  rcases hread with ⟨hend, hcurrent, hended⟩ | ⟨hlt, kind, keyword, stop, hcode, hcurrent⟩
  · have heq : pos = s.size := Nat.le_antisymm (Source.le_size_of_isBoundary hpos) hend
    have hspans := (State.spans_eq_of_tokens htokens).trans σ.spans_pushed
    have hstarts := hchain.starts_lt_of_not_ended htrivia hearly hended
    refine Chain.tiled_end (i := σ.current.stop) ?_ (heq ▸ hnext) ?_ hcurrent
    · rw [hspans]
      exact .snoc hchain htrivia hle hstop
    · rwa [hspans, List.dropLast_concat]
  · have hsound : (Reading.code s d.flow σ.isType pos).Sound s pos :=
      (Reading.full_code _ _ hpos).sound
    rw [show Reading.code s d.flow σ.isType pos = _ from hcode] at hsound
    exact hchain.tiled htrivia hle hstop hnext hlt hsound htokens hcurrent

/-- The state after the current lexeme has been read again. -/
theorem Tiled.reread {stop : Nat} {kind : TokenKind} {keyword : SoftKeyword} (h : Tiled s σ)
    (hsound : (Reading.lexeme kind keyword stop).Sound s σ.current.start)
    (htokens : τ.tokens = σ.tokens)
    (hcurrent : τ.current = ⟨kind, keyword, σ.current.start, stop⟩) : Tiled s τ := by
  have hspans := State.spans_eq_of_tokens htokens
  obtain ⟨i, hchain, htrivia⟩ := h.tokens
  rw [← hspans] at hchain
  refine hchain.tiled_lexeme htrivia ?_ hsound hcurrent
  rw [hspans]
  exact h.early

/-- What an action may do to the tokens, and to a tiling if there is no error after it. -/
structure Advances (s : Source) (σ τ : State) : Prop where
  spans : σ.spans <+: τ.spans
  error : τ.error? = none → σ.error? = none
  tiled : τ.error? = none → Tiled s σ → Tiled s τ

theorem Advances.trans {υ : State} (hστ : Advances s σ τ) (hτυ : Advances s τ υ) :
    Advances s σ υ where
  spans := hστ.spans.trans hτυ.spans
  error hnone := hστ.error (hτυ.error hnone)
  tiled hnone htiled := hτυ.tiled hnone (hστ.tiled (hτυ.error hnone) htiled)

theorem State.SameLexemes.advances (h : σ.SameLexemes τ) : Advances s σ τ where
  spans := h.spans ▸ List.prefix_rfl
  error hnone := by rw [← h.error, hnone]
  tiled _ htiled := htiled.of_sameLexemes h

/-- An action that consumes the current lexeme and settles on another one. -/
theorem advances_of_settle {start : Nat} {reading : Reading}
    (hrun : settle start reading env σ.pushed = .ok ((), τ))
    (hsound : s.isBoundary start = true → reading.Sound s start)
    (hlt : ∀ kind keyword stop, reading = .lexeme kind keyword stop → start < s.size)
    (hnext : s.isBoundary σ.current.stop = true → s.Trivia σ.current.stop start) :
    Advances s σ τ := by
  obtain ⟨htokens, hclear⟩ := settle_ok hrun
  have hspans := (State.spans_eq_of_tokens htokens).trans σ.spans_pushed
  refine ⟨by rw [hspans]; exact List.prefix_append _ _, fun hnone => (hclear hnone).1, ?_⟩
  intro hnone htiled
  obtain ⟨-, kind, keyword, stop, hreading, hcurrent⟩ := hclear hnone
  obtain ⟨i, hchain, htrivia⟩ := htiled.tokens
  have hread := hsound ((hnext htiled.stop).isBoundary htiled.stop)
  rw [hreading] at hread
  exact hchain.tiled htrivia htiled.le htiled.stop (hnext htiled.stop) (hlt _ _ _ hreading) hread
    htokens hcurrent

theorem advances_of_next {d : Dialect} {recur : Goal → Step Bool}
    (hrun : next ⟨s, d, recur⟩ σ = .ok ((), τ)) : Advances s σ τ := by
  obtain ⟨htokens, hclear⟩ := readCode_ok (σ := σ.pushed) hrun
  have hspans := (State.spans_eq_of_tokens htokens).trans σ.spans_pushed
  refine ⟨by rw [hspans]; exact List.prefix_append _ _, fun hnone => (hclear hnone).1, ?_⟩
  intro hnone htiled
  obtain ⟨i, hchain, htrivia⟩ := htiled.tokens
  have hsize := Source.le_size_of_isBoundary htiled.stop
  exact tiled_of_next hchain htrivia htiled.le hsize htiled.early hrun hnone

/-- An action that reads the current lexeme again. -/
theorem advances_of_reread {reading : Reading}
    (hrun : settle σ.current.start reading env σ = .ok ((), τ))
    (hsound : Tiled s σ → reading.Sound s σ.current.start) : Advances s σ τ := by
  obtain ⟨htokens, hclear⟩ := settle_ok hrun
  refine ⟨State.spans_eq_of_tokens htokens ▸ List.prefix_rfl,
    fun hnone => (hclear hnone).1, ?_⟩
  intro hnone htiled
  obtain ⟨-, kind, keyword, stop, hreading, hcurrent⟩ := hclear hnone
  have hread := hsound htiled
  rw [hreading] at hread
  exact htiled.reread hread htokens hcurrent

/-- Reading the current slash again as a regular expression and consuming that. -/
theorem advances_of_nextRegexp {d : Dialect} {recur : Goal → Step Bool}
    (hrun : Action.perform .nextRegexp ⟨s, d, recur⟩ σ = .ok ((), τ)) : Advances s σ τ := by
  obtain ⟨_, υ, hread, hrun⟩ := bind_ok hrun
  change settle σ.current.start (Reading.regexp s σ.current.start) ⟨s, d, recur⟩ σ = _ at hread
  obtain ⟨hsame, hclear⟩ := settle_ok hread
  obtain ⟨htokens, hclear'⟩ := readCode_ok (σ := υ.pushed) hrun
  have hspans : υ.spans = σ.spans := State.spans_eq_of_tokens hsame
  refine ⟨?_, fun hnone => (hclear (hclear' hnone).1).1, ?_⟩
  · rw [State.spans_eq_of_tokens htokens, υ.spans_pushed, hspans]
    exact List.prefix_append _ _
  · intro hnone htiled
    obtain ⟨-, kind, keyword, stop, hreading, hcurrent⟩ := hclear (hclear' hnone).1
    obtain ⟨i, hchain, htrivia⟩ := htiled.tokens
    obtain ⟨hle, hsize, -⟩ := Reading.regexp_eq_lexeme hreading
    refine tiled_of_next (i := i) ?_ ?_ ?_ ?_ ?_ hrun hnone
    · rwa [hspans]
    · rwa [hcurrent]
    · rwa [hcurrent]
    · rwa [hcurrent]
    · rw [hspans]
      exact htiled.early

/-- Every action keeps the tiling. -/
theorem Action.advances {d : Dialect} {recur : Goal → Step Bool} (a : Action)
    (hrun : a.perform ⟨s, d, recur⟩ σ = .ok ((), τ)) : Advances s σ τ := by
  cases a with
  | fail cause pos =>
    obtain ⟨htokens, herror⟩ := fail_ok hrun
    exact ⟨State.spans_eq_of_tokens htokens ▸ List.prefix_rfl, fun hnone => absurd hnone herror,
      fun hnone => absurd hnone herror⟩
  | retype kind h =>
    cases hrun
    refine ⟨List.prefix_rfl, id, fun _ htiled => ?_⟩
    exact ⟨htiled.tokens, htiled.le, htiled.stop, htiled.early, fun hend => absurd hend h.1,
      fun hshift => absurd hshift h.2⟩
  | next => exact advances_of_next hrun
  | nextInTemplate =>
    exact advances_of_settle hrun (fun _ => Reading.sound_template _)
      (fun _ _ _ => Reading.lt_size_of_template) (fun _ => .none _)
  | nextInTag =>
    change Parse.nextInTag _ _ = _ at hrun
    rw [Parse.nextInTag_eq] at hrun
    dsimp only at hrun
    cases hgap : s.gap σ.current.stop with
    | openComment start =>
      rw [hgap] at hrun
      obtain ⟨_, υ, hfail, hrest⟩ := bind_ok hrun
      obtain ⟨htokens, herror⟩ := fail_ok hfail
      cases hrest
      refine ⟨?_, fun hnone => absurd hnone herror, fun hnone => absurd hnone herror⟩
      change σ.spans <+: υ.spans
      rw [State.spans_eq_of_tokens htokens, σ.spans_pushed]
      exact List.prefix_append _ _
    | upTo pos =>
      rw [hgap] at hrun
      refine advances_of_settle hrun ?_ ?_ (fun _ => Source.trivia_of_gap hgap)
      · intro hpos
        split
        · exact trivial
        · exact (Reading.full_tag hpos).sound
      · intro kind keyword stop hreading
        split at hreading
        · cases hreading
        · omega
  | nextInElement =>
    exact advances_of_settle hrun (fun hpos => (Reading.full_child _ _ hpos).sound)
      (fun _ _ _ => Reading.lt_size_of_child) (fun _ => .none _)
  | rereadGreater =>
    change (if σ.current.kind == .greater then do
      settle σ.current.start (Reading.punctuator (← read).source σ.current.start) else pure () :
        Parse Unit) ⟨s, d, recur⟩ σ = _ at hrun
    split at hrun
    · exact advances_of_reread hrun fun htiled => (Reading.full_punctuator htiled.start).sound
    · cases hrun
      exact State.SameLexemes.advances ⟨rfl, rfl, rfl⟩
  | splitShiftLeft =>
    change (if σ.current.kind == .shiftLeft then
      settle σ.current.start (Reading.plain .less (σ.current.start + 1)) else pure () : Parse Unit)
        ⟨s, d, recur⟩ σ = _ at hrun
    split at hrun
    case isTrue hkind =>
      refine advances_of_reread hrun fun htiled => ?_
      have hbyte := htiled.shift (beq_iff_eq.1 hkind)
      exact (Reading.full_upTo hbyte (by decide) (by decide) (Nat.le_refl _) (by decide)).sound
    case isFalse =>
      cases hrun
      exact State.SameLexemes.advances ⟨rfl, rfl, rfl⟩
  | nextRegexp => exact advances_of_nextRegexp hrun

/-! ## Whole parses -/

/-- Going back from a state that an earlier one has advanced to changes annotations only. -/
theorem Advances.restore {υ : State} (h : Advances s τ υ) : τ.SameLexemes (υ.restore τ.snapshot) := by
  refine ⟨rfl, rfl, ?_⟩
  have htake : (υ.restore τ.snapshot).spans = υ.spans.take τ.tokens.size := by
    simp [State.spans, State.restore, State.snapshot, List.map_take]
  have hlength : τ.tokens.size = τ.spans.length := by simp [State.spans]
  rw [htake, hlength]
  exact (List.prefix_iff_eq_take.1 h.spans).symm

/-- Everything that can be reached keeps the tiling. -/
theorem Reaches.advances {d : Dialect} (h : Reaches s d σ τ) : Advances s σ τ := by
  induction h with
  | stay σ => exact State.SameLexemes.advances ⟨rfl, rfl, rfl⟩
  | act a recur _ hrun ih => exact ih.trans (a.advances hrun)
  | annotate _ hsame ih => exact ih.trans hsame.toSameLexemes.advances
  | close _ _ _ _ ih hinside =>
    exact (ih.trans hinside).trans (State.SameLexemes.advances ⟨rfl, rfl, rfl⟩)
  | retreat _ _ hfirst hback => exact hfirst.trans hback.restore.advances

/-- The first lexeme tiles the text with what stands before it. -/
theorem tiled_of_readCode {d : Dialect} {recur : Goal → Step Bool}
    (hrun : readCode ⟨s, d, recur⟩ {} = .ok ((), σ)) (hnone : σ.error? = none) : Tiled s σ := by
  obtain ⟨htokens, hclear⟩ := readCode_ok hrun
  obtain ⟨-, pos, hgap, hread⟩ := hclear hnone
  have hspans : σ.spans = [] := State.spans_eq_of_tokens htokens
  have htrivia : s.Trivia 0 pos := Source.trivia_of_gap hgap
  have hpos := htrivia.isBoundary s.isBoundary_zero
  have hchain : Chain s σ.spans 0 := by
    rw [hspans]
    exact .nil
  rcases hread with ⟨hend, hcurrent, -⟩ | ⟨-, kind, keyword, stop, hcode, hcurrent⟩
  · have heq : pos = s.size := Nat.le_antisymm (Source.le_size_of_isBoundary hpos) hend
    exact hchain.tiled_end (heq ▸ htrivia) (by simp [hspans]) hcurrent
  · have hsound : (Reading.code s d.flow false pos).Sound s pos :=
      (Reading.full_code _ _ hpos).sound
    rw [show Reading.code s d.flow false pos = _ from hcode] at hsound
    exact hchain.tiled_lexeme htrivia (by simp [hspans]) hsound hcurrent

/-- Statements up to a closing token end by consuming it, unless there is an error. -/
theorem loopUntilEaten_ok {close : TokenKind} {rule : Parse Unit} [∀ base, Walks base rule]
    (henv : env.Walks) (hrun : loopUntilEaten close rule env σ = .ok ((), τ))
    (hnone : τ.error? = none) :
    ∃ υ, Reaches env.source env.dialect σ υ ∧ υ.current.kind = close ∧
      next env υ = .ok ((), τ) := by
  unfold loopUntilEaten loopWhile loop iterate at hrun
  obtain ⟨_, _, hread, hloop⟩ := bind_ok hrun
  cases hread
  clear hrun
  generalize roundLimit env.source = n at hloop
  induction n generalizing σ with
  | zero => cases hloop
  | succ n ih =>
    obtain ⟨step, υ, hround, hrest⟩ := bind_ok hloop
    obtain ⟨goesOn, υ', hbody, hstep⟩ := bind_ok hround
    obtain ⟨isOpen, ρ, hcondition, hrule⟩ := bind_ok hbody
    obtain ⟨eaten, ρ', heat, htest⟩ := bind_ok hcondition
    rcases eat_ok heat with ⟨rfl, hkind, hnext⟩ | ⟨rfl, rfl⟩
    · cases htest
      cases hrule
      cases hstep
      cases hrest
      exact ⟨σ, .stay σ, hkind, hnext⟩
    · change Except.ok (!ρ'.error?.isSome, ρ') = _ at htest
      cases herror : ρ'.error? with
      | some e =>
        rw [herror] at htest
        cases htest
        cases hrule
        cases hstep
        cases hrest
        rw [hnone] at herror
        cases herror
      | none =>
        rw [herror] at htest
        cases htest
        obtain ⟨_, κ, hrule, hpure⟩ := bind_ok hrule
        cases hpure
        cases hstep
        obtain ⟨υ, hreach, hkind, hnext⟩ := ih hrest
        exact ⟨υ, (Walks.reaches henv (.stay _) hrule).trans hreach, hkind, hnext⟩

theorem parse_eq (s : Source) (d : Dialect) :
    parse s d = (file ⟨s, d, meet s d (depthLimit s)⟩ {}).map Prod.snd :=
  rfl

theorem file_of_parse {d : Dialect} (h : parse s d = .ok τ) :
    ∃ a, file ⟨s, d, meet s d (depthLimit s)⟩ {} = .ok (a, τ) := by
  rw [parse_eq] at h
  cases hfile : file ⟨s, d, meet s d (depthLimit s)⟩ {} with
  | error e =>
    rw [hfile] at h
    cases h
  | ok result =>
    rw [hfile] at h
    cases h
    exact ⟨result.1, rfl⟩

/-- A parse without an error reads a first lexeme, goes on from there and ends by consuming the end of
the text. -/
theorem reaches_of_parse {d : Dialect} (h : parse s d = .ok τ) (hnone : τ.error? = none) :
    ∃ σ υ ω recur, readCode ⟨s, d, recur⟩ {} = .ok ((), σ) ∧ Reaches s d σ υ ∧
      υ.current.kind = .eof ∧ next ⟨s, d, recur⟩ υ = .ok ((), ω) ∧ ω.error? = none ∧
      τ.tokens = ω.tokens := by
  obtain ⟨_, hfile⟩ := file_of_parse h
  obtain ⟨_, σ, hread, hrest⟩ := bind_ok hfile
  obtain ⟨_, ω, hbody, hscope⟩ := bind_ok hrest
  cases hscope
  obtain ⟨υ, hreach, hkind, hnext⟩ := loopUntilEaten_ok (meet_walks s d _) hbody hnone
  exact ⟨σ, υ, ω, _, hread, hreach, hkind, hnext, hnone, rfl⟩

/-- A parse without an error ends by consuming the end of the text in a tiled state. -/
theorem parse_ok {d : Dialect} (h : parse s d = .ok τ) (hnone : τ.error? = none) :
    ∃ υ ω recur, Tiled s υ ∧ υ.current.kind = .eof ∧ next ⟨s, d, recur⟩ υ = .ok ((), ω) ∧
      ω.error? = none ∧ τ.tokens = ω.tokens := by
  obtain ⟨σ, υ, ω, recur, hread, hreach, hkind, hnext, hclear, htokens⟩ := reaches_of_parse h hnone
  have hadvance := hreach.advances
  have hnone' := (advances_of_next hnext).error hclear
  have hstart := tiled_of_readCode hread (hadvance.error hnone')
  exact ⟨υ, ω, recur, hadvance.tiled hnone' hstart, hkind, hnext, hclear, htokens⟩

/-! ## Chains, span by span -/

namespace Chain

variable {spans : List (Nat × Nat)} {i : Nat} {x y : Nat × Nat}

theorem span_ok (h : Chain s spans i) (hx : x ∈ spans) :
    x.1 ≤ x.2 ∧ s.isBoundary x.1 = true ∧ s.isBoundary x.2 = true := by
  induction h with
  | nil => cases hx
  | snoc hchain htrivia hle hb ih =>
    rcases List.mem_append.1 hx with hx | hx
    · exact ih hx
    · cases List.mem_singleton.1 hx
      exact ⟨hle, htrivia.isBoundary hchain.isBoundary, hb⟩

theorem end_eq (h : Chain s spans i) (hx : spans.getLast? = some x) : i = x.2 := by
  cases h with
  | nil => cases hx
  | snoc =>
    rw [List.getLast?_concat] at hx
    cases hx
    rfl

theorem leading (h : Chain s spans i) (hx : spans[0]? = some x) : s.Trivia 0 x.1 := by
  induction h with
  | nil => cases hx
  | snoc hchain htrivia _ _ ih =>
    cases hchain with
    | nil =>
      cases hx
      exact htrivia
    | snoc =>
      rw [List.getElem?_append_left (by simp)] at hx
      exact ih hx

theorem between (h : Chain s spans i) {k : Nat} (hx : spans[k]? = some x)
    (hy : spans[k + 1]? = some y) : s.Trivia x.2 y.1 := by
  induction h with
  | nil => cases hx
  | @snoc spans i a b hchain htrivia _ _ ih =>
    have hk : k + 1 < spans.length + 1 := by
      have := (List.getElem?_eq_some_iff.1 hy).1
      simpa using this
    rw [List.getElem?_append_left (by omega)] at hx
    by_cases hlast : k + 1 < spans.length
    · rw [List.getElem?_append_left hlast] at hy
      exact ih hx hy
    · have hend : k + 1 = spans.length := by omega
      rw [hend, List.getElem?_concat_length] at hy
      cases hy
      have hx' : spans.getLast? = some x := by
        rw [List.getLast?_eq_getElem?, ← hend, Nat.add_sub_cancel]
        exact hx
      rw [← hchain.end_eq hx']
      exact htrivia

end Chain

end PlainScript.Grammar

namespace PlainScript.AnnotatedFile

/-- The tokens of a file tile its source. -/
structure Tiles (s : Source) (f : AnnotatedFile) : Prop where
  /-- A token starts and stops at boundaries, in this order and inside the text. -/
  span : ∀ t ∈ f.tokens, t.start ≤ t.stop ∧ t.stop ≤ s.size ∧
    s.isBoundary t.start = true ∧ s.isBoundary t.stop = true
  /-- Only trivia stands before the first token. -/
  leading : ∀ t, f.tokens[0]? = some t → s.Trivia 0 t.start
  /-- Tokens do not overlap, and only trivia stands between them. -/
  between : ∀ i t u, f.tokens[i]? = some t → f.tokens[i + 1]? = some u →
    t.stop ≤ u.start ∧ s.Trivia t.stop u.start
  /-- The last token is the end of the text. -/
  last : ∃ t, f.tokens.back? = some t ∧ t.kind = .eof ∧ s.size ≤ t.start
  /-- No other token starts there. -/
  unique : ∀ i t, f.tokens[i]? = some t → s.size ≤ t.start → i + 1 = f.tokens.size

open Grammar

/-- Consuming the end of the text in a tiled state leaves tokens that tile the whole text. -/
theorem tiles_of_next {s : Source} {d : Dialect} {recur : Goal → Step Bool} {σ τ : State}
    (htiled : Tiled s σ) (hkind : σ.current.kind = .eof)
    (hrun : Parse.next ⟨s, d, recur⟩ σ = .ok ((), τ)) (hnone : τ.error? = none)
    (scopes : Array Scope) : Tiles s ⟨τ.tokens, scopes⟩ := by
  have hlast : τ.tokens = σ.pushed.tokens := (Parse.readCode_ok (σ := σ.pushed) hrun).1
  have hτ := (advances_of_next hrun).tiled hnone htiled
  obtain ⟨i, hchain, -⟩ := hτ.tokens
  have hspan : ∀ {k : Nat} {t : Token}, τ.tokens[k]? = some t →
      τ.spans[k]? = some (t.start, t.stop) := by
    intro k t ht
    simp [State.spans, ht]
  constructor
  · intro t ht
    obtain ⟨hle, hstart, hstop⟩ := hchain.span_ok (x := (t.start, t.stop))
      (List.mem_map.2 ⟨t, Array.mem_toList_iff.2 ht, rfl⟩)
    exact ⟨hle, Source.le_size_of_isBoundary hstop, hstart, hstop⟩
  · intro t ht
    exact hchain.leading (hspan ht)
  · intro k t u ht hu
    have htrivia := hchain.between (hspan ht) (hspan hu)
    exact ⟨htrivia.le, htrivia⟩
  · refine ⟨{ toLexeme := σ.current, scopeDepth := σ.scopeDepth, isType := σ.isType }, ?_, hkind,
      htiled.atEnd hkind⟩
    simp [hlast, State.pushed]
  · intro k t ht hend
    have hk : k < τ.spans.length := (List.getElem?_eq_some_iff.1 (hspan ht)).1
    have hlength : τ.spans.length = τ.tokens.size := by simp [State.spans]
    change k + 1 = τ.tokens.size
    apply Nat.le_antisymm (by omega)
    apply Nat.le_of_not_lt
    intro hlt
    have hmem : (t.start, t.stop) ∈ τ.spans.dropLast := by
      refine List.mem_of_getElem? (i := k) ?_
      rw [List.getElem?_dropLast, if_pos (by omega)]
      exact hspan ht
    exact absurd (hτ.early _ hmem) (Nat.not_lt.2 hend)

/-- Parsing leaves tokens that tile the source. -/
theorem tiles_of_ofSource {s : Source} {d : Dialect} {f : AnnotatedFile}
    (h : ofSource s d = .ok f) : f.Tiles s := by
  rw [ofSource] at h
  split at h
  case isTrue => cases h
  case isFalse =>
    split at h
    case h_1 => cases h
    case h_2 τ hparse =>
      split at h
      case h_1 => cases h
      case h_2 hnone =>
        cases h
        obtain ⟨υ, ω, recur, htiled, hkind, hnext, hclear, htokens⟩ := parse_ok hparse hnone
        rw [htokens]
        exact tiles_of_next htiled hkind hnext hclear τ.scopes

/-- A file with an interpreter line, comments of both kinds, a regular expression with flags and a
template, with characters of more than one byte in all of them. -/
theorem tiles_of_ofSource_mixed :
    ∃ s f, s.text = "#!é\n/*é*/ a = /é/g + `é$\x7bb\x7d`//é" ∧ ofSource s {} = .ok f ∧
      (f.tokens.toList.map fun t => (t.start, t.stop)) =
        [(12, 13), (14, 15), (16, 21), (22, 23), (24, 25), (25, 27), (27, 29), (29, 30), (30, 31),
          (31, 31), (31, 32), (36, 36)] ∧
      f.Tiles s := by
  let s := Source.ofText "#!é\n/*é*/ a = /é/g + `é$\x7bb\x7d`//é"
  have hspans : ((ofSource s {}).toOption.map fun f => f.tokens.toList.map fun t =>
      (t.start, t.stop)) = some
        [(12, 13), (14, 15), (16, 21), (22, 23), (24, 25), (25, 27), (27, 29), (29, 30), (30, 31),
          (31, 31), (31, 32), (36, 36)] := by
    decide +kernel
  cases hfile : ofSource s {} with
  | error e =>
    rw [hfile] at hspans
    cases hspans
  | ok f =>
    rw [hfile] at hspans
    exact ⟨s, f, rfl, hfile, Option.some.inj hspans, tiles_of_ofSource hfile⟩

end PlainScript.AnnotatedFile
