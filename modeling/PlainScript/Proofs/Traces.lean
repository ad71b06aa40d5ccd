import PlainScript.Proofs.Reasons

/-!
# Traces of the writer

What a part of the writer does to the output is a list of pieces, token by token. `Trace` says what
can be on such a list: code between the tokens, what is written for a token, and what a task has
written for a token and those it takes along. A trace keeps what several statements about the output
rest on: how much of a gap is written, whether the line feeds of a token are, and which tokens are
handled by a task of their own.

`Traces` says that a part of the writer leaves a trace. It is shown for every part, by its shape, and
asks at each token for the reasons why it may be written as it is.
-/

namespace PlainScript.Emit

-- Counted in combinators.
set_option synthInstance.maxSize 100000

/-! ## What one write appends -/

/-- The state with more code that stands for no token, and with other calls. -/
def State.adding (σ : State) (codes : List String) (called : List SupportFunction) : State :=
  { σ with output := (σ.output.toList ++ codes.map Piece.added).toArray, called }

/-- What is written to call a support function at the token at an index. -/
def Setting.callCode (s : Setting) (i : Nat) (f : SupportFunction) (rest : String) : String :=
  (if s.tape.isAsyncStart i then "await " else "") ++ s.support.name f ++ rest

/-- What the call for a nullish operation that starts at the token at an index begins with. -/
def Setting.nullishCall (s : Setting) (i : Nat) : String :=
  s.callCode i (if s.tape.isAsyncStart i then .asyncNullishCoalesce else .nullishCoalesce) "("

/-- What the call for a chain that starts at the token at an index begins with. -/
def Setting.chainCall (s : Setting) (i : Nat) : String :=
  s.callCode i (chainFunction ((s.tape.before i).kind == .deleteWord) (s.tape.isAsyncStart i)) "(["

/-- How many calls for nullish operations are opened before the token at an index; none are where
recent syntax stays. -/
def Setting.nullishOpened (s : Setting) (i : Nat) : Nat :=
  if s.options.disableESTransforms then 0 else (s.tape.get i).nullishStarts

/-- How many of them are closed after it. -/
def Setting.nullishClosed (s : Setting) (i : Nat) : Nat :=
  if s.options.disableESTransforms then 0 else (s.tape.get i).nullishEnds

/-- The calls that are opened before the token at an index. -/
def Setting.opening (s : Setting) (i : Nat) : List String :=
  List.replicate (s.nullishOpened i) (s.nullishCall i) ++
    if !s.options.disableESTransforms && (s.tape.get i).isChainStart then [s.chainCall i] else []

/-- The calls that are closed after it. -/
def Setting.closing (s : Setting) (i : Nat) : List String :=
  (if !s.options.disableESTransforms && (s.tape.get i).isChainEnd then ["])"] else []) ++
    List.replicate (s.nullishClosed i) "))"

section

variable {s : Setting} {recur : Task → Step Unit} {σ τ : State}

instance : OneLine s "await " := ⟨fun _ => by decide⟩

instance : OneLine s "(" := ⟨fun _ => by decide⟩

instance : OneLine s "([" := ⟨fun _ => by decide⟩

instance : OneLine s "])" := ⟨fun _ => by decide⟩

instance : OneLine s "))" := ⟨fun _ => by decide⟩

theorem oneLine_of_mem_opening {i : Nat} {c : String} (hc : c ∈ s.opening i) : OneLine s c := by
  have hcall (f : SupportFunction) (rest : String) [OneLine s rest] : OneLine s (s.callCode i f rest) := by
    unfold Setting.callCode
    infer_instance
  unfold Setting.opening at hc
  obtain hc | hc := List.mem_append.1 hc
  · rw [(List.mem_replicate.1 hc).2]
    exact hcall _ _
  · split at hc
    · rw [List.mem_singleton.1 hc]
      exact hcall _ _
    · cases hc

theorem oneLine_of_mem_closing {i : Nat} {c : String} (hc : c ∈ s.closing i) : OneLine s c := by
  unfold Setting.closing at hc
  obtain hc | hc := List.mem_append.1 hc
  · split at hc
    · rw [List.mem_singleton.1 hc]
      infer_instance
    · cases hc
  · rw [(List.mem_replicate.1 hc).2]
    infer_instance

@[simp] theorem State.adding_adding (codes more : List String) (called called' : List SupportFunction) :
    (σ.adding codes called).adding more called' = σ.adding (codes ++ more) called' := by
  simp [State.adding]

theorem adding_of_add {code : String} (hrun : add code ⟨s, recur⟩ σ = .ok ((), τ)) :
    τ = σ.adding [code] σ.called := by
  cases hrun
  rw [State.adding, List.map_singleton, ← Array.toList_push, Array.toArray_toList]

/-- A call of a support function is written after the word that waits for it. -/
theorem adding_of_call {f : SupportFunction} {wait rest : String} {u : Unit}
    (hrun : (do add (wait ++ (← callSupport f) ++ rest)) ⟨s, recur⟩ σ = .ok (u, τ)) :
    ∃ called, τ = σ.adding [wait ++ s.support.name f ++ rest] called := by
  obtain ⟨name, _, hname, hadd⟩ := bind_ok hrun
  cases hname
  have hτ := adding_of_add hadd
  exact ⟨_, hτ⟩

theorem adding_of_forIn {α β : Type} {xs : List α} {x y : β} {round : α → β → Emit (ForInStep β)}
    {c : String} (hround : ∀ a x σ τ step, round a x ⟨s, recur⟩ σ = .ok (step, τ) →
      (∃ x', step = .yield x') ∧ ∃ called, τ = σ.adding [c] called)
    (hrun : (forIn xs x round) ⟨s, recur⟩ σ = .ok (y, τ)) :
    ∃ called, τ = σ.adding (List.replicate xs.length c) called := by
  induction xs generalizing x σ with
  | nil =>
    cases hrun
    exact ⟨τ.called, by simp [State.adding]⟩
  | cons a xs ih =>
    rw [List.forIn_cons] at hrun
    obtain ⟨step, υ, hfirst, hrest⟩ := bind_ok hrun
    obtain ⟨⟨x', rfl⟩, called, rfl⟩ := hround a x _ _ step hfirst
    obtain ⟨called', rfl⟩ := ih hrest
    exact ⟨called', by simp [List.replicate_succ]⟩

theorem adding_of_openCalls (hrun : openCalls ⟨s, recur⟩ σ = .ok ((), τ)) :
    (∃ called, τ = σ.adding (s.opening σ.index) called) ∧
      (s.options.disableESTransforms = true → τ = σ) := by
  unfold openCalls at hrun
  obtain ⟨v, _, hview, hrun⟩ := bind_ok hrun
  cases hview
  obtain ⟨o, _, hoptions, hrun⟩ := bind_ok hrun
  cases hoptions
  unfold Setting.opening Setting.nullishOpened
  split at hrun
  next hdisabled =>
    cases hrun
    have hdisabled : s.options.disableESTransforms = true := hdisabled
    exact ⟨⟨σ.called, by simp [State.adding, hdisabled]⟩, fun _ => rfl⟩
  next hrecent =>
    refine ⟨?_, fun hdisabled => absurd hdisabled hrecent⟩
    have hrecent : s.options.disableESTransforms = false := Bool.eq_false_iff.2 hrecent
    obtain ⟨u, υ, hloop, hchain⟩ := bind_ok hrun
    obtain ⟨called, rfl⟩ := adding_of_forIn (c := s.nullishCall σ.index) (fun _ _ ρ ρ' step hround => by
      obtain ⟨name, _, hname, hround⟩ := bind_ok hround
      obtain ⟨u, _, hadd, hyield⟩ := bind_ok hround
      cases hyield
      cases hname
      have hτ := adding_of_add hadd
      exact ⟨⟨_, rfl⟩, _, hτ⟩) hloop
    rw [List.length_range] at hchain
    split at hchain
    next hstart =>
      obtain ⟨called', rfl⟩ := adding_of_call hchain
      have hstart : (s.tape.get σ.index).isChainStart = true := hstart
      refine ⟨called', ?_⟩
      rw [hrecent, hstart, State.adding_adding]
      rfl
    next hstart =>
      cases hchain
      have hstart : (s.tape.get σ.index).isChainStart = false := Bool.eq_false_iff.2 hstart
      refine ⟨called, ?_⟩
      rw [hrecent, hstart]
      exact congrArg (σ.adding · called) (List.append_nil _).symm

theorem adding_of_closeCalls (hrun : closeCalls ⟨s, recur⟩ σ = .ok ((), τ)) :
    (∃ called, τ = σ.adding (s.closing σ.index) called) ∧
      (s.options.disableESTransforms = true → τ = σ) := by
  have hloops {n : Nat} {ρ ρ' : State} {u : PUnit}
      (hρ : (do
        for _ in List.range n do
          add "))") ⟨s, recur⟩ ρ = .ok (u, ρ')) :
      ∃ called, ρ' = ρ.adding (List.replicate n "))") called := by
    obtain ⟨_, _, hloop, hend⟩ := bind_ok hρ
    cases hend
    obtain ⟨called, rfl⟩ := adding_of_forIn (c := "))") (fun _ _ ρ ρ' step hround => by
      obtain ⟨u, _, hadd, hyield⟩ := bind_ok hround
      cases hyield
      exact ⟨⟨_, rfl⟩, _, adding_of_add hadd⟩) hloop
    exact ⟨called, by rw [List.length_range]⟩
  unfold closeCalls at hrun
  obtain ⟨v, _, hview, hrun⟩ := bind_ok hrun
  cases hview
  obtain ⟨o, _, hoptions, hrun⟩ := bind_ok hrun
  cases hoptions
  unfold Setting.closing Setting.nullishClosed
  split at hrun
  next hdisabled =>
    cases hrun
    have hdisabled : s.options.disableESTransforms = true := hdisabled
    exact ⟨⟨σ.called, by simp [State.adding, hdisabled]⟩, fun _ => rfl⟩
  next hrecent =>
    refine ⟨?_, fun hdisabled => absurd hdisabled hrecent⟩
    have hrecent : s.options.disableESTransforms = false := Bool.eq_false_iff.2 hrecent
    split at hrun
    next hend =>
      obtain ⟨u, υ, hadd, hloop⟩ := bind_ok hrun
      cases adding_of_add hadd
      obtain ⟨called, rfl⟩ := hloops hloop
      have hend : (s.tape.get σ.index).isChainEnd = true := hend
      refine ⟨called, ?_⟩
      rw [hrecent, hend, State.adding_adding]
      rfl
    next hend =>
      obtain ⟨called, rfl⟩ := hloops hrun
      have hend : (s.tape.get σ.index).isChainEnd = false := Bool.eq_false_iff.2 hend
      refine ⟨called, ?_⟩
      rw [hrecent, hend]
      rfl

end

/-- The pieces of what is written for one token: calls and other code around what the token becomes. -/
def Setting.written (s : Setting) (i : Nat) (form : GapForm) (before code : String) : List Piece :=
  .gap i (s.gapText form i) ::
    (s.opening i ++ if before.isEmpty then [] else [before]).map .added ++
      .token i code :: (s.closing i).map .added

/-- The state after pieces have been written, and the cursor has moved on. -/
def State.moved (σ : State) (pieces : List Piece) (called : List SupportFunction) : State :=
  { σ with index := σ.index + 1, output := (σ.output.toList ++ pieces).toArray, called }

theorem moved_of_write {s : Setting} {recur : Task → Step Unit} {σ τ : State} {form : GapForm}
    {before code : String}
    (hrun : write (s.gapText form σ.index) before code ⟨s, recur⟩ σ = .ok ((), τ)) :
    ∃ called, τ = σ.moved (s.written σ.index form before code) called := by
  unfold write at hrun
  obtain ⟨v, _, hview, hrun⟩ := bind_ok hrun
  cases hview
  obtain ⟨_, _, hgap, hrun⟩ := bind_ok hrun
  cases hgap
  obtain ⟨_, υ, hopen, hrun⟩ := bind_ok hrun
  obtain ⟨⟨called, rfl⟩, -⟩ := adding_of_openCalls hopen
  -- The code before the token is optional; both ways end in the same three steps.
  have hlast (given : List String) (hgiven : given = if before.isEmpty then [] else [before])
      (ρ : State) (hρ : ρ = ({ σ with output := σ.output.push (.gap σ.index (s.gapText form σ.index)) } :
        State).adding (s.opening σ.index ++ given) called)
      (htoken : (do
        push (.token σ.index code)
        closeCalls
        modify fun σ => { σ with index := σ.index + 1 } : Emit Unit) ⟨s, recur⟩ ρ = .ok ((), τ)) :
      ∃ called, τ = σ.moved (s.written σ.index form before code) called := by
    subst hρ hgiven
    obtain ⟨_, _, hpush, htoken⟩ := bind_ok htoken
    cases hpush
    obtain ⟨_, ω, hclose, hmove⟩ := bind_ok htoken
    cases hmove
    obtain ⟨⟨called', rfl⟩, -⟩ := adding_of_closeCalls hclose
    exact ⟨called', by simp [State.moved, State.adding, Setting.written]⟩
  split at hrun
  next hempty => exact hlast [] (by rw [if_pos hempty]) _ (by simp) hrun
  next hcode =>
    obtain ⟨_, _, hadd, hrun⟩ := bind_ok hrun
    cases adding_of_add hadd
    exact hlast [before] (by rw [if_neg hcode]) _ (by rw [State.adding_adding]; rfl) hrun

/-- A part of the writer that writes the token at an index as a given code, with other code before
it, and moves on. -/
class Puts (s : Setting) (i : Nat) (e : Emit Unit) (form : outParam GapForm)
    (before code : outParam String) : Prop where
  puts {recur : Task → Step Unit} {σ τ : State} (hindex : σ.index = i)
    (hrun : e ⟨s, recur⟩ σ = .ok ((), τ)) :
    ∃ called, τ = σ.moved (s.written i form before code) called

section

variable {s : Setting} {i : Nat} {form : GapForm} {before code : String}

theorem puts_write (form : GapForm) :
    Puts s i (write (s.gapText form i) before code) form before code where
  puts hindex hrun := by
    subst hindex
    exact moved_of_write hrun

theorem puts_writeGap : Puts s i (write (s.gapAt i) before code) .whole before code :=
  puts_write .whole

theorem puts_writeBreaks :
    Puts s i (write (lineBreaksOf (s.gapAt i)) before code) .lineBreaks before code :=
  puts_write .lineBreaks

theorem gap_ok {recur : Task → Step Unit} {σ τ : State} {text : String}
    (hrun : gap ⟨s, recur⟩ σ = .ok (text, τ)) : text = s.gapAt σ.index ∧ τ = σ := by
  unfold gap at hrun
  obtain ⟨v, _, hview, hrun⟩ := bind_ok hrun
  cases hview
  obtain ⟨o, _, hoptions, hrun⟩ := bind_ok hrun
  cases hoptions
  unfold Setting.gapAt
  dsimp only at hrun ⊢
  split at hrun
  next hflow =>
    cases hrun
    exact ⟨by rw [if_pos hflow], rfl⟩
  next hflow =>
    cases hrun
    exact ⟨by rw [if_neg hflow], rfl⟩

theorem puts_of_gap {f : String → Emit Unit} (hf : Puts s i (f (s.gapAt i)) form before code) :
    Puts s i (gap >>= f) form before code where
  puts hindex hrun := by
    obtain ⟨text, υ, hgap, hrest⟩ := bind_ok hrun
    obtain ⟨rfl, rfl⟩ := gap_ok hgap
    rw [hindex] at hrest
    exact hf.puts hindex hrest

theorem puts_of_view {f : View → Emit Unit} (hf : Puts s i (f ⟨s.tape, i⟩) form before code) :
    Puts s i (view >>= f) form before code where
  puts hindex hrun := by
    subst hindex
    exact hf.puts rfl hrun

instance puts_replace (code : String) : Puts s i (replace code) .whole "" code :=
  puts_of_gap puts_writeGap

instance puts_replaceTrimmed (code : String) : Puts s i (replaceTrimmed code) .lineBreaks "" code :=
  puts_of_gap puts_writeBreaks

instance : Puts s i removeFirst .whole "" "" := puts_replace ""

instance puts_remove : Puts s i remove .lineBreaks "" "" := puts_replaceTrimmed ""

instance puts_copy : Puts s i copy .whole "" (s.tape.text i) :=
  puts_of_gap (puts_of_view puts_writeGap)

instance (code : String) : Puts s i (copyAfter code) .whole code (s.tape.text i) :=
  puts_of_gap (puts_of_view puts_writeGap)

end

/-! ## Traces -/

/-- A task that handles a token: where it starts and ends, and what it appends. -/
def TokenRun (s : Setting) (i j : Nat) (pieces : List Piece) : Prop :=
  ∃ (recur : Task → Step Unit) (σ τ : State), token ⟨s, recur⟩ σ = .ok ((), τ) ∧
    σ.index = i ∧ τ.index = j ∧ τ.output.toList = σ.output.toList ++ pieces

/-- What is written for one token: its gap, and code around the token and in its place. -/
structure Writing (s : Setting) (h i : Nat) (form : GapForm) (before code : String) : Prop where
  within : Within s h i
  trims : Trims s i form
  lines : SameLines s i code
  before : OneLine s before

/-- What a part of the writer appends between two indices, in the course of a task that has started
at the index `h`. -/
inductive Trace (s : Setting) : Nat → Nat → Nat → List Piece → Prop
  | nil {h i : Nat} : Trace s h i i []
  | add {h i j : Nat} {pieces : List Piece} {code : String} (htrace : Trace s h i j pieces)
      (hcode : OneLine s code) (hlater : Later s j) : Trace s h i j (pieces ++ [.added code])
  | write {h i j : Nat} {pieces : List Piece} {form : GapForm} {before code : String}
      (htrace : Trace s h i j pieces) (hwriting : Writing s h j form before code) :
      Trace s h i (j + 1) (pieces ++ s.written j form before code)
  | task {h i j k : Nat} {pieces more : List Piece} (htrace : Trace s h i j pieces)
      (hrun : TokenRun s j k more) (htask : Trace s j j k more) : Trace s h i k (pieces ++ more)

namespace Trace

variable {s : Setting} {h i j k : Nat} {pieces more : List Piece}

theorem append (hfirst : Trace s h i j pieces) (hrest : Trace s h j k more) :
    Trace s h i k (pieces ++ more) := by
  induction hrest with
  | nil => simpa using hfirst
  | add _ hcode hlater ih =>
    rw [← List.append_assoc]
    exact (ih hfirst).add hcode hlater
  | write _ hwriting ih =>
    rw [← List.append_assoc]
    exact (ih hfirst).write hwriting
  | task _ hrun htask ih _ =>
    rw [← List.append_assoc]
    exact (ih hfirst).task hrun htask

theorem le (htrace : Trace s h i j pieces) : i ≤ j := by
  induction htrace with
  | nil => exact Nat.le_refl _
  | add _ _ _ ih => exact ih
  | write _ _ ih => exact Nat.le_succ_of_le ih
  | task _ _ _ ih ih' => exact Nat.le_trans ih ih'

end Trace

/-- The names that the writer has taken have no line feeds. -/
structure State.Tidy (s : Setting) (σ : State) : Prop where
  fileNameVariable {name : String} (h : σ.fileNameVariable? = some name) : OneLine s name
  variableNames {name : String} (h : name ∈ σ.variableNames) : OneLine s name
  mockFunctions {name : String} (h : name ∈ σ.mockFunctions) : OneLine s name

/-- The second state is reached from the first one with a trace. The code for a path is claimed only
where it is written. -/
structure State.Traced (s : Setting) (h : Nat) (σ τ : State) : Prop where
  tidy : τ.Tidy s
  trace : ∃ pieces, τ.output.toList = σ.output.toList ++ pieces ∧
    Trace s h σ.index τ.index pieces ∧ ∀ path ∈ τ.claimedPaths, path ∈ σ.claimedPaths ∨
      ∃ i, Piece.token i (s.plan.codeFor path) ∈ pieces

namespace State.Traced

variable {s : Setting} {h : Nat} {σ τ υ : State}

theorem of_eq (htidy : τ.Tidy s) (hindex : τ.index = σ.index) (houtput : τ.output = σ.output)
    (hclaimed : τ.claimedPaths = σ.claimedPaths) : σ.Traced s h τ where
  tidy := htidy
  trace := ⟨[], by simp [houtput], hindex ▸ .nil, fun path hpath => .inl (hclaimed ▸ hpath)⟩

theorem refl (htidy : σ.Tidy s) : σ.Traced s h σ := of_eq htidy rfl rfl rfl

theorem trans (hστ : σ.Traced s h τ) (hτυ : τ.Traced s h υ) : σ.Traced s h υ where
  tidy := hτυ.tidy
  trace := by
    obtain ⟨pieces, houtput, htrace, hclaims⟩ := hστ.trace
    obtain ⟨more, houtput', htrace', hclaims'⟩ := hτυ.trace
    refine ⟨pieces ++ more, by rw [houtput', houtput, List.append_assoc], htrace.append htrace', ?_⟩
    intro path hpath
    obtain hold | ⟨i, hnew⟩ := hclaims' path hpath
    · obtain hold | ⟨i, hnew⟩ := hclaims path hold
      · exact .inl hold
      · exact .inr ⟨i, List.mem_append_left _ hnew⟩
    · exact .inr ⟨i, List.mem_append_right _ hnew⟩

theorem index_le (hστ : σ.Traced s h τ) : σ.index ≤ τ.index := by
  obtain ⟨_, _, htrace, _⟩ := hστ.trace
  exact htrace.le

theorem exists_add (hστ : σ.Traced s h τ) : ∃ k, τ.index = σ.index + k :=
  Nat.exists_eq_add_of_le hστ.index_le

theorem of_moved (htidy : σ.Tidy s) {form : GapForm} {before code : String}
    {called : List SupportFunction} (hwriting : Writing s h σ.index form before code)
    (hτ : τ = σ.moved (s.written σ.index form before code) called) : σ.Traced s h τ := by
  subst hτ
  refine ⟨⟨htidy.fileNameVariable, htidy.variableNames, htidy.mockFunctions⟩,
    s.written σ.index form before code, by simp [State.moved], ?_, fun path hpath => .inl hpath⟩
  exact Trace.nil.write hwriting

end State.Traced

/-- What has to hold where a task is asked for: elements are written only if they are to be replaced,
and where one starts. -/
def Asks (s : Setting) (task : Task) (i : Nat) : Prop :=
  task = .element → s.options.has .jsx = true ∧ s.tape.kind i = .jsxTagStart

/-- The kinds of tokens that close what was open before, or end the text. -/
def closingKinds : List TokenKind := [.braceClose, .parenClose, .eof]

/-- Tasks leave traces, in the course of whatever task. -/
def TracesTasks (s : Setting) (recur : Task → Step Unit) : Prop :=
  ∀ (task : Task) (σ τ : State) (h : Nat), Asks s task σ.index → σ.Tidy s →
    recur task σ = .ok ((), τ) → σ.Traced s h τ ∧
      (task = .balanced → s.tape.hasOneOf τ.index closingKinds = true)

/-- Leaving a trace. -/
def tracing (s : Setting) (h : Nat) : Course where
  Tasks := TracesTasks s
  Fit σ := σ.Tidy s
  Rel σ τ := σ.Traced s h τ
  refl := .refl
  trans := .trans
  fit h := h.tidy
  index_le := State.Traced.index_le

/-- A part of the writer that starts at an index leaves a trace. -/
abbrev Traces (s : Setting) (h i : Nat) {α : Type} (e : Emit α) : Prop := Takes (tracing s h) s i e

/-- The same with what is known about its answer and its end. -/
abbrev TracesTo (s : Setting) (h i : Nat) {α : Type} (Q : α → Nat → Prop) (e : Emit α) : Prop :=
  TakesTo (tracing s h) s i Q e

theorem Traces.traces {s : Setting} {h i : Nat} {α : Type} {e : Emit α} (he : Traces s h i e)
    {recur : Task → Step Unit} {σ τ : State} {a : α} (hrecur : TracesTasks s recur) (htidy : σ.Tidy s)
    (hindex : σ.index = i) (hrun : e ⟨s, recur⟩ σ = .ok (a, τ)) : σ.Traced s h τ :=
  he.takes hrecur htidy hindex hrun

theorem Traces.of {s : Setting} {h i : Nat} {α : Type} {e : Emit α}
    (he : ∀ {recur : Task → Step Unit} {σ τ : State} {a : α}, TracesTasks s recur → σ.Tidy s →
      σ.index = i → e ⟨s, recur⟩ σ = .ok (a, τ) → σ.Traced s h τ) : Traces s h i e :=
  ⟨he⟩

/-- A kind of token that starts no import or export statement. -/
class Plain (kind : TokenKind) : Prop where
  contains : statementWords.contains kind = false

instance : Plain .classWord := ⟨by decide⟩

instance : Plain .braceOpen := ⟨by decide⟩

instance : Plain .braceClose := ⟨by decide⟩

instance : Plain .parenOpen := ⟨by decide⟩

instance : Plain .parenClose := ⟨by decide⟩

instance : Plain .name := ⟨by decide⟩

instance : Plain .dot := ⟨by decide⟩

instance : Plain .star := ⟨by decide⟩

theorem traced_of_puts {s : Setting} {h i : Nat} {e : Emit Unit} {form : GapForm}
    {before code : String} [hputs : Puts s i e form before code] [hwithin : Within s h i]
    [htrims : Trims s i form] [hlines : SameLines s i code] [hbefore : OneLine s before]
    {recur : Task → Step Unit} {σ τ : State} (htidy : σ.Tidy s) (hindex : σ.index = i)
    (hrun : e ⟨s, recur⟩ σ = .ok ((), τ)) : σ.Traced s h τ ∧ τ.index = i + 1 := by
  obtain ⟨called, hτ⟩ := hputs.puts hindex hrun
  subst hindex
  exact ⟨.of_moved htidy ⟨hwithin, htrims, hlines, hbefore⟩ hτ, by rw [hτ]; rfl⟩

instance Traces.ofPuts {s : Setting} {h i : Nat} (e : Emit Unit) (form : GapForm) (before code : String)
    [Puts s i e form before code] [Within s h i] [Trims s i form] [SameLines s i code]
    [OneLine s before] : Traces s h i e :=
  .of fun _ htidy hindex hrun => (traced_of_puts htidy hindex hrun).1

/-! ## Parts with what is known about their end -/

namespace TracesTo

variable {s : Setting} {h i : Nat} {α β : Type} {Q : α → Nat → Prop} {P : β → Nat → Prop}

theorem afterTidy {f : State → Emit α} (hf : ∀ σ : State, σ.Tidy s → TracesTo s h i Q (f σ)) :
    TracesTo s h i Q (MonadState.get >>= f) :=
  fun recur σ τ a hrecur htidy hindex hrun => hf σ htidy recur σ τ a hrecur htidy hindex hrun

theorem afterName {base : String} [hbase : OneLine s base] {f : String → Emit α}
    (hf : ∀ name, OneLine s name → TracesTo s h i Q (f name)) :
    TracesTo s h i Q (Emit.claimName base >>= f) := by
  intro recur σ τ a hrecur htidy hindex hrun
  obtain ⟨name, υ, hclaim, hrest⟩ := bind_ok hrun
  cases hclaim
  have hname : OneLine s (σ.names.free base) := ⟨fun hs => Names.lineFeeds_free _ (hbase.lineFeeds hs)⟩
  have hυ : State.Traced s h σ { σ with names := (σ.names.claim base).2 } :=
    .of_eq ⟨htidy.fileNameVariable, htidy.variableNames, htidy.mockFunctions⟩ rfl rfl rfl
  obtain ⟨hτ, hQ⟩ := hf _ hname recur _ τ a hrecur hυ.tidy hindex hrest
  exact ⟨hυ.trans hτ, hQ⟩

theorem copyExpected {kind : TokenKind} (hwithin : s.tape.kind i = kind → Within s h i)
    {Q : Unit → Nat → Prop} (hQ : s.tape.kind i = kind → Q () (i + 1)) :
    TracesTo s h i Q (Emit.copyExpected kind) := by
  unfold Emit.copyExpected
  refine .view ?_
  split
  next hkind =>
    have hkind : s.tape.kind i = kind := beq_iff_eq.1 hkind
    have := hwithin hkind
    exact .ofWrites (hQ hkind)
  next => exact .fail _

end TracesTo

/-! ## Parts by their shape -/

namespace Traces

variable {s : Setting} {h i : Nat} {α β : Type}

instance (a : α) (f : α → Emit β) [hf : Traces s h i (f a)] : Traces s h i (Pure.pure a >>= f) := by
  rw [pure_bind]
  exact hf

instance afterCallSupport (f : SupportFunction) (g : String → Emit α)
    [hg : Traces s h i (g (s.support.name f))] : Traces s h i (Emit.callSupport f >>= g) :=
  .of fun {recur σ τ a} hrecur htidy hindex hrun => by
    obtain ⟨name, υ, hcall, hrest⟩ := bind_ok hrun
    cases hcall
    have hυ : State.Traced s h σ { σ with called := σ.called.insert f } :=
      .of_eq ⟨htidy.fileNameVariable, htidy.variableNames, htidy.mockFunctions⟩ rfl rfl rfl
    exact hυ.trans (hg.traces hrecur hυ.tidy hindex hrest)

theorem afterName {base : String} [OneLine s base] {f : String → Emit α}
    (hf : ∀ name, OneLine s name → Traces s h i (f name)) :
    Traces s h i (Emit.claimName base >>= f) :=
  (TracesTo.afterName (Q := fun _ _ => True) fun name hname =>
    have := hf name hname
    .of_takes).takes

instance (base : String) [OneLine s base] (f : String → Emit α)
    [hf : ∀ name : { name : String // OneLine s name }, Traces s h i (f name.1)] :
    Traces s h i (Emit.claimName base >>= f) :=
  afterName fun name hname => hf ⟨name, hname⟩

instance reachToken : Traces s h i (Emit.reach .token) :=
  .of fun hrecur htidy _ hrun => (hrecur .token _ _ _ nofun htidy hrun).1

instance reachBalanced : Traces s h i (Emit.reach .balanced) :=
  .of fun hrecur htidy _ hrun => (hrecur .balanced _ _ _ nofun htidy hrun).1

instance flags (names called exports default? lines) :
    Traces s h i (changeState State.output names called State.variableNames State.claimedPaths exports
      default? State.fileNameVariable? lines State.mockFunctions) :=
  .of fun _ htidy _ hrun => by
    cases hrun
    exact .of_eq ⟨htidy.fileNameVariable, htidy.variableNames, htidy.mockFunctions⟩ rfl rfl rfl

/-! ## Output -/

instance add (code : String) [hcode : OneLine s code] [hlater : Later s i] :
    Traces s h i (Emit.add code) :=
  .of fun _ htidy hindex hrun => by
    cases hrun
    refine ⟨⟨htidy.fileNameVariable, htidy.variableNames, htidy.mockFunctions⟩, [.added code],
      Array.toList_push, ?_, fun path hpath => .inl hpath⟩
    exact Trace.nil.add hcode (hindex ▸ hlater)

instance afterPuts (e : Emit Unit) (form : GapForm) (before code : String) (f : Unit → Emit α)
    [Puts s i e form before code] [Within s h i] [Trims s i form] [SameLines s i code]
    [OneLine s before] [hf : ∀ u, Traces s h (i + 1) (f u)] : Traces s h i (e >>= f) :=
  .of fun hrecur htidy hindex hrun => by
    obtain ⟨u, υ, hfirst, hrest⟩ := bind_ok hrun
    obtain ⟨hυ, hnext⟩ := traced_of_puts (h := h) htidy hindex hfirst
    exact hυ.trans ((hf u).traces hrecur hυ.tidy hnext hrest)

theorem afterWrite {e : Emit Unit} {form : GapForm} {before code : String} {f : Unit → Emit α}
    [Puts s i e form before code] [Within s h i] [Trims s i form] [SameLines s i code]
    [OneLine s before] (hf : ∀ u, Traces s h (i + 1) (f u)) : Traces s h i (e >>= f) :=
  afterPuts e form before code f

instance copyExpected (kind : TokenKind) [hkind : Plain kind] :
    Traces s h i (Emit.copyExpected kind) :=
  (TracesTo.copyExpected (Q := fun _ _ => True) (within_of_kind · hkind.contains) fun _ =>
    trivial).takes

theorem afterExpected {kind : TokenKind} {f : Unit → Emit α}
    (hwithin : s.tape.kind i = kind → Within s h i)
    (hf : s.tape.kind i = kind → ∀ u, Traces s h (i + 1) (f u)) :
    Traces s h i (Emit.copyExpected kind >>= f) := by
  refine .afterTo (TracesTo.copyExpected (Q := fun _ j => s.tape.kind i = kind ∧ j = i + 1) hwithin
    fun hkind => ⟨hkind, rfl⟩) fun u _ hk => ?_
  rw [hk.2]
  exact hf hk.1 u

instance afterCopyExpected (kind : TokenKind) (f : Unit → Emit α) [hkind : Plain kind]
    [hf : ∀ u, Traces s h (i + 1) (f u)] : Traces s h i (Emit.copyExpected kind >>= f) :=
  afterExpected (within_of_kind · hkind.contains) fun _ => hf

end Traces

/-! ## The operations of the cursor -/

section

variable {s : Setting} {h i : Nat}

instance : Traces s h i processToken := Traces.reachToken

instance : Traces s h i processBalanced := Traces.reachBalanced

theorem tracesTo_processBalanced :
    TracesTo s h i (fun _ j => s.tape.hasOneOf j closingKinds = true) processBalanced := by
  intro recur σ τ a hrecur htidy hindex hrun
  obtain ⟨hτ, hkind⟩ := hrecur .balanced σ τ h (fun h => by cases h) htidy hrun
  exact ⟨hτ, hkind rfl⟩

theorem known_of_closing (hkind : s.tape.hasOneOf i closingKinds = true) : Known s i := by
  have hmem : s.tape.kind i ∈ closingKinds := List.contains_iff_mem.1 hkind
  simp only [closingKinds, List.mem_cons, List.not_mem_nil, or_false] at hmem
  obtain hkind | hkind | hkind := hmem <;> exact known_of_kind hkind (by decide)

theorem tracesTo_removeMany {n : Nat} [Later s i] (hknown : ∀ k, k < n → Known s (i + k)) :
    TracesTo s h i (fun _ j => j = i + n) (removeMany n) := by
  induction n generalizing i with
  | zero => exact .pure rfl
  | succ n ih =>
    have : Known s i := hknown 0 (Nat.succ_pos n)
    unfold removeMany
    refine .afterWrites fun _ => (ih fun k hk => ?_).imp fun _ j _ hj => by omega
    rw [Nat.add_assoc, Nat.add_comm 1 k]
    exact hknown (k + 1) (by omega)

theorem tracesTo_removeTo {stop : Nat} [hlater : Later s i] (hle : i ≤ stop)
    (hknown : ∀ j, i ≤ j → j < stop → Known s j) :
    TracesTo s h i (fun _ j => j = stop) (removeTo stop) := by
  refine .loopTo hle fun j hj hlt => ?_
  obtain ⟨k, rfl⟩ := Nat.exists_eq_add_of_le hj
  have := hknown _ hj hlt
  exact .ofWrites rfl

theorem tracesTo_removeIf {kind : TokenKind} [Later s i] (hkinds : (statementWords ++ longKinds).contains kind = false)
    {Q : Nat → Prop} (hyes : s.tape.kind i = kind → Q (i + 1)) (hno : s.tape.kind i ≠ kind → Q i) :
    TracesTo s h i (fun _ j => Q j) (removeIf kind) := by
  unfold removeIf
  refine .view ?_
  split
  next hkind =>
    have hkind : s.tape.kind i = kind := beq_iff_eq.1 hkind
    have := known_of_kind hkind hkinds
    exact .ofWrites (hyes hkind)
  next hkind => exact .pure (hno fun heq => hkind (beq_iff_eq.2 heq))

theorem traces_removeIf {kind : TokenKind} [Later s i]
    (hkinds : (statementWords ++ longKinds).contains kind = false) : Traces s h i (removeIf kind) :=
  (tracesTo_removeIf hkinds (Q := fun _ => True) (fun _ => trivial) fun _ => trivial).takes

instance [Later s i] : Traces s h i (removeIf .comma) := traces_removeIf (by decide)

instance [Later s i] : Traces s h i (removeIf .semicolon) :=
  traces_removeIf (by decide)

end

end PlainScript.Emit
