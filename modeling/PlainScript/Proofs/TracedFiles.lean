import PlainScript.Proofs.GeneratedLines
import PlainScript.Proofs.TracedModules

/-!
# Traces of whole files

Every pass leaves a trace, so every task does, to any depth of nesting, and so does the walk over a
file. In the trace of a file each token is handled by a task of its own, or by the task of a token
before it that may take it along.
-/

namespace PlainScript.Emit

-- Counted in combinators.
set_option synthInstance.maxSize 100000

variable {s : Setting} {h i : Nat}

/-- The options with which a pass is asked for. -/
def Pass.Asked (o : Options) : Pass → Prop
  | optionalChain => o.disableESTransforms = false
  | element => o.has .jsx = true
  | commonJs => o.has .imports = true
  | esModule => o.has .imports = false
  | mocks => o.has .jest = true
  | _ => True

theorem Pass.asked_of_mem {o : Options} {pass : Pass} (hpass : pass ∈ enabled o) : pass.Asked o := by
  simp only [enabled, List.mem_append, List.mem_singleton] at hpass
  cases pass
  case numericSeparator | catchBinding | displayName | types | modifiers | enumerations => trivial
  all_goals
    unfold Asked
    by_contra hnot
    by_cases himports : o.has .imports = true <;> simp_all

/-- A pass that is asked for leaves a trace at the token that a task starts with. -/
theorem traces_run {pass : Pass} (hpass : pass ∈ Pass.enabled s.options) : Traces s i i pass.run := by
  have hasked := Pass.asked_of_mem hpass
  cases pass with
  | optionalChain =>
    have : ReplacesRecent s := ⟨hasked⟩
    exact traces_optionalChainPass
  | numericSeparator => exact traces_numericSeparatorPass
  | catchBinding => exact traces_catchBindingPass
  | element =>
    have : IsJsx s := ⟨hasked⟩
    exact traces_elementPass
  | displayName => exact traces_displayNamePass
  | commonJs =>
    have : BecomesCommonJs s := ⟨hasked⟩
    exact traces_commonJsPass
  | esModule =>
    have : StaysModule s := ⟨hasked⟩
    exact traces_esModulePass
  | types => exact inferInstanceAs (Traces s i i typePass)
  | modifiers => exact traces_modifierPass
  | enumerations => exact traces_enumerationPass
  | mocks => exact traces_mockPass hasked

theorem traces_firstPass {passes : List Pass} (hpasses : ∀ pass ∈ passes, Traces s i i pass.run) :
    Traces s i i (firstPass passes) := by
  induction passes with
  | nil =>
    unfold firstPass
    infer_instance
  | cons pass rest ih =>
    have := hpasses pass List.mem_cons_self
    have := declines_run pass
    have := ih fun other hother => hpasses other (List.mem_cons_of_mem _ hother)
    unfold firstPass
    infer_instance

/-- A token that no pass handles is copied. -/
theorem traces_token : Traces s i i token := by
  have hchoice : Traces s i i (do
      unless ← firstPass (Pass.enabled s.options) do
        copy) := by
    refine .of fun {recur σ τ a} hrecur htidy hindex hrun => ?_
    obtain ⟨handled, υ, hfirst, hrest⟩ := bind_ok hrun
    have hυ := (traces_firstPass fun _ hpass => traces_run hpass).traces hrecur htidy hindex hfirst
    cases handled with
    | true =>
      cases hrest
      exact hυ
    | false =>
      have hplace := State.index_of_place (firstPass_declined hfirst).1
      have hcopy : Traces s i i copy := inferInstance
      exact hυ.trans (hcopy.traces hrecur hυ.tidy (hplace.trans hindex) hrest)
  unfold token
  refine .look ?_
  split
  next hclass => exact traces_classDefinition (beq_iff_eq.1 hclass)
  next => exact @Takes.afterOptions _ _ _ _ _ hchoice

theorem Depth.after?_eq_none {d : Depth} {kind : TokenKind} (hd : d.after? kind = none) :
    closingKinds.contains kind = true := by
  unfold Depth.after? at hd
  split at hd
  all_goals first | decide | cases hd

/-- A balanced part ends where something closes, or at the end of the text. -/
theorem tracesTo_balanced :
    TracesTo s h i (fun _ j => s.tape.hasOneOf j closingKinds = true) balanced := by
  unfold balanced
  refine .discard (.iterate (fun _ _ => True) (fun d j _ => ?_) trivial)
  unfold balancedRound
  refine .view ?_
  split
  next hend =>
    refine .pure ⟨fun _ => elim_done, fun _ _ => ?_⟩
    have hend : s.tape.size ≤ j := by simpa [View.isAtEnd] using hend
    rw [Tape.hasOneOf, kind_of_size_le hend]
    decide
  next =>
    split
    next hclose => exact .pure ⟨fun _ => elim_done, fun _ _ => Depth.after?_eq_none hclose⟩
    next =>
      exact .bind (P := fun _ _ => True) .of_takes fun _ _ _ => .pure ⟨fun _ _ => trivial, fun _ => elim_yield⟩

/-- Tasks leave traces, to any depth. -/
theorem tracesTasks_performFor (n : Nat) : TracesTasks s (performFor s n) := by
  induction n with
  | zero =>
    intro task σ τ h _ _ hrun
    cases hrun
  | succ n ih =>
    intro task σ τ h hasks htidy hrun
    cases task with
    | token =>
      -- What a task writes for a token is a step of the trace around it.
      have hτ := traces_token.takes ih htidy rfl hrun
      obtain ⟨pieces, houtput, htrace, hclaims⟩ := hτ.trace
      refine ⟨⟨hτ.tidy, pieces, houtput, ?_, hclaims⟩, fun h => by cases h⟩
      exact Trace.nil.task ⟨_, σ, τ, hrun, rfl, rfl, houtput⟩ htrace
    | balanced =>
      obtain ⟨hτ, hclose⟩ := tracesTo_balanced _ _ _ _ ih htidy rfl hrun
      exact ⟨hτ, fun _ => hclose⟩
    | element =>
      obtain ⟨hjsx, hstart⟩ := hasks rfl
      have : IsJsx s := ⟨hjsx⟩
      exact ⟨(Element.traces_element hstart).takes ih htidy rfl hrun, fun h => by cases h⟩

/-- What the walk over a file appends: a trace of all its tokens, and the gap after the last one. -/
theorem trace_of_file {σ τ : State} (htidy : σ.Tidy s) (hindex : σ.index = 0) {n : Nat}
    (hrun : file ⟨s, performFor s n⟩ σ = .ok ((), τ)) (h : Nat) :
    ∃ pieces, τ.output.toList = σ.output.toList ++ pieces ++ [.gap τ.index (s.gapAt τ.index)] ∧
      Trace s h 0 τ.index pieces ∧ s.tape.size ≤ τ.index ∧ τ.Tidy s ∧
      ∀ path ∈ τ.claimedPaths, path ∈ σ.claimedPaths ∨
        ∃ i, Piece.token i (s.plan.codeFor path) ∈ pieces := by
  unfold file at hrun
  obtain ⟨_, υ, hbalanced, hrun⟩ := bind_ok hrun
  obtain ⟨hυ, -⟩ := tracesTo_balanced (h := h) _ _ _ _ (tracesTasks_performFor n) htidy rfl hbalanced
  obtain ⟨pieces, houtput, htrace, hclaims⟩ := hυ.trace
  obtain ⟨v, _, hview, hrun⟩ := bind_ok hrun
  cases hview
  split at hrun
  · obtain ⟨_, _, hfail, _⟩ := bind_ok hrun
    cases hfail
  next hend =>
    obtain ⟨text, _, hgap, hpush⟩ := bind_ok hrun
    obtain ⟨rfl, rfl⟩ := gap_ok hgap
    cases hpush
    refine ⟨pieces, ?_, hindex ▸ htrace, ?_, ?_, hclaims⟩
    · simp [houtput]
    · simpa [View.isAtEnd] using hend
    · exact ⟨hυ.tidy.fileNameVariable, hυ.tidy.variableNames, hυ.tidy.mockFunctions⟩

/-- The output is what the walk over the file appends, with code around it. -/
theorem trace_of_codeOf {text code : String} {o : Options} {p : Prepared}
    (hprepare : prepare text o = .ok p) (hcode : Output.codeOf text o = .ok code) (h : Nat) :
    ∃ file σ pieces, IsPrepared text o p file ∧
      Emit.file ⟨p.setting, performFor p.setting (depthLimit p.setting.tape)⟩ p.state = .ok ((), σ) ∧
      code = assemble (prefixCode p.setting σ) (Piece.render σ.output) (suffixCode p.setting σ) ∧
      σ.output.toList = pieces ++ [.gap σ.index (p.setting.gapAt σ.index)] ∧
      Trace p.setting h 0 σ.index pieces ∧ p.setting.tape.size ≤ σ.index ∧ σ.Tidy p.setting ∧
      ∀ path ∈ σ.claimedPaths, ∃ i, Piece.token i (p.setting.plan.codeFor path) ∈ pieces := by
  obtain ⟨p', hprepare', hwrite⟩ := writeFile_of_codeOf hcode
  obtain rfl : p' = p := Except.ok.inj (hprepare'.symm.trans hprepare)
  obtain ⟨σ, hrun, rfl⟩ := file_of_writeFile hwrite
  obtain ⟨file, hp⟩ := exists_isPrepared hprepare
  obtain ⟨-, -, -, names, hstate⟩ := setting_of_prepare hprepare
  have htidy : p'.state.Tidy p'.setting := by
    rw [hstate]
    exact ⟨by simp, by simp, by simp⟩
  obtain ⟨pieces, houtput, htrace, hend, hσ, hclaims⟩ := trace_of_file htidy hp.index hrun h
  refine ⟨file, σ, pieces, hp, hrun, rfl, ?_, htrace, hend, hσ, fun path hpath => ?_⟩
  · rw [houtput, hp.output]
    rfl
  · obtain hold | hnew := hclaims path hpath
    · rw [hstate] at hold
      cases hold
    · exact hnew

end PlainScript.Emit
