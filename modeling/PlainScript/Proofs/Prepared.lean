import PlainScript.Output
import PlainScript.Proofs.Readers

/-!
# Prepared files

What is known about a file when the walk over its tokens starts: its tokens are those of the parser,
but for the marks on names that inner declarations hide.
-/

namespace PlainScript

theorem eq_ok_of_toOption {ε α : Type} {e : Except ε α} {a : α} (h : e.toOption = some a) :
    e = .ok a := by
  cases e with
  | error e => cases h
  | ok b => exact congrArg Except.ok (Option.some.inj h)

/-! ## Marking -/

namespace Shadowing

variable {source : Source} {isGlobal : String → Bool} {i : Nat}

/-- A token without its mark. -/
def unmarked (t : Token) : Token := { t with shadowsGlobal := false }

/-- Two lists of tokens that differ in marks only. -/
def SameButMarks (a b : Array Token) : Prop := a.map unmarked = b.map unmarked

/-- Two lists of tokens that differ in annotations only. -/
def SameLexemes (a b : Array Token) : Prop := a.map Token.toLexeme = b.map Token.toLexeme

theorem SameButMarks.sameLexemes {a b : Array Token} (h : SameButMarks a b) : SameLexemes a b := by
  have hlexemes := congrArg (Array.map Token.toLexeme) h
  rw [Array.map_map, Array.map_map] at hlexemes
  exact hlexemes

theorem markScope_sameButMarks (scope : Scope) (name : String) (tokens : Array Token) :
    SameButMarks (markScope source scope name tokens) tokens := by
  unfold SameButMarks markScope
  ext j hj hj'
  · simp
  · simp only [Array.getElem_map, Array.getElem_mapIdx]
    split <;> rfl

theorem visit_sameButMarks (w : Walk) :
    SameButMarks (visit source isGlobal i w).tokens w.tokens := by
  unfold visit
  split
  · rfl
  · split
    · rfl
    · dsimp only
      split
      · rfl
      · split
        · exact markScope_sameButMarks _ _ _
        · rfl

theorem walk_sameButMarks (n : Nat) (w : Walk) :
    SameButMarks (walk source isGlobal n w).tokens w.tokens := by
  induction n generalizing w with
  | zero => rfl
  | succ n ih => exact (ih _).trans (visit_sameButMarks _)

theorem markShadowed_sameButMarks (source : Source) (isGlobal : String → Bool)
    (scopes : Array Scope) (tokens : Array Token) :
    SameButMarks (markShadowed source isGlobal scopes tokens) tokens := by
  unfold markShadowed
  split
  · exact walk_sameButMarks _ _
  · rfl

end Shadowing

namespace Emit

/-- A file that has been prepared, with what the parser has given for it. -/
structure IsPrepared (text : String) (o : Options) (p : Prepared) (file : AnnotatedFile) : Prop where
  parsed : AnnotatedFile.ofSource (Source.ofText text) (dialectOf o) = .ok file
  options : p.setting.options = o
  index : p.state.index = 0
  output : p.state.output = #[]
  lines : p.state.lines = {}
  source : p.setting.tape.source = Source.ofText text
  tokens : Shadowing.SameButMarks p.setting.tape.tokens
    (Tape.ofTokens (Source.ofText text) file.tokens).tokens

theorem exists_isPrepared {text : String} {o : Options} {p : Prepared} (h : prepare text o = .ok p) :
    ∃ file, IsPrepared text o p file := by
  unfold prepare at h
  cases hfile : AnnotatedFile.ofSource (Source.ofText text) (dialectOf o) with
  | error e =>
    simp only [hfile] at h
    cases h
  | ok file =>
    refine ⟨file, ?_⟩
    simp only [hfile, pure_bind] at h
    -- What is claimed for support functions is a closed computation, which must not be evaluated.
    generalize SupportNames.claim ⟨nameTexts (Source.ofText text) file.tokens⟩ = claimed at h
    split at h
    · cases huses : ModuleUses.ofTape (Tape.ofTokens (Source.ofText text) file.tokens) with
      | error e =>
        rw [huses] at h
        cases h
      | ok uses =>
        rw [huses] at h
        cases h
        exact ⟨hfile, rfl, rfl, rfl, rfl, rfl, Shadowing.markShadowed_sameButMarks _ _ _ _⟩
    · split at h
      · cases hnames : (Tape.ofTokens (Source.ofText text) file.tokens).importedNames with
        | error e =>
          rw [hnames] at h
          cases h
        | ok names =>
          rw [hnames] at h
          cases h
          exact ⟨hfile, rfl, rfl, rfl, rfl, rfl, Shadowing.markShadowed_sameButMarks _ _ _ _⟩
      · cases h
        exact ⟨hfile, rfl, rfl, rfl, rfl, rfl, rfl⟩

/-- A token of the tape is one of the parser, but for its mark. -/
theorem IsPrepared.exists_token {text : String} {o : Options} {p : Prepared} {file : AnnotatedFile}
    (h : IsPrepared text o p file) {i : Nat} {t : Token} (ht : p.setting.tape.tokens[i]? = some t) :
    ∃ t', file.tokens[i]? = some t' ∧ Shadowing.unmarked t' = Shadowing.unmarked t := by
  have hsame : ((Tape.ofTokens (Source.ofText text) file.tokens).tokens[i]?).map Shadowing.unmarked =
      some (Shadowing.unmarked t) := by
    rw [← Array.getElem?_map, ← h.tokens, Array.getElem?_map, ht]
    rfl
  obtain ⟨t', ht', hunmarked⟩ := Option.map_eq_some_iff.1 hsame
  refine ⟨t', ?_, hunmarked⟩
  unfold Tape.ofTokens at ht'
  dsimp only at ht'
  split at ht'
  · rw [Array.getElem?_pop] at ht'
    split at ht'
    · exact ht'
    · cases ht'
  · exact ht'

theorem liftFailure_bind_ne_budget {α β : Type} {x : Except Failure α} {P : α → Prop}
    {f : α → Except TransformError.Cause β} (hx : Reads x P)
    (hf : ∀ a, f a ≠ .error .budget) : (liftFailure x >>= f) ≠ .error .budget := by
  cases x with
  | error e =>
    cases e with
    | structureError e =>
      intro h
      cases h
    | budget => exact absurd rfl hx.1
  | ok a => exact hf a

/-- Preparing a file never runs out of steps. -/
theorem prepare_ne_budget (text : String) (o : Options) : prepare text o ≠ .error .budget := by
  intro h
  unfold prepare at h
  cases hfile : AnnotatedFile.ofSource (Source.ofText text) (dialectOf o) with
  | error e =>
    simp only [hfile] at h
    cases h
  | ok file =>
    simp only [hfile, pure_bind] at h
    generalize SupportNames.claim ⟨nameTexts (Source.ofText text) file.tokens⟩ = claimed at h
    split at h
    · refine liftFailure_bind_ne_budget ModuleUses.reads_ofTape (fun uses hok => ?_) h
      cases hok
    · split at h
      · refine liftFailure_bind_ne_budget Tape.reads_importedNames (fun names hok => ?_) h
        cases hok
      · cases h

end Emit

end PlainScript
