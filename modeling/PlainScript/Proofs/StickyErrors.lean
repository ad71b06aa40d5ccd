import PlainScript.Proofs.StatementRulesCompose

/-!
# Errors stay

A syntax error does not interrupt the parser. Whatever it does from then on, the error stays and the
end of the text stays current, until an attempt is abandoned and a state from before the error is put
back. `History` says what the parser can do: `Operation`s, one after the other, and going back to a
state that it has saved. A parse leaves a history behind, and in every history the error that is there
last is the first one since an attempt with other errors was abandoned.
-/

namespace PlainScript.Grammar

open Parse

variable {s : Source} {d : Dialect} {recur : Goal → Step Bool} {σ τ υ ρ : State}

/-! ## Operations -/

/-- What is done about errors between two states: one that is there stays, and a new one ends the
text. -/
structure Sticks (s : Source) (σ τ : State) : Prop where
  error {e : SyntaxError} : σ.error? = some e → τ.error? = some e
  stopped : σ.error? = none ∨ Stopped s σ → τ.error? = none ∨ Stopped s τ

namespace Sticks

theorem refl : Sticks s σ σ := ⟨id, id⟩

theorem trans (hστ : Sticks s σ τ) (hτυ : Sticks s τ υ) : Sticks s σ υ :=
  ⟨fun he => hτυ.error (hστ.error he), fun hσ => hτυ.stopped (hστ.stopped hσ)⟩

theorem of_eq (hcurrent : τ.current = σ.current) (herror : τ.error? = σ.error?) : Sticks s σ τ where
  error he := herror.trans he
  stopped hσ := hσ.imp (herror.trans ·) fun h =>
    ⟨herror ▸ h.failed, hcurrent ▸ h.kind, hcurrent ▸ h.keyword, hcurrent ▸ h.stop⟩

theorem pushed : Sticks s σ σ.pushed := of_eq rfl rfl

theorem failed (e : SyntaxError) : Sticks s σ (σ.failed s.size e) where
  error he := by simp [State.failed, he]
  stopped hσ := .inr (stopped_failed hσ)

theorem settle {start : Nat} {reading : Reading}
    (hrun : Parse.settle start reading ⟨s, d, recur⟩ σ = .ok ((), τ))
    (hfault : Stopped s σ → ∃ cause pos, reading = .fault cause pos) : Sticks s σ τ where
  error he := by
    cases reading with
    | lexeme kind keyword stop =>
      cases hrun
      exact he
    | fault cause pos =>
      cases hrun
      simp [he]
    | torn a b => cases hrun
  stopped hσ := by
    rcases hσ with hclear | hstopped
    · by_cases hτ : τ.error? = none
      · exact .inl hτ
      · exact .inr (settle_stopped hrun hclear hτ)
    · obtain ⟨cause, pos, rfl⟩ := hfault hstopped
      exact .inr (settle_fault hstopped hrun)

theorem settleEnd (hrun : Parse.settleEnd ⟨s, d, recur⟩ σ = .ok ((), τ)) : Sticks s σ τ := by
  have hend : Sticks s σ { σ with current := { start := s.size, stop := s.size } } :=
    ⟨id, fun hσ => hσ.imp id fun h => ⟨h.failed, rfl, rfl, rfl⟩⟩
  rw [settleEnd_eq] at hrun
  split at hrun
  · cases hrun
    exact hend.trans (.failed _)
  · cases hrun
    exact hend

/-- Behind the end of the text there is no more text. -/
theorem gap_of_stopped (h : Stopped s σ) : s.gap σ.current.stop = .upTo s.size := by
  rw [h.stop, Source.gap, Nat.sub_self, Source.gapFor]

theorem readCode (hrun : Parse.readCode ⟨s, d, recur⟩ σ = .ok ((), τ)) : Sticks s σ τ := by
  rw [readCode_eq] at hrun
  dsimp only at hrun
  cases hgap : s.gap σ.current.stop with
  | openComment start =>
    rw [hgap] at hrun
    obtain ⟨_, _, hfail, hend⟩ := bind_ok hrun
    cases hfail
    exact (failed _).trans (.settleEnd hend)
  | upTo pos =>
    rw [hgap] at hrun
    dsimp only at hrun
    split at hrun
    · exact .settleEnd hrun
    next hpos =>
      refine .settle hrun fun hstopped => ?_
      cases hgap.symm.trans (gap_of_stopped hstopped)
      exact absurd (Nat.le_refl _) hpos

theorem nextInTag (hrun : Parse.nextInTag ⟨s, d, recur⟩ σ = .ok ((), τ)) : Sticks s σ τ := by
  rw [nextInTag_eq] at hrun
  dsimp only at hrun
  refine pushed.trans ?_
  cases hgap : s.gap σ.current.stop with
  | openComment start =>
    rw [hgap] at hrun
    obtain ⟨_, _, hfail, hend⟩ := bind_ok hrun
    cases hfail
    cases hend
    exact (failed _).trans ⟨id, fun hσ => hσ.imp id fun h => ⟨h.failed, h.kind, h.keyword, h.stop⟩⟩
  | upTo pos =>
    rw [hgap] at hrun
    refine .settle hrun fun hstopped => ?_
    cases hgap.symm.trans (gap_of_stopped (σ := σ.pushed) hstopped)
    exact ⟨_, _, if_pos (Nat.le_refl _)⟩

theorem reread {start : Nat} {reading : Reading} (htext : IsText σ.current)
    (hrun : Parse.settle start reading ⟨s, d, recur⟩ σ = .ok ((), τ)) : Sticks s σ τ :=
  .settle hrun fun hstopped => absurd htext hstopped.not_isText

theorem rereadIf {k : TokenKind} (hk : k ≠ .eof) {rule : Parse Unit}
    (hrule : IsText σ.current → rule ⟨s, d, recur⟩ σ = .ok ((), τ) → Sticks s σ τ)
    (hrun : (if σ.current.kind == k then rule else pure ()) ⟨s, d, recur⟩ σ = .ok ((), τ)) :
    Sticks s σ τ := by
  split at hrun
  next hkind => exact hrule (.inl (by rw [beq_iff_eq.1 hkind]; exact hk)) hrun
  next =>
    cases hrun
    exact .refl

theorem act {a : Action} (hfits : a.Fits σ) (hrun : a.perform ⟨s, d, recur⟩ σ = .ok ((), τ)) :
    Sticks s σ τ := by
  cases a with
  | fail cause pos =>
    cases hrun
    exact failed _
  | retype kind hkind =>
    cases hrun
    exact ⟨id, fun hσ => .inl (hσ.resolve_right fun hstopped => hstopped.not_isText hfits)⟩
  | next => exact pushed.trans (.readCode hrun)
  | nextInTemplate =>
    refine pushed.trans (.settle hrun fun hstopped => ?_)
    have hnone : s.templateStop? s.size = none := by
      rw [Source.templateStop?, Nat.sub_self, Source.templateStopFor]
    refine ⟨.unterminatedTemplate, s.size, ?_⟩
    change Reading.template s _ σ.pushed.current.stop = _
    rw [hstopped.stop, Reading.template, hnone]
  | nextInTag => exact .nextInTag hrun
  | nextInElement =>
    refine pushed.trans (.settle hrun fun hstopped => ⟨.unterminatedJsxContents, s.size, ?_⟩)
    change Reading.child s _ _ σ.pushed.current.stop = _
    rw [hstopped.stop]
    exact if_pos (Source.le_skipBytes s (fun c => c != '<' && c != '{') s.size)
  | rereadGreater =>
    refine .rereadIf (k := .greater) (by decide) (fun htext hread => ?_) hrun
    exact .reread htext hread
  | splitShiftLeft =>
    refine .rereadIf (k := .shiftLeft) (by decide) (fun htext hread => ?_) hrun
    exact .reread htext hread
  | nextRegexp =>
    obtain ⟨_, υ, hread, hnext⟩ := bind_ok hrun
    exact (reread hfits hread).trans (pushed.trans (.readCode hnext))

end Sticks

/-- What the parser does to its state, other than to go back: it reads the first lexeme, acts, reads a
slash again, or records something that leaves the lexemes and the error alone. -/
inductive Operation (s : Source) (d : Dialect) (σ τ : State) : Prop
  | start (recur : Goal → Step Bool) (hrun : readCode ⟨s, d, recur⟩ σ = .ok ((), τ))
  | act (a : Action) (recur : Goal → Step Bool) (hfits : a.Fits σ)
      (hrun : a.perform ⟨s, d, recur⟩ σ = .ok ((), τ))
  | reread (recur : Goal → Step Bool) (htext : IsText σ.current)
      (hrun : rereadRegexp ⟨s, d, recur⟩ σ = .ok ((), τ))
  | annotate (h : σ.SameLexemes τ)

theorem Operation.sticks (h : Operation s d σ τ) : Sticks s σ τ := by
  cases h with
  | start recur hrun => exact .readCode hrun
  | act a recur hfits hrun => exact .act hfits hrun
  | reread recur htext hrun => exact .reread htext hrun
  | annotate h => exact .of_eq h.current h.error

/-! ## Histories -/

/-- What the parser can have done, as the states it has been in, the last one first. The first list has
the states it has saved and not given up since, also with the last one first. -/
inductive History (s : Source) (d : Dialect) : List State → List State → Prop
  | fresh : History s d [] [{}]
  | operate {saved past : List State} {σ τ : State} (h : History s d saved (σ :: past))
      (hstep : Operation s d σ τ) : History s d saved (τ :: σ :: past)
  | save {saved past : List State} {σ : State} (h : History s d saved (σ :: past)) :
      History s d (σ :: saved) (σ :: past)
  /-- An attempt is abandoned: what was saved last is put back. -/
  | abandon {saved past : List State} {σ ρ : State} (h : History s d (ρ :: saved) (σ :: past)) :
      History s d (ρ :: saved) (σ.restore ρ.snapshot :: σ :: past)
  /-- What was saved last is not needed any more. -/
  | forget {saved past : List State} {ρ : State} (h : History s d (ρ :: saved) past) :
      History s d saved past

/-- An error was recorded by an operation in a state without an error, and has been there since. -/
def Recorded (s : Source) (d : Dialect) (e : SyntaxError) (states : List State) : Prop :=
  ∃ after υ ρ before, states = after ++ υ :: ρ :: before ∧ ρ.error? = none ∧ Operation s d ρ υ ∧
    υ.error? = some e ∧ ∀ π ∈ after, π.error? = some e

variable {saved past states : List State} {e : SyntaxError}

theorem Recorded.cons (h : Recorded s d e states) (hσ : σ.error? = some e) :
    Recorded s d e (σ :: states) := by
  obtain ⟨after, υ, ρ, before, rfl, hρ, hstep, hυ, hafter⟩ := h
  refine ⟨σ :: after, υ, ρ, before, rfl, hρ, hstep, hυ, fun π hπ => ?_⟩
  obtain rfl | hπ := List.mem_cons.1 hπ
  · exact hσ
  · exact hafter π hπ

/-- An error of a state is one of another state too. -/
def State.PassesOn (ρ σ : State) : Prop := ∀ e, ρ.error? = some e → σ.error? = some e

/-- What holds along every history. -/
structure Consistent (s : Source) (d : Dialect) (saved : List State) (σ : State) (past : List State) :
    Prop where
  stopped (π : State) (h : π ∈ σ :: past) : π.error? = none ∨ Stopped s π
  saved_mem (ρ : State) (h : ρ ∈ saved) : ρ ∈ σ :: past
  /-- An error that was there when a state was saved has not gone. -/
  passesOn : (σ :: saved).Pairwise fun newer older => older.PassesOn newer
  recorded (e : SyntaxError) (h : σ.error? = some e) : Recorded s d e (σ :: past)

namespace Consistent

theorem fresh : Consistent s d [] {} [] where
  stopped π hπ := by
    rw [List.mem_singleton.1 hπ]
    exact .inl rfl
  saved_mem _ h := by cases h
  passesOn := List.pairwise_singleton ..
  recorded _ h := by cases h

theorem operate (h : Consistent s d saved σ past) (hstep : Operation s d σ τ) :
    Consistent s d saved τ (σ :: past) where
  stopped π hπ := by
    obtain rfl | hπ := List.mem_cons.1 hπ
    · exact hstep.sticks.stopped (h.stopped σ List.mem_cons_self)
    · exact h.stopped π hπ
  saved_mem ρ hρ := List.mem_cons_of_mem _ (h.saved_mem ρ hρ)
  passesOn := by
    obtain ⟨hhead, htail⟩ := List.pairwise_cons.1 h.passesOn
    exact List.pairwise_cons.2 ⟨fun ρ hρ e he => hstep.sticks.error (hhead ρ hρ e he), htail⟩
  recorded e he := by
    cases hσ : σ.error? with
    | none => exact ⟨[], τ, σ, past, rfl, hσ, hstep, he, fun π hπ => by cases hπ⟩
    | some e' =>
      obtain rfl : e' = e := Option.some.inj ((hstep.sticks.error hσ).symm.trans he)
      exact (h.recorded e' hσ).cons he

theorem save (h : Consistent s d saved σ past) : Consistent s d (σ :: saved) σ past where
  stopped := h.stopped
  saved_mem ρ hρ := by
    obtain rfl | hρ := List.mem_cons.1 hρ
    · exact List.mem_cons_self
    · exact h.saved_mem ρ hρ
  passesOn := by
    refine List.pairwise_cons.2 ⟨fun ρ hρ => ?_, h.passesOn⟩
    obtain rfl | hρ := List.mem_cons.1 hρ
    · exact fun _ => id
    · exact (List.pairwise_cons.1 h.passesOn).1 ρ hρ
  recorded := h.recorded

/-- If there is an error in the state that is put back, it is the one that there is now. -/
theorem abandon (h : Consistent s d (ρ :: saved) σ past) :
    Consistent s d (ρ :: saved) (σ.restore ρ.snapshot) (σ :: past) where
  stopped π hπ := by
    obtain rfl | hπ := List.mem_cons.1 hπ
    · refine (h.stopped ρ (h.saved_mem ρ List.mem_cons_self)).imp id fun hρ => ?_
      exact ⟨hρ.failed, hρ.kind, hρ.keyword, hρ.stop⟩
    · exact h.stopped π hπ
  saved_mem π hπ := List.mem_cons_of_mem _ (h.saved_mem π hπ)
  passesOn := by
    obtain ⟨-, htail⟩ := List.pairwise_cons.1 h.passesOn
    refine List.pairwise_cons.2 ⟨fun π hπ => ?_, htail⟩
    obtain rfl | hπ := List.mem_cons.1 hπ
    · exact fun _ => id
    · exact (List.pairwise_cons.1 htail).1 π hπ
  recorded e he := by
    have hσ := (List.pairwise_cons.1 h.passesOn).1 ρ List.mem_cons_self e he
    exact (h.recorded e hσ).cons he

theorem forget (h : Consistent s d (ρ :: saved) σ past) : Consistent s d saved σ past where
  stopped := h.stopped
  saved_mem π hπ := h.saved_mem π (List.mem_cons_of_mem _ hπ)
  passesOn := h.passesOn.sublist ((List.sublist_cons_self ρ saved).cons_cons σ)
  recorded := h.recorded

end Consistent

theorem History.consistent (h : History s d saved states) :
    ∃ σ past, states = σ :: past ∧ Consistent s d saved σ past := by
  induction h with
  | fresh => exact ⟨_, _, rfl, .fresh⟩
  | operate _ hstep ih =>
    obtain ⟨_, _, heq, hσ⟩ := ih
    cases heq
    exact ⟨_, _, rfl, hσ.operate hstep⟩
  | save _ ih =>
    obtain ⟨_, _, heq, hσ⟩ := ih
    cases heq
    exact ⟨_, _, rfl, hσ.save⟩
  | abandon _ ih =>
    obtain ⟨_, _, heq, hσ⟩ := ih
    cases heq
    exact ⟨_, _, rfl, hσ.abandon⟩
  | forget _ ih =>
    obtain ⟨σ, past, rfl, hσ⟩ := ih
    exact ⟨σ, past, rfl, hσ.forget⟩

/-! ## Parses -/

namespace History

theorem mark (h : History s d saved (σ :: past)) (i : Nat) (f : Token → Token) [KeepsSpan f] :
    History s d saved (σ.modifyToken i f :: σ :: past) :=
  h.operate (.annotate ⟨rfl, rfl, σ.spans_modifyToken i f⟩)

theorem next (h : History s d saved (σ :: past)) (hrun : Parse.next ⟨s, d, recur⟩ σ = .ok ((), τ)) :
    History s d saved (τ :: σ :: past) :=
  h.operate (.act .next recur trivial hrun)

/-- What a rule leaves behind, it leaves behind in the course of a history. -/
theorem ofComposed {own : Nat} (hτ : Composed s d own σ τ) (h : History s d saved (σ :: past)) :
    ∃ past', History s d saved (τ :: past') := by
  induction hτ generalizing saved past with
  | stay => exact ⟨_, h⟩
  | act a recur _ hfits hrun ih =>
    obtain ⟨_, hτ⟩ := ih h
    exact ⟨_, hτ.operate (.act a recur hfits hrun)⟩
  | note _ hnote ih =>
    obtain ⟨_, hτ⟩ := ih h
    exact ⟨_, hτ.operate (.annotate hnote.toSameLexemes)⟩
  | rekind i k _ _ _ _ ih =>
    obtain ⟨_, hτ⟩ := ih h
    exact ⟨_, hτ.mark i _⟩
  | subscript start _ _ _ _ ih =>
    obtain ⟨_, hτ⟩ := ih h
    exact ⟨_, hτ.mark _ _⟩
  | stamp id _ _ _ _ _ ih =>
    obtain ⟨_, hτ⟩ := ih h
    exact ⟨_, hτ.mark _ _⟩
  | assign _ _ _ ih ih' =>
    obtain ⟨_, hτ⟩ := ih h
    obtain ⟨_, hυ⟩ := ih' hτ
    exact ⟨_, hυ.mark _ _⟩
  | coalesce start recur _ _ _ _ hnext _ ih ih' =>
    obtain ⟨_, hτ⟩ := ih h
    obtain ⟨_, hω⟩ := ih' ((hτ.next hnext).mark _ (.nullishOf start))
    exact ⟨_, (hω.mark start .opensNullish).mark _ .closesNullish⟩
  | object recur _ _ hnext _ _ _ _ ih ih' =>
    obtain ⟨_, hτ⟩ := ih h
    have hopened := (hτ.operate (.annotate (State.notes_issued _).toSameLexemes)).next hnext
    obtain ⟨_, hω⟩ := ih' (hopened.mark _ _)
    exact ⟨_, hω.mark _ _⟩
  | classDefinition recur _ hnext _ _ hbrace _ _ _ _ ih ih' ih'' =>
    obtain ⟨_, hτ⟩ := ih h
    have hword := (hτ.operate (.annotate (State.notes_issued _).toSameLexemes)).next hnext
    obtain ⟨_, hφ⟩ := ih' (hword.mark _ _)
    obtain ⟨_, hω⟩ := ih'' (hφ.next hbrace)
    exact ⟨_, (hω.mark _ _).mark _ _⟩
  | lost _ hamend _ _ ih ih' =>
    obtain ⟨_, hτ⟩ := ih h
    exact ih' (hτ.operate (.annotate hamend.toSameLexemes))
  | retreat _ _ ih ih' =>
    -- The state is saved only for as long as the attempt lasts.
    obtain ⟨_, hτ⟩ := ih h
    obtain ⟨_, hυ⟩ := ih' hτ.save
    exact ⟨_, hυ.abandon.forget⟩

theorem ofParse (h : parse s d = .ok τ) : ∃ past, History s d [] (τ :: past) := by
  obtain ⟨σ, ω, recur, hread, hω, -, rfl⟩ := composed_of_parse h
  obtain ⟨_, hhistory⟩ := ofComposed hω (History.fresh.operate (.start recur hread))
  exact ⟨_, hhistory.operate (.annotate ⟨rfl, rfl, rfl⟩)⟩

end History

/-- In all that a parser can do, after an error the end of the text is current and no operation takes
the error away; only the return to a state from before it does. So the error that is there last was
recorded where there was none, and no attempt that was abandoned since had another one. What a parse
reports is such an error. -/
theorem errors_stick (s : Source) (d : Dialect) :
    (∀ saved states, History s d saved states → ∀ σ ∈ states, ∀ e, σ.error? = some e →
      σ.current.kind = .eof ∧ σ.current.keyword = .ordinary ∧ σ.current.stop = s.size ∧
      ∀ τ, Operation s d σ τ → τ.error? = some e) ∧
    (∀ saved σ past e, History s d saved (σ :: past) → σ.error? = some e →
      Recorded s d e (σ :: past)) ∧
    (∀ σ, parse s d = .ok σ → ∃ past, History s d [] (σ :: past)) ∧
    ∀ l, AnnotatedFile.ofSource s d = .error (.syntaxError l) → ∃ σ past e, parse s d = .ok σ ∧
      History s d [] (σ :: past) ∧ Recorded s d e (σ :: past) ∧ l = .ofSyntaxError s e := by
  have hrecorded (saved : List State) (σ : State) (past : List State) (e : SyntaxError)
      (h : History s d saved (σ :: past)) (he : σ.error? = some e) : Recorded s d e (σ :: past) := by
    obtain ⟨_, _, heq, hσ⟩ := h.consistent
    cases heq
    exact hσ.recorded e he
  refine ⟨fun saved states h σ hσ e he => ?_, hrecorded, fun _ => History.ofParse, fun l hl => ?_⟩
  · obtain ⟨_, _, rfl, hall⟩ := h.consistent
    have hstopped := (hall.stopped σ hσ).resolve_left (by simp [he])
    exact ⟨hstopped.kind, hstopped.keyword, hstopped.stop, fun τ hstep => hstep.sticks.error he⟩
  · rw [AnnotatedFile.ofSource] at hl
    split at hl
    case isTrue => cases hl
    case isFalse =>
      split at hl
      case h_1 => cases hl
      case h_2 σ hparse =>
        split at hl
        case h_1 e he =>
          cases hl
          obtain ⟨past, h⟩ := History.ofParse hparse
          exact ⟨σ, past, e, hparse, h, hrecorded [] σ past e h he, rfl⟩
        case h_2 => cases hl

/-- An attempt to read type arguments is abandoned with an error of its own. -/
theorem errors_stick_abandoned :
    ∃ s σ past, s.text = "f<a b" ∧ parse s { typescript := true } = .ok σ ∧
      History s { typescript := true } [] (σ :: past) ∧ σ.current.kind = .eof ∧
      Recorded s { typescript := true } ⟨.expectedSemicolon, 4⟩ (σ :: past) := by
  let s := Source.ofText "f<a b"
  have herror : (parse s { typescript := true }).toOption.bind (·.error?) =
      some ⟨.expectedSemicolon, 4⟩ := by
    decide +kernel
  obtain ⟨hstopped, hrecorded, hhistory, -⟩ := errors_stick s { typescript := true }
  cases hparse : parse s { typescript := true } with
  | error e =>
    rw [hparse] at herror
    cases herror
  | ok σ =>
    rw [hparse] at herror
    obtain ⟨past, h⟩ := hhistory σ hparse
    exact ⟨s, σ, past, rfl, hparse, h, (hstopped _ _ h σ List.mem_cons_self _ herror).1,
      hrecorded _ _ _ _ h herror⟩

end PlainScript.Grammar
