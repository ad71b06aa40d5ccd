import PlainScript.Proofs.MovesOn
import PlainScript.Proofs.Readers

/-!
# The passes move the cursor on

No part of a pass runs out of steps, and a pass that has handled a token has moved the cursor on. A
part that asks for a task does so after it has written a token; the conditions `AtLeast` keep track
of that.

There is one place where the cursor goes back: an import statement that turns out to import types only
is removed from its first token on. In an exported pattern the values are passed in one go each, up to
where the parser has seen them end.
-/

namespace PlainScript.Emit

-- Counted in combinators.
set_option synthInstance.maxSize 100000000000

variable {s : Setting} {m i : Nat}

/-! ## Statements and clauses of types -/

instance fixes_specifier {γ : Type} {see : State → γ} : Fixes see specifier := by
  unfold specifier
  refine .andThen fun v => ?_
  split <;> infer_instance

instance : Finishes s m i specifier := by
  unfold specifier
  refine .look ?_
  split <;> infer_instance

instance : Finishes s m i isTypeDefaultExport := by
  unfold isTypeDefaultExport
  refine .afterLook fun drops => ?_
  split
  · infer_instance
  · refine .look ?_
    split <;> infer_instance

/-! ## Types -/

/-! ## Classes -/

namespace Class

instance finishes_bodyPart (c : ClassOutline) (className : String) (p : Pending) [AtLeast m i] :
    Finishes s m i (bodyPart c className p) := by
  unfold bodyPart
  refine .look ?_
  dsimp only
  split <;> infer_instance

theorem gives_removed {c : ClassOutline} {className : String} {p : Pending} :
    Gives s (fun q => q.removed.length ≤ p.removed.length) (bodyPart c className p) := by
  unfold bodyPart
  refine .bind fun v => ?_
  dsimp only
  split
  · exact .bind fun _ => .pure (Nat.le_refl _)
  · exact .bind fun _ => .pure (by simp)
  · split
    · refine .bind fun _ => ?_
      split
      · exact .bind fun _ => .bind fun _ => .pure (Nat.le_refl _)
      · exact .bind fun _ => .pure (Nat.le_refl _)
    · exact .bind fun _ => .pure (Nat.le_refl _)

/-- A part of the body moves the cursor on, unless it was one of the ranges. -/
theorem movesOn_bodyPart {c : ClassOutline} {className : String} {p : Pending} :
    MovesOn s i (fun q => p.removed.length ≤ q.removed.length) (bodyPart c className p) := by
  unfold bodyPart
  refine .look ?_
  dsimp only
  split
  · infer_instance
  next hrange =>
    refine .ofGives (.bind fun _ => .pure ?_)
    have hsome := (Option.filter_eq_some_iff.1 hrange).1
    cases hremoved : p.removed with
    | nil => simp [hremoved] at hsome
    | cons r rest => simp
  · infer_instance

/-- What is left of the body of a class. -/
def Pending.measure (t : Tape) (p : Pending) (j : Nat) : Nat := t.size - j + p.removed.length

instance (c : ClassOutline) (className : String) [AtLeast m (i + 1)] :
    Finishes s m i (body c className) := by
  have hloop (contextId? : Option Nat) (j : Nat) [AtLeast m j] :
      Finishes s m j (Emit.iterateFor (bodyRound c className contextId?)
        (roundLimit s.tape + c.removed.length) ⟨c.fields, c.removed⟩) := by
    refine .ofMeasure (l := m) (Pending.measure s.tape) (fun p k => inferInstance) ?_ ?_
    · intro recur p q σ τ hrecur hrun
      unfold bodyRound at hrun
      rw [view_bind] at hrun
      split at hrun
      · cases hrun
      split at hrun
      · obtain ⟨_, _, hfail, _⟩ := bind_ok hrun
        cases hfail
      next hend =>
        obtain ⟨r, υ, hpart, hrest⟩ := bind_ok hrun
        cases hrest
        have hlt : σ.index < s.tape.size := by simpa [View.isAtEnd] using hend
        have honward := (finishes_bodyPart (m := 0) c className p).onward hrecur rfl hpart
        have hremoved := gives_removed _ _ _ _ hpart
        have hmoves := movesOn_bodyPart.movesOn hrecur rfl hpart
        unfold Pending.measure
        omega
    · unfold Pending.measure roundLimit
      dsimp only
      omega
  unfold body
  infer_instance

instance : Fixes State.index outline := by
  unfold outline
  refine .andThen fun v => .andThen fun o => .andThen fun σ => ?_
  split <;> infer_instance

instance : Finishes s m i outline := by
  unfold outline
  refine .look (.afterLook fun o => .afterLook fun σ => ?_)
  split
  next e he =>
    refine .throw ?_
    rintro rfl
    exact ClassOutline.reads_read.1 he
  next => infer_instance

end Class

instance [AtLeast m (i + 1)] : Finishes s m i classDefinition := by
  have hrest (c : ClassOutline) (className : String) (calls : Emit Unit)
      [∀ k, Finishes s m (m + k) calls] : Finishes s m i (Class.rest c className calls) := by
    refine .look ?_
    split <;> infer_instance
  unfold classDefinition
  infer_instance

instance : MovesOn s i Always classDefinition := by
  have hrest (c : ClassOutline) (className : String) (calls : Emit Unit)
      [∀ j, Finishes s 0 j calls] : MovesOn s i Always (Class.rest c className calls) := by
    refine .look ?_
    split <;> infer_instance
  unfold classDefinition
  infer_instance

/-! ## Enumerations -/

namespace Enumeration

instance : Fixes State.place key := by
  unfold key
  refine .andThen fun v => ?_
  split <;> infer_instance

instance : Finishes s m i key := by
  unfold key
  refine .look ?_
  split <;> infer_instance

instance (name : String) (k : Key) : Finishes s m i (stringMember name k) := by
  unfold stringMember
  split <;> infer_instance

instance (name : String) (k : Key) [AtLeast m (i + 1)] : Finishes s m i (valueMember name k) := by
  unfold valueMember
  refine .look ?_
  split
  · split <;> infer_instance
  · infer_instance

end Enumeration

instance : HoldsInside fun v => v.isAtOneOf [.constWord, .enumWord] :=
  holdsInside_oneOf (by decide)

/-! ## Elements -/

namespace Element

instance (name : String) : Fixes State.place (resolved name) := by
  unfold resolved
  infer_instance

instance : Finishes s m i fileNameVariable := by
  unfold fileNameVariable
  refine .afterLook fun σ => ?_
  split <;> infer_instance

instance [AtLeast m i] : Finishes s m i attributeValue := by
  unfold attributeValue
  refine .look ?_
  split
  · infer_instance
  split
  next h =>
    have : HasRoom s i .element := hasRoom_of_kind (beq_iff_eq.1 h) nofun
    infer_instance
  next => infer_instance

instance : Inside s i Handled attribute? := by
  unfold attribute?
  refine .look ?_
  split
  next h => exact .of_kind (kind_of_isAt h).1 nofun
  split
  next h => exact .of_kind (kind_of_isAt h).1 nofun
  split
  next h => exact .of_kind (beq_iff_eq.1 h) nofun
  split
  next h => exact .of_kind (beq_iff_eq.1 h) nofun
  next => infer_instance

instance (line? : Option Nat) [AtLeast m i] : Finishes s m i (debugInfo line?) := by
  unfold debugInfo
  split <;> infer_instance

instance [AtLeast m i] : Finishes s m i child := by
  unfold child
  refine .look ?_
  split
  · infer_instance
  split
  · infer_instance
  split
  next h =>
    have : HasRoom s i .element := hasRoom_of_kind (beq_iff_eq.1 h) nofun
    infer_instance
  next => infer_instance

instance : Inside s i Always child := by
  unfold child
  refine .look ?_
  split
  next h => exact .of_kind (kind_of_isAt h).1 nofun
  split
  next h => exact .of_kind (beq_iff_eq.1 h) nofun
  split
  next h => exact .of_kind (beq_iff_eq.1 h) nofun
  split
  next h => exact .of_isAtOneOf h (by decide)
  next => infer_instance

end Element

instance [AtLeast m i] : Finishes s m i elementPass := by
  unfold elementPass
  refine .look ?_
  split
  next h =>
    have : HasRoom s i .element := hasRoom_of_kind (beq_iff_eq.1 h) nofun
    infer_instance
  next => infer_instance

/-! ## Chains -/

namespace Chain

instance (result : Except StructureError Bool) : Fixes State.place (answer result) := by
  unfold answer
  split <;> infer_instance

instance (result : Except StructureError Bool) : Finishes s m i (answer result) := by
  unfold answer
  split <;> infer_instance

end Chain

instance [AtLeast m (i + 1)] : Finishes s m i optionalChainPass := by
  unfold optionalChainPass
  refine .look ?_
  split
  · infer_instance
  split
  · infer_instance
  split <;> infer_instance

instance : MovesOn s i Handled optionalChainPass := by
  unfold optionalChainPass
  refine .look ?_
  split
  · infer_instance
  split
  · infer_instance
  split <;> infer_instance

/-! ## Numbers, catch clauses and mocks -/

namespace Mock

instance [AtLeast m i] : Finishes s m i chain := by
  unfold chain
  dsimp only
  refine @Finishes.discard _ _ _ _ _ (.ofRounds (l := m) (fun _ _ => inferInstance)
    (fun _ _ => inferInstance) fun staysChained j => .look ?_)
  split
  · infer_instance
  next h =>
    have hat : View.isAt ⟨s.tape, j⟩ [.dot, .name, .parenOpen] = true := by simpa using h
    exact .of_kind (kind_of_isAt hat).1 nofun

end Mock

/-! ## Display names -/

instance (start : Nat) [AtLeast m (i + 1)] : Finishes s m i (DisplayName.arguments start) := by
  unfold DisplayName.arguments
  refine .look (.afterLook fun o => ?_)
  split
  · infer_instance
  · split <;> infer_instance

instance [AtLeast m (i + 1)] : Finishes s m i displayNamePass := by
  unfold displayNamePass
  refine .look ?_
  split
  · infer_instance
  split
  · refine @Finishes.afterReplacement? _ _ _ _ _ _ ?_
    split <;> infer_instance
  · infer_instance

instance : MovesOn s i Handled displayNamePass := by
  unfold displayNamePass
  refine .look ?_
  split
  · infer_instance
  split
  · refine .afterLook fun code? => ?_
    split <;> infer_instance
  · infer_instance

/-! ## Specifiers -/

/-- A file in which the value of an assignment ends behind its first token. -/
class EndsLater (s : Setting) : Prop where
  lt_rhsEnd {i stop : Nat} (h : (s.tape.get i).rhsEnd? = some stop) : i < stop

theorem movesOn_afterSpecifier {α : Type} {Q : α → Prop} {f : Specifier → Emit α}
    (hf : ∀ x, i < x.stop → MovesOn s i Q (f x)) : MovesOn s i Q (specifier >>= f) where
  lt {recur σ τ a} hrecur hindex hrun ha := by
    obtain ⟨x, υ, hfirst, hrest⟩ := bind_ok hrun
    have hυ := State.index_of_place (fixes_specifier.fixes hfirst)
    unfold specifier at hfirst
    rw [view_bind] at hfirst
    dsimp only at hfirst
    subst hindex
    cases hread : Specifier.read s.tape σ.index with
    | error e =>
      rw [hread] at hfirst
      cases hfirst
    | ok y =>
      rw [hread] at hfirst
      cases hfirst
      exact (hf x (Specifier.lt_stop hread)).movesOn hrecur hυ hrest ha

/-! ## Modules that stay modules -/

namespace EsModule

theorem movesOn_keepOrRemove {x : Specifier} {isKept : Bool} (h : i < x.stop) :
    MovesOn s i Always (keepOrRemove x isKept) := by
  have hcopy : MovesOn s i Always (copyTo x.stop) := movesOn_loopTo h
  have hremove : MovesOn s i Always (removeTo x.stop) := movesOn_loopTo h
  unfold keepOrRemove
  infer_instance

instance (content : ClauseContent) : Finishes s m i (importSpecifiers content) := by
  unfold importSpecifiers
  refine .ofRounds (l := 0) (fun content k => .look ?_) (fun content j => .look ?_)
    fun content j => .look ?_
  · split
    · infer_instance
    split
    · infer_instance
    · refine .afterLook fun x => ?_
      split <;> infer_instance
  · split
    · infer_instance
    split
    · infer_instance
    · refine movesOn_afterSpecifier fun x hx => ?_
      have hmoves (isKept : Bool) : MovesOn s j Always (keepOrRemove x isKept) :=
        movesOn_keepOrRemove hx
      split <;> infer_instance
  · infer_instance

section

variable {γ : Type} {see : State → γ} [Fixes see copy] [Fixes see remove] [∀ code, Fixes see (add code)]

instance (n : Nat) : Fixes see (removeMany n) := by
  induction n with
  | zero => exact Obeys.pure ()
  | succ n ih =>
    unfold removeMany
    infer_instance

instance (x : Specifier) (isKept : Bool) : Fixes see (keepOrRemove x isKept) := by
  unfold keepOrRemove copyTo removeTo copyIf removeIf
  infer_instance

theorem fixes_importClause : Fixes see importClause := by
  have (content : ClauseContent) : Fixes see (importSpecifiers content) := by
    unfold importSpecifiers
    refine @Fixes.iterate _ _ _ _ _ fun content => .andThen fun v => ?_
    split
    · infer_instance
    · extract_lets rest
      have hrest (u : PUnit) : Fixes see (rest u) := by
        refine .andThen fun x => ?_
        split <;> infer_instance
      clear_value rest
      infer_instance
  have : Fixes see defaultImport := by
    unfold defaultImport removeIf
    infer_instance
  unfold importClause
  infer_instance

end

instance finishes_importStatement : Finishes s m i importStatement := by
  have hremoved : Finishes s m i (do
      removeToPath
      remove
      removeImportAttributes
      removeIf .semicolon
      return true) := inferInstance
  unfold importStatement
  refine .look ?_
  split
  · infer_instance
  have hclause : Finishes s m i importClause := inferInstance
  refine .afterLook fun σ => ⟨fun hrecur hindex hrun => ?_, fun hrecur hsteps hindex hσ => ?_⟩
  · obtain ⟨b, υ, hfirst, hrest⟩ := bind_ok hrun
    cases b with
    | true => exact hremoved.onward hrecur rfl hrest
    | false =>
      cases hrest
      exact hclause.onward hrecur hindex hfirst
  · refine (hclause.finishes hrecur hsteps hindex hσ).bind fun b υ hfirst hI => ?_
    cases b with
    | true =>
      -- No lines are counted in a clause, so the property has lasted since before it.
      have hlines : υ.lines = _ := fixes_importClause.fixes hfirst
      exact hremoved.finishes hrecur hsteps rfl (Lasting.onward s hσ hlines (Nat.le_of_eq hindex))
    | false => exact .ok hI

instance movesOn_importStatement : MovesOn s i Handled importStatement := by
  have hremoved : MovesOn s i Handled (do
      removeToPath
      remove
      removeImportAttributes
      removeIf .semicolon
      return true) := inferInstance
  unfold importStatement
  refine .look ?_
  split
  · infer_instance
  refine .afterLook fun σ => ⟨fun hrecur hindex hrun ha => ?_⟩
  obtain ⟨b, υ, hclause, hrest⟩ := bind_ok hrun
  cases b with
  | true => exact hremoved.movesOn hrecur rfl hrest ha
  | false =>
    cases hrest
    exact MovesOn.movesOn (Q := Always) hrecur hindex hclause trivial

instance (isFromModule : Bool) : Finishes s m i (exportSpecifiers isFromModule) := by
  unfold exportSpecifiers
  refine .ofRounds (l := 0) (fun hasValue k => .look ?_) (fun hasValue j => .look ?_)
    fun hasValue j => .look ?_
  · split
    · infer_instance
    split
    · infer_instance
    · refine .afterLook fun x => ?_
      split <;> infer_instance
  · split
    · infer_instance
    split
    · infer_instance
    · refine movesOn_afterSpecifier fun x hx => ?_
      have hmoves (isKept : Bool) : MovesOn s j Always (keepOrRemove x isKept) :=
        movesOn_keepOrRemove hx
      split <;> infer_instance
  · infer_instance

end EsModule

/-! ## Modules that become CommonJS -/

namespace CommonJs

instance finishes_importRest (closing : String) [AtLeast m (i + 1)] : Finishes s m i (importRest closing) := by
  refine .look ?_
  split <;> infer_instance

instance : Finishes s m i removeSpecifiers := by
  unfold removeSpecifiers
  refine .ofRounds (l := 0) (fun _ _ => inferInstance) (fun _ _ => inferInstance) fun found j => ?_
  refine .look ?_
  split
  · infer_instance
  next h =>
    have hend : View.isAtEnd ⟨s.tape, j⟩ ≠ true := fun hend => h (by simp [hend])
    exact .of_lt (Nat.lt_of_not_le fun hle => hend (decide_eq_true hle))

/-! ## References and assignments -/

instance [AtLeast m (i + 1)] : Finishes s m i identifier := by
  unfold identifier
  refine .look ?_
  split
  · infer_instance
  · refine @Finishes.afterReplacement? _ _ _ _ _ _ ?_
    split <;> infer_instance

instance : MovesOn s i Handled identifier := by
  unfold identifier
  refine .look ?_
  split
  · infer_instance
  · refine .afterLook fun code? => ?_
    split <;> infer_instance

instance : Finishes s m i assignment := by
  unfold assignment
  refine .look ?_
  split
  · infer_instance
  split
  · infer_instance
  · refine .afterLook fun target? => ?_
    split <;> infer_instance

instance : MovesOn s i Handled assignment := by
  unfold assignment
  refine .look ?_
  split
  · infer_instance
  split
  · infer_instance
  · refine .afterLook fun target? => ?_
    split <;> infer_instance

instance : Finishes s m i compoundAssignment := by
  unfold compoundAssignment
  refine .look ?_
  split
  · infer_instance
  split
  · infer_instance
  · refine .afterLook fun target? => ?_
    split <;> infer_instance

instance : MovesOn s i Handled compoundAssignment := by
  unfold compoundAssignment
  refine .look ?_
  split
  · infer_instance
  split
  · infer_instance
  · refine .afterLook fun target? => ?_
    split <;> infer_instance

instance : Finishes s m i prefixIncrement := by
  unfold prefixIncrement
  refine .look ?_
  split
  · infer_instance
  · refine .afterLook fun target? => ?_
    split <;> infer_instance

instance : MovesOn s i Handled prefixIncrement := by
  unfold prefixIncrement
  refine .look ?_
  split
  · infer_instance
  · refine .afterLook fun target? => ?_
    split <;> infer_instance

instance : Finishes s m i postfixIncrement := by
  unfold postfixIncrement
  refine .look ?_
  split
  · infer_instance
  · refine .afterLook fun target? => ?_
    split
    · infer_instance
    · refine @Finishes.afterReplacement? _ _ _ _ _ _ ?_
      dsimp only
      split <;> infer_instance

instance : MovesOn s i Handled postfixIncrement := by
  unfold postfixIncrement
  refine .look ?_
  split
  · infer_instance
  · refine .afterLook fun target? => ?_
    split
    · infer_instance
    · refine .afterLook fun code? => ?_
      dsimp only
      split <;> infer_instance

/-! ## Exports -/

instance [AtLeast m (i + 1)] : Finishes s m i exportImportEquals := by
  unfold exportImportEquals
  refine .look ?_
  split <;> infer_instance

instance : MovesOn s i Always exportImportEquals := by
  unfold exportImportEquals
  refine .look ?_
  split <;> infer_instance

instance finishes_assignmentRest (name : String) [AtLeast m i] : Finishes s m i (assignmentRest name) := by
  refine .look ?_
  split <;> infer_instance

instance [AtLeast m i] : Finishes s m i assignedValue := by
  unfold assignedValue
  refine .look ?_
  split <;> infer_instance

instance [hs : EndsLater s] : MovesOn s i Always assignedValue := by
  unfold assignedValue
  refine .look ?_
  split
  next stop h => exact movesOn_loopTo (hs.lt_rhsEnd h)
  next => infer_instance

instance : Finishes s m i declaredName := by
  unfold declaredName
  refine .look ?_
  refine @Finishes.afterReplacement? _ _ _ _ _ _ ?_
  split <;> infer_instance

instance : MovesOn s i Always declaredName := by
  unfold declaredName
  refine .look (.afterLook fun code? => ?_)
  split <;> infer_instance

instance (x : Specifier) (isFromModule : Bool) :
    Finishes s m i (specifierCode? x isFromModule) := by
  unfold specifierCode?
  split <;> infer_instance

instance (isFromModule : Bool) : Finishes s m i (exportAssignments isFromModule) := by
  unfold exportAssignments
  refine .ofRounds (l := 0) (fun _ _ => inferInstance) (fun _ _ => inferInstance) fun codes j => ?_
  refine .look ?_
  split
  · infer_instance
  -- A round that goes on has come to a comma.
  refine .andThen fun x j => .andThen fun _ j => .andThen fun code? j => .look ?_
  split
  · infer_instance
  split
  · infer_instance
  split
  next h => exact .of_kind (beq_iff_eq.1 h) nofun
  next => infer_instance

end CommonJs

instance [EndsLater s] [AtLeast m (i + 1)] : Finishes s m i commonJsPass := by
  have hlast : Finishes s m i (CommonJs.ruleFor (View.kind ⟨s.tape, i⟩)) := by
    unfold CommonJs.ruleFor
    split <;> infer_instance
  unfold commonJsPass
  infer_instance

instance [EndsLater s] : MovesOn s i Handled commonJsPass := by
  have hlast : MovesOn s i Handled (CommonJs.ruleFor (View.kind ⟨s.tape, i⟩)) := by
    unfold CommonJs.ruleFor
    split <;> infer_instance
  unfold commonJsPass
  infer_instance

end PlainScript.Emit
