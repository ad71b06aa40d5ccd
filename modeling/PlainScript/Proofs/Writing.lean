import PlainScript.Proofs.Laws

/-!
# What the writer can do to the output

The writer is a tree of passes that meet through tasks, and each of them ends in a few operations
that append pieces and move the cursor on. `State.Extends` is the relation between two states of such
a walk: each name that is written as it stands in the source is written so for a reason, one of
`Stays`. `Keeps` says that a part of the writer stays within this relation when it is started with
the cursor at an index. It is shown for every part, so that a statement about all of the output is a
statement about the reasons alone.

A piece of code that no name can be, because it is empty or contains a mark, needs no reason.
-/

namespace PlainScript

/-- The characters that generated code has and no name has. -/
def nameMarks : List Char := ['.', '(', ')', '\'', '"', ',', ':', ' ', '\n']

/-- Whether a text may be a name: it is not empty and has no mark. -/
def mayBeName (text : String) : Bool :=
  !text.isEmpty && text.toList.all fun c => !nameMarks.contains c

/-- A text that has a mark. -/
class HasMark (text : String) : Prop where
  any : text.toList.any nameMarks.contains = true

/-- A text that is no name. -/
class NoName (text : String) : Prop where
  mayBeName : mayBeName text = false

instance (a b : String) [h : HasMark a] : HasMark (a ++ b) where
  any := by rw [String.toList_append, List.any_append, h.any, Bool.true_or]

instance (a b : String) [h : HasMark b] : HasMark (a ++ b) where
  any := by rw [String.toList_append, List.any_append, h.any, Bool.or_true]

instance (c : Prop) [Decidable c] (a b : String) [HasMark a] [HasMark b] :
    HasMark (if c then a else b) := by
  split <;> infer_instance

instance noName_empty : NoName "" where
  mayBeName := rfl

instance (text : String) [h : HasMark text] : NoName text where
  mayBeName := by
    obtain ⟨c, hc, hmark⟩ := List.any_eq_true.1 h.any
    have hall : text.toList.all (fun c => !nameMarks.contains c) = false :=
      List.all_eq_false.2 ⟨c, hc, by simpa using hmark⟩
    rw [mayBeName, hall, Bool.and_false]

namespace Emit

/-- A part of the writer and what follows it succeed one after the other. -/
theorem bind_ok {α β : Type} {e : Emit α} {f : α → Emit β} {env : Env} {σ τ : State} {b : β}
    (h : (e >>= f) env σ = .ok (b, τ)) :
    ∃ a υ, e env σ = .ok (a, υ) ∧ f a env υ = .ok (b, τ) := by
  change (do let (a, υ) ← e env σ; f a env υ) = _ at h
  cases hfirst : e env σ with
  | error e =>
    rw [hfirst] at h
    cases h
  | ok result =>
    rw [hfirst] at h
    exact ⟨result.1, result.2, rfl, h⟩

/-- A last round is followed by no other. -/
theorem elim_done {α : Type} {P : Prop} {a b : α} (h : ForInStep.done a = .yield b) : P := by
  cases h

theorem elim_yield {α : Type} {P : Prop} {a b : α} (h : ForInStep.yield a = .done b) : P := by
  cases h

/-! ## What one write appends -/

/-- The second state has more code that stands for no token, and is at the same token. -/
def State.Adds (σ τ : State) : Prop :=
  τ.index = σ.index ∧ ∃ codes : List String, τ.output.toList = σ.output.toList ++ codes.map .added

theorem State.Adds.refl (σ : State) : σ.Adds σ := ⟨rfl, [], by simp⟩

theorem State.Adds.trans {σ τ υ : State} (hστ : σ.Adds τ) (hτυ : τ.Adds υ) : σ.Adds υ := by
  obtain ⟨hτ, codes, hcodes⟩ := hστ
  obtain ⟨hυ, more, hmore⟩ := hτυ
  refine ⟨hυ.trans hτ, codes ++ more, ?_⟩
  rw [hmore, hcodes, List.map_append, List.append_assoc]

section

variable {env : Env} {σ τ : State}

theorem adds_of_add {code : String} (hrun : add code env σ = .ok ((), τ)) : σ.Adds τ := by
  cases hrun
  exact ⟨rfl, [code], Array.toList_push⟩

theorem adds_of_callSupport {f : SupportFunction} {name : String}
    (hrun : callSupport f env σ = .ok (name, τ)) : σ.Adds τ := by
  cases hrun
  exact ⟨rfl, [], by simp⟩

/-- A loop whose rounds only add code. -/
theorem adds_of_forIn {α β : Type} {xs : List α} {x y : β} {round : α → β → Emit (ForInStep β)}
    (hround : ∀ a x σ τ step, round a x env σ = .ok (step, τ) → σ.Adds τ)
    (hrun : (forIn xs x round) env σ = .ok (y, τ)) : σ.Adds τ := by
  induction xs generalizing x σ with
  | nil =>
    cases hrun
    exact .refl _
  | cons a xs ih =>
    rw [List.forIn_cons] at hrun
    obtain ⟨step, υ, hfirst, hrest⟩ := bind_ok hrun
    have hadds := hround a x _ _ step hfirst
    cases step with
    | done y =>
      cases hrest
      exact hadds
    | yield y => exact hadds.trans (ih hrest)

theorem adds_of_openCalls (hrun : openCalls env σ = .ok ((), τ)) : σ.Adds τ := by
  have hcall (f : SupportFunction) (code : String → String) (ρ ρ' : State)
      (hρ : (do add (code (← callSupport f))) env ρ = .ok ((), ρ')) : ρ.Adds ρ' := by
    obtain ⟨name, _, hname, hadd⟩ := bind_ok hρ
    exact (adds_of_callSupport hname).trans (adds_of_add hadd)
  unfold openCalls at hrun
  obtain ⟨v, _, hview, hrun⟩ := bind_ok hrun
  cases hview
  obtain ⟨o, _, hoptions, hrun⟩ := bind_ok hrun
  cases hoptions
  split at hrun
  · cases hrun
    exact .refl _
  · obtain ⟨u, υ, hloop, hchain⟩ := bind_ok hrun
    refine (adds_of_forIn ?_ hloop).trans ?_
    · intro _ _ ρ ρ' step hround
      obtain ⟨name, _, hname, hround⟩ := bind_ok hround
      obtain ⟨u, _, hadd, hyield⟩ := bind_ok hround
      cases hyield
      exact (adds_of_callSupport hname).trans (adds_of_add hadd)
    · split at hchain
      · exact hcall _ _ _ _ hchain
      · cases hchain
        exact .refl _

theorem adds_of_closeCalls (hrun : closeCalls env σ = .ok ((), τ)) : σ.Adds τ := by
  have hloops {n : Nat} {ρ ρ' : State} {u : PUnit}
      (hρ : (do
        for _ in List.range n do
          add "))") env ρ = .ok (u, ρ')) : ρ.Adds ρ' := by
    obtain ⟨_, _, hloop, hend⟩ := bind_ok hρ
    cases hend
    refine adds_of_forIn ?_ hloop
    intro _ _ _ _ step hround
    obtain ⟨u, _, hadd, hyield⟩ := bind_ok hround
    cases hyield
    exact adds_of_add hadd
  unfold closeCalls at hrun
  obtain ⟨v, _, hview, hrun⟩ := bind_ok hrun
  cases hview
  obtain ⟨o, _, hoptions, hrun⟩ := bind_ok hrun
  cases hoptions
  split at hrun
  · cases hrun
    exact .refl _
  · split at hrun
    · obtain ⟨u, υ, hadd, hloop⟩ := bind_ok hrun
      exact (adds_of_add hadd).trans (hloops hloop)
    · exact hloops hrun

/-- A token is written as one piece, with its gap before it, and the cursor moves on. -/
theorem write_ok {gapText before code : String}
    (hrun : write gapText before code env σ = .ok ((), τ)) :
    τ.index = σ.index + 1 ∧ ∃ opened closed : List String,
      τ.output.toList = σ.output.toList ++ .gap σ.index gapText :: opened.map .added ++
        .token σ.index code :: closed.map .added := by
  unfold write at hrun
  obtain ⟨v, _, hview, hrun⟩ := bind_ok hrun
  cases hview
  obtain ⟨_, _, hgap, hrun⟩ := bind_ok hrun
  cases hgap
  obtain ⟨_, υ, hopen, hrun⟩ := bind_ok hrun
  have hadded := adds_of_openCalls hopen
  -- The code before the token is optional; both ways end in the same three steps.
  have hlast {ρ : State} (hρ : υ.Adds ρ)
      (htoken : (do
        push (.token σ.index code)
        closeCalls
        modify fun σ => { σ with index := σ.index + 1 } : Emit Unit) env ρ = .ok ((), τ)) :
      τ.index = σ.index + 1 ∧ ∃ opened closed : List String,
        τ.output.toList = σ.output.toList ++ .gap σ.index gapText :: opened.map .added ++
          .token σ.index code :: closed.map .added := by
    obtain ⟨_, _, hpush, htoken⟩ := bind_ok htoken
    cases hpush
    obtain ⟨_, ω, hclose, hmove⟩ := bind_ok htoken
    cases hmove
    obtain ⟨hω, closed, hclosed⟩ := adds_of_closeCalls hclose
    obtain ⟨hindex, opened, hopened⟩ := hadded.trans hρ
    refine ⟨congrArg (· + 1) (hω.trans hindex), opened, closed, ?_⟩
    change ω.output.toList = _
    rw [hclosed, Array.toList_push, hopened, Array.toList_push]
    simp only [List.append_assoc, List.cons_append, List.nil_append]
  split at hrun
  · exact hlast (.refl υ) hrun
  · obtain ⟨_, _, hadd, hrun⟩ := bind_ok hrun
    exact hlast (adds_of_add hadd) hrun

end

/-! ## What a part leaves as it is -/

/-- A change of the state that leaves the cursor where it is. -/
abbrev changeState (output : State → Array Piece) (names : State → Names)
    (called : State → List SupportFunction) (variableNames : State → Array String)
    (claimedPaths : State → List String) (exports : State → ExportsSeen)
    (defaultVariable? fileNameVariable? : State → Option String) (lines : State → LineCounter)
    (mockFunctions : State → Array String) : Emit Unit :=
  modify fun σ => ⟨σ.index, output σ, names σ, called σ, variableNames σ, claimedPaths σ, exports σ,
    defaultVariable? σ, fileNameVariable? σ, lines σ, mockFunctions σ⟩

/-- Not changing what `see` sees of the state. -/
def fixing {γ : Type} (see : State → γ) : Law Emit where
  Holds {α} e := ∀ {env : Env} {σ τ : State} {a : α}, e env σ = .ok (a, τ) → see τ = see σ
  pure _ _ _ _ _ hrun := by
    cases hrun
    rfl
  bind he hf _ _ _ _ hrun := by
    obtain ⟨a, υ, hfirst, hrest⟩ := bind_ok hrun
    exact (hf a hrest).trans (he hfirst)

/-- A part of the writer that does not change what `see` sees of the state. -/
abbrev Fixes {γ : Type} (see : State → γ) {α : Type} (e : Emit α) : Prop := Obeys (fixing see) e

/-- Where the cursor is, what has been written, and which names are taken. -/
def State.place (σ : State) : Nat × Array Piece × Names := (σ.index, σ.output, σ.names)

theorem State.index_of_place {σ τ : State} (h : τ.place = σ.place) : τ.index = σ.index :=
  congrArg Prod.fst h

namespace Fixes

variable {γ : Type} {see : State → γ} {α : Type}

theorem fixes {e : Emit α} [h : Fixes see e] {env : Env} {σ τ : State} {a : α}
    (hrun : e env σ = .ok (a, τ)) : see τ = see σ :=
  h.holds hrun

instance throw (e : Failure) : Fixes see (MonadExcept.throw e : Emit α) where
  holds hrun := by cases hrun

instance fail (e : StructureError) : Fixes see (Emit.fail e : Emit α) :=
  inferInstanceAs (Fixes see (MonadExcept.throw (Failure.structureError e) : Emit α))

instance get : Fixes see (MonadState.get : Emit State) where
  holds hrun := by
    cases hrun
    rfl

instance read : Fixes see (MonadReader.read : Emit Env) where
  holds hrun := by
    cases hrun
    rfl

instance view : Fixes see view := by
  unfold Emit.view
  infer_instance

instance options : Fixes see options := by
  unfold Emit.options
  infer_instance

instance replacement? (name : String) : Fixes see (replacement? name) := by
  unfold Emit.replacement?
  infer_instance

instance place (called vars paths exports default? file? lines mocks) :
    Fixes State.place (changeState State.output State.names called vars paths exports default? file? lines mocks) where
  holds hrun := by
    cases hrun
    rfl

instance (priority := low) index (e : Emit α) [h : Fixes State.place e] : Fixes State.index e where
  holds hrun := State.index_of_place (h.fixes hrun)

instance add (code : String) : Fixes State.index (add code) where
  holds hrun := (adds_of_add hrun).1

instance claimName (base : String) : Fixes State.index (claimName base) where
  holds hrun := by
    cases hrun
    rfl

instance callSupport (f : SupportFunction) : Fixes State.place (callSupport f) := by
  unfold Emit.callSupport
  infer_instance

instance iterateFor {ι : Type} (round : ι → Emit (ForInStep ι)) [∀ x, Fixes see (round x)] (n : Nat)
    (x : ι) : Fixes see (Emit.iterateFor round n x) := by
  induction n generalizing x with
  | zero => exact inferInstanceAs (Fixes see (MonadExcept.throw .budget : Emit ι))
  | succ n ih =>
    unfold Emit.iterateFor
    refine .andThen fun step => ?_
    cases step with
    | done y => exact Obeys.pure y
    | yield y => exact ih y

instance iterate {ι : Type} (x : ι) (round : ι → Emit (ForInStep ι)) [∀ x, Fixes see (round x)] :
    Fixes see (Emit.iterate x round) := by
  unfold Emit.iterate
  infer_instance

instance loopTo (stop : Nat) (body : Emit Unit) [Fixes see body] : Fixes see (Emit.loopTo stop body) := by
  unfold Emit.loopTo Emit.loopWhileFor
  infer_instance

end Fixes

/-! ## What a part answers -/

/-- Every answer of a part of the writer has a property. -/
def Gives {α : Type} (s : Setting) (Q : α → Prop) (e : Emit α) : Prop :=
  ∀ (recur : Task → Step Unit) (σ τ : State) (a : α), e ⟨s, recur⟩ σ = .ok (a, τ) → Q a

namespace Gives

variable {s : Setting} {α β : Type} {Q : α → Prop}

theorem pure {a : α} (h : Q a) : Gives s Q (Pure.pure a) := by
  intro recur σ τ b hrun
  cases hrun
  exact h

theorem throw (e : Failure) : Gives s Q (MonadExcept.throw e : Emit α) := by
  intro recur σ τ a hrun
  cases hrun

theorem bind {e : Emit β} {f : β → Emit α} (hf : ∀ b, Gives s Q (f b)) : Gives s Q (e >>= f) := by
  intro recur σ τ a hrun
  obtain ⟨b, υ, _, hrest⟩ := bind_ok hrun
  exact hf b recur υ τ a hrest

/-- What follows a part whose answers have a property. -/
theorem andThen {P : β → Prop} {e : Emit β} {f : β → Emit α} (he : Gives s P e)
    (hf : ∀ b, P b → Gives s Q (f b)) : Gives s Q (e >>= f) := by
  intro recur σ τ a hrun
  obtain ⟨b, υ, hfirst, hrest⟩ := bind_ok hrun
  exact hf b (he recur σ υ b hfirst) recur υ τ a hrest

theorem view {P : View → Prop} (h : ∀ i, P ⟨s.tape, i⟩) : Gives s P view := by
  intro recur σ τ v hrun
  cases hrun
  exact h σ.index

end Gives

/-- A part of the writer that writes the token at an index as a given code and moves on. -/
class Writes (s : Setting) (i : Nat) (e : Emit Unit) (code : outParam String) : Prop where
  writes {recur : Task → Step Unit} {σ τ : State} (hindex : σ.index = i)
    (hrun : e ⟨s, recur⟩ σ = .ok ((), τ)) :
    τ.index = i + 1 ∧ ∃ (gapText : String) (opened closed : List String),
      τ.output.toList = σ.output.toList ++ .gap i gapText :: opened.map .added ++
        .token i code :: closed.map .added

section

variable {s : Setting} {i : Nat}

instance writes_write (gapText before code : String) :
    Writes s i (write gapText before code) code where
  writes hindex hrun := by
    subst hindex
    obtain ⟨hnext, opened, closed, houtput⟩ := write_ok hrun
    exact ⟨hnext, gapText, opened, closed, houtput⟩

/-- Looking at the gap before a token writes nothing. -/
theorem writes_of_gap {f : String → Emit Unit} {code : String} (hf : ∀ text, Writes s i (f text) code) :
    Writes s i (gap >>= f) code where
  writes {recur σ τ} hindex hrun := by
    obtain ⟨text, υ, hgap, hrest⟩ := bind_ok hrun
    have hυ : υ = σ := by
      unfold gap at hgap
      obtain ⟨v, _, hview, hgap⟩ := bind_ok hgap
      cases hview
      obtain ⟨o, _, hoptions, hgap⟩ := bind_ok hgap
      cases hoptions
      split at hgap <;> cases hgap <;> rfl
    subst hυ
    exact (hf text).writes hindex hrest

instance writes_replace (code : String) : Writes s i (replace code) code :=
  writes_of_gap fun _ => inferInstance

instance (code : String) : Writes s i (replaceTrimmed code) code :=
  writes_of_gap fun _ => inferInstance

instance : Writes s i removeFirst "" := inferInstanceAs (Writes s i (replace "") "")

instance : Writes s i remove "" := inferInstanceAs (Writes s i (replaceTrimmed "") "")

/-- Copying a token writes its text. -/
theorem writes_of_view {f : View → Emit Unit} {code : String}
    (hf : Writes s i (f ⟨s.tape, i⟩) code) : Writes s i (view >>= f) code where
  writes hindex hrun := by
    subst hindex
    exact hf.writes rfl hrun

instance writes_copy : Writes s i copy (s.tape.text i) :=
  writes_of_gap fun _ => writes_of_view (writes_write _ _ _)

instance (code : String) : Writes s i (copyAfter code) (s.tape.text i) :=
  writes_of_gap fun _ => writes_of_view (writes_write _ _ _)

instance (kind : TokenKind) : Writes s i (copyExpected kind) (s.tape.text i) where
  writes hindex hrun := by
    unfold copyExpected at hrun
    obtain ⟨v, _, hview, hrun⟩ := bind_ok hrun
    cases hview
    split at hrun
    · exact writes_copy.writes hindex hrun
    · cases hrun

end

/-- A class outline that is read off a tape. -/
class IsOutline (t : Tape) (c : ClassOutline) : Prop where
  read : ∃ keepsFields names names' i, ClassOutline.read t keepsFields names i = .ok (c, names')

/-- What replaces the name at an index. Only a name that the parser has marked as a reference is
replaced, and only where no inner declaration hides what it refers to. -/
def Setting.replacementAt? (s : Setting) (i : Nat) : Option String :=
  let token := s.tape.get i
  if token.shadowsGlobal then none
  else
    match token.role? with
    | some .access | some .objectShorthand => s.plan.replacement? (s.tape.text i)
    | _ => none

theorem Setting.replacementAt?_eq_none {s : Setting} {i : Nat}
    (h : s.plan.replacement? (s.tape.text i) = none) : s.replacementAt? i = none := by
  unfold replacementAt?
  dsimp only
  split
  · rfl
  · split <;> first | exact h | rfl

/-- Why a name is written as it stands. -/
inductive Stays (s : Setting) (i : Nat) : Prop
  /-- Nothing replaces the name. -/
  | unreplaced (h : s.replacementAt? i = none)
  /-- The name of a property. -/
  | property (h : (s.tape.before i).kind = .dot)
  | decorator (h : (s.tape.before i).kind = .atSign)
  | functionName (h : (s.tape.before i).kind = .functionWord ∨
      (s.tape.before i).kind = .star ∧ (s.tape.before (i - 1)).kind = .functionWord)
  /-- The word `async`. -/
  | asyncFunction (h : s.tape.hasAsync i = true) (hnext : s.tape.kind (i + 1) = .functionWord)
  | field (c : ClassOutline) (h : IsOutline s.tape c) (f : Field) (hf : f ∈ c.fields)
      (hstart : f.range.start = i)
  /-- The place in a constructor where initial values are set. -/
  | constructorStart (c : ClassOutline) (h : IsOutline s.tape c) (hinsert : c.insertAt? = some i)
  /-- The name of an attribute. -/
  | attribute (h : s.tape.kind i = .jsxName) (hjsx : s.options.has .jsx = true)

/-- A token that may be written as it stands. -/
class MayStay (s : Setting) (i : Nat) : Prop where
  stays (hname : Shadowing.isNameToken (s.tape.get i) = true) : Stays s i

/-- A token that is no name. -/
class NotName (s : Setting) (i : Nat) : Prop where
  kind : Shadowing.isNameToken (s.tape.get i) = false

instance (s : Setting) (i : Nat) [h : NotName s i] : MayStay s i where
  stays hname := absurd hname (by simp [h.kind])

/-- A token is written for a reason if it is a name that is written as it stands. -/
def Justified (s : Setting) (i : Nat) (code : String) : Prop :=
  Shadowing.isNameToken (s.tape.get i) = true → code = s.tape.text i → mayBeName code = true →
    Stays s i

/-! ## Parts and what they consist of -/

instance (f) : DefinedBy (callSupport.eq_def f) := ⟨rfl⟩

instance : DefinedBy eraseArrowReturnType.eq_def := ⟨rfl⟩

instance : DefinedBy eraseAsyncArrowParameters.eq_def := ⟨rfl⟩

instance : DefinedBy options.eq_def := ⟨rfl⟩

instance : DefinedBy removeExportType.eq_def := ⟨rfl⟩

instance : DefinedBy typePass.eq_def := ⟨rfl⟩

instance : DefinedBy CommonJs.complexVariable.eq_def := ⟨rfl⟩

instance : DefinedBy CommonJs.decoratedClass.eq_def := ⟨rfl⟩

instance : DefinedBy CommonJs.exportClause.eq_def := ⟨rfl⟩

instance : DefinedBy CommonJs.exportDeclaration.eq_def := ⟨rfl⟩

instance : DefinedBy CommonJs.exportDefault.eq_def := ⟨rfl⟩

instance : DefinedBy CommonJs.exportStar.eq_def := ⟨rfl⟩

instance : DefinedBy CommonJs.exportStatement.eq_def := ⟨rfl⟩

instance (token) : DefinedBy (CommonJs.exportTarget?.eq_def token) := ⟨rfl⟩

instance : DefinedBy CommonJs.importEquals.eq_def := ⟨rfl⟩

instance : DefinedBy CommonJs.importStatement.eq_def := ⟨rfl⟩

instance : DefinedBy CommonJs.namedFunction.eq_def := ⟨rfl⟩

instance : DefinedBy CommonJs.removeToPath.eq_def := ⟨rfl⟩

instance : DefinedBy CommonJs.simpleVariable.eq_def := ⟨rfl⟩

instance : DefinedBy Element.children.eq_def := ⟨rfl⟩

instance : DefinedBy Element.element.eq_def := ⟨rfl⟩

instance (line?) : DefinedBy (Element.properties.eq_def line?) := ⟨rfl⟩

instance (name) : DefinedBy (Element.resolved.eq_def name) := ⟨rfl⟩

instance : DefinedBy Element.tag.eq_def := ⟨rfl⟩

instance : DefinedBy EsModule.exportDefault.eq_def := ⟨rfl⟩

instance : DefinedBy EsModule.importClause.eq_def := ⟨rfl⟩

instance : DefinedBy EsModule.importEquals.eq_def := ⟨rfl⟩

instance : DefinedBy EsModule.removeToPath.eq_def := ⟨rfl⟩

/-! Parts of rules of which something is known by itself. -/

/-- A class from its word on, and what follows it. -/
abbrev Class.rest (c : ClassOutline) (className : String) (calls : Emit Unit) : Emit Unit := do
  let some contextId := (← view).token.contextId? | fail .classContextMissing
  Class.header contextId
  Class.body c className
  calls

/-- A round of the loop over the body of a class. -/
abbrev Class.bodyRound (c : ClassOutline) (className : String) (contextId? : Option Nat)
    (p : Class.Pending) : Emit (ForInStep Class.Pending) := do
  let v ← view
  if v.hasContext .braceClose contextId? then return .done p
  if v.isAtEnd then fail .classBodyUnfinished
  return .yield (← Class.bodyPart c className p)

/-- A function from its name on. -/
abbrev CommonJs.functionFromName : Emit String := do
  let v ← view
  if v.kind != .name then fail .functionNameMissing
  copy
  discard eraseTypes
  copyEnclosed .parenOpen .parenClose
  discard eraseTypes
  copyEnclosed .braceOpen .braceClose
  return v.text

/-- A dynamic import behind its word. -/
abbrev CommonJs.importRest (closing : String) : Emit Unit := do
  let some contextId := (← view).token.contextId? | fail .dynamicImportContextMissing
  copy
  iterate () fun _ => do
    let v ← view
    if v.hasContext .parenClose (some contextId) then return .done ()
    if v.isAtEnd then fail .dynamicImportUnfinished
    processToken
    return .yield ()
  replace closing

/-- The value of a variable, and its export. -/
abbrev CommonJs.assignmentRest (name : String) : Emit Unit := do
  let some stop := (← view).token.rhsEnd? | fail .assignmentEndMissing
  processTo stop
  add ("; exports." ++ name ++ " = " ++ name)

/-- The rule for a token of a kind that is not the first one of a statement. -/
abbrev CommonJs.ruleFor (kind : TokenKind) : Emit Bool :=
  match kind with
  | .name | .jsxName => CommonJs.identifier
  | .equals => CommonJs.assignment
  | .compoundAssign => CommonJs.compoundAssignment
  | .increment => CommonJs.prefixIncrement
  | _ => return false

/-! ## Courses -/

/-- What parts of the writer do to the state: a relation that carries over from one part to the next,
given what the tasks do and what holds of the state at the start. -/
structure Course where
  Tasks : (Task → Step Unit) → Prop
  Fit : State → Prop
  Rel : State → State → Prop
  refl {σ : State} : Fit σ → Rel σ σ
  trans {σ τ υ : State} : Rel σ τ → Rel τ υ → Rel σ υ
  fit {σ τ : State} : Rel σ τ → Fit τ
  index_le {σ τ : State} : Rel σ τ → σ.index ≤ τ.index

/-- A part of the writer that takes a course when the cursor is at an index. -/
class Takes (c : Course) (s : Setting) (i : Nat) {α : Type} (e : Emit α) : Prop where
  takes {recur : Task → Step Unit} {σ τ : State} {a : α} (hrecur : c.Tasks recur) (hfit : c.Fit σ)
    (hindex : σ.index = i) (hrun : e ⟨s, recur⟩ σ = .ok (a, τ)) : c.Rel σ τ

namespace Takes

variable {c : Course} {s : Setting} {i : Nat} {α β : Type}

instance (priority := low) ofUnfolds (e : Emit α) {body : Emit α} [h : Unfolds e body]
    [hbody : Takes c s i body] : Takes c s i e := by
  rw [h.eq]
  exact hbody

instance pure (a : α) : Takes c s i (Pure.pure a : Emit α) where
  takes _ hfit _ hrun := by
    cases hrun
    exact c.refl hfit

/-- What follows a part whose answers have a property. -/
theorem afterGives {Q : α → Prop} {e : Emit α} {f : α → Emit β} [he : Takes c s i e]
    (hQ : Gives s Q e) (hf : ∀ a k, Q a → Takes c s (i + k) (f a)) : Takes c s i (e >>= f) where
  takes hrecur hfit hindex hrun := by
    obtain ⟨a, υ, hfirst, hrest⟩ := bind_ok hrun
    have hυ := he.takes hrecur hfit hindex hfirst
    obtain ⟨k, hk⟩ := Nat.exists_eq_add_of_le (hindex ▸ c.index_le hυ)
    exact c.trans hυ ((hf a k (hQ _ _ _ _ hfirst)).takes hrecur (c.fit hυ) hk hrest)

instance (priority := low) bind (e : Emit α) (f : α → Emit β) [Takes c s i e]
    [hf : ∀ a k, Takes c s (i + k) (f a)] : Takes c s i (e >>= f) :=
  afterGives (Q := fun _ => True) (fun _ _ _ _ _ => trivial) fun a k _ => hf a k

/-- A part and what follows it, for a part that ends in a case distinction. -/
theorem andThen {e : Emit α} {f : α → Emit β} [Takes c s i e]
    (hf : ∀ a k, Takes c s (i + k) (f a)) : Takes c s i (e >>= f) :=
  bind e f

instance ite (p : Prop) [Decidable p] (a b : Emit α) [Takes c s i a] [Takes c s i b] :
    Takes c s i (if p then a else b) := by
  split <;> infer_instance

instance map (f : α → β) (e : Emit α) [Takes c s i e] : Takes c s i (f <$> e) := by
  rw [map_eq_pure_bind]
  infer_instance

instance discard (e : Emit α) [Takes c s i e] : Takes c s i (Functor.discard e) := by
  unfold Functor.discard
  exact Takes.map _ e

instance throw (e : Failure) : Takes c s i (MonadExcept.throw e : Emit α) where
  takes _ _ _ hrun := by cases hrun

instance fail (e : StructureError) : Takes c s i (Emit.fail e : Emit α) :=
  inferInstanceAs (Takes c s i (MonadExcept.throw (Failure.structureError e) : Emit α))

/-- Nothing follows a failure. -/
instance afterFail (e : StructureError) (f : β → Emit α) : Takes c s i (Emit.fail e >>= f) where
  takes _ _ _ hrun := by
    obtain ⟨_, _, hfail, _⟩ := bind_ok hrun
    cases hfail

instance get : Takes c s i (MonadState.get : Emit State) where
  takes _ hfit _ hrun := by
    cases hrun
    exact c.refl hfit

instance read : Takes c s i (MonadReader.read : Emit Env) where
  takes _ hfit _ hrun := by
    cases hrun
    exact c.refl hfit

/-- What follows a look at the state still knows where the cursor is. -/
instance afterGet (f : State → Emit α) [hf : ∀ σ, Takes c s i (f σ)] :
    Takes c s i (MonadState.get >>= f) where
  takes hrecur hfit hindex hrun := (hf _).takes hrecur hfit hindex hrun

instance afterRead (f : Env → Emit α) [hf : ∀ recur, Takes c s i (f ⟨s, recur⟩)] :
    Takes c s i (MonadReader.read >>= f) where
  takes hrecur hfit hindex hrun := (hf _).takes hrecur hfit hindex hrun

instance afterView (f : View → Emit α) [hf : Takes c s i (f ⟨s.tape, i⟩)] :
    Takes c s i (Emit.view >>= f) where
  takes hrecur hfit hindex hrun := by
    subst hindex
    exact hf.takes hrecur hfit rfl hrun

/-- What follows a look at the tokens, for a part that ends in a case distinction. -/
theorem look {f : View → Emit α} (hf : Takes c s i (f ⟨s.tape, i⟩)) : Takes c s i (Emit.view >>= f) :=
  afterView f

instance afterOptions (f : Options → Emit α) [hf : Takes c s i (f s.options)] :
    Takes c s i (Emit.options >>= f) where
  takes hrecur hfit hindex hrun := hf.takes hrecur hfit hindex hrun

instance afterReplacement? (name : String) (f : Option String → Emit α)
    [hf : Takes c s i (f (s.plan.replacement? name))] : Takes c s i (Emit.replacement? name >>= f) where
  takes hrecur hfit hindex hrun := hf.takes hrecur hfit hindex hrun

/-- What follows a part that leaves the cursor where it is. -/
instance (priority := 900) afterFixes (e : Emit α) (f : α → Emit β) [he : Takes c s i e]
    [hfixes : Fixes State.index e] [hf : ∀ a, Takes c s i (f a)] : Takes c s i (e >>= f) where
  takes hrecur hfit hindex hrun := by
    obtain ⟨a, υ, hfirst, hrest⟩ := bind_ok hrun
    have hυ := he.takes hrecur hfit hindex hfirst
    exact c.trans hυ ((hf a).takes hrecur (c.fit hυ) ((hfixes.fixes hfirst).trans hindex) hrest)

theorem afterLook {e : Emit α} {f : α → Emit β} [Takes c s i e] [Fixes State.index e]
    (hf : ∀ a, Takes c s i (f a)) : Takes c s i (e >>= f) :=
  afterFixes e f

/-! ## Loops -/

instance iterateFor {ι : Type} (round : ι → Emit (ForInStep ι))
    [hround : ∀ x k, Takes c s (i + k) (round x)] (n : Nat) (x : ι) :
    Takes c s i (Emit.iterateFor round n x) := by
  have hloop (n k : Nat) (x : ι) : Takes c s (i + k) (Emit.iterateFor round n x) := by
    induction n generalizing k x with
    | zero => exact Takes.throw _
    | succ n ih =>
      unfold Emit.iterateFor
      refine .andThen fun step k' => ?_
      split
      · infer_instance
      · rw [Nat.add_assoc]
        exact ih _ _
  exact hloop n 0 x

instance iterate {ι : Type} (x : ι) (round : ι → Emit (ForInStep ι))
    [∀ x k, Takes c s (i + k) (round x)] : Takes c s i (Emit.iterate x round) := by
  unfold Emit.iterate
  infer_instance

/-- A loop, for rounds that end in a case distinction. -/
theorem ofRounds {ι : Type} {x : ι} {round : ι → Emit (ForInStep ι)}
    (h : ∀ x k, Takes c s (i + k) (round x)) : Takes c s i (Emit.iterate x round) :=
  iterate x round

/-- A loop whose body may rely on the condition. -/
theorem ofLoopWhileFor {n : Nat} {condition : View → Bool} {body : Emit Unit}
    (h : ∀ k, condition ⟨s.tape, i + k⟩ = true → Takes c s (i + k) body) :
    Takes c s i (Emit.loopWhileFor n condition body) := by
  have hround (u : Unit) (k : Nat) : Takes c s (i + k) (do
      if condition (← view) then
        body
        Pure.pure (.yield ())
      else Pure.pure (.done u) : Emit (ForInStep Unit)) := by
    have hbody := h k
    refine .look ?_
    split
    · have := hbody ‹_›
      infer_instance
    · infer_instance
  unfold Emit.loopWhileFor
  infer_instance

theorem ofLoopWhile {condition : View → Bool} {body : Emit Unit}
    (h : ∀ k, condition ⟨s.tape, i + k⟩ = true → Takes c s (i + k) body) :
    Takes c s i (Emit.loopWhile condition body) := by
  have hloop (n : Nat) : Takes c s i (Emit.loopWhileFor n condition body) := ofLoopWhileFor h
  unfold Emit.loopWhile
  infer_instance

instance loopWhile (condition : View → Bool) (body : Emit Unit) [h : ∀ k, Takes c s (i + k) body] :
    Takes c s i (Emit.loopWhile condition body) :=
  ofLoopWhile fun k _ => h k

instance loopTo (stop : Nat) (body : Emit Unit) [h : ∀ k, Takes c s (i + k) body] :
    Takes c s i (Emit.loopTo stop body) :=
  ofLoopWhileFor fun k _ => h k

end Takes

/-- A part of the writer that takes a course when the cursor is at an index, with what is known about
its answer and its end. -/
def TakesTo (c : Course) (s : Setting) (i : Nat) {α : Type} (Q : α → Nat → Prop) (e : Emit α) : Prop :=
  ∀ (recur : Task → Step Unit) (σ τ : State) (a : α), c.Tasks recur → c.Fit σ → σ.index = i →
    e ⟨s, recur⟩ σ = .ok (a, τ) → c.Rel σ τ ∧ Q a τ.index

namespace TakesTo

variable {c : Course} {s : Setting} {i : Nat} {α β : Type} {Q : α → Nat → Prop} {P : β → Nat → Prop}

theorem takes {e : Emit α} (he : TakesTo c s i Q e) : Takes c s i e :=
  ⟨fun hrecur hfit hindex hrun => (he _ _ _ _ hrecur hfit hindex hrun).1⟩

theorem of_takes {e : Emit α} [he : Takes c s i e] : TakesTo c s i (fun _ _ => True) e :=
  fun _ _ _ _ hrecur hfit hindex hrun => ⟨he.takes hrecur hfit hindex hrun, trivial⟩

theorem pure {a : α} (ha : Q a i) : TakesTo c s i Q (Pure.pure a) := by
  intro recur σ τ b hrecur hfit hindex hrun
  cases hrun
  exact ⟨c.refl hfit, hindex ▸ ha⟩

theorem fail (e : StructureError) : TakesTo c s i Q (Emit.fail e : Emit α) := by
  intro recur σ τ a hrecur hfit hindex hrun
  cases hrun

theorem afterFail {e : StructureError} {f : β → Emit α} : TakesTo c s i Q (Emit.fail e >>= f) := by
  intro recur σ τ a hrecur hfit hindex hrun
  obtain ⟨_, _, hfail, _⟩ := bind_ok hrun
  cases hfail

theorem bind {e : Emit β} {f : β → Emit α} (he : TakesTo c s i P e)
    (hf : ∀ b k, P b (i + k) → TakesTo c s (i + k) Q (f b)) : TakesTo c s i Q (e >>= f) := by
  intro recur σ τ a hrecur hfit hindex hrun
  obtain ⟨b, υ, hfirst, hrest⟩ := bind_ok hrun
  obtain ⟨hυ, hP⟩ := he recur σ υ b hrecur hfit hindex hfirst
  obtain ⟨k, hk⟩ := Nat.exists_eq_add_of_le (hindex ▸ c.index_le hυ)
  obtain ⟨hτ, hQ⟩ := hf b k (hk ▸ hP) recur υ τ a hrecur (c.fit hυ) hk hrest
  exact ⟨c.trans hυ hτ, hQ⟩

theorem view {f : View → Emit α} (hf : TakesTo c s i Q (f ⟨s.tape, i⟩)) :
    TakesTo c s i Q (Emit.view >>= f) := by
  intro recur σ τ a hrecur hfit hindex hrun
  subst hindex
  exact hf recur σ τ a hrecur hfit rfl hrun

theorem options {f : Options → Emit α} (hf : TakesTo c s i Q (f s.options)) :
    TakesTo c s i Q (Emit.options >>= f) :=
  hf

theorem imp {Q' : α → Nat → Prop} {e : Emit α} (he : TakesTo c s i Q e)
    (himp : ∀ a j, i ≤ j → Q a j → Q' a j) : TakesTo c s i Q' e := by
  intro recur σ τ a hrecur hfit hindex hrun
  obtain ⟨hτ, hQ⟩ := he recur σ τ a hrecur hfit hindex hrun
  exact ⟨hτ, himp a _ (hindex ▸ c.index_le hτ) hQ⟩

theorem ofFixes {e : Emit α} [he : Takes c s i e] [hfixes : Fixes State.index e]
    (hQ : ∀ a, Q a i) : TakesTo c s i Q e := by
  intro recur σ τ a hrecur hfit hindex hrun
  refine ⟨he.takes hrecur hfit hindex hrun, ?_⟩
  rw [hfixes.fixes hrun, hindex]
  exact hQ a

theorem look {e : Emit β} {f : β → Emit α} [Takes c s i e] [Fixes State.index e]
    (hf : ∀ b, TakesTo c s i Q (f b)) : TakesTo c s i Q (e >>= f) := by
  refine bind (ofFixes (e := e) (Q := fun _ j => j = i) fun _ => rfl) fun b k hk => ?_
  rw [hk]
  exact hf b

theorem afterGives {R : β → Prop} {e : Emit β} {f : β → Emit α} [he : Takes c s i e]
    [hfixes : Fixes State.index e] (hR : Gives s R e) (hf : ∀ b, R b → TakesTo c s i Q (f b)) :
    TakesTo c s i Q (e >>= f) := by
  refine bind (P := fun b j => R b ∧ j = i) ?_ fun b k hk => ?_
  · intro recur σ τ b hrecur hfit hindex hrun
    exact ⟨he.takes hrecur hfit hindex hrun, hR _ _ _ _ hrun, (hfixes.fixes hrun).trans hindex⟩
  · rw [hk.2]
    exact hf b hk.1

theorem ofGives {Q : α → Prop} {e : Emit α} [he : Takes c s i e] (h : Gives s Q e) :
    TakesTo c s i (fun a _ => Q a) e :=
  fun _ _ _ _ hrecur hfit hindex hrun => ⟨he.takes hrecur hfit hindex hrun, h _ _ _ _ hrun⟩

theorem ofWrites {e : Emit Unit} {code : String} {Q : Unit → Nat → Prop} [he : Takes c s i e]
    [hwrites : Writes s i e code] (hQ : Q () (i + 1)) : TakesTo c s i Q e := by
  intro recur σ τ a hrecur hfit hindex hrun
  exact ⟨he.takes hrecur hfit hindex hrun, (hwrites.writes hindex hrun).1 ▸ hQ⟩

theorem afterWrites {e : Emit Unit} {code : String} {f : Unit → Emit α} [Takes c s i e]
    [Writes s i e code] (hf : ∀ u, TakesTo c s (i + 1) Q (f u)) : TakesTo c s i Q (e >>= f) := by
  refine bind (ofWrites (e := e) (Q := fun _ j => j = i + 1) rfl) fun u k hk => ?_
  rw [hk]
  exact hf u

theorem discard {Q : Nat → Prop} {e : Emit α} (he : TakesTo c s i (fun _ j => Q j) e) :
    TakesTo c s i (fun _ j => Q j) (Functor.discard e) := by
  unfold Functor.discard
  change TakesTo c s i _ ((fun _ => PUnit.unit) <$> e)
  rw [map_eq_pure_bind]
  exact he.bind fun _ _ hj => pure hj

/-- A loop whose rounds keep an invariant of what they pass on and of the cursor. -/
theorem iterateFor {ι : Type} {round : ι → Emit (ForInStep ι)} (I : ι → Nat → Prop)
    {R : ι → Nat → Prop}
    (hround : ∀ x j, I x j → TakesTo c s j (fun step j' => (∀ y, step = .yield y → I y j') ∧
      ∀ y, step = .done y → R y j') (round x))
    {n : Nat} {x : ι} (hx : I x i) : TakesTo c s i R (Emit.iterateFor round n x) := by
  induction n generalizing x i with
  | zero =>
    intro recur σ τ a hrecur hfit hindex hrun
    cases hrun
  | succ n ih =>
    unfold Emit.iterateFor
    refine bind (hround x i hx) fun step k hstep => ?_
    cases step with
    | done y => exact pure (hstep.2 y rfl)
    | yield y => exact ih (hstep.1 y rfl)

theorem iterate {ι : Type} {x : ι} {round : ι → Emit (ForInStep ι)} (I : ι → Nat → Prop)
    {R : ι → Nat → Prop}
    (hround : ∀ x j, I x j → TakesTo c s j (fun step j' => (∀ y, step = .yield y → I y j') ∧
      ∀ y, step = .done y → R y j') (round x))
    (hx : I x i) : TakesTo c s i R (Emit.iterate x round) :=
  fun recur => iterateFor I hround hx recur

theorem loopWhileFor {n : Nat} {condition : View → Bool} {body : Emit Unit} (I : Nat → Prop)
    (hbody : ∀ j, I j → condition ⟨s.tape, j⟩ = true → TakesTo c s j (fun _ k => I k) body)
    (hi : I i) : TakesTo c s i (fun _ j => I j ∧ condition ⟨s.tape, j⟩ = false)
      (Emit.loopWhileFor n condition body) := by
  unfold Emit.loopWhileFor
  refine iterateFor (fun _ => I) (fun _ j hj => view ?_) hi
  split
  next hgo => exact (hbody j hj hgo).bind fun _ _ hk => pure ⟨fun _ _ => hk, fun _ => elim_yield⟩
  next hstop => exact pure ⟨fun _ => elim_done, fun _ _ => ⟨hj, Bool.eq_false_iff.2 hstop⟩⟩

theorem loopWhile {condition : View → Bool} {body : Emit Unit} (I : Nat → Prop)
    (hbody : ∀ j, I j → condition ⟨s.tape, j⟩ = true → TakesTo c s j (fun _ k => I k) body)
    (hi : I i) : TakesTo c s i (fun _ j => I j ∧ condition ⟨s.tape, j⟩ = false)
      (Emit.loopWhile condition body) :=
  fun recur => loopWhileFor I hbody hi recur

theorem loopTo {stop : Nat} {body : Emit Unit} (hle : i ≤ stop)
    (hbody : ∀ j, i ≤ j → j < stop → TakesTo c s j (fun _ k => k = j + 1) body) :
    TakesTo c s i (fun _ j => j = stop) (Emit.loopTo stop body) := by
  have hloop : TakesTo c s i (fun _ j => (i ≤ j ∧ j ≤ stop) ∧
      (View.index ⟨s.tape, j⟩ < stop : Bool) = false) (Emit.loopTo stop body) := by
    refine loopWhileFor (fun j => i ≤ j ∧ j ≤ stop) (fun j hj hlt => ?_) ⟨Nat.le_refl i, hle⟩
    have hlt : j < stop := of_decide_eq_true hlt
    exact (hbody j hj.1 hlt).imp fun _ k _ hk => by omega
  refine hloop.imp fun _ j _ hj => ?_
  have hge : ¬ j < stop := of_decide_eq_false hj.2
  omega

end TakesTo

theorem Takes.takesTo {c : Course} {s : Setting} {i : Nat} {α : Type} {e : Emit α}
    (he : Takes c s i e) : TakesTo c s i (fun _ _ => True) e :=
  .of_takes

/-- What follows a part with what is known about its end. -/
theorem Takes.afterTo {c : Course} {s : Setting} {i : Nat} {α β : Type} {Q : α → Nat → Prop}
    {e : Emit α} {f : α → Emit β} (he : TakesTo c s i Q e)
    (hf : ∀ a k, Q a (i + k) → Takes c s (i + k) (f a)) : Takes c s i (e >>= f) :=
  (he.bind fun a k hk => (hf a k hk).takesTo).takes

/-- Where a part of the writer that starts at an index takes the state from one property to another, with
what is known about its answer and its end. -/
def Arrives (Tasks : (Task → Step Unit) → Prop) (F G : State → Prop) (s : Setting) (i : Nat) {α : Type}
    (Q : α → Nat → Prop) (e : Emit α) : Prop :=
  ∀ (recur : Task → Step Unit) (σ τ : State) (a : α), Tasks recur → F σ → σ.index = i →
    e ⟨s, recur⟩ σ = .ok (a, τ) → G τ ∧ Q a τ.index

namespace Arrives

variable {T : (Task → Step Unit) → Prop} {F G H : State → Prop} {s : Setting} {i : Nat} {α β ι : Type}
  {Q : α → Nat → Prop} {P : β → Nat → Prop} {R : ι → Nat → Prop}

theorem pure {a : α} (ha : Q a i) : Arrives T F F s i Q (Pure.pure a) := by
  intro recur σ τ b hrecur hσ hindex hrun
  cases hrun
  exact ⟨hσ, hindex ▸ ha⟩

theorem fail (e : StructureError) : Arrives T F G s i Q (Emit.fail e : Emit α) := by
  intro recur σ τ a hrecur hσ hindex hrun
  cases hrun

theorem afterFail {e : StructureError} {f : β → Emit α} : Arrives T F G s i Q (Emit.fail e >>= f) := by
  intro recur σ τ a hrecur hσ hindex hrun
  obtain ⟨_, _, hfail, _⟩ := bind_ok hrun
  cases hfail

theorem bind {e : Emit β} {f : β → Emit α} (he : Arrives T F G s i P e)
    (hf : ∀ b j, P b j → Arrives T G H s j Q (f b)) : Arrives T F H s i Q (e >>= f) := by
  intro recur σ τ a hrecur hσ hindex hrun
  obtain ⟨b, υ, hfirst, hrest⟩ := bind_ok hrun
  obtain ⟨hυ, hP⟩ := he recur σ υ b hrecur hσ hindex hfirst
  exact hf b _ hP recur υ τ a hrecur hυ rfl hrest

theorem imp {Q' : α → Nat → Prop} {e : Emit α} (he : Arrives T F G s i Q e)
    (himp : ∀ a j, Q a j → Q' a j) : Arrives T F G s i Q' e := by
  intro recur σ τ a hrecur hσ hindex hrun
  obtain ⟨hτ, hQ⟩ := he recur σ τ a hrecur hσ hindex hrun
  exact ⟨hτ, himp a _ hQ⟩

theorem view {f : View → Emit α} (hf : Arrives T F G s i Q (f ⟨s.tape, i⟩)) :
    Arrives T F G s i Q (Emit.view >>= f) := by
  intro recur σ τ a hrecur hσ hindex hrun
  subst hindex
  exact hf recur σ τ a hrecur hσ rfl hrun

theorem options {f : Options → Emit α} (hf : Arrives T F G s i Q (f s.options)) :
    Arrives T F G s i Q (Emit.options >>= f) :=
  hf

theorem read {f : Env → Emit α} (hf : ∀ recur, Arrives T F G s i Q (f ⟨s, recur⟩)) :
    Arrives T F G s i Q (MonadReader.read >>= f) :=
  fun recur σ τ a hrecur hσ hindex hrun => hf recur recur σ τ a hrecur hσ hindex hrun

theorem get {f : State → Emit α} (hf : ∀ σ, Arrives T F G s i Q (f σ)) :
    Arrives T F G s i Q (MonadState.get >>= f) :=
  fun recur σ τ a hrecur hσ hindex hrun => hf σ recur σ τ a hrecur hσ hindex hrun

theorem discard {Q : Nat → Prop} {e : Emit α} (he : Arrives T F G s i (fun _ j => Q j) e) :
    Arrives T F G s i (fun _ j => Q j) (Functor.discard e) := by
  unfold Functor.discard
  change Arrives T F G s i _ ((fun _ => PUnit.unit) <$> e)
  rw [map_eq_pure_bind]
  exact he.bind fun _ _ hj => pure hj

/-- A loop whose rounds keep an invariant of what they pass on and of the cursor. -/
theorem iterateFor {round : ι → Emit (ForInStep ι)} (I : ι → Nat → Prop)
    (hround : ∀ x j, I x j → Arrives T F F s j (fun step j' => (∀ y, step = .yield y → I y j') ∧
      ∀ y, step = .done y → R y j') (round x))
    {n : Nat} {x : ι} (hx : I x i) : Arrives T F F s i R (Emit.iterateFor round n x) := by
  induction n generalizing x i with
  | zero =>
    intro recur σ τ a hrecur hσ hindex hrun
    cases hrun
  | succ n ih =>
    unfold Emit.iterateFor
    refine bind (hround x i hx) fun step k hstep => ?_
    cases step with
    | done y => exact pure (hstep.2 y rfl)
    | yield y => exact ih (hstep.1 y rfl)

theorem iterate {x : ι} {round : ι → Emit (ForInStep ι)} (I : ι → Nat → Prop)
    (hround : ∀ x j, I x j → Arrives T F F s j (fun step j' => (∀ y, step = .yield y → I y j') ∧
      ∀ y, step = .done y → R y j') (round x))
    (hx : I x i) : Arrives T F F s i R (Emit.iterate x round) :=
  fun recur => iterateFor I hround hx recur

theorem loopWhileFor {n : Nat} {condition : View → Bool} {body : Emit Unit} (I : Nat → Prop)
    (hbody : ∀ j, I j → condition ⟨s.tape, j⟩ = true → Arrives T F F s j (fun _ k => I k) body)
    (hi : I i) : Arrives T F F s i (fun _ j => I j ∧ condition ⟨s.tape, j⟩ = false)
      (Emit.loopWhileFor n condition body) := by
  unfold Emit.loopWhileFor
  refine iterateFor (fun _ => I) (fun _ j hj => view ?_) hi
  split
  next hgo => exact (hbody j hj hgo).bind fun _ _ hk => pure ⟨fun _ _ => hk, fun _ => elim_yield⟩
  next hstop => exact pure ⟨fun _ => elim_done, fun _ _ => ⟨hj, Bool.eq_false_iff.2 hstop⟩⟩

theorem loopTo {stop : Nat} {body : Emit Unit}
    (hbody : ∀ j, Arrives T F F s j (fun _ k => k = j + 1) body) (hi : i ≤ stop) :
    Arrives T F F s i (fun _ j => j = stop) (Emit.loopTo stop body) := by
  have hloop : Arrives T F F s i (fun _ j => j ≤ stop ∧
      (View.index ⟨s.tape, j⟩ < stop : Bool) = false) (Emit.loopTo stop body) := by
    refine loopWhileFor (· ≤ stop) (fun j hj hlt => (hbody j).imp fun _ k hk => ?_) hi
    have hlt : j < stop := of_decide_eq_true hlt
    omega
  refine hloop.imp fun _ j hj => ?_
  have hge : ¬ j < stop := of_decide_eq_false hj.2
  omega

end Arrives

/-- The output of the second state goes on where that of the first one ends: the cursor has not
moved back, and the tokens between the two cursors have been written, with reasons. -/
def State.Extends (s : Setting) (σ τ : State) : Prop :=
  σ.index ≤ τ.index ∧ ∃ pieces : List Piece, τ.output.toList = σ.output.toList ++ pieces ∧
    ∀ i code, Piece.token i code ∈ pieces → σ.index ≤ i ∧ i < τ.index ∧ Justified s i code

namespace State.Extends

variable {s : Setting} {σ τ υ : State}

theorem of_eq (hindex : τ.index = σ.index) (houtput : τ.output = σ.output) : σ.Extends s τ :=
  ⟨Nat.le_of_eq hindex.symm, [], by simp [houtput], nofun⟩

theorem refl (s : Setting) (σ : State) : σ.Extends s σ := of_eq rfl rfl

theorem trans (hστ : σ.Extends s τ) (hτυ : τ.Extends s υ) : σ.Extends s υ := by
  obtain ⟨hle, pieces, houtput, hpieces⟩ := hστ
  obtain ⟨hle', more, houtput', hmore⟩ := hτυ
  refine ⟨Nat.le_trans hle hle', pieces ++ more, by rw [houtput', houtput, List.append_assoc], ?_⟩
  intro i code hmem
  obtain hold | hnew := List.mem_append.1 hmem
  · obtain ⟨hfrom, hto, hreason⟩ := hpieces i code hold
    exact ⟨hfrom, Nat.lt_of_lt_of_le hto hle', hreason⟩
  · obtain ⟨hfrom, hto, hreason⟩ := hmore i code hnew
    exact ⟨Nat.le_trans hle hfrom, hto, hreason⟩

end State.Extends

/-- A task that is asked for: elements are written only if they are to be replaced. -/
class Allows (s : Setting) (task : Task) : Prop where
  jsx (h : task = .element) : s.options.has .jsx = true

instance (s : Setting) : Allows s .token := ⟨nofun⟩

instance (s : Setting) : Allows s .balanced := ⟨nofun⟩

/-- Doing a task writes with reasons. -/
def Justifies (s : Setting) (recur : Task → Step Unit) : Prop :=
  ∀ (task : Task) [Allows s task] (σ τ : State), recur task σ = .ok ((), τ) → σ.Extends s τ

/-- Writing with reasons. -/
def keeping (s : Setting) : Course where
  Tasks := Justifies s
  Fit _ := True
  Rel σ τ := σ.Extends s τ
  refl _ := .refl s _
  trans := .trans
  fit _ := trivial
  index_le h := h.1

/-- A part of the writer that writes with reasons when the cursor is at an index. -/
abbrev Keeps (s : Setting) (i : Nat) {α : Type} (e : Emit α) : Prop := Takes (keeping s) s i e

namespace Keeps

variable {s : Setting} {i : Nat} {α β : Type}

theorem keeps {e : Emit α} (h : Keeps s i e) {recur : Task → Step Unit} {σ τ : State} {a : α}
    (hrecur : Justifies s recur) (hindex : σ.index = i) (hrun : e ⟨s, recur⟩ σ = .ok (a, τ)) :
    σ.Extends s τ :=
  h.takes hrecur trivial hindex hrun

theorem of {e : Emit α} (h : ∀ {recur : Task → Step Unit} {σ τ : State} {a : α}, Justifies s recur →
    σ.index = i → e ⟨s, recur⟩ σ = .ok (a, τ) → σ.Extends s τ) : Keeps s i e :=
  ⟨fun hrecur _ => h hrecur⟩

instance reach (task : Task) [Allows s task] : Keeps s i (Emit.reach task) :=
  .of fun hrecur _ hrun => hrecur task _ _ hrun

/-- A change of the state that leaves the cursor and the output alone. -/
instance flags (names called vars paths exports default? file? lines mocks) :
    Keeps s i (changeState State.output names called vars paths exports default? file? lines mocks) :=
  .of fun _ _ hrun => by
    cases hrun
    exact .refl s _

/-! ## Output -/

instance add (code : String) : Keeps s i (Emit.add code) :=
  .of fun _ _ hrun => by
    obtain ⟨hindex, codes, houtput⟩ := adds_of_add hrun
    exact ⟨Nat.le_of_eq hindex.symm, _, houtput, by simp⟩

instance pushGap (j : Nat) (text : String) : Keeps s i (Emit.push (.gap j text)) :=
  .of fun _ _ hrun => by
    cases hrun
    exact ⟨Nat.le_refl _, _, Array.toList_push, by simp⟩

theorem extends_of_writes {e : Emit Unit} {code : String} [h : Writes s i e code]
    (hcode : Justified s i code) {recur : Task → Step Unit} {σ τ : State} (hindex : σ.index = i)
    (hrun : e ⟨s, recur⟩ σ = .ok ((), τ)) : τ.index = i + 1 ∧ σ.Extends s τ := by
  obtain ⟨hnext, gapText, opened, closed, houtput⟩ := h.writes hindex hrun
  rw [List.append_assoc] at houtput
  refine ⟨hnext, by omega, _, houtput, fun j code' hmem => ?_⟩
  have hpiece : j = i ∧ code' = code := by simpa using hmem
  obtain ⟨rfl, rfl⟩ := hpiece
  exact ⟨Nat.le_of_eq hindex, by omega, hcode⟩

theorem ofJustified {e : Emit Unit} {code : String} [Writes s i e code]
    (hcode : Justified s i code) : Keeps s i e :=
  .of fun _ hindex hrun => (extends_of_writes hcode hindex hrun).2

theorem afterJustified {e : Emit Unit} {code : String} {f : Unit → Emit α} [Writes s i e code]
    (hcode : Justified s i code) (hf : ∀ u, Keeps s (i + 1) (f u)) : Keeps s i (e >>= f) :=
  .of fun hrecur hindex hrun => by
    obtain ⟨u, υ, hfirst, hrest⟩ := bind_ok hrun
    obtain ⟨hυ, hextends⟩ := extends_of_writes hcode hindex hfirst
    exact hextends.trans ((hf u).keeps hrecur hυ hrest)

theorem justified_of_noName {code : String} [h : NoName code] : Justified s i code :=
  fun _ _ hname => absurd hname (by simp [h.mayBeName])

theorem justified_of_mayStay {code : String} [h : MayStay s i] : Justified s i code :=
  fun hname _ _ => h.stays hname

/-- A token that is written as what is no name. -/
instance ofWrites (e : Emit Unit) (code : String) [Writes s i e code] [NoName code] :
    Keeps s i e :=
  ofJustified justified_of_noName

instance afterWrites (e : Emit Unit) (code : String) (f : Unit → Emit α) [Writes s i e code]
    [NoName code] [hf : ∀ u, Keeps s (i + 1) (f u)] : Keeps s i (e >>= f) :=
  afterJustified justified_of_noName hf

/-- A token that may be written as it stands may be written as anything. -/
instance (e : Emit Unit) (code : String) [Writes s i e code] [MayStay s i] : Keeps s i e :=
  ofJustified justified_of_mayStay

instance (e : Emit Unit) (code : String) (f : Unit → Emit α) [Writes s i e code]
    [MayStay s i] [hf : ∀ u, Keeps s (i + 1) (f u)] : Keeps s i (e >>= f) :=
  afterJustified justified_of_mayStay hf

end Keeps

/-! ## The operations of the cursor -/

section

variable {s : Setting} {i : Nat}

instance (n : Nat) : Keeps s i (removeMany n) := by
  induction n generalizing i with
  | zero => exact Takes.pure ()
  | succ n ih =>
    unfold removeMany
    infer_instance

theorem notName_of_kind {kind : TokenKind} (h : s.tape.kind i = kind)
    (hkind : kind ≠ .name ∧ kind ≠ .jsxName) : NotName s i where
  kind := by
    have h : (s.tape.get i).kind = kind := h
    simpa [Shadowing.isNameToken, h] using hkind

theorem notName_of_isAtOneOf {kinds : List TokenKind}
    (hkinds : TokenKind.name ∉ kinds ∧ TokenKind.jsxName ∉ kinds)
    (h : View.isAtOneOf ⟨s.tape, i⟩ kinds = true) : NotName s i := by
  have hmem : s.tape.kind i ∈ kinds := List.contains_iff_mem.1 h
  refine notName_of_kind rfl ⟨fun hname => ?_, fun hname => ?_⟩
  · exact hkinds.1 (hname ▸ hmem)
  · exact hkinds.2 (hname ▸ hmem)

/-- Copying a token that is no name. -/
theorem keeps_copyExpected {kind : TokenKind} (hkind : kind ≠ .name ∧ kind ≠ .jsxName) :
    Keeps s i (copyExpected kind) := by
  unfold copyExpected
  refine .look ?_
  split
  · have := notName_of_kind (s := s) (i := i) (beq_iff_eq.1 ‹_›) hkind
    infer_instance
  · infer_instance

end

end Emit

end PlainScript
