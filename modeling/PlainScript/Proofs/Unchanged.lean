import PlainScript.Proofs.TracedFiles
import PlainScript.Proofs.Reassembly

/-!
# Plain files stay as they are

Where nothing is asked for, the writer still looks at classes and imports: it may find something there
that only a dialect has. In a file without such things the output is the text up to the cursor at any
time. There is one detour: the comma after a default import is removed and put back before what
follows, so that only line breaks may stand before it.
-/

namespace PlainScript

/-- A file that has nothing of a dialect: no references that are imported, no clauses, specifiers and
statements for types only, no classes with members or parameters that leave no trace, and nothing but
line breaks before the comma after a default import. -/
structure Tape.IsPlain (t : Tape) : Prop where
  reference (i : Nat) : Emit.isReferenceAt t i = false
  exportEquals (i : Nat) : t.has i [.exportWord, .equals] = false
  exportedReference (i : Nat) :
    t.has i [.exportWord, .importWord, .typeModifier, .name, .equals] = false
  exportType (i : Nat) : (t.has i [.exportWord, .name] && t.hasSoft (i + 1) .typeName) = false
  typeClause {i : Nat} (h : t.kind i = .importWord) : Emit.isAtTypeClause ⟨t, i + 1⟩ = false
  specifier {b i : Nat} (h : Emit.EsModule.AtSpecifier t b i) (hkind : t.kind i ≠ .braceClose)
    {x : Specifier} (hx : Specifier.read t i = .ok x) : x.isType = false
  outline {i : Nat} (h : t.kind i = .classWord) {names names' : Names} {c : ClassOutline}
    (hread : ClassOutline.read t true names i = .ok (c, names')) :
    c.removed = [] ∧ c.parameterProperties = []
  comma {i : Nat} (h : t.has i [.importWord, .name, .comma] = true) :
    lineBreaksOf (View.gap ⟨t, i + 2⟩) = View.gap ⟨t, i + 2⟩ ∧ t.text (i + 2) = "," ∧
      t.hasOneOf (i + 3) [.star, .braceOpen] = true

theorem SupportNames.codeFor_nil (names : SupportNames) : names.codeFor [] = "" := by
  rw [codeFor, show SupportFunction.all.filter (isNeeded []) = [] by decide]
  rfl

namespace Emit

/-- A file that is to stay as it is. -/
class Unchanged (s : Setting) : Prop where
  nothing (t : Transform) : s.options.has t = false
  recent : s.options.disableESTransforms = true
  ordered : s.tape.Ordered
  plain : s.tape.IsPlain

/-- The output is the text up to the cursor, but for something that is still to come, and no code is
needed around it. -/
structure State.IsCopy (s : Setting) (rest : String) (σ : State) : Prop where
  text : Piece.render σ.output ++ rest = s.tape.reached σ.index
  called : σ.called = []
  variableNames : σ.variableNames = #[]
  exports : σ.exports = {}
  fileNameVariable : σ.fileNameVariable? = none
  mockFunctions : σ.mockFunctions = #[]

/-- Tokens are handled without a change. -/
def CopiesTokens (s : Setting) (recur : Task → Step Unit) : Prop :=
  ∀ σ τ : State, σ.IsCopy s "" → recur .token σ = .ok ((), τ) → τ.IsCopy s ""

/-- A part of the writer that starts at an index, with something still to come, leaves the output a
copy, with what is known about its answer and its end. -/
abbrev CopiesTo (s : Setting) (rest : String) (i : Nat) {α : Type} (Q : α → Nat → Prop) (e : Emit α) :
    Prop :=
  Arrives (CopiesTokens s) (State.IsCopy s rest) (State.IsCopy s "") s i Q e

/-! ## Parts by their shape -/

namespace CopiesTo

variable {s : Setting} {i : Nat} {rest : String} {α : Type} {Q : α → Nat → Prop}

/-- What was still to come is added. -/
theorem afterAdd {code : String} {f : Unit → Emit α} (hf : CopiesTo s "" i Q (f ())) :
    CopiesTo s code i Q (add code >>= f) := by
  intro recur σ τ a hrecur hσ hindex hrun
  obtain ⟨_, υ, hadd, hrest⟩ := bind_ok hrun
  cases hadd
  refine hf recur { σ with output := σ.output.push (.added code) } τ a hrecur ⟨?_, hσ.called,
    hσ.variableNames, hσ.exports, hσ.fileNameVariable, hσ.mockFunctions⟩ hindex hrest
  rw [← hσ.text, Piece.render_push, String.append_empty]
  rfl

section

variable [hs : Unchanged s]

theorem gapAt_eq (j : Nat) : s.gapAt j = View.gap ⟨s.tape, j⟩ := by
  rw [Setting.gapAt, hs.nothing]
  rfl

/-- Nothing comes around a token where recent syntax stays. -/
theorem write_ok {recur : Task → Step Unit} {gapText code : String} {σ τ : State}
    (hrun : write gapText "" code ⟨s, recur⟩ σ = .ok ((), τ)) :
    τ = { σ with
      index := σ.index + 1
      output := (σ.output.push (.gap σ.index gapText)).push (.token σ.index code) } := by
  unfold write at hrun
  obtain ⟨v, _, hview, hrun⟩ := bind_ok hrun
  cases hview
  obtain ⟨_, _, hgap, hrun⟩ := bind_ok hrun
  cases hgap
  obtain ⟨_, υ, hopen, hrun⟩ := bind_ok hrun
  cases (adding_of_openCalls hopen).2 hs.recent
  obtain ⟨_, _, htoken, hrun⟩ := bind_ok hrun
  cases htoken
  obtain ⟨_, ω, hclose, hmove⟩ := bind_ok hrun
  cases (adding_of_closeCalls hclose).2 hs.recent
  cases hmove
  rfl

/-- A token that is written in the place of itself, or whose text is still to come. -/
theorem isCopy_of_write {σ τ : State} {recur : Task → Step Unit} {gapText code rest : String}
    (hσ : σ.IsCopy s "") (hgap : gapText = View.gap ⟨s.tape, σ.index⟩)
    (htext : code ++ rest = s.tape.text σ.index)
    (hrun : write gapText "" code ⟨s, recur⟩ σ = .ok ((), τ)) :
    τ.IsCopy s rest ∧ τ.index = σ.index + 1 := by
  cases write_ok hrun
  refine ⟨⟨?_, hσ.called, hσ.variableNames, hσ.exports, hσ.fileNameVariable, hσ.mockFunctions⟩, rfl⟩
  have hbefore := hσ.text
  rw [String.append_empty] at hbefore
  rw [hs.ordered.reached_succ, ← hbefore, ← hgap, ← htext]
  simp [Piece.text, String.append_assoc]

theorem copy : CopiesTo s "" i (fun _ j => j = i + 1) Emit.copy := by
  intro recur σ τ a hrecur hσ hindex hrun
  subst hindex
  unfold Emit.copy at hrun
  obtain ⟨gapText, υ, hgap, hrun⟩ := bind_ok hrun
  obtain ⟨rfl, rfl⟩ := gap_ok hgap
  exact isCopy_of_write hσ (gapAt_eq _) String.append_empty hrun

/-- A token before which only line breaks stand is removed; its text is still to come. -/
theorem afterRemove {f : Unit → Emit α}
    (hbreaks : lineBreaksOf (View.gap ⟨s.tape, i⟩) = View.gap ⟨s.tape, i⟩)
    (hf : CopiesTo s (s.tape.text i) (i + 1) Q (f ())) : CopiesTo s "" i Q (Emit.remove >>= f) := by
  intro recur σ τ a hrecur hσ hindex hrun
  subst hindex
  obtain ⟨_, υ, hremove, hrest⟩ := bind_ok hrun
  unfold Emit.remove replaceTrimmed at hremove
  obtain ⟨gapText, _, hgap, hremove⟩ := bind_ok hremove
  obtain ⟨rfl, rfl⟩ := gap_ok hgap
  rw [gapAt_eq, hbreaks] at hremove
  obtain ⟨hυ, hindex⟩ := isCopy_of_write hσ rfl String.empty_append hremove
  exact hf recur υ τ a hrecur hυ hindex hrest

theorem afterCopy {f : Unit → Emit α} (hf : CopiesTo s "" (i + 1) Q (f ())) :
    CopiesTo s "" i Q (Emit.copy >>= f) :=
  copy.bind fun _ _ hj => hj ▸ hf

theorem copyExpected {kind : TokenKind} :
    CopiesTo s "" i (fun _ j => s.tape.kind i = kind ∧ j = i + 1) (Emit.copyExpected kind) := by
  unfold Emit.copyExpected
  refine .view ?_
  split
  next hkind => exact copy.imp fun _ _ hj => ⟨beq_iff_eq.1 hkind, hj⟩
  next => exact .fail _

omit hs in
theorem processToken : CopiesTo s "" i (fun _ _ => True) Emit.processToken := by
  intro recur σ τ a hrecur hσ hindex hrun
  exact ⟨hrecur σ τ hσ hrun, trivial⟩

theorem isUnusedImport_ok {recur : Task → Step Unit} {name : String} {isUnused : Bool} {σ τ : State}
    (hrun : isUnusedImport name ⟨s, recur⟩ σ = .ok (isUnused, τ)) : isUnused = false ∧ τ = σ := by
  cases hrun
  simp [hs.nothing]

/-- Nothing is unused where there are no types. -/
theorem afterUnused {name : String} {f : Bool → Emit α} (hf : CopiesTo s rest i Q (f false)) :
    CopiesTo s rest i Q (isUnusedImport name >>= f) := by
  intro recur σ τ a hrecur hσ hindex hrun
  obtain ⟨isUnused, υ, hunused, hrest⟩ := bind_ok hrun
  obtain ⟨rfl, rfl⟩ := isUnusedImport_ok hunused
  exact hf recur υ τ a hrecur hσ hindex hrest

end

theorem copyTo [Unchanged s] {stop : Nat} (hle : i ≤ stop) :
    CopiesTo s "" i (fun _ j => j = stop) (Emit.copyTo stop) :=
  .loopTo (fun _ => copy) hle

end CopiesTo

variable {s : Setting} {i : Nat} [hs : Unchanged s]

/-! ## Imports -/

namespace EsModule

variable {b : Nat}

theorem copiesTo_keepOrRemove {x : Specifier} (hi : AtSpecifier s.tape b i)
    (hx : Specifier.read s.tape i = .ok x) (hkind : s.tape.kind i ≠ .braceClose) :
    CopiesTo s "" i (fun _ j => AtSpecifier s.tape b j) (keepOrRemove x true) := by
  have hle : i ≤ x.stop := Nat.le_of_lt (Specifier.lt_stop hx)
  have hstop : InClause s.tape b x.stop :=
    hi.1.to hle fun k hk hlt => Specifier.kind_ne_braceClose hx hkind hk hlt
  have hlt := Nat.lt_of_lt_of_le hi.2.1 hle
  unfold keepOrRemove copyIf
  refine (CopiesTo.copyTo hle).bind fun _ j hj => .view ?_
  subst hj
  split
  next hcomma =>
    have hcomma : s.tape.kind x.stop = .comma := beq_iff_eq.1 hcomma
    refine CopiesTo.copy.imp fun _ j hj => ?_
    subst hj
    refine ⟨hstop.succ (by rw [hcomma]; decide), by omega, fun _ => ?_⟩
    exact hasOneOf_of_kind hcomma (by decide)
  next hcomma =>
    refine .pure ⟨hstop, hlt, fun hclose => ?_⟩
    obtain hend | hend := Bool.or_eq_true_iff.1 (Specifier.endsAt_stop hx)
    · exact absurd (beq_iff_eq.1 hend) hclose
    · exact absurd hend hcomma

theorem copiesTo_importSpecifiers (hb : ClauseAt s.tape b) (content : ClauseContent) :
    CopiesTo s "" (b + 1) (fun _ _ => True) (importSpecifiers content) := by
  unfold importSpecifiers
  refine .iterate (fun _ j => AtSpecifier s.tape b j) (fun content j hj => .view ?_)
    (atSpecifier_of_clauseAt hb)
  split
  · exact .pure ⟨fun _ => elim_done, fun _ _ => trivial⟩
  next hclose =>
  have hkind : s.tape.kind j ≠ .braceClose := fun hkind => hclose (beq_iff_eq.2 hkind)
  split
  · exact .afterFail
  refine .bind (G := State.IsCopy s "") (P := fun x k => Specifier.read s.tape j = .ok x ∧ k = j) ?_
    fun x k hx => ?_
  · unfold specifier
    refine .view ?_
    split
    next x hx => exact .pure ⟨hx, rfl⟩
    next => exact .fail _
  obtain ⟨hx, rfl⟩ := hx
  have hvalue := hs.plain.specifier hj hkind hx
  split
  next hnames => simp [Specifier.isType, hnames] at hvalue
  next =>
    rw [map_eq_pure_bind, bind_assoc]
    refine CopiesTo.afterUnused ?_
    rw [pure_bind]
    exact (copiesTo_keepOrRemove hj hx hkind).bind fun _ k hk => .pure ⟨fun _ _ => hk, fun _ => elim_yield⟩

/-- What follows a default import: with a comma still to come if one stands after the name. -/
theorem copiesTo_defaultImport {α : Type} {Q : α → Nat → Prop} {f : Bool × Bool → Emit α}
    (hnone : s.tape.kind i ≠ .name → CopiesTo s "" i Q (f (false, false)))
    (hcomma : s.tape.has i [.name, .comma] = true →
      lineBreaksOf (View.gap ⟨s.tape, i + 1⟩) = View.gap ⟨s.tape, i + 1⟩ ∧
        CopiesTo s (s.tape.text (i + 1)) (i + 2) Q (f (true, true)))
    (hname : s.tape.kind i = .name → CopiesTo s "" (i + 1) Q (f (true, false))) :
    CopiesTo s "" i Q (defaultImport >>= f) := by
  unfold defaultImport
  rw [bind_assoc]
  refine .view ?_
  split
  next hkind =>
    rw [pure_bind]
    exact hnone (bne_iff_ne.1 hkind)
  next hkind =>
  have hkind : s.tape.kind i = .name := by simpa [View.kind, View.token, Tape.kind] using hkind
  rw [bind_assoc]
  refine CopiesTo.afterUnused ?_
  rw [if_neg Bool.false_ne_true, bind_assoc]
  refine CopiesTo.afterCopy ?_
  rw [bind_assoc]
  refine .view ?_
  split
  next hnext =>
    have hnext : s.tape.kind (i + 1) = .comma := beq_iff_eq.1 hnext
    obtain ⟨hbreaks, hrest⟩ := hcomma (by simp [Tape.has, hkind, hnext])
    rw [bind_assoc]
    refine CopiesTo.afterRemove hbreaks ?_
    rw [pure_bind]
    exact hrest
  next =>
    rw [pure_bind]
    exact hname hkind

theorem copiesTo_isDroppedImport (hasValue hasSpecifier : Bool) :
    CopiesTo s "" i (fun isDropped _ => isDropped = false) (isDroppedImport hasValue hasSpecifier) := by
  unfold isDroppedImport
  refine .options (.pure ?_)
  simp [hs.nothing]

/-- A comma that is still to come. -/
def owedComma (needsComma : Bool) : String := if needsComma then "," else ""

omit hs in
/-- The comma that is still to come is put back. -/
theorem copiesTo_addComma {α : Type} {Q : α → Nat → Prop} {needsComma : Bool} {f : Unit → Emit α}
    (hf : CopiesTo s "" i Q (f ())) :
    CopiesTo s (owedComma needsComma) i Q
      (if needsComma = true then do
        let r ← add ","
        f r
      else f ()) := by
  cases needsComma with
  | true => exact CopiesTo.afterAdd hf
  | false => exact hf

theorem copiesTo_clauseRest {w : Nat} (hi : InNames s.tape w i) (content : ClauseContent)
    (needsComma : Bool) (hcomma : needsComma = true → s.tape.hasOneOf i [.star, .braceOpen] = true) :
    CopiesTo s (owedComma needsComma) i (fun isDropped _ => isDropped = false)
      (clauseRest content needsComma) := by
  unfold clauseRest
  refine .view ?_
  split
  · refine CopiesTo.afterUnused ?_
    rw [if_neg Bool.false_ne_true]
    exact copiesTo_addComma (.bind CopiesTo.copyExpected fun _ j _ => CopiesTo.afterCopy
      (.bind CopiesTo.copyExpected fun _ k _ => copiesTo_isDroppedImport _ _))
  next hstar =>
  split
  next hbrace =>
    have hb : ClauseAt s.tape i := ⟨beq_iff_eq.1 hbrace, w, .inl hi⟩
    exact copiesTo_addComma (CopiesTo.afterCopy (.bind (copiesTo_importSpecifiers hb content) fun found j _ =>
      .bind CopiesTo.copyExpected fun _ k _ => copiesTo_isDroppedImport _ _))
  next hbrace =>
    have hnone : needsComma = false := by
      refine Bool.eq_false_of_not_eq_true fun hneeds => ?_
      have hkind := hcomma hneeds
      simp only [Tape.hasOneOf, List.contains_cons, List.contains_nil, Bool.or_false,
        Bool.or_eq_true] at hkind
      exact hkind.elim hstar hbrace
    subst hnone
    exact copiesTo_isDroppedImport _ _

/-- Nothing is dropped from an import statement. -/
theorem copiesTo_importClause (hi : ImportAt s.tape i) :
    CopiesTo s "" i (fun isDropped _ => isDropped = false) importClause := by
  have hfirst : InNames s.tape i (i + 1) := ⟨hi, Nat.le_succ i, fun k hk hlt => absurd hlt (by omega)⟩
  unfold importClause
  refine CopiesTo.copyExpected.bind fun _ j hj => .view ?_
  obtain ⟨-, rfl⟩ := hj
  rw [hs.plain.typeClause hi.1]
  split
  next htype => cases htype
  split
  · exact CopiesTo.afterCopy (.pure rfl)
  have hname {j : Nat} (hj : InNames s.tape i j) (hkind : s.tape.kind j = .name) :
      InNames s.tape i (j + 1) :=
    hj.succ (.inl (hasOneOf_of_kind hkind (by decide)))
  split
  next hmodule =>
    obtain ⟨hsoft, hfrom⟩ := Bool.and_eq_true_iff.1 hmodule
    have hmodule : s.tape.kind (i + 1) = .name := beq_iff_eq.1 (Bool.and_eq_true_iff.1 hsoft).1
    have hfrom : s.tape.kind (i + 3) = .name := beq_iff_eq.1 (Bool.and_eq_true_iff.1 hfrom).1
    have hsecond := hname hfirst hmodule
    refine CopiesTo.afterCopy (copiesTo_defaultImport ?_ ?_ ?_)
    · exact fun _ => copiesTo_clauseRest hsecond _ false fun h => absurd h Bool.false_ne_true
    · intro hcomma
      obtain ⟨-, hcomma⟩ := kind_of_isAt hcomma
      cases hfrom.symm.trans (kind_of_isAt hcomma).1
    · exact fun hkind => copiesTo_clauseRest (hname hsecond hkind) _ false fun h => absurd h Bool.false_ne_true
  next =>
    refine copiesTo_defaultImport ?_ ?_ ?_
    · exact fun _ => copiesTo_clauseRest hfirst _ false fun h => absurd h Bool.false_ne_true
    · intro hcomma
      obtain ⟨hkind, hnext⟩ := kind_of_isAt hcomma
      obtain ⟨hbreaks, htext, hafter⟩ := hs.plain.comma
        (show s.tape.has i [.importWord, .name, .comma] = true by simp [Tape.has, hi.1] at hcomma ⊢; exact hcomma)
      refine ⟨hbreaks, ?_⟩
      rw [htext]
      refine copiesTo_clauseRest ((hname hfirst hkind).succ (.inl ?_)) _ true fun _ => hafter
      exact hasOneOf_of_kind (kind_of_isAt hnext).1 (by decide)
    · exact fun hkind => copiesTo_clauseRest (hname hfirst hkind) _ false fun h => absurd h Bool.false_ne_true

/-- An import statement is copied, and a call is left to others. -/
theorem copiesTo_importStatement (hi : s.tape.kind i = .importWord) :
    CopiesTo s "" i (fun isHandled j => isHandled = false → j = i) importStatement := by
  unfold importStatement
  refine .view ?_
  split
  · exact .pure fun _ => rfl
  next hcall =>
    have hcall : s.tape.kind (i + 1) ≠ .parenOpen := fun hkind =>
      hcall (by simp [View.isAt, Tape.has, hi, hkind])
    refine .get fun σ => .bind (copiesTo_importClause ⟨hi, hcall⟩) fun isDropped j hdropped => ?_
    subst hdropped
    exact .pure fun h => absurd h.symm Bool.false_ne_true

/-- A default export is left to be copied: there are no types, and there is no hot loader. -/
theorem copiesTo_exportDefault :
    CopiesTo s "" i (fun isHandled j => isHandled = false → j = i) exportDefault := by
  have htype : CopiesTo s "" i (fun isType j => isType = false ∧ j = i) isTypeDefaultExport := by
    unfold isTypeDefaultExport dropsTypes
    rw [bind_assoc]
    refine .options ?_
    rw [pure_bind, if_pos (by simp [hs.nothing])]
    exact .pure ⟨rfl, rfl⟩
  unfold exportDefault
  refine htype.bind fun isType j hj => ?_
  obtain ⟨rfl, rfl⟩ := hj
  rw [if_neg Bool.false_ne_true]
  refine .view (.options ?_)
  rw [if_pos (by simp [hs.nothing])]
  exact .pure fun _ => rfl

end EsModule

/-- Imports and exports are copied, or left to be copied. -/
theorem copiesTo_esModulePass :
    CopiesTo s "" i (fun isHandled j => isHandled = false → j = i) esModulePass := by
  have hreference := Bool.or_eq_false_iff.1 (hs.plain.reference i)
  have hfalse {b : Bool} (hb : b = false) (h : b = true) : False := Bool.false_ne_true (hb.symm.trans h)
  unfold esModulePass
  refine .view ?_
  split
  next h => exact (hfalse hreference.1 h).elim
  split
  next h => exact (hfalse hreference.2 h).elim
  split
  next h => exact (hfalse (hs.plain.exportEquals i) h).elim
  split
  next h => exact (hfalse (hs.plain.exportedReference i) h).elim
  split
  next h => exact EsModule.copiesTo_importStatement (beq_iff_eq.1 h)
  split
  · exact EsModule.copiesTo_exportDefault
  split
  · unfold EsModule.namedExports
    refine .options ?_
    rw [hs.nothing]
    exact .pure fun _ => rfl
  split
  next h => exact (hfalse (hs.plain.exportType i) h).elim
  · exact .pure fun _ => rfl

/-! ## Classes -/

omit hs in
/-- Where fields stay, no class has any to move. -/
theorem fields_of_read {t : Tape} {names names' : Names} {c : ClassOutline}
    (hread : ClassOutline.read t true names i = .ok (c, names')) :
    c.fields = [] ∧ c.instanceInitializers = [] ∧ c.staticInitializers = [] := by
  suffices hfinds : Finds (ClassOutline.read t true names i) fun found => found.1.fields = [] ∧
      found.1.instanceInitializers = [] ∧ found.1.staticInitializers = [] from hfinds _ hread
  unfold ClassOutline.read
  split
  · refine .bind .any fun nameAt _ => .bind .any fun brace _ => ?_
    refine .ite (fun _ => .error _) fun _ => .bind .any fun first _ => .bind .any fun m _ => ?_
    exact .ok ⟨rfl, rfl, rfl⟩
  · exact .error _

namespace Class

/-- A class of which nothing is left out and to which nothing is added. -/
structure IsPlain (c : ClassOutline) : Prop where
  removed : c.removed = []
  fields : c.fields = []
  needsInit : needsInit c = false
  staticInitializers : c.staticInitializers = []

theorem copiesTo_outline (hi : s.tape.kind i = .classWord) :
    CopiesTo s "" i (fun c j => IsPlain c ∧ j = i) outline := by
  unfold outline
  refine .view (.options (.get fun ρ => ?_))
  rw [hs.recent]
  split
  · intro recur σ τ c hrecur hσ hindex hrun
    cases hrun
  next c names hread =>
    intro recur σ τ c' hrecur hσ hindex hrun
    cases hrun
    obtain ⟨hremoved, hproperties⟩ := hs.plain.outline hi hread
    refine ⟨⟨hσ.text, hσ.called, hσ.variableNames, hσ.exports, hσ.fileNameVariable,
      hσ.mockFunctions⟩, ?_, hindex⟩
    obtain ⟨hfields, hinstance, hstatic⟩ := fields_of_read hread
    exact ⟨hremoved, hfields, by simp [Class.needsInit, hproperties, hinstance], hstatic⟩

theorem copiesTo_header (contextId : Nat) : CopiesTo s "" i (fun _ _ => True) (header contextId) := by
  unfold header
  refine CopiesTo.copyExpected.bind fun _ j _ => .iterate (fun _ _ => True) (fun _ k _ => .view ?_)
    trivial
  split
  · exact .pure ⟨fun _ => elim_done, fun _ _ => trivial⟩
  split
  · exact .afterFail
  · exact CopiesTo.processToken.bind fun _ _ _ => .pure ⟨fun _ _ => trivial, fun _ => elim_yield⟩

theorem copiesTo_bodyPart {c : ClassOutline} (hc : IsPlain c) (className : String) :
    CopiesTo s "" i (fun p _ => p = ⟨[], []⟩) (bodyPart c className ⟨[], []⟩) := by
  have htoken (j : Nat) : CopiesTo s "" j (fun p _ => p = ⟨[], []⟩)
      (do processToken; return (⟨[], []⟩ : Pending)) :=
    CopiesTo.processToken.bind fun _ _ _ => .pure rfl
  unfold bodyPart
  refine .view ?_
  dsimp only [List.head?_nil, Option.filter_none]
  split
  · refine CopiesTo.afterCopy ?_
    rw [hc.needsInit, if_neg Bool.false_ne_true]
    exact htoken _
  · exact htoken _

theorem copiesTo_body {c : ClassOutline} (hc : IsPlain c) (className : String) :
    CopiesTo s "" i (fun _ _ => True) (body c className) := by
  have hloop (contextId? : Option Nat) (n j : Nat) : CopiesTo s "" j (fun _ _ => True)
      (Emit.iterateFor (bodyRound c className contextId?) n ⟨c.fields, c.removed⟩) := by
    rw [hc.fields, hc.removed]
    refine .iterateFor (fun p _ => p = ⟨[], []⟩) (fun p k hp => .view ?_) rfl
    subst hp
    dsimp only
    split
    · exact .pure ⟨fun _ => elim_done, fun _ _ => trivial⟩
    split
    · exact .afterFail
    · exact (copiesTo_bodyPart hc className).bind fun p _ hp => .pure ⟨by simpa using hp, fun _ => elim_yield⟩
  unfold body
  refine .view ?_
  dsimp only
  split
  · exact .afterFail
  refine CopiesTo.copyExpected.bind fun _ j _ => .options ?_
  rw [hs.nothing, if_neg Bool.false_ne_true]
  unfold addConstructor
  rw [hc.needsInit, Bool.and_false, if_neg Bool.false_ne_true, pure_bind]
  exact .read fun _ => .bind (.discard (hloop _ _ _)) fun _ _ _ =>
    CopiesTo.copyExpected.imp fun _ _ _ => trivial

end Class

theorem copiesTo_classDefinition (hi : s.tape.kind i = .classWord) :
    CopiesTo s "" i (fun _ _ => True) classDefinition := by
  unfold classDefinition
  refine (Class.copiesTo_outline hi).bind fun c j hj => ?_
  obtain ⟨hc, rfl⟩ := hj
  have hinstance : c.instanceInitializers = [] := by
    have hinit := hc.needsInit
    simp only [Class.needsInit, Bool.or_eq_false_iff, Bool.not_eq_false', List.isEmpty_iff] at hinit
    exact hinit.2
  simp only [hc.staticInitializers, hinstance, List.isEmpty_nil, Bool.not_true, Bool.or_self,
    Bool.and_false, Bool.false_eq_true, if_false, List.map_nil]
  rw [pure_bind]
  refine .view ?_
  split
  next contextId _ =>
    refine (Class.copiesTo_header contextId).bind fun _ _ _ => ?_
    refine (Class.copiesTo_body hc _).bind fun _ _ _ => ?_
    rw [if_pos trivial]
    exact .pure trivial
  next => exact .fail _

/-! ## Files -/

theorem copiesTo_token : CopiesTo s "" i (fun _ _ => True) token := by
  unfold token
  refine .view ?_
  split
  next hclass => exact copiesTo_classDefinition (beq_iff_eq.1 hclass)
  next =>
    refine .options ?_
    have hpasses : Pass.enabled s.options = [.esModule] := by
      simp [Pass.enabled, hs.nothing, hs.recent]
    rw [hpasses]
    refine .bind (G := State.IsCopy s "")
      (P := fun isHandled j => isHandled = false → j = i) ?_ fun isHandled j hj => ?_
    · unfold firstPass
      refine .bind copiesTo_esModulePass fun isHandled j hj => ?_
      split
      · exact .pure fun h => absurd h.symm Bool.false_ne_true
      next hnot => exact .pure fun _ => hj (Bool.eq_false_of_not_eq_true hnot)
    · cases isHandled with
      | true => exact .pure trivial
      | false =>
        rw [if_neg Bool.false_ne_true]
        exact CopiesTo.copy.imp fun _ _ _ => trivial

/-- Tokens are handled without a change, to any depth. -/
theorem copiesTokens_performFor (n : Nat) : CopiesTokens s (performFor s n) := by
  induction n with
  | zero =>
    intro σ τ hσ hrun
    cases hrun
  | succ n ih => exact fun σ τ hσ hrun => (copiesTo_token _ σ τ () ih hσ rfl hrun).1

omit hs in
theorem copiesTo_balanced : CopiesTo s "" i (fun _ _ => True) balanced := by
  unfold balanced balancedRound
  refine .discard (.iterate (R := fun _ _ => True) (fun _ _ => True) (fun d j _ => .view ?_) trivial)
  split
  · exact .pure ⟨fun _ => elim_done, fun _ _ => trivial⟩
  split
  · exact .pure ⟨fun _ => elim_done, fun _ _ => trivial⟩
  · exact CopiesTo.processToken.bind fun _ _ _ => .pure ⟨fun _ _ => trivial, fun _ => elim_yield⟩

/-- The walk over a file gives its text, and needs no code around it. -/
theorem isCopy_of_file {σ τ : State} {n : Nat} (hσ : σ.IsCopy s "")
    (hrun : file ⟨s, performFor s n⟩ σ = .ok ((), τ)) :
    Piece.render τ.output = s.tape.source.text ∧ prefixCode s τ = "" ∧ suffixCode s τ = "" := by
  unfold file at hrun
  obtain ⟨_, υ, hbalanced, hrun⟩ := bind_ok hrun
  obtain ⟨hυ, -⟩ := copiesTo_balanced _ σ υ _ (copiesTokens_performFor n) hσ rfl hbalanced
  obtain ⟨v, _, hview, hrun⟩ := bind_ok hrun
  cases hview
  split at hrun
  · obtain ⟨_, _, hfail, _⟩ := bind_ok hrun
    cases hfail
  next hend =>
    have hend : s.tape.size ≤ υ.index := by simpa [View.isAtEnd] using hend
    obtain ⟨text, _, hgap, hpush⟩ := bind_ok hrun
    obtain ⟨rfl, rfl⟩ := gap_ok hgap
    cases hpush
    refine ⟨?_, ?_, ?_⟩
    · have hbefore := hυ.text
      rw [String.append_empty] at hbefore
      rw [hs.ordered.text_eq hend, ← hbefore, ← CopiesTo.gapAt_eq]
      exact Piece.render_push _ _
    · simp [prefixCode, hυ.fileNameVariable, hυ.exports, hυ.called, hυ.variableNames, hυ.mockFunctions,
        hs.nothing]
      exact SupportNames.codeFor_nil _
    · simp [suffixCode, hυ.exports, hs.nothing]

variable {text code : String} {o : Options} {p : Prepared}

omit hs in
/-- Where nothing is asked for, the output of a plain file is its text. -/
theorem codeOf_eq_text (hnothing : ∀ t, o.has t = false) (hrecent : o.disableESTransforms = true)
    (hprepare : prepare text o = .ok p) (hplain : p.setting.tape.IsPlain)
    (hmark : StartsWithMark text → '\n' ∈ text.toList) (hcode : Output.codeOf text o = .ok code) :
    code = text := by
  obtain ⟨file, σ, pieces, hp, hrun, rfl, -⟩ := trace_of_codeOf hprepare hcode 0
  obtain ⟨-, -, hplan, names, hstate⟩ := setting_of_prepare hprepare
  rw [← hp.options] at hnothing hrecent
  have : Unchanged p.setting := ⟨hnothing, hrecent, hp.ordered, hplain⟩
  have hstart : p.state.IsCopy p.setting "" := by
    rw [hstate, hplan (hp.options ▸ hnothing .imports)]
    exact ⟨(Tape.reached_zero _).symm, rfl, rfl, rfl, rfl, rfl⟩
  obtain ⟨hrender, hbefore, hafter⟩ := isCopy_of_file hstart hrun
  rw [hrender, hbefore, hafter, hp.source, Source.ofText_text]
  -- A first line that names an interpreter is put back as it was.
  by_cases hfirst : StartsWithMark text
  · obtain ⟨line, rest, rfl, hline, hnone⟩ := hfirst.exists_line (hmark hfirst)
    rw [assemble_of_mark hline hnone]
    simp
  · rw [assemble_of_not_mark hfirst]
    simp

/-- What has to be looked at for a file to be plain, if it has no classes. -/
def Tape.looksPlainAt (t : Tape) (i : Nat) : Bool :=
  !isReferenceAt t i && !t.has i [.exportWord, .equals] &&
    !t.has i [.exportWord, .importWord, .typeModifier, .name, .equals] &&
    !(t.has i [.exportWord, .name] && t.hasSoft (i + 1) .typeName) &&
    !(t.kind i == .importWord && isAtTypeClause ⟨t, i + 1⟩) &&
    !((List.range i).any (t.kind · == .braceOpen) && t.hasOneOf (i - 1) [.braceOpen, .comma] &&
      t.kind i != .braceClose && (Specifier.read t i).toOption.any (·.isType)) &&
    t.kind i != .classWord &&
    (!t.has i [.importWord, .name, .comma] ||
      lineBreaksOf (View.gap ⟨t, i + 2⟩) == View.gap ⟨t, i + 2⟩ && t.text (i + 2) == "," &&
        t.hasOneOf (i + 3) [.star, .braceOpen])

omit hs in
theorem isPlain_of_range {t : Tape}
    (h : (List.range (t.size + 1)).all (Tape.looksPlainAt t) = true) : t.IsPlain := by
  have hlooks {i : Nat} (hi : i ≤ t.size) := List.all_eq_true.1 h i (List.mem_range.2 (by omega))
  have hword {i : Nat} {kind : TokenKind} {rest : List TokenKind} (hkind : kind ≠ .eof)
      (hhas : t.has i (kind :: rest) = true) : i ≤ t.size := by
    refine Nat.le_of_lt (Tape.lt_size_of_kind ?_)
    rw [(kind_of_isAt hhas).1]
    exact hkind
  simp only [Tape.looksPlainAt, Bool.and_eq_true, Bool.not_eq_true'] at hlooks
  have hno {b : Bool} (hb : b = true → b = false) : b = false :=
    Bool.eq_false_of_not_eq_true fun h => Bool.false_ne_true ((hb h).symm.trans h)
  constructor
  case reference =>
    refine fun i => hno fun h => (hlooks ?_).1.1.1.1.1.1.1
    exact (Bool.or_eq_true_iff.1 h).elim (hword (by decide)) (hword (by decide))
  case exportEquals => exact fun i => hno fun h => (hlooks (hword (by decide) h)).1.1.1.1.1.1.2
  case exportedReference => exact fun i => hno fun h => (hlooks (hword (by decide) h)).1.1.1.1.1.2
  case exportType =>
    refine fun i => hno fun h => (hlooks ?_).1.1.1.1.2
    exact hword (by decide) (Bool.and_eq_true_iff.1 h).1
  case typeClause =>
    intro i hi
    have hlt := Tape.lt_size_of_kind (t := t) (i := i) (by rw [hi]; decide)
    simpa [hi] using (hlooks (Nat.le_of_lt hlt)).1.1.1.2
  case specifier =>
    intro b i hat hkind x hx
    have hstart := hat.2.2 hkind
    have hlt : i - 1 < t.size := Tape.lt_size_of_kind (t := t) fun heof => by
      rw [Tape.hasOneOf, heof] at hstart
      exact absurd hstart (by decide)
    have hbrace : (List.range i).any (t.kind · == .braceOpen) = true :=
      List.any_eq_true.2 ⟨b, List.mem_range.2 hat.2.1, beq_iff_eq.2 hat.1.1.1⟩
    have hspecifier := (hlooks (show i ≤ t.size by omega)).1.1.2
    simpa [hbrace, hstart, hkind, hx, Except.toOption] using hspecifier
  case outline =>
    intro i hi _ _ _ _
    have hlt := Tape.lt_size_of_kind (t := t) (i := i) (by rw [hi]; decide)
    exact absurd (hlooks (Nat.le_of_lt hlt)).1.2 (by simp [hi])
  case comma =>
    intro i hi
    have hcomma := (hlooks (hword (by decide) hi)).2
    simpa [hi, and_assoc] using hcomma

/-- A default import with a line break before its comma, and a comment. -/
theorem codeOf_eq_text_defaultImport :
    Output.codeOf "import a\n, \x7bb as c\x7d from 'x'; a(c); // d" { disableESTransforms := true } =
      .ok "import a\n, \x7bb as c\x7d from 'x'; a(c); // d" := by
  have hok : (Output.codeOf "import a\n, \x7bb as c\x7d from 'x'; a(c); // d"
      { disableESTransforms := true }).toOption.isSome = true := by
    decide +kernel
  have hprepared : ((prepare "import a\n, \x7bb as c\x7d from 'x'; a(c); // d"
      { disableESTransforms := true }).toOption.map fun p =>
        (List.range (p.setting.tape.size + 1)).all (Tape.looksPlainAt p.setting.tape)) = some true := by
    decide +kernel
  obtain ⟨p, hp, hplain⟩ := Option.map_eq_some_iff.1 hprepared
  obtain ⟨code, hcode⟩ := Option.isSome_iff_exists.1 hok
  have hcode := eq_ok_of_toOption hcode
  rw [hcode, codeOf_eq_text (fun t => by cases t <;> decide) rfl (eq_ok_of_toOption hp)
    (isPlain_of_range hplain) (by decide) hcode]

end Emit

end PlainScript
