import PlainScript.Proofs.TracedPasses

/-!
# Traces of the passes for modules

The rules for imports and exports leave traces. They remove tokens that they find by place, so most of
what has to be shown is that such a place is one of those listed for modules. The code for a path is
written where it is claimed.
-/

namespace PlainScript.Emit

-- Counted in combinators.
set_option synthInstance.maxSize 100000

variable {s : Setting} {h i : Nat}

/-! ## Statements and clauses of types -/

theorem ReferenceAt.lt {t : Tape} {w j : Nat} (hj : ReferenceAt t w j) : w < j := by
  obtain hj | hj := hj <;> omega

theorem traces_remove [Later s i] (hi : ModulePart s.tape i) : Traces s h i remove :=
  have := known_of_modulePart (s := s) hi
  inferInstance

theorem traces_removeReference {n : Nat} (hi : ReferenceAt s.tape i (i + 1 + n)) [Flat s i] :
    Traces s i i (do
      removeFirst
      removeMany n
      removeModuleReference) := by
  have hremove (j : Nat) (hj : i < j) (hnear : j ≤ i + 1 + n ∨
      (s.tape.kind (i + 1 + n + 1) = .parenOpen ∧ j ≤ i + 1 + n + 3) ∨
      ∀ k, i + 1 + n < k → k ≤ j → s.tape.kind k = .dot ∨ s.tape.kind (k - 1) = .dot) :
      Traces s i j remove :=
    have := later_of_lt (s := s) hj
    traces_remove (.reference i _ hi hj hnear)
  refine takes_removeReference inferInstance
    (fun k hk => hremove _ (by omega) (.inl (by omega))) (takes_removeModuleReference ?_ ?_ ?_)
  · exact hremove _ (by omega) (.inl (Nat.le_refl _))
  · exact fun hparen j hj hlt => hremove j (by omega) (.inr (.inl ⟨hparen, hlt⟩))
  · exact fun j hj hdots => hremove j (by omega) (.inr (.inr hdots))

theorem traces_removeImportEquals (hi : s.tape.has i [.importWord, .name, .equals] = true) :
    Traces s i i removeImportEquals :=
  have : Flat s i := flat_of_kind (kind_of_isAt hi).1 (by decide)
  traces_removeReference (n := 2) (.inl ⟨rfl, hi⟩)

theorem traces_removeImportTypeEquals
    (hi : s.tape.has i [.importWord, .typeModifier, .name, .equals] = true) :
    Traces s i i removeImportTypeEquals :=
  have : Flat s i := flat_of_kind (kind_of_isAt hi).1 (by decide)
  traces_removeReference (n := 3) (.inr ⟨rfl, hi⟩)

instance [Later s i] : Traces s h i removeImportAttributes := by
  refine takes_removeImportAttributes fun hi j hj hnear => ?_
  obtain ⟨k, rfl⟩ := Nat.exists_eq_add_of_le hj
  exact traces_remove (.attributes i hi hj hnear)

theorem tracesTo_removeFrom [Later s i] (hfrom : s.tape.hasSoft i .fromName = true) :
    TracesTo s h i (fun _ j => j = i + 2) (removeMany 2) := by
  refine takesTo_removeMany fun k hk => ?_
  obtain rfl | rfl : k = 0 ∨ k = 1 := by omega
  · have := known_of_kind (beq_iff_eq.1 (Bool.and_eq_true_iff.1 hfrom).1) (by decide)
    infer_instance
  · exact traces_remove (.path hfrom)

theorem traces_removeExportType (hi : s.tape.has i [.exportWord, .name] = true)
    (htype : s.tape.hasSoft (i + 1) .typeName = true) : Traces s i i removeExportType := by
  have : Flat s i := flat_of_kind (kind_of_isAt hi).1 (by decide)
  have hlater {j : Nat} (hj : i < j) : Later s j := later_of_lt hj
  refine takes_removeExportType inferInstance ?_ ?_ ?_ ?_ fun j hj => ?_
  · intro j hj hlt
    have := hlater hj
    exact traces_remove (.exportType i hi htype hj (.inl hlt))
  · intro hbrace j hj hopen
    have := hlater hj
    exact traces_remove (.exportType i hi htype hj (.inr (.inl ⟨hbrace, hopen⟩)))
  · intro has j hj hlt
    have := hlater hj
    exact traces_remove (.exportType i hi htype hj (.inr (.inr ⟨has, hlt⟩)))
  · intro j hj hfrom _
    have := hlater hj
    exact tracesTo_removeFrom hfrom
  · have := hlater hj
    infer_instance

instance : Traces s h i isTypeDefaultExport := by
  unfold isTypeDefaultExport
  refine .afterLook fun drops => ?_
  split
  · infer_instance
  · refine .look ?_
    split <;> infer_instance

theorem traces_removeTypeDefaultExport (hi : s.tape.has i [.exportWord, .defaultWord] = true) :
    Traces s i i removeTypeDefaultExport := by
  have : Flat s i := flat_of_kind (kind_of_isAt hi).1 (by decide)
  have := (takesTo_removeMany (c := tracing s i) (i := i + 1) (n := 2) fun k hk =>
    traces_remove (.exportDefault i hi (by omega) (by omega))).takes
  unfold removeTypeDefaultExport
  infer_instance

theorem known_of_inClause {b : Nat} (hi : InClause s.tape b i) (hlt : b < i) : Known s i :=
  known_of_modulePart (.clause b hi hlt)

theorem known_of_inStatement {w : Nat} (hi : InStatement s.tape w i) (hlt : w < i)
    (hw : isReferenceAt s.tape w = false) : Known s i :=
  known_of_modulePart (.statement w hi hlt hw)

instance {α : Type} (path : String) (f : Unit → Emit α) [Within s h i] [Later s i]
    [Flat s i] [hf : ∀ u, Traces s h (i + 1) (f u)] :
    Traces s h i (claimImportCode path >>= fun code => replaceTrimmed code >>= f) :=
  .of fun {recur σ τ a} hrecur htidy hindex hrun => by
    obtain ⟨code, υ, hclaim, hrest⟩ := bind_ok hrun
    obtain ⟨_, ω, hwrite, hrest⟩ := bind_ok hrest
    suffices hω : σ.Traced s h ω ∧ ω.index = i + 1 from
      hω.1.trans ((hf ()).traces hrecur hω.1.tidy hω.2 hrest)
    unfold claimImportCode at hclaim
    obtain ⟨_, _, hget, hclaim⟩ := bind_ok hclaim
    cases hget
    split at hclaim
    · cases hclaim
      exact traced_of_puts htidy hindex hwrite
    · cases hclaim
      subst hindex
      obtain ⟨called, rfl⟩ :=
        (puts_replaceTrimmed (s := s) (i := σ.index) (s.plan.codeFor path)).puts
          (σ := { σ with claimedPaths := path :: σ.claimedPaths }) rfl hwrite
      refine ⟨⟨⟨htidy.fileNameVariable, htidy.variableNames, htidy.mockFunctions⟩,
        s.written σ.index .lineBreaks "" (s.plan.codeFor path), by simp [State.moved],
        ?_, fun path' hpath => ?_⟩, rfl⟩
      · exact Trace.nil.write ⟨inferInstance, inferInstance, inferInstance, oneLine_empty⟩
      · obtain rfl | hold := List.mem_cons.1 hpath
        · exact .inr ⟨σ.index, by simp [Setting.written]⟩
        · exact .inl hold

/-! ## CommonJS -/

theorem known_of_atPath {w : Nat} (hi : AtPath s.tape w i) (hlt : w < i)
    (hw : isReferenceAt s.tape w = false) : Known s i :=
  known_of_inStatement hi.1 hlt hw

namespace CommonJs

/-! ### Imports -/

theorem tracesTo_removeImportClause (hi : ImportAt s.tape i) (hw : isReferenceAt s.tape i = false) :
    TracesTo s i i (fun _ j => i < j ∧ AtPath s.tape i j) removeImportClause := by
  have : Flat s i := flat_of_kind hi.1 (by decide)
  refine takesTo_removeImportClause hi inferInstance fun j hj hstatement => ?_
  have := later_of_lt (s := s) hj
  exact traces_remove (.statement i hstatement hj hw)

theorem traces_importEquals (hi : s.tape.has i [.importWord, .name, .equals] = true) :
    Traces s i i importEquals := by
  have : Flat s i := flat_of_kind (kind_of_isAt hi).1 (by decide)
  have := traces_removeImportEquals hi
  infer_instance

theorem traces_dynamicRequire (hi : s.tape.has i [.importWord, .parenOpen] = true) (wrapper : String)
    [OneLine s wrapper] :
    Traces s i i (do
      replace ("Promise.resolve().then(() => " ++ wrapper ++ "require")
      importRest (if wrapper.isEmpty then "))" else ")))")) := by
  have : Flat s i := flat_of_kind (kind_of_isAt hi).1 (by decide)
  have : Known s (i + 1) := known_of_kind (kind_of_isAt (kind_of_isAt hi).2).1 (by decide)
  refine .afterWrite fun _ => .look ?_
  split
  next contextId hcontext =>
    refine Traces.afterWrite fun _ => .afterTo
      (TakesTo.iterate (R := fun _ k => s.tape.kind k = .parenClose) (fun _ _ => True)
        (fun _ j _ => .view ?_) trivial) fun _ k hk => ?_
    · split
      next hclose =>
        exact .pure ⟨fun _ => elim_done, fun _ _ => beq_iff_eq.1 (Bool.and_eq_true_iff.1 hclose).1⟩
      next =>
        split
        · exact .afterFail
        · exact .bind (P := fun _ _ => True) .of_takes fun _ _ _ => .pure ⟨fun _ _ => trivial, fun _ => elim_yield⟩
    · have := known_of_kind hk (by decide)
      infer_instance
  next => infer_instance

theorem traces_dynamicImport (hi : View.isAt ⟨s.tape, i⟩ [.importWord, .parenOpen] = true) :
    Traces s i i dynamicImport := by
  have hrequire := traces_dynamicRequire hi
  unfold dynamicImport
  refine @Takes.afterOptions _ _ _ _ _ ?_
  split
  · infer_instance
  split
  · rw [pure_bind]
    exact hrequire ""
  · rw [map_eq_pure_bind, bind_assoc]
    refine @Traces.afterCallSupport _ _ _ _ _ _ ?_
    rw [pure_bind]
    exact hrequire _

theorem traces_importStatement (hi : s.tape.kind i = .importWord)
    (hw : isReferenceAt s.tape i = false) : Traces s i i importStatement := by
  unfold importStatement
  refine .look ?_
  split
  next hcall => exact traces_dynamicImport hcall
  next hcall =>
    refine Takes.afterTo (tracesTo_removeImportClause (importAt_of_not_isAt hi hcall) hw) fun isDropped k hk => ?_
    have := known_of_atPath hk.2 hk.1 hw
    have := later_of_lt (s := s) hk.1
    split
    · infer_instance
    · exact .look inferInstance

/-! ### References -/

theorem traces_reference (code : String) [OneLine s code] [Known s i] :
    Traces s h i (reference code) := by
  unfold reference
  refine .look ?_
  split
  · split
    next hopen =>
      have hopen : s.tape.kind (i + 1) = .parenOpen := beq_iff_eq.1 (Bool.and_eq_true_iff.1 hopen).1
      have := known_of_kind hopen (by decide)
      infer_instance
    next => infer_instance
  · infer_instance

theorem traces_identifier [Known s i] : Traces s h i identifier := by
  unfold identifier
  refine .look ?_
  split
  · infer_instance
  next hshown =>
    refine @Takes.afterReplacement? _ _ _ _ _ _ ?_
    split
    next code _ hcode =>
      have := oneLine_replacement hcode
      infer_instance
    next code _ hcode =>
      have := oneLine_replacement hcode
      have := traces_reference (s := s) (h := h) (i := i) code
      infer_instance
    next => infer_instance

/-! ### Assignments -/

theorem traces_afterTarget {token : Token} {f : Option String → Emit Bool}
    (hnone : Traces s h i (f none))
    (hf : ∀ target, Mirrors s token target → OneLine s target → Traces s h i (f (some target))) :
    Traces s h i (exportTarget? token >>= f) := by
  have hgives : Gives s (fun target? : Option String => ∀ target, target? = some target →
      Mirrors s token target) (exportTarget? token) := by
    intro recur σ τ target? hsearch target htarget
    subst htarget
    exact mirrors_of_exportTarget? hsearch
  suffices hto : TracesTo s h i (fun _ _ => True) (exportTarget? token >>= f) from hto.takes
  refine .afterGives hgives fun target? htarget => ?_
  cases target? with
  | none => exact .of_takes
  | some target =>
    have hmirrors := htarget target rfl
    have := hf target hmirrors ⟨fun hs => hs.target hmirrors.target⟩
    exact .of_takes

theorem traces_assignment (hi : s.tape.kind i = .equals) : Traces s h i assignment := by
  have := known_of_kind hi (by decide)
  unfold assignment
  refine .look ?_
  split
  · infer_instance
  · split
    · infer_instance
    · exact traces_afterTarget inferInstance fun target _ _ => inferInstance

theorem traces_compoundAssignment (hi : s.tape.kind i = .compoundAssign) :
    Traces s h i compoundAssignment := by
  have := known_of_kind hi (by decide)
  unfold compoundAssignment
  refine .look ?_
  split
  · infer_instance
  next hzero =>
    have : Later s i := ⟨.inl (Nat.pos_of_ne_zero hzero)⟩
    split
    · infer_instance
    · exact traces_afterTarget inferInstance fun target _ _ => inferInstance

variable [hs : BecomesCommonJs s]

theorem traces_prefixIncrement (hi : s.tape.kind i = .increment) : Traces s h i prefixIncrement := by
  have := known_of_kind hi (by decide)
  unfold prefixIncrement
  refine .look ?_
  split
  · infer_instance
  · refine traces_afterTarget inferInstance fun target hmirrors _ => ?_
    have : Later s i := later_of_first fun hzero => by
      subst hzero
      exact .increment hs.imports hi target hmirrors.target
    infer_instance

omit hs in
theorem traces_postfixIncrement (hi : s.tape.has i [.name, .postIncrement] = true) :
    Traces s h i postfixIncrement := by
  obtain ⟨hname, hnext⟩ := kind_of_isAt hi
  have := known_of_kind hname (by decide)
  have := known_of_kind (kind_of_isAt hnext).1 (by decide)
  unfold postfixIncrement
  refine .look ?_
  split
  · infer_instance
  · refine traces_afterTarget inferInstance fun target hmirrors _ => ?_
    refine @Takes.afterReplacement? _ _ _ _ _ _ ?_
    dsimp only
    split <;> infer_instance

/-! ### Exports -/

omit hs

theorem tracesTo_functionName : TracesTo s h i (fun name _ => OneLine s name) (do
    copyIf .star
    functionFromName) := by
  have hname (j : Nat) : TracesTo s h j (fun name _ => OneLine s name) functionFromName := by
    refine .view ?_
    split
    · exact .afterFail
    next hkind =>
      have hkind : s.tape.kind j = .name := by simpa [View.kind, View.token, Tape.kind] using hkind
      have := known_of_kind hkind (by decide)
      refine .afterWrites fun _ => ?_
      exact .bind .of_takes fun _ _ _ => .bind .of_takes fun _ _ _ => .bind .of_takes fun _ _ _ =>
        .bind .of_takes fun _ _ _ => .pure inferInstance
  unfold copyIf
  rw [bind_assoc]
  refine .view ?_
  split
  next hstar =>
    have := known_of_kind (beq_iff_eq.1 hstar) (by decide)
    exact .afterWrites fun _ => hname (i + 1)
  next =>
    rw [pure_bind]
    exact hname i

theorem tracesTo_namedFunction : TracesTo s h i (fun name _ => OneLine s name) namedFunction := by
  have hrest (j : Nat) := tracesTo_functionName (s := s) (h := h) (i := j)
  unfold namedFunction
  refine .view ?_
  dsimp only
  split
  next hfunction =>
    have := known_of_kind (beq_iff_eq.1 hfunction) (by decide)
    exact .afterWrites fun _ => hrest _
  split
  next hasync =>
    obtain ⟨hasync, hfunction⟩ := Bool.and_eq_true_iff.1 hasync
    have := known_of_hasAsync hasync
    have := known_of_kind (s := s) (i := i + 1) (beq_iff_eq.1 hfunction) (by decide)
    exact .afterWrites fun _ => .afterWrites fun _ => hrest _
  next => exact hrest i

theorem traces_decorator (hi : s.tape.kind i = .atSign) : Traces s h i decorator := by
  have := known_of_kind hi (by decide)
  have hnames (j : Nat) : Traces s h j (loopWhile (·.kind == .dot) do
      copyExpected .dot
      copyExpected .name) :=
    .ofLoopWhile fun k _ => inferInstance
  unfold decorator
  infer_instance

theorem tracesTo_decoratedClass [Later s i] :
    TracesTo s h i (fun name _ => OneLine s name) decoratedClass := by
  have hdecorators : Traces s h i (loopWhile (·.kind == .atSign) decorator) :=
    .ofLoopWhile fun k hsign => traces_decorator (beq_iff_eq.1 hsign)
  have habstract (j : Nat) [Later s j] : Traces s h j (removeIf .abstractModifier) :=
    traces_removeIf (by decide)
  unfold decoratedClass
  exact .bind .of_takes fun _ _ _ => .bind .of_takes fun _ _ _ => tracesTo_namedClass

instance (exported localName : String) [OneLine s exported] [OneLine s localName] :
    OneLine s (exportCode exported localName) := by
  unfold exportCode
  infer_instance

/-- The statement after an exported word is no import from a path. -/
theorem traces_exportImportEquals
    (hi : s.tape.has i [.exportWord, .importWord, .name, .equals] = true) :
    Traces s i i exportImportEquals := by
  obtain ⟨hexport, hequals⟩ := kind_of_isAt hi
  obtain ⟨himport, hname⟩ := kind_of_isAt hequals
  have : Flat s i := flat_of_kind hexport (by decide)
  have : Flat s (i + 1) := flat_of_kind himport (by decide)
  have : Known s (i + 2) := known_of_kind (kind_of_isAt hname).1 (by decide)
  have : Within s i (i + 1) := by
    refine ⟨.inr (.other fun hstatement => ?_)⟩
    obtain ⟨_, hreference⟩ | hexport := hstatement
    · exact absurd hequals (Bool.eq_false_iff.1 (Bool.or_eq_false_iff.1 hreference).1)
    · obtain hexport | hexport := Bool.or_eq_true_iff.1 hexport
      all_goals
        rw [(kind_of_isAt hexport).1] at himport
        cases himport
  unfold exportImportEquals
  refine .look ?_
  split <;> infer_instance

theorem traces_exportDefault (hi : s.tape.has i [.exportWord, .defaultWord] = true) :
    Traces s i i exportDefault := by
  obtain ⟨hexport, hdefault⟩ := kind_of_isAt hi
  have : Flat s i := flat_of_kind hexport (by decide)
  have : Known s (i + 1) := known_of_kind (kind_of_isAt hdefault).1 (by decide)
  have := traces_removeTypeDefaultExport hi
  unfold exportDefault
  refine .look ?_
  split
  · exact Traces.afterWrite fun _ => .afterWrite fun _ => .afterTo tracesTo_namedFunction fun _ _ _ =>
      inferInstance
  split
  · exact Traces.afterWrite fun _ => .afterWrite fun _ => .afterTo tracesTo_decoratedClass fun _ _ _ =>
      inferInstance
  · infer_instance

theorem traces_simpleVariable (hi : s.tape.kind i = .exportWord)
    (hword : s.tape.hasOneOf (i + 1) [.varWord, .letWord, .constWord] = true)
    (hname : s.tape.kind (i + 2) = .name) : Traces s i i simpleVariable := by
  have : Flat s i := flat_of_kind hi (by decide)
  have := known_of_oneOf (by decide) hword
  have : Known s (i + 1 + 1) := known_of_kind hname (by decide)
  have hvalue (j : Nat) [Later s j] (name : String) [OneLine s name] : Traces s i j (assignmentRest name) := by
    refine .look ?_
    split <;> infer_instance
  unfold simpleVariable
  exact .afterWrite fun _ => .afterWrite fun _ => .look (.andThen fun _ k => hvalue _ _)

instance : Traces s h i assignedValue := by
  unfold assignedValue
  refine .look ?_
  split <;> infer_instance

theorem traces_declaredName (hi : (s.tape.get i).hasRole IdentifierRole.isDeclaration = true) :
    Traces s h i declaredName := by
  have := known_of_leftOut (.declared hi)
  unfold declaredName
  refine .look ?_
  refine @Takes.afterReplacement? _ _ _ _ _ _ ?_
  split
  next code hcode =>
    have := oneLine_replacement hcode
    infer_instance
  next => infer_instance

instance : Traces s h i variablePattern := by
  unfold variablePattern
  dsimp only
  refine @Takes.discard _ _ _ _ _ (.ofRounds fun depth k => .look ?_)
  have hdeclared := traces_declaredName (s := s) (h := h) (i := i + k)
  split
  · infer_instance
  split
  next hopen =>
    have := known_of_oneOf (s := s) (i := i + k) (by decide) hopen
    infer_instance
  split
  next hclose =>
    have := known_of_oneOf (s := s) (i := i + k) (by decide) hclose
    infer_instance
  split
  · infer_instance
  split
  · infer_instance
  split
  next hrole =>
    have := hdeclared hrole
    infer_instance
  next => infer_instance

theorem traces_complexVariable (hi : s.tape.kind i = .exportWord)
    (hword : s.tape.hasOneOf (i + 1) [.varWord, .letWord, .constWord] = true) :
    Traces s i i complexVariable := by
  have : Flat s i := flat_of_kind hi (by decide)
  have := known_of_oneOf (by decide) hword
  infer_instance

instance (x : Specifier) (isFromModule : Bool) : Traces s h i (specifierCode? x isFromModule) := by
  unfold specifierCode?
  split <;> infer_instance

/-- The names of a specifier are texts of tokens in its clause. -/
theorem oneLine_of_names {x : Specifier} {localName exported : String}
    (hx : Specifier.read s.tape i = .ok x) (hknown : ∀ j, i ≤ j → j < x.stop → Known s j)
    (hnames : x.names? = some (localName, exported)) : OneLine s localName ∧ OneLine s exported := by
  have htext (j : Nat) (hj : i ≤ j) (hlt : j < x.stop) : OneLine s (s.tape.text j) := by
    have := hknown j hj hlt
    exact oneLine_text
  unfold Specifier.read at hx
  split at hx
  · cases hx
    cases hnames
    exact ⟨htext i (Nat.le_refl i) (Nat.lt_succ_self i), htext i (Nat.le_refl i) (Nat.lt_succ_self i)⟩
  split at hx
  · cases hx
    cases hnames
  split at hx
  · cases hx
    cases hnames
    exact ⟨htext i (Nat.le_refl i) (by simp), htext (i + 2) (by omega) (by simp)⟩
  split at hx
  · cases hx
    cases hnames
  · cases hx

theorem gives_specifierCode? {x : Specifier} {isFromModule : Bool}
    (hnames : ∀ localName exported, x.names? = some (localName, exported) →
      OneLine s localName ∧ OneLine s exported) :
    Gives s (fun code? : Option String => ∀ code ∈ code?.toList, OneLine s code)
      (specifierCode? x isFromModule) := by
  unfold specifierCode?
  split
  · exact .pure (by simp)
  next localName exported hx =>
    obtain ⟨_, _⟩ := hnames localName exported hx
    have hcode : Gives s (fun code? : Option String => ∀ code ∈ code?.toList, OneLine s code) (do
        return some ("exports." ++ exported ++ " = " ++
          (← replacement? localName).getD localName ++ ";")) := by
      intro recur σ τ code? hrun code hmem
      cases hrun
      rw [List.mem_singleton.1 hmem]
      infer_instance
    refine .bind fun drops => .bind fun env => ?_
    dsimp only
    split
    · exact .pure (by simp)
    · split
      · exact .bind fun _ => hcode
      · exact .bind fun _ => hcode

theorem tracesTo_exportAssignments {b : Nat} (hi : InClause s.tape b i) (hlt : b < i)
    (isFromModule : Bool) : TracesTo s h i (fun codes j => b < j ∧ s.tape.kind (j - 1) = .braceClose ∧
      ∀ c ∈ codes, OneLine s c) (exportAssignments isFromModule) := by
  refine takesTo_exportAssignments _ (fun j hj hclause => ?_) (fun j x hj hx hclause => ?_) hi hlt
  · have := later_of_lt (s := s) hj
    exact traces_remove (.clause b hclause hj)
  · exact gives_specifierCode? fun _ _ => oneLine_of_names hx fun k hk hlt =>
      known_of_inClause (hclause k hk hlt) (by omega)

instance [Within s h i] [Later s i] [Flat s i] : Traces s h i fromPath := by
  unfold fromPath
  exact .look inferInstance

theorem traces_exportClause (hi : s.tape.has i [.exportWord, .braceOpen] = true) :
    Traces s i i exportClause := by
  have hb := clauseAt_of_has hi
  have : Flat s i := flat_of_kind (kind_of_isAt hi).1 (by decide)
  have := known_of_kind hb.1 (by decide)
  unfold exportClause
  refine .afterWrite fun _ => .afterWrite fun _ => .look ?_
  refine Takes.afterTo (tracesTo_exportAssignments hb.inClause (Nat.lt_succ_self _) _)
    fun codes k hk => .look ?_
  split
  next hfrom =>
    have hfrom : s.tape.hasSoft (i + 1 + 1 + k) .fromName = true := hfrom
    have := known_of_kind (beq_iff_eq.1 (Bool.and_eq_true_iff.1 hfrom).1) (by decide)
    have : Known s (i + 1 + 1 + k + 1) := known_of_modulePart (.path hfrom)
    infer_instance
  next =>
    have : OneLine s (String.intercalate " " codes) :=
      ⟨fun hs => lineFeeds_intercalate (by decide) fun c hc => (hk.2.2 c hc).lineFeeds hs⟩
    infer_instance

theorem traces_exportStar (hi : s.tape.has i [.exportWord, .star] = true) :
    Traces s i i exportStar := by
  have hstart : InStatement s.tape i i := .start (.inr hi)
  have hexport := (kind_of_isAt hi).1
  have hw : isReferenceAt s.tape i = false := by simp [isReferenceAt, Tape.has, hexport]
  have : Flat s i := flat_of_kind hexport (by decide)
  unfold exportStar
  refine .afterWrite fun _ => .afterTo (takesTo_pathLoop (fun j hj hstatement => ?_)
    (hstart.next (by simp [hexport]))) fun _ k hk => ?_
  · have := later_of_lt (s := s) (Nat.lt_of_succ_le hj)
    exact traces_remove (.statement i hstatement hj hw)
  · have := known_of_inStatement hk.1.2 hk.1.1 hw
    infer_instance

theorem traces_exportDeclaration (hi : s.tape.kind i = .exportWord) :
    Traces s i i exportDeclaration := by
  have : Flat s i := flat_of_kind hi (by decide)
  unfold exportDeclaration
  refine .afterLook fun _ => .look ?_
  dsimp only
  split
  next hword =>
    have := traces_complexVariable hi hword
    split
    next hsimple =>
      exact traces_simpleVariable hi hword (beq_iff_eq.1 (Bool.and_eq_true_iff.1 hsimple).1)
    next => infer_instance
  split
  · exact Traces.afterWrite fun _ => .afterTo tracesTo_namedFunction fun _ _ _ => inferInstance
  split
  · exact Traces.afterWrite fun _ => .afterTo tracesTo_decoratedClass fun _ _ _ => inferInstance
  split
  next hstar =>
    have hstar : s.tape.kind (i + 1) = .star := beq_iff_eq.1 hstar
    exact traces_exportStar (by simp [Tape.has, hi, hstar])
  next => infer_instance

theorem traces_exportStatement (hi : s.tape.kind i = .exportWord) : Traces s i i exportStatement := by
  have := traces_exportDeclaration hi
  unfold exportStatement
  refine .afterLook fun _ => .look ?_
  dsimp only
  split
  · infer_instance
  split
  next hdefault =>
    have := traces_exportDefault hdefault
    infer_instance
  split
  next hclause =>
    have := traces_exportClause hclause
    infer_instance
  split
  next htype =>
    obtain ⟨hname, htype⟩ := Bool.and_eq_true_iff.1 htype
    have := traces_removeExportType hname htype
    infer_instance
  split
  next hequals =>
    have := traces_exportImportEquals hequals
    infer_instance
  next => infer_instance

end CommonJs

theorem traces_exportEquals (hi : s.tape.has i [.exportWord, .equals] = true) :
    Traces s i i (replace "module.exports") := by
  have : Flat s i := flat_of_kind (kind_of_isAt hi).1 (by decide)
  infer_instance

theorem traces_bindingUse [BecomesCommonJs s] : Traces s i i (match View.kind ⟨s.tape, i⟩ with
    | .name | .jsxName => CommonJs.identifier
    | .equals => CommonJs.assignment
    | .compoundAssign => CommonJs.compoundAssignment
    | .increment => CommonJs.prefixIncrement
    | _ => return false) := by
  split
  next hkind =>
    have := known_of_kind (s := s) (i := i) hkind (by decide)
    exact CommonJs.traces_identifier
  next hkind =>
    have := known_of_kind (s := s) (i := i) hkind (by decide)
    exact CommonJs.traces_identifier
  next hkind => exact CommonJs.traces_assignment hkind
  next hkind => exact CommonJs.traces_compoundAssignment hkind
  next hkind => exact CommonJs.traces_prefixIncrement hkind
  · infer_instance

theorem traces_commonJsPass [BecomesCommonJs s] : Traces s i i commonJsPass := by
  have hlast := traces_bindingUse (s := s) (i := i)
  unfold commonJsPass
  refine .look ?_
  split
  next hequals =>
    have := CommonJs.traces_importEquals hequals
    infer_instance
  next hname =>
  split
  next hequals =>
    have := traces_removeImportTypeEquals hequals
    infer_instance
  next htype =>
  split
  next hword =>
    have hw : isReferenceAt s.tape i = false := by
      simpa [isReferenceAt, View.isAt] using And.intro hname htype
    have := CommonJs.traces_importStatement (beq_iff_eq.1 hword) hw
    infer_instance
  split
  next hequals =>
    have := traces_exportEquals hequals
    infer_instance
  split
  next hexport =>
    have := CommonJs.traces_exportStatement (s := s) (i := i)
      (beq_iff_eq.1 (Bool.and_eq_true_iff.1 hexport).1)
    infer_instance
  next =>
    by_cases hpost : View.isAt ⟨s.tape, i⟩ [.name, .postIncrement] = true
    · have := CommonJs.traces_postfixIncrement (h := i) hpost
      infer_instance
    · dsimp only
      rw [if_neg hpost]
      exact hlast

/-! ## Modules that stay modules -/

/-! ### Paths that are claimed -/

theorem fixesClaims_of_puts {e : Emit Unit}
    (he : ∀ (s : Setting) (i : Nat), ∃ form before code, Puts s i e form before code) :
    Fixes State.claimedPaths e where
  holds {env σ τ a} hrun := by
    obtain ⟨form, before, code, hputs⟩ := he env.toSetting σ.index
    obtain ⟨_, _, _, _, rfl⟩ := hputs.puts rfl hrun
    rfl

instance : Fixes State.claimedPaths copy :=
  fixesClaims_of_puts fun _ _ => ⟨_, _, _, puts_copy⟩

instance : Fixes State.claimedPaths remove :=
  fixesClaims_of_puts fun _ _ => ⟨_, _, _, puts_remove⟩

instance (code : String) : Fixes State.claimedPaths (add code) where
  holds hrun := by
    cases hrun
    rfl

namespace EsModule

variable {b w : Nat}

/-! ### Clauses -/

theorem traces_copy {x : Specifier} (hi : AtSpecifier s.tape b i) (hkind : s.tape.kind i ≠ .braceClose)
    (hx : Specifier.read s.tape i = .ok x) (j : Nat) (hj : i ≤ j) (hle : j ≤ x.stop) :
    Traces s h j copy := by
  have := known_of_inClause (hi.1.to hj fun k hk hlt =>
    Specifier.kind_ne_braceClose hx hkind hk (by omega)) (Nat.lt_of_lt_of_le hi.2.1 hj)
  infer_instance

theorem traces_removeInClause (hi : InClause s.tape b i) (hlt : b < i) : Traces s h i remove :=
  have := later_of_lt (s := s) hlt
  traces_remove (.clause b hi hlt)

/-! ### Statements -/

theorem traces_importEquals (hi : s.tape.has i [.importWord, .name, .equals] = true) :
    Traces s i i importEquals := by
  obtain ⟨himport, hname⟩ := kind_of_isAt hi
  obtain ⟨hname, hequals⟩ := kind_of_isAt hname
  have : Flat s i := flat_of_kind himport (by decide)
  have := known_of_kind hname (by decide)
  have := known_of_kind (kind_of_isAt hequals).1 (by decide)
  have : Known s (i + 1 + 1 + 1) := known_of_modulePart
    (.reference i (i + 3) (.inl ⟨rfl, hi⟩) (by omega) (.inl (Nat.le_refl _)))
  have := traces_removeImportEquals hi
  infer_instance

theorem tracesTo_defaultImport (hi : InNames s.tape w i) (hlt : w < i) :
    TracesTo s h i (fun _ j => InNames s.tape w j) defaultImport := by
  have := later_of_lt (s := s) hlt
  refine takesTo_defaultImport hi (fun hname => ?_) fun _ hcomma => ?_
  · have := known_of_kind hname (by decide)
    exact ⟨inferInstance, inferInstance⟩
  · have := known_of_kind hcomma (by decide)
    infer_instance

theorem traces_clauseRest (hi : InNames s.tape w i) (hlt : w < i) (hw : isReferenceAt s.tape w = false)
    (content : ClauseContent) (needsComma : Bool) : Traces s h i (clauseRest content needsComma) := by
  have := later_of_lt (s := s) hlt
  refine takes_clauseRest hi content needsComma inferInstance (fun hstar hnext hlast => ?_) fun hb => ?_
  · have := known_of_kind hstar (by decide)
    have : Known s (i + 1) := known_of_modulePart (.names w hnext (by omega) hw)
    have : Known s (i + 2) := known_of_modulePart (.names w hlast (by omega) hw)
    refine ⟨fun k hk => ?_, inferInstance, inferInstance, inferInstance⟩
    obtain rfl | rfl | rfl : k = 0 ∨ k = 1 ∨ k = 2 := by omega
    all_goals infer_instance
  · have := known_of_kind hb.1 (by decide)
    exact ⟨inferInstance, takesTo_importSpecifiers (fun j hj hclause => traces_removeInClause hclause hj)
      (fun j x hj hkind hx _ => traces_copy hj hkind hx) hb content, fun _ _ => inferInstance⟩

theorem traces_importClause (hi : ImportAt s.tape i) (hw : isReferenceAt s.tape i = false) :
    Traces s i i importClause := by
  have hword : Traces s i i (copyExpected .importWord) :=
    (TracesTo.copyExpected (Q := fun _ _ => True) (fun _ => inferInstance) fun _ => trivial).takes
  refine takes_importClause hi hword (fun hkind => ?_) (fun j hlt hj => tracesTo_defaultImport hj hlt)
    fun j content needsComma hlt hj => traces_clauseRest hj hlt hw content needsComma
  have : Within s i (i + 1) := by
    obtain hkind | hkind := hkind <;> exact within_of_kind hkind (by decide)
  infer_instance

theorem tracesTo_removeToPath (hi : ImportAt s.tape i) (hw : isReferenceAt s.tape i = false)
    (hlater : Later s i) :
    TracesTo s i i (fun _ j => i < j ∧ InStatement s.tape i j) removeToPath := by
  refine (takesTo_pathLoop (fun j hj hstatement => ?_) (.start (.inl hi))).imp fun _ j _ hj => ?_
  · obtain rfl | hlt := Nat.eq_or_lt_of_le hj
    · have : Flat s i := flat_of_kind hi.1 (by decide)
      infer_instance
    · have := later_of_lt (s := s) hlt
      exact traces_remove (.statement i hstatement hlt hw)
  · refine ⟨Nat.lt_of_le_of_ne hj.1.1 fun heq => ?_, hj.1.2⟩
    have hkind := hj.2
    rw [← heq, hi.1] at hkind
    cases hkind

theorem traces_importStatement [hs : StaysModule s] (hi : s.tape.kind i = .importWord)
    (hw : isReferenceAt s.tape i = false) : Traces s i i importStatement := by
  unfold importStatement
  refine .look ?_
  split
  · infer_instance
  next hcall =>
    have hi := importAt_of_not_isAt hi hcall
    have hremoved (hlater : Later s i) : Traces s i i (do
        removeToPath
        remove
        removeImportAttributes
        removeIf .semicolon
        return true) := by
      refine .afterTo (tracesTo_removeToPath hi hw hlater) fun _ k hk => ?_
      have := known_of_inStatement hk.2 hk.1 hw
      infer_instance
    refine Traces.of fun {recur σ τ a} hrecur htidy hindex hrun => ?_
    obtain ⟨_, _, hget, hrun⟩ := bind_ok hrun
    cases hget
    obtain ⟨isDropped, υ, hclause, hrest⟩ := bind_ok hrun
    have hυ := (traces_importClause hi hw).traces hrecur htidy hindex hclause
    cases isDropped with
    | false =>
      cases hrest
      exact hυ
    | true =>
      -- What the clause has written is taken back, and what is left was there before.
      obtain ⟨pieces, houtput, _, _⟩ := hυ.trace
      have hclaims : υ.claimedPaths = σ.claimedPaths := fixes_importClause.fixes hclause
      have hback : State.Traced s i σ { υ with index := i, output := υ.output.shrink σ.output.size } := by
        refine .of_eq ⟨hυ.tidy.fileNameVariable, hυ.tidy.variableNames, hυ.tidy.mockFunctions⟩
          hindex.symm ?_ hclaims
        refine Array.toList_inj.1 ?_
        rw [Array.toList_shrink, houtput]
        exact List.take_left' rfl
      have hlater : Later s i := later_of_first fun hzero =>
        .importStatement hs.imports (hzero ▸ hi.1) ⟨recur, σ, υ, hindex.trans hzero, hclause⟩
      exact hback.trans ((hremoved hlater).traces hrecur hback.tidy rfl hrest)

theorem traces_exportDefault (hi : s.tape.has i [.exportWord, .defaultWord] = true) :
    Traces s i i exportDefault := by
  obtain ⟨hexport, hdefault⟩ := kind_of_isAt hi
  have : Flat s i := flat_of_kind hexport (by decide)
  have : Known s (i + 1) := known_of_kind (kind_of_isAt hdefault).1 (by decide)
  have := traces_removeTypeDefaultExport hi
  infer_instance

theorem traces_namedExports (hi : s.tape.has i [.exportWord, .braceOpen] = true) :
    Traces s i i namedExports := by
  have hb := clauseAt_of_has hi
  unfold namedExports
  refine @Takes.afterOptions _ _ _ _ _ ?_
  split
  · infer_instance
  · refine Traces.afterExpected (fun _ => inferInstance) fun _ _ => .afterExpected
      (within_of_kind · (by decide)) fun _ _ => .look ?_
    refine Takes.afterTo (takesTo_exportSpecifiers (fun j hj hclause => traces_removeInClause hclause hj)
      (fun j x hj hkind hx _ => traces_copy hj hkind hx) hb _) fun hasValue k hk => Traces.afterExpected
      (within_of_kind · (by decide)) fun hclose _ => @Takes.afterOptions _ _ _ _ _ ?_
    split
    next hdropped =>
      have hreexport := (Bool.and_eq_true_iff.1 (Bool.and_eq_true_iff.1 hdropped).1).2
      unfold isReexport at hreexport
      dsimp only at hreexport
      rw [hk.skip_eq hclose] at hreexport
      refine Takes.afterTo (tracesTo_removeFrom (Bool.and_eq_true_iff.1 hreexport).1) fun _ m hm => ?_
      infer_instance
    next => infer_instance

end EsModule

theorem traces_esModulePass [StaysModule s] : Traces s i i esModulePass := by
  unfold esModulePass
  refine .look ?_
  split
  next hequals =>
    have := EsModule.traces_importEquals hequals
    infer_instance
  next hname =>
  split
  next hequals =>
    have := traces_removeImportTypeEquals hequals
    infer_instance
  next htype =>
  split
  next hequals =>
    have := traces_exportEquals hequals
    infer_instance
  split
  next hequals =>
    have : Flat s i := flat_of_kind (kind_of_isAt hequals).1 (by decide)
    have := (tracesTo_removeMany (s := s) (h := i) (i := i + 1) (n := 8) fun k hk =>
      known_of_modulePart (.exportedReference i hequals (by omega) (by omega))).takes
    infer_instance
  split
  next hword =>
    have hw : isReferenceAt s.tape i = false := by
      simpa [isReferenceAt, View.isAt] using And.intro hname htype
    have := EsModule.traces_importStatement (beq_iff_eq.1 hword) hw
    infer_instance
  split
  next hdefault =>
    have := EsModule.traces_exportDefault hdefault
    infer_instance
  split
  next hnamed =>
    have := EsModule.traces_namedExports hnamed
    infer_instance
  split
  next htype =>
    obtain ⟨hname, htype⟩ := Bool.and_eq_true_iff.1 htype
    have := traces_removeExportType hname htype
    infer_instance
  next => infer_instance

end PlainScript.Emit
