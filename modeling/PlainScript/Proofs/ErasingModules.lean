import PlainScript.Proofs.Erasing

/-!
# What is written for the tokens of types in imports and exports

The rules for modules are asked before the one for types. They go by the kinds of tokens, so a marked
token in the right place is written as if it had no mark. Everywhere else they write nothing for a
type, and neither does the writer as a whole.
-/

namespace PlainScript.Emit

-- Counted in combinators.
set_option synthInstance.maxSize 100000

variable {s : Setting} {i : Nat}

/-! ## Statements and clauses of types -/

theorem passes_of_statementRest (h : StatementRest s.tape i) : Passes s i :=
  ⟨fun _ => .inr (.statement h)⟩

instance : Drops s i .semicolon :=
  ⟨fun h _ => .inr (.statement (.semicolon h))⟩

theorem strips_remove (h : StatementRest s.tape i) : Strips s i remove :=
  have := passes_of_statementRest h
  inferInstance

theorem strips_removeReference {w n : Nat} (h : ReferenceAt s.tape w (w + 1 + n)) (hn : n ≤ 3) :
    Strips s w (do
      removeFirst
      removeMany n
      removeModuleReference) := by
  have hnear (j : Nat) (hj : w ≤ j) (hlt : j ≤ w + 1 + n + 3) : StatementRest s.tape j :=
    .reference w _ h hj (.inl hlt)
  have := passes_of_statementRest (hnear w (Nat.le_refl w) (by omega))
  refine takes_removeReference inferInstance
    (fun _ _ => strips_remove (hnear _ (by omega) (by omega))) (takes_removeModuleReference ?_ ?_ ?_)
  · exact strips_remove (hnear _ (by omega) (by omega))
  · exact fun _ j hj hlt => strips_remove (hnear j (by omega) hlt)
  · exact fun j hj hdots => strips_remove (.reference w _ h (by omega) (.inr hdots))

theorem strips_removeImportEquals (h : s.tape.has i [.importWord, .name, .equals] = true) :
    Strips s i removeImportEquals :=
  strips_removeReference (n := 2) (.inl ⟨rfl, h⟩) (by omega)

theorem strips_removeImportTypeEquals
    (h : s.tape.has i [.importWord, .typeModifier, .name, .equals] = true) :
    Strips s i removeImportTypeEquals :=
  strips_removeReference (n := 3) (.inr ⟨rfl, h⟩) (by omega)

instance : Strips s i removeImportAttributes :=
  takes_removeImportAttributes fun h j hj hnear => strips_remove (.attributes i h hj hnear)

theorem stripsTo_removeFrom (h : s.tape.hasSoft i .fromName = true)
    (hpath : s.tape.kind (i + 1) = .string) :
    StripsTo s i (fun _ j => j = i + 2) (removeMany 2) := by
  refine takesTo_removeMany fun k hk => ?_
  obtain rfl | rfl : k = 0 ∨ k = 1 := by omega
  · exact strips_remove (.fromWord h (.inr hpath))
  · exact strips_remove (.fromPath h hpath)

theorem strips_removeExportType (h : s.tape.has i [.exportWord, .name] = true)
    (htype : s.tape.hasSoft (i + 1) .typeName = true) : Strips s i removeExportType := by
  have hnear (j : Nat) (hj : i ≤ j) (hlt : j ≤ i + 4) : StatementRest s.tape j :=
    .exportType i h htype hj (.inl hlt)
  have := passes_of_statementRest (hnear i (Nat.le_refl i) (by omega))
  refine takes_removeExportType inferInstance ?_ ?_ ?_ ?_ fun _ _ => inferInstance
  · exact fun j hj hlt => strips_remove (hnear j (by omega) (by omega))
  · exact fun hbrace j hj hopen =>
      strips_remove (.exportType i h htype (by omega) (.inr ⟨hbrace, hopen⟩))
  · exact fun _ j hj hlt => strips_remove (hnear j (by omega) hlt)
  · exact fun _ _ hfrom hpath => stripsTo_removeFrom hfrom hpath

instance : Strips s i isTypeDefaultExport := by
  unfold isTypeDefaultExport
  refine .afterLook fun drops => ?_
  split
  · infer_instance
  · refine .look ?_
    split <;> infer_instance

theorem strips_removeTypeDefaultExport (h : s.tape.has i [.exportWord, .defaultWord] = true) :
    Strips s i removeTypeDefaultExport := by
  have hnear (j : Nat) (hj : i ≤ j) (hlt : j ≤ i + 2) : StatementRest s.tape j :=
    .exportDefault i h hj hlt
  have := passes_of_statementRest (hnear i (Nat.le_refl i) (by omega))
  have := (takesTo_removeMany (i := i + 1) (n := 2) fun k hk =>
    strips_remove (hnear _ (by omega) (by omega))).takes
  unfold removeTypeDefaultExport
  infer_instance

theorem passes_of_inClause {b : Nat} (h : InClause s.tape b i) : Passes s i :=
  passes_of_statementRest (.clause b h)

/-! ## CommonJS -/

/-- A file whose modules become CommonJS. -/
class BecomesCommonJs (s : Setting) : Prop where
  imports : s.options.has .imports = true

theorem excused_of_commonJsPart [hs : BecomesCommonJs s] (h : CommonJsPart s i) : Excused s i :=
  ⟨fun _ => .commonJs hs.imports h⟩

theorem fits_of_commonJsPart [hs : BecomesCommonJs s] {kind : TokenKind}
    (h : s.tape.kind i = kind → CommonJsPart s i) : Fits s i kind :=
  ⟨fun hkind _ => .commonJs hs.imports (h hkind)⟩

theorem unmarked_of_exportAt (h : ExportAt s.tape i) : Unmarked s i := ⟨h.2⟩

theorem excused_of_atPath [BecomesCommonJs s] {w : Nat} (h : AtPath s.tape w i) : Excused s i := by
  obtain ⟨hstatement, hkind | hend⟩ := h
  · exact excused_of_commonJsPart (.path w hstatement hkind)
  · have : Unmarked s i := ⟨Tape.isType_of_size_le hend⟩
    infer_instance

theorem passes_of_inStatement {w : Nat} (h : InStatement s.tape w i) : Passes s i :=
  passes_of_statementRest (.statement w h)

namespace CommonJs

/-! ### Imports -/

theorem stripsTo_removeImportClause (h : ImportAt s.tape i) :
    StripsTo s i (fun _ j => i < j ∧ AtPath s.tape i j) removeImportClause := by
  have := passes_of_inStatement (.start (.inl h))
  exact takesTo_removeImportClause h inferInstance fun j _ hj => strips_remove (.statement i hj)

variable [BecomesCommonJs s]

theorem excused_importWord (h : s.tape.kind i = .importWord) : Excused s i :=
  excused_of_commonJsPart (.importWord h)

theorem strips_importEquals (h : s.tape.has i [.importWord, .name, .equals] = true) :
    Strips s i importEquals := by
  have := excused_importWord (kind_of_isAt h).1
  have := strips_removeImportEquals h
  infer_instance

theorem strips_dynamicRequire (h : s.tape.has i [.importWord, .parenOpen] = true) (wrapper : String) :
    Strips s i (do
      replace ("Promise.resolve().then(() => " ++ wrapper ++ "require")
      importRest (if wrapper.isEmpty then "))" else ")))")) := by
  have := excused_importWord (kind_of_isAt h).1
  refine .afterWrite fun _ => .look ?_
  split
  next contextId hcontext =>
    have hcontext : (s.tape.get (i + 1)).contextId? = some contextId := hcontext
    have : Excused s (i + 1) := by
      have hopen := (kind_of_isAt (kind_of_isAt h).2).1
      refine excused_of_commonJsPart (.importParen i (Nat.lt_succ_self i) h ?_ rfl ?_)
      · exact hasOneOf_of_kind hopen (by decide)
      · rw [hcontext]
        rfl
    refine Strips.afterWrite fun _ => ?_
    refine .afterTo (Q := fun _ k => s.tape.hasContext k .parenClose (some contextId) = true)
      (.iterate (fun _ _ => True) (fun _ j _ => .view ?_) trivial) fun _ k hk => ?_
    · split
      next hclose => exact .pure ⟨fun _ => elim_done, fun _ _ => hclose⟩
      next =>
        split
        · exact .afterFail
        · exact .bind .of_takes fun _ _ _ => .pure ⟨fun _ _ => trivial, fun _ => elim_yield⟩
    · have : Excused s (i + 1 + 1 + k) := by
        obtain ⟨hkind, hid⟩ := Bool.and_eq_true_iff.1 hk
        have hid := beq_iff_eq.1 hid
        refine excused_of_commonJsPart (.importParen i (by omega) h ?_ ?_ ?_)
        · exact hasOneOf_of_kind (beq_iff_eq.1 hkind) (by decide)
        · rw [hid, hcontext]
        · rw [hid]
          rfl
      infer_instance
  next => infer_instance

theorem strips_dynamicImport (h : View.isAt ⟨s.tape, i⟩ [.importWord, .parenOpen] = true) :
    Strips s i dynamicImport := by
  have := excused_importWord (kind_of_isAt h).1
  have := strips_dynamicRequire h
  unfold dynamicImport
  infer_instance

theorem strips_importStatement (h : s.tape.kind i = .importWord) : Strips s i importStatement := by
  unfold importStatement
  refine .look ?_
  split
  next hcall => exact strips_dynamicImport hcall
  next hcall =>
    refine Takes.afterTo (stripsTo_removeImportClause (importAt_of_not_isAt h hcall))
      fun isDropped k hpath => ?_
    have := excused_of_atPath hpath.2
    split
    · infer_instance
    · exact .look (.afterLook fun code => inferInstance)

/-! ## References -/

theorem strips_reference {code : String} (hcode : s.replacementAt? i = some code) :
    Strips s i (reference code) := by
  have := excused_of_commonJsPart (.reference code hcode)
  unfold reference
  refine .look ?_
  split
  · split
    next hopen =>
      have hopen : s.tape.kind (i + 1) = .parenOpen := beq_iff_eq.1 (Bool.and_eq_true_iff.1 hopen).1
      have : Passes s (i + 1) := ⟨fun _ => .inr (.callOpen code hcode hopen)⟩
      have hclose (k : Nat) : Fits s (i + 1 + 1 + k) .parenClose :=
        fits_of_commonJsPart (.callClose i (by omega) code hcode hopen)
      infer_instance
    next => infer_instance
  · infer_instance

theorem replacementAt?_eq {role : IdentifierRole} {code : String}
    (hrole : role = .access ∨ role = .objectShorthand)
    (hshown : (s.tape.get i).shadowsGlobal = false) (h : (s.tape.get i).role? = some role)
    (hcode : s.plan.replacement? (s.tape.text i) = some code) : s.replacementAt? i = some code := by
  unfold Setting.replacementAt?
  obtain rfl | rfl := hrole <;> simp only [hshown, h, hcode, Bool.false_eq_true, if_false]

instance : Strips s i identifier := by
  unfold identifier
  refine .look ?_
  split
  · infer_instance
  next hshown =>
    have hshown : (s.tape.get i).shadowsGlobal = false := Bool.eq_false_of_not_eq_true hshown
    refine @Takes.afterReplacement? _ _ _ _ _ _ ?_
    split
    next code hrole hcode =>
      have hreplaced := replacementAt?_eq (.inr rfl) hshown hrole hcode
      have := excused_of_commonJsPart (.reference code hreplaced)
      infer_instance
    next code hrole hcode =>
      have hreplaced := replacementAt?_eq (.inl rfl) hshown hrole hcode
      have := strips_reference hreplaced
      infer_instance
    next => infer_instance

/-! ## Assignments -/

theorem strips_afterTarget {token : Token} {f : Option String → Emit Bool}
    (hnone : Strips s i (f none))
    (hf : ∀ target, Mirrors s token target → Strips s i (f (some target))) :
    Strips s i (exportTarget? token >>= f) :=
  .of fun hrecur hindex hrun => by
    obtain ⟨target?, υ, hsearch, hrest⟩ := bind_ok hrun
    have hplace := (fixes_exportTarget? token).fixes hsearch
    have hυ := Strips.strips inferInstance hrecur hindex hsearch
    have hindex' := (State.index_of_place hplace).trans hindex
    cases target? with
    | none => exact hυ.trans (hnone.strips hrecur hindex' hrest)
    | some target =>
      exact hυ.trans ((hf target (mirrors_of_exportTarget? hsearch)).strips hrecur hindex' hrest)

theorem strips_assignment (h : s.tape.kind i = .equals) : Strips s i assignment := by
  unfold assignment
  refine .look ?_
  split
  · infer_instance
  · split
    · infer_instance
    · refine strips_afterTarget inferInstance fun target hmirrors => ?_
      have := excused_of_commonJsPart (.assigned .plain (beq_iff_eq.2 h) target hmirrors)
      infer_instance

theorem strips_compoundAssignment (h : s.tape.kind i = .compoundAssign) :
    Strips s i compoundAssignment := by
  unfold compoundAssignment
  refine .look ?_
  split
  · infer_instance
  · split
    · infer_instance
    · refine strips_afterTarget inferInstance fun target hmirrors => ?_
      have := excused_of_commonJsPart (.assigned .compound (beq_iff_eq.2 h) target hmirrors)
      infer_instance

theorem strips_prefixIncrement (h : s.tape.kind i = .increment) : Strips s i prefixIncrement := by
  unfold prefixIncrement
  refine .look ?_
  split
  · infer_instance
  · refine strips_afterTarget inferInstance fun target hmirrors => ?_
    have := excused_of_commonJsPart (.assigned .increment (beq_iff_eq.2 h) target hmirrors)
    infer_instance

theorem strips_postfixIncrement (h : s.tape.has i [.name, .postIncrement] = true) :
    Strips s i postfixIncrement := by
  unfold postfixIncrement
  refine .look ?_
  split
  · infer_instance
  · refine strips_afterTarget inferInstance fun target hmirrors => ?_
    have := excused_of_commonJsPart (.assigned .postIncrement h target hmirrors)
    have : Passes s (i + 1) := ⟨fun _ => .inr (.increment h)⟩
    refine @Takes.afterReplacement? _ _ _ _ _ _ ?_
    dsimp only
    split <;> infer_instance

/-! ## Exports -/

/-- An index after the start of an export statement. -/
class AfterExport (s : Setting) (i : Nat) : Prop where
  start : ∃ w, w < i ∧ ExportAt s.tape w

theorem afterExport_of_exportAt (h : ExportAt s.tape i) : AfterExport s (i + 1) :=
  ⟨i, Nat.lt_succ_self i, h⟩

instance (i k : Nat) [h : AfterExport s i] : AfterExport s (i + k) where
  start := by
    obtain ⟨w, hw, hstart⟩ := h.start
    exact ⟨w, Nat.lt_add_right k hw, hstart⟩

section

variable [h : AfterExport s i]

theorem excused_of_enclosing (hkind : s.tape.hasOneOf i enclosing = true) : Excused s i := by
  obtain ⟨w, hw, hstart⟩ := h.start
  exact excused_of_commonJsPart (.enclosed w hstart hw hkind)

theorem fits_of_enclosing {kind : TokenKind} (hkind : enclosing.contains kind = true) :
    Fits s i kind :=
  ⟨fun hk => (excused_of_enclosing (hasOneOf_of_kind hk hkind)).written⟩

instance : Fits s i .parenOpen := fits_of_enclosing (by decide)

instance : Fits s i .parenClose := fits_of_enclosing (by decide)

instance : Fits s i .braceOpen := fits_of_enclosing (by decide)

instance : Fits s i .braceClose := fits_of_enclosing (by decide)

end

theorem strips_functionName {j : Nat} [AfterExport s i]
    (hhead : ∀ k, j ≤ k → k ≤ j + 3 → s.tape.hasOneOf k [.functionWord, .star, .name] = true →
      Excused s k) (hle : j ≤ i) (hnear : i ≤ j + 2) :
    Strips s i (do
      copyIf .star
      functionFromName) := by
  have hname (k : Nat) [AfterExport s k] (hk : j ≤ k) (hnear : k ≤ j + 3) : Strips s k functionFromName := by
    refine .look ?_
    split
    · infer_instance
    next hkind =>
      have hkind : s.tape.kind k = .name := by simpa [View.kind, View.token, Tape.kind] using hkind
      have := hhead k hk hnear (hasOneOf_of_kind hkind (by decide))
      infer_instance
  have := hname i hle (by omega)
  have := hname (i + 1) (by omega) (by omega)
  unfold copyIf
  rw [bind_assoc]
  refine .look ?_
  split
  next hstar =>
    have := hhead i hle (by omega) (hasOneOf_of_kind (beq_iff_eq.1 hstar) (by decide))
    infer_instance
  next =>
    rw [pure_bind]
    infer_instance

theorem strips_namedFunction {w : Nat} (hexport : ExportAt s.tape w) (hlt : w < i) (hle : i ≤ w + 2)
    (h : FunctionAt s.tape i) : Strips s i namedFunction := by
  have hhead (k : Nat) (hk : i ≤ k) (hnear : k ≤ i + 3)
      (hkind : s.tape.hasOneOf k [.functionWord, .star, .name] = true) : Excused s k :=
    excused_of_commonJsPart (.functionHead w i hexport hlt hle h hk hnear (.inr hkind))
  have : Excused s i := excused_of_commonJsPart
    (.functionHead w i hexport hlt hle h (Nat.le_refl i) (by omega) (.inl rfl))
  have : AfterExport s i := ⟨w, hlt, hexport⟩
  have := strips_functionName (i := i + 1) hhead (by omega) (by omega)
  have := strips_functionName (i := i + 1 + 1) hhead (by omega) (by omega)
  unfold namedFunction
  refine .look ?_
  dsimp only
  split
  · infer_instance
  next hfunction =>
    obtain h | ⟨hasync, hnext⟩ := h
    · exact absurd (beq_iff_eq.2 h) hfunction
    · have := hhead (i + 1) (by omega) (by omega) (hasOneOf_of_kind hnext (by decide))
      rw [if_pos (by simpa [View.ahead, Tape.kind] using ⟨hasync, hnext⟩)]
      infer_instance

/-- The name of a decorator has got as far as an index. -/
def InDecorator (t : Tape) (i : Nat) : Prop :=
  ∃ w, t.kind w = .atSign ∧ w < i ∧ ∀ k, w < k → k < i → t.hasOneOf k [.name, .dot] = true

theorem InDecorator.succ {t : Tape} (h : InDecorator t i)
    (hkind : t.hasOneOf i [.name, .dot] = true) : InDecorator t (i + 1) := by
  obtain ⟨w, hsign, hlt, hname⟩ := h
  refine ⟨w, hsign, Nat.lt_succ_of_lt hlt, fun k hw hk => ?_⟩
  obtain hlt | rfl := Nat.lt_succ_iff_lt_or_eq.1 hk
  · exact hname k hw hlt
  · exact hkind

theorem fits_of_inDecorator (h : InDecorator s.tape i) {kind : TokenKind}
    (hkind : [TokenKind.name, .dot].contains kind = true) : Fits s i kind := by
  refine fits_of_commonJsPart fun hk => ?_
  obtain ⟨w, hsign, hlt, hname⟩ := h
  refine .decorator w hsign (Nat.le_of_lt hlt) fun k hw hle => ?_
  obtain hlt | rfl := Nat.lt_or_eq_of_le hle
  · exact hname k hw hlt
  · exact hasOneOf_of_kind hk hkind

theorem strips_decorator [AfterExport s i] (h : s.tape.kind i = .atSign) : Strips s i decorator := by
  have : Excused s i := excused_of_commonJsPart
    (.decorator i h (Nat.le_refl i) fun k hw hle => absurd hle (by omega))
  have hfirst : InDecorator s.tape (i + 1) :=
    ⟨i, h, Nat.lt_succ_self i, fun k hw hk => absurd hk (by omega)⟩
  have hnames (j : Nat) (hj : InDecorator s.tape j) : Strips s j (loopWhile (·.kind == .dot) do
      copyExpected .dot
      copyExpected .name) := by
    refine (TakesTo.loopWhile (InDecorator s.tape) (fun k hk hdot => ?_) hj).takes
    have hnext := hk.succ (hasOneOf_of_kind (beq_iff_eq.1 hdot) (by decide))
    have : Fits s k .dot := fits_of_inDecorator hk (by decide)
    have : Fits s (k + 1) .name := fits_of_inDecorator hnext (by decide)
    exact .afterWrites fun _ => .copyExpected fun hname =>
      hnext.succ (hasOneOf_of_kind hname (by decide))
  have : Fits s (i + 1) .name := fits_of_inDecorator hfirst (by decide)
  unfold decorator
  refine .afterWrite fun _ => .look ?_
  split
  · infer_instance
  · refine Strips.afterExpected fun hname _ => ?_
    have := hnames (i + 1 + 1) (hfirst.succ (hasOneOf_of_kind hname (by decide)))
    infer_instance

instance : Drops s i .abstractModifier :=
  ⟨fun h _ => .inr (.statement (.abstractWord h))⟩

instance [AfterExport s i] : Strips s i decoratedClass := by
  have hdecorators : Strips s i (loopWhile (·.kind == .atSign) decorator) :=
    .ofLoopWhile fun k hsign => strips_decorator (beq_iff_eq.1 hsign)
  infer_instance

theorem strips_exportImportEquals [Unmarked s i] (h : s.tape.kind (i + 1) = .importWord) :
    Strips s i exportImportEquals := by
  have := excused_importWord h
  unfold exportImportEquals
  refine .look ?_
  split <;> infer_instance

theorem strips_exportDefault (hexport : ExportAt s.tape i)
    (h : s.tape.has i [.exportWord, .defaultWord] = true) : Strips s i exportDefault := by
  have := unmarked_of_exportAt hexport
  have := afterExport_of_exportAt hexport
  have := excused_of_commonJsPart (.afterExport i hexport rfl)
  have := strips_removeTypeDefaultExport h
  unfold exportDefault
  refine .look ?_
  split
  next hfunction =>
    have := strips_namedFunction hexport (by omega) (Nat.le_refl _)
      (functionAt_of_isNamedFunction hfunction)
    infer_instance
  next => infer_instance

instance strips_assignmentRest (name : String) : Strips s i (assignmentRest name) := by
  refine .look ?_
  split <;> infer_instance

theorem strips_simpleVariable [Unmarked s i] [Excused s (i + 1)] : Strips s i simpleVariable := by
  infer_instance

instance : Strips s i assignedValue := by
  unfold assignedValue
  refine .look ?_
  split <;> infer_instance

theorem strips_declaredName (h : (s.tape.get i).hasRole IdentifierRole.isDeclaration = true) :
    Strips s i declaredName := by
  unfold declaredName
  refine .look ?_
  refine @Takes.afterReplacement? _ _ _ _ _ _ ?_
  split
  next code hcode =>
    have := excused_of_commonJsPart (.declared h code hcode)
    infer_instance
  next => infer_instance

theorem hasOneOf_subset {t : Tape} {kinds more : List TokenKind}
    (h : t.hasOneOf i kinds = true) (hsub : kinds ⊆ more) : t.hasOneOf i more = true :=
  List.contains_iff_mem.2 (hsub (List.contains_iff_mem.1 h))

theorem strips_variablePattern
    (hbracket : ∀ k, s.tape.hasOneOf (i + k) patternBrackets = true → Excused s (i + k)) :
    Strips s i variablePattern := by
  unfold variablePattern
  dsimp only
  refine @Takes.discard _ _ _ _ _ (.ofRounds fun depth k => .look ?_)
  have hdeclared := strips_declaredName (s := s) (i := i + k)
  split
  · infer_instance
  split
  next h =>
    have := hbracket k (hasOneOf_subset h (by decide))
    infer_instance
  split
  next h =>
    have := hbracket k (hasOneOf_subset h (by decide))
    infer_instance
  split
  · infer_instance
  split
  · infer_instance
  split
  next hrole =>
    have := hdeclared hrole
    infer_instance
  next => infer_instance

theorem strips_complexVariable (hexport : ExportAt s.tape i)
    (hword : s.tape.hasOneOf (i + 1) [.varWord, .letWord, .constWord] = true) :
    Strips s i complexVariable := by
  have := unmarked_of_exportAt hexport
  have := excused_of_commonJsPart (.afterExport i hexport rfl)
  have : Strips s (i + 1 + 1) variablePattern := strips_variablePattern fun k hkind =>
    excused_of_commonJsPart (.pattern i hexport (by omega) hword hkind)
  infer_instance

instance (x : Specifier) (isFromModule : Bool) : Strips s i (specifierCode? x isFromModule) := by
  unfold specifierCode?
  split <;> infer_instance

instance [Excused s i] : Strips s i fromPath := by
  unfold fromPath
  exact .look (.afterLook fun code => inferInstance)

theorem strips_exportClause (hexport : ExportAt s.tape i)
    (h : s.tape.has i [.exportWord, .braceOpen] = true) : Strips s i exportClause := by
  have := unmarked_of_exportAt hexport
  have hb := clauseAt_of_has h
  have := passes_of_inClause ⟨hb, Nat.le_refl _, fun k hk hlt => absurd hlt (by omega)⟩
  unfold exportClause
  refine .afterRemove fun _ => .afterRemove fun _ => .look ?_
  refine Takes.afterTo (takesTo_exportAssignments (fun _ => True) (fun j _ hj => strips_remove (.clause _ hj))
    (fun _ _ _ _ _ _ _ _ _ _ _ _ => trivial) hb.inClause (Nat.lt_succ_self _)) fun codes k hcodes => .look ?_
  split
  next hfrom =>
    have := passes_of_statementRest (.fromWord hfrom (.inl hcodes.2.1))
    have : Excused s (i + 1 + 1 + k + 1) :=
      excused_of_commonJsPart (.reexportPath i hexport (by omega) hfrom)
    infer_instance
  next => infer_instance

theorem strips_exportStar (h : s.tape.has i [.exportWord, .star] = true) : Strips s i exportStar := by
  have hstart : InStatement s.tape i i := .start (.inr h)
  have := passes_of_inStatement hstart
  unfold exportStar
  refine .afterRemove fun _ => .afterTo (takesTo_pathLoop (fun j _ hj => strips_remove (.statement i hj))
    (hstart.next (by simp [(kind_of_isAt h).1]))) fun _ k hpath => ?_
  have := excused_of_atPath ⟨hpath.1.2, .inl hpath.2⟩
  infer_instance

theorem strips_exportDeclaration (hexport : ExportAt s.tape i) : Strips s i exportDeclaration := by
  have := unmarked_of_exportAt hexport
  have := afterExport_of_exportAt hexport
  have := excused_of_commonJsPart (.afterExport i hexport rfl)
  have := strips_simpleVariable (s := s) (i := i)
  unfold exportDeclaration
  refine .afterLook fun _ => .look ?_
  dsimp only
  split
  next hword =>
    have := strips_complexVariable hexport hword
    infer_instance
  split
  next h =>
    have hfunction : FunctionAt s.tape (i + 1) := by
      simpa [FunctionAt, View.ahead, Tape.kind] using h
    have := strips_namedFunction hexport (by omega) (by omega) hfunction
    infer_instance
  split
  · infer_instance
  split
  next hstar =>
    have hstar : s.tape.kind (i + 1) = .star := beq_iff_eq.1 hstar
    exact strips_exportStar (by simp [Tape.has, hexport.1, hstar])
  next => infer_instance

theorem strips_exportStatement (hexport : ExportAt s.tape i) : Strips s i exportStatement := by
  have := unmarked_of_exportAt hexport
  have := strips_exportDeclaration hexport
  unfold exportStatement
  refine .afterLook fun _ => .look ?_
  dsimp only
  split
  · infer_instance
  split
  next h =>
    have := strips_exportDefault hexport h
    infer_instance
  split
  next h =>
    have := strips_exportClause hexport h
    infer_instance
  split
  next h =>
    obtain ⟨hname, htype⟩ := Bool.and_eq_true_iff.1 h
    have := strips_removeExportType hname htype
    infer_instance
  split
  next h =>
    have := strips_exportImportEquals (kind_of_isAt (kind_of_isAt h).2).1
    infer_instance
  next => infer_instance

end CommonJs

instance strips_commonJsPass [BecomesCommonJs s] : Strips s i commonJsPass := by
  have hlast : Strips s i (CommonJs.ruleFor (View.kind ⟨s.tape, i⟩)) := by
    unfold CommonJs.ruleFor
    split
    · infer_instance
    · infer_instance
    next h => exact CommonJs.strips_assignment h
    next h => exact CommonJs.strips_compoundAssignment h
    next h => exact CommonJs.strips_prefixIncrement h
    · infer_instance
  unfold commonJsPass
  refine .look ?_
  split
  next h =>
    have := CommonJs.strips_importEquals h
    infer_instance
  split
  next h =>
    have := strips_removeImportTypeEquals h
    infer_instance
  split
  next h =>
    have := CommonJs.strips_importStatement (s := s) (i := i) (beq_iff_eq.1 h)
    infer_instance
  split
  next h =>
    have := excused_of_commonJsPart (s := s) (.exportEquals h)
    infer_instance
  split
  next h =>
    obtain ⟨hkind, hmark⟩ := Bool.and_eq_true_iff.1 h
    have hexport : ExportAt s.tape i := ⟨beq_iff_eq.1 hkind, (Bool.not_eq_true' _).mp hmark⟩
    have := CommonJs.strips_exportStatement hexport
    infer_instance
  next =>
    by_cases hpost : View.isAt ⟨s.tape, i⟩ [.name, .postIncrement] = true
    · have := CommonJs.strips_postfixIncrement hpost
      infer_instance
    · dsimp only
      rw [if_neg hpost]
      exact hlast

/-! ## Modules that stay modules -/

/-- A file whose modules stay modules. -/
class StaysModule (s : Setting) : Prop where
  imports : s.options.has .imports = false

theorem excused_of_esModulePart [hs : StaysModule s] (h : EsModulePart s.tape i) : Excused s i :=
  ⟨fun _ => .esModule hs.imports h⟩

theorem excused_of_brace [StaysModule s] {b : Nat} (h : InClause s.tape b i) {kind : TokenKind}
    (hkind : s.tape.kind i = kind) (hbrace : [TokenKind.braceOpen, .braceClose].contains kind = true) :
    Excused s i :=
  excused_of_esModulePart (.brace b h (hasOneOf_of_kind hkind hbrace))

namespace EsModule

variable {b w : Nat}

variable [StaysModule s]

theorem strips_copy {x : Specifier} (hi : AtSpecifier s.tape b i) (hkind : s.tape.kind i ≠ .braceClose)
    (hx : Specifier.read s.tape i = .ok x) (hvalue : x.isType = false) (j : Nat) (hj : i ≤ j)
    (hle : j ≤ x.stop) : Strips s j copy :=
  have := excused_of_esModulePart
    (.specifier b i hi.1 hi.2.1 (hi.2.2 hkind) x hx hvalue hj hle)
  inferInstance

/-! ### Statements -/

theorem excused_of_inNames (h : InNames s.tape w i) : Excused s i :=
  excused_of_esModulePart (.statement w h)

theorem strips_importEquals (h : s.tape.has i [.importWord, .name, .equals] = true) :
    Strips s i importEquals := by
  have hnear (j : Nat) (hj : i ≤ j) (hlt : j ≤ i + 3) : Excused s j :=
    excused_of_esModulePart (.reference i h hj hlt)
  have := hnear i (Nat.le_refl i) (by omega)
  have := hnear (i + 1) (by omega) (by omega)
  have := hnear (i + 1 + 1) (by omega) (by omega)
  have := hnear (i + 1 + 1 + 1) (by omega) (by omega)
  have := strips_removeImportEquals h
  infer_instance

theorem strips_copyClose (hi : InClause s.tape b i) : Strips s i (copyExpected .braceClose) :=
  have : Fits s i .braceClose := ⟨fun hkind => (excused_of_brace hi hkind (by decide)).written⟩
  inferInstance

theorem strips_clauseRest (hi : InNames s.tape w i) (content : ClauseContent) (needsComma : Bool) :
    Strips s i (clauseRest content needsComma) := by
  have := excused_of_inNames hi
  refine takes_clauseRest hi content needsComma inferInstance (fun _ hnext hlast => ?_) fun hb => ?_
  · have := excused_of_inNames hnext
    have : Excused s (i + 1 + 1) := excused_of_inNames hlast
    refine ⟨fun k hk => ?_, inferInstance, inferInstance, inferInstance⟩
    obtain rfl | rfl | rfl : k = 0 ∨ k = 1 ∨ k = 2 := by omega
    all_goals infer_instance
  · exact ⟨inferInstance, takesTo_importSpecifiers (fun j _ hj => strips_remove (.clause i hj))
      (fun j x => strips_copy) hb content, fun j => strips_copyClose⟩

theorem strips_importClause (h : ImportAt s.tape i) : Strips s i importClause := by
  have hfirst : InNames s.tape i (i + 1) := ⟨h, Nat.le_succ i, fun k hk hlt => absurd hlt (by omega)⟩
  have := excused_of_inNames (s := s) ⟨h, Nat.le_refl i, fun k hk hlt => absurd hlt (by omega)⟩
  have := excused_of_inNames hfirst
  refine takes_importClause h inferInstance (fun _ => inferInstance) (fun j _ hj => ?_)
    fun j content needsComma _ hj => strips_clauseRest hj content needsComma
  have := excused_of_inNames hj
  refine takesTo_defaultImport hj (fun _ => ⟨inferInstance, inferInstance⟩) fun hnext _ => ?_
  have := excused_of_inNames hnext
  infer_instance

theorem strips_importStatement (h : s.tape.kind i = .importWord) : Strips s i importStatement := by
  unfold importStatement
  refine .look ?_
  split
  · infer_instance
  next hcall =>
    have hi := importAt_of_not_isAt h hcall
    have hremoved : Strips s i (do
        removeToPath
        remove
        removeImportAttributes
        removeIf .semicolon
        return true) := by
      refine .afterTo (takesTo_pathLoop (fun j _ hj => strips_remove (.statement i hj))
        (.start (.inl hi))) fun _ k hk => ?_
      have := passes_of_inStatement hk.1.2
      infer_instance
    refine .afterLook fun outer => Strips.of fun {recur σ τ a} hrecur hindex hrun => ?_
    obtain ⟨isDropped, υ, hclause, hrest⟩ := bind_ok hrun
    have hυ := (strips_importClause hi).strips hrecur hindex hclause
    cases isDropped with
    | false =>
      cases hrest
      exact hυ
    | true =>
      -- What the clause has written is taken back, and what is left was there before.
      refine State.Strips.trans ?_ (hremoved.strips hrecur rfl hrest)
      refine ⟨Nat.le_of_eq hindex, fun hopen => ⟨hindex ▸ hopen, fun j code hmem => ?_⟩⟩
      rw [Array.toList_shrink] at hmem
      exact (hυ.2 hopen).2 j code (List.mem_of_mem_take hmem)

omit [StaysModule s] in
theorem strips_exportDefault (hloader : s.options.has .reactHotLoader = false)
    (h : s.tape.has i [.exportWord, .defaultWord] = true) : Strips s i exportDefault := by
  have := strips_removeTypeDefaultExport h
  unfold exportDefault
  refine .afterLook fun isType => ?_
  split
  · infer_instance
  · refine .look (@Takes.afterOptions _ _ _ _ _ ?_)
    rw [if_pos (by simp [hloader])]
    infer_instance

theorem strips_namedExports (h : s.tape.has i [.exportWord, .braceOpen] = true) :
    Strips s i namedExports := by
  have hb := clauseAt_of_has h
  have := excused_of_esModulePart (s := s) (.exportWord (Bool.or_eq_true_iff.2 (.inr h)))
  have := excused_of_brace (s := s) ⟨hb, Nat.le_refl _, fun k hk hlt => absurd hlt (by omega)⟩
    hb.1 (by decide)
  unfold namedExports
  refine @Takes.afterOptions _ _ _ _ _ ?_
  split
  · infer_instance
  · refine Strips.afterWrite fun _ => .afterWrite fun _ => .look ?_
    refine takes_closeClause (fun j => strips_copyClose) (takesTo_exportSpecifiers
      (fun j _ hj => strips_remove (.clause _ hj)) (fun j x => strips_copy) hb _)
      fun hasValue c hc hclose => ?_
    refine @Takes.afterOptions _ _ _ _ _ ?_
    split
    next hdropped =>
      have hreexport := (Bool.and_eq_true_iff.1 (Bool.and_eq_true_iff.1 hdropped).1).2
      unfold isReexport at hreexport
      dsimp only at hreexport
      rw [hc.skip_eq hclose] at hreexport
      obtain ⟨hfrom, hpath⟩ := Bool.and_eq_true_iff.1 hreexport
      have := (stripsTo_removeFrom hfrom (beq_iff_eq.1 hpath)).takes
      infer_instance
    next => infer_instance

end EsModule

theorem strips_esModulePass [StaysModule s] (h : s.options.has .reactHotLoader = false) :
    Strips s i esModulePass := by
  unfold esModulePass
  refine .look ?_
  split
  next hequals =>
    have := EsModule.strips_importEquals hequals
    infer_instance
  split
  next hequals =>
    have := strips_removeImportTypeEquals hequals
    infer_instance
  split
  next hequals =>
    have := excused_of_esModulePart (s := s) (.exportWord (Bool.or_eq_true_iff.2 (.inl hequals)))
    infer_instance
  split
  next hequals =>
    have hnear (j : Nat) (hj : i ≤ j) (hlt : j ≤ i + 8) : StatementRest s.tape j :=
      .exportedReference i hequals hj hlt
    have := passes_of_statementRest (hnear i (Nat.le_refl i) (by omega))
    have := (takesTo_removeMany (i := i + 1) (n := 8) fun k hk =>
      strips_remove (hnear _ (by omega) (by omega))).takes
    infer_instance
  split
  next hword =>
    have := EsModule.strips_importStatement (beq_iff_eq.1 hword)
    infer_instance
  split
  next hdefault =>
    have := EsModule.strips_exportDefault h hdefault
    infer_instance
  split
  next hnamed =>
    have := EsModule.strips_namedExports hnamed
    infer_instance
  split
  next htype =>
    obtain ⟨hname, htype⟩ := Bool.and_eq_true_iff.1 htype
    have := strips_removeExportType hname htype
    infer_instance
  next => infer_instance

end PlainScript.Emit
