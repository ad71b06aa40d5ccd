import PlainScript.Proofs.ErasingModules
import PlainScript.Proofs.References

/-!
# Types leave no code

A token that no rule handles is copied, but the rule for types handles each marked token that it is
asked about. So in a file that is written with nothing but TypeScript removed, and perhaps with its
modules made CommonJS, a marked token is written as nothing unless another rule comes first.
-/

namespace PlainScript.Emit

-- Counted in combinators.
set_option synthInstance.maxSize 100000

variable {s : Setting} {i : Nat}

/-- A file whose types are removed and in which nothing else is replaced but module syntax. -/
class ErasesOnly (s : Setting) : Prop where
  typescript : s.options.has .typescript = true
  only (t : Transform) (h : s.options.has t = true) : t = .typescript ∨ t = .imports

theorem ErasesOnly.has_eq_false [hs : ErasesOnly s] {t : Transform} (htypes : t ≠ .typescript)
    (himports : t ≠ .imports) : s.options.has t = false := by
  refine Bool.eq_false_of_not_eq_true fun h => ?_
  obtain rfl | rfl := hs.only t h
  · exact htypes rfl
  · exact himports rfl

/-- The rules that are asked before the one for types. -/
def Pass.beforeTypes (o : Options) : List Pass :=
  (if o.disableESTransforms then [] else [optionalChain, numericSeparator, catchBinding]) ++
    [if o.has .imports then commonJs else esModule]

theorem Pass.enabled_eq [hs : ErasesOnly s] :
    enabled s.options = beforeTypes s.options ++ [types, modifiers, enumerations] := by
  have hjsx : s.options.has .jsx = false := hs.has_eq_false (by decide) (by decide)
  have hflow : s.options.has .flow = false := hs.has_eq_false (by decide) (by decide)
  have hjest : s.options.has .jest = false := hs.has_eq_false (by decide) (by decide)
  simp [enabled, beforeTypes, hs.typescript, hjsx, hflow, hjest]

theorem strips_run_of_mem_beforeTypes [hs : ErasesOnly s] {pass : Pass}
    (h : pass ∈ Pass.beforeTypes s.options) : Strips s i pass.run := by
  obtain hrecent | hmodule := List.mem_append.1 h
  · split at hrecent
    · cases hrecent
    next hdisabled =>
      have : ReplacesRecent s := ⟨Bool.eq_false_of_not_eq_true hdisabled⟩
      simp only [List.mem_cons, List.not_mem_nil, or_false] at hrecent
      obtain rfl | rfl | rfl := hrecent
      · exact strips_optionalChainPass
      · exact strips_numericSeparatorPass
      · exact strips_catchBindingPass
  · obtain rfl := List.mem_singleton.1 hmodule
    split
    next himports =>
      have : BecomesCommonJs s := ⟨himports⟩
      exact strips_commonJsPass
    next himports =>
      have : StaysModule s := ⟨Bool.eq_false_of_not_eq_true himports⟩
      exact strips_esModulePass (hs.has_eq_false (by decide) (by decide))

theorem strips_firstPass_append {before rest : List Pass} (hrest : Strips s i (firstPass rest))
    (h : ∀ pass ∈ before, Strips s i pass.run) : Strips s i (firstPass (before ++ rest)) := by
  induction before with
  | nil => exact hrest
  | cons pass before ih =>
    have := h pass List.mem_cons_self
    have := ih fun other hother => h other (List.mem_cons_of_mem _ hother)
    rw [List.cons_append, firstPass]
    infer_instance

/-- Rules that come after the one for types are asked about tokens without a mark only. -/
theorem strips_firstPass_types {rest : List Pass}
    (h : Unmarked s i → Strips s i (firstPass rest)) : Strips s i (firstPass (.types :: rest)) := by
  refine .of fun {recur σ τ a} hrecur hindex hrun => ?_
  unfold firstPass at hrun
  obtain ⟨handled, υ, htypes, hrest⟩ := bind_ok hrun
  change typePass _ _ = _ at htypes
  have hυ := Strips.strips inferInstance hrecur hindex htypes
  cases handled with
  | true =>
    cases hrest
    exact hυ
  | false =>
    have hunmarked : Unmarked s i := ⟨hindex ▸ unmarked_of_typePass htypes⟩
    have hplace := State.index_of_place (Declines.place htypes)
    exact hυ.trans ((h hunmarked).strips hrecur (hplace.trans hindex) hrest)

instance strips_firstPass_enabled [ErasesOnly s] :
    Strips s i (firstPass (Pass.enabled s.options)) := by
  rw [Pass.enabled_eq]
  refine strips_firstPass_append (strips_firstPass_types fun hunmarked => ?_)
    fun pass hpass => strips_run_of_mem_beforeTypes hpass
  unfold firstPass firstPass firstPass Pass.run
  infer_instance

/-- A token that every rule has declined has no mark. -/
theorem unmarked_of_declined [hs : ErasesOnly s] {recur : Task → Step Unit} {σ τ : State}
    (hrun : firstPass (Pass.enabled s.options) ⟨s, recur⟩ σ = .ok (false, τ)) :
    Unmarked s σ.index := by
  have hmem : Pass.types ∈ Pass.enabled s.options := by simp [Pass.enabled_eq]
  obtain ⟨ρ, υ, hρ, hpass⟩ := (firstPass_declined hrun).2 _ hmem
  exact ⟨hρ ▸ unmarked_of_typePass hpass⟩

instance strips_token [ErasesOnly s] : Strips s i token := by
  have hchoice : Strips s i (do
      unless ← firstPass (Pass.enabled s.options) do
        copy) := by
    refine .of fun {recur σ τ a} hrecur hindex hrun => ?_
    obtain ⟨handled, υ, hfirst, hrest⟩ := bind_ok hrun
    have hυ := strips_firstPass_enabled.strips hrecur hindex hfirst
    cases handled with
    | true =>
      cases hrest
      exact hυ
    | false =>
      have := unmarked_of_declined hfirst
      have hplace := State.index_of_place (firstPass_declined hfirst).1
      have hcopy : Strips s σ.index copy := inferInstance
      exact hυ.trans (hcopy.strips hrecur hplace hrest)
  unfold token
  infer_instance

/-! ## Tokens that are handled alone -/

theorem Alone.kind_ne {t : Tape} (h : Alone t i) {kind : TokenKind}
    (hkind : [TokenKind.classWord, .importWord, .exportWord, .constWord, .enumWord].contains kind = true) :
    t.kind i ≠ kind := by
  rintro rfl
  exact Bool.false_ne_true (h.2.1.symm.trans hkind)

theorem Alone.next_ne {t : Tape} (h : Alone t i) {kind : TokenKind}
    (hkind : [TokenKind.colon, .less, .parenOpen, .postIncrement].contains kind = true) :
    t.kind (i + 1) ≠ kind := by
  intro heq
  rw [← heq] at hkind
  exact Bool.false_ne_true (h.2.2.symm.trans hkind)

theorem Alone.not_importAt {t : Tape} (h : Alone t i) (rest : List TokenKind) :
    ¬ View.isAt ⟨t, i⟩ (.importWord :: rest) = true :=
  fun hat => h.kind_ne (by decide) (kind_of_isAt hat).1

theorem Alone.not_exportAt {t : Tape} (h : Alone t i) (rest : List TokenKind) :
    ¬ View.isAt ⟨t, i⟩ (.exportWord :: rest) = true :=
  fun hat => h.kind_ne (by decide) (kind_of_isAt hat).1

theorem Alone.not_importWord {t : Tape} (h : Alone t i) : ¬ (View.kind ⟨t, i⟩ == .importWord) = true :=
  fun hword => h.kind_ne (by decide) (beq_iff_eq.1 hword)

/-- A rule that handles no more than the token under the cursor. -/
abbrev HandlesOne (s : Setting) (i : Nat) (e : Emit Bool) : Prop :=
  Lands s i (fun handled j => handled = true → j = i + 1) e

theorem handlesOne_false : HandlesOne s i (pure false) := .pure nofun

theorem handlesOne_true {e : Emit Unit} (h : Lands s i (fun _ j => j = i + 1) e) :
    HandlesOne s i (do
      e
      return true) :=
  .bind h fun _ _ hj => .pure fun _ => hj

theorem lands_subscript (start : Nat) :
    Lands s i (fun _ j => j = i + 1) (Chain.subscript start) := by
  unfold Chain.subscript
  refine .view (.look fun parameter => ?_)
  dsimp only
  split
  all_goals
    refine .look fun isDelete => ?_
    split
    · exact .look fun _ => .ofWrites
    split
    · exact .ofWrites
    split
    · exact .ofWrites
    split
    · exact .ofWrites
    split
    · exact .ofWrites
    split
    · exact .look fun _ => .ofWrites
    · exact .fail _

theorem handlesOne_optionalChainPass : HandlesOne s i optionalChainPass := by
  unfold optionalChainPass
  refine .view ?_
  split
  · exact handlesOne_true .ofWrites
  split
  · exact handlesOne_true .ofWrites
  split
  · exact handlesOne_false
  split
  · exact handlesOne_false
  · exact handlesOne_true (lands_subscript _)

theorem handlesOne_numericSeparatorPass : HandlesOne s i numericSeparatorPass := by
  unfold numericSeparatorPass
  refine .view ?_
  dsimp only
  split
  · exact handlesOne_true .ofWrites
  · exact handlesOne_false

theorem handlesOne_catchBindingPass : HandlesOne s i catchBindingPass := by
  unfold catchBindingPass
  refine .view ?_
  split
  · exact .afterWrites fun _ => .look fun _ => .look fun _ => .pure fun _ => rfl
  · exact handlesOne_false

theorem lands_reference (h : Alone s.tape i) (code : String) :
    Lands s i (fun _ j => j = i + 1) (CommonJs.reference code) := by
  unfold CommonJs.reference
  refine .view ?_
  split
  · split
    next hopen =>
      have hopen := beq_iff_eq.1 (Bool.and_eq_true_iff.1 hopen).1
      exact absurd hopen (h.next_ne (by decide))
    next => exact .ofWrites
  · exact .ofWrites

theorem handlesOne_identifier (h : Alone s.tape i) : HandlesOne s i CommonJs.identifier := by
  unfold CommonJs.identifier
  refine .view ?_
  split
  · exact handlesOne_false
  · refine .look fun code? => ?_
    split
    · exact handlesOne_true .ofWrites
    · exact handlesOne_true (lands_reference h _)
    · exact handlesOne_false

theorem handlesOne_afterTarget {token : Token} {f : Option String → Emit Bool}
    (hnone : HandlesOne s i (f none)) (hf : ∀ target, HandlesOne s i (f (some target))) :
    HandlesOne s i (CommonJs.exportTarget? token >>= f) := by
  refine .look fun target? => ?_
  cases target? with
  | none => exact hnone
  | some target => exact hf target

theorem handlesOne_assignment : HandlesOne s i CommonJs.assignment := by
  unfold CommonJs.assignment
  refine .view ?_
  split
  · exact handlesOne_false
  split
  · exact handlesOne_false
  · exact handlesOne_afterTarget handlesOne_false fun _ =>
      .afterWrites fun _ => .look fun _ => .pure fun _ => rfl

theorem handlesOne_compoundAssignment : HandlesOne s i CommonJs.compoundAssignment := by
  unfold CommonJs.compoundAssignment
  refine .view ?_
  split
  · exact handlesOne_false
  split
  · exact handlesOne_false
  · exact handlesOne_afterTarget handlesOne_false fun _ => .look fun _ => handlesOne_true .ofWrites

theorem handlesOne_prefixIncrement : HandlesOne s i CommonJs.prefixIncrement := by
  unfold CommonJs.prefixIncrement
  refine .view ?_
  split
  · exact handlesOne_false
  · exact handlesOne_afterTarget handlesOne_false fun _ => .look fun _ => handlesOne_true .ofWrites

theorem handlesOne_commonJsPass (h : Alone s.tape i) : HandlesOne s i commonJsPass := by
  have hincrement : ¬ View.isAt ⟨s.tape, i⟩ [.name, .postIncrement] = true :=
    fun hat => h.next_ne (by decide) (kind_of_isAt (kind_of_isAt hat).2).1
  unfold commonJsPass
  refine .view ?_
  dsimp only
  rw [if_neg (h.not_importAt _), if_neg (h.not_importAt _), if_neg h.not_importWord,
    if_neg (h.not_exportAt _), if_neg hincrement]
  split
  next hword => exact absurd (beq_iff_eq.1 (Bool.and_eq_true_iff.1 hword).1) (h.kind_ne (by decide))
  next =>
    split
    · exact handlesOne_identifier h
    · exact handlesOne_identifier h
    · exact handlesOne_assignment
    · exact handlesOne_compoundAssignment
    · exact handlesOne_prefixIncrement
    · exact handlesOne_false

theorem handlesOne_esModulePass (h : Alone s.tape i) : HandlesOne s i esModulePass := by
  unfold esModulePass
  refine .view ?_
  rw [if_neg (h.not_importAt _), if_neg (h.not_importAt _), if_neg (h.not_exportAt _),
    if_neg (h.not_exportAt _), if_neg h.not_importWord, if_neg (h.not_exportAt _),
    if_neg (h.not_exportAt _), if_neg fun htype => h.not_exportAt _ (Bool.and_eq_true_iff.1 htype).1]
  exact handlesOne_false

theorem handlesOne_typePass (h : Alone s.tape i) : HandlesOne s i typePass := by
  unfold typePass
  refine .bind (G := fun _ => True) (P := fun handled j => handled = false ∧ j = i) ?_ fun handled j hj => ?_
  · unfold eraseArrowReturnType
    refine .view ?_
    dsimp only
    split
    · exact .pure ⟨rfl, rfl⟩
    next hat =>
      have hat := Bool.and_eq_true_iff.1 ((Bool.not_eq_false' _).mp (Bool.eq_false_of_not_eq_true hat))
      exact absurd (kind_of_isAt (kind_of_isAt hat.1).2).1 (h.next_ne (by decide))
  · obtain ⟨rfl, rfl⟩ := hj
    refine .bind (G := fun _ => True) (P := fun handled k => handled = false ∧ k = j) ?_
      fun handled k hk => ?_
    · unfold eraseAsyncArrowParameters
      refine .view ?_
      dsimp only
      split
      · exact .pure ⟨rfl, rfl⟩
      next hat =>
        have hat := Bool.and_eq_true_iff.1 ((Bool.not_eq_false' _).mp (Bool.eq_false_of_not_eq_true hat))
        have hless := beq_iff_eq.1 (Bool.and_eq_true_iff.1 hat.1).2
        exact absurd hless (h.next_ne (by decide))
    · obtain ⟨rfl, rfl⟩ := hk
      unfold eraseTypes
      refine .view ?_
      split
      · exact handlesOne_false
      next hmark =>
        have hmark := (Bool.not_eq_false' _).mp (Bool.eq_false_of_not_eq_true hmark)
        exact absurd (h.1.symm.trans hmark) Bool.false_ne_true

theorem handlesOne_modifierPass : HandlesOne s i modifierPass := by
  unfold modifierPass
  refine .view ?_
  split
  · exact handlesOne_true .ofWrites
  · exact handlesOne_false

theorem handlesOne_enumerationPass (h : Alone s.tape i) : HandlesOne s i enumerationPass := by
  unfold enumerationPass
  refine .view ?_
  split
  next hat =>
    obtain hat | hat := Bool.or_eq_true_iff.1 hat
    · exact absurd (kind_of_isAt hat).1 (h.kind_ne (by decide))
    · exact absurd (kind_of_isAt hat).1 (h.kind_ne (by decide))
  split
  next hat =>
    obtain hat | hat := Bool.or_eq_true_iff.1 hat
    · exact absurd hat (h.not_exportAt _)
    · exact absurd hat (h.not_exportAt _)
  next => exact handlesOne_false

theorem handlesOne_run [hs : ErasesOnly s] (h : Alone s.tape i) {pass : Pass}
    (hpass : pass ∈ Pass.enabled s.options) : HandlesOne s i pass.run := by
  rw [Pass.enabled_eq, Pass.beforeTypes] at hpass
  cases pass with
  | optionalChain => exact handlesOne_optionalChainPass
  | numericSeparator => exact handlesOne_numericSeparatorPass
  | catchBinding => exact handlesOne_catchBindingPass
  | commonJs => exact handlesOne_commonJsPass h
  | esModule => exact handlesOne_esModulePass h
  | types => exact handlesOne_typePass h
  | modifiers => exact handlesOne_modifierPass
  | enumerations => exact handlesOne_enumerationPass h
  | element | displayName | mocks => split at hpass <;> split at hpass <;> simp at hpass

theorem handlesOne_firstPass {passes : List Pass} (h : ∀ pass ∈ passes, HandlesOne s i pass.run) :
    HandlesOne s i (firstPass passes) := by
  induction passes with
  | nil => exact handlesOne_false
  | cons pass rest ih =>
    intro recur σ τ handled hrecur _ hindex hrun
    unfold firstPass at hrun
    obtain ⟨handled', υ, hfirst, hrest⟩ := bind_ok hrun
    cases handled' with
    | true =>
      cases hrest
      exact h pass List.mem_cons_self recur σ τ true hrecur trivial hindex hfirst
    | false =>
      have hυ := State.index_of_place ((declines_run pass).place hfirst)
      exact ih (fun other hother => h other (List.mem_cons_of_mem _ hother)) recur υ τ handled hrecur
        trivial (hυ.trans hindex) hrest

/-- A token that is handled alone is left behind, and no other one. -/
theorem lands_token [ErasesOnly s] (h : Alone s.tape i) : Lands s i (fun _ j => j = i + 1) token := by
  have hclass : ¬ (View.kind ⟨s.tape, i⟩ == .classWord) = true :=
    fun hword => h.kind_ne (by decide) (beq_iff_eq.1 hword)
  unfold token
  refine .view ?_
  rw [if_neg hclass]
  intro recur σ τ a hrecur _ hindex hrun
  obtain ⟨o, _, hoptions, hrun⟩ := bind_ok hrun
  cases hoptions
  obtain ⟨handled, υ, hfirst, hrest⟩ := bind_ok hrun
  cases handled with
  | true =>
    cases hrest
    have hone := handlesOne_firstPass fun pass hpass => handlesOne_run h hpass
    exact ⟨trivial, (hone _ _ _ _ hrecur trivial hindex hfirst).2 rfl⟩
  | false =>
    have hυ := State.index_of_place (firstPass_declined hfirst).1
    have hcopy : Writes s i copy (s.tape.text i) := inferInstance
    exact ⟨trivial, (hcopy.writes (hυ.trans hindex) hrest).1⟩

instance (d : Depth) : Strips s i (balancedRound d) := by
  unfold balancedRound
  refine .look ?_
  split
  · infer_instance
  · split <;> infer_instance

instance strips_balanced : Strips s i balanced := by
  unfold balanced
  infer_instance

/-- Tasks write nothing for types, to any depth. -/
theorem stripsTasks_performFor [ErasesOnly s] (n : Nat) : StripsTasks s (performFor s n) := by
  induction n with
  | zero =>
    intro task σ τ _ hrun
    cases hrun
  | succ n ih =>
    intro task σ τ htask hrun
    cases task with
    | token => exact ⟨strips_token.strips ih rfl hrun, fun _ h =>
      (lands_token h _ _ _ _ ih trivial rfl hrun).2⟩
    | balanced => exact ⟨strips_balanced.strips ih rfl hrun, nofun⟩
    | element => exact absurd rfl htask

instance strips_file : Strips s i file := by
  unfold file
  infer_instance

/-! ## Whole files -/

/-- The tape has the marks of the parser. -/
theorem IsPrepared.isType_get {text : String} {o : Options} {p : Prepared} {file : AnnotatedFile}
    (h : IsPrepared text o p file) {t : Token} (ht : file.tokens[i]? = some t)
    (hkind : t.kind ≠ .eof) : (p.setting.tape.get i).isType = t.isType := by
  have hof : (Tape.ofTokens (Source.ofText text) file.tokens).tokens[i]? = some t := by
    unfold Tape.ofTokens
    dsimp only
    split
    next hlast =>
      -- Only the token at the end of the file is not on the tape.
      have hne : i ≠ file.tokens.size - 1 := by
        rintro rfl
        rw [Array.back?, ht] at hlast
        exact hkind (by simpa using hlast)
      have hlt := (Array.getElem?_eq_some_iff.1 ht).1
      rw [Array.getElem?_pop, if_pos (by omega), ht]
    next => exact ht
  have hsame : (p.setting.tape.tokens[i]?).map Shadowing.unmarked = some (Shadowing.unmarked t) := by
    rw [← Array.getElem?_map, h.tokens, Array.getElem?_map, hof]
    rfl
  obtain ⟨t', ht', hunmarked⟩ := Option.map_eq_some_iff.1 hsame
  have hget : p.setting.tape.get i = t' := by
    rw [Tape.get, Array.getD_eq_getD_getElem?, ht']
    rfl
  have hmark : (Shadowing.unmarked t').isType = (Shadowing.unmarked t).isType := by rw [hunmarked]
  rw [hget]
  exact hmark

end PlainScript.Emit
