import PlainScript.Proofs.Choice
import PlainScript.Proofs.ImportPlans
import PlainScript.Proofs.Prepared

/-!
# References to imports

What becomes of the names of a file whose modules become CommonJS. `IsPlanned` relates what the writer
is given to the imports and exports of the file. A name that has a replacement is written as it stands
only where `Justified` allows it; it becomes a property of a variable that no declaration of the file
can capture, one case apart; and where a call is recognized the function gets no receiver.
-/

namespace PlainScript

namespace Emit

/-! ## Preparing -/

def planOf (source : Source) (o : Options) (file : AnnotatedFile) (uses : ModuleUses) : ImportPlan :=
  let claimed := SupportNames.claim ⟨nameTexts source file.tokens⟩
  (ImportPlan.ofUses claimed.1 o.enableLegacyTypeScriptModuleInterop uses claimed.2).1

/-- A file that has been prepared for CommonJS. -/
structure IsPlanned (text : String) (o : Options) (s : Setting) (file : AnnotatedFile)
    (uses : ModuleUses) : Prop where
  read : ModuleUses.ofTape (Tape.ofTokens (Source.ofText text) file.tokens) = .ok uses
  options : s.options = o
  source : s.tape.source = Source.ofText text
  tokens : Shadowing.SameLexemes s.tape.tokens (Tape.ofTokens (Source.ofText text) file.tokens).tokens
  plan : s.plan = planOf (Source.ofText text) o file uses ∨ ∃ valueNames,
    s.plan = (planOf (Source.ofText text) o file uses).prune uses valueNames

theorem exists_isPlanned {text : String} {o : Options} {p : Prepared}
    (himports : o.has .imports = true) (h : prepare text o = .ok p) :
    p.state.output = #[] ∧ ∃ file uses,
      AnnotatedFile.ofSource (Source.ofText text) (dialectOf o) = .ok file ∧
        IsPlanned text o p.setting file uses := by
  unfold prepare at h
  cases hfile : AnnotatedFile.ofSource (Source.ofText text) (dialectOf o) with
  | error e =>
    simp only [hfile] at h
    cases h
  | ok file =>
    simp only [hfile, himports, pure_bind, if_true] at h
    -- What is claimed for support functions is a closed computation, which must not be evaluated.
    generalize hclaimed : SupportNames.claim ⟨nameTexts (Source.ofText text) file.tokens⟩ = claimed at h
    cases huses : ModuleUses.ofTape (Tape.ofTokens (Source.ofText text) file.tokens) with
    | error e =>
      rw [huses] at h
      cases h
    | ok uses =>
      rw [huses] at h
      cases h
      refine ⟨rfl, file, uses, rfl, huses, rfl, rfl, (Shadowing.markShadowed_sameButMarks _ _ _ _).sameLexemes, ?_⟩
      unfold planOf
      rw [hclaimed]
      dsimp only
      split
      · exact .inr ⟨_, rfl⟩
      · exact .inl rfl

namespace IsPlanned

variable {text : String} {o : Options} {s : Setting} {file : AnnotatedFile} {uses : ModuleUses}

/-- What replaces a name, with the variables that the plan has claimed. -/
theorem replaces (h : IsPlanned text o s file uses) {name code : String}
    (hcode : s.plan.replacement? name = some code) :
    ImportPlan.Replaces uses
      (SupportNames.claim ⟨nameTexts (Source.ofText text) file.tokens⟩).2.used name code := by
  have hplan : s.plan.replacements = (planOf (Source.ofText text) o file uses).replacements := by
    obtain hplan | ⟨valueNames, hplan⟩ := h.plan
    · rw [hplan]
    · rw [hplan]
      rfl
  have hmem := ImportPlan.mem_of_lookup hcode
  rw [hplan] at hmem
  exact (ImportPlan.ofUses_spec ..).2 _ hmem

theorem code (h : IsPlanned text o s file uses) : ∀ entry ∈ s.plan.code, NoName entry.2 := by
  have hall : ∀ entry ∈ (planOf (Source.ofText text) o file uses).code, NoName entry.2 := by
    intro entry hentry
    have := ImportPlan.ofUses_code _ _ _ _ entry hentry
    infer_instance
  obtain hplan | ⟨valueNames, hplan⟩ := h.plan <;> rw [hplan]
  · exact hall
  · exact ImportPlan.prune_code hall uses valueNames

theorem isCommonJs (h : IsPlanned text o s file uses) (himports : o.has .imports = true) :
    IsCommonJs s where
  imports := h.options ▸ himports
  replacement hcode := (h.replaces hcode).hasMark
  codeFor path := ImportPlan.codeFor_noName h.code path

/-- The names among the tokens are taken before any name is claimed. -/
theorem text_mem_nameTexts (h : IsPlanned text o s file uses) {j : Nat}
    (hkind : s.tape.kind j = .name) :
    s.tape.text j ∈ nameTexts (Source.ofText text) file.tokens := by
  have hget : s.tape.get j = s.tape.tokens.getD j s.tape.endToken := rfl
  cases htoken : s.tape.tokens[j]? with
  | none =>
    rw [Array.getD_eq_getD_getElem?, htoken] at hget
    rw [Tape.kind, hget] at hkind
    cases hkind
  | some t =>
    rw [Array.getD_eq_getD_getElem?, htoken] at hget
    have hlexeme : ((Tape.ofTokens (Source.ofText text) file.tokens).tokens[j]?).map Token.toLexeme =
        some t.toLexeme := by
      rw [← Array.getElem?_map, ← h.tokens, Array.getElem?_map, htoken]
      rfl
    obtain ⟨t', ht', hsame⟩ := Option.map_eq_some_iff.1 hlexeme
    have hmem : t' ∈ file.tokens.toList := by
      have ht' := Array.mem_toList_iff.2 (Array.mem_of_getElem? ht')
      unfold Tape.ofTokens at ht'
      dsimp only at ht'
      split at ht'
      · exact List.mem_of_mem_dropLast (by simpa using ht')
      · exact ht'
    have hname : t'.kind = .name := by
      rw [Tape.kind, hget] at hkind
      exact (congrArg Lexeme.kind hsame).trans hkind
    have htext : s.tape.text j = t'.text (Source.ofText text) := by
      rw [Tape.text, hget, h.source]
      unfold Token.text
      rw [congrArg Lexeme.start hsame, congrArg Lexeme.stop hsame]
      rfl
    rw [htext, nameTexts, List.mem_eraseDups]
    exact List.mem_map_of_mem (List.mem_filter.2 ⟨hmem, by simpa using hname⟩)

/-- No token spells a name that is claimed after all names of the file are taken. -/
theorem text_ne_of_not_mem (h : IsPlanned text o s file uses) {v : String}
    (hfree : v ∉ (SupportNames.claim ⟨nameTexts (Source.ofText text) file.tokens⟩).2.used) {j : Nat}
    (hkind : s.tape.kind j = .name) : s.tape.text j ≠ v := by
  rintro rfl
  exact hfree (SupportNames.subset_used_claim _ (h.text_mem_nameTexts hkind))

end IsPlanned

theorem replacement?_of_replacementAt? {s : Setting} {i : Nat} {code : String}
    (h : s.replacementAt? i = some code) : s.plan.replacement? (s.tape.text i) = some code := by
  unfold Setting.replacementAt? at h
  dsimp only at h
  split at h
  · cases h
  · split at h
    · exact h
    · exact h
    · cases h

/-! ## Whole runs -/

theorem writeFile_of_codeOf {text : String} {o : Options} {code : String}
    (h : Output.codeOf text o = .ok code) : ∃ p, prepare text o = .ok p ∧ writeFile p = .ok code := by
  unfold Output.codeOf at h
  cases hvalid : o.validate with
  | error e =>
    rw [hvalid] at h
    cases h
  | ok u =>
    rw [hvalid] at h
    cases hprepare : prepare text o with
    | error e =>
      rw [hprepare] at h
      cases h
    | ok p =>
      rw [hprepare] at h
      change liftFailure (writeFile p) = .ok code at h
      cases hwrite : writeFile p with
      | error e =>
        rw [hwrite] at h
        cases h
      | ok written =>
        rw [hwrite] at h
        cases h
        exact ⟨p, rfl, hwrite⟩

theorem file_of_writeFile {p : Prepared} {code : String} (h : writeFile p = .ok code) :
    ∃ σ, file ⟨p.setting, performFor p.setting (depthLimit p.setting.tape)⟩ p.state = .ok ((), σ) ∧
      code = assemble (prefixCode p.setting σ) (Piece.render σ.output) (suffixCode p.setting σ) := by
  change (file ⟨p.setting, performFor p.setting (depthLimit p.setting.tape)⟩ p.state).map (fun r =>
    assemble (prefixCode p.setting r.2) (Piece.render r.2.output) (suffixCode p.setting r.2)) =
      Except.ok code at h
  cases hrun : file ⟨p.setting, performFor p.setting (depthLimit p.setting.tape)⟩ p.state with
  | error e =>
    rw [hrun] at h
    cases h
  | ok result =>
    rw [hrun] at h
    cases h
    exact ⟨result.2, rfl, rfl⟩

/-! ## Calls -/

namespace CommonJs

/-- An opening parenthesis follows the token at an index, perhaps after closing ones. -/
def IsCalled (t : Tape) (i : Nat) : Prop :=
  ∃ j, i < j ∧ t.kind j = .parenOpen ∧ ∀ k, i < k → k < j → t.kind k = .parenClose

theorem isCallee_iff {t : Tape} {i : Nat} : isCallee ⟨t, i⟩ = true ↔ IsCalled t i := by
  have hle := t.le_skip (·.kind == .parenClose) (i + 1)
  have hskipped {k : Nat} (hk : i < k)
      (hlt : k < t.skip (·.kind == .parenClose) (i + 1)) : t.kind k = .parenClose :=
    beq_iff_eq.1 (Tape.of_lt_skip hk hlt)
  rw [isCallee, beq_iff_eq]
  dsimp only
  constructor
  · intro hopen
    exact ⟨_, hle, hopen, fun k hk hlt => hskipped hk hlt⟩
  · rintro ⟨j, hj, hopen, hbetween⟩
    obtain hlt | heq | hgt := Nat.lt_trichotomy (t.skip (·.kind == .parenClose) (i + 1)) j
    · have hclose := hbetween _ hle hlt
      have hstop := Tape.skip_stop (Tape.lt_size_of_kind (by rw [hclose]; decide))
      exact absurd (beq_iff_eq.2 hclose) (Bool.eq_false_iff.1 hstop)
    · rw [heq, hopen]
    · have hclose := hskipped hj hgt
      rw [hopen] at hclose
      cases hclose

/-- What is written for a reference: a function is called without a receiver. -/
def referenceText (v : View) (code : String) : String :=
  if isCallee v then
    if (v.ahead 1).kind == .parenOpen && v.behind.kind != .newWord then code ++ ".call(void 0, "
    else "(0, " ++ code ++ ")"
  else code

theorem referenceText_cases (t : Tape) (i : Nat) (code : String) :
    ¬ IsCalled t i ∧ referenceText ⟨t, i⟩ code = code ∨
      IsCalled t i ∧ (referenceText ⟨t, i⟩ code = code ++ ".call(void 0, " ∨
        referenceText ⟨t, i⟩ code = "(0, " ++ code ++ ")") := by
  rw [← isCallee_iff]
  unfold referenceText
  split
  next hcallee =>
    refine .inr ⟨hcallee, ?_⟩
    split
    · exact .inl rfl
    · exact .inr rfl
  next hcallee => exact .inl ⟨hcallee, rfl⟩

/-- The first piece that the rule for references writes. -/
theorem reference_written {s : Setting} [IsCommonJs s] {n : Nat} {σ τ : State} {code : String}
    (hrun : reference code ⟨s, performFor s n⟩ σ = .ok ((), τ)) :
    ∃ gapText opened rest, τ.output.toList = σ.output.toList ++ .gap σ.index gapText ::
      List.map .added opened ++ .token σ.index (referenceText ⟨s.tape, σ.index⟩ code) :: rest := by
  have hone {written : String} {ρ : State}
      (hreplace : replace written ⟨s, performFor s n⟩ σ = .ok ((), ρ)) :
      ∃ gapText opened closed, ρ.output.toList = σ.output.toList ++ .gap σ.index gapText ::
        List.map .added opened ++ .token σ.index written :: List.map .added closed :=
    ((writes_replace written).writes rfl hreplace).2
  unfold reference at hrun
  rw [view_bind] at hrun
  unfold referenceText
  split at hrun
  next hcallee =>
    rw [if_pos hcallee]
    split at hrun
    next hdirect =>
      rw [if_pos hdirect]
      obtain ⟨_, ρ, hreplace, hrest⟩ := bind_ok hrun
      obtain ⟨gapText, opened, closed, hρ⟩ := hone hreplace
      have hkeeps : Keeps s ρ.index (do
          remove
          processBalanced
          copyExpected .parenClose) := inferInstance
      obtain ⟨-, pieces, houtput, -⟩ := hkeeps.keeps (justifies_performFor n) rfl hrest
      refine ⟨gapText, opened, closed.map .added ++ pieces, ?_⟩
      rw [houtput, hρ, List.append_assoc, List.cons_append]
    next hdirect =>
      rw [if_neg hdirect]
      obtain ⟨gapText, opened, closed, hρ⟩ := hone hrun
      exact ⟨gapText, opened, _, hρ⟩
  next hcallee =>
    rw [if_neg hcallee]
    obtain ⟨gapText, opened, closed, hρ⟩ := hone hrun
    exact ⟨gapText, opened, _, hρ⟩

end CommonJs

/-! ## Main statements -/

/-- A reference becomes a property of a variable that no declaration in the file can capture, since
no token spells it. The exceptions are exported variables, which become properties of `exports`, and
default imports of a path that the file also imports as a whole. -/
theorem replacement_variable {text : String} {o : Options} {p : Prepared}
    (himports : o.has .imports = true) (h : prepare text o = .ok p) {i : Nat} {code : String}
    (hcode : p.setting.replacementAt? i = some code) :
    ∃ v property, code = v ++ "." ++ property ∧
      (v = "exports" ∨ (∀ j, p.setting.tape.kind j = .name → p.setting.tape.text j ≠ v) ∨
        ∃ file uses path use, IsPlanned text o p.setting file uses ∧ (path, use) ∈ uses.paths ∧
          v ∈ use.wildcards ∧ p.setting.tape.text i ∈ use.defaults) := by
  obtain ⟨-, file, uses, -, hplan⟩ := exists_isPlanned himports h
  have hdefault (v : String) : v ++ ".default" = v ++ "." ++ "default" := by
    rw [String.append_assoc]
    rfl
  have hreplaces := hplan.replaces (replacement?_of_replacementAt? hcode)
  -- Only the name of a whole module is not claimed by the plan but taken from the file.
  generalize hname : p.setting.tape.text i = name at hreplaces
  cases hreplaces with
  | exported hexported => exact ⟨"exports", name, rfl, .inl rfl⟩
  | named huse hi hfree => exact ⟨_, _, rfl, .inr (.inl fun j => hplan.text_ne_of_not_mem hfree)⟩
  | default huse hdefaults hfree =>
    exact ⟨_, _, hdefault _, .inr (.inl fun j => hplan.text_ne_of_not_mem hfree)⟩
  | wildcard huse hdefaults hwildcard =>
    exact ⟨_, _, hdefault _, .inr (.inr ⟨file, uses, _, _, hplan, huse, hwildcard, hdefaults⟩)⟩

/-- A default import beside a name for the whole module: the parameter of the same name captures it. -/
theorem replacement_variable_wildcard :
    ∃ p, prepare "import d, * as ns from 'x'; function f(ns) \x7b return d; \x7d"
        { transforms := .ofList [.imports] } = .ok p ∧
      p.setting.replacementAt? 16 = some "ns.default" ∧
      ∃ v property, "ns.default" = v ++ "." ++ property ∧
        (v = "exports" ∨ (∀ j, p.setting.tape.kind j = .name → p.setting.tape.text j ≠ v) ∨
          ∃ file uses path use,
            IsPlanned "import d, * as ns from 'x'; function f(ns) \x7b return d; \x7d"
              { transforms := .ofList [.imports] } p.setting file uses ∧
            (path, use) ∈ uses.paths ∧ v ∈ use.wildcards ∧ p.setting.tape.text 16 ∈ use.defaults) := by
  have hcode : ((prepare "import d, * as ns from 'x'; function f(ns) \x7b return d; \x7d"
      { transforms := .ofList [.imports] }).toOption.bind (·.setting.replacementAt? 16)) =
        some "ns.default" := by
    decide +kernel
  obtain ⟨p, hp, hcode⟩ := Option.bind_eq_some_iff.1 hcode
  have hprepare := eq_ok_of_toOption hp
  exact ⟨p, hprepare, hcode, replacement_variable (by decide) hprepare hcode⟩

end Emit

end PlainScript
