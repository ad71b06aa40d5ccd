import PlainScript.Proofs.Exports
import PlainScript.Proofs.Marks
import PlainScript.Proofs.Reasons

/-!
# Generated code is on one line

The code that a file needs before it, the code for the imports of a path and what replaces a name are
each on one line, if the names and paths in the file are. So a file whose lines are kept is unbroken as
soon as it is prepared.
-/

namespace PlainScript

/-! ## Support functions -/

theorem SupportNames.lineFeeds_code {s : SupportNames} (hname : ∀ f, lineFeeds (s.name f) = 0)
    (hrequire : lineFeeds s.createRequire = 0) (f : SupportFunction) : lineFeeds (s.code f) = 0 := by
  -- The texts between the names are long, so each of them is checked by itself.
  have hbody (wait : String) (hwait : lineFeeds wait = 0) : lineFeeds (chainBody wait) = 0 := by
    unfold chainBody
    repeat rw [lineFeeds_append_eq_zero_iff]
    repeat' apply And.intro
    all_goals first | with_reducible exact hwait | exact lineFeeds_ofList_eq_zero (by decide +kernel)
  have hplain := hbody "" (by decide)
  have hasync := hbody "await " (by decide)
  unfold code
  cases f
  all_goals
    dsimp only
    repeat rw [lineFeeds_append_eq_zero_iff]
    repeat' apply And.intro
    all_goals first
      | with_reducible exact hname _
      | with_reducible assumption
      | exact lineFeeds_ofList_eq_zero (by decide +kernel)

theorem SupportNames.lineFeeds_codeFor {s : SupportNames} (hname : ∀ f, lineFeeds (s.name f) = 0)
    (hrequire : lineFeeds s.createRequire = 0) (called : List SupportFunction) :
    lineFeeds (s.codeFor called) = 0 := by
  refine lineFeeds_join_eq_zero fun text htext => ?_
  obtain ⟨f, _, rfl⟩ := List.mem_map.1 htext
  rw [lineFeeds_append, lineFeeds_code hname hrequire f]
  decide

/-! ## Plans -/

namespace ImportPlan

variable {support : SupportNames} {isLegacy : Bool} {path primary secondary : String} {use : ModuleUse}

theorem lineFeeds_baseNameOfPath (path : String) : lineFeeds (baseNameOfPath path) = 0 := by
  unfold baseNameOfPath
  refine lineFeeds_append_eq_zero_iff.2 ⟨by decide, lineFeeds_eq_zero_iff.2 fun hmem => ?_⟩
  rw [String.toList_ofList] at hmem
  exact absurd (List.mem_filter.1 hmem).2 (by decide)

theorem lineFeeds_shapeCode (hsupport : ∀ f, lineFeeds (support.name f) = 0)
    (hwildcards : ∀ w ∈ use.wildcards, lineFeeds w = 0) (hprimary : lineFeeds primary = 0)
    (hsecondary : lineFeeds secondary = 0) :
    lineFeeds (shapeCode support isLegacy use primary secondary).1 = 0 := by
  have hinterop (f : SupportFunction) (v : String) (hv : lineFeeds v = 0) :
      lineFeeds (interopCode support f v primary) = 0 := by
    simp only [interopCode, lineFeeds_append, hsupport, hv, hprimary]
    decide
  unfold shapeCode
  split
  · split
    all_goals
      refine lineFeeds_join_eq_zero fun text htext => ?_
      obtain ⟨w, hw, rfl⟩ := List.mem_map.1 htext
    · simp only [lineFeeds_append, hwildcards w hw, hprimary]
      decide
    · exact hinterop _ w (hwildcards w hw)
  split
  · exact hinterop _ _ hsecondary
  split
  · exact hinterop _ _ hsecondary
  · rfl

theorem lineFeeds_reexportCode (hsupport : ∀ f, lineFeeds (support.name f) = 0)
    (huse : ∀ text ∈ use.texts, lineFeeds text = 0) (hprimary : lineFeeds primary = 0)
    (hsecondary : lineFeeds secondary = 0) :
    lineFeeds (reexportCode support use primary secondary).1 = 0 := by
  have hstar : lineFeeds (if use.hasStar = true then
      " " ++ support.name .createStarExport ++ "(" ++ primary ++ ");" else "") = 0 := by
    split
    · simp only [lineFeeds_append, hsupport, hprimary]
      decide
    · rfl
  unfold reexportCode
  simp only [lineFeeds_append, hstar]
  refine lineFeeds_join_eq_zero fun text htext => ?_
  obtain hnamed | hwhole := List.mem_append.1 htext
  · obtain ⟨e, he, rfl⟩ := List.mem_map.1 hnamed
    have himported := huse e.imported (by simp [ModuleUse.texts, List.mem_map_of_mem he])
    have hlocal := huse e.localName (by simp [ModuleUse.texts, List.mem_map_of_mem he])
    simp only [lineFeeds_append, hsupport, hprimary, himported, hlocal]
    decide
  · obtain ⟨name, hname, rfl⟩ := List.mem_map.1 hwhole
    have hname := huse name (by simp [ModuleUse.texts, hname])
    simp only [lineFeeds_append, hname, hsecondary]
    decide

theorem lineFeeds_moduleCode (hsupport : ∀ f, lineFeeds (support.name f) = 0)
    (hpath : lineFeeds path = 0) (huse : ∀ text ∈ use.texts, lineFeeds text = 0)
    (hprimary : lineFeeds primary = 0) (hsecondary : lineFeeds secondary = 0) :
    lineFeeds (requireCode primary path ++ (shapeCode support isLegacy use primary secondary).1 ++
      (reexportCode support use primary secondary).1) = 0 := by
  have hwildcard (w : String) (hw : w ∈ use.wildcards) : lineFeeds w = 0 :=
    huse w (by simp [ModuleUse.texts, ModuleUse.boundNames, hw])
  simp only [lineFeeds_append, requireCode, hpath, hprimary,
    lineFeeds_shapeCode hsupport hwildcard hprimary hsecondary,
    lineFeeds_reexportCode hsupport huse hprimary hsecondary]
  decide

theorem lineFeeds_secondary (names : Names) (isLegacy : Bool) {base : String}
    (huse : ∀ text ∈ use.texts, lineFeeds text = 0) (hbase : lineFeeds base = 0)
    (hprimary : lineFeeds primary = 0) :
    let second := if isLegacy then (primary, names)
      else
        match use.wildcards with
        | first :: _ => (first, names)
        | [] => names.claim base
    lineFeeds second.1 = 0 := by
  dsimp only
  split
  · exact hprimary
  · split
    next first rest hwildcards =>
      exact huse first (by simp [ModuleUse.texts, ModuleUse.boundNames, hwildcards])
    next => exact names.lineFeeds_free hbase

theorem lineFeeds_addModule {p : ImportPlan} {names : Names}
    (hsupport : ∀ f, lineFeeds (support.name f) = 0) (hpath : lineFeeds path = 0)
    (huse : ∀ text ∈ use.texts, lineFeeds text = 0) (hcode : ∀ entry ∈ p.code, lineFeeds entry.2 = 0)
    (hreplacements : ∀ entry ∈ p.replacements, lineFeeds entry.2 = 0) :
    (∀ entry ∈ (addModule support isLegacy p names path use).1.code, lineFeeds entry.2 = 0) ∧
      ∀ entry ∈ (addModule support isLegacy p names path use).1.replacements,
        lineFeeds entry.2 = 0 := by
  unfold addModule
  split
  · refine ⟨fun entry hentry => ?_, hreplacements⟩
    obtain hold | hnew := List.mem_append.1 hentry
    · exact hcode entry hold
    · cases List.mem_singleton.1 hnew
      simp only [lineFeeds_append, hpath]
      decide
  · have hbase := lineFeeds_baseNameOfPath path
    have hprimary := names.lineFeeds_free hbase
    have hsecondary := lineFeeds_secondary (names.claim (baseNameOfPath path)).2 isLegacy huse hbase
      hprimary
    dsimp only [Names.claim] at hsecondary ⊢
    refine ⟨fun entry hentry => ?_, fun entry hentry => ?_⟩
    · obtain hold | hnew := List.mem_append.1 hentry
      · exact hcode entry hold
      · cases List.mem_singleton.1 hnew
        exact lineFeeds_moduleCode hsupport hpath huse hprimary hsecondary
    · obtain hnew | hold := List.mem_append.1 hentry
      · obtain hdefault | hnamed := List.mem_append.1 (List.mem_reverse.1 hnew)
        · obtain ⟨name, _, rfl⟩ := List.mem_map.1 hdefault
          exact lineFeeds_append_eq_zero_iff.2 ⟨hsecondary, by decide⟩
        · obtain ⟨i, hi, rfl⟩ := List.mem_map.1 hnamed
          have himported := huse i.imported (by simp [ModuleUse.texts, List.mem_map_of_mem hi])
          simp only [lineFeeds_append, hprimary, himported]
          decide
      · exact hreplacements entry hold

/-- The code and the replacements of a plan have no line feeds. -/
theorem lineFeeds_ofUses {uses : ModuleUses} (hsupport : ∀ f, lineFeeds (support.name f) = 0)
    (huses : ∀ text ∈ uses.texts, lineFeeds text = 0) (isLegacy : Bool) (names : Names) :
    (∀ entry ∈ (ofUses support isLegacy uses names).1.code, lineFeeds entry.2 = 0) ∧
      ∀ entry ∈ (ofUses support isLegacy uses names).1.replacements, lineFeeds entry.2 = 0 := by
  refine ofUses_induction (P := fun plan => (∀ entry ∈ plan.1.code, lineFeeds entry.2 = 0) ∧
    ∀ entry ∈ plan.1.replacements, lineFeeds entry.2 = 0) support isLegacy uses names
    ⟨nofun, fun entry hentry => ?_⟩ fun p names path use huse hp => ?_
  · obtain ⟨name, hname, rfl⟩ := List.mem_map.1 hentry
    have hname := huses name (by simp [ModuleUses.texts, hname])
    simp only [lineFeeds_append, hname]
    decide
  · have hmem (text : String) (htext : text ∈ path :: use.texts) : text ∈ uses.texts :=
      List.mem_append_left _ (List.mem_append_left _ (List.mem_flatMap.2 ⟨(path, use), huse, htext⟩))
    exact lineFeeds_addModule hsupport (huses path (hmem path List.mem_cons_self))
      (fun text htext => huses text (hmem text (List.mem_cons_of_mem _ htext))) hp.1 hp.2

end ImportPlan

/-! ## Options -/

namespace Options

theorem lineFeeds_of_isDottedName {text : String} (h : isDottedName text = true) :
    lineFeeds text = 0 := by
  rw [lineFeeds_eq_zero_iff]
  intro hmem
  obtain ⟨part, hpart, hc⟩ := exists_mem_splitChars '.' hmem (by decide)
  exact lineFeed_not_mem (List.all_eq_true.1 h part hpart) hc

/-- A check that does not fail is passed. -/
theorem of_check {c : Prop} [Decidable c] {e : ConfigError} {rest : PUnit → Except ConfigError PUnit}
    (h : (if c then throw e >>= rest else rest PUnit.unit) = .ok PUnit.unit) :
    rest PUnit.unit = .ok PUnit.unit := by
  split at h
  · cases h
  · exact h

theorem of_checks {p : String → Bool} {e : String → ConfigError} {xs : List String}
    (h : (forIn xs PUnit.unit fun x _ => if p x = true then pure (.yield PUnit.unit) else do
        throw (e x)
        pure (.yield PUnit.unit) : Except ConfigError PUnit) = .ok PUnit.unit) :
    ∀ x ∈ xs, p x = true := by
  induction xs with
  | nil => nofun
  | cons x xs ih =>
    rw [List.forIn_cons] at h
    cases hx : p x with
    | false =>
      rw [hx] at h
      cases h
    | true =>
      rw [hx] at h
      intro y hy
      obtain rfl | hy := List.mem_cons.1 hy
      · exact hx
      · exact ih h y hy

/-- The functions for elements have names without line feeds. -/
theorem lineFeeds_pragma {o : Options} (h : o.validate = .ok ()) :
    lineFeeds o.jsxPragma = 0 ∧ lineFeeds o.jsxFragmentPragma = 0 := by
  unfold validate at h
  have hloop := of_check (of_check (of_check h))
  have hnames : ∀ pragma ∈ [o.jsxPragma?, o.jsxFragmentPragma?].filterMap id,
      isDottedName pragma = true := by
    refine of_checks (e := .invalidPragma) ?_
    obtain ⟨u, hfirst, _⟩ := exists_of_bind_ok hloop
    exact hfirst
  refine ⟨?_, ?_⟩
  · unfold jsxPragma
    cases hpragma : o.jsxPragma? with
    | none => decide
    | some pragma => exact lineFeeds_of_isDottedName (hnames pragma (by simp [hpragma]))
  · unfold jsxFragmentPragma
    cases hpragma : o.jsxFragmentPragma? with
    | none => decide
    | some pragma => exact lineFeeds_of_isDottedName (hnames pragma (by simp [hpragma]))

end Options

namespace Emit

variable {text : String} {o : Options} {p : Prepared}

/-- What a file is prepared with, apart from its tokens and its plan. -/
theorem setting_of_prepare (h : prepare text o = .ok p) :
    (∃ names, p.setting.support = (SupportNames.claim names).1) ∧
      p.setting.pragma = ElementPragma.ofOptions o ∧
      (o.has .imports = false → p.setting.plan = {}) ∧
      ∃ names, p.state = { names, called := p.setting.plan.called } := by
  unfold prepare at h
  cases hfile : AnnotatedFile.ofSource (Source.ofText text) (dialectOf o) with
  | error e =>
    simp only [hfile] at h
    cases h
  | ok file =>
    simp only [hfile, pure_bind] at h
    -- What is claimed for support functions is a closed computation, which must not be evaluated.
    generalize hclaimed : SupportNames.claim ⟨nameTexts (Source.ofText text) file.tokens⟩ = claimed at h
    have hnames : ∃ names, claimed.1 = (SupportNames.claim names).1 := ⟨_, congrArg Prod.fst hclaimed.symm⟩
    split at h
    next himports =>
      cases huses : ModuleUses.ofTape (Tape.ofTokens (Source.ofText text) file.tokens) with
      | error e =>
        rw [huses] at h
        cases h
      | ok uses =>
        rw [huses] at h
        cases h
        exact ⟨hnames, rfl, fun hnone => absurd himports (Bool.eq_false_iff.1 hnone), _, rfl⟩
    next =>
      split at h
      · cases hread : (Tape.ofTokens (Source.ofText text) file.tokens).importedNames with
        | error e =>
          rw [hread] at h
          cases h
        | ok names =>
          rw [hread] at h
          cases h
          exact ⟨hnames, rfl, fun _ => rfl, _, rfl⟩
      · cases h
        exact ⟨hnames, rfl, fun _ => rfl, _, rfl⟩

theorem lineFeeds_head {name : String} (h : lineFeeds name = 0) : lineFeeds (ElementPragma.head name) = 0 := by
  rw [lineFeeds_eq_zero_iff] at h ⊢
  rw [ElementPragma.head, String.toList_ofList]
  exact fun hmem => h ((List.takeWhile_prefix _).subset hmem)

theorem lineFeeds_tail {name : String} (h : lineFeeds name = 0) : lineFeeds (ElementPragma.tail name) = 0 := by
  rw [lineFeeds_eq_zero_iff] at h ⊢
  rw [ElementPragma.tail, String.toList_ofList]
  exact fun hmem => h ((List.dropWhile_suffix _).subset hmem)

/-- The plan of a file has no line feeds, if the names and paths of its imports and exports have
none. -/
theorem lineFeeds_plan (hprepare : prepare text o = .ok p) (hkeeps : p.setting.KeepsLines) :
    (∀ entry ∈ p.setting.plan.code, lineFeeds entry.2 = 0) ∧
      (∀ entry ∈ p.setting.plan.replacements, lineFeeds entry.2 = 0) ∧
      ∀ entry ∈ p.setting.plan.exports, lineFeeds entry.2 = 0 := by
  cases himports : o.has .imports with
  | false =>
    rw [(setting_of_prepare hprepare).2.2.1 himports]
    exact ⟨nofun, nofun, nofun⟩
  | true =>
    obtain ⟨-, file, uses, hfile, hplanned⟩ := exists_isPlanned himports hprepare
    obtain ⟨file', hp⟩ := exists_isPrepared hprepare
    obtain rfl : file' = file := Except.ok.inj (hp.parsed.symm.trans hfile)
    have hread : ModuleUses.ofTape p.setting.tape = .ok uses :=
      (ModuleUses.ofTape_alike hp.alike).trans hplanned.read
    have huses (text : String) (htext : text ∈ uses.texts) : lineFeeds text = 0 :=
      hkeeps.modules (hp.options ▸ himports) hread htext
    obtain ⟨hcode, hreplacements⟩ := ImportPlan.lineFeeds_ofUses
      (SupportNames.lineFeeds_name ⟨nameTexts (Source.ofText _) file'.tokens⟩) huses
      o.enableLegacyTypeScriptModuleInterop _
    have hexports : ∀ entry ∈ p.setting.plan.exports, lineFeeds entry.2 = 0 := by
      rw [hplanned.keeps.1]
      exact fun entry hentry => huses _ (by simp [ModuleUses.texts, List.mem_map_of_mem hentry])
    obtain hplan | ⟨valueNames, hplan⟩ := hplanned.plan
    · rw [hplan] at hexports ⊢
      exact ⟨hcode, hreplacements, hexports⟩
    · rw [hplan] at hexports ⊢
      refine ⟨fun entry hentry => ?_, hreplacements, hexports⟩
      obtain ⟨old, hold, rfl⟩ := List.mem_map.1 hentry
      dsimp only
      split
      · rfl
      · exact hcode old hold

/-- A file whose lines are kept is unbroken as soon as it is prepared. -/
theorem unbroken_of_keepsLines (hvalid : o.validate = .ok ()) (hprepare : prepare text o = .ok p)
    (hkeeps : p.setting.KeepsLines) : p.setting.Unbroken := by
  obtain ⟨hcode, hreplacements, hexports⟩ := lineFeeds_plan hprepare hkeeps
  obtain ⟨⟨names, hsupport⟩, hpragma, -, -⟩ := setting_of_prepare hprepare
  obtain ⟨helement, hfragment⟩ := Options.lineFeeds_pragma hvalid
  refine { hkeeps with
    imports := fun path => ?_
    replacement := fun h => hreplacements _ (ImportPlan.mem_of_lookup h)
    target := fun {name code} h => ?_
    support := fun f => hsupport ▸ SupportNames.lineFeeds_name names f
    base := hpragma ▸ lineFeeds_head helement
    suffix := hpragma ▸ lineFeeds_tail helement
    fragmentBase := hpragma ▸ lineFeeds_head hfragment
    fragmentSuffix := hpragma ▸ lineFeeds_tail hfragment }
  · unfold ImportPlan.codeFor
    cases hlookup : p.setting.plan.code.lookup path with
    | none => rfl
    | some code => exact hcode _ (ImportPlan.mem_of_lookup hlookup)
  · unfold ImportPlan.exportTarget? at h
    split at h
    · cases h
    · cases h
      refine lineFeeds_intercalate (by decide) fun target htarget => ?_
      obtain ⟨exported, hexported, rfl⟩ := List.mem_map.1 htarget
      obtain ⟨entry, hentry, rfl⟩ := List.mem_map.1 hexported
      rw [lineFeeds_append, hexports entry (List.mem_of_mem_filter hentry)]
      decide

end Emit

end PlainScript
