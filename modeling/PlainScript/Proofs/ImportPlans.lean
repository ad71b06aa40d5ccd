import PlainScript.Proofs.PassesWrite
import PlainScript.Proofs.FreeNames

/-!
# Import plans

What replaces an imported or exported name is a property: of `exports`, or of the variable that holds
a module. Such a variable is a name that the file does not contain, with one exception: where a path
is also imported as a whole, its default import becomes a property of the name that the file itself
gives to the whole module.
-/

namespace PlainScript

theorem SupportNames.subset_used_claim (names : Names) :
    names.used ⊆ (SupportNames.claim names).2.used := by
  have hall := names.subset_used_claimAll (SupportFunction.all.map (·.baseName))
  unfold SupportNames.claim
  generalize names.claimAll (SupportFunction.all.map (·.baseName)) = claimed at hall ⊢
  exact List.Subset.trans hall (List.subset_cons_self _ _)

/-! ## Replacements -/

namespace ImportPlan

/-- What may replace a name, if the names in `used` are taken: a property of `exports` or of a
module. -/
inductive Replaces (uses : ModuleUses) (used : List String) : String → String → Prop
  | exported {name : String} (h : name ∈ uses.exportedVariables) :
      Replaces uses used name ("exports." ++ name)
  /-- The variable that holds the module is a name that is not taken. -/
  | named {path : String} {use : ModuleUse} (huse : (path, use) ∈ uses.paths) {i : NamedImport}
      (hi : i ∈ use.named) {variableName : String} (hfree : variableName ∉ used) :
      Replaces uses used i.localName (variableName ++ "." ++ i.imported)
  | default {path : String} {use : ModuleUse} (huse : (path, use) ∈ uses.paths) {name : String}
      (hname : name ∈ use.defaults) {variableName : String} (hfree : variableName ∉ used) :
      Replaces uses used name (variableName ++ ".default")
  /-- The file has a name of its own for the whole module. -/
  | wildcard {path : String} {use : ModuleUse} (huse : (path, use) ∈ uses.paths) {name : String}
      (hname : name ∈ use.defaults) {variableName : String}
      (hwildcard : variableName ∈ use.wildcards) :
      Replaces uses used name (variableName ++ ".default")

variable {support : SupportNames} {isLegacy : Bool} {uses : ModuleUses} {used : List String}
  {names : Names}

theorem free_not_mem_of_subset (hused : used ⊆ names.used) (base : String) :
    names.free base ∉ used :=
  fun hmem => names.free_not_mem base (hused hmem)

/-- The second variable of a path is free, or the file has given it a name. -/
theorem secondary_spec {primary : String} (isLegacy : Bool) (base : String) (use : ModuleUse)
    (hused : used ⊆ names.used) (hprimary : primary ∉ used) :
    let second := if isLegacy then (primary, names)
      else
        match use.wildcards with
        | first :: _ => (first, names)
        | [] => names.claim base
    used ⊆ second.2.used ∧ (second.1 ∉ used ∨ second.1 ∈ use.wildcards) := by
  dsimp only
  split
  · exact ⟨hused, .inl hprimary⟩
  · split
    next first rest hwildcards =>
      rw [hwildcards]
      exact ⟨hused, .inr List.mem_cons_self⟩
    next =>
      exact ⟨List.Subset.trans hused (List.subset_cons_self _ _),
        .inl (free_not_mem_of_subset hused base)⟩

/-- What planning one path adds to the replacements, and that names stay taken. -/
theorem addModule_replaces {p : ImportPlan} {path : String} {use : ModuleUse}
    (huse : (path, use) ∈ uses.paths) (hused : used ⊆ names.used)
    (hp : ∀ entry ∈ p.replacements, Replaces uses used entry.1 entry.2) :
    used ⊆ (addModule support isLegacy p names path use).2.used ∧
      ∀ entry ∈ (addModule support isLegacy p names path use).1.replacements,
        Replaces uses used entry.1 entry.2 := by
  unfold addModule
  split
  · exact ⟨hused, hp⟩
  · have hprimary := free_not_mem_of_subset hused (baseNameOfPath path)
    have hclaimed : used ⊆ (names.claim (baseNameOfPath path)).2.used :=
      List.Subset.trans hused (List.subset_cons_self _ _)
    have hsecond := secondary_spec isLegacy (baseNameOfPath path) use hclaimed hprimary
    dsimp only [Names.claim] at hsecond ⊢
    obtain ⟨hnames, hsecondary⟩ := hsecond
    refine ⟨hnames, fun entry hentry => ?_⟩
    obtain hnew | hold := List.mem_append.1 hentry
    · obtain hdefault | hnamed := List.mem_append.1 (List.mem_reverse.1 hnew)
      · obtain ⟨name, hname, rfl⟩ := List.mem_map.1 hdefault
        obtain hfree | hwildcard := hsecondary
        · exact .default huse hname hfree
        · exact .wildcard huse hname hwildcard
      · obtain ⟨i, hi, rfl⟩ := List.mem_map.1 hnamed
        exact .named huse hi hprimary
    · exact hp entry hold

/-- What holds of the plan at the start and is kept by planning a path holds of the whole plan. -/
theorem ofUses_induction {P : ImportPlan × Names → Prop} (support : SupportNames) (isLegacy : Bool)
    (uses : ModuleUses) (names : Names)
    (hstart : P ({
      replacements := uses.exportedVariables.map fun name => (name, "exports." ++ name)
      exports := uses.exports }, names))
    (hstep : ∀ p names path use, (path, use) ∈ uses.paths → P (p, names) →
      P (addModule support isLegacy p names path use)) :
    P (ofUses support isLegacy uses names) :=
  List.foldlRecOn uses.paths _ hstart fun p hp path hpath => hstep p.1 p.2 path.1 path.2 hpath hp

/-- Every replacement of a plan is one of these, for all names that were taken before; they stay
taken. -/
theorem ofUses_spec (support : SupportNames) (isLegacy : Bool) (uses : ModuleUses) (names : Names) :
    names.used ⊆ (ofUses support isLegacy uses names).2.used ∧
      ∀ entry ∈ (ofUses support isLegacy uses names).1.replacements,
        Replaces uses names.used entry.1 entry.2 := by
  refine ofUses_induction (P := fun plan => names.used ⊆ plan.2.used ∧
    ∀ entry ∈ plan.1.replacements, Replaces uses names.used entry.1 entry.2) support isLegacy
    uses names ⟨List.Subset.refl _, fun entry hentry => ?_⟩
    fun p names' path use huse hp => addModule_replaces huse hp.1 hp.2
  obtain ⟨name, hname, rfl⟩ := List.mem_map.1 hentry
  exact .exported hname

/-! ## Marks -/

instance : HasMark "exports." := ⟨by decide⟩

instance : HasMark "." := ⟨by decide⟩

instance : HasMark ".default" := ⟨by decide⟩

instance : HasMark "var " := ⟨by decide⟩

instance : HasMark "require('" := ⟨by decide⟩

theorem Replaces.hasMark {name code : String} (h : Replaces uses used name code) : HasMark code := by
  cases h <;> infer_instance

theorem ofUses_code (support : SupportNames) (isLegacy : Bool) (uses : ModuleUses) (names : Names) :
    ∀ entry ∈ (ofUses support isLegacy uses names).1.code, HasMark entry.2 := by
  refine ofUses_induction (P := fun plan => ∀ entry ∈ plan.1.code, HasMark entry.2) support isLegacy
    uses names nofun fun p names path use _ hp entry hentry => ?_
  unfold addModule requireCode at hentry
  split at hentry
  all_goals
    obtain hold | hnew := List.mem_append.1 hentry
    · exact hp entry hold
    · cases List.mem_singleton.1 hnew
      infer_instance

theorem mem_of_lookup {entries : List (String × String)} {key value : String}
    (h : entries.lookup key = some value) : (key, value) ∈ entries := by
  obtain ⟨_, _, rfl, _⟩ := List.lookup_eq_some_iff.1 h
  simp

theorem codeFor_noName {p : ImportPlan} (h : ∀ entry ∈ p.code, NoName entry.2) (path : String) :
    NoName (p.codeFor path) := by
  unfold codeFor
  cases hcode : p.code.lookup path with
  | none => exact noName_empty
  | some code => exact h _ (mem_of_lookup hcode)

theorem prune_code {p : ImportPlan} (h : ∀ entry ∈ p.code, NoName entry.2) (uses : ModuleUses)
    (valueNames : List String) : ∀ entry ∈ (p.prune uses valueNames).code, NoName entry.2 := by
  intro entry hentry
  obtain ⟨old, hold, rfl⟩ := List.mem_map.1 hentry
  dsimp only
  split
  · exact noName_empty
  · exact h old hold

end ImportPlan

end PlainScript
