import PlainScript.Proofs.References

/-!
# Exported names

Which names are recorded as exported, and which assignments are repeated for an exported property.
Every name that an exported declaration binds is recorded, as far as the declaration is read: up to
the end of the first pattern of a variable statement, and for functions that are no generators. An
assignment is repeated only if a name that is exported, and that no inner declaration hides, stands
where the assigned variable is expected; only a dot before the name is looked for.
-/

namespace PlainScript

theorem exists_of_bind_ok {ε α β : Type} {e : Except ε α} {f : α → Except ε β} {b : β}
    (h : (e >>= f) = .ok b) : ∃ a, e = .ok a ∧ f a = .ok b := by
  cases e with
  | error e => cases h
  | ok a => exact ⟨a, rfl, h⟩

namespace ModuleUses

variable {t : Tape} {u u' u'' : ModuleUses} {i j depth : Nat}

/-! ## Reading statements -/

/-- Nothing that has been recorded as exported is lost. -/
structure Grows (u u' : ModuleUses) : Prop where
  exports : u.exports ⊆ u'.exports
  declared : u.exportedVariables ⊆ u'.exportedVariables

theorem Grows.refl (u : ModuleUses) : u.Grows u := ⟨List.Subset.refl _, List.Subset.refl _⟩

theorem Grows.trans (h : u.Grows u') (h' : u'.Grows u'') : u.Grows u'' :=
  ⟨List.Subset.trans h.exports h'.exports, List.Subset.trans h.declared h'.declared⟩

theorem grows_withUse (u : ModuleUses) (path : String) (use : ModuleUse) :
    u.Grows (u.withUse path use) :=
  ⟨List.Subset.refl _, List.Subset.refl _⟩

theorem grows_withExport (u : ModuleUses) (localName exported : String) :
    u.Grows (u.withExport localName exported) :=
  ⟨List.subset_append_left _ _, List.Subset.refl _⟩

theorem grows_readImport (h : readImport t i u = .ok u') : u.Grows u' := by
  unfold readImport at h
  split at h
  · cases h
    exact .refl u
  · generalize (if t.kind i == .name then _ else _ : List String × Nat) = defaults at h
    obtain ⟨defaults, i⟩ := defaults
    dsimp only at h
    generalize (if t.kind i == .star then _ else _ : List String × Nat) = wildcards at h
    obtain ⟨wildcards, i⟩ := wildcards
    split at h
    all_goals
      obtain ⟨imports, -, h⟩ := exists_of_bind_ok h
      dsimp only at h
      generalize (if t.hasSoft imports.2 .fromName then _ else _ : Nat) = path at h
      split at h
      · cases h
        exact grows_withUse _ _ _
      · cases h

theorem grows_readVariablesFor (n i depth : Nat) (u : ModuleUses) :
    u.Grows (readVariablesFor t n i depth u) := by
  induction n generalizing i depth u with
  | zero => exact .refl u
  | succ n ih =>
    unfold readVariablesFor
    dsimp only
    split
    · split
      case h_6 =>
        refine .trans ?_ (ih _ _ _)
        split
        · exact ⟨List.Subset.refl _, List.subset_cons_self _ _⟩
        · exact .refl u
      case h_7 =>
        split
        · exact .refl u
        · split <;> exact ih _ _ _
      all_goals exact ih _ _ _
    · exact .refl u

theorem grows_foldl_withExport (imports : List NamedImport) (u : ModuleUses) :
    u.Grows (imports.foldl (fun u e => u.withExport e.imported e.localName) u) := by
  induction imports generalizing u with
  | nil => exact .refl u
  | cons e rest ih => exact (grows_withExport u _ _).trans (ih _)

theorem grows_readNamedExport (h : readNamedExport t i u = .ok u') : u.Grows u' := by
  unfold readNamedExport at h
  obtain ⟨imports, -, h⟩ := exists_of_bind_ok h
  dsimp only at h
  split at h
  · split at h
    · cases h
      exact grows_withUse _ _ _
    · cases h
  · cases h
    exact grows_foldl_withExport _ _

theorem grows_readStarExport (h : readStarExport t i u = .ok u') : u.Grows u' := by
  unfold readStarExport at h
  generalize (if t.has i [.exportWord, .star, .asModifier] then _ else _ : ModuleUse × Nat) = use at h
  obtain ⟨use, pathAt⟩ := use
  dsimp only at h
  split at h
  · cases h
    exact grows_withUse _ _ _
  · cases h

theorem grows_readExport (h : readExport t i u = .ok u') : u.Grows u' := by
  unfold readExport at h
  split at h
  case h_6 =>
    split at h
    · cases h
      exact grows_withExport _ _ _
    · cases h
      exact .refl u
  case h_7 => exact grows_readNamedExport h
  case h_8 => exact grows_readStarExport h
  all_goals
    cases h
    first
    | exact grows_readVariablesFor _ _ _ _
    | exact grows_withExport _ _ _
    | exact .refl _

theorem grows_readAt (h : readAt t u i = .ok u') : u.Grows u' := by
  unfold readAt at h
  split at h
  · split at h
    · cases h
      exact .refl u
    · exact grows_readImport h
  · split at h
    · cases h
      exact .refl u
    · exact grows_readExport h
  · cases h
    exact .refl u

/-- What is read at one of the indices is part of what is read at all of them. -/
theorem foldlM_readAt {indices : List Nat} (h : indices.foldlM (readAt t) u = .ok u') :
    u.Grows u' ∧ ∀ i ∈ indices, ∃ v v', readAt t v i = .ok v' ∧ v'.Grows u' := by
  induction indices generalizing u with
  | nil =>
    cases h
    exact ⟨.refl _, nofun⟩
  | cons k rest ih =>
    rw [List.foldlM_cons] at h
    obtain ⟨v, hread, hrest⟩ := exists_of_bind_ok h
    obtain ⟨hgrows, hall⟩ := ih hrest
    refine ⟨(grows_readAt hread).trans hgrows, fun i hi => ?_⟩
    obtain rfl | hi := List.mem_cons.1 hi
    · exact ⟨u, v, hread, hgrows⟩
    · exact hall i hi

/-! ## What is recorded -/

/-- The name at the second index is the one that the function or class declares whose export starts
at the first. -/
inductive DeclaresOne (t : Tape) (i : Nat) : Nat → Prop
  | named (h : t.kind (i + 1) = .functionWord ∨ t.kind (i + 1) = .classWord)
      (hname : t.kind (i + 2) = .name) : DeclaresOne t i (i + 2)
  | async (h : t.kind (i + 1) = .name) (hfunction : t.kind (i + 2) = .functionWord)
      (hname : t.kind (i + 3) = .name) : DeclaresOne t i (i + 3)

/-- The name at the last index is declared by the pattern that starts at the first, inside a number of
open braces and brackets. Default values belong to no pattern. -/
inductive DeclaredIn (t : Tape) : Nat → Nat → Nat → Prop
  | here {i depth : Nat} (hi : i < t.size) (hkind : t.kind i = .name)
      (hrole : (t.get i).hasRole IdentifierRole.isDeclaration = true) : DeclaredIn t i depth i
  | opening {i depth j : Nat} (hi : i < t.size)
      (hkind : t.kind i = .braceOpen ∨ t.kind i = .bracketOpen)
      (h : DeclaredIn t (i + 1) (depth + 1) j) : DeclaredIn t i depth j
  | closing {i depth j : Nat} (hi : i < t.size)
      (hkind : t.kind i = .braceClose ∨ t.kind i = .bracketClose)
      (h : DeclaredIn t (i + 1) (depth - 1) j) : DeclaredIn t i depth j
  | name {i depth j : Nat} (hi : i < t.size) (hkind : t.kind i = .name)
      (h : DeclaredIn t (i + 1) depth j) : DeclaredIn t i depth j
  | separator {i depth j : Nat} (hi : i < t.size) (hdepth : depth ≠ 0)
      (hkind : t.kind i = .comma ∨ t.kind i = .colon ∨ t.kind i = .ellipsis)
      (h : DeclaredIn t (i + 1) depth j) : DeclaredIn t i depth j
  | default {i depth j stop : Nat} (hi : i < t.size) (hdepth : depth ≠ 0)
      (hkind : t.kind i = .equals) (hstop : (t.get i).rhsEnd? = some stop) (hlt : i < stop)
      (h : DeclaredIn t stop depth j) : DeclaredIn t i depth j

/-- The walk over an exported variable statement records what the pattern declares. -/
theorem readVariablesFor_records {n : Nat} (h : DeclaredIn t i depth j) (hn : t.size < i + n)
    (u : ModuleUses) : t.text j ∈ (readVariablesFor t n i depth u).exportedVariables := by
  -- Along the derivation: each of its steps is one round of the walk, and a round never forgets.
  induction h generalizing n u with
  | @here i depth hi hkind hrole =>
    obtain ⟨n, rfl⟩ : ∃ k, n = k + 1 := ⟨n - 1, by omega⟩
    have hkind : (t.get i).kind = .name := hkind
    simp only [readVariablesFor, hi, if_true, hkind, hrole]
    exact (grows_readVariablesFor _ _ _ _).declared List.mem_cons_self
  | @opening i depth j hi hkind _ ih =>
    obtain ⟨n, rfl⟩ : ∃ k, n = k + 1 := ⟨n - 1, by omega⟩
    obtain hkind | hkind : (t.get i).kind = .braceOpen ∨ (t.get i).kind = .bracketOpen := hkind
    all_goals
      simp only [readVariablesFor, hi, if_true, hkind]
      exact ih (by omega) u
  | @closing i depth j hi hkind _ ih =>
    obtain ⟨n, rfl⟩ : ∃ k, n = k + 1 := ⟨n - 1, by omega⟩
    obtain hkind | hkind : (t.get i).kind = .braceClose ∨ (t.get i).kind = .bracketClose := hkind
    all_goals
      simp only [readVariablesFor, hi, if_true, hkind]
      exact ih (by omega) u
  | @name i depth j hi hkind _ ih =>
    obtain ⟨n, rfl⟩ : ∃ k, n = k + 1 := ⟨n - 1, by omega⟩
    have hkind : (t.get i).kind = .name := hkind
    simp only [readVariablesFor, hi, if_true, hkind]
    exact ih (by omega) _
  | @separator i depth j hi hdepth hkind _ ih =>
    obtain ⟨n, rfl⟩ : ∃ k, n = k + 1 := ⟨n - 1, by omega⟩
    obtain hkind | hkind | hkind :
        (t.get i).kind = .comma ∨ (t.get i).kind = .colon ∨ (t.get i).kind = .ellipsis := hkind
    all_goals
      simp only [readVariablesFor, hi, if_true, hkind, hdepth, if_false]
      exact ih (by omega) u
  | @default i depth j stop hi hdepth hkind hstop hlt _ ih =>
    obtain ⟨n, rfl⟩ : ∃ k, n = k + 1 := ⟨n - 1, by omega⟩
    have hkind : (t.get i).kind = .equals := hkind
    simp only [readVariablesFor, hi, if_true, hkind, hdepth, if_false, hstop]
    exact ih (by omega) u

variable {uses : ModuleUses}

theorem exists_readAt (h : ofTape t = .ok uses) (hi : i < t.size) :
    ∃ v v', readAt t v i = .ok v' ∧ v'.Grows uses :=
  (foldlM_readAt h).2 i (List.mem_range.2 hi)

theorem readAt_exportWord (hkind : t.kind i = .exportWord) (hnext : t.kind (i + 1) ≠ .equals)
    (u : ModuleUses) : readAt t u i = readExport t i u := by
  have hnot : t.has i [.exportWord, .equals] = false := by simp [Tape.has, hnext]
  simp only [readAt, hkind, hnot]
  rfl

/-- The name of an exported function or class is recorded under itself. -/
theorem mem_exports (h : ofTape t = .ok uses) (hi : i < t.size) (hkind : t.kind i = .exportWord)
    (hj : DeclaresOne t i j) : (t.text j, t.text j) ∈ uses.exports := by
  obtain ⟨v, v', hread, hgrows⟩ := exists_readAt h hi
  refine hgrows.exports ?_
  cases hj with
  | named hword hname =>
    rw [readAt_exportWord hkind (by obtain h | h := hword <;> rw [h] <;> decide)] at hread
    obtain hword | hword := hword
    all_goals
      simp only [readExport, hword] at hread
      cases hread
      simp [withExport]
  | async hword hfunction hname =>
    rw [readAt_exportWord hkind (by rw [hword]; decide)] at hread
    simp only [readExport, hword, hfunction] at hread
    cases hread
    simp [withExport]

/-- So is every name that the first pattern of an exported variable statement declares. -/
theorem mem_exportedVariables (h : ofTape t = .ok uses) (hi : i < t.size)
    (hkind : t.kind i = .exportWord)
    (hword : t.kind (i + 1) = .varWord ∨ t.kind (i + 1) = .letWord ∨ t.kind (i + 1) = .constWord)
    (hj : DeclaredIn t (i + 2) 0 j) : t.text j ∈ uses.exportedVariables := by
  obtain ⟨v, v', hread, hgrows⟩ := exists_readAt h hi
  refine hgrows.declared ?_
  rw [readAt_exportWord hkind (by obtain h | h | h := hword <;> rw [h] <;> decide)] at hread
  obtain hword | hword | hword := hword
  all_goals
    simp only [readExport, hword] at hread
    cases hread
    exact readVariablesFor_records hj (by omega) v

end ModuleUses

/-! ## Plans -/

namespace ImportPlan

variable {uses : ModuleUses} {used : List String} {name code : String}

/-- Some import binds the name. -/
def IsImported (uses : ModuleUses) (name : String) : Prop :=
  ∃ path use, (path, use) ∈ uses.paths ∧
    (name ∈ use.defaults ∨ ∃ i ∈ use.named, i.localName = name)

/-- What replaces a name is its exported property, unless an import binds the name too. -/
theorem Replaces.eq_or_isImported (h : Replaces uses used name code) :
    code = "exports." ++ name ∨ IsImported uses name := by
  cases h with
  | exported => exact .inl rfl
  | named huse hi => exact .inr ⟨_, _, huse, .inr ⟨_, hi, rfl⟩⟩
  | default huse hname => exact .inr ⟨_, _, huse, .inl hname⟩
  | wildcard huse hname => exact .inr ⟨_, _, huse, .inl hname⟩

theorem addModule_keeps (support : SupportNames) (isLegacy : Bool) (p : ImportPlan) (names : Names)
    (path : String) (use : ModuleUse) :
    (addModule support isLegacy p names path use).1.exports = p.exports ∧
      p.replacements ⊆ (addModule support isLegacy p names path use).1.replacements := by
  unfold addModule
  split
  · exact ⟨rfl, List.Subset.refl _⟩
  · exact ⟨rfl, List.subset_append_right _ _⟩

theorem ofUses_keeps (support : SupportNames) (isLegacy : Bool) (uses : ModuleUses) (names : Names) :
    (ofUses support isLegacy uses names).1.exports = uses.exports ∧
      (uses.exportedVariables.map fun name => (name, "exports." ++ name)) ⊆
        (ofUses support isLegacy uses names).1.replacements := by
  refine ofUses_induction (P := fun plan => plan.1.exports = uses.exports ∧
    (uses.exportedVariables.map fun name => (name, "exports." ++ name)) ⊆ plan.1.replacements)
    support isLegacy uses names ⟨rfl, List.Subset.refl _⟩ fun p names path use _ hp => ?_
  obtain ⟨hexports, hreplacements⟩ := addModule_keeps support isLegacy p names path use
  exact ⟨hexports.trans hp.1, List.Subset.trans hp.2 hreplacements⟩

theorem exists_replacement? {p : ImportPlan} (h : (name, code) ∈ p.replacements) :
    ∃ code', p.replacement? name = some code' := by
  cases hlookup : p.replacement? name with
  | some code' => exact ⟨code', rfl⟩
  | none =>
    have hne := List.lookup_eq_none_iff.1 hlookup _ h
    simp at hne

theorem mem_exportedNames {p : ImportPlan} {exported : String} (h : (name, exported) ∈ p.exports) :
    exported ∈ p.exportedNames name :=
  List.mem_map.2 ⟨_, List.mem_filter.2 ⟨h, by simp⟩, rfl⟩

end ImportPlan

namespace Emit

theorem IsPlanned.keeps {text : String} {o : Options} {s : Setting} {file : AnnotatedFile}
    {uses : ModuleUses} (h : IsPlanned text o s file uses) :
    s.plan.exports = uses.exports ∧
      (uses.exportedVariables.map fun name => (name, "exports." ++ name)) ⊆ s.plan.replacements := by
  obtain hplan | ⟨valueNames, hplan⟩ := h.plan
  · rw [hplan]
    exact ImportPlan.ofUses_keeps _ _ _ _
  · rw [hplan]
    exact ImportPlan.ofUses_keeps _ _ _ _

namespace CommonJs

variable {s : Setting} {recur : Task → Step Unit} {σ τ : State}

/-- A token stands for exported properties: it is a name that is exported, and no inner declaration
hides what it refers to. -/
structure Mirrors (s : Setting) (token : Token) (target : String) : Prop where
  kind : token.kind = .name
  shown : token.shadowsGlobal = false
  target : s.plan.exportTarget? (token.text s.tape.source) = some target

/-- The four forms of an assignment that is repeated for an exported property. -/
inductive Assigns where
  | plain
  | compound
  | increment
  | postIncrement

namespace Assigns

def rule : Assigns → Emit Bool
  | plain => assignment
  | compound => compoundAssignment
  | increment => prefixIncrement
  | postIncrement => postfixIncrement

/-- The token that is taken for the assigned variable. -/
def assigned (form : Assigns) (t : Tape) (i : Nat) : Token :=
  match form with
  | plain | compound => t.before i
  | increment => t.get (i + 1)
  | postIncrement => t.get i

/-- Whether a dot stands before the token that is taken for the assigned variable. -/
def afterDot (form : Assigns) (t : Tape) (i : Nat) : Prop :=
  match form with
  | plain | compound => 2 ≤ i ∧ t.kind (i - 2) = .dot
  | increment => False
  | postIncrement => 1 ≤ i ∧ (t.before i).kind = .dot

end Assigns

theorem mirrors_of_exportTarget? {token : Token} {target : String}
    (hrun : exportTarget? token ⟨s, recur⟩ σ = .ok (some target, τ)) : Mirrors s token target := by
  unfold exportTarget? at hrun
  obtain ⟨env, _, hread, hrun⟩ := bind_ok hrun
  cases hread
  split at hrun
  · cases hrun
  next h =>
    obtain ⟨hkind, hshown⟩ := Bool.or_eq_false_iff.1 (Bool.eq_false_of_not_eq_true h)
    refine ⟨by simpa using hkind, hshown, ?_⟩
    have hanswer := (Prod.mk.inj (Except.ok.inj hrun)).1
    exact hanswer

/-- What follows the search for exported properties is done only if there are some. -/
theorem mirrors_of_search {token : Token} {f : Option String → Emit Bool}
    (hnone : f none = pure false)
    (hrun : (exportTarget? token >>= f) ⟨s, recur⟩ σ = .ok (true, τ)) :
    ∃ target, Mirrors s token target := by
  obtain ⟨target?, υ, hsearch, hrest⟩ := bind_ok hrun
  cases target? with
  | none =>
    rw [hnone] at hrest
    cases hrest
  | some target => exact ⟨target, mirrors_of_exportTarget? hsearch⟩

end CommonJs

end Emit

end PlainScript
