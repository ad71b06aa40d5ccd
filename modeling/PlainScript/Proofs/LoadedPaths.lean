import PlainScript.Proofs.ErasedTypes
import PlainScript.Proofs.Marks
import PlainScript.Proofs.References

/-!
# Paths that are loaded

Imports that bind nothing but types are left out, in two ways. For CommonJS all statements about a path
are read into one use of it, so a path is loaded if and only if one of its statements asks for it: by
exporting from it, by binding a name that is used as a value, or by binding no name at all. A module that
stays a module decides each statement by itself, while it writes the clause. The two differ for an import
with empty braces: it binds no name, so for CommonJS it keeps the imports of types from the same path.
-/

namespace PlainScript

namespace ModuleUse

/-- Whether a use loads its module: it does not depend on values, or it binds a name that is one. -/
def Loads (valueNames : List String) (use : ModuleUse) : Prop :=
  use.isKept = true ∨ ∃ name ∈ use.boundNames, name ∈ valueNames

variable {valueNames : List String}

theorem isKept_merge (a b : ModuleUse) : (a.merge b).isKept = (a.isKept || b.isKept) := by
  have happend {α : Type} (l m : List α) : (l ++ m).isEmpty = (l.isEmpty && m.isEmpty) := by
    cases l <;> rfl
  simp only [isKept, merge, happend, Bool.not_and]
  ac_rfl

theorem mem_boundNames_merge {a b : ModuleUse} {name : String} :
    name ∈ (a.merge b).boundNames ↔ name ∈ a.boundNames ∨ name ∈ b.boundNames := by
  simp only [boundNames, merge, List.map_append, List.mem_append]
  grind

/-- Two statements load a module if one of them does. -/
theorem loads_merge {a b : ModuleUse} :
    (a.merge b).Loads valueNames ↔ a.Loads valueNames ∨ b.Loads valueNames := by
  simp only [Loads, isKept_merge, Bool.or_eq_true, mem_boundNames_merge]
  grind

end ModuleUse

namespace ModuleUses

variable {t : Tape} {i : Nat} {path : String} {use : ModuleUse} {valueNames : List String}

/-! ## Adding a use -/

/-- One of the uses of a path loads it. -/
def LoadsIn (valueNames : List String) (path : String) (paths : List (String × ModuleUse)) : Prop :=
  ∃ use, (path, use) ∈ paths ∧ use.Loads valueNames

theorem loadsIn_addUse {paths : List (String × ModuleUse)} {q : String} :
    LoadsIn valueNames path (addUse q use paths) ↔
      LoadsIn valueNames path paths ∨ path = q ∧ use.Loads valueNames := by
  induction paths with
  | nil => simp [LoadsIn, addUse]
  | cons entry rest ih =>
    obtain ⟨p, u⟩ := entry
    have hcons (l : List (String × ModuleUse)) (v : ModuleUse) :
        LoadsIn valueNames path ((p, v) :: l) ↔
          path = p ∧ v.Loads valueNames ∨ LoadsIn valueNames path l := by
      simp only [LoadsIn, List.mem_cons, Prod.mk.injEq]
      grind
    unfold addUse
    split
    next hp =>
      subst hp
      rw [hcons, hcons, ModuleUse.loads_merge]
      grind
    next => rw [hcons, hcons, ih, or_assoc]

theorem mem_keys_addUse {paths : List (String × ModuleUse)} {q : String} :
    path ∈ (addUse q use paths).map Prod.fst ↔ path ∈ paths.map Prod.fst ∨ path = q := by
  induction paths with
  | nil => simp [addUse]
  | cons entry rest ih =>
    unfold addUse
    split
    next hp => simp only [List.map_cons, List.mem_cons]; grind
    next => simp only [List.map_cons, List.mem_cons, ih, or_assoc]

/-- Each path has one entry. -/
theorem nodup_addUse {paths : List (String × ModuleUse)} {q : String}
    (h : (paths.map Prod.fst).Nodup) : ((addUse q use paths).map Prod.fst).Nodup := by
  induction paths with
  | nil => simp [addUse]
  | cons entry rest ih =>
    obtain ⟨p, u⟩ := entry
    rw [List.map_cons, List.nodup_cons] at h
    unfold addUse
    split
    next => exact List.nodup_cons.2 h
    next hne =>
      refine List.nodup_cons.2 ⟨fun hmem => ?_, ih h.2⟩
      obtain hmem | heq := mem_keys_addUse.1 hmem
      · exact h.1 hmem
      · exact hne heq

/-! ## Reading a statement -/

/-- A reader adds at most one use of one path, whatever has been read before. -/
def Adds (read : ModuleUses → Except Failure ModuleUses) : Prop :=
  ∃ found : Except Failure (Option (String × ModuleUse)), ∀ u, (read u).map paths =
    found.map fun use? => use?.elim u.paths fun use => addUse use.1 use.2 u.paths

namespace Adds

theorem nothing {read : ModuleUses → Except Failure ModuleUses}
    (h : ∀ u, ∃ u', read u = .ok u' ∧ u'.paths = u.paths) : Adds read := by
  refine ⟨.ok none, fun u => ?_⟩
  obtain ⟨u', hread, hpaths⟩ := h u
  rw [hread]
  exact congrArg Except.ok hpaths

theorem fail (e : Failure) : Adds fun _ => .error e := ⟨.error e, fun _ => rfl⟩

theorem one (path : String) (use : ModuleUse) : Adds fun u => .ok (u.withUse path use) :=
  ⟨.ok (some (path, use)), fun _ => rfl⟩

/-- What is read first does not depend on what has been read before. -/
theorem bind {α : Type} {x : Except Failure α} {read : α → ModuleUses → Except Failure ModuleUses}
    (h : ∀ a, Adds (read a)) : Adds fun u => x >>= fun a => read a u := by
  cases x with
  | error e => exact fail e
  | ok a => exact h a

theorem ite {c : Prop} [Decidable c] {first second : ModuleUses → Except Failure ModuleUses}
    (hfirst : Adds first) (hsecond : Adds second) :
    Adds fun u => if c then first u else second u := by
  by_cases hc : c
  · simpa only [hc, if_true] using hfirst
  · simpa only [hc, if_false] using hsecond

end Adds

theorem adds_readImport (i : Nat) : Adds (readImport t i) := by
  unfold readImport
  refine .ite (.nothing fun u => ⟨u, rfl, rfl⟩) ?_
  dsimp only
  refine .ite ?_ ?_
  all_goals
    exact .bind fun imports => .ite (.one _ _) (.fail _)

theorem paths_readVariablesFor (n i depth : Nat) (u : ModuleUses) :
    (readVariablesFor t n i depth u).paths = u.paths := by
  induction n generalizing i depth u with
  | zero => rfl
  | succ n ih =>
    unfold readVariablesFor
    dsimp only
    repeat' split
    all_goals first
      | rfl
      | exact ih ..

theorem paths_foldl_withExport (exports : List NamedImport) (u : ModuleUses) :
    (exports.foldl (fun u e => u.withExport e.imported e.localName) u).paths = u.paths := by
  induction exports generalizing u with
  | nil => rfl
  | cons e rest ih => exact ih _

theorem adds_readExport (i : Nat) : Adds (readExport t i) := by
  unfold readExport
  split
  case h_7 =>
    unfold readNamedExport
    refine .bind fun imports => .ite ?_ (.nothing fun u => ⟨_, rfl, paths_foldl_withExport _ u⟩)
    exact .ite (.one _ _) (.fail _)
  case h_8 =>
    unfold readStarExport
    exact .ite (.one _ _) (.fail _)
  all_goals
    refine .nothing fun u => ?_
    first
      | exact ⟨_, rfl, paths_readVariablesFor ..⟩
      | exact ⟨_, rfl, rfl⟩
      | split <;> exact ⟨_, rfl, rfl⟩

theorem adds_readAt (i : Nat) : Adds (readAt t · i) := by
  have hnothing : Adds fun u => .ok u := .nothing fun u => ⟨u, rfl, rfl⟩
  unfold readAt
  split
  · exact .ite hnothing (adds_readImport _)
  · exact .ite hnothing (adds_readExport _)
  · exact hnothing

/-- The statement at an index uses a path. -/
def UsesAt (t : Tape) (i : Nat) (path : String) (use : ModuleUse) : Prop :=
  ∃ v, readAt t {} i = .ok v ∧ v.paths = [(path, use)]

/-- What one statement adds to the uses that have been read. -/
theorem paths_readAt {u u' : ModuleUses} (h : readAt t u i = .ok u') :
    (u'.paths = u.paths ∧ ∀ path use, ¬ UsesAt t i path use) ∨
      ∃ path use, u'.paths = addUse path use u.paths ∧
        ∀ path' use', UsesAt t i path' use' ↔ path' = path ∧ use' = use := by
  obtain ⟨found, hadds⟩ := adds_readAt (t := t) i
  have hu : (readAt t u i).map paths = _ := hadds u
  have hstart : (readAt t {} i).map paths = _ := hadds {}
  rw [h] at hu
  cases found with
  | error e => cases hu
  | ok use? =>
    have hempty {v : ModuleUses} (hv : readAt t {} i = .ok v) :
        v.paths = use?.elim [] fun use => [use] := by
      rw [hv] at hstart
      cases use? with
      | none => exact Except.ok.inj hstart
      | some use => exact Except.ok.inj hstart
    have hok : ∃ v, readAt t {} i = .ok v := by
      cases hv : readAt t {} i with
      | error e =>
        rw [hv] at hstart
        cases hstart
      | ok v => exact ⟨v, rfl⟩
    cases use? with
    | none =>
      refine .inl ⟨Except.ok.inj hu, fun path use ⟨v, hv, hpaths⟩ => ?_⟩
      rw [hempty hv] at hpaths
      cases hpaths
    | some entry =>
      refine .inr ⟨entry.1, entry.2, Except.ok.inj hu, fun path' use' => ⟨?_, ?_⟩⟩
      · rintro ⟨v, hv, hpaths⟩
        rw [hempty hv] at hpaths
        cases hpaths
        exact ⟨rfl, rfl⟩
      · rintro ⟨rfl, rfl⟩
        obtain ⟨v, hv⟩ := hok
        exact ⟨v, hv, hempty hv⟩

/-! ## Reading all statements -/

/-- What is known after some statements: each path has one entry, and it is loaded if one of the
statements loads it. -/
structure ReadUpTo (t : Tape) (u : ModuleUses) (n : Nat) : Prop where
  nodup : (u.paths.map Prod.fst).Nodup
  loads (valueNames : List String) (path : String) : LoadsIn valueNames path u.paths ↔
    ∃ i < n, ∃ use, UsesAt t i path use ∧ use.Loads valueNames

theorem ReadUpTo.succ {u u' : ModuleUses} {n : Nat} (hu : ReadUpTo t u n)
    (h : readAt t u n = .ok u') : ReadUpTo t u' (n + 1) := by
  have hsplit (valueNames : List String) (path : String) :
      (∃ i < n + 1, ∃ use, UsesAt t i path use ∧ use.Loads valueNames) ↔
        LoadsIn valueNames path u.paths ∨ ∃ use, UsesAt t n path use ∧ use.Loads valueNames := by
    rw [hu.loads]
    simp only [Nat.lt_succ_iff_lt_or_eq]
    grind
  obtain ⟨hpaths, hnone⟩ | ⟨path, use, hpaths, huses⟩ := paths_readAt h
  · refine ⟨hpaths ▸ hu.nodup, fun valueNames path => ?_⟩
    rw [hsplit, hpaths]
    simp [hnone]
  · refine ⟨hpaths ▸ nodup_addUse hu.nodup, fun valueNames path' => ?_⟩
    rw [hsplit, hpaths, loadsIn_addUse]
    simp only [huses]
    grind

theorem readUpTo_of_foldlM {n : Nat} {u : ModuleUses}
    (h : (List.range n).foldlM (readAt t) {} = .ok u) : ReadUpTo t u n := by
  induction n generalizing u with
  | zero =>
    cases h
    exact ⟨.nil, fun valueNames path => by simp [LoadsIn]⟩
  | succ n ih =>
    rw [List.range_succ, List.foldlM_append] at h
    cases hfirst : (List.range n).foldlM (readAt t) {} with
    | error e =>
      rw [hfirst] at h
      cases h
    | ok v =>
      rw [hfirst] at h
      have h : List.foldlM (readAt t) v [n] = .ok u := h
      exact (ih hfirst).succ (by simpa using h)

end ModuleUses

/-! ## Plans -/

namespace ImportPlan

variable {support : SupportNames} {isLegacy : Bool} {uses : ModuleUses} {names : Names} {path : String}

theorem keys_addModule (p : ImportPlan) (use : ModuleUse) :
    (addModule support isLegacy p names path use).1.code.map Prod.fst = p.code.map Prod.fst ++ [path] := by
  unfold addModule
  split <;> simp

theorem keys_foldl {add : ImportPlan × Names → String × ModuleUse → ImportPlan × Names}
    (hadd : ∀ plan entry, (add plan entry).1.code.map Prod.fst = plan.1.code.map Prod.fst ++ [entry.1])
    (paths : List (String × ModuleUse)) (plan : ImportPlan × Names) :
    (paths.foldl add plan).1.code.map Prod.fst = plan.1.code.map Prod.fst ++ paths.map Prod.fst := by
  induction paths generalizing plan with
  | nil => simp
  | cons entry rest ih => simp [ih, hadd]

/-- There is code for every path, in the order of the paths. -/
theorem keys_ofUses : (ofUses support isLegacy uses names).1.code.map Prod.fst =
    uses.paths.map Prod.fst :=
  keys_foldl (fun plan entry => keys_addModule plan.1 entry.2) uses.paths _

theorem codeFor_ofUses_ne_empty_iff :
    (ofUses support isLegacy uses names).1.codeFor path ≠ "" ↔ path ∈ uses.paths.map Prod.fst := by
  rw [← @keys_ofUses support isLegacy uses names, codeFor]
  cases hcode : (ofUses support isLegacy uses names).1.code.lookup path with
  | none =>
    refine iff_of_false (fun h => h rfl) fun hmem => ?_
    obtain ⟨entry, hentry, rfl⟩ := List.mem_map.1 hmem
    simpa using List.lookup_eq_none_iff.1 hcode entry hentry
  | some code =>
    have hmem := mem_of_lookup hcode
    have hmark := (ofUses_code _ _ _ _ _ hmem).any
    refine iff_of_true ?_ (List.mem_map_of_mem (f := Prod.fst) hmem)
    rintro rfl
    cases hmark

/-- All uses of a path bind types only. -/
def drops (uses : ModuleUses) (valueNames : List String) (path : String) : Bool :=
  uses.paths.any fun entry =>
    entry.1 == path && !entry.2.isKept && entry.2.boundNames.all (!valueNames.contains ·)

theorem codeFor_prune (p : ImportPlan) (valueNames : List String) :
    (p.prune uses valueNames).codeFor path = if drops uses valueNames path then "" else p.codeFor path := by
  have hlookup (code : List (String × String)) : (code.map fun entry =>
      (entry.1, if drops uses valueNames entry.1 then "" else entry.2)).lookup path =
        (code.lookup path).map fun text => if drops uses valueNames path then "" else text := by
    induction code with
    | nil => rfl
    | cons entry rest ih =>
      rw [List.map_cons, List.lookup_cons, List.lookup_cons]
      cases hkey : path == entry.1 with
      | true => rw [beq_iff_eq.1 hkey]; rfl
      | false => exact ih
  have hprune : (p.prune uses valueNames).codeFor path =
      (((p.code.map fun entry =>
        (entry.1, if drops uses valueNames entry.1 then "" else entry.2)).lookup path).getD "") := rfl
  rw [hprune, hlookup, codeFor]
  cases p.code.lookup path with
  | none => simp
  | some text => rfl

variable {valueNames : List String}

theorem not_loads_iff {use : ModuleUse} : ¬ use.Loads valueNames ↔
    (!use.isKept && use.boundNames.all (!valueNames.contains ·)) = true := by
  simp [ModuleUse.Loads]

/-- There is code for a path after pruning if and only if it is loaded. -/
theorem codeFor_prune_ne_empty_iff (hnodup : (uses.paths.map Prod.fst).Nodup) :
    ((ofUses support isLegacy uses names).1.prune uses valueNames).codeFor path ≠ "" ↔
      ModuleUses.LoadsIn valueNames path uses.paths := by
  rw [codeFor_prune]
  split
  next hdrops =>
    obtain ⟨⟨q, use⟩, hmem, hdropped⟩ := List.any_eq_true.1 hdrops
    rw [Bool.and_assoc, Bool.and_eq_true_iff, beq_iff_eq, ← not_loads_iff] at hdropped
    obtain ⟨rfl, hdropped⟩ := hdropped
    refine iff_of_false (fun h => h rfl) ?_
    rintro ⟨use', hmem', hloads⟩
    cases List.inj_on_of_nodup_map hnodup hmem hmem' rfl
    exact hdropped hloads
  next hdrops =>
    rw [codeFor_ofUses_ne_empty_iff]
    constructor
    · intro hpath
      obtain ⟨⟨q, use⟩, hmem, rfl⟩ := List.mem_map.1 hpath
      refine ⟨use, hmem, Classical.not_not.1 fun hdropped => hdrops (List.any_eq_true.2 ⟨_, hmem, ?_⟩)⟩
      rw [Bool.and_assoc, BEq.rfl, Bool.true_and]
      exact not_loads_iff.1 hdropped
    · rintro ⟨use, hmem, -⟩
      exact List.mem_map_of_mem (f := Prod.fst) hmem

end ImportPlan

/-! ## Import clauses -/

namespace ModuleUses

variable {t : Tape} {i : Nat} {path : String} {use : ModuleUse}

/-- The index after the comma at an index, if there is one. -/
def afterComma (t : Tape) (i : Nat) : Nat := if t.kind i == .comma then i + 1 else i

/-- The index after the default import at an index, if there is one, and after its comma. -/
def afterDefault (t : Tape) (i : Nat) : Nat :=
  if t.kind i == .name then afterComma t (i + 1) else i

theorem afterComma_of_comma (h : t.kind i = .comma) : afterComma t i = i + 1 := if_pos (beq_iff_eq.2 h)

theorem afterComma_of_ne (h : t.kind i ≠ .comma) : afterComma t i = i := if_neg (by simpa using h)

/-- The shapes of import clauses: no name follows the word `module`, and no braces follow `* as a`. -/
structure IsClause (t : Tape) (i : Nat) : Prop where
  first : (t.hasSoft i .moduleName && t.hasSoft (i + 2) .fromName) = false
  star (h : t.kind (afterDefault t i) = .star) : t.kind (afterDefault t i + 3) ≠ .braceOpen

/-- Specifiers can be read from an index on. -/
def Remaining (t : Tape) (i : Nat) (imports : List NamedImport) : Prop :=
  ∃ n stop, specifiersFor t n i = .ok (imports, stop)

theorem Remaining.eq_nil {imports : List NamedImport} (h : Remaining t i imports)
    (hclose : t.kind i = .braceClose) : imports = [] := by
  obtain ⟨n, stop, h⟩ := h
  cases n with
  | zero => cases h
  | succ n =>
    rw [specifiersFor, if_pos (beq_iff_eq.2 hclose)] at h
    cases h
    rfl

theorem remaining_nil (h : t.kind i = .braceClose) : Remaining t i [] :=
  ⟨1, i + 1, by rw [specifiersFor, if_pos (beq_iff_eq.2 h)]⟩

/-- What remains after a specifier and the comma that may follow it. -/
theorem Remaining.next {imports : List NamedImport} {x : Specifier} (h : Remaining t i imports)
    (hclose : t.kind i ≠ .braceClose) (hx : Specifier.read t i = .ok x) :
    ∃ rest, imports = (x.names?.map fun names => NamedImport.mk names.1 names.2).toList ++ rest ∧
      Remaining t (afterComma t x.stop) rest := by
  obtain ⟨n, stop, h⟩ := h
  cases n with
  | zero => cases h
  | succ n =>
    rw [specifiersFor, if_neg (by simpa using hclose), hx] at h
    dsimp only at h
    split at h
    next hlast =>
      cases h
      have hkinds : t.kind x.stop = .comma ∧ t.kind (x.stop + 1) = .braceClose := by
        simpa [Tape.has] using hlast
      rw [afterComma_of_comma hkinds.1]
      exact ⟨[], (List.append_nil _).symm, remaining_nil hkinds.2⟩
    split at h
    next hlast =>
      cases h
      have hlast := beq_iff_eq.1 hlast
      rw [afterComma_of_ne (by simp [hlast])]
      exact ⟨[], (List.append_nil _).symm, remaining_nil hlast⟩
    split at h
    next hcomma =>
      rw [afterComma_of_comma (beq_iff_eq.1 hcomma)]
      cases hrest : specifiersFor t n (x.stop + 1) with
      | error e =>
        rw [hrest] at h
        cases h
      | ok rest =>
        rw [hrest] at h
        cases h
        exact ⟨rest.1, rfl, n, rest.2, hrest⟩
    next => cases h

/-- Imports of the name `default` bind names like the others. -/
theorem mem_boundNames_partition {defaults wildcards : List String} {imports : List NamedImport}
    {isBare : Bool} {f : NamedImport → Bool} {name : String} :
    name ∈ (ModuleUse.mk (defaults ++ (imports.partition f).1.map (·.localName)) wildcards
        (imports.partition f).2 [] isBare [] false).boundNames ↔
      name ∈ defaults ∨ name ∈ wildcards ∨ ∃ e ∈ imports, name = e.localName := by
  rw [List.partition_eq_filter_filter]
  simp only [ModuleUse.boundNames, List.mem_append, List.mem_map, List.mem_filter]
  grind

/-- A statement that has a path uses it. -/
theorem use_eq_of_withUse {c : Prop} [Decidable c] {p : String} {u : ModuleUse} {e : Failure}
    {f : PUnit → Except Failure ModuleUses} {v : ModuleUses}
    (h : (if c then pure (withUse {} p u) else throw e >>= f) = .ok v)
    (hpaths : v.paths = [(path, use)]) : use = u := by
  split at h
  · cases h
    cases hpaths
    rfl
  · cases h

/-- The names that an import statement binds. -/
theorem boundNames_of_usesAt (hclause : IsClause t (i + 1)) (himport : t.kind i = .importWord)
    (huse : UsesAt t i path use) :
    isTypeClause t (i + 1) = false ∧ ∃ imports,
      (if t.kind (afterDefault t (i + 1)) == .braceOpen then
        Remaining t (afterDefault t (i + 1) + 1) imports else imports = []) ∧
      ∀ name, name ∈ use.boundNames ↔ (t.kind (i + 1) = .name ∧ name = t.text (i + 1)) ∨
        (t.kind (afterDefault t (i + 1)) = .star ∧ name = t.text (afterDefault t (i + 1) + 2)) ∨
        ∃ e ∈ imports, name = e.localName := by
  obtain ⟨v, hread, hpaths⟩ := huse
  unfold readAt at hread
  simp only [himport] at hread
  split at hread
  · cases hread
    cases hpaths
  unfold readImport at hread
  split at hread
  · cases hread
    cases hpaths
  next hskip =>
    refine ⟨by simp_all, ?_⟩
    have hdefault : (if t.kind (i + 1) == .name then
        ([t.text (i + 1)], if t.kind (i + 1 + 1) == .comma then i + 1 + 2 else i + 1 + 1)
        else ([], i + 1)) =
          (if t.kind (i + 1) == .name then [t.text (i + 1)] else [], afterDefault t (i + 1)) := by
      unfold afterDefault
      split <;> rfl
    rw [hdefault] at hread
    dsimp only at hread
    have hstar := hclause.star
    revert hread hstar
    generalize afterDefault t (i + 1) = j
    intro hread hstar
    split at hread
    next hkind =>
      have hkind := beq_iff_eq.1 hkind
      rw [if_neg (by simpa using hstar hkind)] at hread
      obtain rfl := use_eq_of_withUse hread hpaths
      refine ⟨[], by simp [hkind], fun name => ?_⟩
      rw [mem_boundNames_partition]
      simp [hkind]
    next hkind =>
      have hkind : t.kind j ≠ .star := by simpa using hkind
      split at hread
      next hbrace =>
        cases himports : specifiers t (j + 1) with
        | error e =>
          rw [himports] at hread
          cases hread
        | ok imports =>
          rw [himports] at hread
          obtain rfl := use_eq_of_withUse hread hpaths
          refine ⟨imports.1, ?_, fun name => ?_⟩
          · rw [if_pos hbrace]
            exact ⟨_, _, himports⟩
          · rw [mem_boundNames_partition]
            simp [hkind]
      next hbrace =>
        obtain rfl := use_eq_of_withUse hread hpaths
        refine ⟨[], by simp_all, fun name => ?_⟩
        rw [mem_boundNames_partition]
        simp [hkind]

end ModuleUses

namespace Emit

open ModuleUses EsModule

variable {s : Setting} {i : Nat} {text : String} {o : Options} {p : Prepared}

/-- Both ways of writing modules see the same clauses of types, but for `typeof`. -/
theorem isTypeClause_of_isAtTypeClause (h : isAtTypeClause ⟨s.tape, i⟩ = true) :
    isTypeClause s.tape i = true := by
  have h : (s.tape.kind i == .typeModifier || (s.tape.hasSoft i .typeName &&
    s.tape.kind (i + 1) != .comma && !s.tape.hasSoft (i + 1) .fromName)) = true := h
  unfold isTypeClause
  grind

/-- Types are left out of the file. -/
def LeavesTypesOut (s : Setting) : Prop :=
  s.options.has .typescript = true ∧ s.options.keepUnusedImports = false

theorem Arrives.skip {α β : Type} {Q : α → Nat → Prop} {e : Emit β} {f : β → Emit α}
    (h : ∀ b j, Lands s j Q (f b)) : Lands s i Q (e >>= f) :=
  .bind .anywhere fun b j _ => h b j

theorem lands_isUnusedImport (hs : LeavesTypesOut s) (name : String) :
    Lands s i (fun isUnused j => j = i ∧ isUnused = !s.valueNames.contains name)
      (isUnusedImport name) := by
  intro recur σ τ a hrecur _ hindex hrun
  cases hrun
  refine ⟨trivial, hindex, ?_⟩
  simp [hs.1, hs.2]

theorem lands_comma {e : Emit Unit} (he : Lands s i (fun _ j => j = i + 1) e) :
    Lands s i (fun _ j => j = afterComma s.tape i) (do if (← view).kind == .comma then e) := by
  refine .view ?_
  split
  next h => exact he.imp fun _ j hj => hj.trans (afterComma_of_comma (beq_iff_eq.1 h)).symm
  next h => exact .pure (afterComma_of_ne fun hkind => h (beq_iff_eq.2 hkind)).symm

theorem lands_keepOrRemove {x : Specifier} (isKept : Bool) (h : i < x.stop) :
    Lands s i (fun _ j => j = afterComma s.tape x.stop) (keepOrRemove x isKept) := by
  have hcopy (j : Nat) : Lands s j (fun _ k => k = j + 1) copy := .ofWrites
  have hremove (j : Nat) : Lands s j (fun _ k => k = j + 1) remove := .ofWrites
  unfold keepOrRemove
  split
  · refine .bind (.loopTo hcopy (Nat.le_of_lt h)) fun _ j hj => ?_
    exact hj ▸ lands_comma (hcopy j)
  · refine .bind (lands_removeTo (Nat.le_of_lt h)) fun _ j hj => ?_
    exact hj ▸ lands_comma (hremove j)

/-- The values found in a clause and those of the specifiers that remain. -/
def HasValues (s : Setting) (hasValue : Bool) (found : ClauseContent) (i : Nat) : Prop :=
  ∃ rest, Remaining s.tape i rest ∧
    (found.hasValue || rest.any (s.valueNames.contains ·.localName)) = hasValue

/-- A round writes one specifier, and its name counts if it is a value. -/
theorem lands_specifier {x : Specifier} {found : ClauseContent} {hasValue isKept : Bool}
    (hfound : HasValues s hasValue found i) (hclose : s.tape.kind i ≠ .braceClose)
    (hx : Specifier.read s.tape i = .ok x)
    (hkept : isKept = x.names?.any (s.valueNames.contains ·.2)) :
    Lands s i (fun step j => (∀ y, step = .yield y → HasValues s hasValue y j) ∧
      ∀ y, step = .done y → y.hasValue = hasValue) (do
      keepOrRemove x isKept
      return ForInStep.yield ⟨found.hasValue || isKept, true⟩) := by
  obtain ⟨imports, himports, hvalue⟩ := hfound
  obtain ⟨rest, rfl, hrest⟩ := himports.next hclose hx
  refine .bind (lands_keepOrRemove isKept (Specifier.lt_stop hx)) fun _ j hj => ?_
  refine .pure ⟨fun y hy => ⟨rest, hj ▸ hrest, ?_⟩, nofun⟩
  rw [← ForInStep.yield.inj hy, ← hvalue, List.any_append, hkept, Bool.or_assoc]
  cases x.names? <;> simp

/-- The specifiers of a clause have a value if one of their names is one. -/
theorem lands_importSpecifiers (hs : LeavesTypesOut s) {imports : List NamedImport}
    (h : Remaining s.tape i imports) (content : ClauseContent) :
    Lands s i (fun found _ => found.hasValue =
      (content.hasValue || imports.any (s.valueNames.contains ·.localName)))
      (importSpecifiers content) := by
  unfold importSpecifiers iterate
  refine .look fun _ => .iterateFor (HasValues s _) (fun found j hfound => ?_) ⟨imports, h, rfl⟩
  refine .view ?_
  split
  next hclose =>
    refine .pure ⟨nofun, fun y hy => ?_⟩
    cases hy
    obtain ⟨rest, hrest, hvalue⟩ := hfound
    rw [← hvalue, hrest.eq_nil (beq_iff_eq.1 hclose)]
    exact (Bool.or_false _).symm
  next hclose =>
    split
    · exact .afterFail
    refine .bind (takesTo_specifier (c := stripping s)).lands fun x k hx => ?_
    obtain ⟨rfl, hx⟩ := hx
    have hopen : s.tape.kind k ≠ .braceClose := fun hkind => hclose (beq_iff_eq.2 hkind)
    split
    next hnames =>
      rw [pure_bind]
      exact lands_specifier hfound hopen hx (by rw [hnames]; rfl)
    next localName hnames =>
      rw [map_eq_pure_bind, bind_assoc]
      refine .bind (lands_isUnusedImport hs localName) fun isUnused k hunused => ?_
      obtain ⟨rfl, rfl⟩ := hunused
      rw [pure_bind]
      exact lands_specifier hfound hopen hx (by simp [hnames])

/-- A default import is a value if its name is one. -/
theorem lands_defaultImport (hs : LeavesTypesOut s) :
    Lands s i (fun found j => j = afterDefault s.tape i ∧
      found.1 = (s.tape.kind i == .name && s.valueNames.contains (s.tape.text i))) defaultImport := by
  unfold defaultImport
  refine .view ?_
  split
  next hname =>
    have hname : (s.tape.kind i == .name) = false := by
      simpa [View.kind, View.token, Tape.kind] using hname
    exact .pure ⟨by simp [afterDefault, hname], by rw [hname]; rfl⟩
  next hname =>
    have hname : (s.tape.kind i == .name) = true := by
      simpa [View.kind, View.token, Tape.kind] using hname
    have hafter : afterDefault s.tape i = afterComma s.tape (i + 1) := if_pos hname
    rw [hname, hafter, Bool.true_and]
    refine .bind (lands_isUnusedImport hs _) fun isUnused j hunused => ?_
    obtain ⟨rfl, hunused⟩ := hunused
    have hvalue : s.valueNames.contains (s.tape.text j) = !isUnused := by
      rw [hunused, Bool.not_not]
      rfl
    rw [hvalue]
    cases isUnused with
    | true => exact .afterWrites fun _ => .bind (lands_comma .ofWrites) fun _ k hk => .pure ⟨hk, rfl⟩
    | false =>
      refine .afterWrites fun _ => .view ?_
      split
      next hcomma =>
        exact .afterWrites fun _ => .pure ⟨(afterComma_of_comma (beq_iff_eq.1 hcomma)).symm, rfl⟩
      next hcomma =>
        exact .pure ⟨(afterComma_of_ne fun hkind => hcomma (beq_iff_eq.2 hkind)).symm, rfl⟩

theorem lands_isDroppedImport (hs : LeavesTypesOut s) (hasValue hasSpecifier : Bool) :
    Lands s i (fun isDropped _ => isDropped = !hasValue) (isDroppedImport hasValue hasSpecifier) := by
  intro recur σ τ a hrecur _ hindex hrun
  cases hrun
  simp [hs.1, hs.2]

/-- After the default import, a clause has a value if a name that follows is one. -/
theorem lands_clauseRest (hs : LeavesTypesOut s) {imports : List NamedImport}
    (himports : if s.tape.kind i == .braceOpen then Remaining s.tape (i + 1) imports else imports = [])
    (hasDefault needsComma : Bool) :
    Lands s i (fun isDropped _ => isDropped = !(hasDefault ||
      (s.tape.kind i == .star && s.valueNames.contains (s.tape.text (i + 2))) ||
      imports.any (s.valueNames.contains ·.localName)))
      (clauseRest { hasValue := hasDefault } needsComma) := by
  have hend {k : Nat} {hasValue hasSpecifier value : Bool} (h : hasValue = value) :
      Lands s k (fun isDropped _ => isDropped = !value) (isDroppedImport hasValue hasSpecifier) :=
    h ▸ lands_isDroppedImport hs hasValue hasSpecifier
  unfold clauseRest
  refine .view ?_
  change Lands s i _ (if s.tape.kind i == .star then _ else if s.tape.kind i == .braceOpen then _ else _)
  by_cases hstar : s.tape.kind i = .star
  · rw [if_neg (by simp [hstar])] at himports
    rw [himports, hstar, if_pos BEq.rfl]
    refine .bind (lands_isUnusedImport hs _) fun isUnused j hunused => ?_
    obtain ⟨rfl, hunused⟩ := hunused
    have hvalue : s.valueNames.contains (s.tape.text (j + 2)) = !isUnused := by
      rw [hunused, Bool.not_not]
      rfl
    rw [hvalue]
    cases isUnused with
    | true => exact .skip fun _ _ => hend (by simp)
    | false =>
      rw [if_neg Bool.false_ne_true]
      split
      · exact .skip fun _ _ => .skip fun _ _ => .skip fun _ _ => .skip fun _ _ => hend (by simp)
      · exact .skip fun _ _ => .skip fun _ _ => .skip fun _ _ => hend (by simp)
  · rw [if_neg (by simpa using hstar)]
    have hstar : (s.tape.kind i == .star) = false := by simpa using hstar
    rw [hstar, Bool.false_and, Bool.or_false]
    split
    next hbrace =>
      rw [if_pos hbrace] at himports
      have hbody := lands_importSpecifiers hs himports { hasValue := hasDefault }
      split
      · exact .look fun _ => .afterWrites fun _ => .bind hbody fun content j hcontent =>
          .skip fun _ _ => hend hcontent
      · exact .afterWrites fun _ => .bind hbody fun content j hcontent =>
          .skip fun _ _ => hend hcontent
    next hbrace =>
      rw [if_neg hbrace] at himports
      exact hend (by simp [himports])

/-- An import statement stays if and only if it has no clause or binds a name that is a value. -/
theorem lands_importClause (hs : LeavesTypesOut s) (hclause : IsClause s.tape (i + 1)) {path : String}
    {use : ModuleUse} (huse : UsesAt s.tape i path use) (recur : Task → Step Unit) (σ τ : State)
    (isDropped : Bool) (hrecur : StripsTasks s recur) (hindex : σ.index = i)
    (hrun : importClause ⟨s, recur⟩ σ = .ok (isDropped, τ)) : isDropped = false ↔
      s.tape.kind (i + 1) = .string ∨ ∃ name ∈ use.boundNames, name ∈ s.valueNames := by
  suffices h : Lands s i (fun isDropped _ => isDropped = false ↔ _) importClause from
    (h recur σ τ isDropped hrecur trivial hindex hrun).2
  unfold importClause
  refine .bind (.copyExpected .importWord) fun _ j hj => ?_
  obtain ⟨rfl, himport⟩ := hj
  obtain ⟨htype, imports, himports, hnames⟩ := boundNames_of_usesAt hclause himport huse
  refine .view ?_
  split
  next htypes => exact absurd (isTypeClause_of_isAtTypeClause htypes) (Bool.eq_false_iff.1 htype)
  split
  next hstring => exact .afterWrites fun _ => .pure (iff_of_true rfl (.inl (beq_iff_eq.1 hstring)))
  next hstring =>
    split
    next hmodule => exact absurd hmodule (Bool.eq_false_iff.1 hclause.first)
    next =>
      refine .bind (lands_defaultImport hs) fun found k hfound => ?_
      obtain ⟨rfl, hfound⟩ := hfound
      refine (lands_clauseRest hs himports found.1 found.2).imp fun isDropped _ hdropped => ?_
      have hstring : s.tape.kind (i + 1) ≠ .string := fun hkind => hstring (beq_iff_eq.2 hkind)
      rw [hdropped, or_iff_right hstring, Bool.not_eq_false', hfound]
      simp only [hnames, Bool.or_eq_true, Bool.and_eq_true, beq_iff_eq, List.contains_iff_mem,
        List.any_eq_true]
      constructor
      · rintro ((⟨hname, hvalue⟩ | ⟨hstar, hvalue⟩) | ⟨e, he, hvalue⟩)
        · exact ⟨_, .inl ⟨hname, rfl⟩, hvalue⟩
        · exact ⟨_, .inr (.inl ⟨hstar, rfl⟩), hvalue⟩
        · exact ⟨_, .inr (.inr ⟨e, he, rfl⟩), hvalue⟩
      · rintro ⟨_, ⟨hname, rfl⟩ | ⟨hstar, rfl⟩ | ⟨e, he, rfl⟩, hvalue⟩
        · exact .inl (.inl ⟨hname, hvalue⟩)
        · exact .inl (.inr ⟨hstar, hvalue⟩)
        · exact .inr ⟨e, he, hvalue⟩

/-! ## Whole files -/

/-- How a file is prepared for CommonJS if types are left out. -/
theorem plan_of_prepare (himports : o.has .imports = true) (htypes : o.has .typescript = true)
    (hunused : o.keepUnusedImports = false) (h : prepare text o = .ok p) :
    ∃ file uses, AnnotatedFile.ofSource (Source.ofText text) (dialectOf o) = .ok file ∧
      ModuleUses.ofTape (Tape.ofTokens (Source.ofText text) file.tokens) = .ok uses ∧
      p.setting.plan = (planOf (Source.ofText text) o file uses).prune uses p.setting.valueNames := by
  have hdrops : (o.has .typescript && !o.keepUnusedImports) = true := by rw [htypes, hunused]; rfl
  unfold prepare at h
  cases hfile : AnnotatedFile.ofSource (Source.ofText text) (dialectOf o) with
  | error e =>
    simp only [hfile] at h
    cases h
  | ok file =>
    simp only [hfile, himports, hdrops, pure_bind, if_true] at h
    -- What is claimed for support functions is a closed computation, which must not be evaluated.
    generalize hclaimed : SupportNames.claim ⟨nameTexts (Source.ofText text) file.tokens⟩ = claimed at h
    cases huses : ModuleUses.ofTape (Tape.ofTokens (Source.ofText text) file.tokens) with
    | error e =>
      rw [huses] at h
      cases h
    | ok uses =>
      rw [huses] at h
      cases h
      refine ⟨file, uses, rfl, huses, ?_⟩
      unfold planOf
      rw [hclaimed]

/-- With types left out, there is code that loads a path if and only if one of the statements about it
exports from it, binds a name that is used as a value, or binds no name. -/
theorem codeFor_ne_empty_iff_loads (himports : o.has .imports = true) (htypes : o.has .typescript = true)
    (hunused : o.keepUnusedImports = false) (h : prepare text o = .ok p) (path : String) :
    p.setting.plan.codeFor path ≠ "" ↔ ∃ i < p.setting.tape.size, ∃ use,
      UsesAt p.setting.tape i path use ∧ use.Loads p.setting.valueNames := by
  obtain ⟨file, uses, hfile, huses, hplan⟩ := plan_of_prepare himports htypes hunused h
  obtain ⟨file', hp⟩ := exists_isPrepared h
  cases hp.parsed.symm.trans hfile
  have hread := ModuleUses.readUpTo_of_foldlM huses
  have hsame : UsesAt p.setting.tape =
      UsesAt (Tape.ofTokens (Source.ofText text) file.tokens) := by
    unfold UsesAt
    rw [ModuleUses.readAt_alike hp.alike]
  rw [hplan, planOf, ImportPlan.codeFor_prune_ne_empty_iff hread.nodup, hread.loads, hp.alike.size, hsame]

end Emit

end PlainScript
