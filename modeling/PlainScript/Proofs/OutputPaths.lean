import PlainScript.CommandLine.Run
import PlainScript.Proofs.Exports
import PlainScript.Proofs.SourceMaps

/-!
# Outputs of a run

The output of a file has the path of the file below the argument that led to it, or only its name if it
was named itself, and extensions are folded together. So two files of a run can have one output: this is
the case exactly if their relative paths agree up to the family of their extensions.
-/

namespace PlainScript

namespace Path

/-! ## Extensions -/

theorem splitExtension?_eq_some_iff {name stem extension : String} :
    splitExtension? name = some (stem, extension) ↔
      name = stem ++ "." ++ extension ∧ stem ≠ "" ∧ '.' ∉ extension.toList := by
  constructor
  · intro h
    unfold splitExtension? at h
    dsimp only at h
    have hsplit := List.takeWhile_append_dropWhile (p := (· != '.')) (l := name.toList.reverse)
    split at h
    case h_1 c rest hdrop =>
      simp only [Option.some.injEq, Prod.mk.injEq] at h
      obtain ⟨rfl, rfl⟩ := h
      rw [hdrop] at hsplit
      refine ⟨String.toList_inj.1 ?_, ?_, ?_⟩
      · have hname := congrArg List.reverse hsplit
        rw [List.reverse_reverse] at hname
        refine hname.symm.trans ?_
        simp
      · intro hempty
        simpa using congrArg String.toList hempty
      · rw [String.toList_ofList, List.mem_reverse]
        intro hdot
        simpa using List.all_eq_true.1 List.all_takeWhile _ hdot
    case h_2 => cases h
  · rintro ⟨rfl, hstem, hextension⟩
    have hall : ∀ c ∈ extension.toList.reverse, (c != '.') = true := by
      intro c hc
      simp only [bne_iff_ne, ne_eq]
      rintro rfl
      exact hextension (List.mem_reverse.1 hc)
    obtain ⟨c, rest, hrest⟩ : ∃ c rest, stem.toList.reverse = c :: rest := by
      cases h : stem.toList.reverse with
      | nil => exact absurd (String.toList_inj.1 (by simpa using h)) hstem
      | cons c rest => exact ⟨c, rest, rfl⟩
    have hback : String.ofList (c :: rest).reverse = stem := by
      rw [← hrest, List.reverse_reverse, String.ofList_toList]
    have hreversed : (stem ++ "." ++ extension).toList.reverse =
        extension.toList.reverse ++ '.' :: c :: rest := by
      simp [hrest]
    unfold splitExtension?
    simp only [hreversed, List.dropWhile_append_of_pos hall, List.takeWhile_append_of_pos hall]
    simp only [bne_self_eq_false, Bool.false_eq_true, not_false_eq_true, List.dropWhile_cons_of_neg,
      List.takeWhile_cons_of_neg, List.append_nil, List.reverse_reverse, String.ofList_toList, hback]

/-- Extensions that are one extension in outputs. -/
inductive Family where
  | plain
  | module
  | commonJs
deriving DecidableEq, Repr

/-- The extension of the outputs of a family. -/
def Family.extension : Family → String
  | .plain => "js"
  | .module => "mjs"
  | .commonJs => "cjs"

/-- The family of an extension. -/
def family? : String → Option Family
  | "js" | "jsx" | "ts" | "tsx" => some .plain
  | "mjs" | "mts" => some .module
  | "cjs" | "cts" => some .commonJs
  | _ => none

/-- The name of a file without its extension, and the family of the extension. -/
def folded? (name : String) : Option (String × Family) := do
  let (stem, extension) ← splitExtension? name
  return (stem, ← family? extension)

/-- Names that are equal, or differ within a family of extensions. -/
def NamesAlike (a b : String) : Prop := a = b ∨ ∃ parts, folded? a = some parts ∧ folded? b = some parts

theorem family?_extension (f : Family) : family? f.extension = some f := by cases f <;> rfl

theorem folded?_append {stem : String} (hstem : stem ≠ "") (f : Family) :
    folded? (stem ++ "." ++ f.extension) = some (stem, f) := by
  have hsplit : splitExtension? (stem ++ "." ++ f.extension) = some (stem, f.extension) :=
    splitExtension?_eq_some_iff.2 ⟨rfl, hstem, by cases f <;> decide⟩
  simp [folded?, hsplit, family?_extension]

theorem folded?_eq_some_iff {name stem : String} {f : Family} : folded? name = some (stem, f) ↔
    ∃ extension, splitExtension? name = some (stem, extension) ∧ family? extension = some f := by
  unfold folded?
  simp only [Option.bind_eq_bind, Option.bind_eq_some_iff, Option.pure_def, Option.some.injEq,
    Prod.mk.injEq, Prod.exists]
  grind

/-- The extension of an output is that of the family. -/
theorem outputExtension?_eq (extension : String) : (outputExtension? extension).getD extension =
    (family? extension).elim extension Family.extension := by
  unfold family?
  split <;> try rfl
  unfold outputExtension?
  split <;> simp_all

/-- What a name is written as, in terms of families. -/
theorem outputName_eq (name : String) :
    outputName name = (folded? name).elim name fun parts => parts.1 ++ "." ++ parts.2.extension := by
  unfold outputName folded?
  cases hsplit : splitExtension? name with
  | none => rfl
  | some parts =>
    obtain ⟨stem, extension⟩ := parts
    have hname := (splitExtension?_eq_some_iff.1 hsplit).1
    have hextension := outputExtension?_eq extension
    cases hfamily : family? extension <;> cases houtput : outputExtension? extension <;>
      simp_all

theorem stem_ne_of_folded? {name stem : String} {f : Family} (h : folded? name = some (stem, f)) :
    stem ≠ "" := by
  obtain ⟨extension, hsplit, -⟩ := folded?_eq_some_iff.1 h
  exact (splitExtension?_eq_some_iff.1 hsplit).2.1

/-- The output of a name in a family is in this family. -/
theorem folded?_outputName (name : String) : folded? (outputName name) = folded? name := by
  rw [outputName_eq]
  cases h : folded? name with
  | none => exact h
  | some parts => exact folded?_append (stem_ne_of_folded? h) parts.2

theorem outputName_eq_iff {a b : String} : outputName a = outputName b ↔ NamesAlike a b := by
  constructor
  · intro h
    have hfolded : folded? a = folded? b := by
      rw [← folded?_outputName a, h, folded?_outputName]
    cases hb : folded? b with
    | some parts => exact .inr ⟨parts, hfolded.trans hb, hb⟩
    | none =>
      rw [outputName_eq, outputName_eq, hfolded, hb] at h
      exact .inl h
  · rintro (rfl | ⟨parts, ha, hb⟩)
    · rfl
    · simp [outputName_eq, ha, hb]

/-! ## Components -/

theorem not_mem_of_mem_splitChars {separator : Char} {cs part : List Char}
    (h : part ∈ splitChars separator cs) : separator ∉ part := by
  induction cs generalizing part with
  | nil => simp_all [splitChars]
  | cons c rest ih =>
    cases hrest : splitChars separator rest with
    | nil => exact absurd hrest (splitChars_ne_nil separator rest)
    | cons first parts =>
      rw [hrest] at ih
      have hfirst : separator ∉ first := ih (List.mem_cons_self ..)
      rw [splitChars, hrest] at h
      dsimp only at h
      split at h
      · rcases List.mem_cons.1 h with rfl | h
        · simp
        · exact ih h
      · rename_i hne
        rcases List.mem_cons.1 h with rfl | h
        · simpa [hfirst] using Ne.symm hne
        · exact ih (List.mem_cons_of_mem _ h)

/-- A component of a path has no slash. -/
def IsComponent (name : String) : Prop := '/' ∉ name.toList

theorem isComponent_of_mem_components {path name : String} (h : name ∈ components path) :
    IsComponent name := by
  unfold components at h
  obtain ⟨part, hpart, rfl⟩ := List.mem_map.1 h
  rw [IsComponent, String.toList_ofList]
  exact not_mem_of_mem_splitChars hpart

theorem isComponent_fileName (path : String) : IsComponent (fileName path) := by
  unfold fileName
  have hne : components path ≠ [] := by simp [components, splitChars_ne_nil]
  rw [List.getLastD_eq_getLast?, List.getLast?_eq_some_getLast hne]
  exact isComponent_of_mem_components (List.getLast_mem hne)

theorem isComponent_outputName {name : String} (h : IsComponent name) : IsComponent (outputName name) := by
  rw [outputName_eq]
  cases hfolded : folded? name with
  | none => exact h
  | some parts =>
    obtain ⟨stem, f⟩ := parts
    obtain ⟨extension, hsplit, -⟩ := folded?_eq_some_iff.1 hfolded
    rw [IsComponent, (splitExtension?_eq_some_iff.1 hsplit).1] at h
    simp only [String.toList_append, List.mem_append, not_or] at h
    have hextension : '/' ∉ f.extension.toList := by cases f <;> decide
    simp only [IsComponent, Option.elim_some, String.toList_append, List.mem_append, not_or]
    exact ⟨h.1, hextension⟩

/-- Reading a path back gives its components. -/
theorem components_ofComponents {names : List String} (hne : names ≠ [])
    (h : ∀ name ∈ names, IsComponent name) : components (ofComponents names) = names := by
  induction names with
  | nil => exact absurd rfl hne
  | cons name names ih =>
    have hname : '/' ∉ name.toList := h name (List.mem_cons_self ..)
    unfold ofComponents components
    cases names with
    | nil =>
      have hone : splitChars '/' (name.toList ++ []) = [name.toList ++ []] :=
        splitChars_append hname rfl
      rw [String.intercalate_singleton, ← List.append_nil name.toList, hone]
      simp
    | cons second names =>
      have hrest := ih (by simp) fun n hn => h n (List.mem_cons_of_mem _ hn)
      unfold ofComponents components at hrest
      rw [String.intercalate_cons_cons, String.toList_append, String.toList_append, List.append_assoc]
      have hafter : splitChars '/' ("/".toList ++ (String.intercalate "/" (second :: names)).toList) =
          [] :: splitChars '/' (String.intercalate "/" (second :: names)).toList :=
        splitChars_cons_self _ _
      rw [splitChars_append hname hafter, List.map_cons, hrest]
      simp

/-- Paths whose outputs are one: the same directories, and names that are alike. -/
def Alike (xs ys : List String) : Prop :=
  xs.dropLast = ys.dropLast ∧
    ∃ a b, xs.getLast? = some a ∧ ys.getLast? = some b ∧ NamesAlike a b

theorem outputPath_eq_iff {xs ys : List String} (hxs : xs ≠ []) (hys : ys ≠ [])
    (hx : ∀ name ∈ xs, IsComponent name) (hy : ∀ name ∈ ys, IsComponent name) :
    outputPath xs = outputPath ys ↔ Alike xs ys := by
  have hparts {zs : List String} (hzs : zs ≠ []) (hz : ∀ name ∈ zs, IsComponent name) :
      components (outputPath zs) = zs.dropLast ++ [outputName (zs.getLast hzs)] := by
    unfold outputPath
    rw [List.getLast?_eq_some_getLast hzs]
    refine components_ofComponents (by simp) fun name hname => ?_
    rcases List.mem_append.1 hname with hname | hname
    · exact hz name (List.mem_of_mem_dropLast hname)
    · rw [List.mem_singleton.1 hname]
      exact isComponent_outputName (hz _ (List.getLast_mem hzs))
  unfold Alike
  rw [List.getLast?_eq_some_getLast hxs, List.getLast?_eq_some_getLast hys]
  constructor
  · intro h
    have heq := congrArg components h
    rw [hparts hxs hx, hparts hys hy] at heq
    obtain ⟨hdirectories, hnames⟩ := List.append_inj_left' heq rfl, List.append_inj_right' heq rfl
    exact ⟨hdirectories, _, _, rfl, rfl, outputName_eq_iff.1 (List.singleton_inj.1 hnames)⟩
  · rintro ⟨hdirectories, a, b, ha, hb, halike⟩
    cases ha
    cases hb
    unfold outputPath
    rw [List.getLast?_eq_some_getLast hxs, List.getLast?_eq_some_getLast hys]
    simp only [hdirectories, outputName_eq_iff.2 halike]

theorem join_inj {directory a b : String} : join directory a = join directory b ↔ a = b := by
  unfold join
  split <;> simp [String.append_right_inj]

end Path

/-- The names of files and directories have no slashes. -/
def FileTree.Sound (t : FileTree) : Prop :=
  ∀ file ∈ t.files, ∀ name ∈ file.1, Path.IsComponent name

namespace CommandLine

/-! ## Discovery -/

/-- A file that a path leads to, and its place below the path: the file that the path names, or one in
the directory that it names. -/
inductive LeadsTo (t : FileTree) (path : String) : String → List String → Prop where
  | named (h : t.kind? path = some .file) : LeadsTo t path path [Path.fileName path]
  | below {place : List String} (h : t.kind? path = some .directory) (hmem : place ∈ t.filesBelow path) :
    LeadsTo t path (Path.join path (Path.ofComponents place)) place

/-- A place is not empty, and its names have no slashes. -/
theorem LeadsTo.components {t : FileTree} {path input : String} {place : List String} (ht : t.Sound)
    (h : LeadsTo t path input place) : place ≠ [] ∧ ∀ name ∈ place, Path.IsComponent name := by
  cases h with
  | named => exact ⟨by simp, by simp [Path.isComponent_fileName]⟩
  | below _ hmem =>
    unfold FileTree.filesBelow at hmem
    split at hmem
    · cases hmem
    · obtain ⟨file, hfile, rfl⟩ := List.mem_map.1 hmem
      obtain ⟨hfile, hbelow⟩ := List.mem_filter.1 hfile
      simp only [Bool.and_eq_true, decide_eq_true_eq] at hbelow
      refine ⟨?_, fun name hname => ht file hfile name (List.mem_of_mem_drop hname)⟩
      simpa using hbelow.2

/-- What comes first succeeds, and then the rest does. -/
theorem exists_of_bind_run {ε σ α β : Type} {x : ExceptT ε (StateM σ) α}
    {f : α → ExceptT ε (StateM σ) β} {s s' : σ} {b : β}
    (h : (x >>= f).run.run s = (.ok b, s')) :
    ∃ a s₁, x.run.run s = (.ok a, s₁) ∧ (f a).run.run s₁ = (.ok b, s') := by
  rw [ExceptT.run_bind, StateT.run_bind] at h
  cases hx : x.run.run s with
  | mk answer s₁ =>
    simp only [hx] at h
    cases answer with
    | ok a => exact ⟨a, s₁, rfl, h⟩
    | error e => cases h

/-- The jobs at a path are those for the files it leads to, and the tree stays as it is. -/
theorem leadsTo_of_jobsAt {t t' : FileTree} {a : Arguments} {filter : Filter} {path : String}
    {jobs : List Job}
    (h : (jobsAt FileTree.fileSystem a filter path).run.run t = (.ok jobs, t')) :
    t' = t ∧ ∃ found : List (String × List String),
      jobs = found.map (fun file => jobFor a file.1 file.2) ∧
        ∀ file ∈ found, LeadsTo t path file.1 file.2 := by
  obtain ⟨kind?, t₁, hkind, h⟩ := exists_of_bind_run h
  cases hkind
  cases hpath : t.kind? path with
  | none => rw [hpath] at h; cases h
  | some kind =>
    rw [hpath] at h
    cases kind with
    | file =>
      cases h
      exact ⟨rfl, [(path, [Path.fileName path])], rfl, by simp [LeadsTo.named hpath]⟩
    | directory =>
      obtain ⟨files, t₁, hfiles, h⟩ := exists_of_bind_run h
      cases hfiles
      cases h
      refine ⟨rfl, ((((t.filesBelow path).mergeSort Path.ble).filter filter.admits).map fun place =>
        (Path.join path (Path.ofComponents place), place)), by simp, fun file hfile => ?_⟩
      obtain ⟨place, hplace, rfl⟩ := List.mem_map.1 hfile
      exact .below hpath (List.mem_mergeSort.1 (List.mem_filter.1 hplace).1)

/-- All paths are looked at in the same tree. -/
theorem leadsTo_of_mapM_jobsAt {t t' : FileTree} {a : Arguments} {filter : Filter}
    {paths : List String} {jobs : List (List Job)}
    (h : (paths.mapM (jobsAt FileTree.fileSystem a filter)).run.run t = (.ok jobs, t')) :
    t' = t ∧ ∃ found : List (String × List String),
      jobs.flatten = found.map (fun file => jobFor a file.1 file.2) ∧
        ∀ file ∈ found, ∃ path ∈ paths, LeadsTo t path file.1 file.2 := by
  induction paths generalizing jobs t' with
  | nil =>
    cases h
    exact ⟨rfl, [], rfl, by simp⟩
  | cons path paths ih =>
    rw [List.mapM_cons] at h
    obtain ⟨here, t₁, hhere, hthen⟩ := exists_of_bind_run h
    obtain ⟨rest, t₂, hrest, hlast⟩ := exists_of_bind_run hthen
    obtain ⟨rfl, found, rfl, hfound⟩ := leadsTo_of_jobsAt hhere
    obtain ⟨rfl, more, hmore, hleads⟩ := ih hrest
    cases hlast
    refine ⟨rfl, found ++ more, by simp [hmore], fun file hfile => ?_⟩
    rcases List.mem_append.1 hfile with hfile | hfile
    · exact ⟨path, List.mem_cons_self, hfound file hfile⟩
    · obtain ⟨path', hpath, hfile⟩ := hleads file hfile
      exact ⟨path', List.mem_cons_of_mem _ hpath, hfile⟩

theorem leadsTo_of_discover {t t' : FileTree} {a : Arguments} {jobs : List Job}
    (h : (discover FileTree.fileSystem a).run.run t = (.ok jobs, t')) :
    t' = t ∧ ∃ found : List (String × List String),
      jobs = found.map (fun file => jobFor a file.1 file.2) ∧
        ∀ file ∈ found, ∃ path ∈ a.paths, LeadsTo t path file.1 file.2 := by
  have hglobs {patterns : List String} {globs : List Glob} {s s' : FileTree}
      (h : (readGlobs (m := StateM FileTree) patterns).run.run s = (.ok globs, s')) : s' = s := by
    unfold readGlobs at h
    split at h <;> cases h
    rfl
  obtain ⟨includes, t₁, hincludes, h⟩ := exists_of_bind_run h
  cases hglobs hincludes
  obtain ⟨excludes, t₂, hexcludes, h⟩ := exists_of_bind_run h
  cases hglobs hexcludes
  obtain ⟨lists, t₃, hlists, h⟩ := exists_of_bind_run h
  cases h
  exact leadsTo_of_mapM_jobsAt hlists

/-- The jobs of a run with a directory for outputs are those for the files that its paths lead to. Two
of them have one output if and only if the places of their files agree up to the families of their
extensions; so no output is written twice if and only if no two places do. -/
theorem outputs_eq_iff_alike {t t' : FileTree} {a : Arguments} {directory : String} {jobs : List Job}
    (ht : t.Sound) (hdirectory : a.outDir? = some directory)
    (h : (discover FileTree.fileSystem a).run.run t = (.ok jobs, t')) :
    ∃ found : List (String × List String),
      jobs = found.map (fun file => jobFor a file.1 file.2) ∧
      (∀ file ∈ found, ∃ path ∈ a.paths, LeadsTo t path file.1 file.2) ∧
      (∀ x ∈ found, ∀ y ∈ found,
        (jobFor a x.1 x.2).output? = (jobFor a y.1 y.2).output? ↔ Path.Alike x.2 y.2) ∧
      ((jobs.map (·.output?)).Nodup ↔ found.Pairwise fun x y => ¬ Path.Alike x.2 y.2) := by
  obtain ⟨-, found, rfl, hleads⟩ := leadsTo_of_discover h
  have halike : ∀ x ∈ found, ∀ y ∈ found,
      ((jobFor a x.1 x.2).output? = (jobFor a y.1 y.2).output? ↔ Path.Alike x.2 y.2) := by
    intro x hx y hy
    obtain ⟨_, -, hpathx⟩ := hleads x hx
    obtain ⟨_, -, hpathy⟩ := hleads y hy
    obtain ⟨hnex, hnamesx⟩ := hpathx.components ht
    obtain ⟨hney, hnamesy⟩ := hpathy.components ht
    rw [← Path.outputPath_eq_iff hnex hney hnamesx hnamesy]
    simp only [jobFor, hdirectory, Option.map_some, Option.some.injEq]
    exact Path.join_inj
  refine ⟨found, rfl, hleads, halike, ?_⟩
  rw [List.map_map, List.Nodup, List.pairwise_map]
  constructor
  · intro hnodup
    exact hnodup.imp_of_mem fun hx hy hne halike' => hne ((halike _ hx _ hy).2 halike')
  · intro hpairs
    exact hpairs.imp_of_mem fun hx hy hnot heq => hnot ((halike _ hx _ hy).1 heq)

/-- Two files of one name, and one that differs from the first in its extension only. -/
def namesakes : FileTree where
  files := [(["x", "a.ts"], ⟨#[]⟩), (["y", "a.ts"], ⟨#[]⟩), (["x", "a.js"], ⟨#[]⟩)]

theorem sound_namesakes : namesakes.Sound := by
  simp [FileTree.Sound, namesakes, Path.IsComponent]

/-- The arguments of a run over all of them. -/
def nameThem : Arguments := { paths := ["x/a.ts", "y/a.ts", "x/a.js"], outDir? := some "out" }

/-- Their jobs. -/
def namesakeJobs : List Job :=
  [⟨"x/a.ts", some "out/a.js"⟩, ⟨"y/a.ts", some "out/a.js"⟩, ⟨"x/a.js", some "out/a.js"⟩]

theorem discover_namesakes :
    ((discover FileTree.fileSystem nameThem).run.run namesakes).1 = .ok namesakeJobs :=
  eq_ok_of_toOption (by decide +kernel)

theorem outputs_eq_iff_alike_namesakes :
    ∃ found : List (String × List String),
      namesakeJobs = found.map (fun file => jobFor nameThem file.1 file.2) ∧
      (∀ file ∈ found, ∃ path ∈ nameThem.paths, LeadsTo namesakes path file.1 file.2) ∧
      (∀ x ∈ found, ∀ y ∈ found,
        (jobFor nameThem x.1 x.2).output? = (jobFor nameThem y.1 y.2).output? ↔
          Path.Alike x.2 y.2) ∧
      ((namesakeJobs.map (·.output?)).Nodup ↔ found.Pairwise fun x y => ¬ Path.Alike x.2 y.2) :=
  outputs_eq_iff_alike sound_namesakes rfl (Prod.eq_iff_fst_eq_snd_eq.2 ⟨discover_namesakes, rfl⟩)

/-- Distinct files of a run can have one output. -/
theorem not_outputs_distinct :
    ¬ ∀ (t t' : FileTree) (a : Arguments) (jobs : List Job), t.Sound → a.outDir?.isSome →
      a.paths.Nodup → (discover FileTree.fileSystem a).run.run t = (.ok jobs, t') →
      jobs.Pairwise fun x y => x.input ≠ y.input → x.output? ≠ y.output? := by
  intro h
  have hpairs := h namesakes _ nameThem namesakeJobs sound_namesakes rfl (by decide)
    (Prod.eq_iff_fst_eq_snd_eq.2 ⟨discover_namesakes, rfl⟩)
  simp [namesakeJobs] at hpairs

end CommandLine

end PlainScript
