import Mathlib
import PlainScript.CommandLine.Run

/-!
# Jobs that fail

A job that fails leaves the files as they were, with one exception. The source map is written before the
output, so a job whose output cannot be written has left its map behind.
-/

namespace PlainScript

namespace FileTree

/-! ## Trees that grow -/

/-- Whatever is a file or a directory in the first tree is one in the second. -/
structure Grows (t t' : FileTree) : Prop where
  directories : t.directories ⊆ t'.directories
  files : t.files.map (·.1) ⊆ t'.files.map (·.1)

variable {t t' u : FileTree}

theorem Grows.trans (h : t.Grows t') (h' : t'.Grows u) : t.Grows u :=
  ⟨List.Subset.trans h.directories h'.directories, List.Subset.trans h.files h'.files⟩

theorem Grows.isDirectory {place : List String} (h : t.Grows t') (hplace : t.isDirectory place = true) :
    t'.isDirectory place = true := by
  simp only [FileTree.isDirectory, Bool.or_eq_true, List.any_eq_true] at hplace ⊢
  obtain (hempty | ⟨directory, hmem, hbelow⟩) | ⟨file, hmem, hbelow⟩ := hplace
  · exact .inl (.inl hempty)
  · exact .inl (.inr ⟨directory, h.directories hmem, hbelow⟩)
  · obtain ⟨file', hmem', heq⟩ := List.mem_map.1 (h.files (List.mem_map_of_mem hmem))
    exact .inr ⟨file', hmem', by rwa [heq]⟩

theorem Grows.follow? {place next : List String} {component : String} (h : t.Grows t')
    (hnext : t.follow? place component = some next) : t'.follow? place component = some next := by
  unfold FileTree.follow? at hnext ⊢
  by_cases hplace : t.isDirectory place = true
  · rw [hplace] at hnext
    rwa [h.isDirectory hplace]
  · simp [hplace] at hnext

theorem Grows.foldlM_follow? {place last : List String} {components : List String} (h : t.Grows t')
    (hlast : components.foldlM t.follow? place = some last) :
    components.foldlM t'.follow? place = some last := by
  induction components generalizing place with
  | nil => exact hlast
  | cons component components ih =>
    rw [List.foldlM_cons] at hlast ⊢
    obtain ⟨next, hnext, hlast⟩ := Option.bind_eq_some_iff.1 hlast
    exact Option.bind_eq_some_iff.2 ⟨next, h.follow? hnext, ih hlast⟩

theorem Grows.locate? {path : String} {place : List String} (h : t.Grows t')
    (hplace : t.locate? path = some place) : t'.locate? path = some place := by
  obtain ⟨components, hcomponents, hplace⟩ := Option.bind_eq_some_iff.1 hplace
  exact Option.bind_eq_some_iff.2 ⟨components, hcomponents, h.foldlM_follow? hplace⟩

/-! ## Writing a file -/

/-- Making directories changes no file, and leads to where the components do. -/
theorem makeDirectories_spec {place : List String} {components : List String}
    {last? : Option (List String)} (h : makeDirectories (t, place) components = (t', last?)) :
    t.Grows t' ∧ t'.files = t.files ∧
      ∀ last, last? = some last → components.foldlM t'.follow? place = some last := by
  induction components generalizing t place with
  | nil =>
    cases h
    exact ⟨⟨List.Subset.refl _, List.Subset.refl _⟩, rfl, fun _ => id⟩
  | cons component components ih =>
    rw [makeDirectories] at h
    split at h
    next =>
      cases h
      exact ⟨⟨List.Subset.refl _, List.Subset.refl _⟩, rfl, fun _ hlast => by cases hlast⟩
    next next henter =>
      obtain ⟨place', hfollow, henter⟩ := Option.bind_eq_some_iff.1 henter
      split at henter
      next => cases henter
      next =>
        cases henter
        obtain ⟨hgrows, hfiles, hlast⟩ := ih h
        have hfirst : t.Grows { t with directories := place' :: t.directories } :=
          ⟨List.subset_cons_self _ _, List.Subset.refl _⟩
        refine ⟨hfirst.trans hgrows, hfiles, fun last heq => ?_⟩
        rw [List.foldlM_cons, (hfirst.trans hgrows).follow? hfollow]
        exact hlast last heq

theorem content?_setContent_self (t : FileTree) (place : List String) (content : ByteArray) :
    (t.setContent place content).content? place = some content := by
  simp [content?, setContent]

theorem content?_setContent_of_ne {place other : List String} (content : ByteArray)
    (h : other ≠ place) : (t.setContent place content).content? other = t.content? other := by
  have hne : (other == place) = false := beq_eq_false_iff_ne.2 h
  have hfilter (files : List (List String × ByteArray)) :
      (files.filter (·.1 != place)).lookup other = files.lookup other := by
    induction files with
    | nil => rfl
    | cons file files ih =>
      obtain ⟨path, bytes⟩ := file
      by_cases hpath : path = place
      · rw [List.filter_cons_of_neg (by simpa using hpath), ih, List.lookup_cons, hpath, hne]
      · rw [List.filter_cons_of_pos (by simpa using hpath), List.lookup_cons, List.lookup_cons, ih]
  rw [content?, setContent, List.lookup_cons, hne, hfilter, content?]

theorem grows_setContent (t : FileTree) (place : List String) (content : ByteArray) :
    t.Grows (t.setContent place content) := by
  refine ⟨List.Subset.refl _, fun path hpath => ?_⟩
  obtain ⟨file, hfile, rfl⟩ := List.mem_map.1 hpath
  by_cases heq : file.1 = place
  · exact heq ▸ List.mem_cons_self
  · exact List.mem_cons_of_mem _
      (List.mem_map_of_mem (List.mem_filter.2 ⟨hfile, by simpa using heq⟩))

theorem eq_dropLast_append_of_relativeComponents? {path : String} {components : List String}
    (h : relativeComponents? path = some components) :
    components = components.dropLast ++ [components.getLastD ""] := by
  unfold relativeComponents? at h
  split at h
  next => cases h
  next =>
    cases h
    have hne : Path.components path ≠ [] := by simp [Path.components, splitChars_ne_nil]
    rw [List.getLastD_eq_getLast?, List.getLast?_eq_some_getLast hne, Option.getD_some,
      List.dropLast_append_getLast]

/-- A file that could not be written leaves all files as they were. One that was written is where its
path leads, and all other files are as they were. -/
theorem writeText_spec {path text : String} {done : Bool} (h : t.writeText path text = (done, t')) :
    t.Grows t' ∧ (done = false → t'.files = t.files) ∧
      (done = true → ∃ place, t'.locate? path = some place ∧ t'.content? place = some text.toUTF8 ∧
        ∀ other, other ≠ place → t'.content? other = t.content? other) := by
  have hsame : t.Grows t := ⟨List.Subset.refl _, List.Subset.refl _⟩
  unfold writeText at h
  split at h
  next =>
    cases h
    exact ⟨hsame, fun _ => rfl, by simp⟩
  next components hcomponents =>
    have hparts := eq_dropLast_append_of_relativeComponents? hcomponents
    split at h
    next u hmade =>
      cases h
      obtain ⟨hgrows, hfiles, -⟩ := makeDirectories_spec hmade
      exact ⟨hgrows, fun _ => hfiles, by simp⟩
    next u directory hmade =>
      obtain ⟨hgrows, hfiles, hlast⟩ := makeDirectories_spec hmade
      split at h
      next =>
        cases h
        exact ⟨hgrows, fun _ => hfiles, by simp⟩
      next place hplace =>
        split at h
        next =>
          cases h
          exact ⟨hgrows, fun _ => hfiles, by simp⟩
        next =>
          cases h
          have hset := grows_setContent u place text.toUTF8
          have hlocate : u.locate? path = some place := by
            have hfold : components.foldlM u.follow? [] = some place := by
              rw [hparts, List.foldlM_append, hlast directory rfl]
              simpa using hplace
            rw [locate?, hcomponents]
            exact hfold
          refine ⟨hgrows.trans hset, by simp, fun _ => ⟨place, hset.locate? hlocate,
            content?_setContent_self u place _, fun other hne => ?_⟩⟩
          rw [content?_setContent_of_ne _ hne, content?, hfiles, content?]

/-- What was written at a path is read there. -/
theorem readText?_of_content? {path text : String} {place : List String}
    (hplace : t.locate? path = some place) (hcontent : t.content? place = some text.toUTF8) :
    t.readText? path = some text := by
  have htext : String.fromUTF8? text.toUTF8 = some text := by
    rw [String.fromUTF8?, dif_pos (show text.toUTF8.IsValidUTF8 from text.isValidUTF8)]
    rfl
  simp only [readText?, hplace, Option.bind_eq_bind, Option.bind_some, hcontent, htext]

end FileTree

namespace CommandLine

open FileTree

/-- How a job fails in a tree, and the tree that it leaves. -/
inductive Fails (t : FileTree) (o : Options) (withMaps : Bool) (job : Job) :
    JobError → FileTree → Prop where
  | unreadable (h : t.readText? job.input = none) : Fails t o withMaps job (.unreadable job.input) t
  | refused {text : String} {e : TransformError} (h : t.readText? job.input = some text)
    (hout : Output.ofText text (optionsFor o withMaps job) = .error e) :
    Fails t o withMaps job (.transform e) t
  | output {output code : String} {t' : FileTree} (hmaps : withMaps = false)
    (houtput : job.output? = some output) (hwrite : t.writeText output code = (false, t')) :
    Fails t o withMaps job (.unwritable output) t'
  | map {output json : String} {t' : FileTree} (hmaps : withMaps = true)
    (houtput : job.output? = some output) (hwrite : t.writeText (output ++ ".map") json = (false, t')) :
    Fails t o withMaps job (.unwritable (output ++ ".map")) t'
  | outputAfterMap {text output code : String} {out : Output} {map : SourceMap} {t₁ t' : FileTree}
    (h : t.readText? job.input = some text)
    (hout : Output.ofText text (optionsFor o withMaps job) = .ok out)
    (hmap : out.sourceMap? = some map) (hmaps : withMaps = true) (houtput : job.output? = some output)
    (hfirst : t.writeText (output ++ ".map") map.toJson = (true, t₁))
    (hwrite : t₁.writeText output code = (false, t')) :
    Fails t o withMaps job (.unwritable output) t'

theorem isSome_sourceMap? {text output : String} {o : Options} {job : Job} {out : Output}
    (houtput : job.output? = some output)
    (h : Output.ofText text (optionsFor o true job) = .ok out) : out.sourceMap?.isSome = true := by
  unfold Output.ofText optionsFor at h
  rw [houtput] at h
  split at h
  next => cases h
  next =>
    cases h
    rfl

/-- What comes first fails, or it succeeds and the rest fails. -/
theorem error_of_bind_run {ε σ α β : Type} {x : ExceptT ε (StateM σ) α}
    {f : α → ExceptT ε (StateM σ) β} {s s' : σ} {e : ε}
    (h : (x >>= f).run.run s = (.error e, s')) : x.run.run s = (.error e, s') ∨
      ∃ a s₁, x.run.run s = (.ok a, s₁) ∧ (f a).run.run s₁ = (.error e, s') := by
  rw [ExceptT.run_bind, StateT.run_bind] at h
  cases hx : x.run.run s with
  | mk answer s₁ =>
    simp only [hx] at h
    cases answer with
    | ok a => exact .inr ⟨a, s₁, rfl, h⟩
    | error e =>
      cases h
      exact .inl rfl

theorem run_writeFile (t : FileTree) (path text : String) :
    (writeFile fileSystem path text).run.run t =
      (if (t.writeText path text).1 then .ok () else .error (.unwritable path),
        (t.writeText path text).2) := by
  have hwrite : (liftM (fileSystem.writeText path text) : ExceptT JobError (StateM FileTree) Bool).run.run
      t = (.ok (t.writeText path text).1, (t.writeText path text).2) := rfl
  rw [writeFile, ExceptT.run_bind, StateT.run_bind, hwrite]
  rcases t.writeText path text with ⟨done, t'⟩
  cases done <;> rfl

theorem writeText_of_writeFile_error {t t' : FileTree} {path text : String} {e : JobError}
    (h : (writeFile fileSystem path text).run.run t = (.error e, t')) :
    e = .unwritable path ∧ t.writeText path text = (false, t') := by
  rw [run_writeFile] at h
  rcases hwrite : t.writeText path text with ⟨done, u⟩
  rw [hwrite] at h
  cases done <;> cases h
  exact ⟨rfl, rfl⟩

theorem writeText_of_writeFile_ok {t t' : FileTree} {path text : String}
    (h : (writeFile fileSystem path text).run.run t = (.ok (), t')) :
    t.writeText path text = (true, t') := by
  rw [run_writeFile] at h
  rcases hwrite : t.writeText path text with ⟨done, u⟩
  rw [hwrite] at h
  cases done <;> cases h
  rfl

/-- A write that nothing but an answer follows. -/
theorem writeText_of_lastWrite {t t' : FileTree} {path text : String} {e : JobError}
    (h : ((writeFile fileSystem path text : ExceptT JobError (StateM FileTree) Unit) >>=
      fun _ => pure (none : Option String)).run.run t = (.error e, t')) :
    e = .unwritable path ∧ t.writeText path text = (false, t') := by
  obtain hwrite | ⟨_, _, _, hlast⟩ := error_of_bind_run h
  · exact writeText_of_writeFile_error hwrite
  · cases hlast

theorem fails_of_runJob {t t' : FileTree} {o : Options} {withMaps : Bool} {job : Job} {e : JobError}
    (h : (runJob fileSystem o withMaps job).run.run t = (.error e, t')) :
    Fails t o withMaps job e t' := by
  obtain hread | ⟨text?, t₁, hread, h⟩ := error_of_bind_run h
  · cases hread
  · cases hread
    cases htext : t.readText? job.input with
    | none =>
      rw [htext] at h
      cases h
      exact .unreadable htext
    | some text =>
      rw [htext] at h
      dsimp only at h
      cases hout : Output.ofText text (optionsFor o withMaps job) with
      | error e =>
        rw [hout] at h
        cases h
        exact .refused htext hout
      | ok out =>
        rw [hout] at h
        dsimp only at h
        cases houtput : job.output? with
        | none =>
          rw [houtput] at h
          cases h
        | some output =>
          rw [houtput] at h
          cases withMaps with
          | false =>
            have hlast : e = .unwritable output ∧ t.writeText output out.code = (false, t') := by
              cases hmap : out.sourceMap? <;> rw [hmap] at h <;> exact writeText_of_lastWrite h
            obtain ⟨rfl, hwrite⟩ := hlast
            exact .output rfl houtput hwrite
          | true =>
            have hsome : out.sourceMap?.isSome = true := isSome_sourceMap? houtput hout
            obtain ⟨map, hmap⟩ := Option.isSome_iff_exists.1 hsome
            rw [hmap] at h
            obtain hfirst | ⟨_, t₁, hfirst, h⟩ := error_of_bind_run h
            · obtain ⟨rfl, hwrite⟩ := writeText_of_writeFile_error hfirst
              exact .map rfl houtput hwrite
            · obtain ⟨rfl, hwrite⟩ := writeText_of_lastWrite h
              exact .outputAfterMap htext hout hmap rfl houtput (writeText_of_writeFile_ok hfirst) hwrite

/-- A job that fails has left every file as it was, unless maps were asked for and what could not be
written is the output itself. In that case the map of the output has been written, and all other files
are as they were. -/
theorem contents_of_failed_job {t t' : FileTree} {o : Options} {withMaps : Bool} {job : Job}
    {e : JobError} (h : (runJob fileSystem o withMaps job).run.run t = (.error e, t')) :
    (¬(withMaps = true ∧ ∃ output, job.output? = some output ∧ e = .unwritable output) →
      ∀ place, t'.content? place = t.content? place) ∧
    ∀ output, withMaps = true → job.output? = some output → e = .unwritable output →
      ∃ text out map, t.readText? job.input = some text ∧
        Output.ofText text (optionsFor o withMaps job) = .ok out ∧ out.sourceMap? = some map ∧
        t'.readText? (output ++ ".map") = some map.toJson ∧
        ∀ place, t'.locate? (output ++ ".map") ≠ some place →
          t'.content? place = t.content? place := by
  have hsame {u u' : FileTree} (hfiles : u'.files = u.files) (place : List String) :
      u'.content? place = u.content? place := by
    rw [content?, hfiles, content?]
  cases fails_of_runJob h with
  | unreadable => exact ⟨fun _ _ => rfl, by simp⟩
  | refused => exact ⟨fun _ _ => rfl, by simp⟩
  | output hmaps houtput hwrite =>
    exact ⟨fun _ => hsame ((writeText_spec hwrite).2.1 rfl), by simp [hmaps]⟩
  | @map path json _ hmaps houtput hwrite =>
    refine ⟨fun _ => hsame ((writeText_spec hwrite).2.1 rfl), fun output _ houtput' heq => ?_⟩
    -- The path of the map is longer than that of the output.
    rw [houtput] at houtput'
    cases houtput'
    have hlength := congrArg String.length (JobError.unwritable.inj heq)
    simp at hlength
  | @outputAfterMap text path code out map t₁ _ htext hout hmap hmaps houtput hfirst hwrite =>
    refine ⟨fun hnot => absurd ⟨hmaps, path, houtput, rfl⟩ hnot, fun output _ houtput' _ => ?_⟩
    rw [houtput] at houtput'
    cases houtput'
    obtain ⟨place, hplace, hcontent, hothers⟩ := (writeText_spec hfirst).2.2 rfl
    obtain ⟨hgrows, hfiles, -⟩ := writeText_spec hwrite
    have hplace' : t'.locate? (path ++ ".map") = some place := hgrows.locate? hplace
    refine ⟨text, out, map, htext, hout, hmap,
      readText?_of_content? hplace' ((hsame (hfiles rfl) place).trans hcontent), fun other hother => ?_⟩
    have hne : other ≠ place := fun heq => hother (heq ▸ hplace')
    exact (hsame (hfiles rfl) other).trans (hothers other hne)

/-- A file to work on, and a directory where its output is to go. -/
def blocked : FileTree where
  files := [(["a.ts"], "let a = 1;".toUTF8), (["out", "a.js", "x"], "x".toUTF8)]

def blockedJob : Job := ⟨"a.ts", some "out/a.js"⟩

theorem eq_error_of_failures {answer : Except JobError (Option String)} {jobs : List Job}
    {e : JobError} (h : (reportOf {} jobs [answer]).failures = [e]) : answer = .error e := by
  cases answer <;> cases h
  rfl

theorem runJob_blocked : ∃ t', (runJob fileSystem {} true blockedJob).run.run blocked =
      (.error (.unwritable "out/a.js"), t') ∧ t'.isFile ["out", "a.js.map"] = true := by
  have hanswer := eq_error_of_failures (show (reportOf {} [blockedJob]
    [((runJob fileSystem {} true blockedJob).run.run blocked).1]).failures = [.unwritable "out/a.js"] by
      decide +kernel)
  have hmap : ((runJob fileSystem {} true blockedJob).run.run blocked).2.isFile
      ["out", "a.js.map"] = true := by
    decide +kernel
  generalize (runJob fileSystem {} true blockedJob).run.run blocked = ending at hanswer hmap
  exact ⟨ending.2, Prod.ext hanswer rfl, hmap⟩

theorem contents_of_failed_job_blocked :
    ∃ (t' : FileTree) (map : SourceMap), (runJob fileSystem {} true blockedJob).run.run blocked =
      (.error (.unwritable "out/a.js"), t') ∧
        t'.readText? ("out/a.js" ++ ".map") = some map.toJson := by
  obtain ⟨t', hrun, -⟩ := runJob_blocked
  obtain ⟨-, -, map, -, -, -, hmap, -⟩ :=
    (contents_of_failed_job hrun).2 "out/a.js" rfl rfl rfl
  exact ⟨t', map, hrun, hmap⟩

/-- A job that fails can leave a file that was not there. -/
theorem not_unchanged_of_failed_job :
    ¬ ∀ (t t' : FileTree) (o : Options) (withMaps : Bool) (job : Job) (e : JobError),
      (runJob fileSystem o withMaps job).run.run t = (.error e, t') →
        ∀ place, t'.content? place = t.content? place := by
  intro h
  obtain ⟨t', hrun, hmap⟩ := runJob_blocked
  have hbefore : blocked.isFile ["out", "a.js.map"] = false := by decide
  rw [isFile, h blocked t' {} true blockedJob _ hrun, ← isFile, hbefore] at hmap
  cases hmap

end CommandLine

end PlainScript
