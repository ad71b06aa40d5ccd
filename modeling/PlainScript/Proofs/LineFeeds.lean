import Mathlib
import PlainScript.Output

/-!
# Line feeds

How many line feeds the texts have that the writer puts together. What it makes up itself has none:
the names it claims, the strings it quotes and the functions it adds. Gaps keep theirs in every form
they are written in, and so do the texts in elements.
-/

namespace PlainScript

/-- The number of line feeds in a text. -/
def lineFeeds (text : String) : Nat := text.toList.count '\n'

theorem lineFeeds_ofList (cs : List Char) : lineFeeds (String.ofList cs) = cs.count '\n' := by
  simp [lineFeeds]

@[simp] theorem lineFeeds_append (a b : String) : lineFeeds (a ++ b) = lineFeeds a + lineFeeds b := by
  simp [lineFeeds]

theorem lineFeeds_append_eq_zero_iff {a b : String} :
    lineFeeds (a ++ b) = 0 ↔ lineFeeds a = 0 ∧ lineFeeds b = 0 := by
  rw [lineFeeds_append, Nat.add_eq_zero_iff]

theorem lineFeeds_ofList_eq_zero {cs : List Char} (h : cs.all (· != '\n') = true) :
    lineFeeds (String.ofList cs) = 0 := by
  rw [lineFeeds_ofList, List.count_eq_zero]
  intro hmem
  exact absurd (List.all_eq_true.1 h _ hmem) (by decide)

theorem lineFeeds_eq_zero_iff {text : String} : lineFeeds text = 0 ↔ '\n' ∉ text.toList :=
  List.count_eq_zero

theorem lineFeeds_join (texts : List String) :
    lineFeeds (String.join texts) = (texts.map lineFeeds).sum := by
  induction texts with
  | nil => decide
  | cons text texts ih => rw [String.join_cons, lineFeeds_append, ih, List.map_cons, List.sum_cons]

theorem lineFeeds_join_eq_zero {texts : List String} (h : ∀ text ∈ texts, lineFeeds text = 0) :
    lineFeeds (String.join texts) = 0 := by
  simpa [lineFeeds_join, List.sum_eq_zero_iff_forall_eq_nat] using h

theorem lineFeeds_intercalate {separator : String} {texts : List String}
    (hseparator : lineFeeds separator = 0) (h : ∀ text ∈ texts, lineFeeds text = 0) :
    lineFeeds (String.intercalate separator texts) = 0 := by
  induction texts with
  | nil => simp [lineFeeds]
  | cons text texts ih =>
    cases texts with
    | nil => simpa [String.intercalate_singleton] using h
    | cons other texts =>
      rw [String.intercalate_cons_cons, lineFeeds_append, lineFeeds_append, hseparator,
        h text List.mem_cons_self, ih fun more hmore => h more (List.mem_cons_of_mem _ hmore)]

/-! ## Gaps -/

theorem lineFeeds_lineBreaksOf (text : String) : lineFeeds (lineBreaksOf text) = lineFeeds text := by
  rw [lineBreaksOf, lineFeeds_ofList, lineFeeds, List.count_filter]
  rfl

theorem count_withoutFlowMark (cs : List Char) : (withoutFlowMark cs).count '\n' = cs.count '\n' := by
  fun_induction withoutFlowMark cs with
  | case1 rest ih => simpa using ih
  | case2 c rest _ ih => rw [List.count_cons, List.count_cons, ih]
  | case3 => rfl

/-! ## Names -/

theorem lineFeeds_repr (n : Nat) : lineFeeds (Nat.repr n) = 0 := by
  rw [lineFeeds_eq_zero_iff]
  intro hmem
  have hdigit := Nat.isDigit_of_mem_toDigits (b := 10) (by decide) (by decide)
    (by simpa [Nat.repr] using hmem)
  exact absurd hdigit (by decide)

theorem Names.lineFeeds_free (names : Names) {base : String} (h : lineFeeds base = 0) :
    lineFeeds (names.free base) = 0 := by
  have hsearch (n k : Nat) (name : String) (hname : names.searchFor base n k = some name) :
      lineFeeds name = 0 := by
    induction n generalizing k with
    | zero => cases hname
    | succ n ih =>
      unfold Names.searchFor at hname
      split at hname
      · exact ih _ hname
      · cases hname
        rw [numbered, lineFeeds_append, h, lineFeeds_repr]
  unfold Names.free
  split
  · cases hfound : names.searchFor base names.used.length 2 with
    | none => exact h
    | some name => exact hsearch _ _ _ hfound
  · exact h

theorem Names.lineFeeds_claimAll (names : Names) {bases : List String}
    (h : ∀ base ∈ bases, lineFeeds base = 0) {name : String} (hname : name ∈ (names.claimAll bases).1) :
    lineFeeds name = 0 := by
  induction bases generalizing names with
  | nil => cases hname
  | cons base bases ih =>
    obtain rfl | hrest := List.mem_cons.1 hname
    · exact names.lineFeeds_free (h base List.mem_cons_self)
    · exact ih _ (fun other hother => h other (List.mem_cons_of_mem _ hother)) hrest

theorem SupportNames.lineFeeds_name (names : Names) (f : SupportFunction) :
    lineFeeds ((SupportNames.claim names).1.name f) = 0 := by
  have hbase (f : SupportFunction) : lineFeeds f.baseName = 0 := by cases f <;> decide
  unfold SupportNames.name
  cases hlookup : (SupportNames.claim names).1.names.lookup f with
  | none => exact hbase f
  | some name =>
    obtain ⟨before, after, hsplit, _⟩ := List.lookup_eq_some_iff.1 hlookup
    have hmem : (f, name) ∈ (SupportNames.claim names).1.names := by simp [hsplit]
    have hname : name ∈ (names.claimAll (SupportFunction.all.map (·.baseName))).1 :=
      (List.of_mem_zip hmem).2
    refine names.lineFeeds_claimAll (fun base hbases => ?_) hname
    obtain ⟨f, _, rfl⟩ := List.mem_map.1 hbases
    exact hbase f

theorem SupportNames.lineFeeds_createRequire (names : Names) :
    lineFeeds (SupportNames.claim names).1.createRequire = 0 := by
  simp only [SupportNames.claim, Names.claim]
  exact Names.lineFeeds_free _ (by decide)

/-- A text that can be a name has no line feed. -/
theorem Options.lineFeed_not_mem {cs : List Char} (h : isNameText cs = true) : '\n' ∉ cs := by
  intro hmem
  cases cs with
  | nil => cases hmem
  | cons c rest =>
    have hpart : isNamePart '\n' = true := by
      obtain ⟨hfirst, hrest⟩ := Bool.and_eq_true_iff.1 h
      obtain heq | hmem := List.mem_cons.1 hmem
      · exact isNamePart_of_isNameStart (heq ▸ hfirst)
      · exact List.all_eq_true.1 hrest _ hmem
    exact absurd hpart (by decide)

/-! ## Paths -/

theorem mem_of_mem_splitChars {separator c : Char} {cs part : List Char}
    (hpart : part ∈ splitChars separator cs) (hc : c ∈ part) : c ∈ cs := by
  induction cs generalizing part with
  | nil =>
    rw [splitChars, List.mem_singleton] at hpart
    exact hpart ▸ hc
  | cons d rest ih =>
    unfold splitChars at hpart
    split at hpart
    next hnil => exact absurd hnil (splitChars_ne_nil _ _)
    next first parts hparts =>
      rw [hparts] at ih
      split at hpart
      · obtain rfl | hpart := List.mem_cons.1 hpart
        · cases hc
        · exact List.mem_cons_of_mem _ (ih hpart hc)
      · obtain rfl | hpart := List.mem_cons.1 hpart
        · obtain rfl | hc := List.mem_cons.1 hc
          · exact List.mem_cons_self
          · exact List.mem_cons_of_mem _ (ih List.mem_cons_self hc)
        · exact List.mem_cons_of_mem _ (ih (List.mem_cons_of_mem _ hpart) hc)

theorem exists_mem_splitChars (separator : Char) {c : Char} {cs : List Char} (hc : c ∈ cs)
    (hne : c ≠ separator) : ∃ part ∈ splitChars separator cs, c ∈ part := by
  induction cs with
  | nil => cases hc
  | cons d rest ih =>
    unfold splitChars
    split
    next hnil => exact absurd hnil (splitChars_ne_nil _ _)
    next first parts hparts =>
      rw [hparts] at ih
      split
      next heq =>
        obtain rfl | hc := List.mem_cons.1 hc
        · exact absurd heq hne
        · obtain ⟨part, hpart, hmem⟩ := ih hc
          exact ⟨part, List.mem_cons_of_mem _ hpart, hmem⟩
      next =>
        obtain rfl | hc := List.mem_cons.1 hc
        · exact ⟨_, List.mem_cons_self, List.mem_cons_self⟩
        · obtain ⟨part, hpart, hmem⟩ := ih hc
          obtain rfl | hpart := List.mem_cons.1 hpart
          · exact ⟨_, List.mem_cons_self, List.mem_cons_of_mem _ hmem⟩
          · exact ⟨part, List.mem_cons_of_mem _ hpart, hmem⟩

/-- There is one line more than there are line feeds. -/
theorem length_splitChars (separator : Char) (cs : List Char) :
    (splitChars separator cs).length = cs.count separator + 1 := by
  induction cs with
  | nil => rfl
  | cons c rest ih =>
    unfold splitChars
    split
    next hnil => exact absurd hnil (splitChars_ne_nil _ _)
    next first parts hparts =>
      rw [hparts, List.length_cons] at ih
      split
      next heq => simp [heq, ih]
      next hne => simp [List.count_cons_of_ne hne, ih]

theorem Emit.DisplayName.lineFeeds_ofPath {path : String} (h : lineFeeds path = 0) :
    lineFeeds (ofPath path) = 0 := by
  rw [lineFeeds_eq_zero_iff] at h
  have hpart {part : List Char} (hpart : part ∈ (splitChars '/' path.toList).reverse) : '\n' ∉ part :=
    fun hmem => h (mem_of_mem_splitChars (List.mem_reverse.1 hpart) hmem)
  have hbase {file : List Char} (hfile : '\n' ∉ file) : '\n' ∉ withoutExtension file := by
    unfold withoutExtension
    split
    · rw [List.mem_reverse]
      intro hmem
      have hmem := List.mem_of_mem_drop hmem
      exact hfile (List.mem_reverse.1 ((List.dropWhile_sublist _).subset hmem))
    · exact hfile
  unfold ofPath
  split
  · decide
  next file directories hparts =>
    rw [hparts] at hpart
    have hfile := hbase (hpart List.mem_cons_self)
    dsimp only
    split
    next directory rest =>
      split
      · rw [lineFeeds_ofList]
        exact List.count_eq_zero.2 (hpart (List.mem_cons_of_mem _ List.mem_cons_self))
      · rw [lineFeeds_ofList]
        exact List.count_eq_zero.2 hfile
    next =>
      rw [lineFeeds_ofList]
      exact List.count_eq_zero.2 hfile

/-! ## Strings and elements -/

theorem JsonString.lineFeeds_quote (text : String) : lineFeeds (quote text) = 0 := by
  have hdigit (n : Nat) (hn : n < 16) : hexDigit n ≠ '\n' := by
    revert hn
    revert n
    decide
  have hescape (c : Char) : '\n' ∉ escape c := by
    unfold escape
    repeat' split
    any_goals decide
    next hlt =>
      have hhigh := hdigit (c.toNat / 16) (by omega)
      have hlow := hdigit (c.toNat % 16) (by omega)
      simp [hhigh.symm, hlow.symm]
    next hne _ _ _ =>
      simpa using Ne.symm hne
  have hall : '\n' ∉ text.toList.flatMap escape := by
    intro hmem
    obtain ⟨c, _, hc⟩ := List.mem_flatMap.1 hmem
    exact hescape c hc
  have hmark : lineFeeds "\"" = 0 := by decide
  rw [quote, lineFeeds_append, lineFeeds_append, hmark, lineFeeds_ofList, List.count_eq_zero.2 hall]

theorem ElementText.lineFeeds_remainder (text : String) :
    lineFeeds (remainder text) = lineFeeds text := by
  rw [remainder, lineFeeds_ofList, List.count_append, List.count_filter (by decide), lineFeeds]
  have hblanks : (((text.toList.reverse.takeWhile (· != '\n')).filter (· == ' ')).count '\n') = 0 := by
    rw [List.count_eq_zero]
    simp
  rw [hblanks, Nat.add_zero]

end PlainScript
