import Mathlib
import PlainScript.Output

/-!
# Free names

The search for a number goes through as many candidates as there are names taken. They differ from each
other and from the base name, which is taken too, so not all of them can be taken: the search ends at the
first number that makes the name free. What has been handed out is taken from then on, whichever base
name it was handed out for.
-/

namespace PlainScript

/-- The name that a base name gets while some names are taken: itself if it is free, else the one with
the smallest number from 2 on that makes it free. -/
def IsFirstFree (taken : String → Prop) (base name : String) : Prop :=
  ¬ taken base ∧ name = base ∨
    taken base ∧ ∃ k, 2 ≤ k ∧ name = base ++ Nat.repr k ∧ ¬ taken name ∧
      ∀ j, 2 ≤ j → j < k → taken (base ++ Nat.repr j)

theorem IsFirstFree.not_taken {taken : String → Prop} {base name : String}
    (h : IsFirstFree taken base name) : ¬ taken name := by
  obtain ⟨hfree, rfl⟩ | ⟨-, k, -, -, hfree, -⟩ := h
  · exact hfree
  · exact hfree

namespace Names

variable {names : Names} {base name : String} {n k : Nat}

/-! ## One name -/

theorem taken_iff : names.taken name = true ↔ name ∈ names.used := List.contains_iff_mem

theorem numbered_inj {l : Nat} (h : numbered base k = numbered base l) : k = l :=
  Nat.repr_inj.1 ((String.append_right_inj base).1 h)

theorem numbered_ne (base : String) (k : Nat) : numbered base k ≠ base := by
  simp [numbered]

/-- The search stops at the first number that makes the name free. -/
theorem searchFor_eq_some (h : names.searchFor base n k = some name) :
    ∃ l, k ≤ l ∧ name = numbered base l ∧ name ∉ names.used ∧
      ∀ j, k ≤ j → j < l → numbered base j ∈ names.used := by
  induction n generalizing k with
  | zero => cases h
  | succ n ih =>
    rw [searchFor] at h
    split at h
    next htaken =>
      obtain ⟨l, hl, hname, hfree, hbefore⟩ := ih h
      refine ⟨l, by omega, hname, hfree, fun j hj hlt => ?_⟩
      obtain rfl | hj := Nat.eq_or_lt_of_le hj
      · exact taken_iff.1 htaken
      · exact hbefore j hj hlt
    next hfree =>
      cases h
      exact ⟨k, Nat.le_refl k, rfl, mt taken_iff.2 hfree, fun j hj hlt => by omega⟩

theorem mem_of_searchFor_eq_none (h : names.searchFor base n k = none) :
    ∀ j < n, numbered base (k + j) ∈ names.used := by
  induction n generalizing k with
  | zero => exact fun j hj => absurd hj (Nat.not_lt_zero j)
  | succ n ih =>
    rw [searchFor] at h
    split at h
    next htaken =>
      intro j hj
      cases j with
      | zero => exact taken_iff.1 htaken
      | succ j =>
        have hmem := ih h j (by omega)
        rwa [Nat.add_assoc, Nat.add_comm 1 j] at hmem
    · cases h

/-- There are as many numbers to try as there are names taken, and the base name is one of those. -/
theorem searchFor_ne_none (h : base ∈ names.used) :
    names.searchFor base names.used.length k ≠ none := by
  intro hsearch
  have hmem := mem_of_searchFor_eq_none hsearch
  let tried := (List.range names.used.length).map fun j => numbered base (k + j)
  have hnodup : (base :: tried).Nodup := by
    refine List.nodup_cons.2 ⟨?_, ?_⟩
    · simp [tried, numbered_ne]
    · refine List.Nodup.map (fun j l h => ?_) List.nodup_range
      have := numbered_inj h
      omega
  have hsubset : base :: tried ⊆ names.used := by
    refine List.cons_subset.2 ⟨h, fun name hname => ?_⟩
    obtain ⟨j, hj, rfl⟩ := List.mem_map.1 hname
    exact hmem j (List.mem_range.1 hj)
  have hlength := hnodup.length_le_of_subset hsubset
  simp [tried] at hlength

theorem isFirstFree_free (names : Names) (base : String) :
    IsFirstFree (· ∈ names.used) base (names.free base) := by
  unfold free
  split
  next htaken =>
    have htaken := taken_iff.1 htaken
    obtain ⟨name, hname⟩ := Option.ne_none_iff_exists'.1 (searchFor_ne_none (k := 2) htaken)
    rw [hname, Option.getD_some]
    exact .inr ⟨htaken, searchFor_eq_some hname⟩
  next hfree => exact .inl ⟨mt taken_iff.2 hfree, rfl⟩

theorem free_not_mem (names : Names) (base : String) : names.free base ∉ names.used :=
  (names.isFirstFree_free base).not_taken

/-! ## One name after the other -/

theorem subset_used_claimAll (names : Names) (bases : List String) :
    names.used ⊆ (names.claimAll bases).2.used := by
  induction bases generalizing names with
  | nil => exact List.Subset.refl _
  | cons base rest ih =>
    exact List.Subset.trans (List.subset_cons_self _ _) (ih (names.claim base).2)

theorem length_claimAll (names : Names) (bases : List String) :
    (names.claimAll bases).1.length = bases.length := by
  induction bases generalizing names with
  | nil => rfl
  | cons base rest ih => exact congrArg (· + 1) (ih (names.claim base).2)

/-- No name is handed out that was taken before, so none is handed out twice. -/
theorem nodup_claimAll (names : Names) (bases : List String) :
    (names.claimAll bases).1.Nodup ∧ ∀ name ∈ (names.claimAll bases).1, name ∉ names.used := by
  induction bases generalizing names with
  | nil => exact ⟨.nil, fun name hname => absurd hname List.not_mem_nil⟩
  | cons base rest ih =>
    obtain ⟨hnodup, hfresh⟩ := ih (names.claim base).2
    have hrest (name : String) (hname : name ∈ ((names.claim base).2.claimAll rest).1) :
        name ≠ names.free base ∧ name ∉ names.used := by
      simpa [used_claim] using hfresh name hname
    refine ⟨List.nodup_cons.2 ⟨fun hmem => (hrest _ hmem).1 rfl, hnodup⟩, fun name hname => ?_⟩
    obtain rfl | hname := List.mem_cons.1 hname
    · exact names.free_not_mem base
    · exact (hrest name hname).2

/-- Each name is the first free one when it is asked for: what is taken then is what was taken at the
start and what has been handed out since. -/
theorem isFirstFree_claimAll {bases : List String} {i : Nat} (hbase : bases[i]? = some base)
    (hname : (names.claimAll bases).1[i]? = some name) :
    IsFirstFree (fun x => x ∈ (names.claimAll bases).1.take i ∨ x ∈ names.used) base name := by
  induction bases generalizing names i with
  | nil => cases hbase
  | cons first rest ih =>
    cases i with
    | zero =>
      cases hbase
      cases hname
      simpa using names.isFirstFree_free base
    | succ i =>
      have hlater := @ih (names.claim first).2 i hbase hname
      have htaken : (fun x => x ∈ ((names.claim first).2.claimAll rest).1.take i ∨
          x ∈ (names.claim first).2.used) = fun x =>
            x ∈ (names.claimAll (first :: rest)).1.take (i + 1) ∨ x ∈ names.used := by
        funext x
        simp only [claimAll, claim, List.take_succ_cons, List.mem_cons]
        grind
      exact htaken ▸ hlater

end Names

/-! ## Names for a file -/

namespace Emit

variable {source : Source} {tokens : Array Token}

theorem mem_nameTexts {name : String} : name ∈ nameTexts source tokens ↔
    ∃ token ∈ tokens, token.kind = .name ∧ token.text source = name := by
  simp [nameTexts, List.mem_eraseDups, and_assoc]

/-- The names that a file gets, for any base names in any order: there is one for each base name, no
two are equal, none is the text of a name of the file, and each is the first free one when it is asked
for. -/
theorem claimAll_of_file (source : Source) (file : AnnotatedFile) (bases : List String) :
    ∃ claimed, (Names.claimAll ⟨nameTexts source file.tokens⟩ bases).1 = claimed ∧
      claimed.length = bases.length ∧ claimed.Nodup ∧
      (∀ token ∈ file.tokens, token.kind = .name → token.text source ∉ claimed) ∧
      ∀ i base name, bases[i]? = some base → claimed[i]? = some name →
        IsFirstFree (fun x => x ∈ claimed.take i ∨
          ∃ token ∈ file.tokens, token.kind = .name ∧ token.text source = x) base name := by
  obtain ⟨hnodup, hfresh⟩ := Names.nodup_claimAll ⟨nameTexts source file.tokens⟩ bases
  refine ⟨_, rfl, Names.length_claimAll _ bases, hnodup, fun token htoken hkind hmem => ?_,
    fun i base name hbase hname => ?_⟩
  · exact hfresh _ hmem (mem_nameTexts.2 ⟨token, htoken, hkind, rfl⟩)
  · simpa only [mem_nameTexts] using Names.isFirstFree_claimAll hbase hname

end Emit

end PlainScript
