import Mathlib.Logic.Relation
import Mathlib.Order.Bounds.Basic
import Mathlib.Tactic.IntervalCases
import PlainScript.Proofs.Trivia

/-!
# The two scanners of gaps

Where the next lexeme starts is found out twice: `Source.skipTrivia` is asked when the parser looks
ahead, `Source.gap` when it moves on. `Source.Element s i j` says that one blank, one line terminator or
one complete comment reaches from `i` to `j`. At most one of them starts at an offset, so a gap can be
passed over in one way only, and both scanners end where no further element starts. They differ at a
comment that never ends and at a `#!` line.
-/

namespace PlainScript.Source

open Relation

variable {s : Source} {i j k n p q : Nat}

/-- A blank, a line terminator or a complete comment. -/
inductive Element (s : Source) (i : Nat) : Nat → Prop
  | blank {c : Char} : s.charAt? i = some c → isGap c = true → Element s i (i + c.utf8Size)
  | lineComment {j : Nat} :
      s.charAt? i = some '/' → s.charAt? (i + 1) = some '/' → s.RestOfLine (i + 2) j → Element s i j
  | blockComment {j : Nat} :
      s.charAt? i = some '/' → s.charAt? (i + 1) = some '*' → s.RestOfComment (i + 2) j → Element s i j

/-- A block comment starts and never ends. -/
structure OpensComment (s : Source) (i : Nat) : Prop where
  slash : s.charAt? i = some '/'
  star : s.charAt? (i + 1) = some '*'
  endless : ∀ j, ¬ s.RestOfComment (i + 2) j

/-! ## One way to pass over a gap -/

theorem RestOfLine.unique (hj : s.RestOfLine i j) (hk : s.RestOfLine i k) : j = k := by
  obtain ⟨hrun, hstop⟩ := hj
  induction hrun with
  | nil i =>
    cases hk.run with
    | nil => rfl
    | cons hc hp _ => simp [hstop _ hc] at hp
  | cons hc hp _ ih =>
    obtain ⟨hrun', hstop'⟩ := hk
    cases hrun' with
    | nil => simp [hstop' _ hc] at hp
    | cons hc' hp' hrest' =>
      cases hc.symm.trans hc'
      exact ih ⟨hrest', hstop'⟩ hstop

theorem RestOfComment.not_lt (hj : s.RestOfComment i j) (hk : s.RestOfComment i k) : ¬ j < k := by
  intro hlt
  have hle := hj.le
  refine hk.first (j - 2) (by omega) (by omega) ⟨hj.star, ?_⟩
  rw [show j - 2 + 1 = j - 1 by omega]
  exact hj.slash

theorem RestOfComment.unique (hj : s.RestOfComment i j) (hk : s.RestOfComment i k) : j = k :=
  Nat.le_antisymm (Nat.le_of_not_lt (hk.not_lt hj)) (Nat.le_of_not_lt (hj.not_lt hk))

theorem Element.lt (h : s.Element i j) : i < j := by
  cases h with
  | @blank c _ _ =>
    have := c.utf8Size_pos
    omega
  | lineComment _ _ hline =>
    have := hline.run.le
    omega
  | blockComment _ _ hbody =>
    have := hbody.le
    omega

/-- At most one element starts at an offset: the first two characters tell what it is. -/
theorem Element.rightUnique (s : Source) : Relator.RightUnique s.Element := by
  have hslash {i : Nat} {c : Char} (hc : s.charAt? i = some c) (hgap : isGap c = true) :
      s.charAt? i ≠ some '/' := by
    intro h
    cases hc.symm.trans h
    cases hgap
  intro i j k hj hk
  cases hj with
  | blank hc hgap =>
    cases hk with
    | blank hd _ =>
      cases hc.symm.trans hd
      rfl
    | lineComment hopen _ _ => exact absurd hopen (hslash hc hgap)
    | blockComment hopen _ _ => exact absurd hopen (hslash hc hgap)
  | lineComment hopen hnext hline =>
    cases hk with
    | blank hd hgap => exact absurd hopen (hslash hd hgap)
    | lineComment _ _ hline' => exact hline.unique hline'
    | blockComment _ hstar _ => cases hnext.symm.trans hstar
  | blockComment hopen hstar hbody =>
    cases hk with
    | blank hd hgap => exact absurd hopen (hslash hd hgap)
    | lineComment _ hnext _ => cases hstar.symm.trans hnext
    | blockComment _ _ hbody' => exact hbody.unique hbody'

theorem le_of_elements (h : ReflTransGen s.Element i j) : i ≤ j := by
  induction h with
  | refl => exact Nat.le_refl i
  | tail _ hlast ih => exact Nat.le_trans ih (Nat.le_of_lt hlast.lt)

/-- Where no further element starts, every way to pass over the gap ends. -/
theorem elements_unique (hj : ReflTransGen s.Element i j) (hk : ReflTransGen s.Element i k)
    (hjstop : ∀ r, ¬ s.Element j r) (hkstop : ∀ r, ¬ s.Element k r) : j = k := by
  have hend {a b : Nat} (h : ReflTransGen s.Element a b) (hstop : ∀ r, ¬ s.Element a r) : a = b := by
    obtain rfl | ⟨r, hr, -⟩ := h.cases_head
    · rfl
    · exact absurd hr (hstop r)
  obtain hjk | hkj := hj.total_of_right_unique (Element.rightUnique s) hk
  · exact hend hjk hjstop
  · exact (hend hkj hkstop).symm

/-! ## The scanners -/

theorem findPair?_eq_none (h : s.findPair? '*' '/' i = none) : ∀ j, ¬ s.RestOfComment i j := by
  have hscan : ∀ n i, s.findPairFor '*' '/' n i = none → ∀ k, i ≤ k → k < i + n →
      ¬ (s.byteAt k = '*' ∧ s.byteAt (k + 1) = '/') := by
    intro n
    induction n with
    | zero =>
      intro i _ k hik hki
      omega
    | succ n ih =>
      intro i hnone k hik hki
      rw [findPairFor] at hnone
      split at hnone
      next => cases hnone
      next hpair =>
        obtain rfl | hlt := Nat.eq_or_lt_of_le hik
        · exact hpair
        · exact ih (i + 1) hnone k hlt (by omega)
  intro j hj
  have hle := hj.le
  have hlast := lt_size_of_charAt? hj.slash
  refine hscan _ i h (j - 2) (by omega) (by omega) ⟨byteAt_of_charAt? hj.star (by decide), ?_⟩
  rw [show j - 2 + 1 = j - 1 by omega]
  exact byteAt_of_charAt? hj.slash (by decide)

theorem findPair?_of_restOfComment (h : s.RestOfComment i j) : s.findPair? '*' '/' i = some (j - 2) := by
  cases hfind : s.findPair? '*' '/' i with
  | none => exact absurd h (findPair?_eq_none hfind j)
  | some m => rw [(restOfComment_of_findPair? hfind).unique h |>.symm, Nat.add_sub_cancel]

/-- A blank is no slash and no `#`. -/
theorem byteAt_ne_of_isGap {c d : Char} (hc : s.charAt? i = some c) (hgap : isGap c = true)
    (hd : d.toNat < 128) (hnul : d ≠ '\x00') (hno : isGap d = false) : s.byteAt i ≠ d := by
  intro h
  cases hc.symm.trans (charAt?_of_byteAt h (lt_size_of_byteAt h hnul) hd)
  rw [hno] at hgap
  cases hgap

theorem skipTriviaFor_of_element (h : s.Element i j) :
    s.skipTriviaFor (n + 1) i = s.skipTriviaFor n j := by
  rw [skipTriviaFor]
  cases h with
  | blank hc hgap =>
    have hslash := byteAt_ne_of_isGap hc hgap (d := '/') (by decide) (by decide) (by decide)
    simp [hslash, hc, hgap]
  | lineComment hopen hnext hline =>
    rw [byteAt_of_charAt? hopen (by decide), byteAt_of_charAt? hnext (by decide),
      (restOfLine_skipChars s (i + 2)).unique hline]
    simp
  | blockComment hopen hstar hbody =>
    have hle := hbody.le
    rw [byteAt_of_charAt? hopen (by decide), byteAt_of_charAt? hstar (by decide),
      findPair?_of_restOfComment hbody]
    simp [Nat.sub_add_cancel (show 2 ≤ j by omega)]

theorem gapFor_of_element (hi : 0 < i) (h : s.Element i j) : s.gapFor (n + 1) i = s.gapFor n j := by
  rw [gapFor]
  cases h with
  | blank hc hgap =>
    have hslash := byteAt_ne_of_isGap hc hgap (d := '/') (by decide) (by decide) (by decide)
    have hhash := byteAt_ne_of_isGap hc hgap (d := '#') (by decide) (by decide) (by decide)
    split
    · exact absurd ‹_› hslash
    · exact absurd ‹_› hhash
    · simp [hc, hgap]
  | lineComment hopen hnext hline =>
    rw [byteAt_of_charAt? hopen (by decide), byteAt_of_charAt? hnext (by decide),
      (restOfLine_skipChars s (i + 2)).unique hline]
    simp
  | blockComment hopen hstar hbody =>
    have hle := hbody.le
    rw [byteAt_of_charAt? hopen (by decide), byteAt_of_charAt? hstar (by decide),
      findPair?_of_restOfComment hbody]
    simp [Nat.sub_add_cancel (show 2 ≤ j by omega)]

theorem charAt?_of_ascii {c : Char} (h : s.byteAt i = c) (hc : c.toNat < 128) (hnul : c ≠ '\x00') :
    s.charAt? i = some c :=
  charAt?_of_byteAt h (lt_size_of_byteAt h hnul) hc

theorem skipTriviaFor_of_no_element (h : ∀ j, ¬ s.Element i j) : s.skipTriviaFor n i = i := by
  cases n with
  | zero => rfl
  | succ n =>
    rw [skipTriviaFor]
    split
    next hline =>
      obtain ⟨hopen, hnext⟩ := by simpa using hline
      exact absurd (.lineComment (charAt?_of_ascii hopen (by decide) (by decide))
        (charAt?_of_ascii hnext (by decide) (by decide)) (restOfLine_skipChars s _)) (h _)
    next =>
      split
      next hblock =>
        obtain ⟨hopen, hstar⟩ := by simpa using hblock
        split
        next m hm =>
          exact absurd (.blockComment (charAt?_of_ascii hopen (by decide) (by decide))
            (charAt?_of_ascii hstar (by decide) (by decide)) (restOfComment_of_findPair? hm)) (h _)
        next => rfl
      next =>
        split
        next c hc =>
          split
          next hgap => exact absurd (.blank hc hgap) (h _)
          next => rfl
        next => rfl

theorem gapFor_of_no_element (hi : 0 < i) (h : ∀ j, ¬ s.Element i j) (hopen : ¬ s.OpensComment i) :
    s.gapFor n i = .upTo i := by
  cases n with
  | zero => rfl
  | succ n =>
    rw [gapFor]
    split
    next hslash =>
      have hslash := charAt?_of_ascii hslash (by decide) (by decide)
      split
      next hstar =>
        have hstar := charAt?_of_ascii hstar (by decide) (by decide)
        split
        next m hm => exact absurd (.blockComment hslash hstar (restOfComment_of_findPair? hm)) (h _)
        next hnone => exact absurd ⟨hslash, hstar, findPair?_eq_none hnone⟩ hopen
      next hnext =>
        exact absurd (.lineComment hslash (charAt?_of_ascii hnext (by decide) (by decide))
          (restOfLine_skipChars s _)) (h _)
      next => rfl
    next => rw [if_neg (by omega)]
    next =>
      split
      next c hc =>
        split
        next hgap => exact absurd (.blank hc hgap) (h _)
        next => rfl
      next => rfl

/-- The scanner passes over elements until none starts. -/
theorem elements_skipTriviaFor (h : s.size ≤ i + n) :
    ReflTransGen s.Element i (s.skipTriviaFor n i) ∧ ∀ r, ¬ s.Element (s.skipTriviaFor n i) r := by
  induction n generalizing i with
  | zero =>
    refine ⟨.refl, fun r hr => ?_⟩
    have hlt : i < s.size := by cases hr <;> exact lt_size_of_charAt? ‹_›
    omega
  | succ n ih =>
    by_cases hnext : ∃ j, s.Element i j
    · obtain ⟨j, hj⟩ := hnext
      have hlt := hj.lt
      rw [skipTriviaFor_of_element hj]
      obtain ⟨hpath, hstop⟩ := ih (i := j) (by omega)
      exact ⟨.head hj hpath, hstop⟩
    · rw [skipTriviaFor_of_no_element (not_exists.1 hnext)]
      exact ⟨.refl, not_exists.1 hnext⟩

theorem gapFor_eq_skipTriviaFor (hi : 0 < i)
    (hclosed : ∀ q, ReflTransGen s.Element i q → ¬ s.OpensComment q) :
    s.gapFor n i = .upTo (s.skipTriviaFor n i) := by
  induction n generalizing i with
  | zero => rfl
  | succ n ih =>
    by_cases hnext : ∃ j, s.Element i j
    · obtain ⟨j, hj⟩ := hnext
      rw [gapFor_of_element hi hj, skipTriviaFor_of_element hj]
      exact ih (Nat.lt_trans hi hj.lt) fun q hq => hclosed q (.head hj hq)
    · have hstop := not_exists.1 hnext
      rw [gapFor_of_no_element hi hstop (hclosed i .refl), skipTriviaFor_of_no_element hstop]

/-- Both scanners stop at the same offset, unless they come to a comment that never ends. It is the
least one up to which the text consists of elements and where no further one starts. -/
theorem gap_eq_skipTrivia (s : Source) (p : Nat) (hp : 0 < p) (hboundary : s.isBoundary p = true)
    (hclosed : ∀ q, ReflTransGen s.Element p q → ¬ s.OpensComment q) :
    s.gap p = .upTo (s.skipTrivia p) ∧
      IsLeast {q | p ≤ q ∧ ReflTransGen s.Element p q ∧ ∀ r, ¬ s.Element q r} (s.skipTrivia p) := by
  have hsize := le_size_of_isBoundary hboundary
  obtain ⟨hpath, hstop⟩ : ReflTransGen s.Element p (s.skipTrivia p) ∧
      ∀ r, ¬ s.Element (s.skipTrivia p) r := elements_skipTriviaFor (by omega)
  refine ⟨gapFor_eq_skipTriviaFor hp hclosed, ⟨le_of_elements hpath, hpath, hstop⟩, ?_⟩
  rintro q ⟨-, hq, hqstop⟩
  exact Nat.le_of_eq (elements_unique hpath hq hstop hqstop)

theorem gap_eq_skipTrivia_lineComment :
    (ofText "a //b\n c").gap 1 = .upTo ((ofText "a //b\n c").skipTrivia 1) ∧
      IsLeast {q | 1 ≤ q ∧ ReflTransGen (ofText "a //b\n c").Element 1 q ∧
        ∀ r, ¬ (ofText "a //b\n c").Element q r} ((ofText "a //b\n c").skipTrivia 1) := by
  refine gap_eq_skipTrivia _ 1 (by decide) (by decide +kernel) fun q _ hopen => ?_
  have hstar := byteAt_of_charAt? hopen.star (by decide)
  have hlt : q + 1 < 8 := lt_size_of_charAt? hopen.star
  have hlt : q < 7 := Nat.lt_of_succ_lt_succ hlt
  clear hopen
  interval_cases q <;> revert hstar <;> decide +kernel

end PlainScript.Source
