import PlainScript.Proofs.Lexemes

/-!
# The steps of a scan

Every scan of the text takes a number of steps with it, one for each byte that is left. A step of a
scan goes on at a later offset, and behind the end of the text there is nothing to find, so no scan
is cut short: with more steps it gives the same answer.
-/

namespace PlainScript.Source

variable {s : Source} {i j n m : Nat}

/-- A scan whose steps go forward, and whose answer behind the end of the text takes no steps, has the
same answer for any number of steps that is not less than what is left of the text. -/
theorem steps_eq_steps {α : Type} {f : Nat → Nat → α} {size : Nat}
    (hend : ∀ n i, size ≤ i → f n i = f 0 i)
    (hstep : ∀ n m i, (∀ j, i < j → f n j = f m j) → f (n + 1) i = f (m + 1) i)
    (hn : size - i ≤ n) (hm : size - i ≤ m) : f n i = f m i := by
  induction n generalizing m i with
  | zero => exact (hend m i (by omega)).symm
  | succ n ih =>
    by_cases hi : size ≤ i
    · exact (hend (n + 1) i hi).trans (hend m i hi).symm
    · cases m with
      | zero => omega
      | succ m => exact hstep n m i fun j hj => ih (by omega) (by omega)

theorem charAt?_eq_none (h : s.size ≤ i) : s.charAt? i = none := by
  cases hc : s.charAt? i with
  | none => rfl
  | some c => exact absurd (lt_size_of_charAt? hc) (Nat.not_lt.2 h)

theorem lt_add_utf8Size (i : Nat) (c : Char) : i < i + c.utf8Size := by
  have hpos := c.utf8Size_pos
  omega

theorem lt_of_findPair? {a b : Char} (h : s.findPair? a b (i + 2) = some j) : i < j + 2 := by
  have hle := (findPairFor_eq_some h).1
  omega

theorem lt_skipChars_add_two (s : Source) (p : Char → Bool) (i : Nat) : i < s.skipChars p (i + 2) := by
  have hle := s.le_skipCharsFor p (s.size - (i + 2)) (i + 2)
  unfold skipChars
  omega

/-! ## Bytes and characters -/

/-- Bytes are skipped beyond the end of the text too, if there are steps for it. -/
theorem skipBytesFor_eq (p : Char → Bool) (h : s.size - i ≤ n) :
    min (s.skipBytesFor p n i) (max i s.size) = s.skipBytes p i := by
  unfold skipBytes
  generalize hk : s.size - i = k at h ⊢
  induction n generalizing i k with
  | zero =>
    obtain rfl : k = 0 := by omega
    simp only [skipBytesFor]
    omega
  | succ n ih =>
    cases k with
    | zero =>
      have hle := s.le_skipBytesFor p (n + 1) i
      simp only [skipBytesFor] at hle ⊢
      omega
    | succ k =>
      simp only [skipBytesFor]
      split
      · have hrest := ih (i := i + 1) (k := k) (by omega) (by omega)
        rw [← hrest]
        omega
      · omega

theorem skipCharsFor_eq (p : Char → Bool) (h : s.size - i ≤ n) :
    s.skipCharsFor p n i = s.skipChars p i := by
  refine steps_eq_steps (f := s.skipCharsFor p) ?_ ?_ h (Nat.le_refl _)
  · intro n i hi
    cases n with
    | zero => rfl
    | succ n => simp only [skipCharsFor, charAt?_eq_none hi]
  · intro n m i hrest
    rw [skipCharsFor, skipCharsFor]
    cases s.charAt? i with
    | none => rfl
    | some c => simp only [hrest _ (lt_add_utf8Size i c)]

theorem findPairFor_eq {a b : Char} (ha : a ≠ '\x00') (h : s.size - i ≤ n) :
    s.findPairFor a b n i = s.findPair? a b i := by
  refine steps_eq_steps (f := s.findPairFor a b) ?_ ?_ h (Nat.le_refl _)
  · intro n i hi
    induction n generalizing i with
    | zero => rfl
    | succ n ih =>
      simp only [findPairFor, byteAt_eq_nul_of_size_le hi, ha.symm, false_and, if_false]
      exact ih (i + 1) (by omega)
  · intro n m i hrest
    simp only [findPairFor, hrest (i + 1) (by omega)]

/-! ## Gaps -/

theorem gapFor_eq (h : s.size - i ≤ n) : s.gapFor n i = s.gap i := by
  refine steps_eq_steps (f := s.gapFor) ?_ ?_ h (Nat.le_refl _)
  · intro n i hi
    cases n with
    | zero => rfl
    | succ n =>
      simp only [gapFor, byteAt_eq_nul_of_size_le hi, charAt?_eq_none hi]
      rfl
  · intro n m i hrest
    rw [gapFor, gapFor]
    split
    · split
      · cases hj : s.findPair? '*' '/' (i + 2) with
        | none => rfl
        | some j => exact hrest _ (lt_of_findPair? hj)
      · exact hrest _ (lt_skipChars_add_two s _ i)
      · rfl
    · split
      case isTrue hzero =>
        rw [hzero.1] at hrest
        exact hrest _ (lt_skipChars_add_two s _ 0)
      case isFalse => rfl
    · cases s.charAt? i with
      | none => rfl
      | some c => simp only [hrest _ (lt_add_utf8Size i c)]

theorem skipTriviaFor_eq (h : s.size - i ≤ n) : s.skipTriviaFor n i = s.skipTrivia i := by
  refine steps_eq_steps (f := s.skipTriviaFor) ?_ ?_ h (Nat.le_refl _)
  · intro n i hi
    cases n with
    | zero => rfl
    | succ n =>
      simp [skipTriviaFor, byteAt_eq_nul_of_size_le hi, charAt?_eq_none hi]
  · intro n m i hrest
    rw [skipTriviaFor, skipTriviaFor]
    split
    · exact hrest _ (lt_skipChars_add_two s _ i)
    · split
      · cases hj : s.findPair? '*' '/' (i + 2) with
        | none => rfl
        | some j => exact hrest _ (lt_of_findPair? hj)
      · cases s.charAt? i with
        | none => rfl
        | some c => simp only [hrest _ (lt_add_utf8Size i c)]

/-! ## Words, strings, templates and regular expressions -/

theorem wordEndFor_eq (h : s.size - i ≤ n) : min (s.wordEndFor n i) s.size = s.wordEnd i := by
  refine congrArg (min · s.size) (steps_eq_steps (f := s.wordEndFor) ?_ ?_ h (Nat.le_refl _))
  · intro n i hi
    cases n with
    | zero => rfl
    | succ n => simp only [wordEndFor, charAt?_eq_none hi]
  · intro n m i hrest
    have hbrace : i < s.skipBytes (· != '}') (i + 2) + 1 := by
      have hle := s.le_skipBytes (· != '}') (i + 2)
      omega
    rw [wordEndFor, wordEndFor]
    cases s.charAt? i with
    | none => rfl
    | some c =>
      simp only [hrest _ (lt_add_utf8Size i c), hrest _ hbrace, hrest (i + 2) (by omega)]

theorem stringEndFor_eq {quote : Char} (hquote : quote ≠ '\x00') (h : s.size - i ≤ n) :
    s.stringEndFor quote n i = s.stringEnd? quote i := by
  refine steps_eq_steps (f := s.stringEndFor quote) ?_ ?_ h (Nat.le_refl _)
  · intro n i hi
    induction n generalizing i with
    | zero => rfl
    | succ n ih =>
      have hnext : s.stringEndFor quote (n + 1) i = s.stringEndFor quote n (i + 1) := by
        simp [stringEndFor, byteAt_eq_nul_of_size_le hi, hquote.symm]
      exact hnext.trans (ih (i + 1) (by omega))
  · intro n m i hrest
    simp only [stringEndFor, hrest (i + 1) (by omega), hrest (i + 2) (by omega)]

theorem templateStopFor_eq (h : s.size - i ≤ n) : s.templateStopFor n i = s.templateStop? i := by
  refine steps_eq_steps (f := s.templateStopFor) ?_ ?_ h (Nat.le_refl _)
  · intro n i hi
    induction n generalizing i with
    | zero => rfl
    | succ n ih =>
      have hnext : s.templateStopFor (n + 1) i = s.templateStopFor n (i + 1) := by
        simp [templateStopFor, byteAt_eq_nul_of_size_le hi]
      exact hnext.trans (ih (i + 1) (by omega))
  · intro n m i hrest
    simp only [templateStopFor, hrest (i + 1) (by omega), hrest (i + 2) (by omega)]

theorem regexpCloseFor_eq (h : s.size - i ≤ n) :
    s.regexpCloseFor n false false i = s.regexpClose? i := by
  -- The answer depends on what stands before the offset too, so all cases are scanned at once.
  have hscan : (fun escaped inClass => s.regexpCloseFor n escaped inClass i) =
      fun escaped inClass => s.regexpCloseFor (s.size - i) escaped inClass i := by
    refine steps_eq_steps (f := fun n i escaped inClass => s.regexpCloseFor n escaped inClass i)
      ?_ ?_ h (Nat.le_refl _)
    · intro n i hi
      funext escaped inClass
      induction n generalizing i escaped with
      | zero => rfl
      | succ n ih =>
        cases escaped
        · simp only [regexpCloseFor, byteAt_eq_nul_of_size_le hi]
          exact ih (i + 1) (by omega) false
        · exact ih (i + 1) (by omega) false
    · intro n m i hrest
      have hnext : ∀ escaped inClass, s.regexpCloseFor n escaped inClass (i + 1) =
          s.regexpCloseFor m escaped inClass (i + 1) :=
        fun escaped inClass => congrFun (congrFun (hrest (i + 1) (by omega)) escaped) inClass
      funext escaped inClass
      cases escaped <;> simp only [regexpCloseFor, hnext]
  exact congrFun (congrFun hscan false) false

/-! ## All scans -/

/-- No scan of the text is cut short: if it is given more steps than there are bytes left, its answer
is the same. -/
structure ScansEnd (s : Source) : Prop where
  bytes (p : Char → Bool) (n i : Nat) : s.size - i ≤ n →
    min (s.skipBytesFor p n i) (max i s.size) = s.skipBytes p i
  chars (p : Char → Bool) (n i : Nat) : s.size - i ≤ n → s.skipCharsFor p n i = s.skipChars p i
  pair (a b : Char) (n i : Nat) : a ≠ '\x00' → s.size - i ≤ n →
    s.findPairFor a b n i = s.findPair? a b i
  gap (n i : Nat) : s.size - i ≤ n → s.gapFor n i = s.gap i
  trivia (n i : Nat) : s.size - i ≤ n → s.skipTriviaFor n i = s.skipTrivia i
  word (n i : Nat) : s.size - i ≤ n → min (s.wordEndFor n i) s.size = s.wordEnd i
  string (quote : Char) (n i : Nat) : quote ≠ '\x00' → s.size - i ≤ n →
    s.stringEndFor quote n i = s.stringEnd? quote i
  template (n i : Nat) : s.size - i ≤ n → s.templateStopFor n i = s.templateStop? i
  regexp (n i : Nat) : s.size - i ≤ n → s.regexpCloseFor n false false i = s.regexpClose? i

theorem scansEnd (s : Source) : s.ScansEnd where
  bytes p _ _ h := skipBytesFor_eq p h
  chars p _ _ h := skipCharsFor_eq p h
  pair _ _ _ _ ha h := findPairFor_eq ha h
  gap _ _ h := gapFor_eq h
  trivia _ _ h := skipTriviaFor_eq h
  word _ _ h := wordEndFor_eq h
  string _ _ _ hquote h := stringEndFor_eq hquote h
  template _ _ h := templateStopFor_eq h
  regexp _ _ h := regexpCloseFor_eq h

end PlainScript.Source
