import PlainScript.Proofs.Boundary

/-!
# What stands between lexemes

`Source.Trivia s i j` says that the text from `i` to `j` is nothing but blanks, line terminators and
complete comments, and a `#!` line if it stands at the very start. The relation reads the text
character by character and mentions no scanner. A line comment is complete when it reaches a line
terminator or the end of the text, a block comment when it reaches the first `*/` after its opening.

The main result is that `Source.gap` passes over trivia only. It does not say here that all trivia is
passed over.
-/

namespace PlainScript.Source

variable {s : Source} {i j m : Nat}

/-- From an offset up to a line terminator or the end of the text. -/
structure RestOfLine (s : Source) (i j : Nat) : Prop where
  run : s.Run (!isLineTerminator ·) i j
  stop : ∀ c, s.charAt? j = some c → isLineTerminator c = true

/-- From an offset up to and including the first `*/`. -/
structure RestOfComment (s : Source) (i j : Nat) : Prop where
  le : i + 2 ≤ j
  star : s.charAt? (j - 2) = some '*'
  slash : s.charAt? (j - 1) = some '/'
  first : ∀ k, i ≤ k → k + 2 < j → ¬ (s.charAt? k = some '*' ∧ s.charAt? (k + 1) = some '/')

/-- Blanks, line terminators and complete comments. -/
inductive Trivia (s : Source) : Nat → Nat → Prop
  | none (i : Nat) : Trivia s i i
  | blank {i j : Nat} {c : Char} :
      s.charAt? i = some c → isGap c = true → Trivia s (i + c.utf8Size) j → Trivia s i j
  | lineComment {i m j : Nat} :
      s.charAt? i = some '/' → s.charAt? (i + 1) = some '/' → s.RestOfLine (i + 2) m →
      Trivia s m j → Trivia s i j
  | blockComment {i m j : Nat} :
      s.charAt? i = some '/' → s.charAt? (i + 1) = some '*' → s.RestOfComment (i + 2) m →
      Trivia s m j → Trivia s i j
  | interpreterLine {m j : Nat} :
      s.charAt? 0 = some '#' → s.charAt? 1 = some '!' → s.RestOfLine 2 m →
      Trivia s m j → Trivia s 0 j

theorem RestOfLine.isBoundary (h : s.RestOfLine i j) (hi : s.isBoundary i = true) :
    s.isBoundary j = true :=
  h.run.isBoundary hi

theorem RestOfComment.isBoundary (h : s.RestOfComment i j) : s.isBoundary j = true := by
  have hend : s.isBoundary (j - 1 + 1) = true := isBoundary_add_utf8Size h.slash
  have hle := h.le
  rwa [Nat.sub_add_cancel (by omega)] at hend

theorem Trivia.le (h : s.Trivia i j) : i ≤ j := by
  induction h with
  | none => exact Nat.le_refl _
  | blank _ _ _ ih => omega
  | lineComment _ _ hline _ ih =>
    have := hline.run.le
    omega
  | blockComment _ _ hbody _ ih =>
    have := hbody.le
    omega
  | interpreterLine _ _ _ _ _ => omega

theorem Trivia.isBoundary (h : s.Trivia i j) (hi : s.isBoundary i = true) :
    s.isBoundary j = true := by
  induction h with
  | none => exact hi
  | blank hc _ _ ih => exact ih (isBoundary_add_utf8Size hc)
  | lineComment _ hslash hline _ ih => exact ih (hline.isBoundary (isBoundary_add_utf8Size hslash))
  | blockComment _ _ hbody _ ih => exact ih hbody.isBoundary
  | interpreterLine _ hbang hline _ ih => exact ih (hline.isBoundary (isBoundary_add_utf8Size hbang))

/-! ## The scanner -/

theorem restOfLine_skipChars (s : Source) (i : Nat) :
    s.RestOfLine i (s.skipChars (!isLineTerminator ·) i) where
  run := run_skipChars s _ i
  stop c hc := by simpa using skipChars_stop hc

theorem restOfComment_of_findPair? (h : s.findPair? '*' '/' i = some j) :
    s.RestOfComment i (j + 2) := by
  obtain ⟨hle, hstar, hslash, hfirst⟩ := findPairFor_eq_some h
  refine ⟨by omega, ?_, ?_, ?_⟩
  · exact charAt?_of_byteAt hstar (lt_size_of_byteAt hstar (by decide)) (by decide)
  · exact charAt?_of_byteAt hslash (lt_size_of_byteAt hslash (by decide)) (by decide)
  · rintro k hik hkj ⟨ha, hb⟩
    have hastar := byteAt_of_charAt? ha (by decide)
    have hbslash := byteAt_of_charAt? hb (by decide)
    exact hfirst k hik (by omega) ⟨hastar, hbslash⟩

/-- What `gap` passes over is trivia. -/
theorem trivia_of_gapFor {n : Nat} (h : s.gapFor n i = .upTo j) : s.Trivia i j := by
  induction n generalizing i with
  | zero =>
    cases h
    exact .none _
  | succ n ih =>
    have hascii : ∀ {k : Nat} {c : Char}, s.byteAt k = c → c ≠ '\x00' → c.toNat < 128 →
        s.charAt? k = some c :=
      fun hk hc hlow => charAt?_of_byteAt hk (lt_size_of_byteAt hk hc) hlow
    rw [gapFor] at h
    split at h
    case h_1 hi =>
      have hopen := hascii hi (by decide) (by decide)
      split at h
      case h_1 hstar =>
        split at h
        case h_1 m hm =>
          exact .blockComment hopen (hascii hstar (by decide) (by decide))
            (restOfComment_of_findPair? hm) (ih h)
        case h_2 => cases h
      case h_2 hslash =>
        exact .lineComment hopen (hascii hslash (by decide) (by decide))
          (restOfLine_skipChars s _) (ih h)
      case h_3 =>
        cases h
        exact .none _
    case h_2 hi =>
      split at h
      case isTrue hstart =>
        obtain ⟨rfl, hbang⟩ := hstart
        exact .interpreterLine (hascii hi (by decide) (by decide))
          (hascii hbang (by decide) (by decide)) (restOfLine_skipChars s 2) (ih h)
      case isFalse =>
        cases h
        exact .none _
    case h_3 =>
      split at h
      case h_1 c hc =>
        split at h
        case isTrue hgap => exact .blank hc hgap (ih h)
        case isFalse =>
          cases h
          exact .none _
      case h_2 =>
        cases h
        exact .none _

theorem trivia_of_gap (h : s.gap i = .upTo j) : s.Trivia i j := trivia_of_gapFor h

/-- Inside a character there is no trivia to pass over. -/
theorem gap_of_not_isBoundary (hi : i < s.size) (hb : s.isBoundary i = false) :
    s.gap i = .upTo i := by
  have hnone := charAt?_of_not_isBoundary hb
  have hbyte : ∀ {c : Char}, c.toNat < 128 → s.byteAt i ≠ c := by
    intro c hc heq
    rw [charAt?_of_byteAt heq hi hc] at hnone
    cases hnone
  obtain ⟨n, hn⟩ : ∃ n, s.size - i = n + 1 := ⟨s.size - i - 1, by omega⟩
  rw [gap, hn, gapFor, hnone]
  split
  · exact absurd ‹_› (hbyte (by decide))
  · exact absurd ‹_› (hbyte (by decide))
  · rfl

end PlainScript.Source
