import PlainScript.Proofs.Trivia

/-!
# Lexemes are whole and not empty

Each way of reading a lexeme ends at a boundary at or after its start. The flags of a regular
expression are the exception: they are read as a word that is never cut out of the text, so that an
escape before a character outside ASCII may end them inside that character. Reading on from there
as ordinary code gives no lexeme, which is shown too.

A word is cut out of the text to see what it spells, and the cut fails if it falls inside a
character. Words step over an escape by two bytes, so this can happen only where a backslash stands
before a character outside ASCII. In a source without such a place nothing that is read at a boundary
is torn, and the flags of a regular expression end at a boundary too.

A lexeme of ordinary code is never empty, and neither is one inside a tag or between tags. A piece of
a template can be; it stops at the mark that ends it, and that mark is read next.
-/

namespace PlainScript

namespace Source

variable {s : Source} {i j : Nat}

theorem isBoundary_succ_of_eq {c : Char} (h : s.byteAt i = c) (hc : c.toNat < 128)
    (hnul : c ≠ '\x00') : s.isBoundary (i + 1) = true :=
  isBoundary_succ h (lt_size_of_byteAt h hnul) hc

theorem le_wordEndFor (s : Source) (n i : Nat) : i ≤ s.wordEndFor n i := by
  induction n generalizing i with
  | zero => exact Nat.le_refl i
  | succ n ih =>
    rw [wordEndFor]
    split
    case h_1 c _ =>
      split
      · exact Nat.le_trans (Nat.le_add_right i _) (ih _)
      · split
        · split
          · have hskip := le_skipBytes s (· != '}') (i + 2)
            exact Nat.le_trans (by omega) (ih _)
          · exact Nat.le_trans (Nat.le_add_right i 2) (ih _)
        · exact Nat.le_refl i
    case h_2 => exact Nat.le_refl i

theorem le_wordEnd (hi : i ≤ s.size) : i ≤ s.wordEnd i :=
  Nat.le_min.2 ⟨le_wordEndFor s _ i, hi⟩

theorem wordEnd_le_size (s : Source) (i : Nat) : s.wordEnd i ≤ s.size := Nat.min_le_right _ _

theorem stringEndFor_eq_some {quote : Char} {n : Nat} (h : s.stringEndFor quote n i = some j) :
    ∃ k, i ≤ k ∧ s.byteAt k = quote ∧ j = k + 1 := by
  induction n generalizing i with
  | zero => cases h
  | succ n ih =>
    rw [stringEndFor] at h
    split at h
    · obtain ⟨k, hk, hquote, hj⟩ := ih h
      exact ⟨k, by omega, hquote, hj⟩
    · split at h
      case isTrue hquote =>
        cases h
        exact ⟨i, Nat.le_refl i, hquote, rfl⟩
      case isFalse =>
        obtain ⟨k, hk, hquote, hj⟩ := ih h
        exact ⟨k, by omega, hquote, hj⟩

theorem templateStopFor_eq_some {n : Nat} (h : s.templateStopFor n i = some j) :
    i ≤ j ∧ (s.byteAt j = '\x60' ∨ (s.byteAt j = '$' ∧ s.byteAt (j + 1) = '{')) := by
  induction n generalizing i with
  | zero => cases h
  | succ n ih =>
    rw [templateStopFor] at h
    split at h
    case isTrue hmark =>
      cases h
      exact ⟨Nat.le_refl _, hmark⟩
    case isFalse =>
      split at h
      · have := ih h
        exact ⟨by omega, this.2⟩
      · have := ih h
        exact ⟨by omega, this.2⟩

theorem regexpCloseFor_eq_some {n : Nat} {escaped inClass : Bool}
    (h : s.regexpCloseFor n escaped inClass i = some j) : i ≤ j ∧ s.byteAt j = '/' := by
  induction n generalizing i escaped inClass with
  | zero => cases h
  | succ n ih =>
    have hstep : ∀ {escaped inClass : Bool},
        s.regexpCloseFor n escaped inClass (i + 1) = some j → i ≤ j ∧ s.byteAt j = '/' :=
      fun h => ⟨Nat.le_of_succ_le (ih h).1, (ih h).2⟩
    cases escaped with
    | true => exact hstep h
    | false =>
      rw [regexpCloseFor] at h
      split at h
      · exact hstep h
      · exact hstep h
      case h_3 hslash =>
        split at h
        · exact hstep h
        · cases h
          exact ⟨Nat.le_refl _, hslash⟩
      · cases h
      · cases h
      · exact hstep h
      · exact hstep h

theorem isBoundary_digitsEnd (hi : s.isBoundary i = true) :
    s.isBoundary (s.digitsEnd i) = true := by
  refine isBoundary_skipBytes (fun c hc => ?_) hi
  simp only [Char.isDigit, Bool.or_eq_true, Bool.and_eq_true, decide_eq_true_eq, beq_iff_eq] at hc
  rcases hc with hc | rfl
  · exact Nat.lt_of_le_of_lt (UInt32.le_iff_toNat_le.1 hc.2) (by decide)
  · decide

theorem isBoundary_hexDigitsEnd (hi : s.isBoundary i = true) :
    s.isBoundary (s.hexDigitsEnd i) = true := by
  refine isBoundary_skipBytes (fun c hc => ?_) hi
  have hlow : ∀ d : Char, c ≤ d → d.toNat < 128 → c.toNat < 128 :=
    fun d hcd hd => Nat.lt_of_le_of_lt (UInt32.le_iff_toNat_le.1 hcd) hd
  simp only [Char.isDigit, Bool.or_eq_true, Bool.and_eq_true, decide_eq_true_eq, beq_iff_eq] at hc
  rcases hc with ((hc | hc) | hc) | rfl
  · exact hlow '9' hc.2 (by decide)
  · exact hlow 'f' hc.2 (by decide)
  · exact hlow 'F' hc.2 (by decide)
  · decide

theorem le_digitsEnd (s : Source) (i : Nat) : i ≤ s.digitsEnd i := le_skipBytes s _ i

/-- No backslash stands before a character outside ASCII. -/
def PlainEscapes (s : Source) : Prop :=
  ∀ i c, s.charAt? i = some '\\' → s.charAt? (i + 1) = some c → c.toNat < 128

/-- An escape of two bytes ends at a boundary, unless the text ends before. -/
theorem PlainEscapes.isBoundary_add_two (h : s.PlainEscapes) (hi : s.charAt? i = some '\\')
    (hlt : i + 1 < s.size) : s.isBoundary (i + 2) = true := by
  have hnext : s.isBoundary (i + 1) = true := isBoundary_add_utf8Size hi
  obtain ⟨c, hc⟩ := exists_charAt? hnext hlt
  have hend := isBoundary_add_utf8Size hc
  rwa [utf8Size_eq_one (h i c hi hc)] at hend

theorem isBoundary_min_of_size_le (h : s.size ≤ j) : s.isBoundary (min j s.size) = true := by
  rw [Nat.min_eq_right h]
  exact isBoundary_size s

/-- A word ends at a boundary or beyond the end of the text. -/
theorem PlainEscapes.isBoundary_wordEndFor (h : s.PlainEscapes) (n : Nat)
    (hi : s.isBoundary i = true) : s.isBoundary (min (s.wordEndFor n i) s.size) = true := by
  have hstay : ∀ {i : Nat}, s.isBoundary i = true → s.isBoundary (min i s.size) = true := by
    intro i hi
    rwa [Nat.min_eq_left (le_size_of_isBoundary hi)]
  -- A scan that has left the text does not come back.
  have hpast : ∀ {n i : Nat}, s.size ≤ i → s.isBoundary (min (s.wordEndFor n i) s.size) = true :=
    fun hle => isBoundary_min_of_size_le (Nat.le_trans hle (le_wordEndFor s _ _))
  induction n generalizing i with
  | zero => exact hstay hi
  | succ n ih =>
    rw [wordEndFor]
    split
    case h_2 => exact hstay hi
    case h_1 c hc =>
      split
      case isTrue => exact ih (isBoundary_add_utf8Size hc)
      case isFalse =>
        split
        case isFalse => exact hstay hi
        case isTrue hescape =>
          subst hescape
          split
          case isTrue hbrace =>
            by_cases hlt : s.skipBytes (· != '}') (i + 2) < s.size
            · have hclose : s.byteAt (s.skipBytes (· != '}') (i + 2)) = '}' := by
                simpa using skipBytes_stop hlt
              exact ih (isBoundary_succ_of_eq hclose (by decide) (by decide))
            · exact hpast (by omega)
          case isFalse =>
            by_cases hlt : i + 1 < s.size
            · exact ih (h.isBoundary_add_two hc hlt)
            · exact hpast (by omega)

theorem PlainEscapes.isBoundary_wordEnd (h : s.PlainEscapes) (hi : s.isBoundary i = true) :
    s.isBoundary (s.wordEnd i) = true :=
  h.isBoundary_wordEndFor _ hi

/-- Between two boundaries the text can be cut out. -/
theorem exists_slice? (hi : s.isBoundary i = true) (hj : s.isBoundary j = true) (hij : i ≤ j) :
    ∃ text, s.slice? i j = some text := by
  have hsize := le_size_of_isBoundary hj
  have hend : s.size = s.text.utf8ByteSize := by simp [size, s.bytes_eq]
  have hvalid : (s.bytes.extract i j).IsValidUTF8 := by
    rw [s.bytes_eq, String.toUTF8_eq_toByteArray]
    refine (String.Pos.Raw.isValidUTF8_extract_iff ⟨i⟩ ⟨j⟩ hij ?_).2 (.inr ⟨?_, ?_⟩)
    · rw [String.Pos.Raw.le_iff]
      simpa [hend] using hsize
    · exact (isBoundary_iff_isValid s i).1 hi
    · exact (isBoundary_iff_isValid s j).1 hj
  rw [slice?, if_pos ⟨hij, hsize⟩, String.fromUTF8?]
  simp [hvalid]

/-- A word has at least one character. -/
theorem lt_wordEnd {c : Char} (hc : s.charAt? i = some c)
    (hstart : (isNameStart c || c == '\\') = true) : i < s.wordEnd i := by
  have hlt := lt_size_of_charAt? hc
  obtain ⟨n, hn⟩ : ∃ n, s.size - i = n + 1 := ⟨s.size - i - 1, by omega⟩
  have hword : i < s.wordEndFor (n + 1) i := by
    rw [wordEndFor, hc]
    dsimp only
    split
    case isTrue =>
      have hpos := c.utf8Size_pos
      have hle := le_wordEndFor s n (i + c.utf8Size)
      omega
    case isFalse hpart =>
      have hescape : c = '\\' := by
        rcases Bool.or_eq_true_iff.1 hstart with hname | hescape
        · exact absurd (isNamePart_of_isNameStart hname) hpart
        · exact beq_iff_eq.1 hescape
      rw [if_pos hescape]
      split
      case isTrue =>
        have hskip := le_skipBytes s (· != '}') (i + 2)
        have hle := le_wordEndFor s n (s.skipBytes (· != '}') (i + 2) + 1)
        omega
      case isFalse =>
        have hle := le_wordEndFor s n (i + 2)
        omega
  rw [wordEnd, hn]
  exact Nat.lt_min.2 ⟨hword, hlt⟩

theorem lt_digitsEnd (hdigit : (s.byteAt i).isDigit = true) : i < s.digitsEnd i := by
  have hlt : i < s.size := by
    refine lt_size_of_byteAt rfl ?_
    intro hnul
    rw [hnul] at hdigit
    exact absurd hdigit (by decide)
  obtain ⟨n, hn⟩ : ∃ n, s.size - i = n + 1 := ⟨s.size - i - 1, by omega⟩
  rw [digitsEnd, skipBytes, hn, skipBytesFor, if_pos (by simp [hdigit])]
  exact le_skipBytesFor s _ n (i + 1)

theorem lt_skipChars {p : Char → Bool} {c : Char} (hc : s.charAt? i = some c) (hp : p c = true) :
    i < s.skipChars p i := by
  have hlt := lt_size_of_charAt? hc
  have hpos := c.utf8Size_pos
  obtain ⟨n, hn⟩ : ∃ n, s.size - i = n + 1 := ⟨s.size - i - 1, by omega⟩
  rw [skipChars, hn, skipCharsFor, hc]
  dsimp only
  rw [if_pos hp]
  have hle := le_skipCharsFor s p n (i + c.utf8Size)
  omega

end Source

theorem Word.kind_of_reserved {text : String} {kind : TokenKind}
    (h : Word.ofText text = .reserved kind) : kind ∉ [.eof, .template, .shiftLeft] := by
  have hall : ∀ entry ∈ reservedWords, entry.2 ∉ [.eof, .template, .shiftLeft] := by decide
  rw [Word.ofText] at h
  split at h
  case h_1 hk =>
    cases h
    obtain ⟨l₁, l₂, hl, -⟩ := List.lookup_eq_some_iff.1 hk
    exact hall (text, kind) (by rw [hl]; simp)
  case h_2 => cases h

namespace Punctuator

theorem isBoundary_of_standsAt {s : Source} {cs : List Char} {i : Nat}
    (h : standsAt s cs i = true) (hcs : ∀ c ∈ cs, c.toNat < 128 ∧ c ≠ '\x00')
    (hi : s.isBoundary i = true) : s.isBoundary (i + cs.length) = true := by
  induction cs generalizing i with
  | nil => exact hi
  | cons c cs ih =>
    rw [standsAt, Bool.and_eq_true, beq_iff_eq] at h
    obtain ⟨hc, hrest⟩ := h
    have hascii := hcs c List.mem_cons_self
    have hnext := Source.isBoundary_succ_of_eq hc hascii.1 hascii.2
    have hend := ih hrest (fun d hd => hcs d (List.mem_cons_of_mem c hd)) hnext
    rwa [List.length_cons, Nat.add_comm cs.length 1, ← Nat.add_assoc]

/-- The punctuators are spelled in ASCII, and `<<` is the only left shift. -/
theorem table_ascii : ∀ entry ∈ table, (∀ c ∈ entry.1.toList, c.toNat < 128 ∧ c ≠ '\x00') ∧
    entry.1.toList ≠ [] ∧ entry.2 ∉ [.eof, .template] ∧
    (entry.2 = .shiftLeft → entry.1.toList.head? = some '<') := by
  have hall : table.all (fun entry => entry.1.toList.all (fun c => c.toNat < 128 && c != '\x00') &&
      !entry.1.toList.isEmpty && decide (entry.2 ∉ [.eof, .template]) &&
      (entry.2 != .shiftLeft || entry.1.toList.head? == some '<')) = true := by
    decide +kernel
  intro entry hentry
  have h := List.all_eq_true.1 hall entry hentry
  simp only [Bool.and_eq_true, List.all_eq_true, decide_eq_true_eq, bne_iff_ne,
    Bool.not_eq_true', List.isEmpty_eq_false_iff, Bool.or_eq_true, beq_iff_eq] at h
  obtain ⟨⟨⟨hascii, hne⟩, hend⟩, hshift⟩ := h
  exact ⟨hascii, hne, hend, fun hkind => hshift.resolve_left fun hother => hother hkind⟩

end Punctuator

namespace Reading

variable {s : Source} {start stop : Nat} {kind : TokenKind} {r : Reading}

/-- What a lexeme that is read at an offset has to satisfy: it ends at a boundary, it is not the end
of the text, and a left shift starts with `<`. -/
def Sound (s : Source) (start : Nat) : Reading → Prop
  | .lexeme kind _ stop => start ≤ stop ∧ s.isBoundary stop = true ∧ kind ≠ .eof ∧
      (kind = .shiftLeft → s.byteAt start = '<')
  | .fault _ _ => True
  | .torn _ _ => True

/-- What is read does not cut a character. -/
def Whole : Reading → Prop
  | .torn _ _ => False
  | _ => True

/-- A lexeme that is read at an offset ends after it, and it is no piece of a template. -/
def Fills (start : Nat) : Reading → Prop
  | .lexeme kind _ stop => start < stop ∧ kind ≠ .template
  | _ => True

/-- What holds of every reading at a boundary, but for templates and regular expressions. -/
def Full (s : Source) (start : Nat) : Reading → Prop
  | .lexeme kind _ stop => start < stop ∧ s.isBoundary stop = true ∧ kind ∉ [.eof, .template] ∧
      (kind = .shiftLeft → s.byteAt start = '<')
  | .fault _ _ => True
  | .torn _ _ => ¬ s.PlainEscapes

theorem Full.sound (h : r.Full s start) : r.Sound s start := by
  cases r with
  | lexeme => exact ⟨Nat.le_of_lt h.1, h.2.1, fun heof => h.2.2.1 (by simp [heof]), h.2.2.2⟩
  | fault => exact trivial
  | torn => exact trivial

theorem Full.whole (h : r.Full s start) (hplain : s.PlainEscapes) : r.Whole := by
  cases r with
  | lexeme => exact trivial
  | fault => exact trivial
  | torn => exact h hplain

theorem Full.fills (h : r.Full s start) : r.Fills start := by
  cases r with
  | lexeme => exact ⟨h.1, fun htemplate => h.2.2.1 (by simp [htemplate])⟩
  | fault => exact trivial
  | torn => exact trivial

theorem full_plain (hlt : start < stop) (hstop : s.isBoundary stop = true)
    (hkind : kind ∉ [.eof, .template, .shiftLeft]) : (plain kind stop).Full s start := by
  simp only [List.mem_cons, List.not_mem_nil, or_false, not_or] at hkind
  exact ⟨hlt, hstop, by simp [hkind], fun hshift => absurd hshift hkind.2.2⟩

/-- A lexeme that ends with an ASCII character. -/
theorem full_upTo {c : Char} {i : Nat} (hi : s.byteAt i = c) (hc : c.toNat < 128) (hnul : c ≠ '\x00')
    (hle : start ≤ i) (hkind : kind ∉ [.eof, .template, .shiftLeft]) :
    (plain kind (i + 1)).Full s start :=
  full_plain (Nat.lt_succ_of_le hle) (Source.isBoundary_succ_of_eq hi hc hnul) hkind

theorem full_word {c : Char} (hc : s.charAt? start = some c)
    (hname : (isNameStart c || c == '\\') = true) : (word s start).Full s start := by
  have hstart := Source.isBoundary_of_charAt? hc
  have hlt := Source.lt_wordEnd hc hname
  rw [word]
  split
  case h_1 hnone =>
    intro hplain
    obtain ⟨text, htext⟩ := Source.exists_slice? hstart (hplain.isBoundary_wordEnd hstart) (by omega)
    rw [htext] at hnone
    cases hnone
  case h_2 text htext =>
    have hstop := (Source.isBoundary_of_slice? htext hstart).2
    split
    case h_1 kind hkind => exact full_plain hlt hstop (Word.kind_of_reserved hkind)
    case h_2 => exact ⟨hlt, hstop, by decide, nofun⟩

theorem full_radixNumber (hdigits : s.isBoundary (start + 2) = true) :
    (radixNumber s start).Full s start := by
  have hle : start + 2 ≤ s.hexDigitsEnd (start + 2) := Source.le_skipBytes s _ _
  rw [radixNumber]
  split
  case isTrue hn => exact full_upTo hn (by decide) (by decide) (by omega) (by decide)
  case isFalse => exact full_plain (by omega) (Source.isBoundary_hexDigitsEnd hdigits) (by decide)

theorem full_decimalNumber (hstart : s.isBoundary start = true)
    (hdigit : s.byteAt start = '.' ∨ (s.byteAt start).isDigit = true) :
    (decimalNumber s start).Full s start := by
  unfold decimalNumber
  extract_lets whole fraction sign exponent
  have hwhole : s.isBoundary whole = true ∧
      (start < whole ∨ (whole = start ∧ s.byteAt whole = '.')) := by
    unfold whole
    split
    case isTrue hdot => exact ⟨hstart, .inr ⟨rfl, hdot⟩⟩
    case isFalse hdot =>
      exact ⟨Source.isBoundary_digitsEnd hstart, .inl (Source.lt_digitsEnd (hdigit.resolve_left hdot))⟩
  have hfraction : start < fraction ∧ s.isBoundary fraction = true := by
    unfold fraction
    split
    case isTrue hdot =>
      have hnext := Source.isBoundary_succ_of_eq hdot (by decide) (by decide)
      have hle := Source.le_digitsEnd s (whole + 1)
      exact ⟨by omega, Source.isBoundary_digitsEnd hnext⟩
    case isFalse hdot => exact ⟨hwhole.2.resolve_right fun h => hdot h.2, hwhole.1⟩
  have hexponent : start < exponent ∧ s.isBoundary exponent = true := by
    unfold exponent
    split
    case isTrue hmark =>
      have hnext : s.isBoundary (fraction + 1) = true := by
        rcases hmark with hmark | hmark <;>
          exact Source.isBoundary_succ_of_eq hmark (by decide) (by decide)
      split
      case isTrue hsign =>
        have hdigits : s.isBoundary (fraction + 1 + 1) = true := by
          rcases hsign with hsign | hsign <;>
            exact Source.isBoundary_succ_of_eq hsign (by decide) (by decide)
        have hle := Source.le_digitsEnd s (fraction + 2)
        exact ⟨by omega, Source.isBoundary_digitsEnd hdigits⟩
      case isFalse =>
        have hle := Source.le_digitsEnd s (fraction + 1)
        exact ⟨by omega, Source.isBoundary_digitsEnd hnext⟩
    case isFalse => exact hfraction
  split
  case h_1 hn => exact full_upTo hn (by decide) (by decide) (by omega) (by decide)
  case h_2 hm => exact full_upTo hm (by decide) (by decide) (by omega) (by decide)
  case h_3 => exact full_plain hexponent.1 hexponent.2 (by decide)

theorem full_string (hquote : (s.byteAt start).toNat < 128) (hnul : s.byteAt start ≠ '\x00') :
    (string s start).Full s start := by
  rw [string]
  split
  case h_1 stop hstop =>
    obtain ⟨k, hk, hbyte, rfl⟩ := Source.stringEndFor_eq_some hstop
    exact full_upTo hbyte hquote hnul (by omega) (by decide)
  case h_2 => exact trivial

theorem full_punctuator (hstart : s.isBoundary start = true) :
    (punctuator s start).Full s start := by
  rw [punctuator]
  split
  case h_1 kind length hlongest =>
    rw [Punctuator.longest?, Option.map_eq_some_iff] at hlongest
    obtain ⟨entry, hentry, hpair⟩ := hlongest
    cases hpair
    have hstands := List.find?_some hentry
    obtain ⟨hascii, hne, hkind, hshift⟩ := Punctuator.table_ascii entry (List.mem_of_find?_eq_some hentry)
    have hstop := Punctuator.isBoundary_of_standsAt hstands hascii hstart
    have hpos := List.length_pos_iff.2 hne
    rw [String.length_toList] at hstop hpos
    refine ⟨by omega, hstop, hkind, fun hkind => ?_⟩
    have hhead := hshift hkind
    cases hcs : entry.1.toList with
    | nil => exact absurd hcs hne
    | cons c cs =>
      simp only [hcs, Punctuator.standsAt, Bool.and_eq_true, beq_iff_eq, List.head?_cons,
        Option.some.injEq] at hstands hhead
      exact hstands.1.trans hhead
  case h_2 =>
    rw [if_pos hstart]
    exact trivial

/-- The second character of a number with a base is ASCII. -/
theorem isBoundary_of_base {c : Char} (h : s.byteAt (start + 1) = c)
    (hbase : (c.toLower == 'x' || c.toLower == 'o' || c.toLower == 'b') = true) :
    s.isBoundary (start + 2) = true := by
  have hlow : ∀ d : Char, c.toLower = d → d.toNat < 128 → c.toNat < 128 := by
    intro d hd hlt
    unfold Char.toLower at hd
    split at hd
    case isTrue hrange => exact Nat.lt_of_le_of_lt (UInt32.le_iff_toNat_le.1 hrange.2) (by decide)
    case isFalse =>
      subst hd
      exact hlt
  have hascii : c.toNat < 128 := by
    simp only [Bool.or_eq_true, beq_iff_eq] at hbase
    rcases hbase with (hd | hd) | hd <;> exact hlow _ hd (by decide)
  refine Source.isBoundary_succ_of_eq h hascii ?_
  rintro rfl
  exact absurd hbase (by decide)

theorem full_symbol (flow isType : Bool) (hstart : s.isBoundary start = true) :
    (symbol s flow isType start).Full s start := by
  have hpunctuator := full_punctuator hstart
  have hdecimal := full_decimalNumber hstart
  have hsingle {kind : TokenKind} {c : Char} (hbyte : s.byteAt start = c) (hc : c.toNat < 128)
      (hnul : c ≠ '\x00') (hkind : kind ∉ [.eof, .template, .shiftLeft]) :=
    full_upTo hbyte hc hnul (Nat.le_refl start) hkind
  unfold symbol
  extract_lets second third
  split
  case h_1 hdot =>
    split
    · exact hdecimal (.inl hdot)
    · exact hpunctuator
  case h_2 hbyte => exact full_string (by rw [hbyte]; decide) (by rw [hbyte]; decide)
  case h_3 hbyte => exact full_string (by rw [hbyte]; decide) (by rw [hbyte]; decide)
  case h_11 hzero =>
    split
    case isTrue hbase => exact full_radixNumber (isBoundary_of_base rfl hbase)
    case isFalse => exact hdecimal (.inr (by rw [hzero]; decide))
  case h_12 =>
    split
    case isTrue hdigit => exact hdecimal (.inr hdigit)
    case isFalse => exact hpunctuator
  all_goals
    split
    case isFalse => exact hpunctuator
  case h_4.isTrue hpair | h_5.isTrue hpair =>
    rw [Bool.and_eq_true, beq_iff_eq] at hpair
    exact full_upTo hpair.2 (by decide) (by decide) (Nat.le_succ start) (by decide)
  all_goals exact hsingle ‹_› (by decide) (by decide) (by decide)

theorem full_code (flow isType : Bool) (hstart : s.isBoundary start = true) :
    (code s flow isType start).Full s start := by
  rw [code]
  split
  case h_1 c hc =>
    split
    case isTrue hname => exact full_word hc hname
    case isFalse => exact full_symbol flow isType hstart
  case h_2 => exact full_symbol flow isType hstart

theorem full_tag (hstart : s.isBoundary start = true) : (tag s start).Full s start := by
  have hstring (hquote : (s.byteAt start).toNat < 128) (hnul : s.byteAt start ≠ '\x00') :
      (attributeString s start).Full s start := by
    unfold attributeString
    extract_lets close
    split
    case isTrue hlt =>
      have hstop : (s.byteAt close != s.byteAt start) = false := Source.skipBytes_stop hlt
      have hle := Source.le_skipBytes s (· != s.byteAt start) (start + 1)
      exact full_upTo (by simpa using hstop) hquote hnul (by omega) (by decide)
    case isFalse => exact trivial
  rw [tag]
  split
  case isTrue hname =>
    obtain ⟨c, hc, hname⟩ := (Option.any_eq_true _ _).1 hname
    have hrun := Source.run_skipChars s (fun c => isNamePart c || c == '-') start
    exact full_plain (Source.lt_skipChars hc (by simp [isNamePart_of_isNameStart hname]))
      (hrun.isBoundary hstart) (by decide)
  case isFalse =>
    split
    case h_1 hbyte => exact hstring (by rw [hbyte]; decide) (by rw [hbyte]; decide)
    case h_2 hbyte => exact hstring (by rw [hbyte]; decide) (by rw [hbyte]; decide)
    case h_10 => exact trivial
    all_goals exact full_upTo ‹_› (by decide) (by decide) (Nat.le_refl start) (by decide)

theorem full_child (flow isType : Bool) (hstart : s.isBoundary start = true) :
    (child s flow isType start).Full s start := by
  unfold child
  extract_lets stop spansLines isBlank
  split
  case isTrue => exact trivial
  case isFalse hlt =>
    have hlt : stop < s.size := Nat.lt_of_not_le hlt
    have hle : start ≤ stop := Source.le_skipBytes s _ start
    have hmark : s.byteAt stop = '<' ∨ s.byteAt stop = '{' := by
      have hstop := Source.skipBytes_stop (p := fun c => c != '<' && c != '{') hlt
      rw [Bool.and_eq_false_iff] at hstop
      rcases hstop with hstop | hstop
      · exact .inl (by simpa using hstop)
      · exact .inr (by simpa using hstop)
    split
    case isTrue =>
      split
      case isTrue hless => exact full_upTo hless (by decide) (by decide) (Nat.le_refl start) (by decide)
      case isFalse => exact full_symbol flow isType hstart
    case isFalse hne =>
      have hboundary : s.isBoundary stop = true := by
        rcases hmark with hmark | hmark <;>
          exact Source.isBoundary_of_charAt? (Source.charAt?_of_byteAt hmark hlt (by decide))
      exact full_plain (by omega) hboundary (by split <;> decide)

/-! ## Templates -/

theorem sound_template (afterPiece : Bool) : (template s afterPiece start).Sound s start := by
  rw [template]
  split
  case h_1 => exact trivial
  case h_2 stop hstop =>
    obtain ⟨hle, hmark⟩ := Source.templateStopFor_eq_some hstop
    have hboundary : s.isBoundary stop = true := by
      rcases hmark with hmark | ⟨hmark, -⟩ <;>
        exact Source.isBoundary_of_charAt? (Source.charAt?_of_byteAt hmark
          (Source.lt_size_of_byteAt hmark (by decide)) (by decide))
    split
    case isTrue =>
      split
      case isTrue hdollar =>
        have hbrace : s.byteAt (stop + 1) = '{' := by
          rcases hmark with hmark | hmark
          · exact absurd (hdollar.symm.trans hmark) (by decide)
          · exact hmark.2
        exact (full_upTo hbrace (by decide) (by decide) (by omega) (by decide)).sound
      case isFalse hdollar =>
        have hquote : s.byteAt stop = '\x60' := hmark.resolve_right (fun h => hdollar h.1)
        exact (full_upTo hquote (by decide) (by decide) hle (by decide)).sound
    case isFalse => exact ⟨hle, hboundary, by decide, nofun⟩

theorem whole_template (s : Source) (afterPiece : Bool) (start : Nat) :
    (template s afterPiece start).Whole := by
  rw [template]
  split
  · exact trivial
  · split
    · split <;> exact trivial
    · exact trivial

theorem lt_size_of_template {afterPiece : Bool} {kind : TokenKind} {keyword : SoftKeyword}
    (h : template s afterPiece start = .lexeme kind keyword stop) : start < s.size := by
  rw [template] at h
  split at h
  case h_1 => cases h
  case h_2 mark hmark =>
    obtain ⟨hle, hbyte⟩ := Source.templateStopFor_eq_some hmark
    have hlt : mark < s.size := by
      rcases hbyte with hbyte | ⟨hbyte, -⟩ <;> exact Source.lt_size_of_byteAt hbyte (by decide)
    omega

/-- A piece of a template stops where the mark stands that ends it. -/
theorem template_piece {kind : TokenKind} {keyword : SoftKeyword} {stop : Nat}
    (h : template s false start = .lexeme kind keyword stop) :
    kind = .template ∧
      (s.byteAt stop = '\x60' ∨ (s.byteAt stop = '$' ∧ s.byteAt (stop + 1) = '{')) := by
  rw [template] at h
  split at h
  case h_1 => cases h
  case h_2 mark hmark =>
    cases h
    exact ⟨rfl, (Source.templateStopFor_eq_some hmark).2⟩

/-- Where a mark stands the mark is read, and not another piece. -/
theorem fills_template
    (hmark : s.byteAt start = '\x60' ∨ (s.byteAt start = '$' ∧ s.byteAt (start + 1) = '{')) :
    (template s true start).Fills start := by
  have hlt : start < s.size := by
    rcases hmark with hmark | ⟨hmark, -⟩ <;> exact Source.lt_size_of_byteAt hmark (by decide)
  have hstop : s.templateStop? start = some start := by
    obtain ⟨n, hn⟩ : ∃ n, s.size - start = n + 1 := ⟨s.size - start - 1, by omega⟩
    rw [Source.templateStop?, hn, Source.templateStopFor, if_pos hmark]
  rw [template, hstop]
  dsimp only
  rw [if_pos (by simp)]
  split <;> exact ⟨by omega, by decide⟩

/-! ## Text between tags, regular expressions and code -/

theorem lt_size_of_child {flow isType : Bool} {kind : TokenKind} {keyword : SoftKeyword}
    (h : child s flow isType start = .lexeme kind keyword stop) : start < s.size := by
  have hle := Source.le_skipBytes s (fun c => c != '<' && c != '{') start
  unfold child at h
  extract_lets mark spansLines isBlank at h
  split at h
  case isTrue => cases h
  case isFalse hlt => exact Nat.lt_of_le_of_lt hle (Nat.lt_of_not_le hlt)

/-- A regular expression ends inside the text, though perhaps not at a boundary. -/
theorem regexp_eq_lexeme {kind : TokenKind} {keyword : SoftKeyword}
    (h : regexp s start = .lexeme kind keyword stop) :
    start ≤ stop ∧ stop ≤ s.size ∧ kind = .regexp := by
  rw [regexp] at h
  split at h
  case h_1 slash hslash =>
    obtain ⟨hle, hbyte⟩ := Source.regexpCloseFor_eq_some hslash
    have hlt := Source.lt_size_of_byteAt hbyte (by decide)
    have hend : slash + 1 ≤ s.wordEnd (slash + 1) := Source.le_wordEnd hlt
    have hsize := Source.wordEnd_le_size s (slash + 1)
    cases h
    exact ⟨by omega, hsize, rfl⟩
  case h_2 => cases h

theorem whole_regexp (s : Source) (start : Nat) : (regexp s start).Whole := by
  rw [regexp]
  split <;> exact trivial

/-- The flags of a regular expression end at a boundary. -/
theorem isBoundary_of_regexp (h : s.PlainEscapes) {kind : TokenKind} {keyword : SoftKeyword}
    {stop : Nat} (hread : regexp s start = .lexeme kind keyword stop) :
    s.isBoundary stop = true := by
  rw [regexp] at hread
  split at hread
  case h_1 slash hslash =>
    obtain ⟨-, hbyte⟩ := Source.regexpCloseFor_eq_some hslash
    have hnext := Source.isBoundary_succ_of_eq hbyte (by decide) (by decide)
    cases hread
    exact h.isBoundary_wordEnd hnext
  case h_2 => cases hread

/-- A regular expression holds at least its two slashes. -/
theorem fills_regexp (s : Source) (start : Nat) : (regexp s start).Fills start := by
  rw [regexp]
  split
  case h_1 slash hslash =>
    obtain ⟨hle, hbyte⟩ := Source.regexpCloseFor_eq_some hslash
    have hlt := Source.lt_size_of_byteAt hbyte (by decide)
    have hend : slash + 1 ≤ s.wordEnd (slash + 1) := Source.le_wordEnd hlt
    exact ⟨by omega, by decide⟩
  case h_2 => exact trivial

/-- Inside a character no lexeme is read. -/
theorem isBoundary_of_code {flow isType : Bool} {keyword : SoftKeyword} (hlt : start < s.size)
    (h : code s flow isType start = .lexeme kind keyword stop) : s.isBoundary start = true := by
  apply Bool.of_not_eq_false
  intro hb
  have hnone := Source.charAt?_of_not_isBoundary hb
  have hbyte : ¬ (s.byteAt start).toNat < 128 := by
    intro hlow
    rw [Source.charAt?_of_byteAt rfl hlt hlow] at hnone
    cases hnone
  have hne : ∀ c : Char, c.toNat < 128 → s.byteAt start ≠ c := by
    rintro c hc rfl
    exact hbyte hc
  have hdigit : (s.byteAt start).isDigit = false := by
    rw [Bool.eq_false_iff]
    intro hdigit
    simp only [Char.isDigit, Bool.and_eq_true, decide_eq_true_eq] at hdigit
    exact hbyte (Nat.lt_of_le_of_lt (UInt32.le_iff_toNat_le.1 hdigit.2) (by decide))
  have hlongest : Punctuator.longest? s start = none := by
    rw [Punctuator.longest?, Option.map_eq_none_iff, List.find?_eq_none]
    intro entry hentry hstands
    obtain ⟨hascii, hne', -, -⟩ := Punctuator.table_ascii entry hentry
    cases hcs : entry.1.toList with
    | nil => exact hne' hcs
    | cons c cs =>
      rw [hcs, Punctuator.standsAt, Bool.and_eq_true, beq_iff_eq] at hstands
      exact hne c (hascii c (by simp [hcs])).1 hstands.1
  have hpunctuator : punctuator s start = .torn start s.size := by
    simp only [punctuator, hlongest, hb, Bool.false_eq_true, if_false]
  rw [code, hnone] at h
  change symbol s flow isType start = _ at h
  unfold symbol at h
  extract_lets second third at h
  split at h
  case h_12 =>
    rw [if_neg (by simp [hdigit]), hpunctuator] at h
    cases h
  all_goals exact absurd ‹_› (hne _ (by decide))

end Reading

end PlainScript
