import Mathlib.Data.List.Chain
import Mathlib.Data.List.Find
import PlainScript.Proofs.Lexemes
import PlainScript.Proofs.Reassembly
import PlainScript.Proofs.Lexemes

/-!
# Texts that are lists of lexemes

A text can be written down as a list of spellings, each with or without a blank before it. If every
spelling is one that the reader takes for the lexeme meant, in front of whatever follows it, then the
lexemes of the text are known, and `Source.Follows` says how the parser gets from each of them to the
next.
-/

namespace PlainScript

namespace Source

variable {s : Source} {i : Nat} {c : Char} {cs word : List Char}

/-- The characters from an offset to the end of the text. -/
def Rest (s : Source) (i : Nat) (cs : List Char) : Prop :=
  ∃ before : String, s.text = before ++ String.ofList cs ∧ i = before.utf8ByteSize

theorem rest_zero (s : Source) : s.Rest 0 s.text.toList := ⟨"", by simp, rfl⟩

theorem Rest.append (h : s.Rest i (word ++ cs)) :
    s.Rest (i + (String.ofList word).utf8ByteSize) cs := by
  obtain ⟨before, htext, rfl⟩ := h
  refine ⟨before ++ String.ofList word, ?_, by rw [String.utf8ByteSize_append]⟩
  rw [htext, String.ofList_append, String.append_assoc]

theorem utf8ByteSize_cons (c : Char) (cs : List Char) :
    (String.ofList (c :: cs)).utf8ByteSize = c.utf8Size + (String.ofList cs).utf8ByteSize := by
  rw [← List.singleton_append, String.ofList_append, String.utf8ByteSize_append,
    ← String.singleton_eq_ofList, String.utf8ByteSize_singleton]

theorem Rest.tail (h : s.Rest i (c :: cs)) : s.Rest (i + c.utf8Size) cs := by
  have htail := @Rest.append s i cs [c] h
  rwa [← String.singleton_eq_ofList, String.utf8ByteSize_singleton] at htail

theorem Rest.charAt? (h : s.Rest i (c :: cs)) : s.charAt? i = some c := by
  obtain ⟨before, htext, rfl⟩ := h
  exact charAt?_eq_some_iff.2 ⟨before, cs, htext, rfl⟩

theorem Rest.byteAt (h : s.Rest i (c :: cs)) (hc : c.toNat < 128) : s.byteAt i = c :=
  byteAt_of_charAt? h.charAt? hc

theorem Rest.eq_size (h : s.Rest i []) : i = s.size := by
  obtain ⟨before, htext, rfl⟩ := h
  simp [size, s.bytes_eq, htext]

theorem Rest.lt_size (h : s.Rest i cs) (hcs : cs ≠ []) : i < s.size := by
  cases cs with
  | nil => exact absurd rfl hcs
  | cons c cs => exact lt_size_of_charAt? h.charAt?

/-- A byte in front of the rest of the text is its first character, if it is ASCII. -/
theorem Rest.head_of_byteAt (h : s.Rest i cs) (hbyte : s.byteAt i = c) (hc : c.toNat < 128)
    (hnul : c ≠ '\x00') : cs.head? = some c := by
  have hchar := charAt?_of_byteAt hbyte (lt_size_of_byteAt hbyte hnul) hc
  cases cs with
  | nil =>
    have hlt := lt_size_of_byteAt hbyte hnul
    rw [h.eq_size] at hlt
    exact absurd hlt (Nat.lt_irrefl _)
  | cons d cs => rw [List.head?_cons, ← h.charAt?, hchar]

theorem Rest.slice? (h : s.Rest i (word ++ cs)) :
    s.slice? i (i + (String.ofList word).utf8ByteSize) = some (String.ofList word) := by
  have hle : i + (String.ofList word).utf8ByteSize ≤ s.size := by
    by_cases hcs : cs = []
    · exact Nat.le_of_eq (hcs ▸ h.append).eq_size
    · exact Nat.le_of_lt (h.append.lt_size hcs)
  obtain ⟨before, htext, rfl⟩ := h
  have hbytes : s.bytes.extract before.utf8ByteSize
      (before.utf8ByteSize + (String.ofList word).utf8ByteSize) = (String.ofList word).toByteArray := by
    rw [s.bytes_eq, htext, String.ofList_append, String.toUTF8_eq_toByteArray,
      String.toByteArray_append, String.toByteArray_append, ByteArray.extract_append,
      ByteArray.extract_eq_empty_iff.2 (by simp), ByteArray.empty_append, String.size_toByteArray,
      Nat.sub_self, Nat.add_sub_cancel_left]
    exact ByteArray.extract_append_eq_left String.size_toByteArray.symm
  rw [Source.slice?, if_pos ⟨Nat.le_add_right _ _, hle⟩, hbytes, String.fromUTF8?,
    dif_pos (String.ofList word).isValidUTF8]
  rfl

/-! ## Gaps -/

/-- No blank and no comment stands at the start of a text. -/
def isFresh : List Char → Bool
  | [] => true
  | c :: cs => !isGap c && c != '#' && !(c == '/' && (cs.head? == some '/' || cs.head? == some '*'))

theorem gapFor_of_isFresh (h : s.Rest i cs) (hcs : isFresh cs = true) (n : Nat) :
    s.gapFor n i = .upTo i := by
  cases n with
  | zero => rfl
  | succ n =>
    have hhead {d : Char} (hd : d.toNat < 128) (hnul : d ≠ '\x00') {j : Nat} {ds : List Char}
        (hrest : s.Rest j ds) (hbyte : s.byteAt j = d) : ds.head? = some d :=
      hrest.head_of_byteAt hbyte hd hnul
    rw [gapFor]
    split
    next hslash =>
      have hfirst := hhead (by decide) (by decide) h hslash
      obtain ⟨rest, rfl⟩ : ∃ rest, cs = '/' :: rest := by
        cases cs with
        | nil => cases hfirst
        | cons d ds => exact ⟨ds, by rw [Option.some.inj hfirst]⟩
      have hsecond {d : Char} (hd : d.toNat < 128) (hnul : d ≠ '\x00')
          (hbyte : s.byteAt (i + 1) = d) : ∃ ds, rest = d :: ds := by
        have hnext := hhead hd hnul h.tail hbyte
        cases rest with
        | nil => cases hnext
        | cons e es => exact ⟨es, by rw [Option.some.inj hnext]⟩
      split
      next hstar =>
        obtain ⟨ds, rfl⟩ := hsecond (by decide) (by decide) hstar
        simp [isFresh] at hcs
      next hline =>
        obtain ⟨ds, rfl⟩ := hsecond (by decide) (by decide) hline
        simp [isFresh] at hcs
      next => rfl
    next hmark =>
      have hfirst := hhead (by decide) (by decide) h hmark
      cases cs with
      | nil => cases hfirst
      | cons d ds =>
        obtain rfl := Option.some.inj hfirst
        simp [isFresh] at hcs
    next hslash hmark =>
      cases cs with
      | nil =>
        have hnone : s.charAt? i = none := by
          cases hchar : s.charAt? i with
          | none => rfl
          | some c => exact absurd (lt_size_of_charAt? hchar) (by rw [h.eq_size]; exact Nat.lt_irrefl _)
        rw [hnone]
      | cons d ds =>
        have hgap : isGap d = false := by
          rw [isFresh, Bool.and_eq_true, Bool.and_eq_true, Bool.not_eq_true'] at hcs
          exact hcs.1.1
        rw [h.charAt?]
        simp [hgap]

theorem isFresh_of_isNameStart (h : isNameStart c = true) (cs : List Char) : isFresh (c :: cs) = true := by
  have hascii : ∀ n < 128, isNameStart (Char.ofNat n) = true → isGap (Char.ofNat n) = false := by decide
  have hgap : isGap c = false := by
    by_cases hlt : c.toNat < 128
    · have hfalse := hascii c.toNat hlt
      rw [Char.ofNat_toNat] at hfalse
      exact hfalse h
    · rwa [isNameStart, if_neg hlt, Bool.not_eq_true'] at h
  have hne {d : Char} (hd : isNameStart d = false) : c ≠ d := by
    rintro rfl
    rw [h] at hd
    cases hd
  simp [isFresh, hgap, hne (d := '#') (by decide), hne (d := '/') (by decide)]

/-- A blank, if there is one, is all that stands before the next lexeme. -/
theorem gap_of_isFresh {blank : Bool} (h : s.Rest i ((if blank then [' '] else []) ++ cs))
    (hcs : isFresh cs = true) : s.gap i = .upTo (i + blank.toNat) := by
  cases blank with
  | false => exact gapFor_of_isFresh h hcs _
  | true =>
    have hblank : s.Rest i (' ' :: cs) := h
    obtain ⟨n, hn⟩ : ∃ n, s.size - i = n + 1 :=
      ⟨s.size - i - 1, by have := hblank.lt_size (by simp); omega⟩
    rw [gap, hn, gapFor, hblank.byteAt (by decide), hblank.charAt?]
    exact gapFor_of_isFresh hblank.tail hcs n

/-- How the parser gets from one lexeme to the next, outside of types and in the same line. -/
structure Follows (s : Source) (a b : Lexeme) : Prop where
  gap : s.gap a.stop = .upTo b.start
  lt : b.start < s.size
  code : Reading.code s false false b.start = .lexeme b.kind b.keyword b.stop
  line : s.hasLineBreak a.stop b.start = false

end Source

/-! ## Words and punctuators -/

/-- A text is read as a lexeme wherever it stands in front of other characters. -/
def Spells (text : String) (kind : TokenKind) (keyword : SoftKeyword) (cs : List Char) : Prop :=
  ∀ {s : Source} {i : Nat}, s.Rest i (text.toList ++ cs) →
    Reading.code s false false i = .lexeme kind keyword (i + text.utf8ByteSize)

/-- A word that is written without escapes. -/
def isWordText (text : String) : Bool :=
  text.toList.head?.any isNameStart && text.toList.all isNamePart

/-- No word goes on with these characters. -/
def endsWord (cs : List Char) : Bool := cs.head?.all fun c => !isNamePart c && c != '\\'

theorem wordEndFor_append {s : Source} {i n : Nat} {word cs : List Char}
    (h : s.Rest i (word ++ cs)) (hword : word.all isNamePart = true) (hcs : endsWord cs = true)
    (hn : s.size - i ≤ n) : s.wordEndFor n i = i + (String.ofList word).utf8ByteSize := by
  induction word generalizing i n with
  | nil =>
    have hstop : s.wordEndFor n i = i := by
      cases n with
      | zero => rfl
      | succ n =>
        rw [Source.wordEndFor]
        split
        next c hc =>
          cases cs with
          | nil => exact absurd (Source.lt_size_of_charAt? hc) (by rw [h.eq_size]; exact Nat.lt_irrefl _)
          | cons d ds =>
            cases hc.symm.trans h.charAt?
            simp only [endsWord, List.head?_cons, Option.all_some, Bool.and_eq_true,
              Bool.not_eq_true', bne_iff_ne] at hcs
            rw [hcs.1, if_neg Bool.false_ne_true, if_neg hcs.2]
        next => rfl
    simpa using hstop
  | cons c word ih =>
    have hc : s.charAt? i = some c := h.charAt?
    have hlt := Source.lt_size_of_charAt? hc
    have hpos := c.utf8Size_pos
    rw [List.all_cons, Bool.and_eq_true] at hword
    obtain ⟨m, rfl⟩ : ∃ m, n = m + 1 := ⟨n - 1, by omega⟩
    rw [Source.wordEndFor, hc]
    dsimp only
    rw [if_pos hword.1, ih h.tail hword.2 (by omega), Source.utf8ByteSize_cons, Nat.add_assoc]

theorem spells_word {text : String} {cs : List Char} (htext : isWordText text = true)
    (hcs : endsWord cs = true) {kind : TokenKind} {keyword : SoftKeyword}
    (hword : Word.ofText text = .reserved kind ∧ keyword = .ordinary ∨
      Word.ofText text = .name keyword ∧ kind = .name) : Spells text kind keyword cs := by
  intro s i h
  rw [isWordText, Bool.and_eq_true] at htext
  have hend : s.wordEnd i = i + text.utf8ByteSize := by
    have hstop := wordEndFor_append h htext.2 hcs (Nat.le_refl _)
    have hslice := h.slice?
    rw [String.ofList_toList] at hstop hslice
    rw [Source.wordEnd, hstop]
    apply Nat.min_eq_left
    rw [Source.slice?] at hslice
    split at hslice
    next hle => exact hle.2
    next => cases hslice
  have hslice : s.slice? i (i + text.utf8ByteSize) = some text := by
    have := h.slice?
    rwa [String.ofList_toList] at this
  obtain ⟨c, hc, hstart⟩ : ∃ c, s.charAt? i = some c ∧ isNameStart c = true := by
    cases hchars : text.toList with
    | nil =>
      rw [hchars] at htext
      cases htext.1
    | cons c rest =>
      rw [hchars] at h htext
      exact ⟨c, h.charAt?, htext.1⟩
  rw [Reading.code, hc]
  dsimp only
  rw [hstart, Bool.true_or, if_pos rfl, Reading.word, hend, hslice]
  obtain ⟨hof, rfl⟩ | ⟨hof, rfl⟩ := hword
  · simp only [hof, Reading.plain]
  · simp only [hof]

/-- No punctuator goes on with these characters, and no number starts with them. -/
def endsPunctuator (cs : List Char) : Bool := cs.head?.all fun c => c == ' ' || isNameStart c

/-- An ASCII character that ends no punctuator. -/
def isMark (c : Char) : Bool := c.toNat < 128 && c != '\x00' && c != ' ' && !isNameStart c

theorem toNat_of_isMark {c : Char} (h : isMark c = true) : c.toNat < 128 := by
  simp only [isMark, Bool.and_eq_true, decide_eq_true_eq] at h
  exact h.1.1.1

theorem isMark_of_isDigit {c : Char} (h : c.isDigit = true) : isMark c = true := by
  have hdigits : ∀ n < 58, (Char.ofNat n).isDigit = true → isMark (Char.ofNat n) = true := by decide
  have hle : c.toNat ≤ 57 := (of_decide_eq_true (Bool.and_eq_true_iff.1 h).2 : c.val ≤ 57)
  have hmark := hdigits c.toNat (by omega)
  rw [Char.ofNat_toNat] at hmark
  exact hmark h

/-- A mark that stands behind some characters is one of them. -/
theorem Source.Rest.cons_of_byteAt {s : Source} {i : Nat} {c : Char} {cs more : List Char}
    (h : s.Rest i (more ++ cs)) (hcs : endsPunctuator cs = true) (hbyte : s.byteAt i = c)
    (hc : isMark c = true) : ∃ rest, more = c :: rest ∧ s.Rest (i + 1) (rest ++ cs) := by
  simp only [isMark, Bool.and_eq_true, decide_eq_true_eq, bne_iff_ne, Bool.not_eq_true'] at hc
  obtain ⟨⟨⟨hascii, hnul⟩, hblank⟩, hname⟩ := hc
  have hhead := h.head_of_byteAt hbyte hascii hnul
  cases more with
  | nil => simp [endsPunctuator, show cs.head? = some c from hhead, hblank, hname] at hcs
  | cons d rest =>
    obtain rfl : d = c := Option.some.inj hhead
    have htail := Source.Rest.tail h
    rw [Source.utf8Size_eq_one hascii] at htail
    exact ⟨rest, rfl, htail⟩

theorem standsAt_append {s : Source} {i : Nat} {p e cs : List Char} (h : s.Rest i (p ++ cs))
    (hp : p.all isMark = true) (hcs : endsPunctuator cs = true) (he : e.all isMark = true) :
    Punctuator.standsAt s e i = e.isPrefixOf p := by
  induction e generalizing p i with
  | nil => rfl
  | cons c e ih =>
    rw [List.all_cons, Bool.and_eq_true] at he
    rw [Punctuator.standsAt]
    cases hbyte : s.byteAt i == c with
    | false =>
      cases p with
      | nil => rfl
      | cons d p =>
        have hd : isMark d = true := (Bool.and_eq_true_iff.1 hp).1
        rw [Source.Rest.byteAt h (toNat_of_isMark hd), Bool.beq_comm] at hbyte
        rw [List.isPrefixOf_cons_cons, hbyte, Bool.false_and, Bool.false_and]
    | true =>
      obtain ⟨rest, rfl, hrest⟩ := h.cons_of_byteAt hcs (beq_iff_eq.1 hbyte) he.1
      rw [ih hrest (Bool.and_eq_true_iff.1 hp).2 he.2, List.isPrefixOf_cons_cons, beq_self_eq_true]

/-- Of all punctuators that start as a punctuator does, the punctuator itself comes first. -/
theorem Punctuator.table_spelling : ∀ entry ∈ table, entry.1.toList.all isMark = true ∧
    entry.1.toList.any (fun c => c.isDigit || ['"', '\'', '\\'].contains c) = false ∧
    (entry.1.toList.drop 1).take 2 ≠ ['=', '>'] ∧ entry.1.utf8ByteSize = entry.1.length ∧
    table.find? (fun other => other.1.toList.isPrefixOf entry.1.toList) = some entry := by
  have hall : table.all (fun entry => entry.1.toList.all isMark &&
      !entry.1.toList.any (fun c => c.isDigit || ['"', '\'', '\\'].contains c) &&
      (entry.1.toList.drop 1).take 2 != ['=', '>'] && entry.1.utf8ByteSize == entry.1.length &&
      table.find? (fun other => other.1.toList.isPrefixOf entry.1.toList) == some entry) = true := by
    decide +kernel
  intro entry hentry
  have h := List.all_eq_true.1 hall entry hentry
  simpa only [Bool.and_eq_true, bne_iff_ne, Bool.not_eq_true', beq_iff_eq, and_assoc] using h

theorem longest?_append {s : Source} {i : Nat} {text : String} {kind : TokenKind} {cs : List Char}
    (hmem : (text, kind) ∈ Punctuator.table) (hcs : endsPunctuator cs = true)
    (h : s.Rest i (text.toList ++ cs)) : Punctuator.longest? s i = some (kind, text.length) := by
  obtain ⟨hmarks, -, -, -, hfind⟩ := Punctuator.table_spelling _ hmem
  have hstands : ∀ other ∈ Punctuator.table,
      Punctuator.standsAt s other.1.toList i = other.1.toList.isPrefixOf text.toList :=
    fun other hother => standsAt_append h hmarks hcs (Punctuator.table_spelling _ hother).1
  rw [Punctuator.longest?, List.find?_congr hstands, hfind]
  rfl

theorem symbol_append {s : Source} {i : Nat} {c : Char} {rest cs : List Char}
    (h : s.Rest i (c :: rest ++ cs)) (hc : isMark c = true) (hcs : endsPunctuator cs = true)
    (hplain : (c :: rest).any (fun c => c.isDigit || ['"', '\'', '\\'].contains c) = false)
    (harrow : rest.take 2 ≠ ['=', '>']) :
    Reading.symbol s false false i = Reading.punctuator s i := by
  have hbyte : s.byteAt i = c := Source.Rest.byteAt h (toNat_of_isMark hc)
  have hrest : s.Rest (i + 1) (rest ++ cs) := by
    obtain ⟨rest', heq, hrest⟩ := h.cons_of_byteAt hcs hbyte hc
    exact (List.cons.inj heq).2 ▸ hrest
  have hdigit {j : Nat} {more : List Char} (hj : s.Rest j (more ++ cs)) (hmore : more <:+ c :: rest) :
      (s.byteAt j).isDigit = false := by
    refine Bool.eq_false_iff.2 fun hyes => ?_
    obtain ⟨ds, rfl, -⟩ := hj.cons_of_byteAt hcs rfl (isMark_of_isDigit hyes)
    have hno := List.any_eq_false.1 hplain (s.byteAt j) (hmore.mem List.mem_cons_self)
    simp [hyes] at hno
  have hbehind {d : Char} (hd : isMark d = true) (hbyte : s.byteAt (i + 1) = d) :
      ∃ ds, rest = d :: ds ∧ s.Rest (i + 2) (ds ++ cs) := hrest.cons_of_byteAt hcs hbyte hd
  have hnoArrow : ¬ (s.byteAt (i + 1) = '=' ∧ s.byteAt (i + 2) = '>') := by
    rintro ⟨hequals, hgreater⟩
    obtain ⟨ds, rfl, hds⟩ := hbehind (by decide) hequals
    obtain ⟨es, rfl, -⟩ := hds.cons_of_byteAt hcs hgreater (by decide)
    exact harrow rfl
  have hnoFraction : ¬ (s.byteAt (i + 1) = '.' ∧ (s.byteAt (i + 2)).isDigit = true) := by
    rintro ⟨hdot, hyes⟩
    obtain ⟨ds, rfl, hds⟩ := hbehind (by decide) hdot
    exact Bool.false_ne_true ((hdigit hds ⟨[c, '.'], rfl⟩).symm.trans hyes)
  have hfirst := List.any_eq_false.1 hplain c (by simp)
  rw [← hbyte] at hfirst
  unfold Reading.symbol
  dsimp only
  split
  next => rw [hdigit hrest ⟨[c], rfl⟩, if_neg Bool.false_ne_true]
  next heq => simp [heq] at hfirst
  next heq => simp [heq] at hfirst
  next => rfl
  next => rfl
  next => rfl
  next => rfl
  next => rw [if_neg (by simpa using hnoFraction)]
  next => rw [if_neg (by simpa using hnoArrow)]
  next => rw [if_neg (by simpa using hnoArrow)]
  next heq => simp [heq] at hfirst
  next =>
    rw [if_neg fun hyes => hfirst (by rw [hyes, Bool.true_or])]

theorem spells_punctuator {text : String} {kind : TokenKind} {cs : List Char}
    (hmem : (text, kind) ∈ Punctuator.table) (hcs : endsPunctuator cs = true) :
    Spells text kind .ordinary cs := by
  intro s i h
  have hlongest := longest?_append hmem hcs h
  obtain ⟨hmarks, hplain, harrow, hsize, -⟩ := Punctuator.table_spelling _ hmem
  obtain ⟨-, hne, -, -⟩ := Punctuator.table_ascii _ hmem
  dsimp only at hmarks hplain harrow hsize hne
  obtain ⟨c, rest, hcons⟩ := List.exists_cons_of_ne_nil hne
  rw [hcons] at h hmarks hplain harrow
  rw [List.all_cons, Bool.and_eq_true] at hmarks
  have hname : isNameStart c = false := by
    have hmark := hmarks.1
    rw [isMark, Bool.and_eq_true, Bool.not_eq_true'] at hmark
    exact hmark.2
  have hslash : c ≠ '\\' := by
    rintro rfl
    simp at hplain
  rw [Reading.code, Source.Rest.charAt? h]
  dsimp only
  rw [hname, if_neg (by simpa using hslash), symbol_append h hmarks.1 hcs hplain harrow,
    Reading.punctuator, hlongest, hsize]
  rfl

/-! ## Lists of spellings -/

/-- How a lexeme is written. -/
structure Spelling where
  /-- Whether a blank stands before it. -/
  blank : Bool
  text : String
  kind : TokenKind
  keyword : SoftKeyword := .ordinary

namespace Spelling

def chars (x : Spelling) : List Char := (if x.blank then [' '] else []) ++ x.text.toList

/-- The lexeme behind an offset. -/
def lexeme (x : Spelling) (i : Nat) : Lexeme :=
  ⟨x.kind, x.keyword, i + x.blank.toNat, i + x.blank.toNat + x.text.utf8ByteSize⟩

/-- Every spelling is read as the lexeme it stands for. -/
def Legible : List Spelling → Prop
  | [] => True
  | x :: xs => x.text ≠ "" ∧ Source.isFresh (x.text.toList ++ xs.flatMap chars) = true ∧
      Spells x.text x.kind x.keyword (xs.flatMap chars) ∧ Legible xs

/-- The lexemes behind an offset. -/
def lexemes : Nat → List Spelling → List Lexeme
  | _, [] => []
  | i, x :: xs => x.lexeme i :: lexemes (x.lexeme i).stop xs

theorem isChain_lexemes {s : Source} {xs : List Spelling} {a : Lexeme} (hxs : Legible xs)
    (h : s.Rest a.stop (xs.flatMap chars)) :
    (a :: lexemes a.stop xs).IsChain s.Follows ∧
      ∃ b, (a :: lexemes a.stop xs).getLast? = some b ∧ s.gap b.stop = .upTo s.size := by
  induction xs generalizing a with
  | nil =>
    refine ⟨.singleton a, a, rfl, ?_⟩
    have hend : s.gap a.stop = .upTo a.stop := Source.gapFor_of_isFresh h rfl _
    rw [hend, Source.Rest.eq_size h]
  | cons x xs ih =>
    obtain ⟨htext, hfresh, hspells, hxs⟩ := hxs
    have hall : s.Rest a.stop ((if x.blank then [' '] else []) ++ (x.text.toList ++ xs.flatMap chars)) := by
      rwa [List.flatMap_cons, chars, List.append_assoc] at h
    have hsize : (String.ofList (if x.blank then [' '] else [])).utf8ByteSize = x.blank.toNat := by
      cases x.blank <;> rfl
    have hword := hall.append
    rw [hsize] at hword
    have hrest := hword.append
    rw [String.ofList_toList] at hrest
    have hfollows : s.Follows a (x.lexeme a.stop) := {
      gap := Source.gap_of_isFresh hall hfresh
      lt := hword.lt_size (by simp [htext])
      code := hspells hword
      line := by
        have hslice := hall.slice?
        rw [hsize] at hslice
        rw [Source.hasLineBreak, lexeme, hslice]
        cases x.blank <;> rfl }
    obtain ⟨hchain, hend⟩ := @ih (x.lexeme a.stop) hxs hrest
    exact ⟨.cons_cons hfollows hchain, by rwa [lexemes, List.getLast?_cons_cons]⟩

/-- A name, with the soft keyword that it spells. -/
def word (blank : Bool) (text : String) (keyword : SoftKeyword) : Spelling := ⟨blank, text, .name, keyword⟩

theorem legible_word (blank : Bool) {text : String} {keyword : SoftKeyword} {xs : List Spelling}
    (htext : isWordText text = true) (hword : Word.ofText text = .name keyword) (hxs : Legible xs)
    (hends : endsWord (xs.flatMap chars) = true) : Legible (word blank text keyword :: xs) := by
  have hhead := (Bool.and_eq_true_iff.1 htext).1
  refine ⟨?_, ?_, spells_word htext hends (.inr ⟨hword, rfl⟩), hxs⟩
  · rintro rfl
    cases hhead
  · cases hchars : text.toList with
    | nil =>
      rw [hchars] at hhead
      cases hhead
    | cons c cs =>
      rw [hchars] at hhead
      rw [word, hchars]
      exact Source.isFresh_of_isNameStart hhead _

theorem not_mem_of_isWordText {text : String} (h : isWordText text = true) : '\\' ∉ text.toList := fun hmem =>
  absurd (List.all_eq_true.1 (Bool.and_eq_true_iff.1 h).2 _ hmem) (by decide)

/-- A text without a backslash is one without escapes that could be torn. -/
theorem plainEscapes_of_not_mem {text : String} {xs : List Spelling} (htext : text.toList = xs.flatMap chars)
    (hxs : ∀ x ∈ xs, '\\' ∉ x.text.toList) : (Source.ofText text).PlainEscapes := by
  intro i c hchar
  obtain ⟨before, after, hsplit, -⟩ := Source.charAt?_eq_some_iff.1 hchar
  have hsplit : text = before ++ String.ofList ('\\' :: after) := hsplit
  have hmem : '\\' ∈ xs.flatMap chars := by simp [← htext, hsplit]
  obtain ⟨x, hx, hmem⟩ := List.mem_flatMap.1 hmem
  rw [chars, List.mem_append] at hmem
  obtain hblank | hmem := hmem
  · cases hb : x.blank <;> simp [hb] at hblank
  · exact absurd hmem (hxs x hx)

end Spelling

end PlainScript
