import PlainScript.Proofs.GeneratedLines
import PlainScript.Proofs.Reassembly
import PlainScript.Proofs.TracedFiles

/-!
# Lines stay where they are

What is written for a token has as many line feeds as the token, and the gap before it keeps its own.
So the output has as many lines as the source, as long as a token that reaches over several lines is
written as it stands: a template in a type, say, is left out with its line feeds.
-/

namespace PlainScript

/-! ## Pieces -/

namespace Piece

/-- The number of line feeds in a list of pieces. -/
def lineFeeds (pieces : List Piece) : Nat := (pieces.map fun p => PlainScript.lineFeeds p.text).sum

@[simp] theorem lineFeeds_append (a b : List Piece) : lineFeeds (a ++ b) = lineFeeds a + lineFeeds b := by
  simp [lineFeeds]

theorem lineFeeds_added {codes : List String} (h : ∀ c ∈ codes, PlainScript.lineFeeds c = 0) :
    lineFeeds (codes.map .added) = 0 := by
  simpa [lineFeeds, List.sum_eq_zero_iff, Piece.text] using h

theorem lineFeeds_render (pieces : Array Piece) :
    PlainScript.lineFeeds (render pieces) = lineFeeds pieces.toList := by
  rw [render_eq_join, lineFeeds_join, List.map_map]
  rfl

end Piece

namespace Emit

variable {s : Setting} {h i j : Nat} {pieces : List Piece}

/-- What is written between two tokens has as many line feeds as the text between them. -/
theorem Trace.lineFeeds (ht : s.tape.Ordered) (hs : s.Unbroken) (htrace : Trace s h i j pieces) :
    PlainScript.lineFeeds (s.tape.reached i) + Piece.lineFeeds pieces =
      PlainScript.lineFeeds (s.tape.reached j) := by
  induction htrace with
  | nil => rfl
  | add _ hcode _ ih =>
    rw [Piece.lineFeeds_append, ← Nat.add_assoc, ih]
    simpa [Piece.lineFeeds, Piece.text] using hcode.lineFeeds hs
  | @write h i j pieces form before code _ hwriting ih =>
    have haround {codes : List String} (hcodes : ∀ c ∈ codes, OneLine s c) :
        Piece.lineFeeds (codes.map .added) = 0 :=
      Piece.lineFeeds_added fun c hc => (hcodes c hc).lineFeeds hs
    have hwritten : Piece.lineFeeds (s.written j form before code) =
        PlainScript.lineFeeds (View.gap ⟨s.tape, j⟩) + PlainScript.lineFeeds (s.tape.text j) := by
      have hopened : Piece.lineFeeds
          ((s.opening j ++ if before.isEmpty then [] else [before]).map .added) = 0 := by
        refine haround fun c hc => ?_
        obtain hc | hc := List.mem_append.1 hc
        · exact oneLine_of_mem_opening hc
        · split at hc
          · cases hc
          · exact List.mem_singleton.1 hc ▸ hwriting.before
      have hclosed := haround fun c hc => oneLine_of_mem_closing (i := j) hc
      have hgap := s.lineFeeds_gapText form j
      have hcode := hwriting.lines.lineFeeds hs
      simp only [Setting.written, Piece.lineFeeds, List.map_append, List.map_cons, List.sum_append,
        List.sum_cons, Piece.text] at hopened hclosed ⊢
      omega
    rw [Piece.lineFeeds_append, ← Nat.add_assoc, ih, hwritten, ht.reached_succ, lineFeeds_append,
      lineFeeds_append, Nat.add_assoc]
  | task _ _ _ ih ih' => rw [Piece.lineFeeds_append, ← Nat.add_assoc, ih, ih']

/-! ## The code around the output -/

theorem lineFeeds_prefixCode {σ : State} (hs : s.Unbroken) (hσ : σ.Tidy s)
    (hloader : s.options.has .reactHotLoader = false)
    (hrequire : PlainScript.lineFeeds s.support.createRequire = 0) :
    PlainScript.lineFeeds (prefixCode s σ) = 0 := by
  unfold prefixCode
  dsimp only
  rw [hloader]
  refine lineFeeds_append_eq_zero_iff.2 ⟨lineFeeds_append_eq_zero_iff.2 ⟨lineFeeds_append_eq_zero_iff.2
    ⟨lineFeeds_append_eq_zero_iff.2 ⟨lineFeeds_append_eq_zero_iff.2 ⟨lineFeeds_append_eq_zero_iff.2
    ⟨?_, ?_⟩, by decide⟩, ?_⟩, SupportNames.lineFeeds_codeFor hs.support hrequire _⟩,
    lineFeeds_join_eq_zero fun text htext => ?_⟩, lineFeeds_join_eq_zero fun text htext => ?_⟩
  · split <;> decide
  · split
    next name hname =>
      simp only [lineFeeds_append, (hσ.fileNameVariable hname).lineFeeds hs, JsonString.lineFeeds_quote]
      decide
    next => decide
  · split <;> decide
  · obtain ⟨name, hname, rfl⟩ := List.mem_map.1 htext
    simp only [lineFeeds_append, (hσ.variableNames (Array.mem_toList_iff.1 hname)).lineFeeds hs]
    decide
  · obtain ⟨name, hname, rfl⟩ := List.mem_map.1 htext
    simp only [lineFeeds_append, (hσ.mockFunctions (Array.mem_toList_iff.1 hname)).lineFeeds hs]
    decide

/-- A first line that names an interpreter is split off and put back, with a line feed that it may not
have had. -/
theorem lineFeeds_assemble {before code after : String}
    (hline : StartsWithMark code → PlainScript.lineFeeds code ≠ 0) :
    PlainScript.lineFeeds (assemble before code after) =
      PlainScript.lineFeeds before + PlainScript.lineFeeds code + PlainScript.lineFeeds after := by
  by_cases hmark : StartsWithMark code
  · have hmem : '\n' ∈ code.toList := by
      by_contra hnone
      exact hline hmark (lineFeeds_eq_zero_iff.2 hnone)
    obtain ⟨line, rest, rfl, hfirst, hnone⟩ := hmark.exists_line hmem
    rw [assemble_of_mark hfirst hnone]
    simp only [lineFeeds_append]
    omega
  · rw [assemble_of_not_mark hmark, lineFeeds_append, lineFeeds_append]

theorem lineFeeds_suffixCode {σ : State} (hloader : s.options.has .reactHotLoader = false)
    (hinterop : s.options.enableLegacyBabel5ModuleInterop = false) :
    PlainScript.lineFeeds (suffixCode s σ) = 0 := by
  unfold suffixCode
  dsimp only
  rw [hloader, hinterop]
  change PlainScript.lineFeeds ("" ++ "") = 0
  decide

/-! ## Files without modules, classes and elements -/

/-- The words that start what the writer takes apart: classes, enumerations, elements, imports and
exports. -/
def partedWords : List TokenKind :=
  [.classWord, .enumWord, .jsxTagStart, .importWord, .exportWord, .withWord]

/-- The token at an index starts nothing that is taken apart, and is on one line unless it is a
template that is no part of a type. -/
def Setting.isPlainAt (s : Setting) (i : Nat) : Bool :=
  (s.tape.get i).contextId?.isNone && !s.tape.hasOneOf i partedWords &&
    !s.tape.hasSoft i .fromName && !s.tape.hasSoft i .assertName &&
    (lineFeeds (s.tape.text i) == 0 ||
      s.tape.kind i == .template && !(s.tape.get i).isType && (s.tape.get i).role? == none) &&
    (s.tape.kind i != .equals ||
      lineFeeds (s.tape.stringValue (i + 1)) == lineFeeds (s.tape.text (i + 1)))

/-- Past the last token there is nothing to look at. -/
theorem isPlainAt_of_range (h : (List.range (s.tape.size + 1)).all s.isPlainAt = true) (i : Nat) :
    s.isPlainAt i = true := by
  have hle {j : Nat} (hj : j ≤ s.tape.size) : s.isPlainAt j = true :=
    List.all_eq_true.1 h j (List.mem_range.2 (Nat.lt_succ_of_le hj))
  by_cases hi : i ≤ s.tape.size
  · exact hle hi
  · have hlast := hle (Nat.le_refl s.tape.size)
    have hi : s.tape.size ≤ i := by omega
    simp only [Setting.isPlainAt, Tape.hasOneOf, Tape.kind, Tape.hasSoft, Tape.text, Tape.stringValue,
      Tape.get_of_size_le hi, Tape.get_of_size_le (Nat.le_succ_of_le hi),
      Tape.get_of_size_le (Nat.le_refl s.tape.size),
      Tape.get_of_size_le (Nat.le_succ s.tape.size)] at hlast ⊢
    exact hlast

section

variable (hplain : ∀ w, s.isPlainAt w = true)
include hplain

theorem not_has_partedWord {w : Nat} {kind : TokenKind} {rest : List TokenKind}
    (hmem : kind ∈ partedWords) (h : s.tape.has w (kind :: rest) = true) : False := by
  have hw := hplain w
  simp only [Setting.isPlainAt, Bool.and_eq_true, Bool.not_eq_true'] at hw
  obtain ⟨hkind, -⟩ := kind_of_isAt h
  have hone : s.tape.hasOneOf w partedWords = true := by
    rw [Tape.hasOneOf, hkind]
    exact List.contains_iff_mem.2 hmem
  exact Bool.false_ne_true (hw.1.1.1.1.2.symm.trans hone)

theorem kind_ne_partedWord {w : Nat} {kind : TokenKind} (hmem : kind ∈ partedWords) :
    s.tape.kind w ≠ kind := by
  intro hkind
  have hhas : s.tape.has w [kind] = true := by simp [Tape.has, hkind]
  exact not_has_partedWord hplain hmem hhas

theorem not_importAt {w : Nat} : ¬ ImportAt s.tape w := fun h =>
  kind_ne_partedWord hplain (by decide) h.1

theorem not_modulePart : ¬ ModulePart s.tape i := by
  have hsoft (w : Nat) : s.tape.hasSoft w .fromName = false ∧ s.tape.hasSoft w .assertName = false := by
    have hw := hplain w
    simp only [Setting.isPlainAt, Bool.and_eq_true, Bool.not_eq_true'] at hw
    exact ⟨hw.1.1.1.2, hw.1.1.2⟩
  intro h
  cases h with
  | statement w h =>
    obtain himport | hexport := h.1
    · exact not_importAt hplain himport
    · exact not_has_partedWord hplain (by decide) hexport
  | names w h => exact not_importAt hplain h.1
  | clause b h =>
    obtain ⟨-, w, hnames | ⟨hexport, -⟩⟩ := h.1
    · exact not_importAt hplain hnames.1
    · exact kind_ne_partedWord hplain (by decide) hexport
  | path h => exact Bool.false_ne_true ((hsoft _).1.symm.trans h)
  | attributes w h =>
    obtain hwith | hassert := Bool.or_eq_true_iff.1 h
    · exact not_has_partedWord hplain (by decide) hwith
    · exact Bool.false_ne_true ((hsoft w).2.symm.trans (Bool.and_eq_true_iff.1 hassert).2)
  | reference w j h =>
    obtain ⟨-, h⟩ | ⟨-, h⟩ := h <;> exact not_has_partedWord hplain (by decide) h
  | exportedReference w h => exact not_has_partedWord hplain (by decide) h
  | exportType w h => exact not_has_partedWord hplain (by decide) h
  | exportDefault w h => exact not_has_partedWord hplain (by decide) h

theorem not_isOutline {c : ClassOutline} : ¬ IsOutline s.tape c := by
  intro hc
  obtain ⟨keepsFields, names, names', w, hread⟩ := hc.read
  have hw := hplain w
  simp only [Setting.isPlainAt, Bool.and_eq_true, Option.isNone_iff_eq_none] at hw
  rw [ClassOutline.read, hw.1.1.1.1.1] at hread
  cases hread

theorem not_enumerationStarts {w : Nat} : ¬ enumerationStarts s.tape w = true := by
  intro h
  have hword {v : Nat} (h : s.tape.has v [.enumWord] = true) : False :=
    not_has_partedWord hplain (by decide) h
  simp only [enumerationStarts, Bool.or_eq_true] at h
  obtain ((h | h) | h) | h := h
  · exact hword h
  · exact hword (kind_of_isAt h).2
  · exact hword (kind_of_isAt h).2
  · exact hword (kind_of_isAt (kind_of_isAt h).2).2

/-- Where nothing is taken apart, only types and the names that are declared are left out. -/
theorem LeftOut.of_plain (h : LeftOut s i) :
    (s.tape.get i).isType = true ∨ (s.tape.get i).hasRole IdentifierRole.isDeclaration = true := by
  cases h with
  | type h => exact .inl h
  | declared h => exact .inr h
  | member c h => exact absurd h (not_isOutline hplain)
  | enumeration w h => exact absurd h (not_enumerationStarts hplain)
  | tagName h => exact absurd h (kind_ne_partedWord hplain (by decide))
  | closingTag h =>
    obtain ⟨w, h, -⟩ := h
    exact (not_has_partedWord hplain (by decide) h).elim
  | modulePart h => exact absurd h (not_modulePart hplain)

theorem keepsLines_of_plain (hmodules : ∀ uses, ModuleUses.ofTape s.tape = .ok uses → uses.texts = [])
    (hpath : s.options.filePath? = none) : s.KeepsLines := by
  have hlong {j : Nat} (h : PlainScript.lineFeeds (s.tape.text j) ≠ 0) : s.tape.kind j = .template ∧
      (s.tape.get j).isType = false ∧ (s.tape.get j).role? = none := by
    have hj := hplain j
    simp only [Setting.isPlainAt, Bool.and_eq_true, Bool.or_eq_true, beq_iff_eq,
      Bool.not_eq_true'] at hj
    obtain hflat | ⟨⟨hkind, htype⟩, hrole⟩ := hj.1.2
    · exact absurd hflat h
    · exact ⟨hkind, htype, hrole⟩
  constructor
  case kinds =>
    intro j h
    exact .inl (by rw [Tape.hasOneOf, (hlong h).1]; decide)
  case kept =>
    intro j h hleft
    obtain ⟨-, htype, hrole⟩ := hlong h
    obtain h | h := hleft.of_plain hplain
    · exact Bool.false_ne_true (htype.symm.trans h)
    · simp [Token.hasRole, hrole] at h
  case members => exact fun ⟨w, h⟩ => absurd h (not_enumerationStarts hplain)
  case quotes =>
    intro j h
    have hj := hplain j
    simp only [Setting.isPlainAt, Bool.and_eq_true, Bool.or_eq_true, bne_iff_ne, beq_iff_eq] at hj
    exact hj.2.resolve_left fun hne => hne h
  case keys =>
    intro j h
    by_contra hne
    exact absurd ((hlong hne).2.2.symm.trans h) (by simp)
  case modules =>
    intro _ uses huses text htext
    rw [hmodules uses huses] at htext
    cases htext
  case filePath =>
    intro path h
    cases hpath.symm.trans h

end

/-! ## Whole files -/

variable {text code : String} {o : Options} {p : Prepared}

theorem validate_of_codeOf (hcode : Output.codeOf text o = .ok code) : o.validate = .ok () := by
  unfold Output.codeOf at hcode
  cases hvalid : o.validate with
  | error e =>
    rw [hvalid] at hcode
    cases hcode
  | ok u => rfl

end Emit

end PlainScript
