import PlainScript.Proofs.Prepared
import PlainScript.Proofs.Tiling
import PlainScript.Proofs.Lexemes

/-!
# Gaps and tokens make up the text

The tokens of a file stand in its text one after the other, so the text is the gap before the first
token, this token, the gap before the next one, and so on up to the gap after the last one. The output
is put together in the same way, and code is put around it; only a first line that names an interpreter
stays in front of that.
-/

namespace PlainScript

/-! ## Slices -/

namespace Source

variable {s : Source} {i j k : Nat}

theorem toByteArray_slice (hi : s.isBoundary i = true) (hj : s.isBoundary j = true) (hij : i ≤ j) :
    (s.slice i j).toByteArray = s.bytes.extract i j := by
  obtain ⟨text, htext⟩ := exists_slice? hi hj hij
  rw [slice, htext, Option.getD_some]
  rw [slice?] at htext
  split at htext
  · rw [String.fromUTF8?] at htext
    split at htext
    · cases htext
      rfl
    · cases htext
  · cases htext

theorem slice_append_slice (hi : s.isBoundary i = true) (hj : s.isBoundary j = true)
    (hk : s.isBoundary k = true) (hij : i ≤ j) (hjk : j ≤ k) :
    s.slice i j ++ s.slice j k = s.slice i k := by
  rw [← String.toByteArray_inj, String.toByteArray_append, toByteArray_slice hi hj hij,
    toByteArray_slice hj hk hjk, toByteArray_slice hi hk (Nat.le_trans hij hjk)]
  exact (ByteArray.extract_eq_extract_append_extract j hij hjk).symm

theorem slice_self (s : Source) (i : Nat) : s.slice i i = "" := by
  unfold slice slice?
  split
  · rw [ByteArray.extract_same]
    rfl
  · rfl

theorem slice_zero_size (s : Source) : s.slice 0 s.size = s.text := by
  have hend : s.isBoundary s.size = true := by simp [isBoundary]
  rw [← String.toByteArray_inj, toByteArray_slice s.isBoundary_zero hend (Nat.zero_le _), size,
    ByteArray.extract_zero_size, s.bytes_eq, String.toUTF8_eq_toByteArray]

end Source

/-! ## Tapes -/

@[simp] theorem Piece.render_push (pieces : Array Piece) (p : Piece) :
    render (pieces.push p) = render pieces ++ p.text := by
  simp [render]

theorem Piece.render_eq_join (pieces : Array Piece) :
    render pieces = String.join (pieces.toList.map Piece.text) := by
  rw [render, ← Array.foldl_toList, String.join, List.foldl_map]

namespace Tape

variable {t : Tape} {i : Nat}

/-- Where the gap before the token at an index starts. -/
def gapStart (t : Tape) (i : Nat) : Nat := if i = 0 then 0 else (t.get (i - 1)).stop

/-- The text up to the gap before the token at an index. -/
def reached (t : Tape) (i : Nat) : String := t.source.slice 0 (t.gapStart i)

/-- The tokens of a tape stand in its text in order, and cut no character. -/
structure Ordered (t : Tape) : Prop where
  start (i : Nat) : t.source.isBoundary (t.get i).start = true
  stop (i : Nat) : t.source.isBoundary (t.get i).stop = true
  gap_le (i : Nat) : t.gapStart i ≤ (t.get i).start
  le (i : Nat) : (t.get i).start ≤ (t.get i).stop

namespace Ordered

theorem gapStart (ht : t.Ordered) (i : Nat) : t.source.isBoundary (t.gapStart i) = true := by
  unfold Tape.gapStart
  split
  · exact t.source.isBoundary_zero
  · exact ht.stop _

theorem gap_eq (ht : t.Ordered) (i : Nat) :
    View.gap ⟨t, i⟩ = t.source.slice (t.gapStart i) (t.get i).start := by
  have hmax : max (t.get i).start (t.gapStart i) = (t.get i).start := Nat.max_eq_left (ht.gap_le i)
  exact congrArg (t.source.slice (t.gapStart i)) hmax

/-- The text grows by a gap and a token. -/
theorem reached_succ (ht : t.Ordered) (i : Nat) :
    t.reached (i + 1) = t.reached i ++ View.gap ⟨t, i⟩ ++ t.text i := by
  have hbefore : t.reached i ++ View.gap ⟨t, i⟩ = t.source.slice 0 (t.get i).start := by
    rw [ht.gap_eq]
    exact Source.slice_append_slice t.source.isBoundary_zero (ht.gapStart i) (ht.start i)
      (Nat.zero_le _) (ht.gap_le i)
  rw [hbefore]
  exact (Source.slice_append_slice t.source.isBoundary_zero (ht.start i) (ht.stop i) (Nat.zero_le _)
    (ht.le i)).symm

/-- What is left after the last token is a gap. -/
theorem text_eq (ht : t.Ordered) (hi : t.size ≤ i) :
    t.source.text = t.reached i ++ View.gap ⟨t, i⟩ := by
  have hstart : (t.get i).start = t.source.size := by rw [get_of_size_le hi]; rfl
  rw [ht.gap_eq, reached, Source.slice_append_slice t.source.isBoundary_zero (ht.gapStart i) (ht.start i)
    (Nat.zero_le _) (ht.gap_le i), hstart, Source.slice_zero_size]

end Ordered

theorem reached_zero (t : Tape) : t.reached 0 = "" := t.source.slice_self 0

end Tape

namespace Emit

variable {text : String} {o : Options} {p : Prepared} {file : AnnotatedFile} {i : Nat}

/-- The tape has the tokens of the parser, up to the one that ends the text. -/
theorem IsPrepared.get_eq (hp : IsPrepared text o p file) (hi : i < p.setting.tape.size) :
    ∃ t, file.tokens[i]? = some t ∧ (p.setting.tape.get i).toLexeme = t.toLexeme := by
  have hget : p.setting.tape.tokens[i]? = some (p.setting.tape.get i) := by
    rw [Tape.get, Array.getD_eq_getD_getElem?, Array.getElem?_eq_getElem hi]
    rfl
  obtain ⟨t, ht, hsame⟩ := hp.exists_token hget
  exact ⟨t, ht, (congrArg Token.toLexeme hsame).symm⟩

theorem IsPrepared.ordered (hp : IsPrepared text o p file) : p.setting.tape.Ordered := by
  have htiles := AnnotatedFile.tiles_of_ofSource hp.parsed
  rw [← hp.source] at htiles
  have hend : p.setting.tape.source.isBoundary p.setting.tape.source.size = true := by
    simp [Source.isBoundary]
  -- A token past the end starts and stops there.
  have hspan (i : Nat) : (p.setting.tape.get i).start ≤ (p.setting.tape.get i).stop ∧
      (p.setting.tape.get i).stop ≤ p.setting.tape.source.size ∧
      p.setting.tape.source.isBoundary (p.setting.tape.get i).start = true ∧
      p.setting.tape.source.isBoundary (p.setting.tape.get i).stop = true := by
    obtain hlt | hge := Nat.lt_or_ge i p.setting.tape.size
    · obtain ⟨t, ht, hlexeme⟩ := hp.get_eq hlt
      have hok := htiles.span t (Array.mem_of_getElem? ht)
      rw [show (p.setting.tape.get i).start = t.start from congrArg Lexeme.start hlexeme,
        show (p.setting.tape.get i).stop = t.stop from congrArg Lexeme.stop hlexeme]
      exact hok
    · rw [Tape.get_of_size_le hge]
      exact ⟨Nat.le_refl _, Nat.le_refl _, hend, hend⟩
  refine ⟨fun i => (hspan i).2.2.1, fun i => (hspan i).2.2.2, fun i => ?_, fun i => (hspan i).1⟩
  unfold Tape.gapStart
  split
  · exact Nat.zero_le _
  next hi =>
    obtain ⟨i, rfl⟩ := Nat.exists_eq_succ_of_ne_zero hi
    obtain hlt | hge := Nat.lt_or_ge (i + 1) p.setting.tape.size
    · obtain ⟨t, ht, hfirst⟩ := hp.get_eq (Nat.lt_of_succ_lt hlt)
      obtain ⟨u, hu, hsecond⟩ := hp.get_eq hlt
      have hbetween := (htiles.between i t u ht hu).1
      rw [show (p.setting.tape.get (i + 1)).start = u.start from congrArg Lexeme.start hsecond]
      exact Nat.le_trans (Nat.le_of_eq (congrArg Lexeme.stop hfirst)) hbetween
    · rw [Tape.get_of_size_le hge]
      exact (hspan i).2.1

/-! ## The code around the output -/

/-- A text starts with the mark of a line that names an interpreter. -/
def StartsWithMark (text : String) : Prop := text.toList.take 2 = ['#', '!']

instance (text : String) : Decidable (StartsWithMark text) :=
  inferInstanceAs (Decidable (text.toList.take 2 = ['#', '!']))

theorem StartsWithMark.toList_eq {text : String} (hmark : StartsWithMark text) :
    text.toList = '#' :: '!' :: text.toList.drop 2 := by
  have hsplit := List.take_append_drop 2 text.toList
  rw [hmark] at hsplit
  exact hsplit.symm

/-- A first line that names an interpreter stays first. -/
theorem assemble_of_mark {line rest before after : String} (hmark : StartsWithMark line)
    (hline : '\n' ∉ line.toList) :
    assemble before (line ++ "\n" ++ rest) after = line ++ "\n" ++ before ++ rest ++ after := by
  have hlist : (line ++ "\n" ++ rest).toList = line.toList ++ '\n' :: rest.toList := by simp
  have htake : (line ++ "\n" ++ rest).toList.take 2 = ['#', '!'] := by
    rw [hlist, hmark.toList_eq]
    rfl
  have hfirst : (line ++ "\n" ++ rest).toList.takeWhile (· != '\n') = line.toList := by
    rw [hlist, List.takeWhile_append_of_pos]
    · simp
    · intro c hc
      refine bne_iff_ne.2 ?_
      rintro rfl
      exact hline hc
  have hdrop : (line ++ "\n" ++ rest).toList.drop (line.toList.length + 1) = rest.toList := by
    rw [hlist, List.drop_append]
    simp
  unfold assemble
  dsimp only
  rw [if_pos htake, hfirst, hdrop, String.ofList_toList, String.ofList_toList]

theorem assemble_of_not_mark {code : String} (hmark : ¬ StartsWithMark code) (before after : String) :
    assemble before code after = before ++ code ++ after := by
  unfold assemble
  dsimp only
  rw [if_neg (show ¬ code.toList.take 2 = ['#', '!'] from hmark)]

/-- A text that starts with the mark and is no single line starts with such a line. -/
theorem StartsWithMark.exists_line {text : String} (hmark : StartsWithMark text)
    (hmem : '\n' ∈ text.toList) :
    ∃ line rest, text = line ++ "\n" ++ rest ∧ StartsWithMark line ∧ '\n' ∉ line.toList := by
  obtain ⟨line, rest, hsplit, hnone⟩ := List.eq_append_cons_of_mem hmem
  refine ⟨String.ofList line, String.ofList rest, ?_, ?_, by simpa using hnone⟩
  · rw [← String.toList_inj, hsplit]
    simp
  · rw [StartsWithMark, hsplit] at hmark
    cases line with
    | nil => simp at hmark
    | cons c line =>
      cases line with
      | nil => simp at hmark
      | cons d line => simpa [StartsWithMark] using hmark

/-- The mark of such a line stays first even if the line is the only one. -/
theorem StartsWithMark.assemble {code : String} (hmark : StartsWithMark code) (before after : String) :
    StartsWithMark (Emit.assemble before code after) := by
  unfold Emit.assemble
  dsimp only
  rw [if_pos (show code.toList.take 2 = ['#', '!'] from hmark), StartsWithMark, hmark.toList_eq]
  simp

end Emit

end PlainScript
