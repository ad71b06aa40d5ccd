import PlainScript.Proofs.LinePositions
import PlainScript.Proofs.PassProgress
import PlainScript.Proofs.Reassembly
import PlainScript.Proofs.References

/-!
# The line numbers of elements

The writer counts the lines up to an element on from the last element. It comes to the elements in the
order of the text, since it never goes back behind one, so the counter never is ahead of the cursor. The
result is what a writer gives that counts all lines before each element anew.
-/

namespace PlainScript

theorem ofUInt8_eq_feed_iff (b : UInt8) : Char.ofUInt8 b = '\n' ↔ b = 10 := by
  constructor
  · intro h
    exact UInt8.toNat_inj.1 (congrArg Char.toNat h)
  · rintro rfl
    rfl

theorem Source.feedsBefore_succ {s : Source} {i : Nat} (h : i < s.size) :
    s.feedsBefore (i + 1) = s.feedsBefore i + if s.byteAt i == '\n' then 1 else 0 := by
  have hlt : i < s.bytes.data.toList.length := h
  have hbyte : s.byteAt i = Char.ofUInt8 s.bytes.data.toList[i] := dif_pos h
  rw [hbyte, feedsBefore, bytesBefore, List.take_succ_eq_append_getElem hlt, List.count_append,
    List.count_singleton]
  simp only [beq_iff_eq, ofUInt8_eq_feed_iff]
  rfl

namespace Emit

/-- A counter that has counted all line feeds before an offset. -/
def LineCounter.at (s : Source) (offset : Nat) : LineCounter := ⟨offset, 1 + s.feedsBefore offset⟩

theorem LineCounter.advanceFor_at {s : Source} {n i : Nat} (hle : i + n ≤ s.size) :
    advanceFor s n (.at s i) = .at s (i + n) := by
  induction n generalizing i with
  | zero => rfl
  | succ n ih =>
    have hstep : (⟨i + 1, if s.byteAt i == '\n' then 1 + s.feedsBefore i + 1 else 1 + s.feedsBefore i⟩ :
        LineCounter) = .at s (i + 1) := by
      rw [LineCounter.at, Source.feedsBefore_succ (by omega)]
      split <;> rfl
    rw [LineCounter.at, advanceFor, hstep, ih (by omega), Nat.add_assoc, Nat.add_comm 1]

theorem LineCounter.advance_at {s : Source} {i offset : Nat} (hi : i ≤ offset) (hle : offset ≤ s.size) :
    (LineCounter.at s i).advance s offset = .at s offset := by
  have hn : min offset s.size - (LineCounter.at s i).offset = offset - i := by
    rw [Nat.min_eq_left hle, LineCounter.at]
  rw [advance, hn, advanceFor_at (by omega), Nat.add_sub_cancel' hi]

variable {s : Setting} {σ : State} {recur : Task → Step Unit}

/-- The counter has counted the lines up to an offset that the cursor has reached. -/
def Counted (s : Setting) (σ : State) : Prop :=
  ∃ offset ≤ (s.tape.get σ.index).start, σ.lines = .at s.tape.source offset

theorem start_mono (ht : s.tape.Ordered) {i j : Nat} (hij : i ≤ j) :
    (s.tape.get i).start ≤ (s.tape.get j).start := by
  induction hij with
  | refl => exact Nat.le_refl _
  | @step j _ ih => exact ih.trans ((ht.le j).trans (ht.gap_le (j + 1)))

theorem lasting_counted (ht : s.tape.Ordered) : Lasting s (Counted s) where
  onward := by
    rintro σ τ ⟨offset, hle, hlines⟩ hsame hindex
    exact ⟨offset, hle.trans (start_mono ht hindex), hsame.trans hlines⟩
  counted := by
    rintro σ ⟨offset, hle, hlines⟩
    refine ⟨_, Nat.le_refl _, ?_⟩
    dsimp only
    rw [hlines]
    exact LineCounter.advance_at hle (Source.le_size_of_isBoundary (ht.start _))

/-- Counts all lines before the token under the cursor. -/
def recount : Emit Unit := do
  let v ← view
  modify fun σ => { σ with lines := .at v.tape.source v.token.start }

/-- The rules of the writer, with all lines counted anew for each element. -/
def recounting : Task → Emit Unit
  | .element => do
    recount
    Element.element
  | task => perform task

/-- Writes a file by given rules. -/
def writeFileBy (rule : Task → Emit Unit) (p : Prepared) : Except Failure String := do
  let s := p.setting
  let (_, σ) ← file ⟨s, performByFor rule s (depthLimit s.tape)⟩ p.state
  return assemble (prefixCode s σ) (Piece.render σ.output) (suffixCode s σ)

/-- An element depends on the counter only through the lines that it has counted up to it. -/
theorem element_of_lines (hdev : s.options.production = false) {lines : LineCounter}
    (h : lines.advance s.tape.source (s.tape.get σ.index).start =
      σ.lines.advance s.tape.source (s.tape.get σ.index).start) :
    Element.element ⟨s, recur⟩ { σ with lines } = Element.element ⟨s, recur⟩ σ := by
  have hline (τ : State) : (some <$> Element.lineOf (View.token ⟨s.tape, σ.index⟩).start) ⟨s, recur⟩ τ =
      .ok (some (τ.lines.advance s.tape.source (s.tape.get σ.index).start).line,
        { τ with lines := τ.lines.advance s.tape.source (s.tape.get σ.index).start }) := rfl
  have hread {α : Type} (f : Env → Emit α) (env : Env) (τ : State) :
      (read >>= f) env τ = f env env τ := rfl
  unfold Element.element
  rw [hread, hread, view_bind, view_bind]
  dsimp only
  rw [hdev]
  simp only [Bool.false_eq_true, if_false]
  rw [bind_of_ok (hline _), bind_of_ok (hline _), h]

theorem lineOf_recount (ht : s.tape.Ordered) :
    (do recount; Element.lineOf (← view).token.start) ⟨s, recur⟩ σ =
      .ok (1 + s.tape.source.feedsBefore (s.tape.get σ.index).start,
        { σ with lines := .at s.tape.source (s.tape.get σ.index).start }) := by
  have hcount := LineCounter.advance_at (Nat.le_refl _)
    (Source.le_size_of_isBoundary (ht.start σ.index))
  exact congrArg (fun lines => (.ok (lines.line, { σ with lines }) : Except Failure (Nat × State))) hcount

theorem recounting_eq (ht : s.tape.Ordered) (hdev : s.options.production = false) (task : Task)
    (recur : Task → Step Unit) (σ : State) (hσ : Counted s σ) :
    recounting task ⟨s, recur⟩ σ = perform task ⟨s, recur⟩ σ := by
  cases task with
  | token => rfl
  | balanced => rfl
  | element =>
    obtain ⟨offset, hle, hlines⟩ := hσ
    have hsize := Source.le_size_of_isBoundary (ht.start σ.index)
    refine element_of_lines hdev ?_
    rw [hlines]
    exact (LineCounter.advance_at (Nat.le_refl _) hsize).trans (LineCounter.advance_at hle hsize).symm

theorem writeFileBy_recounting {text : String} {o : Options} {p : Prepared} {f : AnnotatedFile}
    (hp : IsPrepared text o p f) (hdev : o.production = false) :
    writeFile p = writeFileBy recounting p := by
  have := hp.endsLater
  have := lasting_counted hp.ordered
  have hstart : Counted p.setting p.state := ⟨0, Nat.zero_le _, hp.lines⟩
  have hfile := file_agree (recounting_eq hp.ordered (hp.options ▸ hdev)) hstart
  unfold writeFile writeFileBy
  dsimp only [ReaderT.run, StateT.run]
  rw [hfile.eq]

/-- The output for an element in another one. -/
def nestedCode : String :=
  "const _jsxFileName = \"\";a;\nReact.createElement('b', \x7b__self: this, __source: \x7bfileName: " ++
    "_jsxFileName, lineNumber: 2\x7d\x7d\n, React.createElement('c', \x7b__self: this, __source: " ++
    "\x7bfileName: _jsxFileName, lineNumber: 3\x7d\x7d))"

end Emit

end PlainScript
