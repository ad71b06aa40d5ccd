import PlainScript.Proofs.Reassembly
import PlainScript.Proofs.TracedFiles

/-!
# The first line

A first line that names an interpreter is part of the gap before the first token. The output starts
with this gap, unless the first token is one of those that the writer moves or puts something before,
and then all the code that goes before the output is put after the line.
-/

namespace PlainScript

/-! ## The gap at the start of the text -/

namespace Source

variable {s : Source} {i j m n : Nat} {c : Char}

theorem exists_append_of_le {a b a' b' : String} (h : a ++ b = a' ++ b')
    (hle : a.utf8ByteSize ≤ a'.utf8ByteSize) : ∃ middle, a' = a ++ middle ∧ b = middle ++ b' := by
  have hlist : a.toList ++ b.toList = a'.toList ++ b'.toList := by
    simpa using congrArg String.toList h
  obtain ⟨more, hlong, hrest⟩ | ⟨more, hlong, hrest⟩ := List.append_eq_append_iff.1 hlist
  · refine ⟨String.ofList more, ?_, ?_⟩
    · simp [← String.toList_inj, hlong]
    · simp [← String.toList_inj, hrest]
  · have ha : a = a' ++ String.ofList more := by simp [← String.toList_inj, hlong]
    have hempty : String.ofList more = "" := by
      rw [ha, String.utf8ByteSize_append] at hle
      exact String.utf8ByteSize_eq_zero_iff.1 (by omega)
    rw [hempty, String.append_empty] at ha
    subst ha
    exact ⟨"", by simp, by simpa using h⟩

/-- A character that starts within a part of the text is one of its characters. -/
theorem mem_of_charAt? {first part rest : String} (htext : s.text = first ++ (part ++ rest))
    (h : s.charAt? i = some c) (hle : first.utf8ByteSize ≤ i)
    (hlt : i < (first ++ part).utf8ByteSize) : c ∈ part.toList := by
  obtain ⟨before, after, hsplit, rfl⟩ := charAt?_eq_some_iff.1 h
  obtain ⟨passed, rfl, hpart⟩ := exists_append_of_le (htext.symm.trans hsplit) hle
  rw [String.utf8ByteSize_append, String.utf8ByteSize_append] at hlt
  obtain ⟨more, rfl, hmore⟩ := exists_append_of_le hpart.symm (by omega)
  cases hlist : more.toList with
  | nil =>
    obtain rfl := String.toList_eq_nil_iff.1 hlist
    simp at hlt
  | cons d more' =>
    have hchars := congrArg String.toList hmore
    rw [String.toList_append, hlist, String.toList_ofList] at hchars
    obtain ⟨rfl, -⟩ := List.cons.inj hchars
    simp [hlist]

/-- A text starts at the offset where the text before it ends. -/
theorem isBoundary_of_append {first rest : String} (htext : s.text = first ++ rest) :
    s.isBoundary first.utf8ByteSize = true := by
  rw [isBoundary_iff_isValid, String.Pos.Raw.isValid_iff_exists_append]
  exact ⟨first, rest, htext, rfl⟩

theorem slice_of_append {first rest : String} (htext : s.text = first ++ rest) :
    s.slice 0 first.utf8ByteSize = first := by
  rw [← String.toByteArray_inj, toByteArray_slice s.isBoundary_zero (isBoundary_of_append htext)
    (Nat.zero_le _), s.bytes_eq, htext]
  simp [ByteArray.extract_append_eq_left]

/-- The scanner passes all blanks that come one after the other. -/
theorem le_of_gapFor (hblank : ∀ k c, i ≤ k → k < m → s.charAt? k = some c → isGap c = true)
    (hi : s.isBoundary i = true) (hm : m ≤ s.size) (hn : s.size - i ≤ n)
    (h : s.gapFor n i = .upTo j) : m ≤ j := by
  induction n generalizing i with
  | zero =>
    cases h
    omega
  | succ n ih =>
    obtain hlt | hle := Nat.lt_or_ge i m
    case inr => exact Nat.le_trans hle (trivia_of_gapFor h).le
    obtain ⟨c, hc⟩ := exists_charAt? hi (Nat.lt_of_lt_of_le hlt hm)
    have hgap := hblank i c (Nat.le_refl i) hlt hc
    -- No comment starts with a blank.
    have hbyte {d : Char} (hd : d.toNat < 128) (hno : isGap d = false) : s.byteAt i ≠ d := by
      intro heq
      obtain rfl := Option.some.inj
        (hc.symm.trans (charAt?_of_byteAt heq (Nat.lt_of_lt_of_le hlt hm) hd))
      exact Bool.false_ne_true (hno.symm.trans hgap)
    have hpos := c.utf8Size_pos
    rw [gapFor, hc] at h
    split at h
    · exact absurd ‹_› (hbyte (by decide) (by decide))
    · exact absurd ‹_› (hbyte (by decide) (by decide))
    · dsimp only at h
      rw [if_pos hgap] at h
      exact ih (fun k d hk => hblank k d (by omega)) (isBoundary_add_utf8Size hc) (by omega) h

/-- The scanner passes a line that starts with `#!` and the blanks after it. -/
theorem le_of_gap_line {line blanks rest : String} (htext : s.text = line ++ (blanks ++ rest))
    (hmark : line.toList.take 2 = ['#', '!'])
    (hline : ∀ c ∈ line.toList, isLineTerminator c = false)
    (hblanks : ∀ c ∈ blanks.toList, isGap c = true) (h : s.gap 0 = .upTo j) :
    (line ++ blanks).utf8ByteSize ≤ j := by
  have hsize : (line ++ blanks).utf8ByteSize ≤ s.size := by
    rw [← String.append_assoc] at htext
    exact le_size_of_isBoundary (isBoundary_of_append htext)
  have hlist : s.text.toList = '#' :: '!' :: (line.toList.drop 2 ++ (blanks ++ rest).toList) := by
    rw [htext, String.toList_append, ← List.take_append_drop 2 line.toList, hmark]
    simp
  have hfirst : s.charAt? 0 = some '#' := charAt?_eq_some_iff.2 ⟨"", s.text.toList.drop 1, by
    simp [← String.toList_inj, hlist], rfl⟩
  have hsecond : s.charAt? 1 = some '!' := charAt?_eq_some_iff.2 ⟨"#", s.text.toList.drop 2, by
    simp [← String.toList_inj, hlist], rfl⟩
  have hpos := lt_size_of_charAt? hsecond
  obtain ⟨n, hn⟩ : ∃ n, s.size - 0 = n + 1 := ⟨s.size - 1, by omega⟩
  rw [gap, hn, gapFor, byteAt_of_charAt? hfirst (by decide)] at h
  rw [if_pos ⟨rfl, byteAt_of_charAt? hsecond (by decide)⟩] at h
  have hrest := restOfLine_skipChars s 2
  generalize s.skipChars (!isLineTerminator ·) 2 = stop at h hrest
  have hboundary := hrest.isBoundary (isBoundary_add_utf8Size hsecond)
  have hpassed := hrest.run.le
  -- The line is passed up to a line terminator, and there is none in it.
  have hstop : line.utf8ByteSize ≤ stop := by
    apply Nat.le_of_not_lt
    intro hlt
    rw [String.utf8ByteSize_append] at hsize
    obtain ⟨c, hc⟩ := exists_charAt? hboundary (by omega)
    have hwhole : s.text = "" ++ (line ++ (blanks ++ rest)) := by simpa using htext
    have hmem : c ∈ line.toList := mem_of_charAt? hwhole hc (Nat.zero_le _) (by simpa using hlt)
    exact Bool.false_ne_true ((hline c hmem).symm.trans (hrest.stop c hc))
  refine le_of_gapFor (fun k c hk hlt hc => ?_) hboundary hsize (by omega) h
  exact hblanks c (mem_of_charAt? htext hc (Nat.le_trans hstop hk) hlt)

/-- A first line that starts with `#!` is part of the gap at the start of the text, as long as only
blanks follow another line terminator in it. -/
theorem exists_slice_eq {line rest : String} (htext : s.text = line ++ "\n" ++ rest)
    (hmark : line.toList.take 2 = ['#', '!'])
    (hblank : ∀ c ∈ line.toList.dropWhile (!isLineTerminator ·), isGap c = true)
    (h : s.gap 0 = .upTo j) : ∃ after, s.slice 0 j = line ++ "\n" ++ after := by
  obtain ⟨body, hbody⟩ : ∃ body, body = line.toList.takeWhile (!isLineTerminator ·) := ⟨_, rfl⟩
  obtain ⟨blanks, hblanks⟩ : ∃ blanks, blanks = line.toList.dropWhile (!isLineTerminator ·) := ⟨_, rfl⟩
  have hlist : line.toList = body ++ blanks := by
    rw [hbody, hblanks, List.takeWhile_append_dropWhile]
  have hparts : line ++ "\n" = String.ofList body ++ String.ofList (blanks ++ ['\n']) := by
    simp [← String.toList_inj, hlist]
  have hle : (line ++ "\n").utf8ByteSize ≤ j := by
    rw [hparts]
    rw [hparts, String.append_assoc] at htext
    refine le_of_gap_line htext ?_ ?_ ?_ h
    · have hmarked : line.toList = '#' :: '!' :: line.toList.drop 2 := Emit.StartsWithMark.toList_eq hmark
      rw [String.toList_ofList, hbody, hmarked, List.takeWhile_cons_of_pos (by decide),
        List.takeWhile_cons_of_pos (by decide)]
      rfl
    · intro c hc
      rw [String.toList_ofList, hbody] at hc
      simpa using List.mem_takeWhile_imp hc
    · intro c hc
      rw [String.toList_ofList] at hc
      obtain hc | hc := List.mem_append.1 hc
      · exact hblank c (hblanks ▸ hc)
      · rw [List.mem_singleton.1 hc]
        decide
  have hj := (trivia_of_gap h).isBoundary s.isBoundary_zero
  have hline := isBoundary_of_append htext
  refine ⟨s.slice (line ++ "\n").utf8ByteSize j, ?_⟩
  rw [← slice_append_slice s.isBoundary_zero hline hj (Nat.zero_le _) hle, slice_of_append htext]

end Source

/-! ## The first token -/

namespace Grammar

open Parse

variable {s : Source} {d : Dialect} {σ τ υ : State}

/-- Where the first lexeme starts, be it consumed or current. -/
def State.firstStart (σ : State) : Nat := (σ.spans.head?.map Prod.fst).getD σ.current.start

theorem firstStart_of_pushed (h : τ.tokens = σ.pushed.tokens) : τ.firstStart = σ.firstStart := by
  rw [State.firstStart, State.firstStart, State.spans_eq_of_tokens h, σ.spans_pushed]
  cases σ.spans <;> rfl

theorem firstStart_of_tokens (h : τ.tokens = σ.tokens) (hstart : τ.current.start = σ.current.start) :
    τ.firstStart = σ.firstStart := by
  rw [State.firstStart, State.firstStart, State.spans_eq_of_tokens h, hstart]

theorem State.SameLexemes.firstStart (h : σ.SameLexemes τ) : τ.firstStart = σ.firstStart := by
  obtain ⟨hcurrent, -, hspans⟩ := h
  rw [State.firstStart, State.firstStart, hspans, hcurrent]

theorem firstStart_of_reread {env : Env} {reading : Reading}
    (hrun : settle σ.current.start reading env σ = .ok ((), τ)) (hnone : τ.error? = none) :
    τ.firstStart = σ.firstStart := by
  obtain ⟨htokens, hclear⟩ := settle_ok hrun
  obtain ⟨-, kind, keyword, stop, -, hcurrent⟩ := hclear hnone
  exact firstStart_of_tokens htokens (by rw [hcurrent])

/-- A lexeme is consumed where it starts, and read again there. -/
theorem Action.firstStart {recur : Goal → Step Bool} (a : Action)
    (hrun : a.perform ⟨s, d, recur⟩ σ = .ok ((), τ)) (hnone : τ.error? = none) :
    τ.firstStart = σ.firstStart := by
  cases a with
  | fail cause pos => exact absurd hnone (fail_ok hrun).2
  | retype kind h =>
    cases hrun
    exact firstStart_of_tokens rfl rfl
  | next => exact firstStart_of_pushed (readCode_ok (σ := σ.pushed) hrun).1
  | nextInTemplate => exact firstStart_of_pushed (settle_ok (σ := σ.pushed) hrun).1
  | nextInTag =>
    change Parse.nextInTag _ _ = _ at hrun
    rw [Parse.nextInTag_eq] at hrun
    dsimp only at hrun
    cases hgap : s.gap σ.current.stop with
    | openComment start =>
      rw [hgap] at hrun
      obtain ⟨_, υ, hfail, hrest⟩ := bind_ok hrun
      cases hrest
      exact absurd hnone (fail_ok hfail).2
    | upTo pos =>
      rw [hgap] at hrun
      exact firstStart_of_pushed (settle_ok (σ := σ.pushed) hrun).1
  | nextInElement => exact firstStart_of_pushed (settle_ok (σ := σ.pushed) hrun).1
  | rereadGreater =>
    change (if σ.current.kind == .greater then do
      settle σ.current.start (Reading.punctuator (← read).source σ.current.start) else pure () :
        Parse Unit) ⟨s, d, recur⟩ σ = _ at hrun
    split at hrun
    · exact firstStart_of_reread hrun hnone
    · cases hrun
      rfl
  | splitShiftLeft =>
    change (if σ.current.kind == .shiftLeft then
      settle σ.current.start (Reading.plain .less (σ.current.start + 1)) else pure () : Parse Unit)
        ⟨s, d, recur⟩ σ = _ at hrun
    split at hrun
    · exact firstStart_of_reread hrun hnone
    · cases hrun
      rfl
  | nextRegexp =>
    obtain ⟨_, υ, hread, hrun⟩ := bind_ok hrun
    change settle σ.current.start (Reading.regexp s σ.current.start) ⟨s, d, recur⟩ σ = _ at hread
    obtain ⟨htokens, hclear⟩ := readCode_ok (σ := υ.pushed) hrun
    exact (firstStart_of_pushed htokens).trans (firstStart_of_reread hread (hclear hnone).1)

/-- The first lexeme stays where it is. -/
theorem Reaches.firstStart (h : Reaches s d σ τ) (hnone : τ.error? = none) :
    τ.firstStart = σ.firstStart := by
  induction h with
  | stay => rfl
  | act a recur _ hrun ih =>
    exact (a.firstStart hrun hnone).trans (ih ((a.advances hrun).error hnone))
  | annotate _ hsame ih =>
    have hsame := hsame.toSameLexemes
    exact hsame.firstStart.trans (ih (hsame.error.symm.trans hnone))
  | close _ _ hinside _ ih ih' => exact (ih' hnone).trans (ih (hinside.advances.error hnone))
  | retreat _ hback ih => exact hback.advances.restore.firstStart.trans (ih hnone)

end Grammar

/-- The scanner passes over the gap at the start of the text to get to the first lexeme. -/
theorem Grammar.gap_zero_of_readCode {s : Source} {d : Dialect} {recur : Goal → Step Bool} {σ : State}
    (hrun : Parse.readCode ⟨s, d, recur⟩ {} = .ok ((), σ)) (hnone : σ.error? = none) :
    s.gap 0 = .upTo σ.firstStart := by
  obtain ⟨htokens, hclear⟩ := Parse.readCode_ok hrun
  obtain ⟨-, pos, hgap, hread⟩ := hclear hnone
  change s.gap 0 = .upTo pos at hgap
  have hspans : σ.spans = [] := State.spans_eq_of_tokens htokens
  have hpos := (Source.trivia_of_gap hgap).isBoundary s.isBoundary_zero
  rw [State.firstStart, hspans, hgap]
  rcases hread with ⟨hend, hcurrent, -⟩ | ⟨-, kind, keyword, stop, -, hcurrent⟩
  · rw [hcurrent]
    exact congrArg Gap.upTo (Nat.le_antisymm (Source.le_size_of_isBoundary hpos) hend)
  · rw [hcurrent]
    rfl

open Grammar in
/-- The gap at the start of the text reaches as far as the first token. -/
theorem AnnotatedFile.gap_zero_of_ofSource {s : Source} {d : Dialect} {f : AnnotatedFile}
    (h : ofSource s d = .ok f) : ∃ t, f.tokens[0]? = some t ∧ s.gap 0 = .upTo t.start := by
  rw [ofSource] at h
  split at h
  case isTrue => cases h
  case isFalse =>
    split at h
    case h_1 => cases h
    case h_2 τ hparse =>
      split at h
      case h_1 => cases h
      case h_2 hnone =>
        cases h
        obtain ⟨σ, υ, ω, recur, hread, hreach, -, hnext, hclear, htokens⟩ :=
          reaches_of_parse hparse hnone
        have hnone' := (advances_of_next hnext).error hclear
        have hgap := gap_zero_of_readCode hread (hreach.advances.error hnone')
        have hlast : ω.tokens = υ.pushed.tokens := (Parse.readCode_ok (σ := υ.pushed) hnext).1
        rw [← hreach.firstStart hnone', ← firstStart_of_pushed hlast] at hgap
        have hsize : 0 < ω.tokens.size := by simp [hlast, State.pushed]
        refine ⟨ω.tokens[0], by rw [htokens, Array.getElem?_eq_getElem hsize], ?_⟩
        rw [hgap, State.firstStart, State.spans, List.head?_map, List.head?_eq_getElem?,
          Array.getElem?_toList, Array.getElem?_eq_getElem hsize]
        rfl

/-! ## The output -/

namespace Emit

variable {s : Setting} {h j : Nat} {pieces : List Piece} {text : String} {o : Options} {p : Prepared}
  {file : AnnotatedFile}

/-- The gap before the first token is what the scanner passes over first. -/
theorem IsPrepared.gap_zero (hp : IsPrepared text o p file) :
    (Source.ofText text).gap 0 = .upTo (p.setting.tape.get 0).start := by
  obtain ⟨t, ht, hgap⟩ := AnnotatedFile.gap_zero_of_ofSource hp.parsed
  obtain hlt | hge := Nat.lt_or_ge 0 p.setting.tape.size
  · obtain ⟨u, hu, hlexeme⟩ := hp.get_eq hlt
    cases ht.symm.trans hu
    rw [hgap, show (p.setting.tape.get 0).start = t.start from congrArg Lexeme.start hlexeme]
  · -- The only token ends the text.
    obtain ⟨last, hlast, hkind, hle⟩ := (AnnotatedFile.tiles_of_ofSource hp.parsed).last
    have hone : file.tokens.size = 1 := by
      have hsize := congrArg Array.size hp.tokens
      simp only [Array.size_map, Tape.ofTokens, hlast, Option.any_some, hkind, beq_self_eq_true,
        if_true, Array.size_pop] at hsize
      have hpos := (Array.getElem?_eq_some_iff.1 ht).1
      have hempty : p.setting.tape.tokens.size ≤ 0 := hge
      omega
    rw [Array.back?_eq_getElem?, hone, ht] at hlast
    cases hlast
    have hboundary := (Source.trivia_of_gap hgap).isBoundary (Source.isBoundary_zero _)
    rw [hgap, Tape.get_of_size_le hge, Tape.endToken, hp.source]
    exact congrArg Gap.upTo (Nat.le_antisymm (Source.le_size_of_isBoundary hboundary) hle)

/-- The gap before the first token starts with the first line, if this names an interpreter. -/
theorem IsPrepared.exists_gap {line rest : String} (hp : IsPrepared text o p file)
    (htext : text = line ++ "\n" ++ rest) (hmark : StartsWithMark line)
    (hblank : ∀ c ∈ line.toList.dropWhile (!isLineTerminator ·), isGap c = true)
    (hflow : o.has .flow = false) : ∃ after, p.setting.gapAt 0 = line ++ "\n" ++ after := by
  have hwhole : p.setting.gapAt 0 = View.gap ⟨p.setting.tape, 0⟩ := by
    rw [Setting.gapAt, hp.options, hflow]
    rfl
  have hgap := hp.gap_zero
  rw [← hp.source] at hgap
  rw [hwhole, hp.ordered.gap_eq]
  have hsource : p.setting.tape.source.text = line ++ "\n" ++ rest := by
    rw [hp.source, Source.ofText_text, htext]
  exact Source.exists_slice_eq hsource hmark hblank hgap

/-- What is written first is the gap before the first token. -/
theorem Trace.first {i : Nat} (hfirst : ¬ FirstMoves s) (htrace : Trace s h i j pieces) (hi : i = 0) :
    (j = 0 ∧ pieces = []) ∨ ∃ more, pieces = .gap 0 (s.gapAt 0) :: more := by
  have hlater {k : Nat} (hk : Later s k) : k ≠ 0 :=
    Nat.ne_of_gt (hk.later.resolve_right hfirst)
  induction htrace with
  | nil => exact .inl ⟨hi, rfl⟩
  | add _ _ hj ih =>
    obtain ⟨hzero, -⟩ | ⟨more, rfl⟩ := ih hi
    · exact absurd hzero (hlater hj)
    · exact .inr ⟨_, rfl⟩
  | @write _ _ _ _ form _ _ _ hwriting ih =>
    obtain ⟨rfl, rfl⟩ | ⟨more, rfl⟩ := ih hi
    · cases form with
      | whole => exact .inr ⟨_, rfl⟩
      | lineBreaks => exact absurd rfl (hlater (hwriting.trims.later rfl))
    · exact .inr ⟨_, rfl⟩
  | task _ _ _ ih ih' =>
    obtain ⟨rfl, rfl⟩ | ⟨more, rfl⟩ := ih hi
    · exact ih' rfl
    · exact .inr ⟨_, rfl⟩

/-- A first line that names an interpreter stays the first line of the output, with all other code
after it, unless the first token is moved. What follows a line terminator within the line has to be
blank: a token there belongs to the line as well. -/
theorem codeOf_firstLine {line rest code : String} (hmark : StartsWithMark line)
    (hline : '\n' ∉ line.toList)
    (hblank : ∀ c ∈ line.toList.dropWhile (!isLineTerminator ·), isGap c = true)
    (hflow : o.has .flow = false) (hprepare : prepare (line ++ "\n" ++ rest) o = .ok p)
    (hfirst : ¬ FirstMoves p.setting) (hcode : Output.codeOf (line ++ "\n" ++ rest) o = .ok code) :
    ∃ σ more,
      Emit.file ⟨p.setting, performFor p.setting (depthLimit p.setting.tape)⟩ p.state = .ok ((), σ) ∧
      Piece.render σ.output = line ++ "\n" ++ more ∧
      code = line ++ "\n" ++ prefixCode p.setting σ ++ more ++ suffixCode p.setting σ := by
  obtain ⟨file, σ, pieces, hp, hrun, rfl, houtput, htrace, -⟩ := trace_of_codeOf hprepare hcode 0
  obtain ⟨after, hgap⟩ := hp.exists_gap rfl hmark hblank hflow
  -- Nothing comes before the gap before the first token, not even if it is the only gap.
  obtain ⟨more, hmore⟩ : ∃ more, pieces ++ [.gap σ.index (p.setting.gapAt σ.index)] =
      .gap 0 (line ++ "\n" ++ after) :: more := by
    rw [← hgap]
    obtain ⟨hzero, rfl⟩ | ⟨more, rfl⟩ := htrace.first hfirst rfl
    · exact ⟨[], by rw [hzero]; rfl⟩
    · exact ⟨_, rfl⟩
  have hrender : Piece.render σ.output =
      line ++ "\n" ++ (after ++ String.join (more.map Piece.text)) := by
    rw [Piece.render_eq_join, houtput, hmore, List.map_cons, String.join_cons, Piece.text,
      String.append_assoc]
  refine ⟨σ, _, hrun, hrender, ?_⟩
  rw [hrender, assemble_of_mark hmark hline]

/-- The code for a module is put after a first line that ends with a carriage return. -/
theorem codeOf_firstLine_carriageReturn :
    Output.codeOf ("#!/usr/bin/env node\r" ++ "\n" ++ "import \x7ba\x7d from 'x'; a;")
        { transforms := .ofList [.imports] } =
        .ok "#!/usr/bin/env node\r\n\"use strict\";var _x = require('x'); _x.a;" ∧
      ∃ p : Prepared, ∃ σ : State, ∃ more,
        Emit.file ⟨p.setting, performFor p.setting (depthLimit p.setting.tape)⟩ p.state = .ok ((), σ) ∧
        Piece.render σ.output = "#!/usr/bin/env node\r" ++ "\n" ++ more ∧
        "#!/usr/bin/env node\r\n\"use strict\";var _x = require('x'); _x.a;" =
          "#!/usr/bin/env node\r" ++ "\n" ++ prefixCode p.setting σ ++ more ++
            suffixCode p.setting σ := by
  have hok : (Output.codeOf ("#!/usr/bin/env node\r" ++ "\n" ++ "import \x7ba\x7d from 'x'; a;")
      { transforms := .ofList [.imports] }).toOption =
        some "#!/usr/bin/env node\r\n\"use strict\";var _x = require('x'); _x.a;" := by
    decide +kernel
  have hprepared : ((prepare ("#!/usr/bin/env node\r" ++ "\n" ++ "import \x7ba\x7d from 'x'; a;")
      { transforms := .ofList [.imports] }).toOption.map fun p =>
        p.setting.tape.kind 0 == .importWord && (p.setting.tape.get 0).subscriptStart?.isNone &&
          p.setting.options.has .imports && !p.setting.options.has .jest) = some true := by
    decide +kernel
  obtain ⟨p, hp, hchecks⟩ := Option.map_eq_some_iff.1 hprepared
  simp only [Bool.and_eq_true, beq_iff_eq, Bool.not_eq_true', Option.isNone_iff_eq_none] at hchecks
  obtain ⟨⟨⟨hkind, hstart⟩, himports⟩, hjest⟩ := hchecks
  have hfirst : ¬ FirstMoves p.setting := by
    intro h
    cases h with
    | recent _ h => simp [hkind, hstart] at h
    | mock h => simp [hjest] at h
    | importStatement h => simp [himports] at h
    | increment _ h => simp [hkind] at h
    | classValue h => simp [hkind] at h
  have hcode := eq_ok_of_toOption hok
  have hblank : ("#!/usr/bin/env node\r".toList.dropWhile (!isLineTerminator ·)).all isGap = true := by
    decide +kernel
  exact ⟨hcode, p, codeOf_firstLine (by decide) (by decide) (List.all_eq_true.1 hblank)
    (by decide) (eq_ok_of_toOption hp) hfirst hcode⟩

end Emit

end PlainScript
