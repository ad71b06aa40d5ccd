import PlainScript.SourceMap
import PlainScript.Text.Split
import PlainScript.Proofs.Vlq

/-!
# Reading source maps

The reader of a map follows version 3 of the format: the text is cut into lines at each `;` and a line
into segments at each `,`, and the four numbers of a segment are added to the values of the segment
before it. It gives back the recorded mappings in the order of their generated positions.
-/

namespace PlainScript

theorem splitChars_cons_self (separator : Char) (cs : List Char) :
    splitChars separator (separator :: cs) = [] :: splitChars separator cs := by
  rw [splitChars]
  cases h : splitChars separator cs with
  | nil => exact absurd h (splitChars_ne_nil separator cs)
  | cons part parts => simp

/-- A text without the separator is a piece of the first part. -/
theorem splitChars_append {separator : Char} {cs after part : List Char} {parts : List (List Char)}
    (hcs : separator ∉ cs) (hafter : splitChars separator after = part :: parts) :
    splitChars separator (cs ++ after) = (cs ++ part) :: parts := by
  induction cs with
  | nil => exact hafter
  | cons c cs ih =>
    simp only [List.mem_cons, not_or] at hcs
    simp [splitChars, ih hcs.2, Ne.symm hcs.1]

theorem splitChars_replicate_append (separator : Char) (n : Nat) (cs : List Char) :
    splitChars separator (List.replicate n separator ++ cs) =
      List.replicate n [] ++ splitChars separator cs := by
  induction n with
  | zero => rfl
  | succ n ih =>
    simp only [List.replicate_succ, List.cons_append, splitChars_cons_self, ih]

namespace LineColumn

theorem ble_refl (a : LineColumn) : a.ble a := by
  simp [ble]

theorem ble_trans {a b c : LineColumn} (hab : a.ble b) (hbc : b.ble c) : a.ble c := by
  simp only [ble, Bool.or_eq_true, Bool.and_eq_true, decide_eq_true_eq, beq_iff_eq] at *
  omega

theorem ble_total (a b : LineColumn) : a.ble b || b.ble a := by
  simp only [ble, Bool.or_eq_true, Bool.and_eq_true, decide_eq_true_eq, beq_iff_eq]
  omega

theorem line_le_of_ble {a b : LineColumn} (h : a.ble b) : a.line ≤ b.line := by
  simp only [ble, Bool.or_eq_true, Bool.and_eq_true, decide_eq_true_eq, beq_iff_eq] at h
  omega

/-- Both coordinates are 32-bit numbers. -/
def Fits (p : LineColumn) : Prop := p.line < UInt32.size ∧ p.column < UInt32.size

end LineColumn

/-- All coordinates are 32-bit numbers. -/
def Mapping.Fits (m : Mapping) : Prop := m.generated.Fits ∧ m.source.Fits

namespace SourceMap

/-! ## The reader -/

/-- A segment as it is read: the generated position, the number of a source file and a position
there. -/
structure Entry where
  line : Nat := 0
  column : Int := 0
  source : Int := 0
  sourceLine : Int := 0
  sourceColumn : Int := 0
deriving DecidableEq, Repr

/-- Where the segments of the next line start: the column is zero again, the rest goes on. -/
def Entry.nextLine (e : Entry) : Entry := { e with line := e.line + 1, column := 0 }

/-- Reads the four numbers of a segment, which are relative to `base`. -/
def readSegment (base : Entry) (cs : List Char) : Option Entry := do
  let (column, cs) ← Vlq.read cs
  let (source, cs) ← Vlq.read cs
  let (sourceLine, cs) ← Vlq.read cs
  let (sourceColumn, cs) ← Vlq.read cs
  if cs.isEmpty then
    some ⟨base.line, base.column + column, base.source + source, base.sourceLine + sourceLine,
      base.sourceColumn + sourceColumn⟩
  else none

/-- Reads segments, each relative to the one before it. -/
def readSegments : Entry → List (List Char) → Option (List Entry)
  | _, [] => some []
  | base, cs :: rest => do
    let e ← readSegment base cs
    let es ← readSegments e rest
    some (e :: es)

/-- Reads the segments of a line. An empty line has none. -/
def readLine (base : Entry) (cs : List Char) : Option (List Entry) :=
  if cs.isEmpty then some [] else readSegments base (splitChars ',' cs)

/-- Reads lines, the first of which starts with the values of `base`. -/
def readLines : Entry → List (List Char) → Option (List Entry)
  | _, [] => some []
  | base, cs :: rest => do
    let es ← readLine base cs
    let others ← readLines (es.getLast?.getD base).nextLine rest
    some (es ++ others)

/-- Reads the text of the mappings of a map. -/
def decode (text : String) : Option (List Entry) := readLines {} (splitChars ';' text.toList)

/-- A mapping to the only source file, as it is read. -/
def entry (m : Mapping) : Entry :=
  ⟨m.generated.line, m.generated.column, 0, m.source.line, m.source.column⟩

/-- The values that the next segment is relative to, if it stands in the same line. -/
def Previous.entry (p : Previous) : Entry :=
  ⟨p.line, p.generatedColumn, 0, p.sourceLine, p.sourceColumn⟩

/-! ## The numbers of a map -/

/-- The numbers of a segment. -/
def fields (previous : Previous) (m : Mapping) : List Int :=
  [difference m.generated.column
      (if 0 < m.generated.line - previous.line then 0 else previous.generatedColumn),
    0, difference m.source.line previous.sourceLine,
    difference m.source.column previous.sourceColumn]

/-- The numbers of all segments. -/
def differences : Previous → List Mapping → List Int
  | _, [] => []
  | previous, m :: rest => fields previous m ++ differences (segment previous m).2 rest

/-- The text of numbers that follow each other without a separator. -/
def numerals (values : List Int) : List Char := values.flatMap fun value => (Vlq.encode value).toList

theorem numerals_append (xs ys : List Int) : numerals (xs ++ ys) = numerals xs ++ numerals ys :=
  List.flatMap_append

theorem mem_alphabet_of_mem_numerals {values : List Int} {c : Char} (h : c ∈ numerals values) :
    c ∈ Vlq.alphabet := by
  obtain ⟨value, _, hc⟩ := List.mem_flatMap.1 h
  exact Vlq.mem_alphabet_of_mem_encode hc

theorem semicolon_not_mem_numerals (values : List Int) : ';' ∉ numerals values := by
  intro h
  exact absurd (mem_alphabet_of_mem_numerals h) (by decide +kernel)

theorem comma_not_mem_numerals (values : List Int) : ',' ∉ numerals values := by
  intro h
  exact absurd (mem_alphabet_of_mem_numerals h) (by decide +kernel)

theorem numerals_fields_ne_nil (previous : Previous) (m : Mapping) :
    numerals (fields previous m) ≠ [] := by
  intro h
  simp only [numerals, fields, List.flatMap_cons, List.append_eq_nil_iff] at h
  exact Vlq.encode_ne_nil _ h.1

/-- A segment is its numbers, behind the ends of the lines before it or a comma. -/
theorem segment_toList (previous : Previous) (m : Mapping) :
    (segment previous m).1.toList =
      List.replicate (m.generated.line - previous.line) ';' ++
        (if previous.isFirstInLine || 0 < m.generated.line - previous.line then [] else [',']) ++
        numerals (fields previous m) := by
  simp only [segment, String.toList_append, String.toList_ofList, numerals, fields,
    List.flatMap_cons, List.flatMap_nil, List.append_nil, List.append_assoc]
  congr 2
  split <;> rfl

theorem segments_cons (previous : Previous) (m : Mapping) (rest : List Mapping) :
    (segments previous (m :: rest)).toList =
      (segment previous m).1.toList ++ (segments (segment previous m).2 rest).toList := by
  rw [segments, String.toList_append]

/-- The text of the segments without the separators is the text of all their numbers. -/
theorem segments_filter (previous : Previous) (ms : List Mapping) :
    (segments previous ms).toList.filter (· ∈ Vlq.alphabet) =
      numerals (differences previous ms) := by
  induction ms generalizing previous with
  | nil => rfl
  | cons m rest ih =>
    have hsemicolon : ';' ∉ Vlq.alphabet := by decide +kernel
    have hcomma : ',' ∉ Vlq.alphabet := by decide +kernel
    have hnumerals : (numerals (fields previous m)).filter (· ∈ Vlq.alphabet) =
        numerals (fields previous m) :=
      List.filter_eq_self.2 fun c hc => decide_eq_true (mem_alphabet_of_mem_numerals hc)
    rw [segments_cons, segment_toList, differences, numerals_append]
    simp only [List.filter_append, ih, hnumerals, List.append_assoc]
    split <;> simp [hsemicolon, hcomma]

/-- The coordinates of the last segment are 32-bit numbers. -/
structure Previous.Fits (p : Previous) : Prop where
  generatedColumn : p.generatedColumn < UInt32.size
  sourceLine : p.sourceLine < UInt32.size
  sourceColumn : p.sourceColumn < UInt32.size

theorem Previous.fits_segment {m : Mapping} (hm : m.Fits) (previous : Previous) :
    (segment previous m).2.Fits :=
  ⟨hm.1.2, hm.2.1, hm.2.2⟩

/-- A difference of 32-bit numbers fits a 64-bit number, with a bit to spare for the sign. -/
theorem natAbs_difference_lt {a b : Nat} (ha : a < UInt32.size) (hb : b < UInt32.size) :
    (difference a b).natAbs < 2 ^ 63 := by
  simp only [difference, UInt32.size] at *
  omega

theorem natAbs_fields_lt {p : Previous} {m : Mapping} (hp : p.Fits) (hm : m.Fits) :
    ∀ d ∈ fields p m, d.natAbs < 2 ^ 63 := by
  have hcolumn : (if 0 < m.generated.line - p.line then 0 else p.generatedColumn) < UInt32.size := by
    split
    · decide
    · exact hp.generatedColumn
  simp only [fields, List.mem_cons, List.not_mem_nil, or_false]
  rintro d (rfl | rfl | rfl | rfl)
  · exact natAbs_difference_lt hm.1.2 hcolumn
  · decide
  · exact natAbs_difference_lt hm.2.1 hp.sourceLine
  · exact natAbs_difference_lt hm.2.2 hp.sourceColumn

theorem natAbs_differences_lt {p : Previous} {ms : List Mapping} (hp : p.Fits)
    (hms : ∀ m ∈ ms, m.Fits) : ∀ d ∈ differences p ms, d.natAbs < 2 ^ 63 := by
  induction ms generalizing p with
  | nil => simp [differences]
  | cons m rest ih =>
    have hm : m.Fits := hms m List.mem_cons_self
    intro d hd
    rcases List.mem_append.1 hd with hd | hd
    · exact natAbs_fields_lt hp hm d hd
    · exact ih (Previous.fits_segment hm p) (fun m hm => hms m (List.mem_cons_of_mem _ hm)) d hd

/-! ## Reading back -/

theorem readSegment_numerals {base : Entry} {a b c d : Int}
    (h : ∀ n ∈ [a, b, c, d], n.natAbs < 2 ^ 63) :
    readSegment base (numerals [a, b, c, d]) =
      some ⟨base.line, base.column + a, base.source + b, base.sourceLine + c,
        base.sourceColumn + d⟩ := by
  have ha := h a (by simp)
  have hb := h b (by simp)
  have hc := h c (by simp)
  have hd := Vlq.read_encode (h d (by simp)) []
  rw [List.append_nil] at hd
  simp [readSegment, numerals, Vlq.read_encode ha, Vlq.read_encode hb, Vlq.read_encode hc, hd]

/-- The numbers of a segment are read as its mapping from the values of the segment before it; on a new
line, from the column zero. -/
theorem readSegment_fields {p : Previous} {m : Mapping} {base : Entry} (hp : p.Fits) (hm : m.Fits)
    (hbase : base = { p.entry with
      line := m.generated.line
      column := if 0 < m.generated.line - p.line then 0 else p.generatedColumn }) :
    readSegment base (numerals (fields p m)) = some (entry m) := by
  have hread : readSegment base _ = _ := readSegment_numerals (natAbs_fields_lt hp hm)
  rw [fields, hread, hbase]
  simp only [difference, Previous.entry, entry]
  congr 2
  · split <;> omega
  · omega
  · omega

/-- The rest of a line, behind a segment with the values of `base`, is read as `es`. -/
def ReadsRest (base : Entry) (cs : List Char) (es : List Entry) : Prop :=
  cs = [] ∧ es = [] ∨ ∃ after, cs = ',' :: after ∧ readSegments base (splitChars ',' after) = some es

/-- A segment and the rest of its line are read one after the other. -/
theorem readSegments_append {base e : Entry} {cs rest : List Char} {es : List Entry}
    (hcs : ',' ∉ cs) (hread : readSegment base cs = some e) (hrest : ReadsRest e rest es) :
    readSegments base (splitChars ',' (cs ++ rest)) = some (e :: es) := by
  rcases hrest with ⟨rfl, rfl⟩ | ⟨after, rfl, hafter⟩
  · rw [splitChars_append hcs (show splitChars ',' [] = [[]] from rfl)]
    simp [readSegments, hread]
  · simp [splitChars_append hcs (splitChars_cons_self ',' after), readSegments, hread, hafter]

/-- Empty lines only count. -/
theorem readLines_replicate {base : Entry} (n : Nat) (lines : List (List Char))
    (hcolumn : base.column = 0) :
    readLines base (List.replicate n [] ++ lines) =
      readLines { base with line := base.line + n } lines := by
  induction n generalizing base with
  | zero => rfl
  | succ n ih =>
    have hnext := @ih base.nextLine rfl
    have hbase : { base.nextLine with line := base.nextLine.line + n } =
        { base with line := base.line + (n + 1) } := by
      simp only [Entry.nextLine, hcolumn]
      congr 1
      omega
    rw [hbase] at hnext
    simp [List.replicate_succ, readLines, readLine, hnext]

/-- The text behind a segment with the values of `base` is read as `es`: first the rest of the line,
then the other lines. -/
def ReadsOn (base : Entry) (text : List Char) (es : List Entry) : Prop :=
  ∃ part parts first others, splitChars ';' text = part :: parts ∧ ReadsRest base part first ∧
    readLines (first.getLast?.getD base).nextLine parts = some others ∧ es = first ++ others

theorem ReadsOn.segment {base e : Entry} {cs text : List Char} {es : List Entry}
    (hcs : ',' ∉ cs ∧ ';' ∉ cs) (hread : readSegment base cs = some e) (h : ReadsOn e text es) :
    ReadsOn base (',' :: cs ++ text) (e :: es) := by
  obtain ⟨part, parts, first, others, hsplit, hfirst, hothers, rfl⟩ := h
  have hsemicolon : ';' ∉ ',' :: cs := by simp [hcs.2]
  have hsegments := readSegments_append hcs.1 hread hfirst
  refine ⟨',' :: cs ++ part, parts, e :: first, others, splitChars_append hsemicolon hsplit,
    .inr ⟨cs ++ part, rfl, hsegments⟩, ?_, rfl⟩
  rw [List.getLast?_cons]
  exact hothers

theorem ReadsOn.firstSegment {base e : Entry} {cs text : List Char} {es : List Entry}
    (hne : cs ≠ []) (hcs : ',' ∉ cs ∧ ';' ∉ cs) (hread : readSegment base cs = some e)
    (h : ReadsOn e text es) : readLines base (splitChars ';' (cs ++ text)) = some (e :: es) := by
  obtain ⟨part, parts, first, others, hsplit, hfirst, hothers, rfl⟩ := h
  have hsegments := readSegments_append hcs.1 hread hfirst
  rw [splitChars_append hcs.2 hsplit]
  simp [readLines, readLine, hne, hsegments, List.getLast?_cons, hothers]

theorem previous_entry_segment {p : Previous} {m : Mapping} (hline : p.line ≤ m.generated.line) :
    (segment p m).2.entry = entry m := by
  simp [segment, Previous.entry, entry, Nat.max_eq_right hline]

theorem readsOn_segments {p : Previous} {ms : List Mapping} (hp : p.Fits) (hms : ∀ m ∈ ms, m.Fits)
    (hfirst : p.isFirstInLine = false) (hline : ∀ m ∈ ms, p.line ≤ m.generated.line)
    (hsorted : ms.Pairwise fun a b => a.generated.ble b.generated) :
    ReadsOn p.entry (segments p ms).toList (ms.map entry) := by
  induction ms generalizing p with
  | nil => exact ⟨[], [], [], [], rfl, .inl ⟨rfl, rfl⟩, rfl, rfl⟩
  | cons m rest ih =>
    have hm : m.Fits := hms m List.mem_cons_self
    have hpm : p.line ≤ m.generated.line := hline m List.mem_cons_self
    obtain ⟨hbefore, hrest⟩ := List.pairwise_cons.1 hsorted
    have hnext : (SourceMap.segment p m).2.line = m.generated.line := Nat.max_eq_right hpm
    have hafter := ih (Previous.fits_segment hm p) (fun m hm => hms m (List.mem_cons_of_mem _ hm)) rfl
      (fun b hb => hnext ▸ LineColumn.line_le_of_ble (hbefore b hb)) hrest
    rw [previous_entry_segment hpm] at hafter
    have hcs := And.intro (comma_not_mem_numerals (fields p m)) (semicolon_not_mem_numerals (fields p m))
    rw [segments_cons, segment_toList, List.map_cons]
    cases hlines : m.generated.line - p.line with
    | zero =>
      -- The segment stands in the line of the one before it.
      have hread : readSegment p.entry (numerals (fields p m)) = some (entry m) :=
        readSegment_fields hp hm (by
          have hsame : m.generated.line = p.line := by omega
          simp [hsame, Previous.entry])
      simpa [hfirst] using hafter.segment hcs hread
    | succ k =>
      -- The line ends here, and the segment stands behind the empty lines that follow.
      have hread : readSegment { p.entry.nextLine with line := p.entry.nextLine.line + k }
          (numerals (fields p m)) = some (entry m) :=
        readSegment_fields hp hm (by
          have hline : p.line + 1 + k = m.generated.line := by omega
          simp [hlines, Previous.entry, Entry.nextLine, hline])
      have hlast := hafter.firstSegment (numerals_fields_ne_nil p m) hcs hread
      refine ⟨[], List.replicate k [] ++ splitChars ';' (numerals (fields p m) ++ _), [], _, ?_,
        .inl ⟨rfl, rfl⟩, (readLines_replicate k _ rfl).trans hlast, rfl⟩
      simp [List.replicate_succ, splitChars_cons_self, splitChars_replicate_append]

/-- The text of mappings in the order of their generated positions is read as these mappings. -/
theorem readLines_segments {ms : List Mapping} (hms : ∀ m ∈ ms, m.Fits)
    (hsorted : ms.Pairwise fun a b => a.generated.ble b.generated) :
    readLines {} (splitChars ';' (segments {} ms).toList) = some (ms.map entry) := by
  cases ms with
  | nil => rfl
  | cons m rest =>
    have hm : m.Fits := hms m List.mem_cons_self
    have hp : Previous.Fits {} := ⟨by decide, by decide, by decide⟩
    obtain ⟨hbefore, hrest⟩ := List.pairwise_cons.1 hsorted
    have hnext : (SourceMap.segment {} m).2.line = m.generated.line := Nat.max_eq_right (Nat.zero_le _)
    have hafter := readsOn_segments (Previous.fits_segment hm {})
      (fun m hm => hms m (List.mem_cons_of_mem _ hm)) rfl
      (fun b hb => hnext ▸ LineColumn.line_le_of_ble (hbefore b hb)) hrest
    rw [previous_entry_segment (Nat.zero_le _)] at hafter
    have hcs := And.intro (comma_not_mem_numerals (fields {} m))
      (semicolon_not_mem_numerals (fields {} m))
    have hread : readSegment { line := m.generated.line } (numerals (fields {} m)) =
        some (entry m) := readSegment_fields hp hm (by simp [Previous.entry])
    have hlast := hafter.firstSegment (numerals_fields_ne_nil {} m) hcs hread
    rw [segments_cons, segment_toList]
    simpa [splitChars_replicate_append, readLines_replicate] using hlast

/-! ## Recorded mappings -/

/-- What is recorded in a map: one mapping, or the identity for a number of lines. -/
inductive Recording where
  | mapping (m : Mapping)
  | identityLines (n : Nat)

def Recording.mappings : Recording → List Mapping
  | .mapping m => [m]
  | .identityLines n => SourceMap.identityLines n

/-- The coordinates and the number of lines are 32-bit numbers. -/
def Recording.Fits : Recording → Prop
  | .mapping m => m.Fits
  | .identityLines n => n < UInt32.size

/-- All recorded mappings in the order of recording. -/
def recorded (recordings : List Recording) : List Mapping := recordings.flatMap Recording.mappings

theorem Recording.fits_of_mem {r : Recording} (h : r.Fits) : ∀ m ∈ r.mappings, m.Fits := by
  cases r with
  | mapping m =>
    intro m' hm
    rwa [List.mem_singleton.1 hm]
  | identityLines n =>
    intro m hm
    simp only [mappings, SourceMap.identityLines, List.mem_map, List.mem_range] at hm
    obtain ⟨line, hline, rfl⟩ := hm
    have hsmall : line < UInt32.size := Nat.lt_trans hline h
    exact ⟨⟨hsmall, Nat.zero_lt_succ _⟩, ⟨hsmall, Nat.zero_lt_succ _⟩⟩

/-- `sorted` has the elements of `ms` in the order of their generated positions, and those of one
position in the order they have in `ms`. -/
structure StablySorted (ms sorted : List Mapping) : Prop where
  perm : sorted.Perm ms
  ordered : sorted.Pairwise fun a b => a.generated.ble b.generated
  stable : ∀ p, sorted.filter (·.generated = p) = ms.filter (·.generated = p)

theorem stablySorted_mergeSort (ms : List Mapping) :
    StablySorted ms (ms.mergeSort fun a b => a.generated.ble b.generated) := by
  have htrans : ∀ a b c : Mapping, a.generated.ble b.generated → b.generated.ble c.generated →
      a.generated.ble c.generated := fun _ _ _ => LineColumn.ble_trans
  have htotal : ∀ a b : Mapping, a.generated.ble b.generated || b.generated.ble a.generated :=
    fun _ _ => LineColumn.ble_total _ _
  refine ⟨List.mergeSort_perm ms _, List.pairwise_mergeSort htrans htotal ms, fun p => ?_⟩
  have heq : (ms.filter (·.generated = p)).Pairwise fun a b => a.generated.ble b.generated := by
    rw [List.pairwise_filter]
    refine List.pairwise_of_forall fun a b ha hb => ?_
    rw [of_decide_eq_true ha, of_decide_eq_true hb]
    exact p.ble_refl
  have hsublist := (List.sublist_mergeSort htrans htotal heq List.filter_sublist).filter
    (·.generated = p)
  rw [List.filter_filter] at hsublist
  simp only [Bool.and_self] at hsublist
  exact (hsublist.eq_of_length ((List.mergeSort_perm ms _).filter _).length_eq.symm).symm

/-- The mappings of a map are read back exactly as they were recorded, sorted by their generated
positions and each with source file zero. The numbers of the text are the differences that the
segments are written from, and none of them leaves the range of 64-bit arithmetic. -/
theorem decode_ofMappings (recordings : List Recording) (file source : String)
    (h : ∀ r ∈ recordings, r.Fits) :
    ∃ sorted, StablySorted (recorded recordings) sorted ∧
      decode (ofMappings (recorded recordings) file source).mappings = some (sorted.map entry) ∧
      (ofMappings (recorded recordings) file source).mappings.toList.filter (· ∈ Vlq.alphabet) =
        numerals (differences {} sorted) ∧
      ∀ d ∈ differences {} sorted, d.natAbs < 2 ^ 63 := by
  have hsorted := stablySorted_mergeSort (recorded recordings)
  have hfits : ∀ m ∈ (recorded recordings).mergeSort fun a b => a.generated.ble b.generated,
      m.Fits := by
    intro m hm
    obtain ⟨r, hr, hm⟩ := List.mem_flatMap.1 (List.mem_mergeSort.1 hm)
    exact Recording.fits_of_mem (h r hr) m hm
  have hzero : Previous.Fits {} := ⟨by decide, by decide, by decide⟩
  exact ⟨_, hsorted, readLines_segments hfits hsorted.ordered, segments_filter _ _,
    natAbs_differences_lt hzero hfits⟩

/-- Positions that are recorded out of order, one of them twice and one at the far end of the 32-bit
numbers. -/
theorem decode_ofMappings_outOfOrder :
    ∃ sorted, StablySorted [⟨⟨1, 7⟩, ⟨4294967295, 4294967295⟩⟩, ⟨⟨0, 0⟩, ⟨0, 0⟩⟩, ⟨⟨1, 0⟩, ⟨1, 0⟩⟩,
        ⟨⟨1, 7⟩, ⟨0, 2⟩⟩] sorted ∧
      decode (ofMappings [⟨⟨1, 7⟩, ⟨4294967295, 4294967295⟩⟩, ⟨⟨0, 0⟩, ⟨0, 0⟩⟩, ⟨⟨1, 0⟩, ⟨1, 0⟩⟩,
        ⟨⟨1, 7⟩, ⟨0, 2⟩⟩] "out" "in").mappings = some (sorted.map entry) := by
  have hfits : ∀ r ∈ [Recording.mapping ⟨⟨1, 7⟩, ⟨4294967295, 4294967295⟩⟩, .identityLines 2,
      .mapping ⟨⟨1, 7⟩, ⟨0, 2⟩⟩], r.Fits := by
    simp [Recording.Fits, Mapping.Fits, LineColumn.Fits, UInt32.size]
  obtain ⟨sorted, hsorted, hdecode, _⟩ := decode_ofMappings _ "out" "in" hfits
  exact ⟨sorted, hsorted, hdecode⟩

example :
    (ofMappings [⟨⟨1, 7⟩, ⟨4294967295, 4294967295⟩⟩, ⟨⟨0, 0⟩, ⟨0, 0⟩⟩, ⟨⟨1, 0⟩, ⟨1, 0⟩⟩,
      ⟨⟨1, 7⟩, ⟨0, 2⟩⟩] "out" "in").mappings =
      "AAAA;AACA,OA8/////H+/////H,AA//////H7/////H" := by
  cbv

end SourceMap

end PlainScript
