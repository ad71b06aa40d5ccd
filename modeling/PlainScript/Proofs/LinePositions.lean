import Mathlib
import PlainScript.SyntaxError

/-!
# Lines and columns of offsets

The line of an offset is the number of line feeds before it, and its column is the number of bytes
since the last of them. The index of line starts finds both for every offset up to the end of the
text: the starts up to the offset are those that the bytes before it give, one for each line feed, and
every other start lies behind it.
-/

namespace ByteArray

theorem toList_loop_eq (bytes : ByteArray) (i : Nat) (before : List UInt8) :
    toList.loop bytes i before = before.reverse ++ bytes.data.toList.drop i := by
  induction i, before using toList.loop.induct bytes with
  | case1 i before hlt ih =>
    have hnext : bytes.data.toList.drop i = bytes.data[i] :: bytes.data.toList.drop (i + 1) :=
      List.drop_eq_getElem_cons hlt
    have hget : bytes.get! i = bytes.data[i] := getElem!_pos bytes.data i hlt
    rw [toList.loop, if_pos hlt, ih, hnext, hget, List.reverse_cons, List.append_assoc,
      List.singleton_append]
  | case2 i before hge =>
    rw [toList.loop, if_neg hge, List.drop_eq_nil_of_le (Nat.le_of_not_lt hge), List.append_nil]

theorem toList_eq_data (bytes : ByteArray) : bytes.toList = bytes.data.toList := by
  rw [toList, toList_loop_eq, List.reverse_nil, List.nil_append, List.drop_zero]

end ByteArray

namespace PlainScript

namespace Source

/-- The bytes before an offset. -/
def bytesBefore (s : Source) (offset : Nat) : List UInt8 := s.bytes.data.toList.take offset

/-- The number of line feeds before an offset. -/
def feedsBefore (s : Source) (offset : Nat) : Nat := (s.bytesBefore offset).count 10

/-- The number of bytes between the last line feed before an offset, or the start, and the offset. -/
def columnAt (s : Source) (offset : Nat) : Nat :=
  ((s.bytesBefore offset).reverse.takeWhile (· ≠ 10)).length

variable {s : Source} {offset offset' : Nat}

theorem length_bytesBefore (h : offset ≤ s.size) : (s.bytesBefore offset).length = offset := by
  rw [bytesBefore, List.length_take]
  exact Nat.min_eq_left h

theorem feedsBefore_mono (h : offset ≤ offset') : s.feedsBefore offset ≤ s.feedsBefore offset' :=
  (List.take_sublist_take_left h).count_le 10

end Source

namespace LineIndex

theorem startsAfter_append (as bs : List UInt8) (i : Nat) :
    startsAfter (as ++ bs) i = startsAfter as i ++ startsAfter bs (i + as.length) := by
  induction as generalizing i with
  | nil => rfl
  | cons a as ih =>
    simp only [List.cons_append, startsAfter, ih, List.length_cons, Nat.add_assoc, Nat.add_comm 1]
    split <;> rfl

theorem length_startsAfter (bs : List UInt8) (i : Nat) : (startsAfter bs i).length = bs.count 10 := by
  induction bs generalizing i with
  | nil => rfl
  | cons b bs ih =>
    rw [startsAfter, List.count_cons]
    split <;> simp_all

theorem lt_of_mem_startsAfter {bs : List UInt8} {i start : Nat} (h : start ∈ startsAfter bs i) :
    i < start := by
  induction bs generalizing i with
  | nil => simp [startsAfter] at h
  | cons b bs ih =>
    rw [startsAfter] at h
    split at h
    · obtain rfl | hrest := List.mem_cons.1 h
      · exact Nat.lt_succ_self i
      · exact Nat.lt_of_succ_lt (ih hrest)
    · exact Nat.lt_of_succ_lt (ih h)

/-- The last line starts as far before the end as there are bytes behind the last line feed. -/
theorem getLastD_startsAfter_add (bs : List UInt8) :
    (startsAfter bs 0).getLastD 0 + (bs.reverse.takeWhile (· ≠ 10)).length = bs.length := by
  induction bs using List.reverseRecOn with
  | nil => rfl
  | append_singleton bs b ih =>
    rw [startsAfter_append, List.reverse_append, List.reverse_singleton, List.singleton_append,
      List.length_append, List.length_singleton]
    by_cases hb : b = 10
    · simp [startsAfter, hb]
    · rw [startsAfter, if_neg hb, startsAfter, List.append_nil, List.takeWhile_cons_of_pos (by simpa),
        List.length_cons, ← Nat.add_assoc, ih]

theorem lineBefore_eq {index : LineIndex} {offset n line : Nat} (hline : line < n)
    (hstart : index.starts.getD line 0 ≤ offset)
    (hafter : ∀ j, line < j → j < n → offset < index.starts.getD j 0) :
    index.lineBefore offset n = line := by
  induction n with
  | zero => exact absurd hline (Nat.not_lt_zero line)
  | succ n ih =>
    rw [lineBefore]
    obtain rfl | hlt := Nat.eq_or_lt_of_le (Nat.le_of_lt_succ hline)
    · rw [if_pos hstart]
    · rw [if_neg (Nat.not_le_of_lt (hafter n hlt (Nat.lt_succ_self n)))]
      exact ih hlt fun j hj hn => hafter j hj (Nat.lt_succ_of_lt hn)

variable {s : Source} {offset : Nat}

/-- The starts at or before an offset, and those behind it. -/
theorem starts_ofSource (h : offset ≤ s.size) :
    (ofSource s).starts =
      ((0 :: startsAfter (s.bytesBefore offset) 0) ++
        startsAfter (s.bytes.data.toList.drop offset) offset).toArray := by
  have hsplit : s.bytes.data.toList = s.bytesBefore offset ++ s.bytes.data.toList.drop offset :=
    (List.take_append_drop offset _).symm
  rw [ofSource, ByteArray.toList_eq_data, hsplit, startsAfter_append, Source.length_bytesBefore h,
    Nat.zero_add, ← hsplit, List.cons_append]

theorem start_add_columnAt (h : offset ≤ s.size) :
    (ofSource s).starts.getD (s.feedsBefore offset) 0 + s.columnAt offset = offset := by
  have hlast : (ofSource s).starts.getD (s.feedsBefore offset) 0 =
      (startsAfter (s.bytesBefore offset) 0).getLastD 0 := by
    rw [starts_ofSource h, Source.feedsBefore, ← length_startsAfter _ 0]
    generalize startsAfter (s.bytesBefore offset) 0 = starts
    induction starts using List.reverseRecOn with
    | nil => rfl
    | append_singleton starts start _ => simp
  rw [hlast, Source.columnAt, getLastD_startsAfter_add, Source.length_bytesBefore h]

theorem lineBefore_ofSource (h : offset ≤ s.size) :
    (ofSource s).lineBefore offset (ofSource s).starts.size = s.feedsBefore offset := by
  have hsum := start_add_columnAt h
  have hlength : (0 :: startsAfter (s.bytesBefore offset) 0).length = s.feedsBefore offset + 1 := by
    rw [List.length_cons, length_startsAfter, Source.feedsBefore]
  refine lineBefore_eq ?_ (by omega) fun j hlow hhigh => ?_
  · rw [starts_ofSource h, List.size_toArray, List.length_append, hlength]
    omega
  · -- The starts with a higher number are those that the bytes from the offset on give.
    rw [starts_ofSource h] at hhigh ⊢
    rw [List.size_toArray, List.length_append, hlength] at hhigh
    have hrest : j - (s.feedsBefore offset + 1) <
        (startsAfter (s.bytes.data.toList.drop offset) offset).length := by omega
    rw [Array.getD_eq_getD_getElem?, List.getElem?_toArray, List.getElem?_append_right (by omega),
      hlength, List.getElem?_eq_getElem hrest, Option.getD_some]
    exact lt_of_mem_startsAfter (List.getElem_mem hrest)

theorem position?_of_le (h : offset ≤ s.size) :
    (ofSource s).position? offset = some ⟨s.feedsBefore offset, s.columnAt offset⟩ := by
  have hsum := start_add_columnAt h
  have hcolumn : offset - (ofSource s).starts.getD (s.feedsBefore offset) 0 = s.columnAt offset := by
    omega
  simp only [position?, lineBefore_ofSource h, hcolumn]
  exact if_pos h

theorem position?_of_lt (h : s.size < offset) : (ofSource s).position? offset = none :=
  if_neg (Nat.not_le_of_lt h)

end LineIndex

end PlainScript
