import Mathlib
import PlainScript.SourceMap.Vlq

/-!
# Reading variable-length quantities

A reader of base-64 quantities takes digits until one of them says that it is the last, and gives the
number with what follows it. It reads every number back whose magnitude can be shifted in a 64-bit
word, whatever text comes after it. So a row of numbers that are written one after the other, with
nothing between them, is read back whole.
-/

namespace PlainScript.Vlq

/-- Reads digits, five bits each and the least significant first, up to the one that has no
continuation bit. -/
def readDigits : List Char → Option (Nat × List Char)
  | [] => none
  | c :: rest =>
    match digitValue? c with
    | none => none
    | some value =>
      if value < 32 then some (value, rest)
      else (readDigits rest).map fun (high, after) => (value - 32 + 32 * high, after)

/-- The number whose sign is the lowest bit. -/
def ofSigned (n : Nat) : Int := if n % 2 = 1 then -(n / 2 : Nat) else (n / 2 : Nat)

/-- Reads a number, and gives what follows it. -/
def read (cs : List Char) : Option (Int × List Char) :=
  (readDigits cs).map fun (n, rest) => (ofSigned n, rest)

theorem digitValue?_digit {n : Nat} (h : n < 64) : digitValue? (digit n) = some n := by
  have hall : ∀ n : Fin 64, digitValue? (digit n) = some n.val := by decide +kernel
  exact hall ⟨n, h⟩

theorem digits_lt (n : Nat) : ∀ d ∈ digits n, d < 64 := by
  induction n using digits.induct with
  | case1 n h =>
    rw [digits, if_pos h]
    simp only [List.mem_singleton]
    omega
  | case2 n h ih =>
    rw [digits, if_neg h]
    simp only [List.mem_cons]
    rintro d (rfl | hd)
    · omega
    · exact ih d hd

/-- The digits of a number are read as that number, and the reader stops behind them. -/
theorem readDigits_digits (n : Nat) (rest : List Char) :
    readDigits ((digits n).map digit ++ rest) = some (n, rest) := by
  induction n using digits.induct with
  | case1 n h =>
    rw [digits, if_pos h]
    simp [readDigits, digitValue?_digit (show n < 64 by omega), h]
  | case2 n h ih =>
    have hlow : n % 32 + 32 < 64 := by omega
    have hmore : ¬n % 32 + 32 < 32 := by omega
    have hsum : n % 32 + 32 - 32 + 32 * (n / 32) = n := by omega
    rw [digits, if_neg h]
    simp only [List.map_cons, List.cons_append, readDigits, digitValue?_digit hlow, if_neg hmore,
      ih, Option.map_some, hsum]

/-- The sign is put into the lowest bit without loss below `2 ^ 63`. -/
theorem ofSigned_signed {value : Int} (h : value.natAbs < 2 ^ 63) :
    ofSigned (signed value) = value := by
  have hword : value.natAbs * 2 % UInt64.size = value.natAbs * 2 := Nat.mod_eq_of_lt (by
    simp only [UInt64.size]
    omega)
  simp only [signed, hword, ofSigned]
  by_cases hneg : value < 0
  · rw [if_pos hneg, if_pos (by omega)]
    omega
  · rw [if_neg hneg, if_neg (by omega)]
    omega

/-- The text of a number is read as that number, and the reader stops behind it. -/
theorem read_encode {value : Int} (h : value.natAbs < 2 ^ 63) (rest : List Char) :
    read ((encode value).toList ++ rest) = some (value, rest) := by
  simp [read, encode, readDigits_digits, ofSigned_signed h]

/-- The text of a number consists of digits of base 64. -/
theorem mem_alphabet_of_mem_encode {value : Int} {c : Char} (h : c ∈ (encode value).toList) :
    c ∈ alphabet := by
  simp only [encode, String.toList_ofList, List.mem_map] at h
  obtain ⟨d, hd, rfl⟩ := h
  have hall : ∀ n : Fin 64, digit n ∈ alphabet := by decide +kernel
  exact hall ⟨d, digits_lt _ d hd⟩

theorem encode_ne_nil (value : Int) : (encode value).toList ≠ [] := by
  rw [encode, String.toList_ofList, digits]
  split <;> simp

/-! ## Rows of numbers -/

theorem length_lt_of_readDigits {cs rest : List Char} {n : Nat}
    (h : readDigits cs = some (n, rest)) : rest.length < cs.length := by
  induction cs generalizing n with
  | nil => simp [readDigits] at h
  | cons c cs ih =>
    rw [readDigits] at h
    split at h
    · cases h
    · split at h
      · cases h
        simp
      · obtain ⟨⟨high, after⟩, hmore, heq⟩ := Option.map_eq_some_iff.1 h
        cases heq
        exact (ih hmore).trans (by simp)

theorem length_lt_of_read {cs rest : List Char} {value : Int} (h : read cs = some (value, rest)) :
    rest.length < cs.length := by
  obtain ⟨⟨n, after⟩, hdigits, heq⟩ := Option.map_eq_some_iff.1 h
  cases heq
  exact length_lt_of_readDigits hdigits

/-- Reads numbers up to the end of the text. -/
def readAll (cs : List Char) : Option (List Int) :=
  if cs = [] then some []
  else
    match _h : read cs with
    | none => none
    | some (value, rest) => (readAll rest).map (value :: ·)
termination_by cs.length
decreasing_by exact length_lt_of_read ‹read cs = _›

/-- The texts of numbers, each put behind the ones before it. -/
def encodeAll (values : List Int) : String := values.foldl (fun text value => text ++ encode value) ""

theorem toList_encodeAll (values : List Int) :
    (encodeAll values).toList = values.flatMap fun value => (encode value).toList := by
  have hfold : ∀ (values : List Int) (text : String),
      (values.foldl (fun text value => text ++ encode value) text).toList =
        text.toList ++ values.flatMap fun value => (encode value).toList := by
    intro values
    induction values with
    | nil => simp
    | cons value values ih =>
      intro text
      rw [List.foldl_cons, ih, String.toList_append, List.flatMap_cons, List.append_assoc]
  rw [encodeAll, hfold, String.toList_empty, List.nil_append]

theorem readAll_encode {value : Int} (h : value.natAbs < 2 ^ 63) (rest : List Char) :
    readAll ((encode value).toList ++ rest) = (readAll rest).map (value :: ·) := by
  rw [readAll, if_neg (List.append_ne_nil_of_left_ne_nil (encode_ne_nil value) rest)]
  split
  next hnone => simp [read_encode h] at hnone
  next value' rest' hsome =>
    rw [read_encode h] at hsome
    cases hsome
    rfl

theorem readAll_flatMap {values : List Int} (h : ∀ value ∈ values, value.natAbs < 2 ^ 63) :
    readAll (values.flatMap fun value => (encode value).toList) = some values := by
  induction values with
  | nil => simp [readAll]
  | cons value values ih =>
    rw [List.forall_mem_cons] at h
    rw [List.flatMap_cons, readAll_encode h.1, ih h.2, Option.map_some]

/-- What follows a number cannot be taken for a part of it. -/
theorem encode_append_inj {u v : Int} {rest rest' : List Char} (hu : u.natAbs < 2 ^ 63)
    (hv : v.natAbs < 2 ^ 63) (h : (encode u).toList ++ rest = (encode v).toList ++ rest') :
    u = v ∧ rest = rest' := by
  have hread := read_encode hu rest
  rw [h, read_encode hv] at hread
  cases hread
  exact ⟨rfl, rfl⟩

/-- A row whose text begins the text of another row begins that row. -/
theorem prefix_of_flatMap_prefix {us vs : List Int} (hus : ∀ u ∈ us, u.natAbs < 2 ^ 63)
    (hvs : ∀ v ∈ vs, v.natAbs < 2 ^ 63)
    (h : (us.flatMap fun u => (encode u).toList) <+: vs.flatMap fun v => (encode v).toList) :
    us <+: vs := by
  induction us generalizing vs with
  | nil => exact List.nil_prefix
  | cons u us ih =>
    rw [List.forall_mem_cons] at hus
    obtain ⟨rest, hrest⟩ := h
    rw [List.flatMap_cons, List.append_assoc] at hrest
    cases vs with
    | nil => exact absurd (List.append_eq_nil_iff.1 hrest).1 (encode_ne_nil u)
    | cons v vs =>
      rw [List.forall_mem_cons] at hvs
      obtain ⟨rfl, hafter⟩ := encode_append_inj hus.1 hvs.1 hrest
      exact List.cons_prefix_cons.2 ⟨rfl, ih hus.2 hvs.2 ⟨rest, hafter⟩⟩

/-- The value of a character as a digit of base 64, by the ranges of the characters. -/
def base64Value? (c : Char) : Option Nat :=
  if 'A' ≤ c ∧ c ≤ 'Z' then some (c.toNat - 'A'.toNat)
  else if 'a' ≤ c ∧ c ≤ 'z' then some (c.toNat - 'a'.toNat + 26)
  else if '0' ≤ c ∧ c ≤ '9' then some (c.toNat - '0'.toNat + 52)
  else if c = '+' then some 62
  else if c = '/' then some 63
  else none

theorem digitValue?_eq_base64Value? (c : Char) : digitValue? c = base64Value? c := by
  by_cases hc : c.toNat < 128
  · have hall : ∀ n : Fin 128, digitValue? (Char.ofNat n) = base64Value? (Char.ofNat n) := by
      decide +kernel
    simpa using hall ⟨c.toNat, hc⟩
  · have hout : c ∉ alphabet := by
      have hall : alphabet.all (·.toNat < 128) = true := by decide +kernel
      exact fun h => hc (of_decide_eq_true (List.all_eq_true.1 hall c h))
    have hbeyond : ∀ d : Char, d.toNat < 128 → ¬c ≤ d := fun d hd hle =>
      hc (lt_of_le_of_lt (Char.le_def.1 hle) hd)
    have hne : ∀ d : Char, d.toNat < 128 → c ≠ d := fun d hd heq => hc (heq ▸ hd)
    rw [digitValue?, List.idxOf?_eq_none_iff.2 hout]
    simp [base64Value?, hbeyond 'Z' (by decide), hbeyond 'z' (by decide), hbeyond '9' (by decide),
      hne '+' (by decide), hne '/' (by decide)]

/-- The reader, which gives each character its value in the standard alphabet, reads every row of
64-bit numbers without `-2 ^ 63` back from its text and leaves nothing. So rows with one text are the
same, a row whose text begins another's begins that row, and no number runs into what follows it. -/
theorem readAll_encodeAll (values : List Int) (h : ∀ v ∈ values, -2 ^ 63 < v ∧ v < 2 ^ 63) :
    (∀ c, digitValue? c = base64Value? c) ∧
      readAll (encodeAll values).toList = some values ∧
      (∀ others : List Int, (∀ v ∈ others, -2 ^ 63 < v ∧ v < 2 ^ 63) →
        (encodeAll values = encodeAll others → values = others) ∧
          ((encodeAll values).toList <+: (encodeAll others).toList → values <+: others)) ∧
      ∀ u ∈ values, ∀ v ∈ values, ∀ rest rest',
        (encode u).toList ++ rest = (encode v).toList ++ rest' → u = v ∧ rest = rest' := by
  have hsmall : ∀ {values : List Int}, (∀ v ∈ values, -2 ^ 63 < v ∧ v < 2 ^ 63) →
      ∀ v ∈ values, v.natAbs < 2 ^ 63 := by
    intro values h v hv
    have := h v hv
    omega
  have hread : ∀ {values : List Int}, (∀ v ∈ values, -2 ^ 63 < v ∧ v < 2 ^ 63) →
      readAll (encodeAll values).toList = some values := by
    intro values h
    rw [toList_encodeAll, readAll_flatMap (hsmall h)]
  refine ⟨digitValue?_eq_base64Value?, hread h, fun others hothers => ⟨fun heq => ?_, fun hpre => ?_⟩,
    fun u hu v hv rest rest' heq => encode_append_inj (hsmall h u hu) (hsmall h v hv) heq⟩
  · exact Option.some.inj (by rw [← hread h, heq, hread hothers])
  · rw [toList_encodeAll, toList_encodeAll] at hpre
    exact prefix_of_flatMap_prefix (hsmall h) (hsmall hothers) hpre

theorem readAll_encodeAll_bounds :
    readAll (encodeAll [0, -1, 16, -(2 ^ 63 - 1), 2 ^ 63 - 1]).toList =
      some [0, -1, 16, -(2 ^ 63 - 1), 2 ^ 63 - 1] :=
  (readAll_encodeAll [0, -1, 16, -(2 ^ 63 - 1), 2 ^ 63 - 1] (by decide)).2.1

/-- The magnitude of the number left out is lost in the shift. -/
example : read (encode (-2 ^ 63)).toList = some (0, []) := by decide +kernel

end PlainScript.Vlq
