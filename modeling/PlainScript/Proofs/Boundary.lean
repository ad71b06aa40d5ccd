import PlainScript.Token.Reading

/-!
# Character boundaries

The scanners step over bytes, the text consists of characters. Two facts connect the two views. The
end of a decoded character is a boundary again, and a byte below 128 is a whole character wherever
it stands, so that a scanner which stops at such a byte stops at a boundary even if it came there
through the middle of characters.
-/

namespace PlainScript.Source

variable {s : Source} {i j : Nat} {c : Char}

theorem isBoundary_iff_isValid (s : Source) (i : Nat) :
    s.isBoundary i = true ↔ (String.Pos.Raw.mk i).IsValid s.text := by
  have hsize : s.size = s.text.utf8ByteSize := by simp [size, s.bytes_eq]
  rw [String.Pos.Raw.isValid_iff_isSome_utf8DecodeChar?]
  simp [isBoundary, charAt?, s.bytes_eq, hsize, String.Pos.Raw.ext_iff]

theorem isBoundary_size (s : Source) : s.isBoundary s.size = true := by simp [isBoundary]

theorem isBoundary_zero (s : Source) : s.isBoundary 0 = true := by
  rw [isBoundary_iff_isValid]
  exact String.Pos.Raw.isValid_zero

theorem isBoundary_of_charAt? (h : s.charAt? i = some c) : s.isBoundary i = true := by
  simp [isBoundary, h]

theorem charAt?_of_not_isBoundary (h : s.isBoundary i = false) : s.charAt? i = none := by
  rw [isBoundary, Bool.or_eq_false_iff, Option.isSome_eq_false_iff, Option.isNone_iff_eq_none] at h
  exact h.2

theorem add_utf8Size_le (h : s.charAt? i = some c) : i + c.utf8Size ≤ s.size :=
  ByteArray.le_size_of_utf8DecodeChar?_eq_some h

theorem lt_size_of_charAt? (h : s.charAt? i = some c) : i < s.size := by
  have hle := add_utf8Size_le h
  have hpos := c.utf8Size_pos
  omega

theorem le_size_of_isBoundary (h : s.isBoundary i = true) : i ≤ s.size := by
  rw [isBoundary, Bool.or_eq_true, beq_iff_eq, Option.isSome_iff_exists] at h
  rcases h with h | ⟨c, h⟩
  · omega
  · exact Nat.le_of_lt (lt_size_of_charAt? h)

/-- At a boundary before the end a character starts. -/
theorem exists_charAt? (h : s.isBoundary i = true) (hi : i < s.size) : ∃ c, s.charAt? i = some c := by
  rw [isBoundary, Bool.or_eq_true, beq_iff_eq, Option.isSome_iff_exists] at h
  exact h.resolve_left (by omega)

/-- A character starts at an offset if the text before it takes up that many bytes. -/
theorem charAt?_eq_some_iff : s.charAt? i = some c ↔
    ∃ before after, s.text = before ++ String.ofList (c :: after) ∧ i = before.utf8ByteSize := by
  have hdecode {before : String} {cs : List Char} (htext : s.text = before ++ String.ofList cs) :
      s.charAt? before.utf8ByteSize = cs.utf8Encode.utf8DecodeChar? 0 := by
    have hbytes : s.bytes = before.toByteArray ++ cs.utf8Encode := by simp [s.bytes_eq, htext]
    have hrest : s.bytes.extract before.utf8ByteSize s.bytes.size = cs.utf8Encode := by
      rw [hbytes, ByteArray.extract_append_eq_right] <;> simp
    rw [← hrest, ← ByteArray.utf8DecodeChar?_eq_utf8DecodeChar?_extract]
    rfl
  constructor
  · intro h
    have hi := isBoundary_of_charAt? h
    rw [isBoundary_iff_isValid, String.Pos.Raw.isValid_iff_exists_append] at hi
    obtain ⟨before, after, htext, hpos⟩ := hi
    obtain ⟨cs, rfl⟩ := String.exists_eq_ofList after
    have hsize : i = before.utf8ByteSize := congrArg String.Pos.Raw.byteIdx hpos
    rw [hsize, hdecode htext] at h
    cases cs with
    | nil => simp [ByteArray.utf8DecodeChar?] at h
    | cons d rest =>
      rw [List.utf8DecodeChar?_utf8Encode_cons, Option.some.injEq] at h
      subst h
      exact ⟨before, rest, htext, hsize⟩
  · rintro ⟨before, after, htext, rfl⟩
    rw [hdecode htext, List.utf8DecodeChar?_utf8Encode_cons]

/-- The end of a character is a boundary. -/
theorem isBoundary_add_utf8Size (h : s.charAt? i = some c) :
    s.isBoundary (i + c.utf8Size) = true := by
  obtain ⟨before, after, htext, hsize⟩ := charAt?_eq_some_iff.1 h
  rw [isBoundary_iff_isValid, String.Pos.Raw.isValid_iff_exists_append]
  refine ⟨before ++ String.singleton c, String.ofList after, ?_, ?_⟩
  · rw [htext, String.append_assoc, String.singleton_eq_ofList, ← String.ofList_append,
      List.singleton_append]
  · simp [String.Pos.Raw.ext_iff, hsize]

theorem lt_size_of_byteAt (h : s.byteAt i = c) (hc : c ≠ '\x00') : i < s.size := by
  apply Nat.lt_of_not_le
  intro hle
  rw [byteAt_eq_nul_of_size_le hle] at h
  exact hc h.symm

open ByteArray.utf8DecodeChar? in
/-- A byte below 128 is a character of its own. -/
theorem charAt?_of_byteAt (h : s.byteAt i = c) (hi : i < s.size) (hc : c.toNat < 128) :
    s.charAt? i = some c := by
  have hlt : i < s.bytes.size := hi
  rw [byteAt, dif_pos hlt] at h
  subst h
  have hlow : s.bytes[i] &&& 0x80 = 0 := by
    have hb : s.bytes[i].toNat < 128 := hc
    have hbits : ∀ b : BitVec 8, b.toNat < 128 → b &&& 0x80#8 = 0#8 := by decide
    exact UInt8.toBitVec_inj.1 (hbits _ hb)
  have hfirst : parseFirstByte s.bytes[i] = .done := by simp [parseFirstByte, hlow]
  rw [charAt?, ByteArray.utf8DecodeChar?, dif_pos hlt]
  split
  · simp_all
  · rfl
  · simp_all
  · simp_all
  · simp_all

theorem utf8Size_eq_one (hc : c.toNat < 128) : c.utf8Size = 1 := by
  rw [Char.utf8Size_eq_one_iff, UInt32.le_iff_toNat_le]
  exact Nat.le_of_lt_succ hc

theorem byteAt_of_charAt? (h : s.charAt? i = some c) (hc : c.toNat < 128) : s.byteAt i = c := by
  have hlt : i < s.bytes.size := lt_size_of_charAt? h
  have hval : c.val.toNat < 128 := hc
  have hfirst : s.bytes[i] = c.val.toUInt8 := by
    rw [charAt?, ByteArray.utf8DecodeChar?_eq_utf8DecodeChar?_extract] at h
    have hbytes := congrArg (fun b : ByteArray => b.data.toList.head?)
      (ByteArray.eq_of_utf8DecodeChar?_eq_some h)
    rw [String.utf8EncodeChar_eq_singleton (utf8Size_eq_one hc), ByteArray.data_extract,
      Array.toList_extract, List.extract_eq_take_drop, List.head?_take, if_neg (by omega),
      List.head?_drop, ByteArray.data_append, Array.toList_append, List.data_toByteArray] at hbytes
    have hget : s.bytes.data.toList[i]? = some s.bytes[i] := List.getElem?_eq_getElem hlt
    exact Option.some.inj (hget.symm.trans hbytes)
  have hback : Char.ofUInt8 c.val.toUInt8 = c := by
    apply Char.ext
    apply UInt32.toNat_inj.1
    unfold Char.ofUInt8
    rw [UInt8.toNat_toUInt32, UInt32.toNat_toUInt8]
    omega
  rw [byteAt, dif_pos hlt, hfirst, hback]

/-- The offset after a byte below 128 is a boundary. -/
theorem isBoundary_succ (h : s.byteAt i = c) (hi : i < s.size) (hc : c.toNat < 128) :
    s.isBoundary (i + 1) = true := by
  have hchar := charAt?_of_byteAt h hi hc
  have hnext := isBoundary_add_utf8Size hchar
  rwa [utf8Size_eq_one hc] at hnext

/-- The end of a text that can be cut out at a boundary is a boundary. -/
theorem isBoundary_of_slice? {text : String} (h : s.slice? i j = some text)
    (hi : s.isBoundary i = true) : i ≤ j ∧ s.isBoundary j = true := by
  rw [slice?] at h
  split at h
  case isFalse => cases h
  case isTrue hrange =>
    refine ⟨hrange.1, ?_⟩
    have hvalid : (s.text.toByteArray.extract i j).IsValidUTF8 := by
      rw [String.fromUTF8?] at h
      split at h
      case isTrue hutf8 =>
        rwa [s.bytes_eq, String.toUTF8_eq_toByteArray] at hutf8
      case isFalse => cases h
    have hend : s.size = s.text.utf8ByteSize := by simp [size, s.bytes_eq]
    rcases (String.Pos.Raw.isValidUTF8_extract_iff ⟨i⟩ ⟨j⟩ hrange.1 (by
      rw [String.Pos.Raw.le_iff]
      simpa [hend] using hrange.2)).1 hvalid with heq | hboth
    · cases heq
      exact hi
    · exact (isBoundary_iff_isValid s j).2 hboth.2

/-! ## Scanning bytes -/

theorem le_skipBytes (s : Source) (p : Char → Bool) (i : Nat) : i ≤ s.skipBytes p i :=
  le_skipBytesFor s p _ i

theorem skipBytesFor_stop (s : Source) (p : Char → Bool) (n i : Nat)
    (h : s.skipBytesFor p n i < i + n) : p (s.byteAt (s.skipBytesFor p n i)) = false := by
  induction n generalizing i with
  | zero => exact absurd h (Nat.lt_irrefl i)
  | succ n ih =>
    rw [skipBytesFor] at h ⊢
    split at h
    case isTrue hp =>
      rw [if_pos hp]
      exact ih (i + 1) (by omega)
    case isFalse hp =>
      rw [if_neg hp]
      exact Bool.eq_false_iff.2 hp

/-- A scan over bytes that ends before the end of the text ends at a byte that fails. -/
theorem skipBytes_stop {p : Char → Bool} (h : s.skipBytes p i < s.size) :
    p (s.byteAt (s.skipBytes p i)) = false := by
  have hle := le_skipBytes s p i
  refine skipBytesFor_stop s p (s.size - i) i ?_
  rw [skipBytes] at h hle
  omega

/-- A scan over bytes below 128 keeps to boundaries. -/
theorem isBoundary_skipBytes {p : Char → Bool} (hp : ∀ c, p c = true → c.toNat < 128)
    (hi : s.isBoundary i = true) : s.isBoundary (s.skipBytes p i) = true := by
  have hscan : ∀ n i, i + n ≤ s.size → s.isBoundary i = true →
      s.isBoundary (s.skipBytesFor p n i) = true := by
    intro n
    induction n with
    | zero => exact fun i _ hi => hi
    | succ n ih =>
      intro i hn hi
      rw [skipBytesFor]
      split
      case isTrue hpass =>
        exact ih (i + 1) (by omega) (isBoundary_succ rfl (by omega) (hp _ hpass))
      case isFalse => exact hi
  have hle := le_size_of_isBoundary hi
  exact hscan _ i (by omega) hi

theorem findPairFor_eq_some {a b : Char} {n : Nat} (h : s.findPairFor a b n i = some j) :
    i ≤ j ∧ s.byteAt j = a ∧ s.byteAt (j + 1) = b ∧
      ∀ k, i ≤ k → k < j → ¬ (s.byteAt k = a ∧ s.byteAt (k + 1) = b) := by
  induction n generalizing i with
  | zero => cases h
  | succ n ih =>
    rw [findPairFor] at h
    split at h
    case isTrue hpair =>
      cases h
      exact ⟨Nat.le_refl _, hpair.1, hpair.2, fun k hik hki => by omega⟩
    case isFalse hpair =>
      obtain ⟨hle, ha, hb, hfirst⟩ := ih h
      refine ⟨by omega, ha, hb, fun k hik hkj => ?_⟩
      rcases Nat.eq_or_lt_of_le hik with rfl | hlt
      · exact hpair
      · exact hfirst k hlt hkj

/-! ## Runs of characters -/

/-- The text between two offsets consists of characters that satisfy `p`. -/
inductive Run (s : Source) (p : Char → Bool) : Nat → Nat → Prop
  | nil (i : Nat) : Run s p i i
  | cons {i j : Nat} {c : Char} :
      s.charAt? i = some c → p c = true → Run s p (i + c.utf8Size) j → Run s p i j

theorem Run.le {p : Char → Bool} (h : s.Run p i j) : i ≤ j := by
  induction h with
  | nil => exact Nat.le_refl _
  | cons _ _ _ ih => omega

theorem Run.isBoundary {p : Char → Bool} (h : s.Run p i j) (hi : s.isBoundary i = true) :
    s.isBoundary j = true := by
  induction h with
  | nil => exact hi
  | cons hc _ _ ih => exact ih (isBoundary_add_utf8Size hc)

theorem run_skipCharsFor (s : Source) (p : Char → Bool) (n i : Nat) :
    s.Run p i (s.skipCharsFor p n i) := by
  induction n generalizing i with
  | zero => exact .nil i
  | succ n ih =>
    rw [skipCharsFor]
    split
    case h_1 c hc =>
      split
      case isTrue hp => exact .cons hc hp (ih _)
      case isFalse => exact .nil i
    case h_2 => exact .nil i

theorem run_skipChars (s : Source) (p : Char → Bool) (i : Nat) : s.Run p i (s.skipChars p i) :=
  run_skipCharsFor s p _ i

/-- A scan over characters ends where a character fails or none starts. -/
theorem skipChars_stop {p : Char → Bool} (h : s.charAt? (s.skipChars p i) = some c) :
    p c = false := by
  have hscan : ∀ n i, s.size ≤ i + n → s.charAt? (s.skipCharsFor p n i) = some c →
      p c = false := by
    intro n
    induction n with
    | zero =>
      intro i hn hc
      have := lt_size_of_charAt? hc
      rw [skipCharsFor] at this
      omega
    | succ n ih =>
      intro i hn hc
      rw [skipCharsFor] at hc
      split at hc
      case h_1 d hd =>
        have := d.utf8Size_pos
        split at hc
        case isTrue => exact ih _ (by omega) hc
        case isFalse hp =>
          rw [hd] at hc
          cases hc
          exact Bool.eq_false_iff.2 hp
      case h_2 hnone =>
        rw [hnone] at hc
        cases hc
  exact hscan _ i (by omega) h

end PlainScript.Source
