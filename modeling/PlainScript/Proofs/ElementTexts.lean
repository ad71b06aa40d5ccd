import Mathlib
import PlainScript.Emit.ElementText
import PlainScript.Proofs.Reassembly

/-!
# What the text between tags means

The text is read in one go, with the blanks that may still turn out to be layout kept aside. What comes
out is what its lines say one by one: trimmed where they were broken, without those that are then empty,
decoded and joined by blanks. References decide nothing about the layout, since none of them contains a
blank or a line break, and what they stand for is never layout. A text comes out empty if and only if
the reader of lexemes has called it empty.
-/

namespace PlainScript

/-! ## References -/

namespace Entity

/-- What may stand between an ampersand and a semicolon, and the character it stands for. -/
inductive IsReference (c : Char) : List Char → Prop
  | named {name : List Char} (h : named.lookup (String.ofList name) = some c.toNat) : IsReference c name
  | decimal {digits : List Char} (hne : digits ≠ []) (hdigits : ∀ d ∈ digits, d.isDigit = true)
      (h : numberOf 10 digits = c.toNat) : IsReference c ('#' :: digits)
  | hexadecimal {digits : List Char} (hne : digits ≠ []) (hdigits : ∀ d ∈ digits, isHexDigit d = true)
      (h : numberOf 16 digits = c.toNat) : IsReference c ('#' :: 'x' :: digits)

theorem charOf?_eq_some_iff {n : Nat} {c : Char} : charOf? n = some c ↔ n = c.toNat := by
  unfold charOf?
  constructor
  · intro h
    split at h
    · cases h
      rfl
    · cases h
  · rintro rfl
    exact dif_pos c.valid

/-- The characters that no reference contains. -/
def separators : List Char := [' ', '\t', '\r', '\n', ';']

/-- The names are short words, so the reader sees all of a name and the semicolon after it. -/
theorem length_lt_of_lookup {name : List Char} {n : Nat}
    (h : named.lookup (String.ofList name) = some n) :
    name.length < 10 ∧ name.head? ≠ some '#' ∧ ∀ z ∈ separators, z ∉ name := by
  have htable : (named.all fun entry => entry.1.toList.length < 10 &&
      (entry.1.toList.head? != some '#' && separators.all (!entry.1.toList.contains ·))) = true := by
    decide +kernel
  obtain ⟨before, after, hnamed, -⟩ := List.lookup_eq_some_iff.1 h
  simpa using List.all_eq_true.1 htable (String.ofList name, n) (by simp [hnamed])

theorem IsReference.not_mem {c z : Char} {body : List Char} (h : IsReference c body)
    (hz : z ∈ separators) : z ∉ body := by
  have hdigit : z.isDigit = false ∧ isHexDigit z = false ∧ z ≠ '#' ∧ z ≠ 'x' := by
    simp only [separators, List.mem_cons, List.not_mem_nil, or_false] at hz
    rcases hz with rfl | rfl | rfl | rfl | rfl <;> decide
  cases h with
  | named h => exact (length_lt_of_lookup h).2.2 z hz
  | decimal hne hdigits h => grind
  | hexadecimal hne hdigits h => grind

theorem drop_length_takeWhile (p : Char → Bool) (cs : List Char) :
    cs.drop (cs.takeWhile p).length = cs.dropWhile p := by
  induction cs with
  | nil => rfl
  | cons c cs ih => by_cases hc : p c <;> simp [hc, ih]

theorem takeWhile_append_cons {p : Char → Bool} {cs rest : List Char} {z : Char}
    (hcs : ∀ d ∈ cs, p d = true) (hz : p z = false) : (cs ++ z :: rest).takeWhile p = cs := by
  rw [List.takeWhile_append_of_pos hcs, List.takeWhile_cons_of_neg (by simp [hz]), List.append_nil]

theorem decodeNumber_eq_some_iff {radix : Nat} {isDigit : Char → Bool} (hend : isDigit ';' = false)
    {cs : List Char} {c : Char} {n : Nat} : decodeNumber radix isDigit cs = some (c, n) ↔
      ∃ digits rest, cs = digits ++ ';' :: rest ∧ digits ≠ [] ∧ (∀ d ∈ digits, isDigit d = true) ∧
        numberOf radix digits = c.toNat ∧ n = digits.length + 1 := by
  unfold decodeNumber
  constructor
  · intro h
    dsimp only at h
    split at h
    · cases h
    next hnot =>
      simp only [Bool.or_eq_true, List.isEmpty_iff, bne_iff_ne, not_or, not_not,
        drop_length_takeWhile] at hnot
      obtain ⟨d, hd, hpair⟩ := Option.map_eq_some_iff.1 h
      cases hpair
      obtain ⟨rest, hrest⟩ := List.head?_eq_some_iff.1 hnot.2
      refine ⟨cs.takeWhile isDigit, rest, ?_, hnot.1, fun d hd => List.mem_takeWhile_imp hd,
        charOf?_eq_some_iff.1 hd, rfl⟩
      rw [← hrest, List.takeWhile_append_dropWhile]
  · rintro ⟨digits, rest, rfl, hne, hdigits, hc, rfl⟩
    simp [takeWhile_append_cons hdigits hend, hne, charOf?_eq_some_iff.2 hc]

theorem decodeName_eq_some_iff {cs : List Char} {c : Char} {n : Nat} : decodeName cs = some (c, n) ↔
    ∃ name rest, cs = name ++ ';' :: rest ∧ named.lookup (String.ofList name) = some c.toNat ∧
      n = name.length + 1 := by
  unfold decodeName
  constructor
  · intro h
    dsimp only at h
    split at h
    · cases h
    next hnot =>
      obtain ⟨m, hm, h⟩ := Option.bind_eq_some_iff.1 h
      obtain ⟨d, hd, h⟩ := Option.bind_eq_some_iff.1 h
      cases h
      cases charOf?_eq_some_iff.1 hd
      rw [drop_length_takeWhile, List.isEmpty_iff] at hnot
      obtain ⟨z, rest, hrest⟩ := List.exists_cons_of_ne_nil hnot
      have hz := List.head_dropWhile_not (· != ';') (l := cs.take 10) hnot
      simp only [hrest, List.head_cons, bne_eq_false_iff_eq] at hz
      refine ⟨_, rest ++ cs.drop 10, ?_, hm, rfl⟩
      rw [← List.cons_append, show ';' :: rest = _ from hz ▸ hrest.symm, ← List.append_assoc,
        List.takeWhile_append_dropWhile, List.take_append_drop]
  · rintro ⟨name, rest, rfl, hname, rfl⟩
    obtain ⟨hlength, -, hnot⟩ := length_lt_of_lookup hname
    have htake : ((name ++ ';' :: rest).take 10).takeWhile (· != ';') = name := by
      rw [List.take_append, List.take_of_length_le (by omega),
        show 10 - name.length = 9 - name.length + 1 by omega, List.take_succ_cons]
      refine takeWhile_append_cons (fun d hd => bne_iff_ne.2 ?_) (by decide)
      rintro rfl
      exact hnot ';' (by decide) hd
    simp [htake, hname, charOf?_eq_some_iff.2 rfl]
    omega

theorem decode_eq_some_iff {cs : List Char} {c : Char} {n : Nat} : decode cs = some (c, n) ↔
    ∃ body rest, cs = body ++ ';' :: rest ∧ IsReference c body ∧ n = body.length + 1 := by
  have hname {name rest tail : List Char} (hname : named.lookup (String.ofList name) = some c.toNat)
      (h : '#' :: rest = name ++ ';' :: tail) : False := by
    cases name with
    | nil => cases h
    | cons d name =>
      cases h
      exact (length_lt_of_lookup hname).2.1 rfl
  unfold decode
  split
  next rest =>
    simp only [Option.map_eq_some_iff, Prod.exists, decodeNumber_eq_some_iff (show isHexDigit ';' = false by decide)]
    constructor
    · rintro ⟨c', n', ⟨digits, tail, rfl, hne, hdigits, hc, rfl⟩, hpair⟩
      cases hpair
      exact ⟨_, tail, rfl, .hexadecimal hne hdigits hc, rfl⟩
    · rintro ⟨body, tail, hcs, hbody, rfl⟩
      cases hbody with
      | named h => exact (hname h hcs).elim
      | decimal hne hdigits h =>
        obtain ⟨d, digits, rfl⟩ := List.exists_cons_of_ne_nil hne
        cases hcs
        exact absurd (hdigits 'x' List.mem_cons_self) (by decide)
      | hexadecimal hne hdigits h =>
        cases hcs
        exact ⟨c, _, ⟨_, tail, rfl, hne, hdigits, h, rfl⟩, rfl⟩
  next rest hx =>
    simp only [Option.map_eq_some_iff, Prod.exists, decodeNumber_eq_some_iff (show Char.isDigit ';' = false by decide)]
    constructor
    · rintro ⟨c', n', ⟨digits, tail, rfl, hne, hdigits, hc, rfl⟩, hpair⟩
      cases hpair
      exact ⟨_, tail, rfl, .decimal hne hdigits hc, rfl⟩
    · rintro ⟨body, tail, hcs, hbody, rfl⟩
      cases hbody with
      | named h => exact (hname h hcs).elim
      | decimal hne hdigits h =>
        cases hcs
        exact ⟨c, _, ⟨_, tail, rfl, hne, hdigits, h, rfl⟩, rfl⟩
      | hexadecimal hne hdigits h => exact (hx _ (List.cons.inj hcs).2).elim
  next hx hhash =>
    rw [decodeName_eq_some_iff]
    constructor
    · rintro ⟨name, tail, hcs, hlookup, hn⟩
      exact ⟨name, tail, hcs, .named hlookup, hn⟩
    · rintro ⟨body, tail, hcs, hbody, hn⟩
      cases hbody with
      | named h => exact ⟨_, tail, hcs, h, hn⟩
      | decimal hne hdigits h => exact (hhash _ hcs).elim
      | hexadecimal hne hdigits h => exact (hhash _ hcs).elim

end Entity

namespace ElementText

/-! ## Decoding -/

/-- Decoding a text: each reference becomes its character, from left to right, and every other
character, an ampersand too, stands for itself. -/
inductive Decodes : List Char → List Char → Prop
  | nil : Decodes [] []
  | reference {c : Char} {body rest out : List Char} (h : Entity.IsReference c body)
      (hrest : Decodes rest out) : Decodes ('&' :: (body ++ ';' :: rest)) (c :: out)
  | plain {c : Char} {rest out : List Char}
      (h : c = '&' → ∀ d body tail, rest = body ++ ';' :: tail → ¬ Entity.IsReference d body)
      (hrest : Decodes rest out) : Decodes (c :: rest) (c :: out)

/-- The characters of a decoded text. -/
def decoded (cs : List Char) : List Char := (unitsAfter 0 cs).map TextUnit.char

theorem unitsAfter_append (before rest : List Char) :
    unitsAfter before.length (before ++ rest) = unitsAfter 0 rest := by
  induction before with
  | nil => rfl
  | cons c before ih => simpa [unitsAfter] using ih

theorem unitsAfter_reference {c : Char} {body : List Char} (h : Entity.IsReference c body)
    (rest : List Char) :
    unitsAfter 0 ('&' :: (body ++ ';' :: rest)) = ⟨c, true⟩ :: unitsAfter 0 rest := by
  have hdecode := Entity.decode_eq_some_iff.2 ⟨body, rest, rfl, h, rfl⟩
  have hskip := unitsAfter_append (body ++ [';']) rest
  rw [List.length_append, List.length_singleton, List.append_assoc, List.singleton_append] at hskip
  rw [unitsAfter, if_pos rfl, hdecode]
  exact congrArg _ hskip

theorem unitsAfter_plain {c : Char} {rest : List Char} (h : c = '&' → Entity.decode rest = none) :
    unitsAfter 0 (c :: rest) = ⟨c, false⟩ :: unitsAfter 0 rest := by
  rw [unitsAfter]
  split
  next hc =>
    split at hc
    next hamp =>
      rw [h hamp] at hc
      cases hc
    next => cases hc
  next => rfl

theorem decode_eq_none_iff {rest : List Char} : Entity.decode rest = none ↔
    ∀ d body tail, rest = body ++ ';' :: tail → ¬ Entity.IsReference d body := by
  constructor
  · intro h d body tail hrest hbody
    rw [Entity.decode_eq_some_iff.2 ⟨body, tail, hrest, hbody, rfl⟩] at h
    cases h
  · intro h
    refine Option.eq_none_iff_forall_ne_some.2 fun ⟨d, n⟩ hdecode => ?_
    obtain ⟨body, tail, hrest, hbody, -⟩ := Entity.decode_eq_some_iff.1 hdecode
    exact h d body tail hrest hbody

theorem decodes_iff {cs out : List Char} : Decodes cs out ↔ out = decoded cs := by
  constructor
  · intro h
    induction h with
    | nil => rfl
    | reference h hrest ih => rw [decoded, unitsAfter_reference h, ih]; rfl
    | plain h hrest ih => rw [decoded, unitsAfter_plain fun hc => decode_eq_none_iff.2 (h hc), ih]; rfl
  · rintro rfl
    -- A reference takes more than one character off the text.
    induction hn : cs.length using Nat.strong_induction_on generalizing cs with
    | _ n ih =>
      cases cs with
      | nil => exact .nil
      | cons c rest =>
        by_cases hplain : c = '&' → Entity.decode rest = none
        · rw [decoded, unitsAfter_plain hplain]
          exact .plain (fun hc => decode_eq_none_iff.1 (hplain hc)) (ih _ (by simp [← hn]) rfl)
        · obtain ⟨rfl, hsome⟩ := Classical.not_imp.1 hplain
          obtain ⟨⟨d, k⟩, hdecode⟩ := Option.ne_none_iff_exists'.1 hsome
          obtain ⟨body, tail, rfl, hbody, -⟩ := Entity.decode_eq_some_iff.1 hdecode
          rw [decoded, unitsAfter_reference hbody]
          exact .reference hbody (ih _ (by simp [← hn]; omega) rfl)

/-! ## Lines -/

/-- The blanks that count for nothing at the end of a line. -/
def isLineBlank (c : Char) : Bool := c == ' ' || c == '\t' || c == '\r'

/-- Whether a part of a text is such a blank. -/
def TextUnit.isBlank (u : TextUnit) : Bool := !u.isReference && isLineBlank u.char

/-- The end of a line. -/
def lineEnd : TextUnit := ⟨'\n', false⟩

section

variable {α : Type} (p : α → Bool)

/-- Trims the start of every line but the first. -/
def trimStarts : List (List α) → List (List α)
  | [] => []
  | first :: rest => first :: rest.map (·.dropWhile p)

/-- Trims the end of every line but the last. -/
def trimEnds : List (List α) → List (List α)
  | [] => []
  | [last] => [last]
  | line :: next :: rest => line.rdropWhile p :: trimEnds (next :: rest)

end

theorem mem_separators_of_isLineBlank {z : Char} (hz : isLineBlank z = true) :
    z ∈ Entity.separators ∧ z ≠ ';' ∧ z ≠ '&' := by
  simp only [isLineBlank, Bool.or_eq_true, beq_iff_eq] at hz
  rcases hz with (rfl | rfl) | rfl <;> decide

theorem decode_append {z : Char} (hz : z ∈ Entity.separators) (hend : z ≠ ';') (before rest : List Char) :
    Entity.decode (before ++ z :: rest) = Entity.decode before := by
  refine Option.ext fun ⟨c, n⟩ => ?_
  rw [Entity.decode_eq_some_iff, Entity.decode_eq_some_iff]
  constructor
  · rintro ⟨body, tail, h, hbody, hn⟩
    obtain ⟨more, rfl, hmore⟩ | ⟨more, rfl, hmore⟩ := List.append_eq_append_iff.1 h
    · cases more with
      | nil => exact absurd (List.cons.inj hmore).1 hend
      | cons d more =>
        cases (List.cons.inj hmore).1
        exact absurd (by simp) (hbody.not_mem hz)
    · cases more with
      | nil => exact absurd (List.cons.inj hmore).1.symm hend
      | cons d more =>
        cases (List.cons.inj hmore).1
        exact ⟨body, more, rfl, hbody, hn⟩
  · rintro ⟨body, tail, rfl, hbody, hn⟩
    exact ⟨body, tail ++ z :: rest, by simp, hbody, hn⟩

/-- A blank or a line break belongs to no reference. -/
theorem units_append {z : Char} (hz : z ∈ Entity.separators) (hend : z ≠ ';') (hamp : z ≠ '&')
    (before rest : List Char) :
    unitsAfter 0 (before ++ z :: rest) = unitsAfter 0 before ++ ⟨z, false⟩ :: unitsAfter 0 rest := by
  suffices ∀ n ≤ before.length,
      unitsAfter n (before ++ z :: rest) = unitsAfter n before ++ ⟨z, false⟩ :: unitsAfter 0 rest from
    this 0 (Nat.zero_le _)
  induction before with
  | nil =>
    intro n hn
    cases Nat.le_zero.1 hn
    exact unitsAfter_plain fun h => absurd h hamp
  | cons c before ih =>
    intro n hn
    cases n with
    | succ n => exact ih n (Nat.le_of_succ_le_succ hn)
    | zero =>
      rw [List.cons_append, unitsAfter, unitsAfter, decode_append hz hend]
      split
      next d n hdecode =>
        split at hdecode
        · obtain ⟨body, tail, rfl, -, rfl⟩ := Entity.decode_eq_some_iff.1 hdecode
          exact congrArg _ (ih _ (by simp))
        · cases hdecode
      next => exact congrArg _ (ih 0 (Nat.zero_le _))

theorem unitsAfter_eq_nil_iff {cs : List Char} : unitsAfter 0 cs = [] ↔ cs = [] := by
  cases cs with
  | nil => simp [unitsAfter]
  | cons c cs => rw [unitsAfter]; split <;> simp

theorem units_dropWhile (cs : List Char) :
    unitsAfter 0 (cs.dropWhile isLineBlank) = (unitsAfter 0 cs).dropWhile TextUnit.isBlank := by
  induction cs with
  | nil => rfl
  | cons c cs ih =>
    by_cases hc : isLineBlank c = true
    · have hplain : unitsAfter 0 (c :: cs) = ⟨c, false⟩ :: unitsAfter 0 cs :=
        unitsAfter_plain fun h => absurd h (mem_separators_of_isLineBlank hc).2.2
      rw [hplain]
      simpa [hc, TextUnit.isBlank] using ih
    · rw [List.dropWhile_cons_of_neg hc, unitsAfter]
      split <;> simp [TextUnit.isBlank, hc]

/-- What a text ends with is what its last part says, unless that is a reference. -/
theorem getLast?_of_units {cs : List Char} {u : TextUnit} {n : Nat}
    (h : (unitsAfter n cs).getLast? = some u) (hu : u.isReference = false) :
    cs.getLast? = some u.char := by
  have hlast {c : Char} {rest : List Char} (h : rest.getLast? = some u.char) :
      (c :: rest).getLast? = some u.char := by
    simp [List.getLast?_cons, h]
  fun_induction unitsAfter n cs with
  | case1 => cases h
  | case2 n c rest ih => exact hlast (ih h)
  | case3 c rest d n hdecode ih =>
    cases hrest : (unitsAfter n rest).getLast? with
    | none =>
      rw [List.getLast?_cons, hrest] at h
      cases h
      cases hu
    | some v =>
      rw [List.getLast?_cons, hrest] at h
      cases h
      exact hlast (ih hrest)
  | case4 c rest hdecode ih =>
    cases hrest : (unitsAfter 0 rest).getLast? with
    | none =>
      rw [List.getLast?_cons, hrest] at h
      cases h
      cases unitsAfter_eq_nil_iff.1 (List.getLast?_eq_none_iff.1 hrest)
      rfl
    | some v =>
      rw [List.getLast?_cons, hrest] at h
      cases h
      exact hlast (ih hrest)

theorem units_rdropWhile (cs : List Char) :
    unitsAfter 0 (cs.rdropWhile isLineBlank) = (unitsAfter 0 cs).rdropWhile TextUnit.isBlank := by
  induction cs using List.reverseRecOn with
  | nil => rfl
  | append_singleton cs c ih =>
    by_cases hc : isLineBlank c = true
    · obtain ⟨hz, hend, hamp⟩ := mem_separators_of_isLineBlank hc
      rw [List.rdropWhile_concat_pos _ _ _ hc, ih, units_append hz hend hamp,
        show unitsAfter 0 [] = [] from rfl, List.rdropWhile_concat_pos _ _ _ (by simp [TextUnit.isBlank, hc])]
    · rw [List.rdropWhile_concat_neg _ _ _ hc, eq_comm, List.rdropWhile_eq_self_iff]
      intro hne hblank
      have hblank' := Bool.and_eq_true_iff.1 hblank
      have hlast := getLast?_of_units (List.getLast?_eq_some_getLast hne) (by simpa using hblank'.1)
      rw [List.getLast?_concat] at hlast
      exact hc (Option.some.inj hlast ▸ hblank'.2)

theorem mem_of_mem_units {cs : List Char} {c : Char} {n : Nat} (h : ⟨c, false⟩ ∈ unitsAfter n cs) :
    c ∈ cs := by
  fun_induction unitsAfter n cs with
  | case1 => cases h
  | case2 n d rest ih => exact List.mem_cons_of_mem d (ih h)
  | case3 d rest e n hdecode ih => exact List.mem_cons_of_mem d (ih (by simpa using h))
  | case4 d rest hdecode ih =>
    obtain h | h := List.mem_cons.1 h
    · cases h
      exact List.mem_cons_self
    · exact List.mem_cons_of_mem d (ih h)

theorem units_intercalate (lines : List (List Char)) :
    unitsAfter 0 (['\n'].intercalate lines) = [lineEnd].intercalate (lines.map (unitsAfter 0)) := by
  induction lines with
  | nil => rfl
  | cons line rest ih =>
    cases rest with
    | nil => simp
    | cons next rest =>
      rw [List.intercalate_cons_cons, List.append_assoc, List.singleton_append,
        units_append (by decide) (by decide) (by decide), ih]
      simp [List.intercalate_cons_cons, lineEnd]

theorem trimEnds_units (lines : List (List Char)) :
    trimEnds TextUnit.isBlank (lines.map (unitsAfter 0)) =
      (trimEnds isLineBlank lines).map (unitsAfter 0) := by
  fun_induction trimEnds isLineBlank lines with
  | case1 => rfl
  | case2 => rfl
  | case3 line next rest ih => simpa [trimEnds, units_rdropWhile] using ih

theorem trimStarts_units (lines : List (List Char)) :
    trimStarts TextUnit.isBlank (lines.map (unitsAfter 0)) =
      (trimStarts isLineBlank lines).map (unitsAfter 0) := by
  cases lines with
  | nil => rfl
  | cons first rest => simp [trimStarts, units_dropWhile]

/-! ## Layout -/

section

variable {blanks : List Char} {hasText : Bool} {us rest : List TextUnit} {u : TextUnit}

theorem rdropWhile_cons (p : TextUnit → Bool) (u : TextUnit) (us : List TextUnit) :
    (u :: us).rdropWhile p =
      if us.rdropWhile p = [] then (if p u then [] else [u]) else u :: us.rdropWhile p := by
  unfold List.rdropWhile
  rw [List.reverse_cons, List.dropWhile_append]
  cases hdrop : us.reverse.dropWhile p <;> cases hu : p u <;> simp [hu]

theorem trimLayout_blank (hu : u.isBlank = true) (l : Layout) : trimLayout l (u :: rest) =
    trimLayout (if l.isAtLineStart then l else { l with blanks := u.char :: l.blanks }) rest := by
  rw [trimLayout]
  exact if_pos hu

theorem trimLayout_text (hu : u.isBlank = false) (hend : u ≠ lineEnd) (l : Layout) :
    trimLayout l (u :: rest) = (if l.hasText && l.isAtLineStart then [' '] else []) ++
      l.blanks.reverse ++ u.char :: trimLayout { hasText := true } rest := by
  have hnot : ¬ (!u.isReference && u.char == '\n') = true := by
    intro h
    obtain ⟨href, hchar⟩ := Bool.and_eq_true_iff.1 h
    obtain ⟨char, isReference⟩ := u
    cases beq_iff_eq.1 hchar
    cases isReference
    · exact hend rfl
    · cases href
  rw [trimLayout]
  exact (if_neg (Bool.eq_false_iff.1 hu)).trans (if_neg hnot)

/-- The last line keeps the blanks at its end. -/
theorem trimLayout_lastLine (hus : lineEnd ∉ us) :
    trimLayout ⟨blanks, false, hasText⟩ us = blanks.reverse ++ us.map TextUnit.char := by
  induction us generalizing blanks hasText with
  | nil => simp [trimLayout]
  | cons u us ih =>
    obtain ⟨hu, hus⟩ := not_or.1 (mt List.mem_cons.2 hus)
    cases hblank : u.isBlank with
    | true => simp [trimLayout_blank hblank, ih hus]
    | false => simp [trimLayout_text hblank (Ne.symm hu), ih hus]

/-- Every other line loses the blanks at its end, and a blank one leaves no trace. -/
theorem trimLayout_line (hus : lineEnd ∉ us) :
    trimLayout ⟨blanks, false, hasText⟩ (us ++ lineEnd :: rest) =
      if us.rdropWhile TextUnit.isBlank = [] then trimLayout ⟨[], true, hasText⟩ rest
      else blanks.reverse ++ (us.rdropWhile TextUnit.isBlank).map TextUnit.char ++
        trimLayout ⟨[], true, true⟩ rest := by
  induction us generalizing blanks hasText with
  | nil => rfl
  | cons u us ih =>
    obtain ⟨hu, hus⟩ := not_or.1 (mt List.mem_cons.2 hus)
    have hrest (blanks : List Char) (hasText : Bool) := @ih blanks hasText hus
    rw [List.cons_append, rdropWhile_cons]
    generalize us.rdropWhile TextUnit.isBlank = trimmed at hrest
    cases hblank : u.isBlank with
    | true => cases trimmed <;> simp [trimLayout_blank hblank, hrest]
    | false => cases trimmed <;> simp [trimLayout_text hblank (Ne.symm hu), hrest]

/-- A line after the first one starts with its first character that is no blank. -/
theorem trimLayout_start (us rest : List TextUnit) :
    trimLayout ⟨[], true, hasText⟩ (us ++ rest) =
      trimLayout ⟨[], true, hasText⟩ (us.dropWhile TextUnit.isBlank ++ rest) := by
  induction us with
  | nil => rfl
  | cons u us ih =>
    cases hblank : u.isBlank with
    | true => simpa [trimLayout_blank hblank, hblank] using ih
    | false => rw [List.dropWhile_cons_of_neg (by simp [hblank])]

end

/-- Joins what lines say. A blank stands before every one but the first, and before that one too if
something has been said. -/
def said (hasText : Bool) (lines : List (List Char)) : List Char :=
  if hasText then lines.flatMap (' ' :: ·) else [' '].intercalate lines

theorem said_cons (hasText : Bool) (line : List Char) (lines : List (List Char)) :
    said hasText (line :: lines) = (if hasText then [' '] else []) ++ line ++ said true lines := by
  cases hasText with
  | true => simp [said]
  | false =>
    induction lines generalizing line with
    | nil => simp [said]
    | cons next lines ih =>
      have := ih next
      simp_all [said, List.intercalate_cons_cons]

/-- What the lines of a text say after the blanks at their ends have been removed. -/
def sayings (lines : List (List TextUnit)) : List (List Char) :=
  (lines.filter (· ≠ [])).map (·.map TextUnit.char)

theorem said_sayings_cons (hasText : Bool) (us : List TextUnit) (lines : List (List TextUnit)) :
    said hasText (sayings (us :: lines)) = if us = [] then said hasText (sayings lines)
      else (if hasText then [' '] else []) ++ us.map TextUnit.char ++ said true (sayings lines) := by
  by_cases hus : us = []
  · simp [sayings, hus]
  · simp [sayings, hus, said_cons]

/-- A line after the first one that is not blank. -/
theorem trimLayout_first {us vs rest : List TextUnit} {u : TextUnit} (hus : lineEnd ∉ us)
    (hvs : us.dropWhile TextUnit.isBlank = u :: vs) (hasText : Bool) :
    u.isBlank = false ∧ lineEnd ∉ u :: vs ∧ trimLayout ⟨[], true, hasText⟩ (u :: vs ++ rest) =
      (if hasText then [' '] else []) ++ trimLayout ⟨[], false, hasText⟩ (u :: vs ++ rest) := by
  have hu : u.isBlank = false := by
    simpa [hvs] using List.head_dropWhile_not TextUnit.isBlank (l := us) (by simp [hvs])
  have hmem : lineEnd ∉ u :: vs := fun h => hus ((List.dropWhile_sublist _).mem (hvs ▸ h))
  have hend : u ≠ lineEnd := by
    rintro rfl
    exact hmem List.mem_cons_self
  exact ⟨hu, hmem, by simp [trimLayout_text hu hend]⟩

/-- The lines after the first one. -/
theorem trimLayout_rest {lines : List (List TextUnit)} (hne : lines ≠ [])
    (hlines : ∀ us ∈ lines, lineEnd ∉ us) (hasText : Bool) :
    trimLayout ⟨[], true, hasText⟩ ([lineEnd].intercalate lines) =
      said hasText (sayings (trimEnds TextUnit.isBlank (lines.map (·.dropWhile TextUnit.isBlank)))) := by
  induction lines generalizing hasText with
  | nil => exact absurd rfl hne
  | cons us lines ih =>
    obtain ⟨hus, hlines⟩ := List.forall_mem_cons.1 hlines
    cases lines with
    | nil =>
      rw [List.intercalate_singleton, ← List.append_nil us, trimLayout_start, List.append_nil us,
        List.map_singleton, trimEnds, said_sayings_cons]
      cases hvs : us.dropWhile TextUnit.isBlank with
      | nil => simp [trimLayout, sayings, said]
      | cons u vs =>
        obtain ⟨-, hmem, hfirst⟩ := @trimLayout_first us vs [] u hus hvs hasText
        rw [hfirst, List.append_nil, trimLayout_lastLine hmem]
        simp [sayings, said]
    | cons next rest =>
      have hrest := ih (List.cons_ne_nil next rest) hlines
      rw [List.intercalate_cons_cons, List.append_assoc, List.singleton_append, trimLayout_start,
        List.map_cons, List.map_cons, trimEnds, said_sayings_cons, ← List.map_cons, ← hrest, ← hrest]
      cases hvs : us.dropWhile TextUnit.isBlank with
      | nil => rfl
      | cons u vs =>
        obtain ⟨hu, hmem, hfirst⟩ := trimLayout_first hus hvs hasText
        have htrimmed : (u :: vs).rdropWhile TextUnit.isBlank ≠ [] := fun h =>
          absurd (List.rdropWhile_eq_nil_iff.1 h u List.mem_cons_self) (by simp [hu])
        rw [hfirst, trimLayout_line hmem, if_neg htrimmed, if_neg htrimmed, List.reverse_nil,
          List.nil_append, List.append_assoc]

/-- All lines: the first one keeps the blanks at its start. -/
theorem trimLayout_intercalate {lines : List (List TextUnit)} (hne : lines ≠ [])
    (hlines : ∀ us ∈ lines, lineEnd ∉ us) : trimLayout {} ([lineEnd].intercalate lines) =
      said false (sayings (trimEnds TextUnit.isBlank (trimStarts TextUnit.isBlank lines))) := by
  obtain ⟨us, lines, rfl⟩ := List.exists_cons_of_ne_nil hne
  obtain ⟨hus, hlines⟩ := List.forall_mem_cons.1 hlines
  cases lines with
  | nil =>
    rw [List.intercalate_singleton, trimLayout_lastLine hus, trimStarts, List.map_nil, trimEnds,
      said_sayings_cons]
    cases us <;> simp [sayings, said]
  | cons next rest =>
    have hrest := trimLayout_rest (List.cons_ne_nil next rest) hlines
    rw [List.intercalate_cons_cons, List.append_assoc, List.singleton_append, trimLayout_line hus,
      trimStarts, List.map_cons, trimEnds, said_sayings_cons, ← List.map_cons, hrest, hrest]
    rfl

theorem not_mem_of_mem_splitOn {z : Char} {cs line : List Char} (h : line ∈ cs.splitOn z) :
    z ∉ line := by
  unfold List.splitOn at h
  induction cs generalizing line with
  | nil => simp_all
  | cons c cs ih =>
    rw [List.splitOnP_cons_eq_if_modifyHead] at h
    obtain ⟨first, rest, hfirst⟩ := List.exists_cons_of_ne_nil (List.splitOnP_ne_nil (· == z) cs)
    rw [hfirst, List.modifyHead_cons] at h
    grind

/-- The lines of a text, trimmed where they were broken, without those that are then empty. -/
def textLines (text : String) : List (List Char) :=
  (trimEnds isLineBlank (trimStarts isLineBlank (text.toList.splitOn '\n'))).filter (· ≠ [])

theorem content_eq (text : String) :
    content text = String.ofList ([' '].intercalate ((textLines text).map decoded)) := by
  have hunits : units text = [lineEnd].intercalate ((text.toList.splitOn '\n').map (unitsAfter 0)) := by
    rw [← units_intercalate, List.intercalate_splitOn]
    rfl
  have hlines : ∀ us ∈ (text.toList.splitOn '\n').map (unitsAfter 0), lineEnd ∉ us := by
    intro us hus hmem
    obtain ⟨line, hline, rfl⟩ := List.mem_map.1 hus
    exact not_mem_of_mem_splitOn hline (mem_of_mem_units hmem)
  unfold content
  rw [hunits, trimLayout_intercalate (by simp) hlines, trimStarts_units,
    trimEnds_units, said, if_neg Bool.false_ne_true, sayings, List.filter_map, List.map_map]
  simp [textLines, Function.comp_def, unitsAfter_eq_nil_iff]
  rfl

/-! ## Empty texts -/

/-- Nothing is left of a text if and only if it is blank and spans lines. -/
theorem trimLayout_eq_nil_iff {us : List TextUnit} {l : Layout} : trimLayout l us = [] ↔
    (∀ u ∈ us, u.isBlank = true ∨ u = lineEnd) ∧
      (l.isAtLineStart = true ∨ lineEnd ∈ us ∨ l.blanks = [] ∧ us = []) := by
  induction us generalizing l with
  | nil => cases hl : l.isAtLineStart <;> simp [trimLayout, hl]
  | cons u us ih =>
    by_cases hend : u = lineEnd
    · subst hend
      exact ih.trans (by simp)
    cases hblank : u.isBlank with
    | true =>
      rw [trimLayout_blank hblank, ih]
      cases hl : l.isAtLineStart <;> simp [hl, hblank, Ne.symm hend]
    | false => simp [trimLayout_text hblank hend, hblank, hend]

theorem isChildBlank_iff {c : Char} :
    Reading.isChildBlank c = true ↔ isLineBlank c = true ∨ c = '\n' := by
  simp only [Reading.isChildBlank, isLineBlank, Bool.or_eq_true, beq_iff_eq]
  tauto

theorem units_blank_iff {cs : List Char} :
    (∀ u ∈ unitsAfter 0 cs, u.isBlank = true ∨ u = lineEnd) ↔ ∀ c ∈ cs, Reading.isChildBlank c = true := by
  induction cs with
  | nil => simp [unitsAfter]
  | cons c cs ih =>
    by_cases hc : Reading.isChildBlank c = true
    · have hamp : c ≠ '&' := by
        rintro rfl
        exact absurd hc (by decide)
      rw [unitsAfter_plain fun h => absurd h hamp, List.forall_mem_cons, List.forall_mem_cons, ih]
      simpa [hc, TextUnit.isBlank, lineEnd] using fun _ => isChildBlank_iff.1 hc
    · have hnot := mt isChildBlank_iff.2 hc
      rw [unitsAfter]
      split <;> simp_all [TextUnit.isBlank, lineEnd]

theorem lineEnd_mem_units_iff {cs : List Char} : lineEnd ∈ unitsAfter 0 cs ↔ '\n' ∈ cs := by
  refine ⟨mem_of_mem_units, fun h => ?_⟩
  obtain ⟨before, after, rfl⟩ := List.append_of_mem h
  rw [units_append (by decide) (by decide) (by decide)]
  exact List.mem_append_right _ List.mem_cons_self

/-- A text between tags comes out empty if and only if it is empty, or blank and on several lines. -/
theorem content_eq_empty_iff {text : String} : content text = "" ↔
    (∀ c ∈ text.toList, Reading.isChildBlank c = true) ∧ ('\n' ∈ text.toList ∨ text = "") := by
  have hnil : content text = "" ↔ trimLayout {} (units text) = [] := by
    simp [content, String.ofList_eq_empty_iff]
  rw [hnil, trimLayout_eq_nil_iff, units, units_blank_iff, lineEnd_mem_units_iff, unitsAfter_eq_nil_iff]
  simp

end ElementText

/-! ## Texts as they are read -/

namespace Source

variable {s : Source} {i j n : Nat} {p : Char → Bool} {text : String}

theorem skipBytesFor_le (s : Source) (p : Char → Bool) (n i : Nat) : s.skipBytesFor p n i ≤ i + n := by
  induction n generalizing i with
  | zero => exact Nat.le_refl i
  | succ n ih =>
    rw [skipBytesFor]
    split
    · exact Nat.le_trans (ih (i + 1)) (by omega)
    · omega

theorem skipBytesFor_eq_iff :
    s.skipBytesFor p n i = i + n ↔ ∀ k < n, p (s.byteAt (i + k)) = true := by
  induction n generalizing i with
  | zero => simp [skipBytesFor]
  | succ n ih =>
    rw [skipBytesFor, Nat.forall_lt_succ_left]
    split
    next hp =>
      rw [show i + (n + 1) = i + 1 + n by omega, ih]
      simp [hp, Nat.add_right_comm, Nat.add_assoc]
    next hp => simp [hp]

theorem exists_charAt?_iff {c : Char} : (∃ k, s.charAt? k = some c) ↔ c ∈ s.text.toList := by
  simp only [charAt?_eq_some_iff]
  constructor
  · rintro ⟨k, before, after, htext, -⟩
    simp [htext]
  · intro h
    obtain ⟨before, after, htext⟩ := List.append_of_mem h
    refine ⟨_, String.ofList before, after, ?_, rfl⟩
    rw [← String.ofList_append, ← htext, String.ofList_toList]

theorem exists_byteAt_iff {c : Char} (hc : c.toNat < 128) :
    (∃ k < s.size, s.byteAt k = c) ↔ c ∈ s.text.toList := by
  rw [← exists_charAt?_iff]
  constructor
  · rintro ⟨k, hk, h⟩
    exact ⟨k, charAt?_of_byteAt h hk hc⟩
  · rintro ⟨k, h⟩
    exact ⟨k, lt_size_of_charAt? h, byteAt_of_charAt? h hc⟩

theorem forall_byteAt_iff (hp : ∀ c, p c = true → c.toNat < 128) :
    (∀ k < s.size, p (s.byteAt k) = true) ↔ ∀ c ∈ s.text.toList, p c = true := by
  constructor
  · intro h c hc
    obtain ⟨k, hk⟩ := exists_charAt?_iff.2 hc
    have hlt := lt_size_of_charAt? hk
    cases hk.symm.trans (charAt?_of_byteAt rfl hlt (hp _ (h k hlt)))
    exact h k hlt
  · intro h
    -- The first byte that fails would start a character.
    have hend : s.skipBytes p 0 = s.size := by
      refine Nat.le_antisymm (by simpa [skipBytes] using s.skipBytesFor_le p s.size 0) ?_
      by_contra hlt
      have hlt := Nat.lt_of_not_le hlt
      obtain ⟨c, hc⟩ := exists_charAt? (isBoundary_skipBytes hp s.isBoundary_zero) hlt
      have hpc := h c (exists_charAt?_iff.1 ⟨_, hc⟩)
      have hstop := skipBytes_stop hlt
      rw [byteAt_of_charAt? hc (hp c hpc), hpc] at hstop
      cases hstop
    simpa using skipBytesFor_eq_iff.1 (hend.trans (Nat.zero_add _).symm)

theorem byteAt_of_slice? (h : s.slice? i j = some text) :
    (ofText text).size = j - i ∧ ∀ k < j - i, (ofText text).byteAt k = s.byteAt (i + k) := by
  unfold slice? at h
  split at h
  next hrange =>
    have hbytes : (ofText text).bytes = s.bytes.extract i j := by
      rw [String.fromUTF8?] at h
      split at h
      · cases h
        rfl
      · cases h
    have hj : j ≤ s.bytes.size := hrange.2
    have hsize : (ofText text).bytes.size = j - i := by
      rw [hbytes, ByteArray.size_extract]
      omega
    refine ⟨hsize, fun k hk => ?_⟩
    rw [byteAt, byteAt, dif_pos (by omega), dif_pos (by omega)]
    simp only [hbytes, ByteArray.getElem_extract]
  · cases h

end Source

namespace Reading

variable {s : Source} {flow isType : Bool} {start stop : Nat} {kind : TokenKind} {keyword : SoftKeyword}

/-- No punctuator is a text. -/
theorem punctuator_ne_text (h : punctuator s start = .lexeme kind keyword stop) :
    kind ≠ .jsxText ∧ kind ≠ .jsxEmptyText := by
  unfold punctuator at h
  split at h
  next k length hlongest =>
    cases h
    have htable : ∀ entry ∈ Punctuator.table, entry.2 ≠ .jsxText ∧ entry.2 ≠ .jsxEmptyText := by
      decide
    obtain ⟨entry, hentry, hpair⟩ := Option.map_eq_some_iff.1 hlongest
    cases hpair
    exact htable entry (List.mem_of_find?_eq_some hentry)
  · split at h <;> cases h

/-- Where a text ends and how it is called. -/
theorem child_text (h : child s flow isType start = .lexeme kind keyword stop)
    (hkind : kind = .jsxText ∨ kind = .jsxEmptyText) : start < stop ∧ s.isBoundary stop = true ∧
      (kind = .jsxEmptyText ↔ (∃ k < stop - start, s.byteAt (start + k) = '\n') ∧
        ∀ k < stop - start, isChildBlank (s.byteAt (start + k)) = true) := by
  unfold child at h
  extract_lets close spansLines isBlank at h
  have hle : start ≤ close := s.le_skipBytes _ start
  split at h
  · cases h
  next hsize =>
    have hlt : close < s.size := Nat.lt_of_not_le hsize
    have hclose : s.byteAt close = '<' ∨ s.byteAt close = '\x7b' := by
      have := Source.skipBytes_stop hlt
      grind
    split at h
    next heq =>
      -- A brace or a tag starts here.
      have hnot : kind ≠ .jsxText ∧ kind ≠ .jsxEmptyText := by
        split at h
        · cases h
          decide
        next hbrace =>
          rw [heq] at hclose
          have hbrace := hclose.resolve_left hbrace
          unfold symbol at h
          simp only [hbrace] at h
          split at h
          · cases h
            decide
          · exact punctuator_ne_text h
      exact (hkind.elim hnot.1 hnot.2).elim
    next hne =>
      obtain ⟨rfl, -, rfl⟩ := Reading.lexeme.inj h
      have hboundary : s.isBoundary close = true := by
        obtain hclose | hclose := hclose
        · exact Source.isBoundary_of_charAt? (Source.charAt?_of_byteAt hclose hlt (by decide))
        · exact Source.isBoundary_of_charAt? (Source.charAt?_of_byteAt hclose hlt (by decide))
      have hend : start + (close - start) = close := by omega
      have hscan (p : Char → Bool) : s.skipBytesFor p (close - start) start = close ↔
          ∀ k < close - start, p (s.byteAt (start + k)) = true := by
        rw [← Source.skipBytesFor_eq_iff, hend]
      have hspans : spansLines ↔ ∃ k < close - start, s.byteAt (start + k) = '\n' := by
        have hle := s.skipBytesFor_le (· != '\n') (close - start) start
        rw [hend] at hle
        refine Nat.lt_iff_le_and_ne.trans ?_
        rw [and_iff_right hle, Ne, hscan]
        simp
      have hblank : isBlank = true ↔ ∀ k < close - start, isChildBlank (s.byteAt (start + k)) = true :=
        beq_iff_eq.trans (hscan isChildBlank)
      refine ⟨by omega, hboundary, ?_⟩
      rw [← hspans, ← hblank]
      clear hspans hblank hkind h
      split <;> simp_all

end Reading

theorem JsonString.quote_eq_empty_iff {text : String} : quote text = "\"\"" ↔ text = "" := by
  have hescape (c : Char) : escape c ≠ [] := by
    unfold escape
    grind
  constructor
  · intro h
    have hchars := congrArg String.toList h
    simp [quote, hescape] at hchars
    exact String.toList_eq_nil_iff.1 (List.eq_nil_iff_forall_not_mem.2 hchars)
  · rintro rfl
    rfl

namespace ElementText

theorem forall₂_decodes_iff {lines outs : List (List Char)} :
    List.Forall₂ Decodes lines outs ↔ outs = lines.map decoded := by
  constructor
  · intro h
    induction h with
    | nil => rfl
    | cons h hrest ih => rw [List.map_cons, decodes_iff.1 h, ih]
  · rintro rfl
    exact List.forall₂_map_right_iff.2 (List.forall₂_same.2 fun line _ => decodes_iff.2 rfl)

/-- What the text between tags becomes is the JSON string of what its lines say, trimmed where they were
broken, without those that are then empty, decoded and joined by blanks. It is the empty one if and only
if the text is of the kind for empty texts. -/
theorem quote_content_eq_iff :
    (∀ text literal : String, JsonString.quote (content text) = literal ↔
      ∃ lines, List.Forall₂ Decodes (textLines text) lines ∧
        literal = JsonString.quote (String.ofList ([' '].intercalate lines))) ∧
    ∀ (s : Source) (flow isType : Bool) (start stop : Nat) (kind : TokenKind) (keyword : SoftKeyword),
      s.isBoundary start = true → Reading.child s flow isType start = .lexeme kind keyword stop →
      kind = .jsxText ∨ kind = .jsxEmptyText → ∃ text, s.slice? start stop = some text ∧
        (JsonString.quote (content text) = "\"\"" ↔ kind = .jsxEmptyText) := by
  refine ⟨fun text literal => ?_, fun s flow isType start stop kind keyword hstart hread hkind => ?_⟩
  · simp [forall₂_decodes_iff, content_eq, eq_comm]
  · obtain ⟨hlt, hstop, hempty⟩ := Reading.child_text hread hkind
    obtain ⟨text, htext⟩ := Source.exists_slice? hstart hstop (Nat.le_of_lt hlt)
    obtain ⟨hsize, hbytes⟩ := Source.byteAt_of_slice? htext
    have hne : text ≠ "" := by
      rintro rfl
      have : (Source.ofText "").size = 0 := rfl
      omega
    have hlines := Source.exists_byteAt_iff (s := Source.ofText text) (c := '\n') (by decide)
    have hblank := Source.forall_byteAt_iff (s := Source.ofText text) (p := Reading.isChildBlank)
      fun c hc => by
        simp only [Reading.isChildBlank, Bool.or_eq_true, beq_iff_eq] at hc
        rcases hc with ((rfl | rfl) | rfl) | rfl <;> decide
    refine ⟨text, htext, ?_⟩
    rw [JsonString.quote_eq_empty_iff, content_eq_empty_iff, hempty, or_iff_left hne, and_comm]
    rw [Source.ofText_text, hsize] at hlines hblank
    rw [← hlines, ← hblank]
    grind

end ElementText

end PlainScript
