import PlainScript.Proofs.KnownTexts

/-!
# Where a nullish operation starts and ends

An expression of names and binary operators is read by precedence climbing. Operators that bind more
strongly than `??` are read without a mark, so what a `??` ends with is the operand in front of the next
operator that binds as loosely. All of them start at the first operand.
-/

namespace PlainScript.Grammar

open Parse

variable {s : Source} {σ τ : State} {x y : Lexeme} {ls : List Lexeme}

/-- An operator and its right operand. -/
structure RightSide where
  operator : Lexeme
  operand : Lexeme
  precedence : 0 < operator.kind.precedence
  isName : operand.kind = .name ∧ operand.keyword = .ordinary

namespace RightSide

def lexemes (x : RightSide) : List Lexeme := [x.operator, x.operand]

/-- The tokens of an operation that is no part of a `??`. -/
def tokens (x : RightSide) : List Token :=
  [{ toLexeme := x.operator }, { toLexeme := x.operand, role? := some .access }]

/-- Whether an operation binds at least as strongly as a number says. -/
def binds (floor : Nat) (x : RightSide) : Bool := floor ≤ x.operator.kind.precedence

end RightSide

theorem endsOperand_of_precedence {k : TokenKind} (h : 0 < k.precedence) : endsOperand k = true := by
  simp only [endsOperand, Bool.not_eq_true', List.contains_cons, Bool.or_eq_false_iff, beq_eq_false_iff_ne]
  refine ⟨?_, ?_, ?_, ?_, ?_, ?_, ?_, ?_, ?_, ?_, ?_, ?_, rfl⟩ <;>
  · rintro rfl
    cases h

theorem takeWhile_append_takeWhile {α : Type} {p q : α → Bool} (h : ∀ a, q a = true → p a = true)
    (xs : List α) : xs.takeWhile q ++ (xs.dropWhile q).takeWhile p = xs.takeWhile p ∧
      (xs.dropWhile q).dropWhile p = xs.dropWhile p := by
  induction xs with
  | nil => exact ⟨rfl, rfl⟩
  | cons a xs ih =>
    cases hq : q a with
    | true => simp [hq, h a hq, ih]
    | false => simp [List.takeWhile_cons, List.dropWhile_cons, hq]

section

variable {last : Lexeme}

/-- The first of the operators behind an operand, or what comes behind all of them, ends the operand. -/
theorem exists_cons_endsOperand (ls : List Lexeme) (hlast : endsOperand last.kind = true) (xs : List RightSide) :
    ∃ y rest, xs.flatMap RightSide.lexemes ++ last :: ls = y :: rest ∧ endsOperand y.kind = true := by
  cases xs with
  | nil => exact ⟨last, ls, rfl, hlast⟩
  | cons x xs => exact ⟨_, _, rfl, endsOperand_of_precedence x.precedence⟩

/-- The operator and the operand behind it, up to the operators that bind more strongly. -/
theorem yields_operators_cons {start floor : Nat} {x : RightSide} {xs : List RightSide}
    (hlast : endsOperand last.kind = true)
    (h : Ahead s σ ((x :: xs).flatMap RightSide.lexemes ++ last :: ls)) (hfloor : x.binds floor = true)
    {P : State → Prop} {Q : Unit → State → Prop}
    (hright : ∀ τ, Ahead s τ (xs.flatMap RightSide.lexemes ++ last :: ls) →
      τ.tokens = (σ.tokens.push { toLexeme := x.operator, nullishStart? :=
        if x.operator.kind = .nullish then some start else none }).push
          { toLexeme := x.operand, role? := some .access } →
      Yields s (operators (σ.tokens.size + 1) (if x.operator.kind.isRightAssociative then
        x.operator.kind.precedence else x.operator.kind.precedence + 1) false) τ fun _ υ => P υ)
    (hrest : ∀ υ, P υ → Yields s (operators start floor false)
      (if x.operator.kind = .nullish then
        (υ.modifyToken start .opensNullish).markLast .closesNullish else υ) Q) :
    Yields s (operators start floor false) σ Q := by
  have hat : Ahead s σ (x.operator :: x.operand :: (xs.flatMap RightSide.lexemes ++ last :: ls)) := h
  obtain ⟨y, rest, hy, hends⟩ := exists_cons_endsOperand ls hlast xs
  have hrecur (τ : State) (hτ : Yields s (operators start floor false) τ Q) :
      Yields s (reach (.operators start floor false)) τ Q :=
    .reach (.bind hτ fun _ _ hυ => .pure hυ)
  unfold operators
  refine .read fun recur => ?_
  dsimp only
  rw [if_neg (by simp)]
  refine .step hat.kind_eq ?_
  rw [if_pos (by simpa [x.precedence, RightSide.binds] using hfloor)]
  -- What is recorded on the operator comes before the right operand is read.
  have hoperand {more : Parse Unit} {τ : State}
      (hτ : Ahead s τ (x.operand :: (xs.flatMap RightSide.lexemes ++ last :: ls)))
      (htokens : τ.tokens = σ.tokens.push { toLexeme := x.operator, nullishStart? :=
        if x.operator.kind = .nullish then some start else none })
      (hmore : ∀ υ, P υ → Yields s more υ Q) :
      Yields s (do
        let rhsStart ← tokenIndex
        reach .unary
        reach (.operators rhsStart (if x.operator.kind.isRightAssociative then
          x.operator.kind.precedence else x.operator.kind.precedence + 1) false)
        more) τ Q := by
    rw [hy] at hτ
    refine .step (fun _ => rfl) (.bind (.reach (Q := fun _ υ => Ahead s υ (y :: rest) ∧ υ.tokens =
      τ.tokens.push { toLexeme := x.operand, role? := some .access })
      ((yields_unary hτ x.isName hends).imp fun _ _ hυ => hυ.2)) ?_)
    rintro _ υ ⟨hυ, hoperand⟩
    rw [htokens, Array.size_push]
    rw [htokens] at hoperand
    refine .bind (.reach (Q := fun _ ω => P ω) (.bind (hright υ (hy ▸ hυ) hoperand)
      fun _ ω hω => .pure hω)) ?_
    exact fun _ ω hω => hmore ω hω
  refine .bind hat.yields_next fun _ τ ⟨hτ, htokens⟩ => ?_
  cases hop : x.operator.kind == .nullish with
  | false =>
    have hne : x.operator.kind ≠ .nullish := by simpa using hop
    rw [if_neg (by decide)]
    refine hoperand hτ (by rw [htokens, if_neg hne]) fun υ hυ => ?_
    have hυ := hrest υ hυ
    rw [if_neg hne] at hυ
    exact hrecur υ hυ
  | true =>
    have heq : x.operator.kind = .nullish := by simpa using hop
    rw [if_pos rfl]
    refine .step (fun _ => rfl) (hoperand (hτ.modifyToken _ _) ?_ fun υ hυ => ?_)
    · rw [if_pos heq]
      exact tokens_markLast htokens _
    · have hυ := hrest υ hυ
      rw [if_pos heq] at hυ
      exact .step (fun _ => rfl) (.step (fun _ => rfl) (hrecur _ hυ))

theorem yields_operators_stop {start floor : Nat} (h : Ahead s σ (y :: ls))
    (hy : floor ≤ y.kind.precedence → y.kind.precedence = 0) :
    Yields s (operators start floor false) σ fun _ τ => τ = σ := by
  unfold operators
  refine .read fun recur => ?_
  dsimp only
  rw [if_neg (by simp)]
  refine .step h.kind_eq ?_
  rw [if_neg (by simp; omega)]
  exact .pure rfl

theorem yields_operators_tight {floor : Nat} (hfloor : 2 ≤ floor)
    (hlast : endsOperand last.kind = true ∧ last.kind.precedence = 0) (start : Nat) (xs : List RightSide)
    (h : Ahead s σ (xs.flatMap RightSide.lexemes ++ last :: ls)) :
    Yields s (operators start floor false) σ fun _ τ =>
      Ahead s τ ((xs.dropWhile (·.binds floor)).flatMap RightSide.lexemes ++ last :: ls) ∧
      τ.tokens.toList = σ.tokens.toList ++ (xs.takeWhile (·.binds floor)).flatMap RightSide.tokens := by
  induction hn : xs.length using Nat.strongRecOn generalizing xs σ start floor with
  | ind n ih =>
    subst hn
    cases xs with
    | nil =>
      refine (yields_operators_stop h fun _ => hlast.2).imp ?_
      rintro _ τ rfl
      exact ⟨h, by simp⟩
    | cons x xs =>
      cases hbinds : x.binds floor with
      | false =>
        have hlt : ¬ floor ≤ x.operator.kind.precedence := by simpa [RightSide.binds] using hbinds
        refine (yields_operators_stop (y := x.operator) h fun hle => absurd hle hlt).imp ?_
        rintro _ τ rfl
        simp only [List.dropWhile_cons, List.takeWhile_cons, hbinds]
        exact ⟨h, by simp⟩
      | true =>
        have hle : floor ≤ x.operator.kind.precedence := by simpa [RightSide.binds] using hbinds
        have hne : x.operator.kind ≠ .nullish := by
          intro heq
          rw [heq] at hle
          exact absurd (Nat.le_trans hfloor hle) (by decide)
        obtain ⟨rhsFloor, hrhs⟩ : ∃ k, k = if x.operator.kind.isRightAssociative then
          x.operator.kind.precedence else x.operator.kind.precedence + 1 := ⟨_, rfl⟩
        have hmore : floor ≤ rhsFloor := by
          rw [hrhs]
          split <;> omega
        have hlists := takeWhile_append_takeWhile (p := RightSide.binds floor)
          (q := RightSide.binds rhsFloor) (fun a ha => by
            simp only [RightSide.binds, decide_eq_true_eq] at ha ⊢
            omega) xs
        refine yields_operators_cons hlast.1 h hbinds (P := fun υ =>
          Ahead s υ ((xs.dropWhile (·.binds rhsFloor)).flatMap RightSide.lexemes ++ last :: ls) ∧
          υ.tokens.toList = σ.tokens.toList ++ x.tokens ++
            (xs.takeWhile (·.binds rhsFloor)).flatMap RightSide.tokens) ?_ ?_
        · intro τ hτ htokens
          rw [← hrhs]
          refine (ih xs.length (by simp) (by omega) _ xs hτ rfl).imp fun _ υ hυ => ⟨hυ.1, ?_⟩
          rw [hυ.2, htokens, if_neg hne]
          simp [RightSide.tokens]
        · rintro υ ⟨hυ, htokens⟩
          rw [if_neg hne]
          refine (ih _ (Nat.lt_succ_of_le (List.dropWhile_suffix _).length_le) hfloor start _ hυ rfl).imp ?_
          rintro _ ω ⟨hω, hmoreTokens⟩
          rw [hlists.2] at hω
          simp only [List.dropWhile_cons, List.takeWhile_cons, hbinds, if_true]
          refine ⟨hω, ?_⟩
          rw [hmoreTokens, htokens, ← hlists.1]
          simp

/-- Whether an operation that goes on so far ends before some others. -/
def endsBefore (xs : List RightSide) : Bool := xs.head?.all (·.operator.kind.precedence == 1)

namespace RightSide

/-- Whether the nearest operator that binds as loosely as `??` is a `??`, up to an operation and given
the same for what comes before it. -/
def opens (isOpen : Bool) (x : RightSide) : Bool :=
  if x.operator.kind.precedence = 1 then x.operator.kind == .nullish else isOpen

/-- The tokens of an operation, with a nullish operation that may end with it. -/
def markedTokens (start : Nat) (isLast : Bool) (x : RightSide) : List Token :=
  [{ toLexeme := x.operator, nullishStart? := if x.operator.kind = .nullish then some start else none },
    { toLexeme := x.operand, role? := some .access, nullishEnds := isLast.toNat }]

/-- The tokens of operations in a row. -/
def marked (start : Nat) : Bool → List RightSide → List Token
  | _, [] => []
  | isOpen, x :: xs => x.markedTokens start (x.opens isOpen && endsBefore xs) ++ marked start (x.opens isOpen) xs

theorem ne_nullish {x : RightSide} (h : x.binds 2 = true) :
    x.operator.kind ≠ .nullish ∧ x.operator.kind.precedence ≠ 1 := by
  have hle : 2 ≤ x.operator.kind.precedence := by simpa [binds] using h
  refine ⟨fun heq => ?_, by omega⟩
  rw [heq] at hle
  exact absurd hle (by decide)

theorem marked_append {start : Nat} {xs : List RightSide} (hxs : ∀ x ∈ xs, x.binds 2 = true)
    (ys : List RightSide) : marked start false (xs ++ ys) = xs.flatMap tokens ++ marked start false ys := by
  induction xs with
  | nil => rfl
  | cons x xs ih =>
    obtain ⟨hx, hxs⟩ := List.forall_mem_cons.1 hxs
    rw [List.cons_append, marked, opens, if_neg (ne_nullish hx).2, ih hxs]
    simp [markedTokens, tokens, (ne_nullish hx).1]

/-- A nullish operation ends with the last operand in front of an operator that binds as loosely. -/
theorem marked_open (start : Nat) {a : Lexeme} {xs ys : List RightSide} (hxs : ∀ x ∈ xs, x.binds 2 = true)
    (hys : endsBefore ys = true) : ∃ (before : List Token) (t : Token),
      { toLexeme := a, role? := some .access } :: xs.flatMap tokens = before ++ [t] ∧
      { toLexeme := a, role? := some .access, nullishEnds := (endsBefore (xs ++ ys)).toNat } ::
        marked start true (xs ++ ys) = before ++ [t.closesNullish] ++ marked start false ys := by
  induction xs generalizing a with
  | nil =>
    refine ⟨[], _, rfl, ?_⟩
    have hfalse : marked start true ys = marked start false ys := by
      cases ys with
      | nil => rfl
      | cons y ys =>
        have hy : y.operator.kind.precedence = 1 := by simpa [endsBefore] using hys
        simp only [marked, opens, if_pos hy]
    rw [List.nil_append, hys, hfalse]
    rfl
  | cons x xs ih =>
    obtain ⟨hx, hxs⟩ := List.forall_mem_cons.1 hxs
    obtain ⟨before, t, hplain, hmarked⟩ := ih (a := x.operand) hxs
    refine ⟨{ toLexeme := a, role? := some .access } :: { toLexeme := x.operator } :: before, t, ?_, ?_⟩
    · simp [tokens, hplain]
    · have hends : endsBefore (x :: xs ++ ys) = false := by simp [endsBefore, (ne_nullish hx).2]
      rw [hends, List.cons_append, marked, opens, if_neg (ne_nullish hx).2]
      simpa [markedTokens, (ne_nullish hx).1] using hmarked

end RightSide

theorem toList_markLast {L : List Token} {t : Token} (h : σ.tokens.toList = L ++ [t]) (f : Token → Token) :
    (σ.markLast f).tokens.toList = L ++ [f t] := by
  have hpush : σ.tokens = L.toArray.push t := by
    rw [← Array.toList_inj, h]
    simp
  rw [tokens_markLast hpush]
  simp

/-- The number of `??` among some operators. -/
def nullishCount (xs : List RightSide) : Nat := xs.countP (·.operator.kind == .nullish)

theorem nullishCount_of_binds {xs : List RightSide} (hxs : ∀ x ∈ xs, x.binds 2 = true) : nullishCount xs = 0 := by
  refine List.countP_eq_zero.2 fun x hx => ?_
  simp [(RightSide.ne_nullish (hxs x hx)).1]

theorem yields_operators_loose (hlast : endsOperand last.kind = true ∧ last.kind.precedence = 0)
    {t : Token} {T : List Token} (xs : List RightSide) (htokens : σ.tokens.toList = t :: T)
    (h : Ahead s σ (xs.flatMap RightSide.lexemes ++ last :: ls)) :
    Yields s (operators 0 0 false) σ fun _ τ => Ahead s τ (last :: ls) ∧ τ.tokens.toList =
      { t with nullishStarts := t.nullishStarts + nullishCount xs } ::
        (T ++ RightSide.marked 0 false xs) := by
  induction hn : xs.length using Nat.strongRecOn generalizing xs σ t T with
  | ind n ih =>
    subst hn
    cases xs with
    | nil =>
      refine (yields_operators_stop h fun _ => hlast.2).imp ?_
      rintro _ τ rfl
      exact ⟨h, by simp [htokens, nullishCount, RightSide.marked]⟩
    | cons x xs =>
      obtain ⟨rhsFloor, hrhs⟩ : ∃ k, k = if x.operator.kind.isRightAssociative then
        x.operator.kind.precedence else x.operator.kind.precedence + 1 := ⟨_, rfl⟩
      have hfloor : 2 ≤ rhsFloor := by
        have hpos := x.precedence
        rw [hrhs]
        split
        next hright =>
          rw [TokenKind.isRightAssociative, beq_iff_eq] at hright
          rw [hright]
          decide
        next => omega
      obtain ⟨taken, left, hsplit, htaken, hleft⟩ : ∃ taken left, xs = taken ++ left ∧
          xs.takeWhile (·.binds rhsFloor) = taken ∧ xs.dropWhile (·.binds rhsFloor) = left :=
        ⟨_, _, List.takeWhile_append_dropWhile.symm, rfl, rfl⟩
      have hbinds : ∀ y ∈ taken, y.binds 2 = true := by
        intro y hy
        have hyes := List.all_eq_true.1 (List.all_takeWhile (p := (·.binds rhsFloor)) (l := xs)) y (htaken ▸ hy)
        simp only [RightSide.binds, decide_eq_true_eq] at hyes ⊢
        omega
      have hlt : left.length < (x :: xs).length := by
        rw [hsplit, List.length_cons, List.length_append]
        omega
      have hcount : nullishCount (x :: xs) = (if x.operator.kind = .nullish then 1 else 0) + nullishCount left := by
        have hnone : taken.countP (·.operator.kind == .nullish) = 0 := nullishCount_of_binds hbinds
        rw [hsplit, nullishCount, List.countP_cons, List.countP_append, hnone, Nat.zero_add, Nat.add_comm,
          nullishCount]
        simp only [beq_iff_eq]
      refine yields_operators_cons hlast.1 h (by simp [RightSide.binds]) (P := fun υ =>
        Ahead s υ (left.flatMap RightSide.lexemes ++ last :: ls) ∧
        υ.tokens.toList = t :: T ++ x.markedTokens 0 false ++ taken.flatMap RightSide.tokens) ?_ ?_
      · intro τ hτ hmore
        rw [← hrhs]
        refine (yields_operators_tight hfloor hlast _ xs hτ).imp fun _ υ hυ => ?_
        rw [hleft, htaken] at hυ
        refine ⟨hυ.1, ?_⟩
        rw [hυ.2, hmore]
        simp [RightSide.markedTokens, htokens]
      · rintro υ ⟨hυ, hmore⟩
        split
        next heq =>
          have hends : endsBefore left = true := by
            have hhead := List.head?_dropWhile_not (·.binds rhsFloor) xs
            rw [hleft] at hhead
            cases left with
            | nil => rfl
            | cons y ys =>
              have hpos := y.precedence
              have htwo : rhsFloor = 2 := by rw [hrhs, heq]; rfl
              simp only [List.head?_cons, RightSide.binds, htwo, decide_eq_false_iff_not] at hhead
              simp only [endsBefore, List.head?_cons, Option.all_some, beq_iff_eq]
              omega
          obtain ⟨before, u, hplain, hmarked⟩ :=
            RightSide.marked_open 0 (a := x.operand) hbinds hends
          have hopened : (υ.modifyToken 0 .opensNullish).tokens.toList = t.opensNullish ::
              (T ++ { toLexeme := x.operator, nullishStart? := some 0 } :: before) ++ [u] := by
            rw [State.modifyToken, Array.toList_modify, hmore, List.append_assoc, List.cons_append,
              List.modify_zero_cons]
            simp [RightSide.markedTokens, heq, hplain]
          refine (ih _ hlt _ (toList_markLast hopened _) ((hυ.modifyToken _ _).modifyToken _ _) rfl).imp ?_
          rintro _ ω ⟨hω, htokens⟩
          refine ⟨hω, htokens.trans ?_⟩
          have hopens : x.opens false = true := by simp [RightSide.opens, heq, TokenKind.precedence]
          rw [hcount, if_pos heq, RightSide.marked, hopens, hsplit, RightSide.markedTokens, if_pos heq,
            Bool.true_and, List.cons_append, List.cons_append, List.nil_append, hmarked]
          simp [Token.opensNullish, Nat.add_assoc]
        next hne =>
          refine (ih _ hlt _ hmore hυ rfl).imp ?_
          rintro _ ω ⟨hω, htokens⟩
          refine ⟨hω, htokens.trans ?_⟩
          have hopens : x.opens false = false := by
            simp only [RightSide.opens, beq_eq_false_iff_ne.2 hne, ite_self]
          rw [hcount, if_neg hne, RightSide.marked, hopens, hsplit, RightSide.marked_append hbinds]
          simp

theorem yields_conditional (xs : List RightSide) (hx : x.kind = .name ∧ x.keyword = .ordinary)
    (hlast : endsOperand last.kind = true ∧ last.kind.precedence = 0) (hquestion : last.kind ≠ .question)
    (htokens : σ.tokens = #[]) (h : Ahead s σ (x :: (xs.flatMap RightSide.lexemes ++ last :: ls))) :
    Yields s (conditional false) σ fun _ τ => Ahead s τ (last :: ls) ∧ τ.tokens.toList =
      { toLexeme := x, role? := some .access, nullishStarts := nullishCount xs } ::
        RightSide.marked 0 false xs := by
  obtain ⟨y, rest, hy, hends⟩ := exists_cons_endsOperand ls hlast.1 xs
  unfold conditional
  refine .step (fun _ => rfl) ?_
  rw [hy] at h
  refine .bind (yields_unary h hx hends) ?_
  rintro _ τ ⟨rfl, hτ, hfirst⟩
  rw [← hy] at hτ
  rw [htokens] at hfirst ⊢
  have hloose := yields_operators_loose hlast xs (by rw [hfirst]; rfl) hτ
  refine .bind (.reach (Q := fun _ υ => Ahead s υ (last :: ls) ∧ υ.tokens.toList =
    { toLexeme := x, role? := some .access, nullishStarts := nullishCount xs } ::
      RightSide.marked 0 false xs) (.bind hloose fun _ υ hυ => .pure ⟨hυ.1, ?_⟩)) ?_
  · simpa using hυ.2
  · rintro _ υ hυ
    refine .step (fun _ => and_of_false rfl) (.step (hυ.1.eat_of_ne hquestion) ?_)
    exact .pure hυ

/-- Whether the last of some operators that binds as loosely as `??` is a `??`. -/
def isOpenAfter (isOpen : Bool) (kinds : List TokenKind) : Bool :=
  ((kinds.reverse.find? (·.precedence == 1)).map (· == .nullish)).getD isOpen

theorem isOpenAfter_cons (isOpen : Bool) (k : TokenKind) (kinds : List TokenKind) :
    isOpenAfter isOpen (k :: kinds) =
      isOpenAfter (if k.precedence = 1 then k == .nullish else isOpen) kinds := by
  rw [isOpenAfter, isOpenAfter, List.reverse_cons, List.find?_append]
  cases kinds.reverse.find? (·.precedence == 1) with
  | some j => rfl
  | none =>
    by_cases hk : k.precedence = 1
    · simp [hk]
    · simp [hk]

namespace RightSide

variable {start : Nat}

theorem nullishEnds_marked (start : Nat) (isOpen : Bool) (xs : List RightSide) {k : Nat} (hk : k < xs.length) :
    (marked start isOpen xs)[2 * k + 1]?.map (·.nullishEnds) =
      some (isOpenAfter isOpen ((xs.map (·.operator.kind)).take (k + 1)) &&
        (xs.map (·.operator.kind))[k + 1]?.all (·.precedence == 1)).toNat := by
  induction xs generalizing isOpen k with
  | nil => cases hk
  | cons x xs ih =>
    rw [marked, List.map_cons, List.take_succ_cons, isOpenAfter_cons, List.getElem?_cons_succ]
    cases k with
    | zero =>
      cases xs <;> rfl
    | succ k => exact ih _ (Nat.lt_of_succ_lt_succ hk)

theorem kind_marked (isOpen : Bool) (xs : List RightSide) :
    (marked start isOpen xs).map (·.kind) = (xs.map (·.operator.kind)).flatMap (fun k => [k, .name]) := by
  induction xs generalizing isOpen with
  | nil => rfl
  | cons x xs ih =>
    rw [marked, List.map_append, ih]
    simp [markedTokens, x.isName.1]

theorem nullishStart?_of_mem_marked {t : Token} {isOpen : Bool} {xs : List RightSide}
    (ht : t ∈ marked start isOpen xs) (hkind : t.kind = .nullish) : t.nullishStart? = some start := by
  induction xs generalizing isOpen with
  | nil => cases ht
  | cons x xs ih =>
    rw [marked, List.mem_append] at ht
    obtain ht | ht := ht
    · rw [markedTokens, List.mem_cons, List.mem_singleton] at ht
      obtain rfl | rfl := ht
      · exact if_pos hkind
      · exact absurd (x.isName.1.symm.trans hkind) (by decide)
    · exact ih ht

end RightSide

theorem isOpenAfter_false (kinds : List TokenKind) :
    isOpenAfter false kinds = (kinds.reverse.find? (·.precedence == 1) == some .nullish) := by
  rw [isOpenAfter]
  cases kinds.reverse.find? (·.precedence == 1) <;> rfl

end

end PlainScript.Grammar

/-! ## Texts of names and operators -/

namespace PlainScript

open Grammar

/-- A word that is a name and no soft keyword. -/
abbrev PlainName := { w : String // isWordText w = true ∧ Word.ofText w = .name .ordinary }

/-- An operator between operands, with its spelling. -/
abbrev BinaryOperator :=
  { o : String × TokenKind // o ∈ Punctuator.table ++ reservedWords ∧ 0 < o.2.precedence }

variable (first : PlainName) (rest : List (BinaryOperator × PlainName))

/-- A statement that applies operators to names. -/
def operationText : String :=
  rest.foldl (fun text x => text ++ " " ++ x.1.1.1 ++ " " ++ x.2.1) first.1 ++ ";"

namespace Spelling

def ofName (blank : Bool) (name : PlainName) : Spelling := word blank name.1 .ordinary

def ofOperator (o : BinaryOperator) : Spelling := ⟨true, o.1.1, o.1.2, .ordinary⟩

/-- The operations behind the first name, with the semicolon. -/
def ofOperations : List Spelling :=
  rest.flatMap (fun x => [ofOperator x.1, ofName true x.2]) ++ [⟨false, ";", .semicolon, .ordinary⟩]

theorem toList_operationText :
    (operationText first rest).toList = (ofName false first :: ofOperations rest).flatMap chars := by
  have hfold (text : String) :
      (rest.foldl (fun text x => text ++ " " ++ x.1.1.1 ++ " " ++ x.2.1) text ++ ";").toList =
        text.toList ++ (ofOperations rest).flatMap chars := by
    induction rest generalizing text with
    | nil => simp [ofOperations, chars]
    | cons x rest ih =>
      rw [List.foldl_cons, ih]
      simp [ofOperations, chars, ofOperator, ofName, word]
  rw [operationText, hfold]
  simp [chars, ofName, word]

theorem operator_spelling : ∀ o ∈ Punctuator.table ++ reservedWords, 0 < o.2.precedence →
    o.1 ≠ "" ∧ '\\' ∉ o.1.toList ∧ Source.isFresh (o.1.toList ++ [' ']) = true ∧
      (o ∈ Punctuator.table ∨ isWordText o.1 = true ∧ Word.ofText o.1 = .reserved o.2) := by
  decide +kernel

theorem isFresh_append_blank {text : String} (htext : text ≠ "")
    (h : Source.isFresh (text.toList ++ [' ']) = true) (cs : List Char) :
    Source.isFresh (text.toList ++ ' ' :: cs) = true := by
  cases hchars : text.toList with
  | nil => exact absurd (String.toList_eq_nil_iff.1 hchars) htext
  | cons c more =>
    rw [hchars] at h
    cases more with
    | nil => exact h
    | cons d more => exact h

theorem legible_operator (o : BinaryOperator) {xs : List Spelling} {cs : List Char} (hxs : Legible xs)
    (hchars : xs.flatMap chars = ' ' :: cs) : Legible (ofOperator o :: xs) := by
  obtain ⟨htext, -, hfresh, hspelling⟩ := operator_spelling o.1 o.2.1 o.2.2
  refine ⟨htext, ?_, ?_, hxs⟩
  · rw [hchars]
    exact isFresh_append_blank htext hfresh cs
  · rw [hchars]
    obtain hmem | ⟨hword, hof⟩ := hspelling
    · exact spells_punctuator hmem rfl
    · exact spells_word hword rfl (.inl ⟨hof, rfl⟩)

theorem endsWord_ofOperations : endsWord ((ofOperations rest).flatMap chars) = true := by
  cases rest with
  | nil => decide
  | cons x rest => rfl

theorem legible_ofOperations : Legible (ofOperations rest) := by
  induction rest with
  | nil => exact ⟨by decide, rfl, spells_punctuator (by decide) rfl, trivial⟩
  | cons x rest ih =>
    have hname := legible_word true x.2.2.1 x.2.2.2 ih (endsWord_ofOperations rest)
    exact legible_operator x.1 hname rfl

end Spelling

open Spelling

/-- The operations behind an offset. -/
def operationsAt : Nat → List (BinaryOperator × PlainName) → List RightSide
  | _, [] => []
  | i, (o, name) :: rest =>
    let operator := (ofOperator o).lexeme i
    let operand := (ofName true name).lexeme operator.stop
    ⟨operator, operand, o.2.2, rfl, rfl⟩ :: operationsAt operand.stop rest

theorem lexemes_ofOperations (i : Nat) :
    ∃ stop, lexemes i (ofOperations rest) = (operationsAt i rest).flatMap RightSide.lexemes ++
      [⟨.semicolon, .ordinary, stop, stop + 1⟩] := by
  induction rest generalizing i with
  | nil => exact ⟨i, rfl⟩
  | cons x rest ih =>
    obtain ⟨stop, hstop⟩ := ih ((ofName true x.2).lexeme ((ofOperator x.1).lexeme i).stop).stop
    refine ⟨stop, ?_⟩
    change _ :: _ :: lexemes _ (ofOperations rest) = _
    rw [hstop]
    rfl

theorem kind_operationsAt (i : Nat) :
    (operationsAt i rest).map (·.operator.kind) = rest.map (·.1.1.2) := by
  induction rest generalizing i with
  | nil => rfl
  | cons x rest ih => exact congrArg (_ :: ·) (ih _)

theorem plainEscapes_operationText :
    (Source.ofText (operationText first rest)).PlainEscapes := by
  refine plainEscapes_of_not_mem (toList_operationText first rest) ?_
  simp only [ofOperations, List.mem_flatMap, List.mem_cons, List.mem_append, List.not_mem_nil, or_false]
  rintro x (rfl | ⟨y, -, rfl | rfl⟩ | rfl)
  · exact not_mem_of_isWordText first.2.1
  · exact (operator_spelling y.1.1 y.1.2.1 y.1.2.2).2.1
  · exact not_mem_of_isWordText y.2.2.1
  · decide

/-- Whether a `??` ends with the operand in front of an operator. -/
def endsNullish (kinds : List TokenKind) (k : Nat) : Bool :=
  (kinds.take k).reverse.find? (·.precedence == 1) == some .nullish &&
    kinds[k]?.all (·.precedence == 1)

theorem ofSource_operationText :
    ∃ (f : AnnotatedFile) (x : Lexeme) (xs : List RightSide) (z e : Token),
      AnnotatedFile.ofSource (.ofText (operationText first rest)) {} = .ok f ∧
      x.kind = .name ∧ xs.map (·.operator.kind) = rest.map (·.1.1.2) ∧
      z.kind = .semicolon ∧ e.kind = .eof ∧
      f.tokens.toList = { toLexeme := x, role? := some .access, nullishStarts := nullishCount xs } ::
        (RightSide.marked 0 false xs ++ [z, e]) := by
  obtain ⟨s, hs⟩ : ∃ s, s = Source.ofText (operationText first rest) := ⟨_, rfl⟩
  obtain ⟨x, hx⟩ : ∃ x, x = (ofName false first).lexeme 0 := ⟨_, rfl⟩
  have hname : x.kind = .name ∧ x.keyword = .ordinary := by
    rw [hx]
    exact ⟨rfl, rfl⟩
  obtain ⟨stop, hstop⟩ := lexemes_ofOperations rest x.stop
  have hlegible : Legible (ofName false first :: ofOperations rest) :=
    legible_word false first.2.1 first.2.2 (legible_ofOperations rest) (endsWord_ofOperations rest)
  have hchain := isChain_lexemes (s := s) (a := {}) hlegible (by
    rw [← toList_operationText, hs]
    exact Source.rest_zero _)
  rw [show ({} : Lexeme).stop = 0 from rfl, lexemes, ← hx, hstop] at hchain
  have hfile : Yields s file {} fun _ τ => Finished s (· =
      { toLexeme := x, role? := some .access, nullishStarts := nullishCount (operationsAt x.stop rest) } ::
        RightSide.marked 0 false (operationsAt x.stop rest)) τ := by
    refine yields_file hchain hname fun σ hσ htokens => ?_
    refine yields_assignment false false hσ hname.1 fun υ hυ hsame => ?_
    refine (yields_conditional _ hname ⟨rfl, rfl⟩ (by simp) (hsame.trans htokens) hυ).imp ?_
    rintro _ τ ⟨hτ, hmarked⟩
    exact ⟨⟨_, _, hτ, rfl⟩, _, by simp, hτ, rfl, hmarked⟩
  obtain ⟨f, hf, _, z, rfl, hz, htokens⟩ :=
    ofSource_of_yields (hs ▸ plainEscapes_operationText first rest) hfile
  exact ⟨f, x, operationsAt x.stop rest, _, _, hs ▸ hf, hname.1, kind_operationsAt _ _, hz, rfl, htokens⟩

/-- The kinds of the operators. -/
def operatorKinds : List TokenKind := rest.map (·.1.1.2)

end PlainScript
