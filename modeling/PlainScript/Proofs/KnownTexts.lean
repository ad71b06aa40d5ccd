import PlainScript.Proofs.Composition
import PlainScript.Proofs.Spellings
import PlainScript.Proofs.Termination

/-!
# Parsing a known text

The lexemes of a known text are a list, and a state of the parser stands at one of them. `Yields` says
what holds when a rule ends that is entered in such a state, in a parse without dialects. That the
parser ends is known for all texts, so that neither the depth of nesting nor the number of rounds is
counted here.
-/

namespace PlainScript.Grammar

open Parse

variable {s : Source} {α β : Type} {σ τ : State} {Q : α → State → Prop} {P : β → State → Prop}

/-- What holds of the answer and of the state if a rule ends. -/
def Yields (s : Source) (rule : Parse α) (σ : State) (Q : α → State → Prop) : Prop :=
  ∀ n a τ, rule ⟨s, {}, meet s {} n⟩ σ = .ok (a, τ) → Q a τ

/-- The rounds of a loop, from a state on. -/
def Loops (s : Source) (round : Parse Bool) (σ : State) (Q : State → Prop) : Prop :=
  ∀ n, Yields s (iterateFor (fun _ => do
    if ← round then pure (ForInStep.yield ()) else pure (.done ())) n ()) σ fun _ τ => Q τ

namespace Yields

theorem pure {a : α} (h : Q a σ) : Yields s (Pure.pure a) σ Q := by
  intro n b τ hrun
  cases hrun
  exact h

theorem bind {rule : Parse β} {f : β → Parse α} (hrule : Yields s rule σ P)
    (hf : ∀ b τ, P b τ → Yields s (f b) τ Q) : Yields s (rule >>= f) σ Q := by
  intro n a υ hrun
  obtain ⟨b, τ, hfirst, hrest⟩ := bind_ok hrun
  exact hf b τ (hrule n b τ hfirst) n a υ hrest

/-- What follows a rule that does the same however goals are met. -/
theorem step {rule : Parse β} {f : β → Parse α} {b : β}
    (hrule : ∀ recur, rule ⟨s, {}, recur⟩ σ = .ok (b, τ)) (hf : Yields s (f b) τ Q) :
    Yields s (rule >>= f) σ Q := by
  intro n a υ hrun
  obtain ⟨b', τ', hfirst, hrest⟩ := bind_ok hrun
  cases (hrule _).symm.trans hfirst
  exact hf n a υ hrest

theorem last {rule : Parse α} {a : α} (hrule : ∀ recur, rule ⟨s, {}, recur⟩ σ = .ok (a, τ))
    (h : Q a τ) : Yields s rule σ Q := by
  intro n b υ hrun
  cases (hrule _).symm.trans hrun
  exact h

theorem read {f : Env → Parse α} (hf : ∀ recur, Yields s (f ⟨s, {}, recur⟩) σ Q) :
    Yields s (MonadReader.read >>= f) σ Q :=
  fun n a τ hrun => hf _ n a τ hrun

theorem imp {rule : Parse α} {Q' : α → State → Prop} (h : Yields s rule σ Q)
    (himp : ∀ a τ, Q a τ → Q' a τ) : Yields s rule σ Q' :=
  fun n a τ hrun => himp a τ (h n a τ hrun)

/-- A goal is met by its rule. -/
theorem reachArrow {g : Goal} {Q : Bool → State → Prop} (h : Yields s (rule g) σ Q) :
    Yields s (Parse.reachArrow g) σ Q := by
  intro n a τ hrun
  cases n with
  | zero => cases hrun
  | succ n => exact h n a τ hrun

theorem reach {g : Goal} {Q : Unit → State → Prop} (h : Yields s (rule g) σ fun _ τ => Q () τ) :
    Yields s (Parse.reach g) σ Q := by
  intro n a τ hrun
  change (Parse.reachArrow g >>= fun _ => Pure.pure ()) _ _ = _ at hrun
  exact bind (reachArrow h) (fun _ _ hτ => pure hτ) n a τ hrun

/-- A loop, by its first round. -/
theorem iterateFor {ι : Type} {round : ι → Parse (ForInStep ι)} {x : ι} {Q : ι → State → Prop}
    (hround : Yields s (round x) σ fun step τ => match step with
      | .done y => Q y τ
      | .yield y => ∀ n, Yields s (Parse.iterateFor round n y) τ Q) (n : Nat) :
    Yields s (Parse.iterateFor round n x) σ Q := by
  cases n with
  | zero =>
    intro m a τ hrun
    cases hrun
  | succ n =>
    refine bind hround fun step τ hstep => ?_
    cases step with
    | done y => exact pure hstep
    | yield y => exact hstep n

theorem iterate {ι : Type} {round : ι → Parse (ForInStep ι)} {x : ι} {Q : ι → State → Prop}
    (h : ∀ n, Yields s (Parse.iterateFor round n x) σ Q) : Yields s (Parse.iterate x round) σ Q :=
  fun n a τ hrun => h (roundLimit s) n a τ hrun

theorem loop {round : Parse Bool} {Q : Unit → State → Prop} (h : Loops s round σ (Q ())) :
    Yields s (Parse.loop round) σ Q := iterate h

theorem loops {round : Parse Bool} {Q : State → Prop} (h : Yields s round σ fun more τ =>
    (more = true → Loops s round τ Q) ∧ (more = false → Q τ)) : Loops s round σ Q := by
  refine iterateFor (bind h fun more τ hτ => ?_)
  cases more with
  | false => exact pure (hτ.2 rfl)
  | true => exact pure (hτ.1 rfl)

/-- A loop whose condition fails at once. -/
theorem loopWhile_of_false {condition : Parse Bool} {body : Parse Unit} {Q : Unit → State → Prop}
    (hcondition : ∀ recur, condition ⟨s, {}, recur⟩ σ = .ok (false, σ)) (h : Q () σ) :
    Yields s (Parse.loopWhile condition body) σ Q :=
  loop (loops (step hcondition (pure ⟨fun hmore => (Bool.false_ne_true hmore).elim, fun _ => h⟩)))

end Yields

/-- The state with the current lexeme consumed and another one current. -/
def State.advance (σ : State) (a : Lexeme) : State := { σ.pushed with current := a }

/-- The state stands at the first of some lexemes, which are all that is left of the text. -/
structure Ahead (s : Source) (σ : State) (ls : List Lexeme) : Prop where
  current : ls.head? = some σ.current
  chain : ls.IsChain s.Follows
  last : ∃ a, ls.getLast? = some a ∧ s.gap a.stop = .upTo s.size
  error : σ.error? = none
  isType : σ.isType = false
  depth : σ.scopeDepth = 0

section

variable {a b : Lexeme} {ls : List Lexeme}

theorem readCode_of_follows (h : s.Follows σ.current b) (htype : σ.isType = false)
    (recur : Goal → Step Bool) : readCode ⟨s, {}, recur⟩ σ = .ok ((), { σ with current := b }) := by
  rw [readCode_eq]
  have hgap : (⟨s, {}, recur⟩ : Env).source.gap σ.current.stop = .upTo b.start := h.gap
  rw [hgap]
  dsimp only
  rw [if_neg (Nat.not_le.2 h.lt)]
  have hcode : Reading.code s false σ.isType b.start = .lexeme b.kind b.keyword b.stop := by
    rw [htype, h.code]
  change settle b.start (Reading.code s false σ.isType b.start) ⟨s, {}, recur⟩ σ = _
  rw [hcode]
  rfl

theorem next_eq (h : Ahead s σ (a :: b :: ls)) (recur : Goal → Step Bool) :
    next ⟨s, {}, recur⟩ σ = .ok ((), σ.advance b) := by
  obtain rfl : a = σ.current := Option.some.inj h.current
  exact readCode_of_follows (σ := σ.pushed) (List.isChain_cons_cons.1 h.chain).1 h.isType recur

theorem Ahead.advance (h : Ahead s σ (a :: b :: ls)) : Ahead s (σ.advance b) (b :: ls) where
  current := rfl
  chain := (List.isChain_cons_cons.1 h.chain).2
  last := by
    obtain ⟨c, hc, hgap⟩ := h.last
    exact ⟨c, by rwa [List.getLast?_cons_cons] at hc, hgap⟩
  error := h.error
  isType := h.isType
  depth := h.depth

theorem Ahead.tokens_advance (h : Ahead s σ (a :: b :: ls)) :
    (σ.advance b).tokens = σ.tokens.push { toLexeme := a } := by
  have hcurrent : a = σ.current := Option.some.inj h.current
  simp only [State.advance, State.pushed, h.depth, h.isType, hcurrent]

/-- What is recorded elsewhere does not matter. -/
theorem Ahead.congr (h : Ahead s σ ls) (hcurrent : τ.current = σ.current) (herror : τ.error? = σ.error?)
    (htype : τ.isType = σ.isType) (hdepth : τ.scopeDepth = σ.scopeDepth) : Ahead s τ ls where
  current := hcurrent ▸ h.current
  chain := h.chain
  last := h.last
  error := herror ▸ h.error
  isType := htype ▸ h.isType
  depth := hdepth ▸ h.depth

end

section

variable {env : Env} {x y : Lexeme} {ls : List Lexeme}

theorem or_eq {a b : Parse Bool} {p : Bool} (h : a env σ = .ok (p, τ)) :
    (a <||> b) env σ = if p then .ok (true, τ) else b env τ := by
  unfold orM
  rw [bind_eq h]
  cases p <;> rfl

theorem and_eq {a b : Parse Bool} {p : Bool} (h : a env σ = .ok (p, τ)) :
    (a <&&> b) env σ = if p then b env τ else .ok (false, τ) := by
  unfold andM
  rw [bind_eq h]
  cases p <;> rfl

theorem modify_push {α : Type} (xs : Array α) (a : α) (f : α → α) :
    (xs.push a).modify xs.size f = xs.push (f a) := by
  apply Array.ext_getElem?
  intro i
  rw [Array.getElem?_modify, Array.getElem?_push, Array.getElem?_push]
  split
  next h => simp [← h]
  next h => rw [if_neg (Ne.symm h), if_neg (Ne.symm h)]

/-- An annotation of the last token. -/
theorem tokens_markLast {T : Array Token} {t : Token} (h : σ.tokens = T.push t) (f : Token → Token) :
    (σ.markLast f).tokens = T.push (f t) := by
  have hsize : σ.tokens.size - 1 = T.size := by simp [h]
  change σ.tokens.modify (σ.tokens.size - 1) f = _
  rw [hsize, h, modify_push]

namespace Ahead

theorem modifyToken (h : Ahead s σ ls) (i : Nat) (f : Token → Token) : Ahead s (σ.modifyToken i f) ls :=
  h.congr rfl rfl rfl rfl

theorem isAt_eq (h : Ahead s σ (x :: ls)) (k : TokenKind) (recur : Goal → Step Bool) :
    isAt k ⟨s, {}, recur⟩ σ = .ok (x.kind == k, σ) := by
  rw [show x = σ.current from Option.some.inj h.current]
  rfl

theorem isAtAny_eq (h : Ahead s σ (x :: ls)) (ks : List TokenKind) (recur : Goal → Step Bool) :
    isAtAny ks ⟨s, {}, recur⟩ σ = .ok (ks.contains x.kind, σ) := by
  rw [show x = σ.current from Option.some.inj h.current]
  rfl

theorem kind_eq (h : Ahead s σ (x :: ls)) (recur : Goal → Step Bool) :
    kind ⟨s, {}, recur⟩ σ = .ok (x.kind, σ) := by
  rw [show x = σ.current from Option.some.inj h.current]
  rfl

theorem eat_of_ne (h : Ahead s σ (x :: ls)) {k : TokenKind} (hx : x.kind ≠ k) (recur : Goal → Step Bool) :
    eat k ⟨s, {}, recur⟩ σ = .ok (false, σ) := by
  rw [eat, bind_eq (h.isAt_eq k recur), beq_eq_false_iff_ne.2 hx]
  rfl

theorem hasError_eq (h : Ahead s σ ls) (recur : Goal → Step Bool) :
    hasError ⟨s, {}, recur⟩ σ = .ok (false, σ) := by
  change Except.ok (σ.error?.isSome, σ) = _
  rw [h.error]
  rfl

theorem yields_next (h : Ahead s σ (x :: y :: ls)) : Yields s next σ fun _ τ => Ahead s τ (y :: ls) ∧
    τ.tokens = σ.tokens.push { toLexeme := x } :=
  .last (next_eq h) ⟨h.advance, h.tokens_advance⟩

theorem yields_identifier (h : Ahead s σ (x :: y :: ls)) (hx : x.kind = .name) :
    Yields s identifier σ fun _ τ => Ahead s τ (y :: ls) ∧ τ.tokens = σ.tokens.push { toLexeme := x } := by
  unfold identifier
  refine .bind h.yields_next fun _ τ hτ => .last (fun _ => rfl) ⟨hτ.1.modifyToken _ _, ?_⟩
  rw [← hx]
  exact tokens_markLast hτ.2 _

theorem line (h : Ahead s σ (x :: y :: ls)) : s.hasLineBreak x.stop y.start = false :=
  (List.isChain_cons_cons.1 h.chain).1.line

theorem canInsertSemicolon_eq {T : Array Token} {t : Token} (h : Ahead s σ (y :: ls))
    (htokens : σ.tokens = T.push t) (hline : s.hasLineBreak t.stop y.start = false)
    (hy : [TokenKind.eof, .braceClose].contains y.kind = false) (recur : Goal → Step Bool) :
    canInsertSemicolon ⟨s, {}, recur⟩ σ = .ok (false, σ) := by
  rw [canInsertSemicolon, or_eq (h.isAtAny_eq _ recur), hy]
  change Except.ok (s.hasLineBreak ((σ.tokens.back?.map (·.stop)).getD 0) σ.current.start, σ) = _
  rw [htokens, Array.back?_push, ← show y = σ.current from Option.some.inj h.current]
  exact congrArg (fun b => Except.ok (b, σ)) hline

end Ahead

/-- The kinds behind which an operand does not go on. -/
def endsOperand (k : TokenKind) : Bool :=
  !(([.eof, .braceClose, .doWord, .arrow, .doubleColon, .questionDot, .dot, .bracketOpen, .parenOpen, .backquote,
    .increment, .postIncrement] : List TokenKind).contains k)

theorem yields_nameOperand (h : Ahead s σ (x :: y :: ls)) (hx : x.kind = .name)
    (hkeyword : x.keyword ≠ .asyncName ∧ x.keyword ≠ .awaitName)
    (hy : [TokenKind.eof, .braceClose, .doWord, .arrow].contains y.kind = false) (canBeArrow : Bool) :
    Yields s (nameOperand canBeArrow) σ fun isArrow τ => isArrow = false ∧ Ahead s τ (y :: ls) ∧
      τ.tokens = σ.tokens.push { toLexeme := x, role? := some .access } := by
  have hkinds : y.kind ≠ .eof ∧ y.kind ≠ .braceClose ∧ y.kind ≠ .doWord ∧ y.kind ≠ .arrow := by
    simpa using hy
  have hword : x.keyword = σ.current.keyword := by rw [Option.some.inj h.current]
  unfold nameOperand
  refine .step (fun _ => rfl) (.step (fun _ => rfl) (.step (fun _ => rfl) ?_))
  refine .bind (h.yields_identifier hx) fun _ τ ⟨hτ, htokens⟩ => ?_
  rw [← hword, if_neg (by simpa using hkeyword.2)]
  refine .step (hτ.canInsertSemicolon_eq htokens h.line (by simp [hkinds])) (.step hτ.kind_eq ?_)
  simp only [beq_eq_false_iff_ne.2 hkeyword.1, beq_eq_false_iff_ne.2 hkinds.2.2.1,
    beq_eq_false_iff_ne.2 hkinds.2.2.2, Bool.false_and, Bool.and_false, Bool.false_eq_true, if_false]
  refine .step (fun _ => rfl) (.pure ⟨rfl, hτ.modifyToken _ _, tokens_markLast htokens _⟩)

theorem yields_operand {Q : Bool → State → Prop} (h : Ahead s σ (x :: ls)) (hx : x.kind = .name)
    (hname : ∀ canBeArrow, Yields s (nameOperand canBeArrow) σ Q) : Yields s operand σ Q := by
  unfold operand
  refine .step (h.eat_of_ne (by simp [hx])) ?_
  rw [if_neg (by decide)]
  refine .step (h.isAtAny_eq _) ?_
  rw [hx, if_neg (by decide)]
  refine .step (fun recur => (and_eq (h.isAt_eq _ recur)).trans (by rw [hx, if_neg (by decide)])) ?_
  rw [if_neg (by decide)]
  refine .step (fun recur => rfl) ?_
  dsimp only
  rw [← show x = σ.current from Option.some.inj h.current, hx]
  exact hname _

theorem yields_subscripts_stop (h : Ahead s σ (y :: ls)) (hy : endsOperand y.kind = true) (start : Nat) :
    Yields s (subscripts start false) σ fun _ τ => τ = σ := by
  have hstop : Yields s (plainSubscript start false) σ fun more τ => more = false ∧ τ = σ := by
    unfold plainSubscript
    refine .step h.kind_eq ?_
    split
    case h_7 => exact .pure ⟨rfl, rfl⟩
    all_goals
      rename_i hkind
      rw [hkind] at hy
      cases hy
  unfold subscripts
  refine .read fun recur => .step (fun _ => rfl) (.step (fun _ => rfl) ?_)
  refine .loop (.loops (.step h.hasError_eq (hstop.imp fun more τ hτ => ?_)))
  exact ⟨fun hmore => absurd (hτ.1.symm.trans hmore) Bool.false_ne_true, fun _ => hτ.2⟩

theorem endsOperand_ne {k : TokenKind} (h : endsOperand k = true) :
    [TokenKind.eof, .braceClose, .doWord, .arrow].contains k = false ∧ k.isPostfixOperator = false := by
  simp only [endsOperand, Bool.not_eq_true', List.contains_cons, Bool.or_eq_false_iff, beq_eq_false_iff_ne] at h
  simp [TokenKind.isPostfixOperator, h]

theorem yields_unary (h : Ahead s σ (x :: y :: ls)) (hx : x.kind = .name ∧ x.keyword = .ordinary)
    (hy : endsOperand y.kind = true) : Yields s unary σ fun isArrow τ => isArrow = false ∧
      Ahead s τ (y :: ls) ∧ τ.tokens = σ.tokens.push { toLexeme := x, role? := some .access } := by
  obtain ⟨hx, hkeyword⟩ := hx
  have hmodule (recur : Goal → Step Bool) : isAtName .moduleName ⟨s, {}, recur⟩ σ = .ok (false, σ) := by
    have hspells : spells .moduleName ⟨s, {}, recur⟩ σ = .ok (false, σ) := by
      change Except.ok (σ.current.keyword == .moduleName, σ) = _
      rw [← show x = σ.current from Option.some.inj h.current, hkeyword]
      rfl
    rw [isAtName, and_eq (h.isAt_eq _ recur), hx, hspells]
    rfl
  have hoperand : Yields s operandWithSubscripts σ fun isArrow τ => isArrow = false ∧
      Ahead s τ (y :: ls) ∧ τ.tokens = σ.tokens.push { toLexeme := x, role? := some .access } := by
    unfold operandWithSubscripts
    refine .step (fun _ => rfl) (.bind (yields_operand h hx fun canBeArrow =>
      yields_nameOperand h hx (by simp [hkeyword]) (endsOperand_ne hy).1 canBeArrow) ?_)
    rintro isArrow τ ⟨rfl, hτ, htokens⟩
    rw [if_neg (by decide)]
    refine .bind (.reach (Q := fun _ υ => υ = τ)
      (.bind (yields_subscripts_stop hτ hy _) fun _ υ hυ => .pure hυ)) ?_
    rintro _ υ rfl
    refine .step (fun _ => rfl) ?_
    rw [htokens, if_neg (by simp)]
    exact .pure ⟨rfl, hτ, htokens⟩
  unfold unary
  refine .read fun recur => ?_
  dsimp only
  rw [if_neg (by decide)]
  refine .step (fun recur => (and_eq (hmodule recur)).trans (if_neg (by decide))) ?_
  rw [if_neg (by decide)]
  refine .step h.kind_eq ?_
  rw [hx, if_neg (by decide)]
  refine .bind hoperand ?_
  rintro isArrow τ ⟨rfl, hτ, htokens⟩
  rw [if_neg (by decide)]
  refine .bind (.loopWhile_of_false (Q := fun _ υ => υ = τ) (fun recur => ?_) rfl) ?_
  · rw [bind_eq (hτ.kind_eq recur), bind_eq (hτ.canInsertSemicolon_eq htokens h.line (by
      have := (endsOperand_ne hy).1
      simp_all) recur), (endsOperand_ne hy).2]
    rfl
  · rintro _ _ rfl
    exact .pure ⟨rfl, hτ, htokens⟩

theorem and_of_false {a b : Parse Bool} (h : a env σ = .ok (false, τ)) :
    (a <&&> b) env σ = .ok (false, τ) := by
  rw [and_eq h, if_neg Bool.false_ne_true]

theorem Ahead.spells_of_ne (h : Ahead s σ (x :: ls)) {w : SoftKeyword} (hx : x.keyword ≠ w)
    (recur : Goal → Step Bool) :
    spells w ⟨s, {}, recur⟩ σ = .ok (false, σ) := by
  change Except.ok (σ.current.keyword == w, σ) = _
  rw [← show x = σ.current from Option.some.inj h.current, beq_eq_false_iff_ne.2 hx]

theorem Ahead.isAtName_of_ne (h : Ahead s σ (x :: ls)) {w : SoftKeyword} (hx : x.keyword ≠ w)
    (recur : Goal → Step Bool) :
    isAtName w ⟨s, {}, recur⟩ σ = .ok (false, σ) := by
  rw [isAtName, and_eq (h.isAt_eq _ recur), h.spells_of_ne hx]
  exact ite_self _

theorem yields_assignment {Q : State → Prop} (noIn inParens : Bool) (h : Ahead s σ (x :: ls))
    (hx : x.kind = .name)
    (hconditional : ∀ υ, Ahead s υ (x :: ls) → υ.tokens = σ.tokens → Yields s (conditional noIn) υ
      fun _ τ => (∃ z rest, Ahead s τ (z :: rest) ∧ z.kind.isAssignment = false) ∧ Q τ) :
    Yields s (assignment noIn inParens) σ fun _ τ => Q τ := by
  have huntyped (υ : State) (recur : Goal → Step Bool) : isTyped ⟨s, {}, recur⟩ υ = .ok (false, υ) := rfl
  unfold assignment
  refine .read fun recur => .step (fun recur => and_of_false (huntyped σ recur)) ?_
  unfold plainAssignment
  refine .step (h.isAt_eq _) ?_
  rw [hx, if_neg (by decide)]
  refine .step (h.isAtAny_eq _) ?_
  rw [hx, if_pos (by decide)]
  refine .step (fun _ => rfl) ?_
  refine .bind (hconditional _ (h.congr rfl rfl rfl rfl) rfl) ?_
  rintro wasArrow τ ⟨⟨z, rest, hz, hassign⟩, hQ⟩
  have hrest : Yields s (do
      if (← kind).isAssignment then
        next
        reach (.assignment noIn false)
        return false
      return wasArrow) τ fun _ τ => Q τ := by
    refine .step hz.kind_eq ?_
    rw [hassign, if_neg (by decide)]
    exact .pure hQ
  split
  · exact .step (fun _ => rfl) hrest
  · exact hrest

theorem yields_expression {Q : State → Prop} (h : Yields s (assignment false false) σ fun _ τ =>
    (∃ z rest, Ahead s τ (z :: rest) ∧ z.kind ≠ .comma) ∧ Q τ) :
    Yields s (expression false) σ fun _ τ => Q τ := by
  unfold expression
  refine .bind (.reach (Q := fun _ τ =>
    (∃ z rest, Ahead s τ (z :: rest) ∧ z.kind ≠ .comma) ∧ Q τ) h) ?_
  rintro _ τ ⟨⟨z, rest, hz, hcomma⟩, hQ⟩
  exact .loopWhile_of_false (hz.eat_of_ne hcomma) hQ

theorem yields_semicolon {Q : State → Prop} (h : Ahead s σ (y :: ls)) (hy : y.kind = .semicolon)
    (hnext : Yields s next σ fun _ τ => Q τ) : Yields s semicolon σ fun _ τ => Q τ := by
  unfold semicolon
  have hends : Yields s endsStatement σ fun isEnd τ => isEnd = true ∧ Q τ := by
    unfold endsStatement
    unfold orM
    refine .bind (P := fun b τ => b = true ∧ Q τ) ?_ ?_
    · unfold eat
      refine .step (h.isAt_eq _) ?_
      rw [hy, if_pos (by decide)]
      exact .bind hnext fun _ _ hτ => .pure ⟨rfl, hτ⟩
    · rintro _ τ ⟨rfl, hQ⟩
      exact .pure ⟨rfl, hQ⟩
  refine .bind hends ?_
  rintro _ τ ⟨rfl, hQ⟩
  exact .pure hQ

/-- A semicolon is next, and what holds once it has been consumed. -/
def AtSemicolon (s : Source) (Q : State → Prop) (σ : State) : Prop :=
  ∃ z rest, Ahead s σ (z :: rest) ∧ z.kind = .semicolon ∧ Yields s next σ fun _ τ => Q τ

theorem yields_expressionStatement {Q : State → Prop}
    (h : Yields s (expression false) σ fun _ τ => AtSemicolon s Q τ) :
    Yields s expressionStatement σ fun _ τ => Q τ := by
  unfold expressionStatement
  refine .step (fun _ => rfl) (.bind (.reach (Q := fun _ τ => AtSemicolon s Q τ)
    (.bind h fun _ _ hτ => .pure hτ)) ?_)
  rintro _ τ ⟨z, rest, hz, hsemi, hnext⟩
  refine .step (fun _ => rfl) (.step (fun _ => rfl) ?_)
  have hsemicolon := yields_semicolon hz hsemi hnext
  split
  · split
    · refine .step (hz.eat_of_ne (by simp [hsemi])) ?_
      rw [if_neg (by decide)]
      unfold identifierStatement
      exact .read fun recur => hsemicolon
    · exact hsemicolon
  · exact hsemicolon

theorem yields_statement {Q : State → Prop} (h : Ahead s σ (x :: ls))
    (hx : x.kind = .name ∧ x.keyword = .ordinary)
    (hexpression : Yields s expressionStatement σ fun _ τ => Q τ) :
    Yields s (statement true) σ fun _ τ => Q τ := by
  have hdecorators : Yields s decorators σ fun _ τ => τ = σ :=
    .loopWhile_of_false (fun recur => by rw [h.isAt_eq, hx.1]; rfl) rfl
  have hsoft (w : SoftKeyword) (hw : w ≠ .ordinary) : x.keyword ≠ w := hx.2 ▸ hw.symm
  have hkeyword : Yields s (keywordStatement true) σ fun isKeyword τ => isKeyword = false ∧ τ = σ := by
    unfold keywordStatement
    refine .step h.kind_eq ?_
    rw [hx.1]
    unfold softKeywordStatement
    refine .step (h.spells_of_ne (hsoft _ (by decide))) ?_
    rw [if_neg (by decide)]
    refine .step (fun recur => and_of_false (h.spells_of_ne (hsoft _ (by decide)) recur)) ?_
    rw [if_neg (by decide)]
    unfold isAtAwaitUsing
    rw [bind_assoc]
    refine .step (h.isAtName_of_ne (hsoft _ (by decide))) ?_
    rw [if_neg (by decide)]
    exact .step (fun _ => rfl) (.pure ⟨rfl, rfl⟩)
  unfold statement
  refine .read fun recur => .step (fun recur => and_of_false rfl) ?_
  rw [if_neg (by decide)]
  refine .bind hdecorators ?_
  rintro _ _ rfl
  refine .step (fun recur => and_of_false rfl) ?_
  rw [if_neg (by decide)]
  refine .bind hkeyword ?_
  rintro _ _ ⟨rfl, rfl⟩
  exact hexpression

/-- The lexeme at the end of a text. -/
def endLexeme (s : Source) : Lexeme := { start := s.size, stop := s.size }

theorem settleEnd_eq (h : (endedAt s σ 1 && endedAt s σ 2) = false) (recur : Goal → Step Bool) :
    settleEnd ⟨s, {}, recur⟩ σ = .ok ((), { σ with current := endLexeme s }) := by
  change (if decide (2 ≤ σ.tokens.size) && endedAt s σ 1 && endedAt s σ 2 then
    fail .unexpectedEnd s.size else pure () : Parse Unit) ⟨s, {}, recur⟩
      { σ with current := endLexeme s } = _
  rw [Bool.and_assoc, h, Bool.and_false]
  rfl

theorem next_end (hgap : s.gap σ.current.stop = .upTo s.size)
    (hended : (endedAt s σ.pushed 1 && endedAt s σ.pushed 2) = false) (recur : Goal → Step Bool) :
    next ⟨s, {}, recur⟩ σ = .ok ((), σ.advance (endLexeme s)) := by
  change readCode ⟨s, {}, recur⟩ σ.pushed = _
  rw [readCode_eq]
  have hgap : (⟨s, {}, recur⟩ : Env).source.gap σ.pushed.current.stop = .upTo s.size := hgap
  rw [hgap]
  dsimp only
  rw [if_pos (Nat.le_refl _)]
  exact settleEnd_eq hended recur

/-- What a statement leaves behind that ends with the text. -/
def Ended (s : Source) (Q : List Token → Prop) (σ : State) : Prop :=
  ∃ T z, Q T ∧ z.kind = .semicolon ∧ z.start < s.size ∧ σ.tokens.toList = T ++ [{ toLexeme := z }] ∧
    σ.error? = none ∧ σ.current = endLexeme s ∧ σ.isType = false ∧ σ.scopeDepth = 0

/-- What a text of one statement leaves behind. -/
def Finished (s : Source) (Q : List Token → Prop) (σ : State) : Prop :=
  σ.error? = none ∧ ∃ T z, Q T ∧ z.kind = .semicolon ∧
    σ.tokens.toList = T ++ [{ toLexeme := z }, { toLexeme := endLexeme s }]

theorem yields_next_last {Q : List Token → Prop} (h : Ahead s σ [y]) (hkind : y.kind = .semicolon)
    (hstart : y.start < s.size) (hQ : Q σ.tokens.toList) : Yields s next σ fun _ τ => Ended s Q τ := by
  obtain rfl : y = σ.current := Option.some.inj h.current
  obtain ⟨a, ha, hgap⟩ := h.last
  cases ha
  refine .last (next_end hgap ?_)
    ⟨σ.tokens.toList, σ.current, hQ, hkind, hstart, ?_, h.error, rfl, h.isType, h.depth⟩
  · simp [endedAt, State.pushed, hstart]
  · simp [State.advance, State.pushed, h.isType, h.depth]

theorem gap_size (s : Source) : s.gap s.size = .upTo s.size := by
  rw [Source.gap, Nat.sub_self]
  rfl

theorem yields_eat_end {Q : List Token → Prop} (h : Ended s Q σ) :
    Yields s (eat .eof) σ fun isEnd τ => isEnd = true ∧ Finished s Q τ := by
  obtain ⟨T, z, hQ, hkind, hstart, htokens, herror, hcurrent, htype, hdepth⟩ := h
  have hat (recur) : isAt .eof ⟨s, {}, recur⟩ σ = .ok (true, σ) := by
    change Except.ok (σ.current.kind == .eof, σ) = _
    rw [hcurrent]
    rfl
  have hpushed : σ.pushed.tokens.toList = T ++ [{ toLexeme := z }, { toLexeme := endLexeme s }] := by
    simp [State.pushed, htokens, hcurrent, htype, hdepth]
  unfold eat
  refine .step hat (.step (next_end ?_ ?_) (.pure ⟨rfl, herror, T, z, hQ, hkind, hpushed⟩))
  · rw [hcurrent]
    exact gap_size s
  · have htwo : σ.pushed.tokens[σ.pushed.tokens.size - 2]? = some { toLexeme := z } := by
      rw [← Array.getElem?_toList, ← Array.length_toList, hpushed]
      simp
    rw [Bool.and_eq_false_iff]
    exact .inr (by simp [endedAt, htwo, hstart])

theorem lt_of_isChain {a : Lexeme} (h : (a :: ls).IsChain s.Follows) (hy : y ∈ ls) : y.start < s.size := by
  induction ls generalizing a with
  | nil => cases hy
  | cons b ls ih =>
    obtain ⟨hfollows, hchain⟩ := List.isChain_cons_cons.1 h
    obtain rfl | hy := List.mem_cons.1 hy
    · exact hfollows.lt
    · exact ih hchain hy

/-- A text that is an expression and a semicolon. -/
theorem yields_file {Q : List Token → Prop} (hchain : (({} : Lexeme) :: x :: ls).IsChain s.Follows ∧
      ∃ a, (({} : Lexeme) :: x :: ls).getLast? = some a ∧ s.gap a.stop = .upTo s.size)
    (hx : x.kind = .name ∧ x.keyword = .ordinary)
    (hassignment : ∀ σ : State, Ahead s σ (x :: ls) → σ.tokens = #[] →
      Yields s (assignment false false) σ fun _ τ =>
        ∃ y ∈ ls, Ahead s τ [y] ∧ y.kind = .semicolon ∧ Q τ.tokens.toList) :
    Yields s file {} fun _ τ => Finished s Q τ := by
  obtain ⟨hchain, hlast⟩ := hchain
  rw [List.getLast?_cons_cons] at hlast
  obtain ⟨hfollows, hchain⟩ := List.isChain_cons_cons.1 hchain
  have hstatement (σ : State) (hσ : Ahead s σ (x :: ls)) (htokens : σ.tokens = #[]) :
      Yields s (statement true) σ fun _ τ => Ended s Q τ := by
    refine yields_statement hσ hx (yields_expressionStatement (yields_expression ?_))
    refine (hassignment σ hσ htokens).imp ?_
    rintro _ τ ⟨y, hmem, hy, hkind, hQ⟩
    exact ⟨⟨y, [], hy, by simp [hkind]⟩, y, [], hy, hkind,
      yields_next_last hy hkind (lt_of_isChain hchain hmem) hQ⟩
  have hfirst : Ahead s { ({} : State) with current := x } (x :: ls) :=
    ⟨rfl, hchain, hlast, rfl, rfl, rfl⟩
  unfold file blockBody loopUntilEaten
  refine .step (readCode_of_follows hfollows rfl) ?_
  refine .bind (P := fun _ τ => Finished s Q τ) (.loop (.loops ?_)) fun _ τ hτ => .last (fun _ => rfl) hτ
  refine .bind (P := fun more τ => more = true ∧ τ = { ({} : State) with current := x })
    (.step (hfirst.eat_of_ne (by simp [hx.1])) (.step hfirst.hasError_eq (.pure ⟨rfl, rfl⟩))) ?_
  rintro _ _ ⟨rfl, rfl⟩
  refine .bind (.reach (Q := fun _ τ => Ended s Q τ)
    (.bind (hstatement _ hfirst rfl) fun _ _ hτ => .pure hτ)) fun _ τ hτ => .pure ⟨fun _ => .loops ?_, nofun⟩
  -- The second round is at the end of the text.
  refine .bind (P := fun more υ => more = false ∧ Finished s Q υ) (.bind (yields_eat_end hτ) ?_) ?_
  · rintro _ υ ⟨rfl, hυ⟩
    exact .pure ⟨rfl, hυ⟩
  · rintro _ υ ⟨rfl, hυ⟩
    exact .pure ⟨nofun, fun _ => hυ⟩

/-- A rule that yields a result without an error is one that has a result. -/
theorem ofSource_of_yields {Q : List Token → Prop} (hplain : s.PlainEscapes)
    (h : Yields s file {} fun _ τ => Finished s Q τ) : ∃ f, AnnotatedFile.ofSource s {} = .ok f ∧
      ∃ T z, Q T ∧ z.kind = .semicolon ∧
        f.tokens.toList = T ++ [{ toLexeme := z }, { toLexeme := endLexeme s }] := by
  cases hrun : parse s {} with
  | error e => exact absurd hplain (parse_excused hrun).1
  | ok τ =>
    obtain ⟨a, hfile⟩ := file_of_parse hrun
    obtain ⟨herror, hQ⟩ := h _ _ _ hfile
    refine ⟨⟨τ.tokens, τ.scopes⟩, ?_, hQ⟩
    rw [AnnotatedFile.ofSource, if_neg (by decide), hrun]
    dsimp only
    rw [herror]

end

end PlainScript.Grammar
