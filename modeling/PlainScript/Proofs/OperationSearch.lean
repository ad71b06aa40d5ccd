import PlainScript.Proofs.Prepared
import PlainScript.Proofs.Traces

/-!
# Searches in chains and nullish operations

Three questions about a chain are answered by a search among the tokens that counts where operations
start and end: whether an `await` stands in it, whether a subscript is its last one, and whether the
subscript before another one follows `super`.

The first search takes every word `await` that has no role: the parser gives none to the operator, and
none to a property of that name. The other two stop at the nearest token on the level of the chain that
carries a subscript, of whatever expression: a member access in the brackets of a subscript starts no
chain, so it is taken for the next step of the chain around it.
-/

namespace PlainScript

/-! ## Sums -/

namespace Tape

variable {t : Tape} {g : Token → Int} {i j : Nat}

/-- What the tokens from one index up to another weigh together. -/
def total (t : Tape) (g : Token → Int) (i j : Nat) : Int :=
  ((List.range' i (j - i)).map fun k => g (t.get k)).sum

theorem total_head (h : i < j) : t.total g i j = g (t.get i) + t.total g (i + 1) j := by
  obtain ⟨n, rfl⟩ := Nat.exists_eq_add_of_lt h
  rw [total, total, show i + n + 1 - i = n + 1 by omega, show i + n + 1 - (i + 1) = n by omega,
    List.range'_succ, List.map_cons, List.sum_cons]

theorem total_last (h : i ≤ j) : t.total g i (j + 1) = t.total g i j + g (t.get j) := by
  obtain ⟨n, rfl⟩ := Nat.exists_eq_add_of_le h
  rw [total, total, show i + n + 1 - i = n + 1 by omega, show i + n - i = n by omega, List.range'_concat,
    List.map_append, List.sum_append, Nat.one_mul, List.map_singleton, List.sum_singleton]

theorem total_single (t : Tape) (g : Token → Int) (i : Nat) : t.total g i (i + 1) = g (t.get i) := by
  simp [total]

end Tape

/-! ## Waiting -/

namespace Token

/-- How many chains and nullish operations more start at a token than end there. -/
def opens (t : Token) : Int :=
  (if t.isChainStart then 1 else 0) - (if t.isChainEnd then 1 else 0) + t.nullishStarts - t.nullishEnds

/-- A word `await` without a role, in a scope of a given depth. -/
structure IsAwait (t : Token) (scopeDepth : Nat) : Prop where
  keyword : t.keyword = .awaitName
  role? : t.role? = none
  scopeDepth : t.scopeDepth = scopeDepth

theorem isAwait_iff {t : Token} {scopeDepth : Nat} : t.IsAwait scopeDepth ↔
    (t.keyword == .awaitName && t.role?.isNone && t.scopeDepth == scopeDepth) = true := by
  rw [Bool.and_eq_true_iff, Bool.and_eq_true_iff, beq_iff_eq, beq_iff_eq, Option.isNone_iff_eq_none]
  exact ⟨fun h => ⟨⟨h.keyword, h.role?⟩, h.scopeDepth⟩, fun h => ⟨h.1.1, h.1.2, h.2⟩⟩

end Token

namespace Tape

variable {t : Tape} {i j k n scopeDepth : Nat} {depth : Int}

/-- The operations that start at a token reach another one, if never before it as many have ended as
have started. -/
def Reaches (t : Tape) (i j : Nat) : Prop := i ≤ j ∧ ∀ k, i < k → k ≤ j → 0 < t.total Token.opens i k

/-- An `await` stands in the operations that start at a token, in the scope of the token. -/
def Awaits (t : Tape) (i : Nat) : Prop :=
  ∃ j, j < t.size ∧ t.Reaches i j ∧ (t.get j).IsAwait (t.get i).scopeDepth

/-- The search finds an `await` that the operations reach; `depth` of them were open before. -/
theorem awaitsFor_iff : t.awaitsFor scopeDepth n i depth = true ↔
    ∃ j, i ≤ j ∧ j < i + n ∧ (∀ k, i < k → k ≤ j → 0 < depth + t.total Token.opens i k) ∧
      (t.get j).IsAwait scopeDepth := by
  induction n generalizing i depth with
  | zero =>
    refine iff_of_false Bool.false_ne_true ?_
    rintro ⟨j, hle, hlt, -⟩
    omega
  | succ n ih =>
    have hfirst := t.total_single Token.opens i
    have hdepth : depth + (if (t.get i).isChainStart then 1 else 0) -
        (if (t.get i).isChainEnd then 1 else 0) + (t.get i).nullishStarts - (t.get i).nullishEnds =
          depth + (t.get i).opens := by
      unfold Token.opens
      omega
    unfold awaitsFor
    dsimp only
    rw [hdepth]
    split
    next hawait =>
      refine iff_of_true rfl ⟨i, Nat.le_refl i, by omega, fun k hlt hle => absurd hlt (by omega), ?_⟩
      exact Token.isAwait_iff.2 hawait
    next hawait =>
      -- The `await` stands behind the first token.
      have hlater {j : Nat} (hle : i ≤ j) (hj : (t.get j).IsAwait scopeDepth) : i < j := by
        obtain rfl | hlt := Nat.eq_or_lt_of_le hle
        · exact absurd (Token.isAwait_iff.1 hj) hawait
        · exact hlt
      split
      next hclosed =>
        refine iff_of_false Bool.false_ne_true ?_
        rintro ⟨j, hle, -, hopen, hj⟩
        have hopen := hopen (i + 1) (Nat.lt_succ_self i) (hlater hle hj)
        omega
      next hopened =>
        rw [ih]
        constructor
        · rintro ⟨j, hle, hlt, hopen, hj⟩
          refine ⟨j, by omega, by omega, fun k hik hkj => ?_, hj⟩
          obtain rfl | hne := Nat.eq_or_lt_of_le hik
          · rw [Nat.succ_eq_add_one, hfirst]
            omega
          · have hopen := hopen k hne hkj
            rw [total_head hik]
            omega
        · rintro ⟨j, hle, hlt, hopen, hj⟩
          refine ⟨j, hlater hle hj, by omega, fun k hik hkj => ?_, hj⟩
          have hopen := hopen k (by omega) hkj
          rw [total_head (by omega)] at hopen
          omega

theorem isAsyncStart_iff : t.isAsyncStart i = true ↔
    ((t.get i).isChainStart = true ∨ (t.get i).nullishStarts ≠ 0) ∧ t.Awaits i := by
  unfold isAsyncStart
  rw [Bool.and_eq_true_iff, Bool.or_eq_true_iff, bne_iff_ne, awaitsFor_iff]
  refine and_congr_right fun _ => exists_congr fun j => ?_
  simp only [Reaches, Int.zero_add]
  constructor
  · rintro ⟨hle, hlt, hopen, hj⟩
    exact ⟨by omega, ⟨hle, hopen⟩, hj⟩
  · rintro ⟨hlt, ⟨hle, hopen⟩, hj⟩
    exact ⟨hle, by omega, hopen, hj⟩

end Tape

/-- The support functions whose calls have to be awaited. -/
def SupportFunction.waits : SupportFunction → Bool
  | .asyncNullishCoalesce | .asyncOptionalChain | .asyncOptionalChainDelete => true
  | _ => false

namespace Emit

/-- The call of a support function up to its arguments. -/
def Setting.call (s : Setting) (f : SupportFunction) (arguments : String) : String :=
  (if f.waits then "await " else "") ++ s.support.name f ++ arguments

/-- The function for a nullish operation. -/
def nullishFunction (isAsync : Bool) : SupportFunction :=
  if isAsync then .asyncNullishCoalesce else .nullishCoalesce

theorem waits_nullishFunction (isAsync : Bool) : (nullishFunction isAsync).waits = isAsync := by
  cases isAsync <;> rfl

theorem waits_chainFunction (isDelete isAsync : Bool) : (chainFunction isDelete isAsync).waits = isAsync := by
  cases isDelete <;> cases isAsync <;> rfl

variable {s : Setting} {i : Nat}

theorem nullishCall_eq : s.nullishCall i = s.call (nullishFunction (s.tape.isAsyncStart i)) "(" := by
  rw [Setting.nullishCall, Setting.callCode, Setting.call, waits_nullishFunction]
  rfl

theorem chainCall_eq : s.chainCall i =
    s.call (chainFunction ((s.tape.before i).kind == .deleteWord) (s.tape.isAsyncStart i)) "([" := by
  rw [Setting.chainCall, Setting.callCode, Setting.call, waits_chainFunction]

end Emit

/-! ## Neighbours -/

namespace Emit.Chain

variable {t : Tape} {i j k n : Nat} {depth : Int} {b : Bool}

/-- A search that has come to a level stops at a token: it has left the chain, or it has found a
subscript on the level of the chain. -/
def Stops (level : Int) (token : Token) : Prop :=
  level < 0 ∨ level = 0 ∧ token.subscriptStart?.isSome = true

/-- The search stops at a token behind an index, and at none before it. -/
def StopsAfter (t : Tape) (i j : Nat) : Prop :=
  i < j ∧ j < t.size ∧ Stops (t.total weight (i + 1) (j + 1)) (t.get j) ∧
    ∀ k, i < k → k < j → ¬ Stops (t.total weight (i + 1) (k + 1)) (t.get k)

/-- What the search does at one token. -/
theorem isLastFor_succ : isLastFor t (n + 1) i depth =
    if depth + weight (t.get i) < 0 then .ok true
    else if depth + weight (t.get i) = 0 ∧ (t.get i).subscriptStart?.isSome then .ok false
    else isLastFor t n (i + 1) (depth + weight (t.get i)) := rfl

theorem isLastFor_eq_ok_iff : isLastFor t n i depth = .ok b ↔ ∃ j, i ≤ j ∧ j < i + n ∧
    Stops (depth + t.total weight i (j + 1)) (t.get j) ∧
    (∀ k, i ≤ k → k < j → ¬ Stops (depth + t.total weight i (k + 1)) (t.get k)) ∧
    b = decide (depth + t.total weight i (j + 1) < 0) := by
  induction n generalizing i depth with
  | zero =>
    refine iff_of_false (fun h => by cases h) ?_
    rintro ⟨j, hle, hlt, -⟩
    omega
  | succ n ih =>
    have hhere (h : Stops (depth + weight (t.get i)) (t.get i)) : (∃ j, i ≤ j ∧ j < i + (n + 1) ∧
        Stops (depth + t.total weight i (j + 1)) (t.get j) ∧
        (∀ k, i ≤ k → k < j → ¬ Stops (depth + t.total weight i (k + 1)) (t.get k)) ∧
        b = decide (depth + t.total weight i (j + 1) < 0)) ↔ b = decide (depth + weight (t.get i) < 0) := by
      rw [← t.total_single weight i] at h ⊢
      constructor
      · rintro ⟨j, hle, -, -, hnone, rfl⟩
        obtain rfl | hlt := Nat.eq_or_lt_of_le hle
        · rfl
        · exact absurd h (hnone i (Nat.le_refl i) hlt)
      · rintro rfl
        exact ⟨i, Nat.le_refl i, by omega, h, fun k hk hlt => absurd hlt (Nat.not_lt.2 hk), rfl⟩
    rw [isLastFor_succ]
    split
    next hleft =>
      rw [hhere (.inl hleft), decide_eq_true hleft]
      exact ⟨fun h => by cases h; rfl, fun h => by rw [h]⟩
    next hstays =>
      split
      next hfound =>
        rw [hhere (.inr hfound), decide_eq_false hstays]
        exact ⟨fun h => by cases h; rfl, fun h => by rw [h]⟩
      next hpass =>
        have hshift {j : Nat} (h : i ≤ j) : depth + weight (t.get i) + t.total weight (i + 1) (j + 1) =
            depth + t.total weight i (j + 1) := by
          rw [Tape.total_head (Nat.lt_succ_of_le h), Int.add_assoc]
        have hgoes : ¬ Stops (depth + t.total weight i (i + 1)) (t.get i) := by
          rw [Tape.total_single]
          exact not_or.2 ⟨hstays, hpass⟩
        rw [ih]
        refine exists_congr fun j => ⟨?_, ?_⟩
        · rintro ⟨hle, hlt, hstops, hnone, rfl⟩
          rw [hshift (by omega)] at hstops ⊢
          refine ⟨by omega, by omega, hstops, fun k hk hkj => ?_, rfl⟩
          obtain rfl | hik := Nat.eq_or_lt_of_le hk
          · exact hgoes
          · rw [← hshift hk]
            exact hnone k hik hkj
        · rintro ⟨hle, hlt, hstops, hnone, rfl⟩
          obtain rfl | hij := Nat.eq_or_lt_of_le hle
          · exact absurd hstops hgoes
          · refine ⟨hij, by omega, by rwa [hshift hle], fun k hk hkj => ?_, by rw [hshift hle]⟩
            rw [hshift (by omega)]
            exact hnone k (by omega) hkj

/-- The search stops at a token before an index, and at none behind it. -/
def StopsBefore (t : Tape) (i j : Nat) : Prop :=
  j < i ∧ Stops (-t.total weight j i) (t.get j) ∧ ∀ k, j < k → k < i → ¬ Stops (-t.total weight k i) (t.get k)

theorem followsSuperFrom_succ : followsSuperFrom t (i + 1) depth =
    if depth - weight (t.get i) < 0 then .ok false
    else if depth - weight (t.get i) = 0 ∧ (t.get i).subscriptStart?.isSome then
      .ok (decide (0 < i) && (t.before i).kind == .superWord)
    else followsSuperFrom t i (depth - weight (t.get i)) := rfl

/-- What the search answers at the token at which it stops. -/
def superAnswer (t : Tape) (j : Nat) (level : Int) : Bool :=
  decide (0 ≤ level) && (decide (0 < j) && (t.before j).kind == .superWord)

theorem followsSuperFrom_eq_ok_iff : followsSuperFrom t i depth = .ok b ↔ ∃ j, j < i ∧
    Stops (depth - t.total weight j i) (t.get j) ∧
    (∀ k, j < k → k < i → ¬ Stops (depth - t.total weight k i) (t.get k)) ∧
    b = superAnswer t j (depth - t.total weight j i) := by
  induction i generalizing depth with
  | zero =>
    refine iff_of_false (fun h => by cases h) ?_
    rintro ⟨j, hlt, -⟩
    omega
  | succ i ih =>
    have hhere (h : Stops (depth - weight (t.get i)) (t.get i)) : (∃ j, j < i + 1 ∧
        Stops (depth - t.total weight j (i + 1)) (t.get j) ∧
        (∀ k, j < k → k < i + 1 → ¬ Stops (depth - t.total weight k (i + 1)) (t.get k)) ∧
        b = superAnswer t j (depth - t.total weight j (i + 1))) ↔
          b = superAnswer t i (depth - weight (t.get i)) := by
      rw [← t.total_single weight i] at h ⊢
      constructor
      · rintro ⟨j, hlt, -, hnone, rfl⟩
        obtain rfl | hne := Nat.eq_or_lt_of_le (Nat.le_of_lt_succ hlt)
        · rfl
        · exact absurd h (hnone i hne (Nat.lt_succ_self i))
      · rintro rfl
        exact ⟨i, Nat.lt_succ_self i, h, fun k hk hlt => absurd hk (by omega), rfl⟩
    rw [followsSuperFrom_succ]
    split
    next hleft =>
      rw [hhere (.inl hleft), superAnswer, decide_eq_false (Int.not_le.2 hleft), Bool.false_and]
      exact ⟨fun h => by cases h; rfl, fun h => by rw [h]⟩
    next hstays =>
      split
      next hfound =>
        rw [hhere (.inr hfound), superAnswer, decide_eq_true (Int.not_lt.1 hstays), Bool.true_and]
        exact ⟨fun h => by cases h; rfl, fun h => by rw [h]⟩
      next hpass =>
        have hshift {j : Nat} (h : j ≤ i) : depth - weight (t.get i) - t.total weight j i =
            depth - t.total weight j (i + 1) := by
          rw [Tape.total_last h]
          omega
        have hgoes : ¬ Stops (depth - t.total weight i (i + 1)) (t.get i) := by
          rw [Tape.total_single]
          exact not_or.2 ⟨hstays, hpass⟩
        rw [ih]
        refine exists_congr fun j => ⟨?_, ?_⟩
        · rintro ⟨hlt, hstops, hnone, rfl⟩
          rw [hshift (by omega)] at hstops ⊢
          refine ⟨by omega, hstops, fun k hk hki => ?_, rfl⟩
          obtain rfl | hne := Nat.eq_or_lt_of_le (Nat.le_of_lt_succ hki)
          · exact hgoes
          · rw [← hshift (by omega)]
            exact hnone k hk hne
        · rintro ⟨hlt, hstops, hnone, rfl⟩
          obtain rfl | hne := Nat.eq_or_lt_of_le (Nat.le_of_lt_succ hlt)
          · exact absurd hstops hgoes
          · refine ⟨hne, by rwa [hshift (by omega)], fun k hk hki => ?_, by rw [hshift (by omega)]⟩
            rw [hshift (by omega)]
            exact hnone k hk (by omega)

end Emit.Chain

end PlainScript
