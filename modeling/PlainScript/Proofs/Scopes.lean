import PlainScript.Proofs.Tiling

/-!
# Scopes are nested

Scopes are recorded when they are closed. A scope covers the tokens from a state that has been passed up
to the current one, so those that were closed in between lie inside it and those that were closed
before lie before it. Going back to an earlier state drops exactly the scopes closed since. The
scopes of a file are therefore a nested family, listed in the order in which they close, and the last of
them is the whole file.
-/

namespace PlainScript.Grammar

open Parse

variable {s : Source} {d : Dialect} {σ τ υ : State}

/-- Scopes between two token indices, in the order in which they close: before each of them stand those
that stop where it starts or earlier, and then those inside it. -/
inductive Postorder : Nat → Nat → List Scope → Prop
  | nil (lo : Nat) : Postorder lo lo []
  | read {lo hi hi' : Nat} {scopes : List Scope} : Postorder lo hi scopes → hi ≤ hi' →
      Postorder lo hi' scopes
  | close {lo start stop : Nat} {before inside : List Scope} (isFunction : Bool) :
      Postorder lo start before → Postorder start stop inside → start < stop →
      Postorder lo stop (before ++ inside ++ [⟨start, stop, isFunction⟩])

namespace Postorder

variable {lo hi : Nat} {scopes : List Scope}

theorem le (h : Postorder lo hi scopes) : lo ≤ hi := by
  induction h with
  | nil => exact Nat.le_refl _
  | read _ hle ih => exact Nat.le_trans ih hle
  | close _ _ _ _ hbefore hinside => exact Nat.le_trans hbefore hinside

/-- Every scope lies between the two indices and has at least one token. -/
theorem bounds (h : Postorder lo hi scopes) :
    ∀ x ∈ scopes, lo ≤ x.start ∧ x.start < x.stop ∧ x.stop ≤ hi := by
  induction h with
  | nil => simp
  | read _ hle ih =>
    intro x hx
    obtain ⟨hlo, hlt, hhi⟩ := ih x hx
    exact ⟨hlo, hlt, Nat.le_trans hhi hle⟩
  | close _ hbefore hinside hlt ihBefore ihInside =>
    have hlo := hbefore.le
    have hhi := hinside.le
    intro x hx
    simp only [List.mem_append, List.mem_singleton] at hx
    rcases hx with (hx | hx) | rfl
    · obtain ⟨hx₁, hx₂, hx₃⟩ := ihBefore x hx
      exact ⟨hx₁, hx₂, by omega⟩
    · obtain ⟨hx₁, hx₂, hx₃⟩ := ihInside x hx
      exact ⟨by omega, hx₂, hx₃⟩
    · exact ⟨hlo, hlt, Nat.le_refl _⟩

/-- Of two scopes, the one that comes first stops before the other starts or lies inside it. -/
theorem pairwise (h : Postorder lo hi scopes) :
    scopes.Pairwise fun x y => x.stop ≤ y.stop ∧ (x.stop ≤ y.start ∨ y.start ≤ x.start) := by
  induction h with
  | nil => exact .nil
  | read _ _ ih => exact ih
  | close _ hbefore hinside hlt ihBefore ihInside =>
    rw [List.append_assoc, List.pairwise_append]
    refine ⟨ihBefore, ?_, ?_⟩
    · refine List.pairwise_append.2 ⟨ihInside, List.pairwise_singleton _ _, ?_⟩
      intro x hx y hy
      cases List.mem_singleton.1 hy
      obtain ⟨hstart, _, hstop⟩ := hinside.bounds x hx
      exact ⟨hstop, .inr hstart⟩
    · -- What was closed before the scope starts lies before it and before all that is inside.
      intro x hx y hy
      have hx := hbefore.bounds x hx
      rcases List.mem_append.1 hy with hy | hy
      · have hy := hinside.bounds y hy
        exact ⟨by omega, .inl (by omega)⟩
      · cases List.mem_singleton.1 hy
        exact ⟨Nat.le_trans hx.2.2 (Nat.le_of_lt hlt), .inl hx.2.2⟩

end Postorder

/-! ## What a walk records -/

/-- Scopes are only added, and if there is no error those that were added are nested. -/
structure Nests (σ τ : State) : Prop where
  kept : σ.scopes.toList <+: τ.scopes.toList
  added : τ.error? = none → ∃ scopes, τ.scopes.toList = σ.scopes.toList ++ scopes ∧
    Postorder σ.tokens.size τ.tokens.size scopes

theorem Nests.read (h : Nests σ τ) (hscopes : υ.scopes = τ.scopes) (hgrows : τ.Grows υ) :
    Nests σ υ where
  kept := hscopes ▸ h.kept
  added hnone := by
    obtain ⟨scopes, heq, horder⟩ := h.added (hgrows.error hnone)
    exact ⟨scopes, hscopes ▸ heq, horder.read hgrows.size⟩

/-- A scope is closed that starts in a state between the two. -/
theorem Nests.close {isFunction : Bool} (hστ : Nests σ τ) (hτυ : Nests τ υ) (hgrows : τ.Grows υ)
    (hlt : υ.error? = none → τ.tokens.size < υ.tokens.size) :
    Nests σ (υ.addScope τ.tokens.size isFunction) where
  kept := by
    have hkept := hστ.kept.trans hτυ.kept
    simp only [State.addScope, Array.toList_push]
    exact hkept.trans (List.prefix_append _ _)
  added hnone := by
    obtain ⟨before, hbefore, horder⟩ := hστ.added (hgrows.error hnone)
    obtain ⟨inside, hinside, horder'⟩ := hτυ.added hnone
    change ∃ scopes, _ ∧ Postorder σ.tokens.size υ.tokens.size scopes
    refine ⟨_, ?_, horder.close isFunction horder' (hlt hnone)⟩
    simp only [State.addScope, Array.toList_push, hinside, hbefore, List.append_assoc]

/-- Going back drops the scopes that were closed since. -/
theorem Nests.scopes_restore (h : Nests τ υ) : (υ.restore τ.snapshot).scopes = τ.scopes := by
  have htake := List.prefix_iff_eq_take.1 h.kept
  apply Array.toList_inj.1
  simp only [State.restore, State.snapshot, Array.toList_shrink]
  rw [htake]
  simp

theorem Reaches.nests (h : Reaches s d σ τ) : Nests σ τ := by
  induction h with
  | stay σ => exact ⟨List.prefix_rfl, fun _ => ⟨[], by simp, .nil _⟩⟩
  | act a _ hreach hrun ih =>
    have htakes := a.takes hrun
    exact ih.read htakes.scopes htakes.grows
  | annotate _ hsame ih => exact ih.read hsame.scopes hsame.toSameLexemes.grows
  | close _ _ hinside hlt ih ihInside => exact ih.close ihInside hinside.grows hlt
  | retreat _ hback ih ihBack =>
    refine ih.read ihBack.scopes_restore ⟨?_, id⟩
    exact Nat.le_of_eq hback.grows.size_restore.symm

theorem Reaches.rhsEndsFollow (h : Reaches s d σ τ) (hσ : σ.RhsEndsFollow) : τ.RhsEndsFollow := by
  induction h with
  | stay σ => exact hσ
  | act a _ _ hrun ih =>
    refine (ih hσ).of_tokens fun i t ht => ?_
    rcases (a.takes hrun).tokens with htokens | ⟨lexeme, depth, isType, htokens⟩
    · exact .inl ⟨t, htokens ▸ ht, rfl⟩
    · rw [htokens, Array.getElem?_push] at ht
      split at ht
      · -- A new token has no right-hand side.
        cases ht
        exact .inr fun e he => by cases he
      · exact .inl ⟨t, ht, rfl⟩
  | annotate _ hsame ih => exact hsame.rhsEnds (ih hσ)
  | close _ _ _ _ ih ihInside => exact (ihInside (ih hσ)).of_tokens fun i t ht => .inl ⟨t, ht, rfl⟩
  | retreat _ _ ih ihBack =>
    refine (ihBack (ih hσ)).of_tokens fun i t ht => .inl ⟨t, ?_, rfl⟩
    simp only [State.restore, ← Array.getElem?_toList, Array.toList_shrink, List.getElem?_take] at ht ⊢
    split at ht
    · exact ht
    · cases ht

/-! ## Whole files -/

/-- What a file is made of: the tokens of a state that is reached after the first lexeme has been read,
and its scopes with one for the whole file. -/
theorem exists_reaches_of_ofSource {f : AnnotatedFile} (h : AnnotatedFile.ofSource s d = .ok f) :
    ∃ σ τ, σ.tokens = #[] ∧ σ.scopes = #[] ∧ Reaches s d σ τ ∧ τ.error? = none ∧
      0 < τ.tokens.size ∧ f = ⟨τ.tokens, (τ.addScope 0 true).scopes⟩ := by
  rw [AnnotatedFile.ofSource] at h
  split at h
  case isTrue => cases h
  case isFalse =>
    split at h
    case h_1 => cases h
    case h_2 final hparse =>
      split at h
      case h_1 => cases h
      case h_2 hnone =>
        cases h
        obtain ⟨_, hfile⟩ := file_of_parse hparse
        obtain ⟨_, σ, hread, hrest⟩ := bind_ok hfile
        obtain ⟨_, τ, hbody, hscope⟩ := bind_ok hrest
        cases hscope
        have hrecord := readCode_record hread
        obtain ⟨υ, _, _, hnext⟩ := loopUntilEaten_ok (meet_walks s d _) hbody hnone
        have hpos := Consumes.lt (meet_walks s d _) hnext hnone
        exact ⟨σ, τ, congrArg Prod.fst hrecord, congrArg (·.2.1) hrecord,
          Walks.reaches (meet_walks s d _) (.stay σ) hbody, hnone, by omega, rfl⟩

end PlainScript.Grammar

namespace PlainScript.AnnotatedFile

open Grammar

/-- The scopes are a nested family, listed in the order in which they close. -/
structure Nested (f : AnnotatedFile) : Prop where
  /-- A scope has at least one token. -/
  bounds : ∀ x ∈ f.scopes, x.start < x.stop ∧ x.stop ≤ f.tokens.size
  ordered : f.scopes.toList.Pairwise fun x y => x.stop ≤ y.stop
  /-- Two scopes have no token in common, or the later one contains the earlier one. -/
  nested : f.scopes.toList.Pairwise fun x y =>
    x.stop ≤ y.start ∨ (y.start ≤ x.start ∧ x.stop ≤ y.stop)
  last : f.scopes.back? = some ⟨0, f.tokens.size, true⟩

/-- The scopes of every file are nested. -/
theorem nested_of_ofSource {s : Source} {d : Dialect} {f : AnnotatedFile}
    (h : ofSource s d = .ok f) : f.Nested := by
  obtain ⟨σ, τ, htokens, hscopes, hreach, hnone, hpos, rfl⟩ := exists_reaches_of_ofSource h
  obtain ⟨scopes, heq, horder⟩ := hreach.nests.added hnone
  have hall : (τ.addScope 0 true).scopes.toList = scopes ++ [⟨0, τ.tokens.size, true⟩] := by
    simp [State.addScope, heq, hscopes]
  have hfile : Postorder 0 τ.tokens.size ((τ.addScope 0 true).scopes.toList) := by
    rw [hall]
    simp only [htokens, Array.size_empty] at horder
    exact (Postorder.nil 0).close true horder hpos
  have hpairwise := hfile.pairwise
  constructor
  · intro x hx
    obtain ⟨_, hlt, hle⟩ := hfile.bounds x (Array.mem_toList_iff.2 hx)
    exact ⟨hlt, hle⟩
  · exact hpairwise.imp fun h => h.1
  · exact hpairwise.imp fun h => h.2.imp_right fun hstart => ⟨hstart, h.1⟩
  · simp [State.addScope]

/-- An arrow function whose parameters are first read as an expression, a binding of `catch` and a
function with a scope for its name. -/
theorem nested_of_ofSource_catch :
    ∃ s f, s.text = "try\x7b(a)=>b\x7dcatch(e)\x7b(function f()\x7b\x7d)\x7d" ∧ ofSource s {} = .ok f ∧
      f.scopes = #[⟨2, 7, true⟩, ⟨1, 8, false⟩, ⟨18, 20, true⟩, ⟨16, 20, true⟩, ⟨15, 20, true⟩,
        ⟨12, 22, false⟩, ⟨9, 22, false⟩, ⟨0, 23, true⟩] ∧
      f.Nested := by
  let s := Source.ofText "try\x7b(a)=>b\x7dcatch(e)\x7b(function f()\x7b\x7d)\x7d"
  have hscopes : ((ofSource s {}).toOption.map (·.scopes)) = some
      #[⟨2, 7, true⟩, ⟨1, 8, false⟩, ⟨18, 20, true⟩, ⟨16, 20, true⟩, ⟨15, 20, true⟩,
        ⟨12, 22, false⟩, ⟨9, 22, false⟩, ⟨0, 23, true⟩] := by
    decide +kernel
  cases hfile : ofSource s {} with
  | error e =>
    rw [hfile] at hscopes
    cases hscopes
  | ok f =>
    rw [hfile] at hscopes
    exact ⟨s, f, rfl, hfile, Option.some.inj hscopes, nested_of_ofSource hfile⟩

end PlainScript.AnnotatedFile
