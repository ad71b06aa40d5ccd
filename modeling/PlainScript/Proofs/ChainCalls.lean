import PlainScript.Proofs.NullishBalance

/-!
# Calls for optional chains

The call for a chain is opened before the token that is marked as the start of the chain and closed
behind the one that is marked as its end, once for each mark. The parser sets the two marks in different
rules, and behind `new` it sets the first without the second, so the calls in the output are balanced if
and only if the marks are.
-/

namespace PlainScript

namespace AnnotatedFile

/-- The number of chains that start at the first tokens of a file. -/
def chainStarts (f : AnnotatedFile) (n : Nat) : Nat := (f.tokens.toList.take n).countP (·.isChainStart)

/-- The number of chains that end there. -/
def chainEnds (f : AnnotatedFile) (n : Nat) : Nat := (f.tokens.toList.take n).countP (·.isChainEnd)

/-- No chain starts or ends at the end of the text. -/
theorem chainMarks_back {s : Source} {d : Dialect} {f : AnnotatedFile} (h : ofSource s d = .ok f)
    (t : Token) (ht : f.tokens.back? = some t) : t.isChainStart = false ∧ t.isChainEnd = false := by
  obtain ⟨σ, τ, env, -, -, -, -, ⟨υ, -, -, hnext⟩, hf⟩ := Grammar.exists_composed_of_ofSource h
  have htokens : τ.tokens = υ.tokens.push
      { toLexeme := υ.current, scopeDepth := υ.scopeDepth, isType := υ.isType } :=
    congrArg Prod.fst (Grammar.Parse.readCode_record hnext)
  rw [hf, htokens, Array.back?_push] at ht
  cases ht
  exact ⟨rfl, rfl⟩

end AnnotatedFile

namespace Emit

variable {text code : String} {o : Options} {p : Prepared} {f : AnnotatedFile} {s : Setting} {i : Nat}

/-- A call for a chain is opened where a chain starts, unless recent syntax stays. -/
theorem chainCall_mem_opening : s.chainCall i ∈ s.opening i ↔
    s.options.disableESTransforms = false ∧ (s.tape.get i).isChainStart = true := by
  have hne : s.chainCall i ≠ s.nullishCall i := by
    intro h
    have hlast := congrArg (fun c : String => c.toList.getLast?) h
    simp [Setting.chainCall, Setting.nullishCall, Setting.callCode] at hlast
  simp [Setting.opening, List.mem_replicate, hne]

/-- It is closed where a chain ends. -/
theorem brackets_mem_closing : "])" ∈ s.closing i ↔
    s.options.disableESTransforms = false ∧ (s.tape.get i).isChainEnd = true := by
  simp [Setting.closing, List.mem_replicate]

/-- The number of calls for chains that are opened at the first tokens. -/
def Setting.chainsOpened (s : Setting) (n : Nat) : Nat :=
  (List.range n).countP fun i => s.chainCall i ∈ s.opening i

/-- The number of calls for chains that are closed there. -/
def Setting.chainsClosed (s : Setting) (n : Nat) : Nat :=
  (List.range n).countP fun i => "])" ∈ s.closing i

theorem countP_eq_sum {α : Type} (q : α → Bool) (l : List α) :
    l.countP q = (l.map fun a => (q a).toNat).sum := by
  induction l with
  | nil => rfl
  | cons a l ih => cases h : q a <;> simp [h, ih, Nat.add_comm]

/-- What holds of tokens is counted alike before and after preparation. -/
theorem IsPrepared.countP_get {q : Token → Bool} (hp : IsPrepared text o p f)
    (hmarks : ∀ t, q (Shadowing.unmarked t) = q t)
    (hback : ∀ t, f.tokens.back? = some t → q t = false)
    (hend : q p.setting.tape.endToken = false) (n : Nat) :
    (List.range n).countP (fun i => q (p.setting.tape.get i)) = (f.tokens.toList.take n).countP q := by
  rw [countP_eq_sum, countP_eq_sum]
  exact hp.sum_get (g := fun t => (q t).toNat) (fun t => by rw [hmarks])
    (fun t ht => by rw [hback t ht]; rfl) (by rw [hend]; rfl) n

theorem chainsOpened_eq (hp : IsPrepared text o p f) (hrecent : o.disableESTransforms = false) (n : Nat) :
    p.setting.chainsOpened n = f.chainStarts n := by
  unfold Setting.chainsOpened
  simp only [chainCall_mem_opening, hp.options, hrecent, true_and, Bool.decide_eq_true]
  exact hp.countP_get (fun _ => rfl) (fun t ht => (AnnotatedFile.chainMarks_back hp.parsed t ht).1) rfl n

theorem chainsClosed_eq (hp : IsPrepared text o p f) (hrecent : o.disableESTransforms = false) (n : Nat) :
    p.setting.chainsClosed n = f.chainEnds n := by
  unfold Setting.chainsClosed
  simp only [brackets_mem_closing, hp.options, hrecent, true_and, Bool.decide_eq_true]
  exact hp.countP_get (fun _ => rfl) (fun t ht => (AnnotatedFile.chainMarks_back hp.parsed t ht).2) rfl n

end Emit

end PlainScript
