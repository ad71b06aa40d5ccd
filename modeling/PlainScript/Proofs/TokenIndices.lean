import PlainScript.Proofs.StatementRulesCompose

/-!
# Indices recorded on tokens

A right-hand side ends behind the token that it is recorded on and within the file. A subscript and a
`??` belong to an expression that starts before them. Right-hand sides nest: of two of them, the first
ends before the other token, or the second ends within it.
-/

namespace PlainScript.Grammar

variable {s : Source} {d : Dialect} {σ τ υ : State} {own : Nat}

/-- What the indices recorded behind `σ` refer to. -/
structure Indexed (σ τ : State) : Prop where
  rhsEnd (i : Nat) (e : Entry) (stop : Nat) : σ.tokens.size ≤ i → τ.entries[i]? = some e →
    e.rhsEnd? = some stop → i < stop ∧ stop ≤ τ.tokens.size
  subscript (i : Nat) (e : Entry) (start : Nat) : σ.tokens.size ≤ i → τ.entries[i]? = some e →
    e.subscriptStart? = some start → start < i
  nullish (i : Nat) (e : Entry) (start : Nat) : σ.tokens.size ≤ i → τ.entries[i]? = some e →
    e.nullishStart? = some start → start < i
  nested (i j : Nat) (e e' : Entry) (stop stop' : Nat) : σ.tokens.size ≤ i → i < j →
    τ.entries[i]? = some e → τ.entries[j]? = some e' → e.rhsEnd? = some stop →
    e'.rhsEnd? = some stop' → stop ≤ j ∨ stop' ≤ stop

namespace Indexed

theorem of_entries (h : Indexed σ τ) (hsize : τ.tokens.size ≤ υ.tokens.size)
    (hold : ∀ (i : Nat) (e : Entry), σ.tokens.size ≤ i → υ.entries[i]? = some e →
      (e.rhsEnd? = none ∨ ∃ e', τ.entries[i]? = some e' ∧ e'.rhsEnd? = e.rhsEnd?) ∧
        (∀ start, e.subscriptStart? = some start → start < i) ∧
        ∀ start, e.nullishStart? = some start → start < i) :
    Indexed σ υ where
  rhsEnd i e stop hi he hstop := by
    rcases (hold i e hi he).1 with hnone | ⟨e', he', hsame⟩
    · rw [hnone] at hstop
      cases hstop
    · obtain ⟨hlt, hle⟩ := h.rhsEnd i e' stop hi he' (hsame.trans hstop)
      exact ⟨hlt, Nat.le_trans hle hsize⟩
  subscript i e start hi he := (hold i e hi he).2.1 start
  nullish i e start hi he := (hold i e hi he).2.2 start
  nested i j e e' stop stop' hi hij he he' hstop hstop' := by
    rcases (hold i e hi he).1 with hnone | ⟨a, ha, hsame⟩
    · rw [hnone] at hstop
      cases hstop
    rcases (hold j e' (Nat.le_trans hi (Nat.le_of_lt hij)) he').1 with hnone | ⟨a', ha', hsame'⟩
    · rw [hnone] at hstop'
      cases hstop'
    exact h.nested i j a a' stop stop' hi hij ha ha' (hsame.trans hstop) (hsame'.trans hstop')

theorem refl (σ : State) : Indexed σ σ := by
  have hnone (i : Nat) (e : Entry) (hi : σ.tokens.size ≤ i) (he : σ.entries[i]? = some e) : False := by
    have hlt := (List.getElem?_eq_some_iff.1 he).1
    rw [State.length_entries] at hlt
    omega
  exact ⟨fun i e _ hi he => (hnone i e hi he).elim, fun i e _ hi he => (hnone i e hi he).elim,
    fun i e _ hi he => (hnone i e hi he).elim, fun i _ e _ _ _ hi _ he => (hnone i e hi he).elim⟩

theorem note (h : Indexed σ τ) (hnote : τ.Notes υ) : Indexed σ υ := by
  refine h.of_entries (Nat.le_of_eq hnote.size_eq.symm) fun i e hi he => ?_
  rw [hnote.entries] at he
  exact ⟨.inr ⟨e, he, rfl⟩, fun start => h.subscript i e start hi he,
    fun start => h.nullish i e start hi he⟩

theorem take (h : Indexed σ τ) (htakes : Takes τ υ) : Indexed σ υ := by
  refine h.of_entries htakes.toExtends.size_le fun i e hi he => ?_
  have hold : τ.entries[i]? = some e ∨
      (e.rhsEnd? = none ∧ e.subscriptStart? = none ∧ e.nullishStart? = none) := by
    rcases htakes.tokens with htokens | ⟨l, depth, isType, htokens⟩
    · exact .inl (State.entries_of_tokens htokens ▸ he)
    · rcases State.entry_push (State.entries_push htokens) he with hold | ⟨-, rfl⟩
      · exact .inl hold
      · exact .inr ⟨rfl, rfl, rfl⟩
  rcases hold with hold | ⟨hrhs, hsubscript, hnullish⟩
  · exact ⟨.inr ⟨e, hold, rfl⟩, fun start => h.subscript i e start hi hold,
      fun start => h.nullish i e start hi hold⟩
  · simp [hrhs, hsubscript, hnullish]

/-- What is recorded on a token refers to tokens before it. -/
theorem annotate (h : Indexed σ τ) (i : Nat) {f : Token → Token}
    (hrhs : ∀ t, (f t).rhsEnd? = t.rhsEnd?)
    (hsubscript : ∀ t start, (f t).subscriptStart? = some start →
      t.subscriptStart? = some start ∨ start < i)
    (hnullish : ∀ t start, (f t).nullishStart? = some start →
      t.nullishStart? = some start ∨ start < i) :
    Indexed σ (τ.modifyToken i f) := by
  refine h.of_entries (Nat.le_of_eq (State.size_modifyToken ..).symm) fun k e hk he => ?_
  rcases State.entry_modifyToken he with ⟨rfl, t, ht, rfl⟩ | ⟨-, hold⟩
  · have hentry : τ.entries[k]? = some t.entry := by
      rw [State.getElem?_entries, ht]
      rfl
    refine ⟨.inr ⟨t.entry, hentry, (hrhs t).symm⟩, fun start hstart => ?_, fun start hstart => ?_⟩
    · rcases hsubscript t start hstart with hsame | hlt
      · exact h.subscript k t.entry start hk hentry hsame
      · exact hlt
    · rcases hnullish t start hstart with hsame | hlt
      · exact h.nullish k t.entry start hk hentry hsame
      · exact hlt
  · exact ⟨.inr ⟨e, hold, rfl⟩, fun start => h.subscript k e start hk hold,
      fun start => h.nullish k e start hk hold⟩

theorem annotatePlain (h : Indexed σ τ) (i : Nat) {f : Token → Token}
    (hrhs : ∀ t, (f t).rhsEnd? = t.rhsEnd?) (hsubscript : ∀ t, (f t).subscriptStart? = t.subscriptStart?)
    (hnullish : ∀ t, (f t).nullishStart? = t.nullishStart?) : Indexed σ (τ.modifyToken i f) :=
  h.annotate i hrhs (fun t _ hstart => .inl ((hsubscript t).symm.trans hstart))
    fun t _ hstart => .inl ((hnullish t).symm.trans hstart)

theorem trans (hστ : Indexed σ τ) (hτυ : Indexed τ υ) (hext : τ.Extends υ) : Indexed σ υ where
  rhsEnd i e stop hi he hstop := by
    rcases Nat.lt_or_ge i τ.tokens.size with hlt | hge
    · rw [hext.getElem? hlt] at he
      obtain ⟨hlt', hle⟩ := hστ.rhsEnd i e stop hi he hstop
      exact ⟨hlt', Nat.le_trans hle hext.size_le⟩
    · exact hτυ.rhsEnd i e stop hge he hstop
  subscript i e start hi he := by
    rcases Nat.lt_or_ge i τ.tokens.size with hlt | hge
    · rw [hext.getElem? hlt] at he
      exact hστ.subscript i e start hi he
    · exact hτυ.subscript i e start hge he
  nullish i e start hi he := by
    rcases Nat.lt_or_ge i τ.tokens.size with hlt | hge
    · rw [hext.getElem? hlt] at he
      exact hστ.nullish i e start hi he
    · exact hτυ.nullish i e start hge he
  nested i j e e' stop stop' hi hij he he' hstop hstop' := by
    rcases Nat.lt_or_ge i τ.tokens.size with hlt | hge
    · rw [hext.getElem? hlt] at he
      rcases Nat.lt_or_ge j τ.tokens.size with hlt' | hge'
      · rw [hext.getElem? hlt'] at he'
        exact hστ.nested i j e e' stop stop' hi hij he he' hstop hstop'
      · exact .inl (Nat.le_trans (hστ.rhsEnd i e stop hi he hstop).2 hge')
    · exact hτυ.nested i j e e' stop stop' hge hij he he' hstop hstop'

/-- A right-hand side that ends here, around all that is recorded behind its token. -/
theorem assign (hστ : Indexed σ τ) (hτυ : Indexed τ υ) (hext : τ.Extends υ)
    (hsize : τ.tokens.size < υ.tokens.size) :
    Indexed σ (υ.modifyToken τ.tokens.size (.assignedUpTo υ.tokens.size)) := by
  have hwhole := hστ.trans hτυ hext
  -- The right-hand side of an entry is the one of the token itself, or it was recorded before.
  have hold (k : Nat) (e : Entry)
      (he : (υ.modifyToken τ.tokens.size (.assignedUpTo υ.tokens.size)).entries[k]? = some e) :
      ∃ e', υ.entries[k]? = some e' ∧ e.subscriptStart? = e'.subscriptStart? ∧
        e.nullishStart? = e'.nullishStart? ∧ ((k = τ.tokens.size ∧ e.rhsEnd? = some υ.tokens.size) ∨
          (k ≠ τ.tokens.size ∧ e.rhsEnd? = e'.rhsEnd?)) := by
    rcases State.entry_modifyToken he with ⟨rfl, t, ht, rfl⟩ | ⟨hk, hold⟩
    · refine ⟨t.entry, ?_, rfl, rfl, .inl ⟨rfl, rfl⟩⟩
      rw [State.getElem?_entries, ht]
      rfl
    · exact ⟨e, hold, rfl, rfl, .inr ⟨hk, rfl⟩⟩
  constructor
  case rhsEnd =>
    intro k e stop hk he hstop
    rw [State.size_modifyToken]
    obtain ⟨e', he', -, -, ⟨rfl, hnew⟩ | ⟨-, hsame⟩⟩ := hold k e he
    · cases hnew.symm.trans hstop
      exact ⟨hsize, Nat.le_refl _⟩
    · exact hwhole.rhsEnd k e' stop hk he' (hsame.symm.trans hstop)
  case subscript =>
    intro k e start hk he hstart
    obtain ⟨e', he', hsame, -⟩ := hold k e he
    exact hwhole.subscript k e' start hk he' (hsame.symm.trans hstart)
  case nullish =>
    intro k e start hk he hstart
    obtain ⟨e', he', -, hsame, -⟩ := hold k e he
    exact hwhole.nullish k e' start hk he' (hsame.symm.trans hstart)
  case nested =>
    intro i j e e' stop stop' hi hij he he' hstop hstop'
    obtain ⟨a, ha, -, -, hfirst⟩ := hold i e he
    obtain ⟨a', ha', -, -, hsecond⟩ := hold j e' he'
    rcases hfirst with ⟨rfl, hnew⟩ | ⟨hne, hsame⟩
    · -- Whatever comes behind the token ends within its right-hand side.
      cases hnew.symm.trans hstop
      rcases hsecond with ⟨rfl, -⟩ | ⟨-, hsame'⟩
      · omega
      · exact .inr (hτυ.rhsEnd j a' stop' (Nat.le_of_lt hij) ha' (hsame'.symm.trans hstop')).2
    · rcases hsecond with ⟨rfl, hnew'⟩ | ⟨-, hsame'⟩
      · rw [hext.getElem? hij] at ha
        exact .inl (hστ.rhsEnd i a stop hi ha (hsame.symm.trans hstop)).2
      · exact hwhole.nested i j a a' stop stop' hi hij ha ha' (hsame.symm.trans hstop)
          (hsame'.symm.trans hstop')

end Indexed

theorem invariant_indexed : Invariant Indexed where
  refl := .refl
  trans := .trans
  note := .note
  take := .take
  number i id h := h.annotatePlain i (fun _ => rfl) (fun _ => rfl) fun _ => rfl
  rekind h _ _ := h.annotatePlain _ (fun _ => rfl) (fun _ => rfl) fun _ => rfl
  subscript {_ _ start} h hstart _ := by
    refine h.annotate _ (fun _ => rfl) (fun t _ heq => .inr ?_) fun _ _ heq => .inl heq
    cases heq
    omega
  assign := .assign
  coalesce {_ σ τ υ _ start} h _ hlt _ hnext hinside hext := by
    have hoperator : Indexed σ (υ.markLast (.nullishOf start)) := by
      refine (h.take (takes_of_next hnext)).annotate _ (fun _ => rfl) (fun _ _ heq => .inl heq)
        fun t _ heq => .inr ?_
      cases heq
      rw [size_of_next hnext]
      omega
    have hwhole := hoperator.trans hinside hext
    have hopened := hwhole.annotatePlain start (f := .opensNullish) (fun _ => rfl) (fun _ => rfl)
      fun _ => rfl
    exact hopened.annotatePlain _ (fun _ => rfl) (fun _ => rfl) fun _ => rfl

end PlainScript.Grammar

namespace PlainScript.AnnotatedFile

open Grammar

/-- The indices recorded on the tokens of a file refer to tokens of the file. -/
structure WellIndexed (f : AnnotatedFile) : Prop where
  rhsEnd {i stop : Nat} {t : Token} : f.tokens[i]? = some t → t.rhsEnd? = some stop →
    i < stop ∧ stop ≤ f.tokens.size
  subscriptStart {i start : Nat} {t : Token} : f.tokens[i]? = some t →
    t.subscriptStart? = some start → start < i
  nullishStart {i start : Nat} {t : Token} : f.tokens[i]? = some t →
    t.nullishStart? = some start → start < i
  /-- Of two right-hand sides, the first ends before the other token or the second ends within it. -/
  nested {i j stop stop' : Nat} {t u : Token} : i < j → f.tokens[i]? = some t →
    f.tokens[j]? = some u → t.rhsEnd? = some stop → u.rhsEnd? = some stop' →
    stop ≤ j ∨ stop' ≤ stop

/-- The indices recorded on the tokens of every file refer to tokens of the file. -/
theorem wellIndexed_of_ofSource {s : Source} {d : Dialect} {f : AnnotatedFile}
    (h : ofSource s d = .ok f) : f.WellIndexed := by
  obtain ⟨σ, τ, -, htokens, -, hτ, hnone, -, hf⟩ := exists_composed_of_ofSource h
  have hindexed := hτ.keeps invariant_indexed hnone
  have hentry {i : Nat} {t : Token} (ht : f.tokens[i]? = some t) : τ.entries[i]? = some t.entry := by
    rw [State.getElem?_entries, ← hf, ht]
    rfl
  have hstart (i : Nat) : σ.tokens.size ≤ i := by simp [htokens]
  constructor
  · intro i stop t ht hstop
    rw [hf]
    exact hindexed.rhsEnd i t.entry stop (hstart i) (hentry ht) hstop
  · intro i start t ht hsubscript
    exact hindexed.subscript i t.entry start (hstart i) (hentry ht) hsubscript
  · intro i start t ht hnullish
    exact hindexed.nullish i t.entry start (hstart i) (hentry ht) hnullish
  · intro i j stop stop' t u hij ht hu hstop hstop'
    exact hindexed.nested i j t.entry u.entry stop stop' (hstart i) hij (hentry ht) (hentry hu) hstop
      hstop'

/-- A list pattern with a default value, a subscript and a `??`. -/
theorem wellIndexed_of_ofSource_pattern :
    ∃ s f, s.text = "let [a = b[0]] = c ?? d" ∧ ofSource s {} = .ok f ∧
      f.tokens.map (fun t => (t.rhsEnd?, t.subscriptStart?, t.nullishStart?)) =
        #[(none, none, none), (none, none, none), (none, none, none), (some 8, none, none),
          (none, none, none), (none, some 4, none), (none, none, none), (none, none, none),
          (none, none, none), (some 13, none, none), (none, none, none), (none, none, some 10),
          (none, none, none), (none, none, none)] ∧
      f.WellIndexed := by
  let s := Source.ofText "let [a = b[0]] = c ?? d"
  have hindices : ((ofSource s {}).toOption.map fun f =>
      f.tokens.map fun t => (t.rhsEnd?, t.subscriptStart?, t.nullishStart?)) = some
        #[(none, none, none), (none, none, none), (none, none, none), (some 8, none, none),
          (none, none, none), (none, some 4, none), (none, none, none), (none, none, none),
          (none, none, none), (some 13, none, none), (none, none, none), (none, none, some 10),
          (none, none, none), (none, none, none)] := by
    decide +kernel
  cases hfile : ofSource s {} with
  | error e =>
    rw [hfile] at hindices
    cases hindices
  | ok f =>
    rw [hfile] at hindices
    exact ⟨s, f, rfl, hfile, Option.some.inj hindices, wellIndexed_of_ofSource hfile⟩

end PlainScript.AnnotatedFile
