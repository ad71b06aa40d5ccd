import PlainScript.Proofs.Progress

/-!
# What a rule records about tokens

`Reaches` leaves open what is recorded on tokens. Here it is spelled out for the records that refer
to other tokens: context numbers, ends of right-hand sides, starts of subscripts and the operands of
`??`. `Entry` is that part of a token, and `Composed own σ τ` says that a rule entered in `σ` may leave
`τ` behind. The records of a class, an object, an assignment or a `??` come in pieces that belong to
one construct, so each of these has a case of its own, with what the rule does inside.

A rule entered in `σ` never touches the entries that were there before (`Composed.toExtends`). That is
why going back to a saved state is no more than a note, whatever has been recorded in between. After an
error nothing more is promised than this.

The number `own` is the one of the class or the object that the rule is in. The names of its members
carry it.
-/

namespace PlainScript

namespace TokenKind

/-- The kinds that records are paired by, the word in front of the attributes of an import, and the one
in front of a chain that is deleted. -/
@[reducible]
def isStructural : TokenKind → Bool
  | .classWord | .braceOpen | .braceClose | .nullish | .withWord | .deleteWord => true
  | _ => false

theorem ne_classWord {k : TokenKind} (h : k.isStructural = false) : k ≠ .classWord := by
  rintro rfl
  cases h

end TokenKind

/-- What is recorded on a token about other tokens, and the kind of the token. -/
structure Entry where
  kind : TokenKind
  keyword : SoftKeyword
  contextId? : Option Nat := none
  rhsEnd? : Option Nat := none
  nullishStarts : Nat := 0
  nullishEnds : Nat := 0
  subscriptStart? : Option Nat := none
  nullishStart? : Option Nat := none
deriving DecidableEq

namespace Token

/-- The entry of a token. -/
def entry (t : Token) : Entry where
  kind := t.kind
  keyword := t.keyword
  contextId? := t.contextId?
  rhsEnd? := t.rhsEnd?
  nullishStarts := t.nullishStarts
  nullishEnds := t.nullishEnds
  subscriptStart? := t.subscriptStart?
  nullishStart? := t.nullishStart?

/-! What is recorded on a token: its kind, its context number, the end of its right-hand side, the start
of the expression it is a subscript of, and its part in a `??`. -/

def ofKind (k : TokenKind) (t : Token) : Token := { t with kind := k }

def numbered (id : Nat) (t : Token) : Token := { t with contextId? := some id }

def assignedUpTo (stop : Nat) (t : Token) : Token := { t with rhsEnd? := some stop }

def subscriptOf (start : Nat) (t : Token) : Token := { t with subscriptStart? := some start }

def nullishOf (start : Nat) (t : Token) : Token := { t with nullishStart? := some start }

def opensNullish (t : Token) : Token := { t with nullishStarts := t.nullishStarts + 1 }

def closesNullish (t : Token) : Token := { t with nullishEnds := t.nullishEnds + 1 }

end Token

namespace Grammar

open Parse

/-! None of it moves a token. -/

instance (k : TokenKind) : KeepsSpan (Token.ofKind k) := ⟨fun _ => rfl, fun _ => rfl⟩

instance (id : Nat) : KeepsSpan (Token.numbered id) := ⟨fun _ => rfl, fun _ => rfl⟩

instance (stop : Nat) : KeepsSpan (Token.assignedUpTo stop) :=
  ⟨fun _ => rfl, fun _ => rfl⟩

instance (start : Nat) : KeepsSpan (Token.subscriptOf start) :=
  ⟨fun _ => rfl, fun _ => rfl⟩

instance (start : Nat) : KeepsSpan (Token.nullishOf start) :=
  ⟨fun _ => rfl, fun _ => rfl⟩

instance : KeepsSpan Token.opensNullish := ⟨fun _ => rfl, fun _ => rfl⟩

instance : KeepsSpan Token.closesNullish := ⟨fun _ => rfl, fun _ => rfl⟩

variable {s : Source} {d : Dialect} {base σ τ υ ω : State} {own : Nat}

/-! ## Entries -/

namespace State

/-- The entries of the consumed tokens. -/
def entries (σ : State) : List Entry := σ.tokens.toList.map Token.entry

/-- Annotates the last token. -/
def markLast (σ : State) (f : Token → Token) : State := σ.modifyToken (σ.tokens.size - 1) f

@[simp] theorem length_entries (σ : State) : σ.entries.length = σ.tokens.size := by
  simp [entries]

theorem getElem?_entries (σ : State) (i : Nat) : σ.entries[i]? = σ.tokens[i]?.map Token.entry := by
  simp [entries]

theorem entries_of_tokens (h : τ.tokens = σ.tokens) : τ.entries = σ.entries := by
  simp only [entries, h]

@[simp] theorem size_modifyToken (σ : State) (i : Nat) (f : Token → Token) :
    (σ.modifyToken i f).tokens.size = σ.tokens.size := by
  simp [modifyToken]

@[simp] theorem size_markLast (σ : State) (f : Token → Token) :
    (σ.markLast f).tokens.size = σ.tokens.size :=
  size_modifyToken ..

/-- An entry of an annotated state is the entry of the annotated token, or it was there before. -/
theorem entry_modifyToken {i k : Nat} {f : Token → Token} {e : Entry}
    (h : (σ.modifyToken i f).entries[k]? = some e) :
    (k = i ∧ ∃ t, σ.tokens[i]? = some t ∧ (f t).entry = e) ∨ (k ≠ i ∧ σ.entries[k]? = some e) := by
  simp only [getElem?_entries, modifyToken, Array.getElem?_modify] at h ⊢
  split at h
  case isTrue hk =>
    subst hk
    simp only [Option.map_map, Option.map_eq_some_iff] at h
    obtain ⟨t, ht, rfl⟩ := h
    exact .inl ⟨rfl, t, ht, rfl⟩
  case isFalse hk => exact .inr ⟨fun heq => hk heq.symm, h⟩

theorem entry_markLast {k : Nat} {f : Token → Token} {e : Entry}
    (h : (σ.markLast f).entries[k]? = some e) :
    (k + 1 = σ.tokens.size ∧ ∃ t, σ.tokens[k]? = some t ∧ (f t).entry = e) ∨
      (k + 1 ≠ σ.tokens.size ∧ σ.entries[k]? = some e) := by
  rcases entry_modifyToken h with ⟨rfl, t, ht, rfl⟩ | ⟨hk, hentry⟩
  · have hlt := (Array.getElem?_eq_some_iff.1 ht).1
    exact .inl ⟨by omega, t, ht, rfl⟩
  · have hlt := (List.getElem?_eq_some_iff.1 hentry).1
    rw [length_entries] at hlt
    exact .inr ⟨by omega, hentry⟩

theorem entries_modifyToken (σ : State) (i : Nat) {f : Token → Token} (g : Entry → Entry)
    (h : ∀ t, (f t).entry = g t.entry) : (σ.modifyToken i f).entries = σ.entries.modify i g := by
  apply List.ext_getElem?
  intro k
  simp only [entries, modifyToken, Array.toList_modify, List.getElem?_map, List.getElem?_modify]
  cases σ.tokens.toList[k]? with
  | none => rfl
  | some t => split <;> simp [h]

theorem entries_markTypes (σ : State) (start stop : Nat) :
    (σ.markTypes start stop).entries = σ.entries := by
  apply List.ext_getElem?
  intro k
  simp only [entries, markTypes, Array.toList_mapIdx, List.getElem?_map, List.getElem?_mapIdx]
  cases σ.tokens.toList[k]? with
  | none => rfl
  | some t => simp only [Option.map_some]; split <;> rfl

theorem entries_push {l : Lexeme} {depth : Nat} {isType : Bool}
    (h : τ.tokens = σ.tokens.push { toLexeme := l, scopeDepth := depth, isType }) :
    τ.entries = σ.entries ++ [⟨l.kind, l.keyword, none, none, 0, 0, none, none⟩] := by
  simp only [entries, h, Array.toList_push, List.map_append, List.map_cons, List.map_nil]
  rfl

theorem entry_push {a e : Entry} {i : Nat} (h : τ.entries = σ.entries ++ [a])
    (he : τ.entries[i]? = some e) : σ.entries[i]? = some e ∨ (i = σ.tokens.size ∧ e = a) := by
  rw [h, List.getElem?_append] at he
  split at he
  case isTrue => exact .inl he
  case isFalse hi =>
    obtain ⟨hi', heq⟩ := Option.ite_none_right_eq_some.1 (List.getElem?_singleton ▸ he)
    rw [length_entries] at hi hi'
    exact .inr ⟨by omega, (Option.some.inj heq).symm⟩

/-- Nothing is recorded about other tokens. -/
structure Notes (σ τ : State) : Prop extends SameLexemes σ τ where
  entries : τ.entries = σ.entries
  nextId : σ.nextContextId ≤ τ.nextContextId

theorem Notes.refl (σ : State) : σ.Notes σ := ⟨⟨rfl, rfl, rfl⟩, rfl, Nat.le_refl _⟩

theorem Notes.trans (hστ : σ.Notes τ) (hτυ : τ.Notes υ) : σ.Notes υ where
  current := hτυ.current.trans hστ.current
  error := hτυ.error.trans hστ.error
  spans := hτυ.spans.trans hστ.spans
  entries := hτυ.entries.trans hστ.entries
  nextId := Nat.le_trans hστ.nextId hτυ.nextId

/-- Something is recorded, and not on the tokens of `base`. -/
structure Amends (base σ τ : State) : Prop extends SameLexemes σ τ where
  kept : τ.entries.take base.tokens.size = σ.entries.take base.tokens.size
  nextId : σ.nextContextId ≤ τ.nextContextId

theorem Notes.amends (h : σ.Notes τ) : base.Amends σ τ where
  toSameLexemes := h.toSameLexemes
  kept := by rw [h.entries]
  nextId := h.nextId

/-- An annotation behind the tokens of `base`. -/
theorem amends_modifyToken {i : Nat} (h : base.tokens.size ≤ i) (σ : State) (f : Token → Token)
    [KeepsSpan f] : base.Amends σ (σ.modifyToken i f) where
  current := rfl
  error := rfl
  spans := σ.spans_modifyToken i f
  kept := by
    apply List.ext_getElem?
    intro k
    simp only [List.getElem?_take, getElem?_entries, modifyToken, Array.getElem?_modify]
    split
    case isTrue hk => rw [if_neg (by omega)]
    case isFalse => rfl
  nextId := Nat.le_refl _

theorem amends_markLast (h : base.tokens.size < σ.tokens.size) (f : Token → Token) [KeepsSpan f] :
    base.Amends σ (σ.markLast f) :=
  amends_modifyToken (Nat.le_sub_one_of_lt h) σ f

/-- What has been recorded once stays. -/
structure Extends (σ τ : State) : Prop where
  entries : σ.entries <+: τ.entries
  spans : σ.spans <+: τ.spans
  error : τ.error? = none → σ.error? = none
  nextId : σ.nextContextId ≤ τ.nextContextId

theorem Extends.refl (σ : State) : σ.Extends σ :=
  ⟨List.prefix_rfl, List.prefix_rfl, id, Nat.le_refl _⟩

theorem Extends.trans (hστ : σ.Extends τ) (hτυ : τ.Extends υ) : σ.Extends υ where
  entries := hστ.entries.trans hτυ.entries
  spans := hστ.spans.trans hτυ.spans
  error hnone := hστ.error (hτυ.error hnone)
  nextId := Nat.le_trans hστ.nextId hτυ.nextId

theorem Extends.size_le (h : σ.Extends τ) : σ.tokens.size ≤ τ.tokens.size := by
  simpa using h.entries.length_le

theorem Notes.toExtends (h : σ.Notes τ) : σ.Extends τ where
  entries := h.entries ▸ List.prefix_rfl
  spans := h.spans ▸ List.prefix_rfl
  error hnone := by rw [← h.error, hnone]
  nextId := h.nextId

theorem Extends.amend (h : σ.Extends τ) (hamend : σ.Amends τ υ) : σ.Extends υ where
  entries := by
    have hkept := hamend.kept
    rw [List.prefix_iff_eq_take, length_entries] at *
    rw [hkept]
    simpa using List.prefix_iff_eq_take.1 h.entries
  spans := hamend.spans ▸ h.spans
  error hnone := h.error (by rw [← hamend.error, hnone])
  nextId := Nat.le_trans h.nextId hamend.nextId

theorem Amends.ofExtends (h : σ.Extends τ) (hamend : τ.Amends υ ω) : σ.Amends υ ω where
  toSameLexemes := hamend.toSameLexemes
  kept := by
    have hkept := congrArg (List.take σ.tokens.size) hamend.kept
    simpa [List.take_take, Nat.min_eq_left h.size_le] using hkept
  nextId := hamend.nextId

theorem Extends.notes_restore (h : σ.Extends τ) : σ.Notes (τ.restore σ.snapshot) where
  current := rfl
  error := rfl
  entries := by
    have hentries : (τ.restore σ.snapshot).entries = τ.entries.take σ.tokens.size := by
      simp [State.entries, restore, snapshot, List.map_take]
    rw [hentries, ← length_entries]
    exact (List.prefix_iff_eq_take.1 h.entries).symm
  spans := by
    have hspans : (τ.restore σ.snapshot).spans = τ.spans.take σ.spans.length := by
      simp [State.spans, restore, snapshot, List.map_take]
    rw [hspans]
    exact (List.prefix_iff_eq_take.1 h.spans).symm
  nextId := h.nextId

theorem Extends.getElem? (h : σ.Extends τ) {i : Nat} (hi : i < σ.tokens.size) :
    τ.entries[i]? = σ.entries[i]? := by
  obtain ⟨rest, hrest⟩ := h.entries
  rw [← hrest, List.getElem?_append_left (by simpa using hi)]

end State

/-! ## Actions -/

/-- After an error the end of the text is current, which is never read again as something else. -/
def Action.Fits (a : Action) (σ : State) : Prop :=
  match a with
  | .retype .. | .nextRegexp => IsText σ.current
  | _ => True

theorem Takes.toExtends (h : Takes σ τ) : σ.Extends τ where
  entries := by
    rcases h.tokens with htokens | ⟨l, depth, isType, htokens⟩
    · exact (State.entries_of_tokens htokens).symm ▸ List.prefix_rfl
    · rw [State.entries_push htokens]
      exact List.prefix_append _ _
  spans := by
    rcases h.tokens with htokens | ⟨l, depth, isType, htokens⟩
    · exact (State.spans_eq_of_tokens htokens).symm ▸ List.prefix_rfl
    · simp [State.spans, htokens]
  error := h.error
  nextId := Nat.le_of_eq h.nextId.symm

theorem entries_of_next {env : Env} (h : next env σ = .ok ((), τ)) :
    τ.entries =
      σ.entries ++ [⟨σ.current.kind, σ.current.keyword, none, none, 0, 0, none, none⟩] :=
  State.entries_push (congrArg Prod.fst (readCode_record h))

/-- The entry of a token that is annotated as soon as it has been consumed. -/
theorem entries_consume {env : Env} {f : Token → Token} (g : Entry → Entry)
    (hf : ∀ t, (f t).entry = g t.entry) (h : next env σ = .ok ((), τ)) :
    (τ.markLast f).entries =
      σ.entries ++ [g ⟨σ.current.kind, σ.current.keyword, none, none, 0, 0, none, none⟩] := by
  have hlast (es : List Entry) (e : Entry) : (es ++ [e]).modify es.length g = es ++ [g e] := by
    induction es with
    | nil => rfl
    | cons _ es ih => simp [ih]
  have hsize : τ.tokens.size - 1 = σ.entries.length := by
    rw [← State.length_entries, entries_of_next h]
    simp
  rw [State.markLast, State.entries_modifyToken τ _ g hf, entries_of_next h, hsize, hlast]

theorem size_of_next {env : Env} (h : next env σ = .ok ((), τ)) :
    τ.tokens.size = σ.tokens.size + 1 := by
  simpa using congrArg List.length (entries_of_next h)

theorem takes_of_next {env : Env} (h : next env σ = .ok ((), τ)) : Takes σ τ :=
  Action.takes .next h

/-! ## The relation -/

/-- The kind of a token may be changed: it pairs nothing, or the token has just been consumed. -/
def State.IsLoose (σ : State) (i : Nat) : Prop :=
  ∃ e, σ.entries[i]? = some e ∧ (e.kind.isStructural = false ∨
    (i + 1 = σ.tokens.size ∧ e.contextId? = none ∧ e.nullishStart? = none))

/-- The last token pairs nothing. -/
def State.EndsPlainly (σ : State) : Prop :=
  ∃ e, σ.entries.getLast? = some e ∧ e.kind.isStructural = false

/-- The number has been issued since `σ` to something else than a class. -/
structure Spare (σ τ : State) (id : Nat) : Prop where
  low : σ.nextContextId ≤ id
  high : id < τ.nextContextId
  noClass (i : Nat) (e : Entry) : σ.tokens.size ≤ i → τ.entries[i]? = some e →
    e.kind = .classWord → e.contextId? ≠ some id

/-- A token may be given a context number: none at all, the one of the construct around it, or one
that is not the number of a class. -/
structure MayCarry (own : Nat) (σ τ : State) (e : Entry) (id : Nat) : Prop where
  blank : e.contextId? = none
  noClass : e.kind ≠ .classWord
  number : id = 0 ∨ (id = own ∧ e.kind.isStructural = false) ∨ Spare σ τ id

/-- The state with one context number more in use. -/
def State.issued (σ : State) : State := { σ with nextContextId := σ.nextContextId + 1 }

@[simp] theorem State.size_issued (σ : State) : σ.issued.tokens.size = σ.tokens.size := rfl

theorem State.notes_issued (σ : State) : σ.Notes σ.issued := ⟨⟨rfl, rfl, rfl⟩, rfl, Nat.le_succ _⟩

/-- A state in which the last token closes a brace and carries no number yet. -/
def State.HasClosed (σ : State) : Prop :=
  ∃ e, σ.entries.getLast? = some e ∧ e.kind = .braceClose ∧ e.contextId? = none

/-- An object starts with a brace, unless it is taken for the attributes of an import. -/
def State.OpensObject (σ : State) : Prop :=
  σ.current.kind = .braceOpen ∨
    ∃ e, σ.entries.getLast? = some e ∧ (e.kind = .withWord ∨ e.keyword = .assertName)

/-- What a rule entered in a state may leave behind. -/
inductive Composed (s : Source) (d : Dialect) : Nat → State → State → Prop
  | stay {own : Nat} (σ : State) : Composed s d own σ σ
  | act {own : Nat} {σ τ υ : State} (a : Action) (recur : Goal → Step Bool) :
      Composed s d own σ τ → a.Fits τ → a.perform ⟨s, d, recur⟩ τ = .ok ((), υ) →
      Composed s d own σ υ
  | note {own : Nat} {σ τ υ : State} : Composed s d own σ τ → τ.Notes υ → Composed s d own σ υ
  | rekind {own : Nat} {σ τ : State} (i : Nat) (k : TokenKind) :
      Composed s d own σ τ → σ.tokens.size ≤ i → τ.IsLoose i → k.isStructural = false → Composed s d own σ (τ.modifyToken i (.ofKind k))
  | subscript {own : Nat} {σ τ : State} (start : Nat) :
      Composed s d own σ τ → σ.tokens.size < τ.tokens.size → start + 1 < τ.tokens.size →
      τ.EndsPlainly → Composed s d own σ (τ.markLast (.subscriptOf start))
  | stamp {own : Nat} {σ τ : State} {e : Entry} (id : Nat) :
      Composed s d own σ τ → τ.error? = none → σ.tokens.size < τ.tokens.size →
      τ.entries.getLast? = some e → MayCarry own σ τ e id →
      Composed s d own σ (τ.markLast (.numbered id))
  /-- A right-hand side behind a token. -/
  | assign {own : Nat} {σ τ υ : State} :
      Composed s d own σ τ → Composed s d own τ υ → τ.tokens.size < υ.tokens.size →
      Composed s d own σ (υ.modifyToken τ.tokens.size (.assignedUpTo υ.tokens.size))
  /-- A `??` with its right operand. The left one starts at a token behind `σ`. -/
  | coalesce {own : Nat} {σ τ υ ω : State} (start : Nat) (recur : Goal → Step Bool) :
      Composed s d own σ τ → σ.tokens.size ≤ start → start < τ.tokens.size →
      τ.current.kind = .nullish → next ⟨s, d, recur⟩ τ = .ok ((), υ) →
      Composed s d own (υ.markLast (.nullishOf start)) ω →
      Composed s d own σ ((ω.modifyToken start .opensNullish).markLast .closesNullish)
  /-- An object, whose braces and names carry its number. -/
  | object {own : Nat} {σ τ υ ω : State} (recur : Goal → Step Bool) :
      Composed s d own σ τ → τ.OpensObject → next ⟨s, d, recur⟩ τ.issued = .ok ((), υ) →
      Composed s d τ.nextContextId (υ.markLast (.numbered τ.nextContextId)) ω →
      ω.error? = none → υ.tokens.size < ω.tokens.size → ω.HasClosed →
      Composed s d own σ (ω.markLast (.numbered τ.nextContextId))
  /-- A class: its word, its head, and its members in braces. -/
  | classDefinition {own : Nat} {σ τ υ φ ψ ω : State} (recur : Goal → Step Bool) :
      Composed s d own σ τ → next ⟨s, d, recur⟩ τ.issued = .ok ((), υ) →
      Composed s d 0 (υ.markLast (.numbered τ.nextContextId)) φ →
      φ.current.kind = .braceOpen → next ⟨s, d, recur⟩ φ = .ok ((), ψ) →
      Composed s d τ.nextContextId ψ ω → ω.error? = none → ψ.tokens.size < ω.tokens.size →
      ω.HasClosed →
      Composed s d own σ ((ω.modifyToken φ.tokens.size (.numbered τ.nextContextId)).markLast
        (.numbered τ.nextContextId))
  /-- A construct that ends with an error. -/
  | lost {own own' : Nat} {σ τ υ ω : State} :
      Composed s d own σ τ → σ.Amends τ υ → Composed s d own' υ ω → ω.error? ≠ none →
      Composed s d own σ ω
  | retreat {own own' : Nat} {σ τ υ : State} :
      Composed s d own σ τ → Composed s d own' τ υ → Composed s d own σ (υ.restore τ.snapshot)

/-- Consuming a token and annotating it. -/
theorem State.Extends.consume {env : Env} (h : σ.Extends τ) (hnext : next env τ = .ok ((), υ))
    (f : Token → Token) [KeepsSpan f] : σ.Extends (υ.markLast f) := by
  have hsize := size_of_next hnext
  refine (h.trans (takes_of_next hnext).toExtends).amend ?_
  exact State.amends_markLast (by have := h.size_le; omega) _

theorem State.extends_issued (σ : State) : σ.Extends σ.issued := σ.notes_issued.toExtends

namespace Composed

theorem amend (h : Composed s d own σ τ) (hamend : σ.Amends τ υ) (herror : υ.error? ≠ none) :
    Composed s d own σ υ :=
  h.lost hamend (.stay υ : Composed s d own υ υ) herror

/-- A rule does not touch what was recorded before it. -/
theorem toExtends (h : Composed s d own σ τ) : σ.Extends τ := by
  induction h with
  | stay σ => exact .refl σ
  | act a recur _ _ hrun ih => exact ih.trans (a.takes hrun).toExtends
  | note _ hnote ih => exact ih.trans hnote.toExtends
  | rekind i k _ hi _ _ ih => exact ih.amend (State.amends_modifyToken hi _ _)
  | subscript start _ hsize _ _ ih => exact ih.amend (State.amends_markLast hsize _)
  | stamp id _ _ hsize _ _ ih => exact ih.amend (State.amends_markLast hsize _)
  | assign _ _ _ ih hinside =>
    exact (ih.trans hinside).amend (State.amends_modifyToken ih.size_le _ _)
  | coalesce start recur _ hstart _ _ hnext _ ih hinside =>
    have hopened := ih.consume hnext (.nullishOf start)
    have hinner := (hopened.trans hinside).amend (State.amends_modifyToken hstart _ .opensNullish)
    refine hinner.amend (State.amends_markLast ?_ _)
    have hsize := size_of_next hnext
    have hbefore := ih.size_le
    have hgrown := hinside.size_le
    simp only [State.size_markLast, State.size_modifyToken] at hgrown ⊢
    omega
  | @object _ _ τ _ _ recur _ _ hnext _ _ hsize _ ih hinside =>
    have hopened := (ih.trans τ.extends_issued).consume hnext (.numbered τ.nextContextId)
    refine (hopened.trans hinside).amend (State.amends_markLast ?_ _)
    exact Nat.lt_of_le_of_lt (by simpa using hopened.size_le) hsize
  | @classDefinition _ _ τ _ _ _ _ recur _ hnext _ _ hbrace _ _ hsize _ ih hhead hbody =>
    have hword := (ih.trans τ.extends_issued).consume hnext (.numbered τ.nextContextId)
    have hopened := (hword.trans hhead).trans (takes_of_next hbrace).toExtends
    have hclosed := (hopened.trans hbody).amend
      (State.amends_modifyToken (hword.trans hhead).size_le _ (.numbered τ.nextContextId))
    refine hclosed.amend (State.amends_markLast ?_ _)
    have hbefore := hopened.size_le
    simp only [State.size_modifyToken]
    omega
  | lost _ hamend _ _ ih hinside => exact (ih.amend hamend).trans hinside
  | retreat _ _ ih hback => exact ih.trans hback.notes_restore.toExtends

end Composed

/-! ## Where numbers come from -/

/-- The numbers of the tokens behind `σ` have been issued since, or they are none or the one of the
construct around. No class has one of the latter. -/
def Issued (own : Nat) (σ τ : State) : Prop :=
  ∀ (i : Nat) (e : Entry) (id : Nat), σ.tokens.size ≤ i → τ.entries[i]? = some e →
    e.contextId? = some id →
    (σ.nextContextId ≤ id ∧ id < τ.nextContextId) ∨
      (e.kind ≠ .classWord ∧ (id = 0 ∨ (id = own ∧ e.kind.isStructural = false)))

namespace Issued

theorem refl (own : Nat) (σ : State) : Issued own σ σ := by
  intro i e id hi he
  have hlt := (List.getElem?_eq_some_iff.1 he).1
  rw [State.length_entries] at hlt
  omega

/-- Numbers behind `τ` may also belong to a construct that was opened behind `σ`. -/
theorem trans {own' : Nat} (hστ : Issued own σ τ) (hτυ : Issued own' τ υ) (hfirst : σ.Extends τ)
    (hsecond : τ.Extends υ)
    (hown : own' = own ∨ own' = 0 ∨ (σ.nextContextId ≤ own' ∧ own' < υ.nextContextId)) :
    Issued own σ υ := by
  intro i e id hi he hid
  have hbefore := hfirst.nextId
  have hafter := hsecond.nextId
  rcases Nat.lt_or_ge i τ.tokens.size with hlt | hge
  · rw [hsecond.getElem? hlt] at he
    rcases hστ i e id hi he hid with hrange | hother
    · exact .inl (by omega)
    · exact .inr hother
  · rcases hτυ i e id hge he hid with hrange | ⟨hclass, hzero | ⟨rfl, hkind⟩⟩
    · exact .inl (by omega)
    · exact .inr ⟨hclass, .inl hzero⟩
    · rcases hown with rfl | rfl | hrange
      · exact .inr ⟨hclass, .inr ⟨rfl, hkind⟩⟩
      · exact .inr ⟨hclass, .inl rfl⟩
      · exact .inl hrange

theorem note (h : Issued own σ τ) (hnote : τ.Notes υ) : Issued own σ υ := by
  intro i e id hi he hid
  rw [hnote.entries] at he
  have hnext := hnote.nextId
  rcases h i e id hi he hid with hrange | hother
  · exact .inl (by omega)
  · exact .inr hother

theorem take (h : Issued own σ τ) (htakes : Takes τ υ) : Issued own σ υ := by
  intro i e id hi he hid
  rcases htakes.tokens with htokens | ⟨l, depth, isType, htokens⟩
  · rw [State.entries_of_tokens htokens] at he
    rw [htakes.nextId]
    exact h i e id hi he hid
  · rcases State.entry_push (State.entries_push htokens) he with hold | ⟨-, rfl⟩
    · rw [htakes.nextId]
      exact h i e id hi hold hid
    · cases hid

theorem annotate (h : Issued own σ τ) (i : Nat) {f : Token → Token}
    (hkind : ∀ t, (f t).kind = t.kind) (hid : ∀ t, (f t).contextId? = t.contextId?) :
    Issued own σ (τ.modifyToken i f) := by
  intro k e id hk he he'
  rcases State.entry_modifyToken he with ⟨rfl, t, ht, rfl⟩ | ⟨-, hold⟩
  · have hentry : τ.entries[k]? = some t.entry := by rw [State.getElem?_entries, ht]; rfl
    have hsame := h k t.entry id hk hentry ((hid t).symm.trans he')
    change _ ∨ ((f t).kind ≠ _ ∧ (id = 0 ∨ (id = own ∧ (f t).kind.isStructural = false)))
    rw [hkind]
    exact hsame
  · exact h k e id hk hold he'

/-- A number that has been issued. -/
theorem number (h : Issued own σ τ) (i : Nat) {id : Nat}
    (hid : σ.nextContextId ≤ id ∧ id < τ.nextContextId) :
    Issued own σ (τ.modifyToken i (.numbered id)) := by
  intro k e id' hk he he'
  rcases State.entry_modifyToken he with ⟨rfl, t, ht, rfl⟩ | ⟨-, hold⟩
  · cases he'
    exact .inl hid
  · exact h k e id' hk hold he'

/-- A number that has just been issued to the token consumed next. -/
theorem issue {env : Env} (h : Issued own σ τ) (hσ : σ.Extends τ)
    (hnext : next env τ.issued = .ok ((), υ)) :
    Issued own σ (υ.markLast (.numbered τ.nextContextId)) := by
  have hissued : Issued own σ τ.issued := h.note τ.notes_issued
  refine (hissued.take (takes_of_next hnext)).number _ ⟨hσ.nextId, ?_⟩
  rw [(takes_of_next hnext).nextId]
  exact Nat.lt_succ_self _

end Issued

theorem Composed.issued (h : Composed s d own σ τ) (hnone : τ.error? = none) : Issued own σ τ := by
  induction h with
  | stay σ => exact .refl _ σ
  | act a recur _ _ hrun ih => exact (ih ((a.takes hrun).error hnone)).take (a.takes hrun)
  | note _ hnote ih => exact (ih (hnote.toExtends.error hnone)).note hnote
  | rekind i k _ _ _ hkind ih =>
    intro j e id hj he hid
    rcases State.entry_modifyToken he with ⟨rfl, t, ht, rfl⟩ | ⟨-, hold⟩
    · have hentry := State.getElem?_entries _ j ▸ congrArg (Option.map Token.entry) ht
      rcases ih hnone j t.entry id hj hentry hid with hrange | ⟨-, hzero | ⟨hown, -⟩⟩
      · exact .inl hrange
      · exact .inr ⟨TokenKind.ne_classWord hkind, .inl hzero⟩
      · exact .inr ⟨TokenKind.ne_classWord hkind, .inr ⟨hown, hkind⟩⟩
    · exact ih hnone j e id hj hold hid
  | subscript start _ _ _ _ ih => exact (ih hnone).annotate _ (fun _ => rfl) fun _ => rfl
  | stamp id _ _ hsize hlast hcarry ih =>
    intro j e id' hj he hid
    rcases State.entry_markLast he with ⟨hj', t, ht, rfl⟩ | ⟨-, hold⟩
    · cases hid
      have hentry := State.getElem?_entries _ j ▸ congrArg (Option.map Token.entry) ht
      rw [List.getLast?_eq_getElem?, State.length_entries, ← hj', Nat.add_sub_cancel, hentry] at hlast
      cases hlast
      obtain ⟨-, hclass, hzero | hown | hspare⟩ := hcarry
      · exact .inr ⟨hclass, .inl hzero⟩
      · exact .inr ⟨hclass, .inr hown⟩
      · exact .inl ⟨hspare.low, hspare.high⟩
    · exact ih hnone j e id' hj hold hid
  | assign hleft hright _ ih hinside =>
    have hwhole := (ih (hright.toExtends.error hnone)).trans (hinside hnone) hleft.toExtends
      hright.toExtends (.inl rfl)
    exact hwhole.annotate _ (fun _ => rfl) fun _ => rfl
  | coalesce start recur hleft _ _ _ hnext hright ih hinside =>
    have hclear := (takes_of_next hnext).error (hright.toExtends.error hnone)
    have hoperator : Issued _ _ (State.markLast _ (.nullishOf start)) :=
      ((ih hclear).take (takes_of_next hnext)).annotate _ (fun _ => rfl) fun _ => rfl
    have hwhole := hoperator.trans (hinside hnone) (hleft.toExtends.consume hnext _)
      hright.toExtends (.inl rfl)
    exact (hwhole.annotate start (f := .opensNullish) (fun _ => rfl) fun _ => rfl).annotate _
      (fun _ => rfl) fun _ => rfl
  | @object _ σ τ υ ω recur hbefore _ hnext hinner _ _ _ ih hinside =>
    have hclear : τ.error? = none := (takes_of_next hnext).error (hinner.toExtends.error hnone)
    have hopened := (hbefore.toExtends.trans τ.extends_issued).consume hnext
      (.numbered τ.nextContextId)
    have hrange : σ.nextContextId ≤ τ.nextContextId ∧ τ.nextContextId < ω.nextContextId := by
      have hissued := (takes_of_next hnext).nextId
      have hgrown := hinner.toExtends.nextId
      exact ⟨hbefore.toExtends.nextId, Nat.lt_of_lt_of_le (hissued ▸ Nat.lt_succ_self _) hgrown⟩
    have hwhole := ((ih hclear).issue hbefore.toExtends hnext).trans (hinside hnone) hopened
      hinner.toExtends (.inr (.inr hrange))
    exact hwhole.number _ hrange
  | @classDefinition _ σ τ υ φ ψ ω recur hbefore hnext hhead _ hbrace hbody _ _ _ ih hhead' hbody' =>
    have hclear := (takes_of_next hbrace).error (hbody.toExtends.error hnone)
    have hclear' : τ.error? = none := (takes_of_next hnext).error (hhead.toExtends.error hclear)
    have hword := (hbefore.toExtends.trans τ.extends_issued).consume hnext
      (.numbered τ.nextContextId)
    have hrange : σ.nextContextId ≤ τ.nextContextId ∧ τ.nextContextId < ω.nextContextId := by
      have hissued := (takes_of_next hnext).nextId
      have hgrown := (hhead.toExtends.trans (takes_of_next hbrace).toExtends).trans hbody.toExtends
      exact ⟨hbefore.toExtends.nextId,
        Nat.lt_of_lt_of_le (hissued ▸ Nat.lt_succ_self _) hgrown.nextId⟩
    have hopened := (((ih hclear').issue hbefore.toExtends hnext).trans (hhead' hclear) hword
      hhead.toExtends (.inr (.inl rfl))).take (takes_of_next hbrace)
    have hwhole := hopened.trans (hbody' hnone)
      ((hword.trans hhead.toExtends).trans (takes_of_next hbrace).toExtends) hbody.toExtends
      (.inr (.inr hrange))
    exact (hwhole.number _ hrange).number _ hrange
  | lost _ _ _ herror => exact absurd hnone herror
  | retreat _ hback ih => exact (ih hnone).note hback.toExtends.notes_restore

/-- A class has a number that had been issued by the time it was read. -/
theorem Spare.before {id : Nat} (h : Spare τ υ id) (hστ : σ.Extends τ) (hτυ : τ.Extends υ)
    (hissued : Issued own σ τ) : Spare σ υ id where
  low := Nat.le_trans hστ.nextId h.low
  high := h.high
  noClass i e hi he hclass hid := by
    rcases Nat.lt_or_ge i τ.tokens.size with hlt | hge
    · rw [hτυ.getElem? hlt] at he
      rcases hissued i e id hi he hid with hrange | hother
      · exact absurd h.low (by omega)
      · exact hother.1 hclass
    · exact h.noClass i e hge he hclass hid

/-- What a rule leaves behind, another rule may go on from. -/
theorem Composed.trans (hστ : Composed s d own σ τ) (hτυ : Composed s d own τ υ) :
    Composed s d own σ υ := by
  induction hτυ with
  | stay => exact hστ
  | act a recur _ hfits hrun ih => exact .act a recur (ih hστ) hfits hrun
  | note _ hnote ih => exact .note (ih hστ) hnote
  | rekind i k _ hi hloose hkind ih =>
    exact .rekind i k (ih hστ) (Nat.le_trans hστ.toExtends.size_le hi) hloose hkind
  | subscript start _ hsize hstart hplain ih =>
    exact .subscript start (ih hστ) (Nat.lt_of_le_of_lt hστ.toExtends.size_le hsize) hstart hplain
  | stamp id hbetween hclear hsize hlast hcarry ih =>
    refine .stamp id (ih hστ) hclear (Nat.lt_of_le_of_lt hστ.toExtends.size_le hsize) hlast ?_
    refine ⟨hcarry.blank, hcarry.noClass, hcarry.number.imp_right (Or.imp_right fun hspare => ?_)⟩
    exact hspare.before hστ.toExtends hbetween.toExtends
      (hστ.issued (hbetween.toExtends.error hclear))
  | assign _ hinside hsize ih => exact .assign (ih hστ) hinside hsize
  | coalesce start recur _ hstart hlt hkind hnext hinside ih =>
    exact .coalesce start recur (ih hστ) (Nat.le_trans hστ.toExtends.size_le hstart) hlt hkind hnext
      hinside
  | object recur _ hopens hnext hinside hclear hsize hclosed ih =>
    exact .object recur (ih hστ) hopens hnext hinside hclear hsize hclosed
  | classDefinition recur _ hnext hhead hkind hbrace hbody hclear hsize hclosed ih =>
    exact .classDefinition recur (ih hστ) hnext hhead hkind hbrace hbody hclear hsize hclosed
  | lost _ hamend hinside herror ih =>
    exact .lost (ih hστ) (hamend.ofExtends hστ.toExtends) hinside herror
  | retreat _ hback ih => exact .retreat (ih hστ) hback

/-! ## Invariants -/

/-- A relation between states that does not depend on context numbers, with what has to be shown about
the other records. -/
structure Invariant (Inv : State → State → Prop) : Prop where
  refl (σ : State) : Inv σ σ
  trans {σ τ υ : State} : Inv σ τ → Inv τ υ → τ.Extends υ → Inv σ υ
  note {σ τ υ : State} : Inv σ τ → τ.Notes υ → Inv σ υ
  take {σ τ υ : State} : Inv σ τ → Takes τ υ → Inv σ υ
  number {σ τ : State} (i id : Nat) : Inv σ τ → Inv σ (τ.modifyToken i (.numbered id))
  rekind {σ τ : State} {i : Nat} {k : TokenKind} : Inv σ τ → τ.IsLoose i →
    k.isStructural = false → Inv σ (τ.modifyToken i (.ofKind k))
  subscript {σ τ : State} {start : Nat} : Inv σ τ → start + 1 < τ.tokens.size → τ.EndsPlainly →
    Inv σ (τ.markLast (.subscriptOf start))
  assign {σ τ υ : State} : Inv σ τ → Inv τ υ → τ.Extends υ → τ.tokens.size < υ.tokens.size →
    Inv σ (υ.modifyToken τ.tokens.size (.assignedUpTo υ.tokens.size))
  coalesce {env : Env} {σ τ υ ω : State} {start : Nat} : Inv σ τ → σ.tokens.size ≤ start →
    start < τ.tokens.size → τ.current.kind = .nullish → next env τ = .ok ((), υ) →
    Inv (υ.markLast (.nullishOf start)) ω → (υ.markLast (.nullishOf start)).Extends ω →
    Inv σ ((ω.modifyToken start .opensNullish).markLast .closesNullish)

/-- A rule keeps every invariant, unless it ends with an error. -/
theorem Composed.keeps {Inv : State → State → Prop} (hinv : Invariant Inv)
    (h : Composed s d own σ τ) (hnone : τ.error? = none) : Inv σ τ := by
  -- A token with a number that has just been issued, as it stands first in an object or a class.
  have hissue {env : Env} {σ τ υ : State} (hτ : Inv σ τ) (hnext : next env τ.issued = .ok ((), υ)) :
      Inv σ (υ.markLast (.numbered τ.nextContextId)) := by
    have hissued : Inv σ τ.issued := hinv.note hτ τ.notes_issued
    exact hinv.number _ _ (hinv.take hissued (takes_of_next hnext))
  induction h with
  | stay σ => exact hinv.refl σ
  | act a recur _ _ hrun ih => exact hinv.take (ih ((a.takes hrun).error hnone)) (a.takes hrun)
  | note _ hnote ih => exact hinv.note (ih (hnote.toExtends.error hnone)) hnote
  | rekind i k _ _ hloose hkind ih => exact hinv.rekind (ih hnone) hloose hkind
  | subscript start _ _ hstart hplain ih => exact hinv.subscript (ih hnone) hstart hplain
  | stamp id _ _ _ _ _ ih => exact hinv.number _ id (ih hnone)
  | assign _ hright hsize ih hinside =>
    exact hinv.assign (ih (hright.toExtends.error hnone)) (hinside hnone) hright.toExtends hsize
  | coalesce start recur _ hstart hlt hkind hnext hright ih hinside =>
    have hclear := (takes_of_next hnext).error (hright.toExtends.error hnone)
    exact hinv.coalesce (ih hclear) hstart hlt hkind hnext (hinside hnone) hright.toExtends
  | @object _ _ τ _ _ recur _ _ hnext hinner _ _ _ ih hinside =>
    have hclear : τ.error? = none := (takes_of_next hnext).error (hinner.toExtends.error hnone)
    exact hinv.number _ _ (hinv.trans (hissue (ih hclear) hnext) (hinside hnone) hinner.toExtends)
  | @classDefinition _ _ τ _ _ _ _ recur _ hnext hhead _ hbrace hbody _ _ _ ih hhead' hbody' =>
    have hclear := (takes_of_next hbrace).error (hbody.toExtends.error hnone)
    have hclear' : τ.error? = none := (takes_of_next hnext).error (hhead.toExtends.error hclear)
    have hword := hinv.trans (hissue (ih hclear') hnext) (hhead' hclear) hhead.toExtends
    have hopened := hinv.take hword (takes_of_next hbrace)
    exact hinv.number _ _ (hinv.number _ _ (hinv.trans hopened (hbody' hnone) hbody.toExtends))
  | lost _ _ _ herror => exact absurd hnone herror
  | retreat _ hback ih => exact hinv.note (ih hnone) hback.toExtends.notes_restore

end Grammar

end PlainScript
