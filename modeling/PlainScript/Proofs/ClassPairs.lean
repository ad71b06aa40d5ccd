import PlainScript.Proofs.StatementRulesCompose

/-!
# Classes and their braces

A class is found by its number: the word `class`, the two braces of its body and the names of its
members carry it, and nothing else does. Only the attributes of an import can put the number of an
object on the word `class`, since the token behind `with` is not looked at before it is taken for the
brace of the attributes.
-/

namespace PlainScript

/-- The kind, if tokens are paired by it. -/
def TokenKind.pairing? (k : TokenKind) : Option TokenKind := if k.isStructural then some k else none

theorem TokenKind.pairing?_eq_none {k : TokenKind} (h : k.isStructural = false) :
    k.pairing? = none := by
  simp [pairing?, h]

theorem TokenKind.pairing?_eq_some {k l : TokenKind} (h : k.pairing? = some l) : k = l := by
  unfold pairing? at h
  split at h
  · exact Option.some.inj h
  · cases h

namespace Grammar

variable {s : Source} {d : Dialect} {σ τ υ ω : State} {own : Nat}

/-! ## Tokens that carry a number -/

/-- A token behind `σ` carries a number; `r?` is its kind, if tokens are paired by it. -/
def Carries (σ τ : State) (id i : Nat) (r? : Option TokenKind) : Prop :=
  σ.tokens.size ≤ i ∧
    ∃ e, τ.entries[i]? = some e ∧ e.contextId? = some id ∧ e.kind.pairing? = r?

namespace Carries

variable {id i : Nat} {r? : Option TokenKind}

theorem lt (h : Carries σ τ id i r?) : i < τ.tokens.size := by
  obtain ⟨-, e, he, -, -⟩ := h
  simpa using (List.getElem?_eq_some_iff.1 he).1

theorem unique {r?' : Option TokenKind} (h : Carries σ τ id i r?) (h' : Carries σ τ id i r?') :
    r? = r?' := by
  obtain ⟨-, e, he, -, rfl⟩ := h
  obtain ⟨-, e', he', -, rfl⟩ := h'
  cases he.symm.trans he'
  rfl

/-- Where the number comes from. -/
theorem issued (h : Carries σ τ id i r?) (hissued : Issued own σ τ) :
    (σ.nextContextId ≤ id ∧ id < τ.nextContextId) ∨
      (r? ≠ some .classWord ∧ (id = 0 ∨ (id = own ∧ r? = none))) := by
  obtain ⟨hi, e, he, hid, rfl⟩ := h
  rcases hissued i e id hi he hid with hrange | ⟨hclass, hother⟩
  · exact .inl hrange
  · refine .inr ⟨fun heq => hclass (TokenKind.pairing?_eq_some heq), ?_⟩
    exact hother.imp_right fun ⟨hown, hkind⟩ => ⟨hown, TokenKind.pairing?_eq_none hkind⟩

end Carries

theorem carries_of_entries (h : τ.entries = υ.entries) {id i : Nat} {r? : Option TokenKind} :
    Carries σ τ id i r? ↔ Carries σ υ id i r? := by
  rw [Carries, Carries, h]

theorem carries_split (hστ : σ.Extends τ) (hτυ : τ.Extends υ) {id i : Nat} {r? : Option TokenKind} :
    Carries σ υ id i r? ↔ Carries σ τ id i r? ∨ Carries τ υ id i r? := by
  constructor
  · rintro ⟨hi, e, he, hid, hr⟩
    rcases Nat.lt_or_ge i τ.tokens.size with hlt | hge
    · exact .inl ⟨hi, e, hτυ.getElem? hlt ▸ he, hid, hr⟩
    · exact .inr ⟨hge, e, he, hid, hr⟩
  · rintro (h | ⟨hi, he⟩)
    · have hlt := h.lt
      obtain ⟨hi, e, he, hid, hr⟩ := h
      exact ⟨hi, e, hτυ.getElem? hlt ▸ he, hid, hr⟩
    · exact ⟨Nat.le_trans hστ.size_le hi, he⟩

/-- A consumed token carries no number. -/
theorem carries_take (h : Takes τ υ) {id i : Nat} {r? : Option TokenKind} :
    Carries σ υ id i r? ↔ Carries σ τ id i r? := by
  rcases h.tokens with htokens | ⟨l, depth, isType, htokens⟩
  · exact carries_of_entries (State.entries_of_tokens htokens)
  · constructor
    · rintro ⟨hi, e, he, hid, hr⟩
      rcases State.entry_push (State.entries_push htokens) he with hold | ⟨-, rfl⟩
      · exact ⟨hi, e, hold, hid, hr⟩
      · cases hid
    · intro hcarries
      have hlt := hcarries.lt
      obtain ⟨hi, e, he, hid, hr⟩ := hcarries
      exact ⟨hi, e, h.toExtends.getElem? hlt ▸ he, hid, hr⟩

theorem carries_modify {f : Token → Token} {id i k : Nat} {r? : Option TokenKind} :
    Carries σ (τ.modifyToken i f) id k r? ↔
      (k ≠ i ∧ Carries σ τ id k r?) ∨ (k = i ∧ σ.tokens.size ≤ i ∧ ∃ t, τ.tokens[i]? = some t ∧
        (f t).contextId? = some id ∧ (f t).kind.pairing? = r?) := by
  constructor
  · rintro ⟨hk, e, he, hid, hr⟩
    rcases State.entry_modifyToken he with ⟨rfl, t, ht, rfl⟩ | ⟨hne, hold⟩
    · exact .inr ⟨rfl, hk, t, ht, hid, hr⟩
    · exact .inl ⟨hne, hk, e, hold, hid, hr⟩
  · rintro (⟨hne, hk, e, he, hid, hr⟩ | ⟨rfl, hk, t, ht, hid, hr⟩)
    · refine ⟨hk, e, ?_, hid, hr⟩
      rw [State.getElem?_entries] at he ⊢
      rw [State.modifyToken, Array.getElem?_modify, if_neg (Ne.symm hne), he]
    · refine ⟨hk, (f t).entry, ?_, hid, hr⟩
      rw [State.getElem?_entries, State.modifyToken, Array.getElem?_modify, if_pos rfl, ht]
      rfl

theorem carries_annotate {f : Token → Token} {i : Nat}
    (hid : ∀ t, τ.tokens[i]? = some t → (f t).contextId? = t.contextId?)
    (hkind : ∀ t, τ.tokens[i]? = some t → t.contextId? = none ∨
      (f t).kind.pairing? = t.kind.pairing?)
    {id k : Nat} {r? : Option TokenKind} :
    Carries σ (τ.modifyToken i f) id k r? ↔ Carries σ τ id k r? := by
  rw [carries_modify]
  constructor
  · rintro (⟨-, h⟩ | ⟨rfl, hk, t, ht, hid', hr⟩)
    · exact h
    · rw [hid t ht] at hid'
      refine ⟨hk, t.entry, ?_, hid', ?_⟩
      · rw [State.getElem?_entries, ht]
        rfl
      · rcases hkind t ht with hnone | hsame
        · rw [hnone] at hid'
          cases hid'
        · exact hsame.symm.trans hr
  · intro h
    by_cases hk : k = i
    · subst hk
      obtain ⟨hk, e, he, hid', hr⟩ := h
      rw [State.getElem?_entries] at he
      obtain ⟨t, ht, rfl⟩ := Option.map_eq_some_iff.1 he
      refine .inr ⟨rfl, hk, t, ht, (hid t ht).trans hid', ?_⟩
      rcases hkind t ht with hnone | hsame
      · cases hnone.symm.trans hid'
      · exact hsame.trans hr
    · exact .inl ⟨hk, h⟩

/-! ## Pairs -/

/-- The braces of a class that starts at a token and has a number. -/
def PairedAt (σ τ : State) (i id : Nat) : Prop :=
  ∃ j k, i < j ∧ j < k ∧ Carries σ τ id j (some .braceOpen) ∧ Carries σ τ id k (some .braceClose) ∧
    ∀ m r?, Carries σ τ id m r? → m = i ∨ m = j ∨ m = k ∨ (j < m ∧ m < k ∧ r? = none)

/-- The token before an index announces the attributes of an import. -/
def State.AfterWith (σ : State) (i : Nat) : Prop :=
  ∃ p e, p + 1 = i ∧ σ.entries[p]? = some e ∧ (e.kind = .withWord ∨ e.keyword = .assertName)

/-- The word was taken for the brace of the attributes of an import. -/
def SlippedAt (σ τ : State) (i id : Nat) : Prop :=
  τ.AfterWith i ∧ ¬ ∃ m, Carries σ τ id m (some .braceOpen)

/-- A class behind `σ` that has the number has its braces. -/
def Pairs (σ τ : State) (id : Nat) : Prop :=
  ∀ i, Carries σ τ id i (some .classWord) → PairedAt σ τ i id ∨ SlippedAt σ τ i id

section

variable {σ' τ' : State} {i id : Nat}

theorem PairedAt.congr (h : PairedAt σ τ i id)
    (hsame : ∀ m r?, Carries σ' τ' id m r? ↔ Carries σ τ id m r?) : PairedAt σ' τ' i id := by
  obtain ⟨j, k, hij, hjk, hopen, hclose, hall⟩ := h
  exact ⟨j, k, hij, hjk, (hsame _ _).2 hopen, (hsame _ _).2 hclose,
    fun m r? hm => hall m r? ((hsame m r?).1 hm)⟩

theorem SlippedAt.congr (h : SlippedAt σ τ i id) (hword : τ.AfterWith i → τ'.AfterWith i)
    (hsame : ∀ m r?, Carries σ' τ' id m r? ↔ Carries σ τ id m r?) : SlippedAt σ' τ' i id :=
  ⟨hword h.1, fun ⟨m, hm⟩ => h.2 ⟨m, (hsame m _).1 hm⟩⟩

theorem State.AfterWith.extend (h : τ.AfterWith i) (hext : τ.Extends υ) : υ.AfterWith i := by
  obtain ⟨p, e, rfl, he, hword⟩ := h
  have hlt : p < τ.tokens.size := by simpa using (List.getElem?_eq_some_iff.1 he).1
  exact ⟨p, e, rfl, hext.getElem? hlt ▸ he, hword⟩

/-- An annotation does not change what announces attributes, unless the token is the last one. -/
theorem State.AfterWith.annotate {f : Token → Token} {k : Nat} (h : τ.AfterWith i)
    (hkeyword : ∀ t, (f t).keyword = t.keyword)
    (hkind : ∀ t, τ.tokens[k]? = some t → t.kind = .withWord → k + 1 = i → (f t).kind = .withWord) :
    (τ.modifyToken k f).AfterWith i := by
  obtain ⟨p, e, rfl, he, hword⟩ := h
  by_cases hp : p = k
  · subst hp
    rw [State.getElem?_entries] at he
    obtain ⟨t, ht, rfl⟩ := Option.map_eq_some_iff.1 he
    refine ⟨p, (f t).entry, rfl, ?_, ?_⟩
    · rw [State.getElem?_entries, State.modifyToken, Array.getElem?_modify, if_pos rfl, ht]
      rfl
    · exact hword.imp (fun hkind' => hkind t ht hkind' rfl) fun hkeyword' => (hkeyword t).trans hkeyword'
  · refine ⟨p, e, rfl, ?_, hword⟩
    rw [State.getElem?_entries] at he ⊢
    rw [State.modifyToken, Array.getElem?_modify, if_neg (Ne.symm hp), he]

end

namespace Pairs

variable {id : Nat}

theorem refl (σ : State) (id : Nat) : Pairs σ σ id := by
  intro i h
  exact absurd h.1 (Nat.not_le_of_lt h.lt)

theorem congr (h : Pairs σ τ id)
    (hword : ∀ i, Carries σ υ id i (some .classWord) → τ.AfterWith i → υ.AfterWith i)
    (hsame : ∀ m r?, Carries σ υ id m r? ↔ Carries σ τ id m r?) : Pairs σ υ id := by
  intro i hi
  rcases h i ((hsame _ _).1 hi) with hpaired | hslipped
  · exact .inl (hpaired.congr hsame)
  · exact .inr (hslipped.congr (hword i hi) hsame)

theorem note (h : Pairs σ τ id) (hnote : τ.Notes υ) : Pairs σ υ id :=
  h.congr (fun _ _ hword => hword.extend hnote.toExtends)
    fun _ _ => carries_of_entries hnote.entries

theorem take (h : Pairs σ τ id) (htakes : Takes τ υ) : Pairs σ υ id :=
  h.congr (fun _ _ hword => hword.extend htakes.toExtends) fun _ _ => carries_take htakes

theorem annotate {f : Token → Token} (h : Pairs σ τ id) (i : Nat)
    (hlexeme : ∀ t, (f t).toLexeme = t.toLexeme) (hid : ∀ t, (f t).contextId? = t.contextId?) :
    Pairs σ (τ.modifyToken i f) id := by
  refine h.congr (fun _ _ hword => hword.annotate (fun t => congrArg (·.keyword) (hlexeme t)) ?_)
    fun _ _ => carries_annotate (fun t _ => hid t) fun t _ => .inr ?_
  · intro t _ hkind _
    rw [hlexeme]
    exact hkind
  · rw [hlexeme]

/-- A token that gets another kind carries no number, or it is not paired. -/
theorem rekind {i : Nat} {k : TokenKind} (h : Pairs σ τ id) (hloose : τ.IsLoose i)
    (hk : k.isStructural = false) : Pairs σ (τ.modifyToken i (.ofKind k)) id := by
  obtain ⟨e, he, hloose⟩ := hloose
  rw [State.getElem?_entries] at he
  obtain ⟨t, ht, rfl⟩ := Option.map_eq_some_iff.1 he
  refine h.congr (fun m hm hword => hword.annotate (fun _ => rfl) ?_) fun _ _ => ?_
  · intro t' ht' hkind hi
    cases ht.symm.trans ht'
    have hlt := hm.lt
    rw [State.size_modifyToken] at hlt
    rcases hloose with hpaired | ⟨hlast, -⟩
    · rw [show t.entry.kind = .withWord from hkind] at hpaired
      cases hpaired
    · omega
  · refine carries_annotate (f := .ofKind k) (fun _ _ => rfl) fun t' ht' => ?_
    cases ht.symm.trans ht'
    rcases hloose with hpaired | ⟨-, hblank, -⟩
    · refine .inr ?_
      rw [show t.kind.pairing? = none from TokenKind.pairing?_eq_none hpaired]
      exact TokenKind.pairing?_eq_none hk
    · exact .inl hblank

/-- Two stretches, each with the numbers issued in it. The second one may also use the number of a
construct around it, which is another one. -/
theorem trans {own' : Nat} (hστ : Pairs σ τ id) (hτυ : Pairs τ υ id) (hfirst : σ.Extends τ)
    (hsecond : τ.Extends υ) (hissued : Issued own σ τ) (hissued' : Issued own' τ υ)
    (hown : own < σ.nextContextId) (hown' : own' < σ.nextContextId ∨ id ≠ own') : Pairs σ υ id := by
  have hnext := hfirst.nextId
  intro i hi
  rcases (carries_split hfirst hsecond).1 hi with hi | hi
  · -- The number was issued before `τ`, so nothing behind `τ` carries it.
    have hrange := (hi.issued hissued).resolve_right fun h => h.1 rfl
    have hsame (m : Nat) (r? : Option TokenKind) : Carries σ υ id m r? ↔ Carries σ τ id m r? := by
      rw [carries_split hfirst hsecond]
      refine or_iff_left fun hm => ?_
      rcases hm.issued hissued' with hother | ⟨-, hzero | ⟨heq, -⟩⟩ <;> omega
    rcases hστ i hi with hpaired | hslipped
    · exact .inl (hpaired.congr hsame)
    · exact .inr (hslipped.congr (fun hword => hword.extend hsecond) hsame)
  · -- The number was issued behind `τ`, so nothing before `τ` carries it.
    have hrange := (hi.issued hissued').resolve_right fun h => h.1 rfl
    have hsame (m : Nat) (r? : Option TokenKind) : Carries σ υ id m r? ↔ Carries τ υ id m r? := by
      rw [carries_split hfirst hsecond]
      refine or_iff_right fun hm => ?_
      rcases hm.issued hissued with hother | ⟨-, hzero | ⟨heq, -⟩⟩ <;> omega
    rcases hτυ i hi with hpaired | hslipped
    · exact .inl (hpaired.congr hsame)
    · exact .inr (hslipped.congr (fun hword => hword) hsame)

end Pairs

/-! ## Numbers given to tokens -/

theorem carries_number {e : Entry} {i id id' k : Nat} {r? : Option TokenKind}
    (hi : σ.tokens.size ≤ i) (he : τ.entries[i]? = some e) (hblank : e.contextId? = none) :
    Carries σ (τ.modifyToken i (.numbered id)) id' k r? ↔
      Carries σ τ id' k r? ∨ (k = i ∧ id' = id ∧ r? = e.kind.pairing?) := by
  rw [State.getElem?_entries] at he
  obtain ⟨t, ht, rfl⟩ := Option.map_eq_some_iff.1 he
  rw [carries_modify]
  constructor
  · rintro (⟨-, h⟩ | ⟨rfl, -, t', ht', hid, rfl⟩)
    · exact .inl h
    · cases ht.symm.trans ht'
      exact .inr ⟨rfl, (Option.some.inj hid).symm, rfl⟩
  · rintro (h | ⟨rfl, rfl, rfl⟩)
    · refine .inl ⟨?_, h⟩
      rintro rfl
      obtain ⟨-, e, he, hid, -⟩ := h
      rw [State.getElem?_entries, ht] at he
      cases he
      cases hblank.symm.trans hid
    · exact .inr ⟨rfl, hi, t, ht, rfl, rfl⟩

theorem carries_markLast {e : Entry} {id id' k : Nat} {r? : Option TokenKind}
    (hsize : σ.tokens.size < τ.tokens.size) (hlast : τ.entries.getLast? = some e)
    (hblank : e.contextId? = none) :
    Carries σ (τ.markLast (.numbered id)) id' k r? ↔
      Carries σ τ id' k r? ∨ (k + 1 = τ.tokens.size ∧ id' = id ∧ r? = e.kind.pairing?) := by
  rw [List.getLast?_eq_getElem?, State.length_entries] at hlast
  rw [State.markLast, carries_number (by omega) hlast hblank, show k = τ.tokens.size - 1 ↔
    k + 1 = τ.tokens.size by omega]

theorem carries_issue {env : Env} {id k : Nat} {r? : Option TokenKind} (hσ : σ.Extends τ)
    (hnext : Parse.next env τ.issued = .ok ((), υ)) :
    Carries σ (υ.markLast (.numbered τ.nextContextId)) id k r? ↔
      Carries σ τ id k r? ∨
        (k = τ.tokens.size ∧ id = τ.nextContextId ∧ r? = τ.current.kind.pairing?) := by
  have hlast : υ.entries.getLast? =
      some ⟨τ.current.kind, τ.current.keyword, none, none, 0, 0, none, none⟩ := by
    rw [entries_of_next hnext, List.getLast?_concat]
    rfl
  have hsize := size_of_next hnext
  rw [State.size_issued] at hsize
  have hbefore := hσ.size_le
  rw [carries_markLast (by omega) hlast rfl, carries_take (takes_of_next hnext), hsize,
    Nat.add_right_cancel_iff]
  exact Iff.rfl

/-- Another number is given to a token that has none. -/
theorem Pairs.number {e : Entry} {i id id' : Nat} (h : Pairs σ τ id) (hi : σ.tokens.size ≤ i)
    (he : τ.entries[i]? = some e) (hblank : e.contextId? = none) (hne : id ≠ id') :
    Pairs σ (τ.modifyToken i (.numbered id')) id := by
  refine h.congr (fun _ _ hword => hword.annotate (fun _ => rfl) fun _ _ hkind _ => hkind) ?_
  intro m r?
  rw [carries_number hi he hblank]
  exact or_iff_left fun h => hne h.2.1

theorem Pairs.issue {env : Env} {id : Nat} (h : Pairs σ τ id) (hσ : σ.Extends τ)
    (hnext : Parse.next env τ.issued = .ok ((), υ)) (hne : id ≠ τ.nextContextId) :
    Pairs σ (υ.markLast (.numbered τ.nextContextId)) id := by
  refine h.congr (fun _ _ h => h.extend (τ.extends_issued.consume hnext _)) fun m r? => ?_
  rw [carries_issue hσ hnext]
  exact or_iff_left fun h => hne h.2.1

theorem Pairs.stamp {e : Entry} {id id' : Nat} (h : Pairs σ τ id) (hissued : Issued own σ τ)
    (hown : own < σ.nextContextId) (hsize : σ.tokens.size < τ.tokens.size)
    (hlast : τ.entries.getLast? = some e) (hcarry : MayCarry own σ τ e id') :
    Pairs σ (τ.markLast (.numbered id')) id := by
  intro i hi
  -- A class has a number that was issued to it, so not this one.
  have hne : id ≠ id' := by
    rintro rfl
    rcases (carries_markLast hsize hlast hcarry.blank).1 hi with hi | ⟨-, -, hclass⟩
    · have hrange := (hi.issued hissued).resolve_right fun h => h.1 rfl
      rcases hcarry.number with hzero | ⟨heq, -⟩ | hspare
      · omega
      · omega
      · obtain ⟨hlow, e', he', hid, hclass⟩ := hi
        exact hspare.noClass i e' hlow he' (TokenKind.pairing?_eq_some hclass) hid
    · exact hcarry.noClass (TokenKind.pairing?_eq_some hclass.symm)
  rw [List.getLast?_eq_getElem?, State.length_entries] at hlast
  exact h.number (by omega) hlast hcarry.blank hne i hi

/-! ## Constructs -/

section

variable {env : Env} {id : Nat}

/-- An object is no class, unless its first token was not looked at. -/
theorem Pairs.object (hτ : Pairs σ τ id) (hσ : σ.Extends τ) (hissued : Issued own σ τ)
    (hown : own < σ.nextContextId) (hopens : τ.OpensObject)
    (hnext : Parse.next env τ.issued = .ok ((), υ))
    (hω : Pairs (υ.markLast (.numbered τ.nextContextId)) ω id)
    (hext : (υ.markLast (.numbered τ.nextContextId)).Extends ω)
    (hissued' : Issued τ.nextContextId (υ.markLast (.numbered τ.nextContextId)) ω)
    (hsize : υ.tokens.size < ω.tokens.size) (hclosed : ω.HasClosed) :
    Pairs σ (ω.markLast (.numbered τ.nextContextId)) id := by
  obtain ⟨e, hlast, hkind, hblank⟩ := hclosed
  have hopened := (hσ.trans τ.extends_issued).consume hnext (.numbered τ.nextContextId)
  have hbefore := hσ.nextId
  have hgrown : σ.tokens.size ≤ υ.tokens.size := by simpa using hopened.size_le
  by_cases hid : id = τ.nextContextId
  · subst hid
    have hfirst : (υ.markLast (.numbered τ.nextContextId)).nextContextId = τ.nextContextId + 1 :=
      (takes_of_next hnext).nextId
    -- The number is on the first token, on names inside and on the last token.
    have hcarries (m : Nat) (r? : Option TokenKind)
        (hm : Carries σ (ω.markLast (.numbered τ.nextContextId)) τ.nextContextId m r?) :
        (m = τ.tokens.size ∧ r? = τ.current.kind.pairing?) ∨ r? = none ∨ r? = some .braceClose := by
      rw [carries_markLast (by omega) hlast hblank, carries_split hopened hext,
        carries_issue hσ hnext, hkind] at hm
      rcases hm with ((hm | ⟨rfl, -, rfl⟩) | hm) | ⟨-, -, rfl⟩
      · rcases hm.issued hissued with hother | ⟨-, hzero | ⟨heq, -⟩⟩ <;> omega
      · exact .inl ⟨rfl, rfl⟩
      · rcases hm.issued hissued' with hother | ⟨-, hzero | ⟨-, hnone⟩⟩
        · omega
        · omega
        · exact .inr (.inl hnone)
      · exact .inr (.inr rfl)
    intro i hi
    obtain ⟨rfl, hclass⟩ | hnone | hclose := hcarries i _ hi
    · have hclass := TokenKind.pairing?_eq_some hclass.symm
      refine .inr ⟨?_, fun ⟨m, hm⟩ => ?_⟩
      · obtain ⟨e', he', hwith⟩ := hopens.resolve_left fun hbrace => by cases hbrace.symm.trans hclass
        rw [List.getLast?_eq_getElem?, State.length_entries] at he'
        have hpos : τ.tokens.size - 1 < τ.tokens.size := by
          simpa using (List.getElem?_eq_some_iff.1 he').1
        have hafter : τ.AfterWith τ.tokens.size := ⟨_, e', by omega, he', hwith⟩
        have hafter' := (hafter.extend (τ.extends_issued.consume hnext _)).extend hext
        exact hafter'.annotate (fun _ => rfl) fun _ _ hkind _ => hkind
      · obtain ⟨-, hbrace⟩ | hnone | hclose := hcarries m _ hm
        · rw [hclass] at hbrace
          cases hbrace
        · cases hnone
        · cases hclose
    · cases hnone
    · cases hclose
  · have hwhole := (hτ.issue hσ hnext hid).trans hω hopened hext (hissued.issue hσ hnext) hissued'
      hown (.inr hid)
    rw [List.getLast?_eq_getElem?, State.length_entries] at hlast
    exact hwhole.number (by omega) hlast hblank hid

end

/-- The parts of a class: its word, its head, and its members in braces. -/
structure ClassParts (env : Env) (own : Nat) (σ τ υ φ ψ ω : State) : Prop where
  before : σ.Extends τ
  issued : Issued own σ τ
  own_lt : own < σ.nextContextId
  word : Parse.next env τ.issued = .ok ((), υ)
  head : (υ.markLast (.numbered τ.nextContextId)).Extends φ
  issuedHead : Issued 0 (υ.markLast (.numbered τ.nextContextId)) φ
  brace : φ.current.kind = .braceOpen
  opened : Parse.next env φ = .ok ((), ψ)
  body : ψ.Extends ω
  issuedBody : Issued τ.nextContextId ψ ω
  size_lt : ψ.tokens.size < ω.tokens.size
  closed : ω.HasClosed

/-- Gives the number of a class to the braces of its body. -/
def State.numberBraces (ω : State) (openBrace id : Nat) : State :=
  (ω.modifyToken openBrace (.numbered id)).markLast (.numbered id)

namespace ClassParts

variable {env : Env} {φ ψ : State} {id m : Nat} {r? : Option TokenKind}

theorem sizes (h : ClassParts env own σ τ υ φ ψ ω) :
    σ.tokens.size ≤ τ.tokens.size ∧ τ.tokens.size < φ.tokens.size ∧
      ψ.tokens.size = φ.tokens.size + 1 := by
  have hbefore := h.before.size_le
  have hword := size_of_next h.word
  have hhead := h.head.size_le
  rw [State.size_issued] at hword
  rw [State.size_markLast] at hhead
  exact ⟨hbefore, by omega, size_of_next h.opened⟩

/-- The numbers from the one of the class on are issued to its parts. -/
theorem nextIds (h : ClassParts env own σ τ υ φ ψ ω) :
    σ.nextContextId ≤ τ.nextContextId ∧
      (υ.markLast (.numbered τ.nextContextId)).nextContextId = τ.nextContextId + 1 ∧
      τ.nextContextId < ψ.nextContextId := by
  have hword : (υ.markLast (.numbered τ.nextContextId)).nextContextId = τ.nextContextId + 1 :=
    (takes_of_next h.word).nextId
  have hhead := h.head.nextId
  refine ⟨h.before.nextId, hword, ?_⟩
  rw [(takes_of_next h.opened).nextId]
  omega

theorem extends_word (h : ClassParts env own σ τ υ φ ψ ω) :
    σ.Extends (υ.markLast (.numbered τ.nextContextId)) :=
  (h.before.trans τ.extends_issued).consume h.word _

theorem extends_opened (h : ClassParts env own σ τ υ φ ψ ω) : σ.Extends ψ :=
  (h.extends_word.trans h.head).trans (takes_of_next h.opened).toExtends

/-- The brace that opens the body carries no number before the class is complete. -/
theorem entry_openBrace (h : ClassParts env own σ τ υ φ ψ ω) :
    ω.entries[φ.tokens.size]? =
      some ⟨.braceOpen, φ.current.keyword, none, none, 0, 0, none, none⟩ := by
  rw [h.body.getElem? (by rw [h.sizes.2.2]; exact Nat.lt_succ_self _), entries_of_next h.opened, h.brace]
  simp

/-- Neither does the one that closes it. -/
theorem entry_closeBrace (h : ClassParts env own σ τ υ φ ψ ω) :
    ∃ e, e.kind = .braceClose ∧ e.contextId? = none ∧ ω.entries.getLast? = some e ∧
      (ω.modifyToken φ.tokens.size (.numbered τ.nextContextId)).entries.getLast? = some e := by
  obtain ⟨e, hlast, hkind, hblank⟩ := h.closed
  refine ⟨e, hkind, hblank, hlast, ?_⟩
  have hsizes := h.sizes
  have hlt := h.size_lt
  rw [List.getLast?_eq_getElem?, State.length_entries] at *
  rw [State.size_modifyToken, State.getElem?_entries, State.modifyToken, Array.getElem?_modify,
    if_neg (by omega), ← State.getElem?_entries, hlast]

/-- The number is on the word, on the braces and on tokens between them. -/
theorem carries_iff (h : ClassParts env own σ τ υ φ ψ ω) :
    Carries σ (ω.numberBraces φ.tokens.size τ.nextContextId) τ.nextContextId m r? ↔
      (m = τ.tokens.size ∧ r? = τ.current.kind.pairing?) ∨
      (m = φ.tokens.size ∧ r? = some .braceOpen) ∨ Carries ψ ω τ.nextContextId m r? ∨
      (m + 1 = ω.tokens.size ∧ r? = some .braceClose) := by
  obtain ⟨e, hkind, hblank, -, hlast⟩ := h.entry_closeBrace
  have hsizes := h.sizes
  have hlt := h.size_lt
  have hids := h.nextIds
  have hown := h.own_lt
  have hbefore : ¬ Carries σ τ τ.nextContextId m r? := fun hm => by
    rcases hm.issued h.issued with hother | ⟨-, hzero | ⟨heq, -⟩⟩ <;> omega
  have hhead : ¬ Carries (υ.markLast (.numbered τ.nextContextId)) φ τ.nextContextId m r? :=
    fun hm => by rcases hm.issued h.issuedHead with hother | ⟨-, hzero | ⟨heq, -⟩⟩ <;> omega
  rw [State.numberBraces, carries_markLast (by rw [State.size_modifyToken]; omega) hlast hblank,
    carries_number (by omega) h.entry_openBrace rfl, carries_split h.extends_opened h.body,
    carries_take (takes_of_next h.opened), carries_split h.extends_word h.head,
    carries_issue h.before h.word, State.size_modifyToken, hkind]
  constructor
  · rintro ((((((hm | ⟨hm, -, hr⟩) | hm) | hm) | ⟨hm, -, hr⟩) | ⟨hm, -, hr⟩))
    · exact absurd hm hbefore
    · exact .inl ⟨hm, hr⟩
    · exact absurd hm hhead
    · exact .inr (.inr (.inl hm))
    · exact .inr (.inl ⟨hm, hr⟩)
    · exact .inr (.inr (.inr ⟨hm, hr⟩))
  · rintro (⟨hm, hr⟩ | ⟨hm, hr⟩ | hm | ⟨hm, hr⟩)
    · exact .inl (.inl (.inl (.inl (.inr ⟨hm, rfl, hr⟩))))
    · exact .inl (.inr ⟨hm, rfl, hr⟩)
    · exact .inl (.inl (.inr hm))
    · exact .inr ⟨hm, rfl, hr⟩

/-- Inside the braces only names carry the number. -/
theorem carries_inside (h : ClassParts env own σ τ υ φ ψ ω) (hm : Carries ψ ω τ.nextContextId m r?) :
    φ.tokens.size < m ∧ m + 1 < ω.tokens.size ∧ r? = none := by
  obtain ⟨e, -, hblank, hlast, -⟩ := h.entry_closeBrace
  have hids := h.nextIds
  have hown := h.own_lt
  have hlow := hm.1
  have hhigh := hm.lt
  refine ⟨by have := h.sizes; omega, ?_, ?_⟩
  · rw [List.getLast?_eq_getElem?, State.length_entries] at hlast
    obtain ⟨-, e', he', hid, -⟩ := hm
    rcases Nat.lt_or_eq_of_le hhigh with hlt | heq
    · exact hlt
    · rw [← heq, Nat.succ_sub_one, he'] at hlast
      cases hlast
      cases hblank.symm.trans hid
  · rcases hm.issued h.issuedBody with hother | ⟨-, hzero | ⟨-, hnone⟩⟩
    · omega
    · omega
    · exact hnone

theorem pairedAt (h : ClassParts env own σ τ υ φ ψ ω) :
    PairedAt σ (ω.numberBraces φ.tokens.size τ.nextContextId) τ.tokens.size τ.nextContextId := by
  have hsizes := h.sizes
  have hlt := h.size_lt
  refine ⟨φ.tokens.size, ω.tokens.size - 1, by omega, by omega,
    h.carries_iff.2 (.inr (.inl ⟨rfl, rfl⟩)),
    h.carries_iff.2 (.inr (.inr (.inr ⟨by omega, rfl⟩))), fun m r? hm => ?_⟩
  obtain ⟨rfl, -⟩ | ⟨rfl, -⟩ | hm | ⟨hm, -⟩ := h.carries_iff.1 hm
  · exact .inl rfl
  · exact .inr (.inl rfl)
  · obtain ⟨hlow, hhigh, hnone⟩ := h.carries_inside hm
    exact .inr (.inr (.inr ⟨hlow, by omega, hnone⟩))
  · exact .inr (.inr (.inl (by omega)))

/-- Classes with other numbers are found before the class, in its head or in its body. -/
theorem pairs_others (h : ClassParts env own σ τ υ φ ψ ω) (hτ : Pairs σ τ id)
    (hφ : Pairs (υ.markLast (.numbered τ.nextContextId)) φ id) (hω : Pairs ψ ω id)
    (hid : id ≠ τ.nextContextId) : Pairs σ (ω.numberBraces φ.tokens.size τ.nextContextId) id := by
  obtain ⟨e, -, hblank, -, hlast⟩ := h.entry_closeBrace
  have hsizes := h.sizes
  have hlt := h.size_lt
  have hword := h.issued.issue h.before h.word
  have hhead := (hτ.issue h.before h.word hid).trans hφ h.extends_word h.head hword h.issuedHead h.own_lt
    (.inl (Nat.zero_lt_of_lt h.own_lt))
  have hissued := (hword.trans h.issuedHead h.extends_word h.head (.inr (.inl rfl))).take
    (takes_of_next h.opened)
  have hwhole := (hhead.take (takes_of_next h.opened)).trans hω h.extends_opened h.body hissued
    h.issuedBody h.own_lt (.inr hid)
  rw [List.getLast?_eq_getElem?, State.length_entries] at hlast
  exact (hwhole.number (by omega) h.entry_openBrace rfl hid).number (by simp; omega) hlast hblank hid

/-- A class has its braces, and what is between them does not take its number for its own. -/
theorem pairs (h : ClassParts env own σ τ υ φ ψ ω) (hτ : Pairs σ τ id)
    (hφ : Pairs (υ.markLast (.numbered τ.nextContextId)) φ id) (hω : Pairs ψ ω id) :
    Pairs σ (ω.numberBraces φ.tokens.size τ.nextContextId) id := by
  by_cases hid : id = τ.nextContextId
  · subst hid
    intro i hi
    obtain ⟨rfl, -⟩ | ⟨-, hbrace⟩ | hi | ⟨-, hbrace⟩ := h.carries_iff.1 hi
    · exact .inl h.pairedAt
    · cases hbrace
    · cases (h.carries_inside hi).2.2
    · cases hbrace
  · exact h.pairs_others hτ hφ hω hid

end ClassParts

/-- Every rule pairs the classes it reads, unless it ends with an error. -/
theorem Composed.pairs (h : Composed s d own σ τ) (hown : own < σ.nextContextId)
    (hnone : τ.error? = none) (id : Nat) : Pairs σ τ id := by
  induction h with
  | stay σ => exact .refl σ id
  | act a recur _ _ hrun ih => exact (ih hown ((a.takes hrun).error hnone)).take (a.takes hrun)
  | note _ hnote ih => exact (ih hown (hnote.toExtends.error hnone)).note hnote
  | rekind i k _ _ hloose hkind ih => exact (ih hown hnone).rekind hloose hkind
  | subscript start _ _ _ _ ih => exact (ih hown hnone).annotate _ (fun _ => rfl) fun _ => rfl
  | stamp id' hτ hclear hsize hlast hcarry ih =>
    exact (ih hown hclear).stamp (hτ.issued hclear) hown hsize hlast hcarry
  | assign hleft hright _ ih hinside =>
    have hclear := hright.toExtends.error hnone
    have hown' := Nat.lt_of_lt_of_le hown hleft.toExtends.nextId
    have hwhole := (ih hown hclear).trans (hinside hown' hnone) hleft.toExtends hright.toExtends
      (hleft.issued hclear) (hright.issued hnone) hown (.inl hown)
    exact hwhole.annotate _ (fun _ => rfl) fun _ => rfl
  | @coalesce _ σ τ υ ω start recur hleft _ _ _ hnext hright ih hinside =>
    have hclear := (takes_of_next hnext).error (hright.toExtends.error hnone)
    have hext := hleft.toExtends.consume hnext (.nullishOf start)
    have hoperator : Pairs σ (υ.markLast (.nullishOf start)) id :=
      ((ih hown hclear).take (takes_of_next hnext)).annotate _ (fun _ => rfl) fun _ => rfl
    have hissued : Issued _ σ (υ.markLast (.nullishOf start)) :=
      ((hleft.issued hclear).take (takes_of_next hnext)).annotate _ (fun _ => rfl) fun _ => rfl
    have hown' := Nat.lt_of_lt_of_le hown hext.nextId
    have hwhole := hoperator.trans (hinside hown' hnone) hext hright.toExtends hissued
      (hright.issued hnone) hown (.inl hown)
    exact (hwhole.annotate start (f := .opensNullish) (fun _ => rfl) fun _ => rfl).annotate _
      (fun _ => rfl) fun _ => rfl
  | @object _ σ τ υ ω recur hbefore hopens hnext hinner _ hsize hclosed ih hinside =>
    have hclear : τ.error? = none := (takes_of_next hnext).error (hinner.toExtends.error hnone)
    have hinner' := hinside (by
      rw [show (υ.markLast _).nextContextId = _ from (takes_of_next hnext).nextId]
      exact Nat.lt_succ_self _) hnone
    exact (ih hown hclear).object hbefore.toExtends (hbefore.issued hclear) hown hopens hnext hinner'
      hinner.toExtends (hinner.issued hnone) hsize hclosed
  | @classDefinition _ σ τ υ φ ψ ω recur hbefore hnext hhead hkind hbrace hbody _ hsize hclosed ih
      hhead' hbody' =>
    have hclear := (takes_of_next hbrace).error (hbody.toExtends.error hnone)
    have hclear' : τ.error? = none := (takes_of_next hnext).error (hhead.toExtends.error hclear)
    have hparts : ClassParts _ _ σ τ υ φ ψ ω :=
      ⟨hbefore.toExtends, hbefore.issued hclear', hown, hnext, hhead.toExtends, hhead.issued hclear,
        hkind, hbrace, hbody.toExtends, hbody.issued hnone, hsize, hclosed⟩
    have hids := hparts.nextIds
    exact hparts.pairs (ih hown hclear') (hhead' (by omega) hclear) (hbody' hids.2.2 hnone)
  | lost _ _ _ herror => exact absurd hnone herror
  | retreat _ hback ih => exact (ih hown hnone).note hback.toExtends.notes_restore

end Grammar

namespace AnnotatedFile

open Grammar

/-- The word of a class at a token, and its braces. The three carry the number of the class, and so may
other tokens between the braces. -/
structure IsClassAt (f : AnnotatedFile) (id i j k : Nat) : Prop where
  order : i < j ∧ j < k
  openBrace : ∃ t, f.tokens[j]? = some t ∧ t.contextId? = some id ∧ t.kind = .braceOpen
  closeBrace : ∃ t, f.tokens[k]? = some t ∧ t.contextId? = some id ∧ t.kind = .braceClose
  onlyWord {m : Nat} {t : Token} : f.tokens[m]? = some t → t.contextId? = some id →
    t.kind = .classWord → m = i
  onlyOpenBrace {m : Nat} {t : Token} : f.tokens[m]? = some t → t.contextId? = some id →
    t.kind = .braceOpen → m = j
  onlyCloseBrace {m : Nat} {t : Token} : f.tokens[m]? = some t → t.contextId? = some id →
    t.kind = .braceClose → m = k
  inside {m : Nat} {t : Token} : f.tokens[m]? = some t → t.contextId? = some id →
    m = i ∨ m = j ∨ m = k ∨ (j < m ∧ m < k)

/-- The token stands where the attributes of an import begin, and was taken for their brace. -/
structure IsAttributesAt (f : AnnotatedFile) (id i : Nat) : Prop where
  afterWith : ∃ p t, p + 1 = i ∧ f.tokens[p]? = some t ∧
    (t.kind = .withWord ∨ t.keyword = .assertName)
  noBrace {m : Nat} {t : Token} : f.tokens[m]? = some t → t.contextId? = some id →
    t.kind ≠ .braceOpen

end AnnotatedFile

end PlainScript
