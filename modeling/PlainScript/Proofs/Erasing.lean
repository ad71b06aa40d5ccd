import PlainScript.Proofs.ModuleCourses

/-!
# What is written for the tokens of types

`Strips` says that a part of the writer writes nothing for a marked token unless the token is
overlooked, and that it leaves the cursor where marked tokens right behind it have been passed by
other rules than the one for types. It is shown for every part, by its shape.
-/

namespace PlainScript.Emit

-- Counted in combinators.
set_option synthInstance.maxSize 100000

/-- A token of a type is written as nothing, unless it is overlooked. -/
def Bare (s : Setting) (i : Nat) (code : String) : Prop :=
  (s.tape.get i).isType = true → code = "" ∨ Overlooked s i

/-- A token that may be written as anything where the cursor has come to it. -/
class Excused (s : Setting) (i : Nat) : Prop where
  written (h : (s.tape.get i).isType = true) : WrittenPart s i

/-- A token that may be written if it has a kind. -/
class Fits (s : Setting) (i : Nat) (kind : TokenKind) : Prop where
  written (hkind : s.tape.kind i = kind) (h : (s.tape.get i).isType = true) : WrittenPart s i

/-- A token that may be removed by another rule than the one for types. -/
class Passes (s : Setting) (i : Nat) : Prop where
  passed (h : (s.tape.get i).isType = true) : Passed s i

/-- A token that may be removed if it has a kind. -/
class Drops (s : Setting) (i : Nat) (kind : TokenKind) : Prop where
  passed (hkind : s.tape.kind i = kind) (h : (s.tape.get i).isType = true) : Passed s i

/-- A token that is not marked. -/
class Unmarked (s : Setting) (i : Nat) : Prop where
  isType : (s.tape.get i).isType = false

instance (s : Setting) (i : Nat) [h : Unmarked s i] : Excused s i where
  written hmark := absurd hmark (by simp [h.isType])

theorem excused_of_kind {s : Setting} {i : Nat} {kind : TokenKind} [h : Fits s i kind]
    (hkind : s.tape.kind i = kind) : Excused s i :=
  ⟨h.written hkind⟩

instance (s : Setting) (i : Nat) [h : Excused s i] : Passes s i where
  passed hmark := .inl (h.written hmark)

instance (s : Setting) (i : Nat) (kind : TokenKind) [h : Passes s i] : Drops s i kind where
  passed _ := h.passed

/-! ## Parts that write nothing for types -/

/-- From the first state to the second the cursor has not moved back and has stayed where it can be,
and what the output of the second one has for a token is bare or was there before. -/
def State.Strips (s : Setting) (σ τ : State) : Prop :=
  σ.index ≤ τ.index ∧ (Open s σ.index → Open s τ.index ∧
    ∀ i code, Piece.token i code ∈ τ.output.toList → Piece.token i code ∈ σ.output.toList ∨ Bare s i code)

namespace State.Strips

variable {s : Setting} {σ τ υ : State}

theorem of_eq (hindex : τ.index = σ.index) (houtput : τ.output = σ.output) : σ.Strips s τ :=
  ⟨Nat.le_of_eq hindex.symm, fun hopen => ⟨hindex ▸ hopen, fun _ _ hmem => .inl (houtput ▸ hmem)⟩⟩

theorem refl (s : Setting) (σ : State) : σ.Strips s σ := of_eq rfl rfl

theorem trans (hστ : σ.Strips s τ) (hτυ : τ.Strips s υ) : σ.Strips s υ := by
  refine ⟨Nat.le_trans hστ.1 hτυ.1, fun hσ => ?_⟩
  obtain ⟨hτ, hfirst⟩ := hστ.2 hσ
  obtain ⟨hυ, hsecond⟩ := hτυ.2 hτ
  refine ⟨hυ, fun i code hmem => ?_⟩
  obtain hold | hnew := hsecond i code hmem
  · exact hfirst i code hold
  · exact .inr hnew

end State.Strips

/-- Tasks write nothing for types, and handle by itself what the writer handles so. Elements are not
asked for. -/
def StripsTasks (s : Setting) (recur : Task → Step Unit) : Prop :=
  ∀ (task : Task) (σ τ : State), task ≠ .element → recur task σ = .ok ((), τ) →
    σ.Strips s τ ∧ (task = .token → Alone s.tape σ.index → τ.index = σ.index + 1)

/-- Writing nothing for types. -/
def stripping (s : Setting) : Course where
  Tasks := StripsTasks s
  Fit _ := True
  Rel σ τ := σ.Strips s τ
  refl _ := .refl s _
  trans := .trans
  fit _ := trivial
  index_le h := h.1

/-- A part of the writer that writes nothing for types when the cursor is at an index. -/
abbrev Strips (s : Setting) (i : Nat) {α : Type} (e : Emit α) : Prop := Takes (stripping s) s i e

/-- Where the cursor is after a part of the writer that starts at an index. -/
abbrev Lands (s : Setting) (i : Nat) {α : Type} (Q : α → Nat → Prop) (e : Emit α) : Prop :=
  Arrives (StripsTasks s) (fun _ => True) (fun _ => True) s i Q e

namespace Arrives

variable {s : Setting} {i : Nat} {α β : Type} {Q : α → Nat → Prop}

theorem anywhere {e : Emit α} : Lands s i (fun _ _ => True) e :=
  fun _ _ _ _ _ _ _ _ => ⟨trivial, trivial⟩

theorem ofFixes {e : Emit α} [h : Fixes State.index e] : Lands s i (fun _ j => j = i) e := by
  intro recur σ τ a hrecur _ hindex hrun
  exact ⟨trivial, (h.fixes hrun).trans hindex⟩

theorem look {e : Emit β} {f : β → Emit α} [h : Fixes State.index e]
    (hf : ∀ b, Lands s i Q (f b)) : Lands s i Q (e >>= f) := by
  refine .bind (ofFixes (e := e)) fun b j hj => ?_
  subst hj
  exact hf b

theorem ofWrites {e : Emit Unit} {code : String} [h : Writes s i e code] :
    Lands s i (fun _ j => j = i + 1) e := by
  intro recur σ τ a hrecur _ hindex hrun
  exact ⟨trivial, (h.writes hindex hrun).1⟩

theorem afterWrites {e : Emit Unit} {code : String} {f : Unit → Emit α} [h : Writes s i e code]
    (hf : ∀ u, Lands s (i + 1) Q (f u)) : Lands s i Q (e >>= f) := by
  refine .bind (ofWrites (e := e)) fun u j hj => ?_
  subst hj
  exact hf u

theorem copyExpected (kind : TokenKind) :
    Lands s i (fun _ j => j = i + 1 ∧ s.tape.kind i = kind) (Emit.copyExpected kind) := by
  intro recur σ τ a hrecur _ hindex hrun
  have hwrites : Writes s i (Emit.copyExpected kind) (s.tape.text i) := inferInstance
  exact ⟨trivial, (hwrites.writes hindex hrun).1, hindex ▸ kind_of_copyExpected hrun⟩

theorem ofGives {Q : α → Prop} {e : Emit α} (h : Gives s Q e) : Lands s i (fun a _ => Q a) e :=
  fun recur σ τ a _ _ _ hrun => ⟨trivial, h recur σ τ a hrun⟩

end Arrives

namespace Strips

variable {s : Setting} {i : Nat} {α β : Type}

theorem strips {e : Emit α} (h : Strips s i e) {recur : Task → Step Unit} {σ τ : State} {a : α}
    (hrecur : StripsTasks s recur) (hindex : σ.index = i) (hrun : e ⟨s, recur⟩ σ = .ok (a, τ)) :
    σ.Strips s τ :=
  h.takes hrecur trivial hindex hrun

theorem of {e : Emit α} (h : ∀ {recur : Task → Step Unit} {σ τ : State} {a : α}, StripsTasks s recur →
    σ.index = i → e ⟨s, recur⟩ σ = .ok (a, τ) → σ.Strips s τ) : Strips s i e :=
  ⟨fun hrecur _ => h hrecur⟩

instance Takes.orElse {c : Course} (e f : Emit Bool) [he : Takes c s i e] [hdeclines : Declines e]
    [hf : Takes c s i f] : Takes c s i (e >>= fun b => if b = true then Pure.pure true else f) where
  takes hrecur hfit hindex hrun := by
    obtain ⟨b, υ, hfirst, hrest⟩ := bind_ok hrun
    have hυ := he.takes hrecur hfit hindex hfirst
    cases b with
    | true =>
      cases hrest
      exact hυ
    | false =>
      have hplace := State.index_of_place (hdeclines.place hfirst)
      exact c.trans hυ (hf.takes hrecur (c.fit hυ) (hplace.trans hindex) hrest)

instance reachToken : Strips s i (Emit.reach .token) :=
  .of fun hrecur _ hrun => (hrecur .token _ _ nofun hrun).1

instance reachBalanced : Strips s i (Emit.reach .balanced) :=
  .of fun hrecur _ hrun => (hrecur .balanced _ _ nofun hrun).1

instance flags (names called vars paths exports default? file? lines mocks) :
    Strips s i (changeState State.output names called vars paths exports default? file? lines mocks) :=
  .of fun _ _ hrun => by
    cases hrun
    exact .refl s _

/-! ## Output -/

instance add (code : String) : Strips s i (Emit.add code) :=
  .of fun {recur σ τ a} _ _ hrun => by
    obtain ⟨hindex, codes, houtput⟩ := adds_of_add hrun
    refine ⟨Nat.le_of_eq hindex.symm, fun hopen => ⟨hindex ▸ hopen, fun j code hmem => .inl ?_⟩⟩
    rw [houtput] at hmem
    simpa using hmem

instance pushGap (j : Nat) (text : String) : Strips s i (Emit.push (.gap j text)) :=
  .of fun _ _ hrun => by
    cases hrun
    refine ⟨Nat.le_refl _, fun hopen => ⟨hopen, fun j code hmem => .inl ?_⟩⟩
    simpa using hmem

theorem strips_of_writes {e : Emit Unit} {code : String} [h : Writes s i e code] [hi : Passes s i]
    (hcode : Open s i → Bare s i code) {recur : Task → Step Unit} {σ τ : State} (hindex : σ.index = i)
    (hrun : e ⟨s, recur⟩ σ = .ok ((), τ)) : τ.index = i + 1 ∧ σ.Strips s τ := by
  obtain ⟨hnext, gapText, opened, closed, houtput⟩ := h.writes hindex hrun
  refine ⟨hnext, by omega, fun hopen => ⟨?_, fun j code' hmem => ?_⟩⟩
  · rw [hindex] at hopen
    exact hnext ▸ hopen.succ hi.passed
  · rw [houtput] at hmem
    have hpiece : Piece.token j code' ∈ σ.output.toList ∨ j = i ∧ code' = code := by
      simpa using hmem
    obtain hold | ⟨rfl, rfl⟩ := hpiece
    · exact .inl hold
    · exact .inr (hcode (hindex ▸ hopen))

theorem ofBare {e : Emit Unit} {code : String} [Writes s i e code] [Passes s i]
    (hcode : Open s i → Bare s i code) : Strips s i e :=
  .of fun _ hindex hrun => (strips_of_writes hcode hindex hrun).2

theorem afterBare {e : Emit Unit} {code : String} {f : Unit → Emit α} [Writes s i e code] [Passes s i]
    (hcode : Open s i → Bare s i code) (hf : ∀ u, Strips s (i + 1) (f u)) : Strips s i (e >>= f) :=
  .of fun hrecur hindex hrun => by
    obtain ⟨u, υ, hfirst, hrest⟩ := bind_ok hrun
    obtain ⟨hυ, hstrips⟩ := strips_of_writes hcode hindex hfirst
    exact hstrips.trans ((hf u).strips hrecur hυ hrest)

theorem bare_empty : Bare s i "" := fun _ => .inl rfl

theorem bare_of_excused {code : String} [h : Excused s i] (hopen : Open s i) : Bare s i code :=
  fun hmark => .inr ⟨h.written hmark, hopen hmark⟩

instance ofRemoves (e : Emit Unit) [Writes s i e ""] [Passes s i] : Strips s i e :=
  ofBare fun _ => bare_empty

instance (e : Emit Unit) (f : Unit → Emit α) [Writes s i e ""] [Passes s i]
    [hf : ∀ u, Strips s (i + 1) (f u)] : Strips s i (e >>= f) :=
  afterBare (fun _ => bare_empty) hf

instance (e : Emit Unit) (code : String) [Writes s i e code] [Excused s i] : Strips s i e :=
  ofBare bare_of_excused

instance (e : Emit Unit) (code : String) (f : Unit → Emit α) [Writes s i e code]
    [Excused s i] [hf : ∀ u, Strips s (i + 1) (f u)] : Strips s i (e >>= f) :=
  afterBare bare_of_excused hf

theorem afterWrite {e : Emit Unit} {code : String} {f : Unit → Emit α} [Writes s i e code]
    [Excused s i] (hf : ∀ u, Strips s (i + 1) (f u)) : Strips s i (e >>= f) :=
  afterBare bare_of_excused hf

theorem afterRemove {e : Emit Unit} {f : Unit → Emit α} [Writes s i e ""] [Passes s i]
    (hf : ∀ u, Strips s (i + 1) (f u)) : Strips s i (e >>= f) :=
  afterBare (fun _ => bare_empty) hf

instance copyExpected (kind : TokenKind) [h : Fits s i kind] :
    Strips s i (Emit.copyExpected kind) :=
  .of fun _ hindex hrun => by
    have hkind := kind_of_copyExpected hrun
    rw [hindex] at hkind
    have := excused_of_kind hkind
    exact (strips_of_writes bare_of_excused hindex hrun).2

theorem afterExpected {kind : TokenKind} {f : Unit → Emit α} [h : Fits s i kind]
    (hf : s.tape.kind i = kind → ∀ u, Strips s (i + 1) (f u)) :
    Strips s i (Emit.copyExpected kind >>= f) :=
  .of fun hrecur hindex hrun => by
    obtain ⟨u, υ, hfirst, hrest⟩ := bind_ok hrun
    have hkind := kind_of_copyExpected hfirst
    rw [hindex] at hkind
    have := excused_of_kind hkind
    obtain ⟨hυ, hstrips⟩ := strips_of_writes bare_of_excused hindex hfirst
    exact hstrips.trans ((hf hkind u).strips hrecur hυ hrest)

instance afterCopyExpected (kind : TokenKind) (f : Unit → Emit α) [Fits s i kind]
    [hf : ∀ u, Strips s (i + 1) (f u)] : Strips s i (Emit.copyExpected kind >>= f) :=
  afterExpected fun _ => hf

end Strips

/-- The same with what is known about its answer and its end. -/
abbrev StripsTo (s : Setting) (i : Nat) {α : Type} (Q : α → Nat → Prop) (e : Emit α) : Prop :=
  TakesTo (stripping s) s i Q e

theorem TakesTo.lands {s : Setting} {i : Nat} {α : Type} {Q : α → Nat → Prop} {e : Emit α}
    (h : StripsTo s i Q e) : Lands s i Q e :=
  fun recur σ τ a hrecur _ hindex hrun => ⟨trivial, (h recur σ τ a hrecur trivial hindex hrun).2⟩

theorem Arrives.stripsTo {s : Setting} {i : Nat} {α : Type} {Q : α → Nat → Prop} {e : Emit α}
    [he : Strips s i e] (h : Lands s i Q e) : StripsTo s i Q e :=
  fun recur σ τ a hrecur _ hindex hrun =>
    ⟨he.strips hrecur hindex hrun, (h recur σ τ a hrecur trivial hindex hrun).2⟩

/-! ## The operations of the cursor -/

variable {s : Setting} {i : Nat}

theorem strips_removeTo {stop : Nat} (h : ∀ j, i ≤ j → j < stop → Passes s j) :
    Strips s i (removeTo stop) := by
  unfold removeTo loopTo
  refine .ofLoopWhileFor fun k hk => ?_
  have := h (i + k) (Nat.le_add_right i k) (of_decide_eq_true hk)
  infer_instance

theorem lands_removeTo {stop : Nat} (h : i ≤ stop) : Lands s i (fun _ j => j = stop) (removeTo stop) :=
  .loopTo (fun _ => .ofWrites) h

theorem lands_processTo {stop : Nat} : Lands s i (fun _ j => max i stop ≤ j ∧
    ((∀ k, i ≤ k → k < stop → Alone s.tape k) → j = max i stop)) (processTo stop) := by
  have htoken (j : Nat) : Lands s j (fun _ k => j ≤ k ∧ (Alone s.tape j → k = j + 1)) processToken := by
    intro recur σ τ a hrecur _ hindex hrun
    subst hindex
    obtain ⟨hstrips, halone⟩ := hrecur .token σ τ (fun h => by cases h) hrun
    exact ⟨trivial, hstrips.1, halone rfl⟩
  have hloop : Lands s i (fun _ j => (i ≤ j ∧ ((∀ k, i ≤ k → k < stop → Alone s.tape k) →
      j ≤ max i stop)) ∧ (View.index ⟨s.tape, j⟩ < stop : Bool) = false) (processTo stop) := by
    refine .loopWhileFor (fun j => i ≤ j ∧ ((∀ k, i ≤ k → k < stop → Alone s.tape k) →
      j ≤ max i stop)) (fun j hj hlt => (htoken j).imp fun _ k hk => ⟨by omega, fun halone => ?_⟩)
      ⟨Nat.le_refl i, fun _ => Nat.le_max_left i stop⟩
    have hlt : j < stop := of_decide_eq_true hlt
    have hnext := hk.2 (halone j hj.1 hlt)
    omega
  refine hloop.imp fun _ j hj => ?_
  have hge : ¬ j < stop := of_decide_eq_false hj.2
  refine ⟨by omega, fun halone => ?_⟩
  have hle := hj.1.2 halone
  omega

theorem stripsTo_removeIf {kind : TokenKind} [h : Drops s i kind] {Q : Nat → Prop}
    (hyes : s.tape.kind i = kind → Q (i + 1)) (hno : s.tape.kind i ≠ kind → Q i) :
    StripsTo s i (fun _ j => Q j) (removeIf kind) := by
  unfold removeIf
  refine .view ?_
  split
  next hkind =>
    have hkind : s.tape.kind i = kind := beq_iff_eq.1 hkind
    have : Passes s i := ⟨h.passed hkind⟩
    exact .ofWrites (hyes hkind)
  next hkind => exact .pure (hno fun h => hkind (beq_iff_eq.2 h))

instance (kind : TokenKind) [Drops s i kind] : Strips s i (removeIf kind) :=
  (stripsTo_removeIf (Q := fun _ => True) (fun _ => trivial) fun _ => trivial).takes

/-! ## Recent syntax -/

/-- A file in which recent syntax is replaced. -/
class ReplacesRecent (s : Setting) : Prop where
  recent : s.options.disableESTransforms = false

theorem excused_of_recentPart [hs : ReplacesRecent s] (h : RecentPart s.tape i) : Excused s i :=
  ⟨fun _ => .recent hs.recent h⟩

instance (result : Except StructureError Bool) : Strips s i (Chain.answer result) := by
  unfold Chain.answer
  split <;> infer_instance

instance strips_optionalChainPass [ReplacesRecent s] : Strips s i optionalChainPass := by
  unfold optionalChainPass
  refine .look ?_
  split
  next h =>
    have := excused_of_recentPart (s := s) (.nullish (beq_iff_eq.1 h))
    infer_instance
  next =>
    split
    next h =>
      have : Passes s i := ⟨fun _ => .inr (.deleteWord (beq_iff_eq.1 (Bool.and_eq_true_iff.1 h).1))⟩
      infer_instance
    next =>
      split
      · infer_instance
      next start hstart =>
        split
        · infer_instance
        next hchain =>
          have hchain : (s.tape.get start).isChainStart = true := by
            simpa using (Bool.or_eq_false_iff.1 (Bool.eq_false_of_not_eq_true hchain)).1
          have := excused_of_recentPart (s := s) (.subscript start hstart hchain)
          infer_instance

instance strips_numericSeparatorPass [ReplacesRecent s] : Strips s i numericSeparatorPass := by
  unfold numericSeparatorPass
  refine .look ?_
  dsimp only
  split
  next h =>
    obtain ⟨hkind, hseparator⟩ := Bool.and_eq_true_iff.1 h
    have := excused_of_recentPart (s := s) (.separator hkind hseparator)
    infer_instance
  next => infer_instance

instance strips_catchBindingPass [ReplacesRecent s] : Strips s i catchBindingPass := by
  unfold catchBindingPass
  refine .look ?_
  split
  next h =>
    have := excused_of_recentPart (s := s) (.catchWord h)
    infer_instance
  next => infer_instance

/-! ## Types -/

theorem Tape.isType_of_size_le {t : Tape} (h : t.size ≤ i) : (t.get i).isType = false := by
  rw [Tape.get_of_size_le h]
  rfl

/-- The first token after the marked ones is not marked. -/
instance unmarked_skip (j : Nat) : Unmarked s (s.tape.skip (·.isType) j) where
  isType := by
    obtain hlt | hle := Nat.lt_or_ge (s.tape.skip (·.isType) j) s.tape.size
    · exact Tape.skip_stop hlt
    · exact Tape.isType_of_size_le hle

/-- Removing tokens only. -/
def silencing : Course where
  Tasks _ := True
  Fit _ := True
  Rel σ τ := σ.index ≤ τ.index ∧ ∀ j code, Piece.token j code ∈ τ.output.toList →
    Piece.token j code ∈ σ.output.toList ∨ code = ""
  refl _ := ⟨Nat.le_refl _, fun _ _ => .inl⟩
  trans h h' := ⟨Nat.le_trans h.1 h'.1, fun j code hmem => (h'.2 j code hmem).elim (h.2 j code) .inr⟩
  fit _ := trivial
  index_le h := h.1

/-- A part of the writer that removes tokens only. -/
abbrev Silent (s : Setting) (i : Nat) {α : Type} (e : Emit α) : Prop := Takes silencing s i e

instance silent_removes (e : Emit Unit) [h : Writes s i e ""] : Silent s i e where
  takes {recur σ τ a} _ _ hindex hrun := by
    obtain ⟨hnext, gapText, opened, closed, houtput⟩ := h.writes hindex hrun
    refine ⟨by omega, fun j code hmem => ?_⟩
    rw [houtput] at hmem
    have hpiece : Piece.token j code ∈ σ.output.toList ∨ j = i ∧ code = "" := by simpa using hmem
    exact hpiece.imp_right And.right

/-- What follows tokens that are removed up to one without a mark. -/
theorem Strips.afterSilent {α β : Type} {Q : α → Nat → Prop} {e : Emit α} {f : α → Emit β}
    [he : Silent s i e] (hQ : Lands s i (fun a j => Unmarked s j ∧ Q a j) e)
    (hf : ∀ a k, Unmarked s (i + k) → Q a (i + k) → Strips s (i + k) (f a)) :
    Strips s i (e >>= f) :=
  .of fun hrecur hindex hrun => by
    obtain ⟨a, υ, hfirst, hrest⟩ := bind_ok hrun
    obtain ⟨hle, hsilent⟩ := he.takes trivial trivial hindex hfirst
    obtain ⟨-, hunmarked, hQ⟩ := hQ _ _ _ _ hrecur trivial hindex hfirst
    obtain ⟨k, hk⟩ := Nat.exists_eq_add_of_le (hindex ▸ hle)
    refine State.Strips.trans ⟨hle, fun _ => ⟨.of_unmarked hunmarked.isType, fun j code hmem => ?_⟩⟩
      ((hf a k (hk ▸ hunmarked) (hk ▸ hQ)).strips hrecur hk hrest)
    exact (hsilent j code hmem).imp_right fun hcode _ => .inl hcode

/-- Tokens are removed up to one without a mark. -/
theorem Strips.afterRemoval {α : Type} {stop : Nat} {f : Unit → Emit α} [hstop : Unmarked s stop]
    (hlt : i < stop) (hf : ∀ u, Strips s stop (f u)) : Strips s i (do
      removeFirst
      removeTo stop >>= f) := by
  rw [← bind_assoc]
  refine .afterSilent (Q := fun _ j => j = stop) ?_ fun u k _ hk => ?_
  · refine .afterWrites fun _ => (lands_removeTo hlt).imp fun _ j hj => ?_
    exact ⟨hj ▸ hstop, hj⟩
  · rw [hk]
    exact hf u

instance : Strips s i eraseArrowReturnType := by
  unfold eraseArrowReturnType
  refine .look ?_
  dsimp only
  split
  · infer_instance
  · split
    · infer_instance
    · refine Strips.afterRemoval (Nat.lt_of_lt_of_le (Nat.lt_succ_self i) (Tape.le_skip _ _ _)) ?_
      infer_instance

instance : Strips s i eraseAsyncArrowParameters := by
  unfold eraseAsyncArrowParameters
  refine .look ?_
  dsimp only
  split
  · infer_instance
  next h =>
    have h := Bool.eq_false_of_not_eq_true h
    rw [Bool.not_eq_false', Bool.and_eq_true_iff, Bool.and_eq_true_iff] at h
    have : Excused s i := ⟨fun _ => .asyncArrow h.1.1 (beq_iff_eq.1 h.1.2)⟩
    have hlt : i + 1 < s.tape.skip (·.isType) (i + 1) := by
      refine Nat.lt_of_le_of_ne (Tape.le_skip _ _ _) fun heq => ?_
      have hunmarked := (unmarked_skip (s := s) (i + 1)).isType
      rw [← heq, show (s.tape.get (i + 1)).isType = true from h.2] at hunmarked
      cases hunmarked
    split
    · infer_instance
    · refine Strips.afterWrite fun _ => .afterRemoval hlt ?_
      infer_instance

instance : Strips s i eraseTypes := by
  unfold eraseTypes
  refine .look ?_
  split
  · infer_instance
  · rw [← bind_assoc]
    refine Strips.afterSilent (Q := fun _ _ => True) ?_ fun _ k _ _ => inferInstance
    unfold loopWhile
    refine .afterWrites fun _ => .look fun _ => ?_
    refine (Arrives.loopWhileFor (fun _ => True) (fun _ _ _ => .anywhere) trivial).imp fun _ j hj => ?_
    refine ⟨⟨?_⟩, trivial⟩
    obtain hmark | hend := Bool.and_eq_false_iff.1 hj.2
    · exact hmark
    · exact Tape.isType_of_size_le (by simpa [View.isAtEnd] using hend)

/-- The rule for types handles each marked token. -/
theorem unmarked_of_typePass {recur : Task → Step Unit} {σ τ : State}
    (hrun : typePass ⟨s, recur⟩ σ = .ok (false, τ)) : (s.tape.get σ.index).isType = false := by
  unfold typePass at hrun
  obtain ⟨b, υ, harrow, hrun⟩ := bind_ok hrun
  cases b with
  | true => cases hrun
  | false =>
    obtain ⟨b, ρ, hasync, hrun⟩ := bind_ok hrun
    cases b with
    | true => cases hrun
    | false =>
      have hυ := State.index_of_place (Declines.place harrow)
      have hρ := State.index_of_place (Declines.place hasync)
      rw [← hυ, ← hρ]
      change eraseTypes ⟨s, recur⟩ ρ = _ at hrun
      unfold eraseTypes at hrun
      rw [view_bind] at hrun
      cases hmark : (s.tape.get ρ.index).isType with
      | false => rfl
      | true =>
        have hview : (View.token ⟨s.tape, ρ.index⟩).isType = true := hmark
        rw [hview] at hrun
        obtain ⟨_, _, _, hrun⟩ := bind_ok hrun
        obtain ⟨_, _, _, hrun⟩ := bind_ok hrun
        cases hrun

/-! ## Classes -/

instance : Fits s i .classWord := ⟨fun h _ => .classPart (.word h)⟩

theorem fits_contextBrace {kind : TokenKind} (hkind : [TokenKind.braceOpen, .braceClose].contains kind)
    (h : (s.tape.get i).contextId?.isSome = true) : Fits s i kind :=
  ⟨fun hk _ => .classPart (.brace (by rw [Tape.hasOneOf, hk]; exact hkind) h)⟩

namespace Class

theorem strips_removeRange {c : ClassOutline} [hc : IsOutline s.tape c] {r : TokenRange}
    (hr : r ∈ c.removed) (hle : r.start ≤ i) : Strips s i (removeRange r) := by
  have hpasses (j : Nat) (hj : i ≤ j) (hlt : j < r.stop) : Passes s j :=
    ⟨fun _ => .inr (.member c hc r hr (by omega) hlt)⟩
  unfold removeRange
  refine .look ?_
  dsimp only
  split
  next hlt =>
    have := hpasses i (Nat.le_refl i) hlt
    exact Strips.afterRemove fun _ => strips_removeTo fun j hj => hpasses j (by omega)
  next => exact strips_removeTo hpasses

theorem strips_bodyPart (c : ClassOutline) [hc : IsOutline s.tape c] (className : String)
    {p : Pending} (hp : p.From c) : Strips s i (bodyPart c className p) := by
  unfold bodyPart
  refine .look ?_
  dsimp only
  split
  next _ _ f hfield =>
    obtain ⟨hhead, hstart⟩ := Option.filter_eq_some_iff.1 hfield
    have hmem : f ∈ c.fields := hp.1 f (List.mem_of_mem_head? hhead)
    have : Excused s i := ⟨fun _ => .classPart (.field c hc f hmem (by simpa using hstart))⟩
    infer_instance
  next _ _ r _ hremoved =>
    obtain ⟨hhead, hstart⟩ := Option.filter_eq_some_iff.1 hremoved
    have := strips_removeRange (s := s) (i := i) (hp.2 r (List.mem_of_mem_head? hhead))
      (by simpa using hstart)
    infer_instance
  next =>
    split
    next hinsert =>
      have : Excused s i := ⟨fun _ => .classPart (.constructorStart c hc (by simpa using hinsert))⟩
      infer_instance
    next => infer_instance

instance (c : ClassOutline) [hc : IsOutline s.tape c] (className : String) :
    Strips s i (body c className) := by
  unfold body
  refine .look ?_
  dsimp only
  split
  · infer_instance
  next hcontext =>
    have hcontext : (View.token ⟨s.tape, i⟩).contextId?.isSome = true := by
      simpa [Option.isSome_iff_ne_none] using hcontext
    have : Fits s i .braceOpen := fits_contextBrace (by decide) hcontext
    generalize (View.token ⟨s.tape, i⟩).contextId? = contextId? at hcontext
    have hloop (n j : Nat) : Strips s j (do
        discard <| Emit.iterateFor (bodyRound c className contextId?) n ⟨c.fields, c.removed⟩
        copyExpected .braceClose) := by
      refine .afterTo (.discard (takesTo_bodyLoop className fun p j hp =>
        strips_bodyPart c className hp)) fun _ k hk => ?_
      have hid : (s.tape.get (j + k)).contextId? = contextId? := beq_iff_eq.1 (Bool.and_eq_true_iff.1 hk).2
      have : Fits s (j + k) .braceClose := fits_contextBrace (by decide) (hid ▸ hcontext)
      infer_instance
    infer_instance

instance : Strips s i outline := by
  unfold outline
  refine .look ?_
  refine .afterLook fun o => ?_
  refine .afterLook fun σ => ?_
  split <;> infer_instance

end Class

instance : Strips s i classDefinition := by
  unfold classDefinition
  refine .afterGives Class.gives_outline fun c j hc => ?_
  have hrest (className : String) (k : Nat) (calls : Emit Unit) [∀ k, Strips s k calls] :
      Strips s k (Class.rest c className calls) := by
    refine .look ?_
    split <;> infer_instance
  infer_instance

/-! ## Enumerations -/

namespace Enumeration

theorem excused_of_enumerationPart (h : EnumerationPart s.tape i) : Excused s i :=
  ⟨fun _ => .enumeration h⟩

theorem passes_of_enumerationRest (h : EnumerationRest s.tape i) : Passes s i :=
  ⟨fun _ => .inr (.enumeration h)⟩

theorem stripsTo_key :
    StripsTo s i (fun _ k => k = i ∧ s.tape.hasOneOf i [.name, .string] = true) key := by
  have hkey {kind : TokenKind} (hkind : s.tape.kind i = kind)
      (hmem : [TokenKind.name, .string].contains kind = true) :
      s.tape.hasOneOf i [.name, .string] = true := by
    rw [Tape.hasOneOf, hkind]
    exact hmem
  unfold key
  refine .view ?_
  split
  next hkind => exact .pure ⟨rfl, hkey hkind (by decide)⟩
  next hkind => exact .pure ⟨rfl, hkey hkind (by decide)⟩
  next => exact .fail _

variable {j : Nat}

theorem stripsTo_stringMember (h : MemberAt s.tape j) (name : String) (k : Key)
    (hkinds : s.tape.has (j + 1) [.equals, .string] = true) :
    StripsTo s (j + 1) (fun _ i => MemberEnd s.tape j i) (stringMember name k) := by
  have := excused_of_enumerationPart (.equals j h rfl (kind_of_isAt hkinds).1)
  have := excused_of_enumerationPart (.string j h rfl hkinds)
  unfold stringMember
  split
  all_goals
    exact .look fun _ => .afterWrites fun _ => .afterWrites fun _ => .ofFixes fun _ => .string hkinds

theorem stripsTo_valueMember (h : MemberAt s.tape j) (name : String) (k : Key)
    (hequals : s.tape.kind (j + 1) = .equals) :
    StripsTo s (j + 1) (fun _ i => MemberEnd s.tape j i) (valueMember name k) := by
  have := excused_of_enumerationPart (.equals j h rfl hequals)
  unfold valueMember
  refine .view ?_
  split
  next stop hstop =>
    have hvalue (code : String) : StripsTo s (j + 1 + 1) (fun _ i => MemberEnd s.tape j i) (do
        processTo stop
        add code) := by
      refine .bind lands_processTo.stripsTo fun _ k hk => .ofFixes fun _ => ?_
      exact .value stop _ hequals hstop hk.1 hk.2
    split
    all_goals exact .look fun _ => .afterWrites fun _ => hvalue _
  next => exact .fail _

theorem stripsTo_countedMember (name : String) (k : Key) (previous? : Option String)
    (hequals : s.tape.kind (j + 1) ≠ .equals) :
    StripsTo s (j + 1) (fun _ i => MemberEnd s.tape j i) (countedMember name k previous?) := by
  unfold countedMember
  exact .ofFixes fun _ => .counted hequals

theorem stripsTo_afterMember {α : Type} (a : α) (h : MemberAt s.tape j)
    (hkind : s.tape.hasOneOf j [.name, .string] = true) (hend : MemberEnd s.tape j i) :
    StripsTo s i (fun _ k => MemberAt s.tape k) (do
      removeIf .comma
      return a) := by
  have : Drops s i .comma := ⟨fun hcomma _ => .inr (.enumeration (.comma j h hend hcomma))⟩
  refine .bind (stripsTo_removeIf (Q := MemberAt s.tape) ?_ ?_) fun _ k hk => .pure hk
  · exact .afterComma h hkind hend
  · exact .withoutComma h hkind hend

theorem stripsTo_member (h : MemberAt s.tape j) (name : String) (previous : Previous) :
    StripsTo s j (fun _ k => MemberAt s.tape k) (member name previous) := by
  have := passes_of_enumerationRest (.key h)
  unfold member
  refine .bind stripsTo_key fun k i hi => ?_
  obtain ⟨hi, hkind⟩ := hi
  rw [hi]
  refine .afterWrites fun _ => .view ?_
  dsimp only
  have hafter {α : Type} (a : α) (e : Emit Unit)
      (he : StripsTo s (j + 1) (fun _ i => MemberEnd s.tape j i) e) :
      StripsTo s (j + 1) (fun _ k => MemberAt s.tape k) (do
        e
        removeIf .comma
        return a) :=
    .bind he fun _ i hi => stripsTo_afterMember a h hkind hi
  split
  next hstring =>
    have hkinds : s.tape.has (j + 1) [.equals, .string] = true := by
      obtain h | h := Bool.or_eq_true_iff.1 hstring
      all_goals
        obtain ⟨hequals, hrest⟩ := kind_of_isAt h
        simp [Tape.has, hequals, (kind_of_isAt hrest).1]
    exact hafter _ _ (stripsTo_stringMember h name k hkinds)
  next =>
    split
    next hequals => exact hafter _ _ (stripsTo_valueMember h name k (beq_iff_eq.1 hequals))
    next hequals =>
      split
      · exact .afterFail
      · exact hafter _ _ (stripsTo_countedMember name k _ fun hkind => hequals (beq_iff_eq.2 hkind))

theorem stripsTo_members (h : MemberAt s.tape j) (name : String) :
    StripsTo s j (fun _ k => MemberAt s.tape k) (members name) := by
  unfold members
  refine .discard (.iterate (fun _ => MemberAt s.tape) (fun previous k hk => .view ?_) h)
  split
  · exact .pure ⟨fun _ => elim_done, fun _ _ => hk⟩
  · split
    · exact .afterFail
    · exact .bind (stripsTo_member hk name previous) fun _ _ hnext => .pure ⟨fun _ _ => hnext, fun _ => elim_yield⟩

end Enumeration

theorem stripsTo_enumerationHead (h : EnumerationAt s.tape i) :
    StripsTo s (i + 1) (fun _ n => EnumerationHead s.tape i n)
      (loopWhile (·.isAtOneOf [.constWord, .enumWord]) remove) := by
  refine (TakesTo.loopWhile (EnumerationHead s.tape i) (fun j hj hword => ?_) ?_).imp fun _ _ _ hn => hn.1
  · have := Enumeration.passes_of_enumerationRest (.head i hj)
    refine .ofWrites ⟨h, by have := hj.2.1; omega, fun m hm hlt => ?_⟩
    obtain hlt | rfl := Nat.lt_or_eq_of_le (show m ≤ j by omega)
    · exact hj.2.2 m hm hlt
    · exact hword
  · exact ⟨h, Nat.lt_succ_self i, fun k hk hlt => absurd hlt (by omega)⟩

theorem strips_enumeration (isExport : Bool) (h : EnumerationAt s.tape i) :
    Strips s i (enumeration isExport) := by
  have : Unmarked s i := ⟨h.1⟩
  have hbody (w n : Nat) (hhead : EnumerationHead s.tape w n) (name code : String) :
      Strips s (n + 1) (do
        copyExpected .braceOpen
        Enumeration.members name
        copyExpected .braceClose
        add code) := by
    have : Fits s (n + 1) .braceOpen := ⟨fun hkind _ => .enumeration (.braceOpen w n hhead rfl hkind)⟩
    refine .afterExpected fun hbrace _ => ?_
    refine .afterTo (Enumeration.stripsTo_members (.first w n hhead hbrace) name) fun _ k hk => ?_
    have : Fits s (n + 1 + 1 + k) .braceClose := ⟨fun hkind _ => .enumeration (.braceClose hk hkind)⟩
    infer_instance
  unfold enumeration
  refine .afterRemove fun _ => .afterTo (stripsTo_enumerationHead h) fun _ k hhead => ?_
  have := Enumeration.passes_of_enumerationRest (.head i hhead)
  have := hbody i _ hhead
  infer_instance

instance [h : Unmarked s i] : Strips s i enumerationPass := by
  unfold enumerationPass
  refine .look ?_
  split
  next hstart =>
    have hstart : EnumerationAt s.tape i := ⟨h.isType, by
      have hstart : (s.tape.has i [.enumWord] || s.tape.has i [.constWord, .enumWord]) = true := hstart
      simp [hstart]⟩
    have := strips_enumeration false hstart
    infer_instance
  next =>
    split
    next hstart =>
      have hstart : EnumerationAt s.tape i := ⟨h.isType, by
        have hstart : (s.tape.has i [.exportWord, .enumWord] ||
          s.tape.has i [.exportWord, .constWord, .enumWord]) = true := hstart
        rw [Bool.or_assoc, hstart, Bool.or_true]⟩
      have := strips_enumeration true hstart
      infer_instance
    next => infer_instance

end PlainScript.Emit
