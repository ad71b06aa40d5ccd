import PlainScript.Proofs.PassesMoveOn
import PlainScript.Proofs.Overlooked

/-!
# Courses of the rules for modules

The rules for imports and exports remove tokens that they find by place. Whatever course the writer is
to take, such a rule takes it if it is taken by the removal of each token in the right place; what has
to be shown once is which places these are.
-/

namespace PlainScript.Emit

-- Counted in combinators.
set_option synthInstance.maxSize 100000

variable {c : Course} {s : Setting} {i : Nat}

theorem kind_of_copyExpected {kind : TokenKind} {recur : Task → Step Unit} {σ τ : State}
    (hrun : copyExpected kind ⟨s, recur⟩ σ = .ok ((), τ)) : s.tape.kind σ.index = kind := by
  unfold copyExpected at hrun
  obtain ⟨v, _, hview, hrun⟩ := bind_ok hrun
  cases hview
  split at hrun
  next h => exact beq_iff_eq.1 h
  next => cases hrun

theorem TakesTo.copyExpected {kind : TokenKind} {Q : Unit → Nat → Prop}
    [he : Takes c s i (copyExpected kind)] (hQ : s.tape.kind i = kind → Q () (i + 1)) :
    TakesTo c s i Q (Emit.copyExpected kind) := by
  intro recur σ τ a hrecur hfit hindex hrun
  have hwrites : Writes s i (Emit.copyExpected kind) (s.tape.text i) := inferInstance
  refine ⟨he.takes hrecur hfit hindex hrun, (hwrites.writes hindex hrun).1 ▸ hQ ?_⟩
  exact hindex ▸ kind_of_copyExpected hrun

theorem takesTo_removeMany {n : Nat} (hremove : ∀ k, k < n → Takes c s (i + k) remove) :
    TakesTo c s i (fun _ j => j = i + n) (removeMany n) := by
  induction n generalizing i with
  | zero => exact .pure rfl
  | succ n ih =>
    have := hremove 0 (Nat.succ_pos n)
    unfold removeMany
    refine .afterWrites fun _ => (ih fun k hk => ?_).imp fun _ j _ hj => by omega
    rw [Nat.add_assoc, Nat.add_comm 1 k]
    exact hremove (k + 1) (by omega)

theorem takesTo_removeTo {stop : Nat} (hle : i ≤ stop)
    (hremove : ∀ j, i ≤ j → j < stop → Takes c s j remove) :
    TakesTo c s i (fun _ j => j = stop) (removeTo stop) :=
  .loopTo hle fun j hj hlt =>
    have := hremove j hj hlt
    .ofWrites rfl

/-! ## Statements and clauses of types -/

theorem takes_removeModuleReference (hfirst : Takes c s i remove)
    (hcall : s.tape.kind (i + 1) = .parenOpen → ∀ j, i < j → j ≤ i + 3 → Takes c s j remove)
    (hdots : ∀ j, i < j → (∀ k, i < k → k ≤ j → s.tape.kind k = .dot ∨ s.tape.kind (k - 1) = .dot) →
      Takes c s j remove) : Takes c s i removeModuleReference := by
  unfold removeModuleReference
  refine (TakesTo.afterWrites (Q := fun _ _ => True) fun _ => .view ?_).takes
  split
  next hparen =>
    refine (takesTo_removeMany fun k hk => ?_).imp fun _ _ _ _ => trivial
    exact hcall (beq_iff_eq.1 hparen) _ (by omega) (by omega)
  next =>
    -- Each round removes a dot and the token after it.
    refine (TakesTo.loopWhile (fun j => i < j ∧ ∀ k, i < k → k < j → s.tape.kind k = .dot ∨
      s.tape.kind (k - 1) = .dot) (fun j hj hdot => ?_) ⟨Nat.lt_succ_self i, by omega⟩).imp
        fun _ _ _ _ => trivial
    have hdot : s.tape.kind j = .dot := beq_iff_eq.1 hdot
    have hnext (m : Nat) (hm : i < m) (hlt : m ≤ j + 1) :
        s.tape.kind m = .dot ∨ s.tape.kind (m - 1) = .dot := by
      obtain hlt | rfl | rfl : m < j ∨ m = j ∨ m = j + 1 := by omega
      · exact hj.2 m hm hlt
      · exact .inl hdot
      · exact .inr hdot
    refine (takesTo_removeMany fun k hk => ?_).imp fun _ k _ hk => ⟨by omega, ?_⟩
    · exact hdots _ (by omega) fun m hm hlt => hnext m hm (by omega)
    · exact fun m hm hlt => hnext m hm (by omega)

theorem takes_removeReference {n : Nat} (hfirst : Takes c s i removeFirst)
    (hwords : ∀ k, k < n → Takes c s (i + 1 + k) remove)
    (hreference : Takes c s (i + 1 + n) removeModuleReference) : Takes c s i (do
      removeFirst
      removeMany n
      removeModuleReference) := by
  refine .afterTo (TakesTo.ofWrites (Q := fun _ j => j = i + 1) rfl) fun _ k hk => ?_
  rw [hk]
  refine .afterTo (takesTo_removeMany hwords) fun _ k hk => ?_
  rw [hk]
  exact hreference

theorem takesTo_removeBalanced {b : Nat}
    (hremove : ∀ j depth, b < j → InBraces s.tape b j depth → Takes c s j remove) :
    TakesTo c s (b + 1) (fun _ j => b < j ∧ ∃ depth, InBraces s.tape b j depth) removeBalanced := by
  unfold removeBalanced
  refine .discard (.iterate (fun depth j => b < j ∧ InBraces s.tape b j depth)
    (fun depth j hj => .view ?_) ⟨Nat.lt_succ_self b, .start⟩)
  have := hremove j depth hj.1 hj.2
  have hyield {depth' : Nat} (hnext : InBraces s.tape b (j + 1) depth') :
      TakesTo c s j (fun step k => (∀ d, step = .yield d → b < k ∧ InBraces s.tape b k d) ∧
        ∀ d, step = .done d → b < k ∧ ∃ depth, InBraces s.tape b k depth) (do
        remove
        return .yield depth' : Emit (ForInStep Nat)) := by
    refine .afterWrites fun _ => .pure ⟨fun d hd => ?_, fun _ => elim_yield⟩
    cases hd
    exact ⟨by omega, hnext⟩
  split
  · exact .pure ⟨fun _ => elim_done, fun _ _ => ⟨hj.1, depth, hj.2⟩⟩
  split
  next hopen => exact hyield (.opens hj.2 (beq_iff_eq.1 hopen))
  next hopen =>
    split
    next hclose =>
      split
      · exact .pure ⟨fun _ => elim_done, fun _ _ => ⟨hj.1, depth, hj.2⟩⟩
      next hdepth =>
        obtain ⟨depth, rfl⟩ := Nat.exists_eq_succ_of_ne_zero hdepth
        exact hyield (.closes hj.2 (beq_iff_eq.1 hclose))
    next hclose =>
      exact hyield (.other hj.2 (fun hkind => hopen (beq_iff_eq.2 hkind))
        fun hkind => hclose (beq_iff_eq.2 hkind))

theorem takes_removeImportAttributes (hremove : AttributesAt s.tape i → ∀ j, i ≤ j →
      (j ≤ i + 1 ∨ ∃ depth, InBraces s.tape (i + 1) j depth) → Takes c s j remove) :
    Takes c s i removeImportAttributes := by
  unfold removeImportAttributes
  refine .look ?_
  split
  next hi =>
    refine Takes.afterTo (takesTo_removeMany fun k hk =>
      hremove hi _ (by omega) (.inl (by omega))) fun _ k hk => ?_
    rw [hk]
    refine .afterTo (takesTo_removeBalanced (b := i + 1) fun j depth hj hdepth =>
      hremove hi j (by omega) (.inr ⟨depth, hdepth⟩)) fun _ k hk => ?_
    exact hremove hi _ (by omega) (.inr hk.2)
  next => infer_instance

theorem takes_removeExportType (hfirst : Takes c s i removeFirst)
    (hnear : ∀ j, i < j → j ≤ i + 2 → Takes c s j remove)
    (hclause : s.tape.kind (i + 2) = .braceOpen → ∀ j, i < j →
      (∀ k, i + 2 < k → k < j → s.tape.kind k ≠ .braceClose) → Takes c s j remove)
    (halias : s.tape.kind (i + 3) = .asModifier ∨ s.tape.hasSoft (i + 3) .asName = true →
      ∀ j, i < j → j ≤ i + 4 → Takes c s j remove)
    (hfrom : ∀ j, i < j → s.tape.hasSoft j .fromName = true → s.tape.kind (j + 1) = .string →
      TakesTo c s j (fun _ k => k = j + 2) (removeMany 2))
    (hattributes : ∀ j, i < j → Takes c s j removeImportAttributes) :
    Takes c s i removeExportType := by
  have htail (j : Nat) (hj : i < j) : TakesTo c s j (fun _ _ => True) (do
      let v ← view
      if v.isAtSoft .fromName && (v.ahead 1).kind == .string then
        removeMany 2
        removeImportAttributes) := by
    refine .view ?_
    split
    next hpath =>
      obtain ⟨hsoft, hpath⟩ := Bool.and_eq_true_iff.1 hpath
      refine .bind (hfrom j hj hsoft (beq_iff_eq.1 hpath)) fun _ k hk => ?_
      have := hattributes (j + k) (by omega)
      exact .of_takes
    next => exact .pure trivial
  have := hnear (i + 1) (by omega) (by omega)
  have := hnear (i + 1 + 1) (by omega) (by omega)
  unfold removeExportType
  refine (TakesTo.afterWrites (Q := fun _ _ => True) fun _ => .afterWrites fun _ => .view ?_).takes
  split
  next hbrace =>
    have hremove := hclause (beq_iff_eq.1 hbrace)
    refine .bind (TakesTo.loopWhile
      (fun j => i < j ∧ ∀ k, i + 2 < k → k < j → s.tape.kind k ≠ .braceClose)
      (fun j hj hgo => ?_) ⟨by omega, by omega⟩) fun _ k hk => ?_
    · have := hremove j hj.1 hj.2
      refine .ofWrites ⟨by omega, fun m hm hlt => ?_⟩
      obtain hlt | rfl := Nat.lt_or_eq_of_le (show m ≤ j by omega)
      · exact hj.2 m hm hlt
      · exact bne_iff_ne.1 (Bool.and_eq_true_iff.1 hgo).1
    · have := hremove _ hk.1.1 hk.1.2
      exact .afterWrites fun _ => htail _ (by omega)
  next =>
    refine .afterWrites fun _ => .view ?_
    split
    next has =>
      have has : s.tape.kind (i + 3) = .asModifier ∨ s.tape.hasSoft (i + 3) .asName = true := by
        simpa [View.kind, View.token, View.isAtSoft, Tape.kind] using has
      exact .bind (takesTo_removeMany fun k hk => halias has _ (by omega) (by omega)) fun _ k _ =>
        htail _ (by omega)
    next => exact htail _ (by omega)

theorem hasOneOf_of_kind {t : Tape} {kind : TokenKind} {kinds : List TokenKind}
    (h : t.kind i = kind) (hkind : kinds.contains kind = true) : t.hasOneOf i kinds = true := by
  rw [Tape.hasOneOf, h]
  exact hkind

/-! ## Clauses -/

/-- No brace closes the clause before the end of a specifier. -/
theorem Specifier.kind_ne_braceClose {t : Tape} {x : Specifier} (h : Specifier.read t i = .ok x)
    (hi : t.kind i ≠ .braceClose) {k : Nat} (hk : i ≤ k) (hlt : k < x.stop) :
    t.kind k ≠ .braceClose := by
  have hopen {j : Nat} (hj : ¬ Specifier.endsAt t j = true) : t.kind j ≠ .braceClose :=
    fun hkind => hj (by simp [Specifier.endsAt, hkind])
  obtain rfl | hk := Nat.eq_or_lt_of_le hk
  · exact hi
  unfold Specifier.read at h
  split at h
  · cases h
    exact absurd hlt (by simp; omega)
  next hone =>
    obtain rfl | hk := Nat.eq_or_lt_of_le (Nat.succ_le_of_lt hk)
    · exact hopen hone
    split at h
    · cases h
      exact absurd hlt (by simp; omega)
    next htwo =>
      obtain rfl | hk := Nat.eq_or_lt_of_le (Nat.succ_le_of_lt hk)
      · exact hopen htwo
      split at h
      · cases h
        exact absurd hlt (by simp; omega)
      next hthree =>
        obtain rfl | hk := Nat.eq_or_lt_of_le (Nat.succ_le_of_lt hk)
        · exact hopen hthree
        split at h
        · cases h
          exact absurd hlt (by simp; omega)
        · cases h

theorem Specifier.endsAt_stop {t : Tape} {x : Specifier} (h : Specifier.read t i = .ok x) :
    Specifier.endsAt t x.stop = true := by
  unfold Specifier.read at h
  split at h
  · cases h
    assumption
  split at h
  · cases h
    assumption
  split at h
  · cases h
    assumption
  split at h
  · cases h
    assumption
  · cases h

theorem ClauseAt.inClause {t : Tape} {b : Nat} (h : ClauseAt t b) : InClause t b (b + 1) :=
  ⟨h, Nat.le_succ b, fun k hk hlt => absurd hlt (by omega)⟩

theorem InClause.to {t : Tape} {b i j : Nat} (h : InClause t b i) (hle : i ≤ j)
    (hopen : ∀ k, i ≤ k → k < j → t.kind k ≠ .braceClose) : InClause t b j := by
  refine ⟨h.1, Nat.le_trans h.2.1 hle, fun k hb hk => ?_⟩
  obtain hlt | hge := Nat.lt_or_ge k i
  · exact h.2.2 k hb hlt
  · exact hopen k hge hk

theorem InClause.succ {t : Tape} {b : Nat} (h : InClause t b i) (hkind : t.kind i ≠ .braceClose) :
    InClause t b (i + 1) := by
  refine h.to (Nat.le_succ i) fun k hk hlt => ?_
  rw [Nat.le_antisymm (Nat.le_of_lt_succ hlt) hk]
  exact hkind

theorem clauseAt_of_has {t : Tape} (h : t.has i [.exportWord, .braceOpen] = true) :
    ClauseAt t (i + 1) := by
  obtain ⟨hword, hbrace⟩ := kind_of_isAt h
  exact ⟨(kind_of_isAt hbrace).1, i, .inr ⟨hword, rfl⟩⟩

/-- The brace that closes a clause is the first one that a search finds. -/
theorem InClause.skip_eq {t : Tape} {b c : Nat} (h : InClause t b c) (hclose : t.kind c = .braceClose) :
    t.skip (·.kind != .braceClose) (b + 1) = c := by
  have hlt : b < c := by
    refine Nat.lt_of_le_of_ne h.2.1 ?_
    rintro rfl
    rw [h.1.1] at hclose
    cases hclose
  obtain hbefore | heq | hafter :=
    Nat.lt_trichotomy (t.skip (·.kind != .braceClose) (b + 1)) c
  · have hsize := Nat.lt_trans hbefore (Tape.lt_size_of_kind (t := t) (i := c) (by simp [hclose]))
    have hfound : t.kind (t.skip (·.kind != .braceClose) (b + 1)) = .braceClose := by
      simpa [Tape.kind] using Tape.skip_stop hsize
    exact absurd hfound (h.2.2 _ (t.le_skip _ _) hbefore)
  · exact heq
  · have hskipped := Tape.of_lt_skip hlt hafter
    simp only [bne_iff_ne, ne_eq] at hskipped
    exact absurd hclose hskipped

theorem InNames.succ {t : Tape} {w : Nat} (h : InNames t w i)
    (hi : t.hasOneOf i [.name, .comma, .star] = true ∨ t.kind (i - 1) = .star) :
    InNames t w (i + 1) := by
  refine ⟨h.1, Nat.le_succ_of_le h.2.1, fun k hw hk => ?_⟩
  obtain hlt | rfl := Nat.lt_succ_iff_lt_or_eq.1 hk
  · exact h.2.2 k hw hlt
  · exact hi

theorem importAt_of_not_isAt {t : Tape} (h : t.kind i = .importWord)
    (hcall : ¬ View.isAt ⟨t, i⟩ [.importWord, .parenOpen] = true) : ImportAt t i :=
  ⟨h, fun hopen => hcall (by simp [View.isAt, Tape.has, h, hopen])⟩

/-- The end of an import or export statement without its path: the path comes next, if there is one. -/
def AtPath (t : Tape) (w i : Nat) : Prop :=
  InStatement t w i ∧ (t.kind i = .string ∨ t.size ≤ i)

theorem InStatement.start {t : Tape} (h : ImportAt t i ∨ t.has i [.exportWord, .star] = true) :
    InStatement t i i :=
  ⟨h, Nat.le_refl i, fun k hk hlt => absurd hlt (by omega)⟩

theorem InStatement.succ {t : Tape} {w : Nat} (h : InStatement t w i)
    (hi : w < i → t.kind i = .string → t.hasOneOf (i - 1) [.braceOpen, .comma] = true) :
    InStatement t w (i + 1) := by
  refine ⟨h.1, Nat.le_succ_of_le h.2.1, fun k hw hk hstring => ?_⟩
  obtain hlt | rfl := Nat.lt_succ_iff_lt_or_eq.1 hk
  · exact h.2.2 k hw hlt hstring
  · exact hi hw hstring

theorem InStatement.next {t : Tape} {w : Nat} (h : InStatement t w i) (hkind : t.kind i ≠ .string) :
    InStatement t w (i + 1) :=
  h.succ fun _ hstring => absurd hstring hkind

theorem takesTo_specifier :
    TakesTo c s i (fun x j => j = i ∧ Specifier.read s.tape i = .ok x) specifier := by
  unfold specifier
  refine .view ?_
  split
  next x hx => exact .pure ⟨rfl, hx⟩
  next => exact .fail _

/-! ## CommonJS -/

namespace CommonJs

section

variable {w : Nat} (hremove : ∀ j, w < j → InStatement s.tape w j → Takes c s j remove)
include hremove

theorem takesTo_removeToPath (hi : InStatement s.tape w i) (hlt : w < i) :
    TakesTo c s i (fun _ j => w < j ∧ AtPath s.tape w j) removeToPath := by
  unfold removeToPath
  refine (TakesTo.loopWhile (fun j => w < j ∧ InStatement s.tape w j) (fun j hj hgo => ?_)
    ⟨hlt, hi⟩).imp fun _ j _ hj => ⟨hj.1.1, hj.1.2, ?_⟩
  · have := hremove j hj.1 hj.2
    exact .ofWrites ⟨by omega, hj.2.next (bne_iff_ne.1 (Bool.and_eq_true_iff.1 hgo).1)⟩
  · obtain hkind | hend := Bool.and_eq_false_iff.1 hj.2
    · exact .inl (by simpa [View.kind, View.token, Tape.kind] using hkind)
    · exact .inr (by simpa [View.isAtEnd] using hend)

theorem takesTo_removeSpecifiers (hi : InStatement s.tape w i) (hlt : w < i) :
    TakesTo c s i (fun _ j => w < j ∧ AtPath s.tape w j) removeSpecifiers := by
  unfold removeSpecifiers
  refine .iterate (fun _ j => w < j ∧ InStatement s.tape w j) (fun x j hj => ?_) ⟨hlt, hi⟩
  obtain ⟨hasValue, hasSpecifier⟩ := x
  obtain ⟨hlt, hj⟩ := hj
  have := hremove j hlt hj
  refine .view ?_
  split
  next hend =>
    refine .pure ⟨fun _ => elim_done, fun y hy => ⟨hlt, hj, ?_⟩⟩
    obtain hkind | hend := Bool.or_eq_true_iff.1 hend
    · exact .inl (beq_iff_eq.1 hkind)
    · exact .inr (by simpa [View.isAtEnd] using hend)
  next hgo =>
    have hkind : s.tape.kind j ≠ .string := by
      have hgo := Bool.or_eq_false_iff.1 (Bool.eq_false_of_not_eq_true hgo)
      exact beq_eq_false_iff_ne.1 hgo.1
    have hnext := hj.next hkind
    split
    next hpair =>
      -- The token after a brace or a comma is removed unseen, and it may be a string.
      have := hremove (j + 1) (by omega) hnext
      refine .afterWrites fun _ => .view (.afterWrites fun _ => .pure
        ⟨fun y hy => ⟨by omega, hnext.succ fun _ _ => ?_⟩, fun _ => elim_yield⟩)
      obtain hopen | hcomma := Bool.or_eq_true_iff.1 hpair
      · exact hasOneOf_of_kind (beq_iff_eq.1 (Bool.and_eq_true_iff.1 hopen).2) (by decide)
      · exact hasOneOf_of_kind (beq_iff_eq.1 hcomma) (by decide)
    next => exact .afterWrites fun _ => .pure ⟨fun y hy => ⟨by omega, hnext⟩, fun _ => elim_yield⟩

end

theorem takesTo_removeImportClause (hi : ImportAt s.tape i) (hfirst : Takes c s i removeFirst)
    (hremove : ∀ j, i < j → InStatement s.tape i j → Takes c s j remove) :
    TakesTo c s i (fun _ j => i < j ∧ AtPath s.tape i j) removeImportClause := by
  have hnext := (InStatement.start (.inl hi)).next (by simp [hi.1])
  have hlt := Nat.lt_succ_self i
  unfold removeImportClause
  refine .afterWrites fun _ => .view ?_
  split
  · exact .bind (takesTo_removeToPath hremove hnext hlt) fun _ _ hj => .pure hj
  split
  · exact .bind (takesTo_removeToPath hremove hnext hlt) fun _ _ hj => .pure hj
  split
  next hstring => exact .pure ⟨hlt, hnext, .inl (beq_iff_eq.1 hstring)⟩
  next =>
    refine .bind (takesTo_removeSpecifiers hremove hnext hlt) fun found j hj => ?_
    obtain ⟨hasValue, hasSpecifier⟩ := found
    exact .ofFixes fun _ => hj

instance (x : Specifier) (isFromModule : Bool) :
    Fixes State.place (specifierCode? x isFromModule) := by
  unfold specifierCode?
  split <;> infer_instance

/-- The specifiers of a clause become assignments, and the brace that closes it is removed. -/
theorem takesTo_exportAssignments {b : Nat} {isFromModule : Bool}
    [∀ x j, Takes c s j (specifierCode? x isFromModule)] (P : String → Prop)
    (hremove : ∀ j, b < j → InClause s.tape b j → Takes c s j remove)
    (hcode : ∀ j x, b < j → Specifier.read s.tape j = .ok x →
      (∀ k, j ≤ k → k < x.stop → InClause s.tape b k) →
      Gives s (fun code? => ∀ code ∈ code?.toList, P code) (specifierCode? x isFromModule))
    (hi : InClause s.tape b i) (hlt : b < i) :
    TakesTo c s i (fun codes j => b < j ∧ s.tape.kind (j - 1) = .braceClose ∧ ∀ code ∈ codes, P code)
      (exportAssignments isFromModule) := by
  unfold exportAssignments
  refine .iterate (fun codes j => (b < j ∧ InClause s.tape b j) ∧ ∀ code ∈ codes, P code)
    (fun codes j hj => ?_) ⟨⟨hlt, hi⟩, by simp⟩
  obtain ⟨⟨hlt, hj⟩, hcodes⟩ := hj
  -- A round that removes the brace at the end is the last one.
  have hlast (k : Nat) (hlt : b < k) (hk : InClause s.tape b k) (hclose : s.tape.kind k = .braceClose)
      (codes : List String) (hcodes : ∀ code ∈ codes, P code) :
      TakesTo c s k (fun step m =>
        (∀ y, step = .yield y → (b < m ∧ InClause s.tape b m) ∧ ∀ code ∈ y, P code) ∧
        ∀ y, step = .done y → b < m ∧ s.tape.kind (m - 1) = .braceClose ∧ ∀ code ∈ y, P code) (do
        remove
        return .done codes : Emit (ForInStep (List String))) := by
    have := hremove k hlt hk
    refine .afterWrites fun _ => .pure ⟨fun _ => elim_done, fun y hy => ?_⟩
    cases hy
    exact ⟨by omega, hclose, hcodes⟩
  refine .view ?_
  split
  next hclose => exact hlast j hlt hj (beq_iff_eq.1 hclose) _ hcodes
  next hclose =>
    refine .bind takesTo_specifier fun x k hx => ?_
    obtain ⟨hk, hx⟩ := hx
    rw [hk]
    have hle : j ≤ x.stop := Nat.le_of_lt (Specifier.lt_stop hx)
    have hspecifier (m : Nat) (hm : j ≤ m) (hstop : m ≤ x.stop) : InClause s.tape b m :=
      hj.to hm fun k hk hlt => Specifier.kind_ne_braceClose hx
        (fun hkind => hclose (beq_iff_eq.2 hkind)) hk (by omega)
    have hstop := hspecifier x.stop hle (Nat.le_refl _)
    have hbehind := Nat.lt_of_lt_of_le hlt hle
    refine .bind (takesTo_removeTo hle fun m hm hlt =>
      hremove m (by omega) (hspecifier m hm (Nat.le_of_lt hlt))) fun _ k hk => ?_
    rw [hk]
    refine .afterGives (hcode j x hlt hx fun m hm hlt => hspecifier m hm (Nat.le_of_lt hlt))
      fun code? hcode => .view ?_
    have hall (code : String) (hmem : code ∈ codes ++ code?.toList) : P code := by
      obtain hmem | hmem := List.mem_append.1 hmem
      · exact hcodes code hmem
      · exact hcode code hmem
    split
    next hclose => exact hlast _ hbehind hstop (beq_iff_eq.1 hclose) _ hall
    split
    next hpair =>
      obtain ⟨hcomma, hclose⟩ := kind_of_isAt hpair
      have hcomma : s.tape.kind x.stop ≠ .braceClose := by
        rw [hcomma]
        decide
      refine .bind (takesTo_removeMany fun k hk => ?_) fun _ k hk => .pure ⟨fun _ => elim_done, fun y hy => ?_⟩
      · obtain rfl | rfl : k = 0 ∨ k = 1 := by omega
        · exact hremove _ hbehind hstop
        · exact hremove _ (by omega) (hstop.succ hcomma)
      · cases hy
        rw [hk]
        exact ⟨by omega, (kind_of_isAt hclose).1, hall⟩
    split
    next hcomma =>
      have := hremove _ hbehind hstop
      refine .afterWrites fun _ => .pure ⟨fun y hy => ?_, fun _ => elim_yield⟩
      cases hy
      refine ⟨⟨by omega, hstop.succ ?_⟩, hall⟩
      rw [show s.tape.kind x.stop = .comma from beq_iff_eq.1 hcomma]
      decide
    next => exact .fail _

end CommonJs

/-- A loop that removes the tokens of a statement up to its path. -/
theorem takesTo_pathLoop {w : Nat} {e : StructureError}
    (hremove : ∀ j, i ≤ j → InStatement s.tape w j → Takes c s j remove) (hi : InStatement s.tape w i) :
    TakesTo c s i (fun _ j => (i ≤ j ∧ InStatement s.tape w j) ∧ s.tape.kind j = .string)
      (iterate () fun _ => do
        let v ← view
        if v.kind == .string then return .done ()
        if v.isAtEnd then fail e
        remove
        return .yield ()) := by
  refine .iterate (fun _ j => i ≤ j ∧ InStatement s.tape w j) (fun _ j hj => .view ?_)
    ⟨Nat.le_refl i, hi⟩
  split
  next hstring => exact .pure ⟨fun _ => elim_done, fun _ _ => ⟨hj, beq_iff_eq.1 hstring⟩⟩
  next hstring =>
    split
    · exact .afterFail
    · have := hremove j hj.1 hj.2
      refine .afterWrites fun _ => .pure ⟨fun _ _ => ⟨by omega, hj.2.next fun hkind => ?_⟩, fun _ => elim_yield⟩
      exact hstring (beq_iff_eq.2 hkind)

/-! ## Modules that stay modules -/

namespace EsModule

variable {b w : Nat}

/-- The next specifier of a clause starts at an index, or the clause ends there. -/
def AtSpecifier (t : Tape) (b i : Nat) : Prop :=
  InClause t b i ∧ b < i ∧ (t.kind i ≠ .braceClose → t.hasOneOf (i - 1) [.braceOpen, .comma] = true)

theorem atSpecifier_of_clauseAt {t : Tape} (h : ClauseAt t b) : AtSpecifier t b (b + 1) :=
  ⟨h.inClause, Nat.lt_succ_self b, fun _ => hasOneOf_of_kind h.1 (by decide)⟩

theorem takesTo_comma {code : String} {e : Emit Unit} [Writes s i e code] [Takes c s i e]
    (hi : InClause s.tape b i) (hlt : b < i) (hend : Specifier.endsAt s.tape i = true) :
    TakesTo c s i (fun _ j => AtSpecifier s.tape b j) (do
      if (← view).kind == .comma then e) := by
  refine .view ?_
  split
  next hcomma =>
    have hkind : s.tape.kind i = .comma := beq_iff_eq.1 hcomma
    refine .ofWrites ⟨hi.succ ?_, by omega, fun _ => ?_⟩
    · rw [hkind]
      decide
    · exact hasOneOf_of_kind hkind (by decide)
  next hcomma =>
    refine .pure ⟨hi, hlt, fun hclose => ?_⟩
    obtain hkind | hkind := Bool.or_eq_true_iff.1 hend
    · exact absurd (beq_iff_eq.1 hkind) hclose
    · exact absurd hkind hcomma

section

variable (hremove : ∀ j, b < j → InClause s.tape b j → Takes c s j remove)
  (hcopy : ∀ i x, AtSpecifier s.tape b i → s.tape.kind i ≠ .braceClose →
    Specifier.read s.tape i = .ok x → x.isType = false → ∀ j, i ≤ j → j ≤ x.stop → Takes c s j copy)
include hremove hcopy

theorem takesTo_keepOrRemove {x : Specifier} (hi : AtSpecifier s.tape b i)
    (hx : Specifier.read s.tape i = .ok x) (hkind : s.tape.kind i ≠ .braceClose) {isKept : Bool}
    (hkept : isKept = true → x.isType = false) :
    TakesTo c s i (fun _ j => AtSpecifier s.tape b j) (keepOrRemove x isKept) := by
  have hle : i ≤ x.stop := Nat.le_of_lt (Specifier.lt_stop hx)
  have hclause (j : Nat) (hj : i ≤ j) (hstop : j ≤ x.stop) : InClause s.tape b j :=
    hi.1.to hj fun k hk hlt => Specifier.kind_ne_braceClose hx hkind hk (by omega)
  have hstop := hclause x.stop hle (Nat.le_refl _)
  have hlt := Nat.lt_of_lt_of_le hi.2.1 hle
  unfold keepOrRemove
  split
  next htrue =>
    have hcopies := hcopy i x hi hkind hx (hkept htrue)
    have := hcopies x.stop hle (Nat.le_refl _)
    refine .bind (TakesTo.loopTo hle fun j hj hlt => ?_) fun _ k hk => ?_
    · have := hcopies j hj (Nat.le_of_lt hlt)
      exact .ofWrites rfl
    · rw [hk]
      exact takesTo_comma hstop hlt (Specifier.endsAt_stop hx)
  next =>
    have := hremove _ hlt hstop
    refine .bind (takesTo_removeTo hle fun j hj hlt =>
      hremove j (Nat.lt_of_lt_of_le hi.2.1 hj) (hclause j hj (Nat.le_of_lt hlt))) fun _ k hk => ?_
    rw [hk]
    exact takesTo_comma hstop hlt (Specifier.endsAt_stop hx)

theorem takesTo_specifiers {ι : Type} {finished : ι → ForInStep ι} {e : StructureError}
    {rest : ι → Specifier → Emit (ForInStep ι)} {x : ι} (hi : AtSpecifier s.tape b i)
    (hrest : ∀ i y x, (∀ isKept, (isKept = true → x.isType = false) →
        TakesTo c s i (fun _ j => AtSpecifier s.tape b j) (keepOrRemove x isKept)) →
      TakesTo c s i (fun _ j => AtSpecifier s.tape b j) (rest y x)) :
    TakesTo c s i (fun _ j => InClause s.tape b j) (iterate x fun y => do
      let v ← view
      if v.kind == .braceClose then return finished y
      if v.isAtEnd then fail e
      rest y (← specifier)) := by
  refine .iterate (fun _ => AtSpecifier s.tape b) (fun y j hj => ?_) hi
  refine TakesTo.imp (Q := fun _ k => AtSpecifier s.tape b k) (.view ?_) fun _ _ _ hk =>
    ⟨fun _ _ => hk, fun _ _ => hk.1⟩
  split
  · exact .pure hj
  next hclose =>
    split
    · exact .afterFail
    · refine .bind takesTo_specifier fun x k hx => ?_
      rw [hx.1]
      have hkind : s.tape.kind j ≠ .braceClose := fun hkind => hclose (beq_iff_eq.2 hkind)
      exact hrest j y x fun isKept hkept => takesTo_keepOrRemove hremove hcopy hj hx.2 hkind hkept

theorem takesTo_importSpecifiers (hb : ClauseAt s.tape b) (content : ClauseContent) :
    TakesTo c s (b + 1) (fun _ j => InClause s.tape b j) (importSpecifiers content) := by
  refine takesTo_specifiers hremove hcopy (atSpecifier_of_clauseAt hb) fun j content x hx => ?_
  split
  · rw [pure_bind]
    exact .bind (hx false fun h => absurd h Bool.false_ne_true) fun _ _ hk => .pure hk
  next _ localName hnames =>
    have hvalue : x.isType = false := by simp [Specifier.isType, hnames]
    exact .look fun isKept => .bind (hx isKept fun _ => hvalue) fun _ _ hk => .pure hk

theorem takesTo_exportSpecifiers (hb : ClauseAt s.tape b) (isFromModule : Bool) :
    TakesTo c s (b + 1) (fun _ j => InClause s.tape b j) (exportSpecifiers isFromModule) := by
  refine takesTo_specifiers hremove hcopy (atSpecifier_of_clauseAt hb) fun j hasValue x hx => ?_
  split
  · rw [pure_bind]
    exact .bind (hx false fun h => absurd h Bool.false_ne_true) fun _ _ hk => .pure hk
  next localName _ hnames =>
    have hvalue : x.isType = false := by simp [Specifier.isType, hnames]
    exact .look fun _ => .look fun _ => .look fun isKept =>
      .bind (hx isKept fun _ => hvalue) fun _ _ hk => .pure hk

end

theorem takesTo_defaultImport (hi : InNames s.tape w i)
    (hname : s.tape.kind i = .name → Takes c s i copy ∧ Takes c s i remove)
    (hcomma : InNames s.tape w (i + 1) → s.tape.kind (i + 1) = .comma → Takes c s (i + 1) remove) :
    TakesTo c s i (fun _ j => InNames s.tape w j) defaultImport := by
  unfold defaultImport
  refine .view ?_
  split
  · exact .pure hi
  next hkind =>
    have hkind : s.tape.kind i = .name := by simpa [View.kind, View.token, Tape.kind] using hkind
    have hnext : InNames s.tape w (i + 1) := hi.succ (.inl (hasOneOf_of_kind hkind (by decide)))
    have hbehind (hkind : s.tape.kind (i + 1) = .comma) : InNames s.tape w (i + 1 + 1) :=
      hnext.succ (.inl (hasOneOf_of_kind hkind (by decide)))
    obtain ⟨_, _⟩ := hname hkind
    refine .look fun isUnused => ?_
    split
    · refine .afterWrites fun _ => .bind (P := fun _ j => InNames s.tape w j) (.view ?_) fun _ _ hk => .pure hk
      split
      next hkind =>
        have := hcomma hnext (beq_iff_eq.1 hkind)
        exact .ofWrites (hbehind (beq_iff_eq.1 hkind))
      next => exact .pure hnext
    · refine .afterWrites fun _ => .view ?_
      split
      next hkind =>
        have := hcomma hnext (beq_iff_eq.1 hkind)
        exact .afterWrites fun _ => .pure (hbehind (beq_iff_eq.1 hkind))
      next => exact .pure hnext

theorem takes_closeClause {α : Type} {body : Emit α} {f : α → Emit Bool}
    (hclose : ∀ j, InClause s.tape b j → Takes c s j (copyExpected .braceClose))
    (hbody : TakesTo c s i (fun _ j => InClause s.tape b j) body)
    (hf : ∀ a j, InClause s.tape b j → s.tape.kind j = .braceClose → Takes c s (j + 1) (f a)) :
    Takes c s i (do
      let a ← body
      copyExpected .braceClose
      f a) := by
  refine .afterTo hbody fun a k hk => ?_
  have := hclose _ hk
  refine .afterTo (TakesTo.copyExpected (Q := fun _ j => s.tape.kind (i + k) = .braceClose ∧ j = i + k + 1)
    fun hkind => ⟨hkind, rfl⟩) fun _ m hm => ?_
  rw [hm.2]
  exact hf a _ hk hm.1

/-- What follows the default import in an import clause. -/
def clauseRest (content : ClauseContent) (needsComma : Bool) : Emit Bool := do
  let mut content := content
  let v ← view
  if v.kind == .star then
    if ← isUnusedImport (v.textAhead 2) then removeMany 3
    else
      if needsComma then add ","
      copyExpected .star
      copy
      copyExpected .name
      content := { content with hasValue := true }
  else if v.kind == .braceOpen then
    if needsComma then add ","
    copy
    content ← importSpecifiers content
    copyExpected .braceClose
  isDroppedImport content.hasValue content.hasSpecifier

theorem takes_clauseRest (hi : InNames s.tape w i) (content : ClauseContent) (needsComma : Bool)
    (hadd : Takes c s i (add ","))
    (hstar : s.tape.kind i = .star → InNames s.tape w (i + 1) → InNames s.tape w (i + 2) →
      (∀ k, k < 3 → Takes c s (i + k) remove) ∧ Takes c s i (copyExpected .star) ∧
        Takes c s (i + 1) copy ∧ Takes c s (i + 1 + 1) (copyExpected .name))
    (hbrace : ClauseAt s.tape i → Takes c s i copy ∧
      TakesTo c s (i + 1) (fun _ j => InClause s.tape i j) (importSpecifiers content) ∧
        ∀ j, InClause s.tape i j → Takes c s j (copyExpected .braceClose)) :
    Takes c s i (clauseRest content needsComma) := by
  unfold clauseRest
  refine .look ?_
  split
  next hkind =>
    have hkind : s.tape.kind i = .star := beq_iff_eq.1 hkind
    have hnext : InNames s.tape w (i + 1) := hi.succ (.inl (hasOneOf_of_kind hkind (by decide)))
    obtain ⟨hremove, _, _, _⟩ := hstar hkind hnext (hnext.succ (.inr hkind))
    have := (takesTo_removeMany hremove).takes
    have : Takes c s i (do
        copyExpected .star
        copy
        copyExpected .name
        isDroppedImport true content.hasSpecifier) :=
      (TakesTo.afterWrites (Q := fun _ _ => True) fun _ => .afterWrites fun _ =>
        .bind .of_takes fun _ _ _ => .of_takes).takes
    infer_instance
  next =>
    split
    next hkind =>
      have hb : ClauseAt s.tape i := ⟨beq_iff_eq.1 hkind, w, .inl hi⟩
      obtain ⟨_, hspecifiers, hclose⟩ := hbrace hb
      have := takes_closeClause hclose hspecifiers
        (f := fun content => isDroppedImport content.hasValue content.hasSpecifier)
        fun _ _ _ _ => inferInstance
      have : Takes c s i (do
          copy
          let content ← importSpecifiers content
          copyExpected .braceClose
          isDroppedImport content.hasValue content.hasSpecifier) :=
        (TakesTo.afterWrites (Q := fun _ _ => True) fun _ => .of_takes).takes
      infer_instance
    next => infer_instance

theorem takes_importClause (hi : ImportAt s.tape i) (hword : Takes c s i (copyExpected .importWord))
    (hcopy : s.tape.kind (i + 1) = .string ∨ s.tape.kind (i + 1) = .name → Takes c s (i + 1) copy)
    (hdefault : ∀ j, i < j → InNames s.tape i j →
      TakesTo c s j (fun _ k => InNames s.tape i k) defaultImport)
    (hrest : ∀ j content needsComma, i < j → InNames s.tape i j →
      Takes c s j (clauseRest content needsComma)) : Takes c s i importClause := by
  have hfirst : InNames s.tape i (i + 1) := ⟨hi, Nat.le_succ i, fun k hk hlt => absurd hlt (by omega)⟩
  unfold importClause
  refine (TakesTo.afterWrites (Q := fun _ _ => True) fun _ => .view ?_).takes
  split
  · exact .pure trivial
  split
  next hstring =>
    have := hcopy (.inl (beq_iff_eq.1 hstring))
    exact .afterWrites fun _ => .pure trivial
  split
  next hmodule =>
    have hsoft := (Bool.and_eq_true_iff.1 hmodule).1
    have hname : s.tape.kind (i + 1) = .name := beq_iff_eq.1 (Bool.and_eq_true_iff.1 hsoft).1
    have := hcopy (.inr hname)
    refine .afterWrites fun _ => .bind (hdefault _ (by omega)
      (hfirst.succ (.inl (hasOneOf_of_kind hname (by decide))))) fun found k hk => ?_
    exact (hrest _ { hasValue := found.1 } found.2 (by omega) hk).takesTo
  next =>
    refine .bind (hdefault _ (by omega) hfirst) fun found k hk => ?_
    exact (hrest _ { hasValue := found.1 } found.2 (by omega) hk).takesTo

end EsModule

end PlainScript.Emit
