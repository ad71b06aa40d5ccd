import PlainScript.Proofs.StatementRulesCompose
import PlainScript.Proofs.TracedFiles

/-!
# Operands of `??`

The first token of the left operand of a `??` and the last token of the right one count it. Whatever
has been tried and given up, the two counts and the number of operators agree, and no operation ends
before it starts. The writer opens a call where an operation starts and closes one where it ends, so
the calls in the output are balanced too.
-/

namespace PlainScript

namespace Entry

/-- A `??` that records where its left operand starts. -/
def isCoalescing (e : Entry) : Bool := e.kind == .nullish && e.nullishStart?.isSome

/-- What an entry adds to the three counts. -/
def counts (e : Entry) : Nat × Nat × Bool := (e.nullishStarts, e.nullishEnds, e.isCoalescing)

/-- One operation more starts at the token. -/
def opensNullish (e : Entry) : Entry := { e with nullishStarts := e.nullishStarts + 1 }

/-- One operation more ends at the token. -/
def closesNullish (e : Entry) : Entry := { e with nullishEnds := e.nullishEnds + 1 }

end Entry

namespace Grammar

/-- The number of operations that start at some tokens. -/
def opened (es : List Entry) : Nat := (es.map Entry.nullishStarts).sum

/-- The number of operations that end at some tokens. -/
def closed (es : List Entry) : Nat := (es.map Entry.nullishEnds).sum

/-- The number of operators among some tokens. -/
def coalescing (es : List Entry) : Nat := es.countP Entry.isCoalescing

@[simp] theorem opened_append (es fs : List Entry) : opened (es ++ fs) = opened es + opened fs := by
  simp [opened]

@[simp] theorem closed_append (es fs : List Entry) : closed (es ++ fs) = closed es + closed fs := by
  simp [closed]

@[simp] theorem coalescing_append (es fs : List Entry) :
    coalescing (es ++ fs) = coalescing es + coalescing fs := by
  simp [coalescing]

theorem opened_opens (es : List Entry) (i : Nat) :
    opened (es.modify i .opensNullish) = opened es + if i < es.length then 1 else 0 := by
  induction es generalizing i with
  | nil => simp [opened]
  | cons e es ih =>
    cases i with
    | zero =>
      simp [opened, Entry.opensNullish]
      omega
    | succ i =>
      have hrest := ih i
      simp only [opened] at hrest
      simp [opened, hrest, Nat.add_assoc]

theorem closed_closes (es : List Entry) (i : Nat) :
    closed (es.modify i .closesNullish) = closed es + if i < es.length then 1 else 0 := by
  induction es generalizing i with
  | nil => simp [closed]
  | cons e es ih =>
    cases i with
    | zero =>
      simp [closed, Entry.closesNullish]
      omega
    | succ i =>
      have hrest := ih i
      simp only [closed] at hrest
      simp [closed, hrest, Nat.add_assoc]

/-- A mark on one token leaves what it does not touch. -/
theorem map_modify_eq {β : Type} {f : Entry → Entry} {g : Entry → β} (h : ∀ e, g (f e) = g e)
    (es : List Entry) (i : Nat) : (es.modify i f).map g = es.map g := by
  apply List.ext_getElem?
  intro k
  simp only [List.getElem?_map, List.getElem?_modify]
  cases es[k]? with
  | none => rfl
  | some e => split <;> simp [h]

theorem closed_opens (es : List Entry) (i : Nat) :
    closed (es.modify i .opensNullish) = closed es :=
  congrArg List.sum (map_modify_eq (f := .opensNullish) (fun _ => rfl) es i)

theorem opened_closes (es : List Entry) (i : Nat) :
    opened (es.modify i .closesNullish) = opened es :=
  congrArg List.sum (map_modify_eq (f := .closesNullish) (fun _ => rfl) es i)

theorem coalescing_opens (es : List Entry) (i : Nat) :
    coalescing (es.modify i .opensNullish) = coalescing es := by
  have hmap := map_modify_eq (f := .opensNullish) (g := Entry.isCoalescing) (fun _ => rfl) es i
  simpa [coalescing, List.countP_map] using congrArg (List.countP id) hmap

theorem coalescing_closes (es : List Entry) (i : Nat) :
    coalescing (es.modify i .closesNullish) = coalescing es := by
  have hmap := map_modify_eq (f := .closesNullish) (g := Entry.isCoalescing) (fun _ => rfl) es i
  simpa [coalescing, List.countP_map] using congrArg (List.countP id) hmap

/-- Counts that agree, and operations that start before they end. -/
structure Balanced (es : List Entry) : Prop where
  opened : Grammar.opened es = coalescing es
  closed : Grammar.closed es = coalescing es
  ordered (k : Nat) : Grammar.closed (es.take k) ≤ Grammar.opened (es.take k)

namespace Balanced

variable {es fs : List Entry} {e : Entry}

theorem nil : Balanced [] := ⟨rfl, rfl, fun k => by simp [Grammar.opened, Grammar.closed]⟩

theorem congr (h : Balanced es) (hcounts : fs.map Entry.counts = es.map Entry.counts) :
    Balanced fs := by
  have hopened (k : Nat) : Grammar.opened (fs.take k) = Grammar.opened (es.take k) := by
    have hmap := congrArg (fun l => ((l.map Prod.fst).take k).sum) hcounts
    simpa [Grammar.opened, Entry.counts, Function.comp_def] using hmap
  have hclosed (k : Nat) : Grammar.closed (fs.take k) = Grammar.closed (es.take k) := by
    have hmap := congrArg (fun l => ((l.map (·.2.1)).take k).sum) hcounts
    simpa [Grammar.closed, Entry.counts, Function.comp_def] using hmap
  have hcoalescing : coalescing fs = coalescing es := by
    have hmap := congrArg (fun l => l.countP (·.2.2)) hcounts
    simpa [coalescing, List.countP_map, Entry.counts, Function.comp_def] using hmap
  have hlength : fs.length = es.length := by simpa using congrArg List.length hcounts
  have hall := hopened es.length
  have hall' := hclosed es.length
  rw [List.take_of_length_le (Nat.le_of_eq hlength), List.take_length] at hall hall'
  exact ⟨by rw [hall, hcoalescing, h.opened], by rw [hall', hcoalescing, h.closed],
    fun k => by rw [hopened, hclosed]; exact h.ordered k⟩

theorem append (hes : Balanced es) (hfs : Balanced fs) : Balanced (es ++ fs) where
  opened := by simp [hes.opened, hfs.opened]
  closed := by simp [hes.closed, hfs.closed]
  ordered k := by
    rw [List.take_append, opened_append, closed_append]
    exact Nat.add_le_add (hes.ordered k) (hfs.ordered _)

theorem blank (hcounts : e.counts = (0, 0, false)) : Balanced [e] := by
  have hstarts : e.nullishStarts = 0 := congrArg Prod.fst hcounts
  have hends : e.nullishEnds = 0 := congrArg (·.2.1) hcounts
  have hoperator : e.isCoalescing = false := congrArg (·.2.2) hcounts
  refine ⟨by simp [Grammar.opened, coalescing, hstarts, hoperator],
    by simp [Grammar.closed, coalescing, hends, hoperator], fun k => ?_⟩
  cases k with
  | zero => exact Nat.le_refl _
  | succ k => simp [Grammar.opened, Grammar.closed, hstarts, hends]

/-- A `??` between two parts: an operation starts in the first and ends with the last token. -/
theorem coalesce {i : Nat} (hes : Balanced es) (hfs : Balanced fs) (hi : i < es.length)
    (hcounts : e.counts = (0, 0, true)) :
    Balanced (((es ++ e :: fs).modify i .opensNullish).modify (es.length + fs.length)
      .closesNullish) := by
  have hstarts : e.nullishStarts = 0 := congrArg Prod.fst hcounts
  have hends : e.nullishEnds = 0 := congrArg (·.2.1) hcounts
  have hoperator : e.isCoalescing = true := congrArg (·.2.2) hcounts
  have hlength : (es ++ e :: fs).length = es.length + fs.length + 1 := by simp; omega
  -- Without the two marks only the operator itself is not accounted for.
  have hopened : Grammar.opened (es ++ e :: fs) + 1 = coalescing (es ++ e :: fs) := by
    have h := hes.opened
    have h' := hfs.opened
    simp only [Grammar.opened, coalescing] at h h'
    simp [Grammar.opened, coalescing, hstarts, hoperator]
    omega
  have hclosed : Grammar.closed (es ++ e :: fs) + 1 = coalescing (es ++ e :: fs) := by
    have h := hes.closed
    have h' := hfs.closed
    simp only [Grammar.closed, coalescing] at h h'
    simp [Grammar.closed, coalescing, hends, hoperator]
    omega
  have hordered (k : Nat) :
      Grammar.closed ((es ++ e :: fs).take k) ≤ Grammar.opened ((es ++ e :: fs).take k) := by
    have hrest (m : Nat) : Grammar.closed ((e :: fs).take m) ≤ Grammar.opened ((e :: fs).take m) := by
      cases m with
      | zero => exact Nat.le_refl _
      | succ m =>
        have h := hfs.ordered m
        simpa [Grammar.opened, Grammar.closed, hstarts, hends] using h
    rw [List.take_append, opened_append, closed_append]
    exact Nat.add_le_add (hes.ordered k) (hrest _)
  constructor
  case opened =>
    rw [opened_closes, coalescing_closes, opened_opens, coalescing_opens, if_pos (by omega)]
    exact hopened
  case closed =>
    rw [closed_closes, coalescing_closes, closed_opens, coalescing_opens, List.length_modify,
      if_pos (by omega)]
    exact hclosed
  case ordered =>
    intro k
    rw [List.take_modify, List.take_modify, closed_closes, opened_closes, closed_opens, opened_opens,
      List.length_modify, List.length_take, hlength]
    have h := hordered k
    split <;> split <;> omega

end Balanced

/-! ## Rules -/

variable {σ τ υ : State}

/-- The counts behind `σ` agree. -/
structure BalancedSince (σ τ : State) : Prop where
  size : σ.tokens.size ≤ τ.tokens.size
  balanced : Balanced (τ.entries.drop σ.tokens.size)

namespace BalancedSince

theorem refl (σ : State) : BalancedSince σ σ where
  size := Nat.le_refl _
  balanced := by
    rw [List.drop_eq_nil_of_le (by simp)]
    exact .nil

/-- What is behind `σ` consists of what comes before `τ` and what is behind `τ`. -/
theorem trans (hστ : BalancedSince σ τ) (hτυ : BalancedSince τ υ) (hext : τ.Extends υ) :
    BalancedSince σ υ where
  size := Nat.le_trans hστ.size hτυ.size
  balanced := by
    obtain ⟨rest, hrest⟩ := hext.entries
    have hsplit : υ.entries.drop σ.tokens.size =
        τ.entries.drop σ.tokens.size ++ υ.entries.drop τ.tokens.size := by
      rw [← hrest, List.drop_append_of_le_length (by simpa using hστ.size),
        List.drop_left' (by simp)]
    rw [hsplit]
    exact hστ.balanced.append hτυ.balanced

theorem note (h : BalancedSince σ τ) (hnote : τ.Notes υ) : BalancedSince σ υ where
  size := hnote.size_eq ▸ h.size
  balanced := hnote.entries ▸ h.balanced

theorem take (h : BalancedSince σ τ) (htakes : Takes τ υ) : BalancedSince σ υ where
  size := Nat.le_trans h.size htakes.toExtends.size_le
  balanced := by
    rcases htakes.tokens with htokens | ⟨l, depth, isType, htokens⟩
    · exact State.entries_of_tokens htokens ▸ h.balanced
    · rw [State.entries_push htokens, List.drop_append_of_le_length (by simpa using h.size)]
      refine h.balanced.append (.blank ?_)
      simp [Entry.counts, Entry.isCoalescing]

theorem annotate {f : Token → Token} (h : BalancedSince σ τ) (i : Nat)
    (hf : ∀ t, τ.tokens[i]? = some t → (f t).entry.counts = t.entry.counts) :
    BalancedSince σ (τ.modifyToken i f) where
  size := by simpa using h.size
  balanced := by
    refine h.balanced.congr ?_
    have hcounts : (τ.modifyToken i f).entries.map Entry.counts = τ.entries.map Entry.counts := by
      apply List.ext_getElem?
      intro k
      simp only [List.getElem?_map, State.getElem?_entries, State.modifyToken, Array.getElem?_modify]
      split
      case isTrue hk =>
        subst hk
        cases ht : τ.tokens[i]? with
        | none => rfl
        | some t => simp [hf t ht]
      case isFalse => rfl
    rw [List.map_drop, List.map_drop, hcounts]

/-- A token that may get another kind is no operator. -/
theorem rekind {i : Nat} {k : TokenKind} (h : BalancedSince σ τ) (hloose : τ.IsLoose i)
    (hk : k.isStructural = false) :
    BalancedSince σ (τ.modifyToken i (.ofKind k)) := by
  have hne {k : TokenKind} (hk : k.isStructural = false) : k ≠ .nullish := by
    rintro rfl
    cases hk
  obtain ⟨e, he, hloose⟩ := hloose
  refine h.annotate i fun t ht => ?_
  rw [State.getElem?_entries, ht] at he
  cases he
  have hnew : (Token.ofKind k t).entry.isCoalescing = false := by
    simp [Entry.isCoalescing, Token.entry, Token.ofKind, hne hk]
  have hold : t.entry.isCoalescing = false := by
    rcases hloose with hkind | ⟨-, -, hnone⟩
    · simp [Entry.isCoalescing, hne hkind]
    · simp [Entry.isCoalescing, hnone]
  unfold Entry.counts
  rw [hnew, hold]
  rfl

theorem coalesce {env : Env} {ω : State} {start : Nat} (hτ : BalancedSince σ τ)
    (hstart : σ.tokens.size ≤ start) (hlt : start < τ.tokens.size) (hkind : τ.current.kind = .nullish)
    (hnext : Parse.next env τ = .ok ((), υ)) (hω : BalancedSince (υ.markLast (.nullishOf start)) ω)
    (hext : (υ.markLast (.nullishOf start)).Extends ω) :
    BalancedSince σ ((ω.modifyToken start .opensNullish).markLast .closesNullish) := by
  obtain ⟨rest, hrest⟩ := hext.entries
  have hoperator : (υ.markLast (.nullishOf start)).entries =
      τ.entries ++ [⟨.nullish, τ.current.keyword, none, none, 0, 0, none, some start⟩] := by
    rw [entries_consume ({ · with nullishStart? := some start }) (fun _ => rfl) hnext, hkind]
  have hω' : Balanced rest := by
    have hdrop := hω.balanced
    rw [← hrest, List.drop_left' (State.length_entries _)] at hdrop
    exact hdrop
  have hsize : ω.tokens.size = τ.tokens.size + 1 + rest.length := by
    have hlength := congrArg List.length hrest
    simp only [hoperator, List.length_append, State.length_entries, List.length_singleton] at hlength
    exact hlength.symm
  have hentries : ((ω.modifyToken start .opensNullish).markLast .closesNullish).entries =
      (ω.entries.modify start .opensNullish).modify (ω.tokens.size - 1) .closesNullish := by
    rw [State.markLast, State.entries_modifyToken _ _ .closesNullish fun _ => rfl,
      State.entries_modifyToken _ _ .opensNullish fun _ => rfl, State.size_modifyToken]
  constructor
  · simp only [State.size_markLast, State.size_modifyToken]
    omega
  · rw [hentries, List.drop_modify_of_ge _ _ _ _ (by omega), List.drop_modify_of_ge _ _ _ _ hstart,
      ← hrest, hoperator, List.append_assoc, List.drop_append_of_le_length (by simpa using hτ.size)]
    have hlength : (τ.entries.drop σ.tokens.size).length = τ.tokens.size - σ.tokens.size := by simp
    have hlast : ω.tokens.size - 1 - σ.tokens.size =
        (τ.entries.drop σ.tokens.size).length + rest.length := by
      rw [hlength, hsize]
      have := hτ.size
      omega
    rw [hlast]
    exact hτ.balanced.coalesce hω' (by omega) rfl

end BalancedSince

theorem invariant_balanced : Invariant BalancedSince where
  refl := .refl
  trans := .trans
  note := .note
  take := .take
  number i _ h := h.annotate i fun _ _ => rfl
  rekind := .rekind
  subscript h _ _ := h.annotate _ fun _ _ => rfl
  assign hστ hτυ hext _ := (hστ.trans hτυ hext).annotate _ fun _ _ => rfl
  coalesce := .coalesce

end Grammar

/-! ## Files -/

namespace AnnotatedFile

open Grammar

/-- Every `??` is counted where its left operand starts and where its right one ends, and none ends
before it starts. -/
structure NullishBalanced (f : AnnotatedFile) : Prop where
  starts : (f.tokens.toList.map (·.nullishStarts)).sum =
    f.tokens.toList.countP fun t => t.kind == .nullish && t.nullishStart?.isSome
  ends : (f.tokens.toList.map (·.nullishEnds)).sum =
    f.tokens.toList.countP fun t => t.kind == .nullish && t.nullishStart?.isSome
  ordered (n : Nat) : ((f.tokens.toList.take n).map (·.nullishEnds)).sum ≤
    ((f.tokens.toList.take n).map (·.nullishStarts)).sum

variable {s : Source} {d : Dialect} {f : AnnotatedFile}

theorem nullishBalanced (h : ofSource s d = .ok f) : f.NullishBalanced := by
  obtain ⟨σ, τ, -, htokens, -, hτ, hnone, -, hf⟩ := exists_composed_of_ofSource h
  have hbalanced : Balanced (f.tokens.toList.map Token.entry) := by
    have hsince := (hτ.keeps invariant_balanced hnone).balanced
    rwa [htokens, Array.size_empty, List.drop_zero, State.entries, ← hf] at hsince
  refine ⟨?_, ?_, fun n => ?_⟩
  · have hopened := hbalanced.opened
    rwa [opened, coalescing, List.map_map, List.countP_map] at hopened
  · have hclosed := hbalanced.closed
    rwa [closed, coalescing, List.map_map, List.countP_map] at hclosed
  · have hordered := hbalanced.ordered n
    rwa [opened, closed, ← List.map_take, List.map_map, List.map_map] at hordered

/-- Nothing starts or ends at the end of the text. -/
theorem back_ofSource (h : ofSource s d = .ok f) :
    ∃ t, f.tokens.back? = some t ∧ t.kind = .eof ∧ t.nullishStarts = 0 ∧ t.nullishEnds = 0 := by
  obtain ⟨σ, τ, env, -, -, -, -, ⟨υ, -, hkind, hnext⟩, hf⟩ := exists_composed_of_ofSource h
  have hlast := congrArg List.getLast? (entries_of_next hnext)
  rw [List.getLast?_concat, State.entries, List.getLast?_map, Option.map_eq_some_iff] at hlast
  obtain ⟨t, ht, hentry⟩ := hlast
  refine ⟨t, ?_, (congrArg Entry.kind hentry).trans hkind, congrArg Entry.nullishStarts hentry,
    congrArg Entry.nullishEnds hentry⟩
  rw [hf, ← Array.getLast?_toList, ht]

end AnnotatedFile

/-! ## Calls -/

namespace Emit

variable {s : Setting} {σ : State}

/-- Pieces in which each token between two indices stands once, with the calls that start and end at
it around it. -/
inductive Wrapped (s : Setting) : Nat → Nat → List Piece → Prop
  | nil {i : Nat} : Wrapped s i i []
  | add {i j : Nat} {pieces : List Piece} (code : String) (h : Wrapped s i j pieces) :
      Wrapped s i j (pieces ++ [.added code])
  | write {i j : Nat} {pieces : List Piece} (form : GapForm) (before code : String)
      (h : Wrapped s i j pieces) : Wrapped s i (j + 1) (pieces ++ s.written j form before code)

theorem Wrapped.append {i j k : Nat} {pieces more : List Piece} (hfirst : Wrapped s i j pieces)
    (hrest : Wrapped s j k more) : Wrapped s i k (pieces ++ more) := by
  induction hrest with
  | nil => simpa using hfirst
  | add code _ ih =>
    rw [← List.append_assoc]
    exact ih.add code
  | write form before code _ ih =>
    rw [← List.append_assoc]
    exact ih.write form before code

theorem Trace.wrapped {h i j : Nat} {pieces : List Piece} (htrace : Trace s h i j pieces) :
    Wrapped s i j pieces := by
  induction htrace with
  | nil => exact .nil
  | add _ _ _ ih => exact ih.add _
  | write _ _ ih => exact ih.write _ _ _
  | task _ _ _ ih ih' => exact ih.append ih'

/-- The output of a walk has all tokens with their calls, every call that is opened is closed, and none
is closed before it is opened. -/
structure CallsBalanced (s : Setting) (σ : State) : Prop where
  wrapped : ∃ pieces, σ.output.toList = pieces ++ [.gap σ.index (s.gapAt σ.index)] ∧
    Wrapped s 0 σ.index pieces
  total : ((List.range σ.index).map s.nullishOpened).sum =
    ((List.range σ.index).map s.nullishClosed).sum
  ordered (n : Nat) : ((List.range n).map s.nullishClosed).sum ≤
    ((List.range n).map s.nullishOpened).sum

/-- What is counted at indices is counted in a list. -/
theorem sum_range_eq {α : Type} (l : List α) (g : α → Nat) (n : Nat) :
    ((List.range n).map fun i => (l[i]?.map g).getD 0).sum = ((l.take n).map g).sum := by
  induction n with
  | zero => simp
  | succ n ih =>
    rw [List.range_succ, List.map_append, List.sum_append, ih, List.take_add_one, List.map_append,
      List.sum_append]
    cases hn : l[n]? <;> simp [hn]

section

variable {text : String} {o : Options} {p : Prepared} {f : AnnotatedFile} {g : Token → Nat}

/-- What is read from a tape is read from the tokens of the parser. -/
theorem map_get_of_tokens {α : Type} {g : Token → α} {a : α} {t : Tape} (source : Source)
    (hsame : ∀ i : Nat, t.tokens[i]?.map g = (Tape.ofTokens source f.tokens).tokens[i]?.map g)
    (hback : ∀ t, f.tokens.back? = some t → g t = a) (hend : g t.endToken = a) (i : Nat) :
    g (t.get i) = (f.tokens.toList[i]?.map g).getD a := by
  have hget : g (t.get i) = (t.tokens[i]?.map g).getD a := by
    rw [Tape.get, Array.getD_eq_getD_getElem?]
    cases t.tokens[i]? with
    | none => exact hend
    | some t => rfl
  rw [hget, hsame, Array.getElem?_toList, Tape.ofTokens]
  dsimp only
  split
  · -- From the token that is left out nothing else is read than past the end.
    rw [Array.getElem?_pop]
    split
    · rfl
    next hge =>
      cases ht : f.tokens[i]? with
      | none => rfl
      | some t =>
        have hlt := (Array.getElem?_eq_some_iff.1 ht).1
        have hlast : f.tokens.back? = some t := by
          rw [Array.back?_eq_getElem?, ← ht]
          congr 1
          omega
        exact (hback t hlast).symm
  · rfl

theorem IsPrepared.map_get {α : Type} {g : Token → α} {a : α} (hp : IsPrepared text o p f)
    (hmarks : ∀ t, g (Shadowing.unmarked t) = g t) (hback : ∀ t, f.tokens.back? = some t → g t = a)
    (hend : g p.setting.tape.endToken = a) (i : Nat) :
    g (p.setting.tape.get i) = (f.tokens.toList[i]?.map g).getD a := by
  refine map_get_of_tokens (Source.ofText text) (fun i => ?_) hback hend i
  have hall := congrArg (fun ts : Array Token => ts[i]?.map g) hp.tokens
  simpa only [Array.getElem?_map, Option.map_map, Function.comp_def, hmarks] using hall

/-- So the sums agree, up to any token and over all of them. -/
theorem IsPrepared.sum_get (hp : IsPrepared text o p f)
    (hmarks : ∀ t, g (Shadowing.unmarked t) = g t) (hback : ∀ t, f.tokens.back? = some t → g t = 0)
    (hend : g p.setting.tape.endToken = 0) (n : Nat) :
    ((List.range n).map fun i => g (p.setting.tape.get i)).sum = ((f.tokens.toList.take n).map g).sum := by
  simp only [hp.map_get hmarks hback hend]
  exact sum_range_eq _ _ n

theorem IsPrepared.sum_get_all (hp : IsPrepared text o p f)
    (hmarks : ∀ t, g (Shadowing.unmarked t) = g t) (hback : ∀ t, f.tokens.back? = some t → g t = 0)
    (hend : g p.setting.tape.endToken = 0) {n : Nat} (hn : p.setting.tape.size ≤ n) :
    ((List.range n).map fun i => g (p.setting.tape.get i)).sum = (f.tokens.toList.map g).sum := by
  have hpast (i : Nat) : g (p.setting.tape.get (n + i)) = 0 := by
    rw [Tape.get_of_size_le (Nat.le_add_right_of_le hn), hend]
  have hsum := hp.sum_get hmarks hback hend (n + f.tokens.size)
  rw [List.take_of_length_le (by simp), List.range_add, List.map_append, List.map_map,
    List.sum_append] at hsum
  simpa [Function.comp_def, hpast] using hsum

theorem callsBalanced_of_trace {pieces : List Piece} (hp : IsPrepared text o p f)
    (houtput : σ.output.toList = pieces ++ [.gap σ.index (p.setting.gapAt σ.index)])
    (htrace : Trace p.setting 0 0 σ.index pieces) (hindex : p.setting.tape.size ≤ σ.index) :
    CallsBalanced p.setting σ := by
  have hbalanced := AnnotatedFile.nullishBalanced hp.parsed
  obtain ⟨t, hback, -, hstarts, hends⟩ := AnnotatedFile.back_ofSource hp.parsed
  have hstarts (u : Token) (hu : f.tokens.back? = some u) : u.nullishStarts = 0 :=
    Option.some.inj (hback.symm.trans hu) ▸ hstarts
  have hends (u : Token) (hu : f.tokens.back? = some u) : u.nullishEnds = 0 :=
    Option.some.inj (hback.symm.trans hu) ▸ hends
  refine ⟨⟨pieces, houtput, htrace.wrapped⟩, ?_, fun n => ?_⟩
  all_goals
    unfold Setting.nullishOpened Setting.nullishClosed
    split
  case refine_1.isTrue => rfl
  case refine_2.isTrue => exact Nat.le_refl _
  · rw [hp.sum_get_all (fun _ => rfl) hstarts rfl hindex, hp.sum_get_all (fun _ => rfl) hends rfl hindex,
      hbalanced.starts, hbalanced.ends]
  · rw [hp.sum_get (fun _ => rfl) hstarts rfl, hp.sum_get (fun _ => rfl) hends rfl]
    exact hbalanced.ordered n

end

end Emit

namespace AnnotatedFile

open Emit

/-- Operations with `??` are balanced in every file, and so are the calls that the writer makes of them
in the output. -/
theorem nullishBalanced_of_ofSource {s : Source} {d : Dialect} {f : AnnotatedFile}
    (h : ofSource s d = .ok f) :
    f.NullishBalanced ∧ ∀ o code, Output.codeOf s.text o = .ok code → ∃ p σ,
      prepare s.text o = .ok p ∧
      Emit.file ⟨p.setting, performFor p.setting (depthLimit p.setting.tape)⟩ p.state = .ok ((), σ) ∧
      code = assemble (prefixCode p.setting σ) (Piece.render σ.output) (suffixCode p.setting σ) ∧
      CallsBalanced p.setting σ := by
  refine ⟨nullishBalanced h, fun o code hcode => ?_⟩
  obtain ⟨p, hprepare, -⟩ := writeFile_of_codeOf hcode
  obtain ⟨file, σ, pieces, hp, hrun, hassemble, houtput, htrace, hindex, -⟩ :=
    trace_of_codeOf hprepare hcode 0
  exact ⟨p, σ, hprepare, hrun, hassemble, callsBalanced_of_trace hp houtput htrace hindex⟩

/-- A `??` whose left operand is another one. -/
theorem nullishBalanced_of_ofSource_nested :
    ∃ s f, s.text = "a ?? b ?? c" ∧ ofSource s {} = .ok f ∧
      f.tokens.map (fun t => (t.nullishStarts, t.nullishEnds)) =
        #[(2, 0), (0, 0), (0, 1), (0, 0), (0, 1), (0, 0)] ∧
      (Output.codeOf s.text {}).toOption = some (" function _nullishCoalesce(lhs, rhsFn) " ++
        "\x7b if (lhs != null) \x7b return lhs; \x7d else \x7b return rhsFn(); \x7d \x7d" ++
        "_nullishCoalesce(_nullishCoalesce(a, () => ( b)), () => ( c))") ∧
      f.NullishBalanced ∧ ∃ p σ, prepare s.text {} = .ok p ∧ CallsBalanced p.setting σ := by
  let s := Source.ofText "a ?? b ?? c"
  have hcounts : ((ofSource s {}).toOption.map fun f =>
      f.tokens.map fun t => (t.nullishStarts, t.nullishEnds)) =
        some #[(2, 0), (0, 0), (0, 1), (0, 0), (0, 1), (0, 0)] := by
    decide +kernel
  have hcode : (Output.codeOf s.text {}).toOption = some
      (" function _nullishCoalesce(lhs, rhsFn) " ++
        "\x7b if (lhs != null) \x7b return lhs; \x7d else \x7b return rhsFn(); \x7d \x7d" ++
        "_nullishCoalesce(_nullishCoalesce(a, () => ( b)), () => ( c))") := by
    decide +kernel
  cases hfile : ofSource s {} with
  | error e =>
    rw [hfile] at hcounts
    cases hcounts
  | ok f =>
    rw [hfile] at hcounts
    obtain ⟨hbalanced, hcalls⟩ := nullishBalanced_of_ofSource hfile
    obtain ⟨p, σ, hprepare, -, -, hcalls⟩ := hcalls {} _ (eq_ok_of_toOption hcode)
    exact ⟨s, f, rfl, hfile, Option.some.inj hcounts, hcode, hbalanced, p, σ, hprepare, hcalls⟩

end AnnotatedFile

end PlainScript
