import Mathlib.Data.List.TakeDrop
import Mathlib.Tactic.Tauto
import PlainScript.Proofs.Prepared
import PlainScript.Proofs.Scopes

/-!
# Names that inner declarations hide

A declaration hides a global name in the innermost scope around it, and one that belongs to a function
in the innermost function around it. The walk over the tokens finds these scopes with a stack. Here the
stack is shown to hold, at every token, the scopes that contain the token, the innermost first; so what
the walk marks is what the two rules say. Leaving the walk out where no inner declaration has the text
of a global name changes nothing.
-/

namespace PlainScript

/-- A token lies in a scope. -/
def Scope.Contains (x : Scope) (i : Nat) : Prop := x.start ≤ i ∧ i < x.stop

instance (x : Scope) (i : Nat) : Decidable (x.Contains i) := inferInstanceAs (Decidable (_ ∧ _))

/-- The scopes that contain a token, in the order in which they close. -/
def containing (scopes : Array Scope) (i : Nat) : List Scope :=
  scopes.toList.filter fun x => decide (x.Contains i)

theorem mem_containing {scopes : Array Scope} {i : Nat} {x : Scope} :
    x ∈ containing scopes i ↔ x ∈ scopes ∧ x.Contains i := by
  simp [containing]

namespace Shadowing

variable {source : Source} {isGlobal : String → Bool} {scopes : Array Scope} {tokens : Array Token}

/-- Scopes that close one inside the other, the last of which is a function around all tokens. What is
declared at the top level, imports apart, lies in no other scope. -/
structure Enclosing (scopes : Array Scope) (tokens : Array Token) : Prop where
  nonempty : ∀ x ∈ scopes, x.start < x.stop
  ordered : scopes.toList.Pairwise fun x y => x.stop ≤ y.stop
  nested : scopes.toList.Pairwise fun x y =>
    x.stop ≤ y.start ∨ (y.start ≤ x.start ∧ x.stop ≤ y.stop)
  last : ∃ file, scopes.back? = some file ∧ file.isFunction = true ∧ file.start = 0 ∧
    tokens.size ≤ file.stop
  topLevel : ∀ (i : Nat) (t : Token), tokens[i]? = some t →
    t.hasRole IdentifierRole.isTopLevelDeclaration = true → t.role? ≠ some .importDeclaration →
    ∀ x ∈ scopes.pop, ¬ x.Contains i

/-- The innermost of the scopes around a token that satisfy `p`. -/
structure Innermost (p : Scope → Bool) (scopes : Array Scope) (i : Nat) (x : Scope) : Prop where
  mem : x ∈ scopes
  contains : x.Contains i
  holds : p x = true
  least : ∀ y ∈ scopes, y.Contains i → p y = true → y.start ≤ x.start ∧ x.stop ≤ y.stop

/-- The scope in which a declaration at a token binds its name. -/
def BindsIn (scopes : Array Scope) (k : Nat) (d : Token) (x : Scope) : Prop :=
  (d.hasRole IdentifierRole.isBlockScopedDeclaration = true ∧ Innermost (fun _ => true) scopes k x) ∨
    (d.hasRole IdentifierRole.isFunctionScopedDeclaration = true ∧
      Innermost (·.isFunction) scopes k x)

/-- The token at `k` declares a global name again, and in a scope around the token at `i`. -/
structure Hides (source : Source) (isGlobal : String → Bool) (scopes : Array Scope) (k : Nat)
    (d : Token) (i : Nat) (name : String) : Prop where
  kind : d.kind = .name
  isType : d.isType = false
  text : d.text source = name
  isGlobal : isGlobal name = true
  inner : 2 ≤ (containing scopes k).length
  binds : ∃ x, BindsIn scopes k d x ∧ x.Contains i

/-! ## The stack -/

/-- Where a key never rises, the elements with the largest key come first. -/
theorem dropWhile_eq_filter {α : Type} {key : α → Nat} {n : Nat} {l : List α}
    (hsorted : l.Pairwise fun x y => key y ≤ key x) (hle : ∀ x ∈ l, key x ≤ n) :
    l.dropWhile (key · == n) = l.filter fun x => decide (key x < n) := by
  induction l with
  | nil => rfl
  | cons x l ih =>
    obtain ⟨hx, hl⟩ := List.pairwise_cons.1 hsorted
    have hxn := hle x (List.mem_cons_self ..)
    rw [List.dropWhile_cons]
    split
    case isTrue heq =>
      rw [List.filter_cons_of_neg (by simp at heq ⊢; omega)]
      exact ih hl fun y hy => hle y (List.mem_cons_of_mem _ hy)
    case isFalse hne =>
      refine (List.filter_eq_self.2 fun y hy => ?_).symm
      simp only [beq_iff_eq] at hne
      rcases List.mem_cons.1 hy with rfl | hy
      · simpa using (by omega : key y < n)
      · have := hx y hy
        simpa using (by omega : key y < n)

theorem takeWhile_eq_filter {α : Type} {key : α → Nat} {n : Nat} {l : List α}
    (hsorted : l.Pairwise fun x y => key y ≤ key x) (hle : ∀ x ∈ l, key x ≤ n) :
    l.takeWhile (key · == n) = l.filter (key · == n) := by
  induction l with
  | nil => rfl
  | cons x l ih =>
    obtain ⟨hx, hl⟩ := List.pairwise_cons.1 hsorted
    have hxn := hle x (List.mem_cons_self ..)
    rw [List.takeWhile_cons, List.filter_cons]
    split
    case isTrue => rw [ih hl fun y hy => hle y (List.mem_cons_of_mem _ hy)]
    case isFalse hne =>
      simp only [beq_iff_eq] at hne
      refine (List.filter_eq_nil_iff.2 fun y hy => ?_).symm
      have := hx y hy
      simp only [beq_iff_eq]
      omega

/-- Where a key never falls, the elements with the least key come first. -/
theorem filter_append_filter {α : Type} {key : α → Nat} {p : α → Bool} {n : Nat} {l : List α}
    (hsorted : l.Pairwise fun x y => key x ≤ key y) :
    (l.filter fun x => p x && key x == n) ++ (l.filter fun x => p x && decide (n < key x)) =
      l.filter fun x => p x && decide (n ≤ key x) := by
  induction l with
  | nil => rfl
  | cons x l ih =>
    obtain ⟨hx, hl⟩ := List.pairwise_cons.1 hsorted
    simp only [List.filter_cons]
    rcases Nat.lt_trichotomy (key x) n with hlt | heq | hgt
    · simp [Nat.ne_of_lt hlt, Nat.not_lt.2 (Nat.le_of_lt hlt), Nat.not_le.2 hlt, ih hl]
    · cases hp : p x <;> simp [heq, ih hl]
    · -- Nothing behind `x` has the least key.
      have hnone : (l.filter fun y => p y && key y == n) = [] := by
        refine List.filter_eq_nil_iff.2 fun y hy => ?_
        have := hx y hy
        simp only [Bool.and_eq_true, beq_iff_eq, not_and]
        omega
      have hrest := ih hl
      rw [hnone, List.nil_append] at hrest
      cases hp : p x <;> simp [hnone, hrest, Nat.ne_of_gt hgt, hgt, Nat.le_of_lt hgt]

/-- What the walk knows about scopes when it comes to an index: those around the token there, and those
that stop there or before. -/
structure Located (scopes : Array Scope) (n : Nat) (w : Walk) : Prop where
  around : w.around = containing scopes n
  ahead : w.ahead = (scopes.toList.filter fun x => decide (x.stop ≤ n)).reverse

/-- Of two scopes around a token, the one that closes first starts last. -/
theorem Enclosing.pairwise_containing (h : Enclosing scopes tokens) (i : Nat) :
    (containing scopes i).Pairwise fun x y => y.start ≤ x.start ∧ x.stop ≤ y.stop := by
  have hnested := h.nested.filter fun x => decide (x.Contains i)
  refine hnested.imp_of_mem fun {x y} hx hy hxy => ?_
  have hx := (mem_containing.1 hx).2
  have hy := (mem_containing.1 hy).2
  simp only [Scope.Contains] at hx hy
  omega

/-- Scopes are left and entered so that those around the token before are on the stack. -/
theorem Located.moveTo {w : Walk} {n : Nat} (h : Enclosing scopes tokens)
    (hw : Located scopes (n + 1) w) : Located scopes n (moveTo (n + 1) w) := by
  have hstarts : w.around.Pairwise fun x y => y.start ≤ x.start := by
    rw [hw.around]
    exact (h.pairwise_containing _).imp And.left
  have hstarts_le : ∀ x ∈ w.around, x.start ≤ n + 1 := by
    intro x hx
    rw [hw.around] at hx
    exact (mem_containing.1 hx).2.1
  have hstops : w.ahead.Pairwise fun x y => y.stop ≤ x.stop := by
    rw [hw.ahead, List.pairwise_reverse]
    exact h.ordered.filter _
  have hstops_le : ∀ x ∈ w.ahead, x.stop ≤ n + 1 := by
    intro x hx
    rw [hw.ahead, List.mem_reverse, List.mem_filter, decide_eq_true_eq] at hx
    exact hx.2
  constructor
  case around =>
    have hleft : w.around.dropWhile (·.start == n + 1) =
        scopes.toList.filter fun x => decide (x.start ≤ n) && decide (n + 1 < x.stop) := by
      rw [dropWhile_eq_filter hstarts hstarts_le, hw.around, containing, List.filter_filter]
      refine List.filter_congr fun x _ => ?_
      rw [Bool.eq_iff_iff]
      simp only [Bool.and_eq_true, decide_eq_true_eq]
      unfold Scope.Contains
      omega
    have hentered : (w.ahead.takeWhile (·.stop == n + 1)).reverse =
        scopes.toList.filter fun x => decide (x.start ≤ n) && x.stop == n + 1 := by
      rw [takeWhile_eq_filter hstops hstops_le, hw.ahead, List.filter_reverse, List.reverse_reverse,
        List.filter_filter]
      refine List.filter_congr fun x hx => ?_
      have := h.nonempty x (Array.mem_toList_iff.1 hx)
      rw [Bool.eq_iff_iff]
      simp only [Bool.and_eq_true, decide_eq_true_eq, beq_iff_eq]
      omega
    have hall := filter_append_filter (p := fun x => decide (x.start ≤ n)) (n := n + 1) h.ordered
    rw [← hleft, ← hentered] at hall
    have hpushed (xs ys : List Scope) : xs.foldl (fun l x => x :: l) ys = xs.reverse ++ ys := by
      induction xs generalizing ys with
      | nil => rfl
      | cons x xs ih => simp [ih]
    simp only [Shadowing.moveTo, List.span_eq_takeWhile_dropWhile, hpushed]
    rw [hall, containing]
    refine List.filter_congr fun x _ => ?_
    rw [Bool.eq_iff_iff]
    simp only [Bool.and_eq_true, decide_eq_true_eq]
    unfold Scope.Contains
    omega
  case ahead =>
    simp only [Shadowing.moveTo, List.span_eq_takeWhile_dropWhile]
    rw [dropWhile_eq_filter hstops hstops_le, hw.ahead, List.filter_reverse, List.filter_filter]
    congr 1
    refine List.filter_congr fun x _ => ?_
    rw [Bool.eq_iff_iff]
    simp only [Bool.and_eq_true, decide_eq_true_eq]
    omega

/-! ## Scopes of declarations -/

/-- The first scope on the stack that satisfies `p` is the innermost one. -/
theorem Enclosing.innermost_of_find? {p : Scope → Bool} {i : Nat} {x : Scope}
    (h : Enclosing scopes tokens) (hx : (containing scopes i).find? p = some x) :
    Innermost p scopes i x := by
  obtain ⟨hp, before, after, hsplit, hbefore⟩ := List.find?_eq_some_iff_append.1 hx
  have hmem : x ∈ containing scopes i := by simp [hsplit]
  refine ⟨(mem_containing.1 hmem).1, (mem_containing.1 hmem).2, hp, fun y hy hcontains hpy => ?_⟩
  have hall := h.pairwise_containing i
  have hy : y ∈ before ++ x :: after := hsplit ▸ mem_containing.2 ⟨hy, hcontains⟩
  rw [hsplit, List.pairwise_append, List.pairwise_cons] at hall
  rcases List.mem_append.1 hy with hy | hy
  · have hfalse := hbefore y hy
    simp [hpy] at hfalse
  · rcases List.mem_cons.1 hy with rfl | hy
    · exact ⟨Nat.le_refl _, Nat.le_refl _⟩
    · exact hall.2.1.1 y hy

/-- Innermost scopes cover the same tokens. -/
theorem Innermost.contains_iff {p : Scope → Bool} {k i : Nat} {x y : Scope}
    (hx : Innermost p scopes k x) (hy : Innermost p scopes k y) : x.Contains i ↔ y.Contains i := by
  have hxy := hx.least y hy.mem hy.contains hy.holds
  have hyx := hy.least x hx.mem hx.contains hx.holds
  simp only [Scope.Contains]
  omega

/-- There is a scope around every token, and it is a function. -/
theorem Enclosing.file (h : Enclosing scopes tokens) {k : Nat} (hk : k < tokens.size) :
    ∃ x ∈ containing scopes k, x.isFunction = true := by
  obtain ⟨file, hback, hfunction, hstart, hstop⟩ := h.last
  refine ⟨file, mem_containing.2 ⟨Array.mem_of_back? hback, ?_, ?_⟩, hfunction⟩
  all_goals omega

/-- The scope that the walk takes for a declaration is the one in which it binds its name. -/
theorem Enclosing.contains_bindingScope? (h : Enclosing scopes tokens) {k i : Nat} {d : Token}
    (hk : k < tokens.size) :
    (∃ x, bindingScope? (containing scopes k) d = some x ∧ x.Contains i) ↔
      ∃ x, BindsIn scopes k d x ∧ x.Contains i := by
  obtain ⟨file, hfile, hfunction⟩ := h.file hk
  -- A role is not of both kinds.
  have hroles : d.hasRole IdentifierRole.isBlockScopedDeclaration = true →
      d.hasRole IdentifierRole.isFunctionScopedDeclaration = false := by
    unfold Token.hasRole
    cases d.role? with
    | none => intro _; rfl
    | some role => cases role <;> simp [IdentifierRole.isBlockScopedDeclaration,
        IdentifierRole.isFunctionScopedDeclaration]
  -- Some scope is found, and it is the innermost one.
  have hfound {p : Scope → Bool} (hp : p file = true) :
      ∃ x, (containing scopes k).find? p = some x ∧ Innermost p scopes k x := by
    obtain ⟨x, hx⟩ := Option.isSome_iff_exists.1 (List.find?_isSome.2 ⟨file, hfile, hp⟩)
    exact ⟨x, hx, h.innermost_of_find? hx⟩
  unfold bindingScope? BindsIn
  cases hblock : d.hasRole IdentifierRole.isBlockScopedDeclaration with
  | true =>
    obtain ⟨x, hx, hinnermost⟩ := hfound (p := fun _ => true) rfl
    have hhead : (containing scopes k).head? = some x := by
      rw [← hx]
      cases containing scopes k <;> rfl
    simp only [if_true, hroles hblock, Bool.false_eq_true, false_and, or_false, true_and, hhead,
      Option.some.injEq]
    constructor
    · rintro ⟨_, rfl, hi⟩
      exact ⟨x, hinnermost, hi⟩
    · rintro ⟨y, hy, hi⟩
      exact ⟨x, rfl, (hinnermost.contains_iff hy).2 hi⟩
  | false =>
    cases hscoped : d.hasRole IdentifierRole.isFunctionScopedDeclaration with
    | true =>
      obtain ⟨x, hx, hinnermost⟩ := hfound (p := (·.isFunction)) hfunction
      simp only [Bool.false_eq_true, if_false, if_true, false_and, false_or, true_and, hx,
        Option.some_or, Option.some.injEq]
      constructor
      · rintro ⟨_, rfl, hi⟩
        exact ⟨x, hinnermost, hi⟩
      · rintro ⟨y, hy, hi⟩
        exact ⟨x, rfl, (hinnermost.contains_iff hy).2 hi⟩
    | false => simp

/-! ## Marks -/

theorem getElem?_markScope (scope : Scope) (name : String) (i : Nat) :
    (markScope source scope name tokens)[i]? = tokens[i]?.map fun t =>
      if scope.Contains i ∧ isNameToken t = true ∧ t.text source = name then
        { t with shadowsGlobal := true } else t := by
  simp only [markScope, Array.getElem?_mapIdx, Scope.Contains, and_assoc]

/-- Whether a token is marked: it has been, or its text is that of a declaration that satisfies `P`. -/
structure Marked (source : Source) (P : Nat → String → Prop) (tokens marked : Array Token) : Prop where
  size : marked.size = tokens.size
  token : ∀ (i : Nat) (t : Token), tokens[i]? = some t → ∃ t', marked[i]? = some t' ∧
    unmarked t' = unmarked t ∧ (t'.shadowsGlobal = true ↔
      t.shadowsGlobal = true ∨ (isNameToken t = true ∧ P i (t.text source)))

theorem Marked.refl {P : Nat → String → Prop} (h : ∀ i name, ¬ P i name) (tokens : Array Token) :
    Marked source P tokens tokens :=
  ⟨rfl, fun i t ht => ⟨t, ht, rfl, by simp [h]⟩⟩

theorem Marked.trans {P Q R : Nat → String → Prop} {marked more : Array Token}
    (hP : Marked source P tokens marked) (hQ : Marked source Q marked more)
    (hR : ∀ i name, R i name ↔ P i name ∨ Q i name) : Marked source R tokens more where
  size := hQ.size.trans hP.size
  token i t ht := by
    obtain ⟨t', ht', hsame, hmark⟩ := hP.token i t ht
    obtain ⟨t'', ht'', hsame', hmark'⟩ := hQ.token i t' ht'
    have hname : isNameToken (unmarked t') = isNameToken (unmarked t) := congrArg isNameToken hsame
    have htext : (unmarked t').text source = (unmarked t).text source :=
      congrArg (Token.text · source) hsame
    change isNameToken t' = isNameToken t at hname
    change t'.text source = t.text source at htext
    refine ⟨t'', ht'', hsame'.trans hsame, ?_⟩
    rw [hmark', hmark, hname, htext, hR]
    tauto

theorem marked_markScope (scope : Scope) (name : String) :
    Marked source (fun i text => scope.Contains i ∧ text = name) tokens
      (markScope source scope name tokens) where
  size := by simp [markScope]
  token i t ht := by
    rw [getElem?_markScope, ht]
    refine ⟨_, rfl, ?_, ?_⟩
    · dsimp only
      split <;> rfl
    · dsimp only
      split
      case isTrue h => simp [h]
      case isFalse h => simp only [iff_self_or]; tauto

/-- Visiting a token marks what it hides, if it is a declaration. -/
theorem Enclosing.marked_visit (h : Enclosing scopes tokens) {k : Nat} {w : Walk}
    (haround : w.around = containing scopes k) (hsize : w.tokens.size = tokens.size) :
    Marked source (fun i name => ∃ d, w.tokens[k]? = some d ∧
      Hides source isGlobal scopes k d i name) w.tokens (visit source isGlobal k w).tokens := by
  cases hd : w.tokens[k]? with
  | none =>
    simp only [visit, hd]
    exact .refl (by simp) _
  | some d =>
    have hk : k < tokens.size := hsize ▸ (Array.getElem?_eq_some_iff.1 hd).1
    have hbinds (i : Nat) := h.contains_bindingScope? (d := d) (i := i) hk
    simp only [visit, hd, haround]
    split
    case isTrue hskip =>
      refine .refl ?_ _
      rintro i name ⟨_, hsome, hhides⟩
      cases hsome
      have := hhides.inner
      simp [hhides.kind, hhides.isType] at hskip
      omega
    case isFalse hlook =>
      simp only [Bool.or_eq_true, decide_eq_true_eq, bne_iff_ne, ne_eq, not_or, not_not,
        Bool.not_eq_true] at hlook
      obtain ⟨⟨hinner, htype⟩, hkind⟩ := hlook
      split
      case isTrue hlocal =>
        refine .refl ?_ _
        rintro i name ⟨_, hsome, hhides⟩
        cases hsome
        simp [hhides.text, hhides.isGlobal] at hlocal
      case isFalse hglobal =>
        simp only [Bool.not_eq_true', Bool.not_eq_false] at hglobal
        cases hscope : bindingScope? (containing scopes k) d with
        | none =>
          refine .refl ?_ _
          rintro i name ⟨_, hsome, hhides⟩
          cases hsome
          obtain ⟨x, hx, -⟩ := (hbinds i).2 hhides.binds
          simp [hscope] at hx
        | some x =>
          refine Marked.trans (.refl (P := fun _ _ => False) (by simp) _)
            (marked_markScope x (d.text source)) fun i name => ?_
          rw [false_or]
          constructor
          · rintro ⟨_, hsome, hhides⟩
            cases hsome
            obtain ⟨y, hy, hi⟩ := (hbinds i).2 hhides.binds
            cases hscope.symm.trans hy
            exact ⟨hi, hhides.text.symm⟩
          · rintro ⟨hi, rfl⟩
            exact ⟨d, rfl, hkind, htype, rfl, hglobal, by omega, (hbinds i).1 ⟨x, hscope, hi⟩⟩

/-- Marks do not matter for what a token hides. -/
theorem Hides.of_unmarked {k i : Nat} {d d' : Token} {name : String} (hsame : unmarked d' = unmarked d)
    (h : Hides source isGlobal scopes k d i name) : Hides source isGlobal scopes k d' i name where
  kind := (congrArg (·.kind) hsame).trans h.kind
  isType := (congrArg (·.isType) hsame).trans h.isType
  text := (congrArg (·.text source) hsame).trans h.text
  isGlobal := h.isGlobal
  inner := h.inner
  binds := by
    obtain ⟨x, hx, hi⟩ := h.binds
    have hrole (p : IdentifierRole → Bool) : d'.hasRole p = d.hasRole p := congrArg (·.hasRole p) hsame
    exact ⟨x, by simpa only [BindsIn, hrole] using hx, hi⟩

/-- A token of the walk and one of the file hide the same. -/
theorem hides_iff_of_sameButMarks {marked : Array Token} (hsame : SameButMarks marked tokens)
    {k i : Nat} {name : String} :
    (∃ d, marked[k]? = some d ∧ Hides source isGlobal scopes k d i name) ↔
      ∃ d, tokens[k]? = some d ∧ Hides source isGlobal scopes k d i name := by
  have hget : marked[k]?.map unmarked = tokens[k]?.map unmarked := by
    simpa using congrArg (fun a : Array Token => a[k]?) hsame
  constructor
  · rintro ⟨d, hd, hhides⟩
    rw [hd, Option.map_some] at hget
    obtain ⟨d', hd', heq⟩ := Option.map_eq_some_iff.1 hget.symm
    exact ⟨d', hd', hhides.of_unmarked heq⟩
  · rintro ⟨d, hd, hhides⟩
    rw [hd, Option.map_some] at hget
    obtain ⟨d', hd', heq⟩ := Option.map_eq_some_iff.1 hget
    exact ⟨d', hd', hhides.of_unmarked heq⟩

/-- The walk from an index to the front marks what the tokens before the index hide. -/
theorem Enclosing.marked_walk (h : Enclosing scopes tokens) {n : Nat} {w : Walk}
    (hw : Located scopes n w) (hsame : SameButMarks w.tokens tokens) :
    Marked source (fun i name => ∃ k < n, ∃ d, tokens[k]? = some d ∧
      Hides source isGlobal scopes k d i name) w.tokens (walk source isGlobal n w).tokens := by
  induction n generalizing w with
  | zero => exact .refl (by simp) _
  | succ n ih =>
    have hmoved : Located scopes n (moveTo (n + 1) w) := hw.moveTo h
    have hsize : w.tokens.size = tokens.size := by simpa using congrArg Array.size hsame
    have hvisit : Marked source _ w.tokens
        (visit source isGlobal n (moveTo (n + 1) w)).tokens :=
      h.marked_visit hmoved.around hsize
    have hlocated : Located scopes n (visit source isGlobal n (moveTo (n + 1) w)) := by
      have hstack (w : Walk) : (visit source isGlobal n w).around = w.around ∧
          (visit source isGlobal n w).ahead = w.ahead := by
        unfold visit
        split
        · exact ⟨rfl, rfl⟩
        · dsimp only
          split
          · exact ⟨rfl, rfl⟩
          · split
            · exact ⟨rfl, rfl⟩
            · split <;> exact ⟨rfl, rfl⟩
      exact ⟨(hstack _).1.trans hmoved.around, (hstack _).2.trans hmoved.ahead⟩
    have hrest := ih hlocated ((visit_sameButMarks _).trans hsame)
    refine hvisit.trans hrest fun i name => ?_
    have hthere : (∃ d, _ ∧ Hides source isGlobal scopes n d i name) ↔
        ∃ d, _ ∧ Hides source isGlobal scopes n d i name :=
      hides_iff_of_sameButMarks hsame
    constructor
    · rintro ⟨k, hk, hhides⟩
      rcases Nat.lt_succ_iff_lt_or_eq.1 hk with hlt | rfl
      · exact .inr ⟨k, hlt, hhides⟩
      · exact .inl (hthere.2 hhides)
    · rintro (hhides | ⟨k, hk, hhides⟩)
      · exact ⟨n, Nat.lt_succ_self n, hthere.1 hhides⟩
      · exact ⟨k, Nat.lt_succ_of_lt hk, hhides⟩

/-- The walk over all tokens, whether or not anything is hidden. -/
def sweep (source : Source) (isGlobal : String → Bool) (scopes : Array Scope) (tokens : Array Token) :
    Array Token :=
  (walk source isGlobal (scopes.foldl (fun n x => max n x.stop) tokens.size)
    ⟨[], scopes.toList.reverse, tokens⟩).tokens

/-- The walk starts behind all tokens and all scopes. -/
theorem le_upper (scopes : Array Scope) (n : Nat) :
    n ≤ scopes.foldl (fun n x => max n x.stop) n ∧
      ∀ x ∈ scopes, x.stop ≤ scopes.foldl (fun n x => max n x.stop) n := by
  rw [← Array.foldl_toList]
  simp only [← Array.mem_toList_iff]
  generalize scopes.toList = l
  induction l generalizing n with
  | nil => simp
  | cons y l ih =>
    obtain ⟨hle, hall⟩ := ih (max n y.stop)
    refine ⟨by simp only [List.foldl_cons]; omega, fun x hx => ?_⟩
    rcases List.mem_cons.1 hx with rfl | hx
    · simp only [List.foldl_cons]
      omega
    · exact hall x hx

theorem Enclosing.marked_sweep (h : Enclosing scopes tokens) :
    Marked source (fun i name => ∃ k d, tokens[k]? = some d ∧
      Hides source isGlobal scopes k d i name) tokens (sweep source isGlobal scopes tokens) := by
  obtain ⟨hsize, hstops⟩ := le_upper scopes tokens.size
  have hstart : Located scopes (scopes.foldl (fun n x => max n x.stop) tokens.size)
      ⟨[], scopes.toList.reverse, tokens⟩ := by
    constructor
    · refine (List.filter_eq_nil_iff.2 fun x hx => ?_).symm
      have := hstops x (Array.mem_toList_iff.1 hx)
      rw [decide_eq_true_eq]
      unfold Scope.Contains
      omega
    · rw [List.filter_eq_self.2 fun x hx => ?_]
      simpa using hstops x (Array.mem_toList_iff.1 hx)
  refine (Marked.refl (P := fun _ _ => False) (by simp) tokens).trans
    (h.marked_walk hstart rfl) fun i name => ?_
  rw [false_or]
  constructor
  · rintro ⟨k, d, hd, hhides⟩
    have hk := (Array.getElem?_eq_some_iff.1 hd).1
    exact ⟨k, by omega, d, hd, hhides⟩
  · rintro ⟨k, -, d, hd, hhides⟩
    exact ⟨k, d, hd, hhides⟩

/-! ## Leaving the walk out -/

/-- A token in two scopes lies in one that is not the last. -/
theorem exists_mem_pop_of_two_le {i : Nat} (h : 2 ≤ (containing scopes i).length) :
    ∃ x ∈ scopes.pop, x.Contains i := by
  by_contra hnone
  have hpop : ∀ x ∈ scopes.toList.dropLast, ¬ decide (x.Contains i) = true := by
    intro x hx
    simp only [decide_eq_true_eq]
    rw [← Array.toList_pop] at hx
    exact fun hcontains => hnone ⟨x, Array.mem_toList_iff.1 hx, hcontains⟩
  rw [containing] at h
  rcases List.eq_nil_or_concat scopes.toList with hnil | ⟨front, last, hsplit⟩
  · simp [hnil] at h
  · rw [List.concat_eq_append] at hsplit
    rw [hsplit, List.dropLast_concat] at hpop
    rw [hsplit, List.filter_append, List.filter_eq_nil_iff.2 hpop, List.nil_append] at h
    have := List.length_filter_le (fun x : Scope => decide (x.Contains i)) [last]
    simp only [List.length_singleton] at this
    omega

/-- Only an inner declaration hides anything. -/
theorem Enclosing.isInnerDeclaration (h : Enclosing scopes tokens) {k i : Nat} {d : Token} {name : String}
    (hd : tokens[k]? = some d) (hhides : Hides source isGlobal scopes k d i name) :
    d.hasRole IdentifierRole.isInnerDeclaration = true := by
  obtain ⟨x, hx, hcontains⟩ := exists_mem_pop_of_two_le hhides.inner
  have htop : d.hasRole IdentifierRole.isTopLevelDeclaration = true →
      d.role? = some .importDeclaration := by
    intro htop
    by_contra himport
    exact h.topLevel k d hd htop himport x hx hcontains
  obtain ⟨y, hy, -⟩ := hhides.binds
  unfold BindsIn at hy
  unfold Token.hasRole at htop hy ⊢
  cases hrole : d.role? with
  | none => simp [hrole] at hy
  | some role =>
    rw [hrole] at htop hy
    cases role <;> simp_all [IdentifierRole.isTopLevelDeclaration,
      IdentifierRole.isBlockScopedDeclaration, IdentifierRole.isFunctionScopedDeclaration,
      IdentifierRole.isInnerDeclaration]

theorem Enclosing.sweep_of_not_hasShadowing (h : Enclosing scopes tokens)
    (hnone : hasShadowing source isGlobal tokens = false) :
    sweep source isGlobal scopes tokens = tokens := by
  have hmarked : Marked source _ tokens (sweep source isGlobal scopes tokens) := h.marked_sweep
  apply Array.ext_getElem?
  intro i
  cases ht : tokens[i]? with
  | none =>
    have hi := Array.getElem?_eq_none_iff.1 ht
    rw [Array.getElem?_eq_none_iff, hmarked.size]
    exact hi
  | some t =>
    obtain ⟨t', ht', hsame, hmark⟩ := hmarked.token i t ht
    have hkept : t'.shadowsGlobal = t.shadowsGlobal := by
      rw [Bool.eq_iff_iff, hmark, or_iff_left]
      rintro ⟨-, k, d, hd, hhides⟩
      have hany : hasShadowing source isGlobal tokens = true := by
        unfold hasShadowing
        refine Array.any_eq_true'.2 ⟨d, Array.mem_of_getElem? hd, ?_⟩
        simp [hhides.kind, hhides.isType, hhides.text, hhides.isGlobal, h.isInnerDeclaration hd hhides]
      rw [hnone] at hany
      cases hany
    rw [ht']
    congr 1
    calc t' = { unmarked t' with shadowsGlobal := t'.shadowsGlobal } := rfl
      _ = { unmarked t with shadowsGlobal := t.shadowsGlobal } := by rw [hsame, hkept]
      _ = t := rfl

theorem Enclosing.markShadowed_eq_sweep (h : Enclosing scopes tokens) :
    markShadowed source isGlobal scopes tokens = sweep source isGlobal scopes tokens := by
  unfold markShadowed
  split
  · rfl
  next hnone => exact (h.sweep_of_not_hasShadowing (Bool.eq_false_iff.2 hnone)).symm

/-- Whether what a file declares at its top level, imports apart, lies in no scope but the last. -/
def isTopLevelOutside (f : AnnotatedFile) : Bool :=
  (List.range f.tokens.size).all fun i => (f.tokens[i]?).all fun t =>
    !t.hasRole IdentifierRole.isTopLevelDeclaration || t.role? == some .importDeclaration ||
      f.scopes.pop.toList.all fun x => decide (¬ x.Contains i)

/-- The scopes of a file close one inside the other. -/
theorem enclosing_of_ofSource {d : Dialect} {f : AnnotatedFile}
    (h : AnnotatedFile.ofSource source d = .ok f) (htop : isTopLevelOutside f = true) :
    Enclosing f.scopes f.tokens := by
  have hnested := AnnotatedFile.nested_of_ofSource h
  refine ⟨fun x hx => (hnested.bounds x hx).1, hnested.ordered, hnested.nested,
    ⟨_, hnested.last, rfl, rfl, Nat.le_refl _⟩, fun i t ht hrole himport x hx => ?_⟩
  unfold isTopLevelOutside at htop
  have hi := List.all_eq_true.1 htop i (List.mem_range.2 (Array.getElem?_eq_some_iff.1 ht).1)
  simp only [ht, Option.all_some, hrole, Bool.not_true, Bool.false_or, Bool.or_eq_true,
    beq_iff_eq, himport, false_or] at hi
  simpa using List.all_eq_true.1 hi x (Array.mem_toList_iff.2 hx)

end Shadowing

end PlainScript
