import PlainScript.Emit.ClassOutline
import PlainScript.Emit.ImportPlan
import Mathlib.Logic.Relation

/-!
# Readers of a tape

Import and export clauses and classes are read ahead, each in a bounded number of steps. A step gets
to a later token, so the size of the tape is enough for all of them.
-/

namespace PlainScript

/-- A reader that has not run out of steps; what it gives has a property. -/
def Reads {α : Type} (x : Except Failure α) (P : α → Prop) : Prop :=
  x ≠ .error .budget ∧ ∀ a, x = .ok a → P a

namespace Reads

variable {α β : Type} {P : α → Prop} {Q : β → Prop}

theorem ok {a : α} (h : P a) : Reads (.ok a) P := by
  refine ⟨nofun, fun b hb => ?_⟩
  cases hb
  exact h

theorem error (e : StructureError) : Reads (.error (.structureError e)) P := ⟨nofun, nofun⟩

theorem bind {x : Except Failure α} {f : α → Except Failure β} (hx : Reads x P)
    (hf : ∀ a, P a → Reads (f a) Q) : Reads (x >>= f) Q := by
  cases x with
  | error e =>
    refine ⟨fun h => ?_, fun b h => by cases h⟩
    cases h
    exact hx.1 rfl
  | ok a => exact hf a (hx.2 a rfl)

theorem ite {c : Prop} [Decidable c] {x y : Except Failure α} (hx : c → Reads x P)
    (hy : ¬c → Reads y P) : Reads (if c then x else y) P := by
  split
  next h => exact hx h
  next h => exact hy h

theorem mono {x : Except Failure α} {P' : α → Prop} (hx : Reads x P) (h : ∀ a, P a → P' a) :
    Reads x P' :=
  ⟨hx.1, fun a ha => h a (hx.2 a ha)⟩

theorem self {x : Except Failure α} (hx : Reads x P) : Reads x fun a => x = .ok a ∧ P a :=
  ⟨hx.1, fun a ha => ⟨ha, hx.2 a ha⟩⟩

end Reads

/-! ## Class outlines -/

namespace ClassOutline

variable {t : Tape} {i : Nat}

theorem reads_next : Reads (next t i) fun j => i < t.size ∧ j = i + 1 := by
  unfold next
  split
  next h => exact .ok ⟨h, rfl⟩
  next => exact .error _

/-- What is found is the first index that satisfies the predicate. -/
theorem reads_seek {p : Nat → Bool} :
    Reads (seek t p i) fun j => i ≤ j ∧ p j = true ∧ ∀ k, i ≤ k → k < j → p k = false := by
  unfold seek
  have hfound {j : Nat} (hj : p j = true) :
      j ≤ j ∧ p j = true ∧ ∀ k, j ≤ k → k < j → p k = false :=
    ⟨Nat.le_refl j, hj, fun k hk hlt => absurd hlt (Nat.not_lt.2 hk)⟩
  induction t.size - i generalizing i with
  | zero =>
    unfold seekFor
    split
    next hi => exact .ok (hfound hi)
    next => exact .error _
  | succ n ih =>
    unfold seekFor
    split
    next hi => exact .ok (hfound hi)
    next hi =>
      refine ih.mono fun j hj => ⟨Nat.le_of_succ_le hj.1, hj.2.1, fun k hk hlt => ?_⟩
      obtain rfl | hne := Nat.eq_or_lt_of_le hk
      · exact Bool.eq_false_iff.2 hi
      · exact hj.2.2 k hne hlt

/-- The way back ends at a token that is no modifier. -/
theorem lt_backOverModifiers {j : Nat} (hi : isModifier (t.get i) = false) (h : i < j) :
    i < backOverModifiers t j := by
  induction j with
  | zero => exact absurd h (Nat.not_lt_zero i)
  | succ j ih =>
    unfold backOverModifiers
    split
    next hmodifier =>
      have hne : i ≠ j := fun heq => by simp [← heq, hi] at hmodifier
      exact ih (by omega)
    next => exact h

theorem reads_nextMember {classId? : Option Nat}
    (hi : i < t.size → isModifier (t.get i) = false) : Reads (nextMember t classId? i) (i < ·) := by
  unfold nextMember
  refine reads_next.bind fun j hj => reads_seek.bind fun k hk => .ok ?_
  exact lt_backOverModifiers (hi hj.1) (by omega)

theorem reads_afterName : Reads (afterName t i) (i < ·) := by
  unfold afterName
  split
  · dsimp only
    split
    · exact .error _
    · refine reads_seek.bind fun j hj => reads_next.mono fun k hk => ?_
      omega
  · refine reads_next.mono fun k hk => ?_
    omega

theorem reads_parametersFor {contextId? : Option Nat} {n : Nat} (hn : t.size - i < n) :
    Reads (parametersFor t contextId? n i) fun r =>
      i ≤ r.2 ∧ t.hasContext r.2 .parenClose contextId? = true := by
  induction n generalizing i with
  | zero => exact absurd hn (Nat.not_lt_zero _)
  | succ n ih =>
    unfold parametersFor
    split
    next hclose => exact .ok ⟨Nat.le_refl i, hclose⟩
    next =>
      refine reads_next.bind fun j hj => ?_
      split
      · have hskip := t.le_skip isModifier j
        dsimp only
        split
        · exact (ih (by omega)).bind fun rest hrest => .ok ⟨by omega, hrest.2⟩
        · exact .error _
      · exact (ih (by omega)).mono fun rest hrest => ⟨by omega, hrest.2⟩

/-- Where `super` is called first between two indices, as the closing parenthesis of the call. -/
inductive FirstSuper (t : Tape) (start stop : Nat) : Option Nat → Prop
  | none (h : ∀ k, start ≤ k → k < stop → t.has k [.superWord, .parenOpen] = false) :
      FirstSuper t start stop none
  | call {k close : Nat} (hle : start ≤ k) (hcall : t.has k [.superWord, .parenOpen] = true)
      (hfirst : ∀ l, start ≤ l → l < k → t.has l [.superWord, .parenOpen] = false)
      (hlt : k < close) (hclose : t.hasContext close .parenClose (t.get (k + 1)).contextId? = true)
      (hnearest : ∀ l, k < l → l < close →
        t.hasContext l .parenClose (t.get (k + 1)).contextId? = false)
      (hstop : close < stop) : FirstSuper t start stop (some close)

theorem FirstSuper.cons {stop : Nat} {super? : Option Nat} (h : FirstSuper t (i + 1) stop super?)
    (hi : t.has i [.superWord, .parenOpen] = false) : FirstSuper t i stop super? := by
  have hhere {n : Nat} (hrest : ∀ k, i + 1 ≤ k → k < n → t.has k [.superWord, .parenOpen] = false)
      (k : Nat) (hk : i ≤ k) (hlt : k < n) : t.has k [.superWord, .parenOpen] = false := by
    obtain rfl | hne := Nat.eq_or_lt_of_le hk
    · exact hi
    · exact hrest k hne hlt
  cases h with
  | none hnone => exact .none (hhere hnone)
  | call hle hcall hfirst hlt hclose hnearest hstop =>
    exact .call (Nat.le_of_succ_le hle) hcall (hhere hfirst) hlt hclose hnearest hstop

theorem reads_bodyFor {contextId? super? : Option Nat} {n : Nat} (hn : t.size - i < n) :
    Reads (bodyFor t contextId? n i super?) fun r =>
      i ≤ r.2 ∧ t.hasContext r.2 .braceClose contextId? = true ∧
        (super? = none → FirstSuper t i r.2 r.1) ∧ (super?.isSome = true → r.1 = super?) := by
  induction n generalizing i super? with
  | zero => exact absurd hn (Nat.not_lt_zero _)
  | succ n ih =>
    unfold bodyFor
    split
    next hclose =>
      refine .ok ⟨Nat.le_refl i, hclose, ?_, fun _ => rfl⟩
      rintro rfl
      exact .none fun k hk hlt => absurd hlt (Nat.not_lt.2 hk)
    next =>
      split
      next hcall =>
        obtain ⟨hnone, hcall⟩ := Bool.and_eq_true_iff.1 hcall
        dsimp only
        split
        · exact .error _
        · refine reads_seek.bind fun j hj => reads_next.bind fun k hk => ?_
          refine (ih (by omega)).mono fun rest hrest => ⟨by omega, hrest.2.1, fun _ => ?_, fun hsome => ?_⟩
          · rw [hrest.2.2.2 rfl]
            exact .call (Nat.le_refl i) hcall (fun l hl hlt => absurd hlt (Nat.not_lt.2 hl)) hj.1 hj.2.1
              hj.2.2 (by omega)
          · rw [Option.isNone_iff_eq_none.1 hnone] at hsome
            cases hsome
      next hcall =>
        refine reads_next.bind fun j hj => ?_
        obtain ⟨hlt, rfl⟩ := hj
        refine (ih (by omega)).mono fun rest hrest =>
          ⟨by omega, hrest.2.1, fun hnone => (hrest.2.2.1 hnone).cons ?_, hrest.2.2.2⟩
        simpa [hnone] using hcall

/-- The word at an index is that of a constructor: its parameters and its body have the same number,
and initial values are set behind the first call of `super` or at the start of the body. -/
structure IsConstructorAt (t : Tape) (w : Nat) (insertAt stop : Nat) : Prop where
  word : isConstructor t w = true
  body : ∃ (id close start : Nat) (super? : Option Nat),
    (t.get (w + 1)).contextId? = some id ∧ w < close ∧ t.hasContext close .parenClose (some id) = true ∧
    start = t.skip (·.isType) (close + 1) ∧ start < stop ∧
    t.hasContext (stop - 1) .braceClose (some id) = true ∧
    FirstSuper t start (stop - 1) super? ∧ insertAt = super?.getD start

theorem IsConstructorAt.lt {w insertAt stop : Nat} (h : IsConstructorAt t w insertAt stop) :
    w < insertAt ∧ insertAt < stop := by
  obtain ⟨id, close, start, super?, -, hclose, -, rfl, hstart, -, hsuper, rfl⟩ := h.body
  have hskip := t.le_skip (·.isType) (close + 1)
  cases hsuper with
  | none => exact ⟨by simp only [Option.getD_none]; omega, hstart⟩
  | call hle _ _ hlt _ _ hstop => exact ⟨by simp only [Option.getD_some]; omega, by
      simp only [Option.getD_some]; omega⟩

theorem reads_readConstructor (hword : isConstructor t i = true) :
    Reads (readConstructor t i) fun r => IsConstructorAt t i r.2.1 r.2.2 := by
  unfold readConstructor
  refine reads_next.bind fun j hj => ?_
  obtain ⟨-, rfl⟩ := hj
  dsimp only
  split
  · exact .error _
  next hid =>
    obtain ⟨id, hid⟩ := Option.ne_none_iff_exists'.1 fun hnone => hid (Option.isNone_iff_eq_none.2 hnone)
    rw [hid]
    refine (reads_parametersFor (by omega)).bind fun properties hproperties => ?_
    refine reads_next.bind fun k hk => ?_
    obtain ⟨-, rfl⟩ := hk
    have hskip := t.le_skip (·.isType) (properties.2 + 1)
    refine (reads_bodyFor (by omega)).bind fun place hplace => ?_
    refine reads_next.bind fun l hl => .ok ⟨hword, ?_⟩
    obtain ⟨-, rfl⟩ := hl
    refine ⟨id, properties.2, _, place.1, hid, by omega, hproperties.2, rfl, ?_, ?_, ?_, rfl⟩
    · exact Nat.lt_succ_of_le hplace.1
    · exact hplace.2.1
    · exact hplace.2.2.1 rfl

/-- How far a class has been read: the index of the next member, what is known so far, and the names
that are taken. -/
structure Progress where
  index : Nat
  members : ClassMembers
  names : Names

/-- All tokens from an index up to another one are modifiers. -/
def Modifies (t : Tape) (i j : Nat) : Prop :=
  i ≤ j ∧ ∀ k, i ≤ k → k < j → isModifier (t.get k) = true

/-- The tokens that are left out: a semicolon, or what is taken for a member without a value. -/
inductive Removable (t : Tape) (r : TokenRange) : Prop
  | semicolon (hkind : t.kind r.start = .semicolon) (hstop : r.stop = r.start + 1)
  /-- Modifiers, a name and a type, with no parameters and no value behind them. -/
  | member (nameAt after : Nat) (hmodifiers : Modifies t r.start nameAt)
      (hprivate : ∀ k, r.start ≤ k → k < nameAt → t.kind k ≠ .hash)
      (hblock : ∀ k, r.start ≤ k → k < nameAt → t.kind k = .staticModifier →
        t.kind nameAt ≠ .braceOpen)
      (hconstructor : isConstructor t nameAt = false)
      (hname : afterName t nameAt = .ok after)
      (hparameters : t.kind after ≠ .less ∧ t.kind after ≠ .parenOpen)
      (hle : after ≤ r.stop) (htypes : ∀ k, after ≤ k → k < r.stop → (t.get k).isType = true)
      (hvalue : t.kind r.stop ≠ .equals)

/-- What is taken for a field: a name with modifiers before it, and an equals sign behind the type. -/
structure IsField (t : Tape) (i nameAt equalsAt : Nat) : Prop where
  modifiers : Modifies t i nameAt
  lt : nameAt < equalsAt
  kind : t.kind equalsAt = .equals

/-- One member is read. -/
inductive ReadsMember (t : Tape) : Progress → Progress → Prop
  | construct {x : Progress} {w insertAt stop : Nat} {properties : List String}
      (hmodifiers : Modifies t x.index w) (h : IsConstructorAt t w insertAt stop) :
      ReadsMember t x ⟨stop, withConstructor x.members properties insertAt, x.names⟩
  /-- A member that stays as it is. -/
  | keep {x : Progress} {j : Nat} (hlt : x.index < j) : ReadsMember t x { x with index := j }
  | remove {x : Progress} {j : Nat} (hlt : x.index < j) (h : Removable t ⟨x.index, j⟩) :
      ReadsMember t x ⟨j, withRemoved x.members x.index j, x.names⟩
  | field {x : Progress} {nameAt j stop : Nat} (isStatic : Bool) (base : String)
      (h : IsField t x.index nameAt j) (hstop : (t.get j).rhsEnd? = some stop) :
      ReadsMember t x ⟨max j stop, withField x.members isStatic
        ⟨x.names.free base, j, ⟨nameAt, max j stop⟩⟩, (x.names.claim base).2⟩

/-- Members are read one after the other. -/
abbrev ReadsMembers (t : Tape) : Progress → Progress → Prop := Relation.ReflTransGen (ReadsMember t)

theorem ReadsMember.lt {x y : Progress} (h : ReadsMember t x y) : x.index < y.index := by
  cases h with
  | construct hmodifiers h => exact Nat.lt_of_le_of_lt hmodifiers.1 (Nat.lt_trans h.lt.1 h.lt.2)
  | keep hlt => exact hlt
  | remove hlt _ => exact hlt
  | field _ _ h _ =>
    have hle := h.modifiers.1
    have hlt := h.lt
    dsimp only
    omega

theorem kind_ne_of_modifiers {i j : Nat} {kind : TokenKind}
    (h : ((List.range' i (j - i)).map t.kind).contains kind = false) {k : Nat} (hk : i ≤ k)
    (hlt : k < j) : t.kind k ≠ kind := by
  rintro rfl
  have hmem : t.kind k ∈ (List.range' i (j - i)).map t.kind :=
    List.mem_map_of_mem (List.mem_range'_1.2 ⟨hk, by omega⟩)
  rw [List.contains_iff_mem.2 hmem] at h
  cases h

theorem reads_membersFor {classId? : Option Nat} {keepsFields : Bool} {n : Nat} {m : ClassMembers}
    {names : Names} (hn : t.size - i < n) :
    Reads (membersFor t classId? keepsFields n i m names) fun r =>
      ∃ close, ReadsMembers t ⟨i, m, names⟩ ⟨close, r.1, r.2⟩ ∧
        t.hasContext close .braceClose classId? = true := by
  induction n generalizing i m names with
  | zero => exact absurd hn (Nat.not_lt_zero _)
  | succ n ih =>
    -- Each branch goes on at a later index, inside the tape.
    have hnext {y : Progress} (hlt : ¬ t.size ≤ i) (hstep : ReadsMember t ⟨i, m, names⟩ y) :
        Reads (membersFor t classId? keepsFields n y.index y.members y.names) fun r =>
          ∃ close, ReadsMembers t ⟨i, m, names⟩ ⟨close, r.1, r.2⟩ ∧
            t.hasContext close .braceClose classId? = true := by
      have hlt' : i < y.index := hstep.lt
      exact (ih (by omega)).mono fun r ⟨close, hrun, hclose⟩ => ⟨close, hrun.head hstep, hclose⟩
    have hkeep {j : Nat} (hlt : ¬ t.size ≤ i) (hj : i < j) := hnext hlt (.keep (x := ⟨i, m, names⟩) hj)
    have hmodifiers : Modifies t i (t.skip isModifier i) :=
      ⟨t.le_skip isModifier i, fun k hk hlt => Tape.of_lt_skip hk hlt⟩
    have hskip := hmodifiers.1
    have hself : Modifies t i i := ⟨Nat.le_refl i, fun k hk hlt => absurd hlt (Nat.not_lt.2 hk)⟩
    unfold membersFor
    refine .ite (fun hclose => .ok ⟨i, .refl, hclose⟩) fun _ => ?_
    refine .ite (fun _ => .error _) fun hlt => ?_
    refine .ite (fun hword => (reads_readConstructor hword).bind fun r hr =>
      hnext hlt (.construct hself hr)) fun _ => ?_
    refine .ite (fun hkind => ?_) fun _ => ?_
    · cases keepsFields
      · exact hnext hlt (.remove (Nat.lt_succ_self i) (.semicolon (beq_iff_eq.1 hkind) rfl))
      · exact hkeep hlt (Nat.lt_succ_self i)
    refine .ite (fun _ => hkeep hlt (Nat.lt_succ_self i)) fun _ => ?_
    refine .ite (fun _ => (reads_nextMember t.skip_stop).bind fun _ h =>
      hkeep hlt (Nat.lt_of_le_of_lt hskip h)) fun hprivate => ?_
    refine .ite (fun hword => (reads_readConstructor hword).bind fun r hr =>
      hnext hlt (.construct hmodifiers hr)) fun hconstructor => ?_
    refine reads_afterName.self.bind fun j hj => ?_
    refine .ite (fun h => ?_) fun hparameters => ?_
    · have hmodifier : isModifier (t.get j) = false := by
        have hkind : (t.get j).kind = .less ∨ (t.get j).kind = .parenOpen := by
          simpa [Tape.kind] using h
        obtain h | h := hkind <;> simp [isModifier, h]
      exact (reads_nextMember fun _ => hmodifier).bind fun k hk => hkeep hlt (by omega)
    · have htype := t.le_skip (·.isType) j
      refine .ite (fun hequals => ?_) fun hequals => ?_
      · split
        next stop hstop =>
          refine .ite (fun _ => .error _) fun _ => ?_
          exact hnext hlt (.field _ _ ⟨hmodifiers, by omega, beq_iff_eq.1 hequals⟩ hstop)
        next => exact .error _
      · have hlt' : i < t.skip (·.isType) j := by omega
        dsimp only
        split
        · exact hkeep hlt hlt'
        · obtain ⟨hblock, hprivate⟩ := Bool.or_eq_false_iff.1 (Bool.eq_false_iff.2 hprivate)
          refine hnext hlt (.remove hlt' (.member _ j hmodifiers
            (fun k hk hlt => kind_ne_of_modifiers hprivate hk hlt) (fun k hk hlt hstatic hopen => ?_)
            (Bool.eq_false_iff.2 hconstructor) hj.1 ?_ htype (fun k hk hlt => Tape.of_lt_skip hk hlt)
            fun hkind => hequals (beq_iff_eq.2 hkind)))
          · obtain hmodifier | hkind := Bool.and_eq_false_iff.1 hblock
            · exact kind_ne_of_modifiers hmodifier hk hlt hstatic
            · exact beq_eq_false_iff_ne.1 hkind hopen
          · simpa [not_or] using hparameters

/-- The braces around the body of the class at an index: they have the number of the class. -/
structure IsBody (t : Tape) (i opened closed : Nat) : Prop where
  lt : i < opened
  braces : ∃ id, (t.get i).contextId? = some id ∧ t.hasContext opened .braceOpen (some id) = true ∧
    t.hasContext closed .braceClose (some id) = true

/-- A class is read member by member, from the brace that opens its body to the one that closes it. -/
theorem reads_read {keepsFields : Bool} {names : Names} :
    Reads (read t keepsFields names i) fun r => ∃ (opened closed : Nat) (m : ClassMembers),
      IsBody t i opened closed ∧ ReadsMembers t ⟨opened + 1, {}, names⟩ ⟨closed, m, r.2⟩ ∧
      r.1.toClassMembers = if keepsFields then
        { m with instanceInitializers := [], staticInitializers := [], fields := [] } else m := by
  unfold read
  split
  next id hid =>
    refine reads_next.bind fun j hj => reads_seek.bind fun k hk => ?_
    have hbrace : (t.get k).contextId? = some id := beq_iff_eq.1 (Bool.and_eq_true_iff.1 hk.2.1).2
    refine .ite (fun _ => .error _) fun _ => ?_
    refine reads_next.bind fun l hl => (reads_membersFor (by omega)).bind fun m hm => ?_
    obtain ⟨close, hrun, hclose⟩ := hm
    obtain ⟨-, rfl⟩ := hl
    rw [hbrace] at hclose
    refine .ok ⟨k, close, m.1, ⟨by omega, id, hid, hk.2.1, hclose⟩, hrun, ?_⟩
    cases keepsFields <;> rfl
  · exact .error _

end ClassOutline

/-! ## Import and export clauses -/

theorem Specifier.lt_stop {t : Tape} {i : Nat} {x : Specifier} (h : Specifier.read t i = .ok x) :
    i < x.stop := by
  unfold Specifier.read at h
  repeat' split at h
  all_goals cases h
  all_goals simp

namespace ModuleUses

variable {t : Tape} {i : Nat}

theorem reads_specifiersFor {n : Nat} (hn : t.size - i < n) :
    Reads (specifiersFor t n i) fun _ => True := by
  induction n generalizing i with
  | zero => exact absurd hn (Nat.not_lt_zero _)
  | succ n ih =>
    unfold specifiersFor
    refine .ite (fun _ => .ok trivial) fun _ => ?_
    split
    · exact .error _
    next x hx =>
      have hstop := Specifier.lt_stop hx
      refine .ite (fun _ => .ok trivial) fun _ => .ite (fun _ => .ok trivial) fun _ => ?_
      refine .ite (fun hcomma => ?_) fun _ => .error _
      have hlt : x.stop < t.size := Tape.lt_size_of_kind (by simp [beq_iff_eq.1 hcomma])
      exact (ih (by omega)).bind fun _ _ => .ok trivial

theorem reads_readImport {u : ModuleUses} : Reads (readImport t i u) fun _ => True := by
  unfold readImport
  refine .ite (fun _ => .ok trivial) fun _ => .ite (fun _ => ?_) fun _ => ?_
  · refine (reads_specifiersFor (by omega)).bind fun clause _ => ?_
    exact .ite (fun _ => .ok trivial) fun _ => .error _
  · exact .ite (fun _ => .ok trivial) fun _ => .error _

theorem reads_readNamedExport {u : ModuleUses} : Reads (readNamedExport t i u) fun _ => True := by
  unfold readNamedExport
  refine (reads_specifiersFor (by omega)).bind fun clause _ => ?_
  refine .ite (fun _ => ?_) fun _ => .ok trivial
  exact .ite (fun _ => .ok trivial) fun _ => .error _

theorem reads_readStarExport {u : ModuleUses} : Reads (readStarExport t i u) fun _ => True := by
  unfold readStarExport
  exact .ite (fun _ => .ok trivial) fun _ => .error _

theorem reads_readExport {u : ModuleUses} : Reads (readExport t i u) fun _ => True := by
  unfold readExport
  split
  any_goals exact .ok trivial
  · exact .ite (fun _ => .ok trivial) fun _ => .ok trivial
  · exact reads_readNamedExport
  · exact reads_readStarExport

theorem reads_readAt {u : ModuleUses} : Reads (readAt t u i) fun _ => True := by
  unfold readAt
  split
  · exact .ite (fun _ => .ok trivial) fun _ => reads_readImport
  · exact .ite (fun _ => .ok trivial) fun _ => reads_readExport
  · exact .ok trivial

theorem reads_ofTape : Reads (ofTape t) fun _ => True := by
  unfold ofTape
  generalize List.range t.size = indices
  generalize ({} : ModuleUses) = u
  induction indices generalizing u with
  | nil => exact .ok trivial
  | cons i rest ih =>
    rw [List.foldlM_cons]
    exact reads_readAt.bind fun u _ => ih u

end ModuleUses

namespace Tape

variable {t : Tape} {i : Nat}

theorem reads_specifierNamesFor {n : Nat} (hn : t.size - i < n) :
    Reads (t.specifierNamesFor n i) fun _ => True := by
  induction n generalizing i with
  | zero => exact absurd hn (Nat.not_lt_zero _)
  | succ n ih =>
    unfold specifierNamesFor
    refine .ite (fun h => ?_) fun _ => .ok trivial
    split
    · exact .error _
    next x hx =>
      have hstop := Specifier.lt_stop hx
      refine (ih ?_).bind fun _ _ => .ok trivial
      split <;> omega

theorem reads_importClauseNames : Reads (t.importClauseNames i) fun _ => True := by
  unfold importClauseNames
  refine .ite (fun _ => .ok trivial) fun _ => .ite (fun _ => ?_) fun _ => .ok trivial
  exact (reads_specifierNamesFor (by omega)).bind fun _ _ => .ok trivial

theorem reads_importedNames : Reads t.importedNames fun _ => True := by
  unfold importedNames
  dsimp only
  refine Reads.bind (P := fun _ => True) ?_ fun _ _ => .ok trivial
  generalize List.filter _ _ = starts
  induction starts with
  | nil => exact .ok trivial
  | cons i rest ih =>
    rw [List.mapM_cons]
    exact reads_importClauseNames.bind fun _ _ => ih.bind fun _ _ => .ok trivial

end Tape

end PlainScript
