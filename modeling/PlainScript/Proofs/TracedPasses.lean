import PlainScript.Proofs.Traces

/-!
# Traces of the passes

Every pass of the writer but those for modules leaves a trace. What has to be shown, rule by rule, is
where the tokens stand that are not copied, and that what is written between tokens has no line feed.
-/

namespace PlainScript.Emit

-- Counted in combinators.
set_option synthInstance.maxSize 100000

variable {s : Setting} {h i : Nat}

theorem oneLine_literal {code : String} (hcode : lineFeeds code = 0) : OneLine s code :=
  ⟨fun _ => hcode⟩

/-- The fixed code that the passes write between tokens. -/
abbrev fixedCode : List String :=
  [".bind(this)", "_", "async ", " => ", "delete ", ", 'optionalCall', ", ", 'optionalAccess', ",
   ", 'access', ", ", 'call', ", ".", "[", ", async () => (", ", () => (", "e", " (", ")", ") =>",
   "async (", "args", "constructor(...", ") \x7b super(...", "); ", "; \x7d",
   "constructor() \x7b ", "() \x7bthis", "]", "\x7d", ";", "_class", " =", ", ", " ", " = ",
   " + 1", "0", "export ", "var ", "; (function (", "exports.", ")(", " || (", " = \x7b\x7d));",
   "__jestHoist", "function ", "()\x7b", ";\x7d", "displayName: '", "',", "(0, ", "'",
   "_jsxFileName", "__self: this, __source: \x7bfileName: ", ", lineNumber: ", ":", ": ",
   ": true", ",", ", \x7b", ", null", "\"", "const ", "; ", "] = ", "const",
   "Promise.resolve().then(() => ", "require", ")))", "(", ".call(void 0, ", " - 1", " exports.",
   "default", "_default", "let ", "; exports.", "module.exports", "; export"]

/-- A list has a text. -/
class Lists (codes : List String) (code : String) : Prop where
  mem : code ∈ codes

instance (code : String) (codes : List String) : Lists (code :: codes) code := ⟨.head _⟩

instance (priority := low) (code other : String) (codes : List String) [h : Lists codes code] :
    Lists (other :: codes) code := ⟨.tail _ h.mem⟩

instance (priority := low) (code : String) [hcode : Lists fixedCode code] : OneLine s code :=
  have hall : ∀ c ∈ fixedCode, lineFeeds c = 0 := by decide
  ⟨fun _ => hall code hcode.mem⟩

instance [hi : Flat s i] : OneLine s (View.text ⟨s.tape, i⟩) := ⟨hi.lineFeeds⟩

instance (k : Nat) [hk : Flat s (i + k)] : OneLine s (View.textAhead ⟨s.tape, i⟩ k) :=
  ⟨hk.lineFeeds⟩

theorem known_of_oneOf {kinds : List TokenKind}
    (hkinds : kinds.all (!(statementWords ++ longKinds).contains ·) = true)
    (hi : s.tape.hasOneOf i kinds = true) : Known s i := by
  have hplain := List.all_eq_true.1 hkinds _ (List.contains_iff_mem.1 hi)
  exact known_of_kind rfl (by simpa using hplain)

theorem known_of_isType (hi : (s.tape.get i).isType = true) : Known s i :=
  known_of_leftOut (.type hi)

theorem known_of_hasAsync (hi : s.tape.hasAsync i = true) : Known s i := by
  obtain hword | hword := Bool.or_eq_true_iff.1 hi
  · exact known_of_kind (beq_iff_eq.1 hword) (by decide)
  · exact known_of_kind (beq_iff_eq.1 (Bool.and_eq_true_iff.1 hword).1) (by decide)

/-! ## Recent syntax -/

namespace Chain

instance (result : Except StructureError Bool) : Traces s h i (answer result) := by
  unfold answer
  split <;> infer_instance

instance [Later s i] : Traces s h i bindThis := by
  unfold bindThis
  infer_instance

theorem traces_subscript (start : Nat) [Later s i] : Traces s h i (subscript start) := by
  unfold subscript
  refine .look (Traces.afterName fun parameter _ => ?_)
  extract_lets wait steps
  have : OneLine s wait := by
    dsimp only [wait]
    infer_instance
  clear_value wait
  suffices hsteps : ∀ isDelete, Traces s h i (steps isDelete) by
    clear_value steps
    infer_instance
  intro isDelete
  dsimp only [steps]
  split
  next hcall =>
    have : Known s i := by
      obtain hcall | hcall := Bool.or_eq_true_iff.1 hcall
      all_goals exact known_of_kind (kind_of_isAt hcall).1 (by decide)
    infer_instance
  split
  next hat =>
    have := known_of_kind (kind_of_isAt hat).1 (by decide)
    infer_instance
  split
  next hat =>
    have := known_of_kind (s := s) (i := i) (beq_iff_eq.1 hat) (by decide)
    infer_instance
  split
  next hat =>
    have := known_of_kind (s := s) (i := i) (beq_iff_eq.1 hat) (by decide)
    infer_instance
  split
  next hat =>
    have := known_of_kind (s := s) (i := i) (beq_iff_eq.1 hat) (by decide)
    infer_instance
  split
  next hat =>
    have := known_of_kind (s := s) (i := i) (beq_iff_eq.1 hat) (by decide)
    infer_instance
  next => infer_instance

end Chain

instance traces_optionalChainPass [hs : ReplacesRecent s] : Traces s h i optionalChainPass := by
  unfold optionalChainPass
  refine .look ?_
  split
  next hnullish =>
    have hnullish : s.tape.kind i = .nullish := beq_iff_eq.1 hnullish
    have := known_of_kind hnullish (by decide)
    have : Later s i := later_of_first fun hi => .recent hs.recent (.inl (hi ▸ hnullish))
    infer_instance
  split
  next hdelete =>
    have := known_of_kind (s := s) (i := i) (beq_iff_eq.1 (Bool.and_eq_true_iff.1 hdelete).1)
      (by decide)
    infer_instance
  split
  · infer_instance
  next start hstart =>
    have : Later s i := by
      refine later_of_first fun hi => .recent hs.recent (.inr ?_)
      subst hi
      rw [show (s.tape.get 0).subscriptStart? = some start from hstart]
      rfl
    have := Chain.traces_subscript (s := s) (h := h) (i := i) start
    infer_instance

instance traces_numericSeparatorPass : Traces s h i numericSeparatorPass := by
  unfold numericSeparatorPass
  refine .look ?_
  dsimp only
  split
  next hnumber =>
    have := known_of_oneOf (s := s) (by decide) (Bool.and_eq_true_iff.1 hnumber).1
    have : OneLine s (String.ofList ((View.text ⟨s.tape, i⟩).toList.filter (· != '_'))) := by
      refine ⟨fun hs => ?_⟩
      have hflat : lineFeeds (View.text ⟨s.tape, i⟩) = 0 := Flat.lineFeeds hs
      rw [lineFeeds_eq_zero_iff] at hflat ⊢
      rw [String.toList_ofList]
      exact fun hmem => hflat (List.mem_filter.1 hmem).1
    infer_instance
  next => infer_instance

instance traces_catchBindingPass : Traces s h i catchBindingPass := by
  unfold catchBindingPass
  refine .look ?_
  split
  next hcatch =>
    have := known_of_kind (s := s) (kind_of_isAt hcatch).1 (by decide)
    infer_instance
  next => infer_instance

/-! ## Types -/

/-- The tokens up to the first one without a mark are removed. -/
theorem tracesTo_removeTypes {j : Nat} [Later s i] (hj : j ≤ i)
    (hle : i ≤ s.tape.skip (·.isType) j) :
    TracesTo s h i (fun _ k => k = s.tape.skip (·.isType) j) (removeTo (s.tape.skip (·.isType) j)) :=
  tracesTo_removeTo hle fun _ hk hlt => known_of_isType (Tape.of_lt_skip (by omega) hlt)

instance : Traces s h i eraseArrowReturnType := by
  unfold eraseArrowReturnType
  refine .look ?_
  dsimp only
  split
  · infer_instance
  next hclose =>
    have hclose := Bool.eq_false_of_not_eq_true hclose
    rw [Bool.not_eq_false', Bool.and_eq_true_iff] at hclose
    split
    · infer_instance
    next harrow =>
      have := known_of_kind (s := s) (kind_of_isAt hclose.1).1 (by decide)
      have : Known s (s.tape.skip (·.isType) (i + 1)) :=
        known_of_kind (by simpa using harrow) (by decide)
      refine Traces.afterWrite fun _ => .afterTo
        (tracesTo_removeTypes (Nat.le_refl _) (Tape.le_skip _ _ _)) fun _ k hk => ?_
      rw [← hk] at this
      infer_instance

instance : Traces s h i eraseAsyncArrowParameters := by
  unfold eraseAsyncArrowParameters
  refine .look ?_
  dsimp only
  split
  · infer_instance
  next hasync =>
    have hasync := Bool.eq_false_of_not_eq_true hasync
    rw [Bool.not_eq_false', Bool.and_eq_true_iff, Bool.and_eq_true_iff] at hasync
    obtain ⟨⟨hword, hless⟩, hmark⟩ := hasync
    have := known_of_hasAsync hword
    have : Known s (i + 1) := known_of_isType hmark
    have hlt : i + 1 < s.tape.skip (·.isType) (i + 1) := by
      refine Nat.lt_of_le_of_ne (Tape.le_skip _ _ _) fun heq => ?_
      have hunmarked := (unmarked_skip (s := s) (i + 1)).isType
      rw [← heq, show (s.tape.get (i + 1)).isType = true from hmark] at hunmarked
      cases hunmarked
    split
    · infer_instance
    next hparen =>
      have : Known s (s.tape.skip (·.isType) (i + 1)) :=
        known_of_kind (by simpa using hparen) (by decide)
      refine Traces.afterWrite fun _ => .afterWrite fun _ => .afterTo
        (tracesTo_removeTypes (Nat.le_succ _) hlt) fun _ k hk => ?_
      rw [← hk] at this
      infer_instance

instance : Traces s h i eraseTypes := by
  have hloop : Traces s h (i + 1) (loopWhile (fun v => v.token.isType && !v.isAtEnd) remove) := by
    refine .ofLoopWhile fun k hgo => ?_
    have := known_of_isType (s := s) (i := i + 1 + k) (Bool.and_eq_true_iff.1 hgo).1
    infer_instance
  unfold eraseTypes
  refine .look ?_
  split
  · infer_instance
  next hmark =>
    have := known_of_isType (s := s) (i := i) (by simpa [View.token] using hmark)
    infer_instance

instance traces_modifierPass : Traces s h i modifierPass := by
  unfold modifierPass
  refine .look ?_
  split
  next hmodifier =>
    have := known_of_oneOf (s := s) (by decide) hmodifier
    infer_instance
  next => infer_instance

/-! ## Classes -/

/-- The names in an outline have no line feeds. -/
structure TidyMembers (s : Setting) (m : ClassMembers) : Prop where
  parameterProperties {p : String} (hp : p ∈ m.parameterProperties) : OneLine s p
  instanceInitializers {f : String} (hf : f ∈ m.instanceInitializers) : OneLine s f
  staticInitializers {f : String} (hf : f ∈ m.staticInitializers) : OneLine s f
  fields {f : Field} (hf : f ∈ m.fields) : OneLine s f.initializer

/-- What a reader gives has a property. -/
def Finds {α : Type} (x : Except Failure α) (P : α → Prop) : Prop := ∀ a, x = .ok a → P a

namespace Finds

variable {α β : Type} {P : α → Prop} {Q : β → Prop}

theorem ok {a : α} (ha : P a) : Finds (.ok a) P := by
  intro b hb
  cases hb
  exact ha

theorem error (e : Failure) : Finds (.error e) P := nofun

theorem bind {x : Except Failure α} {f : α → Except Failure β} (hx : Finds x P)
    (hf : ∀ a, P a → Finds (f a) Q) : Finds (x >>= f) Q := by
  intro b hb
  obtain ⟨a, ha, hb⟩ := exists_of_bind_ok hb
  exact hf a (hx a ha) b hb

theorem any {x : Except Failure α} : Finds x fun _ => True := fun _ _ => trivial

theorem ite {c : Prop} [Decidable c] {x y : Except Failure α} (hx : c → Finds x P)
    (hy : ¬c → Finds y P) : Finds (if c then x else y) P := by
  split
  next hc => exact hx hc
  next hc => exact hy hc

end Finds

section

open ClassOutline

theorem finds_parametersFor {contextId? : Option Nat} {n : Nat} :
    Finds (parametersFor s.tape contextId? n i) fun found => ∀ p ∈ found.1, OneLine s p := by
  induction n generalizing i with
  | zero => exact .error _
  | succ n ih =>
    unfold parametersFor
    refine .ite (fun _ => .ok (by simp)) fun _ => .bind .any fun j _ => ?_
    refine .ite (fun _ => ?_) fun _ => ih
    dsimp only
    split
    next hname =>
      have := known_of_kind (s := s) (beq_iff_eq.1 hname) (by decide)
      refine ih.bind fun rest hrest => .ok fun p hp => ?_
      obtain rfl | hp := List.mem_cons.1 hp
      · exact oneLine_text
      · exact hrest p hp
    next => exact .error _

theorem finds_readConstructor :
    Finds (readConstructor s.tape i) fun found => ∀ p ∈ found.1, OneLine s p := by
  unfold readConstructor
  refine .bind .any fun j _ => ?_
  dsimp only
  refine .ite (fun _ => .error _) fun _ => finds_parametersFor.bind fun properties hproperties => ?_
  exact .bind .any fun k _ => .bind .any fun place _ => .bind .any fun stop _ => .ok hproperties

theorem TidyMembers.withConstructor {m : ClassMembers} (hm : TidyMembers s m)
    {properties : List String} (hproperties : ∀ p ∈ properties, OneLine s p) (insertAt : Nat) :
    TidyMembers s (ClassOutline.withConstructor m properties insertAt) :=
  { hm with parameterProperties := fun hp => hproperties _ hp }

theorem TidyMembers.withRemoved {m : ClassMembers} (hm : TidyMembers s m) (start stop : Nat) :
    TidyMembers s (ClassOutline.withRemoved m start stop) :=
  ⟨hm.parameterProperties, hm.instanceInitializers, hm.staticInitializers, hm.fields⟩

theorem TidyMembers.withField {m : ClassMembers} (hm : TidyMembers s m) (isStatic : Bool)
    {field : Field} (hfield : OneLine s field.initializer) :
    TidyMembers s (ClassOutline.withField m isStatic field) := by
  have hname {names : List String} (hnames : ∀ f ∈ names, OneLine s f) {f : String}
      (hf : f ∈ names ++ [field.initializer]) : OneLine s f := by
    obtain hf | hf := List.mem_append.1 hf
    · exact hnames f hf
    · rw [List.mem_singleton.1 hf]
      exact hfield
  have hfields {f : Field} (hf : f ∈ m.fields ++ [field]) : OneLine s f.initializer := by
    obtain hf | hf := List.mem_append.1 hf
    · exact hm.fields hf
    · rw [List.mem_singleton.1 hf]
      exact hfield
  unfold ClassOutline.withField
  split
  · exact ⟨hm.parameterProperties, hm.instanceInitializers, hname fun _ => hm.staticInitializers,
      hfields⟩
  · exact ⟨hm.parameterProperties, hname fun _ => hm.instanceInitializers, hm.staticInitializers,
      hfields⟩

theorem finds_membersFor {classId? : Option Nat} {keepsFields : Bool} {n : Nat} {m : ClassMembers}
    {names : Names} (hm : TidyMembers s m) :
    Finds (membersFor s.tape classId? keepsFields n i m names) fun found =>
      TidyMembers s found.1 := by
  induction n generalizing i m names with
  | zero => exact .error _
  | succ n ih =>
    unfold membersFor
    refine .ite (fun _ => .ok hm) fun _ => .ite (fun _ => .error _) fun _ => ?_
    refine .ite (fun _ => finds_readConstructor.bind fun _ hfound =>
      ih (hm.withConstructor hfound _)) fun _ => ?_
    refine .ite (fun _ => ih ?_) fun _ => .ite (fun _ => ih hm) fun _ => ?_
    · split
      · exact hm
      · exact hm.withRemoved _ _
    refine .ite (fun _ => .bind .any fun _ _ => ih hm) fun _ => ?_
    refine .ite (fun _ => finds_readConstructor.bind fun _ hfound =>
      ih (hm.withConstructor hfound _)) fun _ => .bind .any fun j _ => ?_
    refine .ite (fun _ => .bind .any fun _ _ => ih hm) fun _ => .ite (fun _ => ?_) fun _ => ih ?_
    · split
      · refine .ite (fun _ => .error _) fun _ => ih (hm.withField _ ⟨fun _ => ?_⟩)
        refine names.lineFeeds_free ?_
        split <;> decide
      · exact .error _
    · split
      · exact hm
      · exact hm.withRemoved _ _

end

/-- The names in an outline that is read off the tape have no line feeds. -/
theorem IsOutline.tidy {c : ClassOutline} (hc : IsOutline s.tape c) :
    TidyMembers s c.toClassMembers ∧ ∀ name, c.name? = some name → OneLine s name := by
  obtain ⟨keepsFields, names, names', i, hread⟩ := hc.read
  suffices hfinds : Finds (ClassOutline.read s.tape keepsFields names i) fun found =>
      TidyMembers s found.1.toClassMembers ∧ ∀ name, found.1.name? = some name → OneLine s name from
    hfinds _ hread
  unfold ClassOutline.read
  split
  · refine .bind .any fun nameAt _ => .bind .any fun brace _ => ?_
    refine .ite (fun _ => .error _) fun _ => .bind .any fun first _ => ?_
    have hempty : TidyMembers s {} := by constructor <;> intro _ hmem <;> cases hmem
    refine (finds_membersFor hempty).bind fun m hm => .ok ⟨?_, ?_⟩
    · dsimp only
      split
      · exact ⟨hm.parameterProperties, by simp, by simp, by simp⟩
      · exact hm
    · intro name hname
      dsimp only at hname
      split at hname
      next hkind =>
        cases hname
        have := known_of_kind (s := s) (beq_iff_eq.1 hkind) (by decide)
        exact oneLine_text
      next => cases hname
  · exact .error _

/-! ### Writing -/

namespace Class

variable {c : ClassOutline} (className : String)

theorem oneLine_initCode (hc : TidyMembers s c.toClassMembers) [hname : OneLine s className] :
    OneLine s (initCode c className) := by
  refine ⟨fun hs => lineFeeds_intercalate (by decide) fun code hcode => ?_⟩
  have hthis : lineFeeds "this." = 0 := by decide
  have hequals : lineFeeds " = " = 0 := by decide
  have hmethod : lineFeeds ".prototype." = 0 := by decide
  have hcall : lineFeeds ".call(this)" = 0 := by decide
  obtain hcode | hcode := List.mem_append.1 hcode
  · obtain ⟨p, hp, rfl⟩ := List.mem_map.1 hcode
    simp [hthis, hequals, (hc.parameterProperties hp).lineFeeds hs]
  · obtain ⟨f, hf, rfl⟩ := List.mem_map.1 hcode
    simp [hmethod, hcall, hname.lineFeeds hs, (hc.instanceInitializers hf).lineFeeds hs]

/-- The calls of the static initializers, in the forms in which they are written. -/
theorem oneLine_staticCalls (hc : TidyMembers s c.toClassMembers) [hname : OneLine s className] :
    OneLine s (String.join ((c.staticInitializers.map fun f => className ++ "." ++ f ++ "()").map
      (· ++ ", "))) ∧
    OneLine s (String.intercalate " " ((c.staticInitializers.map fun f =>
      className ++ "." ++ f ++ "()").map (· ++ ";"))) := by
  have hdot : lineFeeds "." = 0 := by decide
  have hcall : lineFeeds "()" = 0 := by decide
  have hcomma : lineFeeds ", " = 0 := by decide
  have hsemicolon : lineFeeds ";" = 0 := by decide
  refine ⟨⟨fun hs => lineFeeds_join_eq_zero fun code hcode => ?_⟩,
    ⟨fun hs => lineFeeds_intercalate (by decide) fun code hcode => ?_⟩⟩
  all_goals
    rw [List.map_map] at hcode
    obtain ⟨f, hf, rfl⟩ := List.mem_map.1 hcode
    simp [hdot, hcall, hcomma, hsemicolon, hname.lineFeeds hs, (hc.staticInitializers hf).lineFeeds hs]

theorem traces_addConstructor (hc : TidyMembers s c.toClassMembers) [OneLine s className] [Later s i] :
    Traces s h i (addConstructor c className) := by
  have := oneLine_initCode className hc
  unfold addConstructor
  infer_instance

theorem traces_field {f : Field} (hf : OneLine s f.initializer) [Within s h i] :
    Traces s h i (field f) := by
  unfold field
  infer_instance

theorem traces_removeRange [hc : IsOutline s.tape c] {r : TokenRange} (hr : r ∈ c.removed)
    (hle : r.start ≤ i) : Traces s h i (removeRange r) := by
  have hknown (j : Nat) (hj : i ≤ j) (hlt : j < r.stop) : Known s j :=
    known_of_leftOut (.member c hc r hr (by omega) hlt)
  unfold removeRange
  refine .look ?_
  dsimp only
  split
  next hlt =>
    have := hknown i (Nat.le_refl i) hlt
    exact Traces.afterWrite fun _ => (tracesTo_removeTo hlt fun j hj => hknown j (by omega)).takes
  next hge =>
    refine .ofLoopWhileFor fun k hk => absurd (of_decide_eq_true hk) ?_
    dsimp only
    omega

theorem traces_bodyPart [hc : IsOutline s.tape c] [OneLine s className] {p : Pending}
    (hp : p.From c) : Traces s h i (bodyPart c className p) := by
  have := oneLine_initCode className hc.tidy.1
  unfold bodyPart
  refine .look ?_
  dsimp only
  split
  next _ _ f hfield =>
    obtain ⟨hhead, hstart⟩ := Option.filter_eq_some_iff.1 hfield
    have hmem : f ∈ c.fields := hp.1 f (List.mem_of_mem_head? hhead)
    have : Within s h i := within_of_classPart (.field c hc f hmem (by simpa using hstart))
    have := traces_field (h := h) (i := i) (hc.tidy.1.fields hmem)
    infer_instance
  next _ _ r _ hremoved =>
    obtain ⟨hhead, hstart⟩ := Option.filter_eq_some_iff.1 hremoved
    have := traces_removeRange (s := s) (h := h) (i := i) (hp.2 r (List.mem_of_mem_head? hhead))
      (by simpa using hstart)
    infer_instance
  next =>
    split
    next hinsert =>
      have : Within s h i := within_of_classPart (.constructorStart c hc (by simpa using hinsert))
      infer_instance
    next => infer_instance

theorem traces_body [hc : IsOutline s.tape c] [OneLine s className] :
    Traces s h i (body c className) := by
  have : OneLine s "__reactstandin__regenerateByEval(key, code) \x7bthis[key] = eval(code);\x7d" :=
    oneLine_literal (by decide)
  have (j : Nat) [Later s j] := traces_addConstructor (h := h) (i := j) className hc.tidy.1
  have hloop (contextId? : Option Nat) (n j : Nat) : Traces s h j
      (Emit.iterateFor (bodyRound c className contextId?) n ⟨c.fields, c.removed⟩) :=
    (takesTo_bodyLoop className fun p j hp => traces_bodyPart className hp).takes
  unfold body
  infer_instance

theorem tracesTo_header (contextId : Nat) : TracesTo s h i (fun _ j => i < j) (header contextId) := by
  unfold header
  refine .bind (TracesTo.copyExpected (within_of_kind · (by decide)) (Q := fun _ j => i < j) fun _ =>
    Nat.lt_succ_self i) fun _ k hk => ?_
  exact TakesTo.of_takes.imp fun _ _ hle _ => Nat.lt_of_lt_of_le hk hle

/-- The outline that is read at the cursor. -/
theorem tracesTo_outline : TracesTo s h i (fun c j => j = i ∧ ∃ names names',
    ClassOutline.read s.tape s.options.disableESTransforms names i = .ok (c, names')) outline := by
  unfold outline
  refine .view (.options (.look fun σ => ?_))
  split
  · intro recur σ τ a hrecur htidy hindex hrun
    cases hrun
  next c names hread => exact .look fun _ => .pure ⟨rfl, _, _, hread⟩

end Class

instance (name : String) [hname : OneLine s name] :
    Traces s h i (modify fun σ => { σ with variableNames := σ.variableNames.push name } : Emit Unit) :=
  .of fun _ htidy _ hrun => by
    cases hrun
    refine .of_eq ⟨htidy.fileNameVariable, fun hmem => ?_, htidy.mockFunctions⟩ rfl rfl rfl
    obtain hmem | rfl := Array.mem_push.1 hmem
    · exact htidy.variableNames hmem
    · exact hname

theorem traces_classDefinition (hkind : s.tape.kind i = .classWord) : Traces s h i classDefinition := by
  unfold classDefinition
  refine .afterTo Class.tracesTo_outline fun c k hk => ?_
  obtain ⟨hk, names, names', hread⟩ := hk
  rw [hk]
  have hc : IsOutline s.tape c := ⟨_, _, _, _, hread⟩
  extract_lets hasInitializers needsVariable rest
  -- The class itself, and the calls of its static initializers.
  have hrest (className : String) [OneLine s className] : Traces s h i (rest className) := by
    obtain ⟨_, _⟩ := Class.oneLine_staticCalls className hc.tidy.1
    have (j : Nat) := Class.traces_body (s := s) (h := h) (i := j) (c := c) className
    dsimp only [rest]
    refine .look ?_
    split
    next contextId _ =>
      refine Takes.afterTo (Class.tracesTo_header contextId) fun _ k hk => ?_
      have : Later s (i + k) := later_of_lt hk
      infer_instance
    next => infer_instance
  clear_value rest
  split
  next hneeds =>
    have : Later s i := later_of_first fun hi =>
      .classValue (hi ▸ hkind) ⟨names, names', c, hi ▸ hread, hneeds⟩
    infer_instance
  next =>
    have : OneLine s (c.name?.getD "") := by
      cases hname : c.name? with
      | none => exact oneLine_empty
      | some name => exact hc.tidy.2 name hname
    infer_instance

theorem tracesTo_namedClass : TracesTo s h i (fun name _ => OneLine s name) namedClass := by
  unfold namedClass
  refine .view ?_
  split
  · exact .afterFail
  next hclass =>
    have hclass : s.tape.has i [.classWord, .name] = true := by simpa [View.isAt] using hclass
    obtain ⟨hword, hname⟩ := kind_of_isAt hclass
    have := traces_classDefinition (h := h) hword
    have := known_of_kind (kind_of_isAt hname).1 (by decide)
    exact .bind .of_takes fun _ _ _ => .pure inferInstance

/-! ## Enumerations -/

namespace Enumeration

/-- The names in a key have no line feeds. -/
structure Key.Tidy (s : Setting) (k : Key) : Prop where
  literal : OneLine s k.literal
  variableName {x : String} (hx : k.variableName? = some x) : OneLine s x

theorem tidy_keyOf {literal text : String} (hliteral : OneLine s literal) :
    (keyOf literal text).Tidy s := by
  refine ⟨hliteral, fun {x} hx => ?_⟩
  unfold keyOf at hx
  dsimp only at hx
  split at hx
  next htext =>
    cases hx
    have hname := (Bool.and_eq_true_iff.1 htext).1
    exact ⟨fun _ => lineFeeds_eq_zero_iff.2 (Options.lineFeed_not_mem hname)⟩
  next => cases hx

/-- A file that has an enumeration. -/
class HasEnumeration (s : Setting) : Prop where
  starts : ∃ w, enumerationStarts s.tape w = true

/-- The key of a member is on one line, and has names on one line. -/
theorem tracesTo_key [hs : HasEnumeration s] : TracesTo s h i (fun k j => j = i ∧ k.Tidy s ∧
    Flat s i ∧ Within s h i) key := by
  unfold key
  refine .view ?_
  split
  next hname =>
    have hname : s.tape.kind i = .name := hname
    have := known_of_kind hname (by decide)
    exact .pure ⟨rfl, tidy_keyOf inferInstance, inferInstance, inferInstance⟩
  next hstring =>
    have hstring : s.tape.kind i = .string := hstring
    have hflat : Flat s i := ⟨fun hlines => hlines.members hs.starts hstring⟩
    exact .pure ⟨rfl, tidy_keyOf inferInstance, hflat, within_of_kind hstring (by decide)⟩
  next => exact .fail _

variable (name : String) [OneLine s name] {k : Key}

theorem traces_stringMember (hk : k.Tidy s) [Later s i]
    (hkinds : s.tape.has i [.equals, .string] = true) : Traces s h i (stringMember name k) := by
  obtain ⟨hequals, hstring⟩ := kind_of_isAt hkinds
  have := hk.literal
  have : Within s h i := within_of_kind hequals (by decide)
  have : Within s h (i + 1) := within_of_kind (kind_of_isAt hstring).1 (by decide)
  unfold stringMember
  split
  next x hx =>
    have := hk.variableName hx
    infer_instance
  next => infer_instance

theorem traces_valueMember (hk : k.Tidy s) [Later s i] (hequals : s.tape.kind i = .equals) :
    Traces s h i (valueMember name k) := by
  have := hk.literal
  have : Within s h i := within_of_kind hequals (by decide)
  unfold valueMember
  refine .look ?_
  split
  · split
    next x hx =>
      have := hk.variableName hx
      infer_instance
    next => infer_instance
  next => infer_instance

/-- The code for a member with a value that is known. -/
theorem traces_addMember (hk : k.Tidy s) [Later s i] (value : String) [OneLine s value] :
    Traces s h i (add ((match k.variableName? with
      | some x => "const " ++ x ++ " = " ++ value ++ "; "
      | none => "") ++ name ++ "[" ++ name ++ "[" ++ k.literal ++ "] = " ++
        k.variableName?.getD value ++ "] = " ++ k.literal ++ ";")) := by
  have := hk.literal
  cases hx : k.variableName? with
  | none =>
    rw [Option.getD_none]
    infer_instance
  | some x =>
    have := hk.variableName hx
    rw [Option.getD_some]
    infer_instance

theorem traces_countedMember (hk : k.Tidy s) [Later s i] {previous? : Option String}
    (hprevious : ∀ value, previous? = some value → OneLine s value) :
    Traces s h i (countedMember name k previous?) := by
  unfold countedMember
  cases hvalue : previous? with
  | none => exact traces_addMember name hk "0"
  | some value =>
    have := hprevious value hvalue
    exact traces_addMember name hk (value ++ " + 1")

/-- What a member leaves behind has no line feeds. -/
def Previous.Tidy (s : Setting) (previous : Previous) : Prop :=
  ∀ value, previous.value? = some value → OneLine s value

theorem tracesTo_member [HasEnumeration s] {previous : Previous} (hprevious : previous.Tidy s) :
    TracesTo s h i (fun next _ => next.Tidy s) (member name previous) := by
  unfold member
  refine .bind tracesTo_key fun k j hj => ?_
  obtain ⟨hj, hk, hflat, hwithin⟩ := hj
  rw [hj]
  have := hk.literal
  refine .afterWrites fun _ => .view ?_
  dsimp only
  -- What is left behind is the variable of the member, or the member itself.
  have hafter (isString : Bool) (e : Emit Unit) (he : Traces s h (i + 1) e) :
      TracesTo s h (i + 1) (fun next _ => Previous.Tidy s next) (do
        e
        removeIf .comma
        return { isString, value? := some (k.variableName?.getD (name ++ "[" ++ k.literal ++ "]")) }
          : Emit Previous) := by
    refine .bind .of_takes fun _ _ _ => .bind .of_takes fun _ _ _ => .pure fun value hvalue => ?_
    cases hvalue
    cases hx : k.variableName? with
    | none =>
      rw [Option.getD_none]
      infer_instance
    | some x => exact hk.variableName hx
  split
  next hstring =>
    have hkinds : s.tape.has (i + 1) [.equals, .string] = true := by
      obtain hat | hat := Bool.or_eq_true_iff.1 hstring
      all_goals
        obtain ⟨hequals, hrest⟩ := kind_of_isAt hat
        simp [Tape.has, hequals, (kind_of_isAt hrest).1]
    exact hafter _ _ (traces_stringMember name hk hkinds)
  split
  next hequals => exact hafter _ _ (traces_valueMember name hk (beq_iff_eq.1 hequals))
  split
  · exact .afterFail
  · exact hafter _ _ (traces_countedMember name hk hprevious)

theorem traces_members [HasEnumeration s] [Later s i] : Traces s h i (members name) := by
  unfold members
  refine (TakesTo.discard (TakesTo.iterate (R := fun _ _ => True) (fun previous _ => previous.Tidy s)
    (fun previous j hprevious => .view ?_) fun _ h => absurd h.symm (Option.some_ne_none _))).takes
  split
  · exact .pure ⟨fun _ => elim_done, fun _ _ => trivial⟩
  split
  · exact .afterFail
  · exact .bind (tracesTo_member name hprevious) fun _ _ hnext => .pure ⟨by simpa, fun _ => elim_yield⟩

end Enumeration

theorem traces_enumeration (isExport : Bool) (hstarts : enumerationStarts s.tape i = true) :
    Traces s i i (enumeration isExport) := by
  have : Enumeration.HasEnumeration s := ⟨i, hstarts⟩
  have : Flat s i := by
    unfold enumerationStarts at hstarts
    rw [Bool.or_eq_true_iff, Bool.or_eq_true_iff, Bool.or_eq_true_iff] at hstarts
    obtain ((hat | hat) | hat) | hat := hstarts
    all_goals exact flat_of_kind (kind_of_isAt hat).1 (by decide)
  -- Up to the name there are only words.
  have hwords : TracesTo s i (i + 1) (fun _ j => i < j ∧
      ∀ k, i < k → k < j → s.tape.hasOneOf k [.constWord, .enumWord] = true)
      (loopWhile (·.isAtOneOf [.constWord, .enumWord]) remove) := by
    refine (TakesTo.loopWhile (fun j => i < j ∧ ∀ k, i < k → k < j →
      s.tape.hasOneOf k [.constWord, .enumWord] = true) (fun j hj hword => ?_)
      ⟨Nat.lt_succ_self i, fun k hk hlt => absurd hlt (by omega)⟩).imp fun _ _ _ hj => hj.1
    have := known_of_oneOf (s := s) (by decide) hword
    have := later_of_lt (s := s) hj.1
    refine .ofWrites ⟨by omega, fun k hk hlt => ?_⟩
    obtain hlt | rfl := Nat.lt_or_eq_of_le (show k ≤ j by omega)
    · exact hj.2 k hk hlt
    · exact hword
  unfold enumeration
  refine .afterWrite fun _ => .afterTo hwords fun _ k hk => .look ?_
  have := known_of_leftOut (s := s) (.enumeration i hstarts hk.1 hk.2)
  have := later_of_lt (s := s) hk.1
  have (j : Nat) [Later s j] := Enumeration.traces_members (s := s) (h := i) (i := j)
    (View.text ⟨s.tape, i + 1 + k⟩)
  infer_instance

theorem traces_enumerationPass : Traces s i i enumerationPass := by
  unfold enumerationPass
  refine .look ?_
  split
  next hat =>
    have hat : (s.tape.has i [.enumWord] || s.tape.has i [.constWord, .enumWord]) = true := hat
    have := traces_enumeration (s := s) (i := i) false (by simp [enumerationStarts, hat])
    infer_instance
  split
  next hat =>
    have hat : (s.tape.has i [.exportWord, .enumWord] ||
      s.tape.has i [.exportWord, .constWord, .enumWord]) = true := hat
    have := traces_enumeration (s := s) (i := i) true (by
      rw [enumerationStarts, Bool.or_assoc, hat, Bool.or_true])
    infer_instance
  next => infer_instance

/-! ## Mocks -/

namespace Mock

instance (name : String) [hname : OneLine s name] :
    Traces s h i (modify fun σ => { σ with mockFunctions := σ.mockFunctions.push name } : Emit Unit) :=
  .of fun _ htidy _ hrun => by
    cases hrun
    refine .of_eq ⟨htidy.fileNameVariable, htidy.variableNames, fun hmem => ?_⟩ rfl rfl rfl
    obtain hmem | rfl := Array.mem_push.1 hmem
    · exact htidy.mockFunctions hmem
    · exact hname

theorem traces_chain [Later s i] : Traces s h i chain := by
  have : OneLine s object := oneLine_literal (by decide)
  unfold chain
  dsimp only
  refine @Takes.discard _ _ _ _ _ (.ofRounds fun staysChained k => .look ?_)
  split
  · infer_instance
  next hcall =>
    have hcall : s.tape.has (i + k) [.dot, .name, .parenOpen] = true := by
      simpa [View.isAt] using hcall
    obtain ⟨hdot, hcall⟩ := kind_of_isAt hcall
    obtain ⟨hname, hcall⟩ := kind_of_isAt hcall
    have := known_of_kind hdot (by decide)
    have := known_of_kind hname (by decide)
    have := known_of_kind (kind_of_isAt hcall).1 (by decide)
    have : Traces s h (i + k + 1) methodCall := by
      unfold methodCall
      infer_instance
    infer_instance

end Mock

theorem traces_mockPass (hjest : s.options.has .jest = true) : Traces s h i mockPass := by
  unfold mockPass
  refine .look (@Takes.afterRead _ _ _ _ _ fun recur => ?_)
  split
  next hmock =>
    simp only [Bool.and_eq_true] at hmock
    obtain ⟨⟨⟨_, hat⟩, htext⟩, _⟩ := hmock
    have := known_of_kind (s := s) (kind_of_isAt hat).1 (by decide)
    have : Later s i := later_of_first fun hi => .mock hjest (hi ▸ hat) (hi ▸ beq_iff_eq.1 htext)
    have := Mock.traces_chain (s := s) (h := h) (i := i + 1)
    infer_instance
  next => infer_instance

/-! ## Display names -/

theorem oneLine_find? {start : Nat} {name : String}
    (hname : DisplayName.find? s.tape s.options.filePath? start = some name) : OneLine s name := by
  unfold DisplayName.find? at hname
  split at hname
  · cases hname
  split at hname
  next hat =>
    cases hname
    have := known_of_kind (kind_of_isAt hat).1 (by decide)
    exact oneLine_text
  split at hname
  next hkey =>
    cases hname
    exact ⟨fun hs => hs.keys (beq_iff_eq.1 hkey)⟩
  split at hname
  · cases hname
    refine ⟨fun hs => DisplayName.lineFeeds_ofPath ?_⟩
    cases hpath : s.options.filePath? with
    | none => decide
    | some path => exact hs.filePath hpath
  · cases hname

instance (start : Nat) [Later s i] : Traces s h i (DisplayName.arguments start) := by
  unfold DisplayName.arguments
  refine .look (@Takes.afterOptions _ _ _ _ _ ?_)
  split
  · infer_instance
  next name hname =>
    have := oneLine_find? hname
    split <;> infer_instance

instance traces_displayNamePass : Traces s h i displayNamePass := by
  unfold displayNamePass
  refine .look ?_
  split
  · infer_instance
  next hname =>
    have hname : s.tape.kind i = .name := by simpa [View.kind, View.token, Tape.kind] using hname
    have := known_of_kind hname (by decide)
    split
    · refine @Takes.afterReplacement? _ _ _ _ _ _ ?_
      split
      next code hcode =>
        have := oneLine_replacement hcode
        infer_instance
      next => infer_instance
    split
    next hclass =>
      simp only [Bool.and_eq_true] at hclass
      obtain ⟨hdot, hname⟩ := kind_of_isAt (kind_of_isAt hclass.1.1).2
      have := known_of_kind (s := s) hdot (by decide)
      have := known_of_kind (s := s) (kind_of_isAt hname).1 (by decide)
      refine @Takes.afterReplacement? _ _ _ _ _ _ ?_
      cases hcode : s.plan.replacement? (View.text ⟨s.tape, i⟩) with
      | none =>
        rw [Option.getD_none]
        infer_instance
      | some code =>
        have := oneLine_replacement hcode
        rw [Option.getD_some]
        infer_instance
    next => infer_instance

/-! ## Elements -/

theorem InClosingTag.succ {t : Tape} {j : Nat} (hj : InClosingTag t j) (hkind : t.kind j ≠ .jsxTagEnd) :
    InClosingTag t (j + 1) := by
  obtain ⟨w, hstart, hle, hopen⟩ := hj
  refine ⟨w, hstart, by omega, fun k hk hlt => ?_⟩
  obtain hlt | rfl := Nat.lt_succ_iff_lt_or_eq.1 hlt
  · exact hopen k hk hlt
  · exact hkind

namespace Element

instance (text : String) [OneLine s text] : OneLine s (quoted text) := by
  unfold quoted
  infer_instance

instance (text : String) : OneLine s (JsonString.quote text) :=
  ⟨fun _ => JsonString.lineFeeds_quote text⟩

instance : SameLines s i (ElementText.remainder (View.text ⟨s.tape, i⟩)) :=
  ⟨fun _ => ElementText.lineFeeds_remainder _⟩

instance (priority := low) (a b : String) [ha : OneLine s a] [hb : SameLines s i b] :
    SameLines s i (a ++ b) where
  lineFeeds hs := by rw [lineFeeds_append, ha.lineFeeds hs, hb.lineFeeds hs, Nat.zero_add]

theorem afterResolved {name : String} {α : Type} {f : String → Emit α} [hname : OneLine s name]
    (hf : ∀ code, OneLine s code → Traces s h i (f code)) : Traces s h i (resolved name >>= f) :=
  .of fun hrecur htidy hindex hrun => (hf _ (oneLine_resolved name)).traces hrecur htidy hindex hrun

/-- The variable for the name of the file is taken once. -/
instance (name : String) [hname : OneLine s name] :
    Traces s h i (modify fun σ => { σ with fileNameVariable? := some name } : Emit Unit) :=
  .of fun _ htidy _ hrun => by
    cases hrun
    refine .of_eq ⟨fun hsome => ?_, htidy.variableNames, htidy.mockFunctions⟩ rfl rfl rfl
    cases hsome
    exact hname

theorem tracesTo_fileNameVariable :
    TracesTo s h i (fun name j => j = i ∧ OneLine s name) fileNameVariable := by
  unfold fileNameVariable
  refine TracesTo.afterTidy fun σ htidy => ?_
  split
  next name hname => exact .pure ⟨rfl, htidy.fileNameVariable hname⟩
  next => exact TracesTo.afterName fun name hname => .look fun _ => .pure ⟨rfl, hname⟩

theorem tracesTo_debugInfo (line? : Option Nat) :
    TracesTo s h i (fun info j => j = i ∧ OneLine s info) (debugInfo line?) := by
  unfold debugInfo
  split
  · exact .pure ⟨rfl, inferInstance⟩
  next line =>
    have : OneLine s (Nat.repr line) := ⟨fun _ => lineFeeds_repr line⟩
    refine .bind tracesTo_fileNameVariable fun name k hk => ?_
    have := hk.2
    exact .pure ⟨hk.1, inferInstance⟩

/-- The name of a tag follows the mark that starts it. -/
theorem traces_tag (hstart : s.tape.kind i = .jsxTagStart) : Traces s h (i + 1) tag := by
  have := known_of_leftOut (s := s) (i := i + 1) (.tagName hstart)
  unfold tag
  refine .look ?_
  dsimp only
  split
  · infer_instance
  split
  next hnamespace =>
    obtain ⟨hcolon, hname⟩ := kind_of_isAt (kind_of_isAt (Bool.and_eq_true_iff.1 hnamespace).2).2
    have := known_of_kind (s := s) hcolon (by decide)
    have := known_of_kind (s := s) (kind_of_isAt hname).1 (by decide)
    have : Known s (i + 1 + 2) := ‹Known s (i + 1 + 1 + 1)›
    infer_instance
  next => infer_instance

theorem traces_braced (opening : String) [OneLine s opening] (hbrace : s.tape.kind i = .braceOpen) :
    Traces s h i (braced opening) := by
  have := known_of_kind hbrace (by decide)
  unfold braced
  refine .afterWrite fun _ => .afterTo tracesTo_processBalanced fun _ k hk => ?_
  have := known_of_closing hk
  infer_instance

theorem traces_reachElement [hs : IsJsx s] (hstart : s.tape.kind i = .jsxTagStart) :
    Traces s h i (reach .element) :=
  .of fun hrecur htidy hindex hrun =>
    (hrecur .element _ _ _ (fun _ => ⟨hs.jsx, hindex ▸ hstart⟩) htidy hrun).1

/-- The value of an attribute keeps its line feeds. -/
theorem traces_attributeValue [hs : IsJsx s] (hequals : s.tape.kind i = .equals) :
    Traces s h (i + 1) attributeValue := by
  unfold attributeValue
  refine .look ?_
  split
  next hbrace => exact traces_braced "" (beq_iff_eq.1 hbrace)
  split
  next hstart => exact traces_reachElement (beq_iff_eq.1 hstart)
  next =>
    have : Within s h (i + 1) := ⟨.inr (.attribute hs.jsx hequals)⟩
    have : SameLines s (i + 1) (ElementText.remainder (s.tape.stringValue (i + 1))) :=
      ⟨fun hlines => (ElementText.lineFeeds_remainder _).trans (hlines.quotes hequals)⟩
    dsimp only
    infer_instance

theorem tracesTo_attributeName (hname : s.tape.kind i = .jsxName) :
    TracesTo s h i (fun _ j => j = i + 1) attributeName := by
  have := known_of_kind hname (by decide)
  unfold attributeName
  refine .view ?_
  split
  · exact .ofWrites rfl
  · exact .ofWrites rfl

instance [IsJsx s] [Later s i] : Traces s h i attribute? := by
  unfold attribute?
  refine .look ?_
  split
  next hnamespace =>
    obtain ⟨hname, hcolon⟩ := kind_of_isAt hnamespace
    obtain ⟨hcolon, hlast⟩ := kind_of_isAt hcolon
    have := known_of_kind (s := s) hname (by decide)
    have := known_of_kind (s := s) hcolon (by decide)
    have := known_of_kind (s := s) (kind_of_isAt hlast).1 (by decide)
    have : Known s (i + 2) := ‹Known s (i + 1 + 1)›
    refine Traces.afterWrite fun _ => .afterWrite fun _ => .afterWrite fun _ => .look ?_
    split
    next hequals =>
      have hequals : s.tape.kind (i + 1 + 1 + 1) = .equals := beq_iff_eq.1 hequals
      have := known_of_kind hequals (by decide)
      have := traces_attributeValue (s := s) (h := h) hequals
      infer_instance
    next => infer_instance
  split
  next hat =>
    obtain ⟨hname, hequals⟩ := kind_of_isAt hat
    have := known_of_kind (s := s) (kind_of_isAt hequals).1 (by decide)
    have := traces_attributeValue (s := s) (h := h) (kind_of_isAt hequals).1
    refine Takes.afterTo (tracesTo_attributeName hname) fun _ k hk => ?_
    rw [hk]
    infer_instance
  split
  next hname =>
    refine Takes.afterTo (tracesTo_attributeName (s := s) (beq_iff_eq.1 hname)) fun _ k hk => ?_
    infer_instance
  split
  next hbrace =>
    have := traces_braced (s := s) (h := h) (i := i) "" (beq_iff_eq.1 hbrace)
    infer_instance
  next => infer_instance

instance [IsJsx s] [Later s i] : Traces s h i attributes := by
  unfold attributes
  infer_instance

instance [IsJsx s] [Later s i] (line? : Option Nat) : Traces s h i (properties line?) := by
  unfold properties
  refine .afterTo (tracesTo_debugInfo line?) fun info k hk => ?_
  have := hk.2
  infer_instance

instance [IsJsx s] [Later s i] : Traces s h i child := by
  unfold child
  refine .look ?_
  split
  next hempty =>
    obtain ⟨hopen, hclose⟩ := kind_of_isAt hempty
    have := known_of_kind (s := s) hopen (by decide)
    have := known_of_kind (s := s) (kind_of_isAt hclose).1 (by decide)
    infer_instance
  split
  next hbrace =>
    have := traces_braced (s := s) (h := h) (i := i) ", " (beq_iff_eq.1 hbrace)
    infer_instance
  split
  next hstart =>
    have := traces_reachElement (s := s) (h := h) (i := i) (beq_iff_eq.1 hstart)
    infer_instance
  split
  next htext =>
    have : Within s h i := by
      refine ⟨.inr (inner_of_kind ?_)⟩
      have hmem : s.tape.kind i ∈ [TokenKind.jsxText, .jsxEmptyText] := List.contains_iff_mem.1 htext
      simp only [List.mem_cons, List.not_mem_nil, or_false] at hmem
      obtain hkind | hkind := hmem <;> exact hasOneOf_of_kind_eq hkind (by decide)
    dsimp only
    infer_instance
  next => infer_instance

theorem tracesTo_children [IsJsx s] [Later s i] :
    TracesTo s h i (fun _ j => s.tape.has j [.jsxTagStart, .slash] = true) children := by
  unfold children
  refine .iterate (fun _ j => i ≤ j) (fun _ j hj => .view ?_) (Nat.le_refl i)
  obtain ⟨k, rfl⟩ := Nat.exists_eq_add_of_le hj
  split
  next hclosing => exact .pure ⟨fun _ => elim_done, fun _ _ => hclosing⟩
  next =>
    refine .bind (P := fun _ m => i + k ≤ m) (TakesTo.of_takes.imp fun _ _ hle _ => hle)
      fun _ m hm => .pure ⟨fun _ _ => by omega, fun _ => elim_yield⟩

/-- What is left of an element: its closing tag, or the end of a tag that closes itself. -/
def ClosesAt (t : Tape) (j : Nat) : Prop :=
  InClosingTag t j ∧ t.kind j ≠ .jsxTagEnd ∨ t.has j [.slash, .jsxTagEnd] = true

theorem closesAt_of_has {t : Tape} {j : Nat} (hclosing : t.has j [.jsxTagStart, .slash] = true) :
    ClosesAt t j := by
  refine .inl ⟨⟨j, hclosing, Nat.le_refl j, fun k hk hlt => absurd hlt (by omega)⟩, ?_⟩
  rw [(kind_of_isAt hclosing).1]
  decide

/-- The tokens that close an element are removed up to the last one. -/
theorem traces_close [Later s i] (hclose : ClosesAt s.tape i) :
    Traces s h i (do
      removeFirst
      iterate () fun _ => do
        let v ← view
        if v.kind == .jsxTagEnd then return .done ()
        if v.isAtEnd then fail .elementCloseUnfinished
        remove
        return .yield ()
      replace ")") := by
  have : Known s i := by
    obtain hclosing | hat := hclose
    · exact known_of_leftOut (.closingTag hclosing.1)
    · exact known_of_kind (kind_of_isAt hat).1 (by decide)
  refine .afterWrite fun _ => ?_
  refine .afterTo (TakesTo.iterate (R := fun _ j => s.tape.kind j = .jsxTagEnd)
    (fun _ j => i < j ∧ (InClosingTag s.tape j ∨ s.tape.kind j = .jsxTagEnd)) (fun _ j hj => .view ?_)
    ⟨Nat.lt_succ_self i, ?_⟩) fun _ k hk => ?_
  · split
    next hend => exact .pure ⟨fun _ => elim_done, fun _ _ => beq_iff_eq.1 hend⟩
    next hgo =>
      have hgo : s.tape.kind j ≠ .jsxTagEnd := fun hend => hgo (beq_iff_eq.2 hend)
      have hclosing := hj.2.resolve_right hgo
      have := known_of_leftOut (s := s) (.closingTag hclosing)
      have := later_of_lt (s := s) hj.1
      split
      · exact .afterFail
      · exact .afterWrites fun _ => .pure ⟨fun _ _ => ⟨by omega, .inl (hclosing.succ hgo)⟩, fun _ => elim_yield⟩
  · obtain hclosing | hat := hclose
    · exact .inl (hclosing.1.succ hclosing.2)
    · exact .inr (kind_of_isAt (kind_of_isAt hat).2).1
  · have := known_of_kind (s := s) hk (by decide)
    infer_instance

instance : OneLine s s.pragma.base := ⟨fun hs => hs.base⟩

instance : OneLine s s.pragma.suffix := ⟨fun hs => hs.suffix⟩

instance : OneLine s s.pragma.fragmentBase := ⟨fun hs => hs.fragmentBase⟩

instance : OneLine s s.pragma.fragmentSuffix := ⟨fun hs => hs.fragmentSuffix⟩

theorem traces_element [IsJsx s] (hstart : s.tape.kind i = .jsxTagStart) : Traces s h i element := by
  have := known_of_kind hstart (by decide)
  have := traces_tag (s := s) (h := h) hstart
  unfold element
  refine @Takes.afterRead _ _ _ _ _ fun recur => .look ?_
  extract_lets start step close rest
  have hclose (j : Nat) [Later s j] (hj : ClosesAt s.tape j) : Traces s h j (close ()) := traces_close hj
  have hchildren (j : Nat) [Later s j] : Traces s h j (children >>= close) :=
    .afterTo tracesTo_children fun _ k hk => hclose _ (closesAt_of_has hk)
  have hrest (line? : Option Nat) : Traces s h i (rest line?) := by
    dsimp only [rest]
    refine afterResolved fun base _ => .afterWrite fun _ => .look ?_
    split
    next hfragment =>
      have := known_of_kind (s := s) (i := i + 1) (beq_iff_eq.1 hfragment) (by decide)
      exact afterResolved fun base _ => .afterWrite fun _ => hchildren _
    next =>
      refine .andThen fun _ k => .andThen fun _ m => .look ?_
      split
      next hend =>
        have := known_of_kind (s := s) (i := i + 1 + k + m) (beq_iff_eq.1 hend) (by decide)
        exact Traces.afterWrite fun _ => hchildren _
      split
      next hself => exact hclose _ (.inr hself)
      next => infer_instance
  clear_value rest
  infer_instance

end Element

instance traces_elementPass [IsJsx s] : Traces s h i elementPass := by
  unfold elementPass
  refine .look ?_
  split
  next hstart =>
    have := Element.traces_reachElement (s := s) (h := h) (i := i) (beq_iff_eq.1 hstart)
    infer_instance
  next => infer_instance

end PlainScript.Emit
