import PlainScript.Proofs.ImportPlans
import PlainScript.Proofs.Marks
import PlainScript.Proofs.PassProgress
import PlainScript.Proofs.Traces

/-!
# Class outlines

A class is read before it is written, one member after the other, and what is read is taken up in the
same order when the class is written. So the fields that move and the tokens that are left out have to
be in order and apart, inside the body of the class, and no member may be missed where initial values
are set. What the reader takes for a member without a value, and for the constructor, is what these
statements say and no more: it goes by the kinds of tokens, and takes a decorator for a name and a
static method for the constructor.
-/

namespace PlainScript

/-! ## Ranges -/

namespace ClassMembers

/-- The tokens that move or are left out are in order and apart, and lie between two indices. -/
structure InOrder (m : ClassMembers) (opened closed : Nat) : Prop where
  fields : m.fields.Pairwise (·.range.stop ≤ ·.range.start)
  removed : m.removed.Pairwise (·.stop ≤ ·.start)
  apart : ∀ f ∈ m.fields, ∀ r ∈ m.removed, f.range.stop ≤ r.start ∨ r.stop ≤ f.range.start
  inside : ∀ r ∈ m.fields.map (·.range) ++ m.removed,
    opened < r.start ∧ r.start < r.stop ∧ r.stop ≤ closed
  equals : ∀ f ∈ m.fields, f.range.start < f.equalsAt ∧ f.equalsAt < f.range.stop

variable {m : ClassMembers} {opened closed closed' i j : Nat}

theorem InOrder.stop_le_of_field (h : m.InOrder opened closed) {f : Field} (hf : f ∈ m.fields) :
    f.range.stop ≤ closed :=
  (h.inside _ (List.mem_append_left _ (List.mem_map_of_mem hf))).2.2

theorem InOrder.stop_le_of_removed (h : m.InOrder opened closed) {r : TokenRange} (hr : r ∈ m.removed) :
    r.stop ≤ closed :=
  (h.inside _ (List.mem_append_right _ hr)).2.2

theorem InOrder.mono (h : m.InOrder opened closed) (hle : closed ≤ closed') : m.InOrder opened closed' :=
  { h with
    inside := fun r hr =>
      have hr := h.inside r hr
      ⟨hr.1, hr.2.1, Nat.le_trans hr.2.2 hle⟩ }

theorem InOrder.withRemoved (h : m.InOrder opened i) (hopened : opened < i) (hlt : i < j) :
    (ClassOutline.withRemoved m i j).InOrder opened j where
  fields := h.fields
  removed := by
    refine List.pairwise_append.2 ⟨h.removed, List.pairwise_singleton _ _, fun r hr r' hr' => ?_⟩
    obtain rfl := List.mem_singleton.1 hr'
    exact h.stop_le_of_removed hr
  apart f hf r hr := by
    obtain hr | hr := List.mem_append.1 hr
    · exact h.apart f hf r hr
    · obtain rfl := List.mem_singleton.1 hr
      exact .inl (h.stop_le_of_field hf)
  inside r hr := by
    rw [ClassOutline.withRemoved, ← List.append_assoc] at hr
    obtain hr | hr := List.mem_append.1 hr
    · exact (h.mono (Nat.le_of_lt hlt)).inside r hr
    · obtain rfl := List.mem_singleton.1 hr
      exact ⟨hopened, hlt, Nat.le_refl j⟩
  equals := h.equals

@[simp] theorem fields_withField (m : ClassMembers) (isStatic : Bool) (f : Field) :
    (ClassOutline.withField m isStatic f).fields = m.fields ++ [f] := by
  cases isStatic <;> rfl

@[simp] theorem removed_withField (m : ClassMembers) (isStatic : Bool) (f : Field) :
    (ClassOutline.withField m isStatic f).removed = m.removed := by
  cases isStatic <;> rfl

theorem InOrder.withField (h : m.InOrder opened i) (hopened : opened < i) (isStatic : Bool) {f : Field}
    (hi : i ≤ f.range.start) (hequals : f.range.start < f.equalsAt ∧ f.equalsAt < f.range.stop) :
    (ClassOutline.withField m isStatic f).InOrder opened f.range.stop where
  fields := by
    rw [fields_withField]
    refine List.pairwise_append.2 ⟨h.fields, List.pairwise_singleton _ _, fun g hg g' hg' => ?_⟩
    obtain rfl := List.mem_singleton.1 hg'
    exact Nat.le_trans (h.stop_le_of_field hg) hi
  removed := by
    rw [removed_withField]
    exact h.removed
  apart g hg r hr := by
    rw [fields_withField] at hg
    rw [removed_withField] at hr
    obtain hg | hg := List.mem_append.1 hg
    · exact h.apart g hg r hr
    · obtain rfl := List.mem_singleton.1 hg
      exact .inr (Nat.le_trans (h.stop_le_of_removed hr) hi)
  inside r hr := by
    rw [fields_withField, removed_withField, List.map_append, List.append_assoc] at hr
    have hold := (h.mono (show i ≤ f.range.stop by omega)).inside r
    obtain hr | hr := List.mem_append.1 hr
    · exact hold (List.mem_append_left _ hr)
    obtain hr | hr := List.mem_append.1 hr
    · obtain rfl := List.mem_singleton.1 hr
      exact ⟨Nat.lt_of_lt_of_le hopened hi, Nat.lt_trans hequals.1 hequals.2, Nat.le_refl _⟩
    · exact hold (List.mem_append_right _ hr)
  equals g hg := by
    rw [fields_withField] at hg
    obtain hg | hg := List.mem_append.1 hg
    · exact h.equals g hg
    · obtain rfl := List.mem_singleton.1 hg
      exact hequals

/-! ## Names of methods -/

/-- The methods for the fields have names of their own, which are taken now and were free before. -/
structure Named (m : ClassMembers) (used : List String) (names : Names) : Prop where
  subset : used ⊆ names.used
  perm : (m.instanceInitializers ++ m.staticInitializers).Perm (m.fields.map (·.initializer))
  nodup : (m.fields.map (·.initializer)).Nodup
  fresh : ∀ f ∈ m.fields, f.initializer ∈ names.used ∧ f.initializer ∉ used

theorem perm_withField (h : (m.instanceInitializers ++ m.staticInitializers).Perm
      (m.fields.map (·.initializer))) (isStatic : Bool) (f : Field) :
    ((ClassOutline.withField m isStatic f).instanceInitializers ++
      (ClassOutline.withField m isStatic f).staticInitializers).Perm
        ((ClassOutline.withField m isStatic f).fields.map (·.initializer)) := by
  rw [fields_withField, List.map_append, List.map_singleton]
  cases isStatic with
  | true =>
    change (m.instanceInitializers ++ (m.staticInitializers ++ [f.initializer])).Perm _
    rw [← List.append_assoc]
    exact h.append_right _
  | false =>
    change (m.instanceInitializers ++ [f.initializer] ++ m.staticInitializers).Perm _
    refine List.Perm.trans ?_ (h.append_right _)
    rw [List.append_assoc, List.append_assoc]
    exact List.perm_append_comm.append_left _

theorem Named.withField {used : List String} {names : Names} (h : m.Named used names) (isStatic : Bool)
    (base : String) {f : Field} (hf : f.initializer = names.free base) :
    (ClassOutline.withField m isStatic f).Named used (names.claim base).2 where
  subset := List.Subset.trans h.subset (List.subset_cons_self _ _)
  perm := perm_withField h.perm isStatic f
  nodup := by
    rw [fields_withField, List.map_append, List.map_singleton]
    refine List.nodup_append.2 ⟨h.nodup, List.nodup_singleton _, fun name hname name' hname' => ?_⟩
    obtain ⟨g, hg, rfl⟩ := List.mem_map.1 hname
    obtain rfl := List.mem_singleton.1 hname'
    intro heq
    rw [hf] at heq
    exact names.free_not_mem base (heq ▸ (h.fresh g hg).1)
  fresh g hg := by
    rw [fields_withField] at hg
    rw [Names.used_claim]
    obtain hg | hg := List.mem_append.1 hg
    · exact ⟨List.mem_cons_of_mem _ (h.fresh g hg).1, (h.fresh g hg).2⟩
    · obtain rfl := List.mem_singleton.1 hg
      rw [hf]
      exact ⟨List.mem_cons_self, fun hmem => names.free_not_mem base (h.subset hmem)⟩

end ClassMembers

/-! ## Reading members -/

namespace ClassOutline

open ClassMembers

variable {t : Tape} {x y : Progress} {opened : Nat}

/-- What is known of a class that has been read up to some member: its ranges are in order behind the
opening brace. -/
def Ordered (opened : Nat) (x : Progress) : Prop := opened < x.index ∧ x.members.InOrder opened x.index

theorem ordered_of_readsMember (hends : ∀ {j stop : Nat}, (t.get j).rhsEnd? = some stop → j < stop)
    (h : ReadsMember t x y) (hx : Ordered opened x) : Ordered opened y := by
  refine ⟨Nat.lt_trans hx.1 h.lt, ?_⟩
  have hle := Nat.le_of_lt h.lt
  cases h with
  | construct _ _ =>
    have hm := hx.2.mono hle
    exact ⟨hm.fields, hm.removed, hm.apart, hm.inside, hm.equals⟩
  | keep _ => exact hx.2.mono hle
  | remove hlt _ => exact hx.2.withRemoved hx.1 hlt
  | field isStatic base h hstop =>
    have hlt := hends hstop
    exact hx.2.withField hx.1 isStatic h.modifiers.1 ⟨h.lt, by dsimp only; omega⟩

theorem ordered_of_readsMembers (hends : ∀ {j stop : Nat}, (t.get j).rhsEnd? = some stop → j < stop)
    (h : ReadsMembers t x y) (hx : Ordered opened x) : Ordered opened y := by
  induction h with
  | refl => exact hx
  | tail _ hstep ih => exact ordered_of_readsMember hends hstep ih

theorem named_of_readsMember {used : List String} (h : ReadsMember t x y)
    (hx : x.members.Named used x.names) : y.members.Named used y.names := by
  cases h with
  | construct _ _ => exact ⟨hx.subset, hx.perm, hx.nodup, hx.fresh⟩
  | keep _ => exact hx
  | remove _ _ => exact ⟨hx.subset, hx.perm, hx.nodup, hx.fresh⟩
  | field isStatic base _ _ => exact hx.withField isStatic base rfl

theorem named_of_readsMembers {used : List String} (h : ReadsMembers t x y)
    (hx : x.members.Named used x.names) : y.members.Named used y.names := by
  induction h with
  | refl => exact hx
  | tail _ hstep ih => exact named_of_readsMember hstep ih

theorem removable_of_readsMember (h : ReadsMember t x y) (hx : ∀ r ∈ x.members.removed, Removable t r) :
    ∀ r ∈ y.members.removed, Removable t r := by
  cases h with
  | construct _ _ => exact hx
  | keep _ => exact hx
  | remove _ hremovable =>
    intro r hr
    obtain hr | hr := List.mem_append.1 hr
    · exact hx r hr
    · obtain rfl := List.mem_singleton.1 hr
      exact hremovable
  | field isStatic base _ _ =>
    intro r hr
    rw [removed_withField] at hr
    exact hx r hr

theorem removable_of_readsMembers (h : ReadsMembers t x y)
    (hx : ∀ r ∈ x.members.removed, Removable t r) : ∀ r ∈ y.members.removed, Removable t r := by
  induction h with
  | refl => exact hx
  | tail _ hstep ih => exact removable_of_readsMember hstep ih

/-- The constructor that was read last is the one in which initial values are set, and no range
reaches into it. -/
structure SetsIn (t : Tape) (m : ClassMembers) (opened closed w k stop : Nat) : Prop where
  lt : opened < w
  le : stop ≤ closed
  insertAt? : m.insertAt? = some k
  constructor : IsConstructorAt t w k stop
  apart : ∀ r ∈ m.fields.map (·.range) ++ m.removed, r.stop ≤ w ∨ stop ≤ r.start

/-- Either no constructor has been read, or initial values are set in one. -/
def Constructed (t : Tape) (opened closed : Nat) (m : ClassMembers) : Prop :=
  (m.insertAt? = none ∧ m.parameterProperties = []) ∨ ∃ w k stop, SetsIn t m opened closed w k stop

theorem Constructed.mono {closed closed' : Nat} {m : ClassMembers} (h : Constructed t opened closed m)
    (hle : closed ≤ closed') : Constructed t opened closed' m := by
  obtain h | ⟨w, k, stop, h⟩ := h
  · exact .inl h
  · exact .inr ⟨w, k, stop, { h with le := Nat.le_trans h.le hle }⟩

/-- A range behind everything that has been read changes nothing. -/
theorem Constructed.of_ranges {closed : Nat} {m m' : ClassMembers} (h : Constructed t opened closed m)
    (hinsert : m'.insertAt? = m.insertAt?) (hproperties : m'.parameterProperties = m.parameterProperties)
    (hranges : ∀ r ∈ m'.fields.map (·.range) ++ m'.removed,
      r ∈ m.fields.map (·.range) ++ m.removed ∨ closed ≤ r.start) : Constructed t opened closed m' := by
  obtain ⟨hnone, hempty⟩ | ⟨w, k, stop, h⟩ := h
  · exact .inl ⟨hinsert.trans hnone, hproperties.trans hempty⟩
  · refine .inr ⟨w, k, stop, h.lt, h.le, hinsert.trans h.insertAt?, h.constructor, fun r hr => ?_⟩
    obtain hold | hnew := hranges r hr
    · exact h.apart r hold
    · exact .inr (Nat.le_trans h.le hnew)

theorem constructed_of_readsMember (h : ReadsMember t x y) (hx : Ordered opened x)
    (hm : Constructed t opened x.index x.members) : Constructed t opened y.index y.members := by
  have hle := Nat.le_of_lt h.lt
  cases h with
  | @construct w k stop _ hmodifiers hat =>
    refine .inr ⟨w, k, stop, Nat.lt_of_lt_of_le hx.1 hmodifiers.1, Nat.le_refl _, rfl, hat, fun r hr => ?_⟩
    exact .inl (Nat.le_trans (hx.2.inside r hr).2.2 hmodifiers.1)
  | keep _ => exact hm.mono hle
  | @remove j _ _ =>
    refine Constructed.mono (m := withRemoved x.members x.index j) (hm.of_ranges rfl rfl fun r hr => ?_) hle
    rw [withRemoved, ← List.append_assoc] at hr
    obtain hr | hr := List.mem_append.1 hr
    · exact .inl hr
    · exact .inr (by rw [List.mem_singleton.1 hr])
  | field isStatic base h _ =>
    refine (hm.of_ranges ?_ ?_ fun r hr => ?_).mono hle
    · cases isStatic <;> rfl
    · cases isStatic <;> rfl
    · rw [fields_withField, removed_withField, List.map_append, List.append_assoc] at hr
      obtain hr | hr := List.mem_append.1 hr
      · exact .inl (List.mem_append_left _ hr)
      obtain hr | hr := List.mem_append.1 hr
      · exact .inr (by rw [List.mem_singleton.1 hr]; exact h.modifiers.1)
      · exact .inl (List.mem_append_right _ hr)

theorem constructed_of_readsMembers
    (hends : ∀ {j stop : Nat}, (t.get j).rhsEnd? = some stop → j < stop) (h : ReadsMembers t x y)
    (hx : Ordered opened x) (hm : Constructed t opened x.index x.members) :
    Constructed t opened y.index y.members := by
  induction h with
  | refl => exact hm
  | tail hrun hstep ih =>
    exact constructed_of_readsMember hstep (ordered_of_readsMembers hends hrun hx) ih

end ClassOutline

/-! ## Outlines -/

namespace Emit

theorem text_mem_nameTexts {source : Source} {tokens : Array Token} {i : Nat}
    (hkind : (Tape.ofTokens source tokens).kind i = .name) :
    (Tape.ofTokens source tokens).text i ∈ nameTexts source tokens := by
  have hget : (Tape.ofTokens source tokens).get i ∈ (Tape.ofTokens source tokens).tokens := by
    cases htoken : (Tape.ofTokens source tokens).tokens[i]? with
    | none =>
      rw [Tape.kind, Tape.get, Array.getD_eq_getD_getElem?, htoken] at hkind
      cases hkind
    | some token =>
      rw [Tape.get, Array.getD_eq_getD_getElem?, htoken]
      exact Array.mem_of_getElem? htoken
  have hmem : (Tape.ofTokens source tokens).get i ∈ tokens.toList := by
    have hget := Array.mem_toList_iff.2 hget
    generalize (Tape.ofTokens source tokens).get i = token at hget ⊢
    unfold Tape.ofTokens at hget
    dsimp only at hget
    split at hget
    · exact List.mem_of_mem_dropLast (by simpa using hget)
    · exact hget
  rw [nameTexts, List.mem_eraseDups]
  exact List.mem_map_of_mem (List.mem_filter.2 ⟨hmem, beq_iff_eq.2 hkind⟩)

/-- The names of a file are taken before the walk starts. -/
theorem nameTexts_subset_of_prepare {text : String} {o : Options} {p : Prepared} {file : AnnotatedFile}
    (hfile : AnnotatedFile.ofSource (Source.ofText text) (dialectOf o) = .ok file)
    (h : prepare text o = .ok p) :
    nameTexts (Source.ofText text) file.tokens ⊆ p.state.names.used := by
  unfold prepare at h
  simp only [hfile, pure_bind] at h
  have hsubset := SupportNames.subset_used_claim ⟨nameTexts (Source.ofText text) file.tokens⟩
  generalize SupportNames.claim ⟨nameTexts (Source.ofText text) file.tokens⟩ = claimed at h hsubset
  split at h
  · cases huses : ModuleUses.ofTape (Tape.ofTokens (Source.ofText text) file.tokens) with
    | error e =>
      rw [huses] at h
      cases h
    | ok uses =>
      rw [huses] at h
      cases h
      exact List.Subset.trans hsubset (ImportPlan.ofUses_spec ..).1
  · split at h
    · cases hnames : (Tape.ofTokens (Source.ofText text) file.tokens).importedNames with
      | error e =>
        rw [hnames] at h
        cases h
      | ok names =>
        rw [hnames] at h
        cases h
        exact hsubset
    · cases h
      exact hsubset

namespace Class

open ClassOutline

variable {text : String} {o : Options} {p : Prepared} {recur : Task → Step Unit} {σ τ : State}
  {c : ClassOutline}

theorem readsMembers_of_outline {s : Setting} (hrun : outline ⟨s, recur⟩ σ = .ok (c, τ)) :
    τ = { σ with names := τ.names } ∧ ∃ (opened closed : Nat) (m : ClassMembers),
      IsBody s.tape σ.index opened closed ∧
      ReadsMembers s.tape ⟨opened + 1, {}, σ.names⟩ ⟨closed, m, τ.names⟩ ∧
      c.toClassMembers = if s.options.disableESTransforms then
        { m with instanceInitializers := [], staticInitializers := [], fields := [] } else m := by
  unfold outline at hrun
  obtain ⟨v, _, hview, hrun⟩ := bind_ok hrun
  cases hview
  obtain ⟨_, _, hoptions, hrun⟩ := bind_ok hrun
  cases hoptions
  obtain ⟨_, _, hget, hrun⟩ := bind_ok hrun
  cases hget
  cases hread : ClassOutline.read s.tape s.options.disableESTransforms σ.names σ.index with
  | error e =>
    simp only [hread] at hrun
    cases hrun
  | ok found =>
    simp only [hread] at hrun
    cases hrun
    exact ⟨rfl, reads_read.2 _ hread⟩

/-- What is read of a class of a file, with the ranges in order. -/
theorem ordered_of_outline (hp : prepare text o = .ok p)
    (hrun : outline ⟨p.setting, recur⟩ σ = .ok (c, τ)) :
    ∃ (opened closed : Nat) (m : ClassMembers), IsBody p.setting.tape σ.index opened closed ∧
      ReadsMembers p.setting.tape ⟨opened + 1, {}, σ.names⟩ ⟨closed, m, τ.names⟩ ∧
      m.InOrder opened closed ∧ Constructed p.setting.tape opened closed m ∧
      c.toClassMembers = if o.disableESTransforms then
        { m with instanceInitializers := [], staticInitializers := [], fields := [] } else m := by
  obtain ⟨file, hfile⟩ := exists_isPrepared hp
  obtain ⟨-, opened, closed, m, hbody, hreads, hmembers⟩ := readsMembers_of_outline hrun
  rw [hfile.options] at hmembers
  have hends {j stop : Nat} (h : (p.setting.tape.get j).rhsEnd? = some stop) : j < stop :=
    hfile.endsLater.lt_rhsEnd h
  have hstart : Ordered opened ⟨opened + 1, {}, σ.names⟩ :=
    ⟨Nat.lt_succ_self opened, .nil, .nil, by simp, by simp, by simp⟩
  exact ⟨opened, closed, m, hbody, hreads, (ordered_of_readsMembers hends hreads hstart).2,
    constructed_of_readsMembers hends hreads hstart (.inl ⟨rfl, rfl⟩), hmembers⟩

/-- The fields of a class and the tokens that are left out are in order and apart, between the braces of
the class. The methods for the fields have names of their own that the file does not use. Reading a class
changes nothing but which names are taken; a name that has been taken stays taken. -/
theorem inOrder_of_outline (hp : prepare text o = .ok p) (hrecent : o.disableESTransforms = false)
    (hnames : p.state.names.used ⊆ σ.names.used)
    (hrun : outline ⟨p.setting, recur⟩ σ = .ok (c, τ)) :
    τ = { σ with names := τ.names } ∧
      (∃ opened closed, IsBody p.setting.tape σ.index opened closed ∧ c.InOrder opened closed) ∧
      (c.instanceInitializers ++ c.staticInitializers).Perm (c.fields.map (·.initializer)) ∧
      (c.fields.map (·.initializer)).Nodup ∧
      ∀ f ∈ c.fields, ∀ i, p.setting.tape.kind i = .name → p.setting.tape.text i ≠ f.initializer := by
  obtain ⟨file, hfile⟩ := exists_isPrepared hp
  obtain ⟨opened, closed, m, hbody, hreads, horder, -, hmembers⟩ := ordered_of_outline hp hrun
  rw [hrecent] at hmembers
  have hnamed := named_of_readsMembers hreads
    ⟨List.Subset.refl _, .nil, .nil, fun f hf => absurd hf (List.not_mem_nil)⟩
  change m.Named σ.names.used τ.names at hnamed
  obtain rfl : c.toClassMembers = m := hmembers
  refine ⟨(readsMembers_of_outline hrun).1, ⟨opened, closed, hbody, horder⟩, hnamed.perm, hnamed.nodup,
    fun f hf i hkind heq => (hnamed.fresh f hf).2 (hnames ?_)⟩
  rw [hfile.alike.kind] at hkind
  rw [hfile.alike.text] at heq
  exact heq ▸ nameTexts_subset_of_prepare hfile.parsed hp (text_mem_nameTexts hkind)

/-- Fields with and without a value, in a class that uses the name of a method itself. -/
theorem inOrder_of_outline_fields :
    ∃ p τ c, prepare "class A\x7ba=1;b;static c=2;__init()\x7b\x7d\x7d" {} = .ok p ∧
      outline ⟨p.setting, fun _ => throw .budget⟩ p.state = .ok (c, τ) ∧
      c.fields = [⟨"__init2", 4, ⟨3, 6⟩⟩, ⟨"__initStatic", 11, ⟨10, 13⟩⟩] ∧
      c.removed = [⟨6, 7⟩, ⟨7, 8⟩, ⟨8, 9⟩, ⟨13, 14⟩] ∧
      (∃ opened closed, IsBody p.setting.tape 0 opened closed ∧ c.InOrder opened closed) ∧
      ∀ f ∈ c.fields, ∀ i, p.setting.tape.kind i = .name → p.setting.tape.text i ≠ f.initializer := by
  have hread : ((prepare "class A\x7ba=1;b;static c=2;__init()\x7b\x7d\x7d" {}).toOption.bind fun p =>
      (outline ⟨p.setting, fun _ => throw .budget⟩ p.state).toOption.map fun r =>
        (r.1.fields, r.1.removed)) = some ([⟨"__init2", 4, ⟨3, 6⟩⟩, ⟨"__initStatic", 11, ⟨10, 13⟩⟩],
          [⟨6, 7⟩, ⟨7, 8⟩, ⟨8, 9⟩, ⟨13, 14⟩]) := by
    decide +kernel
  obtain ⟨p, hp, hread⟩ := Option.bind_eq_some_iff.1 hread
  obtain ⟨⟨c, τ⟩, hrun, hread⟩ := Option.map_eq_some_iff.1 hread
  have hp := eq_ok_of_toOption hp
  have hrun := eq_ok_of_toOption hrun
  obtain ⟨hfields, hremoved⟩ := Prod.mk.inj hread
  obtain ⟨file, hfile⟩ := exists_isPrepared hp
  obtain ⟨-, hbody, -, -, hfree⟩ := inOrder_of_outline hp rfl (List.Subset.refl _) hrun
  rw [hfile.index] at hbody
  exact ⟨p, τ, c, hp, hrun, hfields, hremoved, hbody, hfree⟩

/-- What a constructor that is added begins with: it passes its arguments on to a superclass. -/
def constructorHead (c : ClassOutline) (args : String) : String :=
  if c.hasSuperclass then "constructor(..." ++ args ++ ") \x7b super(..." ++ args ++ "); "
  else "constructor() \x7b "

theorem addConstructor_of_none {className : String} (hnone : c.insertAt? = none)
    (hneeds : needsInit c = true) (env : Env) (ρ : State) :
    ∃ ρ', addConstructor c className env ρ = .ok ((), ρ') ∧
      ρ'.output = ρ.output.push
        (.added (constructorHead c (ρ.names.free "args") ++ initCode c className ++ "; \x7d")) := by
  have hadds : (c.insertAt?.isNone && needsInit c) = true := by rw [hnone, hneeds]; rfl
  unfold addConstructor constructorHead
  rw [if_pos hadds]
  cases c.hasSuperclass with
  | true => exact ⟨_, rfl, by simp [String.append_assoc]⟩
  | false => exact ⟨_, rfl, rfl⟩

theorem addConstructor_of_some {className : String} {k : Nat} (hinsert : c.insertAt? = some k)
    (env : Env) (ρ : State) : addConstructor c className env ρ = .ok ((), ρ) := by
  have hstays : ¬ (c.insertAt?.isNone && needsInit c) = true := by
    rw [hinsert]
    exact Bool.false_ne_true
  unfold addConstructor
  rw [if_neg hstays]
  rfl

/-- At the place where initial values are set, the code that sets them stands behind the token. -/
theorem bodyPart_of_insertAt {s : Setting} {className : String} {q q' : Pending} {ρ ρ' : State}
    (hinsert : c.insertAt? = some ρ.index) (hneeds : needsInit c = true)
    (hfields : ∀ f ∈ q.fields, f.range.start ≠ ρ.index) (hremoved : ∀ r ∈ q.removed, ρ.index < r.start)
    (hrun : bodyPart c className q ⟨s, recur⟩ ρ = .ok (q', ρ')) :
    q' = q ∧ ∃ υ, recur .token υ = .ok ((), ρ') ∧ υ.index = ρ.index + 1 ∧
      υ.output.toList = ρ.output.toList ++ (s.written ρ.index .whole "" (s.tape.text ρ.index) ++
        [.added (";" ++ initCode c className ++ ";")]) := by
  have hfield : q.fields.head?.filter (·.range.start == ρ.index) = none := by
    cases hq : q.fields with
    | nil => rfl
    | cons f fs => simp [hfields f (by simp [hq])]
  have hrange : q.removed.head?.filter (·.start ≤ ρ.index) = none := by
    cases hq : q.removed with
    | nil => rfl
    | cons r rs => simp [hremoved r (by simp [hq])]
  unfold bodyPart at hrun
  obtain ⟨v, _, hview, hrun⟩ := bind_ok hrun
  cases hview
  dsimp only at hrun
  rw [hfield, hrange] at hrun
  simp only [hinsert, hneeds, BEq.rfl, if_true] at hrun
  obtain ⟨_, υ, hcopy, hrun⟩ := bind_ok hrun
  obtain ⟨_, ω, hadd, hrun⟩ := bind_ok hrun
  obtain ⟨_, _, htoken, hrun⟩ := bind_ok hrun
  cases hrun
  obtain ⟨called, rfl⟩ := puts_copy.puts rfl hcopy
  cases adding_of_add hadd
  exact ⟨rfl, _, htoken, rfl, by simp [State.adding, State.moved]⟩

end Class

end Emit

end PlainScript
