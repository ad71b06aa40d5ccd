import PlainScript.Proofs.PassesWrite

/-!
# Which pass handles a token

A pass that does not handle the token under the cursor leaves the cursor, the output and the taken
names as they are. So all passes are asked about the same token, and a token is copied only if each
of them has declined it. A name that the rule for references has declined is one that nothing
replaces, which is the last of the reasons why a name is written as it stands.
-/

namespace PlainScript.Emit

-- Counted in combinators.
set_option synthInstance.maxSize 100000

/-- A part of the writer that never answers `false`. -/
class Accepts (e : Emit Bool) : Prop where
  accepts {env : Env} {σ τ : State} {b : Bool} (hrun : e env σ = .ok (b, τ)) : b = true

/-- A part of the writer that has done nothing if it answers `false`. -/
class Declines (e : Emit Bool) : Prop where
  place {env : Env} {σ τ : State} (hrun : e env σ = .ok (false, τ)) : τ.place = σ.place

namespace Accepts

variable {α : Type}

instance pure : Accepts (Pure.pure true) where
  accepts hrun := by
    cases hrun
    rfl

instance bind (e : Emit α) (f : α → Emit Bool) [hf : ∀ a, Accepts (f a)] : Accepts (e >>= f) where
  accepts hrun := by
    obtain ⟨a, υ, _, hrest⟩ := bind_ok hrun
    exact (hf a).accepts hrest

instance ite (c : Prop) [Decidable c] (a b : Emit Bool) [Accepts a] [Accepts b] :
    Accepts (if c then a else b) := by
  split <;> infer_instance

end Accepts

namespace Declines

variable {α : Type}

instance (priority := low) ofUnfolds (e : Emit Bool) {body : Emit Bool} [h : Unfolds e body]
    [hbody : Declines body] : Declines e := by
  rw [h.eq]
  exact hbody

instance (e : Emit Bool) [he : Accepts e] : Declines e where
  place hrun := absurd (he.accepts hrun) (by decide)

instance ofFixes (e : Emit Bool) [he : Fixes State.place e] : Declines e where
  place hrun := he.fixes hrun

instance bind (e : Emit α) (f : α → Emit Bool) [he : Fixes State.place e]
    [hf : ∀ a, Declines (f a)] : Declines (e >>= f) where
  place hrun := by
    obtain ⟨a, υ, hfirst, hrest⟩ := bind_ok hrun
    exact ((hf a).place hrest).trans (he.fixes hfirst)

theorem andThen {e : Emit α} {f : α → Emit Bool} [Fixes State.place e]
    (hf : ∀ a, Declines (f a)) : Declines (e >>= f) :=
  Declines.bind e f

instance ite (c : Prop) [Decidable c] (a b : Emit Bool) [Declines a] [Declines b] :
    Declines (if c then a else b) := by
  split <;> infer_instance

instance orElse (e f : Emit Bool) [he : Declines e] [hf : Declines f] :
    Declines (e >>= fun b => if b = true then Pure.pure true else f) where
  place hrun := by
    obtain ⟨b, υ, hfirst, hrest⟩ := bind_ok hrun
    cases b with
    | true => cases hrest
    | false => exact (hf.place hrest).trans (he.place hfirst)

end Declines

/-! ## The passes -/

instance : Declines optionalChainPass := by
  unfold optionalChainPass
  refine .andThen fun v => ?_
  split
  · infer_instance
  split
  · infer_instance
  · split <;> infer_instance

instance : Declines displayNamePass := by
  unfold displayNamePass
  refine .andThen fun v => ?_
  split
  · infer_instance
  split
  · refine .andThen fun code? => ?_
    split <;> infer_instance
  · infer_instance

namespace CommonJs

instance : Declines identifier := by
  unfold identifier
  refine .andThen fun v => ?_
  split
  · infer_instance
  · refine .andThen fun code? => ?_
    split <;> infer_instance

instance declines_assignment : Declines assignment := by
  unfold assignment
  refine .andThen fun v => ?_
  split
  · infer_instance
  split
  · infer_instance
  · refine .andThen fun target? => ?_
    split <;> infer_instance

instance declines_compoundAssignment : Declines compoundAssignment := by
  unfold compoundAssignment
  refine .andThen fun v => ?_
  split
  · infer_instance
  split
  · infer_instance
  · refine .andThen fun target? => ?_
    split <;> infer_instance

instance declines_prefixIncrement : Declines prefixIncrement := by
  unfold prefixIncrement
  refine .andThen fun v => ?_
  split
  · infer_instance
  · refine .andThen fun target? => ?_
    split <;> infer_instance

instance declines_postfixIncrement : Declines postfixIncrement := by
  unfold postfixIncrement
  refine .andThen fun v => ?_
  split
  · infer_instance
  · refine .andThen fun target? => ?_
    split
    · infer_instance
    · refine .andThen fun code? => ?_
      dsimp only
      split <;> infer_instance

end CommonJs

instance : Declines commonJsPass := by
  unfold commonJsPass
  refine .andThen fun v => ?_
  have hlast : Declines (CommonJs.ruleFor v.kind) := by
    unfold CommonJs.ruleFor
    split <;> infer_instance
  infer_instance

namespace EsModule

end EsModule

instance declines_run (pass : Pass) : Declines pass.run := by
  cases pass <;> unfold Pass.run <;> infer_instance

/-- If no pass handles a token, each of them has been asked where the cursor was at first. -/
theorem firstPass_declined {passes : List Pass} {env : Env} {σ τ : State}
    (hrun : firstPass passes env σ = .ok (false, τ)) :
    τ.place = σ.place ∧ ∀ pass ∈ passes, ∃ ρ υ : State, ρ.index = σ.index ∧
      pass.run env ρ = .ok (false, υ) := by
  induction passes generalizing σ with
  | nil =>
    cases hrun
    exact ⟨rfl, nofun⟩
  | cons pass rest ih =>
    unfold firstPass at hrun
    obtain ⟨b, υ, hpass, hrest⟩ := bind_ok hrun
    cases b with
    | true => cases hrest
    | false =>
      have hυ := (declines_run pass).place hpass
      obtain ⟨hplace, hasked⟩ := ih hrest
      refine ⟨hplace.trans hυ, fun other hother => ?_⟩
      obtain rfl | hother := List.mem_cons.1 hother
      · exact ⟨σ, υ, rfl, hpass⟩
      · obtain ⟨ρ, ρ', hρ, hrun⟩ := hasked other hother
        exact ⟨ρ, ρ', hρ.trans (State.index_of_place hυ), hrun⟩

/-! ## References -/

section

variable {s : Setting} {recur : Task → Step Unit} {σ τ : State}

theorem view_bind {α : Type} (f : View → Emit α) :
    (view >>= f) ⟨s, recur⟩ σ = f ⟨s.tape, σ.index⟩ ⟨s, recur⟩ σ := rfl

/-- What the rule for references does where the cursor is. -/
theorem CommonJs.identifier_eq (s : Setting) (recur : Task → Step Unit) (σ : State) :
    CommonJs.identifier ⟨s, recur⟩ σ =
      (if (s.tape.get σ.index).shadowsGlobal then pure false
      else
        match (s.tape.get σ.index).role?, s.plan.replacement? (s.tape.text σ.index) with
        | some .objectShorthand, some code => do
          replace (s.tape.text σ.index ++ ": " ++ code)
          return true
        | some .access, some code => do
          reference code
          return true
        | _, _ => return false : Emit Bool) ⟨s, recur⟩ σ := by
  unfold CommonJs.identifier
  rw [view_bind]
  change (if (s.tape.get σ.index).shadowsGlobal = true then _ else _ : Emit Bool) _ _ = _
  split <;> rfl

/-- The rule for references declines a name only if nothing replaces it. -/
theorem CommonJs.identifier_declined
    (hrun : CommonJs.identifier ⟨s, recur⟩ σ = .ok (false, τ)) : s.replacementAt? σ.index = none := by
  rw [CommonJs.identifier_eq] at hrun
  unfold Setting.replacementAt?
  dsimp only
  split
  · rfl
  next hshadows =>
    rw [if_neg hshadows] at hrun
    cases hcode : s.plan.replacement? (s.tape.text σ.index) with
    | none => split <;> rfl
    | some code =>
      cases hrole : (s.tape.get σ.index).role? with
      | none => rfl
      | some role =>
        rw [hrole, hcode] at hrun
        -- A role for which there is a replacement is answered with `true`.
        cases role <;> first | rfl | (obtain ⟨_, _, _, hrun⟩ := bind_ok hrun; cases hrun)

theorem isAt_eq_false {t : Tape} {i : Nat} {k : TokenKind} {rest : List TokenKind}
    (h : t.kind i ≠ k) : View.isAt ⟨t, i⟩ (k :: rest) = false := by
  simp [View.isAt, Tape.has, h]

/-- At a name, the pass for CommonJS handles `++` and `--` behind it, and references. -/
theorem commonJsPass_eq (hname : Shadowing.isNameToken (s.tape.get σ.index) = true) :
    commonJsPass ⟨s, recur⟩ σ =
      (if View.isAt ⟨s.tape, σ.index⟩ [.name, .postIncrement] then do
        if ← CommonJs.postfixIncrement then return true
        CommonJs.identifier
      else CommonJs.identifier : Emit Bool) ⟨s, recur⟩ σ := by
  have hkind : s.tape.kind σ.index = .name ∨ s.tape.kind σ.index = .jsxName := by
    simpa [Shadowing.isNameToken, Tape.kind] using hname
  have himport (rest : List TokenKind) :
      View.isAt ⟨s.tape, σ.index⟩ (.importWord :: rest) = false :=
    isAt_eq_false (by obtain h | h := hkind <;> rw [h] <;> decide)
  have hexport (rest : List TokenKind) :
      View.isAt ⟨s.tape, σ.index⟩ (.exportWord :: rest) = false :=
    isAt_eq_false (by obtain h | h := hkind <;> rw [h] <;> decide)
  unfold commonJsPass
  rw [view_bind]
  obtain h | h := hkind
  · have hview : View.kind ⟨s.tape, σ.index⟩ = .name := h
    simp only [himport, hexport, hview]
    rfl
  · have hview : View.kind ⟨s.tape, σ.index⟩ = .jsxName := h
    simp only [himport, hexport, hview]
    rfl

/-- So does the whole pass, at a name. -/
theorem commonJsPass_declined (hname : Shadowing.isNameToken (s.tape.get σ.index) = true)
    (hrun : commonJsPass ⟨s, recur⟩ σ = .ok (false, τ)) : s.replacementAt? σ.index = none := by
  rw [commonJsPass_eq hname] at hrun
  split at hrun
  · obtain ⟨b, υ, hpost, hrest⟩ := bind_ok hrun
    cases b with
    | true => cases hrest
    | false =>
      have hindex := State.index_of_place (CommonJs.declines_postfixIncrement.place hpost)
      rw [← hindex]
      exact CommonJs.identifier_declined hrest
  · exact CommonJs.identifier_declined hrun

end

/-! ## Tasks -/

section

variable {s : Setting} {i : Nat}

/-- Every pass that is asked keeps the output justified. -/
theorem keeps_run [hs : IsCommonJs s] {pass : Pass} (h : pass ∈ Pass.enabled s.options) :
    Keeps s i pass.run := by
  have hjsx : pass = .element ∨ pass = .displayName → IsJsx s := by
    rintro (rfl | rfl) <;> exact ⟨by simpa [Pass.enabled, hs.imports] using h⟩
  cases pass <;> unfold Pass.run
  case element =>
    have := hjsx (.inl rfl)
    infer_instance
  case esModule => simp [Pass.enabled, hs.imports] at h
  all_goals infer_instance

theorem keeps_firstPass {passes : List Pass} (h : ∀ pass ∈ passes, ∀ j, Keeps s j pass.run) :
    Keeps s i (firstPass passes) := by
  induction passes generalizing i with
  | nil => exact Takes.pure false
  | cons pass rest ih =>
    have := h pass List.mem_cons_self
    have := fun j => ih (i := j) fun other hother => h other (List.mem_cons_of_mem _ hother)
    unfold firstPass
    infer_instance

/-- A token that every pass has declined may be written as it stands. -/
theorem mayStay_of_declined [hs : IsCommonJs s] {recur : Task → Step Unit} {σ τ : State}
    (hrun : firstPass (Pass.enabled s.options) ⟨s, recur⟩ σ = .ok (false, τ)) :
    MayStay s σ.index where
  stays hname := by
    have hmem : Pass.commonJs ∈ Pass.enabled s.options := by simp [Pass.enabled, hs.imports]
    obtain ⟨ρ, υ, hρ, hpass⟩ := (firstPass_declined hrun).2 _ hmem
    rw [← hρ] at hname ⊢
    exact .unreplaced (commonJsPass_declined hname hpass)

instance keeps_token [IsCommonJs s] : Keeps s i token := by
  have hchoice : Keeps s i (do
      unless ← firstPass (Pass.enabled s.options) do
        copy) := by
    refine .of fun {recur σ τ a} hrecur hindex hrun => ?_
    obtain ⟨b, υ, hfirst, hrest⟩ := bind_ok hrun
    have hυ := (keeps_firstPass fun pass hpass j => keeps_run hpass).keeps hrecur hindex hfirst
    cases b with
    | true =>
      cases hrest
      exact hυ
    | false =>
      have hplace := (firstPass_declined hfirst).1
      have := mayStay_of_declined hfirst
      have hcopy : Keeps s σ.index copy := inferInstance
      exact hυ.trans (hcopy.keeps hrecur (State.index_of_place hplace) hrest)
  unfold token
  infer_instance

instance (d : Depth) : Keeps s i (balancedRound d) := by
  unfold balancedRound
  refine .look ?_
  split
  · infer_instance
  · split <;> infer_instance

instance keeps_balanced : Keeps s i balanced := by
  unfold balanced
  infer_instance

theorem keeps_perform [IsCommonJs s] (task : Task) [h : Allows s task] : Keeps s i (perform task) := by
  cases task with
  | token => exact keeps_token
  | balanced => exact keeps_balanced
  | element =>
    have : IsJsx s := ⟨h.jsx rfl⟩
    exact inferInstanceAs (Keeps s i Element.element)

/-- Tasks are done with reasons, to any depth. -/
theorem justifies_performFor [IsCommonJs s] (n : Nat) : Justifies s (performFor s n) := by
  induction n with
  | zero =>
    intro task _ σ τ hrun
    cases hrun
  | succ n ih =>
    intro task _ σ τ hrun
    exact (keeps_perform task).keeps ih rfl hrun

instance keeps_file : Keeps s i file := by
  unfold file
  infer_instance

end

end PlainScript.Emit
