import PlainScript.Output

/-!
# Laws of parts of a program

A law is a property of parts of a program that holds of doing nothing and of one part after another if
it holds of both. Then it holds of everything that is put together from parts of which it holds, and
instances for them follow the text of a definition.
-/

namespace PlainScript

/-- A part of a program and what it consists of. What is known of its parts is known of it. -/
class Unfolds {m : Type → Type} {α : Type} (e : m α) (body : outParam (m α)) : Prop where
  eq : e = body

/-- The equation of a definition. -/
abbrev DefinedBy {m : Type → Type} {α : Type} {e body : m α} (_ : e = body) : Prop := Unfolds e body

/-- A property that carries over from parts to what is put together from them. -/
structure Law (m : Type → Type) [Monad m] where
  Holds {α : Type} : m α → Prop
  pure {α : Type} (a : α) : Holds (Pure.pure a)
  bind {α β : Type} {e : m α} {f : α → m β} : Holds e → (∀ a, Holds (f a)) → Holds (e >>= f)

/-- A part of a program that obeys a law. -/
class Obeys {m : Type → Type} [Monad m] (L : Law m) {α : Type} (e : m α) : Prop where
  holds : L.Holds e

namespace Obeys

variable {m : Type → Type} [Monad m] {L : Law m} {α β : Type}

instance (priority := low) ofUnfolds (e : m α) {body : m α} [h : Unfolds e body] [hbody : Obeys L body] :
    Obeys L e := by
  rw [h.eq]
  exact hbody

instance pure (a : α) : Obeys L (Pure.pure a) := ⟨L.pure a⟩

instance bind (e : m α) (f : α → m β) [he : Obeys L e] [hf : ∀ a, Obeys L (f a)] : Obeys L (e >>= f) :=
  ⟨L.bind he.holds fun a => (hf a).holds⟩

/-- A part and what follows it, for a part that ends in a case distinction. -/
theorem andThen {e : m α} {f : α → m β} [Obeys L e] (hf : ∀ a, Obeys L (f a)) : Obeys L (e >>= f) :=
  bind e f

instance ite (c : Prop) [Decidable c] (a b : m α) [Obeys L a] [Obeys L b] :
    Obeys L (if c then a else b) := by
  split <;> infer_instance

variable [LawfulMonad m]

instance map (f : α → β) (e : m α) [Obeys L e] : Obeys L (f <$> e) := by
  rw [map_eq_pure_bind]
  infer_instance

instance discard (e : m α) [Obeys L e] : Obeys L (Functor.discard e) := by
  change Obeys L (Functor.mapConst PUnit.unit e)
  rw [LawfulFunctor.map_const, Function.comp_apply]
  infer_instance

instance and (a b : m Bool) [Obeys L a] [Obeys L b] : Obeys L (a <&&> b) := by
  unfold andM
  refine .andThen fun holds => ?_
  split <;> infer_instance

instance or (a b : m Bool) [Obeys L a] [Obeys L b] : Obeys L (a <||> b) := by
  unfold orM
  refine .andThen fun holds => ?_
  split <;> infer_instance

instance forIn (xs : List α) (x : β) (f : α → β → m (ForInStep β)) [hf : ∀ a x, Obeys L (f a x)] :
    Obeys L (ForIn.forIn xs x f) := by
  induction xs generalizing x with
  | nil => exact inferInstanceAs (Obeys L (Pure.pure x))
  | cons a xs ih =>
    rw [List.forIn_cons]
    refine .andThen fun step => ?_
    split
    · infer_instance
    · exact ih _

end Obeys

end PlainScript
