import PlainScript.Proofs.Prepared

/-!
# Marks on hidden names

The tape that is written and the one that imports are read from differ in marks only: a name that an
inner declaration hides is marked before the walk. What imports and exports say does not depend on
these marks.
-/

namespace PlainScript

open Shadowing

/-- Two tapes that differ in marks only. -/
structure Tape.Alike (t t' : Tape) : Prop where
  source : t.source = t'.source
  tokens : SameButMarks t.tokens t'.tokens

namespace Tape.Alike

variable {t t' : Tape} {i : Nat}

theorem size (h : t.Alike t') : t.size = t'.size := by
  have hsize := congrArg Array.size h.tokens
  rwa [Array.size_map, Array.size_map] at hsize

theorem get (h : t.Alike t') (i : Nat) : unmarked (t.get i) = unmarked (t'.get i) := by
  have hend : t.endToken = t'.endToken := by rw [endToken, endToken, h.source]
  have htoken := congrArg (fun tokens : Array Token => (tokens[i]?).getD (unmarked t'.endToken)) h.tokens
  simp only [Array.getElem?_map, Option.getD_map] at htoken
  rw [Tape.get, Tape.get, Array.getD_eq_getD_getElem?, Array.getD_eq_getD_getElem?, hend]
  exact htoken

/-- What does not look at the mark is the same on both tapes. -/
theorem of_get {β : Type} (h : t.Alike t') (f : Token → β) (hf : ∀ x, f (unmarked x) = f x) (i : Nat) :
    f (t.get i) = f (t'.get i) :=
  calc f (t.get i) = f (unmarked (t.get i)) := (hf _).symm
    _ = f (unmarked (t'.get i)) := congrArg f (h.get i)
    _ = f (t'.get i) := hf _

theorem lexeme (h : t.Alike t') (i : Nat) : (t.get i).toLexeme = (t'.get i).toLexeme :=
  h.of_get Token.toLexeme (fun _ => rfl) i

theorem kind (h : t.Alike t') : t.kind = t'.kind :=
  funext fun i => congrArg Lexeme.kind (h.lexeme i)

theorem text (h : t.Alike t') : t.text = t'.text := by
  funext i
  rw [Tape.text, Tape.text, ← h.source]
  exact h.of_get (·.text t.source) (fun _ => rfl) i

theorem stringValue (h : t.Alike t') : t.stringValue = t'.stringValue := by
  funext i
  unfold Tape.stringValue
  dsimp only
  rw [h.lexeme, h.source]

theorem hasSoft (h : t.Alike t') : t.hasSoft = t'.hasSoft := by
  funext i keyword
  exact h.of_get (·.isSoft keyword) (fun _ => rfl) i

theorem has (h : t.Alike t') : t.has = t'.has := by
  funext i kinds
  induction kinds generalizing i with
  | nil => rfl
  | cons kind rest ih => rw [Tape.has, Tape.has, ih, h.kind]

theorem role? (h : t.Alike t') (i : Nat) : (t.get i).role? = (t'.get i).role? :=
  h.of_get Token.role? (fun _ => rfl) i

theorem rhsEnd? (h : t.Alike t') (i : Nat) : (t.get i).rhsEnd? = (t'.get i).rhsEnd? :=
  h.of_get Token.rhsEnd? (fun _ => rfl) i

end Tape.Alike

namespace ModuleUses

variable {t t' : Tape} {i : Nat}

theorem specifiersFor_alike (h : t.Alike t') (n i : Nat) :
    specifiersFor t n i = specifiersFor t' n i := by
  induction n generalizing i with
  | zero => rfl
  | succ n ih =>
    have hread : Specifier.read t i = Specifier.read t' i := by
      unfold Specifier.read Specifier.endsAt
      rw [h.kind, h.text]
    unfold specifiersFor
    simp only [ih]
    rw [h.kind, h.has, hread]

theorem readVariablesFor_alike (h : t.Alike t') (n i depth : Nat) (u : ModuleUses) :
    readVariablesFor t n i depth u = readVariablesFor t' n i depth u := by
  induction n generalizing i depth u with
  | zero => rfl
  | succ n ih =>
    unfold readVariablesFor Token.hasRole
    simp only [ih]
    rw [h.size, h.lexeme, h.text, h.role?, h.rhsEnd?]

theorem readAt_alike (h : t.Alike t') : readAt t = readAt t' := by
  have hspecifiers : specifiers t = specifiers t' := by
    funext i
    rw [specifiers, specifiers, h.size, specifiersFor_alike h]
  have himport : readImport t = readImport t' := by
    funext i u
    unfold readImport isTypeClause
    rw [h.kind, h.text, h.hasSoft, h.stringValue, hspecifiers]
  have hexport : readExport t = readExport t' := by
    funext i u
    unfold readExport readNamedExport readStarExport
    simp only [readVariablesFor_alike h]
    rw [h.kind, h.text, h.has, h.hasSoft, h.stringValue, h.size, hspecifiers]
  funext u i
  unfold readAt
  rw [h.kind, h.has, himport, hexport]

/-- Marks do not change what imports and exports say. -/
theorem ofTape_alike (h : t.Alike t') : ofTape t = ofTape t' := by
  rw [ofTape, ofTape, h.size, readAt_alike h]

end ModuleUses

theorem Emit.IsPrepared.alike {text : String} {o : Options} {p : Prepared} {file : AnnotatedFile}
    (hp : IsPrepared text o p file) :
    p.setting.tape.Alike (Tape.ofTokens (Source.ofText text) file.tokens) :=
  ⟨hp.source, hp.tokens⟩

end PlainScript
