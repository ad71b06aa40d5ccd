import PlainScript.Token

/-!
# Tapes

The tokens of a source as the passes after the parser read them: by index, and without the token
that ends the text. Reading past the last token gives a token that ends the text and carries no
annotations.
-/

namespace PlainScript

/-- The tokens of a source, without the token that ends the text. -/
structure Tape where
  source : Source
  tokens : Array Token

namespace Tape

def ofTokens (source : Source) (tokens : Array Token) : Tape where
  source := source
  tokens := if tokens.back?.any (·.kind == .eof) then tokens.pop else tokens

def size (t : Tape) : Nat := t.tokens.size

def endToken (t : Tape) : Token where
  kind := .eof
  start := t.source.size
  stop := t.source.size

def get (t : Tape) (i : Nat) : Token := t.tokens.getD i t.endToken

/-- The token before an index; before the first one it reads as past the end. -/
def before (t : Tape) (i : Nat) : Token := if i = 0 then t.endToken else t.get (i - 1)

def kind (t : Tape) (i : Nat) : TokenKind := (t.get i).kind

def text (t : Tape) (i : Nat) : String := (t.get i).text t.source

/-- The text of a token without its first and last byte, which are the quotes of a string. -/
def stringValue (t : Tape) (i : Nat) : String :=
  let token := t.get i
  if token.stop < token.start + 2 then "" else t.source.slice (token.start + 1) (token.stop - 1)

def has (t : Tape) : Nat → List TokenKind → Bool
  | _, [] => true
  | i, k :: rest => t.kind i == k && t.has (i + 1) rest

def hasOneOf (t : Tape) (i : Nat) (kinds : List TokenKind) : Bool := kinds.contains (t.kind i)

/-- Whether the token at an index is a name that spells a soft keyword. -/
def hasSoft (t : Tape) (i : Nat) (keyword : SoftKeyword) : Bool := (t.get i).isSoft keyword

/-- Whether the token at an index is the word `async`, whatever the parser made of it. -/
def hasAsync (t : Tape) (i : Nat) : Bool := t.kind i == .asyncModifier || t.hasSoft i .asyncName

def hasContext (t : Tape) (i : Nat) (kind : TokenKind) (contextId? : Option Nat) : Bool :=
  t.kind i == kind && (t.get i).contextId? == contextId?

/-- The first index from `i` on, among the next `n`, whose token fails `p`. -/
def skipFor (t : Tape) (p : Token → Bool) : Nat → Nat → Nat
  | 0, i => i
  | n + 1, i => if i < t.size ∧ p (t.get i) then t.skipFor p n (i + 1) else i

/-- The first index from `i` on whose token fails `p`, or the end. -/
def skip (t : Tape) (p : Token → Bool) (i : Nat) : Nat := t.skipFor p (t.size - i) i

theorem get_of_size_le {t : Tape} {i : Nat} (h : t.size ≤ i) : t.get i = t.endToken := by
  simp [get, Array.getD, size] at h ⊢
  omega

theorem lt_size_of_kind {t : Tape} {i : Nat} (h : t.kind i ≠ .eof) : i < t.size := by
  refine Nat.lt_of_not_le fun hle => h ?_
  rw [kind, get_of_size_le hle]
  rfl

/-- What is skipped satisfies the predicate; what is found does not, unless the count ran out. -/
theorem skipFor_spec (t : Tape) (p : Token → Bool) (n i : Nat) :
    i ≤ t.skipFor p n i ∧ (∀ k, i ≤ k → k < t.skipFor p n i → p (t.get k) = true) ∧
      (t.skipFor p n i < i + n → t.skipFor p n i < t.size → p (t.get (t.skipFor p n i)) = false) := by
  induction n generalizing i with
  | zero =>
    refine ⟨Nat.le_refl i, fun k hk hlt => absurd hlt (Nat.not_lt.2 hk), fun hlt => ?_⟩
    exact absurd hlt (Nat.lt_irrefl i)
  | succ n ih =>
    unfold skipFor
    split
    next h =>
      obtain ⟨hle, hskipped, hstop⟩ := ih (i + 1)
      refine ⟨by omega, fun k hk hlt => ?_, fun hlt => hstop (by omega)⟩
      obtain rfl | hne := Nat.eq_or_lt_of_le hk
      · exact h.2
      · exact hskipped k hne hlt
    next h =>
      refine ⟨Nat.le_refl i, fun k hk hlt => absurd hlt (Nat.not_lt.2 hk), fun _ hlt => ?_⟩
      exact Bool.eq_false_iff.2 fun hp => h ⟨hlt, hp⟩

theorem le_skip (t : Tape) (p : Token → Bool) (i : Nat) : i ≤ t.skip p i :=
  (t.skipFor_spec p _ i).1

theorem of_lt_skip {t : Tape} {p : Token → Bool} {i k : Nat} (hk : i ≤ k) (h : k < t.skip p i) :
    p (t.get k) = true :=
  (t.skipFor_spec p _ i).2.1 k hk h

theorem skip_stop {t : Tape} {p : Token → Bool} {i : Nat} (h : t.skip p i < t.size) :
    p (t.get (t.skip p i)) = false := by
  have hle := t.le_skip p i
  have hlt : t.skip p i < i + (t.size - i) := by omega
  exact (t.skipFor_spec p _ i).2.2 hlt h

end Tape

end PlainScript
