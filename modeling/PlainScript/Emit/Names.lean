/-!
# Fresh names

Generated code must not use a name that the file uses. `Names` holds the names that are taken, and
`Names.claim` takes one more: the asked name if it is free, else the same name with the smallest
number from 2 on that makes it free. A search among more candidates than there are taken names
always succeeds.
-/

namespace PlainScript

structure Names where
  used : List String := []
deriving DecidableEq, Repr

namespace Names

def taken (names : Names) (name : String) : Bool := names.used.contains name

def numbered (base : String) (k : Nat) : String := base ++ Nat.repr k

/-- The first free one of the `n` names that have the numbers from `k` on. -/
def searchFor (names : Names) (base : String) : Nat → Nat → Option String
  | 0, _ => none
  | n + 1, k =>
    if names.taken (numbered base k) then names.searchFor base n (k + 1)
    else some (numbered base k)

def free (names : Names) (base : String) : String :=
  if names.taken base then (names.searchFor base names.used.length 2).getD base else base

def claim (names : Names) (base : String) : String × Names :=
  let name := names.free base
  (name, ⟨name :: names.used⟩)

/-- Takes the free names for a list of base names, one after the other. -/
def claimAll (names : Names) : List String → List String × Names
  | [] => ([], names)
  | base :: rest =>
    let (name, names) := names.claim base
    let (others, names) := names.claimAll rest
    (name :: others, names)

theorem used_claim (names : Names) (base : String) :
    (names.claim base).2.used = names.free base :: names.used := rfl

end Names

end PlainScript
