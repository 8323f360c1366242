/-!
# Faults

A fault is a demand that an operation cannot meet. An operation that may fault
gives the state that it leaves behind beside its answer.
-/

namespace ScopedStyle

inductive Fault
  | missingNode
  | missingParent
  | underOwnSubtree
  | overflow
  deriving DecidableEq

def Fault.message : Fault → String
  | missingNode => "node does not exist"
  | missingParent => "parent does not exist"
  | underOwnSubtree => "appending a node under its own subtree"
  | overflow => "attempt to add with overflow"

def successor (limit n : Nat) : Except Fault Nat :=
  if n < limit then .ok (n + 1) else .error .overflow

theorem successor_eq_ok_iff {limit n m : Nat} :
    successor limit n = .ok m ↔ m = n + 1 ∧ m ≤ limit := by
  unfold successor
  split
  · constructor
    · intro h; cases h; omega
    · rintro ⟨rfl, _⟩; rfl
  · constructor
    · intro h; cases h
    · rintro ⟨rfl, _⟩; omega

end ScopedStyle
