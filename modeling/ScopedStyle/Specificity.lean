import ScopedStyle.Fault
import ScopedStyle.Rule

/-!
# Specificity

Of two declarations the important one wins, then the one whose selector counts
more ids, then more classes, then more types, then the later one. Each count
has 16 bits and the position 32; what needs more is a fault.
-/

namespace ScopedStyle

structure Specificity where
  important : Bool
  ids : Nat
  classes : Nat
  types : Nat
  order : Nat
  deriving DecidableEq

namespace Specificity

def zero : Specificity := ⟨false, 0, 0, 0, 0⟩

/-- The numbers that are compared, the most weighty first. -/
def key (s : Specificity) : List Nat := [s.important.toNat, s.ids, s.classes, s.types, s.order]

theorem key_lt_key_iff {s t : Specificity} :
    s.key < t.key ↔ s.important < t.important ∨ s.important = t.important ∧
      (s.ids < t.ids ∨ s.ids = t.ids ∧
        (s.classes < t.classes ∨ s.classes = t.classes ∧
          (s.types < t.types ∨ s.types = t.types ∧ s.order < t.order))) := by
  have himportant : s.important.toNat < t.important.toNat ↔ s.important < t.important := by
    cases s.important <;> cases t.important <;> decide
  have hsame : s.important.toNat = t.important.toNat ↔ s.important = t.important := by
    cases s.important <;> cases t.important <;> decide
  simp [key, List.cons_lt_cons_iff, himportant, hsame]

instance : LE Specificity := ⟨fun s t => ¬t.key < s.key⟩

instance : DecidableLE Specificity := fun s t => inferInstanceAs (Decidable (¬t.key < s.key))

theorem key_injective {s t : Specificity} (h : s.key = t.key) : s = t := by
  cases s with
  | mk i a b c o =>
    cases t with
    | mk j a' b' c' o' =>
      cases i <;> cases j <;> simp_all [key]

def withImportant (s : Specificity) (important : Bool) : Specificity := { s with important }

def limit : Nat := 65535

def orderLimit : Nat := 4294967295

def countId (s : Specificity) : Except Fault Specificity :=
  (successor limit s.ids).map fun n => { s with ids := n }

def countClass (s : Specificity) : Except Fault Specificity :=
  (successor limit s.classes).map fun n => { s with classes := n }

def countType (s : Specificity) : Except Fault Specificity :=
  (successor limit s.types).map fun n => { s with types := n }

def countTag (s : Specificity) : TagTest → Except Fault Specificity
  | .named _ => s.countType
  | .any => .ok s

def countTest (s : Specificity) : Test → Except Fault Specificity
  | .hasId _ => s.countId
  | .hasClass _ | .hasAttr _ | .pseudoClass _ => s.countClass
  | .pseudoElement _ => s.countType

def countTests (s : Specificity) : List Test → Except Fault Specificity
  | [] => .ok s
  | t :: ts =>
      match s.countTest t with
      | .error e => .error e
      | .ok s' => s'.countTests ts

def countCompound (s : Specificity) : Compound → Except Fault Specificity
  | .tagged tag tests =>
      match s.countTag tag with
      | .error e => .error e
      | .ok s' => s'.countTests tests
  | .untagged first others => s.countTests (first :: others)

def countCompounds (s : Specificity) : List Compound → Except Fault Specificity
  | [] => .ok s
  | c :: cs =>
      match s.countCompound c with
      | .error e => .error e
      | .ok s' => s'.countCompounds cs

def ofSelector (selector : Selector) (order : Nat) (important : Bool) :
    Except Fault Specificity :=
  (⟨important, 0, 0, 0, order⟩ : Specificity).countCompounds selector.compounds

end Specificity
end ScopedStyle
