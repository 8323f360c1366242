import ScopedStyle.Document

/-!
# Selectors on documents

A selector is matched from its last compound to the left. Each combinator names
the nodes that may stand for the compound in front of it, and all of them are
tried. Pseudo-classes and pseudo-elements match nothing.
-/

namespace ScopedStyle
open Text

def isQuote (c : Char) : Bool := c == '"' || c == '\''

def stripQuotes (t : Text) : Text := ((t.dropWhile isQuote).reverse.dropWhile isQuote).reverse

/-- The inside of an attribute test: a name, or a name and a value with an equals sign between. -/
def Node.hasAttr (n : Node) (raw : Text) : Bool :=
  match cut? '=' raw with
  | none => (n.attribute? (trim raw)).isSome
  | some (name, value) => n.attribute? (trim name) == some (stripQuotes (trim value))

def Test.holds (n : Node) : Test → Bool
  | .hasClass name => n.hasClass name
  | .hasId name => n.id? == some name
  | .hasAttr raw => n.hasAttr raw
  | .pseudoClass _ => false
  | .pseudoElement _ => false

def TagTest.holds (n : Node) : TagTest → Bool
  | .named name => lower n.tag == lower name
  | .any => true

def Compound.holds (n : Node) : Compound → Bool
  | .tagged tag tests => !n.isText && tag.holds n && tests.all (Test.holds n)
  | .untagged first others => !n.isText && first.holds n && others.all (Test.holds n)

namespace Document

def satisfies (d : Document) (c : Compound) (id : NodeId) : Bool := (d.node? id).any c.holds

def candidates (d : Document) (id : NodeId) : Combinator → List NodeId
  | .child => (d.parent? id).toList
  | .descendant => d.ancestors id
  | .nextSibling => (d.previousSiblings id).take 1
  | .subsequentSibling => d.previousSiblings id

def matchesLeft (d : Document) : List (Combinator × Compound) → NodeId → Bool
  | [], _ => true
  | (k, c) :: rest, id =>
      (d.candidates id k).any fun m => d.satisfies c m && d.matchesLeft rest m

def selects (d : Document) (s : Selector) (id : NodeId) : Bool :=
  d.satisfies s.leftward.1 id && d.matchesLeft s.leftward.2 id

end Document
end ScopedStyle
